import Mycel.Decimal.Numeral
import Mycel.Json.Basic
import Mycel.Machine.World

/-!
# Values of a host

A host gives a program values of its own, and takes values back. What the language has no
counterpart for becomes a string that shows it.
-/

namespace Mycel

/-- A value of a host. -/
inductive HostValue where
  /-- No value at all. -/
  | absent
  | bool (b : Bool)
  | text (t : Text)
  /-- Bytes that are not meant as a text. -/
  | octets (t : Text)
  /-- Something that knows how to describe itself. -/
  | described (t : Text)
  | number (x : Float)
  /-- A whole number of a type that is shown instead of converted. -/
  | numeral (n : Int)
  | list (elements : List HostValue)
  | table (entries : List (Text × HostValue))
  | closure (name : Option Text) (params : List Text)
  | builtin (name : Text)
  deriving Inhabited

namespace HostValue

/-- How numbers inside lists and tables are shown: whole ones are no exception. -/
def layout : Layout :=
  { least := -4
    bound := 6
    integralBound := 6
    exponentWidth := 2
    infinity := "+Inf"
    negativeInfinity := "-Inf"
    nan := "NaN" }

/-- Keeps the last of several entries with one name. -/
def dedup {α : Type} : List (Text × α) → List (Text × α)
  | [] => []
  | (name, x) :: rest =>
    if rest.any fun (n, _) => n == name then dedup rest else (name, x) :: dedup rest

mutual

/-- The host value that a JSON value says. -/
def ofJson : Json → HostValue
  | .null => .absent
  | .bool b => .bool b
  | .number l => .number ((Numeral.double? l).getD 0)
  | .string t => .text t
  | .array es => .list (ofJsonAll es)
  | .object ms => .table (dedup (ofJsonMembers ms))

/-- The host values of array elements. -/
def ofJsonAll : List Json → List HostValue
  | [] => []
  | j :: rest => ofJson j :: ofJsonAll rest

/-- The host values of object members. -/
def ofJsonMembers : List (Text × Json) → List (Text × HostValue)
  | [] => []
  | (name, j) :: rest => (name, ofJson j) :: ofJsonMembers rest

end

/-- Entries in the order of their names. -/
def sortEntries (entries : List (Text × Text)) : List (Text × Text) :=
  entries.mergeSort fun a b => Text.le a.1 b.1

mutual

/-- A value as it is shown: elements of lists with blanks between them, entries of tables in the
order of their names. -/
def render : HostValue → Text
  | absent => bytes "<nil>"
  | bool b => Text.ofBool b
  | text t => t
  | octets t =>
    bytes "[" ++ Text.join (bytes " ") (t.map fun b => Text.ofNat b.toNat) ++ bytes "]"
  | described t => t
  | number x => layout.number x
  | numeral n => Text.ofInt n
  | list es => bytes "[" ++ Text.join (bytes " ") (renderAll es) ++ bytes "]"
  | table es =>
    bytes "map[" ++
      Text.join (bytes " ") ((sortEntries (renderEntries es)).map fun (n, t) => n ++ 58 :: t) ++
      bytes "]"
  | closure name params =>
    (Value.closure ⟨0, name, params, .missing, 0⟩).inspect
  | builtin name => (Value.builtin 0 name .inert).inspect

/-- The elements of a list as they are shown. -/
def renderAll : List HostValue → List Text
  | [] => []
  | v :: rest => v.render :: renderAll rest

/-- The entries of a table as they are shown. -/
def renderEntries : List (Text × HostValue) → List (Text × Text)
  | [] => []
  | (name, v) :: rest => (name, v.render) :: renderEntries rest

end

/-- The value of the language for a host's value. A callable is a new one each time. -/
def toValue (w : World) : HostValue → World × Value
  | absent => (w, .bool false)
  | bool b => (w, .bool b)
  | text t => (w, .string t)
  | described t => (w, .string t)
  | number x => (w, .number x)
  | closure name params =>
    let (w, scope) := w.root
    let id := w.fresh
    ({ w with fresh := id + 1 }, .closure ⟨id, name, params, .bool Pos.none false, scope⟩)
  | builtin name => ({ w with fresh := w.fresh + 1 }, .builtin w.fresh name .inert)
  | v => (w, .string v.render)

/-- Binds the host's values in a scope. -/
def defineAll (scope : ScopeId) (w : World) (data : List (Text × HostValue)) : World :=
  data.foldl (fun w (name, h) =>
    let (w, v) := h.toValue w
    w.define scope name v) w

end HostValue

/-- What a host gets back. -/
inductive HostResult where
  | bool (b : Bool)
  | text (t : Text)
  | number (x : Float)

/-- The host's side of a value. Callables are given as they are shown. -/
def Value.toHost : Value → HostResult
  | .number x => .number x
  | .string t => .text t
  | .bool b => .bool b
  | v => .text v.inspect

end Mycel
