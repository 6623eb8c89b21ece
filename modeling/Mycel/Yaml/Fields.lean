import Mycel.Fields
import Mycel.Yaml.Meaning
import Mycel.Yaml.Reader

/-!
# Fields of YAML mappings

The keys of a mapping have to be spelled differently, and no two of them may name one field. The key
`<<` merges other mappings into one: the names that it has itself go first, then those of the merged
mappings in their order.
-/

namespace Mycel.Yaml

/-- A node of a document. -/
structure Place where
  document : Document
  node : Yaml

namespace Place

/-- The place of a document's root. -/
def ofDocument (d : Document) : Place := ⟨d, d.root⟩

/-- The scalar at the end of a reference, as it is written and what it means. -/
def scalar? (p : Place) : Option (Text × Meaning) := do
  match ← p.document.follow? p.node with
  | scalar isPlain tag t => (meaning? isPlain tag t).map fun m => (t, m)
  | _ => none

/-- A whole number in the range of 64-bit integers. Places after the point are cut off. -/
def whole (p : Place) : Reading Int :=
  p.scalar?.bind fun
    | (_, .null) => some none
    | (_, .whole n) => if Decimal.isWord n then some (some n) else none
    | (_, .number x) => if x ≤ 9223372036854775807 then some (some (Decimal.truncate x)) else none
    | _ => none

/-- A truth value. -/
def truth (p : Place) : Reading Bool :=
  p.scalar?.bind fun
    | (_, .null) => some none
    | (_, .bool b) => some (some b)
    | (_, .text t) => (truthWord? t).map some
    | _ => none

/-- A text: what a scalar says if it means one, and any other scalar as it is written. -/
def text (p : Place) : Reading Text :=
  p.scalar?.map fun
    | (_, .null) => none
    | (_, .text t) => some t
    | (t, _) => some t

/-- What two keys of one mapping must not have in common: their kind and how they are written. -/
def spelling : Yaml → Nat × Text
  | scalar _ _ t => (0, t)
  | sequence _ => (1, [])
  | mapping _ => (2, [])
  | reference name _ => (3, name)

/-- Whether two keys are spelled alike. -/
def hasTwin : List (Yaml × Yaml) → Bool
  | [] => false
  | (k, _) :: rest => (rest.any fun (l, _) => spelling l == spelling k) || hasTwin rest

/-- Whether a key merges mappings. -/
def isMerge : Yaml → Bool
  | scalar isPlain none t => isPlain && t == bytes "<<"
  | scalar _ (some tag) t => tag == bytes "!!merge" && t == bytes "<<"
  | _ => false

/-- The entries that a mapping has itself, by name, unless its keys are no texts. A key that is null
names nothing. -/
def named? (d : Document) (entries : List (Yaml × Yaml)) : Option (List (Text × Place)) := do
  let found ← (entries.filter fun (k, _) => !isMerge k).mapM fun (k, v) => do
    return (← (Place.mk d k).text).map fun name => (name, Place.mk d v)
  return found.filterMap id

/-- The nodes that a value merges: a mapping, or a sequence of mappings. -/
def merged : Yaml → List Yaml
  | sequence items => items
  | y => [y]

/-- The entries of a mapping, and apart from them those that are merged into it. The first argument
bounds the number of mappings between a merged one and the first. -/
def entriesWithin : Nat → Document → Yaml → Option (List (Text × Place) × List (Text × Place))
  | 0, _, _ => none
  | n + 1, d, y => do
    match ← d.follow? y with
    | mapping entries =>
      if hasTwin entries then none
      let own ← named? d entries
      let more ← match entries.find? fun (k, _) => isMerge k with
        | some (_, v) => (merged v).mapM (entriesWithin n d)
        | none => some []
      return (own, more.flatMap fun (own, merged) => own ++ merged)
    | _ => none

/-- The first of several entries with one name. -/
def firsts : List (Text × Place) → List (Text × Place)
  | [] => []
  | (name, p) :: rest => (name, p) :: (firsts rest).filter fun (other, _) => other != name

/-- The members of a mapping: its own, and merged ones with other names. Where null stands there are
none. -/
def members (p : Place) : Option (List (Text × Place)) :=
  match p.scalar? with
  | some (_, .null) => some []
  | _ => do
    let (own, merged) ← entriesWithin p.document.bound p.document p.node
    return own ++ (firsts merged).filter fun (name, _) => own.all fun (other, _) => other != name

end Place

/-- How YAML documents are read. -/
def format : Format Place :=
  { key := id
    namesOnce := true
    members := Place.members
    whole := Place.whole
    truth := Place.truth
    text := Place.text }

end Mycel.Yaml
