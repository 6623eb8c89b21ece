import Mycel.Text.Basic

/-!
# Named fields

A record is filled from the members of a document, one after another. A reading of a value says
that it does not fit, that nothing is given, or what is given.
-/

namespace Mycel

/-- What a value says to whoever asks for an `α`: `none` if it does not fit, `some none` if it gives
nothing. -/
abbrev Reading (α : Type) := Option (Option α)

/-- How a kind of document is read. -/
structure Format (δ : Type) where
  /-- The form in which names are compared. -/
  key : Text → Text
  /-- Whether a field may be named only once. -/
  namesOnce : Bool := false
  members : δ → Option (List (Text × δ))
  whole : δ → Reading Int
  truth : δ → Reading Bool
  text : δ → Reading Text

/-- A named field of a record, with what a value for it does to the record. -/
structure Field (δ ρ : Type) where
  name : String
  fill : ρ → δ → Option ρ

namespace Field

variable {δ ρ σ α : Type}

/-- A field that holds what a reading finds. -/
def ofReading (name : String) (read : δ → Reading α) (put : ρ → α → ρ) : Field δ ρ :=
  ⟨name, fun r d => (read d).map fun v => v.elim r (put r)⟩

/-- Fills a record from members in their order. Members that name no field are passed over. -/
def fillAll (key : Text → Text) (fields : List (Field δ ρ)) (r : ρ) (ms : List (Text × δ)) :
    Option ρ :=
  ms.foldlM (fun r (name, d) =>
    match fields.find? fun f => key (bytes f.name) == key name with
    | some f => f.fill r d
    | none => some r) r

/-- Whether members name some field more than once. -/
def namesTwice (key : Text → Text) (fields : List (Field δ ρ)) (ms : List (Text × δ)) : Bool :=
  fields.any fun f => 1 < ms.countP fun (name, _) => key (bytes f.name) == key name

/-- Fills a record from a document. -/
def fillFrom (format : Format δ) (fields : List (Field δ ρ)) (r : ρ) (d : δ) : Option ρ := do
  let ms ← format.members d
  if format.namesOnce && namesTwice format.key fields ms then none
  fillAll format.key fields r ms

/-- A field that is a record itself. -/
def nested (format : Format δ) (name : String) (fields : List (Field δ σ)) (get : ρ → σ)
    (put : ρ → σ → ρ) : Field δ ρ :=
  ⟨name, fun r d => (fillFrom format fields (get r) d).map (put r)⟩

end Field

end Mycel
