import Mycel.Text.Basic

/-!
# JSON values

Numbers keep their spelling and objects keep the order of their members, so that a reader can be as
exact as it needs to be.
-/

namespace Mycel

/-- A JSON value. -/
inductive Json where
  | null
  | bool (value : Bool)
  /-- A number, as it is written. -/
  | number (literal : Text)
  | string (value : Text)
  | array (elements : List Json)
  | object (members : List (Text × Json))
  deriving Inhabited, Repr

namespace Json

/-- The members of an object; nothing else has any. -/
def members : Json → List (Text × Json)
  | object ms => ms
  | _ => []

/-- The elements of an array; nothing else has any. -/
def elements : Json → List Json
  | array es => es
  | _ => []

/-- The value of the last member with a given name. -/
def get? (j : Json) (name : Text) : Option Json :=
  (j.members.reverse.find? fun (n, _) => n == name).map (·.2)

/-- A whole number as a value. -/
def int (n : Int) : Json := number (Text.ofInt n)

end Json

end Mycel
