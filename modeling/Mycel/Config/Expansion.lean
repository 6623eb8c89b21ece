import Mycel.Text.Basic

/-!
# References to the environment

A dollar sign before a name stands for the value of the variable with that name, which is empty
where there is none. The name is a run of letters, digits and underscores, anything in braces, or
one of a few marks.
-/

namespace Mycel

/-- Variables and their values. -/
abbrev Environment := List (Text × Text)

namespace Environment

/-- The value of a variable, if it is set. -/
def get? (env : Environment) (name : Text) : Option Text :=
  (env.find? fun (n, _) => n == name).map (·.2)

/-- Whether a byte can stand in a name. -/
def isNameByte (b : UInt8) : Bool :=
  b == 95 || (48 ≤ b && b ≤ 57) || (97 ≤ b && b ≤ 122) || (65 ≤ b && b ≤ 90)

/-- Whether a byte is a name of its own. -/
def isMark (b : UInt8) : Bool := (bytes "*#$@!?-0123456789").contains b

/-- What follows a dollar sign. -/
inductive Reference where
  /-- A name, and how many bytes spell it. -/
  | name (n : Text) (width : Nat)
  /-- Braces without a name or without an end; they are left out. -/
  | malformed (width : Nat)
  /-- No reference at all. -/
  | none

/-- What the text after a dollar sign refers to. -/
def reference : Text → Reference
  | 123 :: rest =>
    let inside := rest.takeWhile (· != 125)
    if inside.length = rest.length then .malformed 1
    else if inside.isEmpty then .malformed 2
    else .name inside (inside.length + 2)
  | b :: rest =>
    if isMark b then .name [b] 1
    else
      let n := (b :: rest).takeWhile isNameByte
      if n.isEmpty then .none else .name n n.length
  | [] => .none

/-- Replaces references by values after `skip` bytes. -/
def expandFrom (env : Environment) : Nat → Text → Text
  | _, [] => []
  | skip + 1, _ :: rest => expandFrom env skip rest
  | 0, b :: rest =>
    if b = 36 then
      match reference rest with
      | .name n width => (env.get? n).getD [] ++ expandFrom env width rest
      | .malformed width => expandFrom env width rest
      | .none => b :: expandFrom env 0 rest
    else b :: expandFrom env 0 rest

/-- The names that a text refers to after `skip` bytes. -/
def namesFrom : Nat → Text → List Text
  | _, [] => []
  | skip + 1, _ :: rest => namesFrom skip rest
  | 0, b :: rest =>
    if b = 36 then
      match reference rest with
      | .name n width => n :: namesFrom width rest
      | .malformed width => namesFrom width rest
      | .none => namesFrom 0 rest
    else namesFrom 0 rest

/-- The names that a text refers to. -/
def names (t : Text) : List Text := namesFrom 0 t

/-- Replaces the references in a text by the values of variables. -/
def expand (env : Environment) (t : Text) : Text := expandFrom env 0 t

end Environment

end Mycel
