import Mycel.Number
import Mycel.Syntax.Node
import Mycel.Text.Quoted

/-!
# Printing syntax trees

A tree is printed on one line. Binary operations have parentheses around them and sequences have
braces.
-/

namespace Mycel.Node

mutual

/-- The text of a tree, before the text `t`. -/
def write : Node → Text → Text
  | number _ x, t => Number.text x ++ t
  | string _ s, t => Quoted.text s ++ t
  | bool _ b, t => Text.ofBool b ++ t
  | identifier _ name, t => name ++ t
  | assign _ target value, t => target.write (bytes " = " ++ value.write t)
  | binary _ o left right, t =>
    bytes "(" ++ left.write (bytes " " ++ o.spelling ++ bytes " " ++ right.write (bytes ")" ++ t))
  | branch _ condition whenTrue whenFalse, t =>
    let t := if whenFalse.isPresent then bytes " else " ++ whenFalse.write t else t
    let t := if whenTrue.isPresent then bytes " then " ++ whenTrue.write t else t
    bytes "if " ++ condition.write t
  | lambda _ name params body, t =>
    bytes "lambda " ++ (match name with
        | some n => n ++ bytes " "
        | none => [])
      ++ bytes "(" ++ Text.join (bytes ", ") params ++ bytes ") " ++ body.write t
  | program _ body, t => bytes "\x7b " ++ writeAll (bytes "; ") body (bytes " \x7d" ++ t)
  | call _ callee args, t =>
    callee.write (bytes "(" ++ writeAll (bytes ", ") args (bytes ")" ++ t))
  | binding _ bindings body, t =>
    bytes "let (" ++ writeBindings bindings (bytes ") " ++ body.write t)
  | missing, t => t

/-- The texts of trees with a separator between neighbours, before the text `t`. -/
def writeAll (separator : Text) : List Node → Text → Text
  | [], t => t
  | node :: rest, t =>
    node.write (match rest with
      | [] => t
      | _ :: _ => separator ++ writeAll separator rest t)

/-- The texts of bindings, before the text `t`. -/
def writeBindings : List (Text × Node) → Text → Text
  | [], t => t
  | (name, definition) :: rest, t =>
    let t := match rest with
      | [] => t
      | _ :: _ => bytes ", " ++ writeBindings rest t
    name ++ if definition.isPresent then bytes " = " ++ definition.write t else t

end

/-- The text of a tree. -/
def render (node : Node) : Text := node.write []

mutual

/-- Whether a tree has every part that its text needs. -/
def hasText : Node → Bool
  | assign _ target value => target.hasText && value.hasText
  | binary _ _ left right => left.hasText && right.hasText
  | branch _ condition whenTrue whenFalse =>
    condition.hasText && (!whenTrue.isPresent || whenTrue.hasText)
      && (!whenFalse.isPresent || whenFalse.hasText)
  | lambda _ _ _ body => body.hasText
  | program _ body => allHaveText body
  | call _ callee args => callee.hasText && allHaveText args
  | binding _ bindings body => bindingsHaveText bindings && body.hasText
  | missing => false
  | _ => true

/-- Whether all trees have every part that their texts need. -/
def allHaveText : List Node → Bool
  | [] => true
  | node :: rest => node.hasText && allHaveText rest

/-- Whether all definitions that are there have every part that their texts need. -/
def bindingsHaveText : List (Text × Node) → Bool
  | [] => true
  | (_, definition) :: rest =>
    (!definition.isPresent || definition.hasText) && bindingsHaveText rest

end

/-- A tree inside a message. What has no text is shown by a mark that says so. -/
def display (node : Node) : Text :=
  if !node.isPresent then bytes "%!s(<nil>)"
  else if node.hasText then node.render
  else bytes ("%!s(PANIC=String method: runtime error: " ++
    "invalid memory address or nil pointer dereference)")

end Mycel.Node
