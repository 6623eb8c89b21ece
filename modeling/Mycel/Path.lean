import Mycel.Text.Basic

/-!
# Paths

A path is a list of names with slashes between them. It starts at the root if a slash stands in
front.
-/

namespace Mycel.Path

/-- The names in a path. -/
def components (path : Text) : List Text := (path.splitOn 47).filter fun c => !c.isEmpty

/-- Whether a path starts at the root. -/
def isAbsolute (path : Text) : Bool := path.startsWith [47]

/-- The name of the directory itself. -/
def here : Text := bytes "."

/-- The name of the directory above. -/
def above : Text := bytes ".."

/-- A way with one more name, where the last name stands first. A step up takes a name away; there
is nothing above the root. -/
def step (rooted : Bool) (way : List Text) (name : Text) : List Text :=
  if name == here then way
  else if name == above then
    match way with
    | [] => if rooted then [] else [above]
    | last :: rest => if last == above then above :: way else rest
  else name :: way

/-- The shortest spelling of a path. -/
def clean (path : Text) : Text :=
  let rooted := isAbsolute path
  let way := (components path).foldl (step rooted) []
  let names := Text.join [47] way.reverse
  if rooted then 47 :: names else if way.isEmpty then here else names

/-- A path from a directory on, in its shortest spelling. -/
def join (directory path : Text) : Text := clean (directory ++ 47 :: path)

end Mycel.Path
