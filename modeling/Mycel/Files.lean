import Mycel.Error.Fault
import Mycel.Path

/-!
# Files

A tree of directories and files with a working directory in it, and the errors that an operating
system gives for a path that cannot be opened or read.
-/

namespace Mycel

/-- What a path leads to. -/
inductive Entry where
  | file (content : Text)
  | directory
  deriving DecidableEq, Repr

/-- Why a path cannot be opened or read. -/
inductive FileError where
  | notFound
  | notDirectory
  | isDirectory
  /-- The path has a zero byte in it. -/
  | invalidPath
  /-- The path, or a name in it, is too long. -/
  | nameTooLong
  deriving DecidableEq, Repr

namespace FileError

/-- The wording of an error. -/
def message : FileError → Text
  | notFound => bytes "no such file or directory"
  | notDirectory => bytes "not a directory"
  | isDirectory => bytes "is a directory"
  | invalidPath => bytes "invalid argument"
  | nameTooLong => bytes "file name too long"

/-- The operation that fails with an error when a file is read. A directory can be opened but not
read. -/
def operation : FileError → Text
  | isDirectory => bytes "read"
  | _ => bytes "open"

/-- An error in an operation on a path. -/
def about (e : FileError) (operation path : Text) : Text :=
  operation ++ bytes " " ++ path ++ bytes ": " ++ e.message

/-- An error in reading a path. -/
def text (e : FileError) (path : Text) : Text := e.about e.operation path

/-- An error in writing a path, which fails when the file is opened. -/
def writeText (e : FileError) (path : Text) : Text := e.about (bytes "open") path

end FileError

/-- The entries of a tree, by the names on the way to them from the root, which is not listed
itself. -/
structure Files where
  entries : List (List Text × Entry) := []
  /-- The way to the working directory. -/
  workingDirectory : List Text := []

namespace Files

/-- The greatest length of a name. -/
def nameLimit : Nat := 255

/-- The greatest length of a path. -/
def pathLimit : Nat := 4095

/-- What the names on a way lead to. -/
def entry? (fs : Files) (way : List Text) : Option Entry :=
  if way.isEmpty then some .directory
  else (fs.entries.find? fun (w, _) => w == way).map (·.2)

/-- Adds an entry, in place of one that is there. -/
def put (fs : Files) (way : List Text) (e : Entry) : Files :=
  { fs with entries := (way, e) :: fs.entries.filter fun (w, _) => w != way }

/-- Adds the directories on a way that are not there yet. -/
def makeWay (fs : Files) : List Text → List Text → Files
  | _, [] => fs
  | done, name :: rest =>
    let way := done ++ [name]
    let fs := if (fs.entry? way).isSome then fs else fs.put way .directory
    fs.makeWay way rest

/-- The names on the way that a path spells. -/
def spelledWay (fs : Files) (path : Text) : List Text :=
  if Path.isAbsolute path then Path.components path
  else fs.workingDirectory ++ Path.components path

/-- Adds a file, with the directories on the way to it. -/
def addFile (fs : Files) (path content : Text) : Files :=
  let way := fs.spelledWay path
  (fs.makeWay [] way.dropLast).put way (.file content)

/-- Adds a directory, with the directories on the way to it. -/
def addDirectory (fs : Files) (path : Text) : Files := fs.makeWay [] (fs.spelledWay path)

/-- An empty working directory, with the directories on the way to it. -/
def inDirectory (path : Text) : Files :=
  { ({} : Files).addDirectory path with workingDirectory := Path.components path }

/-- The way that names lead from a directory. The root is the directory above itself. -/
def walk (fs : Files) : List Text → List Text → Except FileError (List Text)
  | way, [] => .ok way
  | way, name :: rest =>
    match fs.entry? way with
    | none => .error .notFound
    | some (.file _) => .error .notDirectory
    | some .directory =>
      if name == Path.here then fs.walk way rest
      else if name == Path.above then fs.walk way.dropLast rest
      else if name.length > nameLimit then .error .nameTooLong
      else fs.walk (way ++ [name]) rest

/-- The way that a path leads, which may end where nothing is yet. -/
def resolve (fs : Files) (path : Text) : Except FileError (List Text) :=
  if path.contains 0 then .error .invalidPath
  else if path.isEmpty then .error .notFound
  else if path.length > pathLimit then .error .nameTooLong
  else fs.walk (if Path.isAbsolute path then [] else fs.workingDirectory) (Path.components path)

/-- The content of the file that a path leads to. -/
def read (fs : Files) (path : Text) : Except FileError Text := do
  let way ← fs.resolve path
  match fs.entry? way with
  | none => throw .notFound
  | some .directory => throw .isDirectory
  | some (.file content) => if path.endsWith [47] then throw .notDirectory else return content

/-- Writes a file. The directory that it is in has to be there. -/
def write (fs : Files) (path content : Text) : Except FileError Files := do
  let way ← fs.resolve path
  match fs.entry? way with
  | some .directory => throw .isDirectory
  | some (.file _) =>
    if path.endsWith [47] then throw .notDirectory else return fs.put way (.file content)
  | none =>
    if path.endsWith [47] then throw .isDirectory
    else match fs.entry? way.dropLast with
      | some .directory => return fs.put way (.file content)
      | some (.file _) => throw .notDirectory
      | none => throw .notFound

/-- The suffix of source files. -/
def sourceSuffix : Text := bytes ".mc"

/-- The source in a file. Only a path with the suffix of source files is looked at. -/
def readSource (fs : Files) (path : Text) : Except Error Text :=
  if !path.endsWith sourceSuffix then .error ((Fault.notSource path).error Pos.none)
  else match fs.read path with
    | .ok content => .ok content
    | .error e => .error ((Fault.unreadable path (e.text path)).error Pos.none)

end Files

end Mycel
