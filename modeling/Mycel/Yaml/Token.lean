import Mycel.Yaml.Cursor

/-!
# YAML tokens

Tokens are the marks, names and scalars of a text. Those that open and close block collections stand
for changes of the indentation.
-/

namespace Mycel.Yaml

/-- A token. -/
inductive Token where
  /-- The version that a text says it is written in. -/
  | version (major minor : Nat)
  /-- What a handle at the front of tags stands for. -/
  | tagHandle (handle meaning : Text)
  | documentStart
  | documentEnd
  | textEnd
  | blockSequence
  | blockMapping
  | blockEnd
  | flowSequence
  | flowSequenceEnd
  | flowMapping
  | flowMappingEnd
  /-- The dash in front of an item. -/
  | item
  /-- The comma in a flow collection. -/
  | comma
  | key
  | value
  /-- A name that refers to an anchor. -/
  | reference (name : Text)
  | anchor (name : Text)
  | tag (handle suffix : Text)
  | scalar (isPlain : Bool) (text : Text)
  deriving DecidableEq, Repr

end Mycel.Yaml
