import Mycel.Decimal.Whole

/-!
# Arguments

Options stand before the command that they are for. An option has a name after one or two dashes,
and its value after an equals sign or in the next argument. The first argument that is no option,
or comes after two dashes, ends the options.
-/

namespace Mycel

/-- An option that a command takes. -/
structure OptionSpec where
  /-- The name of the option, first, and its other names. -/
  names : List String
  /-- Whether the option is a switch, which needs no value. -/
  isSwitch : Bool := false

/-- Options with their values, and the arguments after them. -/
structure ParsedOptions where
  values : List (String × Text) := []
  rest : List Text := []

/-- What is wrong with arguments. -/
inductive UsageError where
  | malformed (argument : Text)
  | unknownOption (name : Text)
  | missingValue (name : Text)
  | badValue (name value : Text)
  | unknownCommand (name : Text)
  | noCommand
  deriving DecidableEq, Repr

/-- The wording of an error. -/
def UsageError.message : UsageError → Text
  | malformed a => bytes "bad flag syntax: " ++ a
  | unknownOption n => bytes "flag provided but not defined: -" ++ n
  | missingValue n => bytes "flag needs an argument: -" ++ n
  | badValue n v => bytes "invalid value " ++ 34 :: v ++ bytes "\" for flag -" ++ n
  | unknownCommand n => bytes "No help topic for '" ++ n ++ bytes "'"
  | noCommand => bytes "usage: wscript [options] run|repl|serve"

/-- The name of an option, and its value if that is in the same argument. -/
inductive Argument where
  | option (name : Text) (value : Option Text)
  /-- Two dashes. -/
  | divider
  /-- No option. -/
  | word
  | malformed

/-- What an argument is. -/
def Argument.ofText (a : Text) : Argument :=
  let body : Option Text := match a with
    | [45, 45] => none
    | 45 :: 45 :: rest => some rest
    | 45 :: rest => if rest.isEmpty then none else some rest
    | _ => none
  if a == [45, 45] then divider
  else match body with
    | none => word
    | some body =>
      let name := body.takeWhile (· != 61)
      if name.isEmpty || name.head? == some 45 then malformed
      else if name.length = body.length then option name none
      else option name (some (body.drop (name.length + 1)))

namespace ParsedOptions

/-- The options at the front of arguments, after those that are known already. -/
def parseFrom (specs : List OptionSpec) (known : List (String × Text)) :
    List Text → Except UsageError ParsedOptions
  | [] => .ok ⟨known, []⟩
  | a :: rest =>
    match Argument.ofText a with
    | .word => .ok ⟨known, a :: rest⟩
    | .divider => .ok ⟨known, rest⟩
    | .malformed => .error (.malformed a)
    | .option name value =>
      match specs.find? fun s => s.names.any fun n => bytes n == name with
      | none => .error (.unknownOption name)
      | some spec =>
        let key := spec.names.headD ""
        match value with
        | some v => parseFrom specs (known ++ [(key, v)]) rest
        | none =>
          if spec.isSwitch then parseFrom specs (known ++ [(key, bytes "true")]) rest
          else match rest with
            | [] => .error (.missingValue name)
            | v :: rest => parseFrom specs (known ++ [(key, v)]) rest

/-- The value of an option that was given; the last one counts. -/
def get? (o : ParsedOptions) (name : String) : Option Text :=
  (o.values.reverse.find? fun (n, _) => n == name).map (·.2)

end ParsedOptions

/-- What the user wants done. -/
inductive Command where
  /-- Evaluates files. -/
  | run (paths : List Text)
  /-- Starts an interactive session. -/
  | repl
  /-- Starts the server, at an address if one is given. -/
  | serve (addr : Option Text)

/-- A command with the options for all commands. -/
structure Invocation where
  config : Option Text := none
  stackBudget : Option Int := none
  logLevel : Option Text := none
  command : Command

namespace Invocation

/-- The options for all commands. -/
def options : List OptionSpec :=
  [⟨["config", "c"], false⟩, ⟨["stack-budget"], false⟩, ⟨["log-level"], false⟩]

/-- The options of the server. -/
def serveOptions : List OptionSpec :=
  [⟨["addr"], false⟩, ⟨["eval-timeout"], false⟩, ⟨["access-log"], true⟩]

/-- The command that arguments name, with its own options and arguments. -/
def command? : List Text → Except UsageError Command
  | [] => .error .noCommand
  | name :: rest => do
    if name == bytes "run" then return .run (← ParsedOptions.parseFrom [] [] rest).rest
    else if name == bytes "repl" then
      let _ ← ParsedOptions.parseFrom [] [] rest
      return .repl
    else if name == bytes "serve" then
      return .serve ((← ParsedOptions.parseFrom serveOptions [] rest).get? "addr")
    else throw (.unknownCommand name)

/-- A number as an option gives it. -/
def number (name : String) (t : Text) : Except UsageError Int :=
  match Decimal.dividedWhole? t with
  | some n => if Decimal.isWord n then .ok n else .error (.badValue (bytes name) t)
  | none => .error (.badValue (bytes name) t)

/-- What arguments say. -/
def ofArguments (args : List Text) : Except UsageError Invocation := do
  let o ← ParsedOptions.parseFrom options [] args
  let stackBudget ← match o.get? "stack-budget" with
    | none => pure none
    | some t => (number "stack-budget" t).map some
  return { config := o.get? "config", stackBudget, logLevel := o.get? "log-level",
           command := ← command? o.rest }

end Invocation

end Mycel
