import Mycel.Server.Metrics
import Mycel.Session

/-!
# Responses of the server

A response has a status and a body. Bodies are JSON objects, except for the report of the metrics
and for responses without a body.
-/

namespace Mycel

/-- What a client is told about an error. -/
structure ErrorReport where
  message : Text
  code : Text := []
  pos : Pos := Pos.none
  /-- What had been written before the error. -/
  output : Text := []
  deriving DecidableEq, Repr

/-- What is told about an error of the language. -/
def ErrorReport.ofError (e : Error) : ErrorReport :=
  { message := e.text
    code := e.codeName
    pos := (e.diagnostic?.map (·.pos)).getD Pos.none }

/-- The body of a response. -/
inductive Answer where
  | health (version : Text)
  /-- A source was evaluated. -/
  | evaluated (value : Value) (output : Text) (steps bounces : Nat) (hasRun : Bool)
  /-- A source is a program with some number of expressions. -/
  | valid (expressions : Nat)
  | invalid (report : ErrorReport)
  | failed (report : ErrorReport)
  | metrics (m : Metrics)
  | text (t : Text)
  | empty

/-- A response. -/
structure Response where
  status : Nat := 200
  answer : Answer

namespace Response

/-- A refusal with a message. -/
def refusal (status : Nat) (message : Text) : Response := ⟨status, .failed { message }⟩

end Response

namespace Answer

/-- How numbers are written in JSON. The texts of numbers that are not finite only occur in
messages. -/
def layout : Layout :=
  { least := -6
    bound := 21
    integralBound := 21
    exponentWidth := 1
    infinity := "+Inf"
    negativeInfinity := "-Inf"
    nan := "NaN" }

/-- A text as a JSON string. -/
def string (t : Text) : Json := .string (Utf8.repair t)

/-- The JSON value of a value of the language. -/
def value (v : Value) : Json :=
  match v.toHost with
  | .bool b => .bool b
  | .text t => string t
  | .number x => .number (layout.number x)

/-- Members with their names. -/
def object (ms : List (String × Json)) : Json := .object (ms.map fun (n, j) => (bytes n, j))

/-- A member that is left out if it is empty. -/
def optionalText (name : String) (t : Text) : List (String × Json) :=
  if t.isEmpty then [] else [(name, string t)]

/-- A member that is left out if it is zero. -/
def optionalInt (name : String) (n : Int) : List (String × Json) :=
  if n = 0 then [] else [(name, .int n)]

/-- What a client is told about an error, as JSON. -/
def report (r : ErrorReport) : Json :=
  object (("error", string r.message) :: optionalText "code" r.code ++
    optionalInt "line" r.pos.line ++ optionalInt "column" r.pos.column ++
    optionalText "output" r.output)

/-- The JSON object of a body, if it is one. -/
def toJson? : Answer → Option Json
  | health version =>
    some (object [("status", string (bytes "healthy")), ("version", string version)])
  | evaluated v output steps bounces hasRun =>
    some (object [("result", string v.inspect), ("value", value v), ("type", string v.kind),
      ("output", string output), ("runId", .bool hasRun), ("steps", .int steps),
      ("bounces", .int bounces)])
  | valid n => some (object [("valid", .bool true), ("expressions", .int n), ("errors", .array [])])
  | invalid r =>
    some (object [("valid", .bool false), ("expressions", .int 0), ("errors", .array [report r])])
  | failed r => some (report r)
  | metrics _ | text _ | empty => none

end Answer

end Mycel
