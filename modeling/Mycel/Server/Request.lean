import Mycel.Host.Value
import Mycel.Json.Fields
import Mycel.Json.Reader

/-!
# Requests to the server

A request names an endpoint by its path. The body of a request to evaluate or to validate says what
to evaluate: a source, data for it and a stack budget. The content type says how to read the body.
A body of JSON is read here. Bodies of other types (forms, multipart forms and XML) are read by the
framework that the server is built on; it is a parameter what comes of them. A body that cannot be
read is refused, whatever its type.
-/

namespace Mycel

/-- A request as it comes in. -/
structure Request where
  method : Text
  /-- The path, with the query if there is one. -/
  target : Text
  contentType : Text := []
  body : Text := []

/-- What a client wants evaluated. -/
structure Submission where
  source : Text := []
  data : List (Text × HostValue) := []
  stackBudget : Int := 0

/-- What the server can be asked for. -/
inductive Endpoint where
  | health
  | evaluate
  | validate
  | metrics
  deriving DecidableEq, Repr

namespace Endpoint

/-- All endpoints. -/
def all : List Endpoint := [health, evaluate, validate, metrics]

/-- The path of an endpoint. -/
def path : Endpoint → Text
  | health => bytes "/api/health"
  | evaluate => bytes "/api/eval"
  | validate => bytes "/api/validate"
  | metrics => bytes "/metrics"

/-- The methods that an endpoint answers. -/
def methods : Endpoint → List Text
  | health | metrics => [bytes "GET", bytes "HEAD"]
  | evaluate | validate => [bytes "POST"]

/-- The endpoint at a path, whatever the case of its letters and the slashes at its end. -/
def at? (path : Text) : Option Endpoint :=
  let name := path.lower
  let name := if name.length > 1 then name.trimRight (· == 47) else name
  all.find? fun e => e.path == name

end Endpoint

namespace Request

/-- The methods that mean anything. -/
def methods : List Text :=
  ["GET", "HEAD", "POST", "PUT", "DELETE", "CONNECT", "OPTIONS", "TRACE", "PATCH"].map bytes

/-- The path without the query. -/
def path (r : Request) : Text := r.target.takeWhile fun b => b != 63 && b != 35

/-- A content type of a vendor's own, such as `application/x+json`, as the type after its plus
sign. -/
def plainType (t : Text) : Text :=
  let whole := t.takeWhile (· != 59)
  if !t.contains 43 then t
  else if !whole.contains 43 then whole
  else if !t.contains 47 then t
  else t.takeWhile (· != 47) ++ 47 :: (whole.dropWhile (· != 43)).drop 1

/-- Whether a byte is a blank around the value of a header. -/
def isBlankByte (b : UInt8) : Bool := b == 32 || b == 9 || b == 10 || b == 13

/-- Whether the body is said to be JSON. -/
def saysJson (r : Request) : Bool :=
  let type := Text.trimRight isBlankByte (r.contentType.lower.dropWhile isBlankByte)
  Text.endsWith ((plainType type).takeWhile (· != 59)) (bytes "json")

end Request

namespace Submission

/-- The data of a submission after one more object of data. A number that no double can hold does
not fit. -/
def addData (s : Submission) : Json → Option Submission
  | .null => some { s with data := [] }
  | .object ms =>
    if (Json.object ms).fitsDoubles then
      some { s with data := s.data ++ ms.map fun (name, j) => (name, HostValue.ofJson j) }
    else none
  | _ => none

/-- The fields of a submission. -/
def fields : List (Field Json Submission) :=
  [.ofReading "source" Json.format.text fun s t => { s with source := t },
   ⟨"data", addData⟩,
   .ofReading "stackBudget" Json.format.whole fun s n => { s with stackBudget := n }]

/-- The submission in a body of JSON. -/
def ofJson? (body : Text) : Option Submission :=
  (Json.parse? body).bind (Field.fillFrom Json.format fields {})

/-- The submission in the body of a request, where `readOther` reads bodies that are not JSON. -/
def ofRequest? (readOther : Request → Option Submission) (r : Request) : Option Submission :=
  if r.saysJson then ofJson? r.body else readOther r

end Submission

end Mycel
