import Mycel.Cache
import Mycel.Server.Metrics
import Mycel.Server.Request
import Mycel.Server.Response
import Mycel.Text.Blank

/-!
# The server

The server evaluates sources in global scopes of their own, validates sources, and counts
evaluations. It keeps nothing between requests but parsed programs and its counts.
-/

namespace Mycel

/-- How a server is set up. -/
structure ServerOptions where
  version : Text := []
  /-- The greatest number of bytes in a body. -/
  bodyLimit : Int := 0
  /-- Whether the time for an evaluation is over before its first bounce. -/
  expired : Bool := false
  level : Level := .error
  settings : Settings := {}
  /-- What the framework reads in a request whose body is not JSON. If nothing is said about it, it
  reads nothing, and such requests are refused. -/
  readOther : Request → Option Submission := fun _ => none

/-- The options with defaults for a version that is empty and a limit that lets nothing through. -/
def ServerOptions.withDefaults (o : ServerOptions) : ServerOptions :=
  { o with
    version := if o.version.isEmpty then bytes "1.0.0" else o.version
    bodyLimit := if o.bodyLimit ≤ 0 then 1048576 else o.bodyLimit }

/-- A server. -/
structure Server where
  options : ServerOptions := {}
  cache : ProgramCache := {}
  metrics : Metrics := {}

namespace Server

/-- A server that has seen no request. -/
def new (o : ServerOptions) : Server := { options := o.withDefaults }

/-- Why an evaluation stops when its time is over. -/
def deadline : Text := bytes "context deadline exceeded"

/-- The session in which a submission is evaluated. -/
def session (o : ServerOptions) (q : Submission) : Session :=
  (Session.new
    { log := { level := some o.level }
      canceled := if o.expired then some deadline else none }).defineAll q.data

/-- The settings with which a submission is evaluated. -/
def settings (o : ServerOptions) (q : Submission) : Settings :=
  o.settings.effective { stackBudget := if q.stackBudget > 0 then some q.stackBudget else none }

/-- The outcome of a parsed submission, and the world in which it came to be. -/
def run (o : ServerOptions) (q : Submission) (parsed : Except Error Program) : World × Evaluation :=
  let s := session o q
  let (store, e) := s.store.evaluateParsed (settings o q) s.globals parsed
  (store.world, e)

/-- The response to an evaluation. JSON has no numbers that are not finite. -/
def evaluationResponse (output : Text) (e : Evaluation) : Response :=
  match e.result with
  | .error err => ⟨400, .failed { ErrorReport.ofError err with output }⟩
  | .ok v =>
    match v with
    | .number x =>
      if x.isFinite then ⟨200, .evaluated v output e.steps e.bounces e.hasRun⟩
      else .refusal 500 (bytes "json: unsupported value: " ++ Answer.layout.number x)
    | v => ⟨200, .evaluated v output e.steps e.bounces e.hasRun⟩

/-- The outcome by which an evaluation is counted. -/
def outcome (e : Evaluation) : Text :=
  match e.result with
  | .ok _ => Metrics.success
  | .error err => err.codeName

/-- What the server logs about an evaluation. -/
def logEvaluation (log : Log) (e : Evaluation) : Log :=
  match e.result with
  | .ok _ => log
  | .error err =>
    log.write
      { level := .error, message := bytes "evaluation failed", hasRun := true
        code := some err.codeName, error := some err.text }

/-- Why a submission is not evaluated at all. -/
def refusal? (q : Submission) : Option Text :=
  if q.source.isBlank then some (bytes "source cannot be empty")
  else if q.stackBudget < 0 ∨ q.stackBudget > Settings.maxBudget then
    some (bytes "stackBudget must be between 0 and " ++ Text.ofInt Settings.maxBudget)
  else none

/-- Evaluates a submission. -/
def evaluate (s : Server) (q : Submission) : Server × Response × List LogLine :=
  match refusal? q with
  | some message => (s, .refusal 400 message, [])
  | none =>
    let (cache, parsed) := s.cache.parse q.source
    let (world, e) := run s.options q (parsed.map (·.program))
    ({ s with cache, metrics := s.metrics.observe (outcome e) e.bounces },
      evaluationResponse world.output.text e, (logEvaluation world.log e).lines.reverse)

/-- Says whether the source of a submission is a program. -/
def validate (s : Server) (q : Submission) : Server × Response :=
  let (cache, parsed) := s.cache.parse q.source
  ({ s with cache }, match parsed with
    | .ok p => { answer := .valid p.program.body.length }
    | .error e => { answer := .invalid (.ofError e) })

/-- The answer of an endpoint to a request that it takes. -/
def serve (s : Server) (r : Request) : Endpoint → Server × Response × List LogLine
  | .health => (s, { answer := .health s.options.version }, [])
  | .metrics => (s, { answer := .metrics s.metrics }, [])
  | .evaluate =>
    match Submission.ofRequest? s.options.readOther r with
    | none => (s, .refusal 400 (bytes "invalid request body"), [])
    | some q => s.evaluate q
  | .validate =>
    match Submission.ofRequest? s.options.readOther r with
    | none => (s, .refusal 400 (bytes "invalid request body"), [])
    | some q =>
      let (s, response) := s.validate q
      (s, response, [])

/-- A byte of a path in a message. -/
def escapeByte (b : UInt8) : Text :=
  if b = 38 then bytes "&amp;"
  else if b = 39 then bytes "&#39;"
  else if b = 60 then bytes "&lt;"
  else if b = 62 then bytes "&gt;"
  else if b = 34 then bytes "&#34;"
  else [b]

/-- The answer to a request, with its body. -/
def route (s : Server) (r : Request) : Server × Response × List LogLine :=
  if r.body.length > s.options.bodyLimit then
    (s, .refusal 413 (bytes "Request Entity Too Large"), [])
  else if !Request.methods.contains r.method then
    (s, ⟨400, .text (bytes "Invalid http method")⟩, [])
  else match Endpoint.at? r.path with
    | none =>
      (s, .refusal 404 (bytes "Cannot " ++ r.method ++ bytes " " ++ r.path.flatMap escapeByte), [])
    | some e =>
      if e.methods.contains r.method then s.serve r e
      else (s, .refusal 405 (bytes "Method Not Allowed"), [])

/-- Answers a request, and says what is logged meanwhile. A request for the head of a response gets
no body. -/
def handle (s : Server) (r : Request) : Server × Response × List LogLine :=
  let (s, response, lines) := s.route r
  if r.method = bytes "HEAD" then (s, { response with answer := .empty }, lines)
  else (s, response, lines)

end Server

end Mycel
