import Mycel.Host.Value

/-!
# Counts of evaluations

The server counts evaluations by their outcome and adds up their bounces.
-/

namespace Mycel

/-- What the server has counted. -/
structure Metrics where
  /-- The outcomes so far, with how often each of them occurred. -/
  outcomes : List (Text × Nat) := []
  bounces : Nat := 0

namespace Metrics

/-- The outcome of an evaluation that gave a value. -/
def success : Text := bytes "OK"

/-- One more of an outcome. -/
def increment (outcome : Text) : List (Text × Nat) → List (Text × Nat)
  | [] => [(outcome, 1)]
  | (o, n) :: rest => if o = outcome then (o, n + 1) :: rest else (o, n) :: increment outcome rest

/-- How often an outcome occurred. -/
def count (m : Metrics) (outcome : Text) : Nat :=
  ((m.outcomes.find? fun (o, _) => o == outcome).map (·.2)).getD 0

/-- Counts an evaluation. -/
def observe (m : Metrics) (outcome : Text) (bounces : Nat) : Metrics :=
  ⟨increment outcome m.outcomes, m.bounces + bounces⟩

/-- A counter as it is reported, which is in the way of doubles. -/
def counter (n : Nat) : Text := HostValue.layout.number (Float.ofNat n)

/-- A name with the outcome that it is about. -/
def labeled (name : String) (outcome : Text) : Text :=
  bytes name ++ bytes "\x7bcode=" ++ (34 :: outcome) ++ bytes "\"\x7d "

/-- Measurements that have a name in common. -/
structure Family where
  name : String
  /-- What is measured. -/
  help : String
  kind : String
  /-- The lines of the measurements. -/
  samples : List Text

/-- The lines of a family, after two that describe it. A family without measurements has none. -/
def Family.report (f : Family) : List Text :=
  if f.samples.isEmpty then []
  else
    bytes ("# HELP " ++ f.name ++ " " ++ f.help) :: bytes ("# TYPE " ++ f.name ++ " " ++ f.kind) ::
      f.samples

/-- All measurements, in the order of their names. -/
def families (m : Metrics) : List Family :=
  [{ name := "wscript_evaluation_duration_seconds"
     help := "Wall time of evaluations."
     kind := "histogram"
     samples := Text.sort (m.outcomes.map fun (o, n) =>
       labeled "wscript_evaluation_duration_seconds_count" o ++ Text.ofNat n) },
   { name := "wscript_evaluations_total"
     help := "Evaluations served, partitioned by outcome code."
     kind := "counter"
     samples := Text.sort (m.outcomes.map fun (o, n) =>
       labeled "wscript_evaluations_total" o ++ counter n) },
   { name := "wscript_trampoline_bounces_total"
     help := "Stack unwinds performed by the trampoline."
     kind := "counter"
     samples := [bytes "wscript_trampoline_bounces_total " ++ counter m.bounces] }]

/-- The measurements alone, in the order of their lines. -/
def lines (m : Metrics) : List Text := Text.sort (m.families.flatMap (·.samples))

/-- The report. -/
def report (m : Metrics) : Text :=
  (m.families.flatMap Family.report).flatMap fun line => line ++ [Text.newline]

end Metrics

end Mycel
