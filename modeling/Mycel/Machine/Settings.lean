/-!
# Settings of the evaluator

The stack budget is the number of guarded steps between two bounces. A host may override the
settings for one evaluation; what then holds is clamped, so that the depth of a stack is bounded
whatever a caller asks for.
-/

namespace Mycel

/-- How programs are evaluated. -/
structure Settings where
  stackBudget : Int := 200
  /-- The number of bounces that a run may have; zero means any number. -/
  maxBounces : Int := 0
  /-- Whether the end of a run is logged. -/
  logEvaluation : Bool := false
  deriving DecidableEq, Inhabited, Repr

namespace Settings

/-- The budget of whoever asks for none. -/
def defaultBudget : Int := 200

/-- The greatest budget. -/
def maxBudget : Int := 10000

/-- The settings with the budget brought into its range. -/
def clamp (s : Settings) : Settings :=
  { s with
    stackBudget :=
      if s.stackBudget ≤ 0 then defaultBudget
      else if s.stackBudget > maxBudget then maxBudget
      else s.stackBudget }

end Settings

/-- What one evaluation wants to be different. -/
structure Override where
  stackBudget : Option Int := none
  maxBounces : Option Int := none
  logEvaluation : Option Bool := none
  deriving DecidableEq, Repr

namespace Settings

/-- The settings with some of them replaced. -/
def replace (s : Settings) (o : Override) : Settings :=
  { stackBudget := o.stackBudget.getD s.stackBudget
    maxBounces := o.maxBounces.getD s.maxBounces
    logEvaluation := o.logEvaluation.getD s.logEvaluation }

/-- The settings that an evaluation goes by. -/
def effective (s : Settings) (o : Override) : Settings := (s.replace o).clamp

end Settings

end Mycel
