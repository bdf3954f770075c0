import LinOpt.Analysis.Duality
import LinOpt.Analysis.NewConstraint
import LinOpt.Analysis.Sensitivity
import LinOpt.Integer.BranchAndBound
import LinOpt.Integer.CuttingPlane
import LinOpt.Integer.Knapsack
/-!
# The tools offered to a client

Five requests: solve a continuous model, solve an integer model, solve a knapsack problem, compare a model
with its dual, and analyse an optimum. A client may ask for the trace of a solve.
-/

namespace LinOpt

namespace Service

/-- The answer to a request to solve something. -/
structure Answer (α : Type) where
  result : Result α
  /-- The shadow prices, where they are asked for and there is an optimum. -/
  duals : Option (List α) := none
  /-- The trace, where it is asked for. -/
  trace : Option (List (Event α)) := none

/-- How an integer model is solved. -/
inductive IntegerMethod where
  | branchAndBound
  | cuttingPlane
  deriving Repr, DecidableEq

namespace IntegerMethod

/-- The method of that name; any other word means branch and bound. -/
def ofName : String → IntegerMethod
  | "cutting_plane" => .cuttingPlane
  | _ => .branchAndBound

end IntegerMethod

/-- The answer to a request to analyse an optimum. -/
inductive Analysis (α : Type) where
  /-- There is no optimum. -/
  | noOptimum (status : Status) (message : Message α)
  | report (status : Status) (report : SensitivityReport α)

variable {α : Type} [Scalar α]

/-- The observer that a request for a trace needs. -/
def observer (trace : Bool) : Observer := if trace then .recording else .silent

/-- The events, where they are asked for. -/
def traceOf {β : Type} (trace : Bool) (run : Traced α β) : Option (List (Event α)) :=
  if trace then some run.events else none

/-- Solves a continuous model. -/
def solveContinuous (model : Model α) (opts : Options α) (trace : Bool) :
    Except (Fault α) (Answer α) := do
  let traced := Simplex.run (observer trace) opts model
  let run ← traced.outcome
  if opts.returnDuals && run.isOptimal then
    let state ← run.sensitivity
    return { result := run.result, duals := some state.shadowPrices, trace := traceOf trace traced }
  else return { result := run.result, trace := traceOf trace traced }

/-- Solves an integer model. -/
def solveInteger (model : Model α) (method : IntegerMethod) (opts : Options α) (trace : Bool) :
    Except (Fault α) (Answer α) :=
  match method with
  | .cuttingPlane => do
    let traced := CuttingPlane.search (observer trace) opts model
    let outcome ← traced.outcome
    return { result := outcome.result, trace := traceOf trace traced }
  | .branchAndBound => do
    let traced := BranchAndBound.search (observer trace) opts model
    let outcome ← traced.outcome
    return { result := outcome.result, trace := traceOf trace traced }

/-- Solves a knapsack problem. -/
def solveKnapsack (capacity : α) (weights values : List α) (trace : Bool) :
    Except (Fault α) (Answer α) := do
  let traced := Knapsack.solveItems (observer trace) capacity weights values
  let result ← traced.outcome
  return { result, trace := traceOf trace traced }

/-- Solves a model and its dual and compares them. -/
def compareDual (model : Model α) (opts : Options α) : Except (Fault α) (DualityReport α) :=
  (solvePrimalDual .silent opts model).outcome

/-- Analyses the optimum of a continuous model. -/
def analyze (model : Model α) (opts : Options α) : Except (Fault α) (Analysis α) := do
  let run ← (Simplex.run .silent opts model).outcome
  if run.isOptimal then
    let state ← run.sensitivity
    let report ← state.report
    return .report run.result.status report
  else return .noOptimum run.result.status run.result.message

end Service

end LinOpt
