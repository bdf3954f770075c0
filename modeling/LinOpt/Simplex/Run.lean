import LinOpt.StandardForm
import LinOpt.Dense.Inverse
import LinOpt.Result
import LinOpt.Tableau.DualSimplex
/-!
# Runs of the simplex method

A run keeps, besides its result, the standard form it worked on and the basis it ended with, so that
later analysis can start from there.
-/

namespace LinOpt

variable {α : Type} [Scalar α]

/-- An artificial variable above this level makes a model infeasible. -/
def feasibilityTolerance : α := 1e-7

/-- Where the pivoting of a simplex run ended. -/
structure Terminal (α : Type) where
  /-- The basic column of each row. -/
  basis : List Nat
  /-- The value of each basic column. -/
  basics : List α
  /-- The number of pivots. -/
  iterations : Nat
  deriving Repr, DecidableEq

/-- A result with the basis it comes from. -/
structure Run (α : Type) where
  /-- The answer. -/
  result : Result α
  /-- The model solved. -/
  model : Model α
  /-- Its standard form, unless that could not be built. -/
  form : Option (StandardForm α)
  /-- The last basis, if pivoting came to an end. -/
  basis : Option (List Nat)

namespace Run

/-- Did the run end at an optimum? -/
def isOptimal (run : Run α) : Bool := run.result.status = .optimal && run.basis.isSome

/-- The standard form and the last basis. -/
def terminal (run : Run α) : Except (Fault α) (StandardForm α × List Nat) :=
  match run.form, run.basis with
  | some form, some basis => .ok (form, basis)
  | _, _ => .error .noTerminalBasis

/-- The inverse of the basic columns at the end of the run. -/
def basisInverse (run : Run α) : Except (Fault α) (Dense α) := do
  let (form, basis) ← run.terminal
  Dense.inverse (form.rows.columns basis)

/-- The tableau at the end of the run, rebuilt from its basis. -/
def tableau (run : Run α) : Except (Fault α) (Tableau α) := do
  let (form, basis) ← run.terminal
  let inverse ← run.basisInverse
  return Tableau.fromBasis form.rows form.rhs form.costs basis inverse form.columnNames

end Run

end LinOpt
