import LinOpt.Simplex.Run
/-!
# A new constraint on an optimum

A constraint that the optimum satisfies changes nothing. Otherwise it joins the last tableau of the run,
as one `≤` row or, for an equation, as two, and the dual simplex method restores feasibility.
-/

namespace LinOpt

namespace Run

variable {α : Type} [Scalar α]

/-- Does a point of left-hand side `lhs` satisfy the relation, up to the tolerance? -/
def satisfies (sign : Relation) (lhs rhs tol : α) : Except (Fault α) Bool :=
  match sign with
  | .le => .ok (decide (lhs ≤ rhs + tol))
  | .ge => .ok (decide (rhs - tol ≤ lhs))
  | .eq => .ok (decide (Scalar.abs (lhs - rhs) ≤ tol))
  | .other word => .error (.unknownKey word)

/-- The constraint as `≤` rows over the structural columns. -/
def cutRows (sign : Relation) (entries : List (Nat × α)) (rhs : α) : List (List (Nat × α) × α) :=
  let below := (entries, rhs)
  let above := (entries.map fun (k, v) => (k, -v), -rhs)
  match sign with
  | .le => [below]
  | .ge => [above]
  | _ => [below, above]

/-- Adds a row over the structural columns to a tableau. -/
def addEntries (T : Tableau α) (row : List (Nat × α) × α) : Except (Fault α) (Tableau α) :=
  T.addRow (scatter (zeros T.columnCount) row.1) row.2 s!"s{T.rowCount + 1}"

/-- Reads the answer off a tableau that the dual simplex method has restored. -/
def readBack (observer : Observer) (form : StandardForm α) (model : Model α) (T : Tableau α)
    (pivots : Nat) : Traced α (Result α) := do
  let x := T.primalValues
  if form.artificials.any fun k => decide (feasibilityTolerance < entry x k) then
    return .failed .infeasible pivots (.text "Artificial variable became positive.")
  else
    let solution := reconstruct form.components x
    let objective ← dotAligned model.costs solution
    observer.line [.text "Re-optimised: Z = ", .fixed objective, .text s!" after {pivots} dual pivots"]
    return .solved .optimal objective solution pivots (.text "Re-optimised with dual simplex.")

/-- The result of the run's model with one more constraint. -/
def addConstraint (run : Run α) (observer : Observer) (opts : Options α) (coefficients : List α)
    (sign : Relation) (rhs : α) : Traced α (Result α) := do
  match run.isOptimal, run.result.solution with
  | true, some solution =>
    if coefficients.length ≠ run.model.variableCount then
      throw (.rowLength coefficients.length run.model.variableCount)
    let lhs ← dotAligned coefficients solution
    if ← Traced.ofExcept (satisfies sign lhs rhs opts.tol) then
      observer.say "Current solution satisfies the new constraint; optimum unchanged."
      return { run.result with message := .text "Current solution satisfies the new constraint." }
    let last ← run.tableau
    let (form, _) ← run.terminal
    let entries ← structuralRow form.components coefficients
    let start ← Traced.ofExcept ((cutRows sign entries rhs).foldlM addEntries last)
    start.display observer "Tableau with new constraint"
    let done ← start.reoptimize observer opts
    match done.pivots with
    | .ok pivots => readBack observer form run.model done.tableau pivots
    | .error cause => if cause.isSolverStop then return .ofFault cause else throw cause
  | _, _ => throw .constraintNeedsOptimum

end Run

end LinOpt
