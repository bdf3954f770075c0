import LinOpt.Simplex.Iterate
/-!
# Solving the continuous relaxation

`Simplex.run` builds the standard form, pivots by the chosen method and reads the answer back. A ray of
the penalised problem proves nothing while an artificial variable is positive, so phase one decides
between *unbounded* and *infeasible*.
-/

namespace LinOpt

namespace Simplex

variable {α : Type} [Scalar α]

/-- The pivoting loop of the chosen method. -/
def iterate (observer : Observer) (opts : Options α) (form : StandardForm α) : Traced α (Terminal α) :=
  match opts.method with
  | .tableau => iterateTableau observer opts form
  | .revised => iterateRevised observer opts form

/-- Pivots to an end. Where a ray is met and there are artificial variables, phase one is asked whether
they can vanish. -/
def pivotToEnd (observer : Observer) (opts : Options α) (form : StandardForm α) :
    Traced α (Terminal α) := do
  match ← (iterate observer opts form).attempt with
  | .ok terminal => pure terminal
  | .error (.unbounded column pivots) =>
    if form.artificials.isEmpty then throw (.unbounded column pivots)
    else do
      let gap ← phaseOneGap observer opts form
      if feasibilityTolerance < gap then throw (.artificialsRemain gap pivots)
      else throw (.unbounded column pivots)
  | .error cause => throw cause

/-- The line that reports why a run stopped. -/
def stopLine (title : String) (cause : Fault α) : Phrase α :=
  match cause with
  | .unbounded .. | .artificialsRemain .. | .noNegativeEntry .. => cause.phrase
  | .singular .. | .iterationLimit .. => .text s!"{title} stopped: " :: cause.phrase
  | _ => .text s!"Error in {title}: " :: cause.phrase

/-- The run that a fault ended. -/
def stopped (observer : Observer) (opts : Options α) (model : Model α) (form : Option (StandardForm α))
    (cause : Fault α) : Traced α (Run α) := do
  observer.line (stopLine opts.method.title cause)
  return { result := .ofFault cause, model, form, basis := none }

/-- The values of all columns at the end of the pivoting, with negligible ones as zero. -/
def columnValues (opts : Options α) (form : StandardForm α) (terminal : Terminal α) : List α :=
  (scatter (zeros form.width) (terminal.basis.zip terminal.basics)).map fun x =>
    if Scalar.abs x < opts.tol then 0 else x

/-- Reads the answer off the last basis. -/
def finish (observer : Observer) (opts : Options α) (model : Model α) (form : StandardForm α)
    (terminal : Terminal α) : Traced α (Run α) := do
  let x := columnValues opts form terminal
  let level := artificialLevel form.artificials x
  if feasibilityTolerance < level then
    let message : Message α := .artificialBasic level
    observer.line message.phrase
    return { result := .failed .infeasible terminal.iterations message
             model, form := some form, basis := some terminal.basis }
  else
    let solution := reconstruct form.components x
    let objective ← dotAligned model.costs solution
    let result := Result.solved .optimal objective solution terminal.iterations (.text "")
    observer.line
      [.text "Status: optimal, Z = ", .fixed (Scalar.round3 objective),
        .text s!" after {terminal.iterations} iterations"]
    observer.vector "Solution" solution form.variableNames
    return { result, model, form := some form, basis := some terminal.basis }

/-- Solves the continuous relaxation of a model. -/
def run (observer : Observer) (opts : Options α) (model : Model α) : Traced α (Run α) := do
  observer.header opts.method.title
  match StandardForm.build opts model with
  | .error cause => stopped observer opts model none cause
  | .ok form =>
    match ← (pivotToEnd observer opts form).attempt with
    | .error cause => stopped observer opts model (some form) cause
    | .ok terminal => finish observer opts model form terminal

/-- The result of `run`. -/
def solve (observer : Observer) (opts : Options α) (model : Model α) : Traced α (Result α) := do
  let done ← run observer opts model
  return done.result

end Simplex

end LinOpt
