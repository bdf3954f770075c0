import LinOpt.Integer.Cut
import LinOpt.Simplex.Solve
/-!
# Cutting planes

The relaxation is solved, a cut is made for the first variable that is not whole, and the model with the
cut is solved again, until the solution is whole or the cuts run out. A whole model gets Gomory cuts as
long as they cut the vertex off; otherwise the bound cut is taken.
-/

namespace LinOpt

/-- What the cutting-plane method ends with. -/
structure CutOutcome (α : Type) where
  result : Result α
  /-- The cuts, in the order in which they were added. -/
  cuts : List (Cut α) := []

namespace CuttingPlane

variable {α : Type} [Scalar α]

/-- The title of a trace. -/
def title : String := "Cutting Plane"

/-- The positions of the variables that must be whole. -/
def integerVariables (model : Model α) : List Int := model.integerIndices.map Int.ofNat

/-- The cut for a variable at the solution of a run. -/
def chooseCut (run : Run α) (j : Int) (solution : List α) : Except (Fault α) (Cut α) := do
  let fallback := boundCut run.model.variableCount j solution
  if ← run.model.isPureInteger then
    match ← run.gomoryCut j with
    | some cut => if ← cut.violatedBy solution 1e-9 then return cut else fallback
    | none => fallback
  else fallback

/-- The solution with the variables that must be whole moved to the nearest integer. -/
def roundWhole (model : Model α) (solution : List α) : Except (Fault α) (List α) :=
  solution.zipIdx.mapM fun (x, j) => if model.integerIndices.contains j then nearestWhole x else pure x

/-- Solves and cuts, at most `budget` cuts more. `model` is the model without cuts and `current` the model
with them. -/
def cutLoop (observer : Observer) (opts : Options α) (model : Model α) :
    Nat → Model α → List (Cut α) → Traced α (CutOutcome α)
  | budget, current, cuts => do
    let run ← Traced.ofExcept (Simplex.run .silent opts current).outcome
    match run.result.status, run.result.solution with
    | .optimal, some solution => do
      let objective ← dotAligned model.costs solution
      observer.line
        [.text s!"Relaxation {cuts.length}: Z = ", .fixed (run.result.objective.getD 0)]
      observer.vector "Solution" solution model.names
      match ← Traced.ofExcept (firstFractional solution opts.intTol (integerVariables model)) with
      | none => do
        let snapped ← roundWhole model solution
        observer.say s!"Integral solution after {cuts.length} cuts."
        let value ← dotAligned model.costs snapped
        return ⟨.solved .optimalInteger value snapped cuts.length (.text s!"Cuts added: {cuts.length}"), cuts⟩
      | some j =>
        match budget with
        | 0 => do
          observer.say s!"Cut limit of {opts.maxCuts} reached."
          let remark := s!"Cut limit of {opts.maxCuts} reached; last relaxation returned."
          return ⟨.solved .cutLimit objective solution cuts.length (.text remark), cuts⟩
        | budget + 1 => do
          let cut ← chooseCut run j solution
          let next ← current.withRow cut.coefficients .le cut.rhs
          observer.line
            (.text s!"Cut {cuts.length + 1} ({cut.kind.name}): " :: cut.describe model.names)
          cutLoop observer opts model budget next (cuts ++ [cut])
    | status, _ => do
      observer.say s!"Relaxation is {status.name} after {cuts.length} cuts."
      return ⟨.failed status cuts.length run.result.message, cuts⟩

/-- Searches for a whole solution by cuts. Any failure on the way is an outcome of status *error*. -/
def search (observer : Observer) (opts : Options α) (model : Model α) : Traced α (CutOutcome α) := do
  observer.header title
  match ← (cutLoop observer opts model opts.maxCuts model []).attempt with
  | .ok outcome => return outcome
  | .error cause =>
    observer.line (.text s!"Error in {title}: " :: cause.phrase)
    return ⟨.failed .error 0 (.fault cause), []⟩

end CuttingPlane

end LinOpt
