import LinOpt.Tableau.Basic
import LinOpt.Trace
/-!
# The dual simplex method

A tableau whose objective row is not negative but whose right-hand side has gone negative, as after a new
row, is pivoted until the right-hand side is not negative either. The row of the most negative right-hand
side leaves; among its negative entries the one of least ratio to the objective row enters.
-/

namespace LinOpt

/-- How far a dual simplex run got. -/
structure DualRun (α : Type) where
  /-- The tableau after the pivots made. -/
  tableau : Tableau α
  /-- The row and the column of each pivot made, the last pivot first. -/
  moves : List (Nat × Nat)
  /-- The number of pivots, or why they stopped early. -/
  pivots : Except (Fault α) Nat

namespace Tableau

variable {α : Type} [Scalar α]

/-- Shows the tableau to the observer. -/
def display (T : Tableau α) (observer : Observer) (title : String) : Traced α Unit := do
  let rowNames ← T.rowNames
  observer.matrix title T.matrix T.header rowNames

/-- The entering column for a leaving row: of the entries below `-tol` the first of least ratio. -/
def dualEntering (T : Tableau α) (row : Nat) (tol : α) : Option Nat :=
  let reduced := T.reducedCosts
  let candidates := ((T.matrix.getD row []).take T.columnCount).zipIdx
  (candidates.foldl
    (fun (best : Option (Nat × α)) (a, j) =>
      if -tol ≤ a then best
      else
        let ratio := Scalar.abs (entry reduced j / a)
        match best with
        | none => some (j, ratio)
        | some (_, least) => if ratio < least - 1e-12 then some (j, ratio) else best)
    none).map (·.1)

/-- What the dual simplex method does next. -/
inductive DualMove where
  /-- The right-hand side is not negative. -/
  | feasible
  /-- The row of negative right-hand side has no negative entry. -/
  | blocked (row : Nat)
  /-- The column enters in the row. -/
  | pivot (row column : Nat)
  deriving Repr, DecidableEq

/-- The next move of the dual simplex method. -/
def nextDualMove (T : Tableau α) (tol : α) : DualMove :=
  match mostNegative T.rhs tol with
  | none => .feasible
  | some row =>
    match T.dualEntering row tol with
    | none => .blocked row
    | some col => .pivot row col

/-- Pivots until the right-hand side is not negative, at most `budget` times more. The pivots made so far
are kept when the run stops early. -/
def dualLoop (observer : Observer) (opts : Options α) :
    Nat → List (Nat × Nat) → Tableau α → Traced α (DualRun α)
  | budget, moves, T =>
    let made := moves.length
    match T.nextDualMove opts.tol with
    | .feasible => pure ⟨T, moves, .ok made⟩
    | .blocked row =>
      pure ⟨T, moves, (T.basicName row).bind fun name => .error (.noNegativeEntry name made)⟩
    | .pivot row col =>
      match budget with
      | 0 => pure ⟨T, moves, .error (.iterationLimit opts.maxIters made)⟩
      | budget + 1 =>
        match T.basicName row with
        | .error cause => pure ⟨T, moves, .error cause⟩
        | .ok leaving => do
          let next := T.pivot row col
          let report : Traced α Unit := do
            let entering ← next.columnName col
            observer.say s!"Iteration D-{made + 1}: entering {entering}, leaving {leaving}"
            next.display observer s!"Tableau after iteration D-{made + 1}"
          match ← report.attempt with
          | .error cause => pure ⟨next, (row, col) :: moves, .error cause⟩
          | .ok () => dualLoop observer opts budget ((row, col) :: moves) next

/-- Restores a right-hand side that is not negative. -/
def reoptimize (T : Tableau α) (observer : Observer) (opts : Options α) : Traced α (DualRun α) := do
  observer.header "Dual Simplex"
  T.dualLoop observer opts opts.maxIters.toNat []

end Tableau

end LinOpt
