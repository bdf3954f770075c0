import LinOpt.Dense.Basic
/-!
# Gauss–Jordan inversion

The matrix stands beside the identity. For each column the row with the entry of largest magnitude, at
or below the diagonal, is brought to the diagonal and scaled to one, and the column is cleared in all
other rows. What the identity has become is the inverse: the left block is at every moment the right
block times the matrix.
-/

namespace LinOpt

namespace Dense

variable {α : Type} [Scalar α]

/-- A pivot candidate of magnitude below this makes the matrix singular. -/
def pivotTolerance : α := 1e-12

/-- A factor of magnitude below this is not eliminated. -/
def skipTolerance : α := 1e-15

/-- The first place of a largest value, with that value. A value that is not a number counts as largest. -/
def firstMax : List α → Option (Nat × α)
  | [] => none
  | x :: xs =>
    match firstMax xs with
    | none => some (0, x)
    | some (k, best) => if x < best || (x == x && !(best == best)) then some (k + 1, best) else some (0, x)

/-- Exchanges rows `i` and `k`. -/
def swapRows (rows : Dense α) (i k : Nat) : Dense α :=
  (rows.set i (rows.getD k [])).set k (rows.getD i [])

/-- Scales row `i` so that its entry in column `i` is one. -/
def normalizeRow (rows : Dense α) (i : Nat) : Dense α :=
  let row := rows.getD i []
  rows.set i (row.map (· / entry row i))

/-- Clears column `i` in every row but row `i`, unless the factor is negligible. -/
def clearColumn (rows : Dense α) (i : Nat) : Dense α :=
  let pivotRow := rows.getD i []
  rows.mapIdx fun r row =>
    if r = i then row
    else if Scalar.abs (entry row i) < skipTolerance then row
    else subScaled row (entry row i) pivotRow

/-- One round of the elimination, for column `i`. -/
def eliminate (rows : Dense α) (i : Nat) : Except (Fault α) (Dense α) :=
  match firstMax ((column (rows.drop i) i).map Scalar.abs) with
  | none => .ok rows
  | some (k, best) =>
    if best < pivotTolerance then .error (.singular best i)
    else
      let swapped := if k = 0 then rows else swapRows rows i (i + k)
      .ok (clearColumn (normalizeRow swapped i) i)

/-- The inverse of a square matrix. -/
def inverse (A : Dense α) : Except (Fault α) (Dense α) := do
  let n := A.length
  let rows ← (List.range n).foldlM eliminate (List.zipWith (· ++ ·) A (identity n))
  return rows.map (·.drop n)

end Dense

end LinOpt
