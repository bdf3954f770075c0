import LinOpt.Pivoting
/-!
# Tableaux

A tableau has a row for each constraint and, below them, the objective row; its last column is the
right-hand side. Column names and the basic column of each constraint row come with it. Over a system
`A x = b` with costs `c` and the inverse `B⁻¹` of the basic columns, the constraint rows are
`[B⁻¹ A | B⁻¹ b]` and the objective row is `[c_B B⁻¹ A - c | c_B B⁻¹ b]`.
-/

namespace LinOpt

/-- A simplex tableau. -/
structure Tableau (α : Type) where
  /-- The constraint rows and the objective row, the right-hand side last in each. -/
  matrix : Dense α
  /-- The basic column of each constraint row. -/
  basis : List Nat
  /-- The names of the columns. -/
  names : List String
  deriving Repr, DecidableEq

namespace Tableau

variable {α : Type}

/-- The number of constraint rows. -/
def rowCount (T : Tableau α) : Nat := T.matrix.length - 1

/-- The number of columns besides the right-hand side. -/
def columnCount (T : Tableau α) : Nat := (T.matrix.headD []).length - 1

/-- The name of a column. -/
def columnName (T : Tableau α) (column : Nat) : Except (Fault α) String := Position.get T.names column

/-- The name of the column that is basic in a row. -/
def basicName (T : Tableau α) (row : Nat) : Except (Fault α) String := do
  let column ← Position.get T.basis row
  T.columnName column

/-- The names of the rows: the basic columns, and `z`. -/
def rowNames (T : Tableau α) : Except (Fault α) (List String) := do
  let basic ← T.basis.mapM T.columnName
  return basic ++ ["z"]

/-- The names of the columns, the right-hand side included. -/
def header (T : Tableau α) : List String := T.names ++ ["RHS"]

variable [Scalar α]

/-- The constraint rows. -/
def constraintRows (T : Tableau α) : Dense α := T.matrix.take T.rowCount

/-- The objective row. -/
def objectiveRow (T : Tableau α) : List α := T.matrix.getD T.rowCount []

/-- The right-hand sides of the constraint rows. -/
def rhs (T : Tableau α) : List α := T.constraintRows.column T.columnCount

/-- The entries of the objective row. -/
def reducedCosts (T : Tableau α) : List α := T.objectiveRow.take T.columnCount

/-- The right-hand side of the objective row. -/
def objectiveValue (T : Tableau α) : α := entry T.objectiveRow T.columnCount

/-- The entries of a column in the constraint rows. -/
def column (T : Tableau α) (j : Nat) : List α := T.constraintRows.column j

/-- The values of the columns: basic ones from the right-hand side, the others zero. -/
def primalValues (T : Tableau α) : List α :=
  scatter (zeros T.columnCount) (T.basis.zip (T.matrix.column T.columnCount))

/-- The tableau of a system whose basic columns are already unit columns. -/
def initial (A : Dense α) (b c : List α) (basis : List Nat) (names : List String) : Tableau α :=
  let n := c.length
  let basicCosts := pick c basis
  let top := List.zipWith (fun row r => row ++ [r]) A b
  let bottom := List.zipWith (· - ·) (Dense.vecMul n basicCosts A) c ++ [dot basicCosts b]
  { matrix := top ++ [bottom], basis, names }

/-- Makes `column` the unit column of `row`. -/
def cleanColumn (matrix : Dense α) (row column : Nat) : Dense α :=
  matrix.mapIdx fun i r => r.set column (if i = row then 1 else 0)

/-- The tableau of a system at a basis, given the inverse of the basic columns. -/
def fromBasis (A : Dense α) (b c : List α) (basis : List Nat) (inverse : Dense α)
    (names : List String) : Tableau α :=
  let n := c.length
  let body := Dense.mul n inverse A
  let rhs := Dense.mulVec inverse b
  let basicCosts := pick c basis
  let top := List.zipWith (fun row r => row ++ [r]) body rhs
  let bottom := List.zipWith (· - ·) (Dense.vecMul n basicCosts body) c ++ [dot basicCosts rhs]
  let matrix := basis.zipIdx.foldl (fun matrix (column, row) => cleanColumn matrix row column)
    (top ++ [bottom])
  { matrix, basis, names }

/-- Brings `col` into the basis in place of the column that is basic in `row`: the row is scaled to have a
one there, and the column is cleared everywhere else, the objective row included. -/
def pivot (T : Tableau α) (row col : Nat) : Tableau α :=
  let old := T.matrix.getD row []
  let pivotRow := old.map (· / entry old col)
  let matrix := T.matrix.mapIdx fun i r =>
    if i = row then pivotRow
    else if entry r col == 0 then r
    else subScaled r (entry r col) pivotRow
  { T with matrix := cleanColumn matrix row col, basis := T.basis.set row col }

/-- A row with a zero for a new column put before its right-hand side. -/
def widen (n : Nat) (row : List α) : List α := row.take n ++ [0, entry row n]

/-- A vector that fills `n` places; a single value stands for every place. -/
def spread (n : Nat) : List α → Except (Fault α) (List α)
  | [x] => .ok (List.replicate n x)
  | xs => if xs.length = n then .ok xs else .error (.broadcast [xs.length] [n])

/-- Adds a `≤` row with a slack of its own, written over the current basis. A single coefficient stands
for every column. -/
def addRow (T : Tableau α) (coefficients : List α) (rhs : α) (slackName : String) :
    Except (Fault α) (Tableau α) :=
  let n := T.columnCount
  let rows := T.constraintRows.map (widen n)
  (spread n coefficients).map fun expanded =>
    let newRow := (T.basis.zip rows).foldl
      (fun acc (column, row) =>
        if entry acc column == 0 then acc else subScaled acc (entry acc column) row)
      (expanded ++ [1, rhs])
    { matrix := rows ++ [newRow, widen n T.objectiveRow]
      basis := T.basis ++ [n]
      names := T.names ++ [slackName] }

/-- What the simplex method does next. -/
inductive Move where
  /-- No column improves the objective. -/
  | optimal
  /-- The column improves the objective without limit. -/
  | ray (column : Nat)
  /-- The column enters in the row. -/
  | pivot (row column : Nat)
  deriving Repr, DecidableEq

/-- The next move from a tableau. -/
def nextMove (T : Tableau α) (tol : α) (rule : PivotRule) : Move :=
  match chooseEntering T.reducedCosts tol rule with
  | none => .optimal
  | some col =>
    match chooseLeaving (T.column col) T.rhs T.basis tol rule with
    | none => .ray col
    | some row => .pivot row col

end Tableau

end LinOpt
