import LinOpt.Dense.Block
import LinOpt.Tableau.DualSimplex
/-!
# Stated tableaux

A tableau whose parts have been written down one by one, and need not fit together. A basic column is a
position: it may count from the end, it may lie outside the matrix, and there may be fewer or more of them
than rows. The row and the column of a pivot are positions as well. Each operation reads the parts in a fixed
order and names the first one that does not fit.

`pivot_ofTableau` is the law that on a tableau whose parts fit, and at places inside it, the pivot is that of
`Tableau`; `named_ofTableau` says that the views here are those of the tableau itself.
-/

namespace LinOpt

/-- A tableau with its basic columns as positions. -/
structure StatedTableau (α : Type) where
  /-- The rows, the right-hand side last in each. -/
  matrix : Dense α
  /-- The position of the basic column of each row. -/
  basis : List Int
  /-- The names of the columns. -/
  names : List String
  deriving Repr, DecidableEq

namespace StatedTableau

variable {α : Type}

/-- A tableau, its basic columns counted from the front. -/
def ofTableau (T : Tableau α) : StatedTableau α := ⟨T.matrix, T.basis.map Int.ofNat, T.names⟩

/-- The tableau in which each basic column is the place of its name; a column without a name is put one
behind the last name. -/
def named (T : StatedTableau α) : Tableau α :=
  let place (position : Int) : Nat := (Position.resolve T.names.length position).getD T.names.length
  ⟨T.matrix, T.basis.map place, T.names⟩

/-- The tableau of an array of numbers. The array needs two axes, and a column for the right-hand side. -/
def ofBlock (block : Block α) (basis : List Int) (names : List String) :
    Except (Fault α) (StatedTableau α) :=
  match block.shape with
  | [m, n] => if n = 0 then .error (.outOfBounds (-1) 1 0) else .ok ⟨block.rows m n, basis, names⟩
  | _ => .error .missingAxis

variable [Scalar α]

/-! ## Tableaux of a system -/

/-- The entries of `c` at the positions of a basis. -/
def basicCosts (c : List α) (basis : List Int) : Except (Fault α) (List α) :=
  basis.mapM fun position => do
    let j ← Position.locate 0 c.length position
    return entry c j

/-- The objective row `y A - c` over `n` columns. A single entry of `c` stands for every column. -/
def objectiveRow (n : Nat) (y : List α) (A : Dense α) (c : List α) : Except (Fault α) (List α) := do
  if y.length ≠ A.length then throw (.innerMismatch A.length y.length)
  match Block.joinAxis n c.length with
  | none => throw (.operandMismatch n c.length)
  | some k =>
    let left ← Tableau.spread k (Dense.vecMul n y A)
    let right ← Tableau.spread k c
    Tableau.spread n (List.zipWith (· - ·) left right)

/-- The tableau of a system whose basic columns are already unit columns. -/
def initial (A : Block α) (b c : List α) (basis : List Int) (names : List String) :
    Except (Fault α) (StatedTableau α) :=
  match A.shape with
  | [m, n] => do
    let body := A.rows m n
    let rhs ← Tableau.spread m b
    let y ← basicCosts c basis
    let bottom ← objectiveRow n y body c
    if y.length ≠ b.length then throw (.innerMismatch b.length y.length)
    return { matrix := List.zipWith (fun row r => row ++ [r]) body rhs ++ [bottom ++ [dot y b]]
             basis, names }
  | shape => .error (.notMatrix shape.length)

/-- A matrix of `n` columns that fills `m` rows; a single row stands for every row. -/
def spreadRows (m n : Nat) : Dense α → Except (Fault α) (Dense α)
  | [row] => .ok (List.replicate m row)
  | rows => if rows.length = m then .ok rows else .error (.broadcast [rows.length, n] [m, n])

/-- The tableau of a system at a basis, given the inverse of the basic columns. An inverse of one axis is a
single row. -/
def fromBasis (A : Block α) (b c : List α) (basis : List Int) (inverse : Block α) (names : List String) :
    Except (Fault α) (StatedTableau α) :=
  match A.shape, inverse.shape.reverse with
  | [m, n], q :: outer => do
    let factor := inverse.rows (outer.foldl (· * ·) 1) q
    if q ≠ m then throw (.innerMismatch m q)
    let body ← spreadRows m n (Dense.mul n factor (A.rows m n))
    if q ≠ b.length then throw (.innerMismatch b.length q)
    let rhs ← Tableau.spread m (Dense.mulVec factor b)
    let y ← basicCosts c basis
    let bottom ← objectiveRow n y body c
    let rows := List.zipWith (fun row r => row ++ [r]) body rhs ++ [bottom ++ [dot y rhs]]
    let matrix ← basis.zipIdx.foldlM
      (fun matrix (position, row) => do
        let j ← Position.locate 1 (n + 1) position
        return Tableau.cleanColumn matrix row j)
      rows
    return { matrix, basis, names }
  | [_, _], [] => .error .missingAxis
  | shape, _ => .error (.notMatrix shape.length)

/-! ## Views -/

/-- The column that enters next. -/
def entering (T : StatedTableau α) (tol : α) (rule : PivotRule) : Option Nat :=
  chooseEntering T.named.reducedCosts tol rule

/-- The row that leaves when the column at a position enters. -/
def leaving (T : StatedTableau α) (col : Int) (tol : α) (rule : PivotRule) :
    Except (Fault α) (Option Nat) := do
  let j ← Position.locate 1 (T.named.columnCount + 1) col
  chooseLeavingWithin (T.named.column j) T.named.rhs T.basis tol rule

/-- The values of the columns: basic ones from the right-hand side, the others zero. -/
def primalValues (T : StatedTableau α) : Except (Fault α) (List α) :=
  let n := T.named.columnCount
  T.basis.zipIdx.foldlM
    (fun x (position, i) => do
      let row ← Position.locate 0 T.matrix.length i
      let j ← Position.locate 0 n position
      return x.set j (entry (T.matrix.getD row []) n))
    (zeros n)

/-! ## Changes -/

/-- Clears a column in a row by a multiple of `source`. -/
def clear (col : Nat) (source row : List α) : List α :=
  if entry row col == 0 then row else subScaled row (entry row col) source

/-- The matrix after a pivot at a row counted from the end. Only a row counted from the front is spared by
the elimination: this one is cleared by itself, and the rows below it by what is left of it. -/
def pivotFromEnd (matrix : Dense α) (row col : Nat) : Dense α :=
  let old := matrix.getD row []
  let pivotRow := old.map (· / entry old col)
  let remainder := clear col pivotRow pivotRow
  Tableau.cleanColumn
    (matrix.mapIdx fun i r =>
      if i < row then clear col pivotRow r else if i = row then remainder else clear col remainder r)
    row col

/-- The pivot at a row and a column, and what goes wrong with it. A position outside the matrix changes
nothing. A row without a basic column, such as the objective row, changes the matrix alone. -/
def pivot (T : StatedTableau α) (row col : Int) : StatedTableau α × Option (Fault α) :=
  let height := T.matrix.length
  let width := T.named.columnCount + 1
  match Position.resolve height row, Position.resolve width col with
  | none, _ => (T, some (.outOfBounds row 0 height))
  | some _, none => (T, some (.outOfBounds col 1 width))
  | some i, some j =>
    let matrix := if row < 0 then pivotFromEnd T.matrix i j else (T.named.pivot i j).matrix
    match Position.write T.basis row col with
    | .ok basis => ({ T with matrix, basis }, none)
    | .error cause => ({ T with matrix }, some cause)

/-- Adds a `≤` row with a slack of its own, written over the current basis. A basic column behind those of
the constraint rows belongs to the new row, which is still zero, and the next one to the objective row. -/
def addRow (T : StatedTableau α) (coefficients : List α) (rhs : α) (slackName : String) :
    Except (Fault α) (StatedTableau α) := do
  let n := T.named.columnCount
  let rows := T.named.constraintRows.map (Tableau.widen n)
  let objective := Tableau.widen n T.named.objectiveRow
  let sources := rows ++ [zeros (n + 2), objective]
  let expanded ← Tableau.spread n coefficients
  let newRow ← T.basis.zipIdx.foldlM
    (fun acc (position, i) => do
      let j ← Position.locate 0 (n + 2) position
      if entry acc j == 0 then return acc
      else
        let source ← Position.locate 0 sources.length i
        return clear j (sources.getD source []) acc)
    (expanded ++ [1, rhs])
  return { matrix := rows ++ [newRow, objective]
           basis := T.basis ++ [(n : Int)]
           names := T.names ++ [slackName] }

/-- Restores a right-hand side that is not negative: the tableau after the pivots made, and their number or
why they stopped early. A row that was pivoted has its basic column counted from the front. -/
def reoptimize (T : StatedTableau α) (observer : Observer) (opts : Options α) :
    Traced α (StatedTableau α × Except (Fault α) Nat) := do
  let run ← T.named.reoptimize observer opts
  let basis := run.moves.foldr (fun (row, col) basis => basis.set row (col : Int)) T.basis
  return ({ T with matrix := run.tableau.matrix, basis }, run.pivots)

/-! ## Agreement with tableaux -/

omit [Scalar α] in
/-- A tableau whose basic columns all have names is its own view. -/
theorem named_ofTableau (T : Tableau α) (h : ∀ k ∈ T.basis, k < T.names.length) :
    (ofTableau T).named = T := by
  have hbasis : (T.basis.map Int.ofNat).map
      (fun position => (Position.resolve T.names.length position).getD T.names.length) = T.basis := by
    rw [List.map_map]
    conv => rhs; rw [← List.map_id T.basis]
    refine List.map_congr_left fun k hk => ?_
    simp [Position.resolve_natCast (h k hk)]
  simp only [named, ofTableau, hbasis]

/-- **Where the parts fit, the two pivots agree.** The row has a basic column, and the row and the column
are places inside the matrix. -/
theorem pivot_ofTableau (T : Tableau α) (row col : Nat) (hbasis : row < T.basis.length)
    (hrow : row < T.matrix.length) (hcol : col < T.columnCount + 1) :
    (ofTableau T).pivot row col = (ofTableau (T.pivot row col), none) := by
  have hwrite : Position.write (α := α) (T.basis.map Int.ofNat) (row : Int) (col : Int) =
      .ok ((T.basis.set row col).map Int.ofNat) := by
    simp [Position.write, Position.resolve_natCast hbasis, List.map_set]
  have hcount : (ofTableau T).named.columnCount = T.columnCount := rfl
  have hfront : ¬ (row : Int) < 0 := by omega
  simp only [pivot, hcount]
  rw [show (ofTableau T).matrix = T.matrix from rfl, Position.resolve_natCast hrow,
    Position.resolve_natCast hcol, show (ofTableau T).basis = T.basis.map Int.ofNat from rfl, hwrite]
  simp only [if_neg hfront]
  rfl

end StatedTableau

end LinOpt
