import LinOpt.Integer.Rounding
import LinOpt.Simplex.Run
/-!
# Cuts

A cut is a `≤` row that the current vertex violates. The Gomory cut of a tableau row keeps every whole
point of a model whose variables and data are whole; the bound cut `x ≤ ⌊v⌋` stands in for it elsewhere.
-/

namespace LinOpt

/-- Where a cut comes from. -/
inductive CutKind where
  | gomory
  | bound
  deriving Repr, DecidableEq

namespace CutKind

/-- Both kinds, in the order in which they are listed to a reader. -/
def all : List CutKind := [.gomory, .bound]

/-- The word for a kind of cut. -/
def name : CutKind → String
  | .gomory => "gomory"
  | .bound => "bound"

end CutKind

/-- A `≤` row, with the vertex it cuts off. -/
structure Cut (α : Type) where
  kind : CutKind
  coefficients : List α
  rhs : α
  /-- The vertex the cut was made for. -/
  vertex : List α
  /-- The variable the cut was made for. -/
  variableIndex : Int
  deriving Repr, DecidableEq

variable {α : Type} [Scalar α]

namespace Cut

/-- Is the point beyond the cut by more than the tolerance? -/
def violatedBy (cut : Cut α) (point : List α) (tol : α) : Except (Fault α) Bool := do
  let lhs ← dotAligned cut.coefficients point
  return decide (cut.rhs + tol < lhs)

/-- The terms of a cut that are not zero. -/
def terms (coefficients : List α) (names : List String) : List (Phrase α) :=
  ((coefficients.zip names).filter fun (coef, _) => !(coef == 0)).map fun (coef, name) =>
    [.general coef, .text s!"*{name}"]

/-- The cut as an inequality over named variables. -/
def describe (cut : Cut α) (names : List String) : Phrase α :=
  let sum : Phrase α := match terms cut.coefficients names with
    | [] => [.text "0"]
    | parts => List.flatten (parts.intersperse [.text " + "])
  sum ++ [.text " <= ", .general cut.rhs]

end Cut

/-- The bound cut on a variable. -/
def boundCut (n : Nat) (j : Int) (solution : List α) : Except (Fault α) (Cut α) := do
  let row ← Position.write (zeros n) j 1
  let value ← Position.read solution j
  let below ← floorInt value
  return ⟨.bound, row, Scalar.ofInt below, solution, j⟩

/-! ## Gomory cuts -/

/-- A fraction this near to zero or one is zero. -/
def fractionSnap : α := 1e-9

/-- A cut coefficient this near to an integer is that integer. -/
def integralTolerance : α := 1e-6

/-- The part of a value above its floor, zero where it is negligible. -/
def fraction (x : α) : Except (Fault α) α := do
  let below ← floorInt x
  let f := x - Scalar.ofInt below
  return if f < fractionSnap ∨ 1 - fractionSnap < f then 0 else f

/-- The value, or the nearest integer where it is close. -/
def integral (x : α) : Except (Fault α) α := do
  let whole ← nearestWhole x
  return if Scalar.abs (x - whole) ≤ integralTolerance then whole + 0 else x

/-- Are all values within the snapping distance of an integer? -/
def allWhole : List α → Except (Fault α) Bool
  | [] => .ok true
  | x :: more => do
    let gap ← integerGap x
    if gap ≤ fractionSnap then allWhole more else return false

/-- Is every variable whole, and every coefficient and right-hand side too? Then so is every slack. -/
def Model.isPureInteger (model : Model α) : Except (Fault α) Bool :=
  if model.kinds.all Kind.isInteger then allWhole (model.rows.flatten ++ model.rhs) else .ok false

/-- A cut in the making: `coefficients · x ≥ rest - constant` over the variables of the model. -/
structure CutSum (α : Type) where
  coefficients : List α
  constant : α

/-- Adds the term of column `k` with fraction `f`: a variable directly, a slack or surplus through the row
that defines it. -/
def CutSum.addColumn (form : StandardForm α) (n : Nat) (sum : CutSum α) (k : Nat) (f : α) : CutSum α :=
  if k < n then { sum with coefficients := sum.coefficients.set k (entry sum.coefficients k + f) }
  else
    match form.rowSlack.zipIdx.find? fun (slack, _) => slack.any fun (column, _) => column == k with
    | some (some (_, sign), i) =>
      let row := (form.rows.getD i []).take n
      { coefficients := List.zipWith (fun c a => c - f * a / sign) sum.coefficients row
        constant := sum.constant + f * entry form.rhs i / sign }
    | _ => sum

/-- The sum of the fractions of a tableau row over the nonbasic columns that are not artificial. -/
def cutSum (form : StandardForm α) (basis : List Nat) (n width : Nat) (row : List α) :
    Except (Fault α) (CutSum α) :=
  (List.range width).foldlM
    (fun sum k =>
      if basis.contains k || form.artificials.contains k then pure sum
      else do
        let f ← fraction (entry row k)
        return if f == 0 then sum else sum.addColumn form n k f)
    ⟨zeros n, 0⟩

/-- The fractional cut of the tableau row in which a variable is basic, written over the variables of the
model. There is none where the variable is not basic or its value is whole. -/
def Run.gomoryCut (run : Run α) (j : Int) : Except (Fault α) (Option (Cut α)) := do
  match run.form with
  | none => throw (.unknownKey "components")
  | some form =>
    let parts ← Position.read form.components j
    let (column, _) ← Position.get parts 0
    match run.basis with
    | none => return none
    | some basis =>
      if !basis.contains column then return none
      let T ← run.tableau
      let row := T.matrix.getD (basis.idxOf column) []
      let f0 ← fraction (entry row T.columnCount)
      if f0 == 0 then return none
      let sum ← cutSum form basis run.model.variableCount T.columnCount row
      let coefficients ← sum.coefficients.mapM fun c => integral (-c)
      let rhs ← integral (sum.constant - f0)
      return some ⟨.gomory, coefficients, rhs, run.result.solution.getD [], j⟩

end LinOpt
