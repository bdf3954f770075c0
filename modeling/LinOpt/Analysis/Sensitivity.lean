import LinOpt.Simplex.Run
/-!
# Sensitivity of an optimum

At an optimal basis the inverse of the basic columns prices every row and every column. From it are read
the shadow price of each row, and the ranges over which a cost or a right-hand side may change before the
basis stops being optimal. Artificial columns carry no cost here: the basis is feasible.
-/

namespace LinOpt

/-- What the last basis of an optimal run says, in columns of the standard form. -/
structure SensitivityState (α : Type) where
  /-- The standard form of the run. -/
  form : StandardForm α
  /-- The basic column of each row. -/
  basic : List Nat
  /-- The other columns, the artificial ones left out. -/
  nonbasic : List Nat
  /-- The inverse of the basic columns. -/
  inverse : Dense α
  /-- The values of the basic columns. -/
  basics : List α
  /-- The shadow price of each row, in the sense and the direction of the model. -/
  prices : List α
  /-- The reduced costs of all columns, zero on basic ones. -/
  reduced : List α
  /-- All columns written over the basis. -/
  body : Dense α
  /-- The objective value. -/
  objective : α
  /-- The sense of the model. -/
  sense : Sense
  /-- The costs of the model. -/
  costs : List α
  /-- The right-hand sides of the model. -/
  rhs : List α
  /-- The number of rows of the model. -/
  modelRows : Nat

/-- Everything the sensitivity analysis has to say about an optimum. -/
structure SensitivityReport (α : Type) where
  objective : α
  shadowPrices : List α
  rhsRanges : List (Range α)
  objectiveRanges : List (Range α)
  basicVariables : List String

variable {α : Type} [Scalar α]

/-- The analysis of an optimal run. -/
def Run.sensitivity (run : Run α) : Except (Fault α) (SensitivityState α) := do
  if !run.isOptimal then throw .sensitivityNeedsOptimum
  let (form, basis) ← run.terminal
  let inverse ← run.basisInverse
  let prices := Dense.vecMul form.height (pick form.objective basis) inverse
  let reduced := List.zipWith (· - ·) (Dense.vecMul form.width prices form.rows) form.objective
  let factor : α := run.model.sense.factor
  let objective ← dotAligned run.model.costs (run.result.solution.getD [])
  return { form
           basic := basis
           nonbasic := (List.range form.width).filter fun j =>
             !basis.contains j && !form.artificials.contains j
           inverse
           basics := Dense.mulVec inverse form.rhs
           prices := List.zipWith (fun y flipped => y * (if flipped then -factor else factor))
             prices form.flipped
           reduced := scatter reduced (basis.map (·, 0))
           body := Dense.mul form.width inverse form.rows
           objective
           sense := run.model.sense
           costs := run.model.costs
           rhs := run.model.rhs
           modelRows := run.model.rowCount }

/-! ## The ends of a range -/

/-- A lower limit met on the way; what is not a number is passed over. -/
def raiseLower (best : Option α) (limit : α) : Option α :=
  match best with
  | none => if limit == limit then some limit else none
  | some b => some (Scalar.larger b limit)

/-- An upper limit met on the way; what is not a number is passed over. -/
def dropUpper (best : Option α) (limit : α) : Option α :=
  match best with
  | none => if limit == limit then some limit else none
  | some b => some (Scalar.smaller b limit)

/-- The end of a range at a distance from the current value; an infinite distance leaves it open. -/
def rangeEnd (current : α) : Option α → Option α
  | none => none
  | some distance =>
    if Scalar.isInfinite distance then none else some (Scalar.clean (current + distance))

/-- The range between two distances from the current value, exchanged where the direction is reversed. -/
def rangeAround (current : α) (lower upper : Option α) (reversed : Bool) : Range α :=
  if reversed then ⟨rangeEnd current (upper.map (-·)), rangeEnd current (lower.map (-·))⟩
  else ⟨rangeEnd current lower, rangeEnd current upper⟩

namespace SensitivityState

/-- A coefficient of magnitude up to this limits nothing. -/
def negligible : α := 1e-12

/-- The change of the objective with the right-hand side of each row of the model. -/
def shadowPrices (state : SensitivityState α) : List α :=
  (state.prices.take state.modelRows).map Scalar.clean

/-- The one column of a variable, and its sign there. -/
def columnOf (state : SensitivityState α) (index : Int) : Except (Fault α) (Nat × α) := do
  match ← Position.read state.form.components index with
  | [part] => return part
  | _ => throw (.splitVariable index)

/-- The costs that keep a nonbasic variable at zero. -/
def nonbasicRange (state : SensitivityState α) (index : Int) : Except (Fault α) (Range α) := do
  let (column, sign) ← state.columnOf index
  if state.basic.contains column then throw (.basicVariable index)
  let current ← Position.read state.costs index
  -- a change of the cost shifts the maximised column cost by this factor
  let factor := state.sense.factor * sign
  let limit := Scalar.clean (current + entry state.reduced column / factor)
  return if 0 < factor then ⟨none, some limit⟩ else ⟨some limit, none⟩

/-- The distances to which the column cost of the basic variable in `row` may move. -/
def costDistances (state : SensitivityState α) (row : List α) : Option α × Option α :=
  state.nonbasic.foldl
    (fun (lower, upper) j =>
      let alpha := entry row j
      if Scalar.abs alpha ≤ negligible then (lower, upper)
      else
        let limit := -entry state.reduced j / alpha
        if 0 < alpha then (raiseLower lower limit, upper) else (lower, dropUpper upper limit))
    (none, none)

/-- The costs of a basic variable that keep the basis optimal. -/
def basicRange (state : SensitivityState α) (index : Int) : Except (Fault α) (Range α) := do
  let (column, sign) ← state.columnOf index
  if !state.basic.contains column then throw (.nonbasicVariable index)
  let (lower, upper) := state.costDistances (state.body.getD (state.basic.idxOf column) [])
  let current ← Position.read state.costs index
  return rangeAround current lower upper (decide (state.sense.factor * sign < 0))

/-- The distances to which the right-hand side with column `u` of the inverse may move. -/
def rhsDistances (state : SensitivityState α) (u : List α) : Option α × Option α :=
  (u.zip state.basics).foldl
    (fun (low, high) (value, x) =>
      if negligible < value then (raiseLower low (-x / value), high)
      else if value < -negligible then (low, dropUpper high (-x / value))
      else (low, high))
    (none, none)

/-- The right-hand sides of a row that keep the basis feasible. -/
def rhsRange (state : SensitivityState α) (constraint : Int) : Except (Fault α) (Range α) := do
  if ¬ (0 ≤ constraint ∧ constraint < state.modelRows) then throw (.constraintOutOfRange constraint)
  let k := constraint.toNat
  let (low, high) := state.rhsDistances (state.inverse.column k)
  return rangeAround (entry state.rhs k) low high (state.form.flipped.getD k false)

/-- The reduced cost of a new variable with the given column and cost: what one unit of it would add to
the objective. -/
def newActivity (state : SensitivityState α) (column : List α) (cost : α) : Except (Fault α) α :=
  if column.length ≠ state.modelRows then .error (.columnLength column.length state.modelRows)
  else .ok (Scalar.clean (cost - dot (state.prices.take state.modelRows) column))

/-- The cost range of a variable; one that is split over two columns has no limits. -/
def objectiveRange (state : SensitivityState α) (j : Nat) : Except (Fault α) (Range α) := do
  match ← Position.get state.form.components j with
  | [(column, _)] => if state.basic.contains column then state.basicRange j else state.nonbasicRange j
  | _ => return ⟨none, none⟩

/-- The whole analysis. -/
def report (state : SensitivityState α) : Except (Fault α) (SensitivityReport α) := do
  let objectiveRanges ← (List.range state.costs.length).mapM state.objectiveRange
  let rhsRanges ← (List.range state.modelRows).mapM fun (k : Nat) => state.rhsRange k
  let basicVariables ← state.basic.mapM state.form.columnName
  return { objective := state.objective
           shadowPrices := state.shadowPrices
           rhsRanges
           objectiveRanges
           basicVariables }

end SensitivityState

end LinOpt
