import LinOpt.Dense.Basic
import LinOpt.Position
/-!
# Whole numbers among the solution

How far a value is from the nearest integer, which variable to branch on, and moving almost whole values
to the integers beside them.
-/

namespace LinOpt

variable {α : Type} [Scalar α]

/-- The greatest integer that is not above the value. -/
def floorInt (x : α) : Except (Fault α) Int := (Scalar.floor x).mapError .noInteger

/-- The least integer that is not below the value. -/
def ceilInt (x : α) : Except (Fault α) Int := (Scalar.ceil x).mapError .noInteger

/-- The nearest integer, a half going to the even neighbour. -/
def nearestInt (x : α) : Except (Fault α) Int := (Scalar.nearest x).mapError .noInteger

/-- The nearest integer as a number. -/
def nearestWhole (x : α) : Except (Fault α) α := (nearestInt x).map Scalar.ofInt

/-- The distance to the nearest integer. -/
def integerGap (x : α) : Except (Fault α) α := (nearestWhole x).map fun whole => Scalar.abs (x - whole)

/-- The variable furthest from the integers and its value; the first of those within `1e-12`. Variables
within `tol` are passed over. -/
def selectFractional (values : List α) (positions : List Int) (tol : α) :
    Except (Fault α) (Option (Int × α)) := do
  let (best, _) ← positions.foldlM
    (fun (best : Option (Int × α) × α) j => do
      let value ← Position.read values j
      let gap ← integerGap value
      return if tol < gap ∧ best.2 + 1e-12 < gap then (some (j, value), gap) else best)
    (none, 0)
  return best

/-- The first variable that is further than `tol` from the integers. -/
def firstFractional (values : List α) (tol : α) : List Int → Except (Fault α) (Option Int)
  | [] => .ok none
  | j :: more => do
    let value ← Position.read values j
    let gap ← integerGap value
    if tol < gap then return some j else firstFractional values tol more

/-- The solution with the listed values that are within `tol` of an integer moved there. -/
def snap (solution : List α) (positions : List Int) (tol : α) : Except (Fault α) (List α) :=
  positions.foldlM
    (fun current j => do
      let value ← Position.read current j
      let gap ← integerGap value
      if gap ≤ tol then
        let whole ← nearestWhole value
        Position.write current j whole
      else return current)
    solution

end LinOpt
