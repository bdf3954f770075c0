import LinOpt.Instance.Twister
import LinOpt.Model
/-!
# Random instances

A random instance maximises positive costs under `≤` rows with positive coefficients and right-hand sides,
so the origin is feasible and the region is bounded. Its numbers come from a stream of draws from `[0, 1)`:
the coefficients row by row, then the right-hand sides, then the costs.
-/

namespace LinOpt

namespace Instance

variable {α : Type} [Scalar α]

/-- The size and the kind of an instance. Sizes below zero are taken for zero, except in the bounds on the
right-hand sides. -/
structure Size where
  variableCount : Int
  rows : Int
  integer : Bool
  deriving Repr, DecidableEq

namespace Size

/-- The number of draws an instance takes. -/
def drawCount (size : Size) : Nat :=
  size.rows.toNat * size.variableCount.toNat + size.rows.toNat + size.variableCount.toNat

end Size

/-- The number between `low` and `high` that a draw stands for, to two decimals. -/
def between (low high draw : α) : α := Scalar.round2 (low + (high - low) * draw)

/-- The instance of a size from a stream of draws. -/
def ofDraws (size : Size) (draw : Nat → α) : Model α :=
  let n := size.variableCount.toNat
  let m := size.rows.toNat
  let scale : α := Scalar.ofInt size.variableCount
  { name := if size.integer then "random-ilp" else "random-lp"
    sense := .max
    rows := (List.range m).map fun i => (List.range n).map fun j =>
      between 0.5 5.0 (draw (i * n + j))
    rhs := (List.range m).map fun i => between (scale * 2.0) (scale * 6.0) (draw (m * n + i))
    costs := (List.range n).map fun j => between 1.0 4.0 (draw (m * n + m + j))
    signs := List.replicate m .le
    kinds := List.replicate n (if size.integer then .int else .nonneg) }

/-- The instance of a size from a seed. -/
def ofSeed (size : Size) (seed : Int) : Model Float :=
  let draws := (Twister.draws size.drawCount (Twister.ofSeed seed)).toArray
  ofDraws size fun k => Float.ofNat (draws.getD k 0) / 9007199254740992.0

end Instance

end LinOpt
