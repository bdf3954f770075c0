import LinOpt.Number.Decimal
/-!
# The numbers a solver works on

Every solver of this library is written once, over any type with the operations of `Scalar`. The
programs run it on `Float`; on `Rat` the same definitions compute exactly, which is where statements
about optimality and feasibility live. Nothing is assumed about the operations: a law needed by an
argument is a law of the instance.
-/

namespace LinOpt

/-- The arithmetic, the comparisons and the rounding that the solvers use. -/
class Scalar (α : Type) where
  /-- Addition. -/
  toAdd : Add α
  /-- Subtraction. -/
  toSub : Sub α
  /-- Multiplication. -/
  toMul : Mul α
  /-- Division. -/
  toDiv : Div α
  /-- Negation. -/
  toNeg : Neg α
  /-- The number zero. -/
  toZero : Zero α
  /-- The number one. -/
  toOne : One α
  /-- The strict order. -/
  toLT : LT α
  /-- The weak order. -/
  toLE : LE α
  /-- Equality of numbers, as a test. -/
  toBEq : BEq α
  /-- Numbers written with a fraction or an exponent. -/
  toOfScientific : OfScientific α
  /-- Strict comparison is decidable. -/
  decideLt : ∀ a b : α, Decidable (a < b)
  /-- Weak comparison is decidable. -/
  decideLe : ∀ a b : α, Decidable (a ≤ b)
  /-- The magnitude. -/
  abs : α → α
  /-- An integer as a number. -/
  ofInt : Int → α
  /-- The greatest integer that is not above the number. -/
  floor : α → Except NonFinite Int
  /-- The nearest integer, a half going to the even neighbour. -/
  nearest : α → Except NonFinite Int
  /-- `nearest` as a number; what has no integer near it is left alone. -/
  rint : α → α
  /-- The number to two decimals, a half going to the even digit. -/
  round2 : α → α
  /-- Is this an infinity? -/
  isInfinite : α → Bool

namespace Scalar

variable {α : Type} [Scalar α]

/-! The operations are found with low priority: the number types' own instances come first, so that a
statement over `Rat` reads as one. -/

instance (priority := 50) : Add α := toAdd

instance (priority := 50) : Sub α := toSub

instance (priority := 50) : Mul α := toMul

instance (priority := 50) : Div α := toDiv

instance (priority := 50) : Neg α := toNeg

instance (priority := 50) : Zero α := toZero

instance (priority := 50) : One α := toOne

instance (priority := 50) : LT α := toLT

instance (priority := 50) : LE α := toLE

instance (priority := 50) : BEq α := toBEq

instance (priority := 50) : OfScientific α := toOfScientific

instance (priority := 50) (a b : α) : Decidable (a < b) := decideLt a b

instance (priority := 50) (a b : α) : Decidable (a ≤ b) := decideLe a b

/-- The larger of two numbers; the first when neither is above the other. -/
def larger (a b : α) : α := if a < b then b else a

/-- The smaller of two numbers; the first when neither is below the other. -/
def smaller (a b : α) : α := if b < a then b else a

/-- The least integer that is not below the number. -/
def ceil (x : α) : Except NonFinite Int := (floor (-x)).map (-·)

/-- The number to three decimals, never a negative zero. -/
def round3 (x : α) : α :=
  let rounded := rint (x * ofInt 1000) / ofInt 1000
  if rounded == 0 then 0 else rounded

/-- The number, or zero where its magnitude is below `1e-12`. -/
def clean (x : α) : α := if abs x < 1e-12 then 0 else x

end Scalar

/-! ## Binary64 -/

/-- The nearest integer to a binary64 value, with the sign of the value. Adding and taking away `2 ^ 52`
leaves no fraction, and rounds a half to the even neighbour. -/
def rintFloat (x : Float) : Float :=
  let big : Float := 4503599627370496.0
  if x.abs < big then
    let magnitude := (x.abs + big) - big
    if x < 0.0 || (x == 0.0 && 1.0 / x < 0.0) then -magnitude else magnitude
  else x

instance : Scalar Float where
  toAdd := instAddFloat
  toSub := instSubFloat
  toMul := instMulFloat
  toDiv := instDivFloat
  toNeg := instNegFloat
  toZero := ⟨0.0⟩
  toOne := ⟨1.0⟩
  toLT := instLTFloat
  toLE := instLEFloat
  toBEq := instBEqFloat
  toOfScientific := instOfScientificFloat
  decideLt := inferInstance
  decideLe := inferInstance
  abs := Float.abs
  ofInt := Float.ofInt
  floor x := (Binary.ofFloat x).floor
  nearest x := (Binary.ofFloat x).nearest
  rint := rintFloat
  round2 := Decimal.rounded 2
  isInfinite := Float.isInf

/-! ## Exact rationals -/

/-- The nearest integer to a rational, a half going to the even neighbour. -/
def nearestRat (x : Rat) : Int :=
  let below := x.floor
  let rest := x - below
  if rest < 1 / 2 then below
  else if 1 / 2 < rest then below + 1
  else below + below % 2

instance : Scalar Rat where
  toAdd := Rat.instAdd
  toSub := Rat.instSub
  toMul := Rat.instMul
  toDiv := Rat.instDiv
  toNeg := Rat.instNeg
  toZero := ⟨0⟩
  toOne := ⟨1⟩
  toLT := Rat.instLT
  toLE := Rat.instLE
  toBEq := instBEqOfDecidableEq
  toOfScientific := Rat.instOfScientific
  decideLt := inferInstance
  decideLe := inferInstance
  abs x := if x < 0 then -x else x
  ofInt n := n
  floor x := .ok x.floor
  nearest x := .ok (nearestRat x)
  rint x := nearestRat x
  round2 x := nearestRat (x * 100) / 100
  isInfinite _ := false

end LinOpt
