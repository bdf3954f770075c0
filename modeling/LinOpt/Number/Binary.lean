/-!
# Binary64 values, read exactly

A finite binary64 value is `± mantissa * 2 ^ exponent`. `Binary.ofFloat` reads the three parts off the
bits, so that flooring, rounding and printing are exact arithmetic on natural numbers.
-/

namespace LinOpt

/-- What a binary64 value stands for. -/
inductive Binary where
  /-- No number. -/
  | nan
  /-- An infinity, with its sign. -/
  | infinite (negative : Bool)
  /-- The number `± mantissa * 2 ^ exponent`; a zero keeps its sign. -/
  | finite (negative : Bool) (mantissa : Nat) (exponent : Int)
  deriving Repr, DecidableEq

/-- Why a number has no integer below or near it. -/
inductive NonFinite where
  | nan
  | infinite
  deriving Repr, DecidableEq

/-- The nearest integer to `num / den`, a half going to the even neighbour. -/
def roundDiv (num den : Nat) : Nat :=
  let q := num / den
  let r := num % den
  if 2 * r < den then q
  else if den < 2 * r then q + 1
  else q + q % 2

namespace Binary

/-- A power of two. -/
def twoTo (k : Nat) : Nat := Nat.pow 2 k

/-- Reads the sign bit, the eleven exponent bits and the fifty-two fraction bits. -/
def ofFloat (x : Float) : Binary :=
  let bits := x.toBits.toNat
  let negative := bits / twoTo 63 == 1
  let exponent : Nat := bits / twoTo 52 % twoTo 11
  let fraction : Nat := bits % twoTo 52
  if exponent = 2047 then
    if fraction = 0 then .infinite negative else .nan
  else if exponent = 0 then .finite negative fraction (-1074)
  else .finite negative (twoTo 52 + fraction) ((exponent : Int) - 1075)

/-- The magnitude `mantissa * 2 ^ exponent` as a quotient of natural numbers. -/
def quotient (mantissa : Nat) : Int → Nat × Nat
  | .ofNat k => (mantissa * twoTo k, 1)
  | .negSucc k => (mantissa, twoTo (k + 1))

/-- The greatest integer that is not above the value. -/
def floor : Binary → Except NonFinite Int
  | .nan => .error .nan
  | .infinite _ => .error .infinite
  | .finite negative mantissa exponent =>
    let (num, den) := quotient mantissa exponent
    .ok (if negative then -(((num + den - 1) / den : Nat) : Int) else ((num / den : Nat) : Int))

/-- The nearest integer, a half going to the even neighbour. -/
def nearest : Binary → Except NonFinite Int
  | .nan => .error .nan
  | .infinite _ => .error .infinite
  | .finite negative mantissa exponent =>
    let (num, den) := quotient mantissa exponent
    let magnitude : Int := (roundDiv num den : Nat)
    .ok (if negative then -magnitude else magnitude)

end Binary

end LinOpt
