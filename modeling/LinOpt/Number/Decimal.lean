import LinOpt.Number.Binary
/-!
# Decimal text of binary64 values

Every text here is the correctly rounded decimal of the exact binary value, a half going to the even
digit. The shapes are the fixed form (`12.500`), the scientific form (`1.250e+01`), the general form
with a bound on the significant digits (`12.5`, `1e-09`), and the shortest text that reads back.
-/

namespace LinOpt

namespace Decimal

/-- `text` filled up on the left with `fill` to `width` characters. -/
def padLeft (width : Nat) (fill : Char) (text : String) : String :=
  String.ofList (List.replicate (width - text.length) fill) ++ text

/-- `text` filled up on the right with blanks to `width` characters. -/
def padRight (width : Nat) (text : String) : String :=
  text ++ String.ofList (List.replicate (width - text.length) ' ')

/-- The number of decimal digits of `n`; zero has one. -/
def digitCount (n : Nat) : Nat := (Nat.toDigits 10 n).length

/-- A power of ten. -/
def tenTo (k : Nat) : Nat := Nat.pow 10 k

/-- `num * 10 ^ e / den` as a quotient of natural numbers. -/
def scaled (num den : Nat) : Int → Nat × Nat
  | .ofNat k => (num * tenTo k, den)
  | .negSucc k => (num, den * tenTo (k + 1))

/-- The exponent `e` with `10 ^ e ≤ num / den < 10 ^ (e + 1)`, for a positive quotient. -/
def leadingExponent (num den : Nat) : Int :=
  -- the two digit counts give the exponent, or one more
  let e : Int := (digitCount num : Int) - digitCount den
  let (n, d) := scaled num den (-e)
  if n < d then e - 1 else e

/-- A positive quotient to `digits` significant digits: the digits as one number, and the exponent of
the leading one. -/
def significant (digits num den : Nat) : Nat × Int :=
  let e := leadingExponent num den
  let (n, d) := scaled num den (digits - 1 - e)
  let q := roundDiv n d
  if q = tenTo digits then (tenTo (digits - 1), e + 1) else (q, e)

/-- The digits of `q` with `places` of them behind the point. -/
def withPoint (q places : Nat) : String :=
  if places = 0 then toString q
  else toString (q / tenTo places) ++ "." ++ padLeft places '0' (toString (q % tenTo places))

/-- The text without the zeros that end its fraction, and without a bare point. -/
def trimZeros (text : String) : String :=
  if text.contains '.' then
    let kept := text.toList.reverse.dropWhile (· == '0')
    String.ofList ((if kept.head? = some '.' then kept.tail else kept).reverse)
  else text

/-- The exponent mark, with a sign and at least two digits. -/
def exponentMark (e : Int) : String :=
  (if e < 0 then "e-" else "e+") ++ padLeft 2 '0' (toString e.natAbs)

/-- A zero to `places` fraction digits. -/
def zeroWith (places : Nat) : String := withPoint 0 places

/-- Puts the sign in front and names what is not a number. -/
def signed (x : Float) (magnitude : Nat → Nat → String) : String :=
  match Binary.ofFloat x with
  | .nan => "nan"
  | .infinite negative => if negative then "-inf" else "inf"
  | .finite negative mantissa exponent =>
    let (num, den) := Binary.quotient mantissa exponent
    (if negative then "-" else "") ++ magnitude num den

/-- `x` with exactly `places` digits behind the point. -/
def fixed (places : Nat) (x : Float) : String :=
  signed x fun num den => withPoint (roundDiv (num * tenTo places) den) places

/-- `x` as one digit, `places` fraction digits and an exponent. -/
def scientific (places : Nat) (x : Float) : String :=
  signed x fun num den =>
    if num = 0 then zeroWith places ++ exponentMark 0
    else
      let (q, e) := significant (places + 1) num den
      withPoint q places ++ exponentMark e

/-- `x` to at most `digits` significant digits, positional when the leading exponent is at least `-4` and
below `digits`, without zeros at the end of the fraction. -/
def general (digits : Nat) (x : Float) : String :=
  signed x fun num den =>
    if num = 0 then "0"
    else
      let (q, e) := significant digits num den
      if -4 ≤ e ∧ e < digits then trimZeros (withPoint q (digits - 1 - e).toNat)
      else trimZeros (withPoint q (digits - 1)) ++ exponentMark e

/-- The number with decimal digits `q`, the leading one at exponent `e`, out of `digits` digits. -/
def readBack (digits q : Nat) (e : Int) : Float :=
  match e - (digits - 1) with
  | .ofNat k => Float.ofScientific q false k
  | .negSucc k => Float.ofScientific q true (k + 1)

/-- The fewest digits, of the counts tried, whose nearest decimal reads back as `magnitude`. -/
def shortestDigits (magnitude : Float) (num den : Nat) : List Nat → Nat × Nat × Int
  | [] => (17, significant 17 num den)
  | digits :: more =>
    let (q, e) := significant digits num den
    if readBack digits q e == magnitude then (digits, q, e)
    else shortestDigits magnitude num den more

/-- The shortest decimal that reads back as `x`, positional for leading exponents from `-4` to `15`, and
with at least one digit behind the point. -/
def shortest (x : Float) : String :=
  signed x fun num den =>
    if num = 0 then "0.0"
    else
      let (digits, q, e) := shortestDigits x.abs num den (List.range 17).tail
      if -4 ≤ e ∧ e < 16 then
        let places := (digits : Int) - 1 - e
        if places ≤ 0 then toString (q * tenTo (-places).toNat) ++ ".0"
        else withPoint q places.toNat
      else trimZeros (withPoint q (digits - 1)) ++ exponentMark e

/-- `x` rounded exactly to `places` decimals, a half going to the even digit. A negative count of places
rounds to tens, hundreds and so on. -/
def rounded (places : Int) (x : Float) : Float :=
  match Binary.ofFloat x with
  | .nan => x
  | .infinite _ => x
  | .finite negative mantissa exponent =>
    let (num, den) := Binary.quotient mantissa exponent
    let (n, d) := scaled num den places
    let q := roundDiv n d
    let magnitude := match places with
      | .ofNat k => Float.ofScientific q true k
      | .negSucc k => Float.ofScientific q false (k + 1)
    if negative then -magnitude else magnitude

/-- Does rounding to tens, hundreds and so on carry a finite number beyond the range of numbers? -/
def roundsBeyond (places : Int) (x : Float) : Bool :=
  -- no finite number reaches half of 10 ^ 309
  decide (-308 ≤ places) && !x.isInf && (rounded places x).isInf

end Decimal

end LinOpt
