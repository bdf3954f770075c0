import LinOpt.Text.Blank
import LinOpt.Text.Digit
/-!
# Reading numerals

Numbers written as text. A field of a document and a plain argument have rules of their own.

* In a field, `float?` reads a decimal with an optional sign, fraction and exponent, or a word for infinity
  or for no number, and `whole?` an integer that may have leading zeros and a fraction of zeros. Single
  underscores may stand between any two characters; a decimal with underscores in it must have no blanks
  around it.
* As an argument, `number?` reads a decimal and `int?` an integer, both in the digits of any script. Single
  underscores may stand between digits.

Blanks around a numeral are ignored.
-/

namespace LinOpt

namespace Numeral

/-- The value of a list of ASCII digits. -/
def digitsValue (digits : List Char) : Nat :=
  digits.foldl (fun n c => 10 * n + (c.toNat - '0'.toNat)) 0

/-- Splits off a sign; the first part is true for a minus. -/
def splitSign : List Char → Bool × List Char
  | '-' :: rest => (true, rest)
  | '+' :: rest => (false, rest)
  | rest => (false, rest)

/-- Does every underscore stand between two other characters? The flag says that the text so far ends in
an underscore, or is empty. -/
def marksApart : Bool → List Char → Bool
  | atMark, [] => !atMark
  | atMark, c :: rest => if c == '_' then !atMark && marksApart true rest else marksApart false rest

/-- Takes the underscores out of a numeral, unless one stands at an end or beside another. -/
def dropUnderscores (text : List Char) : Option (List Char) :=
  if marksApart true text then some (text.filter (· != '_')) else none

/-! ## Decimals -/

/-- The exponent behind an `e`, if the text is one, with a magnitude of at most `bound`. -/
def exponent? (bound : Nat) (text : List Char) : Option Int :=
  let (negative, digits) := splitSign text
  if digits.isEmpty || !digits.all Char.isDigit then none
  else
    let magnitude : Int := min bound (digitsValue digits)
    some (if negative then -magnitude else magnitude)

/-- `digits * 10 ^ exponent`, correctly rounded. -/
def scale (digits : Nat) : Int → Float
  | .ofNat k => Float.ofScientific digits false k
  | .negSucc k => Float.ofScientific digits true (k + 1)

/-- The value of an unsigned decimal. -/
def magnitude? (text : List Char) : Option Float :=
  let whole := text.takeWhile Char.isDigit
  let afterWhole := text.dropWhile Char.isDigit
  let (fraction, afterFraction) := match afterWhole with
    | '.' :: rest => (rest.takeWhile Char.isDigit, rest.dropWhile Char.isDigit)
    | rest => ([], rest)
  if whole.isEmpty && fraction.isEmpty then none
  else
    let digits := digitsValue (whole ++ fraction)
    let shift : Int := -(fraction.length : Int)
    match afterFraction with
    | [] => some (scale digits shift)
    | c :: rest =>
      -- with an exponent beyond the digits and the range of binary64 the value is zero or infinite
      let bound := 1000 + whole.length + fraction.length
      if c == 'e' || c == 'E' then (exponent? bound rest).map fun e => scale digits (e + shift) else none

/-- The value of a decimal or of a word for a value that is not finite. -/
def decimal? (text : List Char) : Option Float :=
  let (negative, rest) := splitSign text
  let magnitude := match String.ofList (rest.map Char.toLower) with
    | "inf" | "infinity" => some (1.0 / 0.0)
    | "nan" => some (0.0 / 0.0)
    | _ => magnitude? rest
  magnitude.map fun m => if negative then -m else m

/-- The number a text stands for. -/
def float? (text : String) : Option Float :=
  match decimal? (trimBlanks text) with
  | some x => some x
  | none => (dropUnderscores text.toList).bind decimal?

/-- Does every underscore stand between two digits? The character before the text is given. -/
def marksBetweenDigits : Char → List Char → Bool
  | previous, [] => previous != '_'
  | previous, c :: rest =>
    (if c == '_' then previous.isDigit else previous != '_' || c.isDigit) && marksBetweenDigits c rest

/-- A digit of any script as the ASCII digit of its value; any other character as it is. -/
def asciiDigit (c : Char) : Char :=
  match digitValue? c with
  | some value => Nat.digitChar value
  | none => c

/-- The number a text stands for, in the decimal digits of any script. -/
def number? (text : String) : Option Float :=
  let plain := (trimBlanks text).map asciiDigit
  if marksBetweenDigits ' ' plain then decimal? (plain.filter (· != '_')) else none

/-! ## Integers -/

/-- The most digits an integer may have. -/
def digitLimit : Nat := 4300

/-- Why a text is not taken for an integer. -/
inductive Refusal where
  /-- It is not one. -/
  | unreadable
  /-- It has more digits than are read. -/
  | tooLong
  deriving Repr, DecidableEq

/-- The text behind a zero, `last` being the character before it: further zeros and underscores are
dropped, and one digit is kept. What is left begins with a digit or, since the zeros may stand in front of a
signed number, with a minus. -/
def dropZerosAfter (last : Char) : List Char → Option (List Char)
  | [] => some [last]
  | c :: rest =>
    if c == '0' || c == '_' then dropZerosAfter c rest
    else if c == '.' then some (last :: c :: rest)
    else if c.isDigit || c == '-' then some (c :: rest)
    else none

/-- The text without leading zeros, if it begins with a digit. -/
def dropLeadingZeros : List Char → Option (List Char)
  | [] => none
  | c :: rest =>
    if c == '0' then dropZerosAfter c rest
    else if c.isDigit then some (c :: rest)
    else none

/-- The text without a fraction of zeros. -/
def dropZeroFraction (text : List Char) : List Char :=
  match text.dropWhile (· != '.') with
  | [] => text
  | _ :: fraction =>
    if !fraction.isEmpty && fraction.all (· == '0') then text.takeWhile (· != '.') else text

/-- The integer that digits without leading zeros stand for. A minus in front counts towards the limit on
digits. -/
def plainInt? (text : List Char) : Except Refusal Int :=
  let negative := text.head? == some '-'
  let digits := if negative then text.tail else text
  if digits.head? == some '0' && 1 < digits.length then .error .unreadable
  else if digitLimit < (digits.takeWhile Char.isDigit).length + (if negative then 1 else 0) then
    .error .tooLong
  else if digits.isEmpty || !digits.all Char.isDigit then .error .unreadable
  else
    let magnitude : Int := digitsValue digits
    .ok (if negative then -magnitude else magnitude)

/-- The integer a text stands for; leading zeros and a fraction of zeros are allowed. A minus may stand in
front of the leading zeros or behind them, not in both places. -/
def whole? (text : String) : Except Refusal Int :=
  let (negative, rest) := splitSign (trimBlanks text)
  match dropLeadingZeros rest with
  | none => .error .unreadable
  | some kept =>
    let plain := dropZeroFraction kept
    let digits := (dropUnderscores plain).getD plain
    plainInt? (if negative then '-' :: digits else digits)

/-- The integer a text stands for, in the decimal digits of any script. -/
def int? (text : String) : Option Int := do
  let (negative, rest) := splitSign (trimBlanks text)
  let digits ← dropUnderscores rest
  let values ← digits.mapM digitValue?
  if digitLimit < values.length then none
  else
    let magnitude : Nat := values.foldl (10 * · + ·) 0
    return if negative then -(magnitude : Int) else magnitude

end Numeral

end LinOpt
