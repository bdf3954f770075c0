import LinOpt.Text.Printable
/-!
# Words in quotes

A word is quoted with single quotes, or with double ones where it holds a single quote and no double one.
The quote, the backslash, line ends and tabs have two-character escapes; every other character that cannot
be printed is written by its code point, with two, four or eight hexadecimal digits as it needs.
-/

namespace LinOpt

namespace Quoted

/-- The last `width` hexadecimal digits of a number, small letters. -/
def hexDigits : Nat → Nat → List Char
  | 0, _ => []
  | width + 1, n => hexDigits width (n / 16) ++ [Nat.digitChar (n % 16)]

/-- A character by its code point. -/
def codeEscape (c : Char) : List Char :=
  let n := c.toNat
  if n < 0x100 then '\\' :: 'x' :: hexDigits 2 n
  else if n < 0x10000 then '\\' :: 'u' :: hexDigits 4 n
  else '\\' :: 'U' :: hexDigits 8 n

/-- A character as it stands between the quotes `mark`. -/
def escape (mark : Char) (c : Char) : List Char :=
  if c = '\\' then ['\\', '\\']
  else if c = mark then ['\\', c]
  else if c = '\n' then ['\\', 'n']
  else if c = '\r' then ['\\', 'r']
  else if c = '\t' then ['\\', 't']
  else if isPrintable c then [c]
  else codeEscape c

/-- The quote that a word gets. -/
def mark (word : String) : Char := if word.contains '\x27' && !word.contains '"' then '"' else '\x27'

end Quoted

/-- The word in quotes. -/
def quoted (word : String) : String :=
  let mark := Quoted.mark word
  String.ofList (mark :: word.toList.flatMap (Quoted.escape mark) ++ [mark])

end LinOpt
