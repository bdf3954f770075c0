import LinOpt.Document.Basic
/-!
# Reading a document from JSON text

The text is cut into tokens by an automaton that looks at each character once, and the tokens are read by
descent. A numeral of digits only is an integer, whatever its size; a numeral with a point or an exponent is
a decimal. The words for values that are not finite are read as decimals.
-/

namespace LinOpt

namespace Json

/-! ## Tokens -/

/-- A token of a JSON text. -/
inductive Token where
  | openList
  | closeList
  | openObject
  | closeObject
  | comma
  | colon
  /-- A text between quotes, with its escapes resolved. -/
  | text (value : String)
  /-- A numeral or a word. -/
  | word (value : List Char)
  deriving Repr, DecidableEq

/-- Where the automaton stands. Code points and characters read so far are in reverse order. -/
inductive Lexing where
  /-- Between tokens. -/
  | between
  /-- In a numeral or a word. -/
  | word (read : List Char)
  /-- In a text. -/
  | text (read : List Nat)
  /-- Behind a backslash in a text. -/
  | escape (read : List Nat)
  /-- In the four digits of a code unit, of which `left` are to come. -/
  | unit (read : List Nat) (left value : Nat)
  deriving Repr, DecidableEq

/-- The token that a single character is. -/
def punctuation? (c : Char) : Option Token :=
  if c = '[' then some .openList
  else if c = ']' then some .closeList
  else if c = '\x7b' then some .openObject
  else if c = '\x7d' then some .closeObject
  else if c = ',' then some .comma
  else if c = ':' then some .colon
  else none

/-- May the character stand between tokens? -/
def isSpace (c : Char) : Bool := c = ' ' || c = '\t' || c = '\n' || c = '\r'

/-- The code point behind a one-letter escape. -/
def letterEscape? (c : Char) : Option Nat :=
  if c = '"' || c = '\\' || c = '/' then some c.toNat
  else if c = 'b' then some 8
  else if c = 'f' then some 12
  else if c = 'n' then some 10
  else if c = 'r' then some 13
  else if c = 't' then some 9
  else none

/-- The value of a hexadecimal digit. -/
def hexValue? (c : Char) : Option Nat :=
  if c.isDigit then some (c.toNat - '0'.toNat)
  else if 'a' ≤ c ∧ c ≤ 'f' then some (c.toNat - 'a'.toNat + 10)
  else if 'A' ≤ c ∧ c ≤ 'F' then some (c.toNat - 'A'.toNat + 10)
  else none

/-- Adds a code unit; the second half of a surrogate pair completes the first. -/
def pushUnit (unit : Nat) : List Nat → List Nat
  | [] => [unit]
  | high :: read =>
    if 0xd800 ≤ high ∧ high < 0xdc00 ∧ 0xdc00 ≤ unit ∧ unit < 0xe000 then
      (0x10000 + (high - 0xd800) * 0x400 + (unit - 0xdc00)) :: read
    else unit :: high :: read

/-- The character of a code point; half a surrogate pair is no character and is replaced. -/
def charOf (point : Nat) : Char := if point.isValidChar then Char.ofNat point else '\ufffd'

/-- The text of code points in reverse order. -/
def textOf (read : List Nat) : String := String.ofList (read.reverse.map charOf)

/-- The tokens of a text, from a state of the automaton. -/
def tokens : Lexing → List Char → Option (List Token)
  | .between, [] => some []
  | .word read, [] => some [.word read.reverse]
  | _, [] => none
  | .between, c :: rest =>
    if isSpace c then tokens .between rest
    else if c = '"' then tokens (.text []) rest
    else match punctuation? c with
      | some token => (tokens .between rest).map (token :: ·)
      | none => tokens (.word [c]) rest
  | .word read, c :: rest =>
    if isSpace c then (tokens .between rest).map (.word read.reverse :: ·)
    else match punctuation? c with
      | some token => (tokens .between rest).map fun more => .word read.reverse :: token :: more
      | none => tokens (.word (c :: read)) rest
  | .text read, c :: rest =>
    if c = '"' then (tokens .between rest).map (.text (textOf read) :: ·)
    else if c = '\\' then tokens (.escape read) rest
    else tokens (.text (c.toNat :: read)) rest
  | .escape read, c :: rest =>
    if c = 'u' then tokens (.unit read 4 0) rest
    else match letterEscape? c with
      | some point => tokens (.text (point :: read)) rest
      | none => none
  | .unit read left value, c :: rest =>
    match hexValue? c with
    | none => none
    | some digit =>
      if left ≤ 1 then tokens (.text (pushUnit (value * 16 + digit) read)) rest
      else tokens (.unit read (left - 1) (value * 16 + digit)) rest

/-! ## Values -/

/-- The number that a numeral stands for. -/
def numeral? (word : List Char) : Option Document :=
  let (negative, digits) := match word with
    | '-' :: digits => (true, digits)
    | digits => (false, digits)
  if digits.isEmpty then none
  else if digits.all Char.isDigit then
    let magnitude : Int := Numeral.digitsValue digits
    some (.integer (if negative then -magnitude else magnitude))
  else (Numeral.decimal? word).map .decimal

/-- The value of a numeral or a word. -/
def scalar? (word : List Char) : Option Document :=
  match String.ofList word with
  | "null" => some .null
  | "true" => some (.bool true)
  | "false" => some (.bool false)
  | _ => numeral? word

/-- The fields with one put in front, unless a later field has its name. -/
def addField (name : String) (value : Document) (fields : List (String × Document)) :
    List (String × Document) :=
  if fields.any (·.1 == name) then fields else (name, value) :: fields

mutual

/-- Reads a value, with at most `depth` steps down; what is left of the tokens comes with it. -/
def value? : Nat → List Token → Option (Document × List Token)
  | 0, _ => none
  | _ + 1, [] => none
  | depth + 1, token :: rest =>
    match token with
    | .text s => some (.text s, rest)
    | .word w => (scalar? w).map (·, rest)
    | .openList => match rest with
      | .closeList :: rest => some (.list [], rest)
      | rest => (items? depth rest).map fun (items, rest) => (.list items, rest)
    | .openObject => match rest with
      | .closeObject :: rest => some (.object [], rest)
      | rest => (fields? depth rest).map fun (fields, rest) => (.object fields, rest)
    | _ => none

/-- Reads the entries of a list up to its end. -/
def items? : Nat → List Token → Option (List Document × List Token)
  | 0, _ => none
  | depth + 1, input => do
    let (first, rest) ← value? depth input
    match rest with
    | .comma :: rest => (items? depth rest).map fun (items, rest) => (first :: items, rest)
    | .closeList :: rest => some ([first], rest)
    | _ => none

/-- Reads the fields of an object up to its end. -/
def fields? : Nat → List Token → Option (List (String × Document) × List Token)
  | 0, _ => none
  | depth + 1, input =>
    match input with
    | .text name :: .colon :: rest => do
      let (value, rest) ← value? depth rest
      match rest with
      | .comma :: rest => (fields? depth rest).map fun (fields, rest) => (addField name value fields, rest)
      | .closeObject :: rest => some ([(name, value)], rest)
      | _ => none
    | _ => none

end

end Json

/-- The document that a JSON text stands for. -/
def Document.ofJson? (text : String) : Option Document := do
  let tokens ← Json.tokens .between text.toList
  -- each step down takes a token, or leads from a list to its first entry
  match ← Json.value? (2 * tokens.length + 1) tokens with
  | (document, []) => some document
  | _ => none

end LinOpt
