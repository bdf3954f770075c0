import LinOpt.Document.Basic
import LinOpt.Number.Binary
import LinOpt.Number.Numeral
/-!
# Checking a document

Reading a typed value from a document collects every complaint, in the order of the fields and of the
list entries, instead of stopping at the first: `Checked` is an applicative functor whose failures add
up. Numbers, truth values and integers are also read from each other and from text where nothing is lost.
-/

namespace LinOpt

/-- What can be wrong with a part of a document. -/
inductive Complaint where
  | missing
  /-- Not an object, where one of this class is described. -/
  | notAnObject (className : String)
  | notAList
  | notAString
  | notANumber
  | unreadableNumber
  | notAnInteger
  | unreadableInteger
  | fractionalInteger
  /-- An integer beyond what is read. -/
  | hugeInteger
  /-- Not a number, or infinite, where an integer is needed. -/
  | notFinite
  | notABoolean
  | unreadableBoolean
  /-- Below the least value allowed. -/
  | tooSmall (least : Int)
  /-- None of the words allowed. -/
  | unknownWord (allowed : List String)
  /-- None of the names of an enumeration. -/
  | unknownName (allowed : List String)
  /-- The parts do not fit together. -/
  | inconsistent (text : String)
  deriving Repr, DecidableEq

namespace Complaint

/-- Words in quotes, with `or` before the last. -/
def wordList (words : List String) : String :=
  let marked := words.map fun word => s!"'{word}'"
  match marked.reverse with
  | [] => ""
  | [only] => only
  | last :: before => ", ".intercalate before.reverse ++ " or " ++ last

/-- The short name of a complaint. -/
def code : Complaint → String
  | .missing => "missing"
  | .notAnObject _ => "model_type"
  | .notAList => "list_type"
  | .notAString => "string_type"
  | .notANumber => "float_type"
  | .unreadableNumber => "float_parsing"
  | .notAnInteger => "int_type"
  | .unreadableInteger => "int_parsing"
  | .fractionalInteger => "int_from_float"
  | .hugeInteger => "int_parsing_size"
  | .notFinite => "finite_number"
  | .notABoolean => "bool_type"
  | .unreadableBoolean => "bool_parsing"
  | .tooSmall _ => "greater_than_equal"
  | .unknownWord _ => "literal_error"
  | .unknownName _ => "enum"
  | .inconsistent _ => "value_error"

/-- The wording of a complaint. -/
def message : Complaint → String
  | .missing => "Field required"
  | .notAnObject className => s!"Input should be a valid dictionary or instance of {className}"
  | .notAList => "Input should be a valid list"
  | .notAString => "Input should be a valid string"
  | .notANumber => "Input should be a valid number"
  | .unreadableNumber => "Input should be a valid number, unable to parse string as a number"
  | .notAnInteger => "Input should be a valid integer"
  | .unreadableInteger => "Input should be a valid integer, unable to parse string as an integer"
  | .fractionalInteger => "Input should be a valid integer, got a number with a fractional part"
  | .hugeInteger => "Unable to parse input string as an integer, exceeded maximum size"
  | .notFinite => "Input should be a finite number"
  | .notABoolean => "Input should be a valid boolean"
  | .unreadableBoolean => "Input should be a valid boolean, unable to interpret input"
  | .tooSmall least => s!"Input should be greater than or equal to {least}"
  | .unknownWord allowed => s!"Input should be {wordList allowed}"
  | .unknownName allowed => s!"Input should be {wordList allowed}"
  | .inconsistent text => s!"Value error, {text}"

end Complaint

/-- A complaint and the path to the part it is about. -/
structure Problem where
  path : List String
  complaint : Complaint
  deriving Repr, DecidableEq

namespace Problem

/-- The path with points between its steps. -/
def location (problem : Problem) : String := ".".intercalate problem.path

end Problem

/-- A value, or everything that is wrong with it. -/
inductive Checked (β : Type) where
  | ok (value : β)
  | bad (problems : List Problem)
  deriving Repr

namespace Checked

variable {β γ : Type}

/-- Applies a checked function; the complaints about both sides add up. -/
def apply (f : Checked (β → γ)) (x : Checked β) : Checked γ :=
  match f, x with
  | .ok f, .ok x => .ok (f x)
  | .ok _, .bad ps => .bad ps
  | .bad ps, .ok _ => .bad ps
  | .bad ps, .bad qs => .bad (ps ++ qs)

instance : Applicative Checked where
  pure := .ok
  seq f x := apply f (x ())

/-- A single complaint. -/
def complain (path : List String) (complaint : Complaint) : Checked β := .bad [⟨path, complaint⟩]

/-- A further check on a value that is fine so far. -/
def refine (x : Checked β) (check : β → Checked γ) : Checked γ :=
  match x with
  | .ok value => check value
  | .bad ps => .bad ps

/-- The value, or the problems as a failure. -/
def toExcept : Checked β → Except (List Problem) β
  | .ok value => .ok value
  | .bad ps => .error ps

end Checked

/-- Reads a value from the part of a document at a path. -/
abbrev Reader (β : Type) := List String → Document → Checked β

namespace Reader

variable {β : Type}

/-- A number, also from a truth value or a text. -/
def float : Reader Float := fun path document =>
  match document with
  | .integer n => match Document.floatOfInt? n with
    | some x => .ok x
    | none => .complain path .notANumber
  | .decimal x => .ok x
  | .bool b => .ok (if b then 1.0 else 0.0)
  | .text s => match Numeral.float? s with
    | some x => .ok x
    | none => .complain path .unreadableNumber
  | _ => .complain path .notANumber

/-- Every integer below this magnitude has a word of 64 bits. -/
def wordBound : Int := 9223372036854775808

/-- The integer that a decimal is, if it is one of at most 63 bits. -/
def wholeDecimal (x : Float) : Except Complaint Int :=
  match (Binary.ofFloat x).floor with
  | .error _ => .error .notFinite
  | .ok n =>
    if Float.ofInt n != x then .error .fractionalInteger
    else if -wordBound < n ∧ n < wordBound then .ok n
    else .error .hugeInteger

/-- An integer, also from a whole number, a truth value or a text. -/
def int : Reader Int := fun path document =>
  match document with
  | .integer n => .ok n
  | .decimal x => match wholeDecimal x with
    | .ok n => .ok n
    | .error complaint => .complain path complaint
  | .bool b => .ok (if b then 1 else 0)
  | .text s => match Numeral.whole? s with
    | .ok n => .ok n
    | .error .unreadable => .complain path .unreadableInteger
    | .error .tooLong => .complain path .hugeInteger
  | _ => .complain path .notAnInteger

/-- An integer that is not below `least`, as a natural number. -/
def natFrom (least : Nat) : Reader Nat := fun path document =>
  (int path document).refine fun n =>
    if n < least then .complain path (.tooSmall least) else .ok n.toNat

/-- A truth value from an integer. -/
def boolOfInt : Reader Bool := fun path document =>
  match document with
  | .integer 0 => .ok false
  | .integer 1 => .ok true
  | .integer n =>
    if -wordBound ≤ n ∧ n < wordBound then .complain path .unreadableBoolean else .complain path .notABoolean
  | _ => .complain path .notABoolean

/-- A truth value, also from zero, one or one of the usual words. -/
def bool : Reader Bool := fun path document =>
  match document with
  | .bool b => .ok b
  | .decimal x => match wholeDecimal x with
    | .ok n => boolOfInt path (.integer n)
    | .error _ => .complain path .notABoolean
  | .text s =>
    let word := s.toLower
    if ["0", "off", "f", "false", "n", "no"].contains word then .ok false
    else if ["1", "on", "t", "true", "y", "yes"].contains word then .ok true
    else .complain path .unreadableBoolean
  | document => boolOfInt path document

/-- A text. -/
def string : Reader String := fun path document =>
  match document with
  | .text s => .ok s
  | _ => .complain path .notAString

/-- One of a few words, each standing for a value. -/
def word (choices : List (String × β)) (complaint : List String → Complaint) : Reader β :=
  fun path document =>
    let refuse := Checked.complain path (complaint (choices.map (·.1)))
    match document with
    | .text s => match choices.lookup s with
      | some value => .ok value
      | none => refuse
    | _ => refuse

/-- A value that may be null. -/
def nullable (reader : Reader β) : Reader (Option β) := fun path document =>
  match document with
  | .null => .ok none
  | document => some <$> reader path document

/-- The entries of a list from place `i` on. -/
def items (reader : Reader β) (path : List String) : Nat → List Document → Checked (List β)
  | _, [] => .ok []
  | i, item :: rest =>
    List.cons <$> reader (path ++ [toString i]) item <*> items reader path (i + 1) rest

/-- A list. -/
def list (reader : Reader β) : Reader (List β) := fun path document =>
  match document with
  | .list entries => items reader path 0 entries
  | _ => .complain path .notAList

/-- A field that must be there. -/
def required (document : Document) (name : String) (reader : Reader β) : Checked β :=
  match document.field? name with
  | some value => reader [name] value
  | none => .complain [name] .missing

/-- A field with a value to fall back on. -/
def optional (document : Document) (name : String) (fallback : β) (reader : Reader β) : Checked β :=
  match document.field? name with
  | some value => reader [name] value
  | none => .ok fallback

/-- Reads the fields of an object of the named class. -/
def record (className : String) (fields : Document → Checked β) (document : Document) : Checked β :=
  match document with
  | .object _ => fields document
  | _ => .complain [] (.notAnObject className)

end Reader

end LinOpt
