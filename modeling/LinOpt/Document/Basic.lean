import LinOpt.Fault
import LinOpt.Number.Numeral
/-!
# Documents

What a caller hands in before anything is checked: nested lists and objects with truth values, numbers
and texts at the leaves.

Some values are taken as they come, without a check of the whole document: `truth` and `number` say what a
document counts as then, and `display` how a message shows it.
-/

namespace LinOpt

/-- A value of a document. -/
inductive Document where
  | null
  | bool (value : Bool)
  /-- A number written without a fraction and without an exponent. -/
  | integer (value : Int)
  /-- A number written with a fraction or an exponent. -/
  | decimal (value : Float)
  | text (value : String)
  | list (items : List Document)
  /-- Fields by name; a name occurs once. -/
  | object (fields : List (String × Document))

namespace Document

/-- The field of that name, if the document is an object that has it. -/
def field? (document : Document) (name : String) : Option Document :=
  match document with
  | .object fields => fields.lookup name
  | _ => none

/-- A document counts as true unless it is null, false, zero or empty. -/
def truth : Document → Bool
  | .null => false
  | .bool b => b
  | .integer n => n != 0
  | .decimal x => x != 0.0
  | .text s => !s.isEmpty
  | .list items => !items.isEmpty
  | .object fields => !fields.isEmpty

/-- The nearest number to an integer, unless the integer is beyond the range of numbers. -/
def floatOfInt? (n : Int) : Option Float :=
  let x := Float.ofInt n
  if x.isInf then none else some x

/-- The number that a document stands for, if it is a number, a truth value or a text. -/
def number? : Document → Option (Except (Fault Float) Float)
  | .integer n => some (match floatOfInt? n with
    | some x => .ok x
    | none => .error .numberOverflow)
  | .decimal x => some (.ok x)
  | .bool b => some (.ok (if b then 1.0 else 0.0))
  | .text s => some (match Numeral.number? s with
    | some x => .ok x
    | none => .error (.notANumeral s))
  | _ => none

mutual

/-- A document as a message shows it: texts in quotes, numbers in their shortest form. -/
def display : Document → String
  | .null => "None"
  | .bool b => if b then "True" else "False"
  | .integer n => toString n
  | .decimal x => Decimal.shortest x
  | .text s => quoted s
  | .list items => "[" ++ ", ".intercalate (displayItems items) ++ "]"
  | .object fields => "\x7b" ++ ", ".intercalate (displayFields fields) ++ "\x7d"

/-- The entries of a list, each as it is shown. -/
def displayItems : List Document → List String
  | [] => []
  | item :: items => display item :: displayItems items

/-- The fields of an object, each as it is shown. -/
def displayFields : List (String × Document) → List String
  | [] => []
  | (name, value) :: fields => (quoted name ++ ": " ++ display value) :: displayFields fields

end

end Document

end LinOpt
