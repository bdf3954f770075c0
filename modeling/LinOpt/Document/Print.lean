import LinOpt.Document.Basic
import LinOpt.Model
/-!
# Printing a document as JSON text

Lists and objects are spread over lines, two blanks to a level; empty ones stay on one line. Texts are
printed in ASCII, with surrogate pairs for code points above the basic plane.
-/

namespace LinOpt

namespace Json

/-- A code unit as an escape. -/
def unitEscape (unit : Nat) : List Char := '\\' :: 'u' :: Quoted.hexDigits 4 unit

/-- A character between quotes. -/
def escape (c : Char) : List Char :=
  let n := c.toNat
  if c = '"' then ['\\', '"']
  else if c = '\\' then ['\\', '\\']
  else if c = '\n' then ['\\', 'n']
  else if c = '\r' then ['\\', 'r']
  else if c = '\t' then ['\\', 't']
  else if n = 8 then ['\\', 'b']
  else if n = 12 then ['\\', 'f']
  else if 0x20 ≤ n ∧ n < 0x7f then [c]
  else if n < 0x10000 then unitEscape n
  else unitEscape (0xd800 + (n - 0x10000) / 0x400) ++ unitEscape (0xdc00 + (n - 0x10000) % 0x400)

/-- A text in quotes. -/
def textLiteral (text : String) : String :=
  String.ofList ('"' :: text.toList.flatMap escape ++ ['"'])

/-- A number in its shortest form, or the word for a value that is not finite. -/
def numberLiteral (x : Float) : String :=
  if x.isNaN then "NaN"
  else if x.isInf then if x < 0 then "-Infinity" else "Infinity"
  else Decimal.shortest x

/-- Lines between brackets at a level, or the bare brackets where there are none. -/
def spread (level : Nat) (opening closing : String) (lines : List String) : String :=
  let margin (depth : Nat) : String := String.ofList (List.replicate (2 * depth) ' ')
  if lines.isEmpty then opening ++ closing
  else
    let body := ",\n".intercalate (lines.map (margin (level + 1) ++ ·))
    opening ++ "\n" ++ body ++ "\n" ++ margin level ++ closing

mutual

/-- A document that stands at a level. -/
def print (level : Nat) : Document → String
  | .null => "null"
  | .bool b => if b then "true" else "false"
  | .integer n => toString n
  | .decimal x => numberLiteral x
  | .text s => textLiteral s
  | .list items => spread level "[" "]" (printItems (level + 1) items)
  | .object fields => spread level "\x7b" "\x7d" (printFields (level + 1) fields)

/-- The entries of a list that stand at a level. -/
def printItems (level : Nat) : List Document → List String
  | [] => []
  | item :: items => print level item :: printItems level items

/-- The fields of an object that stand at a level. -/
def printFields (level : Nat) : List (String × Document) → List String
  | [] => []
  | (name, value) :: fields => (textLiteral name ++ ": " ++ print level value) :: printFields level fields

end

end Json

/-- The JSON text of a document. -/
def Document.toJson (document : Document) : String := Json.print 0 document

/-- A model as a document. -/
def Model.toDocument (model : Model Float) : Document :=
  let numbers (xs : List Float) : Document := .list (xs.map .decimal)
  let words (xs : List String) : Document := .list (xs.map .text)
  .object
    [("name", .text model.name),
     ("sense", .text model.sense.name),
     ("A", .list (model.rows.map numbers)),
     ("b", numbers model.rhs),
     ("c", numbers model.costs),
     ("signs", words (model.signs.map Relation.name)),
     ("variable_kinds", words (model.kinds.map Kind.name)),
     ("variable_names", (model.givenNames.map words).getD .null)]

end LinOpt
