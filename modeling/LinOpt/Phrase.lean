import LinOpt.Number.Decimal
/-!
# Phrases: text with numbers in it

A line of a trace or the text of a failure mixes words with numbers of the solver. A `Phrase` keeps the
numbers as values, so that the solvers that produce it stay independent of how a number is printed.
-/

namespace LinOpt

/-- One stretch of a phrase. -/
inductive Span (α : Type) where
  /-- Words. -/
  | text (words : String)
  /-- A number with three decimals. -/
  | fixed (value : α)
  /-- A number to six significant digits. -/
  | general (value : α)
  /-- A number as a digit, three decimals and an exponent. -/
  | scientific (value : α)
  deriving Repr, DecidableEq

/-- Text with numbers in it. -/
abbrev Phrase (α : Type) := List (Span α)

namespace Phrase

variable {α : Type}

/-- A phrase without numbers. -/
def words (text : String) : Phrase α := [.text text]

/-- The printed form of one stretch. -/
def spanText : Span Float → String
  | .text words => words
  | .fixed value => Decimal.fixed 3 value
  | .general value => Decimal.general 6 value
  | .scientific value => Decimal.scientific 3 value

/-- The printed form of a phrase. -/
def render (phrase : Phrase Float) : String := String.join (phrase.map spanText)

end Phrase

end LinOpt
