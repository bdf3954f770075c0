/-!
# Nested lists of numbers and their shape

Nested lists are an array when all lists of one level have one length and all numbers one depth. The shape
is found by walking the lists depth first: the way down to the first number, or to the first empty list,
fixes the lengths, and everything after it is compared with them. A disagreement makes the lists ragged and
leaves the levels above it as the shape that is certain.
-/

namespace LinOpt

/-- Numbers in nested lists. -/
inductive Nested (α : Type) where
  | leaf (value : α)
  | node (children : List (Nested α))
  deriving Repr

/-- What is known of the shape of nested lists while they are walked. -/
structure Survey where
  /-- The lengths of the levels, from the outermost. -/
  lengths : List Nat := []
  /-- The number of levels that an array can have here. -/
  rank : Nat
  /-- Has the walk met a number or an empty list, so that the lengths are fixed? -/
  fixed : Bool := false
  /-- Has a disagreement been met? -/
  ragged : Bool := false
  deriving Repr, DecidableEq

namespace Survey

/-- The most levels an array may have. -/
def rankLimit : Nat := 64

/-- A number, or a list that has to count as one, at a level. -/
def leaf (level : Nat) (survey : Survey) : Survey :=
  { survey with
    rank := level
    fixed := true
    ragged := survey.ragged || (survey.fixed && survey.rank != level) }

/-- The shape that is certain. -/
def shape (survey : Survey) : List Nat := survey.lengths.take survey.rank

end Survey

namespace Nested

variable {α : Type}

mutual

/-- Walks nested lists that stand at a level. -/
def survey (level : Nat) : Nested α → Survey → Survey
  | .leaf _, known => known.leaf level
  | .node children, known =>
    if level = known.rank then { known.leaf level with ragged := true }
    else if known.fixed && known.lengths[level]? != some children.length then
      { known with rank := level, ragged := true }
    else
      let known := if known.fixed then known else { known with lengths := known.lengths ++ [children.length] }
      if children.isEmpty then { known with rank := level + 1, fixed := true }
      else surveyAll (level + 1) children known

/-- Walks the entries of a list, which stand at a level. -/
def surveyAll (level : Nat) : List (Nested α) → Survey → Survey
  | [], known => known
  | child :: children, known => surveyAll level children (survey level child known)

end

mutual

/-- The numbers, from left to right. -/
def leaves : Nested α → List α
  | .leaf value => [value]
  | .node children => leavesAll children

/-- The numbers of the entries of a list, from left to right. -/
def leavesAll : List (Nested α) → List α
  | [] => []
  | child :: children => leaves child ++ leavesAll children

end

end Nested

end LinOpt
