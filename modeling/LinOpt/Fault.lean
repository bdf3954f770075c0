import LinOpt.Phrase
import LinOpt.Status
import LinOpt.Text.Quoted
/-!
# What can go wrong

A `Fault` names the cause of a failure with the data needed to describe it. The first five are the ways
a pivoting solver stops without an optimum: they know how many pivots had been made, and they decide the
status of the result. All wording is in `Fault.phrase`.
-/

namespace LinOpt

/-- How the parts of a model can disagree in size. -/
inductive ShapeFault where
  /-- As many rows as right-hand sides are needed. -/
  | rowCount (rows entries : Nat)
  /-- A row needs one entry for each cost. -/
  | rowLength (index given expected : Nat)
  /-- Each right-hand side needs a sign. -/
  | signCount (expected given : Nat)
  /-- Each cost needs a variable kind. -/
  | kindCount (expected given : Nat)
  /-- Names, when given, are one for each cost. -/
  | nameCount (expected given : Nat)
  deriving Repr, DecidableEq

namespace ShapeFault

/-- The wording of a disagreement in size. -/
def message : ShapeFault → String
  | .rowCount rows entries => s!"A has {rows} rows but b has {entries} entries."
  | .rowLength index given expected => s!"Row {index} of A has {given} entries, expected {expected}."
  | .signCount expected given => s!"Expected {expected} constraint signs, got {given}."
  | .kindCount expected given => s!"Expected {expected} variable kinds, got {given}."
  | .nameCount expected given => s!"Expected {expected} variable names, got {given}."

end ShapeFault

/-- The causes of a failure. -/
inductive Fault (α : Type) where
  /-- The best pivot candidate of a column was too small. -/
  | singular (pivot : α) (column : Nat)
  /-- The budget of pivots ran out. -/
  | iterationLimit (limit : Int) (pivots : Nat)
  /-- The entering column limits no basic variable. -/
  | unbounded (column : String) (pivots : Nat)
  /-- The artificial variables keep a positive total. -/
  | artificialsRemain (gap : α) (pivots : Nat)
  /-- A row of negative right-hand side has no negative entry. -/
  | noNegativeEntry (row : String) (pivots : Nat)
  /-- A position to read is outside its list. -/
  | indexOutOfRange
  /-- A position to write is outside its list. -/
  | assignmentOutOfRange
  /-- A position is too far out to be one in any list. -/
  | indexTooLarge
  /-- A position is outside an axis of an array. -/
  | outOfBounds (index : Int) (axis size : Nat)
  /-- A shape has too few axes. -/
  | missingAxis
  /-- A word is not in the table it is looked up in. -/
  | unknownKey (key : String)
  /-- No integer is near the number. -/
  | noInteger (cause : NonFinite)
  /-- The factors of an inner product differ in length. -/
  | notAligned (left right : Nat)
  /-- A new row differs in length from the costs. -/
  | rowLength (given expected : Nat)
  /-- A part of a tableau has a shape that does not fill its place. -/
  | broadcast (given expected : List Nat)
  /-- Two vectors to subtract differ in length. -/
  | operandMismatch (left right : Nat)
  /-- An array does not have the two axes of a matrix. -/
  | notMatrix (axes : Nat)
  /-- A new column differs in length from the rows. -/
  | columnLength (given expected : Nat)
  /-- A matrix to invert is not square. -/
  | notSquare (shape : List Nat)
  /-- A matrix and a vector do not fit. -/
  | vectorMismatch (shape : List Nat) (length : Nat)
  /-- Two matrices do not fit. -/
  | matrixMismatch (left right : List Nat)
  /-- The entries do not fill the stated shape. -/
  | reshape (size : Nat) (rows columns : Nat)
  /-- Nested lists differ in length below the given leading shape. -/
  | ragged (shape : List Nat)
  /-- Lists are nested deeper than an array may have axes. -/
  | tooDeep (limit : Nat)
  /-- The inner axes of a product differ. -/
  | innerMismatch (given expected : Nat)
  /-- The leading axes of two stacks of matrices do not fit. -/
  | stackMismatch (left right : List Nat)
  /-- An array has a negative length. -/
  | negativeSize
  /-- The parts of a model disagree in size. -/
  | shape (fault : ShapeFault)
  /-- A status needs a solution that is absent, or carries one it cannot have. -/
  | outcome (status : Status)
  /-- No status has this name, which is given as it is displayed. -/
  | unknownStatus (shown : String)
  /-- The run ended without a basis. -/
  | noTerminalBasis
  /-- The run to analyse is not optimal. -/
  | sensitivityNeedsOptimum
  /-- The run to extend is not optimal. -/
  | constraintNeedsOptimum
  /-- A free variable has two columns. -/
  | splitVariable (index : Int)
  /-- The variable is basic where a nonbasic one is needed. -/
  | basicVariable (index : Int)
  /-- The variable is nonbasic where a basic one is needed. -/
  | nonbasicVariable (index : Int)
  /-- There is no such model row. -/
  | constraintOutOfRange (constraint : Int)
  /-- A knapsack model minimises. -/
  | knapsackMinimises
  /-- A knapsack model has no row that caps the weight. -/
  | knapsackWithoutCapacity
  /-- A number of decimals is negative. -/
  | missingPrecision
  /-- A number rounded to tens, hundreds and so on is beyond the range of numbers. -/
  | roundedTooLarge
  /-- A whole array stands where one number is printed. -/
  | unformattable
  /-- An integer is beyond the range of numbers. -/
  | numberOverflow
  /-- A text that should be a number is none. -/
  | notANumeral (text : String)
  /-- A journal that keeps nothing is asked for what it keeps. -/
  | keepsNothing (request : String)
  /-- A failure described by whoever raised it. -/
  | external (text : String)
  deriving Repr

namespace Fault

variable {α : Type}

/-- A shape in brackets, with a comma behind a single length. -/
def shapeText : List Nat → String
  | [] => "()"
  | [n] => s!"({n},)"
  | sizes => "(" ++ ", ".intercalate (sizes.map toString) ++ ")"

/-- A shape in brackets without blanks, an axis that is not there as `newaxis`. -/
def axesText (axes : List (Option Nat)) : String :=
  "(" ++ ",".intercalate (axes.map fun
    | some n => toString n
    | none => "newaxis") ++ ")"

/-- A shape in brackets without blanks, with a comma behind a single length. -/
def sizesText : List Nat → String
  | [n] => s!"({n},)"
  | sizes => axesText (sizes.map some)

/-- A shape, and the shape it has beside another one of `rank` leading axes. -/
def stackText (rank : Nat) (sizes : List Nat) : String :=
  let leading := sizes.dropLast.dropLast
  let absent := List.replicate (rank - leading.length) none
  s!"{axesText (sizes.map some)}->{axesText (absent ++ leading.map some ++ [none, none])} "

/-- The wording of a failure. -/
def phrase : Fault α → Phrase α
  | .singular pivot column =>
    [.text "Singular matrix (pivot ", .scientific pivot, .text s!" in column {column})."]
  | .iterationLimit limit _ => .words s!"Iteration limit of {limit} exceeded."
  | .unbounded column _ => .words s!"Unbounded: no positive entry in entering column {column}."
  | .artificialsRemain gap _ =>
    [.text "Artificial variables cannot be driven below ", .general gap, .text "; problem is infeasible."]
  | .noNegativeEntry row _ => .words s!"Row {row} has no negative entry; problem is infeasible."
  | .indexOutOfRange => .words "list index out of range"
  | .assignmentOutOfRange => .words "list assignment index out of range"
  | .indexTooLarge => .words "cannot fit 'int' into an index-sized integer"
  | .outOfBounds index axis size =>
    .words s!"index {index} is out of bounds for axis {axis} with size {size}"
  | .missingAxis => .words "tuple index out of range"
  | .unknownKey key => .words (quoted key)
  | .noInteger .nan => .words "cannot convert float NaN to integer"
  | .noInteger .infinite => .words "cannot convert float infinity to integer"
  | .notAligned left right =>
    .words s!"shapes ({left},) and ({right},) not aligned: {left} (dim 0) != {right} (dim 0)"
  | .rowLength given expected => .words s!"New row has {given} coefficients, expected {expected}."
  | .broadcast given expected =>
    .words s!"could not broadcast input array from shape {sizesText given} into shape {sizesText expected}"
  | .operandMismatch left right =>
    .words s!"operands could not be broadcast together with shapes ({left},) ({right},) "
  | .notMatrix axes =>
    .words (if axes < 2 then s!"not enough values to unpack (expected 2, got {axes})"
      else "too many values to unpack (expected 2)")
  | .columnLength given expected => .words s!"Column has {given} entries, expected {expected}."
  | .notSquare sizes => .words s!"Only square matrices can be inverted, got shape {shapeText sizes}."
  | .vectorMismatch sizes length =>
    .words s!"Cannot multiply {shapeText sizes} matrix by vector of length {length}."
  | .matrixMismatch left right => .words s!"Cannot multiply {shapeText left} by {shapeText right}."
  | .reshape size rows columns =>
    .words s!"cannot reshape array of size {size} into shape ({rows},{columns})"
  | .ragged sizes =>
    .words (s!"setting an array element with a sequence. The requested array has an inhomogeneous shape " ++
      s!"after {sizes.length} dimensions. The detected shape was {shapeText sizes} + inhomogeneous part.")
  | .tooDeep limit =>
    .words ("setting an array element with a sequence. The requested array would exceed the maximum " ++
      s!"number of dimension of {limit}.")
  | .innerMismatch given expected =>
    .words ("matmul: Input operand 1 has a mismatch in its core dimension 0, with gufunc signature " ++
      s!"(n?,k),(k,m?)->(n?,m?) (size {given} is different from {expected})")
  | .stackMismatch left right =>
    let rank := max left.length right.length - 2
    let result := [left.dropLast.getLastD 0, right.getLastD 0]
    .words ("operands could not be broadcast together with remapped shapes [original->remapped]: " ++
      stackText rank left ++ stackText rank right ++ s!" and requested shape {axesText (result.map some)}")
  | .negativeSize => .words "negative dimensions are not allowed"
  | .shape fault => .words fault.message
  | .outcome status =>
    .words (if status.hasSolution then s!"Status '{status.name}' requires an objective and a solution."
      else s!"Status '{status.name}' cannot carry a solution.")
  | .unknownStatus shown => .words s!"{shown} is not a valid SolveStatus"
  | .noTerminalBasis => .words "Run has no terminal basis."
  | .sensitivityNeedsOptimum => .words "Sensitivity analysis needs an optimal simplex run."
  | .constraintNeedsOptimum => .words "Adding a constraint needs an optimal simplex run."
  | .splitVariable j =>
    .words s!"Variable {j} is free and split over two columns; ranging is not defined."
  | .basicVariable j => .words s!"Variable {j} is basic; use objective_range_basic."
  | .nonbasicVariable j => .words s!"Variable {j} is nonbasic; use objective_range_nonbasic."
  | .constraintOutOfRange k => .words s!"Constraint index {k} out of range."
  | .knapsackMinimises => .words "Knapsack models must maximise."
  | .knapsackWithoutCapacity => .words "Knapsack model needs a <= capacity row."
  | .missingPrecision => .words "Format specifier missing precision"
  | .roundedTooLarge => .words "rounded value too large to represent"
  | .unformattable => .words "unsupported format string passed to numpy.ndarray.__format__"
  | .numberOverflow => .words "int too large to convert to float"
  | .notANumeral text => .words s!"could not convert string to float: {quoted text}"
  | .keepsNothing request => .words s!"'NullObserver' object has no attribute '{request}'"
  | .external text => .words text

/-- The status of a result that ends in this failure. -/
def status : Fault α → Status
  | .iterationLimit .. => .iterationLimit
  | .unbounded .. => .unbounded
  | .artificialsRemain .. => .infeasible
  | .noNegativeEntry .. => .infeasible
  | _ => .error

/-- Is this one of the ways a pivoting solver stops? -/
def isSolverStop : Fault α → Bool
  | .singular .. | .iterationLimit .. | .unbounded .. | .artificialsRemain .. | .noNegativeEntry .. => true
  | _ => false

/-- The pivots made before the failure, where the solver counts them. -/
def pivots : Fault α → Nat
  | .iterationLimit _ k => k
  | .unbounded _ k => k
  | .artificialsRemain _ k => k
  | .noNegativeEntry _ k => k
  | _ => 0

end Fault

end LinOpt
