import LinOpt.Document.Checked
import LinOpt.Integer.Cut
/-!
# What a model, its options and its results look like as documents

Each reader checks all fields first, in the order in which they are declared, and then, where every field
is fine, whether the parts fit together.
-/

namespace LinOpt

open Reader

/-- The words for the values of a finite type. -/
def wordsFor {β : Type} (values : List β) (name : β → String) : List (String × β) :=
  values.map fun value => (name value, value)

namespace Model

/-- Reads a model. -/
def read : Document → Checked (Model Float) :=
  record "CanonicalModel" fun document =>
    let fields := Model.mk
      <$> optional document "name" "problem" string
      <*> required document "sense" (word (wordsFor [.min, .max] Sense.name) .unknownWord)
      <*> required document "A" (list (list float))
      <*> required document "b" (list float)
      <*> required document "c" (list float)
      <*> required document "signs" (list (word (wordsFor [.le, .ge, .eq] Relation.name) .unknownWord))
      <*> required document "variable_kinds"
        (list (word (wordsFor [.free, .nonneg, .nonpos, .int, .bin] Kind.name) .unknownWord))
      <*> optional document "variable_names" none (nullable (list string))
    fields.refine fun model =>
      match model.shapeFault? with
      | some fault => .complain [] (.inconsistent fault.message)
      | none => .ok model

end Model

namespace Options

/-- Reads options; absent ones have their defaults. -/
def read : Document → Checked (Options Float) :=
  record "SolveOptions" fun document =>
    let defaults : Options Float := {}
    Options.mk
      <$> optional document "max_iters" defaults.maxIters int
      <*> optional document "tol" defaults.tol float
      <*> optional document "pivot_rule" defaults.rule
        (word (wordsFor PivotRule.all PivotRule.name) .unknownWord)
      <*> optional document "method" defaults.method
        (word (wordsFor Method.all Method.name) .unknownWord)
      <*> optional document "big_m" defaults.bigM float
      <*> optional document "int_tol" defaults.intTol float
      <*> optional document "max_nodes" defaults.maxNodes (natFrom 1)
      <*> optional document "max_cuts" defaults.maxCuts (natFrom 0)
      <*> optional document "return_duals" defaults.returnDuals bool

end Options

namespace Result

/-- The result, if its status fits what it carries. -/
def checked (result : Result Float) : Checked (Result Float) :=
  if result.consistent then .ok result
  else .complain [] (.inconsistent (Fault.phrase (.outcome result.status : Fault Float)).render)

/-- Reads a result. -/
def read : Document → Checked (Result Float) :=
  record "Result" fun document =>
    let fields := Result.mk
      <$> required document "status" (word (wordsFor Status.all Status.name) .unknownName)
      <*> optional document "objective" none (nullable float)
      <*> optional document "solution" none (nullable (list float))
      <*> optional document "iterations" 0 int
      <*> (Message.text <$> optional document "message" "" string)
    fields.refine checked

/-- The result `make` builds from a count and a remark, both still to be checked. -/
def withRemark (make : Int → Message Float → Result Float) (iterations message : Document) :
    Checked (Result Float) :=
  let fields := make
    <$> int ["iterations"] iterations
    <*> (Message.text <$> string ["message"] message)
  fields.refine checked

end Result

namespace Range

/-- Reads an interval; both ends must be stated, and null is an open end. -/
def read : Document → Checked (Range Float) :=
  record "Range" fun document =>
    Range.mk
      <$> required document "lower" (nullable float)
      <*> required document "upper" (nullable float)

end Range

namespace Cut

/-- Reads a cut. -/
def read : Document → Checked (Cut Float) :=
  record "Cut" fun document =>
    Cut.mk
      <$> required document "kind" (word (wordsFor CutKind.all CutKind.name) .unknownWord)
      <*> required document "coefficients" (list float)
      <*> required document "rhs" float
      <*> required document "vertex" (list float)
      <*> required document "variable" int

end Cut

end LinOpt
