import LinOpt.Fault
import LinOpt.Dense.Basic
/-!
# Results

A result carries an objective and a solution exactly when its status says so; `Result.check` is that rule.
-/

namespace LinOpt

/-- The remark that goes with a result. -/
inductive Message (α : Type) where
  /-- Words. -/
  | text (words : String)
  /-- The failure that ended the solve. -/
  | fault (cause : Fault α)
  /-- An artificial variable is left at this level. -/
  | artificialBasic (level : α)
  deriving Repr

namespace Message

variable {α : Type}

/-- The wording of a remark. -/
def phrase : Message α → Phrase α
  | .text words => .words words
  | .fault cause => cause.phrase
  | .artificialBasic level =>
    [.text "Artificial variable remains basic at ", .general level, .text "; problem is infeasible."]

end Message

/-- The answer of a solve. -/
structure Result (α : Type) where
  /-- How it ended. -/
  status : Status
  /-- The objective value. -/
  objective : Option α := none
  /-- One value for each variable. -/
  solution : Option (List α) := none
  /-- Pivots, nodes or cuts, as the solver counts them. -/
  iterations : Int := 0
  /-- A remark. -/
  message : Message α := .text ""
  deriving Repr

namespace Result

variable {α : Type}

/-- Does the status fit what the result carries? -/
def consistent (result : Result α) : Bool :=
  if result.status.hasSolution then result.objective.isSome && result.solution.isSome
  else result.objective.isNone && result.solution.isNone

/-- The result, if its status fits what it carries. -/
def check (result : Result α) : Except (Fault α) (Result α) :=
  if result.consistent then .ok result else .error (.outcome result.status)

/-- A result without a solution. -/
def failed (status : Status) (iterations : Int) (message : Message α) : Result α :=
  { status, iterations, message }

/-- The result of a solve that ended in a fault. -/
def ofFault (cause : Fault α) : Result α := failed cause.status cause.pivots (.fault cause)

variable [Scalar α]

/-- A result with a solution: the objective to three decimals, and entries of negligible size as zero. -/
def solved (status : Status) (objective : α) (solution : List α) (iterations : Int)
    (message : Message α) : Result α :=
  { status
    objective := some (Scalar.round3 objective)
    solution := some (solution.map Scalar.clean)
    iterations
    message }

end Result

/-- A closed interval; an absent end is infinite. -/
structure Range (α : Type) where
  lower : Option α
  upper : Option α
  deriving Repr, DecidableEq

namespace Range

variable {α : Type} [Scalar α]

/-- Is the value inside the interval, up to the tolerance? -/
def contains (range : Range α) (value tol : α) : Bool :=
  !(range.lower.any fun lower => decide (value < lower - tol)) &&
    !(range.upper.any fun upper => decide (upper + tol < value))

end Range

end LinOpt
