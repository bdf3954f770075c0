/-!
# How a solve ended

The seven ways a solve can end, and the names they are reported under.
-/

namespace LinOpt

/-- How a solve ended. -/
inductive Status where
  | optimal
  | optimalInteger
  | unbounded
  | infeasible
  | cutLimit
  | iterationLimit
  | error
  deriving Repr, DecidableEq

namespace Status

/-- Every status, in the order in which they are listed to a reader. -/
def all : List Status :=
  [.optimal, .optimalInteger, .unbounded, .infeasible, .cutLimit, .iterationLimit, .error]

/-- The name a status is reported under. -/
def name : Status → String
  | .optimal => "optimal"
  | .optimalInteger => "optimal_integer"
  | .unbounded => "unbounded"
  | .infeasible => "infeasible"
  | .cutLimit => "cut_limit"
  | .iterationLimit => "iteration_limit"
  | .error => "error"

/-- The status of that name. -/
def ofName? (text : String) : Option Status := all.find? (·.name == text)

/-- Does a result of this status carry an objective and a solution? -/
def hasSolution : Status → Bool
  | .optimal | .optimalInteger | .cutLimit => true
  | _ => false

end Status

end LinOpt
