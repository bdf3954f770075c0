import LinOpt.Scalar
/-!
# Options of a solve
-/

namespace LinOpt

/-- How the entering column and the leaving row are chosen. -/
inductive PivotRule where
  /-- The most negative reduced cost. -/
  | dantzig
  /-- The first negative reduced cost, and the lowest basic column among tied rows. -/
  | bland
  deriving Repr, DecidableEq

namespace PivotRule

/-- Both rules, in the order in which they are listed to a reader. -/
def all : List PivotRule := [.dantzig, .bland]

/-- The word for a rule. -/
def name : PivotRule → String
  | .dantzig => "dantzig"
  | .bland => "bland"

end PivotRule

/-- Which form of the simplex method is run. -/
inductive Method where
  /-- Pivoting a full tableau. -/
  | tableau
  /-- Recomputing from the inverse of the basis. -/
  | revised
  deriving Repr, DecidableEq

namespace Method

/-- Both methods, in the order in which they are listed to a reader. -/
def all : List Method := [.tableau, .revised]

/-- The word for a method. -/
def name : Method → String
  | .tableau => "tableau"
  | .revised => "revised"

/-- The title of a trace of the method. -/
def title : Method → String
  | .tableau => "Primal Simplex (Big-M tableau)"
  | .revised => "Revised Primal Simplex"

end Method

/-- The options of a solve, with their defaults. -/
structure Options (α : Type) [Scalar α] where
  /-- The budget of pivots. -/
  maxIters : Int := 10000
  /-- What counts as zero in the pivoting tests. -/
  tol : α := 1e-9
  /-- The pivot rule. -/
  rule : PivotRule := .dantzig
  /-- The form of the simplex method. -/
  method : Method := .tableau
  /-- The penalty on artificial variables. -/
  bigM : α := 1e6
  /-- What counts as a whole number. -/
  intTol : α := 1e-6
  /-- The most nodes a search visits. -/
  maxNodes : Nat := 20
  /-- The most cuts that are added. -/
  maxCuts : Nat := 20
  /-- Are shadow prices reported with a continuous optimum? -/
  returnDuals : Bool := true

end LinOpt
