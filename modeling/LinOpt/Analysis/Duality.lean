import LinOpt.Simplex.Solve
/-!
# Duality

The dual of a model has a variable for each row and a row for each variable. Which kinds and relations it
has follows from two tables, keyed by the sense of the model. Whole-number demands are read as
nonnegativity.
-/

namespace LinOpt

namespace Sense

/-- The opposite sense. -/
def dual : Sense → Sense
  | .max => .min
  | _ => .max

end Sense

/-- The kind of the dual variable of a row. -/
def Relation.dualKind {α : Type} (sense : Sense) (sign : Relation) : Except (Fault α) Kind :=
  match sense, sign with
  | .other word, _ => .error (.unknownKey word)
  | _, .other word => .error (.unknownKey word)
  | _, .eq => .ok .free
  | .max, .le => .ok .nonneg
  | .max, .ge => .ok .nonpos
  | .min, .ge => .ok .nonneg
  | .min, .le => .ok .nonpos

/-- The relation of the dual row of a variable. -/
def Kind.dualSign {α : Type} (sense : Sense) (kind : Kind) : Except (Fault α) Relation :=
  match sense, kind with
  | .other word, _ => .error (.unknownKey word)
  | _, .other word => .error (.unknownKey word)
  | _, .free => .ok .eq
  | .max, .nonpos => .ok .le
  | .min, .nonpos => .ok .ge
  | .max, _ => .ok .ge
  | .min, _ => .ok .le

namespace Model

variable {α : Type}

/-- Column `j` of the coefficients. -/
def column (model : Model α) (j : Nat) : Except (Fault α) (List α) :=
  (List.range model.rowCount).mapM fun i => do
    let row ← Position.get model.rows i
    Position.get row j

/-- The model, if its parts agree in size. -/
def checkShape (model : Model α) : Except (Fault α) (Model α) :=
  match model.shapeFault? with
  | some fault => .error (.shape fault)
  | none => .ok model

/-- The dual model. -/
def dual (model : Model α) : Except (Fault α) (Model α) := do
  let rows ← (List.range model.variableCount).mapM model.column
  let signs ← model.kinds.mapM (Kind.dualSign model.sense)
  let kinds ← model.signs.mapM (Relation.dualKind model.sense)
  checkShape
    { name := s!"Dual of {model.name}"
      sense := model.sense.dual
      rows
      rhs := model.costs
      costs := model.rhs
      signs
      kinds
      givenNames := some ((List.range model.rowCount).map fun i => s!"y{i + 1}") }

end Model

/-- How the two objectives of a dual pair compare. -/
structure DualityCheck where
  /-- Neither objective passes the other. -/
  weak : Bool
  /-- The objectives are equal. -/
  strong : Bool
  deriving Repr, DecidableEq

namespace DualityCheck

/-- The verdict in words. -/
def note (check : DualityCheck) : String :=
  if check.strong then "Strong Duality verified (within tolerance)."
  else if check.weak then "Weak Duality holds but not equal within tolerance."
  else "Weak Duality violated (check feasibility)."

end DualityCheck

/-- A model and its dual, solved. -/
structure DualityReport (α : Type) where
  primal : Result α
  dual : Result α
  dualModel : Model α
  /-- The comparison, where both have an objective. -/
  check : Option DualityCheck

variable {α : Type} [Scalar α]

/-- Compares the objective of a model of the given sense with that of its dual. -/
def verifyDuality (sense : Sense) (primal dual tol : α) : DualityCheck :=
  { weak := if sense = .max then decide (primal ≤ dual + tol) else decide (dual - tol ≤ primal)
    strong := decide (Scalar.abs (primal - dual) ≤ tol) }

/-- Compares two results, where both have an objective, and reports the comparison. Objectives are
reported to three decimals, hence the tolerance. -/
def compareObjectives (observer : Observer) (sense : Sense) (primal dual : Result α) :
    Traced α (Option DualityCheck) :=
  match primal.objective, dual.objective with
  | some z, some w => do
    let check := verifyDuality sense z w 2e-3
    observer.header "Duality check"
    observer.line [.text "Primal Z = ", .fixed z, .text ", Dual W = ", .fixed w]
    observer.say check.note
    return some check
  | _, _ => return none

/-- Solves the continuous relaxation of a model and the dual of that relaxation, and compares them. -/
def solvePrimalDual (observer : Observer) (opts : Options α) (model : Model α) :
    Traced α (DualityReport α) := do
  let relaxed ← model.relaxed
  let dualModel ← relaxed.dual
  let primal ← Simplex.solve observer opts relaxed
  let dual ← Simplex.solve observer opts dualModel
  let check ← compareObjectives observer model.sense primal dual
  return { primal, dual, dualModel, check }

end LinOpt
