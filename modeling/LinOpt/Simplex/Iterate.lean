import LinOpt.Simplex.Run
/-!
# The pivoting loops

Both loops start from the basis of the standard form and make the same moves. The tableau loop carries the
whole tableau along; the revised loop carries the basis alone and recomputes what the next move needs from
the inverse of the basic columns.

`phaseOneGap` is a third loop over the same tableau moves. It minimises the total of the artificial
variables.
-/

namespace LinOpt

variable {α : Type} [Scalar α]

/-! ## The tableau loop -/

/-- Pivots until no column improves the objective, at most `budget` times more. -/
def tableauLoop (observer : Observer) (opts : Options α) : Nat → Nat → Tableau α → Traced α (Terminal α)
  | budget, made, T =>
    match T.nextMove opts.tol opts.rule with
    | .optimal => pure ⟨T.basis, T.rhs, made⟩
    | .ray col => do
      let name ← T.columnName col
      throw (.unbounded name made)
    | .pivot row col =>
      match budget with
      | 0 => throw (.iterationLimit opts.maxIters made)
      | budget + 1 => do
        let leaving ← T.basicName row
        let next := T.pivot row col
        let entering ← next.columnName col
        observer.say
          s!"Iteration {made + 1}: entering {entering}, leaving {leaving}, pivot ({row}, {col})"
        next.display observer s!"Tableau after iteration {made + 1}"
        tableauLoop observer opts budget (made + 1) next

/-- The tableau of a standard form at its starting basis. -/
def StandardForm.tableau (form : StandardForm α) : Tableau α :=
  Tableau.initial form.rows form.rhs form.costs form.basis form.columnNames

/-- The tableau method on a standard form. -/
def iterateTableau (observer : Observer) (opts : Options α) (form : StandardForm α) :
    Traced α (Terminal α) := do
  form.tableau.display observer "Initial tableau"
  tableauLoop observer opts opts.maxIters.toNat 0 form.tableau

/-! ## The revised loop -/

/-- What the revised method computes at a basis. -/
structure Snapshot (α : Type) where
  /-- The inverse of the basic columns. -/
  inverse : Dense α
  /-- The values of the basic columns. -/
  basics : List α
  /-- The price of each row. -/
  prices : List α
  /-- The reduced costs, zero on basic columns. -/
  reduced : List α

/-- The quantities of the revised method at a basis. -/
def StandardForm.snapshot (form : StandardForm α) (basis : List Nat) :
    Except (Fault α) (Snapshot α) := do
  let inverse ← Dense.inverse (form.rows.columns basis)
  let prices := Dense.mulVec (Dense.transpose form.height inverse) (pick form.costs basis)
  let reduced := List.zipWith (· - ·)
    (Dense.mulVec (Dense.transpose form.width form.rows) prices) form.costs
  return { inverse
           basics := Dense.mulVec inverse form.rhs
           prices
           reduced := scatter reduced (basis.map (·, 0)) }

/-- The column `col` of the system, written over the basis. -/
def Snapshot.direction (snapshot : Snapshot α) (form : StandardForm α) (col : Nat) : List α :=
  Dense.mulVec snapshot.inverse (form.rows.column col)

/-- The next move from a basis. -/
def Snapshot.nextMove (snapshot : Snapshot α) (form : StandardForm α) (basis : List Nat) (tol : α)
    (rule : PivotRule) : Tableau.Move :=
  match chooseEntering snapshot.reduced tol rule with
  | none => .optimal
  | some col =>
    match chooseLeaving (snapshot.direction form col) snapshot.basics basis tol rule with
    | none => .ray col
    | some row => .pivot row col

/-- Exchanges basic columns until none improves the objective, at most `budget` times more. -/
def revisedLoop (observer : Observer) (opts : Options α) (form : StandardForm α) :
    Nat → Nat → List Nat → Traced α (Terminal α)
  | budget, made, basis => do
    let snapshot ← form.snapshot basis
    let names ← Traced.ofExcept (basis.mapM form.columnName)
    observer.vector s!"x_B (iteration {made})" snapshot.basics names
    observer.vector s!"y (iteration {made})" snapshot.prices []
    match snapshot.nextMove form basis opts.tol opts.rule with
    | .optimal => pure ⟨basis, snapshot.basics, made⟩
    | .ray col => do
      let name ← form.columnName col
      throw (.unbounded name made)
    | .pivot row col =>
      match budget with
      | 0 => throw (.iterationLimit opts.maxIters made)
      | budget + 1 => do
        let theta := entry snapshot.basics row / entry (snapshot.direction form col) row
        let leaving ← form.columnName (basis.getD row 0)
        let entering ← form.columnName col
        observer.line
          [.text s!"Iteration {made + 1}: entering {entering}, leaving {leaving}, theta = ", .fixed theta]
        revisedLoop observer opts form budget (made + 1) (basis.set row col)

/-- The revised method on a standard form. -/
def iterateRevised (observer : Observer) (opts : Options α) (form : StandardForm α) :
    Traced α (Terminal α) :=
  revisedLoop observer opts form opts.maxIters.toNat 0 form.basis

/-! ## Phase one -/

/-- Pivots by Bland's rule until no move is left, at most `budget` times more. -/
def phaseOneLoop (opts : Options α) : Nat → Nat → Tableau α → Except (Fault α) (Tableau α × Nat)
  | budget, made, T =>
    match T.nextMove opts.tol .bland with
    | .optimal => .ok (T, made)
    -- the total is bounded, so a ray ends the search as well
    | .ray _ => .ok (T, made)
    | .pivot row col =>
      match budget with
      | 0 => .error (.iterationLimit opts.maxIters made)
      | budget + 1 => phaseOneLoop opts budget (made + 1) (T.pivot row col)

/-- The tableau that maximises minus the total of the artificial variables. -/
def StandardForm.phaseOneTableau (form : StandardForm α) : Tableau α :=
  let costs := scatter (zeros form.width) (form.artificials.map (·, -1))
  Tableau.initial form.rows form.rhs costs form.basis form.columnNames

/-- The least total of the artificial variables that is reached from the starting basis. -/
def phaseOneGap (observer : Observer) (opts : Options α) (form : StandardForm α) : Traced α α := do
  let (last, made) ← phaseOneLoop opts opts.maxIters.toNat 0 form.phaseOneTableau
  let gap := Scalar.larger 0 (-last.objectiveValue)
  observer.line
    [.text "Phase one: total artificial level ", .general gap, .text s!" after {made} pivots"]
  return gap

end LinOpt
