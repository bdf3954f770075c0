import LinOpt.Integer.Rounding
import LinOpt.Simplex.Solve
import LinOpt.Sorting
/-!
# Branch and bound

The search keeps a frontier of nodes. A node is a model with one bound row for each decision taken on the
way to it, and carries the solution of its relaxation. The node of the best bound is taken first: it is
dropped if it cannot beat the incumbent, becomes the incumbent if its solution is whole, and otherwise is
split at the variable furthest from the integers into `x ≤ ⌊v⌋` and `x ≥ ⌈v⌉`.

The solver of the relaxations is an argument. It sees the number of the call, so any sequence of answers
and failures is a solver. Bounds and incumbents are in maximisation form.
-/

namespace LinOpt

/-- A solver of relaxations: the number of the call, from one, and the model. -/
abbrev Solver (α : Type) := Nat → Model α → Except (Fault α) (Result α)

/-- The side of a branch. -/
inductive Side where
  /-- The variable is bounded from above. -/
  | left
  /-- The variable is bounded from below. -/
  | right
  deriving Repr, DecidableEq

/-- The way to a node, from the root. -/
abbrev Label := List Side

namespace Label

/-- The name of a node. -/
def text (label : Label) : String :=
  label.foldl (fun name side => name ++ match side with
    | .left => ".L"
    | .right => ".R") "Root"

end Label

/-- A bound put on a variable. -/
structure Decision where
  variableIndex : Int
  bound : Int
  isUpper : Bool
  deriving Repr, DecidableEq

/-- A node of the search. -/
structure Node (α : Type) where
  /-- The objective of the relaxation, in maximisation form. -/
  bound : α
  /-- The solution of the relaxation. -/
  solution : List α
  depth : Nat
  label : Label
  /-- The decisions on the way, the first one first. -/
  decisions : List Decision
  /-- The model with the rows of the decisions. -/
  problem : Model α

/-- What a search ends with. -/
structure SearchOutcome (α : Type) where
  result : Result α
  /-- The nodes taken from the frontier, in order. -/
  visited : List Label := []
  /-- The bounds of the incumbents, in order. -/
  incumbents : List α := []

namespace BranchAndBound

variable {α : Type} [Scalar α]

/-- The title of a trace. -/
def title : String := "Branch and Bound"

/-- A node must beat the incumbent by more than this. -/
def pruneTolerance : α := 1e-9

/-- What stays fixed during a search. -/
structure Setting (α : Type) [Scalar α] where
  observer : Observer
  opts : Options α
  solver : Solver α
  model : Model α

namespace Setting

/-- The positions of the variables that must be whole. -/
def integerVariables (setting : Setting α) : List Int := setting.model.integerIndices.map Int.ofNat

/-- The sign that turns the model into a maximisation. -/
def factor (setting : Setting α) : α := setting.model.sense.factor

/-- The objective of a solution, in the sense of the model. -/
def objective (setting : Setting α) (solution : List α) : Except (Fault α) α :=
  dotAligned setting.model.costs solution

/-- The name of a variable. -/
def variableName (setting : Setting α) (j : Int) : Except (Fault α) String :=
  Position.read setting.model.names j

end Setting

/-- Where a search stands. -/
structure State (α : Type) where
  /-- The open nodes. -/
  frontier : List (Node α)
  /-- The best whole node so far. -/
  incumbent : Option (Node α) := none
  /-- The nodes taken so far. -/
  visited : List Label := []
  /-- The bounds of the incumbents so far. -/
  history : List α := []
  /-- The number of calls of the solver so far. -/
  calls : Nat

/-- Does the node fail to beat the incumbent? Without one, only a bound of minus infinity fails. -/
def isPruned (incumbent : Option (Node α)) (node : Node α) : Bool :=
  match incumbent with
  | some best => decide (node.bound ≤ best.bound + pruneTolerance)
  | none => Scalar.isInfinite node.bound && decide (node.bound < 0)

/-- The frontier with the best bound first; equal bounds stay in the order in which they came. -/
def ordered (frontier : List (Node α)) : List (Node α) :=
  Sorting.byInsertion (fun a b => decide (b.bound < a.bound)) frontier

/-- Solves one child of a node and adds it to the frontier, unless its relaxation has no optimum. -/
def addChild (setting : Setting α) (node : Node α) (j : Int) (state : State α) (side : Side)
    (bound : Int) : Traced α (State α) := do
  let isUpper := side == .left
  let problem ← node.problem.withBound j (Scalar.ofInt bound) isUpper
  let label := node.label ++ [side]
  let name ← setting.variableName j
  let relation := (if isUpper then Relation.le else Relation.ge).name
  let branch := s!"  {Label.text label}: {name} {relation} {bound}"
  let calls := state.calls + 1
  let child := match setting.solver calls problem with
    | .ok result => result
    | .error cause => .failed .error 0 (.fault cause)
  match child.status, child.solution with
  | .optimal, some solution => do
    let objective ← setting.objective solution
    setting.observer.line [.text s!"{branch}, Z = ", .fixed (child.objective.getD 0)]
    let added : Node α :=
      { bound := setting.factor * objective
        solution
        depth := node.depth + 1
        label
        decisions := node.decisions ++ [⟨j, bound, isUpper⟩]
        problem }
    return { state with frontier := state.frontier ++ [added], calls }
  | status, _ => do
    setting.observer.say s!"{branch} is {status.name}; discarded."
    return { state with calls }

/-- Splits a node at a variable. -/
def branch (setting : Setting α) (node : Node α) (j : Int) (value : α) (state : State α) :
    Traced α (State α) := do
  let name ← setting.variableName j
  setting.observer.line [.text s!"  Branching on {name} = ", .fixed value]
  let below ← floorInt value
  let above ← ceilInt value
  let state ← addChild setting node j state .left below
  addChild setting node j state .right above

/-- Deals with the node taken from the frontier; `state` is the state without it. -/
def visit (setting : Setting α) (node : Node α) (state : State α) : Traced α (State α) := do
  setting.observer.line
    [.text s!"Node {Label.text node.label} (depth {node.depth}): Z = ", .fixed (setting.factor * node.bound)]
  if isPruned state.incumbent node then
    setting.observer.say "  Pruned: bound does not improve on the incumbent."
    return state
  match ← Traced.ofExcept
      (selectFractional node.solution setting.integerVariables setting.opts.intTol) with
  | none =>
    setting.observer.line [.text "  New incumbent: Z = ", .fixed (setting.factor * node.bound)]
    return { state with incumbent := some node, history := state.history ++ [node.bound] }
  | some (j, value) => branch setting node j value state

/-- Takes nodes until the frontier is empty or `budget` more nodes have been taken. The flag says that the
budget ran out. -/
def searchLoop (setting : Setting α) : Nat → State α → Traced α (State α × Bool)
  | budget, state =>
    match ordered state.frontier with
    | [] => return (state, false)
    | node :: rest =>
      match budget with
      | 0 => do
        setting.observer.say s!"Node cap of {setting.opts.maxNodes} reached; stopping search."
        return (state, true)
      | budget + 1 => do
        let next ← visit setting node
          { state with frontier := rest, visited := state.visited ++ [node.label] }
        searchLoop setting budget next

/-- The outcome of a search that has ended. -/
def conclude (setting : Setting α) (state : State α) (capped : Bool) :
    Except (Fault α) (SearchOutcome α) := do
  let nodes := state.visited.length
  let cap := setting.opts.maxNodes
  match state.incumbent with
  | none =>
    let result : Result α :=
      if capped then .failed .iterationLimit nodes
        (.text s!"Node cap of {cap} reached before an integer solution was found.")
      else .failed .infeasible nodes (.text "No integer solution found.")
    return ⟨result, state.visited, state.history⟩
  | some best =>
    let solution ← snap best.solution setting.integerVariables setting.opts.intTol
    let objective ← setting.objective solution
    let remark := s!"Explored nodes: {nodes}" ++
      (if capped then s!"; node cap of {cap} reached, best incumbent returned" else "")
    return ⟨.solved .optimalInteger objective solution nodes (.text remark), state.visited, state.history⟩

/-- Searches from an optimal root relaxation. -/
def searchFrom (setting : Setting α) (root : Result α) (solution : List α) :
    Traced α (SearchOutcome α) := do
  let objective ← setting.objective solution
  let bound := setting.factor * objective
  setting.observer.line [.text "Root relaxation: Z = ", .fixed (root.objective.getD 0)]
  setting.observer.vector "Root solution" solution setting.model.names
  match ← Traced.ofExcept (selectFractional solution setting.integerVariables setting.opts.intTol) with
  | none =>
    setting.observer.say "Root relaxation is integral; it is the optimum."
    let snapped ← snap solution setting.integerVariables setting.opts.intTol
    let value ← setting.objective snapped
    return ⟨.solved .optimalInteger value snapped 1 (.text "Root relaxation is integral."), [[]], [bound]⟩
  | some _ =>
    let root : Node α := ⟨bound, solution, 0, [], [], setting.model⟩
    let (state, capped) ← searchLoop setting setting.opts.maxNodes { frontier := [root], calls := 1 }
    conclude setting state capped

/-- The search proper: the root relaxation first. -/
def searchModel (setting : Setting α) : Traced α (SearchOutcome α) := do
  let root ← setting.solver 1 setting.model
  match root.status, root.solution with
  | .optimal, some solution =>
    if setting.integerVariables.isEmpty then return ⟨root, [[]], []⟩
    else searchFrom setting root solution
  | status, _ =>
    setting.observer.say s!"Root relaxation is {status.name}; no branching."
    return ⟨root, [[]], []⟩

/-- Searches for a best whole solution with a given solver. Any failure on the way is an outcome of status
*error*. -/
def searchWith (observer : Observer) (opts : Options α) (solver : Solver α) (model : Model α) :
    Traced α (SearchOutcome α) := do
  observer.header title
  match ← (searchModel ⟨observer, opts, solver, model⟩).attempt with
  | .ok outcome => return outcome
  | .error cause =>
    observer.line (.text s!"Error in {title}: " :: cause.phrase)
    return ⟨.failed .error 0 (.fault cause), [], []⟩

/-- The simplex method as a solver of relaxations. -/
def simplexSolver (opts : Options α) : Solver α := fun _ model => (Simplex.solve .silent opts model).outcome

/-- Searches for a best whole solution with the simplex method. -/
def search (observer : Observer) (opts : Options α) (model : Model α) : Traced α (SearchOutcome α) :=
  searchWith observer opts (simplexSolver opts) model

end BranchAndBound

end LinOpt
