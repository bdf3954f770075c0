import LinOpt.Model
import LinOpt.Result
import LinOpt.Sorting
import LinOpt.Trace
/-!
# The knapsack problem

Items of given weight and value are taken or left so that the weight stays within a capacity and the value
is largest. The search decides the items one after the other, by descending ratio of value to weight. The
bound of a partial choice fills the remaining capacity greedily, the last item fractionally.

A node holds the items that are still to be decided, so every step works on fewer of them: the frontier
stands for at most `2 ^ (n + 1) - 1` nodes in all, and that is the budget of the loop (`nodeBudget`).
-/

namespace LinOpt

namespace Knapsack

/-- An item, with its place in the caller's list. -/
structure Item (α : Type) where
  index : Nat
  weight : α
  value : α
  deriving Repr, DecidableEq

/-- A ratio of value to weight, with two ends. -/
inductive Ratio (α : Type) where
  /-- An item that is worth nothing. -/
  | worthless
  | finite (quotient : α)
  /-- An item that is worth something and weighs nothing. -/
  | weightless
  deriving Repr, DecidableEq

variable {α : Type} [Scalar α]

namespace Ratio

/-- The order of ratios. A quotient that is not a number is below and above nothing. -/
def below : Ratio α → Ratio α → Bool
  | .worthless, .finite q => q == q
  | .worthless, .weightless => true
  | .finite p, .finite q => decide (p < q)
  | .finite p, .weightless => p == p
  | _, _ => false

/-- The ratio in a trace. -/
def span : Ratio α → Span α
  | .worthless => .text "-inf"
  | .finite q => .fixed q
  | .weightless => .text "inf"

end Ratio

/-- The value of an item for each unit of weight. -/
def Item.ratio (item : Item α) : Ratio α :=
  if item.value ≤ 0 then .worthless
  else if item.weight ≤ 0 then .weightless
  else
    let quotient := item.value / item.weight
    if Scalar.isInfinite quotient then .weightless else .finite quotient

/-- A partial choice. -/
structure Node (α : Type) where
  /-- Which of the decided items are taken. -/
  taken : List Bool
  /-- The items still to be decided. -/
  rest : List (Item α)
  weight : α
  value : α
  bound : α

/-- What the remaining capacity can add to a value: items as long as they fit, and a part of the first that
does not. -/
def fill : List (Item α) → α → α → α
  | [], _, bound => bound
  | item :: rest, remaining, bound =>
    if item.value ≤ 0 then bound
    else if item.weight ≤ remaining then fill rest (remaining - item.weight) (bound + item.value)
    else if 0 < item.weight then bound + item.value * remaining / item.weight
    else bound

/-- A node with its bound. -/
def node (capacity : α) (taken : List Bool) (rest : List (Item α)) (weight value : α) : Node α :=
  ⟨taken, rest, weight, value, fill rest (capacity - weight) value⟩

/-- Where a search stands. -/
structure State (α : Type) where
  /-- The open nodes. -/
  frontier : List (Node α)
  /-- The best value so far. -/
  best : α
  /-- The choice of the best value, in the order of the search. -/
  choice : List Bool
  /-- The number of nodes taken so far. -/
  processed : Nat := 0

/-- A node must beat the best value by more than this. -/
def pruneTolerance : α := 1e-9

/-- The children of a node that decide its next item: taking it, where it fits, and leaving it. -/
def children (capacity : α) (parent : Node α) (item : Item α) (rest : List (Item α)) : List (Node α) :=
  let left := node capacity (parent.taken ++ [false]) rest parent.weight parent.value
  if parent.weight + item.weight ≤ capacity + 1e-12 then
    [node capacity (parent.taken ++ [true]) rest (parent.weight + item.weight) (parent.value + item.value),
      left]
  else [left]

/-- Deals with the node taken from the frontier; `state` is the state without it. -/
def visit (observer : Observer) (capacity : α) (current : Node α) (state : State α) :
    Traced α (State α) :=
  if current.bound ≤ state.best + pruneTolerance then return state
  else
    match current.rest with
    | [] =>
      if state.best < current.value then do
        observer.line
          [.text "New best value ", .general current.value, .text s!" at node {state.processed}"]
        return { state with best := current.value, choice := current.taken }
      else return state
    | item :: rest =>
      let kept := (children capacity current item rest).filter fun child =>
        decide (state.best + pruneTolerance < child.bound)
      return { state with frontier := state.frontier ++ kept }

/-- The frontier with the best bound first; equal bounds stay in the order in which they came. -/
def ordered (frontier : List (Node α)) : List (Node α) :=
  Sorting.byInsertion (fun a b => decide (b.bound < a.bound)) frontier

/-- Takes nodes until the frontier is empty, at most `budget` more. -/
def searchLoop (observer : Observer) (capacity : α) : Nat → State α → Traced α (State α)
  | 0, state => return state
  | budget + 1, state =>
    match ordered state.frontier with
    | [] => return state
    | current :: rest => do
      let next ← visit observer capacity current
        { state with frontier := rest, processed := state.processed + 1 }
      searchLoop observer capacity budget next

/-- The number of partial choices of `n` items: `2 ^ (n + 1) - 1`. -/
def nodeBudget (n : Nat) : Nat := Nat.pow 2 (n + 1) - 1

/-- The items in the order of the search: by descending ratio, equal ratios as they came. -/
def sortedItems (weights values : List α) : List (Item α) :=
  let items := (weights.zip values).mapIdx fun i (weight, value) => ⟨i, weight, value⟩
  Sorting.byInsertion (fun a b => b.ratio.below a.ratio) items

/-- Shows the items to the observer. -/
def showItems (observer : Observer) : List (Item α) → Traced α Unit
  | [] => return ()
  | item :: rest => do
    observer.line
      [.text s!"  item {item.index + 1}: w=", .general item.weight, .text ", v=", .general item.value,
        .text ", ratio=", item.ratio.span]
    showItems observer rest

/-- The title of a trace. -/
def title : String := "Knapsack Branch and Bound"

/-- Solves the problem for a list of weights and a list of values. -/
def run (observer : Observer) (capacity : α) (weights values : List α) : Traced α (Result α) := do
  if capacity < 0 then return .failed .error 0 (.text "Knapsack capacity must be non-negative.")
  let items := sortedItems weights values
  observer.say "Items by value/weight ratio:"
  showItems observer items
  let root := node capacity [] items 0 0
  let last ← searchLoop observer capacity (nodeBudget items.length)
    { frontier := [root], best := 0, choice := items.map fun _ => false }
  let chosen := (items.zip last.choice).filterMap fun (item, taken) =>
    if taken then some (item.index, (1 : α)) else none
  observer.line [.text "Best value ", .general last.best, .text s!" after {last.processed} nodes"]
  return .solved .optimalInteger last.best (scatter (zeros items.length) chosen) last.processed
    (.text s!"Explored nodes: {last.processed}")

/-- The result of a knapsack problem that cannot be read. -/
def refuse (observer : Observer) (message : Message α) : Traced α (Result α) := do
  observer.line (.text s!"Error in {title}: " :: message.phrase)
  return .failed .error 0 message

/-- Solves the problem for items. -/
def solveItems (observer : Observer) (capacity : α) (weights values : List α) : Traced α (Result α) := do
  observer.header title
  if weights.length ≠ values.length then
    refuse observer (.text s!"Got {weights.length} weights but {values.length} values.")
  else run observer capacity weights values

/-- The capacity, weights and values of a model: the first `≤` row and the objective. -/
def data (model : Model α) : Except (Fault α) (α × List α × List α) :=
  if model.sense ≠ .max then .error .knapsackMinimises
  else
    let rows := model.rows.zip (model.signs.zip model.rhs)
    match rows.find? fun (_, sign, _) => sign == .le with
    | some (row, _, rhs) => .ok (rhs, row, model.costs)
    | none => .error .knapsackWithoutCapacity

/-- Solves the problem that a model states. -/
def solveModel (observer : Observer) (model : Model α) : Traced α (Result α) := do
  observer.header title
  match data model with
  | .ok (capacity, weights, values) => run observer capacity weights values
  | .error cause => refuse observer (.fault cause)

end Knapsack

end LinOpt
