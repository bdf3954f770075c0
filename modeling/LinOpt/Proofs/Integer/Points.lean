import LinOpt.Integer.BranchAndBound
import LinOpt.Proofs.Integer.Bounds
import LinOpt.Proofs.Simplex.Outcome
import Mathlib.Logic.Relation
/-!
# The points of a search

Branch and bound works in rounds: the node of the best bound is taken from the frontier, and then it
is pruned, becomes the incumbent, or is split, which has its two children solved one after the
other. `Step` is one such move, and a search passes whatever moves lead to from its start (`Passes`).
A law of a search is proved of the start and of each move (`Passes.induction`).

Nothing is asked of the numbers or of the solver, which may answer anything or fail; a failure ends
the search where it stands. A live node, open or in hand, is one that was live before or a child that
the last call has opened (`Step.live`), so that every node comes with the answer to a call
(`Passes.kept`). A search closes with the answer to its first call, or with the state at a point that
it passes (`exists_closes_searchWith`), so what holds at every point holds of every outcome.
-/

namespace LinOpt

namespace BranchAndBound

/-! ## Moves -/

section Moves

variable {α : Type} [Scalar α]

/-- What a search does next. -/
inductive Stage (α : Type) where
  /-- A node is to be taken from the frontier. -/
  | between
  /-- The node has been taken. -/
  | taken (node : Node α)
  /-- The node is split at a variable of this value, and neither child has been solved. -/
  | split (node : Node α) (j : ℤ) (value : α)
  /-- The node is split, and the child below the value has been dealt with. -/
  | half (node : Node α) (j : ℤ) (value : α)

/-- **A point of a search**: the nodes taken so far, in order, what comes next, and the state. -/
structure Point (α : Type) where
  taken : List (Node α)
  stage : Stage α
  state : State α

variable (setting : Setting α)

/-- The node of the root relaxation. -/
def Setting.rootNode (solution : List α) (objective : α) : Node α :=
  ⟨setting.factor * objective, solution, 0, [], [], setting.model⟩

/-- **The start of a search**: the root relaxation has an optimum with a variable to branch on, and
its node is open. -/
inductive Starts : Point α → Prop
  | mk {root : Result α} {solution : List α} {objective : α} {choice : ℤ × α} :
      setting.solver 1 setting.model = .ok root → root.status = .optimal →
      root.solution = some solution → setting.objective solution = .ok objective →
      selectFractional solution setting.integerVariables setting.opts.intTol = .ok (some choice) →
      Starts ⟨[], .between, { frontier := [setting.rootNode solution objective], calls := 1 }⟩

/-- **One move of a search.** -/
inductive Step : Point α → Point α → Prop
  /-- The node of the best bound leaves the frontier and counts as visited. -/
  | take {taken : List (Node α)} {state : State α} {node : Node α} {rest : List (Node α)} :
      state.visited.length < setting.opts.maxNodes → ordered state.frontier = node :: rest →
      Step ⟨taken, .between, state⟩ ⟨taken ++ [node], .taken node,
        { state with frontier := rest, visited := state.visited ++ [node.label] }⟩
  /-- The node cannot beat the incumbent. -/
  | prune {taken : List (Node α)} {state : State α} {node : Node α} :
      isPruned state.incumbent node = true →
      Step ⟨taken, .taken node, state⟩ ⟨taken, .between, state⟩
  /-- The node is whole and becomes the incumbent. -/
  | accept {taken : List (Node α)} {state : State α} {node : Node α} :
      isPruned state.incumbent node = false →
      selectFractional node.solution setting.integerVariables setting.opts.intTol = .ok none →
      Step ⟨taken, .taken node, state⟩ ⟨taken, .between,
        { state with incumbent := some node, history := state.history ++ [node.bound] }⟩
  /-- The node has a variable to branch on. -/
  | split {taken : List (Node α)} {state : State α} {node : Node α} {j : ℤ} {value : α} :
      isPruned state.incumbent node = false →
      selectFractional node.solution setting.integerVariables setting.opts.intTol =
        .ok (some (j, value)) →
      Step ⟨taken, .taken node, state⟩ ⟨taken, .split node j value, state⟩
  /-- The child below the value is solved, and kept or dropped. -/
  | left {taken : List (Node α)} {state next : State α} {node : Node α} {j below : ℤ} {value : α} :
      floorInt value = (.ok below : Except (Fault α) ℤ) →
      (addChild setting node j state .left below).outcome = .ok next →
      Step ⟨taken, .split node j value, state⟩ ⟨taken, .half node j value, next⟩
  /-- The child above the value is solved, and kept or dropped. -/
  | right {taken : List (Node α)} {state next : State α} {node : Node α} {j above : ℤ} {value : α} :
      ceilInt value = (.ok above : Except (Fault α) ℤ) →
      (addChild setting node j state .right above).outcome = .ok next →
      Step ⟨taken, .half node j value, state⟩ ⟨taken, .between, next⟩

/-- **The points that a search passes.** -/
def Passes (p : Point α) : Prop :=
  ∃ start, Starts setting start ∧ Relation.ReflTransGen (Step setting) start p

/-- **The calls of the solver**: their numbers, from one, and their problems. -/
inductive Calls : ℕ → Model α → Prop
  /-- The model itself comes first. -/
  | root : Calls 1 setting.model
  /-- The child below the value. -/
  | left {taken : List (Node α)} {state : State α} {node : Node α} {j below : ℤ} {value : α}
      {problem : Model α} :
      Passes setting ⟨taken, .split node j value, state⟩ →
      floorInt value = (.ok below : Except (Fault α) ℤ) →
      node.problem.withBound j (Scalar.ofInt below) true = .ok problem →
      Calls (state.calls + 1) problem
  /-- The child above the value, once the other has been dealt with. -/
  | right {taken : List (Node α)} {state : State α} {node : Node α} {j above : ℤ} {value : α}
      {problem : Model α} :
      Passes setting ⟨taken, .half node j value, state⟩ →
      ceilInt value = (.ok above : Except (Fault α) ℤ) →
      node.problem.withBound j (Scalar.ofInt above) false = .ok problem →
      Calls (state.calls + 1) problem

/-- What holds at the start and is kept by every move holds at every point. -/
theorem Passes.induction {setting : Setting α} {P : Point α → Prop}
    (hstart : ∀ p, Starts setting p → P p)
    (hstep : ∀ p q, Passes setting p → P p → Step setting p q → P q) {p : Point α}
    (h : Passes setting p) : P p := by
  obtain ⟨start, hstarts, hmoves⟩ := h
  induction hmoves with
  | refl => exact hstart start hstarts
  | tail hbefore hmove ih => exact hstep _ _ ⟨start, hstarts, hbefore⟩ ih hmove

theorem Passes.step {setting : Setting α} {p q : Point α} (h : Passes setting p)
    (hmove : Step setting p q) : Passes setting q := by
  obtain ⟨start, hstarts, hmoves⟩ := h
  exact ⟨start, hstarts, hmoves.tail hmove⟩

/-- The node in hand. -/
def Stage.held : Stage α → List (Node α)
  | .between => []
  | .taken node | .split node _ _ | .half node _ _ => [node]

/-- The nodes that are open or in hand. -/
def Point.live (p : Point α) : List (Node α) := p.state.frontier ++ p.stage.held

/-- The search stops at its cap, with nodes still open. -/
def Capped : Prop :=
  ∃ start state, Starts setting start ∧
    (searchLoop setting setting.opts.maxNodes start.state).outcome = .ok (state, true)

end Moves

/-! ## What the parts of a search do -/

section Parts

variable {α : Type} [Scalar α] {setting : Setting α} {node : Node α} {state next final : State α}
  {j bound : ℤ} {side : Side} {taken : List (Node α)} {capped : Bool}

theorem outcome_lift {α β : Type} (answer : Except (Fault α) β) :
    (liftM answer : Traced α β).outcome = answer := rfl

/-- The node of a child, from the solution of its problem and the objective of that. -/
def Setting.child (setting : Setting α) (node : Node α) (j : ℤ) (side : Side) (bound : ℤ)
    (problem : Model α) (solution : List α) (objective : α) : Node α :=
  { bound := setting.factor * objective
    solution
    depth := node.depth + 1
    label := node.label ++ [side]
    decisions := node.decisions ++ [⟨j, bound, side == .left⟩]
    problem }

/-- **A child is solved, and kept or dropped**; it is kept where the answer is an optimum with a
solution. -/
theorem exists_of_addChild (h : (addChild setting node j state side bound).outcome = .ok next) :
    ∃ problem children,
      node.problem.withBound j (Scalar.ofInt bound) (side == .left) = .ok problem ∧
      next = { state with frontier := state.frontier ++ children, calls := state.calls + 1 } ∧
      ((∃ result solution objective, setting.solver (state.calls + 1) problem = .ok result ∧
          result.status = .optimal ∧ result.solution = some solution ∧
          setting.objective solution = .ok objective ∧
          children = [setting.child node j side bound problem solution objective]) ∨
        (∀ result, setting.solver (state.calls + 1) problem = .ok result →
          result.status = .optimal → result.solution = none) ∧ children = []) := by
  unfold addChild at h
  simp only [Traced.outcome_bind, outcome_lift] at h
  obtain ⟨problem, hproblem, h⟩ := exists_of_bind_eq_ok h
  obtain ⟨name, -, h⟩ := exists_of_bind_eq_ok h
  split at h
  · rename_i solution hstatus hsolution
    simp only [Traced.outcome_bind, outcome_lift, outcome_line] at h
    obtain ⟨objective, hobjective, h⟩ := exists_of_bind_eq_ok h
    refine ⟨problem, _, hproblem, (Except.ok.inj h).symm, Or.inl ?_⟩
    -- a solver that fails is read as a result of status *error*
    cases hanswer : setting.solver (state.calls + 1) problem with
    | error cause => simp [hanswer, Result.failed] at hstatus
    | ok result =>
      rw [hanswer] at hstatus hsolution
      exact ⟨result, solution, objective, rfl, hstatus, hsolution, hobjective, rfl⟩
  · rename_i hother
    simp only [Traced.outcome_bind, outcome_say] at h
    refine ⟨problem, [], hproblem, ?_, Or.inr ⟨?_, rfl⟩⟩
    · rw [List.append_nil]
      exact (Except.ok.inj h).symm
    · intro result hanswer hstatus
      simp only [hanswer] at hother
      exact Option.eq_none_iff_forall_ne_some.mpr fun solution => hother solution hstatus

/-- **A node is pruned, becomes the incumbent, or is split.** -/
theorem exists_of_visit (h : (visit setting node state).outcome = .ok next) :
    isPruned state.incumbent node = true ∧ next = state ∨
      isPruned state.incumbent node = false ∧
        (selectFractional node.solution setting.integerVariables setting.opts.intTol = .ok none ∧
            next = { state with
              incumbent := some node
              history := state.history ++ [node.bound] } ∨
          ∃ j value below above middle,
            selectFractional node.solution setting.integerVariables setting.opts.intTol =
              .ok (some (j, value)) ∧
            floorInt value = (.ok below : Except (Fault α) ℤ) ∧
            ceilInt value = (.ok above : Except (Fault α) ℤ) ∧
            (addChild setting node j state .left below).outcome = .ok middle ∧
            (addChild setting node j middle .right above).outcome = .ok next) := by
  unfold visit at h
  simp only [Traced.outcome_bind, outcome_line, ok_bind] at h
  split at h
  · rename_i hpruned
    simp only [Traced.outcome_bind, outcome_say, ok_bind] at h
    exact Or.inl ⟨hpruned, (Except.ok.inj h).symm⟩
  · rename_i hkept
    simp only [Traced.outcome_bind, Traced.outcome_ofExcept] at h
    obtain ⟨choice, hchoice, h⟩ := exists_of_bind_eq_ok h
    refine Or.inr ⟨by simpa using hkept, ?_⟩
    cases choice with
    | none =>
      simp only [Traced.outcome_bind, outcome_line, ok_bind] at h
      exact Or.inl ⟨hchoice, (Except.ok.inj h).symm⟩
    | some choice =>
      obtain ⟨j, value⟩ := choice
      unfold branch at h
      simp only [Traced.outcome_bind, outcome_lift, outcome_line, ok_bind] at h
      obtain ⟨name, -, h⟩ := exists_of_bind_eq_ok h
      obtain ⟨below, hbelow, h⟩ := exists_of_bind_eq_ok h
      obtain ⟨above, habove, h⟩ := exists_of_bind_eq_ok h
      obtain ⟨middle, hleft, hright⟩ := exists_of_bind_eq_ok h
      exact Or.inr ⟨j, value, below, above, middle, hchoice, hbelow, habove, hleft, hright⟩

/-- Dealing with a node is a few moves. -/
theorem Passes.of_visit (hpasses : Passes setting ⟨taken, .taken node, state⟩)
    (h : (visit setting node state).outcome = .ok next) :
    Passes setting ⟨taken, .between, next⟩ := by
  rcases exists_of_visit h with ⟨hpruned, rfl⟩ | ⟨hkept, ⟨hwhole, rfl⟩ |
    ⟨j, value, below, above, middle, hchoice, hbelow, habove, hleft, hright⟩⟩
  · exact hpasses.step (.prune hpruned)
  · exact hpasses.step (.accept hkept hwhole)
  · exact ((hpasses.step (.split hkept hchoice)).step (.left hbelow hleft)).step
      (.right habove hright)

/-- The nodes taken are those visited. -/
theorem Passes.visited_eq {p : Point α} (h : Passes setting p) :
    p.state.visited = p.taken.map (·.label) := by
  have hchild : ∀ {node : Node α} {j bound : ℤ} {side : Side} {state next : State α},
      (addChild setting node j state side bound).outcome = .ok next →
        next.visited = state.visited := by
    intro node j bound side state next hadd
    obtain ⟨problem, children, -, rfl, -⟩ := exists_of_addChild hadd
    rfl
  refine Passes.induction (P := fun p => p.state.visited = p.taken.map (·.label)) ?_ ?_ h
  · rintro p ⟨⟩
    rfl
  · intro p q _ ih hmove
    cases hmove with
    | take _ _ => simpa using ih
    | prune _ => exact ih
    | accept _ _ => exact ih
    | split _ _ => exact ih
    | left _ hadd => exact (hchild hadd).trans ih
    | right _ hadd => exact (hchild hadd).trans ih

theorem mem_ordered {frontier : List (Node α)} : node ∈ ordered frontier ↔ node ∈ frontier :=
  (Sorting.byInsertion_perm _ _).mem_iff

theorem eq_nil_of_ordered {frontier : List (Node α)} (h : ordered frontier = []) :
    frontier = [] := by
  have hperm : (ordered frontier).Perm frontier := Sorting.byInsertion_perm _ _
  rw [h] at hperm
  exact hperm.nil_eq.symm

end Parts

/-! ## The live nodes -/

section Live

variable {α : Type} [Scalar α] {setting : Setting α} {node parent : Node α} {p q : Point α}
  {taken : List (Node α)} {state next : State α} {j bound : ℤ} {side : Side}
  {before after : Stage α}

/-- **The node holds what a call was answered with**: an optimal solution of its problem, and the
objective of that, in maximisation form, as its bound. -/
structure Answered (setting : Setting α) (n : ℕ) (node : Node α) : Prop where
  calls : Calls setting n node.problem
  answer : ∃ result, setting.solver n node.problem = .ok result ∧ result.status = .optimal ∧
    result.solution = some node.solution
  bound_eq : ∃ z, setting.objective node.solution = .ok z ∧ node.bound = setting.factor * z

/-- The problem on one side of a branch at a variable of this value. -/
inductive Halves (parent : Model α) (j : ℤ) (value : α) (child : Model α) : Prop
  | below {z : ℤ} : floorInt value = (.ok z : Except (Fault α) ℤ) →
      parent.withBound j (Scalar.ofInt z) true = .ok child → Halves parent j value child
  | above {z : ℤ} : ceilInt value = (.ok z : Except (Fault α) ℤ) →
      parent.withBound j (Scalar.ofInt z) false = .ok child → Halves parent j value child

/-- A bound on the variable of the branch. -/
theorem Halves.exists_bound {parent child : Model α} {value : α} (h : Halves parent j value child) :
    ∃ (bound : ℤ) (upper : Bool), parent.withBound j (Scalar.ofInt bound) upper = .ok child := by
  cases h with
  | below _ h | above _ h => exact ⟨_, _, h⟩

/-- The problem is one side of a branch at the node, at the variable that its solution is split at. -/
def SplitsTo (setting : Setting α) (node : Node α) (problem : Model α) : Prop :=
  ∃ j value, selectFractional node.solution setting.integerVariables setting.opts.intTol =
    .ok (some (j, value)) ∧ Halves node.problem j value problem

/-- A child of the node, which this call has opened. -/
structure ChildOf (setting : Setting α) (n : ℕ) (parent child : Node α) : Prop where
  splits : SplitsTo setting parent child.problem
  answered : Answered setting n child

/-- What the stage of a search says of its variable: the node in hand is to be split at it. -/
def Stage.Chosen (setting : Setting α) : Stage α → Prop
  | .between | .taken _ => True
  | .split node j value | .half node j value =>
    selectFractional node.solution setting.integerVariables setting.opts.intTol =
      .ok (some (j, value))

theorem Passes.chosen (h : Passes setting p) : p.stage.Chosen setting := by
  refine Passes.induction (P := fun p => p.stage.Chosen setting) ?_ ?_ h
  · rintro p ⟨⟩
    trivial
  · intro p q _ ih hmove
    cases hmove with
    | take | prune | accept | right => trivial
    | split _ hchoice => exact hchoice
    | left => exact ih

theorem calls_of_addChild (hadd : (addChild setting parent j state side bound).outcome = .ok next) :
    next.calls = state.calls + 1 := by
  obtain ⟨problem, children, -, rfl, -⟩ := exists_of_addChild hadd
  rfl

/-- **What is live once a child has been solved**: what was live before, and the child where it is
kept: it has been opened by the next call. -/
theorem live_of_addChild (hheld : before.held = [parent])
    (hafter : ∀ other ∈ after.held, other = parent)
    (hcall : ∀ problem,
      parent.problem.withBound j (Scalar.ofInt bound) (side == .left) = .ok problem →
      SplitsTo setting parent problem ∧ Calls setting (state.calls + 1) problem)
    (hadd : (addChild setting parent j state side bound).outcome = .ok next) :
    ∀ node ∈ Point.live ⟨taken, after, next⟩, node ∈ Point.live ⟨taken, before, state⟩ ∨
      ChildOf setting (state.calls + 1) parent node := by
  obtain ⟨problem, children, hproblem, rfl, hchildren⟩ := exists_of_addChild hadd
  intro node hnode
  simp only [Point.live, List.mem_append] at hnode
  rcases hnode with (hold | hchild) | hhand
  · exact Or.inl (List.mem_append_left _ hold)
  · rcases hchildren with ⟨result, solution, z, hanswer, hstatus, hsolution, hz, rfl⟩ | ⟨-, rfl⟩
    · obtain rfl := List.mem_singleton.mp hchild
      obtain ⟨hsplits, hcalled⟩ := hcall problem hproblem
      exact Or.inr ⟨hsplits, hcalled, ⟨result, hanswer, hstatus, hsolution⟩, z, hz, rfl⟩
    · simp at hchild
  · left
    rw [Point.live, hheld, hafter node hhand]
    exact List.mem_append_right _ (List.mem_singleton_self _)

/-- **The live nodes after a move** were live before, or are children of the node in hand, which the
next call has opened. -/
theorem Step.live (hpasses : Passes setting p) (hmove : Step setting p q) :
    ∀ node ∈ q.live, node ∈ p.live ∨
      q.state.calls = p.state.calls + 1 ∧
        ∃ parent ∈ p.stage.held, ChildOf setting q.state.calls parent node := by
  intro other hother
  have hchosen := hpasses.chosen
  cases hmove with
  | take _ hordered =>
    left
    rw [Point.live, Stage.held, List.append_nil, ← mem_ordered, hordered]
    simpa [Point.live, Stage.held, or_comm] using hother
  | prune | accept =>
    left
    simp only [Point.live, Stage.held, List.append_nil] at hother
    exact List.mem_append_left _ hother
  | split => exact Or.inl hother
  | left hbelow hadd =>
    have hcalls := calls_of_addChild hadd
    exact (live_of_addChild rfl (by simp [Stage.held]) (fun problem hproblem =>
      ⟨⟨_, _, hchosen, .below hbelow hproblem⟩, .left hpasses hbelow hproblem⟩) hadd other
      hother).imp_right fun hchild => ⟨hcalls, _, by simp [Stage.held], hcalls ▸ hchild⟩
  | right habove hadd =>
    have hcalls := calls_of_addChild hadd
    exact (live_of_addChild rfl (by simp [Stage.held]) (fun problem hproblem =>
      ⟨⟨_, _, hchosen, .above habove hproblem⟩, .right hpasses habove hproblem⟩) hadd other
      hother).imp_right fun hchild => ⟨hcalls, _, by simp [Stage.held], hcalls ▸ hchild⟩

/-- **A call after the first is about one side of a branch**, at a node in hand. -/
theorem Calls.cases {n : ℕ} {problem : Model α} (h : Calls setting n problem) :
    problem = setting.model ∨
      ∃ p, Passes setting p ∧ ∃ node ∈ p.stage.held, SplitsTo setting node problem := by
  cases h with
  | root => exact Or.inl rfl
  | left hpasses hbelow hproblem =>
    exact Or.inr ⟨_, hpasses, _, by simp [Stage.held], _, _, hpasses.chosen, .below hbelow hproblem⟩
  | right hpasses habove hproblem =>
    exact Or.inr ⟨_, hpasses, _, by simp [Stage.held], _, _, hpasses.chosen, .above habove hproblem⟩

/-- A move calls the solver once, or not at all. -/
theorem Step.calls_le (hmove : Step setting p q) : p.state.calls ≤ q.state.calls := by
  cases hmove with
  | take | prune | accept | split => exact le_refl _
  | left _ hadd | right _ hadd => exact (calls_of_addChild hadd).symm ▸ Nat.le_succ _

/-- **A move leaves the incumbent, or puts the node in hand in its place**, which is whole and beats
it. -/
theorem Step.incumbent_cases (hmove : Step setting p q) :
    (q.state.incumbent = p.state.incumbent ∧ q.state.history = p.state.history) ∨
      ∃ node ∈ p.stage.held, q.state.incumbent = some node ∧
        q.state.history = p.state.history ++ [node.bound] ∧
        isPruned p.state.incumbent node = false ∧
        selectFractional node.solution setting.integerVariables setting.opts.intTol = .ok none := by
  cases hmove with
  | take | prune | split => exact Or.inl ⟨rfl, rfl⟩
  | accept hkept hwhole => exact Or.inr ⟨_, by simp [Stage.held], rfl, rfl, hkept, hwhole⟩
  | left _ hadd | right _ hadd =>
    obtain ⟨problem, children, -, rfl, -⟩ := exists_of_addChild hadd
    exact Or.inl ⟨rfl, rfl⟩

/-- **What a search keeps has been answered for**: its live nodes, and the incumbent, in whose
solution no variable is left to branch on. The history ends with the incumbent. -/
structure Kept (setting : Setting α) (p : Point α) : Prop where
  live : ∀ node ∈ p.live, ∃ n ≤ p.state.calls, Answered setting n node
  incumbent : ∀ best, p.state.incumbent = some best → (∃ n, Answered setting n best) ∧
    selectFractional best.solution setting.integerVariables setting.opts.intTol = .ok none
  history : p.state.history.getLast? = p.state.incumbent.map (·.bound)

theorem kept_of_starts (h : Starts setting p) : Kept setting p := by
  obtain ⟨hroot, hstatus, hsolution, hobjective, -⟩ := h
  refine ⟨fun node hnode => ?_, by simp, rfl⟩
  obtain rfl : node = _ := by simpa [Point.live, Stage.held] using hnode
  exact ⟨1, le_refl 1, .root, ⟨_, hroot, hstatus, hsolution⟩, _, hobjective, rfl⟩

/-- **Every point keeps what has been answered for.** -/
theorem Passes.kept (h : Passes setting p) : Kept setting p := by
  refine Passes.induction (fun _ => kept_of_starts) (fun p q hpasses ih hmove => ?_) h
  refine ⟨fun node hnode => ?_, fun best hbest => ?_, ?_⟩
  · rcases hmove.live hpasses node hnode with hold | ⟨-, parent, -, hchild⟩
    · obtain ⟨n, hn, hanswered⟩ := ih.live node hold
      exact ⟨n, hn.trans hmove.calls_le, hanswered⟩
    · exact ⟨_, le_refl _, hchild.answered⟩
  · rcases hmove.incumbent_cases with ⟨hsame, -⟩ | ⟨node, hheld, hnew, -, -, hwhole⟩
    · exact ih.incumbent best (hsame ▸ hbest)
    · obtain rfl := Option.some.inj (hbest.symm.trans hnew)
      obtain ⟨n, -, hanswered⟩ := ih.live _ (List.mem_append_right _ hheld)
      exact ⟨⟨n, hanswered⟩, hwhole⟩
  · rcases hmove.incumbent_cases with ⟨hsame, hhistory⟩ | ⟨node, -, hnew, hhistory, -⟩
    · rw [hhistory, hsame, ih.history]
    · rw [hhistory, hnew, List.getLast?_concat]
      rfl

end Live

/-! ## The end of a search -/

section Closing

variable {α : Type} [Scalar α] {setting : Setting α} {state final : State α}
  {taken : List (Node α)} {capped : Bool} {outcome : SearchOutcome α}

/-- **The loop goes from point to point**, and ends at its cap or with nothing open. -/
theorem Passes.of_searchLoop {budget : ℕ} (hpasses : Passes setting ⟨taken, .between, state⟩)
    (hbudget : state.visited.length + budget = setting.opts.maxNodes)
    (h : (searchLoop setting budget state).outcome = .ok (final, capped)) :
    ∃ taken', Passes setting ⟨taken', .between, final⟩ ∧
      (capped = false → final.frontier = []) := by
  induction budget using Nat.strong_induction_on generalizing state taken with
  | _ budget ih =>
    unfold searchLoop at h
    split at h
    · rename_i hempty
      obtain ⟨rfl, -⟩ := Prod.mk.inj (Except.ok.inj h)
      exact ⟨taken, hpasses, fun _ => eq_nil_of_ordered hempty⟩
    · rename_i node rest hordered
      cases budget with
      | zero =>
        simp only [Traced.outcome_bind, outcome_say, ok_bind] at h
        obtain ⟨rfl, rfl⟩ := Prod.mk.inj (Except.ok.inj h)
        exact ⟨taken, hpasses, by simp⟩
      | succ budget =>
        simp only [Traced.outcome_bind] at h
        obtain ⟨next, hvisit, h⟩ := exists_of_bind_eq_ok h
        have htaken := hpasses.step (.take (by omega) hordered)
        have hnext := htaken.of_visit hvisit
        have hvisited := hnext.visited_eq.trans htaken.visited_eq.symm
        refine ih budget (Nat.lt_succ_self _) hnext ?_ h
        rw [show next.visited = state.visited ++ [node.label] from hvisited, List.length_append,
          List.length_singleton]
        omega

/-- What a search says in the end: that there is no incumbent, or the incumbent with its whole
variables moved to integers. -/
theorem conclude_cases (h : conclude setting state capped = .ok outcome) :
    outcome.visited = state.visited ∧ outcome.incumbents = state.history ∧
      ((state.incumbent = none ∧ ∃ count remark, outcome.result =
          .failed (if capped then .iterationLimit else .infeasible) count remark) ∨
        ∃ best snapped value count remark, state.incumbent = some best ∧
          snap best.solution setting.integerVariables setting.opts.intTol = .ok snapped ∧
          outcome.result = .solved .optimalInteger value snapped count remark) := by
  unfold conclude at h
  cases hincumbent : state.incumbent with
  | none =>
    rw [hincumbent] at h
    obtain rfl := Except.ok.inj h
    refine ⟨rfl, rfl, Or.inl ⟨rfl, ?_⟩⟩
    cases capped with
    | false => exact ⟨_, _, rfl⟩
    | true => exact ⟨_, _, rfl⟩
  | some best =>
    rw [hincumbent] at h
    obtain ⟨solution, hsnap, h⟩ := exists_of_bind_eq_ok h
    obtain ⟨objective, -, h⟩ := exists_of_bind_eq_ok h
    obtain rfl := Except.ok.inj h
    exact ⟨rfl, rfl, Or.inr ⟨best, solution, objective, _, _, rfl, hsnap, rfl⟩⟩

/-- **How a search closes.** -/
inductive Closes (setting : Setting α) : SearchOutcome α → Prop
  /-- Something failed on the way. -/
  | failed {cause : Fault α} : Closes setting ⟨.failed .error 0 (.fault cause), [], []⟩
  /-- The answer of the root relaxation is no optimum, or there is nothing to branch on. -/
  | root {root : Result α} : setting.solver 1 setting.model = .ok root →
      (root.status = .optimal → root.solution ≠ none → setting.integerVariables = []) →
      Closes setting ⟨root, [[]], []⟩
  /-- The solution of the root relaxation is nearly whole. -/
  | whole {root : Result α} {solution snapped : List α} {z value : α} {count : ℤ}
      {remark : Message α} :
      setting.solver 1 setting.model = .ok root → root.status = .optimal →
      root.solution = some solution → setting.objective solution = .ok z →
      selectFractional solution setting.integerVariables setting.opts.intTol = .ok none →
      snap solution setting.integerVariables setting.opts.intTol = .ok snapped →
      Closes setting
        ⟨.solved .optimalInteger value snapped count remark, [[]], [setting.factor * z]⟩
  /-- The loop has come to its end, at a point that the search passes. -/
  | searched {taken : List (Node α)} {state : State α} {capped : Bool} {outcome : SearchOutcome α} :
      Passes setting ⟨taken, .between, state⟩ → (capped = true → Capped setting) →
      (capped = false → state.frontier = []) → conclude setting state capped = .ok outcome →
      Closes setting outcome

theorem closes_of_searchFrom {root : Result α} {solution : List α}
    (hroot : setting.solver 1 setting.model = .ok root) (hstatus : root.status = .optimal)
    (hsolution : root.solution = some solution)
    (h : (searchFrom setting root solution).outcome = .ok outcome) : Closes setting outcome := by
  unfold searchFrom at h
  simp only [Traced.outcome_bind, outcome_lift, outcome_line, ok_bind,
    Traced.outcome_ofExcept] at h
  obtain ⟨objective, hobjective, h⟩ := exists_of_bind_eq_ok h
  obtain ⟨-, -, h⟩ := exists_of_bind_eq_ok h
  obtain ⟨choice, hchoice, h⟩ := exists_of_bind_eq_ok h
  cases choice with
  | none =>
    simp only [Traced.outcome_bind, outcome_lift, outcome_say, ok_bind] at h
    obtain ⟨snapped, hsnap, h⟩ := exists_of_bind_eq_ok h
    obtain ⟨value, -, h⟩ := exists_of_bind_eq_ok h
    obtain rfl := Except.ok.inj h
    exact .whole hroot hstatus hsolution hobjective hchoice hsnap
  | some choice =>
    simp only [Traced.outcome_bind, outcome_lift] at h
    obtain ⟨⟨final, capped⟩, hloop, hend⟩ := exists_of_bind_eq_ok h
    have hstarts : Starts setting
        ⟨[], .between, { frontier := [setting.rootNode solution objective], calls := 1 }⟩ :=
      .mk hroot hstatus hsolution hobjective hchoice
    have hstart : Passes setting _ := ⟨_, hstarts, .refl⟩
    obtain ⟨taken, hpasses, hempty⟩ := hstart.of_searchLoop (by simp) hloop
    refine .searched hpasses (fun hcapped => ?_) hempty hend
    exact ⟨_, final, hstarts, hcapped ▸ hloop⟩

theorem closes_of_searchModel (h : (searchModel setting).outcome = .ok outcome) :
    Closes setting outcome := by
  unfold searchModel at h
  simp only [Traced.outcome_bind, outcome_lift] at h
  obtain ⟨root, hroot, h⟩ := exists_of_bind_eq_ok h
  split at h
  · rename_i solution hstatus hsolution
    split at h
    · rename_i hempty
      obtain rfl := Except.ok.inj h
      exact .root hroot fun _ _ => List.isEmpty_iff.mp hempty
    · exact closes_of_searchFrom hroot hstatus hsolution h
  · rename_i hother
    simp only [Traced.outcome_bind, outcome_say, ok_bind] at h
    obtain rfl := Except.ok.inj h
    refine .root hroot fun hstatus hsolution => ?_
    obtain ⟨solution, hsome⟩ := Option.ne_none_iff_exists'.mp hsolution
    exact absurd hsome (hother solution hstatus)

/-- **Every search has an outcome**, and closes in one of these ways. -/
theorem exists_closes_searchWith (observer : Observer) (opts : Options α) (solver : Solver α)
    (model : Model α) :
    ∃ outcome, (searchWith observer opts solver model).outcome = .ok outcome ∧
      Closes ⟨observer, opts, solver, model⟩ outcome := by
  unfold searchWith
  simp only [Traced.outcome_bind, outcome_header, ok_bind, Traced.outcome_attempt]
  cases hsearch : (searchModel ⟨observer, opts, solver, model⟩).outcome with
  | ok outcome => exact ⟨outcome, rfl, closes_of_searchModel hsearch⟩
  | error cause =>
    simp only [Traced.outcome_bind, outcome_line, ok_bind]
    exact ⟨_, rfl, .failed⟩

theorem closes_of_searchWith {observer : Observer} {opts : Options α} {solver : Solver α}
    {model : Model α} (h : (searchWith observer opts solver model).outcome = .ok outcome) :
    Closes ⟨observer, opts, solver, model⟩ outcome := by
  obtain ⟨outcome', houtcome, hcloses⟩ := exists_closes_searchWith observer opts solver model
  obtain rfl := Except.ok.inj (h.symm.trans houtcome)
  exact hcloses

end Closing

end BranchAndBound

end LinOpt
