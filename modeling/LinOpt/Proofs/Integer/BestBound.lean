import LinOpt.Proofs.Integer.Search
import LinOpt.Proofs.Sorting
/-!
# Best-bound search

The node of the best bound is taken first. Where a bound row never improves the value of a
relaxation (`NeverImproves`), the bounds of the nodes taken never rise, and the first whole node
taken is the only incumbent: every node after it is pruned, and the solver is not called again
(`searchWith_bestBound`).

The assumption is met by a solver that answers with the best feasible one of some points, always the
same ones (`PicksBest.neverImproves`); an exact solver of relaxations does so with all points.
-/

namespace LinOpt

namespace BranchAndBound

section Bounds

variable {setting : Setting ℚ} {node : Node ℚ} {p q : Point ℚ}

/-- The answer to the call is an optimum of this objective. -/
def Worth (setting : Setting ℚ) (n : ℕ) (problem : Model ℚ) (z : ℚ) : Prop :=
  ∃ result solution, setting.solver n problem = .ok result ∧ result.status = .optimal ∧
    result.solution = some solution ∧ setting.objective solution = .ok z

/-- **A bound row never improves the value**: a later answer to a problem with one more bound is no
better than the answer to the problem. -/
def NeverImproves (setting : Setting ℚ) : Prop :=
  ∀ ⦃n m : ℕ⦄ ⦃parent child : Model ℚ⦄ ⦃j : ℤ⦄ ⦃value : ℚ⦄ ⦃upper : Bool⦄ ⦃z z' : ℚ⦄, n < m →
    Calls setting n parent → Calls setting m child → parent.withBound j value upper = .ok child →
    Worth setting n parent z → Worth setting m child z' → setting.factor * z' ≤ setting.factor * z

/-- A node is worth its bound, in the answer that it holds. -/
theorem Answered.exists_worth {n : ℕ} (h : Answered setting n node) :
    ∃ z, Worth setting n node.problem z ∧ node.bound = setting.factor * z := by
  obtain ⟨result, hanswer, hstatus, hsolution⟩ := h.answer
  obtain ⟨z, hz, hbound⟩ := h.bound_eq
  exact ⟨z, ⟨result, _, hanswer, hstatus, hsolution, hz⟩, hbound⟩

/-- **A child is no better than its parent**, where a bound never improves the value. -/
theorem bound_le_of_childOf (hnever : NeverImproves setting) {n m : ℕ} {parent child : Node ℚ}
    (hlt : n < m) (hparent : Answered setting n parent) (hchild : ChildOf setting m parent child) :
    child.bound ≤ parent.bound := by
  obtain ⟨j, value, -, hhalves⟩ := hchild.splits
  obtain ⟨bound, upper, hproblem⟩ := hhalves.exists_bound
  obtain ⟨z, hworth, hz⟩ := hparent.exists_worth
  obtain ⟨z', hworth', hz'⟩ := hchild.answered.exists_worth
  rw [hz, hz']
  exact hnever hlt hparent.calls hchild.answered.calls hproblem hworth hworth'

/-- Is the solver called next? -/
def Stage.Solves : Stage ℚ → Prop
  | .between | .taken _ => False
  | .split _ _ _ | .half _ _ _ => True

/-- **What every move keeps.** No live node is better than a taken one, and there is no splitting
with an incumbent, which is the only one so far. -/
structure Descends (setting : Setting ℚ) (p : Point ℚ) : Prop where
  held : ∀ node ∈ p.stage.held, node ∈ p.taken
  falling : (p.taken.map (·.bound)).Pairwise (· ≥ ·)
  below : ∀ node ∈ p.live, ∀ earlier ∈ p.taken, node.bound ≤ earlier.bound
  incumbent : ∀ best, p.state.incumbent = some best → best ∈ p.taken ∧ ¬ p.stage.Solves
  history : p.state.history = p.state.incumbent.toList.map (·.bound)

/-! ## Order -/

theorem weakOrder_bound :
    Sorting.WeakOrder fun a b : Node ℚ => decide (b.bound < a.bound) where
  asymm := by
    intro a b h
    simp only [decide_eq_true_eq, decide_eq_false_iff_not, not_lt] at h ⊢
    exact h.le
  trans := by
    intro a b c hab hbc
    simp only [decide_eq_false_iff_not, not_lt] at hab hbc ⊢
    exact hbc.trans hab

/-- The node taken has the best bound. -/
theorem bound_le_of_ordered {frontier rest : List (Node ℚ)} (h : ordered frontier = node :: rest) :
    ∀ other ∈ rest, other.bound ≤ node.bound := by
  intro other hother
  have horder := Sorting.byInsertion_inOrder weakOrder_bound frontier
  change Sorting.InOrder _ (ordered frontier) at horder
  rw [h] at horder
  simpa using (List.pairwise_cons.mp horder).1 other hother

/-- **A live node after an incumbent is pruned.** -/
theorem Descends.isPruned (h : Descends setting p) (hnode : node ∈ p.live) {best : Node ℚ}
    (hbest : p.state.incumbent = some best) : isPruned p.state.incumbent node = true := by
  have hle := h.below node hnode best (h.incumbent best hbest).1
  have htol := pruneTolerance_nonneg
  rw [hbest]
  simp only [BranchAndBound.isPruned, decide_eq_true_eq]
  linarith

theorem Descends.incumbent_eq_none (h : Descends setting p) (hnode : node ∈ p.live)
    (hkept : BranchAndBound.isPruned p.state.incumbent node = false) :
    p.state.incumbent = none := by
  rw [Option.eq_none_iff_forall_ne_some]
  intro best hbest
  rw [h.isPruned hnode hbest] at hkept
  simp at hkept

/-! ## Moves -/

/-- The search starts with nothing taken. -/
theorem descends_of_starts (h : Starts setting p) : Descends setting p := by
  obtain ⟨-, -, -, -, -⟩ := h
  exact ⟨by simp [Stage.held], List.Pairwise.nil, by simp, by simp, rfl⟩

/-- The node taken is no better than those before it, and those left are no better than it. -/
theorem Descends.take {taken rest : List (Node ℚ)} {state : State ℚ}
    (h : Descends setting ⟨taken, .between, state⟩)
    (hordered : ordered state.frontier = node :: rest) :
    Descends setting ⟨taken ++ [node], .taken node,
      { state with frontier := rest, visited := state.visited ++ [node.label] }⟩ := by
  have hmem : ∀ other, other ∈ rest ++ [node] → other ∈ state.frontier ++ [] := by
    intro other hother
    rw [List.append_nil, ← mem_ordered, hordered]
    simpa [or_comm] using hother
  have hbest : ∀ other ∈ rest ++ [node], other.bound ≤ node.bound := by
    intro other hother
    rcases List.mem_append.mp hother with hother | hother
    · exact bound_le_of_ordered hordered other hother
    · rw [List.mem_singleton.mp hother]
  refine ⟨by simp [Stage.held], ?_, ?_, ?_, h.history⟩
  · rw [List.map_append]
    refine List.pairwise_append.mpr ⟨h.falling, List.pairwise_singleton _ _, ?_⟩
    intro earlier hearlier bound hbound
    obtain ⟨first, hfirst, rfl⟩ := List.mem_map.mp hearlier
    rw [List.map_singleton, List.mem_singleton] at hbound
    rw [hbound]
    exact h.below node (hmem node (by simp)) first hfirst
  · intro other hother earlier hearlier
    rcases List.mem_append.mp hearlier with hearlier | hearlier
    · exact h.below other (hmem other hother) earlier hearlier
    · rw [List.mem_singleton.mp hearlier]
      exact hbest other hother
  · intro best hincumbent
    exact ⟨List.mem_append_left _ (h.incumbent best hincumbent).1, id⟩

/-- **A live node after a move is no better than any node taken before**: it was live then, or is a
child of the node in hand. -/
theorem Descends.below_of_step (hnever : NeverImproves setting) (hpasses : Passes setting p)
    (h : Descends setting p) (hmove : Step setting p q) :
    ∀ node ∈ q.live, ∀ earlier ∈ p.taken, node.bound ≤ earlier.bound := by
  intro node hnode earlier hearlier
  rcases hmove.live hpasses node hnode with hold | ⟨hcalls, parent, hheld, hchild⟩
  · exact h.below node hold earlier hearlier
  · have hlive : parent ∈ p.live := List.mem_append_right _ hheld
    obtain ⟨n, hn, hparent⟩ := hpasses.kept.live parent hlive
    have hlt : n < q.state.calls := by omega
    exact (bound_le_of_childOf hnever hlt hparent hchild).trans
      (h.below parent hlive earlier hearlier)

/-- **Every move keeps the order.** -/
theorem Descends.step (hnever : NeverImproves setting) (hpasses : Passes setting p)
    (h : Descends setting p) (hmove : Step setting p q) : Descends setting q := by
  have hbelow := h.below_of_step hnever hpasses hmove
  cases hmove with
  | take _ hordered => exact h.take hordered
  | prune _ =>
    exact ⟨by simp [Stage.held], h.falling, hbelow,
      fun best hbest => ⟨(h.incumbent best hbest).1, id⟩, h.history⟩
  | @accept taken state node hkept hwhole =>
    have hheld : node ∈ Stage.held (.taken node) := by simp [Stage.held]
    have hnone : state.incumbent = none :=
      h.incumbent_eq_none (List.mem_append_right _ hheld) hkept
    have hhistory : state.history = [] := by
      rw [h.history, hnone]
      rfl
    refine ⟨by simp [Stage.held], h.falling, hbelow, fun best hbest => ?_, by simp [hhistory]⟩
    obtain rfl := Option.some.inj hbest
    exact ⟨h.held _ hheld, id⟩
  | @split taken state node j value hkept hchoice =>
    have hnone : state.incumbent = none :=
      h.incumbent_eq_none (List.mem_append_right _ (by simp [Stage.held])) hkept
    refine ⟨h.held, h.falling, hbelow, ?_, h.history⟩
    exact fun best hbest => absurd (hnone.symm.trans hbest) (by simp)
  | left _ hadd =>
    obtain ⟨problem, children, -, rfl, -⟩ := exists_of_addChild hadd
    exact ⟨h.held, h.falling, hbelow, h.incumbent, h.history⟩
  | right _ hadd =>
    obtain ⟨problem, children, -, rfl, -⟩ := exists_of_addChild hadd
    exact ⟨by simp [Stage.held], h.falling, hbelow,
      fun best hbest => ⟨(h.incumbent best hbest).1, id⟩, h.history⟩

theorem Passes.descends (hnever : NeverImproves setting) (h : Passes setting p) :
    Descends setting p :=
  Passes.induction (fun _ => descends_of_starts)
    (fun _ _ hpasses hp hmove => hp.step hnever hpasses hmove) h

/-! ## After an incumbent -/

/-- **With an incumbent nodes are only taken and pruned.** -/
theorem Descends.calls_eq (h : Descends setting p) {best : Node ℚ}
    (hbest : p.state.incumbent = some best) (hmove : Step setting p q) :
    q.state.incumbent = some best ∧ q.state.calls = p.state.calls := by
  cases hmove with
  | take _ _ => exact ⟨hbest, rfl⟩
  | prune _ => exact ⟨hbest, rfl⟩
  | accept hkept _ =>
    have hnone := h.incumbent_eq_none (List.mem_append_right _ (by simp [Stage.held])) hkept
    exact absurd (hnone.symm.trans hbest) (by simp)
  | split _ _ => exact ⟨hbest, rfl⟩
  | left _ _ => exact absurd trivial (h.incumbent best hbest).2
  | right _ _ => exact absurd trivial (h.incumbent best hbest).2

/-- The search after a point with an incumbent: it calls the solver no more. -/
theorem quiet_of_passes (hnever : NeverImproves setting) (hpasses : Passes setting p)
    {best : Node ℚ} (hbest : p.state.incumbent = some best)
    (hmoves : Relation.ReflTransGen (Step setting) p q) :
    Passes setting q ∧ q.state.incumbent = some best ∧ q.state.calls = p.state.calls := by
  induction hmoves with
  | refl => exact ⟨hpasses, hbest, rfl⟩
  | tail _ hmove ih =>
    obtain ⟨hpassed, hincumbent, hcalls⟩ := ih
    obtain ⟨hincumbent', hcalls'⟩ := (hpassed.descends hnever).calls_eq hincumbent hmove
    exact ⟨hpassed.step hmove, hincumbent', hcalls'.trans hcalls⟩

/-- **Best-bound search accepts one incumbent at most.** Where a bound row never improves the value
of a relaxation, the bounds of the nodes never rise in the order in which they are taken, and after
an incumbent the solver is not called again. -/
theorem searchWith_bestBound (observer : Observer) (opts : Options ℚ) (solver : Solver ℚ)
    (model : Model ℚ) (hnever : NeverImproves ⟨observer, opts, solver, model⟩) :
    (∀ p, Passes ⟨observer, opts, solver, model⟩ p →
      p.state.visited = p.taken.map (·.label) ∧
      (p.taken.map (·.bound)).Pairwise (· ≥ ·) ∧
      p.state.history.length ≤ 1 ∧
      (p.state.incumbent ≠ none → ∀ q,
        Relation.ReflTransGen (Step ⟨observer, opts, solver, model⟩) p q →
          ¬ q.stage.Solves ∧ q.state.calls = p.state.calls)) ∧
      ∃ outcome, (searchWith observer opts solver model).outcome = .ok outcome ∧
        outcome.incumbents.length ≤ 1 := by
  have hhistory : ∀ p, Passes ⟨observer, opts, solver, model⟩ p → p.state.history.length ≤ 1 := by
    intro p hp
    rw [(hp.descends hnever).history, List.length_map]
    cases p.state.incumbent <;> simp
  refine ⟨fun p hp => ⟨hp.visited_eq, (hp.descends hnever).falling, hhistory p hp, ?_⟩, ?_⟩
  · intro hsome q hmoves
    obtain ⟨best, hbest⟩ := Option.ne_none_iff_exists'.mp hsome
    obtain ⟨hpassed, hincumbent, hcalls⟩ := quiet_of_passes hnever hp hbest hmoves
    exact ⟨((hpassed.descends hnever).incumbent best hincumbent).2, hcalls⟩
  · obtain ⟨outcome, houtcome, hcloses⟩ := exists_closes_searchWith observer opts solver model
    refine ⟨outcome, houtcome, ?_⟩
    cases hcloses with
    | failed | root | whole => simp
    | searched hpasses _ _ hend =>
      rw [(conclude_cases hend).2.1]
      exact hhistory _ hpasses

end Bounds

/-! ## Solvers that pick the best -/

section Solvers

variable {setting : Setting ℚ} {problem : Model ℚ}

/-- A bound is a row. -/
theorem exists_row_of_withBound {model child : Model ℚ} {j : ℤ} {value : ℚ} {upper : Bool}
    (h : model.withBound j value upper = .ok child) :
    ∃ row : ExtraRow, row.Fits model.variableCount ∧ child = model.extend [row] := by
  unfold Model.withBound at h
  obtain ⟨coefficients, -, h⟩ := exists_of_bind_eq_ok h
  unfold Model.withRow at h
  split at h
  · cases h
  · rename_i hlength
    refine ⟨⟨coefficients, if upper then .le else .ge, value⟩, ⟨not_not.mp hlength, ?_⟩,
      (Except.ok.inj h).symm⟩
    cases upper <;> rfl

/-- An optimum is the best feasible one of the candidates. -/
def PicksBest (setting : Setting ℚ) (candidates : Set (List ℚ)) : Prop :=
  ∀ n problem result solution, setting.solver n problem = .ok result → result.status = .optimal →
    result.solution = some solution →
    (solution ∈ candidates ∧ problem.Feasible solution) ∧
      ∀ x ∈ candidates, problem.Feasible x → setting.model.gain x ≤ setting.model.gain solution

/-- **Such a solver never improves by a bound**: the points that meet it were there before. -/
theorem PicksBest.neverImproves {candidates : Set (List ℚ)} (hsized : setting.model.Sized)
    (h : PicksBest setting candidates) : NeverImproves setting := by
  intro n m parent child j value upper z z' _ hparent _ hchild hworth hworth'
  obtain ⟨result, solution, hanswer, hstatus, hsolution, hz⟩ := hworth
  obtain ⟨result', solution', hanswer', hstatus', hsolution', hz'⟩ := hworth'
  obtain ⟨⟨hcandidate, hfeasible⟩, -⟩ := h m child _ _ hanswer' hstatus' hsolution'
  obtain ⟨row, -, rfl⟩ := exists_row_of_withBound hchild
  obtain ⟨bounds, hbranched⟩ := hparent.branched hsized
  have hbefore := ((Model.feasible_extend_iff (hbranched.sized hsized)).mp hfeasible).1
  rw [objective_eq hz, objective_eq hz']
  exact (h n parent _ _ hanswer hstatus hsolution).2 solution' hcandidate hbefore

/-- Answers with the first feasible one of some points. -/
def firstOf (candidates : List (List ℚ)) : Solver ℚ := fun _ problem =>
  match candidates.find? (problem.Feasible ·) with
  | some point =>
    .ok { status := .optimal, objective := some (dot problem.costs point), solution := some point }
  | none => .ok { status := .infeasible }

/-- The first feasible point is the best one where the points come in the order of their gain. -/
theorem picksBest_firstOf (observer : Observer) (opts : Options ℚ) {candidates : List (List ℚ)}
    {model : Model ℚ} (hsorted : candidates.Pairwise fun x y => model.gain y ≤ model.gain x) :
    PicksBest ⟨observer, opts, firstOf candidates, model⟩ {x | x ∈ candidates} := by
  intro n problem result solution hanswer hstatus hsolution
  change firstOf candidates n problem = .ok result at hanswer
  unfold firstOf at hanswer
  split at hanswer
  · rename_i point hfind
    obtain rfl := Except.ok.inj hanswer
    obtain rfl : point = solution := Option.some.inj hsolution
    refine ⟨⟨List.mem_of_find?_eq_some hfind, by simpa using List.find?_some hfind⟩, ?_⟩
    obtain ⟨-, before, after, rfl, hbefore⟩ := List.find?_eq_some_iff_append.mp hfind
    intro x hx hfeasible
    rcases List.mem_append.mp hx with hx | hx
    · exact absurd hfeasible (by simpa using hbefore x hx)
    · rcases List.mem_cons.mp hx with rfl | hx
      · exact le_refl _
      · exact (List.pairwise_cons.mp (List.pairwise_append.mp hsorted).2.1).1 x hx
  · obtain rfl := Except.ok.inj hanswer
    simp at hstatus

/-- Maximise `x + y` under `2 x + 2 y ≤ 3`, with both whole. -/
def pairModel : Model ℚ :=
  { sense := .max
    rows := [[2, 2]]
    rhs := [3]
    costs := [1, 1]
    signs := [.le]
    kinds := [.int, .int] }

/-- Corners of `pairModel` and of its branches, the best ones first. -/
def pairCorners : List (List ℚ) :=
  [[3 / 2, 0], [0, 3 / 2], [1, 1 / 2], [1 / 2, 1], [1, 0], [0, 1], [0, 0]]

/-- The search of `pairModel`. -/
def pairSetting : Setting ℚ := ⟨.silent, {}, firstOf pairCorners, pairModel⟩

/-- The search of `pairModel` takes four nodes of bound 3/2, then a whole one of bound one, which
becomes the incumbent, and then another, which is pruned. -/
theorem searchWith_bestBound_pairModel :
    NeverImproves pairSetting ∧
      (∃ p, Passes pairSetting p ∧ p.state.visited.length = 6 ∧ p.state.history = [1] ∧
        (p.taken.map (·.bound)).Pairwise (· ≥ ·)) ∧
      ∃ outcome, (searchWith .silent {} (firstOf pairCorners) pairModel).outcome = .ok outcome ∧
        outcome.result.status = .optimalInteger ∧ outcome.incumbents = [1] := by
  have hnever : NeverImproves pairSetting :=
    (picksBest_firstOf _ _ (by decide +kernel)).neverImproves (Model.Valid.sized (by decide))
  obtain ⟨hpoints, -⟩ := searchWith_bestBound .silent {} (firstOf pairCorners) pairModel hnever
  obtain ⟨outcome, houtcome, hcloses⟩ :=
    exists_closes_searchWith .silent {} (firstOf pairCorners) pairModel
  have hvalues : ((searchWith .silent {} (firstOf pairCorners) pairModel).outcome.map fun outcome =>
      (outcome.result.status, outcome.visited.length, outcome.incumbents)) =
        .ok (.optimalInteger, 6, [1]) := by
    decide +kernel
  rw [houtcome] at hvalues
  obtain ⟨hstatus, hvalues⟩ := Prod.mk.inj (Except.ok.inj hvalues)
  obtain ⟨hvisited, hincumbents⟩ := Prod.mk.inj hvalues
  refine ⟨hnever, ?_, outcome, houtcome, hstatus, hincumbents⟩
  cases hcloses with
  | failed | root | whole => simp at hvisited
  | searched hpasses _ _ hend =>
    obtain ⟨heq, heq', -⟩ := conclude_cases hend
    obtain ⟨-, hfalling, -⟩ := hpoints _ hpasses
    exact ⟨_, hpasses, heq ▸ hvisited, heq' ▸ hincumbents, hfalling⟩

end Solvers

end BranchAndBound

end LinOpt
