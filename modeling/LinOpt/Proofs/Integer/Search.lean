import LinOpt.Proofs.Extension
import LinOpt.Proofs.Integer.Points
/-!
# Branch and bound loses no whole point

Every problem of a search is the model with bounds on its whole variables (`Passes.branched`). A whole
point of the model always has a place (`Place`): it is in sight, in an open node or in what the node
in hand still stands for; it lies in a child that has been dropped; or it lies in a node that the
incumbent matches. Every move keeps that (`Step.place`): a whole point meets one of the two bounds of
a branch, its child is opened or dropped, and a node is only pruned, or its incumbent replaced, where
the incumbent is as good. Nothing is asked of the solver for that.

Where the solver is sound on the calls that the search makes (`SoundAt`), a dropped child has no whole
points and the bound of a node is at least the gain of its own. So when no node is open any more, the
incumbent matches every whole point (`searchWith_conclusive`).
-/

namespace LinOpt

/-! ## Problems with bounds -/

/-- The row bounds a variable that must be whole, at a whole number. -/
def Model.IsBranch (model : Model ℚ) (row : ExtraRow) : Prop :=
  ∃ k ∈ model.integerIndices, ∃ (z : ℤ) (upper : Bool),
    row = .bound model.variableCount k z upper

/-- **The problem is the model with bounds on its whole variables.** -/
structure Model.Branched (model : Model ℚ) (bounds : List ExtraRow) (problem : Model ℚ) :
    Prop where
  eq_extend : problem = model.extend bounds
  isBranch : ∀ row ∈ bounds, model.IsBranch row

namespace Model.Branched

variable {model problem : Model ℚ} {bounds : List ExtraRow}

theorem refl (model : Model ℚ) : model.Branched [] model := ⟨(model.extend_nil).symm, by simp⟩

theorem fits (h : model.Branched bounds problem) :
    ∀ row ∈ bounds, row.Fits model.variableCount := by
  intro row hrow
  obtain ⟨k, -, z, upper, rfl⟩ := h.isBranch row hrow
  exact ExtraRow.fits_bound _ _ _ _

theorem valid (h : model.Branched bounds problem) (hvalid : model.Valid) : problem.Valid := by
  rw [h.eq_extend]
  exact hvalid.extend h.fits

theorem sized (h : model.Branched bounds problem) (hsized : model.Sized) : problem.Sized := by
  rw [h.eq_extend]
  exact hsized.extend h.fits

theorem integerIndices_eq (h : model.Branched bounds problem) :
    problem.integerIndices = model.integerIndices := by
  rw [h.eq_extend]
  rfl

theorem gain_eq (h : model.Branched bounds problem) (p : List ℚ) :
    problem.gain p = model.gain p := by
  rw [h.eq_extend, gain_extend]

/-- The whole points of the problem are whole points of the model. -/
theorem point (h : model.Branched bounds problem) (hsized : model.Sized) {p : List ℚ}
    (hp : problem.IntegerFeasible p) : model.IntegerFeasible p := by
  rw [h.eq_extend] at hp
  exact ((integerFeasible_extend_iff hsized).mp hp).1

protected theorem bounded (h : model.Branched bounds problem) {k : ℕ} (hk : k ∈ model.integerIndices)
    (z : ℤ) (upper : Bool) :
    model.Branched (bounds ++ [.bound model.variableCount k z upper])
      (problem.bounded k z upper) where
  eq_extend := by
    rw [h.eq_extend, bounded_eq, extend_extend]
    rfl
  isBranch := by
    intro row hrow
    rcases List.mem_append.mp hrow with hold | hnew
    · exact h.isBranch row hold
    · obtain rfl := List.mem_singleton.mp hnew
      exact ⟨k, hk, z, upper, rfl⟩

end Model.Branched

namespace BranchAndBound

/-! ## The problems of a search -/

section Problems

open Model

variable {setting : Setting ℚ} {node : Node ℚ} {p q : Point ℚ} {parent problem : Model ℚ}
  {bounds : List ExtraRow} {j bound : ℤ} {upper : Bool}

/-- A problem with one more bound on a whole variable. -/
theorem exists_branched (hsized : setting.model.Sized)
    (hbranched : setting.model.Branched bounds parent) (hj : j ∈ setting.integerVariables)
    (h : parent.withBound j (bound : ℚ) upper = .ok problem) :
    ∃ more, more ≠ [] ∧ setting.model.Branched more problem := by
  obtain ⟨k, hk, rfl⟩ := List.mem_map.mp hj
  have hcount : parent.variableCount = setting.model.variableCount := by
    rw [hbranched.eq_extend]
    rfl
  have hlt : k < parent.variableCount := by
    rw [hcount]
    exact lt_of_mem_integerIndices hsized hk
  obtain rfl := Except.ok.inj ((withBound_eq hlt _ upper).symm.trans h)
  exact ⟨_, by simp, hbranched.bounded hk bound upper⟩

/-- Each side of a branch has one bound more. -/
theorem SplitsTo.exists_branched (hsized : setting.model.Sized)
    (hbranched : setting.model.Branched bounds node.problem)
    (h : SplitsTo setting node problem) :
    ∃ more, more ≠ [] ∧ setting.model.Branched more problem := by
  obtain ⟨j, value, hchoice, hhalves⟩ := h
  obtain ⟨bound, upper, hproblem⟩ := hhalves.exists_bound
  exact BranchAndBound.exists_branched hsized hbranched (mem_of_selectFractional hchoice) hproblem

/-- **Every live node holds the model with bounds on its whole variables.** -/
theorem Passes.branched (hsized : setting.model.Sized) (h : Passes setting p) :
    ∀ node ∈ p.live, ∃ bounds, setting.model.Branched bounds node.problem := by
  refine Passes.induction
    (P := fun p => ∀ node ∈ p.live, ∃ bounds, setting.model.Branched bounds node.problem) ?_ ?_ h
  · rintro p ⟨-, -, -, -, -⟩ node hnode
    obtain rfl : node = _ := by simpa [Point.live, Stage.held] using hnode
    exact ⟨[], .refl _⟩
  · intro p q hpasses ih hmove node hnode
    rcases hmove.live hpasses node hnode with hold | ⟨-, parent, hheld, hchild⟩
    · exact ih node hold
    · obtain ⟨bounds, hbranched⟩ := ih parent (List.mem_append_right _ hheld)
      obtain ⟨more, -, hmore⟩ := hchild.splits.exists_branched hsized hbranched
      exact ⟨more, hmore⟩

/-- Every call is about the model with bounds on its whole variables. -/
theorem Calls.branched (hsized : setting.model.Sized) {n : ℕ} (h : Calls setting n problem) :
    ∃ bounds, setting.model.Branched bounds problem := by
  rcases h.cases with rfl | ⟨p, hpasses, node, hheld, hsplits⟩
  · exact ⟨[], .refl _⟩
  · obtain ⟨bounds, hbranched⟩ := hpasses.branched hsized node (List.mem_append_right _ hheld)
    obtain ⟨more, -, hmore⟩ := hsplits.exists_branched hsized hbranched
    exact ⟨more, hmore⟩

end Problems

/-! ## Where the whole points are -/

section Places

open Model

variable {setting : Setting ℚ} {node : Node ℚ} {state next : State ℚ} {p q : Point ℚ}
  {taken : List (Node ℚ)} {j bound : ℤ} {value : ℚ} {side : Side} {after : Stage ℚ} {x : List ℚ}

/-- **The search drops the problem**: a child, asked for in some call whose answer is no optimum. -/
structure Drops (setting : Setting ℚ) (problem : Model ℚ) : Prop where
  branched : ∃ bounds, bounds ≠ [] ∧ setting.model.Branched bounds problem
  dropped : ∃ n, Calls setting n problem ∧ ∀ result, setting.solver n problem = .ok result →
    result.status = .optimal → result.solution = none

/-- The point is one that the node in hand still stands for: any of its own, and once the child below
the value has been solved, one of the other child. -/
def Stage.Awaits : Stage ℚ → List ℚ → Prop
  | .between, _ => False
  | .taken node, x | .split node _ _, x => node.problem.IntegerFeasible x
  | .half node j value, x =>
    ∃ problem, node.problem.withBound j ((-(-value).floor : ℤ) : ℚ) false = .ok problem ∧
      problem.IntegerFeasible x

/-- The point is in sight: in an open node, or one that the node in hand stands for. -/
def Point.InSight (p : Point ℚ) (x : List ℚ) : Prop :=
  (∃ node ∈ p.state.frontier, node.problem.IntegerFeasible x) ∨ p.stage.Awaits x

/-- With nothing open and no node in hand, no point is in sight. -/
theorem Point.not_inSight (hempty : state.frontier = []) :
    ¬ Point.InSight ⟨taken, .between, state⟩ x := by
  rintro (⟨node, hnode, -⟩ | hawaits)
  · have hnode' : node ∈ state.frontier := hnode
    rw [hempty] at hnode'
    cases hnode'
  · exact hawaits

/-- **The place of a whole point in a search.** -/
inductive Place (setting : Setting ℚ) (p : Point ℚ) (x : List ℚ) : Prop
  /-- It is in sight. -/
  | inSight : p.InSight x → Place setting p x
  /-- It lies in a child that has been dropped. -/
  | dropped {problem : Model ℚ} : Drops setting problem → problem.IntegerFeasible x →
      Place setting p x
  /-- It lies in a node that the incumbent matches. -/
  | matched {node best : Node ℚ} {n : ℕ} : Answered setting n node →
      node.problem.IntegerFeasible x → p.state.incumbent = some best →
      node.bound ≤ best.bound + pruneTolerance → Place setting p x

theorem pruneTolerance_nonneg : (0 : ℚ) ≤ pruneTolerance := by
  decide +kernel

/-- A node is pruned where the incumbent matches it. -/
theorem isPruned_iff {incumbent : Option (Node ℚ)} : isPruned incumbent node = true ↔
    ∃ best, incumbent = some best ∧ node.bound ≤ best.bound + pruneTolerance := by
  cases incumbent with
  | none => simp [isPruned, Scalar.isInfinite]
  | some best => simp [isPruned]

/-- An open node stays open, unless it is the one taken. -/
theorem Step.mem_frontier (hmove : Step setting p q) (hnode : node ∈ p.state.frontier) :
    node ∈ q.state.frontier ∨ q.stage = .taken node := by
  cases hmove with
  | take _ hordered =>
    rw [← mem_ordered, hordered] at hnode
    rcases List.mem_cons.mp hnode with rfl | hrest
    · exact Or.inr rfl
    · exact Or.inl hrest
  | prune | accept | split => exact Or.inl hnode
  | left _ hadd | right _ hadd =>
    obtain ⟨problem, children, -, rfl, -⟩ := exists_of_addChild hadd
    exact Or.inl (List.mem_append_left _ hnode)

/-- **A whole point of a child is in its node, or dropped with it.** -/
theorem place_of_addChild (hsized : setting.model.Sized)
    (hbranched : ∃ bounds, setting.model.Branched bounds node.problem)
    (hj : j ∈ setting.integerVariables)
    (hcall : ∀ problem, node.problem.withBound j (bound : ℚ) (side == .left) = .ok problem →
      Calls setting (state.calls + 1) problem)
    (hadd : (addChild setting node j state side bound).outcome = .ok next)
    {problem : Model ℚ}
    (hproblem : node.problem.withBound j (bound : ℚ) (side == .left) = .ok problem)
    (hx : problem.IntegerFeasible x) : Place setting ⟨taken, after, next⟩ x := by
  obtain ⟨problem', children, hproblem', rfl, hchildren⟩ := exists_of_addChild hadd
  obtain rfl := Except.ok.inj (hproblem.symm.trans hproblem')
  rcases hchildren with ⟨result, solution, z, -, -, -, -, rfl⟩ | ⟨hother, rfl⟩
  · exact .inSight (Or.inl ⟨_, List.mem_append_right _ (List.mem_singleton_self _), hx⟩)
  · obtain ⟨bounds, hbounds⟩ := hbranched
    exact .dropped ⟨exists_branched hsized hbounds hj hproblem, _, hcall _ hproblem, hother⟩ hx

/-- **A whole point that the node in hand stands for keeps a place**: the node is pruned or becomes
the incumbent, or the point meets one of the two bounds of the branch. -/
theorem Step.place_of_awaits (hsized : setting.model.Sized) (hpasses : Passes setting p)
    (hmove : Step setting p q) (hx : p.stage.Awaits x) : Place setting q x := by
  have hkept := hpasses.kept
  have hbranched : ∀ node ∈ p.stage.held, ∃ bounds, setting.model.Branched bounds node.problem :=
    fun node hheld => hpasses.branched hsized node (List.mem_append_right _ hheld)
  cases hmove with
  | take => exact absurd hx id
  | @prune taken state node hpruned =>
    obtain ⟨n, -, hanswered⟩ := hkept.live node (by simp [Point.live, Stage.held])
    obtain ⟨best, hbest, hle⟩ := isPruned_iff.mp hpruned
    exact .matched hanswered hx hbest hle
  | @accept taken state node _ _ =>
    obtain ⟨n, -, hanswered⟩ := hkept.live node (by simp [Point.live, Stage.held])
    exact .matched hanswered hx rfl (le_add_of_nonneg_right pruneTolerance_nonneg)
  | split => exact .inSight (Or.inr hx)
  | @left taken state next node j below value hbelow hadd =>
    obtain rfl : value.floor = below := Except.ok.inj hbelow
    have hj := mem_of_selectFractional hpasses.chosen
    have hnode := hbranched node (by simp [Stage.held])
    obtain ⟨k, hk, rfl⟩ := List.mem_map.mp hj
    obtain ⟨bounds, hbounds⟩ := id hnode
    have hproblem := hbounds.sized hsized
    rw [← hbounds.integerIndices_eq] at hk
    have hlt := lt_of_mem_integerIndices hproblem hk
    rcases Model.IntegerFeasible.branch hproblem hx hk value with hleft | hright
    · exact place_of_addChild hsized hnode hj
        (fun problem hproblem => .left hpasses hbelow hproblem) hadd (withBound_eq hlt _ true) hleft
    · exact .inSight (Or.inr ⟨_, withBound_eq hlt _ false, hright⟩)
  | @right taken state next node j above value habove hadd =>
    obtain rfl : -(-value).floor = above := Except.ok.inj habove
    obtain ⟨problem, hproblem, hx⟩ := hx
    exact place_of_addChild hsized (hbranched node (by simp [Stage.held]))
      (mem_of_selectFractional hpasses.chosen)
      (fun problem hproblem => .right hpasses habove hproblem) hadd hproblem hx

/-- **Every move keeps a place for a whole point.** -/
theorem Step.place (hsized : setting.model.Sized) (hpasses : Passes setting p)
    (hmove : Step setting p q) (h : Place setting p x) : Place setting q x := by
  cases h with
  | inSight h =>
    rcases h with ⟨node, hnode, hx⟩ | hawaits
    · rcases hmove.mem_frontier hnode with hopen | htaken
      · exact .inSight (Or.inl ⟨node, hopen, hx⟩)
      · exact .inSight (Or.inr (by rw [htaken]; exact hx))
    · exact hmove.place_of_awaits hsized hpasses hawaits
  | dropped hdrops hx => exact .dropped hdrops hx
  | @matched node best n hanswered hx hbest hle =>
    rcases hmove.incumbent_cases with ⟨hsame, -⟩ | ⟨other, -, hnew, -, hkept, -⟩
    · exact .matched hanswered hx (hsame.trans hbest) hle
    · -- the new incumbent beats the old one
      have hbeats : best.bound + pruneTolerance < other.bound := by
        rw [hbest] at hkept
        simpa [isPruned] using hkept
      exact .matched hanswered hx hnew
        (hle.trans (hbeats.le.trans (le_add_of_nonneg_right pruneTolerance_nonneg)))

/-- **Every whole point of the model has a place**, at every point of a search. -/
theorem Passes.place (hsized : setting.model.Sized) (h : Passes setting p)
    (hx : setting.model.IntegerFeasible x) : Place setting p x := by
  refine Passes.induction (P := fun p => Place setting p x) ?_
    (fun p q hpasses ih hmove => hmove.place hsized hpasses ih) h
  rintro p ⟨-, -, -, -, -⟩
  exact .inSight (Or.inl ⟨_, List.mem_singleton_self _, hx⟩)

end Places

end BranchAndBound

/-! ## Sound answers -/

/-- **The verdict holds for every whole point**: the last incumbent matches each of them, or there is
none. -/
structure SearchOutcome.Conclusive (outcome : SearchOutcome ℚ) (model : Model ℚ) : Prop where
  optimal : outcome.result.status = .optimalInteger → ∀ x, model.IntegerFeasible x →
    ∃ best, outcome.incumbents.getLast? = some best ∧ model.gain x ≤ best + 1e-9
  infeasible : outcome.result.status = .infeasible → ∀ x, ¬ model.IntegerFeasible x

namespace BranchAndBound

/-- **The answer is sound for the problem**: an optimum with a solution that no whole point betters,
or anything else for a problem without whole points. -/
def SoundAt (problem : Model ℚ) (answer : Except (Fault ℚ) (Result ℚ)) : Prop :=
  (∃ result solution, answer = .ok result ∧ result.status = .optimal ∧
      result.solution = some solution ∧
      ∀ x, problem.IntegerFeasible x → problem.gain x ≤ problem.gain solution) ∨
    (∀ result, answer = .ok result → result.status ≠ .optimal) ∧ ∀ x, ¬ problem.IntegerFeasible x

namespace SoundAt

variable {problem : Model ℚ} {answer : Except (Fault ℚ) (Result ℚ)} (h : SoundAt problem answer)

include h

/-- The solution of a sound answer bounds the whole points. -/
theorem gain_le {result : Result ℚ} {solution : List ℚ} (hanswer : answer = .ok result)
    (hstatus : result.status = .optimal) (hsolution : result.solution = some solution) :
    ∀ x, problem.IntegerFeasible x → problem.gain x ≤ problem.gain solution := by
  rcases h with ⟨result', solution', hanswer', -, hsolution', hbest⟩ | ⟨hnot, -⟩
  · obtain rfl := Except.ok.inj (hanswer.symm.trans hanswer')
    obtain rfl := Option.some.inj (hsolution.symm.trans hsolution')
    exact hbest
  · exact absurd hstatus (hnot result hanswer)

/-- A sound answer without an optimum leaves no whole points. -/
theorem not_integerFeasible
    (hother : ∀ result, answer = .ok result → result.status = .optimal → result.solution = none) :
    ∀ x, ¬ problem.IntegerFeasible x := by
  rcases h with ⟨result, solution, hanswer, hstatus, hsolution, -⟩ | ⟨-, hnone⟩
  · rw [hother result hanswer hstatus] at hsolution
    simp at hsolution
  · exact hnone

end SoundAt

/-! ## Searches with a sound solver -/

section Conclusive

variable {setting : Setting ℚ} {node : Node ℚ} {outcome : SearchOutcome ℚ} {x : List ℚ}

theorem objective_eq {solution : List ℚ} {objective : ℚ}
    (h : setting.objective solution = .ok objective) :
    setting.factor * objective = setting.model.gain solution := by
  unfold Setting.objective dotAligned at h
  split at h
  · rw [← Except.ok.inj h]
    rfl
  · cases h

/-- **The bound of a node is at least the gain of its whole points**, where the solver is sound. -/
theorem Answered.gain_le (hsized : setting.model.Sized)
    (hsound : ∀ n problem, Calls setting n problem → SoundAt problem (setting.solver n problem))
    {n : ℕ} (h : Answered setting n node) (hx : node.problem.IntegerFeasible x) :
    setting.model.gain x ≤ node.bound := by
  obtain ⟨result, hanswer, hstatus, hsolution⟩ := h.answer
  obtain ⟨z, hz, hbound⟩ := h.bound_eq
  obtain ⟨bounds, hbranched⟩ := h.calls.branched hsized
  have hle := (hsound n _ h.calls).gain_le hanswer hstatus hsolution x hx
  rwa [hbranched.gain_eq, hbranched.gain_eq, ← objective_eq hz, ← hbound] at hle

/-- **With nothing open the incumbent matches every whole point**, where the solver is sound. -/
theorem exists_matching (hsized : setting.model.Sized)
    (hsound : ∀ n problem, Calls setting n problem → SoundAt problem (setting.solver n problem))
    {taken : List (Node ℚ)} {state : State ℚ} (hpasses : Passes setting ⟨taken, .between, state⟩)
    (hempty : state.frontier = []) (hx : setting.model.IntegerFeasible x) :
    ∃ best, state.incumbent = some best ∧ setting.model.gain x ≤ best.bound + pruneTolerance := by
  cases hpasses.place hsized hx with
  | inSight h => exact absurd h (Point.not_inSight hempty)
  | dropped hdrops hpoint =>
    obtain ⟨n, hcalls, hother⟩ := hdrops.dropped
    exact absurd hpoint ((hsound n _ hcalls).not_integerFeasible hother _)
  | @matched node best n hanswered hpoint hbest hle =>
    exact ⟨best, hbest, (hanswered.gain_le hsized hsound hpoint).trans hle⟩

/-- However a search closes, its verdict is right about the whole points. -/
theorem Closes.conclusive (hsized : setting.model.Sized)
    (hsound : ∀ n problem, Calls setting n problem → SoundAt problem (setting.solver n problem))
    (hcap : ¬ Capped setting) (h : Closes setting outcome) : outcome.Conclusive setting.model := by
  cases h with
  | failed => exact ⟨by simp [Result.failed], by simp [Result.failed]⟩
  | @root root hroot _ =>
    by_cases hstatus : root.status = .optimal
    · exact ⟨by simp [hstatus], by simp [hstatus]⟩
    · have hnone := (hsound 1 _ .root).not_integerFeasible fun result hanswer hoptimal => by
        obtain rfl := Except.ok.inj (hroot.symm.trans hanswer)
        exact absurd hoptimal hstatus
      exact ⟨fun _ x hx => absurd hx (hnone x), fun _ => hnone⟩
  | @whole root solution snapped z value count remark hroot hstatus hsolution hz _ _ =>
    refine ⟨fun _ x hx => ⟨setting.factor * z, rfl, ?_⟩, by simp [Result.solved]⟩
    have hle := (hsound 1 _ .root).gain_le hroot hstatus hsolution x hx
    rw [objective_eq hz]
    exact le_add_of_le_of_nonneg hle (by norm_num)
  | @searched taken state capped _ hpasses hcapped hempty hend =>
    obtain rfl : capped = false := by
      cases capped with
      | false => rfl
      | true => exact absurd (hcapped rfl) hcap
    have hmatching := fun x (hx : setting.model.IntegerFeasible x) =>
      exists_matching hsized hsound hpasses (hempty rfl) hx
    obtain ⟨-, hhistory, ⟨hnone, _, _, hresult⟩ | ⟨best, _, _, _, _, hbest, -, hresult⟩⟩ :=
      conclude_cases hend
    · have hempty : ∀ x, ¬ setting.model.IntegerFeasible x := by
        intro x hx
        obtain ⟨best, hbest, -⟩ := hmatching x hx
        rw [hnone] at hbest
        cases hbest
      exact ⟨fun _ x hx => absurd hx (hempty x), fun _ => hempty⟩
    · refine ⟨fun _ x hx => ?_, by simp [hresult, Result.solved]⟩
      obtain ⟨best', hbest', hle⟩ := hmatching x hx
      obtain rfl := Option.some.inj (hbest.symm.trans hbest')
      refine ⟨best.bound, ?_, hle⟩
      have hlast : state.history.getLast? = state.incumbent.map (·.bound) := hpasses.kept.history
      rw [hhistory, hlast, hbest]
      rfl

/-- **Branch and bound loses no whole point.** Where the solver is sound on what it is asked and the
search does not stop at its cap, a verdict on whole points is right. -/
theorem searchWith_conclusive (observer : Observer) (opts : Options ℚ) (solver : Solver ℚ)
    {model : Model ℚ} (hvalid : model.Valid)
    (hsound : ∀ n problem, Calls ⟨observer, opts, solver, model⟩ n problem →
      SoundAt problem (solver n problem))
    (hcap : ¬ Capped ⟨observer, opts, solver, model⟩) :
    ∃ outcome, (searchWith observer opts solver model).outcome = .ok outcome ∧
      outcome.Conclusive model := by
  obtain ⟨outcome, houtcome, hcloses⟩ := exists_closes_searchWith observer opts solver model
  exact ⟨outcome, houtcome, hcloses.conclusive hvalid.sized hsound hcap⟩

end Conclusive

/-! ## A search by hand -/

/-- Maximise `x` under `2 x ≤ 3`, with `x` whole. -/
def halfModel : Model ℚ :=
  { sense := .max
    rows := [[2]]
    rhs := [3]
    costs := [1]
    signs := [.le]
    kinds := [.int] }

/-- Tries the three points of `halfModel` that matter, the best one first. -/
def halfSolver : Solver ℚ := fun _ problem =>
  match [[3 / 2], [1], [0]].find? (problem.Feasible ·) with
  | some point => .ok { status := .optimal, objective := some (entry point 0), solution := some point }
  | none => .ok { status := .infeasible }

/-- The whole points of `halfModel`. -/
theorem integerFeasible_halfModel {x : List ℚ} (h : halfModel.IntegerFeasible x) :
    x = [0] ∨ x = [1] := by
  obtain ⟨a, rfl⟩ := List.length_eq_one_iff.mp h.feasible.length_eq
  obtain ⟨z, hz⟩ := h.whole 0 (by decide)
  obtain rfl : a = z := hz
  have hrow : (2 : ℚ) * z ≤ 3 := by
    have hrow := h.feasible.rows 0 (by decide)
    simpa [halfModel, Relation.Holds, dot, Dense.rowAt] using hrow
  have hkind : (0 : ℚ) ≤ z := h.feasible.kinds 0 (by decide)
  have hlow : 0 ≤ z := by exact_mod_cast hkind
  have hhigh : 2 * z ≤ 3 := by exact_mod_cast hrow
  obtain rfl | rfl : z = 0 ∨ z = 1 := by omega
  · exact Or.inl (by simp)
  · exact Or.inr (by simp)

/-- The solver is sound on `halfModel` with any bounds added. -/
theorem soundAt_halfSolver {bounds : List ExtraRow} {problem : Model ℚ}
    (h : halfModel.Branched bounds problem) (n : ℕ) : SoundAt problem (halfSolver n problem) := by
  have hsized : halfModel.Sized := Model.Valid.sized (by decide)
  unfold halfSolver
  split
  · rename_i point hfind
    refine Or.inl ⟨_, point, rfl, rfl, rfl, fun x hx => ?_⟩
    rw [h.gain_eq, h.gain_eq]
    rcases integerFeasible_halfModel (h.point hsized hx) with rfl | rfl
    · have hmem := List.mem_of_find?_eq_some hfind
      simp only [List.mem_cons, List.not_mem_nil, or_false] at hmem
      rcases hmem with rfl | rfl | rfl <;> decide +kernel
    · -- the point one is tried before the point zero
      by_cases hfirst : problem.Feasible [3 / 2]
      · obtain rfl : [3 / 2] = point := by simpa [hfirst] using hfind
        decide +kernel
      · obtain rfl : [1] = point := by simpa [hfirst, hx.feasible] using hfind
        exact le_refl _
  · rename_i hfind
    refine Or.inr ⟨by simp, fun x hx => ?_⟩
    rw [List.find?_eq_none] at hfind
    rcases integerFeasible_halfModel (h.point hsized hx) with rfl | rfl
    · exact hfind [0] (by simp) (by simpa using hx.feasible)
    · exact hfind [1] (by simp) (by simpa using hx.feasible)

/-- The search of `halfModel`. -/
def halfSetting : Setting ℚ := ⟨.silent, {}, halfSolver, halfModel⟩

theorem not_capped_halfSetting : ¬ Capped halfSetting := by
  rintro ⟨start, state, hstarts, hloop⟩
  obtain @⟨root, solution, objective, choice, hroot, -, hsolution, hobjective, -⟩ := hstarts
  have hanswer : (halfSetting.solver 1 halfSetting.model).map (·.solution) =
      .ok (some [3 / 2]) := by
    decide +kernel
  obtain rfl : solution = [3 / 2] := by
    rw [hroot] at hanswer
    exact Option.some.inj (hsolution.symm.trans (Except.ok.inj hanswer))
  obtain rfl : objective = 3 / 2 := Except.ok.inj
    (hobjective.symm.trans (by decide +kernel))
  have hflag : (searchLoop halfSetting halfSetting.opts.maxNodes
      { frontier := [halfSetting.rootNode [3 / 2] (3 / 2)], calls := 1 }).outcome.map (·.2) =
        .ok false := by
    decide +kernel
  rw [hloop] at hflag
  simp [Except.map] at hflag

/-- The search at `halfModel` branches once, drops one child and ends with the other, which matches
every whole point. -/
theorem searchWith_conclusive_halfModel :
    halfModel.Valid ∧ halfModel.IntegerFeasible [1] ∧
      ∃ outcome, (searchWith .silent {} halfSolver halfModel).outcome = .ok outcome ∧
        outcome.result.status = .optimalInteger ∧ outcome.visited = [[], [.left]] ∧
        outcome.Conclusive halfModel := by
  have hvalid : halfModel.Valid := by decide
  have hpoint : halfModel.IntegerFeasible [1] := by
    refine ⟨by decide +kernel, fun j hj => ⟨1, ?_⟩⟩
    obtain rfl : j = 0 := by simpa [halfModel, Model.integerIndices, Kind.isInteger] using hj
    rfl
  have hvalues : ((searchWith .silent {} halfSolver halfModel).outcome.map fun outcome =>
      (outcome.result.status, outcome.visited)) = .ok (.optimalInteger, [[], [.left]]) := by
    decide +kernel
  obtain ⟨outcome, houtcome, hconclusive⟩ := searchWith_conclusive .silent {} halfSolver hvalid
    (fun n problem hcalls => (hcalls.branched hvalid.sized).elim fun _ hbranched =>
      soundAt_halfSolver hbranched n)
    not_capped_halfSetting
  rw [houtcome] at hvalues
  obtain ⟨hstatus, hvisited⟩ := Prod.mk.inj (Except.ok.inj hvalues)
  exact ⟨hvalid, hpoint, outcome, houtcome, hstatus, hvisited, hconclusive⟩

end BranchAndBound

end LinOpt
