import LinOpt.Proofs.Integer.Rounding
import LinOpt.Proofs.Integer.Search
/-!
# What becomes of the branches of a search

A child without an optimal answer is dropped, whatever else the answer was. So a search that ends
without an incumbent has lost its whole points to the dropped children, and to nothing else, as every
one of them has a place (`Passes.place`). With the simplex method as its solver such a child stopped at
the iteration limit, was called unbounded, or was called infeasible although it has a point
(`dropped_of_noneFound`).
-/

namespace LinOpt

namespace BranchAndBound

variable {problem : Model ℚ}

/-! ## Searches without a solution -/

/-- The answer of the simplex method as a solver is the result of a run. -/
theorem exists_run_of_simplexSolver (opts : Options ℚ) (n : ℕ) (hvalid : problem.Valid) :
    ∃ done, (Simplex.run .silent opts problem).outcome = .ok done ∧
      simplexSolver opts n problem = .ok done.result := by
  refine ⟨_, Simplex.outcome_run .silent opts hvalid, ?_⟩
  rw [simplexSolver, Simplex.solve, Traced.outcome_bind, Simplex.outcome_run .silent opts hvalid]
  rfl

/-- **With nothing open and no incumbent, every whole point lies in a dropped child.** -/
theorem exists_drops {setting : Setting ℚ} (hsized : setting.model.Sized) {taken : List (Node ℚ)}
    {state : State ℚ} (hpasses : Passes setting ⟨taken, .between, state⟩)
    (hempty : state.frontier = []) (hnone : state.incumbent = none) {x : List ℚ}
    (hx : setting.model.IntegerFeasible x) :
    ∃ problem, Drops setting problem ∧ problem.IntegerFeasible x := by
  cases hpasses.place hsized hx with
  | inSight h => exact absurd h (Point.not_inSight hempty)
  | dropped hdrops hpoint => exact ⟨_, hdrops, hpoint⟩
  | matched _ _ hbest _ => cases hnone.symm.trans hbest

/-- **What the relaxation of a dropped child says of its points**: that it has stopped at the iteration
limit, or is unbounded, or is infeasible, which overlooks them. -/
theorem Drops.exists_run {observer : Observer} {maxIters : ℤ} {model : Model ℚ} {x : List ℚ}
    (hdrops : Drops ⟨observer, { maxIters }, simplexSolver { maxIters }, model⟩ problem)
    (hvalid : model.Valid) (hx : problem.IntegerFeasible x) :
    ∃ done, (Simplex.run .silent { maxIters } problem).outcome = .ok done ∧
      (done.result.status = .iterationLimit ∨ done.result.status = .unbounded ∨
        done.result.status = .infeasible ∧ Simplex.Overlooks { maxIters } problem done x) := by
  obtain ⟨bounds, -, hbranched⟩ := hdrops.branched
  have hproblem := hbranched.valid hvalid
  obtain ⟨n, -, hno⟩ := hdrops.dropped
  obtain ⟨done, hrun, hanswer⟩ := exists_run_of_simplexSolver { maxIters } n hproblem
  refine ⟨done, hrun, ?_⟩
  rcases Simplex.answer_cases { maxIters } hproblem (by norm_num) (by simp) hrun with
    ⟨hoptimal, s, hs⟩ | ⟨hinfeasible, -⟩ | hunbounded | hlimit
  · rw [hno _ hanswer hoptimal] at hs
    cases hs
  · exact Or.inr (Or.inr ⟨hinfeasible, Simplex.overlooks_of_infeasible { maxIters } hproblem
      (by norm_num) (by simp) hrun hinfeasible hx.feasible⟩)
  · exact Or.inr (Or.inl hunbounded)
  · exact Or.inl hlimit

/-- **What an infeasible verdict of a search means**, for any budget of pivots. Every whole point of
the model lies in a child that the search has dropped, and the relaxation of that child stopped at
the iteration limit, was called unbounded, or was called infeasible and overlooks the point. -/
theorem dropped_of_noneFound (observer : Observer) (maxIters : ℤ) {model : Model ℚ}
    (hvalid : model.Valid) {outcome : SearchOutcome ℚ}
    (hsearch : (search observer { maxIters } model).outcome = .ok outcome)
    (hstatus : outcome.result.status = .infeasible)
    (hmessage : outcome.result.message = .text "No integer solution found.") :
    ∀ x, model.IntegerFeasible x → ∃ problem done,
      Drops ⟨observer, { maxIters }, simplexSolver { maxIters }, model⟩ problem ∧
      problem.IntegerFeasible x ∧
      (Simplex.run .silent { maxIters } problem).outcome = .ok done ∧
      (done.result.status = .iterationLimit ∨ done.result.status = .unbounded ∨
        done.result.status = .infeasible ∧ Simplex.Overlooks { maxIters } problem done x) := by
  intro x hx
  cases closes_of_searchWith hsearch with
  | failed => simp [Result.failed] at hstatus
  | @root root hroot _ =>
    -- the simplex method does not answer in these words
    obtain ⟨done, hrun, hanswer⟩ := exists_run_of_simplexSolver { maxIters } 1 hvalid
    obtain rfl := Except.ok.inj (hanswer.symm.trans hroot)
    rcases Simplex.answer_cases { maxIters } hvalid (by norm_num) (by simp) hrun with
      ⟨hother, -⟩ | ⟨-, hwords⟩ | hother | hother
    · simp [hother] at hstatus
    · exact absurd hmessage (hwords _)
    · simp [hother] at hstatus
    · simp [hother] at hstatus
  | whole => simp [Result.solved] at hstatus
  | @searched taken state capped _ hpasses _ hempty hend =>
    obtain ⟨-, -, ⟨hnone, _, _, hresult⟩ | ⟨_, _, _, _, _, -, -, hresult⟩⟩ := conclude_cases hend
    · have hfrontier : state.frontier = [] := by
        refine hempty ?_
        cases capped with
        | false => rfl
        | true => simp [hresult, Result.failed] at hstatus
      obtain ⟨problem, hdrops, hpoint⟩ := exists_drops hvalid.sized hpasses hfrontier hnone hx
      obtain ⟨done, hrun, hcauses⟩ := hdrops.exists_run hvalid hpoint
      exact ⟨problem, done, hdrops, hpoint, hrun, hcauses⟩
    · simp [hresult, Result.solved] at hstatus

/-- A search with the simplex method ends without an integer solution. -/
def NoneFound (opts : Options ℚ) (model : Model ℚ) : Prop :=
  ∃ outcome, (search .silent opts model).outcome = .ok outcome ∧
    outcome.result.status = .infeasible ∧
    outcome.result.message = .text "No integer solution found."

instance (message : Message ℚ) (words : String) : Decidable (message = .text words) :=
  match message with
  | .text others => decidable_of_iff (others = words) ⟨congrArg _, Message.text.inj⟩
  | .fault _ => isFalse nofun
  | .artificialBasic _ => isFalse nofun

instance (opts : Options ℚ) (model : Model ℚ) : Decidable (NoneFound opts model) :=
  inferInstanceAs (Decidable (∃ outcome, _ = Except.ok outcome ∧ _))

/-! ## Whole points that are lost -/

/-- The child `x ≤ 1` needs two pivots, and the child `x ≥ 2` has no point: maximise `2 x + y` under
`2 x + y ≤ 3`, both whole. -/
def hurriedModel : Model ℚ :=
  { sense := .max, rows := [[2, 1]], rhs := [3], costs := [2, 1], signs := [.le]
    kinds := [.int, .int] }

/-- The child `x ≥ 1` is called infeasible: minimise `x` under `x - 1e-10 y = 0.5`, with `x` whole.
-/
def distantModel : Model ℚ :=
  { sense := .min, rows := [[1, -1e-10]], rhs := [0.5], costs := [1, 0], signs := [.eq],
    kinds := [.int, .nonneg] }

/-- The child `x ≤ 1` is called unbounded: maximise `1000 x + 5e-7 y` under `x + 9e-10 y ≤ 1.5`,
with `x` whole. -/
def driftModel : Model ℚ :=
  { sense := .max, rows := [[1, 9e-10]], rhs := [1.5], costs := [1000, 5e-7], signs := [.le],
    kinds := [.int, .nonneg] }

/-- The search of `hurriedModel` with a budget of one pivot. -/
def hurriedSetting : Setting ℚ :=
  ⟨.silent, { maxIters := 1 }, simplexSolver { maxIters := 1 }, hurriedModel⟩

/-- The two sides of the root of `hurriedModel`. -/
theorem eq_of_splitsTo_hurriedModel {node : Node ℚ} (hproblem : node.problem = hurriedModel)
    (hsolution : node.solution = [3 / 2, 0]) (h : SplitsTo hurriedSetting node problem) :
    problem = hurriedModel.bounded 0 1 true ∨ problem = hurriedModel.bounded 0 2 false := by
  obtain ⟨j, value, hchoice, hhalves⟩ := h
  rw [hsolution] at hchoice
  rw [hproblem] at hhalves
  have hfirst : selectFractional [3 / 2, 0] hurriedSetting.integerVariables
      hurriedSetting.opts.intTol = .ok (some (0, 3 / 2)) := by decide +kernel
  obtain ⟨rfl, rfl⟩ := Prod.mk.inj (Option.some.inj (Except.ok.inj (hchoice.symm.trans hfirst)))
  have hlt : 0 < hurriedModel.variableCount := by decide
  cases hhalves with
  | @below z hz hchild =>
    obtain rfl : z = 1 := Except.ok.inj (hz.symm.trans (by decide +kernel))
    exact Or.inl (Except.ok.inj (hchild.symm.trans (Model.withBound_eq hlt _ true)))
  | @above z hz hchild =>
    obtain rfl : z = 2 := Except.ok.inj (hz.symm.trans (by decide +kernel))
    exact Or.inr (Except.ok.inj (hchild.symm.trans (Model.withBound_eq hlt _ false)))

/-- No child of `hurriedModel` is opened. -/
theorem eq_root_of_live_hurriedModel {p : Point ℚ} (h : Passes hurriedSetting p) :
    ∀ node ∈ p.live, node.problem = hurriedModel ∧ node.solution = [3 / 2, 0] := by
  refine Passes.induction (P := fun p => ∀ node ∈ p.live,
    node.problem = hurriedModel ∧ node.solution = [3 / 2, 0]) ?_ ?_ h
  · rintro p @⟨root, solution, z, choice, hroot, -, hsolution, -, -⟩ node hnode
    obtain rfl : node = _ := by simpa [Point.live, Stage.held] using hnode
    have hanswer : (hurriedSetting.solver 1 hurriedSetting.model).map (·.solution) =
        .ok (some [3 / 2, 0]) := by decide +kernel
    rw [hroot] at hanswer
    exact ⟨rfl, Option.some.inj (hsolution.symm.trans (Except.ok.inj hanswer))⟩
  · intro p q hpasses ih hmove node hnode
    rcases hmove.live hpasses node hnode with hold | ⟨-, parent, hheld, hchild⟩
    · exact ih node hold
    · obtain ⟨hparent, hsolution⟩ := ih parent (List.mem_append_right _ hheld)
      obtain ⟨result, hanswer, hoptimal, -⟩ := hchild.answered.answer
      have hnot : ∀ child ∈ [hurriedModel.bounded 0 1 true, hurriedModel.bounded 0 2 false],
          ∃ answer, simplexSolver { maxIters := 1 } 1 child = .ok answer ∧
            answer.status ≠ .optimal := by decide +kernel
      obtain ⟨answer, hans, hne⟩ := hnot node.problem (by
        simpa using eq_of_splitsTo_hurriedModel hparent hsolution hchild.splits)
      obtain rfl := Except.ok.inj (hanswer.symm.trans hans)
      exact absurd hoptimal hne

/-- At `hurriedModel` with a budget of one pivot the point `(1, 1)` is lost to the child `x ≤ 1`, which
stops at the iteration limit. -/
theorem dropped_of_noneFound_hurriedModel :
    NoneFound { maxIters := 1 } hurriedModel ∧ hurriedModel.IntegerFeasible [1, 1] ∧
      Drops hurriedSetting (hurriedModel.bounded 0 1 true) ∧
      (hurriedModel.bounded 0 1 true).IntegerFeasible [1, 1] ∧
      ∃ done, (Simplex.run .silent { maxIters := 1 } (hurriedModel.bounded 0 1 true)).outcome =
        .ok done ∧ done.result.status = .iterationLimit := by
  have hpoint : hurriedModel.IntegerFeasible [1, 1] := by decide +kernel
  have hnone : NoneFound { maxIters := 1 } hurriedModel := by decide +kernel
  obtain ⟨outcome, hsearch, hstatus, hmessage⟩ := id hnone
  obtain ⟨problem, done, hdrops, hx, -, -⟩ := dropped_of_noneFound .silent 1 (by decide) hsearch
    hstatus hmessage [1, 1] hpoint
  have hsides : problem = hurriedModel.bounded 0 1 true := by
    obtain ⟨n, hcalls, hno⟩ := hdrops.dropped
    rcases hcalls.cases with rfl | ⟨p, hpasses, node, hheld, hsplits⟩
    · -- the root relaxation has an optimum
      have hroot : ∃ answer, simplexSolver { maxIters := 1 } 1 hurriedModel = .ok answer ∧
          answer.status = .optimal ∧ answer.solution ≠ none := by decide +kernel
      obtain ⟨answer, hanswer, hoptimal, hsome⟩ := hroot
      exact absurd (hno answer hanswer hoptimal) hsome
    · obtain ⟨hproblem, hsolution⟩ :=
        eq_root_of_live_hurriedModel hpasses node (List.mem_append_right _ hheld)
      refine (eq_of_splitsTo_hurriedModel hproblem hsolution hsplits).resolve_right ?_
      rintro rfl
      exact absurd hx (by decide +kernel)
  subst hsides
  exact ⟨hnone, hpoint, hdrops, hx, by decide +kernel⟩

/-- **A search that finds no integer solution does not exclude one**, not with moderate data: not
where a child stops at the iteration limit, not where a child is wrongly called infeasible, and not
where one is called unbounded. -/
theorem noneFound_with_whole_point :
    (hurriedModel.Valid ∧ hurriedModel.DataWithin 1000 ∧ NoneFound { maxIters := 1 } hurriedModel ∧
      hurriedModel.IntegerFeasible [1, 1]) ∧
    (distantModel.Valid ∧ distantModel.DataWithin 1000 ∧ NoneFound {} distantModel ∧
      distantModel.IntegerFeasible [1, 5e9]) ∧
    (driftModel.Valid ∧ driftModel.DataWithin 1000 ∧ NoneFound {} driftModel ∧
      driftModel.IntegerFeasible [1, 0]) := by
  decide +kernel

end BranchAndBound

end LinOpt
