import LinOpt.Proofs.Simplex.Infeasible
/-!
# Phase one without a tolerance

Phase one asks how far the artificial total comes down from the starting basis. The total is never
negative, so no column can lower it without limit: with a tolerance of zero the search ends at an
optimum and nowhere else (`nextMove_of_phaseOneLoop`). What is left of the total there is its least
value, and above zero it excludes every feasible point (`gap_excludes`). The right-hand side of the
tableau plays no part in either.
-/

namespace LinOpt

open Tableau

variable {opts : Options ℚ} {model : Model ℚ} {T : Tableau ℚ} {k : ℕ}

/-- **Phase one meets no ray**: along one the artificial total would fall below zero, whatever the
values of the basic columns are. -/
theorem nextMove_ne_ray_of_phaseOne (h : T.Canonical (model.phaseOne opts)) (htol : opts.tol = 0)
    (rule : PivotRule) (col : ℕ) : T.nextMove opts.tol rule ≠ .ray col := by
  intro hmove
  have hnonneg : ∀ j, 0 ≤ entry (T.ray col) j := by
    have hray := h.rayAt (le_of_eq htol.symm) hmove
    intro j
    have hle := hray.le j
    rwa [htol, neg_zero] at hle
  have hfalls := artificialTotal_ray_lt h (le_of_eq htol.symm) hmove
  have htotal : 0 ≤ (model.standardForm opts).artificialTotal (T.ray col) :=
    StandardForm.artificialTotal_nonneg hnonneg
  linarith

/-- **Phase one ends at an optimum**, unless its budget runs out. -/
theorem nextMove_of_phaseOneLoop (htol : opts.tol = 0) {budget made last : ℕ}
    (h : T.Canonical (model.phaseOne opts)) {T' : Tableau ℚ}
    (hloop : phaseOneLoop opts budget made T = .ok (T', last)) :
    T'.Canonical (model.phaseOne opts) ∧ T'.nextMove opts.tol .bland = .optimal := by
  obtain ⟨k, T'', hleads, ⟨hok, hstop⟩ | hlimit⟩ := exists_leads_phaseOneLoop opts budget made T
  · obtain ⟨rfl, -⟩ : T'' = T' ∧ made + k = last := by
      simpa using hok.symm.trans hloop
    have hT'' := h.leads (le_of_eq htol.symm) hleads
    refine ⟨hT'', ?_⟩
    cases hmove : T''.nextMove opts.tol .bland with
    | optimal => rfl
    | ray col => exact absurd hmove (nextMove_ne_ray_of_phaseOne hT'' htol .bland col)
    | pivot row col => exact absurd hmove (hstop row col)
  · rw [hlimit] at hloop
    cases hloop

/-- Only the budget keeps phase one from an answer. -/
theorem status_of_phaseOneGap_eq_error {observer : Observer} {form : StandardForm ℚ}
    {cause : Fault ℚ} (h : (phaseOneGap observer opts form).outcome = .error cause) :
    cause.status = .iterationLimit := by
  rw [outcome_phaseOneGap] at h
  obtain ⟨k, T, -, ⟨hok, -⟩ | hlimit⟩ :=
    exists_leads_phaseOneLoop opts opts.maxIters.toNat 0 form.phaseOneTableau
  · rw [hok] at h
    cases h
  · rw [hlimit] at h
    cases h
    rfl

/-- **A gap that phase one leaves excludes every feasible point.** -/
theorem gap_excludes {observer : Observer} (hvalid : model.Valid) (htol : opts.tol = 0) {gap : ℚ}
    (hgap : (phaseOneGap observer opts (model.standardForm opts)).outcome = .ok gap)
    (hpos : 0 < gap) {p : List ℚ} : ¬ model.Feasible p := by
  intro hp
  rw [outcome_phaseOneGap] at hgap
  cases hloop : phaseOneLoop opts opts.maxIters.toNat 0
      (model.standardForm opts).phaseOneTableau with
  | error cause =>
    rw [hloop] at hgap
    cases hgap
  | ok answer =>
    obtain ⟨hT, hmove⟩ :=
      nextMove_of_phaseOneLoop htol (model.canonical_phaseOneTableau opts) hloop
    rw [hloop] at hgap
    obtain rfl : max 0 (-answer.1.objectiveValue) = gap := Except.ok.inj hgap
    -- the extent of a feasible point would bound the gap, at no tolerance
    have hbound := artificialTotal_le_of_reduced hT (fun _ hj => hT.le_of_nextMove_optimal hmove hj)
      hvalid hp
    rw [artificialTotal_primalValues hT, htol, zero_mul] at hbound
    exact absurd (max_eq_left hbound) (ne_of_gt hpos)

namespace Simplex

variable {observer : Observer}

/-- A run that has met a ray and is called infeasible has been stopped by phase one. -/
theorem exists_gap_of_infeasible (hvalid : model.Valid) {column : String} {pivots : ℕ} {done : Run ℚ}
    (hray : (iterate observer opts (model.standardForm opts)).outcome =
      .error (.unbounded column pivots))
    (hrun : (run observer opts model).outcome = .ok done)
    (hstatus : done.result.status = .infeasible) :
    ∃ gap, (phaseOneGap observer opts (model.standardForm opts)).outcome = .ok gap ∧
      feasibilityTolerance < gap ∧
      done.result.message = .fault (.artificialsRemain gap pivots) := by
  rw [outcome_run observer opts hvalid, outcome_pivotToEnd, hray] at hrun
  dsimp only at hrun
  obtain rfl := Except.ok.inj hrun
  split at hstatus
  · exact absurd hstatus (by rw [status_concluded_error, Fault.status]; decide)
  · rename_i hsome
    rw [if_neg hsome]
    cases hgap : (phaseOneGap observer opts (model.standardForm opts)).outcome with
    | error cause =>
      rw [hgap] at hstatus
      have hcause : cause.status = .infeasible := hstatus
      rw [status_of_phaseOneGap_eq_error hgap] at hcause
      cases hcause
    | ok gap =>
      rw [hgap] at hstatus
      rw [ok_bind] at hstatus ⊢
      split at hstatus
      · rename_i hlarge
        rw [if_pos hlarge]
        exact ⟨gap, rfl, hlarge, rfl⟩
      · exact absurd hstatus (by rw [status_concluded_error, Fault.status]; decide)

/-- **Phase one certifies infeasibility**, with a tolerance of zero, by either method and whatever
the penalty and the limits are. No tableau it meets has a ray, so it ends at an optimum; and where a
run has met a ray and is then called infeasible, phase one has left a gap above the feasibility
tolerance and no point is feasible. -/
theorem phaseOne_certifies {form : StandardForm ℚ} (observer : Observer) (opts : Options ℚ)
    (hvalid : model.Valid) (htol : opts.tol = 0)
    (hbuild : StandardForm.build opts model = .ok form) :
    (∀ k T, Leads opts.tol .bland form.phaseOneTableau k T →
      ∀ col, T.nextMove opts.tol .bland ≠ .ray col) ∧
    (∀ T made, phaseOneLoop opts opts.maxIters.toNat 0 form.phaseOneTableau = .ok (T, made) →
      T.nextMove opts.tol .bland = .optimal) ∧
    ∀ column pivots done,
      (iterate observer opts form).outcome = .error (.unbounded column pivots) →
      (run observer opts model).outcome = .ok done → done.result.status = .infeasible →
      (∃ gap, 1e-7 < gap ∧ done.result.message = .fault (.artificialsRemain gap pivots)) ∧
        ∀ p, ¬ model.Feasible p := by
  rw [StandardForm.build_eq _ hvalid] at hbuild
  obtain rfl := Except.ok.inj hbuild
  have hstart := model.canonical_phaseOneTableau opts
  refine ⟨fun k T hleads col => ?_, fun T made hloop => ?_, ?_⟩
  · exact nextMove_ne_ray_of_phaseOne (hstart.leads (le_of_eq htol.symm) hleads) htol .bland col
  · exact (nextMove_of_phaseOneLoop htol hstart hloop).2
  · intro column pivots done hray hrun hstatus
    obtain ⟨gap, hgap, hlarge, hmessage⟩ := exists_gap_of_infeasible hvalid hray hrun hstatus
    exact ⟨⟨gap, hlarge, hmessage⟩,
      fun p => gap_excludes hvalid htol hgap (feasibilityTolerance_nonneg.trans_lt hlarge)⟩

/-- Pivoting has met a ray. -/
def MeetsRay (answer : Except (Fault ℚ) (Terminal ℚ)) : Prop :=
  ∃ column pivots, answer = .error (.unbounded column pivots)

instance (answer : Except (Fault ℚ) (Terminal ℚ)) : Decidable (MeetsRay answer) :=
  match answer with
  | .ok _ => isFalse nofun
  | .error cause => decidable_of_iff (cause.status = .unbounded)
      (by cases cause <;> simp [MeetsRay, Fault.status])

/-- The last row has no point with `x₁ ≤ 0` and `x₃ ≥ 0`, and the penalised problem is unbounded. -/
def improvingModel : Model ℚ :=
  { sense := .min, rows := [[-3, 4, 1, 1], [2, -1, 5, -3], [-1, 0, 2, 0]], rhs := [-3, -5, -5],
    costs := [-4, -3, 5, -3], signs := [.le, .le, .eq]
    kinds := [.nonpos, .free, .nonneg, .nonneg] }

/-- The default options without a tolerance. -/
def strictOptions : Options ℚ := { tol := 0 }

theorem phaseOne_certifies_improvingModel :
    ∃ column pivots done,
      (iterate .silent strictOptions (improvingModel.standardForm strictOptions)).outcome =
        .error (.unbounded column pivots) ∧
      (run .silent strictOptions improvingModel).outcome = .ok done ∧
      done.result.status = .infeasible ∧
      (∃ gap, 1e-7 < gap ∧ done.result.message = .fault (.artificialsRemain gap pivots)) ∧
      ∀ p, ¬ improvingModel.Feasible p := by
  have hvalid : improvingModel.Valid := by decide
  obtain ⟨done, hrun, hstatus⟩ : Answers strictOptions improvingModel .infeasible := by
    decide +kernel
  obtain ⟨column, pivots, hray⟩ :
      MeetsRay (iterate .silent strictOptions (improvingModel.standardForm strictOptions)).outcome := by
    decide +kernel
  have hcertified := phaseOne_certifies .silent strictOptions hvalid rfl
    (StandardForm.build_eq _ hvalid)
  exact ⟨column, pivots, done, hray, hrun, hstatus,
    hcertified.2.2 column pivots done hray hrun hstatus⟩

end Simplex

end LinOpt
