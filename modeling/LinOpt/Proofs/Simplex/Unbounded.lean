import LinOpt.Proofs.Simplex.Solution
/-!
# What an unbounded verdict means

A model is called unbounded where a column improves the penalised objective without limit and, if
there are artificial columns, phase one brings their total down. The first is a direction, the
second a solution of the equations. Where the direction is exact, feasible points can be followed
along it to any objective (`unbounded_of_ray`); where the solution is not negative, its point is
nearly feasible.

Neither need be exact. A column entry up to the tolerance is taken for zero, a direction may raise
artificial columns as long as it earns more than their penalty, a total up to the feasibility
tolerance is taken for zero, ratios that tie may leave the solution negative, and the revised method
reads its directions off an inverse that need not be exact. `unbounded_verdict` says what is left,
and `unbounded_verdict_without_ray` has a model for each of the five.
-/

namespace LinOpt

open Finset Tableau

variable {opts : Options ℚ} {model : Model ℚ} {T : Tableau ℚ} {x d p : List ℚ}

/-! ## Following a direction -/

/-- A step along a direction that keeps the equations. -/
theorem mulVec_subScaled {A : Dense ℚ} {b : List ℚ} {n : ℕ} (t : ℚ)
    (hrow : ∀ row ∈ A, row.length ≤ n) (hx : A.mulVec x = b) (hd : A.mulVec d = zeros A.length)
    (hlen : x.length = d.length) :
    A.mulVec (subScaled x t d) = b := by
  rw [← hx]
  refine eq_of_entry_eq (by simp) fun i hi => ?_
  rw [Dense.length_mulVec] at hi
  have hzero : ∑ j ∈ range n, A.cell i j * entry d j = 0 := by
    rw [← Dense.entry_mulVec hrow hi, hd, entry_zeros]
  rw [Dense.entry_mulVec hrow hi, Dense.entry_mulVec hrow hi]
  calc ∑ j ∈ range n, A.cell i j * entry (subScaled x t d) j
      = ∑ j ∈ range n, (A.cell i j * entry x j - t * (A.cell i j * entry d j)) := by
        refine Finset.sum_congr rfl fun j _ => ?_
        rw [entry_subScaled t hlen]
        ring
    _ = ∑ j ∈ range n, A.cell i j * entry x j := by
        rw [Finset.sum_sub_distrib, ← Finset.mul_sum, hzero, mul_zero, sub_zero]

/-- Where the artificial total of a vector that is not negative is zero, so is every artificial
column. -/
theorem entry_artificial_eq_zero {form : StandardForm ℚ} (hnonneg : ∀ a ∈ d, 0 ≤ a)
    (htotal : form.artificialTotal d = 0) {k : ℕ} (hk : k ∈ form.artificials) : entry d k = 0 := by
  have hterms : ∀ a ∈ pick d form.artificials, 0 ≤ a := by
    intro a ha
    obtain ⟨k, -, rfl⟩ := List.mem_map.mp ha
    exact entry_nonneg hnonneg k
  refine le_antisymm ?_ (entry_nonneg hnonneg k)
  rw [← htotal]
  exact List.single_le_sum hterms _ (List.mem_map_of_mem hk)

/-- A step along an exact direction represents a point again. -/
theorem represents_step (hx : (model.standardForm opts).Represents x p)
    (hlen : d.length = (model.standardForm opts).width)
    (hequations : (model.standardForm opts).rows.mulVec d = zeros (model.standardForm opts).height)
    (hnonneg : ∀ a ∈ d, 0 ≤ a) (htotal : (model.standardForm opts).artificialTotal d = 0) {t : ℚ}
    (ht : 0 ≤ t) :
    (model.standardForm opts).Represents (subScaled x (-t) d)
      (componentSums model.components (subScaled x (-t) d)) where
  length_eq := by rw [length_subScaled, hx.length_eq, hlen, min_self]
  nonneg := by
    intro a ha
    obtain ⟨j, hj, rfl⟩ := List.getElem_of_mem ha
    rw [← entry_eq_getElem hj, entry_subScaled _ (hx.length_eq.trans hlen.symm)]
    have h1 := entry_nonneg hx.nonneg j
    have h2 := mul_nonneg ht (entry_nonneg hnonneg j)
    linarith
  equations :=
    mulVec_subScaled (-t) (fun row hrow => le_of_eq (Model.length_row_standardForm opts hrow))
      hx.equations hequations (hx.length_eq.trans hlen.symm)
  artificials := by
    intro k hk
    rw [entry_subScaled _ (hx.length_eq.trans hlen.symm), hx.artificials k hk,
      entry_artificial_eq_zero hnonneg htotal hk, mul_zero, sub_zero]
  components := rfl

/-- **Along an exact direction that gains, feasible points reach any objective.** -/
theorem unbounded_of_ray (hvalid : model.Valid) (hp : model.Feasible p)
    (hlen : d.length = (model.standardForm opts).width)
    (hequations : (model.standardForm opts).rows.mulVec d = zeros (model.standardForm opts).height)
    (hnonneg : ∀ a ∈ d, 0 ≤ a) (htotal : (model.standardForm opts).artificialTotal d = 0)
    (hgain : 0 < dot (model.standardForm opts).costs d) : model.Unbounded := by
  intro K
  have hx := Model.represents_lift opts hvalid hp
  -- far enough along the direction for the missing gain
  have ht : 0 ≤ |K - model.gain p| / dot (model.standardForm opts).costs d + 1 :=
    add_nonneg (div_nonneg (abs_nonneg _) (le_of_lt hgain)) zero_le_one
  have hstep := represents_step hx hlen hequations hnonneg htotal ht
  refine ⟨_, Model.feasible_of_represents hvalid hstep, ?_⟩
  rw [← Model.dot_costs_of_represents hstep, dot_subScaled _ _ (hx.length_eq.trans hlen.symm),
    Model.dot_costs_of_represents hx]
  have hcancel : |K - model.gain p| / dot (model.standardForm opts).costs d *
      dot (model.standardForm opts).costs d = |K - model.gain p| :=
        div_mul_cancel₀ _ (ne_of_gt hgain)
  have habs := le_abs_self (K - model.gain p)
  linarith

/-! ## The solution -/

/-- **The tableau that is taken for a feasible solution where a ray is met**: without artificial
columns the first one, and else the one where phase one stops, with an artificial total within the
feasibility tolerance. -/
inductive StandardForm.Cleared (form : StandardForm ℚ) (tol : ℚ) : Tableau ℚ → Prop
  | start : form.artificials = [] → form.Cleared tol form.tableau
  | phaseOne {T : Tableau ℚ} {move : Move} : form.artificials ≠ [] →
      StopsAt tol .bland form.phaseOneTableau T move →
      form.artificialTotal T.primalValues ≤ feasibilityTolerance → form.Cleared tol T

namespace StandardForm.Cleared

variable {tol : ℚ} (h : (model.standardForm opts).Cleared tol T) (htol : 0 ≤ tol)

include h

theorem artificialTotal_le :
    (model.standardForm opts).artificialTotal T.primalValues ≤ feasibilityTolerance := by
  cases h with
  | start hnone =>
    rw [StandardForm.artificialTotal, hnone]
    exact feasibilityTolerance_nonneg
  | phaseOne _ _ htotal => exact htotal

include htol

theorem basicAt : (model.standardForm opts).BasicAt T.basis T.primalValues := by
  cases h with
  | start => exact (model.canonical_standardForm_tableau opts).basicAt
  | phaseOne _ hstops => exact ((model.canonical_phaseOneTableau opts).stopsAt htol hstops).basicAt

/-- The solution is not negative without artificial columns, or where every pivot of phase one is of
least ratio. -/
theorem nonneg (hleast : (model.standardForm opts).artificials = [] ∨
    (model.standardForm opts).phaseOneTableau.LeastFrom tol .bland) :
    ∀ a ∈ T.primalValues, 0 ≤ a := by
  cases h with
  | start => exact start_nonneg
  | phaseOne hsome hstops =>
    exact (model.canonical_phaseOneTableau opts).primalValues_nonneg_of_stopsAt htol hstops
      (hleast.resolve_left hsome) phaseOne_start_nonneg

end StandardForm.Cleared

namespace Simplex

variable {observer : Observer} {done : Run ℚ}

/-- What an unbounded verdict rests on, for any options: the tableau taken for a solution, and the one
with the ray. -/
theorem exists_of_unbounded (hvalid : model.Valid) (htol : 0 ≤ opts.tol)
    (hexact : opts.method = .revised → RevisedExact opts model)
    (hrun : (run observer opts model).outcome = .ok done)
    (hstatus : done.result.status = .unbounded) :
    ∃ T₁ T col, (model.standardForm opts).Cleared opts.tol T₁ ∧
      StopsAt opts.tol opts.rule (model.standardForm opts).tableau T (.ray col) := by
  have hends := ends_pivotToEnd observer hvalid htol hexact
  rw [outcome_run observer opts hvalid] at hrun
  obtain rfl := Except.ok.inj hrun
  generalize (pivotToEnd observer opts (model.standardForm opts)).outcome = answer at hends hstatus
  cases hends with
  | @ray k col T hleads hmove hnone =>
    exact ⟨_, T, col, .start hnone, hleads.stopsAt_ray hmove⟩
  | @cleared k k₁ col T T₁ hsome hleads hmove hleads₁ hstop hgap =>
    have hT₁ := (model.canonical_phaseOneTableau opts).leads htol hleads₁
    have hstops : StopsAt opts.tol .bland (model.standardForm opts).phaseOneTableau T₁
        (T₁.nextMove opts.tol .bland) := ⟨⟨k₁, hleads₁⟩, rfl, hstop⟩
    refine ⟨T₁, T, col, .phaseOne hsome hstops ?_, hleads.stopsAt_ray hmove⟩
    rw [artificialTotal_primalValues hT₁]
    exact le_trans (le_max_right _ _) hgap
  | gap => exact absurd hstatus (by rw [status_concluded_error, Fault.status]; decide)
  | limit => exact absurd hstatus (by rw [status_concluded_error, Fault.status]; decide)
  | @optimum k T =>
    rcases status_concluded_ok ⟨T.basis, T.rhs, k⟩ with ⟨-, hinfeasible⟩ | hoptimal
    · exact absurd (hinfeasible.symm.trans hstatus) (by decide)
    · exact absurd (hoptimal.symm.trans hstatus) (by decide)

/-- The ray that the simplex method stops at gains more than the tolerance. -/
theorem lt_dot_ray {tol : ℚ} {rule : PivotRule} {col : ℕ} (htol : 0 ≤ tol)
    (hstops : StopsAt tol rule (model.standardForm opts).tableau T (.ray col)) :
    (model.standardForm opts).RayAt tol T.basis col (T.ray col) ∧
      tol < dot (model.standardForm opts).costs (T.ray col) := by
  have hT := (model.canonical_standardForm_tableau opts).stopsAt htol hstops
  obtain ⟨hcol, hneg, -⟩ := hT.ray_of_nextMove hstops.nextMove_eq
  have hgain : dot (model.standardForm opts).costs (T.ray col) = _ := hT.dot_ray hcol (by linarith)
  refine ⟨hT.rayAt htol hstops.nextMove_eq, ?_⟩
  rw [hgain]
  linarith

/-- **What an unbounded verdict means**, by either method and either rule. The run has a tableau taken
for a solution, whose artificial total is within the tolerance; without artificial columns, or where
every pivot of phase one was of least ratio, its basic solution is not negative, and then its point is
feasible up to that total. And the run stops at a ray that gains more than its penalty. Where neither
lacks anything, neither the solution its total nor the ray a negative or an artificial entry, there
are feasible points of any objective. -/
theorem unbounded_verdict {form : StandardForm ℚ} (observer : Observer) (rule : PivotRule)
    (method : Method) (hvalid : model.Valid)
    (hbuild : StandardForm.build { rule, method } model = .ok form)
    (hexact : method = .revised → RevisedExact { rule, method } model)
    (hrun : (run observer { rule, method } model).outcome = .ok done)
    (hstatus : done.result.status = .unbounded) :
    ∃ T₁ T col, (form.Cleared 1e-9 T₁ ∧ form.BasicAt T₁.basis T₁.primalValues ∧
        form.artificialTotal T₁.primalValues ≤ 1e-7 ∧
        (form.artificials = [] ∨ form.phaseOneTableau.LeastFrom 1e-9 .bland →
          ∀ a ∈ T₁.primalValues, 0 ≤ a) ∧
        ((∀ a ∈ T₁.primalValues, 0 ≤ a) → model.NearlyFeasible
          (form.artificialTotal T₁.primalValues) (componentSums form.components T₁.primalValues))) ∧
      (StopsAt 1e-9 rule form.tableau T (.ray col) ∧ form.RayAt 1e-9 T.basis col (T.ray col) ∧
        1e-9 < dot form.objective (T.ray col) - 1e6 * form.artificialTotal (T.ray col) ∧
        ((∀ a ∈ T.ray col, 0 ≤ a) → form.artificialTotal (T.ray col) = 0 →
          (∃ p, model.Feasible p) → model.Unbounded)) ∧
      (form.artificials = [] ∨ form.phaseOneTableau.LeastFrom 1e-9 .bland →
        form.artificialTotal T₁.primalValues = 0 → (∀ a ∈ T.ray col, 0 ≤ a) →
        form.artificialTotal (T.ray col) = 0 → (∃ p, model.Feasible p) ∧ model.Unbounded) := by
  rw [StandardForm.build_eq _ hvalid] at hbuild
  obtain rfl := Except.ok.inj hbuild
  have htol : (0 : ℚ) ≤ 1e-9 := by norm_num
  obtain ⟨T₁, T, col, hcleared, hstops⟩ := exists_of_unbounded hvalid htol hexact hrun hstatus
  obtain ⟨hray, hgain⟩ := lt_dot_ray htol hstops
  have hnearly : (∀ a ∈ T₁.primalValues, 0 ≤ a) → model.NearlyFeasible
      ((model.standardForm { rule, method }).artificialTotal T₁.primalValues)
      (componentSums model.components T₁.primalValues) := fun hnonneg =>
    Model.nearlyFeasible_of_solves hvalid (hcleared.basicAt htol).equations (entry_nonneg hnonneg)
  have hfollow : (∀ a ∈ T.ray col, 0 ≤ a) →
      (model.standardForm { rule, method }).artificialTotal (T.ray col) = 0 →
      (∃ p, model.Feasible p) → model.Unbounded := by
    rintro hnonneg hzero ⟨p, hp⟩
    exact unbounded_of_ray hvalid hp hray.length_eq hray.equations hnonneg hzero
      (lt_of_le_of_lt htol hgain)
  refine ⟨T₁, T, col, ⟨hcleared, hcleared.basicAt htol, hcleared.artificialTotal_le,
    hcleared.nonneg htol, hnearly⟩, ⟨hstops, hray, ?_, hfollow⟩, fun hleast hzero hnonneg hnone => ?_⟩
  · rw [Model.dot_costs] at hgain
    exact hgain
  · have hpoint := hnearly (hcleared.nonneg htol hleast)
    rw [hzero, Model.nearlyFeasible_zero] at hpoint
    exact ⟨⟨_, hpoint⟩, hfollow hnonneg hnone ⟨_, hpoint⟩⟩

/-- Maximise `x + y` under `x - y = 1`. -/
def openModel : Model ℚ :=
  { sense := .max, rows := [[1, -1]], rhs := [1], costs := [1, 1], signs := [.eq],
    kinds := [.nonneg, .nonneg] }

/-- Every pivot of phase one is of least ratio, and neither the solution nor the ray lacks anything. -/
theorem unbounded_verdict_openModel :
    Answers { rule := .bland, method := .revised } openModel .unbounded ∧
      (∃ p, openModel.Feasible p) ∧ openModel.Unbounded := by
  have hvalid : openModel.Valid := by decide
  obtain ⟨done, hrun, hstatus⟩ :
      Answers { rule := .bland, method := .revised } openModel .unbounded := by
    decide +kernel
  obtain ⟨T₁, T, col, ⟨hcleared, -⟩, ⟨hstops, -⟩, hverdict⟩ := unbounded_verdict .silent .bland .revised
    hvalid (StandardForm.build_eq _ hvalid) (fun _ => exactFrom_of_exactAlong (by decide +kernel))
    hrun hstatus
  have hleast : (openModel.standardForm
      { rule := .bland, method := .revised }).phaseOneTableau.leastAlong 1e-9 .bland 9 = true := by
    decide +kernel
  have hsolution : ∃ r ∈ (openModel.standardForm
      { rule := .bland, method := .revised }).phaseOneTableau.stop 1e-9 .bland 9,
      (openModel.standardForm
        { rule := .bland, method := .revised }).artificialTotal r.1.primalValues = 0 := by
    decide +kernel
  have hray : ∃ r ∈ (openModel.standardForm
      { rule := .bland, method := .revised }).tableau.stop 1e-9 .bland 9, r.2 = .ray 1 ∧
      (∀ a ∈ r.1.ray 1, 0 ≤ a) ∧ (openModel.standardForm
        { rule := .bland, method := .revised }).artificialTotal (r.1.ray 1) = 0 := by
    decide +kernel
  obtain ⟨⟨T', _⟩, hstop, rfl, hnonneg, hnone⟩ := hray
  obtain ⟨rfl, hmove⟩ := (stopsAt_of_stop hstop).unique hstops
  obtain rfl := Move.ray.inj hmove
  refine ⟨⟨done, hrun, hstatus⟩, hverdict (Or.inr (leastFrom_of_leastAlong hleast)) ?_ hnonneg hnone⟩
  cases hcleared with
  | start hempty => exact absurd hempty (by decide +kernel)
  | phaseOne _ hstops₁ =>
    obtain ⟨⟨T', _⟩, hstop₁, hzero⟩ := hsolution
    obtain ⟨rfl, -⟩ := (stopsAt_of_stop hstop₁).unique hstops₁
    exact hzero

/-! ## Models that are called unbounded and are not -/

/-- A coefficient below the tolerance: maximise `x` under `1e-10 x ≤ 1`. -/
def thinModel : Model ℚ :=
  { sense := .max, rows := [[1e-10]], rhs := [1], costs := [1], signs := [.le], kinds := [.nonneg] }

/-- A cost above the penalty: maximise `1e7 x` under `-x = 0`. -/
def greedyModel : Model ℚ :=
  { sense := .max, rows := [[-1]], rhs := [0], costs := [1e7], signs := [.eq], kinds := [.nonneg] }

/-- Rows that clash by less than the tolerance: maximise `y` under `x ≤ 1` and `x ≥ 1.00000005`. -/
def grazingModel : Model ℚ :=
  { sense := .max, rows := [[1, 0], [1, 0]], rhs := [1, 1.00000005], costs := [0, 1],
    signs := [.le, .ge]
    kinds := [.nonneg, .nonneg] }

/-- Rows that clash, and ratios that tie: maximise `y` under `1e6 x = 1e6` and
`1e10 x = 9999999995`. -/
def tiedModel : Model ℚ :=
  { sense := .max, rows := [[1e6, 0], [1e10, 0]], rhs := [1e6, 9999999995], costs := [0, 1],
    signs := [.eq, .eq]
    kinds := [.nonneg, .nonneg] }

/-- A coefficient that inversion skips: maximise `10 x - y` under `x - 1e7 y ≤ 1` and
`9e-16 x ≤ 1`. -/
def leakyModel : Model ℚ :=
  { sense := .max, rows := [[1, -1e7], [9e-16, 0]], rhs := [1, 1], costs := [10, -1],
    signs := [.le, .le]
    kinds := [.nonneg, .nonneg] }

theorem not_unbounded_thinModel : ¬ thinModel.Unbounded := by
  refine Model.not_unbounded_of_gain_le 1e10 fun p hp => ?_
  obtain ⟨a, rfl⟩ := List.length_eq_one_iff.mp hp.length_eq
  have hrow : dot [1e-10] [a] ≤ 1 := hp.rows 0 (by decide)
  change 1 * dot [1] [a] ≤ 1e10
  norm_num at hrow ⊢
  linarith

theorem not_unbounded_greedyModel : ¬ greedyModel.Unbounded := by
  refine Model.not_unbounded_of_gain_le 0 fun p hp => ?_
  obtain ⟨a, rfl⟩ := List.length_eq_one_iff.mp hp.length_eq
  have hrow : dot [-1] [a] = 0 := hp.rows 0 (by decide)
  change 1 * dot [1e7] [a] ≤ 0
  norm_num at hrow ⊢
  linarith

theorem not_unbounded_grazingModel : ¬ grazingModel.Unbounded := by
  refine Model.not_unbounded_of_gain_le 0 fun p hp => ?_
  obtain ⟨a, b, rfl⟩ := List.length_eq_two.mp hp.length_eq
  have hupper : dot [1, 0] [a, b] ≤ 1 := hp.rows 0 (by decide)
  have hlower : 1.00000005 ≤ dot [1, 0] [a, b] := hp.rows 1 (by decide)
  norm_num at hupper hlower
  linarith

theorem not_unbounded_tiedModel : ¬ tiedModel.Unbounded := by
  refine Model.not_unbounded_of_gain_le 0 fun p hp => ?_
  obtain ⟨a, b, rfl⟩ := List.length_eq_two.mp hp.length_eq
  have hfirst : dot [1e6, 0] [a, b] = 1e6 := hp.rows 0 (by decide)
  have hsecond : dot [1e10, 0] [a, b] = 9999999995 := hp.rows 1 (by decide)
  norm_num at hfirst hsecond
  linarith

theorem not_unbounded_leakyModel : ¬ leakyModel.Unbounded := by
  refine Model.not_unbounded_of_gain_le 1e17 fun p hp => ?_
  obtain ⟨a, b, rfl⟩ := List.length_eq_two.mp hp.length_eq
  have hrow : dot [9e-16, 0] [a, b] ≤ 1 := hp.rows 1 (by decide)
  have hkind : 0 ≤ b := hp.kinds 1 (by decide)
  change 1 * dot [10, -1] [a, b] ≤ 1e17
  norm_num at hrow ⊢
  linarith

/-- **An unbounded verdict does not make a model unbounded**: not where a coefficient is below the
tolerance, not where costs outweigh the penalty, not where rows clash by less than the tolerance or
ratios tie, and not by the revised method where inversion is not exact, although the tableau method
solves that model. -/
theorem unbounded_verdict_without_ray :
    (thinModel.Valid ∧ Answers {} thinModel .unbounded ∧ ¬ thinModel.Unbounded) ∧
    (greedyModel.Valid ∧ Answers {} greedyModel .unbounded ∧ ¬ greedyModel.Unbounded) ∧
    (grazingModel.Valid ∧ Answers {} grazingModel .unbounded ∧ ¬ grazingModel.Unbounded) ∧
    (tiedModel.Valid ∧ Answers {} tiedModel .unbounded ∧ ¬ tiedModel.Unbounded) ∧
    (leakyModel.Valid ∧ Answers { method := .revised } leakyModel .unbounded ∧
      ¬ leakyModel.Unbounded ∧ Answers {} leakyModel .optimal) := by
  refine ⟨⟨by decide, by decide +kernel, not_unbounded_thinModel⟩,
    ⟨by decide, by decide +kernel, not_unbounded_greedyModel⟩,
    ⟨by decide, by decide +kernel, not_unbounded_grazingModel⟩,
    ⟨by decide, by decide +kernel, not_unbounded_tiedModel⟩,
    by decide, by decide +kernel, not_unbounded_leakyModel, by decide +kernel⟩

end Simplex

end LinOpt
