import LinOpt.Proofs.Simplex.Solution
/-!
# What an infeasible verdict means

A model is called infeasible on two paths. At a terminal basis an artificial column may have kept a
value; then no feasible point is worth more than the penalised value of that basis. After a ray,
phase one may have left an artificial total; then the search ended either at an optimum, which
bounds the extent of every feasible point from below, or at a ray of its own.

None of this excludes a feasible point altogether. The tolerances hide points of large extent, a
finite penalty can be outweighed by costs, phase one may stop at a ray, and the revised method reads
its values off an inverse that need not be exact. `infeasible_verdict` says what is left, and
`infeasible_verdict_with_feasible_point` has a model for each of the four.
-/

namespace LinOpt

open Tableau

variable {opts : Options ℚ} {model : Model ℚ} {T : Tableau ℚ} {p : List ℚ}

/-! ## What a tableau says of the feasible points -/

/-- Weak duality for the vector of a feasible point, whatever the costs are. -/
theorem Tableau.Canonical.dot_lift_le {costs : List ℚ} {hcosts : costs.length = model.formWidth}
    (h : T.Canonical (Model.equations opts model costs hcosts)) {low : ℚ}
    (hreduced : ∀ j < (Model.equations opts model costs hcosts).width,
      -low ≤ T.cell (Model.equations opts model costs hcosts).height j)
    (hvalid : model.Valid) (hp : model.Feasible p) :
    dot costs (model.lift p) ≤ T.objectiveValue + low * model.extent p := by
  have hrepresents := Model.represents_lift opts hvalid hp
  have hlen : (model.lift p).length = (Model.equations opts model costs hcosts).width := by
    rw [Model.length_lift hvalid.sized hp.length_eq, Model.width_equations]
  have hbound := h.dot_le_of_reduced hreduced hlen hrepresents.equations hrepresents.nonneg
  rw [Model.sum_lift hvalid hp] at hbound
  exact hbound

/-- Where no reduced cost of the penalised problem is below `-low`, no feasible point is worth more
than the basic solution, up to `low` times its extent. -/
theorem gain_le_of_reduced (h : T.Canonical (model.penalised opts)) {low : ℚ}
    (hreduced : ∀ j < (model.penalised opts).width,
      -low ≤ T.cell (model.penalised opts).height j)
    (hvalid : model.Valid) (hp : model.Feasible p) :
    model.gain p ≤ dot (model.standardForm opts).objective T.primalValues -
      opts.bigM * (model.standardForm opts).artificialTotal T.primalValues +
        low * model.extent p := by
  have hbound := h.dot_lift_le hreduced hvalid hp
  have hvalue :
      dot (model.standardForm opts).costs T.primalValues = T.objectiveValue := h.dot_primalValues
  rw [Model.dot_costs_of_represents (Model.represents_lift opts hvalid hp), ← hvalue,
    Model.dot_costs] at hbound
  exact hbound

/-- At an optimum of the penalised problem no feasible point is worth more than the basic
solution. -/
theorem gain_le_of_optimum (h : T.Canonical (model.penalised opts))
    (hmove : T.nextMove opts.tol opts.rule = .optimal) (hvalid : model.Valid)
    (hp : model.Feasible p) :
    model.gain p ≤ dot (model.standardForm opts).objective T.primalValues -
      opts.bigM * (model.standardForm opts).artificialTotal T.primalValues +
        opts.tol * model.extent p :=
  gain_le_of_reduced h (fun _ hj => h.le_of_nextMove_optimal hmove hj) hvalid hp

/-- **The artificial total in phase one bounds the extent of every feasible point**, as far as no
reduced cost is below `-low`. -/
theorem artificialTotal_le_of_reduced (h : T.Canonical (model.phaseOne opts)) {low : ℚ}
    (hreduced : ∀ j < (model.phaseOne opts).width, -low ≤ T.cell (model.phaseOne opts).height j)
    (hvalid : model.Valid) (hp : model.Feasible p) :
    (model.standardForm opts).artificialTotal T.primalValues ≤ low * model.extent p := by
  have hbound := h.dot_lift_le hreduced hvalid hp
  rw [Model.dot_phaseOneCosts, (Model.represents_lift opts hvalid hp).artificialTotal_eq,
    neg_zero] at hbound
  rw [artificialTotal_primalValues h]
  linarith

/-- A ray of phase one lowers the artificial total. -/
theorem artificialTotal_ray_lt (h : T.Canonical (model.phaseOne opts)) {tol : ℚ} {rule : PivotRule}
    {col : ℕ} (htol : 0 ≤ tol) (hmove : T.nextMove tol rule = .ray col) :
    (model.standardForm opts).artificialTotal (T.ray col) < -tol := by
  obtain ⟨hcol, hneg, -⟩ := h.ray_of_nextMove hmove
  have hgain : dot (Model.phaseOneCosts opts model) (T.ray col) = _ := h.dot_ray hcol (by linarith)
  rw [Model.dot_phaseOneCosts] at hgain
  linarith

/-! ## What is left in the artificial columns -/

namespace StandardForm

variable (form : StandardForm ℚ) (tol : ℚ) (rule : PivotRule) (done : Run ℚ) (T : Tableau ℚ)

/-- **The run ends at the tableau, with an artificial column above the feasibility tolerance.** The
basic solution there is not negative where every pivot was of least ratio. -/
structure KeepsArtificial : Prop where
  stops : StopsAt tol rule form.tableau T .optimal
  basis_eq : done.basis = some T.basis
  basicAt : form.BasicAt T.basis T.primalValues
  level : ∃ k ∈ form.artificials, feasibilityTolerance < entry T.primalValues k
  nonneg : form.tableau.LeastFrom tol rule → ∀ a ∈ T.primalValues, 0 ≤ a

/-- **The run meets a ray, and phase one stops at the tableau**, with an artificial total above the
feasibility tolerance. -/
structure LeavesGap (move : Move) : Prop where
  basis_eq : done.basis = none
  ray : ∃ S col, StopsAt tol rule form.tableau S (.ray col)
  stops : StopsAt tol .bland form.phaseOneTableau T move
  basicAt : form.BasicAt T.basis T.primalValues
  total : feasibilityTolerance < form.artificialTotal T.primalValues

end StandardForm

namespace Simplex

variable {observer : Observer} {done : Run ℚ}

/-- An optimum with a level above the tolerance keeps an artificial column. -/
theorem keepsArtificial_of_level {k : ℕ} (htol : 0 ≤ opts.tol) (hbasis : done.basis = some T.basis)
    (hstops : StopsAt opts.tol opts.rule (model.standardForm opts).tableau T .optimal)
    (hlevel : feasibilityTolerance < artificialLevel (model.standardForm opts).artificials
      (columnValues opts (model.standardForm opts) ⟨T.basis, T.rhs, k⟩)) :
    (model.standardForm opts).KeepsArtificial opts.tol opts.rule done T := by
  have hstart := model.canonical_standardForm_tableau opts
  have hT := hstart.stopsAt htol hstops
  exact ⟨hstops, hbasis, hT.basicAt, exists_of_lt_level hT hlevel,
    fun hleast => hstart.primalValues_nonneg_of_stopsAt htol hstops hleast start_nonneg⟩

/-- A gap in phase one is an artificial total, not the zero that the total is cut off at. -/
theorem leavesGap_of_lt {move : Move} (htol : 0 ≤ opts.tol) (hbasis : done.basis = none)
    (hray : ∃ S col, StopsAt opts.tol opts.rule (model.standardForm opts).tableau S (.ray col))
    (hstops : StopsAt opts.tol .bland (model.standardForm opts).phaseOneTableau T move)
    (hgap : feasibilityTolerance < max 0 (-T.objectiveValue)) :
    (model.standardForm opts).LeavesGap opts.tol opts.rule done T move := by
  have hT := (model.canonical_phaseOneTableau opts).stopsAt htol hstops
  refine ⟨hbasis, hray, hstops, hT.basicAt, ?_⟩
  rw [artificialTotal_primalValues hT]
  exact (lt_max_iff.mp hgap).resolve_left (not_lt.mpr feasibilityTolerance_nonneg)

/-- What an infeasible verdict rests on, for any options. -/
theorem infeasible_cases (opts : Options ℚ) (hvalid : model.Valid) (htol : 0 ≤ opts.tol)
    (hexact : opts.method = .revised → RevisedExact opts model)
    (hrun : (run observer opts model).outcome = .ok done)
    (hstatus : done.result.status = .infeasible) :
    (∃ T, (model.standardForm opts).KeepsArtificial opts.tol opts.rule done T ∧
      ∀ p, model.Feasible p → model.gain p ≤
        dot (model.standardForm opts).objective T.primalValues -
          opts.bigM * (model.standardForm opts).artificialTotal T.primalValues +
          opts.tol * model.extent p) ∨
    (∃ T, (model.standardForm opts).LeavesGap opts.tol opts.rule done T .optimal ∧
      ∀ p, model.Feasible p →
        (model.standardForm opts).artificialTotal T.primalValues ≤ opts.tol * model.extent p) ∨
    ∃ T col, (model.standardForm opts).LeavesGap opts.tol opts.rule done T (.ray col) ∧
      (model.standardForm opts).RayAt opts.tol T.basis col (T.ray col) ∧
      (model.standardForm opts).artificialTotal (T.ray col) < -opts.tol ∧
      ∀ p, model.Feasible p →
        (model.standardForm opts).artificialTotal T.primalValues ≤
          T.shortfall * model.extent p := by
  have hends := ends_pivotToEnd observer hvalid htol hexact
  rw [outcome_run observer opts hvalid] at hrun
  obtain rfl := Except.ok.inj hrun
  generalize (pivotToEnd observer opts (model.standardForm opts)).outcome =
    answer at hends hstatus ⊢
  cases hends with
  | @optimum k T hleads hmove =>
    have hlevel : feasibilityTolerance < artificialLevel (model.standardForm opts).artificials
        (columnValues opts (model.standardForm opts) ⟨T.basis, T.rhs, k⟩) := by
      rcases status_concluded_ok ⟨T.basis, T.rhs, k⟩ with ⟨hlevel, -⟩ | hoptimal
      · exact hlevel
      · exact absurd (hoptimal.symm.trans hstatus) (by decide)
    have hT := (model.canonical_standardForm_tableau opts).leads htol hleads
    exact .inl ⟨T, keepsArtificial_of_level htol rfl (hleads.stopsAt_optimal hmove) hlevel,
      fun p hp => gain_le_of_optimum hT hmove hvalid hp⟩
  | ray => exact absurd hstatus (by rw [status_concluded_error, Fault.status]; decide)
  | cleared => exact absurd hstatus (by rw [status_concluded_error, Fault.status]; decide)
  | limit => exact absurd hstatus (by rw [status_concluded_error, Fault.status]; decide)
  | @gap k k₁ col T T₁ _ hleads hray hleads₁ hstop hgap =>
    have hT₁ := (model.canonical_phaseOneTableau opts).leads htol hleads₁
    have hmet : ∃ S col, StopsAt opts.tol opts.rule (model.standardForm opts).tableau S (.ray col) :=
      ⟨T, col, hleads.stopsAt_ray hray⟩
    refine .inr ?_
    cases hmove : T₁.nextMove opts.tol .bland with
    | optimal =>
      refine .inl ⟨T₁, leavesGap_of_lt htol rfl hmet (hleads₁.stopsAt_optimal hmove) hgap,
        fun p hp => ?_⟩
      exact artificialTotal_le_of_reduced hT₁ (fun _ hj => hT₁.le_of_nextMove_optimal hmove hj)
        hvalid hp
    | ray entering =>
      refine .inr ⟨T₁, entering, leavesGap_of_lt htol rfl hmet (hleads₁.stopsAt_ray hmove) hgap,
        hT₁.rayAt htol hmove, artificialTotal_ray_lt hT₁ htol hmove, fun p hp => ?_⟩
      exact artificialTotal_le_of_reduced hT₁ (fun _ hj => hT₁.neg_shortfall_le hj) hvalid hp
    | pivot row entering => exact absurd hmove (hstop row entering)

/-- **What an infeasible verdict means**, by either method and either rule. Either the run ends with
an artificial column above the tolerance, and no feasible point is worth more than the penalised
value there; or it meets a ray and phase one stops with an artificial total above the tolerance. Where
phase one stops at an optimum, the total bounds the extent of every feasible point, which is above
100. Where it stops at a ray, the total bounds the extent as far as the reduced costs there allow. -/
theorem infeasible_verdict {form : StandardForm ℚ} (observer : Observer) (rule : PivotRule)
    (method : Method) (hvalid : model.Valid)
    (hbuild : StandardForm.build { rule, method } model = .ok form)
    (hexact : method = .revised → RevisedExact { rule, method } model)
    (hrun : (run observer { rule, method } model).outcome = .ok done)
    (hstatus : done.result.status = .infeasible) :
    (∃ T, form.KeepsArtificial 1e-9 rule done T ∧ ∀ p, model.Feasible p →
      model.gain p ≤ dot form.objective T.primalValues -
        1e6 * form.artificialTotal T.primalValues + 1e-9 * model.extent p) ∨
    (∃ T, form.LeavesGap 1e-9 rule done T .optimal ∧ ∀ p, model.Feasible p →
      form.artificialTotal T.primalValues ≤ 1e-9 * model.extent p ∧ 100 < model.extent p) ∨
    ∃ T col, form.LeavesGap 1e-9 rule done T (.ray col) ∧ form.RayAt 1e-9 T.basis col (T.ray col) ∧
      form.artificialTotal (T.ray col) < -1e-9 ∧ ∀ p, model.Feasible p →
        form.artificialTotal T.primalValues ≤ T.shortfall * model.extent p := by
  rw [StandardForm.build_eq _ hvalid] at hbuild
  obtain rfl := Except.ok.inj hbuild
  rcases infeasible_cases { rule, method } hvalid (by norm_num) hexact hrun hstatus with
    hkept | ⟨T, hgap, hextent⟩ | hray
  · exact .inl hkept
  · refine .inr (.inl ⟨T, hgap, fun p hp => ⟨hextent p hp, ?_⟩⟩)
    have hlt := lt_of_lt_of_le hgap.total (hextent p hp)
    norm_num [feasibilityTolerance] at hlt
    linarith
  · exact .inr (.inr hray)

/-- At most one of `x` and at least two of it: no point is feasible. -/
def clashingModel : Model ℚ :=
  { sense := .max, rows := [[1], [1]], rhs := [1, 2], costs := [3], signs := [.le, .ge],
    kinds := [.nonneg] }

/-- The run ends with the artificial column of the second row at one. -/
theorem infeasible_verdict_clashingModel :
    ∃ done T, (run .silent { rule := .bland, method := .revised } clashingModel).outcome = .ok done ∧
      done.result.status = .infeasible ∧
      (clashingModel.standardForm { rule := .bland, method := .revised }).KeepsArtificial 1e-9 .bland
        done T ∧
      T.primalValues = [1, 0, 0, 1] ∧
      ∀ p, clashingModel.Feasible p →
        clashingModel.gain p ≤ 3 - 1e6 + 1e-9 * clashingModel.extent p := by
  have hvalid : clashingModel.Valid := by decide
  have hends : ∃ done,
      (run .silent { rule := .bland, method := .revised } clashingModel).outcome = .ok done ∧
        done.result.status = .infeasible ∧ done.basis ≠ none := by decide +kernel
  obtain ⟨done, hrun, hstatus, hbasis⟩ := hends
  rcases infeasible_verdict .silent .bland .revised hvalid (StandardForm.build_eq _ hvalid)
    (fun _ => exactFrom_of_exactAlong (by decide +kernel)) hrun hstatus with
      ⟨T, hkept, hgain⟩ | ⟨T, hgap, -⟩ | ⟨T, col, hgap, -⟩
  · have hstop : ((clashingModel.standardForm
        { rule := .bland, method := .revised }).tableau.stop 1e-9 .bland 9).map
          (·.1.primalValues) = some [1, 0, 0, 1] := by decide +kernel
    obtain ⟨⟨T', move⟩, hstop, hvalues⟩ := Option.map_eq_some_iff.mp hstop
    obtain ⟨rfl, -⟩ := (stopsAt_of_stop hstop).unique hkept.stops
    refine ⟨done, _, hrun, hstatus, hkept, hvalues, fun p hp => ?_⟩
    have hbound := hgain p hp
    have hvalue : dot (clashingModel.standardForm
        { rule := .bland, method := .revised }).objective [1, 0, 0, 1] = 3 := by decide +kernel
    have htotal : (clashingModel.standardForm
        { rule := .bland, method := .revised }).artificialTotal [1, 0, 0, 1] = 1 := by decide +kernel
    rw [hvalues, hvalue, htotal] at hbound
    linarith
  · exact absurd hgap.basis_eq hbasis
  · exact absurd hgap.basis_eq hbasis

/-! ## Feasible models that are called infeasible -/

/-- A coefficient below the tolerance: `1e-10 x ≥ 1`. -/
def faintModel : Model ℚ :=
  { sense := .max, rows := [[1e-10]], rhs := [1], costs := [0], signs := [.ge], kinds := [.nonneg] }

/-- A cost above the penalty: minimise `1e7 x` under `x ≥ 1`. -/
def dearModel : Model ℚ :=
  { sense := .min, rows := [[1]], rhs := [1], costs := [1e7], signs := [.ge], kinds := [.nonneg] }

/-- The first column of phase one is a ray within the tolerance: `6e-10 x + y = 1`, twice. -/
def stuckModel : Model ℚ :=
  { sense := .max, rows := [[6e-10, 1], [6e-10, 1]], rhs := [1, 1], costs := [1e7, 0],
    signs := [.eq, .eq]
    kinds := [.nonneg, .nonneg] }

/-- A coefficient that inversion skips: `x = 1e9` and `9e-16 x = 9e-7`. -/
def skippedModel : Model ℚ :=
  { sense := .max, rows := [[1], [9e-16]], rhs := [1e9, 9e-7], costs := [0], signs := [.eq, .eq]
    kinds := [.nonneg] }

/-- **An infeasible verdict does not exclude a feasible point**: not one of large extent, not one
that costs more than the penalty, not where phase one stops at a ray, and not by the revised method
where inversion is not exact, although the tableau method solves that model. -/
theorem infeasible_verdict_with_feasible_point :
    (faintModel.Valid ∧ Answers {} faintModel .infeasible ∧ faintModel.Feasible [1e10]) ∧
    (dearModel.Valid ∧ Answers {} dearModel .infeasible ∧ dearModel.Feasible [1]) ∧
    (stuckModel.Valid ∧ Answers {} stuckModel .infeasible ∧ stuckModel.Feasible [0, 1]) ∧
    (skippedModel.Valid ∧ Answers { method := .revised } skippedModel .infeasible ∧
      skippedModel.Feasible [1e9] ∧ Answers {} skippedModel .optimal) := by
  decide +kernel

end Simplex

end LinOpt
