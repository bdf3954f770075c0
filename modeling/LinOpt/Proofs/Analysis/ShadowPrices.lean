import LinOpt.Proofs.Analysis.Sensitivity
/-!
# The reduced costs of a sensitivity state

A run ends where no column improves the penalised objective. The analysis prices the same basis with
artificial columns free of cost. The two differ by the penalty times what a column has in the rows
whose basic column is artificial (`SensitivityState.artificialPull`). Where no artificial column is
basic there is no difference, and every reduced cost is above `-tol`
(`Simplex.reducedCosts_at_optimum`). Where one is left at level zero, a reduced cost may be as low as
the penalty allows: `Simplex.negative_reducedCost_at_optimum` has an optimum with one of `-1`.
-/

namespace LinOpt

open Finset

/-- What a column has in the rows whose basic column is artificial, together. -/
def SensitivityState.artificialPull (state : SensitivityState ℚ) (j : ℕ) : ℚ :=
  ∑ i ∈ range state.basic.length,
    if state.basic.getD i 0 ∈ state.form.artificials then state.body.cell i j else 0

/-! ## Penalised costs -/

/-- The penalty is on the artificial columns, and only there. -/
theorem Model.entry_costs_standardForm {model : Model ℚ} (opts : Options ℚ) (k : ℕ) :
    entry (model.standardForm opts).costs k = entry (model.standardForm opts).objective k -
      if k ∈ (model.standardForm opts).artificials then opts.bigM else 0 := by
  have hkeys : ((model.standardForm opts).artificials.map (·, -opts.bigM)).map (·.1) =
      (model.standardForm opts).artificials := keys_map_const _ _
  change entry (scatter (model.standardForm opts).objective
    ((model.standardForm opts).artificials.map (·, -opts.bigM))) k = _
  split
  · rename_i hk
    have hlt : k < (model.standardForm opts).objective.length := by
      rw [Model.length_objective_standardForm]
      exact Model.artificial_lt_formWidth opts hk
    have hmem : (k, -opts.bigM) ∈ (model.standardForm opts).artificials.map (·, -opts.bigM) :=
      List.mem_map.mpr ⟨k, hk, rfl⟩
    rw [entry_scatter_of_mem (by rw [hkeys]; exact Model.nodup_artificials opts) hlt hmem,
      Model.entry_objective_artificial opts hk, zero_sub]
  · rename_i hk
    rw [entry_scatter_of_notMem (by rw [hkeys]; exact hk), sub_zero]

/-! ## Pricing at an exact inverse -/

namespace Tableau.Canonical

variable {E : Equations} {T : Tableau ℚ} {X : Dense ℚ} {i j : ℕ} (h : T.Canonical E)
  (hX : Dense.mul E.height X (E.rows.columns T.basis) = Dense.identity E.height)

include h hX

/-- The columns over the basis are the rows of the tableau. -/
theorem cell_mul_exact (hi : i < E.height) (hj : j < E.width) :
    (Dense.mul E.width X E.rows).cell i j = T.cell i j := by
  have hlength := Dense.length_of_mul_eq_identity hX
  rw [Dense.cell_mul (by rw [hlength]; exact hi) hj, h.cell_eq_sum_of_exact hX hi]
  refine Finset.sum_congr rfl fun k hk => ?_
  rw [E.cell_augmented (mem_range.mp hk) hj]

/-- **Pricing the rows by the inverse prices a column over the basis**, whatever the costs of the
basic columns are. -/
theorem entry_vecMul_exact (costs : List ℚ) (hj : j < E.width) :
    entry (Dense.vecMul E.width (Dense.vecMul E.height (pick costs T.basis) X) E.rows) j =
      ∑ i ∈ range E.height, entry costs (T.basic i) * T.cell i j := by
  have hlength := Dense.length_of_mul_eq_identity hX
  refine (Dense.entry_vecMul_vecMul hj _ _ _).trans ?_
  rw [hlength]
  refine Finset.sum_congr rfl fun i hi => ?_
  rw [entry_pick _ (by rw [h.basis_length]; exact mem_range.mp hi),
    h.cell_mul_exact hX (mem_range.mp hi) hj]
  rfl

end Tableau.Canonical

namespace Run

open Tableau

variable {run : Run ℚ} {model : Model ℚ} {opts : Options ℚ} {T : Tableau ℚ} {X : Dense ℚ}
  {objective : ℚ} {j : ℕ}

/-- **A reduced cost of the analysis is that of the last tableau**, and the penalty of what the
column has in the rows of artificial columns. -/
theorem entry_reduced_stateAt (hT : T.Canonical (model.penalised opts))
    (hX : Dense.mul (model.penalised opts).height X ((model.penalised opts).rows.columns T.basis) =
      Dense.identity (model.penalised opts).height)
    (hj : j ∈ (run.stateAt (model.standardForm opts) T.basis X objective).nonbasic) :
    entry (run.stateAt (model.standardForm opts) T.basis X objective).reduced j =
      T.cell (model.penalised opts).height j + opts.bigM *
        (run.stateAt (model.standardForm opts) T.basis X objective).artificialPull j := by
  obtain ⟨hwidth, hbasis, hartificial⟩ := mem_nonbasic_stateAt.mp hj
  have hlt : j < (model.penalised opts).width := by
    rw [Model.width_penalised, ← Model.width_standardForm opts]
    exact hwidth
  have hlen : (Dense.vecMul (model.standardForm opts).width
      (Dense.vecMul (model.standardForm opts).height
        (pick (model.standardForm opts).objective T.basis) X)
      (model.standardForm opts).rows).length = (model.standardForm opts).objective.length := by
    rw [Dense.length_vecMul, Model.width_standardForm, Model.length_objective_standardForm]
  -- the price of the column with artificial columns free of cost
  have hreduced : entry (run.stateAt (model.standardForm opts) T.basis X objective).reduced j =
      ∑ i ∈ range (model.penalised opts).height,
        entry (model.standardForm opts).objective (T.basic i) * T.cell i j -
          entry (model.standardForm opts).objective j := by
    have hkeys : (T.basis.map fun k => (k, (0 : ℚ))).map (·.1) = T.basis := keys_map_const _ _
    change entry (scatter _ (T.basis.map fun k => (k, (0 : ℚ)))) j = _
    rw [entry_scatter_of_notMem (by rw [hkeys]; exact hbasis), entry_zipWith_sub hlen]
    congr 1
    exact hT.entry_vecMul_exact hX _ hlt
  have hpull : (run.stateAt (model.standardForm opts) T.basis X objective).artificialPull j =
      ∑ i ∈ range (model.penalised opts).height,
        if T.basic i ∈ (model.standardForm opts).artificials then T.cell i j else 0 := by
    change ∑ i ∈ range T.basis.length, _ = _
    rw [hT.basis_length]
    refine Finset.sum_congr rfl fun i hi => if_congr Iff.rfl ?_ rfl
    exact hT.cell_mul_exact hX (mem_range.mp hi) hlt
  have hcosts : (model.penalised opts).costs = (model.standardForm opts).costs := rfl
  rw [hreduced, hpull, hT.objective_range, hcosts, Model.entry_costs_standardForm opts j,
    if_neg hartificial, Finset.mul_sum, sub_zero, sub_add_eq_add_sub, ← Finset.sum_add_distrib]
  congr 1
  refine Finset.sum_congr rfl fun i _ => ?_
  rw [Model.entry_costs_standardForm]
  split <;> ring

end Run

namespace Simplex

open Tableau

variable {model : Model ℚ} {observer : Observer} {done : Run ℚ}

/-- **The analysis of an optimal run answers** where the basic columns are inverted exactly. -/
theorem exists_stateAt_of_inverts {opts : Options ℚ} {basis : List ℕ} {s : List ℚ}
    (hvalid : model.Valid) (hrun : (run observer opts model).outcome = .ok done)
    (hstatus : done.result.status = .optimal) (hbasis : done.basis = some basis)
    (hs : done.result.solution = some s) (hlength : s.length = model.variableCount)
    (hinverts : done.InvertsExactly) :
    ∃ X : Dense ℚ, Dense.mul (model.penalised opts).height X
        ((model.penalised opts).rows.columns basis) =
          Dense.identity (model.penalised opts).height ∧
      done.sensitivity =
        .ok (done.stateAt (model.standardForm opts) basis X (dot model.costs s)) := by
  obtain ⟨hmodel, hform⟩ := form_of_run hvalid hrun
  obtain ⟨ends, hends, X, hinverse, hleft, -⟩ := hinverts
  obtain rfl := Except.ok.inj ((Run.terminal_eq hform hbasis).symm.trans hends)
  rw [Dense.length_columns] at hleft
  have hoptimal : done.isOptimal = true := by
    simp [Run.isOptimal, hstatus, hbasis]
  have hvalue : dotAligned done.model.costs (done.result.solution.getD []) =
      (.ok (dot model.costs s) : Except (Fault ℚ) ℚ) := by
    have hcosts : model.costs.length = s.length := hlength.symm
    rw [hmodel, hs, Option.getD_some, dotAligned, if_pos hcosts]
  refine ⟨X, hleft, ?_⟩
  rw [Run.sensitivity_eq hoptimal hform hbasis, hinverse, ok_bind, hvalue, ok_bind]

/-- Its state is that of the last tableau. -/
theorem exists_stateAt_of_optimal (opts : Options ℚ) (hvalid : model.Valid) (htol : 0 ≤ opts.tol)
    (hexact : opts.method = .revised → RevisedExact opts model)
    (hrun : (run observer opts model).outcome = .ok done)
    (hstatus : done.result.status = .optimal) (hinverts : done.InvertsExactly) :
    ∃ (T : Tableau ℚ) (X : Dense ℚ) (objective : ℚ), T.nextMove opts.tol opts.rule = .optimal ∧
      T.Canonical (model.penalised opts) ∧
      Dense.mul (model.penalised opts).height X ((model.penalised opts).rows.columns T.basis) =
        Dense.identity (model.penalised opts).height ∧
      done.sensitivity = .ok (done.stateAt (model.standardForm opts) T.basis X objective) := by
  obtain ⟨n, T, -, hmove, hT, hbasis, hsolution, -⟩ :=
    exists_terminal_of_optimal opts hvalid htol hexact hrun hstatus
  have hlength : ((reconstruct model.components (T.primalValues.map (cut opts.tol))).map
      Scalar.clean).length = model.variableCount := by
    rw [List.length_map, reconstruct, List.length_map]
    exact StandardForm.length_components hvalid.sized
  obtain ⟨X, hleft, hstate⟩ :=
    exists_stateAt_of_inverts hvalid hrun hstatus hbasis hsolution hlength hinverts
  exact ⟨T, X, _, hmove, hT, hleft, hstate⟩

/-- **The reduced costs of an optimum.** A nonbasic column has a reduced cost above `-tol`, up to the
penalty of what it has in the rows whose basic column is artificial; so all of them are above `-tol`
where no artificial column is basic. -/
theorem reducedCosts_at_optimum (observer : Observer) {tol : ℚ} (htol : 0 ≤ tol)
    (hvalid : model.Valid) (hrun : (run observer { tol } model).outcome = .ok done)
    (hstatus : done.result.status = .optimal) (hinverts : done.InvertsExactly) :
    ∃ state, done.sensitivity = .ok state ∧
      (∀ j ∈ state.nonbasic, 1e6 * state.artificialPull j - tol ≤ entry state.reduced j) ∧
      ((∀ k ∈ state.basic, k ∉ state.form.artificials) →
        ∀ r ∈ pick state.reduced state.nonbasic, -tol ≤ r) := by
  obtain ⟨T, X, objective, hmove, hT, hleft, hstate⟩ :=
    exists_stateAt_of_optimal { tol } hvalid htol (by simp) hrun hstatus hinverts
  refine ⟨_, hstate, ?_⟩
  generalize hs : done.stateAt (model.standardForm { tol }) T.basis X objective = state
  have hreduced : ∀ j ∈ state.nonbasic,
      1e6 * state.artificialPull j - tol ≤ entry state.reduced j := by
    intro j hj
    rw [← hs] at hj ⊢
    have hlt : j < (model.penalised { tol }).width := by
      rw [Model.width_penalised, ← Model.width_standardForm { tol }]
      exact (Run.mem_nonbasic_stateAt.mp hj).1
    have hlow : -tol ≤ T.cell (model.penalised { tol }).height j :=
      hT.le_of_nextMove_optimal hmove hlt
    have hpenalty : ({ tol } : Options ℚ).bigM = 1e6 := rfl
    rw [Run.entry_reduced_stateAt hT hleft hj, hpenalty]
    linarith
  refine ⟨hreduced, fun hnone r hr => ?_⟩
  obtain ⟨j, hj, rfl⟩ := List.mem_map.mp hr
  have hpull : state.artificialPull j = 0 := by
    refine Finset.sum_eq_zero fun i hi => if_neg (hnone _ ?_)
    simp [mem_range.mp hi]
  have hlow := hreduced j hj
  rw [hpull] at hlow
  linarith

/-- No artificial column is basic at the optimum of `mixedModel`, so no reduced cost is negative. -/
theorem reducedCosts_at_optimum_mixedModel :
    ∃ done state, (run .silent {} mixedModel).outcome = .ok done ∧ done.result.status = .optimal ∧
      done.InvertsExactly ∧ done.sensitivity = .ok state ∧ state.nonbasic ≠ [] ∧
      ∀ r ∈ pick state.reduced state.nonbasic, -1e-9 ≤ r := by
  have hvalid : mixedModel.Valid := by decide
  have hends : ∃ done, (run .silent {} mixedModel).outcome = .ok done ∧
      done.result.status = .optimal ∧ done.InvertsExactly ∧
      ∃ state, done.sensitivity = .ok state ∧ state.nonbasic ≠ [] ∧
        ∀ k ∈ state.basic, k ∉ state.form.artificials := by decide +kernel
  obtain ⟨done, hrun, hstatus, hinverts, state, hstate, hne, hnone⟩ := hends
  obtain ⟨state', hstate', -, hreduced⟩ :=
    reducedCosts_at_optimum .silent (by norm_num) hvalid hrun hstatus hinverts
  obtain rfl := Except.ok.inj (hstate.symm.trans hstate')
  exact ⟨done, state, hrun, hstatus, hinverts, hstate, hne, hreduced hnone⟩

/-- Maximise `x` under `-x ≥ 0`: the optimum keeps the artificial column of its row in the basis, at
zero. -/
def pinnedModel : Model ℚ :=
  { sense := .max, rows := [[-1]], rhs := [0], costs := [1], signs := [.ge], kinds := [.nonneg] }

/-- **A reduced cost at an optimum may be far below zero**, with exactly inverted basic columns. -/
theorem negative_reducedCost_at_optimum :
    pinnedModel.Valid ∧ ∃ done, (run .silent {} pinnedModel).outcome = .ok done ∧
      done.result.status = .optimal ∧ done.InvertsExactly ∧
      ∃ state, done.sensitivity = .ok state ∧ pick state.reduced state.nonbasic = [-1, 0] := by
  decide +kernel

end Simplex

end LinOpt
