import LinOpt.Analysis.Sensitivity
import LinOpt.Proofs.Integer.WholeCuts
/-!
# The sensitivity state of a run

Analysing an optimal run inverts its basic columns and prices the rows by the inverse
(`Run.sensitivity_eq`). Everything else is read off the standard form, the basis and the model, which
is what `Run.stateAt` holds.
-/

namespace LinOpt

/-- The prices of the rows, with the signs that the model has given them. -/
def signedPrices (factor : ℚ) (prices : List ℚ) (flipped : List Bool) : List ℚ :=
  List.zipWith (fun y flipped => y * (if flipped then -factor else factor)) prices flipped

theorem entry_signedPrices {prices : List ℚ} {flipped : List Bool} {k : ℕ} (factor : ℚ)
    (hprices : k < prices.length) (hflipped : k < flipped.length) :
    entry (signedPrices factor prices flipped) k =
      entry prices k * turn (flipped.getD k false) factor := by
  simp [signedPrices, entry, turn, hprices, hflipped]

/-- What the analysis of a run holds, given the inverse of its basic columns and its objective. -/
def Run.stateAt (run : Run ℚ) (form : StandardForm ℚ) (basis : List ℕ) (inverse : Dense ℚ)
    (objective : ℚ) : SensitivityState ℚ :=
  let prices := Dense.vecMul form.height (pick form.objective basis) inverse
  let factor : ℚ := run.model.sense.factor
  { form
    basic := basis
    nonbasic := (List.range form.width).filter fun j =>
      !basis.contains j && !form.artificials.contains j
    inverse
    basics := Dense.mulVec inverse form.rhs
    prices := List.zipWith (fun y flipped => y * (if flipped then -factor else factor))
      prices form.flipped
    reduced := scatter (List.zipWith (· - ·) (Dense.vecMul form.width prices form.rows)
      form.objective) (basis.map (·, 0))
    body := Dense.mul form.width inverse form.rows
    objective
    sense := run.model.sense
    costs := run.model.costs
    rhs := run.model.rhs
    modelRows := run.model.rowCount }

/-- The range of the right-hand side of row `k`. -/
def SensitivityState.rangeOfRhs (state : SensitivityState ℚ) (k : ℕ) : Range ℚ :=
  let distances := state.rhsDistances (state.inverse.column k)
  rangeAround (entry state.rhs k) distances.1 distances.2 (state.form.flipped.getD k false)

theorem SensitivityState.rhsRange_eq (state : SensitivityState ℚ) {k : ℕ} (hk : k < state.modelRows) :
    state.rhsRange k = .ok (state.rangeOfRhs k) := by
  unfold rhsRange
  rw [if_neg (by omega)]
  rfl

theorem Run.mem_nonbasic_stateAt {run : Run ℚ} {form : StandardForm ℚ} {basis : List ℕ}
    {inverse : Dense ℚ} {objective : ℚ} {j : ℕ} :
    j ∈ (run.stateAt form basis inverse objective).nonbasic ↔
      j < form.width ∧ j ∉ basis ∧ j ∉ form.artificials := by
  simp [stateAt]

/-- **What the analysis of an optimal run answers.** -/
theorem Run.sensitivity_eq {run : Run ℚ} {form : StandardForm ℚ} {basis : List ℕ}
    (hoptimal : run.isOptimal = true) (hform : run.form = some form)
    (hbasis : run.basis = some basis) :
    run.sensitivity = Dense.inverse (form.rows.columns basis) >>= fun inverse =>
      dotAligned run.model.costs (run.result.solution.getD []) >>= fun objective =>
        .ok (run.stateAt form basis inverse objective) := by
  unfold Run.sensitivity
  rw [hoptimal, Run.terminal_eq hform hbasis, Run.basisInverse_eq hform hbasis]
  rfl

theorem Run.sensitivity_of_not_isOptimal {run : Run ℚ} (h : run.isOptimal = false) :
    run.sensitivity = .error .sensitivityNeedsOptimum := by
  unfold Run.sensitivity
  rw [h]
  rfl

theorem Run.exists_basis_of_isOptimal {run : Run ℚ} (h : run.isOptimal = true) :
    ∃ basis, run.basis = some basis := by
  unfold Run.isOptimal at h
  exact Option.isSome_iff_exists.mp (Bool.and_eq_true_iff.mp h).2

/-- **Where the analysis of a run answers**, the run is optimal and its basic columns have been
inverted. -/
theorem Run.exists_stateAt {run : Run ℚ} {form : StandardForm ℚ} {state : SensitivityState ℚ}
    (hform : run.form = some form) (h : run.sensitivity = .ok state) :
    ∃ basis inverse objective, run.basis = some basis ∧
      Dense.inverse (form.rows.columns basis) = .ok inverse ∧
      state = run.stateAt form basis inverse objective := by
  cases hoptimal : run.isOptimal with
  | false =>
    rw [Run.sensitivity_of_not_isOptimal hoptimal] at h
    cases h
  | true =>
    obtain ⟨basis, hbasis⟩ := Run.exists_basis_of_isOptimal hoptimal
    rw [Run.sensitivity_eq hoptimal hform hbasis] at h
    obtain ⟨inverse, hinverse, h⟩ := exists_of_bind_eq_ok h
    obtain ⟨objective, -, h⟩ := exists_of_bind_eq_ok h
    exact ⟨basis, inverse, objective, hbasis, hinverse, (Except.ok.inj h).symm⟩

end LinOpt
