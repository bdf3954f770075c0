import LinOpt.Proofs.Analysis.Ranges
import LinOpt.Proofs.Analysis.ShadowPrices
import LinOpt.Proofs.Simplex.Evidence
import LinOpt.Proofs.Simplex.Terminal
/-!
# The ranges of the right-hand sides

Another right-hand side of a row moves one number of the standard form (`StandardForm.movedRhs`). The
basic solution moves with it along a column of the inverse (`Canonical.cell_moved`), and its value by
the price of the row (`Canonical.dot_primalValues_moved`). It goes on solving the equations exactly, so
its point meets the model with the other right-hand side, up to what the basic solution is below zero
and what it has in the artificial columns.

A range keeps the basic solution from falling far below zero: by no more than `1e-12` times the entry
of the column, or the change times the entry where that is negligible (`LosesAtMost`). It says nothing
about artificial columns that rise above zero. `Simplex.rhsRange_forecasts` is what a range and a
shadow price are worth, and `Simplex.rhsRange_forecasts_wrongly` has models where they are off.
-/

namespace LinOpt

open Finset Tableau

variable {model : Model ℚ} {opts : Options ℚ} {k : ℕ} {v d low : ℚ} {y : List ℚ}

/-! ## Other right-hand sides -/

/-- The equations with other right-hand sides. -/
def Equations.withRhs (E : Equations) (rhs : List ℚ) (h : rhs.length = E.rows.length) :
    Equations :=
  { E with rhs, rhs_length := h }

namespace Tableau.Canonical

variable {E : Equations} {T T' : Tableau ℚ} {X : Dense ℚ} {rhs : List ℚ} {i : ℕ} {a : ℚ}
  (h : T.Canonical E)

include h

/-- The basis of a tableau has a tableau for other right-hand sides too. -/
theorem exists_withRhs (hlength : rhs.length = E.rows.length) :
    ∃ T' : Tableau ℚ, T'.Canonical (E.withRhs rhs hlength) ∧ T'.basis = T.basis := by
  obtain ⟨X, hX⟩ := h.exists_exact
  exact exists_canonical_of_inverts (E := E.withRhs rhs hlength) hX h.basis_length h.basis_lt

variable (hX : Dense.mul E.height X (E.rows.columns T.basis) = Dense.identity E.height)

include hX

/-- **The basic solution is worth its right-hand sides at their prices**, under any costs. -/
theorem dot_primalValues_exact (costs : List ℚ) : dot costs T.primalValues =
    dot (Dense.vecMul E.height (pick costs T.basis) X) E.rhs := by
  have hrhs : E.rhs.length ≤ E.height := le_of_eq E.rhs_length
  calc dot costs T.primalValues
      = ∑ i ∈ range E.height, T.cell i E.width * entry costs (T.basic i) := by
        rw [dot_comm, dot_eq_sum (n := E.width) (le_of_eq h.length_primalValues),
          h.sum_primalValues,
          Fin.sum_univ_eq_sum_range fun i => T.cell i E.width * entry costs (T.basic i)]
    _ = dot (pick costs T.basis) T.rhs := by
        rw [dot_eq_sum (n := E.height) (by rw [length_pick, h.basis_length])]
        refine Finset.sum_congr rfl fun i hi => ?_
        rw [h.entry_rhs (mem_range.mp hi),
          entry_pick _ (by rw [h.basis_length]; exact mem_range.mp hi), mul_comm]
        rfl
    _ = dot (Dense.vecMul E.height (pick costs T.basis) X) E.rhs := by
        rw [← h.mulVec_rhs hX,
          Dense.dot_vecMul _ fun i hi => Dense.entry_mulVec_of_length_le hrhs hi]

/-- A basic value is what the row of the inverse makes of the right-hand sides. -/
theorem cell_width_exact (hi : i < E.height) : T.cell i E.width = dot (X.rowAt i) E.rhs := by
  rw [← h.entry_rhs hi, ← h.mulVec_rhs hX,
    Dense.entry_mulVec_eq_dot (lt_of_lt_of_eq hi (Dense.length_of_mul_eq_identity hX).symm)]

variable (hk : k < E.height) (hlength : (E.rhs.set k (entry E.rhs k + a)).length = E.rows.length)
  (h' : T'.Canonical (E.withRhs (E.rhs.set k (entry E.rhs k + a)) hlength))
  (hbasis : T'.basis = T.basis)

include hk h' hbasis

/-- **A right-hand side that changes moves the basic solution along its column of the inverse.** -/
theorem cell_moved (hi : i < E.height) :
    T'.cell i E.width = T.cell i E.width + X.cell i k * a := by
  calc T'.cell i E.width
      = dot (X.rowAt i) (E.rhs.set k (entry E.rhs k + a)) :=
        h'.cell_width_exact (by rw [hbasis]; exact hX) hi
    _ = dot (X.rowAt i) E.rhs + entry (X.rowAt i) k * a := by
        rw [dot_comm, dot_set_add (E.rhs_length ▸ hk), dot_comm, mul_comm a]
    _ = T.cell i E.width + X.cell i k * a := by
        rw [h.cell_width_exact hX hi]
        rfl

/-- **Its value moves by the price of the row.** -/
theorem dot_primalValues_moved (costs : List ℚ) : dot costs T'.primalValues =
    dot costs T.primalValues + a * entry (Dense.vecMul E.height (pick costs T.basis) X) k := by
  have hmoved := h'.dot_primalValues_exact (by rw [hbasis]; exact hX) costs
  rw [hbasis] at hmoved
  rw [hmoved, h.dot_primalValues_exact hX, dot_comm, dot_comm _ E.rhs]
  exact dot_set_add (E.rhs_length ▸ hk) _ _

end Tableau.Canonical

/-! ## The point of a moved right-hand side -/

/-- The right-hand sides of the form where that of row `k` of the model changes by `d`. -/
def StandardForm.movedRhs (form : StandardForm ℚ) (k : ℕ) (d : ℚ) : List ℚ :=
  form.rhs.set k (entry form.rhs k + turn (form.flipped.getD k false) d)

namespace SensitivityState

variable (state : SensitivityState ℚ) (k : ℕ) (d : ℚ)

/-- **The basic solution at the moved right-hand sides**: the inverse times them, in the basic
columns. -/
def movedValues : List ℚ :=
  scatter (zeros state.form.width)
    (state.basic.zip (Dense.mulVec state.inverse (state.form.movedRhs k d)))

/-- **What a basic value may fall below zero** within a range, where the right-hand side of row `k`
changes by `d`: an entry of the column that is negligible has not been looked at, and up to the
others the ends of the range are within `1e-12`. -/
structure LosesAtMost (low : ℚ) : Prop where
  negligible : ∀ a ∈ state.inverse.column k, |a| ≤ 1e-12 → |a| * |d| ≤ low
  limited : ∀ a ∈ state.inverse.column k, 1e-12 < |a| → 1e-12 * |a| ≤ low

instance (low : ℚ) : Decidable (state.LosesAtMost k d low) :=
  decidable_of_iff ((∀ a ∈ state.inverse.column k, |a| ≤ 1e-12 → |a| * |d| ≤ low) ∧
      ∀ a ∈ state.inverse.column k, 1e-12 < |a| → 1e-12 * |a| ≤ low)
    ⟨fun ⟨h1, h2⟩ => ⟨h1, h2⟩, fun ⟨h1, h2⟩ => ⟨h1, h2⟩⟩

end SensitivityState

namespace Model

theorem flipped_standardForm (opts : Options ℚ) {r : PlacedRow ℚ} (hr : r ∈ model.placedRows) :
    (model.standardForm opts).flipped.getD r.index false = r.row.flipped := by
  change (model.placedRows.map (·.row.flipped)).getD r.index false = _
  simp [placedRows_index hr]

theorem lt_height_of_lt_rowCount (opts : Options ℚ) (hk : k < model.rowCount) :
    k < (model.penalised opts).height := by
  rw [height_penalised]
  exact lt_length_statedRows hk

/-- The equations of the standard form at moved right-hand sides. -/
def movedEquations (opts : Options ℚ) (model : Model ℚ) (k : ℕ) (d : ℚ) : Equations :=
  (model.penalised opts).withRhs ((model.standardForm opts).movedRhs k d)
    ((List.length_set ..).trans (model.penalised opts).rhs_length)

/-- **A solution of the moved equations meets the rows with the other right-hand side.** -/
theorem meetsAt_of_solves (hk : k < model.rowCount)
    (hy : (model.movedEquations opts k (v - entry model.rhs k)).Solves y) :
    model.MeetsAt (model.rhs.set k v) y := by
  have hk' : k < (model.standardForm opts).rhs.length :=
    (model.penalised opts).rhs_length ▸ lt_height_of_lt_rowCount opts hk
  intro r hr
  have hrow : entry ((model.standardForm opts).rows.mulVec y) r.index =
      entry ((model.standardForm opts).movedRhs k (v - entry model.rhs k)) r.index :=
    congrArg (entry · r.index) hy
  rw [entry_mulVec_rows opts hr, StandardForm.movedRhs, entry_set_add hk',
    entry_rhs_standardForm opts hr] at hrow
  rw [hrow, entry_set _ hk]
  split
  · rename_i hindex
    rw [← hindex, flipped_standardForm opts hr]
  · rw [sub_self, turn_zero]

end Model

/-! ## Within the range -/

namespace SensitivityState

variable {state : SensitivityState ℚ} {flipped : Bool}

/-- **Within the limits a basic value falls below zero by no more than it may lose.** -/
theorem LosesAtMost.neg_le (h : state.LosesAtMost k d low)
    (hallows : Allows (state.rhsDistances (state.inverse.column k)) 1e-12 (turn flipped d))
    {a x : ℚ} (hmem : (a, x) ∈ (state.inverse.column k).zip state.basics) (hx : 0 ≤ x) :
    -low ≤ x + a * turn flipped d := by
  have ha := (List.of_mem_zip hmem).1
  rcases le_or_gt |a| 1e-12 with hsmall | hlarge
  · have hlow : |a * turn flipped d| ≤ low := by
      rw [abs_mul, abs_turn]
      exact h.negligible a ha hsmall
    linarith [neg_le_of_abs_le hlow]
  · rw [rhsDistances_eq, allows_limitsOf_iff] at hallows
    have hlimit := hallows (a, x) hmem hlarge
    have hlow := h.limited a ha hlarge
    dsimp only at hlimit
    linarith

theorem entry_shadowPrices (hk : k < state.modelRows) :
    entry state.shadowPrices k = cut 1e-12 (entry state.prices k) := by
  rw [shadowPrices, entry_map (by rw [clean_eq_cut, cut_zero]), entry_take hk, clean_eq_cut]

end SensitivityState

namespace Run

variable {done : Run ℚ} {T T' : Tableau ℚ} {X : Dense ℚ} {objective : ℚ}
  (hT : T.Canonical (done.model.penalised opts))
  (hX : Dense.mul (done.model.penalised opts).height X
      ((done.model.penalised opts).rows.columns T.basis) =
    Dense.identity (done.model.penalised opts).height)
  (hT' : T'.Canonical (done.model.movedEquations opts k d)) (hbasis : T'.basis = T.basis)
  (hk : k < done.model.rowCount)

include hX hT' hbasis

/-- The moved values of the analysis are the basic solution of the tableau at the moved right-hand
sides. -/
theorem movedValues_stateAt :
    (done.stateAt (done.model.standardForm opts) T.basis X objective).movedValues k d =
      T'.primalValues := by
  have hrhs := hT'.mulVec_rhs (X := X) (by rw [hbasis]; exact hX)
  rw [hT'.primalValues_eq, ← hrhs, hbasis]
  rfl

include hT hk

/-- **Within the range of its right-hand side** the basic solution falls below zero by no more than
it may lose. -/
theorem neg_le_of_contains {state : SensitivityState ℚ}
    (hstate : state = done.stateAt (done.model.standardForm opts) T.basis X objective)
    (hnonneg : ∀ x ∈ state.basics, 0 ≤ x) (hlow : 0 ≤ low) (hloses : state.LosesAtMost k d low)
    (hd : d = v - entry done.model.rhs k) (hv : (state.rangeOfRhs k).contains v 0 = true) {a : ℚ}
    (ha : a ∈ T'.primalValues) : -low ≤ a := by
  have hheight := Model.lt_height_of_lt_rowCount opts hk
  have hlength := Dense.length_of_mul_eq_identity hX
  have hrhs : state.basics = T.rhs := by rw [hstate, ← hT.mulVec_rhs hX]; rfl
  have hinverse : state.inverse = X := by rw [hstate]; rfl
  have hcurrent : entry state.rhs k = entry done.model.rhs k := by rw [hstate]; rfl
  have hallows := allows_of_contains_rangeAround hv
  rw [hcurrent, ← hd] at hallows
  refine hT'.le_of_mem_primalValues (neg_nonpos.mpr hlow) (fun i hi => ?_) ha
  have hi' : i < X.length := lt_of_lt_of_eq hi hlength.symm
  have hmem : (X.cell i k, T.cell i (done.model.penalised opts).width) ∈
      (state.inverse.column k).zip state.basics := by
    have hget := entry_mem_zip (x := X.column k) (y := T.rhs) (j := i)
      (lt_of_lt_of_eq hi' (Dense.length_column X k).symm) (lt_of_lt_of_eq hi hT.length_rhs.symm)
    rw [Dense.entry_column hi', hT.entry_rhs hi] at hget
    rwa [hrhs, hinverse]
  have hx : 0 ≤ T.cell i (done.model.penalised opts).width :=
    hnonneg _ (List.of_mem_zip hmem).2
  have hmoved := hT.cell_moved hX hheight _ hT' hbasis hi
  refine le_of_le_of_eq (hloses.neg_le hallows hmem hx) (Eq.symm ?_)
  rw [hstate]
  exact hmoved

/-- **The objective moves by the price of the row**, exactly at the component sums. -/
theorem dot_costs_moved {state : SensitivityState ℚ}
    (hstate : state = done.stateAt (done.model.standardForm opts) T.basis X objective) :
    dot done.model.costs (componentSums done.model.components T'.primalValues) =
      dot done.model.costs (componentSums done.model.components T.primalValues) +
        entry state.prices k * d := by
  have hheight := Model.lt_height_of_lt_rowCount opts hk
  have hflipped : k < (done.model.standardForm opts).flipped.length := by
    refine lt_of_lt_of_eq hheight ?_
    rw [Model.height_penalised]
    simp [Model.standardForm, StandardForm.assemble]
  have hprice : entry state.prices k =
      entry (Dense.vecMul (done.model.penalised opts).height
        (pick (done.model.standardForm opts).objective T.basis) X) k *
          turn ((done.model.standardForm opts).flipped.getD k false) done.model.sense.factor := by
    rw [hstate]
    exact entry_signedPrices _ (by rw [Dense.length_vecMul]; exact hheight) hflipped
  have hmoved : dot (done.model.standardForm opts).objective T'.primalValues =
      dot (done.model.standardForm opts).objective T.primalValues +
        turn ((done.model.standardForm opts).flipped.getD k false) d * _ :=
    hT.dot_primalValues_moved hX hheight _ hT' hbasis _
  have hcomponents : (done.model.standardForm opts).components = done.model.components := rfl
  rw [Model.dot_objective, Model.dot_objective, hcomponents, Model.gain, Model.gain] at hmoved
  have hfactor : (done.model.sense.factor : ℚ) = 1 ∨ (done.model.sense.factor : ℚ) = -1 := by
    cases done.model.sense <;> simp [Sense.factor]
  rw [hprice, mul_assoc, turn_mul_comm]
  rcases hfactor with hfactor | hfactor <;> rw [hfactor] at hmoved ⊢ <;> linarith

/-- **The forecast of the objective** is off by no more than what the small values are worth that have
been made zero, in the solution, in the point and in the price. -/
theorem abs_dot_sub_forecast_le {state : SensitivityState ℚ}
    (hstate : state = done.stateAt (done.model.standardForm opts) T.basis X
      (dot done.model.costs ((componentSums done.model.components T.primalValues).map (cut 1e-9)))) :
    |dot done.model.costs (reconstruct done.model.components T'.primalValues) -
        (state.objective + entry state.shadowPrices k * d)| ≤
      (1e-9 + 1e-12) * done.model.costSize + 1e-12 * |d| := by
  have hmoved := dot_costs_moved hT hX hT' hbasis hk hstate
  have hmodelRows : k < state.modelRows := by rw [hstate]; exact hk
  have hobjective : state.objective = dot done.model.costs
      ((componentSums done.model.components T.primalValues).map (cut 1e-9)) := by rw [hstate]; rfl
  have hsolution := abs_dot_cut_sub_le (by norm_num : (0 : ℚ) ≤ 1e-9) done.model.costs
    (componentSums done.model.components T.primalValues)
  have hpoint := abs_dot_cut_sub_le (by norm_num : (0 : ℚ) ≤ 1e-12) done.model.costs
    (componentSums done.model.components T'.primalValues)
  have hprice : |cut 1e-12 (entry state.prices k) * d - entry state.prices k * d| ≤
      1e-12 * |d| := by
    rw [← sub_mul, abs_mul]
    exact mul_le_mul_of_nonneg_right (abs_cut_sub_le (by norm_num) _) (abs_nonneg d)
  rw [SensitivityState.entry_shadowPrices hmodelRows, reconstruct_eq, hobjective, Model.costSize]
  rw [abs_le] at hsolution hpoint hprice ⊢
  constructor <;> linarith

end Run

namespace Simplex

variable {observer : Observer} {done : Run ℚ}

/-- **What the range of a right-hand side and its shadow price are worth.** The basic solution at the
moved right-hand sides solves the equations. It is below zero by no more than the basic values may
lose, and its point meets the model with the other right-hand side, up to that, to what is left in the
artificial columns and to the small values that are made zero. The objective there is the forecast of
the shadow price, up to small values again. So everything holds up to `1e-6` for models of moderate
numbers, as long as no artificial column rises above zero. -/
theorem rhsRange_forecasts (observer : Observer) (hvalid : model.Valid)
    (hrun : (run observer {} model).outcome = .ok done) (hstatus : done.result.status = .optimal)
    (hinverts : done.InvertsExactly) :
    ∃ state, done.sensitivity = .ok state ∧ ((∀ x ∈ state.basics, 0 ≤ x) →
      ∀ k < model.rowCount, ∃ range, state.rhsRange k = .ok range ∧
        ∀ v d y p, range.contains v 0 = true → d = v - entry model.rhs k →
          y = state.movedValues k d → p = reconstruct state.form.components y →
          state.form.rows.mulVec y = state.form.movedRhs k d ∧
          (∀ low high, 0 ≤ low → 0 ≤ high → state.LosesAtMost k d low →
            (∀ l ∈ state.form.artificials, entry y l ≤ high) →
            (∀ a ∈ y, -low ≤ a) ∧ (model.withRhs (model.rhs.set k v)).FeasibleWithin low
              (fun i => low + high + 1e-12 * model.rowSize i) p) ∧
          |dot model.costs p - (state.objective + entry state.shadowPrices k * d)| ≤
            (1e-9 + 1e-12) * model.costSize + 1e-12 * |d| ∧
          (state.LosesAtMost k d 9e-7 → (∀ l ∈ state.form.artificials, entry y l ≤ 0) →
            (∀ i < model.rowCount, model.rowSize i ≤ 1e5) → model.costSize ≤ 900 →
            (model.withRhs (model.rhs.set k v)).FeasibleWithin 1e-6 (fun _ => 1e-6) p ∧
              |dot model.costs p - (state.objective + entry state.shadowPrices k * d)| ≤
                1e-6 * (1 + |d|))) := by
  obtain ⟨n, T, -, -, hT, hbasis, hsolution, -⟩ := exists_optimum_of_optimal {} hvalid
    (by norm_num) (by norm_num [feasibilityTolerance]) (by simp) hrun hstatus
  have hlength : ((componentSums model.components T.primalValues).map (cut 1e-9)).length =
      model.variableCount := by
    rw [List.length_map, length_componentSums]
    exact StandardForm.length_components hvalid.sized
  obtain ⟨X, hX, hstate⟩ :=
    exists_stateAt_of_inverts hvalid hrun hstatus hbasis hsolution hlength hinverts
  obtain ⟨rfl, -⟩ := form_of_run hvalid hrun
  generalize hs : done.stateAt (done.model.standardForm {}) T.basis X _ = state at hstate
  refine ⟨state, hstate, fun hnonneg k hk => ⟨_, state.rhsRange_eq (hs ▸ hk), ?_⟩⟩
  intro v d y p hv hd hy hp
  obtain ⟨T', hT', hbasis'⟩ : ∃ T' : Tableau ℚ,
      T'.Canonical (done.model.movedEquations {} k d) ∧ T'.basis = T.basis := hT.exists_withRhs _
  obtain rfl : y = T'.primalValues := by
    rw [hy, ← hs]
    exact Run.movedValues_stateAt hX hT' hbasis'
  obtain rfl : p = reconstruct done.model.components T'.primalValues := by
    rw [hp, ← hs]
    rfl
  have hsolves := hT'.solves_primalValues
  have hvalue := Run.abs_dot_sub_forecast_le hT hX hT' hbasis' hk hs.symm
  have hwithin : ∀ low high, 0 ≤ low → 0 ≤ high → state.LosesAtMost k d low →
      (∀ l ∈ state.form.artificials, entry T'.primalValues l ≤ high) →
      (∀ a ∈ T'.primalValues, -low ≤ a) ∧ (done.model.withRhs (done.model.rhs.set k v)).FeasibleWithin
        low (fun i => low + high + 1e-12 * done.model.rowSize i)
          (reconstruct done.model.components T'.primalValues) := by
    intro low high hlow hhigh hloses hartificials
    have hall : ∀ a ∈ T'.primalValues, -low ≤ a := fun a =>
      Run.neg_le_of_contains hT hX hT' hbasis' hk hs.symm hnonneg hlow hloses hd hv
    have hmeets : done.model.MeetsAt (done.model.rhs.set k v) T'.primalValues :=
      Model.meetsAt_of_solves hk (hd ▸ hsolves)
    have hleft : ∀ l ∈ (done.model.standardForm {}).artificials, entry T'.primalValues l ≤ high := by
      rwa [← hs] at hartificials
    rw [reconstruct_eq]
    exact ⟨hall, (Model.feasibleWithin_of_meetsAt hmeets (le_entry (neg_nonpos.mpr hlow) hall) hlow
      hleft hhigh (List.length_set ..) hvalid).cut hlow (by norm_num)⟩
  refine ⟨?_, hwithin, hvalue, fun hloses hartificials hrows hcosts => ⟨?_, ?_⟩⟩
  · rw [← hs]
    exact hsolves
  · refine (hwithin 9e-7 0 (by norm_num) (le_refl 0) hloses hartificials).2.mono (by norm_num)
      fun i hi => ?_
    have hrow := hrows i (lt_of_lt_of_eq hi (List.length_set ..))
    norm_num
    linarith
  · refine le_trans hvalue ?_
    have habs := abs_nonneg d
    linarith

/-- The right-hand side `-2` of the flipped row of `mixedModel` may fall to `-4`, where the optimum is
at `(0, 4)`. -/
theorem rhsRange_forecasts_mixedModel : ∃ done state range,
    (run .silent {} mixedModel).outcome = .ok done ∧ done.result.status = .optimal ∧
      done.InvertsExactly ∧ done.sensitivity = .ok state ∧ state.rhsRange 1 = .ok range ∧
      range.contains (-4) 0 = true ∧
      (mixedModel.withRhs [4, -4, 5]).FeasibleWithin 1e-6 (fun _ => 1e-6) [0, 4] ∧
      |dot mixedModel.costs [0, 4] - (state.objective + entry state.shadowPrices 1 * -2)| ≤
        1e-6 * (1 + |-2|) := by
  have hvalid : mixedModel.Valid := by decide
  have hends : ∃ done, (run .silent {} mixedModel).outcome = .ok done ∧
      done.result.status = .optimal ∧ done.InvertsExactly ∧
      ∃ state, done.sensitivity = .ok state ∧ (∀ x ∈ state.basics, 0 ≤ x) ∧
        (state.rangeOfRhs 1).contains (-4) 0 = true ∧ state.LosesAtMost 1 (-2) 9e-7 ∧
        (∀ l ∈ state.form.artificials, entry (state.movedValues 1 (-2)) l ≤ 0) ∧
        [0, 4] = reconstruct state.form.components (state.movedValues 1 (-2)) ∧
        state.rhsRange 1 = .ok (state.rangeOfRhs 1) := by decide +kernel
  obtain ⟨done, hrun, hstatus, hinverts, state, hstate, hnonneg, hv, hloses, hartificials, hp,
    hrange⟩ := hends
  obtain ⟨state', hstate', hforecasts⟩ := rhsRange_forecasts .silent hvalid hrun hstatus hinverts
  obtain rfl := Except.ok.inj (hstate.symm.trans hstate')
  obtain ⟨range, hrange', hall⟩ := hforecasts hnonneg 1 (by decide)
  obtain rfl := Except.ok.inj (hrange.symm.trans hrange')
  obtain ⟨-, -, -, hmoderate⟩ := hall (-4) (-2) _ [0, 4] hv (by decide +kernel) rfl hp
  exact ⟨done, state, _, hrun, hstatus, hinverts, hstate, hrange, hv,
    hmoderate hloses hartificials (by decide +kernel) (by decide +kernel)⟩

/-! ## Forecasts that are off -/

/-- An optimum with exactly inverted basic columns, no basic value below zero and every basic
artificial column at zero: the range of the right-hand side of row `k` contains `v`, the basic
solution there is that of the point, and the objective is forecast like this. -/
def Forecasts (model : Model ℚ) (k : ℕ) (v : ℚ) (p : List ℚ) (forecast : ℚ) : Prop :=
  ∃ done, (run .silent {} model).outcome = .ok done ∧ done.result.status = .optimal ∧
    done.InvertsExactly ∧ ∃ state, done.sensitivity = .ok state ∧ (∀ x ∈ state.basics, 0 ≤ x) ∧
      (∀ e ∈ state.basic.zip state.basics, e.1 ∈ state.form.artificials → e.2 = 0) ∧
      (∃ range, state.rhsRange k = .ok range ∧ range.contains v 0 = true) ∧
      reconstruct state.form.components (state.movedValues k (v - entry model.rhs k)) = p ∧
      state.objective + entry state.shadowPrices k * (v - entry model.rhs k) = forecast

instance (model : Model ℚ) (k : ℕ) (v : ℚ) (p : List ℚ) (forecast : ℚ) :
    Decidable (Forecasts model k v p forecast) :=
  inferInstanceAs (Decidable (∃ done, _ = Except.ok done ∧ _))

/-- An entry of the inverse that is negligible: maximise `x` under `1e13 x ≤ 1`. -/
def steepModel : Model ℚ :=
  { sense := .max, rows := [[1e13]], rhs := [1], costs := [1], signs := [.le], kinds := [.nonneg] }

/-- An optimum that is read as zero: maximise `1e9 x` under `x ≤ 5e-10`. -/
def lossyModel : Model ℚ :=
  { sense := .max, rows := [[1]], rhs := [5e-10], costs := [1e9], signs := [.le]
    kinds := [.nonneg] }

/-- **A range may contain right-hand sides that its forecast is wrong about**: where an artificial
column is basic at zero, and rises; where a negligible entry of the inverse counts in a large change;
and where the objective has lost a small value with a large cost. -/
theorem rhsRange_forecasts_wrongly :
    (pinnedModel.Valid ∧ Forecasts pinnedModel 0 1 [0] 0 ∧
      ¬ (pinnedModel.withRhs [1]).FeasibleWithin 1e-6 (fun _ => 1e-6) [0]) ∧
    (steepModel.Valid ∧ Forecasts steepModel 0 (-1e13) [-1] 0 ∧
      ¬ (steepModel.withRhs [-1e13]).FeasibleWithin 1e-6 (fun _ => 1e-6) [-1]) ∧
    (lossyModel.Valid ∧ Forecasts lossyModel 0 1e-9 [1e-9] (1 / 2) ∧
      ¬ |dot lossyModel.costs [1e-9] - 1 / 2| ≤ 1e-6 * (1 + |1e-9 - 5e-10|)) := by
  decide +kernel

end Simplex

end LinOpt
