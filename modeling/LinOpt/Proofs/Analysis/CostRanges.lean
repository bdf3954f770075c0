import LinOpt.Proofs.Analysis.Ranges
import LinOpt.Proofs.Analysis.Rewritings
import LinOpt.Proofs.Simplex.Terminal
/-!
# The ranges of the costs

Another cost of a variable with one column leaves the rows of the standard form alone and moves the
cost of that column (`Model.entry_objective_withCost`). So at the same basis, with the same inverse,
the reduced costs move by a multiple of the change (`StandardForm.entry_reducedAt_change`): that of
the column itself by the opposite of the change where it is not basic, and all others by what they
have in its row where it is. No exactness is needed for this, only that the column is basic once.

The ranges are read off these lines, so they say exactly for which costs the reduced costs stay
nonnegative (`Simplex.costRanges_exact`).
-/

namespace LinOpt

open Finset

/-! ## Another cost -/

/-- The model with another cost of one variable. -/
def Model.withCost (model : Model ℚ) (j : ℕ) (v : ℚ) : Model ℚ :=
  { model with costs := model.costs.set j v }

namespace Model

variable {model : Model ℚ} {opts : Options ℚ} {j k col : ℕ} {v sign : ℚ}

theorem withCost_eq (model : Model ℚ) (j : ℕ) (v : ℚ) :
    model.withCost j v = model.recosted model.sense (model.costs.set j v) := rfl

theorem Valid.withCost (h : model.Valid) (j : ℕ) (v : ℚ) : (model.withCost j v).Valid :=
  h.recosted (List.length_set ..) h.sense

/-- **Another cost leaves the rows of the standard form alone.** -/
theorem rows_withCost : ((model.withCost j v).standardForm opts).rows =
    (model.standardForm opts).rows := by
  rw [withCost_eq, standardForm_recosted (List.length_set ..)]
  simp [standardForm, StandardForm.assemble]

theorem width_withCost : ((model.withCost j v).standardForm opts).width =
    (model.standardForm opts).width := by
  rw [withCost_eq, standardForm_recosted (List.length_set ..)]
  simp [standardForm, StandardForm.assemble, StandardForm.width]

/-- The gain of a point at another cost. -/
theorem gain_withCost (hj : j < model.costs.length) (v : ℚ) (p : List ℚ) :
    (model.withCost j v).gain p =
      model.gain p + model.sense.factor * ((v - entry model.costs j) * entry p j) := by
  have hset : model.costs.set j v =
      model.costs.set j (entry model.costs j + (v - entry model.costs j)) := by
    rw [add_sub_cancel]
  change model.sense.factor * dot (model.costs.set j v) p = _
  rw [hset, dot_set_add hj, mul_add]
  rfl

/-- The cost of a column is the gain of its unit vector. -/
theorem entry_objective_eq_gain (hk : k < model.formWidth) :
    entry (model.standardForm opts).objective k =
      model.gain (componentSums model.components ((zeros model.formWidth).set k 1)) := by
  have hobjective : dot (model.standardForm opts).objective ((zeros model.formWidth).set k 1) =
      model.gain (componentSums model.components ((zeros model.formWidth).set k 1)) :=
    dot_objective opts _
  rwa [dot_comm, dot_unit hk] at hobjective

/-- **Another cost moves the cost of the variable's own column**, and no other. -/
theorem entry_objective_withCost (hj : j < model.costs.length)
    (hcolumn : model.components.getD j [] = [(col, sign)]) (hk : k < model.formWidth) :
    entry ((model.withCost j v).standardForm opts).objective k =
      entry (model.standardForm opts).objective k +
        if k = col then model.sense.factor * sign * (v - entry model.costs j) else 0 := by
  have hwidth : (model.withCost j v).formWidth = model.formWidth := by
    rw [← width_standardForm opts, width_withCost, width_standardForm]
  have hpart : entry (componentSums model.components ((zeros model.formWidth).set k 1)) j =
      if k = col then sign else 0 := by
    rw [entry_componentSums, hcolumn, valueAt_cons, valueAt_nil, add_zero,
      entry_set _ (by rw [length_zeros]; exact hk), entry_zeros]
    simp [eq_comm]
  rw [entry_objective_eq_gain (by rw [hwidth]; exact hk), hwidth, gain_withCost hj,
    entry_objective_eq_gain hk]
  change _ + model.sense.factor * ((v - entry model.costs j) *
    entry (componentSums model.components ((zeros model.formWidth).set k 1)) j) = _
  rw [hpart]
  congr 1
  split <;> ring

end Model

/-! ## Reduced costs at a basis -/

/-- The reduced costs at a basis, priced by an inverse of the basic columns. -/
def StandardForm.reducedAt (form : StandardForm ℚ) (basis : List ℕ) (inverse : Dense ℚ) : List ℚ :=
  scatter (List.zipWith (· - ·) (Dense.vecMul form.width
    (Dense.vecMul form.height (pick form.objective basis) inverse) form.rows) form.objective)
    (basis.map (·, 0))

namespace StandardForm

variable {form form' : StandardForm ℚ} {basis : List ℕ} {inverse : Dense ℚ} {k col : ℕ} {d : ℚ}

/-- The reduced cost of a column is its price over the basis less its cost. -/
theorem entry_reducedAt (hobjective : form.objective.length = form.width)
    (hlength : inverse.length = basis.length) (hk : k < form.width) (hbasis : k ∉ basis) :
    entry (form.reducedAt basis inverse) k =
      ∑ i ∈ range basis.length, entry form.objective (basis.getD i 0) *
        (Dense.mul form.width inverse form.rows).cell i k - entry form.objective k := by
  have hkeys : (basis.map fun j => (j, (0 : ℚ))).map (·.1) = basis := keys_map_const _ _
  rw [reducedAt, entry_scatter_of_notMem (by rw [hkeys]; exact hbasis),
    entry_zipWith_sub (by rw [Dense.length_vecMul, hobjective])]
  congr 1
  refine (Dense.entry_vecMul_vecMul hk _ _ _).trans ?_
  rw [hlength]
  refine Finset.sum_congr rfl fun i hi => ?_
  rw [entry_pick _ (mem_range.mp hi)]

section Change

variable (hrows : form'.rows = form.rows) (hwidth : form'.width = form.width)
  (hobjective : form.objective.length = form.width)
  (hobjective' : form'.objective.length = form.width)
  (hlength : inverse.length = basis.length) (hlt : ∀ j ∈ basis, j < form.width)
  (hchange : ∀ j < form.width,
    entry form'.objective j = entry form.objective j + if j = col then d else 0)
  (hk : k < form.width) (hbasis : k ∉ basis)

include hrows hwidth hobjective hobjective' hlength hlt hchange hk hbasis

/-- **What another cost of one column does to the reduced costs**, at the same basis and with the
same inverse. -/
theorem entry_reducedAt_change :
    entry (form'.reducedAt basis inverse) k = entry (form.reducedAt basis inverse) k +
      ∑ i ∈ range basis.length, (if basis.getD i 0 = col then d else 0) *
        (Dense.mul form.width inverse form.rows).cell i k - if k = col then d else 0 := by
  rw [entry_reducedAt (hobjective'.trans hwidth.symm) hlength (by rw [hwidth]; exact hk) hbasis,
    entry_reducedAt hobjective hlength hk hbasis, hrows, hwidth, hchange k hk]
  have hterm : ∀ i ∈ range basis.length, entry form'.objective (basis.getD i 0) *
      (Dense.mul form.width inverse form.rows).cell i k =
        entry form.objective (basis.getD i 0) *
          (Dense.mul form.width inverse form.rows).cell i k +
        (if basis.getD i 0 = col then d else 0) *
          (Dense.mul form.width inverse form.rows).cell i k := by
    intro i hi
    have hmem : basis.getD i 0 ∈ basis := by simp [mem_range.mp hi]
    rw [hchange _ (hlt _ hmem), add_mul]
  rw [Finset.sum_congr rfl hterm, Finset.sum_add_distrib]
  ring

/-- Where the column is not basic, only its own reduced cost moves. -/
theorem entry_reducedAt_of_notMem (hcol : col ∉ basis) :
    entry (form'.reducedAt basis inverse) k =
      entry (form.reducedAt basis inverse) k - if k = col then d else 0 := by
  rw [entry_reducedAt_change hrows hwidth hobjective hobjective' hlength hlt hchange hk hbasis,
    Finset.sum_eq_zero, add_zero]
  intro i hi
  rw [if_neg, zero_mul]
  rintro rfl
  exact hcol (by simp [mem_range.mp hi])

/-- Where the column is basic once, a reduced cost moves with what its column has in that row. -/
theorem entry_reducedAt_of_mem (hnodup : basis.Nodup) (hcol : col ∈ basis) :
    entry (form'.reducedAt basis inverse) k = entry (form.reducedAt basis inverse) k +
      d * (Dense.mul form.width inverse form.rows).cell (basis.idxOf col) k := by
  have hidx : basis.idxOf col < basis.length := List.idxOf_lt_length_iff.mpr hcol
  have hne : k ≠ col := by
    rintro rfl
    exact hbasis hcol
  rw [entry_reducedAt_change hrows hwidth hobjective hobjective' hlength hlt hchange hk hbasis,
    if_neg hne, sub_zero, Finset.sum_eq_single_of_mem _ (mem_range.mpr hidx)]
  · simp [hidx]
  · intro i hi hother
    have hi' : i < basis.length := mem_range.mp hi
    rw [if_neg, zero_mul]
    rintro rfl
    refine hother ?_
    rw [List.getD_eq_getElem?_getD, List.getElem?_eq_getElem hi', Option.getD_some]
    exact (hnodup.idxOf_getElem i hi').symm

end Change

end StandardForm

section WithCost

variable {model : Model ℚ} {opts : Options ℚ} {basis : List ℕ} {inverse : Dense ℚ} {j k col : ℕ}
  {sign : ℚ} (hfits : (model.standardForm opts).Fits basis)
  (hlength : inverse.length = basis.length) (hj : j < model.costs.length)
  (hcolumn : model.components.getD j [] = [(col, sign)]) (v : ℚ)
  (hk : k < (model.standardForm opts).width) (hbasis : k ∉ basis)

include hfits hlength hj hcolumn hk hbasis

/-- Another cost of a variable that is not basic moves the reduced cost of its own column. -/
theorem Model.entry_reducedAt_withCost_of_notMem (hcol : col ∉ basis) :
    entry (((model.withCost j v).standardForm opts).reducedAt basis inverse) k =
      entry ((model.standardForm opts).reducedAt basis inverse) k -
        if k = col then model.sense.factor * sign * (v - entry model.costs j) else 0 := by
  refine StandardForm.entry_reducedAt_of_notMem rows_withCost width_withCost ?_ ?_ hlength
    hfits.lt_width (fun i hi => ?_) hk hbasis hcol
  · rw [length_objective_standardForm, width_standardForm]
  · rw [length_objective_standardForm, ← width_standardForm opts, width_withCost]
  · rw [width_standardForm] at hi
    exact entry_objective_withCost hj hcolumn hi

/-- Another cost of a basic variable moves every reduced cost with its row. -/
theorem Model.entry_reducedAt_withCost_of_mem (hnodup : basis.Nodup) (hcol : col ∈ basis) :
    entry (((model.withCost j v).standardForm opts).reducedAt basis inverse) k =
      entry ((model.standardForm opts).reducedAt basis inverse) k +
        model.sense.factor * sign * (v - entry model.costs j) *
          (Dense.mul (model.standardForm opts).width inverse (model.standardForm opts).rows).cell
            (basis.idxOf col) k := by
  refine StandardForm.entry_reducedAt_of_mem rows_withCost width_withCost ?_ ?_ hlength
    hfits.lt_width (fun i hi => ?_) hk hbasis hnodup hcol
  · rw [length_objective_standardForm, width_standardForm]
  · rw [length_objective_standardForm, ← width_standardForm opts, width_withCost]
  · rw [width_standardForm] at hi
    exact entry_objective_withCost hj hcolumn hi

end WithCost

/-! ## The state of a run -/

/-- The one column of a variable, and its sign there, are those of the form. -/
theorem SensitivityState.columnOf_eq_ok {state : SensitivityState ℚ} {j col : ℕ} {sign : ℚ}
    (h : state.columnOf j = .ok (col, sign)) :
    j < state.form.components.length ∧ state.form.components.getD j [] = [(col, sign)] := by
  obtain ⟨parts, hread, hparts⟩ := exists_of_bind_eq_ok h
  have hj := lt_of_read_eq hread
  obtain rfl := Except.ok.inj ((position_read_eq hj []).symm.trans hread)
  refine ⟨hj, ?_⟩
  split at hparts
  · rename_i part hpart
    obtain rfl := Except.ok.inj hparts
    exact hpart
  · cases hparts

/-- **The range of a nonbasic variable's cost contains the costs that keep its reduced cost
nonnegative**, apart from its end. -/
theorem Range.contains_oneSided_iff {factor current reduced v : ℚ}
    (hfactor : factor = 1 ∨ factor = -1) (h : (Range.oneSided factor current reduced).Apart v) :
    (Range.oneSided factor current reduced).contains v 0 = true ↔
      0 ≤ reduced - factor * (v - current) := by
  rw [Range.contains_iff]
  rcases hfactor with rfl | rfl
  · have hrange : Range.oneSided 1 current reduced =
        ⟨none, some (Scalar.clean (current + reduced))⟩ := by
      rw [Range.oneSided, if_pos one_pos, div_one]
    rw [hrange] at h ⊢
    simp only [Allows, aboveLower_none, belowUpper_some, true_and, add_zero, one_mul]
    rw [le_clean_iff (h.2 _ rfl), sub_nonneg, sub_le_iff_le_add']
  · have hrange : Range.oneSided (-1) current reduced =
        ⟨some (Scalar.clean (current - reduced)), none⟩ := by
      rw [Range.oneSided, if_neg (by norm_num), div_neg, div_one, sub_eq_add_neg]
    rw [hrange] at h ⊢
    simp only [Allows, belowUpper_none, aboveLower_some, and_true, sub_zero]
    rw [clean_le_iff (h.1 _ rfl)]
    constructor <;> intro h <;> linarith

theorem turn_eq_factor_mul {factor : ℚ} (hfactor : factor = 1 ∨ factor = -1) (d : ℚ) :
    turn (decide (factor < 0)) d = factor * d := by
  rcases hfactor with rfl | rfl
  · have hnot : ¬ (1 : ℚ) < 0 := by norm_num
    simp [turn, hnot]
  · have hneg : (-1 : ℚ) < 0 := by norm_num
    simp [turn, hneg]

namespace SensitivityState

variable {state : SensitivityState ℚ} {j col : ℕ} {sign : ℚ}

theorem nonbasicRange_eq (hcolumn : state.columnOf j = .ok (col, sign)) (hcol : col ∉ state.basic)
    (hj : j < state.costs.length) : state.nonbasicRange j = .ok (Range.oneSided
      (state.sense.factor * sign) (entry state.costs j) (entry state.reduced col)) := by
  unfold nonbasicRange
  rw [hcolumn, ok_bind]
  dsimp only
  rw [if_neg (by simpa using hcol), read_eq hj, ok_bind]
  rfl

theorem basicRange_eq (hcolumn : state.columnOf j = .ok (col, sign)) (hcol : col ∈ state.basic)
    (hj : j < state.costs.length) : state.basicRange j = .ok (rangeAround (entry state.costs j)
      (state.costDistances (state.body.rowAt (state.basic.idxOf col))).1
      (state.costDistances (state.body.rowAt (state.basic.idxOf col))).2
      (decide (state.sense.factor * sign < 0))) := by
  unfold basicRange
  rw [hcolumn, ok_bind]
  dsimp only
  rw [if_neg (by simpa using hcol), read_eq hj, ok_bind]
  rfl

end SensitivityState

section State

variable {run : Run ℚ} {opts : Options ℚ} {basis : List ℕ} {inverse : Dense ℚ} {objective : ℚ}
  {j col : ℕ} {sign : ℚ} (hvalid : run.model.Valid)
  (hcolumn : (run.stateAt (run.model.standardForm opts) basis inverse objective).columnOf j =
    .ok (col, sign))

include hvalid hcolumn

/-- A variable with one column is a variable of the model, and a change of its cost has the size of
the change of the column's. -/
theorem Run.exists_column_of_columnOf : j < run.model.costs.length ∧
    run.model.components.getD j [] = [(col, sign)] ∧
      col < (run.model.standardForm opts).width ∧
      ((run.model.sense.factor : ℚ) * sign = 1 ∨ (run.model.sense.factor : ℚ) * sign = -1) := by
  obtain ⟨hj, hparts⟩ := SensitivityState.columnOf_eq_ok hcolumn
  change j < run.model.components.length at hj
  change run.model.components.getD j [] = _ at hparts
  have hmem : [(col, sign)] ∈ run.model.components := by
    rw [← hparts, List.getD_eq_getElem?_getD, List.getElem?_eq_getElem hj, Option.getD_some]
    exact List.getElem_mem hj
  rw [StandardForm.length_components hvalid.sized] at hj
  refine ⟨hj, hparts, ?_, ?_⟩
  · rw [Model.width_standardForm]
    exact lt_of_lt_of_le (key_lt_of_mem_components hmem List.mem_cons_self) (Nat.le_add_right _ _)
  · rcases sign_of_mem_components hmem List.mem_cons_self with h | h <;> dsimp only at h <;>
      rw [h] <;> cases run.model.sense <;> simp [Sense.factor]

variable (hfits : (run.model.standardForm opts).Fits basis)
  (hlength : inverse.length = basis.length)

include hfits hlength

/-- The range of a nonbasic variable's cost says where its reduced cost stays nonnegative. -/
theorem Run.nonbasicRange_exact (hcol : col ∉ basis) : ∃ range,
    (run.stateAt (run.model.standardForm opts) basis inverse objective).nonbasicRange j = .ok range ∧
      ∀ v, range.Apart v → (range.contains v 0 = true ↔
        0 ≤ entry (((run.model.withCost j v).standardForm opts).reducedAt basis inverse) col) := by
  obtain ⟨hj, hparts, hwidth, hfactor⟩ := Run.exists_column_of_columnOf hvalid hcolumn
  refine ⟨_, SensitivityState.nonbasicRange_eq hcolumn hcol hj, fun v hapart => ?_⟩
  rw [Model.entry_reducedAt_withCost_of_notMem hfits hlength hj hparts v hwidth hcol hcol,
    if_pos rfl]
  exact Range.contains_oneSided_iff hfactor hapart

/-- The range of a basic variable's cost says where the reduced costs of the columns in its row stay
nonnegative. -/
theorem Run.basicRange_exact (hnodup : basis.Nodup) (hcol : col ∈ basis) : ∃ range,
    (run.stateAt (run.model.standardForm opts) basis inverse objective).basicRange j = .ok range ∧
      ∀ v, range.Apart v → (range.contains v 0 = true ↔
        ∀ k ∈ (run.stateAt (run.model.standardForm opts) basis inverse objective).nonbasic,
          1e-12 < |entry ((run.stateAt (run.model.standardForm opts) basis inverse
            objective).body.rowAt (basis.idxOf col)) k| →
          0 ≤ entry (((run.model.withCost j v).standardForm opts).reducedAt basis inverse) k) := by
  obtain ⟨hj, hparts, -, hfactor⟩ := Run.exists_column_of_columnOf hvalid hcolumn
  refine ⟨_, SensitivityState.basicRange_eq hcolumn hcol hj, fun v hapart => ?_⟩
  rw [contains_rangeAround_iff hapart, Prod.mk.eta, SensitivityState.costDistances_eq,
    allows_limitsOf_iff, List.forall_mem_map]
  refine forall₂_congr fun k hk => imp_congr_right fun _ => ?_
  obtain ⟨hwidth, hbasis, -⟩ := Run.mem_nonbasic_stateAt.mp hk
  have hchange := Model.entry_reducedAt_withCost_of_mem hfits hlength hj hparts v hwidth hbasis
    hnodup hcol
  rw [hchange, ← turn_eq_factor_mul hfactor, zero_mul, neg_zero]
  rfl

end State

namespace Simplex

variable {model : Model ℚ} {opts : Options ℚ} {observer : Observer} {done : Run ℚ}
  {state : SensitivityState ℚ} {j col : ℕ} {sign : ℚ}

/-- **The analysis of a run is that of its last basis**, which fits and has no column twice. -/
theorem exists_stateAt_of_run (hvalid : model.Valid)
    (hrun : (run observer opts model).outcome = .ok done) (hstate : done.sensitivity = .ok state) :
    ∃ basis inverse objective,
      state = done.stateAt (model.standardForm opts) basis inverse objective ∧
      done.model = model ∧ (model.standardForm opts).Fits basis ∧ basis.Nodup ∧
      inverse.length = basis.length := by
  obtain ⟨hmodel, hform⟩ := form_of_run hvalid hrun
  obtain ⟨basis, inverse, objective, hbasis, hinverse, rfl⟩ := Run.exists_stateAt hform hstate
  have hfits := fits_of_run hvalid hrun hbasis
  refine ⟨basis, inverse, objective, rfl, hmodel, hfits, nodup_of_run hvalid hrun hbasis, ?_⟩
  rw [Dense.length_inverse hinverse, Dense.length_columns, hfits.length_eq]
  rfl

/-- **Cost ranges are exact.** At the basis of an optimal run, with the inverse of the analysis, let
the reduced costs be computed for another cost of a variable with one column. Apart from its ends, the
range of the cost contains the new cost just where the column's own reduced cost is nonnegative, for a
variable that is not basic; and for a basic variable, just where the reduced costs are nonnegative of
all nonbasic columns that are not negligible in its row. -/
theorem costRanges_exact (observer : Observer) (opts : Options ℚ) (hvalid : model.Valid)
    (hrun : (run observer opts model).outcome = .ok done) (hstate : done.sensitivity = .ok state)
    (hcolumn : state.columnOf j = .ok (col, sign)) :
    (col ∉ state.basic → ∃ range, state.nonbasicRange j = .ok range ∧ ∀ v, range.Apart v →
      ∃ form, StandardForm.build opts (model.withCost j v) = .ok form ∧
        (range.contains v 0 = true ↔ 0 ≤ entry (form.reducedAt state.basic state.inverse) col)) ∧
    (col ∈ state.basic → ∃ range, state.basicRange j = .ok range ∧ ∀ v, range.Apart v →
      ∃ form, StandardForm.build opts (model.withCost j v) = .ok form ∧
        (range.contains v 0 = true ↔ ∀ k ∈ state.nonbasic,
          1e-12 < |entry (state.body.rowAt (state.basic.idxOf col)) k| →
            0 ≤ entry (form.reducedAt state.basic state.inverse) k)) := by
  obtain ⟨basis, inverse, objective, rfl, rfl, hfits, hnodup, hlength⟩ :=
    exists_stateAt_of_run hvalid hrun hstate
  have hbuild : ∀ v, StandardForm.build opts (done.model.withCost j v) =
      .ok ((done.model.withCost j v).standardForm opts) :=
    fun v => StandardForm.build_eq opts (hvalid.withCost j v)
  constructor
  · intro hcol
    obtain ⟨range, hrange, hexact⟩ := Run.nonbasicRange_exact hvalid hcolumn hfits hlength hcol
    exact ⟨range, hrange, fun v hapart => ⟨_, hbuild v, hexact v hapart⟩⟩
  · intro hcol
    obtain ⟨range, hrange, hexact⟩ := Run.basicRange_exact hvalid hcolumn hfits hlength hnodup hcol
    exact ⟨range, hrange, fun v hapart => ⟨_, hbuild v, hexact v hapart⟩⟩

/-- Maximise `3 x + 2 y` under `x + y ≤ 4` and `x + 3 y ≤ 6`: `x` is basic at the optimum and `y` is
not. -/
def leaningModel : Model ℚ :=
  { sense := .max, rows := [[1, 1], [1, 3]], rhs := [4, 6], costs := [3, 2], signs := [.le, .le],
    kinds := [.nonneg, .nonneg] }

theorem costRanges_exact_leaningModel :
    ∃ done state, (run .silent {} leaningModel).outcome = .ok done ∧
      done.sensitivity = .ok state ∧
      (∃ range, state.nonbasicRange 1 = .ok range ∧ ∀ v, range.Apart v →
        ∃ form, StandardForm.build {} (leaningModel.withCost 1 v) = .ok form ∧
          (range.contains v 0 = true ↔ 0 ≤ entry (form.reducedAt state.basic state.inverse) 1)) ∧
      ∃ range, state.basicRange 0 = .ok range ∧ ∀ v, range.Apart v →
        ∃ form, StandardForm.build {} (leaningModel.withCost 0 v) = .ok form ∧
          (range.contains v 0 = true ↔ ∀ k ∈ state.nonbasic,
            1e-12 < |entry (state.body.rowAt (state.basic.idxOf 0)) k| →
              0 ≤ entry (form.reducedAt state.basic state.inverse) k) := by
  have hvalid : leaningModel.Valid := by decide
  have hends : ∃ done, (run .silent {} leaningModel).outcome = .ok done ∧
      ∃ state, done.sensitivity = .ok state ∧ state.columnOf 0 = .ok (0, 1) ∧
        state.columnOf 1 = .ok (1, 1) ∧ 0 ∈ state.basic ∧ 1 ∉ state.basic := by decide +kernel
  obtain ⟨done, hrun, state, hstate, hfirst, hsecond, hbasic, hnonbasic⟩ := hends
  exact ⟨done, state, hrun, hstate,
    (costRanges_exact .silent {} hvalid hrun hstate (j := 1) hsecond).1 hnonbasic,
    (costRanges_exact .silent {} hvalid hrun hstate (j := 0) hfirst).2 hbasic⟩

end Simplex

end LinOpt
