import LinOpt.Proofs.Analysis.CostRanges
import LinOpt.Proofs.Analysis.RhsRanges
import LinOpt.Proofs.Service
/-!
# Pricing a known column

A new activity is priced by the shadow prices, in the sense of the model and against its rows as they
stand. The tableau prices a column of the standard form by the duals of the oriented rows, for
maximisation. Put in front of the first, a variable that the model has already gets the price that the
second has for it. What makes the signs cancel is that a unit in one column of a variable is a unit of
the variable, up to the sign of the column (`Model.componentSums_unit`): so the column has in the rows
what the variable has, turned where a row is (`Model.cell_column`), and nothing in the bounds of other
variables.

The reduced costs are priced over all rows here, for basic columns and for nonbasic ones
(`StandardForm.entry_reducedAt_eq_price`).
-/

namespace LinOpt

open Finset

/-! ## A unit in one column -/

section Unit

variable {es : List (ℕ × ℚ)} {n k : ℕ} {a : ℚ}

/-- Entries elsewhere are worth nothing at a unit vector. -/
theorem valueAt_unit_of_notMem (hk : k < n) (h : k ∉ es.map (·.1)) :
    valueAt es ((zeros n).set k 1) = 0 := by
  refine List.sum_eq_zero fun b hb => ?_
  obtain ⟨e, he, rfl⟩ := List.mem_map.mp hb
  have hne : e.1 ≠ k := fun heq => h (heq ▸ List.mem_map_of_mem he)
  rw [entry_set _ (by simpa using hk), if_neg hne, entry_zeros, mul_zero]

/-- An entry is worth its value at its unit vector, where no place is listed twice. -/
theorem valueAt_unit_of_mem (hk : k < n) (hnodup : (es.map (·.1)).Nodup) (h : (k, a) ∈ es) :
    valueAt es ((zeros n).set k 1) = a := by
  induction es with
  | nil => cases h
  | cons e es ih =>
    obtain ⟨hnot, hrest⟩ : e.1 ∉ es.map (·.1) ∧ (es.map (·.1)).Nodup := by simpa using hnodup
    rw [valueAt_cons, entry_set _ (by simpa using hk)]
    rcases List.mem_cons.mp h with rfl | hmem
    · rw [if_pos rfl, mul_one, valueAt_unit_of_notMem hk hnot, add_zero]
    · have hne : e.1 ≠ k := fun heq => hnot (heq ▸ List.mem_map_of_mem hmem)
      rw [if_neg hne, entry_zeros, mul_zero, zero_add, ih hrest hmem]

end Unit

theorem Kind.nodup_keys_parts (kind : Kind) (first : ℕ) :
    ((kind.parts first : List (ℕ × ℚ)).map (·.1)).Nodup := by
  rw [Kind.keys_parts]
  exact List.nodup_range'

theorem Kind.parts_ne_nil (kind : Kind) (first : ℕ) : (kind.parts first : List (ℕ × ℚ)) ≠ [] := by
  cases kind <;> simp [Kind.parts]

namespace Model

variable {model : Model ℚ} {i j k : ℕ} {sign : ℚ}

section Column

variable (hsized : model.Sized) (hj : j < model.variableCount)
  (hpart : (k, sign) ∈ model.components.getD j [])

include hsized hj hpart

theorem column_lt_structuralWidth : k < structuralWidth model.kinds := by
  rw [components_getD hsized hj] at hpart
  have hkey := (key_of_mem_parts hpart).2
  have hend := firstColumn_add_le_structuralWidth (hsized.kinds.symm ▸ hj)
  omega

theorem column_lt_formWidth : k < model.formWidth :=
  lt_of_lt_of_le (column_lt_structuralWidth hsized hj hpart) (Nat.le_add_right _ _)

/-- **A unit in a column of a variable is a unit of the variable**, with the sign of the column. -/
theorem componentSums_unit : componentSums model.components ((zeros model.formWidth).set k 1) =
    (zeros model.variableCount).set j sign := by
  have hk := column_lt_formWidth hsized hj hpart
  have hcount := StandardForm.length_components hsized
  refine eq_of_entry_eq (by simp [hcount]) fun l hl => ?_
  rw [length_componentSums, hcount] at hl
  rw [entry_componentSums, entry_set _ (by simpa using hj), entry_zeros]
  split
  · rename_i hlj
    obtain rfl := hlj
    refine valueAt_unit_of_mem hk ?_ hpart
    rw [components_getD hsized hl]
    exact Kind.nodup_keys_parts _ _
  · rename_i hne
    refine valueAt_unit_of_notMem hk fun hmem => ?_
    obtain ⟨e, he, rfl⟩ := List.mem_map.mp hmem
    rw [components_getD hsized hl] at he
    rw [components_getD hsized hj] at hpart
    have h1 := key_of_mem_parts he
    have h2 := key_of_mem_parts hpart
    -- the columns of two variables lie in blocks that do not meet
    rcases Nat.lt_or_gt_of_ne hne with hlt | hgt
    · have hle := firstColumn_add_le hlt (le_of_lt (hsized.kinds.symm ▸ hj))
      omega
    · have hle := firstColumn_add_le hgt (le_of_lt (hsized.kinds.symm ▸ hl))
      omega

/-- The column costs what the variable costs, signed for maximisation. -/
theorem entry_objective_column (opts : Options ℚ) :
    entry (model.standardForm opts).objective k =
      model.sense.factor * (sign * entry model.costs j) := by
  rw [entry_objective_eq_gain (column_lt_formWidth hsized hj hpart), gain,
    componentSums_unit hsized hj hpart, dot_comm, dot_single hj]

/-- What a column has in a row of the standard form: the coefficient of the variable in the stated
row, with the sign of the column, turned where the row is. -/
theorem cell_column_stated (opts : Options ℚ) (hi : i < model.statedRows.length) :
    (model.standardForm opts).rows.cell i k =
      turn ((model.standardForm opts).flipped.getD i false)
        (sign * entry model.statedRows[i].coefficients j) := by
  obtain ⟨r, hr, rfl, hrow⟩ := exists_placed hi
  have hk := column_lt_formWidth hsized hj hpart
  have hlength : ((model.standardForm opts).rows.rowAt r.index).length ≤ model.formWidth := by
    rw [rowAt_standardForm opts hr]
    simp
  have hown : k ∉ r.ownEntries.map (·.1) := by
    intro hmem
    obtain ⟨e, he, rfl⟩ := List.mem_map.mp hmem
    have h1 := column_lt_structuralWidth hsized hj hpart
    have h2 := structuralWidth_le_first hr
    have h3 := (PlacedRow.key_of_mem_ownEntries he).1
    omega
  have hread : (model.standardForm opts).rows.cell r.index k =
      dot ((model.standardForm opts).rows.rowAt r.index) ((zeros model.formWidth).set k 1) := by
    rw [dot_comm, dot_unit hk]
    rfl
  rw [hread, dot_eq_sum hlength, flipped_standardForm opts hr]
  refine (sum_row_standardForm opts hr _).trans ?_
  rw [valueAt_unit_of_notMem hk hown, add_zero, hrow, StatedRow.valueAt_oriented,
    componentSums_unit hsized hj hpart, dot_comm, dot_single hj]

variable (hkind : model.kinds.getD j .free ≠ .bin)

include hkind

/-- **What a column has in the rows**: in those of the model the coefficient of its variable, and in
the bounds nothing, as they are bounds of binary variables. -/
theorem cell_column (opts : Options ℚ) (hi : i < model.statedRows.length) :
    (model.standardForm opts).rows.cell i k =
      if i < model.rowCount then
        turn ((model.standardForm opts).flipped.getD i false) (sign * model.rows.cell i j)
      else 0 := by
  rw [cell_column_stated hsized hj hpart opts hi]
  split
  · rename_i hlt
    rw [statedRows_getElem hlt hi]
    rfl
  · rename_i hge
    obtain ⟨l, hl, hcoefficients⟩ : ∃ l, model.kinds.getD l .free = .bin ∧
        model.statedRows[i].coefficients = (zeros model.variableCount).set l 1 := by
      have hmem : model.statedRows[i] ∈
          (List.range model.variableCount).filterMap model.boundRow? := by
        have hget : ((List.range model.rowCount).map model.statedRow ++
            (List.range model.variableCount).filterMap model.boundRow?)[i]? =
              some model.statedRows[i] := List.getElem?_eq_getElem hi
        rw [List.getElem?_append_right (by simpa using hge)] at hget
        exact List.mem_of_getElem? hget
      obtain ⟨l, -, hl⟩ := List.mem_filterMap.mp hmem
      unfold boundRow? at hl
      split at hl
      · exact ⟨l, ‹_›, by rw [← Option.some.inj hl]⟩
      · cases hl
    have hne : j ≠ l := fun heq => hkind (heq ▸ hl)
    rw [hcoefficients]
    have hzero : entry ((zeros model.variableCount).set l (1 : ℚ)) j = 0 := by
      simp [entry, zeros, hne.symm, hj]
    rw [hzero, mul_zero, turn_zero]

end Column

end Model

/-! ## Prices over the rows -/

namespace StandardForm

variable {form : StandardForm ℚ} {basis : List ℕ} {inverse : Dense ℚ} {i k : ℕ}

/-- The duals of the rows at a basis. -/
def rowPrices (form : StandardForm ℚ) (basis : List ℕ) (inverse : Dense ℚ) : List ℚ :=
  Dense.vecMul form.height (pick form.objective basis) inverse

section Exact

variable (hfits : form.Fits basis)
  (hinverse : Dense.mul form.height inverse (form.rows.columns basis) =
    Dense.identity form.height)

include hfits hinverse

/-- A basic column over the basis is a unit column. -/
theorem cell_mul_basic (hi : i < form.height) (hk : k < form.height) :
    (Dense.mul form.width inverse form.rows).cell i (basis.getD k 0) = if i = k then 1 else 0 := by
  have hlength := Dense.length_of_mul_eq_identity hinverse
  have hbasis : k < basis.length := hfits.length_eq.symm ▸ hk
  have hlt : basis.getD k 0 < form.width := hfits.lt_width _ (by simp [hbasis])
  rw [← Dense.cell_identity hi hk, ← hinverse, Dense.cell_mul (hlength.symm ▸ hi) hlt,
    Dense.cell_mul (hlength.symm ▸ hi) hk, Dense.length_columns]
  refine Finset.sum_congr rfl fun s hs => ?_
  rw [Dense.cell_columns (mem_range.mp hs) hbasis]

/-- **A reduced cost is the price of the column over the rows less its cost.** That of a basic column
has been written as zero, and is zero. -/
theorem entry_reducedAt_eq_price (hobjective : form.objective.length = form.width)
    (hk : k < form.width) :
    entry (form.reducedAt basis inverse) k =
      ∑ i ∈ range form.height, entry (form.rowPrices basis inverse) i * form.rows.cell i k -
        entry form.objective k := by
  have hprice : ∑ i ∈ range form.height,
      entry (form.rowPrices basis inverse) i * form.rows.cell i k =
        entry (Dense.vecMul form.width (form.rowPrices basis inverse) form.rows) k :=
    (Dense.entry_vecMul hk _ _).symm
  have hkeys : (basis.map fun j => (j, (0 : ℚ))).map (·.1) = basis := keys_map_const _ _
  rw [hprice]
  by_cases hbasic : k ∈ basis
  · obtain ⟨t, ht, rfl⟩ := List.getElem_of_mem hbasic
    have hheight : t < form.height := hfits.length_eq ▸ ht
    have hget : basis[t] = basis.getD t 0 := by simp [ht]
    have hunit : entry (Dense.vecMul form.width (form.rowPrices basis inverse) form.rows)
        (basis.getD t 0) = entry form.objective (basis.getD t 0) := by
      refine (Dense.entry_vecMul_vecMul (hget ▸ hk) _ _ _).trans ?_
      rw [Dense.length_of_mul_eq_identity hinverse,
        Finset.sum_eq_single_of_mem t (mem_range.mpr hheight)]
      · rw [cell_mul_basic hfits hinverse hheight hheight, if_pos rfl, mul_one, entry_pick _ ht]
      · intro i hi hne
        rw [cell_mul_basic hfits hinverse (mem_range.mp hi) hheight, if_neg hne, mul_zero]
    rw [hget, hunit, sub_self, ← hget]
    exact entry_scatter_zero hbasic _
  · rw [reducedAt, entry_scatter_of_notMem (by rw [hkeys]; exact hbasic),
      entry_zipWith_sub (by rw [Dense.length_vecMul, hobjective])]
    rfl

end Exact

end StandardForm

/-! ## The two prices of a variable -/

namespace Model

variable {model : Model ℚ} {opts : Options ℚ} {basis : List ℕ} {inverse : Dense ℚ} {j k : ℕ}
  {sign : ℚ}

/-- What the duals of the rows make of the coefficients of a variable, turned as the rows are. -/
def rowValue (opts : Options ℚ) (model : Model ℚ) (basis : List ℕ) (inverse : Dense ℚ) (j : ℕ) : ℚ :=
  ∑ i ∈ range model.rowCount, entry ((model.standardForm opts).rowPrices basis inverse) i *
    turn ((model.standardForm opts).flipped.getD i false) (model.rows.cell i j)

/-- **What the tableau asks for a column**: the value of the coefficients of its variable less the
cost, with the sign of the column. -/
theorem entry_reducedAt_column (hvalid : model.Valid) (hj : j < model.variableCount)
    (hkind : model.kinds.getD j .free ≠ .bin) (hpart : (k, sign) ∈ model.components.getD j [])
    (hfits : (model.standardForm opts).Fits basis)
    (hinverse : Dense.mul (model.standardForm opts).height inverse
      ((model.standardForm opts).rows.columns basis) =
        Dense.identity (model.standardForm opts).height) :
    entry ((model.standardForm opts).reducedAt basis inverse) k =
      sign * (rowValue opts model basis inverse j - model.sense.factor * entry model.costs j) := by
  have hsized := hvalid.sized
  have hk := column_lt_formWidth hsized hj hpart
  have hheight : model.rowCount ≤ (model.standardForm opts).height := by
    rw [height_standardForm, statedRows, List.length_append, List.length_map, List.length_range]
    exact Nat.le_add_right _ _
  have hcell : ∀ i ∈ range (model.standardForm opts).height,
      (model.standardForm opts).rows.cell i k = if i < model.rowCount then
        turn ((model.standardForm opts).flipped.getD i false) (sign * model.rows.cell i j)
      else 0 := by
    intro i hi
    rw [mem_range, height_standardForm] at hi
    exact cell_column hsized hj hpart hkind opts hi
  have hsum : ∑ i ∈ range (model.standardForm opts).height,
      entry ((model.standardForm opts).rowPrices basis inverse) i *
        (model.standardForm opts).rows.cell i k = sign * rowValue opts model basis inverse j := by
    rw [rowValue, Finset.mul_sum, ← Finset.sum_subset (range_subset_range.mpr hheight)]
    · refine Finset.sum_congr rfl fun i hi => ?_
      rw [hcell i (range_subset_range.mpr hheight hi), if_pos (mem_range.mp hi)]
      unfold turn
      split <;> ring
    · intro i hi hbehind
      rw [hcell i hi, if_neg (by simpa using hbehind), mul_zero]
  rw [StandardForm.entry_reducedAt_eq_price hfits hinverse
    ((length_objective_standardForm opts).trans (width_standardForm opts).symm)
    (hk.trans_eq (width_standardForm opts).symm), hsum, entry_objective_column hsized hj hpart]
  ring

end Model

namespace Run

variable {run : Run ℚ} {opts : Options ℚ} {basis : List ℕ} {inverse : Dense ℚ} {objective : ℚ}
  {j : ℕ}

/-- **What the shadow prices ask for a variable**: its cost less the value of its coefficients, in the
sense of the model. -/
theorem newActivity_stateAt (hvalid : run.model.Valid) :
    (run.stateAt (run.model.standardForm opts) basis inverse objective).newActivity
        (run.model.rows.column j) (entry run.model.costs j) =
      .ok (Scalar.clean (entry run.model.costs j -
        run.model.sense.factor * Model.rowValue opts run.model basis inverse j)) := by
  have hrows := hvalid.sized.rows
  have hlength : (run.model.rows.column j).length = run.model.rowCount := by
    rw [Dense.length_column, hrows]
  have hdot : dot ((run.stateAt (run.model.standardForm opts) basis inverse objective).prices.take
      run.model.rowCount) (run.model.rows.column j) =
        run.model.sense.factor * Model.rowValue opts run.model basis inverse j := by
    rw [dot_eq_sum_right (le_of_eq hlength), Model.rowValue, Finset.mul_sum]
    refine Finset.sum_congr rfl fun i hi => ?_
    have hi' := mem_range.mp hi
    have hheight : i < (run.model.standardForm opts).height := by
      rw [Model.height_standardForm]
      exact Model.lt_length_statedRows hi'
    have hflipped : i < (run.model.standardForm opts).flipped.length := by
      change i < (run.model.placedRows.map (·.row.flipped)).length
      rw [List.length_map, Model.length_placedRows]
      exact Model.lt_length_statedRows hi'
    have hprice : entry (run.stateAt (run.model.standardForm opts) basis inverse
        objective).prices i =
          entry ((run.model.standardForm opts).rowPrices basis inverse) i *
            turn ((run.model.standardForm opts).flipped.getD i false) run.model.sense.factor :=
      entry_signedPrices _ (by rw [Dense.length_vecMul]; exact hheight) hflipped
    rw [entry_take hi', Dense.entry_column (hrows.symm ▸ hi'), hprice]
    unfold turn
    split <;> ring
  have hrowCount : (run.model.rows.column j).length =
      (run.stateAt (run.model.standardForm opts) basis inverse objective).modelRows := hlength
  rw [SensitivityState.newActivity, if_neg (not_not.mpr hrowCount)]
  exact congrArg (fun value => Except.ok (Scalar.clean (entry run.model.costs j - value))) hdot

end Run

namespace Simplex

variable {model : Model ℚ} {opts : Options ℚ} {observer : Observer} {done : Run ℚ}

/-- The state of an optimum whose basic columns are inverted exactly. -/
theorem exists_exact_stateAt (hvalid : model.Valid)
    (hrun : (run observer opts model).outcome = .ok done)
    (hstatus : done.result.status = .optimal) (hinverts : done.InvertsExactly) :
    ∃ basis inverse objective, (model.standardForm opts).Fits basis ∧
      Dense.mul (model.standardForm opts).height inverse
        ((model.standardForm opts).rows.columns basis) =
          Dense.identity (model.standardForm opts).height ∧
      done.sensitivity = .ok (done.stateAt (model.standardForm opts) basis inverse objective) := by
  obtain ⟨basis, hbasis⟩ := hinverts.exists_basis
  have hcomplete := (complete_of_run hrun).1
  obtain ⟨solution, hsolution⟩ : ∃ solution, done.result.solution = some solution := by
    have hsome := hcomplete.solution
    rw [hstatus] at hsome
    exact Option.isSome_iff_exists.mp hsome
  obtain ⟨inverse, hinverse, hstate⟩ := exists_stateAt_of_inverts hvalid hrun hstatus hbasis
    hsolution (hcomplete.length_eq solution hsolution) hinverts
  exact ⟨basis, inverse, _, fits_of_run hvalid hrun hbasis, hinverse, hstate⟩

/-- **Pricing a variable as a new activity agrees with the tableau.** At an optimum whose basic columns
are inverted exactly, a variable that is not binary is priced at the reduced cost of any of its
columns, with the sign of the column and the sense turned round, and a value below `1e-12` in magnitude
made zero. So the price is zero where one of its columns is basic, and the two columns of a free
variable agree. -/
theorem newActivity_agrees (hvalid : model.Valid)
    (hrun : (run observer opts model).outcome = .ok done)
    (hstatus : done.result.status = .optimal) (hinverts : done.InvertsExactly) :
    ∃ state, done.sensitivity = .ok state ∧
      ∀ j < model.variableCount, model.kinds.getD j .free ≠ .bin →
        state.form.components.getD j [] ≠ [] ∧
        (∀ part ∈ state.form.components.getD j [],
          state.newActivity (model.rows.column j) (entry model.costs j) =
            .ok (Scalar.clean (-(model.sense.factor * part.2 * entry state.reduced part.1)))) ∧
        (∀ part ∈ state.form.components.getD j [], part.1 ∈ state.basic →
          state.newActivity (model.rows.column j) (entry model.costs j) = .ok 0) ∧
        ∀ part ∈ state.form.components.getD j [], ∀ other ∈ state.form.components.getD j [],
          part.2 * entry state.reduced part.1 = other.2 * entry state.reduced other.1 := by
  obtain ⟨basis, inverse, objective, hfits, hinverse, hstate⟩ :=
    exists_exact_stateAt hvalid hrun hstatus hinverts
  obtain ⟨rfl, -⟩ := form_of_run hvalid hrun
  refine ⟨_, hstate, fun j hj hkind => ?_⟩
  set state := done.stateAt (done.model.standardForm opts) basis inverse objective
  have hparts : state.form.components.getD j [] =
      (done.model.kinds.getD j .free).parts (firstColumn done.model.kinds j) :=
    Model.components_getD hvalid.sized hj
  have hreduced : ∀ part ∈ state.form.components.getD j [], part.2 * entry state.reduced part.1 =
      Model.rowValue opts done.model basis inverse j -
        done.model.sense.factor * entry done.model.costs j := by
    intro part hpart
    have hcolumn : entry state.reduced part.1 = part.2 *
        (Model.rowValue opts done.model basis inverse j -
          done.model.sense.factor * entry done.model.costs j) :=
      Model.entry_reducedAt_column hvalid hj hkind hpart hfits hinverse
    rw [hparts] at hpart
    rw [hcolumn]
    rcases sign_of_mem_parts hpart with h | h <;> rw [h] <;> ring
  have hprice : ∀ part ∈ state.form.components.getD j [],
      state.newActivity (done.model.rows.column j) (entry done.model.costs j) =
        .ok (Scalar.clean (-(done.model.sense.factor * part.2 * entry state.reduced part.1))) := by
    intro part hpart
    refine (Run.newActivity_stateAt hvalid).trans ?_
    rw [mul_assoc, hreduced part hpart]
    congr 2
    cases done.model.sense <;> simp only [Sense.factor] <;> ring
  refine ⟨?_, hprice, fun part hpart hbasic => ?_, fun part hpart other hother => ?_⟩
  · rw [hparts]
    exact Kind.parts_ne_nil _ _
  · have hzero : entry state.reduced part.1 = 0 := entry_scatter_zero hbasic _
    rw [hprice part hpart, hzero, mul_zero, neg_zero, clean_eq_cut, cut_zero]
  · rw [hreduced part hpart, hreduced other hother]

/-- At the optimum of `fourKindsModel`, which has a turned row, another `u` would cost three, in the one
column that it has; the free variable and the nonpositive one have a basic column. -/
theorem newActivity_agrees_fourKindsModel :
    Model.fourKindsModel.Valid ∧
      ∃ done state, (run .silent {} Model.fourKindsModel).outcome = .ok done ∧
        done.result.status = .optimal ∧ done.InvertsExactly ∧ done.sensitivity = .ok state ∧
        state.form.flipped = [false, true, false, false] ∧
        state.form.components = [[(0, 1)], [(1, 1), (2, -1)], [(3, -1)], [(4, 1)]] ∧
        state.newActivity [1, 1, 1] 2 = .ok (Scalar.clean (-(-1 * 1 * entry state.reduced 0))) ∧
        entry state.reduced 0 = 3 ∧ state.newActivity [1, -1, 0] 3 = .ok 0 ∧
        1 * entry state.reduced 1 = -1 * entry state.reduced 2 ∧
        state.newActivity [-1, 0, 1] (-1) = .ok 0 := by
  have hvalid : Model.fourKindsModel.Valid := by decide
  have hends : ∃ done, (run .silent {} Model.fourKindsModel).outcome = .ok done ∧
      done.result.status = .optimal ∧ done.InvertsExactly ∧
      ∃ state, done.sensitivity = .ok state ∧ state.basic = [3, 1, 8, 9] ∧
        state.form.flipped = [false, true, false, false] ∧
        state.form.components = [[(0, 1)], [(1, 1), (2, -1)], [(3, -1)], [(4, 1)]] ∧
        entry state.reduced 0 = 3 := by decide +kernel
  obtain ⟨done, hrun, hstatus, hinverts, state, hstate, hbasic, hflipped, hcomponents, hreduced⟩ :=
    hends
  obtain ⟨_, hstate', hprices⟩ := newActivity_agrees hvalid hrun hstatus hinverts
  obtain rfl := Except.ok.inj (hstate.symm.trans hstate')
  obtain ⟨-, hu, -⟩ := hprices 0 (by decide) (by decide)
  obtain ⟨-, -, hv, hsame⟩ := hprices 1 (by decide) (by decide)
  obtain ⟨-, -, hw, -⟩ := hprices 2 (by decide) (by decide)
  rw [hcomponents] at hu hv hsame hw
  rw [hbasic] at hv hw
  exact ⟨hvalid, done, state, hrun, hstatus, hinverts, hstate, hflipped, hcomponents,
    hu (0, 1) (by decide), hreduced, hv (1, 1) (by decide) (by decide),
    hsame (1, 1) (by decide) (2, -1) (by decide), hw (3, -1) (by decide) (by decide)⟩

end Simplex

end LinOpt
