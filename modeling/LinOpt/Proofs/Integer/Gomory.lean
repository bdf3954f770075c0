import LinOpt.Proofs.Integer.CutLoop
import LinOpt.Proofs.StandardForm.Whole
import LinOpt.Proofs.Tableau.FromBasis
/-!
# Gomory cuts

A row of the last tableau is an equation over the columns. At a whole point of a whole model the
columns are whole, so the fractions of the row times the columns add up to the fraction of its
right-hand side and an integer (`exists_whole_near`), and as they are not negative, to no less than
that fraction (`fraction_le_fractionTotal`). The sum is written over the variables through the rows
of the slacks (`exists_cutSum`), and its coefficients are moved to the integers beside them.

Two distances of the method come into it. A fraction within `1e-9` of zero or one is dropped, and a
coefficient within `1e-6` of an integer is moved there, so a point misses the cut by no more than
these times its extent (`Run.CutFrom.dot_le_add`).
-/

namespace LinOpt

open Finset

variable {x p row values : List ℚ} {a b f : ℚ} {j k n : ℕ}

/-! ## Fractions and integers -/

/-- The part of a value above its floor, zero where it is within `1e-9` of zero or one. -/
def fractionOf (a : ℚ) : ℚ :=
  if a - a.floor < fractionSnap ∨ 1 - fractionSnap < a - a.floor then 0 else a - a.floor

theorem fraction_eq (a : ℚ) : fraction a = (.ok (fractionOf a) : Except (Fault ℚ) ℚ) := rfl

theorem fractionOf_eq_of_ne_zero (h : fractionOf a ≠ 0) : fractionOf a = a - a.floor := by
  unfold fractionOf at h ⊢
  split at h
  · exact absurd rfl h
  · rename_i hkeep
    rw [if_neg hkeep]

theorem fractionOf_nonneg (a : ℚ) : 0 ≤ fractionOf a := by
  have hlow := Rat.floor_le a
  unfold fractionOf
  split
  · exact le_refl 0
  · linarith

/-- **The fraction is what a value has beyond an integer**, up to the distance that is dropped. -/
theorem exists_abs_sub_fractionOf_le (a : ℚ) : ∃ m : ℤ, |a - m - fractionOf a| ≤ 1e-9 := by
  have hlow := Rat.floor_le a
  have hhigh := Rat.lt_floor_add_one a
  push_cast at hhigh
  have hsnap : (fractionSnap : ℚ) = 1e-9 := rfl
  unfold fractionOf
  rw [hsnap]
  split_ifs with hdrop
  · rcases hdrop with hsmall | hlarge
    · refine ⟨a.floor, ?_⟩
      rw [abs_le]
      constructor <;> linarith
    · refine ⟨a.floor + 1, ?_⟩
      push_cast
      rw [abs_le]
      constructor <;> linarith
  · refine ⟨a.floor, ?_⟩
    rw [sub_self, abs_zero]
    norm_num

/-- A sum that is not negative and near a value, up to an integer, is no less than the fraction of
the value, where that is further from the next integer than the sum is from the value. -/
theorem fract_sub_le_of_near {s e : ℚ} {z : ℤ} (hnear : |b - z - s| ≤ e) (hs : 0 ≤ s)
    (hfar : e < 1 - (b - b.floor)) : b - b.floor - e ≤ s := by
  obtain ⟨hlow, hhigh⟩ := abs_le.mp hnear
  rcases le_or_gt z b.floor with hz | hz
  · have hz' : (z : ℚ) ≤ b.floor := by exact_mod_cast hz
    linarith
  · -- an integer above the floor would leave the sum negative
    have hz' : (b.floor : ℚ) + 1 ≤ z := by exact_mod_cast hz
    linarith

/-- The next integer is no nearer than the nearest one. -/
theorem wholeGap_le_one_sub_fract (a : ℚ) : wholeGap a ≤ 1 - (a - a.floor) := by
  have hnext := abs_sub_nearestRat_le a (a.floor + 1)
  have hhigh := Rat.lt_floor_add_one a
  push_cast at hnext hhigh
  have hneg : a - (a.floor + 1) < 0 := by linarith
  rw [abs_of_neg hneg] at hnext
  rw [wholeGap]
  linarith

/-- The value, or the nearest integer where that is within `1e-6`. -/
def integralOf (a : ℚ) : ℚ := if wholeGap a ≤ 1e-6 then (nearestRat a : ℚ) else a

theorem integral_eq (a : ℚ) : integral a = (.ok (integralOf a) : Except (Fault ℚ) ℚ) := by
  have habs : Scalar.abs (a - nearestRat a) = wholeGap a := scalar_abs_eq _
  unfold integral integralOf
  rw [nearestWhole_eq, ok_bind, habs]
  simp [integralTolerance]
  rfl

theorem abs_integralOf_sub_le (a : ℚ) : |integralOf a - a| ≤ 1e-6 := by
  unfold integralOf
  split
  · rename_i hnear
    rwa [abs_sub_comm]
  · rw [sub_self, abs_zero]
    norm_num

/-- **A coefficient of a cut that is nearly whole is whole.** -/
theorem integralOf_mem_wholes (h : wholeGap (integralOf a) ≤ 1e-9) : integralOf a ∈ wholes := by
  unfold integralOf at h ⊢
  split
  · exact intCast_mem_wholes _
  · rename_i hfar
    rw [if_neg hfar] at h
    exact absurd (h.trans (by norm_num)) hfar

/-! ## Sums over the columns, written over the variables -/

/-- What the sum so far is worth at a point. -/
def CutSum.value (sum : CutSum ℚ) (p : List ℚ) : ℚ := dot sum.coefficients p + sum.constant

/-- The weight of a column in a cut: the fraction of the row there, nothing for a basic or an
artificial column. -/
def cutWeight (form : StandardForm ℚ) (basis : List ℕ) (row : List ℚ) (k : ℕ) : ℚ :=
  if k ∈ basis ∨ k ∈ form.artificials then 0 else fractionOf (entry row k)

theorem cutWeight_nonneg (form : StandardForm ℚ) (basis : List ℕ) (row : List ℚ) (k : ℕ) :
    0 ≤ cutWeight form basis row k := by
  unfold cutWeight
  split
  · exact le_refl 0
  · exact fractionOf_nonneg _

namespace Model

variable {model : Model ℚ} {opts : Options ℚ} {basis : List ℕ} {sum : CutSum ℚ} {r : PlacedRow ℚ}

theorem rowSlack_standardForm (opts : Options ℚ) :
    (model.standardForm opts).rowSlack = model.placedRows.map PlacedRow.slack := rfl

/-- **Looking up the row of a slack finds one.** -/
theorem exists_find_slack (opts : Options ℚ) (hlow : structuralWidth model.kinds ≤ k)
    (hhigh : k < model.formWidth) (hnot : k ∉ (model.standardForm opts).artificials) :
    ∃ r ∈ model.placedRows, ∃ sign, r.slack = some (k, sign) ∧
      ((model.standardForm opts).rowSlack.zipIdx.find? fun (slack, _) =>
        slack.any fun (column, _) => column == k) = some (some (k, sign), r.index) := by
  rw [rowSlack_standardForm]
  cases hfind : (model.placedRows.map PlacedRow.slack).zipIdx.find? fun (slack, _) =>
      slack.any fun (column, _) => column == k with
  | none =>
    obtain ⟨r, hr, sign, hslack⟩ := exists_slack opts hlow hhigh hnot
    have hmem : (r.slack, r.index) ∈ (model.placedRows.map PlacedRow.slack).zipIdx := by
      rw [List.mem_zipIdx_iff_getElem?, List.getElem?_map, placedRows_index hr]
      rfl
    have hall := List.find?_eq_none.mp hfind _ hmem
    simp [hslack] at hall
  | some found =>
    obtain ⟨slack, i⟩ := found
    have hany := List.find?_some hfind
    obtain ⟨hi, hget⟩ := List.mem_zipIdx' (List.mem_of_find?_eq_some hfind)
    rw [List.getElem_map] at hget
    rw [List.length_map] at hi
    have hindex : model.placedRows[i].index = i := by
      rw [placedRows_getElem hi (by simpa using hi)]
    cases slack with
    | none => simp at hany
    | some slack =>
      obtain ⟨column, sign⟩ := slack
      obtain rfl : column = k := by simpa using hany
      exact ⟨_, List.getElem_mem hi, sign, hget.symm, by rw [hindex]⟩

section Integer

variable (hsized : model.Sized) (hkinds : model.kinds.all Kind.isInteger = true)

include hsized hkinds

theorem length_take_row (opts : Options ℚ) (hr : r ∈ model.placedRows) :
    (((model.standardForm opts).rows.getD r.index []).take model.variableCount).length =
      model.variableCount := by
  have hindex : r.index < (model.standardForm opts).rows.length := by
    have hheight : (model.standardForm opts).rows.length = model.statedRows.length :=
      height_standardForm opts
    rw [hheight]
    exact index_lt hr
  have hrow := length_row_standardForm opts (Dense.rowAt_mem hindex)
  have hle : structuralWidth model.kinds ≤ model.formWidth := Nat.le_add_right _ _
  rw [structuralWidth_eq (all_isPlain_of_all_isInteger hkinds) hsized] at hle
  rw [Dense.rowAt] at hrow
  rw [List.length_take, hrow, min_eq_left hle]

/-- Adding a column keeps a coefficient for every variable. -/
theorem length_addColumn (hcoefficients : sum.coefficients.length = model.variableCount)
    (hk : k < model.formWidth) (hnot : k ∉ (model.standardForm opts).artificials) (f : ℚ) :
    (sum.addColumn (model.standardForm opts) model.variableCount k f).coefficients.length =
      model.variableCount := by
  unfold CutSum.addColumn
  split
  · simpa using hcoefficients
  · rename_i hlow
    rw [← structuralWidth_eq (all_isPlain_of_all_isInteger hkinds) hsized, not_lt] at hlow
    obtain ⟨r, hr, sign, -, hfind⟩ := exists_find_slack opts hlow hk hnot
    rw [hfind]
    dsimp only
    rw [List.length_zipWith, hcoefficients, length_take_row hsized hkinds opts hr, min_self]

variable (hlen : p.length = model.variableCount)

include hlen

/-- A row of the form, cut off behind the variables, is worth at a point what its entries are. -/
theorem dot_take_row (hr : r ∈ model.placedRows) :
    dot (((model.standardForm opts).rows.getD r.index []).take model.variableCount) p =
      valueAt r.row.entries p := by
  have hwidth := structuralWidth_eq (all_isPlain_of_all_isInteger hkinds) hsized
  have hle : model.variableCount ≤ model.formWidth := by
    rw [← hwidth]
    exact Nat.le_add_right _ _
  -- the point ends before the own columns start
  have hown : valueAt r.ownEntries p = 0 := by
    refine List.sum_eq_zero fun a ha => ?_
    obtain ⟨e, he, rfl⟩ := List.mem_map.mp ha
    have hkey := (PlacedRow.key_of_mem_ownEntries he).1
    have hfirst := structuralWidth_le_first hr
    rw [entry_of_length_le (by omega), mul_zero]
  have hsum := sum_row_standardForm opts hr p
  rw [hown, add_zero] at hsum
  rw [← hsum, dot_eq_sum_right (n := model.variableCount) (le_of_eq hlen)]
  have hpast : ∀ j ∈ range model.formWidth, j ∉ range model.variableCount →
      (model.standardForm opts).rows.cell r.index j * entry p j = 0 := by
    intro j _ hj
    rw [entry_of_length_le (by simpa [hlen] using hj), mul_zero]
  rw [← Finset.sum_subset (Finset.range_subset_range.mpr hle) hpast]
  refine Finset.sum_congr rfl fun j hj => ?_
  rw [entry_take (mem_range.mp hj)]
  rfl

/-- **A column that is not artificial is added at its value in the vector of the point**: a variable
directly, a slack or surplus through its row. -/
theorem value_addColumn (hcoefficients : sum.coefficients.length = model.variableCount)
    (hk : k < model.formWidth) (hnot : k ∉ (model.standardForm opts).artificials) (f : ℚ) :
    (sum.addColumn (model.standardForm opts) model.variableCount k f).value p =
      sum.value p + f * entry (model.lift p) k := by
  have hplain := all_isPlain_of_all_isInteger hkinds
  have hwidth := structuralWidth_eq hplain hsized
  unfold CutSum.addColumn
  split
  · rename_i hlow
    rw [entry_lift_of_lt hplain hsized hlen hlow]
    change dot (sum.coefficients.set k _) p + sum.constant = _
    rw [dot_set_add (hcoefficients.symm ▸ hlow)]
    rw [CutSum.value]
    ring
  · rename_i hlow
    obtain ⟨r, hr, sign, hslack, hfind⟩ :=
      exists_find_slack opts (hwidth.trans_le (not_lt.mp hlow)) hk hnot
    have hpart : model.structuralPart p = p :=
      structuralPart_eq hplain (hlen.trans hsized.kinds.symm)
    have hscaled : List.zipWith (fun c a => c - f * a / sign) sum.coefficients
        (((model.standardForm opts).rows.getD r.index []).take model.variableCount) =
        subScaled sum.coefficients (f / sign)
          (((model.standardForm opts).rows.getD r.index []).take model.variableCount) := by
      unfold subScaled
      congr 1
      funext c a
      ring
    have hlength := length_take_row hsized hkinds opts hr
    rw [hfind]
    dsimp only
    rw [CutSum.value, hscaled, dot_comm, dot_subScaled _ _ (hcoefficients.trans hlength.symm),
      dot_comm p, dot_comm p, dot_take_row hsized hkinds hlen hr, entry_rhs_standardForm opts hr,
      entry_lift_slack hsized hlen hr hslack, hpart, CutSum.value]
    ring

omit hlen in
/-- **The sum of a cut, written over the variables**: it succeeds, has a coefficient for every
variable, and is worth at a point the weights of the columns times their values in the vector of the
point. -/
theorem exists_cutSum (opts : Options ℚ) (basis : List ℕ) (row : List ℚ) {width : ℕ}
    (hwidth : width ≤ model.formWidth) :
    ∃ sum, cutSum (model.standardForm opts) basis model.variableCount width row = .ok sum ∧
      sum.coefficients.length = model.variableCount ∧
      ∀ p : List ℚ, p.length = model.variableCount → sum.value p = ∑ k ∈ range width,
        cutWeight (model.standardForm opts) basis row k * entry (model.lift p) k := by
  unfold cutSum
  induction width with
  | zero =>
    refine ⟨⟨zeros model.variableCount, 0⟩, rfl, by simp, fun p _ => ?_⟩
    rw [CutSum.value, dot_eq_sum (n := model.variableCount) (by simp)]
    simp
  | succ width ih =>
    obtain ⟨sum, hsum, hlength, hvalue⟩ := ih (Nat.le_of_succ_le hwidth)
    rw [List.range_succ, List.foldlM_append, hsum, ok_bind, List.foldlM_cons]
    by_cases hskip : width ∈ basis ∨ width ∈ (model.standardForm opts).artificials
    · have hweight : cutWeight (model.standardForm opts) basis row width = 0 := if_pos hskip
      refine ⟨sum, ?_, hlength, fun p hp => ?_⟩
      · rw [if_pos (by simpa using hskip)]
        rfl
      · rw [hvalue p hp, Finset.sum_range_succ, hweight, zero_mul, add_zero]
    · have hweight : cutWeight (model.standardForm opts) basis row width =
          fractionOf (entry row width) := if_neg hskip
      rw [if_neg (by simpa using hskip), fraction_eq, ok_bind]
      by_cases hzero : fractionOf (entry row width) = 0
      · refine ⟨sum, ?_, hlength, fun p hp => ?_⟩
        · rw [if_pos (by simpa using hzero)]
          rfl
        · rw [hvalue p hp, Finset.sum_range_succ, hweight, hzero, zero_mul, add_zero]
      · have hnot := (not_or.mp hskip).2
        refine ⟨sum.addColumn (model.standardForm opts) model.variableCount width
          (fractionOf (entry row width)), ?_, length_addColumn hsized hkinds hlength hwidth hnot _,
          fun p hp => ?_⟩
        · rw [if_neg (by simpa using hzero)]
          rfl
        · rw [value_addColumn hsized hkinds hp hlength hwidth hnot, hvalue p hp,
            Finset.sum_range_succ, hweight]

end Integer

/-! ## A tableau row at a whole point -/

/-- Every entry of a point is whole where every variable must be. -/
theorem IntegerFeasible.entry_mem (hsized : model.Sized)
    (hkinds : model.kinds.all Kind.isInteger = true) (hx : model.IntegerFeasible x) (j : ℕ) :
    entry x j ∈ wholes := by
  rcases lt_or_ge j model.kinds.length with hj | hj
  · have hkind := List.all_eq_true.mp hkinds _ (List.getElem_mem hj)
    refine mem_wholes.mpr (hx.whole j (List.mem_filter.mpr ⟨List.mem_range.mpr hj, ?_⟩))
    simpa [hj] using hkind
  · rw [entry_of_length_le (by rw [hx.feasible.length_eq, ← hsized.kinds]; exact hj)]
    exact zero_mem _

theorem sum_abs_le_extent (model : Model ℚ) (p : List ℚ) :
    ∑ j ∈ range model.variableCount, |entry p j| ≤ model.extent p := by
  rw [extent, add_assoc]
  exact le_add_of_nonneg_right (add_nonneg (Finset.sum_nonneg fun _ _ => abs_nonneg _)
    (Finset.sum_nonneg fun _ _ => abs_nonneg _))

/-- The weights of a tableau row, times the values of the columns at a point. -/
def fractionTotal (opts : Options ℚ) (model : Model ℚ) (basis : List ℕ) (row p : List ℚ) : ℚ :=
  ∑ k ∈ range model.formWidth,
    cutWeight (model.standardForm opts) basis row k * entry (model.lift p) k

theorem fractionTotal_nonneg (hvalid : model.Valid) (hx : model.Feasible x) (row : List ℚ) :
    0 ≤ model.fractionTotal opts basis row x :=
  Finset.sum_nonneg fun k _ => mul_nonneg (cutWeight_nonneg _ _ _ k)
    (entry_nonneg (fun _ ha => hx.nonneg_lift hvalid ha) k)

/-- The fractions of a row are within a distance of what its entries have beyond an integer, on the
columns that a cut weighs. -/
def FractionsWithin (opts : Options ℚ) (model : Model ℚ) (basis : List ℕ) (row : List ℚ) (e : ℚ) :
    Prop :=
  ∀ k < model.formWidth, k ∉ basis → k ∉ (model.standardForm opts).artificials →
    ∃ m : ℤ, |entry row k - m - fractionOf (entry row k)| ≤ e

section Row

variable {T : Tableau ℚ} {i : ℕ} {e : ℚ} (hvalid : model.Valid)
  (hkinds : model.kinds.all Kind.isInteger = true) (hdata : model.WholeData)
  (hT : T.Canonical (model.penalised opts)) (hi : i < (model.penalised opts).height)
  (he : 0 ≤ e) (hfractions : FractionsWithin opts model T.basis (T.matrix.rowAt i) e)
  (hx : model.IntegerFeasible x)

include hT hi he hfractions

/-- **Each term of a row is an integer times the value of its column, and its weight times the
value**, up to the distance of the fractions. -/
theorem exists_term_near (hvalid : model.Valid) (hx : model.Feasible x) (k : ℕ) :
    ∃ m : ℤ, |T.cell i k * entry (model.lift x) k - m * entry (model.lift x) k -
      cutWeight (model.standardForm opts) T.basis (T.matrix.rowAt i) k * entry (model.lift x) k| ≤
        e * entry (model.lift x) k := by
  have hnonneg : 0 ≤ entry (model.lift x) k :=
    entry_nonneg (fun _ ha => hx.nonneg_lift hvalid ha) k
  have hbound : 0 ≤ e * entry (model.lift x) k := mul_nonneg he hnonneg
  by_cases hpast : model.formWidth ≤ k
  · have hzero : entry (model.lift x) k = 0 :=
      entry_of_length_le ((length_lift hvalid.sized hx.length_eq).trans_le hpast)
    exact ⟨0, by simp [hzero]⟩
  by_cases hbasic : k ∈ T.basis
  · -- a basic column is a unit column
    obtain ⟨l, rfl⟩ := hT.exists_of_mem_basis hbasic
    have hweight : cutWeight (model.standardForm opts) T.basis (T.matrix.rowAt i) (T.basic l) = 0 :=
      if_pos (Or.inl hbasic)
    refine ⟨if i = l then 1 else 0, ?_⟩
    rw [hweight, hT.unit_of_lt hi l.2]
    push_cast
    simpa using hbound
  · by_cases hartificial : k ∈ (model.standardForm opts).artificials
    · -- an artificial column is zero at a point of the model
      have hzero := (represents_lift opts hvalid hx).artificials k hartificial
      exact ⟨0, by simp [hzero]⟩
    · have hweight : cutWeight (model.standardForm opts) T.basis (T.matrix.rowAt i) k =
          fractionOf (T.cell i k) := if_neg (not_or.mpr ⟨hbasic, hartificial⟩)
      obtain ⟨m, hm⟩ := hfractions k (not_le.mp hpast) hbasic hartificial
      refine ⟨m, ?_⟩
      rw [hweight, ← sub_mul, ← sub_mul, abs_mul, abs_of_nonneg hnonneg]
      exact mul_le_mul_of_nonneg_right hm hnonneg

include hvalid hkinds hdata hx

/-- **The weights of a row add up to its right-hand side and an integer**, at a whole point of a
whole model, up to the distance of the fractions times the extent of the point. -/
theorem exists_whole_near : ∃ z : ℤ, |T.cell i model.formWidth - z -
    model.fractionTotal opts T.basis (T.matrix.rowAt i) x| ≤ e * model.extent x := by
  have hlength := length_lift hvalid.sized hx.feasible.length_eq
  choose m hm using exists_term_near hT hi he hfractions hvalid hx.feasible
  have hwhole : ∑ k ∈ range model.formWidth, (m k : ℚ) * entry (model.lift x) k ∈ wholes := by
    refine sum_mem fun k _ => mul_mem (intCast_mem_wholes _) ?_
    exact lift_mem_wholes hvalid.sized hkinds hdata hx.feasible.length_eq
      (hx.entry_mem hvalid.sized hkinds) k
  obtain ⟨z, hz⟩ := mem_wholes.mp hwhole
  have hrow : ∑ k ∈ range model.formWidth, T.cell i k * entry (model.lift x) k =
      T.cell i model.formWidth := by
    have hsum := hT.sum_row (represents_lift opts hvalid hx.feasible).equations hi
    rwa [width_penalised] at hsum
  refine ⟨z, ?_⟩
  calc |T.cell i model.formWidth - z - model.fractionTotal opts T.basis (T.matrix.rowAt i) x|
      = |∑ k ∈ range model.formWidth, (T.cell i k * entry (model.lift x) k -
          m k * entry (model.lift x) k -
          cutWeight (model.standardForm opts) T.basis (T.matrix.rowAt i) k *
            entry (model.lift x) k)| := by
        rw [Finset.sum_sub_distrib, Finset.sum_sub_distrib, hrow, hz, fractionTotal]
    _ ≤ ∑ k ∈ range model.formWidth, e * entry (model.lift x) k :=
        (Finset.abs_sum_le_sum_abs _ _).trans (Finset.sum_le_sum fun k _ => hm k)
    _ = e * model.extent x := by
        rw [← Finset.mul_sum, ← sum_eq_sum_entry (le_of_eq hlength), sum_lift hvalid hx.feasible]

/-- **The weights of a row add up to no less than the fraction of its right-hand side**, where that
is further from the next integer than the fractions allow. -/
theorem fraction_le_fractionTotal
    (hfar : e * model.extent x <
      1 - (T.cell i model.formWidth - (T.cell i model.formWidth).floor)) :
    T.cell i model.formWidth - (T.cell i model.formWidth).floor - e * model.extent x ≤
      model.fractionTotal opts T.basis (T.matrix.rowAt i) x := by
  obtain ⟨z, hz⟩ := exists_whole_near hvalid hkinds hdata hT hi he hfractions hx
  exact fract_sub_le_of_near hz (fractionTotal_nonneg hvalid hx.feasible _) hfar

end Row

end Model

/-! ## Cuts at the end of a run -/

/-- What a Gomory cut is made from: the tableau at the end of the run, the basic column of the
variable in it, and the sum of the fractions of its row. -/
structure Run.CutFrom (run : Run ℚ) (form : StandardForm ℚ) (basis : List ℕ) (j : ℤ) (column : ℕ)
    (T : Tableau ℚ) (sum : CutSum ℚ) (cut : Cut ℚ) : Prop where
  part : ∃ parts sign, Position.read form.components j = (.ok parts : Except (Fault ℚ) _) ∧
    Position.get parts 0 = (.ok (column, sign) : Except (Fault ℚ) _)
  basic : column ∈ basis
  tableau_eq : run.tableau = .ok T
  fraction_ne : fractionOf (T.cell (basis.idxOf column) T.columnCount) ≠ 0
  sum_eq : cutSum form basis run.model.variableCount T.columnCount
    (T.matrix.rowAt (basis.idxOf column)) = .ok sum
  kind_eq : cut.kind = .gomory
  variableIndex_eq : cut.variableIndex = j
  coefficients_eq : cut.coefficients = sum.coefficients.map fun c => integralOf (-c)
  rhs_eq : cut.rhs =
    integralOf (sum.constant - fractionOf (T.cell (basis.idxOf column) T.columnCount))

theorem Run.exists_cutFrom {run : Run ℚ} {form : StandardForm ℚ} {basis : List ℕ} {j : ℤ}
    {cut : Cut ℚ} (hform : run.form = some form) (hbasis : run.basis = some basis)
    (h : run.gomoryCut j = .ok (some cut)) :
    ∃ column T sum, run.CutFrom form basis j column T sum cut := by
  unfold Run.gomoryCut at h
  rw [hform] at h
  obtain ⟨parts, hparts, h⟩ := exists_of_bind_eq_ok h
  obtain ⟨⟨column, sign⟩, hpart, h⟩ := exists_of_bind_eq_ok h
  dsimp only at h
  rw [hbasis] at h
  dsimp only at h
  by_cases hbasic : column ∈ basis
  · rw [if_neg (by simpa using hbasic)] at h
    obtain ⟨T, hT, h⟩ := exists_of_bind_eq_ok h
    have hcell : entry (T.matrix.getD (basis.idxOf column) []) T.columnCount =
        T.cell (basis.idxOf column) T.columnCount := rfl
    rw [hcell, fraction_eq, ok_bind] at h
    by_cases hzero : fractionOf (T.cell (basis.idxOf column) T.columnCount) = 0
    · rw [if_pos (by simpa using hzero)] at h
      cases h
    · rw [if_neg (by simpa using hzero)] at h
      obtain ⟨sum, hsum, h⟩ := exists_of_bind_eq_ok h
      rw [mapM_eq_ok fun c _ => integral_eq (-c), ok_bind, integral_eq, ok_bind] at h
      obtain rfl := Option.some.inj (Except.ok.inj h)
      exact ⟨column, T, sum, ⟨parts, sign, hparts, hpart⟩, hbasic, hT, hzero, hsum, rfl, rfl, rfl, rfl⟩
  · rw [if_pos (by simpa using hbasic)] at h
    cases h

/-- Moving the coefficients of a cut to the integers beside them moves its value by little. -/
theorem abs_dot_integralOf_le (c x : List ℚ) :
    |dot (c.map fun a => integralOf (-a)) x + dot c x| ≤
      1e-6 * ∑ j ∈ range x.length, |entry x j| := by
  have hzero : integralOf (-0) = 0 := by decide +kernel
  have hterm : ∀ j, |entry (c.map fun a => integralOf (-a)) j * entry x j + entry c j * entry x j| ≤
      1e-6 * |entry x j| := by
    intro j
    rw [entry_map (f := fun a => integralOf (-a)) hzero, ← add_mul, abs_mul]
    refine mul_le_mul_of_nonneg_right ?_ (abs_nonneg _)
    have hclose := abs_integralOf_sub_le (-entry c j)
    rwa [sub_neg_eq_add] at hclose
  rw [dot_eq_sum_right (le_refl _), dot_eq_sum_right (le_refl _), ← Finset.sum_add_distrib,
    Finset.mul_sum]
  exact (Finset.abs_sum_le_sum_abs _ _).trans (Finset.sum_le_sum fun j _ => hterm j)

namespace Run.CutFrom

variable {run : Run ℚ} {opts : Options ℚ} {T : Tableau ℚ} {sum : CutSum ℚ} {cut : Cut ℚ}
  {column : ℕ} {variableIndex : ℤ}
  (h : run.CutFrom (run.model.standardForm opts) T.basis variableIndex column T sum cut)
  (hvalid : run.model.Valid) (hkinds : run.model.kinds.all Kind.isInteger = true)
  (hT : T.Canonical (run.model.penalised opts))

include h hvalid hkinds hT

/-- What the sum of a cut is worth at a point. -/
theorem value_eq (hlen : p.length = run.model.variableCount) :
    sum.value p = run.model.fractionTotal opts T.basis
      (T.matrix.rowAt (T.basis.idxOf column)) p := by
  have hcount : T.columnCount = run.model.formWidth :=
    hT.columnCount_eq.trans (Model.width_penalised opts)
  obtain ⟨sum', hsum, -, hvalue⟩ := Model.exists_cutSum hvalid.sized hkinds opts T.basis
    (T.matrix.rowAt (T.basis.idxOf column)) (le_of_eq hcount)
  obtain rfl := Except.ok.inj (h.sum_eq.symm.trans hsum)
  rw [hvalue p hlen, hcount]
  rfl

/-- **A Gomory cut is nearly met by every whole point**, as nearly as its extent and the distances
that are dropped and moved allow. -/
theorem dot_le_add (hdata : run.model.WholeData) (hx : run.model.IntegerFeasible x)
    (hfar : 1e-9 * run.model.extent x < 1 - (T.cell (T.basis.idxOf column) run.model.formWidth -
      (T.cell (T.basis.idxOf column) run.model.formWidth).floor)) :
    dot cut.coefficients x ≤ cut.rhs + (1e-6 + (1e-6 + 1e-9) * run.model.extent x) := by
  have hi : T.basis.idxOf column < (run.model.penalised opts).height := by
    rw [← hT.basis_length]
    exact List.idxOf_lt_length_of_mem h.basic
  have hcount : T.columnCount = run.model.formWidth :=
    hT.columnCount_eq.trans (Model.width_penalised opts)
  have hfraction := h.fraction_ne
  rw [hcount] at hfraction
  have hdropped : Model.FractionsWithin opts run.model T.basis
      (T.matrix.rowAt (T.basis.idxOf column)) 1e-9 :=
    fun k _ _ _ => exists_abs_sub_fractionOf_le _
  have hbelow := Model.fraction_le_fractionTotal hvalid hkinds hdata hT hi (by norm_num) hdropped hx
    hfar
  rw [← h.value_eq hvalid hkinds hT hx.feasible.length_eq, ← fractionOf_eq_of_ne_zero hfraction,
    CutSum.value] at hbelow
  have hmoved := (abs_le.mp (abs_dot_integralOf_le sum.coefficients x)).2
  have hrhs := (abs_le.mp (abs_integralOf_sub_le (sum.constant -
    fractionOf (T.cell (T.basis.idxOf column) run.model.formWidth)))).1
  have hsize := run.model.sum_abs_le_extent x
  rw [← hx.feasible.length_eq] at hsize
  rw [h.coefficients_eq, h.rhs_eq, hcount]
  linarith

end Run.CutFrom

end LinOpt
