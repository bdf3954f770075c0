import LinOpt.Instance.Generate
import LinOpt.Proofs.Integer.Rounding
import LinOpt.Proofs.Simplex.Verdicts
import LinOpt.Proofs.StandardForm.Whole
import Mathlib.Data.List.GetD
/-!
# Random instances are feasible and bounded

A packing model (`Model.Packing`) has rows `≤` with positive coefficients and right-hand sides that
are not negative, over variables that are not negative. So the origin is feasible and no row needs an
artificial column. A direction that keeps the equations cannot have an entry that is one and none
below `-tol`, unless `tol` is large against the coefficients: the row that the entry is in would be
worth more than zero (`Packing.not_rayAt`). So whatever tableau the simplex method walks to, it meets
no ray, and it ends at an optimum or runs out of its budget (`Packing.status`).

A random instance is a packing model for every draw of its numbers (`packing_ofDraws`), because rounding
to two decimals does not leave an interval whose ends have two decimals (`between_bounds`).
-/

namespace LinOpt

open Finset

namespace Model

/-- **A packing model**: rows `≤` with right-hand sides that are not negative, over variables that are
not, with coefficients between two bounds. -/
structure Packing (model : Model ℚ) (low high : ℚ) : Prop where
  valid : model.Valid
  signs_eq : ∀ sign ∈ model.signs, sign = .le
  rhs_nonneg : ∀ b ∈ model.rhs, 0 ≤ b
  kinds_eq : ∀ kind ∈ model.kinds, kind = .nonneg ∨ kind = .int
  bounds : ∀ row ∈ model.rows, ∀ a ∈ row, low ≤ a ∧ a ≤ high

namespace Packing

variable {model : Model ℚ} {low high tol : ℚ} {r : PlacedRow ℚ} {opts : Options ℚ}
  (h : model.Packing low high)

include h

/-! ## The standard form -/

theorem isPlain : model.kinds.all Kind.isPlain = true := by
  refine List.all_eq_true.mpr fun kind hkind => ?_
  rcases h.kinds_eq kind hkind with rfl | rfl <;> rfl

theorem boundRow?_eq_none (j : ℕ) : model.boundRow? j = none := by
  refine if_neg fun hbin => ?_
  rcases lt_or_ge j model.kinds.length with hj | hj
  · rw [List.getD_eq_getElem _ _ hj] at hbin
    rcases h.kinds_eq _ (List.getElem_mem hj) with heq | heq <;> simp [heq] at hbin
  · rw [List.getD_eq_default _ _ hj] at hbin
    cases hbin

/-- No variable adds a row. -/
theorem statedRows_eq : model.statedRows = (List.range model.rowCount).map model.statedRow := by
  have hbounds : (List.range model.variableCount).filterMap model.boundRow? = [] :=
    List.filterMap_eq_nil_iff.mpr fun j _ => h.boundRow?_eq_none j
  rw [statedRows, hbounds, List.append_nil]

theorem index_lt_rowCount (hr : r ∈ model.placedRows) : r.index < model.rowCount := by
  have hindex := index_lt hr
  rwa [h.statedRows_eq, List.length_map, List.length_range] at hindex

theorem sign_statedRow {i : ℕ} (hi : i < model.rowCount) : (model.statedRow i).sign = .le := by
  have hi' : i < model.signs.length := by rwa [h.valid.sized.signs]
  change model.signs.getD i .eq = .le
  rw [List.getD_eq_getElem _ _ hi']
  exact h.signs_eq _ (List.getElem_mem hi')

theorem rhs_statedRow (i : ℕ) : 0 ≤ (model.statedRow i).rhs := entry_nonneg h.rhs_nonneg i

/-- A placed row is a row of the model, as it is stated. -/
theorem row_eq (hr : r ∈ model.placedRows) :
    r.row = (model.statedRow r.index).oriented model.components := by
  obtain ⟨hindex, hrow, -⟩ := exists_of_mem_placedRows hr
  rw [hrow, statedRows_getElem (h.index_lt_rowCount hr)]

theorem sign_eq (hr : r ∈ model.placedRows) : r.row.sign = .le := by
  rw [h.row_eq hr]
  exact StatedRow.sign_oriented_of_le _ _ (h.sign_statedRow (h.index_lt_rowCount hr))
    (h.rhs_statedRow r.index)

/-- **No row needs an artificial column.** -/
theorem artificials_eq_nil (opts : Options ℚ) : (model.standardForm opts).artificials = [] := by
  refine List.filterMap_eq_nil_iff.mpr fun r hr => ?_
  rw [PlacedRow.artificial, h.sign_eq hr]

/-- A row at a vector: the row of the model at the structural columns, and the slack. -/
theorem valueAt_row (hr : r ∈ model.placedRows) (x : List ℚ) :
    valueAt r.row.entries x + valueAt r.ownEntries x =
      dot (model.rows.rowAt r.index) (componentSums model.components x) + entry x r.first := by
  have hentries : valueAt r.row.entries x =
      dot (model.rows.rowAt r.index) (componentSums model.components x) := by
    rw [h.row_eq hr, StatedRow.oriented, if_neg (not_lt.mpr (h.rhs_statedRow r.index))]
    exact valueAt_structuralEntries _ _ _
  rw [hentries, PlacedRow.ownEntries, h.sign_eq hr]
  simp

/-! ## Feasible -/

/-- **The origin is feasible.** -/
theorem feasible_zeros : model.Feasible (zeros model.variableCount) where
  length_eq := length_zeros _
  rows := by
    intro i hi
    have hsign : model.signs.getD i .eq = .le := h.sign_statedRow hi
    have hzero : dot (model.rows.rowAt i) (zeros model.variableCount) = 0 := by
      rw [dot_eq_sum_right (n := model.variableCount) (by simp)]
      simp
    rw [hsign, hzero]
    exact h.rhs_statedRow i
  kinds := by
    intro j hj
    have hj' : j < model.kinds.length := by rwa [h.valid.sized.kinds]
    rw [List.getD_eq_getElem _ _ hj', entry_zeros]
    rcases h.kinds_eq _ (List.getElem_mem hj') with heq | heq <;> rw [heq] <;> exact le_refl (0 : ℚ)

/-! ## Bounded -/

theorem cell_bounds {i j : ℕ} (hi : i < model.rowCount) (hj : j < model.variableCount) :
    low ≤ model.rows.cell i j ∧ model.rows.cell i j ≤ high := by
  have hrow := Dense.rowAt_mem (A := model.rows) (by rwa [h.valid.sized.rows])
  have hj' : j < (model.rows.rowAt i).length := by rwa [h.valid.sized.row _ hrow]
  rw [Dense.cell, entry_eq_getElem hj']
  exact h.bounds _ hrow _ (List.getElem_mem hj')

/-- The terms of a row, at a vector with no entry below `-tol`: each is short of nothing by no more
than `high * tol`. -/
theorem term_nonneg {i : ℕ} {s : List ℚ} (hlow : 0 ≤ low) (htol : 0 ≤ tol)
    (hs : ∀ j < model.variableCount, -tol ≤ entry s j) (hi : i < model.rowCount) :
    ∀ j ∈ range model.variableCount, 0 ≤ model.rows.cell i j * entry s j + high * tol := by
  intro j hj
  have hj' := mem_range.mp hj
  obtain ⟨ha, ha'⟩ := h.cell_bounds hi hj'
  have hmove : 0 ≤ model.rows.cell i j * (entry s j + tol) :=
    mul_nonneg (hlow.trans ha) (by linarith [hs j hj'])
  have hshort : model.rows.cell i j * tol ≤ high * tol := mul_le_mul_of_nonneg_right ha' htol
  linarith

omit h in
theorem dot_add_eq_sum (i : ℕ) {s : List ℚ} (hs : s.length = model.variableCount) :
    dot (model.rows.rowAt i) s + model.variableCount * (high * tol) =
      ∑ j ∈ range model.variableCount, (model.rows.cell i j * entry s j + high * tol) := by
  rw [dot_eq_sum_right (le_of_eq hs), Finset.sum_add_distrib, Finset.sum_const, card_range,
    nsmul_eq_mul]
  rfl

/-- A row is worth nothing along a direction. -/
theorem dot_ray {basis : List ℕ} {col : ℕ} {d : List ℚ}
    (hray : (model.standardForm opts).RayAt tol basis col d) (hr : r ∈ model.placedRows) :
    dot (model.rows.rowAt r.index) (componentSums model.components d) + entry d r.first = 0 := by
  rw [← h.valueAt_row hr, ← entry_mulVec_rows opts hr, hray.equations, entry_zeros]

/-- **No direction along a column stays above `-tol`**, for a tolerance that is small against the
coefficients. -/
theorem not_rayAt (hrows : 1 ≤ model.rowCount) (hlow : low ≤ 1) (hhigh : 1 ≤ high) (htol : 0 ≤ tol)
    (hsmall : high * model.variableCount * tol < low) {basis : List ℕ} {col : ℕ} {d : List ℚ} :
    ¬ (model.standardForm opts).RayAt tol basis col d := by
  intro hray
  have hpositive : 0 < low := lt_of_le_of_lt (by positivity) hsmall
  have hlength : (componentSums model.components d).length = model.variableCount := by
    rw [length_componentSums, StandardForm.length_components h.valid.sized]
  have hpart : ∀ j < model.variableCount,
      entry (componentSums model.components d) j = entry d j :=
    fun j hj => entry_componentSums_of_plain h.isPlain h.valid.sized hj
  have hterm : ∀ i < model.rowCount, ∀ j ∈ range model.variableCount,
      0 ≤ model.rows.cell i j * entry (componentSums model.components d) j + high * tol :=
    fun i hi => h.term_nonneg hpositive.le htol (fun j hj => hpart j hj ▸ hray.le j) hi
  rcases lt_or_ge col model.variableCount with hstructural | hown
  · -- a structural column is in the first row, as in every other
    obtain ⟨r, hr, -⟩ := exists_placed (lt_length_statedRows hrows)
    have hi := h.index_lt_rowCount hr
    have hsum := Finset.single_le_sum (hterm r.index hi) (mem_range.mpr hstructural)
    rw [← dot_add_eq_sum _ hlength, hpart col hstructural, hray.self, mul_one] at hsum
    have hcell := (h.cell_bounds hi hstructural).1
    have hslack := hray.le r.first
    have htol' : tol ≤ high * tol := le_mul_of_one_le_left htol hhigh
    linarith [h.dot_ray hray hr]
  · -- a slack column is in its own row
    have hwidth := structuralWidth_eq h.isPlain h.valid.sized
    have hcol : col < model.formWidth := by
      rw [← width_standardForm opts]
      exact hray.lt_width
    obtain ⟨r, hr, t, ht, rfl⟩ := exists_own (hwidth.trans_le hown) hcol
    rw [h.sign_eq hr] at ht
    obtain rfl : t = 0 := Nat.lt_one_iff.mp ht
    have hself : entry d r.first = 1 := hray.self
    have hsum := Finset.sum_nonneg (hterm r.index (h.index_lt_rowCount hr))
    rw [← dot_add_eq_sum _ hlength] at hsum
    linarith [h.dot_ray hray hr]

/-- **The simplex method ends at an optimum, or runs out of its budget**, by either rule, and by either
method where the revised one inverts exactly. -/
theorem status (observer : Observer) (hrows : 1 ≤ model.rowCount) (hlow : low ≤ 1) (hhigh : 1 ≤ high)
    (htol : 0 ≤ opts.tol) (hsmall : high * model.variableCount * opts.tol < low)
    (hexact : opts.method = .revised → RevisedExact opts model) :
    ∃ done, (Simplex.run observer opts model).outcome = .ok done ∧
      (done.result.status = .optimal ∨ done.result.status = .iterationLimit) := by
  refine ⟨_, Simplex.outcome_run observer opts h.valid, ?_⟩
  have hends := Simplex.ends_pivotToEnd observer h.valid htol hexact
  generalize (Simplex.pivotToEnd observer opts (model.standardForm opts)).outcome = answer at hends
  cases hends with
  | @ray k col T hleads hmove =>
    have hT := (model.canonical_standardForm_tableau opts).leads htol hleads
    exact absurd (hT.rayAt htol hmove) (h.not_rayAt hrows hlow hhigh htol hsmall)
  | cleared hsome => exact absurd (h.artificials_eq_nil opts) hsome
  | gap hsome => exact absurd (h.artificials_eq_nil opts) hsome
  | limit => exact Or.inr rfl
  | optimum =>
    have hlevel : ∀ x : List ℚ, ¬ feasibilityTolerance <
        artificialLevel (model.standardForm opts).artificials x := by
      intro x hlt
      obtain ⟨l, hl, -⟩ := exists_of_lt_artificialLevel feasibilityTolerance_nonneg hlt
      rw [h.artificials_eq_nil opts] at hl
      cases hl
    exact Or.inl ((Simplex.status_concluded_ok _).resolve_left fun hinfeasible =>
      hlevel _ hinfeasible.1)

end Packing

end Model

/-! ## The draws -/

theorem le_nearestRat {x : ℚ} {z : ℤ} (h : z ≤ x) : z ≤ nearestRat x := by
  have hhalf := abs_le.mp (abs_sub_nearestRat_le_half x)
  by_contra hlt
  have hbelow : (nearestRat x : ℚ) + 1 ≤ z := by exact_mod_cast not_le.mp hlt
  linarith [hhalf.2]

theorem nearestRat_le {x : ℚ} {z : ℤ} (h : x ≤ z) : nearestRat x ≤ z := by
  have hhalf := abs_le.mp (abs_sub_nearestRat_le_half x)
  by_contra hlt
  have habove : (z : ℚ) + 1 ≤ nearestRat x := by exact_mod_cast not_le.mp hlt
  linarith [hhalf.1]

namespace Instance

variable {size : Size} {draw : ℕ → ℚ}

/-- **Rounding to two decimals stays between ends that have two decimals.** -/
theorem between_bounds {low high t : ℚ} {z w : ℤ} (hlow : low * 100 = z) (hhigh : high * 100 = w)
    (hle : low ≤ high) (ht : 0 ≤ t ∧ t < 1) : low ≤ between low high t ∧ between low high t ≤ high := by
  have hwidth : 0 ≤ (high - low) * t := mul_nonneg (by linarith) ht.1
  have hshort : (high - low) * t ≤ (high - low) * 1 :=
    mul_le_mul_of_nonneg_left ht.2.le (by linarith)
  have hbetween : between low high t = nearestRat ((low + (high - low) * t) * 100) / 100 := rfl
  have hz : (z : ℚ) ≤ nearestRat ((low + (high - low) * t) * 100) := by
    exact_mod_cast le_nearestRat (by rw [← hlow]; linarith)
  have hw : (nearestRat ((low + (high - low) * t) * 100) : ℚ) ≤ w := by
    exact_mod_cast nearestRat_le (by rw [← hhigh]; linarith)
  rw [hbetween]
  constructor <;> linarith

theorem rowCount_ofDraws (size : Size) (draw : ℕ → ℚ) :
    (ofDraws size draw).rowCount = size.rows.toNat := by
  simp [ofDraws, Model.rowCount]

theorem variableCount_ofDraws (size : Size) (draw : ℕ → ℚ) :
    (ofDraws size draw).variableCount = size.variableCount.toNat := by
  simp [ofDraws, Model.variableCount]

theorem rows_ofDraws (size : Size) (draw : ℕ → ℚ) : (ofDraws size draw).rows =
    (List.range size.rows.toNat).map fun i => (List.range size.variableCount.toNat).map fun j =>
      between (1 / 2) 5 (draw (i * size.variableCount.toNat + j)) := by
  have hlow : (0.5 : ℚ) = 1 / 2 := by norm_num
  have hhigh : (5.0 : ℚ) = 5 := by norm_num
  rw [← hlow, ← hhigh]
  rfl

theorem rhs_ofDraws (size : Size) (draw : ℕ → ℚ) : (ofDraws size draw).rhs =
    (List.range size.rows.toNat).map fun i =>
      between ((size.variableCount : ℚ) * 2) ((size.variableCount : ℚ) * 6)
        (draw (size.rows.toNat * size.variableCount.toNat + i)) := by
  have hlow : (2.0 : ℚ) = 2 := by norm_num
  have hhigh : (6.0 : ℚ) = 6 := by norm_num
  rw [← hlow, ← hhigh]
  rfl

theorem valid_ofDraws (size : Size) (draw : ℕ → ℚ) : (ofDraws size draw).Valid := by
  have hsized : (ofDraws size draw).Sized := by
    refine ⟨?_, fun row hrow => ?_, ?_, ?_, ?_⟩
    · rw [rowCount_ofDraws]
      simp [ofDraws]
    · obtain ⟨i, -, rfl⟩ := List.mem_map.mp hrow
      rw [variableCount_ofDraws, List.length_map, List.length_range]
    · rw [rowCount_ofDraws]
      exact List.length_replicate
    · rw [variableCount_ofDraws]
      exact List.length_replicate
    · exact (List.length_map _).trans List.length_range
  refine ⟨hsized.shapeFault?_eq_none, rfl, ?_, ?_⟩
  · refine List.all_eq_true.mpr fun sign hsign => ?_
    rw [List.eq_of_mem_replicate hsign]
    rfl
  · refine List.all_eq_true.mpr fun kind hkind => ?_
    rw [List.eq_of_mem_replicate hkind]
    split <;> rfl

/-- **A random instance is a packing model.** -/
theorem packing_ofDraws (hdraw : ∀ k < size.drawCount, 0 ≤ draw k ∧ draw k < 1)
    (hcount : 0 ≤ size.variableCount) : (ofDraws size draw).Packing (1 / 2) 5 where
  valid := valid_ofDraws size draw
  signs_eq := fun _ => List.eq_of_mem_replicate
  rhs_nonneg := by
    intro b hb
    rw [rhs_ofDraws] at hb
    obtain ⟨i, hi, rfl⟩ := List.mem_map.mp hb
    have hi' := List.mem_range.mp hi
    have hplace : size.rows.toNat * size.variableCount.toNat + i < size.drawCount := by
      unfold Size.drawCount
      omega
    have hscale : (0 : ℚ) ≤ size.variableCount := by exact_mod_cast hcount
    have hlow : (size.variableCount : ℚ) * 2 * 100 = ((size.variableCount * 200 : ℤ) : ℚ) := by
      push_cast
      ring
    have hhigh : (size.variableCount : ℚ) * 6 * 100 = ((size.variableCount * 600 : ℤ) : ℚ) := by
      push_cast
      ring
    linarith [(between_bounds hlow hhigh (by linarith) (hdraw _ hplace)).1]
  kinds_eq := by
    intro kind hkind
    rw [List.eq_of_mem_replicate hkind]
    split
    · exact Or.inr rfl
    · exact Or.inl rfl
  bounds := by
    intro row hrow a ha
    rw [rows_ofDraws] at hrow
    obtain ⟨i, hi, rfl⟩ := List.mem_map.mp hrow
    obtain ⟨j, hj, rfl⟩ := List.mem_map.mp ha
    have hplace : i * size.variableCount.toNat + j < size.drawCount := by
      have hrows : (i + 1) * size.variableCount.toNat ≤ size.rows.toNat * size.variableCount.toNat :=
        Nat.mul_le_mul_right _ (List.mem_range.mp hi)
      have hj' := List.mem_range.mp hj
      unfold Size.drawCount
      rw [Nat.add_mul, one_mul] at hrows
      omega
    exact between_bounds (z := 50) (w := 500) (by norm_num) (by norm_num) (by norm_num)
      (hdraw _ hplace)

/-- **Random instances are feasible and bounded**, whatever is drawn. The instance is valid, its
standard form has no artificial columns, the origin is feasible, and the simplex method calls it
neither unbounded nor infeasible, nor does it fail. -/
theorem ofDraws_solvable {size : Size} {draw : ℕ → ℚ}
    (hdraw : ∀ k < size.drawCount, 0 ≤ draw k ∧ draw k < 1) (hcount : 0 ≤ size.variableCount)
    (hrows : 1 ≤ size.rows) :
    (ofDraws size draw).Valid ∧
    (∀ opts, ∃ form, StandardForm.build opts (ofDraws size draw) = .ok form ∧
      form.artificials = []) ∧
    (ofDraws size draw).Feasible (zeros size.variableCount.toNat) ∧
    ∀ (observer : Observer) (opts : Options ℚ), 0 ≤ opts.tol →
      10 * size.variableCount * opts.tol < 1 → opts.method = .tableau →
      ∃ done, (Simplex.run observer opts (ofDraws size draw)).outcome = .ok done ∧
        (done.result.status = .optimal ∨ done.result.status = .iterationLimit) := by
  have hpacking := packing_ofDraws hdraw hcount
  refine ⟨hpacking.valid, fun opts => ⟨_, StandardForm.build_eq opts hpacking.valid,
    hpacking.artificials_eq_nil opts⟩, ?_, fun observer opts htol hsmall hmethod => ?_⟩
  · rw [← variableCount_ofDraws size draw]
    exact hpacking.feasible_zeros
  · have hnumber : ((size.variableCount.toNat : ℕ) : ℚ) = size.variableCount := by
      exact_mod_cast Int.toNat_of_nonneg hcount
    refine hpacking.status observer ?_ (by norm_num) (by norm_num) htol ?_ ?_
    · rw [rowCount_ofDraws]
      omega
    · rw [variableCount_ofDraws, hnumber]
      linarith
    · rw [hmethod]
      exact fun hrevised => nomatch hrevised

/-- Two whole variables under three rows, drawn in steps of a twentieth. -/
theorem ofDraws_solvable_twentieths :
    (∀ k < (⟨2, 3, true⟩ : Size).drawCount, 0 ≤ (k : ℚ) / 20 ∧ (k : ℚ) / 20 < 1) ∧
    (ofDraws ⟨2, 3, true⟩ fun k => (k : ℚ) / 20).Feasible [0, 0] ∧
    (0 : ℚ) ≤ ({} : Options ℚ).tol ∧ 10 * ((2 : ℤ) : ℚ) * ({} : Options ℚ).tol < 1 ∧
    ∃ done, (Simplex.run .silent {} (ofDraws ⟨2, 3, true⟩ fun k => (k : ℚ) / 20)).outcome =
        .ok done ∧
      (done.result.status = .optimal ∨ done.result.status = .iterationLimit) := by
  have hdraw : ∀ k < (⟨2, 3, true⟩ : Size).drawCount, 0 ≤ (k : ℚ) / 20 ∧ (k : ℚ) / 20 < 1 := by
    decide +kernel
  have htol : (0 : ℚ) ≤ ({} : Options ℚ).tol := by decide +kernel
  have hsmall : 10 * ((2 : ℤ) : ℚ) * ({} : Options ℚ).tol < 1 := by decide +kernel
  obtain ⟨-, -, hfeasible, hsolved⟩ := ofDraws_solvable hdraw (by decide) (by decide)
  exact ⟨hdraw, hfeasible, htol, hsmall, hsolved .silent {} htol hsmall rfl⟩

end Instance

end LinOpt
