import LinOpt.Proofs.Simplex.Solution
/-!
# What Bland's rule chooses

With a tolerance of zero the first column of negative reduced cost enters. Where any two ratios are
equal or further apart than the tie tolerance (`Separated`), the ratio test is exact: the row that
leaves has the least ratio, and of the rows with that ratio the one of the lowest basic column
(`Canonical.blandPivot_of_nextMove`). So the right-hand sides stay nonnegative.
-/

namespace LinOpt

open Finset

/-- How far a value may be from `r` and still tie with it. -/
theorem tie_eq (r : ℚ) : tie r = 1e-9 * max 1 |r| := by
  rw [tie, larger_eq_max, scalar_abs_eq]

theorem tie_pos (r : ℚ) : 0 < tie r := by
  rw [tie_eq]
  exact mul_pos (by norm_num) (lt_max_of_lt_left one_pos)

/-! ## The entering column -/

/-- **Under Bland's rule no earlier column has a negative reduced cost.** -/
theorem entry_nonneg_of_chooseEntering_bland {reduced : List ℚ} {tol : ℚ} {j k : ℕ}
    (h : chooseEntering reduced tol .bland = some j) (hk : k < j) : -tol ≤ entry reduced k := by
  by_contra hlt
  have hj := (entry_lt_of_chooseEntering_eq_some h).1
  have hmem := mem_entering_iff.mpr ⟨hk.trans hj, rfl, not_le.mp hlt⟩
  unfold chooseEntering at h
  split at h
  · cases h
  · rename_i first more hcons
    obtain rfl : first.2 = j := Option.some.inj h
    -- the candidates come in the order of their columns
    have hsorted : ((first :: more).map Prod.snd).Pairwise (· < ·) := by
      rw [← hcons]
      refine List.Pairwise.sublist (List.filter_sublist.map _) ?_
      rw [List.zipIdx_map_snd]
      exact List.pairwise_lt_range'
    rw [hcons] at hmem
    rcases List.mem_cons.mp hmem with heq | hmem
    · rw [← heq] at hk
      exact lt_irrefl _ hk
    · have hlater := (List.pairwise_cons.mp hsorted).1 k (List.mem_map_of_mem hmem)
      omega

/-! ## The leaving row -/

section Ratios

variable {rhs : List ℚ} {basis : List ℕ} {rows : List (ℚ × ℕ)} {best : RatioBest ℚ} {a b : ℚ × ℕ}

/-- The ratio of a row with this entry and this number. -/
def rowRatio (rhs : List ℚ) (a : ℚ × ℕ) : ℚ := entry rhs a.2 / a.1

/-- The ratios are equal, or further apart than a tie with the first. -/
def Apart (r r' : ℚ) : Prop := r = r' ∨ tie r < |r - r'|

/-- The first row comes before the second: its ratio is less, or the same with a basic column that is
no higher. -/
def Precedes (rhs : List ℚ) (basis : List ℕ) (a b : ℚ × ℕ) : Prop :=
  rowRatio rhs a < rowRatio rhs b ∨
    rowRatio rhs a = rowRatio rhs b ∧ basis.getD a.2 0 ≤ basis.getD b.2 0

theorem Precedes.refl (a : ℚ × ℕ) : Precedes rhs basis a a := Or.inr ⟨rfl, le_refl _⟩

theorem Precedes.trans {c : ℚ × ℕ} (hab : Precedes rhs basis a b) (hbc : Precedes rhs basis b c) :
    Precedes rhs basis a c := by
  rcases hab with hab | ⟨hab, hle⟩
  · rcases hbc with hbc | ⟨hbc, -⟩
    · exact Or.inl (hab.trans hbc)
    · exact Or.inl (hbc ▸ hab)
  · rcases hbc with hbc | ⟨hbc, hle'⟩
    · exact Or.inl (hab ▸ hbc)
    · exact Or.inr ⟨hab.trans hbc, hle.trans hle'⟩

/-- **What the ratio test has found** among some rows: the one that comes before all, if any. -/
def Tested (rhs : List ℚ) (basis : List ℕ) (rows : List (ℚ × ℕ)) (best : RatioBest ℚ) : Prop :=
  match best with
  | none => ∀ a ∈ rows, a.1 ≤ 0
  | some (row, least) => ∃ held ∈ rows, 0 < held.1 ∧ held.2 = row ∧ rowRatio rhs held = least ∧
      ∀ a ∈ rows, 0 < a.1 → Precedes rhs basis held a

/-- A row that is shown is taken where it comes before the one held, and passed over otherwise. -/
theorem ratioStep_cases_of_apart (basis : List ℕ) (ha : 0 < a.1)
    (hapart : Apart (rowRatio rhs b) (rowRatio rhs a)) :
    Precedes rhs basis a b ∧ ratioStep basis 0 .bland (some (b.2, rowRatio rhs b)) a.2 a.1
        (entry rhs a.2) = some (a.2, rowRatio rhs a) ∨
      Precedes rhs basis b a ∧ ratioStep basis 0 .bland (some (b.2, rowRatio rhs b)) a.2 a.1
        (entry rhs a.2) = some (b.2, rowRatio rhs b) := by
  have htie := tie_pos (rowRatio rhs b)
  have hstep : ratioStep basis 0 .bland (some (b.2, rowRatio rhs b)) a.2 a.1 (entry rhs a.2) =
      if rowRatio rhs a < rowRatio rhs b - tie (rowRatio rhs b) then some (a.2, rowRatio rhs a)
      else if |rowRatio rhs a - rowRatio rhs b| ≤ tie (rowRatio rhs b) ∧
          basis.getD a.2 0 < basis.getD b.2 0 then some (a.2, rowRatio rhs a)
      else some (b.2, rowRatio rhs b) := by
    simp only [ratioStep, if_neg (not_le.mpr ha), scalar_abs_eq, true_and]
    rfl
  rw [hstep]
  rcases lt_trichotomy (rowRatio rhs a) (rowRatio rhs b) with hlt | heq | hgt
  · left
    have hfar : tie (rowRatio rhs b) < rowRatio rhs b - rowRatio rhs a := by
      rcases hapart with heq | hfar
      · exact absurd heq.symm (ne_of_lt hlt)
      · rwa [abs_of_pos (sub_pos.mpr hlt)] at hfar
    exact ⟨Or.inl hlt, if_pos (by linarith)⟩
  · rw [if_neg (by linarith), heq, sub_self, abs_zero]
    by_cases hlower : basis.getD a.2 0 < basis.getD b.2 0
    · exact Or.inl ⟨Or.inr ⟨heq, hlower.le⟩, if_pos ⟨htie.le, hlower⟩⟩
    · exact Or.inr ⟨Or.inr ⟨heq.symm, not_lt.mp hlower⟩, if_neg fun h => hlower h.2⟩
  · right
    have hfar : tie (rowRatio rhs b) < rowRatio rhs a - rowRatio rhs b := by
      rcases hapart with heq | hfar
      · exact absurd heq (ne_of_lt hgt)
      · rwa [abs_sub_comm, abs_of_pos (sub_pos.mpr hgt)] at hfar
    refine ⟨Or.inl hgt, ?_⟩
    rw [if_neg (by linarith), if_neg]
    rintro ⟨hclose, -⟩
    rw [abs_of_pos (sub_pos.mpr hgt)] at hclose
    linarith

/-- **One step of the ratio test.** -/
theorem Tested.step (h : Tested rhs basis rows best)
    (hapart : ∀ b ∈ rows, 0 < b.1 → 0 < a.1 → Apart (rowRatio rhs b) (rowRatio rhs a)) :
    Tested rhs basis (rows ++ [a]) (ratioStep basis 0 .bland best a.2 a.1 (entry rhs a.2)) := by
  by_cases ha : a.1 ≤ 0
  · rw [ratioStep, if_pos ha]
    cases best with
    | none =>
      intro b hb
      rcases List.mem_append.mp hb with hb | hb
      · exact h b hb
      · rwa [List.mem_singleton.mp hb]
    | some best =>
      obtain ⟨held, hmem, hpos, hrow, hratio, hfirst⟩ := h
      refine ⟨held, List.mem_append_left _ hmem, hpos, hrow, hratio, fun b hb hb' => ?_⟩
      rcases List.mem_append.mp hb with hb | hb
      · exact hfirst b hb hb'
      · rw [List.mem_singleton.mp hb] at hb'
        exact absurd hb' (not_lt.mpr ha)
  · have ha : 0 < a.1 := not_le.mp ha
    cases best with
    | none =>
      rw [ratioStep, if_neg (not_le.mpr ha)]
      refine ⟨a, by simp, ha, rfl, rfl, fun b hb hb' => ?_⟩
      rcases List.mem_append.mp hb with hb | hb
      · exact absurd hb' (not_lt.mpr (h b hb))
      · rw [List.mem_singleton.mp hb]
        exact .refl a
    | some best =>
      obtain ⟨row, least⟩ := best
      obtain ⟨held, hmem, hpos, rfl, rfl, hfirst⟩ := h
      rcases ratioStep_cases_of_apart basis ha (hapart held hmem hpos ha) with
        ⟨hbefore, hstep⟩ | ⟨hbefore, hstep⟩
      · rw [hstep]
        refine ⟨a, by simp, ha, rfl, rfl, fun b hb hb' => ?_⟩
        rcases List.mem_append.mp hb with hb | hb
        · exact hbefore.trans (hfirst b hb hb')
        · rw [List.mem_singleton.mp hb]
          exact .refl a
      · rw [hstep]
        refine ⟨held, List.mem_append_left _ hmem, hpos, rfl, rfl, fun b hb hb' => ?_⟩
        rcases List.mem_append.mp hb with hb | hb
        · exact hfirst b hb hb'
        · rw [List.mem_singleton.mp hb]
          exact hbefore

/-- **The whole ratio test**, row after row. -/
theorem tested_foldl (rhs : List ℚ) (basis : List ℕ) (hapart : ∀ a ∈ rows, ∀ b ∈ rows, 0 < a.1 → 0 < b.1 →
      Apart (rowRatio rhs a) (rowRatio rhs b)) :
    Tested rhs basis rows (rows.foldl
      (fun best (value, i) => ratioStep basis 0 .bland best i value (entry rhs i)) none) := by
  induction rows using List.reverseRecOn with
  | nil => simp [Tested]
  | append_singleton rows a ih =>
    rw [List.foldl_append, List.foldl_cons, List.foldl_nil]
    have hrows := ih fun b hb c hc =>
      hapart b (List.mem_append_left _ hb) c (List.mem_append_left _ hc)
    exact hrows.step fun b hb hb' ha =>
      hapart b (List.mem_append_left _ hb) a (by simp) hb' ha

end Ratios

/-! ## The pivot -/

namespace Tableau

variable {E : Equations} {T : Tableau ℚ} {row col : ℕ}

/-- The ratio of a row in a column. -/
def ratio (T : Tableau ℚ) (col i : ℕ) : ℚ := T.cell i T.columnCount / T.cell i col

/-- **The ratios of a column are separated**: over the entries above zero, any two are equal or
differ by more than the tie tolerance of each. -/
def Separated (T : Tableau ℚ) (col : ℕ) : Prop :=
  ∀ i < T.rowCount, ∀ k < T.rowCount, 0 < T.cell i col → 0 < T.cell k col →
    T.ratio col i = T.ratio col k ∨
      1e-9 * max 1 |T.ratio col i| < |T.ratio col i - T.ratio col k|

instance (T : Tableau ℚ) (col : ℕ) : Decidable (T.Separated col) :=
  inferInstanceAs (Decidable (∀ i < T.rowCount, ∀ k < T.rowCount, 0 < T.cell i col →
    0 < T.cell k col → _))

/-- **A pivot by Bland's rule**, of an exact ratio test. -/
structure BlandPivot (E : Equations) (T : Tableau ℚ) (row col : ℕ) : Prop where
  row_lt : row < E.height
  col_lt : col < E.width
  /-- The column improves the objective. -/
  entering : T.cell E.height col < 0
  /-- No column before it does. -/
  first : ∀ j < col, 0 ≤ T.cell E.height j
  pos : 0 < T.cell row col
  /-- The row has the least ratio. -/
  least : ∀ i < E.height, 0 < T.cell i col → T.ratio col row ≤ T.ratio col i
  /-- No row with that ratio has a lower basic column. -/
  lowest : ∀ i < E.height, 0 < T.cell i col → T.ratio col i = T.ratio col row →
    T.basic row ≤ T.basic i

/-- The rows that the ratio test is shown. -/
theorem Canonical.mem_zipIdx_column (h : T.Canonical E) {a : ℚ × ℕ} :
    a ∈ (T.column col).zipIdx ↔ a.2 < E.height ∧ T.cell a.2 col = a.1 := by
  rw [← Prod.mk.eta (p := a), mem_zipIdx_iff, h.length_column]
  exact and_congr_right fun hlt => by rw [h.entry_column hlt]

theorem Canonical.rowRatio_eq (h : T.Canonical E) {a : ℚ × ℕ} (ha : a ∈ (T.column col).zipIdx) :
    rowRatio T.rhs a = T.ratio col a.2 := by
  obtain ⟨hlt, hcell⟩ := h.mem_zipIdx_column.mp ha
  rw [rowRatio, ratio, h.entry_rhs hlt, hcell, h.columnCount_eq]

/-- **The next move under Bland's rule is such a pivot**, where the ratios of the entering column
are separated. -/
theorem Canonical.blandPivot_of_nextMove (h : T.Canonical E) (hsep : T.Separated col)
    (hmove : T.nextMove 0 .bland = .pivot row col) : T.BlandPivot E row col := by
  obtain ⟨hrow, hcol, hpos⟩ := h.pivot_of_nextMove hmove
  unfold Tableau.nextMove at hmove
  split at hmove
  · cases hmove
  rename_i entering hentering
  split at hmove
  · cases hmove
  rename_i leaving hleaving
  obtain ⟨rfl, rfl⟩ : leaving = row ∧ entering = col := by simpa using hmove
  have hreduced := (entry_lt_of_chooseEntering_eq_some hentering).2
  rw [h.entry_reducedCosts hcol, neg_zero] at hreduced
  have hfirst : ∀ j < entering, 0 ≤ T.cell E.height j := by
    intro j hj
    have hle := entry_nonneg_of_chooseEntering_bland hentering hj
    rwa [neg_zero, h.entry_reducedCosts (hj.trans hcol)] at hle
  -- the ratio test, on all rows of the column
  obtain ⟨best, hbest, hbestRow⟩ := Option.map_eq_some_iff.mp hleaving
  have htested := tested_foldl T.rhs T.basis
    fun a (ha : a ∈ (T.column entering).zipIdx) b hb ha' hb' => by
      obtain ⟨hi, hcelli⟩ := h.mem_zipIdx_column.mp ha
      obtain ⟨hk, hcellk⟩ := h.mem_zipIdx_column.mp hb
      rw [h.rowRatio_eq ha, h.rowRatio_eq hb, Apart, tie_eq]
      exact hsep a.2 (h.rowCount_eq ▸ hi) b.2 (h.rowCount_eq ▸ hk) (hcelli ▸ ha') (hcellk ▸ hb')
  rw [hbest] at htested
  obtain ⟨held, hmem, -, hheld, -, hprecedes⟩ := htested
  obtain rfl : held.2 = leaving := hheld.trans hbestRow
  have hbefore : ∀ i < E.height, 0 < T.cell i entering →
      T.ratio entering held.2 < T.ratio entering i ∨
        T.ratio entering held.2 = T.ratio entering i ∧ T.basic held.2 ≤ T.basic i := by
    intro i hi hcell
    have hshown : (T.cell i entering, i) ∈ (T.column entering).zipIdx :=
      h.mem_zipIdx_column.mpr ⟨hi, rfl⟩
    have hp := hprecedes _ hshown hcell
    rwa [Precedes, h.rowRatio_eq hmem, h.rowRatio_eq hshown] at hp
  refine ⟨hrow, hcol, hreduced, hfirst, hpos, fun i hi hcell => ?_, fun i hi hcell heq => ?_⟩
  · rcases hbefore i hi hcell with hlt | ⟨heq, -⟩
    · exact hlt.le
    · exact heq.le
  · rcases hbefore i hi hcell with hlt | ⟨-, hle⟩
    · exact absurd heq (ne_of_gt hlt)
    · exact hle

/-- Such a pivot is of least ratio, so it keeps the right-hand sides from falling below zero. -/
theorem BlandPivot.nonneg (hpivot : T.BlandPivot E row col) (h : T.Canonical E)
    (hnonneg : ∀ i < E.height, 0 ≤ T.cell i E.width) :
    ∀ i < E.height, 0 ≤ (T.pivot row col).cell i E.width :=
  h.pivot_nonneg hpivot.row_lt hpivot.col_lt hpivot.pos
    (fun i hi hcell => hpivot.least i (h.rowCount_eq ▸ hi) hcell) hnonneg

end Tableau

end LinOpt
