import LinOpt.Proofs.Tableau.FromBasis
import LinOpt.Proofs.Service
/-!
# Gauss–Jordan inversion

The rows of the elimination have two blocks, and the left one is the right one times the matrix
(`Follows`): so it is at the start, where the right block is the identity, and no exchange, scaling or
clearing of rows changes it, nor does leaving a row alone. Where no factor other than zero was left
alone (`SkipsOnlyZeros`) the finished columns are unit columns (`Reduced`). At the end the left block
is then the identity, and the right block is the inverse.

A round divides once, by an entry that has just been compared with the pivot tolerance.
`inverse_exact` puts this together.
-/

namespace LinOpt

open Finset

namespace Dense

variable {A X rows next : Dense ℚ} {row pivotRow : List ℚ} {i j k m n r : ℕ}

/-! ## Rows in two blocks -/

/-- The first `n` columns. -/
def leftBlock (n : ℕ) (rows : Dense ℚ) : Dense ℚ := rows.map (·.take n)

/-- The columns behind the first `n`. -/
def rightBlock (n : ℕ) (rows : Dense ℚ) : Dense ℚ := rows.map (·.drop n)

/-- **The left block is the right block times the matrix.** -/
structure Follows (A rows : Dense ℚ) : Prop where
  height : rows.length = A.length
  width : ∀ row ∈ rows, row.length = 2 * A.length
  blocks : leftBlock A.length rows = mul A.length (rightBlock A.length rows) A

/-- One row of such rows. -/
structure RowFollows (A : Dense ℚ) (row : List ℚ) : Prop where
  width : row.length = 2 * A.length
  entry_eq : ∀ j < A.length, entry row j = ∑ k ∈ range A.length, entry row (A.length + k) * A.cell k j

theorem entry_drop (x : List ℚ) (n k : ℕ) : entry (x.drop n) k = entry x (n + k) := by
  simp [entry]

theorem rowFollows_iff : RowFollows A row ↔
    row.length = 2 * A.length ∧ row.take A.length = vecMul A.length (row.drop A.length) A := by
  have hentry : ∀ j < A.length, entry (vecMul A.length (row.drop A.length) A) j =
      ∑ k ∈ range A.length, entry row (A.length + k) * A.cell k j := by
    intro j hj
    rw [entry_vecMul hj]
    exact Finset.sum_congr rfl fun k _ => by rw [entry_drop]
  constructor
  · rintro ⟨hwidth, heq⟩
    have hlength : (row.take A.length).length = A.length := by
      rw [List.length_take]
      omega
    refine ⟨hwidth, eq_of_entry_eq (by rw [hlength, length_vecMul]) fun j hj => ?_⟩
    rw [hlength] at hj
    rw [entry_take hj, heq j hj, hentry j hj]
  · rintro ⟨hwidth, heq⟩
    refine ⟨hwidth, fun j hj => ?_⟩
    rw [← entry_take hj, heq, hentry j hj]

/-- Blocks are compared row by row. -/
theorem follows_iff : Follows A rows ↔
    rows.length = A.length ∧ ∀ r < A.length, RowFollows A (rows.rowAt r) := by
  have hblocks : leftBlock A.length rows = mul A.length (rightBlock A.length rows) A ↔
      ∀ row ∈ rows, row.take A.length = vecMul A.length (row.drop A.length) A := by
    rw [leftBlock, rightBlock, mul, List.map_map]
    exact List.map_inj_left
  constructor
  · rintro ⟨hheight, hwidth, heq⟩
    refine ⟨hheight, fun r hr => ?_⟩
    have hmem := rowAt_mem (hheight.symm ▸ hr)
    exact rowFollows_iff.mpr ⟨hwidth _ hmem, hblocks.mp heq _ hmem⟩
  · rintro ⟨hheight, hrows⟩
    have hrow : ∀ row ∈ rows, RowFollows A row := by
      intro row hrow
      obtain ⟨r, hr, rfl⟩ := List.getElem_of_mem hrow
      rw [← rowAt_eq_getElem hr]
      exact hrows r (hheight ▸ hr)
    exact ⟨hheight, fun row h => (hrow row h).width,
      hblocks.mpr fun row h => (rowFollows_iff.mp (hrow row h)).2⟩

theorem RowFollows.map_div (h : RowFollows A row) (d : ℚ) : RowFollows A (row.map (· / d)) := by
  refine ⟨by rw [List.length_map, h.width], fun j hj => ?_⟩
  rw [entry_map (zero_div d), h.entry_eq j hj, Finset.sum_div]
  refine Finset.sum_congr rfl fun k _ => ?_
  rw [entry_map (zero_div d)]
  ring

theorem RowFollows.subScaled (h : RowFollows A row) (hpivot : RowFollows A pivotRow) (a : ℚ) :
    RowFollows A (subScaled row a pivotRow) := by
  have hlength : row.length = pivotRow.length := h.width.trans hpivot.width.symm
  refine ⟨by rw [length_subScaled, ← hlength, min_self, h.width], fun j hj => ?_⟩
  rw [entry_subScaled a hlength, h.entry_eq j hj, hpivot.entry_eq j hj, Finset.mul_sum,
    ← Finset.sum_sub_distrib]
  refine Finset.sum_congr rfl fun k _ => ?_
  rw [entry_subScaled a hlength]
  ring

/-! ## The steps of a round -/

/-- The row with the pivot of column `i`. -/
def pivotPlace (rows : Dense ℚ) (i : ℕ) : ℕ :=
  i + ((firstMax ((column (rows.drop i) i).map Scalar.abs)).map Prod.fst).getD 0

/-- The rows with that row brought to the diagonal. -/
def pivoted (rows : Dense ℚ) (i : ℕ) : Dense ℚ :=
  if pivotPlace rows i = i then rows else swapRows rows i (pivotPlace rows i)

/-- Row `r` after column `i` has been cleared in it. -/
def clearedRow (pivotRow : List ℚ) (i r : ℕ) (row : List ℚ) : List ℚ :=
  if r = i then row
  else if |entry row i| < skipTolerance then row
  else subScaled row (entry row i) pivotRow

/-- The rows after column `i` has been cleared in row `r`. -/
def clearRow (i : ℕ) (rows : Dense ℚ) (r : ℕ) : Dense ℚ :=
  rows.modify r (clearedRow (rows.rowAt i) i r)

/-- The rows after column `i` has been cleared in the first `m` rows, one after the other. -/
def clearedTo (rows : Dense ℚ) (i m : ℕ) : Dense ℚ := (List.range m).foldl (clearRow i) rows

theorem firstMax_eq_none_iff {x : List ℚ} : firstMax x = none ↔ x = [] := by
  cases x with
  | nil => simp [firstMax]
  | cons a x =>
    simp only [firstMax, reduceCtorEq, iff_false]
    split
    · simp
    · split <;> simp

/-- The place that is found has the value that is found. -/
theorem entry_of_firstMax {x : List ℚ} {best : ℚ} (h : firstMax x = some (k, best)) :
    k < x.length ∧ entry x k = best := by
  induction x generalizing k best with
  | nil => cases h
  | cons a x ih =>
    rw [firstMax] at h
    split at h
    · obtain ⟨rfl, rfl⟩ := Prod.mk.inj (Option.some.inj h)
      exact ⟨by simp, rfl⟩
    · rename_i k' best' hrest
      obtain ⟨hk, hvalue⟩ := ih hrest
      split at h
      · obtain ⟨rfl, rfl⟩ := Prod.mk.inj (Option.some.inj h)
        exact ⟨by simpa using hk, by rw [entry_cons_succ, hvalue]⟩
      · obtain ⟨rfl, rfl⟩ := Prod.mk.inj (Option.some.inj h)
        exact ⟨by simp, rfl⟩

theorem length_swapRows (rows : Dense ℚ) (i k : ℕ) : (swapRows rows i k).length = rows.length := by
  simp [swapRows]

theorem rowAt_swapRows (hi : i < rows.length) (hk : k < rows.length) (r : ℕ) :
    (swapRows rows i k).rowAt r = rows.rowAt (Equiv.swap i k r) := by
  have hk' : k < (rows.set i (rows.getD k [])).length := by rwa [List.length_set]
  unfold swapRows rowAt
  rw [List.getD_eq_getElem?_getD]
  rcases eq_or_ne r k with rfl | hrk
  · rw [Equiv.swap_apply_right, List.getElem?_set_self hk', Option.getD_some]
  · rw [List.getElem?_set_ne hrk.symm]
    rcases eq_or_ne r i with rfl | hri
    · rw [Equiv.swap_apply_left, List.getElem?_set_self hi, Option.getD_some]
    · rw [Equiv.swap_apply_of_ne_of_ne hri hrk, List.getElem?_set_ne hri.symm,
        List.getD_eq_getElem?_getD]

/-- **What a round finds on the diagonal.** -/
theorem firstMax_pivot (hi : i < rows.length) :
    pivotPlace rows i < rows.length ∧
      firstMax ((column (rows.drop i) i).map Scalar.abs) =
        some (pivotPlace rows i - i, |rows.cell (pivotPlace rows i) i|) := by
  have hlength : ((column (rows.drop i) i).map Scalar.abs).length = rows.length - i := by simp
  cases hmax : firstMax ((column (rows.drop i) i).map Scalar.abs) with
  | none =>
    rw [firstMax_eq_none_iff.mp hmax] at hlength
    simp only [List.length_nil] at hlength
    omega
  | some found =>
    obtain ⟨k, best⟩ := found
    obtain ⟨hk, hvalue⟩ := entry_of_firstMax hmax
    have hplace : pivotPlace rows i = i + k := by
      rw [pivotPlace, hmax]
      rfl
    rw [hlength] at hk
    have hcell : entry (column (rows.drop i) i) k = rows.cell (i + k) i := by
      rw [entry_column (by simp; omega)]
      simp [cell, rowAt]
    have hbest : best = |rows.cell (i + k) i| := by
      rw [← hvalue, entry_map (by simp [scalar_abs_eq]), scalar_abs_eq, hcell]
    rw [hplace, hbest, Nat.add_sub_cancel_left]
    exact ⟨by omega, rfl⟩

theorem le_pivotPlace (rows : Dense ℚ) (i : ℕ) : i ≤ pivotPlace rows i := Nat.le_add_right _ _

@[simp] theorem length_pivoted (rows : Dense ℚ) (i : ℕ) : (pivoted rows i).length = rows.length := by
  rw [pivoted]
  split
  · rfl
  · exact length_swapRows rows i _

theorem rowAt_pivoted (hi : i < rows.length) (r : ℕ) :
    (pivoted rows i).rowAt r = rows.rowAt (Equiv.swap i (pivotPlace rows i) r) := by
  rw [pivoted]
  split
  · rename_i hsame
    rw [hsame, Equiv.swap_self]
    rfl
  · exact rowAt_swapRows hi (firstMax_pivot hi).1 r

@[simp] theorem length_normalizeRow (rows : Dense ℚ) (i : ℕ) :
    (normalizeRow rows i).length = rows.length := by
  simp [normalizeRow]

theorem rowAt_normalizeRow (hi : i < rows.length) (r : ℕ) :
    (normalizeRow rows i).rowAt r =
      if r = i then (rows.rowAt i).map (· / rows.cell i i) else rows.rowAt r := by
  rcases eq_or_ne r i with rfl | hr
  · rw [if_pos rfl]
    simp [normalizeRow, rowAt, cell, hi]
  · rw [if_neg hr]
    simp [normalizeRow, rowAt, List.getElem?_set_ne hr.symm]

@[simp] theorem length_clearedTo (rows : Dense ℚ) (i m : ℕ) :
    (clearedTo rows i m).length = rows.length := by
  induction m with
  | zero => rfl
  | succ m ih =>
    rw [clearedTo, List.range_succ, List.foldl_append]
    exact (List.length_modify _ _ _).trans ih

/-- **Clearing row after row** is clearing each row with the pivot row as it was at first. -/
theorem getElem?_clearedTo (rows : Dense ℚ) (i m r : ℕ) :
    (clearedTo rows i m)[r]? =
      rows[r]?.map fun row => if r < m then clearedRow (rows.rowAt i) i r row else row := by
  induction m generalizing r with
  | zero => simp [clearedTo]
  | succ m ih =>
    have hpivot : (clearedTo rows i m).rowAt i = rows.rowAt i := by
      simp only [rowAt, List.getD_eq_getElem?_getD, ih]
      cases rows[i]? with
      | none => rfl
      | some row => simp [clearedRow]
    have hstep : clearedTo rows i (m + 1) = clearRow i (clearedTo rows i m) m := by
      rw [clearedTo, List.range_succ, List.foldl_append]
      rfl
    rw [hstep, clearRow, hpivot, List.getElem?_modify, ih, Option.map_eq_map, Option.map_map]
    congr 1
    funext row
    rcases lt_trichotomy r m with hr | rfl | hr
    · simp [hr, hr.ne', Nat.lt_succ_of_lt hr]
    · simp
    · simp [hr.not_gt, hr.ne, show ¬ r < m + 1 by omega]

theorem rowAt_clearedTo (hr : r < rows.length) :
    (clearedTo rows i m).rowAt r =
      if r < m then clearedRow (rows.rowAt i) i r (rows.rowAt r) else rows.rowAt r := by
  rw [rowAt, List.getD_eq_getElem?_getD, getElem?_clearedTo, List.getElem?_eq_getElem hr,
    Option.map_some, Option.getD_some, ← rowAt_eq_getElem hr]

theorem clearColumn_eq (rows : Dense ℚ) (i : ℕ) : clearColumn rows i = clearedTo rows i rows.length := by
  refine List.ext_getElem? fun r => ?_
  rw [getElem?_clearedTo, clearColumn, List.getElem?_mapIdx]
  rcases lt_or_ge r rows.length with hr | hr
  · rw [List.getElem?_eq_getElem hr, Option.map_some, Option.map_some, if_pos hr, clearedRow,
      ← scalar_abs_eq]
    rfl
  · rw [List.getElem?_eq_none hr]
    rfl

/-- **A round of the elimination**: an entry too small, or all steps. -/
theorem eliminate_eq (hi : i < rows.length) :
    eliminate rows i =
      if |(pivoted rows i).cell i i| < pivotTolerance then
        .error (.singular |(pivoted rows i).cell i i| i)
      else .ok (clearedTo (normalizeRow (pivoted rows i) i) i rows.length) := by
  have hdiagonal : (pivoted rows i).cell i i = rows.cell (pivotPlace rows i) i := by
    rw [cell, rowAt_pivoted hi, Equiv.swap_apply_left]
    rfl
  have hplace := le_pivotPlace rows i
  have hswapped : (if pivotPlace rows i - i = 0 then rows
      else swapRows rows i (i + (pivotPlace rows i - i))) = pivoted rows i := by
    rw [pivoted, Nat.add_sub_cancel' hplace]
    exact if_congr (by omega) rfl rfl
  rw [eliminate, (firstMax_pivot hi).2, hdiagonal]
  dsimp only
  rw [hswapped, clearColumn_eq, length_normalizeRow, length_pivoted]

/-! ## What the steps keep -/

section Steps

variable (h : Follows A rows) (hi : i < A.length)

include h hi

theorem Follows.pivoted : Follows A (pivoted rows i) := by
  obtain ⟨hheight, hrows⟩ := follows_iff.mp h
  have hi' : i < rows.length := hheight.symm ▸ hi
  refine follows_iff.mpr ⟨(length_pivoted rows i).trans hheight, fun r hr => ?_⟩
  rw [rowAt_pivoted hi']
  refine hrows _ ?_
  rw [Equiv.swap_apply_def]
  split_ifs
  · exact hheight ▸ (firstMax_pivot hi').1
  · exact hi
  · exact hr

theorem Follows.normalizeRow : Follows A (normalizeRow rows i) := by
  obtain ⟨hheight, hrows⟩ := follows_iff.mp h
  refine follows_iff.mpr ⟨(length_normalizeRow rows i).trans hheight, fun r hr => ?_⟩
  rw [rowAt_normalizeRow (hheight.symm ▸ hi)]
  split
  · exact (hrows i hi).map_div _
  · exact hrows r hr

theorem Follows.clearedTo (m : ℕ) : Follows A (clearedTo rows i m) := by
  obtain ⟨hheight, hrows⟩ := follows_iff.mp h
  refine follows_iff.mpr ⟨(length_clearedTo rows i m).trans hheight, fun r hr => ?_⟩
  rw [rowAt_clearedTo (hheight.symm ▸ hr), clearedRow]
  split_ifs
  · exact hrows r hr
  · exact hrows r hr
  · exact (hrows r hr).subScaled (hrows i hi) _
  · exact hrows r hr

end Steps

/-- The columns before `i` are unit columns. -/
def Reduced (rows : Dense ℚ) (i : ℕ) : Prop :=
  ∀ r < rows.length, ∀ j < i, rows.cell r j = if r = j then 1 else 0

/-- A factor that is skipped in column `i` is zero. -/
def ClearsAll (rows : Dense ℚ) (i : ℕ) : Prop :=
  ∀ r < rows.length, r ≠ i → |rows.cell r i| < skipTolerance → rows.cell r i = 0

instance (rows : Dense ℚ) (i : ℕ) : Decidable (ClearsAll rows i) :=
  inferInstanceAs (Decidable (∀ r < rows.length, r ≠ i → _))

theorem Reduced.pivoted (h : Reduced rows i) (hi : i < rows.length) :
    Reduced (pivoted rows i) i := by
  intro r hr j hj
  rw [length_pivoted] at hr
  have hplace := le_pivotPlace rows i
  -- the exchange leaves the rows of the finished columns where they are
  have hfixed : Equiv.swap i (pivotPlace rows i) j = j :=
    Equiv.swap_apply_of_ne_of_ne (by omega) (by omega)
  have hswap : Equiv.swap i (pivotPlace rows i) r < rows.length := by
    rw [Equiv.swap_apply_def]
    split_ifs
    · exact (firstMax_pivot hi).1
    · exact hi
    · exact hr
  rw [cell, rowAt_pivoted hi]
  refine (h _ hswap j hj).trans (if_congr ?_ rfl rfl)
  rw [Equiv.swap_apply_eq_iff, hfixed]

theorem cell_normalizeRow (hi : i < rows.length) (r j : ℕ) :
    (normalizeRow rows i).cell r j =
      if r = i then rows.cell i j / rows.cell i i else rows.cell r j := by
  rw [cell, rowAt_normalizeRow hi]
  split
  · exact entry_map (f := (· / rows.cell i i)) (zero_div _) j
  · rfl

theorem Reduced.normalizeRow (h : Reduced rows i) (hi : i < rows.length) :
    Reduced (normalizeRow rows i) i := by
  intro r hr j hj
  rw [length_normalizeRow] at hr
  rw [cell_normalizeRow hi]
  split
  · rename_i hri
    rw [hri, h i hi j hj, if_neg (by omega), zero_div]
  · exact h r hr j hj

/-- The pivot row and a row whose factor is skipped stay as they are. -/
theorem entry_clearedRow (hlength : row.length = pivotRow.length) (i r j : ℕ) :
    entry (clearedRow pivotRow i r row) j =
      if r = i ∨ |entry row i| < skipTolerance then entry row j
      else entry row j - entry row i * entry pivotRow j := by
  unfold clearedRow
  by_cases hri : r = i
  · rw [if_pos hri, if_pos (Or.inl hri)]
  · by_cases hskip : |entry row i| < skipTolerance
    · rw [if_neg hri, if_pos hskip, if_pos (Or.inr hskip)]
    · rw [if_neg hri, if_neg hskip, if_neg (by tauto), entry_subScaled _ hlength]

/-- **Clearing a column adds it to the unit columns.** -/
theorem Reduced.clearedTo (h : Reduced rows i) (hi : i < rows.length) (hone : rows.cell i i = 1)
    (hwidth : ∀ row ∈ rows, row.length = n) (hclears : ClearsAll rows i) :
    Reduced (clearedTo rows i rows.length) (i + 1) := by
  intro r hr j hj
  rw [length_clearedTo] at hr
  have hlength : (rows.rowAt r).length = (rows.rowAt i).length :=
    (hwidth _ (rowAt_mem hr)).trans (hwidth _ (rowAt_mem hi)).symm
  rw [cell, rowAt_clearedTo hr, if_pos hr, entry_clearedRow hlength]
  change (if r = i ∨ |rows.cell r i| < skipTolerance then rows.cell r j
    else rows.cell r j - rows.cell r i * rows.cell i j) = _
  rcases Nat.lt_succ_iff_lt_or_eq.mp hj with hj | rfl
  · -- the pivot row is zero in the columns that were finished before
    rw [h i hi j hj, if_neg (show i ≠ j by omega), mul_zero, sub_zero, ite_self]
    exact h r hr j hj
  · rcases eq_or_ne r j with rfl | hne
    · rw [if_pos (Or.inl rfl), if_pos rfl]
      exact hone
    · rw [if_neg hne]
      split
      · rename_i hkept
        exact hclears r hr hne (hkept.resolve_left hne)
      · rw [hone, mul_one, sub_self]

/-! ## The rounds -/

/-- The matrix beside the identity. -/
def besideIdentity (A : Dense ℚ) : Dense ℚ := List.zipWith (· ++ ·) A (identity A.length)

/-- The rows before round `i`. -/
def roundsBefore (A : Dense ℚ) (i : ℕ) : Except (Fault ℚ) (Dense ℚ) :=
  (List.range i).foldlM eliminate A.besideIdentity

theorem roundsBefore_succ (A : Dense ℚ) (i : ℕ) :
    roundsBefore A (i + 1) = roundsBefore A i >>= (eliminate · i) := by
  rw [roundsBefore, List.range_succ, List.foldlM_append]
  simp only [List.foldlM_cons, List.foldlM_nil, bind_pure]
  rfl

theorem inverse_eq (A : Dense ℚ) :
    inverse A = (roundsBefore A A.length).map (rightBlock A.length) := by
  change (roundsBefore A A.length >>= fun rows => pure (rightBlock A.length rows)) = _
  cases roundsBefore A A.length <;> rfl

/-- **Every factor that a round skips is zero.** -/
def SkipsOnlyZeros (A : Dense ℚ) : Prop :=
  ∀ i < A.length, ∀ rows, roundsBefore A i = .ok rows →
    pivotTolerance ≤ |(pivoted rows i).cell i i| → ClearsAll (normalizeRow (pivoted rows i) i) i

instance (A : Dense ℚ) : Decidable A.SkipsOnlyZeros :=
  have (i : ℕ) : Decidable (∀ rows, roundsBefore A i = .ok rows →
      pivotTolerance ≤ |(pivoted rows i).cell i i| →
        ClearsAll (normalizeRow (pivoted rows i) i) i) :=
    match roundsBefore A i with
    | .ok rows =>
      decidable_of_iff (pivotTolerance ≤ |(pivoted rows i).cell i i| →
          ClearsAll (normalizeRow (pivoted rows i) i) i)
        ⟨fun hclears _ hrows => Except.ok.inj hrows ▸ hclears, fun hclears => hclears rows rfl⟩
    | .error _ => isTrue fun _ hrows => nomatch hrows
  inferInstanceAs (Decidable (∀ i < A.length, _))

theorem follows_besideIdentity (hsquare : ∀ row ∈ A, row.length = A.length) :
    Follows A A.besideIdentity := by
  refine follows_iff.mpr ⟨by simp [besideIdentity], fun r hr => ?_⟩
  have hrow : A.besideIdentity.rowAt r = A.rowAt r ++ (identity A.length).rowAt r := by
    have hr' : r < (identity A.length : Dense ℚ).length := by rwa [length_identity]
    rw [rowAt_eq_getElem hr, rowAt_eq_getElem hr', rowAt_eq_getElem (by simpa [besideIdentity])]
    exact List.getElem_zipWith
  have hwidth : (A.rowAt r).length = A.length := hsquare _ (rowAt_mem hr)
  have hunit : ((identity A.length : Dense ℚ).rowAt r).length = A.length := by
    simp [rowAt, identity, hr]
  rw [hrow]
  refine ⟨by rw [List.length_append, hwidth, hunit]; omega, fun j hj => ?_⟩
  have hright : ∀ k ∈ range A.length,
      entry (A.rowAt r ++ (identity A.length).rowAt r) (A.length + k) * A.cell k j =
        if r = k then A.cell k j else 0 := by
    intro k hk
    rw [entry_append_right (by omega), hwidth, Nat.add_sub_cancel_left]
    change (identity A.length : Dense ℚ).cell r k * _ = _
    rw [cell_identity hr (mem_range.mp hk), ite_mul, one_mul, zero_mul]
  rw [entry_append_left (by omega), Finset.sum_congr rfl hright, Finset.sum_ite_eq,
    if_pos (mem_range.mpr hr)]
  rfl

/-- A round that was reached, and the next one. -/
theorem exists_of_roundsBefore_succ (h : roundsBefore A (i + 1) = .ok next) :
    ∃ rows, roundsBefore A i = .ok rows ∧ eliminate rows i = .ok next := by
  rw [roundsBefore_succ] at h
  exact exists_of_bind_eq_ok h

/-- A round that ends has a pivot to divide by, and takes all its steps. -/
theorem eliminate_eq_ok_iff (hi : i < rows.length) : eliminate rows i = .ok next ↔
    pivotTolerance ≤ |(pivoted rows i).cell i i| ∧
      next = clearedTo (normalizeRow (pivoted rows i) i) i rows.length := by
  rw [eliminate_eq hi]
  split
  · rename_i hsmall
    simp [hsmall]
  · rename_i hlarge
    simp [not_lt.mp hlarge, eq_comm]

/-- **The left block is the right block times the matrix**, before every round. -/
theorem follows_of_roundsBefore (hsquare : ∀ row ∈ A, row.length = A.length) (hi : i ≤ A.length)
    (h : roundsBefore A i = .ok rows) : Follows A rows := by
  induction i generalizing rows with
  | zero =>
    obtain rfl := Except.ok.inj h
    exact follows_besideIdentity hsquare
  | succ i ih =>
    obtain ⟨previous, hprevious, hround⟩ := exists_of_roundsBefore_succ h
    have hfollows := ih (by omega) hprevious
    obtain ⟨-, rfl⟩ := (eliminate_eq_ok_iff (by rw [hfollows.height]; exact hi)).mp hround
    exact ((hfollows.pivoted hi).normalizeRow hi).clearedTo hi _

theorem cell_ne_zero_of_pivotTolerance_le (h : pivotTolerance ≤ |rows.cell i j|) :
    rows.cell i j ≠ 0 := by
  intro hzero
  rw [hzero, abs_zero] at h
  exact absurd h (by norm_num [pivotTolerance])

/-- **Finished columns stay unit columns**, where no factor but zero is skipped. -/
theorem reduced_of_roundsBefore (hsquare : ∀ row ∈ A, row.length = A.length)
    (hskips : A.SkipsOnlyZeros) (hi : i ≤ A.length) (h : roundsBefore A i = .ok rows) :
    Reduced rows i := by
  induction i generalizing rows with
  | zero => exact fun _ _ j hj => absurd hj (Nat.not_lt_zero j)
  | succ i ih =>
    obtain ⟨previous, hprevious, hround⟩ := exists_of_roundsBefore_succ h
    have hfollows := follows_of_roundsBefore hsquare (by omega) hprevious
    have hi' : i < previous.length := by rw [hfollows.height]; exact hi
    obtain ⟨hpivot, rfl⟩ := (eliminate_eq_ok_iff hi').mp hround
    have hpivoted : i < (pivoted previous i).length := by rwa [length_pivoted]
    have hnormal : i < (normalizeRow (pivoted previous i) i).length := by
      rwa [length_normalizeRow]
    have hone : (normalizeRow (pivoted previous i) i).cell i i = 1 := by
      rw [cell_normalizeRow hpivoted, if_pos rfl]
      exact div_self (cell_ne_zero_of_pivotTolerance_le hpivot)
    have hreduced := (((ih (by omega) hprevious).pivoted hi').normalizeRow hpivoted).clearedTo
      hnormal hone ((hfollows.pivoted hi).normalizeRow hi).width (hskips i hi previous hprevious hpivot)
    rwa [length_normalizeRow, length_pivoted] at hreduced

/-! ## The inverse -/

/-- The leading square of a matrix. -/
def square (m : ℕ) (A : Dense ℚ) : Matrix (Fin m) (Fin m) ℚ := Matrix.of fun i k => A.cell i k

theorem square_mul_of_mul_eq_identity (hA : A.length = m) (h : mul m X A = identity m) :
    square m X * square m A = 1 := by
  have hX := length_of_mul_eq_identity h
  ext i j
  have hcell : (mul m X A).cell i j = (identity m : Dense ℚ).cell i j := by rw [h]
  rw [cell_mul (hX.symm ▸ i.2) j.2, cell_identity i.2 j.2, hA] at hcell
  rw [Matrix.mul_apply, Matrix.one_apply]
  simp only [Fin.ext_iff]
  exact (Fin.sum_univ_eq_sum_range (fun k => X.cell i k * A.cell k j) m).trans hcell

/-- An inverse of a square matrix on the left is one on the right. -/
theorem inverts_of_mul_eq_identity (hA : A.length = m) (h : mul m X A = identity m) :
    X.Inverts A m :=
  ⟨h, mul_eq_identity hA (length_of_mul_eq_identity h) (fun _ _ => rfl) (fun _ _ => rfl)
    (mul_eq_one_comm.mp (square_mul_of_mul_eq_identity hA h))⟩

theorem Inverts.det_ne_zero (h : X.Inverts A m) (hA : A.length = m) : (square m A).det ≠ 0 := by
  intro hzero
  have hdet := congrArg Matrix.det (square_mul_of_mul_eq_identity hA h.left)
  rw [Matrix.det_mul, hzero, mul_zero, Matrix.det_one] at hdet
  exact zero_ne_one hdet

/-- Where all columns are unit columns the right block is the inverse. -/
theorem Follows.inverts (h : Follows A rows) (hreduced : Reduced rows A.length) :
    (rightBlock A.length rows).Inverts A A.length := by
  refine inverts_of_mul_eq_identity rfl ?_
  rw [← h.blocks]
  refine eq_of_cell_eq (n := A.length) (by simp [leftBlock, h.height]) ?_ ?_ fun i hi j hj => ?_
  · intro row hrow
    obtain ⟨whole, hwhole, rfl⟩ := List.mem_map.mp hrow
    rw [List.length_take, h.width whole hwhole]
    omega
  · intro row hrow
    obtain ⟨i, -, rfl⟩ := List.mem_map.mp hrow
    simp
  · rw [leftBlock, List.length_map] at hi
    have hcell : (leftBlock A.length rows).cell i j = rows.cell i j := by
      rw [cell, cell, rowAt_eq_getElem hi, rowAt_eq_getElem (by simpa [leftBlock] using hi)]
      simp only [leftBlock, List.getElem_map]
      exact entry_take hj
    rw [hcell, hreduced i hi j hj, cell_identity (h.height ▸ hi) hj]

/-- **Gauss–Jordan inversion is correct.** In every round that is reached, the left block is the right
block times the matrix before it, after the exchange, after the scaling and after each row; either the
entry on the diagonal is below the pivot tolerance and the round says so, or it is not zero, and the
round divides by it. Where every factor that was skipped is zero, an answer is an inverse on both
sides, and a singular matrix is found to be singular. -/
theorem inverse_exact {A : Dense ℚ} (hsquare : ∀ row ∈ A, row.length = A.length) :
    (∀ rows, roundsBefore A A.length = .ok rows → Follows A rows) ∧
    (∀ i < A.length, ∀ rows, roundsBefore A i = .ok rows →
      Follows A rows ∧ Follows A (pivoted rows i) ∧
      (|(pivoted rows i).cell i i| < pivotTolerance ∧
          roundsBefore A (i + 1) = .error (.singular |(pivoted rows i).cell i i| i) ∨
        (pivoted rows i).cell i i ≠ 0 ∧
          (∀ m ≤ A.length, Follows A (clearedTo (normalizeRow (pivoted rows i) i) i m)) ∧
          roundsBefore A (i + 1) =
            .ok (clearedTo (normalizeRow (pivoted rows i) i) i A.length))) ∧
    (A.SkipsOnlyZeros →
      (∀ X, inverse A = .ok X → X.Inverts A A.length) ∧
      ((square A.length A).det = 0 → ∃ best i, inverse A = .error (.singular best i))) := by
  refine ⟨fun rows h => follows_of_roundsBefore hsquare le_rfl h, fun i hi rows h => ?_,
    fun hskips => ?_⟩
  · have hfollows := follows_of_roundsBefore hsquare hi.le h
    have hround : roundsBefore A (i + 1) = eliminate rows i := by
      rw [roundsBefore_succ, h]
      rfl
    refine ⟨hfollows, hfollows.pivoted hi, ?_⟩
    rw [hround, eliminate_eq (by rw [hfollows.height]; exact hi), hfollows.height]
    rcases lt_or_ge |(pivoted rows i).cell i i| pivotTolerance with hsmall | hlarge
    · exact Or.inl ⟨hsmall, if_pos hsmall⟩
    · exact Or.inr ⟨cell_ne_zero_of_pivotTolerance_le hlarge,
        fun m _ => ((hfollows.pivoted hi).normalizeRow hi).clearedTo hi m,
        if_neg (not_lt.mpr hlarge)⟩
  · have hexact : ∀ X, inverse A = .ok X → X.Inverts A A.length := by
      intro X hX
      rw [inverse_eq] at hX
      cases hrows : roundsBefore A A.length with
      | error cause =>
        rw [hrows] at hX
        cases hX
      | ok rows =>
        rw [hrows] at hX
        obtain rfl := Except.ok.inj hX
        exact (follows_of_roundsBefore hsquare le_rfl hrows).inverts
          (reduced_of_roundsBefore hsquare hskips le_rfl hrows)
    refine ⟨hexact, fun hsingular => ?_⟩
    cases hinverse : inverse A with
    | ok X => exact absurd hsingular ((hexact X hinverse).det_ne_zero rfl)
    | error cause =>
      have hcause := isSingular_of_inverse hinverse
      cases cause with
      | singular best i => exact ⟨best, i, rfl⟩
      | _ => exact hcause.elim

/-- A matrix whose rows have to be exchanged, and a singular one. -/
theorem inverse_exact_turned :
    (∀ row ∈ ([[0, 2], [3, 1]] : Dense ℚ), row.length = 2) ∧
    SkipsOnlyZeros [[0, 2], [3, 1]] ∧
    Inverts [[-1 / 6, 1 / 3], [1 / 2, 0]] [[0, 2], [3, 1]] 2 ∧
    (∀ row ∈ ([[1, 2], [2, 4]] : Dense ℚ), row.length = 2) ∧
    SkipsOnlyZeros [[1, 2], [2, 4]] ∧
    ∃ best i, inverse ([[1, 2], [2, 4]] : Dense ℚ) = .error (.singular best i) := by
  have hturned : ∀ row ∈ ([[0, 2], [3, 1]] : Dense ℚ), row.length = 2 := by decide
  have hskips : SkipsOnlyZeros [[0, 2], [3, 1]] := by decide +kernel
  have hinverse : inverse [[0, 2], [3, 1]] = .ok [[(-1 / 6 : ℚ), 1 / 3], [1 / 2, 0]] := by
    have hsome : (inverse [[0, 2], [3, 1]]).toOption = some [[(-1 / 6 : ℚ), 1 / 3], [1 / 2, 0]] := by
      decide +kernel
    cases hcompute : inverse [[(0 : ℚ), 2], [3, 1]] with
    | error cause =>
      rw [hcompute] at hsome
      cases hsome
    | ok X =>
      rw [hcompute] at hsome
      exact congrArg Except.ok (Option.some.inj hsome)
  have hlined : ∀ row ∈ ([[1, 2], [2, 4]] : Dense ℚ), row.length = 2 := by decide
  have hskips' : SkipsOnlyZeros [[1, 2], [2, 4]] := by decide +kernel
  have hsingular : (square 2 [[1, 2], [2, 4]]).det = 0 := by
    rw [Matrix.det_fin_two]
    decide +kernel
  exact ⟨hturned, hskips, ((inverse_exact hturned).2.2 hskips).1 _ hinverse, hlined, hskips',
    ((inverse_exact hlined).2.2 hskips').2 hsingular⟩

end Dense

end LinOpt
