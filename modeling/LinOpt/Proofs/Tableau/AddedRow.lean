import LinOpt.Proofs.Tableau.Canonical
/-!
# Adding a row to a canonical tableau

An added row brings a slack column of its own. In the system the slack stands before the right-hand
side, is zero in the old rows, one in the new row, and free of cost (`Equations.withRow`). In the
tableau the new row is freed of the basic columns by taking multiples of the old rows from it.

All old rows and the objective row change in the same way: a zero is slipped in at the new column
(`slipped`). That is linear, so what the rows were combinations of they stay combinations of, and
`Canonical.addRow` has only the new row to look at.
-/

namespace LinOpt

open Finset

/-! ## A column slipped in -/

/-- A family over columns with a zero slipped in at column `n`. -/
def slipped (n : ℕ) (f : ℕ → ℚ) (j : ℕ) : ℚ :=
  if j < n then f j else if j = n then 0 else f (j - 1)

section Slipped

variable {n j : ℕ} {f : ℕ → ℚ} {x : List ℚ}

theorem slipped_of_lt (h : j < n) : slipped n f j = f j := if_pos h

theorem slipped_self (n : ℕ) (f : ℕ → ℚ) : slipped n f n = 0 := by
  simp [slipped]

/-- A combination of families with a zero slipped in is that combination with a zero slipped in. -/
theorem slipped_sum (n : ℕ) (s : Finset ℕ) (a : ℕ → ℚ) (g : ℕ → ℕ → ℚ) (j : ℕ) :
    slipped n (fun j => ∑ k ∈ s, a k * g k j) j = ∑ k ∈ s, a k * slipped n (g k) j := by
  unfold slipped
  split_ifs <;> simp

theorem slipped_sub (n : ℕ) (f g : ℕ → ℚ) (j : ℕ) :
    slipped n (fun j => f j - g j) j = slipped n f j - slipped n g j := by
  unfold slipped
  split_ifs <;> simp

/-- A row of `n` entries and a right-hand side, widened. -/
theorem entry_widen (h : x.length = n + 1) (j : ℕ) :
    entry (Tableau.widen n x) j = slipped n (entry x) j := by
  have hlen : (x.take n).length = n := by
    rw [List.length_take]
    omega
  unfold Tableau.widen slipped
  rcases lt_trichotomy j n with hj | rfl | hj
  · rw [if_pos hj, entry_append_left (by omega), entry_take hj]
  · rw [if_neg (lt_irrefl _), if_pos rfl, entry_append_right (by omega), hlen, Nat.sub_self,
      entry_cons_zero]
  · rw [if_neg (by omega), if_neg (by omega), entry_append_right (by omega), hlen]
    obtain ⟨k, rfl⟩ : ∃ k, j = n + 1 + k := ⟨j - (n + 1), by omega⟩
    have hsub : n + 1 + k - n = k + 1 := by omega
    rw [hsub, entry_cons_succ]
    cases k with
    | zero => rfl
    | succ k =>
      -- both are past the last entry
      rw [entry_cons_succ, entry_nil, entry_of_length_le (by omega)]

theorem length_widen (h : x.length = n + 1) : (Tableau.widen n x).length = n + 2 := by
  simp [Tableau.widen, h]

/-- Costs with a free column behind them. -/
theorem entry_append_zero (h : x.length = n) (j : ℕ) :
    entry (x ++ [0]) j = slipped n (entry x) j := by
  unfold slipped
  rcases lt_trichotomy j n with hj | rfl | hj
  · rw [if_pos hj, entry_append_left (by omega)]
  · rw [if_neg (lt_irrefl _), if_pos rfl, entry_append_right (by omega), h, Nat.sub_self,
      entry_cons_zero]
  · rw [if_neg (by omega), if_neg (by omega), entry_of_length_le (by simp; omega),
      entry_of_length_le (by omega)]

end Slipped

/-! ## The system with one more row -/

namespace Equations

variable (E : Equations) (coefficients : List ℚ) (r : ℚ)

/-- **The system with one more row**, and with a slack column for it that costs nothing. The
coefficients are read at the columns of the system. -/
def withRow : Equations where
  rows := E.rows.map (· ++ [0]) ++ [pick coefficients (List.range E.width) ++ [1]]
  rhs := E.rhs ++ [r]
  costs := E.costs ++ [0]
  rhs_length := by simp [E.rhs_length]
  row_length := by
    intro row hrow
    rcases List.mem_append.mp hrow with hold | hnew
    · obtain ⟨old, hmem, rfl⟩ := List.mem_map.mp hold
      simp [E.row_length old hmem]
    · obtain rfl := List.mem_singleton.mp hnew
      simp [width]

@[simp] theorem height_withRow : (E.withRow coefficients r).height = E.height + 1 := by
  simp [height, withRow]

@[simp] theorem width_withRow : (E.withRow coefficients r).width = E.width + 1 := by
  simp [width, withRow]

theorem entry_costs_withRow (j : ℕ) :
    entry (E.withRow coefficients r).costs j = slipped E.width (entry E.costs) j :=
  entry_append_zero rfl j

variable {i : ℕ}

/-- An old row has a zero in the new column. -/
theorem rowAt_augmented_withRow (hi : i < E.height) :
    (E.withRow coefficients r).augmented.rowAt i =
      Tableau.widen E.width (E.augmented.rowAt i) := by
  have hlen := E.length_row hi
  have hrow : (E.withRow coefficients r).rows.rowAt i = E.rows.rowAt i ++ [0] := by
    have hrows : i < E.rows.length := hi
    have hmap : i < (E.rows.map (· ++ [(0 : ℚ)])).length := by simpa using hrows
    change Dense.rowAt (E.rows.map (· ++ [0]) ++ [_]) i = _
    rw [Dense.rowAt_append_left hmap, Dense.rowAt_eq_getElem hmap, Dense.rowAt_eq_getElem hrows]
    simp
  have hrhs : entry (E.withRow coefficients r).rhs i = entry E.rhs i :=
    entry_append_left (by rw [E.rhs_length]; exact hi)
  rw [rowAt_augmented _ (by rw [height_withRow]; omega), hrow, hrhs, E.rowAt_augmented hi,
    Tableau.widen, List.take_left' hlen, entry_append_right (le_of_eq hlen), hlen, Nat.sub_self]
  simp

theorem cell_augmented_withRow (hi : i < E.height) (j : ℕ) :
    (E.withRow coefficients r).augmented.cell i j =
      slipped E.width (E.augmented.cell i) j := by
  rw [Dense.cell, rowAt_augmented_withRow _ _ _ hi, entry_widen (E.length_augmented_row hi)]
  rfl

/-- The new row, with its slack and its right-hand side. -/
theorem rowAt_augmented_withRow_height (hlen : coefficients.length = E.width) :
    (E.withRow coefficients r).augmented.rowAt E.height = coefficients ++ [1, r] := by
  have hpick : pick coefficients (List.range E.width) = coefficients :=
    eq_of_entry_eq (by simp [hlen]) fun j hj => by
      have hj' : j < E.width := by simpa using hj
      rw [entry_pick _ (by simpa using hj')]
      simp [hj']
  have hrow : (E.withRow coefficients r).rows.rowAt E.height = coefficients ++ [1] := by
    have hmap : (E.rows.map (· ++ [(0 : ℚ)])).length = E.height := by simp [height]
    change Dense.rowAt (E.rows.map (· ++ [0]) ++ [_]) E.height = _
    rw [Dense.rowAt_append_right (le_of_eq hmap), hmap, Nat.sub_self, hpick]
    rfl
  have hrhs : entry (E.withRow coefficients r).rhs E.height = r := by
    have hheight : E.rhs.length = E.height := E.rhs_length
    change entry (E.rhs ++ [r]) E.height = r
    rw [entry_append_right (le_of_eq hheight), hheight, Nat.sub_self, entry_cons_zero]
  rw [rowAt_augmented _ (by rw [height_withRow]; omega), hrow, hrhs]
  simp

end Equations

namespace Tableau

/-! ## Freeing a row of the basic columns -/

/-- Takes from a vector its entry in each listed column times the row beside it. -/
def freed (pairs : List (ℕ × List ℚ)) (x : List ℚ) : List ℚ :=
  pairs.foldl (fun acc (column, row) =>
    if entry acc column == 0 then acc else subScaled acc (entry acc column) row) x

theorem freed_cons (p : ℕ × List ℚ) (pairs : List (ℕ × List ℚ)) (x : List ℚ) :
    freed (p :: pairs) x =
      freed pairs (if entry x p.1 == 0 then x else subScaled x (entry x p.1) p.2) := rfl

/-- One step takes the multiple, also where there is nothing to take. -/
theorem entry_freeing {x row : List ℚ} (hlen : x.length = row.length) (column j : ℕ) :
    entry (if entry x column == 0 then x else subScaled x (entry x column) row) j =
      entry x j - entry x column * entry row j := by
  split
  · rename_i hzero
    rw [beq_iff_eq.mp hzero, zero_mul, sub_zero]
  · exact entry_subScaled _ hlen j

theorem length_freeing {x row : List ℚ} (hlen : x.length = row.length) (column : ℕ) :
    (if entry x column == 0 then x else subScaled x (entry x column) row).length = x.length := by
  split
  · rfl
  · rw [length_subScaled, hlen, min_self]

theorem length_freed {pairs : List (ℕ × List ℚ)} {x : List ℚ}
    (hlen : ∀ p ∈ pairs, x.length = p.2.length) : (freed pairs x).length = x.length := by
  induction pairs generalizing x with
  | nil => rfl
  | cons p pairs ih =>
    have hstep := length_freeing (hlen p (by simp)) p.1
    rw [freed_cons, ih fun q hq => hstep.trans (hlen q (by simp [hq])), hstep]

/-- **The multiples are those of the vector at the start**, where each row is zero in the columns
listed after it: a step leaves the columns of the later steps alone. -/
theorem entry_freed {pairs : List (ℕ × List ℚ)} {x : List ℚ}
    (hlen : ∀ p ∈ pairs, x.length = p.2.length)
    (hzero : pairs.Pairwise fun p q => entry p.2 q.1 = 0) (j : ℕ) :
    entry (freed pairs x) j =
      entry x j - (pairs.map fun p => entry x p.1 * entry p.2 j).sum := by
  induction pairs generalizing x with
  | nil => simp [freed]
  | cons p pairs ih =>
    obtain ⟨hlater, hrest⟩ := List.pairwise_cons.mp hzero
    have hp := hlen p (by simp)
    have hsame : (pairs.map fun q => entry
        (if entry x p.1 == 0 then x else subScaled x (entry x p.1) p.2) q.1 * entry q.2 j) =
          pairs.map fun q => entry x q.1 * entry q.2 j := by
      refine List.map_congr_left fun q hq => ?_
      rw [entry_freeing hp, hlater q hq, mul_zero, sub_zero]
    rw [freed_cons, ih (fun q hq => (length_freeing hp p.1).trans (hlen q (by simp [hq]))) hrest,
      entry_freeing hp, hsame, List.map_cons, List.sum_cons]
    ring

/-! ## The tableau with one more row -/

section AddRow

variable {E : Equations} {T next : Tableau ℚ} {coefficients : List ℚ} {r : ℚ} {name : String}
  {i j : ℕ}

/-- Coefficients that fill the columns are taken as they are. -/
theorem spread_eq {n : ℕ} (hlen : coefficients.length = n) :
    spread n coefficients = .ok coefficients := by
  unfold spread
  split
  · rename_i a
    obtain rfl : n = 1 := hlen.symm
    rfl
  · rw [if_pos hlen]

/-- Each basic column with its row, widened. -/
def basicRows (T : Tableau ℚ) (n : ℕ) : List (ℕ × List ℚ) :=
  T.basis.zip (T.constraintRows.map (widen n))

/-- The new row of the tableau. -/
def newRow (T : Tableau ℚ) (n : ℕ) (coefficients : List ℚ) (r : ℚ) : List ℚ :=
  freed (T.basicRows n) (coefficients ++ [1, r])

/-- **A row with a coefficient for each column is added.** -/
theorem Canonical.addRow_eq (h : T.Canonical E) (hlen : coefficients.length = E.width) (r : ℚ)
    (name : String) :
    T.addRow coefficients r name = .ok
      { matrix := T.constraintRows.map (widen E.width) ++
          [T.newRow E.width coefficients r, widen E.width T.objectiveRow]
        basis := T.basis ++ [E.width]
        names := T.names ++ [name] } := by
  unfold Tableau.addRow
  dsimp only
  rw [h.columnCount_eq, spread_eq hlen]
  rfl

theorem Canonical.length_widened (h : T.Canonical E) :
    (T.constraintRows.map (widen E.width)).length = E.height := by
  rw [List.length_map, h.length_constraintRows]

theorem Canonical.rowAt_widened (h : T.Canonical E) (hi : i < E.height) :
    Dense.rowAt (T.constraintRows.map (widen E.width)) i =
      widen E.width (T.matrix.rowAt i) := by
  have hi' : i < (T.constraintRows.map (widen E.width)).length := h.length_widened.symm ▸ hi
  have hm : i < T.matrix.length := by rw [h.height]; omega
  rw [Dense.rowAt_eq_getElem hi', Dense.rowAt_eq_getElem hm]
  simp [constraintRows]

theorem Canonical.length_basicRows (h : T.Canonical E) :
    (T.basicRows E.width).length = E.height := by
  rw [basicRows, List.length_zip, h.length_widened, h.basis_length, min_self]

theorem Canonical.basicRows_getElem (h : T.Canonical E) (hi : i < (T.basicRows E.width).length) :
    (T.basicRows E.width)[i] = (T.basic i, widen E.width (T.matrix.rowAt i)) := by
  have hi' : i < E.height := h.length_basicRows ▸ hi
  have hb : i < T.basis.length := by rw [h.basis_length]; exact hi'
  rw [← h.rowAt_widened hi', Dense.rowAt_eq_getElem (h.length_widened.symm ▸ hi')]
  simp only [basicRows, List.getElem_zip]
  simp [basic, hb]

theorem Canonical.length_of_mem_basicRows (h : T.Canonical E) {p : ℕ × List ℚ}
    (hp : p ∈ T.basicRows E.width) : p.2.length = E.width + 2 := by
  obtain ⟨k, hk, rfl⟩ := List.getElem_of_mem hp
  have hk' : k < E.height := h.length_basicRows ▸ hk
  rw [h.basicRows_getElem hk, length_widen (h.length_row (by omega))]

theorem Canonical.entry_widened (h : T.Canonical E) (hi : i < E.height + 1) (j : ℕ) :
    entry (widen E.width (T.matrix.rowAt i)) j = slipped E.width (T.cell i) j := by
  rw [entry_widen (h.length_row hi)]
  rfl

theorem Canonical.length_newRow (h : T.Canonical E) (hlen : coefficients.length = E.width) (r : ℚ) :
    (T.newRow E.width coefficients r).length = E.width + 2 := by
  have hstart : (coefficients ++ [1, r]).length = E.width + 2 := by simp [hlen]
  rw [newRow, length_freed fun p hp => hstart.trans (h.length_of_mem_basicRows hp).symm, hstart]

/-- The new row is freed of every basic column by the multiple that it starts with: the rows are
zero in the basic columns of one another. -/
theorem Canonical.entry_newRow (h : T.Canonical E) (hlen : coefficients.length = E.width) (r : ℚ)
    (j : ℕ) :
    entry (T.newRow E.width coefficients r) j = entry (coefficients ++ [1, r]) j -
      ∑ k ∈ range E.height, entry coefficients (T.basic k) * slipped E.width (T.cell k) j := by
  have hstart : (coefficients ++ [1, r]).length = E.width + 2 := by simp [hlen]
  have hcount := h.length_basicRows
  have hzero : (T.basicRows E.width).Pairwise fun p q => entry p.2 q.1 = 0 := by
    rw [List.pairwise_iff_getElem]
    intro k l hk hl hkl
    rw [h.basicRows_getElem hk, h.basicRows_getElem hl, h.entry_widened (by omega),
      slipped_of_lt (h.basic_lt (by omega))]
    have hunit := h.unit ⟨k, by omega⟩ ⟨l, by omega⟩
    rw [if_neg (by simp; omega)] at hunit
    exact hunit
  rw [newRow, entry_freed (fun p hp => hstart.trans (h.length_of_mem_basicRows hp).symm) hzero,
    sum_eq_sum_entry (n := E.height) (by simp [hcount])]
  congr 1
  refine Finset.sum_congr rfl fun k hk => ?_
  have hk' : k < E.height := mem_range.mp hk
  rw [entry_eq_getElem (by rw [List.length_map, hcount]; exact hk'), List.getElem_map,
    h.basicRows_getElem (hcount.symm ▸ hk'), h.entry_widened (by omega),
    entry_append_left (by rw [hlen]; exact h.basic_lt hk')]

/-! ### Its cells -/

section Cells

variable (h : T.Canonical E) (hlen : coefficients.length = E.width)
  (hadd : T.addRow coefficients r name = .ok next)

include h hlen hadd

theorem Canonical.cell_addRow (hi : i < E.height) (j : ℕ) :
    next.cell i j = slipped E.width (T.cell i) j := by
  obtain rfl := Except.ok.inj ((h.addRow_eq hlen r name).symm.trans hadd)
  have hi' : i < (T.constraintRows.map (widen E.width)).length := h.length_widened.symm ▸ hi
  rw [Tableau.cell, Dense.cell, Dense.rowAt_append_left hi', h.rowAt_widened hi,
    h.entry_widened (by omega)]

theorem Canonical.cell_addRow_height (j : ℕ) :
    next.cell E.height j = entry (coefficients ++ [1, r]) j -
      ∑ k ∈ range E.height, entry coefficients (T.basic k) * slipped E.width (T.cell k) j := by
  obtain rfl := Except.ok.inj ((h.addRow_eq hlen r name).symm.trans hadd)
  have hcount := h.length_widened
  rw [Tableau.cell, Dense.cell, Dense.rowAt_append_right (le_of_eq hcount), hcount, Nat.sub_self]
  exact h.entry_newRow hlen r j

theorem Canonical.cell_addRow_objective (j : ℕ) :
    next.cell (E.height + 1) j = slipped E.width (T.cell E.height) j := by
  obtain rfl := Except.ok.inj ((h.addRow_eq hlen r name).symm.trans hadd)
  have hcount := h.length_widened
  rw [Tableau.cell, Dense.cell, Dense.rowAt_append_right (by omega), hcount,
    Nat.add_sub_cancel_left]
  change entry (widen E.width T.objectiveRow) j = _
  rw [h.objectiveRow_eq, h.entry_widened (by omega)]

theorem Canonical.basic_addRow (hi : i < E.height) : next.basic i = T.basic i := by
  obtain rfl := Except.ok.inj ((h.addRow_eq hlen r name).symm.trans hadd)
  have hb : i < T.basis.length := by rw [h.basis_length]; exact hi
  simp [basic, List.getElem?_append_left hb]

theorem Canonical.basic_addRow_height : next.basic E.height = E.width := by
  obtain rfl := Except.ok.inj ((h.addRow_eq hlen r name).symm.trans hadd)
  simp [basic, h.basis_length]

/-- The new row is a combination of the new equation and the old ones. -/
theorem Canonical.cell_addRow_height_eq_sum {q : ℕ → ℕ → ℚ}
    (hq : ∀ i < E.height, ∀ j, T.cell i j = ∑ k ∈ range E.height, q i k * E.augmented.cell k j)
    (j : ℕ) :
    next.cell E.height j =
      ∑ l ∈ range E.height, (-∑ k ∈ range E.height, entry coefficients (T.basic k) * q k l) *
          (E.withRow coefficients r).augmented.cell l j +
        (E.withRow coefficients r).augmented.cell E.height j := by
  have hnew : (E.withRow coefficients r).augmented.cell E.height j =
      entry (coefficients ++ [1, r]) j := by
    rw [Dense.cell, E.rowAt_augmented_withRow_height _ _ hlen]
  have hold : ∀ k ∈ range E.height,
      entry coefficients (T.basic k) * slipped E.width (T.cell k) j =
        ∑ l ∈ range E.height, entry coefficients (T.basic k) *
          (q k l * (E.withRow coefficients r).augmented.cell l j) := by
    intro k hk
    have hrow : T.cell k = fun j => ∑ l ∈ range E.height, q k l * E.augmented.cell l j :=
      funext fun j => hq k (mem_range.mp hk) j
    rw [hrow, slipped_sum, Finset.mul_sum]
    refine Finset.sum_congr rfl fun l hl => ?_
    rw [E.cell_augmented_withRow _ _ (mem_range.mp hl)]
  -- sum over the old equations first
  have hswap : ∑ k ∈ range E.height, entry coefficients (T.basic k) *
      slipped E.width (T.cell k) j =
        ∑ l ∈ range E.height, (∑ k ∈ range E.height, entry coefficients (T.basic k) * q k l) *
          (E.withRow coefficients r).augmented.cell l j := by
    rw [Finset.sum_congr rfl hold, Finset.sum_comm]
    refine Finset.sum_congr rfl fun l _ => ?_
    rw [Finset.sum_mul]
    refine Finset.sum_congr rfl fun k _ => ?_
    ring
  rw [h.cell_addRow_height hlen hadd, hswap, hnew]
  simp only [neg_mul, Finset.sum_neg_distrib]
  ring

/-- The basic columns are unit columns again: the new row is freed of the old ones, and its slack is
in no other row. -/
theorem Canonical.unit_addRow {k : ℕ} (hi : i < E.height + 1) (hk : k < E.height + 1) :
    next.cell i (next.basic k) = if i = k then 1 else 0 := by
  have hslack : entry (coefficients ++ [1, r]) E.width = 1 := by
    rw [entry_append_right (le_of_eq hlen), hlen, Nat.sub_self, entry_cons_zero]
  rcases Nat.lt_succ_iff_lt_or_eq.mp hi with hi | rfl
  · rcases Nat.lt_succ_iff_lt_or_eq.mp hk with hk | rfl
    · rw [h.basic_addRow hlen hadd hk, h.cell_addRow hlen hadd hi, slipped_of_lt (h.basic_lt hk),
        h.unit_of_lt hi hk]
    · rw [h.basic_addRow_height hlen hadd, h.cell_addRow hlen hadd hi, slipped_self,
        if_neg (by omega)]
  · rcases Nat.lt_succ_iff_lt_or_eq.mp hk with hk | rfl
    · have hterm : ∀ l ∈ range E.height,
          entry coefficients (T.basic l) * slipped E.width (T.cell l) (T.basic k) =
            if l = k then entry coefficients (T.basic k) else 0 := by
        intro l hl
        rw [slipped_of_lt (h.basic_lt hk), h.unit_of_lt (mem_range.mp hl) hk]
        split
        · rename_i hlk
          rw [hlk, mul_one]
        · rw [mul_zero]
      rw [h.basic_addRow hlen hadd hk, h.cell_addRow_height hlen hadd, Finset.sum_congr rfl hterm,
        Finset.sum_ite_eq' (range E.height), if_pos (mem_range.mpr hk),
        entry_append_left (by rw [hlen]; exact h.basic_lt hk), sub_self, if_neg (by omega)]
    · have hzero : ∀ l ∈ range E.height,
          entry coefficients (T.basic l) * slipped E.width (T.cell l) E.width = 0 := by
        intro l _
        rw [slipped_self, mul_zero]
      rw [h.basic_addRow_height hlen hadd, h.cell_addRow_height hlen hadd,
        Finset.sum_eq_zero hzero, sub_zero, hslack, if_pos rfl]

/-- The objective row prices every column again: the slack in the basis costs nothing. -/
theorem Canonical.objective_addRow (j : ℕ) :
    next.cell (E.height + 1) j =
      ∑ i ∈ range (E.height + 1), entry (E.withRow coefficients r).costs (next.basic i) *
        next.cell i j - entry (E.withRow coefficients r).costs j := by
  have hold : ∀ i ∈ range E.height,
      entry (E.withRow coefficients r).costs (next.basic i) * next.cell i j =
        entry E.costs (T.basic i) * slipped E.width (T.cell i) j := by
    intro i hi
    have hi' := mem_range.mp hi
    rw [h.basic_addRow hlen hadd hi', h.cell_addRow hlen hadd hi', E.entry_costs_withRow,
      slipped_of_lt (h.basic_lt hi')]
  have hrow : T.cell E.height = fun j =>
      ∑ i ∈ range E.height, entry E.costs (T.basic i) * T.cell i j - entry E.costs j :=
    funext fun j => h.objective_range j
  rw [h.cell_addRow_objective hlen hadd, Finset.sum_range_succ, Finset.sum_congr rfl hold,
    h.basic_addRow_height hlen hadd, E.entry_costs_withRow, E.entry_costs_withRow, slipped_self,
    zero_mul, add_zero, hrow, slipped_sub, slipped_sum]

/-- **Adding a row keeps a tableau canonical**, for the system with that row. -/
theorem Canonical.addRow : next.Canonical (E.withRow coefficients r) := by
  have hnext := Except.ok.inj ((h.addRow_eq hlen r name).symm.trans hadd)
  obtain ⟨q, hq⟩ := h.exists_multiplier_range
  refine canonical_of_range (q := fun i k =>
    if i < E.height then if k < E.height then q i k else 0
    else if k < E.height then -∑ l ∈ range E.height, entry coefficients (T.basic l) * q l k
    else 1) ?_ ?_ ?_ ?_ ?_ ?_ ?_
  · rw [← hnext]
    simp [h.length_constraintRows]
  · rw [← hnext, Equations.width_withRow]
    intro row hrow
    rcases List.mem_append.mp hrow with hold | hnew
    · obtain ⟨old, hmem, rfl⟩ := List.mem_map.mp hold
      exact length_widen (h.width old (List.mem_of_mem_take hmem))
    · rcases List.mem_cons.mp hnew with rfl | hlast
      · exact h.length_newRow hlen r
      · obtain rfl := List.mem_singleton.mp hlast
        rw [h.objectiveRow_eq, length_widen (h.length_row (by omega))]
  · rw [← hnext, Equations.height_withRow]
    simp [h.basis_length]
  · rw [← hnext, Equations.width_withRow]
    intro k hk
    rcases List.mem_append.mp hk with hold | hnew
    · exact lt_trans (h.basis_lt k hold) (Nat.lt_succ_self _)
    · obtain rfl := List.mem_singleton.mp hnew
      exact Nat.lt_succ_self _
  · rw [Equations.height_withRow]
    intro i hi j
    rw [Finset.sum_range_succ]
    rcases Nat.lt_succ_iff_lt_or_eq.mp hi with hi | rfl
    · -- an old row keeps its multipliers
      have hrow : T.cell i = fun j => ∑ k ∈ range E.height, q i k * E.augmented.cell k j :=
        funext fun j => hq i hi j
      rw [h.cell_addRow hlen hadd hi, hrow, slipped_sum]
      simp only [if_pos hi, lt_irrefl, if_false, zero_mul, add_zero]
      refine Finset.sum_congr rfl fun k hk => ?_
      rw [if_pos (mem_range.mp hk), E.cell_augmented_withRow _ _ (mem_range.mp hk)]
    · rw [h.cell_addRow_height_eq_sum hlen hadd hq]
      simp only [lt_irrefl, if_false, one_mul]
      congr 1
      refine Finset.sum_congr rfl fun k hk => ?_
      rw [if_pos (mem_range.mp hk)]
  · rw [Equations.height_withRow]
    exact fun i hi k hk => h.unit_addRow hlen hadd hi hk
  · rw [Equations.height_withRow]
    exact fun j => h.objective_addRow hlen hadd j

end Cells

end AddRow

end Tableau

end LinOpt
