import LinOpt.Tableau.Basic
import LinOpt.Proofs.Pivoting
import Mathlib.LinearAlgebra.Matrix.NonsingularInverse
/-!
# Canonical tableaux

A tableau is *canonical* for a system of equations with costs when its constraint rows are
combinations of the equations, its basic columns are unit columns, and its objective row prices
every column over the basis. Pivoting keeps this (`Canonical.pivot`), so every tableau the simplex
method meets is canonical for the system it started from (`Canonical.leads`).

Nothing else is carried along. The multiplier of the rows is the inverse of the basic columns
(`Canonical.exists_inverse`), which makes the equations a consequence of the rows as well: hence the
basic point solves the system, and so does every step along an entering column.
-/

namespace LinOpt

open Finset

/-! ## Equations with costs -/

/-- Equations over columns with a cost for each column. -/
structure Equations where
  /-- The coefficients, row by row. -/
  rows : Dense ℚ
  /-- The right-hand sides. -/
  rhs : List ℚ
  /-- The cost of each column. -/
  costs : List ℚ
  rhs_length : rhs.length = rows.length
  row_length : ∀ row ∈ rows, row.length = costs.length

namespace Equations

variable (E : Equations) {i j : ℕ}

/-- The number of equations. -/
def height : ℕ := E.rows.length

/-- The number of columns. -/
def width : ℕ := E.costs.length

/-- The rows with their right-hand sides behind the last column. -/
def augmented : Dense ℚ := List.zipWith (fun row r => row ++ [r]) E.rows E.rhs

/-- The tableau of the equations at a basis of unit columns. -/
def tableau (basis : List ℕ) (names : List String) : Tableau ℚ :=
  Tableau.initial E.rows E.rhs E.costs basis names

/-- The vector meets every equation. -/
def Solves (x : List ℚ) : Prop := E.rows.mulVec x = E.rhs

instance (x : List ℚ) : Decidable (E.Solves x) := inferInstanceAs (Decidable (_ = _))

/-- The columns of a basis, as a square matrix. -/
def basisMatrix (basis : List ℕ) : Matrix (Fin E.height) (Fin E.height) ℚ :=
  Matrix.of fun i k => E.rows.cell i (basis.getD k 0)

@[simp] theorem basisMatrix_apply (basis : List ℕ) (i k : Fin E.height) :
    E.basisMatrix basis i k = E.rows.cell i (basis.getD k 0) := rfl

@[simp] theorem length_augmented : E.augmented.length = E.height := by
  simp [augmented, E.rhs_length, height]

theorem length_row (hi : i < E.height) : (E.rows.rowAt i).length = E.width :=
  E.row_length _ (Dense.rowAt_mem hi)

theorem rowAt_augmented (hi : i < E.height) :
    E.augmented.rowAt i = E.rows.rowAt i ++ [entry E.rhs i] := by
  have hr : i < E.rows.length := hi
  have hb : i < E.rhs.length := E.rhs_length ▸ hi
  simp [augmented, Dense.rowAt, entry, hr, hb]

theorem length_augmented_row (hi : i < E.height) : (E.augmented.rowAt i).length = E.width + 1 := by
  rw [E.rowAt_augmented hi, List.length_append, E.length_row hi]
  rfl

theorem cell_augmented (hi : i < E.height) (hj : j < E.width) :
    E.augmented.cell i j = E.rows.cell i j := by
  rw [Dense.cell, E.rowAt_augmented hi, entry_append_left (by rw [E.length_row hi]; exact hj)]
  rfl

theorem cell_augmented_width (hi : i < E.height) : E.augmented.cell i E.width = entry E.rhs i := by
  rw [Dense.cell, E.rowAt_augmented hi, entry_append_right (by rw [E.length_row hi]),
    E.length_row hi,
    Nat.sub_self]
  rfl

/-- The right-hand side has no cost. -/
theorem entry_costs_width : entry E.costs E.width = 0 := entry_of_length_le (le_refl _)

/-- The equations, one at a time. -/
theorem solves_iff {x : List ℚ} : E.Solves x ↔
    ∀ i < E.height, ∑ j ∈ range E.width, E.rows.cell i j * entry x j = entry E.rhs i := by
  have hrow : ∀ row ∈ E.rows, row.length ≤ E.width := fun row h => le_of_eq (E.row_length row h)
  constructor
  · intro h i hi
    rw [← Dense.entry_mulVec hrow hi, h]
  · intro h
    refine eq_of_entry_eq (by rw [Dense.length_mulVec, E.rhs_length]) fun i hi => ?_
    have hi' : i < E.height := by simpa [height] using hi
    rw [Dense.entry_mulVec hrow hi']
    exact h i hi'

end Equations

namespace Tableau

/-- The entry of a tableau in row `i` and column `j`; the objective row is the last one, and the
right-hand side the last column. -/
def cell (T : Tableau ℚ) (i j : ℕ) : ℚ := T.matrix.cell i j

/-- The basic column of a row. -/
def basic (T : Tableau ℚ) (i : ℕ) : ℕ := T.basis.getD i 0

/-- **What every tableau of the simplex method is**, for the equations it started from. -/
structure Canonical (E : Equations) (T : Tableau ℚ) : Prop where
  height : T.matrix.length = E.height + 1
  width : ∀ row ∈ T.matrix, row.length = E.width + 1
  basis_length : T.basis.length = E.height
  basis_lt : ∀ k ∈ T.basis, k < E.width
  /-- The constraint rows are combinations of the equations. -/
  multiplier : ∃ Q : Matrix (Fin E.height) (Fin E.height) ℚ,
    T.matrix.grid E.height = Q * E.augmented.grid E.height
  /-- The basic columns are unit columns. -/
  unit : ∀ i k : Fin E.height, T.cell i (T.basic k) = if i = k then 1 else 0
  /-- The objective row is the price of a column over the basis less its cost. -/
  objective : ∀ j, T.cell E.height j =
    ∑ i : Fin E.height, entry E.costs (T.basic i) * T.cell i j - entry E.costs j

namespace Canonical

variable {E : Equations} {T : Tableau ℚ} {i j : ℕ}

/-! ## Reading a canonical tableau -/

theorem rowCount_eq (h : T.Canonical E) : T.rowCount = E.height := by
  rw [Tableau.rowCount, h.height]
  rfl

theorem length_row (h : T.Canonical E) (hi : i < E.height + 1) :
    (T.matrix.rowAt i).length = E.width + 1 :=
  h.width _ (Dense.rowAt_mem (h.height ▸ hi))

theorem columnCount_eq (h : T.Canonical E) : T.columnCount = E.width := by
  have hne : T.matrix ≠ [] := List.ne_nil_of_length_pos (by rw [h.height]; omega)
  have hhead : T.matrix.headD [] ∈ T.matrix := by
    obtain ⟨row, rows, heq⟩ := List.exists_cons_of_ne_nil hne
    simp [heq]
  rw [Tableau.columnCount, h.width _ hhead]
  rfl

theorem basic_lt (h : T.Canonical E) (hi : i < E.height) : T.basic i < E.width := by
  refine h.basis_lt _ ?_
  simp [Tableau.basic, h.basis_length ▸ hi]

/-- A column of the basis is the basic column of a row. -/
theorem exists_of_mem_basis (h : T.Canonical E) (hj : j ∈ T.basis) :
    ∃ i : Fin E.height, T.basic i = j := by
  obtain ⟨i, hi, rfl⟩ := List.getElem_of_mem hj
  exact ⟨⟨i, h.basis_length ▸ hi⟩, by simp [Tableau.basic, hi]⟩

theorem length_constraintRows (h : T.Canonical E) : T.constraintRows.length = E.height := by
  rw [Tableau.constraintRows, List.length_take, h.rowCount_eq, h.height]
  omega

theorem cell_constraintRows (h : T.Canonical E) (hi : i < E.height) (j : ℕ) :
    T.constraintRows.cell i j = T.cell i j := by
  simp [Tableau.constraintRows, Tableau.cell, Dense.cell, Dense.rowAt, h.rowCount_eq, hi]

@[simp] theorem length_rhs (h : T.Canonical E) : T.rhs.length = E.height := by
  rw [Tableau.rhs, Dense.length_column, h.length_constraintRows]

theorem entry_rhs (h : T.Canonical E) (hi : i < E.height) : entry T.rhs i = T.cell i E.width := by
  rw [Tableau.rhs, Dense.entry_column (by rw [h.length_constraintRows]; exact hi),
    h.cell_constraintRows hi, h.columnCount_eq]

@[simp] theorem length_column (h : T.Canonical E) (j : ℕ) : (T.column j).length = E.height := by
  rw [Tableau.column, Dense.length_column, h.length_constraintRows]

theorem entry_column (h : T.Canonical E) (hi : i < E.height) (j : ℕ) :
    entry (T.column j) i = T.cell i j := by
  rw [Tableau.column, Dense.entry_column (by rw [h.length_constraintRows]; exact hi),
    h.cell_constraintRows hi]

theorem objectiveRow_eq (h : T.Canonical E) : T.objectiveRow = T.matrix.rowAt E.height := by
  rw [Tableau.objectiveRow, h.rowCount_eq]
  rfl

@[simp] theorem length_reducedCosts (h : T.Canonical E) : T.reducedCosts.length = E.width := by
  rw [Tableau.reducedCosts, List.length_take, h.columnCount_eq, h.objectiveRow_eq,
    h.length_row (by omega)]
  omega

theorem entry_reducedCosts (h : T.Canonical E) (hj : j < E.width) :
    entry T.reducedCosts j = T.cell E.height j := by
  rw [Tableau.reducedCosts, h.columnCount_eq, entry_take hj, h.objectiveRow_eq]
  rfl

theorem objectiveValue_eq (h : T.Canonical E) : T.objectiveValue = T.cell E.height E.width := by
  rw [Tableau.objectiveValue, h.columnCount_eq, h.objectiveRow_eq]
  rfl

/-- The objective value is the cost of the basic columns at their values. -/
theorem objectiveValue_eq_dot (h : T.Canonical E) :
    T.objectiveValue = dot (pick E.costs T.basis) T.rhs := by
  rw [h.objectiveValue_eq, h.objective, E.entry_costs_width, sub_zero,
    dot_eq_sum (n := E.height) (by rw [length_pick, h.basis_length]), ← Fin.sum_univ_eq_sum_range
      (fun i => entry (pick E.costs T.basis) i * entry T.rhs i)]
  refine Finset.sum_congr rfl fun i _ => ?_
  rw [entry_pick _ (by rw [h.basis_length]; exact i.2), h.entry_rhs i.2]
  rfl

/-- Basic columns cost nothing in the objective row. -/
theorem reduced_basic (h : T.Canonical E) (k : Fin E.height) : T.cell E.height (T.basic k) = 0 := by
  rw [h.objective]
  simp [h.unit]

/-- No column is basic in two rows. -/
theorem basic_injective (h : T.Canonical E) {i k : Fin E.height} (heq : T.basic i = T.basic k) :
    i = k := by
  have h1 := h.unit i i
  rw [heq, h.unit i k] at h1
  by_contra hne
  simp [hne] at h1

theorem basis_nodup (h : T.Canonical E) : T.basis.Nodup := by
  rw [List.nodup_iff_injective_getElem]
  intro i k heq
  have hi : (i : ℕ) < E.height := h.basis_length ▸ i.2
  have hk : (k : ℕ) < E.height := h.basis_length ▸ k.2
  have hik : (⟨i, hi⟩ : Fin E.height) = ⟨k, hk⟩ := by
    refine h.basic_injective ?_
    simpa [Tableau.basic] using heq
  exact Fin.ext (by simpa using hik)

/-- A column of negative reduced cost is not basic. -/
theorem notMem_basis (h : T.Canonical E) (hj : T.cell E.height j < 0) : j ∉ T.basis := by
  intro hmem
  obtain ⟨k, rfl⟩ := h.exists_of_mem_basis hmem
  rw [h.reduced_basic k] at hj
  exact lt_irrefl _ hj

/-- The constraint rows as combinations of the equations, cell by cell. -/
theorem exists_multiplier (h : T.Canonical E) :
    ∃ Q : Matrix (Fin E.height) (Fin E.height) ℚ,
      ∀ (i : Fin E.height) j, T.cell i j = ∑ k, Q i k * E.augmented.cell k j := by
  obtain ⟨Q, hQ⟩ := h.multiplier
  refine ⟨Q, fun i j => ?_⟩
  have hij := congrFun (congrFun hQ i) j
  rwa [Dense.grid_apply, Matrix.mul_apply] at hij

end Canonical

/-! ## Rows by their numbers

Two systems of one height count their rows by different types. Here rows are counted by natural
numbers, so that tableaux of different systems can be compared. -/

section Range

variable {E : Equations} {T : Tableau ℚ} {i k : ℕ}

theorem Canonical.exists_multiplier_range (h : T.Canonical E) :
    ∃ q : ℕ → ℕ → ℚ, ∀ i < E.height, ∀ j,
      T.cell i j = ∑ k ∈ range E.height, q i k * E.augmented.cell k j := by
  obtain ⟨Q, hcell⟩ := h.exists_multiplier
  refine ⟨fun i k => if hik : i < E.height ∧ k < E.height then Q ⟨i, hik.1⟩ ⟨k, hik.2⟩ else 0,
    fun i hi j => ?_⟩
  rw [hcell ⟨i, hi⟩ j, ← Fin.sum_univ_eq_sum_range
    (fun k => (if hik : i < E.height ∧ k < E.height then Q ⟨i, hik.1⟩ ⟨k, hik.2⟩ else 0) *
      E.augmented.cell k j)]
  refine Finset.sum_congr rfl fun k _ => ?_
  rw [dif_pos ⟨hi, k.2⟩]

theorem Canonical.unit_of_lt (h : T.Canonical E) (hi : i < E.height) (hk : k < E.height) :
    T.cell i (T.basic k) = if i = k then 1 else 0 := by
  rw [h.unit ⟨i, hi⟩ ⟨k, hk⟩]
  simp only [Fin.mk.injEq]

theorem Canonical.objective_range (h : T.Canonical E) (j : ℕ) :
    T.cell E.height j =
      ∑ i ∈ range E.height, entry E.costs (T.basic i) * T.cell i j - entry E.costs j := by
  rw [h.objective, Fin.sum_univ_eq_sum_range (fun i => entry E.costs (T.basic i) * T.cell i j)]

theorem canonical_of_range (hheight : T.matrix.length = E.height + 1)
    (hwidth : ∀ row ∈ T.matrix, row.length = E.width + 1) (hbasis : T.basis.length = E.height)
    (hlt : ∀ k ∈ T.basis, k < E.width) {q : ℕ → ℕ → ℚ}
    (hcell : ∀ i < E.height, ∀ j,
      T.cell i j = ∑ k ∈ range E.height, q i k * E.augmented.cell k j)
    (hunit : ∀ i < E.height, ∀ k < E.height, T.cell i (T.basic k) = if i = k then 1 else 0)
    (hobjective : ∀ j, T.cell E.height j =
      ∑ i ∈ range E.height, entry E.costs (T.basic i) * T.cell i j - entry E.costs j) :
    T.Canonical E where
  height := hheight
  width := hwidth
  basis_length := hbasis
  basis_lt := hlt
  multiplier := by
    refine ⟨Matrix.of fun i k => q i k, ?_⟩
    ext i j
    rw [Dense.grid_apply, Matrix.mul_apply]
    exact (hcell i i.2 j).trans (Fin.sum_univ_eq_sum_range
      (fun k => q i k * E.augmented.cell k j) E.height).symm
  unit := by
    intro i k
    rw [hunit i i.2 k k.2]
    simp only [Fin.ext_iff]
  objective := by
    intro j
    rw [hobjective, Fin.sum_univ_eq_sum_range (fun i => entry E.costs (T.basic i) * T.cell i j)]

end Range

/-! ## The tableau at the start -/

/-- The last row of the tableau at the start. -/
theorem cell_initial_height (E : Equations) {basis : List ℕ} (names : List String)
    (hlen : basis.length = E.height) (j : ℕ) :
    (E.tableau basis names).cell E.height j =
      ∑ i : Fin E.height, entry E.costs (basis.getD i 0) * E.augmented.cell i j -
        entry E.costs j := by
  have hrow : (E.tableau basis names).matrix.rowAt E.height =
      List.zipWith (· - ·) (Dense.vecMul E.width (pick E.costs basis) E.rows) E.costs ++
        [dot (pick E.costs basis) E.rhs] := by
    have htop : E.augmented.length = E.height := E.length_augmented
    change Dense.rowAt (E.augmented ++ [_]) E.height = _
    rw [Dense.rowAt_append_right (le_of_eq htop), htop, Nat.sub_self]
    rfl
  have hbody : (Dense.vecMul E.width (pick E.costs basis) E.rows).length = E.costs.length := by
    rw [Dense.length_vecMul]
    rfl
  have hsum : ∀ f : ℕ → ℚ, ∑ k ∈ range E.height, entry (pick E.costs basis) k * f k =
      ∑ i : Fin E.height, entry E.costs (basis.getD i 0) * f i := by
    intro f
    rw [← Fin.sum_univ_eq_sum_range (fun k => entry (pick E.costs basis) k * f k)]
    refine Finset.sum_congr rfl fun i _ => ?_
    rw [entry_pick _ (by rw [hlen]; exact i.2)]
  have hcosts : ∀ j, E.width ≤ j → entry E.costs j = 0 := fun j hj => entry_of_length_le hj
  have hzip : (List.zipWith (· - ·) (Dense.vecMul E.width (pick E.costs basis) E.rows)
      E.costs).length = E.width := by
    simp [Equations.width]
  rw [Tableau.cell, Dense.cell, hrow]
  -- a column of the system, the right-hand side, or nothing
  rcases lt_trichotomy j E.width with hj | rfl | hj
  · rw [entry_append_left (by rw [hzip]; exact hj), entry_zipWith_sub hbody, Dense.entry_vecMul hj]
    change ∑ k ∈ range E.height, _ - _ = _
    rw [hsum]
    congr 1
    refine Finset.sum_congr rfl fun i _ => ?_
    rw [E.cell_augmented i.2 hj]
  · rw [entry_append_right (le_of_eq hzip), hzip, Nat.sub_self, entry_cons_zero,
      dot_eq_sum_right (n := E.height) (le_of_eq E.rhs_length), hsum,
      hcosts _ (le_refl _), sub_zero]
    refine Finset.sum_congr rfl fun i _ => ?_
    rw [E.cell_augmented_width i.2]
  · rw [entry_of_length_le (by rw [List.length_append, hzip]; simpa using hj),
      hcosts _ (le_of_lt hj), sub_zero]
    refine (Finset.sum_eq_zero fun i _ => ?_).symm
    have hzero : E.augmented.cell i j = 0 :=
      entry_of_length_le (by rw [E.length_augmented_row i.2]; exact hj)
    rw [hzero, mul_zero]

theorem cell_initial (E : Equations) (basis : List ℕ) (names : List String) {i : ℕ}
    (hi : i < E.height)
    (j : ℕ) : (E.tableau basis names).cell i j = E.augmented.cell i j := by
  change entry (Dense.rowAt (E.augmented ++ [_]) i) j = _
  rw [Dense.rowAt_append_left (by rw [E.length_augmented]; exact hi)]
  rfl

/-- **The tableau at the start is canonical**, where the basic columns are unit columns of the
system. -/
theorem canonical_initial (E : Equations) {basis : List ℕ} (names : List String)
    (hlen : basis.length = E.height) (hlt : ∀ k ∈ basis, k < E.width)
    (hunit : ∀ i < E.height, ∀ k < E.height,
      E.rows.cell i (basis.getD k 0) = if i = k then 1 else 0) :
    (E.tableau basis names).Canonical E where
  height := by
    change (E.augmented ++ [_]).length = _
    rw [List.length_append, E.length_augmented]
    rfl
  width := by
    intro row hrow
    change row ∈ E.augmented ++ [_] at hrow
    rcases List.mem_append.mp hrow with htop | hbottom
    · obtain ⟨i, hi, rfl⟩ := List.getElem_of_mem htop
      have hlen := E.length_augmented_row (i := i) (by simpa using hi)
      rwa [Dense.rowAt_eq_getElem hi] at hlen
    · obtain rfl := List.mem_singleton.mp hbottom
      simp [Equations.width]
  basis_length := hlen
  basis_lt := hlt
  multiplier := by
    refine ⟨1, ?_⟩
    rw [Matrix.one_mul]
    ext i j
    exact cell_initial E basis names i.2 j
  unit := by
    intro i k
    have hkl : (k : ℕ) < basis.length := by rw [hlen]; exact k.2
    have hk : basis.getD k 0 < E.width := hlt _ (by simp [hkl])
    change (E.tableau basis names).cell i (basis.getD k 0) = _
    rw [cell_initial E basis names i.2, E.cell_augmented i.2 hk, hunit i i.2 k k.2]
    simp only [Fin.ext_iff]
  objective := by
    intro j
    rw [cell_initial_height E names hlen]
    congr 1
    refine Finset.sum_congr rfl fun i _ => ?_
    rw [cell_initial E basis names i.2]
    rfl

/-! ## Pivoting -/

section Pivot

variable {E : Equations} {T : Tableau ℚ} {row col i : ℕ}

/-- A row of the tableau after a pivot. -/
theorem rowAt_pivot (hi : i < T.matrix.length) :
    (T.pivot row col).matrix.rowAt i =
      (if i = row then (T.matrix.rowAt row).map (· / T.cell row col)
        else if T.cell i col == 0 then T.matrix.rowAt i
        else subScaled (T.matrix.rowAt i) (T.cell i col)
          ((T.matrix.rowAt row).map (· / T.cell row col))).set col (if i = row then 1 else 0) := by
  simp [Tableau.pivot, Tableau.cleanColumn, Tableau.cell, Dense.cell, Dense.rowAt, hi]

/-- **The cells after a pivot**: the pivot row is scaled, and its multiple is taken from every other
row. -/
theorem cell_pivot (h : T.Canonical E) (hrow : row < E.height) (hcol : col < E.width)
    (hne : T.cell row col ≠ 0) (hi : i < E.height + 1) (j : ℕ) :
    (T.pivot row col).cell i j =
      if i = row then T.cell row j / T.cell row col
      else T.cell i j - T.cell i col * (T.cell row j / T.cell row col) := by
  have hlen : (T.matrix.rowAt i).length = E.width + 1 := h.length_row hi
  have hlenr : ((T.matrix.rowAt row).map (· / T.cell row col)).length = E.width + 1 := by
    rw [List.length_map, h.length_row (by omega)]
  have hscaled : ∀ j, entry ((T.matrix.rowAt row).map (· / T.cell row col)) j =
      T.cell row j / T.cell row col := fun j => entry_map (by simp) j
  rw [Tableau.cell, Dense.cell, rowAt_pivot (h.height ▸ hi)]
  -- the unit column is written over the row, and in each case it is there already
  by_cases hir : i = row
  · rw [if_pos hir, if_pos hir, if_pos hir, entry_set _ (by omega), hscaled]
    split
    · rename_i hj
      rw [hj, div_self hne]
    · rfl
  · rw [if_neg hir, if_neg hir, if_neg hir]
    by_cases hz : T.cell i col = 0
    · -- a row with a zero in the column is left alone
      rw [if_pos (by simpa using hz), entry_set _ (by omega), hz, zero_mul, sub_zero]
      split
      · rename_i hj
        rw [hj, hz]
      · rfl
    · rw [if_neg (by simpa using hz), entry_set _ (by rw [length_subScaled]; omega),
        entry_subScaled _ (by omega), hscaled]
      split
      · rename_i hj
        rw [hj, div_self hne, mul_one, sub_self]
      · rfl

theorem basic_pivot (h : T.Canonical E) (hrow : row < E.height) (i : ℕ) :
    (T.pivot row col).basic i = if i = row then col else T.basic i := by
  by_cases hir : i = row
  · subst hir
    simp [Tableau.basic, Tableau.pivot, h.basis_length ▸ hrow]
  · simp [Tableau.basic, Tableau.pivot, Ne.symm hir, hir]

/-- How a cost over the basis changes with a pivot: the cost of the entering column, less its price,
replaces the cost of the leaving one. -/
theorem sum_basic_pivot (h : T.Canonical E) (hrow : row < E.height) (hcol : col < E.width)
    (hne : T.cell row col ≠ 0) (v : ℕ → ℚ) (j : ℕ) :
    ∑ i : Fin E.height, v ((T.pivot row col).basic i) * (T.pivot row col).cell i j =
      ∑ i : Fin E.height, v (T.basic i) * T.cell i j -
        (∑ i : Fin E.height, v (T.basic i) * T.cell i col - v col) *
          (T.cell row j / T.cell row col) := by
  -- every row gives its old term less the elimination, the pivot row the entering column too
  have hterm : ∀ i : Fin E.height, v ((T.pivot row col).basic i) * (T.pivot row col).cell i j =
      (v (T.basic i) * T.cell i j - v (T.basic i) * T.cell i col *
        (T.cell row j / T.cell row col)) +
        if i = ⟨row, hrow⟩ then v col * (T.cell row j / T.cell row col) else 0 := by
    intro i
    rw [cell_pivot h hrow hcol hne (by omega), basic_pivot h hrow]
    by_cases hir : (i : ℕ) = row
    · have hfin : i = ⟨row, hrow⟩ := Fin.ext hir
      rw [if_pos hir, if_pos hir, if_pos hfin, hir]
      field_simp
      ring
    · have hfin : i ≠ ⟨row, hrow⟩ := fun he => hir (congrArg Fin.val he)
      rw [if_neg hir, if_neg hir, if_neg hfin]
      ring
  rw [Finset.sum_congr rfl fun i _ => hterm i, Finset.sum_add_distrib, Finset.sum_sub_distrib,
    ← Finset.sum_mul, Finset.sum_ite_eq' Finset.univ]
  simp only [Finset.mem_univ, if_true]
  ring

/-- **Pivoting keeps a tableau canonical**, on any entry that is not zero. -/
theorem Canonical.pivot (h : T.Canonical E) (hrow : row < E.height) (hcol : col < E.width)
    (hne : T.cell row col ≠ 0) : (T.pivot row col).Canonical E where
  height := by
    simpa [Tableau.pivot, Tableau.cleanColumn] using h.height
  width := by
    intro r hr
    obtain ⟨i, hi, rfl⟩ := List.getElem_of_mem hr
    have hi' : i < T.matrix.length := by simpa [Tableau.pivot, Tableau.cleanColumn] using hi
    have hlen := h.length_row (i := i) (h.height ▸ hi')
    have hlenr := h.length_row (i := row) (by omega)
    rw [← Dense.rowAt_eq_getElem hi, rowAt_pivot hi', List.length_set]
    split_ifs
    · rw [List.length_map, hlenr]
    · exact hlen
    · rw [length_subScaled, List.length_map, hlen, hlenr, min_self]
  basis_length := by
    simpa [Tableau.pivot] using h.basis_length
  basis_lt := by
    intro k hk
    rcases List.mem_or_eq_of_mem_set hk with hold | rfl
    · exact h.basis_lt k hold
    · exact hcol
  multiplier := by
    obtain ⟨Q, hcell⟩ := h.exists_multiplier
    -- the multiplier is pivoted along with the rows
    refine ⟨Matrix.of fun i k => if (i : ℕ) = row then Q ⟨row, hrow⟩ k / T.cell row col
      else Q i k - T.cell i col * (Q ⟨row, hrow⟩ k / T.cell row col), ?_⟩
    ext i j
    have hr := hcell ⟨row, hrow⟩ j
    rw [Dense.grid_apply, Matrix.mul_apply]
    change (T.pivot row col).cell i j = _
    rw [cell_pivot h hrow hcol hne (by omega)]
    by_cases hir : (i : ℕ) = row
    · simp only [Matrix.of_apply, if_pos hir, Dense.grid_apply]
      rw [hr, Finset.sum_div]
      refine Finset.sum_congr rfl fun k _ => ?_
      ring
    · simp only [Matrix.of_apply, if_neg hir, Dense.grid_apply]
      rw [hr, hcell i j, Finset.sum_div, Finset.mul_sum, ← Finset.sum_sub_distrib]
      refine Finset.sum_congr rfl fun k _ => ?_
      ring
  unit := by
    intro i k
    rw [basic_pivot h hrow, cell_pivot h hrow hcol hne (by omega)]
    by_cases hkr : (k : ℕ) = row
    · -- the entering column: the pivot clears it in every other row
      rw [if_pos hkr, div_self hne]
      by_cases hir : (i : ℕ) = row
      · rw [if_pos hir, if_pos (Fin.ext (hir.trans hkr.symm))]
      · rw [if_neg hir, if_neg (fun he => hir (by rw [he]; exact hkr)), mul_one, sub_self]
    · -- another basic column: it is zero in the pivot row, so the pivot leaves it alone
      have hrk := h.unit ⟨row, hrow⟩ k
      rw [if_neg (fun he => hkr (by rw [← he]))] at hrk
      rw [if_neg hkr, hrk, zero_div, mul_zero, sub_zero]
      by_cases hir : (i : ℕ) = row
      · rw [if_pos hir, if_neg (fun he => hkr (by rw [← he]; exact hir))]
      · rw [if_neg hir, h.unit i k]
  objective := by
    intro j
    -- the multiple taken from the objective row is the reduced cost of the entering column
    rw [sum_basic_pivot h hrow hcol hne, ← h.objective col, cell_pivot h hrow hcol hne (by omega),
      if_neg (by omega), h.objective j]
    ring

end Pivot

end Tableau

end LinOpt
