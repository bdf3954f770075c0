import LinOpt.Dense.Basic
import Mathlib.Algebra.BigOperators.Field
import Mathlib.Algebra.BigOperators.Ring.Finset
import Mathlib.Algebra.Order.Ring.Rat
import Mathlib.Data.Matrix.Mul
import Mathlib.Tactic.FieldSimp
import Mathlib.Tactic.Linarith
import Mathlib.Tactic.Ring
/-!
# Exact linear algebra over lists

Over the rationals a vector is known by its length and its entries, and an inner product is a sum
over places. This file says so for every operation on dense vectors and matrices; nothing after it
unfolds one. `cell` reads an entry of a matrix and `grid` reads the leading rows as a matrix whose
columns are numbered without end, so that a right-hand side kept behind the last column is one more
column.

A list of entries `(place, value)` has a value at a vector, `valueAt`; `sum_scatter` says that
writing the entries into zeros keeps it.
-/

namespace LinOpt

open Finset

variable {x y : List ℚ} {A B : Dense ℚ} {i j k m n : ℕ}

/-! ## Entries of a vector -/

@[simp] theorem entry_nil (j : ℕ) : entry ([] : List ℚ) j = 0 := rfl

@[simp] theorem entry_cons_zero (a : ℚ) (x : List ℚ) : entry (a :: x) 0 = a := rfl

@[simp] theorem entry_cons_succ (a : ℚ) (x : List ℚ) (j : ℕ) :
    entry (a :: x) (j + 1) = entry x j := rfl

theorem entry_eq_getElem (h : j < x.length) : entry x j = x[j] := by
  simp [entry, h]

theorem entry_of_length_le (h : x.length ≤ j) : entry x j = 0 := by
  simp [entry, h]

/-- Vectors of one length with the same entries are the same. -/
theorem eq_of_entry_eq (hlen : x.length = y.length) (h : ∀ j < x.length, entry x j = entry y j) :
    x = y := by
  refine List.ext_getElem hlen fun j hx hy => ?_
  rw [← entry_eq_getElem hx, ← entry_eq_getElem hy]
  exact h j hx

/-- A lower bound on the entries of a vector, past the last place too. -/
theorem le_entry {low : ℚ} (hlow : low ≤ 0) (h : ∀ a ∈ x, low ≤ a) (j : ℕ) : low ≤ entry x j := by
  rcases lt_or_ge j x.length with hj | hj
  · rw [entry_eq_getElem hj]
    exact h _ (List.getElem_mem hj)
  · rw [entry_of_length_le hj]
    exact hlow

theorem entry_nonneg (h : ∀ a ∈ x, 0 ≤ a) (j : ℕ) : 0 ≤ entry x j := le_entry (le_refl 0) h j

theorem entry_mem_zip (hx : j < x.length) (hy : j < y.length) :
    (entry x j, entry y j) ∈ x.zip y := by
  rw [entry_eq_getElem hx, entry_eq_getElem hy, ← List.getElem_zip (h := by simp [hx, hy])]
  exact List.getElem_mem _

theorem entry_append_left (h : j < x.length) : entry (x ++ y) j = entry x j := by
  simp [entry, List.getElem?_append_left h]

theorem entry_append_right (h : x.length ≤ j) : entry (x ++ y) j = entry y (j - x.length) := by
  simp [entry, List.getElem?_append_right h]

theorem entry_map {f : ℚ → ℚ} (hf : f 0 = 0) (j : ℕ) : entry (x.map f) j = f (entry x j) := by
  simp only [entry, List.getD_eq_getElem?_getD, List.getElem?_map]
  cases x[j]? with
  | none => exact hf.symm
  | some a => rfl

theorem entry_take (h : j < n) : entry (x.take n) j = entry x j := by
  simp [entry, h]

theorem entry_set {α : Type} [Scalar α] {x : List α} (a : α) (h : k < x.length) (j : ℕ) :
    entry (x.set k a) j = if j = k then a else entry x j := by
  by_cases hjk : j = k
  · subst hjk
    simp [entry, h]
  · simp [entry, Ne.symm hjk, hjk]

theorem entry_zeros_eq {α : Type} [Scalar α] (n j : ℕ) : entry (zeros n : List α) j = 0 := by
  simp only [entry, zeros, List.getD_eq_getElem?_getD, List.getElem?_replicate]
  split <;> rfl

@[simp] theorem entry_zeros (n j : ℕ) : entry (zeros n : List ℚ) j = 0 := entry_zeros_eq n j

@[simp] theorem length_zeros {α : Type} [Scalar α] (n : ℕ) : (zeros n : List α).length = n := by
  simp [zeros]

theorem entry_range_map (f : ℕ → ℚ) (h : j < n) : entry ((List.range n).map f) j = f j := by
  simp [entry, h]

theorem entry_pick (x : List ℚ) {places : List ℕ} (h : i < places.length) :
    entry (pick x places) i = entry x (places.getD i 0) := by
  simp [entry, pick, h]

@[simp] theorem length_pick (x : List ℚ) (places : List ℕ) :
    (pick x places).length = places.length := by
  simp [pick]

@[simp] theorem length_subScaled (x y : List ℚ) (a : ℚ) :
    (subScaled x a y).length = min x.length y.length := by
  simp [subScaled]

theorem entry_subScaled (a : ℚ) (h : x.length = y.length) (j : ℕ) :
    entry (subScaled x a y) j = entry x j - a * entry y j := by
  rcases lt_or_ge j x.length with hj | hj
  · have hjy : j < y.length := by omega
    have hjs : j < (subScaled x a y).length := by simp; omega
    rw [entry_eq_getElem hj, entry_eq_getElem hjy, entry_eq_getElem hjs]
    simp [subScaled]
  · have hjy : y.length ≤ j := by omega
    have hjs : (subScaled x a y).length ≤ j := by simp; omega
    rw [entry_of_length_le hj, entry_of_length_le hjy, entry_of_length_le hjs]
    ring

theorem entry_zipWith_sub (h : x.length = y.length) (j : ℕ) :
    entry (List.zipWith (· - ·) x y) j = entry x j - entry y j := by
  have := entry_subScaled 1 h j
  simpa [subScaled] using this

/-- The total of a vector is the sum of its entries. -/
theorem sum_eq_sum_entry : ∀ {x : List ℚ} {n : ℕ}, x.length ≤ n → x.sum = ∑ j ∈ range n, entry x j
  | [], n, _ => by simp
  | a :: x, n, h => by
    obtain ⟨k, rfl⟩ : ∃ k, n = k + 1 := ⟨n - 1, by simp at h; omega⟩
    rw [Finset.sum_range_succ', List.sum_cons, sum_eq_sum_entry (n := k) (by simpa using h)]
    simp [add_comm]

/-! ## The inner product -/

theorem foldl_add (x : List ℚ) (a : ℚ) : x.foldl (· + ·) a = a + x.sum := by
  induction x generalizing a with
  | nil => simp
  | cons b x ih => rw [List.foldl_cons, ih, List.sum_cons, add_assoc]

theorem dot_eq_zipWith_sum (x y : List ℚ) : dot x y = (List.zipWith (· * ·) x y).sum := by
  have h := foldl_add (List.zipWith (· * ·) x y) 0
  rw [zero_add] at h
  exact h

@[simp] theorem dot_nil_left (y : List ℚ) : dot [] y = 0 := rfl

@[simp] theorem dot_nil_right (x : List ℚ) : dot x [] = 0 := by
  simp [dot_eq_zipWith_sum]

@[simp] theorem dot_cons (a b : ℚ) (x y : List ℚ) : dot (a :: x) (b :: y) = a * b + dot x y := by
  simp [dot_eq_zipWith_sum]

/-- **An inner product is a sum over places**, over any range that holds one of the factors. -/
theorem dot_eq_sum : ∀ {x y : List ℚ} {n : ℕ}, x.length ≤ n →
    dot x y = ∑ j ∈ range n, entry x j * entry y j
  | [], y, n, _ => by simp
  | a :: x, [], n, _ => by simp
  | a :: x, b :: y, n, h => by
    obtain ⟨k, rfl⟩ : ∃ k, n = k + 1 := ⟨n - 1, by simp at h; omega⟩
    rw [Finset.sum_range_succ', dot_cons, dot_eq_sum (n := k) (by simpa using h)]
    simp [add_comm]

theorem dot_comm (x y : List ℚ) : dot x y = dot y x := by
  rw [dot_eq_zipWith_sum, dot_eq_zipWith_sum, List.zipWith_comm]
  simp only [mul_comm]

theorem dot_eq_sum_right (h : y.length ≤ n) : dot x y = ∑ j ∈ range n, entry x j * entry y j := by
  rw [dot_comm, dot_eq_sum h]
  simp only [mul_comm]

theorem dot_map_neg (x y : List ℚ) : dot (x.map (-·)) y = -dot x y := by
  induction x generalizing y with
  | nil => simp
  | cons a x ih =>
    cases y with
    | nil => simp
    | cons b y =>
      rw [List.map_cons, dot_cons, dot_cons, ih]
      ring

theorem dot_subScaled (c : List ℚ) (t : ℚ) (hlen : x.length = y.length) :
    dot c (subScaled x t y) = dot c x - t * dot c y := by
  rw [dot_eq_sum (n := c.length) (le_refl _), dot_eq_sum (n := c.length) (le_refl _),
    dot_eq_sum (n := c.length) (le_refl _), Finset.mul_sum, ← Finset.sum_sub_distrib]
  refine Finset.sum_congr rfl fun j _ => ?_
  rw [entry_subScaled t hlen]
  ring

/-! ## Cells of a matrix -/

namespace Dense

/-- Row `i` of a matrix, empty where there is none. -/
def rowAt (A : Dense ℚ) (i : ℕ) : List ℚ := A.getD i []

/-- The entry of a matrix in row `i` and column `j`. -/
def cell (A : Dense ℚ) (i j : ℕ) : ℚ := entry (A.rowAt i) j

/-- The first `m` rows as a matrix. Columns past the last one are zero. -/
def grid (A : Dense ℚ) (m : ℕ) : Matrix (Fin m) ℕ ℚ := Matrix.of fun i j => A.cell i j

@[simp] theorem grid_apply (A : Dense ℚ) (i : Fin m) (j : ℕ) : A.grid m i j = A.cell i j := rfl

theorem rowAt_eq_getElem (h : i < A.length) : A.rowAt i = A[i] := by
  simp [rowAt, h]

theorem rowAt_mem (h : i < A.length) : A.rowAt i ∈ A := by
  rw [rowAt_eq_getElem h]
  exact List.getElem_mem h

theorem rowAt_append_left (h : i < A.length) : rowAt (A ++ B) i = A.rowAt i := by
  simp [rowAt, List.getElem?_append_left h]

theorem rowAt_append_right (h : A.length ≤ i) : rowAt (A ++ B) i = B.rowAt (i - A.length) := by
  simp [rowAt, List.getElem?_append_right h]

/-- Matrices of one shape with the same cells are the same. -/
theorem eq_of_cell_eq (hlen : A.length = B.length) (hA : ∀ row ∈ A, row.length = n)
    (hB : ∀ row ∈ B, row.length = n) (h : ∀ i < A.length, ∀ j < n, A.cell i j = B.cell i j) :
    A = B := by
  refine List.ext_getElem hlen fun i hi hi' => ?_
  have hrowA := hA _ (List.getElem_mem hi)
  refine eq_of_entry_eq (hrowA.trans (hB _ (List.getElem_mem hi')).symm) fun j hj => ?_
  have hcell := h i hi j (hrowA ▸ hj)
  rwa [cell, cell, rowAt_eq_getElem hi, rowAt_eq_getElem hi'] at hcell

theorem entry_column (h : i < A.length) (j : ℕ) : entry (A.column j) i = A.cell i j := by
  simp [entry, column, cell, rowAt, h]

@[simp] theorem length_column (A : Dense ℚ) (j : ℕ) : (A.column j).length = A.length := by
  simp [column]

@[simp] theorem length_mulVec (A : Dense ℚ) (x : List ℚ) : (A.mulVec x).length = A.length := by
  simp [mulVec]

/-- An entry of a product with a vector is the product of the row. -/
theorem entry_mulVec_eq_dot (h : i < A.length) (x : List ℚ) :
    entry (A.mulVec x) i = dot (A.rowAt i) x := by
  simp [entry, mulVec, rowAt, h]

theorem entry_mulVec (hrow : ∀ row ∈ A, row.length ≤ n) (h : i < A.length) (x : List ℚ) :
    entry (A.mulVec x) i = ∑ j ∈ range n, A.cell i j * entry x j := by
  have hi : (A.rowAt i).length ≤ n := hrow _ (rowAt_mem h)
  rw [entry_mulVec_eq_dot h, dot_eq_sum hi]
  rfl

/-- A product with a vector reads no more of a row than the vector is long. -/
theorem entry_mulVec_of_length_le (hx : x.length ≤ n) (h : i < A.length) :
    entry (A.mulVec x) i = ∑ j ∈ range n, A.cell i j * entry x j := by
  rw [entry_mulVec_eq_dot h, dot_eq_sum_right hx]
  rfl

@[simp] theorem length_vecMul (n : ℕ) (y : List ℚ) (A : Dense ℚ) : (vecMul n y A).length = n := by
  simp [vecMul]

theorem entry_vecMul (h : j < n) (y : List ℚ) (A : Dense ℚ) :
    entry (vecMul n y A) j = ∑ k ∈ range A.length, entry y k * A.cell k j := by
  rw [vecMul, entry_range_map _ h, dot_eq_sum_right (n := A.length) (by simp)]
  refine Finset.sum_congr rfl fun k hk => ?_
  rw [entry_column (by simpa using hk)]

@[simp] theorem length_mul (n : ℕ) (A B : Dense ℚ) : (mul n A B).length = A.length := by
  simp [mul]

theorem cell_mul (hi : i < A.length) (hj : j < n) (B : Dense ℚ) :
    (mul n A B).cell i j = ∑ k ∈ range B.length, A.cell i k * B.cell k j := by
  have hrow : (mul n A B).cell i j = entry (vecMul n (A.rowAt i) B) j := by
    simp [cell, rowAt, mul, hi]
  rw [hrow, entry_vecMul hj]
  rfl

/-- A product with a product may be taken the other way round. -/
theorem entry_vecMul_vecMul (hj : j < n) (y : List ℚ) (X A : Dense ℚ) :
    entry (vecMul n (vecMul A.length y X) A) j =
      ∑ i ∈ range X.length, entry y i * (mul n X A).cell i j := by
  calc entry (vecMul n (vecMul A.length y X) A) j
      = ∑ k ∈ range A.length, (∑ i ∈ range X.length, entry y i * X.cell i k) * A.cell k j := by
        rw [entry_vecMul hj]
        refine Finset.sum_congr rfl fun k hk => ?_
        rw [entry_vecMul (mem_range.mp hk)]
    _ = ∑ i ∈ range X.length, ∑ k ∈ range A.length, entry y i * (X.cell i k * A.cell k j) := by
        rw [Finset.sum_comm]
        refine Finset.sum_congr rfl fun k _ => ?_
        rw [Finset.sum_mul]
        simp only [mul_assoc]
    _ = ∑ i ∈ range X.length, entry y i * (mul n X A).cell i j := by
        refine Finset.sum_congr rfl fun i hi => ?_
        rw [← Finset.mul_sum, cell_mul (mem_range.mp hi) hj]

/-- A product with two vectors may be taken from either side, where `n` columns are all that the
right one reads. -/
theorem dot_vecMul (y : List ℚ)
    (h : ∀ i < A.length, entry (A.mulVec x) i = ∑ j ∈ range n, A.cell i j * entry x j) :
    dot (vecMul n y A) x = dot y (A.mulVec x) := by
  calc dot (vecMul n y A) x
      = ∑ j ∈ range n, ∑ i ∈ range A.length, entry y i * (A.cell i j * entry x j) := by
        rw [dot_eq_sum (n := n) (le_of_eq (length_vecMul _ _ _))]
        refine Finset.sum_congr rfl fun j hj => ?_
        rw [entry_vecMul (mem_range.mp hj), Finset.sum_mul]
        simp only [mul_assoc]
    _ = ∑ i ∈ range A.length, entry y i * entry (A.mulVec x) i := by
        rw [Finset.sum_comm]
        refine Finset.sum_congr rfl fun i hi => ?_
        rw [h i (mem_range.mp hi), Finset.mul_sum]
    _ = dot y (A.mulVec x) := (dot_eq_sum_right (le_of_eq (length_mulVec _ _))).symm

@[simp] theorem length_identity (n : ℕ) : (identity n : Dense ℚ).length = n := by
  simp [identity]

/-- A left inverse has as many rows as the identity. -/
theorem length_of_mul_eq_identity (h : mul n A B = identity n) : A.length = n := by
  have hlen := congrArg List.length h
  rwa [length_mul, length_identity] at hlen

theorem cell_identity (hi : i < n) (hj : j < n) :
    (identity n : Dense ℚ).cell i j = if i = j then 1 else 0 := by
  simp [cell, rowAt, entry, identity, hi, hj]

@[simp] theorem length_transpose (n : ℕ) (A : Dense ℚ) : (transpose n A).length = n := by
  simp [transpose]

theorem cell_transpose (hi : i < n) (hj : j < A.length) :
    (transpose n A).cell i j = A.cell j i := by
  have hrow : (transpose n A).cell i j = entry (column A i) j := by
    simp [cell, rowAt, transpose, hi]
  rw [hrow, entry_column hj]

@[simp] theorem length_columns (A : Dense ℚ) (places : List ℕ) :
    (A.columns places).length = A.length := by
  simp [columns]

theorem cell_columns (hi : i < A.length) {places : List ℕ} (hk : k < places.length) :
    (A.columns places).cell i k = A.cell i (places.getD k 0) := by
  have hrow : (A.columns places).cell i k = entry (pick (A.rowAt i) places) k := by
    simp [cell, rowAt, columns, hi]
  rw [hrow, entry_pick _ hk]
  rfl

end Dense

/-! ## Entries written into zeros -/

/-- The value of a list of entries at a vector. -/
def valueAt (entries : List (ℕ × ℚ)) (x : List ℚ) : ℚ :=
  (entries.map fun e => e.2 * entry x e.1).sum

@[simp] theorem valueAt_nil (x : List ℚ) : valueAt [] x = 0 := rfl

@[simp] theorem valueAt_cons (e : ℕ × ℚ) (es : List (ℕ × ℚ)) (x : List ℚ) :
    valueAt (e :: es) x = e.2 * entry x e.1 + valueAt es x := by
  simp [valueAt]

@[simp] theorem valueAt_append (es fs : List (ℕ × ℚ)) (x : List ℚ) :
    valueAt (es ++ fs) x = valueAt es x + valueAt fs x := by
  simp [valueAt]

/-- One value at each place, as entries. -/
theorem valueAt_map_const (places : List ℕ) (a : ℚ) (x : List ℚ) :
    valueAt (places.map (·, a)) x = a * (pick x places).sum := by
  induction places with
  | nil => simp [pick]
  | cons k places ih =>
    rw [List.map_cons, valueAt_cons, ih]
    simp only [pick, List.map_cons, List.sum_cons]
    ring

theorem keys_map_const {β : Type} (places : List ℕ) (a : β) : (places.map (·, a)).map (·.1) = places := by
  rw [List.map_map]
  exact List.map_id _

section Scatter

variable {α : Type} {x : List α} {es : List (ℕ × α)}

theorem scatter_cons (x : List α) (k : ℕ) (a : α) (es : List (ℕ × α)) :
    scatter x ((k, a) :: es) = scatter (x.set k a) es := rfl

theorem scatter_append (x : List α) (es fs : List (ℕ × α)) :
    scatter x (es ++ fs) = scatter (scatter x es) fs := List.foldl_append

@[simp] theorem length_scatter (x : List α) (es : List (ℕ × α)) :
    (scatter x es).length = x.length := by
  induction es generalizing x with
  | nil => rfl
  | cons e es ih => rw [scatter_cons, ih, List.length_set]

/-- An entry of a vector that has been written to is an old one or one of those written. -/
theorem mem_scatter {a : α} (h : a ∈ scatter x es) : a ∈ x ∨ a ∈ es.map (·.2) := by
  induction es generalizing x with
  | nil => exact Or.inl h
  | cons e es ih =>
    rw [scatter_cons] at h
    rcases ih h with hset | hrest
    · rcases List.mem_or_eq_of_mem_set hset with hold | rfl
      · exact Or.inl hold
      · exact Or.inr List.mem_cons_self
    · exact Or.inr (List.mem_cons_of_mem _ hrest)

variable [Scalar α]

/-- A place that is not listed keeps its entry. -/
theorem entry_scatter_of_notMem (h : j ∉ es.map (·.1)) :
    entry (scatter x es) j = entry x j := by
  induction es generalizing x with
  | nil => rfl
  | cons e es ih =>
    obtain ⟨hne, hnot⟩ : j ≠ e.1 ∧ j ∉ es.map (·.1) := by simpa using h
    rw [scatter_cons, ih hnot]
    simp [entry, Ne.symm hne]

/-- A listed place has its value, where no place is listed twice. -/
theorem entry_scatter_of_mem {a : α} (hnodup : (es.map (·.1)).Nodup)
    (hk : k < x.length) (h : (k, a) ∈ es) : entry (scatter x es) k = a := by
  induction es generalizing x with
  | nil => simp at h
  | cons e es ih =>
    obtain ⟨hnot, hrest⟩ : e.1 ∉ es.map (·.1) ∧ (es.map (·.1)).Nodup := by simpa using hnodup
    rw [scatter_cons]
    rcases List.mem_cons.mp h with rfl | h
    · rw [entry_scatter_of_notMem hnot, entry_set _ hk, if_pos rfl]
    · exact ih hrest (by simpa using hk) h

end Scatter

/-- A place that zero is written at has no entry, however often it is listed. -/
theorem entry_scatter_zero {places : List ℕ} {k : ℕ} (hk : k ∈ places) (x : List ℚ) :
    entry (scatter x (places.map (·, 0))) k = 0 := by
  induction places generalizing x with
  | nil => cases hk
  | cons place places ih =>
    rw [List.map_cons, scatter_cons]
    by_cases hrest : k ∈ places
    · exact ih hrest _
    · obtain rfl : k = place := (List.mem_cons.mp hk).resolve_right hrest
      rw [entry_scatter_of_notMem (by rw [keys_map_const]; exact hrest)]
      by_cases hlt : k < x.length
      · rw [entry_set _ hlt, if_pos rfl]
      · exact entry_of_length_le (by rw [List.length_set]; omega)

/-- One write into a vector that vanishes there adds one term. -/
theorem sum_set (a : ℚ) (hlen : x.length = n) (hk : k < n) (hzero : entry x k = 0) (y : List ℚ) :
    ∑ j ∈ range n, entry (x.set k a) j * entry y j =
      ∑ j ∈ range n, entry x j * entry y j + a * entry y k := by
  have hset : ∀ j, entry (x.set k a) j = if j = k then a else entry x j := entry_set a (hlen ▸ hk)
  have hrest : ∑ j ∈ (range n).erase k, entry (x.set k a) j * entry y j =
      ∑ j ∈ (range n).erase k, entry x j * entry y j := by
    refine Finset.sum_congr rfl fun j hj => ?_
    rw [hset j, if_neg (Finset.ne_of_mem_erase hj)]
  rw [← Finset.add_sum_erase _ _ (mem_range.mpr hk), hrest,
    ← Finset.add_sum_erase (range n) (fun j => entry x j * entry y j) (mem_range.mpr hk),
    hset k, if_pos rfl, hzero]
  ring

/-- Adding to one entry. -/
theorem entry_set_add (hk : k < x.length) (a : ℚ) (j : ℕ) :
    entry (x.set k (entry x k + a)) j = entry x j + if j = k then a else 0 := by
  rw [entry_set _ hk]
  split
  · rename_i hjk
    rw [hjk]
  · rw [add_zero]

/-- What is added to one entry counts once in a product. -/
theorem dot_set_add (hk : k < x.length) (a : ℚ) (y : List ℚ) :
    dot (x.set k (entry x k + a)) y = dot x y + a * entry y k := by
  have hterm : ∀ j, entry (x.set k (entry x k + a)) j * entry y j =
      entry x j * entry y j + if j = k then a * entry y k else 0 := by
    intro j
    rw [entry_set_add hk, add_mul, ite_mul, zero_mul]
    congr 1
    exact if_ctx_congr Iff.rfl (fun hjk => by rw [hjk]) fun _ => rfl
  rw [dot_eq_sum (n := x.length) (by simp), dot_eq_sum (n := x.length) (le_refl _),
    Finset.sum_congr rfl fun j _ => hterm j, Finset.sum_add_distrib]
  simp [hk]

/-- A vector with one entry reads one entry. -/
theorem dot_single (hk : k < n) (a : ℚ) (y : List ℚ) :
    dot ((zeros n).set k a) y = a * entry y k := by
  rw [dot_eq_sum (n := n) (by simp), sum_set a (by simp) hk (by simp)]
  simp

theorem dot_unit (hk : k < n) (y : List ℚ) : dot ((zeros n).set k 1) y = entry y k := by
  rw [dot_single hk, one_mul]

/-- Writes into a vector that vanishes at the listed places add their value. -/
theorem sum_scatter_add {es : List (ℕ × ℚ)} (hnodup : (es.map (·.1)).Nodup)
    (hlt : ∀ e ∈ es, e.1 < n) (hlen : x.length = n) (hzero : ∀ e ∈ es, entry x e.1 = 0)
    (y : List ℚ) :
    ∑ j ∈ range n, entry (scatter x es) j * entry y j =
      ∑ j ∈ range n, entry x j * entry y j + valueAt es y := by
  induction es generalizing x with
  | nil => simp [scatter]
  | cons e es ih =>
    obtain ⟨hnot, hrest⟩ : e.1 ∉ es.map (·.1) ∧ (es.map (·.1)).Nodup := by simpa using hnodup
    have hk : e.1 < n := hlt e (by simp)
    have hzero' : ∀ f ∈ es, entry (x.set e.1 e.2) f.1 = 0 := by
      intro f hf
      have hne : f.1 ≠ e.1 := fun h => hnot (h ▸ List.mem_map_of_mem hf)
      rw [entry_set _ (hlen ▸ hk), if_neg hne, hzero f (by simp [hf])]
    rw [scatter_cons, ih hrest (fun f hf => hlt f (by simp [hf])) (by simpa using hlen) hzero',
      sum_set e.2 hlen hk (hzero e (by simp)), valueAt_cons, add_assoc]

/-- **Entries written into zeros keep their value**: the sum over all places is the sum over the
list, where no place is listed twice and every place is there. -/
theorem sum_scatter {es : List (ℕ × ℚ)} (hnodup : (es.map (·.1)).Nodup) (hlt : ∀ e ∈ es, e.1 < n)
    (y : List ℚ) : ∑ j ∈ range n, entry (scatter (zeros n) es) j * entry y j = valueAt es y := by
  rw [sum_scatter_add hnodup hlt (by simp) (by simp)]
  simp

end LinOpt
