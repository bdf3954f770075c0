import LinOpt.Proofs.Tableau.Certificates
/-!
# A canonical tableau is the tableau of its basis

A canonical tableau says no more than its basis: it is `[B⁻¹ A | B⁻¹ b]` above
`[c_B B⁻¹ A - c | c_B B⁻¹ b]`, whatever exact inverse `B⁻¹` of the basic columns is given
(`Canonical.matrix_eq`), and that is what `Tableau.fromBasis` computes (`Canonical.fromBasis_eq`).
There is such an inverse (`Canonical.exists_exact`), so two canonical tableaux of one system at one
basis are the same (`Canonical.matrix_unique`).

The system multiplied by the inverse, `Equations.times`, has the basic columns as unit columns. Its
tableau at the start is the one computed here, and its cells are known.
-/

namespace LinOpt

open Finset

/-! ## Systems multiplied from the left -/

namespace Equations

variable (E : Equations) (X : Dense ℚ) {i j : ℕ}

/-- Every equation replaced by a combination of the equations. -/
def times : Equations where
  rows := Dense.mul E.width X E.rows
  rhs := X.mulVec E.rhs
  costs := E.costs
  rhs_length := by simp
  row_length := by
    intro row hrow
    obtain ⟨y, -, rfl⟩ := List.mem_map.mp hrow
    exact Dense.length_vecMul _ _ _

/-- **The matrix of a tableau at a basis**: `[X A | X b]` above `[c_B X A - c | c_B X b]`. -/
def matrixAt (basis : List ℕ) : Dense ℚ :=
  List.zipWith (fun row r => row ++ [r]) (Dense.mul E.width X E.rows) (X.mulVec E.rhs) ++
    [List.zipWith (· - ·)
        (Dense.vecMul E.width (pick E.costs basis) (Dense.mul E.width X E.rows)) E.costs ++
      [dot (pick E.costs basis) (X.mulVec E.rhs)]]

theorem matrixAt_eq (basis : List ℕ) (names : List String) :
    E.matrixAt X basis = ((E.times X).tableau basis names).matrix := rfl

theorem height_times : (E.times X).height = X.length := Dense.length_mul _ _ _

theorem width_times : (E.times X).width = E.width := rfl

theorem cell_augmented_times (hi : i < X.length) (j : ℕ) :
    (E.times X).augmented.cell i j =
      ∑ k ∈ range E.height, X.cell i k * E.augmented.cell k j := by
  have hi' : i < (E.times X).height := by rw [height_times]; exact hi
  rcases lt_trichotomy j E.width with hj | rfl | hj
  · rw [cell_augmented _ hi' hj]
    change (Dense.mul E.width X E.rows).cell i j = _
    rw [Dense.cell_mul hi hj]
    refine Finset.sum_congr rfl fun k hk => ?_
    rw [E.cell_augmented (mem_range.mp hk) hj]
  · rw [← E.width_times X, cell_augmented_width _ hi', width_times]
    change entry (X.mulVec E.rhs) i = _
    rw [Dense.entry_mulVec_of_length_le (n := E.height) (le_of_eq E.rhs_length) hi]
    refine Finset.sum_congr rfl fun k hk => ?_
    rw [E.cell_augmented_width (mem_range.mp hk)]
  · -- past the right-hand side there is nothing
    have hpast : ∀ k < E.height, X.cell i k * E.augmented.cell k j = 0 := by
      intro k hk
      have hzero : E.augmented.cell k j = 0 :=
        entry_of_length_le (by rw [E.length_augmented_row hk]; exact hj)
      rw [hzero, mul_zero]
    rw [Finset.sum_eq_zero fun k hk => hpast k (mem_range.mp hk)]
    exact entry_of_length_le (by rw [length_augmented_row _ hi']; exact hj)

end Equations

/-! ## The inverse of the basic columns -/

/-- A square matrix as the list of its rows. -/
def Dense.ofMatrix {m : ℕ} (Q : Matrix (Fin m) (Fin m) ℚ) : Dense ℚ :=
  List.ofFn fun i => List.ofFn fun k => Q i k

theorem Dense.length_ofMatrix {m : ℕ} (Q : Matrix (Fin m) (Fin m) ℚ) : (ofMatrix Q).length = m :=
  List.length_ofFn

theorem Dense.cell_ofMatrix {m : ℕ} (Q : Matrix (Fin m) (Fin m) ℚ) (i k : Fin m) :
    (ofMatrix Q).cell i k = Q i k := by
  simp [cell, rowAt, ofMatrix, entry]

/-- The product of two square matrices that undo one another. -/
theorem Dense.mul_eq_identity {m : ℕ} {A B : Dense ℚ} {P Q : Matrix (Fin m) (Fin m) ℚ}
    (hA : A.length = m) (hB : B.length = m) (hcellA : ∀ i k : Fin m, A.cell i k = P i k)
    (hcellB : ∀ i k : Fin m, B.cell i k = Q i k) (hone : P * Q = 1) :
    Dense.mul m A B = Dense.identity m := by
  refine eq_of_cell_eq (n := m) (by simp [hA]) ?_ ?_ fun i hi j hj => ?_
  · intro row hrow
    obtain ⟨y, -, rfl⟩ := List.mem_map.mp hrow
    exact length_vecMul _ _ _
  · intro row hrow
    obtain ⟨i, -, rfl⟩ := List.mem_map.mp hrow
    simp
  · have hi' : i < m := by rwa [length_mul, hA] at hi
    have hentry := congrFun (congrFun hone ⟨i, hi'⟩) ⟨j, hj⟩
    rw [Matrix.mul_apply, Matrix.one_apply] at hentry
    rw [cell_mul (hA.symm ▸ hi') hj, cell_identity hi' hj, hB,
      ← Fin.sum_univ_eq_sum_range (fun k => A.cell i k * B.cell k j)]
    simp only [Fin.mk.injEq] at hentry
    rw [← hentry]
    refine Finset.sum_congr rfl fun k _ => ?_
    rw [← hcellA ⟨i, hi'⟩ k, ← hcellB k ⟨j, hj⟩]

/-- **The matrix is the inverse of a square matrix**, on both sides. -/
structure Dense.Inverts (X B : Dense ℚ) (m : ℕ) : Prop where
  left : Dense.mul m X B = Dense.identity m
  right : Dense.mul m B X = Dense.identity m

theorem Dense.Inverts.height_times {E : Equations} {X B : Dense ℚ} (hX : X.Inverts B E.height) :
    (E.times X).height = E.height := by
  rw [E.height_times, length_of_mul_eq_identity hX.left]

namespace Tableau

variable {E : Equations} {T T' : Tableau ℚ} {X : Dense ℚ}

/-- The basic columns of a canonical tableau have an inverse. -/
theorem Canonical.exists_exact (h : T.Canonical E) :
    ∃ X : Dense ℚ, X.Inverts (E.rows.columns T.basis) E.height := by
  obtain ⟨Q, -, hleft, hright⟩ := h.exists_inverse
  have hlength : (E.rows.columns T.basis).length = E.height := Dense.length_columns _ _
  have hcell : ∀ i k : Fin E.height,
      (E.rows.columns T.basis).cell i k = E.basisMatrix T.basis i k := by
    intro i k
    exact Dense.cell_columns i.2 (by rw [h.basis_length]; exact k.2)
  exact ⟨Dense.ofMatrix Q,
    Dense.mul_eq_identity (Dense.length_ofMatrix Q) hlength (Dense.cell_ofMatrix Q) hcell hleft,
    Dense.mul_eq_identity hlength (Dense.length_ofMatrix Q) hcell (Dense.cell_ofMatrix Q) hright⟩

/-! ## The matrix -/

section Matrix

variable (h : T.Canonical E) (hX : X.Inverts (E.rows.columns T.basis) E.height)

include h hX

/-- The multiplied system has the rows of the tableau. -/
theorem Canonical.cell_augmented_times {i : ℕ} (hi : i < E.height) (j : ℕ) :
    (E.times X).augmented.cell i j = T.cell i j := by
  have hlength := Dense.length_of_mul_eq_identity hX.left
  rw [E.cell_augmented_times X (by rw [hlength]; exact hi), h.cell_eq_sum_of_exact hX.left hi]

/-- So its tableau at the basis is canonical, for the multiplied system. -/
theorem Canonical.canonical_times :
    ((E.times X).tableau T.basis T.names).Canonical (E.times X) := by
  have hheight := hX.height_times
  refine canonical_initial _ _ (h.basis_length.trans hheight.symm) h.basis_lt ?_
  intro i hi k hk
  rw [hheight] at hi hk
  have hbasic : T.basis.getD k 0 < (E.times X).width := h.basic_lt hk
  rw [← Equations.cell_augmented _ (by rw [hheight]; exact hi) hbasic,
    h.cell_augmented_times hX hi]
  exact h.unit_of_lt hi hk

/-- **A canonical tableau is that of its basis**, by any exact inverse of the basic columns. -/
theorem Canonical.matrix_eq : T.matrix = E.matrixAt X T.basis := by
  have hheight := hX.height_times
  have htimes := h.canonical_times hX
  have hrows : ∀ i < E.height, ∀ j, ((E.times X).tableau T.basis T.names).cell i j =
      T.cell i j := by
    intro i hi j
    rw [cell_initial _ _ _ (by rw [hheight]; exact hi), h.cell_augmented_times hX hi]
  rw [E.matrixAt_eq X T.basis T.names]
  refine Dense.eq_of_cell_eq (n := E.width + 1) (by rw [h.height, htimes.height, hheight]) h.width
    htimes.width fun i hi j _ => ?_
  change T.cell i j = ((E.times X).tableau T.basis T.names).cell i j
  rw [h.height] at hi
  rcases Nat.lt_succ_iff_lt_or_eq.mp hi with hi | rfl
  · exact (hrows i hi j).symm
  · -- the objective row prices the rows that have just been compared
    have hprice := htimes.objective_range j
    rw [hheight] at hprice
    rw [hprice, h.objective_range]
    congr 1
    refine Finset.sum_congr rfl fun i hi => ?_
    rw [hrows i (mem_range.mp hi)]
    rfl

end Matrix

/-- **Canonical tableaux at one basis are the same.** -/
theorem Canonical.matrix_unique (h : T.Canonical E) (h' : T'.Canonical E)
    (hbasis : T'.basis = T.basis) : T'.matrix = T.matrix := by
  obtain ⟨X, hX⟩ := h.exists_exact
  rw [h.matrix_eq hX, h'.matrix_eq (hbasis ▸ hX), hbasis]

/-! ## Computing the tableau of a basis -/

/-- A unit column is written over itself. -/
theorem Canonical.cleanColumn_eq (h : T.Canonical E) {i : ℕ} (hi : i < E.height) :
    cleanColumn T.matrix i (T.basic i) = T.matrix := by
  have hcell : ∀ k < E.height + 1, T.cell k (T.basic i) = if k = i then 1 else 0 := by
    intro k hk
    rcases Nat.lt_succ_iff_lt_or_eq.mp hk with hk | rfl
    · exact h.unit_of_lt hk hi
    · rw [h.reduced_basic ⟨i, hi⟩, if_neg (by omega)]
  refine List.ext_getElem (by simp [cleanColumn]) fun k hk hk' => ?_
  have hcolumn : T.basic i < T.matrix[k].length := by
    rw [h.width _ (List.getElem_mem hk')]
    exact lt_trans (h.basic_lt hi) (Nat.lt_succ_self _)
  have hentry : T.matrix[k][T.basic i] = if k = i then 1 else 0 := by
    rw [← hcell k (h.height ▸ hk'), cell, Dense.cell, Dense.rowAt_eq_getElem hk',
      entry_eq_getElem hcolumn]
  simp only [cleanColumn, List.getElem_mapIdx]
  rw [← hentry]
  exact List.set_getElem_self hcolumn

/-- **Computing the tableau of its basis gives a canonical tableau back.** -/
theorem Canonical.fromBasis_eq (h : T.Canonical E)
    (hX : X.Inverts (E.rows.columns T.basis) E.height) :
    fromBasis E.rows E.rhs E.costs T.basis X T.names = T := by
  have hclean : ∀ pairs : List (ℕ × ℕ),
      (∀ p ∈ pairs, p.2 < E.height ∧ p.1 = T.basic p.2) →
      pairs.foldl (fun matrix p => cleanColumn matrix p.2 p.1) T.matrix = T.matrix := by
    intro pairs
    induction pairs with
    | nil => intro _; rfl
    | cons p pairs ih =>
      intro hpairs
      obtain ⟨hrow, hcolumn⟩ := hpairs p (by simp)
      rw [List.foldl_cons, hcolumn, h.cleanColumn_eq hrow]
      exact ih fun q hq => hpairs q (by simp [hq])
  have hmatrix : (fromBasis E.rows E.rhs E.costs T.basis X T.names).matrix = T.matrix := by
    change T.basis.zipIdx.foldl (fun matrix p => cleanColumn matrix p.2 p.1)
      (E.matrixAt X T.basis) = _
    rw [← h.matrix_eq hX]
    refine hclean _ fun p hp => ?_
    obtain ⟨hlt, hget⟩ := List.mem_zipIdx' hp
    exact ⟨h.basis_length ▸ hlt, by simp [basic, hget, hlt]⟩
  exact congrArg (fun matrix => ({ matrix, basis := T.basis, names := T.names } : Tableau ℚ)) hmatrix

end Tableau

end LinOpt
