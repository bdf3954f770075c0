import LinOpt.Proofs.Tableau.Canonical
/-!
# What the end of the simplex method certifies

The simplex method walks over tableaux by its moves (`Leads`), and every tableau on the walk is
canonical. At the end of the walk the tableau carries a proof. Where no column improves, every
solution of the equations costs at most the objective value, up to `tol` times its total
(`Canonical.dot_le_of_optimal`). Where a column improves without limit, a step along it solves the
equations as well and gains more than `tol` (`Canonical.sum_row_ray`, `Canonical.dot_ray`).
-/

namespace LinOpt

open Finset

namespace Tableau

variable {E : Equations} {T T' : Tableau ℚ} {tol : ℚ} {rule : PivotRule} {row col i j k : ℕ}

/-! ## Moves -/

/-- At an optimum no column is fit to enter. -/
theorem chooseEntering_of_nextMove_optimal (hmove : T.nextMove tol rule = .optimal) :
    chooseEntering T.reducedCosts tol rule = none := by
  unfold Tableau.nextMove at hmove
  split at hmove
  · assumption
  · split at hmove <;> cases hmove

/-- So no entry of the objective row is below `-tol`. -/
theorem Canonical.le_of_nextMove_optimal (h : T.Canonical E)
    (hmove : T.nextMove tol rule = .optimal)
    (hj : j < E.width) : -tol ≤ T.cell E.height j := by
  rw [← h.entry_reducedCosts hj]
  exact le_entry_of_chooseEntering_eq_none (chooseEntering_of_nextMove_optimal hmove)
    (by rw [h.length_reducedCosts]; exact hj)

/-- A ray has a negative entry in the objective row and no entry above `tol` in another row. -/
theorem Canonical.ray_of_nextMove (h : T.Canonical E) (hmove : T.nextMove tol rule = .ray col) :
    col < E.width ∧ T.cell E.height col < -tol ∧ ∀ i < E.height, T.cell i col ≤ tol := by
  unfold Tableau.nextMove at hmove
  split at hmove
  · simp at hmove
  · rename_i entering hentering
    split at hmove
    · rename_i hnone
      obtain rfl : entering = col := by simpa using hmove
      obtain ⟨hlt, hneg⟩ := entry_lt_of_chooseEntering_eq_some hentering
      rw [h.length_reducedCosts] at hlt
      rw [h.entry_reducedCosts hlt] at hneg
      refine ⟨hlt, hneg, fun i hi => ?_⟩
      rw [← h.entry_column hi]
      exact entry_le_of_chooseLeaving_eq_none hnone (by rw [h.length_column]; exact hi)
    · simp at hmove

/-- A pivot is made on an entry above `tol`. -/
theorem Canonical.pivot_of_nextMove (h : T.Canonical E)
    (hmove : T.nextMove tol rule = .pivot row col) :
    row < E.height ∧ col < E.width ∧ tol < T.cell row col := by
  unfold Tableau.nextMove at hmove
  split at hmove
  · simp at hmove
  · rename_i entering hentering
    split at hmove
    · simp at hmove
    · rename_i leaving hleaving
      obtain ⟨rfl, rfl⟩ : leaving = row ∧ entering = col := by simpa using hmove
      obtain ⟨hlt, -⟩ := entry_lt_of_chooseEntering_eq_some hentering
      obtain ⟨hrow, hpos⟩ := lt_entry_of_chooseLeaving_eq_some hleaving
      rw [h.length_column] at hrow
      rw [h.entry_column hrow] at hpos
      exact ⟨hrow, h.length_reducedCosts ▸ hlt, hpos⟩

/-- The simplex method gets from one tableau to another by a number of pivots. -/
inductive Leads (tol : ℚ) (rule : PivotRule) : Tableau ℚ → ℕ → Tableau ℚ → Prop
  /-- No pivot leads nowhere else. -/
  | refl (T : Tableau ℚ) : Leads tol rule T 0 T
  /-- The next move is a pivot, and the method goes on from there. -/
  | step {T T' : Tableau ℚ} {k row col : ℕ} : T.nextMove tol rule = .pivot row col →
      Leads tol rule (T.pivot row col) k T' → Leads tol rule T (k + 1) T'

/-- One move keeps a tableau canonical: the entry pivoted on is above `tol`, so it is not zero. -/
theorem Canonical.move (h : T.Canonical E) (htol : 0 ≤ tol)
    (hmove : T.nextMove tol rule = .pivot row col) : (T.pivot row col).Canonical E := by
  obtain ⟨hrow, hcol, hpos⟩ := h.pivot_of_nextMove hmove
  exact h.pivot hrow hcol (ne_of_gt (lt_of_le_of_lt htol hpos))

/-- **Every tableau the simplex method meets is canonical.** -/
theorem Canonical.leads (h : T.Canonical E) (htol : 0 ≤ tol) (hleads : Leads tol rule T k T') :
    T'.Canonical E := by
  induction hleads with
  | refl => exact h
  | step hmove _ ih => exact ih (h.move htol hmove)

/-! ## Where the walk stops -/

/-- **Where the simplex method stops** when it starts at a tableau: at another that it gets to, with a
move ahead of it there that is no pivot. -/
structure StopsAt (tol : ℚ) (rule : PivotRule) (S T : Tableau ℚ) (move : Move) : Prop where
  leads : ∃ k, Leads tol rule S k T
  nextMove_eq : T.nextMove tol rule = move
  no_pivot : ∀ row col, move ≠ .pivot row col

theorem Leads.stopsAt_optimal {S : Tableau ℚ} {k : ℕ} (h : Leads tol rule S k T)
    (hmove : T.nextMove tol rule = .optimal) : StopsAt tol rule S T .optimal :=
  ⟨⟨k, h⟩, hmove, nofun⟩

theorem Leads.stopsAt_ray {S : Tableau ℚ} {k col : ℕ} (h : Leads tol rule S k T)
    (hmove : T.nextMove tol rule = .ray col) : StopsAt tol rule S T (.ray col) :=
  ⟨⟨k, h⟩, hmove, nofun⟩

theorem Canonical.stopsAt {move : Move} (h : T.Canonical E) (htol : 0 ≤ tol)
    (hstops : StopsAt tol rule T T' move) : T'.Canonical E := by
  obtain ⟨k, hleads⟩ := hstops.leads
  exact h.leads htol hleads

/-- **The method stops at one tableau only**, as each move depends on the tableau alone. -/
theorem StopsAt.unique {S : Tableau ℚ} {move move' : Move} (h : StopsAt tol rule S T move)
    (h' : StopsAt tol rule S T' move') : T = T' ∧ move = move' := by
  obtain ⟨⟨k, hleads⟩, rfl, hstop⟩ := h
  obtain ⟨⟨k', hleads'⟩, rfl, hstop'⟩ := h'
  induction hleads generalizing k' with
  | refl S =>
    cases hleads' with
    | refl => exact ⟨rfl, rfl⟩
    | step hmove _ => exact absurd hmove (hstop _ _)
  | step hmove _ ih =>
    cases hleads' with
    | refl => exact absurd hmove (hstop' _ _)
    | step hmove' hleads' =>
      obtain ⟨rfl, rfl⟩ := Move.pivot.inj (hmove.symm.trans hmove')
      exact ih hstop _ hleads'

/-- Follows the moves from a tableau to where they stop; the budget must last. -/
def stop (tol : ℚ) (rule : PivotRule) : ℕ → Tableau ℚ → Option (Tableau ℚ × Move)
  | budget, T =>
    match T.nextMove tol rule with
    | .optimal => some (T, .optimal)
    | .ray col => some (T, .ray col)
    | .pivot row col =>
      match budget with
      | 0 => none
      | budget + 1 => stop tol rule budget (T.pivot row col)

/-- **Where the method stops can be tried out.** -/
theorem stopsAt_of_stop {budget : ℕ} {S : Tableau ℚ} {move : Move}
    (h : S.stop tol rule budget = some (T, move)) : StopsAt tol rule S T move := by
  fun_induction stop tol rule budget S with
  | case1 budget S hmove =>
    obtain ⟨rfl, rfl⟩ := Prod.mk.inj (Option.some.inj h)
    exact (Leads.refl _).stopsAt_optimal hmove
  | case2 budget S col hmove =>
    obtain ⟨rfl, rfl⟩ := Prod.mk.inj (Option.some.inj h)
    exact (Leads.refl _).stopsAt_ray hmove
  | case3 => cases h
  | case4 S row col hmove budget ih =>
    obtain ⟨⟨k, hleads⟩, hnext, hstop⟩ := ih h
    exact ⟨⟨k + 1, .step hmove hleads⟩, hnext, hstop⟩

/-! ## The rows are the equations over the basis -/

/-- The multiplier of the rows is the inverse of the basic columns. -/
theorem Canonical.exists_inverse (h : T.Canonical E) :
    ∃ Q : Matrix (Fin E.height) (Fin E.height) ℚ,
      (∀ (i : Fin E.height) j, T.cell i j = ∑ k, Q i k * E.augmented.cell k j) ∧
        Q * E.basisMatrix T.basis = 1 ∧ E.basisMatrix T.basis * Q = 1 := by
  obtain ⟨Q, hcell⟩ := h.exists_multiplier
  -- at the basic columns the rows are unit columns, so `Q` undoes them
  have hleft : Q * E.basisMatrix T.basis = 1 := by
    ext i k
    rw [Matrix.mul_apply, Matrix.one_apply, ← h.unit i k, hcell i]
    refine Finset.sum_congr rfl fun l _ => ?_
    rw [E.cell_augmented l.2 (h.basic_lt k.2)]
    rfl
  exact ⟨Q, hcell, hleft, mul_eq_one_comm.mp hleft⟩

/-- An exact inverse of the basic columns is the multiplier of the rows. -/
theorem Canonical.cell_eq_sum_of_exact (h : T.Canonical E) {X : Dense ℚ}
    (hX : Dense.mul E.height X (E.rows.columns T.basis) = Dense.identity E.height)
    (hi : i < E.height) (j : ℕ) :
    T.cell i j = ∑ k ∈ range E.height, X.cell i k * E.augmented.cell k j := by
  obtain ⟨Q, hcell, -, hright⟩ := h.exists_inverse
  have hlength := Dense.length_of_mul_eq_identity hX
  have hleft : Matrix.of (fun i k : Fin E.height => X.cell i k) * E.basisMatrix T.basis = 1 := by
    ext i k
    have hk : (k : ℕ) < T.basis.length := by rw [h.basis_length]; exact k.2
    have hentry : ∑ l ∈ range E.height, X.cell i l * (E.rows.columns T.basis).cell l k =
        if (i : ℕ) = k then 1 else 0 := by
      rw [← Dense.cell_identity i.2 k.2, ← hX, Dense.cell_mul (hlength.symm ▸ i.2) k.2,
        Dense.length_columns]
      rfl
    rw [← Fin.sum_univ_eq_sum_range
      (fun l => X.cell i l * (E.rows.columns T.basis).cell l k)] at hentry
    rw [Matrix.mul_apply, Matrix.one_apply]
    simp only [Fin.ext_iff]
    rw [← hentry]
    refine Finset.sum_congr rfl fun l _ => ?_
    rw [Dense.cell_columns l.2 hk]
    rfl
  -- `X` is a left inverse and `Q` a right one, so they are the same
  have heq : Matrix.of (fun i k : Fin E.height => X.cell i k) = Q := by
    calc Matrix.of (fun i k : Fin E.height => X.cell i k)
        = Matrix.of (fun i k : Fin E.height => X.cell i k) * (E.basisMatrix T.basis * Q) := by
          rw [hright, Matrix.mul_one]
      _ = Q := by rw [← Matrix.mul_assoc, hleft, Matrix.one_mul]
  rw [hcell ⟨i, hi⟩, ← heq, ← Fin.sum_univ_eq_sum_range
    (fun k => X.cell i k * E.augmented.cell k j)]
  rfl

/-- **The equations are combinations of the rows**, with the basic columns as multipliers. -/
theorem Canonical.cell_augmented_eq_sum (h : T.Canonical E) (i : Fin E.height) (j : ℕ) :
    E.augmented.cell i j = ∑ k : Fin E.height, E.rows.cell i (T.basic k) * T.cell k j := by
  obtain ⟨Q, hcell, -, hright⟩ := h.exists_inverse
  have hone :
      ∀ l : Fin E.height, ∑ k, E.basisMatrix T.basis i k * Q k l = if i = l then 1 else 0 := by
    intro l
    rw [← Matrix.mul_apply, hright, Matrix.one_apply]
  -- insert the identity as the basic columns times their inverse, and sum over the rows last
  calc E.augmented.cell i j
      = ∑ l : Fin E.height, (if i = l then 1 else 0) * E.augmented.cell l j := by simp
    _ = ∑ l : Fin E.height, ∑ k : Fin E.height,
          E.basisMatrix T.basis i k * Q k l * E.augmented.cell l j := by
        refine Finset.sum_congr rfl fun l _ => ?_
        rw [← hone l, Finset.sum_mul]
    _ = ∑ k : Fin E.height, ∑ l : Fin E.height,
          E.basisMatrix T.basis i k * Q k l * E.augmented.cell l j := Finset.sum_comm
    _ = ∑ k : Fin E.height, E.rows.cell i (T.basic k) * T.cell k j := by
        refine Finset.sum_congr rfl fun k _ => ?_
        rw [hcell k j, Finset.mul_sum]
        refine Finset.sum_congr rfl fun l _ => ?_
        rw [mul_assoc]
        rfl

/-- **A row of the tableau is a combination of the equations**, at every vector. -/
theorem Canonical.exists_sum_row (h : T.Canonical E) (hi : i < E.height) :
    ∃ q : Fin E.height → ℚ, T.cell i E.width = ∑ k, q k * entry E.rhs k ∧
      ∀ y : List ℚ, ∑ j ∈ range E.width, T.cell i j * entry y j =
        ∑ k : Fin E.height, q k * ∑ j ∈ range E.width, E.rows.cell k j * entry y j := by
  obtain ⟨Q, hcell, -, -⟩ := h.exists_inverse
  refine ⟨Q ⟨i, hi⟩, ?_, fun y => ?_⟩
  · rw [hcell ⟨i, hi⟩]
    refine Finset.sum_congr rfl fun k _ => ?_
    rw [E.cell_augmented_width k.2]
  · calc ∑ j ∈ range E.width, T.cell i j * entry y j
        = ∑ j ∈ range E.width, ∑ k : Fin E.height,
            Q ⟨i, hi⟩ k * (E.rows.cell k j * entry y j) := by
          refine Finset.sum_congr rfl fun j hj => ?_
          rw [hcell ⟨i, hi⟩ j, Finset.sum_mul]
          refine Finset.sum_congr rfl fun k _ => ?_
          rw [E.cell_augmented k.2 (mem_range.mp hj), mul_assoc]
      _ = ∑ k : Fin E.height, Q ⟨i, hi⟩ k *
            ∑ j ∈ range E.width, E.rows.cell k j * entry y j := by
          rw [Finset.sum_comm]
          refine Finset.sum_congr rfl fun k _ => ?_
          rw [Finset.mul_sum]

/-- A solution of the equations meets every row of the tableau. -/
theorem Canonical.sum_row (h : T.Canonical E) {x : List ℚ} (hx : E.Solves x) (hi : i < E.height) :
    ∑ j ∈ range E.width, T.cell i j * entry x j = T.cell i E.width := by
  obtain ⟨q, hrhs, hrow⟩ := h.exists_sum_row hi
  rw [hrow, hrhs]
  refine Finset.sum_congr rfl fun k _ => ?_
  rw [E.solves_iff.mp hx k k.2]

/-- The objective row at a vector, from the constraint rows at it. -/
theorem Canonical.dot_add_sum (h : T.Canonical E) {y : List ℚ} {r : ℕ → ℚ}
    (hrow : ∀ i < E.height, ∑ j ∈ range E.width, T.cell i j * entry y j = r i) :
    dot E.costs y + ∑ j ∈ range E.width, T.cell E.height j * entry y j =
      ∑ i : Fin E.height, entry E.costs (T.basic i) * r i := by
  -- a price over the basis is a combination of rows
  have hprice : ∑ j ∈ range E.width, T.cell E.height j * entry y j =
      ∑ i : Fin E.height, entry E.costs (T.basic i) * r i - dot E.costs y := by
    calc ∑ j ∈ range E.width, T.cell E.height j * entry y j
        = ∑ j ∈ range E.width, (∑ i : Fin E.height,
            entry E.costs (T.basic i) * (T.cell i j * entry y j) -
              entry E.costs j * entry y j) := by
          refine Finset.sum_congr rfl fun j _ => ?_
          rw [h.objective j, sub_mul, Finset.sum_mul]
          simp only [mul_assoc]
      _ = ∑ i : Fin E.height, entry E.costs (T.basic i) *
            ∑ j ∈ range E.width, T.cell i j * entry y j - dot E.costs y := by
          rw [Finset.sum_sub_distrib, Finset.sum_comm, ← dot_eq_sum (n := E.width) (le_refl _)]
          simp only [Finset.mul_sum]
      _ = _ := by
          congr 1
          refine Finset.sum_congr rfl fun i _ => ?_
          rw [hrow i i.2]
  rw [hprice]
  ring

/-- **What the objective row says of a solution**: its cost falls short of the objective value by
the reduced costs at its entries. -/
theorem Canonical.dot_add_sum_objective (h : T.Canonical E) {x : List ℚ} (hx : E.Solves x) :
    dot E.costs x + ∑ j ∈ range E.width, T.cell E.height j * entry x j = T.objectiveValue := by
  rw [h.dot_add_sum fun i hi => h.sum_row hx hi, h.objectiveValue_eq, h.objective,
    E.entry_costs_width, sub_zero]

/-- **What the objective row says of a direction** that keeps the equations: its cost is made up for
by the reduced costs at its entries. -/
theorem Canonical.dot_add_sum_of_kernel (h : T.Canonical E) {d : List ℚ}
    (hd : ∀ k < E.height, ∑ j ∈ range E.width, E.rows.cell k j * entry d j = 0) :
    dot E.costs d + ∑ j ∈ range E.width, T.cell E.height j * entry d j = 0 := by
  rw [h.dot_add_sum (r := fun _ => 0) fun i hi => ?_]
  · simp
  · obtain ⟨q, -, hrow⟩ := h.exists_sum_row hi
    rw [hrow]
    refine Finset.sum_eq_zero fun k _ => ?_
    rw [hd k k.2, mul_zero]

/-- **The basic columns are independent**: nothing over them but zero keeps the equations. -/
theorem Canonical.entry_eq_zero_of_kernel (h : T.Canonical E) {d : List ℚ}
    (hd : ∀ k < E.height, ∑ j ∈ range E.width, E.rows.cell k j * entry d j = 0)
    (hoff : ∀ j, j ∉ T.basis → entry d j = 0) (j : ℕ) : entry d j = 0 := by
  by_cases hbasic : j ∈ T.basis
  · obtain ⟨i, rfl⟩ := h.exists_of_mem_basis hbasic
    obtain ⟨q, -, hrow⟩ := h.exists_sum_row i.2
    -- the row of the column reads its entry off such a vector
    have hentry : ∑ j ∈ range E.width, T.cell i j * entry d j = entry d (T.basic i) := by
      rw [Finset.sum_eq_single_of_mem _ (mem_range.mpr (h.basic_lt i.2)) fun l _ hne => ?_]
      · rw [h.unit, if_pos rfl, one_mul]
      · by_cases hl : l ∈ T.basis
        · obtain ⟨k, rfl⟩ := h.exists_of_mem_basis hl
          rw [h.unit, if_neg (fun hik => hne (by rw [hik])), zero_mul]
        · rw [hoff l hl, mul_zero]
    rw [← hentry, hrow]
    refine Finset.sum_eq_zero fun k _ => ?_
    rw [hd k k.2, mul_zero]
  · exact hoff j hbasic

/-- **Weak duality at a tableau.** Where no reduced cost is below `-low`, no solution with nonnegative
entries costs more than the objective value, up to `low` times its total. -/
theorem Canonical.dot_le_of_reduced (h : T.Canonical E) {low : ℚ}
    (hreduced : ∀ j < E.width, -low ≤ T.cell E.height j) {x : List ℚ} (hlen : x.length = E.width)
    (hx : E.Solves x) (hnonneg : ∀ a ∈ x, 0 ≤ a) :
    dot E.costs x ≤ T.objectiveValue + low * x.sum := by
  -- a reduced cost may be as low as `-low`, and no entry turns its sign
  have hlow : -(low * x.sum) ≤ ∑ j ∈ range E.width, T.cell E.height j * entry x j := by
    rw [sum_eq_sum_entry (n := E.width) (le_of_eq hlen), Finset.mul_sum, ← Finset.sum_neg_distrib]
    refine Finset.sum_le_sum fun j hj => ?_
    have hterm := mul_le_mul_of_nonneg_right (hreduced j (mem_range.mp hj)) (entry_nonneg hnonneg j)
    linarith
  have hvalue := h.dot_add_sum_objective hx
  linarith

/-- Weak duality at the end of the simplex method. -/
theorem Canonical.dot_le_of_optimal (h : T.Canonical E) (hmove : T.nextMove tol rule = .optimal)
    {x : List ℚ} (hlen : x.length = E.width) (hx : E.Solves x) (hnonneg : ∀ a ∈ x, 0 ≤ a) :
    dot E.costs x ≤ T.objectiveValue + tol * x.sum :=
  h.dot_le_of_reduced (fun _ hj => h.le_of_nextMove_optimal hmove hj) hlen hx hnonneg

/-! ## Vectors over the basis -/

/-- The value of entries at places is a sum over the places. -/
theorem valueAt_zip {places : List ℕ} {v : List ℚ} (hlen : places.length = v.length) (y : List ℚ) :
    valueAt (places.zip v) y = ∑ i ∈ range v.length, entry v i * entry y (places.getD i 0) := by
  induction v generalizing places with
  | nil => simp [valueAt]
  | cons a v ih =>
    obtain ⟨place, places, rfl⟩ : ∃ place rest, places = place :: rest :=
      List.exists_cons_of_length_pos (by rw [hlen]; simp)
    rw [List.zip_cons_cons, valueAt_cons, ih (by simpa using hlen), List.length_cons,
      Finset.sum_range_succ']
    simp [add_comm]

/-- Values written at the basic columns, summed against a vector. -/
theorem Canonical.valueAt_basis (h : T.Canonical E) {v : List ℚ} (hv : v.length = E.height)
    (y : List ℚ) :
    valueAt (T.basis.zip v) y = ∑ i : Fin E.height, entry v i * entry y (T.basic i) := by
  rw [valueAt_zip (by rw [h.basis_length, hv]), hv,
    ← Fin.sum_univ_eq_sum_range (fun i => entry v i * entry y (T.basis.getD i 0))]
  rfl

theorem Canonical.keys_zip (h : T.Canonical E) {v : List ℚ} (hv : v.length = E.height) :
    (T.basis.zip v).map (·.1) = T.basis :=
  List.map_fst_zip (by rw [h.basis_length, hv])

theorem Canonical.key_lt (h : T.Canonical E) {v : List ℚ} {e : ℕ × ℚ} (he : e ∈ T.basis.zip v) :
    e.1 < E.width :=
  h.basis_lt _ (List.of_mem_zip he).1

theorem Canonical.mem_zip (h : T.Canonical E) {v : List ℚ} (hv : v.length = E.height)
    (hi : i < E.height) :
    (T.basic i, entry v i) ∈ T.basis.zip v := by
  have hb : i < T.basis.length := h.basis_length ▸ hi
  have hi' : i < v.length := hv ▸ hi
  rw [List.mem_iff_getElem]
  exact ⟨i, by simpa using ⟨hb, hi'⟩, by simp [Tableau.basic, entry, hb, hi']⟩

/-! ### The basic point -/

theorem Canonical.primalValues_eq (h : T.Canonical E) :
    T.primalValues = scatter (zeros E.width) (T.basis.zip T.rhs) := by
  -- the last column ends with the objective value, which the basis is too short to reach
  have hzip : T.basis.zip (T.matrix.column T.columnCount) = T.basis.zip T.rhs := by
    have hrhs : T.rhs = (T.matrix.column T.columnCount).take E.height := by
      simp [Tableau.rhs, Tableau.constraintRows, Dense.column, h.rowCount_eq]
    rw [hrhs, List.zip_eq_zip_take_min, h.basis_length, Dense.length_column, h.height,
      min_eq_left (by omega), ← h.basis_length, List.take_length]
  rw [Tableau.primalValues, hzip, h.columnCount_eq]

@[simp] theorem Canonical.length_primalValues (h : T.Canonical E) :
    T.primalValues.length = E.width := by
  rw [h.primalValues_eq, length_scatter, length_zeros]

/-- A basic column has the value of its row. -/
theorem Canonical.entry_primalValues_basic (h : T.Canonical E) (hi : i < E.height) :
    entry T.primalValues (T.basic i) = T.cell i E.width := by
  rw [h.primalValues_eq, entry_scatter_of_mem (by rw [h.keys_zip h.length_rhs]; exact h.basis_nodup)
    (by simpa using h.basic_lt hi) (h.mem_zip h.length_rhs hi), h.entry_rhs hi]

/-- The other columns are zero. -/
theorem Canonical.entry_primalValues_of_notMem (h : T.Canonical E) (hj : j ∉ T.basis) :
    entry T.primalValues j = 0 := by
  rw [h.primalValues_eq, entry_scatter_of_notMem (by rw [h.keys_zip h.length_rhs]; exact hj),
    entry_zeros]

/-- A bound from below, at zero at most, holds of the basic solution where it holds of the right-hand
sides. -/
theorem Canonical.le_of_mem_primalValues (h : T.Canonical E) {low : ℚ} (hlow : low ≤ 0)
    (hall : ∀ i < E.height, low ≤ T.cell i E.width) {a : ℚ} (ha : a ∈ T.primalValues) :
    low ≤ a := by
  obtain ⟨j, hj, rfl⟩ := List.getElem_of_mem ha
  rw [← entry_eq_getElem hj]
  by_cases hbasic : j ∈ T.basis
  · obtain ⟨i, rfl⟩ := h.exists_of_mem_basis hbasic
    rw [h.entry_primalValues_basic i.2]
    exact hall i i.2
  · rw [h.entry_primalValues_of_notMem hbasic]
    exact hlow

/-- The basic solution is not negative where no right-hand side is. -/
theorem Canonical.primalValues_nonneg_iff (h : T.Canonical E) :
    (∀ a ∈ T.primalValues, 0 ≤ a) ↔ ∀ i < E.height, 0 ≤ T.cell i E.width := by
  constructor
  · intro hall i hi
    rw [← h.entry_primalValues_basic hi]
    exact entry_nonneg hall _
  · exact fun hall a => h.le_of_mem_primalValues (le_refl 0) hall

theorem Canonical.sum_primalValues (h : T.Canonical E) (y : List ℚ) :
    ∑ j ∈ range E.width, entry T.primalValues j * entry y j =
      ∑ i : Fin E.height, T.cell i E.width * entry y (T.basic i) := by
  rw [h.primalValues_eq, sum_scatter (by rw [h.keys_zip h.length_rhs]; exact h.basis_nodup)
    (fun e he => h.key_lt he), h.valueAt_basis h.length_rhs]
  refine Finset.sum_congr rfl fun i _ => ?_
  rw [h.entry_rhs i.2]

/-- **The basic point solves the equations.** -/
theorem Canonical.solves_primalValues (h : T.Canonical E) : E.Solves T.primalValues := by
  rw [E.solves_iff]
  intro k hk
  calc ∑ j ∈ range E.width, E.rows.cell k j * entry T.primalValues j
      = ∑ j ∈ range E.width, entry T.primalValues j * entry (E.rows.rowAt k) j := by
        simp only [mul_comm]
        rfl
    _ = ∑ i : Fin E.height, T.cell i E.width * E.rows.cell k (T.basic i) := h.sum_primalValues _
    _ = E.augmented.cell k E.width := by
        rw [h.cell_augmented_eq_sum ⟨k, hk⟩]
        simp only [mul_comm]
    _ = entry E.rhs k := E.cell_augmented_width hk

/-- The basic point costs the objective value. -/
theorem Canonical.dot_primalValues (h : T.Canonical E) :
    dot E.costs T.primalValues = T.objectiveValue := by
  rw [dot_comm, dot_eq_sum (n := E.width) (le_of_eq h.length_primalValues), h.sum_primalValues,
    h.objectiveValue_eq, h.objective, E.entry_costs_width, sub_zero]
  simp only [mul_comm]

/-! ### The shortfall -/

/-- How far the lowest reduced cost is below zero. -/
def shortfall (T : Tableau ℚ) : ℚ := T.reducedCosts.foldr (fun a low => max (-a) low) 0

theorem shortfall_nonneg (T : Tableau ℚ) : 0 ≤ T.shortfall := by
  unfold shortfall
  induction T.reducedCosts with
  | nil => exact le_refl 0
  | cons a x ih => exact le_max_of_le_right ih

/-- No reduced cost is lower than that. -/
theorem Canonical.neg_shortfall_le (h : T.Canonical E) {j : ℕ} (hj : j < E.width) :
    -T.shortfall ≤ T.cell E.height j := by
  have hfold : ∀ (x : List ℚ), ∀ a ∈ x, -a ≤ x.foldr (fun a low => max (-a) low) 0 := by
    intro x
    induction x with
    | nil => simp
    | cons b x ih =>
      intro a ha
      rcases List.mem_cons.mp ha with rfl | ha
      · exact le_max_left _ _
      · exact (ih a ha).trans (le_max_right _ _)
  have hlen : j < T.reducedCosts.length := by rw [h.length_reducedCosts]; exact hj
  have hlow := hfold T.reducedCosts _ (List.getElem_mem hlen)
  rw [← entry_eq_getElem hlen, h.entry_reducedCosts hj] at hlow
  exact neg_le.mp hlow

/-- No solution with nonnegative entries costs more than the basic one, up to the shortfall times its
total. -/
theorem Canonical.dot_le_primalValues (h : T.Canonical E) {x : List ℚ} (hlen : x.length = E.width)
    (hx : E.Solves x) (hnonneg : ∀ a ∈ x, 0 ≤ a) :
    dot E.costs x ≤ dot E.costs T.primalValues + T.shortfall * x.sum := by
  rw [h.dot_primalValues]
  exact h.dot_le_of_reduced (fun j hj => h.neg_shortfall_le hj) hlen hx hnonneg

/-! ### The ray of a column -/

/-- The direction in which a column enters: one in the column itself, and minus the entries of the
column at the basic columns. -/
def ray (T : Tableau ℚ) (col : ℕ) : List ℚ :=
  scatter (zeros T.columnCount) ((col, 1) :: T.basis.zip ((T.column col).map (-·)))

theorem Canonical.length_ray (h : T.Canonical E) (col : ℕ) : (T.ray col).length = E.width := by
  rw [Tableau.ray, length_scatter, length_zeros, h.columnCount_eq]

theorem Canonical.keys_ray (h : T.Canonical E) (col : ℕ) :
    (((col, 1) :: T.basis.zip ((T.column col).map (-·))).map (·.1) : List ℕ) = col :: T.basis := by
  rw [List.map_cons, h.keys_zip (by rw [List.length_map, h.length_column])]

/-- A ray is written once at each place: its own column is not basic. -/
theorem Canonical.nodup_keys_ray (h : T.Canonical E) (hneg : T.cell E.height col < 0) :
    (((col, 1) :: T.basis.zip ((T.column col).map (-·))).map (·.1) : List ℕ).Nodup := by
  rw [h.keys_ray]
  exact List.nodup_cons.mpr ⟨h.notMem_basis hneg, h.basis_nodup⟩

/-- A ray is one in its own column. -/
theorem Canonical.entry_ray_self (h : T.Canonical E) (hcol : col < E.width)
    (hneg : T.cell E.height col < 0) : entry (T.ray col) col = 1 :=
  entry_scatter_of_mem (h.nodup_keys_ray hneg) (by simpa [h.columnCount_eq] using hcol) (by simp)

/-- A ray has minus the entry of its column at a basic column. -/
theorem Canonical.entry_ray_basic (h : T.Canonical E) (hneg : T.cell E.height col < 0)
    (hi : i < E.height) : entry (T.ray col) (T.basic i) = -T.cell i col := by
  have hlen :
      ((T.column col).map (-·)).length = E.height := by rw [List.length_map, h.length_column]
  have hmem := List.mem_cons_of_mem (col, 1) (h.mem_zip hlen hi)
  rw [Tableau.ray, entry_scatter_of_mem (h.nodup_keys_ray hneg)
    (by simpa [h.columnCount_eq] using h.basic_lt hi) hmem, entry_map (by simp), h.entry_column hi]

/-- A ray is zero off its own column and the basis. -/
theorem Canonical.entry_ray_of_notMem (h : T.Canonical E) (hj : j ≠ col) (hbasis : j ∉ T.basis) :
    entry (T.ray col) j = 0 := by
  have hnot : j ∉ col :: T.basis := by simp [hj, hbasis]
  rw [Tableau.ray, entry_scatter_of_notMem (by rw [h.keys_ray]; exact hnot), entry_zeros]

theorem Canonical.sum_ray (h : T.Canonical E) (hcol : col < E.width)
    (hneg : T.cell E.height col < 0)
    (y : List ℚ) : ∑ j ∈ range E.width, entry (T.ray col) j * entry y j =
      entry y col - ∑ i : Fin E.height, T.cell i col * entry y (T.basic i) := by
  have hlt : ∀ e ∈ (col, 1) :: T.basis.zip ((T.column col).map (-·)), e.1 < E.width := by
    intro e he
    rcases List.mem_cons.mp he with rfl | he
    · exact hcol
    · exact h.key_lt he
  rw [Tableau.ray, h.columnCount_eq, sum_scatter (h.nodup_keys_ray hneg) hlt, valueAt_cons,
    h.valueAt_basis (by rw [List.length_map, h.length_column]), sub_eq_add_neg,
    ← Finset.sum_neg_distrib]
  congr 1
  · simp
  · refine Finset.sum_congr rfl fun i _ => ?_
    rw [entry_map (by simp), h.entry_column i.2]
    ring

/-- **A ray keeps the equations**: each of them is zero along it. -/
theorem Canonical.sum_row_ray (h : T.Canonical E) (hcol : col < E.width)
    (hneg : T.cell E.height col < 0) (hk : k < E.height) :
    ∑ j ∈ range E.width, E.rows.cell k j * entry (T.ray col) j = 0 := by
  calc ∑ j ∈ range E.width, E.rows.cell k j * entry (T.ray col) j
      = ∑ j ∈ range E.width, entry (T.ray col) j * entry (E.rows.rowAt k) j := by
        simp only [mul_comm]
        rfl
    _ = E.rows.cell k col - ∑ i : Fin E.height, T.cell i col * E.rows.cell k (T.basic i) :=
        h.sum_ray hcol hneg _
    _ = 0 := by
        rw [← E.cell_augmented hk hcol, h.cell_augmented_eq_sum ⟨k, hk⟩]
        simp only [mul_comm, sub_self]

/-- **A ray gains what the objective row lacks.** -/
theorem Canonical.dot_ray (h : T.Canonical E) (hcol : col < E.width)
    (hneg : T.cell E.height col < 0) :
    dot E.costs (T.ray col) = -T.cell E.height col := by
  rw [dot_comm, dot_eq_sum (n := E.width) (le_of_eq (h.length_ray col)), h.sum_ray hcol hneg,
    h.objective]
  simp only [mul_comm]
  ring

/-- The entries of a ray are above `-tol`, where no entry of its column is above `tol`. -/
theorem Canonical.le_entry_ray (h : T.Canonical E) (htol : 0 ≤ tol) (hcol : col < E.width)
    (hneg : T.cell E.height col < 0) (hle : ∀ i < E.height, T.cell i col ≤ tol) (j : ℕ) :
    -tol ≤ entry (T.ray col) j := by
  by_cases hself : j = col
  · rw [hself, h.entry_ray_self hcol hneg]
    linarith
  · by_cases hbasis : j ∈ T.basis
    · obtain ⟨i, rfl⟩ := h.exists_of_mem_basis hbasis
      rw [h.entry_ray_basic hneg i.2]
      exact neg_le_neg (hle i i.2)
    · rw [h.entry_ray_of_notMem hself hbasis]
      linarith

end Tableau

end LinOpt
