import LinOpt.Proofs.StandardForm.Layout
import LinOpt.Proofs.Tableau.Canonical
import LinOpt.Simplex.Iterate
/-!
# The equations of a standard form

The rows, costs and artificial columns of `Model.standardForm`, read at a vector. A row is worth
what its entries are worth, with its own columns (`sum_row_standardForm`). The penalised cost of a
vector is the objective of its component sums less the penalty on its artificial total (`dot_costs`,
`dot_objective`).

The columns that are basic at the start are unit columns (`cell_basis`). So the tableaux from which
both phases start are canonical, for the same equations under different costs.
-/

namespace LinOpt

open Finset

/-- The total of the artificial columns of a vector. -/
def StandardForm.artificialTotal (form : StandardForm ℚ) (x : List ℚ) : ℚ :=
  (pick x form.artificials).sum

theorem StandardForm.artificialTotal_nonneg {form : StandardForm ℚ} {x : List ℚ}
    (h : ∀ k, 0 ≤ entry x k) : 0 ≤ form.artificialTotal x := by
  refine List.sum_nonneg fun a ha => ?_
  obtain ⟨k, -, rfl⟩ := List.mem_map.mp ha
  exact h k

/-! ## Rows -/

namespace Model

variable (opts : Options ℚ) {model : Model ℚ} {p q : PlacedRow ℚ}

theorem rows_standardForm : (model.standardForm opts).rows =
    model.placedRows.map fun p =>
      scatter (zeros model.formWidth) (p.row.entries ++ p.ownEntries) := by
  simp [standardForm, StandardForm.assemble]

@[simp] theorem width_standardForm : (model.standardForm opts).width = model.formWidth := by
  simp [StandardForm.width, standardForm, StandardForm.assemble]

theorem length_costs_standardForm : (model.standardForm opts).costs.length = model.formWidth :=
  width_standardForm opts

@[simp] theorem height_standardForm :
    (model.standardForm opts).height = model.statedRows.length := by
  rw [StandardForm.height, rows_standardForm, List.length_map, length_placedRows]

@[simp] theorem length_rhs_standardForm :
    (model.standardForm opts).rhs.length = model.statedRows.length := by
  simp [standardForm, StandardForm.assemble]

@[simp] theorem length_basis_standardForm :
    (model.standardForm opts).basis.length = model.statedRows.length := by
  simp [standardForm, StandardForm.assemble]

/-- Every column has a name. -/
theorem length_columnNames_standardForm (hsized : model.Sized) :
    (model.standardForm opts).columnNames.length = model.formWidth := by
  change (model.structuralNames ++ model.placedRows.flatMap PlacedRow.ownNames).length = _
  rw [List.length_append, StandardForm.length_structuralNames_eq hsized, placedRows,
    length_flatMap_ownNames]
  rfl

theorem rowAt_standardForm (hp : p ∈ model.placedRows) :
    (model.standardForm opts).rows.rowAt p.index =
    scatter (zeros model.formWidth) (p.row.entries ++ p.ownEntries) := by
  rw [rows_standardForm]
  simp [Dense.rowAt, placedRows_index hp]

theorem entry_rhs_standardForm (hp : p ∈ model.placedRows) :
    entry (model.standardForm opts).rhs p.index = p.row.rhs := by
  change entry (model.placedRows.map (·.row.rhs)) p.index = _
  simp [entry, placedRows_index hp]

/-- No right-hand side of a standard form is negative. -/
theorem nonneg_of_mem_rhs_standardForm : ∀ b ∈ (model.standardForm opts).rhs, 0 ≤ b := by
  intro b hb
  obtain ⟨p, hp, rfl⟩ := List.mem_map.mp hb
  obtain ⟨_, hrow, -⟩ := exists_of_mem_placedRows hp
  rw [hrow]
  exact StatedRow.oriented_rhs_nonneg _ _

theorem basis_standardForm (hp : p ∈ model.placedRows) :
    (model.standardForm opts).basis.getD p.index 0 = p.basic := by
  change (model.placedRows.map PlacedRow.basic).getD p.index 0 = _
  simp [placedRows_index hp]

theorem length_row_standardForm {row : List ℚ} (h : row ∈ (model.standardForm opts).rows) :
    row.length = model.formWidth := by
  rw [rows_standardForm] at h
  obtain ⟨p, -, rfl⟩ := List.mem_map.mp h
  simp

theorem basis_lt_formWidth {k : ℕ} (h : k ∈ (model.standardForm opts).basis) :
    k < model.formWidth := by
  obtain ⟨p, hp, rfl⟩ := List.mem_map.mp (show k ∈ model.placedRows.map PlacedRow.basic from h)
  exact basic_lt_formWidth hp

/-- **The columns that are basic at the start are unit columns.** -/
theorem cell_basis {i k : ℕ} (hi : i < model.statedRows.length) (hk : k < model.statedRows.length) :
    (model.standardForm opts).rows.cell i ((model.standardForm opts).basis.getD k 0) =
      if i = k then 1 else 0 := by
  obtain ⟨p, hp, rfl, -⟩ := exists_placed hi
  obtain ⟨q, hq, rfl, -⟩ := exists_placed hk
  rw [basis_standardForm opts hq, Dense.cell, rowAt_standardForm opts hp]
  split
  · rename_i heq
    obtain rfl := eq_of_index_eq hp hq heq
    exact entry_scatter_of_mem (nodup_keys hp) (by simpa using basic_lt_formWidth hp)
      (List.mem_append_right _ PlacedRow.basic_mem_ownEntries)
  · rename_i hne
    rw [entry_scatter_of_notMem (basic_notMem_keys hp hq hne), entry_zeros]

/-- A row at a vector: what its entries are worth, with its own columns. -/
theorem sum_row_standardForm (hp : p ∈ model.placedRows) (x : List ℚ) :
    ∑ j ∈ range model.formWidth, (model.standardForm opts).rows.cell p.index j * entry x j =
      valueAt p.row.entries x + valueAt p.ownEntries x := by
  have hcell : ∀ j, (model.standardForm opts).rows.cell p.index j =
      entry (scatter (zeros model.formWidth) (p.row.entries ++ p.ownEntries)) j := by
    intro j
    rw [Dense.cell, rowAt_standardForm opts hp]
  simp only [hcell]
  rw [sum_scatter (nodup_keys hp) (fun e he => key_lt_formWidth hp he), valueAt_append]

theorem entry_mulVec_rows (hp : p ∈ model.placedRows) (x : List ℚ) :
    entry ((model.standardForm opts).rows.mulVec x) p.index =
      valueAt p.row.entries x + valueAt p.ownEntries x := by
  have hrow : ∀ row ∈ (model.standardForm opts).rows, row.length ≤ model.formWidth :=
    fun row h => le_of_eq (length_row_standardForm opts h)
  have hindex : p.index < (model.standardForm opts).rows.length :=
    lt_of_lt_of_eq (index_lt hp) (height_standardForm opts).symm
  rw [Dense.entry_mulVec hrow hindex, sum_row_standardForm opts hp]

/-! ## Artificial columns -/

theorem exists_of_mem_artificials {k : ℕ} (h : k ∈ (model.standardForm opts).artificials) :
    ∃ p ∈ model.placedRows, p.artificial = some k :=
  List.mem_filterMap.mp h

theorem artificial_lt_formWidth {k : ℕ} (h : k ∈ (model.standardForm opts).artificials) :
    k < model.formWidth := by
  obtain ⟨p, hp, hk⟩ := exists_of_mem_artificials opts h
  rw [← PlacedRow.basic_eq_of_artificial hk]
  exact basic_lt_formWidth hp

theorem structuralWidth_le_artificial {k : ℕ} (h : k ∈ (model.standardForm opts).artificials) :
    structuralWidth model.kinds ≤ k := by
  obtain ⟨p, hp, hk⟩ := exists_of_mem_artificials opts h
  have h1 := (PlacedRow.key_of_mem_ownEntries (p := p) PlacedRow.basic_mem_ownEntries).1
  have h2 := structuralWidth_le_first hp
  rw [← PlacedRow.basic_eq_of_artificial hk]
  exact le_trans h2 h1

/-- The artificial columns are listed in order, each once. -/
theorem pairwise_artificials : (model.standardForm opts).artificials.Pairwise (· < ·) := by
  change (model.placedRows.filterMap PlacedRow.artificial).Pairwise (· < ·)
  refine List.pairwise_filterMap.mpr ((pairwise_place _ _ _).imp fun {p q} hle k hk l hl => ?_)
  -- each is a basic column, hence in the block of its row
  have h1 := (PlacedRow.key_of_mem_ownEntries (p := p) PlacedRow.basic_mem_ownEntries).2
  have h2 := (PlacedRow.key_of_mem_ownEntries (p := q) PlacedRow.basic_mem_ownEntries).1
  rw [PlacedRow.basic_eq_of_artificial hk] at h1
  rw [PlacedRow.basic_eq_of_artificial hl] at h2
  omega

theorem nodup_artificials : (model.standardForm opts).artificials.Nodup :=
  (pairwise_artificials opts).imp fun h => ne_of_lt h

/-! ## Costs -/

@[simp] theorem length_objective_standardForm :
    (model.standardForm opts).objective.length = model.formWidth := by
  simp [standardForm, StandardForm.assemble]

theorem key_lt_of_mem_costEntries {e : ℕ × ℚ} (h : e ∈ model.costEntries) :
    e.1 < structuralWidth model.kinds :=
  key_lt_of_mem_structuralEntries (List.mem_map_of_mem h)

/-- Without its penalty an artificial column is free of cost. -/
theorem entry_objective_artificial {k : ℕ} (h : k ∈ (model.standardForm opts).artificials) :
    entry (model.standardForm opts).objective k = 0 := by
  have hnot : k ∉ model.costEntries.map (·.1) := by
    intro hmem
    obtain ⟨e, he, rfl⟩ := List.mem_map.mp hmem
    have h1 := key_lt_of_mem_costEntries he
    have h2 := structuralWidth_le_artificial opts h
    omega
  change entry (scatter (zeros model.formWidth) model.costEntries) k = 0
  rw [entry_scatter_of_notMem hnot, entry_zeros]

/-- **The objective of a vector is that of its component sums**, signed for maximisation. -/
theorem dot_objective (x : List ℚ) : dot (model.standardForm opts).objective x =
    model.gain (componentSums (model.standardForm opts).components x) := by
  have hfactor : ∀ y : List ℚ, dot (model.costs.map (model.sense.factor * ·)) y =
      model.sense.factor * dot model.costs y := by
    intro y
    rw [dot_eq_sum (n := model.costs.length) (by simp),
      dot_eq_sum (n := model.costs.length) (le_refl _), Finset.mul_sum]
    refine Finset.sum_congr rfl fun j _ => ?_
    rw [entry_map (mul_zero _), mul_assoc]
  have hlt : ∀ e ∈ model.costEntries, e.1 < model.formWidth := by
    intro e he
    exact lt_of_lt_of_le (key_lt_of_mem_costEntries he) (Nat.le_add_right _ _)
  rw [dot_eq_sum (le_of_eq (length_objective_standardForm opts))]
  change ∑ j ∈ range model.formWidth,
    entry (scatter (zeros model.formWidth) model.costEntries) j * entry x j = _
  have hnodup : (model.costEntries.map (·.1)).Nodup := nodup_structuralEntries _ _
  rw [sum_scatter hnodup hlt, costEntries, valueAt_structuralEntries, hfactor]
  rfl

/-- Costs with one value written at the artificial columns. -/
theorem dot_scatter_artificials {costs : List ℚ} (hlen : costs.length = model.formWidth)
    (hzero : ∀ k ∈ (model.standardForm opts).artificials, entry costs k = 0) (a : ℚ) (x : List ℚ) :
    dot (scatter costs ((model.standardForm opts).artificials.map (·, a))) x =
      dot costs x + a * (model.standardForm opts).artificialTotal x := by
  rw [dot_eq_sum (n := model.formWidth) (by rw [length_scatter, hlen]), sum_scatter_add
    (by rw [keys_map_const]; exact nodup_artificials opts) ?_ hlen ?_,
    ← dot_eq_sum (le_of_eq hlen), valueAt_map_const]
  · rfl
  · intro e he
    obtain ⟨k, hk, rfl⟩ := List.mem_map.mp he
    exact artificial_lt_formWidth opts hk
  · intro e he
    obtain ⟨k, hk, rfl⟩ := List.mem_map.mp he
    exact hzero k hk

/-- **The penalised cost of a vector**: its objective less the penalty on its artificial total. -/
theorem dot_costs (x : List ℚ) : dot (model.standardForm opts).costs x =
    dot (model.standardForm opts).objective x -
      opts.bigM * (model.standardForm opts).artificialTotal x := by
  have hlen : (model.standardForm opts).objective.length = model.formWidth :=
    length_objective_standardForm opts
  have h := dot_scatter_artificials opts hlen
    (fun k hk => entry_objective_artificial opts hk) (-opts.bigM) x
  rw [neg_mul, ← sub_eq_add_neg] at h
  exact h

/-! ## The tableaux at the start -/

/-- The equations of the standard form, under given costs. -/
def equations (opts : Options ℚ) (model : Model ℚ) (costs : List ℚ)
    (h : costs.length = model.formWidth) :
    Equations where
  rows := (model.standardForm opts).rows
  rhs := (model.standardForm opts).rhs
  costs
  rhs_length := by
    rw [length_rhs_standardForm, ← height_standardForm opts]
    rfl
  row_length := fun row hrow => (length_row_standardForm opts hrow).trans h.symm

variable {costs : List ℚ} (hcosts : costs.length = model.formWidth)

@[simp] theorem height_equations :
    (equations opts model costs hcosts).height = model.statedRows.length :=
  height_standardForm opts

@[simp] theorem width_equations :
    (equations opts model costs hcosts).width = model.formWidth := hcosts

/-- A vector meets the equations when it meets every placed row. -/
theorem solves_equations_iff {x : List ℚ} : (equations opts model costs hcosts).Solves x ↔
    ∀ r ∈ model.placedRows, valueAt r.row.entries x + valueAt r.ownEntries x = r.row.rhs := by
  rw [Equations.solves_iff, height_equations, width_equations]
  constructor
  · intro h r hr
    rw [← sum_row_standardForm opts hr, ← entry_rhs_standardForm opts hr]
    exact h r.index (index_lt hr)
  · intro h i hi
    obtain ⟨r, hr, rfl, -⟩ := exists_placed hi
    exact (sum_row_standardForm opts hr x).trans
      ((h r hr).trans (entry_rhs_standardForm opts hr).symm)

/-- **The tableau at the start is canonical**, whatever the costs are. -/
theorem canonical_tableau (names : List String) :
    ((equations opts model costs hcosts).tableau (model.standardForm opts).basis names).Canonical
      (equations opts model costs hcosts) := by
  refine Tableau.canonical_initial _ names ?_ ?_ ?_
  · rw [length_basis_standardForm, height_equations]
  · intro k hk
    rw [width_equations]
    exact basis_lt_formWidth opts hk
  · intro i hi k hk
    rw [height_equations] at hi hk
    exact cell_basis opts hi hk

/-- The equations under the penalised costs. -/
def penalised (opts : Options ℚ) (model : Model ℚ) : Equations :=
  equations opts model (model.standardForm opts).costs (length_costs_standardForm opts)

@[simp] theorem height_penalised : (penalised opts model).height = model.statedRows.length :=
  height_standardForm opts

@[simp] theorem width_penalised :
    (penalised opts model).width = model.formWidth := width_standardForm opts

/-- The costs of phase one: minus the total of the artificial columns. -/
def phaseOneCosts (opts : Options ℚ) (model : Model ℚ) : List ℚ :=
  scatter (zeros model.formWidth) ((model.standardForm opts).artificials.map (·, -1))

theorem length_phaseOneCosts : (phaseOneCosts opts model).length = model.formWidth := by
  simp [phaseOneCosts]

/-- The equations under the costs of phase one. -/
def phaseOne (opts : Options ℚ) (model : Model ℚ) : Equations :=
  equations opts model (phaseOneCosts opts model) (length_phaseOneCosts opts)

@[simp] theorem height_phaseOne : (phaseOne opts model).height = model.statedRows.length :=
  height_standardForm opts

@[simp] theorem width_phaseOne : (phaseOne opts model).width = model.formWidth :=
  length_phaseOneCosts opts

theorem canonical_standardForm_tableau :
    (model.standardForm opts).tableau.Canonical (penalised opts model) :=
  canonical_tableau opts _ _

theorem phaseOneTableau_eq : (model.standardForm opts).phaseOneTableau =
    (phaseOne opts model).tableau (model.standardForm opts).basis
      (model.standardForm opts).columnNames := by
  have hcosts : scatter (zeros (model.standardForm opts).width)
      ((model.standardForm opts).artificials.map (·, -1)) = phaseOneCosts opts model := by
    rw [width_standardForm, phaseOneCosts]
  unfold StandardForm.phaseOneTableau
  rw [hcosts]
  rfl

theorem canonical_phaseOneTableau :
    (model.standardForm opts).phaseOneTableau.Canonical (phaseOne opts model) := by
  rw [phaseOneTableau_eq]
  exact canonical_tableau opts (length_phaseOneCosts opts) _

/-- The cost of a vector in phase one. -/
theorem dot_phaseOneCosts (x : List ℚ) :
    dot (phaseOneCosts opts model) x = -(model.standardForm opts).artificialTotal x := by
  have hlen : (zeros model.formWidth : List ℚ).length = model.formWidth := length_zeros _
  have h := dot_scatter_artificials opts hlen (by simp) (-1) x
  have hzero : dot (zeros model.formWidth) x = 0 := by
    rw [dot_eq_sum (n := model.formWidth) (by simp)]
    simp
  rw [hzero, zero_add, neg_one_mul] at h
  exact h

end Model

end LinOpt
