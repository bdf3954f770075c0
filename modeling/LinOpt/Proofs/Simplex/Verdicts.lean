import LinOpt.Proofs.Simplex.Agreement
/-!
# What the verdicts of a run rest on

`Simplex.Ends` lists what pivoting can end in, with the tableaux it has walked to. A verdict is as
good as the tableau it is read from, and that tableau is canonical. So it yields vectors that anyone
can check against the standard form: a basic solution of the equations (`BasicAt`), and a direction
along a column that keeps them (`RayAt`). Neither need be nonnegative: the ratio test takes entries
up to `tol` for zero, and ratios that are close for equal.
-/

namespace LinOpt

open Finset Tableau

/-! ## Ends -/

namespace Simplex

/-- **What pivoting can end in**, with the tableaux it has walked to. -/
inductive Ends (opts : Options ℚ) (model : Model ℚ) : Except (Fault ℚ) (Terminal ℚ) → Prop
  /-- No column improves the penalised objective. -/
  | optimum {k : ℕ} {T : Tableau ℚ} :
      Leads opts.tol opts.rule (model.standardForm opts).tableau k T →
      T.nextMove opts.tol opts.rule = .optimal → Ends opts model (.ok ⟨T.basis, T.rhs, k⟩)
  /-- A ray is met, and there are no artificial columns. -/
  | ray {k col : ℕ} {T : Tableau ℚ} :
      Leads opts.tol opts.rule (model.standardForm opts).tableau k T →
      T.nextMove opts.tol opts.rule = .ray col → (model.standardForm opts).artificials = [] →
      Ends opts model (.error (.unbounded (T.names.getD col "") k))
  /-- A ray is met, and phase one brings the artificial total down. -/
  | cleared {k k₁ col : ℕ} {T T₁ : Tableau ℚ} :
      (model.standardForm opts).artificials ≠ [] →
      Leads opts.tol opts.rule (model.standardForm opts).tableau k T →
      T.nextMove opts.tol opts.rule = .ray col →
      Leads opts.tol .bland (model.standardForm opts).phaseOneTableau k₁ T₁ →
      (∀ row col, T₁.nextMove opts.tol .bland ≠ .pivot row col) →
      max 0 (-T₁.objectiveValue) ≤ feasibilityTolerance →
      Ends opts model (.error (.unbounded (T.names.getD col "") k))
  /-- A ray is met, and phase one leaves an artificial total. -/
  | gap {k k₁ col : ℕ} {T T₁ : Tableau ℚ} :
      (model.standardForm opts).artificials ≠ [] →
      Leads opts.tol opts.rule (model.standardForm opts).tableau k T →
      T.nextMove opts.tol opts.rule = .ray col →
      Leads opts.tol .bland (model.standardForm opts).phaseOneTableau k₁ T₁ →
      (∀ row col, T₁.nextMove opts.tol .bland ≠ .pivot row col) →
      feasibilityTolerance < max 0 (-T₁.objectiveValue) →
      Ends opts model (.error (.artificialsRemain (max 0 (-T₁.objectiveValue)) k))
  /-- The budget of one of the loops runs out. -/
  | limit {limit : ℤ} {k : ℕ} : Ends opts model (.error (.iterationLimit limit k))

variable {opts : Options ℚ} {model : Model ℚ}

/-- **Pivoting on a valid model ends in one of these ways.** -/
theorem ends_pivotToEnd (observer : Observer) (hvalid : model.Valid) (htol : 0 ≤ opts.tol)
    (hexact : opts.method = .revised → RevisedExact opts model) :
    Ends opts model (pivotToEnd observer opts (model.standardForm opts)).outcome := by
  obtain ⟨k, T, hleads, -, hout⟩ := exists_leads_iterateTableau observer hvalid htol
  rw [outcome_pivotToEnd, outcome_iterate hvalid htol hexact, hout]
  unfold Tableau.verdict
  cases hmove : T.nextMove opts.tol opts.rule with
  | optimal => exact .optimum hleads hmove
  | pivot row col => exact .limit
  | ray col =>
    dsimp only
    split
    · rename_i hempty
      exact .ray hleads hmove (List.isEmpty_iff.mp hempty)
    · -- there are artificial columns: phase one decides between a gap and the ray
      rename_i hnonempty
      have hsome : (model.standardForm opts).artificials ≠ [] := fun hnone =>
        hnonempty (List.isEmpty_iff.mpr hnone)
      obtain ⟨k₁, T₁, hleads₁, ⟨hok, hstop⟩ | hlimit⟩ := exists_leads_phaseOneLoop opts
        opts.maxIters.toNat 0 (model.standardForm opts).phaseOneTableau
      · rw [outcome_phaseOneGap, hok]
        change Ends opts model (if feasibilityTolerance < max 0 (-T₁.objectiveValue) then _ else _)
        split
        · rename_i hgap
          exact .gap hsome hleads hmove hleads₁ hstop hgap
        · rename_i hgap
          exact .cleared hsome hleads hmove hleads₁ hstop (not_lt.mp hgap)
      · rw [outcome_phaseOneGap, hlimit]
        exact .limit

end Simplex

/-! ## Certificates -/

namespace StandardForm

variable (form : StandardForm ℚ)

/-- **The columns are a basis of the standard form**: as many as there are rows, and independent. -/
structure IsBasis (basis : List ℕ) : Prop where
  length_eq : basis.length = form.height
  nodup : basis.Nodup
  lt_width : ∀ j ∈ basis, j < form.width
  independent : ∀ d : List ℚ, form.rows.mulVec d = zeros form.height →
    (∀ j, j ∉ basis → entry d j = 0) → ∀ j, entry d j = 0

/-- **The vector is the basic solution at a basis**: it meets the equations and is zero off the
basis. -/
structure BasicAt (basis : List ℕ) (y : List ℚ) : Prop where
  isBasis : form.IsBasis basis
  length_eq : y.length = form.width
  equations : form.rows.mulVec y = form.rhs
  off : ∀ j, j ∉ basis → entry y j = 0

/-- **The vector is the direction along a column at a basis**: it keeps the equations, and is one in
the column and zero off the column and the basis. None of its entries is below `-tol`. -/
structure RayAt (tol : ℚ) (basis : List ℕ) (col : ℕ) (d : List ℚ) : Prop where
  isBasis : form.IsBasis basis
  length_eq : d.length = form.width
  equations : form.rows.mulVec d = zeros form.height
  self : entry d col = 1
  off : ∀ j, j ≠ col → j ∉ basis → entry d j = 0
  le : ∀ j, -tol ≤ entry d j

end StandardForm

theorem StandardForm.RayAt.lt_width {form : StandardForm ℚ} {tol : ℚ} {basis : List ℕ} {col : ℕ}
    {d : List ℚ} (h : form.RayAt tol basis col d) : col < form.width := by
  by_contra hout
  have hone := h.self
  rw [entry_of_length_le (by rw [h.length_eq]; omega)] at hone
  exact zero_ne_one hone

namespace Tableau.Canonical

variable {opts : Options ℚ} {model : Model ℚ} {T : Tableau ℚ} {costs : List ℚ}
  {hcosts : costs.length = model.formWidth}

/-- The equations of a tableau are the rows of the standard form. -/
theorem entry_mulVec_rows (hcosts : costs.length = model.formWidth) (x : List ℚ) {i : ℕ}
    (hi : i < (Model.equations opts model costs hcosts).height) :
    entry ((model.standardForm opts).rows.mulVec x) i =
      ∑ j ∈ range (Model.equations opts model costs hcosts).width,
        (model.standardForm opts).rows.cell i j * entry x j := by
  refine Dense.entry_mulVec (fun row hmem => ?_) hi x
  rw [Model.length_row_standardForm opts hmem, Model.width_equations]

/-- The basis of a canonical tableau is one of the standard form. -/
theorem isBasis (h : T.Canonical (Model.equations opts model costs hcosts)) :
    (model.standardForm opts).IsBasis T.basis where
  length_eq := h.basis_length
  nodup := h.basis_nodup
  lt_width := fun j hj => by
    rw [Model.width_standardForm, ← Model.width_equations opts hcosts]
    exact h.basis_lt j hj
  independent := fun d hd hoff => by
    refine h.entry_eq_zero_of_kernel (fun k hk => ?_) hoff
    have hentry := entry_mulVec_rows hcosts d hk
    rw [hd, entry_zeros] at hentry
    exact hentry.symm

theorem basicAt (h : T.Canonical (Model.equations opts model costs hcosts)) :
    (model.standardForm opts).BasicAt T.basis T.primalValues where
  isBasis := h.isBasis
  length_eq := by rw [h.length_primalValues, Model.width_equations, Model.width_standardForm]
  equations := h.solves_primalValues
  off := fun _ hj => h.entry_primalValues_of_notMem hj

theorem rayAt (h : T.Canonical (Model.equations opts model costs hcosts)) {tol : ℚ}
    {rule : PivotRule} {col : ℕ} (htol : 0 ≤ tol)
    (hmove : T.nextMove tol rule = .ray col) :
    (model.standardForm opts).RayAt tol T.basis col (T.ray col) := by
  obtain ⟨hcol, hneg, hle⟩ := h.ray_of_nextMove hmove
  have hneg' : T.cell (Model.equations opts model costs hcosts).height col < 0 := by linarith
  refine ⟨h.isBasis, ?_, ?_, h.entry_ray_self hcol hneg',
    fun j hj hbasis => h.entry_ray_of_notMem hj hbasis,
    fun j => h.le_entry_ray htol hcol hneg' hle j⟩
  · rw [h.length_ray, Model.width_equations, Model.width_standardForm]
  · refine eq_of_entry_eq (by rw [Dense.length_mulVec, length_zeros]; rfl) fun i hi => ?_
    rw [Dense.length_mulVec] at hi
    rw [entry_mulVec_rows hcosts _ hi, entry_zeros]
    exact h.sum_row_ray hcol hneg' hi

end Tableau.Canonical

/-! ## The start -/

section Start

variable {opts : Options ℚ} {model : Model ℚ}

/-- No right-hand side of a tableau at the start is negative, whatever the costs are. -/
theorem cell_start_nonneg {costs : List ℚ} (hcosts : costs.length = model.formWidth)
    (names : List String) {i : ℕ} (hi : i < (model.equations opts costs hcosts).height) :
    0 ≤ ((model.equations opts costs hcosts).tableau (model.standardForm opts).basis names).cell i
      (model.equations opts costs hcosts).width := by
  rw [cell_initial _ _ _ hi, (model.equations opts costs hcosts).cell_augmented_width hi]
  exact entry_nonneg (Model.nonneg_of_mem_rhs_standardForm opts) i

/-- The basic solution at the start is not negative. -/
theorem start_nonneg : ∀ a ∈ (model.standardForm opts).tableau.primalValues, 0 ≤ a := by
  have h := model.canonical_standardForm_tableau opts
  exact h.primalValues_nonneg_iff.mpr fun i hi =>
    cell_start_nonneg (model.length_costs_standardForm opts) _ hi

/-- Nor is that at the start of phase one. -/
theorem phaseOne_start_nonneg :
    ∀ a ∈ (model.standardForm opts).phaseOneTableau.primalValues, 0 ≤ a := by
  have h := model.canonical_phaseOneTableau opts
  rw [h.primalValues_nonneg_iff, Model.phaseOneTableau_eq]
  exact fun i hi => cell_start_nonneg (Model.length_phaseOneCosts opts) _ hi

end Start

/-! ## The artificial columns -/

/-- The artificial total of the basic solution is what phase one leaves of it. -/
theorem artificialTotal_primalValues {opts : Options ℚ} {model : Model ℚ} {T : Tableau ℚ}
    (h : T.Canonical (model.phaseOne opts)) :
    (model.standardForm opts).artificialTotal T.primalValues = -T.objectiveValue := by
  have hvalue :
      dot (Model.phaseOneCosts opts model) T.primalValues = T.objectiveValue := h.dot_primalValues
  rw [← hvalue, Model.dot_phaseOneCosts, neg_neg]

/-- A level above a bound that is not negative is the entry of an artificial column. -/
theorem exists_of_lt_artificialLevel {artificials : List ℕ} {x : List ℚ} {bound : ℚ}
    (hbound : 0 ≤ bound)
    (h : bound < artificialLevel artificials x) : ∃ k ∈ artificials, bound < entry x k := by
  unfold artificialLevel at h
  split at h
  · exact absurd h (not_lt.mpr hbound)
  · rename_i first rest hmap
    have hmem : rest.foldl Scalar.larger first ∈ artificials.map (entry x) := by
      rw [hmap]
      refine foldl_mem_cons (fun a b => ?_) rest first
      unfold Scalar.larger
      split
      · exact .inr rfl
      · exact .inl rfl
    obtain ⟨k, hk, hentry⟩ := List.mem_map.mp hmem
    exact ⟨k, hk, hentry ▸ h⟩

/-- No artificial column is above the level. -/
theorem entry_le_artificialLevel {artificials : List ℕ} {k : ℕ} (hk : k ∈ artificials)
    (x : List ℚ) : entry x k ≤ artificialLevel artificials x := by
  have hfold : ∀ (rest : List ℚ) (first : ℚ), first ≤ rest.foldl Scalar.larger first ∧
      ∀ a ∈ rest, a ≤ rest.foldl Scalar.larger first := by
    intro rest
    induction rest with
    | nil => simp
    | cons b rest ih =>
      intro first
      obtain ⟨hfirst, hrest⟩ := ih (Scalar.larger first b)
      rw [larger_eq_max] at hfirst hrest
      rw [List.foldl_cons, larger_eq_max]
      refine ⟨(le_max_left _ _).trans hfirst, fun a ha => ?_⟩
      rcases List.mem_cons.mp ha with rfl | ha
      · exact (le_max_right _ _).trans hfirst
      · exact hrest a ha
  have hmem := List.mem_map_of_mem (f := entry x) hk
  unfold artificialLevel
  split
  · rename_i hnil
    rw [hnil] at hmem
    simp at hmem
  · rename_i first rest hcons
    rw [hcons] at hmem
    rcases List.mem_cons.mp hmem with heq | hrest
    · exact heq.trans_le (hfold rest first).1
    · exact (hfold rest first).2 _ hrest

theorem feasibilityTolerance_nonneg : (0 : ℚ) ≤ feasibilityTolerance := by
  norm_num [feasibilityTolerance]

/-- The level that a run reads at its last tableau is the entry of an artificial column of the basic
solution: clearing negligible values does not raise one. -/
theorem exists_of_lt_level {opts : Options ℚ} {model : Model ℚ} {T : Tableau ℚ} {k : ℕ}
    (h : T.Canonical (model.penalised opts))
    (hlevel : feasibilityTolerance < artificialLevel (model.standardForm opts).artificials
      (Simplex.columnValues opts (model.standardForm opts) ⟨T.basis, T.rhs, k⟩)) :
    ∃ j ∈ (model.standardForm opts).artificials, feasibilityTolerance < entry T.primalValues j := by
  obtain ⟨j, hj, hlt⟩ := exists_of_lt_artificialLevel feasibilityTolerance_nonneg hlevel
  refine ⟨j, hj, ?_⟩
  have hvalues :
      scatter (zeros (model.standardForm opts).width) (T.basis.zip T.rhs) = T.primalValues :=
    h.primalValues_eq.symm
  rw [Simplex.columnValues, hvalues, entry_map (by simp)] at hlt
  split at hlt
  · exact absurd hlt (not_lt.mpr feasibilityTolerance_nonneg)
  · exact hlt

end LinOpt
