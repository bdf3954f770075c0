import LinOpt.Proofs.Integer.Bounds
import LinOpt.Proofs.Simplex.Agreement
import LinOpt.Proofs.Tableau.FromBasis
/-!
# The basis at the end of a run

A loop that answers has walked to its last basis (`exists_leads_of_tableauLoop`,
`exists_revisedLeads_of_revisedLoop`). Whatever the tolerances are, and whether or not the entries
that a run pivots on are zero, it ends with as many basic columns as there are rows, all of them
columns of the form (`fits_of_run`) and no two of them the same (`nodup_of_run`). So an exact inverse
of the basic columns is all it takes for a canonical tableau at that basis
(`exists_canonical_of_inverts`). The revised method has inverted the basic columns it ends with
(`exists_inverse_of_revised`).
-/

namespace LinOpt

open Finset

variable {opts : Options ℚ} {model : Model ℚ} {form : StandardForm ℚ} {observer : Observer}
  {terminal : Terminal ℚ} {rule : PivotRule} {tol : ℚ} {row col : ℕ}

/-! ## Bases that fit -/

/-- There is a basic column for each row, and it is a column of the form. -/
structure StandardForm.Fits (form : StandardForm ℚ) (basis : List ℕ) : Prop where
  length_eq : basis.length = form.height
  lt_width : ∀ k ∈ basis, k < form.width

/-- Another column enters. -/
theorem StandardForm.Fits.set {basis : List ℕ} (h : form.Fits basis) (row : ℕ)
    (hcol : col < form.width) : form.Fits (basis.set row col) where
  length_eq := by rw [List.length_set, h.length_eq]
  lt_width := by
    intro k hk
    rcases List.mem_or_eq_of_mem_set hk with hold | rfl
    · exact h.lt_width k hold
    · exact hcol

theorem Model.fits_standardForm (opts : Options ℚ) (model : Model ℚ) :
    (model.standardForm opts).Fits (model.standardForm opts).basis where
  length_eq := (length_basis_standardForm opts).trans (height_standardForm opts).symm
  lt_width := fun k hk => by
    rw [width_standardForm]
    exact basis_lt_formWidth opts hk

/-! ## The tableau method -/

/-- A tableau of the size of the form, at a basis that fits. -/
structure Tableau.Sized (T : Tableau ℚ) (form : StandardForm ℚ) : Prop where
  height : T.matrix.length = form.height + 1
  width : ∀ row ∈ T.matrix, row.length = form.width + 1
  fits : form.Fits T.basis

namespace Tableau.Sized

variable {T : Tableau ℚ} (h : T.Sized form)

include h

theorem columnCount_eq : T.columnCount = form.width := by
  have hne : T.matrix ≠ [] := List.ne_nil_of_length_pos (by rw [h.height]; omega)
  obtain ⟨first, rest, hmatrix⟩ := List.exists_cons_of_ne_nil hne
  have hfirst := h.width first (by rw [hmatrix]; exact List.mem_cons_self)
  rw [Tableau.columnCount, hmatrix, List.headD_cons, hfirst]
  rfl

/-- A pivot on any entry keeps the size. -/
theorem pivot (hrow : row < form.height) (hcol : col < form.width) :
    (T.pivot row col).Sized form where
  height := by simpa [Tableau.pivot, cleanColumn] using h.height
  width := by
    intro r hr
    obtain ⟨i, hi, rfl⟩ := List.getElem_of_mem hr
    have hi' : i < T.matrix.length := by simpa [Tableau.pivot, cleanColumn] using hi
    have hlength := h.width _ (Dense.rowAt_mem hi')
    have hpivot := h.width _ (Dense.rowAt_mem (i := row) (by rw [h.height]; omega))
    rw [← Dense.rowAt_eq_getElem hi, rowAt_pivot hi', List.length_set]
    split_ifs
    · rw [List.length_map, hpivot]
    · exact hlength
    · rw [length_subScaled, List.length_map, hlength, hpivot, min_self]
  fits := h.fits.set row hcol

/-- The next pivot is within the tableau. -/
theorem lt_of_nextMove (hmove : T.nextMove tol rule = .pivot row col) :
    row < form.height ∧ col < form.width := by
  unfold Tableau.nextMove at hmove
  split at hmove
  · cases hmove
  · rename_i entering hentering
    split at hmove
    · cases hmove
    · rename_i leaving hleaving
      cases hmove
      have hcol := (entry_lt_of_chooseEntering_eq_some hentering).1
      have hrow := (lt_entry_of_chooseLeaving_eq_some hleaving).1
      rw [Tableau.reducedCosts, List.length_take, h.columnCount_eq] at hcol
      rw [Tableau.column, Dense.length_column, Tableau.constraintRows, List.length_take,
        Tableau.rowCount, h.height] at hrow
      omega

end Tableau.Sized

/-- What a sized tableau walks to is sized. -/
theorem Tableau.Sized.leads {T T' : Tableau ℚ} {k : ℕ} (h : T.Sized form)
    (hleads : Leads tol rule T k T') : T'.Sized form := by
  induction hleads with
  | refl => exact h
  | step hmove _ ih =>
    obtain ⟨hrow, hcol⟩ := h.lt_of_nextMove hmove
    exact ih (h.pivot hrow hcol)

/-- **The tableau loop has walked to the basis that it answers with**, and found it optimal. -/
theorem exists_leads_of_tableauLoop {T : Tableau ℚ} {budget made : ℕ}
    (hend : (tableauLoop observer opts budget made T).outcome = .ok terminal) :
    ∃ k T', Tableau.Leads opts.tol opts.rule T k T' ∧
      T'.nextMove opts.tol opts.rule = .optimal ∧ terminal.basis = T'.basis := by
  induction budget using Nat.strong_induction_on generalizing made T with
  | _ budget ih =>
    unfold tableauLoop at hend
    split at hend
    · rename_i hmove
      obtain rfl := Except.ok.inj hend
      exact ⟨0, T, .refl T, hmove, rfl⟩
    · rw [Traced.outcome_bind] at hend
      obtain ⟨name, -, hthrow⟩ := exists_of_bind_eq_ok hend
      cases hthrow
    · rename_i row col hmove
      cases budget with
      | zero => cases hend
      | succ budget =>
        simp only [Traced.outcome_bind] at hend
        obtain ⟨leaving, -, hend⟩ := exists_of_bind_eq_ok hend
        obtain ⟨entering, -, hend⟩ := exists_of_bind_eq_ok hend
        obtain ⟨-, -, hend⟩ := exists_of_bind_eq_ok hend
        obtain ⟨-, -, hend⟩ := exists_of_bind_eq_ok hend
        obtain ⟨k, T', hleads, hoptimal, hbasis⟩ := ih budget (Nat.lt_succ_self _) hend
        exact ⟨k + 1, T', .step hmove hleads, hoptimal, hbasis⟩

/-! ## The revised method -/

section Revised

variable {basis basis' : List ℕ} {snapshot : Snapshot ℚ}

theorem length_reduced_of_snapshot (h : form.snapshot basis = .ok snapshot) :
    snapshot.reduced.length = form.width := by
  obtain ⟨inverse, -, h⟩ := exists_of_bind_eq_ok h
  obtain rfl := Except.ok.inj h
  simp [StandardForm.width]

/-- A basic column has no reduced cost. -/
theorem entry_reduced_of_snapshot (h : form.snapshot basis = .ok snapshot) {k : ℕ}
    (hk : k ∈ basis) : entry snapshot.reduced k = 0 := by
  obtain ⟨inverse, -, h⟩ := exists_of_bind_eq_ok h
  obtain rfl := Except.ok.inj h
  exact entry_scatter_zero hk _

/-- The column that enters has a reduced cost below `-tol`. -/
theorem Snapshot.lt_of_nextMove (h : snapshot.nextMove form basis tol rule = .pivot row col) :
    col < snapshot.reduced.length ∧ entry snapshot.reduced col < -tol := by
  unfold Snapshot.nextMove at h
  split at h
  · cases h
  · rename_i entering hentering
    split at h
    · cases h
    · cases h
      exact entry_lt_of_chooseEntering_eq_some hentering

/-- A basis that fits leads to bases that fit. -/
theorem StandardForm.Fits.leads {k : ℕ} (h : form.Fits basis)
    (hleads : RevisedLeads form tol rule basis k basis') : form.Fits basis' := by
  induction hleads with
  | refl => exact h
  | @step _ _ _ _ row _ hsnapshot hmove _ ih =>
    have hcol := (Snapshot.lt_of_nextMove hmove).1
    rw [length_reduced_of_snapshot hsnapshot] at hcol
    exact ih (h.set row hcol)

/-- **The revised loop has walked to the basis that it answers with**, and found it optimal. -/
theorem exists_revisedLeads_of_revisedLoop {budget made : ℕ}
    (hend : (revisedLoop observer opts form budget made basis).outcome = .ok terminal) :
    ∃ k snapshot, RevisedLeads form opts.tol opts.rule basis k terminal.basis ∧
      form.snapshot terminal.basis = .ok snapshot ∧
      snapshot.nextMove form terminal.basis opts.tol opts.rule = .optimal := by
  induction budget using Nat.strong_induction_on generalizing made basis with
  | _ budget ih =>
    unfold revisedLoop at hend
    simp only [Traced.outcome_bind] at hend
    obtain ⟨snapshot, hsnapshot, hend⟩ := exists_of_bind_eq_ok hend
    obtain ⟨names, -, hend⟩ := exists_of_bind_eq_ok hend
    obtain ⟨-, -, hend⟩ := exists_of_bind_eq_ok hend
    obtain ⟨-, -, hend⟩ := exists_of_bind_eq_ok hend
    split at hend
    · rename_i hmove
      obtain rfl := Except.ok.inj hend
      exact ⟨0, snapshot, .refl basis, hsnapshot, hmove⟩
    · rw [Traced.outcome_bind] at hend
      obtain ⟨name, -, hthrow⟩ := exists_of_bind_eq_ok hend
      cases hthrow
    · rename_i row col hmove
      cases budget with
      | zero => cases hend
      | succ budget =>
        simp only [Traced.outcome_bind] at hend
        obtain ⟨leaving, -, hend⟩ := exists_of_bind_eq_ok hend
        obtain ⟨entering, -, hend⟩ := exists_of_bind_eq_ok hend
        obtain ⟨-, -, hend⟩ := exists_of_bind_eq_ok hend
        obtain ⟨k, last, hleads, hlast, hoptimal⟩ := ih budget (Nat.lt_succ_self _) hend
        exact ⟨k + 1, last, .step hsnapshot hmove hleads, hlast, hoptimal⟩

end Revised

/-! ## No column is basic twice -/

section Idle

variable {T T' : Tableau ℚ} {basis basis' : List ℕ} {k : ℕ}

/-- With a tolerance below zero a reduced cost of zero is an improvement. -/
theorem entry_ne_zero_of_optimal (htol : tol < 0) {reduced : List ℚ}
    (h : chooseEntering reduced tol rule = none) {j : ℕ} (hj : j < reduced.length) :
    entry reduced j ≠ 0 := by
  intro hzero
  have hle := le_entry_of_chooseEntering_eq_none h hj
  linarith

theorem Snapshot.chooseEntering_of_nextMove_optimal {snapshot : Snapshot ℚ}
    (h : snapshot.nextMove form basis tol rule = .optimal) :
    chooseEntering snapshot.reduced tol rule = none := by
  unfold Snapshot.nextMove at h
  split at h
  · assumption
  · split at h <;> cases h

/-- A column that has just entered has no reduced cost. -/
theorem Tableau.Sized.entry_reducedCosts_pivot (h : T.Sized form) (hrow : row < form.height)
    (hcol : col < form.width) : entry (T.pivot row col).reducedCosts col = 0 := by
  have hnext := h.pivot hrow hcol
  have hlast : form.height < T.matrix.length := by rw [h.height]; omega
  have hrowCount : (T.pivot row col).rowCount = form.height := by
    rw [Tableau.rowCount, hnext.height]
    rfl
  rw [Tableau.reducedCosts, hnext.columnCount_eq, entry_take hcol, Tableau.objectiveRow, hrowCount]
  change (T.pivot row col).matrix.cell form.height col = 0
  have hne : form.height ≠ row := by omega
  rw [Dense.cell, Tableau.rowAt_pivot hlast, if_neg hne, if_neg hne]
  refine (entry_set _ ?_ _).trans (if_pos rfl)
  have hobjective := h.width _ (Dense.rowAt_mem hlast)
  have hpivot := h.width _ (Dense.rowAt_mem (i := row) (by rw [h.height]; omega))
  split
  · omega
  · rw [length_subScaled, List.length_map]
    omega

/-- A column without a reduced cost is left idle by every walk that begins with one. -/
theorem Tableau.Sized.exists_idle (h : T.Sized form) (hidle : ∃ j < form.width,
    entry T.reducedCosts j = 0) (hleads : Leads tol rule T k T') :
    ∃ j < form.width, entry T'.reducedCosts j = 0 := by
  induction hleads with
  | refl => exact hidle
  | step hmove _ ih =>
    obtain ⟨hrow, hcol⟩ := h.lt_of_nextMove hmove
    exact ih (h.pivot hrow hcol) ⟨_, hcol, h.entry_reducedCosts_pivot hrow hcol⟩

theorem Tableau.Sized.length_reducedCosts (h : T.Sized form) :
    T.reducedCosts.length = form.width := by
  have hrowCount : T.rowCount = form.height := by
    rw [Tableau.rowCount, h.height]
    rfl
  have hlast := h.width _ (Dense.rowAt_mem (i := form.height) (by rw [h.height]; omega))
  rw [Tableau.reducedCosts, List.length_take, h.columnCount_eq, Tableau.objectiveRow, hrowCount]
  change min form.width (T.matrix.rowAt form.height).length = _
  omega

/-- **The tableau method ends with no column basic twice.** -/
theorem nodup_of_leads {E : Equations} (hT : T.Canonical E) (hsized : T.Sized form)
    (hheight : E.height = form.height) (hwidth : E.width = form.width)
    (hleads : Tableau.Leads tol rule T k T') (hoptimal : T'.nextMove tol rule = .optimal) :
    T'.basis.Nodup := by
  by_cases htol : 0 ≤ tol
  · exact (hT.leads htol hleads).basis_nodup
  · -- a tolerance below zero calls no tableau with a basic column optimal
    cases hbasis : T'.basis with
    | nil => exact List.nodup_nil
    | cons first rest =>
      have hpos : 0 < E.height := by
        rw [hheight, ← (hsized.leads hleads).fits.length_eq, hbasis]
        simp
      have hfirst := hT.basic_lt hpos
      obtain ⟨j, hj, hzero⟩ := hsized.exists_idle
        ⟨T.basic 0, hwidth ▸ hfirst, (hT.entry_reducedCosts hfirst).trans
          (hT.reduced_basic ⟨0, hpos⟩)⟩ hleads
      exact absurd hzero (entry_ne_zero_of_optimal (not_le.mp htol)
        (Tableau.chooseEntering_of_nextMove_optimal hoptimal)
        ((hsized.leads hleads).length_reducedCosts.symm ▸ hj))

/-- **The revised method ends with no column basic twice.** -/
theorem nodup_of_revisedLeads {snapshot : Snapshot ℚ} (hfits : form.Fits basis)
    (hnodup : basis.Nodup) (hleads : RevisedLeads form tol rule basis k basis')
    (hsnapshot : form.snapshot basis' = .ok snapshot)
    (hoptimal : snapshot.nextMove form basis' tol rule = .optimal) : basis'.Nodup := by
  by_cases htol : 0 ≤ tol
  · clear hsnapshot hoptimal
    induction hleads with
    | refl => exact hnodup
    | step hmet hmove _ ih =>
      -- the column that enters has a reduced cost, so it is not basic yet
      obtain ⟨hcol, hneg⟩ := Snapshot.lt_of_nextMove hmove
      refine ih (hfits.set _ (length_reduced_of_snapshot hmet ▸ hcol)) (hnodup.set fun hmem => ?_)
      rw [entry_reduced_of_snapshot hmet hmem] at hneg
      linarith
  · cases hbasis : basis' with
    | nil => exact List.nodup_nil
    | cons first rest =>
      have hmem : first ∈ basis' := by rw [hbasis]; exact List.mem_cons_self
      refine absurd (entry_reduced_of_snapshot hsnapshot hmem) (entry_ne_zero_of_optimal
        (not_le.mp htol) (Snapshot.chooseEntering_of_nextMove_optimal hoptimal) ?_)
      rw [length_reduced_of_snapshot hsnapshot]
      exact (hfits.leads hleads).lt_width _ hmem

end Idle

/-! ## Inverses -/

namespace Dense

variable {α : Type} [Scalar α]

theorem length_eliminate {rows next : Dense α} {i : ℕ} (h : eliminate rows i = .ok next) :
    next.length = rows.length := by
  unfold eliminate at h
  split at h
  · obtain rfl := Except.ok.inj h
    rfl
  · split at h
    · cases h
    · obtain rfl := Except.ok.inj h
      simp only [clearColumn, normalizeRow, swapRows, List.length_mapIdx, List.length_set]
      split <;> simp

/-- **An inverse has a row for each row of the matrix.** -/
theorem length_inverse {A X : Dense α} (h : inverse A = .ok X) : X.length = A.length := by
  obtain ⟨rows, hrows, h⟩ := exists_of_bind_eq_ok h
  obtain rfl := Except.ok.inj h
  have hrounds : ∀ (rounds : List ℕ) (start : Dense α), rounds.foldlM eliminate start = .ok rows →
      rows.length = start.length := by
    intro rounds
    induction rounds with
    | nil =>
      intro start hstart
      obtain rfl := Except.ok.inj hstart
      rfl
    | cons i rounds ih =>
      intro start hstart
      rw [List.foldlM_cons] at hstart
      obtain ⟨next, hnext, hrest⟩ := exists_of_bind_eq_ok hstart
      rw [ih next hrest, length_eliminate hnext]
  rw [List.length_map, hrounds _ _ hrows]
  simp [identity]

end Dense

/-! ## Runs -/

namespace Simplex

variable {done : Run ℚ} {basis : List ℕ}

/-- A terminal basis is that of the pivoting loop. -/
theorem outcome_iterate_of_pivotToEnd
    (h : (pivotToEnd observer opts form).outcome = .ok terminal) :
    (iterate observer opts form).outcome = .ok terminal := by
  rw [outcome_pivotToEnd] at h
  cases hiterate : (iterate observer opts form).outcome with
  | ok last =>
    rw [hiterate] at h
    exact h
  | error cause =>
    rw [hiterate] at h
    cases cause
    case unbounded column pivots =>
      dsimp only at h
      split at h
      · cases h
      · obtain ⟨gap, -, h⟩ := exists_of_bind_eq_ok h
        split at h <;> cases h
    all_goals cases h

/-- **A run with a terminal basis** has read its answer off the end of the pivoting loop. -/
theorem exists_terminal_of_run (hvalid : model.Valid)
    (hrun : (run observer opts model).outcome = .ok done) (hbasis : done.basis = some basis) :
    ∃ terminal, (iterate observer opts (model.standardForm opts)).outcome = .ok terminal ∧
      terminal.basis = basis ∧ done = finished opts model (model.standardForm opts) terminal := by
  rw [outcome_run observer opts hvalid] at hrun
  obtain rfl := Except.ok.inj hrun
  cases hpivot : (pivotToEnd observer opts (model.standardForm opts)).outcome with
  | error cause =>
    rw [hpivot] at hbasis
    cases hbasis
  | ok terminal =>
    rw [hpivot] at hbasis
    exact ⟨terminal, outcome_iterate_of_pivotToEnd hpivot, Option.some.inj hbasis, rfl⟩

theorem sized_tableau (opts : Options ℚ) (model : Model ℚ) :
    (model.standardForm opts).tableau.Sized (model.standardForm opts) :=
  have hcanonical := model.canonical_standardForm_tableau opts
  ⟨hcanonical.height, hcanonical.width, model.fits_standardForm opts⟩

/-- **The terminal basis of a run fits its standard form.** -/
theorem fits_of_run (hvalid : model.Valid) (hrun : (run observer opts model).outcome = .ok done)
    (hbasis : done.basis = some basis) : (model.standardForm opts).Fits basis := by
  obtain ⟨terminal, hend, rfl, -⟩ := exists_terminal_of_run hvalid hrun hbasis
  unfold iterate at hend
  split at hend
  · rw [iterateTableau, Traced.outcome_bind] at hend
    obtain ⟨-, -, hend⟩ := exists_of_bind_eq_ok hend
    obtain ⟨k, T, hleads, -, hbasis⟩ := exists_leads_of_tableauLoop hend
    rw [hbasis]
    exact ((sized_tableau opts model).leads hleads).fits
  · obtain ⟨k, snapshot, hleads, -⟩ := exists_revisedLeads_of_revisedLoop hend
    exact (model.fits_standardForm opts).leads hleads

/-- **No column is basic twice at the end of a run.** -/
theorem nodup_of_run (hvalid : model.Valid) (hrun : (run observer opts model).outcome = .ok done)
    (hbasis : done.basis = some basis) : basis.Nodup := by
  obtain ⟨terminal, hend, rfl, -⟩ := exists_terminal_of_run hvalid hrun hbasis
  have hstart := model.canonical_standardForm_tableau opts
  unfold iterate at hend
  split at hend
  · rw [iterateTableau, Traced.outcome_bind] at hend
    obtain ⟨-, -, hend⟩ := exists_of_bind_eq_ok hend
    obtain ⟨k, T, hleads, hoptimal, hterminal⟩ := exists_leads_of_tableauLoop hend
    rw [hterminal]
    refine nodup_of_leads hstart (sized_tableau opts model) rfl ?_ hleads hoptimal
    rw [Model.width_penalised, Model.width_standardForm]
  · obtain ⟨k, snapshot, hleads, hsnapshot, hoptimal⟩ := exists_revisedLeads_of_revisedLoop hend
    exact nodup_of_revisedLeads (model.fits_standardForm opts) hstart.basis_nodup hleads hsnapshot
      hoptimal

/-- **The revised method has inverted the basic columns that it ends with.** -/
theorem exists_inverse_of_revised (hvalid : model.Valid) (hmethod : opts.method = .revised)
    (hrun : (run observer opts model).outcome = .ok done) (hbasis : done.basis = some basis) :
    ∃ inverse, Dense.inverse ((model.standardForm opts).rows.columns basis) = .ok inverse := by
  obtain ⟨terminal, hend, rfl, -⟩ := exists_terminal_of_run hvalid hrun hbasis
  unfold iterate at hend
  rw [hmethod] at hend
  obtain ⟨k, snapshot, -, hsnapshot, -⟩ := exists_revisedLeads_of_revisedLoop hend
  obtain ⟨inverse, hinverse, -⟩ := exists_of_bind_eq_ok hsnapshot
  exact ⟨inverse, hinverse⟩

end Simplex

/-! ## The tableau at a basis -/

namespace Tableau

variable {E : Equations} {basis : List ℕ} {X : Dense ℚ}

/-- **An exact inverse of the basic columns is all it takes for a canonical tableau** at a basis. -/
theorem exists_canonical_of_inverts (hX : X.Inverts (E.rows.columns basis) E.height)
    (hlength : basis.length = E.height) (hlt : ∀ k ∈ basis, k < E.width) :
    ∃ T : Tableau ℚ, T.Canonical E ∧ T.basis = basis := by
  have hheight := hX.height_times
  have hXlength : X.length = E.height := Dense.length_of_mul_eq_identity hX.left
  have hbasic : ∀ k < E.height, basis.getD k 0 < E.width := by
    intro k hk
    exact hlt _ (by simp [hlength ▸ hk])
  -- multiplied by the inverse, the basic columns are unit columns
  have hunit : ∀ i < E.height, ∀ k < E.height,
      (E.times X).rows.cell i (basis.getD k 0) = if i = k then 1 else 0 := by
    intro i hi k hk
    have hproduct := congrArg (fun A => Dense.cell A i k) hX.left
    rw [Dense.cell_identity hi hk, Dense.cell_mul (hXlength ▸ hi) hk] at hproduct
    change (Dense.mul E.width X E.rows).cell i (basis.getD k 0) = _
    rw [Dense.cell_mul (hXlength ▸ hi) (hbasic k hk), ← hproduct, Dense.length_columns]
    refine Finset.sum_congr rfl fun l hl => ?_
    rw [Dense.cell_columns (mem_range.mp hl) (hlength ▸ hk)]
  have htimes : ((E.times X).tableau basis []).Canonical (E.times X) :=
    canonical_initial _ _ (hlength.trans hheight.symm) hlt (by rw [hheight]; exact hunit)
  refine ⟨(E.times X).tableau basis [], canonical_of_range ?_ htimes.width hlength hlt
    (q := fun i k => X.cell i k) (fun i hi j => ?_) (fun i hi k hk => ?_) fun j => ?_, rfl⟩
  · rw [htimes.height, hheight]
  · rw [cell_initial _ _ _ (by rw [hheight]; exact hi), E.cell_augmented_times X (hXlength ▸ hi)]
  · exact htimes.unit_of_lt (by rw [hheight]; exact hi) (by rw [hheight]; exact hk)
  · have hobjective := htimes.objective_range j
    rw [hheight] at hobjective
    exact hobjective

end Tableau

end LinOpt
