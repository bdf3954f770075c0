import LinOpt.Proofs.Simplex.Outcome
/-!
# The two methods agree

The revised method recomputes from the inverse of the basic columns what the tableau method carries
along. Where the inverse is exact, the two are the same numbers: a snapshot mirrors the canonical
tableau of its basis (`Canonical.exists_mirror`), so both methods make the same move
(`Mirrors.nextMove_eq`). By induction on the moves they meet the same bases
(`revisedLeads_of_leads`, `exists_leads_of_revisedLeads`), and by induction on the budget their
loops answer the same (`outcome_revisedLoop_eq`). Everything after the loop is shared, so whole runs
agree (`Simplex.run_revised_agrees`).
-/

namespace LinOpt

open Finset Tableau

/-- **Inversion is exact on this matrix**: it answers with a matrix that is an inverse on both
sides. -/
def Dense.InvertsExactly (B : Dense ℚ) : Prop :=
  ∃ X, B.inverse = .ok X ∧ Dense.mul B.length X B = Dense.identity B.length ∧
    Dense.mul B.length B X = Dense.identity B.length

instance (B : Dense ℚ) : Decidable B.InvertsExactly :=
  match h : B.inverse with
  | .ok X =>
    decidable_of_iff (Dense.mul B.length X B = Dense.identity B.length ∧
        Dense.mul B.length B X = Dense.identity B.length)
      ⟨fun hX => ⟨X, h, hX⟩, fun ⟨_, hY, hX⟩ => Except.ok.inj (h.symm.trans hY) ▸ hX⟩
  | .error _ => isFalse fun ⟨_, hY, _⟩ => by simp [h] at hY

variable {opts : Options ℚ} {model : Model ℚ} {T : Tableau ℚ} {observer : Observer}

/-! ## A snapshot at an exact inverse -/

/-- The snapshot holds the numbers of the tableau. -/
structure Snapshot.Mirrors (snapshot : Snapshot ℚ) (form : StandardForm ℚ)
    (T : Tableau ℚ) : Prop where
  basics : snapshot.basics = T.rhs
  reduced : snapshot.reduced = T.reducedCosts
  direction : ∀ col < form.width, snapshot.direction form col = T.column col

/-- The snapshot that an inverse of the basic columns gives. -/
def Snapshot.ofInverse (form : StandardForm ℚ) (basis : List ℕ) (X : Dense ℚ) : Snapshot ℚ :=
  let prices := Dense.mulVec (Dense.transpose form.height X) (pick form.costs basis)
  { inverse := X
    basics := X.mulVec form.rhs
    prices
    reduced := scatter (List.zipWith (· - ·)
      (Dense.mulVec (Dense.transpose form.width form.rows) prices) form.costs)
      (basis.map (·, 0)) }

theorem StandardForm.snapshot_eq {form : StandardForm ℚ} {basis : List ℕ} {X : Dense ℚ}
    (h : (form.rows.columns basis).inverse = .ok X) :
    form.snapshot basis = .ok (Snapshot.ofInverse form basis X) := by
  rw [StandardForm.snapshot, h]
  rfl

/-- The prices of the rows that a matrix in place of the inverse gives. -/
def Equations.prices (E : Equations) (basis : List ℕ) (X : Dense ℚ) : List ℚ :=
  Dense.mulVec (Dense.transpose E.height X) (pick E.costs basis)

namespace Tableau.Canonical

section Exact

variable {E : Equations} {X : Dense ℚ} {i j : ℕ} (h : T.Canonical E)
  (hX : Dense.mul E.height X (E.rows.columns T.basis) = Dense.identity E.height)

include h hX

/-- A product of an exact inverse with a column of the augmented rows. -/
theorem mulVec_exact {v w : List ℚ} (hv : v.length = E.height)
    (hentry : ∀ k < E.height, entry v k = E.augmented.cell k j) (hw : w.length = E.height)
    (hcell : ∀ i < E.height, entry w i = T.cell i j) : X.mulVec v = w := by
  have hlength := Dense.length_of_mul_eq_identity hX
  refine eq_of_entry_eq (by rw [Dense.length_mulVec, hlength, hw]) fun i hi => ?_
  rw [Dense.length_mulVec] at hi
  have hi' : i < E.height := hlength ▸ hi
  rw [Dense.entry_mulVec_of_length_le (le_of_eq hv) hi, hcell i hi', h.cell_eq_sum_of_exact hX hi']
  refine Finset.sum_congr rfl fun k hk => ?_
  rw [hentry k (mem_range.mp hk)]

/-- The right-hand sides over the basis are those of the tableau. -/
theorem mulVec_rhs : X.mulVec E.rhs = T.rhs :=
  h.mulVec_exact hX E.rhs_length (fun _ hk => (E.cell_augmented_width hk).symm) h.length_rhs
    fun _ hi => h.entry_rhs hi

theorem entry_prices (hi : i < E.height) : entry (E.prices T.basis X) i =
    ∑ l ∈ range E.height, X.cell l i * entry E.costs (T.basic l) := by
  rw [Equations.prices,
    Dense.entry_mulVec_of_length_le (n := E.height) (by simp [h.basis_length]) (by simpa using hi)]
  refine Finset.sum_congr rfl fun l hl => ?_
  have hl' := mem_range.mp hl
  rw [Dense.cell_transpose hi (by rw [Dense.length_of_mul_eq_identity hX]; exact hl'),
    entry_pick _ (by rw [h.basis_length]; exact hl')]
  rfl

/-- The price of a row at an exact inverse, summed against a column, is the cost of the column over
the basis. -/
theorem sum_prices (hj : j < E.width) :
    ∑ i ∈ range E.height, E.rows.cell i j * entry (E.prices T.basis X) i =
      ∑ i : Fin E.height, entry E.costs (T.basic i) * T.cell i j := by
  calc ∑ i ∈ range E.height, E.rows.cell i j * entry (E.prices T.basis X) i
      = ∑ i ∈ range E.height, ∑ l ∈ range E.height,
          entry E.costs (T.basic l) * (X.cell l i * E.augmented.cell i j) := by
        refine Finset.sum_congr rfl fun i hi => ?_
        rw [h.entry_prices hX (mem_range.mp hi), Finset.mul_sum,
          E.cell_augmented (mem_range.mp hi) hj]
        refine Finset.sum_congr rfl fun l _ => ?_
        ring
    _ = ∑ l ∈ range E.height, entry E.costs (T.basic l) * T.cell l j := by
        rw [Finset.sum_comm]
        refine Finset.sum_congr rfl fun l hl => ?_
        rw [← Finset.mul_sum, h.cell_eq_sum_of_exact hX (mem_range.mp hl)]
    _ = ∑ i : Fin E.height, entry E.costs (T.basic i) * T.cell i j :=
        (Fin.sum_univ_eq_sum_range (fun l => entry E.costs (T.basic l) * T.cell l j) _).symm

/-- The reduced costs at an exact inverse are those of the tableau. -/
theorem reduced_exact :
    scatter (List.zipWith (· - ·)
      (Dense.mulVec (Dense.transpose E.width E.rows) (E.prices T.basis X))
      E.costs) (T.basis.map (·, 0)) = T.reducedCosts := by
  have hproduct : (Dense.mulVec (Dense.transpose E.width E.rows) (E.prices T.basis X)).length =
      E.costs.length := by
    rw [Dense.length_mulVec, Dense.length_transpose]
    rfl
  have hzip : (List.zipWith (· - ·) (Dense.mulVec (Dense.transpose E.width E.rows)
      (E.prices T.basis X)) E.costs).length = E.width := by
    rw [List.length_zipWith, hproduct, min_self]
    rfl
  refine eq_of_entry_eq (by rw [length_scatter, hzip, h.length_reducedCosts]) fun j hj => ?_
  rw [length_scatter, hzip] at hj
  rw [h.entry_reducedCosts hj]
  by_cases hbasic : j ∈ T.basis
  · -- zero is written at a basic column, and the tableau has a zero there
    obtain ⟨k, rfl⟩ := h.exists_of_mem_basis hbasic
    rw [h.reduced_basic k]
    exact entry_scatter_of_mem (by rw [keys_map_const]; exact h.basis_nodup)
      (by rw [hzip]; exact hj)
      (List.mem_map_of_mem hbasic)
  · rw [entry_scatter_of_notMem (by rw [keys_map_const]; exact hbasic), entry_zipWith_sub hproduct,
      Dense.entry_mulVec_of_length_le (n := E.height) (by simp [Equations.prices])
        (by simpa using hj), h.objective, ← h.sum_prices hX hj]
    congr 1
    refine Finset.sum_congr rfl fun i hi => ?_
    rw [Dense.cell_transpose hj (mem_range.mp hi)]

end Exact

/-- **A snapshot at an exact inverse mirrors the tableau of its basis.** -/
theorem exists_mirror (h : T.Canonical (model.penalised opts))
    (hexact : ((model.standardForm opts).rows.columns T.basis).InvertsExactly) :
    ∃ snapshot, (model.standardForm opts).snapshot T.basis = .ok snapshot ∧
      snapshot.Mirrors (model.standardForm opts) T := by
  obtain ⟨X, hinverse, hleft, -⟩ := hexact
  rw [Dense.length_columns] at hleft
  have hX : Dense.mul (model.penalised opts).height X
      ((model.penalised opts).rows.columns T.basis) =
        Dense.identity (model.penalised opts).height := hleft
  refine ⟨_, StandardForm.snapshot_eq hinverse, ?_, ?_, ?_⟩
  · exact h.mulVec_rhs hX
  · exact h.reduced_exact hX
  · intro col hcol
    have hcol' : col < (model.penalised opts).width := hcol
    refine h.mulVec_exact hX (Dense.length_column _ _) (j := col) (fun k hk => ?_)
      (h.length_column col) fun i hi => h.entry_column hi col
    rw [(model.penalised opts).cell_augmented hk hcol']
    exact Dense.entry_column hk col

end Tableau.Canonical

/-- **A mirrored tableau moves like its snapshot.** -/
theorem Snapshot.Mirrors.nextMove_eq {snapshot : Snapshot ℚ} {tol : ℚ} {rule : PivotRule}
    (hmirror : snapshot.Mirrors (model.standardForm opts) T)
    (h : T.Canonical (model.penalised opts)) :
    snapshot.nextMove (model.standardForm opts) T.basis tol rule = T.nextMove tol rule := by
  unfold Snapshot.nextMove Tableau.nextMove
  rw [hmirror.reduced, hmirror.basics]
  cases hentering : chooseEntering T.reducedCosts tol rule with
  | none => rfl
  | some col =>
    have hcol : col < (model.standardForm opts).width := by
      obtain ⟨hlt, -⟩ := entry_lt_of_chooseEntering_eq_some hentering
      rw [h.length_reducedCosts] at hlt
      exact hlt
    cases hleaving : chooseLeaving (T.column col) T.rhs T.basis tol rule with
    | none => simp only [hmirror.direction col hcol, hleaving]
    | some row => simp only [hmirror.direction col hcol, hleaving]

/-! ## The bases met -/

/-- The revised method gets from one basis to another by a number of exchanges. -/
inductive RevisedLeads (form : StandardForm ℚ) (tol : ℚ) (rule : PivotRule) :
    List ℕ → ℕ → List ℕ → Prop
  /-- No exchange leads nowhere else. -/
  | refl (basis : List ℕ) : RevisedLeads form tol rule basis 0 basis
  /-- The next move is a pivot, and the method goes on from there. -/
  | step {basis basis' : List ℕ} {snapshot : Snapshot ℚ} {k row col : ℕ} :
      form.snapshot basis = .ok snapshot → snapshot.nextMove form basis tol rule = .pivot row col →
      RevisedLeads form tol rule (basis.set row col) k basis' →
      RevisedLeads form tol rule basis (k + 1) basis'

/-- **Inversion is exact at every basis** that the revised method meets from this one within its
budget. -/
def ExactFrom (opts : Options ℚ) (model : Model ℚ) (basis : List ℕ) (budget : ℕ) : Prop :=
  ∀ k ≤ budget, ∀ basis', RevisedLeads (model.standardForm opts) opts.tol opts.rule basis k basis' →
    ((model.standardForm opts).rows.columns basis').InvertsExactly

theorem ExactFrom.here {basis : List ℕ} {budget : ℕ} (h : ExactFrom opts model basis budget) :
    ((model.standardForm opts).rows.columns basis).InvertsExactly :=
  h 0 (Nat.zero_le _) basis (.refl basis)

/-- What is exact from a tableau on is exact from the next one on. -/
theorem ExactFrom.move {budget row col : ℕ} (h : ExactFrom opts model T.basis (budget + 1))
    (hT : T.Canonical (model.penalised opts))
    (hmove : T.nextMove opts.tol opts.rule = .pivot row col) :
    ExactFrom opts model (T.pivot row col).basis budget := by
  intro k hk basis hleads
  obtain ⟨snapshot, hsnapshot, hmirror⟩ := hT.exists_mirror h.here
  refine h (k + 1) (by omega) basis (.step hsnapshot ?_ hleads)
  rw [hmirror.nextMove_eq hT, hmove]

/-- Follows the revised method and tries every inverse on the way. -/
def exactAlong (opts : Options ℚ) (model : Model ℚ) : ℕ → List ℕ → Bool
  | budget, basis =>
    decide ((model.standardForm opts).rows.columns basis).InvertsExactly &&
      match (model.standardForm opts).snapshot basis with
      | .error _ => true
      | .ok snapshot =>
        match snapshot.nextMove (model.standardForm opts) basis opts.tol opts.rule with
        | .pivot row col =>
          match budget with
          | 0 => true
          | budget + 1 => exactAlong opts model budget (basis.set row col)
        | _ => true

/-- **Whether inversion is exact on the way can be tried out.** -/
theorem exactFrom_of_exactAlong {budget : ℕ} {basis : List ℕ}
    (h : exactAlong opts model budget basis = true) :
    ExactFrom opts model basis budget := by
  intro k hk basis' hleads
  induction hleads generalizing budget with
  | refl basis =>
    unfold exactAlong at h
    exact of_decide_eq_true (Bool.and_eq_true_iff.mp h).1
  | step hsnapshot hmove _ ih =>
    obtain ⟨budget, rfl⟩ : ∃ b, budget = b + 1 := ⟨budget - 1, by omega⟩
    unfold exactAlong at h
    have hrest := (Bool.and_eq_true_iff.mp h).2
    rw [hsnapshot] at hrest
    dsimp only at hrest
    rw [hmove] at hrest
    exact ih hrest (by omega)

/-- The revised method meets the basis of every tableau that the tableau method meets. -/
theorem revisedLeads_of_leads {T' : Tableau ℚ} {k budget : ℕ}
    (hT : T.Canonical (model.penalised opts)) (htol : 0 ≤ opts.tol)
    (hexact : ExactFrom opts model T.basis budget) (hk : k ≤ budget)
    (hleads : Leads opts.tol opts.rule T k T') :
    RevisedLeads (model.standardForm opts) opts.tol opts.rule T.basis k T'.basis := by
  induction hleads generalizing budget with
  | refl T => exact .refl _
  | step hmove _ ih =>
    obtain ⟨budget, rfl⟩ : ∃ b, budget = b + 1 := ⟨budget - 1, by omega⟩
    obtain ⟨snapshot, hsnapshot, hmirror⟩ := hT.exists_mirror hexact.here
    -- the basis after the exchange is that of the pivoted tableau
    refine .step hsnapshot ((hmirror.nextMove_eq hT).trans hmove) ?_
    exact ih (hT.move htol hmove) (hexact.move hT hmove) (by omega)

/-- The tableau method meets a tableau at every basis that the revised method meets. -/
theorem exists_leads_of_revisedLeads {basis : List ℕ} {k budget : ℕ}
    (hT : T.Canonical (model.penalised opts)) (htol : 0 ≤ opts.tol)
    (hexact : ExactFrom opts model T.basis budget) (hk : k ≤ budget)
    (hleads : RevisedLeads (model.standardForm opts) opts.tol opts.rule T.basis k basis) :
    ∃ T', Leads opts.tol opts.rule T k T' ∧ T'.basis = basis := by
  -- on the number of exchanges, not on the walk: its start is the basis of a tableau
  induction k generalizing T budget with
  | zero =>
    cases hleads
    exact ⟨T, .refl T, rfl⟩
  | succ k ih =>
    obtain ⟨budget, rfl⟩ : ∃ b, budget = b + 1 := ⟨budget - 1, by omega⟩
    obtain ⟨mirror, hmirrored, hmirror⟩ := hT.exists_mirror hexact.here
    cases hleads with
    | step hsnapshot hpivot hrest =>
      obtain rfl := Except.ok.inj (hmirrored.symm.trans hsnapshot)
      have hmove := (hmirror.nextMove_eq hT).symm.trans hpivot
      obtain ⟨T', hleads, hbasis⟩ := ih (hT.move htol hmove) (hexact.move hT hmove) (by omega) hrest
      exact ⟨T', .step hmove hleads, hbasis⟩

/-! ## The loops -/

section Loops

variable {snapshot : Snapshot ℚ} {budget made row col : ℕ}

/-- The column names of the tableaux of a run. -/
def Tableau.NamedBy (T : Tableau ℚ) (form : StandardForm ℚ) : Prop :=
  T.names = form.columnNames ∧ form.width ≤ form.columnNames.length

theorem Tableau.NamedBy.columnName_eq (h : T.NamedBy (model.standardForm opts))
    (hcol : col < (model.penalised opts).width) :
    (model.standardForm opts).columnName col = .ok (T.names.getD col "") := by
  rw [h.1]
  exact position_get_eq (lt_of_lt_of_le hcol h.2) ""

theorem Tableau.NamedBy.le_length (h : T.NamedBy (model.standardForm opts)) :
    (model.penalised opts).width ≤ T.names.length := by
  rw [h.1]
  exact h.2

/-- What the revised loop does at a mirrored tableau, once it has shown its numbers. -/
theorem outcome_revisedLoop (hT : T.Canonical (model.penalised opts))
    (hnamed : T.NamedBy (model.standardForm opts))
    (hsnapshot : (model.standardForm opts).snapshot T.basis = .ok snapshot)
    (hmirror : snapshot.Mirrors (model.standardForm opts) T) :
    (revisedLoop observer opts (model.standardForm opts) budget made T.basis).outcome =
      match T.nextMove opts.tol opts.rule with
      | .pivot row col =>
        match budget with
        | 0 => T.verdict opts made
        | budget + 1 => (revisedLoop observer opts (model.standardForm opts) budget (made + 1)
            (T.pivot row col).basis).outcome
      | _ => T.verdict opts made := by
  have hlift : ((model.standardForm opts).snapshot T.basis : Traced ℚ (Snapshot ℚ)).outcome =
      .ok snapshot := hsnapshot
  have hnames : T.basis.mapM (model.standardForm opts).columnName =
      .ok (T.basis.map fun k => T.names.getD k "") :=
    mapM_eq_ok fun k hk => hnamed.columnName_eq (hT.basis_lt k hk)
  have hshown : snapshot.basics.length ≤ (T.basis.map fun k => T.names.getD k "").length := by
    rw [hmirror.basics, hT.length_rhs, List.length_map, hT.basis_length]
  -- what the loop shows before its move does not stop it
  unfold Tableau.verdict
  rw [revisedLoop, Traced.outcome_bind, hlift, ok_bind, Traced.outcome_bind,
    Traced.outcome_ofExcept, hnames, ok_bind, Traced.outcome_bind,
    outcome_vector _ fun _ => hshown, ok_bind, Traced.outcome_bind,
    outcome_vector _ (by simp), ok_bind, hmirror.nextMove_eq hT]
  cases hmove : T.nextMove opts.tol opts.rule with
  | optimal =>
    rw [hmirror.basics]
    rfl
  | ray col =>
    dsimp only
    rw [hnamed.columnName_eq ((hT.ray_of_nextMove hmove).1)]
    rfl
  | pivot row col =>
    obtain ⟨hrow, hcol, -⟩ := hT.pivot_of_nextMove hmove
    cases budget with
    | zero => rfl
    | succ budget =>
      have hleaving : (model.standardForm opts).columnName (T.basis.getD row 0) =
          .ok (T.names.getD (T.basic row) "") := hnamed.columnName_eq (hT.basic_lt hrow)
      dsimp only
      rw [hleaving, hnamed.columnName_eq hcol]
      change (observer.line _ >>= fun _ => _).outcome = _
      rw [Traced.outcome_bind, outcome_line]
      rfl

/-- **The two loops answer the same**, from a tableau and from its basis. -/
theorem outcome_revisedLoop_eq (hT : T.Canonical (model.penalised opts)) (htol : 0 ≤ opts.tol)
    (hnamed : T.NamedBy (model.standardForm opts)) (hexact : ExactFrom opts model T.basis budget)
    (made : ℕ) :
    (revisedLoop observer opts (model.standardForm opts) budget made T.basis).outcome =
      (tableauLoop observer opts budget made T).outcome := by
  induction budget generalizing T made with
  | zero =>
    obtain ⟨snapshot, hsnapshot, hmirror⟩ := hT.exists_mirror hexact.here
    rw [outcome_revisedLoop hT hnamed hsnapshot hmirror,
      outcome_tableauLoop_end hT hnamed.le_length fun _ _ _ => rfl]
    cases T.nextMove opts.tol opts.rule <;> rfl
  | succ budget ih =>
    obtain ⟨snapshot, hsnapshot, hmirror⟩ := hT.exists_mirror hexact.here
    rw [outcome_revisedLoop hT hnamed hsnapshot hmirror]
    cases hmove : T.nextMove opts.tol opts.rule with
    | pivot row col =>
      rw [outcome_tableauLoop_pivot hT hnamed.le_length htol hmove]
      exact ih (hT.move htol hmove) hnamed (hexact.move hT hmove) (made + 1)
    | optimal => exact (outcome_tableauLoop_end hT hnamed.le_length (by simp [hmove])).symm
    | ray col => exact (outcome_tableauLoop_end hT hnamed.le_length (by simp [hmove])).symm

end Loops

/-- **Inversion is exact at every basis that the revised method meets** on a model. -/
def RevisedExact (opts : Options ℚ) (model : Model ℚ) : Prop :=
  ExactFrom opts model (model.standardForm opts).basis opts.maxIters.toNat

theorem namedBy_standardForm (opts : Options ℚ) (hvalid : model.Valid) :
    (model.standardForm opts).tableau.NamedBy (model.standardForm opts) := by
  refine ⟨rfl, le_of_eq ?_⟩
  rw [Model.width_standardForm, Model.length_columnNames_standardForm opts hvalid.sized]

/-- **The two methods answer the same on a standard form.** -/
theorem outcome_iterateRevised_eq (hvalid : model.Valid) (htol : 0 ≤ opts.tol)
    (hexact : RevisedExact opts model) :
    (iterateRevised observer opts (model.standardForm opts)).outcome =
      (iterateTableau observer opts (model.standardForm opts)).outcome := by
  have hstart := model.canonical_standardForm_tableau opts
  have hnamed := namedBy_standardForm opts hvalid
  rw [iterateTableau, Traced.outcome_bind, hstart.outcome_display hnamed.le_length, ok_bind]
  exact outcome_revisedLoop_eq hstart htol hnamed hexact 0

/-- Either method answers what the tableau method does. -/
theorem Simplex.outcome_iterate (hvalid : model.Valid) (htol : 0 ≤ opts.tol)
    (hexact : opts.method = .revised → RevisedExact opts model) :
    (iterate observer opts (model.standardForm opts)).outcome =
      (iterateTableau observer opts (model.standardForm opts)).outcome := by
  unfold iterate
  cases hmethod : opts.method with
  | tableau => rfl
  | revised => exact outcome_iterateRevised_eq hvalid htol (hexact hmethod)

/-! ## Runs -/

/-- The tableau loop does not look at the chosen method. -/
theorem tableauLoop_method (method : Method) (budget made : ℕ) (T : Tableau ℚ) :
    tableauLoop observer { opts with method } budget made T =
      tableauLoop observer opts budget made T := by
  induction budget generalizing made T with
  | zero =>
    unfold tableauLoop
    rfl
  | succ budget ih =>
    unfold tableauLoop
    dsimp only
    cases T.nextMove opts.tol opts.rule with
    | pivot row col => simp only [ih]
    | optimal => rfl
    | ray col => rfl

/-- Nor does phase one. -/
theorem phaseOneLoop_method (method : Method) (budget made : ℕ) (T : Tableau ℚ) :
    phaseOneLoop { opts with method } budget made T = phaseOneLoop opts budget made T := by
  induction budget generalizing made T with
  | zero =>
    unfold phaseOneLoop
    rfl
  | succ budget ih =>
    unfold phaseOneLoop
    dsimp only
    cases T.nextMove opts.tol .bland with
    | pivot row col => exact ih _ _
    | optimal => rfl
    | ray col => rfl

theorem iterateTableau_method (method : Method) (form : StandardForm ℚ) :
    iterateTableau observer { opts with method } form = iterateTableau observer opts form := by
  unfold iterateTableau
  simp only [tableauLoop_method]

theorem phaseOneGap_method (method : Method) (form : StandardForm ℚ) :
    phaseOneGap observer { opts with method } form = phaseOneGap observer opts form := by
  unfold phaseOneGap
  simp only [phaseOneLoop_method]

namespace Simplex

theorem outcome_pivotToEnd_eq (hvalid : model.Valid) (htol : 0 ≤ opts.tol)
    (hexact : RevisedExact opts model) :
    (pivotToEnd observer { opts with method := .revised } (model.standardForm opts)).outcome =
      (pivotToEnd observer { opts with method := .tableau } (model.standardForm opts)).outcome := by
  have hiterate :
      (iterate observer { opts with method := .revised } (model.standardForm opts)).outcome =
      (iterate observer { opts with method := .tableau } (model.standardForm opts)).outcome := by
    change (iterateRevised observer { opts with method := .revised }
      (model.standardForm opts)).outcome =
      (iterateTableau observer { opts with method := .tableau } (model.standardForm opts)).outcome
    rw [iterateTableau_method, ← iterateTableau_method .revised]
    exact outcome_iterateRevised_eq hvalid htol hexact
  rw [outcome_pivotToEnd, outcome_pivotToEnd, hiterate, phaseOneGap_method .revised,
    phaseOneGap_method .tableau]

/-- Where inversion is exact, the two methods give the same run. -/
theorem outcome_run_eq (hvalid : model.Valid) (htol : 0 ≤ opts.tol)
    (hexact : RevisedExact opts model) :
    (run observer { opts with method := .revised } model).outcome =
      (run observer { opts with method := .tableau } model).outcome := by
  have hform :
      ∀ method, model.standardForm { opts with method } = model.standardForm opts := fun _ => rfl
  rw [outcome_run observer _ hvalid, outcome_run observer _ hvalid, hform, hform,
    outcome_pivotToEnd_eq hvalid htol hexact]
  rfl

/-- The tableau method is at this basis after `k` pivots, and this is its next move. -/
def TableauMoves (opts : Options ℚ) (form : StandardForm ℚ) (k : ℕ) (basis : List ℕ)
    (move : Move) : Prop :=
  ∃ T, Leads opts.tol opts.rule form.tableau k T ∧ T.basis = basis ∧
    T.nextMove opts.tol opts.rule = move

/-- The revised method is at this basis after `k` pivots, and this is its next move. -/
def RevisedMoves (opts : Options ℚ) (form : StandardForm ℚ) (k : ℕ) (basis : List ℕ)
    (move : Move) : Prop :=
  ∃ snapshot, RevisedLeads form opts.tol opts.rule form.basis k basis ∧
    form.snapshot basis = .ok snapshot ∧ snapshot.nextMove form basis opts.tol opts.rule = move

/-- Where inversion is exact, the two methods make the same moves. -/
theorem tableauMoves_iff_revisedMoves (htol : 0 ≤ opts.tol) (hexact : RevisedExact opts model)
    {k : ℕ} (hk : k ≤ opts.maxIters.toNat) (basis : List ℕ) (move : Move) :
    TableauMoves opts (model.standardForm opts) k basis move ↔
      RevisedMoves opts (model.standardForm opts) k basis move := by
  have hstart := model.canonical_standardForm_tableau opts
  constructor
  · rintro ⟨T, hleads, rfl, rfl⟩
    have hT := hstart.leads htol hleads
    have hrevised := revisedLeads_of_leads hstart htol hexact hk hleads
    obtain ⟨snapshot, hsnapshot, hmirror⟩ := hT.exists_mirror (hexact k hk T.basis hrevised)
    exact ⟨snapshot, hrevised, hsnapshot, hmirror.nextMove_eq hT⟩
  · rintro ⟨snapshot, hrevised, hsnapshot, rfl⟩
    obtain ⟨T, hleads, rfl⟩ := exists_leads_of_revisedLeads hstart htol hexact hk hrevised
    have hT := hstart.leads htol hleads
    obtain ⟨mirror, hmirrored, hmirror⟩ := hT.exists_mirror (hexact k hk T.basis hrevised)
    obtain rfl := Except.ok.inj (hmirrored.symm.trans hsnapshot)
    exact ⟨T, hleads, rfl, (hmirror.nextMove_eq hT).symm⟩

/-- **The two methods agree where inversion is exact**: they answer with the same run, and at every
iteration they are at the same basis and make the same move. -/
theorem run_revised_agrees (observer : Observer) (hvalid : model.Valid) (htol : 0 ≤ opts.tol)
    (hexact : RevisedExact opts model) :
    (∃ done, (run observer { opts with method := .tableau } model).outcome = .ok done ∧
      (run observer { opts with method := .revised } model).outcome = .ok done) ∧
    ∀ k ≤ opts.maxIters.toNat, ∀ basis move,
      TableauMoves opts (model.standardForm opts) k basis move ↔
        RevisedMoves opts (model.standardForm opts) k basis move := by
  have hdone := outcome_run observer { opts with method := .tableau } hvalid
  refine ⟨⟨_, hdone, ?_⟩, fun k hk => tableauMoves_iff_revisedMoves htol hexact hk⟩
  rw [outcome_run_eq hvalid htol hexact, hdone]

/-- Inversion is exact on `mixedModel`, so the two methods agree there. -/
theorem run_revised_agrees_mixedModel :
    RevisedExact {} mixedModel ∧
      (∃ done, (run .silent { ({} : Options ℚ) with method := .tableau } mixedModel).outcome =
          .ok done ∧
        (run .silent { ({} : Options ℚ) with method := .revised } mixedModel).outcome = .ok done) ∧
      ∀ k ≤ ({} : Options ℚ).maxIters.toNat, ∀ basis move,
        TableauMoves {} (mixedModel.standardForm {}) k basis move ↔
          RevisedMoves {} (mixedModel.standardForm {}) k basis move := by
  have hexact : RevisedExact {} mixedModel := exactFrom_of_exactAlong (by decide +kernel)
  exact ⟨hexact, run_revised_agrees .silent (by decide) (by norm_num) hexact⟩

end Simplex

end LinOpt
