import LinOpt.Proofs.StandardForm.Meaning
import LinOpt.Proofs.Tableau.Certificates
import LinOpt.Simplex.Solve
/-!
# What a run of the simplex method ends in

The events of a run leave its outcome alone: every row and column it shows has a name, so no
observer stops it. What remains of the loops is a walk over tableaux (`Leads`), and a loop ends with
the verdict of the last tableau on its walk (`exists_leads_tableauLoop`,
`exists_leads_phaseOneLoop`). What remains of a run is `outcome_run`: by `Simplex.concluded` a fault
becomes a result without a solution, and a terminal basis is read by `Simplex.finished`.
-/

namespace LinOpt

/-- An answer can be compared with a value, whatever its faults are. -/
instance decidableEqOk {ε β : Type} [DecidableEq β] (answer : Except ε β) (b : β) :
    Decidable (answer = .ok b) :=
  match answer with
  | .ok a => decidable_of_iff (a = b) ⟨congrArg _, Except.ok.inj⟩
  | .error _ => isFalse nofun

/-- Whether an answer has a property can be tried out. -/
instance decidableExistsOk {ε β : Type} (answer : Except ε β) (P : β → Prop) [DecidablePred P] :
    Decidable (∃ b, answer = .ok b ∧ P b) :=
  match answer with
  | .ok b => decidable_of_iff (P b) ⟨fun h => ⟨b, rfl, h⟩, fun ⟨_, hb, h⟩ => Except.ok.inj hb ▸ h⟩
  | .error _ => isFalse nofun

/-! ## Observers -/

section Observers

variable {α : Type} {observer : Observer}

theorem outcome_notice {event : Event α} (h : event.fault? = none) :
    (observer.notice event).outcome = .ok () := by
  cases observer with
  | silent => rfl
  | recording => simp [Observer.notice, h]

@[simp] theorem outcome_line (phrase : Phrase α) : (observer.line phrase).outcome = .ok () :=
  outcome_notice rfl

@[simp] theorem outcome_say (words : String) :
    (observer.say words : Traced α Unit).outcome = .ok () :=
  outcome_notice rfl

@[simp] theorem outcome_header (title : String) :
    (observer.header title : Traced α Unit).outcome = .ok () :=
  outcome_notice rfl

theorem rowFault?_eq_none {rows : Dense α} {names : List String} (h : rows.length ≤ names.length)
    (named : Bool) : Event.rowFault? 3 named rows names = none := by
  induction rows generalizing names with
  | nil => rfl
  | cons row rows ih =>
    obtain ⟨name, names, rfl⟩ : ∃ name rest, names = name :: rest :=
      List.exists_cons_of_length_pos (by simp at h; omega)
    have hlen : rows.length ≤ names.length := by simpa using h
    simp [Event.rowFault?, ih hlen]

theorem entryFault?_eq_none {entries : List α} {names : List String} {named : Bool}
    (h : named = true → entries.length ≤ names.length) :
    Event.entryFault? 3 named entries names = none := by
  induction entries generalizing names with
  | nil => rfl
  | cons a entries ih =>
    cases named with
    | false =>
      have hrest : Event.entryFault? 3 false entries names.tail = none := ih (by simp)
      simp [Event.entryFault?, hrest]
    | true =>
      obtain ⟨name, names, rfl⟩ : ∃ name rest, names = name :: rest :=
        List.exists_cons_of_length_pos (by have := h rfl; simp at this; omega)
      have hrest : Event.entryFault? 3 true entries names = none := ih fun _ => by simpa using h rfl
      simp [Event.entryFault?, hrest]

/-- A vector is shown where every entry has a name, or where there are no names at all. -/
theorem outcome_vector {entries : List α} {names : List String} (title : String)
    (h : names ≠ [] → entries.length ≤ names.length) :
    (observer.vector title entries names).outcome = .ok () := by
  refine outcome_notice (entryFault?_eq_none fun hnamed => h ?_)
  rintro rfl
  simp at hnamed

/-- A matrix is shown where it has rows and every row has a name. -/
theorem outcome_matrix {rows : Dense α} {rowNames : List String} (title : String)
    (columnNames : List String) (hne : rows ≠ []) (h : rows.length ≤ rowNames.length) :
    (observer.matrix title rows columnNames rowNames).outcome = .ok () := by
  refine outcome_notice ?_
  simp [Event.fault?, hne, rowFault?_eq_none h]

end Observers

/-! ## Tableaux with names -/

namespace Tableau

variable {E : Equations} {T : Tableau ℚ} {observer : Observer} {i j : ℕ}

theorem columnName_eq (hnames : E.width ≤ T.names.length) (hj : j < E.width) :
    T.columnName j = .ok (T.names.getD j "") :=
  position_get_eq (lt_of_lt_of_le hj hnames) ""

theorem Canonical.basicName_eq (h : T.Canonical E) (hnames : E.width ≤ T.names.length)
    (hi : i < E.height) : T.basicName i = .ok (T.names.getD (T.basic i) "") := by
  unfold Tableau.basicName
  rw [position_get_eq (h.basis_length ▸ hi) 0]
  exact columnName_eq hnames (h.basic_lt hi)

/-- Every row of a canonical tableau has a name, so the tableau can be shown. -/
theorem Canonical.outcome_display (h : T.Canonical E) (hnames : E.width ≤ T.names.length)
    (title : String) : (T.display observer title).outcome = .ok () := by
  have hbasis : T.basis.mapM T.columnName = .ok (T.basis.map fun j => T.names.getD j "") :=
    mapM_eq_ok fun j hj => columnName_eq hnames (h.basis_lt j hj)
  have hrows : T.rowNames = .ok ((T.basis.map fun j => T.names.getD j "") ++ ["z"]) := by
    rw [Tableau.rowNames, hbasis]
    rfl
  have hne : T.matrix ≠ [] := List.ne_nil_of_length_pos (by rw [h.height]; omega)
  have hlift : (T.rowNames : Traced ℚ (List String)).outcome =
      .ok ((T.basis.map fun j => T.names.getD j "") ++ ["z"]) := hrows
  rw [Tableau.display, Traced.outcome_bind, hlift]
  refine outcome_matrix title _ hne ?_
  simp [h.height, h.basis_length]

end Tableau

/-! ## The tableau loop -/

section TableauLoop

open Tableau

variable {E : Equations} {T : Tableau ℚ} {observer : Observer} {opts : Options ℚ}
  {budget made row col : ℕ}

/-- What the loop answers at a tableau from which it does not go on. -/
def Tableau.verdict (T : Tableau ℚ) (opts : Options ℚ) (made : ℕ) : Except (Fault ℚ) (Terminal ℚ) :=
  match T.nextMove opts.tol opts.rule with
  | .optimal => .ok ⟨T.basis, T.rhs, made⟩
  | .ray col => .error (.unbounded (T.names.getD col "") made)
  | .pivot _ _ => .error (.iterationLimit opts.maxIters made)

/-- Only an optimal tableau gives a terminal basis. -/
theorem Tableau.nextMove_of_verdict_eq_ok {terminal : Terminal ℚ}
    (h : T.verdict opts made = .ok terminal) :
    T.nextMove opts.tol opts.rule = .optimal ∧ terminal = ⟨T.basis, T.rhs, made⟩ := by
  unfold Tableau.verdict at h
  split at h
  · rename_i hmove
    exact ⟨hmove, (Except.ok.inj h).symm⟩
  · simp at h
  · simp at h

/-- Without a pivot to make, or without a budget for it, the loop ends. -/
theorem outcome_tableauLoop_end (h : T.Canonical E) (hnames : E.width ≤ T.names.length)
    (hend : ∀ row col, T.nextMove opts.tol opts.rule = .pivot row col → budget = 0) :
    (tableauLoop observer opts budget made T).outcome = T.verdict opts made := by
  unfold tableauLoop Tableau.verdict
  cases hmove : T.nextMove opts.tol opts.rule with
  | optimal => rfl
  | ray col =>
    dsimp only
    rw [columnName_eq hnames (h.ray_of_nextMove hmove).1]
    rfl
  | pivot row col =>
    obtain rfl := hend row col hmove
    rfl

/-- With a pivot to make and a budget for it, the loop goes on. -/
theorem outcome_tableauLoop_pivot (h : T.Canonical E) (hnames : E.width ≤ T.names.length)
    (htol : 0 ≤ opts.tol) (hmove : T.nextMove opts.tol opts.rule = .pivot row col) :
    (tableauLoop observer opts (budget + 1) made T).outcome =
      (tableauLoop observer opts budget (made + 1) (T.pivot row col)).outcome := by
  obtain ⟨hrow, hcol, -⟩ := h.pivot_of_nextMove hmove
  have hnext := h.move htol hmove
  have hentering : (T.pivot row col).columnName col = .ok (T.names.getD col "") :=
    columnName_eq (T := T.pivot row col) hnames hcol
  rw [tableauLoop, hmove]
  dsimp only
  rw [h.basicName_eq hnames hrow, hentering]
  change (observer.say _ >>= fun _ => _).outcome = _
  rw [Traced.outcome_bind, outcome_say]
  change ((T.pivot row col).display observer _ >>= fun _ => _).outcome = _
  rw [Traced.outcome_bind, hnext.outcome_display hnames]
  rfl

/-- **The tableau loop ends with the verdict of a tableau that it walks to.** -/
theorem exists_leads_tableauLoop (observer : Observer) (h : T.Canonical E)
    (hnames : E.width ≤ T.names.length) (htol : 0 ≤ opts.tol)
    (budget made : ℕ) :
    ∃ k ≤ budget, ∃ T', Leads opts.tol opts.rule T k T' ∧
      (tableauLoop observer opts budget made T).outcome = T'.verdict opts (made + k) := by
  induction budget generalizing T made with
  | zero => exact ⟨0, le_refl _, T, .refl T, outcome_tableauLoop_end h hnames fun _ _ _ => rfl⟩
  | succ budget ih =>
    cases hmove : T.nextMove opts.tol opts.rule with
    | pivot row col =>
      -- pivoting keeps the names, so the rest of the walk can show its tableaux too
      obtain ⟨k, hk, T', hleads, hout⟩ := ih (h.move htol hmove) hnames (made + 1)
      refine ⟨k + 1, by omega, T', .step hmove hleads, ?_⟩
      rw [outcome_tableauLoop_pivot h hnames htol hmove, hout, Nat.add_assoc, Nat.add_comm 1 k]
    | optimal => exact ⟨0, by omega, T, .refl T, outcome_tableauLoop_end h hnames (by simp [hmove])⟩
    | ray col => exact ⟨0, by omega, T, .refl T, outcome_tableauLoop_end h hnames (by simp [hmove])⟩

end TableauLoop

section Iterate

variable {model : Model ℚ} {opts : Options ℚ}

theorem width_le_length_names (opts : Options ℚ) (hvalid : model.Valid) :
    (model.penalised opts).width ≤ (model.standardForm opts).tableau.names.length :=
  le_of_eq ((model.width_penalised opts).trans
    (model.length_columnNames_standardForm opts hvalid.sized).symm)

/-- Showing the first tableau leaves the loop as it is. -/
theorem outcome_iterateTableau (observer : Observer) (hvalid : model.Valid) :
    (iterateTableau observer opts (model.standardForm opts)).outcome =
      (tableauLoop observer opts opts.maxIters.toNat 0 (model.standardForm opts).tableau).outcome := by
  rw [iterateTableau, Traced.outcome_bind,
    (model.canonical_standardForm_tableau opts).outcome_display (width_le_length_names opts hvalid)]
  rfl

/-- **The tableau method on the standard form of a valid model** walks to a canonical tableau and
ends with its verdict. -/
theorem exists_leads_iterateTableau (observer : Observer) (hvalid : model.Valid)
    (htol : 0 ≤ opts.tol) :
    ∃ k T, Tableau.Leads opts.tol opts.rule (model.standardForm opts).tableau k T ∧
      T.Canonical (model.penalised opts) ∧
      (iterateTableau observer opts (model.standardForm opts)).outcome = T.verdict opts k := by
  have hstart := model.canonical_standardForm_tableau opts
  obtain ⟨k, -, T, hleads, hout⟩ := exists_leads_tableauLoop observer hstart
    (width_le_length_names opts hvalid) htol opts.maxIters.toNat 0
  refine ⟨k, T, hleads, hstart.leads htol hleads, ?_⟩
  rw [outcome_iterateTableau observer hvalid, hout, Nat.zero_add]

end Iterate

/-! ## Phase one -/

/-- **Phase one ends at a tableau that it walks to**: without a move left, unless its budget runs
out. -/
theorem exists_leads_phaseOneLoop (opts : Options ℚ) (budget made : ℕ) (T : Tableau ℚ) :
    ∃ k T', Tableau.Leads opts.tol .bland T k T' ∧
      ((phaseOneLoop opts budget made T = .ok (T', made + k) ∧
          ∀ row col, T'.nextMove opts.tol .bland ≠ .pivot row col) ∨
        phaseOneLoop opts budget made T = .error (.iterationLimit opts.maxIters (made + k))) := by
  induction budget generalizing T made with
  | zero =>
    refine ⟨0, T, .refl T, ?_⟩
    unfold phaseOneLoop
    cases hmove : T.nextMove opts.tol .bland with
    | pivot row col => exact .inr rfl
    | optimal => exact .inl ⟨rfl, by simp⟩
    | ray col => exact .inl ⟨rfl, by simp⟩
  | succ budget ih =>
    cases hmove : T.nextMove opts.tol .bland with
    | pivot row col =>
      obtain ⟨k, T', hleads, hout⟩ := ih (made + 1) (T.pivot row col)
      refine ⟨k + 1, T', .step hmove hleads, ?_⟩
      rw [phaseOneLoop, hmove]
      simpa only [Nat.add_assoc, Nat.add_comm 1 k] using hout
    | optimal =>
      refine ⟨0, T, .refl T, .inl ⟨?_, by simp [hmove]⟩⟩
      rw [phaseOneLoop, hmove]
      rfl
    | ray col =>
      refine ⟨0, T, .refl T, .inl ⟨?_, by simp [hmove]⟩⟩
      rw [phaseOneLoop, hmove]
      rfl

theorem larger_eq_max (a b : ℚ) : Scalar.larger a b = max a b := by
  unfold Scalar.larger
  split
  · rename_i h
    exact (max_eq_right (le_of_lt h)).symm
  · rename_i h
    exact (max_eq_left (not_lt.mp h)).symm

theorem outcome_phaseOneGap (observer : Observer) (opts : Options ℚ) (form : StandardForm ℚ) :
    (phaseOneGap observer opts form).outcome =
      (phaseOneLoop opts opts.maxIters.toNat 0 form.phaseOneTableau).map
        fun (last, _) => max 0 (-last.objectiveValue) := by
  rw [phaseOneGap, Traced.outcome_bind]
  change (phaseOneLoop opts opts.maxIters.toNat 0 form.phaseOneTableau >>= _) = _
  cases phaseOneLoop opts opts.maxIters.toNat 0 form.phaseOneTableau with
  | error cause => rfl
  | ok last =>
    change (observer.line _ >>= fun _ => _).outcome = _
    rw [Traced.outcome_bind, outcome_line, larger_eq_max]
    rfl

/-! ## Runs -/

namespace Simplex

variable {observer : Observer} {opts : Options ℚ} {model : Model ℚ} {form : StandardForm ℚ}

/-- What pivoting to an end answers, from what the loop answers. -/
theorem outcome_pivotToEnd (observer : Observer) (opts : Options ℚ) (form : StandardForm ℚ) :
    (pivotToEnd observer opts form).outcome =
      match (iterate observer opts form).outcome with
      | .error (.unbounded column pivots) =>
        if form.artificials.isEmpty then .error (.unbounded column pivots)
        else (phaseOneGap observer opts form).outcome >>= fun gap =>
          if feasibilityTolerance < gap then .error (.artificialsRemain gap pivots)
          else .error (.unbounded column pivots)
      | answer => answer := by
  rw [pivotToEnd, Traced.outcome_bind, Traced.outcome_attempt]
  cases (iterate observer opts form).outcome with
  | ok terminal => rfl
  | error cause =>
    -- a ray is the only fault that is looked into
    cases cause
    case unbounded column pivots =>
      change (if form.artificials.isEmpty then _ else _ : Traced ℚ (Terminal ℚ)).outcome = _
      dsimp only
      split
      · rfl
      · rw [Traced.outcome_bind]
        congr 1
        funext gap
        split <;> rfl
    all_goals rfl

/-- The run that a terminal basis gives. -/
def finished (opts : Options ℚ) (model : Model ℚ) (form : StandardForm ℚ) (terminal : Terminal ℚ) :
    Run ℚ :=
  let x := columnValues opts form terminal
  let level := artificialLevel form.artificials x
  let solution := reconstruct form.components x
  { result :=
      if feasibilityTolerance < level then
        .failed .infeasible terminal.iterations (.artificialBasic level)
      else .solved .optimal (dot model.costs solution) solution terminal.iterations (.text "")
    model
    form := some form
    basis := some terminal.basis }

theorem outcome_finish (hvalid : model.Valid) (terminal : Terminal ℚ) :
    (finish observer opts model (model.standardForm opts) terminal).outcome =
      .ok (finished opts model (model.standardForm opts) terminal) := by
  have hlength : (reconstruct (model.standardForm opts).components
      (columnValues opts (model.standardForm opts) terminal)).length = model.costs.length := by
    rw [reconstruct, List.length_map]
    exact StandardForm.length_components hvalid.sized
  unfold finish finished
  dsimp only
  split
  · rw [Traced.outcome_bind, outcome_line]
    rfl
  · rw [Traced.outcome_bind, dotAligned, if_pos hlength.symm]
    change (observer.line _ >>= fun _ => _).outcome = _
    rw [Traced.outcome_bind, outcome_line]
    change (observer.vector _ _ _ >>= fun _ => _).outcome = _
    rw [Traced.outcome_bind, outcome_vector]
    · rfl
    · intro _
      rw [hlength]
      exact le_of_eq hvalid.sized.names.symm

/-- The run that the end of the pivoting gives. -/
def concluded (opts : Options ℚ) (model : Model ℚ) (form : StandardForm ℚ) :
    Except (Fault ℚ) (Terminal ℚ) → Run ℚ
  | .ok terminal => finished opts model form terminal
  | .error cause => ⟨.ofFault cause, model, some form, none⟩

/-- **A run on a valid model answers**, with what the pivoting ended in. -/
theorem outcome_run (observer : Observer) (opts : Options ℚ) (hvalid : model.Valid) :
    (run observer opts model).outcome = .ok (concluded opts model (model.standardForm opts)
      (pivotToEnd observer opts (model.standardForm opts)).outcome) := by
  rw [run, Traced.outcome_bind, outcome_header, ok_bind, StandardForm.build_eq opts hvalid]
  dsimp only
  rw [Traced.outcome_bind, Traced.outcome_attempt]
  cases (pivotToEnd observer opts (model.standardForm opts)).outcome with
  | ok terminal => exact outcome_finish hvalid terminal
  | error cause =>
    change (observer.line _ >>= fun _ => _).outcome = _
    rw [Traced.outcome_bind, outcome_line]
    rfl

theorem status_concluded_error {form : StandardForm ℚ} (cause : Fault ℚ) :
    (concluded opts model form (.error cause)).result.status = cause.status := rfl

/-- A terminal basis is called infeasible or optimal, by the level of its artificial columns. -/
theorem status_concluded_ok {form : StandardForm ℚ} (terminal : Terminal ℚ) :
    (feasibilityTolerance < artificialLevel form.artificials (columnValues opts form terminal) ∧
      (concluded opts model form (.ok terminal)).result.status = .infeasible) ∨
    (concluded opts model form (.ok terminal)).result.status = .optimal := by
  rw [concluded, finished]
  dsimp only
  split
  · rename_i hlevel
    exact .inl ⟨hlevel, rfl⟩
  · exact .inr rfl

/-- A run answers with this status. -/
def Answers (opts : Options ℚ) (model : Model ℚ) (status : Status) : Prop :=
  ∃ done, (run .silent opts model).outcome = .ok done ∧ done.result.status = status

instance (opts : Options ℚ) (model : Model ℚ) (status : Status) :
    Decidable (Answers opts model status) :=
  match h : (run .silent opts model).outcome with
  | .ok done =>
    decidable_of_iff (done.result.status = status)
      ⟨fun hstatus => ⟨done, h, hstatus⟩,
        fun ⟨_, hdone, hstatus⟩ => Except.ok.inj (h.symm.trans hdone) ▸ hstatus⟩
  | .error _ => isFalse fun ⟨_, hdone, _⟩ => by simp [h] at hdone

end Simplex

end LinOpt
