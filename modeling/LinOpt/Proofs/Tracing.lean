import LinOpt.Proofs.Simplex.Terminal
import LinOpt.Proofs.StandardForm.Relaxation
import LinOpt.Service
/-!
# Tracing changes no answer

A run is a function of its observer. `LaidOut` follows how it is put together: parts that show
nothing, events that can be laid out, one part after the other, a part whose fault is caught. Who
watches such a run does not matter (`LaidOut.outcome_eq`), and what a recorder keeps of it can all be
laid out (`LaidOut.fault?_eq_none`).

A solver shows matrices and vectors next to lists of names. No law of the arithmetic is needed to see
that the names suffice: a tableau has a row more than it has basic columns, whatever its entries are
(`Tableau.Tall`), an inverse as many rows as its matrix (`Dense.length_inverse`), and a solution whose
objective has been computed as many entries as there are costs.
-/

namespace LinOpt

variable {α : Type}

/-! ## Runs that can be laid out -/

/-- **Every event that the run shows can be laid out**, given the answers of its parts to nobody in
particular. -/
inductive LaidOut : {β : Type} → (Observer → Traced α β) → Prop
  /-- A part that shows nothing. -/
  | quiet {β : Type} (answer : Except (Fault α) β) : LaidOut fun _ => Traced.ofExcept answer
  /-- An event that can be laid out. -/
  | notice {event : Event α} : event.fault? = none → LaidOut fun observer => observer.notice event
  /-- One part, and another on its answer. -/
  | bind {β γ : Type} {first : Observer → Traced α β} {next : β → Observer → Traced α γ} :
      LaidOut first → (∀ b, (first .silent).outcome = .ok b → LaidOut (next b)) →
      LaidOut fun observer => first observer >>= fun b => next b observer
  /-- A part whose fault is caught. -/
  | attempt {β : Type} {run : Observer → Traced α β} :
      LaidOut run → LaidOut fun observer => (run observer).attempt

namespace LaidOut

variable {β : Type} {run : Observer → Traced α β}

/-- **The answer does not depend on the observer.** -/
theorem outcome_eq (h : LaidOut run) (observer : Observer) :
    (run observer).outcome = (run .silent).outcome := by
  induction h with
  | quiet answer => rfl
  | notice hevent => rw [outcome_notice hevent, outcome_notice hevent]
  | @bind β γ first next _ _ hfirst hnext =>
    rw [Traced.outcome_bind, Traced.outcome_bind, hfirst]
    cases hanswer : (first .silent).outcome with
    | error cause => rfl
    | ok b => exact hnext b hanswer
  | attempt _ hrun => rw [Traced.outcome_attempt, Traced.outcome_attempt, hrun]

/-- **What a recorder keeps can be laid out.** -/
theorem fault?_eq_none (h : LaidOut run) :
    ∀ event ∈ (run .recording).events, event.fault? = none := by
  induction h with
  | quiet answer => intro event hevent; cases hevent
  | @notice event hevent =>
    intro other hother
    simp only [Observer.notice, hevent] at hother
    obtain rfl := List.mem_singleton.mp hother
    exact hevent
  | @bind β γ first next hlaid _ hfirst hnext =>
    intro event hevent
    change event ∈ ((first .recording).andThen fun b => next b .recording).events at hevent
    unfold Traced.andThen at hevent
    cases hanswer : (first .recording).outcome with
    | error cause =>
      rw [hanswer] at hevent
      exact hfirst event hevent
    | ok b =>
      rw [hanswer] at hevent
      rcases List.mem_append.mp hevent with hevent | hevent
      · exact hfirst event hevent
      · exact hnext b (hlaid.outcome_eq .recording ▸ hanswer) event hevent
  | attempt _ hrun => exact hrun

theorem line (phrase : Phrase α) : LaidOut fun observer => observer.line phrase := .notice rfl

theorem say (words : String) : LaidOut fun observer => (observer.say words : Traced α Unit) :=
  .line _

theorem header (title : String) : LaidOut fun observer => (observer.header title : Traced α Unit) :=
  LaidOut.notice (show (Event.header title : Event α).fault? = none from rfl)

/-- A vector can be laid out where every entry has a name, or there are no names. -/
theorem vector {entries : List α} {names : List String} (title : String)
    (h : names ≠ [] → entries.length ≤ names.length) :
    LaidOut fun observer => observer.vector title entries names :=
  .notice (entryFault?_eq_none fun hnamed => h (by rintro rfl; simp at hnamed))

/-- A matrix can be laid out where it has rows and every row has a name. -/
theorem matrix {rows : Dense α} {rowNames : List String} (title : String)
    (columnNames : List String) (hne : rows ≠ []) (h : rows.length ≤ rowNames.length) :
    LaidOut fun observer => observer.matrix title rows columnNames rowNames :=
  .notice (by simp [Event.fault?, hne, rowFault?_eq_none h])

/-- A part that shows nothing, and another. -/
theorem quiet_bind {γ : Type} {answer : Except (Fault α) β} {next : β → Observer → Traced α γ}
    (h : ∀ b, answer = .ok b → LaidOut (next b)) :
    LaidOut fun observer => Traced.ofExcept answer >>= fun b => next b observer :=
  .bind (.quiet answer) h

/-- A choice that is not the observer's. -/
theorem choose {P : Prop} {decide : Observer → Decidable P} {other : Observer → Traced α β}
    (h : LaidOut run) (hother : LaidOut other) :
    LaidOut fun observer => @ite _ P (decide observer) (run observer) (other observer) := by
  by_cases hP : P
  · simpa only [if_pos hP] using h
  · simpa only [if_neg hP] using hother

end LaidOut

/-- Answering for every entry of a list keeps its length. -/
theorem length_of_mapM_eq_ok {ε β γ : Type} {f : β → Except ε γ} {xs : List β} {ys : List γ}
    (h : xs.mapM f = .ok ys) : ys.length = xs.length :=
  (forall₂_of_mapM_eq_ok h).length_eq.symm

/-! ## Tableaux -/

namespace Tableau

variable {T : Tableau α}

/-- A tableau has one row for each basic column and the objective row below. -/
def Tall (T : Tableau α) : Prop := T.matrix.length = T.basis.length + 1

theorem length_rowNames {names : List String} (h : T.rowNames = .ok names) :
    names.length = T.basis.length + 1 := by
  obtain ⟨basic, hbasic, h⟩ := exists_of_bind_eq_ok h
  obtain rfl := Except.ok.inj h
  rw [List.length_append, length_of_mapM_eq_ok hbasic]
  rfl

/-- Every row of a tableau has a name. -/
theorem Tall.display (h : T.Tall) (title : String) :
    LaidOut fun observer => T.display observer title := by
  unfold Tableau.display
  refine .quiet_bind fun names hnames => .matrix title _ ?_ ?_
  · intro hempty
    rw [Tall, hempty] at h
    cases h
  · rw [length_rowNames hnames]
    exact le_of_eq h

end Tableau

variable [Scalar α]

namespace Tableau

theorem Tall.pivot {T : Tableau α} (h : T.Tall) (row col : ℕ) : (T.pivot row col).Tall := by
  simpa [Tall, Tableau.pivot, cleanColumn] using h

theorem tall_initial {A : Dense α} {b c : List α} {basis : List ℕ} (names : List String)
    (hb : A.length = b.length) (hbasis : basis.length = b.length) :
    (initial A b c basis names).Tall := by
  simp [Tall, initial, hb, hbasis]

end Tableau

theorem laidOut_tableauLoop (opts : Options α) (budget made : ℕ) {T : Tableau α} (h : T.Tall) :
    LaidOut fun observer => tableauLoop observer opts budget made T := by
  induction budget using Nat.strong_induction_on generalizing made T with
  | _ budget ih =>
    unfold tableauLoop
    split
    · exact .quiet (.ok _)
    · exact .quiet_bind fun name _ => .quiet (.error _)
    · cases budget with
      | zero => exact .quiet (.error _)
      | succ budget =>
        refine .quiet_bind fun leaving _ => .quiet_bind fun entering _ => ?_
        refine .bind (.say _) fun _ _ => .bind ((h.pivot _ _).display _) fun _ _ => ?_
        exact ih budget (Nat.lt_succ_self _) _ (h.pivot _ _)

/-! ## Standard forms -/

/-- Vectors whose inner product is computed have one length. -/
theorem length_eq_of_dotAligned {x y : List α} {a : α} (h : dotAligned x y = .ok a) :
    x.length = y.length := by
  unfold dotAligned at h
  split at h
  · assumption
  · cases h

/-- The parts of a standard form agree in size, and its variables are those of the model. -/
structure StandardForm.Aligned (form : StandardForm α) (model : Model α) : Prop where
  rhs : form.rows.length = form.rhs.length
  basis : form.basis.length = form.rhs.length
  variableNames : form.variableNames = model.names

theorem StandardForm.aligned_of_build {opts : Options α} {model : Model α} {form : StandardForm α}
    (h : StandardForm.build opts model = .ok form) : form.Aligned model := by
  unfold StandardForm.build at h
  obtain ⟨declared, -, h⟩ := exists_of_bind_eq_ok h
  dsimp only at h
  split at h
  · cases h
  · obtain ⟨costs, -, h⟩ := exists_of_bind_eq_ok h
    obtain ⟨stated, -, h⟩ := exists_of_bind_eq_ok h
    obtain ⟨oriented, -, h⟩ := exists_of_bind_eq_ok h
    obtain rfl := Except.ok.inj h
    exact ⟨by simp [assemble], by simp [assemble], rfl⟩

section Form

variable {form : StandardForm α} {model : Model α}

theorem laidOut_iterateTableau (opts : Options α) (h : form.Aligned model) :
    LaidOut fun observer => iterateTableau observer opts form := by
  have htall : form.tableau.Tall := Tableau.tall_initial _ h.rhs h.basis
  unfold iterateTableau
  exact .bind (htall.display _) fun _ _ => laidOut_tableauLoop opts _ _ htall

/-- The values of the basic columns and the prices have a place for each row at most. -/
theorem StandardForm.length_basics_snapshot {basis : List ℕ} {snapshot : Snapshot α}
    (h : form.snapshot basis = .ok snapshot) : snapshot.basics.length = form.rows.length := by
  obtain ⟨inverse, hinverse, h⟩ := exists_of_bind_eq_ok h
  obtain rfl := Except.ok.inj h
  simp [Dense.mulVec, Dense.length_inverse hinverse, Dense.columns]

theorem laidOut_revisedLoop (opts : Options α) (budget made : ℕ) {basis : List ℕ}
    (h : form.rows.length ≤ basis.length) :
    LaidOut fun observer => revisedLoop observer opts form budget made basis := by
  induction budget using Nat.strong_induction_on generalizing made basis with
  | _ budget ih =>
    unfold revisedLoop
    refine .quiet_bind fun snapshot hsnapshot => .quiet_bind fun names hnames => ?_
    have hbasics : snapshot.basics.length ≤ names.length := by
      rw [StandardForm.length_basics_snapshot hsnapshot, length_of_mapM_eq_ok hnames]
      exact h
    refine .bind (.vector _ fun _ => hbasics) fun _ _ =>
      .bind (.vector _ fun hne => absurd rfl hne) fun _ _ => ?_
    split
    · exact .quiet (.ok _)
    · exact .quiet_bind fun name _ => .quiet (.error _)
    · cases budget with
      | zero => exact .quiet (.error _)
      | succ budget =>
        refine .quiet_bind fun leaving _ => .quiet_bind fun entering _ => .bind (.line _) fun _ _ => ?_
        exact ih budget (Nat.lt_succ_self _) _ (by simpa using h)

/-! ## Runs of the simplex method -/

namespace Simplex

theorem laidOut_iterate (opts : Options α) (h : form.Aligned model) :
    LaidOut fun observer => iterate observer opts form := by
  unfold iterate
  cases opts.method with
  | tableau => exact laidOut_iterateTableau opts h
  | revised => exact laidOut_revisedLoop opts _ _ (le_of_eq (h.rhs.trans h.basis.symm))

theorem laidOut_phaseOneGap (opts : Options α) (form : StandardForm α) :
    LaidOut fun observer => phaseOneGap observer opts form := by
  unfold phaseOneGap
  exact .quiet_bind fun last _ => .bind (.line _) fun _ _ => .quiet (.ok _)

theorem laidOut_pivotToEnd (opts : Options α) (h : form.Aligned model) :
    LaidOut fun observer => pivotToEnd observer opts form := by
  unfold pivotToEnd
  refine .bind (.attempt (laidOut_iterate opts h)) fun answer _ => ?_
  split
  · exact .quiet (.ok _)
  · split
    · exact .quiet (.error _)
    · refine .bind (laidOut_phaseOneGap opts form) fun gap _ => ?_
      split
      · exact .quiet (.error _)
      · exact .quiet (.error _)
  · exact .quiet (.error _)

theorem laidOut_stopped (opts : Options α) (model : Model α) (form : Option (StandardForm α))
    (cause : Fault α) : LaidOut fun observer => stopped observer opts model form cause :=
  .bind (.line _) fun _ _ => .quiet (.ok _)

theorem laidOut_finish (opts : Options α) (hnames : model.costs.length ≤ model.names.length)
    (h : form.Aligned model) (terminal : Terminal α) :
    LaidOut fun observer => finish observer opts model form terminal := by
  unfold finish
  dsimp only
  split
  · exact .bind (.line _) fun _ _ => .quiet (.ok _)
  · refine .quiet_bind fun objective hobjective => .bind (.line _) fun _ _ => ?_
    -- the solution has been multiplied by the costs, so it has an entry for each
    have hlength := length_eq_of_dotAligned hobjective
    refine .bind (.vector _ fun _ => ?_) fun _ _ => .quiet (.ok _)
    rw [h.variableNames, ← hlength]
    exact hnames

/-- **A run of the simplex method can be laid out**, where every variable has a name. -/
theorem laidOut_run (opts : Options α) (hnames : model.costs.length ≤ model.names.length) :
    LaidOut fun observer => run observer opts model := by
  unfold run
  refine .bind (.header _) fun _ _ => ?_
  cases hbuild : StandardForm.build opts model with
  | error cause => exact laidOut_stopped opts model none cause
  | ok form =>
    have haligned := StandardForm.aligned_of_build hbuild
    refine .bind (.attempt (laidOut_pivotToEnd opts haligned)) fun answer _ => ?_
    cases answer with
    | error cause => exact laidOut_stopped opts model (some form) cause
    | ok terminal => exact laidOut_finish opts hnames haligned terminal

theorem laidOut_solve (opts : Options α) (hnames : model.costs.length ≤ model.names.length) :
    LaidOut fun observer => solve observer opts model :=
  .bind (laidOut_run opts hnames) fun _ _ => .quiet (.ok _)

end Simplex

end Form

/-! ## Searches -/

namespace BranchAndBound

variable (opts : Options α) (solver : Solver α) (model : Model α)

theorem laidOut_addChild (node : Node α) (j : ℤ) (state : State α) (side : Side) (bound : ℤ) :
    LaidOut fun observer => addChild ⟨observer, opts, solver, model⟩ node j state side bound := by
  dsimp only [addChild, Setting.variableName, Setting.objective, Setting.factor]
  refine .quiet_bind fun problem _ => .quiet_bind fun name _ => ?_
  split
  · exact .quiet_bind fun objective _ => .bind (.line _) fun _ _ => .quiet (.ok _)
  · exact .bind (.say _) fun _ _ => .quiet (.ok _)

theorem laidOut_visit (node : Node α) (state : State α) :
    LaidOut fun observer => visit ⟨observer, opts, solver, model⟩ node state := by
  dsimp only [visit, branch, Setting.variableName, Setting.integerVariables, Setting.factor]
  refine .bind (.line _) fun _ _ => ?_
  split
  · exact .bind (.say _) fun _ _ => .quiet (.ok _)
  · refine .quiet_bind fun choice _ => ?_
    cases choice with
    | none => exact .bind (.line _) fun _ _ => .quiet (.ok _)
    | some choice =>
      obtain ⟨j, value⟩ := choice
      refine .quiet_bind fun name _ => .bind (.line _) fun _ _ => ?_
      refine .quiet_bind fun below _ => .quiet_bind fun above _ => ?_
      exact .bind (laidOut_addChild opts solver model node j state .left below) fun next _ =>
        laidOut_addChild opts solver model node j next .right above

theorem laidOut_searchLoop (budget : ℕ) (state : State α) :
    LaidOut fun observer => searchLoop ⟨observer, opts, solver, model⟩ budget state := by
  induction budget using Nat.strong_induction_on generalizing state with
  | _ budget ih =>
    unfold searchLoop
    cases ordered state.frontier with
    | nil => exact .quiet (.ok _)
    | cons node rest =>
      cases budget with
      | zero =>
        dsimp only
        exact .bind (.say _) fun _ _ => .quiet (.ok _)
      | succ budget =>
        exact .bind (laidOut_visit opts solver model node _) fun next _ =>
          ih budget (Nat.lt_succ_self _) next

theorem laidOut_searchFrom (hnames : model.costs.length ≤ model.names.length) (root : Result α)
    (solution : List α) :
    LaidOut fun observer => searchFrom ⟨observer, opts, solver, model⟩ root solution := by
  dsimp only [searchFrom, Setting.objective, Setting.integerVariables, Setting.factor]
  refine .quiet_bind fun objective hobjective => .bind (.line _) fun _ _ => ?_
  have hlength : model.costs.length = solution.length := length_eq_of_dotAligned hobjective
  refine .bind (.vector _ fun _ => hlength ▸ hnames) fun _ _ => .quiet_bind fun choice _ => ?_
  cases choice with
  | none =>
    exact .bind (.say _) fun _ _ => .quiet_bind fun snapped _ => .quiet_bind fun value _ =>
      .quiet (.ok _)
  | some choice =>
    exact .bind (laidOut_searchLoop opts solver model _ _) fun last _ =>
      .quiet (conclude ⟨.silent, opts, solver, model⟩ last.1 last.2)

/-- **A search by branch and bound can be laid out**, whatever solves its relaxations. -/
theorem laidOut_searchWith (hnames : model.costs.length ≤ model.names.length) :
    LaidOut fun observer => searchWith observer opts solver model := by
  dsimp only [searchWith, searchModel, Setting.integerVariables]
  refine .bind (.header _) fun _ _ => .bind (.attempt ?_) fun answer _ => ?_
  · refine .quiet_bind fun root _ => ?_
    split
    · exact .choose (.quiet (.ok _)) (laidOut_searchFrom opts solver model hnames root _)
    · exact .bind (.say _) fun _ _ => .quiet (.ok _)
  · cases answer with
    | ok outcome => exact .quiet (.ok _)
    | error cause => exact .bind (.line _) fun _ _ => .quiet (.ok _)

end BranchAndBound

namespace CuttingPlane

variable (opts : Options α) {model : Model α} (hnames : model.costs.length ≤ model.names.length)

include hnames

theorem laidOut_cutLoop (budget : ℕ) (current : Model α) (cuts : List (Cut α)) :
    LaidOut fun observer => cutLoop observer opts model budget current cuts := by
  induction budget using Nat.strong_induction_on generalizing current cuts with
  | _ budget ih =>
    unfold cutLoop
    refine .quiet_bind fun done _ => ?_
    split
    · refine .quiet_bind fun objective hobjective => .bind (.line _) fun _ _ => ?_
      have hlength := length_eq_of_dotAligned hobjective
      refine .bind (.vector _ fun _ => hlength ▸ hnames) fun _ _ => .quiet_bind fun choice _ => ?_
      cases choice with
      | none =>
        exact .quiet_bind fun snapped _ => .bind (.say _) fun _ _ =>
          .quiet_bind fun value _ => .quiet (.ok _)
      | some j =>
        cases budget with
        | zero => exact .bind (.say _) fun _ _ => .quiet (.ok _)
        | succ budget =>
          exact .quiet_bind fun cut _ => .quiet_bind fun next _ => .bind (.line _) fun _ _ =>
            ih budget (Nat.lt_succ_self _) next (cuts ++ [cut])
    · exact .bind (.say _) fun _ _ => .quiet (.ok _)

/-- **A search by cuts can be laid out**, where every variable has a name. -/
theorem laidOut_search : LaidOut fun observer => search observer opts model := by
  unfold search
  refine .bind (.header _) fun _ _ =>
    .bind (.attempt (laidOut_cutLoop opts hnames _ _ _)) fun answer _ => ?_
  cases answer with
  | ok outcome => exact .quiet (.ok _)
  | error cause => exact .bind (.line _) fun _ _ => .quiet (.ok _)

end CuttingPlane

namespace Knapsack

variable (capacity : α) (weights values : List α)

theorem laidOut_visit (current : Node α) (state : State α) :
    LaidOut fun observer => visit observer capacity current state := by
  unfold visit
  split
  · exact .quiet (.ok _)
  · split
    · split
      · exact .bind (.line _) fun _ _ => .quiet (.ok _)
      · exact .quiet (.ok _)
    · exact .quiet (.ok _)

theorem laidOut_searchLoop (budget : ℕ) (state : State α) :
    LaidOut fun observer => searchLoop observer capacity budget state := by
  induction budget generalizing state with
  | zero => exact .quiet (.ok _)
  | succ budget ih =>
    unfold searchLoop
    split
    · exact .quiet (.ok _)
    · exact .bind (laidOut_visit capacity _ _) fun next _ => ih next

theorem laidOut_showItems (items : List (Item α)) :
    LaidOut fun observer => showItems observer items := by
  induction items with
  | nil => exact .quiet (.ok _)
  | cons item items ih => exact .bind (.line _) fun _ _ => ih

theorem laidOut_run : LaidOut fun observer => run observer capacity weights values := by
  unfold run
  split
  · exact .quiet (.ok _)
  · refine .bind (.say _) fun _ _ => .bind (laidOut_showItems _) fun _ _ => ?_
    exact .bind (laidOut_searchLoop capacity _ _) fun last _ => .bind (.line _) fun _ _ =>
      .quiet (.ok _)

omit [Scalar α] in
theorem laidOut_refuse (message : Message α) :
    LaidOut fun observer => refuse observer message :=
  .bind (.line _) fun _ _ => .quiet (.ok _)

/-- **A knapsack search can be laid out**, for any items. -/
theorem laidOut_solveItems :
    LaidOut fun observer => solveItems observer capacity weights values := by
  unfold solveItems
  refine .bind (.header _) fun _ _ => ?_
  split
  · exact laidOut_refuse _
  · exact laidOut_run capacity weights values

theorem laidOut_solveModel (model : Model α) :
    LaidOut fun observer => solveModel observer model := by
  unfold solveModel
  refine .bind (.header _) fun _ _ => ?_
  split
  · exact laidOut_run _ _ _
  · exact laidOut_refuse _

end Knapsack

/-! ## Duality -/

theorem laidOut_compareObjectives (sense : Sense) (primal dual : Result α) :
    LaidOut fun observer => compareObjectives observer sense primal dual := by
  unfold compareObjectives
  split
  · exact .bind (.header _) fun _ _ => .bind (.line _) fun _ _ => .bind (.say _) fun _ _ =>
      .quiet (.ok _)
  · exact .quiet (.ok _)

omit [Scalar α] in
/-- A dual model names its variables. -/
theorem Model.names_of_dual {model other : Model α} (h : model.dual = .ok other) :
    other.costs.length ≤ other.names.length := by
  obtain ⟨rows, -, h⟩ := exists_of_bind_eq_ok h
  obtain ⟨signs, -, h⟩ := exists_of_bind_eq_ok h
  obtain ⟨kinds, -, h⟩ := exists_of_bind_eq_ok h
  unfold checkShape at h
  split at h
  · cases h
  · obtain rfl := Except.ok.inj h
    simp [Model.names, Model.rowCount]

/-- **Comparing a model with its dual can be laid out.** -/
theorem laidOut_solvePrimalDual (opts : Options α) {model : Model α} (hvalid : model.Valid) :
    LaidOut fun observer => solvePrimalDual observer opts model := by
  unfold solvePrimalDual
  refine .quiet_bind fun relaxed hrelaxed => .quiet_bind fun other hother => ?_
  have hnames : relaxed.costs.length ≤ relaxed.names.length := by
    obtain rfl := Except.ok.inj ((Model.relaxed_eq_ok hvalid.sized).symm.trans hrelaxed)
    exact le_of_eq hvalid.sized.names.symm
  refine .bind (Simplex.laidOut_solve opts hnames) fun primal _ => ?_
  refine .bind (Simplex.laidOut_solve opts (Model.names_of_dual hother)) fun dual _ => ?_
  exact .bind (laidOut_compareObjectives _ _ _) fun check _ => .quiet (.ok _)

/-! ## Answers to a client -/

namespace Service

/-- The answer without its trace. -/
def Answer.untraced (answer : Answer α) : Answer α := { answer with trace := none }

/-- **A request answers alike with and without a trace**, up to the trace. -/
def TracesApart (request : Bool → Except (Fault α) (Answer α)) : Prop :=
  (request true).map Answer.untraced = request false

end Service

/-- **The run does not notice who watches it**: its answer is the same for every observer, and what
it shows can be laid out. -/
structure Unwatched {β : Type} (run : Observer → Traced α β) : Prop where
  outcome_eq : ∀ observer, (run observer).outcome = (run .silent).outcome
  laidOut : LaidOut run
  events : ∀ event ∈ (run .recording).events, event.fault? = none

omit [Scalar α] in
theorem LaidOut.unwatched {β : Type} {run : Observer → Traced α β} (h : LaidOut run) :
    Unwatched run :=
  ⟨h.outcome_eq, h, h.fault?_eq_none⟩

namespace Service

omit [Scalar α] in
/-- An answer built from the outcome of a run, and from its trace where one is asked for. -/
theorem tracesApart_of_laidOut {β : Type} {run : Observer → Traced α β} (h : LaidOut run)
    (answer : β → Option (List (Event α)) → Except (Fault α) (Answer α))
    (hanswer : ∀ b trace, (answer b trace).map Answer.untraced = answer b none) :
    TracesApart fun trace => (run (observer trace)).outcome >>= fun b =>
      answer b (traceOf trace (run (observer trace))) := by
  have hsame : (run (observer true)).outcome = (run (observer false)).outcome := h.outcome_eq _
  unfold TracesApart
  dsimp only
  rw [hsame]
  cases (run (observer false)).outcome with
  | error cause => rfl
  | ok b => exact hanswer b _

theorem tracesApart_solveContinuous (opts : Options α) {model : Model α} (hvalid : model.Valid) :
    TracesApart (solveContinuous model opts) := by
  refine tracesApart_of_laidOut (Simplex.laidOut_run opts (le_of_eq hvalid.sized.names.symm))
    (fun done trace => if opts.returnDuals && done.isOptimal then do
        let state ← done.sensitivity
        return { result := done.result, duals := some state.shadowPrices, trace }
      else return { result := done.result, trace }) fun done trace => ?_
  split
  · cases done.sensitivity with
    | error cause => rfl
    | ok state => rfl
  · rfl

theorem tracesApart_solveInteger (method : IntegerMethod) (opts : Options α) {model : Model α}
    (hvalid : model.Valid) : TracesApart (solveInteger model method opts) := by
  have hnames := le_of_eq hvalid.sized.names.symm
  cases method with
  | branchAndBound =>
    exact tracesApart_of_laidOut
      (BranchAndBound.laidOut_searchWith opts (BranchAndBound.simplexSolver opts) model hnames)
      (fun outcome trace => .ok { result := outcome.result, trace }) fun _ _ => rfl
  | cuttingPlane =>
    exact tracesApart_of_laidOut (CuttingPlane.laidOut_search opts hnames)
      (fun outcome trace => .ok { result := outcome.result, trace }) fun _ _ => rfl

theorem tracesApart_solveKnapsack (capacity : α) (weights values : List α) :
    TracesApart (solveKnapsack capacity weights values) :=
  tracesApart_of_laidOut (Knapsack.laidOut_solveItems capacity weights values)
    (fun result trace => .ok { result, trace }) fun _ _ => rfl

end Service

/-- **Nothing that is asked about a model depends on tracing.** Every run has the answer that it has
without an observer, with the terminal basis, the labels, the incumbents, the cuts and the comparison
that come with it. -/
structure TraceInert (opts : Options α) (model : Model α) : Prop where
  simplex : Unwatched fun observer => Simplex.run observer opts model
  /-- Whatever solves the relaxations. -/
  searchWith : ∀ solver, Unwatched fun observer =>
    BranchAndBound.searchWith observer opts solver model
  branchAndBound : Unwatched fun observer => BranchAndBound.search observer opts model
  cuttingPlane : Unwatched fun observer => CuttingPlane.search observer opts model
  knapsack : Unwatched fun observer => Knapsack.solveModel observer model
  /-- The items need not be those of the model. -/
  knapsackItems : ∀ (capacity : α) (weights values : List α), Unwatched fun observer =>
    Knapsack.solveItems observer capacity weights values
  duality : Unwatched fun observer => solvePrimalDual observer opts model
  /-- What a client is told differs in the trace alone. -/
  solveContinuous : Service.TracesApart (Service.solveContinuous model opts)
  solveInteger : ∀ method, Service.TracesApart (Service.solveInteger model method opts)
  solveKnapsack : ∀ (capacity : α) (weights values : List α),
    Service.TracesApart (Service.solveKnapsack capacity weights values)

/-- **Tracing changes no answer**, in any arithmetic. -/
theorem traceInert_of_valid (opts : Options α) {model : Model α} (hvalid : model.Valid) :
    TraceInert opts model := by
  have hnames : model.costs.length ≤ model.names.length := le_of_eq hvalid.sized.names.symm
  exact
    { simplex := (Simplex.laidOut_run opts hnames).unwatched
      searchWith := fun solver =>
        (BranchAndBound.laidOut_searchWith opts solver model hnames).unwatched
      branchAndBound := (BranchAndBound.laidOut_searchWith opts _ model hnames).unwatched
      cuttingPlane := (CuttingPlane.laidOut_search opts hnames).unwatched
      knapsack := (Knapsack.laidOut_solveModel model).unwatched
      knapsackItems := fun capacity weights values =>
        (Knapsack.laidOut_solveItems capacity weights values).unwatched
      duality := (laidOut_solvePrimalDual opts hvalid).unwatched
      solveContinuous := Service.tracesApart_solveContinuous opts hvalid
      solveInteger := fun method => Service.tracesApart_solveInteger method opts hvalid
      solveKnapsack := Service.tracesApart_solveKnapsack }

/-- A model with a row of each relation. -/
theorem traceInert_mixedModel : mixedModel.Valid ∧ TraceInert {} mixedModel := by
  have hvalid : mixedModel.Valid := by decide +kernel
  exact ⟨hvalid, traceInert_of_valid {} hvalid⟩

end LinOpt
