import LinOpt.Proofs.Analysis.Rewritings
import LinOpt.Proofs.Analysis.WeakDuality
import LinOpt.Proofs.Integer.CutLoop
import LinOpt.Proofs.Simplex.Terminal
import LinOpt.Proofs.Tracing
/-!
# What a client is answered

A solver hands its faults back as results, and a result says by its status what it carries
(`Result.Complete`). So integer models are answered in any case, and so is the comparison with the
dual. Shadow prices and sensitivity come from the inverse of the last basic columns, which is taken
behind the solver. The revised method has inverted them before. The tableau method has not, and it
pivots on entries that the inversion takes for zero: then the fault of the inversion is all that the
client gets, in place of the optimum (`tools_respond`, `slenderModel_unanswered`).
-/

namespace LinOpt

/-! ## Results that carry what their status says -/

section Results

variable {α : Type} {n : ℕ} {status : Status}

/-- **The status says what a result carries**: an objective, and a solution with an entry for each
of `n` variables, or neither. -/
structure Result.Complete (result : Result α) (n : ℕ) : Prop where
  objective : result.objective.isSome = result.status.hasSolution
  solution : result.solution.isSome = result.status.hasSolution
  length_eq : ∀ values, result.solution = some values → values.length = n

theorem Result.complete_failed (h : status.hasSolution = false) (iterations : ℤ)
    (message : Message α) (n : ℕ) : (failed status iterations message).Complete n :=
  ⟨h.symm, h.symm, nofun⟩

theorem Fault.hasSolution_status (cause : Fault α) : cause.status.hasSolution = false := by
  cases cause <;> rfl

theorem Result.complete_ofFault (cause : Fault α) (n : ℕ) : (ofFault cause).Complete n :=
  complete_failed cause.hasSolution_status _ _ n

variable [Scalar α]

/-- A solution whose objective has been computed has an entry for each cost. -/
theorem Result.complete_solved {costs values : List α} {value objective : α}
    (h : status.hasSolution = true) (hobjective : dotAligned costs values = .ok value)
    (iterations : ℤ) (message : Message α) :
    (solved status objective values iterations message).Complete costs.length :=
  ⟨h.symm, h.symm, by
    rintro _ ⟨⟩
    rw [List.length_map, ← length_eq_of_dotAligned hobjective]⟩

variable {observer : Observer} {opts : Options α} {model : Model α}

namespace Simplex

variable {done : Run α}

theorem complete_of_stopped {form : Option (StandardForm α)} {cause : Fault α}
    (h : (stopped observer opts model form cause).outcome = .ok done) :
    done.result.Complete model.costs.length ∧ done.result.status.hasSolution = false := by
  rw [stopped, Traced.outcome_bind] at h
  obtain ⟨-, -, h⟩ := exists_of_bind_eq_ok h
  obtain rfl := Except.ok.inj h
  exact ⟨Result.complete_ofFault cause _, cause.hasSolution_status⟩

theorem complete_of_finish {form : StandardForm α} {terminal : Terminal α}
    (h : (finish observer opts model form terminal).outcome = .ok done) :
    done.result.Complete model.costs.length ∧
      (done.result.status.hasSolution = true → done.result.status = .optimal) := by
  dsimp only [finish] at h
  split at h
  · rw [Traced.outcome_bind] at h
    obtain ⟨-, -, h⟩ := exists_of_bind_eq_ok h
    obtain rfl := Except.ok.inj h
    exact ⟨Result.complete_failed rfl _ _ _, nofun⟩
  · simp only [Traced.outcome_bind] at h
    obtain ⟨objective, hobjective, h⟩ := exists_of_bind_eq_ok h
    obtain ⟨-, -, h⟩ := exists_of_bind_eq_ok h
    obtain ⟨-, -, h⟩ := exists_of_bind_eq_ok h
    obtain rfl := Except.ok.inj h
    exact ⟨Result.complete_solved rfl hobjective _ _, fun _ => rfl⟩

/-- **A run of the simplex method carries what its status says**, and an optimum is the only
solution that it knows. -/
theorem complete_of_run (h : (run observer opts model).outcome = .ok done) :
    done.result.Complete model.costs.length ∧
      (done.result.status.hasSolution = true → done.result.status = .optimal) := by
  have hstopped : ∀ {form cause}, (stopped observer opts model form cause).outcome = .ok done →
      done.result.Complete model.costs.length ∧
        (done.result.status.hasSolution = true → done.result.status = .optimal) := by
    intro form cause hend
    obtain ⟨hcomplete, hnone⟩ := complete_of_stopped hend
    exact ⟨hcomplete, fun hsolution => absurd hsolution (Bool.eq_false_iff.mp hnone)⟩
  unfold run at h
  rw [Traced.outcome_bind] at h
  obtain ⟨-, -, h⟩ := exists_of_bind_eq_ok h
  split at h
  · exact hstopped h
  · rw [Traced.outcome_bind] at h
    obtain ⟨answer, -, h⟩ := exists_of_bind_eq_ok h
    cases answer with
    | error cause => exact hstopped h
    | ok terminal => exact complete_of_finish h

end Simplex

namespace BranchAndBound

/-- What a search that has ended carries. -/
theorem complete_of_conclude {setting : Setting α} {state : State α} {capped : Bool}
    {outcome : SearchOutcome α} (h : conclude setting state capped = .ok outcome) :
    outcome.result.Complete setting.model.costs.length := by
  unfold conclude at h
  dsimp only at h
  split at h
  · obtain rfl := Except.ok.inj h
    dsimp only
    split
    · exact Result.complete_failed rfl _ _ _
    · exact Result.complete_failed rfl _ _ _
  · obtain ⟨solution, -, h⟩ := exists_of_bind_eq_ok h
    obtain ⟨objective, hobjective, h⟩ := exists_of_bind_eq_ok h
    obtain rfl := Except.ok.inj h
    exact Result.complete_solved rfl hobjective _ _

theorem complete_of_searchFrom {setting : Setting α} {root : Result α} {solution : List α}
    {outcome : SearchOutcome α} (h : (searchFrom setting root solution).outcome = .ok outcome) :
    outcome.result.Complete setting.model.costs.length := by
  unfold searchFrom at h
  simp only [Traced.outcome_bind] at h
  obtain ⟨objective, -, h⟩ := exists_of_bind_eq_ok h
  obtain ⟨-, -, h⟩ := exists_of_bind_eq_ok h
  obtain ⟨-, -, h⟩ := exists_of_bind_eq_ok h
  obtain ⟨choice, -, h⟩ := exists_of_bind_eq_ok h
  cases choice with
  | none =>
    simp only [Traced.outcome_bind] at h
    obtain ⟨-, -, h⟩ := exists_of_bind_eq_ok h
    obtain ⟨snapped, -, h⟩ := exists_of_bind_eq_ok h
    obtain ⟨value, hvalue, h⟩ := exists_of_bind_eq_ok h
    obtain rfl := Except.ok.inj h
    exact Result.complete_solved rfl hvalue _ _
  | some _ =>
    simp only [Traced.outcome_bind] at h
    obtain ⟨last, -, h⟩ := exists_of_bind_eq_ok h
    exact complete_of_conclude h

/-- **A search by branch and bound answers**, whatever its solver does, and carries what its status
says where the root relaxation does. -/
theorem exists_searchWith (observer : Observer) (opts : Options α) {solver : Solver α}
    (hroot : ∀ root, solver 1 model = .ok root → root.Complete model.costs.length) :
    ∃ outcome, (searchWith observer opts solver model).outcome = .ok outcome ∧
      outcome.result.Complete model.costs.length := by
  rw [searchWith, Traced.outcome_bind, outcome_header, ok_bind, Traced.outcome_bind,
    Traced.outcome_attempt, ok_bind]
  cases hsearch : (searchModel ⟨observer, opts, solver, model⟩).outcome with
  | error cause =>
    dsimp only
    rw [Traced.outcome_bind, outcome_line, ok_bind]
    exact ⟨_, rfl, Result.complete_failed rfl _ _ _⟩
  | ok outcome =>
    refine ⟨outcome, rfl, ?_⟩
    dsimp only [searchModel] at hsearch
    rw [Traced.outcome_bind] at hsearch
    obtain ⟨root, hsolver, hsearch⟩ := exists_of_bind_eq_ok hsearch
    split at hsearch
    · split at hsearch
      · obtain rfl := Except.ok.inj hsearch
        exact hroot root hsolver
      · exact complete_of_searchFrom hsearch
    · rw [Traced.outcome_bind] at hsearch
      obtain ⟨-, -, hsearch⟩ := exists_of_bind_eq_ok hsearch
      obtain rfl := Except.ok.inj hsearch
      exact hroot root hsolver

theorem exists_search (observer : Observer) (opts : Options α) (model : Model α) :
    ∃ outcome, (search observer opts model).outcome = .ok outcome ∧
      outcome.result.Complete model.costs.length := by
  refine exists_searchWith observer opts fun root hroot => ?_
  rw [simplexSolver, Simplex.solve, Traced.outcome_bind] at hroot
  obtain ⟨done, hrun, hroot⟩ := exists_of_bind_eq_ok hroot
  obtain rfl := Except.ok.inj hroot
  exact (Simplex.complete_of_run hrun).1

end BranchAndBound

namespace CuttingPlane

/-- A status with a solution would have been optimal, and the solution there. -/
theorem complete_of_run_stopped {done : Run α} {current : Model α} {count : ℤ} {n : ℕ}
    (hrun : (Simplex.run .silent opts current).outcome = .ok done)
    (hnone : done.result.status = .optimal → done.result.solution = none) :
    (Result.failed done.result.status count done.result.message).Complete n := by
  obtain ⟨hcomplete, hoptimal⟩ := Simplex.complete_of_run hrun
  refine Result.complete_failed (Bool.eq_false_iff.mpr fun hsolution => ?_) _ _ _
  have hsome := hcomplete.solution
  rw [hnone (hoptimal hsolution), hsolution] at hsome
  cases hsome

/-- What the loop ends with carries what its status says, after any number of cuts. -/
theorem complete_of_cutLoop {budget : ℕ} {current : Model α} {cuts : List (Cut α)}
    {outcome : CutOutcome α}
    (h : (cutLoop observer opts model budget current cuts).outcome = .ok outcome) :
    outcome.result.Complete model.costs.length := by
  induction budget generalizing current cuts with
  | zero =>
    cases round_of_cutLoop h with
    | whole _ _ _ _ _ hvalue hend => exact hend ▸ Result.complete_solved rfl hvalue _ _
    | limit hvalue hend => exact hend ▸ Result.complete_solved rfl hvalue _ _
    | stopped hrun hnone hend => exact hend ▸ complete_of_run_stopped hrun hnone
  | succ budget ih =>
    cases round_of_cutLoop h with
    | whole _ _ _ _ _ hvalue hend => exact hend ▸ Result.complete_solved rfl hvalue _ _
    | stopped hrun hnone hend => exact hend ▸ complete_of_run_stopped hrun hnone
    | cut _ _ _ _ _ _ hrest => exact ih hrest

/-- **A search by cuts answers**, and carries what its status says. -/
theorem exists_search (observer : Observer) (opts : Options α) (model : Model α) :
    ∃ outcome, (search observer opts model).outcome = .ok outcome ∧
      outcome.result.Complete model.costs.length := by
  rw [search, Traced.outcome_bind, outcome_header, ok_bind, Traced.outcome_bind,
    Traced.outcome_attempt, ok_bind]
  cases hloop : (cutLoop observer opts model opts.maxCuts model []).outcome with
  | error cause =>
    dsimp only
    rw [Traced.outcome_bind, outcome_line, ok_bind]
    exact ⟨_, rfl, Result.complete_failed rfl _ _ _⟩
  | ok outcome => exact ⟨outcome, rfl, complete_of_cutLoop hloop⟩

end CuttingPlane

/-! ## Matrices that are taken for singular -/

/-- The fault of a matrix without a pivot above the tolerance. -/
def Fault.IsSingular : Fault α → Prop
  | .singular .. => True
  | _ => False

omit [Scalar α] in
instance : DecidablePred (Fault.IsSingular (α := α))
  | .singular .. => isTrue trivial
  | cause => by cases cause <;> first | exact isFalse id | exact isTrue trivial

/-- Where a fold fails, one of its steps does. -/
theorem exists_of_foldlM_eq_error {ε β γ : Type} {step : β → γ → Except ε β} {xs : List γ} {b : β}
    {cause : ε} (h : xs.foldlM step b = .error cause) : ∃ b x, step b x = .error cause := by
  induction xs generalizing b with
  | nil => cases h
  | cons x xs ih =>
    rw [List.foldlM_cons] at h
    rcases cases_of_bind_eq_error h with hfirst | ⟨next, -, hrest⟩
    · exact ⟨b, x, hfirst⟩
    · exact ih hrest

theorem Dense.isSingular_of_eliminate {rows : Dense α} {i : ℕ} {cause : Fault α}
    (h : eliminate rows i = .error cause) : cause.IsSingular := by
  unfold eliminate at h
  split at h
  · cases h
  · split at h
    · obtain rfl := Except.error.inj h
      trivial
    · cases h

/-- **The inversion of a matrix has no other fault.** -/
theorem Dense.isSingular_of_inverse {A : Dense α} {cause : Fault α}
    (h : Dense.inverse A = .error cause) : cause.IsSingular := by
  rcases cases_of_bind_eq_error h with hrounds | ⟨rows, -, hlast⟩
  · obtain ⟨rows, i, hround⟩ := exists_of_foldlM_eq_error hrounds
    exact isSingular_of_eliminate hround
  · cases hlast

end Results

/-! ## Reports -/

namespace SensitivityState

variable {state : SensitivityState ℚ}

/-- Every variable has a cost range. -/
theorem exists_objectiveRange (hcomponents : state.form.components.length = state.costs.length)
    {j : ℕ} (hj : j < state.costs.length) : ∃ range, state.objectiveRange j = .ok range := by
  have hread : (Position.read state.form.components (j : ℤ) : Except (Fault ℚ) _) =
      .ok (state.form.components.getD j []) := position_read_eq (hcomponents ▸ hj) []
  have hcost : (Position.read state.costs (j : ℤ) : Except (Fault ℚ) ℚ) =
      .ok (state.costs.getD j 0) := position_read_eq hj 0
  unfold objectiveRange
  rw [position_get_eq (hcomponents ▸ hj) [], ok_bind]
  split
  · rename_i column sign hparts
    have hcolumn : state.columnOf j = .ok (column, sign) := by
      rw [columnOf, hread, ok_bind, hparts]
      rfl
    split
    · rename_i hbasic
      rw [basicRange, hcolumn, ok_bind, hcost]
      simp only [hbasic]
      exact ⟨_, rfl⟩
    · rename_i hbasic
      rw [nonbasicRange, hcolumn, ok_bind, hcost]
      simp only [hbasic]
      exact ⟨_, rfl⟩
  · exact ⟨_, rfl⟩

/-- **A state with a place for everything can be reported.** -/
theorem exists_report (hcomponents : state.form.components.length = state.costs.length)
    (hnames : ∀ k ∈ state.basic, k < state.form.columnNames.length) :
    ∃ report, state.report = .ok report := by
  obtain ⟨ranges, hranges⟩ := exists_mapM_eq_ok fun j (hj : j ∈ List.range state.costs.length) =>
    exists_objectiveRange hcomponents (List.mem_range.mp hj)
  have hbasic : state.basic.mapM state.form.columnName =
      .ok (state.basic.map fun k => state.form.columnNames.getD k "") :=
    mapM_eq_ok fun k hk => position_get_eq (hnames k hk) ""
  rw [report_eq, hranges, ok_bind, hbasic, ok_bind]
  exact ⟨_, rfl⟩

end SensitivityState

/-! ## Optima whose basis is not inverted -/

/-- Whether a fault has a property can be tried out. -/
instance decidableExistsError {ε β : Type} (answer : Except ε β) (P : ε → Prop) [DecidablePred P] :
    Decidable (∃ cause, answer = .error cause ∧ P cause) :=
  match answer with
  | .error cause => decidable_of_iff (P cause)
      ⟨fun h => ⟨cause, rfl, h⟩, fun ⟨_, hcause, h⟩ => Except.error.inj hcause ▸ h⟩
  | .ok _ => isFalse nofun

namespace Simplex

variable {opts : Options ℚ} {model : Model ℚ} {done : Run ℚ} {cause : Fault ℚ}

/-- **An optimum of the tableau method whose basic columns are taken for singular** when they are
inverted to price it. -/
structure LosesBasis (opts : Options ℚ) (model : Model ℚ) (cause : Fault ℚ) : Prop where
  method : opts.method = .tableau
  singular : cause.IsSingular
  ends : ∃ done, (run .silent opts model).outcome = .ok done ∧ done.isOptimal = true ∧
    done.basisInverse = .error cause

variable (hvalid : model.Valid) (hrun : (run .silent opts model).outcome = .ok done)
  (hoptimal : done.isOptimal = true)

include hvalid hrun hoptimal

/-- **The analysis of an optimum fails only with its inversion**, and what it answers otherwise can
be reported. -/
theorem exists_sensitivity_eq : ∃ state : Dense ℚ → SensitivityState ℚ,
    done.sensitivity = done.basisInverse.map state ∧
      ∀ inverse, ∃ report, (state inverse).report = .ok report := by
  obtain ⟨hmodel, hform⟩ := form_of_run hvalid hrun
  obtain ⟨basis, hbasis⟩ := Run.exists_basis_of_isOptimal hoptimal
  have hfits := fits_of_run hvalid hrun hbasis
  obtain ⟨solution, objective, hsolution, hobjective⟩ : ∃ solution objective,
      done.result.solution = some solution ∧
        dotAligned done.model.costs solution = .ok objective := by
    obtain ⟨hcomplete, -⟩ := complete_of_run hrun
    have hstatus : done.result.status = .optimal := by
      simpa using (Bool.and_eq_true_iff.mp hoptimal).1
    have hsome := hcomplete.solution
    rw [hstatus, Status.hasSolution, Option.isSome_iff_exists] at hsome
    obtain ⟨solution, hsolution⟩ := hsome
    refine ⟨solution, dot done.model.costs solution, hsolution, if_pos ?_⟩
    rw [hmodel, hcomplete.length_eq solution hsolution]
  refine ⟨fun inverse => done.stateAt (model.standardForm opts) basis inverse objective, ?_,
    fun inverse => SensitivityState.exists_report ?_ fun k hk => ?_⟩
  · rw [Run.sensitivity_eq hoptimal hform hbasis, Run.basisInverse_eq hform hbasis, hsolution,
      Option.getD_some, hobjective]
    rfl
  · change model.components.length = done.model.costs.length
    rw [StandardForm.length_components hvalid.sized, hmodel]
    rfl
  · change k < (model.standardForm opts).columnNames.length
    rw [Model.length_columnNames_standardForm opts hvalid.sized, ← Model.width_standardForm opts]
    exact hfits.lt_width k hk

/-- **Only the tableau method loses a basis**, and always to a pivot below the tolerance. -/
theorem losesBasis_iff : LosesBasis opts model cause ↔ done.basisInverse = .error cause := by
  obtain ⟨basis, hbasis⟩ := Run.exists_basis_of_isOptimal hoptimal
  have hcolumns := Run.basisInverse_eq (form_of_run hvalid hrun).2 hbasis
  constructor
  · rintro ⟨-, -, done', hrun', -, hinverse⟩
    obtain rfl := Except.ok.inj (hrun.symm.trans hrun')
    exact hinverse
  · intro hinverse
    refine ⟨?_, ?_, done, hrun, hoptimal, hinverse⟩
    · cases hmethod : opts.method with
      | tableau => rfl
      | revised =>
        obtain ⟨inverse, hfound⟩ := exists_inverse_of_revised hvalid hmethod hrun hbasis
        rw [hcolumns, hfound] at hinverse
        cases hinverse
    · rw [hcolumns] at hinverse
      exact Dense.isSingular_of_inverse hinverse

end Simplex

/-- **What goes on from an optimum where it is wanted** is answered, unless the basis is lost; and
then it has the fault of the inversion. -/
theorem Simplex.answers_wanted {opts : Options ℚ} {model : Model ℚ} {done : Run ℚ} {β : Type}
    {P : β → Prop} {wanted : Bool} {next : SensitivityState ℚ → Except (Fault ℚ) β} {other : β}
    {answer : Except (Fault ℚ) β} (hvalid : model.Valid)
    (hrun : (run .silent opts model).outcome = .ok done)
    (hanswer : answer = if wanted && done.isOptimal then done.sensitivity >>= next else .ok other)
    (hother : P other)
    (hnext : ∀ state report, state.report = .ok report → ∃ b, next state = .ok b ∧ P b) :
    ((wanted = true → ∀ cause, ¬LosesBasis opts model cause) → ∃ b, answer = .ok b ∧ P b) ∧
      ∀ cause, answer = .error cause ↔ wanted = true ∧ LosesBasis opts model cause := by
  by_cases hpriced : (wanted && done.isOptimal) = true
  · obtain ⟨hwanted, hoptimal⟩ := Bool.and_eq_true_iff.mp hpriced
    obtain ⟨state, hsensitivity, hreport⟩ := exists_sensitivity_eq hvalid hrun hoptimal
    rw [if_pos hpriced, hsensitivity] at hanswer
    simp only [hwanted, true_and, forall_const, losesBasis_iff hvalid hrun hoptimal]
    cases hinverse : done.basisInverse with
    | error cause =>
      rw [hinverse] at hanswer
      refine ⟨fun h => absurd rfl (h cause), fun other => ?_⟩
      rw [hanswer]
      change Except.error cause = Except.error other ↔ _
      rw [Except.error.injEq, Except.error.injEq]
    | ok inverse =>
      obtain ⟨report, hreport⟩ := hreport inverse
      obtain ⟨b, hb, hP⟩ := hnext _ report hreport
      have hb : answer = .ok b := by rw [hanswer, hinverse]; exact hb
      exact ⟨fun _ => ⟨b, hb, hP⟩, fun cause => by rw [hb]; simp⟩
  · rw [if_neg hpriced] at hanswer
    refine ⟨fun _ => ⟨other, hanswer, hother⟩, fun cause => ⟨fun h => ?_, ?_⟩⟩
    · rw [hanswer] at h
      cases h
    · -- a basis is lost at an optimum only
      rintro ⟨hwanted, -, -, done', hrun', hoptimal, -⟩
      obtain rfl := Except.ok.inj (hrun.symm.trans hrun')
      exact absurd (Bool.and_eq_true_iff.mpr ⟨hwanted, hoptimal⟩) hpriced

/-! ## Answers to a client -/

theorem exists_compareObjectives (observer : Observer) (sense : Sense) (primal dual : Result ℚ) :
    ∃ check, (compareObjectives observer sense primal dual).outcome = .ok check := by
  unfold compareObjectives
  split
  · simp only [Traced.outcome_bind, outcome_header, outcome_line, outcome_say, ok_bind]
    exact ⟨_, rfl⟩
  · exact ⟨_, rfl⟩

namespace Service

open Simplex

variable {opts : Options ℚ} {model : Model ℚ}

/-- **What a client is answered about a model.** Every request has an answer but for one cause: an
optimum whose basis is lost has no shadow prices and no analysis, and the fault of the inversion
takes the place of the answer. -/
structure Responds (opts : Options ℚ) (model : Model ℚ) : Prop where
  continuous : ∀ trace, (opts.returnDuals = true → ∀ cause, ¬LosesBasis opts model cause) →
    ∃ answer, solveContinuous model opts trace = .ok answer ∧
      answer.result.Complete model.variableCount
  continuous_fault : ∀ trace cause, solveContinuous model opts trace = .error cause ↔
    opts.returnDuals = true ∧ LosesBasis opts model cause
  integer : ∀ method trace, ∃ answer, solveInteger model method opts trace = .ok answer ∧
    answer.result.Complete model.variableCount
  dual : ∃ report, compareDual model opts = .ok report
  analysis : (∀ cause, ¬LosesBasis opts model cause) → ∃ analysis, analyze model opts = .ok analysis
  analysis_fault : ∀ cause, analyze model opts = .error cause ↔ LosesBasis opts model cause

/-- An integer model is answered by either method. -/
theorem exists_solveInteger (opts : Options ℚ) (model : Model ℚ) (method : IntegerMethod)
    (trace : Bool) : ∃ answer, solveInteger model method opts trace = .ok answer ∧
      answer.result.Complete model.variableCount := by
  cases method with
  | branchAndBound =>
    obtain ⟨outcome, hsearch, hcomplete⟩ :=
      BranchAndBound.exists_search (observer trace) opts model
    dsimp only [solveInteger]
    rw [hsearch, ok_bind]
    exact ⟨_, rfl, hcomplete⟩
  | cuttingPlane =>
    obtain ⟨outcome, hsearch, hcomplete⟩ := CuttingPlane.exists_search (observer trace) opts model
    dsimp only [solveInteger]
    rw [hsearch, ok_bind]
    exact ⟨_, rfl, hcomplete⟩

/-- The comparison of a model with its dual is answered. -/
theorem exists_compareDual (opts : Options ℚ) (hvalid : model.Valid) :
    ∃ report, compareDual model opts = .ok report := by
  have hsolve : ∀ {problem : Model ℚ}, problem.Valid →
      ∃ result, (solve .silent opts problem).outcome = .ok result := by
    intro problem hproblem
    rw [solve, Traced.outcome_bind, outcome_run .silent opts hproblem, ok_bind]
    exact ⟨_, rfl⟩
  obtain ⟨primal, hprimal⟩ := hsolve hvalid.relaxed
  obtain ⟨other, hother, hotherValid, -⟩ := Model.exists_dualOf hvalid.relaxed
  obtain ⟨dual, hdual⟩ := hsolve hotherValid
  obtain ⟨check, hcheck⟩ := exists_compareObjectives .silent model.sense primal dual
  have houtcome : compareDual model opts = .ok ⟨primal, dual, other, check⟩ := by
    rw [compareDual, solvePrimalDual, Model.relaxed_eq hvalid.sized]
    simp only [Traced.outcome_bind, BranchAndBound.outcome_lift, ok_bind,
      hother, hprimal, hdual, hcheck]
    rfl
  exact ⟨_, houtcome⟩

/-- **The tools answer every valid model**, but for an optimum whose basis is lost. -/
theorem tools_respond (opts : Options ℚ) (hvalid : model.Valid) : Responds opts model := by
  obtain ⟨done, hrun⟩ : ∃ done, (run .silent opts model).outcome = .ok done :=
    ⟨_, outcome_run .silent opts hvalid⟩
  have hcomplete := (complete_of_run hrun).1
  have hcontinuous : ∀ trace, ∃ events, solveContinuous model opts trace =
      if opts.returnDuals && done.isOptimal then done.sensitivity >>= fun state =>
        .ok ⟨done.result, some state.shadowPrices, events⟩
      else .ok ⟨done.result, none, events⟩ := by
    intro trace
    have hwatched := ((laidOut_run opts (le_of_eq hvalid.sized.names.symm)).outcome_eq
      (observer trace)).trans hrun
    refine ⟨traceOf trace (run (observer trace) opts model), ?_⟩
    rw [solveContinuous, hwatched, ok_bind]
    rfl
  have hanalysis : analyze model opts = if true && done.isOptimal then
      done.sensitivity >>= fun state => state.report >>= fun report =>
        .ok (.report done.result.status report)
      else .ok (.noOptimum done.result.status done.result.message) := by
    rw [analyze, hrun, ok_bind]
    rfl
  have hpriced : ∀ trace, _ := fun trace =>
    answers_wanted (P := fun answer => answer.result.Complete model.variableCount) hvalid hrun
      (hcontinuous trace).choose_spec hcomplete fun _ _ _ => ⟨_, rfl, hcomplete⟩
  have hanalysed := answers_wanted (P := fun _ => True) hvalid hrun hanalysis trivial
    fun state report hreport => ⟨_, by rw [hreport, ok_bind], trivial⟩
  exact
    { continuous := fun trace => (hpriced trace).1
      continuous_fault := fun trace => (hpriced trace).2
      integer := exists_solveInteger opts model
      dual := exists_compareDual opts hvalid
      analysis := fun hkept => by
        obtain ⟨analysis, hanswer, -⟩ := hanalysed.1 fun _ => hkept
        exact ⟨analysis, hanswer⟩
      analysis_fault := fun cause => by
        rw [hanalysed.2, eq_self, true_and] }

/-- The tools on a model with a row of each relation, with a trace. -/
theorem tools_respond_mixedModel : mixedModel.Valid ∧
    (∃ answer, solveContinuous mixedModel {} true = .ok answer ∧ answer.result.Complete 2) ∧
    ∃ analysis, analyze mixedModel {} = .ok analysis := by
  have hvalid : mixedModel.Valid := by decide
  have hends : ∃ done, (run .silent {} mixedModel).outcome = .ok done ∧
      ∃ inverse, done.basisInverse = .ok inverse ∧ inverse.length = 3 := by decide +kernel
  have hkept : ∀ cause, ¬LosesBasis {} mixedModel cause := by
    rintro cause ⟨-, -, done', hrun', -, hlost⟩
    obtain ⟨done, hrun, inverse, hinverse, -⟩ := hends
    obtain rfl := Except.ok.inj (hrun.symm.trans hrun')
    rw [hinverse] at hlost
    cases hlost
  have hresponds := tools_respond {} hvalid
  exact ⟨hvalid, hresponds.continuous true fun _ => hkept, hresponds.analysis hkept⟩

/-- Two pivots near `5e-7` lead to the optimum: maximise `x + y` under `e x + e (1 - e) y ≤ e` and
`x + y ≤ 1 + e / 2`, with `e = 2⁻²¹`. -/
def slenderModel : Model ℚ :=
  { sense := .max, rows := [[1 / 2 ^ 21, 1 / 2 ^ 21 - 1 / 2 ^ 42], [1, 1]]
    rhs := [1 / 2 ^ 21, 1 + 1 / 2 ^ 22], costs := [1, 1], signs := [.le, .le]
    kinds := [.nonneg, .nonneg] }

/-- **An optimum that is found is not answered**: with the options as they are the run of
`slenderModel` ends at its optimum, and neither the solution nor the analysis reaches the client, as
the determinant of the basic columns is below the tolerance of the inversion. -/
theorem slenderModel_unanswered : slenderModel.Valid ∧ 0 ≤ ({} : Options ℚ).tol ∧
    (∃ done, (run .silent {} slenderModel).outcome = .ok done ∧ done.result.status = .optimal ∧
      done.result.solution = some [1 / 2 + 1 / 2 ^ 22, 1 / 2]) ∧
    (∃ cause, solveContinuous slenderModel {} false = .error cause ∧ cause.IsSingular) ∧
    ∃ cause, analyze slenderModel {} = .error cause ∧ cause.IsSingular := by
  decide +kernel

end Service

end LinOpt
