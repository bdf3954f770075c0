import LinOpt.Proofs.Tableau.DualSimplex
/-!
# What the dual simplex method certifies

A dual run hands back its tableau however it ends, and the tableau is one that it has walked to. So
the tableau is canonical in any case, and each end has its own certificate: a fault of names or events
is none of its verdicts. At the end of a run that returns, the right-hand side is within the tolerance.
A run that calls the system infeasible stands at a blocked row, and the row is a combination of the
equations (`exists_combination`).
-/

namespace LinOpt

open Finset

/-! ## Faults of names and events -/

section Faults

variable {α β γ : Type} {cause : Fault α}

/-- Where a list is mapped in vain, one of its entries is. -/
theorem exists_of_mapM_eq_error {ε : Type} {f : β → Except ε γ} {xs : List β} {fault : ε}
    (h : xs.mapM f = .error fault) : ∃ x ∈ xs, f x = .error fault := by
  induction xs with
  | nil => cases h
  | cons x xs ih =>
    rw [List.mapM_cons] at h
    rcases cases_of_bind_eq_error h with hfirst | ⟨y, -, h⟩
    · exact ⟨x, List.mem_cons_self, hfirst⟩
    · rcases cases_of_bind_eq_error h with hrest | ⟨ys, -, hlast⟩
      · obtain ⟨z, hz, hfault⟩ := ih hrest
        exact ⟨z, List.mem_cons_of_mem _ hz, hfault⟩
      · cases hlast

theorem isSolverStop_of_get {xs : List β} {k : ℕ} (h : Position.get xs k = .error cause) :
    cause.isSolverStop = false := by
  unfold Position.get at h
  split at h
  · cases h
  · obtain rfl := Except.error.inj h
    rfl

theorem isSolverStop_of_rowFault? {digits : ℤ} {named : Bool} {rows : Dense α} {names : List String}
    (h : Event.rowFault? digits named rows names = some cause) : cause.isSolverStop = false := by
  induction rows generalizing names with
  | nil => cases h
  | cons row rows ih =>
    unfold Event.rowFault? at h
    split at h
    · obtain rfl := Option.some.inj h
      rfl
    · split at h
      · obtain rfl := Option.some.inj h
        rfl
      · exact ih h

namespace Tableau

variable {T : Tableau α} {observer : Observer}

theorem isSolverStop_of_columnName {j : ℕ} (h : T.columnName j = .error cause) :
    cause.isSolverStop = false := isSolverStop_of_get h

theorem isSolverStop_of_basicName {row : ℕ} (h : T.basicName row = .error cause) :
    cause.isSolverStop = false := by
  rcases cases_of_bind_eq_error h with hbasis | ⟨j, -, hname⟩
  · exact isSolverStop_of_get hbasis
  · exact isSolverStop_of_columnName hname

/-- **A tableau that cannot be shown is no verdict**: the fault is one of its names. -/
theorem isSolverStop_of_display [Scalar α] {title : String}
    (h : (T.display observer title).outcome = .error cause) : cause.isSolverStop = false := by
  rw [Tableau.display, Traced.outcome_bind] at h
  rcases cases_of_bind_eq_error h with hnames | ⟨names, -, hmatrix⟩
  · change T.rowNames = .error cause at hnames
    rcases cases_of_bind_eq_error hnames with hbasic | ⟨basic, -, hlast⟩
    · obtain ⟨j, -, hname⟩ := exists_of_mapM_eq_error hbasic
      exact isSolverStop_of_columnName hname
    · cases hlast
  · cases observer with
    | silent => cases hmatrix
    | recording =>
      unfold Observer.matrix Observer.notice at hmatrix
      dsimp only at hmatrix
      split at hmatrix
      · rename_i fault hfault
        obtain rfl := Except.error.inj hmatrix
        exact isSolverStop_of_rowFault? hfault
      · cases hmatrix

end Tableau

end Faults

/-! ## The run -/

/-- A move that cannot be reported is no verdict. -/
theorem Tableau.Unreported.isSolverStop {T : Tableau ℚ} {observer : Observer} {tol : ℚ}
    {cause : Fault ℚ} (h : T.Unreported observer tol cause) : cause.isSolverStop = false := by
  cases h with
  | blocked _ hname => exact Tableau.isSolverStop_of_basicName hname
  | leaving _ hname => exact Tableau.isSolverStop_of_basicName hname
  | entering _ hname => exact Tableau.isSolverStop_of_columnName hname
  | display _ hshown => exact Tableau.isSolverStop_of_display hshown

namespace DualRun.Follows

variable {observer : Observer} {opts : Options ℚ} {T : Tableau ℚ} {done : DualRun ℚ}
  (h : done.Follows observer opts T)

include h

/-- Where the run returns, its tableau has nothing to restore. -/
theorem feasible {n : ℕ} (hok : done.pivots = .ok n) :
    done.tableau.nextDualMove opts.tol = .feasible := by
  rcases h.pivots with hverdict | ⟨S, cause, -, -, herror⟩
  · rw [hok] at hverdict
    unfold Tableau.dualVerdict at hverdict
    split at hverdict
    · assumption
    · cases hverdict
    · cases hverdict
  · cases hok.symm.trans herror

/-- Where the run calls the equations infeasible, its tableau has a blocked row. -/
theorem blocked {name : String} {n : ℕ} (herror : done.pivots = .error (.noNegativeEntry name n)) :
    ∃ row, done.tableau.nextDualMove opts.tol = .blocked row := by
  rcases h.pivots with hverdict | ⟨S, cause, -, hfault, hcause⟩
  · rw [herror] at hverdict
    unfold Tableau.dualVerdict at hverdict
    split at hverdict
    · cases hverdict
    · exact ⟨_, ‹_›⟩
    · cases hverdict
  · obtain rfl := Except.error.inj (herror.symm.trans hcause)
    cases hfault.isSolverStop

end DualRun.Follows

/-! ## Combinations of the equations -/

variable {E : Equations} {T : Tableau ℚ} {tol : ℚ} {x y : List ℚ} {i row : ℕ}

/-- **A solution of the equations meets every combination of them.** -/
theorem Equations.Solves.dot_vecMul (hx : E.Solves x) (y : List ℚ) :
    dot (Dense.vecMul E.width y E.rows) x = dot y E.rhs := by
  have hrow : ∀ row ∈ E.rows, row.length ≤ E.width := fun row h => le_of_eq (E.row_length row h)
  rw [Dense.dot_vecMul y fun i hi => Dense.entry_mulVec hrow hi x, hx]

/-- **A row of a canonical tableau is a combination of the equations.** -/
theorem Tableau.Canonical.exists_combination (h : T.Canonical E) (hi : i < E.height) :
    ∃ y, y.length = E.height ∧ dot y E.rhs = T.cell i E.width ∧
      ∀ j < E.width, entry (Dense.vecMul E.width y E.rows) j = T.cell i j := by
  obtain ⟨q, hq⟩ := h.exists_multiplier_range
  refine ⟨(List.range E.height).map (q i), by simp, ?_, fun j hj => ?_⟩
  · rw [dot_eq_sum_right (n := E.height) (le_of_eq E.rhs_length), hq i hi]
    refine Finset.sum_congr rfl fun k hk => ?_
    rw [entry_range_map _ (mem_range.mp hk), E.cell_augmented_width (mem_range.mp hk)]
  · rw [Dense.entry_vecMul hj, hq i hi]
    refine Finset.sum_congr rfl fun k hk => ?_
    rw [entry_range_map _ (mem_range.mp hk), E.cell_augmented (mem_range.mp hk) hj]

/-- **What a blocked row proves**: a combination of the equations with a right-hand side below `-tol`
and no coefficient below it. A solution without negative entries has a total that makes up for the
difference, so without a tolerance there is none. -/
theorem Tableau.Canonical.exists_refutation (h : T.Canonical E)
    (hmove : T.nextDualMove tol = .blocked row) :
    ∃ y, y.length = E.height ∧ dot y E.rhs < -tol ∧
      (∀ a ∈ Dense.vecMul E.width y E.rows, -tol ≤ a) ∧
      (∀ x, x.length = E.width → (∀ a ∈ x, 0 ≤ a) → E.Solves x → -dot y E.rhs ≤ tol * x.sum) ∧
      (tol = 0 → ∀ x, x.length = E.width → (∀ a ∈ x, 0 ≤ a) → ¬ E.Solves x) := by
  obtain ⟨hrow, hneg, hentries⟩ := h.blocked_of_nextDualMove hmove
  obtain ⟨y, hlen, hrhs, hcoefficients⟩ := h.exists_combination hrow
  refine ⟨y, hlen, hrhs ▸ hneg, ?_, ?_, ?_⟩
  · intro a ha
    obtain ⟨j, hj, rfl⟩ := List.getElem_of_mem ha
    have hj' : j < E.width := Dense.length_vecMul E.width y E.rows ▸ hj
    rw [← entry_eq_getElem hj, hcoefficients j hj']
    exact hentries j hj'
  · intro x hx hnonneg hsolves
    rw [hrhs]
    exact h.neg_rhs_le_of_blocked hmove hx hsolves hnonneg
  · rintro rfl x hx hnonneg hsolves
    have hbound := h.neg_rhs_le_of_blocked hmove hx hsolves hnonneg
    linarith

namespace Tableau

/-- **What the dual simplex method certifies**, from any canonical tableau. However it ends, the
tableau is canonical for the same equations. Where it returns, no basic value is below `-tol` and the
basic point solves the equations. Where it calls the equations infeasible, a combination of them has
a right-hand side below `-tol` and no coefficient below it. -/
theorem reoptimize_certifies (observer : Observer) (opts : Options ℚ) (htol : 0 ≤ opts.tol)
    (h : T.Canonical E) :
    ∃ done, (T.reoptimize observer opts).outcome = .ok done ∧ done.tableau.Canonical E ∧
      (∀ n, done.pivots = .ok n → (∀ b ∈ done.tableau.rhs, -opts.tol ≤ b) ∧
        E.Solves done.tableau.primalValues) ∧
      ∀ name n, done.pivots = .error (.noNegativeEntry name n) →
        ∃ y, (∀ x, E.Solves x → dot (Dense.vecMul E.width y E.rows) x = dot y E.rhs) ∧
          dot y E.rhs < -opts.tol ∧ (∀ a ∈ Dense.vecMul E.width y E.rows, -opts.tol ≤ a) ∧
          (∀ x, x.length = E.width → (∀ a ∈ x, 0 ≤ a) → E.Solves x →
            -dot y E.rhs ≤ opts.tol * x.sum) ∧
          (opts.tol = 0 → ∀ x, x.length = E.width → (∀ a ∈ x, 0 ≤ a) → ¬ E.Solves x) := by
  obtain ⟨done, hdone, hfollows⟩ := exists_follows_reoptimize observer opts T
  have hT := h.dualLeads htol hfollows.leads
  refine ⟨done, hdone, hT, fun n hok => ⟨?_, hT.solves_primalValues⟩, fun name n herror => ?_⟩
  · intro b hb
    obtain ⟨i, hi, rfl⟩ := List.getElem_of_mem hb
    have hi' : i < E.height := hT.length_rhs ▸ hi
    rw [← entry_eq_getElem hi, hT.entry_rhs hi']
    exact hT.le_of_nextDualMove_feasible (hfollows.feasible hok) hi'
  · obtain ⟨row, hmove⟩ := hfollows.blocked herror
    obtain ⟨y, -, hrhs, hcoefficients, htotal, hnone⟩ := hT.exists_refutation hmove
    exact ⟨y, fun x hx => hx.dot_vecMul y, hrhs, hcoefficients, htotal, hnone⟩

/-- `x ≥ 2` and `x ≤ limit`, with the slacks basic: the first row has a negative right-hand side. -/
def clampEquations (limit : ℚ) : Equations where
  rows := [[-1, 1, 0], [1, 0, 1]]
  rhs := [-2, limit]
  costs := [1, 0, 0]
  rhs_length := rfl
  row_length := by decide

/-- The tableau of `clampEquations` at the slacks. -/
def clampTableau (limit : ℚ) : Tableau ℚ := (clampEquations limit).tableau [1, 2] ["x", "s", "t"]

theorem canonical_clampTableau (limit : ℚ) :
    (clampTableau limit).Canonical (clampEquations limit) := by
  refine canonical_initial _ _ rfl (fun k hk => ?_) (show ∀ i < 2, ∀ k < 2,
    Dense.cell [[-1, 1, 0], [1, 0, 1]] i ([1, 2].getD k 0) = if i = k then (1 : ℚ) else 0 by decide)
  exact (show ∀ k ∈ [1, 2], k < 3 by decide) k hk

/-- One pivot restores `x ≤ 3`; `x ≤ 1` is called infeasible after it, by the sum of the two rows. -/
theorem reoptimize_certifies_clampTableau :
    (∃ done, ((clampTableau 3).reoptimize .silent {}).outcome = .ok done ∧
      done.moves = [(0, 0)] ∧ (∀ b ∈ done.tableau.rhs, -1e-9 ≤ b) ∧
      (clampEquations 3).Solves done.tableau.primalValues) ∧
    ∃ done, ((clampTableau 1).reoptimize .silent {}).outcome = .ok done ∧
      done.moves = [(0, 0)] ∧ done.tableau.Canonical (clampEquations 1) ∧
      done.pivots = .error (.noNegativeEntry "t" 1) ∧
      ∃ y, (∀ x, (clampEquations 1).Solves x →
          dot (Dense.vecMul 3 y (clampEquations 1).rows) x = dot y (clampEquations 1).rhs) ∧
        dot y (clampEquations 1).rhs < -1e-9 ∧
        (∀ a ∈ Dense.vecMul 3 y (clampEquations 1).rows, -1e-9 ≤ a) := by
  have htol : (0 : ℚ) ≤ ({} : Options ℚ).tol := by norm_num
  have hmet : ∃ done, ((clampTableau 3).reoptimize .silent {}).outcome = .ok done ∧
      done.moves = [(0, 0)] ∧ done.tableau.nextDualMove 1e-9 = .feasible := by decide +kernel
  have hvoid : ∃ done, ((clampTableau 1).reoptimize .silent {}).outcome = .ok done ∧
      done.moves = [(0, 0)] ∧ done.tableau.nextDualMove 1e-9 = .blocked 1 ∧
      done.tableau.names.getD (done.tableau.basic 1) "" = "t" := by decide +kernel
  -- the verdict is that of the last tableau
  have hpivots : ∀ limit done, ((clampTableau limit).reoptimize .silent {}).outcome = .ok done →
      done.pivots = done.tableau.dualVerdict {} done.moves.length := by
    intro limit done hdone
    obtain ⟨done', hdone', hfollows⟩ := exists_follows_reoptimize .silent {} (clampTableau limit)
    obtain rfl := Except.ok.inj (hdone.symm.trans hdone')
    exact (canonical_clampTableau limit).pivots_eq (le_refl 3) htol hfollows
  refine ⟨?_, ?_⟩
  · obtain ⟨done, hdone, hmoves, hmove⟩ := hmet
    obtain ⟨done', hdone', -, hreturns, -⟩ :=
      reoptimize_certifies .silent {} htol (canonical_clampTableau 3)
    obtain rfl := Except.ok.inj (hdone.symm.trans hdone')
    have hok : done.pivots = .ok 1 := by
      rw [hpivots 3 done hdone, dualVerdict, show ({} : Options ℚ).tol = 1e-9 from rfl, hmove, hmoves]
      rfl
    obtain ⟨hrhs, hsolves⟩ := hreturns 1 hok
    exact ⟨done, hdone, hmoves, hrhs, hsolves⟩
  · obtain ⟨done, hdone, hmoves, hmove, hname⟩ := hvoid
    obtain ⟨done', hdone', hcanonical, -, hrefuted⟩ :=
      reoptimize_certifies .silent {} htol (canonical_clampTableau 1)
    obtain rfl := Except.ok.inj (hdone.symm.trans hdone')
    have herror : done.pivots = .error (.noNegativeEntry "t" 1) := by
      rw [hpivots 1 done hdone, dualVerdict, show ({} : Options ℚ).tol = 1e-9 from rfl, hmove, hmoves,
        ← hname]
      rfl
    obtain ⟨y, himplied, hneg, hcoefficients, -⟩ := hrefuted "t" 1 herror
    exact ⟨done, hdone, hmoves, hcanonical, herror, y, himplied, hneg, hcoefficients⟩

end Tableau

end LinOpt
