import LinOpt.Proofs.Simplex.Outcome
import LinOpt.Tableau.DualSimplex
/-!
# What the dual simplex method leaves behind

The dual simplex method pivots on entries below `-tol`, so every tableau it meets is canonical for the
system it started from (`Canonical.dualLeads`). Where no right-hand side is below `-tol` it is done.
Where a row is blocked, the row is an equation that no solution of small total can meet without a
negative entry (`Canonical.neg_rhs_le_of_blocked`).

However it ends, the method hands back a tableau that it has walked to (`exists_follows_reoptimize`):
neither names that are missing nor an observer that gives up change that. It comes with the verdict of
that tableau, or with the fault of a move that could not be reported, which canonical tableaus with
enough names do not have (`Canonical.pivots_eq`).
-/

namespace LinOpt

open Finset

/-! ## Choices by a fold -/

section Select

variable {β γ : Type} {step : Option γ → β → Option γ} {keep : β → Prop} {from? : β → γ → Prop}
  {candidates : List β} {best : Option γ} {chosen : γ}
  (hstep : ∀ best b, step best b = best ∨ keep b ∧ ∃ c, step best b = some c ∧ from? b c)

include hstep

/-- A choice that ends at a candidate has met it, or has started with it. -/
theorem foldl_select_some (h : candidates.foldl step best = some chosen) :
    best = some chosen ∨ ∃ b ∈ candidates, keep b ∧ from? b chosen := by
  induction candidates generalizing best with
  | nil => exact Or.inl h
  | cons b candidates ih =>
    rw [List.foldl_cons] at h
    rcases ih h with hbest | ⟨c, hc, hkeep, hfrom⟩
    · rcases hstep best b with hsame | ⟨hkeep, c, htaken, hfrom⟩
      · exact Or.inl (hsame ▸ hbest)
      · obtain rfl := Option.some.inj (htaken.symm.trans hbest)
        exact Or.inr ⟨b, by simp, hkeep, hfrom⟩
    · exact Or.inr ⟨c, by simp [hc], hkeep, hfrom⟩

/-- A choice that ends with nothing has met no candidate worth keeping. -/
theorem foldl_select_none (hfirst : ∀ b, keep b → step none b ≠ none)
    (h : candidates.foldl step best = none) : best = none ∧ ∀ b ∈ candidates, ¬ keep b := by
  induction candidates generalizing best with
  | nil => exact ⟨h, by simp⟩
  | cons b candidates ih =>
    rw [List.foldl_cons] at h
    obtain ⟨hnone, hrest⟩ := ih h
    have hbest : best = none := by
      rcases hstep best b with hsame | ⟨-, c, htaken, -⟩
      · exact hsame ▸ hnone
      · rw [htaken] at hnone
        cases hnone
    refine ⟨hbest, fun c hc => ?_⟩
    rcases List.mem_cons.mp hc with rfl | hc
    · intro hkeep
      rw [hbest] at hnone
      exact hfirst c hkeep hnone
    · exact hrest c hc

end Select

section MostNegative

variable {values : List ℚ} {tol : ℚ} {i : ℕ}

/-- One look at a candidate for the most negative value. -/
def lowerOf (tol : ℚ) (best : Option (ℚ × ℕ)) (candidate : ℚ × ℕ) : Option (ℚ × ℕ) :=
  if candidate.1 < -tol ∧ best.all (fun b => decide (candidate.1 < b.1)) then some candidate else best

theorem mostNegative_eq (values : List ℚ) (tol : ℚ) :
    mostNegative values tol = (values.zipIdx.foldl (lowerOf tol) none).map (·.2) := rfl

/-- A candidate is taken only where it is below `-tol`. -/
theorem lowerOf_cases (tol : ℚ) (best : Option (ℚ × ℕ)) (candidate : ℚ × ℕ) :
    lowerOf tol best candidate = best ∨
      candidate.1 < -tol ∧ ∃ c, lowerOf tol best candidate = some c ∧ candidate = c := by
  unfold lowerOf
  split
  · rename_i htaken
    exact Or.inr ⟨htaken.1, candidate, rfl, rfl⟩
  · exact Or.inl rfl

/-- **There is no most negative value only when none is below `-tol`.** -/
theorem le_entry_of_mostNegative_eq_none (h : mostNegative values tol = none)
    (hi : i < values.length) : -tol ≤ entry values i := by
  rw [mostNegative_eq] at h
  have hall := (foldl_select_none (lowerOf_cases tol) (fun b hb => by simp [lowerOf, hb])
    (Option.map_eq_none_iff.mp h)).2
  exact not_lt.mp (hall (entry values i, i) (mem_zipIdx_iff.mpr ⟨hi, rfl⟩))

/-- **The most negative value is below `-tol`.** -/
theorem entry_lt_of_mostNegative_eq_some (h : mostNegative values tol = some i) :
    i < values.length ∧ entry values i < -tol := by
  rw [mostNegative_eq] at h
  obtain ⟨c, hc, rfl⟩ := Option.map_eq_some_iff.mp h
  rcases foldl_select_some (lowerOf_cases tol) hc with hnone | ⟨b, hb, hlt, rfl⟩
  · cases hnone
  · obtain ⟨hi, hv⟩ := mem_zipIdx_iff.mp hb
    exact ⟨hi, hv ▸ hlt⟩

end MostNegative

namespace Tableau

variable {E : Equations} {T T' : Tableau ℚ} {tol : ℚ} {row col i j : ℕ}

/-! ## Moves -/

/-- One look at an entry of the leaving row. -/
def enteringOf (T : Tableau ℚ) (tol : ℚ) (best : Option (ℕ × ℚ)) (candidate : ℚ × ℕ) :
    Option (ℕ × ℚ) :=
  if -tol ≤ candidate.1 then best
  else
    let ratio := Scalar.abs (entry T.reducedCosts candidate.2 / candidate.1)
    match best with
    | none => some (candidate.2, ratio)
    | some (_, least) => if ratio < least - 1e-12 then some (candidate.2, ratio) else best

theorem dualEntering_eq (T : Tableau ℚ) (row : ℕ) (tol : ℚ) :
    T.dualEntering row tol = (((T.matrix.rowAt row).take T.columnCount).zipIdx.foldl
      (T.enteringOf tol) none).map (·.1) := by
  unfold dualEntering
  dsimp only
  congr 2
  funext best candidate
  unfold enteringOf
  cases best with
  | none => rfl
  | some held => rfl

/-- An entry is taken only where it is below `-tol`. -/
theorem enteringOf_cases (T : Tableau ℚ) (tol : ℚ) (best : Option (ℕ × ℚ)) (candidate : ℚ × ℕ) :
    T.enteringOf tol best candidate = best ∨
      candidate.1 < -tol ∧ ∃ c, T.enteringOf tol best candidate = some c ∧ candidate.2 = c.1 := by
  unfold enteringOf
  split
  · exact Or.inl rfl
  · rename_i hle
    cases best with
    | none => exact Or.inr ⟨not_le.mp hle, _, rfl, rfl⟩
    | some held =>
      dsimp only
      split
      · exact Or.inr ⟨not_le.mp hle, _, rfl, rfl⟩
      · exact Or.inl rfl

/-- The entries of a row that may be pivoted on. -/
theorem Canonical.mem_candidates_iff (h : T.Canonical E) (hrow : row < E.height) {a : ℚ} :
    (a, j) ∈ ((T.matrix.rowAt row).take T.columnCount).zipIdx ↔
      j < E.width ∧ T.cell row j = a := by
  have hlen := h.length_row (i := row) (by omega)
  have htake : ((T.matrix.rowAt row).take E.width).length = E.width := by
    rw [List.length_take, hlen]
    omega
  rw [mem_zipIdx_iff, h.columnCount_eq, htake]
  refine and_congr_right fun hj => ?_
  rw [entry_take hj]
  rfl

/-- No column enters only when no entry of the row is below `-tol`. -/
theorem Canonical.le_of_dualEntering_eq_none (h : T.Canonical E) (hrow : row < E.height)
    (hnone : T.dualEntering row tol = none) (hj : j < E.width) : -tol ≤ T.cell row j := by
  rw [dualEntering_eq] at hnone
  have hall := (foldl_select_none (T.enteringOf_cases tol)
    (fun b (hb : b.1 < -tol) => by simp [enteringOf, hb]) (Option.map_eq_none_iff.mp hnone)).2
  exact not_lt.mp (hall (T.cell row j, j) ((h.mem_candidates_iff hrow).mpr ⟨hj, rfl⟩))

/-- The entering column has an entry below `-tol` in the row. -/
theorem Canonical.lt_of_dualEntering_eq_some (h : T.Canonical E) (hrow : row < E.height)
    (hsome : T.dualEntering row tol = some col) : col < E.width ∧ T.cell row col < -tol := by
  rw [dualEntering_eq] at hsome
  obtain ⟨c, hc, rfl⟩ := Option.map_eq_some_iff.mp hsome
  rcases foldl_select_some (T.enteringOf_cases tol) hc with hnone | ⟨b, hb, hlt, hfrom⟩
  · cases hnone
  · obtain ⟨hj, hv⟩ := (h.mem_candidates_iff hrow).mp hb
    rw [← hfrom, hv]
    exact ⟨hj, hlt⟩

/-- Where the method is done, no right-hand side is below `-tol`. -/
theorem Canonical.le_of_nextDualMove_feasible (h : T.Canonical E)
    (hmove : T.nextDualMove tol = .feasible) (hi : i < E.height) : -tol ≤ T.cell i E.width := by
  unfold Tableau.nextDualMove at hmove
  split at hmove
  · rename_i hnone
    rw [← h.entry_rhs hi]
    exact le_entry_of_mostNegative_eq_none hnone (by rw [h.length_rhs]; exact hi)
  · split at hmove <;> cases hmove

/-- The row that leaves has a right-hand side below `-tol`. -/
theorem Canonical.lt_of_mostNegative (h : T.Canonical E) (hsome : mostNegative T.rhs tol = some row) :
    row < E.height ∧ T.cell row E.width < -tol := by
  obtain ⟨hrow, hneg⟩ := entry_lt_of_mostNegative_eq_some hsome
  rw [h.length_rhs] at hrow
  rw [h.entry_rhs hrow] at hneg
  exact ⟨hrow, hneg⟩

/-- A blocked row has a right-hand side below `-tol` and no entry below it. -/
theorem Canonical.blocked_of_nextDualMove (h : T.Canonical E)
    (hmove : T.nextDualMove tol = .blocked row) :
    row < E.height ∧ T.cell row E.width < -tol ∧ ∀ j < E.width, -tol ≤ T.cell row j := by
  unfold Tableau.nextDualMove at hmove
  split at hmove
  · cases hmove
  · rename_i leaving hsome
    split at hmove
    · rename_i hnone
      obtain rfl : leaving = row := by simpa using hmove
      obtain ⟨hrow, hneg⟩ := h.lt_of_mostNegative hsome
      exact ⟨hrow, hneg, fun j hj => h.le_of_dualEntering_eq_none hrow hnone hj⟩
    · cases hmove

/-- A pivot is made on an entry below `-tol`, in a row of such a right-hand side. -/
theorem Canonical.pivot_of_nextDualMove (h : T.Canonical E)
    (hmove : T.nextDualMove tol = .pivot row col) :
    row < E.height ∧ col < E.width ∧ T.cell row col < -tol := by
  unfold Tableau.nextDualMove at hmove
  split at hmove
  · cases hmove
  · rename_i leaving hsome
    split at hmove
    · cases hmove
    · rename_i entering hentering
      obtain ⟨rfl, rfl⟩ : leaving = row ∧ entering = col := by simpa using hmove
      obtain ⟨hrow, -⟩ := h.lt_of_mostNegative hsome
      exact ⟨hrow, h.lt_of_dualEntering_eq_some hrow hentering⟩

/-- The dual simplex method gets from one tableau to another. -/
inductive DualLeads (tol : ℚ) : Tableau ℚ → Tableau ℚ → Prop
  /-- It stays where it is. -/
  | refl (T : Tableau ℚ) : DualLeads tol T T
  /-- The next move is a pivot, and the method goes on from there. -/
  | step {T T' : Tableau ℚ} {row col : ℕ} : T.nextDualMove tol = .pivot row col →
      DualLeads tol (T.pivot row col) T' → DualLeads tol T T'

/-- A pivot leaves the names. -/
theorem DualLeads.names_eq (h : DualLeads tol T T') : T'.names = T.names := by
  induction h with
  | refl => rfl
  | step _ _ ih => exact ih

/-- One move keeps a tableau canonical: the entry pivoted on is below `-tol`, so it is not zero. -/
theorem Canonical.dualMove (h : T.Canonical E) (htol : 0 ≤ tol)
    (hmove : T.nextDualMove tol = .pivot row col) : (T.pivot row col).Canonical E := by
  obtain ⟨hrow, hcol, hneg⟩ := h.pivot_of_nextDualMove hmove
  exact h.pivot hrow hcol (ne_of_lt (by linarith))

/-- **Every tableau the dual simplex method meets is canonical.** -/
theorem Canonical.dualLeads (h : T.Canonical E) (htol : 0 ≤ tol) (hleads : DualLeads tol T T') :
    T'.Canonical E := by
  induction hleads with
  | refl => exact h
  | step hmove _ ih => exact ih (h.dualMove htol hmove)

/-- **What a blocked row says of a solution**: where no entry is negative, the total makes up for the
right-hand side. -/
theorem Canonical.neg_rhs_le_of_blocked (h : T.Canonical E) (hmove : T.nextDualMove tol = .blocked row)
    {x : List ℚ} (hlen : x.length = E.width) (hx : E.Solves x) (hnonneg : ∀ a ∈ x, 0 ≤ a) :
    -T.cell row E.width ≤ tol * x.sum := by
  obtain ⟨hrow, -, hentries⟩ := h.blocked_of_nextDualMove hmove
  rw [← h.sum_row hx hrow, sum_eq_sum_entry (n := E.width) (le_of_eq hlen), Finset.mul_sum,
    ← Finset.sum_neg_distrib]
  refine Finset.sum_le_sum fun j hj => ?_
  have hterm := mul_le_mul_of_nonneg_right (hentries j (mem_range.mp hj)) (entry_nonneg hnonneg j)
  linarith

/-! ## The loop -/

/-- What the loop answers at a tableau from which it does not go on. -/
def dualVerdict (T : Tableau ℚ) (opts : Options ℚ) (made : ℕ) : Except (Fault ℚ) ℕ :=
  match T.nextDualMove opts.tol with
  | .feasible => .ok made
  | .blocked row => .error (.noNegativeEntry (T.names.getD (T.basic row) "") made)
  | .pivot _ _ => .error (.iterationLimit opts.maxIters made)

/-- **The next move cannot be reported**: its leaving column has no name, its entering column has
none, or the tableau after the pivot cannot be shown. -/
inductive Unreported (observer : Observer) (tol : ℚ) (T : Tableau ℚ) (cause : Fault ℚ) : Prop
  | blocked {row : ℕ} : T.nextDualMove tol = .blocked row → T.basicName row = .error cause →
      Unreported observer tol T cause
  | leaving {row col : ℕ} : T.nextDualMove tol = .pivot row col → T.basicName row = .error cause →
      Unreported observer tol T cause
  | entering {row col : ℕ} : T.nextDualMove tol = .pivot row col →
      (T.pivot row col).columnName col = .error cause → Unreported observer tol T cause
  | display {row col : ℕ} {title : String} : T.nextDualMove tol = .pivot row col →
      ((T.pivot row col).display observer title).outcome = .error cause →
      Unreported observer tol T cause

/-- Every move from a canonical tableau with a name for each column can be reported. -/
theorem Canonical.not_unreported {observer : Observer} {cause : Fault ℚ} (h : T.Canonical E)
    (hnames : E.width ≤ T.names.length) (htol : 0 ≤ tol) : ¬ T.Unreported observer tol cause := by
  intro hfault
  cases hfault with
  | blocked hmove hname =>
    rw [h.basicName_eq hnames (h.blocked_of_nextDualMove hmove).1] at hname
    cases hname
  | leaving hmove hname =>
    rw [h.basicName_eq hnames (h.pivot_of_nextDualMove hmove).1] at hname
    cases hname
  | @entering row col hmove hname =>
    have hentering : (T.pivot row col).columnName col = .ok (T.names.getD col "") :=
      columnName_eq (T := T.pivot row col) hnames (h.pivot_of_nextDualMove hmove).2.1
    rw [hentering] at hname
    cases hname
  | display hmove hshown =>
    rw [(h.dualMove htol hmove).outcome_display hnames] at hshown
    cases hshown

/-- The name of a basic column, where it has one. -/
theorem eq_of_basicName {name : String} (h : T.basicName row = .ok name) :
    name = T.names.getD (T.basic row) "" := by
  obtain ⟨k, hk, hname⟩ := exists_of_bind_eq_ok h
  have hbasic : T.basic row = k := by
    unfold Position.get at hk
    split at hk
    · rename_i hget
      obtain rfl := Except.ok.inj hk
      simp [Tableau.basic, hget]
    · cases hk
  unfold Tableau.columnName Position.get at hname
  split at hname
  · rename_i hget
    obtain rfl := Except.ok.inj hname
    simp [hbasic, hget]
  · cases hname

end Tableau

/-- **What a dual run hands back**: a tableau that it has walked to, with the verdict of that tableau,
or with the fault of a move on the way that could not be reported. -/
structure DualRun.Follows (observer : Observer) (opts : Options ℚ) (T : Tableau ℚ)
    (done : DualRun ℚ) : Prop where
  leads : Tableau.DualLeads opts.tol T done.tableau
  pivots : done.pivots = done.tableau.dualVerdict opts done.moves.length ∨
    ∃ S cause, Tableau.DualLeads opts.tol T S ∧ S.Unreported observer opts.tol cause ∧
      done.pivots = .error cause

namespace Tableau

section Loop

variable {E : Equations} {T : Tableau ℚ} {row col : ℕ} {observer : Observer} {opts : Options ℚ}
  {moves : List (ℕ × ℕ)} {done : DualRun ℚ}

/-- One more pivot before the run. -/
theorem follows_step (hmove : T.nextDualMove opts.tol = .pivot row col)
    (h : done.Follows observer opts (T.pivot row col)) : done.Follows observer opts T where
  leads := .step hmove h.leads
  pivots := h.pivots.imp_right fun ⟨S, cause, hleads, hfault⟩ =>
    ⟨S, cause, .step hmove hleads, hfault⟩

/-- Without a pivot to make the loop ends where it is. -/
theorem exists_follows_of_not_pivot (budget : ℕ)
    (hend : ∀ row col, T.nextDualMove opts.tol ≠ .pivot row col) :
    ∃ done, (T.dualLoop observer opts budget moves).outcome = .ok done ∧
      done.Follows observer opts T := by
  unfold dualLoop
  cases hmove : T.nextDualMove opts.tol with
  | feasible => exact ⟨_, rfl, .refl T, Or.inl (by rw [dualVerdict, hmove])⟩
  | blocked row =>
    refine ⟨_, rfl, .refl T, ?_⟩
    cases hname : T.basicName row with
    | error cause => exact Or.inr ⟨T, cause, .refl T, .blocked hmove hname, rfl⟩
    | ok name =>
      obtain rfl := eq_of_basicName hname
      exact Or.inl (by rw [dualVerdict, hmove]; rfl)
  | pivot row col => exact absurd hmove (hend row col)

/-- **The loop hands back a tableau that it walks to**, whatever it stops at. -/
theorem exists_follows_dualLoop (observer : Observer) (opts : Options ℚ) (budget : ℕ)
    (moves : List (ℕ × ℕ)) (T : Tableau ℚ) :
    ∃ done, (T.dualLoop observer opts budget moves).outcome = .ok done ∧
      done.Follows observer opts T := by
  induction budget generalizing T moves with
  | zero =>
    cases hmove : T.nextDualMove opts.tol with
    | feasible => exact exists_follows_of_not_pivot 0 (by simp [hmove])
    | blocked row => exact exists_follows_of_not_pivot 0 (by simp [hmove])
    | pivot row col =>
      unfold dualLoop
      rw [hmove]
      exact ⟨_, rfl, .refl T, Or.inl (by rw [dualVerdict, hmove])⟩
  | succ budget ih =>
    cases hmove : T.nextDualMove opts.tol with
    | feasible => exact exists_follows_of_not_pivot _ (by simp [hmove])
    | blocked row => exact exists_follows_of_not_pivot _ (by simp [hmove])
    | pivot row col =>
      rw [dualLoop, hmove]
      dsimp only
      cases hleaving : T.basicName row with
      | error cause =>
        exact ⟨_, rfl, .refl T, Or.inr ⟨T, cause, .refl T, .leaving hmove hleaving, rfl⟩⟩
      | ok leaving =>
        dsimp only
        rw [Traced.outcome_bind, Traced.outcome_attempt, ok_bind]
        -- the pivot is made before it is reported, so a report in vain comes too late to undo it
        split
        · rename_i cause hreport
          refine ⟨_, rfl, .step hmove (.refl _), Or.inr ⟨T, cause, .refl T, ?_, rfl⟩⟩
          rw [Traced.outcome_bind] at hreport
          rcases cases_of_bind_eq_error hreport with hname | ⟨entering, -, hshown⟩
          · exact .entering hmove hname
          · rw [Traced.outcome_bind, outcome_say, ok_bind] at hshown
            exact .display hmove hshown
        · obtain ⟨done, hdone, hfollows⟩ := ih ((row, col) :: moves) (T.pivot row col)
          exact ⟨done, hdone, follows_step hmove hfollows⟩

/-- **The dual simplex method hands back a tableau that it walks to.** -/
theorem exists_follows_reoptimize (observer : Observer) (opts : Options ℚ) (T : Tableau ℚ) :
    ∃ done, (T.reoptimize observer opts).outcome = .ok done ∧ done.Follows observer opts T := by
  rw [Tableau.reoptimize, Traced.outcome_bind, outcome_header, ok_bind]
  exact exists_follows_dualLoop observer opts _ [] T

/-- From a canonical tableau with a name for each column the run ends with the verdict of its
tableau. -/
theorem Canonical.pivots_eq (h : T.Canonical E) (hnames : E.width ≤ T.names.length)
    (htol : 0 ≤ opts.tol) (hfollows : done.Follows observer opts T) :
    done.pivots = done.tableau.dualVerdict opts done.moves.length := by
  rcases hfollows.pivots with hverdict | ⟨S, cause, hleads, hfault, -⟩
  · exact hverdict
  · have hwide : E.width ≤ S.names.length := by rwa [hleads.names_eq]
    exact absurd hfault ((h.dualLeads htol hleads).not_unreported hwide htol)

end Loop

end Tableau

end LinOpt
