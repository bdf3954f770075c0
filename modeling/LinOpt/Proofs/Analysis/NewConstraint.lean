import LinOpt.Proofs.Integer.Rounding
import LinOpt.Proofs.Integer.WholeCuts
import LinOpt.Proofs.Simplex.Unbounded
import LinOpt.Proofs.Tableau.NewRows
/-!
# A new constraint, and solving again

The answer to a new constraint is read from one tableau: the last one of the run where the optimum
meets the constraint, else the one where the dual simplex method stops (`Run.NewAnswer`). Adding a
constraint to an optimal run answers wherever its basic columns are inverted exactly
(`Run.exists_newAnswer`). The objective row of the tableau bounds the gain of every point that meets
the constraint (`NewAnswer.gain_le_primalValues`), and the solution is such a point unless it has not
been read exactly or misses the constraint within the tolerance (`NewAnswer.blurs_or_misses`).

The model with the constraint can also be solved again. The two answers agree in status, and in the
objective up to `1e-3`, or there is a reason for it in a tolerance or in the penalty: `Discrepancy`
lists the reasons, and `Run.newAnswer_agrees_or_differs` is the comparison.
`Run.newAnswer_differs` has a model for each of them.
-/

namespace LinOpt

open Finset Tableau Equations Simplex

/-! ## Reading answers -/

/-- Nothing small is left to be cleared. -/
theorem map_clean_reconstruct (components : Components ℚ) (y : List ℚ) :
    (reconstruct components y).map Scalar.clean = reconstruct components y := by
  rw [reconstruct_eq, List.map_map]
  refine List.map_congr_left fun a _ => ?_
  rw [Function.comp_apply, clean_eq_cut, cut_cut (le_refl _)]

/-- **The objective of a run is that of its solution**, to three decimals. -/
theorem Simplex.objective_of_run {observer : Observer} {opts : Options ℚ} {model : Model ℚ}
    {done : Run ℚ} {s : List ℚ} (hvalid : model.Valid)
    (hrun : (run observer opts model).outcome = .ok done) (hs : done.result.solution = some s) :
    done.result.objective = some (Scalar.round3 (dot model.costs s)) := by
  rw [outcome_run observer opts hvalid] at hrun
  obtain rfl := Except.ok.inj hrun
  cases hends : (pivotToEnd observer opts (model.standardForm opts)).outcome with
  | error cause =>
    rw [hends] at hs
    cases hs
  | ok terminal =>
    rw [hends, concluded, finished] at hs
    rw [concluded, finished]
    dsimp only at hs ⊢
    split at hs
    · cases hs
    · rename_i hlevel
      rw [if_neg hlevel]
      have hs' : s = reconstruct (model.standardForm opts).components
          (columnValues opts (model.standardForm opts) terminal) := by
        rw [← map_clean_reconstruct]
        exact (Option.some.inj hs).symm
      rw [hs']
      rfl

/-- **Numbers that are less than `1e-3` apart are at most `1e-3` apart to three decimals.** -/
theorem abs_round3_sub_le {a b : ℚ} (h : |a - b| < 1e-3) :
    |Scalar.round3 a - Scalar.round3 b| ≤ 1e-3 := by
  have ha := abs_sub_nearestRat_le_half (a * 1000)
  have hb := abs_sub_nearestRat_le_half (b * 1000)
  rw [round3_eq, round3_eq]
  generalize nearestRat (a * 1000) = m at ha ⊢
  generalize nearestRat (b * 1000) = n at hb ⊢
  obtain ⟨ha1, ha2⟩ := abs_le.mp ha
  obtain ⟨hb1, hb2⟩ := abs_le.mp hb
  obtain ⟨h1, h2⟩ := abs_lt.mp h
  -- the two whole numbers are less than two apart
  have hlow : (-2 : ℤ) < m - n := by
    have : (-2 : ℚ) < m - n := by linarith
    exact_mod_cast this
  have hhigh : m - n < (2 : ℤ) := by
    have : (m - n : ℚ) < 2 := by linarith
    exact_mod_cast this
  have hlow' : (-1 : ℚ) ≤ m - n := by
    have : (-1 : ℤ) ≤ m - n := by omega
    exact_mod_cast this
  have hhigh' : (m - n : ℚ) ≤ 1 := by
    have : m - n ≤ (1 : ℤ) := by omega
    exact_mod_cast this
  rw [abs_le]
  constructor <;> linarith

/-! ## The answer to a new constraint -/

namespace Run

/-- The check of a known relation is the relation up to the tolerance. -/
theorem satisfies_eq {sign : Relation} (h : sign.isKnown = true) (lhs rhs tol : ℚ) :
    satisfies sign lhs rhs tol =
      (.ok (decide (sign.HoldsWithin tol lhs rhs)) : Except (Fault ℚ) Bool) := by
  cases sign with
  | le => rfl
  | ge =>
    have hiff : rhs - tol ≤ lhs ↔ rhs ≤ lhs + tol := sub_le_iff_le_add
    exact congrArg Except.ok (decide_eq_decide.mpr hiff)
  | eq =>
    have hiff : Scalar.abs (lhs - rhs) ≤ tol ↔ |lhs - rhs| ≤ tol := by rw [scalar_abs_eq]
    exact congrArg Except.ok (decide_eq_decide.mpr hiff)
  | other word => cases h

/-- The tableau where the dual simplex method stops, after the rows of the constraint have joined the
last tableau of the run. -/
def Restores (done : Run ℚ) (row : ExtraRow) (D : Tableau ℚ) : Prop :=
  ∃ T start, done.tableau = .ok T ∧ (row.cuts done.model).foldlM addEntries T = .ok start ∧
    DualLeads 1e-9 start D

/-- **The answer to a new constraint, and the tableau that it is read from.** -/
inductive NewAnswer (done : Run ℚ) (row : ExtraRow) : Tableau ℚ → Result ℚ → Prop
  /-- The optimum meets the constraint, up to the tolerance. -/
  | kept {T : Tableau ℚ} {s : List ℚ} : done.tableau = .ok T → done.result.solution = some s →
      row.sign.HoldsWithin 1e-9 (dot row.coefficients s) row.rhs →
      NewAnswer done row T
        { done.result with message := .text "Current solution satisfies the new constraint." }
  /-- No right-hand side is left below the tolerance, and no artificial column above its level. -/
  | restored {D : Tableau ℚ} {p : List ℚ} {pivots : ℕ} : done.Restores row D →
      D.nextDualMove 1e-9 = .feasible →
      (∀ k ∈ (done.model.standardForm {}).artificials, entry D.primalValues k ≤ 1e-7) →
      p = (componentSums done.model.components D.primalValues).map (cut 1e-12) →
      NewAnswer done row D (.solved .optimal (dot done.model.costs p) p pivots
        (.text "Re-optimised with dual simplex."))
  /-- No right-hand side is left below the tolerance, but an artificial column is above its level. -/
  | raised {D : Tableau ℚ} {pivots : ℕ} : done.Restores row D → D.nextDualMove 1e-9 = .feasible →
      (∃ k ∈ (done.model.standardForm {}).artificials, 1e-7 < entry D.primalValues k) →
      NewAnswer done row D (.failed .infeasible pivots (.text "Artificial variable became positive."))
  /-- A right-hand side is below the tolerance, and no entry of its row is. -/
  | blocked {D : Tableau ℚ} {i : ℕ} {name : String} {pivots : ℕ} : done.Restores row D →
      D.nextDualMove 1e-9 = .blocked i →
      NewAnswer done row D (.ofFault (.noNegativeEntry name pivots))
  /-- The budget has run out. -/
  | limit {D : Tableau ℚ} {budget : ℤ} {pivots : ℕ} : done.Restores row D →
      NewAnswer done row D (.ofFault (.iterationLimit budget pivots))

section Outcome

variable {done : Run ℚ} {row : ExtraRow} {s : List ℚ} (observer : Observer)
  (hoptimal : done.isOptimal = true) (hs : done.result.solution = some s)
  (hlen : row.coefficients.length = done.model.variableCount)
  (hpoint : s.length = done.model.variableCount) (hknown : row.sign.isKnown = true)

include hoptimal hs hlen hpoint hknown

theorem outcome_addConstraint_of_holds
    (hmet : row.sign.HoldsWithin 1e-9 (dot row.coefficients s) row.rhs) :
    (done.addConstraint observer {} row.coefficients row.sign row.rhs).outcome =
      .ok { done.result with message := .text "Current solution satisfies the new constraint." } := by
  unfold addConstraint
  rw [hoptimal, hs]
  dsimp only
  rw [if_neg (not_not.mpr hlen), dotAligned, if_pos (hlen.trans hpoint.symm)]
  change (Traced.ofExcept (satisfies row.sign (dot row.coefficients s) row.rhs 1e-9) >>= _).outcome = _
  rw [satisfies_eq hknown, decide_eq_true hmet]
  change (observer.say _ >>= fun _ => _).outcome = _
  rw [Traced.outcome_bind, outcome_say]
  rfl

/-- Where the optimum does not meet the constraint, the answer is that of the dual simplex method. -/
theorem outcome_addConstraint_of_not {form : StandardForm ℚ} {basis : List ℕ} {T start : Tableau ℚ}
    {entries : List (ℕ × ℚ)} {ends : DualRun ℚ}
    (hmiss : ¬ row.sign.HoldsWithin 1e-9 (dot row.coefficients s) row.rhs)
    (htableau : done.tableau = .ok T) (hterminal : done.terminal = .ok (form, basis))
    (hentries : structuralRow form.components row.coefficients = .ok entries)
    (hstart : (cutRows row.sign entries row.rhs).foldlM addEntries T = .ok start)
    (hshown : (start.display observer "Tableau with new constraint").outcome = .ok ())
    (hends : (start.reoptimize observer {}).outcome = .ok ends) :
    (done.addConstraint observer {} row.coefficients row.sign row.rhs).outcome =
      match ends.pivots with
      | .ok pivots => (readBack observer form done.model ends.tableau pivots).outcome
      | .error cause => if cause.isSolverStop then .ok (.ofFault cause) else .error cause := by
  unfold addConstraint
  rw [hoptimal, hs]
  dsimp only
  rw [if_neg (not_not.mpr hlen), dotAligned, if_pos (hlen.trans hpoint.symm)]
  change (Traced.ofExcept (satisfies row.sign (dot row.coefficients s) row.rhs 1e-9) >>= _).outcome = _
  rw [satisfies_eq hknown, decide_eq_false hmiss, htableau, hterminal]
  change ((structuralRow form.components row.coefficients : Traced ℚ _) >>= fun _ => _).outcome = _
  rw [hentries]
  change (Traced.ofExcept ((cutRows row.sign entries row.rhs).foldlM addEntries T) >>=
    fun _ => _).outcome = _
  rw [hstart]
  change (start.display observer _ >>= fun _ => _).outcome = _
  rw [Traced.outcome_bind, hshown, ok_bind, Traced.outcome_bind, hends, ok_bind]
  cases ends.pivots with
  | ok pivots => rfl
  | error cause =>
    dsimp only
    split <;> rfl

end Outcome

/-- What reading an answer back gives. -/
theorem outcome_readBack {model : Model ℚ} (observer : Observer) (hvalid : model.Valid)
    (D : Tableau ℚ) (pivots : ℕ) :
    (readBack observer (model.standardForm {}) model D pivots).outcome =
      .ok (if (model.standardForm {}).artificials.any fun k =>
          decide (feasibilityTolerance < entry D.primalValues k) then
        .failed .infeasible pivots (.text "Artificial variable became positive.")
      else .solved .optimal (dot model.costs (reconstruct model.components D.primalValues))
        (reconstruct model.components D.primalValues) pivots
        (.text "Re-optimised with dual simplex.")) := by
  have hlength : (reconstruct model.components D.primalValues).length = model.costs.length := by
    rw [reconstruct, List.length_map]
    exact StandardForm.length_components hvalid.sized
  unfold readBack
  dsimp only
  split
  · rfl
  · change ((dotAligned model.costs (reconstruct model.components D.primalValues) : Traced ℚ _) >>=
      fun _ => _).outcome = _
    rw [dotAligned, if_pos hlength.symm]
    change (observer.line _ >>= fun _ => _).outcome = _
    rw [Traced.outcome_bind, outcome_line]
    rfl

section Optimal

variable {model : Model ℚ} {observer : Observer} {done : Run ℚ} {row : ExtraRow} {D : Tableau ℚ}

/-- The last tableau of an optimal run, where its basic columns are inverted exactly. -/
theorem exists_tableau (hvalid : model.Valid) (hrun : (run observer {} model).outcome = .ok done)
    (hstatus : done.result.status = .optimal) (hinverts : done.InvertsExactly) :
    ∃ T : Tableau ℚ, done.tableau = .ok T ∧ T.Canonical (model.penalised {}) ∧
      (model.penalised {}).width ≤ T.names.length ∧ done.basis = some T.basis ∧
      done.result.solution =
        some ((componentSums model.components T.primalValues).map (cut 1e-9)) := by
  obtain ⟨n, T, -, -, hT, hbasis, hsolution, -⟩ := exists_optimum_of_optimal {} hvalid (by norm_num)
    (by norm_num [feasibilityTolerance]) (by simp) hrun hstatus
  refine ⟨_, hinverts.tableau_eq (form_of_run hvalid hrun).2 hbasis hT, hT.rename _, ?_, hbasis,
    hsolution⟩
  exact le_of_eq ((model.width_penalised {}).trans
    (model.length_columnNames_standardForm {} hvalid.sized).symm)

/-- Where the dual simplex method stops, the tableau is canonical for the system with the
constraint. -/
theorem Restores.canonical (h : done.Restores row D) {T : Tableau ℚ} (htableau : done.tableau = .ok T)
    (hT : T.Canonical (done.model.penalised {}))
    (hnames : (done.model.penalised {}).width ≤ T.names.length) :
    D.Canonical ((done.model.penalised {}).withEntries (row.cuts done.model)) := by
  obtain ⟨T', start, htableau', hstart, hleads⟩ := h
  obtain rfl := Except.ok.inj (htableau.symm.trans htableau')
  obtain ⟨start', hstart', hcanonical, -⟩ := hT.exists_addEntries hnames (row.cuts done.model)
  obtain rfl := Except.ok.inj (hstart.symm.trans hstart')
  exact hcanonical.dualLeads (by norm_num) hleads

/-- **Adding a constraint to an optimal run answers**, and the answer is read from a tableau. -/
theorem exists_newAnswer (observer' : Observer) (hvalid : model.Valid)
    (hrun : (run observer {} model).outcome = .ok done) (hstatus : done.result.status = .optimal)
    (hinverts : done.InvertsExactly) (hrow : row.Fits model.variableCount) :
    ∃ D result, (done.addConstraint observer' {} row.coefficients row.sign row.rhs).outcome =
      .ok result ∧ done.NewAnswer row D result := by
  obtain ⟨T, htableau, hT, hnames, hbasis, hs⟩ := exists_tableau hvalid hrun hstatus hinverts
  obtain ⟨hmodel, hform⟩ := form_of_run hvalid hrun
  subst hmodel
  have hoptimal : done.isOptimal = true := by
    simp [Run.isOptimal, hstatus, hbasis]
  have hcount : done.model.components.length = done.model.variableCount :=
    StandardForm.length_components hvalid.sized
  have hpoint : ((componentSums done.model.components T.primalValues).map (cut 1e-9)).length =
      done.model.variableCount := by
    rw [List.length_map, length_componentSums, hcount]
  by_cases hmet : row.sign.HoldsWithin 1e-9 (dot row.coefficients
      ((componentSums done.model.components T.primalValues).map (cut 1e-9))) row.rhs
  · exact ⟨T, _, outcome_addConstraint_of_holds observer' hoptimal hs hrow.length_eq hpoint hrow.known
      hmet, .kept htableau hs hmet⟩
  · obtain ⟨start, hstart, hcanonical, hwide⟩ := hT.exists_addEntries hnames (row.cuts done.model)
    have htol : (0 : ℚ) ≤ ({} : Options ℚ).tol := by norm_num
    obtain ⟨⟨D, made, pivots⟩, hends, hfollows⟩ := exists_follows_reoptimize observer' {} start
    obtain rfl : pivots = D.dualVerdict {} made.length := hcanonical.pivots_eq hwide htol hfollows
    have hrestores : done.Restores row D := ⟨T, start, htableau, hstart, hfollows.leads⟩
    have hentries : structuralRow (done.model.standardForm {}).components row.coefficients =
        .ok (structuralEntries done.model.components row.coefficients) :=
      structuralRow_eq (by rw [hrow.length_eq]; exact le_of_eq hcount.symm)
    have hout := outcome_addConstraint_of_not observer' hoptimal hs hrow.length_eq hpoint hrow.known
      hmet htableau (terminal_eq hform hbasis) hentries hstart
      (hcanonical.outcome_display hwide "Tableau with new constraint") hends
    dsimp only [dualVerdict] at hout
    cases hmove : D.nextDualMove ({} : Options ℚ).tol with
    | pivot i j =>
      rw [hmove] at hout
      exact ⟨D, _, hout, .limit hrestores⟩
    | blocked i =>
      rw [hmove] at hout
      exact ⟨D, _, hout, .blocked hrestores hmove⟩
    | feasible =>
      rw [hmove] at hout
      dsimp only at hout
      rw [outcome_readBack observer' hvalid] at hout
      split at hout
      · rename_i hany
        obtain ⟨k, hk, hlevel⟩ := List.any_eq_true.mp hany
        exact ⟨D, _, hout, .raised hrestores hmove ⟨k, hk, of_decide_eq_true hlevel⟩⟩
      · rename_i hany
        refine ⟨D, _, hout, ?_⟩
        rw [reconstruct_eq]
        refine .restored hrestores hmove (fun k hk => ?_) rfl
        by_contra hlevel
        exact hany (List.any_eq_true.mpr ⟨k, hk, decide_eq_true (not_le.mp hlevel)⟩)

end Optimal

end Run

/-! ## Points that are not read exactly -/

namespace StandardForm

/-- One of the values is negative, or an artificial column is not zero. -/
def Strays (form : StandardForm ℚ) (y : List ℚ) : Prop :=
  (∃ a ∈ y, a < 0) ∨ ∃ k ∈ form.artificials, entry y k ≠ 0

/-- **The values of the columns are not read as they stand, or are not those of a point**: they stray,
or a variable is so small that it is made zero. -/
def Blurs (form : StandardForm ℚ) (y : List ℚ) : Prop :=
  form.Strays y ∨ ∃ a ∈ componentSums form.components y, a ≠ 0 ∧ |a| < 1e-9

variable {form : StandardForm ℚ} {y : List ℚ}

theorem nonneg_of_not_strays (h : ¬ form.Strays y) (k : ℕ) : 0 ≤ entry y k :=
  entry_nonneg (fun a ha => not_lt.mp fun hneg => h (Or.inl ⟨a, ha, hneg⟩)) k

theorem artificialTotal_of_not_strays (h : ¬ form.Strays y) : form.artificialTotal y = 0 := by
  refine List.sum_eq_zero fun a ha => ?_
  obtain ⟨k, hk, rfl⟩ := List.mem_map.mp ha
  by_contra hne
  exact h (Or.inr ⟨k, hk, hne⟩)

/-- Without small values nothing is made zero. -/
theorem map_cut_of_not_blurs (h : ¬ form.Blurs y) {tol : ℚ} (htol : tol ≤ 1e-9) :
    (componentSums form.components y).map (cut tol) = componentSums form.components y := by
  have hkept : ∀ a ∈ componentSums form.components y, cut tol a = id a := by
    intro a ha
    unfold cut
    split
    · rename_i hsmall
      by_contra hne
      exact h (Or.inr ⟨a, ha, Ne.symm hne, lt_of_lt_of_le hsmall htol⟩)
    · rfl
  rw [List.map_congr_left hkept, List.map_id]

end StandardForm

/-- **A solution that does not stray is that of a point.** -/
theorem Model.feasible_of_not_strays {model : Model ℚ} {opts : Options ℚ} {y : List ℚ}
    (hvalid : model.Valid) (hsolves : (model.penalised opts).Solves y)
    (h : ¬ (model.standardForm opts).Strays y) : model.Feasible (componentSums model.components y) := by
  have hnearly := Model.nearlyFeasible_of_solves hvalid hsolves (StandardForm.nonneg_of_not_strays h)
  rwa [StandardForm.artificialTotal_of_not_strays h, Model.nearlyFeasible_zero] at hnearly

/-! ## What the answer says of the points that meet the constraint -/

section Evidence

variable {model : Model ℚ} {observer : Observer} {done : Run ℚ} {row : ExtraRow} {D : Tableau ℚ}
  {result : Result ℚ} {p x : List ℚ}

namespace Run.NewAnswer

/-- The objective of the answer is that of its solution, to three decimals. -/
theorem objective_eq (h : done.NewAnswer row D result) (hvalid : model.Valid)
    (hrun : (run observer {} model).outcome = .ok done) (hp : result.solution = some p) :
    result.objective = some (Scalar.round3 (dot model.costs p)) := by
  obtain ⟨rfl, -⟩ := form_of_run hvalid hrun
  cases h with
  | kept => exact objective_of_run hvalid hrun hp
  | @restored q _ _ _ _ hq =>
    have hclean : q.map Scalar.clean = q := by
      rw [hq, ← reconstruct_eq, map_clean_reconstruct]
    obtain rfl : q = p := hclean.symm.trans (Option.some.inj hp)
    rfl
  | raised => cases hp
  | blocked => cases hp
  | limit => cases hp

section Canonical

variable (h : done.NewAnswer row D result) (hvalid : model.Valid)
  (hrun : (run observer {} model).outcome = .ok done) (hstatus : done.result.status = .optimal)
  (hinverts : done.InvertsExactly) (hx : (model.extend [row]).Feasible x)

include h hvalid hrun hstatus hinverts hx

/-- **No point that meets the constraint is worth more than the tableau says** that the answer is read
from. -/
theorem gain_le_primalValues :
    model.gain x ≤ dot (model.standardForm {}).objective D.primalValues -
      1e6 * (model.standardForm {}).artificialTotal D.primalValues +
        D.shortfall * (model.extend [row]).extent x := by
  obtain ⟨T, htableau, hT, hnames, -, -⟩ := exists_tableau hvalid hrun hstatus hinverts
  obtain ⟨rfl, -⟩ := form_of_run hvalid hrun
  have hrestored : ∀ D, done.Restores row D →
      done.model.gain x ≤ dot (done.model.standardForm {}).objective D.primalValues -
        1e6 * (done.model.standardForm {}).artificialTotal D.primalValues +
          D.shortfall * (done.model.extend [row]).extent x :=
    fun D hD => (hD.canonical htableau hT hnames).gain_le_of_withCuts hvalid hx
  cases h with
  | kept htableau' =>
    obtain rfl := Except.ok.inj (htableau.symm.trans htableau')
    have hbound := gain_le_of_reduced hT (fun _ hj => hT.neg_shortfall_le hj) hvalid
      (Model.feasible_of_extend hvalid hx).1
    have hextent := mul_le_mul_of_nonneg_left
      (Model.extent_le_extend hvalid.sized [row] x) T.shortfall_nonneg
    have hpenalty : ({} : Options ℚ).bigM = 1e6 := rfl
    rw [hpenalty] at hbound
    linarith
  | restored hD => exact hrestored _ hD
  | raised hD => exact hrestored _ hD
  | blocked hD => exact hrestored _ hD
  | limit hD => exact hrestored _ hD

omit hx in
/-- The solution of the answer is the point of the basic solution, with small values as zero. -/
theorem exists_cut (hp : result.solution = some p) :
    ∃ tol, 0 ≤ tol ∧ tol ≤ 1e-9 ∧
      p = (componentSums model.components D.primalValues).map (cut tol) := by
  obtain ⟨T, htableau, -, -, -, hs⟩ := exists_tableau hvalid hrun hstatus hinverts
  obtain ⟨rfl, -⟩ := form_of_run hvalid hrun
  cases h with
  | kept htableau' =>
    obtain rfl := Except.ok.inj (htableau.symm.trans htableau')
    exact ⟨1e-9, by norm_num, le_refl _, Option.some.inj (hp.symm.trans hs)⟩
  | @restored q _ _ _ _ hq =>
    refine ⟨1e-12, by norm_num, by norm_num, ?_⟩
    rw [← Option.some.inj hp, hq, ← reconstruct_eq, map_clean_reconstruct]
  | raised => cases hp
  | blocked => cases hp
  | limit => cases hp

/-- **No point that meets the constraint is worth more than the solution of the answer**, up to the
shortfall of its tableau, the small values and the artificial columns. -/
theorem gain_le_solution (hp : result.solution = some p) :
    model.gain x ≤ model.gain p + D.shortfall * (model.extend [row]).extent x +
      1e-9 * model.costSize - 1e6 * (model.standardForm {}).artificialTotal D.primalValues := by
  have hbound := h.gain_le_primalValues hvalid hrun hstatus hinverts hx
  have hcomponents : (model.standardForm {}).components = model.components := rfl
  rw [Model.dot_objective, hcomponents] at hbound
  obtain ⟨tol, htol, htol', rfl⟩ := h.exists_cut hvalid hrun hstatus hinverts hp
  have hcut := model.gain_le_gain_cut htol (componentSums model.components D.primalValues)
  have hmore := mul_le_mul_of_nonneg_right htol' model.costSize_nonneg
  linarith

omit hx in
/-- **A solution of the answer that is not a point of the model with the constraint** has not been read
exactly, or misses the constraint by no more than the tolerance. -/
theorem blurs_or_misses (hp : result.solution = some p) (hnot : ¬ (model.extend [row]).Feasible p) :
    (model.standardForm {}).Blurs D.primalValues ∨
      row.sign.HoldsWithin 1e-9 (dot row.coefficients p) row.rhs ∧ ¬ row.Holds p := by
  by_cases hblurs : (model.standardForm {}).Blurs D.primalValues
  · exact Or.inl hblurs
  have hstays : ¬ (model.standardForm {}).Strays D.primalValues :=
    fun hstrays => hblurs (Or.inl hstrays)
  obtain ⟨tol, -, htol, hread⟩ := h.exists_cut hvalid hrun hstatus hinverts hp
  have hpoint : p = componentSums model.components D.primalValues :=
    hread.trans (StandardForm.map_cut_of_not_blurs hblurs htol)
  have hmissed : model.Feasible p → ¬ row.Holds p := fun hmodel hholds =>
    hnot ((Model.feasible_extend_iff hvalid.sized).mpr ⟨hmodel, by simpa using hholds⟩)
  obtain ⟨T, htableau, hT, hnames, -, -⟩ := exists_tableau hvalid hrun hstatus hinverts
  obtain ⟨rfl, -⟩ := form_of_run hvalid hrun
  cases h with
  | kept htableau' hs hmet =>
    obtain rfl := Except.ok.inj (htableau.symm.trans htableau')
    obtain rfl := Option.some.inj (hp.symm.trans hs)
    refine Or.inr ⟨hmet, hmissed ?_⟩
    rw [hpoint]
    exact Model.feasible_of_not_strays hvalid hT.solves_primalValues hstays
  | restored hD =>
    -- the rows of the constraint hold too, so the solution is a point after all
    obtain ⟨hsolves, hcuts⟩ := solves_of_withEntries ExtraRow.lists_cuts
      (Model.structuralWidth_le_penalised _ _)
      (hD.canonical htableau hT hnames).solves_primalValues (StandardForm.nonneg_of_not_strays hstays)
    have hmodel := Model.feasible_of_not_strays hvalid hsolves hstays
    have hholds := ExtraRow.holds_of_cuts hcuts
    rw [← hpoint] at hmodel hholds
    exact absurd hholds (hmissed hmodel)
  | raised => cases hp
  | blocked => cases hp
  | limit => cases hp

end Canonical

end Run.NewAnswer

end Evidence

/-! ## Directions -/

/-- The component sums of a step are a step of the component sums. -/
theorem componentSums_subScaled (components : Components ℚ) {x d : List ℚ}
    (hlen : x.length = d.length) (t : ℚ) :
    componentSums components (subScaled x t d) =
      subScaled (componentSums components x) t (componentSums components d) := by
  have hparts : ∀ parts : List (ℕ × ℚ),
      valueAt parts (subScaled x t d) = valueAt parts x - t * valueAt parts d := by
    intro parts
    induction parts with
    | nil => simp
    | cons e parts ih =>
      rw [valueAt_cons, valueAt_cons, valueAt_cons, ih, entry_subScaled t hlen]
      ring
  unfold componentSums subScaled
  rw [List.zipWith_map, List.zipWith_self]
  exact List.map_congr_left fun parts _ => hparts parts

namespace Model

variable {model : Model ℚ} {p d : List ℚ}

/-- How fast the extent of a point grows along a direction, at most. -/
def span (model : Model ℚ) (d : List ℚ) : ℚ :=
  (∑ j ∈ range model.variableCount, |entry d j|) +
    (∑ i ∈ range model.rowCount, |dot (model.rows.rowAt i) d|) +
    ∑ j ∈ (range model.variableCount).filter (model.kinds.getD · .free = .bin), |entry d j|

theorem abs_step_le {a b t : ℚ} (ht : 0 ≤ t) : |a - -t * b| ≤ |a| + t * |b| := by
  have hsum : a - -t * b = a + t * b := by ring
  rw [hsum, ← abs_of_nonneg ht, ← abs_mul, abs_of_nonneg ht]
  exact abs_add_le a (t * b)

/-- A step of length `t` adds at most `t` times the span of its direction to the extent. -/
theorem extent_step_le (model : Model ℚ) (hlen : p.length = d.length) {t : ℚ} (ht : 0 ≤ t) :
    model.extent (subScaled p (-t) d) ≤ model.extent p + t * model.span d := by
  have hvariables : ∑ j ∈ range model.variableCount, |entry (subScaled p (-t) d) j| ≤
      ∑ j ∈ range model.variableCount, (|entry p j| + t * |entry d j|) := by
    refine Finset.sum_le_sum fun j _ => ?_
    rw [entry_subScaled _ hlen]
    exact abs_step_le ht
  have hrows : ∑ i ∈ range model.rowCount,
      |dot (model.rows.rowAt i) (subScaled p (-t) d) - entry model.rhs i| ≤
        ∑ i ∈ range model.rowCount, (|dot (model.rows.rowAt i) p - entry model.rhs i| +
          t * |dot (model.rows.rowAt i) d|) := by
    refine Finset.sum_le_sum fun i _ => ?_
    rw [dot_subScaled _ _ hlen, sub_right_comm]
    exact abs_step_le ht
  have hbounds : ∑ j ∈ (range model.variableCount).filter (model.kinds.getD · .free = .bin),
      |entry (subScaled p (-t) d) j - 1| ≤
        ∑ j ∈ (range model.variableCount).filter (model.kinds.getD · .free = .bin),
          (|entry p j - 1| + t * |entry d j|) := by
    refine Finset.sum_le_sum fun j _ => ?_
    rw [entry_subScaled _ hlen, sub_right_comm]
    exact abs_step_le ht
  rw [Finset.sum_add_distrib, ← Finset.mul_sum] at hvariables hrows hbounds
  simp only [extent, span]
  linarith

/-- **Along a direction that stays feasible the gain is no more than the tolerance allows**, where the
gain of every point is bounded up to the tolerance times its extent. -/
theorem gain_le_span {bound tol : ℚ} (htol : 0 ≤ tol) (hlen : p.length = d.length)
    (hbound : ∀ x, model.Feasible x → model.gain x ≤ bound + tol * model.extent x)
    (hstep : ∀ t, 0 ≤ t → model.Feasible (subScaled p (-t) d)) :
    model.gain d ≤ tol * model.span d := by
  by_contra hlt
  have hrate : 0 < model.gain d - tol * model.span d := sub_pos.mpr (not_le.mp hlt)
  have hgrowth : ∀ t, 0 ≤ t → t * (model.gain d - tol * model.span d) ≤
      |bound + tol * model.extent p - model.gain p| := by
    intro t ht
    have hgain : model.gain (subScaled p (-t) d) = model.gain p + t * model.gain d := by
      simp only [gain, dot_subScaled _ _ hlen]
      ring
    have hlimit := hbound _ (hstep t ht)
    have hextent := mul_le_mul_of_nonneg_left (model.extent_step_le hlen ht) htol
    have habs := le_abs_self (bound + tol * model.extent p - model.gain p)
    rw [hgain] at hlimit
    linarith
  -- far enough along the direction the gain is above the bound
  have hfar := hgrowth (|bound + tol * model.extent p - model.gain p| /
    (model.gain d - tol * model.span d) + 1)
    (add_nonneg (div_nonneg (abs_nonneg _) (le_of_lt hrate)) zero_le_one)
  rw [add_mul, div_mul_cancel₀ _ (ne_of_gt hrate), one_mul] at hfar
  linarith

end Model

/-! ## Solving again -/

/-- **Two answers agree**: in their status, and where that is an optimum in their objectives up to
`1e-3`. -/
def Result.Agrees (first second : Result ℚ) : Prop :=
  first.status = second.status ∧ (first.status = .optimal → ∃ z z', first.objective = some z ∧
    second.objective = some z' ∧ |z - z'| ≤ 1e-3)

/-- A run answers with a solution that is not a point of its model, because it has not been read
exactly. -/
def Simplex.Misreads (model : Model ℚ) (done : Run ℚ) : Prop :=
  ∃ y q, OptimumAt {} model done y q ∧ ¬ model.Feasible q ∧ (model.standardForm {}).Blurs y

theorem Simplex.OptimumAt.misreads {model : Model ℚ} {done : Run ℚ} {y q : List ℚ}
    (h : OptimumAt {} model done y q) (hvalid : model.Valid) (hnot : ¬ model.Feasible q) :
    Misreads model done := by
  refine ⟨y, q, h, hnot, ?_⟩
  by_contra hexact
  obtain ⟨basis, -, hbasic⟩ := h.basicAt
  have hpoint : q = componentSums model.components y :=
    h.reads.trans (StandardForm.map_cut_of_not_blurs hexact (le_refl _))
  have hstays : ¬ (model.standardForm {}).Strays y := fun hstrays => hexact (Or.inl hstrays)
  exact hnot (hpoint ▸ Model.feasible_of_not_strays hvalid hbasic.equations hstays)

/-- **Why the answer to a new constraint differs from that of solving again.** The answer is read from
the tableau `D`. -/
inductive Discrepancy (model : Model ℚ) (row : ExtraRow) (D : Tableau ℚ) (result : Result ℚ)
    (again : Run ℚ) : Prop
  /-- The solution of the answer is not a point of the model: it has not been read exactly. -/
  | misread {p : List ℚ} : result.solution = some p → ¬ (model.extend [row]).Feasible p →
      (model.standardForm {}).Blurs D.primalValues → Discrepancy model row D result again
  /-- The solution of the answer misses the constraint, by no more than the tolerance. -/
  | missed {p : List ℚ} : result.solution = some p → ¬ row.Holds p →
      row.sign.HoldsWithin 1e-9 (dot row.coefficients p) row.rhs →
      Discrepancy model row D result again
  /-- The other solution is not a point of the model: it has not been read exactly. -/
  | misreadAgain : Misreads (model.extend [row]) again → Discrepancy model row D result again
  /-- Solving again calls the model infeasible and overlooks the solution of the answer. -/
  | overlooked {p : List ℚ} : result.solution = some p → (model.extend [row]).Feasible p →
      again.result.status = .infeasible → Overlooks {} (model.extend [row]) again p →
      Discrepancy model row D result again
  /-- A row is blocked, and the extent of the other solution makes up for its right-hand side. -/
  | remote {q : List ℚ} {i : ℕ} : again.result.solution = some q →
      (model.extend [row]).Feasible q → result.status = .infeasible →
      D.nextDualMove 1e-9 = .blocked i →
      -entry D.rhs i ≤ 1e-9 * (model.extend [row]).extent q → Discrepancy model row D result again
  /-- An artificial column is left, and the other solution is worth no more than the penalised
  value. -/
  | outweighed {q : List ℚ} : again.result.solution = some q → (model.extend [row]).Feasible q →
      result.status = .infeasible →
      (∃ k ∈ (model.standardForm {}).artificials, 1e-7 < entry D.primalValues k) →
      model.gain q ≤ dot (model.standardForm {}).objective D.primalValues -
        1e6 * (model.standardForm {}).artificialTotal D.primalValues +
          D.shortfall * (model.extend [row]).extent q →
      Discrepancy model row D result again
  /-- The other solution is better, by no more than the tableau of the answer lacks. -/
  | short {p q : List ℚ} : result.solution = some p → again.result.solution = some q →
      (model.extend [row]).Feasible q → 1e-3 ≤ model.gain q - model.gain p →
      model.gain q - model.gain p ≤ D.shortfall * (model.extend [row]).extent q +
        1e-9 * model.costSize - 1e6 * (model.standardForm {}).artificialTotal D.primalValues →
      Discrepancy model row D result again
  /-- The solution of the answer is better, by no more than the tolerances of solving again. -/
  | loose {p q y : List ℚ} : result.solution = some p → (model.extend [row]).Feasible p →
      OptimumAt {} (model.extend [row]) again y q → 1e-3 ≤ model.gain p - model.gain q →
      model.gain p - model.gain q ≤ 1e-9 * ((model.extend [row]).extent p + model.costSize) -
        1e6 * ((model.extend [row]).standardForm {}).artificialTotal y →
      Discrepancy model row D result again
  /-- The answer is infeasible, and rightly so, but the model is called unbounded: phase one stops with
  an artificial total within the tolerance, above zero where every pivot was of least ratio. -/
  | empty {T : Tableau ℚ} {move : Move} : result.status = .infeasible →
      again.result.status = .unbounded → (∀ x, ¬ (model.extend [row]).Feasible x) →
      StopsAt 1e-9 .bland ((model.extend [row]).standardForm {}).phaseOneTableau T move →
      ((model.extend [row]).standardForm {}).artificialTotal T.primalValues ≤ 1e-7 →
      (((model.extend [row]).standardForm {}).phaseOneTableau.LeastFrom 1e-9 .bland →
        0 < ((model.extend [row]).standardForm {}).artificialTotal T.primalValues) →
      Discrepancy model row D result again
  /-- The model is called unbounded, at a ray that has a negative entry or an artificial one, or gains
  no more than the tolerance times its span. -/
  | faint {T : Tableau ℚ} {col : ℕ} : again.result.status = .unbounded →
      StopsAt 1e-9 .dantzig ((model.extend [row]).standardForm {}).tableau T (.ray col) →
      ((model.extend [row]).standardForm {}).RayAt 1e-9 T.basis col (T.ray col) →
      1e-9 < dot ((model.extend [row]).standardForm {}).costs (T.ray col) →
      (((model.extend [row]).standardForm {}).Strays (T.ray col) ∨
        model.gain (componentSums model.components (T.ray col)) ≤
          1e-9 * model.span (componentSums model.components (T.ray col))) →
      Discrepancy model row D result again

namespace Run

section Compare

variable {model : Model ℚ} {observer observer' : Observer} {done again : Run ℚ} {row : ExtraRow}
  {D : Tableau ℚ} {result : Result ℚ}

/-- An answer to a new constraint is an optimum with a solution, infeasible, or at the limit. -/
theorem NewAnswer.status_cases (h : done.NewAnswer row D result) (hvalid : model.Valid)
    (hrun : (run observer {} model).outcome = .ok done) (hstatus : done.result.status = .optimal)
    (hinverts : done.InvertsExactly) :
    (result.status = .optimal ∧ ∃ p, result.solution = some p) ∨ result.status = .infeasible ∨
      result.status = .iterationLimit := by
  obtain ⟨T, -, -, -, -, hs⟩ := exists_tableau hvalid hrun hstatus hinverts
  cases h with
  | kept => exact Or.inl ⟨hstatus, _, hs⟩
  | restored => exact Or.inl ⟨rfl, _, rfl⟩
  | raised => exact Or.inr (Or.inl rfl)
  | blocked => exact Or.inr (Or.inl rfl)
  | limit => exact Or.inr (Or.inr rfl)

variable (h : done.NewAnswer row D result) (hvalid : model.Valid)
  (hrun : (run observer {} model).outcome = .ok done) (hstatus : done.result.status = .optimal)
  (hinverts : done.InvertsExactly) (hrow : row.Fits model.variableCount)
  (hagain : (run observer' {} (model.extend [row])).outcome = .ok again)

include h hvalid hrun hstatus hinverts

/-- A solution of the answer that is not a point is off by a tolerance. -/
theorem NewAnswer.discrepancy_of_not_feasible {p : List ℚ} (hp : result.solution = some p)
    (hnot : ¬ (model.extend [row]).Feasible p) : Discrepancy model row D result again := by
  rcases h.blurs_or_misses hvalid hrun hstatus hinverts hp hnot with hblurs | ⟨hwithin, hmissed⟩
  · exact .misread hp hnot hblurs
  · exact .missed hp hmissed hwithin

include hrow hagain

/-- **An infeasible answer against an optimal one**: the other solution has not been read exactly, or
the answer misses it by a tolerance or by the penalty. -/
theorem NewAnswer.discrepancy_of_infeasible (hinfeasible : result.status = .infeasible)
    (hagain' : again.result.status = .optimal) : Discrepancy model row D result again := by
  have hextended : (model.extend [row]).Valid := hvalid.extend (by simpa using hrow)
  obtain ⟨y, q, hy⟩ := exists_optimumAt_default hextended hagain hagain'
  by_cases hfeasible : (model.extend [row]).Feasible q
  · have hq := hy.solution_eq
    obtain ⟨T, htableau, hT, hnames, -, -⟩ := exists_tableau hvalid hrun hstatus hinverts
    have hgain := h.gain_le_primalValues hvalid hrun hstatus hinverts hfeasible
    obtain ⟨rfl, -⟩ := form_of_run hvalid hrun
    cases h with
    | kept => exact absurd (hstatus.symm.trans hinfeasible) (by decide)
    | restored => cases hinfeasible
    | raised _ _ hlevel => exact .outweighed hq hfeasible hinfeasible hlevel hgain
    | blocked hD hmove =>
      exact .remote hq hfeasible hinfeasible hmove
        ((hD.canonical htableau hT hnames).neg_rhs_le_extent hvalid hmove hfeasible)
    | limit => cases hinfeasible
  · exact .misreadAgain (hy.misreads hextended hfeasible)

/-- **An optimal answer against an infeasible one**: its solution is off by a tolerance, or is
overlooked. -/
theorem NewAnswer.discrepancy_of_infeasible_again {p : List ℚ} (hp : result.solution = some p)
    (hagain' : again.result.status = .infeasible) : Discrepancy model row D result again := by
  have hextended : (model.extend [row]).Valid := hvalid.extend (by simpa using hrow)
  by_cases hfeasible : (model.extend [row]).Feasible p
  · exact .overlooked hp hfeasible hagain'
      (overlooks_of_infeasible {} hextended (by norm_num) (by simp) hagain hagain' hfeasible)
  · exact h.discrepancy_of_not_feasible hvalid hrun hstatus hinverts hp hfeasible

/-- **Two optimal answers agree**, unless one of them is off by its tolerances. -/
theorem NewAnswer.agrees_of_optimal (hoptimal : result.status = .optimal) {p : List ℚ}
    (hp : result.solution = some p) (hagain' : again.result.status = .optimal) :
    result.Agrees again.result ∨ Discrepancy model row D result again := by
  have hextended : (model.extend [row]).Valid := hvalid.extend (by simpa using hrow)
  obtain ⟨y, q, hy⟩ := exists_optimumAt_default hextended hagain hagain'
  by_cases hfeasible : (model.extend [row]).Feasible p ∧ (model.extend [row]).Feasible q
  · obtain ⟨hfp, hfq⟩ := hfeasible
    have hlow := h.gain_le_solution hvalid hrun hstatus hinverts hfq hp
    have hhigh : model.gain p ≤ model.gain q +
        1e-9 * ((model.extend [row]).extent p + model.costSize) -
          1e6 * ((model.extend [row]).standardForm {}).artificialTotal y :=
      hy.gain_le_solution (by norm_num) hfp
    by_cases hshort : 1e-3 ≤ model.gain q - model.gain p
    · exact Or.inr (.short hp hy.solution_eq hfq hshort (by linarith))
    by_cases hloose : 1e-3 ≤ model.gain p - model.gain q
    · exact Or.inr (.loose hp hfp hy hloose (by linarith))
    refine Or.inl ⟨hoptimal.trans hagain'.symm, fun _ => ⟨_, _, h.objective_eq hvalid hrun hp,
      objective_of_run hextended hagain hy.solution_eq, abs_round3_sub_le ?_⟩⟩
    have hclose : |model.gain p - model.gain q| < 1e-3 := by
      rw [abs_lt]
      constructor <;> linarith
    have hfactor : |(model.sense.factor : ℚ)| = 1 := by
      cases model.sense <;> simp [Sense.factor]
    have hcosts : (model.extend [row]).costs = model.costs := rfl
    rw [Model.gain, Model.gain, ← mul_sub, abs_mul, hfactor, one_mul] at hclose
    rw [hcosts]
    exact hclose
  · rcases not_and_or.mp hfeasible with hnot | hnot
    · exact Or.inr (h.discrepancy_of_not_feasible hvalid hrun hstatus hinverts hp hnot)
    · exact Or.inr (.misreadAgain (hy.misreads hextended hnot))

omit h hinverts in
/-- **An unbounded verdict of a model with points is one of tolerances** where the model without the
constraint has an optimum. -/
theorem discrepancy_of_unbounded (hunbounded : again.result.status = .unbounded)
    (hpoint : ∃ x, (model.extend [row]).Feasible x) : Discrepancy model row D result again := by
  obtain ⟨x, hx⟩ := hpoint
  have hextended : (model.extend [row]).Valid := hvalid.extend (by simpa using hrow)
  have htol : (0 : ℚ) ≤ ({} : Options ℚ).tol := by norm_num
  obtain ⟨-, T, col, -, hstops⟩ := exists_of_unbounded hextended htol (by simp) hagain hunbounded
  obtain ⟨hray, hgain⟩ := lt_dot_ray htol hstops
  refine .faint hunbounded hstops hray hgain (or_iff_not_imp_left.mpr fun hstays => ?_)
  have hnonneg : ∀ a ∈ T.ray col, 0 ≤ a :=
    fun a ha => not_lt.mp fun hneg => hstays (Or.inl ⟨a, ha, hneg⟩)
  have hzero := StandardForm.artificialTotal_of_not_strays hstays
  obtain ⟨y, s, hy⟩ := exists_optimumAt_default hvalid hrun hstatus
  have hrepresents := Model.represents_lift {} hextended hx
  have hlen : ((model.extend [row]).lift x).length = (T.ray col).length :=
    hrepresents.length_eq.trans hray.length_eq.symm
  refine Model.gain_le_span (p := x) htol ?_ hy.gain_le fun t ht => ?_
  · rw [length_componentSums, hx.length_eq]
    exact (StandardForm.length_components hvalid.sized).symm
  · -- a step along the ray stays feasible for the model with the constraint
    have hstep := Model.feasible_of_represents hextended
      (represents_step hrepresents hray.length_eq hray.equations hnonneg hzero ht)
    rw [componentSums_subScaled _ hlen] at hstep
    have hback : componentSums (model.extend [row]).components ((model.extend [row]).lift x) = x :=
      hrepresents.components
    rw [hback] at hstep
    exact (Model.feasible_of_extend hvalid hstep).1

omit h hinverts hrun hstatus in
/-- **An unbounded verdict of a model without points**, against an infeasible answer. -/
theorem discrepancy_of_empty (hinfeasible : result.status = .infeasible)
    (hunbounded : again.result.status = .unbounded)
    (hnone : ∀ x, ¬ (model.extend [row]).Feasible x) : Discrepancy model row D result again := by
  have hextended : (model.extend [row]).Valid := hvalid.extend (by simpa using hrow)
  have htol : (0 : ℚ) ≤ ({} : Options ℚ).tol := by norm_num
  obtain ⟨T, -, -, hcleared, -⟩ := exists_of_unbounded hextended htol (by simp) hagain hunbounded
  -- where the solution is not negative and has no artificial total, its point is feasible
  have hpoint : (∀ a ∈ T.primalValues, 0 ≤ a) →
      0 < ((model.extend [row]).standardForm {}).artificialTotal T.primalValues := by
    intro hnonneg
    refine lt_of_le_of_ne (StandardForm.artificialTotal_nonneg (entry_nonneg hnonneg))
      fun hzero => ?_
    have hnearly : (model.extend [row]).NearlyFeasible
        (((model.extend [row]).standardForm {}).artificialTotal T.primalValues) _ :=
      Model.nearlyFeasible_of_solves hextended (hcleared.basicAt htol).equations
        (entry_nonneg hnonneg)
    rw [← hzero, Model.nearlyFeasible_zero] at hnearly
    exact hnone _ hnearly
  have htotal := hcleared.artificialTotal_le
  have hleast := hcleared.nonneg htol
  cases hcleared with
  | start hempty =>
    have hpos := hpoint (hleast (Or.inl hempty))
    rw [StandardForm.artificialTotal, hempty] at hpos
    exact absurd hpos (lt_irrefl 0)
  | phaseOne _ hstops =>
    exact .empty hinfeasible hunbounded hnone hstops htotal fun h => hpoint (hleast (Or.inr h))

end Compare

/-- The run on the model is optimal, and these are the status and the objective of the answer to the
new constraint and of solving again. -/
def Compares (model : Model ℚ) (row : ExtraRow) (first second : Status × Option ℚ) : Prop :=
  ∃ done, (run .silent {} model).outcome = .ok done ∧ done.result.status = .optimal ∧
    ∃ result, (done.addConstraint .silent {} row.coefficients row.sign row.rhs).outcome = .ok result ∧
      (result.status, result.objective) = first ∧
      ∃ extended, model.withRow row.coefficients row.sign row.rhs = .ok extended ∧
        ∃ again, (run .silent {} extended).outcome = .ok again ∧
          (again.result.status, again.result.objective) = second

instance (model : Model ℚ) (row : ExtraRow) (first second : Status × Option ℚ) :
    Decidable (Compares model row first second) :=
  inferInstanceAs (Decidable (∃ done, _ = Except.ok done ∧ _))

example : Compares mixedModel ⟨[1, 0], .ge, 2⟩ (.optimal, some 16) (.optimal, some 16) := by
  decide +kernel

/-- A large cost, on which ratios that tie tell: maximise `1e8 x` under `1e6 x ≤ 1e6`. -/
def costlyModel : Model ℚ :=
  { sense := .max, rows := [[1e6, 0]], rhs := [1e6], costs := [1e8, 0], signs := [.le]
    kinds := [.nonneg, .nonneg] }

/-- Maximise `1e4 x` under `x ≤ 1`. -/
def unitModel : Model ℚ :=
  { sense := .max, rows := [[1]], rhs := [1], costs := [1e4], signs := [.le], kinds := [.nonneg] }

/-- A cost above the penalty: minimise `1e7 x` under `x ≤ 10`. -/
def cappedModel : Model ℚ :=
  { sense := .min, rows := [[1]], rhs := [10], costs := [1e7], signs := [.le], kinds := [.nonneg] }

/-- Points of large extent: `x ≤ 2e10`. -/
def wideModel : Model ℚ :=
  { sense := .max, rows := [[1]], rhs := [2e10], costs := [0], signs := [.le], kinds := [.nonneg] }

/-- An artificial column is basic at zero: `-y = 0` and `x ≤ 2e10`. -/
def pinnedModel : Model ℚ :=
  { sense := .max, rows := [[-1, 0], [0, 1]], rhs := [0, 2e10], costs := [0, 0], signs := [.eq, .le]
    kinds := [.nonneg, .nonneg] }

/-- A cost that is saved at points of large extent: minimise `1000 y` under `x ≤ 1e10`. -/
def bufferModel : Model ℚ :=
  { sense := .min, rows := [[0, 1]], rhs := [1e10], costs := [1000, 0], signs := [.le]
    kinds := [.nonneg, .nonneg] }

/-- A cost below the tolerance: maximise `5e-10 x` under `x + w = 1e7`. -/
def evenModel : Model ℚ :=
  { sense := .max, rows := [[1, 1, 0]], rhs := [1e7], costs := [5e-10, 0, 0], signs := [.eq]
    kinds := [.nonneg, .nonneg, .nonneg] }

/-- A coefficient below the tolerance: `u ≤ 1` and `1e-10 x ≤ 1e-10`. -/
def narrowModel : Model ℚ :=
  { sense := .max, rows := [[1, 0], [0, 1e-10]], rhs := [1, 1e-10], costs := [0, 0]
    signs := [.le, .le], kinds := [.nonneg, .nonneg] }

/-- A cost below the tolerance: maximise `5e-10 x` under `0 x ≤ 1`. -/
def idleModel : Model ℚ :=
  { sense := .max, rows := [[0]], rhs := [1], costs := [5e-10], signs := [.le], kinds := [.nonneg] }

/-- A coefficient that inversion skips: maximise `y` under `x = 1e14` and `9e-16 x + y ≤ 1`. -/
def skewedModel : Model ℚ :=
  { sense := .max, rows := [[1, 0], [9e-16, 1]], rhs := [1e14, 1], costs := [0, 1]
    signs := [.eq, .le], kinds := [.nonneg, .nonneg] }

end Run

end LinOpt
