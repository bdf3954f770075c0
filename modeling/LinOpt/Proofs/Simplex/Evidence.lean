import LinOpt.Proofs.Simplex.Infeasible
/-!
# What an answer leaves of a point

A search solves many relaxations and acts on each answer. What it may conclude for one point of the
problem is collected here. An optimal answer comes with the basic solution that it is read from
(`OptimumAt`): the point is worth no more than that, up to the tolerances. An infeasible answer is
right about a point, or it overlooks it in one of three ways (`Overlooks`).
-/

namespace LinOpt

open Finset Tableau

theorem Sense.factor_mul_le (sense : Sense) (a : ℚ) : sense.factor * a ≤ |a| := by
  cases sense with
  | max => simpa [Sense.factor] using le_abs_self a
  | min => simpa [Sense.factor] using neg_le_abs a
  | other _ => simpa [Sense.factor] using neg_le_abs a

/-- The magnitudes of the costs, together. -/
def Model.costSize (model : Model ℚ) : ℚ := (model.costs.map fun a => |a|).sum

theorem Model.costSize_nonneg (model : Model ℚ) : 0 ≤ model.costSize := List.sum_nonneg (by simp)

/-- Taking small values for zero changes the gain of a point by no more than the tolerance times the
costs. -/
theorem Model.gain_le_gain_cut {tol : ℚ} (htol : 0 ≤ tol) (model : Model ℚ) (y : List ℚ) :
    model.gain y ≤ model.gain (y.map (cut tol)) + tol * model.costSize := by
  have hcut := abs_dot_cut_sub_le htol model.costs y
  rw [abs_sub_comm] at hcut
  have hfactor : model.sense.factor * (dot model.costs y - dot model.costs (y.map (cut tol))) ≤
      tol * model.costSize := (Sense.factor_mul_le _ _).trans hcut
  simp only [gain]
  linarith

namespace Simplex

/-- Every pivot that the simplex method makes on the model is of least ratio. -/
def LeastThroughout (opts : Options ℚ) (model : Model ℚ) : Prop :=
  (model.standardForm opts).tableau.LeastFrom opts.tol opts.rule

/-- **What an optimal answer is read from**: a basic solution whose artificial columns are within
the tolerance. The solution is its point, with small values as zero; no feasible point is worth more
than its penalised value, up to the tolerance times the extent of the point; and it is not negative
where every pivot was of least ratio. -/
structure OptimumAt (opts : Options ℚ) (model : Model ℚ) (done : Run ℚ) (y s : List ℚ) : Prop where
  solution_eq : done.result.solution = some s
  basicAt : ∃ basis, done.basis = some basis ∧ (model.standardForm opts).BasicAt basis y
  level : ∀ k ∈ (model.standardForm opts).artificials, entry y k ≤ feasibilityTolerance
  reads : s = (componentSums model.components y).map (cut opts.tol)
  gain_le : ∀ x, model.Feasible x → model.gain x ≤ dot (model.standardForm opts).objective y -
    opts.bigM * (model.standardForm opts).artificialTotal y + opts.tol * model.extent x
  nonneg : LeastThroughout opts model → ∀ a ∈ y, 0 ≤ a

/-- **How a run that calls a model infeasible overlooks one of its points.** -/
inductive Overlooks (opts : Options ℚ) (model : Model ℚ) (done : Run ℚ) (p : List ℚ) : Prop
  /-- The run ends with an artificial column left, and the point is worth no more than the penalised
  value there. -/
  | outweighed {T : Tableau ℚ} :
      (model.standardForm opts).KeepsArtificial opts.tol opts.rule done T →
      model.gain p ≤ dot (model.standardForm opts).objective T.primalValues -
        opts.bigM * (model.standardForm opts).artificialTotal T.primalValues +
        opts.tol * model.extent p →
      Overlooks opts model done p
  /-- Phase one stops at an optimum, and the extent of the point makes up for the total left there. -/
  | remote {T : Tableau ℚ} :
      (model.standardForm opts).LeavesGap opts.tol opts.rule done T .optimal →
      (model.standardForm opts).artificialTotal T.primalValues ≤ opts.tol * model.extent p →
      Overlooks opts model done p
  /-- Phase one stops at a ray along which the artificial total falls, and the extent of the point
  makes up for the total left there as far as the reduced costs allow. -/
  | stuck {T : Tableau ℚ} {col : ℕ} :
      (model.standardForm opts).LeavesGap opts.tol opts.rule done T (.ray col) →
      (model.standardForm opts).RayAt opts.tol T.basis col (T.ray col) →
      (model.standardForm opts).artificialTotal (T.ray col) < -opts.tol →
      (model.standardForm opts).artificialTotal T.primalValues ≤ T.shortfall * model.extent p →
      Overlooks opts model done p

variable {observer : Observer} {opts : Options ℚ} {model : Model ℚ} {done : Run ℚ}
  {p s x y : List ℚ}

/-- **The answers of a run on a valid model.** None of them is an error, and an infeasible one names
the artificial level. -/
theorem answer_cases (opts : Options ℚ) (hvalid : model.Valid) (htol : 0 ≤ opts.tol)
    (hexact : opts.method = .revised → RevisedExact opts model)
    (hrun : (run observer opts model).outcome = .ok done) :
    (done.result.status = .optimal ∧ ∃ s, done.result.solution = some s) ∨
      (done.result.status = .infeasible ∧ ∀ words, done.result.message ≠ .text words) ∨
      done.result.status = .unbounded ∨ done.result.status = .iterationLimit := by
  have hends := ends_pivotToEnd observer hvalid htol hexact
  rw [outcome_run observer opts hvalid] at hrun
  obtain rfl := Except.ok.inj hrun
  generalize (pivotToEnd observer opts (model.standardForm opts)).outcome = answer at hends ⊢
  cases hends with
  | optimum =>
    rw [concluded, finished]
    dsimp only
    split
    · exact Or.inr (Or.inl ⟨rfl, by simp [Result.failed]⟩)
    · exact Or.inl ⟨rfl, _, rfl⟩
  | ray => exact Or.inr (Or.inr (Or.inl rfl))
  | cleared => exact Or.inr (Or.inr (Or.inl rfl))
  | gap => exact Or.inr (Or.inl ⟨rfl, by simp [concluded, Result.ofFault, Result.failed]⟩)
  | limit => exact Or.inr (Or.inr (Or.inr rfl))

/-- **An optimal answer is read from a basic solution.** -/
theorem exists_optimumAt (opts : Options ℚ) (hvalid : model.Valid) (htol : 1e-12 ≤ opts.tol)
    (htol' : opts.tol ≤ feasibilityTolerance)
    (hexact : opts.method = .revised → RevisedExact opts model)
    (hrun : (run observer opts model).outcome = .ok done)
    (hstatus : done.result.status = .optimal) : ∃ y s, OptimumAt opts model done y s := by
  have hzero : 0 ≤ opts.tol := le_trans (by norm_num) htol
  obtain ⟨n, T, hleads, hmove, hT, hbasis, hsolution, hlevel⟩ :=
    exists_optimum_of_optimal opts hvalid htol htol' hexact hrun hstatus
  have hstart := model.canonical_standardForm_tableau opts
  refine ⟨T.primalValues, _, hsolution, ⟨T.basis, hbasis, hT.basicAt⟩, hlevel, rfl, ?_, ?_⟩
  · intro x hx
    exact gain_le_of_optimum hT hmove hvalid hx
  · intro hleast
    exact hT.primalValues_nonneg_iff.mpr (hstart.leads_nonneg hzero hleads hleast
      (hstart.primalValues_nonneg_iff.mp start_nonneg))

theorem exists_optimumAt_default (hvalid : model.Valid)
    (hrun : (run observer {} model).outcome = .ok done) (hstatus : done.result.status = .optimal) :
    ∃ y s, OptimumAt {} model done y s :=
  exists_optimumAt {} hvalid (by norm_num) (by norm_num [feasibilityTolerance]) (by simp) hrun hstatus

/-- **An infeasible answer overlooks every point that the model has.** -/
theorem overlooks_of_infeasible (opts : Options ℚ) (hvalid : model.Valid) (htol : 0 ≤ opts.tol)
    (hexact : opts.method = .revised → RevisedExact opts model)
    (hrun : (run observer opts model).outcome = .ok done)
    (hstatus : done.result.status = .infeasible) (hp : model.Feasible p) :
    Overlooks opts model done p := by
  rcases infeasible_cases opts hvalid htol hexact hrun hstatus with
    ⟨T, hkept, hgain⟩ | ⟨T, hgap, hextent⟩ | ⟨T, col, hgap, hray, hfall, hextent⟩
  · exact .outweighed hkept (hgain p hp)
  · exact .remote hgap (hextent p hp)
  · exact .stuck hgap hray hfall (hextent p hp)

/-- The solution of an optimal answer, within the tolerances: the basic solution may be below zero
by `low`. -/
theorem OptimumAt.feasibleWithin (h : OptimumAt opts model done y s) (hvalid : model.Valid)
    (htol : 0 ≤ opts.tol) {low : ℚ} (hlow : 0 ≤ low) (hall : ∀ a ∈ y, -low ≤ a) :
    model.FeasibleWithin low
      (fun i => low + feasibilityTolerance + opts.tol * model.rowSize i) s := by
  obtain ⟨basis, -, hbasic⟩ := h.basicAt
  rw [h.reads]
  exact (Model.feasibleWithin_of_solves hbasic.equations (le_entry (neg_nonpos.mpr hlow) hall) hlow
    h.level feasibilityTolerance_nonneg hvalid).cut hlow htol

/-- **No feasible point is worth more than the solution of an optimal answer**, up to the tolerance
and the penalty of what is left in the artificial columns. -/
theorem OptimumAt.gain_le_solution (h : OptimumAt opts model done y s) (htol : 0 ≤ opts.tol)
    (hx : model.Feasible x) :
    model.gain x ≤ model.gain s + opts.tol * (model.extent x + model.costSize) -
      opts.bigM * (model.standardForm opts).artificialTotal y := by
  have hbound := h.gain_le x hx
  have hcut := model.gain_le_gain_cut htol (componentSums model.components y)
  have hvalue : dot (model.standardForm opts).objective y =
      model.gain (componentSums model.components y) := model.dot_objective opts y
  rw [← h.reads] at hcut
  rw [hvalue] at hbound
  linarith

end Simplex

end LinOpt
