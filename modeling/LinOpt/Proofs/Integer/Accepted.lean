import LinOpt.Proofs.Integer.CutLoop
/-!
# What an accepted integer solution is worth

Both searches accept a solution of a relaxation in which every whole variable is within the
tolerance of an integer, and move those variables there (`Accepts`). The relaxation is that of the
model with more rows: the bounds of a node, or the cuts so far. So the point meets the model as well
as the solution of the relaxation does, up to what the move costs: the tolerance in the kinds, and
in a row what its coefficients make of the move. `accepted_within` says so for either search, and
`accepted_without_feasibility` has a model for each of the ways in which a row or a kind is missed.
-/

namespace LinOpt

open Simplex

variable {opts : Options ℚ} {model : Model ℚ} {p s : List ℚ}

/-! ## Solutions that are moved -/

/-- Nothing is left to clear in a solution that has been cleared and rounded. -/
theorem Rounds.map_clean {places : List ℕ} {tol cutTol : ℚ} {values : List ℚ}
    (h : Rounds places tol s p) (hcut : s = values.map (cut cutTol)) (htol : 1e-12 ≤ cutTol) :
    p.map Scalar.clean = p := by
  refine eq_of_entry_eq (by simp) fun j _ => ?_
  rw [entry_map (by rw [clean_eq_cut, cut_zero]), clean_eq_cut]
  by_cases hj : j ∈ places
  · obtain ⟨z, hz⟩ := h.whole j hj
    rw [hz]
    by_cases hzero : z = 0
    · simp [hzero]
    · have hone : (1 : ℚ) ≤ |(z : ℚ)| := by exact_mod_cast Int.one_le_abs hzero
      exact if_neg (not_lt.mpr (le_trans (by norm_num) hone))
  · rw [h.rest j hj, hcut, entry_map (cut_zero cutTol), cut_cut htol]

/-- The rows are those of a search: bounds on whole variables, or cuts that the loop comes to. -/
def Searched (opts : Options ℚ) (model : Model ℚ) (more : List ExtraRow) : Prop :=
  (∀ row ∈ more, model.IsBranch row) ∨
    ∃ cuts, CuttingPlane.Reached opts model cuts ∧ more = cuts.map Cut.row

theorem Searched.fits {more : List ExtraRow} (h : Searched opts model more) :
    ∀ row ∈ more, row.Fits model.variableCount := by
  rcases h with hbranch | ⟨cuts, hreached, rfl⟩
  · intro row hrow
    obtain ⟨k, -, z, upper, rfl⟩ := hbranch row hrow
    exact ExtraRow.fits_bound _ _ _ _
  · exact hreached.fits

/-- **The point is accepted at a problem with more rows**: its relaxation has an optimum, read from
the basic solution `y`, and the point is the solution with its whole variables moved to integers. -/
structure Accepts (opts : Options ℚ) (model : Model ℚ) (more : List ExtraRow) (y s p : List ℚ) :
    Prop where
  searched : Searched opts model more
  optimum : ∃ done, (run .silent opts (model.extend more)).outcome = .ok done ∧
    done.result.status = .optimal ∧ OptimumAt opts (model.extend more) done y s
  rounds : Rounds model.integerIndices opts.intTol s p

/-- A solution that has been rounded is accepted, and clearing it changes nothing. -/
theorem exists_accepts (hvalid : model.Valid) {more : List ExtraRow} {done : Run ℚ}
    (hsearched : Searched {} model more)
    (hrun : (run .silent {} (model.extend more)).outcome = .ok done)
    (hstatus : done.result.status = .optimal) (hsolution : done.result.solution = some s)
    (hrounds : Rounds model.integerIndices ({} : Options ℚ).intTol s p) :
    ∃ y, Accepts {} model more y s (p.map Scalar.clean) := by
  obtain ⟨y, s', hoptimum⟩ := exists_optimumAt {} (hvalid.extend hsearched.fits) (by norm_num)
    (by norm_num [feasibilityTolerance]) (by simp) hrun hstatus
  obtain rfl := Option.some.inj (hsolution.symm.trans hoptimum.solution_eq)
  rw [hrounds.map_clean hoptimum.reads (by norm_num)]
  exact ⟨y, hsearched, ⟨done, hrun, hstatus, hoptimum⟩, hrounds⟩

/-! ## The two searches -/

namespace BranchAndBound

/-- Branch and bound answers with this integer solution. -/
def Finds (observer : Observer) (opts : Options ℚ) (model : Model ℚ) (p : List ℚ) : Prop :=
  ∃ outcome, (search observer opts model).outcome = .ok outcome ∧
    outcome.result.status = .optimalInteger ∧ outcome.result.solution = some p

/-- The solution of a nearly whole answer of the simplex method is accepted. -/
theorem exists_accepts_of_answer {setting : Setting ℚ} (hvalid : setting.model.Valid)
    (hopts : setting.opts = {}) (hsolver : setting.solver = simplexSolver {})
    {bounds : List ExtraRow} {problem : Model ℚ}
    (hbranched : setting.model.Branched bounds problem) {n : ℕ} {result : Result ℚ}
    (hanswer : setting.solver n problem = .ok result) (hstatus : result.status = .optimal)
    (hsolution : result.solution = some s)
    (hwhole : selectFractional s setting.integerVariables setting.opts.intTol = .ok none)
    (hsnap : snap s setting.integerVariables setting.opts.intTol = .ok p) :
    ∃ more y, Accepts {} setting.model more y s (p.map Scalar.clean) := by
  obtain ⟨done, hrun, hdone⟩ := exists_run_of_simplexSolver {} n (hbranched.valid hvalid)
  rw [hsolver] at hanswer
  obtain rfl := Except.ok.inj (hdone.symm.trans hanswer)
  rw [hbranched.eq_extend] at hrun
  rw [hopts] at hwhole hsnap
  have hgap := wholeGap_le_of_selectFractional (by norm_num) hwhole
  obtain ⟨y, haccepts⟩ := exists_accepts hvalid (Or.inl hbranched.isBranch) hrun hstatus hsolution
    (rounds_of_snap setting.model.nodup_integerIndices hgap hsnap)
  exact ⟨bounds, y, haccepts⟩

/-- **An integer solution of branch and bound has been accepted at a node.** -/
theorem Finds.exists_accepts {observer : Observer} (hvalid : model.Valid)
    (h : Finds observer {} model p) : ∃ more y s, Accepts {} model more y s p := by
  obtain ⟨outcome, hsearch, hstatus, hsolution⟩ := h
  cases closes_of_searchWith hsearch with
  | failed => simp [Result.failed] at hstatus
  | @root root hroot _ =>
    -- the simplex method does not answer with this status
    obtain ⟨done, hrun, hanswer⟩ := exists_run_of_simplexSolver {} 1 hvalid
    obtain rfl := Except.ok.inj (hanswer.symm.trans hroot)
    rcases answer_cases {} hvalid (by norm_num) (by simp) hrun with
      ⟨hother, -⟩ | ⟨hother, -⟩ | hother | hother <;> simp [hother] at hstatus
  | whole hroot hoptimal hs _ hchoice hsnap =>
    obtain rfl := Option.some.inj hsolution
    obtain ⟨more, y, haccepts⟩ := exists_accepts_of_answer hvalid rfl rfl (.refl model) hroot
      hoptimal hs hchoice hsnap
    exact ⟨more, y, _, haccepts⟩
  | @searched taken state capped _ hpasses _ _ hend =>
    obtain ⟨-, -, ⟨-, _, _, hresult⟩ | ⟨best, snapped, _, _, _, hbest, hsnap, hresult⟩⟩ :=
      conclude_cases hend
    · cases capped <;> simp [hresult, Result.failed] at hstatus
    · obtain rfl : snapped.map Scalar.clean = p := by
        rw [hresult] at hsolution
        exact Option.some.inj hsolution
      obtain ⟨⟨n, hanswered⟩, hchoice⟩ := hpasses.kept.incumbent best hbest
      obtain ⟨result, hanswer, hoptimal, hs⟩ := hanswered.answer
      obtain ⟨bounds, hbranched⟩ := hanswered.calls.branched hvalid.sized
      obtain ⟨more, y, haccepts⟩ := exists_accepts_of_answer hvalid rfl rfl hbranched hanswer
        hoptimal hs hchoice hsnap
      exact ⟨more, y, _, haccepts⟩

end BranchAndBound

namespace CuttingPlane

/-- The cutting-plane method answers with this integer solution. -/
def Finds (observer : Observer) (opts : Options ℚ) (model : Model ℚ) (p : List ℚ) : Prop :=
  ∃ outcome, (search observer opts model).outcome = .ok outcome ∧
    outcome.result.status = .optimalInteger ∧ outcome.result.solution = some p

/-- A solution in which no variable is fractional, rounded, is accepted. -/
theorem exists_accepts_of_whole (hvalid : model.Valid) {cuts : List (Cut ℚ)} {done : Run ℚ}
    (hreached : Reached {} model cuts)
    (hrun : (run .silent {} (model.withCuts cuts)).outcome = .ok done)
    (hstatus : done.result.status = .optimal) (hsolution : done.result.solution = some s)
    (hchoice : firstFractional s ({} : Options ℚ).intTol (integerVariables model) = .ok none)
    (hround : roundWhole model s = .ok p) :
    ∃ y, Accepts {} model (cuts.map Cut.row) y s (p.map Scalar.clean) := by
  obtain ⟨y, s', hoptimum⟩ := exists_optimumAt {} (hreached.valid hvalid) (by norm_num)
    (by norm_num [feasibilityTolerance]) (by simp) hrun hstatus
  obtain rfl := Option.some.inj (hsolution.symm.trans hoptimum.solution_eq)
  have hlength : s.length = model.variableCount := by
    rw [hoptimum.reads, List.length_map, length_componentSums]
    exact StandardForm.length_components (hreached.valid hvalid).sized
  have hgap : ∀ j ∈ model.integerIndices, wholeGap (entry s j) ≤ ({} : Options ℚ).intTol := by
    rcases firstFractional_cases hchoice with ⟨-, hall⟩ | ⟨j, -, hsome, -⟩
    · exact hall
    · cases hsome
  have hlt : ∀ j ∈ model.integerIndices, j < s.length := by
    intro j hj
    rw [hlength]
    exact Model.lt_of_mem_integerIndices hvalid.sized hj
  exact exists_accepts hvalid (Or.inr ⟨cuts, hreached, rfl⟩) hrun hstatus hsolution
    (rounds_of_roundWhole hgap hlt hround)

/-- **An integer solution of the cutting-plane method has been accepted at the last cuts.** -/
theorem exists_accepts_of_search {observer : Observer} (hvalid : model.Valid)
    {outcome : CutOutcome ℚ} (hsearch : (search observer {} model).outcome = .ok outcome)
    (hstatus : outcome.result.status = .optimalInteger)
    (hsolution : outcome.result.solution = some p) :
    ∃ y s, Accepts {} model (outcome.cuts.map Cut.row) y s p := by
  cases ends_search hsearch with
  | whole hreached hrun hoptimal hs hchoice hround =>
    obtain rfl := Option.some.inj hsolution
    obtain ⟨y, haccepts⟩ := exists_accepts_of_whole hvalid hreached hrun hoptimal hs hchoice hround
    exact ⟨y, _, haccepts⟩
  | limit => simp [Result.solved] at hstatus
  | @stopped cuts done count hreached hrun hother =>
    have hproblem := hreached.valid hvalid
    rcases answer_cases {} hproblem (by norm_num) (by simp) hrun with
      ⟨hother, -⟩ | ⟨hother, -⟩ | hother | hother <;> simp [Result.failed, hother] at hstatus
  | failed => simp [Result.failed] at hstatus

end CuttingPlane

/-! ## What the point is worth -/

/-- An accepted point, within the tolerances: the basic solution may be below zero by `low`. -/
theorem Accepts.feasibleWithin {more : List ExtraRow} {y : List ℚ}
    (h : Accepts {} model more y s p) (hvalid : model.Valid) {low : ℚ} (hlow : 0 ≤ low)
    (hall : ∀ a ∈ y, -low ≤ a) :
    model.FeasibleWithin (low + 1e-6) (fun i => low + 1e-7 + 1e-9 * model.rowSize i +
      spread (model.rows.rowAt i) s p) p := by
  obtain ⟨done, -, -, hoptimum⟩ := h.optimum
  have hproblem := hvalid.extend h.searched.fits
  have hwithin := (hoptimum.feasibleWithin hproblem (by norm_num) hlow hall).of_extend hvalid.sized
  refine (hwithin.rounds h.rounds (by norm_num)).mono (le_refl _) fun i hi => ?_
  rw [Model.rowSize_extend hvalid.sized more hi]
  exact le_refl _

/-- The rows that an answer has been accepted with: those of the cuts, where it is an answer of the
cutting-plane method. -/
theorem exists_accepts_of_finds (observer : Observer) (hvalid : model.Valid)
    (hfinds : BranchAndBound.Finds observer {} model p ∨ CuttingPlane.Finds observer {} model p) :
    ∃ more y s, Accepts {} model more y s p ∧
      ∀ outcome, (CuttingPlane.search observer {} model).outcome = .ok outcome →
        outcome.result.status = .optimalInteger → outcome.result.solution = some p →
        more = outcome.cuts.map Cut.row := by
  by_cases hcuts : CuttingPlane.Finds observer {} model p
  · obtain ⟨outcome, hsearch, hstatus, hsolution⟩ := hcuts
    obtain ⟨y, s, haccepts⟩ :=
      CuttingPlane.exists_accepts_of_search hvalid hsearch hstatus hsolution
    refine ⟨_, y, s, haccepts, fun outcome' hsearch' _ _ => ?_⟩
    obtain rfl := Except.ok.inj (hsearch.symm.trans hsearch')
    rfl
  · obtain ⟨more, y, s, haccepts⟩ := (hfinds.resolve_right hcuts).exists_accepts hvalid
    exact ⟨more, y, s, haccepts, fun outcome hsearch hstatus hsolution =>
      absurd ⟨outcome, hsearch, hstatus, hsolution⟩ hcuts⟩

/-- **What an accepted integer solution is worth**, by branch and bound or by cuts. Its whole
variables are whole. It is the solution of a relaxation moved to integers, with bounds on whole
variables or with the cuts, and misses the kinds and the rows by no more than the basic solution is
below zero, the tolerances, and what the move costs. Where every pivot of that relaxation was of least
ratio, and each row is of moderate size and little moved, it meets kinds and rows up to `1e-6`. -/
theorem accepted_within (observer : Observer) (hvalid : model.Valid)
    (hfinds : BranchAndBound.Finds observer {} model p ∨ CuttingPlane.Finds observer {} model p) :
    (∀ j ∈ model.integerIndices, ∃ z : ℤ, entry p j = z) ∧
      ∃ more y s, Accepts {} model more y s p ∧
        (∀ outcome, (CuttingPlane.search observer {} model).outcome = .ok outcome →
          outcome.result.status = .optimalInteger → outcome.result.solution = some p →
          more = outcome.cuts.map Cut.row) ∧
        (∀ low, 0 ≤ low → (∀ a ∈ y, -low ≤ a) →
          model.FeasibleWithin (low + 1e-6) (fun i => low + 1e-7 + 1e-9 * model.rowSize i +
            spread (model.rows.rowAt i) s p) p) ∧
        (LeastThroughout {} (model.extend more) →
          (∀ i < model.rowCount,
            1e-9 * model.rowSize i + spread (model.rows.rowAt i) s p ≤ 9e-7) →
          model.FeasibleWithin 1e-6 (fun _ => 1e-6) p) := by
  obtain ⟨more, y, s, haccepts, hcuts⟩ := exists_accepts_of_finds observer hvalid hfinds
  refine ⟨haccepts.rounds.whole, more, y, s, haccepts, hcuts,
    fun low => haccepts.feasibleWithin hvalid, fun hleast hsmall => ?_⟩
  obtain ⟨done, -, -, hoptimum⟩ := haccepts.optimum
  have hnonneg := hoptimum.nonneg hleast
  refine (haccepts.feasibleWithin hvalid (le_refl 0) (by simpa using hnonneg)).mono
    (by norm_num) fun i hi => ?_
  have hrow := hsmall i hi
  norm_num at hrow ⊢
  linarith

/-! ## Accepted solutions that are off -/

instance (opts : Options ℚ) (model : Model ℚ) (p : List ℚ) :
    Decidable (BranchAndBound.Finds .silent opts model p) :=
  inferInstanceAs (Decidable (∃ outcome, _ = Except.ok outcome ∧ _))

instance (opts : Options ℚ) (model : Model ℚ) (p : List ℚ) :
    Decidable (CuttingPlane.Finds .silent opts model p) :=
  inferInstanceAs (Decidable (∃ outcome, _ = Except.ok outcome ∧ _))

/-- The move to the integer counts in a large row: maximise `x` under `1000 x ≤ 999.9995`, with `x`
whole. -/
def coarseModel : Model ℚ :=
  { sense := .max, rows := [[1000]], rhs := [999.9995], costs := [1], signs := [.le]
    kinds := [.int] }

/-- Ratios that tie leave `y` negative: maximise `x` under `1e6 x ≤ 1e6` and
`1e10 x + y = 9999999995`, with `x` whole. -/
def tightModel : Model ℚ :=
  { sense := .max, rows := [[1e6, 0], [1e10, 1]], rhs := [1e6, 9999999995], costs := [1, 0],
    signs := [.le, .eq]
    kinds := [.int, .nonneg] }

/-- A value made zero counts in a large row: `1e4 x = 5e-6`, beside a whole variable. -/
def smallModel : Model ℚ :=
  { sense := .max, rows := [[1e4, 0]], rhs := [5e-6], costs := [0, 0], signs := [.eq]
    kinds := [.nonneg, .int] }

/-- The integer solution of `halfModel`, which both searches find, meets it up to `1e-6`: the
relaxation with the cut makes pivots of least ratio only, and nothing is moved. -/
theorem accepted_within_halfModel :
    BranchAndBound.halfModel.Valid ∧ BranchAndBound.Finds .silent {} BranchAndBound.halfModel [1] ∧
      CuttingPlane.Finds .silent {} BranchAndBound.halfModel [1] ∧
      (∃ outcome y s, (CuttingPlane.search .silent {} BranchAndBound.halfModel).outcome =
        .ok outcome ∧ outcome.cuts.length = 1 ∧
        Accepts {} BranchAndBound.halfModel (outcome.cuts.map Cut.row) y s [1]) ∧
      BranchAndBound.halfModel.FeasibleWithin 1e-6 (fun _ => 1e-6) [1] := by
  have hvalid : BranchAndBound.halfModel.Valid := by decide
  have hbranch : BranchAndBound.Finds .silent {} BranchAndBound.halfModel [1] := by decide +kernel
  have hcut : CuttingPlane.Finds .silent {} BranchAndBound.halfModel [1] := by decide +kernel
  have hends : ∃ outcome, (CuttingPlane.search .silent {} BranchAndBound.halfModel).outcome =
      .ok outcome ∧ outcome.result.status = .optimalInteger ∧
      outcome.result.solution = some [1] ∧ outcome.cuts.length = 1 ∧
      ((BranchAndBound.halfModel.extend (outcome.cuts.map Cut.row)).standardForm {}).tableau.leastAlong
        1e-9 .dantzig 10 ∧
      ∃ done, (run .silent {} (BranchAndBound.halfModel.extend (outcome.cuts.map Cut.row))).outcome =
        .ok done ∧ done.result.solution = some [1] := by decide +kernel
  obtain ⟨outcome, hsearch, hstatus, hsolution, hcount, hleast, done, hrun, hdone⟩ := hends
  obtain ⟨-, more, y, s, haccepts, hrows, -, hwithin⟩ :=
    accepted_within .silent hvalid (Or.inl hbranch)
  obtain rfl := hrows outcome hsearch hstatus hsolution
  -- the relaxation with the cut has one run, and so one solution
  obtain ⟨done', hrun', -, hoptimum⟩ := haccepts.optimum
  obtain rfl := Except.ok.inj (hrun.symm.trans hrun')
  obtain rfl := Option.some.inj (hdone.symm.trans hoptimum.solution_eq)
  exact ⟨hvalid, hbranch, hcut, ⟨outcome, y, _, hsearch, hcount, haccepts⟩,
    hwithin (Tableau.leastFrom_of_leastAlong hleast) (by decide +kernel)⟩

/-- **An integer solution need not meet the model up to `1e-6`**, by either search: not where a row
makes much of the move to the integers, not where ratios tie and leave a value negative, and not
where a value made zero counts in a large row. -/
theorem accepted_without_feasibility :
    (coarseModel.Valid ∧ BranchAndBound.Finds .silent {} coarseModel [1] ∧
      CuttingPlane.Finds .silent {} coarseModel [1] ∧
      ¬ coarseModel.FeasibleWithin 1e-6 (fun _ => 1e-6) [1]) ∧
    (tightModel.Valid ∧ BranchAndBound.Finds .silent {} tightModel [1, -5] ∧
      CuttingPlane.Finds .silent {} tightModel [1, -5] ∧
      ¬ tightModel.FeasibleWithin 1e-6 (fun _ => 1e-6) [1, -5]) ∧
    (smallModel.Valid ∧ BranchAndBound.Finds .silent {} smallModel [0, 0] ∧
      CuttingPlane.Finds .silent {} smallModel [0, 0] ∧
      ¬ smallModel.FeasibleWithin 1e-6 (fun _ => 1e-6) [0, 0]) := by
  decide +kernel

end LinOpt
