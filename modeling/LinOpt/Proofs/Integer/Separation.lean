import LinOpt.Proofs.Integer.CutVerdicts
import LinOpt.Proofs.Service
/-!
# Cuts that separate

A cut is made at the solution of a relaxation, and that solution is its vertex. A bound cut separates
it because the value that it bounds is not whole (`boundCut_separates`), a Gomory cut because it has
been tried out and dropped otherwise (`lt_dot_of_violatedBy`). So every cut of a list that the loop
comes to takes the solution away that it was made at (`Reached.separates`), and a point that meets the
cuts so far is none of their vertices.
-/

namespace LinOpt

variable {model : Model ℚ} {opts : Options ℚ} {cuts : List (Cut ℚ)} {cut : Cut ℚ} {done : Run ℚ}
  {s p : List ℚ} {j : ℤ}

/-! ## One cut -/

/-- A value that is not whole is above its floor. -/
theorem floor_lt_of_wholeGap_pos {a : ℚ} (h : 0 < wholeGap a) : (a.floor : ℚ) < a := by
  refine lt_of_le_of_ne (Rat.floor_le a) fun hwhole => ?_
  rw [wholeGap, ← hwhole, nearestRat_intCast, sub_self, abs_zero] at h
  exact lt_irrefl _ h

/-- A bound cut is made at the solution, and the solution is beyond it. -/
theorem boundCut_separates {n k : ℕ} (hk : k < n) (hgap : 0 < wholeGap (entry s k))
    (h : boundCut n k s = .ok cut) : cut.vertex = s ∧ cut.rhs < dot cut.coefficients s := by
  unfold boundCut at h
  rw [write_eq (by simpa using hk), ok_bind] at h
  obtain ⟨value, hvalue, h⟩ := exists_of_bind_eq_ok h
  obtain rfl : value = entry s k := eq_of_read_eq hvalue
  obtain ⟨below, hbelow, h⟩ := exists_of_bind_eq_ok h
  obtain rfl : (entry s k).floor = below := Except.ok.inj hbelow
  obtain rfl := Except.ok.inj h
  refine ⟨rfl, ?_⟩
  dsimp only
  rw [dot_unit hk]
  exact floor_lt_of_wholeGap_pos hgap

/-- A Gomory cut is made at the solution of the run. -/
theorem vertex_of_gomoryCut (h : done.gomoryCut j = .ok (some cut)) :
    cut.vertex = done.result.solution.getD [] := by
  unfold Run.gomoryCut at h
  split at h
  · cases h
  · obtain ⟨parts, -, h⟩ := exists_of_bind_eq_ok h
    obtain ⟨part, -, h⟩ := exists_of_bind_eq_ok h
    dsimp only at h
    split at h
    · cases h
    · split at h
      · cases h
      · obtain ⟨T, -, h⟩ := exists_of_bind_eq_ok h
        obtain ⟨f, -, h⟩ := exists_of_bind_eq_ok h
        split at h
        · cases h
        · obtain ⟨sum, -, h⟩ := exists_of_bind_eq_ok h
          obtain ⟨coefficients, -, h⟩ := exists_of_bind_eq_ok h
          obtain ⟨rhs, -, h⟩ := exists_of_bind_eq_ok h
          obtain rfl := Option.some.inj (Except.ok.inj h)
          rfl

/-- A point that violates a cut is beyond it. -/
theorem lt_dot_of_violatedBy {tol : ℚ} (htol : 0 ≤ tol) (h : cut.violatedBy p tol = .ok true) :
    cut.rhs < dot cut.coefficients p := by
  unfold Cut.violatedBy at h
  obtain ⟨value, hvalue, h⟩ := exists_of_bind_eq_ok h
  have hlt : cut.rhs + tol < value := of_decide_eq_true (Except.ok.inj h)
  unfold dotAligned at hvalue
  split at hvalue
  · obtain rfl := Except.ok.inj hvalue
    linarith
  · cases hvalue

/-! ## Every cut of a run -/

/-- The model with cuts put behind its rows, one `≤` row after the other. -/
def Model.addCuts (model : Model ℚ) (cuts : List (Cut ℚ)) : Except (Fault ℚ) (Model ℚ) :=
  cuts.foldlM (fun current cut => current.withRow cut.coefficients .le cut.rhs) model

theorem Model.addCuts_eq_ok (h : ∀ row ∈ cuts.map Cut.row, row.Fits model.variableCount) :
    model.addCuts cuts = .ok (model.withCuts cuts) := by
  induction cuts generalizing model with
  | nil => rw [withCuts_nil]; rfl
  | cons cut cuts ih =>
    have hfirst : cut.row.Fits model.variableCount := h _ List.mem_cons_self
    have hrest : (model.extend [cut.row]).addCuts cuts =
        .ok ((model.extend [cut.row]).withCuts cuts) :=
      ih fun row hrow => h row (List.mem_cons_of_mem _ hrow)
    rw [addCuts, List.foldlM_cons]
    exact (congrArg (· >>= _) (withRow_eq hfirst)).trans
      (hrest.trans (congrArg Except.ok (extend_extend model [cut.row] (cuts.map Cut.row))))

namespace CuttingPlane

variable {observer : Observer}

/-- **The cut takes the vertex away that it was made at**: the solution that the solver reports for
the model with the earlier cuts behind its rows, in their order. -/
structure Separates (opts : Options ℚ) (model : Model ℚ) (earlier : List (Cut ℚ)) (cut : Cut ℚ) :
    Prop where
  made_at : ∃ extended done, model.addCuts earlier = .ok extended ∧
    (Simplex.run .silent opts extended).outcome = .ok done ∧
    done.result.status = .optimal ∧ done.result.solution = some cut.vertex
  length_eq : cut.coefficients.length = model.variableCount ∧
    cut.vertex.length = model.variableCount
  beyond : cut.rhs < dot cut.coefficients cut.vertex

/-- The solution that a cut is made at is beyond it. -/
theorem CutAt.separates (h : CutAt opts model cuts done s j cut) (hreached : Reached opts model cuts)
    (hvalid : model.Valid) (htol : 0 ≤ opts.intTol) : Separates opts model cuts cut := by
  have hproblem := hreached.valid hvalid
  have hsolution : cut.vertex = s ∧ cut.rhs < dot cut.coefficients s := by
    rcases chooseCut_cases h.choice with hbound | ⟨-, hgomory, hviolated⟩
    · rcases firstFractional_cases h.fractional with ⟨hnone, -⟩ | ⟨k, hk, hsome, -, hgap⟩
      · cases hnone
      · obtain rfl := Option.some.inj hsome
        have hlt : k < done.model.variableCount := by
          rw [(Simplex.form_of_run hproblem h.run_eq).1]
          exact (Model.lt_of_mem_integerIndices hvalid.sized hk : k < model.variableCount)
        exact boundCut_separates hlt (htol.trans_lt hgap) hbound
    · refine ⟨?_, lt_dot_of_violatedBy (by norm_num) hviolated⟩
      rw [vertex_of_gomoryCut hgomory, h.solution_eq]
      rfl
  obtain ⟨hvertex, hbeyond⟩ := hsolution
  refine ⟨⟨_, done, Model.addCuts_eq_ok hreached.fits, h.run_eq, h.status_eq, ?_⟩,
    ⟨h.length_eq, ?_⟩, ?_⟩
  · rw [hvertex]
    exact h.solution_eq
  · rw [hvertex]
    exact (Simplex.complete_of_run h.run_eq).1.length_eq s h.solution_eq
  · rw [hvertex]
    exact hbeyond

/-- **Every cut that the loop comes to separates**, by induction on the cuts. -/
theorem Reached.separates (h : Reached opts model cuts) (hvalid : model.Valid)
    (htol : 0 ≤ opts.intTol) :
    ∀ i (hi : i < cuts.length), Separates opts model (cuts.take i) cuts[i] := by
  induction h with
  | nil => simp
  | snoc hreached hcut ih =>
    exact (forall_take_snoc_iff (Separates opts model)).mpr
      ⟨ih, hcut.separates hreached hvalid htol⟩

/-- A search counts its cuts, and makes no more than it may. -/
theorem counted_of_search {outcome : CutOutcome ℚ}
    (h : (search observer opts model).outcome = .ok outcome) :
    outcome.result.iterations = outcome.cuts.length ∧ outcome.cuts.length ≤ opts.maxCuts := by
  rcases search_cases h with ⟨cause, rfl⟩ | hloop
  · exact ⟨rfl, Nat.zero_le _⟩
  · obtain ⟨hcount, hle⟩ := counted_of_cutLoop hloop
    exact ⟨hcount, by simpa using hle⟩

/-- **Every cut removes its vertex.** For a valid model and a tolerance that is not negative, a search
by cuts answers, whatever it ends with. It has made no more cuts than it may and counts them as its
iterations. The vertex of each cut is the solution of the model with the cuts before it, and lies
strictly beyond the cut. So a point that meets the cuts so far, as the solution of a later relaxation
should, is none of the vertices so far. -/
theorem cuts_separate (observer : Observer) (hvalid : model.Valid) (htol : 0 ≤ opts.intTol) :
    ∃ outcome, (search observer opts model).outcome = .ok outcome ∧
      outcome.cuts.length ≤ opts.maxCuts ∧ outcome.result.iterations = outcome.cuts.length ∧
      (∀ i (hi : i < outcome.cuts.length),
        Separates opts model (outcome.cuts.take i) outcome.cuts[i]) ∧
      ∀ k p, (∀ cut ∈ outcome.cuts.take k, cut.row.Holds p) →
        ∀ cut ∈ outcome.cuts.take k, p ≠ cut.vertex := by
  obtain ⟨outcome, hsearch, -⟩ := exists_search observer opts model
  obtain ⟨hcount, hle⟩ := counted_of_search hsearch
  have hseparates := (ends_search hsearch).reached.separates hvalid htol
  refine ⟨outcome, hsearch, hle, hcount, hseparates, fun k p hp cut hcut heq => ?_⟩
  obtain ⟨i, hi, rfl⟩ := List.getElem_of_mem (List.mem_of_mem_take hcut)
  have hmeets : dot outcome.cuts[i].coefficients p ≤ outcome.cuts[i].rhs := hp _ hcut
  rw [heq] at hmeets
  exact absurd (hseparates i hi).beyond (not_lt.mpr hmeets)

/-- The two Gomory cuts of `wedgeModel` and the bound cut of `oddModel`, with their vertices. -/
theorem cuts_separate_wedgeModel :
    wedgeModel.Valid ∧ oddModel.Valid ∧ 0 ≤ ({} : Options ℚ).intTol ∧
      (∃ outcome, (search .silent {} wedgeModel).outcome = .ok outcome ∧
        outcome.result.iterations = 2 ∧ outcome.cuts.map Cut.kind = [.gomory, .gomory] ∧
        outcome.cuts.map Cut.vertex = [[1, 3 / 2], [2 / 3, 1]] ∧
        ∀ i (hi : i < outcome.cuts.length),
          Separates {} wedgeModel (outcome.cuts.take i) outcome.cuts[i]) ∧
      ∃ outcome, (search .silent {} oddModel).outcome = .ok outcome ∧
        outcome.result.iterations = 1 ∧ outcome.cuts.map Cut.kind = [.bound] ∧
        ∀ p, (∀ cut ∈ outcome.cuts.take 1, cut.row.Holds p) →
          ∀ cut ∈ outcome.cuts.take 1, p ≠ cut.vertex := by
  have hwedge : wedgeModel.Valid := by decide
  have hodd : oddModel.Valid := by decide
  have htol : 0 ≤ ({} : Options ℚ).intTol := by decide +kernel
  have hgomory : ∃ outcome, (search .silent {} wedgeModel).outcome = .ok outcome ∧
      outcome.cuts.map Cut.kind = [.gomory, .gomory] ∧
      outcome.cuts.map Cut.vertex = [[1, 3 / 2], [2 / 3, 1]] := by decide +kernel
  have hbound : ∃ outcome, (search .silent {} oddModel).outcome = .ok outcome ∧
      outcome.cuts.map Cut.kind = [.bound] := by decide +kernel
  obtain ⟨outcome, hsearch, hkinds, hvertices⟩ := hgomory
  obtain ⟨outcome', hsearch', hkinds'⟩ := hbound
  obtain ⟨_, hended, -, hcount, hseparates, -⟩ := cuts_separate .silent hwedge htol
  obtain rfl := Except.ok.inj (hsearch.symm.trans hended)
  obtain ⟨_, hended', -, hcount', -, hnew⟩ := cuts_separate .silent hodd htol
  obtain rfl := Except.ok.inj (hsearch'.symm.trans hended')
  have hlength := congrArg List.length hkinds
  have hlength' := congrArg List.length hkinds'
  rw [List.length_map] at hlength hlength'
  refine ⟨hwedge, hodd, htol, ⟨outcome, hsearch, ?_, hkinds, hvertices, hseparates⟩, outcome', hsearch',
    ?_, hkinds', hnew 1⟩
  · rw [hcount, hlength]
    rfl
  · rw [hcount', hlength']
    rfl

end CuttingPlane

end LinOpt
