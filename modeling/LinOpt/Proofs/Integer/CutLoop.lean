import LinOpt.Proofs.Integer.Branches
/-!
# The cutting-plane loop

The loop solves the model with its cuts, and adds one cut for a variable that is not whole. `Round`
says what one round of it does, in any arithmetic, and is all that is read off its definition.
`Reached` collects the lists of cuts that it comes to, with the run that each cut was made at, and
`Ends` what it can end in. Every cut is a `≤` row over the variables of the model, so that the model
with cuts stays valid (`Reached.valid`).
-/

namespace LinOpt

/-- A cut as a row. -/
def Cut.row (cut : Cut ℚ) : ExtraRow := ⟨cut.coefficients, .le, cut.rhs⟩

/-- The model with cuts. -/
def Model.withCuts (model : Model ℚ) (cuts : List (Cut ℚ)) : Model ℚ :=
  model.extend (cuts.map Cut.row)

theorem Model.withCuts_nil (model : Model ℚ) : model.withCuts [] = model := model.extend_nil

theorem Model.withCuts_append (model : Model ℚ) (cuts : List (Cut ℚ)) (cut : Cut ℚ) :
    model.withCuts (cuts ++ [cut]) = (model.withCuts cuts).extend [cut.row] := by
  rw [withCuts, withCuts, extend_extend, List.map_append]
  rfl

namespace CuttingPlane

/-! ## One round -/

section Round

variable {α : Type} [Scalar α] (observer : Observer) (opts : Options α) (model current : Model α)
  (cuts : List (Cut α)) (outcome : CutOutcome α)

/-- **What one round of the loop does** with a number of cuts left: it ends in one of three ways, or
makes a cut and goes on. -/
inductive Round : ℕ → Prop
  /-- The solution is nearly whole. -/
  | whole {budget : ℕ} {done : Run α} {s snapped : List α} {value : α} {remark : Message α} :
      (Simplex.run .silent opts current).outcome = .ok done →
      done.result.status = .optimal → done.result.solution = some s →
      firstFractional s opts.intTol (integerVariables model) = .ok none →
      roundWhole model s = .ok snapped → dotAligned model.costs snapped = .ok value →
      outcome = ⟨.solved .optimalInteger value snapped cuts.length remark, cuts⟩ → Round budget
  /-- The cuts have run out. -/
  | limit {s : List α} {value : α} {remark : Message α} :
      dotAligned model.costs s = .ok value →
      outcome = ⟨.solved .cutLimit value s cuts.length remark, cuts⟩ → Round 0
  /-- The relaxation has no optimum. -/
  | stopped {budget : ℕ} {done : Run α} :
      (Simplex.run .silent opts current).outcome = .ok done →
      (done.result.status = .optimal → done.result.solution = none) →
      outcome = ⟨.failed done.result.status cuts.length done.result.message, cuts⟩ → Round budget
  /-- A cut is made for a variable that is not whole. -/
  | cut {rest : ℕ} {done : Run α} {s : List α} {j : ℤ} {cut : Cut α} {next : Model α} :
      (Simplex.run .silent opts current).outcome = .ok done →
      done.result.status = .optimal → done.result.solution = some s →
      firstFractional s opts.intTol (integerVariables model) = .ok (some j) →
      chooseCut done j s = .ok cut → current.withRow cut.coefficients .le cut.rhs = .ok next →
      (cutLoop observer opts model rest next (cuts ++ [cut])).outcome = .ok outcome →
      Round (rest + 1)

variable {observer opts model current cuts outcome}

theorem round_of_cutLoop {budget : ℕ}
    (h : (cutLoop observer opts model budget current cuts).outcome = .ok outcome) :
    Round observer opts model current cuts outcome budget := by
  unfold cutLoop at h
  simp only [Traced.outcome_bind, Traced.outcome_ofExcept] at h
  obtain ⟨done, hrun, h⟩ := exists_of_bind_eq_ok h
  split at h
  · rename_i s hstatus hsolution
    simp only [Traced.outcome_bind, Traced.outcome_ofExcept] at h
    obtain ⟨objective, hobjective, h⟩ := exists_of_bind_eq_ok h
    obtain ⟨-, -, h⟩ := exists_of_bind_eq_ok h
    obtain ⟨-, -, h⟩ := exists_of_bind_eq_ok h
    obtain ⟨choice, hchoice, h⟩ := exists_of_bind_eq_ok h
    cases choice with
    | none =>
      simp only [Traced.outcome_bind] at h
      obtain ⟨snapped, hsnapped, h⟩ := exists_of_bind_eq_ok h
      obtain ⟨-, -, h⟩ := exists_of_bind_eq_ok h
      obtain ⟨value, hvalue, h⟩ := exists_of_bind_eq_ok h
      exact .whole hrun hstatus hsolution hchoice hsnapped hvalue (Except.ok.inj h).symm
    | some j =>
      cases budget with
      | zero =>
        rw [Traced.outcome_bind] at h
        obtain ⟨-, -, h⟩ := exists_of_bind_eq_ok h
        exact .limit hobjective (Except.ok.inj h).symm
      | succ rest =>
        simp only [Traced.outcome_bind] at h
        obtain ⟨cut, hcut, h⟩ := exists_of_bind_eq_ok h
        obtain ⟨next, hnext, h⟩ := exists_of_bind_eq_ok h
        obtain ⟨-, -, h⟩ := exists_of_bind_eq_ok h
        exact .cut hrun hstatus hsolution hchoice hcut hnext h
  · rename_i hother
    rw [Traced.outcome_bind] at h
    obtain ⟨-, -, h⟩ := exists_of_bind_eq_ok h
    exact .stopped hrun
      (fun hstatus => Option.eq_none_iff_forall_ne_some.mpr fun s => hother s hstatus)
      (Except.ok.inj h).symm

/-- **The cuts are counted**, and there are no more of them than there were and the budget allows. -/
theorem counted_of_cutLoop {budget : ℕ}
    (h : (cutLoop observer opts model budget current cuts).outcome = .ok outcome) :
    outcome.result.iterations = outcome.cuts.length ∧
      outcome.cuts.length ≤ cuts.length + budget := by
  induction budget generalizing current cuts with
  | zero =>
    cases round_of_cutLoop h with
    | whole _ _ _ _ _ _ hend => exact ⟨hend ▸ rfl, hend ▸ Nat.le_add_right _ _⟩
    | limit _ hend => exact ⟨hend ▸ rfl, hend ▸ Nat.le_add_right _ _⟩
    | stopped _ _ hend => exact ⟨hend ▸ rfl, hend ▸ Nat.le_add_right _ _⟩
  | succ budget ih =>
    cases round_of_cutLoop h with
    | whole _ _ _ _ _ _ hend => exact ⟨hend ▸ rfl, hend ▸ Nat.le_add_right _ _⟩
    | stopped _ _ hend => exact ⟨hend ▸ rfl, hend ▸ Nat.le_add_right _ _⟩
    | cut _ _ _ _ _ _ hrest =>
      obtain ⟨hcount, hle⟩ := ih hrest
      rw [List.length_append, List.length_singleton] at hle
      exact ⟨hcount, by omega⟩

/-- **A search is the loop from the model without cuts**, and an error in it is the answer. -/
theorem search_cases (h : (search observer opts model).outcome = .ok outcome) :
    (∃ cause, outcome = ⟨.failed .error 0 (.fault cause), []⟩) ∨
      (cutLoop observer opts model opts.maxCuts model []).outcome = .ok outcome := by
  unfold search at h
  simp only [Traced.outcome_bind, outcome_header, ok_bind, Traced.outcome_attempt] at h
  cases hloop : (cutLoop observer opts model opts.maxCuts model []).outcome with
  | error cause =>
    simp only [hloop, ok_bind, Traced.outcome_bind, outcome_line] at h
    exact Or.inl ⟨cause, (Except.ok.inj h).symm⟩
  | ok ended =>
    rw [hloop] at h
    exact Or.inr (congrArg Except.ok (Except.ok.inj h))

end Round

section Loop

variable (opts : Options ℚ) (model : Model ℚ)

/-- **A cut is made at the cuts so far**: the relaxation has an optimum, in which a variable is not
whole, and the cut for that variable has a coefficient for every variable. -/
structure CutAt (cuts : List (Cut ℚ)) (done : Run ℚ) (s : List ℚ) (j : ℤ) (cut : Cut ℚ) : Prop where
  run_eq : (Simplex.run .silent opts (model.withCuts cuts)).outcome = .ok done
  status_eq : done.result.status = .optimal
  solution_eq : done.result.solution = some s
  fractional : firstFractional s opts.intTol (integerVariables model) = .ok (some j)
  choice : chooseCut done j s = .ok cut
  length_eq : cut.coefficients.length = model.variableCount

/-- **The lists of cuts that the loop comes to.** -/
inductive Reached : List (Cut ℚ) → Prop
  /-- There are no cuts at first. -/
  | nil : Reached []
  /-- One cut more. -/
  | snoc {cuts : List (Cut ℚ)} {done : Run ℚ} {s : List ℚ} {j : ℤ} {cut : Cut ℚ} :
      Reached cuts → CutAt opts model cuts done s j cut → Reached (cuts ++ [cut])

/-- **What the loop can end in**, with the cuts it has made. -/
inductive Ends : CutOutcome ℚ → Prop
  /-- The solution is nearly whole. -/
  | whole {cuts : List (Cut ℚ)} {done : Run ℚ} {s snapped : List ℚ} {value : ℚ} {count : ℤ}
      {remark : Message ℚ} :
      Reached opts model cuts →
      (Simplex.run .silent opts (model.withCuts cuts)).outcome = .ok done →
      done.result.status = .optimal → done.result.solution = some s →
      firstFractional s opts.intTol (integerVariables model) = .ok none →
      roundWhole model s = .ok snapped →
      Ends ⟨.solved .optimalInteger value snapped count remark, cuts⟩
  /-- The cuts have run out. -/
  | limit {cuts : List (Cut ℚ)} {s : List ℚ} {value : ℚ} {count : ℤ} {remark : Message ℚ} :
      Reached opts model cuts → Ends ⟨.solved .cutLimit value s count remark, cuts⟩
  /-- The relaxation has no optimum. -/
  | stopped {cuts : List (Cut ℚ)} {done : Run ℚ} {count : ℤ} :
      Reached opts model cuts →
      (Simplex.run .silent opts (model.withCuts cuts)).outcome = .ok done →
      (done.result.status = .optimal → done.result.solution = none) →
      Ends ⟨.failed done.result.status count done.result.message, cuts⟩
  /-- Something failed on the way. -/
  | failed {cause : Fault ℚ} : Ends ⟨.failed .error 0 (.fault cause), []⟩

end Loop

variable {observer : Observer} {opts : Options ℚ} {model : Model ℚ} {cuts : List (Cut ℚ)}
  {outcome : CutOutcome ℚ}

/-- The loop goes on from the model with one cut more. -/
theorem withRow_withCuts {cut : Cut ℚ} {next : Model ℚ}
    (h : (model.withCuts cuts).withRow cut.coefficients .le cut.rhs = .ok next) :
    cut.coefficients.length = model.variableCount ∧ next = model.withCuts (cuts ++ [cut]) := by
  have hlength : cut.coefficients.length = model.variableCount := by
    by_contra hne
    have hne' : cut.coefficients.length ≠ (model.withCuts cuts).variableCount := hne
    rw [Model.withRow, if_pos hne'] at h
    cases h
  have hfits : cut.row.Fits (model.withCuts cuts).variableCount := ⟨hlength, rfl⟩
  refine ⟨hlength, ?_⟩
  rw [Model.withCuts_append]
  exact (Except.ok.inj ((Model.withRow_eq hfits).symm.trans h)).symm

/-- **One round of the loop**: it ends, or it goes on with one cut more. -/
theorem ends_or_cut {budget : ℕ} (hreached : Reached opts model cuts)
    (h : (cutLoop observer opts model budget (model.withCuts cuts) cuts).outcome = .ok outcome) :
    Ends opts model outcome ∨ ∃ rest cut, budget = rest + 1 ∧ Reached opts model (cuts ++ [cut]) ∧
      (cutLoop observer opts model rest (model.withCuts (cuts ++ [cut])) (cuts ++ [cut])).outcome =
        .ok outcome := by
  cases round_of_cutLoop h with
  | whole hrun hstatus hsolution hchoice hsnapped _ hend =>
    exact Or.inl (hend ▸ .whole hreached hrun hstatus hsolution hchoice hsnapped)
  | limit _ hend => exact Or.inl (hend ▸ .limit hreached)
  | stopped hrun hnone hend => exact Or.inl (hend ▸ .stopped hreached hrun hnone)
  | cut hrun hstatus hsolution hchoice hcut hnext hrest =>
    obtain ⟨hlength, rfl⟩ := withRow_withCuts hnext
    exact Or.inr ⟨_, _, rfl,
      hreached.snoc ⟨hrun, hstatus, hsolution, hchoice, hcut, hlength⟩, hrest⟩

theorem ends_cutLoop {budget : ℕ} (hreached : Reached opts model cuts)
    (h : (cutLoop observer opts model budget (model.withCuts cuts) cuts).outcome = .ok outcome) :
    Ends opts model outcome := by
  induction budget generalizing cuts with
  | zero =>
    rcases ends_or_cut hreached h with hends | ⟨rest, cut, hbudget, -⟩
    · exact hends
    · omega
  | succ budget ih =>
    rcases ends_or_cut hreached h with hends | ⟨rest, cut, hbudget, hnext, hrest⟩
    · exact hends
    · obtain rfl : budget = rest := by omega
      exact ih hnext hrest

/-- **A search by cuts ends in one of these ways.** -/
theorem ends_search (h : (search observer opts model).outcome = .ok outcome) :
    Ends opts model outcome := by
  rcases search_cases h with ⟨cause, rfl⟩ | hloop
  · exact .failed
  · have hstart : (cutLoop observer opts model opts.maxCuts (model.withCuts []) []).outcome =
        .ok outcome := by
      rw [Model.withCuts_nil]
      exact hloop
    exact ends_cutLoop .nil hstart

/-- The cuts of an outcome are cuts that the loop has come to. -/
theorem Ends.reached {outcome : CutOutcome ℚ} (h : Ends opts model outcome) :
    Reached opts model outcome.cuts := by
  cases h with
  | whole hreached => exact hreached
  | limit hreached => exact hreached
  | stopped hreached => exact hreached
  | failed => exact .nil

/-! ## The model with cuts -/

/-- Every cut fits the model. -/
theorem Reached.fits (h : Reached opts model cuts) :
    ∀ row ∈ cuts.map Cut.row, row.Fits model.variableCount := by
  induction h with
  | nil => simp
  | snoc _ hcut ih =>
    intro row hrow
    rw [List.map_append] at hrow
    rcases List.mem_append.mp hrow with hold | hnew
    · exact ih row hold
    · obtain rfl := List.mem_singleton.mp hnew
      exact ⟨hcut.length_eq, rfl⟩

theorem Reached.valid (h : Reached opts model cuts) (hvalid : model.Valid) :
    (model.withCuts cuts).Valid := hvalid.extend h.fits

end CuttingPlane

end LinOpt
