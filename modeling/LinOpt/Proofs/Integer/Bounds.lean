import LinOpt.Integer.Rounding
import LinOpt.Proofs.StandardForm.Columns
/-!
# Whole points and bounds on a variable

A bound on a variable is one more row. The model with that row has the points that meet the bound and
no others (`integerFeasible_bounded_iff`), and its variables are those of the model.

A variable to branch on is one of those that must be whole, and a whole number is not between the
floor and the ceiling of any value (`le_floor_or_ceil_le`): the two bounds of a branch lose no whole
point.
-/

namespace LinOpt

namespace Model

/-! ## Whole points -/

/-- **The point meets the model, and the variables that must be whole are whole.** -/
structure IntegerFeasible (model : Model ℚ) (p : List ℚ) : Prop where
  feasible : model.Feasible p
  whole : ∀ j ∈ model.integerIndices, ∃ z : ℤ, entry p j = z

instance (model : Model ℚ) (p : List ℚ) : Decidable (model.IntegerFeasible p) :=
  decidable_of_iff (model.Feasible p ∧ ∀ j ∈ model.integerIndices, ((entry p j).num : ℚ) = entry p j)
    ⟨fun ⟨h, hnum⟩ => ⟨h, fun j hj => ⟨_, (hnum j hj).symm⟩⟩,
      fun h => ⟨h.feasible, fun j hj => by
        obtain ⟨z, hz⟩ := h.whole j hj
        rw [hz, Rat.num_intCast]⟩⟩

variable {model problem : Model ℚ} {p : List ℚ} {k : ℕ} {value : ℚ} {upper : Bool}

theorem lt_of_mem_integerIndices (hsized : model.Sized) (hk : k ∈ model.integerIndices) :
    k < model.variableCount := by
  rw [← hsized.kinds]
  exact List.mem_range.mp (List.mem_filter.mp hk).1

/-! ## A bound on a variable -/

/-- The relation of a bound. -/
def boundSign (upper : Bool) : Relation := if upper then .le else .ge

/-- The model with one more row, which bounds a variable. -/
def bounded (model : Model ℚ) (k : ℕ) (value : ℚ) (upper : Bool) : Model ℚ :=
  { model with
    rows := model.rows ++ [(zeros model.variableCount).set k 1]
    rhs := model.rhs ++ [value]
    signs := model.signs ++ [boundSign upper] }

theorem withBound_eq (hk : k < model.variableCount) (value : ℚ) (upper : Bool) :
    model.withBound k value upper = .ok (model.bounded k value upper) := by
  have hwrite : Position.write (zeros model.variableCount) (k : ℤ) (1 : ℚ) =
      (.ok ((zeros model.variableCount).set k 1) : Except (Fault ℚ) (List ℚ)) := by
    rw [Position.write, Position.resolve_natCast (by simpa using hk)]
  rw [withBound, hwrite]
  change model.withRow _ _ _ = _
  rw [withRow, if_neg (by simp)]
  rfl

/-- A row of the model stands in its place. -/
theorem row_bounded (hsized : model.Sized) (k : ℕ) (value : ℚ) (upper : Bool) {i : ℕ}
    (hi : i < model.rowCount) :
    (model.bounded k value upper).rows.rowAt i = model.rows.rowAt i ∧
      entry (model.bounded k value upper).rhs i = entry model.rhs i ∧
      (model.bounded k value upper).signs.getD i .eq = model.signs.getD i .eq := by
  have hrows : i < model.rows.length := by rw [hsized.rows]; exact hi
  have hsigns : i < model.signs.length := by rw [hsized.signs]; exact hi
  refine ⟨Dense.rowAt_append_left hrows, entry_append_left hi, ?_⟩
  simp [Model.bounded, List.getElem?_append_left hsigns]

/-- The bound is the row behind them. -/
theorem lastRow_bounded (hsized : model.Sized) (k : ℕ) (value : ℚ) (upper : Bool) :
    (model.bounded k value upper).rows.rowAt model.rowCount = (zeros model.variableCount).set k 1 ∧
      entry (model.bounded k value upper).rhs model.rowCount = value ∧
      (model.bounded k value upper).signs.getD model.rowCount .eq = boundSign upper := by
  refine ⟨?_, ?_, ?_⟩
  · change Dense.rowAt (model.rows ++ [_]) _ = _
    rw [Dense.rowAt_append_right (le_of_eq hsized.rows), hsized.rows, Nat.sub_self]
    rfl
  · change entry (model.rhs ++ [value]) model.rhs.length = value
    rw [entry_append_right (le_refl _), Nat.sub_self, entry_cons_zero]
  · simp [Model.bounded, ← hsized.signs]

/-- **A bound leaves the points that meet it.** -/
theorem feasible_bounded_iff (hsized : model.Sized) (hk : k < model.variableCount) :
    (model.bounded k value upper).Feasible p ↔
      model.Feasible p ∧ (boundSign upper).Holds (entry p k) value := by
  have hcount : (model.bounded k value upper).rowCount = model.rowCount + 1 := by
    simp [Model.bounded, rowCount]
  obtain ⟨hlast, hrhs, hsign⟩ := lastRow_bounded hsized k value upper
  constructor
  · rintro ⟨hlen, hrows, hkinds⟩
    refine ⟨⟨hlen, fun i hi => ?_, hkinds⟩, ?_⟩
    · obtain ⟨h1, h2, h3⟩ := row_bounded hsized k value upper hi
      have hrow := hrows i (by omega)
      rwa [h1, h2, h3] at hrow
    · have hrow := hrows model.rowCount (by omega)
      rwa [hlast, hrhs, hsign, dot_unit hk] at hrow
  · rintro ⟨⟨hlen, hrows, hkinds⟩, hbound⟩
    refine ⟨hlen, fun i hi => ?_, hkinds⟩
    rw [hcount] at hi
    rcases Nat.lt_succ_iff_lt_or_eq.mp hi with hi | rfl
    · obtain ⟨h1, h2, h3⟩ := row_bounded hsized k value upper hi
      rw [h1, h2, h3]
      exact hrows i hi
    · rw [hlast, hrhs, hsign, dot_unit hk]
      exact hbound

theorem integerFeasible_bounded_iff (hsized : model.Sized) (hk : k < model.variableCount) :
    (model.bounded k value upper).IntegerFeasible p ↔
      model.IntegerFeasible p ∧ (boundSign upper).Holds (entry p k) value := by
  constructor
  · rintro ⟨hfeasible, hwhole⟩
    obtain ⟨hmodel, hbound⟩ := (feasible_bounded_iff hsized hk).mp hfeasible
    exact ⟨⟨hmodel, hwhole⟩, hbound⟩
  · rintro ⟨⟨hmodel, hwhole⟩, hbound⟩
    exact ⟨(feasible_bounded_iff hsized hk).mpr ⟨hmodel, hbound⟩, hwhole⟩

/-! ## Branching -/

/-- **A whole number is not between the floor and the ceiling of a value.** -/
theorem le_floor_or_ceil_le (z : ℤ) (value : ℚ) :
    (z : ℚ) ≤ (value.floor : ℤ) ∨ ((-(-value).floor : ℤ) : ℚ) ≤ z := by
  rcases le_total (z : ℚ) value with hle | hle
  · left
    exact_mod_cast Rat.le_floor_iff.mpr hle
  · right
    have hneg : ((-z : ℤ) : ℚ) ≤ -value := by push_cast; linarith
    have hfloor : -z ≤ (-value).floor := Rat.le_floor_iff.mpr hneg
    exact_mod_cast (by omega : -(-value).floor ≤ z)

/-- A whole point meets one of the two bounds of a branch. -/
theorem IntegerFeasible.branch (hsized : problem.Sized) (hp : problem.IntegerFeasible p)
    (hk : k ∈ problem.integerIndices) (value : ℚ) :
    (problem.bounded k (value.floor : ℤ) true).IntegerFeasible p ∨
      (problem.bounded k (-(-value).floor : ℤ) false).IntegerFeasible p := by
  have hlt := lt_of_mem_integerIndices hsized hk
  obtain ⟨z, hz⟩ := hp.whole k hk
  rcases le_floor_or_ceil_le z value with hleft | hright
  · exact Or.inl ((integerFeasible_bounded_iff hsized hlt).mpr ⟨hp, hz.trans_le hleft⟩)
  · exact Or.inr ((integerFeasible_bounded_iff hsized hlt).mpr ⟨hp, hright.trans_eq hz.symm⟩)

end Model

/-- The variable to branch on is one of those offered. -/
theorem mem_of_selectFractional {α : Type} [Scalar α] {values : List α} {positions : List ℤ}
    {tol value : α} {j : ℤ}
    (h : selectFractional values positions tol = .ok (some (j, value))) : j ∈ positions := by
  unfold selectFractional at h
  obtain ⟨out, hfold, hout⟩ := exists_of_bind_eq_ok h
  have hbest : out.1 = some (j, value) := Except.ok.inj hout
  -- the best so far is the one of the start, or one that has been looked at
  suffices hmem : ∀ (more : List ℤ) (best : Option (ℤ × α) × α),
      more.foldlM (fun (best : Option (ℤ × α) × α) j => do
        let value ← Position.read values j
        let gap ← integerGap value
        return if tol < gap ∧ best.2 + 1e-12 < gap then (some (j, value), gap) else best)
        best = (.ok out : Except (Fault α) _) → best.1 = some (j, value) ∨ j ∈ more by
    exact (hmem positions (none, 0) hfold).resolve_left (by simp)
  intro more
  induction more with
  | nil =>
    intro best hend
    left
    rw [Except.ok.inj hend]
    exact hbest
  | cons i more ih =>
    intro best hend
    rw [List.foldlM_cons] at hend
    obtain ⟨middle, hstep, hrest⟩ := exists_of_bind_eq_ok hend
    obtain ⟨v, -, hstep⟩ := exists_of_bind_eq_ok hstep
    obtain ⟨gap, -, hstep⟩ := exists_of_bind_eq_ok hstep
    rcases ih middle hrest with hmiddle | hlater
    · rw [← Except.ok.inj hstep] at hmiddle
      split at hmiddle
      · right
        obtain ⟨rfl, -⟩ := Prod.mk.inj (Option.some.inj hmiddle)
        exact List.mem_cons_self
      · exact Or.inl hmiddle
    · exact Or.inr (List.mem_cons_of_mem _ hlater)

end LinOpt
