import LinOpt.Proofs.Integer.Bounds
import LinOpt.Proofs.Simplex.Solution
/-!
# Models with more rows

Branching, cutting and relaxing all add rows to a model and touch nothing else. `Model.extend` is a
model with a list of such rows behind its own. It is valid where the model is and the rows fit
(`Valid.extend`), its points are the points of the model that meet the rows (`feasible_extend_iff`),
and a point that nearly meets it nearly meets the model (`FeasibleWithin.of_extend`).
-/

namespace LinOpt

open Finset

/-- A row to be added to a model. -/
structure ExtraRow where
  coefficients : List ℚ
  sign : Relation
  rhs : ℚ

namespace ExtraRow

/-- The row has a coefficient for each of `n` variables, and one of the three relations. -/
structure Fits (row : ExtraRow) (n : ℕ) : Prop where
  length_eq : row.coefficients.length = n
  known : row.sign.isKnown = true

/-- The point meets the row. -/
def Holds (row : ExtraRow) (p : List ℚ) : Prop := row.sign.Holds (dot row.coefficients p) row.rhs

instance (row : ExtraRow) (p : List ℚ) : Decidable (row.Holds p) :=
  inferInstanceAs (Decidable (row.sign.Holds _ _))

/-- The row that bounds variable `k` of `n`. -/
def bound (n k : ℕ) (value : ℚ) (upper : Bool) : ExtraRow :=
  ⟨(zeros n).set k 1, Model.boundSign upper, value⟩

theorem fits_bound (n k : ℕ) (value : ℚ) (upper : Bool) : (bound n k value upper).Fits n where
  length_eq := by simp [bound]
  known := by cases upper <;> rfl

end ExtraRow

namespace Model

variable {model : Model ℚ} {more : List ExtraRow} {p : List ℚ} {i : ℕ}

/-- No coefficient, right-hand side or cost is larger than the bound. -/
def DataWithin (model : Model ℚ) (bound : ℚ) : Prop :=
  (∀ row ∈ model.rows, ∀ a ∈ row, |a| ≤ bound) ∧ (∀ a ∈ model.rhs, |a| ≤ bound) ∧
    ∀ a ∈ model.costs, |a| ≤ bound

instance (model : Model ℚ) (bound : ℚ) : Decidable (model.DataWithin bound) :=
  inferInstanceAs (Decidable (_ ∧ _ ∧ _))

/-! ## Adding rows -/

/-- The model with more rows behind its own. -/
def extend (model : Model ℚ) (more : List ExtraRow) : Model ℚ :=
  { model with
    rows := model.rows ++ more.map (·.coefficients)
    rhs := model.rhs ++ more.map (·.rhs)
    signs := model.signs ++ more.map (·.sign) }

@[simp] theorem extend_nil (model : Model ℚ) : model.extend [] = model := by
  simp [extend]

theorem extend_extend (model : Model ℚ) (more others : List ExtraRow) :
    (model.extend more).extend others = model.extend (more ++ others) := by
  simp [extend]

theorem bounded_eq (model : Model ℚ) (k : ℕ) (value : ℚ) (upper : Bool) :
    model.bounded k value upper =
      model.extend [.bound model.variableCount k value upper] := rfl

theorem withRow_eq {row : ExtraRow} (h : row.Fits model.variableCount) :
    model.withRow row.coefficients row.sign row.rhs = .ok (model.extend [row]) := by
  rw [withRow, if_neg (not_not.mpr h.length_eq)]
  rfl

theorem rowCount_extend (model : Model ℚ) (more : List ExtraRow) :
    (model.extend more).rowCount = model.rowCount + more.length := by
  simp [extend, rowCount]

theorem gain_extend (model : Model ℚ) (more : List ExtraRow) (p : List ℚ) :
    (model.extend more).gain p = model.gain p := rfl

/-! ## Valid models -/

/-- The check of the rows passes where every row has the length asked for. -/
theorem rowFault?_eq_none {α : Type} {expected : ℕ} {rows : Dense α} {i : ℕ}
    (h : ∀ row ∈ rows, row.length = expected) : rowFault? expected i rows = none := by
  induction rows generalizing i with
  | nil => rfl
  | cons row rows ih =>
    have hrow := h row List.mem_cons_self
    rw [rowFault?, if_neg (not_not.mpr hrow)]
    exact ih fun r hr => h r (List.mem_cons_of_mem _ hr)

/-- **A model of the right sizes passes the check of its shape.** -/
theorem Sized.shapeFault?_eq_none {α : Type} {model : Model α} (h : model.Sized) :
    model.shapeFault? = none := by
  have hrow : rowFault? model.variableCount 0 model.rows = none := rowFault?_eq_none h.row
  unfold shapeFault?
  dsimp only
  rw [if_neg (not_not.mpr h.rows), hrow]
  dsimp only
  rw [if_neg (not_not.mpr h.signs), if_neg (not_not.mpr h.kinds)]
  split
  · rfl
  · rename_i given hgiven
    have hnames : given.length = model.variableCount := by
      rw [← h.names, Model.names, hgiven]
    rw [if_neg (not_not.mpr hnames)]

theorem Sized.extend (h : model.Sized) (hmore : ∀ row ∈ more, row.Fits model.variableCount) :
    (model.extend more).Sized where
  rows := by simp [Model.extend, rowCount, h.rows]
  row := by
    intro row hrow
    rcases List.mem_append.mp hrow with hold | hnew
    · exact h.row row hold
    · obtain ⟨extra, hextra, rfl⟩ := List.mem_map.mp hnew
      exact (hmore extra hextra).length_eq
  signs := by simp [Model.extend, rowCount, h.signs]
  kinds := h.kinds
  names := h.names

/-- **Rows that fit keep a model valid.** -/
theorem Valid.extend (h : model.Valid) (hmore : ∀ row ∈ more, row.Fits model.variableCount) :
    (model.extend more).Valid where
  shape := (h.sized.extend hmore).shapeFault?_eq_none
  sense := h.sense
  signs := by
    change (model.signs ++ more.map (·.sign)).all Relation.isKnown = true
    rw [List.all_append, h.signs, Bool.true_and, List.all_eq_true]
    intro sign hsign
    obtain ⟨extra, hextra, rfl⟩ := List.mem_map.mp hsign
    exact (hmore extra hextra).known
  kinds := h.kinds

/-! ## Points -/

section Points

variable (hsized : model.Sized)

include hsized

/-- A row of the model stands in its place. -/
theorem row_extend (more : List ExtraRow) (hi : i < model.rowCount) :
    (model.extend more).rows.rowAt i = model.rows.rowAt i ∧
      entry (model.extend more).rhs i = entry model.rhs i ∧
      (model.extend more).signs.getD i .eq = model.signs.getD i .eq := by
  have hrows : i < model.rows.length := by rw [hsized.rows]; exact hi
  have hsigns : i < model.signs.length := by rw [hsized.signs]; exact hi
  refine ⟨Dense.rowAt_append_left hrows, entry_append_left hi, ?_⟩
  simp [extend, List.getElem?_append_left hsigns]

/-- An added row stands behind them. -/
theorem addedRow_extend (hi : i < more.length) :
    (model.extend more).rows.rowAt (model.rowCount + i) = more[i].coefficients ∧
      entry (model.extend more).rhs (model.rowCount + i) = more[i].rhs ∧
      (model.extend more).signs.getD (model.rowCount + i) .eq = more[i].sign := by
  refine ⟨?_, ?_, ?_⟩
  · change Dense.rowAt (model.rows ++ more.map (·.coefficients)) _ = _
    rw [Dense.rowAt_append_right (by rw [hsized.rows]; omega), hsized.rows,
      Nat.add_sub_cancel_left, Dense.rowAt_eq_getElem (by simpa using hi), List.getElem_map]
  · change entry (model.rhs ++ more.map (·.rhs)) (model.rhs.length + i) = _
    rw [entry_append_right (by omega), Nat.add_sub_cancel_left,
      entry_eq_getElem (by simpa using hi), List.getElem_map]
  · simp [extend, ← hsized.signs, hi]

/-- **The points of the model with more rows** are its points that meet the rows. -/
theorem feasible_extend_iff :
    (model.extend more).Feasible p ↔ model.Feasible p ∧ ∀ row ∈ more, row.Holds p := by
  constructor
  · rintro ⟨hlen, hrows, hkinds⟩
    refine ⟨⟨hlen, fun i hi => ?_, hkinds⟩, fun row hrow => ?_⟩
    · obtain ⟨h1, h2, h3⟩ := row_extend hsized more hi
      have hrow := hrows i (by rw [rowCount_extend]; omega)
      rwa [h1, h2, h3] at hrow
    · obtain ⟨i, hi, rfl⟩ := List.getElem_of_mem hrow
      obtain ⟨h1, h2, h3⟩ := addedRow_extend hsized hi
      have hrow := hrows (model.rowCount + i) (by rw [rowCount_extend]; omega)
      rwa [h1, h2, h3] at hrow
  · rintro ⟨⟨hlen, hrows, hkinds⟩, hmore⟩
    refine ⟨hlen, fun i hi => ?_, hkinds⟩
    rw [rowCount_extend] at hi
    rcases lt_or_ge i model.rowCount with hlt | hge
    · obtain ⟨h1, h2, h3⟩ := row_extend hsized more hlt
      rw [h1, h2, h3]
      exact hrows i hlt
    · obtain ⟨k, rfl⟩ := Nat.exists_eq_add_of_le hge
      have hk : k < more.length := by omega
      obtain ⟨h1, h2, h3⟩ := addedRow_extend hsized hk
      rw [h1, h2, h3]
      exact hmore _ (List.getElem_mem hk)

theorem integerFeasible_extend_iff :
    (model.extend more).IntegerFeasible p ↔
      model.IntegerFeasible p ∧ ∀ row ∈ more, row.Holds p := by
  constructor
  · rintro ⟨hfeasible, hwhole⟩
    obtain ⟨hmodel, hmore⟩ := (feasible_extend_iff hsized).mp hfeasible
    exact ⟨⟨hmodel, hwhole⟩, hmore⟩
  · rintro ⟨⟨hmodel, hwhole⟩, hmore⟩
    exact ⟨(feasible_extend_iff hsized).mpr ⟨hmodel, hmore⟩, hwhole⟩

/-- A point that nearly meets the model with more rows nearly meets the model. -/
theorem FeasibleWithin.of_extend {kindTol : ℚ} {rowTol : ℕ → ℚ}
    (h : (model.extend more).FeasibleWithin kindTol rowTol p) :
    model.FeasibleWithin kindTol rowTol p where
  length_eq := h.length_eq
  rows := by
    intro i hi
    obtain ⟨h1, h2, h3⟩ := row_extend hsized more hi
    have hrow := h.rows i (by rw [rowCount_extend]; omega)
    rwa [h1, h2, h3] at hrow
  kinds := h.kinds

theorem rowSize_extend (more : List ExtraRow) (hi : i < model.rowCount) :
    (model.extend more).rowSize i = model.rowSize i := by
  rw [rowSize, rowSize, (row_extend hsized more hi).1]

/-- More rows do not lessen the extent of a point. -/
theorem extent_le_extend (more : List ExtraRow) (p : List ℚ) :
    model.extent p ≤ (model.extend more).extent p := by
  have hrows : ∑ i ∈ range model.rowCount, |dot (model.rows.rowAt i) p - entry model.rhs i| ≤
      ∑ i ∈ range (model.extend more).rowCount,
        |dot ((model.extend more).rows.rowAt i) p - entry (model.extend more).rhs i| := by
    rw [rowCount_extend, Finset.sum_range_add]
    refine le_add_of_le_of_nonneg (le_of_eq (Finset.sum_congr rfl fun i hi => ?_))
      (Finset.sum_nonneg fun _ _ => abs_nonneg _)
    obtain ⟨h1, h2, -⟩ := row_extend hsized more (mem_range.mp hi)
    rw [h1, h2]
  exact add_le_add_left (add_le_add_right hrows _) _

end Points

end Model

end LinOpt
