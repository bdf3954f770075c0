import LinOpt.Proofs.Analysis.Sensitivity
import LinOpt.Proofs.StandardForm.Labels
import LinOpt.Analysis.Duality
/-!
# Answers respect the rewritings of a model

A row may be negated on both sides with its relation turned round (`Model.negateRow`), and a model
may be read in the opposite sense with opposite costs (`Model.mirrored`). Neither says anything else
about the variables. The standard form orients every row and maximises in any case, so it changes in
its labels only (`standardForm_negateRow`, `standardForm_mirrored`), and the pivots do not change at
all. The signs come back in what is reported: the price and the range of a negated row are mirrored,
and so are, in the opposite sense, the objective, all prices and the ranges of all costs
(`answers_respect_rewritings`).
-/

namespace LinOpt

open Simplex

/-! ## Odd functions -/

theorem clean_neg (x : ℚ) : Scalar.clean (-x) = -Scalar.clean x := by
  rw [clean_eq_cut, clean_eq_cut, cut_neg]

theorem round3_neg (x : ℚ) : Scalar.round3 (-x) = -Scalar.round3 x := by
  rw [round3_eq, round3_eq, neg_mul, nearestRat_neg]
  push_cast
  ring

namespace Range

/-- The range of the opposite values. -/
def mirrored (range : Range ℚ) : Range ℚ := ⟨range.upper.map (-·), range.lower.map (-·)⟩

/-- The range up to the cost at which a nonbasic variable would enter. -/
def oneSided (factor current reduced : ℚ) : Range ℚ :=
  let limit := Scalar.clean (current + reduced / factor)
  if 0 < factor then ⟨none, some limit⟩ else ⟨some limit, none⟩

theorem oneSided_neg {factor : ℚ} (current reduced : ℚ) (h : factor ≠ 0) :
    oneSided (-factor) (-current) reduced = (oneSided factor current reduced).mirrored := by
  have hlimit : Scalar.clean (-current + reduced / -factor) =
      -Scalar.clean (current + reduced / factor) := by
    rw [← clean_neg, div_neg]
    congr 1
    ring
  unfold oneSided
  rw [hlimit]
  dsimp only
  rcases lt_or_gt_of_ne h with hneg | hpos
  · rw [if_pos (by linarith), if_neg (by linarith)]
    rfl
  · rw [if_neg (by linarith), if_pos hpos]
    rfl

end Range

theorem rangeEnd_neg (current : ℚ) (distance : Option ℚ) :
    rangeEnd (-current) (distance.map (-·)) = (rangeEnd current distance).map (-·) := by
  cases distance with
  | none => rfl
  | some d =>
    have hclean : Scalar.clean (-current + -d) = -Scalar.clean (current + d) := by
      rw [← clean_neg]
      congr 1
      ring
    exact congrArg some hclean

/-- **A range read in the opposite direction is mirrored.** -/
theorem rangeAround_neg (current : ℚ) (lower upper : Option ℚ) (reversed : Bool) :
    rangeAround (-current) lower upper (!reversed) =
      (rangeAround current lower upper reversed).mirrored := by
  have hback : ∀ distance : Option ℚ,
      rangeEnd (-current) distance = (rangeEnd current (distance.map (-·))).map (-·) := by
    intro distance
    rw [← rangeEnd_neg, Option.map_map]
    simp
  cases reversed with
  | false => simp [rangeAround, Range.mirrored, rangeEnd_neg]
  | true => simp [rangeAround, Range.mirrored, hback]

/-! ## Negated rows over the structural columns -/

/-- The entries of the opposite coefficients. -/
def negated (entries : List (ℕ × ℚ)) : List (ℕ × ℚ) := entries.map fun (k, v) => (k, -v)

@[simp] theorem negated_nil : negated [] = [] := rfl

@[simp] theorem negated_negated (es : List (ℕ × ℚ)) : negated (negated es) = es := by
  simp [negated, Function.comp_def]

theorem addEntry_neg (column : ℕ) (value : ℚ) (es : List (ℕ × ℚ)) :
    addEntry column (-value) (negated es) = negated (addEntry column value es) := by
  induction es with
  | nil => simp [addEntry, negated]
  | cons e es ih =>
    simp only [negated, List.map_cons, addEntry] at ih ⊢
    split
    · simp [add_comm]
    · simp [ih]

theorem addParts_neg (coef : ℚ) (parts es : List (ℕ × ℚ)) :
    addParts (-coef) parts (negated es) = negated (addParts coef parts es) := by
  induction parts generalizing es with
  | nil => rfl
  | cons part parts ih =>
    change addParts (-coef) parts (addEntry part.1 (-coef * part.2) (negated es)) = _
    rw [neg_mul, addEntry_neg, ih]
    rfl

theorem addCoefficients_neg (components : Components ℚ) (first : ℕ) (coefficients : List ℚ)
    (es : List (ℕ × ℚ)) :
    addCoefficients components first (coefficients.map (-·)) (negated es) =
      negated (addCoefficients components first coefficients es) := by
  induction coefficients generalizing first es with
  | nil => rfl
  | cons coef coefficients ih =>
    rw [List.map_cons, addCoefficients_cons, addCoefficients_cons, ← ih]
    congr 1
    by_cases hzero : coef = 0
    · simp [hzero]
    · have hne : ¬ (-coef = 0) := by simpa using hzero
      simp only [beq_iff_eq, hzero, hne, if_false]
      exact addParts_neg _ _ _

theorem structuralEntries_neg (components : Components ℚ) (coefficients : List ℚ) :
    structuralEntries components (coefficients.map (-·)) =
      negated (structuralEntries components coefficients) :=
  addCoefficients_neg components 0 coefficients []

theorem Relation.flip_flip (sign : Relation) : sign.flip.flip = sign := by
  cases sign <;> rfl

namespace StatedRow

/-- The row negated on both sides. -/
def opposite (row : StatedRow ℚ) : StatedRow ℚ :=
  { row with coefficients := row.coefficients.map (-·), sign := row.sign.flip, rhs := -row.rhs }

/-- **A row and its opposite are oriented alike**, the one negated and the other not. -/
theorem oriented_opposite (components : Components ℚ) {row : StatedRow ℚ} (hne : row.rhs ≠ 0) :
    row.opposite.oriented components =
      { row.oriented components with flipped := !(row.oriented components).flipped } := by
  unfold oriented opposite
  dsimp only
  rw [structuralEntries_neg]
  rcases lt_or_gt_of_ne hne with hneg | hpos
  · rw [if_neg (by linarith), if_pos hneg]
    rfl
  · rw [if_pos (by linarith), if_neg (by linarith), Relation.flip_flip, neg_neg]
    have hback := negated_negated (structuralEntries components row.coefficients)
    exact congrArg (fun entries =>
      (⟨row.name, row.source, entries, row.sign, row.rhs, true⟩ : OrientedRow ℚ)) hback

end StatedRow

namespace StandardForm

/-- The form in which row `k` has been negated once more. -/
def negateRow (form : StandardForm ℚ) (k : ℕ) : StandardForm ℚ :=
  { form with flipped := form.flipped.modify k not }

/-- The form of a model of the given sense. -/
def inSense (form : StandardForm ℚ) (sense : Sense) : StandardForm ℚ := { form with sense }

end StandardForm

namespace Model

variable {model : Model ℚ} {k : ℕ}

/-! ## A row negated on both sides -/

/-- The model with row `k` negated on both sides. -/
def negateRow (model : Model ℚ) (k : ℕ) : Model ℚ :=
  { model with
    rows := model.rows.modify k (List.map (-·))
    rhs := model.rhs.modify k (-·)
    signs := model.signs.modify k Relation.flip }

@[simp] theorem rowCount_negateRow : (model.negateRow k).rowCount = model.rowCount :=
  List.length_modify _ _ _

theorem Sized.negateRow (h : model.Sized) (k : ℕ) : (model.negateRow k).Sized where
  rows := by simp [Model.negateRow, h.rows, rowCount]
  row := by
    intro row hrow
    obtain ⟨i, hi, rfl⟩ := List.getElem_of_mem hrow
    have hi' : i < model.rows.length := by simpa [Model.negateRow] using hi
    have hold := h.row _ (List.getElem_mem hi')
    simp only [Model.negateRow, List.getElem_modify]
    split
    · rw [List.length_map]
      exact hold
    · exact hold
  signs := by simp [Model.negateRow, h.signs, rowCount]
  kinds := h.kinds
  names := h.names

theorem Valid.negateRow (h : model.Valid) (k : ℕ) : (model.negateRow k).Valid where
  shape := (h.sized.negateRow k).shapeFault?_eq_none
  sense := h.sense
  signs := by
    refine List.all_eq_true.mpr fun sign hsign => ?_
    obtain ⟨i, hi, rfl⟩ := List.getElem_of_mem hsign
    have hi' : i < model.signs.length := by simpa [Model.negateRow] using hi
    have hold := List.all_eq_true.mp h.signs _ (List.getElem_mem hi')
    simp only [Model.negateRow, List.getElem_modify]
    split
    · revert hold
      cases model.signs[i] <;> simp [Relation.flip, Relation.isKnown]
    · exact hold
  kinds := h.kinds

theorem statedRow_negateRow (hsized : model.Sized) {i : ℕ} (hi : i < model.rowCount) :
    (model.negateRow k).statedRow i =
      if k = i then (model.statedRow i).opposite else model.statedRow i := by
  have hrow : i < model.rows.length := by rw [hsized.rows]; exact hi
  have hsign : i < model.signs.length := by rw [hsized.signs]; exact hi
  have hrhs : i < model.rhs.length := hi
  by_cases hki : k = i
  · simp [statedRow, negateRow, StatedRow.opposite, Dense.rowAt, entry, hki, hrow, hsign, hrhs]
  · simp [statedRow, negateRow, Dense.rowAt, entry, hki, hrow, hsign, hrhs]

theorem statedRows_negateRow (hsized : model.Sized) (hk : k < model.rowCount) :
    (model.negateRow k).statedRows = model.statedRows.modify k StatedRow.opposite := by
  have hbounds : (List.range (model.negateRow k).variableCount).filterMap
      (model.negateRow k).boundRow? =
      (List.range model.variableCount).filterMap model.boundRow? := rfl
  have hlen : (model.negateRow k).statedRows.length = model.statedRows.length := by
    simp only [statedRows, hbounds, List.length_append, List.length_map, List.length_range,
      rowCount_negateRow]
  refine List.ext_getElem (by rw [hlen, List.length_modify]) fun i hi hi' => ?_
  rw [List.getElem_modify]
  rcases lt_or_ge i model.rowCount with hlt | hge
  · rw [statedRows_getElem (by simpa using hlt), statedRow_negateRow hsized hlt,
      statedRows_getElem hlt]
  · -- the bounds of binary variables stand behind the rows of the model
    rw [if_neg (by omega)]
    simp only [statedRows, hbounds]
    rw [List.getElem_append_right (by simpa using hge),
      List.getElem_append_right (by simpa using hge)]
    simp

/-- **Only the orientation of the negated row changes.** -/
theorem orientedRows_negateRow (hsized : model.Sized) (hk : k < model.rowCount)
    (hne : entry model.rhs k ≠ 0) :
    (model.negateRow k).orientedRows =
      model.orientedRows.modify k fun row => { row with flipped := !row.flipped } := by
  unfold orientedRows
  rw [statedRows_negateRow hsized hk]
  refine List.ext_getElem (by simp) fun i hi hi' => ?_
  rw [List.getElem_map, List.getElem_modify, List.getElem_modify, List.getElem_map]
  split
  · rename_i hki
    subst hki
    exact StatedRow.oriented_opposite _ (by rw [statedRows_getElem hk]; exact hne)
  · rfl

theorem map_orientedRows_negateRow {β : Type} (read : OrientedRow ℚ → β)
    (hread : ∀ row, read { row with flipped := !row.flipped } = read row) (hsized : model.Sized)
    (hk : k < model.rowCount) (hne : entry model.rhs k ≠ 0) :
    (model.negateRow k).orientedRows.map read = model.orientedRows.map read := by
  rw [orientedRows_negateRow hsized hk hne]
  refine List.ext_getElem (by simp) fun i hi hi' => ?_
  rw [List.getElem_map, List.getElem_map, List.getElem_modify]
  split
  · exact hread _
  · rfl

/-- **A negated row shows in the labels of the standard form only.** -/
theorem standardForm_negateRow (opts : Options ℚ) (hsized : model.Sized) (hk : k < model.rowCount)
    (hne : entry model.rhs k ≠ 0) :
    (model.negateRow k).standardForm opts = (model.standardForm opts).negateRow k := by
  have hwidths : (model.negateRow k).ownWidths = model.ownWidths :=
    map_orientedRows_negateRow (·.sign.ownWidth) (fun _ => rfl) hsized hk hne
  have hwidth : (model.negateRow k).formWidth = model.formWidth := by
    unfold formWidth
    rw [hwidths]
    rfl
  have hflipped : (model.negateRow k).orientedRows.map (·.flipped) =
      (model.orientedRows.map (·.flipped)).modify k not := by
    rw [orientedRows_negateRow hsized hk hne]
    refine List.ext_getElem (by simp) fun i hi hi' => ?_
    rw [List.getElem_map, List.getElem_modify, List.getElem_modify, List.getElem_map]
    split <;> rfl
  have hform := StandardForm.assemble_eq_relabel opts model (model.negateRow k)
    model.structuralNames model.components (scatter (zeros model.formWidth) model.costEntries)
    0 (structuralWidth model.kinds) rfl
    (map_orientedRows_negateRow OrientedRow.blank (fun _ => rfl) hsized hk hne)
  rw [hflipped, map_orientedRows_negateRow (·.name) (fun _ => rfl) hsized hk hne,
    map_orientedRows_negateRow (·.source) (fun _ => rfl) hsized hk hne] at hform
  unfold standardForm
  rw [hwidth]
  refine Eq.trans hform ?_
  simp only [StandardForm.relabel, StandardForm.assemble, placedRows, map_row_place]
  rfl

/-! ## Other costs -/

/-- The model with another sense and other costs. -/
def recosted (model : Model ℚ) (sense : Sense) (costs : List ℚ) : Model ℚ :=
  { model with sense, costs }

section Recosted

variable {sense : Sense} {costs : List ℚ} (hcosts : costs.length = model.costs.length)

include hcosts

theorem variableCount_recosted : (model.recosted sense costs).variableCount = model.variableCount :=
  hcosts

theorem names_recosted : (model.recosted sense costs).names = model.names := by
  unfold names
  rw [variableCount_recosted hcosts]
  rfl

theorem Sized.recosted (h : model.Sized) : (model.recosted sense costs).Sized where
  rows := h.rows
  row := fun row hrow => (h.row row hrow).trans (variableCount_recosted hcosts).symm
  signs := h.signs
  kinds := h.kinds.trans (variableCount_recosted hcosts).symm
  names := by rw [names_recosted hcosts, variableCount_recosted hcosts, h.names]

theorem Valid.recosted (h : model.Valid) (hsense : sense.isKnown = true) :
    (model.recosted sense costs).Valid where
  shape := (h.sized.recosted hcosts).shapeFault?_eq_none
  sense := hsense
  signs := h.signs
  kinds := h.kinds

theorem boundRow?_recosted : (model.recosted sense costs).boundRow? = model.boundRow? := by
  funext j
  unfold boundRow?
  rw [names_recosted hcosts, variableCount_recosted hcosts]
  rfl

theorem orientedRows_recosted :
    (model.recosted sense costs).orientedRows = model.orientedRows := by
  unfold orientedRows statedRows
  rw [boundRow?_recosted hcosts, variableCount_recosted hcosts]
  rfl

/-- **Other costs leave the rows of the standard form alone**, and its columns. -/
theorem standardForm_recosted (opts : Options ℚ) :
    (model.recosted sense costs).standardForm opts =
      .assemble opts (model.recosted sense costs) model.structuralNames model.components
        (scatter (zeros model.formWidth) (model.recosted sense costs).costEntries)
        model.placedRows := by
  have hwidth : (model.recosted sense costs).formWidth = model.formWidth := by
    unfold formWidth ownWidths
    rw [orientedRows_recosted hcosts]
    rfl
  have hplaced : (model.recosted sense costs).placedRows = model.placedRows := by
    unfold placedRows
    rw [orientedRows_recosted hcosts]
    rfl
  have hnames : (model.recosted sense costs).structuralNames = model.structuralNames := by
    unfold structuralNames declared
    rw [names_recosted hcosts, variableCount_recosted hcosts, boundRow?_recosted hcosts]
    rfl
  unfold standardForm
  rw [hwidth, hplaced, hnames]
  rfl

end Recosted

/-! ## The opposite sense -/

/-- The model in the opposite sense, with opposite costs. -/
def mirrored (model : Model ℚ) : Model ℚ :=
  { model with sense := model.sense.dual, costs := model.costs.map (-·) }

theorem mirrored_eq (model : Model ℚ) :
    model.mirrored = model.recosted model.sense.dual (model.costs.map (-·)) := rfl

@[simp] theorem variableCount_mirrored : model.mirrored.variableCount = model.variableCount :=
  List.length_map _

theorem names_mirrored : model.mirrored.names = model.names :=
  names_recosted (List.length_map _)

theorem Valid.mirrored (h : model.Valid) : model.mirrored.Valid := by
  refine h.recosted (List.length_map _) ?_
  cases model.sense <;> rfl

theorem factor_dual {sense : Sense} (h : sense.isKnown = true) :
    (sense.dual.factor : ℚ) = -sense.factor := by
  cases sense with
  | min => simp [Sense.dual, Sense.factor]
  | max => simp [Sense.dual, Sense.factor]
  | other _ => simp [Sense.isKnown] at h

/-- The costs to maximise are the same. -/
theorem costEntries_mirrored (hsense : model.sense.isKnown = true) :
    model.mirrored.costEntries = model.costEntries := by
  have hcosts : model.mirrored.costs.map (model.mirrored.sense.factor * ·) =
      model.costs.map (model.sense.factor * ·) := by
    change (model.costs.map (-·)).map (model.sense.dual.factor * ·) = _
    rw [List.map_map, factor_dual hsense]
    exact List.map_congr_left fun c _ => neg_mul_neg _ _
  unfold costEntries
  rw [hcosts]
  rfl

/-- **The opposite sense shows in the labels of the standard form only.** -/
theorem standardForm_mirrored (opts : Options ℚ) (hsense : model.sense.isKnown = true) :
    model.mirrored.standardForm opts = (model.standardForm opts).inSense model.sense.dual := by
  rw [mirrored_eq, standardForm_recosted (List.length_map _), ← mirrored_eq,
    costEntries_mirrored hsense]
  unfold StandardForm.assemble
  rw [names_mirrored]
  rfl

end Model

/-! ## Reports of rewritten states -/

/-- Reading commutes with a map over the list. -/
theorem position_read_map {β γ : Type} (f : β → γ) (xs : List β) (i : ℤ) :
    (Position.read (xs.map f) i : Except (Fault ℚ) γ) = (Position.read xs i).map f := by
  unfold Position.read
  rw [List.length_map]
  cases Position.resolve xs.length i with
  | none => rfl
  | some k =>
    simp only [Position.get, List.getElem?_map]
    cases xs[k]? with
    | none => rfl
    | some x => rfl

theorem mem_of_position_read {β : Type} {xs : List β} {i : ℤ} {x : β}
    (h : (Position.read xs i : Except (Fault ℚ) β) = .ok x) : x ∈ xs := by
  unfold Position.read at h
  split at h
  · unfold Position.get at h
    split at h
    · rename_i hget
      obtain rfl := Except.ok.inj h
      exact List.mem_of_getElem? hget
    · cases h
  · cases h

theorem mapM_map_eq {ε β γ δ : Type} {f : β → Except ε γ} {f' : β → Except ε δ} {g : γ → δ}
    (h : ∀ b, f' b = (f b).map g) (l : List β) : l.mapM f' = (l.mapM f).map (List.map g) := by
  induction l with
  | nil => rfl
  | cons b l ih =>
    rw [List.mapM_cons, List.mapM_cons, h b, ih]
    cases f b with
    | error e => rfl
    | ok c =>
      cases l.mapM f with
      | error e => rfl
      | ok cs => rfl

/-- A map over what two computations give. -/
theorem map_bind_bind {ε β γ δ ζ : Type} (first : Except ε β) (second : Except ε γ)
    (f : β → γ → δ) (g : δ → ζ) :
    (first >>= fun b => second >>= fun c => .ok (f b c)).map g =
      first >>= fun b => second >>= fun c => .ok (g (f b c)) := by
  cases first with
  | error e => rfl
  | ok b =>
    cases second with
    | error e => rfl
    | ok c => rfl

namespace SensitivityState

variable (state : SensitivityState ℚ)

/-- The state with row `k` negated on both sides. -/
def negateRow (k : ℕ) : SensitivityState ℚ :=
  { state with
    form := state.form.negateRow k
    prices := state.prices.modify k (-·)
    rhs := state.rhs.modify k (-·) }

/-- The state in the opposite sense. -/
def mirrored : SensitivityState ℚ :=
  { state with
    form := state.form.inSense state.sense.dual
    prices := state.prices.map (-·)
    objective := -state.objective
    sense := state.sense.dual
    costs := state.costs.map (-·) }

theorem mapM_rhsRange :
    ((List.range state.modelRows).mapM fun (k : ℕ) => state.rhsRange k) =
      .ok ((List.range state.modelRows).map state.rangeOfRhs) :=
  mapM_eq_ok fun _ hk => state.rhsRange_eq (List.mem_range.mp hk)

/-- What a report holds. -/
theorem report_eq : state.report =
    (List.range state.costs.length).mapM state.objectiveRange >>= fun objectiveRanges =>
      state.basic.mapM state.form.columnName >>= fun basicVariables =>
        .ok { objective := state.objective
              shadowPrices := state.shadowPrices
              rhsRanges := (List.range state.modelRows).map state.rangeOfRhs
              objectiveRanges
              basicVariables } := by
  unfold report
  rw [mapM_rhsRange]
  rfl

/-! ### A negated row -/

theorem shadowPrices_negateRow (k : ℕ) :
    (state.negateRow k).shadowPrices = state.shadowPrices.modify k (-·) := by
  unfold shadowPrices negateRow
  refine List.ext_getElem (by simp) fun i hi hi' => ?_
  rw [List.getElem_map, List.getElem_take, List.getElem_modify, List.getElem_modify,
    List.getElem_map, List.getElem_take]
  split
  · exact clean_neg _
  · rfl

theorem rangeOfRhs_negateRow {k i : ℕ} (hrhs : k < state.rhs.length)
    (hflipped : k < state.form.flipped.length) :
    (state.negateRow k).rangeOfRhs i =
      if k = i then (state.rangeOfRhs i).mirrored else state.rangeOfRhs i := by
  have hdistances : (state.negateRow k).rhsDistances ((state.negateRow k).inverse.column i) =
      state.rhsDistances (state.inverse.column i) := rfl
  unfold rangeOfRhs
  rw [hdistances]
  dsimp only
  split
  · rename_i hki
    subst hki
    rw [← rangeAround_neg]
    simp [negateRow, StandardForm.negateRow, entry, hrhs, hflipped]
  · rename_i hki
    simp [negateRow, StandardForm.negateRow, entry, hki]

/-- **The report of a negated row**: its price is the opposite one, and its range is mirrored. -/
theorem report_negateRow {k : ℕ} (hrows : state.modelRows = state.rhs.length)
    (hk : k < state.modelRows) (hflipped : k < state.form.flipped.length) :
    (state.negateRow k).report = state.report.map fun report =>
      { report with
        shadowPrices := report.shadowPrices.modify k (-·)
        rhsRanges := report.rhsRanges.modify k Range.mirrored } := by
  have hranges : (List.range (state.negateRow k).modelRows).map (state.negateRow k).rangeOfRhs =
      ((List.range state.modelRows).map state.rangeOfRhs).modify k Range.mirrored := by
    refine List.ext_getElem (by simp [negateRow]) fun i hi hi' => ?_
    rw [List.getElem_map, List.getElem_modify, List.getElem_map, List.getElem_range,
      List.getElem_range, state.rangeOfRhs_negateRow (hrows ▸ hk) hflipped]
  rw [report_eq, report_eq, map_bind_bind, shadowPrices_negateRow, hranges]
  rfl

/-! ### The opposite sense -/

theorem shadowPrices_mirrored :
    state.mirrored.shadowPrices = state.shadowPrices.map (-·) := by
  unfold shadowPrices mirrored
  rw [← List.map_take, List.map_map, List.map_map]
  exact List.map_congr_left fun y _ => clean_neg y

variable {state}

section Signs

variable (hsense : state.sense.isKnown = true)
  (hsigns : ∀ parts ∈ state.form.components, ∀ part ∈ parts, part.2 ≠ 0)

include hsense hsigns

/-- The factor of a variable is not zero, and it is the opposite one in the opposite sense. -/
theorem factor_of_columnOf {index : ℤ} {column : ℕ} {sign : ℚ}
    (h : state.columnOf index = .ok (column, sign)) :
    (state.sense.factor : ℚ) * sign ≠ 0 ∧
      (state.mirrored.sense.factor : ℚ) * sign = -(state.sense.factor * sign) := by
  have hfactor : (state.sense.factor : ℚ) ≠ 0 := by
    cases state.sense <;> simp [Sense.factor]
  have hsign : sign ≠ 0 := by
    unfold columnOf at h
    obtain ⟨parts, hread, hparts⟩ := exists_of_bind_eq_ok h
    split at hparts
    · obtain rfl := Except.ok.inj hparts
      exact hsigns _ (mem_of_position_read hread) _ List.mem_cons_self
    · cases hparts
  refine ⟨mul_ne_zero hfactor hsign, ?_⟩
  change (state.sense.dual.factor : ℚ) * sign = _
  rw [Model.factor_dual hsense, neg_mul]

theorem nonbasicRange_mirrored (index : ℤ) :
    state.mirrored.nonbasicRange index = (state.nonbasicRange index).map Range.mirrored := by
  have hcolumn : state.mirrored.columnOf index = state.columnOf index := rfl
  have hcosts : (Position.read state.mirrored.costs index : Except (Fault ℚ) ℚ) =
      (Position.read state.costs index).map (-·) := position_read_map _ _ _
  unfold nonbasicRange
  rw [hcolumn, hcosts]
  cases hpart : state.columnOf index with
  | error cause => rfl
  | ok part =>
    obtain ⟨column, sign⟩ := part
    obtain ⟨hne, hopposite⟩ := factor_of_columnOf hsense hsigns hpart
    simp only [ok_bind]
    change (if state.basic.contains column then _ else _) = Except.map _ (if _ then _ else _)
    split
    · rfl
    · cases Position.read state.costs index with
      | error cause => rfl
      | ok current =>
        change Except.ok (Range.oneSided (state.mirrored.sense.factor * sign) (-current)
          (entry state.reduced column)) = Except.ok (Range.oneSided (state.sense.factor * sign)
            current (entry state.reduced column)).mirrored
        rw [hopposite, Range.oneSided_neg _ _ hne]

theorem basicRange_mirrored (index : ℤ) :
    state.mirrored.basicRange index = (state.basicRange index).map Range.mirrored := by
  have hcolumn : state.mirrored.columnOf index = state.columnOf index := rfl
  have hcosts : (Position.read state.mirrored.costs index : Except (Fault ℚ) ℚ) =
      (Position.read state.costs index).map (-·) := position_read_map _ _ _
  unfold basicRange
  rw [hcolumn, hcosts]
  cases hpart : state.columnOf index with
  | error cause => rfl
  | ok part =>
    obtain ⟨column, sign⟩ := part
    obtain ⟨hne, hopposite⟩ := factor_of_columnOf hsense hsigns hpart
    simp only [ok_bind]
    change (if !state.basic.contains column then _ else _) = Except.map _ (if _ then _ else _)
    split
    · rfl
    · cases Position.read state.costs index with
      | error cause => rfl
      | ok current =>
        have hreversed : decide (state.mirrored.sense.factor * sign < 0) =
            !decide (state.sense.factor * sign < 0) := by
          rw [hopposite, ← decide_not]
          have hiff : -(state.sense.factor * sign) < 0 ↔ ¬ state.sense.factor * sign < 0 := by
            constructor
            · intro h
              linarith
            · intro h
              exact neg_lt_zero.mpr (lt_of_le_of_ne (not_lt.mp h) hne.symm)
          exact decide_eq_decide.mpr hiff
        change Except.ok (rangeAround (-current) _ _ (decide (state.mirrored.sense.factor * sign < 0)))
          = Except.ok (Range.mirrored _)
        rw [hreversed, rangeAround_neg]
        rfl

theorem objectiveRange_mirrored (j : ℕ) :
    state.mirrored.objectiveRange j = (state.objectiveRange j).map Range.mirrored := by
  have hget : (Position.get state.mirrored.form.components j : Except (Fault ℚ) _) =
      Position.get state.form.components j := rfl
  unfold objectiveRange
  rw [hget]
  cases Position.get state.form.components j with
  | error cause => rfl
  | ok parts =>
    simp only [ok_bind]
    split
    · rename_i column sign
      change (if state.basic.contains column then _ else _) = _
      split
      · exact basicRange_mirrored hsense hsigns j
      · exact nonbasicRange_mirrored hsense hsigns j
    · rfl

/-- **The report in the opposite sense**: objective and prices are the opposite ones, and the ranges
of the costs are mirrored. -/
theorem report_mirrored : state.mirrored.report = state.report.map fun report =>
    { report with
      objective := -report.objective
      shadowPrices := report.shadowPrices.map (-·)
      objectiveRanges := report.objectiveRanges.map Range.mirrored } := by
  have hlength : state.mirrored.costs.length = state.costs.length := List.length_map _
  rw [report_eq, report_eq, map_bind_bind, shadowPrices_mirrored, hlength,
    mapM_map_eq (objectiveRange_mirrored hsense hsigns)]
  cases (List.range state.costs.length).mapM state.objectiveRange with
  | error cause => rfl
  | ok ranges => rfl

end Signs

end SensitivityState

/-! ## Runs on rewritten models -/

/-- A variable has the sign one or minus one in each of its columns. -/
theorem sign_of_mem_components {kinds : List Kind} {parts : List (ℕ × ℚ)} {part : ℕ × ℚ}
    (hparts : parts ∈ (componentsFrom 0 kinds : Components ℚ)) (hpart : part ∈ parts) :
    part.2 = 1 ∨ part.2 = -1 := by
  obtain ⟨j, hj, rfl⟩ := List.getElem_of_mem hparts
  rw [length_componentsFrom] at hj
  have hget := componentsFrom_getD hj 0
  rw [List.getD_eq_getElem?_getD, List.getElem?_eq_getElem (by simpa using hj),
    Option.getD_some] at hget
  rw [hget] at hpart
  exact sign_of_mem_parts hpart

theorem sign_ne_zero_of_mem_components {kinds : List Kind} {parts : List (ℕ × ℚ)} {part : ℕ × ℚ}
    (hparts : parts ∈ (componentsFrom 0 kinds : Components ℚ)) (hpart : part ∈ parts) :
    part.2 ≠ 0 := by
  rcases sign_of_mem_components hparts hpart with h | h
  · rw [h]
    exact one_ne_zero
  · rw [h]
    exact neg_ne_zero.mpr one_ne_zero

namespace Simplex

variable {model : Model ℚ} {k : ℕ} {done : Run ℚ}

/-- The run with a row of its model negated on both sides. -/
def negatedRun (done : Run ℚ) (k : ℕ) : Run ℚ :=
  { done with model := done.model.negateRow k, form := done.form.map (·.negateRow k) }

/-- The run in the opposite sense. -/
def mirroredRun (done : Run ℚ) : Run ℚ :=
  { result := { done.result with objective := done.result.objective.map (-·) }
    model := done.model.mirrored
    form := done.form.map (·.inSense done.model.sense.dual)
    basis := done.basis }

theorem finished_mirrored (opts : Options ℚ) (model : Model ℚ) (form : StandardForm ℚ)
    (terminal : Terminal ℚ) :
    finished opts model.mirrored (form.inSense model.sense.dual) terminal =
      mirroredRun (finished opts model form terminal) := by
  have hvalues : columnValues opts (form.inSense model.sense.dual) terminal =
      columnValues opts form terminal := rfl
  have hartificials : (form.inSense model.sense.dual).artificials = form.artificials := rfl
  have hcomponents : (form.inSense model.sense.dual).components = form.components := rfl
  have hobjective := round3_neg (dot model.costs
    (reconstruct form.components (columnValues opts form terminal)))
  rw [← dot_map_neg] at hobjective
  unfold finished mirroredRun
  dsimp only
  rw [hvalues, hartificials, hcomponents]
  split
  · rfl
  · rw [Result.solved, Result.solved]
    dsimp only
    rw [Option.map_some, ← hobjective]
    rfl

section Runs

variable (observer : Observer) (opts : Options ℚ) (hvalid : model.Valid)
  (hrun : (run observer opts model).outcome = .ok done)

include hvalid hrun

theorem outcome_run_negateRow (hk : k < model.rowCount) (hne : entry model.rhs k ≠ 0) :
    (run observer opts (model.negateRow k)).outcome = .ok (negatedRun done k) := by
  obtain ⟨hmodel, hform⟩ := form_of_run hvalid hrun
  have hbuild : StandardForm.build opts (model.negateRow k) = .ok
      ((model.standardForm opts).relabel (model.standardForm opts).rowNames
        (model.standardForm opts).rowSources ((model.standardForm opts).flipped.modify k not)
        (model.standardForm opts).sense) := by
    rw [StandardForm.build_eq opts (hvalid.negateRow k),
      Model.standardForm_negateRow opts hvalid.sized hk hne]
    rfl
  obtain ⟨-, houtcome⟩ := echoes_run observer (StandardForm.build_eq opts hvalid) hbuild rfl
  rw [houtcome, hrun, negatedRun, hmodel, hform]
  rfl

theorem outcome_run_mirrored :
    (run observer opts model.mirrored).outcome = .ok (mirroredRun done) := by
  have hform := Model.standardForm_mirrored opts hvalid.sense
  have hpivots : pivotToEnd observer opts (model.mirrored.standardForm opts) =
      pivotToEnd observer opts (model.standardForm opts) := by
    rw [hform]
    exact (model.standardForm opts).pivotToEnd_relabel _ _ _ _ observer opts
  rw [outcome_run observer opts hvalid] at hrun
  obtain rfl := Except.ok.inj hrun
  rw [outcome_run observer opts hvalid.mirrored, hpivots, hform]
  cases (pivotToEnd observer opts (model.standardForm opts)).outcome with
  | error cause => rfl
  | ok terminal => exact congrArg Except.ok (finished_mirrored opts model _ terminal)

end Runs

/-! ## Reports of the two runs -/

theorem signedPrices_modify (factor : ℚ) (prices : List ℚ) (flipped : List Bool) (k : ℕ) :
    signedPrices factor prices (flipped.modify k not) =
      (signedPrices factor prices flipped).modify k (-·) := by
  refine List.ext_getElem (by simp [signedPrices]) fun i hi hi' => ?_
  have hflipped : i < flipped.length := by
    simp [signedPrices] at hi
    omega
  simp only [signedPrices, List.getElem_zipWith, List.getElem_modify]
  split
  · cases flipped[i] <;> simp
  · rfl

theorem signedPrices_neg (factor : ℚ) (prices : List ℚ) (flipped : List Bool) :
    signedPrices (-factor) prices flipped = (signedPrices factor prices flipped).map (-·) := by
  unfold signedPrices
  rw [List.map_zipWith]
  congr 1
  funext y flipped
  cases flipped <;> simp

section States

variable (form : StandardForm ℚ) (basis : List ℕ) (inverse : Dense ℚ) (objective : ℚ)

theorem stateAt_negatedRun (done : Run ℚ) (k : ℕ) :
    (negatedRun done k).stateAt (form.negateRow k) basis inverse objective =
      (done.stateAt form basis inverse objective).negateRow k := by
  have hprices := signedPrices_modify done.model.sense.factor
    (Dense.vecMul form.height (pick form.objective basis) inverse) form.flipped k
  have hrows : (negatedRun done k).model.rowCount = done.model.rowCount := Model.rowCount_negateRow
  unfold Run.stateAt SensitivityState.negateRow
  rw [hrows]
  exact congrArg (fun prices => { done.stateAt form basis inverse objective with
    form := form.negateRow k, prices, rhs := done.model.rhs.modify k (-·) }) hprices

theorem stateAt_mirroredRun (hsense : done.model.sense.isKnown = true) :
    (mirroredRun done).stateAt (form.inSense done.model.sense.dual) basis inverse (-objective) =
      (done.stateAt form basis inverse objective).mirrored := by
  have hprices := signedPrices_neg done.model.sense.factor
    (Dense.vecMul form.height (pick form.objective basis) inverse) form.flipped
  rw [← Model.factor_dual hsense] at hprices
  unfold Run.stateAt SensitivityState.mirrored
  exact congrArg (fun prices => { done.stateAt form basis inverse objective with
    form := form.inSense done.model.sense.dual
    prices
    objective := -objective
    sense := done.model.sense.dual
    costs := done.model.costs.map (-·) }) hprices

end States

section Analyses

variable {form : StandardForm ℚ} (hform : done.form = some form)

include hform

theorem sensitivity_negatedRun (k : ℕ) :
    (negatedRun done k).sensitivity = done.sensitivity.map (·.negateRow k) := by
  have hsame : (negatedRun done k).isOptimal = done.isOptimal := rfl
  cases hoptimal : done.isOptimal with
  | false =>
    rw [Run.sensitivity_of_not_isOptimal hoptimal,
      Run.sensitivity_of_not_isOptimal (hsame.trans hoptimal)]
    rfl
  | true =>
    obtain ⟨basis, hbasis⟩ := Run.exists_basis_of_isOptimal hoptimal
    have hform' : (negatedRun done k).form = some (form.negateRow k) := by
      rw [negatedRun, hform]
      rfl
    rw [Run.sensitivity_eq hoptimal hform hbasis,
      Run.sensitivity_eq (hsame.trans hoptimal) hform' hbasis, map_bind_bind]
    simp only [stateAt_negatedRun]
    rfl

theorem sensitivity_mirroredRun (hsense : done.model.sense.isKnown = true) :
    (mirroredRun done).sensitivity = done.sensitivity.map (·.mirrored) := by
  have hsame : (mirroredRun done).isOptimal = done.isOptimal := rfl
  cases hoptimal : done.isOptimal with
  | false =>
    rw [Run.sensitivity_of_not_isOptimal hoptimal,
      Run.sensitivity_of_not_isOptimal (hsame.trans hoptimal)]
    rfl
  | true =>
    obtain ⟨basis, hbasis⟩ := Run.exists_basis_of_isOptimal hoptimal
    have hform' : (mirroredRun done).form = some (form.inSense done.model.sense.dual) := by
      rw [mirroredRun, hform]
      rfl
    have hobjective : dotAligned (mirroredRun done).model.costs
        ((mirroredRun done).result.solution.getD []) =
        (dotAligned done.model.costs (done.result.solution.getD [])).map (-·) := by
      change dotAligned (done.model.costs.map (-·)) (done.result.solution.getD []) = _
      rw [dotAligned, dotAligned, List.length_map]
      split
      · rw [dot_map_neg]
        rfl
      · rfl
    rw [Run.sensitivity_eq hoptimal hform hbasis,
      Run.sensitivity_eq (hsame.trans hoptimal) hform' hbasis, hobjective, map_bind_bind]
    simp only [← stateAt_mirroredRun _ _ _ _ hsense]
    cases dotAligned done.model.costs (done.result.solution.getD []) with
    | error cause => rfl
    | ok objective => rfl

end Analyses

section Reports

variable {observer : Observer} {opts : Options ℚ} (hvalid : model.Valid)
  (hrun : (run observer opts model).outcome = .ok done)

include hvalid hrun

/-- **The report of a run with a negated row.** -/
theorem report_negatedRun (hk : k < model.rowCount) :
    ((negatedRun done k).sensitivity >>= SensitivityState.report) =
      (done.sensitivity >>= SensitivityState.report).map fun report =>
        { report with
          shadowPrices := report.shadowPrices.modify k (-·)
          rhsRanges := report.rhsRanges.modify k Range.mirrored } := by
  obtain ⟨hmodel, hform⟩ := form_of_run hvalid hrun
  rw [sensitivity_negatedRun hform]
  cases hstate : done.sensitivity with
  | error cause => rfl
  | ok state =>
    obtain ⟨basis, inverse, objective, -, -, rfl⟩ := Run.exists_stateAt hform hstate
    have hk' : k < done.model.rowCount := hmodel ▸ hk
    have hflipped : k < (model.standardForm opts).flipped.length := by
      simp [Model.standardForm, StandardForm.assemble, Model.statedRows]
      omega
    exact SensitivityState.report_negateRow _ rfl hk' hflipped

/-- **The report of a run in the opposite sense.** -/
theorem report_mirroredRun :
    ((mirroredRun done).sensitivity >>= SensitivityState.report) =
      (done.sensitivity >>= SensitivityState.report).map fun report =>
        { report with
          objective := -report.objective
          shadowPrices := report.shadowPrices.map (-·)
          objectiveRanges := report.objectiveRanges.map Range.mirrored } := by
  obtain ⟨hmodel, hform⟩ := form_of_run hvalid hrun
  have hsense : done.model.sense.isKnown = true := hmodel ▸ hvalid.sense
  rw [sensitivity_mirroredRun hform hsense]
  cases hstate : done.sensitivity with
  | error cause => rfl
  | ok state =>
    obtain ⟨basis, inverse, objective, -, -, rfl⟩ := Run.exists_stateAt hform hstate
    exact SensitivityState.report_mirrored hsense fun parts hparts part hpart =>
      sign_ne_zero_of_mem_components hparts hpart

end Reports

/-- **Answers respect the two rewritings of a model.** A row of nonzero right-hand side may be
negated on both sides: the run ends with the same result at the same basis, and its report differs in
the price of the row, which is the opposite one, and in the range of its right-hand side, which is
mirrored. The model may be read in the opposite sense with opposite costs: the run ends at the same
basis with the opposite objective, and its report has the opposite objective and prices and mirrored
cost ranges. A fault of the one report is the fault of the other. -/
theorem answers_respect_rewritings (observer : Observer) (opts : Options ℚ) (hvalid : model.Valid) :
    ∃ done, (run observer opts model).outcome = .ok done ∧
      (∀ k < model.rowCount, entry model.rhs k ≠ 0 →
        ∃ done', (run observer opts (model.negateRow k)).outcome = .ok done' ∧
          done'.result = done.result ∧ done'.basis = done.basis ∧
          (done'.sensitivity >>= SensitivityState.report) =
            (done.sensitivity >>= SensitivityState.report).map fun report =>
              { report with
                shadowPrices := report.shadowPrices.modify k (-·)
                rhsRanges := report.rhsRanges.modify k Range.mirrored }) ∧
      ∃ done', (run observer opts model.mirrored).outcome = .ok done' ∧
        done'.result = { done.result with objective := done.result.objective.map (-·) } ∧
        done'.basis = done.basis ∧
        (done'.sensitivity >>= SensitivityState.report) =
          (done.sensitivity >>= SensitivityState.report).map fun report =>
            { report with
              objective := -report.objective
              shadowPrices := report.shadowPrices.map (-·)
              objectiveRanges := report.objectiveRanges.map Range.mirrored } := by
  have hrun := outcome_run observer opts hvalid
  refine ⟨_, hrun, fun k hk hne => ?_, ?_⟩
  · exact ⟨_, outcome_run_negateRow observer opts hvalid hrun hk hne, rfl, rfl,
      report_negatedRun hvalid hrun hk⟩
  · exact ⟨_, outcome_run_mirrored observer opts hvalid hrun, rfl, rfl,
      report_mirroredRun hvalid hrun⟩

/-- The second row of `mixedModel`, `u - v = -2`, may be written `v - u = 2`: its price changes from
`-1/2` to `1/2`. -/
theorem answers_respect_rewritings_mixedModel :
    ∃ done report, (run .silent {} (mixedModel.negateRow 1)).outcome = .ok done ∧
      done.result.solution = some [1, 3] ∧
      (done.sensitivity >>= SensitivityState.report) = .ok report ∧
      report.shadowPrices = [5 / 2, 1 / 2, 0] := by
  have hvalid : mixedModel.Valid := by decide
  have hreport : ∃ done, (run .silent {} mixedModel).outcome = .ok done ∧
      done.result.solution = some [1, 3] ∧
      ∃ report, (done.sensitivity >>= SensitivityState.report) = .ok report ∧
        report.shadowPrices = [5 / 2, -1 / 2, 0] := by decide +kernel
  obtain ⟨done, hrun, hnegated, -⟩ := answers_respect_rewritings .silent {} hvalid
  obtain ⟨done', hrun', hsolution, report, hreport, hprices⟩ := hreport
  obtain rfl := Except.ok.inj (hrun.symm.trans hrun')
  obtain ⟨other, hother, hresult, -, hmirrored⟩ := hnegated 1 (by decide) (by decide +kernel)
  rw [hreport] at hmirrored
  refine ⟨other, _, hother, by rw [hresult]; exact hsolution, hmirrored, ?_⟩
  dsimp only
  rw [hprices]
  decide +kernel

end Simplex

end LinOpt
