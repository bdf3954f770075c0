import LinOpt.Proofs.StandardForm.Columns
/-!
# The layout of a standard form

Building the standard form of a valid model does not fail (`build_eq`), and `Model.standardForm` is
what it builds: the rows of the model and the bounds of its binary variables, oriented, each with
columns of its own behind the structural ones. Everything later said of a standard form is said of
this one.

The own columns of row `i` are a block that starts at `ownColumn i`. The blocks follow one another,
so that no column belongs to two rows: no column is listed twice in a row (`nodup_keys`), and the
column that is basic in a row at the start is in no other (`basic_notMem_keys`).
-/

namespace LinOpt

open Finset

/-! ## The rows of a model, as they are placed -/

theorem zipIdx_eq_map_range {β : Type} (l : List β) (default : β) :
    l.zipIdx = (List.range l.length).map fun j => (l.getD j default, j) := by
  refine List.ext_getElem (by simp) fun j hj _ => ?_
  have hj' : j < l.length := by simpa using hj
  simp [hj']

namespace Model

variable (model : Model ℚ)

/-- The columns of each variable. -/
def components : Components ℚ := componentsFrom 0 model.kinds

/-- Row `i` of the model, as it is stated. -/
def statedRow (i : ℕ) : StatedRow ℚ :=
  ⟨s!"c{i + 1}", model.rows.rowAt i, model.signs.getD i .eq, entry model.rhs i, .model⟩

/-- The row that bounds variable `j`, where it is binary. -/
def boundRow? (j : ℕ) : Option (StatedRow ℚ) :=
  if model.kinds.getD j .free = .bin then
    let name := model.names.getD j ""
    some ⟨s!"bound_{name}_ub", (zeros model.variableCount).set j 1, .le, 1, .bound⟩
  else none

/-- The rows of the model, and then the bounds of its binary variables. -/
def statedRows : List (StatedRow ℚ) :=
  (List.range model.rowCount).map model.statedRow ++
    (List.range model.variableCount).filterMap model.boundRow?

/-- The stated rows over the structural columns. -/
def orientedRows : List (OrientedRow ℚ) :=
  model.statedRows.map (StatedRow.oriented model.components)

/-- The number of own columns of each row. -/
def ownWidths : List ℕ := model.orientedRows.map (·.sign.ownWidth)

/-- The oriented rows with their own columns. -/
def placedRows : List (PlacedRow ℚ) := place 0 (structuralWidth model.kinds) model.orientedRows

/-- The number of columns of the standard form. -/
def formWidth : ℕ := structuralWidth model.kinds + model.ownWidths.sum

/-- The costs over the structural columns, signed for maximisation. -/
def costEntries : List (ℕ × ℚ) :=
  structuralEntries model.components (model.costs.map (model.sense.factor * ·))

/-- The name of each variable, with the row that bounds it. -/
def declared : List (String × Option (StatedRow ℚ)) :=
  (List.range model.variableCount).map fun j => (model.names.getD j "", model.boundRow? j)

/-- The names of the structural columns. -/
def structuralNames : List String :=
  (List.zipWith (fun kind (name, _) => Kind.columnNames name kind) model.kinds
    model.declared).flatten

/-- **The standard form of a model.** -/
def standardForm (opts : Options ℚ) : StandardForm ℚ :=
  .assemble opts model model.structuralNames model.components
    (scatter (zeros model.formWidth) model.costEntries) model.placedRows

end Model

/-! ## Placing rows -/

@[simp] theorem length_place {α : Type} (index first : ℕ) (rows : List (OrientedRow α)) :
    (place index first rows).length = rows.length := by
  induction rows generalizing index first with
  | nil => rfl
  | cons row rows ih => rw [place, List.length_cons, ih, List.length_cons]

/-- A placed row is its row with the start of its block. -/
theorem place_getElem {α : Type} (index first : ℕ) {i : ℕ} {rows : List (OrientedRow α)}
    (h : i < (place index first rows).length) (h' : i < rows.length) :
    (place index first rows)[i] =
      ⟨rows[i], index + i, first + offset (rows.map (·.sign.ownWidth)) i⟩ := by
  induction rows generalizing index first i with
  | nil => simp at h'
  | cons row rows ih =>
    cases i with
    | zero => simp [place]
    | succ i =>
      have hi : i < rows.length := by simpa using h'
      simp only [place, List.getElem_cons_succ, List.map_cons, offset_cons_succ]
      rw [ih _ _ (by simpa using hi) hi]
      simp [Nat.add_assoc, Nat.add_comm 1 i]

section Blocks

variable {α : Type} {index first : ℕ} {rows : List (OrientedRow α)} {p : PlacedRow α}

theorem first_le_of_mem_place (hp : p ∈ place index first rows) : first ≤ p.first := by
  induction rows generalizing index first with
  | nil => cases hp
  | cons row rows ih =>
    rcases List.mem_cons.mp hp with rfl | hrest
    · exact le_refl _
    · exact le_trans (Nat.le_add_right _ _) (ih hrest)

theorem first_add_le_of_mem_place (hp : p ∈ place index first rows) :
    p.first + p.row.sign.ownWidth ≤ first + (rows.map (·.sign.ownWidth)).sum := by
  induction rows generalizing index first with
  | nil => cases hp
  | cons row rows ih =>
    rw [List.map_cons, List.sum_cons, ← Nat.add_assoc]
    rcases List.mem_cons.mp hp with rfl | hrest
    · exact Nat.le_add_right _ _
    · exact ih hrest

/-- **The blocks of own columns follow one another.** -/
theorem pairwise_place (index first : ℕ) (rows : List (OrientedRow α)) :
    (place index first rows).Pairwise fun p q => p.first + p.row.sign.ownWidth ≤ q.first := by
  induction rows generalizing index first with
  | nil => exact .nil
  | cons row rows ih => exact .cons (fun q hq => first_le_of_mem_place hq) (ih _ _)

end Blocks

theorem length_ownNames {α : Type} (placed : PlacedRow α) :
    placed.ownNames.length = placed.row.sign.ownWidth := by
  unfold PlacedRow.ownNames Relation.ownWidth
  cases placed.row.sign <;> rfl

theorem length_flatMap_ownNames {α : Type} (index first : ℕ) (rows : List (OrientedRow α)) :
    ((place index first rows).flatMap PlacedRow.ownNames).length =
      (rows.map (·.sign.ownWidth)).sum := by
  induction rows generalizing index first with
  | nil => rfl
  | cons row rows ih =>
    rw [place, List.flatMap_cons, List.length_append, ih, length_ownNames, List.map_cons,
      List.sum_cons]

theorem length_columnNames (kind : Kind) (name : String) :
    (Kind.columnNames name kind).length = kind.width := by
  cases kind <;> rfl

theorem length_structuralNames {β : Type} {kinds : List Kind} {declared : List (String × β)}
    (h : declared.length = kinds.length) :
    (List.zipWith (fun kind (name, _) => Kind.columnNames name kind) kinds
      declared).flatten.length =
      structuralWidth kinds := by
  induction kinds generalizing declared with
  | nil => simp [structuralWidth]
  | cons kind kinds ih =>
    obtain ⟨d, declared, rfl⟩ : ∃ d rest, declared = d :: rest :=
      List.exists_cons_of_length_pos (by rw [h]; simp)
    have hlen : declared.length = kinds.length := by simpa using h
    have hrest := ih hlen
    rw [List.zipWith_cons_cons, List.flatten_cons, List.length_append, hrest, length_columnNames]
    simp [structuralWidth]

/-! ## Building -/

namespace StandardForm

variable {opts : Options ℚ} {model : Model ℚ}

theorem readVariable_eq (hsized : model.Sized) {j : ℕ} (hj : j < model.variableCount) :
    readVariable model (model.kinds.getD j .free) j =
      .ok (model.names.getD j "", model.boundRow? j) := by
  unfold readVariable Model.boundRow?
  rw [position_get_eq (by rw [hsized.names]; exact hj) ""]
  change (if model.kinds.getD j .free = .bin then _ else _) = _
  split
  · have hwrite : (Position.write (zeros model.variableCount : List ℚ) (j : ℤ) 1 :
        Except (Fault ℚ) (List ℚ)) = .ok ((zeros model.variableCount).set j 1) := by
      rw [Position.write, Position.resolve_natCast (by simpa using hj)]
    rw [hwrite]
    rfl
  · rfl

theorem readRow_eq (hsized : model.Sized) {i : ℕ} (hi : i < model.rowCount) :
    readRow model (entry model.rhs i) i = .ok (model.statedRow i) := by
  unfold readRow
  rw [position_get_eq (by rw [hsized.rows]; exact hi) [],
    position_get_eq (by rw [hsized.signs]; exact hi) .eq]
  rfl

/-- Every stated row has a coefficient for each variable. -/
theorem length_coefficients (hsized : model.Sized) {row : StatedRow ℚ}
    (h : row ∈ model.statedRows) :
    row.coefficients.length = model.variableCount := by
  rcases List.mem_append.mp h with hmodel | hbound
  · obtain ⟨i, hi, rfl⟩ := List.mem_map.mp hmodel
    have hi' : i < model.rows.length := by rw [hsized.rows]; simpa using hi
    exact hsized.row _ (Dense.rowAt_mem hi')
  · obtain ⟨j, -, hj⟩ := List.mem_filterMap.mp hbound
    unfold Model.boundRow? at hj
    split at hj
    · obtain rfl := Option.some.inj hj
      simp
    · simp at hj

theorem mapM_readVariable (hsized : model.Sized) :
    (model.kinds.zipIdx.mapM fun (kind, j) => readVariable model kind j) = .ok model.declared := by
  rw [zipIdx_eq_map_range _ .free, hsized.kinds,
    mapM_eq_ok (g := fun e => (model.names.getD e.2 "", model.boundRow? e.2)), List.map_map]
  · rfl
  · intro e he
    obtain ⟨j, hj, rfl⟩ := List.mem_map.mp he
    exact readVariable_eq hsized (by simpa using hj)

theorem mapM_readRow (hsized : model.Sized) :
    (model.rhs.zipIdx.mapM fun (rhs, i) => readRow model rhs i) =
      .ok ((List.range model.rowCount).map model.statedRow) := by
  rw [zipIdx_eq_map_range _ 0, mapM_eq_ok (g := fun e => model.statedRow e.2), List.map_map]
  · rfl
  · intro e he
    obtain ⟨i, hi, rfl⟩ := List.mem_map.mp he
    exact readRow_eq hsized (by simpa [Model.rowCount] using hi)

theorem length_components (hsized : model.Sized) :
    model.components.length = model.variableCount := by
  rw [Model.components, length_componentsFrom, hsized.kinds]

theorem mapM_orient (hsized : model.Sized) :
    ((List.range model.rowCount).map model.statedRow ++ model.declared.filterMap (·.2)).mapM
      (StatedRow.orient model.components) = .ok model.orientedRows := by
  have hbounds : model.declared.filterMap (·.2) =
      (List.range model.variableCount).filterMap model.boundRow? := by
    rw [Model.declared, List.filterMap_map]
    rfl
  rw [hbounds]
  refine mapM_eq_ok (l := model.statedRows) fun row hrow => orient_eq ?_
  rw [length_coefficients hsized hrow, length_components hsized]

theorem length_structuralNames_eq (hsized : model.Sized) :
    model.structuralNames.length = structuralWidth model.kinds :=
  length_structuralNames (by simp [Model.declared, hsized.kinds])

/-- **Building the standard form of a valid model does not fail.** -/
theorem build_eq (opts : Options ℚ) (hvalid : model.Valid) :
    build opts model = .ok (model.standardForm opts) := by
  have hsized := hvalid.sized
  have hcosts : structuralRow model.components (model.costs.map (model.sense.factor * ·)) =
      .ok model.costEntries :=
    structuralRow_eq (by rw [List.length_map, length_components hsized]; rfl)
  have hguard : ¬ model.components.length < model.costs.length := by
    rw [length_components hsized]
    exact lt_irrefl _
  have hwidth : model.structuralNames.length +
      ((place 0 model.structuralNames.length model.orientedRows).flatMap
        PlacedRow.ownNames).length =
        model.formWidth := by
    rw [length_flatMap_ownNames, length_structuralNames_eq hsized]
    rfl
  -- the stages of the build in turn, each with the answer it gives
  unfold build
  rw [mapM_readVariable hsized]
  change (if model.components.length < model.costs.length then _ else _) = _
  rw [if_neg hguard]
  change (structuralRow model.components (model.costs.map (model.sense.factor * ·)) >>= _) = _
  rw [hcosts]
  change ((model.rhs.zipIdx.mapM fun (rhs, i) => readRow model rhs i) >>= _) = _
  rw [mapM_readRow hsized]
  change (((List.range model.rowCount).map model.statedRow ++ model.declared.filterMap (·.2)).mapM
      (StatedRow.orient model.components) >>= _) = _
  rw [mapM_orient hsized]
  change Except.ok (assemble opts model model.structuralNames model.components
    (scatter (zeros (model.structuralNames.length +
      ((place 0 model.structuralNames.length model.orientedRows).flatMap
        PlacedRow.ownNames).length))
        model.costEntries) (place 0 model.structuralNames.length model.orientedRows)) = _
  rw [hwidth, length_structuralNames_eq hsized]
  rfl

end StandardForm

/-! ## Rows and their own columns -/

namespace Model

variable (model : Model ℚ)

/-- The first own column of row `i`. -/
def ownColumn (i : ℕ) : ℕ := structuralWidth model.kinds + offset model.ownWidths i

variable {model} {p q : PlacedRow ℚ}

/-- The rows of the model are the first stated ones. -/
theorem statedRows_getElem {i : ℕ} (hi : i < model.rowCount) (h : i < model.statedRows.length) :
    model.statedRows[i] = model.statedRow i := by
  simp [statedRows, hi]

theorem lt_length_statedRows {i : ℕ} (hi : i < model.rowCount) : i < model.statedRows.length := by
  rw [statedRows, List.length_append, List.length_map, List.length_range]
  exact Nat.lt_add_right _ hi

@[simp] theorem length_placedRows : model.placedRows.length = model.statedRows.length := by
  simp [placedRows, orientedRows]

@[simp] theorem length_ownWidths : model.ownWidths.length = model.statedRows.length := by
  simp [ownWidths, orientedRows]

/-- Row `i` as it is placed. -/
theorem placedRows_getElem {i : ℕ} (h : i < model.placedRows.length)
    (h' : i < model.statedRows.length) :
    model.placedRows[i] =
      ⟨model.statedRows[i].oriented model.components, i, model.ownColumn i⟩ := by
  have hget := place_getElem 0 (structuralWidth model.kinds) h (by simpa [orientedRows] using h')
  refine Eq.trans hget ?_
  simp [orientedRows, ownColumn, ownWidths]

/-- A placed row is a stated row, oriented, with the start of its block. -/
theorem exists_of_mem_placedRows (hp : p ∈ model.placedRows) :
    ∃ h : p.index < model.statedRows.length,
      p.row = model.statedRows[p.index].oriented model.components ∧
      p.first = model.ownColumn p.index := by
  obtain ⟨i, hi, rfl⟩ := List.getElem_of_mem hp
  have hi' : i < model.statedRows.length := by simpa using hi
  rw [placedRows_getElem hi hi']
  exact ⟨hi', rfl, rfl⟩

theorem index_lt (hp : p ∈ model.placedRows) : p.index < model.statedRows.length :=
  (exists_of_mem_placedRows hp).1

/-- A placed row is found at its number. -/
theorem placedRows_index (hp : p ∈ model.placedRows) :
    model.placedRows[p.index]? = some p := by
  obtain ⟨i, hi, rfl⟩ := List.getElem_of_mem hp
  have hi' : i < model.statedRows.length := by simpa using hi
  have hindex : model.placedRows[i].index = i := by rw [placedRows_getElem hi hi']
  rw [hindex, List.getElem?_eq_getElem hi]

theorem eq_of_index_eq (hp : p ∈ model.placedRows) (hq : q ∈ model.placedRows)
    (h : p.index = q.index) : p = q := by
  have := placedRows_index hp
  rw [h, placedRows_index hq] at this
  exact (Option.some.inj this).symm

/-- Every row has its place. -/
theorem exists_placed {i : ℕ} (hi : i < model.statedRows.length) :
    ∃ p ∈ model.placedRows, p.index = i ∧
      p.row = model.statedRows[i].oriented model.components := by
  refine ⟨_, List.getElem_mem (by simpa using hi), ?_, ?_⟩ <;> rw [placedRows_getElem _ hi]

theorem ownWidth_eq (hp : p ∈ model.placedRows) :
    model.ownWidths.getD p.index 0 = p.row.sign.ownWidth := by
  obtain ⟨hi, hrow, -⟩ := exists_of_mem_placedRows hp
  rw [hrow]
  simp [ownWidths, orientedRows, hi]

/-- The own columns come behind the structural ones. -/
theorem structuralWidth_le_first (hp : p ∈ model.placedRows) :
    structuralWidth model.kinds ≤ p.first := first_le_of_mem_place hp

/-- The own columns are columns of the form. -/
theorem first_add_le_formWidth (hp : p ∈ model.placedRows) :
    p.first + p.row.sign.ownWidth ≤ model.formWidth := first_add_le_of_mem_place hp

end Model

namespace PlacedRow

variable {α : Type} [Scalar α] {p : PlacedRow α}

/-- The entries of a row in its own columns lie in its block. -/
theorem key_of_mem_ownEntries {e : ℕ × α} (h : e ∈ p.ownEntries) :
    p.first ≤ e.1 ∧ e.1 < p.first + p.row.sign.ownWidth := by
  unfold ownEntries at h
  cases hsign : p.row.sign <;> simp only [hsign, List.mem_cons, List.not_mem_nil, or_false] at h
  case ge => rcases h with rfl | rfl <;> simp [Relation.ownWidth]
  all_goals
    subst h
    simp [Relation.ownWidth]

theorem nodup_ownEntries : (p.ownEntries.map (·.1)).Nodup := by
  unfold ownEntries
  cases p.row.sign <;> simp

/-- The basic column of a row is one of its own, with a one in it. -/
theorem basic_mem_ownEntries : (p.basic, 1) ∈ p.ownEntries := by
  unfold basic ownEntries
  cases p.row.sign <;> simp

omit [Scalar α] in
/-- An artificial column is the basic one of its row. -/
theorem basic_eq_of_artificial {k : ℕ} (h : p.artificial = some k) : p.basic = k := by
  unfold artificial at h
  unfold basic
  cases hsign : p.row.sign <;> simp_all

end PlacedRow

/-- **An own column of a row is in no other row**, where the entries of the rows come before the own
columns. -/
theorem notMem_keys_place {α : Type} [Scalar α] {index first i l k : ℕ}
    {rows : List (OrientedRow α)}
    (hkeys : ∀ p ∈ place index first rows, ∀ e ∈ p.row.entries, e.1 < first)
    (hi : i < (place index first rows).length) (hl : l < (place index first rows).length)
    (hne : i ≠ l) (hk : (place index first rows)[i].first ≤ k ∧
      k < (place index first rows)[i].first + (place index first rows)[i].row.sign.ownWidth) :
    k ∉ ((place index first rows)[l].row.entries ++
      (place index first rows)[l].ownEntries).map (·.1) := by
  intro hmem
  obtain ⟨e, he, rfl⟩ := List.mem_map.mp hmem
  rcases List.mem_append.mp he with hentry | hown
  · have h1 := hkeys _ (List.getElem_mem hl) e hentry
    have h2 := first_le_of_mem_place (List.getElem_mem hi)
    omega
  · -- own columns of two rows lie in blocks that do not meet
    have hblock := PlacedRow.key_of_mem_ownEntries hown
    have hblocks := List.pairwise_iff_getElem.mp (pairwise_place index first rows)
    rcases Nat.lt_or_gt_of_ne hne with hlt | hgt
    · have := hblocks i l hi hl hlt
      omega
    · have := hblocks l i hl hi hgt
      omega

namespace Model

variable {model : Model ℚ} {p q : PlacedRow ℚ}

theorem key_lt_of_mem_entries (hp : p ∈ model.placedRows) {e : ℕ × ℚ} (he : e ∈ p.row.entries) :
    e.1 < structuralWidth model.kinds := by
  obtain ⟨_, hrow, -⟩ := exists_of_mem_placedRows hp
  have hkey : e.1 ∈ p.row.entries.map (·.1) := List.mem_map_of_mem he
  rw [hrow, StatedRow.keys_oriented] at hkey
  exact key_lt_of_mem_structuralEntries hkey

/-- **No column is listed twice in a placed row.** -/
theorem nodup_keys (hp : p ∈ model.placedRows) :
    ((p.row.entries ++ p.ownEntries).map (·.1)).Nodup := by
  have hentries : (p.row.entries.map (·.1)).Nodup := by
    obtain ⟨_, hrow, -⟩ := exists_of_mem_placedRows hp
    rw [hrow, StatedRow.keys_oriented]
    exact nodup_structuralEntries _ _
  rw [List.map_append, List.nodup_append]
  refine ⟨hentries, PlacedRow.nodup_ownEntries, ?_⟩
  intro a ha b hb
  obtain ⟨e, he, rfl⟩ := List.mem_map.mp ha
  obtain ⟨f, hf, rfl⟩ := List.mem_map.mp hb
  have h1 := key_lt_of_mem_entries hp he
  have h2 := structuralWidth_le_first hp
  have h3 := (PlacedRow.key_of_mem_ownEntries hf).1
  omega

theorem key_lt_formWidth (hp : p ∈ model.placedRows) {e : ℕ × ℚ}
    (he : e ∈ p.row.entries ++ p.ownEntries) :
    e.1 < model.formWidth := by
  rcases List.mem_append.mp he with hentry | hown
  · have h1 := key_lt_of_mem_entries hp hentry
    have h2 : structuralWidth model.kinds ≤ model.formWidth := Nat.le_add_right _ _
    omega
  · have h1 := (PlacedRow.key_of_mem_ownEntries hown).2
    have h2 := first_add_le_formWidth hp
    omega

theorem basic_lt_formWidth (hp : p ∈ model.placedRows) : p.basic < model.formWidth :=
  key_lt_formWidth hp (List.mem_append_right _ PlacedRow.basic_mem_ownEntries)

/-- The basic column of a row is in no other row. -/
theorem basic_notMem_keys (hp : p ∈ model.placedRows) (hq : q ∈ model.placedRows)
    (hne : p.index ≠ q.index) : q.basic ∉ (p.row.entries ++ p.ownEntries).map (·.1) := by
  obtain ⟨l, hl, rfl⟩ := List.getElem_of_mem hp
  obtain ⟨i, hi, rfl⟩ := List.getElem_of_mem hq
  have hil : i ≠ l := fun heq => hne (by subst heq; rfl)
  exact notMem_keys_place (fun p hp e he => key_lt_of_mem_entries hp he) hi hl hil
    (PlacedRow.key_of_mem_ownEntries PlacedRow.basic_mem_ownEntries)

end Model

end LinOpt
