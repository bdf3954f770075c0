import LinOpt.Proofs.StandardForm.Labels
import LinOpt.Proofs.Simplex.Solution
/-!
# The continuous relaxation has the same standard form

The bound of a binary variable is written in two places: the standard form of a model adds a row for
it, and so does the relaxation of the model, which asks for no whole numbers any more. Both add the
same rows in the same order (`rows_alike`), so the two standard forms differ in the names and the
sources of their rows only (`build_relaxed`), and the two runs show the same events and end alike
(`run_relaxed`). Nothing here uses a law of the arithmetic.
-/

namespace LinOpt

variable {α : Type} [Scalar α]

/-! ## Kinds -/

namespace Kind

theorem relaxed_ne_bin (kind : Kind) : kind.relaxed ≠ .bin := by
  cases kind <;> simp [relaxed, isInteger]

@[simp] theorem parts_relaxed (first : ℕ) (kind : Kind) :
    (kind.relaxed.parts first : List (ℕ × α)) = kind.parts first := by
  cases kind <;> rfl

@[simp] theorem width_relaxed (kind : Kind) : kind.relaxed.width = kind.width := by
  cases kind <;> rfl

@[simp] theorem columnNames_relaxed (name : String) (kind : Kind) :
    kind.relaxed.columnNames name = kind.columnNames name := by
  cases kind <;> rfl

end Kind

theorem componentsFrom_relaxed (first : ℕ) (kinds : List Kind) :
    (componentsFrom first (kinds.map Kind.relaxed) : Components α) = componentsFrom first kinds := by
  induction kinds generalizing first with
  | nil => rfl
  | cons kind kinds ih =>
    rw [List.map_cons, componentsFrom, componentsFrom, ih, Kind.parts_relaxed, Kind.width_relaxed]

/-! ## Rows over the structural columns -/

/-- The row without its name and its source. -/
def StatedRow.blank (row : StatedRow α) : StatedRow α := { row with name := "", source := .model }

section Orient

variable {components : Components α}

theorem exists_structuralRow {coefficients : List α}
    (h : coefficients.length ≤ components.length) :
    ∃ entries, structuralRow components coefficients = .ok entries := by
  refine ⟨_, foldlM_eq_ok (g := fun entries e =>
    if e.1 == 0 then entries
    else (components.getD e.2 []).foldl
      (fun entries part => addEntry part.1 (e.1 * part.2) entries) entries)
    (fun e he entries => ?_) []⟩
  obtain ⟨coef, j⟩ := e
  have hj : j < components.length := by
    have := (List.mem_zipIdx' he).1
    omega
  dsimp only
  split
  · rfl
  · rw [position_get_eq hj []]
    rfl

/-- A row is written over the columns without a look at its name and its source. -/
theorem exists_orient {row : StatedRow α} (h : row.coefficients.length ≤ components.length) :
    ∃ entries sign rhs flipped, ∀ name source,
      ({ row with name, source } : StatedRow α).orient components =
        .ok ⟨name, source, entries, sign, rhs, flipped⟩ := by
  obtain ⟨entries, hentries⟩ := exists_structuralRow h
  by_cases hneg : row.rhs < 0
  · refine ⟨entries.map fun e => (e.1, -e.2), row.sign.flip, -row.rhs, true, fun name source => ?_⟩
    rw [StatedRow.orient, hentries, ok_bind, if_pos hneg]
    rfl
  · refine ⟨entries, row.sign, row.rhs, false, fun name source => ?_⟩
    rw [StatedRow.orient, hentries, ok_bind, if_neg hneg]
    rfl

/-- **Rows that are stated alike are written alike over the columns**, each with its own labels. -/
theorem exists_mapM_orient {rows others : List (StatedRow α)}
    (h : others.map StatedRow.blank = rows.map StatedRow.blank)
    (hlen : ∀ row ∈ rows, row.coefficients.length ≤ components.length) :
    ∃ oriented oriented', rows.mapM (StatedRow.orient components) = .ok oriented ∧
      others.mapM (StatedRow.orient components) = .ok oriented' ∧
      oriented'.map OrientedRow.blank = oriented.map OrientedRow.blank ∧
      oriented'.map (·.flipped) = oriented.map (·.flipped) ∧
      oriented'.map (·.name) = others.map (·.name) ∧
      oriented'.map (·.source) = others.map (·.source) := by
  induction rows generalizing others with
  | nil =>
    obtain rfl : others = [] := by simpa using h
    exact ⟨[], [], rfl, rfl, rfl, rfl, rfl, rfl⟩
  | cons row rows ih =>
    obtain ⟨other, others, rfl⟩ : ∃ other rest, others = other :: rest :=
      List.exists_cons_of_length_pos (by have := congrArg List.length h; simp at this; omega)
    obtain ⟨hhead, htail⟩ : other.blank = row.blank ∧
        others.map StatedRow.blank = rows.map StatedRow.blank := by simpa using h
    obtain ⟨oriented, oriented', hrows, hothers, hblank, hflipped, hname, hsource⟩ :=
      ih htail fun r hr => hlen r (List.mem_cons_of_mem _ hr)
    obtain ⟨entries, sign, rhs, flipped, horient⟩ := exists_orient (hlen row List.mem_cons_self)
    have hother : other = { row with name := other.name, source := other.source } := by
      cases row
      cases other
      simpa [StatedRow.blank] using hhead
    have hrow := horient row.name row.source
    have horient' := horient other.name other.source
    rw [← hother] at horient'
    refine ⟨⟨row.name, row.source, entries, sign, rhs, flipped⟩ :: oriented,
      ⟨other.name, other.source, entries, sign, rhs, flipped⟩ :: oriented', ?_, ?_, ?_, ?_, ?_, ?_⟩
    · rw [List.mapM_cons, hrow, ok_bind, hrows]
      rfl
    · rw [List.mapM_cons, horient', ok_bind, hothers]
      rfl
    all_goals simp [hblank, hflipped, hname, hsource, OrientedRow.blank]

end Orient

/-! ## The relaxation of a model -/

namespace Model

variable (model : Model α)

/-- The coefficients of variable `j` alone. -/
def unitRow (j : ℕ) : List α := (zeros model.variableCount).set j 1

/-- What the relaxation of a model is. -/
def relaxation : Model α :=
  { model with
    rows := model.rows ++ model.binaryIndices.map model.unitRow
    rhs := model.rhs ++ model.binaryIndices.map fun _ => 1
    signs := model.signs ++ model.binaryIndices.map fun _ => .le
    kinds := model.kinds.map Kind.relaxed }

variable {model}

@[simp] theorem length_unitRow (j : ℕ) : (model.unitRow j).length = model.variableCount := by
  simp [unitRow, zeros]

theorem write_unit {j : ℕ} (hj : j < model.variableCount) :
    (Position.write (zeros model.variableCount) (j : ℤ) 1 : Except (Fault α) (List α)) =
      .ok (model.unitRow j) := by
  rw [Position.write, Position.resolve_natCast (by simpa [zeros] using hj)]
  rfl

omit [Scalar α] in
theorem lt_of_mem_binaryIndices (hsized : model.Sized) {j : ℕ} (hj : j ∈ model.binaryIndices) :
    j < model.variableCount := by
  rw [← hsized.kinds]
  exact List.mem_range.mp (List.mem_filter.mp hj).1

/-- The relaxation adds one bound after the other. -/
theorem relaxed_eq_ok (hsized : model.Sized) : model.relaxed = .ok model.relaxation := by
  have hfold : ∀ (places : List ℕ) (current : Model α),
      current.variableCount = model.variableCount → (∀ j ∈ places, j < model.variableCount) →
      places.foldlM (fun (current : Model α) (j : ℕ) => current.withBound j 1 true) current =
        (.ok { current with
          rows := current.rows ++ places.map model.unitRow
          rhs := current.rhs ++ places.map fun _ => 1
          signs := current.signs ++ places.map fun _ => .le } : Except (Fault α) (Model α)) := by
    intro places
    induction places with
    | nil =>
      intro current _ _
      simp [pure, Except.pure]
    | cons j places ih =>
      intro current hcount hlt
      have hj := hlt j List.mem_cons_self
      have hadd : current.withBound j 1 true = (.ok { current with
          rows := current.rows ++ [model.unitRow j]
          rhs := current.rhs ++ [1]
          signs := current.signs ++ [.le] } : Except (Fault α) (Model α)) := by
        rw [withBound, hcount, write_unit hj, ok_bind, withRow, if_neg (by simp [hcount])]
        rfl
      rw [List.foldlM_cons, hadd, ok_bind, ih]
      · simp
      · exact hcount
      · exact fun k hk => hlt k (List.mem_cons_of_mem _ hk)
  exact hfold model.binaryIndices _ rfl fun j hj => lt_of_mem_binaryIndices hsized hj

/-! ## What the two standard forms read -/

/-- Row `i` of the model, as it is stated. -/
def rowFor (model : Model α) (rhs : α) (i : ℕ) : StatedRow α :=
  ⟨s!"c{i + 1}", model.rows.getD i [], model.signs.getD i .eq, rhs, .model⟩

/-- The row that bounds variable `j` by one. -/
def capFor (model : Model α) (j : ℕ) : StatedRow α :=
  let name := model.names.getD j ""
  ⟨s!"bound_{name}_ub", model.unitRow j, .le, 1, .bound⟩

/-- What is read of variable `j` of the given kind. -/
def declaration (model : Model α) (kind : Kind) (j : ℕ) : String × Option (StatedRow α) :=
  (model.names.getD j "", if kind = .bin then some (model.capFor j) else none)

theorem mapM_readVariable_eq (hsized : model.Sized) :
    (model.kinds.zipIdx.mapM fun (kind, j) => StandardForm.readVariable model kind j) =
      .ok (model.kinds.zipIdx.map fun (kind, j) => model.declaration kind j) := by
  refine mapM_eq_ok fun e he => ?_
  obtain ⟨kind, j⟩ := e
  have hj : j < model.variableCount := hsized.kinds ▸ (List.mem_zipIdx' he).1
  dsimp only [StandardForm.readVariable, declaration]
  rw [position_get_eq (by rw [hsized.names]; exact hj) "", ok_bind]
  split
  · rw [write_unit hj]
    rfl
  · rfl

omit [Scalar α] in
theorem mapM_readRow_eq (hsized : model.Sized) :
    (model.rhs.zipIdx.mapM fun (rhs, i) => StandardForm.readRow model rhs i) =
      .ok (model.rhs.zipIdx.map fun (rhs, i) => model.rowFor rhs i) := by
  refine mapM_eq_ok fun e he => ?_
  obtain ⟨rhs, i⟩ := e
  have hi : i < model.rowCount := (List.mem_zipIdx' he).1
  dsimp only [StandardForm.readRow]
  rw [position_get_eq (by rw [hsized.rows]; exact hi) [], ok_bind,
    position_get_eq (by rw [hsized.signs]; exact hi) .eq]
  rfl

theorem declarations_relaxation :
    model.relaxation.kinds.zipIdx.map (fun (kind, j) => model.relaxation.declaration kind j) =
      model.kinds.zipIdx.map fun (_, j) => (model.names.getD j "", none) := by
  refine List.ext_getElem (by simp [relaxation]) fun j hj hj' => ?_
  simp [relaxation, declaration, Kind.relaxed_ne_bin]
  rfl

/-- The names of the structural columns. -/
def columnLabels (model : Model α) : List String :=
  (List.zipWith (fun kind (name, _) => Kind.columnNames name kind) model.kinds
    (model.kinds.zipIdx.map fun (kind, j) => model.declaration kind j)).flatten

theorem columnLabels_relaxation : model.relaxation.columnLabels = model.columnLabels := by
  unfold columnLabels
  rw [declarations_relaxation]
  congr 1
  refine List.ext_getElem (by simp [relaxation]) fun j hj hj' => ?_
  simp [relaxation, declaration]

/-- The rows that a standard form is made of. -/
def formRows (model : Model α) : List (StatedRow α) :=
  (model.rhs.zipIdx.map fun (rhs, i) => model.rowFor rhs i) ++
    (model.kinds.zipIdx.map fun (kind, j) => model.declaration kind j).filterMap (·.2)

theorem formRows_eq (model : Model α) :
    model.formRows = (model.rhs.zipIdx.map fun (rhs, i) => model.rowFor rhs i) ++
      model.binaryIndices.map model.capFor := by
  have hcaps : (model.kinds.zipIdx.map fun (kind, j) => model.declaration kind j).filterMap (·.2) =
      model.binaryIndices.map model.capFor := by
    rw [zipIdx_eq_map_range _ .free, List.map_map, List.filterMap_map, binaryIndices,
      ← List.filterMap_eq_map, List.filterMap_filter]
    refine List.filterMap_congr fun j _ => ?_
    simp [declaration]
  rw [formRows, hcaps]

/-- No row of the relaxation is a bound of its standard form. -/
theorem formRows_relaxation (model : Model α) :
    model.relaxation.formRows =
      model.relaxation.rhs.zipIdx.map fun (rhs, i) => model.relaxation.rowFor rhs i := by
  rw [formRows, declarations_relaxation]
  simp

theorem names_formRows_relaxation (model : Model α) :
    model.relaxation.formRows.map (·.name) =
      (List.range model.relaxation.formRows.length).map fun i => s!"c{i + 1}" := by
  rw [formRows_relaxation, zipIdx_eq_map_range _ 0]
  simp [rowFor]

theorem sources_formRows_relaxation (model : Model α) :
    model.relaxation.formRows.map (·.source) =
      List.replicate model.relaxation.formRows.length .model := by
  rw [formRows_relaxation]
  refine List.eq_replicate_iff.mpr ⟨by simp, fun source hsource => ?_⟩
  obtain ⟨row, hrow, rfl⟩ := List.mem_map.mp hsource
  obtain ⟨e, -, rfl⟩ := List.mem_map.mp hrow
  rfl

/-- **Both standard forms are made of the same rows**, but for their names and sources. -/
theorem rows_alike (hsized : model.Sized) :
    model.relaxation.formRows.map StatedRow.blank = model.formRows.map StatedRow.blank := by
  have hrhs : model.relaxation.rhs = model.rhs ++ model.binaryIndices.map fun _ => 1 := rfl
  rw [formRows_relaxation, formRows_eq, hrhs, List.zipIdx_append, Nat.zero_add,
    List.map_append, List.map_append, List.map_append]
  congr 1
  · -- a row of the model stands where it stood
    rw [List.map_map, List.map_map]
    refine List.map_congr_left fun e he => ?_
    have hi : e.2 < model.rowCount := (List.mem_zipIdx' he).1
    have hrow : e.2 < model.rows.length := hsized.rows ▸ hi
    have hsign : e.2 < model.signs.length := hsized.signs ▸ hi
    simp [rowFor, relaxation, StatedRow.blank, List.getElem?_append_left hrow,
      List.getElem?_append_left hsign]
  · -- and a bound stands behind them
    refine List.ext_getElem (by simp) fun k hk hk' => ?_
    have hlt : k < model.binaryIndices.length := by simpa using hk
    have hrow : model.relaxation.rows.getD (model.rowCount + k) [] =
        model.unitRow model.binaryIndices[k] := by
      simp [relaxation, ← hsized.rows, hlt]
    have hsign : model.relaxation.signs.getD (model.rowCount + k) .eq = .le := by
      simp [relaxation, ← hsized.signs, hlt]
    simp only [List.getElem_map, List.getElem_zipIdx, StatedRow.blank, rowFor, capFor,
      StatedRow.mk.injEq, true_and, and_true]
    exact ⟨hrow, hsign⟩

theorem length_coefficients_of_mem_formRows (hsized : model.Sized) {row : StatedRow α}
    (h : row ∈ model.formRows) : row.coefficients.length = model.variableCount := by
  rw [formRows_eq] at h
  rcases List.mem_append.mp h with hrow | hcap
  · obtain ⟨e, he, rfl⟩ := List.mem_map.mp hrow
    have hi : e.2 < model.rows.length := hsized.rows ▸ (List.mem_zipIdx' he).1
    have hget : model.rows.getD e.2 [] = model.rows[e.2] := by simp [hi]
    exact (congrArg List.length hget).trans (hsized.row _ (List.getElem_mem hi))
  · obtain ⟨j, -, rfl⟩ := List.mem_map.mp hcap
    exact length_unitRow j

end Model

/-! ## The two standard forms -/

namespace StandardForm

variable {opts : Options α} {model : Model α}

/-- The form with its rows numbered through as rows of the model. -/
def numbered (form : StandardForm α) : StandardForm α :=
  { form with
    rowNames := (List.range form.height).map fun i => s!"c{i + 1}"
    rowSources := List.replicate form.height .model }

/-- The costs of the structural columns, and zeros for the own columns of the rows. -/
def objectiveOf (model : Model α) (costEntries : List (ℕ × α)) (oriented : List (OrientedRow α)) :
    List α :=
  scatter (zeros (model.columnLabels.length +
    ((place 0 model.columnLabels.length oriented).flatMap PlacedRow.ownNames).length)) costEntries

theorem exists_costEntries (hsized : model.Sized) :
    ∃ entries, structuralRow (componentsFrom 0 model.kinds)
      (model.costs.map (model.sense.factor * ·)) = .ok entries := by
  refine exists_structuralRow ?_
  rw [length_componentsFrom, hsized.kinds, List.length_map]
  exact le_refl _

/-- What is built from costs and rows that have been written over the structural columns. -/
theorem build_eq_assemble (opts : Options α) (hsized : model.Sized) {costEntries : List (ℕ × α)}
    {oriented : List (OrientedRow α)}
    (hcosts : structuralRow (componentsFrom 0 model.kinds) (model.costs.map (model.sense.factor * ·)) =
      .ok costEntries)
    (hrows : model.formRows.mapM (StatedRow.orient (componentsFrom 0 model.kinds)) = .ok oriented) :
    build opts model = .ok (assemble opts model model.columnLabels (componentsFrom 0 model.kinds)
      (objectiveOf model costEntries oriented) (place 0 model.columnLabels.length oriented)) := by
  have hguard : ¬ (componentsFrom 0 model.kinds : Components α).length < model.costs.length := by
    rw [length_componentsFrom, hsized.kinds]
    exact lt_irrefl _
  rw [build, Model.mapM_readVariable_eq hsized, ok_bind]
  dsimp only
  rw [if_neg hguard, hcosts, ok_bind, Model.mapM_readRow_eq hsized, ok_bind]
  change model.formRows.mapM (StatedRow.orient (componentsFrom 0 model.kinds)) >>= _ = _
  rw [hrows]
  rfl

omit [Scalar α] in
/-- Rows that are the same without their labels have own columns of the same names. -/
theorem flatMap_ownNames_eq {rows others : List (OrientedRow α)} (index first : ℕ)
    (h : others.map OrientedRow.blank = rows.map OrientedRow.blank) :
    (place index first others).flatMap PlacedRow.ownNames =
      (place index first rows).flatMap PlacedRow.ownNames := by
  have hblank : ∀ rows : List (OrientedRow α),
      (place index first (rows.map OrientedRow.blank)).flatMap PlacedRow.ownNames =
        (place index first rows).flatMap PlacedRow.ownNames := by
    intro rows
    rw [place_blank, List.flatMap_map]
    rfl
  rw [← hblank others, h, hblank rows]

theorem sized_relaxation (hsized : model.Sized) : model.relaxation.Sized where
  rows := by simp [Model.relaxation, Model.rowCount, hsized.rows]
  row := by
    intro row hrow
    rcases List.mem_append.mp hrow with hold | hnew
    · exact hsized.row row hold
    · obtain ⟨j, -, rfl⟩ := List.mem_map.mp hnew
      exact Model.length_unitRow j
  signs := by simp [Model.relaxation, Model.rowCount, hsized.signs]
  kinds := (List.length_map _).trans hsized.kinds
  names := hsized.names

/-- **A model and its relaxation have one standard form**, but for the names and the sources of its
rows. -/
theorem build_relaxed (opts : Options α) (hsized : model.Sized) :
    ∃ form, build opts model = .ok form ∧ form.variableNames = model.names ∧
      form.components.length = model.variableCount ∧
      build opts model.relaxation = .ok form.numbered := by
  have hcomponents : (componentsFrom 0 model.relaxation.kinds : Components α) =
      componentsFrom 0 model.kinds := componentsFrom_relaxed 0 model.kinds
  have hlength : (componentsFrom 0 model.kinds : Components α).length = model.variableCount :=
    (length_componentsFrom 0 model.kinds).trans hsized.kinds
  have hcoefficients : ∀ row ∈ model.formRows,
      row.coefficients.length ≤ (componentsFrom 0 model.kinds : Components α).length := by
    intro row hrow
    rw [Model.length_coefficients_of_mem_formRows hsized hrow, hlength]
  obtain ⟨costEntries, hcosts⟩ := exists_costEntries hsized
  obtain ⟨oriented, oriented', hrows, hothers, hblank, hflipped, hname, hsource⟩ :=
    exists_mapM_orient (Model.rows_alike hsized) hcoefficients
  have hbuild := build_eq_assemble opts hsized hcosts hrows
  have hheight : model.relaxation.formRows.length = oriented.length := by
    have hnames := congrArg List.length hname
    have hsame := congrArg List.length hblank
    simp only [List.length_map] at hnames hsame
    omega
  refine ⟨_, hbuild, rfl, hlength, ?_⟩
  have hcosts' : structuralRow (componentsFrom 0 model.relaxation.kinds)
      (model.relaxation.costs.map (model.relaxation.sense.factor * ·)) = .ok costEntries := by
    rw [hcomponents]
    exact hcosts
  rw [← hcomponents] at hothers
  rw [build_eq_assemble opts (sized_relaxation hsized) hcosts' hothers, hcomponents, objectiveOf,
    Model.columnLabels_relaxation, flatMap_ownNames_eq 0 _ hblank,
    assemble_eq_relabel opts model model.relaxation _ _ _ 0 _ rfl hblank, hname, hsource, hflipped,
    Model.names_formRows_relaxation, Model.sources_formRows_relaxation, hheight]
  simp only [relabel, numbered, height, assemble, objectiveOf, List.length_map, length_place,
    map_row_place]
  rfl

end StandardForm

/-! ## The two runs -/

namespace Simplex

variable {opts : Options α} {model : Model α} {form : StandardForm α}

section Answers

variable (hcomponents : form.components.length = model.variableCount)
  (hnames : form.variableNames.length = model.variableCount)

include hcomponents hnames

/-- The last basis can be read where every variable has its columns and its name. -/
theorem exists_outcome_finish (observer : Observer) (terminal : Terminal α) :
    ∃ done, (finish observer opts model form terminal).outcome = .ok done := by
  have hlength : (reconstruct form.components (columnValues opts form terminal)).length =
      model.costs.length := by
    rw [reconstruct, List.length_map]
    exact hcomponents
  unfold finish
  dsimp only
  split
  · rw [Traced.outcome_bind, outcome_line]
    exact ⟨_, rfl⟩
  · rw [Traced.outcome_bind, dotAligned, if_pos hlength.symm]
    change ∃ done, (observer.line _ >>= fun _ => _).outcome = .ok done
    rw [Traced.outcome_bind, outcome_line]
    change ∃ done, (observer.vector _ _ _ >>= fun _ => _).outcome = .ok done
    rw [Traced.outcome_bind, outcome_vector]
    · exact ⟨_, rfl⟩
    · intro _
      rw [hlength, hnames]
      exact le_refl _

/-- A run on a model whose standard form can be built answers. -/
theorem exists_outcome_run (observer : Observer) (hbuild : StandardForm.build opts model = .ok form) :
    ∃ done, (run observer opts model).outcome = .ok done := by
  rw [run, Traced.outcome_bind, outcome_header, ok_bind, hbuild]
  dsimp only
  rw [Traced.outcome_bind, Traced.outcome_attempt, ok_bind]
  cases (pivotToEnd observer opts form).outcome with
  | error cause =>
    change ∃ done, (observer.line _ >>= fun _ => _).outcome = .ok done
    rw [Traced.outcome_bind, outcome_line]
    exact ⟨_, rfl⟩
  | ok terminal => exact exists_outcome_finish hcomponents hnames observer terminal

end Answers

/-- **A model and its continuous relaxation are solved alike**, in any arithmetic and by either
method. The relaxation exists; both have one standard form, but for the names and the sources of its
rows; and the two runs show an observer the same events and end with the same result at the same
basis. -/
theorem run_relaxed (observer : Observer) (opts : Options α) (hvalid : model.Valid) :
    ∃ relaxed form done, model.relaxed = .ok relaxed ∧
      StandardForm.build opts model = .ok form ∧
      StandardForm.build opts relaxed = .ok form.numbered ∧
      (run observer opts model).outcome = .ok done ∧
      (run observer opts relaxed).outcome =
        .ok { done with model := relaxed, form := some form.numbered } ∧
      (run observer opts relaxed).events = (run observer opts model).events := by
  have hsized := hvalid.sized
  obtain ⟨form, hbuild, hnames, hcomponents, hrelaxed⟩ := StandardForm.build_relaxed opts hsized
  obtain ⟨done, hdone⟩ := exists_outcome_run hcomponents (by rw [hnames]; exact hsized.names)
    observer hbuild
  have hother : StandardForm.build opts model.relaxation =
      .ok (form.relabel _ _ form.flipped form.sense) := hrelaxed
  obtain ⟨hevents, houtcome⟩ := echoes_run observer hbuild hother rfl
  rw [hdone] at houtcome
  exact ⟨model.relaxation, form, done, Model.relaxed_eq_ok hsized, hbuild, hrelaxed, hdone,
    houtcome, hevents⟩

/-- Maximise `3 u + 2 v` under `2 u + v ≤ 4` and `v ≥ 1`, with `u` binary and `v` whole. -/
def binaryModel : Model ℚ :=
  { sense := .max, rows := [[2, 1], [0, 1]], rhs := [4, 1], costs := [3, 2], signs := [.le, .ge]
    kinds := [.bin, .int] }

/-- The relaxation of `binaryModel` has its optimum. -/
theorem run_relaxed_binaryModel :
    binaryModel.Valid ∧ Reports {} binaryModel [0, 4] ∧
      ∃ relaxed, binaryModel.relaxed = .ok relaxed ∧ Reports {} relaxed [0, 4] := by
  have hvalid : binaryModel.Valid := by decide
  have hreports : Reports {} binaryModel [0, 4] := by decide +kernel
  obtain ⟨relaxed, form, done, hrelaxed, -, -, hdone, hother, -⟩ :=
    run_relaxed .silent {} hvalid
  obtain ⟨done', hdone', hstatus, hsolution⟩ := hreports
  obtain rfl := Except.ok.inj (hdone.symm.trans hdone')
  exact ⟨hvalid, ⟨done, hdone, hstatus, hsolution⟩, relaxed, hrelaxed, _, hother, hstatus,
    hsolution⟩

end Simplex

end LinOpt
