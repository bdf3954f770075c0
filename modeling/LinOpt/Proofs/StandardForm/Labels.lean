import LinOpt.Simplex.Solve
/-!
# The labels of a standard form

A standard form carries labels that its pivots never read: the names and the sources of its rows,
which rows have been negated, and the sense. `StandardForm.relabel` exchanges them. Rows that are
the same without their labels give forms that differ in their labels only (`assemble_eq_relabel`),
and such forms are pivoted alike, in any arithmetic and event by event (`pivotToEnd_relabel`). A run
on the one `Echoes` a run on the other, where the costs are the same.
-/

namespace LinOpt

variable {α : Type}

/-! ## Rows without labels -/

/-- The row without its name, its source and whether it has been negated. -/
def OrientedRow.blank (row : OrientedRow α) : OrientedRow α :=
  { row with name := "", source := .model, flipped := false }

/-- The placed row without the labels of its row. -/
def PlacedRow.blank (placed : PlacedRow α) : PlacedRow α := { placed with row := placed.row.blank }

theorem place_blank (index first : Nat) (rows : List (OrientedRow α)) :
    place index first (rows.map OrientedRow.blank) =
      (place index first rows).map PlacedRow.blank := by
  induction rows generalizing index first with
  | nil => rfl
  | cons row rows ih =>
    rw [List.map_cons, place, place, List.map_cons, ih]
    rfl

/-- Placing does not touch the rows. -/
theorem map_row_place {β : Type} (read : OrientedRow α → β) (index first : Nat)
    (rows : List (OrientedRow α)) :
    (place index first rows).map (fun p => read p.row) = rows.map read := by
  induction rows generalizing index first with
  | nil => rfl
  | cons row rows ih => rw [place, List.map_cons, List.map_cons, ih]

/-! ## Computations that echo each other -/

namespace Traced

variable {β γ δ : Type}

/-- **The second computation echoes the first**: it emits the same events, and its answer is `f` of
the answer of the first. -/
def Echoes (f : β → γ) (first : Traced α β) (second : Traced α γ) : Prop :=
  second.events = first.events ∧ second.outcome = first.outcome.map f

theorem echoes_pure (f : β → γ) (value : β) :
    Echoes f (pure value : Traced α β) (pure (f value)) := ⟨rfl, rfl⟩

/-- What goes on alike after the same start echoes. -/
theorem echoes_bind {f : β → γ} (start : Traced α δ) {first : δ → Traced α β}
    {second : δ → Traced α γ} (h : ∀ value, Echoes f (first value) (second value)) :
    Echoes f (start >>= first) (start >>= second) := by
  obtain ⟨events, outcome⟩ := start
  cases outcome with
  | error cause => exact ⟨rfl, rfl⟩
  | ok value =>
    obtain ⟨hevents, houtcome⟩ := h value
    exact ⟨congrArg (events ++ ·) hevents, houtcome⟩

theorem echoes_ite {f : β → γ} (P : Prop) [Decidable P] {first first' : Traced α β}
    {second second' : Traced α γ} (h : Echoes f first second) (h' : Echoes f first' second') :
    Echoes f (if P then first else first') (if P then second else second') := by
  split
  · exact h
  · exact h'

end Traced

variable [Scalar α]

namespace StandardForm

/-! ## Forms that differ in their labels -/

/-- The form with other labels. -/
def relabel (form : StandardForm α) (rowNames : List String) (rowSources : List RowSource)
    (flipped : List Bool) (sense : Sense) : StandardForm α :=
  { form with rowNames, rowSources, flipped, sense }

/-- The form without labels. -/
def unlabelled (form : StandardForm α) : StandardForm α := form.relabel [] [] [] .max

/-- The labels of the rows reach the labels of the form and nothing else. -/
theorem unlabelled_assemble_blank (opts : Options α) (model : Model α) (names : List String)
    (components : Components α) (objective : List α) (placed : List (PlacedRow α)) :
    (assemble opts model names components objective (placed.map PlacedRow.blank)).unlabelled =
      (assemble opts model names components objective placed).unlabelled := by
  simp only [assemble, unlabelled, relabel, List.map_map, List.filterMap_map, List.flatMap_map]
  rfl

/-- **Rows that are the same without their labels give forms that differ in their labels only.** -/
theorem assemble_eq_relabel (opts : Options α) (model other : Model α) (names : List String)
    (components : Components α) (objective : List α) {rows others : List (OrientedRow α)}
    (index first : Nat) (hnames : other.names = model.names)
    (h : others.map OrientedRow.blank = rows.map OrientedRow.blank) :
    assemble opts other names components objective (place index first others) =
      (assemble opts model names components objective (place index first rows)).relabel
        (others.map (·.name)) (others.map (·.source)) (others.map (·.flipped)) other.sense := by
  have hlabels : assemble opts other names components objective (place index first others) =
      (assemble opts model names components objective (place index first others)).unlabelled.relabel
        (others.map (·.name)) (others.map (·.source)) (others.map (·.flipped)) other.sense := by
    simp only [assemble, unlabelled, relabel, hnames, map_row_place]
  rw [hlabels, ← unlabelled_assemble_blank, ← place_blank, h, place_blank,
    unlabelled_assemble_blank]
  rfl

/-! ## Pivoting -/

variable (form : StandardForm α) (rowNames : List String) (rowSources : List RowSource)
  (flipped : List Bool) (sense : Sense)

theorem revisedLoop_relabel (observer : Observer) (opts : Options α) (budget made : Nat)
    (basis : List Nat) :
    revisedLoop observer opts (form.relabel rowNames rowSources flipped sense) budget made basis =
      revisedLoop observer opts form budget made basis := by
  induction budget generalizing made basis with
  | zero =>
    unfold revisedLoop
    rfl
  | succ budget ih =>
    unfold revisedLoop
    simp only [ih]
    rfl

/-- **No pivot reads the labels of a form.** -/
theorem pivotToEnd_relabel (observer : Observer) (opts : Options α) :
    Simplex.pivotToEnd observer opts (form.relabel rowNames rowSources flipped sense) =
      Simplex.pivotToEnd observer opts form := by
  have hiterate : Simplex.iterate observer opts (form.relabel rowNames rowSources flipped sense) =
      Simplex.iterate observer opts form := by
    unfold Simplex.iterate
    cases opts.method with
    | tableau => rfl
    | revised => exact form.revisedLoop_relabel rowNames rowSources flipped sense observer opts _ _ _
  unfold Simplex.pivotToEnd
  rw [hiterate]
  rfl

end StandardForm

/-! ## Runs -/

namespace Simplex

variable {opts : Options α} {model other : Model α} {form : StandardForm α}

/-- The last basis is read alike, whatever the labels. -/
theorem echoes_finish (observer : Observer) (rowNames : List String)
    (rowSources : List RowSource) (flipped : List Bool) (sense : Sense) (terminal : Terminal α)
    (hcosts : other.costs = model.costs) :
    Traced.Echoes (fun done : Run α => { done with
        model := other, form := some (form.relabel rowNames rowSources flipped sense) })
      (finish observer opts model form terminal)
      (finish observer opts other (form.relabel rowNames rowSources flipped sense) terminal) := by
  unfold finish
  rw [hcosts]
  refine Traced.echoes_ite _ ?_ ?_
  · exact Traced.echoes_bind _ fun _ => Traced.echoes_pure _ _
  · refine Traced.echoes_bind _ fun objective => ?_
    refine Traced.echoes_bind _ fun _ => ?_
    exact Traced.echoes_bind _ fun _ => Traced.echoes_pure _ _

/-- **Runs on forms that differ in their labels echo each other**, where the costs are the same. -/
theorem echoes_run (observer : Observer) (hbuild : StandardForm.build opts model = .ok form)
    {rowNames : List String} {rowSources : List RowSource} {flipped : List Bool} {sense : Sense}
    (hother : StandardForm.build opts other = .ok (form.relabel rowNames rowSources flipped sense))
    (hcosts : other.costs = model.costs) :
    Traced.Echoes (fun done : Run α => { done with
        model := other, form := some (form.relabel rowNames rowSources flipped sense) })
      (run observer opts model) (run observer opts other) := by
  unfold run
  refine Traced.echoes_bind _ fun _ => ?_
  rw [hbuild, hother]
  dsimp only
  rw [StandardForm.pivotToEnd_relabel]
  refine Traced.echoes_bind _ fun ended => ?_
  cases ended with
  | error cause => exact Traced.echoes_bind _ fun _ => Traced.echoes_pure _ _
  | ok terminal => exact echoes_finish observer rowNames rowSources flipped sense terminal hcosts

end Simplex

end LinOpt
