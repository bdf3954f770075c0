import LinOpt.Proofs.StandardForm.Relaxation
/-!
# Standard forms are well formed

A standard form is a record of lists that run side by side: some have an entry for each row, some one
for each column, and some list columns. They are filled row by row, each row with columns of its own, and
everything that pivots or explains a form reads them at places that it takes from one another.
`StandardForm.WellFormed` says what such a reader relies on, and `build_wellFormed` that the form of every
valid model has it, in any arithmetic. Two facts are behind it. A list with an entry for each own column
has at the block of a row what the row has there (`getElem?_flatMap_place`); and as the blocks do not
meet, an own column is in its row only (`column_place`).

Over the rationals no right-hand side is negative, so that the basis at the start is a point: the one that
has the right-hand sides in its basic columns (`StandardForm.startingPoint`).
-/

namespace LinOpt

variable {α : Type} [Scalar α]

/-! ## Well-formed forms -/

namespace StandardForm

/-- The column has `value` in row `i` and zero in every other row. -/
def OnlyIn (form : StandardForm α) (i k : ℕ) (value : α) : Prop :=
  form.rows.column k = (zeros form.height).set i value

/-- **The lists of a standard form fit one another** and the model that the form is built from. -/
structure WellFormed (opts : Options α) (model : Model α) (form : StandardForm α) : Prop where
  /-- There is a row for each row of the model, and one more for each binary variable. -/
  height_eq : form.height = model.rowCount + model.kinds.count .bin
  rowSources_eq : form.rowSources = List.replicate model.rowCount .model ++
    List.replicate (model.kinds.count .bin) .bound
  length_rhs : form.rhs.length = form.height
  length_basis : form.basis.length = form.height
  length_rowSlack : form.rowSlack.length = form.height
  length_row : ∀ row ∈ form.rows, row.length = form.width
  length_columnNames : form.columnNames.length = form.width
  length_columnTypes : form.columnTypes.length = form.width
  /-- The structural columns are the first ones. -/
  structurals_first : form.structurals = List.range form.structurals.length
  structurals_eq : form.structurals = form.columnTypes.idxsOf .structural
  artificials_eq : form.artificials = form.columnTypes.idxsOf .artificial
  slacks_eq : form.slacks = form.columnTypes.idxsOf .slack
  length_components : form.components.length = model.variableCount
  /-- Each structural column is in one entry of one variable. -/
  keys_components : form.components.flatten.map (·.1) = form.structurals
  /-- Where no variable is free, column `j` is the one column of variable `j`. -/
  components_eq : .free ∉ model.kinds →
    ∀ j < model.variableCount, ∃ sign, form.components[j]? = some [(j, sign)]
  basis_increasing : form.basis.Pairwise (· < ·)
  /-- A row starts with its own slack in the basis, or with its own artificial. -/
  basic : ∀ i k, form.basis[i]? = some k → form.OnlyIn i k 1 ∧
    (form.columnTypes[k]? = some .slack ∧ form.columnNames[k]? = some s!"s{i + 1}" ∨
      form.columnTypes[k]? = some .artificial ∧ form.columnNames[k]? = some s!"a{i + 1}")
  slack : ∀ i k sign, form.rowSlack[i]? = some (some (k, sign)) → form.OnlyIn i k sign ∧
    (form.columnTypes[k]? = some .slack ∧ sign = 1 ∨
      form.columnTypes[k]? = some .surplus ∧ sign = -1)
  /-- The rows without a slack or surplus are the equations. -/
  noSlack_iff : ∀ i < form.height, form.rowSlack[i]? = some none ↔ model.signs[i]? = some .eq
  artificial_cost : ∀ k ∈ form.artificials, entry form.costs k = -opts.bigM
  own_cost : ∀ k, form.columnTypes[k]? = some .slack ∨ form.columnTypes[k]? = some .surplus →
    entry form.costs k = 0

end StandardForm

/-! ## The own columns of placed rows -/

namespace Relation

theorem length_ownTypes (sign : Relation) : sign.ownTypes.length = sign.ownWidth := by
  cases sign <;> rfl

theorem ownWidth_pos (sign : Relation) : 0 < sign.ownWidth := by
  cases sign <;> simp [ownWidth]

theorem flip_eq_eq_iff (sign : Relation) : sign.flip = .eq ↔ sign = .eq := by
  cases sign <;> simp [flip]

theorem isKnown_flip (sign : Relation) : sign.flip.isKnown = sign.isKnown := by
  cases sign <;> rfl

end Relation

namespace PlacedRow

variable {p : PlacedRow α} {k : ℕ} {sign : α}

omit [Scalar α] in
/-- The basic column of a row is its slack or its artificial. -/
theorem exists_basic (p : PlacedRow α) : ∃ t < p.row.sign.ownWidth, p.basic = p.first + t ∧
    (p.row.sign.ownTypes[t]? = some .slack ∧ p.ownNames[t]? = some s!"s{p.index + 1}" ∨
      p.row.sign.ownTypes[t]? = some .artificial ∧ p.ownNames[t]? = some s!"a{p.index + 1}") := by
  unfold basic ownNames
  cases p.row.sign
  case le => exact ⟨0, Nat.zero_lt_one, rfl, Or.inl ⟨rfl, rfl⟩⟩
  case ge => exact ⟨1, Nat.one_lt_two, rfl, Or.inr ⟨rfl, rfl⟩⟩
  all_goals exact ⟨0, Nat.zero_lt_one, rfl, Or.inr ⟨rfl, rfl⟩⟩

theorem slack_mem_ownEntries (h : p.slack = some (k, sign)) : (k, sign) ∈ p.ownEntries := by
  unfold slack at h
  unfold ownEntries
  cases hsign : p.row.sign <;> simp only [hsign, Option.some.injEq, reduceCtorEq] at h ⊢
  all_goals exact h ▸ List.mem_cons_self

/-- A slack has the sign one in its row, and a surplus the sign minus one. -/
theorem slack_cases (h : p.slack = some (k, sign)) : k = p.first ∧
    (p.row.sign.ownTypes[0]? = some .slack ∧ sign = 1 ∨
      p.row.sign.ownTypes[0]? = some .surplus ∧ sign = -1) := by
  unfold slack at h
  cases hsign : p.row.sign <;>
    simp only [hsign, Option.some.injEq, Prod.mk.injEq, reduceCtorEq] at h
  case le => exact ⟨h.1.symm, Or.inl ⟨rfl, h.2.symm⟩⟩
  case ge => exact ⟨h.1.symm, Or.inr ⟨rfl, h.2.symm⟩⟩

theorem slack_eq_none_iff (hknown : p.row.sign.isKnown) : p.slack = none ↔ p.row.sign = .eq := by
  unfold slack
  cases hsign : p.row.sign <;> simp [hsign, Relation.isKnown] at hknown ⊢

end PlacedRow

section Place

variable {index first n : ℕ} {rows : List (OrientedRow α)} {p : PlacedRow α}

omit [Scalar α] in
theorem index_of_getElem?_place {i : ℕ} (h : (place 0 first rows)[i]? = some p) : p.index = i := by
  obtain ⟨hi, rfl⟩ := List.getElem?_eq_some_iff.mp h
  rw [place_getElem 0 first hi (by simpa using hi)]
  exact Nat.zero_add i

omit [Scalar α] in
theorem length_flatMap_ownTypes (index first : ℕ) (rows : List (OrientedRow α)) :
    ((place index first rows).flatMap (·.row.sign.ownTypes)).length =
      (rows.map (·.sign.ownWidth)).sum := by
  simp only [List.length_flatMap, Relation.length_ownTypes]
  rw [map_row_place (fun row => row.sign.ownWidth)]

omit [Scalar α] in
/-- **A list with an entry for each own column has at a block what the row has there.** -/
theorem getElem?_flatMap_place {β : Type} {read : PlacedRow α → List β} {start : List β} {t : ℕ}
    (hread : ∀ p, (read p).length = p.row.sign.ownWidth) (hstart : start.length = first)
    (hp : p ∈ place index first rows) (ht : t < p.row.sign.ownWidth) :
    (start ++ (place index first rows).flatMap read)[p.first + t]? = (read p)[t]? := by
  induction rows generalizing index first start with
  | nil => cases hp
  | cons row rows ih =>
    have hnext : (start ++ read ⟨row, index, first⟩).length = first + row.sign.ownWidth := by
      rw [List.length_append, hstart, hread]
    rw [place, List.flatMap_cons, ← List.append_assoc]
    rcases List.mem_cons.mp hp with rfl | hrest
    · rw [List.getElem?_append_left (by rw [hnext]; exact Nat.add_lt_add_left ht _),
        List.getElem?_append_right (by rw [hstart]; exact Nat.le_add_right _ _), hstart,
        Nat.add_sub_cancel_left]
    · exact ih hnext hrest

/-- A constant list is made of the constant. -/
theorem idxsOf_replicate_self (type : ColumnType) (start n : ℕ) :
    (List.replicate n type).idxsOf type start = List.range' start n := by
  induction n generalizing start with
  | zero => rfl
  | succ n ih => rw [List.replicate_succ, List.idxsOf_cons, if_pos (beq_self_eq_true _), ih]; rfl

omit [Scalar α] in
/-- The own columns that are read off each row by their type are the columns of the type. -/
theorem filterMap_place {read : PlacedRow α → Option ℕ} {type : ColumnType}
    (hread : ∀ p, (read p).toList = p.row.sign.ownTypes.idxsOf type p.first)
    (index first : ℕ) (rows : List (OrientedRow α)) :
    (place index first rows).filterMap read =
      ((place index first rows).flatMap (·.row.sign.ownTypes)).idxsOf type first := by
  induction rows generalizing index first with
  | nil => rfl
  | cons row rows ih =>
    have hhead : (place index first (row :: rows)).filterMap read =
        (read ⟨row, index, first⟩).toList ++
          (place (index + 1) (first + row.sign.ownWidth) rows).filterMap read := by
      rw [place, List.filterMap_cons]
      cases read ⟨row, index, first⟩ <;> rfl
    rw [hhead, hread, ih, place, List.flatMap_cons, List.idxsOf_append, Relation.length_ownTypes]

/-- **An own column is in its row only.** -/
theorem column_place (hkeys : ∀ p ∈ place index first rows, ∀ e ∈ p.row.entries, e.1 < first)
    (hn : first + (rows.map (·.sign.ownWidth)).sum ≤ n) {i k : ℕ} {value : α}
    (hi : i < (place index first rows).length)
    (he : (k, value) ∈ (place index first rows)[i].ownEntries) :
    Dense.column ((place index first rows).map fun p =>
        scatter (zeros n) (p.row.entries ++ p.ownEntries)) k =
      (zeros (place index first rows).length).set i value := by
  have hkey := PlacedRow.key_of_mem_ownEntries he
  have hlt : k < n :=
    lt_of_lt_of_le hkey.2 (le_trans (first_add_le_of_mem_place (List.getElem_mem hi)) hn)
  refine List.ext_getElem (by simp [Dense.column]) fun l hl _ => ?_
  rw [Dense.column, List.length_map, List.length_map] at hl
  simp only [Dense.column, List.getElem_map, List.getElem_set]
  split
  · rename_i hil
    obtain rfl := hil
    rw [scatter_append]
    exact entry_scatter_of_mem PlacedRow.nodup_ownEntries (by simpa using hlt) he
  · rename_i hne
    rw [entry_scatter_of_notMem (notMem_keys_place hkeys hi hl hne hkey), entry_zeros_eq]
    simp [zeros]

end Place

/-! ## The rows of a form -/

namespace Model

variable {model : Model α}

omit [Scalar α] in
theorem length_binaryIndices (model : Model α) :
    model.binaryIndices.length = model.kinds.count .bin := by
  have hkinds : model.kinds = (List.range model.kinds.length).map (model.kinds.getD · .free) := by
    refine List.ext_getElem (by simp) fun j hj _ => ?_
    simp [hj]
  conv_rhs => rw [hkinds, List.count_eq_countP, List.countP_map]
  exact List.countP_eq_length_filter.symm

theorem length_formRows (model : Model α) :
    model.formRows.length = model.rowCount + model.kinds.count .bin := by
  rw [formRows_eq, List.length_append, List.length_map, List.length_zipIdx, List.length_map,
    length_binaryIndices]
  rfl

theorem sources_formRows (model : Model α) : model.formRows.map (·.source) =
    List.replicate model.rowCount .model ++ List.replicate (model.kinds.count .bin) .bound := by
  have hrows : (fun row : StatedRow α => row.source) ∘ (fun e : α × ℕ => model.rowFor e.1 e.2) =
      Function.const _ .model := rfl
  have hcaps : (fun row : StatedRow α => row.source) ∘ model.capFor =
      Function.const _ .bound := rfl
  rw [formRows_eq, List.map_append, List.map_map, List.map_map, hrows, hcaps, List.map_const,
    List.map_const, List.length_zipIdx, length_binaryIndices]
  rfl

/-- The rows of the model keep their relations, and the bounds are `≤`. -/
theorem signs_formRows (hsized : model.Sized) : model.formRows.map (·.sign) =
    model.signs ++ List.replicate (model.kinds.count .bin) .le := by
  have hcaps : (fun row : StatedRow α => row.sign) ∘ model.capFor = Function.const _ .le := rfl
  rw [formRows_eq, List.map_append, List.map_map, List.map_map, hcaps, List.map_const,
    length_binaryIndices]
  congr 1
  refine List.ext_getElem (by simpa [rowCount] using hsized.signs.symm) fun i _ hi => ?_
  simp [rowFor, hi]

/-- A row of the form is an equation where the model has an equation in its place. -/
theorem sign_formRows_eq_iff (hsized : model.Sized) {i : ℕ} (hi : i < model.formRows.length) :
    model.formRows[i].sign = .eq ↔ model.signs[i]? = some .eq := by
  have hget : (model.signs ++ List.replicate (model.kinds.count .bin) .le)[i]? =
      some model.formRows[i].sign := by
    rw [← signs_formRows hsized, List.getElem?_map, List.getElem?_eq_getElem hi, Option.map_some]
  rcases Nat.lt_or_ge i model.signs.length with hlt | hge
  · rw [List.getElem?_append_left hlt] at hget
    rw [hget, Option.some.injEq]
  · rw [List.getElem?_append_right hge, List.getElem?_replicate] at hget
    rw [List.getElem?_eq_none hge]
    split at hget
    · rw [← Option.some.inj hget]
      simp
    · cases hget

theorem isKnown_of_mem_formRows (hvalid : model.Valid) {row : StatedRow α}
    (h : row ∈ model.formRows) : row.sign.isKnown := by
  have hmem : row.sign ∈ model.formRows.map (·.sign) := List.mem_map_of_mem h
  rw [signs_formRows hvalid.sized] at hmem
  rcases List.mem_append.mp hmem with hsign | hle
  · exact List.all_eq_true.mp hvalid.signs _ hsign
  · rw [List.eq_of_mem_replicate hle]
    rfl

theorem length_columnLabels (model : Model α) :
    model.columnLabels.length = structuralWidth model.kinds :=
  length_structuralNames (by simp)

end Model

/-- What orientation answers: the row as it is stated, or with everything negated. -/
theorem StatedRow.orient_cases {components : Components α} {row : StatedRow α}
    {oriented : OrientedRow α} (h : row.orient components = .ok oriented) :
    ∃ entries, structuralRow components row.coefficients = .ok entries ∧
      (oriented = ⟨row.name, row.source, entries.map fun (k, v) => (k, -v), row.sign.flip, -row.rhs,
          true⟩ ∨
        oriented = ⟨row.name, row.source, entries, row.sign, row.rhs, false⟩) := by
  unfold StatedRow.orient at h
  cases hentries : structuralRow components row.coefficients with
  | error cause =>
    rw [hentries] at h
    cases h
  | ok entries =>
    rw [hentries, ok_bind] at h
    refine ⟨entries, rfl, ?_⟩
    split at h
    · exact Or.inl (Except.ok.inj h).symm
    · exact Or.inr (Except.ok.inj h).symm

/-- What an oriented row keeps of the row that it comes from, over the columns of the given kinds. -/
structure OrientedRow.Restates (kinds : List Kind) (row : StatedRow α) (oriented : OrientedRow α) :
    Prop where
  source_eq : oriented.source = row.source
  equation_iff : oriented.sign = .eq ↔ row.sign = .eq
  isKnown_eq : oriented.sign.isKnown = row.sign.isKnown
  /-- The entries are in structural columns. -/
  key_lt : ∀ e ∈ oriented.entries, e.1 < structuralWidth kinds

theorem StatedRow.restates_of_orient {kinds : List Kind} {row : StatedRow α}
    {oriented : OrientedRow α} (h : row.orient (componentsFrom 0 kinds) = .ok oriented) :
    oriented.Restates kinds row := by
  obtain ⟨entries, hentries, horiented⟩ := StatedRow.orient_cases h
  have hkeys : ∀ e ∈ entries, e.1 < structuralWidth kinds := fun e he =>
    key_lt_of_mem_structuralRow hentries (List.mem_map_of_mem he)
  rcases horiented with rfl | rfl
  · refine ⟨rfl, Relation.flip_eq_eq_iff _, Relation.isKnown_flip _, fun e he => ?_⟩
    obtain ⟨e', he', rfl⟩ := List.mem_map.mp he
    exact hkeys e' he'
  · exact ⟨rfl, Iff.rfl, rfl, hkeys⟩

/-! ## Assembling -/

theorem getElem?_componentsFrom {kinds : List Kind} (hfree : .free ∉ kinds) (first : ℕ) {j : ℕ}
    (hj : j < kinds.length) :
    ∃ sign, (componentsFrom first kinds : Components α)[j]? = some [(first + j, sign)] := by
  induction kinds generalizing first j with
  | nil => cases hj
  | cons kind kinds ih =>
    obtain ⟨hne, hrest⟩ : .free ≠ kind ∧ .free ∉ kinds := by simpa using hfree
    obtain ⟨hwidth, sign, hparts⟩ : kind.width = 1 ∧
        ∃ sign : α, kind.parts first = [(first, sign)] := by
      cases kind
      case free => exact absurd rfl hne
      all_goals exact ⟨rfl, _, rfl⟩
    cases j with
    | zero => exact ⟨sign, congrArg some hparts⟩
    | succ j =>
      rw [componentsFrom, List.getElem?_cons_succ, hwidth, Nat.add_comm j, ← Nat.add_assoc]
      exact ih hrest (first + 1) (by simpa using hj)

namespace StandardForm

variable {opts : Options α} {model : Model α} {costEntries : List (ℕ × α)}
  {oriented : List (OrientedRow α)}

/-- The form of a model whose costs and rows have been written over the structural columns. -/
def assembled (opts : Options α) (model : Model α) (costEntries : List (ℕ × α))
    (oriented : List (OrientedRow α)) : StandardForm α :=
  assemble opts model model.columnLabels (componentsFrom 0 model.kinds)
    (objectiveOf model costEntries oriented) (place 0 model.columnLabels.length oriented)

theorem length_objectiveOf : (objectiveOf model costEntries oriented).length =
    model.columnLabels.length + (oriented.map (·.sign.ownWidth)).sum := by
  rw [objectiveOf, length_scatter, length_zeros, length_flatMap_ownNames]

theorem width_assembled : (assembled opts model costEntries oriented).width =
    model.columnLabels.length + (oriented.map (·.sign.ownWidth)).sum := by
  simp [assembled, width, assemble, length_objectiveOf]

theorem length_columnTypes_assembled :
    (assembled opts model costEntries oriented).columnTypes.length =
      model.columnLabels.length + (oriented.map (·.sign.ownWidth)).sum := by
  change (List.replicate _ _ ++ (place 0 model.columnLabels.length oriented).flatMap _).length = _
  rw [List.length_append, List.length_replicate, length_flatMap_ownTypes]

theorem height_assembled : (assembled opts model costEntries oriented).height = oriented.length := by
  simp [assembled, height, assemble]

theorem columnTypes_own {p : PlacedRow α} {t : ℕ}
    (hp : p ∈ place 0 model.columnLabels.length oriented) (ht : t < p.row.sign.ownWidth) :
    (assembled opts model costEntries oriented).columnTypes[p.first + t]? =
      p.row.sign.ownTypes[t]? :=
  getElem?_flatMap_place (fun _ => Relation.length_ownTypes _) List.length_replicate hp ht

theorem columnNames_own {p : PlacedRow α} {t : ℕ}
    (hp : p ∈ place 0 model.columnLabels.length oriented) (ht : t < p.row.sign.ownWidth) :
    (assembled opts model costEntries oriented).columnNames[p.first + t]? = p.ownNames[t]? :=
  getElem?_flatMap_place length_ownNames rfl hp ht

/-- The columns of a type, as they are read off the rows. -/
theorem idxsOf_columnTypes {type : ColumnType} (htype : type ≠ .structural)
    {read : PlacedRow α → Option ℕ}
    (hread : ∀ p, (read p).toList = p.row.sign.ownTypes.idxsOf type p.first) :
    (assembled opts model costEntries oriented).columnTypes.idxsOf type =
      (place 0 model.columnLabels.length oriented).filterMap read := by
  have hnone : (List.replicate model.columnLabels.length ColumnType.structural).idxsOf type = [] := by
    refine List.idxsOf_eq_nil_iff.mpr fun other hother => ?_
    rw [List.eq_of_mem_replicate hother]
    exact beq_false_of_ne htype.symm
  change (List.replicate model.columnLabels.length ColumnType.structural ++ _).idxsOf type = _
  rw [List.idxsOf_append, hnone, List.nil_append, List.length_replicate, Nat.zero_add,
    filterMap_place hread]

theorem structurals_assembled : (assembled opts model costEntries oriented).structurals =
    (assembled opts model costEntries oriented).columnTypes.idxsOf .structural := by
  have hnone : ((place 0 model.columnLabels.length oriented).flatMap
      (·.row.sign.ownTypes)).idxsOf .structural model.columnLabels.length = [] := by
    refine List.idxsOf_eq_nil_iff.mpr fun type htype => ?_
    obtain ⟨p, -, hmem⟩ := List.mem_flatMap.mp htype
    unfold Relation.ownTypes at hmem
    cases hsign : p.row.sign <;> simp only [hsign, List.mem_cons, List.not_mem_nil, or_false] at hmem
    case ge => rcases hmem with rfl | rfl <;> rfl
    all_goals exact hmem ▸ rfl
  change List.range model.columnLabels.length =
    (List.replicate model.columnLabels.length ColumnType.structural ++ _).idxsOf .structural
  rw [List.idxsOf_append, idxsOf_replicate_self, List.length_replicate, Nat.zero_add, hnone,
    List.append_nil, List.range_eq_range']

theorem artificials_assembled : (assembled opts model costEntries oriented).artificials =
    (assembled opts model costEntries oriented).columnTypes.idxsOf .artificial := by
  have hread : ∀ p : PlacedRow α,
      p.artificial.toList = p.row.sign.ownTypes.idxsOf .artificial p.first := by
    intro p
    unfold PlacedRow.artificial Relation.ownTypes
    cases p.row.sign <;> rfl
  exact (idxsOf_columnTypes (by simp) hread).symm

theorem slacks_assembled : (assembled opts model costEntries oriented).slacks =
    (assembled opts model costEntries oriented).columnTypes.idxsOf .slack := by
  have hread : ∀ p : PlacedRow α,
      p.slackOnly.toList = p.row.sign.ownTypes.idxsOf .slack p.first := by
    intro p
    unfold PlacedRow.slackOnly Relation.ownTypes
    cases p.row.sign <;> rfl
  exact (idxsOf_columnTypes (by simp) hread).symm

section Answers

variable (hrows : model.formRows.mapM (StatedRow.orient (componentsFrom 0 model.kinds)) = .ok oriented)

include hrows

theorem length_oriented : oriented.length = model.rowCount + model.kinds.count .bin := by
  rw [← (forall₂_of_mapM_eq_ok hrows).length_eq, Model.length_formRows]

/-- An oriented row has the place of the row that it comes from. -/
theorem restates_getElem {i : ℕ} (hi : i < oriented.length) :
    ∃ hi' : i < model.formRows.length, oriented[i].Restates model.kinds model.formRows[i] := by
  have hi' : i < model.formRows.length := by
    rwa [Model.length_formRows, ← length_oriented hrows]
  exact ⟨hi', StatedRow.restates_of_orient
    ((List.forall₂_iff_get.mp (forall₂_of_mapM_eq_ok hrows)).2 i hi' hi)⟩

theorem sources_oriented : oriented.map (·.source) = model.formRows.map (·.source) := by
  refine List.ext_getElem (by simp [length_oriented hrows, Model.length_formRows]) fun i hi _ => ?_
  rw [List.length_map] at hi
  obtain ⟨_, hrow⟩ := restates_getElem hrows hi
  rw [List.getElem_map, List.getElem_map]
  exact hrow.source_eq

/-- The entries of the rows are in structural columns. -/
theorem key_lt_of_mem_placed {p : PlacedRow α}
    (hp : p ∈ place 0 model.columnLabels.length oriented) :
    ∀ e ∈ p.row.entries, e.1 < model.columnLabels.length := by
  have hrow : p.row ∈ oriented := by
    rw [← List.map_id oriented, ← map_row_place id 0 model.columnLabels.length oriented]
    exact List.mem_map_of_mem hp
  obtain ⟨i, hi, hget⟩ := List.getElem_of_mem hrow
  obtain ⟨_, hrestates⟩ := restates_getElem hrows hi
  rw [← hget, Model.length_columnLabels]
  exact hrestates.key_lt

/-- An own column of a row of the form is in that row only. -/
theorem onlyIn_assembled {i k : ℕ} {value : α} {p : PlacedRow α}
    (hp : (place 0 model.columnLabels.length oriented)[i]? = some p)
    (he : (k, value) ∈ p.ownEntries) :
    (assembled opts model costEntries oriented).OnlyIn i k value := by
  obtain ⟨hi, rfl⟩ := List.getElem?_eq_some_iff.mp hp
  have hwidth : model.columnLabels.length + (oriented.map (·.sign.ownWidth)).sum ≤
      (objectiveOf model costEntries oriented).length := le_of_eq length_objectiveOf.symm
  have hcolumn := column_place (fun p hp => key_lt_of_mem_placed hrows hp) hwidth hi he
  rw [OnlyIn, height_assembled]
  rwa [length_place] at hcolumn

/-- The basic column of a row is its slack or its artificial, by type and by name. -/
theorem basic_assembled {i k : ℕ}
    (hk : (assembled opts model costEntries oriented).basis[i]? = some k) :
    (assembled opts model costEntries oriented).OnlyIn i k 1 ∧
      ((assembled opts model costEntries oriented).columnTypes[k]? = some .slack ∧
          (assembled opts model costEntries oriented).columnNames[k]? = some s!"s{i + 1}" ∨
        (assembled opts model costEntries oriented).columnTypes[k]? = some .artificial ∧
          (assembled opts model costEntries oriented).columnNames[k]? = some s!"a{i + 1}") := by
  change ((place 0 model.columnLabels.length oriented).map PlacedRow.basic)[i]? = some k at hk
  rw [List.getElem?_map, Option.map_eq_some_iff] at hk
  obtain ⟨p, hp, rfl⟩ := hk
  obtain ⟨t, ht, hbasic, hlabel⟩ := p.exists_basic
  refine ⟨onlyIn_assembled hrows hp PlacedRow.basic_mem_ownEntries, ?_⟩
  have hmem := List.mem_of_getElem? hp
  rw [hbasic, columnTypes_own hmem ht, columnNames_own hmem ht, ← index_of_getElem?_place hp]
  exact hlabel

/-- The slack or surplus of a row has its sign there. -/
theorem slack_assembled {i k : ℕ} {sign : α}
    (hk : (assembled opts model costEntries oriented).rowSlack[i]? = some (some (k, sign))) :
    (assembled opts model costEntries oriented).OnlyIn i k sign ∧
      ((assembled opts model costEntries oriented).columnTypes[k]? = some .slack ∧ sign = 1 ∨
        (assembled opts model costEntries oriented).columnTypes[k]? = some .surplus ∧
          sign = -1) := by
  change ((place 0 model.columnLabels.length oriented).map PlacedRow.slack)[i]? = _ at hk
  rw [List.getElem?_map, Option.map_eq_some_iff] at hk
  obtain ⟨p, hp, hslack⟩ := hk
  obtain ⟨rfl, hlabel⟩ := PlacedRow.slack_cases hslack
  refine ⟨onlyIn_assembled hrows hp (PlacedRow.slack_mem_ownEntries hslack), ?_⟩
  have htypes : (assembled opts model costEntries oriented).columnTypes[p.first + 0]? =
      p.row.sign.ownTypes[0]? :=
    columnTypes_own (List.mem_of_getElem? hp) p.row.sign.ownWidth_pos
  rw [Nat.add_zero] at htypes
  rw [htypes]
  exact hlabel

/-- The rows without a slack or surplus are the equations of the model. -/
theorem noSlack_assembled (hvalid : model.Valid) {i : ℕ} (hi : i < oriented.length) :
    (assembled opts model costEntries oriented).rowSlack[i]? = some none ↔
      model.signs[i]? = some .eq := by
  obtain ⟨hi', hrestates⟩ := restates_getElem hrows hi
  have hlength : i < (place 0 model.columnLabels.length oriented).length := by
    rwa [length_place]
  have hplace : (place 0 model.columnLabels.length oriented)[i] = ⟨oriented[i], 0 + i, _⟩ :=
    place_getElem 0 _ hlength hi
  have hread : (assembled opts model costEntries oriented).rowSlack[i]? =
      some (place 0 model.columnLabels.length oriented)[i].slack := by
    change ((place 0 model.columnLabels.length oriented).map PlacedRow.slack)[i]? = _
    rw [List.getElem?_map, List.getElem?_eq_getElem, Option.map_some]
  rw [hread, Option.some.injEq, PlacedRow.slack_eq_none_iff, hplace, hrestates.equation_iff,
    Model.sign_formRows_eq_iff hvalid.sized hi']
  rw [hplace, hrestates.isKnown_eq]
  exact Model.isKnown_of_mem_formRows hvalid (List.getElem_mem hi')

end Answers

/-- An artificial column costs the penalty. -/
theorem entry_costs_artificial {k : ℕ}
    (hk : k ∈ (assembled opts model costEntries oriented).artificials) :
    entry (assembled opts model costEntries oriented).costs k = -opts.bigM := by
  have hnodup : (assembled opts model costEntries oriented).artificials.Nodup := by
    rw [artificials_assembled]
    exact List.nodup_idxsOf
  refine entry_scatter_of_mem ?_ ?_ (List.mem_map_of_mem hk)
  · rw [keys_map_const]
    exact hnodup
  · rw [artificials_assembled] at hk
    have hlt := List.lt_add_of_mem_idxsOf k hk
    rw [length_objectiveOf]
    rwa [length_columnTypes_assembled] at hlt

/-- A slack or a surplus costs nothing. -/
theorem entry_costs_own (hcosts : structuralRow (componentsFrom 0 model.kinds)
      (model.costs.map (model.sense.factor * ·)) = .ok costEntries) {k : ℕ} {type : ColumnType}
    (hk : (assembled opts model costEntries oriented).columnTypes[k]? = some type)
    (hstructural : type ≠ .structural) (hartificial : type ≠ .artificial) :
    entry (assembled opts model costEntries oriented).costs k = 0 := by
  have hkey : k ∉ costEntries.map (·.1) := by
    intro hmem
    have hlt : k < model.columnLabels.length :=
      (Model.length_columnLabels model).symm ▸ key_lt_of_mem_structuralRow hcosts hmem
    change (List.replicate model.columnLabels.length ColumnType.structural ++ _)[k]? = _ at hk
    rw [List.getElem?_append_left (by simpa using hlt), List.getElem?_replicate, if_pos hlt] at hk
    exact hstructural (Option.some.inj hk).symm
  have hnot : k ∉ (assembled opts model costEntries oriented).artificials := by
    rw [artificials_assembled, List.mem_idxsOf_iff_exists_getElem_pos]
    rintro ⟨hlt, hget⟩
    rw [List.getElem?_eq_getElem hlt, Option.some.injEq] at hk
    exact hartificial (hk.symm.trans (eq_of_beq hget))
  change entry (scatter (scatter (zeros _) costEntries)
    ((assembled opts model costEntries oriented).artificials.map fun k => (k, -opts.bigM))) k = 0
  rw [entry_scatter_of_notMem (by rwa [keys_map_const]), entry_scatter_of_notMem hkey,
    entry_zeros_eq]

theorem basis_assembled_increasing :
    (assembled opts model costEntries oriented).basis.Pairwise (· < ·) := by
  change ((place 0 model.columnLabels.length oriented).map PlacedRow.basic).Pairwise (· < ·)
  refine List.pairwise_map.mpr ((pairwise_place 0 _ oriented).imp fun {p q} hle => ?_)
  have hp := PlacedRow.key_of_mem_ownEntries (p := p) PlacedRow.basic_mem_ownEntries
  have hq := PlacedRow.key_of_mem_ownEntries (p := q) PlacedRow.basic_mem_ownEntries
  exact lt_of_lt_of_le hp.2 (le_trans hle hq.1)

theorem wellFormed_assembled (hvalid : model.Valid)
    (hcosts : structuralRow (componentsFrom 0 model.kinds)
      (model.costs.map (model.sense.factor * ·)) = .ok costEntries)
    (hrows : model.formRows.mapM (StatedRow.orient (componentsFrom 0 model.kinds)) =
      .ok oriented) :
    (assembled opts model costEntries oriented).WellFormed opts model where
  height_eq := height_assembled.trans (length_oriented hrows)
  rowSources_eq := by
    change (place 0 model.columnLabels.length oriented).map (·.row.source) = _
    rw [map_row_place (·.source), sources_oriented hrows, Model.sources_formRows]
  length_rhs := by simp [assembled, assemble, height]
  length_basis := by simp [assembled, assemble, height]
  length_rowSlack := by simp [assembled, assemble, height]
  length_row := by
    intro row hrow
    obtain ⟨p, -, rfl⟩ := List.mem_map.mp hrow
    rw [length_scatter, length_zeros, length_objectiveOf, width_assembled]
  length_columnNames := by
    change (model.columnLabels ++ _).length = _
    rw [List.length_append, length_flatMap_ownNames, width_assembled]
  length_columnTypes := length_columnTypes_assembled.trans width_assembled.symm
  structurals_first := by
    change List.range _ = List.range (List.range _).length
    rw [List.length_range]
  structurals_eq := structurals_assembled
  artificials_eq := artificials_assembled
  slacks_eq := slacks_assembled
  length_components := (length_componentsFrom 0 model.kinds).trans hvalid.sized.kinds
  keys_components := by
    change (componentsFrom 0 model.kinds : Components α).flatten.map (·.1) =
      List.range model.columnLabels.length
    rw [keys_componentsFrom, Model.length_columnLabels, List.range_eq_range']
  components_eq := by
    intro hfree j hj
    have hj' : j < model.kinds.length := hvalid.sized.kinds.symm ▸ hj
    obtain ⟨sign, hget⟩ := getElem?_componentsFrom (α := α) hfree 0 hj'
    rw [Nat.zero_add] at hget
    exact ⟨sign, hget⟩
  basis_increasing := basis_assembled_increasing
  basic := fun _ _ => basic_assembled hrows
  slack := fun _ _ _ => slack_assembled hrows
  noSlack_iff := by
    intro i hi
    rw [height_assembled] at hi
    exact noSlack_assembled hrows hvalid hi
  artificial_cost := fun _ => entry_costs_artificial
  own_cost := by
    rintro k (hk | hk)
    · exact entry_costs_own hcosts hk (by simp) (by simp)
    · exact entry_costs_own hcosts hk (by simp) (by simp)

/-- Building the form of a valid model does not fail, and the form is well formed. -/
theorem exists_wellFormed (opts : Options α) (hvalid : model.Valid) :
    ∃ form, build opts model = .ok form ∧ form.WellFormed opts model := by
  have hlength : (componentsFrom 0 model.kinds : Components α).length = model.variableCount :=
    (length_componentsFrom 0 model.kinds).trans hvalid.sized.kinds
  obtain ⟨costEntries, hcosts⟩ := exists_costEntries hvalid.sized
  have horient : ∀ row ∈ model.formRows,
      ∃ oriented, row.orient (componentsFrom 0 model.kinds) = .ok oriented := by
    intro row hrow
    have hfits : row.coefficients.length ≤ (componentsFrom 0 model.kinds : Components α).length := by
      rw [Model.length_coefficients_of_mem_formRows hvalid.sized hrow, hlength]
    obtain ⟨entries, sign, rhs, flipped, hanswer⟩ := exists_orient hfits
    exact ⟨_, hanswer row.name row.source⟩
  obtain ⟨oriented, hrows⟩ := exists_mapM_eq_ok horient
  exact ⟨_, build_eq_assemble opts hvalid.sized hcosts hrows,
    wellFormed_assembled hvalid hcosts hrows⟩

end StandardForm

/-! ## The point at the start -/

namespace StandardForm

variable {opts : Options ℚ} {model : Model ℚ} {form : StandardForm ℚ}

/-- The point of the basis at the start: each basic column has the right-hand side of its row. -/
def startingPoint (form : StandardForm ℚ) : List ℚ :=
  scatter (zeros form.width) (form.basis.zip form.rhs)

namespace WellFormed

variable (h : form.WellFormed opts model)

include h

theorem cell_basis {i t : ℕ} (hi : i < form.height) (ht : t < form.height) :
    form.rows.cell i (form.basis.getD t 0) = if i = t then 1 else 0 := by
  have hbasis : form.basis[t]? = some (form.basis.getD t 0) := by
    simp [h.length_basis ▸ ht]
  have hcolumn : form.rows.column (form.basis.getD t 0) = (zeros form.height).set t 1 :=
    (h.basic t _ hbasis).1
  rw [← Dense.entry_column hi, hcolumn, entry_set _ (by simpa using ht), entry_zeros]

/-- A basic column is a column. -/
theorem lt_width {k : ℕ} (hk : k ∈ form.basis) : k < form.width := by
  obtain ⟨i, hi⟩ := List.getElem?_of_mem hk
  have htype := (h.basic i k hi).2
  rw [← h.length_columnTypes]
  rcases htype with ⟨htype, -⟩ | ⟨htype, -⟩
  · exact (List.getElem?_eq_some_iff.mp htype).1
  · exact (List.getElem?_eq_some_iff.mp htype).1

/-- **The point at the start meets the equations.** -/
theorem mulVec_startingPoint : form.rows.mulVec form.startingPoint = form.rhs := by
  have hzip : form.basis.length = form.rhs.length := h.length_basis.trans h.length_rhs.symm
  have hkeys : (form.basis.zip form.rhs).map (·.1) = form.basis :=
    List.map_fst_zip (le_of_eq hzip)
  refine eq_of_entry_eq ((Dense.length_mulVec _ _).trans h.length_rhs.symm) fun i hi => ?_
  rw [Dense.length_mulVec] at hi
  rw [Dense.entry_mulVec (fun row hrow => le_of_eq (h.length_row row hrow)) hi]
  calc ∑ j ∈ Finset.range form.width, form.rows.cell i j * entry form.startingPoint j
      = ∑ j ∈ Finset.range form.width,
          entry (scatter (zeros form.width) (form.basis.zip form.rhs)) j *
            entry (form.rows.rowAt i) j :=
        Finset.sum_congr rfl fun _ _ => mul_comm _ _
    _ = valueAt (form.basis.zip form.rhs) (form.rows.rowAt i) := by
        refine sum_scatter ?_ (fun e he => h.lt_width (List.of_mem_zip he).1) _
        rw [hkeys]
        exact h.basis_increasing.imp ne_of_lt
    _ = ∑ t ∈ Finset.range form.rhs.length, entry form.rhs t * if i = t then 1 else 0 := by
        rw [Tableau.valueAt_zip hzip]
        refine Finset.sum_congr rfl fun t ht => ?_
        rw [← h.cell_basis hi (h.length_rhs ▸ Finset.mem_range.mp ht)]
        rfl
    _ = entry form.rhs i := by
        have hi' : i < form.rhs.length := h.length_rhs.symm ▸ hi
        simp [hi']

end WellFormed

/-- **The standard form of every valid model is well formed**, in any arithmetic. Over the rationals no
right-hand side is negative, and the point of the basis at the start meets the equations and is not
negative either. -/
theorem build_wellFormed :
    (∀ {α : Type} [Scalar α] (opts : Options α) (model : Model α), model.Valid →
      ∃ form, build opts model = .ok form ∧ form.WellFormed opts model) ∧
    ∀ (opts : Options ℚ) (model : Model ℚ), model.Valid →
      ∃ form, build opts model = .ok form ∧ (∀ b ∈ form.rhs, 0 ≤ b) ∧
        form.rows.mulVec form.startingPoint = form.rhs ∧ ∀ a ∈ form.startingPoint, 0 ≤ a := by
  refine ⟨fun opts model => exists_wellFormed opts, fun opts model hvalid => ?_⟩
  obtain ⟨form, hbuild, hform⟩ := exists_wellFormed opts hvalid
  have hrhs : ∀ b ∈ form.rhs, 0 ≤ b := by
    obtain rfl := Except.ok.inj ((build_eq opts hvalid).symm.trans hbuild)
    exact Model.nonneg_of_mem_rhs_standardForm opts
  refine ⟨form, hbuild, hrhs, hform.mulVec_startingPoint, fun a ha => ?_⟩
  rcases mem_scatter ha with hzero | hentry
  · exact le_of_eq (List.eq_of_mem_replicate hzero).symm
  · obtain ⟨e, he, rfl⟩ := List.mem_map.mp hentry
    exact hrhs _ (List.of_mem_zip he).2

/-- Minimise `u - v + 2 w` with `u` free, `v` nonpositive and `w` binary, under two rows `≥`, the first
of which is turned, and an equation. -/
def turnedModel : Model ℚ :=
  { sense := .min, rows := [[1, -1, 2], [1, 0, -1], [0, 1, 1]], rhs := [-2, 3, 1]
    costs := [1, -1, 2], signs := [.ge, .ge, .eq], kinds := [.free, .nonpos, .bin] }

/-- The form of `turnedModel` has two columns for `u`, a row of each kind, and a bound for `w`. -/
theorem build_wellFormed_turnedModel :
    turnedModel.Valid ∧ ∃ form, build {} turnedModel = .ok form ∧
      form.components = [[(0, 1), (1, -1)], [(2, -1)], [(3, 1)]] ∧
      form.basis = [4, 6, 7, 8] ∧
      form.rowSlack = [some (4, 1), some (5, -1), none, some (8, 1)] ∧
      form.startingPoint = [0, 0, 0, 0, 2, 0, 3, 1, 1] ∧
      form.WellFormed {} turnedModel ∧ (∀ b ∈ form.rhs, 0 ≤ b) ∧
      form.rows.mulVec form.startingPoint = form.rhs ∧ ∀ a ∈ form.startingPoint, 0 ≤ a := by
  have hvalid : turnedModel.Valid := by decide
  have hlists : ∃ form, build {} turnedModel = .ok form ∧
      form.components = [[(0, 1), (1, -1)], [(2, -1)], [(3, 1)]] ∧ form.basis = [4, 6, 7, 8] ∧
      form.rowSlack = [some (4, 1), some (5, -1), none, some (8, 1)] ∧
      form.startingPoint = [0, 0, 0, 0, 2, 0, 3, 1, 1] := by decide +kernel
  obtain ⟨form, hbuild, hcomponents, hbasis, hslack, hstart⟩ := hlists
  obtain ⟨_, hbuild', hform⟩ := build_wellFormed.1 {} turnedModel hvalid
  obtain rfl := Except.ok.inj (hbuild.symm.trans hbuild')
  obtain ⟨_, hbuild', hpoint⟩ := build_wellFormed.2 {} turnedModel hvalid
  obtain rfl := Except.ok.inj (hbuild.symm.trans hbuild')
  exact ⟨hvalid, form, hbuild, hcomponents, hbasis, hslack, hstart, hform, hpoint⟩

end StandardForm

end LinOpt
