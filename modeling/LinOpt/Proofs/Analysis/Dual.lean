import LinOpt.Analysis.Duality
import LinOpt.Proofs.Extension
/-!
# The dual of a model

Dualising exchanges rows and columns, right-hand sides and costs, relations and kinds, and turns the
sense round. What comes out is described once (`Model.DualOf`): the words by the two tables, where
these are read with words they know, and the matrix by a relation that two matrices have to each
other, "has the entries of the other, turned" (`Dense.Transposes`). A valid model has a dual, and the
dual is valid (`Model.exists_dualOf`).

The entries are only moved, so nothing is asked of the arithmetic, and a model without rows or
without variables is like any other.
-/

namespace LinOpt

/-! ## The two tables -/

/-- The relation of the dual row of a variable, where sense and kind are known. -/
def Kind.dualRelation (sense : Sense) (kind : Kind) : Relation :=
  ((kind.dualSign sense : Except (Fault ℚ) Relation).toOption).getD .eq

theorem Kind.dualSign_eq {α : Type} {sense : Sense} {kind : Kind} (hsense : sense.isKnown = true)
    (hkind : kind.isKnown = true) :
    kind.dualSign sense = (.ok (kind.dualRelation sense) : Except (Fault α) Relation) := by
  cases sense <;> cases kind <;> first | rfl | simp [Sense.isKnown, Kind.isKnown] at hsense hkind

/-- The kind of the dual variable of a row, where sense and relation are known. -/
def Relation.dualRestriction (sense : Sense) (sign : Relation) : Kind :=
  ((sign.dualKind sense : Except (Fault ℚ) Kind).toOption).getD .free

theorem Relation.dualKind_eq {α : Type} {sense : Sense} {sign : Relation}
    (hsense : sense.isKnown = true) (hsign : sign.isKnown = true) :
    sign.dualKind sense = (.ok (sign.dualRestriction sense) : Except (Fault α) Kind) := by
  cases sense <;> cases sign <;>
    first | rfl | simp [Sense.isKnown, Relation.isKnown] at hsense hsign

theorem Sense.isKnown_dual (sense : Sense) : sense.dual.isKnown = true := by
  cases sense <;> rfl

theorem Kind.isKnown_dualRelation (sense : Sense) (kind : Kind) :
    (kind.dualRelation sense).isKnown = true := by
  cases sense <;> cases kind <;> rfl

theorem Relation.isKnown_dualRestriction (sense : Sense) (sign : Relation) :
    (sign.dualRestriction sense).isKnown = true := by
  cases sense <;> cases sign <;> rfl

/-! ## Matrices turned -/

section Transposes

variable {α : Type}

/-- **One matrix is the other with rows and columns exchanged**; the other has `m` rows and `n`
columns. -/
structure Dense.Transposes (turned rows : Dense α) (m n : ℕ) : Prop where
  height : rows.length = m
  width : ∀ row ∈ rows, row.length = n
  turned_height : turned.length = n
  turned_width : ∀ row ∈ turned, row.length = m
  entry_eq : ∀ i < m, ∀ j < n,
    (turned[j]?.bind fun row => row[i]?) = rows[i]?.bind fun row => row[j]?

namespace Model

variable {model : Model α}

/-- An entry is read where the sizes agree. -/
theorem exists_entry (hsized : model.Sized) {i j : ℕ} (hi : i < model.rowCount)
    (hj : j < model.variableCount) :
    ∃ a, (Position.get model.rows i >>= fun row => Position.get row j) =
        (.ok a : Except (Fault α) α) ∧
      (model.rows[i]?.bind fun row => row[j]?) = some a := by
  have hrow : i < model.rows.length := hsized.rows.symm ▸ hi
  have hentry : j < model.rows[i].length := (hsized.row _ (List.getElem_mem hrow)).symm ▸ hj
  refine ⟨model.rows[i][j], ?_, by simp [hrow, hentry]⟩
  rw [Position.get, List.getElem?_eq_getElem hrow, ok_bind, Position.get,
    List.getElem?_eq_getElem hentry]

/-- Column `j` has the entries `j` of the rows. -/
theorem exists_column (hsized : model.Sized) {j : ℕ} (hj : j < model.variableCount) :
    ∃ column, model.column j = .ok column ∧ column.length = model.rowCount ∧
      ∀ i < model.rowCount, column[i]? = model.rows[i]?.bind fun row => row[j]? := by
  have hread : ∀ i ∈ List.range model.rowCount, ∃ a,
      (Position.get model.rows i >>= fun row => Position.get row j) =
        (.ok a : Except (Fault α) α) := fun i hi =>
    (exists_entry hsized (List.mem_range.mp hi) hj).imp fun _ h => h.1
  obtain ⟨column, hcolumn⟩ := exists_mapM_eq_ok hread
  obtain ⟨hlength, hentries⟩ := List.forall₂_iff_get.mp (forall₂_of_mapM_eq_ok hcolumn)
  rw [List.length_range] at hlength
  refine ⟨column, hcolumn, hlength.symm, fun i hi => ?_⟩
  obtain ⟨a, ha, hentry⟩ := exists_entry hsized hi hj
  have hget := hentries i (by simpa using hi) (hlength ▸ hi)
  simp only [List.get_eq_getElem, List.getElem_range] at hget
  rw [hentry, List.getElem?_eq_getElem (hlength ▸ hi)]
  exact congrArg some (Except.ok.inj (hget.symm.trans ha))

/-- **The columns of a model, one after the other, are its rows turned.** -/
theorem exists_transposes (hsized : model.Sized) :
    ∃ turned, (List.range model.variableCount).mapM model.column = .ok turned ∧
      Dense.Transposes turned model.rows model.rowCount model.variableCount := by
  have hread : ∀ j ∈ List.range model.variableCount, ∃ column, model.column j = .ok column :=
    fun j hj => (exists_column hsized (List.mem_range.mp hj)).imp fun _ h => h.1
  obtain ⟨turned, hturned⟩ := exists_mapM_eq_ok hread
  obtain ⟨hlength, hcolumns⟩ := List.forall₂_iff_get.mp (forall₂_of_mapM_eq_ok hturned)
  rw [List.length_range] at hlength
  -- each row of the answer is a column, with all that is known of one
  have hcolumn : ∀ j (hj : j < turned.length), turned[j].length = model.rowCount ∧
      ∀ i < model.rowCount, turned[j][i]? = model.rows[i]?.bind fun row => row[j]? := by
    intro j hj
    obtain ⟨column, hok, hcolumn⟩ := exists_column hsized (hlength ▸ hj)
    have hget := hcolumns j (by simpa using hlength ▸ hj) hj
    simp only [List.get_eq_getElem, List.getElem_range] at hget
    rwa [Except.ok.inj (hget.symm.trans hok)]
  refine ⟨turned, hturned, hsized.rows, hsized.row, hlength.symm, ?_, ?_⟩
  · intro row hrow
    obtain ⟨j, hj, rfl⟩ := List.getElem_of_mem hrow
    exact (hcolumn j hj).1
  · intro i hi j hj
    rw [List.getElem?_eq_getElem (hlength ▸ hj)]
    exact (hcolumn j (hlength ▸ hj)).2 i hi

end Model

end Transposes

/-! ## The dual model -/

namespace Model

variable {α : Type} {model other : Model α} {rows : Dense α}

/-- The dual with these rows, where all words of the model are known. -/
def dualWith (model : Model α) (rows : Dense α) : Model α :=
  { name := s!"Dual of {model.name}"
    sense := model.sense.dual
    rows
    rhs := model.costs
    costs := model.rhs
    signs := model.kinds.map (Kind.dualRelation model.sense)
    kinds := model.signs.map (Relation.dualRestriction model.sense)
    givenNames := some ((List.range model.rowCount).map fun i => s!"y{i + 1}") }

theorem sized_dualWith (hsized : model.Sized) (hheight : rows.length = model.variableCount)
    (hwidth : ∀ row ∈ rows, row.length = model.rowCount) : (model.dualWith rows).Sized where
  rows := hheight
  row := hwidth
  signs := (List.length_map _).trans hsized.kinds
  kinds := (List.length_map _).trans hsized.signs
  names := by simp [dualWith, names, variableCount, rowCount]

/-- **A valid model has a dual**, with its columns for rows. -/
theorem dual_eq_dualWith (hvalid : model.Valid)
    (hrows : (List.range model.variableCount).mapM model.column = .ok rows)
    (hsized : (model.dualWith rows).Sized) : model.dual = .ok (model.dualWith rows) := by
  have hsigns : model.kinds.mapM (Kind.dualSign model.sense) =
      (.ok (model.kinds.map (Kind.dualRelation model.sense)) : Except (Fault α) _) :=
    mapM_eq_ok fun kind hkind =>
      Kind.dualSign_eq hvalid.sense (List.all_eq_true.mp hvalid.kinds kind hkind)
  have hkinds : model.signs.mapM (Relation.dualKind model.sense) =
      (.ok (model.signs.map (Relation.dualRestriction model.sense)) : Except (Fault α) _) :=
    mapM_eq_ok fun sign hsign =>
      Relation.dualKind_eq hvalid.sense (List.all_eq_true.mp hvalid.signs sign hsign)
  rw [dual, hrows, ok_bind, hsigns, ok_bind, hkinds, ok_bind]
  change (model.dualWith rows).checkShape = _
  rw [checkShape, hsized.shapeFault?_eq_none]

/-- **The other model is the dual**, its name and the names of its variables apart. -/
structure DualOf (other model : Model α) : Prop where
  sense_eq : other.sense = model.sense.dual
  transposes : Dense.Transposes other.rows model.rows model.rowCount model.variableCount
  rhs_eq : other.rhs = model.costs
  costs_eq : other.costs = model.rhs
  signs_eq : other.signs = model.kinds.map (Kind.dualRelation model.sense)
  kinds_eq : other.kinds = model.signs.map (Relation.dualRestriction model.sense)

theorem DualOf.rowCount_eq (h : other.DualOf model) : other.rowCount = model.variableCount :=
  congrArg List.length h.rhs_eq

theorem DualOf.variableCount_eq (h : other.DualOf model) : other.variableCount = model.rowCount :=
  congrArg List.length h.costs_eq

/-- **A valid model has a dual, and the dual is valid.** -/
theorem exists_dualOf (hvalid : model.Valid) :
    ∃ other, model.dual = .ok other ∧ other.Valid ∧ other.DualOf model := by
  obtain ⟨turned, hturned, htransposes⟩ := exists_transposes hvalid.sized
  have hsized := sized_dualWith hvalid.sized htransposes.turned_height htransposes.turned_width
  refine ⟨model.dualWith turned, dual_eq_dualWith hvalid hturned hsized, ?_,
    ⟨rfl, htransposes, rfl, rfl, rfl, rfl⟩⟩
  exact
    { shape := hsized.shapeFault?_eq_none
      sense := Sense.isKnown_dual _
      signs := by simp [dualWith, Kind.isKnown_dualRelation]
      kinds := by simp [dualWith, Relation.isKnown_dualRestriction] }

end Model

end LinOpt
