import LinOpt.Proofs.Analysis.WeakDuality
/-!
# The dual of the dual

Exchanging rows and columns, right-hand sides and costs, relations and kinds undoes itself when it is
done twice. For the matrix that is so because being turned is a relation that two matrices have to
each other (`Transposes.symm`), and of the sizes given there is only one such matrix
(`Transposes.unique`). For the words it is a fact about the two tables, which are read with opposite
senses the second time (`Kind.dualRestriction_dualRelation`,
`Relation.dualRelation_dualRestriction`). The tables take a kind that asks for whole numbers as
nonnegativity, so that is what comes back of it.
-/

namespace LinOpt

/-! ## Matrices turned twice -/

namespace Dense.Transposes

variable {α : Type} {turned turned' rows : Dense α} {m n : ℕ}

theorem symm (h : turned.Transposes rows m n) : rows.Transposes turned n m where
  height := h.turned_height
  width := h.turned_width
  turned_height := h.height
  turned_width := h.width
  entry_eq := fun j hj i hi => (h.entry_eq i hi j hj).symm

/-- A matrix is turned in one way only. -/
theorem unique (h : turned.Transposes rows m n) (h' : turned'.Transposes rows m n) :
    turned = turned' := by
  refine List.ext_getElem (h.turned_height.trans h'.turned_height.symm) fun j hj hj' => ?_
  have hrow := h.turned_width _ (List.getElem_mem hj)
  have hrow' := h'.turned_width _ (List.getElem_mem hj')
  refine List.ext_getElem (hrow.trans hrow'.symm) fun i hi hi' => ?_
  have hentry := (h.entry_eq i (hrow ▸ hi) j (h.turned_height ▸ hj)).trans
    (h'.entry_eq i (hrow ▸ hi) j (h.turned_height ▸ hj)).symm
  simpa [hj, hj', hi, hi'] using hentry

end Dense.Transposes

/-! ## The tables, read twice -/

theorem Sense.dual_dual {sense : Sense} (h : sense.isKnown = true) : sense.dual.dual = sense := by
  cases sense
  case other word => cases h
  all_goals rfl

/-- A relation comes back from the kind it gives. -/
theorem Relation.dualRelation_dualRestriction {sense : Sense} {sign : Relation}
    (hsense : sense.isKnown = true) (hsign : sign.isKnown = true) :
    (sign.dualRestriction sense).dualRelation sense.dual = sign := by
  cases sign
  case other word => cases hsign
  all_goals
    cases sense
    case other word => cases hsense
    all_goals rfl

/-- A kind comes back from the relation it gives, without a demand for whole numbers. -/
theorem Kind.dualRestriction_dualRelation {sense : Sense} {kind : Kind}
    (hsense : sense.isKnown = true) (hkind : kind.isKnown = true) :
    (kind.dualRelation sense).dualRestriction sense.dual = kind.relaxed := by
  cases kind
  case other word => cases hkind
  all_goals
    cases sense
    case other word => cases hsense
    all_goals rfl

/-! ## Duals -/

namespace Model

variable {α : Type} {model other again : Model α}

/-- **The dual of the dual is the model**, with continuous kinds. -/
theorem DualOf.twice (hvalid : model.Valid) (hother : other.DualOf model)
    (hagain : again.DualOf other) :
    again.sense = model.sense ∧ again.rows = model.rows ∧ again.rhs = model.rhs ∧
      again.costs = model.costs ∧ again.signs = model.signs ∧
      again.kinds = model.kinds.map Kind.relaxed := by
  refine ⟨?_, ?_, hagain.rhs_eq.trans hother.costs_eq, hagain.costs_eq.trans hother.rhs_eq, ?_, ?_⟩
  · rw [hagain.sense_eq, hother.sense_eq, Sense.dual_dual hvalid.sense]
  · have hturned := hagain.transposes
    rw [hother.rowCount_eq, hother.variableCount_eq] at hturned
    exact hturned.unique hother.transposes.symm
  · rw [hagain.signs_eq, hother.kinds_eq, hother.sense_eq, List.map_map]
    refine (List.map_congr_left fun sign hsign => ?_).trans (List.map_id _)
    exact Relation.dualRelation_dualRestriction hvalid.sense
      (List.all_eq_true.mp hvalid.signs sign hsign)
  · rw [hagain.kinds_eq, hother.signs_eq, hother.sense_eq, List.map_map]
    refine List.map_congr_left fun kind hkind => ?_
    exact Kind.dualRestriction_dualRelation hvalid.sense
      (List.all_eq_true.mp hvalid.kinds kind hkind)

/-- **The dual of the dual is the primal.** A valid model has a dual, and that has a dual; both pass
the check of their shape. The second is the model again, but that kinds which ask for whole numbers
have become `nonneg`. -/
theorem dual_of_dual (hvalid : model.Valid) :
    ∃ other again, model.dual = .ok other ∧ other.dual = .ok again ∧
      other.shapeFault? = none ∧ again.shapeFault? = none ∧
      again.sense = model.sense ∧ again.rows = model.rows ∧ again.rhs = model.rhs ∧
      again.costs = model.costs ∧ again.signs = model.signs ∧
      again.kinds = model.kinds.map Kind.relaxed := by
  obtain ⟨other, hdual, hotherValid, hother⟩ := exists_dualOf hvalid
  obtain ⟨again, hdualAgain, hagainValid, hagain⟩ := exists_dualOf hotherValid
  exact ⟨other, again, hdual, hdualAgain, hotherValid.shape, hagainValid.shape,
    DualOf.twice hvalid hother hagain⟩

/-- `fourKindsModel` has a dual of three variables, and comes back from it with `nonneg` for `int` and
for `bin`. -/
theorem dual_of_dual_fourKindsModel :
    fourKindsModel.Valid ∧ ∃ other again, fourKindsModel.dual = .ok other ∧
      other.dual = .ok again ∧ other.rows = [[1, 1, 1], [1, -1, 0], [-1, 0, 1], [1, 2, 1]] ∧
      other.signs = [.le, .eq, .ge, .le] ∧ other.kinds = [.nonneg, .free, .nonpos] ∧
      again.rows = fourKindsModel.rows ∧ again.signs = [.ge, .eq, .le] ∧
      again.kinds = [.nonneg, .free, .nonpos, .nonneg] := by
  have hvalid : fourKindsModel.Valid := by decide
  obtain ⟨other, again, hdual, hagain, -, -, -, hrows, -, -, hsigns, hkinds⟩ := dual_of_dual hvalid
  have hparts : fourKindsModel.dual.map (fun other => (other.rows, other.signs, other.kinds)) =
      .ok ([[1, 1, 1], [1, -1, 0], [-1, 0, 1], [1, 2, 1]], [.le, .eq, .ge, .le],
        [.nonneg, .free, .nonpos]) := by
    decide +kernel
  rw [hdual] at hparts
  simp only [Except.map, Except.ok.injEq, Prod.mk.injEq] at hparts
  exact ⟨hvalid, other, again, hdual, hagain, hparts.1, hparts.2.1, hparts.2.2, hrows, hsigns,
    hkinds⟩

end Model

end LinOpt
