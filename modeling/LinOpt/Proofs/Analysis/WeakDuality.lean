import LinOpt.Proofs.Analysis.Dual
import LinOpt.Proofs.StandardForm.Relaxation
/-!
# Weak duality

The dual of a model is read off two tables, one for its kinds and one for its relations. Each table
is right in the sense that a product comes out on the right side: a dual row times the value of its
variable (`Kind.dualSign_mul_le`), and a row times the value of its dual variable
(`Relation.dualKind_mul_le`). Summed over the variables and over the rows, the two products meet in
the same double sum, and no point of a model passes a point of its dual (`weak_duality`).

Whole-number demands are read as nonnegativity here (`Model.continuous`), and the bounds of binary
variables are dropped with them. The continuous relaxation keeps these bounds as rows
(`relaxed_eq`); it is a model like any other, and the statement holds of it and its dual too.
-/

namespace LinOpt

open Finset

/-! ## The two tables -/

/-- A relation may be multiplied by a value of the right sign. -/
theorem Relation.Holds.mul_le {sign : Relation} {a b v : ℚ} (h : sign.Holds a b)
    (hle : sign = .le → 0 ≤ v) (hge : sign = .ge → v ≤ 0) : a * v ≤ b * v := by
  cases sign with
  | le => exact mul_le_mul_of_nonneg_right h (hle rfl)
  | ge => exact mul_le_mul_of_nonpos_right h (hge rfl)
  | eq => exact le_of_eq (congrArg (· * v) h)
  | other _ => exact le_of_eq (congrArg (· * v) h)

/-- **A dual row bounds the cost of its variable**: where the row holds and the value is one that
the kind admits, the cost times the value is no better than the row times it. -/
theorem Kind.dualSign_mul_le {sense : Sense} {kind : Kind} {sign : Relation} {cost row value : ℚ}
    (hsign : kind.dualSign sense = (.ok sign : Except (Fault ℚ) Relation))
    (hrow : sign.Holds row cost) (hvalue : kind.relaxed.Admits value) :
    sense.factor * (cost * value) ≤ sense.factor * (row * value) := by
  have hsides : (sign = .le → 0 ≤ -(sense.factor * value)) ∧
      (sign = .ge → -(sense.factor * value) ≤ 0) := by
    cases sense <;> cases kind <;> cases hsign <;>
      simp_all [Kind.relaxed, Kind.isInteger, Kind.Admits, Sense.factor]
  have hmul := hrow.mul_le hsides.1 hsides.2
  linarith

/-- **A row bounds the price of its right-hand side**: where the row holds and the price is one that
the dual kind admits, the row times the price is no better than the right-hand side times it. -/
theorem Relation.dualKind_mul_le {sense : Sense} {sign : Relation} {kind : Kind} {row rhs price : ℚ}
    (hkind : sign.dualKind sense = (.ok kind : Except (Fault ℚ) Kind))
    (hrow : sign.Holds row rhs) (hprice : kind.Admits price) :
    sense.factor * (row * price) ≤ sense.factor * (rhs * price) := by
  have hsides : (sign = .le → 0 ≤ sense.factor * price) ∧
      (sign = .ge → sense.factor * price ≤ 0) := by
    cases sense <;> cases sign <;> cases hkind <;> simp_all [Kind.Admits, Sense.factor]
  have hmul := hrow.mul_le hsides.1 hsides.2
  linarith

namespace Dense.Transposes

variable {turned rows : Dense ℚ} {m n i j : ℕ}

theorem cell_eq (h : turned.Transposes rows m n) (hi : i < m) (hj : j < n) :
    turned.cell j i = rows.cell i j := by
  have hrow : i < rows.length := h.height.symm ▸ hi
  have hturned : j < turned.length := h.turned_height.symm ▸ hj
  have hentry := h.entry_eq i hi j hj
  rw [List.getElem?_eq_getElem hrow, List.getElem?_eq_getElem hturned] at hentry
  simp only [Option.bind_some] at hentry
  simp only [Dense.cell, Dense.rowAt_eq_getElem hrow, Dense.rowAt_eq_getElem hturned, entry,
    List.getD_eq_getElem?_getD, hentry]

/-- A row of the turned matrix at a point adds up a column of the other. -/
theorem dot_rowAt (h : turned.Transposes rows m n) (hj : j < n) (y : List ℚ) :
    dot (turned.rowAt j) y = ∑ i ∈ range m, rows.cell i j * entry y i := by
  have hlength : (turned.rowAt j).length = m :=
    h.turned_width _ (Dense.rowAt_mem (h.turned_height.symm ▸ hj))
  rw [dot_eq_sum (le_of_eq hlength)]
  exact Finset.sum_congr rfl fun i hi => congrArg (· * _) (h.cell_eq (mem_range.mp hi) hj)

end Dense.Transposes

namespace Model

/-! ## Points of a model and of its dual -/

variable {model other : Model ℚ} {x y : List ℚ}

/-- The model with its kinds read as continuous restrictions. -/
def continuous (model : Model ℚ) : Model ℚ := { model with kinds := model.kinds.map Kind.relaxed }

section Points

variable (hvalid : model.Valid) (hdual : other.DualOf model)

include hvalid hdual

/-- The cost of a variable times its value, against its dual row. -/
theorem cost_mul_le (hx : model.continuous.Feasible x) (hy : other.Feasible y) {j : ℕ}
    (hj : j < model.variableCount) :
    model.sense.factor * (entry model.costs j * entry x j) ≤
      model.sense.factor *
        ((∑ i ∈ range model.rowCount, model.rows.cell i j * entry y i) * entry x j) := by
  have hlt : j < model.kinds.length := hvalid.sized.kinds.symm ▸ hj
  have hrow := hy.rows j (hdual.rowCount_eq.symm ▸ hj)
  have hvalue := hx.kinds j hj
  have hsign : other.signs.getD j .eq = model.kinds[j].dualRelation model.sense := by
    simp [hdual.signs_eq, hlt]
  have hkind : model.continuous.kinds.getD j .free = model.kinds[j].relaxed := by
    simp [continuous, hlt]
  rw [hdual.transposes.dot_rowAt hj, hdual.rhs_eq, hsign] at hrow
  rw [hkind] at hvalue
  exact Kind.dualSign_mul_le (Kind.dualSign_eq hvalid.sense
    (List.all_eq_true.mp hvalid.kinds _ (List.getElem_mem hlt))) hrow hvalue

/-- A row times its price, against its right-hand side. -/
theorem row_mul_le (hx : model.continuous.Feasible x) (hy : other.Feasible y) {i : ℕ}
    (hi : i < model.rowCount) :
    model.sense.factor *
        ((∑ j ∈ range model.variableCount, model.rows.cell i j * entry x j) * entry y i) ≤
      model.sense.factor * (entry model.rhs i * entry y i) := by
  have hlt : i < model.signs.length := hvalid.sized.signs.symm ▸ hi
  have hrow := hx.rows i hi
  have hprice := hy.kinds i (hdual.variableCount_eq.symm ▸ hi)
  have hlen : x.length ≤ model.variableCount := le_of_eq hx.length_eq
  have hsign : model.continuous.signs.getD i .eq = model.signs[i] := by
    simp [continuous, hlt]
  have hkind : other.kinds.getD i .free = model.signs[i].dualRestriction model.sense := by
    simp [hdual.kinds_eq, hlt]
  rw [hsign, dot_eq_sum_right hlen] at hrow
  rw [hkind] at hprice
  exact Relation.dualKind_mul_le (Relation.dualKind_eq hvalid.sense
    (List.all_eq_true.mp hvalid.signs _ (List.getElem_mem hlt))) hrow hprice

/-- **No point of a model passes a point of its dual**, in the sense of the model: both products are
the same double sum. -/
theorem gain_le_of_dualOf (hx : model.continuous.Feasible x) (hy : other.Feasible y) :
    model.gain x ≤ model.sense.factor * dot model.rhs y := by
  have hxlen : x.length ≤ model.variableCount := le_of_eq hx.length_eq
  have hylen : y.length ≤ model.rowCount := le_of_eq (hy.length_eq.trans hdual.variableCount_eq)
  rw [gain, dot_eq_sum_right hxlen, dot_eq_sum_right hylen, Finset.mul_sum, Finset.mul_sum]
  calc ∑ j ∈ range model.variableCount, model.sense.factor * (entry model.costs j * entry x j)
      ≤ ∑ j ∈ range model.variableCount, model.sense.factor *
          ((∑ i ∈ range model.rowCount, model.rows.cell i j * entry y i) * entry x j) :=
        Finset.sum_le_sum fun j hj => cost_mul_le hvalid hdual hx hy (mem_range.mp hj)
    _ = ∑ i ∈ range model.rowCount, model.sense.factor *
          ((∑ j ∈ range model.variableCount, model.rows.cell i j * entry x j) * entry y i) := by
        simp only [Finset.sum_mul, Finset.mul_sum]
        rw [Finset.sum_comm]
        refine Finset.sum_congr rfl fun i _ => Finset.sum_congr rfl fun j _ => ?_
        ring
    _ ≤ ∑ i ∈ range model.rowCount, model.sense.factor * (entry model.rhs i * entry y i) :=
        Finset.sum_le_sum fun i hi => row_mul_le hvalid hdual hx hy (mem_range.mp hi)

end Points

/-! ## The continuous relaxation -/

/-- The rows that bound the binary variables by one. -/
def binaryBounds (model : Model ℚ) : List ExtraRow :=
  model.binaryIndices.map fun j => .bound model.variableCount j 1 true

/-- **The relaxation of a model** has continuous kinds, and a row for each binary variable. -/
theorem relaxed_eq (hsized : model.Sized) :
    model.relaxed = .ok (model.continuous.extend model.binaryBounds) := by
  rw [relaxed_eq_ok hsized]
  simp only [relaxation, continuous, extend, binaryBounds, List.map_map]
  rfl

theorem Valid.continuous (h : model.Valid) : model.continuous.Valid := by
  have hsized : model.continuous.Sized :=
    { h.sized with kinds := (List.length_map _).trans h.sized.kinds }
  refine ⟨hsized.shapeFault?_eq_none, h.sense, h.signs, List.all_eq_true.mpr fun kind hkind => ?_⟩
  obtain ⟨old, hold, rfl⟩ := List.mem_map.mp hkind
  have hknown := List.all_eq_true.mp h.kinds old hold
  cases old <;> first | rfl | exact hknown

/-- The relaxation of a valid model is valid. -/
theorem Valid.relaxed (h : model.Valid) :
    (model.continuous.extend model.binaryBounds).Valid := by
  refine h.continuous.extend fun row hrow => ?_
  obtain ⟨j, -, rfl⟩ := List.mem_map.mp hrow
  exact ExtraRow.fits_bound _ _ _ _

/-- No kind of a relaxation asks for whole numbers. -/
theorem continuous_relaxed (model : Model ℚ) :
    (model.continuous.extend model.binaryBounds).continuous =
      model.continuous.extend model.binaryBounds := by
  have hidem : ∀ kind : Kind, kind.relaxed.relaxed = kind.relaxed := by
    intro kind
    cases kind <;> rfl
  simp [continuous, extend, Function.comp_def, hidem]

/-! ## Weak duality -/

/-- **No point of the one model passes a point of the other**: below it where the first is
maximised, above it where it is minimised. -/
def WeaklyDual (model other : Model ℚ) : Prop :=
  ∀ x y, model.continuous.Feasible x → other.Feasible y →
    (model.sense = .max → dot model.costs x ≤ dot model.rhs y) ∧
      (model.sense = .min → dot model.rhs y ≤ dot model.costs x)

theorem DualOf.weaklyDual (hdual : other.DualOf model) (hvalid : model.Valid) :
    model.WeaklyDual other := by
  intro x y hx hy
  have hle := gain_le_of_dualOf hvalid hdual hx hy
  constructor
  · intro hsense
    simp only [gain, hsense, Sense.factor] at hle
    linarith
  · intro hsense
    simp only [gain, hsense, Sense.factor] at hle
    linarith

/-- **Weak duality.** A valid model has a dual, and so has its continuous relaxation; no point of
either passes a point of its dual. The kinds of the relaxation are continuous as they are. -/
theorem weak_duality (hvalid : model.Valid) :
    (∃ dual, model.dual = .ok dual ∧ model.WeaklyDual dual) ∧
      ∃ relaxed dual, model.relaxed = .ok relaxed ∧ relaxed.dual = .ok dual ∧
        relaxed.continuous = relaxed ∧ relaxed.WeaklyDual dual := by
  obtain ⟨dual, hdual, -, hof⟩ := exists_dualOf hvalid
  obtain ⟨dualRelaxed, hdualRelaxed, -, hofRelaxed⟩ := exists_dualOf hvalid.relaxed
  exact ⟨⟨dual, hdual, hof.weaklyDual hvalid⟩, _, dualRelaxed, relaxed_eq hvalid.sized,
    hdualRelaxed, model.continuous_relaxed, hofRelaxed.weaklyDual hvalid.relaxed⟩

/-- Minimise `2 u + 3 v - w + t` with a variable of each of four kinds, under a row of each
relation. -/
def fourKindsModel : Model ℚ :=
  { sense := .min
    rows := [[1, 1, -1, 1], [1, -1, 0, 2], [1, 0, 1, 1]]
    rhs := [4, -2, 5]
    costs := [2, 3, -1, 1]
    signs := [.ge, .eq, .le]
    kinds := [.int, .free, .nonpos, .bin] }

/-- A point of `fourKindsModel` and a point of its dual; the first is above the second. -/
theorem weak_duality_fourKindsModel :
    fourKindsModel.Valid ∧ fourKindsModel.continuous.Feasible [1, 3, 0, 0] ∧
      ∃ dual, fourKindsModel.dual = .ok dual ∧ dual.Feasible [1, -2, 0] ∧
        dot fourKindsModel.rhs [1, -2, 0] ≤ dot fourKindsModel.costs [1, 3, 0, 0] := by
  have hvalid : fourKindsModel.Valid := by decide
  have hx : fourKindsModel.continuous.Feasible [1, 3, 0, 0] := by decide +kernel
  obtain ⟨⟨dual, hdual, hweak⟩, -⟩ := weak_duality hvalid
  have hprices : fourKindsModel.dual.map (fun dual => decide (dual.Feasible [1, -2, 0])) =
      .ok true := by
    decide +kernel
  rw [hdual] at hprices
  have hy : dual.Feasible [1, -2, 0] := of_decide_eq_true (Except.ok.inj hprices)
  exact ⟨hvalid, hx, dual, hdual, hy, (hweak _ _ hx hy).2 rfl⟩

end Model

end LinOpt
