import LinOpt.Model
import LinOpt.Proofs.Dense
/-!
# Valid models and their points

`Model.Valid` is what validation promises of a model: its parts agree in size and every word is a
known one. `Model.Feasible` is the meaning of a model as a set of points, every kind read as a
continuous restriction. Both are decidable, so that a model and a point can be tried. A point that
misses its rows by no more than a tolerance is `Model.NearlyFeasible`; where kinds may be missed too,
it is `Model.FeasibleWithin`.

`Model.extent` measures a point against a model: its size, and the room it leaves in each row. A
point that the simplex method cannot see is one of large extent.
-/

namespace LinOpt

open Finset

/-! ## Known words -/

/-- Is this one of the two senses? -/
def Sense.isKnown : Sense → Bool
  | .other _ => false
  | _ => true

/-- Is this one of the three relations? -/
def Relation.isKnown : Relation → Bool
  | .other _ => false
  | _ => true

/-- Is this one of the five kinds? -/
def Kind.isKnown : Kind → Bool
  | .other _ => false
  | _ => true

/-! ## Meaning of the words -/

/-- The relation holds between two sides. A relation that is none of the three is read as an
equation. -/
def Relation.Holds : Relation → ℚ → ℚ → Prop
  | .le, a, b => a ≤ b
  | .ge, a, b => b ≤ a
  | _, a, b => a = b

instance (sign : Relation) (a b : ℚ) : Decidable (sign.Holds a b) :=
  match sign with
  | .le => inferInstanceAs (Decidable (a ≤ b))
  | .ge => inferInstanceAs (Decidable (b ≤ a))
  | .eq => inferInstanceAs (Decidable (a = b))
  | .other _ => inferInstanceAs (Decidable (a = b))

/-- The relation holds between two sides up to a tolerance. -/
def Relation.HoldsWithin (tol : ℚ) : Relation → ℚ → ℚ → Prop
  | .le, a, b => a ≤ b + tol
  | .ge, a, b => b ≤ a + tol
  | _, a, b => |a - b| ≤ tol

instance (tol : ℚ) (sign : Relation) (a b : ℚ) : Decidable (sign.HoldsWithin tol a b) :=
  match sign with
  | .le => inferInstanceAs (Decidable (a ≤ b + tol))
  | .ge => inferInstanceAs (Decidable (b ≤ a + tol))
  | .eq => inferInstanceAs (Decidable (|a - b| ≤ tol))
  | .other _ => inferInstanceAs (Decidable (|a - b| ≤ tol))

namespace Relation

variable (sign : Relation) {tol tol' a a' b : ℚ}

theorem holdsWithin_zero : sign.HoldsWithin 0 a b ↔ sign.Holds a b := by
  cases sign <;> simp [HoldsWithin, Holds, abs_nonpos_iff, sub_eq_zero]

theorem HoldsWithin.mono {sign : Relation} (h : sign.HoldsWithin tol a b) (hle : tol ≤ tol') :
    sign.HoldsWithin tol' a b := by
  cases sign <;> simp only [HoldsWithin] at h ⊢ <;> linarith

/-- Moving the left side costs no more than the way it moves. -/
theorem HoldsWithin.move {sign : Relation} (h : sign.HoldsWithin tol a b)
    (hclose : |a' - a| ≤ tol') : sign.HoldsWithin (tol + tol') a' b := by
  obtain ⟨hlow, hhigh⟩ := abs_le.mp hclose
  cases sign <;> simp only [HoldsWithin, abs_le] at h ⊢
  case le => linarith
  case ge => linarith
  all_goals exact ⟨by linarith [h.1], by linarith [h.2]⟩

/-- Negating both sides turns the relation round. -/
theorem holdsWithin_flip_neg : sign.flip.HoldsWithin tol (-a) (-b) ↔ sign.HoldsWithin tol a b := by
  have habs : |(-a) - (-b)| = |a - b| := by
    rw [← abs_neg]
    congr 1
    ring
  cases sign <;> simp only [flip, HoldsWithin, habs] <;> constructor <;> intro h <;> linarith

end Relation

/-- The value is one that the kind admits, whole numbers apart. -/
def Kind.Admits : Kind → ℚ → Prop
  | .free, _ => True
  | .nonpos, a => a ≤ 0
  | .bin, a => 0 ≤ a ∧ a ≤ 1
  | _, a => 0 ≤ a

instance (kind : Kind) (a : ℚ) : Decidable (kind.Admits a) :=
  match kind with
  | .free => isTrue trivial
  | .nonpos => inferInstanceAs (Decidable (a ≤ 0))
  | .bin => inferInstanceAs (Decidable (0 ≤ a ∧ a ≤ 1))
  | .nonneg => inferInstanceAs (Decidable (0 ≤ a))
  | .int => inferInstanceAs (Decidable (0 ≤ a))
  | .other _ => inferInstanceAs (Decidable (0 ≤ a))

/-- The value is one that the kind admits, up to a tolerance. -/
def Kind.AdmitsWithin (tol : ℚ) : Kind → ℚ → Prop
  | .free, _ => True
  | .nonpos, a => a ≤ tol
  | .bin, a => -tol ≤ a ∧ a ≤ 1 + tol
  | _, a => -tol ≤ a

instance (tol : ℚ) (kind : Kind) (a : ℚ) : Decidable (kind.AdmitsWithin tol a) :=
  match kind with
  | .free => isTrue trivial
  | .nonpos => inferInstanceAs (Decidable (a ≤ tol))
  | .bin => inferInstanceAs (Decidable (-tol ≤ a ∧ a ≤ 1 + tol))
  | .nonneg => inferInstanceAs (Decidable (-tol ≤ a))
  | .int => inferInstanceAs (Decidable (-tol ≤ a))
  | .other _ => inferInstanceAs (Decidable (-tol ≤ a))

namespace Kind

variable {kind : Kind} {tol tol' a : ℚ}

theorem admitsWithin_zero : kind.AdmitsWithin 0 a ↔ kind.Admits a := by
  cases kind <;> simp [AdmitsWithin, Admits]

theorem AdmitsWithin.mono (h : kind.AdmitsWithin tol a) (hle : tol ≤ tol') :
    kind.AdmitsWithin tol' a := by
  cases kind <;> simp only [AdmitsWithin] at h ⊢
  case bin => exact ⟨by linarith [h.1], by linarith [h.2]⟩
  all_goals linarith

/-- Zero is a value of every kind. -/
theorem admitsWithin_zero_right (htol : 0 ≤ tol) : kind.AdmitsWithin tol 0 := by
  cases kind <;> simp only [AdmitsWithin]
  case bin => exact ⟨by linarith, by linarith⟩
  all_goals linarith

end Kind

namespace Model

/-! ## Valid models -/

/-- **What validation promises of a model.** -/
structure Valid {α : Type} (model : Model α) : Prop where
  shape : model.shapeFault? = none
  sense : model.sense.isKnown = true
  signs : model.signs.all Relation.isKnown = true
  kinds : model.kinds.all Kind.isKnown = true

instance {α : Type} (model : Model α) : Decidable model.Valid :=
  decidable_of_iff (model.shapeFault? = none ∧ model.sense.isKnown = true ∧
      model.signs.all Relation.isKnown = true ∧ model.kinds.all Kind.isKnown = true)
    ⟨fun ⟨h1, h2, h3, h4⟩ => ⟨h1, h2, h3, h4⟩, fun ⟨h1, h2, h3, h4⟩ => ⟨h1, h2, h3, h4⟩⟩

/-- The check of the rows passes only where every row has the length asked for. -/
theorem length_of_rowFault?_eq_none {α : Type} {expected : ℕ} {rows : Dense α} {i : ℕ}
    (h : rowFault? expected i rows = none) : ∀ row ∈ rows, row.length = expected := by
  induction rows generalizing i with
  | nil => simp
  | cons row rows ih =>
    unfold rowFault? at h
    split at h
    · simp at h
    · rename_i hlen
      intro r hr
      rcases List.mem_cons.mp hr with rfl | hr
      · exact not_not.mp hlen
      · exact ih h r hr

/-- The sizes that a valid model has. -/
structure Sized {α : Type} (model : Model α) : Prop where
  rows : model.rows.length = model.rowCount
  row : ∀ row ∈ model.rows, row.length = model.variableCount
  signs : model.signs.length = model.rowCount
  kinds : model.kinds.length = model.variableCount
  names : model.names.length = model.variableCount

/-- **A valid model has its sizes.** -/
theorem Valid.sized {α : Type} {model : Model α} (h : model.Valid) : model.Sized := by
  have hshape := h.shape
  unfold shapeFault? at hshape
  dsimp only at hshape
  split at hshape
  · simp at hshape
  · rename_i hrows
    split at hshape
    · simp at hshape
    · rename_i hrow
      split at hshape
      · simp at hshape
      · rename_i hsigns
        split at hshape
        · simp at hshape
        · rename_i hkinds
          refine ⟨not_not.mp hrows, length_of_rowFault?_eq_none hrow, not_not.mp hsigns,
            not_not.mp hkinds, ?_⟩
          unfold names
          split at hshape
          · rename_i hnone
            simp [hnone]
          · rename_i given hsome
            rw [hsome]
            by_contra hne
            rw [if_pos hne] at hshape
            simp at hshape

/-! ## Points -/

/-- **The point meets the model**: every row, and every kind read as a continuous restriction. -/
structure Feasible (model : Model ℚ) (p : List ℚ) : Prop where
  length_eq : p.length = model.variableCount
  rows : ∀ i < model.rowCount,
    (model.signs.getD i .eq).Holds (dot (model.rows.rowAt i) p) (entry model.rhs i)
  kinds : ∀ j < model.variableCount, (model.kinds.getD j .free).Admits (entry p j)

instance (model : Model ℚ) (p : List ℚ) : Decidable (model.Feasible p) :=
  decidable_of_iff (p.length = model.variableCount ∧
      (∀ i < model.rowCount,
        (model.signs.getD i .eq).Holds (dot (model.rows.rowAt i) p) (entry model.rhs i)) ∧
      ∀ j < model.variableCount, (model.kinds.getD j .free).Admits (entry p j))
    ⟨fun ⟨h1, h2, h3⟩ => ⟨h1, h2, h3⟩, fun ⟨h1, h2, h3⟩ => ⟨h1, h2, h3⟩⟩

/-- **The point meets the model up to tolerances**: one for the kinds, and one for each row. -/
structure FeasibleWithin (model : Model ℚ) (kindTol : ℚ) (rowTol : ℕ → ℚ) (p : List ℚ) :
    Prop where
  length_eq : p.length = model.variableCount
  rows : ∀ i < model.rowCount,
    (model.signs.getD i .eq).HoldsWithin (rowTol i) (dot (model.rows.rowAt i) p) (entry model.rhs i)
  kinds : ∀ j < model.variableCount, (model.kinds.getD j .free).AdmitsWithin kindTol (entry p j)

instance (model : Model ℚ) (kindTol : ℚ) (rowTol : ℕ → ℚ) (p : List ℚ) :
    Decidable (model.FeasibleWithin kindTol rowTol p) :=
  decidable_of_iff (p.length = model.variableCount ∧
      (∀ i < model.rowCount, (model.signs.getD i .eq).HoldsWithin (rowTol i)
        (dot (model.rows.rowAt i) p) (entry model.rhs i)) ∧
      ∀ j < model.variableCount, (model.kinds.getD j .free).AdmitsWithin kindTol (entry p j))
    ⟨fun ⟨h1, h2, h3⟩ => ⟨h1, h2, h3⟩, fun ⟨h1, h2, h3⟩ => ⟨h1, h2, h3⟩⟩

theorem FeasibleWithin.mono {model : Model ℚ} {kindTol kindTol' : ℚ} {rowTol rowTol' : ℕ → ℚ}
    {p : List ℚ} (h : model.FeasibleWithin kindTol rowTol p) (hkind : kindTol ≤ kindTol')
    (hrow : ∀ i < model.rowCount, rowTol i ≤ rowTol' i) :
    model.FeasibleWithin kindTol' rowTol' p :=
  ⟨h.length_eq, fun i hi => (h.rows i hi).mono (hrow i hi), fun j hj => (h.kinds j hj).mono hkind⟩

/-- **The point meets the kinds of the model, and its rows up to a tolerance.** -/
structure NearlyFeasible (model : Model ℚ) (tol : ℚ) (p : List ℚ) : Prop where
  length_eq : p.length = model.variableCount
  rows : ∀ i < model.rowCount,
    (model.signs.getD i .eq).HoldsWithin tol (dot (model.rows.rowAt i) p) (entry model.rhs i)
  kinds : ∀ j < model.variableCount, (model.kinds.getD j .free).Admits (entry p j)

theorem nearlyFeasible_iff {model : Model ℚ} {tol : ℚ} {p : List ℚ} :
    model.NearlyFeasible tol p ↔ model.FeasibleWithin 0 (fun _ => tol) p := by
  constructor
  · rintro ⟨hlen, hrows, hkinds⟩
    exact ⟨hlen, hrows, fun j hj => Kind.admitsWithin_zero.mpr (hkinds j hj)⟩
  · rintro ⟨hlen, hrows, hkinds⟩
    exact ⟨hlen, hrows, fun j hj => Kind.admitsWithin_zero.mp (hkinds j hj)⟩

theorem nearlyFeasible_zero {model : Model ℚ} {p : List ℚ} :
    model.NearlyFeasible 0 p ↔ model.Feasible p := by
  constructor
  · rintro ⟨hlen, hrows, hkinds⟩
    exact ⟨hlen, fun i hi => (Relation.holdsWithin_zero _).mp (hrows i hi), hkinds⟩
  · rintro ⟨hlen, hrows, hkinds⟩
    exact ⟨hlen, fun i hi => (Relation.holdsWithin_zero _).mpr (hrows i hi), hkinds⟩

/-- The objective of a point, signed so that more is better. -/
def gain (model : Model ℚ) (p : List ℚ) : ℚ := model.sense.factor * dot model.costs p

/-- **Feasible points reach any objective.** -/
def Unbounded (model : Model ℚ) : Prop := ∀ K, ∃ p, model.Feasible p ∧ K < model.gain p

theorem not_unbounded_of_gain_le {model : Model ℚ} (K : ℚ)
    (h : ∀ p, model.Feasible p → model.gain p ≤ K) :
    ¬ model.Unbounded := by
  intro hunbounded
  obtain ⟨p, hp, hlt⟩ := hunbounded K
  exact absurd hlt (not_lt.mpr (h p hp))

/-- How far a point is from the origin and from its rows: the magnitudes of its entries, the
distance between the sides of each row, and the room below one of each binary variable. -/
def extent (model : Model ℚ) (p : List ℚ) : ℚ :=
  (∑ j ∈ range model.variableCount, |entry p j|) +
    (∑ i ∈ range model.rowCount, |dot (model.rows.rowAt i) p - entry model.rhs i|) +
    ∑ j ∈ (range model.variableCount).filter (model.kinds.getD · .free = .bin), |entry p j - 1|

end Model

/-- Minimise `2 u + 3 v` under `u + v ≥ 4`, `u - v = -2` and `u ≤ 5`, with `u` not negative and `v`
free. -/
def mixedModel : Model ℚ :=
  { sense := .min
    rows := [[1, 1], [1, -1], [1, 0]]
    rhs := [4, -2, 5]
    costs := [2, 3]
    signs := [.ge, .eq, .le]
    kinds := [.nonneg, .free] }

end LinOpt
