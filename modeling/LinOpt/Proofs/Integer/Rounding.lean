import LinOpt.Integer.CuttingPlane
import LinOpt.Proofs.Extension
import LinOpt.Proofs.Simplex.Evidence
/-!
# Rounding a solution

A search accepts a solution whose whole variables are within a tolerance of the integers, and moves
them there. Both searches do the same to it: `Rounds` says that the listed entries are whole, that
none has moved further than the tolerance, and that the others are as they were.

Moving a point costs a row what its coefficients make of the way (`spread`), and a kind the
tolerance (`FeasibleWithin.rounds`). Nothing checks the rows again.
-/

namespace LinOpt

open Finset

variable {values solution s p row : List ℚ} {tol x a b : ℚ} {j : ℕ} {places : List ℕ}

/-! ## The nearest integer -/

/-- The nearest integer is no further than a half. -/
theorem abs_sub_nearestRat_le_half (x : ℚ) : |x - nearestRat x| ≤ 1 / 2 := by
  have hlow := Rat.floor_le x
  have hhigh := Rat.lt_floor_add_one x
  push_cast at hhigh
  have hodd : x.floor % 2 = 0 ∨ x.floor % 2 = 1 := by omega
  unfold nearestRat
  dsimp only
  rw [abs_le]
  split_ifs with hbelow habove
  · constructor <;> linarith
  · push_cast
    constructor <;> linarith
  · rcases hodd with hodd | hodd <;> rw [hodd] <;> push_cast <;> constructor <;> linarith

/-- **No integer is nearer than the nearest one.** -/
theorem abs_sub_nearestRat_le (x : ℚ) (m : ℤ) : |x - nearestRat x| ≤ |x - m| := by
  have hhalf := abs_sub_nearestRat_le_half x
  by_cases hm : nearestRat x = m
  · rw [hm]
  · have hapart : (1 : ℤ) ≤ |nearestRat x - m| := by
      have hpos := abs_pos.mpr (sub_ne_zero.mpr hm)
      omega
    have hapart' : (1 : ℚ) ≤ |(nearestRat x : ℚ) - m| := by exact_mod_cast hapart
    have htriangle := abs_sub_le (nearestRat x : ℚ) x m
    rw [abs_sub_comm (nearestRat x : ℚ) x] at htriangle
    linarith

@[simp] theorem nearestRat_intCast (m : ℤ) : nearestRat m = m := by
  simp [nearestRat]

/-- The nearest integer of the opposite number is the opposite one, ties included. -/
theorem nearestRat_neg (x : ℚ) : nearestRat (-x) = -nearestRat x := by
  have hlow := Rat.floor_le x
  have hhigh := Rat.lt_floor_add_one x
  push_cast at hhigh
  by_cases hwhole : x = x.floor
  · rw [hwhole, ← Int.cast_neg, nearestRat_intCast, nearestRat_intCast]
  · have hfloor : (-x).floor = -x.floor - 1 := by
      have hlt : (x.floor : ℚ) < x := lt_of_le_of_ne hlow (Ne.symm hwhole)
      refine le_antisymm (Int.lt_add_one_iff.mp (Rat.floor_lt_iff.mpr ?_)) (Rat.le_floor_iff.mpr ?_)
      · push_cast
        linarith
      · push_cast
        linarith
    have hodd : x.floor % 2 = 0 ∨ x.floor % 2 = 1 := by omega
    unfold nearestRat
    rw [hfloor]
    dsimp only
    push_cast
    split_ifs <;> first | omega | linarith

/-- A number to three decimals is the nearest one. -/
theorem round3_eq (x : ℚ) : Scalar.round3 x = nearestRat (x * 1000) / 1000 := by
  have hround : Scalar.rint (x * Scalar.ofInt 1000) / Scalar.ofInt 1000 =
      (nearestRat (x * 1000) / 1000 : ℚ) := rfl
  unfold Scalar.round3
  rw [hround]
  dsimp only
  split
  · rename_i h
    exact (eq_of_beq h).symm
  · rfl

/-- The distance to the nearest integer. -/
def wholeGap (x : ℚ) : ℚ := |x - nearestRat x|

theorem nearestWhole_eq (x : ℚ) :
    nearestWhole x = (.ok (nearestRat x : ℚ) : Except (Fault ℚ) ℚ) := rfl

theorem integerGap_eq (x : ℚ) : integerGap x = (.ok (wholeGap x) : Except (Fault ℚ) ℚ) :=
  congrArg Except.ok (scalar_abs_eq (x - nearestRat x))

/-! ## Reading and writing entries -/

theorem position_read_eq {β : Type} {xs : List β} (hj : j < xs.length) (default : β) :
    Position.read xs (j : ℤ) = (.ok (xs.getD j default) : Except (Fault ℚ) β) := by
  rw [Position.read, Position.resolve_natCast hj]
  exact position_get_eq hj default

theorem read_eq (hj : j < values.length) :
    Position.read values (j : ℤ) = (.ok (entry values j) : Except (Fault ℚ) ℚ) :=
  position_read_eq hj 0

theorem lt_of_read_eq {β : Type} {xs : List β} {x : β}
    (h : Position.read xs (j : ℤ) = (.ok x : Except (Fault ℚ) β)) : j < xs.length := by
  by_contra hge
  have hresolve : Position.resolve xs.length (j : ℤ) = none := by
    simpa [Position.resolve] using hge
  rw [Position.read, hresolve] at h
  cases h

theorem eq_of_read_eq (h : Position.read values (j : ℤ) = (.ok x : Except (Fault ℚ) ℚ)) :
    x = entry values j := by
  have hread := h
  rw [read_eq (lt_of_read_eq h)] at hread
  exact (Except.ok.inj hread).symm

theorem write_eq (hj : j < values.length) (x : ℚ) :
    Position.write values (j : ℤ) x = (.ok (values.set j x) : Except (Fault ℚ) (List ℚ)) := by
  rw [Position.write, Position.resolve_natCast hj]

/-! ## Solutions that are whole -/

/-- **A search branches on nothing only where every value it looks at is near an integer.** -/
theorem wholeGap_le_of_selectFractional (htol : 1e-12 ≤ tol)
    (h : selectFractional values (places.map Int.ofNat) tol = .ok none) :
    ∀ j ∈ places, wholeGap (entry values j) ≤ tol := by
  unfold selectFractional at h
  obtain ⟨out, hfold, hout⟩ := exists_of_bind_eq_ok h
  have hnone : out.1 = none := Except.ok.inj hout
  -- while nothing has been chosen the best gap is zero, and what has been chosen stays
  suffices hscan : ∀ (more : List ℕ) (best : Option (ℤ × ℚ) × ℚ),
      (best.1 = none → best.2 = 0) →
      (more.map Int.ofNat).foldlM (fun (best : Option (ℤ × ℚ) × ℚ) j => do
        let value ← Position.read values j
        let gap ← integerGap value
        return if tol < gap ∧ best.2 + 1e-12 < gap then (some (j, value), gap) else best)
        best = (.ok out : Except (Fault ℚ) _) →
      best.1 = none ∧ ∀ j ∈ more, wholeGap (entry values j) ≤ tol by
    exact (hscan places (none, 0) (fun _ => rfl) hfold).2
  intro more
  induction more with
  | nil =>
    intro best _ hend
    have hbest : best = out := Except.ok.inj hend
    exact ⟨hbest ▸ hnone, by simp⟩
  | cons k more ih =>
    intro best hzero hend
    rw [List.map_cons, List.foldlM_cons] at hend
    obtain ⟨middle, hstep, hrest⟩ := exists_of_bind_eq_ok hend
    obtain ⟨value, hread, hstep⟩ := exists_of_bind_eq_ok hstep
    obtain ⟨gap, hgap, hstep⟩ := exists_of_bind_eq_ok hstep
    obtain rfl : value = entry values k := eq_of_read_eq hread
    rw [integerGap_eq] at hgap
    obtain rfl := Except.ok.inj hgap
    have hmiddle := Except.ok.inj hstep
    split at hmiddle
    · -- the place is chosen, so the search does not end with none
      have hsome : middle.1 = some ((k : ℤ), entry values k) := by rw [← hmiddle]; rfl
      have hno := (ih middle (by simp [hsome]) hrest).1
      rw [hsome] at hno
      cases hno
    · rename_i hkeep
      subst hmiddle
      obtain ⟨hbest, hmore⟩ := ih best hzero hrest
      refine ⟨hbest, fun j hj => ?_⟩
      rcases List.mem_cons.mp hj with rfl | hj
      · by_contra hlt
        have hlt' := not_le.mp hlt
        refine hkeep ⟨hlt', ?_⟩
        rw [hzero hbest]
        linarith
      · exact hmore j hj

/-- The first value that is not near an integer is one of those looked at; without one all are. -/
theorem firstFractional_cases {choice : Option ℤ}
    (h : firstFractional values tol (places.map Int.ofNat) = .ok choice) :
    (choice = none ∧ ∀ j ∈ places, wholeGap (entry values j) ≤ tol) ∨
      ∃ j ∈ places, choice = some (j : ℤ) ∧ j < values.length ∧
        tol < wholeGap (entry values j) := by
  induction places with
  | nil => exact Or.inl ⟨(Except.ok.inj h).symm, by simp⟩
  | cons k places ih =>
    rw [List.map_cons, firstFractional] at h
    obtain ⟨value, hread, h⟩ := exists_of_bind_eq_ok h
    obtain ⟨gap, hgap, h⟩ := exists_of_bind_eq_ok h
    obtain rfl : value = entry values k := eq_of_read_eq hread
    rw [integerGap_eq] at hgap
    obtain rfl := Except.ok.inj hgap
    by_cases hfar : tol < wholeGap (entry values k)
    · rw [if_pos hfar] at h
      exact Or.inr ⟨k, List.mem_cons_self, (Except.ok.inj h).symm, lt_of_read_eq hread, hfar⟩
    · rw [if_neg hfar] at h
      rcases ih h with ⟨hnone, hall⟩ | ⟨j, hj, hsome⟩
      · refine Or.inl ⟨hnone, fun j hj => ?_⟩
        rcases List.mem_cons.mp hj with rfl | hj
        · exact not_lt.mp hfar
        · exact hall j hj
      · exact Or.inr ⟨j, List.mem_cons_of_mem _ hj, hsome⟩

/-! ## Rounding -/

/-- **The point is the solution with the listed entries moved to integers**, none of them further
than the tolerance. -/
structure Rounds (places : List ℕ) (tol : ℚ) (s p : List ℚ) : Prop where
  length_eq : p.length = s.length
  whole : ∀ j ∈ places, ∃ z : ℤ, entry p j = z
  near : ∀ j ∈ places, |entry p j - entry s j| ≤ tol
  rest : ∀ j, j ∉ places → entry p j = entry s j

namespace Rounds

theorem abs_sub_le (h : Rounds places tol s p) (htol : 0 ≤ tol) (j : ℕ) :
    |entry p j - entry s j| ≤ tol := by
  by_cases hj : j ∈ places
  · exact h.near j hj
  · rw [h.rest j hj, sub_self, abs_zero]
    exact htol

/-- Moving one entry to its nearest integer, and then the others. -/
theorem cons (hj : j < s.length) (hnot : j ∉ places) (hgap : wholeGap (entry s j) ≤ tol)
    (h : Rounds places tol (s.set j (nearestRat (entry s j))) p) :
    Rounds (j :: places) tol s p := by
  have hset : ∀ k, entry (s.set j (nearestRat (entry s j))) k =
      if k = j then (nearestRat (entry s j) : ℚ) else entry s k := entry_set _ hj
  have hself : entry p j = nearestRat (entry s j) := by
    rw [h.rest j hnot, hset, if_pos rfl]
  have hother : ∀ k ∈ places, k ≠ j := by
    rintro k hk rfl
    exact hnot hk
  refine ⟨by rw [h.length_eq, List.length_set], fun k hk => ?_, fun k hk => ?_, fun k hk => ?_⟩
  · rcases List.mem_cons.mp hk with rfl | hk
    · exact ⟨_, hself⟩
    · exact h.whole k hk
  · rcases List.mem_cons.mp hk with rfl | hk
    · rw [hself, abs_sub_comm]
      exact hgap
    · have hnear := h.near k hk
      rwa [hset, if_neg (hother k hk)] at hnear
  · have hne : k ≠ j := fun heq => hk (heq ▸ List.mem_cons_self)
    rw [h.rest k fun hmem => hk (List.mem_cons_of_mem _ hmem), hset, if_neg hne]

end Rounds

/-- **Snapping rounds**, where every listed value is near an integer. -/
theorem rounds_of_snap (hnodup : places.Nodup) (hgap : ∀ j ∈ places, wholeGap (entry s j) ≤ tol)
    (h : snap s (places.map Int.ofNat) tol = .ok p) : Rounds places tol s p := by
  unfold snap at h
  induction places generalizing s with
  | nil =>
    obtain rfl : s = p := Except.ok.inj h
    exact ⟨rfl, by simp, by simp, fun _ _ => rfl⟩
  | cons j places ih =>
    obtain ⟨hnot, hnodup⟩ := List.nodup_cons.mp hnodup
    rw [List.map_cons, List.foldlM_cons] at h
    obtain ⟨middle, hstep, hrest⟩ := exists_of_bind_eq_ok h
    obtain ⟨value, hread, hstep⟩ := exists_of_bind_eq_ok hstep
    have hj := lt_of_read_eq hread
    obtain rfl : value = entry s j := eq_of_read_eq hread
    have hnear := hgap j List.mem_cons_self
    rw [integerGap_eq, ok_bind, if_pos hnear, nearestWhole_eq, ok_bind] at hstep
    obtain rfl := Except.ok.inj ((write_eq hj _).symm.trans hstep)
    refine Rounds.cons hj hnot hnear (ih hnodup (fun k hk => ?_) hrest)
    have hne : k ≠ j := by
      rintro rfl
      exact hnot hk
    rw [entry_set _ hj, if_neg hne]
    exact hgap k (List.mem_cons_of_mem _ hk)

/-- **So does rounding every whole variable at once.** -/
theorem rounds_of_roundWhole {model : Model ℚ}
    (hgap : ∀ j ∈ model.integerIndices, wholeGap (entry s j) ≤ tol)
    (hlt : ∀ j ∈ model.integerIndices, j < s.length)
    (h : CuttingPlane.roundWhole model s = .ok p) : Rounds model.integerIndices tol s p := by
  let round : ℕ → ℚ := fun j =>
    if model.integerIndices.contains j then (nearestRat (entry s j) : ℚ) else entry s j
  have hmap : CuttingPlane.roundWhole model s = .ok ((List.range s.length).map round) := by
    rw [CuttingPlane.roundWhole, zipIdx_eq_map_range s 0, List.mapM_map]
    refine mapM_eq_ok fun j _ => ?_
    change (if model.integerIndices.contains j then nearestWhole (entry s j)
      else pure (entry s j)) = (.ok (round j) : Except (Fault ℚ) ℚ)
    by_cases hj : model.integerIndices.contains j <;> simp only [round, hj, if_true] <;> rfl
  obtain rfl := Except.ok.inj (hmap.symm.trans h)
  have hmem : ∀ j ∈ model.integerIndices,
      entry ((List.range s.length).map round) j = nearestRat (entry s j) := by
    intro j hj
    rw [entry_range_map _ (hlt j hj)]
    simp [round, hj]
  refine ⟨by simp, fun j hj => ⟨_, hmem j hj⟩, fun j hj => ?_, fun j hj => ?_⟩
  · rw [hmem j hj, abs_sub_comm]
    exact hgap j hj
  · by_cases hlen : j < s.length
    · rw [entry_range_map _ hlen]
      simp [round, hj]
    · rw [entry_of_length_le (by simpa using hlen), entry_of_length_le (not_lt.mp hlen)]

/-! ## What rounding costs -/

/-- What the coefficients of a row make of the way between two points. -/
def spread (row s p : List ℚ) : ℚ := ∑ j ∈ range row.length, |entry row j| * |entry p j - entry s j|

theorem abs_dot_sub_le (row s p : List ℚ) : |dot row p - dot row s| ≤ spread row s p := by
  rw [dot_eq_sum (n := row.length) (le_refl _), dot_eq_sum (n := row.length) (le_refl _),
    ← Finset.sum_sub_distrib]
  refine le_trans (Finset.abs_sum_le_sum_abs _ _) (Finset.sum_le_sum fun j _ => ?_)
  rw [← mul_sub, abs_mul]

/-- Moving a value costs a kind no more than the way it moves. -/
theorem Kind.AdmitsWithin.move {kind : Kind} {low : ℚ} (h : kind.AdmitsWithin low a)
    (hclose : |b - a| ≤ tol) : kind.AdmitsWithin (low + tol) b := by
  obtain ⟨hlow, hhigh⟩ := abs_le.mp hclose
  cases kind <;> simp only [AdmitsWithin] at h ⊢
  case bin => exact ⟨by linarith [h.1], by linarith [h.2]⟩
  all_goals linarith

namespace Model

variable {model : Model ℚ}

theorem nodup_integerIndices (model : Model ℚ) : model.integerIndices.Nodup :=
  List.nodup_range.filter _

/-- **Rounding a point that nearly meets a model** costs the kinds the tolerance, and each row what
its coefficients make of the way. -/
theorem FeasibleWithin.rounds {low : ℚ} {rowTol : ℕ → ℚ} (h : model.FeasibleWithin low rowTol s)
    (hrounds : Rounds places tol s p) (htol : 0 ≤ tol) :
    model.FeasibleWithin (low + tol)
      (fun i => rowTol i + spread (model.rows.rowAt i) s p) p where
  length_eq := hrounds.length_eq.trans h.length_eq
  rows := fun i hi => (h.rows i hi).move (abs_dot_sub_le _ _ _)
  kinds := fun j hj => (h.kinds j hj).move (hrounds.abs_sub_le htol j)

/-- Moving a point costs the gain no more than the costs make of the way. -/
theorem gain_le_add_spread (model : Model ℚ) (s p : List ℚ) :
    model.gain s ≤ model.gain p + spread model.costs s p := by
  have hfactor := model.sense.factor_mul_le (dot model.costs s - dot model.costs p)
  have hspread := abs_dot_sub_le model.costs s p
  rw [abs_sub_comm] at hspread
  have hsplit : model.sense.factor * (dot model.costs s - dot model.costs p) =
      model.gain s - model.gain p := by
    rw [gain, gain]
    ring
  linarith

end Model

end LinOpt
