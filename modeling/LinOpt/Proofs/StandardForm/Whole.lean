import LinOpt.Proofs.StandardForm.Meaning
/-!
# The standard form of a whole model

Where no variable is free or nonpositive, each variable is its own column (`Kind.isPlain`): the vector
of a point starts with the point itself (`structuralPart_eq`), and a column behind it that is not
artificial is the slack or surplus of one row (`exists_slack`), which holds what is left of that row
(`entry_lift_slack`). Where every variable must be whole and the data are whole as well, so is the
vector of every whole point (`lift_mem_wholes`).
-/

namespace LinOpt

open Finset

/-! ## Whole numbers -/

/-- The integers among the rationals. -/
def wholes : Subring ℚ := (Int.castRingHom ℚ).range

theorem mem_wholes {a : ℚ} : a ∈ wholes ↔ ∃ z : ℤ, a = z := by
  constructor
  · rintro ⟨z, rfl⟩
    exact ⟨z, rfl⟩
  · rintro ⟨z, rfl⟩
    exact ⟨z, rfl⟩

theorem intCast_mem_wholes (z : ℤ) : (z : ℚ) ∈ wholes := ⟨z, rfl⟩

instance (a : ℚ) : Decidable (a ∈ wholes) :=
  decidable_of_iff ((a.num : ℚ) = a) ⟨fun h => mem_wholes.mpr ⟨_, h.symm⟩, fun h => by
    obtain ⟨z, rfl⟩ := mem_wholes.mp h
    rw [Rat.num_intCast]⟩

variable {x y : List ℚ} {j k : ℕ}

theorem entry_mem_wholes (h : ∀ a ∈ x, a ∈ wholes) (j : ℕ) : entry x j ∈ wholes := by
  rcases lt_or_ge j x.length with hj | hj
  · rw [entry_eq_getElem hj]
    exact h _ (List.getElem_mem hj)
  · rw [entry_of_length_le hj]
    exact zero_mem _

theorem dot_mem_wholes (hx : ∀ j, entry x j ∈ wholes) (hy : ∀ j, entry y j ∈ wholes) :
    dot x y ∈ wholes := by
  rw [dot_eq_sum (n := x.length) (le_refl _)]
  exact sum_mem fun j _ => mul_mem (hx j) (hy j)

/-- A whole number that is below another by less than one is not above it. -/
theorem le_of_mem_wholes {a b : ℚ} (ha : a ∈ wholes) (hb : b ∈ wholes) (h : a < b + 1) : a ≤ b := by
  obtain ⟨z, rfl⟩ := mem_wholes.mp ha
  obtain ⟨w, rfl⟩ := mem_wholes.mp hb
  have hlt : z < w + 1 := by exact_mod_cast h
  exact_mod_cast (by omega : z ≤ w)

/-! ## Kinds -/

/-- Is a variable of this kind its own column? -/
def Kind.isPlain : Kind → Bool
  | .free | .nonpos => false
  | _ => true

theorem all_isPlain_of_all_isInteger {kinds : List Kind} (h : kinds.all Kind.isInteger = true) :
    kinds.all Kind.isPlain = true := by
  refine List.all_eq_true.mpr fun kind hkind => ?_
  have hinteger := List.all_eq_true.mp h kind hkind
  cases kind <;> first | rfl | simp [Kind.isInteger] at hinteger

/-! ## Columns in their blocks -/

/-- A column within a sequence of blocks lies in one of them. -/
theorem exists_offset_le {sizes : List ℕ} (hk : k < sizes.sum) :
    ∃ i < sizes.length, offset sizes i ≤ k ∧ k < offset sizes i + sizes.getD i 0 := by
  induction sizes generalizing k with
  | nil => simp at hk
  | cons size sizes ih =>
    rw [List.sum_cons] at hk
    by_cases hfirst : k < size
    · exact ⟨0, by simp, by simp, by simpa using hfirst⟩
    · obtain ⟨i, hi, hle, hlt⟩ := ih (k := k - size) (by omega)
      refine ⟨i + 1, by simpa using hi, ?_, ?_⟩
      · rw [offset_cons_succ]
        omega
      · rw [offset_cons_succ, List.getD_cons_succ]
        omega

namespace Model

variable {model : Model ℚ} {p : List ℚ} {r : PlacedRow ℚ} {sign : ℚ}

/-- A column behind the structural ones is one of the own columns of a row. -/
theorem exists_own (hlow : structuralWidth model.kinds ≤ k) (hhigh : k < model.formWidth) :
    ∃ r ∈ model.placedRows, ∃ t < r.row.sign.ownWidth, k = r.first + t := by
  have hk : k - structuralWidth model.kinds < model.ownWidths.sum := by
    rw [formWidth] at hhigh
    omega
  obtain ⟨i, hi, hle, hlt⟩ := exists_offset_le hk
  obtain ⟨r, hr, rfl, -⟩ := exists_placed (by simpa using hi)
  obtain ⟨-, -, hfirst⟩ := exists_of_mem_placedRows hr
  rw [ownWidth_eq hr] at hlt
  rw [ownColumn] at hfirst
  exact ⟨r, hr, k - r.first, by omega, by omega⟩

/-- **An own column that is not artificial is the slack or surplus of its row.** -/
theorem exists_slack (opts : Options ℚ) (hlow : structuralWidth model.kinds ≤ k)
    (hhigh : k < model.formWidth) (hnot : k ∉ (model.standardForm opts).artificials) :
    ∃ r ∈ model.placedRows, ∃ sign, r.slack = some (k, sign) := by
  obtain ⟨r, hr, t, ht, rfl⟩ := exists_own hlow hhigh
  have hartificial : ∀ l, r.artificial = some l → r.first + t ≠ l := by
    rintro l hl rfl
    exact hnot (List.mem_filterMap.mpr ⟨r, hr, hl⟩)
  refine ⟨r, hr, ?_⟩
  unfold PlacedRow.artificial at hartificial
  unfold PlacedRow.slack
  cases hsign : r.row.sign <;> simp only [hsign, Relation.ownWidth] at ht hartificial ⊢
  case le =>
    obtain rfl : t = 0 := by omega
    exact ⟨1, rfl⟩
  case ge =>
    have hne := hartificial _ rfl
    obtain rfl : t = 0 := by omega
    exact ⟨-1, rfl⟩
  all_goals
    have hne := hartificial _ rfl
    omega

/-- **A slack or surplus holds what is left of its row**, with the sign that it has there. -/
theorem entry_lift_slack (hsized : model.Sized) (hlen : p.length = model.variableCount)
    (hr : r ∈ model.placedRows) (hslack : r.slack = some (k, sign)) :
    entry (model.lift p) k =
      (r.row.rhs - valueAt r.row.entries (model.structuralPart p)) / sign := by
  have hown := entry_lift_own hsized hlen hr (t := 0)
  unfold PlacedRow.slack at hslack
  unfold PlacedRow.block at hown
  cases hsign : r.row.sign <;>
    simp only [hsign, Option.some.injEq, Prod.mk.injEq, reduceCtorEq] at hslack hown
  case le =>
    obtain ⟨rfl, rfl⟩ := hslack
    have hentry := hown (by simp [Relation.ownWidth])
    rw [Nat.add_zero, entry_cons_zero] at hentry
    rw [hentry, div_one]
  case ge =>
    obtain ⟨rfl, rfl⟩ := hslack
    have hentry := hown (by simp [Relation.ownWidth])
    rw [Nat.add_zero, entry_cons_zero] at hentry
    rw [hentry, div_neg, div_one, neg_sub]

/-! ## Variables that are their own columns -/

section Plain

variable (hkinds : model.kinds.all Kind.isPlain = true)

include hkinds

theorem width_of_plain : model.kinds.map Kind.width = List.replicate model.kinds.length 1 := by
  rw [List.eq_replicate_iff]
  refine ⟨by simp, fun w hw => ?_⟩
  obtain ⟨kind, hkind, rfl⟩ := List.mem_map.mp hw
  have hplain := List.all_eq_true.mp hkinds kind hkind
  cases kind <;> first | rfl | simp [Kind.isPlain] at hplain

theorem firstColumn_of_plain (hj : j ≤ model.kinds.length) : firstColumn model.kinds j = j := by
  rw [firstColumn, width_of_plain hkinds, offset, List.take_replicate]
  simp [hj]

theorem structuralWidth_of_plain : structuralWidth model.kinds = model.kinds.length := by
  rw [structuralWidth, width_of_plain hkinds]
  simp

theorem structuralWidth_eq (hsized : model.Sized) :
    structuralWidth model.kinds = model.variableCount :=
  (structuralWidth_of_plain hkinds).trans hsized.kinds

/-- The components of such a variable: its own column. -/
theorem components_of_plain (hsized : model.Sized) (hj : j < model.variableCount) :
    model.components.getD j [] = [(j, 1)] := by
  have hlt : j < model.kinds.length := hsized.kinds.symm ▸ hj
  have hplain := List.all_eq_true.mp hkinds _ (List.getElem_mem hlt)
  have hget : model.kinds.getD j .free = model.kinds[j] := by simp [hlt]
  rw [components_getD hsized hj, firstColumn_of_plain hkinds (le_of_lt hlt), hget]
  cases hkind : model.kinds[j] <;> first | rfl | simp [hkind, Kind.isPlain] at hplain

theorem entry_componentSums_of_plain (hsized : model.Sized) (hk : k < model.variableCount) :
    entry (componentSums model.components y) k = entry y k := by
  rw [entry_componentSums, components_of_plain hkinds hsized hk]
  simp

/-- **The vector of a point starts with the point.** -/
theorem structuralPart_eq (hlen : p.length = model.kinds.length) : model.structuralPart p = p := by
  have hall : ∀ (kinds : List Kind) (p : List ℚ), kinds.all Kind.isPlain = true →
      p.length = kinds.length →
      (List.zipWith (fun kind v => Kind.block v kind) kinds p).flatten = p := by
    intro kinds
    induction kinds with
    | nil =>
      intro p _ hp
      simp [List.length_eq_zero_iff.mp hp]
    | cons kind kinds ih =>
      intro p hkinds hp
      obtain ⟨a, p, rfl⟩ := List.exists_cons_of_length_pos (by rw [hp]; simp : 0 < p.length)
      obtain ⟨hkind, hkinds⟩ := Bool.and_eq_true_iff.mp hkinds
      have hblock : Kind.block a kind = [a] := by
        cases kind <;> first | rfl | simp [Kind.isPlain] at hkind
      rw [List.zipWith_cons_cons, List.flatten_cons, hblock, ih p hkinds (by simpa using hp)]
      rfl
  exact hall model.kinds p hkinds hlen

theorem entry_lift_of_lt (hsized : model.Sized) (hlen : p.length = model.variableCount)
    (hk : k < model.variableCount) : entry (model.lift p) k = entry p k := by
  rw [lift, structuralPart_eq hkinds (hlen.trans hsized.kinds.symm),
    entry_append_left (hlen.symm ▸ hk)]

end Plain

/-! ## Whole vectors -/

/-- **The coefficients and right-hand sides are whole.** -/
def WholeData (model : Model ℚ) : Prop :=
  (∀ row ∈ model.rows, ∀ a ∈ row, a ∈ wholes) ∧ ∀ b ∈ model.rhs, b ∈ wholes

instance (model : Model ℚ) : Decidable model.WholeData :=
  inferInstanceAs (Decidable ((∀ row ∈ model.rows, ∀ a ∈ row, a ∈ wholes) ∧ _))

/-- What is left of a stated row at a whole point is whole. -/
theorem WholeData.left_mem (hdata : model.WholeData) (hp : ∀ j, entry p j ∈ wholes)
    {row : StatedRow ℚ} (hrow : row ∈ model.statedRows) :
    dot row.coefficients p - row.rhs ∈ wholes := by
  rcases List.mem_append.mp hrow with hmodel | hbound
  · obtain ⟨i, -, rfl⟩ := List.mem_map.mp hmodel
    refine sub_mem (dot_mem_wholes (fun j => ?_) hp) (entry_mem_wholes hdata.2 i)
    rcases lt_or_ge i model.rows.length with hi | hi
    · exact entry_mem_wholes (hdata.1 _ (Dense.rowAt_mem hi)) j
    · have hnil : model.rows.rowAt i = [] := by simp [Dense.rowAt, hi]
      change entry (model.rows.rowAt i) j ∈ wholes
      rw [hnil]
      exact zero_mem _
  · obtain ⟨j, hj, hsome⟩ := List.mem_filterMap.mp hbound
    unfold boundRow? at hsome
    split at hsome
    · obtain rfl := Option.some.inj hsome
      dsimp only
      rw [dot_unit (List.mem_range.mp hj)]
      exact sub_mem (hp j) (one_mem _)
    · simp at hsome

/-- **The vector of a whole point is whole**, where variables and data are. -/
theorem lift_mem_wholes (hsized : model.Sized) (hkinds : model.kinds.all Kind.isInteger = true)
    (hdata : model.WholeData) (hlen : p.length = model.variableCount)
    (hp : ∀ j, entry p j ∈ wholes) (k : ℕ) : entry (model.lift p) k ∈ wholes := by
  have hplain := all_isPlain_of_all_isInteger hkinds
  have hwidth := structuralWidth_eq hplain hsized
  rcases lt_or_ge k model.variableCount with hlow | hlow
  · rw [entry_lift_of_lt hplain hsized hlen hlow]
    exact hp k
  · rcases lt_or_ge k model.formWidth with hhigh | hhigh
    · obtain ⟨r, hr, t, ht, rfl⟩ := exists_own (hwidth.trans_le hlow) hhigh
      obtain ⟨hi, hrow, -⟩ := exists_of_mem_placedRows hr
      have hleft := hdata.left_mem hp (List.getElem_mem hi)
      -- what is left of the placed row is that of the stated one, up to its sign
      have habs := StatedRow.abs_oriented model.components model.statedRows[r.index] (model.lift p)
      rw [← hrow, componentSums_lift hsized hlen, valueAt_lift hsized hlen hr] at habs
      have hvalue : valueAt r.row.entries (model.structuralPart p) - r.row.rhs ∈ wholes := by
        rcases abs_eq_abs.mp habs with heq | heq
        · rw [heq]
          exact hleft
        · rw [heq]
          exact neg_mem hleft
      rw [entry_lift_own hsized hlen hr ht]
      refine entry_mem_wholes (fun a ha => ?_) t
      unfold PlacedRow.block at ha
      cases hsign : r.row.sign <;>
        simp only [hsign, List.mem_cons, List.not_mem_nil, or_false] at ha
      case le =>
        rw [ha, ← neg_sub]
        exact neg_mem hvalue
      case ge =>
        rcases ha with rfl | rfl
        · exact hvalue
        · exact zero_mem _
      all_goals exact ha ▸ zero_mem _
    · rw [entry_of_length_le ((length_lift hsized hlen).trans_le hhigh)]
      exact zero_mem _

end Model

end LinOpt
