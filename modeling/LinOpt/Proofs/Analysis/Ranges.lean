import LinOpt.Analysis.Sensitivity
import LinOpt.Proofs.Simplex.Solution
import Mathlib.Algebra.Order.Field.Basic
/-!
# Ranges and the limits they come from

A range is found in two steps. A list of coefficients, each with a value, limits how far a change may
go before a value turns negative (`limitsOf`): a positive coefficient limits it from below, a negative
one from above, and a negligible one not at all. The tightest limits are then put around the current
value as the ends of a range (`rangeAround`), with ends of negligible size as zero.

`allows_limitsOf_iff` says what the limits mean, and `contains_rangeAround_iff` that the range means
the same for a value that is apart from its ends. Up to an end, a range may contain a value that is
out of the limits by no more than `1e-12` (`allows_of_contains_rangeAround`).
-/

namespace LinOpt

/-! ## Ends that may be absent -/

/-- Below the lower limit by no more than the slack; an absent limit admits everything. -/
def AboveLower (lower : Option ℚ) (slack d : ℚ) : Prop := ∀ limit ∈ lower, limit - slack ≤ d

/-- Above the upper limit by no more than the slack; an absent limit admits everything. -/
def BelowUpper (upper : Option ℚ) (slack d : ℚ) : Prop := ∀ limit ∈ upper, d ≤ limit + slack

/-- Within both limits, up to the slack. -/
def Allows (limits : Option ℚ × Option ℚ) (slack d : ℚ) : Prop :=
  AboveLower limits.1 slack d ∧ BelowUpper limits.2 slack d

section Ends

variable {lower upper best : Option ℚ} {limit slack current d v : ℚ}

@[simp] theorem aboveLower_none : AboveLower none slack d := nofun

@[simp] theorem belowUpper_none : BelowUpper none slack d := nofun

@[simp] theorem aboveLower_some : AboveLower (some limit) slack d ↔ limit - slack ≤ d := by
  simp [AboveLower]

@[simp] theorem belowUpper_some : BelowUpper (some limit) slack d ↔ d ≤ limit + slack := by
  simp [BelowUpper]

/-- **What a range contains**: the values between its ends. -/
theorem Range.contains_iff {range : Range ℚ} :
    range.contains v 0 = true ↔ Allows (range.lower, range.upper) 0 v := by
  obtain ⟨lower, upper⟩ := range
  cases lower <;> cases upper <;> simp [Range.contains, Allows]

theorem raiseLower_none (limit : ℚ) : raiseLower none limit = some limit :=
  if_pos (beq_self_eq_true limit)

theorem dropUpper_none (limit : ℚ) : dropUpper none limit = some limit :=
  if_pos (beq_self_eq_true limit)

/-- A lower limit met on the way is one more to be above. -/
theorem aboveLower_raiseLower : AboveLower (raiseLower best limit) slack d ↔
    AboveLower best slack d ∧ limit - slack ≤ d := by
  cases best with
  | none => simp [raiseLower_none]
  | some b =>
    have hmax : raiseLower (some b) limit = some (max b limit) := by
      rw [raiseLower, larger_eq_max]
    rw [hmax, aboveLower_some, aboveLower_some, sub_le_iff_le_add, sub_le_iff_le_add,
      sub_le_iff_le_add, max_le_iff]

/-- An upper limit met on the way is one more to be below. -/
theorem belowUpper_dropUpper : BelowUpper (dropUpper best limit) slack d ↔
    BelowUpper best slack d ∧ d ≤ limit + slack := by
  cases best with
  | none => simp [dropUpper_none]
  | some b =>
    have hmin : dropUpper (some b) limit = some (min b limit) := by
      change some (if limit < b then limit else b) = _
      rw [min_comm, min_def_lt]
    rw [hmin, belowUpper_some, belowUpper_some, ← sub_le_iff_le_add, ← sub_le_iff_le_add,
      ← sub_le_iff_le_add, le_min_iff]

end Ends

/-! ## Limits of a list -/

/-- Shows a coefficient with a value to the limits found so far. -/
def limitStep (limits : Option ℚ × Option ℚ) (item : ℚ × ℚ) : Option ℚ × Option ℚ :=
  if |item.1| ≤ 1e-12 then limits
  else if 0 < item.1 then (raiseLower limits.1 (-item.2 / item.1), limits.2)
  else (limits.1, dropUpper limits.2 (-item.2 / item.1))

/-- How far a change may go, down and up, before a value turns negative. -/
def limitsOf (items : List (ℚ × ℚ)) : Option ℚ × Option ℚ := items.foldl limitStep (none, none)

section Limits

variable {limits : Option ℚ × Option ℚ} {items : List (ℚ × ℚ)} {item : ℚ × ℚ} {slack d : ℚ}

/-- **One item allows the changes that do not turn its value negative**, where its coefficient is not
negligible. -/
theorem allows_limitStep_iff : Allows (limitStep limits item) slack d ↔
    Allows limits slack d ∧ (1e-12 < |item.1| → -(slack * |item.1|) ≤ item.2 + d * item.1) := by
  obtain ⟨a, x⟩ := item
  unfold limitStep
  dsimp only
  split
  · rename_i hsmall
    simp [not_lt.mpr hsmall]
  · rename_i hlarge
    simp only [not_le.mp hlarge, true_imp_iff]
    split
    · rename_i hpos
      have hiff : -x / a - slack ≤ d ↔ -(slack * |a|) ≤ x + d * a := by
        rw [sub_le_iff_le_add, div_le_iff₀ hpos, abs_of_pos hpos]
        constructor <;> intro h <;> linarith
      rw [Allows, aboveLower_raiseLower, hiff, Allows, and_right_comm]
    · rename_i hnot
      have hneg : a < 0 := by
        refine lt_of_le_of_ne (not_lt.mp hnot) fun hzero => hlarge ?_
        rw [hzero, abs_zero]
        norm_num
      have hiff : d ≤ -x / a + slack ↔ -(slack * |a|) ≤ x + d * a := by
        rw [← sub_le_iff_le_add, le_div_iff_of_neg hneg, abs_of_neg hneg]
        constructor <;> intro h <;> linarith
      rw [Allows, belowUpper_dropUpper, hiff, Allows, and_assoc]

theorem allows_foldl_iff : Allows (items.foldl limitStep limits) slack d ↔
    Allows limits slack d ∧
      ∀ item ∈ items, 1e-12 < |item.1| → -(slack * |item.1|) ≤ item.2 + d * item.1 := by
  induction items generalizing limits with
  | nil => simp
  | cons item items ih =>
    rw [List.foldl_cons, ih, allows_limitStep_iff, List.forall_mem_cons, and_assoc]

/-- **The limits of a list allow the changes that turn none of its values negative**, up to the slack
times the coefficient. -/
theorem allows_limitsOf_iff : Allows (limitsOf items) slack d ↔
    ∀ item ∈ items, 1e-12 < |item.1| → -(slack * |item.1|) ≤ item.2 + d * item.1 := by
  rw [limitsOf, allows_foldl_iff]
  simp [Allows]

end Limits

namespace SensitivityState

variable (state : SensitivityState ℚ)

/-- The limits of a column cost come from the reduced costs of the nonbasic columns. -/
theorem costDistances_eq (row : List ℚ) : state.costDistances row =
    limitsOf (state.nonbasic.map fun j => (entry row j, entry state.reduced j)) := by
  rw [costDistances, limitsOf, List.foldl_map]
  congr 1
  funext limits j
  unfold limitStep
  rw [← scalar_abs_eq]
  rfl

/-- The limits of a right-hand side come from the basic values. -/
theorem rhsDistances_eq (u : List ℚ) : state.rhsDistances u = limitsOf (u.zip state.basics) := by
  rw [rhsDistances, limitsOf]
  congr 1
  funext limits item
  obtain ⟨a, x⟩ := item
  have hnegligible : (negligible : ℚ) = 1e-12 := rfl
  unfold limitStep
  dsimp only
  rw [hnegligible]
  by_cases hpos : 0 < a
  · have hnot : ¬ a < -1e-12 := by linarith
    simp only [abs_of_pos hpos, hpos, hnot, if_true, if_false]
    by_cases hsmall : a ≤ 1e-12
    · rw [if_neg (not_lt.mpr hsmall), if_pos hsmall]
    · rw [if_pos (not_le.mp hsmall), if_neg hsmall]
  · have hnot : ¬ 1e-12 < a := by linarith
    simp only [abs_of_nonpos (not_lt.mp hpos), hpos, hnot, if_false]
    by_cases hsmall : -a ≤ 1e-12
    · rw [if_neg (by linarith), if_pos hsmall]
    · rw [if_pos (by linarith), if_neg hsmall]

end SensitivityState

/-! ## Ranges around a value -/

/-- The value is further than `1e-12` from the ends of the range. -/
def Range.Apart (range : Range ℚ) (v : ℚ) : Prop :=
  (∀ limit ∈ range.lower, 1e-12 < |v - limit|) ∧ ∀ limit ∈ range.upper, 1e-12 < |v - limit|

section Around

variable {lower upper : Option ℚ} {slack current limit v : ℚ} {reversed : Bool}

/-- A value apart from a cleaned end is on the same side of the end itself. -/
theorem clean_le_iff (h : 1e-12 < |v - Scalar.clean limit|) :
    Scalar.clean limit ≤ v ↔ limit ≤ v := by
  rw [clean_eq_cut, cut] at h ⊢
  split at h
  · rename_i hsmall
    obtain ⟨hlow, hhigh⟩ := abs_lt.mp hsmall
    rw [if_pos hsmall]
    rcases lt_abs.mp h with h | h
    · exact iff_of_true (by linarith) (by linarith)
    · exact iff_of_false (by linarith) (by linarith)
  · rename_i hlarge
    rw [if_neg hlarge]

theorem le_clean_iff (h : 1e-12 < |v - Scalar.clean limit|) :
    v ≤ Scalar.clean limit ↔ v ≤ limit := by
  have hopposite : 1e-12 < |-v - Scalar.clean (-limit)| := by
    rw [clean_eq_cut, cut_neg, ← clean_eq_cut, ← abs_neg]
    convert h using 2
    ring
  have hiff := clean_le_iff hopposite
  rwa [clean_eq_cut, cut_neg, ← clean_eq_cut, neg_le_neg_iff, neg_le_neg_iff] at hiff

theorem rangeEnd_eq (current : ℚ) (distance : Option ℚ) :
    rangeEnd current distance = distance.map fun d => Scalar.clean (current + d) := by
  cases distance <;> rfl

theorem aboveLower_rangeEnd_iff (h : ∀ limit ∈ rangeEnd current lower, 1e-12 < |v - limit|) :
    AboveLower (rangeEnd current lower) 0 v ↔ AboveLower lower 0 (v - current) := by
  rw [rangeEnd_eq] at h ⊢
  cases lower with
  | none => simp
  | some d =>
    rw [Option.map_some, aboveLower_some, aboveLower_some, sub_zero, sub_zero,
      clean_le_iff (h _ rfl), le_sub_iff_add_le']

theorem belowUpper_rangeEnd_iff (h : ∀ limit ∈ rangeEnd current upper, 1e-12 < |v - limit|) :
    BelowUpper (rangeEnd current upper) 0 v ↔ BelowUpper upper 0 (v - current) := by
  rw [rangeEnd_eq] at h ⊢
  cases upper with
  | none => simp
  | some d =>
    rw [Option.map_some, belowUpper_some, belowUpper_some, add_zero, add_zero,
      le_clean_iff (h _ rfl), sub_le_iff_le_add']

/-- Cleaning an end moves it by no more than `1e-12`. -/
theorem aboveLower_of_rangeEnd (h : AboveLower (rangeEnd current lower) 0 v) :
    AboveLower lower 1e-12 (v - current) := by
  rw [rangeEnd_eq] at h
  cases lower with
  | none => exact aboveLower_none
  | some d =>
    rw [Option.map_some, aboveLower_some, clean_eq_cut] at h
    obtain ⟨hlow, -⟩ := abs_le.mp (abs_cut_sub_le (by norm_num : (0 : ℚ) ≤ 1e-12) (current + d))
    rw [aboveLower_some]
    linarith

theorem belowUpper_of_rangeEnd (h : BelowUpper (rangeEnd current upper) 0 v) :
    BelowUpper upper 1e-12 (v - current) := by
  rw [rangeEnd_eq] at h
  cases upper with
  | none => exact belowUpper_none
  | some d =>
    rw [Option.map_some, belowUpper_some, clean_eq_cut] at h
    obtain ⟨-, hhigh⟩ := abs_le.mp (abs_cut_sub_le (by norm_num : (0 : ℚ) ≤ 1e-12) (current + d))
    rw [belowUpper_some]
    linarith

theorem aboveLower_map_neg {d : ℚ} :
    AboveLower (upper.map (-·)) slack d ↔ BelowUpper upper slack (-d) := by
  cases upper with
  | none => simp
  | some u =>
    rw [Option.map_some, aboveLower_some, belowUpper_some]
    constructor <;> intro h <;> linarith

theorem belowUpper_map_neg {d : ℚ} :
    BelowUpper (lower.map (-·)) slack d ↔ AboveLower lower slack (-d) := by
  cases lower with
  | none => simp
  | some l =>
    rw [Option.map_some, belowUpper_some, aboveLower_some]
    constructor <;> intro h <;> linarith

/-- **The range around a value contains the changes that its limits allow**, apart from its ends. -/
theorem contains_rangeAround_iff (h : (rangeAround current lower upper reversed).Apart v) :
    (rangeAround current lower upper reversed).contains v 0 = true ↔
      Allows (lower, upper) 0 (turn reversed (v - current)) := by
  rw [Range.contains_iff]
  cases reversed with
  | false => exact and_congr (aboveLower_rangeEnd_iff h.1) (belowUpper_rangeEnd_iff h.2)
  | true =>
    rw [Allows, Allows, and_comm]
    refine and_congr ?_ ?_
    · exact (belowUpper_rangeEnd_iff h.2).trans belowUpper_map_neg
    · exact (aboveLower_rangeEnd_iff h.1).trans aboveLower_map_neg

/-- **What the range around a value contains is within its limits**, up to `1e-12`. -/
theorem allows_of_contains_rangeAround
    (h : (rangeAround current lower upper reversed).contains v 0 = true) :
    Allows (lower, upper) 1e-12 (turn reversed (v - current)) := by
  obtain ⟨hlower, hupper⟩ := Range.contains_iff.mp h
  cases reversed with
  | false => exact ⟨aboveLower_of_rangeEnd hlower, belowUpper_of_rangeEnd hupper⟩
  | true =>
    exact ⟨belowUpper_map_neg.mp (belowUpper_of_rangeEnd hupper),
      aboveLower_map_neg.mp (aboveLower_of_rangeEnd hlower)⟩

end Around

end LinOpt
