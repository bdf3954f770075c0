import LinOpt.Integer.Knapsack
import LinOpt.Proofs.Dense
import LinOpt.Proofs.Simplex.Outcome
import LinOpt.Proofs.Sorting
/-!
# The knapsack search is exact

Items in the order of the search fall in value for each unit of weight (`Denser`), so the capacity
that is left has a price: at it no item further on pays for its weight, and every item already packed
does (`Prices`, `exists_price`). A greedy filling is therefore an upper bound on every choice that fits
(`add_total_le_fill`).

The search keeps every choice in sight: it begins as the decisions of an open node do, or the best
value matches it (`Sound.sight`). Visiting a node keeps that and leaves less to decide
(`Sound.exists_visit`), so the loop empties its frontier within its budget
(`Sound.exists_searchLoop`), and then the best value matches every choice.
-/

namespace LinOpt

open Finset

namespace Knapsack

variable {items rest : List (Item ℚ)} {item a b : Item ℚ} {taken : List Bool} {chosen : Finset ℕ}
  {capacity remaining bound : ℚ} {weights values : List ℚ} {measure : Item ℚ → ℚ}

/-! ## Choices and their totals -/

/-- What the items that are taken measure together. -/
def total (measure : Item ℚ → ℚ) (items : List (Item ℚ)) (taken : List Bool) : ℚ :=
  (List.zipWith (fun item taken => if taken then measure item else 0) items taken).sum

/-- Which of the items are chosen, in their order. -/
def marks (chosen : Finset ℕ) (items : List (Item ℚ)) : List Bool :=
  items.map fun item => decide (item.index ∈ chosen)

@[simp] theorem total_nil_left (taken : List Bool) : total measure [] taken = 0 := rfl

@[simp] theorem total_nil_right (items : List (Item ℚ)) : total measure items [] = 0 := by
  simp [total]

@[simp] theorem total_cons (item : Item ℚ) (items : List (Item ℚ)) (t : Bool) (taken : List Bool) :
    total measure (item :: items) (t :: taken) =
      (if t then measure item else 0) + total measure items taken := by
  simp [total]

/-- The decisions that follow are about the items that follow. -/
theorem total_append (items : List (Item ℚ)) (taken more : List Bool) :
    total measure items (taken ++ more) =
      total measure items taken + total measure (items.drop taken.length) more := by
  induction taken generalizing items with
  | nil => simp
  | cons t taken ih =>
    cases items with
    | nil => simp
    | cons item items => simp [ih, add_assoc]

/-- Nothing is taken. -/
theorem total_map_false (items : List (Item ℚ)) :
    total measure items (items.map fun _ => false) = 0 := by
  induction items with
  | nil => rfl
  | cons item items ih =>
    rw [List.map_cons, total_cons, ih]
    simp

theorem total_nonneg (hitems : ∀ item ∈ items, 0 ≤ measure item) (taken : List Bool) :
    0 ≤ total measure items taken := by
  induction items generalizing taken with
  | nil => simp
  | cons item items ih =>
    cases taken with
    | nil => simp
    | cons t taken =>
      have hrest := ih (fun item h => hitems item (List.mem_cons_of_mem _ h)) taken
      have hitem := hitems item List.mem_cons_self
      rw [total_cons]
      split <;> linarith

/-- Items that are not worth their weight at a price are not worth it together. -/
theorem total_value_le {price : ℚ} (hitems : ∀ item ∈ items, item.value ≤ price * item.weight)
    (taken : List Bool) :
    total Item.value items taken ≤ price * total Item.weight items taken := by
  induction items generalizing taken with
  | nil => simp
  | cons item items ih =>
    cases taken with
    | nil => simp
    | cons t taken =>
      have hrest := ih (fun item h => hitems item (List.mem_cons_of_mem _ h)) taken
      have hitem := hitems item List.mem_cons_self
      rw [total_cons, total_cons]
      split
      · linarith
      · linarith

/-- The marks of a choice from any decision on. -/
theorem drop_marks (chosen : Finset ℕ) (items : List (Item ℚ)) (k : ℕ) :
    (marks chosen items).drop k = marks chosen (items.drop k) := by
  simp [marks, List.map_drop]

/-- A choice that begins as the decisions do: what is decided, and what is left. -/
theorem total_marks (h : taken <+: marks chosen items) :
    total measure items (marks chosen items) = total measure items taken +
      total measure (items.drop taken.length) (marks chosen (items.drop taken.length)) := by
  obtain ⟨more, hmore⟩ := h
  have hdrop : marks chosen (items.drop taken.length) = more := by
    rw [← drop_marks, ← hmore, List.drop_left]
  rw [hdrop, ← total_append, hmore]

/-- One decision more. -/
theorem prefix_marks_snoc (h : taken <+: marks chosen items)
    (hdrop : items.drop taken.length = item :: rest) :
    taken ++ [decide (item.index ∈ chosen)] <+: marks chosen items := by
  obtain ⟨more, hmore⟩ := h
  have hmarks : more = decide (item.index ∈ chosen) :: marks chosen rest := by
    have hrest := drop_marks chosen items taken.length
    rwa [← hmore, List.drop_left, hdrop] at hrest
  exact ⟨marks chosen rest, by rw [← hmore, hmarks, List.append_assoc]; rfl⟩

/-! ## The order of the items -/

/-- The first item is worth at least as much for each unit of its weight. -/
structure Denser (a b : Item ℚ) : Prop where
  worthless : a.value ≤ 0 → b.value ≤ 0
  cross_le : 0 < a.value → b.value * a.weight ≤ a.value * b.weight

/-- The ratio of an item, over the rationals. -/
theorem Item.ratio_eq (item : Item ℚ) : item.ratio =
    if item.value ≤ 0 then .worthless else if item.weight ≤ 0 then .weightless
      else .finite (item.value / item.weight) := rfl

/-- Comparing ratios is a strict weak order, the best first. -/
theorem weakOrder_ratio :
    Sorting.WeakOrder fun a b : Item ℚ => b.ratio.below a.ratio where
  asymm := by
    intro a b
    cases a.ratio <;> cases b.ratio <;> simp [Ratio.below]
    exact le_of_lt
  trans := by
    intro a b c
    cases a.ratio <;> cases b.ratio <;> cases c.ratio <;> simp [Ratio.below]
    exact fun hab hbc => hbc.trans hab

/-- An item whose ratio is not below the other's is denser. -/
theorem denser_of_ratio (ha : 0 ≤ a.weight) (hb : 0 ≤ b.weight)
    (h : a.ratio.below b.ratio = false) : Denser a b := by
  rw [Item.ratio_eq, Item.ratio_eq] at h
  constructor
  · intro hworthless
    by_contra hworth
    rw [if_pos hworthless, if_neg hworth] at h
    split at h <;> simp [Ratio.below] at h
  · intro hworth
    rw [if_neg (not_le.mpr hworth)] at h
    rcases le_or_gt b.value 0 with hb' | hb'
    · have hleft := mul_nonneg (neg_nonneg.mpr hb') ha
      have hright := mul_nonneg hworth.le hb
      linarith
    · rw [if_neg (not_le.mpr hb')] at h
      rcases le_or_gt a.weight 0 with ha' | ha'
      · rw [le_antisymm ha' ha, mul_zero]
        exact mul_nonneg hworth.le hb
      · rw [if_neg (not_le.mpr ha')] at h
        rcases le_or_gt b.weight 0 with hb'' | hb''
        · simp [if_pos hb'', Ratio.below] at h
        · rw [if_neg (not_le.mpr hb'')] at h
          have hquotients : b.value / b.weight ≤ a.value / a.weight := by
            simpa [Ratio.below] using h
          exact (div_le_div_iff₀ hb'' ha').mp hquotients

/-! ## The bound of a node -/

/-- **A price of capacity**: whatever is taken beyond the filling has to be paid with weight, and no
item as dense as those that are left is below the price. -/
structure Prices (items : List (Item ℚ)) (remaining bound price : ℚ) : Prop where
  nonneg : 0 ≤ price
  pays : ∀ taken, bound + total Item.value items taken ≤
    fill items remaining bound + price * (total Item.weight items taken - remaining)
  worth : ∀ a : Item ℚ, 0 < a.value → (∀ item ∈ items, Denser a item) → price * a.weight ≤ a.value

theorem prices_nil (remaining bound : ℚ) : Prices [] remaining bound 0 where
  nonneg := le_refl 0
  pays := by simp [fill]
  worth := fun a ha _ => by simpa using ha.le

section First

variable (hdenser : ∀ other ∈ items, Denser item other)

include hdenser

/-- Nothing is worth anything from a worthless item on. -/
theorem prices_worthless (hworthless : item.value ≤ 0) (remaining bound : ℚ) :
    Prices (item :: items) remaining bound 0 where
  nonneg := le_refl 0
  pays := by
    intro taken
    have hvalues : ∀ other ∈ item :: items, other.value ≤ 0 * other.weight := by
      intro other hother
      rw [zero_mul]
      rcases List.mem_cons.mp hother with rfl | hother
      · exact hworthless
      · exact (hdenser other hother).worthless hworthless
    have htotal := total_value_le hvalues taken
    rw [fill, if_pos hworthless]
    linarith
  worth := fun a ha _ => by simpa using ha.le

/-- An item that fits is taken at the price of those behind it. -/
theorem prices_fits {bound price : ℚ} (hworth : 0 < item.value) (hfits : item.weight ≤ remaining)
    (hrest : Prices items (remaining - item.weight) (bound + item.value) price) :
    Prices (item :: items) remaining bound price where
  nonneg := hrest.nonneg
  pays := by
    intro taken
    -- an item that is left is worth its weight at the price
    have hpaid : price * item.weight ≤ item.value := hrest.worth item hworth hdenser
    rw [fill, if_neg (not_le.mpr hworth), if_pos hfits]
    cases taken with
    | nil =>
      have hnone := hrest.pays []
      simp only [total_nil_right] at hnone ⊢
      linarith
    | cons t taken =>
      have hothers := hrest.pays taken
      rw [total_cons, total_cons]
      split <;> linarith
  worth := fun a ha hall => hrest.worth a ha fun other h => hall other (List.mem_cons_of_mem _ h)

/-- An item that does not fit sets the price. -/
theorem prices_heavy (hworth : 0 < item.value) (hremaining : 0 ≤ remaining)
    (hheavy : remaining < item.weight) (bound : ℚ) :
    Prices (item :: items) remaining bound (item.value / item.weight) := by
  have hpos : 0 < item.weight := lt_of_le_of_lt hremaining hheavy
  refine ⟨(div_pos hworth hpos).le, fun taken => ?_, fun a ha hall => ?_⟩
  · have hvalues : ∀ other ∈ item :: items,
        other.value ≤ item.value / item.weight * other.weight := by
      intro other hother
      rcases List.mem_cons.mp hother with rfl | hother
      · exact (div_mul_cancel₀ _ hpos.ne').ge
      · rw [div_mul_eq_mul_div, le_div_iff₀ hpos]
        exact (hdenser other hother).cross_le hworth
    have htotal := total_value_le hvalues taken
    have hpart : item.value * remaining / item.weight =
        item.value / item.weight * remaining := by ring
    rw [fill, if_neg (not_le.mpr hworth), if_neg (not_le.mpr hheavy), if_pos hpos, hpart]
    linarith
  · rw [div_mul_eq_mul_div, div_le_iff₀ hpos]
    exact (hall item List.mem_cons_self).cross_le ha

end First

/-- **Capacity has a price**, that of the first item that does not fit. -/
theorem exists_price (hsorted : items.Pairwise Denser) (hweight : ∀ item ∈ items, 0 ≤ item.weight)
    (hremaining : 0 ≤ remaining) (bound : ℚ) : ∃ price, Prices items remaining bound price := by
  induction items generalizing remaining bound with
  | nil => exact ⟨0, prices_nil remaining bound⟩
  | cons item items ih =>
    obtain ⟨hdenser, hsorted⟩ := List.pairwise_cons.mp hsorted
    rcases le_or_gt item.value 0 with hworthless | hworth
    · exact ⟨0, prices_worthless hdenser hworthless remaining bound⟩
    · rcases le_or_gt item.weight remaining with hfits | hheavy
      · obtain ⟨price, hrest⟩ := ih hsorted (fun other h => hweight other (List.mem_cons_of_mem _ h))
          (sub_nonneg.mpr hfits) (bound + item.value)
        exact ⟨price, prices_fits hdenser hworth hfits hrest⟩
      · exact ⟨_, prices_heavy hdenser hworth hremaining hheavy bound⟩

/-- **The filling bounds every choice that fits.** -/
theorem add_total_le_fill (hsorted : items.Pairwise Denser)
    (hweight : ∀ item ∈ items, 0 ≤ item.weight) (bound : ℚ)
    (hfits : total Item.weight items taken ≤ remaining) :
    bound + total Item.value items taken ≤ fill items remaining bound := by
  have hremaining : 0 ≤ remaining := (total_nonneg hweight taken).trans hfits
  obtain ⟨price, hprice⟩ := exists_price hsorted hweight hremaining bound
  have hchoice := hprice.pays taken
  have hpaid := mul_nonneg hprice.nonneg (sub_nonneg.mpr hfits)
  linarith

/-- Items in the order of the search. -/
structure Arranged (items : List (Item ℚ)) : Prop where
  denser : items.Pairwise Denser
  weight_nonneg : ∀ item ∈ items, 0 ≤ item.weight

/-- **By descending ratio, the items are in the order of the search.** -/
theorem Arranged.of_inOrder
    (hsorted : Sorting.InOrder (fun a b : Item ℚ => b.ratio.below a.ratio) items)
    (hweight : ∀ item ∈ items, 0 ≤ item.weight) : Arranged items :=
  ⟨hsorted.imp_of_mem fun ha hb hratio => denser_of_ratio (hweight _ ha) (hweight _ hb) hratio,
    hweight⟩

/-- The items that are left of a search are in its order too. -/
theorem Arranged.drop (h : Arranged items) (k : ℕ) : Arranged (items.drop k) :=
  ⟨h.denser.drop, fun item hitem => h.weight_nonneg item (List.mem_of_mem_drop hitem)⟩

/-- A selection of the items, as decisions. -/
theorem exists_total_eq_of_sublist {selection : List (Item ℚ)} (h : selection.Sublist items) :
    ∃ taken, ∀ measure, total measure items taken = (selection.map measure).sum := by
  induction h with
  | slnil => exact ⟨[], fun _ => rfl⟩
  | cons item _ ih =>
    obtain ⟨taken, htaken⟩ := ih
    exact ⟨false :: taken, fun measure => by simp [htaken]⟩
  | cons_cons item _ ih =>
    obtain ⟨taken, htaken⟩ := ih
    exact ⟨true :: taken, fun measure => by simp [htaken]⟩

/-- **The bound of a node is admissible.** For items by descending ratio, of weights that are not
negative, and for a node within the capacity that has decided the first `k` of them, the bound is at
least the value of the node, alone or with any selection of the items behind that fits. -/
theorem bound_admissible
    (hsorted : Sorting.InOrder (fun a b : Item ℚ => b.ratio.below a.ratio) items)
    (hweight : ∀ item ∈ items, 0 ≤ item.weight) {capacity weight : ℚ} (hroom : weight ≤ capacity)
    (value : ℚ) (taken : List Bool) (k : ℕ) :
    value ≤ (node capacity taken (items.drop k) weight value).bound ∧
      ∀ selection : List (Item ℚ), selection.Sublist (items.drop k) →
        (selection.map Item.weight).sum ≤ capacity - weight →
          value + (selection.map Item.value).sum ≤
            (node capacity taken (items.drop k) weight value).bound := by
  have harranged : Arranged (items.drop k) := (Arranged.of_inOrder hsorted hweight).drop k
  have hselection : ∀ selection : List (Item ℚ), selection.Sublist (items.drop k) →
      (selection.map Item.weight).sum ≤ capacity - weight →
        value + (selection.map Item.value).sum ≤
          (node capacity taken (items.drop k) weight value).bound := by
    intro selection hsub hfits
    obtain ⟨decisions, htotal⟩ := exists_total_eq_of_sublist hsub
    rw [← htotal Item.weight] at hfits
    rw [← htotal Item.value]
    exact add_total_le_fill harranged.denser harranged.weight_nonneg value hfits
  refine ⟨?_, hselection⟩
  -- nothing more is taken
  simpa using hselection [] (List.nil_sublist _) (by simpa using hroom)

/-- A node that has taken the item without weight: of the two that are left and worth something only
one fits, and the bound takes a part of the other. -/
theorem bound_admissible_four :
    Sorting.InOrder (fun a b : Item ℚ => b.ratio.below a.ratio)
        (sortedItems [0, 1, 4, 3] [2, -1, 5, 4]) ∧
      (∀ item ∈ sortedItems [0, 1, 4, 3] [2, -1, 5, 4], (0 : ℚ) ≤ item.weight) ∧ (0 : ℚ) ≤ 5 ∧
      (2 : ℚ) ≤
        (node 5 [true] ((sortedItems [0, 1, 4, 3] [2, -1, 5, 4]).drop 1) 0 2).bound ∧
      ∀ selection : List (Item ℚ),
        selection.Sublist ((sortedItems [0, 1, 4, 3] [2, -1, 5, 4]).drop 1) →
          (selection.map Item.weight).sum ≤ 5 - 0 →
            2 + (selection.map Item.value).sum ≤
              (node 5 [true] ((sortedItems [0, 1, 4, 3] [2, -1, 5, 4]).drop 1) 0 2).bound :=
  have hsorted := Sorting.byInsertion_inOrder weakOrder_ratio _
  have hweight : ∀ item ∈ sortedItems [0, 1, 4, 3] [2, -1, 5, 4], (0 : ℚ) ≤ item.weight := by
    decide +kernel
  have hroom : (0 : ℚ) ≤ 5 := by norm_num
  ⟨hsorted, hweight, hroom, bound_admissible hsorted hweight hroom 2 [true] 1⟩

/-- A node and one decision more. -/
def decided (capacity : ℚ) (current : Node ℚ) (item : Item ℚ) (rest : List (Item ℚ)) (t : Bool) :
    Node ℚ :=
  node capacity (current.taken ++ [t]) rest (current.weight + if t then item.weight else 0)
    (current.value + if t then item.value else 0)

/-- **The node is a partial choice of the items**: it has decided the first of them. -/
structure Decides (capacity : ℚ) (items : List (Item ℚ)) (current : Node ℚ) : Prop where
  rest_eq : current.rest = items.drop current.taken.length
  length_le : current.taken.length ≤ items.length
  weight_eq : current.weight = total Item.weight items current.taken
  value_eq : current.value = total Item.value items current.taken
  weight_le : current.weight ≤ capacity + 1e-12
  bound_eq : current.bound = fill current.rest (capacity - current.weight) current.value

namespace Decides

variable {current : Node ℚ}

/-- **The bound of a node is at least the value of every choice that begins as it does.** -/
theorem total_le_bound (h : Decides capacity items current) (harranged : Arranged items)
    (hbegins : current.taken <+: marks chosen items)
    (hfits : total Item.weight items (marks chosen items) ≤ capacity) :
    total Item.value items (marks chosen items) ≤ current.bound := by
  rw [total_marks hbegins, ← h.weight_eq, ← h.rest_eq] at hfits
  rw [total_marks hbegins, ← h.value_eq, ← h.rest_eq, h.bound_eq]
  have hleft : Arranged current.rest := h.rest_eq ▸ harranged.drop _
  exact add_total_le_fill hleft.denser hleft.weight_nonneg _ (by linarith)

/-- A choice that fits and goes on with the next item has room for it. -/
theorem weight_add_le (h : Decides capacity items current) (harranged : Arranged items)
    (hrest : current.rest = item :: rest) (hbegins : current.taken <+: marks chosen items)
    (hfits : total Item.weight items (marks chosen items) ≤ capacity)
    (htaken : item.index ∈ chosen) : current.weight + item.weight ≤ capacity := by
  rw [total_marks hbegins, ← h.weight_eq, ← h.rest_eq, hrest, marks, List.map_cons, total_cons,
    if_pos (by simpa using htaken)] at hfits
  have hothers : 0 ≤ total Item.weight rest (marks chosen rest) := by
    refine total_nonneg (fun other hother => harranged.weight_nonneg other ?_) _
    refine List.mem_of_mem_drop (i := current.taken.length) ?_
    rw [← h.rest_eq, hrest]
    exact List.mem_cons_of_mem _ hother
  unfold marks at hothers
  linarith

/-- A node without items to decide has decided all. -/
theorem length_eq (h : Decides capacity items current) (hrest : current.rest = []) :
    current.taken.length = items.length := by
  have hdrop := List.drop_eq_nil_iff.mp (h.rest_eq.symm.trans hrest)
  exact le_antisymm h.length_le hdrop

/-- A node and one decision more; what is taken has to fit. -/
theorem decide (h : Decides capacity items current) (hrest : current.rest = item :: rest) {t : Bool}
    (hfits : t = true → current.weight + item.weight ≤ capacity + 1e-12) :
    Decides capacity items (decided capacity current item rest t) := by
  have hdrop : items.drop current.taken.length = item :: rest := h.rest_eq.symm.trans hrest
  have hlt : current.taken.length < items.length := by
    by_contra hge
    rw [List.drop_eq_nil_of_le (not_lt.mp hge)] at hdrop
    cases hdrop
  have htotal : ∀ measure : Item ℚ → ℚ, total measure items (current.taken ++ [t]) =
      total measure items current.taken + if t then measure item else 0 := by
    intro measure
    rw [total_append, hdrop, total_cons, total_nil_right, add_zero]
  have hweight := h.weight_le
  refine ⟨?_, by simpa [decided, node] using hlt, ?_, ?_, ?_, rfl⟩
  · rw [decided, node, List.length_append, ← List.drop_drop, hdrop]
    rfl
  · rw [decided, node, htotal, ← h.weight_eq]
  · rw [decided, node, htotal, ← h.value_eq]
  · cases t with
    | false => simpa [decided, node] using hweight
    | true => simpa [decided, node] using hfits rfl

end Decides

/-! ## What a visit does -/

/-- **The outcomes of a visit** of a node; the state is the one without it. -/
inductive Visits (capacity : ℚ) (current : Node ℚ) (state : State ℚ) : State ℚ → Prop
  /-- The bound of the node does not beat the best value. -/
  | pruned : current.bound ≤ state.best + pruneTolerance → Visits capacity current state state
  /-- All items are decided, and the best value is beaten. -/
  | improved : current.rest = [] → state.best < current.value →
      Visits capacity current state { state with best := current.value, choice := current.taken }
  /-- All items are decided, and the best value stands. -/
  | beaten : current.rest = [] → current.value ≤ state.best → Visits capacity current state state
  /-- The next item is decided. -/
  | branched {item : Item ℚ} {rest : List (Item ℚ)} : current.rest = item :: rest →
      Visits capacity current state
        { state with
          frontier := state.frontier ++ (children capacity current item rest).filter fun child =>
            state.best + pruneTolerance < child.bound }

theorem exists_outcome_visit (observer : Observer) (capacity : ℚ) (current : Node ℚ)
    (state : State ℚ) : ∃ next, (visit observer capacity current state).outcome = .ok next ∧
      Visits capacity current state next := by
  unfold visit
  split
  · rename_i hbound
    exact ⟨state, rfl, .pruned hbound⟩
  · cases hrest : current.rest with
    | nil =>
      dsimp only
      split
      · rename_i hbetter
        refine ⟨_, ?_, .improved hrest hbetter⟩
        rw [Traced.outcome_bind, outcome_line]
        rfl
      · rename_i hworse
        exact ⟨state, rfl, .beaten hrest (not_lt.mp hworse)⟩
    | cons item rest => exact ⟨_, rfl, .branched hrest⟩

/-- The children of a node decide its next item, and take it only where it fits. -/
theorem mem_children {current child : Node ℚ} :
    child ∈ children capacity current item rest ↔
      ∃ t : Bool, (t = true → current.weight + item.weight ≤ capacity + 1e-12) ∧
        child = decided capacity current item rest t := by
  rw [Bool.exists_bool]
  unfold children decided
  split
  · rename_i hfits
    simp [hfits, or_comm]
  · rename_i hheavy
    simp [hheavy]

/-! ## The search -/

/-- **A state of the search**: its nodes are partial choices, its best value is that of its choice,
and every choice that fits is in sight. -/
structure Sound (capacity : ℚ) (items : List (Item ℚ)) (state : State ℚ) : Prop where
  nodes : ∀ current ∈ state.frontier, Decides capacity items current
  length_eq : state.choice.length = items.length
  value_eq : state.best = total Item.value items state.choice
  weight_le : total Item.weight items state.choice ≤ capacity + 1e-12
  sight : ∀ chosen, total Item.weight items (marks chosen items) ≤ capacity →
    total Item.value items (marks chosen items) ≤ state.best + pruneTolerance ∨
      ∃ current ∈ state.frontier, current.taken <+: marks chosen items

/-- The number of nodes that an open node stands for, with itself. -/
def work (frontier : List (Node ℚ)) : ℕ :=
  (frontier.map fun current => 2 ^ (current.rest.length + 1) - 1).sum

/-- The state before the first node. -/
def start (capacity : ℚ) (items : List (Item ℚ)) : State ℚ :=
  { frontier := [node capacity [] items 0 0], best := 0, choice := items.map fun _ => false }

theorem start_sound (hcapacity : 0 ≤ capacity) (items : List (Item ℚ)) :
    Sound capacity items (start capacity items) where
  nodes := by
    intro current hcurrent
    obtain rfl := List.mem_singleton.mp hcurrent
    exact ⟨rfl, Nat.zero_le _, (total_nil_right items).symm, (total_nil_right items).symm,
      by norm_num [node]; linarith, rfl⟩
  length_eq := by simp [start]
  value_eq := (total_map_false items).symm
  weight_le := by
    rw [start, total_map_false]
    linarith
  sight := fun chosen _ => Or.inr ⟨_, List.mem_singleton.mpr rfl, List.nil_prefix⟩

namespace Sound

variable {state next : State ℚ} {current : Node ℚ}

/-- The order of the frontier and the count of nodes do not matter. -/
theorem of_perm (h : Sound capacity items state) {frontier : List (Node ℚ)}
    (hperm : frontier.Perm state.frontier) (processed : ℕ) :
    Sound capacity items { state with frontier, processed } where
  nodes := fun current hcurrent => h.nodes current (hperm.mem_iff.mp hcurrent)
  length_eq := h.length_eq
  value_eq := h.value_eq
  weight_le := h.weight_le
  sight := fun chosen hfits => (h.sight chosen hfits).imp_right fun ⟨current, hcurrent, hbegins⟩ =>
    ⟨current, hperm.mem_iff.mpr hcurrent, hbegins⟩

/-- A node leaves the frontier where the best value, the new one, matches what begins as it does. -/
theorem drop (h : Sound capacity items { state with frontier := current :: state.frontier })
    (hmatched : ∀ chosen, total Item.weight items (marks chosen items) ≤ capacity →
      current.taken <+: marks chosen items →
      total Item.value items (marks chosen items) ≤ state.best + pruneTolerance) :
    Sound capacity items state where
  nodes := fun other hother => h.nodes other (List.mem_cons_of_mem _ hother)
  length_eq := h.length_eq
  value_eq := h.value_eq
  weight_le := h.weight_le
  sight := by
    intro chosen hfits
    rcases h.sight chosen hfits with hbest | ⟨other, hother, hbegins⟩
    · exact Or.inl hbest
    · rcases List.mem_cons.mp hother with rfl | hother
      · exact Or.inl (hmatched chosen hfits hbegins)
      · exact Or.inr ⟨other, hother, hbegins⟩

/-- Deciding an item keeps the choices of its node in sight: each goes on as a child does, or the
child is left out and the best value matches it. -/
theorem branch (h : Sound capacity items { state with frontier := current :: state.frontier })
    (harranged : Arranged items) (hrest : current.rest = item :: rest) :
    Sound capacity items
      { state with
        frontier := state.frontier ++ (children capacity current item rest).filter fun child =>
          state.best + pruneTolerance < child.bound } := by
  have hdecides : Decides capacity items current := h.nodes current List.mem_cons_self
  refine ⟨fun other hother => ?_, h.length_eq, h.value_eq, h.weight_le, fun chosen hfits => ?_⟩
  · rcases List.mem_append.mp hother with hother | hother
    · exact h.nodes other (List.mem_cons_of_mem _ hother)
    · obtain ⟨t, ht, rfl⟩ := mem_children.mp (List.mem_of_mem_filter hother)
      exact hdecides.decide hrest ht
  · rcases h.sight chosen hfits with hbest | ⟨other, hother, hbegins⟩
    · exact Or.inl hbest
    rcases List.mem_cons.mp hother with rfl | hother
    · have hnext := prefix_marks_snoc hbegins (hdecides.rest_eq.symm.trans hrest)
      have hroom : (item.index ∈ chosen : Bool) = true →
          other.weight + item.weight ≤ capacity + 1e-12 := by
        intro htaken
        have := hdecides.weight_add_le harranged hrest hbegins hfits (by simpa using htaken)
        linarith
      have hchild := hdecides.decide hrest hroom
      by_cases hbound : state.best + pruneTolerance <
          (decided capacity other item rest (item.index ∈ chosen)).bound
      · exact Or.inr ⟨_, List.mem_append_right _ (List.mem_filter.mpr
          ⟨mem_children.mpr ⟨_, hroom, rfl⟩, by simpa using hbound⟩), hnext⟩
      · exact Or.inl ((hchild.total_le_bound harranged hnext hfits).trans (not_lt.mp hbound))
    · exact Or.inr ⟨other, List.mem_append_left _ hother, hbegins⟩

/-- **A visit keeps every choice in sight.** -/
theorem visits (h : Sound capacity items { state with frontier := current :: state.frontier })
    (harranged : Arranged items) (hvisits : Visits capacity current state next) :
    Sound capacity items next := by
  have hdecides : Decides capacity items current := h.nodes current List.mem_cons_self
  have htolerance : (0 : ℚ) ≤ pruneTolerance := by norm_num [pruneTolerance]
  -- where all is decided, what begins as the node does is the choice of the node
  have hdecided : current.rest = [] → ∀ chosen, current.taken <+: marks chosen items →
      total Item.value items (marks chosen items) = current.value := by
    intro hrest chosen hbegins
    have hwhole := hbegins.eq_of_length (by rw [hdecides.length_eq hrest]; simp [marks])
    rw [← hwhole, hdecides.value_eq]
  cases hvisits with
  | pruned hbound =>
    exact h.drop fun chosen hfits hbegins =>
      (hdecides.total_le_bound harranged hbegins hfits).trans hbound
  | improved hrest hbetter =>
    refine ⟨fun other hother => h.nodes other (List.mem_cons_of_mem _ hother),
      hdecides.length_eq hrest, hdecides.value_eq, ?_, fun chosen hfits => ?_⟩
    · exact hdecides.weight_eq ▸ hdecides.weight_le
    · rcases h.sight chosen hfits with hbest | ⟨other, hother, hbegins⟩
      · exact Or.inl (hbest.trans (add_le_add_left hbetter.le _))
      · rcases List.mem_cons.mp hother with rfl | hother
        · exact Or.inl (by rw [hdecided hrest chosen hbegins]; exact le_add_of_nonneg_right htolerance)
        · exact Or.inr ⟨other, hother, hbegins⟩
  | beaten hrest hstands =>
    refine h.drop fun chosen _ hbegins => ?_
    rw [hdecided hrest chosen hbegins]
    linarith
  | branched hrest => exact h.branch harranged hrest

end Sound

@[simp] theorem work_append (frontier more : List (Node ℚ)) :
    work (frontier ++ more) = work frontier + work more := by
  simp [work]

theorem work_cons (current : Node ℚ) (frontier : List (Node ℚ)) :
    work (current :: frontier) = work frontier + work [current] := by
  simp [work, add_comm]

theorem work_pos (current : Node ℚ) : 0 < work [current] := by
  have hpow : 2 ≤ 2 ^ (current.rest.length + 1) := by
    rw [pow_succ]
    have := Nat.two_pow_pos current.rest.length
    omega
  simp only [work, List.map_cons, List.map_nil, List.sum_cons, List.sum_nil, add_zero]
  omega

/-- Deciding an item brings fewer nodes than the node stands for. -/
theorem work_children_lt {current : Node ℚ} (h : current.rest = item :: rest) (kept : Node ℚ → Bool) :
    work ((children capacity current item rest).filter kept) < work [current] := by
  have hchild : ∀ child ∈ children capacity current item rest, child.rest = rest := by
    intro child hchild
    obtain ⟨t, -, rfl⟩ := mem_children.mp hchild
    rfl
  have hcount : ((children capacity current item rest).filter kept).length ≤ 2 := by
    refine (List.length_filter_le _ _).trans ?_
    unfold children
    split <;> simp
  have hwork : work ((children capacity current item rest).filter kept) ≤
      ((children capacity current item rest).filter kept).length * (2 ^ (rest.length + 1) - 1) := by
    unfold work
    refine (List.sum_le_card_nsmul _ (2 ^ (rest.length + 1) - 1) fun n hn => ?_).trans_eq (by simp)
    obtain ⟨child, hmem, rfl⟩ := List.mem_map.mp hn
    rw [hchild child (List.mem_of_mem_filter hmem)]
  have hpos : 0 < 2 ^ (rest.length + 1) := Nat.two_pow_pos _
  have hparent : work [current] = 2 * 2 ^ (rest.length + 1) - 1 := by
    simp [work, h, pow_succ, mul_comm]
  have hmore := Nat.mul_le_mul_right (2 ^ (rest.length + 1) - 1) hcount
  omega

/-- **A visit leaves less work.** -/
theorem Visits.work_lt {current : Node ℚ} {state next : State ℚ}
    (h : Visits capacity current state next) :
    work next.frontier < work (current :: state.frontier) := by
  have hpos := work_pos current
  rw [work_cons]
  cases h with
  | pruned | improved | beaten => simpa using hpos
  | branched hrest =>
    rw [work_append]
    exact Nat.add_lt_add_left (work_children_lt hrest _) _

theorem work_perm {frontier more : List (Node ℚ)} (h : frontier.Perm more) :
    work frontier = work more :=
  (h.map _).sum_eq

/-- **The loop empties its frontier**, where its budget covers the work. -/
theorem Sound.exists_searchLoop (observer : Observer) (harranged : Arranged items) {budget : ℕ}
    {state : State ℚ} (h : Sound capacity items state) (hwork : work state.frontier ≤ budget) :
    ∃ last, (searchLoop observer capacity budget state).outcome = .ok last ∧
      Sound capacity items last ∧ last.frontier = [] := by
  induction budget generalizing state with
  | zero =>
    refine ⟨state, rfl, h, ?_⟩
    cases hfrontier : state.frontier with
    | nil => rfl
    | cons current rest =>
      have := work_pos current
      rw [hfrontier, work_cons] at hwork
      omega
  | succ budget ih =>
    have hperm : (ordered state.frontier).Perm state.frontier := Sorting.byInsertion_perm _ _
    rw [searchLoop]
    cases hordered : ordered state.frontier with
    | nil =>
      refine ⟨state, rfl, h, ?_⟩
      rw [hordered] at hperm
      exact hperm.nil_eq.symm
    | cons current rest =>
      rw [hordered] at hperm
      obtain ⟨next, hvisit, hvisits⟩ := exists_outcome_visit observer capacity current
        { state with frontier := rest, processed := state.processed + 1 }
      have hless := hvisits.work_lt
      rw [work_perm hperm] at hless
      obtain ⟨last, hlast, hsound, hempty⟩ :=
        ih ((h.of_perm hperm (state.processed + 1)).visits harranged hvisits) (by omega)
      refine ⟨last, ?_, hsound, hempty⟩
      rw [Traced.outcome_bind, hvisit, ok_bind, hlast]

/-! ## The items of a problem -/

/-- The items as they come. -/
def listed (weights values : List ℚ) : List (Item ℚ) :=
  (List.range weights.length).map fun j => ⟨j, entry weights j, entry values j⟩

theorem mapIdx_zip_eq_listed (h : values.length = weights.length) :
    (weights.zip values).mapIdx (fun i (weight, value) => (⟨i, weight, value⟩ : Item ℚ)) =
      listed weights values := by
  refine List.ext_getElem (by simp [listed, h]) fun j hj hj' => ?_
  have hw : j < weights.length := by simpa [listed] using hj'
  simp [listed, entry_eq_getElem hw, entry_eq_getElem (h ▸ hw : j < values.length)]

/-- **The items of the search are the items as they come, in another order.** -/
theorem sortedItems_perm (h : values.length = weights.length) :
    (sortedItems weights values).Perm (listed weights values) := by
  rw [← mapIdx_zip_eq_listed h]
  exact Sorting.byInsertion_perm _ _

theorem mem_sortedItems (h : values.length = weights.length)
    (hitem : item ∈ sortedItems weights values) :
    item.index < weights.length ∧ item.weight = entry weights item.index ∧
      item.value = entry values item.index := by
  obtain ⟨j, hj, rfl⟩ := List.mem_map.mp ((sortedItems_perm h).mem_iff.mp hitem)
  exact ⟨List.mem_range.mp hj, rfl, rfl⟩

theorem arranged_sortedItems (h : values.length = weights.length) (hweights : ∀ w ∈ weights, 0 ≤ w) :
    Arranged (sortedItems weights values) := by
  have hnonneg : ∀ item ∈ sortedItems weights values, 0 ≤ item.weight := by
    intro item hitem
    rw [(mem_sortedItems h hitem).2.1]
    exact entry_nonneg hweights _
  exact .of_inOrder (Sorting.byInsertion_inOrder weakOrder_ratio _) hnonneg

/-- What a choice of the items measures, read off the caller's list. -/
theorem total_marks_sortedItems (h : values.length = weights.length) {read : List ℚ}
    (hmeasure : ∀ item ∈ sortedItems weights values, measure item = entry read item.index)
    (hchosen : chosen ⊆ range weights.length) :
    total measure (sortedItems weights values) (marks chosen (sortedItems weights values)) =
      ∑ j ∈ chosen, entry read j := by
  have htotal : ∀ items : List (Item ℚ), (∀ item ∈ items, measure item = entry read item.index) →
      total measure items (marks chosen items) =
        (items.map fun item => if item.index ∈ chosen then entry read item.index else 0).sum := by
    intro items hitems
    induction items with
    | nil => rfl
    | cons item items ih =>
      have hrest := ih fun other hother => hitems other (List.mem_cons_of_mem _ hother)
      unfold marks at hrest
      rw [marks, List.map_cons, total_cons, hrest, hitems item List.mem_cons_self]
      simp
  rw [htotal _ hmeasure, ((sortedItems_perm h).map _).sum_eq, listed, List.map_map]
  change ((List.range weights.length).map fun j => if j ∈ chosen then entry read j else 0).sum = _
  have hentries : ∀ j ∈ range weights.length, entry ((List.range weights.length).map fun j =>
      if j ∈ chosen then entry read j else 0) j = if j ∈ chosen then entry read j else 0 :=
    fun j hj => entry_range_map _ (Finset.mem_range.mp hj)
  rw [sum_eq_sum_entry (n := weights.length) (by simp), Finset.sum_congr rfl hentries,
    ← Finset.sum_filter, Finset.filter_mem_eq_inter, Finset.inter_eq_right.mpr hchosen]

/-! ## The solution -/

/-- The entries of a choice: one at the place of each item that is taken. -/
def takenEntries (items : List (Item ℚ)) (taken : List Bool) : List (ℕ × ℚ) :=
  (items.zip taken).filterMap fun (item, taken) => if taken then some (item.index, (1 : ℚ)) else none

theorem takenEntries_cons (item : Item ℚ) (items : List (Item ℚ)) (t : Bool) (taken : List Bool) :
    takenEntries (item :: items) (t :: taken) =
      if t then (item.index, 1) :: takenEntries items taken else takenEntries items taken := by
  cases t <;> rfl

theorem keys_takenEntries_sublist (items : List (Item ℚ)) (taken : List Bool) :
    ((takenEntries items taken).map (·.1)).Sublist (items.map (·.index)) := by
  induction items generalizing taken with
  | nil => exact List.Sublist.refl _
  | cons item items ih =>
    cases taken with
    | nil => exact List.nil_sublist _
    | cons t taken =>
      rw [takenEntries_cons]
      cases t with
      | false => exact (ih taken).trans (List.sublist_cons_self _ _)
      | true => exact (ih taken).cons_cons _

/-- What a list says of the items taken is their total. -/
theorem valueAt_takenEntries {read : List ℚ}
    (hmeasure : ∀ item ∈ items, measure item = entry read item.index) (taken : List Bool) :
    valueAt (takenEntries items taken) read = total measure items taken := by
  induction items generalizing taken with
  | nil => rfl
  | cons item items ih =>
    cases taken with
    | nil => simp [takenEntries]
    | cons t taken =>
      have hrest := ih (fun other hother => hmeasure other (List.mem_cons_of_mem _ hother)) taken
      rw [takenEntries_cons, total_cons, ← hrest, hmeasure item List.mem_cons_self]
      cases t <;> simp

/-- The solution of a choice, in the order of the caller. -/
def solutionOf (weights values : List ℚ) (taken : List Bool) : List ℚ :=
  scatter (zeros weights.length) (takenEntries (sortedItems weights values) taken)

theorem dot_solutionOf (h : values.length = weights.length) {read : List ℚ}
    (hmeasure : ∀ item ∈ sortedItems weights values, measure item = entry read item.index)
    (taken : List Bool) : dot read (solutionOf weights values taken) =
      total measure (sortedItems weights values) taken := by
  have hkeys := keys_takenEntries_sublist (sortedItems weights values) taken
  have hplaces : ((sortedItems weights values).map (·.index)).Nodup := by
    rw [((sortedItems_perm h).map _).nodup_iff, listed, List.map_map]
    simpa [Function.comp_def] using List.nodup_range
  rw [dot_comm, dot_eq_sum (n := weights.length) (by simp [solutionOf]), solutionOf,
    sum_scatter (hkeys.nodup hplaces), valueAt_takenEntries hmeasure]
  intro e he
  obtain ⟨item, hitem, hindex⟩ := List.mem_map.mp (hkeys.subset (List.mem_map_of_mem he))
  exact hindex ▸ (mem_sortedItems h hitem).1

theorem mem_solutionOf {a : ℚ} {taken : List Bool} (h : a ∈ solutionOf weights values taken) :
    a = 0 ∨ a = 1 := by
  rcases mem_scatter h with hzero | hone
  · exact Or.inl (List.eq_of_mem_replicate hzero)
  · obtain ⟨e, he, rfl⟩ := List.mem_map.mp hone
    obtain ⟨⟨item, t⟩, -, hsome⟩ := List.mem_filterMap.mp he
    cases t with
    | false => cases hsome
    | true =>
      obtain rfl := Option.some.inj hsome
      exact Or.inr rfl

theorem map_clean_solutionOf (weights values : List ℚ) (taken : List Bool) :
    (solutionOf weights values taken).map Scalar.clean = solutionOf weights values taken := by
  refine (List.map_congr_left (g := id) fun a ha => ?_).trans (List.map_id _)
  rcases mem_solutionOf ha with rfl | rfl
  · decide +kernel
  · decide +kernel

/-! ## The answer -/

/-- **A choice of items that nothing betters**: a vector of zeros and ones within the capacity, worth
the given value, which no set of items that fits exceeds. -/
structure Exact (capacity : ℚ) (weights values : List ℚ) (best : ℚ) (solution : List ℚ) : Prop where
  length_eq : solution.length = weights.length
  whole : ∀ a ∈ solution, a = 0 ∨ a = 1
  weight_le : dot weights solution ≤ capacity + 1e-12
  value_eq : dot values solution = best
  unbeaten : ∀ chosen ⊆ range weights.length, ∑ j ∈ chosen, entry weights j ≤ capacity →
    ∑ j ∈ chosen, entry values j ≤ best + 1e-9

theorem outcome_showItems {α : Type} [Scalar α] (observer : Observer) (items : List (Item α)) :
    (showItems observer items).outcome = .ok () := by
  induction items with
  | nil => rfl
  | cons item items ih =>
    rw [showItems, Traced.outcome_bind, outcome_line, ok_bind, ih]

/-- **A run answers with the solution of the last choice.** -/
theorem outcome_solveItems (observer : Observer) (hcapacity : 0 ≤ capacity)
    (h : values.length = weights.length) {last : State ℚ}
    (hlast : (searchLoop observer capacity (nodeBudget weights.length)
      (start capacity (sortedItems weights values))).outcome = .ok last) :
    (solveItems observer capacity weights values).outcome = .ok
      { status := .optimalInteger
        objective := some (Scalar.round3 last.best)
        solution := some (solutionOf weights values last.choice)
        iterations := last.processed
        message := .text s!"Explored nodes: {last.processed}" } := by
  have hlength : (sortedItems weights values).length = weights.length := by
    rw [(sortedItems_perm h).length_eq, listed, List.length_map, List.length_range]
  rw [start] at hlast
  simp only [solveItems, Traced.outcome_bind, outcome_header, ok_bind, ne_eq, h, not_true_eq_false,
    if_false, run, if_neg (not_lt.mpr hcapacity), outcome_say, outcome_showItems, hlength, hlast,
    outcome_line, Traced.outcome_pure, Result.solved]
  rw [← map_clean_solutionOf weights values last.choice]
  rfl

/-- **The knapsack search is exact.** For a capacity and weights that are not negative it empties its
frontier, and answers with a choice whose value is the best value of its last state. -/
theorem exists_exact_solveItems (observer : Observer) (hcapacity : 0 ≤ capacity)
    (hweights : ∀ w ∈ weights, 0 ≤ w) (hlength : values.length = weights.length) :
    ∃ (last : State ℚ) (result : Result ℚ) (solution : List ℚ),
      (searchLoop observer capacity (nodeBudget weights.length)
        (start capacity (sortedItems weights values))).outcome = .ok last ∧ last.frontier = [] ∧
      (solveItems observer capacity weights values).outcome = .ok result ∧
      result.status = .optimalInteger ∧ result.objective = some (Scalar.round3 last.best) ∧
      result.solution = some solution ∧ Exact capacity weights values last.best solution := by
  have harranged := arranged_sortedItems hlength hweights
  have hitems := fun item (hitem : item ∈ sortedItems weights values) =>
    (mem_sortedItems hlength hitem).2
  have hwork : work (start capacity (sortedItems weights values)).frontier ≤
      nodeBudget weights.length := by
    simp [work, start, node, nodeBudget, (sortedItems_perm hlength).length_eq, listed]
  obtain ⟨last, hlast, hsound, hempty⟩ :=
    (start_sound hcapacity (sortedItems weights values)).exists_searchLoop observer harranged hwork
  refine ⟨last, _, _, hlast, hempty, outcome_solveItems observer hcapacity hlength hlast, rfl, rfl,
    rfl, ?_⟩
  have hweight := fun item hitem => (hitems item hitem).1
  have hvalue := fun item hitem => (hitems item hitem).2
  refine ⟨by simp [solutionOf], fun a ha => mem_solutionOf ha, ?_, ?_, fun chosen hchosen hfits => ?_⟩
  · rw [dot_solutionOf hlength hweight]
    exact hsound.weight_le
  · rw [dot_solutionOf hlength hvalue]
    exact hsound.value_eq.symm
  · rw [← total_marks_sortedItems hlength hweight hchosen] at hfits
    rw [← total_marks_sortedItems hlength hvalue hchosen]
    rcases hsound.sight chosen hfits with hbest | ⟨current, hcurrent, -⟩
    · exact hbest
    · rw [hempty] at hcurrent
      cases hcurrent

/-- An item without weight, one that is worth less than nothing, and two of which only one fits. -/
theorem exists_exact_solveItems_four :
    (0 : ℚ) ≤ 5 ∧ (∀ w ∈ [0, 1, 4, 3], (0 : ℚ) ≤ w) ∧ [2, -1, 5, 4].length = [0, 1, 4, 3].length ∧
      ∃ (last : State ℚ) (result : Result ℚ) (solution : List ℚ),
        (searchLoop .recording 5 (nodeBudget 4)
          (start 5 (sortedItems [0, 1, 4, 3] [2, -1, 5, 4]))).outcome = .ok last ∧
        last.frontier = [] ∧ (solveItems .recording 5 [0, 1, 4, 3] [2, -1, 5, 4]).outcome = .ok result ∧
        result.status = .optimalInteger ∧ result.objective = some (Scalar.round3 last.best) ∧
        result.solution = some solution ∧ Exact 5 [0, 1, 4, 3] [2, -1, 5, 4] last.best solution :=
  have hcapacity : (0 : ℚ) ≤ 5 := by norm_num
  have hweights : ∀ w ∈ [0, 1, 4, 3], (0 : ℚ) ≤ w := by decide +kernel
  have hlength : ([2, -1, 5, 4] : List ℚ).length = ([0, 1, 4, 3] : List ℚ).length := rfl
  ⟨hcapacity, hweights, rfl, exists_exact_solveItems .recording hcapacity hweights hlength⟩

end Knapsack

end LinOpt
