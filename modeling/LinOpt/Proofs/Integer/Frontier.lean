import LinOpt.Proofs.Integer.Knapsack
import Mathlib.Data.List.Perm.Subperm
/-!
# The knapsack search makes each partial choice once

Nothing is asked of the numbers here: they may be infinite, or no numbers at all, and no comparison
need mean anything. Which node is taken next is left open as well (`Explored`), so the order of the
frontier does not matter either.

What a search cannot do is come back. Nothing that has entered the frontier goes on from a node that is
still open (`Unrepeated.unextended`). So the children of the node that is taken are new, and no open
node goes on from another. There are `2 ^ (n + 1) - 1` partial choices of `n` items
(`length_le_of_nodup`), so no more nodes are taken before the frontier is empty, and the budget of the
loop is never what ends it (`exists_searchLoop_ends`).
-/

namespace LinOpt

namespace Knapsack

/-! ## Counting partial choices -/

/-- The number of a partial choice: its decisions as binary digits below a leading one. -/
def number (taken : List Bool) : ℕ := taken.foldr (fun t k => 2 * k + t.toNat) 1

theorem number_nil : number [] = 1 := rfl

theorem number_cons (t : Bool) (taken : List Bool) :
    number (t :: taken) = 2 * number taken + t.toNat := rfl

theorem number_pos (taken : List Bool) : 0 < number taken := by
  induction taken with
  | nil => exact Nat.one_pos
  | cons t taken ih =>
    rw [number_cons]
    omega

theorem number_lt (taken : List Bool) : number taken < 2 ^ (taken.length + 1) := by
  induction taken with
  | nil => exact Nat.one_lt_two
  | cons t taken ih =>
    have hdigit := t.toNat_lt
    rw [number_cons, List.length_cons, pow_succ]
    omega

/-- **A partial choice can be read off its number.** -/
theorem number_injective : Function.Injective number := by
  have hdigits : ∀ s t : Bool, s.toNat = t.toNat → s = t := by decide
  intro a
  induction a with
  | nil =>
    intro b h
    cases b with
    | nil => rfl
    | cons t b =>
      have hpos := number_pos b
      rw [number_nil, number_cons] at h
      omega
  | cons s a ih =>
    intro b h
    cases b with
    | nil =>
      have hpos := number_pos a
      rw [number_nil, number_cons] at h
      omega
    | cons t b =>
      have hs := s.toNat_lt
      have ht := t.toNat_lt
      rw [number_cons, number_cons] at h
      rw [hdigits s t (by omega), ih (by omega : number a = number b)]

/-- **There are `2 ^ (n + 1) - 1` partial choices of `n` items**: a list without repetition holds no
more of them. -/
theorem length_le_of_nodup {n : ℕ} {choices : List (List Bool)} (hnodup : choices.Nodup)
    (hlength : ∀ taken ∈ choices, taken.length ≤ n) : choices.length ≤ 2 ^ (n + 1) - 1 := by
  have hnumbers : (choices.map number).Nodup := hnodup.map number_injective
  have hrange : (choices.map number).toFinset ⊆ Finset.Ico 1 (2 ^ (n + 1)) := by
    intro k hk
    obtain ⟨taken, htaken, rfl⟩ := List.mem_map.mp (List.mem_toFinset.mp hk)
    have hpow : 2 ^ (taken.length + 1) ≤ 2 ^ (n + 1) :=
      Nat.pow_le_pow_right Nat.two_pos (Nat.succ_le_succ (hlength taken htaken))
    exact Finset.mem_Ico.mpr ⟨number_pos taken, (number_lt taken).trans_le hpow⟩
  calc choices.length = (choices.map number).toFinset.card := by
        rw [List.toFinset_card_of_nodup hnumbers, List.length_map]
    _ ≤ (Finset.Ico 1 (2 ^ (n + 1))).card := Finset.card_le_card hrange
    _ = 2 ^ (n + 1) - 1 := Nat.card_Ico _ _

/-! ## Nothing enters twice -/

section Unrepeated

variable {α : Type} {items : List (Item α)} {entered added rest : List (Node α)} {current : Node α}
  {state next : State α}

/-- **The nodes that a visit adds** decide the next item of the node, each in its own way. -/
structure Branches (current : Node α) (added : List (Node α)) : Prop where
  decides : ∀ child ∈ added, ∃ item t,
    current.rest = item :: child.rest ∧ child.taken = current.taken ++ [t]
  nodup : (added.map Node.taken).Nodup

theorem branches_nil (current : Node α) : Branches current [] where
  decides := nofun
  nodup := List.nodup_nil

theorem Branches.sublist (h : Branches current added) {kept : List (Node α)}
    (hkept : kept.Sublist added) : Branches current kept where
  decides := fun child hchild => h.decides child (hkept.subset hchild)
  nodup := h.nodup.sublist (hkept.map _)

/-- **Nothing enters twice**: the nodes that have entered the frontier have decided differently, and
none of them goes on from a node that is still open. -/
structure Unrepeated (items : List (Item α)) (entered : List (Node α)) (state : State α) : Prop where
  /-- A node has made a decision for each of the items but those that it leaves to be decided. -/
  places : ∀ current ∈ entered,
    current.taken.length ≤ items.length ∧ current.rest = items.drop current.taken.length
  nodup : (entered.map Node.taken).Nodup
  opened : state.frontier.Subperm entered
  unextended : ∀ current ∈ state.frontier, ∀ other ∈ entered,
    current.taken <+: other.taken → other.taken = current.taken
  /-- What has entered was taken, or is open. -/
  length_eq : state.processed + state.frontier.length = entered.length

namespace Unrepeated

section Frontier

variable (h : Unrepeated items entered state)

include h

/-- The open nodes have decided differently. -/
theorem nodup_frontier : (state.frontier.map Node.taken).Nodup := by
  obtain ⟨frontier, hperm, hsub⟩ := h.opened
  exact (hperm.map _).nodup_iff.mp (h.nodup.sublist (hsub.map _))

/-- **No open node goes on from another.** -/
theorem antichain :
    state.frontier.Pairwise fun a b => ¬ a.taken <+: b.taken ∧ ¬ b.taken <+: a.taken := by
  refine (List.pairwise_map.mp h.nodup_frontier).imp_of_mem fun ha hb hne => ⟨fun hbegins => ?_,
    fun hbegins => ?_⟩
  · exact hne (h.unextended _ ha _ (h.opened.subset hb) hbegins).symm
  · exact hne (h.unextended _ hb _ (h.opened.subset ha) hbegins)

/-- **The nodes that were taken, and those that are open, are counted.** -/
theorem processed_add_le :
    state.processed + state.frontier.length ≤ 2 ^ (items.length + 1) - 1 := by
  rw [h.length_eq, ← List.length_map Node.taken]
  refine length_le_of_nodup h.nodup fun taken htaken => ?_
  obtain ⟨current, hcurrent, rfl⟩ := List.mem_map.mp htaken
  exact (h.places current hcurrent).1

end Frontier

section Branch

variable (h : Unrepeated items entered state) (hperm : state.frontier.Perm (current :: rest))
  (hbranches : Branches current added)

include h hperm hbranches

/-- A child has decided one item more than its parent. -/
theorem places_child {child : Node α} (hchild : child ∈ added) :
    child.taken.length ≤ items.length ∧ child.rest = items.drop child.taken.length := by
  have hcurrent : current ∈ entered := h.opened.subset (hperm.mem_iff.mpr List.mem_cons_self)
  obtain ⟨item, t, hrest, htaken⟩ := hbranches.decides child hchild
  have hdrop : items.drop current.taken.length = item :: child.rest :=
    (h.places current hcurrent).2.symm.trans hrest
  have hlt : current.taken.length < items.length := by
    by_contra hge
    rw [List.drop_eq_nil_of_le (not_lt.mp hge)] at hdrop
    cases hdrop
  rw [htaken, List.length_append, List.length_singleton, ← List.drop_drop, hdrop]
  exact ⟨hlt, rfl⟩

/-- **A child is new**: nothing that has entered begins as it does. -/
theorem not_begins_as_child {child other : Node α} (hchild : child ∈ added) (hother : other ∈ entered) :
    ¬ child.taken <+: other.taken := by
  intro hbegins
  have hcurrent : current ∈ state.frontier := hperm.mem_iff.mpr List.mem_cons_self
  obtain ⟨item, t, -, htaken⟩ := hbranches.decides child hchild
  rw [htaken] at hbegins
  -- the parent is open, so what begins as it does has decided no more
  have hparent := h.unextended current hcurrent other hother ((List.prefix_append _ _).trans hbegins)
  have hlength := hbegins.length_le
  rw [hparent, List.length_append, List.length_singleton] at hlength
  omega

/-- A child does not go on from a node that stays open. -/
theorem child_unextended {child other : Node α} (hchild : child ∈ added) (hother : other ∈ rest)
    (hbegins : other.taken <+: child.taken) : child.taken = other.taken := by
  obtain ⟨item, t, -, htaken⟩ := hbranches.decides child hchild
  rw [htaken] at hbegins ⊢
  rcases List.prefix_concat_iff.mp hbegins with heq | hparent
  · exact heq.symm
  · -- the parent would go on from an open node, or decide as it does
    have hopen : other ∈ state.frontier := hperm.mem_iff.mpr (List.mem_cons_of_mem _ hother)
    have hcurrent : current ∈ entered := h.opened.subset (hperm.mem_iff.mpr List.mem_cons_self)
    have hsame := h.unextended other hopen current hcurrent hparent
    have hdiffer := (hperm.map Node.taken).nodup_iff.mp h.nodup_frontier
    rw [List.map_cons, List.nodup_cons, hsame] at hdiffer
    exact absurd (List.mem_map_of_mem hother) hdiffer.1

/-- **A visit repeats nothing.** -/
theorem branch (hfrontier : next.frontier = rest ++ added)
    (hprocessed : next.processed = state.processed + 1) :
    Unrepeated items (entered ++ added) next where
  places := by
    intro a ha
    rcases List.mem_append.mp ha with ha | ha
    · exact h.places a ha
    · exact h.places_child hperm hbranches ha
  nodup := by
    rw [List.map_append]
    refine h.nodup.append hbranches.nodup fun taken hold hnew => ?_
    obtain ⟨other, hother, rfl⟩ := List.mem_map.mp hold
    obtain ⟨child, hchild, htaken⟩ := List.mem_map.mp hnew
    exact h.not_begins_as_child hperm hbranches hchild hother (htaken ▸ List.prefix_refl _)
  opened := by
    rw [hfrontier]
    have hrest : rest.Subperm entered :=
      ((List.sublist_cons_self current rest).subperm.trans hperm.symm.subperm).trans h.opened
    exact hrest.append (List.Subperm.refl added)
  unextended := by
    rw [hfrontier]
    intro a ha b hb hbegins
    rcases List.mem_append.mp ha with ha | ha
    · rcases List.mem_append.mp hb with hb | hb
      · exact h.unextended a (hperm.mem_iff.mpr (List.mem_cons_of_mem _ ha)) b hb hbegins
      · exact h.child_unextended hperm hbranches hb ha hbegins
    · rcases List.mem_append.mp hb with hb | hb
      · exact absurd hbegins (h.not_begins_as_child hperm hbranches ha hb)
      · -- both are children of the node that is taken, and have decided as many items
        obtain ⟨_, _, -, hataken⟩ := hbranches.decides a ha
        obtain ⟨_, _, -, hbtaken⟩ := hbranches.decides b hb
        exact (hbegins.eq_of_length (by simp [hataken, hbtaken])).symm
  length_eq := by
    have hopen := hperm.length_eq
    have hcount := h.length_eq
    rw [hfrontier, hprocessed, List.length_append, List.length_append]
    rw [List.length_cons] at hopen
    omega

end Branch

end Unrepeated

end Unrepeated

/-! ## The course of a search -/

variable {α : Type} [Scalar α] {observer : Observer} {capacity : α} {items : List (Item α)}
  {entered : List (Node α)} {current : Node α} {state last : State α}

theorem branches_children {item : Item α} {rest : List (Item α)} (h : current.rest = item :: rest)
    (capacity : α) : Branches current (children capacity current item rest) := by
  unfold children
  split
  · refine ⟨fun child hchild => ?_, by simp [node]⟩
    rcases List.mem_pair.mp hchild with rfl | rfl
    · exact ⟨item, true, h, rfl⟩
    · exact ⟨item, false, h, rfl⟩
  · refine ⟨fun child hchild => ?_, List.nodup_singleton _⟩
    obtain rfl := List.mem_singleton.mp hchild
    exact ⟨item, false, h, rfl⟩

/-- **A visit does not fail**, and adds to the frontier at most the children of its node. -/
theorem exists_added_visit (observer : Observer) (capacity : α) (current : Node α)
    (state : State α) : ∃ next added, (visit observer capacity current state).outcome = .ok next ∧
      next.frontier = state.frontier ++ added ∧ next.processed = state.processed ∧
      Branches current added := by
  unfold visit
  split
  · exact ⟨state, [], rfl, (List.append_nil _).symm, rfl, branches_nil current⟩
  · cases hrest : current.rest with
    | nil =>
      dsimp only
      split
      · refine ⟨{ state with best := current.value, choice := current.taken }, [], ?_,
          (List.append_nil _).symm, rfl, branches_nil current⟩
        rw [Traced.outcome_bind, outcome_line]
        rfl
      · exact ⟨state, [], rfl, (List.append_nil _).symm, rfl, branches_nil current⟩
    | cons item rest =>
      exact ⟨_, _, rfl, rfl, rfl, (branches_children hrest capacity).sublist List.filter_sublist⟩

/-- The state before the first node, for numbers of any kind. -/
def opening (capacity : α) (items : List (Item α)) : State α :=
  { frontier := [node capacity [] items 0 0], best := 0, choice := items.map fun _ => false }

/-- **The course of a search**: the nodes that have entered the frontier, as they came, and the state
they have led to. -/
inductive Explored (observer : Observer) (capacity : α) (items : List (Item α)) :
    List (Node α) → State α → Prop
  /-- The node that has decided nothing enters first. -/
  | root : Explored observer capacity items (opening capacity items).frontier
      (opening capacity items)
  /-- A node of the frontier, whichever it is, is taken and visited, and what the visit adds enters. -/
  | visited {entered added rest : List (Node α)} {current : Node α} {state next : State α} :
      Explored observer capacity items entered state → state.frontier.Perm (current :: rest) →
      (visit observer capacity current
        { state with frontier := rest, processed := state.processed + 1 }).outcome = .ok next →
      next.frontier = rest ++ added → Explored observer capacity items (entered ++ added) next

theorem opening_unrepeated (capacity : α) (items : List (Item α)) :
    Unrepeated items (opening capacity items).frontier (opening capacity items) where
  places := by
    intro current hcurrent
    obtain rfl := List.mem_singleton.mp hcurrent
    exact ⟨Nat.zero_le _, rfl⟩
  nodup := List.nodup_singleton _
  opened := List.Subperm.refl _
  unextended := by
    intro current hcurrent other hother _
    rw [List.mem_singleton.mp hcurrent, List.mem_singleton.mp hother]
  length_eq := rfl

/-- **A search repeats nothing**, in whichever order it takes its nodes. -/
theorem Explored.unrepeated (h : Explored observer capacity items entered state) :
    Unrepeated items entered state := by
  induction h with
  | root => exact opening_unrepeated capacity items
  | @visited entered added rest current state next _ hperm hnext hfrontier ih =>
    obtain ⟨_, branches, hok, happend, hprocessed, hbranches⟩ := exists_added_visit observer capacity
      current { state with frontier := rest, processed := state.processed + 1 }
    obtain rfl := Except.ok.inj (hnext.symm.trans hok)
    obtain rfl : added = branches := List.append_cancel_left (hfrontier.symm.trans happend)
    exact ih.branch hperm hbranches hfrontier hprocessed

/-! ## The loop -/

/-- **The loop is a course of the search**: it ends with an empty frontier, or has used up its
budget. -/
theorem Explored.exists_searchLoop (h : Explored observer capacity items entered state)
    (budget : ℕ) : ∃ more last, (searchLoop observer capacity budget state).outcome = .ok last ∧
      Explored observer capacity items more last ∧
      (last.frontier = [] ∨ last.processed = state.processed + budget) := by
  induction budget generalizing entered state with
  | zero => exact ⟨entered, state, rfl, h, Or.inr rfl⟩
  | succ budget ih =>
    have hperm : (ordered state.frontier).Perm state.frontier := Sorting.byInsertion_perm _ _
    rw [searchLoop]
    cases hordered : ordered state.frontier with
    | nil =>
      rw [hordered] at hperm
      exact ⟨entered, state, rfl, h, Or.inl hperm.nil_eq.symm⟩
    | cons current rest =>
      rw [hordered] at hperm
      obtain ⟨next, added, hvisit, hfrontier, hprocessed, -⟩ := exists_added_visit observer capacity
        current { state with frontier := rest, processed := state.processed + 1 }
      have hcount : next.processed = state.processed + 1 := hprocessed
      obtain ⟨more, last, hlast, hexplored, hends⟩ := ih (h.visited hperm.symm hvisit hfrontier)
      refine ⟨more, last, ?_, hexplored, hends.imp_right fun hused => by omega⟩
      rw [Traced.outcome_bind, hvisit, ok_bind, hlast]

/-- A larger budget changes nothing once the frontier is empty. -/
theorem searchLoop_of_le {budget more : ℕ} (hle : budget ≤ more)
    (h : (searchLoop observer capacity budget state).outcome = .ok last)
    (hempty : last.frontier = []) :
    (searchLoop observer capacity more state).outcome = .ok last := by
  induction budget generalizing more state with
  | zero =>
    obtain rfl : state = last := Except.ok.inj h
    cases more with
    | zero => exact h
    | succ more =>
      rw [searchLoop, hempty]
      rfl
  | succ budget ih =>
    obtain ⟨more, rfl⟩ := Nat.exists_eq_add_of_le' (Nat.one_le_of_lt hle)
    rw [searchLoop] at h ⊢
    cases hordered : ordered state.frontier with
    | nil => rwa [hordered] at h
    | cons current rest =>
      simp only [hordered] at h ⊢
      obtain ⟨next, -, hvisit, -⟩ := exists_added_visit observer capacity current
        { state with frontier := rest, processed := state.processed + 1 }
      rw [Traced.outcome_bind, hvisit, ok_bind] at h ⊢
      exact ih (Nat.le_of_succ_le_succ hle) h

/-- **The loop empties its frontier**, and its budget is not what ends it. -/
theorem exists_searchLoop_ends (observer : Observer) (capacity : α) (items : List (Item α)) :
    ∃ entered last, Explored observer capacity items entered last ∧ last.frontier = [] ∧
      ∀ budget, nodeBudget items.length ≤ budget →
        (searchLoop observer capacity budget (opening capacity items)).outcome = .ok last := by
  have hroot : Explored observer capacity items _ _ := .root
  obtain ⟨entered, last, hlast, hexplored, hends⟩ := hroot.exists_searchLoop (nodeBudget items.length)
  have hcount := hexplored.unrepeated.processed_add_le
  have hempty : last.frontier = [] := by
    rcases hends with hempty | hused
    · exact hempty
    · have hbudget : last.processed = 2 ^ (items.length + 1) - 1 := hused.trans (Nat.zero_add _)
      exact List.eq_nil_of_length_eq_zero (by omega)
  exact ⟨entered, last, hexplored, hempty, fun budget hle => searchLoop_of_le hle hlast hempty⟩

/-! ## A run -/

theorem length_sortedItems (weights values : List α) :
    (sortedItems weights values).length = min weights.length values.length := by
  rw [sortedItems, (Sorting.byInsertion_perm _ _).length_eq, List.length_mapIdx, List.length_zip]

/-- **A run reports the nodes that its loop has taken**, unless the capacity is negative. -/
theorem exists_iterations_run (observer : Observer) (capacity : α) (weights values : List α)
    (hlast : (searchLoop observer capacity (nodeBudget (sortedItems weights values).length)
      (opening capacity (sortedItems weights values))).outcome = .ok last) :
    ∃ result, (run observer capacity weights values).outcome = .ok result ∧
      result.iterations = if capacity < 0 then 0 else (last.processed : ℤ) := by
  unfold run
  split
  · exact ⟨_, rfl, rfl⟩
  · rw [opening] at hlast
    simp only [Traced.outcome_bind, outcome_say, outcome_showItems, ok_bind, hlast, outcome_line,
      Traced.outcome_pure]
    exact ⟨_, rfl, rfl⟩

/-- **The search makes each partial choice at most once, and ends**, for a capacity, weights and values
of any kind. In whichever order it takes its nodes, nothing enters its frontier twice, no open node goes
on from another, and it takes no more nodes than there are partial choices. The loop is such a search
after any number of nodes; with a budget of that many or more it ends, always in the same state, with an
empty frontier; and a run reports how many nodes its loop has taken. -/
theorem explored_once (observer : Observer) (capacity : α) (weights values : List α) :
    (∀ entered state, Explored observer capacity (sortedItems weights values) entered state →
      Unrepeated (sortedItems weights values) entered state ∧
      (state.frontier.Pairwise fun a b => ¬ a.taken <+: b.taken ∧ ¬ b.taken <+: a.taken) ∧
      state.processed ≤ 2 ^ (min weights.length values.length + 1) - 1) ∧
    (∀ budget, ∃ entered state,
      (searchLoop observer capacity budget
        (opening capacity (sortedItems weights values))).outcome = .ok state ∧
      Explored observer capacity (sortedItems weights values) entered state) ∧
    ∃ last result, last.frontier = [] ∧
      (∀ budget, 2 ^ (min weights.length values.length + 1) - 1 ≤ budget →
        (searchLoop observer capacity budget
          (opening capacity (sortedItems weights values))).outcome = .ok last) ∧
      (run observer capacity weights values).outcome = .ok result ∧
      (result.iterations = if capacity < 0 then 0 else (last.processed : ℤ)) ∧
      result.iterations ≤ (2 ^ (min weights.length values.length + 1) - 1 : ℕ) := by
  rw [← length_sortedItems weights values]
  have hprocessed : ∀ entered state,
      Explored observer capacity (sortedItems weights values) entered state →
        state.processed ≤ 2 ^ ((sortedItems weights values).length + 1) - 1 :=
    fun _ _ h => (Nat.le_add_right _ _).trans h.unrepeated.processed_add_le
  refine ⟨fun entered state h => ⟨h.unrepeated, h.unrepeated.antichain, hprocessed _ _ h⟩,
    fun budget => ?_, ?_⟩
  · have hroot : Explored observer capacity (sortedItems weights values) _ _ := .root
    obtain ⟨entered, state, hstate, hexplored, -⟩ := hroot.exists_searchLoop budget
    exact ⟨entered, state, hstate, hexplored⟩
  · obtain ⟨entered, last, hexplored, hempty, hends⟩ :=
      exists_searchLoop_ends observer capacity (sortedItems weights values)
    obtain ⟨result, hresult, hiterations⟩ :=
      exists_iterations_run observer capacity weights values (hends _ (Nat.le_refl _))
    refine ⟨last, result, hempty, hends, hresult, hiterations, ?_⟩
    rw [hiterations]
    split
    · exact Int.natCast_nonneg _
    · exact Int.ofNat_le.mpr (hprocessed _ _ hexplored)

end Knapsack

end LinOpt
