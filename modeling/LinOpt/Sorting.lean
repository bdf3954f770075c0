/-!
# Stable sorting by binary insertion

The list begins with a run that is in order already, or strictly in the opposite order; the first is kept
as it is, the second reversed. The other entries are taken one by one and inserted into the sorted part.
The place of an entry is found by halving: it comes after every entry that it is not before. The result is
a permutation of the input whatever the comparison does, and it is the stable sort where the comparison is
a weak order.
-/

namespace LinOpt

namespace Sorting

variable {β : Type}

/-- The place in `sorted`, from `low` up to `high`, behind the entries that `x` is not before. -/
def bisect (before : β → β → Bool) (x : β) (sorted : List β) : Nat → Nat → Nat → Nat
  | 0, low, _ => low
  | steps + 1, low, high =>
    if low < high then
      let middle := (low + high) / 2
      match sorted[middle]? with
      | none => low
      | some y =>
        if before x y then bisect before x sorted steps low middle
        else bisect before x sorted steps (middle + 1) high
    else low

/-- Inserts an entry into a sorted list. -/
def insert (before : β → β → Bool) (sorted : List β) (x : β) : List β :=
  let place := bisect before x sorted sorted.length 0 sorted.length
  sorted.take place ++ x :: sorted.drop place

/-- The longest run behind `previous` in which each entry follows the one before it, and the rest. -/
def takeRun (follows : β → β → Bool) (previous : β) : List β → List β × List β
  | [] => ([], [])
  | x :: xs =>
    if follows previous x then (x :: (takeRun follows x xs).1, (takeRun follows x xs).2) else ([], x :: xs)

/-- The run at the front of a list, brought into order, and the rest. -/
def initialRun (before : β → β → Bool) : List β → List β × List β
  | [] => ([], [])
  | [x] => ([x], [])
  | x :: y :: more =>
    if before y x then
      let split := takeRun (fun previous next => before next previous) x (y :: more)
      ((x :: split.1).reverse, split.2)
    else
      let split := takeRun (fun previous next => !before next previous) x (y :: more)
      (x :: split.1, split.2)

/-- The list in order, where `before x y` says that `x` must come before `y`. -/
def byInsertion (before : β → β → Bool) (xs : List β) : List β :=
  (initialRun before xs).2.foldl (insert before) (initialRun before xs).1

theorem insert_perm (before : β → β → Bool) (sorted : List β) (x : β) :
    (insert before sorted x).Perm (x :: sorted) := by
  unfold insert
  exact List.perm_middle.trans (by rw [List.take_append_drop])

/-- A run and the rest are the list. -/
theorem takeRun_append (follows : β → β → Bool) (previous : β) (xs : List β) :
    (takeRun follows previous xs).1 ++ (takeRun follows previous xs).2 = xs := by
  induction xs generalizing previous with
  | nil => rfl
  | cons x xs ih =>
    unfold takeRun
    split
    · simp [ih x]
    · rfl

theorem initialRun_perm (before : β → β → Bool) (xs : List β) :
    ((initialRun before xs).1 ++ (initialRun before xs).2).Perm xs := by
  match xs with
  | [] => exact List.Perm.refl _
  | [x] => exact List.Perm.refl _
  | x :: y :: more =>
    by_cases h : before y x = true
    · rw [initialRun, if_pos h]
      refine ((List.reverse_perm _).append_right _).trans ?_
      rw [List.cons_append, takeRun_append]
    · rw [initialRun, if_neg h, List.cons_append, takeRun_append]

/-- Inserting entries one by one adds them and nothing else. -/
theorem foldl_insert_perm (before : β → β → Bool) (xs sorted : List β) :
    (xs.foldl (insert before) sorted).Perm (sorted ++ xs) := by
  induction xs generalizing sorted with
  | nil => simp
  | cons x xs ih =>
    refine (ih _).trans ?_
    refine ((insert_perm before sorted x).append_right xs).trans ?_
    exact List.perm_middle.symm

/-- **Sorting loses and invents nothing**, whatever the comparison does. -/
theorem byInsertion_perm (before : β → β → Bool) (xs : List β) :
    (byInsertion before xs).Perm xs :=
  (foldl_insert_perm before _ _).trans (initialRun_perm before xs)

end Sorting

end LinOpt
