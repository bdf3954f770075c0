import LinOpt.Fault
/-!
# Positions in a list

A position below zero counts from the end: `-1` is the last entry. A position outside the list is a
fault, and reading and writing have faults of their own; a position that 64 bits do not hold has one for
both.
-/

namespace LinOpt

namespace Position

variable {α β : Type}

/-- The place from the front that position `i` names in a list of `length` entries. -/
def resolve (length : Nat) (i : Int) : Option Nat :=
  if 0 ≤ i then if i < length then some i.toNat else none
  else if -(length : Int) ≤ i then some (i + length).toNat
  else none

/-- A place from the front is a position as it is. -/
theorem resolve_natCast {length k : Nat} (h : k < length) : resolve length (k : Int) = some k := by
  have hpos : (0 : Int) ≤ (k : Int) := Int.natCast_nonneg k
  have hlt : (k : Int) < (length : Int) := by omega
  simp [resolve, hpos, hlt]

/-- The fault of a position outside a list, which is `fault` for a position of 64 bits. -/
def outside (i : Int) (fault : Fault α) : Fault α :=
  if -0x8000000000000000 ≤ i ∧ i < 0x8000000000000000 then fault else .indexTooLarge

/-- The entry at place `k` from the front. -/
def get (xs : List β) (k : Nat) : Except (Fault α) β :=
  match xs[k]? with
  | some x => .ok x
  | none => .error .indexOutOfRange

/-- The entry at position `i`. -/
def read (xs : List β) (i : Int) : Except (Fault α) β :=
  match resolve xs.length i with
  | some k => get xs k
  | none => .error (outside i .indexOutOfRange)

/-- The place from the front that position `i` names on an axis of an array. -/
def locate (axis size : Nat) (i : Int) : Except (Fault α) Nat :=
  match resolve size i with
  | some k => .ok k
  | none => .error (.outOfBounds i axis size)

/-- The list with the entry at position `i` replaced. -/
def write (xs : List β) (i : Int) (x : β) : Except (Fault α) (List β) :=
  match resolve xs.length i with
  | some k => .ok (xs.set k x)
  | none => .error (outside i .assignmentOutOfRange)

end Position

end LinOpt
