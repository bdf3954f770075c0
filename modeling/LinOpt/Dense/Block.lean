import LinOpt.Dense.Inverse
import LinOpt.Dense.Nested
/-!
# Blocks of numbers of any rank

A `Block` is a rectangular array of any number of axes: its shape, and its entries with the last axis
running fastest. The operations on it check the shapes before they compute.
-/

namespace LinOpt

/-- A rectangular array of any rank. -/
structure Block (α : Type) where
  /-- The length of each axis. -/
  shape : List Nat
  /-- The entries, the last axis running fastest. -/
  entries : List α
  deriving Repr, DecidableEq

namespace Block

variable {α : Type}

/-- The block of nested lists that are rectangular. -/
def ofNested (nested : Nested α) : Except (Fault α) (Block α) :=
  let survey := nested.survey 0 { rank := Survey.rankLimit }
  if !survey.ragged then .ok ⟨survey.shape, nested.leaves⟩
  else if survey.rank = Survey.rankLimit then .error (.tooDeep Survey.rankLimit)
  else .error (.ragged survey.shape)

/-- A list cut into `count` pieces of `size` entries. -/
def pieces (count size : Nat) (xs : List α) : List (List α) :=
  (List.range count).map fun i => (xs.drop (i * size)).take size

/-- The entries as nested lists. -/
def toNested : List Nat → List α → Nested α
  | [], xs => match xs with
    | x :: _ => .leaf x
    | [] => .node []
  | n :: more, xs =>
    .node ((pieces n (more.foldl (· * ·) 1) xs).map (toNested more))

/-- The rows of a block of rank two. -/
def rows (rowCount columnCount : Nat) (block : Block α) : Dense α :=
  pieces rowCount columnCount block.entries

/-- The block of a matrix of `n` columns. -/
def ofRows (n : Nat) (A : Dense α) : Block α := ⟨[A.length, n], A.flatten⟩

/-- Every index tuple of a shape, the last axis running fastest. -/
def indices : List Nat → List (List Nat)
  | [] => [[]]
  | n :: more => (List.range n).flatMap fun i => (indices more).map (i :: ·)

/-- The place of an index tuple among the entries. -/
def place : List Nat → List Nat → Nat
  | _ :: more, i :: is => i * more.foldl (· * ·) 1 + place more is
  | _, _ => 0

variable [Scalar α]

/-- The block with its axes in reverse order. -/
def transpose (block : Block α) : Block α :=
  ⟨block.shape.reverse,
    (indices block.shape.reverse).map fun is => entry block.entries (place block.shape is.reverse)⟩

/-- The inverse of a square matrix. -/
def inverse (block : Block α) : Except (Fault α) (Block α) :=
  match block.shape with
  | [m, n] =>
    if m = n then (Dense.inverse (block.rows m n)).map (ofRows n)
    else .error (.notSquare block.shape)
  | shape => .error (.notSquare shape)

/-- The identity matrix. -/
def identity (n : Int) : Except (Fault α) (Block α) :=
  if n < 0 then .error .negativeSize else .ok (ofRows n.toNat (Dense.identity n.toNat))

/-! ## Products

A block of rank above two is a stack of matrices, one for each index of its leading axes. Two stacks are
multiplied matrix by matrix; an axis of length one, or one that is absent, is repeated as often as the other
stack needs. -/

/-- The common length of two axes, if they fit. -/
def joinAxis (m n : Nat) : Option Nat :=
  if m = n then some m else if m = 1 then some n else if n = 1 then some m else none

/-- The common leading axes of two stacks, the last axis first. -/
def joinAxes : List Nat → List Nat → Option (List Nat)
  | [], axes => some axes
  | axes, [] => some axes
  | m :: ms, n :: ns => do return (← joinAxis m n) :: (← joinAxes ms ns)

/-- The entries of the matrix that a stack with these leading axes has at an index of the common ones;
each matrix has `size` entries. -/
def slice (stack : Block α) (leading : List Nat) (size : Nat) (index : List Nat) : List α :=
  let own := List.zipWith (fun n i => if n = 1 then 0 else i) leading
    (index.drop (index.length - leading.length))
  (stack.entries.drop (place leading own * size)).take size

/-- The product of a stack of matrices with another one, or of each matrix with one vector. -/
def product (A B : Block α) : Except (Fault α) (Block α) :=
  match A.shape.reverse, B.shape.reverse with
  | k :: n :: outer, [size] =>
    if k ≠ size then .error (.innerMismatch size k)
    else
      let leading := outer.reverse ++ [n]
      .ok ⟨leading, Dense.mulVec (pieces (leading.foldl (· * ·) 1) k A.entries) B.entries⟩
  | k :: n :: outerA, m :: size :: outerB =>
    if k ≠ size then .error (.innerMismatch size k)
    else match joinAxes outerA outerB with
      | none => .error (.stackMismatch A.shape B.shape)
      | some axes =>
        let leading := axes.reverse
        .ok ⟨leading ++ [n, m], (indices leading).flatMap fun index =>
          (Dense.mul m (pieces n k (A.slice outerA.reverse (n * k) index))
            (pieces k m (B.slice outerB.reverse (k * m) index))).flatten⟩
  | _, _ => .error .missingAxis

/-- The product of a matrix and a vector. The second axis of the one must have the length of the other. -/
def mulVec (A x : Block α) : Except (Fault α) (Block α) :=
  match A.shape, x.shape with
  | _ :: n :: _, k :: _ => if n = k then A.product x else .error (.vectorMismatch A.shape k)
  | _, _ => .error .missingAxis

/-- The product of two matrices, or of a matrix and a vector. The second axis of the one must have the
length of the first axis of the other. -/
def mul (A B : Block α) : Except (Fault α) (Block α) :=
  match A.shape, B.shape with
  | _ :: n :: _, k :: _ => if n = k then A.product B else .error (.matrixMismatch A.shape B.shape)
  | _, _ => .error .missingAxis

end Block

end LinOpt
