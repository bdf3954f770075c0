import LinOpt.Scalar
import LinOpt.Fault
/-!
# Dense vectors and matrices

A vector is the list of its entries and a matrix the list of its rows. An entry that is absent reads as
zero. The number of columns is an argument where a matrix without rows would not show it.
-/

namespace LinOpt

/-- A matrix as the list of its rows. -/
abbrev Dense (α : Type) := List (List α)

variable {α : Type} [Scalar α]

/-- Entry `j` of a vector. -/
def entry (x : List α) (j : Nat) : α := x.getD j 0

/-- The vector of `n` zeros. -/
def zeros (n : Nat) : List α := List.replicate n 0

/-- The inner product, summed from the left. -/
def dot (x y : List α) : α := (List.zipWith (· * ·) x y).foldl (· + ·) 0

/-- The inner product of vectors that must have one length. -/
def dotAligned (x y : List α) : Except (Fault α) α :=
  if x.length = y.length then .ok (dot x y) else .error (.notAligned x.length y.length)

/-- The entries of `x` at the given places. -/
def pick (x : List α) (places : List Nat) : List α := places.map (entry x)

/-- The vector `x` with each listed place overwritten by its value, in order. -/
def scatter (x : List α) (entries : List (Nat × α)) : List α :=
  entries.foldl (fun acc (k, v) => acc.set k v) x

/-- `x - factor * y`, entry by entry. -/
def subScaled (x : List α) (factor : α) (y : List α) : List α :=
  List.zipWith (fun a b => a - factor * b) x y

namespace Dense

/-- Column `j`. -/
def column (A : Dense α) (j : Nat) : List α := A.map (entry · j)

/-- The columns at the given places, as a matrix. -/
def columns (A : Dense α) (places : List Nat) : Dense α := A.map (pick · places)

/-- The rows and columns of a matrix of `n` columns exchanged. -/
def transpose (n : Nat) (A : Dense α) : Dense α := (List.range n).map (column A)

/-- The product of a matrix and a vector. -/
def mulVec (A : Dense α) (x : List α) : List α := A.map (dot · x)

/-- The product of a vector and a matrix of `n` columns. -/
def vecMul (n : Nat) (y : List α) (A : Dense α) : List α :=
  (List.range n).map fun j => dot y (column A j)

/-- The product of two matrices, the second of `n` columns. -/
def mul (n : Nat) (A B : Dense α) : Dense α := A.map (vecMul n · B)

/-- The identity matrix. -/
def identity (n : Nat) : Dense α :=
  (List.range n).map fun i => (List.range n).map fun j => if i = j then 1 else 0

end Dense

end LinOpt
