import LinOpt.Dense.Basic
import LinOpt.Options
import LinOpt.Position
/-!
# The choice of a pivot

The entering column has a negative reduced cost, the leaving row the least ratio. Values that differ by
less than `tie` count as equal, and the first of them is kept.

The solvers use `chooseLeaving`, on columns, right-hand sides and bases of one length. `chooseLeavingWithin`
takes parts of any lengths and says where one is too short; `chooseLeavingWithin_eq` is the law that the two
agree where every row has its right-hand side and its basic column.
-/

namespace LinOpt

variable {α : Type} [Scalar α]

/-- How far a value may be from `v` and still tie with it. -/
def tie (v : α) : α := 1e-9 * Scalar.larger 1 (Scalar.abs v)

/-- The most negative reduced cost, the first of tied ones; under Bland's rule the first negative one. -/
def chooseEntering (reduced : List α) (tol : α) (rule : PivotRule) : Option Nat :=
  match reduced.zipIdx.filter fun (value, _) => decide (value < -tol) with
  | [] => none
  | first :: more =>
    match rule with
    | .bland => some first.2
    | .dantzig =>
      let best := more.foldl
        (fun (best : α × Nat) candidate => if candidate.1 < best.1 - tie best.1 then candidate else best)
        first
      some best.2

/-- The row with the least ratio so far, and that ratio. -/
abbrev RatioBest (α : Type) := Option (Nat × α)

/-- Shows row `i`, of column entry `value` and right-hand side `rhs`, to the ratio test. -/
def ratioStep (basis : List Nat) (tol : α) (rule : PivotRule) (best : RatioBest α) (i : Nat)
    (value rhs : α) : RatioBest α :=
  if value ≤ tol then best
  else
    let ratio := rhs / value
    match best with
    | none => some (i, ratio)
    | some (row, least) =>
      if ratio < least - tie least then some (i, ratio)
      else if rule = .bland ∧ Scalar.abs (ratio - least) ≤ tie least ∧ basis.getD i 0 < basis.getD row 0 then
        some (i, ratio)
      else best

/-- The row with the least ratio over entries above `tol`, the first of tied ones; under Bland's rule the
one of the lowest basic column. -/
def chooseLeaving (column rhs : List α) (basis : List Nat) (tol : α) (rule : PivotRule) : Option Nat :=
  (column.zipIdx.foldl
    (fun best (value, i) => ratioStep basis tol rule best i value (entry rhs i)) none).map (·.1)

/-- Shows row `i`, of column entry `value`, to the ratio test. The right-hand side is read when the entry is
above `tol`, the basis when two ratios tie under Bland's rule. -/
def ratioStepWithin (rhs : List α) (basis : List Int) (tol : α) (rule : PivotRule) (best : RatioBest α)
    (value : α) (i : Nat) : Except (Fault α) (RatioBest α) :=
  if value ≤ tol then .ok best
  else
    match rhs[i]? with
    | none => .error (.outOfBounds i 0 rhs.length)
    | some r =>
      let ratio := r / value
      match best with
      | none => .ok (some (i, ratio))
      | some (row, least) =>
        if ratio < least - tie least then .ok (some (i, ratio))
        else if rule = .bland ∧ Scalar.abs (ratio - least) ≤ tie least then
          match basis[i]?, basis[row]? with
          | some own, some held => .ok (if own < held then some (i, ratio) else best)
          | _, _ => .error .indexOutOfRange
        else .ok best

/-- The row that `chooseLeaving` chooses, for parts that need not have one length. -/
def chooseLeavingWithin (column rhs : List α) (basis : List Int) (tol : α) (rule : PivotRule) :
    Except (Fault α) (Option Nat) := do
  let best ← column.zipIdx.foldlM
    (fun best (value, i) => ratioStepWithin rhs basis tol rule best value i) none
  return best.map (·.1)

/-- The place of the most negative value below `-tol`, the first of equal ones. -/
def mostNegative (values : List α) (tol : α) : Option Nat :=
  (values.zipIdx.foldl
    (fun (best : Option (α × Nat)) candidate =>
      if candidate.1 < -tol ∧ best.all (fun b => decide (candidate.1 < b.1)) then some candidate else best)
    none).map (·.2)

/-- Where the row and the best one so far are within the parts, the two ratio tests take the same step. -/
theorem ratioStepWithin_eq (rhs : List α) (basis : List Nat) (tol : α) (rule : PivotRule)
    (best : RatioBest α) (value : α) (i : Nat) (hr : i < rhs.length) (hb : i < basis.length)
    (hbest : ∀ row least, best = some (row, least) → row < basis.length) :
    ratioStepWithin rhs (basis.map Int.ofNat) tol rule best value i =
      .ok (ratioStep basis tol rule best i value (entry rhs i)) := by
  unfold ratioStepWithin ratioStep
  have hrhs : rhs[i]? = some (entry rhs i) := by
    simp [entry, hr]
  rw [hrhs]
  split
  · rfl
  · cases best with
    | none => rfl
    | some held =>
      obtain ⟨row, least⟩ := held
      have hrow : row < basis.length := hbest row least rfl
      simp only [List.getElem?_map, List.getElem?_eq_getElem hb, List.getElem?_eq_getElem hrow,
        Option.map_some, List.getD_eq_getElem?_getD, Option.getD_some, Int.ofNat_eq_natCast,
        Int.ofNat_lt]
      split
      · rfl
      · by_cases tied : rule = .bland ∧ Scalar.abs (entry rhs i / value - least) ≤ tie least
        · by_cases lower : basis[i] < basis[row]
          · simp [tied, lower]
          · simp [tied, lower]
        · rw [if_neg tied, if_neg (fun h => tied ⟨h.1, h.2.1⟩)]

/-- A step of the ratio test keeps the best row among the rows of the basis. -/
theorem ratioStep_lt (basis : List Nat) (tol : α) (rule : PivotRule) (best : RatioBest α) (i : Nat)
    (value r : α) (hb : i < basis.length)
    (hbest : ∀ row least, best = some (row, least) → row < basis.length) :
    ∀ row least, ratioStep basis tol rule best i value r = some (row, least) → row < basis.length := by
  intro row least h
  unfold ratioStep at h
  split at h
  · exact hbest row least h
  · split at h
    · cases h
      exact hb
    · dsimp only at h
      split at h
      · cases h
        exact hb
      · split at h
        · cases h
          exact hb
        · exact hbest row least h

/-- **The two ratio tests agree where every row has its right-hand side and its basic column.** -/
theorem chooseLeavingWithin_eq (column rhs : List α) (basis : List Nat) (tol : α) (rule : PivotRule)
    (hr : column.length ≤ rhs.length) (hb : column.length ≤ basis.length) :
    chooseLeavingWithin column rhs (basis.map Int.ofNat) tol rule =
      .ok (chooseLeaving column rhs basis tol rule) := by
  have run : ∀ (rows : List (α × Nat)) (best : RatioBest α),
      (∀ row ∈ rows, row.2 < column.length) →
      (∀ row least, best = some (row, least) → row < basis.length) →
      rows.foldlM (fun best (value, i) => ratioStepWithin rhs (basis.map Int.ofNat) tol rule best value i)
          best =
        (.ok (rows.foldl (fun best (value, i) => ratioStep basis tol rule best i value (entry rhs i)) best) :
          Except (Fault α) (RatioBest α)) := by
    intro rows
    induction rows with
    | nil => intro best _ _; rfl
    | cons head rows ih =>
      intro best hrows hbest
      obtain ⟨value, i⟩ := head
      have hi : i < column.length := hrows (value, i) (by simp)
      rw [List.foldlM_cons, List.foldl_cons]
      dsimp only
      rw [ratioStepWithin_eq rhs basis tol rule best value i (by omega) (by omega) hbest]
      exact ih _ (fun row h => hrows row (by simp [h]))
        (ratioStep_lt basis tol rule best i value _ (by omega) hbest)
  have hrows : ∀ row ∈ column.zipIdx, row.2 < column.length := by
    intro row h
    exact (List.mem_zipIdx' h).1
  unfold chooseLeavingWithin chooseLeaving
  rw [run _ none hrows (by simp)]
  rfl

end LinOpt
