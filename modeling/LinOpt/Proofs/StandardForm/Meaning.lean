import LinOpt.Proofs.StandardForm.Equations
/-!
# What a standard form means

A vector over the columns *represents* a point of the model when it is nonnegative, meets the
equations, leaves the artificial columns at zero and has the point as its component sums. The
standard form means the same as the model: every point that is represented is feasible
(`feasible_of_represents`), and every feasible point is represented (`represents_lift`), by a vector
whose total is the extent of the point (`sum_lift`). The objective of the two is the same
(`dot_costs_of_represents`). `feasible_iff_represented` puts the three together for the form that
`StandardForm.build` answers with.

A vector may also meet the rows with other right-hand sides (`Model.MeetsAt`). Its point then meets the
model with these, up to what the vector is below zero and what it has in the artificial columns
(`feasibleWithin_of_meetsAt`); a solution of the equations is the case without a change.
-/

namespace LinOpt

open Finset

/-- **The vector stands for the point.** -/
structure StandardForm.Represents (form : StandardForm ℚ) (x p : List ℚ) : Prop where
  length_eq : x.length = form.width
  nonneg : ∀ a ∈ x, 0 ≤ a
  equations : form.rows.mulVec x = form.rhs
  artificials : ∀ k ∈ form.artificials, entry x k = 0
  components : componentSums form.components x = p

variable {opts : Options ℚ} {model : Model ℚ} {x p : List ℚ}

theorem StandardForm.Represents.artificialTotal_eq {form : StandardForm ℚ}
    (h : form.Represents x p) :
    form.artificialTotal x = 0 := by
  refine List.sum_eq_zero fun a ha => ?_
  obtain ⟨k, hk, rfl⟩ := List.mem_map.mp ha
  exact h.artificials k hk

/-! ## From a vector to its point -/

/-- The value of the artificial column of a row, where it has one. -/
def PlacedRow.artificialValue (r : PlacedRow ℚ) (x : List ℚ) : ℚ :=
  (r.artificial.map (entry x)).getD 0

/-- **What a row misses its relation by**: no more than its artificial value and what its own columns
are below zero. -/
theorem PlacedRow.holdsWithin_of_sum {r : PlacedRow ℚ} {low high rhs : ℚ}
    (hsum : valueAt r.row.entries x + valueAt r.ownEntries x = rhs)
    (hlow : ∀ k, -low ≤ entry x k) (hhigh : r.artificialValue x ≤ high) (hzero : 0 ≤ low)
    (hzero' : 0 ≤ high) :
    r.row.sign.HoldsWithin (low + high) (valueAt r.row.entries x) rhs := by
  have hfirst := hlow r.first
  have hnext := hlow (r.first + 1)
  unfold PlacedRow.artificialValue PlacedRow.artificial at hhigh
  unfold PlacedRow.ownEntries at hsum
  cases hsign : r.row.sign <;> simp only [hsign, valueAt_cons, valueAt_nil] at hsum <;>
    simp only [hsign, Option.map_some, Option.map_none, Option.getD_some,
      Option.getD_none] at hhigh <;>
    simp only [Relation.HoldsWithin]
  case le => linarith
  case ge => linarith
  all_goals
    rw [abs_le]
    constructor <;> linarith

/-- The parts of a variable make its kind hold, an upper bound apart. -/
theorem Kind.admitsWithin_valueAt_parts {kind : Kind} {first : ℕ} {low : ℚ}
    (hlow : ∀ k, -low ≤ entry x k)
    (hupper : kind = .bin → valueAt (kind.parts first) x ≤ 1 + low) :
    kind.AdmitsWithin low (valueAt (kind.parts first) x) := by
  have hfirst := hlow first
  cases kind <;>
    simp only [Kind.AdmitsWithin, Kind.parts, valueAt_cons, valueAt_nil] at hupper ⊢
  case bin => exact ⟨by linarith, hupper trivial⟩
  all_goals linarith

namespace Model

theorem exists_boundRow {j : ℕ} (hbin : model.kinds.getD j .free = .bin) :
    ∃ name, model.boundRow? j = some ⟨name, (zeros model.variableCount).set j 1, .le, 1, .bound⟩ :=
  ⟨_, if_pos hbin⟩

/-- A binary variable is bounded by a stated row, behind those of the model. -/
theorem exists_bound_of_bin {j : ℕ} (hj : j < model.variableCount)
    (hbin : model.kinds.getD j .free = .bin) :
    ∃ i, ∃ hi : i < model.statedRows.length, model.rowCount ≤ i ∧
      model.statedRows[i].coefficients = (zeros model.variableCount).set j 1 ∧
      model.statedRows[i].sign = .le ∧ model.statedRows[i].rhs = 1 := by
  obtain ⟨name, hsome⟩ := exists_boundRow hbin
  obtain ⟨t, ht, hget⟩ := List.getElem_of_mem
    (List.mem_filterMap.mpr ⟨j, List.mem_range.mpr hj, hsome⟩)
  have hlength : ((List.range model.rowCount).map model.statedRow).length = model.rowCount := by
    simp
  refine ⟨model.rowCount + t, ?_, Nat.le_add_right _ _, ?_⟩
  · rw [statedRows, List.length_append, hlength]
    exact Nat.add_lt_add_left ht _
  · simp only [statedRows, List.getElem_append_right, hlength, Nat.le_add_right,
      Nat.add_sub_cancel_left, hget]
    exact ⟨trivial, trivial, trivial⟩

theorem solves_of_represents (h : (model.standardForm opts).Represents x p) :
    (penalised opts model).Solves x := h.equations

theorem components_getD (hsized : model.Sized) {j : ℕ} (hj : j < model.variableCount) :
    model.components.getD j [] = (model.kinds.getD j .free).parts (firstColumn model.kinds j) := by
  rw [components, componentsFrom_getD (by rw [hsized.kinds]; exact hj), zero_add]

/-- The model with other right-hand sides. -/
def withRhs (model : Model ℚ) (rhs : List ℚ) : Model ℚ := { model with rhs }

/-- **The vector meets the placed rows with these right-hand sides** in place of the model's: each
moves as its row is turned, and the bounds of binary variables stay. -/
def MeetsAt (model : Model ℚ) (rhs x : List ℚ) : Prop :=
  ∀ r ∈ model.placedRows, valueAt r.row.entries x + valueAt r.ownEntries x =
    r.row.rhs + turn r.row.flipped (entry rhs r.index - entry model.rhs r.index)

theorem meetsAt_rhs_iff : model.MeetsAt model.rhs x ↔ (penalised opts model).Solves x := by
  simp only [MeetsAt, sub_self, turn_zero, add_zero]
  exact (solves_equations_iff opts _).symm

section Within

variable {low high : ℚ} {rhs : List ℚ} (hmeets : model.MeetsAt rhs x)
  (hlow : ∀ k, -low ≤ entry x k) (hzero : 0 ≤ low)
  (hhigh : ∀ k ∈ (model.standardForm opts).artificials, entry x k ≤ high) (hzero' : 0 ≤ high)

include hmeets hlow hzero hhigh hzero'

/-- Such a vector makes every stated row hold at its component sums, with the right-hand side moved,
up to what it is below zero and what is left in the artificial column of the row. -/
theorem exists_holdsWithin {i : ℕ} (hi : i < model.statedRows.length) :
    ∃ tol ≤ high, (model.statedRows[i].sign = .le → 0 ≤ model.statedRows[i].rhs → tol = 0) ∧
      model.statedRows[i].sign.HoldsWithin (low + tol)
        (dot model.statedRows[i].coefficients (componentSums model.components x))
        (model.statedRows[i].rhs + (entry rhs i - entry model.rhs i)) := by
  obtain ⟨r, hr, rfl, heq⟩ := exists_placed hi
  refine ⟨max 0 (r.artificialValue x), max_le hzero' ?_, fun hsign hrhs => ?_, ?_⟩
  · unfold PlacedRow.artificialValue
    cases hartificial : r.artificial with
    | none => exact hzero'
    | some k => exact hhigh k (List.mem_filterMap.mpr ⟨r, hr, hartificial⟩)
  · have hle : r.row.sign = .le := by rw [heq, StatedRow.sign_oriented_of_le _ _ hsign hrhs]
    simp [PlacedRow.artificialValue, PlacedRow.artificial, hle]
  · have hwithin := r.holdsWithin_of_sum (hmeets r hr) hlow (le_max_right 0 _) hzero
      (le_max_left 0 _)
    rwa [heq, StatedRow.holdsWithin_oriented_add_iff] at hwithin

variable (hlength : rhs.length = model.rowCount)

include hlength

/-- The bound of a binary variable is a row without an artificial column, and it is not moved. -/
theorem le_one_of_bin {j : ℕ} (hj : j < model.variableCount)
    (hbin : model.kinds.getD j .free = .bin) :
    entry (componentSums model.components x) j ≤ 1 + low := by
  obtain ⟨i, hi, hbehind, hcoefficients, hsign, hrhs⟩ := exists_bound_of_bin hj hbin
  obtain ⟨tol, -, htol, hwithin⟩ := exists_holdsWithin hmeets hlow hzero hhigh hzero' hi
  rw [htol hsign (by rw [hrhs]; norm_num), add_zero, hsign, hcoefficients, hrhs,
    entry_of_length_le (le_of_eq_of_le hlength hbehind), entry_of_length_le hbehind, sub_self,
    add_zero, Relation.HoldsWithin, dot_unit hj] at hwithin
  exact hwithin

/-- **The component sums of such a vector meet the model with these right-hand sides**, up to what
the vector is below zero and, in the rows, what is left in the artificial columns. -/
theorem feasibleWithin_of_meetsAt (hvalid : model.Valid) :
    (model.withRhs rhs).FeasibleWithin low (fun _ => low + high)
      (componentSums model.components x) where
  length_eq := by
    rw [length_componentSums]
    exact StandardForm.length_components hvalid.sized
  rows := by
    intro i hi
    have hi' : i < model.rowCount := hlength ▸ hi
    have hrow := lt_length_statedRows hi'
    obtain ⟨tol, hle, -, hwithin⟩ := exists_holdsWithin hmeets hlow hzero hhigh hzero' hrow
    rw [statedRows_getElem hi' hrow, statedRow, add_sub_cancel] at hwithin
    exact hwithin.mono (add_le_add_right hle low)
  kinds := by
    intro j hj
    have hbound := le_one_of_bin hmeets hlow hzero hhigh hzero' hlength hj
    have hvalue : entry (componentSums model.components x) j =
        valueAt ((model.kinds.getD j .free).parts (firstColumn model.kinds j)) x := by
      rw [entry_componentSums, components_getD hvalid.sized hj]
    rw [hvalue] at hbound ⊢
    exact Kind.admitsWithin_valueAt_parts hlow hbound

end Within

/-- **The component sums of a solution meet the model**, up to what the solution is below zero and, in
the rows, what is left in the artificial columns. -/
theorem feasibleWithin_of_solves {low high : ℚ} (hsolves : (penalised opts model).Solves x)
    (hlow : ∀ k, -low ≤ entry x k) (hzero : 0 ≤ low)
    (hhigh : ∀ k ∈ (model.standardForm opts).artificials, entry x k ≤ high) (hzero' : 0 ≤ high)
    (hvalid : model.Valid) :
    model.FeasibleWithin low (fun _ => low + high) (componentSums model.components x) :=
  feasibleWithin_of_meetsAt (meetsAt_rhs_iff.mpr hsolves) hlow hzero hhigh hzero' rfl hvalid

/-- An artificial column is part of the artificial total. -/
theorem entry_le_artificialTotal (hnonneg : ∀ k, 0 ≤ entry x k) {k : ℕ}
    (hk : k ∈ (model.standardForm opts).artificials) :
    entry x k ≤ (model.standardForm opts).artificialTotal x := by
  refine List.single_le_sum (fun a ha => ?_) _ (List.mem_map_of_mem hk)
  obtain ⟨l, -, rfl⟩ := List.mem_map.mp ha
  exact hnonneg l

/-- **The component sums of a solution that is not negative are nearly feasible**, up to its
artificial total. -/
theorem nearlyFeasible_of_solves (hvalid : model.Valid) (hsolves : (penalised opts model).Solves x)
    (hnonneg : ∀ k, 0 ≤ entry x k) :
    model.NearlyFeasible ((model.standardForm opts).artificialTotal x)
      (componentSums model.components x) := by
  have htotal : 0 ≤ (model.standardForm opts).artificialTotal x :=
    StandardForm.artificialTotal_nonneg hnonneg
  have hwithin := feasibleWithin_of_solves hsolves (by simpa using hnonneg) (le_refl 0)
    (fun k hk => entry_le_artificialTotal hnonneg hk) htotal hvalid
  rw [nearlyFeasible_iff]
  simpa using hwithin

/-- **A point that is represented is feasible.** -/
theorem feasible_of_represents (hvalid : model.Valid)
    (h : (model.standardForm opts).Represents x p) :
    model.Feasible p := by
  have hnearly := nearlyFeasible_of_solves hvalid (solves_of_represents h) (entry_nonneg h.nonneg)
  have hpoint : componentSums model.components x = p := h.components
  rwa [h.artificialTotal_eq, hpoint, nearlyFeasible_zero] at hnearly

/-- **A vector costs what its point does**, penalties included. -/
theorem dot_costs_of_represents (h : (model.standardForm opts).Represents x p) :
    dot (model.standardForm opts).costs x = model.gain p := by
  rw [dot_costs, dot_objective, h.components, h.artificialTotal_eq, mul_zero, sub_zero]

end Model

/-! ## From a point to a vector -/

/-- The columns of a variable of this kind at a value. -/
def Kind.block (v : ℚ) : Kind → List ℚ
  | .free => [max v 0, max (-v) 0]
  | .nonpos => [-v]
  | _ => [v]

namespace Kind

variable {kind : Kind} {v : ℚ}

@[simp] theorem length_block (kind : Kind) (v : ℚ) : (kind.block v).length = kind.width := by
  cases kind <;> rfl

theorem nonneg_of_mem_block (h : kind.Admits v) {a : ℚ} (ha : a ∈ kind.block v) : 0 ≤ a := by
  cases kind <;> simp only [block, List.mem_cons, List.not_mem_nil, or_false] at ha <;>
    simp only [Admits] at h
  case free => rcases ha with rfl | rfl <;> exact le_max_right _ _
  case nonpos => linarith
  case bin => exact ha ▸ h.1
  all_goals exact ha ▸ h

theorem sum_block (h : kind.Admits v) : (kind.block v).sum = |v| := by
  cases kind <;> simp only [Admits] at h <;>
    simp only [block, List.sum_cons, List.sum_nil, add_zero]
  case free =>
    rcases le_total 0 v with hv | hv
    · rw [max_eq_left hv, max_eq_right (by linarith), abs_of_nonneg hv, add_zero]
    · rw [max_eq_right hv, max_eq_left (by linarith), abs_of_nonpos hv, zero_add]
  case nonpos => rw [abs_of_nonpos h]
  case bin => rw [abs_of_nonneg h.1]
  all_goals rw [abs_of_nonneg h]

/-- The parts of a variable at its block add up to the value. -/
theorem valueAt_parts_eq {first : ℕ}
    (h : ∀ t < kind.width, entry x (first + t) = entry (kind.block v) t) :
    valueAt (kind.parts first) x = v := by
  cases kind <;> simp only [width, block] at h <;> simp only [parts, valueAt_cons, valueAt_nil]
  case free =>
    have h0 := h 0 (by omega)
    have h1 := h 1 (by omega)
    simp only [Nat.add_zero, entry_cons_zero, entry_cons_succ] at h0 h1
    rw [h0, h1]
    rcases le_total 0 v with hv | hv
    · rw [max_eq_left hv, max_eq_right (by linarith)]
      ring
    · rw [max_eq_right hv, max_eq_left (by linarith)]
      ring
  all_goals
    have h0 := h 0 (by omega)
    simp only [Nat.add_zero, entry_cons_zero] at h0
    rw [h0]
    ring

end Kind

namespace PlacedRow

variable {r : PlacedRow ℚ} {v : ℚ}

/-- The own columns of a row whose entries are worth `v`. -/
def block (r : PlacedRow ℚ) (v : ℚ) : List ℚ :=
  match r.row.sign with
  | .le => [r.row.rhs - v]
  | .ge => [v - r.row.rhs, 0]
  | _ => [0]

@[simp] theorem length_block (r : PlacedRow ℚ) (v : ℚ) :
    (r.block v).length = r.row.sign.ownWidth := by
  unfold block Relation.ownWidth
  cases r.row.sign <;> rfl

theorem nonneg_of_mem_block (h : r.row.sign.Holds v r.row.rhs) {a : ℚ} (ha : a ∈ r.block v) :
    0 ≤ a := by
  unfold block at ha
  cases hsign : r.row.sign <;>
    simp only [hsign, List.mem_cons, List.not_mem_nil, or_false] at ha <;>
    simp only [hsign, Relation.Holds] at h
  case le => linarith
  case ge =>
    rcases ha with rfl | rfl
    · linarith
    · exact le_refl _
  all_goals exact le_of_eq ha.symm

theorem sum_block (h : r.row.sign.Holds v r.row.rhs) : (r.block v).sum = |v - r.row.rhs| := by
  unfold block
  cases hsign : r.row.sign <;> simp only [hsign, Relation.Holds] at h <;>
    simp only [List.sum_cons, List.sum_nil, add_zero]
  case le => rw [abs_of_nonpos (by linarith), neg_sub]
  case ge => rw [abs_of_nonneg (by linarith)]
  all_goals rw [h, sub_self, abs_zero]

/-- The own columns at their block close the equation of the row. -/
theorem add_valueAt_ownEntries (h : r.row.sign.Holds v r.row.rhs)
    (hx : ∀ t < r.row.sign.ownWidth, entry x (r.first + t) = entry (r.block v) t) :
    v + valueAt r.ownEntries x = r.row.rhs := by
  unfold block at hx
  unfold ownEntries
  cases hsign : r.row.sign <;> simp only [hsign, Relation.ownWidth, Relation.Holds] at h hx <;>
    simp only [valueAt_cons, valueAt_nil]
  case ge =>
    have h0 := hx 0 (by omega)
    have h1 := hx 1 (by omega)
    simp only [Nat.add_zero, entry_cons_zero, entry_cons_succ] at h0 h1
    rw [h0, h1]
    ring
  all_goals
    have h0 := hx 0 (by omega)
    simp only [Nat.add_zero, entry_cons_zero] at h0
    rw [h0]
    linarith

/-- The artificial column is zero in the block. -/
theorem entry_artificial {k : ℕ} (hk : r.artificial = some k)
    (hx : ∀ t < r.row.sign.ownWidth, entry x (r.first + t) = entry (r.block v) t) :
    entry x k = 0 := by
  unfold block at hx
  unfold artificial at hk
  cases hsign : r.row.sign <;>
    simp only [hsign, Relation.ownWidth, Option.some.injEq, reduceCtorEq] at hk hx
  case ge => exact hk ▸ hx 1 (by omega)
  all_goals exact hk ▸ hx 0 (by omega)

end PlacedRow

namespace Model

/-- The structural columns of a point. -/
def structuralPart (model : Model ℚ) (p : List ℚ) : List ℚ :=
  (List.zipWith (fun kind v => Kind.block v kind) model.kinds p).flatten

/-- **The vector of a point**: each variable in its columns, and what is left of each row in its
own. -/
def lift (model : Model ℚ) (p : List ℚ) : List ℚ :=
  model.structuralPart p ++
    (model.placedRows.map fun r => r.block (valueAt r.row.entries (model.structuralPart p))).flatten

theorem map_length_blocks {kinds : List Kind} (h : p.length = kinds.length) :
    (List.zipWith (fun kind v => Kind.block v kind) kinds p).map List.length =
      kinds.map Kind.width := by
  rw [List.map_zipWith]
  simp only [Kind.length_block]
  refine List.ext_getElem (by simp [h]) fun j _ _ => ?_
  simp

theorem map_length_ownBlocks (f : PlacedRow ℚ → ℚ) :
    (model.placedRows.map fun r => r.block (f r)).map List.length = model.ownWidths := by
  rw [List.map_map]
  refine List.ext_getElem (by simp) fun i hi hi' => ?_
  have hrow : i < model.statedRows.length := by simpa using hi'
  simp only [List.getElem_map, Function.comp_apply, PlacedRow.length_block, ownWidths, orientedRows]
  rw [placedRows_getElem _ hrow]

variable (hsized : model.Sized) (hlen : p.length = model.variableCount)

include hsized hlen

theorem length_structuralPart : (model.structuralPart p).length = structuralWidth model.kinds := by
  rw [structuralPart, List.length_flatten, map_length_blocks (by rw [hlen, hsized.kinds])]
  rfl

theorem length_lift : (model.lift p).length = model.formWidth := by
  rw [lift, List.length_append, length_structuralPart hsized hlen, List.length_flatten,
    map_length_ownBlocks fun r => valueAt r.row.entries (model.structuralPart p)]
  rfl

/-- The columns of a variable hold its value. -/
theorem entry_lift_variable {j t : ℕ} (hj : j < model.variableCount)
    (ht : t < (model.kinds.getD j .free).width) :
    entry (model.lift p) (firstColumn model.kinds j + t) =
      entry ((model.kinds.getD j .free).block (entry p j)) t := by
  have hkinds : j < model.kinds.length := by rw [hsized.kinds]; exact hj
  have hpoint : j < p.length := by rw [hlen]; exact hj
  have hmap : (List.zipWith (fun kind v => Kind.block v kind) model.kinds p).map List.length =
      model.kinds.map Kind.width := map_length_blocks (by rw [hlen, hsized.kinds])
  have hblock : (List.zipWith (fun kind v => Kind.block v kind) model.kinds p).getD j [] =
      (model.kinds.getD j .free).block (entry p j) := by
    simp [entry, hkinds, hpoint]
  have hflat := entry_flatten (List.zipWith (fun kind v => Kind.block v kind) model.kinds p)
    (j := j) (t := t) (by simpa using ⟨hkinds, hpoint⟩)
    (by rw [hblock, Kind.length_block]; exact ht)
  rw [hmap, hblock] at hflat
  -- the columns of the variable end before the own columns start
  have hend : firstColumn model.kinds j + t < (model.structuralPart p).length := by
    rw [length_structuralPart hsized hlen]
    exact lt_of_lt_of_le (Nat.add_lt_add_left ht _) (firstColumn_add_le_structuralWidth hkinds)
  rw [lift, entry_append_left hend]
  exact hflat

/-- The own columns of a row hold what is left of it. -/
theorem entry_lift_own {r : PlacedRow ℚ} (hr : r ∈ model.placedRows) {t : ℕ}
    (ht : t < r.row.sign.ownWidth) :
    entry (model.lift p) (r.first + t) =
      entry (r.block (valueAt r.row.entries (model.structuralPart p))) t := by
  have hblock : (model.placedRows.map fun r => r.block (valueAt r.row.entries
      (model.structuralPart p))).getD r.index [] =
        r.block (valueAt r.row.entries (model.structuralPart p)) := by
    simp [placedRows_index hr]
  have hflat := entry_flatten (model.placedRows.map fun r => r.block (valueAt r.row.entries
    (model.structuralPart p))) (j := r.index) (t := t) (by simpa using index_lt hr)
    (by rw [hblock, PlacedRow.length_block]; exact ht)
  rw [map_length_ownBlocks fun r => valueAt r.row.entries (model.structuralPart p), hblock] at hflat
  obtain ⟨-, -, hfirst⟩ := exists_of_mem_placedRows hr
  have hlenS := length_structuralPart hsized hlen
  rw [lift, entry_append_right (by rw [hlenS, hfirst, ownColumn]; omega), hlenS, ← hflat, hfirst,
    ownColumn]
  congr 1
  omega

omit hsized hlen in
theorem valueAt_congr {es : List (ℕ × ℚ)} {y : List ℚ} (h : ∀ e ∈ es, entry x e.1 = entry y e.1) :
    valueAt es x = valueAt es y := by
  refine congrArg List.sum (List.map_congr_left fun e he => ?_)
  rw [h e he]

/-- A row reads the structural columns only. -/
theorem valueAt_lift {r : PlacedRow ℚ} (hr : r ∈ model.placedRows) :
    valueAt r.row.entries (model.lift p) = valueAt r.row.entries (model.structuralPart p) := by
  refine valueAt_congr fun e he => ?_
  rw [lift, entry_append_left]
  rw [length_structuralPart hsized hlen]
  exact key_lt_of_mem_entries hr he

/-- **The component sums of the vector of a point are the point.** -/
theorem componentSums_lift : componentSums model.components (model.lift p) = p := by
  have hcount := StandardForm.length_components hsized
  refine eq_of_entry_eq (by rw [length_componentSums, hcount, hlen]) fun j hj => ?_
  rw [length_componentSums, hcount] at hj
  rw [entry_componentSums, components_getD hsized hj]
  exact Kind.valueAt_parts_eq fun t ht => entry_lift_variable hsized hlen hj ht

omit hsized hlen

/-- Every stated row holds at a feasible point, the bounds of binary variables included. -/
theorem Feasible.holds (h : model.Feasible p) {row : StatedRow ℚ} (hrow : row ∈ model.statedRows) :
    row.sign.Holds (dot row.coefficients p) row.rhs := by
  rcases List.mem_append.mp hrow with hmodel | hbound
  · obtain ⟨i, hi, rfl⟩ := List.mem_map.mp hmodel
    exact h.rows i (List.mem_range.mp hi)
  · obtain ⟨j, hj, hsome⟩ := List.mem_filterMap.mp hbound
    have hj' := List.mem_range.mp hj
    unfold boundRow? at hsome
    split at hsome
    · rename_i hbin
      obtain rfl := Option.some.inj hsome
      have hkind := h.kinds j hj'
      rw [hbin] at hkind
      simp only [Relation.Holds, dot_unit hj']
      exact hkind.2
    · simp at hsome

/-- What a placed row is worth at the vector of a feasible point. -/
theorem Feasible.holds_placed (hvalid : model.Valid) (h : model.Feasible p) {r : PlacedRow ℚ}
    (hr : r ∈ model.placedRows) :
    r.row.sign.Holds (valueAt r.row.entries (model.structuralPart p)) r.row.rhs := by
  obtain ⟨hi, hrow, -⟩ := exists_of_mem_placedRows hr
  rw [← valueAt_lift hvalid.sized h.length_eq hr, hrow, StatedRow.holds_oriented_iff,
    componentSums_lift hvalid.sized h.length_eq]
  exact h.holds (List.getElem_mem hi)

theorem Feasible.nonneg_lift (hvalid : model.Valid) (h : model.Feasible p) {a : ℚ}
    (ha : a ∈ model.lift p) : 0 ≤ a := by
  rcases List.mem_append.mp ha with hstructural | hown
  · obtain ⟨block, hblock, hmem⟩ := List.mem_flatten.mp hstructural
    obtain ⟨j, hj, rfl⟩ := List.getElem_of_mem hblock
    have hjk : j < model.kinds.length := by simp at hj; omega
    have hjp : j < p.length := by simp at hj; omega
    rw [List.getElem_zipWith] at hmem
    have hkind := h.kinds j (h.length_eq ▸ hjp)
    simp only [entry_eq_getElem hjp, List.getD_eq_getElem?_getD, List.getElem?_eq_getElem hjk,
      Option.getD_some] at hkind
    exact Kind.nonneg_of_mem_block hkind hmem
  · obtain ⟨block, hblock, hmem⟩ := List.mem_flatten.mp hown
    obtain ⟨r, hr, rfl⟩ := List.mem_map.mp hblock
    exact PlacedRow.nonneg_of_mem_block (h.holds_placed hvalid hr) hmem

/-- **A feasible point is represented by its vector.** -/
theorem represents_lift (opts : Options ℚ) (hvalid : model.Valid) (h : model.Feasible p) :
    (model.standardForm opts).Represents (model.lift p) p where
  length_eq := by rw [width_standardForm, length_lift hvalid.sized h.length_eq]
  nonneg := fun _ ha => h.nonneg_lift hvalid ha
  equations := by
    refine (solves_equations_iff opts (length_costs_standardForm opts)).mpr fun r hr => ?_
    rw [valueAt_lift hvalid.sized h.length_eq hr]
    exact r.add_valueAt_ownEntries (h.holds_placed hvalid hr)
      fun t ht => entry_lift_own hvalid.sized h.length_eq hr ht
  artificials := by
    intro k hk
    obtain ⟨r, hr, hrk⟩ := exists_of_mem_artificials opts hk
    exact r.entry_artificial hrk fun t ht => entry_lift_own hvalid.sized h.length_eq hr ht
  components := componentSums_lift hvalid.sized h.length_eq

/-! ## The total of the vector of a point -/

theorem sum_map_range (n : ℕ) (f : ℕ → ℚ) : ((List.range n).map f).sum = ∑ j ∈ range n, f j := by
  rw [sum_eq_sum_entry (n := n) (by simp)]
  refine Finset.sum_congr rfl fun j hj => ?_
  rw [entry_range_map f (mem_range.mp hj)]

/-- A sum over the bounds of binary variables is a sum over binary variables. -/
theorem sum_filterMap_boundRow (places : List ℕ) (p : List ℚ)
    (hlt : ∀ j ∈ places, j < model.variableCount) :
    ((places.filterMap model.boundRow?).map fun row => |dot row.coefficients p - row.rhs|).sum =
      (places.map fun j => if model.kinds.getD j .free = .bin then |entry p j - 1| else 0).sum := by
  induction places with
  | nil => rfl
  | cons j places ih =>
    have hrest := ih fun k hk => hlt k (List.mem_cons_of_mem _ hk)
    rw [List.map_cons, List.sum_cons, ← hrest]
    by_cases hbin : model.kinds.getD j .free = .bin
    · obtain ⟨name, hsome⟩ := exists_boundRow hbin
      rw [List.filterMap_cons_some hsome, List.map_cons, List.sum_cons, if_pos hbin,
        dot_unit (hlt j (by simp))]
    · have hnone : model.boundRow? j = none := if_neg hbin
      rw [List.filterMap_cons_none hnone, if_neg hbin, zero_add]

/-- What is left of the stated rows at a point, in all. -/
theorem sum_statedRows (model : Model ℚ) (p : List ℚ) :
    (model.statedRows.map fun row => |dot row.coefficients p - row.rhs|).sum =
      (∑ i ∈ range model.rowCount, |dot (model.rows.rowAt i) p - entry model.rhs i|) +
        ∑ j ∈ (range model.variableCount).filter (model.kinds.getD · .free = .bin),
          |entry p j - 1| := by
  rw [statedRows, List.map_append, List.sum_append, List.map_map,
    sum_filterMap_boundRow _ _ (by simp),
    sum_map_range, sum_map_range, Finset.sum_filter]
  rfl

/-- **The vector of a feasible point has the extent of the point as its total.** -/
theorem sum_lift (hvalid : model.Valid) (h : model.Feasible p) :
    (model.lift p).sum = model.extent p := by
  have hvariables :
      (model.structuralPart p).sum = ∑ j ∈ range model.variableCount, |entry p j| := by
    rw [structuralPart, List.sum_flatten, sum_eq_sum_entry (n := model.variableCount)
      (by simp [hvalid.sized.kinds])]
    refine Finset.sum_congr rfl fun j hj => ?_
    have hj' := mem_range.mp hj
    have hjk : j < model.kinds.length := by rw [hvalid.sized.kinds]; exact hj'
    have hjp : j < p.length := by rw [h.length_eq]; exact hj'
    have hblock := Kind.sum_block (h.kinds j hj')
    rw [← hblock]
    simp [entry, hjk, hjp]
  -- what the own columns of a row hold is the distance of its sides, oriented or not
  have hrows : (model.placedRows.map fun r =>
      (r.block (valueAt r.row.entries (model.structuralPart p))).sum) =
        model.statedRows.map fun row => |dot row.coefficients p - row.rhs| := by
    refine List.ext_getElem (by simp) fun i hi hi' => ?_
    have hplaced : i < model.placedRows.length := by simpa using hi
    have hmem : model.placedRows[i] ∈ model.placedRows := List.getElem_mem hplaced
    rw [List.getElem_map, List.getElem_map, PlacedRow.sum_block (h.holds_placed hvalid hmem),
      ← valueAt_lift hvalid.sized h.length_eq hmem, placedRows_getElem _ (by simpa using hi'),
      StatedRow.abs_oriented, componentSums_lift hvalid.sized h.length_eq]
  rw [lift, List.sum_append, hvariables, List.sum_flatten, List.map_map]
  change _ + (model.placedRows.map fun r =>
    (r.block (valueAt r.row.entries (model.structuralPart p))).sum).sum = _
  rw [hrows, sum_statedRows, extent, add_assoc]

/-! ## Model and standard form -/

/-- **The standard form of a valid model means the model**: its points are the feasible ones, and a
vector costs what its point gains. -/
theorem feasible_iff_represented (opts : Options ℚ) (hvalid : model.Valid) :
    ∃ form, StandardForm.build opts model = .ok form ∧
      (∀ p, model.Feasible p ↔ ∃ x, form.Represents x p) ∧
      ∀ x p, form.Represents x p → dot form.costs x = model.sense.factor * dot model.costs p := by
  refine ⟨model.standardForm opts, StandardForm.build_eq opts hvalid, fun p => ⟨?_, ?_⟩, ?_⟩
  · intro hp
    exact ⟨model.lift p, represents_lift opts hvalid hp⟩
  · rintro ⟨x, hx⟩
    exact feasible_of_represents hvalid hx
  · intro x p hx
    exact dot_costs_of_represents hx

/-- The point `(1, 3)` of `mixedModel`, with a flipped row and a free variable, as a vector. -/
theorem feasible_iff_represented_mixedModel :
    mixedModel.Valid ∧ mixedModel.Feasible [1, 3] ∧
      ∃ form x, StandardForm.build {} mixedModel = .ok form ∧ form.Represents x [1, 3] ∧
        dot form.costs x = mixedModel.sense.factor * dot mixedModel.costs [1, 3] := by
  have hvalid : mixedModel.Valid := by decide
  have hfeasible : mixedModel.Feasible [1, 3] := by decide +kernel
  obtain ⟨form, hbuild, hpoints, hcosts⟩ := feasible_iff_represented {} hvalid
  obtain ⟨x, hx⟩ := (hpoints [1, 3]).mp hfeasible
  exact ⟨hvalid, hfeasible, form, x, hbuild, hx, hcosts x [1, 3] hx⟩

end Model

end LinOpt
