import LinOpt.Analysis.NewConstraint
import LinOpt.Proofs.Extension
import LinOpt.Proofs.Tableau.AddedRow
import LinOpt.Proofs.Tableau.DualSimplex
/-!
# Rows added to the tableau of a model

A constraint joins a tableau as one row with a slack, or as two for an equation. The tableau stays
canonical, for the system with those rows (`Canonical.exists_addEntries`). A point of the model that
meets the constraint is a solution of that system: its vector, with the slacks behind it
(`Model.solves_liftWith`). The total of the solution is the extent of the point in the model with the
constraint (`Model.sum_liftWith`), and its cost is the gain of the point.

So whatever the dual simplex method does to the tableau, its objective row bounds the gain of every
such point (`Canonical.gain_le_of_withCuts`), and a row that it calls blocked bounds their extent
(`Canonical.neg_rhs_le_extent`).
-/

namespace LinOpt

open Finset

/-! ## Products of longer vectors -/

/-- One more entry in front meets the entry behind. -/
theorem dot_concat (x y : List ℚ) (a : ℚ) :
    dot (x ++ [a]) y = dot x y + a * entry y x.length := by
  rw [dot_eq_sum (n := x.length + 1) (by simp), dot_eq_sum (n := x.length) (le_refl _),
    Finset.sum_range_succ, entry_append_right (le_refl _), Nat.sub_self, entry_cons_zero]
  congr 1
  refine Finset.sum_congr rfl fun j hj => ?_
  rw [entry_append_left (mem_range.mp hj)]

/-- What stands behind the second vector does not count. -/
theorem dot_append_right {x y : List ℚ} (h : x.length = y.length) (z : List ℚ) :
    dot x (y ++ z) = dot x y := by
  rw [dot_eq_sum (n := x.length) (le_refl _), dot_eq_sum (n := x.length) (le_refl _)]
  refine Finset.sum_congr rfl fun j hj => ?_
  rw [entry_append_left (h ▸ mem_range.mp hj)]

/-! ## The system with more rows -/

namespace Equations

variable {E : Equations} {x coefficients : List ℚ} {r : ℚ}

/-- **What solves the system with a row**: what solves the system and leaves the slack of the row in
the new column. -/
theorem solves_withRow_iff (hlen : coefficients.length = E.width) {y : List ℚ} :
    (E.withRow coefficients r).Solves y ↔ E.Solves y ∧ dot coefficients y + entry y E.width = r := by
  have hpick : pick coefficients (List.range E.width) = coefficients :=
    eq_of_entry_eq (by simp [hlen]) fun j hj => by
      have hj' : j < E.width := by simpa using hj
      rw [entry_pick _ (by simpa using hj')]
      simp [hj']
  have hold : (E.rows.map (· ++ [(0 : ℚ)])).map (dot · y) = E.rows.map (dot · y) := by
    rw [List.map_map]
    refine List.map_congr_left fun row _ => ?_
    rw [Function.comp_apply, dot_concat, zero_mul, add_zero]
  change List.map (dot · y) (E.rows.map (· ++ [(0 : ℚ)]) ++
    [pick coefficients (List.range E.width) ++ [1]]) = E.rhs ++ [r] ↔ _
  rw [List.map_append, hold, hpick, List.map_singleton, dot_concat, one_mul, hlen]
  exact List.append_singleton_inj

/-- A solution with the slack of the new row behind it solves the system with the row. -/
theorem solves_withRow (hlen : coefficients.length = E.width) (hx : x.length = E.width)
    (hsolves : E.Solves x) :
    (E.withRow coefficients r).Solves (x ++ [r - dot coefficients x]) := by
  rw [solves_withRow_iff hlen, dot_append_right (hlen.trans hx.symm),
    entry_append_right (le_of_eq hx), hx, Nat.sub_self, entry_cons_zero]
  refine ⟨?_, by ring⟩
  have hrows : E.rows.map (dot · (x ++ [r - dot coefficients x])) = E.rows.map (dot · x) :=
    List.map_congr_left fun row hrow => dot_append_right ((E.row_length row hrow).trans hx.symm) _
  exact hrows.trans hsolves

theorem dot_costs_withRow (E : Equations) (coefficients : List ℚ) (r : ℚ) (y : List ℚ) :
    dot (E.withRow coefficients r).costs y = dot E.costs y := by
  change dot (E.costs ++ [0]) y = _
  rw [dot_concat, zero_mul, add_zero]

/-- A row given by its entries at columns, and its right-hand side. -/
abbrev SparseRow := List (ℕ × ℚ) × ℚ

/-- **The system with more rows**, each with a slack of its own. -/
def withEntries (E : Equations) : List SparseRow → Equations
  | [] => E
  | row :: rows => (E.withRow (scatter (zeros E.width) row.1) row.2).withEntries rows

theorem width_withEntries (E : Equations) (rows : List SparseRow) :
    (E.withEntries rows).width = E.width + rows.length := by
  induction rows generalizing E with
  | nil => rfl
  | cons row rows ih =>
    rw [withEntries, ih, width_withRow, List.length_cons]
    omega

theorem dot_costs_withEntries (E : Equations) (rows : List SparseRow) (y : List ℚ) :
    dot (E.withEntries rows).costs y = dot E.costs y := by
  induction rows generalizing E with
  | nil => rfl
  | cons row rows ih => rw [withEntries, ih, dot_costs_withRow]

/-- What is left of each row at a vector. -/
def slacks (rows : List SparseRow) (x : List ℚ) : List ℚ := rows.map fun row => row.2 - valueAt row.1 x

/-- The row has each of its columns once, all of them below `n`. -/
structure Lists (n : ℕ) (row : SparseRow) : Prop where
  nodup : (row.1.map (·.1)).Nodup
  lt : ∀ e ∈ row.1, e.1 < n

theorem Lists.dot_scatter {row : SparseRow} {n width : ℕ} (h : Lists n row) (hn : n ≤ width)
    (y : List ℚ) : dot (scatter (zeros width) row.1) y = valueAt row.1 y := by
  rw [dot_eq_sum (n := width) (by simp)]
  exact sum_scatter h.nodup (fun e he => lt_of_lt_of_le (h.lt e he) hn) y

/-- Entries at columns of a vector do not see what stands behind it. -/
theorem Lists.valueAt_append {row : SparseRow} {n : ℕ} (h : Lists n row) (hx : n ≤ x.length)
    (z : List ℚ) : valueAt row.1 (x ++ z) = valueAt row.1 x :=
  Model.valueAt_congr fun e he => entry_append_left (lt_of_lt_of_le (h.lt e he) hx)

/-- **A solution with the slacks behind it solves the system with the rows.** -/
theorem solves_withEntries {rows : List SparseRow} {n : ℕ} (hrows : ∀ row ∈ rows, Lists n row)
    (hn : n ≤ E.width) (hx : x.length = E.width) (hsolves : E.Solves x) :
    (E.withEntries rows).Solves (x ++ slacks rows x) := by
  induction rows generalizing E x with
  | nil => simpa [withEntries, slacks] using hsolves
  | cons row rows ih =>
    have hrow := hrows row (by simp)
    have hrest : ∀ other ∈ rows, Lists n other := fun other hother => hrows other (by simp [hother])
    have hcoefficients : (scatter (zeros E.width) row.1).length = E.width := by simp
    have hstep := solves_withRow (r := row.2) hcoefficients hx hsolves
    rw [hrow.dot_scatter hn] at hstep
    have hlen : (x ++ [row.2 - valueAt row.1 x]).length =
        (E.withRow (scatter (zeros E.width) row.1) row.2).width := by simp [hx]
    have hmore := ih hrest (by rw [width_withRow]; omega) hlen hstep
    -- the slacks of the other rows do not see the slack of this one
    have hslacks : slacks rows (x ++ [row.2 - valueAt row.1 x]) = slacks rows x := by
      refine List.map_congr_left fun other hother => ?_
      rw [(hrest other hother).valueAt_append (by omega)]
    rw [hslacks, List.append_assoc] at hmore
    exact hmore

/-- **A solution of the system with the rows that is not negative meets the rows.** -/
theorem solves_of_withEntries {rows : List SparseRow} {n : ℕ} (hrows : ∀ row ∈ rows, Lists n row)
    (hn : n ≤ E.width) (hsolves : (E.withEntries rows).Solves x) (hnonneg : ∀ k, 0 ≤ entry x k) :
    E.Solves x ∧ ∀ row ∈ rows, valueAt row.1 x ≤ row.2 := by
  induction rows generalizing E with
  | nil => exact ⟨hsolves, by simp⟩
  | cons row rows ih =>
    have hrow := hrows row (by simp)
    obtain ⟨hfirst, hrest⟩ := ih (fun other hother => hrows other (by simp [hother]))
      (by rw [width_withRow]; omega) hsolves
    obtain ⟨hE, hslack⟩ := (solves_withRow_iff (by simp)).mp hfirst
    rw [hrow.dot_scatter hn] at hslack
    refine ⟨hE, fun other hother => ?_⟩
    rcases List.mem_cons.mp hother with rfl | hother
    · linarith [hnonneg E.width]
    · exact hrest other hother

end Equations

open Equations

/-! ## The tableau with more rows -/

namespace Tableau

variable {E : Equations} {T D : Tableau ℚ}

/-- **Rows are added to a canonical tableau**, and it stays canonical, with a name for each column. -/
theorem Canonical.exists_addEntries (h : T.Canonical E) (hnames : E.width ≤ T.names.length)
    (rows : List SparseRow) :
    ∃ start, rows.foldlM Run.addEntries T = .ok start ∧ start.Canonical (E.withEntries rows) ∧
      (E.withEntries rows).width ≤ start.names.length := by
  induction rows generalizing E T with
  | nil => exact ⟨T, rfl, h, hnames⟩
  | cons row rows ih =>
    have hlen : (scatter (zeros E.width) row.1).length = E.width := by simp
    have hadd := h.addRow_eq hlen row.2 s!"s{T.rowCount + 1}"
    obtain ⟨start, hstart, hcanonical, hwide⟩ :=
      ih (h.addRow hlen hadd) (by rw [width_withRow]; simpa using hnames)
    refine ⟨start, ?_, hcanonical, hwide⟩
    have hfirst : Run.addEntries T row = T.addRow (scatter (zeros E.width) row.1) row.2
        s!"s{T.rowCount + 1}" := by
      rw [Run.addEntries, h.columnCount_eq]
    rw [List.foldlM_cons, hfirst, hadd]
    exact hstart

end Tableau

/-! ## The points that meet a constraint -/

namespace ExtraRow

/-- The constraint as `≤` rows over the columns of a model. -/
def cuts (row : ExtraRow) (model : Model ℚ) : List SparseRow :=
  Run.cutRows row.sign (structuralEntries model.components row.coefficients) row.rhs

variable {model : Model ℚ} {row : ExtraRow} {p x : List ℚ}

/-- The rows of a constraint list columns of variables, each once. -/
theorem lists_cuts : ∀ cut ∈ row.cuts model, Lists (structuralWidth model.kinds) cut := by
  have hbelow : Lists (structuralWidth model.kinds)
      (structuralEntries model.components row.coefficients, row.rhs) :=
    ⟨nodup_structuralEntries _ _, fun e he =>
      key_lt_of_mem_structuralEntries (List.mem_map_of_mem he)⟩
  have habove : Lists (structuralWidth model.kinds)
      ((structuralEntries model.components row.coefficients).map fun e => (e.1, -e.2), -row.rhs) := by
    refine ⟨?_, fun e he => ?_⟩
    · rw [List.map_map]
      exact hbelow.nodup
    · obtain ⟨old, hold, rfl⟩ := List.mem_map.mp he
      exact hbelow.lt old hold
  intro cut hcut
  unfold cuts Run.cutRows at hcut
  dsimp only at hcut
  split at hcut
  · exact List.mem_singleton.mp hcut ▸ hbelow
  · exact List.mem_singleton.mp hcut ▸ habove
  · rcases List.mem_cons.mp hcut with rfl | hcut
    · exact hbelow
    · exact List.mem_singleton.mp hcut ▸ habove

/-- The slacks of a constraint at the vector of a point that meets it: not negative, and in all the
distance of its two sides. -/
theorem slacks_cuts (h : row.Holds p) (hpoint : componentSums model.components x = p) :
    (∀ a ∈ slacks (row.cuts model) x, 0 ≤ a) ∧
      (slacks (row.cuts model) x).sum = |dot row.coefficients p - row.rhs| := by
  have hvalue : valueAt (structuralEntries model.components row.coefficients) x =
      dot row.coefficients p := by
    rw [valueAt_structuralEntries, hpoint]
  unfold cuts Run.cutRows slacks
  unfold Holds at h
  cases hsign : row.sign with
  | le =>
    rw [hsign] at h
    have hle : dot row.coefficients p ≤ row.rhs := h
    simp only [List.map_cons, List.map_nil, hvalue, List.mem_singleton, forall_eq,
      List.sum_cons, List.sum_nil, add_zero]
    rw [abs_of_nonpos (by linarith)]
    exact ⟨by linarith, by ring⟩
  | ge =>
    rw [hsign] at h
    have hge : row.rhs ≤ dot row.coefficients p := h
    simp only [List.map_cons, List.map_nil, valueAt_neg, hvalue, List.mem_singleton, forall_eq,
      List.sum_cons, List.sum_nil, add_zero]
    rw [abs_of_nonneg (by linarith)]
    exact ⟨by linarith, by ring⟩
  | eq =>
    rw [hsign] at h
    have heq : dot row.coefficients p = row.rhs := h
    simp [valueAt_neg, hvalue, heq]
  | other word =>
    rw [hsign] at h
    have heq : dot row.coefficients p = row.rhs := h
    simp [valueAt_neg, hvalue, heq]

/-- A point whose vector meets the rows of a constraint meets the constraint. -/
theorem holds_of_cuts (h : ∀ cut ∈ row.cuts model, valueAt cut.1 x ≤ cut.2) :
    row.Holds (componentSums model.components x) := by
  have hvalue : valueAt (structuralEntries model.components row.coefficients) x =
      dot row.coefficients (componentSums model.components x) :=
    valueAt_structuralEntries ..
  unfold cuts Run.cutRows at h
  unfold Holds
  cases hsign : row.sign <;> rw [hsign] at h <;>
    simp only [List.mem_cons, List.not_mem_nil, or_false, forall_eq_or_imp, forall_eq, valueAt_neg,
      hvalue, neg_le_neg_iff] at h
  case le => exact h
  case ge => exact h
  case eq => exact le_antisymm h.1 h.2
  case other => exact le_antisymm h.1 h.2

end ExtraRow

namespace Model

variable {model : Model ℚ} {row : ExtraRow} {opts : Options ℚ} {p : List ℚ}

/-- One more row adds the distance of its two sides to the extent of a point. -/
theorem extent_extend_singleton (hsized : model.Sized) (row : ExtraRow) (p : List ℚ) :
    (model.extend [row]).extent p = model.extent p + |dot row.coefficients p - row.rhs| := by
  have hrows : ∑ i ∈ range (model.extend [row]).rowCount,
      |dot ((model.extend [row]).rows.rowAt i) p - entry (model.extend [row]).rhs i| =
        (∑ i ∈ range model.rowCount, |dot (model.rows.rowAt i) p - entry model.rhs i|) +
          |dot row.coefficients p - row.rhs| := by
    rw [rowCount_extend, List.length_singleton, Finset.sum_range_succ]
    have hfirst : 0 < [row].length := by simp
    obtain ⟨hlast, hrhs, -⟩ := addedRow_extend hsized hfirst
    rw [Nat.add_zero] at hlast hrhs
    rw [hlast, hrhs]
    congr 1
    refine Finset.sum_congr rfl fun i hi => ?_
    obtain ⟨hold, holdRhs, -⟩ := row_extend hsized [row] (mem_range.mp hi)
    rw [hold, holdRhs]
  have hvariables : (model.extend [row]).variableCount = model.variableCount := rfl
  have hkinds : (model.extend [row]).kinds = model.kinds := rfl
  rw [extent, hrows, hvariables, hkinds, extent]
  ring

theorem structuralWidth_le_penalised (model : Model ℚ) (opts : Options ℚ) :
    structuralWidth model.kinds ≤ (model.penalised opts).width := by
  rw [width_penalised]
  exact Nat.le_add_right _ _

/-- The vector of a point, with the slacks of a constraint behind it. -/
def liftWith (model : Model ℚ) (row : ExtraRow) (p : List ℚ) : List ℚ :=
  model.lift p ++ slacks (row.cuts model) (model.lift p)

section LiftWith

variable (hvalid : model.Valid) (hp : (model.extend [row]).Feasible p)

include hvalid hp

theorem feasible_of_extend : model.Feasible p ∧ row.Holds p := by
  obtain ⟨hmodel, hrow⟩ := (feasible_extend_iff hvalid.sized).mp hp
  exact ⟨hmodel, hrow row (by simp)⟩

theorem slacks_lift : (∀ a ∈ slacks (row.cuts model) (model.lift p), 0 ≤ a) ∧
    (slacks (row.cuts model) (model.lift p)).sum = |dot row.coefficients p - row.rhs| := by
  obtain ⟨hmodel, hrow⟩ := feasible_of_extend hvalid hp
  exact ExtraRow.slacks_cuts hrow (componentSums_lift hvalid.sized hmodel.length_eq)

theorem length_liftWith :
    (model.liftWith row p).length = ((model.penalised opts).withEntries (row.cuts model)).width := by
  obtain ⟨hmodel, -⟩ := feasible_of_extend hvalid hp
  rw [liftWith, List.length_append, length_lift hvalid.sized hmodel.length_eq, width_withEntries,
    width_penalised, slacks, List.length_map]

/-- **A point that meets the constraint solves the system with its rows.** -/
theorem solves_liftWith :
    ((model.penalised opts).withEntries (row.cuts model)).Solves (model.liftWith row p) := by
  obtain ⟨hmodel, -⟩ := feasible_of_extend hvalid hp
  exact solves_withEntries ExtraRow.lists_cuts (structuralWidth_le_penalised model opts)
    (by rw [length_lift hvalid.sized hmodel.length_eq, width_penalised])
    (represents_lift opts hvalid hmodel).equations

theorem liftWith_nonneg : ∀ a ∈ model.liftWith row p, 0 ≤ a := by
  obtain ⟨hmodel, -⟩ := feasible_of_extend hvalid hp
  intro a ha
  rcases List.mem_append.mp ha with hlift | hslack
  · exact hmodel.nonneg_lift hvalid hlift
  · exact (slacks_lift hvalid hp).1 a hslack

/-- **The total of its vector is its extent**, in the model with the constraint. -/
theorem sum_liftWith : (model.liftWith row p).sum = (model.extend [row]).extent p := by
  obtain ⟨hmodel, -⟩ := feasible_of_extend hvalid hp
  rw [liftWith, List.sum_append, sum_lift hvalid hmodel, (slacks_lift hvalid hp).2,
    extent_extend_singleton hvalid.sized]

theorem dot_costs_liftWith :
    dot ((model.penalised opts).withEntries (row.cuts model)).costs (model.liftWith row p) =
      model.gain p := by
  obtain ⟨hmodel, -⟩ := feasible_of_extend hvalid hp
  have hlen : (model.penalised opts).costs.length = (model.lift p).length := by
    rw [length_lift hvalid.sized hmodel.length_eq]
    exact width_penalised opts
  rw [dot_costs_withEntries, liftWith, dot_append_right hlen]
  exact dot_costs_of_represents (represents_lift opts hvalid hmodel)

end LiftWith

end Model

namespace Tableau

variable {model : Model ℚ} {row : ExtraRow} {opts : Options ℚ} {D : Tableau ℚ} {p : List ℚ}

/-- **The objective row of a tableau with the constraint bounds the gain of every point that meets
it.** -/
theorem Canonical.gain_le_of_withCuts
    (h : D.Canonical ((model.penalised opts).withEntries (row.cuts model))) (hvalid : model.Valid)
    (hp : (model.extend [row]).Feasible p) :
    model.gain p ≤ dot (model.standardForm opts).objective D.primalValues -
      opts.bigM * (model.standardForm opts).artificialTotal D.primalValues +
        D.shortfall * (model.extend [row]).extent p := by
  have hbound := h.dot_le_primalValues (Model.length_liftWith hvalid hp)
    (Model.solves_liftWith hvalid hp) (Model.liftWith_nonneg hvalid hp)
  have hvalue : dot ((model.penalised opts).withEntries (row.cuts model)).costs D.primalValues =
      dot (model.standardForm opts).costs D.primalValues := dot_costs_withEntries _ _ _
  rw [Model.dot_costs_liftWith hvalid hp, Model.sum_liftWith hvalid hp, hvalue,
    Model.dot_costs] at hbound
  exact hbound

/-- **A blocked row bounds the extent of every point that meets the constraint.** -/
theorem Canonical.neg_rhs_le_extent
    (h : D.Canonical ((model.penalised opts).withEntries (row.cuts model))) (hvalid : model.Valid)
    {tol : ℚ} {i : ℕ} (hmove : D.nextDualMove tol = .blocked i)
    (hp : (model.extend [row]).Feasible p) :
    -entry D.rhs i ≤ tol * (model.extend [row]).extent p := by
  have hbound := h.neg_rhs_le_of_blocked hmove (Model.length_liftWith hvalid hp)
    (Model.solves_liftWith hvalid hp) (Model.liftWith_nonneg hvalid hp)
  rw [Model.sum_liftWith hvalid hp] at hbound
  rw [h.entry_rhs (h.blocked_of_nextDualMove hmove).1]
  exact hbound

end Tableau

end LinOpt
