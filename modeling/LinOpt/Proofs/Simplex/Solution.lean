import LinOpt.Proofs.Simplex.Verdicts
/-!
# What an optimal answer means

The solution of an optimal answer is read off the basic solution at the last basis: values below the
tolerance become zero, and a variable is the sum of its parts (`solution_eq`). The basic solution
meets the equations exactly, so its point misses the model by no more than the basic solution is below
zero and, in the rows, by what is left in the artificial columns (`Model.feasibleWithin_of_solves`).
The values made zero add the tolerance times the size of the row.

A pivot of least ratio keeps the basic solution from falling below zero (`Canonical.pivot_nonneg`).
The ratio test does not promise one: it passes over entries up to the tolerance, and takes ratios that
are close for equal. `optimal_verdict` says what an optimal answer is worth, and
`optimal_verdict_without_feasibility` has models whose optimal solutions are off.
-/

namespace LinOpt

open Finset Tableau

variable {opts : Options ℚ} {model : Model ℚ} {E : Equations} {T T' : Tableau ℚ} {x y : List ℚ}
  {tol a : ℚ}

/-! ## Small values -/

/-- The value, or zero where its magnitude is below the tolerance. -/
def cut (tol a : ℚ) : ℚ := if |a| < tol then 0 else a

theorem scalar_abs_eq (a : ℚ) : Scalar.abs a = |a| := by
  change (if a < 0 then -a else a) = |a|
  split
  · rename_i h
    exact (abs_of_neg h).symm
  · rename_i h
    exact (abs_of_nonneg (not_lt.mp h)).symm

theorem clean_eq_cut (a : ℚ) : Scalar.clean a = cut 1e-12 a := by
  rw [Scalar.clean, scalar_abs_eq]
  rfl

@[simp] theorem cut_zero (tol : ℚ) : cut tol 0 = 0 := by
  simp [cut]

theorem cut_neg (tol a : ℚ) : cut tol (-a) = -cut tol a := by
  unfold cut
  rw [abs_neg]
  split <;> simp

/-- A value that has been kept is kept again by a smaller tolerance. -/
theorem cut_cut {tol' : ℚ} (h : tol' ≤ tol) (a : ℚ) : cut tol' (cut tol a) = cut tol a := by
  by_cases ha : |a| < tol
  · rw [show cut tol a = 0 from if_pos ha, cut_zero]
  · rw [show cut tol a = a from if_neg ha]
    exact if_neg (not_lt.mpr (le_trans h (not_lt.mp ha)))

theorem abs_cut_sub_le (htol : 0 ≤ tol) (a : ℚ) : |cut tol a - a| ≤ tol := by
  unfold cut
  split
  · rename_i h
    rw [zero_sub, abs_neg]
    exact le_of_lt h
  · rw [sub_self, abs_zero]
    exact htol

/-- A bound above the tolerance holds of a value if it holds of what is kept of it. -/
theorem le_of_cut_le {bound : ℚ} (htol : tol ≤ bound) (h : cut tol a ≤ bound) : a ≤ bound := by
  unfold cut at h
  split at h
  · rename_i hsmall
    exact le_trans (le_abs_self a) (le_trans (le_of_lt hsmall) htol)
  · exact h

theorem Kind.AdmitsWithin.cut {kind : Kind} {low : ℚ} (h : kind.AdmitsWithin low a)
    (hlow : 0 ≤ low) (tol : ℚ) : kind.AdmitsWithin low (LinOpt.cut tol a) := by
  unfold LinOpt.cut
  split
  · exact Kind.admitsWithin_zero_right hlow
  · exact h

/-- Cutting the entries of a vector moves a row by the tolerance times its size. -/
theorem abs_dot_cut_sub_le (htol : 0 ≤ tol) (row x : List ℚ) :
    |dot row (x.map (cut tol)) - dot row x| ≤ tol * (row.map fun a => |a|).sum := by
  have hentry : ∀ j, entry (x.map (cut tol)) j = cut tol (entry x j) :=
    entry_map (cut_zero tol)
  have hsize : (row.map fun a => |a|).sum = ∑ j ∈ range row.length, |entry row j| := by
    rw [sum_eq_sum_entry (n := row.length) (by simp)]
    refine Finset.sum_congr rfl fun j _ => ?_
    exact entry_map abs_zero j
  rw [dot_eq_sum (n := row.length) (le_refl _), dot_eq_sum (n := row.length) (le_refl _),
    ← Finset.sum_sub_distrib, hsize, Finset.mul_sum]
  refine le_trans (Finset.abs_sum_le_sum_abs _ _) (Finset.sum_le_sum fun j _ => ?_)
  rw [hentry, ← mul_sub, abs_mul, mul_comm]
  exact mul_le_mul_of_nonneg_right (abs_cut_sub_le htol _) (abs_nonneg _)

/-! ## The columns of a free variable -/

/-- Columns of the system that are negatives of one another stay so in the tableau. -/
theorem Tableau.Canonical.cell_eq_neg (h : T.Canonical E) {b c i : ℕ} (hb : b < E.width)
    (hc : c < E.width) (hneg : ∀ k < E.height, E.rows.cell k c = -E.rows.cell k b)
    (hi : i < E.height) : T.cell i c = -T.cell i b := by
  obtain ⟨q, hq⟩ := h.exists_multiplier_range
  rw [hq i hi, hq i hi, ← Finset.sum_neg_distrib]
  refine Finset.sum_congr rfl fun k hk => ?_
  have hk' := mem_range.mp hk
  rw [E.cell_augmented hk' hc, E.cell_augmented hk' hb, hneg k hk', mul_neg]

namespace Model

/-- A vector that is one in the first two columns of a variable. -/
def raised (model : Model ℚ) (j : ℕ) : List ℚ :=
  scatter (zeros model.formWidth)
    [(firstColumn model.kinds j, 1), (firstColumn model.kinds j + 1, 1)]

section Free

variable (hsized : model.Sized) {j : ℕ} (hj : j < model.variableCount)
  (hfree : model.kinds.getD j .free = .free)

include hsized hj hfree

theorem firstColumn_add_two_le : firstColumn model.kinds j + 2 ≤ structuralWidth model.kinds := by
  have hend := firstColumn_add_le_structuralWidth (hsized.kinds.symm ▸ hj)
  rwa [hfree, Kind.width] at hend

theorem entry_raised (c : ℕ) : entry (model.raised j) c =
    if c = firstColumn model.kinds j + 1 then 1
    else if c = firstColumn model.kinds j then 1 else 0 := by
  have hend := firstColumn_add_two_le hsized hj hfree
  have hwidth : structuralWidth model.kinds ≤ model.formWidth := Nat.le_add_right _ _
  change entry (((zeros model.formWidth).set _ 1).set _ 1) c = _
  rw [entry_set _ (by simp; omega), entry_set _ (by simp; omega), entry_zeros]

/-- Raising both columns of a free variable leaves every variable as it is. -/
theorem entry_componentSums_raised (l : ℕ) :
    entry (componentSums model.components (model.raised j)) l = 0 := by
  have hkinds := hsized.kinds
  have hentry := entry_raised hsized hj hfree
  rcases lt_or_ge l model.variableCount with hl | hl
  · rw [entry_componentSums, components_getD hsized hl]
    rcases eq_or_ne l j with rfl | hne
    · rw [hfree]
      simp [Kind.parts, hentry]
    · -- the columns of another variable end before these or start behind them
      have hapart : ∀ e ∈ (model.kinds.getD l .free).parts (firstColumn model.kinds l) (α := ℚ),
          e.1 ≠ firstColumn model.kinds j ∧ e.1 ≠ firstColumn model.kinds j + 1 := by
        intro e he
        have hkey := key_of_mem_parts he
        rcases Nat.lt_or_gt_of_ne hne with hlt | hgt
        · have hle := firstColumn_add_le hlt (le_of_lt (hkinds ▸ hj))
          omega
        · have hle := firstColumn_add_le hgt (le_of_lt (hkinds ▸ hl))
          rw [hfree, Kind.width] at hle
          omega
      refine List.sum_eq_zero fun a ha => ?_
      obtain ⟨e, he, rfl⟩ := List.mem_map.mp ha
      rw [hentry, if_neg (hapart e he).2, if_neg (hapart e he).1, mul_zero]
  · refine entry_of_length_le ?_
    rw [length_componentSums, StandardForm.length_components hsized]
    exact hl

theorem sum_raised (y : List ℚ) :
    ∑ c ∈ range model.formWidth, entry (model.raised j) c * entry y c =
      entry y (firstColumn model.kinds j) + entry y (firstColumn model.kinds j + 1) := by
  have hend := firstColumn_add_two_le hsized hj hfree
  have hwidth : structuralWidth model.kinds ≤ model.formWidth := Nat.le_add_right _ _
  have hlt : ∀ e ∈ [(firstColumn model.kinds j, (1 : ℚ)), (firstColumn model.kinds j + 1, 1)],
      e.1 < model.formWidth := by
    simp only [List.mem_cons, List.not_mem_nil, or_false]
    rintro e (rfl | rfl)
    · exact lt_of_lt_of_le (by omega) (hend.trans hwidth)
    · exact lt_of_lt_of_le (by omega) (hend.trans hwidth)
  rw [raised, sum_scatter (by simp) hlt]
  simp

/-- **The two columns of a free variable are negatives of one another**: a row is worth nothing where
both are raised. -/
theorem cell_free (opts : Options ℚ) {i : ℕ} (hi : i < model.statedRows.length) :
    (model.standardForm opts).rows.cell i (firstColumn model.kinds j + 1) =
      -(model.standardForm opts).rows.cell i (firstColumn model.kinds j) := by
  obtain ⟨r, hr, rfl, hrow⟩ := exists_placed hi
  have hvalue : valueAt r.row.entries (model.raised j) = 0 := by
    rw [hrow]
    refine StatedRow.valueAt_oriented_eq_zero _ _ ?_
    rw [dot_eq_sum (le_refl _)]
    refine Finset.sum_eq_zero fun l _ => ?_
    rw [entry_componentSums_raised hsized hj hfree, mul_zero]
  have hown : valueAt r.ownEntries (model.raised j) = 0 := by
    refine List.sum_eq_zero fun a ha => ?_
    obtain ⟨e, he, rfl⟩ := List.mem_map.mp ha
    have hkey := (PlacedRow.key_of_mem_ownEntries he).1
    have hfirst := structuralWidth_le_first hr
    have hend := firstColumn_add_two_le hsized hj hfree
    rw [entry_raised hsized hj hfree, if_neg (by omega), if_neg (by omega), mul_zero]
  have hsum := sum_row_standardForm opts hr (model.raised j)
  have hpair := sum_raised hsized hj hfree ((model.standardForm opts).rows.rowAt r.index)
  have hcomm : ∑ c ∈ range model.formWidth, entry (model.raised j) c *
      entry ((model.standardForm opts).rows.rowAt r.index) c =
        ∑ c ∈ range model.formWidth,
          (model.standardForm opts).rows.cell r.index c * entry (model.raised j) c :=
    Finset.sum_congr rfl fun c _ => mul_comm _ _
  rw [hcomm, hsum, hvalue, hown] at hpair
  change _ = (model.standardForm opts).rows.cell r.index _ +
    (model.standardForm opts).rows.cell r.index _ at hpair
  linarith

/-- **A free variable has at most one basic column**, so one of its two parts is zero. -/
theorem primalValues_free {costs : List ℚ} {hcosts : costs.length = model.formWidth}
    (h : T.Canonical (equations opts model costs hcosts)) :
    entry T.primalValues (firstColumn model.kinds j) = 0 ∨
      entry T.primalValues (firstColumn model.kinds j + 1) = 0 := by
  by_contra hboth
  obtain ⟨hfirst, hsecond⟩ := not_or.mp hboth
  have hmem : ∀ {c}, entry T.primalValues c ≠ 0 → c ∈ T.basis := fun hne => by
    by_contra hnot
    exact hne (h.entry_primalValues_of_notMem hnot)
  obtain ⟨i, hi⟩ := h.exists_of_mem_basis (hmem hfirst)
  obtain ⟨k, hk⟩ := h.exists_of_mem_basis (hmem hsecond)
  have hone : T.cell i (firstColumn model.kinds j) = 1 := by
    rw [← hi, h.unit, if_pos rfl]
  have hzero : T.cell i (firstColumn model.kinds j + 1) = 0 := by
    rw [← hk, h.unit, if_neg]
    rintro rfl
    omega
  have hneg := h.cell_eq_neg (h.basis_lt _ (hmem hfirst)) (h.basis_lt _ (hmem hsecond))
    (fun k hk => cell_free hsized hj hfree opts (height_equations opts hcosts ▸ hk)) i.2
  rw [hone, hzero] at hneg
  norm_num at hneg

end Free

end Model

/-! ## Reading a solution back -/

theorem foldl_parts (parts : List (ℕ × ℚ)) (x : List ℚ) (a : ℚ) :
    parts.foldl (fun sum (column, sign) => sum + sign * entry x column) a =
      a + valueAt parts x := by
  induction parts generalizing a with
  | nil => simp
  | cons e parts ih => rw [List.foldl_cons, ih, valueAt_cons, add_assoc]

/-- The variables of a vector are its component sums, with small ones as zero. -/
theorem reconstruct_eq (components : Components ℚ) (y : List ℚ) :
    reconstruct components y = (componentSums components y).map (cut 1e-12) := by
  unfold reconstruct componentSums
  rw [List.map_map]
  refine List.map_congr_left fun parts _ => ?_
  rw [Function.comp_apply, foldl_parts, zero_add, clean_eq_cut]

/-- Where a variable has one part at most that is not zero, it does not matter whether the parts or
the sum is cut. -/
theorem Kind.valueAt_parts_cut {kind : Kind} {first : ℕ} (tol : ℚ)
    (hfree : kind = .free → entry y first = 0 ∨ entry y (first + 1) = 0) :
    valueAt (kind.parts first) (y.map (cut tol)) = cut tol (valueAt (kind.parts first) y) := by
  have hentry : ∀ j, entry (y.map (cut tol)) j = cut tol (entry y j) := entry_map (cut_zero tol)
  cases kind <;> simp only [Kind.parts, valueAt_cons, valueAt_nil, hentry, add_zero, one_mul,
    neg_mul, cut_neg]
  rcases hfree rfl with hzero | hzero
  · simp [hzero, cut_neg]
  · simp [hzero]

/-- **The solution is the point of the basic solution, with small values as zero.** -/
theorem solution_eq (hsized : model.Sized) (htol : 1e-12 ≤ tol)
    (hfree : ∀ j < model.variableCount, model.kinds.getD j .free = .free →
      entry y (firstColumn model.kinds j) = 0 ∨ entry y (firstColumn model.kinds j + 1) = 0) :
    (reconstruct model.components (y.map (cut tol))).map Scalar.clean =
      (componentSums model.components y).map (cut tol) := by
  unfold reconstruct componentSums
  rw [List.map_map, List.map_map]
  refine List.map_congr_left fun parts hparts => ?_
  obtain ⟨j, hj, rfl⟩ := List.getElem_of_mem hparts
  have hj' : j < model.variableCount := by rwa [StandardForm.length_components hsized] at hj
  have hget : model.components[j] =
      (model.kinds.getD j .free).parts (firstColumn model.kinds j) := by
    rw [← Model.components_getD hsized hj']
    simp [hj]
  rw [Function.comp_apply, Function.comp_apply, foldl_parts, zero_add, hget,
    Kind.valueAt_parts_cut tol (hfree j hj'), clean_eq_cut, clean_eq_cut, cut_cut (le_refl _),
    cut_cut htol]

/-! ## Pivots of least ratio -/

/-- **The row has the least ratio** among the rows whose entry in the column is above zero. -/
def Tableau.LeastRatio (T : Tableau ℚ) (row col : ℕ) : Prop :=
  ∀ i < T.rowCount, 0 < T.cell i col →
    T.cell row T.columnCount / T.cell row col ≤ T.cell i T.columnCount / T.cell i col

instance (T : Tableau ℚ) (row col : ℕ) : Decidable (T.LeastRatio row col) :=
  inferInstanceAs (Decidable (∀ i < T.rowCount, 0 < T.cell i col →
    T.cell row T.columnCount / T.cell row col ≤ T.cell i T.columnCount / T.cell i col))

/-- Every pivot of the simplex method is of least ratio, when it starts at the tableau. -/
def Tableau.LeastFrom (tol : ℚ) (rule : PivotRule) (S : Tableau ℚ) : Prop :=
  ∀ k T row col, Leads tol rule S k T → T.nextMove tol rule = .pivot row col → T.LeastRatio row col

/-- Follows the moves from a tableau and tries every ratio on the way; the budget must last. -/
def Tableau.leastAlong (tol : ℚ) (rule : PivotRule) : ℕ → Tableau ℚ → Bool
  | budget, T =>
    match T.nextMove tol rule with
    | .pivot row col =>
      match budget with
      | 0 => false
      | budget + 1 => decide (T.LeastRatio row col) && leastAlong tol rule budget (T.pivot row col)
    | _ => true

/-- **Whether every pivot is of least ratio can be tried out.** -/
theorem Tableau.leastFrom_of_leastAlong {rule : PivotRule} {budget : ℕ}
    (h : T.leastAlong tol rule budget = true) : T.LeastFrom tol rule := by
  intro k S row col hleads hmove
  induction hleads generalizing budget with
  | refl T =>
    unfold leastAlong at h
    rw [hmove] at h
    cases budget with
    | zero => simp at h
    | succ budget => exact of_decide_eq_true (Bool.and_eq_true_iff.mp h).1
  | step hfirst _ ih =>
    unfold leastAlong at h
    rw [hfirst] at h
    cases budget with
    | zero => simp at h
    | succ budget => exact ih (Bool.and_eq_true_iff.mp h).2 hmove

namespace Tableau.Canonical

/-- **A pivot of least ratio keeps the right-hand sides from falling below zero.** -/
theorem pivot_nonneg (h : T.Canonical E) {row col : ℕ} (hrow : row < E.height)
    (hcol : col < E.width) (hpos : 0 < T.cell row col) (hleast : T.LeastRatio row col)
    (hnonneg : ∀ i < E.height, 0 ≤ T.cell i E.width) :
    ∀ i < E.height, 0 ≤ (T.pivot row col).cell i E.width := by
  intro i hi
  have hratio : 0 ≤ T.cell row E.width / T.cell row col :=
    div_nonneg (hnonneg row hrow) (le_of_lt hpos)
  rw [cell_pivot h hrow hcol (ne_of_gt hpos) (by omega)]
  split
  · exact hratio
  · rcases le_or_gt (T.cell i col) 0 with hle | hgt
    · have hterm := mul_nonpos_of_nonpos_of_nonneg hle hratio
      linarith [hnonneg i hi]
    · have hleast' := hleast i (h.rowCount_eq ▸ hi) hgt
      rw [h.columnCount_eq, le_div_iff₀ hgt] at hleast'
      linarith

/-- So does a walk of such pivots. -/
theorem leads_nonneg {rule : PivotRule} {n : ℕ} (h : T.Canonical E) (htol : 0 ≤ tol)
    (hleads : Leads tol rule T n T') (hleast : T.LeastFrom tol rule)
    (hnonneg : ∀ i < E.height, 0 ≤ T.cell i E.width) :
    ∀ i < E.height, 0 ≤ T'.cell i E.width := by
  induction hleads with
  | refl => exact hnonneg
  | step hmove _ ih =>
    obtain ⟨hrow, hcol, hpos⟩ := h.pivot_of_nextMove hmove
    refine ih (h.move htol hmove) (fun k S row col hlater => hleast (k + 1) S row col
      (.step hmove hlater)) ?_
    exact h.pivot_nonneg hrow hcol (lt_of_le_of_lt htol hpos)
      (hleast 0 _ _ _ (.refl _) hmove) hnonneg

/-- **Pivots of least ratio lead from a basic solution that is not negative to another.** -/
theorem primalValues_nonneg_of_stopsAt {rule : PivotRule} {move : Move} (h : T.Canonical E)
    (htol : 0 ≤ tol) (hstops : StopsAt tol rule T T' move) (hleast : T.LeastFrom tol rule)
    (hnonneg : ∀ a ∈ T.primalValues, 0 ≤ a) : ∀ a ∈ T'.primalValues, 0 ≤ a := by
  obtain ⟨k, hleads⟩ := hstops.leads
  exact (h.leads htol hleads).primalValues_nonneg_iff.mpr
    (h.leads_nonneg htol hleads hleast (h.primalValues_nonneg_iff.mp hnonneg))

end Tableau.Canonical

/-! ## Optimal answers -/

/-- The magnitudes of the coefficients of a row, together. -/
def Model.rowSize (model : Model ℚ) (i : ℕ) : ℚ := ((model.rows.rowAt i).map fun a => |a|).sum

/-- Cutting the values of a point costs a row the tolerance times its size. -/
theorem Model.FeasibleWithin.cut {low slack : ℚ} {p : List ℚ}
    (h : model.FeasibleWithin low (fun _ => slack) p) (hlow : 0 ≤ low) (htol : 0 ≤ tol) :
    model.FeasibleWithin low (fun i => slack + tol * model.rowSize i) (p.map (LinOpt.cut tol)) where
  length_eq := by rw [List.length_map, h.length_eq]
  rows := fun i hi => (h.rows i hi).move (abs_dot_cut_sub_le htol _ _)
  kinds := by
    intro j hj
    rw [entry_map (cut_zero tol)]
    exact (h.kinds j hj).cut hlow tol

namespace Simplex

variable {observer : Observer} {done : Run ℚ}

/-- The values of the columns are those of the basic solution, with small ones as zero. -/
theorem columnValues_eq (h : T.Canonical (model.penalised opts)) (n : ℕ) :
    columnValues opts (model.standardForm opts) ⟨T.basis, T.rhs, n⟩ =
      T.primalValues.map (cut opts.tol) := by
  have hscatter :
      scatter (zeros (model.standardForm opts).width) (T.basis.zip T.rhs) = T.primalValues :=
    h.primalValues_eq.symm
  rw [columnValues, hscatter]
  refine List.map_congr_left fun a _ => ?_
  rw [scalar_abs_eq]
  rfl

/-- What an optimal answer is read from, and how, for any tolerance. -/
theorem exists_terminal_of_optimal (opts : Options ℚ) (hvalid : model.Valid) (htol : 0 ≤ opts.tol)
    (hexact : opts.method = .revised → RevisedExact opts model)
    (hrun : (run observer opts model).outcome = .ok done)
    (hstatus : done.result.status = .optimal) :
    ∃ n T, Leads opts.tol opts.rule (model.standardForm opts).tableau n T ∧
      T.nextMove opts.tol opts.rule = .optimal ∧
      T.Canonical (model.penalised opts) ∧ done.basis = some T.basis ∧
      done.result.solution = some ((reconstruct model.components
        (T.primalValues.map (cut opts.tol))).map Scalar.clean) ∧
      artificialLevel (model.standardForm opts).artificials (T.primalValues.map (cut opts.tol)) ≤
        feasibilityTolerance := by
  have hends := ends_pivotToEnd observer hvalid htol hexact
  rw [outcome_run observer opts hvalid] at hrun
  obtain rfl := Except.ok.inj hrun
  generalize (pivotToEnd observer opts (model.standardForm opts)).outcome =
    answer at hends hstatus ⊢
  cases hends with
  | @optimum n T hleads hmove =>
    have hT := (model.canonical_standardForm_tableau opts).leads htol hleads
    have hvalues := columnValues_eq hT n
    have hlevel : artificialLevel (model.standardForm opts).artificials
        (columnValues opts (model.standardForm opts) ⟨T.basis, T.rhs, n⟩) ≤
          feasibilityTolerance := by
      by_contra hlt
      rw [concluded, finished] at hstatus
      dsimp only at hstatus
      rw [if_pos (not_le.mp hlt)] at hstatus
      exact absurd hstatus (by simp [Result.failed])
    refine ⟨n, T, hleads, hmove, hT, rfl, ?_, hvalues ▸ hlevel⟩
    rw [concluded, finished]
    dsimp only
    rw [if_neg (not_lt.mpr hlevel), hvalues]
    rfl
  | ray => exact absurd hstatus (by rw [status_concluded_error, Fault.status]; decide)
  | cleared => exact absurd hstatus (by rw [status_concluded_error, Fault.status]; decide)
  | gap => exact absurd hstatus (by rw [status_concluded_error, Fault.status]; decide)
  | limit => exact absurd hstatus (by rw [status_concluded_error, Fault.status]; decide)

/-- What an optimal answer is read from, for any options whose tolerance is no less than that of a
result and no more than that of feasibility. -/
theorem exists_optimum_of_optimal (opts : Options ℚ) (hvalid : model.Valid)
    (htol : 1e-12 ≤ opts.tol) (htol' : opts.tol ≤ feasibilityTolerance)
    (hexact : opts.method = .revised → RevisedExact opts model)
    (hrun : (run observer opts model).outcome = .ok done)
    (hstatus : done.result.status = .optimal) :
    ∃ n T, Leads opts.tol opts.rule (model.standardForm opts).tableau n T ∧
      T.nextMove opts.tol opts.rule = .optimal ∧
      T.Canonical (model.penalised opts) ∧ done.basis = some T.basis ∧
      done.result.solution =
        some ((componentSums model.components T.primalValues).map (cut opts.tol)) ∧
      ∀ k ∈ (model.standardForm opts).artificials,
        entry T.primalValues k ≤ feasibilityTolerance := by
  obtain ⟨n, T, hleads, hmove, hT, hbasis, hsolution, hlevel⟩ := exists_terminal_of_optimal opts hvalid
    (le_trans (by norm_num) htol) hexact hrun hstatus
  refine ⟨n, T, hleads, hmove, hT, hbasis, ?_, fun k hk => ?_⟩
  · rw [hsolution, solution_eq hvalid.sized htol fun j hj hfree =>
      Model.primalValues_free hvalid.sized hj hfree hT]
  · have hentry := entry_le_artificialLevel hk (T.primalValues.map (cut opts.tol))
    rw [entry_map (cut_zero _)] at hentry
    exact le_of_cut_le htol' (hentry.trans hlevel)

/-- The walk to the tableau that an optimal answer is read from. -/
theorem exists_leads_of_optimal (opts : Options ℚ) (hvalid : model.Valid)
    (htol : 1e-12 ≤ opts.tol) (htol' : opts.tol ≤ feasibilityTolerance)
    (hexact : opts.method = .revised → RevisedExact opts model)
    (hrun : (run observer opts model).outcome = .ok done)
    (hstatus : done.result.status = .optimal) :
    ∃ n T, Leads opts.tol opts.rule (model.standardForm opts).tableau n T ∧
      T.Canonical (model.penalised opts) ∧ done.basis = some T.basis ∧
      done.result.solution =
        some ((componentSums model.components T.primalValues).map (cut opts.tol)) ∧
      ∀ k ∈ (model.standardForm opts).artificials,
        entry T.primalValues k ≤ feasibilityTolerance := by
  obtain ⟨n, T, hleads, -, hrest⟩ :=
    exists_optimum_of_optimal opts hvalid htol htol' hexact hrun hstatus
  exact ⟨n, T, hleads, hrest⟩

/-- **What an optimal answer means**, by either method and either rule. It is read off a basic solution
that has no artificial column above the tolerance, with small values as zero. The point misses the
kinds by no more than the basic solution is below zero, and the rows by that, the tolerance and what
the small values are worth. Where every pivot was of least ratio the basic solution is not negative,
and rows of moderate size hold up to `1e-6`. -/
theorem optimal_verdict {form : StandardForm ℚ} (observer : Observer) (rule : PivotRule)
    (method : Method) (hvalid : model.Valid)
    (hbuild : StandardForm.build { rule, method } model = .ok form)
    (hexact : method = .revised → RevisedExact { rule, method } model)
    (hrun : (run observer { rule, method } model).outcome = .ok done)
    (hstatus : done.result.status = .optimal) :
    ∃ basis y p, done.basis = some basis ∧ done.result.solution = some p ∧
      form.BasicAt basis y ∧ (∀ k ∈ form.artificials, entry y k ≤ 1e-7) ∧
      p = (componentSums form.components y).map (cut 1e-9) ∧
      (∀ low, 0 ≤ low → (∀ a ∈ y, -low ≤ a) →
        model.FeasibleWithin low (fun i => low + 1e-7 + 1e-9 * model.rowSize i) p) ∧
      ((∀ k T row col, Leads 1e-9 rule form.tableau k T → T.nextMove 1e-9 rule = .pivot row col →
          T.LeastRatio row col) →
        (∀ a ∈ y, 0 ≤ a) ∧
          ((∀ i < model.rowCount, model.rowSize i ≤ 900) →
            model.FeasibleWithin 1e-6 (fun _ => 1e-6) p)) := by
  rw [StandardForm.build_eq _ hvalid] at hbuild
  obtain rfl := Except.ok.inj hbuild
  obtain ⟨n, T, hleads, hT, hbasis, hsolution, hlevel⟩ := exists_leads_of_optimal
    { rule, method } hvalid (by norm_num) (by norm_num [feasibilityTolerance]) hexact hrun hstatus
  have hwithin : ∀ low, 0 ≤ low → (∀ a ∈ T.primalValues, -low ≤ a) →
      model.FeasibleWithin low (fun i => low + 1e-7 + 1e-9 * model.rowSize i)
        ((componentSums model.components T.primalValues).map (cut 1e-9)) := by
    intro low hlow hall
    exact (Model.feasibleWithin_of_solves hT.solves_primalValues
      (le_entry (neg_nonpos.mpr hlow) hall) hlow hlevel
      feasibilityTolerance_nonneg hvalid).cut hlow (by norm_num)
  refine ⟨T.basis, T.primalValues, _, hbasis, hsolution, hT.basicAt, hlevel, rfl, hwithin, ?_⟩
  intro hleast
  have hstart := model.canonical_standardForm_tableau { rule, method }
  have hnonneg : ∀ a ∈ T.primalValues, 0 ≤ a :=
    hT.primalValues_nonneg_iff.mpr (hstart.leads_nonneg (by norm_num) hleads hleast
      (hstart.primalValues_nonneg_iff.mp start_nonneg))
  refine ⟨hnonneg, fun hsize => ?_⟩
  refine (hwithin 0 (le_refl 0) (by simpa using hnonneg)).mono (by norm_num) fun i hi => ?_
  have hrow := hsize i hi
  norm_num
  linarith

/-- A run answers with this solution, as an optimal one. -/
def Reports (opts : Options ℚ) (model : Model ℚ) (p : List ℚ) : Prop :=
  ∃ done, (run .silent opts model).outcome = .ok done ∧ done.result.status = .optimal ∧
    done.result.solution = some p

instance (opts : Options ℚ) (model : Model ℚ) (p : List ℚ) : Decidable (Reports opts model p) :=
  match h : (run .silent opts model).outcome with
  | .ok done =>
    decidable_of_iff (done.result.status = .optimal ∧ done.result.solution = some p)
      ⟨fun hdone => ⟨done, h, hdone⟩,
        fun ⟨_, hdone, hresult⟩ => Except.ok.inj (h.symm.trans hdone) ▸ hresult⟩
  | .error _ => isFalse fun ⟨_, hdone, _⟩ => by simp [h] at hdone

/-- Every pivot on `mixedModel` is of least ratio, so its optimal solution is feasible. -/
theorem optimal_verdict_mixedModel :
    Reports { rule := .bland, method := .revised } mixedModel [1, 3] ∧
      mixedModel.FeasibleWithin 1e-6 (fun _ => 1e-6) [1, 3] := by
  have hvalid : mixedModel.Valid := by decide
  have hreports : Reports { rule := .bland, method := .revised } mixedModel [1, 3] := by
    decide +kernel
  have hleast : (mixedModel.standardForm
      { rule := .bland, method := .revised }).tableau.leastAlong 1e-9 .bland 5 = true := by
    decide +kernel
  obtain ⟨done, hrun, hstatus, hsolution⟩ := hreports
  obtain ⟨basis, y, p, -, hp, -, -, -, -, hverdict⟩ := optimal_verdict .silent .bland .revised hvalid
    (StandardForm.build_eq _ hvalid) (fun _ => exactFrom_of_exactAlong (by decide +kernel)) hrun
    hstatus
  obtain rfl := Option.some.inj (hsolution.symm.trans hp)
  exact ⟨⟨done, hrun, hstatus, hsolution⟩,
    (hverdict (leastFrom_of_leastAlong hleast)).2 (by decide +kernel)⟩

/-! ## Optimal solutions that are off -/

/-- Ratios that tie: maximise `x` under `1e6 x ≤ 1e6` and `1e10 x + y = 9999999995`. -/
def closeModel : Model ℚ :=
  { sense := .max, rows := [[1e6, 0], [1e10, 1]], rhs := [1e6, 9999999995], costs := [1, 0],
    signs := [.le, .eq]
    kinds := [.nonneg, .nonneg] }

/-- An entry below the tolerance: maximise `x + 2 y` under `x ≤ 1e8` and `5e-10 x + y ≤ 0.01`. -/
def shallowModel : Model ℚ :=
  { sense := .max, rows := [[1, 0], [5e-10, 1]], rhs := [1e8, 0.01], costs := [1, 2],
    signs := [.le, .le]
    kinds := [.nonneg, .nonneg] }

/-- A value below the tolerance in a large row: `1e4 x = 5e-6`. -/
def tinyModel : Model ℚ :=
  { sense := .max, rows := [[1e4]], rhs := [5e-6], costs := [0], signs := [.eq], kinds := [.nonneg] }

/-- A coefficient that inversion skips: maximise `y` under `x = 1e10` and `9e-16 x + y ≤ 1`. -/
def driftingModel : Model ℚ :=
  { sense := .max, rows := [[1, 0], [9e-16, 1]], rhs := [1e10, 1], costs := [0, 1],
    signs := [.eq, .le]
    kinds := [.nonneg, .nonneg] }

/-- **An optimal answer does not make its solution feasible**, not up to `1e-6`: not where ratios tie
or an entry is below the tolerance, which leaves a value negative, not where a value made zero counts
in a large row, and not by the revised method where inversion is not exact. -/
theorem optimal_verdict_without_feasibility :
    (closeModel.Valid ∧ Reports {} closeModel [1, -5] ∧
      ¬ closeModel.FeasibleWithin 1e-6 (fun _ => 1e-6) [1, -5]) ∧
    (shallowModel.Valid ∧ Reports {} shallowModel [1e8, -0.04] ∧
      ¬ shallowModel.FeasibleWithin 1e-6 (fun _ => 1e-6) [1e8, -0.04]) ∧
    (tinyModel.Valid ∧ Reports {} tinyModel [0] ∧
      ¬ tinyModel.FeasibleWithin 1e-6 (fun _ => 1e-6) [0]) ∧
    (driftingModel.Valid ∧ Reports { method := .revised } driftingModel [1e10, 1] ∧
      ¬ driftingModel.FeasibleWithin 1e-6 (fun _ => 1e-6) [1e10, 1]) := by
  decide +kernel

end Simplex

end LinOpt
