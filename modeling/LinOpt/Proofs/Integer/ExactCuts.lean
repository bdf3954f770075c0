import LinOpt.Proofs.Integer.WholeCuts
import LinOpt.Proofs.Simplex.Terminal
/-!
# Gomory cuts with nothing dropped

A cut as it is reported has lost the fractions near zero or one, and its numbers have been moved to
the integers beside them. Where that has changed nothing (`Run.SnapsNothing`) it is the inequality
that the tableau row gives. At a whole point the weights of the row add up to no less than the
fraction of its right-hand side. At the basic solution they add up to nothing, as all that they
weigh is nonbasic (`fractionTotal_basicSolution`). So the whole points meet the cut, and the basic
solution misses it by that fraction (`gomoryCut_separates`), at whatever basis the run has ended.
-/

namespace LinOpt

open Simplex Finset

variable {model : Model ℚ} {opts : Options ℚ} {p row y : List ℚ} {k : ℕ}

/-! ## Exact numbers -/

/-- The fraction that is read off a value is all that it has above its floor. -/
def KeepsFraction (a : ℚ) : Prop := fractionOf a = a - a.floor

instance : DecidablePred KeepsFraction := fun a => inferInstanceAs (Decidable (fractionOf a = _))

namespace Tableau

/-- What the right-hand side of a row has above its floor. -/
def fractionAt (T : Tableau ℚ) (i : ℕ) : ℚ :=
  T.cell i T.columnCount - (T.cell i T.columnCount).floor

/-- The fractions that a cut weighs the columns with are exact. -/
def KeepsFractions (T : Tableau ℚ) (form : StandardForm ℚ) (basis : List ℕ) (i : ℕ) : Prop :=
  ∀ k < T.columnCount, k ∉ basis → k ∉ form.artificials → KeepsFraction (T.cell i k)

instance (T : Tableau ℚ) (form : StandardForm ℚ) (basis : List ℕ) (i : ℕ) :
    Decidable (T.KeepsFractions form basis i) :=
  inferInstanceAs (Decidable (∀ k < T.columnCount, _ → _ → _))

end Tableau

/-- The numbers of the cut that is made from a sum and a fraction are the exact ones. -/
def CutSum.KeepsNumbers (sum : CutSum ℚ) (f : ℚ) : Prop :=
  (∀ c ∈ sum.coefficients, integralOf (-c) = -c) ∧ integralOf (sum.constant - f) = sum.constant - f

instance (sum : CutSum ℚ) (f : ℚ) : Decidable (sum.KeepsNumbers f) :=
  inferInstanceAs (Decidable ((∀ c ∈ sum.coefficients, _) ∧ _))

/-- **Nothing is dropped and nothing is moved in the cut on a variable**: not the fractions of its
tableau row, and not the numbers of the cut. The right-hand side of the row keeps its fraction
anyway where there is a cut (`Run.CutFrom.fractionOf_eq`). -/
def Run.SnapsNothing (run : Run ℚ) (j : ℤ) : Prop :=
  ∃ ends, run.terminal = .ok ends ∧
    ∃ parts, (Position.read ends.1.components j : Except (Fault ℚ) _) = .ok parts ∧
      ∃ part, (Position.get parts 0 : Except (Fault ℚ) _) = .ok part ∧
        ∃ T, run.tableau = .ok T ∧ T.KeepsFractions ends.1 ends.2 (ends.2.idxOf part.1) ∧
          ∃ sum, cutSum ends.1 ends.2 run.model.variableCount T.columnCount
              (T.matrix.rowAt (ends.2.idxOf part.1)) = .ok sum ∧
            sum.KeepsNumbers (fractionOf (T.cell (ends.2.idxOf part.1) T.columnCount))

instance (run : Run ℚ) (j : ℤ) : Decidable (run.SnapsNothing j) :=
  inferInstanceAs (Decidable (∃ ends, _ = Except.ok ends ∧ ∃ parts, _ = Except.ok parts ∧
    ∃ part, _ = Except.ok part ∧ ∃ T, _ = Except.ok T ∧ _ ∧ ∃ sum, _ = Except.ok sum ∧ _))

/-- What is exact is exact of the tableau and of the sum that the cut was made from. -/
theorem Run.CutFrom.keeps {run : Run ℚ} {form : StandardForm ℚ} {basis : List ℕ} {j : ℤ}
    {column : ℕ} {T : Tableau ℚ} {sum : CutSum ℚ} {cut : Cut ℚ}
    (h : run.CutFrom form basis j column T sum cut) (hterminal : run.terminal = .ok (form, basis))
    (hsnap : run.SnapsNothing j) :
    T.KeepsFractions form basis (basis.idxOf column) ∧
      sum.KeepsNumbers (fractionOf (T.cell (basis.idxOf column) T.columnCount)) := by
  obtain ⟨ends, hends, parts, hparts, part, hpart, T', hT, hfractions, sum', hsum, hnumbers⟩ :=
    hsnap
  obtain ⟨parts', sign, hread, hget⟩ := h.part
  obtain rfl := Except.ok.inj (hterminal.symm.trans hends)
  obtain rfl := Except.ok.inj (hread.symm.trans hparts)
  obtain rfl := Except.ok.inj (hget.symm.trans hpart)
  obtain rfl := Except.ok.inj (h.tableau_eq.symm.trans hT)
  obtain rfl := Except.ok.inj (h.sum_eq.symm.trans hsum)
  exact ⟨hfractions, hnumbers⟩

/-! ## The columns of a vector that meets the equations -/

/-- What a slack or surplus adds to its row, where the artificial column adds nothing. -/
theorem PlacedRow.valueAt_ownEntries_of_slack {r : PlacedRow ℚ} {sign : ℚ}
    (hslack : r.slack = some (k, sign)) (hzero : ∀ l, r.artificial = some l → entry y l = 0) :
    sign ≠ 0 ∧ valueAt r.ownEntries y = sign * entry y k := by
  unfold PlacedRow.slack at hslack
  unfold PlacedRow.artificial at hzero
  unfold PlacedRow.ownEntries
  cases hsign : r.row.sign <;>
    simp only [hsign, Option.some.injEq, Prod.mk.injEq, reduceCtorEq] at hslack hzero ⊢
  case le =>
    obtain ⟨rfl, rfl⟩ := hslack
    simp
  case ge =>
    obtain ⟨rfl, rfl⟩ := hslack
    simp [hzero]

namespace Model

section Integer

variable (hsized : model.Sized) (hkinds : model.kinds.all Kind.isInteger = true)

include hsized hkinds

/-- **A vector that meets the equations without its artificial columns is the vector of a point**, of
its component sums. -/
theorem entry_lift_componentSums (hy : (model.penalised opts).Solves y)
    (hzero : ∀ l ∈ (model.standardForm opts).artificials, entry y l = 0)
    (hk : k < model.formWidth) (hnot : k ∉ (model.standardForm opts).artificials) :
    entry (model.lift (componentSums model.components y)) k = entry y k := by
  have hplain := all_isPlain_of_all_isInteger hkinds
  have hwidth := structuralWidth_eq hplain hsized
  have hlen : (componentSums model.components y).length = model.variableCount := by
    rw [length_componentSums, StandardForm.length_components hsized]
  rcases lt_or_ge k model.variableCount with hlow | hlow
  · rw [entry_lift_of_lt hplain hsized hlen hlow, entry_componentSums_of_plain hplain hsized hlow]
  · obtain ⟨r, hr, sign, hslack⟩ := exists_slack opts (hwidth.trans_le hlow) hk hnot
    obtain ⟨hsign, hown⟩ := PlacedRow.valueAt_ownEntries_of_slack (y := y) hslack
      fun l hl => hzero l (List.mem_filterMap.mpr ⟨r, hr, hl⟩)
    have hequation :=
      (solves_equations_iff opts (length_costs_standardForm opts)).mp hy r hr
    have hpart : model.structuralPart (componentSums model.components y) =
        componentSums model.components y :=
      structuralPart_eq hplain (hlen.trans hsized.kinds.symm)
    have hrow : valueAt r.row.entries (componentSums model.components y) =
        valueAt r.row.entries y :=
      valueAt_congr fun e he => entry_componentSums_of_plain hplain hsized
        (hwidth ▸ key_lt_of_mem_entries hr he)
    rw [entry_lift_slack hsized hlen hr hslack, hpart, hrow, ← hequation, hown, add_sub_cancel_left,
      mul_div_cancel_left₀ _ hsign]

/-- **The weights of a row are worth nothing at the basic solution** without artificial columns. -/
theorem fractionTotal_basicSolution {T : Tableau ℚ} (hT : T.Canonical (model.penalised opts))
    (hzero : ∀ l ∈ (model.standardForm opts).artificials, l ∈ T.basis →
      entry T.primalValues l = 0) :
    model.fractionTotal opts T.basis row (componentSums model.components T.primalValues) = 0 := by
  have hartificials : ∀ l ∈ (model.standardForm opts).artificials, entry T.primalValues l = 0 := by
    intro l hl
    by_cases hbasic : l ∈ T.basis
    · exact hzero l hl hbasic
    · exact hT.entry_primalValues_of_notMem hbasic
  refine Finset.sum_eq_zero fun k hk => ?_
  by_cases hskip : k ∈ T.basis ∨ k ∈ (model.standardForm opts).artificials
  · have hweight : cutWeight (model.standardForm opts) T.basis row k = 0 := if_pos hskip
    rw [hweight, zero_mul]
  · obtain ⟨hbasic, hnot⟩ := not_or.mp hskip
    rw [entry_lift_componentSums hsized hkinds hT.solves_primalValues hartificials
      (mem_range.mp hk) hnot, hT.entry_primalValues_of_notMem hbasic, mul_zero]

end Integer

end Model

/-! ## Exact cuts -/

namespace Run.CutFrom

variable {run : Run ℚ} {T : Tableau ℚ} {sum : CutSum ℚ} {cut : Cut ℚ} {column : ℕ} {j : ℤ}
  (h : run.CutFrom (run.model.standardForm opts) T.basis j column T sum cut)
  (hnumbers : sum.KeepsNumbers (fractionOf (T.cell (T.basis.idxOf column) T.columnCount)))

include h

theorem fractionOf_eq : fractionOf (T.cell (T.basis.idxOf column) T.columnCount) =
    T.fractionAt (T.basis.idxOf column) :=
  fractionOf_eq_of_ne_zero h.fraction_ne

theorem fractionAt_pos : 0 < T.fractionAt (T.basis.idxOf column) := by
  rw [← h.fractionOf_eq]
  exact lt_of_le_of_ne (fractionOf_nonneg _) h.fraction_ne.symm

include hnumbers

/-- **An exact cut is the inequality of its sum**: at every point, the two sides of the cut differ by
what the sum differs by from the fraction. -/
theorem dot_sub_rhs_eq (x : List ℚ) : dot cut.coefficients x - cut.rhs =
    T.fractionAt (T.basis.idxOf column) - sum.value x := by
  have hcoefficients : cut.coefficients = sum.coefficients.map (-·) := by
    rw [h.coefficients_eq]
    exact List.map_congr_left hnumbers.1
  rw [h.rhs_eq, hnumbers.2, hcoefficients, dot_map_neg, h.fractionOf_eq, CutSum.value]
  ring

variable (hvalid : run.model.Valid) (hkinds : run.model.kinds.all Kind.isInteger = true)
  (hT : T.Canonical (run.model.penalised opts))

include hvalid hkinds hT

/-- Every whole point meets an exact cut. -/
theorem holds_of_exact {x : List ℚ}
    (hfractions : T.KeepsFractions (run.model.standardForm opts) T.basis (T.basis.idxOf column))
    (hdata : run.model.WholeData) (hx : run.model.IntegerFeasible x) :
    dot cut.coefficients x ≤ cut.rhs := by
  have hi : T.basis.idxOf column < (run.model.penalised opts).height := by
    rw [← hT.basis_length]
    exact List.idxOf_lt_length_of_mem h.basic
  have hcount : T.columnCount = run.model.formWidth :=
    hT.columnCount_eq.trans (Model.width_penalised opts)
  have hexact : Model.FractionsWithin opts run.model T.basis
      (T.matrix.rowAt (T.basis.idxOf column)) 0 := by
    intro k hk hbasic hnot
    have hkept : fractionOf (entry (T.matrix.rowAt (T.basis.idxOf column)) k) = _ :=
      hfractions k (hcount ▸ hk) hbasic hnot
    exact ⟨(T.cell (T.basis.idxOf column) k).floor, by rw [hkept]; simp [Tableau.cell, Dense.cell]⟩
  have hhigh := Rat.lt_floor_add_one (T.cell (T.basis.idxOf column) run.model.formWidth)
  have hbelow := Model.fraction_le_fractionTotal hvalid hkinds hdata hT hi (le_refl 0) hexact hx
    (by push_cast at hhigh; linarith)
  rw [← h.value_eq hvalid hkinds hT hx.feasible.length_eq] at hbelow
  have hsides := h.dot_sub_rhs_eq hnumbers x
  rw [Tableau.fractionAt, hcount] at hsides
  linarith

/-- **The basic solution misses an exact cut by the fraction it was made from**, where no artificial
column is above zero. -/
theorem dot_basicSolution (hzero : ∀ l ∈ (run.model.standardForm opts).artificials,
    l ∈ T.basis → entry T.primalValues l = 0) :
    dot cut.coefficients (componentSums run.model.components T.primalValues) =
      cut.rhs + T.fractionAt (T.basis.idxOf column) := by
  have hlen : (componentSums run.model.components T.primalValues).length =
      run.model.variableCount := by
    rw [length_componentSums, StandardForm.length_components hvalid.sized]
  have hsides := h.dot_sub_rhs_eq hnumbers
    (componentSums run.model.components T.primalValues)
  rw [h.value_eq hvalid hkinds hT hlen,
    Model.fractionTotal_basicSolution hvalid.sized hkinds hT hzero] at hsides
  linarith

end Run.CutFrom

/-- **A cut of the cutting-plane method with nothing dropped is met by every whole point** that has
met the cuts so far. -/
theorem CuttingPlane.CutAt.holds_of_exact {done : Run ℚ} {cuts : List (Cut ℚ)} {cut : Cut ℚ}
    {j : ℤ} {s x : List ℚ} (hcut : CutAt {} model cuts done s j cut)
    (hreached : Reached {} model cuts) (hvalid : model.Valid) (hkind : cut.kind = .gomory)
    (hexact : done.InvertsExactly) (hdata : model.isPureInteger = .ok true → model.WholeData)
    (hsnap : done.SnapsNothing cut.variableIndex)
    (hx : (model.withCuts cuts).IntegerFeasible x) : cut.row.Holds x := by
  obtain ⟨hmodel, hpure, column, T, sum, hT, hterminal, hfrom, -⟩ :=
    hcut.exists_cutFrom hreached hvalid hkind hexact
  have hproblem := hreached.valid hvalid
  have hkinds := Model.kinds_of_isPureInteger hpure
  have hwhole := hreached.wholeData hvalid hdata hpure
  rw [hfrom.variableIndex_eq] at hsnap
  rw [← hmodel] at hproblem hkinds hwhole hx
  obtain ⟨hfractions, hnumbers⟩ := hfrom.keeps hterminal hsnap
  exact hfrom.holds_of_exact hnumbers hproblem hkinds hT hfractions hwhole hx

namespace Simplex

variable {observer : Observer} {done : Run ℚ} {cut : Cut ℚ} {j : ℤ}

/-- A run that ends with basic columns that are inverted exactly rebuilds a canonical tableau. -/
theorem exists_tableau_of_invertsExactly (hvalid : model.Valid)
    (hrun : (run observer opts model).outcome = .ok done) (hexact : done.InvertsExactly) :
    ∃ T : Tableau ℚ, T.Canonical (model.penalised opts) ∧ done.basis = some T.basis ∧
      done.tableau = .ok T := by
  have hform := (form_of_run hvalid hrun).2
  obtain ⟨basis, hbasis⟩ := hexact.exists_basis
  have hfits := fits_of_run hvalid hrun hbasis
  obtain ⟨ends, hends, X, -, hleft, hright⟩ := id hexact
  obtain rfl := Except.ok.inj ((Run.terminal_eq hform hbasis).symm.trans hends)
  rw [Dense.length_columns] at hleft hright
  have hwidth : (model.standardForm opts).width = (model.penalised opts).width := rfl
  obtain ⟨T, hT, rfl⟩ := Tableau.exists_canonical_of_inverts (E := model.penalised opts)
    ⟨hleft, hright⟩ hfits.length_eq fun k hk => hwidth ▸ hfits.lt_width k hk
  exact ⟨_, hT.rename (model.standardForm opts).columnNames, hbasis,
    hexact.tableau_eq hform hbasis hT⟩

/-- **A Gomory cut separates the basic solution from the whole points**, for a model that is whole,
where the basic columns are inverted exactly and the cut is made of exact numbers. Whatever basis
the run has ended at, and whichever variable the cut is made for, the whole points meet it; and the
basic solution misses it by the fraction of the tableau row, which is above zero, unless an
artificial column is left above zero. -/
theorem gomoryCut_separates (hvalid : model.Valid)
    (hkinds : model.kinds.all Kind.isInteger = true) (hdata : model.WholeData)
    (hrun : (run observer opts model).outcome = .ok done) (hexact : done.InvertsExactly)
    (hcut : done.gomoryCut j = .ok (some cut)) (hsnap : done.SnapsNothing j) :
    (∀ x, model.IntegerFeasible x → dot cut.coefficients x ≤ cut.rhs) ∧
      ∃ basis column T sum, done.basis = some basis ∧
        done.CutFrom (model.standardForm opts) basis j column T sum cut ∧
        0 < T.fractionAt (basis.idxOf column) ∧
        ((∀ k ∈ (model.standardForm opts).artificials, k ∈ basis → entry T.primalValues k = 0) →
          dot cut.coefficients (componentSums model.components T.primalValues) =
            cut.rhs + T.fractionAt (basis.idxOf column)) := by
  obtain ⟨rfl, hform⟩ := form_of_run hvalid hrun
  obtain ⟨T, hT, hbasis, htableau⟩ := exists_tableau_of_invertsExactly hvalid hrun hexact
  obtain ⟨column, T', sum, hfrom⟩ := Run.exists_cutFrom hform hbasis hcut
  obtain rfl := Except.ok.inj (htableau.symm.trans hfrom.tableau_eq)
  obtain ⟨hfractions, hnumbers⟩ := hfrom.keeps (Run.terminal_eq hform hbasis) hsnap
  exact ⟨fun x hx => hfrom.holds_of_exact hnumbers hvalid hkinds hT hfractions hdata hx,
    T.basis, column, T, sum, hbasis, hfrom, hfrom.fractionAt_pos,
    hfrom.dot_basicSolution hnumbers hvalid hkinds hT⟩

/-- Rows of every relation, one of them flipped: maximise `x + 2 y + 3 z` under
`2 x + 3 y + 2 z = 9`, `-2 x - y ≤ -2`, `x + y + z ≥ 1` and `3 x + 5 y + z ≤ 14`, with `z` binary. -/
def motleyModel : Model ℚ :=
  { sense := .max, rows := [[2, 3, 2], [-2, -1, 0], [1, 1, 1], [3, 5, 1]], rhs := [9, -2, 1, 14]
    costs := [1, 2, 3], signs := [.eq, .le, .ge, .le], kinds := [.int, .int, .bin] }

/-- The cut `-2/3 x + 1/3 z ≤ 0` of `motleyModel`, which `(0, 7/3, 1)` misses by a third. -/
theorem gomoryCut_separates_motleyModel : ∃ done cut,
    (run .silent {} motleyModel).outcome = .ok done ∧ done.gomoryCut 1 = .ok (some cut) ∧
      (∀ x, motleyModel.IntegerFeasible x → dot cut.coefficients x ≤ cut.rhs) ∧
      motleyModel.IntegerFeasible [3, 1, 0] ∧ dot cut.coefficients [0, 7 / 3, 1] = 1 / 3 ∧
      ∃ f, 0 < f ∧ dot cut.coefficients [0, 7 / 3, 1] = cut.rhs + f := by
  have hvalid : motleyModel.Valid := by decide
  have hpoint : motleyModel.IntegerFeasible [3, 1, 0] := by decide +kernel
  have hends : ∃ done, (run .silent {} motleyModel).outcome = .ok done ∧ done.InvertsExactly ∧
      done.SnapsNothing 1 ∧
      done.gomoryCut 1 = .ok (some ⟨.gomory, [-2 / 3, 0, 1 / 3], 0, [0, 7 / 3, 1], 1⟩) ∧
      ∃ T, done.tableau = .ok T ∧
        (∀ k ∈ (motleyModel.standardForm {}).artificials, entry T.primalValues k = 0) ∧
        componentSums motleyModel.components T.primalValues = [0, 7 / 3, 1] := by decide +kernel
  obtain ⟨done, hrun, hexact, hsnap, hcut, T, htableau, hzero, hsolution⟩ := hends
  obtain ⟨hkeeps, basis, column, T', sum, -, hfrom, hpos, hmiss⟩ := gomoryCut_separates hvalid
    (by decide) (by decide +kernel) hrun hexact hcut hsnap
  obtain rfl := Except.ok.inj (htableau.symm.trans hfrom.tableau_eq)
  have hmissed := hmiss fun k hk _ => hzero k hk
  rw [hsolution] at hmissed
  exact ⟨done, _, hrun, hcut, hkeeps, hpoint, by decide +kernel, _, hpos, hmissed⟩

end Simplex

end LinOpt
