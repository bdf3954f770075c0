import LinOpt.Proofs.Integer.Gomory
/-!
# Cuts of a model that is whole

A bound cut has whole numbers, and a Gomory cut is made only where the model with the cuts so far is
nearly whole. Numbers of a cut that are nearly whole are whole (`CutAt.mem_wholes`), as it has been
moved to the integers, so that for a model that is whole the model with the cuts is, too
(`Reached.wholeData`). The run that a cut is made at ends with a tableau that is rebuilt exactly where
its basic columns are inverted exactly (`Run.InvertsExactly.tableau_eq`), and the cut is made from a
row with a value that is not whole in it (`CutAt.lt_wholeGap`). So every whole point of moderate
extent nearly meets a Gomory cut (`CutAt.dot_le_add`), and meets one that is whole (`CutAt.holds`).
-/

namespace LinOpt

open Simplex

variable {model : Model ℚ} {x s : List ℚ} {cuts : List (Cut ℚ)} {cut : Cut ℚ} {done : Run ℚ} {j : ℤ}

/-! ## Whole cuts -/

namespace Cut

/-- The numbers of a cut: its coefficients and its right-hand side. -/
def numbers (cut : Cut ℚ) : List ℚ := cut.rhs :: cut.coefficients

/-- Coefficients and right-hand side of the cut are whole. -/
def IsWhole (cut : Cut ℚ) : Prop := ∀ a ∈ cut.numbers, a ∈ wholes

instance (cut : Cut ℚ) : Decidable cut.IsWhole := inferInstanceAs (Decidable (∀ a ∈ cut.numbers, _))

end Cut

theorem mem_of_write {values ys : List ℚ} {i : ℤ} {a b : ℚ}
    (h : Position.write values i a = (.ok ys : Except (Fault ℚ) _)) (hb : b ∈ ys) :
    b ∈ values ∨ b = a := by
  unfold Position.write at h
  split at h
  · obtain rfl := Except.ok.inj h
    exact List.mem_or_eq_of_mem_set hb
  · cases h

/-- A bound cut is whole. -/
theorem isWhole_of_boundCut {n : ℕ} (h : boundCut n j s = .ok cut) :
    cut.kind = .bound ∧ cut.IsWhole := by
  unfold boundCut at h
  obtain ⟨row, hrow, h⟩ := exists_of_bind_eq_ok h
  obtain ⟨value, -, h⟩ := exists_of_bind_eq_ok h
  obtain ⟨below, -, h⟩ := exists_of_bind_eq_ok h
  obtain rfl := Except.ok.inj h
  refine ⟨rfl, fun a ha => ?_⟩
  rcases List.mem_cons.mp ha with rfl | ha
  · exact intCast_mem_wholes below
  · rcases mem_of_write hrow ha with hzero | rfl
    · rw [List.eq_of_mem_replicate hzero]
      exact zero_mem _
    · exact one_mem _

/-- **How a cut is chosen**: as the bound cut, or for a model that is nearly whole as the Gomory
cut, where that cuts the solution off. -/
theorem chooseCut_cases (h : CuttingPlane.chooseCut done j s = .ok cut) :
    boundCut done.model.variableCount j s = .ok cut ∨
      (done.model.isPureInteger = .ok true ∧ done.gomoryCut j = .ok (some cut) ∧
        cut.violatedBy s 1e-9 = .ok true) := by
  unfold CuttingPlane.chooseCut at h
  obtain ⟨pure, hpure, h⟩ := exists_of_bind_eq_ok h
  cases pure with
  | false => exact Or.inl h
  | true =>
    simp only [if_true] at h
    obtain ⟨choice, hchoice, h⟩ := exists_of_bind_eq_ok h
    cases choice with
    | none => exact Or.inl h
    | some gomory =>
      obtain ⟨violated, hviolated, h⟩ := exists_of_bind_eq_ok h
      cases violated with
      | false => exact Or.inl h
      | true =>
        obtain rfl := Except.ok.inj h
        exact Or.inr ⟨hpure, hchoice, hviolated⟩

/-! ## Models that are nearly whole -/

theorem allWhole_iff {values : List ℚ} :
    allWhole values = .ok true ↔ ∀ a ∈ values, wholeGap a ≤ 1e-9 := by
  induction values with
  | nil => simp [allWhole]
  | cons b values ih =>
    have hsnap : (fractionSnap : ℚ) = 1e-9 := rfl
    rw [allWhole, integerGap_eq, ok_bind, hsnap, List.forall_mem_cons, ← ih]
    split
    · rename_i hnear
      exact (and_iff_right hnear).symm
    · rename_i hfar
      exact iff_of_false (by simp [pure, Except.pure]) fun h => hfar h.1

/-- **What makes a model pass for whole**: its variables must be whole, and every coefficient and
right-hand side nearly is. -/
theorem Model.isPureInteger_iff : model.isPureInteger = .ok true ↔
    model.kinds.all Kind.isInteger = true ∧
      (∀ row ∈ model.rows, ∀ a ∈ row, wholeGap a ≤ 1e-9) ∧ ∀ b ∈ model.rhs, wholeGap b ≤ 1e-9 := by
  unfold isPureInteger
  split
  · rename_i hkinds
    rw [allWhole_iff, List.forall_mem_append, List.forall_mem_flatten, and_iff_right hkinds]
  · rename_i hkinds
    exact iff_of_false (by simp) fun h => hkinds h.1

theorem Model.kinds_of_isPureInteger (h : model.isPureInteger = .ok true) :
    model.kinds.all Kind.isInteger = true :=
  (isPureInteger_iff.mp h).1

/-- A model passes for whole where it does so with its cuts. -/
theorem Model.isPureInteger_of_withCuts (h : (model.withCuts cuts).isPureInteger = .ok true) :
    model.isPureInteger = .ok true := by
  obtain ⟨hkinds, hrows, hrhs⟩ := isPureInteger_iff.mp h
  exact isPureInteger_iff.mpr ⟨hkinds, fun row hrow => hrows row (List.mem_append_left _ hrow),
    fun b hb => hrhs b (List.mem_append_left _ hb)⟩

/-! ## The run that a cut is made at -/

/-- A run on a valid model keeps the model and its standard form. -/
theorem Simplex.form_of_run {observer : Observer} {opts : Options ℚ} (hvalid : model.Valid)
    (hrun : (run observer opts model).outcome = .ok done) :
    done.model = model ∧ done.form = some (model.standardForm opts) := by
  rw [outcome_run observer opts hvalid] at hrun
  obtain rfl := Except.ok.inj hrun
  cases (pivotToEnd observer opts (model.standardForm opts)).outcome with
  | ok terminal => exact ⟨rfl, rfl⟩
  | error cause => exact ⟨rfl, rfl⟩

/-- **The basic columns at the end of the run are inverted exactly.** -/
def Run.InvertsExactly (run : Run ℚ) : Prop :=
  ∃ ends, run.terminal = .ok ends ∧ (ends.1.rows.columns ends.2).InvertsExactly

instance (run : Run ℚ) : Decidable run.InvertsExactly :=
  inferInstanceAs (Decidable (∃ ends, _ = Except.ok ends ∧ _))

theorem Run.terminal_eq {run : Run ℚ} {form : StandardForm ℚ} {basis : List ℕ}
    (hform : run.form = some form) (hbasis : run.basis = some basis) :
    run.terminal = .ok (form, basis) := by
  rw [Run.terminal, hform, hbasis]

/-- A run whose basic columns are inverted has a basis. -/
theorem Run.InvertsExactly.exists_basis {run : Run ℚ} (h : run.InvertsExactly) :
    ∃ basis, run.basis = some basis := by
  obtain ⟨ends, hends, -⟩ := h
  unfold Run.terminal at hends
  split at hends
  · exact ⟨_, ‹run.basis = _›⟩
  · cases hends

theorem Run.basisInverse_eq {run : Run ℚ} {form : StandardForm ℚ} {basis : List ℕ}
    (hform : run.form = some form) (hbasis : run.basis = some basis) :
    run.basisInverse = Dense.inverse (form.rows.columns basis) := by
  rw [Run.basisInverse, Run.terminal_eq hform hbasis, ok_bind]

/-- A canonical tableau does not depend on the names of its columns. -/
theorem Tableau.Canonical.rename {E : Equations} {T : Tableau ℚ} (h : T.Canonical E)
    (names : List String) : ({ T with names } : Tableau ℚ).Canonical E :=
  ⟨h.height, h.width, h.basis_length, h.basis_lt, h.multiplier, h.unit, h.objective⟩

/-- **The tableau rebuilt at the end of a run is the one it ended with**, but for the names, where
the basic columns are inverted exactly. -/
theorem Run.InvertsExactly.tableau_eq {opts : Options ℚ} {T : Tableau ℚ} (h : done.InvertsExactly)
    (hform : done.form = some (model.standardForm opts)) (hbasis : done.basis = some T.basis)
    (hT : T.Canonical (model.penalised opts)) :
    done.tableau = .ok { T with names := (model.standardForm opts).columnNames } := by
  have hterminal := Run.terminal_eq hform hbasis
  obtain ⟨ends, hends, X, hinverse, hleft, hright⟩ := h
  obtain rfl := Except.ok.inj (hterminal.symm.trans hends)
  rw [Dense.length_columns] at hleft hright
  have hX : X.Inverts ((model.penalised opts).rows.columns T.basis) (model.penalised opts).height :=
    ⟨hleft, hright⟩
  have hrebuilt := (hT.rename (model.standardForm opts).columnNames).fromBasis_eq hX
  rw [Run.tableau, hterminal, ok_bind]
  dsimp only
  rw [Run.basisInverse_eq hform hbasis, hinverse, ok_bind]
  exact congrArg Except.ok hrebuilt

/-- The right-hand side in the row of a basic column is its value. -/
theorem Tableau.Canonical.cell_idxOf {E : Equations} {T : Tableau ℚ} {k : ℕ} (h : T.Canonical E)
    (hk : k ∈ T.basis) : T.cell (T.basis.idxOf k) E.width = entry T.primalValues k := by
  have hlt := List.idxOf_lt_length_of_mem hk
  have hbasic : T.basic (T.basis.idxOf k) = k := by
    simp [Tableau.basic, hlt]
  have hvalue := h.entry_primalValues_basic (h.basis_length ▸ hlt)
  rw [hbasic] at hvalue
  exact hvalue.symm

/-- A value that is not whole has not been made zero. -/
theorem cut_eq_of_lt_wholeGap {tol gap a : ℚ} (hgap : 0 ≤ gap)
    (h : gap < wholeGap (LinOpt.cut tol a)) : LinOpt.cut tol a = a := by
  unfold LinOpt.cut at h ⊢
  split
  · rename_i hsmall
    have hzero : wholeGap 0 = 0 := by decide +kernel
    rw [if_pos hsmall, hzero] at h
    exact absurd h (not_lt.mpr hgap)
  · rfl

namespace CuttingPlane

section At

variable (hcut : CutAt {} model cuts done s j cut) (hvalid : (model.withCuts cuts).Valid)

include hcut hvalid

theorem CutAt.cases : (cut.kind = .bound ∧ cut.IsWhole) ∨
    ((model.withCuts cuts).isPureInteger = .ok true ∧ done.gomoryCut j = .ok (some cut)) := by
  rcases chooseCut_cases hcut.choice with hbound | ⟨hpure, hgomory, -⟩
  · exact Or.inl (isWhole_of_boundCut hbound)
  · exact Or.inr ⟨(form_of_run hvalid hcut.run_eq).1 ▸ hpure, hgomory⟩

/-- The tableau that the run has ended with. -/
theorem CutAt.exists_canonical : ∃ T : Tableau ℚ,
    T.Canonical ((model.withCuts cuts).penalised {}) ∧ done.basis = some T.basis ∧
      s = (componentSums (model.withCuts cuts).components T.primalValues).map
        (LinOpt.cut 1e-9) := by
  obtain ⟨-, T, -, -, hT, hbasis, hsolution, -⟩ := exists_optimum_of_optimal {} hvalid
    (by norm_num) (by norm_num [feasibilityTolerance]) (by simp) hcut.run_eq hcut.status_eq
  exact ⟨T, hT, hbasis, Option.some.inj (hcut.solution_eq.symm.trans hsolution)⟩

/-- A number of a cut that is nearly whole is whole. -/
theorem CutAt.mem_wholes {a : ℚ} (ha : a ∈ cut.numbers) (hnear : wholeGap a ≤ 1e-9) :
    a ∈ wholes := by
  rcases hcut.cases hvalid with ⟨-, hwhole⟩ | ⟨-, hgomory⟩
  · exact hwhole a ha
  · obtain ⟨T, -, hbasis, -⟩ := hcut.exists_canonical hvalid
    obtain ⟨column, T', sum, hfrom⟩ :=
      Run.exists_cutFrom (form_of_run hvalid hcut.run_eq).2 hbasis hgomory
    rcases List.mem_cons.mp ha with rfl | ha
    · rw [hfrom.rhs_eq] at hnear ⊢
      exact integralOf_mem_wholes hnear
    · rw [hfrom.coefficients_eq] at ha
      obtain ⟨c, -, rfl⟩ := List.mem_map.mp ha
      exact integralOf_mem_wholes hnear

end At

/-- **A model with cuts that passes for whole is whole**, where that is so of the model. -/
theorem Reached.wholeData (h : Reached {} model cuts) (hvalid : model.Valid)
    (hdata : model.isPureInteger = .ok true → model.WholeData)
    (hpure : (model.withCuts cuts).isPureInteger = .ok true) :
    (model.withCuts cuts).WholeData := by
  obtain ⟨hmodelRows, hmodelRhs⟩ := hdata (Model.isPureInteger_of_withCuts hpure)
  have hcuts : ∀ cut ∈ cuts, ∀ a ∈ cut.numbers, wholeGap a ≤ 1e-9 → a ∈ wholes := by
    clear hpure
    induction h with
    | nil => simp
    | snoc hreached hcut ih =>
      intro cut hmem a ha hnear
      rcases List.mem_append.mp hmem with hold | hnew
      · exact ih cut hold a ha hnear
      · obtain rfl := List.mem_singleton.mp hnew
        exact hcut.mem_wholes (hreached.valid hvalid) ha hnear
  obtain ⟨-, hrows, hrhs⟩ := Model.isPureInteger_iff.mp hpure
  refine ⟨fun row hrow a ha => ?_, fun b hb => ?_⟩
  · rcases List.mem_append.mp hrow with hold | hnew
    · exact hmodelRows row hold a ha
    · obtain ⟨extra, hextra, rfl⟩ := List.mem_map.mp hnew
      obtain ⟨cut, hcut, rfl⟩ := List.mem_map.mp hextra
      exact hcuts cut hcut a (List.mem_cons_of_mem _ ha) (hrows _ hrow a ha)
  · rcases List.mem_append.mp hb with hold | hnew
    · exact hmodelRhs b hold
    · obtain ⟨extra, hextra, rfl⟩ := List.mem_map.mp hnew
      obtain ⟨cut, hcut, rfl⟩ := List.mem_map.mp hextra
      exact hcuts cut hcut _ List.mem_cons_self (hrhs _ hb)

/-- The column of a whole variable is its own, and its value in the last tableau is not whole. -/
theorem CutAt.lt_wholeGap {column : ℕ} {T T' : Tableau ℚ} {sum : CutSum ℚ}
    (hcut : CutAt {} model cuts done s j cut) (hvalid : (model.withCuts cuts).Valid)
    (hkinds : (model.withCuts cuts).kinds.all Kind.isInteger = true)
    (hT : T.Canonical ((model.withCuts cuts).penalised {}))
    (hsolution : s =
      (componentSums (model.withCuts cuts).components T.primalValues).map (LinOpt.cut 1e-9))
    (hfrom : done.CutFrom ((model.withCuts cuts).standardForm {}) T.basis j column T' sum cut) :
    1e-6 < wholeGap (T.cell (T.basis.idxOf column) (model.withCuts cuts).formWidth) := by
  rcases firstFractional_cases hcut.fractional with ⟨hnone, -⟩ | ⟨k, hk, hsome, -, hgap⟩
  · cases hnone
  · obtain rfl := Option.some.inj hsome
    have hlt : k < (model.withCuts cuts).variableCount :=
      Model.lt_of_mem_integerIndices hvalid.sized hk
    have hparts := Model.components_of_plain (all_isPlain_of_all_isInteger hkinds) hvalid.sized hlt
    -- the first part of the variable is column `k`
    obtain ⟨parts, sign, hread, hget⟩ := hfrom.part
    have hcount : k < ((model.withCuts cuts).standardForm {}).components.length :=
      (StandardForm.length_components hvalid.sized).symm ▸ hlt
    obtain rfl := Except.ok.inj ((position_read_eq hcount []).symm.trans hread)
    have hcolumn : column = k := by
      have hfirst : Position.get [(k, (1 : ℚ))] 0 = (.ok (column, sign) : Except (Fault ℚ) _) := by
        rw [← hparts]
        exact hget
      exact (congrArg Prod.fst (Except.ok.inj hfirst)).symm
    have hbasic := hfrom.basic
    rw [hcolumn] at hbasic ⊢
    have hvalue := hT.cell_idxOf hbasic
    rw [Model.width_penalised] at hvalue
    rw [hsolution, entry_map (cut_zero _), entry_componentSums, hparts] at hgap
    simp only [valueAt_cons, valueAt_nil, one_mul, add_zero] at hgap
    have hkept := cut_eq_of_lt_wholeGap (by norm_num) hgap
    rw [hkept] at hgap
    rw [hvalue]
    exact hgap

/-! ## What the whole points make of a Gomory cut -/

section Gomory

variable (hcut : CutAt {} model cuts done s j cut) (hreached : Reached {} model cuts)
  (hvalid : model.Valid) (hkind : cut.kind = .gomory) (hexact : done.InvertsExactly)

include hcut hreached hvalid hkind hexact

/-- **What a Gomory cut is made from**: the tableau that the run has ended with, and a row of it
whose value is not whole. -/
theorem CutAt.exists_cutFrom : done.model = model.withCuts cuts ∧
    (model.withCuts cuts).isPureInteger = .ok true ∧ ∃ column T sum,
      T.Canonical (done.model.penalised {}) ∧
      done.terminal = .ok (done.model.standardForm {}, T.basis) ∧
      done.CutFrom (done.model.standardForm {}) T.basis j column T sum cut ∧
      1e-6 < wholeGap (T.cell (T.basis.idxOf column) done.model.formWidth) := by
  have hproblem := hreached.valid hvalid
  obtain ⟨hmodel, hform⟩ := form_of_run hproblem hcut.run_eq
  rcases hcut.cases hproblem with ⟨hbound, -⟩ | ⟨hpure, hgomory⟩
  · rw [hbound] at hkind
    cases hkind
  · have hkinds := Model.kinds_of_isPureInteger hpure
    obtain ⟨T, hT, hbasis, hsolution⟩ := hcut.exists_canonical hproblem
    obtain ⟨column, T', sum, hfrom⟩ := Run.exists_cutFrom hform hbasis hgomory
    have hgap := hcut.lt_wholeGap hproblem hkinds hT hsolution hfrom
    obtain rfl := Except.ok.inj
      (hfrom.tableau_eq.symm.trans (hexact.tableau_eq hform hbasis hT))
    rw [← hmodel] at hform hT hgap hfrom
    exact ⟨hmodel, hpure, column, _, sum, hT.rename (done.model.standardForm {}).columnNames,
      Run.terminal_eq hform hbasis, hfrom, hgap⟩

variable (hdata : model.isPureInteger = .ok true → model.WholeData)
  (hx : (model.withCuts cuts).IntegerFeasible x) (hextent : (model.withCuts cuts).extent x < 1000)

include hdata hx hextent

/-- **A Gomory cut is nearly met by the whole points of moderate extent.** -/
theorem CutAt.dot_le_add : dot cut.coefficients x ≤
    cut.rhs + (1e-6 + (1e-6 + 1e-9) * (model.withCuts cuts).extent x) := by
  obtain ⟨hmodel, hpure, column, T, sum, hT, -, hfrom, hgap⟩ :=
    hcut.exists_cutFrom hreached hvalid hkind hexact
  have hproblem := hreached.valid hvalid
  have hkinds := Model.kinds_of_isPureInteger hpure
  have hwhole := hreached.wholeData hvalid hdata hpure
  rw [← hmodel] at hproblem hkinds hwhole hx hextent ⊢
  refine hfrom.dot_le_add hproblem hkinds hT hwhole hx (lt_of_lt_of_le ?_
    (wholeGap_le_one_sub_fract (T.cell (T.basis.idxOf column) done.model.formWidth)))
  have hdropped : 1e-9 * done.model.extent x < 1e-6 := by
    norm_num at hextent ⊢
    linarith
  exact hdropped.trans hgap

/-- **A whole Gomory cut is met by the whole points of moderate extent**: what they miss it by is
whole, and less than one. -/
theorem CutAt.holds (hwhole : cut.IsWhole) : cut.row.Holds x := by
  obtain ⟨-, hpure, -⟩ := hcut.exists_cutFrom hreached hvalid hkind hexact
  have hproblem := hreached.valid hvalid
  have hkinds := Model.kinds_of_isPureInteger hpure
  have hbound := hcut.dot_le_add hreached hvalid hkind hexact hdata hx hextent
  have hcoefficients : ∀ a ∈ cut.coefficients, a ∈ wholes :=
    fun a ha => hwhole a (List.mem_cons_of_mem _ ha)
  have hslack : 1e-6 + (1e-6 + 1e-9) * (model.withCuts cuts).extent x < 1 := by
    norm_num at hextent ⊢
    linarith
  exact le_of_mem_wholes (dot_mem_wholes (entry_mem_wholes hcoefficients)
    (hx.entry_mem hproblem.sized hkinds)) (hwhole _ List.mem_cons_self)
    (lt_of_le_of_lt hbound (add_lt_add_right hslack cut.rhs))

end Gomory

end CuttingPlane

end LinOpt
