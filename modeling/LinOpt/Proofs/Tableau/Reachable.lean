import LinOpt.Proofs.StandardForm.Equations
import LinOpt.Proofs.Tableau.AddedRow
import LinOpt.Proofs.Tableau.FromBasis
/-!
# Tableaux reached by pivots and added rows

From the tableau of a standard form, any pivots on entries that are not zero and any added rows lead,
in any order, to a tableau that its system and its basis determine. The system is the one of the
start with the added rows behind it (`Equations.withRows`): pivots do not change it.

Each of the two steps keeps a tableau canonical, the one for the same system and the other for the
system with the row (`Reachable.canonical`). What a canonical tableau is worth is then said once, in
`OfBasis`.
-/

namespace LinOpt

/-- The system with rows added one after the other, each with a slack that costs nothing. -/
def Equations.withRows (E : Equations) (added : List (List ℚ × ℚ)) : Equations :=
  added.foldl (fun E (coefficients, r) => E.withRow coefficients r) E

namespace Tableau

/-- **What pivots and added rows lead to** from a tableau, with the rows that were added. -/
inductive Reachable (start : Tableau ℚ) : List (List ℚ × ℚ) → Tableau ℚ → Prop
  /-- Nothing has been done. -/
  | start : Reachable start [] start
  /-- A column enters in a row where its entry is not zero. -/
  | pivot {added : List (List ℚ × ℚ)} {T : Tableau ℚ} {row col : ℕ} :
      Reachable start added T → row < T.rowCount → col < T.columnCount → T.cell row col ≠ 0 →
      Reachable start added (T.pivot row col)
  /-- A row is added that has a coefficient for each column. -/
  | addRow {added : List (List ℚ × ℚ)} {T next : Tableau ℚ} {coefficients : List ℚ} {r : ℚ}
      {name : String} :
      Reachable start added T → coefficients.length = T.columnCount →
      T.addRow coefficients r name = .ok next →
      Reachable start (added ++ [(coefficients, r)]) next

/-- **The tableau of a system at its basis.** The basic columns are distinct and can be inverted, and
every exact inverse of them computes the tableau. -/
structure OfBasis (T : Tableau ℚ) (E : Equations) : Prop where
  nodup : T.basis.Nodup
  length : T.basis.length = E.height
  lt_width : ∀ k ∈ T.basis, k < E.width
  invertible : ∃ X : Dense ℚ, X.Inverts (E.rows.columns T.basis) E.height
  matrix_eq : ∀ X : Dense ℚ, X.Inverts (E.rows.columns T.basis) E.height →
    T.matrix = E.matrixAt X T.basis
  fromBasis_eq : ∀ X : Dense ℚ, X.Inverts (E.rows.columns T.basis) E.height →
    fromBasis E.rows E.rhs E.costs T.basis X T.names = T

variable {E : Equations} {start T T' : Tableau ℚ} {added : List (List ℚ × ℚ)}

theorem Canonical.ofBasis (h : T.Canonical E) : T.OfBasis E where
  nodup := h.basis_nodup
  length := h.basis_length
  lt_width := h.basis_lt
  invertible := h.exists_exact
  matrix_eq := fun _ hX => h.matrix_eq hX
  fromBasis_eq := fun _ hX => h.fromBasis_eq hX

/-- **Every tableau on the way is canonical**, for the system with the rows added so far. -/
theorem Reachable.canonical (hstart : start.Canonical E) (h : start.Reachable added T) :
    T.Canonical (E.withRows added) := by
  induction h with
  | start => exact hstart
  | pivot _ hrow hcol hne ih =>
    exact ih.pivot (ih.rowCount_eq ▸ hrow) (ih.columnCount_eq ▸ hcol) hne
  | addRow _ hlen hadd ih =>
    rw [Equations.withRows, List.foldl_append]
    exact ih.addRow (hlen.trans ih.columnCount_eq) hadd

end Tableau

namespace Model

variable {model : Model ℚ}

/-- **Tableaux stay canonical.** What is reached from the tableau of a standard form is the tableau
of its basis, a row can be added there, and nothing else with the same rows and the same basis is
reached. -/
theorem ofBasis_of_reachable (opts : Options ℚ) (hvalid : model.Valid) (names : List String) :
    ∃ form, StandardForm.build opts model = .ok form ∧
      ∃ E : Equations, E.rows = form.rows ∧ E.rhs = form.rhs ∧ E.costs = form.costs ∧
        ∀ added T,
          (Tableau.initial form.rows form.rhs form.costs form.basis names).Reachable added T →
          T.OfBasis (E.withRows added) ∧
          (∀ coefficients : List ℚ, coefficients.length = T.columnCount →
            ∀ r name, ∃ next, T.addRow coefficients r name = .ok next) ∧
          ∀ T',
            (Tableau.initial form.rows form.rhs form.costs form.basis names).Reachable added T' →
            T'.basis = T.basis → T'.matrix = T.matrix := by
  have hcosts : (model.standardForm opts).costs.length = model.formWidth :=
    length_costs_standardForm opts
  have hstart := canonical_tableau opts hcosts names
  refine ⟨model.standardForm opts, StandardForm.build_eq opts hvalid, model.penalised opts, rfl,
    rfl, rfl, fun added T hT => ?_⟩
  have hcanonical : T.Canonical ((model.penalised opts).withRows added) := hT.canonical hstart
  refine ⟨hcanonical.ofBasis, ?_, ?_⟩
  · intro coefficients hlen r name
    exact ⟨_, hcanonical.addRow_eq (hlen.trans hcanonical.columnCount_eq) r name⟩
  · intro T' hT' hbasis
    have hcanonical' : T'.Canonical ((model.penalised opts).withRows added) := hT'.canonical hstart
    exact hcanonical.matrix_unique hcanonical' hbasis

/-- In `mixedModel`, a pivot and then a row, or the row and then the pivot, give one matrix. -/
theorem ofBasis_of_reachable_mixedModel :
    ∃ form T T', StandardForm.build {} mixedModel = .ok form ∧
      (Tableau.initial form.rows form.rhs form.costs form.basis []).Reachable
        [([1, 0, 0, 0, 0, 0, 0], 3)] T ∧
      (Tableau.initial form.rows form.rhs form.costs form.basis []).Reachable
        [([1, 0, 0, 0, 0, 0, 0], 3)] T' ∧
      T.basis = [1, 5, 6, 7] ∧ T'.matrix = T.matrix := by
  have hvalid : mixedModel.Valid := by decide
  have hstart := canonical_tableau {} (length_costs_standardForm {} : _ = mixedModel.formWidth) []
  have hlen : [(1 : ℚ), 0, 0, 0, 0, 0, 0].length = (mixedModel.penalised {}).width := by
    decide +kernel
  have hpivot : 0 < (mixedModel.penalised {}).height ∧ 1 < (mixedModel.penalised {}).width ∧
      ((mixedModel.penalised {}).tableau (mixedModel.standardForm {}).basis []).cell 0 1 ≠ 0 := by
    decide +kernel
  obtain ⟨hrow, hcol, hne⟩ := hpivot
  -- the pivot first
  have hfirst := hstart.pivot hrow hcol hne
  have hT := (Tableau.Reachable.start.pivot (hstart.rowCount_eq ▸ hrow)
    (hstart.columnCount_eq ▸ hcol) hne).addRow (hlen.trans hfirst.columnCount_eq.symm)
    (hfirst.addRow_eq hlen 3 "s")
  -- the row first
  have hadd := hstart.addRow_eq hlen 3 "s"
  have hsecond := hstart.addRow hlen hadd
  have hcell := (hstart.cell_addRow hlen hadd hrow 1).trans (slipped_of_lt hcol)
  have hT' := (Tableau.Reachable.start.addRow (hlen.trans hstart.columnCount_eq.symm) hadd).pivot
    (by rw [hsecond.rowCount_eq]; decide +kernel)
    (by rw [hsecond.columnCount_eq]; decide +kernel) (hcell.trans_ne hne)
  obtain ⟨form, hbuild, E, -, -, -, hall⟩ := ofBasis_of_reachable {} hvalid []
  obtain rfl := Except.ok.inj ((StandardForm.build_eq {} hvalid).symm.trans hbuild)
  exact ⟨_, _, _, hbuild, hT, hT', by decide +kernel, (hall _ _ hT).2.2 _ hT' (by decide +kernel)⟩

end Model

end LinOpt
