import LinOpt.Proofs.Simplex.Outcome
/-!
# The optimality certificate

Where the tableau method ends at a terminal basis, no feasible point is better than the value of
that basis, up to `tol` times the total of a vector that represents the point. The value is
penalised: an artificial column that is left in the basis counts with its `-bigM`.

The bound is weak duality at the last tableau (`Canonical.dot_le_of_optimal`), read through the
standard form (`Model.dot_costs_of_represents`).
-/

namespace LinOpt

variable {observer : Observer} {opts : Options ℚ} {model : Model ℚ} {form : StandardForm ℚ}
  {terminal : Terminal ℚ}

/-- **No feasible point beats a terminal basis**, up to `tol` times the total of its vector. -/
theorem gain_le_of_iterateTableau (hvalid : model.Valid) (htol : 0 ≤ opts.tol)
    (hbuild : StandardForm.build opts model = .ok form)
    (hend : (iterateTableau observer opts form).outcome = .ok terminal) :
    ∀ p, model.Feasible p → ∀ x, form.Represents x p →
      model.sense.factor * dot model.costs p ≤
        dot (pick form.costs terminal.basis) terminal.basics + opts.tol * x.sum := by
  intro p _ x hx
  rw [StandardForm.build_eq opts hvalid] at hbuild
  obtain rfl := Except.ok.inj hbuild
  obtain ⟨k, T, -, hcanonical, hout⟩ := exists_leads_iterateTableau observer hvalid htol
  rw [hout] at hend
  obtain ⟨hmove, rfl⟩ := T.nextMove_of_verdict_eq_ok hend
  have hlen : x.length = (model.penalised opts).width := by
    rw [hx.length_eq, Model.width_penalised, Model.width_standardForm]
  have hbound := hcanonical.dot_le_of_optimal hmove hlen (Model.solves_of_represents hx) hx.nonneg
  rw [hcanonical.objectiveValue_eq_dot] at hbound
  have hgain : dot (model.penalised opts).costs x = model.gain p := Model.dot_costs_of_represents hx
  rw [hgain] at hbound
  exact hbound

/-- The bound at the terminal basis of `mixedModel`, for the feasible point that attains it. -/
theorem gain_le_mixedModel :
    (iterateTableau .silent {} (mixedModel.standardForm {})).outcome =
        .ok ⟨[0, 1, 6], [1, 3, 4], 2⟩ ∧
      mixedModel.Feasible [1, 3] ∧
      mixedModel.sense.factor * dot mixedModel.costs [1, 3] ≤
        dot (pick (mixedModel.standardForm {}).costs [0, 1, 6]) [1, 3, 4] +
          ({} : Options ℚ).tol * (mixedModel.lift [1, 3]).sum := by
  have hvalid : mixedModel.Valid := by decide
  have hend : (iterateTableau .silent {} (mixedModel.standardForm {})).outcome =
      .ok ⟨[0, 1, 6], [1, 3, 4], 2⟩ := by decide +kernel
  have hfeasible : mixedModel.Feasible [1, 3] := by decide +kernel
  exact ⟨hend, hfeasible, gain_le_of_iterateTableau hvalid (by norm_num)
    (StandardForm.build_eq {} hvalid) hend [1, 3] hfeasible _
    (Model.represents_lift {} hvalid hfeasible)⟩

end LinOpt
