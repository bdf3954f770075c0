import LinOpt.Proofs.Integer.Accepted
import LinOpt.Proofs.Integer.ExactCuts
/-!
# What an answer by cuts is worth

The answer is about the model with its cuts: no point that meets them is worth more than an integer
solution, up to the tolerances (`Accepts.gain_le`), and an infeasible relaxation overlooks those
that there are. What remains is which points of the model meet the cuts. A bound cut keeps what it
keeps. A Gomory cut keeps the whole points where nothing has been dropped in it, and those of
moderate extent where it is whole (`SoundAt.holds`), so by induction on the cuts only bound cuts take
such points away (`Reached.integerFeasible`). Any other Gomory cut is nearly met by them
(`Reached.nearlyMeets`). Gomory cuts are made where the model passes for whole
(`Model.isPureInteger`), so what is asked of the model is that it then is.

`verdict_within_cuts` puts this together. `verdict_against_integer_points` has models whose integer
points are lost: to a bound cut, to data that are only nearly whole, and to the tolerances of the
relaxation.
-/

namespace LinOpt

open Simplex

variable {model : Model ℚ} {x s : List ℚ} {cuts : List (Cut ℚ)} {cut : Cut ℚ}

namespace CuttingPlane

/-! ## The points that the cuts keep -/

/-- **A Gomory cut of the problem is sound at a point**: it is made at basic columns that are
inverted exactly, and nothing is dropped or moved in it, or it has come out whole and the point is of
moderate extent. -/
def SoundAt (problem : Model ℚ) (cut : Cut ℚ) (x : List ℚ) : Prop :=
  ∃ done, (run .silent {} problem).outcome = .ok done ∧ done.InvertsExactly ∧
    (done.SnapsNothing cut.variableIndex ∨ cut.IsWhole ∧ problem.extent x < 1000)

/-- Every Gomory cut is sound at the point, as a cut of the model with the cuts before it. -/
def SoundCuts (model : Model ℚ) (cuts : List (Cut ℚ)) (x : List ℚ) : Prop :=
  ∀ i (hi : i < cuts.length), cuts[i].kind = .gomory →
    SoundAt (model.withCuts (cuts.take i)) cuts[i] x

instance (problem : Model ℚ) (cut : Cut ℚ) (x : List ℚ) : Decidable (SoundAt problem cut x) :=
  inferInstanceAs (Decidable (∃ done, _ = Except.ok done ∧ _))

instance (model : Model ℚ) (cuts : List (Cut ℚ)) (x : List ℚ) :
    Decidable (SoundCuts model cuts x) :=
  inferInstanceAs (Decidable (∀ i (_ : i < cuts.length), _ → _))

/-- The point is beyond a cut of the problem by no more than what has been dropped and moved in it
makes of its extent. -/
def NearlyMeets (problem : Model ℚ) (cut : Cut ℚ) (x : List ℚ) : Prop :=
  dot cut.coefficients x ≤ cut.rhs + (1e-6 + (1e-6 + 1e-9) * problem.extent x)

instance (problem : Model ℚ) (cut : Cut ℚ) (x : List ℚ) : Decidable (NearlyMeets problem cut x) :=
  inferInstanceAs (Decidable (_ ≤ _))

/-- What is asked of every entry of a list and the entries before it, for a list with one entry
more. -/
theorem forall_take_snoc_iff {β : Type} (P : List β → β → Prop) {xs : List β} {x : β} :
    (∀ i (hi : i < (xs ++ [x]).length), P ((xs ++ [x]).take i) (xs ++ [x])[i]) ↔
      (∀ i (hi : i < xs.length), P (xs.take i) xs[i]) ∧ P xs x := by
  have hlength : (xs ++ [x]).length = xs.length + 1 := List.length_append
  have hend : xs.length < (xs ++ [x]).length := by omega
  have hlast : P ((xs ++ [x]).take xs.length) (xs ++ [x])[xs.length] ↔ P xs x := by
    rw [List.take_left, List.getElem_concat_length rfl]
  have hbefore : ∀ i (hi : i < xs.length) (_ : i < (xs ++ [x]).length),
      P ((xs ++ [x]).take i) (xs ++ [x])[i] ↔ P (xs.take i) xs[i] := by
    intro i hi _
    rw [List.take_append_of_le_length (le_of_lt hi), List.getElem_append_left hi]
  constructor
  · intro h
    exact ⟨fun i hi => (hbefore i hi (by omega)).mp (h i _), hlast.mp (h xs.length _)⟩
  · rintro ⟨hall, hx⟩ i hi
    rcases Nat.lt_or_ge i xs.length with hlt | hge
    · exact (hbefore i hlt hi).mpr (hall i hlt)
    · obtain rfl : i = xs.length := by simp at hi; omega
      exact hlast.mpr hx

/-- A cut is met by the whole points that it is sound at. -/
theorem SoundAt.holds {done : Run ℚ} {j : ℤ} (h : SoundAt (model.withCuts cuts) cut x)
    (hcut : CutAt {} model cuts done s j cut) (hreached : Reached {} model cuts)
    (hvalid : model.Valid) (hkind : cut.kind = .gomory)
    (hdata : model.isPureInteger = .ok true → model.WholeData)
    (hx : (model.withCuts cuts).IntegerFeasible x) : cut.row.Holds x := by
  obtain ⟨done', hrun, hexact, hsnap | ⟨hwhole, hextent⟩⟩ := h
  all_goals obtain rfl := Except.ok.inj (hrun.symm.trans hcut.run_eq)
  · exact hcut.holds_of_exact hreached hvalid hkind hexact hdata hsnap hx
  · exact hcut.holds hreached hvalid hkind hexact hdata hx hextent hwhole

/-- **What the cuts leave of the whole points.** Unless the model only passes for whole, they keep
every whole point that meets the bound cuts, where the Gomory cuts are sound at it. -/
theorem Reached.integerFeasible (h : Reached {} model cuts) (hvalid : model.Valid)
    (hdata : model.isPureInteger = .ok true → model.WholeData) (hsound : SoundCuts model cuts x)
    (hx : model.IntegerFeasible x)
    (hbounds : ∀ cut ∈ cuts, cut.kind = .bound → cut.row.Holds x) :
    (model.withCuts cuts).IntegerFeasible x := by
  induction h with
  | nil =>
    rw [Model.withCuts_nil]
    exact hx
  | @snoc cuts done s j cut hreached hcut ih =>
    obtain ⟨hbefore, hlast⟩ :=
      (forall_take_snoc_iff fun (earlier : List (Cut ℚ)) (cut : Cut ℚ) =>
        cut.kind = .gomory → SoundAt (model.withCuts earlier) cut x).mp hsound
    have hkept := ih hbefore fun cut hmem => hbounds cut (List.mem_append_left _ hmem)
    rw [Model.withCuts_append]
    refine (Model.integerFeasible_extend_iff (hreached.valid hvalid).sized).mpr
      ⟨hkept, fun row hrow => ?_⟩
    obtain rfl := List.mem_singleton.mp hrow
    cases hkind : cut.kind with
    | bound => exact hbounds cut (by simp) hkind
    | gomory => exact (hlast hkind).holds hcut hreached hvalid hkind hdata hkept

/-- **No Gomory cut is missed by much**, unless the model only passes for whole: the whole points of
moderate extent that meet the cuts before it nearly meet it, where it is made at basic columns that
are inverted exactly. -/
theorem Reached.nearlyMeets (h : Reached {} model cuts) (hvalid : model.Valid)
    (hdata : model.isPureInteger = .ok true → model.WholeData) :
    ∀ i (hi : i < cuts.length), cuts[i].kind = .gomory →
      ∀ done, (run .silent {} (model.withCuts (cuts.take i))).outcome = .ok done →
        done.InvertsExactly → (model.withCuts (cuts.take i)).IntegerFeasible x →
        (model.withCuts (cuts.take i)).extent x < 1000 →
        NearlyMeets (model.withCuts (cuts.take i)) cuts[i] x := by
  induction h with
  | nil => simp
  | @snoc cuts done s j cut hreached hcut ih =>
    refine (forall_take_snoc_iff fun (earlier : List (Cut ℚ)) (cut : Cut ℚ) =>
      cut.kind = .gomory → ∀ done, (run .silent {} (model.withCuts earlier)).outcome = .ok done →
        done.InvertsExactly → (model.withCuts earlier).IntegerFeasible x →
        (model.withCuts earlier).extent x < 1000 →
        NearlyMeets (model.withCuts earlier) cut x).mpr ⟨ih, ?_⟩
    intro hkind done' hrun hexact hx hextent
    obtain rfl := Except.ok.inj (hrun.symm.trans hcut.run_eq)
    exact hcut.dot_le_add hreached hvalid hkind hexact hdata hx hextent

end CuttingPlane

/-! ## What an answer says of the points that are kept -/

section Gain

variable {more : List ExtraRow} {y p : List ℚ} (h : Accepts {} model more y s p)
  (hx : (model.extend more).Feasible x)

include h hx

/-- **No point of the problem is worth more than the accepted one**, up to the tolerances, what the
move to the integers costs, and the penalty of what is left in the artificial columns. -/
theorem Accepts.gain_le : model.gain x ≤ model.gain p +
    1e-9 * ((model.extend more).extent x + model.costSize) + spread model.costs s p -
      1e6 * ((model.extend more).standardForm {}).artificialTotal y := by
  obtain ⟨done, -, -, hoptimum⟩ := h.optimum
  have hbound := hoptimum.gain_le_solution (by norm_num) hx
  have hmove := model.gain_le_add_spread s p
  have htol : ({} : Options ℚ).tol = 1e-9 := rfl
  have hpenalty : ({} : Options ℚ).bigM = 1e6 := rfl
  have hcosts : (model.extend more).costSize = model.costSize := rfl
  rw [htol, hpenalty, hcosts, Model.gain_extend, Model.gain_extend] at hbound
  linarith

/-- Where every pivot was of least ratio the penalty is not negative, and the point is an optimum up
to `1e-6` as long as the tolerances and the move are small. -/
theorem Accepts.gain_le_of_least (hleast : LeastThroughout {} (model.extend more))
    (hsmall : 1e-9 * ((model.extend more).extent x + model.costSize) +
      spread model.costs s p ≤ 1e-6) : model.gain x ≤ model.gain p + 1e-6 := by
  obtain ⟨done, -, -, hoptimum⟩ := h.optimum
  have hbound := h.gain_le hx
  have htotal : 0 ≤ ((model.extend more).standardForm {}).artificialTotal y :=
    StandardForm.artificialTotal_nonneg (entry_nonneg (hoptimum.nonneg hleast))
  have hpenalty : 0 ≤ 1e6 * ((model.extend more).standardForm {}).artificialTotal y :=
    mul_nonneg (by norm_num) htotal
  linarith

end Gain

namespace CuttingPlane

/-- **What an answer of the cutting-plane method is worth.** It is about the model with the cuts.
Where it is an integer solution, no integer point that meets the cuts is worth more, up to the
tolerances, the move to the integers and the penalty; where it is infeasible, the last relaxation
overlooks every such point. Unless the model passes for whole and is not, the Gomory cuts are met by
the integer points that they are sound at, so that of those only the bound cuts take any away; and
made at basic columns that are inverted exactly, a Gomory cut is nearly met by every integer point of
moderate extent that has met the cuts before it. -/
theorem verdict_within_cuts (observer : Observer) (hvalid : model.Valid) {outcome : CutOutcome ℚ}
    (hsearch : (search observer {} model).outcome = .ok outcome) :
    (outcome.result.status = .optimalInteger →
      ∃ y s p, outcome.result.solution = some p ∧
        Accepts {} model (outcome.cuts.map Cut.row) y s p ∧
        ∀ x, (model.withCuts outcome.cuts).IntegerFeasible x →
          model.gain x ≤ model.gain p +
            1e-9 * ((model.withCuts outcome.cuts).extent x + model.costSize) +
            spread model.costs s p -
            1e6 * ((model.withCuts outcome.cuts).standardForm {}).artificialTotal y ∧
          (LeastThroughout {} (model.withCuts outcome.cuts) →
            1e-9 * ((model.withCuts outcome.cuts).extent x + model.costSize) +
              spread model.costs s p ≤ 1e-6 → model.gain x ≤ model.gain p + 1e-6)) ∧
    (outcome.result.status = .infeasible →
      ∃ done, (run .silent {} (model.withCuts outcome.cuts)).outcome = .ok done ∧
        done.result.status = .infeasible ∧
        ∀ x, (model.withCuts outcome.cuts).IntegerFeasible x →
          Overlooks {} (model.withCuts outcome.cuts) done x) ∧
    ((model.isPureInteger = .ok true → model.WholeData) →
      (∀ x, model.IntegerFeasible x → SoundCuts model outcome.cuts x →
        (∀ cut ∈ outcome.cuts, cut.kind = .bound → cut.row.Holds x) →
        (model.withCuts outcome.cuts).IntegerFeasible x) ∧
      ∀ i (hi : i < outcome.cuts.length), outcome.cuts[i].kind = .gomory →
        ∀ done, (run .silent {} (model.withCuts (outcome.cuts.take i))).outcome = .ok done →
          done.InvertsExactly →
          ∀ x, (model.withCuts (outcome.cuts.take i)).IntegerFeasible x →
            (model.withCuts (outcome.cuts.take i)).extent x < 1000 →
            NearlyMeets (model.withCuts (outcome.cuts.take i)) outcome.cuts[i] x) := by
  have hends := ends_search hsearch
  have hreached : Reached {} model outcome.cuts := hends.reached
  refine ⟨fun hstatus => ?_, fun hstatus => ?_, fun hdata => ⟨fun x hx hsound hbounds => ?_,
    fun i hi hkind done hrun hexact x => ?_⟩⟩
  · cases hends with
    | whole hreached hrun hoptimal hs hchoice hround =>
      obtain ⟨y, haccepts⟩ :=
        exists_accepts_of_whole hvalid hreached hrun hoptimal hs hchoice hround
      refine ⟨y, _, _, rfl, haccepts, fun x hx => ⟨haccepts.gain_le hx.feasible, ?_⟩⟩
      exact haccepts.gain_le_of_least hx.feasible
    | limit => simp [Result.solved] at hstatus
    | @stopped cuts done count hreached hrun hother =>
      rcases answer_cases {} (hreached.valid hvalid) (by norm_num) (by simp) hrun with
        ⟨hanswer, -⟩ | ⟨hanswer, -⟩ | hanswer | hanswer <;> simp [Result.failed, hanswer] at hstatus
    | failed => simp [Result.failed] at hstatus
  · cases hends with
    | whole => simp [Result.solved] at hstatus
    | limit => simp [Result.solved] at hstatus
    | @stopped cuts done count hreached hrun hother =>
      have hinfeasible : done.result.status = .infeasible := hstatus
      refine ⟨done, hrun, hinfeasible, fun x hx => ?_⟩
      exact overlooks_of_infeasible {} (hreached.valid hvalid) (by norm_num) (by simp) hrun
        hinfeasible hx.feasible
    | failed => simp [Result.failed] at hstatus
  · exact hreached.integerFeasible hvalid hdata hsound hx hbounds
  · exact hreached.nearlyMeets hvalid hdata i hi hkind done hrun hexact

/-! ## Answers that cuts and tolerances make wrong -/

/-- The cutting-plane method calls the model infeasible. -/
def CallsInfeasible (opts : Options ℚ) (model : Model ℚ) : Prop :=
  ∃ outcome, (search .silent opts model).outcome = .ok outcome ∧
    outcome.result.status = .infeasible

instance (opts : Options ℚ) (model : Model ℚ) : Decidable (CallsInfeasible opts model) :=
  inferInstanceAs (Decidable (∃ outcome, _ = Except.ok outcome ∧ _))

/-- Two Gomory cuts lead to `(1, 1)`: maximise `y` under `3 x + 2 y ≤ 6` and `2 y ≤ 3 x`, both
whole. -/
def wedgeModel : Model ℚ :=
  { sense := .max, rows := [[3, 2], [-3, 2]], rhs := [6, 0], costs := [0, 1], signs := [.le, .le]
    kinds := [.int, .int] }

/-- The bound cut `x ≤ 0` leaves no point: minimise `x` under `2 x - y = 1`, with `x` whole. -/
def oddModel : Model ℚ :=
  { sense := .min, rows := [[2, -1]], rhs := [1], costs := [1, 0], signs := [.eq]
    kinds := [.int, .nonneg] }

/-- The bound cut `x ≤ 0` leaves a worse point: minimise `x + 10 w` under `2 x - y + w = 1`, with
`x` whole. -/
def detourModel : Model ℚ :=
  { sense := .min, rows := [[2, -1, 1]], rhs := [1], costs := [1, 0, 10], signs := [.eq]
    kinds := [.int, .nonneg, .nonneg] }

/-- A coefficient that is taken for whole: maximise `x` under `2 x - 5e-10 y ≤ 1`, both whole. -/
def grainyModel : Model ℚ :=
  { sense := .max, rows := [[2, -5e-10]], rhs := [1], costs := [1, 0], signs := [.le]
    kinds := [.int, .int] }

/-- A coefficient below the tolerance: `1e-10 x ≥ 1`, with `x` whole. -/
def faintModel : Model ℚ :=
  { sense := .max, rows := [[1e-10]], rhs := [1], costs := [0], signs := [.ge], kinds := [.int] }

/-- A cost below the tolerance: maximise `5e-10 x` under `0.001 x ≤ 100`, with `x` whole. -/
def cheapModel : Model ℚ :=
  { sense := .max, rows := [[0.001]], rhs := [100], costs := [5e-10], signs := [.le]
    kinds := [.int] }

/-- A Gomory cut with halves in it, `- 1/2 y ≤ - 1/2`: maximise `x` under `2 x + 3 y = 7`, both
whole. -/
def sevenModel : Model ℚ :=
  { sense := .max, rows := [[2, 3]], rhs := [7], costs := [1, 0], signs := [.eq]
    kinds := [.int, .int] }

/-- What the theorem says of `wedgeModel`, where two whole Gomory cuts keep `(1, 0)` and `(1, 1)` is
an optimum, and of `sevenModel`, where the only cut is not whole and keeps `(2, 1)`. -/
theorem verdict_within_cuts_wedgeModel :
    (∃ outcome, (search .silent {} wedgeModel).outcome = .ok outcome ∧
      outcome.cuts.map Cut.kind = [.gomory, .gomory] ∧
      (wedgeModel.withCuts outcome.cuts).IntegerFeasible [1, 0] ∧
      ∃ y s, Accepts {} wedgeModel (outcome.cuts.map Cut.row) y s [1, 1] ∧
        wedgeModel.gain [1, 0] ≤ wedgeModel.gain [1, 1] + 1e-6) ∧
    ∃ outcome, (search .silent {} sevenModel).outcome = .ok outcome ∧
      outcome.cuts.map Cut.kind = [.gomory] ∧ (∀ cut ∈ outcome.cuts, ¬ cut.IsWhole) ∧
      (sevenModel.withCuts outcome.cuts).IntegerFeasible [2, 1] := by
  have hwedge : ∃ outcome, (search .silent {} wedgeModel).outcome = .ok outcome ∧
      outcome.result.status = .optimalInteger ∧ outcome.result.solution = some [1, 1] ∧
      outcome.cuts.map Cut.kind = [.gomory, .gomory] ∧ SoundCuts wedgeModel outcome.cuts [1, 0] ∧
      (∀ cut ∈ outcome.cuts, cut.kind = .bound → cut.row.Holds [1, 0]) ∧
      ((wedgeModel.withCuts outcome.cuts).standardForm {}).tableau.leastAlong 1e-9 .dantzig 10 ∧
      (∃ done, (run .silent {} (wedgeModel.withCuts outcome.cuts)).outcome = .ok done ∧
        done.result.solution = some [1, 1]) ∧
      1e-9 * ((wedgeModel.withCuts outcome.cuts).extent [1, 0] + wedgeModel.costSize) +
        spread wedgeModel.costs [1, 1] [1, 1] ≤ 1e-6 := by decide +kernel
  have hseven : ∃ outcome, (search .silent {} sevenModel).outcome = .ok outcome ∧
      outcome.cuts.map Cut.kind = [.gomory] ∧ (∀ cut ∈ outcome.cuts, ¬ cut.IsWhole) ∧
      SoundCuts sevenModel outcome.cuts [2, 1] ∧
      ∀ cut ∈ outcome.cuts, cut.kind = .bound → cut.row.Holds [2, 1] := by decide +kernel
  refine ⟨?_, ?_⟩
  · obtain ⟨outcome, hsearch, hstatus, hsolution, hkinds, hsound, hbounds, hleast,
      ⟨done, hrun, hdone⟩, hsmall⟩ := hwedge
    obtain ⟨hoptimal, -, hwhole⟩ := verdict_within_cuts .silent (by decide) hsearch
    have hkept := (hwhole fun _ => by decide +kernel).1 [1, 0] (by decide +kernel) hsound hbounds
    obtain ⟨y, s, p, hp, haccepts, hgain⟩ := hoptimal hstatus
    obtain rfl := Option.some.inj (hsolution.symm.trans hp)
    -- the relaxation has one run, and so one solution
    obtain ⟨done', hrun', -, hoptimum⟩ := haccepts.optimum
    obtain rfl := Except.ok.inj (hrun.symm.trans hrun')
    obtain rfl := Option.some.inj (hdone.symm.trans hoptimum.solution_eq)
    exact ⟨outcome, hsearch, hkinds, hkept, y, _, haccepts,
      (hgain _ hkept).2 (Tableau.leastFrom_of_leastAlong hleast) hsmall⟩
  · obtain ⟨outcome, hsearch, hkinds, hhalves, hsound, hbounds⟩ := hseven
    obtain ⟨-, -, hwhole⟩ := verdict_within_cuts .silent (by decide) hsearch
    exact ⟨outcome, hsearch, hkinds, hhalves,
      (hwhole fun _ => by decide +kernel).1 [2, 1] (by decide +kernel) hsound hbounds⟩

/-- **An answer of the cutting-plane method need not be right about the model**, not with moderate
data: a bound cut can take every integer point away, or the best one; a Gomory cut can, where the
data are only nearly whole; and the relaxation itself can miss a point by its tolerances. -/
theorem verdict_against_integer_points :
    (oddModel.Valid ∧ oddModel.DataWithin 1000 ∧ CallsInfeasible {} oddModel ∧
      oddModel.IntegerFeasible [1, 1]) ∧
    (detourModel.Valid ∧ detourModel.DataWithin 1000 ∧ Finds .silent {} detourModel [0, 0, 1] ∧
      detourModel.IntegerFeasible [1, 1, 0] ∧
      detourModel.gain [0, 0, 1] + 1e-6 < detourModel.gain [1, 1, 0]) ∧
    (grainyModel.Valid ∧ grainyModel.DataWithin 1000 ∧ Finds .silent {} grainyModel [0, 0] ∧
      grainyModel.IntegerFeasible [1, 2e9] ∧
      grainyModel.gain [0, 0] + 1e-6 < grainyModel.gain [1, 2e9]) ∧
    (faintModel.Valid ∧ faintModel.DataWithin 1000 ∧ CallsInfeasible {} faintModel ∧
      faintModel.IntegerFeasible [1e10]) ∧
    (cheapModel.Valid ∧ cheapModel.DataWithin 1000 ∧ Finds .silent {} cheapModel [0] ∧
      cheapModel.IntegerFeasible [1e5] ∧
      cheapModel.gain [0] + 1e-6 < cheapModel.gain [1e5]) := by
  decide +kernel

end CuttingPlane

end LinOpt
