import LinOpt.Proofs.Analysis.WeakDuality
/-!
# Operations on a model

A caller makes models out of models: copies, models with one more row or one more bound, relaxations
and duals. None of what comes out is checked again, so that it is a valid model rests on the five
parallel lists being changed together. `Operation` is one such step and `Model.after` a whole sequence
of them, in which a refused operation leaves the current model as it is.

One step from a valid model is refused exactly for the reasons given (`Operation.refusal`), and
otherwise makes a valid model (`Operation.exists_apply`). By induction on the sequence, every model on
the way is valid (`Valid.after`), so each step of a sequence is such a step.

Sizes and words need no law of the arithmetic. What the operations do to the points of a model is said
over the rationals (`Operation.Meets`).
-/

namespace LinOpt

/-! ## Positions -/

namespace Position

variable {length : ℕ} {i : ℤ}

/-- **A position names a place from the front or from the end.** -/
theorem resolve_eq_some_iff {k : ℕ} :
    resolve length i = some k ↔ k < length ∧ (i = k ∨ i = (k : ℤ) - length) := by
  unfold resolve
  split
  · split
    · rw [Option.some_inj]
      omega
    · simp only [reduceCtorEq, false_iff]
      omega
  · split
    · rw [Option.some_inj]
      omega
    · simp only [reduceCtorEq, false_iff]
      omega

/-- Every position from `-length` up to `length` names a place. -/
theorem exists_resolve (h : -(length : ℤ) ≤ i ∧ i < length) : ∃ k, resolve length i = some k := by
  rcases le_or_gt 0 i with hpos | hneg
  · exact ⟨i.toNat, resolve_eq_some_iff.mpr (by omega)⟩
  · exact ⟨(i + length).toNat, resolve_eq_some_iff.mpr (by omega)⟩

/-- No other does. -/
theorem resolve_eq_none (h : ¬ (-(length : ℤ) ≤ i ∧ i < length)) : resolve length i = none := by
  cases hresolve : resolve length i with
  | none => rfl
  | some k =>
    have hk := resolve_eq_some_iff.mp hresolve
    omega

end Position

namespace Model

variable {α : Type}

/-! ## One more row -/

/-- The model with one more row, which has the length for it. -/
def addRow (model : Model α) (coefficients : List α) (sign : Relation) (rhs : α) : Model α :=
  { model with
    rows := model.rows ++ [coefficients]
    rhs := model.rhs ++ [rhs]
    signs := model.signs ++ [sign] }

section AddRow

variable {model : Model α} {coefficients : List α} {sign : Relation} {rhs : α}

theorem withRow_eq_ok (h : coefficients.length = model.variableCount) :
    model.withRow coefficients sign rhs = .ok (model.addRow coefficients sign rhs) := by
  rw [withRow, if_neg (not_not.mpr h)]
  rfl

theorem Valid.addRow (h : model.Valid) (hlength : coefficients.length = model.variableCount)
    (hsign : sign.isKnown = true) : (model.addRow coefficients sign rhs).Valid := by
  have hsized := h.sized
  have hnew : (model.addRow coefficients sign rhs).Sized :=
    { rows := by simp [Model.addRow, rowCount, hsized.rows]
      row := by
        intro row hrow
        rcases List.mem_append.mp hrow with hold | hlast
        · exact hsized.row row hold
        · exact (congrArg List.length (List.mem_singleton.mp hlast)).trans hlength
      signs := by simp [Model.addRow, rowCount, hsized.signs]
      kinds := hsized.kinds
      names := hsized.names }
  exact
    { shape := hnew.shapeFault?_eq_none
      sense := h.sense
      signs := by
        change (model.signs ++ [sign]).all Relation.isKnown = true
        simp [h.signs, hsign]
      kinds := h.kinds }

theorem isKnown_boundSign (upper : Bool) : (boundSign upper).isKnown = true := by
  cases upper <;> rfl

end AddRow

section Bounds

variable [Scalar α] {model : Model α}

/-- A bound is a row with a one in the place that the index names. -/
theorem withBound_eq_ok {index : ℤ} {k : ℕ}
    (h : Position.resolve model.variableCount index = some k) (value : α) (upper : Bool) :
    model.withBound index value upper =
      .ok (model.addRow (model.unitRow k) (boundSign upper) value) := by
  have hwrite : (Position.write (zeros model.variableCount) index 1 :
      Except (Fault α) (List α)) = .ok (model.unitRow k) := by
    rw [Position.write, length_zeros, h]
    rfl
  rw [withBound, hwrite, ok_bind]
  exact withRow_eq_ok (length_unitRow k)

theorem Valid.relaxation (h : model.Valid) : model.relaxation.Valid where
  shape := (StandardForm.sized_relaxation h.sized).shapeFault?_eq_none
  sense := h.sense
  signs := by
    change (model.signs ++ model.binaryIndices.map fun _ => Relation.le).all Relation.isKnown = true
    simp [h.signs, Relation.isKnown]
  kinds := by
    refine List.all_eq_true.mpr fun kind hkind => ?_
    obtain ⟨old, hold, rfl⟩ := List.mem_map.mp hkind
    have hknown := List.all_eq_true.mp h.kinds old hold
    cases old <;> first | rfl | exact hknown

end Bounds

/-! ## Relaxing variable by variable -/

section Relaxing

variable [Scalar α] {model : Model α}

/-- The current model with one variable relaxed: its kind, and one more row where it is binary. -/
def relaxVariable (current : Model α) (kind : Kind) (j : ℕ) : Except (Fault α) (Model α) :=
  let renamed :=
    if kind.isInteger then { current with kinds := current.kinds.set j .nonneg } else current
  if kind = .bin then renamed.withBound j 1 true else .ok renamed

/-- The places of the binary variables among kinds that start at place `first`. -/
def binaryPlaces (first : ℕ) (kinds : List Kind) : List ℕ :=
  (kinds.zipIdx first).filterMap fun e => if e.1 = .bin then some e.2 else none

omit [Scalar α] in
theorem binaryPlaces_kinds (model : Model α) : binaryPlaces 0 model.kinds = model.binaryIndices := by
  rw [binaryPlaces, zipIdx_eq_map_range _ .free, List.filterMap_map, binaryIndices,
    ← List.filterMap_eq_filter]
  refine List.filterMap_congr fun j _ => ?_
  simp [Option.guard]

/-- One variable is relaxed among those that have been and those that are to be. -/
theorem relaxVariable_eq_ok {current : Model α} {kind : Kind} {done todo : List Kind}
    (hkinds : current.kinds = done ++ kind :: todo) (hlt : done.length < current.variableCount) :
    current.relaxVariable kind done.length = .ok { current with
      rows := current.rows ++ (if kind = .bin then [done.length] else []).map current.unitRow
      rhs := current.rhs ++ (if kind = .bin then [done.length] else []).map fun _ => 1
      signs := current.signs ++ (if kind = .bin then [done.length] else []).map fun _ => .le
      kinds := (done ++ [kind.relaxed]) ++ todo } := by
  have hset : current.kinds.set done.length .nonneg = (done ++ [.nonneg]) ++ todo := by
    simp [hkinds]
  cases kind
  case bin =>
    have hplace : Position.resolve
        ({ current with kinds := (done ++ [.nonneg]) ++ todo } : Model α).variableCount
          (done.length : ℤ) = some done.length := Position.resolve_natCast hlt
    have hbound := withBound_eq_ok hplace 1 true
    simpa [relaxVariable, Kind.isInteger, Kind.relaxed, hset, addRow, unitRow, boundSign,
      variableCount] using hbound
  case int => simp [relaxVariable, Kind.isInteger, Kind.relaxed, hset]
  all_goals simp [relaxVariable, Kind.isInteger, Kind.relaxed, ← hkinds]

/-- **The relaxation is made variable by variable**, over the kinds that the model had: changing the
kinds and adding the rows do not get into each other's way. -/
theorem foldlM_relaxVariable (hsized : model.Sized) :
    model.kinds.zipIdx.foldlM (fun (current : Model α) e => current.relaxVariable e.1 e.2) model =
      model.relaxed := by
  have hfold : ∀ (todo done : List Kind) (current : Model α), current.kinds = done ++ todo →
      done.length + todo.length ≤ current.variableCount →
      (todo.zipIdx done.length).foldlM
          (fun (current : Model α) e => current.relaxVariable e.1 e.2) current =
        .ok { current with
          rows := current.rows ++ (binaryPlaces done.length todo).map current.unitRow
          rhs := current.rhs ++ (binaryPlaces done.length todo).map fun _ => 1
          signs := current.signs ++ (binaryPlaces done.length todo).map fun _ => .le
          kinds := done ++ todo.map Kind.relaxed } := by
    intro todo
    induction todo with
    | nil =>
      intro done current hkinds _
      simp [binaryPlaces, pure, Except.pure, ← hkinds]
    | cons kind todo ih =>
      intro done current hkinds hle
      have hstep := relaxVariable_eq_ok hkinds (by simp at hle; omega)
      have hplaces : binaryPlaces done.length (kind :: todo) =
          (if kind = .bin then [done.length] else []) ++ binaryPlaces (done.length + 1) todo := by
        by_cases hbin : kind = .bin <;> simp [binaryPlaces, hbin]
      have hlength : (done ++ [kind.relaxed]).length = done.length + 1 := by simp
      rw [List.zipIdx_cons, List.foldlM_cons, hstep, ok_bind, hplaces, ← hlength]
      refine (ih (done ++ [kind.relaxed]) _ rfl ?_).trans ?_
      · rw [List.length_cons] at hle
        rw [hlength]
        exact le_trans (by omega) hle
      · simp [unitRow, variableCount]
  have hstart := hfold model.kinds [] model rfl (by simp [hsized.kinds])
  rw [relaxed_eq_ok hsized, ← List.length_nil, hstart, List.length_nil, binaryPlaces_kinds]
  rfl

end Relaxing

end Model

/-! ## Steps and sequences of steps -/

/-- What a caller may do to the current model. -/
inductive Operation (α : Type) where
  | clone
  | withRow (coefficients : List α) (sign : Relation) (rhs : α)
  | withBound (index : ℤ) (value : α) (upper : Bool)
  | relaxed
  | dual

namespace Operation

variable {α : Type}

/-- The relation of a new row is one of the three. -/
def isKnown : Operation α → Bool
  | .withRow _ sign _ => sign.isKnown
  | _ => true

/-- The fault with which an operation is refused on a model of `n` variables: a row of the wrong
length, or an index that names no variable. -/
def refusal (n : ℕ) : Operation α → Option (Fault α)
  | .withRow coefficients _ _ =>
    if coefficients.length = n then none else some (.rowLength coefficients.length n)
  | .withBound index _ _ =>
    if -(n : ℤ) ≤ index ∧ index < n then none
    else some (Position.outside index .assignmentOutOfRange)
  | _ => none

variable [Scalar α]

/-- What the operation answers. A copy of a value is the value. -/
def apply : Operation α → Model α → Except (Fault α) (Model α)
  | .clone, model => .ok model
  | .withRow coefficients sign rhs, model => model.withRow coefficients sign rhs
  | .withBound index value upper, model => model.withBound index value upper
  | .relaxed, model => model.relaxed
  | .dual, model => model.dual

/-- **How the new model comes from the old one.** -/
def Makes : Operation α → Model α → Model α → Prop
  | .clone, old, new => new = old
  | .withRow coefficients sign rhs, old, new => new = old.addRow coefficients sign rhs
  | .withBound index value upper, old, new =>
    ∃ k < old.variableCount, (index = k ∨ index = (k : ℤ) - old.variableCount) ∧
      new = old.addRow (old.unitRow k) (Model.boundSign upper) value
  | .relaxed, old, new => new = old.relaxation
  | .dual, old, new => new.DualOf old

variable {op : Operation α} {model : Model α}

/-- An operation with a reason to refuse it is refused for that reason. -/
theorem apply_eq_error {cause : Fault α} (h : op.refusal model.variableCount = some cause) :
    op.apply model = .error cause := by
  cases op with
  | clone => cases h
  | withRow coefficients sign rhs =>
    by_cases hlength : coefficients.length = model.variableCount
    · rw [refusal, if_pos hlength] at h
      cases h
    · rw [refusal, if_neg hlength] at h
      rw [apply, Model.withRow, if_pos hlength, Option.some_inj.mp h]
  | withBound index value upper =>
    by_cases hinside : -(model.variableCount : ℤ) ≤ index ∧ index < model.variableCount
    · rw [refusal, if_pos hinside] at h
      cases h
    · rw [refusal, if_neg hinside] at h
      have hwrite : (Position.write (zeros model.variableCount) index 1 :
          Except (Fault α) (List α)) = .error cause := by
        rw [Position.write, length_zeros, Position.resolve_eq_none hinside, ← Option.some_inj.mp h]
      rw [apply, Model.withBound, hwrite]
      rfl
  | relaxed => cases h
  | dual => cases h

/-- **Any other operation makes a valid model of a valid one.** -/
theorem exists_apply (hvalid : model.Valid) (hknown : op.isKnown = true)
    (h : op.refusal model.variableCount = none) :
    ∃ new, op.apply model = .ok new ∧ new.Valid ∧ op.Makes model new := by
  cases op with
  | clone => exact ⟨model, rfl, hvalid, rfl⟩
  | withRow coefficients sign rhs =>
    have hlength : coefficients.length = model.variableCount := by
      by_contra hne
      rw [refusal, if_neg hne] at h
      cases h
    exact ⟨_, Model.withRow_eq_ok hlength, hvalid.addRow hlength hknown, rfl⟩
  | withBound index value upper =>
    have hinside : -(model.variableCount : ℤ) ≤ index ∧ index < model.variableCount := by
      by_contra hnot
      rw [refusal, if_neg hnot] at h
      cases h
    obtain ⟨k, hk⟩ := Position.exists_resolve hinside
    obtain ⟨hlt, hplace⟩ := Position.resolve_eq_some_iff.mp hk
    exact ⟨_, Model.withBound_eq_ok hk value upper,
      hvalid.addRow (Model.length_unitRow k) (Model.isKnown_boundSign upper), k, hlt, hplace, rfl⟩
  | relaxed => exact ⟨_, Model.relaxed_eq_ok hvalid.sized, hvalid.relaxation, rfl⟩
  | dual =>
    obtain ⟨other, hdual, hother, hof⟩ := Model.exists_dualOf hvalid
    exact ⟨other, hdual, hother, hof⟩

end Operation

namespace Model

section After

variable {α : Type} [Scalar α] {model : Model α} {op : Operation α} {ops : List (Operation α)}

/-- The current model after one operation: what it makes, or the model there was if it is refused. -/
def step (model : Model α) (op : Operation α) : Model α :=
  match op.apply model with
  | .ok new => new
  | .error _ => model

/-- The current model after a sequence of operations. -/
def after (model : Model α) (ops : List (Operation α)) : Model α := ops.foldl step model

theorem step_of_ok {new : Model α} (h : op.apply model = .ok new) : model.step op = new := by
  rw [step, h]

theorem step_of_error {cause : Fault α} (h : op.apply model = .error cause) :
    model.step op = model := by
  rw [step, h]

theorem Valid.step (hvalid : model.Valid) (hknown : op.isKnown = true) : (model.step op).Valid := by
  cases hrefusal : op.refusal model.variableCount with
  | some cause => rwa [step_of_error (Operation.apply_eq_error hrefusal)]
  | none =>
    obtain ⟨new, happly, hnew, -⟩ := Operation.exists_apply hvalid hknown hrefusal
    rwa [step_of_ok happly]

/-- **Every model on the way is valid.** -/
theorem Valid.after (hvalid : model.Valid) (hknown : ∀ op ∈ ops, op.isKnown = true) :
    (model.after ops).Valid := by
  induction ops generalizing model with
  | nil => exact hvalid
  | cons op ops ih =>
    exact ih (hvalid.step (hknown op List.mem_cons_self))
      fun o ho => hknown o (List.mem_cons_of_mem _ ho)

theorem after_append_cons (model : Model α) (before later : List (Operation α))
    (op : Operation α) :
    model.after (before ++ op :: later) = ((model.after before).step op).after later := by
  rw [after, List.foldl_append]
  rfl

end After

end Model

/-! ## Points -/

/-- A kind admits what its continuous reading admits, up to one for a binary variable. -/
theorem Kind.admits_iff_relaxed {kind : Kind} {a : ℚ} :
    kind.Admits a ↔ kind.relaxed.Admits a ∧ (kind = .bin → a ≤ 1) := by
  cases kind <;> simp [Kind.relaxed, Kind.isInteger, Kind.Admits]

namespace Model

variable {model : Model ℚ} {p : List ℚ}

theorem addRow_eq_extend (model : Model ℚ) (coefficients : List ℚ) (sign : Relation) (rhs : ℚ) :
    model.addRow coefficients sign rhs = model.extend [⟨coefficients, sign, rhs⟩] := rfl

/-- **The points of a model with one more row** are its points that meet the row. -/
theorem feasible_addRow_iff (hsized : model.Sized) {coefficients : List ℚ} {sign : Relation}
    {rhs : ℚ} :
    (model.addRow coefficients sign rhs).Feasible p ↔
      model.Feasible p ∧ sign.Holds (dot coefficients p) rhs := by
  rw [addRow_eq_extend, feasible_extend_iff hsized]
  simp [ExtraRow.Holds]

/-- The whole points are those that meet the row, too. -/
theorem integerFeasible_addRow_iff (hsized : model.Sized) {coefficients : List ℚ}
    {sign : Relation} {rhs : ℚ} :
    (model.addRow coefficients sign rhs).IntegerFeasible p ↔
      model.IntegerFeasible p ∧ sign.Holds (dot coefficients p) rhs := by
  rw [addRow_eq_extend, integerFeasible_extend_iff hsized]
  simp [ExtraRow.Holds]

theorem mem_binaryIndices {j : ℕ} :
    j ∈ model.binaryIndices ↔ j < model.kinds.length ∧ model.kinds.getD j .free = .bin := by
  simp [binaryIndices]

/-- **The points of the relaxation** are those of the model, each kind read as continuous. -/
theorem feasible_relaxation_iff (hsized : model.Sized) :
    model.relaxation.Feasible p ↔ model.Feasible p := by
  have hparts : model.relaxation = model.continuous.extend model.binaryBounds :=
    Except.ok.inj ((relaxed_eq_ok hsized).symm.trans (relaxed_eq hsized))
  have hcontinuous : model.continuous.Sized :=
    { hsized with kinds := (List.length_map _).trans hsized.kinds }
  have hkind : ∀ j < model.variableCount,
      model.continuous.kinds.getD j .free = (model.kinds.getD j .free).relaxed := by
    intro j hj
    have hlt : j < model.kinds.length := hsized.kinds.symm ▸ hj
    simp [continuous, hlt]
  have hbound : ∀ j ∈ model.binaryIndices,
      ((ExtraRow.bound model.variableCount j 1 true).Holds p ↔ entry p j ≤ 1) := by
    intro j hj
    rw [ExtraRow.Holds, ExtraRow.bound, dot_unit (lt_of_mem_binaryIndices hsized hj)]
    rfl
  rw [hparts, feasible_extend_iff hcontinuous]
  constructor
  · rintro ⟨⟨hlength, hrows, hkinds⟩, hbounds⟩
    refine ⟨hlength, hrows, fun j hj => Kind.admits_iff_relaxed.mpr ⟨?_, fun hbin => ?_⟩⟩
    · rw [← hkind j hj]
      exact hkinds j hj
    · have hmem := mem_binaryIndices.mpr ⟨hsized.kinds.symm ▸ hj, hbin⟩
      exact (hbound j hmem).mp (hbounds _ (List.mem_map_of_mem hmem))
  · rintro ⟨hlength, hrows, hkinds⟩
    refine ⟨⟨hlength, hrows, fun j hj => ?_⟩, fun row hrow => ?_⟩
    · rw [hkind j hj]
      exact (Kind.admits_iff_relaxed.mp (hkinds j hj)).1
    · obtain ⟨j, hmem, rfl⟩ := List.mem_map.mp hrow
      exact (hbound j hmem).mpr ((Kind.admits_iff_relaxed.mp
        (hkinds j (lt_of_mem_binaryIndices hsized hmem))).2 (mem_binaryIndices.mp hmem).2)

/-- Nothing in the relaxation asks for whole numbers. -/
theorem integerFeasible_relaxation_iff (hsized : model.Sized) :
    model.relaxation.IntegerFeasible p ↔ model.Feasible p := by
  refine ⟨fun h => (feasible_relaxation_iff hsized).mp h.feasible, fun h =>
    ⟨(feasible_relaxation_iff hsized).mpr h, fun j hj => ?_⟩⟩
  obtain ⟨hj, hinteger⟩ := List.mem_filter.mp hj
  have hlt : j < model.kinds.length := by simpa [relaxation] using hj
  have hcontinuous : (model.kinds[j].relaxed).isInteger = false := by
    cases model.kinds[j] <;> rfl
  simp [relaxation, hlt, hcontinuous] at hinteger

/-- **The new model has the points of the old one that meet the condition**, and the whole points of
it that do. -/
def CutBy (new old : Model ℚ) (condition : List ℚ → Prop) : Prop :=
  ∀ p, (new.Feasible p ↔ old.Feasible p ∧ condition p) ∧
    (new.IntegerFeasible p ↔ old.IntegerFeasible p ∧ condition p)

theorem cutBy_addRow (hsized : model.Sized) (coefficients : List ℚ) (sign : Relation) (rhs : ℚ) :
    (model.addRow coefficients sign rhs).CutBy model fun p => sign.Holds (dot coefficients p) rhs :=
  fun _ => ⟨feasible_addRow_iff hsized, integerFeasible_addRow_iff hsized⟩

end Model

/-- **What the operation does to points.** A copy loses none, a row and a bound keep the points that
meet them, and the relaxation has the points of the model with its kinds read as continuous. The dual
has points of its own. -/
def Operation.Meets : Operation ℚ → Model ℚ → Model ℚ → Prop
  | .clone, old, new => new.CutBy old fun _ => True
  | .withRow coefficients sign rhs, old, new =>
    new.CutBy old fun p => sign.Holds (dot coefficients p) rhs
  | .withBound index value upper, old, new =>
    ∃ k < old.variableCount, (index = k ∨ index = (k : ℤ) - old.variableCount) ∧
      new.CutBy old fun p => if upper then entry p k ≤ value else value ≤ entry p k
  | .relaxed, old, new =>
    ∀ p, (new.Feasible p ↔ old.Feasible p) ∧ (new.IntegerFeasible p ↔ old.Feasible p)
  | .dual, _, _ => True

theorem Operation.Makes.meets {op : Operation ℚ} {old new : Model ℚ} (hsized : old.Sized)
    (h : op.Makes old new) : op.Meets old new := by
  cases op with
  | clone =>
    obtain rfl := h
    exact fun p => ⟨(iff_of_eq (and_true _)).symm, (iff_of_eq (and_true _)).symm⟩
  | withRow coefficients sign rhs =>
    obtain rfl := h
    exact Model.cutBy_addRow hsized coefficients sign rhs
  | withBound index value upper =>
    obtain ⟨k, hk, hplace, rfl⟩ := h
    refine ⟨k, hk, hplace, fun p => ?_⟩
    have hunit : dot (old.unitRow k) p = entry p k := dot_unit hk p
    rw [Model.feasible_addRow_iff hsized, Model.integerFeasible_addRow_iff hsized, hunit]
    cases upper <;> exact ⟨Iff.rfl, Iff.rfl⟩
  | relaxed =>
    obtain rfl := h
    exact fun p => ⟨Model.feasible_relaxation_iff hsized,
      Model.integerFeasible_relaxation_iff hsized⟩
  | dual => trivial

namespace Model

/-! ## The law of a sequence -/

/-- **Operations keep models valid.** After any sequence of operations on a valid model the current
model is valid. An operation with a reason to refuse it is refused for that reason, and what comes
after goes on as if it had not been asked for. Any other operation answers, with a model that passes
the check of its shape and comes from the current one as it should: a row or a bound is put behind all
that was there, and nothing else is touched. Over the rationals the points of the new model are those
of the current one that meet the row or the bound, where a negative index counts from the end. -/
theorem operations_keep_valid :
    (∀ (α : Type) [Scalar α] (model : Model α) (before later : List (Operation α))
      (op : Operation α), model.Valid → (∀ o ∈ before, o.isKnown = true) → op.isKnown = true →
      (model.after before).Valid ∧
      (∀ cause, op.refusal (model.after before).variableCount = some cause →
        op.apply (model.after before) = .error cause ∧
          model.after (before ++ op :: later) = model.after (before ++ later)) ∧
      (op.refusal (model.after before).variableCount = none →
        ∃ new, op.apply (model.after before) = .ok new ∧
          model.after (before ++ op :: later) = new.after later ∧
          new.shapeFault? = none ∧ op.Makes (model.after before) new)) ∧
    ∀ (model : Model ℚ) (before : List (Operation ℚ)) (op : Operation ℚ) (new : Model ℚ),
      model.Valid → (∀ o ∈ before, o.isKnown = true) → op.isKnown = true →
      op.apply (model.after before) = .ok new → op.Meets (model.after before) new := by
  constructor
  · intro α _ model before later op hvalid hbefore hop
    have hcurrent := hvalid.after hbefore
    refine ⟨hcurrent, fun cause hcause => ?_, fun hnone => ?_⟩
    · have herror := Operation.apply_eq_error hcause
      refine ⟨herror, ?_⟩
      rw [after_append_cons, step_of_error herror, after, after, after, List.foldl_append]
    · obtain ⟨new, happly, hnew, hmakes⟩ := Operation.exists_apply hcurrent hop hnone
      refine ⟨new, happly, ?_, hnew.shape, hmakes⟩
      rw [after_append_cons, step_of_ok happly]
  · intro model before op new hvalid hbefore hop happly
    have hcurrent := hvalid.after hbefore
    cases hrefusal : op.refusal (model.after before).variableCount with
    | some cause =>
      rw [Operation.apply_eq_error hrefusal] at happly
      cases happly
    | none =>
      obtain ⟨other, hother, -, hmakes⟩ := Operation.exists_apply hcurrent hop hrefusal
      obtain rfl := Except.ok.inj (happly.symm.trans hother)
      exact hmakes.meets hcurrent.sized

/-- A bound on the last variable counted from the end, a row that is too short, a bound on a variable
that is not there, and a copy. -/
def someOperations : List (Operation ℚ) :=
  [.withBound (-1) (1 / 2) true, .withRow [1] .le 0, .withBound 4 0 false, .clone]

/-- Of `someOperations` the first adds a row to `fourKindsModel` and two are refused. The relaxation
then adds the bound of the binary variable, and has the points that there were; an index below `-4` is
refused. -/
theorem operations_keep_valid_fourKindsModel :
    fourKindsModel.Valid ∧ (∀ o ∈ someOperations, o.isKnown = true) ∧
      (fourKindsModel.after someOperations).rows = fourKindsModel.rows ++ [[0, 0, 0, 1]] ∧
      (∃ new, Operation.relaxed.apply (fourKindsModel.after someOperations) = .ok new ∧
        new.shapeFault? = none ∧ new.rows.length = 5 ∧
        ∀ p, new.Feasible p ↔ (fourKindsModel.after someOperations).Feasible p) ∧
      (Operation.withBound (-5) 0 true).apply (fourKindsModel.after someOperations) =
        .error .assignmentOutOfRange := by
  have hvalid : fourKindsModel.Valid := by decide
  have hknown : ∀ o ∈ someOperations, o.isKnown = true := by decide
  have hrows : (fourKindsModel.after someOperations).rows =
      fourKindsModel.rows ++ [[0, 0, 0, 1]] := by decide +kernel
  have hcount : (fourKindsModel.after someOperations).variableCount = 4 := by decide +kernel
  have hbinary : (fourKindsModel.after someOperations).binaryIndices = [3] := by decide +kernel
  obtain ⟨-, -, hanswers⟩ :=
    operations_keep_valid.1 ℚ fourKindsModel someOperations [] .relaxed hvalid hknown rfl
  obtain ⟨new, happly, -, hshape, hmakes⟩ := hanswers rfl
  have hmeets :=
    operations_keep_valid.2 fourKindsModel someOperations .relaxed new hvalid hknown rfl happly
  obtain ⟨-, hrefused, -⟩ :=
    operations_keep_valid.1 ℚ fourKindsModel someOperations [] (.withBound (-5) 0 true) hvalid hknown
      rfl
  refine ⟨hvalid, hknown, hrows, ⟨new, happly, hshape, ?_, fun p => (hmeets p).1⟩, ?_⟩
  · have hnew : new = (fourKindsModel.after someOperations).relaxation := hmakes
    rw [hnew, relaxation, hbinary, hrows]
    rfl
  · refine (hrefused .assignmentOutOfRange ?_).1
    rw [hcount]
    rfl

end Model

end LinOpt
