import LinOpt.StandardForm
import LinOpt.Proofs.Model
/-!
# Rows over the structural columns

A variable is the signed sum of its columns. `componentSums` takes a vector over columns to the
point it stands for, and a row over the variables, written over the structural columns, has at the
vector the value that the row has at the point (`valueAt_structuralEntries`). No column is listed
twice in such a row.

Reading a row never fails where every coefficient has a variable (`structuralRow_eq`), and a row is
negated on both sides where its right-hand side is negative, which changes nothing about the points
that meet it (`holds_oriented_iff`).
-/

namespace LinOpt

/-! ## Computations that may fail -/

theorem ok_bind {ε β γ : Type} (b : β) (next : β → Except ε γ) :
    (Except.ok b >>= next) = next b := rfl

/-- Where a computation in two parts fails, one of them does. -/
theorem cases_of_bind_eq_error {ε β γ : Type} {first : Except ε β} {next : β → Except ε γ}
    {cause : ε} (h : (first >>= next) = .error cause) :
    first = .error cause ∨ ∃ b, first = .ok b ∧ next b = .error cause := by
  cases first with
  | error other =>
    obtain rfl := Except.error.inj h
    exact Or.inl rfl
  | ok b => exact Or.inr ⟨b, rfl, h⟩

/-- A computation that answers has answers on the way. -/
theorem exists_of_bind_eq_ok {ε β γ : Type} {first : Except ε β} {next : β → Except ε γ} {c : γ}
    (h : first >>= next = .ok c) : ∃ b, first = .ok b ∧ next b = .ok c := by
  cases first with
  | error _ => simp [bind, Except.bind] at h
  | ok b => exact ⟨b, rfl, h⟩

theorem mapM_eq_ok {ε β γ : Type} {f : β → Except ε γ} {g : β → γ} {l : List β}
    (h : ∀ b ∈ l, f b = .ok (g b)) : l.mapM f = .ok (l.map g) := by
  induction l with
  | nil => rfl
  | cons b l ih =>
    rw [List.mapM_cons, h b (by simp), ih fun c hc => h c (by simp [hc])]
    rfl

/-- Answering for every entry of a list is answering for the list. -/
theorem exists_mapM_eq_ok {ε β γ : Type} {f : β → Except ε γ} {xs : List β}
    (h : ∀ x ∈ xs, ∃ y, f x = .ok y) : ∃ ys, xs.mapM f = .ok ys := by
  induction xs with
  | nil => exact ⟨[], rfl⟩
  | cons x xs ih =>
    obtain ⟨y, hy⟩ := h x List.mem_cons_self
    obtain ⟨ys, hys⟩ := ih fun z hz => h z (List.mem_cons_of_mem _ hz)
    refine ⟨y :: ys, ?_⟩
    rw [List.mapM_cons, hy, hys]
    rfl

/-- The answers for the entries of a list, one by one. -/
theorem forall₂_of_mapM_eq_ok {ε β γ : Type} {f : β → Except ε γ} {xs : List β} {ys : List γ}
    (h : xs.mapM f = .ok ys) : List.Forall₂ (fun x y => f x = .ok y) xs ys := by
  induction xs generalizing ys with
  | nil =>
    obtain rfl := Except.ok.inj h
    exact .nil
  | cons x xs ih =>
    rw [List.mapM_cons] at h
    cases hx : f x with
    | error cause =>
      rw [hx] at h
      cases h
    | ok y =>
      cases hxs : xs.mapM f with
      | error cause =>
        rw [hx, hxs] at h
        cases h
      | ok rest =>
        rw [hx, hxs] at h
        obtain rfl := Except.ok.inj h
        exact .cons hx (ih hxs)

/-- What every step keeps holds of an answer. -/
theorem foldlM_induction {ε β γ : Type} {f : β → γ → Except ε β} {P : β → Prop} {l : List γ}
    (hstep : ∀ b, P b → ∀ c, ∀ b', f b c = .ok b' → P b') {b b' : β} (hb : P b)
    (h : l.foldlM f b = .ok b') : P b' := by
  induction l generalizing b with
  | nil =>
    obtain rfl := Except.ok.inj h
    exact hb
  | cons c l ih =>
    rw [List.foldlM_cons] at h
    cases hc : f b c with
    | error cause =>
      rw [hc] at h
      cases h
    | ok next =>
      rw [hc] at h
      exact ih (hstep b hb c next hc) h

theorem foldlM_eq_ok {ε β γ : Type} {f : β → γ → Except ε β} {g : β → γ → β} {l : List γ}
    (h : ∀ c ∈ l, ∀ b, f b c = .ok (g b c)) (b : β) : l.foldlM f b = .ok (l.foldl g b) := by
  induction l generalizing b with
  | nil => rfl
  | cons c l ih =>
    rw [List.foldlM_cons, h c (by simp)]
    exact ih (fun d hd => h d (by simp [hd])) _

theorem position_get_eq {ε β : Type} {xs : List β} {k : ℕ} (h : k < xs.length) (default : β) :
    (Position.get xs k : Except (Fault ε) β) = .ok (xs.getD k default) := by
  simp [Position.get, h]

/-! ## Positions in a sequence of blocks -/

/-- Where block `j` starts, in a sequence of blocks of the given sizes. -/
def offset (sizes : List ℕ) (j : ℕ) : ℕ := (sizes.take j).sum

@[simp] theorem offset_zero (sizes : List ℕ) : offset sizes 0 = 0 := by
  simp [offset]

@[simp] theorem offset_cons_succ (size : ℕ) (sizes : List ℕ) (j : ℕ) :
    offset (size :: sizes) (j + 1) = size + offset sizes j := by
  simp [offset]

/-- Block `j` ends where the next one starts, which is not behind the last one. -/
theorem offset_add_le (sizes : List ℕ) {j k : ℕ} (h : j < k) (hk : k ≤ sizes.length) :
    offset sizes j + sizes.getD j 0 ≤ offset sizes k := by
  induction sizes generalizing j k with
  | nil => simp at hk; omega
  | cons size sizes ih =>
    obtain ⟨k, rfl⟩ : ∃ l, k = l + 1 := ⟨k - 1, by omega⟩
    cases j with
    | zero => simp
    | succ j =>
      rw [offset_cons_succ, offset_cons_succ, List.getD_cons_succ]
      have := ih (j := j) (k := k) (by omega) (by simpa using hk)
      omega

theorem offset_length (sizes : List ℕ) : offset sizes sizes.length = sizes.sum := by
  simp [offset]

/-- An entry of a sequence of blocks is an entry of its block. -/
theorem entry_flatten (blocks : List (List ℚ)) {j t : ℕ} (hj : j < blocks.length)
    (ht : t < (blocks.getD j []).length) :
    entry blocks.flatten (offset (blocks.map List.length) j + t) = entry (blocks.getD j []) t := by
  induction blocks generalizing j with
  | nil => simp at hj
  | cons block blocks ih =>
    cases j with
    | zero =>
      rw [offset_zero, Nat.zero_add, List.flatten_cons, entry_append_left (by simpa using ht)]
      rfl
    | succ j =>
      rw [List.map_cons, offset_cons_succ, List.flatten_cons, entry_append_right (by omega),
        show block.length + offset (blocks.map List.length) j + t - block.length =
          offset (blocks.map List.length) j + t by omega, List.getD_cons_succ]
      exact ih (by simpa using hj) (by simpa using ht)

/-! ## Components -/

/-- The columns of the variables of the given kinds, together. -/
def structuralWidth (kinds : List Kind) : ℕ := (kinds.map Kind.width).sum

/-- The first column of variable `j`. -/
def firstColumn (kinds : List Kind) (j : ℕ) : ℕ := offset (kinds.map Kind.width) j

/-- The columns of a variable end before those of a later one start. -/
theorem firstColumn_add_le {kinds : List Kind} {j l : ℕ} (hjl : j < l) (hl : l ≤ kinds.length) :
    firstColumn kinds j + (kinds.getD j .free).width ≤ firstColumn kinds l := by
  have hwidth : (kinds.map Kind.width).getD j 0 = (kinds.getD j .free).width := by
    simp [show j < kinds.length by omega]
  have hle := offset_add_le (kinds.map Kind.width) hjl (by rwa [List.length_map])
  rwa [hwidth] at hle

theorem firstColumn_add_le_structuralWidth {kinds : List Kind} {j : ℕ} (hj : j < kinds.length) :
    firstColumn kinds j + (kinds.getD j .free).width ≤ structuralWidth kinds := by
  have hlast : firstColumn kinds kinds.length = structuralWidth kinds := by
    have hlength := offset_length (kinds.map Kind.width)
    rwa [List.length_map] at hlength
  exact hlast ▸ firstColumn_add_le hj (le_refl _)

@[simp] theorem length_componentsFrom {α : Type} [Scalar α] (first : ℕ) (kinds : List Kind) :
    (componentsFrom first kinds : Components α).length = kinds.length := by
  induction kinds generalizing first with
  | nil => rfl
  | cons kind kinds ih => rw [componentsFrom, List.length_cons, ih, List.length_cons]

/-- The columns of variable `j` start at its first column. -/
theorem componentsFrom_getD {kinds : List Kind} {j : ℕ} (hj : j < kinds.length) (first : ℕ) :
    (componentsFrom first kinds : Components ℚ).getD j [] =
      (kinds.getD j .free).parts (first + firstColumn kinds j) := by
  induction kinds generalizing first j with
  | nil => simp at hj
  | cons kind kinds ih =>
    cases j with
    | zero => simp [componentsFrom, firstColumn]
    | succ j =>
      rw [componentsFrom, List.getD_cons_succ, ih (by simpa using hj), List.getD_cons_succ]
      simp [firstColumn, Nat.add_assoc]

section Keys

variable {α : Type} [Scalar α]

/-- The columns of a variable are the block of its width. -/
theorem Kind.keys_parts (kind : Kind) (first : ℕ) :
    (kind.parts first : List (ℕ × α)).map (·.1) = List.range' first kind.width := by
  cases kind <;> rfl

/-- A variable's columns lie in the block of its width. -/
theorem key_of_mem_parts {kind : Kind} {first : ℕ} {e : ℕ × α} (h : e ∈ kind.parts first) :
    first ≤ e.1 ∧ e.1 < first + kind.width := by
  have hmem : e.1 ∈ (kind.parts first : List (ℕ × α)).map (·.1) := List.mem_map_of_mem h
  rwa [Kind.keys_parts, List.mem_range'_1] at hmem

/-- **The variables share out the structural columns**, each one to one of them, in order. -/
theorem keys_componentsFrom (first : ℕ) (kinds : List Kind) :
    (componentsFrom first kinds : Components α).flatten.map (·.1) =
      List.range' first (structuralWidth kinds) := by
  induction kinds generalizing first with
  | nil => rfl
  | cons kind kinds ih =>
    rw [componentsFrom, List.flatten_cons, List.map_append, Kind.keys_parts, ih,
      List.range'_append_1]
    rfl

/-- Every component is a structural column. -/
theorem key_lt_of_mem_components {kinds : List Kind} {parts : List (ℕ × α)} {e : ℕ × α}
    (hparts : parts ∈ (componentsFrom 0 kinds : Components α)) (he : e ∈ parts) :
    e.1 < structuralWidth kinds := by
  have hmem : e.1 ∈ (componentsFrom 0 kinds : Components α).flatten.map (·.1) :=
    List.mem_map_of_mem (List.mem_flatten.mpr ⟨parts, hparts, he⟩)
  rw [keys_componentsFrom, List.mem_range'_1] at hmem
  omega

end Keys

/-- A variable has the sign one or minus one in each of its columns. -/
theorem sign_of_mem_parts {kind : Kind} {first : ℕ} {e : ℕ × ℚ} (h : e ∈ kind.parts first) :
    e.2 = 1 ∨ e.2 = -1 := by
  cases kind <;> simp only [Kind.parts, List.mem_cons, List.not_mem_nil, or_false] at h
  case free => rcases h with rfl | rfl <;> simp
  all_goals
    subst h
    simp

/-- The point that a vector over columns stands for. -/
def componentSums (components : Components ℚ) (x : List ℚ) : List ℚ := components.map (valueAt · x)

@[simp] theorem length_componentSums (components : Components ℚ) (x : List ℚ) :
    (componentSums components x).length = components.length := by
  simp [componentSums]

theorem entry_componentSums (components : Components ℚ) (x : List ℚ) (j : ℕ) :
    entry (componentSums components x) j = valueAt (components.getD j []) x := by
  simp only [componentSums, entry, List.getD_eq_getElem?_getD, List.getElem?_map]
  cases components[j]? with
  | none => rfl
  | some parts => rfl

/-! ## Coefficients over the structural columns -/

/-- Adding in a column lists no column twice. -/
theorem keys_addEntry {α : Type} [Scalar α] (column : ℕ) (value : α) (es : List (ℕ × α)) :
    (addEntry column value es).map (·.1) =
      if column ∈ es.map (·.1) then es.map (·.1) else es.map (·.1) ++ [column] := by
  induction es with
  | nil => simp [addEntry]
  | cons e es ih =>
    unfold addEntry
    by_cases h : e.1 = column
    · simp [h]
    · rw [if_neg h, List.map_cons, ih]
      have hne : ¬column = e.1 := fun heq => h heq.symm
      by_cases hmem : column ∈ es.map (·.1)
      · rw [if_pos hmem, if_pos (by simp only [List.map_cons, List.mem_cons]; exact Or.inr hmem)]
        rfl
      · rw [if_neg hmem, if_neg (by
          simp only [List.map_cons, List.mem_cons]
          exact fun hor => hor.elim hne hmem)]
        rfl

theorem nodup_addEntry {column : ℕ} {value : ℚ} {es : List (ℕ × ℚ)} (h : (es.map (·.1)).Nodup) :
    ((addEntry column value es).map (·.1)).Nodup := by
  rw [keys_addEntry]
  split
  · exact h
  · rename_i hnot
    exact List.nodup_append.mpr ⟨h, by simp, by
      intro a ha b hb heq
      obtain rfl : b = column := by simpa using hb
      exact hnot (heq ▸ ha)⟩

theorem mem_keys_addEntry {α : Type} [Scalar α] {column k : ℕ} {value : α} {es : List (ℕ × α)}
    (h : k ∈ (addEntry column value es).map (·.1)) : k ∈ es.map (·.1) ∨ k = column := by
  rw [keys_addEntry] at h
  split at h
  · exact Or.inl h
  · simpa using h

theorem valueAt_addEntry (column : ℕ) (value : ℚ) (es : List (ℕ × ℚ)) (x : List ℚ) :
    valueAt (addEntry column value es) x = valueAt es x + value * entry x column := by
  induction es with
  | nil =>
    simp only [addEntry, valueAt_cons, valueAt_nil]
    change (0 + value) * entry x column + 0 = 0 + value * entry x column
    ring
  | cons e es ih =>
    unfold addEntry
    split
    · rename_i h
      simp only [valueAt_cons]
      change (e.2 + value) * entry x e.1 + valueAt es x = _
      rw [← h]
      ring
    · simp only [valueAt_cons, ih]
      ring

/-- A coefficient of a variable, added over the columns of the variable. -/
def addParts (coef : ℚ) (parts : List (ℕ × ℚ)) (es : List (ℕ × ℚ)) : List (ℕ × ℚ) :=
  parts.foldl (fun es (column, sign) => addEntry column (coef * sign) es) es

theorem nodup_addParts {coef : ℚ} {parts es : List (ℕ × ℚ)} (h : (es.map (·.1)).Nodup) :
    ((addParts coef parts es).map (·.1)).Nodup := by
  induction parts generalizing es with
  | nil => exact h
  | cons part parts ih => exact ih (nodup_addEntry h)

/-- Only the columns of the variable are new. -/
theorem mem_keys_foldl_addEntry {α : Type} [Scalar α] {coef : α} {parts es : List (ℕ × α)} {k : ℕ}
    (h : k ∈ (parts.foldl (fun es (column, sign) => addEntry column (coef * sign) es) es).map (·.1)) :
    k ∈ es.map (·.1) ∨ k ∈ parts.map (·.1) := by
  induction parts generalizing es with
  | nil => exact Or.inl h
  | cons part parts ih =>
    rcases ih h with hes | hparts
    · rcases mem_keys_addEntry hes with hold | rfl
      · exact Or.inl hold
      · exact Or.inr (by simp)
    · exact Or.inr (List.mem_cons_of_mem _ hparts)

theorem valueAt_addParts (coef : ℚ) (parts es : List (ℕ × ℚ)) (x : List ℚ) :
    valueAt (addParts coef parts es) x = valueAt es x + coef * valueAt parts x := by
  induction parts generalizing es with
  | nil => simp [addParts]
  | cons part parts ih =>
    change valueAt (addParts coef parts (addEntry part.1 (coef * part.2) es)) x = _
    rw [ih, valueAt_addEntry, valueAt_cons]
    ring

/-- The coefficients from variable `first` on, added over the structural columns. -/
def addCoefficients (components : Components ℚ) (first : ℕ) (coefficients : List ℚ)
    (es : List (ℕ × ℚ)) : List (ℕ × ℚ) :=
  (coefficients.zipIdx first).foldl
    (fun es (coef, j) => if coef == 0 then es else addParts coef (components.getD j []) es) es

theorem addCoefficients_cons (components : Components ℚ) (first : ℕ) (coef : ℚ)
    (coefficients : List ℚ)
    (es : List (ℕ × ℚ)) : addCoefficients components first (coef :: coefficients) es =
      addCoefficients components (first + 1) coefficients
        (if coef == 0 then es else addParts coef (components.getD first []) es) := rfl

theorem nodup_addCoefficients {components : Components ℚ} {first : ℕ} {coefficients : List ℚ}
    {es : List (ℕ × ℚ)} (h : (es.map (·.1)).Nodup) :
    ((addCoefficients components first coefficients es).map (·.1)).Nodup := by
  induction coefficients generalizing first es with
  | nil => exact h
  | cons coef coefficients ih =>
    rw [addCoefficients_cons]
    refine ih ?_
    split
    · exact h
    · exact nodup_addParts h

theorem mem_keys_addCoefficients {components : Components ℚ} {first k : ℕ} {coefficients : List ℚ}
    {es : List (ℕ × ℚ)} (h : k ∈ (addCoefficients components first coefficients es).map (·.1)) :
    k ∈ es.map (·.1) ∨ ∃ parts ∈ components, k ∈ parts.map (·.1) := by
  induction coefficients generalizing first es with
  | nil => exact Or.inl h
  | cons coef coefficients ih =>
    rw [addCoefficients_cons] at h
    rcases ih h with hes | hparts
    · split at hes
      · exact Or.inl hes
      · rcases mem_keys_foldl_addEntry hes with hold | hnew
        · exact Or.inl hold
        · refine Or.inr ⟨components.getD first [], ?_, hnew⟩
          by_cases hlt : first < components.length
          · simp [hlt]
          · simp [not_lt.mp hlt] at hnew
    · exact Or.inr hparts

theorem valueAt_addCoefficients (components : Components ℚ) (first : ℕ) (coefficients : List ℚ)
    (es : List (ℕ × ℚ)) (x : List ℚ) :
    valueAt (addCoefficients components first coefficients es) x =
      valueAt es x + dot coefficients ((componentSums components x).drop first) := by
  induction coefficients generalizing first es with
  | nil => simp [addCoefficients]
  | cons coef coefficients ih =>
    -- a zero coefficient is skipped, and adding it would change nothing
    have hstep : valueAt (if coef == 0 then es else addParts coef (components.getD first []) es) x =
        valueAt es x + coef * valueAt (components.getD first []) x := by
      split
      · rename_i hzero
        have hcoef : coef = 0 := by simpa using hzero
        rw [hcoef, zero_mul, add_zero]
      · exact valueAt_addParts _ _ _ _
    rw [addCoefficients_cons, ih, hstep]
    by_cases hlt : first < components.length
    · rw [List.drop_eq_getElem_cons (i := first) (by simpa using hlt), dot_cons,
        ← entry_eq_getElem, entry_componentSums]
      ring
    · -- past the last variable both sides are empty
      rw [List.drop_of_length_le (by simp; omega), List.drop_of_length_le (by simp; omega)]
      simp [not_lt.mp hlt]

/-- Coefficients over variables as entries over structural columns. -/
def structuralEntries (components : Components ℚ) (coefficients : List ℚ) : List (ℕ × ℚ) :=
  addCoefficients components 0 coefficients []

/-- Writing a row over the structural columns does not fail where every coefficient has a
variable. -/
theorem structuralRow_eq {components : Components ℚ} {coefficients : List ℚ}
    (h : coefficients.length ≤ components.length) :
    structuralRow components coefficients = .ok (structuralEntries components coefficients) := by
  refine foldlM_eq_ok (fun e he es => ?_) []
  obtain ⟨coef, j⟩ := e
  have hj : j < components.length := by
    have := (List.mem_zipIdx' he).1
    omega
  dsimp only
  split
  · rfl
  · rw [position_get_eq hj []]
    rfl

/-- **Only columns of variables are listed**, in any arithmetic. -/
theorem mem_keys_structuralRow {α : Type} [Scalar α] {components : Components α}
    {coefficients : List α} {entries : List (ℕ × α)}
    (h : structuralRow components coefficients = .ok entries) :
    ∀ k ∈ entries.map (·.1), ∃ parts ∈ components, k ∈ parts.map (·.1) := by
  refine foldlM_induction (P := fun es : List (ℕ × α) =>
    ∀ k ∈ es.map (·.1), ∃ parts ∈ components, k ∈ parts.map (·.1)) ?_ (by simp) h
  rintro es hes ⟨coef, j⟩ next hnext
  dsimp only at hnext
  split at hnext
  · exact Except.ok.inj hnext ▸ hes
  · cases hj : components[j]? with
    | none =>
      rw [Position.get, hj] at hnext
      cases hnext
    | some parts =>
      rw [Position.get, hj] at hnext
      obtain rfl := Except.ok.inj hnext
      intro k hk
      rcases mem_keys_foldl_addEntry hk with hold | hnew
      · exact hes k hold
      · exact ⟨parts, List.mem_of_getElem? hj, hnew⟩

theorem key_lt_of_mem_structuralRow {α : Type} [Scalar α] {kinds : List Kind}
    {coefficients : List α} {entries : List (ℕ × α)} {k : ℕ}
    (h : structuralRow (componentsFrom 0 kinds) coefficients = .ok entries)
    (hk : k ∈ entries.map (·.1)) : k < structuralWidth kinds := by
  obtain ⟨parts, hparts, hmem⟩ := mem_keys_structuralRow h k hk
  obtain ⟨e, he, rfl⟩ := List.mem_map.mp hmem
  exact key_lt_of_mem_components hparts he

theorem nodup_structuralEntries (components : Components ℚ) (coefficients : List ℚ) :
    ((structuralEntries components coefficients).map (·.1)).Nodup :=
  nodup_addCoefficients (by simp)

/-- Only columns of variables are listed. -/
theorem key_lt_of_mem_structuralEntries {kinds : List Kind} {coefficients : List ℚ} {k : ℕ}
    (h : k ∈ (structuralEntries (componentsFrom 0 kinds) coefficients).map (·.1)) :
    k < structuralWidth kinds := by
  rcases mem_keys_addCoefficients h with hnil | ⟨parts, hparts, hk⟩
  · simp at hnil
  · obtain ⟨e, he, rfl⟩ := List.mem_map.mp hk
    exact key_lt_of_mem_components hparts he

/-- **A row has over the columns the value that it has over the variables.** -/
theorem valueAt_structuralEntries (components : Components ℚ) (coefficients : List ℚ) (x : List ℚ) :
    valueAt (structuralEntries components coefficients) x =
      dot coefficients (componentSums components x) := by
  rw [structuralEntries, valueAt_addCoefficients, List.drop_zero, valueAt_nil, zero_add]

/-! ## Orientation -/

/-- The row over the structural columns, negated where its right-hand side is negative. -/
def StatedRow.oriented (components : Components ℚ) (row : StatedRow ℚ) : OrientedRow ℚ :=
  if row.rhs < 0 then
    ⟨row.name, row.source,
      (structuralEntries components row.coefficients).map fun (k, v) => (k, -v),
      row.sign.flip, -row.rhs, true⟩
  else
    ⟨row.name, row.source, structuralEntries components row.coefficients, row.sign, row.rhs, false⟩

/-- A number, negated where the row that it belongs to is. -/
def turn (flipped : Bool) (a : ℚ) : ℚ := if flipped then -a else a

@[simp] theorem turn_zero (flipped : Bool) : turn flipped 0 = 0 := by
  cases flipped <;> simp [turn]

theorem abs_turn (flipped : Bool) (a : ℚ) : |turn flipped a| = |a| := by
  cases flipped <;> simp [turn]

theorem turn_mul_comm (flipped : Bool) (a b : ℚ) : turn flipped a * b = a * turn flipped b := by
  cases flipped <;> simp [turn]

theorem orient_eq {components : Components ℚ} {row : StatedRow ℚ}
    (h : row.coefficients.length ≤ components.length) :
    row.orient components = .ok (row.oriented components) := by
  unfold StatedRow.orient StatedRow.oriented
  rw [structuralRow_eq h]
  change (if row.rhs < 0 then _ else _) = _
  split <;> rfl

theorem valueAt_neg (es : List (ℕ × ℚ)) (x : List ℚ) :
    valueAt (es.map fun (k, v) => (k, -v)) x = -valueAt es x := by
  induction es with
  | nil => simp
  | cons e es ih =>
    rw [List.map_cons, valueAt_cons, valueAt_cons, ih]
    change -e.2 * entry x e.1 + _ = _
    ring

namespace StatedRow

variable (components : Components ℚ) (row : StatedRow ℚ)

/-- An oriented row has a right-hand side that is not negative. -/
theorem oriented_rhs_nonneg : 0 ≤ (row.oriented components).rhs := by
  unfold oriented
  split
  · rename_i hneg
    exact neg_nonneg.mpr (le_of_lt hneg)
  · rename_i hnonneg
    exact not_lt.mp hnonneg

theorem keys_oriented : (row.oriented components).entries.map (·.1) =
    (structuralEntries components row.coefficients).map (·.1) := by
  unfold oriented
  split
  · simp only [List.map_map]
    rfl
  · rfl

/-- Moving the right-hand side of an oriented row moves that of the row, in the direction of the
model. -/
theorem holdsWithin_oriented_add_iff (tol d : ℚ) (x : List ℚ) :
    (row.oriented components).sign.HoldsWithin tol (valueAt (row.oriented components).entries x)
        ((row.oriented components).rhs + turn (row.oriented components).flipped d) ↔
      row.sign.HoldsWithin tol (dot row.coefficients (componentSums components x))
        (row.rhs + d) := by
  unfold oriented
  split
  · dsimp only
    rw [valueAt_neg, valueAt_structuralEntries, turn, if_pos rfl, ← neg_add,
      Relation.holdsWithin_flip_neg]
  · dsimp only
    rw [valueAt_structuralEntries]
    rfl

/-- **Orientation changes nothing about the points that meet a row**, exactly or up to a
tolerance. -/
theorem holdsWithin_oriented_iff (tol : ℚ) (x : List ℚ) :
    (row.oriented components).sign.HoldsWithin tol (valueAt (row.oriented components).entries x)
        (row.oriented components).rhs ↔
      row.sign.HoldsWithin tol (dot row.coefficients (componentSums components x)) row.rhs := by
  have hiff := row.holdsWithin_oriented_add_iff components tol 0 x
  rwa [turn_zero, add_zero, add_zero] at hiff

/-- An oriented row is worth at a vector what the row is worth at its component sums, turned as the
row is. -/
theorem valueAt_oriented (x : List ℚ) : valueAt (row.oriented components).entries x =
    turn (row.oriented components).flipped
      (dot row.coefficients (componentSums components x)) := by
  unfold oriented
  split
  · dsimp only
    rw [valueAt_neg, valueAt_structuralEntries, turn, if_pos rfl]
  · dsimp only
    rw [valueAt_structuralEntries]
    rfl

/-- A row that is worth nothing at a vector is worth nothing there after orientation. -/
theorem valueAt_oriented_eq_zero {x : List ℚ}
    (h : dot row.coefficients (componentSums components x) = 0) :
    valueAt (row.oriented components).entries x = 0 := by
  rw [valueAt_oriented, h, turn_zero]

theorem holds_oriented_iff (x : List ℚ) :
    (row.oriented components).sign.Holds (valueAt (row.oriented components).entries x)
        (row.oriented components).rhs ↔
      row.sign.Holds (dot row.coefficients (componentSums components x)) row.rhs := by
  rw [← Relation.holdsWithin_zero, ← Relation.holdsWithin_zero, holdsWithin_oriented_iff]

/-- Nor does it change their distance from the row. -/
theorem abs_oriented (x : List ℚ) :
    |valueAt (row.oriented components).entries x - (row.oriented components).rhs| =
      |dot row.coefficients (componentSums components x) - row.rhs| := by
  unfold oriented
  split
  · dsimp only
    rw [valueAt_neg, valueAt_structuralEntries, ← abs_neg]
    congr 1
    ring
  · dsimp only
    rw [valueAt_structuralEntries]

/-- A row `≤` whose right-hand side is not negative is not turned round. -/
theorem sign_oriented_of_le (hsign : row.sign = .le) (hrhs : 0 ≤ row.rhs) :
    (row.oriented components).sign = .le := by
  rw [oriented, if_neg (not_lt.mpr hrhs)]
  exact hsign

end StatedRow

end LinOpt
