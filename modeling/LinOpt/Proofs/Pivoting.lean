import LinOpt.Pivoting
import LinOpt.Proofs.Dense
/-!
# What a choice of pivot guarantees

The entering column is one of negative reduced cost, and there is none only when no reduced cost is
below `-tol`. The leaving row is one whose entry is above `tol`, and there is none only when no
entry is. Which of the candidates is taken depends on the pivot rule and on ties; everything here
holds of all of them.
-/

namespace LinOpt

variable {tol : ℚ} {rule : PivotRule} {j : ℕ}

/-- A fold that answers with one of its two arguments ends at the start or at a member of the
list. -/
theorem foldl_mem_cons {β : Type} {choose : β → β → β} (h : ∀ a b, choose a b = a ∨ choose a b = b)
    (more : List β) (first : β) : more.foldl choose first ∈ first :: more := by
  induction more generalizing first with
  | nil => simp
  | cons b more ih =>
    rw [List.foldl_cons]
    rcases h first b with heq | heq
    · rw [heq]
      rcases List.mem_cons.mp (ih first) with hfirst | hmore
      · rw [hfirst]
        simp
      · simp [hmore]
    · rw [heq]
      exact List.mem_cons_of_mem _ (ih b)

/-- The entries of a list, with their places. -/
theorem mem_zipIdx_iff {x : List ℚ} {a : ℚ} {i : ℕ} :
    (a, i) ∈ x.zipIdx ↔ i < x.length ∧ entry x i = a := by
  rw [List.mem_zipIdx_iff_getElem?, List.getElem?_eq_some_iff]
  constructor
  · rintro ⟨hi, hv⟩
    exact ⟨hi, by rw [entry_eq_getElem hi]; exact hv⟩
  · rintro ⟨hi, hv⟩
    exact ⟨hi, by rw [← entry_eq_getElem hi]; exact hv⟩

/-! ## The entering column -/

/-- The columns that may enter, with their reduced costs. -/
theorem mem_entering_iff {reduced : List ℚ} {value : ℚ} :
    (value, j) ∈ (reduced.zipIdx.filter fun (value, _) => decide (value < -tol)) ↔
      j < reduced.length ∧ entry reduced j = value ∧ value < -tol := by
  rw [List.mem_filter, mem_zipIdx_iff, decide_eq_true_eq, and_assoc]

/-- **No column enters only when no reduced cost is below `-tol`.** -/
theorem le_entry_of_chooseEntering_eq_none {reduced : List ℚ}
    (h : chooseEntering reduced tol rule = none) (hj : j < reduced.length) :
    -tol ≤ entry reduced j := by
  unfold chooseEntering at h
  split at h
  · rename_i hnil
    by_contra hlt
    have hmem := mem_entering_iff.mpr ⟨hj, rfl, not_le.mp hlt⟩
    rw [hnil] at hmem
    simp at hmem
  · cases rule <;> simp at h

/-- **The entering column has a reduced cost below `-tol`.** -/
theorem entry_lt_of_chooseEntering_eq_some {reduced : List ℚ}
    (h : chooseEntering reduced tol rule = some j) :
    j < reduced.length ∧ entry reduced j < -tol := by
  -- whichever rule chooses, it chooses a candidate
  have hmem :
      ∃ value, (value, j) ∈ reduced.zipIdx.filter fun (value, _) => decide (value < -tol) := by
    unfold chooseEntering at h
    split at h
    · simp at h
    · rename_i first more hcons
      rw [hcons]
      cases rule with
      | bland =>
        obtain rfl : first.2 = j := by simpa using h
        exact ⟨first.1, by simp⟩
      | dantzig =>
        have hfold : more.foldl (fun (best : ℚ × ℕ) candidate =>
            if candidate.1 < best.1 - tie best.1 then candidate else best) first ∈ first :: more :=
          foldl_mem_cons (fun a b => by split <;> simp) more first
        obtain rfl := Option.some.inj h
        exact ⟨_, hfold⟩
  obtain ⟨value, hmem⟩ := hmem
  obtain ⟨hj, hv, hneg⟩ := mem_entering_iff.mp hmem
  exact ⟨hj, hv ▸ hneg⟩

/-! ## The leaving row -/

/-- A step of the ratio test keeps its row, or takes the row it is shown where the entry is above
`tol`. -/
theorem ratioStep_cases (tol : ℚ) (rule : PivotRule) (basis : List ℕ) (best : RatioBest ℚ) (i : ℕ)
    (value r : ℚ) :
    ratioStep basis tol rule best i value r = best ∨
      tol < value ∧ ratioStep basis tol rule best i value r = some (i, r / value) := by
  unfold ratioStep
  split
  · exact Or.inl rfl
  · rename_i hle
    have hlt : tol < value := not_le.mp hle
    cases best with
    | none => exact Or.inr ⟨hlt, rfl⟩
    | some held =>
      dsimp only
      split
      · exact Or.inr ⟨hlt, rfl⟩
      · split
        · exact Or.inr ⟨hlt, rfl⟩
        · exact Or.inl rfl

/-- A row is held after an entry above `tol`. -/
theorem ratioStep_none (basis : List ℕ) (best : RatioBest ℚ) (i : ℕ) (value r : ℚ)
    (h : ratioStep basis tol rule best i value r = none) : best = none ∧ value ≤ tol := by
  rcases ratioStep_cases tol rule basis best i value r with heq | ⟨-, heq⟩
  · have hbest : best = none := heq ▸ h
    refine ⟨hbest, ?_⟩
    by_contra hle
    rw [hbest, ratioStep, if_neg hle] at h
    simp at h
  · rw [heq] at h
    simp at h

/-- A run of the ratio test that holds no row has met no entry above `tol`. -/
theorem foldl_ratioStep_none (rhs : List ℚ) (basis : List ℕ) (rows : List (ℚ × ℕ))
    (best : RatioBest ℚ)
    (h : rows.foldl
      (fun best (value, i) => ratioStep basis tol rule best i value (entry rhs i)) best = none) :
    best = none ∧ ∀ row ∈ rows, row.1 ≤ tol := by
  induction rows generalizing best with
  | nil => exact ⟨h, by simp⟩
  | cons row rows ih =>
    rw [List.foldl_cons] at h
    obtain ⟨hstep, hrows⟩ := ih _ h
    obtain ⟨hbest, hle⟩ := ratioStep_none _ _ _ _ _ hstep
    exact ⟨hbest, by simpa using ⟨hle, fun a b => hrows (a, b)⟩⟩

/-- A run of the ratio test holds the row it started with or one it met with an entry above
`tol`. -/
theorem foldl_ratioStep_some (rhs : List ℚ) (basis : List ℕ) (rows : List (ℚ × ℕ))
    (best : RatioBest ℚ) {held : ℕ × ℚ}
    (h : rows.foldl
      (fun best (value, i) => ratioStep basis tol rule best i value (entry rhs i)) best =
        some held) :
    best = some held ∨ ∃ value, (value, held.1) ∈ rows ∧ tol < value := by
  induction rows generalizing best with
  | nil => exact Or.inl h
  | cons row rows ih =>
    rw [List.foldl_cons] at h
    rcases ih _ h with hstep | ⟨value, hmem, hlt⟩
    · dsimp only at hstep
      rcases ratioStep_cases tol rule basis best row.2 row.1 (entry rhs row.2)
        with heq | ⟨hlt, heq⟩
      · exact Or.inl (heq ▸ hstep)
      · obtain rfl := Option.some.inj (heq.symm.trans hstep)
        exact Or.inr ⟨row.1, by simp, hlt⟩
    · exact Or.inr ⟨value, by simp [hmem], hlt⟩

/-- **No row leaves only when no entry of the column is above `tol`.** -/
theorem entry_le_of_chooseLeaving_eq_none {column rhs : List ℚ} {basis : List ℕ} {i : ℕ}
    (h : chooseLeaving column rhs basis tol rule = none) (hi : i < column.length) :
    entry column i ≤ tol := by
  have hrows := (foldl_ratioStep_none rhs basis column.zipIdx none (Option.map_eq_none_iff.mp h)).2
  exact hrows (entry column i, i) (mem_zipIdx_iff.mpr ⟨hi, rfl⟩)

/-- **The leaving row has an entry above `tol`.** -/
theorem lt_entry_of_chooseLeaving_eq_some {column rhs : List ℚ} {basis : List ℕ} {i : ℕ}
    (h : chooseLeaving column rhs basis tol rule = some i) :
    i < column.length ∧ tol < entry column i := by
  obtain ⟨held, hheld, rfl⟩ := Option.map_eq_some_iff.mp h
  rcases foldl_ratioStep_some rhs basis column.zipIdx none hheld with hnone | ⟨value, hmem, hlt⟩
  · simp at hnone
  · obtain ⟨hi, hv⟩ := mem_zipIdx_iff.mp hmem
    exact ⟨hi, hv ▸ hlt⟩

end LinOpt
