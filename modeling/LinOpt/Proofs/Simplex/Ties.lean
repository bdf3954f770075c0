import LinOpt.Proofs.Simplex.Bland
/-!
# How far ties lead

Both choices of a pivot scan their candidates in order and keep one of them (`scan`): the next one is
taken where it is lower by more than a tie, and under Bland's rule also where it ties and its basic
column is lower (`prefer`).

A tie is judged against the candidate that is held. As long as only lower ones are taken this does
no harm: what is held stays within one tie of everything seen, and below everything before it
(`dantzig_chooses`). Bland's tie break may take a larger ratio, and the next tie is judged against
that one. So ties add up, one for each row at most (`bland_chooses`), and the row that leaves can be
worse than another in its ratio and in its basic column both (`bland_passes_over`). Where ties do
not add up (`TiesAgree`), as among ratios that are equal or apart (`tiesAgree_of_apart`), one tie is
all.
-/

namespace LinOpt

variable {tol : ℚ} {rule : PivotRule} {basis : List ℕ} {column rhs reduced : List ℚ}
  {l : List (ℚ × ℕ)} {best held shown : ℚ × ℕ} {i j k : ℕ}

/-! ## The scan -/

/-- Which of two candidates is kept, each a value with its place. -/
def prefer (rule : PivotRule) (basis : List ℕ) (held shown : ℚ × ℕ) : ℚ × ℕ :=
  if shown.1 < held.1 - tie held.1 then shown
  else if rule = .bland ∧ |shown.1 - held.1| ≤ tie held.1 ∧
      basis.getD shown.2 0 < basis.getD held.2 0 then shown
  else held

/-- What is kept of candidates in order. -/
def scan (rule : PivotRule) (basis : List ℕ) : List (ℚ × ℕ) → Option (ℚ × ℕ)
  | [] => none
  | first :: more => some (more.foldl (prefer rule basis) first)

theorem scan_concat (rule : PivotRule) (basis : List ℕ) (l : List (ℚ × ℕ)) (shown : ℚ × ℕ) :
    scan rule basis (l ++ [shown]) =
      some (((scan rule basis l).map (prefer rule basis · shown)).getD shown) := by
  cases l with
  | nil => rfl
  | cons first more =>
    rw [List.cons_append, scan, List.foldl_append]
    rfl

theorem scan_eq_none_iff : scan rule basis l = none ↔ l = [] := by
  cases l <;> simp [scan]

theorem prefer_eq_or (rule : PivotRule) (basis : List ℕ) (held shown : ℚ × ℕ) :
    prefer rule basis held shown = shown ∨ prefer rule basis held shown = held := by
  unfold prefer
  split_ifs <;> simp

/-- **What every step of a scan keeps holds of what it ends with**, which is one of the candidates. -/
theorem scan_induction {P : List (ℚ × ℕ) → ℚ × ℕ → Prop} (hfirst : ∀ a, P [a] a)
    (hstep : ∀ l held shown, held ∈ l → P l held →
      P (l ++ [shown]) (prefer rule basis held shown))
    (h : scan rule basis l = some best) : best ∈ l ∧ P l best := by
  induction l using List.reverseRecOn generalizing best with
  | nil => cases h
  | append_singleton l shown ih =>
    rw [scan_concat] at h
    obtain rfl := Option.some.inj h
    cases hheld : scan rule basis l with
    | none =>
      obtain rfl := scan_eq_none_iff.mp hheld
      exact ⟨List.mem_singleton_self shown, hfirst shown⟩
    | some held =>
      obtain ⟨hmem, hP⟩ := ih hheld
      refine ⟨?_, hstep l held shown hmem hP⟩
      rcases prefer_eq_or rule basis held shown with hkept | hkept
      · exact List.mem_append_right _ (List.mem_singleton.mpr hkept)
      · rw [Option.map_some, Option.getD_some, hkept]
        exact List.mem_append_left _ hmem

theorem forall_mem_concat {P : ℚ × ℕ → Prop} :
    (∀ a ∈ l ++ [shown], P a) ↔ (∀ a ∈ l, P a) ∧ P shown := by
  rw [List.forall_mem_append, List.forall_mem_singleton]

theorem mem_of_scan (h : scan rule basis l = some best) : best ∈ l :=
  (scan_induction (P := fun _ _ => True) (fun _ => trivial) (fun _ _ _ _ _ => trivial) h).1

/-- A candidate that is shown is lower by more than a tie, or ties and has a lower basic column, or
is passed over. -/
theorem prefer_cases (rule : PivotRule) (basis : List ℕ) (held shown : ℚ × ℕ) :
    (shown.1 < held.1 - tie held.1 ∧ prefer rule basis held shown = shown) ∨
    (|shown.1 - held.1| ≤ tie held.1 ∧ basis.getD shown.2 0 < basis.getD held.2 0 ∧
      prefer rule basis held shown = shown) ∨
    (held.1 - tie held.1 ≤ shown.1 ∧ prefer rule basis held shown = held ∧
      (rule = .bland → |shown.1 - held.1| ≤ tie held.1 →
        basis.getD held.2 0 ≤ basis.getD shown.2 0)) := by
  unfold prefer
  split
  · rename_i hlower
    exact Or.inl ⟨hlower, rfl⟩
  · rename_i hlower
    split
    · rename_i hbreak
      exact Or.inr (Or.inl ⟨hbreak.2.1, hbreak.2.2, rfl⟩)
    · rename_i hbreak
      exact Or.inr (Or.inr ⟨not_lt.mp hlower, rfl, fun hrule htied =>
        not_lt.mp fun hlt => hbreak ⟨hrule, htied, hlt⟩⟩)

theorem prefer_dantzig (basis : List ℕ) (held shown : ℚ × ℕ) :
    prefer .dantzig basis held shown =
      if shown.1 < held.1 - tie held.1 then shown else held := by
  simp [prefer]

/-! ## The candidates -/

/-- The columns that may enter, with their reduced costs. -/
def entering (reduced : List ℚ) (tol : ℚ) : List (ℚ × ℕ) :=
  reduced.zipIdx.filter fun (value, _) => decide (value < -tol)

/-- The ratio of a row. -/
def ratioAt (column rhs : List ℚ) (k : ℕ) : ℚ := entry rhs k / entry column k

/-- The ratios of some rows, given with their entries in the column. -/
def ratiosOf (rhs : List ℚ) (tol : ℚ) (rows : List (ℚ × ℕ)) : List (ℚ × ℕ) :=
  (rows.filter fun (value, _) => decide (tol < value)).map fun row => (rowRatio rhs row, row.2)

/-- The rows that may leave, with their ratios. -/
def leaving (column rhs : List ℚ) (tol : ℚ) : List (ℚ × ℕ) := ratiosOf rhs tol column.zipIdx

theorem mem_leaving_iff {a : ℚ × ℕ} : a ∈ leaving column rhs tol ↔
    a.2 < column.length ∧ tol < entry column a.2 ∧ a.1 = ratioAt column rhs a.2 := by
  obtain ⟨r, k⟩ := a
  simp only [leaving, ratiosOf, List.mem_map, List.mem_filter, decide_eq_true_eq, Prod.exists,
    mem_zipIdx_iff, Prod.mk.injEq]
  constructor
  · rintro ⟨value, place, ⟨⟨hk, rfl⟩, hlt⟩, rfl, rfl⟩
    exact ⟨hk, hlt, rfl⟩
  · rintro ⟨hk, hlt, rfl⟩
    exact ⟨entry column k, k, ⟨⟨hk, rfl⟩, hlt⟩, rfl, rfl⟩

theorem chooseEntering_eq_scan (reduced : List ℚ) (tol : ℚ) :
    chooseEntering reduced tol .dantzig = (scan .dantzig [] (entering reduced tol)).map (·.2) := by
  unfold chooseEntering entering
  cases reduced.zipIdx.filter fun (value, _) => decide (value < -tol) with
  | nil => rfl
  | cons first more =>
    have hprefer : prefer .dantzig [] = fun best candidate : ℚ × ℕ =>
        if candidate.1 < best.1 - tie best.1 then candidate else best := by
      funext held shown
      exact prefer_dantzig [] held shown
    rw [scan, hprefer]
    rfl

/-- A step of the ratio test keeps what a scan of the ratios keeps. -/
theorem ratioStep_eq (basis : List ℕ) (rule : PivotRule) (held row : ℚ × ℕ) (h : tol < row.1) :
    ratioStep basis tol rule (some held.swap) row.2 row.1 (entry rhs row.2) =
      some (prefer rule basis held (rowRatio rhs row, row.2)).swap := by
  rw [ratioStep, if_neg (not_le.mpr h), prefer, apply_ite Prod.swap, apply_ite Prod.swap,
    apply_ite some, apply_ite some]
  simp only [scalar_abs_eq]
  rfl

theorem ratiosOf_concat (rhs : List ℚ) (tol : ℚ) (rows : List (ℚ × ℕ)) (row : ℚ × ℕ) :
    ratiosOf rhs tol (rows ++ [row]) =
      ratiosOf rhs tol rows ++ if tol < row.1 then [(rowRatio rhs row, row.2)] else [] := by
  rw [ratiosOf, List.filter_append, List.map_append]
  congr 1
  split
  · rename_i hrow
    rw [List.filter_cons_of_pos (by simpa using hrow)]
    rfl
  · rename_i hrow
    rw [List.filter_cons_of_neg (by simpa using hrow)]
    rfl

/-- **The ratio test is a scan of the ratios** of the rows that may leave. -/
theorem foldl_ratioStep_eq_scan (basis : List ℕ) (rule : PivotRule) (rows : List (ℚ × ℕ)) :
    rows.foldl (fun best (value, i) => ratioStep basis tol rule best i value (entry rhs i)) none =
      (scan rule basis (ratiosOf rhs tol rows)).map Prod.swap := by
  induction rows using List.reverseRecOn with
  | nil => rfl
  | append_singleton rows row ih =>
    rw [List.foldl_append, List.foldl_cons, List.foldl_nil, ih, ratiosOf_concat]
    change ratioStep basis tol rule _ row.2 row.1 (entry rhs row.2) = _
    by_cases hrow : tol < row.1
    · rw [if_pos hrow, scan_concat]
      cases scan rule basis (ratiosOf rhs tol rows) with
      | none =>
        rw [Option.map_none, ratioStep, if_neg (not_le.mpr hrow)]
        rfl
      | some held => exact ratioStep_eq basis rule held row hrow
    · rw [if_neg hrow, List.append_nil, ratioStep, if_pos (not_lt.mp hrow)]

theorem chooseLeaving_eq_scan (column rhs : List ℚ) (basis : List ℕ) (tol : ℚ)
    (rule : PivotRule) :
    chooseLeaving column rhs basis tol rule =
      (scan rule basis (leaving column rhs tol)).map (·.2) := by
  rw [chooseLeaving, foldl_ratioStep_eq_scan, Option.map_map]
  rfl

/-- No column enters exactly where no reduced cost is below `-tol`, by either rule. -/
theorem chooseEntering_eq_none_iff : chooseEntering reduced tol rule = none ↔
    ∀ k < reduced.length, -tol ≤ entry reduced k := by
  refine ⟨fun hnone k hk => le_entry_of_chooseEntering_eq_none hnone hk, fun hall => ?_⟩
  cases hchoose : chooseEntering reduced tol rule with
  | none => rfl
  | some j =>
    obtain ⟨hj, hlt⟩ := entry_lt_of_chooseEntering_eq_some hchoose
    exact absurd hlt (not_lt.mpr (hall j hj))

/-- No row leaves exactly where no entry is above `tol`, by either rule. -/
theorem chooseLeaving_eq_none_iff : chooseLeaving column rhs basis tol rule = none ↔
    ∀ k < column.length, entry column k ≤ tol := by
  refine ⟨fun hnone k hk => entry_le_of_chooseLeaving_eq_none hnone hk, fun hall => ?_⟩
  cases hchoose : chooseLeaving column rhs basis tol rule with
  | none => rfl
  | some i =>
    obtain ⟨hi, hlt⟩ := lt_entry_of_chooseLeaving_eq_some hchoose
    exact absurd hlt (not_lt.mpr (hall i hi))

/-! ## The largest coefficient, and the least ratio -/

/-- The candidates come in the order of their places. -/
abbrev ByPlace (l : List (ℚ × ℕ)) : Prop := l.Pairwise fun a b => a.2 < b.2

theorem byPlace_zipIdx (x : List ℚ) : ByPlace x.zipIdx := by
  have hplaces : (x.zipIdx.map Prod.snd).Pairwise (· < ·) := by
    rw [List.zipIdx_map_snd]
    exact List.pairwise_lt_range'
  exact List.pairwise_map.mp hplaces

theorem byPlace_entering (reduced : List ℚ) (tol : ℚ) : ByPlace (entering reduced tol) :=
  (byPlace_zipIdx reduced).sublist List.filter_sublist

theorem byPlace_leaving (column rhs : List ℚ) (tol : ℚ) : ByPlace (leaving column rhs tol) :=
  List.pairwise_map.mpr ((byPlace_zipIdx column).sublist List.filter_sublist)

/-- **The candidate is the first of the least**: no more than a tie above any candidate, and below
all earlier ones. -/
structure FirstLeast (l : List (ℚ × ℕ)) (best : ℚ × ℕ) : Prop where
  within : ∀ a ∈ l, best.1 - tie best.1 ≤ a.1
  earlier : ∀ a ∈ l, a.2 < best.2 → best.1 < a.1

/-- **A scan by the rule of the largest coefficient ends with the first of the least.** -/
theorem firstLeast_of_scan (hplaces : ByPlace l) (h : scan .dantzig basis l = some best) :
    FirstLeast l best := by
  refine (scan_induction (P := fun l best => ByPlace l → FirstLeast l best) ?_ ?_ h).2 hplaces
  · intro a _
    have htie := tie_pos a.1
    refine ⟨List.forall_mem_singleton.mpr ?_, List.forall_mem_singleton.mpr fun hlt => ?_⟩
    · linarith
    · exact absurd hlt (lt_irrefl _)
  · intro l held shown hmem ih hplaces
    obtain ⟨hl, -, hlater⟩ := List.pairwise_append.mp hplaces
    obtain ⟨hwithin, hearlier⟩ := ih hl
    rw [prefer_dantzig]
    split
    · -- the new candidate is below all that the one held is within a tie of
      rename_i hlower
      have hbelow : ∀ a ∈ l, shown.1 < a.1 := fun a ha => lt_of_lt_of_le hlower (hwithin a ha)
      have htie := tie_pos shown.1
      refine ⟨forall_mem_concat.mpr ⟨fun a ha => ?_, ?_⟩,
        forall_mem_concat.mpr ⟨fun a ha _ => hbelow a ha, fun hlt => ?_⟩⟩
      · linarith [hbelow a ha]
      · linarith
      · exact absurd hlt (lt_irrefl _)
    · -- the one held stays, and what is shown now comes behind it
      rename_i hlower
      have hbehind := hlater held hmem shown (List.mem_singleton_self shown)
      refine ⟨forall_mem_concat.mpr ⟨hwithin, not_lt.mp hlower⟩,
        forall_mem_concat.mpr ⟨hearlier, fun hlt => ?_⟩⟩
      exact absurd hlt (not_lt.mpr hbehind.le)

/-- **The rule of the largest coefficient is within one tie of the extreme.** No column enters
exactly where no reduced cost is below `-tol`; otherwise the one that enters has a reduced cost no
more than a tie above any other and below all earlier ones. No row leaves exactly where no entry is
above `tol`; otherwise the one that leaves has a ratio no more than a tie above that of any other row
that may leave, and below all earlier ones. -/
theorem dantzig_chooses (tol : ℚ) :
    (∀ reduced : List ℚ,
      (chooseEntering reduced tol .dantzig = none ↔
        ∀ k < reduced.length, -tol ≤ entry reduced k) ∧
      ∀ j, chooseEntering reduced tol .dantzig = some j →
        j < reduced.length ∧ entry reduced j < -tol ∧
        (∀ k < reduced.length,
          entry reduced j - 1e-9 * max 1 |entry reduced j| ≤ entry reduced k) ∧
        ∀ k < j, entry reduced j < entry reduced k) ∧
    ∀ (column rhs : List ℚ) (basis : List ℕ),
      (chooseLeaving column rhs basis tol .dantzig = none ↔
        ∀ k < column.length, entry column k ≤ tol) ∧
      ∀ i, chooseLeaving column rhs basis tol .dantzig = some i →
        i < column.length ∧ tol < entry column i ∧
        ∀ k < column.length, tol < entry column k →
          ratioAt column rhs i - 1e-9 * max 1 |ratioAt column rhs i| ≤ ratioAt column rhs k ∧
          (k < i → ratioAt column rhs i < ratioAt column rhs k) := by
  simp only [← tie_eq]
  refine ⟨fun reduced => ⟨chooseEntering_eq_none_iff, ?_⟩,
    fun column rhs basis => ⟨chooseLeaving_eq_none_iff, ?_⟩⟩
  · intro j hchoose
    rw [chooseEntering_eq_scan] at hchoose
    obtain ⟨best, hscan, rfl⟩ := Option.map_eq_some_iff.mp hchoose
    obtain ⟨hwithin, hearlier⟩ := firstLeast_of_scan (byPlace_entering reduced tol) hscan
    obtain ⟨hj, hvalue, hneg⟩ := mem_entering_iff.mp (mem_of_scan hscan)
    have htie := tie_pos best.1
    have hmem : ∀ k < reduced.length, entry reduced k < -tol →
        (entry reduced k, k) ∈ entering reduced tol :=
      fun k hk hlt => mem_entering_iff.mpr ⟨hk, rfl, hlt⟩
    rw [hvalue]
    refine ⟨hj, hneg, fun k hk => ?_, fun k hk => ?_⟩
    · by_cases hcandidate : entry reduced k < -tol
      · exact hwithin (entry reduced k, k) (hmem k hk hcandidate)
      · linarith [not_lt.mp hcandidate]
    · by_cases hcandidate : entry reduced k < -tol
      · exact hearlier (entry reduced k, k) (hmem k (hk.trans hj) hcandidate) hk
      · linarith [not_lt.mp hcandidate]
  · intro i hchoose
    rw [chooseLeaving_eq_scan] at hchoose
    obtain ⟨best, hscan, rfl⟩ := Option.map_eq_some_iff.mp hchoose
    obtain ⟨hwithin, hearlier⟩ := firstLeast_of_scan (byPlace_leaving column rhs tol) hscan
    obtain ⟨hi, hlt, hratio⟩ := mem_leaving_iff.mp (mem_of_scan hscan)
    rw [← hratio]
    refine ⟨hi, hlt, fun k hk hcandidate => ?_⟩
    have hk' : (ratioAt column rhs k, k) ∈ leaving column rhs tol :=
      mem_leaving_iff.mpr ⟨hk, hcandidate, rfl⟩
    exact ⟨hwithin (ratioAt column rhs k, k) hk', hearlier (ratioAt column rhs k, k) hk'⟩

/-! ## Bland's rule -/

/-- The row numbers of the ratio test. -/
theorem map_snd_leaving (column rhs : List ℚ) (tol : ℚ) :
    (leaving column rhs tol).map Prod.snd =
      (List.range column.length).filter fun k => decide (tol < entry column k) := by
  have hplaces : (column.zipIdx.filter fun a => decide (tol < a.1)).map Prod.snd =
      (column.zipIdx.filter fun a => decide (tol < entry column a.2)).map Prod.snd := by
    congr 1
    refine List.filter_congr fun a ha => ?_
    rw [(mem_zipIdx_iff.mp ha).2]
  rw [leaving, ratiosOf, List.map_map]
  refine hplaces.trans ?_
  rw [List.range_eq_range', ← List.zipIdx_map_snd 0 column, List.filter_map]
  rfl

/-- **Each candidate from `a` on adds at most a tie to what is held.** -/
theorem drift_of_scan (hplaces : ByPlace l) {bound : ℚ}
    (hbound : ∀ a ∈ l, tie a.1 ≤ bound) (h : scan rule basis l = some best) :
    ∀ a ∈ l, best.1 ≤ a.1 + l.countP (fun b => a.2 ≤ b.2) * bound := by
  refine (scan_induction (P := fun l best => ByPlace l →
    (∀ a ∈ l, tie a.1 ≤ bound) → ∀ a ∈ l, best.1 ≤ a.1 + l.countP (fun b => a.2 ≤ b.2) * bound)
    ?_ ?_ h).2 hplaces hbound
  · intro a _ hbound
    have ha := List.forall_mem_singleton.mp hbound
    refine List.forall_mem_singleton.mpr ?_
    simpa using (tie_pos a.1).le.trans ha
  · intro l held shown hmem ih hplaces hbound
    obtain ⟨hl, -, hlater⟩ := List.pairwise_append.mp hplaces
    obtain ⟨hbound, -⟩ := forall_mem_concat.mp hbound
    have hdrift := ih hl hbound
    have htie := hbound held hmem
    have hpos := (tie_pos held.1).le.trans htie
    -- what is kept exceeds neither the one held nor the one shown by more than a tie
    have hkept : (prefer rule basis held shown).1 ≤ held.1 + bound ∧
        (prefer rule basis held shown).1 ≤ shown.1 + bound := by
      rcases prefer_cases rule basis held shown with
        ⟨hlower, hshown⟩ | ⟨htied, -, hshown⟩ | ⟨hnear, hheld, -⟩
      · rw [hshown]
        exact ⟨by linarith [tie_pos held.1], by linarith⟩
      · rw [hshown]
        exact ⟨by linarith [(abs_le.mp htied).2], by linarith⟩
      · rw [hheld]
        exact ⟨by linarith, by linarith⟩
    refine forall_mem_concat.mpr ⟨fun a ha => ?_, ?_⟩
    · have hbehind := hlater a ha shown (List.mem_singleton_self shown)
      rw [List.countP_append, List.countP_singleton, if_pos (by simpa using hbehind.le)]
      push_cast
      linarith [hkept.1, hdrift a ha]
    · rw [List.countP_append, List.countP_singleton, if_pos (by simp)]
      push_cast
      have hcount : (0 : ℚ) ≤ l.countP (fun b => decide (shown.2 ≤ b.2)) * bound :=
        mul_nonneg (Nat.cast_nonneg _) hpos
      linarith [hkept.2]

/-- **Ties do not add up**: of two candidates that tie, the second is no more than its own tie above
any that the first is no more than its tie above. -/
def TiesAgree (l : List (ℚ × ℕ)) : Prop :=
  ∀ a ∈ l, ∀ b ∈ l, ∀ c ∈ l,
    |b.1 - a.1| ≤ tie a.1 → a.1 - tie a.1 ≤ c.1 → b.1 - tie b.1 ≤ c.1

instance (l : List (ℚ × ℕ)) : Decidable (TiesAgree l) :=
  inferInstanceAs (Decidable (∀ a ∈ l, ∀ b ∈ l, ∀ c ∈ l, |b.1 - a.1| ≤ tie a.1 → _))

theorem TiesAgree.mono {l' : List (ℚ × ℕ)} (h : TiesAgree l) (hsub : l' ⊆ l) : TiesAgree l' :=
  fun a ha b hb c hc => h a (hsub ha) b (hsub hb) c (hsub hc)

/-- Candidates that are equal or apart tie only where they are equal. -/
theorem tiesAgree_of_apart (h : ∀ a ∈ l, ∀ b ∈ l, Apart a.1 b.1) : TiesAgree l := by
  intro a ha b hb c _ htied hnear
  rcases h a ha b hb with heq | hfar
  · rw [← heq]
    exact hnear
  · rw [abs_sub_comm] at htied
    exact absurd htied (not_le.mpr hfar)

/-- **The candidate is among the least, and no least one has a lower basic column.** -/
structure LowestLeast (basis : List ℕ) (l : List (ℚ × ℕ)) (best : ℚ × ℕ) : Prop where
  within : ∀ a ∈ l, best.1 - tie best.1 ≤ a.1
  lowest : ∀ a ∈ l, (∀ b ∈ l, a.1 ≤ b.1) → basis.getD best.2 0 ≤ basis.getD a.2 0

/-- **Where ties do not add up**, a scan by Bland's rule ends with the least of lowest basic
column. -/
theorem lowestLeast_of_scan (hagree : TiesAgree l) (h : scan .bland basis l = some best) :
    LowestLeast basis l best := by
  refine (scan_induction (P := fun l best => TiesAgree l → LowestLeast basis l best) ?_ ?_ h).2
    hagree
  · intro a _
    refine ⟨List.forall_mem_singleton.mpr ?_, List.forall_mem_singleton.mpr fun _ => le_rfl⟩
    linarith [tie_pos a.1]
  · intro l held shown hmem ih hagree
    have hleft : l ⊆ l ++ [shown] := List.subset_append_left l [shown]
    have hlast : shown ∈ l ++ [shown] := List.mem_append_right l (List.mem_singleton_self shown)
    obtain ⟨hwithin, hlowest⟩ := ih (hagree.mono hleft)
    have hleast : ∀ a ∈ l, (∀ b ∈ l ++ [shown], a.1 ≤ b.1) →
        basis.getD held.2 0 ≤ basis.getD a.2 0 :=
      fun a ha hall => hlowest a ha fun b hb => hall b (hleft hb)
    have hself : shown.1 - tie shown.1 ≤ shown.1 := by linarith [tie_pos shown.1]
    rcases prefer_cases .bland basis held shown with
      ⟨hlower, hkept⟩ | ⟨htied, hcolumn, hkept⟩ | ⟨hnear, hkept, hcolumn⟩
    · -- the one shown is below all others
      have hbelow : ∀ a ∈ l, shown.1 < a.1 := fun a ha => lt_of_lt_of_le hlower (hwithin a ha)
      rw [hkept]
      refine ⟨forall_mem_concat.mpr ⟨fun a ha => ?_, hself⟩,
        forall_mem_concat.mpr ⟨fun a ha hall => ?_, fun _ => le_rfl⟩⟩
      · exact hself.trans (hbelow a ha).le
      · exact absurd (hbelow a ha) (not_lt.mpr (hall shown hlast))
    · -- the one shown ties, so it is within its tie of all that the one held is
      rw [hkept]
      refine ⟨forall_mem_concat.mpr ⟨fun a ha => ?_, hself⟩,
        forall_mem_concat.mpr ⟨fun a ha hall => ?_, fun _ => le_rfl⟩⟩
      · exact hagree held (hleft hmem) shown hlast a (hleft ha) htied (hwithin a ha)
      · exact hcolumn.le.trans (hleast a ha hall)
    · -- a least one that is passed over ties, so its basic column is not lower
      rw [hkept]
      refine ⟨forall_mem_concat.mpr ⟨hwithin, hnear⟩,
        forall_mem_concat.mpr ⟨hleast, fun hall => ?_⟩⟩
      have hle := hall held (hleft hmem)
      exact hcolumn rfl (abs_le.mpr ⟨by linarith, by linarith [tie_pos held.1]⟩)

/-- **Under Bland's rule ties add up, one for each row at most.** The ratio of the row that leaves
exceeds that of any other by no more than the largest tie for each row from that one on. Where ties
do not add up it is no more than a tie above any other ratio, and no row of least ratio has a lower
basic column. -/
theorem bland_chooses {tol : ℚ} {column rhs : List ℚ} {basis : List ℕ} {i : ℕ}
    (h : chooseLeaving column rhs basis tol .bland = some i) :
    (i < column.length ∧ tol < entry column i) ∧
    (∀ bound, (∀ k < column.length, tol < entry column k →
        1e-9 * max 1 |ratioAt column rhs k| ≤ bound) →
      ∀ k < column.length, tol < entry column k →
        ratioAt column rhs i ≤ ratioAt column rhs k +
          (List.range column.length).countP (fun m => tol < entry column m ∧ k ≤ m) * bound) ∧
    (TiesAgree (leaving column rhs tol) →
      (∀ k < column.length, tol < entry column k →
        ratioAt column rhs i - 1e-9 * max 1 |ratioAt column rhs i| ≤ ratioAt column rhs k) ∧
      ∀ k < column.length, tol < entry column k →
        (∀ m < column.length, tol < entry column m →
          ratioAt column rhs k ≤ ratioAt column rhs m) →
        basis.getD i 0 ≤ basis.getD k 0) := by
  simp only [← tie_eq]
  rw [chooseLeaving_eq_scan] at h
  obtain ⟨best, hscan, rfl⟩ := Option.map_eq_some_iff.mp h
  have hcandidate : ∀ k, k < column.length → tol < entry column k →
      (ratioAt column rhs k, k) ∈ leaving column rhs tol :=
    fun k hk hlt => mem_leaving_iff.mpr ⟨hk, hlt, rfl⟩
  obtain ⟨hi, hlt, hratio⟩ := mem_leaving_iff.mp (mem_of_scan hscan)
  rw [← hratio]
  refine ⟨⟨hi, hlt⟩, fun bound hbound k hk hcan => ?_, fun hagree => ?_⟩
  · have hties : ∀ a ∈ leaving column rhs tol, tie a.1 ≤ bound := by
      intro a ha
      obtain ⟨ha', hcan, hratio⟩ := mem_leaving_iff.mp ha
      rw [hratio]
      exact hbound a.2 ha' hcan
    have hcount : (leaving column rhs tol).countP (fun b => k ≤ b.2) =
        (List.range column.length).countP (fun m => tol < entry column m ∧ k ≤ m) := by
      rw [← Function.comp_def (fun m => decide (k ≤ m)) Prod.snd, ← List.countP_map,
        map_snd_leaving, List.countP_filter]
      simp [and_comm]
    rw [← hcount]
    exact drift_of_scan (byPlace_leaving column rhs tol) hties hscan (ratioAt column rhs k, k)
      (hcandidate k hk hcan)
  · have hleast := lowestLeast_of_scan hagree hscan
    refine ⟨fun k hk hcan => hleast.within (ratioAt column rhs k, k) (hcandidate k hk hcan),
      fun k hk hcan hall => hleast.lowest (ratioAt column rhs k, k) (hcandidate k hk hcan) ?_⟩
    intro a ha
    obtain ⟨ha', hcan', hratio'⟩ := mem_leaving_iff.mp ha
    rw [hratio']
    exact hall a.2 ha' hcan'

/-- Three rows tie for the least ratio, and the one of the lowest basic column leaves. -/
theorem bland_chooses_tied :
    chooseLeaving [1, 2, 4, 1] [3, 2, 4, 1] [0, 5, 4, 6] (1e-9 : ℚ) .bland = some 2 ∧
      TiesAgree (leaving [1, 2, 4, 1] [3, 2, 4, 1] 1e-9) ∧
      [0, 5, 4, 6].getD 2 0 ≤ [0, 5, 4, 6].getD 1 0 := by
  have hchoose : chooseLeaving [1, 2, 4, 1] [3, 2, 4, 1] [0, 5, 4, 6] (1e-9 : ℚ) .bland = some 2 := by
    decide +kernel
  have hagree : TiesAgree (leaving [1, 2, 4, 1] [3, 2, 4, 1] 1e-9) := by decide +kernel
  have hleast : ∀ m < 4, (1e-9 : ℚ) < entry [1, 2, 4, 1] m →
      ratioAt [1, 2, 4, 1] [3, 2, 4, 1] 1 ≤ ratioAt [1, 2, 4, 1] [3, 2, 4, 1] m := by
    decide +kernel
  exact ⟨hchoose, hagree, ((bland_chooses hchoose).2.2 hagree).2 1 (by decide) (by decide +kernel)
    hleast⟩

/-- Right-hand sides whose ties add up. -/
def climbingRhs : List ℚ :=
  [10000000000, 10000000009, 10000000018, 10000000005, 10000000014, 10000000023]

/-- **The row that leaves can be worse than another in its ratio and in its basic column both.** Rows
`1` and `2` take over by ties, each of a larger ratio. Row `3` is lower than row `2` by more than a
tie, and the ties begin again from there; row `0` is no longer held to compare with. So row `5`
leaves, although row `0` has the least ratio, by more than a tie, and a lower basic column. -/
theorem bland_passes_over :
    chooseLeaving [1, 1, 1, 1, 1, 1] climbingRhs [3, 2, 1, 10, 9, 8] 1e-9 .bland = some 5 ∧
      ratioAt [1, 1, 1, 1, 1, 1] climbingRhs 0 <
        ratioAt [1, 1, 1, 1, 1, 1] climbingRhs 5 -
          1e-9 * max 1 |ratioAt [1, 1, 1, 1, 1, 1] climbingRhs 5| ∧
      (∀ k < 6, ratioAt [1, 1, 1, 1, 1, 1] climbingRhs 0 ≤
        ratioAt [1, 1, 1, 1, 1, 1] climbingRhs k) ∧
      [3, 2, 1, 10, 9, 8].getD 0 0 < [3, 2, 1, 10, 9, 8].getD 5 0 := by
  decide +kernel

end LinOpt
