import LinOpt.Proofs.Simplex.Bland
import LinOpt.Proofs.Simplex.PhaseOne
import Mathlib.Data.Finset.Powerset
/-!
# Bland's rule does not cycle

A walk of the simplex method by Bland's rule meets no set of basic columns twice
(`BlandWalk.toFinset_ne`), so it is shorter than the number of such sets (`BlandWalk.lt_choose`) and
a budget of that many pivots never runs out (`bland_ends`).

Suppose that a walk ends with the set it began with. The objective has not changed, so no pivot has
moved the basic point, and each column that comes and goes stays at zero. Let `q` be the last of
those. It enters at one tableau, where no column before it improves the objective; it leaves at
another, where a column before it enters. The direction of that column, priced at the first of the
two tableaux, must cost what it gains at the second, so some column has a term of the right sign.
Bland's two choices leave none (`BlandPivot.false_of_leaves`).
-/

namespace LinOpt

open Finset

namespace Tableau

variable {E : Equations} {T T' U : Tableau ℚ} {row col i j k n : ℕ}

/-! ## Two tableaux -/

theorem Canonical.mem_basis_iff (h : T.Canonical E) :
    j ∈ T.basis ↔ ∃ i < E.height, T.basic i = j := by
  constructor
  · intro hj
    obtain ⟨i, rfl⟩ := h.exists_of_mem_basis hj
    exact ⟨i, i.2, rfl⟩
  · rintro ⟨i, hi, rfl⟩
    simp [Tableau.basic, h.basis_length ▸ hi]

theorem Canonical.eq_of_basic_eq (h : T.Canonical E) (hi : i < E.height) (hk : k < E.height)
    (heq : T.basic i = T.basic k) : i = k :=
  congrArg Fin.val (h.basic_injective (i := ⟨i, hi⟩) (k := ⟨k, hk⟩) heq)

/-- A basic column has no reduced cost. -/
theorem Canonical.reduced_of_mem (h : T.Canonical E) (hj : j ∈ T.basis) :
    T.cell E.height j = 0 := by
  obtain ⟨i, rfl⟩ := h.exists_of_mem_basis hj
  exact h.reduced_basic i

/-- **Two tableaux with the same basic columns have the same objective value.** -/
theorem Canonical.objectiveValue_congr (h : T.Canonical E) (h' : U.Canonical E)
    (hset : ∀ j, j ∈ T.basis ↔ j ∈ U.basis) : T.objectiveValue = U.objectiveValue := by
  have hprice := h'.dot_add_sum_objective h.solves_primalValues
  have hzero : ∑ j ∈ range E.width, U.cell E.height j * entry T.primalValues j = 0 := by
    refine Finset.sum_eq_zero fun j _ => ?_
    by_cases hj : j ∈ U.basis
    · rw [h'.reduced_of_mem hj, zero_mul]
    · rw [h.entry_primalValues_of_notMem (mt (hset j).mp hj), mul_zero]
  rw [hzero, add_zero, h.dot_primalValues] at hprice
  exact hprice

/-- **Bland's two choices exclude each other.** A column that enters at one tableau does not leave
at another for an earlier one, where the columns that are basic at the second alone are no later and
stand at zero. -/
theorem BlandPivot.false_of_leaves {q r s : ℕ} (hT : T.Canonical E) (hU : U.Canonical E)
    (henters : T.BlandPivot E row q) (hleaves : U.BlandPivot E r s) (hq : U.basic r = q)
    (hs : s < q)
    (hfickle : ∀ i < E.height, U.basic i ∉ T.basis → U.basic i ≤ q ∧ U.cell i E.width = 0) :
    False := by
  -- the direction of the column that enters at the second tableau, priced at the first
  have hprice := hT.dot_add_sum_of_kernel (d := U.ray s) fun k hk =>
    hU.sum_row_ray hleaves.col_lt hleaves.entering hk
  rw [hU.dot_ray hleaves.col_lt hleaves.entering] at hprice
  have hneg : ∃ j ∈ range E.width, T.cell E.height j * entry (U.ray s) j < 0 := by
    by_contra hnone
    push Not at hnone
    have hsum := Finset.sum_nonneg hnone
    linarith [hleaves.entering]
  obtain ⟨j, -, hj⟩ := hneg
  by_cases hself : j = s
  · rw [hself, hU.entry_ray_self hleaves.col_lt hleaves.entering, mul_one] at hj
    exact absurd (henters.first s hs) (not_le.mpr hj)
  by_cases hbasic : j ∈ U.basis
  · obtain ⟨i, hi, rfl⟩ := hU.mem_basis_iff.mp hbasic
    rw [hU.entry_ray_basic hleaves.entering hi] at hj
    have hnew : U.basic i ∉ T.basis := by
      intro hmem
      rw [hT.reduced_of_mem hmem, zero_mul] at hj
      exact lt_irrefl _ hj
    obtain ⟨hle, hzero⟩ := hfickle i hi hnew
    rcases hle.lt_or_eq with hlt | heq
    · -- an earlier column with a positive entry ties with `q`, and would have left
      have hprior := henters.first _ hlt
      have hpos : 0 < U.cell i s := by
        by_contra hle
        have hterm := mul_nonneg hprior (neg_nonneg.mpr (not_lt.mp hle))
        linarith
      have hqzero : U.cell r E.width = 0 := by
        refine (hfickle r hleaves.row_lt ?_).2
        rw [hq]
        exact hT.notMem_basis henters.entering
      have htie : U.ratio s i = U.ratio s r := by
        rw [ratio, ratio, hU.columnCount_eq, hzero, hqzero, zero_div, zero_div]
      have hlowest := hleaves.lowest i hi hpos htie
      omega
    · -- `q` itself has a term of the wrong sign
      rw [heq, hU.eq_of_basic_eq hi hleaves.row_lt (heq.trans hq.symm)] at hj
      have hterm := mul_pos_of_neg_of_neg henters.entering (neg_neg_of_pos hleaves.pos)
      linarith
  · rw [hU.entry_ray_of_notMem hself hbasic, mul_zero] at hj
    exact lt_irrefl _ hj

/-! ## One pivot -/

namespace BlandPivot

variable (hpivot : T.BlandPivot E row col) (h : T.Canonical E)

include hpivot h

theorem canonical_pivot : (T.pivot row col).Canonical E :=
  h.pivot hpivot.row_lt hpivot.col_lt (ne_of_gt hpivot.pos)

/-- One column enters, and one leaves. -/
theorem mem_basis_pivot :
    j ∈ (T.pivot row col).basis ↔ j = col ∨ j ∈ T.basis ∧ j ≠ T.basic row := by
  rw [(hpivot.canonical_pivot h).mem_basis_iff, h.mem_basis_iff]
  constructor
  · rintro ⟨i, hi, rfl⟩
    rw [basic_pivot h hpivot.row_lt]
    split
    · exact Or.inl rfl
    · rename_i hne
      exact Or.inr ⟨⟨i, hi, rfl⟩, fun heq => hne (h.eq_of_basic_eq hi hpivot.row_lt heq)⟩
  · rintro (rfl | ⟨⟨i, hi, rfl⟩, hne⟩)
    · exact ⟨row, hpivot.row_lt, by rw [basic_pivot h hpivot.row_lt, if_pos rfl]⟩
    · refine ⟨i, hi, ?_⟩
      rw [basic_pivot h hpivot.row_lt, if_neg]
      rintro rfl
      exact hne rfl

theorem ratio_nonneg (hnonneg : ∀ i < E.height, 0 ≤ T.cell i E.width) : 0 ≤ T.ratio col row := by
  rw [ratio, h.columnCount_eq]
  exact div_nonneg (hnonneg row hpivot.row_lt) hpivot.pos.le

/-- The objective gains the ratio at the rate of the reduced cost. -/
theorem objectiveValue_pivot :
    (T.pivot row col).objectiveValue =
      T.objectiveValue - T.cell E.height col * T.ratio col row := by
  rw [(hpivot.canonical_pivot h).objectiveValue_eq, h.objectiveValue_eq,
    cell_pivot h hpivot.row_lt hpivot.col_lt (ne_of_gt hpivot.pos) (Nat.lt_succ_self _),
    if_neg (ne_of_gt hpivot.row_lt), ratio, h.columnCount_eq]

/-- **A pivot of ratio zero leaves the basic point where it is.** -/
theorem entry_primalValues_pivot (hzero : T.cell row E.width = 0) (j : ℕ) :
    entry (T.pivot row col).primalValues j = entry T.primalValues j := by
  have hnext := hpivot.canonical_pivot h
  by_cases hj : j ∈ (T.pivot row col).basis
  · obtain ⟨i, hi, rfl⟩ := hnext.mem_basis_iff.mp hj
    rw [hnext.entry_primalValues_basic hi,
      cell_pivot h hpivot.row_lt hpivot.col_lt (ne_of_gt hpivot.pos) (Nat.lt_succ_of_lt hi),
      basic_pivot h hpivot.row_lt, hzero, zero_div]
    split
    · rw [h.entry_primalValues_of_notMem (h.notMem_basis hpivot.entering)]
    · rw [mul_zero, sub_zero, h.entry_primalValues_basic hi]
  · rw [hnext.entry_primalValues_of_notMem hj]
    by_cases hold : j ∈ T.basis
    · -- the column that has left
      have hleft : j = T.basic row := by
        by_contra hne
        exact hj ((hpivot.mem_basis_pivot h).mpr (Or.inr ⟨hold, hne⟩))
      rw [hleft, h.entry_primalValues_basic hpivot.row_lt, hzero]
    · rw [h.entry_primalValues_of_notMem hold]

end BlandPivot

/-! ## Walks -/

/-- **A walk by Bland's rule**: tableaux of one system, one pivot apart. -/
structure BlandWalk (E : Equations) (S : ℕ → Tableau ℚ) (n : ℕ) : Prop where
  canonical : ∀ k ≤ n, (S k).Canonical E
  nonneg : ∀ k ≤ n, ∀ i < E.height, 0 ≤ (S k).cell i E.width
  pivot : ∀ k < n, ∃ row col, (S k).BlandPivot E row col ∧ S (k + 1) = (S k).pivot row col

/-- What changes round a cycle changes at some step of it. -/
theorem exists_change {P : ℕ → Prop} {n a b : ℕ} (hcycle : P 0 ↔ P n) (ha : a ≤ n) (hb : b ≤ n)
    (hPa : ¬ P a) (hPb : P b) : ∃ k < n, ¬ P k ∧ P (k + 1) := by
  -- from a place without to a later place with
  have hstep : ∀ {a b}, a ≤ b → b ≤ n → ¬ P a → P b → ∃ k < n, ¬ P k ∧ P (k + 1) := by
    intro a b hab hb hPa hPb
    induction b, hab using Nat.le_induction with
    | base => exact absurd hPb hPa
    | succ b _ ih =>
      by_cases hP : P b
      · exact ih (by omega) hP
      · exact ⟨b, by omega, hP, hPb⟩
  rcases le_total a b with hab | hba
  · exact hstep hab hb hPa hPb
  · by_cases hP : P 0
    · exact hstep ha (le_refl n) hPa (hcycle.mp hP)
    · exact hstep (Nat.zero_le b) hb hP hPb

namespace BlandWalk

variable {S : ℕ → Tableau ℚ} (h : BlandWalk E S n)

include h

/-- A part of a walk. -/
theorem window {m : ℕ} (hm : k + m ≤ n) : BlandWalk E (fun l => S (k + l)) m where
  canonical := fun l hl => h.canonical (k + l) (by omega)
  nonneg := fun l hl => h.nonneg (k + l) (by omega)
  pivot := fun l hl => h.pivot (k + l) (by omega)

/-- **The objective never falls.** -/
theorem objectiveValue_le {l : ℕ} (hkl : k ≤ l) (hl : l ≤ n) :
    (S k).objectiveValue ≤ (S l).objectiveValue := by
  induction l, hkl using Nat.le_induction with
  | base => exact le_refl _
  | succ l _ ih =>
    obtain ⟨row, col, hpivot, hnext⟩ := h.pivot l (by omega)
    have hcanonical := h.canonical l (by omega)
    have hratio := hpivot.ratio_nonneg hcanonical (h.nonneg l (by omega))
    rw [hnext, hpivot.objectiveValue_pivot hcanonical]
    have hgain := mul_nonpos_of_nonpos_of_nonneg hpivot.entering.le hratio
    linarith [ih (by omega)]

section Cycle

variable (hset : ∀ j, j ∈ (S 0).basis ↔ j ∈ (S n).basis)

include hset

/-- **Round a cycle every pivot has ratio zero**: the objective is the same again. -/
theorem exists_degenerate (hk : k < n) :
    ∃ row col, (S k).BlandPivot E row col ∧ S (k + 1) = (S k).pivot row col ∧
      (S k).cell row E.width = 0 := by
  obtain ⟨row, col, hpivot, hnext⟩ := h.pivot k hk
  have hcanonical := h.canonical k hk.le
  refine ⟨row, col, hpivot, hnext, ?_⟩
  have hends :=
    (h.canonical 0 (Nat.zero_le n)).objectiveValue_congr (h.canonical n (le_refl n)) hset
  have hbefore := h.objectiveValue_le (Nat.zero_le k) hk.le
  have hafter := h.objectiveValue_le (Nat.succ_le_of_lt hk) (le_refl n)
  rw [Nat.succ_eq_add_one, hnext, hpivot.objectiveValue_pivot hcanonical] at hafter
  have hratio := hpivot.ratio_nonneg hcanonical (h.nonneg k hk.le)
  have hzero : (S k).ratio col row = 0 := by
    by_contra hne
    have hgain := mul_neg_of_neg_of_pos hpivot.entering (lt_of_le_of_ne hratio (Ne.symm hne))
    linarith
  rw [ratio, hcanonical.columnCount_eq, div_eq_zero_iff] at hzero
  exact hzero.resolve_right (ne_of_gt hpivot.pos)

/-- **Round a cycle the basic point stays.** -/
theorem entry_primalValues_eq {l : ℕ} (hl : l ≤ n) (j : ℕ) :
    entry (S l).primalValues j = entry (S 0).primalValues j := by
  induction l with
  | zero => rfl
  | succ l ih =>
    obtain ⟨row, col, hpivot, hnext, hzero⟩ := h.exists_degenerate hset (k := l) (by omega)
    rw [hnext, hpivot.entry_primalValues_pivot (h.canonical l (by omega)) hzero, ih (by omega)]

/-- A column that is not basic everywhere stands at zero. -/
theorem cell_eq_zero {l m : ℕ} (hl : l ≤ n) (hm : m ≤ n) (hi : i < E.height)
    (hnot : (S l).basic i ∉ (S m).basis) : (S l).cell i E.width = 0 := by
  rw [← (h.canonical l hl).entry_primalValues_basic hi, h.entry_primalValues_eq hset hl,
    ← h.entry_primalValues_eq hset hm]
  exact (h.canonical m hm).entry_primalValues_of_notMem hnot

end Cycle

/-- The last of the columns that enter. -/
theorem exists_last_entering (hn : 0 < n) :
    ∃ q, (∃ k < n, q ∉ (S k).basis ∧ q ∈ (S (k + 1)).basis) ∧
      ∀ j, (∃ k < n, j ∉ (S k).basis ∧ j ∈ (S (k + 1)).basis) → j ≤ q := by
  classical
  obtain ⟨row, col, hpivot, hnext⟩ := h.pivot 0 hn
  have hcanonical := h.canonical 0 (Nat.zero_le n)
  have hfirst : ∃ k < n, col ∉ (S k).basis ∧ col ∈ (S (k + 1)).basis := by
    refine ⟨0, hn, hcanonical.notMem_basis hpivot.entering, ?_⟩
    rw [hnext]
    exact (hpivot.mem_basis_pivot hcanonical).mpr (Or.inl rfl)
  have hlt : ∀ j, (∃ k < n, j ∉ (S k).basis ∧ j ∈ (S (k + 1)).basis) → j < E.width := by
    rintro j ⟨k, hk, -, hj⟩
    exact (h.canonical (k + 1) hk).basis_lt j hj
  let entering := (range E.width).filter fun j =>
    ∃ k < n, j ∉ (S k).basis ∧ j ∈ (S (k + 1)).basis
  have hne : entering.Nonempty :=
    ⟨col, Finset.mem_filter.mpr ⟨mem_range.mpr (hlt col hfirst), hfirst⟩⟩
  obtain ⟨q, hq, hmax⟩ := Finset.exists_max_image entering id hne
  exact ⟨q, (Finset.mem_filter.mp hq).2, fun j hj =>
    hmax j (Finset.mem_filter.mpr ⟨mem_range.mpr (hlt j hj), hj⟩)⟩

/-- **A walk by Bland's rule does not come back** to the basic columns that it began with. -/
theorem toFinset_ne (hn : 0 < n) : (S 0).basis.toFinset ≠ (S n).basis.toFinset := by
  intro heq
  have hset : ∀ j, j ∈ (S 0).basis ↔ j ∈ (S n).basis := by
    intro j
    rw [← List.mem_toFinset, heq, List.mem_toFinset]
  obtain ⟨q, ⟨e, he, hout, hin⟩, hmax⟩ := h.exists_last_entering hn
  have hcanonical := h.canonical e he.le
  -- `q` enters at `e`, and it leaves somewhere, since it is not basic everywhere
  obtain ⟨row, col, henters, hnext⟩ := h.pivot e he
  obtain rfl : q = col := by
    rw [hnext, henters.mem_basis_pivot hcanonical] at hin
    exact hin.resolve_right fun hold => hout hold.1
  obtain ⟨l, hl, hstays, hgone⟩ := exists_change (P := fun k => q ∉ (S k).basis) (a := e + 1)
    (b := e) (not_congr (hset q)) he he.le (not_not.mpr hin) hout
  have hcanonical' := h.canonical l hl.le
  obtain ⟨r, s, hleaves, hnext'⟩ := h.pivot l hl
  have hq : (S l).basic r = q := by
    by_contra hne
    rw [hnext', hleaves.mem_basis_pivot hcanonical'] at hgone
    exact hgone (Or.inr ⟨not_not.mp hstays, Ne.symm hne⟩)
  -- the column that enters there is an earlier one
  have hs : s < q := by
    have hnew : s ∉ (S l).basis := hcanonical'.notMem_basis hleaves.entering
    have hle : s ≤ q := hmax s ⟨l, hl, hnew, by
      rw [hnext']
      exact (hleaves.mem_basis_pivot hcanonical').mpr (Or.inl rfl)⟩
    refine lt_of_le_of_ne hle ?_
    rintro rfl
    exact hstays hnew
  refine BlandPivot.false_of_leaves hcanonical hcanonical' henters hleaves hq hs
    fun i hi hnot => ⟨hmax _ ?_, h.cell_eq_zero hset hl.le he.le hi hnot⟩
  exact exists_change (P := fun k => (S l).basic i ∈ (S k).basis) (hset _) he.le hl.le hnot
    (hcanonical'.mem_basis_iff.mpr ⟨i, hi, rfl⟩)

/-- **No set of basic columns occurs twice.** -/
theorem toFinset_ne_of_lt {l : ℕ} (hkl : k < l) (hl : l ≤ n) :
    (S k).basis.toFinset ≠ (S l).basis.toFinset := by
  have hwindow := (h.window (k := k) (m := l - k) (by omega)).toFinset_ne (by omega)
  rwa [Nat.add_zero, Nat.add_sub_cancel' hkl.le] at hwindow

/-- **A walk is shorter than the number of sets of basic columns.** -/
theorem lt_choose : n < E.width.choose E.height := by
  have hcard := Finset.card_le_card_of_injOn (s := range (n + 1))
    (t := (range E.width).powersetCard E.height) (fun k => (S k).basis.toFinset) ?_ ?_
  · rwa [card_range, card_powersetCard, card_range] at hcard
  · intro k hk
    have hcanonical := h.canonical k (Nat.lt_succ_iff.mp (mem_range.mp hk))
    refine mem_powersetCard.mpr ⟨fun j hj => ?_, ?_⟩
    · exact mem_range.mpr (hcanonical.basis_lt j (List.mem_toFinset.mp hj))
    · rw [List.toFinset_card_of_nodup hcanonical.basis_nodup, hcanonical.basis_length]
  · intro k hk l hl heq
    have hk' : k ≤ n := Nat.lt_succ_iff.mp (mem_range.mp hk)
    have hl' : l ≤ n := Nat.lt_succ_iff.mp (mem_range.mp hl)
    rcases lt_trichotomy k l with hlt | rfl | hgt
    · exact absurd heq (h.toFinset_ne_of_lt hlt hl')
    · rfl
    · exact absurd heq.symm (h.toFinset_ne_of_lt hgt hk')

end BlandWalk

/-! ## The walk of the simplex method -/

/-- The tableau after the next move, where that is a pivot. -/
def advance (tol : ℚ) (rule : PivotRule) (T : Tableau ℚ) : Tableau ℚ :=
  match T.nextMove tol rule with
  | .pivot row col => T.pivot row col
  | _ => T

theorem advance_eq {tol : ℚ} {rule : PivotRule} (hmove : T.nextMove tol rule = .pivot row col) :
    T.advance tol rule = T.pivot row col := by
  rw [advance, hmove]

/-- A walk is the moves one after the other. -/
theorem Leads.eq_iterate {tol : ℚ} {rule : PivotRule} (h : Leads tol rule T n T') :
    T' = (advance tol rule)^[n] T := by
  induction h with
  | refl => rfl
  | step hmove _ ih => rw [Function.iterate_succ_apply, advance_eq hmove, ih]

/-- Each step of a walk is a pivot, and what comes before it is a walk. -/
theorem Leads.split {tol : ℚ} {rule : PivotRule} (h : Leads tol rule T n T') (hk : k ≤ n) :
    Leads tol rule T k ((advance tol rule)^[k] T) ∧
      (k < n → ∃ row col, ((advance tol rule)^[k] T).nextMove tol rule = .pivot row col) := by
  induction h generalizing k with
  | refl =>
    obtain rfl := Nat.le_zero.mp hk
    exact ⟨.refl _, by simp⟩
  | @step T T' m row col hmove _ ih =>
    cases k with
    | zero => exact ⟨.refl _, fun _ => ⟨row, col, hmove⟩⟩
    | succ k =>
      obtain ⟨hleads, hnext⟩ := ih (Nat.le_of_succ_le_succ hk)
      rw [Function.iterate_succ_apply, advance_eq hmove]
      exact ⟨.step hmove hleads, fun hlt => hnext (Nat.lt_of_succ_lt_succ hlt)⟩

/-- **The first pivots of a walk by Bland's rule are exact**: at each of them the ratios of the
entering column are separated. -/
def SeparatedBefore (T : Tableau ℚ) (n : ℕ) : Prop :=
  ∀ k < n, ∀ S row col, Leads 0 .bland T k S → S.nextMove 0 .bland = .pivot row col →
    S.Separated col

theorem separatedBefore_zero : T.SeparatedBefore 0 := fun _ hk => absurd hk (Nat.not_lt_zero _)

/-- One pivot more: it is exact, and so are those after it. -/
theorem separatedBefore_succ_iff (hmove : T.nextMove 0 .bland = .pivot row col) :
    T.SeparatedBefore (n + 1) ↔ T.Separated col ∧ (T.pivot row col).SeparatedBefore n := by
  constructor
  · intro h
    exact ⟨h 0 (Nat.succ_pos n) T row col (.refl T) hmove, fun k hk S row' col' hleads =>
      h (k + 1) (Nat.succ_lt_succ hk) S row' col' (.step hmove hleads)⟩
  · rintro ⟨hfirst, hrest⟩ k hk S row' col' hleads hmove'
    cases hleads with
    | refl =>
      obtain ⟨-, rfl⟩ := Move.pivot.inj (hmove.symm.trans hmove')
      exact hfirst
    | step hmove'' hleads =>
      obtain ⟨rfl, rfl⟩ := Move.pivot.inj (hmove.symm.trans hmove'')
      exact hrest _ (Nat.lt_of_succ_lt_succ hk) S row' col' hleads hmove'

/-- Where no pivot is left, all of them are exact. -/
theorem separatedBefore_of_end (hend : ∀ row col, T.nextMove 0 .bland ≠ .pivot row col) :
    T.SeparatedBefore n := by
  intro k _ S row col hleads hmove
  cases hleads with
  | refl => exact absurd hmove (hend row col)
  | step hmove' _ => exact absurd hmove' (hend _ _)

/-- Whether the pivots of a walk are exact can be tried out. -/
instance decidableSeparatedBefore : ∀ (n : ℕ) (T : Tableau ℚ), Decidable (T.SeparatedBefore n)
  | 0, _ => isTrue separatedBefore_zero
  | n + 1, T =>
    match hmove : T.nextMove 0 .bland with
    | .pivot row col =>
      have := decidableSeparatedBefore n (T.pivot row col)
      decidable_of_iff _ (separatedBefore_succ_iff hmove).symm
    | .optimal => isTrue (separatedBefore_of_end (by simp [hmove]))
    | .ray _ => isTrue (separatedBefore_of_end (by simp [hmove]))

/-- **The simplex method walks by Bland's rule.** -/
theorem Canonical.blandWalk (h : T.Canonical E) (hnonneg : ∀ i < E.height, 0 ≤ T.cell i E.width)
    (hsep : T.SeparatedBefore n) (hleads : Leads 0 .bland T n T') :
    BlandWalk E (fun k => (advance 0 .bland)^[k] T) n := by
  have hcanonical : ∀ k ≤ n, ((advance 0 .bland)^[k] T).Canonical E := fun k hk =>
    h.leads (le_refl 0) (hleads.split hk).1
  have hpivot : ∀ k < n, ∃ row col, ((advance 0 .bland)^[k] T).BlandPivot E row col ∧
      (advance 0 .bland)^[k + 1] T = ((advance 0 .bland)^[k] T).pivot row col := by
    intro k hk
    obtain ⟨hbefore, hnext⟩ := hleads.split hk.le
    obtain ⟨row, col, hmove⟩ := hnext hk
    refine ⟨row, col, ?_, ?_⟩
    · exact (hcanonical k hk.le).blandPivot_of_nextMove (hsep k hk _ row col hbefore hmove) hmove
    · rw [Function.iterate_succ_apply', advance_eq hmove]
  refine ⟨hcanonical, fun k hk => ?_, hpivot⟩
  induction k with
  | zero => exact hnonneg
  | succ k ih =>
    obtain ⟨row, col, hbland, hnext⟩ := hpivot k hk
    rw [hnext]
    exact hbland.nonneg (hcanonical k (Nat.le_of_succ_le hk)) (ih (Nat.le_of_succ_le hk))

/-- **A budget as large as the number of sets of basic columns is not used up.** -/
theorem Canonical.not_leads_of_choose_le (h : T.Canonical E)
    (hnonneg : ∀ i < E.height, 0 ≤ T.cell i E.width) {budget : ℤ}
    (hsep : T.SeparatedBefore budget.toNat) (hbudget : (E.width.choose E.height : ℤ) ≤ budget) :
    ¬ Leads 0 .bland T budget.toNat T' := by
  intro hleads
  have hshort := (h.blandWalk hnonneg hsep hleads).lt_choose
  omega

/-- **Bland's rule does not cycle from a tableau**: as long as its pivots are exact, no basic value
falls below zero and no set of basic columns occurs twice. -/
structure NeverCycles (T : Tableau ℚ) : Prop where
  nonneg : ∀ n S, T.SeparatedBefore n → Leads 0 .bland T n S → ∀ a ∈ S.rhs, 0 ≤ a
  distinct : ∀ m n S S', T.SeparatedBefore n → m < n → Leads 0 .bland T m S →
    Leads 0 .bland T n S' → S.basis.toFinset ≠ S'.basis.toFinset

theorem Canonical.neverCycles (h : T.Canonical E) (hnonneg : ∀ i < E.height, 0 ≤ T.cell i E.width) :
    T.NeverCycles where
  nonneg := by
    intro n S hsep hleads a ha
    have hS := h.leads (le_refl 0) hleads
    have hwalk := (h.blandWalk hnonneg hsep hleads).nonneg n (le_refl n)
    rw [← hleads.eq_iterate] at hwalk
    obtain ⟨i, hi, rfl⟩ := List.getElem_of_mem ha
    rw [hS.length_rhs] at hi
    rw [← entry_eq_getElem, hS.entry_rhs hi]
    exact hwalk i hi
  distinct := by
    intro m n S S' hsep hmn hfirst hsecond
    rw [hfirst.eq_iterate, hsecond.eq_iterate]
    exact (h.blandWalk hnonneg hsep hsecond).toFinset_ne_of_lt hmn (le_refl n)

end Tableau

/-! ## The loops -/

section Loops

open Tableau

variable {E : Equations} {T : Tableau ℚ} {observer : Observer} {opts : Options ℚ} {budget made : ℕ}
  {limit : ℤ} {spent : ℕ}

/-- **A loop whose budget has run out has walked that far.** -/
theorem exists_leads_of_iterationLimit (h : T.Canonical E) (hnames : E.width ≤ T.names.length)
    (htol : 0 ≤ opts.tol)
    (hlimit : (tableauLoop observer opts budget made T).outcome =
      .error (.iterationLimit limit spent)) :
    ∃ T', Leads opts.tol opts.rule T budget T' := by
  induction budget generalizing T made with
  | zero => exact ⟨T, .refl T⟩
  | succ budget ih =>
    cases hmove : T.nextMove opts.tol opts.rule with
    | pivot row col =>
      rw [outcome_tableauLoop_pivot h hnames htol hmove] at hlimit
      obtain ⟨T', hleads⟩ := ih (h.move htol hmove) hnames hlimit
      exact ⟨T', .step hmove hleads⟩
    | optimal =>
      rw [outcome_tableauLoop_end h hnames (by simp [hmove]), Tableau.verdict, hmove] at hlimit
      cases hlimit
    | ray col =>
      rw [outcome_tableauLoop_end h hnames (by simp [hmove]), Tableau.verdict, hmove] at hlimit
      cases hlimit

theorem exists_leads_of_phaseOneLoop_limit
    (hlimit : phaseOneLoop opts budget made T = .error (.iterationLimit limit spent)) :
    ∃ T', Leads opts.tol .bland T budget T' := by
  induction budget generalizing T made with
  | zero => exact ⟨T, .refl T⟩
  | succ budget ih =>
    unfold phaseOneLoop at hlimit
    split at hlimit
    · cases hlimit
    · cases hlimit
    · rename_i row col hmove
      obtain ⟨T', hleads⟩ := ih hlimit
      exact ⟨T', .step hmove hleads⟩

/-- **Bland's rule ends both loops**, with a tolerance of zero. As long as the ratios of the
entering columns are separated, no basic value falls below zero and no set of basic columns occurs
twice; so a budget as large as the number of such sets does not run out. -/
theorem bland_ends {form : StandardForm ℚ} {model : Model ℚ} (observer : Observer)
    (opts : Options ℚ) (hvalid : model.Valid) (htol : opts.tol = 0)
    (hbuild : StandardForm.build opts model = .ok form) :
    (opts.rule = .bland → form.tableau.NeverCycles ∧
      (form.tableau.SeparatedBefore opts.maxIters.toNat →
        (form.width.choose form.height : ℤ) ≤ opts.maxIters → ∀ limit made,
          (iterateTableau observer opts form).outcome ≠ .error (.iterationLimit limit made))) ∧
    form.phaseOneTableau.NeverCycles ∧
      (form.phaseOneTableau.SeparatedBefore opts.maxIters.toNat →
        (form.width.choose form.height : ℤ) ≤ opts.maxIters → ∀ limit made,
          (phaseOneGap observer opts form).outcome ≠ .error (.iterationLimit limit made)) := by
  rw [StandardForm.build_eq _ hvalid] at hbuild
  obtain rfl := Except.ok.inj hbuild
  have hstart := model.canonical_standardForm_tableau opts
  have hstart₁ := model.canonical_phaseOneTableau opts
  have hnonneg : ∀ i < (model.penalised opts).height,
      0 ≤ (model.standardForm opts).tableau.cell i (model.penalised opts).width := fun i hi =>
    cell_start_nonneg (model.length_costs_standardForm opts) _ hi
  have hnonneg₁ : ∀ i < (model.phaseOne opts).height,
      0 ≤ (model.standardForm opts).phaseOneTableau.cell i (model.phaseOne opts).width := by
    rw [model.phaseOneTableau_eq]
    exact fun i hi => cell_start_nonneg (model.length_phaseOneCosts opts) _ hi
  refine ⟨fun hrule => ⟨hstart.neverCycles hnonneg, fun hsep hbudget limit made hlimit => ?_⟩,
    hstart₁.neverCycles hnonneg₁, fun hsep hbudget limit made hlimit => ?_⟩
  · rw [outcome_iterateTableau observer hvalid] at hlimit
    obtain ⟨T', hleads⟩ := exists_leads_of_iterationLimit hstart
      (width_le_length_names opts hvalid) (le_of_eq htol.symm) hlimit
    rw [htol, hrule] at hleads
    refine hstart.not_leads_of_choose_le hnonneg hsep ?_ hleads
    rwa [Model.width_penalised, Model.height_penalised, ← model.width_standardForm opts,
      ← model.height_standardForm opts]
  · rw [outcome_phaseOneGap] at hlimit
    cases hloop : phaseOneLoop opts opts.maxIters.toNat 0
        (model.standardForm opts).phaseOneTableau with
    | ok last =>
      rw [hloop] at hlimit
      cases hlimit
    | error cause =>
      rw [hloop] at hlimit
      obtain rfl := Except.error.inj hlimit
      obtain ⟨T', hleads⟩ := exists_leads_of_phaseOneLoop_limit hloop
      rw [htol] at hleads
      refine hstart₁.not_leads_of_choose_le hnonneg₁ hsep ?_ hleads
      rwa [Model.width_phaseOne, Model.height_phaseOne, ← model.width_standardForm opts,
        ← model.height_standardForm opts]

/-- The model of a classical cycle: its first five pivots by Bland's rule have ratio zero. -/
def stallingModel : Model ℚ :=
  { sense := .min
    rows := [[1 / 4, -8, -1, 9], [1 / 2, -12, -1 / 2, 3], [0, 0, 1, 0]]
    rhs := [0, 0, 1]
    costs := [-3 / 4, 20, -1 / 2, 6]
    signs := [.le, .le, .eq]
    kinds := [.nonneg, .nonneg, .nonneg, .nonneg] }

/-- Bland's rule with no tolerance, and a pivot for each set of three of seven columns. -/
def stallingOptions : Options ℚ := { maxIters := 35, tol := 0, rule := .bland }

/-- Both loops are exact on `stallingModel`, so neither of them runs out of its budget. -/
theorem bland_ends_stallingModel :
    ∃ form, StandardForm.build stallingOptions stallingModel = .ok form ∧
      form.tableau.SeparatedBefore 35 ∧ form.phaseOneTableau.SeparatedBefore 35 ∧
      form.width.choose form.height = 35 ∧
      (∀ n S, n ≤ 35 → Leads 0 .bland form.tableau n S → ∀ a ∈ S.rhs, 0 ≤ a) ∧
      (∀ limit made, (iterateTableau .silent stallingOptions form).outcome ≠
        .error (.iterationLimit limit made)) ∧
      ∀ limit made, (phaseOneGap .silent stallingOptions form).outcome ≠
        .error (.iterationLimit limit made) := by
  have hvalid : stallingModel.Valid := by decide
  obtain ⟨hchoose, hsep, hsep₁⟩ :
      (stallingModel.standardForm stallingOptions).width.choose
        (stallingModel.standardForm stallingOptions).height = 35 ∧
      (stallingModel.standardForm stallingOptions).tableau.SeparatedBefore 35 ∧
      (stallingModel.standardForm stallingOptions).phaseOneTableau.SeparatedBefore 35 := by
    decide +kernel
  have hbuild := StandardForm.build_eq stallingOptions hvalid
  obtain ⟨hmain, -, hphase⟩ := bland_ends .silent stallingOptions hvalid rfl hbuild
  obtain ⟨hcycles, hends⟩ := hmain rfl
  have hbudget : ((stallingModel.standardForm stallingOptions).width.choose
      (stallingModel.standardForm stallingOptions).height : ℤ) ≤ stallingOptions.maxIters := by
    rw [hchoose]
    decide
  exact ⟨_, hbuild, hsep, hsep₁, hchoose,
    fun n S hn => hcycles.nonneg n S fun k hk => hsep k (hk.trans_le hn),
    hends hsep hbudget, hphase hsep₁ hbudget⟩

end Loops

end LinOpt
