/-
  Counting the references a table of slots holds.

  A kernel keeps, beside each shared object, a number that is meant to say how many slots name
  it.  The slots are an indexed family `f : ι → Option κ` (`none` = the slot names nothing);
  `refs f k` is how many of them name `k`.  Everything a proof needs about one slot changing is
  the single equation `refs_update`, which `omega` can use on both sides; a family of families
  (one row of slots for each process) is counted by summing rows, and one row changing is
  `total_update`.
-/
import Mathlib.Algebra.BigOperators.Group.Finset.Piecewise
import Mathlib.Algebra.Order.BigOperators.Group.Finset
import Mathlib.Data.Fintype.BigOperators
import Mathlib.Data.List.FinRange

namespace Uniks.RefCount

open Finset
open Function (update update_self update_of_ne)

variable {ι π κ : Type}

/-! ## One row of slots -/

section Row

variable [Fintype ι] [DecidableEq κ]

/-- The number of slots of `f` that name `k`. -/
def refs (f : ι → Option κ) (k : κ) : Nat := (univ.filter fun i => f i = some k).card

theorem refs_eq_sum (f : ι → Option κ) (k : κ) :
    refs f k = ∑ i, if f i = some k then 1 else 0 := by
  rw [refs, card_filter]

theorem refs_eq_zero {f : ι → Option κ} {k : κ} : refs f k = 0 ↔ ∀ i, f i ≠ some k := by
  rw [refs, card_eq_zero, filter_eq_empty_iff]
  exact ⟨fun h i => h (mem_univ i), fun h i _ => h i⟩

theorem refs_pos {f : ι → Option κ} {k : κ} : 0 < refs f k ↔ ∃ i, f i = some k := by
  rw [refs, card_pos]
  constructor
  · rintro ⟨i, hi⟩
    exact ⟨i, (mem_filter.mp hi).2⟩
  · rintro ⟨i, hi⟩
    exact ⟨i, mem_filter.mpr ⟨mem_univ i, hi⟩⟩

/-- The empty row names nothing. -/
@[simp] theorem refs_none (k : κ) : refs (fun _ : ι => none) k = 0 :=
  refs_eq_zero.mpr fun _ h => nomatch h

/-- One slot changes: what it named before is lost, what it names now is gained. -/
theorem refs_update [DecidableEq ι] (f : ι → Option κ) (i : ι) (v : Option κ) (k : κ) :
    refs (update f i v) k + (if f i = some k then 1 else 0)
      = refs f k + (if v = some k then 1 else 0) := by
  rw [refs_eq_sum, refs_eq_sum, ← add_sum_erase univ _ (mem_univ i),
    ← add_sum_erase univ (fun j => if f j = some k then 1 else 0) (mem_univ i)]
  have hrest : ∑ j ∈ univ.erase i, (if update f i v j = some k then 1 else 0)
      = ∑ j ∈ univ.erase i, if f j = some k then 1 else 0 := by
    refine sum_congr rfl fun j hj => ?_
    rw [update_of_ne (ne_of_mem_erase hj)]
  rw [hrest, update_self]
  omega

/-- A slot that names `k` is the only one as soon as the count is one. -/
theorem eq_of_refs_eq_one {f : ι → Option κ} {k : κ} (h : refs f k = 1) {i j : ι}
    (hi : f i = some k) (hj : f j = some k) : i = j :=
  card_le_one.mp (le_of_eq h) i (mem_filter.mpr ⟨mem_univ i, hi⟩) j
    (mem_filter.mpr ⟨mem_univ j, hj⟩)

theorem refs_le_card (f : ι → Option κ) (k : κ) : refs f k ≤ Fintype.card ι :=
  card_filter_le _ _

/-- A row that names no more than another. -/
theorem refs_mono {f g : ι → Option κ} {k : κ} (h : ∀ i, f i = some k → g i = some k) :
    refs f k ≤ refs g k := by
  refine card_le_card fun i hi => ?_
  rw [mem_filter] at hi ⊢
  exact ⟨hi.1, h i hi.2⟩

/-- Over the indices below `n` the count is that of the list a loop runs through. -/
theorem refs_eq_countP {n : Nat} (f : Fin n → Option κ) (k : κ) :
    refs f k = (List.finRange n).countP fun i => f i = some k := by
  have hcount := Multiset.countP_eq_card_filter (fun i => f i = some k) (univ : Finset (Fin n)).val
  rw [refs, card_def, filter_val, ← hcount]
  rfl

end Row

/-! ## A row for each process -/

section Rows

variable [Fintype π]

/-- The sum of a weight over all rows. -/
def total (w : π → Nat) : Nat := ∑ p, w p

/-- One row changes its weight. -/
theorem total_update [DecidableEq π] (w : π → Nat) (p : π) (a : Nat) :
    total (update w p a) + w p = total w + a := by
  rw [total, total, ← add_sum_erase univ _ (mem_univ p), ← add_sum_erase univ w (mem_univ p)]
  have hrest : ∑ j ∈ univ.erase p, update w p a j = ∑ j ∈ univ.erase p, w j :=
    sum_congr rfl fun j hj => update_of_ne (ne_of_mem_erase hj) _ _
  rw [hrest, update_self]
  omega

/-- Two weights that agree off the row `p` differ in total by what they differ at `p`. -/
theorem total_congr_off [DecidableEq π] (w w' : π → Nat) (p : π) (h : ∀ q, q ≠ p → w' q = w q) :
    total w' + w p = total w + w' p := by
  have hw : w' = update w p (w' p) := by
    funext q
    by_cases hq : q = p
    · subst hq; rw [update_self]
    · rw [update_of_ne hq, h q hq]
  have hsum := total_update w p (w' p)
  rw [← hw] at hsum
  exact hsum

theorem le_total (w : π → Nat) (p : π) : w p ≤ total w :=
  single_le_sum (fun _ _ => Nat.zero_le _) (mem_univ p)

theorem total_eq_zero {w : π → Nat} : total w = 0 ↔ ∀ p, w p = 0 := by
  rw [total, sum_eq_zero_iff]
  exact ⟨fun h p => h p (mem_univ p), fun h p _ => h p⟩

theorem total_le (w : π → Nat) {b : Nat} (h : ∀ p, w p ≤ b) : total w ≤ Fintype.card π * b := by
  have hsum : ∑ p, w p ≤ ∑ _p : π, b := sum_le_sum fun p _ => h p
  rw [sum_const_nat fun _ _ => rfl] at hsum
  exact hsum

/-- Two different rows with positive weight make a total of at least two. -/
theorem two_le_total [DecidableEq π] {w : π → Nat} {p q : π} (hpq : p ≠ q) (hp : 0 < w p) (hq : 0 < w q) :
    2 ≤ total w := by
  have hsum := total_update w p 0
  have hle := le_total (update w p 0) q
  rw [update_of_ne (Ne.symm hpq)] at hle
  omega

/-! ### All rows but one -/

/-- The sum of a weight over all rows but `p`. -/
def allBut [DecidableEq π] (w : π → Nat) (p : π) : Nat := total (update w p 0)

theorem allBut_add [DecidableEq π] (w : π → Nat) (p : π) : allBut w p + w p = total w :=
  total_update w p 0

theorem allBut_congr [DecidableEq π] {w w' : π → Nat} {p : π} (h : ∀ q, q ≠ p → w' q = w q) :
    allBut w' p = allBut w p := by
  have hsame : update w' p 0 = update w p 0 := by
    funext q
    by_cases hq : q = p
    · rw [hq, update_self, update_self]
    · rw [update_of_ne hq, update_of_ne hq, h q hq]
  rw [allBut, allBut, hsame]

theorem le_allBut [DecidableEq π] (w : π → Nat) {p q : π} (hq : q ≠ p) : w q ≤ allBut w p := by
  have hle := le_total (update w p 0) q
  rw [update_of_ne hq] at hle
  exact hle

theorem allBut_eq_zero [DecidableEq π] {w : π → Nat} {p : π} :
    allBut w p = 0 ↔ ∀ q, q ≠ p → w q = 0 := by
  rw [allBut, total_eq_zero]
  constructor
  · intro h q hq
    have hzero := h q
    rw [update_of_ne hq] at hzero
    exact hzero
  · intro h q
    by_cases hq : q = p
    · rw [hq, update_self]
    · rw [update_of_ne hq]
      exact h q hq

end Rows

end Uniks.RefCount
