/-
  `priority_queue_pop_k` and `priority_queue_pop_v`: every pair with a key, or with a value, out of
  the heap, by one scan over the slots.

  A slot that is hit gets the last pair of the heap, and `up` and `down` put it where it belongs
  (`refill_spec`).  The scan misses what it does not get to see.  It stops in front of the last
  slot, so a pair that is hit there stays; it looks at a slot again after filling it, so when that
  slot has become the last one it takes a pair too many (`removeAt_overrun`); and a pair that goes
  up when it is put in is behind the scan (`Stray`).  The last of these needs a pair with the value
  and a smaller key than the one removed, so `pop_k` does not know it.
-/
import Uniks.HeapRuns

namespace Uniks.PriorityQueue

open Uniks.Heap
open Function (update_self update_of_ne update_eq_self)

variable {pq pq' q : PriorityQueueMeta} {capacity : Nat} {x : PairT} {r i j : Nat}
  {hit : PairT → Bool}

/-! ## One sift, slot by slot -/

/-- `up` moves the slot it starts at, and slots no further down than the one over that. -/
theorem up_between (pq : PriorityQueueMeta) (hne : j ≠ r) (hj : r / 2 < j) :
    (up pq r).priorityQueueHeap j = pq.priorityQueueHeap j := by
  induction pq, r using up.induct with
  | case1 pq r hgo ih =>
    rw [up, if_pos hgo, ih (by omega) (by omega), swap_heap, swap_of_ne _ hne (by omega)]
  | case2 pq r hstop => rw [up, if_neg hstop]

/-- `up` fills slots from slots no further down. -/
theorem up_all {P : PairT → Prop} (pq : PriorityQueueMeta) (r : Nat)
    (h : ∀ j, 1 ≤ j → j ≤ r → P (pq.priorityQueueHeap j)) :
    ∀ j, 1 ≤ j → j ≤ r → P ((up pq r).priorityQueueHeap j) := by
  induction pq, r using up.induct with
  | case1 pq r hgo ih =>
    intro j hj hjr
    have hmoved : ∀ k, 1 ≤ k → k ≤ r → P ((pq.swap r (r / 2)).priorityQueueHeap k) := by
      intro k hk hkr
      rw [swap_heap]
      rcases eq_or_ne k r with rfl | hne
      · rw [swap_left]
        exact h _ (by omega) (by omega)
      rcases eq_or_ne k (r / 2) with rfl | hne'
      · rw [swap_right]
        exact h _ (by omega) le_rfl
      · rw [swap_of_ne _ hne hne']
        exact h k hk hkr
    rw [up, if_pos hgo]
    by_cases hhalf : j ≤ r / 2
    · exact ih (fun k hk hkr => hmoved k hk (by omega)) j hj hhalf
    · rw [up_between _ (by omega) (by omega)]
      exact hmoved j hj hjr
  | case2 pq r hstop =>
    rw [up, if_neg hstop]
    exact h

/-- `down` leaves the slots in front of its start alone. -/
theorem down_before (pq : PriorityQueueMeta) (hj : j < r) :
    (down pq r).priorityQueueHeap j = pq.priorityQueueHeap j := by
  induction pq, r using down.induct with
  | case1 pq r hgo ih =>
    have hlt := lt_doub hgo.2
    rw [down, dif_pos hgo, ih (by omega), swap_heap, swap_of_ne _ (by omega) (by omega)]
  | case2 pq r hstop => rw [down, dif_neg hstop]

/-- `down` has nothing to do in a heap in order, unless it looks at the slot behind it. -/
theorem down_of_ordered (h : InOrder pq) (hr : 1 ≤ r) (hne : 2 * r ≠ pq.priorityQueueSize) :
    down pq r = pq := by
  rw [down, dif_neg]
  rintro ⟨hroom, hless⟩
  have hdoub := doub_eq pq r
  have hover := h (doub pq r) (by omega) (by omega)
  rw [show doub pq r / 2 = r by omega] at hover
  exact absurd hover (not_le.mpr (pairLessThan_iff.mp hless))

/-! ## The last pair in another slot -/

/-- One turn of the inner loop of `priority_queue_pop_k` and `priority_queue_pop_v`. -/
def refill (pq : PriorityQueueMeta) (i : Nat) : PriorityQueueMeta := down (up (pq.fill i) i) i

theorem refill_size (pq : PriorityQueueMeta) (i : Nat) :
    (refill pq i).priorityQueueSize = pq.priorityQueueSize - 1 := by
  rw [refill, down_size, up_size, fill_size]

theorem refill_capacity (pq : PriorityQueueMeta) (i : Nat) :
    (refill pq i).priorityQueueCapacity = pq.priorityQueueCapacity := by
  rw [refill, down_capacity, up_capacity, fill_capacity]

theorem entries_fill (hi : 1 ≤ i) (hle : i ≤ pq.priorityQueueSize) :
    entries pq = pq.priorityQueueHeap i ::ₘ entries (pq.fill i) := by
  obtain ⟨n, hn⟩ : ∃ n, pq.priorityQueueSize = n + 1 := ⟨pq.priorityQueueSize - 1, by omega⟩
  unfold entries
  rw [fill_size, fill_heap, hn]
  exact contents_take _ ⟨hi, by omega⟩

/-- The last pair belongs under the slot it is put into, or there. -/
theorem up_fill (h : 2 ≤ i → pq.priorityQueueHeap (i / 2)
    ≤ pq.priorityQueueHeap pq.priorityQueueSize) : up (pq.fill i) i = pq.fill i := by
  rw [up, if_neg]
  rintro ⟨hhalf, hless⟩
  have hlt := pairLessThan_iff.mp hless
  rw [fill_heap, update_self, update_of_ne (by omega)] at hlt
  exact absurd (h (by omega)) (not_le.mpr hlt)

/-- It belongs over it: then it goes up, and what comes down in its place stays there. -/
theorem refill_up (h : InOrder pq) (hi : 2 ≤ i) (hlt : i < pq.priorityQueueSize)
    (hless : pq.priorityQueueHeap pq.priorityQueueSize < pq.priorityQueueHeap (i / 2)) :
    InOrder (up (pq.fill i) i) ∧ entries (up (pq.fill i) i) = entries (pq.fill i) ∧
      refill pq i = up (pq.fill i) i := by
  have hup := h.replace_up (m := pq.priorityQueueSize - 1) (by omega) hi (by omega) hless
  obtain ⟨hord, hkeep⟩ := up_ordered (pq.fill i) i hup (by rw [fill_size]; omega)
  refine ⟨hord, hkeep, down_of_ordered hord (by omega) ?_⟩
  rw [up_size, fill_size]
  intro hlast
  -- the last slot would be under slot `i`, and its pair not below the one over that
  have hover := h i hi (by omega)
  have hunder := h pq.priorityQueueSize (by omega) le_rfl
  rw [show pq.priorityQueueSize / 2 = i by omega] at hunder
  exact absurd (hover.trans hunder) (not_le.mpr hless)

/-- A slot refilled: the heap is in order, and that pair is gone. -/
theorem refill_spec (h : InOrder pq) (hi : 1 ≤ i) (hlt : i < pq.priorityQueueSize) :
    InOrder (refill pq i) ∧ entries pq = pq.priorityQueueHeap i ::ₘ entries (refill pq i) := by
  have hfill := entries_fill hi hlt.le
  by_cases hup : 2 ≤ i ∧
      pq.priorityQueueHeap pq.priorityQueueSize < pq.priorityQueueHeap (i / 2)
  · obtain ⟨hord, hkeep, heq⟩ := refill_up h hup.1 hlt hup.2
    rw [heq, hkeep]
    exact ⟨hord, hfill⟩
  · have hstay : 2 ≤ i → pq.priorityQueueHeap (i / 2)
        ≤ pq.priorityQueueHeap pq.priorityQueueSize := fun hi2 =>
      not_lt.mp fun hless => hup ⟨hi2, hless⟩
    have hdown := h.replace_down (m := pq.priorityQueueSize - 1) (by omega) hstay
    obtain ⟨hord, hkeep⟩ := down_ordered (pq.fill i) i hi hdown (by rw [fill_size]; omega) (by
      rw [fill_heap, fill_size, update_self, update_of_ne (by omega),
        Nat.sub_add_cancel (by omega)])
    rw [refill, up_fill hstay, hkeep]
    exact ⟨hord, hfill⟩

/-- What all slots in front of `i` have they keep, if the last pair has it or does not get there. -/
theorem refill_before {P : PairT → Prop} (hi : 1 ≤ i)
    (h : ∀ j, 1 ≤ j → j < i → P (pq.priorityQueueHeap j))
    (hlast : P (pq.priorityQueueHeap pq.priorityQueueSize) ∨
      (2 ≤ i → pq.priorityQueueHeap (i / 2) ≤ pq.priorityQueueHeap pq.priorityQueueSize))
    {j : Nat} (hj : 1 ≤ j) (hji : j < i) : P ((refill pq i).priorityQueueHeap j) := by
  rw [refill, down_before _ hji]
  rcases hlast with hlast | hstay
  · refine up_all (pq.fill i) i (fun k hk hki => ?_) j hj hji.le
    rw [fill_heap]
    rcases eq_or_ne k i with rfl | hne
    · rw [update_self]
      exact hlast
    · rw [update_of_ne hne]
      exact h k hk (by omega)
  · rw [up_fill hstay, fill_heap, update_of_ne (by omega)]
    exact h j hj hji

/-- The slots between the one over `i` and `i` itself are not touched. -/
theorem refill_between (hj : i / 2 < j) (hji : j < i) :
    (refill pq i).priorityQueueHeap j = pq.priorityQueueHeap j := by
  rw [refill, down_before _ hji, up_between _ (by omega) hj, fill_heap,
    update_of_ne (by omega)]

/-- The first pair stays where it is. -/
theorem refill_top (h : InOrder pq) (hi : 2 ≤ i) (hlt : i < pq.priorityQueueSize)
    (hne : priorityQueueTop pq ≠ pq.priorityQueueHeap i) :
    priorityQueueTop (refill pq i) = priorityQueueTop pq := by
  obtain ⟨hord, hsplit⟩ := refill_spec h (by omega) hlt
  have hmem : priorityQueueTop pq ∈ entries pq := mem_contents.mpr ⟨1, le_rfl, by omega, rfl⟩
  have hmem' : priorityQueueTop (refill pq i) ∈ entries (refill pq i) :=
    mem_contents.mpr ⟨1, le_rfl, by rw [refill_size]; omega, rfl⟩
  refine le_antisymm (hord.first_le_mem ?_) (h.first_le_mem ?_)
  · rw [hsplit] at hmem
    exact (Multiset.mem_cons.mp hmem).resolve_left hne
  · show _ ∈ entries pq
    rw [hsplit]
    exact Multiset.mem_cons_of_mem hmem'

/-- The last slot refilled from itself: the heap is one pair shorter. -/
theorem refill_last (h : InOrder pq) (hpos : 1 ≤ pq.priorityQueueSize) :
    refill pq pq.priorityQueueSize
      = { pq with priorityQueueSize := pq.priorityQueueSize - 1 } := by
  have hstay : 2 ≤ pq.priorityQueueSize → pq.priorityQueueHeap (pq.priorityQueueSize / 2)
      ≤ pq.priorityQueueHeap pq.priorityQueueSize := fun hle => h _ hle le_rfl
  have hfill : pq.fill pq.priorityQueueSize
      = { pq with priorityQueueSize := pq.priorityQueueSize - 1 } := by
    rw [PriorityQueueMeta.fill, update_eq_self]
  rw [refill, up_fill hstay, down, dif_neg (by rw [fill_size]; omega), hfill]

/-! ## The loops -/

/-- The inner loop, at one slot.  With no pair left it would go on in front of the array: `none`. -/
def removeAt (hit : PairT → Bool) (i : Nat) (pq : PriorityQueueMeta) : Option PriorityQueueMeta :=
  if hit (pq.priorityQueueHeap i) then
    if _h : pq.priorityQueueSize = 0 then none else removeAt hit i (refill pq i)
  else some pq
termination_by pq.priorityQueueSize
decreasing_by
  rw [refill_size]
  omega

theorem removeAt_size_le (h : removeAt hit i pq = some pq') :
    pq'.priorityQueueSize ≤ pq.priorityQueueSize := by
  induction pq using removeAt.induct hit i with
  | case1 pq hhit hzero =>
    rw [removeAt, if_pos hhit, dif_pos hzero] at h
    cases h
  | case2 pq hhit hpos ih =>
    rw [removeAt, if_pos hhit, dif_neg hpos] at h
    have hle := ih h
    rw [refill_size] at hle
    omega
  | case3 pq hmiss =>
    rw [removeAt, if_neg hmiss] at h
    exact (Option.some.inj h).symm ▸ le_rfl

/-- The loop over the slots, from slot `i` on. -/
def removeFrom (hit : PairT → Bool) (i : Nat) (pq : PriorityQueueMeta) :
    Option PriorityQueueMeta :=
  if i < pq.priorityQueueSize then
    match h : removeAt hit i pq with
    | none => none
    | some pq' => removeFrom hit (i + 1) pq'
  else some pq
termination_by pq.priorityQueueSize - i
decreasing_by
  have hle := removeAt_size_le h
  omega

def hasKey (key : Int) (x : PairT) : Bool := x.key == key

def hasValue (value : Int) (x : PairT) : Bool := x.value == value

/-- The source's `priority_queue_pop_k`. -/
def priorityQueuePopK (pq : PriorityQueueMeta) (key : Int) : Option PriorityQueueMeta :=
  removeFrom (hasKey key) 1 pq

theorem popAt_eq (value : Int) (i : Nat) (pq : PriorityQueueMeta) :
    popAt value i pq = removeAt (hasValue value) i pq := by
  induction pq using removeAt.induct (hasValue value) i with
  | case1 pq hhit hzero =>
    rw [popAt, removeAt, if_pos (beq_iff_eq.mp hhit), if_pos hhit, dif_pos hzero, dif_pos hzero]
  | case2 pq hhit hpos ih =>
    rw [popAt, removeAt, if_pos (beq_iff_eq.mp hhit), if_pos hhit, dif_neg hpos, dif_neg hpos]
    exact ih
  | case3 pq hmiss =>
    rw [popAt, removeAt, if_neg fun heq => hmiss (beq_iff_eq.mpr heq), if_neg hmiss]

/-- `priority_queue_pop_v` is the same scan for a value. -/
theorem priorityQueuePopV_scan (pq : PriorityQueueMeta) (value : Int) :
    priorityQueuePopV pq value = removeFrom (hasValue value) 1 pq := by
  suffices h : ∀ k i pq, pq.priorityQueueSize - i = k →
      popFrom value i pq = removeFrom (hasValue value) i pq from h _ 1 pq rfl
  intro k
  induction k using Nat.strong_induction_on with
  | _ k ih =>
    intro i pq hk
    rw [popFrom, removeFrom]
    by_cases hlt : i < pq.priorityQueueSize
    · rw [if_pos hlt, if_pos hlt]
      split
      · next hnone =>
        rw [popAt_eq] at hnone
        split
        · rfl
        · next hsome => exact nomatch hnone.symm.trans hsome
      · next pq₁ hsome =>
        rw [popAt_eq] at hsome
        split
        · next hnone => exact nomatch hsome.symm.trans hnone
        · next pq₂ hsome' =>
          cases hsome.symm.trans hsome'
          have hle := removeAt_size_le hsome
          exact ih (pq₁.priorityQueueSize - (i + 1)) (by omega) (i + 1) pq₁ rfl
    · rw [if_neg hlt, if_neg hlt]

/-- The scan from the test of the inner loop on. -/
def sweep (hit : PairT → Bool) (i : Nat) (pq : PriorityQueueMeta) : Option PriorityQueueMeta :=
  (removeAt hit i pq).bind (removeFrom hit (i + 1))

theorem removeFrom_lt (h : i < pq.priorityQueueSize) : removeFrom hit i pq = sweep hit i pq := by
  rw [removeFrom, if_pos h, sweep]
  split
  · next hnone => rw [hnone, Option.bind_none]
  · next hsome => rw [hsome, Option.bind_some]

theorem removeFrom_end (h : pq.priorityQueueSize ≤ i) : removeFrom hit i pq = some pq := by
  rw [removeFrom, if_neg (by omega)]

theorem sweep_hit (hhit : hit (pq.priorityQueueHeap i) = true) (hpos : pq.priorityQueueSize ≠ 0) :
    sweep hit i pq = sweep hit i (refill pq i) := by
  rw [sweep, removeAt, if_pos hhit, dif_neg hpos]
  rfl

theorem sweep_miss (hmiss : hit (pq.priorityQueueHeap i) = false) :
    sweep hit i pq = removeFrom hit (i + 1) pq := by
  rw [sweep, removeAt, if_neg (by rw [hmiss]; decide)]
  rfl

/-! ## What is left -/

/-- All pairs that are hit are gone, and no other; the heap is in order. -/
def Clears (hit : PairT → Bool) (pq : PriorityQueueMeta) (res : Option PriorityQueueMeta) : Prop :=
  ∃ pq', res = some pq' ∧ InOrder pq' ∧ entries pq' = (entries pq).filter (fun x => hit x = false) ∧
    pq'.priorityQueueSize = (entries pq').card

/-- The scan has got from slot `i` of `pq` to slot `j` of `q`. -/
inductive Scan (hit : PairT → Bool) : Nat → PriorityQueueMeta → Nat → PriorityQueueMeta → Prop
  | here (i : Nat) (pq : PriorityQueueMeta) : Scan hit i pq i pq
  | removed {i j : Nat} {pq q : PriorityQueueMeta} (hlt : i < pq.priorityQueueSize)
      (hhit : hit (pq.priorityQueueHeap i) = true) (rest : Scan hit i (refill pq i) j q) :
      Scan hit i pq j q
  | passed {i j : Nat} {pq q : PriorityQueueMeta} (hlt : i < pq.priorityQueueSize)
      (hmiss : hit (pq.priorityQueueHeap i) = false) (rest : Scan hit (i + 1) pq j q) :
      Scan hit i pq j q

/-- The slot that the scan has got to is the last one, and is hit. -/
def Last (hit : PairT → Bool) (j : Nat) (q : PriorityQueueMeta) : Prop :=
  j = q.priorityQueueSize ∧ hit (q.priorityQueueHeap j) = true

/-- The slot is to be filled by a pair that is hit as well, and goes up. -/
def Stray (hit : PairT → Bool) (j : Nat) (q : PriorityQueueMeta) : Prop :=
  j < q.priorityQueueSize ∧ hit (q.priorityQueueHeap j) = true ∧
    hit (q.priorityQueueHeap q.priorityQueueSize) = true ∧ 2 ≤ j ∧
      q.priorityQueueHeap q.priorityQueueSize < q.priorityQueueHeap (j / 2)

theorem filter_cons_hit (hhit : hit x = true) (s : Multiset PairT) :
    (x ::ₘ s).filter (fun x => hit x = false) = s.filter (fun x => hit x = false) :=
  Multiset.filter_cons_of_neg s (by rw [hhit]; decide)

theorem filter_cons_miss (hmiss : hit x = false) (s : Multiset PairT) :
    (x ::ₘ s).filter (fun x => hit x = false) = x ::ₘ s.filter (fun x => hit x = false) :=
  Multiset.filter_cons_of_pos s hmiss

theorem countP_cons_hit (hhit : hit x = true) (s : Multiset PairT) :
    (x ::ₘ s).countP (fun x => hit x = true) = s.countP (fun x => hit x = true) + 1 :=
  Multiset.countP_cons_of_pos s hhit

theorem filter_refill (h : InOrder pq) (hi : 1 ≤ i) (hlt : i < pq.priorityQueueSize)
    (hhit : hit (pq.priorityQueueHeap i) = true) :
    (entries (refill pq i)).filter (fun x => hit x = false)
      = (entries pq).filter (fun x => hit x = false) := by
  rw [(refill_spec h hi hlt).2, filter_cons_hit hhit]

/-- A scan that goes well clears the heap; it is the same whether the slot is looked at as the next
    one or once more. -/
theorem scan_clears (h : InOrder pq) (hi : 1 ≤ i) (hle : i ≤ pq.priorityQueueSize)
    (hbefore : ∀ j, 1 ≤ j → j < i → hit (pq.priorityQueueHeap j) = false)
    (hwell : ∀ j q, Scan hit i pq j q → ¬ Last hit j q ∧ ¬ Stray hit j q) :
    Clears hit pq (removeFrom hit i pq) ∧ Clears hit pq (sweep hit i pq) := by
  induction hk : pq.priorityQueueSize - i generalizing pq i with
  | zero =>
    have hlast : i = pq.priorityQueueSize := by omega
    have hmiss : hit (pq.priorityQueueHeap i) = false := by
      by_contra hhit
      exact (hwell i pq (.here i pq)).1 ⟨hlast, (Bool.not_eq_false _).mp hhit⟩
    have hall : (entries pq).filter (fun x => hit x = false) = entries pq := by
      refine Multiset.filter_eq_self.mpr fun x hx => ?_
      obtain ⟨j, hj, hjle, rfl⟩ := mem_contents.mp hx
      rcases Nat.lt_or_eq_of_le hjle with hlt | rfl
      · exact hbefore j hj (by omega)
      · exact hlast ▸ hmiss
    have hclears : Clears hit pq (some pq) := ⟨pq, rfl, h, hall.symm, (card_entries pq).symm⟩
    rw [sweep_miss hmiss, removeFrom_end hlast.ge, removeFrom_end (by omega)]
    exact ⟨hclears, hclears⟩
  | succ k ih =>
    have hlt : i < pq.priorityQueueSize := by omega
    rw [removeFrom_lt hlt, and_self]
    by_cases hhit : hit (pq.priorityQueueHeap i) = true
    · have hlast : hit (pq.priorityQueueHeap pq.priorityQueueSize) = false ∨ (2 ≤ i →
          pq.priorityQueueHeap (i / 2) ≤ pq.priorityQueueHeap pq.priorityQueueSize) := by
        by_contra hboth
        obtain ⟨hmiss, hup⟩ := not_or.mp hboth
        obtain ⟨hi2, hless⟩ := Classical.not_imp.mp hup
        exact (hwell i pq (.here i pq)).2
          ⟨hlt, hhit, (Bool.not_eq_false _).mp hmiss, hi2, not_le.mp hless⟩
      have hfilter := filter_refill h hi hlt hhit
      obtain ⟨-, hclears⟩ := ih (refill_spec h hi hlt).1 hi (by rw [refill_size]; omega)
        (fun j hj hji => refill_before (P := fun x => hit x = false) hi hbefore hlast hj hji)
        (fun j q hscan => hwell j q (.removed hlt hhit hscan)) (by rw [refill_size]; omega)
      rw [sweep_hit hhit (by omega)]
      rwa [Clears, hfilter] at hclears
    · have hmiss : hit (pq.priorityQueueHeap i) = false := (Bool.not_eq_true _).mp hhit
      rw [sweep_miss hmiss]
      refine (ih h (by omega) (by omega) (fun j hj hji => ?_)
        (fun j q hscan => hwell j q (.passed hlt hmiss hscan)) (by omega)).1
      rcases Nat.lt_or_eq_of_le (Nat.le_of_lt_succ hji) with hold | rfl
      · exact hbefore j hj hold
      · exact hmiss

/-! ## A slot that has become the last one -/

/-- Slot `i` has come to be behind the heap, and is filled from it. -/
theorem refill_behind (h : InOrder pq) (hi : pq.priorityQueueSize < i)
    (hroom : i - i / 2 ≤ pq.priorityQueueSize) (hpos : 1 ≤ pq.priorityQueueSize) :
    InOrder (refill pq i) ∧
      (refill pq i).priorityQueueHeap i ::ₘ entries (refill pq i) = entries pq := by
  obtain ⟨n, hn⟩ : ∃ n, pq.priorityQueueSize = n + 1 := ⟨pq.priorityQueueSize - 1, by omega⟩
  have hsize : (pq.fill i).priorityQueueSize = n := by rw [fill_size, hn, Nat.add_sub_cancel]
  have hkept : ∀ j, j ≤ n → (pq.fill i).priorityQueueHeap j = pq.priorityQueueHeap j := fun j hj =>
    update_of_ne (by omega) _ _
  have hput : (pq.fill i).priorityQueueHeap i = pq.priorityQueueHeap (n + 1) := by
    rw [fill_heap, update_self, hn]
  have hord : InOrder (pq.fill i) := by
    intro j hj hjn
    rw [hsize] at hjn
    rw [hkept j hjn, hkept (j / 2) (by omega)]
    exact h j hj (by omega)
  have hall : (pq.fill i).priorityQueueHeap i ::ₘ entries (pq.fill i) = entries pq := by
    unfold entries
    rw [hput, hsize, hn, contents_succ, contents_congr fun j _ hj => hkept j hj]
  have hdown : down (up (pq.fill i) i) i = up (pq.fill i) i := by
    rw [down, dif_neg (by rw [up_size, hsize]; omega)]
  rw [refill, hdown]
  by_cases hgo : i / 2 ≠ 0 ∧ pairLessThan ((pq.fill i).priorityQueueHeap i)
      ((pq.fill i).priorityQueueHeap (i / 2)) = true
  · have hless := pairLessThan_iff.mp hgo.2
    have hin : i / 2 ≤ n := by
      by_contra hout
      -- the slot over `i` held the pair that was taken
      have hsame : i / 2 = n + 1 := by omega
      rw [hput, hsame, fill_heap, update_of_ne (by omega)] at hless
      exact absurd hless (lt_irrefl _)
    have hup : UpOrdered (pq.fill i).priorityQueueHeap (pq.fill i).priorityQueueSize i :=
      ⟨fun j hj hjn _ => hord j hj hjn, fun j _ hjn hdiv => absurd hjn (by omega)⟩
    have hmove := hup.move (by omega) (by rw [hsize]; exact hin) hless
    obtain ⟨hord', hkeep⟩ := up_ordered ((pq.fill i).swap i (i / 2)) (i / 2) hmove
      (by rw [swap_size, hsize]; exact hin)
    have hout := contents_swap_out (pq.fill i).priorityQueueHeap (i := i) (j := i / 2) (n := n)
      (by omega) ⟨by omega, hin⟩
    rw [up, if_pos hgo]
    refine ⟨hord', ?_⟩
    rw [hkeep, up_between _ (by omega) (by omega), swap_heap, swap_left, ← hall]
    unfold entries
    rw [swap_size, swap_heap, hsize]
    exact hout
  · rw [up, if_neg hgo]
    exact ⟨hord, hall⟩

/-- Going on at a slot behind the heap: it ends with a pair there that is not hit, taken from the
    heap.  Every turn takes a pair out of those that are hit, and there are fewer of them than there
    are turns before the heap is used up. -/
theorem removeAt_overrun (hi : 2 ≤ i) (n : Nat) (h : InOrder pq) (hn : pq.priorityQueueSize = n)
    (hlt : n < i) (hcount : (pq.priorityQueueHeap i ::ₘ entries pq).countP
      (fun x => hit x = true) + (i - 1) ≤ n + i / 2) :
    ∃ pq', removeAt hit i pq = some pq' ∧ hit (pq'.priorityQueueHeap i) = false ∧ InOrder pq' ∧
      pq'.priorityQueueSize < i ∧
      (pq'.priorityQueueHeap i ::ₘ entries pq').filter (fun x => hit x = false)
        = (pq.priorityQueueHeap i ::ₘ entries pq).filter (fun x => hit x = false) := by
  induction n generalizing pq with
  | zero =>
    have hmiss : hit (pq.priorityQueueHeap i) = false := by
      by_contra hhit
      rw [countP_cons_hit ((Bool.not_eq_false _).mp hhit)] at hcount
      omega
    exact ⟨pq, by rw [removeAt, if_neg (by rw [hmiss]; decide)], hmiss, h, by omega, rfl⟩
  | succ n ih =>
    by_cases hhit : hit (pq.priorityQueueHeap i) = true
    · rw [countP_cons_hit hhit] at hcount
      obtain ⟨hord, hall⟩ := refill_behind h (i := i) (by omega) (by omega) (by omega)
      obtain ⟨pq', hrun, hmiss, hord', hsize', hfilter⟩ := ih hord
        (by rw [refill_size]; omega) (by omega) (by rw [hall]; omega)
      refine ⟨pq', ?_, hmiss, hord', hsize', ?_⟩
      · rw [removeAt, if_pos hhit, dif_neg (by omega)]
        exact hrun
      · rw [hfilter, hall, filter_cons_hit hhit]
    · have hmiss : hit (pq.priorityQueueHeap i) = false := (Bool.not_eq_true _).mp hhit
      exact ⟨pq, by rw [removeAt, if_neg hhit], hmiss, h, by omega, rfl⟩

/-- What is known wherever the scan is: the first pair is not hit if it is behind the scan, nor are
    those that are too far down for a pair that goes up. -/
structure Swept (hit : PairT → Bool) (i : Nat) (pq : PriorityQueueMeta) : Prop where
  order : InOrder pq
  pos : 1 ≤ i
  le : i ≤ pq.priorityQueueSize
  top : 2 ≤ i → hit (priorityQueueTop pq) = false
  between : ∀ j, i / 2 < j → j < i → hit (pq.priorityQueueHeap j) = false

theorem Swept.removed (h : Swept hit i pq) (hlt : i < pq.priorityQueueSize)
    (hhit : hit (pq.priorityQueueHeap i) = true) : Swept hit i (refill pq i) := by
  refine ⟨(refill_spec h.order h.pos hlt).1, h.pos, ?_, fun hi => ?_, fun j hj hji => ?_⟩
  · rw [refill_size]
    omega
  · have hne : priorityQueueTop pq ≠ pq.priorityQueueHeap i := by
      intro heq
      have htop := h.top hi
      rw [heq, hhit] at htop
      cases htop
    rw [refill_top h.order hi hlt hne]
    exact h.top hi
  · rw [refill_between hj hji]
    exact h.between j hj hji

theorem Swept.passed (h : Swept hit i pq) (hlt : i < pq.priorityQueueSize)
    (hmiss : hit (pq.priorityQueueHeap i) = false) : Swept hit (i + 1) pq := by
  have hpos := h.pos
  refine ⟨h.order, by omega, hlt, fun _ => ?_, fun j hj hji => ?_⟩
  · rcases Nat.lt_or_eq_of_le hpos with hi | rfl
    · exact h.top hi
    · exact hmiss
  · rcases Nat.lt_or_eq_of_le (Nat.le_of_lt_succ hji) with hold | rfl
    · exact h.between j (by omega) hold
    · exact hmiss

/-- Not many pairs in front of slot `i` are hit. -/
theorem Swept.count (h : Swept hit i pq) (hi : 2 ≤ i) :
    (contents pq.priorityQueueHeap (i - 1)).countP (fun x => hit x = true) + 1 ≤ i / 2 := by
  have hcard : (contents pq.priorityQueueHeap (i - 1)).countP (fun x => hit x = true)
      = ((Finset.Icc 1 (i - 1)).filter fun j => hit (pq.priorityQueueHeap j) = true).card := by
    rw [contents, Multiset.countP_map]
    rfl
  have hsub : ((Finset.Icc 1 (i - 1)).filter fun j => hit (pq.priorityQueueHeap j) = true)
      ⊆ Finset.Icc 2 (i / 2) := by
    intro j hj
    rw [Finset.mem_filter, Finset.mem_Icc] at hj
    obtain ⟨⟨hj1, hji⟩, hhit⟩ := hj
    rw [Finset.mem_Icc]
    constructor
    · by_contra hone
      obtain rfl : j = 1 := by omega
      exact absurd (h.top hi) (by rw [show hit (priorityQueueTop pq) = true from hhit]; decide)
    · by_contra hfar
      exact absurd (h.between j (by omega) (by omega)) (by rw [hhit]; decide)
  have hle := Finset.card_le_card hsub
  rw [Nat.card_Icc] at hle
  rw [hcard]
  omega

/-- The slot is the last one and is hit.  As the next one it is not looked at. -/
theorem not_clears_next (hpos : 1 ≤ pq.priorityQueueSize) (hlast : Last hit i pq) :
    ¬ Clears hit pq (removeFrom hit i pq) := by
  rw [removeFrom_end hlast.1.ge]
  rintro ⟨pq', hrun, -, hentries, -⟩
  cases hrun
  have hmem : pq.priorityQueueHeap i ∈ entries pq :=
    mem_contents.mpr ⟨i, by rw [hlast.1]; exact hpos, hlast.1.le, rfl⟩
  rw [hentries, Multiset.mem_filter, hlast.2] at hmem
  exact nomatch hmem.2

theorem sweep_last (h : Swept hit i pq) (hlast : Last hit i pq) :
    sweep hit i pq = sweep hit i { pq with priorityQueueSize := i - 1 } := by
  obtain ⟨hi, hhit⟩ := hlast
  have hpos := h.pos
  have hrefill : refill pq i = { pq with priorityQueueSize := i - 1 } := by
    rw [hi]
    exact refill_last h.order (hi ▸ hpos)
  rw [sweep_hit hhit (by omega), hrefill]

/-- Looked at once more, it costs another pair. -/
theorem sweep_again (h : Swept hit i pq) (hlast : Last hit i pq) (hi2 : 2 ≤ i) :
    ∃ pq', sweep hit i pq = some pq' ∧ InOrder pq' ∧ hit (pq'.priorityQueueHeap i) = false ∧
      pq'.priorityQueueHeap i ::ₘ (entries pq').filter (fun x => hit x = false)
        = (entries pq).filter (fun x => hit x = false) := by
  have hcount := h.count hi2
  rw [sweep_last h hlast]
  obtain ⟨hi, hhit⟩ := hlast
  have hshort : InOrder { pq with priorityQueueSize := i - 1 } := by
    intro j hj hle
    have hle : j ≤ i - 1 := hle
    exact h.order j hj (by omega)
  have hcount' : (pq.priorityQueueHeap i ::ₘ entries { pq with priorityQueueSize := i - 1 }).countP
      (fun x => hit x = true) + (i - 1) ≤ i - 1 + i / 2 := by
    rw [countP_cons_hit hhit]
    show (contents pq.priorityQueueHeap (i - 1)).countP _ + 1 + (i - 1) ≤ _
    omega
  obtain ⟨pq', hrun, hmiss, hord, hsize, hfilter⟩ :=
    removeAt_overrun hi2 (i - 1) hshort rfl (by omega) hcount'
  have hsplit : entries pq
      = pq.priorityQueueHeap i ::ₘ entries { pq with priorityQueueSize := i - 1 } := by
    obtain ⟨n, rfl⟩ : ∃ n, i = n + 1 := ⟨i - 1, by omega⟩
    unfold entries
    rw [← hi]
    exact contents_succ _ n
  refine ⟨pq', ?_, hord, hmiss, ?_⟩
  · rw [sweep, hrun, Option.bind_some, removeFrom_end (by omega)]
  · rw [hsplit, ← filter_cons_miss hmiss]
    exact hfilter

/-- The heap runs out at slot 1, and misses a pair at another one. -/
theorem not_clears_again (h : Swept hit i pq) (hlast : Last hit i pq) :
    ¬ Clears hit pq (sweep hit i pq) := by
  rcases Nat.lt_or_eq_of_le h.pos with hi2 | rfl
  · obtain ⟨pq', hrun, -, hmiss, hfilter⟩ := sweep_again h hlast hi2
    rw [hrun]
    rintro ⟨pq'', heq, -, hentries, -⟩
    cases heq
    rw [← hfilter] at hentries
    have hclean : (entries pq').filter (fun x => hit x = false) = entries pq' := by
      refine Multiset.filter_eq_self.mpr fun x hx => ?_
      rw [hentries] at hx
      rcases Multiset.mem_cons.mp hx with rfl | hx
      · exact hmiss
      · exact (Multiset.mem_filter.mp hx).2
    have hcard := congrArg Multiset.card hentries
    rw [hclean, Multiset.card_cons] at hcard
    omega
  · rw [sweep_last h hlast, sweep, removeAt, if_pos hlast.2, dif_pos rfl]
    rintro ⟨pq', hnone, -⟩
    cases hnone

/-- A scan that comes to a last slot that is hit does not clear the heap. -/
theorem scan_last (hscan : Scan hit i pq j q) (h : Swept hit i pq) (hlast : Last hit j q) :
    ¬ Clears hit pq (removeFrom hit i pq) ∧ ¬ Clears hit pq (sweep hit i pq) := by
  induction hscan with
  | here i pq => exact ⟨not_clears_next (h.pos.trans h.le) hlast, not_clears_again h hlast⟩
  | @removed i j pq q hlt hhit rest ih =>
    have hfilter := filter_refill h.order h.pos hlt hhit
    have hnot := (ih (h.removed hlt hhit) hlast).2
    rw [removeFrom_lt hlt, and_self, sweep_hit hhit (by omega)]
    rwa [Clears, hfilter] at hnot
  | @passed i j pq q hlt hmiss rest ih =>
    rw [removeFrom_lt hlt, and_self, sweep_miss hmiss]
    exact (ih (h.passed hlt hmiss) hlast).1

/-! ## The two operations -/

/-- A pair with the key does not go up: the pair over it would have the key, and be gone. -/
theorem not_stray_key {key : Int} (h : InOrder q)
    (hbefore : ∀ k, 1 ≤ k → k < j → hasKey key (q.priorityQueueHeap k) = false) :
    ¬ Stray (hasKey key) j q := by
  rintro ⟨hlt, hhit, hlast, hj2, hless⟩
  have hover := key_le_key (h j hj2 hlt.le)
  have hup := key_le_key hless.le
  have hpast := hbefore (j / 2) (by omega) (by omega)
  have hkey := beq_iff_eq.mp hhit
  have hkey' := beq_iff_eq.mp hlast
  have hne := beq_eq_false_iff_ne.mp hpast
  omega

/-- The scan for a key leaves no pair with the key behind. -/
theorem scan_key {key : Int} (hscan : Scan (hasKey key) i pq j q) (h : InOrder pq) (hi : 1 ≤ i)
    (hbefore : ∀ k, 1 ≤ k → k < i → hasKey key (pq.priorityQueueHeap k) = false) :
    ¬ Stray (hasKey key) j q := by
  induction hscan with
  | here i pq => exact not_stray_key h hbefore
  | @removed i j pq q hlt hhit rest ih =>
    refine ih (refill_spec h hi hlt).1 hi fun k hk hki => ?_
    refine refill_before (P := fun x => hasKey key x = false) hi hbefore ?_ hk hki
    by_contra hboth
    obtain ⟨hmiss, hup⟩ := not_or.mp hboth
    obtain ⟨hi2, hless⟩ := Classical.not_imp.mp hup
    exact not_stray_key h hbefore
      ⟨hlt, hhit, (Bool.not_eq_false _).mp hmiss, hi2, not_le.mp hless⟩
  | @passed i j pq q hlt hmiss rest ih =>
    refine ih h (by omega) fun k hk hki => ?_
    rcases Nat.lt_or_eq_of_le (Nat.le_of_lt_succ hki) with hold | rfl
    · exact hbefore k hk hold
    · exact hmiss

/-- The scan over a heap that may be empty. -/
theorem removeFrom_clears (h : InOrder pq)
    (hwell : ∀ j q, Scan hit 1 pq j q → ¬ Last hit j q ∧ ¬ Stray hit j q) :
    Clears hit pq (removeFrom hit 1 pq) := by
  rcases Nat.eq_zero_or_pos pq.priorityQueueSize with hzero | hpos
  · have hnone : entries pq = 0 := by rw [entries, hzero, contents_zero]
    rw [removeFrom_end (by omega)]
    refine ⟨pq, rfl, h, ?_, (card_entries pq).symm⟩
    rw [hnone, Multiset.filter_zero]
  · exact (scan_clears h le_rfl hpos (fun j hj hj1 => absurd hj1 (by omega)) hwell).1

theorem removeFrom_last (h : InOrder pq) (hclears : Clears hit pq (removeFrom hit 1 pq))
    (hscan : Scan hit 1 pq j q) : ¬ Last hit j q := by
  intro hlast
  rcases Nat.eq_zero_or_pos pq.priorityQueueSize with hzero | hpos
  · cases hscan with
    | here => exact absurd hlast.1 (by omega)
    | removed hlt => omega
    | passed hlt => omega
  · have hswept : Swept hit 1 pq := ⟨h, le_rfl, hpos, fun hle => absurd hle (by decide),
      fun j hj hj1 => absurd hj1 (by omega)⟩
    exact (scan_last hscan hswept hlast).1 hclears

/-- A heap that pushes and pops have made. -/
def Produced (pq : PriorityQueueMeta) : Prop :=
  ∃ capacity heapAddr pq₀ ops, priorityQueueInit capacity heapAddr = some pq₀ ∧
    runPushPops ops pq₀ = some pq

theorem Produced.order (h : Produced pq) : InOrder pq := by
  obtain ⟨capacity, heapAddr, pq₀, ops, hinit, hrun⟩ := h
  rcases (holdsBag_init hinit).runPushPops ops with ⟨hnone, -⟩ | ⟨pq₁, s, hsome, -, hholds⟩
  · exact nomatch hrun.symm.trans hnone
  · cases hrun.symm.trans hsome
    exact hholds.order

/-- A run that a bag allows makes a heap. -/
theorem produced_of_bag {ops : List PushPop} {s : Multiset PairT} (hpos : 0 < capacity)
    (hbag : bagPushPops capacity ops 0 = some s) :
    ∃ pq, Produced pq ∧ InOrder pq ∧ entries pq = s := by
  have hinit : priorityQueueInit capacity (fun _ => ⟨0, 0⟩) = some _ := if_pos hpos
  rcases (holdsBag_init hinit).runPushPops ops with ⟨-, hnone⟩ | ⟨pq, s', hrun, hsome, hholds⟩
  · exact nomatch hbag.symm.trans hnone
  · cases hbag.symm.trans hsome
    exact ⟨pq, ⟨capacity, _, _, ops, hinit, hrun⟩, hholds.order, hholds.entries_eq⟩

/-- `pop_k` clears a heap of a key if and only if its scan never is at a last slot with the key; and
    `pop_v` of a value if it never is at such a slot and no pair with the value strays, and only if
    it never is at such a slot. -/
theorem pop_clears (h : Produced pq) (key value : Int) :
    (Clears (hasKey key) pq (priorityQueuePopK pq key) ↔
      ∀ j q, Scan (hasKey key) 1 pq j q → ¬ Last (hasKey key) j q) ∧
    ((∀ j q, Scan (hasValue value) 1 pq j q →
        ¬ Last (hasValue value) j q ∧ ¬ Stray (hasValue value) j q) →
      Clears (hasValue value) pq (priorityQueuePopV pq value)) ∧
    (Clears (hasValue value) pq (priorityQueuePopV pq value) →
      ∀ j q, Scan (hasValue value) 1 pq j q → ¬ Last (hasValue value) j q) := by
  rw [priorityQueuePopV_scan]
  refine ⟨⟨fun hclears j q => removeFrom_last h.order hclears, fun hwell => ?_⟩,
    removeFrom_clears h.order, fun hclears j q => removeFrom_last h.order hclears⟩
  refine removeFrom_clears h.order fun j q hscan => ⟨hwell j q hscan, ?_⟩
  exact scan_key hscan h.order le_rfl fun k hk hk1 => absurd hk1 (by omega)

/-- In a heap of two pairs of which only the first is hit, the scan stays at the first slot. -/
theorem scan_two (hord : InOrder pq) (hentries : entries pq = {⟨3, 7⟩, ⟨5, 8⟩})
    (hfirst : hit ⟨3, 7⟩ = true) (hsecond : hit ⟨5, 8⟩ = false) (hscan : Scan hit 1 pq j q) :
    ¬ Last hit j q ∧ ¬ Stray hit j q := by
  have hsize : pq.priorityQueueSize = 2 := by
    rw [← card_entries, hentries]
    rfl
  have htop : pq.priorityQueueHeap 1 = ⟨3, 7⟩ := by
    have hmem : pq.priorityQueueHeap 1 ∈ entries pq :=
      mem_contents.mpr ⟨1, le_rfl, by omega, rfl⟩
    have hle : pq.priorityQueueHeap 1 ≤ ⟨3, 7⟩ := hord.first_le_mem (by
      show _ ∈ entries pq
      rw [hentries]
      exact Multiset.mem_cons_self _ _)
    rw [hentries] at hmem
    rcases Multiset.mem_cons.mp hmem with heq | heq
    · exact heq
    · rw [Multiset.mem_singleton.mp heq] at hle
      exact absurd (key_le_key hle) (by decide)
  have hone : (refill pq 1).priorityQueueSize = 1 := by rw [refill_size, hsize]
  have hrest : hit ((refill pq 1).priorityQueueHeap 1) = false := by
    have hsplit := (refill_spec hord le_rfl (by omega)).2
    rw [hentries, htop] at hsplit
    have hmem : (refill pq 1).priorityQueueHeap 1 ∈ entries (refill pq 1) :=
      mem_contents.mpr ⟨1, le_rfl, hone.ge, rfl⟩
    rw [← (Multiset.cons_inj_right _).mp hsplit] at hmem
    rw [Multiset.mem_singleton.mp hmem]
    exact hsecond
  cases hscan with
  | here =>
    constructor
    · rintro ⟨hlast, -⟩
      omega
    · rintro ⟨-, -, -, hj, -⟩
      omega
  | removed _ _ rest =>
    cases rest with
    | here =>
      constructor
      · rintro ⟨-, hhit⟩
        exact nomatch hhit.symm.trans hrest
      · rintro ⟨-, -, -, hj, -⟩
        omega
    | removed hlt => omega
    | passed hlt => omega
  | passed _ hmiss =>
    rw [htop] at hmiss
    exact nomatch hfirst.symm.trans hmiss

/-- A heap of two pairs, the first one of which is to go, by its key or by its value. -/
theorem pop_clears_two : ∃ pq, Produced pq ∧ pq.priorityQueueSize = 2 ∧
    Clears (hasKey 3) pq (priorityQueuePopK pq 3) ∧
    Clears (hasValue 7) pq (priorityQueuePopV pq 7) := by
  have hbag : bagPushPops 2 [.push ⟨5, 8⟩, .push ⟨3, 7⟩] 0 = some {⟨3, 7⟩, ⟨5, 8⟩} := by decide
  obtain ⟨pq, hpq, hord, hentries⟩ := produced_of_bag (by decide) hbag
  have hsize : pq.priorityQueueSize = 2 := by
    rw [← card_entries, hentries]
    rfl
  obtain ⟨hkey, hvalue, -⟩ := pop_clears hpq 3 7
  exact ⟨pq, hpq, hsize, hkey.mpr fun j q hscan => (scan_two hord hentries rfl rfl hscan).1,
    hvalue fun j q hscan => scan_two hord hentries rfl rfl hscan⟩

/-- The only pair has the value, and stays. -/
theorem popV_misses_one : ¬ ∀ pq, Produced pq → ∀ value,
    Clears (hasValue value) pq (priorityQueuePopV pq value) := by
  intro hall
  have hbag : bagPushPops 2 [.push ⟨5, 8⟩] 0 = some {⟨5, 8⟩} := by decide
  obtain ⟨pq, hpq, -, hentries⟩ := produced_of_bag (by decide) hbag
  have hsize : pq.priorityQueueSize = 1 := by
    rw [← card_entries, hentries]
    rfl
  obtain ⟨pq', hrun, -, hleft, -⟩ := hall pq hpq 8
  rw [priorityQueuePopV_scan, removeFrom_end hsize.le] at hrun
  cases hrun
  rw [hentries] at hleft
  have hcard := congrArg Multiset.card hleft
  exact absurd hcard (by decide)

end Uniks.PriorityQueue
