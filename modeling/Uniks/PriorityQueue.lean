/-
  `libs/priority_queue.c`: the binary heap of pairs behind the sleep queue.

  The heap is 1-based: slot 0 of the array is never used, and slot `size + 1` still holds what was
  there before the last pop.  `down` compares with that slot too, because its guard is `root_no <
  size` where the slot it reads is `2 * root_no + 1`; after `pop` this does no harm, since the slot
  holds the element on its way down (`down_ordered`).

  `pop_v` leaves its loop before the last slot: an element there is never removed.
-/
import Uniks.Lib.Heap
import Mathlib.Data.Prod.Lex
import Mathlib.Algebra.Order.Group.Int

namespace Uniks.PriorityQueue

open Uniks.Heap

/-- The C type `struct pair_t`; both members are `int64_t`. -/
structure PairT where
  key : Int
  value : Int
  deriving DecidableEq, Repr

/-- The C type `struct priority_queue_meta_t`, with the array it points to. -/
structure PriorityQueueMeta where
  priorityQueueSize : Nat
  priorityQueueCapacity : Nat
  priorityQueueHeap : Nat → PairT

/-- The source's `__pair_less_than`. -/
def pairLessThan (o1 o2 : PairT) : Bool :=
  if o1.key < o2.key then true
  else if o1.key = o2.key ∧ o1.value < o2.value then true
  else false

/-- The order of the pairs: by key, then by value. -/
instance : LinearOrder PairT :=
  LinearOrder.lift' (fun x => toLex (x.key, x.value)) (by
    rintro ⟨k, v⟩ ⟨k', v'⟩ h
    simpa [Prod.ext_iff] using h)

theorem pairLessThan_iff {x y : PairT} : pairLessThan x y = true ↔ x < y := by
  have hlex : x < y ↔ x.key < y.key ∨ x.key = y.key ∧ x.value < y.value := by
    show toLex (x.key, x.value) < toLex (y.key, y.value) ↔ _
    exact Prod.Lex.toLex_lt_toLex
  rw [hlex, pairLessThan]
  split_ifs with hkey hvalue
  · exact ⟨fun _ => .inl hkey, fun _ => rfl⟩
  · exact ⟨fun _ => .inr hvalue, fun _ => rfl⟩
  · exact ⟨(nomatch ·), fun h => (h.elim hkey hvalue).elim⟩

theorem pairLessThan_self (x : PairT) : pairLessThan x x = false := by
  simp [pairLessThan]

/-- What comes first in the order has the least key. -/
theorem key_le_key {x y : PairT} (h : x ≤ y) : x.key ≤ y.key := by
  by_contra hlt
  have : y < x := pairLessThan_iff.mp (by simp [pairLessThan, not_le.mp hlt])
  exact absurd h (not_le.mpr this)

/-- The source's `priority_queue_init`; `none` is the failed assertion. -/
def priorityQueueInit (capacity : Nat) (heapAddr : Nat → PairT) : Option PriorityQueueMeta :=
  if 0 < capacity then some ⟨0, capacity, heapAddr⟩ else none

def priorityQueueEmpty (pq : PriorityQueueMeta) : Bool := pq.priorityQueueSize == 0

/-- The macro `SWAP` on two slots of the heap. -/
def PriorityQueueMeta.swap (pq : PriorityQueueMeta) (i j : Nat) : PriorityQueueMeta :=
  { pq with priorityQueueHeap := Heap.swap pq.priorityQueueHeap i j }

@[simp] theorem swap_size (pq : PriorityQueueMeta) (i j : Nat) :
    (pq.swap i j).priorityQueueSize = pq.priorityQueueSize := rfl

@[simp] theorem swap_heap (pq : PriorityQueueMeta) (i j : Nat) :
    (pq.swap i j).priorityQueueHeap = Heap.swap pq.priorityQueueHeap i j := rfl

/-- The source's `up`: `half` is `root_no >> 1`. -/
def up (pq : PriorityQueueMeta) (rootNo : Nat) : PriorityQueueMeta :=
  if rootNo / 2 ≠ 0 ∧
      pairLessThan (pq.priorityQueueHeap rootNo) (pq.priorityQueueHeap (rootNo / 2)) then
    up (pq.swap rootNo (rootNo / 2)) (rootNo / 2)
  else pq
termination_by rootNo

/-- The slot `down` compares with: the second one under `root_no` if its guard lets it look there
    and the pair there is less. -/
def doub (pq : PriorityQueueMeta) (rootNo : Nat) : Nat :=
  if rootNo < pq.priorityQueueSize ∧
      pairLessThan (pq.priorityQueueHeap (2 * rootNo + 1)) (pq.priorityQueueHeap (2 * rootNo)) then
    2 * rootNo + 1
  else 2 * rootNo

theorem doub_eq (pq : PriorityQueueMeta) (rootNo : Nat) :
    doub pq rootNo = 2 * rootNo ∨ doub pq rootNo = 2 * rootNo + 1 := by
  unfold doub
  split_ifs
  · exact .inr rfl
  · exact .inl rfl

/-- A pair is not less than itself: `down` never stays at one slot. -/
theorem lt_doub {pq : PriorityQueueMeta} {rootNo : Nat}
    (h : pairLessThan (pq.priorityQueueHeap (doub pq rootNo)) (pq.priorityQueueHeap rootNo)) :
    rootNo < doub pq rootNo := by
  rcases Nat.lt_or_ge rootNo (doub pq rootNo) with hlt | hge
  · exact hlt
  · have hsame : doub pq rootNo = rootNo := by
      rcases doub_eq pq rootNo with heq | heq <;> omega
    rw [hsame, pairLessThan_self] at h
    exact (nomatch h)

/-- The source's `down`. -/
def down (pq : PriorityQueueMeta) (rootNo : Nat) : PriorityQueueMeta :=
  if _h : 2 * rootNo ≤ pq.priorityQueueSize ∧
      pairLessThan (pq.priorityQueueHeap (doub pq rootNo)) (pq.priorityQueueHeap rootNo) then
    down (pq.swap (doub pq rootNo) rootNo) (doub pq rootNo)
  else pq
termination_by pq.priorityQueueSize + 1 - rootNo
decreasing_by
  have hlt := lt_doub _h.2
  rw [swap_size]
  omega

/-- The source's `priority_queue_push`; `none` is the failed assertion. -/
def priorityQueuePush (pq : PriorityQueueMeta) (pushData : PairT) : Option PriorityQueueMeta :=
  if pq.priorityQueueSize < pq.priorityQueueCapacity then
    let size := pq.priorityQueueSize + 1
    some (up { pq with priorityQueueSize := size,
                       priorityQueueHeap :=
                         Function.update pq.priorityQueueHeap size pushData } size)
  else none

/-- The source's `priority_queue_top`. -/
def priorityQueueTop (pq : PriorityQueueMeta) : PairT := pq.priorityQueueHeap 1

/-- The last pair put into slot `i`, and the heap one slot shorter. -/
def PriorityQueueMeta.fill (pq : PriorityQueueMeta) (i : Nat) : PriorityQueueMeta :=
  { pq with priorityQueueSize := pq.priorityQueueSize - 1,
            priorityQueueHeap := Function.update pq.priorityQueueHeap i
              (pq.priorityQueueHeap pq.priorityQueueSize) }

@[simp] theorem fill_size (pq : PriorityQueueMeta) (i : Nat) :
    (pq.fill i).priorityQueueSize = pq.priorityQueueSize - 1 := rfl

@[simp] theorem fill_capacity (pq : PriorityQueueMeta) (i : Nat) :
    (pq.fill i).priorityQueueCapacity = pq.priorityQueueCapacity := rfl

@[simp] theorem fill_heap (pq : PriorityQueueMeta) (i : Nat) :
    (pq.fill i).priorityQueueHeap
      = Function.update pq.priorityQueueHeap i (pq.priorityQueueHeap pq.priorityQueueSize) := rfl

/-- The source's `priority_queue_pop`; `none` is the failed assertion. -/
def priorityQueuePop (pq : PriorityQueueMeta) : Option PriorityQueueMeta :=
  if priorityQueueEmpty pq then none else some (down (pq.fill 1) 1)

theorem up_size (pq : PriorityQueueMeta) (rootNo : Nat) :
    (up pq rootNo).priorityQueueSize = pq.priorityQueueSize := by
  induction pq, rootNo using up.induct with
  | case1 pq r h ih =>
    rw [up, if_pos h, ih]
    rfl
  | case2 pq r h => rw [up, if_neg h]

theorem down_size (pq : PriorityQueueMeta) (rootNo : Nat) :
    (down pq rootNo).priorityQueueSize = pq.priorityQueueSize := by
  induction pq, rootNo using down.induct with
  | case1 pq r h ih =>
    rw [down, dif_pos h, ih]
    rfl
  | case2 pq r h => rw [down, dif_neg h]

/-- The inner loop of `priority_queue_pop_v`, at one slot.  With no pair left it would go on in
    front of the array: `none`. -/
def popAt (value : Int) (i : Nat) (pq : PriorityQueueMeta) : Option PriorityQueueMeta :=
  if (pq.priorityQueueHeap i).value = value then
    if _h : pq.priorityQueueSize = 0 then none
    else popAt value i (down (up (pq.fill i) i) i)
  else some pq
termination_by pq.priorityQueueSize
decreasing_by
  rw [down_size, up_size, fill_size]
  omega

theorem popAt_size_le {value : Int} {i : Nat} {pq pq' : PriorityQueueMeta}
    (h : popAt value i pq = some pq') : pq'.priorityQueueSize ≤ pq.priorityQueueSize := by
  induction pq using popAt.induct value i with
  | case1 pq hv hzero =>
    rw [popAt, if_pos hv, dif_pos hzero] at h
    cases h
  | case2 pq hv hpos ih =>
    rw [popAt, if_pos hv, dif_neg hpos] at h
    have hle := ih h
    rw [down_size, up_size, fill_size] at hle
    omega
  | case3 pq hv =>
    rw [popAt, if_neg hv] at h
    cases h
    exact le_rfl

/-- The loop of `priority_queue_pop_v` over the slots, from slot `i` on. -/
def popFrom (value : Int) (i : Nat) (pq : PriorityQueueMeta) : Option PriorityQueueMeta :=
  if i < pq.priorityQueueSize then
    match h : popAt value i pq with
    | none => none
    | some pq' => popFrom value (i + 1) pq'
  else some pq
termination_by pq.priorityQueueSize - i
decreasing_by
  have hle := popAt_size_le h
  omega

/-- The source's `priority_queue_pop_v`. -/
def priorityQueuePopV (pq : PriorityQueueMeta) (value : Int) : Option PriorityQueueMeta :=
  popFrom value 1 pq

/-! ## The pairs in the queue -/

/-- The pairs a queue holds. -/
def entries (pq : PriorityQueueMeta) : Multiset PairT :=
  contents pq.priorityQueueHeap pq.priorityQueueSize

/-- The heap is in order. -/
def InOrder (pq : PriorityQueueMeta) : Prop :=
  Ordered pq.priorityQueueHeap pq.priorityQueueSize

variable {pq pq' : PriorityQueueMeta} {r : Nat} {x : PairT}

theorem card_entries (pq : PriorityQueueMeta) : (entries pq).card = pq.priorityQueueSize :=
  card_contents _ _

theorem up_capacity (pq : PriorityQueueMeta) (rootNo : Nat) :
    (up pq rootNo).priorityQueueCapacity = pq.priorityQueueCapacity := by
  induction pq, rootNo using up.induct with
  | case1 pq r h ih =>
    rw [up, if_pos h, ih]
    rfl
  | case2 pq r h => rw [up, if_neg h]

theorem down_capacity (pq : PriorityQueueMeta) (rootNo : Nat) :
    (down pq rootNo).priorityQueueCapacity = pq.priorityQueueCapacity := by
  induction pq, rootNo using down.induct with
  | case1 pq r h ih =>
    rw [down, dif_pos h, ih]
    rfl
  | case2 pq r h => rw [down, dif_neg h]

/-- Going up ends in order and keeps the pairs. -/
theorem up_ordered (pq : PriorityQueueMeta) (r : Nat)
    (h : UpOrdered pq.priorityQueueHeap pq.priorityQueueSize r) (hr : r ≤ pq.priorityQueueSize) :
    InOrder (up pq r) ∧ entries (up pq r) = entries pq := by
  induction pq, r using up.induct with
  | case1 pq r hgo ih =>
    have hr2 : 2 ≤ r := by omega
    have hhalf : r / 2 ≤ pq.priorityQueueSize := by omega
    have hmove := h.move hr2 hhalf (pairLessThan_iff.mp hgo.2)
    obtain ⟨hord, hkeep⟩ := ih hmove hhalf
    rw [up, if_pos hgo]
    refine ⟨hord, hkeep.trans ?_⟩
    exact contents_swap pq.priorityQueueHeap (n := pq.priorityQueueSize) ⟨by omega, hr⟩
      ⟨by omega, hhalf⟩
  | case2 pq r hstop =>
    rw [up, if_neg hstop]
    refine ⟨h.ordered ?_, rfl⟩
    intro hr2
    rw [← not_lt, ← pairLessThan_iff]
    exact fun hlt => hstop ⟨by omega, hlt⟩

/-- `doub` is the lesser one of the slots under `root_no` that are in use, if it is in use itself. -/
theorem doub_least {pq : PriorityQueueMeta} {r : Nat} (hr : 1 ≤ r)
    (hroom : 2 * r ≤ pq.priorityQueueSize) {i : Nat} (hi : i / 2 = r) :
    pq.priorityQueueHeap (doub pq r) ≤ pq.priorityQueueHeap i := by
  unfold doub
  split_ifs with hlt
  · have hless := pairLessThan_iff.mp hlt.2
    rcases (show i = 2 * r ∨ i = 2 * r + 1 from by omega) with rfl | rfl
    · exact hless.le
    · exact le_rfl
  · rcases (show i = 2 * r ∨ i = 2 * r + 1 from by omega) with rfl | rfl
    · exact le_rfl
    · rw [← not_lt, ← pairLessThan_iff]
      exact fun hless => hlt ⟨by omega, hless⟩

/-- Going down ends in order and keeps the pairs.  What the slot behind the heap holds is not below
    the pair on its way down, so `down` does not go there. -/
theorem down_ordered (pq : PriorityQueueMeta) (r : Nat) (hr : 1 ≤ r)
    (h : DownOrdered pq.priorityQueueHeap pq.priorityQueueSize r) (hin : r ≤ pq.priorityQueueSize)
    (hbehind : pq.priorityQueueHeap r ≤ pq.priorityQueueHeap (pq.priorityQueueSize + 1)) :
    InOrder (down pq r) ∧ entries (down pq r) = entries pq := by
  induction pq, r using down.induct with
  | case1 pq r hgo ih =>
    have hless := pairLessThan_iff.mp hgo.2
    have hdoub := doub_eq pq r
    have hinside : doub pq r ≤ pq.priorityQueueSize := by
      rcases Nat.lt_or_ge pq.priorityQueueSize (doub pq r) with hout | hle
      · rw [show doub pq r = pq.priorityQueueSize + 1 from by omega] at hless
        exact absurd hbehind (not_le.mpr hless)
      · exact hle
    have hmove := h.move hr (by omega) hinside hless (fun i _ hi => doub_least hr hgo.1 hi)
    obtain ⟨hord, hkeep⟩ := ih (by omega) hmove hinside (by
      rw [swap_heap, swap_size, swap_left, swap_of_ne _ (by omega) (by omega)]
      exact hbehind)
    rw [down, dif_pos hgo]
    exact ⟨hord, hkeep.trans (contents_swap _ ⟨by omega, hinside⟩ ⟨hr, hin⟩)⟩
  | case2 pq r hstop =>
    rw [down, dif_neg hstop]
    refine ⟨h.ordered ?_, rfl⟩
    intro i hi hle hdiv
    have hroom : 2 * r ≤ pq.priorityQueueSize := by omega
    refine le_trans ?_ (doub_least hr hroom hdiv)
    rw [← not_lt, ← pairLessThan_iff]
    exact fun hlt => hstop ⟨hroom, hlt⟩

/-! ## The operations -/

theorem priorityQueuePush_spec (hpush : priorityQueuePush pq x = some pq') (h : InOrder pq) :
    InOrder pq' ∧ entries pq' = x ::ₘ entries pq
      ∧ pq'.priorityQueueCapacity = pq.priorityQueueCapacity := by
  unfold priorityQueuePush at hpush
  split_ifs at hpush with hroom
  cases hpush
  obtain ⟨hord, hkeep⟩ := up_ordered
    { pq with priorityQueueSize := pq.priorityQueueSize + 1,
              priorityQueueHeap :=
                Function.update pq.priorityQueueHeap (pq.priorityQueueSize + 1) x }
    (pq.priorityQueueSize + 1) (h.push x) le_rfl
  exact ⟨hord, hkeep.trans (contents_push _ _ _), up_capacity _ _⟩

theorem priorityQueuePush_isSome (h : pq.priorityQueueSize < pq.priorityQueueCapacity) :
    (priorityQueuePush pq x).isSome := by
  rw [priorityQueuePush, if_pos h]
  rfl

theorem priorityQueuePop_spec (hpop : priorityQueuePop pq = some pq') (h : InOrder pq) :
    InOrder pq' ∧ entries pq = priorityQueueTop pq ::ₘ entries pq'
      ∧ pq'.priorityQueueCapacity = pq.priorityQueueCapacity := by
  unfold priorityQueuePop at hpop
  split_ifs at hpop with hempty
  cases hpop
  obtain ⟨n, hn⟩ : ∃ n, pq.priorityQueueSize = n + 1 := by
    refine ⟨pq.priorityQueueSize - 1, ?_⟩
    have hne : pq.priorityQueueSize ≠ 0 := by simpa [priorityQueueEmpty] using hempty
    omega
  have htake : entries pq = priorityQueueTop pq ::ₘ entries (pq.fill 1) := by
    unfold entries
    rw [fill_size, fill_heap, hn]
    exact contents_take _ ⟨le_rfl, by omega⟩
  have hdown : InOrder (down (pq.fill 1) 1)
      ∧ entries (down (pq.fill 1) 1) = entries (pq.fill 1) := by
    rcases n with _ | m
    · -- The queue is empty now.
      have hzero : (pq.fill 1).priorityQueueSize = 0 := by rw [fill_size, hn]
      rw [down, dif_neg (by omega)]
      refine ⟨fun i hi hle => ?_, rfl⟩
      omega
    · refine down_ordered _ 1 le_rfl (h.replace_down (by rw [fill_size]; omega) (by omega)) ?_ ?_
      · rw [fill_size, hn]
        omega
      · rw [fill_heap, fill_size, hn, Function.update_self,
          Function.update_of_ne (by omega), Nat.add_sub_cancel]
  exact ⟨hdown.1, htake.trans (congrArg _ hdown.2.symm), down_capacity _ _⟩

/-- The first pair has the least key. -/
theorem InOrder.top_le (h : InOrder pq) (hx : x ∈ entries pq) : (priorityQueueTop pq).key ≤ x.key :=
  key_le_key (h.first_le_mem hx)

/-- With the value in no slot before the last one, `pop_v` removes nothing. -/
theorem priorityQueuePopV_eq {value : Int}
    (h : ∀ i, 1 ≤ i → i < pq.priorityQueueSize → (pq.priorityQueueHeap i).value ≠ value) :
    priorityQueuePopV pq value = some pq := by
  suffices hfrom : ∀ k i, 1 ≤ i → pq.priorityQueueSize - i = k → popFrom value i pq = some pq from
    hfrom _ 1 le_rfl rfl
  intro k
  induction k with
  | zero =>
    intro i _ hk
    rw [popFrom, if_neg (by omega)]
  | succ k ih =>
    intro i hi hk
    have hlt : i < pq.priorityQueueSize := by omega
    have hat : popAt value i pq = some pq := by rw [popAt, if_neg (h i hi hlt)]
    rw [popFrom, if_pos hlt]
    split
    · next hnone => exact (nomatch hat.symm.trans hnone)
    · next pq' hsome =>
      cases hat.symm.trans hsome
      exact ih (i + 1) (by omega) (by omega)

end Uniks.PriorityQueue
