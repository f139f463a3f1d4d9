/-
  Runs of pushes and pops on the heap of `libs/priority_queue.c`, against a bag from which the least
  pair is taken.

  `upTouches` and `downTouches` list the slots that a sift reads or writes.  A climb stays between
  its start and the top.  A descent looks at one slot behind the heap and at no other
  (`downTouches_le`), so an array of `capacity + 1` cells is enough for every run.
-/
import Uniks.PriorityQueue

namespace Uniks.PriorityQueue

open Uniks.Heap

variable {pq pq' : PriorityQueueMeta} {capacity : Nat} {x : PairT} {r i : Nat}

/-! ## The slots that are touched -/

/-- The slots that `up` reads or writes. -/
def upTouches (pq : PriorityQueueMeta) (rootNo : Nat) : List Nat :=
  if rootNo / 2 ≠ 0 then
    rootNo :: rootNo / 2 ::
      (if pairLessThan (pq.priorityQueueHeap rootNo) (pq.priorityQueueHeap (rootNo / 2)) then
        upTouches (pq.swap rootNo (rootNo / 2)) (rootNo / 2)
      else [])
  else []
termination_by rootNo

/-- The slots that `down` reads or writes. -/
def downTouches (pq : PriorityQueueMeta) (rootNo : Nat) : List Nat :=
  if _h : 2 * rootNo ≤ pq.priorityQueueSize then
    (if rootNo < pq.priorityQueueSize then [2 * rootNo + 1, 2 * rootNo] else []) ++
      doub pq rootNo :: rootNo ::
        (if _hless : pairLessThan (pq.priorityQueueHeap (doub pq rootNo))
            (pq.priorityQueueHeap rootNo) then
          downTouches (pq.swap (doub pq rootNo) rootNo) (doub pq rootNo)
        else [])
  else []
termination_by pq.priorityQueueSize + 1 - rootNo
decreasing_by
  have hlt := lt_doub _hless
  rw [swap_size]
  omega

theorem upTouches_le (hi : i ∈ upTouches pq r) : i ≤ r := by
  induction pq, r using up.induct with
  | case1 pq r hgo ih =>
    rw [upTouches, if_pos hgo.1, if_pos hgo.2] at hi
    rcases List.mem_cons.mp hi with rfl | hi
    · exact le_rfl
    rcases List.mem_cons.mp hi with rfl | hi
    · omega
    · have hle := ih hi
      omega
  | case2 pq r hstop =>
    rw [upTouches] at hi
    split at hi
    · rename_i hhalf
      rw [if_neg fun hless => hstop ⟨hhalf, hless⟩] at hi
      rcases List.mem_cons.mp hi with rfl | hi
      · exact le_rfl
      · obtain rfl := List.mem_singleton.mp hi
        omega
    · exact absurd hi List.not_mem_nil

theorem downTouches_le (hr : 1 ≤ r) (hi : i ∈ downTouches pq r) : i ≤ pq.priorityQueueSize + 1 := by
  induction hk : pq.priorityQueueSize + 1 - r using Nat.strong_induction_on generalizing pq r with
  | _ k ih =>
    rw [downTouches] at hi
    split at hi
    · rename_i hroom
      have hdoub := doub_eq pq r
      rcases List.mem_append.mp hi with hi | hi
      · split at hi
        · rcases List.mem_cons.mp hi with rfl | hi
          · omega
          · obtain rfl := List.mem_singleton.mp hi
            omega
        · exact absurd hi List.not_mem_nil
      rcases List.mem_cons.mp hi with rfl | hi
      · omega
      rcases List.mem_cons.mp hi with rfl | hi
      · omega
      split at hi
      · rename_i hless
        have hlt := lt_doub hless
        exact @ih (pq.priorityQueueSize + 1 - doub pq r) (by omega) (pq.swap (doub pq r) r)
          (doub pq r) (by omega) hi rfl
      · exact absurd hi List.not_mem_nil
    · exact absurd hi List.not_mem_nil

/-! ## Pushes and pops -/

inductive PushPop
  | push (pushData : PairT)
  | pop

/-- What the code does; `none` is a failed assertion. -/
def PushPop.run : PushPop → PriorityQueueMeta → Option PriorityQueueMeta
  | .push x, pq => priorityQueuePush pq x
  | .pop, pq => priorityQueuePop pq

/-- The slots that an operation reads or writes when it passes its assertion. -/
def PushPop.touches : PushPop → PriorityQueueMeta → List Nat
  | .push x, pq =>
    let size := pq.priorityQueueSize + 1
    let heap := Function.update pq.priorityQueueHeap size x
    size :: upTouches { pq with priorityQueueSize := size, priorityQueueHeap := heap } size
  | .pop, pq => pq.priorityQueueSize :: 1 :: downTouches (pq.fill 1) 1

def runPushPops : List PushPop → PriorityQueueMeta → Option PriorityQueueMeta
  | [], pq => some pq
  | op :: ops, pq => do
    let pq ← op.run pq
    runPushPops ops pq

/-- The same operation on a bag of at most `capacity` pairs. -/
def PushPop.onBag (capacity : Nat) : PushPop → Multiset PairT → Option (Multiset PairT)
  | .push x, s => if s.card < capacity then some (x ::ₘ s) else none
  | .pop, s => takeLeast s

def bagPushPops (capacity : Nat) : List PushPop → Multiset PairT → Option (Multiset PairT)
  | [], s => some s
  | op :: ops, s => do
    let s ← op.onBag capacity s
    bagPushPops capacity ops s

/-- A heap in order that holds the bag `s`. -/
structure HoldsBag (capacity : Nat) (pq : PriorityQueueMeta) (s : Multiset PairT) : Prop where
  order : InOrder pq
  entries_eq : entries pq = s
  capacity_eq : pq.priorityQueueCapacity = capacity
  fits : pq.priorityQueueSize ≤ capacity

variable {s : Multiset PairT}

theorem HoldsBag.size (h : HoldsBag capacity pq s) : pq.priorityQueueSize = s.card := by
  rw [← h.entries_eq, card_entries]

theorem HoldsBag.top_le (h : HoldsBag capacity pq s) (hx : x ∈ s) : priorityQueueTop pq ≤ x := by
  rw [← h.entries_eq] at hx
  exact h.order.first_le_mem hx

theorem HoldsBag.top_mem (h : HoldsBag capacity pq s) (hne : s ≠ 0) : priorityQueueTop pq ∈ s := by
  have hpos := Multiset.card_pos.mpr hne
  rw [← h.entries_eq]
  exact mem_contents.mpr ⟨1, le_rfl, by rw [h.size]; omega, rfl⟩

/-- One operation does to the heap what it does to the bag, and fails where that fails. -/
theorem HoldsBag.step (h : HoldsBag capacity pq s) (op : PushPop) :
    (op.run pq = none ∧ op.onBag capacity s = none) ∨
      ∃ pq' s', op.run pq = some pq' ∧ op.onBag capacity s = some s' ∧
        HoldsBag capacity pq' s' := by
  have hsize := h.size
  have hcap := h.capacity_eq
  cases op with
  | push x =>
    by_cases hroom : s.card < capacity
    · have hlt : pq.priorityQueueSize < pq.priorityQueueCapacity := by omega
      obtain ⟨pq', hrun⟩ := Option.isSome_iff_exists.mp (priorityQueuePush_isSome (x := x) hlt)
      obtain ⟨hord, hkeep, hcap'⟩ := priorityQueuePush_spec hrun h.order
      have hbag : entries pq' = x ::ₘ s := h.entries_eq ▸ hkeep
      have hcard := card_entries pq'
      rw [hbag, Multiset.card_cons] at hcard
      exact .inr ⟨pq', _, hrun, if_pos hroom, hord, hbag, hcap'.trans hcap, by omega⟩
    · exact .inl ⟨if_neg (by omega), if_neg hroom⟩
  | pop =>
    by_cases hempty : s = 0
    · subst hempty
      rw [Multiset.card_zero] at hsize
      exact .inl ⟨if_pos (beq_iff_eq.mpr hsize), takeLeast_zero⟩
    · have hpos := Multiset.card_pos.mpr hempty
      have hne : ¬ priorityQueueEmpty pq = true := fun hzero => by
        have hzero := beq_iff_eq.mp hzero
        omega
      have hrun : priorityQueuePop pq = some (down (pq.fill 1) 1) := if_neg hne
      obtain ⟨hord, hkeep, hcap'⟩ := priorityQueuePop_spec hrun h.order
      rw [h.entries_eq] at hkeep
      have hleast : takeLeast s = some (entries (down (pq.fill 1) 1)) := by
        rw [hkeep]
        refine takeLeast_cons fun y hy => h.top_le ?_
        rw [hkeep]
        exact Multiset.mem_cons_of_mem hy
      refine .inr ⟨_, _, hrun, hleast, hord, rfl, hcap'.trans hcap, ?_⟩
      have hfits := h.fits
      rw [down_size, fill_size]
      omega

theorem HoldsBag.runPushPops (h : HoldsBag capacity pq s) (ops : List PushPop) :
    (PriorityQueue.runPushPops ops pq = none ∧ bagPushPops capacity ops s = none) ∨
      ∃ pq' s', PriorityQueue.runPushPops ops pq = some pq' ∧
        bagPushPops capacity ops s = some s' ∧ HoldsBag capacity pq' s' := by
  induction ops generalizing pq s with
  | nil => exact .inr ⟨pq, s, rfl, rfl, h⟩
  | cons op ops ih =>
    unfold PriorityQueue.runPushPops bagPushPops
    rcases h.step op with ⟨hrun, hbag⟩ | ⟨pq₁, s₁, hrun, hbag, h₁⟩
    · rw [hrun, hbag]
      exact .inl ⟨rfl, rfl⟩
    · rw [hrun, hbag]
      exact ih h₁

theorem holdsBag_init {heapAddr : Nat → PairT}
    (hinit : priorityQueueInit capacity heapAddr = some pq) : HoldsBag capacity pq 0 := by
  unfold priorityQueueInit at hinit
  split at hinit
  · cases hinit
    exact ⟨fun i hi hle => absurd hle (by show ¬ i ≤ 0; omega), contents_zero _, rfl, Nat.zero_le _⟩
  · cases hinit

/-- No operation leaves the first `capacity + 1` cells. -/
theorem HoldsBag.touches_le (h : HoldsBag capacity pq s) {op : PushPop} (hrun : (op.run pq).isSome)
    (hi : i ∈ op.touches pq) : i ≤ capacity := by
  have hfits := h.fits
  cases op with
  | push x =>
    have hroom : pq.priorityQueueSize < capacity := by
      by_contra hfull
      have hnone : priorityQueuePush pq x = none := if_neg (by rw [h.capacity_eq]; exact hfull)
      have hrun : (priorityQueuePush pq x).isSome := hrun
      rw [hnone] at hrun
      cases hrun
    rcases List.mem_cons.mp hi with rfl | hi
    · exact hroom
    · have hle := upTouches_le hi
      omega
  | pop =>
    have hpos : pq.priorityQueueSize ≠ 0 := by
      intro hzero
      have hnone : priorityQueuePop pq = none := if_pos (beq_iff_eq.mpr hzero)
      have hrun : (priorityQueuePop pq).isSome := hrun
      rw [hnone] at hrun
      cases hrun
    rcases List.mem_cons.mp hi with rfl | hi
    · exact hfits
    rcases List.mem_cons.mp hi with rfl | hi
    · omega
    · have hle := downTouches_le le_rfl hi
      rw [fill_size] at hle
      omega

/-- Every run from a new queue is a run on the empty bag, and fails where that one fails: the heap
    is in order and holds the bag, whatever the array held before, and a pop takes the pair on top,
    which is the least one. -/
theorem heap_correct {heapAddr : Nat → PairT}
    (hinit : priorityQueueInit capacity heapAddr = some pq) (ops : List PushPop) :
    (runPushPops ops pq).isSome = (bagPushPops capacity ops 0).isSome ∧
      ∀ pq', runPushPops ops pq = some pq' → ∃ s, bagPushPops capacity ops 0 = some s ∧
        InOrder pq' ∧ entries pq' = s ∧ pq'.priorityQueueSize = s.card ∧
        (s ≠ 0 → priorityQueueTop pq' ∈ s ∧ ∀ x ∈ s, priorityQueueTop pq' ≤ x) ∧
        (∀ pq'', priorityQueuePop pq' = some pq'' →
          entries pq' = priorityQueueTop pq' ::ₘ entries pq'') ∧
        ∀ op : PushPop, (op.run pq').isSome → ∀ i ∈ op.touches pq', i ≤ capacity := by
  rcases (holdsBag_init hinit).runPushPops ops with ⟨hrun, hbag⟩ | ⟨pq₁, s, hrun, hbag, h⟩
  · rw [hrun, hbag]
    exact ⟨rfl, fun _ hnone => nomatch hnone⟩
  · rw [hrun, hbag]
    refine ⟨rfl, fun pq' hpq' => ?_⟩
    cases hpq'
    exact ⟨s, rfl, h.order, h.entries_eq, h.size, fun hne => ⟨h.top_mem hne, fun x => h.top_le⟩,
      fun _ hpop => (priorityQueuePop_spec hpop h.order).2.1, fun op hop i => h.touches_le hop⟩

/-- The cells that are not in use hold pairs below all others. -/
theorem heap_correct_stale : ∃ pq pq', priorityQueueInit 2 (fun _ => ⟨-1, 0⟩) = some pq ∧
    runPushPops [.push ⟨5, 1⟩, .push ⟨3, 2⟩, .pop] pq = some pq' ∧ entries pq' = {⟨5, 1⟩} := by
  have hinit : priorityQueueInit 2 (fun _ => ⟨-1, 0⟩) = some _ := if_pos (by decide)
  have hbag : bagPushPops 2 [.push ⟨5, 1⟩, .push ⟨3, 2⟩, .pop] 0 = some {⟨5, 1⟩} := by
    have hleast : takeLeast (⟨3, 2⟩ ::ₘ ({⟨5, 1⟩} : Multiset PairT)) = some {⟨5, 1⟩} :=
      takeLeast_cons fun y hy => by
        rw [Multiset.mem_singleton.mp hy]
        exact (pairLessThan_iff.mp (by decide)).le
    exact congrArg (Option.bind · some) hleast
  obtain ⟨hsome, hruns⟩ := heap_correct hinit [.push ⟨5, 1⟩, .push ⟨3, 2⟩, .pop]
  rw [hbag] at hsome hruns
  obtain ⟨pq', hrun⟩ := Option.isSome_iff_exists.mp hsome
  obtain ⟨s, hs, -, hentries, -⟩ := hruns pq' hrun
  exact ⟨_, pq', hinit, hrun, hentries.trans (Option.some.inj hs).symm⟩

end Uniks.PriorityQueue
