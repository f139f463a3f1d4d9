/-
  The array behind the heap, with as many cells as the queue has room for.

  The heap begins at slot 1, and the test for a full queue compares its size with the capacity: the
  push that fills the queue goes to the cell behind the array.  The other way to leave it is a scan
  of `pop_k` or `pop_v` that hits every pair: it takes more pairs than there are.  Apart from these
  two nothing is touched behind the last pair, neither by a descent, which looks one slot too far
  only after a pair has gone, nor by a scan that goes on behind the heap (`removeFrom_safe`).
-/
import Uniks.HeapRemoval

namespace Uniks.PriorityQueue

open Uniks.Heap

variable {pq pq' pq₀ : PriorityQueueMeta} {capacity : Nat} {x : PairT} {i j m : Nat}
  {hit : PairT → Bool}

/-! ## The slots that are touched by a scan -/

def refillTouches (pq : PriorityQueueMeta) (i : Nat) : List Nat :=
  pq.priorityQueueSize :: i :: (upTouches (pq.fill i) i ++ downTouches (up (pq.fill i) i) i)

/-- The slots that the inner loop of `priority_queue_pop_k` and `_v` reads or writes. -/
def removeAtTouches (hit : PairT → Bool) (i : Nat) (pq : PriorityQueueMeta) : List Nat :=
  i :: (if hit (pq.priorityQueueHeap i) then
      if _h : pq.priorityQueueSize = 0 then [0]
      else refillTouches pq i ++ removeAtTouches hit i (refill pq i)
    else [])
termination_by pq.priorityQueueSize
decreasing_by
  rw [refill_size]
  omega

def removeFromTouches (hit : PairT → Bool) (i : Nat) (pq : PriorityQueueMeta) : List Nat :=
  if i < pq.priorityQueueSize then
    removeAtTouches hit i pq ++
      match h : removeAt hit i pq with
      | none => []
      | some pq' => removeFromTouches hit (i + 1) pq'
  else []
termination_by pq.priorityQueueSize - i
decreasing_by
  have hle := removeAt_size_le h
  omega

theorem refillTouches_le (hi : 1 ≤ i) (him : i ≤ m)
    (hm : pq.priorityQueueSize ≤ m) (hj : j ∈ refillTouches pq i) : j ≤ m := by
  rcases List.mem_cons.mp hj with rfl | hj
  · exact hm
  rcases List.mem_cons.mp hj with rfl | hj
  · exact him
  rcases List.mem_append.mp hj with hj | hj
  · exact (upTouches_le hj).trans him
  · have hle := downTouches_le hi hj
    rw [up_size, fill_size] at hle
    omega

theorem removeAtTouches_le (hi : 1 ≤ i) (him : i ≤ m) (hm : pq.priorityQueueSize ≤ m)
    (hj : j ∈ removeAtTouches hit i pq) : j ≤ m := by
  induction pq using removeAt.induct hit i with
  | case1 pq hhit hzero =>
    rw [removeAtTouches, if_pos hhit, dif_pos hzero] at hj
    rcases List.mem_cons.mp hj with rfl | hj
    · exact him
    · obtain rfl := List.mem_singleton.mp hj
      exact Nat.zero_le m
  | case2 pq hhit hpos ih =>
    rw [removeAtTouches, if_pos hhit, dif_neg hpos] at hj
    rcases List.mem_cons.mp hj with rfl | hj
    · exact him
    rcases List.mem_append.mp hj with hj | hj
    · exact refillTouches_le hi him hm hj
    · exact ih (by rw [refill_size]; omega) hj
  | case3 pq hmiss =>
    rw [removeAtTouches, if_neg hmiss] at hj
    exact (List.mem_singleton.mp hj).symm ▸ him

theorem removeFromTouches_le (hi : 1 ≤ i) (hm : pq.priorityQueueSize ≤ m)
    (hj : j ∈ removeFromTouches hit i pq) : j ≤ m := by
  induction hk : pq.priorityQueueSize - i using Nat.strong_induction_on generalizing pq i with
  | _ k ih =>
    rw [removeFromTouches] at hj
    split at hj
    · rename_i hlt
      rcases List.mem_append.mp hj with hj | hj
      · exact removeAtTouches_le hi (by omega) hm hj
      · split at hj
        · exact absurd hj List.not_mem_nil
        · next pq₁ hrun =>
          have hle := removeAt_size_le hrun
          exact ih (pq₁.priorityQueueSize - (i + 1)) (by omega) (by omega) (by omega) hj rfl
    · exact absurd hj List.not_mem_nil

/-! ## A scan that does not hit everything -/

/-- It ends, with a heap in order. -/
theorem sweep_safe (h : Swept hit i pq) (hsome : ∃ x ∈ entries pq, hit x = false) :
    (∃ pq', removeFrom hit i pq = some pq' ∧ InOrder pq') ∧
      ∃ pq', sweep hit i pq = some pq' ∧ InOrder pq' := by
  induction hk : pq.priorityQueueSize - i generalizing pq i with
  | zero =>
    have hle := h.le
    have hlast : i = pq.priorityQueueSize := by omega
    rw [removeFrom_end hlast.ge]
    refine ⟨⟨pq, rfl, h.order⟩, ?_⟩
    by_cases hhit : hit (pq.priorityQueueHeap i) = true
    · have hi2 : 2 ≤ i := by
        by_contra hone
        obtain ⟨x, hx, hmiss⟩ := hsome
        obtain ⟨j, hj, hjle, rfl⟩ := mem_contents.mp hx
        obtain rfl : j = i := by
          have hpos := h.pos
          omega
        rw [hhit] at hmiss
        cases hmiss
      obtain ⟨pq', hrun, hord, -⟩ := sweep_again h ⟨hlast, hhit⟩ hi2
      exact ⟨pq', hrun, hord⟩
    · rw [sweep_miss ((Bool.not_eq_true _).mp hhit), removeFrom_end (by omega)]
      exact ⟨pq, rfl, h.order⟩
  | succ k ih =>
    have hlt : i < pq.priorityQueueSize := by omega
    rw [removeFrom_lt hlt, and_self]
    by_cases hhit : hit (pq.priorityQueueHeap i) = true
    · rw [sweep_hit hhit (by omega)]
      refine (ih (h.removed hlt hhit) ?_ (by rw [refill_size]; omega)).2
      obtain ⟨x, hx, hmiss⟩ := hsome
      rw [(refill_spec h.order h.pos hlt).2] at hx
      rcases Multiset.mem_cons.mp hx with rfl | hx
      · rw [hhit] at hmiss
        cases hmiss
      · exact ⟨x, hx, hmiss⟩
    · have hmiss : hit (pq.priorityQueueHeap i) = false := (Bool.not_eq_true _).mp hhit
      rw [sweep_miss hmiss]
      exact (ih (h.passed hlt hmiss) hsome (by omega)).1

theorem removeFrom_size_le (h : removeFrom hit i pq = some pq') :
    pq'.priorityQueueSize ≤ pq.priorityQueueSize := by
  induction hk : pq.priorityQueueSize - i using Nat.strong_induction_on generalizing pq i with
  | _ k ih =>
    rw [removeFrom] at h
    split at h
    · split at h
      · cases h
      · next pq₁ hrun =>
        have hle := removeAt_size_le hrun
        exact (ih (pq₁.priorityQueueSize - (i + 1)) (by omega) h rfl).trans hle
    · exact (Option.some.inj h).symm ▸ le_rfl

/-- A heap of at most one pair is not scanned. -/
theorem removeFrom_safe (h : InOrder pq)
    (hnot : ¬ (2 ≤ pq.priorityQueueSize ∧ ∀ x ∈ entries pq, hit x = true)) :
    ∃ pq', removeFrom hit 1 pq = some pq' ∧ InOrder pq' := by
  by_cases hsize : 2 ≤ pq.priorityQueueSize
  · have hsome : ∃ x ∈ entries pq, hit x = false := by
      by_contra hnone
      refine hnot ⟨hsize, fun x hx => ?_⟩
      by_contra hmiss
      exact hnone ⟨x, hx, (Bool.not_eq_true _).mp hmiss⟩
    have hswept : Swept hit 1 pq := ⟨h, le_rfl, by omega, fun hle => absurd hle (by decide),
      fun j hj hj1 => absurd hj1 (by omega)⟩
    exact (sweep_safe hswept hsome).1
  · exact ⟨pq, removeFrom_end (by omega), h⟩

/-- A scan that hits every pair takes one more than there are. -/
theorem sweep_all (n : Nat) (h : InOrder pq) (hn : pq.priorityQueueSize = n + 1)
    (hall : ∀ x ∈ entries pq, hit x = true) : sweep hit 1 pq = none := by
  have hfirst : hit (pq.priorityQueueHeap 1) = true :=
    hall _ (mem_contents.mpr ⟨1, le_rfl, by omega, rfl⟩)
  induction n generalizing pq with
  | zero =>
    have hrefill : refill pq 1 = { pq with priorityQueueSize := 0 } := by
      have hlast := refill_last h (by omega)
      rwa [hn] at hlast
    rw [sweep_hit hfirst (by omega), hrefill, sweep, removeAt, if_pos hfirst, dif_pos rfl]
    rfl
  | succ n ih =>
    obtain ⟨hord, hsplit⟩ := refill_spec h le_rfl (by omega)
    have hleft : ∀ x ∈ entries (refill pq 1), hit x = true := fun x hx =>
      hall x (hsplit ▸ Multiset.mem_cons_of_mem hx)
    have hsize : (refill pq 1).priorityQueueSize = n + 1 := by
      rw [refill_size]
      omega
    rw [sweep_hit hfirst (by omega)]
    exact ih hord hsize hleft (hleft _ (mem_contents.mpr ⟨1, le_rfl, by omega, rfl⟩))

theorem removeFrom_all (h : InOrder pq)
    (hall : 2 ≤ pq.priorityQueueSize ∧ ∀ x ∈ entries pq, hit x = true) :
    removeFrom hit 1 pq = none := by
  rw [removeFrom_lt (by omega)]
  exact sweep_all (pq.priorityQueueSize - 1) h (by omega) hall.2

/-! ## Runs of all operations -/

inductive Op
  | push (pushData : PairT)
  | pop
  | popK (key : Int)
  | popV (value : Int)

/-- What the code does; `none` is a failed assertion, or a size below zero. -/
def Op.run : Op → PriorityQueueMeta → Option PriorityQueueMeta
  | .push x, pq => priorityQueuePush pq x
  | .pop, pq => priorityQueuePop pq
  | .popK key, pq => priorityQueuePopK pq key
  | .popV value, pq => priorityQueuePopV pq value

def Op.asserts : Op → PriorityQueueMeta → Prop
  | .push _, pq => pq.priorityQueueSize < pq.priorityQueueCapacity
  | .pop, pq => priorityQueueEmpty pq = false
  | .popK _, _ => True
  | .popV _, _ => True

def Op.touches : Op → PriorityQueueMeta → List Nat
  | .push x, pq => PushPop.touches (.push x) pq
  | .pop, pq => PushPop.touches .pop pq
  | .popK key, pq => removeFromTouches (hasKey key) 1 pq
  | .popV value, pq => removeFromTouches (hasValue value) 1 pq

/-- A push does not fill the queue, and a scan does not hit every one of two pairs or more. -/
def Op.fits : Op → PriorityQueueMeta → Prop
  | .push _, pq => pq.priorityQueueSize + 1 < pq.priorityQueueCapacity
  | .pop, _ => True
  | .popK key, pq => ¬ (2 ≤ pq.priorityQueueSize ∧ ∀ x ∈ entries pq, hasKey key x = true)
  | .popV value, pq => ¬ (2 ≤ pq.priorityQueueSize ∧ ∀ x ∈ entries pq, hasValue value x = true)

/-- The queues that runs lead to whose operations pass their assertions and are allowed by `may`. -/
inductive Reached (may : Op → PriorityQueueMeta → Prop) (pq₀ : PriorityQueueMeta) :
    PriorityQueueMeta → Prop
  | start : Reached may pq₀ pq₀
  | step {pq pq' : PriorityQueueMeta} (before : Reached may pq₀ pq) (op : Op)
      (hasserts : op.asserts pq) (hmay : may op pq) (hrun : op.run pq = some pq') :
      Reached may pq₀ pq'

/-- The operation stays in an array of `capacity` cells, and the size between 0 and the capacity. -/
def InArray (capacity : Nat) (op : Op) (pq : PriorityQueueMeta) : Prop :=
  (∀ i ∈ op.touches pq, i < capacity) ∧
    ∃ pq', op.run pq = some pq' ∧ pq'.priorityQueueSize ≤ capacity

/-- A heap in order with a cell to spare. -/
structure Spare (capacity : Nat) (pq : PriorityQueueMeta) : Prop where
  order : InOrder pq
  capacity_eq : pq.priorityQueueCapacity = capacity
  fits : pq.priorityQueueSize < capacity

theorem removeAt_capacity (h : removeAt hit i pq = some pq') :
    pq'.priorityQueueCapacity = pq.priorityQueueCapacity := by
  induction pq using removeAt.induct hit i with
  | case1 pq hhit hzero =>
    rw [removeAt, if_pos hhit, dif_pos hzero] at h
    cases h
  | case2 pq hhit hpos ih =>
    rw [removeAt, if_pos hhit, dif_neg hpos] at h
    exact (ih h).trans (refill_capacity pq i)
  | case3 pq hmiss =>
    rw [removeAt, if_neg hmiss] at h
    exact (Option.some.inj h).symm ▸ rfl

theorem removeFrom_capacity (h : removeFrom hit i pq = some pq') :
    pq'.priorityQueueCapacity = pq.priorityQueueCapacity := by
  induction hk : pq.priorityQueueSize - i using Nat.strong_induction_on generalizing pq i with
  | _ k ih =>
    rw [removeFrom] at h
    split at h
    · split at h
      · cases h
      · next pq₁ hrun =>
        have hle := removeAt_size_le hrun
        exact (ih (pq₁.priorityQueueSize - (i + 1)) (by omega) h rfl).trans (removeAt_capacity hrun)
    · exact (Option.some.inj h).symm ▸ rfl

/-- A scan in a heap with a cell to spare. -/
theorem Spare.scan (h : Spare capacity pq)
    (hnot : ¬ (2 ≤ pq.priorityQueueSize ∧ ∀ x ∈ entries pq, hit x = true)) :
    (∀ i ∈ removeFromTouches hit 1 pq, i < capacity) ∧
      ∃ pq', removeFrom hit 1 pq = some pq' ∧ Spare capacity pq' := by
  obtain ⟨pq', hrun, hord⟩ := removeFrom_safe h.order hnot
  have hfits := h.fits
  have hle := removeFrom_size_le hrun
  refine ⟨fun i hi => ?_, pq', hrun, hord, (removeFrom_capacity hrun).trans h.capacity_eq, by omega⟩
  have hle := removeFromTouches_le le_rfl le_rfl hi
  omega

/-- An operation that fits stays in the array, and leaves a cell to spare. -/
theorem Spare.step (h : Spare capacity pq) {op : Op} (hasserts : op.asserts pq)
    (hfits : op.fits pq) : (∀ i ∈ op.touches pq, i < capacity) ∧
      ∃ pq', op.run pq = some pq' ∧ Spare capacity pq' := by
  have hcap := h.capacity_eq
  have hless := h.fits
  cases op with
  | push x =>
    have hroom : pq.priorityQueueSize + 1 < pq.priorityQueueCapacity := hfits
    obtain ⟨pq', hrun⟩ := Option.isSome_iff_exists.mp (priorityQueuePush_isSome (x := x) hasserts)
    obtain ⟨hord, hkeep, hcap'⟩ := priorityQueuePush_spec hrun h.order
    have hcard := congrArg Multiset.card hkeep
    rw [Multiset.card_cons, card_entries, card_entries] at hcard
    refine ⟨fun i hi => ?_, pq', hrun, hord, hcap'.trans hcap, by omega⟩
    rcases List.mem_cons.mp hi with rfl | hi
    · omega
    · have hle := upTouches_le hi
      omega
  | pop =>
    have hne : ¬ priorityQueueEmpty pq = true := by
      rw [show priorityQueueEmpty pq = false from hasserts]
      decide
    have hpos : pq.priorityQueueSize ≠ 0 := fun hzero => hne (beq_iff_eq.mpr hzero)
    have hrun : priorityQueuePop pq = some (down (pq.fill 1) 1) := if_neg hne
    obtain ⟨hord, -, hcap'⟩ := priorityQueuePop_spec hrun h.order
    refine ⟨fun i hi => ?_, _, hrun, hord, hcap'.trans hcap, ?_⟩
    · rcases List.mem_cons.mp hi with rfl | hi
      · exact hless
      rcases List.mem_cons.mp hi with rfl | hi
      · omega
      · have hle := downTouches_le le_rfl hi
        rw [fill_size] at hle
        omega
    · rw [down_size, fill_size]
      omega
  | popK key => exact h.scan hfits
  | popV value =>
    obtain ⟨htouches, pq', hrun, hspare⟩ := h.scan hfits
    exact ⟨htouches, pq', (priorityQueuePopV_scan pq value).trans hrun, hspare⟩

/-- One that does not fit leaves the array, or takes the size below zero. -/
theorem Spare.leaves (h : Spare capacity pq) {op : Op} (hnot : ¬ op.fits pq) :
    ¬ InArray capacity op pq := by
  have hcap := h.capacity_eq
  have hless := h.fits
  cases op with
  | push x =>
    intro hin
    have hfull : ¬ pq.priorityQueueSize + 1 < pq.priorityQueueCapacity := hnot
    have hlt := hin.1 (pq.priorityQueueSize + 1) List.mem_cons_self
    omega
  | pop => exact absurd trivial hnot
  | popK key =>
    rintro ⟨-, pq', hrun, -⟩
    have hnone : removeFrom (hasKey key) 1 pq = none := removeFrom_all h.order (not_not.mp hnot)
    exact nomatch hnone.symm.trans hrun
  | popV value =>
    rintro ⟨-, pq', hrun, -⟩
    have hnone : removeFrom (hasValue value) 1 pq = none :=
      removeFrom_all h.order (not_not.mp hnot)
    exact nomatch hnone.symm.trans ((priorityQueuePopV_scan pq value).symm.trans hrun)

theorem spare_init {heapAddr : Nat → PairT}
    (hinit : priorityQueueInit capacity heapAddr = some pq) : Spare capacity pq := by
  have hholds := holdsBag_init hinit
  refine ⟨hholds.order, hholds.capacity_eq, ?_⟩
  unfold priorityQueueInit at hinit
  split at hinit
  · rename_i hpos
    cases hinit
    exact hpos
  · cases hinit

/-- In every run from a new queue whose operations fit, the size is between 0 and the capacity, and
    the next operation that passes its assertion stays in the array if and only if it fits. -/
theorem heap_bounds {heapAddr : Nat → PairT}
    (hinit : priorityQueueInit capacity heapAddr = some pq₀) (h : Reached Op.fits pq₀ pq) :
    pq.priorityQueueSize ≤ capacity ∧
      ∀ op : Op, op.asserts pq → (InArray capacity op pq ↔ op.fits pq) := by
  have hspare : Spare capacity pq := by
    induction h with
    | start => exact spare_init hinit
    | step before op hasserts hmay hrun ih =>
      obtain ⟨-, pq₁, hrun₁, hspare⟩ := ih.step hasserts hmay
      exact Option.some.inj (hrun.symm.trans hrun₁) ▸ hspare
  refine ⟨hspare.fits.le, fun op hasserts => ⟨fun hin => ?_, fun hfits => ?_⟩⟩
  · by_contra hnot
    exact hspare.leaves hnot hin
  · obtain ⟨htouches, pq', hrun, hspare'⟩ := hspare.step hasserts hfits
    exact ⟨htouches, pq', hrun, hspare'.fits.le⟩

/-- Two pushes into an array of three cells; there is no third one. -/
theorem heap_bounds_three : ∃ pq₀ pq₁, priorityQueueInit 3 (fun _ => ⟨0, 0⟩) = some pq₀ ∧
    priorityQueuePush pq₀ ⟨5, 8⟩ = some pq₁ ∧ InArray 3 (.push ⟨3, 7⟩) pq₁ := by
  have hinit : priorityQueueInit 3 (fun _ => ⟨0, 0⟩) = some ⟨0, 3, fun _ => ⟨0, 0⟩⟩ :=
    if_pos (by decide)
  obtain ⟨pq₁, hrun⟩ : ∃ pq₁, priorityQueuePush ⟨0, 3, fun _ => ⟨0, 0⟩⟩ ⟨5, 8⟩ = some pq₁ :=
    Option.isSome_iff_exists.mp (priorityQueuePush_isSome (show 0 < 3 by decide))
  obtain ⟨-, hkeep, hcap⟩ := priorityQueuePush_spec hrun (spare_init hinit).order
  have hsize := congrArg Multiset.card hkeep
  rw [Multiset.card_cons, card_entries, card_entries] at hsize
  have hone : pq₁.priorityQueueSize = 1 := hsize
  have hthree : pq₁.priorityQueueCapacity = 3 := hcap
  have hreach : Reached Op.fits ⟨0, 3, fun _ => ⟨0, 0⟩⟩ pq₁ :=
    Reached.start.step (.push ⟨5, 8⟩) (show 0 < 3 by decide) (show 0 + 1 < 3 by decide) hrun
  refine ⟨_, pq₁, hinit, hrun, ((heap_bounds hinit hreach).2 (.push ⟨3, 7⟩) ?_).mpr ?_⟩
  · show pq₁.priorityQueueSize < pq₁.priorityQueueCapacity
    omega
  · show pq₁.priorityQueueSize + 1 < pq₁.priorityQueueCapacity
    omega

/-- The push that fills the queue goes behind the array. -/
theorem push_leaves_array : ¬ ∀ (capacity : Nat) (heapAddr : Nat → PairT)
    (pq₀ pq : PriorityQueueMeta) (op : Op), priorityQueueInit capacity heapAddr = some pq₀ →
      Reached (fun _ _ => True) pq₀ pq → op.asserts pq → InArray capacity op pq := by
  intro hall
  have hinit : priorityQueueInit 1 (fun _ => ⟨0, 0⟩) = some _ := if_pos (by decide)
  have hin := hall 1 _ _ _ (.push ⟨5, 8⟩) hinit .start (show 0 < 1 by decide)
  exact absurd (hin.1 1 List.mem_cons_self) (by decide)

end Uniks.PriorityQueue
