/-
  `libs/queue.c`: the circular queue of the kernel (free pids, idle file entries, pipe bytes).

  The C structure is kept field by field; the memory behind it is a total map from array index
  to element, so an index outside `[0, capacity)` is visible as such and not silently cut off.
  `Holds q xs` says that `q` holds exactly the list `xs`, front first; each operation has one
  lemma that carries `Holds` across it, and no later proof looks inside the ring again.

  The counters are integers without bound: the tail goes from -1 to the capacity and no further
  (`Ring`), so nothing that the code computes from them is above the capacity plus one.
-/
import Uniks.Lib.Slots
import Mathlib.Logic.Function.Basic
import Mathlib.Data.List.Basic

namespace Uniks.Queue

open Option (some)

/-- The C type `struct queue_meta_t`, with the array its union points to. -/
structure QueueMeta (α : Type) where
  queueSize : Int
  queueCapacity : Int
  queueHead : Int
  queueTail : Int
  queueArray : Int → α

variable {α : Type}

/-- The source's `queue_init`; `none` is the failed assertion. -/
def queueInit (capacity : Int) (heapAddr : Int → α) : Option (QueueMeta α) :=
  if 0 < capacity then
    some { queueSize := 0, queueCapacity := capacity, queueHead := 0, queueTail := -1,
           queueArray := heapAddr }
  else none

def queueEmpty (q : QueueMeta α) : Bool := q.queueSize == 0

def queueFull (q : QueueMeta α) : Bool := q.queueSize == q.queueCapacity

/-- The element `queue_front_int32type` (or `_chartype`) points to. -/
def queueFront (q : QueueMeta α) : α := q.queueArray q.queueHead

/-- An index that has just been incremented, brought back into the array. -/
def wrap (capacity i : Int) : Int := if i ≥ capacity then i - capacity else i

/-- The source's `queue_push_int32type` and `queue_push_chartype`. -/
def queuePush (q : QueueMeta α) (pushData : α) : Option (QueueMeta α) :=
  if q.queueSize < q.queueCapacity then
    let tail := wrap q.queueCapacity (q.queueTail + 1)
    some { q with queueTail := tail,
                  queueArray := Function.update q.queueArray tail pushData,
                  queueSize := q.queueSize + 1 }
  else none

/-- The source's `queue_front_pop`. -/
def queueFrontPop (q : QueueMeta α) : Option (QueueMeta α) :=
  if queueEmpty q then none
  else some { q with queueHead := wrap q.queueCapacity (q.queueHead + 1),
                     queueSize := q.queueSize - 1 }

/-- The source's `queue_back_pop`.  It brings the tail back from 0 to `capacity` and not only from
    -1, which is the same place for the next push. -/
def queueBackPop (q : QueueMeta α) : Option (QueueMeta α) :=
  if queueEmpty q then none
  else
    let tail := q.queueTail - 1
    some { q with queueTail := if tail ≤ 0 then tail + q.queueCapacity else tail,
                  queueSize := q.queueSize - 1 }

/-- A loop that pushes one element after the other. -/
def pushAll : List α → QueueMeta α → Option (QueueMeta α)
  | [], q => some q
  | x :: xs, q => do
    let q ← queuePush q x
    pushAll xs q

/-! ## The list a queue holds -/

/-- The queue `q` holds the list `xs`: its size is the length, `head` is the place of the first
    element, the others follow round the ring, and the next push lands right behind the last. -/
structure Holds (q : QueueMeta α) (xs : List α) : Prop where
  capacity_pos : 0 < q.queueCapacity
  size : q.queueSize = xs.length
  fits : (xs.length : Int) ≤ q.queueCapacity
  head_nonneg : 0 ≤ q.queueHead
  head_lt : q.queueHead < q.queueCapacity
  tail_next : wrap q.queueCapacity (q.queueTail + 1)
    = wrap q.queueCapacity (q.queueHead + xs.length)
  elems : ∀ (i : Nat) (hi : i < xs.length),
    q.queueArray (wrap q.queueCapacity (q.queueHead + i)) = xs[i]

theorem Holds.queueEmpty_iff {q : QueueMeta α} {xs : List α} (h : Holds q xs) :
    queueEmpty q = true ↔ xs = [] := by
  rw [queueEmpty, beq_iff_eq, h.size, Int.natCast_eq_zero, List.length_eq_zero_iff]

/-- A fresh queue holds nothing. -/
theorem holds_queueInit {capacity : Int} {heap : Int → α} {q : QueueMeta α}
    (h : queueInit capacity heap = some q) : Holds q [] := by
  unfold queueInit at h
  split at h
  · rename_i hpos
    cases h
    refine ⟨hpos, rfl, ?_, ?_, hpos, ?_, fun i hi => absurd hi (Nat.not_lt_zero i)⟩
    · show (0 : Int) ≤ capacity
      omega
    · exact Int.le_refl 0
    · show wrap capacity (-1 + 1) = wrap capacity (0 + ((0 : Nat) : Int))
      rfl
  · cases h

/-- A push that passes its assertion appends at the back. -/
theorem Holds.push {q q' : QueueMeta α} {xs : List α} {x : α} (h : Holds q xs)
    (hp : queuePush q x = some q') : Holds q' (xs ++ [x]) ∧ q'.queueCapacity = q.queueCapacity := by
  unfold queuePush at hp
  split at hp
  · rename_i hlt
    cases hp
    have hsize := h.size
    have hhead := h.head_nonneg
    have hheadlt := h.head_lt
    have hlen : (xs.length : Int) < q.queueCapacity := by omega
    refine ⟨⟨h.capacity_pos, ?_, ?_, h.head_nonneg, h.head_lt, ?_, ?_⟩, rfl⟩
    · simp only [List.length_append, List.length_singleton]; omega
    · simp only [List.length_append, List.length_singleton]; omega
    · have hnext := h.tail_next
      simp only [List.length_append, List.length_singleton]
      rw [hnext]
      unfold wrap
      split <;> split <;> split <;> omega
    · intro i hi
      show Function.update q.queueArray (wrap q.queueCapacity (q.queueTail + 1)) x _ = _
      rw [h.tail_next]
      rw [List.length_append, List.length_singleton] at hi
      rcases Nat.lt_or_eq_of_le (Nat.le_of_lt_succ hi) with hold | hnew
      · -- an old element: its place differs from the one just written
        have hne : wrap q.queueCapacity (q.queueHead + i)
            ≠ wrap q.queueCapacity (q.queueHead + xs.length) := by
          unfold wrap
          split <;> split <;> omega
        rw [Function.update_of_ne hne, h.elems i hold, List.getElem_append_left hold]
      · subst hnew
        rw [Function.update_self]
        simp
  · cases hp

/-- A push succeeds exactly while there is room. -/
theorem Holds.push_isSome {q : QueueMeta α} {xs : List α} (x : α) (h : Holds q xs)
    (hroom : (xs.length : Int) < q.queueCapacity) : ∃ q', queuePush q x = some q' := by
  have hlt : q.queueSize < q.queueCapacity := by rw [h.size]; exact hroom
  exact ⟨_, if_pos hlt⟩

/-- A loop of pushes for which there is room appends its elements in order. -/
theorem Holds.pushAll {q : QueueMeta α} {xs : List α} (ys : List α) (h : Holds q xs)
    (hroom : ((xs.length + ys.length : Nat) : Int) ≤ q.queueCapacity) :
    ∃ q', Queue.pushAll ys q = some q' ∧ Holds q' (xs ++ ys) ∧
      q'.queueCapacity = q.queueCapacity := by
  induction ys generalizing q xs with
  | nil => exact ⟨q, rfl, by rw [List.append_nil]; exact h, rfl⟩
  | cons y ys ih =>
    rw [List.length_cons] at hroom
    obtain ⟨q₁, hpush⟩ := h.push_isSome y (by omega)
    obtain ⟨h₁, hcap₁⟩ := h.push hpush
    have hroom₁ : (((xs ++ [y]).length + ys.length : Nat) : Int) ≤ q₁.queueCapacity := by
      rw [List.length_append, List.length_singleton, hcap₁]
      omega
    obtain ⟨q', hall, hholds, hcap⟩ := ih h₁ hroom₁
    refine ⟨q', ?_, ?_, hcap.trans hcap₁⟩
    · rw [Queue.pushAll, hpush]
      exact hall
    · rw [List.append_assoc] at hholds
      exact hholds

/-- A queue filled right after its initialisation. -/
theorem holds_init_pushAll {capacity : Int} (heap : Int → α) {ys : List α} (hpos : 0 < capacity)
    (hroom : (ys.length : Int) ≤ capacity) :
    ∃ q q', queueInit capacity heap = some q ∧ Queue.pushAll ys q = some q' ∧ Holds q' ys ∧
      q'.queueCapacity = capacity := by
  have hinit : queueInit capacity heap = some _ := if_pos hpos
  have hempty := holds_queueInit hinit
  have hfit : ((([] : List α).length + ys.length : Nat) : Int) ≤ capacity := by
    rw [List.length_nil, Nat.zero_add]
    exact hroom
  obtain ⟨q', hall, hholds, hcap⟩ := hempty.pushAll ys hfit
  exact ⟨_, q', hinit, hall, hholds, hcap⟩

/-- The front of a non-empty queue is the head of its list. -/
theorem Holds.front {q : QueueMeta α} {x : α} {xs : List α} (h : Holds q (x :: xs)) :
    queueFront q = x := by
  have h0 := h.elems 0 (Nat.succ_pos _)
  have hlt := h.head_lt
  have hw : wrap q.queueCapacity (q.queueHead + ((0 : Nat) : Int)) = q.queueHead := by
    unfold wrap
    split <;> omega
  rw [hw] at h0
  exact h0

/-- A pop at the front drops the head of the list. -/
theorem Holds.frontPop {q q' : QueueMeta α} {x : α} {xs : List α} (h : Holds q (x :: xs))
    (hp : queueFrontPop q = some q') : Holds q' xs ∧ q'.queueCapacity = q.queueCapacity := by
  unfold queueFrontPop at hp
  split at hp
  · cases hp
  · cases hp
    have hcap := h.capacity_pos
    have hsize := h.size
    have hfits := h.fits
    have hhead := h.head_nonneg
    have hheadlt := h.head_lt
    rw [List.length_cons] at hsize hfits
    refine ⟨⟨h.capacity_pos, ?_, ?_, ?_, ?_, ?_, ?_⟩, rfl⟩
    · show q.queueSize - 1 = _
      omega
    · show (xs.length : Int) ≤ q.queueCapacity
      omega
    · show 0 ≤ wrap q.queueCapacity (q.queueHead + 1)
      unfold wrap
      split <;> omega
    · show wrap q.queueCapacity (q.queueHead + 1) < q.queueCapacity
      unfold wrap
      split <;> omega
    · have hnext := h.tail_next
      rw [List.length_cons] at hnext
      show wrap q.queueCapacity (q.queueTail + 1)
        = wrap q.queueCapacity (wrap q.queueCapacity (q.queueHead + 1) + xs.length)
      rw [hnext]
      unfold wrap
      split <;> split <;> split <;> omega
    · intro i hi
      have hi' := h.elems (i + 1) (Nat.succ_lt_succ hi)
      show q.queueArray (wrap q.queueCapacity (wrap q.queueCapacity (q.queueHead + 1) + i)) = _
      have hw : wrap q.queueCapacity (wrap q.queueCapacity (q.queueHead + 1) + (i : Int))
          = wrap q.queueCapacity (q.queueHead + ((i + 1 : Nat) : Int)) := by
        unfold wrap
        split <;> split <;> split <;> omega
      rw [hw, hi', List.getElem_cons_succ]

theorem Holds.frontPop_isSome {q : QueueMeta α} {x : α} {xs : List α} (h : Holds q (x :: xs)) :
    ∃ q', queueFrontPop q = some q' := by
  have hne : ¬ queueEmpty q = true := by
    rw [h.queueEmpty_iff]
    exact List.cons_ne_nil x xs
  exact ⟨_, if_neg hne⟩

/-- A pop at the back drops the last element of the list. -/
theorem Holds.backPop {q : QueueMeta α} {x : α} {xs : List α} (h : Holds q (xs ++ [x])) :
    ∃ q', queueBackPop q = some q' ∧ Holds q' xs ∧ q'.queueCapacity = q.queueCapacity := by
  have hne : ¬ queueEmpty q = true := by
    rw [h.queueEmpty_iff]
    exact List.append_ne_nil_of_right_ne_nil xs (List.cons_ne_nil x [])
  have hcap := h.capacity_pos
  have hsize := h.size
  have hfits := h.fits
  have hhead := h.head_nonneg
  have hheadlt := h.head_lt
  rw [List.length_append, List.length_singleton] at hsize hfits
  refine ⟨_, if_neg hne, ⟨hcap, ?_, ?_, hhead, hheadlt, ?_, fun i hi => ?_⟩, rfl⟩
  · show q.queueSize - 1 = _
    omega
  · show (xs.length : Int) ≤ q.queueCapacity
    omega
  · have hnext := h.tail_next
    rw [List.length_append, List.length_singleton] at hnext
    show wrap q.queueCapacity
      ((if q.queueTail - 1 ≤ 0 then q.queueTail - 1 + q.queueCapacity else q.queueTail - 1) + 1)
        = wrap q.queueCapacity (q.queueHead + xs.length)
    unfold wrap at hnext ⊢
    split at hnext <;> split at hnext <;> split <;> split <;> split <;> omega
  · have hi' : i < (xs ++ [x]).length := by
      rw [List.length_append]
      omega
    exact (h.elems i hi').trans (List.getElem_append_left hi)

/-- What a queue holds. -/
def contents (q : QueueMeta α) : List α :=
  (List.range q.queueSize.toNat).map fun (i : Nat) =>
    q.queueArray (wrap q.queueCapacity (q.queueHead + i))

theorem Holds.contents_eq {q : QueueMeta α} {xs : List α} (h : Holds q xs) : contents q = xs := by
  have hlen : q.queueSize.toNat = xs.length := by
    rw [h.size]
    rfl
  refine List.ext_getElem (by rw [contents, List.length_map, List.length_range, hlen]) ?_
  intro i hi hi'
  simp only [contents, List.getElem_map, List.getElem_range]
  exact h.elems i hi'

theorem Holds.self {q : QueueMeta α} {xs : List α} (h : Holds q xs) : Holds q (contents q) := by
  rw [h.contents_eq]
  exact h

/-! ## Runs of operations -/

/-- The operations on a queue. -/
inductive Op (α : Type)
  | push (pushData : α)
  | frontPop
  | backPop

/-- What the code does; `none` is a failed assertion. -/
def Op.run : Op α → QueueMeta α → Option (QueueMeta α)
  | .push x, q => queuePush q x
  | .frontPop, q => queueFrontPop q
  | .backPop, q => queueBackPop q

def runOps : List (Op α) → QueueMeta α → Option (QueueMeta α)
  | [], q => some q
  | op :: ops, q => do
    let q ← op.run q
    runOps ops q

/-- The same operation on a list of at most `capacity` elements. -/
def Op.onList (capacity : Int) : Op α → List α → Option (List α)
  | .push x, xs => if (xs.length : Int) < capacity then some (xs ++ [x]) else none
  | .frontPop, xs => if xs = [] then none else some xs.tail
  | .backPop, xs => if xs = [] then none else some xs.dropLast

def listOps (capacity : Int) : List (Op α) → List α → Option (List α)
  | [], xs => some xs
  | op :: ops, xs => do
    let xs ← op.onList capacity xs
    listOps capacity ops xs

/-- The place that the next push writes to. -/
def pushIndex (q : QueueMeta α) : Int := wrap q.queueCapacity (q.queueTail + 1)

/-- The place of the last element. -/
def lastIndex (q : QueueMeta α) : Int := wrap q.queueCapacity (q.queueHead + (q.queueSize - 1))

/-- A list kept round the ring; the tail may be on either side of the array. -/
structure Ring (capacity : Int) (q : QueueMeta α) (xs : List α) : Prop extends Holds q xs where
  capacity_eq : q.queueCapacity = capacity
  tail_ge : -1 ≤ q.queueTail
  tail_le : q.queueTail ≤ capacity

variable {q q' : QueueMeta α} {xs : List α} {capacity : Int}

theorem Holds.pushIndex_eq (h : Holds q xs) :
    pushIndex q = wrap q.queueCapacity (q.queueHead + xs.length) :=
  h.tail_next

theorem Holds.pushIndex_mem (h : Holds q xs) :
    0 ≤ pushIndex q ∧ pushIndex q < q.queueCapacity := by
  have hhead := h.head_nonneg
  have hlt := h.head_lt
  have hfits := h.fits
  rw [h.pushIndex_eq]
  unfold wrap
  split <;> omega

/-- The next push goes right behind the last element. -/
theorem Holds.pushIndex_last (h : Holds q xs) (hne : xs ≠ []) :
    q.queueArray (lastIndex q) = xs.getLast hne ∧
      pushIndex q = wrap q.queueCapacity (lastIndex q + 1) := by
  have hpos := List.length_pos_iff.mpr hne
  have hlen : ((xs.length - 1 : Nat) : Int) = q.queueSize - 1 := by
    rw [h.size]
    omega
  constructor
  · rw [List.getLast_eq_getElem, ← h.elems (xs.length - 1) (by omega), hlen]
    rfl
  · have hhead := h.head_nonneg
    have hlt := h.head_lt
    have hfits := h.fits
    have hsize := h.size
    rw [h.pushIndex_eq, lastIndex]
    unfold wrap
    split <;> split <;> split <;> omega

/-- One operation does to the queue what it does to the list, and fails where that fails. -/
theorem Ring.step (h : Ring capacity q xs) (op : Op α) :
    (op.run q = none ∧ op.onList capacity xs = none) ∨
      ∃ q' xs', op.run q = some q' ∧ op.onList capacity xs = some xs' ∧ Ring capacity q' xs' := by
  have hcap := h.capacity_eq
  have hge := h.tail_ge
  have hle := h.tail_le
  have hpos := h.capacity_pos
  cases op with
  | push x =>
    by_cases hroom : (xs.length : Int) < capacity
    · obtain ⟨q', hrun⟩ := h.push_isSome x (hcap ▸ hroom)
      obtain ⟨hholds, hcap'⟩ := h.push hrun
      have htail : q'.queueTail = pushIndex q := by
        have hlt : q.queueSize < q.queueCapacity := by rw [h.size, hcap]; exact hroom
        have hq' : queuePush q x = some _ := if_pos hlt
        rw [hrun] at hq'
        rw [some.inj hq']
        rfl
      obtain ⟨hlow, hhigh⟩ := h.pushIndex_mem
      exact .inr ⟨q', _, hrun, if_pos hroom, ⟨hholds, hcap'.trans hcap, by omega, by omega⟩⟩
    · have hfull : ¬ q.queueSize < q.queueCapacity := by rw [h.size, hcap]; exact hroom
      exact .inl ⟨if_neg hfull, if_neg hroom⟩
  | frontPop =>
    cases xs with
    | nil => exact .inl ⟨if_pos (h.queueEmpty_iff.mpr rfl), rfl⟩
    | cons x xs =>
      obtain ⟨q', hrun⟩ := h.frontPop_isSome
      obtain ⟨hholds, hcap'⟩ := h.toHolds.frontPop hrun
      have htail : q'.queueTail = q.queueTail := by
        have hne : ¬ queueEmpty q = true := fun hempty =>
          List.cons_ne_nil x xs (h.queueEmpty_iff.mp hempty)
        have hq' : queueFrontPop q = some _ := if_neg hne
        rw [hrun] at hq'
        rw [some.inj hq']
      exact .inr ⟨q', xs, hrun, rfl, ⟨hholds, hcap'.trans hcap, htail ▸ hge,
        htail ▸ hle⟩⟩
  | backPop =>
    by_cases hempty : xs = []
    · exact .inl ⟨if_pos (h.queueEmpty_iff.mpr hempty), if_pos hempty⟩
    · have hsplit := List.dropLast_append_getLast hempty
      obtain ⟨q', hrun, hholds, hcap'⟩ := Holds.backPop (hsplit.symm ▸ h.toHolds)
      have htail : q'.queueTail
          = if q.queueTail - 1 ≤ 0 then q.queueTail - 1 + q.queueCapacity else q.queueTail - 1 := by
        have hne : ¬ queueEmpty q = true := fun hemp => hempty (h.queueEmpty_iff.mp hemp)
        have hq' : queueBackPop q = some _ := if_neg hne
        rw [hrun] at hq'
        rw [some.inj hq']
      refine .inr ⟨q', xs.dropLast, hrun, if_neg hempty, ⟨hholds, hcap'.trans hcap, ?_, ?_⟩⟩
      all_goals
        rw [htail]
        split <;> omega

/-- A run of operations. -/
theorem Ring.runOps (h : Ring capacity q xs) (ops : List (Op α)) :
    (Queue.runOps ops q = none ∧ listOps capacity ops xs = none) ∨
      ∃ q' xs', Queue.runOps ops q = some q' ∧ listOps capacity ops xs = some xs' ∧
        Ring capacity q' xs' := by
  induction ops generalizing q xs with
  | nil => exact .inr ⟨q, xs, rfl, rfl, h⟩
  | cons op ops ih =>
    unfold Queue.runOps listOps
    rcases h.step op with ⟨hrun, hlist⟩ | ⟨q₁, xs₁, hrun, hlist, h₁⟩
    · rw [hrun, hlist]
      exact .inl ⟨rfl, rfl⟩
    · rw [hrun, hlist]
      exact ih h₁

/-- Every run from a new queue is a run on the empty list, and fails where that one fails.  Its
    queue shows the list: size, front, each element in its place, and the place of the next push
    right behind the last element; whatever the tail is, no operation leaves the array. -/
theorem queue_refines {heapAddr : Int → α} (hinit : queueInit capacity heapAddr = some q)
    (ops : List (Op α)) :
    (runOps ops q).isSome = (listOps capacity ops []).isSome ∧
      ∀ q', runOps ops q = some q' → ∃ xs, listOps capacity ops [] = some xs ∧
        q'.queueSize = xs.length ∧ (∀ x ∈ xs.head?, queueFront q' = x) ∧ contents q' = xs ∧
        (0 ≤ q'.queueHead ∧ q'.queueHead < capacity) ∧
        (0 ≤ pushIndex q' ∧ pushIndex q' < capacity) ∧
        (∀ hne : xs ≠ [], q'.queueArray (lastIndex q') = xs.getLast hne ∧
          pushIndex q' = wrap capacity (lastIndex q' + 1)) ∧
        -1 ≤ q'.queueTail ∧ q'.queueTail ≤ capacity := by
  have hnew : Ring capacity q [] := by
    have hholds := holds_queueInit hinit
    unfold queueInit at hinit
    split at hinit
    · cases hinit
      exact ⟨hholds, rfl, Int.le_refl _, show (-1 : Int) ≤ capacity by omega⟩
    · cases hinit
  rcases hnew.runOps ops with ⟨hrun, hlist⟩ | ⟨q₁, xs, hrun, hlist, h⟩
  · rw [hrun, hlist]
    exact ⟨rfl, fun _ hnone => nomatch hnone⟩
  · rw [hrun, hlist]
    refine ⟨rfl, fun q' hq' => ?_⟩
    cases hq'
    have hplace := h.pushIndex_mem
    have hlast := h.pushIndex_last
    have hhead := h.head_lt
    rw [h.capacity_eq] at hplace hlast hhead
    refine ⟨xs, rfl, h.size, fun x hx => ?_, h.contents_eq, ⟨h.head_nonneg, hhead⟩, hplace, hlast,
      h.tail_ge, h.tail_le⟩
    cases xs with
    | nil => cases hx
    | cons y ys =>
      cases hx
      exact h.toHolds.front

/-- The tail comes back from 0 to the end of the array, and the next push goes to slot 1. -/
theorem queue_refines_wrap : ∃ q q', queueInit 3 (fun _ => 0) = some q ∧
    runOps [.push 7, .push 8, .backPop, .push 9] q = some q' ∧ contents q' = [7, 9] := by
  have hinit : queueInit 3 (fun _ => 0) = some _ := if_pos (by decide)
  obtain ⟨hsome, hruns⟩ := queue_refines hinit [.push 7, .push 8, .backPop, .push 9]
  obtain ⟨q', hrun⟩ := Option.isSome_iff_exists.mp (hsome.trans (by decide))
  obtain ⟨xs, hlist, -, -, hxs, -⟩ := hruns q' hrun
  have hlist' : listOps 3 [.push 7, .push 8, .backPop, .push 9] [] = some [7, 9] := by decide
  rw [hlist'] at hlist
  exact ⟨_, q', hinit, hrun, hxs.trans (some.inj hlist).symm⟩

end Uniks.Queue
