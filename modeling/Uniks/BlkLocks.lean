/-
  The block cache at the granularity of its locks.

  `Uniks.Blkbuf` has what `getblk` and `blk_release` do under `blk_cache.lock`.  Here that is one
  step each, taking or giving back the mutex of a buffer is another, and `blk_sync_all` goes from
  buffer to buffer with a mutex at a time.  A process shows up as the call it is in: a call of
  `getblk` is stalled for want of a free buffer, waits for the mutex of the one it has got, holds
  it, or has given the mutex back and not the buffer; a call of `blk_sync_all` is at a buffer or
  holds its mutex.  A stalled call may look at the free list again at any time, which is more often
  than it is woken.

  `addr` of a `Holder`, and the times of the last release, are not in the source.  Two holes show:
  a stalled `getblk` does not look into the hash table again when it wakes, and `blk_sync_all` holds
  the mutex of buffers it has not counted itself in, so that they can be taken for another block
  under its hands.
-/
import Uniks.BlkbufInv

namespace Uniks.BlkLocks

open Uniks.Blkbuf Uniks.Runs
open Function (update update_self update_of_ne)
open Option (some)

variable {n : Nat} {β : Type}

/-- Who holds a mutex, and the block the buffer was for when it was taken. -/
structure Holder where
  sync : Bool
  addr : Addr
  deriving DecidableEq, Repr

structure State (n : Nat) (β : Type) where
  cache : BlkCache n β
  /-- Calls of `getblk` in `get_LRU_blk`. -/
  stalled : List Addr
  /-- Calls of `getblk` with a buffer, before `mutex_acquire`. -/
  waiting : List (Fin n × Addr)
  mtx : Fin n → Option Holder
  /-- Calls of `blk_release` after `mutex_release`. -/
  releasing : List (Fin n)
  /-- Calls of `blk_sync_all`, each before the mutex of a buffer or past the last one. -/
  syncs : List Nat
  clock : Nat
  /-- When a buffer has become free the last time. -/
  stamp : Fin n → Nat

inductive Op (n : Nat) (β : Type) where
  | getblk (a : Addr) (page : β)
  /-- A stalled call goes on. -/
  | resume (a : Addr) (page : β)
  | mutexAcquire (i : Fin n) (a : Addr)
  /-- `mutex_release` in `blk_release` or, with the dirty flag set, in `blk_write_over`. -/
  | mutexRelease (i : Fin n) (wrote : Bool)
  /-- The rest of `blk_release`. -/
  | release (i : Fin n)
  | syncBegin
  | syncAcquire (i : Fin n)
  | syncRelease (i : Fin n)
  | syncEnd

/-- The mutex of a buffer is taken. -/
def State.lock (s : State n β) (i : Fin n) (sync : Bool) : State n β :=
  { s with mtx := update s.mtx i (some ⟨sync, (s.cache.blkbuf i).addr⟩) }

def State.unlock (s : State n β) (i : Fin n) : State n β :=
  { s with mtx := update s.mtx i none }

/-- The part of `getblk` after the hash table has been searched in vain. -/
def takeFree (s : State n β) (a : Addr) (page : β) : Option (State n β) := do
  let (c, i) ← getLRUBlk s.cache
  return { s with cache := takeBuffer c i a page, waiting := (i, a) :: s.waiting }

/-- One step; `none` when it is not possible. -/
def exec (s : State n β) : Op n β → Option (State n β)
  | .getblk a page =>
    match findBufferInhash s.cache a with
    | some i => some { s with cache := hitBuffer s.cache i, waiting := (i, a) :: s.waiting }
    | none =>
      match takeFree s a page with
      | some s => some s
      | none => some { s with stalled := a :: s.stalled }
  | .resume a page =>
    if a ∈ s.stalled then
      match takeFree s a page with
      | some s => some { s with stalled := s.stalled.erase a }
      | none => some s
    else none
  | .mutexAcquire i a =>
    if (i, a) ∈ s.waiting ∧ s.mtx i = none then
      some { s.lock i false with waiting := s.waiting.erase (i, a) }
    else none
  | .mutexRelease i wrote =>
    match s.mtx i with
    | some ⟨false, _⟩ =>
      let bb := s.cache.blkbuf i
      some { s.unlock i with
        cache := s.cache.set i { bb with bDirty := bb.bDirty || wrote }
        releasing := i :: s.releasing }
    | _ => none
  | .release i =>
    if i ∈ s.releasing then
      some { s with
        cache := blkRelease s.cache i
        releasing := s.releasing.erase i
        clock := s.clock + 1
        stamp := if (s.cache.blkbuf i).bCount - 1 = 0
          then update s.stamp i (s.clock + 1) else s.stamp }
    else none
  | .syncBegin => some { s with syncs := 0 :: s.syncs }
  | .syncAcquire i =>
    if i.val ∈ s.syncs ∧ s.mtx i = none then
      let bb := s.cache.blkbuf i
      -- the assertion on the contents of a dirty buffer
      if bb.bDirty && bb.bData.isNone then none
      else some { s.lock i true with
        cache := s.cache.set i { bb with bDirty := false }
        syncs := s.syncs.erase i.val }
    else none
  | .syncRelease i =>
    match s.mtx i with
    | some ⟨true, _⟩ => some { s.unlock i with syncs := (i.val + 1) :: s.syncs }
    | _ => none
  | .syncEnd => if n ∈ s.syncs then some { s with syncs := s.syncs.erase n } else none

def Step (s : State n β) (op : Op n β) (s' : State n β) : Prop := exec s op = some s'

/-- After `blk_init`. -/
def boot (n : Nat) {β : Type} (disk : Addr → β) : State n β :=
  { cache := (Blkbuf.boot n disk).cache, stalled := [], waiting := [], mtx := fun _ => none,
    releasing := [], syncs := [], clock := 0, stamp := fun _ => 0 }

/-! ## What is claimed -/

/-- The structure of the cache whenever its lock is free.  A buffer that has never been released is
    behind all that have, at the back of the free list. -/
structure CacheOk (s : State n β) : Prop where
  unique : ∀ b b' i j, i ∈ s.cache.hashBucketTable b → j ∈ s.cache.hashBucketTable b' →
    (s.cache.blkbuf i).addr = (s.cache.blkbuf j).addr → i = j
  bucket : ∀ b i, i ∈ s.cache.hashBucketTable b ↔
    (s.cache.blkbuf i).bHashed = true ∧ hashfn (s.cache.blkbuf i).addr = b
  free : ∀ i, i ∈ s.cache.freeList ↔ (s.cache.blkbuf i).bCount = 0
  order : s.cache.freeList.Pairwise fun i j => s.stamp j < s.stamp i ∨
    (s.stamp i = 0 ∧ s.stamp j = 0 ∧ i ≠ j)
  identity : ∀ i h, s.mtx i = some h → (s.cache.blkbuf i).addr = h.addr

/-- The buffer at the end of the free list is not in the hands of `blk_sync_all`, and a call that
    has slept does not find its block cached. -/
def Undisturbed (s : State n β) : Op n β → Prop
  | .getblk a _ => findBufferInhash s.cache a = none →
      ∀ i, s.cache.freeList.getLast? = some i → s.mtx i = none
  | .resume a _ => ∀ i, s.cache.freeList.getLast? = some i →
      s.mtx i = none ∧ findBufferInhash s.cache a = none
  | _ => True

/-! ## The invariant -/

/-- The calls that are counted in a buffer. -/
def users (waiting : List (Fin n × Addr)) (mtx : Fin n → Option Holder) (releasing : List (Fin n))
    (i : Fin n) : Nat :=
  waiting.countP (fun w => w.1 = i) + releasing.count i
    + if (mtx i).any (fun h => !h.sync) then 1 else 0

structure Inv (s : State n β) : Prop where
  bucket : ∀ b i, i ∈ s.cache.hashBucketTable b ↔
    (s.cache.blkbuf i).bHashed = true ∧ hashfn (s.cache.blkbuf i).addr = b
  nodup : ∀ b, (s.cache.hashBucketTable b).Nodup
  unique : ∀ i j, (s.cache.blkbuf i).bHashed = true → (s.cache.blkbuf j).bHashed = true →
    (s.cache.blkbuf i).addr = (s.cache.blkbuf j).addr → i = j
  freeNodup : s.cache.freeList.Nodup
  free : ∀ i, i ∈ s.cache.freeList ↔ (s.cache.blkbuf i).bCount = 0
  count : ∀ i, (s.cache.blkbuf i).bCount = users s.waiting s.mtx s.releasing i
  order : s.cache.freeList.Pairwise fun i j => s.stamp j < s.stamp i ∨
    (s.stamp i = 0 ∧ s.stamp j = 0 ∧ i ≠ j)
  past : ∀ i, s.stamp i ≤ s.clock
  identity : ∀ i h, s.mtx i = some h → (s.cache.blkbuf i).addr = h.addr

variable {s s' : State n β} {i j : Fin n} {a : Addr} {c : BlkCache n β}

theorem Inv.ok (h : Inv s) : CacheOk s where
  unique b b' i j hi hj := h.unique i j ((h.bucket b i).mp hi).1 ((h.bucket b' j).mp hj).1
  bucket := h.bucket
  free := h.free
  order := h.order
  identity := h.identity

/-! ## Counting -/

variable {waiting : List (Fin n × Addr)} {mtx : Fin n → Option Holder} {releasing : List (Fin n)}

theorem users_waiting (j : Fin n) :
    users ((i, a) :: waiting) mtx releasing j
      = users waiting mtx releasing j + if i = j then 1 else 0 := by
  unfold users
  rw [List.countP_cons]
  simp only [decide_eq_true_eq]
  omega

/-- From `mutex_acquire` to the mutex. -/
theorem users_acquire (hmem : (i, a) ∈ waiting) (hfree : mtx i = none) (b : Addr) (j : Fin n) :
    users (waiting.erase (i, a)) (update mtx i (some ⟨false, b⟩)) releasing j
      = users waiting mtx releasing j := by
  have hperm := List.perm_cons_erase hmem
  have hcount := hperm.countP_eq fun w : Fin n × Addr => decide (w.1 = j)
  rw [List.countP_cons] at hcount
  simp only [decide_eq_true_eq] at hcount
  unfold users
  by_cases hj : j = i
  · subst hj
    rw [update_self, hfree, hcount]
    simp
    omega
  · rw [update_of_ne hj, hcount, if_neg (Ne.symm hj)]
    rfl

/-- From the mutex to the lock of the cache. -/
theorem users_unlock {b : Addr} (hheld : mtx i = some ⟨false, b⟩) (j : Fin n) :
    users waiting (update mtx i none) (i :: releasing) j
      = users waiting mtx releasing j := by
  unfold users
  rw [List.count_cons]
  by_cases hj : j = i
  · subst hj
    rw [update_self, hheld]
    simp
    omega
  · rw [update_of_ne hj, if_neg (by simp [Ne.symm hj])]
    rfl

theorem users_release (waiting : List (Fin n × Addr)) (mtx : Fin n → Option Holder)
    (hmem : i ∈ releasing) (j : Fin n) :
    users waiting mtx (releasing.erase i) j + (if i = j then 1 else 0)
      = users waiting mtx releasing j := by
  have hcount := (List.perm_cons_erase hmem).count_eq j
  rw [List.count_cons] at hcount
  unfold users
  by_cases hj : i = j
  · subst hj
    simp at hcount ⊢
    omega
  · simp [hj] at hcount ⊢
    omega

/-- The mutexes that `blk_sync_all` takes and gives back are not counted. -/
theorem users_sync {h : Option Holder} (hold : (mtx i).all (fun x => x.sync) = true)
    (hnew : h.all (fun x => x.sync) = true) (j : Fin n) :
    users waiting (update mtx i h) releasing j = users waiting mtx releasing j := by
  unfold users
  by_cases hj : j = i
  · subst hj
    rw [update_self]
    have hnone : ∀ o : Option Holder, o.all (fun x => x.sync) = true →
        o.any (fun x => !x.sync) = false := by
      intro o ho
      cases o with
      | none => rfl
      | some x => simpa using ho
    rw [hnone _ hold, hnone _ hnew]
  · rw [update_of_ne hj]

/-! ## `getblk` -/

/-- A block that is not found is in no buffer. -/
theorem Inv.find_none (h : Inv s) (hf : findBufferInhash s.cache a = none)
    (hi : (s.cache.blkbuf i).bHashed = true) : (s.cache.blkbuf i).addr ≠ a := by
  intro ha
  have hmem : i ∈ s.cache.hashBucketTable (hashfn a) := (h.bucket _ i).mpr ⟨hi, by rw [ha]⟩
  have hmatch := List.find?_eq_none.mp hf i hmem
  obtain ⟨hdev, hno⟩ := addr_eq_iff.mp ha
  simp [hdev, hno] at hmatch

theorem hitBuffer_blkbuf (c : BlkCache n β) (i : Fin n) : (hitBuffer c i).blkbuf
    = update c.blkbuf i { c.blkbuf i with bCount := (c.blkbuf i).bCount + 1 } := by
  simp only [hitBuffer]
  split
  · rfl
  · rfl

theorem hitBuffer_table (c : BlkCache n β) (i : Fin n) :
    (hitBuffer c i).hashBucketTable = c.hashBucketTable := by
  simp only [hitBuffer]
  split
  · rfl
  · rfl

/-- The counter of one buffer changes, and nothing else about the buffers. -/
theorem recount_fields (c : BlkCache n β) (i : Fin n) (k : Nat) (j : Fin n) :
    (update c.blkbuf i { c.blkbuf i with bCount := k } j).addr = (c.blkbuf j).addr ∧
      (update c.blkbuf i { c.blkbuf i with bCount := k } j).bHashed
        = (c.blkbuf j).bHashed := by
  by_cases hj : j = i
  · subst hj
    rw [update_self]
    exact ⟨rfl, rfl⟩
  · rw [update_of_ne hj]
    exact ⟨rfl, rfl⟩

/-- Buffers, table and identities stay; only who is counted changes. -/
theorem Inv.recount (h : Inv s) (htable : s'.cache.hashBucketTable = s.cache.hashBucketTable)
    (haddr : ∀ j, (s'.cache.blkbuf j).addr = (s.cache.blkbuf j).addr ∧
      (s'.cache.blkbuf j).bHashed = (s.cache.blkbuf j).bHashed)
    (hnodup : s'.cache.freeList.Nodup)
    (hfree : ∀ j, j ∈ s'.cache.freeList ↔ (s'.cache.blkbuf j).bCount = 0)
    (hcount : ∀ j, (s'.cache.blkbuf j).bCount = users s'.waiting s'.mtx s'.releasing j)
    (horder : s'.cache.freeList.Pairwise fun i j => s'.stamp j < s'.stamp i ∨
      (s'.stamp i = 0 ∧ s'.stamp j = 0 ∧ i ≠ j))
    (hpast : ∀ j, s'.stamp j ≤ s'.clock)
    (hidentity : ∀ j x, s'.mtx j = some x → (s.cache.blkbuf j).addr = x.addr) : Inv s' where
  bucket b j := by
    rw [htable, (haddr j).1, (haddr j).2]
    exact h.bucket b j
  nodup b := htable ▸ h.nodup b
  unique j k hj hk heq := by
    rw [(haddr j).2] at hj
    rw [(haddr k).2] at hk
    rw [(haddr j).1, (haddr k).1] at heq
    exact h.unique j k hj hk heq
  freeNodup := hnodup
  free := hfree
  count := hcount
  order := horder
  past := hpast
  identity j x hx := by
    rw [(haddr j).1]
    exact hidentity j x hx

/-- The cached block is found; its buffer leaves the free list if it was on it. -/
theorem Inv.hit (h : Inv s) (i : Fin n) (a : Addr) :
    Inv { s with cache := hitBuffer s.cache i, waiting := (i, a) :: s.waiting } := by
  have hlist : (hitBuffer s.cache i).freeList = s.cache.freeList.erase i := by
    simp only [hitBuffer]
    split
    · rfl
    · rename_i hcount
      exact (List.erase_of_not_mem fun hmem => hcount ((h.free i).mp hmem)).symm
  have hcount : ∀ j, ((hitBuffer s.cache i).blkbuf j).bCount
      = (s.cache.blkbuf j).bCount + if i = j then 1 else 0 := by
    intro j
    rw [hitBuffer_blkbuf]
    by_cases hj : j = i
    · subst hj
      rw [update_self, if_pos rfl]
    · rw [update_of_ne hj, if_neg (Ne.symm hj), Nat.add_zero]
  refine h.recount (hitBuffer_table s.cache i) (fun j => ?_) ?_ (fun j => ?_) (fun j => ?_) ?_
    h.past h.identity
  · show ((hitBuffer s.cache i).blkbuf j).addr = _ ∧ ((hitBuffer s.cache i).blkbuf j).bHashed = _
    rw [hitBuffer_blkbuf]
    exact recount_fields s.cache i _ j
  · exact hlist ▸ h.freeNodup.erase i
  · show j ∈ (hitBuffer s.cache i).freeList ↔ ((hitBuffer s.cache i).blkbuf j).bCount = 0
    rw [hlist, hcount, h.freeNodup.mem_erase_iff, h.free]
    by_cases hj : i = j
    · simp [hj]
    · simp [hj, Ne.symm hj]
  · show ((hitBuffer s.cache i).blkbuf j).bCount = users ((i, a) :: s.waiting) s.mtx s.releasing j
    rw [hcount, users_waiting, h.count]
  · show (hitBuffer s.cache i).freeList.Pairwise _
    rw [hlist]
    exact h.order.sublist List.erase_sublist

/-- The last element of a list without duplicates. -/
theorem mem_dropLast_iff {l : List (Fin n)} (hnodup : l.Nodup) (hlast : l.getLast? = some i) :
    j ∈ l.dropLast ↔ j ∈ l ∧ j ≠ i := by
  have hne : l ≠ [] := by
    rintro rfl
    cases hlast
  have hsplit : l = l.dropLast ++ [i] := by
    rw [List.getLast?_eq_some_getLast hne] at hlast
    have heq := List.dropLast_append_getLast hne
    rw [some.inj hlast] at heq
    exact heq.symm
  rw [hsplit] at hnodup
  have hnot : i ∉ l.dropLast := fun hi =>
    (List.nodup_append.mp hnodup).2.2 i hi i List.mem_cons_self rfl
  constructor
  · intro hj
    refine ⟨(List.dropLast_sublist l).mem hj, ?_⟩
    rintro rfl
    exact hnot hj
  · rintro ⟨hj, hji⟩
    rw [hsplit, List.mem_append, List.mem_singleton] at hj
    exact hj.resolve_right hji

/-- The node of the buffer is unlinked from the bucket it was in and put into the new one. -/
theorem takeBuffer_table {t : List (Fin n)} (hbucket : ∀ b j, j ∈ c.hashBucketTable b →
      (c.blkbuf j).bHashed = true) (hnodup : ∀ b, (c.hashBucketTable b).Nodup) (page : β)
    (b : Fin HASH_TABLE_PRIME) :
    ((takeBuffer { c with freeList := t } i a page).hashBucketTable b).Nodup ∧
      ∀ j, j ∈ (takeBuffer { c with freeList := t } i a page).hashBucketTable b ↔
        (j ∈ c.hashBucketTable b ∧ j ≠ i) ∨ (j = i ∧ b = hashfn a) := by
  -- the buckets without the buffer
  obtain ⟨table, htable, hmem, hnd⟩ : ∃ table : Fin HASH_TABLE_PRIME → List (Fin n),
      (takeBuffer { c with freeList := t } i a page).hashBucketTable
        = update table (hashfn a) (i :: table (hashfn a)) ∧
      (∀ b j, j ∈ table b ↔ j ∈ c.hashBucketTable b ∧ j ≠ i) ∧ ∀ b, (table b).Nodup := by
    refine ⟨if (c.blkbuf i).bHashed then fun b => (c.hashBucketTable b).erase i
      else c.hashBucketTable, rfl, fun b j => ?_, fun b => ?_⟩
    · split
      · rw [(hnodup b).mem_erase_iff, and_comm]
      · rename_i hno
        refine ⟨fun hj => ⟨hj, ?_⟩, fun hj => hj.1⟩
        rintro rfl
        exact hno (hbucket b j hj)
    · split
      · exact (hnodup b).erase i
      · exact hnodup b
  rw [htable]
  by_cases hb : b = hashfn a
  · subst hb
    rw [update_self]
    refine ⟨List.nodup_cons.mpr ⟨fun hi => ((hmem _ i).mp hi).2 rfl, hnd _⟩, fun j => ?_⟩
    rw [List.mem_cons, hmem]
    simp [or_comm]
  · rw [update_of_ne hb]
    refine ⟨hnd b, fun j => ?_⟩
    rw [hmem]
    simp [hb]

/-- A free buffer that nobody holds is taken for a block that is not cached. -/
theorem Inv.take (h : Inv s) (page : β) (hlast : s.cache.freeList.getLast? = some i)
    (hlock : s.mtx i = none) (hnew : findBufferInhash s.cache a = none) :
    Inv { s with
      cache := takeBuffer { s.cache with freeList := s.cache.freeList.dropLast } i a page
      waiting := (i, a) :: s.waiting } := by
  obtain ⟨c', hc'⟩ : ∃ c', c'
      = takeBuffer { s.cache with freeList := s.cache.freeList.dropLast } i a page := ⟨_, rfl⟩
  have htable := fun b => takeBuffer_table (t := s.cache.freeList.dropLast) (i := i) (a := a)
    (fun b j hj => ((h.bucket b j).mp hj).1) h.nodup page b
  rw [← hc'] at htable ⊢
  have hself : c'.blkbuf i = { s.cache.blkbuf i with
      bHashed := true, bDev := a.dev, bBlkno := a.blkno, bCount := (s.cache.blkbuf i).bCount + 1,
      bData := some ((s.cache.blkbuf i).bData.getD page) } := by
    rw [hc']
    exact takeBuffer_self _ i a page
  have hother : ∀ j, j ≠ i → c'.blkbuf j = s.cache.blkbuf j := by
    intro j hj
    rw [hc']
    exact takeBuffer_of_ne _ a page hj
  have hlist : c'.freeList = s.cache.freeList.dropLast := by
    rw [hc']
    rfl
  have haddr : (c'.blkbuf i).addr = a := by
    rw [hself]
    rfl
  have hcount : ∀ j, (c'.blkbuf j).bCount = (s.cache.blkbuf j).bCount + if i = j then 1 else 0 := by
    intro j
    by_cases hj : j = i
    · subst hj
      rw [hself, if_pos rfl]
    · rw [hother j hj, if_neg (Ne.symm hj), Nat.add_zero]
  refine ⟨fun b j => ?_, fun b => (htable b).1, fun j k hj hk heq => ?_, ?_, fun j => ?_, fun j => ?_,
    ?_, h.past, fun j x hx => ?_⟩
  · show j ∈ c'.hashBucketTable b ↔ (c'.blkbuf j).bHashed = true ∧ hashfn (c'.blkbuf j).addr = b
    rw [(htable b).2]
    by_cases hj : j = i
    · subst hj
      rw [haddr, hself]
      simp [eq_comm]
    · rw [hother j hj, ← h.bucket b j]
      simp [hj]
  · show j = k
    by_cases hji : j = i
    · by_cases hki : k = i
      · exact hji.trans hki.symm
      · have hk' : (c'.blkbuf k).bHashed = true := hk
        have heq' : (c'.blkbuf j).addr = (c'.blkbuf k).addr := heq
        rw [hother k hki] at hk' heq'
        rw [hji, haddr] at heq'
        exact absurd heq'.symm (h.find_none hnew hk')
    · have hj' : (c'.blkbuf j).bHashed = true := hj
      have heq' : (c'.blkbuf j).addr = (c'.blkbuf k).addr := heq
      rw [hother j hji] at hj' heq'
      by_cases hki : k = i
      · rw [hki, haddr] at heq'
        exact absurd heq' (h.find_none hnew hj')
      · have hk' : (c'.blkbuf k).bHashed = true := hk
        rw [hother k hki] at hk' heq'
        exact h.unique j k hj' hk' heq'
  · show c'.freeList.Nodup
    rw [hlist]
    exact h.freeNodup.sublist (List.dropLast_sublist _)
  · show j ∈ c'.freeList ↔ (c'.blkbuf j).bCount = 0
    rw [hlist, hcount, mem_dropLast_iff h.freeNodup hlast, h.free]
    by_cases hj : i = j
    · simp [hj]
    · simp [hj, Ne.symm hj]
  · show (c'.blkbuf j).bCount = users ((i, a) :: s.waiting) s.mtx s.releasing j
    rw [hcount, users_waiting, h.count]
  · show c'.freeList.Pairwise _
    rw [hlist]
    exact h.order.sublist (List.dropLast_sublist _)
  · have hx' : s.mtx j = some x := hx
    have hj : j ≠ i := by
      rintro rfl
      rw [hlock] at hx'
      cases hx'
    show (c'.blkbuf j).addr = x.addr
    rw [hother j hj]
    exact h.identity j x hx'

/-- `getblk` behind the search: a free buffer is taken if there is one. -/
theorem takeFree_cases (s : State n β) (a : Addr) (page : β) :
    (s.cache.freeList.getLast? = none ∧ takeFree s a page = none) ∨
      ∃ i, s.cache.freeList.getLast? = some i ∧ takeFree s a page = some { s with
        cache := takeBuffer { s.cache with freeList := s.cache.freeList.dropLast } i a page
        waiting := (i, a) :: s.waiting } := by
  unfold takeFree getLRUBlk
  cases hlast : s.cache.freeList.getLast? with
  | none => exact .inl ⟨rfl, rfl⟩
  | some i => exact .inr ⟨i, rfl, rfl⟩

/-! ## The mutexes, and giving a buffer back -/

theorem Inv.mutexAcquire (h : Inv s) (hmem : (i, a) ∈ s.waiting) (hfree : s.mtx i = none) :
    Inv { s.lock i false with waiting := s.waiting.erase (i, a) } := by
  refine h.recount rfl (fun j => ⟨rfl, rfl⟩) h.freeNodup h.free (fun j => ?_) h.order h.past
    fun j x hx => ?_
  · exact (h.count j).trans (users_acquire hmem hfree _ j).symm
  · have hx' : update s.mtx i (some ⟨false, (s.cache.blkbuf i).addr⟩) j = some x := hx
    by_cases hj : j = i
    · subst hj
      rw [update_self] at hx'
      rw [← some.inj hx']
    · rw [update_of_ne hj] at hx'
      exact h.identity j x hx'

/-- The contents of a buffer do not matter here. -/
theorem set_fields (c : BlkCache n β) (i : Fin n) (dirty : Bool) (j : Fin n) :
    ((c.set i { c.blkbuf i with bDirty := dirty }).blkbuf j).addr = (c.blkbuf j).addr ∧
      ((c.set i { c.blkbuf i with bDirty := dirty }).blkbuf j).bHashed = (c.blkbuf j).bHashed ∧
      ((c.set i { c.blkbuf i with bDirty := dirty }).blkbuf j).bCount = (c.blkbuf j).bCount := by
  rw [BlkCache.set_blkbuf]
  by_cases hj : j = i
  · subst hj
    rw [update_self]
    exact ⟨rfl, rfl, rfl⟩
  · rw [update_of_ne hj]
    exact ⟨rfl, rfl, rfl⟩

/-- A mutex that is given back. -/
theorem Inv.identity_unlock (h : Inv s) (i j : Fin n) {x : Holder}
    (hx : update s.mtx i none j = some x) : (s.cache.blkbuf j).addr = x.addr := by
  by_cases hj : j = i
  · subst hj
    rw [update_self] at hx
    cases hx
  · rw [update_of_ne hj] at hx
    exact h.identity j x hx

theorem Inv.mutexRelease (h : Inv s) {b : Addr} (hheld : s.mtx i = some ⟨false, b⟩) (dirty : Bool) :
    Inv { s.unlock i with
      cache := s.cache.set i { s.cache.blkbuf i with bDirty := dirty }
      releasing := i :: s.releasing } := by
  have hfields := set_fields s.cache i dirty
  refine h.recount rfl (fun j => ⟨(hfields j).1, (hfields j).2.1⟩) h.freeNodup (fun j => ?_)
    (fun j => ?_) h.order h.past fun j x hx => h.identity_unlock i j hx
  · show j ∈ s.cache.freeList ↔ _
    rw [(hfields j).2.2]
    exact h.free j
  · exact (hfields j).2.2.trans ((h.count j).trans (users_unlock hheld j).symm)

/-- The last user puts the buffer in front of the free list: nothing has been released later. -/
theorem Inv.release (h : Inv s) (hmem : i ∈ s.releasing) :
    Inv { s with
      cache := blkRelease s.cache i
      releasing := s.releasing.erase i
      clock := s.clock + 1
      stamp := if (s.cache.blkbuf i).bCount - 1 = 0
        then update s.stamp i (s.clock + 1) else s.stamp } := by
  have husers := users_release s.waiting s.mtx hmem i
  rw [if_pos rfl] at husers
  have hpos : 0 < (s.cache.blkbuf i).bCount := by
    rw [h.count i, ← husers]
    omega
  have hnot : i ∉ s.cache.freeList := fun hi => by
    have hzero := (h.free i).mp hi
    omega
  have hbuf : (blkRelease s.cache i).blkbuf = update s.cache.blkbuf i
      { s.cache.blkbuf i with bCount := (s.cache.blkbuf i).bCount - 1 } := by
    simp only [blkRelease]
    split
    · rfl
    · rfl
  have htable : (blkRelease s.cache i).hashBucketTable = s.cache.hashBucketTable := by
    simp only [blkRelease]
    split
    · rfl
    · rfl
  have hlist : (blkRelease s.cache i).freeList = if (s.cache.blkbuf i).bCount - 1 = 0
      then i :: s.cache.freeList else s.cache.freeList := by
    simp only [blkRelease]
    split
    · rfl
    · rfl
  have hcount : ∀ j, ((blkRelease s.cache i).blkbuf j).bCount
      = (s.cache.blkbuf j).bCount - if i = j then 1 else 0 := by
    intro j
    rw [hbuf]
    by_cases hj : j = i
    · subst hj
      rw [update_self, if_pos rfl]
    · rw [update_of_ne hj, if_neg (Ne.symm hj), Nat.sub_zero]
  refine h.recount htable (fun j => ?_) ?_ (fun j => ?_) (fun j => ?_) ?_ (fun j => ?_) h.identity
  · show ((blkRelease s.cache i).blkbuf j).addr = _ ∧ ((blkRelease s.cache i).blkbuf j).bHashed = _
    rw [hbuf]
    exact recount_fields s.cache i _ j
  · show (blkRelease s.cache i).freeList.Nodup
    rw [hlist]
    split
    · exact List.nodup_cons.mpr ⟨hnot, h.freeNodup⟩
    · exact h.freeNodup
  · show j ∈ (blkRelease s.cache i).freeList ↔ ((blkRelease s.cache i).blkbuf j).bCount = 0
    rw [hlist, hcount]
    by_cases hj : i = j
    · subst hj
      rw [if_pos rfl]
      split
      · simp [*]
      · simp [*]
    · rw [if_neg hj, Nat.sub_zero, ← h.free j]
      split
      · simp [Ne.symm hj]
      · exact Iff.rfl
  · show ((blkRelease s.cache i).blkbuf j).bCount
      = users s.waiting s.mtx (s.releasing.erase i) j
    have hj := users_release s.waiting s.mtx hmem j
    rw [hcount, h.count j, ← hj]
    omega
  · show (blkRelease s.cache i).freeList.Pairwise _
    rw [hlist]
    by_cases hlast : (s.cache.blkbuf i).bCount - 1 = 0
    · simp only [if_pos hlast]
      have hother : ∀ j, j ∈ s.cache.freeList →
          update s.stamp i (s.clock + 1) j = s.stamp j := by
        intro j hj
        refine update_of_ne ?_ _ _
        rintro rfl
        exact hnot hj
      refine List.pairwise_cons.mpr ⟨fun j hj => .inl ?_, ?_⟩
      · rw [hother j hj, update_self]
        have hle := h.past j
        omega
      · refine h.order.imp_of_mem fun hj hk hjk => ?_
        rw [hother _ hj, hother _ hk]
        exact hjk
    · simp only [if_neg hlast]
      exact h.order
  · show (if (s.cache.blkbuf i).bCount - 1 = 0 then update s.stamp i (s.clock + 1)
      else s.stamp) j ≤ s.clock + 1
    have hle := h.past j
    split
    · by_cases hj : j = i
      · subst hj
        rw [update_self]
      · rw [update_of_ne hj]
        omega
    · omega

theorem Inv.syncAcquire (h : Inv s) (hfree : s.mtx i = none) (syncs : List Nat) :
    Inv { s.lock i true with
      cache := s.cache.set i { s.cache.blkbuf i with bDirty := false }
      syncs := syncs } := by
  have hfields := set_fields s.cache i false
  refine h.recount rfl (fun j => ⟨(hfields j).1, (hfields j).2.1⟩) h.freeNodup (fun j => ?_)
    (fun j => ?_) h.order h.past fun j x hx => ?_
  · show j ∈ s.cache.freeList ↔ _
    rw [(hfields j).2.2]
    exact h.free j
  · refine (hfields j).2.2.trans ((h.count j).trans (Eq.symm ?_))
    exact users_sync (by rw [hfree]; rfl) rfl j
  · have hx' : update s.mtx i (some ⟨true, (s.cache.blkbuf i).addr⟩) j = some x := hx
    by_cases hj : j = i
    · subst hj
      rw [update_self] at hx'
      rw [← some.inj hx']
    · rw [update_of_ne hj] at hx'
      exact h.identity j x hx'

theorem Inv.syncRelease (h : Inv s) {b : Addr} (hheld : s.mtx i = some ⟨true, b⟩)
    (syncs : List Nat) : Inv { s.unlock i with syncs := syncs } := by
  refine h.recount rfl (fun j => ⟨rfl, rfl⟩) h.freeNodup h.free (fun j => ?_) h.order h.past
    fun j x hx => h.identity_unlock i j hx
  refine (h.count j).trans (Eq.symm ?_)
  exact users_sync (by rw [hheld]; rfl) rfl j

/-! ## Runs -/

theorem Inv.step {op : Op n β} (h : Inv s) (hc : Undisturbed s op) (hs : Step s op s') :
    Inv s' := by
  cases op with
  | getblk a page =>
    simp only [Step, exec] at hs
    cases hf : findBufferInhash s.cache a with
    | some i =>
      simp only [hf] at hs
      cases hs
      exact h.hit i a
    | none =>
      simp only [hf] at hs
      rcases takeFree_cases s a page with ⟨-, hnone⟩ | ⟨i, hlast, hsome⟩
      · simp only [hnone] at hs
        cases hs
        exact { h with }
      · simp only [hsome] at hs
        cases hs
        exact h.take page hlast (hc hf i hlast) hf
  | resume a page =>
    simp only [Step, exec] at hs
    split at hs
    case isTrue hmem =>
      rcases takeFree_cases s a page with ⟨-, hnone⟩ | ⟨i, hlast, hsome⟩
      · simp only [hnone] at hs
        cases hs
        exact h
      · simp only [hsome] at hs
        cases hs
        obtain ⟨hlock, hnew⟩ := hc i hlast
        exact { h.take page hlast hlock hnew with }
    case isFalse => cases hs
  | mutexAcquire i a =>
    simp only [Step, exec] at hs
    split at hs
    case isTrue hmem =>
      cases hs
      exact h.mutexAcquire hmem.1 hmem.2
    case isFalse => cases hs
  | mutexRelease i wrote =>
    simp only [Step, exec] at hs
    split at hs
    case h_1 b hheld =>
      cases hs
      exact h.mutexRelease hheld _
    case h_2 => cases hs
  | release i =>
    simp only [Step, exec] at hs
    split at hs
    case isTrue hmem =>
      cases hs
      exact h.release hmem
    case isFalse => cases hs
  | syncBegin =>
    cases hs
    exact { h with }
  | syncAcquire i =>
    simp only [Step, exec] at hs
    split at hs
    case isTrue hmem =>
      split at hs
      · cases hs
      · cases hs
        exact h.syncAcquire hmem.2 _
    case isFalse => cases hs
  | syncRelease i =>
    simp only [Step, exec] at hs
    split at hs
    case h_1 b hheld =>
      cases hs
      exact h.syncRelease hheld _
    case h_2 => cases hs
  | syncEnd =>
    simp only [Step, exec] at hs
    split at hs
    case isTrue =>
      cases hs
      exact { h with }
    case isFalse => cases hs

theorem boot_inv (disk : Addr → β) : Inv (boot n disk) := by
  have hcache : (boot n disk).cache
      = ⟨fun _ => zeroBuf, (List.finRange n).reverse, fun _ => []⟩ := boot_cache disk
  constructor
  · intro b i
    rw [hcache]
    simp [zeroBuf]
  · intro b
    rw [hcache]
    exact List.nodup_nil
  · intro i j hi
    rw [hcache] at hi
    cases hi
  · rw [hcache]
    exact List.nodup_reverse.mpr (List.nodup_finRange n)
  · intro i
    rw [hcache]
    simp [zeroBuf]
  · intro i
    rw [hcache]
    simp [zeroBuf, users, boot]
  · rw [hcache]
    refine (List.nodup_reverse.mpr (List.nodup_finRange n)).imp fun hne => .inr ⟨rfl, rfl, hne⟩
  · exact fun i => Nat.le_refl 0
  · exact fun i x hx => nomatch hx

/-- In every run in which no buffer is taken under the hands of `blk_sync_all`, and no call that has
    slept finds its block cached in the meantime, the cache has its structure. -/
theorem cache_structure (disk : Addr → β) {s : State n β}
    (hr : Reaches Step Undisturbed (boot n disk) s) : CacheOk s :=
  (hr.invariant (boot_inv disk) fun _ _ _ h hc hs => h.step hc hs).ok

/-- A test of `Undisturbed`. -/
def undisturbed (s : State n β) : Op n β → Bool
  | .getblk a _ => (findBufferInhash s.cache a).isSome ||
      s.cache.freeList.getLast?.all fun i => (s.mtx i).isNone
  | .resume a _ => s.cache.freeList.getLast?.all fun i =>
      (s.mtx i).isNone && (findBufferInhash s.cache a).isNone
  | _ => true

theorem undisturbed_sound (s : State n β) (op : Op n β) (h : undisturbed s op = true) :
    Undisturbed s op := by
  cases op with
  | getblk a page =>
    intro hmiss i hlast
    simp only [undisturbed, hmiss, hlast, Option.isSome_none, Bool.false_or, Option.all_some] at h
    exact Option.isNone_iff_eq_none.mp h
  | resume a page =>
    intro i hlast
    simp only [undisturbed, hlast, Option.all_some, Bool.and_eq_true] at h
    exact ⟨Option.isNone_iff_eq_none.mp h.1, Option.isNone_iff_eq_none.mp h.2⟩
  | _ => trivial

/-- Two blocks are read and released, and a third takes the buffer that was released first. -/
def threeBlocks : List (Op 2 Nat) :=
  [.getblk ⟨0, 1⟩ 0, .mutexAcquire 0 ⟨0, 1⟩, .getblk ⟨0, 2⟩ 0, .mutexAcquire 1 ⟨0, 2⟩,
    .mutexRelease 0 false, .release 0, .mutexRelease 1 false, .release 1, .getblk ⟨0, 3⟩ 0]

theorem cache_structure_three : ∃ s : State 2 Nat, (0, ⟨0, 3⟩) ∈ s.waiting ∧
    s.cache.freeList = [1] ∧ CacheOk s := by
  have hrun : Leads (tested undisturbed exec) (boot 2 fun _ => 0) threeBlocks fun s =>
      (0, ⟨0, 3⟩) ∈ s.waiting ∧ s.cache.freeList = [1] := by
    decide +kernel
  obtain ⟨s, hreach, hwaits, hfree⟩ :=
    hrun.reaches Step _ (tested_step undisturbed_sound fun _ _ _ h => h)
  exact ⟨s, hwaits, hfree, cache_structure (fun _ => 0) hreach⟩

/-- Two calls for one block sleep until both buffers are free again. -/
def cachedTwice : List (Op 2 Nat) :=
  [.getblk ⟨0, 1⟩ 0, .mutexAcquire 0 ⟨0, 1⟩, .getblk ⟨0, 2⟩ 0, .mutexAcquire 1 ⟨0, 2⟩,
    .getblk ⟨0, 3⟩ 0, .getblk ⟨0, 3⟩ 0, .mutexRelease 0 false, .release 0, .mutexRelease 1 false,
    .release 1, .resume ⟨0, 3⟩ 0, .resume ⟨0, 3⟩ 0]

/-- `blk_sync_all` is at a free buffer, which is taken for a block. -/
def takenAway : List (Op 1 Nat) := [.syncBegin, .syncAcquire 0, .getblk ⟨0, 3⟩ 0]

/-- Without the condition a block can be in two buffers, and a buffer can change under the hands of
    the one who holds its mutex. -/
theorem cache_structure_broken :
    (¬ ∀ s : State 2 Nat, Reaches Step anyInput (boot 2 fun _ => 0) s → CacheOk s) ∧
      ¬ ∀ s : State 1 Nat, Reaches Step anyInput (boot 1 fun _ => 0) s →
        ∀ i h, s.mtx i = some h → (s.cache.blkbuf i).addr = h.addr := by
  constructor
  · intro hall
    have hrun : Leads exec (boot 2 fun _ => 0) cachedTwice fun s =>
        0 ∈ s.cache.hashBucketTable (hashfn ⟨0, 3⟩) ∧ 1 ∈ s.cache.hashBucketTable (hashfn ⟨0, 3⟩) ∧
          (s.cache.blkbuf 0).addr = (s.cache.blkbuf 1).addr := by
      decide +kernel
    obtain ⟨s, hreach, h0, h1, haddr⟩ := hrun.reaches Step anyInput fun _ _ _ h => ⟨trivial, h⟩
    exact nomatch (hall s hreach).unique _ _ 0 1 h0 h1 haddr
  · intro hall
    have hrun : Leads exec (boot 1 fun _ => 0) takenAway fun s =>
        s.mtx 0 = some ⟨true, ⟨0, 0⟩⟩ ∧ (s.cache.blkbuf 0).addr = ⟨0, 3⟩ := by
      decide +kernel
    obtain ⟨s, hreach, hmtx, hnew⟩ := hrun.reaches Step anyInput fun _ _ _ h => ⟨trivial, h⟩
    have haddr := hall s hreach 0 _ hmtx
    rw [hnew] at haddr
    exact absurd haddr (by decide)

end Uniks.BlkLocks
