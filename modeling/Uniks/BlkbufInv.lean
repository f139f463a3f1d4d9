/-
  Coherence of the block cache.

  `stored` is the abstract store: what the callers have last written into each block.  `CacheInv`
  says how the buffers and the disk hold it: a valid buffer has the stored bytes of its block, a
  valid buffer that is neither dirty nor in use agrees with the disk, and so does every block
  without a buffer.

  `getblk` overwrites the name of a recycled buffer and leaves `b_valid` set, so `blk_read` serves
  the bytes of the old block, and its test for a write-back can no longer see the old name.
  `Unrecycled` keeps to the runs in which no buffer with contents is taken for another block;
  `blkCache_recycled` fills the whole cache and reads one block more.
-/
import Uniks.Blkbuf
import Uniks.Lib.Runs

namespace Uniks.Blkbuf

open Uniks.Runs
open Function (update update_self update_apply update_of_ne update_eq_self)
open Option (some)

variable {n : Nat} {β : Type}

/-! ## What is claimed -/

/-- Whoever holds a buffer has the bytes last stored in the block asked for; and these bytes are
    on the disk, or in a buffer of that block which is dirty or in use. -/
structure CacheOk (s : State n β) : Prop where
  read : ∀ i a, s.held i = some a → (s.cache.blkbuf i).bData = some (s.stored a)
  kept : ∀ a, s.disk a = s.stored a ∨ ∃ i, (s.cache.blkbuf i).addr = a ∧
    (s.cache.blkbuf i).bData = some (s.stored a) ∧
    ((s.cache.blkbuf i).bDirty = true ∨ s.held i = some a)

/-- A block that is not cached gets a buffer that was never used, and a buffer that was changed
    is given back by `blk_write_over`. -/
def Unrecycled (s : State n β) : Op n β → Prop
  | .read a _ => (findBufferInhash s.cache a).isSome = true ∨
      ∃ i, s.cache.freeList.getLast? = some i ∧ (s.cache.blkbuf i).bValid = false
  | .release i => ∀ a, s.held i = some a →
      (s.cache.blkbuf i).bDirty = true ∨ (s.cache.blkbuf i).bData = some (s.disk a)
  | _ => True

/-! ## The invariant -/

/-- How many processes use or wait for a buffer. -/
def users (waiting : List (Fin n × Addr)) (held : Fin n → Option Addr) (i : Fin n) : Nat :=
  waiting.countP (fun w => w.1 = i) + if (held i).isSome then 1 else 0

structure CacheInv (c : BlkCache n β) (disk stored : Addr → β) (waiting : List (Fin n × Addr))
    (held : Fin n → Option Addr) : Prop where
  bucket : ∀ b i, i ∈ c.hashBucketTable b ↔
    (c.blkbuf i).bHashed = true ∧ hashfn (c.blkbuf i).addr = b
  unique : ∀ i j, (c.blkbuf i).bHashed = true → (c.blkbuf j).bHashed = true →
    (c.blkbuf i).addr = (c.blkbuf j).addr → i = j
  unused : ∀ i, (c.blkbuf i).bHashed = false →
    (c.blkbuf i).bValid = false ∧ (c.blkbuf i).bDirty = false
  count : ∀ i, (c.blkbuf i).bCount = users waiting held i
  nodup : c.freeList.Nodup
  free : ∀ i, i ∈ c.freeList ↔ (c.blkbuf i).bCount = 0
  asked : ∀ i a, (i, a) ∈ waiting → (c.blkbuf i).bHashed = true ∧ (c.blkbuf i).addr = a
  holder : ∀ i a, held i = some a →
    (c.blkbuf i).bHashed = true ∧ (c.blkbuf i).addr = a ∧ (c.blkbuf i).bValid = true
  -- between `getblk` and the transfer
  loading : ∀ i, (c.blkbuf i).bHashed = true → (c.blkbuf i).bValid = false →
    (c.blkbuf i).bCount ≠ 0 ∧ (c.blkbuf i).bDirty = false ∧
    disk (c.blkbuf i).addr = stored (c.blkbuf i).addr
  valid : ∀ i, (c.blkbuf i).bValid = true →
    (c.blkbuf i).bData = some (stored (c.blkbuf i).addr)
  clean : ∀ i, (c.blkbuf i).bValid = true → (c.blkbuf i).bDirty = false → held i = none →
    disk (c.blkbuf i).addr = stored (c.blkbuf i).addr
  uncached : ∀ a, (∀ i, (c.blkbuf i).bHashed = true → (c.blkbuf i).addr ≠ a) → disk a = stored a

variable {c : BlkCache n β} {disk stored : Addr → β} {waiting : List (Fin n × Addr)}
  {held : Fin n → Option Addr} {i : Fin n} {a : Addr}

/-! ## Looking a block up -/

theorem addr_eq_iff {bb : BlkBuf β} : bb.addr = a ↔ bb.bDev = a.dev ∧ bb.bBlkno = a.blkno := by
  cases a
  rw [BlkBuf.addr, Addr.mk.injEq]

theorem CacheInv.find_some (h : CacheInv c disk stored waiting held)
    (hf : findBufferInhash c a = some i) :
    (c.blkbuf i).bHashed = true ∧ (c.blkbuf i).addr = a := by
  have hmem := List.mem_of_find?_eq_some hf
  have hmatch := List.find?_some hf
  rw [Bool.and_eq_true, beq_iff_eq, beq_iff_eq] at hmatch
  exact ⟨((h.bucket _ i).mp hmem).1, addr_eq_iff.mpr hmatch⟩

theorem CacheInv.find_none (h : CacheInv c disk stored waiting held)
    (hf : findBufferInhash c a = none) (hi : (c.blkbuf i).bHashed = true) :
    (c.blkbuf i).addr ≠ a := by
  intro ha
  have hmem : i ∈ c.hashBucketTable (hashfn a) := (h.bucket _ i).mpr ⟨hi, by rw [ha]⟩
  have hmatch := List.find?_eq_none.mp hf i hmem
  rw [Bool.and_eq_true, beq_iff_eq, beq_iff_eq] at hmatch
  exact hmatch (addr_eq_iff.mp ha)

/-! ## Users come and go -/

/-- A buffer whose name, flags and contents stay. -/
structure SameBlock (bb bb' : BlkBuf β) : Prop where
  addr : bb'.addr = bb.addr
  valid : bb'.bValid = bb.bValid
  dirty : bb'.bDirty = bb.bDirty
  hashed : bb'.bHashed = bb.bHashed
  data : bb'.bData = bb.bData

theorem SameBlock.refl (bb : BlkBuf β) : SameBlock bb bb := ⟨rfl, rfl, rfl, rfl, rfl⟩

theorem sameBlock_recount (c : BlkCache n β) (i : Fin n) (k : Nat) (j : Fin n) :
    SameBlock (c.blkbuf j) (update c.blkbuf i { c.blkbuf i with bCount := k } j) := by
  by_cases hj : j = i
  · subst hj
    rw [update_self]
    exact ⟨rfl, rfl, rfl, rfl, rfl⟩
  · rw [update_of_ne hj]
    exact SameBlock.refl _

/-- Only the counts, the free list and the users change. -/
theorem CacheInv.recount {c' : BlkCache n β} {waiting' : List (Fin n × Addr)}
    {held' : Fin n → Option Addr} (h : CacheInv c disk stored waiting held)
    (hsame : ∀ j, SameBlock (c.blkbuf j) (c'.blkbuf j))
    (htable : c'.hashBucketTable = c.hashBucketTable)
    (hcount : ∀ j, (c'.blkbuf j).bCount = users waiting' held' j) (hnodup : c'.freeList.Nodup)
    (hfree : ∀ j, j ∈ c'.freeList ↔ (c'.blkbuf j).bCount = 0)
    (hasked : ∀ j a, (j, a) ∈ waiting' → (c.blkbuf j).bHashed = true ∧ (c.blkbuf j).addr = a)
    (hholder : ∀ j a, held' j = some a →
      (c.blkbuf j).bHashed = true ∧ (c.blkbuf j).addr = a ∧ (c.blkbuf j).bValid = true)
    (hloading : ∀ j, (c.blkbuf j).bHashed = true → (c.blkbuf j).bValid = false →
      (c'.blkbuf j).bCount ≠ 0)
    (hclean : ∀ j, (c.blkbuf j).bValid = true → (c.blkbuf j).bDirty = false → held' j = none →
      disk (c.blkbuf j).addr = stored (c.blkbuf j).addr) :
    CacheInv c' disk stored waiting' held' := by
  refine ⟨?_, ?_, ?_, hcount, hnodup, hfree, ?_, ?_, ?_, ?_, ?_, ?_⟩
  · intro b j
    rw [htable, (hsame j).hashed, (hsame j).addr]
    exact h.bucket b j
  · intro j k
    rw [(hsame j).hashed, (hsame k).hashed, (hsame j).addr, (hsame k).addr]
    exact h.unique j k
  · intro j
    rw [(hsame j).hashed, (hsame j).valid, (hsame j).dirty]
    exact h.unused j
  · intro j b
    rw [(hsame j).hashed, (hsame j).addr]
    exact hasked j b
  · intro j b
    rw [(hsame j).hashed, (hsame j).addr, (hsame j).valid]
    exact hholder j b
  · intro j
    rw [(hsame j).hashed, (hsame j).valid, (hsame j).dirty, (hsame j).addr]
    intro hhash hinvalid
    exact ⟨hloading j hhash hinvalid, (h.loading j hhash hinvalid).2⟩
  · intro j
    rw [(hsame j).valid, (hsame j).data, (hsame j).addr]
    exact h.valid j
  · intro j
    rw [(hsame j).valid, (hsame j).dirty, (hsame j).addr]
    exact hclean j
  · intro b hno
    refine h.uncached b fun j hhash => ?_
    have hj := hno j
    rw [(hsame j).hashed, (hsame j).addr] at hj
    exact hj hhash

theorem users_cons (j : Fin n) :
    users ((i, a) :: waiting) held j = users waiting held j + if i = j then 1 else 0 := by
  unfold users
  rw [List.countP_cons]
  simp only [decide_eq_true_eq]
  omega

/-- The process that waited takes the mutex. -/
theorem users_enter (hmem : (i, a) ∈ waiting) (hfree : held i = none) (j : Fin n) :
    users (waiting.erase (i, a)) (update held i (some a)) j = users waiting held j := by
  have hperm := List.perm_cons_erase hmem
  have hcount := hperm.countP_eq (fun w : Fin n × Addr => decide (w.1 = j))
  rw [List.countP_cons] at hcount
  simp only [decide_eq_true_eq] at hcount
  unfold users
  by_cases hj : j = i
  · subst hj
    rw [update_self, hfree]
    rw [if_pos rfl] at hcount
    simp only [Option.isSome_some, Option.isSome_none, if_true, Bool.false_eq_true, if_false]
    omega
  · rw [update_of_ne hj]
    rw [if_neg (Ne.symm hj)] at hcount
    omega

/-- The holder lets the mutex go. -/
theorem users_leave (hheld : held i = some a) (j : Fin n) :
    users waiting (update held i none) j = users waiting held j - if i = j then 1 else 0 := by
  unfold users
  by_cases hj : j = i
  · subst hj
    rw [update_self, hheld, if_pos rfl]
    simp only [Option.isSome_some, Option.isSome_none, if_true, Bool.false_eq_true, if_false]
    omega
  · rw [update_of_ne hj, if_neg (Ne.symm hj)]
    omega

/-- The cached block gets one more user. -/
theorem CacheInv.hit (h : CacheInv c disk stored waiting held)
    (hi : (c.blkbuf i).bHashed = true) (ha : (c.blkbuf i).addr = a) :
    CacheInv (hitBuffer c i) disk stored ((i, a) :: waiting) held := by
  have hbuf : (hitBuffer c i).blkbuf
      = update c.blkbuf i { c.blkbuf i with bCount := (c.blkbuf i).bCount + 1 } := by
    simp only [hitBuffer]
    split
    · rfl
    · rfl
  have htable : (hitBuffer c i).hashBucketTable = c.hashBucketTable := by
    simp only [hitBuffer]
    split
    · rfl
    · rfl
  have hlist : (hitBuffer c i).freeList
      = if (c.blkbuf i).bCount = 0 then c.freeList.erase i else c.freeList := by
    simp only [hitBuffer]
    split
    · rfl
    · rfl
  have hcount : ∀ j, ((hitBuffer c i).blkbuf j).bCount
      = (c.blkbuf j).bCount + if i = j then 1 else 0 := by
    intro j
    rw [hbuf, update_apply]
    split
    · rename_i hj
      rw [hj, if_pos rfl]
    · rename_i hj
      rw [if_neg (Ne.symm hj), Nat.add_zero]
  refine h.recount (fun j => ?_) htable (fun j => ?_) ?_ (fun j => ?_) ?_ h.holder ?_ h.clean
  · rw [hbuf]
    exact sameBlock_recount c i _ j
  · rw [hcount, users_cons, h.count]
  · rw [hlist]
    split
    · exact h.nodup.erase i
    · exact h.nodup
  · rw [hlist, hcount]
    by_cases hj : i = j
    · subst hj
      rw [if_pos rfl]
      constructor
      · intro hmem
        split at hmem
        · exact absurd hmem h.nodup.not_mem_erase
        · rename_i hne
          exact absurd ((h.free i).mp hmem) hne
      · intro hzero
        exact absurd hzero (Nat.succ_ne_zero _)
    · rw [if_neg hj, Nat.add_zero, ← h.free j]
      split
      · exact List.mem_erase_of_ne (Ne.symm hj)
      · exact Iff.rfl
  · intro j b hmem
    rcases List.mem_cons.mp hmem with heq | hmem
    · cases heq
      exact ⟨hi, ha⟩
    · exact h.asked j b hmem
  · intro j hhash hinvalid
    have hne := (h.loading j hhash hinvalid).1
    rw [hcount]
    omega

/-- A buffer is given back; what is not dirty agrees with the disk. -/
theorem CacheInv.release (h : CacheInv c disk stored waiting held) (hheld : held i = some a)
    (hsafe : (c.blkbuf i).bDirty = true ∨ (c.blkbuf i).bData = some (disk a)) :
    CacheInv (blkRelease c i) disk stored waiting (update held i none) := by
  obtain ⟨hhash, haddr, hvalid⟩ := h.holder i a hheld
  have hbuf : (blkRelease c i).blkbuf
      = update c.blkbuf i { c.blkbuf i with bCount := (c.blkbuf i).bCount - 1 } := by
    simp only [blkRelease]
    split
    · rfl
    · rfl
  have htable : (blkRelease c i).hashBucketTable = c.hashBucketTable := by
    simp only [blkRelease]
    split
    · rfl
    · rfl
  have hlist : (blkRelease c i).freeList
      = if (c.blkbuf i).bCount - 1 = 0 then i :: c.freeList else c.freeList := by
    simp only [blkRelease]
    split
    · rfl
    · rfl
  have hcount : ∀ j, ((blkRelease c i).blkbuf j).bCount
      = (c.blkbuf j).bCount - if i = j then 1 else 0 := by
    intro j
    rw [hbuf, update_apply]
    split
    · rename_i hj
      rw [hj, if_pos rfl]
    · rename_i hj
      rw [if_neg (Ne.symm hj), Nat.sub_zero]
  have hused : 1 ≤ (c.blkbuf i).bCount := by
    rw [h.count]
    unfold users
    rw [hheld]
    simp only [Option.isSome_some, if_true]
    omega
  have hnot : i ∉ c.freeList := by
    rw [h.free i]
    omega
  refine h.recount (fun j => ?_) htable (fun j => ?_) ?_ (fun j => ?_) h.asked ?_ ?_ ?_
  · rw [hbuf]
    exact sameBlock_recount c i _ j
  · rw [hcount, users_leave hheld, h.count]
  · rw [hlist]
    split
    · exact List.nodup_cons.mpr ⟨hnot, h.nodup⟩
    · exact h.nodup
  · rw [hlist, hcount]
    by_cases hj : i = j
    · subst hj
      rw [if_pos rfl]
      split
      · rename_i hzero
        exact ⟨fun _ => hzero, fun _ => List.mem_cons_self⟩
      · rename_i hne
        exact ⟨fun hmem => absurd hmem hnot, fun hzero => absurd hzero hne⟩
    · rw [if_neg hj, Nat.sub_zero, ← h.free j]
      split
      · rw [List.mem_cons]
        exact ⟨fun hmem => hmem.resolve_left (Ne.symm hj), .inr⟩
      · exact Iff.rfl
  · intro j b hb
    have hj : j ≠ i := by
      rintro rfl
      rw [update_self] at hb
      cases hb
    rw [update_of_ne hj] at hb
    exact h.holder j b hb
  · intro j hjhash hinvalid
    have hj : i ≠ j := by
      rintro rfl
      rw [hvalid] at hinvalid
      cases hinvalid
    rw [hcount, if_neg hj, Nat.sub_zero]
    exact (h.loading j hjhash hinvalid).1
  · intro j hjvalid hjclean hjheld
    by_cases hj : j = i
    · subst hj
      rcases hsafe with hdirty | hdisk
      · rw [hdirty] at hjclean
        cases hjclean
      · rw [h.valid j hjvalid] at hdisk
        rw [haddr] at hdisk ⊢
        exact (some.inj hdisk).symm
    · rw [update_of_ne hj] at hjheld
      exact h.clean j hjvalid hjclean hjheld

/-! ## A block that is not cached -/

/-- The buffer at the end of the free list that was never used is not hashed. -/
theorem CacheInv.lru_unhashed (h : CacheInv c disk stored waiting held)
    (hlast : c.freeList.getLast? = some i) (hvalid : (c.blkbuf i).bValid = false) :
    (c.blkbuf i).bHashed = false ∧ i ∈ c.freeList := by
  have hmem : i ∈ c.freeList := List.mem_of_getLast? hlast
  refine ⟨?_, hmem⟩
  by_contra hhash
  rw [Bool.not_eq_false] at hhash
  exact (h.loading i hhash hvalid).1 ((h.free i).mp hmem)

theorem takeBuffer_self (c : BlkCache n β) (i : Fin n) (a : Addr) (page : β) :
    (takeBuffer c i a page).blkbuf i = { c.blkbuf i with
      bHashed := true, bDev := a.dev, bBlkno := a.blkno, bCount := (c.blkbuf i).bCount + 1,
      bData := some ((c.blkbuf i).bData.getD page) } := by
  simp only [takeBuffer, rmoldThenInsertNewhash, BlkCache.set_blkbuf, update_self]

theorem takeBuffer_of_ne (c : BlkCache n β) {i j : Fin n} (a : Addr) (page : β) (hj : j ≠ i) :
    (takeBuffer c i a page).blkbuf j = c.blkbuf j := by
  simp only [takeBuffer, rmoldThenInsertNewhash, BlkCache.set_blkbuf, update_of_ne hj]

/-- A buffer that gets an address no hashed buffer has leaves the addresses distinct. -/
theorem unique_of_new {c' : BlkCache n β} (haddr : (c'.blkbuf i).addr = a)
    (hother : ∀ j, j ≠ i → c'.blkbuf j = c.blkbuf j)
    (hnew : ∀ j, (c.blkbuf j).bHashed = true → (c.blkbuf j).addr ≠ a)
    (hunique : ∀ j k, (c.blkbuf j).bHashed = true → (c.blkbuf k).bHashed = true →
      (c.blkbuf j).addr = (c.blkbuf k).addr → j = k) :
    ∀ j k, (c'.blkbuf j).bHashed = true → (c'.blkbuf k).bHashed = true →
      (c'.blkbuf j).addr = (c'.blkbuf k).addr → j = k := by
  intro j k hj hk hjk
  by_cases hji : j = i
  · by_cases hki : k = i
    · exact hji.trans hki.symm
    · rw [hji, haddr, hother k hki] at hjk
      rw [hother k hki] at hk
      exact absurd hjk.symm (hnew k hk)
  · by_cases hki : k = i
    · rw [hki, haddr, hother j hji] at hjk
      rw [hother j hji] at hj
      exact absurd hjk (hnew j hj)
    · rw [hother j hji] at hj hjk
      rw [hother k hki] at hk hjk
      exact hunique j k hj hk hjk

/-- A buffer that was never used is taken for a block that is not cached. -/
theorem CacheInv.take (h : CacheInv c disk stored waiting held) (page : β)
    (hlast : c.freeList.getLast? = some i) (hvalid : (c.blkbuf i).bValid = false)
    (hnew : ∀ j, (c.blkbuf j).bHashed = true → (c.blkbuf j).addr ≠ a) :
    CacheInv (takeBuffer { c with freeList := c.freeList.dropLast } i a page) disk stored
      ((i, a) :: waiting) held := by
  obtain ⟨hunhashed, hmem⟩ := h.lru_unhashed hlast hvalid
  obtain ⟨-, hclean⟩ := h.unused i hunhashed
  obtain ⟨c', hc'⟩ : ∃ c', c' = takeBuffer { c with freeList := c.freeList.dropLast } i a page :=
    ⟨_, rfl⟩
  rw [← hc']
  have hself : c'.blkbuf i = { c.blkbuf i with
      bHashed := true, bDev := a.dev, bBlkno := a.blkno, bCount := (c.blkbuf i).bCount + 1,
      bData := some ((c.blkbuf i).bData.getD page) } := by
    rw [hc']
    exact takeBuffer_self _ i a page
  have hother : ∀ j, j ≠ i → c'.blkbuf j = c.blkbuf j := by
    intro j hj
    rw [hc']
    exact takeBuffer_of_ne _ a page hj
  have htable : c'.hashBucketTable = update c.hashBucketTable (hashfn a)
      (i :: c.hashBucketTable (hashfn a)) := by
    rw [hc']
    simp only [takeBuffer, rmoldThenInsertNewhash, BlkCache.set_hashBucketTable, hunhashed,
      Bool.false_eq_true, if_false]
  have hlist : c'.freeList = c.freeList.dropLast := by
    rw [hc']
    rfl
  have haddr : (c'.blkbuf i).addr = a := by
    rw [hself]
    rfl
  have hcount : ∀ j, (c'.blkbuf j).bCount = (c.blkbuf j).bCount + if i = j then 1 else 0 := by
    intro j
    by_cases hj : j = i
    · subst hj
      rw [hself, if_pos rfl]
    · rw [hother j hj, if_neg (Ne.symm hj), Nat.add_zero]
  have hsplit : c.freeList = c.freeList.dropLast ++ [i] := by
    have hne : c.freeList ≠ [] := List.ne_nil_of_mem hmem
    rw [List.getLast?_eq_some_getLast hne] at hlast
    have heq := List.dropLast_append_getLast hne
    rw [some.inj hlast] at heq
    exact heq.symm
  have hnodup := h.nodup
  rw [hsplit] at hnodup
  have hnot : i ∉ c.freeList.dropLast := fun hi =>
    (List.nodup_append.mp hnodup).2.2 i hi i List.mem_cons_self rfl
  have huncached : disk a = stored a := h.uncached a hnew
  refine ⟨?_, ?_, ?_, ?_, ?_, ?_, ?_, ?_, ?_, ?_, ?_, ?_⟩
  · intro b j
    rw [htable, update_apply]
    by_cases hj : j = i
    · subst hj
      have hno : ∀ b', j ∉ c.hashBucketTable b' := by
        intro b' hin
        have hhash := ((h.bucket b' j).mp hin).1
        rw [hunhashed] at hhash
        cases hhash
      rw [haddr, hself]
      split
      · rename_i hb
        exact ⟨fun _ => ⟨rfl, hb.symm⟩, fun _ => List.mem_cons_self⟩
      · rename_i hb
        exact ⟨fun hin => absurd hin (hno b), fun hin => absurd hin.2.symm hb⟩
    · rw [hother j hj, ← h.bucket b j]
      split
      · rename_i hb
        rw [hb, List.mem_cons]
        exact ⟨fun hin => hin.resolve_left hj, .inr⟩
      · exact Iff.rfl
  · exact unique_of_new haddr hother hnew h.unique
  · intro j hj
    by_cases hji : j = i
    · rw [hji, hself] at hj
      cases hj
    · rw [hother j hji] at hj ⊢
      exact h.unused j hj
  · intro j
    rw [hcount, users_cons, h.count]
  · rw [hlist]
    exact (List.nodup_append.mp hnodup).1
  · intro j
    rw [hlist, hcount]
    by_cases hj : i = j
    · subst hj
      rw [if_pos rfl]
      exact ⟨fun hin => absurd hin hnot, fun hzero => absurd hzero (Nat.succ_ne_zero _)⟩
    · rw [if_neg hj, Nat.add_zero, ← h.free j]
      constructor
      · exact fun hin => List.dropLast_subset _ hin
      · intro hin
        rw [hsplit] at hin
        rcases List.mem_append.mp hin with hin | hin
        · exact hin
        · exact absurd (List.mem_singleton.mp hin).symm hj
  · intro j b hin
    rcases List.mem_cons.mp hin with heq | hin
    · cases heq
      exact ⟨by rw [hself], haddr⟩
    · obtain ⟨hhash, hb⟩ := h.asked j b hin
      have hj : j ≠ i := by
        rintro rfl
        rw [hunhashed] at hhash
        cases hhash
      rw [hother j hj]
      exact ⟨hhash, hb⟩
  · intro j b hb
    have hspec := h.holder j b hb
    have hj : j ≠ i := by
      rintro rfl
      rw [hunhashed] at hspec
      exact nomatch hspec.1
    rw [hother j hj]
    exact hspec
  · intro j hhash hinvalid
    by_cases hj : j = i
    · subst hj
      rw [haddr]
      refine ⟨?_, ?_, huncached⟩
      · rw [hself]
        exact Nat.succ_ne_zero _
      · rw [hself]
        exact hclean
    · rw [hother j hj] at hhash hinvalid ⊢
      exact h.loading j hhash hinvalid
  · intro j hj
    by_cases hji : j = i
    · rw [hji, hself] at hj
      exact nomatch hvalid.symm.trans hj
    · rw [hother j hji] at hj ⊢
      exact h.valid j hj
  · intro j hj
    by_cases hji : j = i
    · rw [hji, hself] at hj
      exact nomatch hvalid.symm.trans hj
    · rw [hother j hji] at hj ⊢
      exact h.clean j hj
  · intro b hno
    refine h.uncached b fun j hhash => ?_
    have hj : j ≠ i := by
      rintro rfl
      rw [hunhashed] at hhash
      cases hhash
    have hspec := hno j
    rw [hother j hj] at hspec
    exact hspec hhash

/-! ## Under the mutex -/

/-- Only one valid buffer changes, in its flags and contents, and only the stored bytes of its
    block. -/
theorem CacheInv.rewrite {disk' stored' : Addr → β} {bb : BlkBuf β}
    (h : CacheInv c disk stored waiting held) (hhash : (c.blkbuf i).bHashed = true)
    (haddr : bb.addr = (c.blkbuf i).addr) (hhash' : bb.bHashed = true) (hvalid : bb.bValid = true)
    (hcount : bb.bCount = (c.blkbuf i).bCount)
    (hdata : bb.bData = some (stored' (c.blkbuf i).addr))
    (hclean : bb.bDirty = false → held i = none →
      disk' (c.blkbuf i).addr = stored' (c.blkbuf i).addr)
    (hdisk : ∀ b, b ≠ (c.blkbuf i).addr → disk' b = disk b)
    (hstored : ∀ b, b ≠ (c.blkbuf i).addr → stored' b = stored b) :
    CacheInv (c.set i bb) disk' stored' waiting held := by
  have hself : (c.set i bb).blkbuf i = bb := update_self ..
  have hother : ∀ j, j ≠ i → (c.set i bb).blkbuf j = c.blkbuf j := by
    intro j hj
    exact update_of_ne hj ..
  have hkeep : ∀ j, ((c.set i bb).blkbuf j).addr = (c.blkbuf j).addr ∧
      ((c.set i bb).blkbuf j).bHashed = (c.blkbuf j).bHashed ∧
      ((c.set i bb).blkbuf j).bCount = (c.blkbuf j).bCount := by
    intro j
    by_cases hj : j = i
    · subst hj
      rw [hself]
      exact ⟨haddr, hhash'.trans hhash.symm, hcount⟩
    · rw [hother j hj]
      exact ⟨rfl, rfl, rfl⟩
  -- another hashed buffer is for another block
  have hapart : ∀ j, j ≠ i → (c.blkbuf j).bHashed = true → (c.blkbuf j).addr ≠ (c.blkbuf i).addr :=
    fun j hj hjhash heq => hj (h.unique j i hjhash hhash heq)
  have hvalid_hashed : ∀ j, (c.blkbuf j).bValid = true → (c.blkbuf j).bHashed = true := by
    intro j hj
    by_contra hno
    rw [Bool.not_eq_true] at hno
    rw [(h.unused j hno).1] at hj
    cases hj
  refine ⟨?_, ?_, ?_, ?_, h.nodup, ?_, ?_, ?_, ?_, ?_, ?_, ?_⟩
  · intro b j
    rw [(hkeep j).1, (hkeep j).2.1]
    exact h.bucket b j
  · intro j k
    rw [(hkeep j).1, (hkeep j).2.1, (hkeep k).1, (hkeep k).2.1]
    exact h.unique j k
  · intro j hj
    by_cases hji : j = i
    · rw [hji, hself, hhash'] at hj
      cases hj
    · rw [hother j hji] at hj ⊢
      exact h.unused j hj
  · intro j
    rw [(hkeep j).2.2]
    exact h.count j
  · intro j
    rw [(hkeep j).2.2]
    exact h.free j
  · intro j b hin
    rw [(hkeep j).1, (hkeep j).2.1]
    exact h.asked j b hin
  · intro j b hb
    rw [(hkeep j).1, (hkeep j).2.1]
    obtain ⟨hj, hjaddr, hjvalid⟩ := h.holder j b hb
    refine ⟨hj, hjaddr, ?_⟩
    by_cases hji : j = i
    · rw [hji, hself]
      exact hvalid
    · rw [hother j hji]
      exact hjvalid
  · intro j hj hinvalid
    by_cases hji : j = i
    · rw [hji, hself, hvalid] at hinvalid
      cases hinvalid
    · rw [hother j hji] at hj hinvalid ⊢
      obtain ⟨hne, hnotdirty, hsync⟩ := h.loading j hj hinvalid
      refine ⟨hne, hnotdirty, ?_⟩
      rw [hdisk _ (hapart j hji hj), hstored _ (hapart j hji hj)]
      exact hsync
  · intro j hj
    by_cases hji : j = i
    · subst hji
      rw [hself, hdata, haddr]
    · rw [hother j hji] at hj ⊢
      rw [hstored _ (hapart j hji (hvalid_hashed j hj))]
      exact h.valid j hj
  · intro j hj hnotdirty hfree
    by_cases hji : j = i
    · subst hji
      rw [hself] at hnotdirty
      rw [(hkeep j).1]
      exact hclean hnotdirty hfree
    · rw [hother j hji] at hj hnotdirty ⊢
      have hne := hapart j hji (hvalid_hashed j hj)
      rw [hdisk _ hne, hstored _ hne]
      exact h.clean j hj hnotdirty hfree
  · intro b hno
    have hb : b ≠ (c.blkbuf i).addr := by
      rintro rfl
      exact hno i ((hkeep i).2.1.trans hhash) (hkeep i).1
    rw [hdisk b hb, hstored b hb]
    refine h.uncached b fun j hj => ?_
    have hspec := hno j
    rw [(hkeep j).1, (hkeep j).2.1] at hspec
    exact hspec hj

/-- `blk_read` under the mutex: a buffer that is valid is served, another one is read in. -/
theorem CacheInv.enter (h : CacheInv c disk stored waiting held) (hmem : (i, a) ∈ waiting)
    (hfree : held i = none) :
    ∃ c', blkReadLocked disk c i a = some (disk, c') ∧
      CacheInv c' disk stored (waiting.erase (i, a)) (update held i (some a)) ∧
      c'.freeList = c.freeList ∧ ∀ j, j ≠ i → c'.blkbuf j = c.blkbuf j := by
  obtain ⟨hhash, haddr⟩ := h.asked i a hmem
  obtain ⟨hdev, hblkno⟩ := addr_eq_iff.mp haddr
  have hshown : ∃ c', blkReadLocked disk c i a = some (disk, c') ∧
      CacheInv c' disk stored waiting held ∧ (c'.blkbuf i).bValid = true ∧
      c'.freeList = c.freeList ∧ ∀ j, j ≠ i → c'.blkbuf j = c.blkbuf j := by
    have hnoback : ((c.blkbuf i).bDirty && ((c.blkbuf i).bDev != a.dev &&
        (c.blkbuf i).bBlkno != a.blkno)) = false := by
      rw [hdev, bne_self_eq_false, Bool.false_and, Bool.and_false]
    cases hvalid : (c.blkbuf i).bValid with
    | true =>
      refine ⟨c, ?_, h, hvalid, rfl, fun _ _ => rfl⟩
      simp only [blkReadLocked, hnoback, hvalid, Bool.false_eq_true, if_false, if_true]
      rfl
    | false =>
      obtain ⟨-, hclean, hsync⟩ := h.loading i hhash hvalid
      have hname : (⟨a.dev, (c.blkbuf i).bBlkno⟩ : Addr) = a := by rw [hblkno]
      refine ⟨c.set i { c.blkbuf i with bData := some (disk a), bValid := true }, ?_, ?_, ?_, rfl,
        fun j hj => update_of_ne hj ..⟩
      · simp only [blkReadLocked, hnoback, hvalid, hname, Bool.false_eq_true, if_false]
        rfl
      · refine h.rewrite hhash rfl hhash rfl rfl ?_ (fun _ _ => hsync) (fun _ _ => rfl)
          fun _ _ => rfl
        rw [← hsync, haddr]
      · rw [BlkCache.set_blkbuf, update_self]
  obtain ⟨c', hread, h', hvalid, hlist, hothers⟩ := hshown
  obtain ⟨hhash', haddr'⟩ := h'.asked i a hmem
  refine ⟨c', hread, h'.recount (fun j => SameBlock.refl _) rfl (fun j => ?_) h'.nodup h'.free
    (fun j b hin => h'.asked j b (List.mem_of_mem_erase hin)) (fun j b hb => ?_)
    (fun j hj hinvalid => (h'.loading j hj hinvalid).1) (fun j hj hclean hnone => ?_), hlist, hothers⟩
  · rw [users_enter hmem hfree, h'.count]
  · by_cases hj : j = i
    · subst hj
      rw [update_self] at hb
      cases hb
      exact ⟨hhash', haddr', hvalid⟩
    · rw [update_of_ne hj] at hb
      exact h'.holder j b hb
  · have hj' : j ≠ i := by
      rintro rfl
      rw [update_self] at hnone
      cases hnone
    rw [update_of_ne hj'] at hnone
    exact h'.clean j hj hclean hnone

/-- The holder of a buffer changes its contents. -/
theorem CacheInv.modify (h : CacheInv c disk stored waiting held) (hheld : held i = some a)
    (x : β) :
    CacheInv (c.set i { c.blkbuf i with bData := some x }) disk (update stored a x)
      waiting held := by
  obtain ⟨hhash, haddr, hvalid⟩ := h.holder i a hheld
  refine h.rewrite hhash rfl hhash hvalid rfl ?_ ?_ (fun _ _ => rfl) (fun b hb => ?_)
  · rw [haddr, update_self]
  · intro _ hnone
    rw [hheld] at hnone
    cases hnone
  · rw [haddr] at hb
    exact update_of_ne hb ..

/-- A buffer is marked dirty and given back. -/
theorem CacheInv.writeOver (h : CacheInv c disk stored waiting held) (hheld : held i = some a) :
    CacheInv (blkWriteOver c i) disk stored waiting (update held i none) := by
  obtain ⟨hhash, haddr, hvalid⟩ := h.holder i a hheld
  have hmarked : CacheInv (c.set i { c.blkbuf i with bDirty := true }) disk stored waiting held := by
    refine h.rewrite hhash rfl hhash hvalid rfl (h.valid i hvalid) ?_ (fun _ _ => rfl)
      fun _ _ => rfl
    intro hclean
    cases hclean
  refine hmarked.release hheld (.inl ?_)
  rw [BlkCache.set_blkbuf, update_self]

/-! ## Writing everything to the disk -/

/-- The loop of `blk_sync_all` writes the stored bytes, and leaves the buffers it has passed
    clean. -/
theorem CacheInv.syncLoop (is : List (Fin n)) (h : CacheInv c disk stored waiting held) :
    ∃ disk' c', blkSyncLoop is disk c = some (disk', c') ∧
      CacheInv c' disk' stored waiting held ∧
      ∀ j, (j ∈ is ∨ (c.blkbuf j).bDirty = false) → (c'.blkbuf j).bDirty = false := by
  induction is generalizing c disk with
  | nil =>
    refine ⟨disk, c, rfl, h, fun j hj => ?_⟩
    rcases hj with hj | hj
    · exact absurd hj List.not_mem_nil
    · exact hj
  | cons i is ih =>
    cases hdirty : (c.blkbuf i).bDirty with
    | false =>
      obtain ⟨disk', c', hloop, h', hclean⟩ := ih h
      refine ⟨disk', c', ?_, h', fun j hj => hclean j ?_⟩
      · rw [blkSyncLoop]
        simp only [hdirty, Bool.false_eq_true, if_false]
        exact hloop
      · rcases hj with hj | hj
        · rcases List.mem_cons.mp hj with rfl | hj
          · exact .inr hdirty
          · exact .inl hj
        · exact .inr hj
    | true =>
      have hhash : (c.blkbuf i).bHashed = true := by
        by_contra hno
        rw [Bool.not_eq_true] at hno
        rw [(h.unused i hno).2] at hdirty
        cases hdirty
      have hvalid : (c.blkbuf i).bValid = true := by
        by_contra hno
        rw [Bool.not_eq_true] at hno
        rw [(h.loading i hhash hno).2.1] at hdirty
        cases hdirty
      have hdata := h.valid i hvalid
      have hwritten : CacheInv (c.set i { c.blkbuf i with bDirty := false })
          (update disk (c.blkbuf i).addr (stored (c.blkbuf i).addr)) stored waiting held :=
        h.rewrite hhash rfl hhash hvalid rfl hdata (fun _ _ => update_self ..)
          (fun b hb => update_of_ne hb ..) fun _ _ => rfl
      obtain ⟨disk', c', hloop, h', hclean⟩ := ih hwritten
      refine ⟨disk', c', ?_, h', fun j hj => hclean j ?_⟩
      · rw [blkSyncLoop]
        simp only [hdirty, if_true]
        exact Option.bind_eq_some_iff.mpr ⟨_, hdata, hloop⟩
      · by_cases hji : j = i
        · right
          rw [hji, BlkCache.set_blkbuf, update_self]
        · rw [BlkCache.set_blkbuf, update_of_ne hji]
          rcases hj with hj | hj
          · exact .inl ((List.mem_cons.mp hj).resolve_left hji)
          · exact .inr hj

/-- After `blk_sync_all` the disk holds what is stored. -/
theorem CacheInv.syncAll (h : CacheInv c disk stored waiting held) (hfree : ∀ i, held i = none) :
    ∃ disk' c', blkSyncAll disk c = some (disk', c') ∧ CacheInv c' disk' stored waiting held ∧
      ∀ a, disk' a = stored a := by
  obtain ⟨disk', c', hloop, h', hclean⟩ := h.syncLoop (List.finRange n)
  refine ⟨disk', c', hloop, h', fun a => ?_⟩
  by_cases hcached : ∃ i, (c'.blkbuf i).bHashed = true ∧ (c'.blkbuf i).addr = a
  · obtain ⟨i, hhash, rfl⟩ := hcached
    cases hvalid : (c'.blkbuf i).bValid with
    | true => exact h'.clean i hvalid (hclean i (.inl (List.mem_finRange i))) (hfree i)
    | false => exact (h'.loading i hhash hvalid).2.2
  · exact h'.uncached a fun i hhash haddr => hcached ⟨i, hhash, haddr⟩

/-! ## Runs -/

/-- The invariant of the system. -/
structure StateInv (s : State n β) : Prop where
  cache : CacheInv s.cache s.disk s.stored s.waiting s.held
  stalled : s.stalled = []

theorem getLRUBlk_of_last (hlast : c.freeList.getLast? = some i) :
    getLRUBlk c = some ({ c with freeList := c.freeList.dropLast }, i) := by
  rw [getLRUBlk, hlast]
  rfl

theorem getblk_miss (hf : findBufferInhash c a = none) (hlast : c.freeList.getLast? = some i)
    (page : β) :
    getblk c a page = some (takeBuffer { c with freeList := c.freeList.dropLast } i a page, i) := by
  rw [getblk, hf]
  simp only [getLRUBlk_of_last hlast, Option.bind_eq_bind, Option.bind_some]
  rfl

/-- A call of `blk_read` within the condition gets a buffer, and keeps the invariant. -/
theorem CacheInv.getblk (h : CacheInv c disk stored waiting held) (page : β)
    (hc : (findBufferInhash c a).isSome = true ∨
      ∃ i, c.freeList.getLast? = some i ∧ (c.blkbuf i).bValid = false) :
    ∃ c' i, Blkbuf.getblk c a page = some (c', i) ∧
      CacheInv c' disk stored ((i, a) :: waiting) held := by
  cases hf : findBufferInhash c a with
  | some i =>
    obtain ⟨hhash, haddr⟩ := h.find_some hf
    refine ⟨hitBuffer c i, i, ?_, h.hit hhash haddr⟩
    rw [Blkbuf.getblk, hf]
  | none =>
    rcases hc with hc | ⟨i, hlast, hvalid⟩
    · rw [hf] at hc
      cases hc
    · exact ⟨_, i, getblk_miss hf hlast page,
        h.take page hlast hvalid fun j hj => h.find_none hf hj⟩

/-- One step within the condition. -/
theorem StateInv.step {s s' : State n β} {op : Op n β} (h : StateInv s) (hc : Unrecycled s op)
    (hs : Step s op s') : StateInv s' := by
  unfold Step at hs
  cases op with
  | read a page =>
    obtain ⟨c', i, hget, hinv⟩ := h.cache.getblk page hc
    rw [exec, hget] at hs
    cases hs
    exact ⟨hinv, h.stalled⟩
  | retry a page =>
    rw [exec, h.stalled, if_neg List.not_mem_nil] at hs
    cases hs
  | enter i a =>
    rw [exec] at hs
    split at hs
    · rename_i hcan
      obtain ⟨hmem, hfree⟩ := hcan
      obtain ⟨c', hread, hinv, -⟩ := h.cache.enter hmem hfree
      rw [hread] at hs
      cases hs
      exact ⟨hinv, h.stalled⟩
    · cases hs
  | modify i x =>
    rw [exec] at hs
    obtain ⟨a, hheld, hs⟩ := Option.bind_eq_some_iff.mp hs
    cases hs
    exact ⟨h.cache.modify hheld x, h.stalled⟩
  | writeOver i =>
    rw [exec] at hs
    split at hs
    · rename_i hsome
      obtain ⟨a, hheld⟩ := Option.isSome_iff_exists.mp hsome
      cases hs
      exact ⟨h.cache.writeOver hheld, h.stalled⟩
    · cases hs
  | release i =>
    rw [exec] at hs
    split at hs
    · rename_i hsome
      obtain ⟨a, hheld⟩ := Option.isSome_iff_exists.mp hsome
      cases hs
      exact ⟨h.cache.release hheld (hc a hheld), h.stalled⟩
    · cases hs
  | syncAll =>
    rw [exec] at hs
    split at hs
    · rename_i hfree
      obtain ⟨disk', c', hsync, hinv, -⟩ := h.cache.syncAll hfree
      rw [hsync] at hs
      cases hs
      exact ⟨hinv, h.stalled⟩
    · cases hs

/-! ## The start -/

/-- A buffer as the loader leaves it. -/
def zeroBuf : BlkBuf β := ⟨0, 0, false, false, false, 0, none⟩

theorem blkInitLoop_zero (is l : List (Fin n)) (t : Fin HASH_TABLE_PRIME → List (Fin n)) :
    blkInitLoop is (⟨fun _ => zeroBuf, l, t⟩ : BlkCache n β)
      = ⟨fun _ => zeroBuf, is.reverse ++ l, t⟩ := by
  induction is generalizing l with
  | nil => rfl
  | cons i is ih =>
    have hsame : update (fun _ : Fin n => (zeroBuf : BlkBuf β)) i zeroBuf
        = fun _ => zeroBuf := update_eq_self i _
    rw [blkInitLoop]
    simp only [BlkCache.set]
    rw [List.reverse_cons, List.append_assoc, List.singleton_append, ← ih (i :: l)]
    exact congrArg (fun buf => blkInitLoop is ⟨buf, i :: l, t⟩) hsame

theorem boot_cache (disk : Addr → β) : (boot n disk).cache
    = ⟨fun _ => zeroBuf, (List.finRange n).reverse, fun _ => []⟩ := by
  have hloop := @blkInitLoop_zero n β (List.finRange n) [] fun _ => []
  rw [List.append_nil] at hloop
  exact hloop

theorem boot_inv (disk : Addr → β) : StateInv (boot n disk) := by
  refine ⟨?_, rfl⟩
  rw [boot_cache]
  refine ⟨?_, ?_, fun _ _ => ⟨rfl, rfl⟩, fun _ => rfl, ?_, ?_, ?_, ?_, ?_, ?_, ?_, ?_⟩
  · intro b i
    exact ⟨fun hin => absurd hin List.not_mem_nil, fun hin => nomatch hin.1⟩
  · intro i j hi
    cases hi
  · exact List.nodup_reverse.mpr (List.nodup_finRange n)
  · intro i
    exact ⟨fun _ => rfl, fun _ => List.mem_reverse.mpr (List.mem_finRange i)⟩
  · intro i a hin
    exact absurd hin List.not_mem_nil
  · intro i a hheld
    cases hheld
  · intro i hi
    cases hi
  · intro i hi
    cases hi
  · intro i hi
    cases hi
  · intro a _
    rfl

/-! ## The claim -/

theorem StateInv.cacheOk {s : State n β} (h : StateInv s) : CacheOk s := by
  constructor
  · intro i a hheld
    obtain ⟨-, haddr, hvalid⟩ := h.cache.holder i a hheld
    rw [← haddr]
    exact h.cache.valid i hvalid
  · intro a
    by_cases hcached : ∃ i, (s.cache.blkbuf i).bHashed = true ∧ (s.cache.blkbuf i).addr = a
    · obtain ⟨i, hhash, rfl⟩ := hcached
      cases hvalid : (s.cache.blkbuf i).bValid with
      | false => exact .inl (h.cache.loading i hhash hvalid).2.2
      | true =>
        have hdata := h.cache.valid i hvalid
        cases hdirty : (s.cache.blkbuf i).bDirty with
        | true => exact .inr ⟨i, rfl, hdata, .inl hdirty⟩
        | false =>
          cases hheld : s.held i with
          | none => exact .inl (h.cache.clean i hvalid hdirty hheld)
          | some b =>
            have haddr := (h.cache.holder i b hheld).2.1
            exact .inr ⟨i, rfl, hdata, .inr (by rw [hheld, haddr])⟩
    · exact .inl (h.cache.uncached a fun i hhash haddr => hcached ⟨i, hhash, haddr⟩)

/-- The cache serves: a read within the condition gets a buffer, and holds it once its mutex is
    free; `blk_sync_all` with every mutex free leaves the stored bytes on the disk. -/
structure Serves (s : State n β) : Prop where
  asks : ∀ a page, Unrecycled s (.read a page) →
    ∃ s' i, Step s (.read a page) s' ∧ (i, a) ∈ s'.waiting
  enters : ∀ i a, (i, a) ∈ s.waiting → s.held i = none →
    ∃ s', Step s (.enter i a) s' ∧ s'.held i = some a
  syncs : (∀ i, s.held i = none) → ∃ s', Step s .syncAll s' ∧ ∀ a, s'.disk a = s'.stored a

theorem StateInv.serves {s : State n β} (h : StateInv s) : Serves s := by
  constructor
  · intro a page hc
    obtain ⟨c', i, hget, -⟩ := h.cache.getblk page hc
    refine ⟨{ s with cache := c', waiting := (i, a) :: s.waiting }, i, ?_, List.mem_cons_self⟩
    rw [Step, exec, hget]
  · intro i a hmem hfree
    obtain ⟨c', hread, -⟩ := h.cache.enter hmem hfree
    refine ⟨{ s with cache := c', waiting := s.waiting.erase (i, a),
                     held := update s.held i (some a) }, ?_, update_self ..⟩
    rw [Step, exec, if_pos ⟨hmem, hfree⟩, hread]
    rfl
  · intro hfree
    obtain ⟨disk', c', hsync, -, hall⟩ := h.cache.syncAll hfree
    refine ⟨{ s with disk := disk', cache := c' }, ?_, hall⟩
    rw [Step, exec, if_pos hfree, hsync]
    rfl

/-- In every run in which no buffer with contents is taken for another block, and a changed buffer
    is given back by `blk_write_over`, the cache is coherent and serves. -/
theorem blkCache_ok (disk : Addr → β) {s : State n β}
    (hr : Reaches Step Unrecycled (boot n disk) s) : CacheOk s ∧ Serves s := by
  have hinv : StateInv s := hr.invariant (boot_inv disk) fun a op b ha hc hs => ha.step hc hs
  exact ⟨hinv.cacheOk, hinv.serves⟩

/-! ## Filling the cache -/

variable {disk : Addr → β} {k m : Nat}

/-- The `k`-th block of the first device. -/
def block (k : Nat) : Addr := ⟨0, UInt32.ofNat k⟩

theorem block_inj {k l : Nat} (hk : k < UInt32.size) (hl : l < UInt32.size)
    (h : block k = block l) : k = l := by
  have hno : UInt32.ofNat k = UInt32.ofNat l := congrArg Addr.blkno h
  have hnat := congrArg UInt32.toNat hno
  rw [UInt32.toNat_ofNat', UInt32.toNat_ofNat', Nat.mod_eq_of_lt hk, Nat.mod_eq_of_lt hl] at hnat
  exact hnat

/-- The state in which the blocks below `k` were read and given back one after the other. -/
def filled (disk : Addr → β) (k : Nat) : State n β where
  cache :=
    { blkbuf := fun i => if i.val < k then ⟨0, UInt32.ofNat i, true, false, true, 0, some (disk (block i))⟩
        else zeroBuf
      freeList := ((List.finRange n).take k).reverse ++ ((List.finRange n).drop k).reverse
      hashBucketTable := fun b =>
        ((List.finRange n).take k).reverse.filter fun i => hashfn (block i) == b }
  disk := disk
  waiting := []
  stalled := []
  held := fun _ => none
  stored := disk

theorem filled_boot : filled disk 0 = boot n disk := by
  have hcache := boot_cache (n := n) disk
  unfold filled
  simp only [Nat.not_lt_zero, if_false, List.take_zero, List.reverse_nil, List.filter_nil,
    List.drop_zero, List.nil_append, ← hcache]
  rfl

/-- The blocks from `k` on are not cached. -/
theorem filled_find (hkm : k ≤ m) (hm : m < UInt32.size) :
    findBufferInhash (filled disk k : State n β).cache (block m) = none := by
  refine List.find?_eq_none.mpr fun i hi hfound => ?_
  have htake := List.mem_reverse.mp (List.mem_filter.mp hi).1
  obtain ⟨j, hj, rfl⟩ := List.mem_take_iff_getElem.mp htake
  have hlt : ((List.finRange n)[j]).val < k := by
    rw [List.getElem_finRange]
    show j < k
    omega
  simp only [filled, if_pos hlt, Bool.and_eq_true, beq_iff_eq] at hfound
  have heq : block (List.finRange n)[j].val = block m := congrArg (Addr.mk 0) hfound.2
  have := block_inj (by omega) hm heq
  omega

/-- The next block is read into the first buffer behind them, and given back. -/
theorem filled_next (hk : k < n) (hn : n < UInt32.size) :
    runAll exec (filled disk k : State n β) [.read (block k) (disk (block k)),
      .enter ⟨k, hk⟩ (block k), .release ⟨k, hk⟩] = some (filled disk (k + 1)) := by
  have hlen : k < (List.finRange n).length := by rw [List.length_finRange]; exact hk
  have hdrop : (List.finRange n).drop k = ⟨k, hk⟩ :: (List.finRange n).drop (k + 1) := by
    rw [List.drop_eq_getElem_cons hlen, List.getElem_finRange]
    rfl
  have htake : (List.finRange n).take (k + 1) = (List.finRange n).take k ++ [⟨k, hk⟩] := by
    rw [List.take_add_one, List.getElem?_eq_getElem hlen, List.getElem_finRange]
    rfl
  have hfree : (filled disk k : State n β).cache.freeList = (((List.finRange n).take k).reverse ++
      ((List.finRange n).drop (k + 1)).reverse) ++ [⟨k, hk⟩] := by
    rw [List.append_assoc, ← List.reverse_cons, ← hdrop]
    rfl
  have hlast : (filled disk k : State n β).cache.freeList.getLast? = some ⟨k, hk⟩ := by
    rw [hfree, List.getLast?_concat]
  have hmiss : findBufferInhash (filled disk k : State n β).cache (block k) = none :=
    filled_find (Nat.le_refl k) (by omega)
  have hget := getblk_miss hmiss hlast (disk (block k))
  have hbuf : (filled disk k : State n β).cache.blkbuf ⟨k, hk⟩ = ⟨0, 0, false, false, false, 0, none⟩ :=
    if_neg (Nat.lt_irrefl k)
  have hheld : (filled disk k : State n β).held ⟨k, hk⟩ = none := rfl
  have hwait : (filled disk k : State n β).waiting = [] := rfl
  have hnew : filled disk (k + 1) = { (filled disk k : State n β) with
      cache :=
        { blkbuf := update (filled disk k).cache.blkbuf ⟨k, hk⟩
            ⟨0, UInt32.ofNat k, true, false, true, 0, some (disk (block k))⟩
          freeList := ⟨k, hk⟩ :: (filled disk k).cache.freeList.dropLast
          hashBucketTable := update (filled disk k).cache.hashBucketTable
            (hashfn (block k))
            (⟨k, hk⟩ :: (filled disk k).cache.hashBucketTable (hashfn (block k))) } } := by
    rw [hfree, List.dropLast_concat]
    unfold filled
    rw [htake, List.reverse_append, List.reverse_singleton, List.singleton_append]
    congr 2
    · funext j
      by_cases hj : j = ⟨k, hk⟩
      · subst hj
        rw [update_self, if_pos (Nat.lt_succ_self k)]
      · have hjk : j.val ≠ k := fun heq => hj (Fin.ext heq)
        rw [update_of_ne hj]
        exact if_congr (by omega) rfl rfl
    · funext b
      by_cases hb : b = hashfn (block k)
      · subst hb
        rw [update_self]
        exact List.filter_cons_of_pos (beq_self_eq_true (hashfn (block k)))
      · rw [update_of_ne hb, List.filter_cons_of_neg]
        rw [beq_iff_eq]
        exact fun heq => hb heq.symm
  simp [runAll, exec, hget, takeBuffer, rmoldThenInsertNewhash, blkReadLocked, blkRelease, hbuf,
    hheld, hwait, hnew]
  rfl

theorem filled_reaches (hn : n < UInt32.size) (hk : k ≤ n) :
    Reaches Step anyInput (boot n disk) (filled disk k) := by
  induction k with
  | zero =>
    rw [filled_boot]
    exact .refl
  | succ k ih =>
    exact (ih (by omega)).trans (runAll_reaches (fun _ _ _ h => ⟨trivial, h⟩) (filled_next hk hn))

/-- With a full cache, a read of another block is served with the bytes of the first. -/
theorem filled_recycle (hn : n < UInt32.size) (h0 : 0 < n) :
    ∃ s : State n β, runAll exec (filled disk n) [.read (block n) (disk (block n)),
      .enter ⟨0, h0⟩ (block n)] = some s ∧ s.held ⟨0, h0⟩ = some (block n) ∧
      (s.cache.blkbuf ⟨0, h0⟩).bData = some (disk (block 0)) ∧ s.stored = disk := by
  have hlast : (filled disk n : State n β).cache.freeList.getLast? = some ⟨0, h0⟩ := by
    show (((List.finRange n).take n).reverse ++ ((List.finRange n).drop n).reverse).getLast? = _
    rw [List.take_of_length_le (by rw [List.length_finRange]),
      List.drop_of_length_le (by rw [List.length_finRange]), List.reverse_nil, List.append_nil,
      List.getLast?_reverse, List.head?_eq_getElem?,
      List.getElem?_eq_getElem (by rw [List.length_finRange]; exact h0), List.getElem_finRange]
    rfl
  have hmiss : findBufferInhash (filled disk n : State n β).cache (block n) = none :=
    filled_find (Nat.le_refl n) hn
  have hget := getblk_miss hmiss hlast (disk (block n))
  have hbuf : (filled disk n : State n β).cache.blkbuf ⟨0, h0⟩
      = ⟨0, 0, true, false, true, 0, some (disk (block 0))⟩ := if_pos h0
  have hheld : (filled disk n : State n β).held ⟨0, h0⟩ = none := rfl
  -- the name was overwritten, so there is nothing to write back, and the buffer is still valid
  simp [runAll, exec, hget, takeBuffer, rmoldThenInsertNewhash, blkReadLocked, hbuf, hheld]
  rfl

/-- The contents of a block of the disk. -/
abbrev Block := Fin BLKSIZE → UInt8

/-- All the buffers are used once, and then one block more is read: its bytes on the disk differ
    from those of all the others, and it is served with the bytes of another block. -/
theorem blkCache_recycled :
    ∃ (disk : Addr → Block) (s : State NBBUF Block), Reaches Step anyInput (boot NBBUF disk) s ∧
      ¬ CacheOk s := by
  have hn : NBBUF < UInt32.size := by decide
  let disk : Addr → Block := fun a _ => if a = block NBBUF then 1 else 0
  obtain ⟨s, hrun, hheld, hdata, hstored⟩ := @filled_recycle _ _ disk hn (by decide)
  refine ⟨disk, s, (filled_reaches hn (Nat.le_refl _)).trans
    (runAll_reaches (fun _ _ _ h => ⟨trivial, h⟩) hrun), fun hok => ?_⟩
  have hright := hok.read _ _ hheld
  rw [hdata, hstored] at hright
  have hne : block 0 ≠ block NBBUF := by decide
  have hbyte : (if block 0 = block NBBUF then (1 : UInt8) else 0)
      = if block NBBUF = block NBBUF then 1 else 0 := congrFun (some.inj hright) 0
  rw [if_neg hne, if_pos rfl] at hbyte
  exact absurd hbyte (by decide)

/-- A test of `Unrecycled`. -/
def unrecycled (s : State n Nat) : Op n Nat → Bool
  | .read a _ => (findBufferInhash s.cache a).isSome ||
      s.cache.freeList.getLast?.any fun i => !(s.cache.blkbuf i).bValid
  | .release i => (s.held i).all fun a =>
      (s.cache.blkbuf i).bDirty || (s.cache.blkbuf i).bData == some (s.disk a)
  | _ => true

theorem unrecycled_sound (s : State n Nat) (op : Op n Nat) (h : unrecycled s op = true) :
    Unrecycled s op := by
  cases op with
  | read a page =>
    simp only [unrecycled, Bool.or_eq_true, Option.any_eq_true, Bool.not_eq_true'] at h
    exact h
  | release i =>
    intro a ha
    simp only [unrecycled, ha, Option.all_some, Bool.or_eq_true, beq_iff_eq] at h
    exact h
  | _ => trivial

/-- One block is written and synchronised, another one is written, and the first is read again:
    what was written first is on the disk, what was written then is not yet. -/
theorem blkCache_ok_written : ∃ s : State 2 Nat, s.held 0 = some ⟨0, 1⟩ ∧
    s.disk ⟨0, 1⟩ = 7 ∧ s.disk ⟨0, 2⟩ = 0 ∧ s.stored ⟨0, 2⟩ = 5 ∧ CacheOk s ∧ Serves s := by
  have hrun : Leads (tested unrecycled exec) (boot 2 fun _ => 0)
      [.read ⟨0, 1⟩ 0, .enter 0 ⟨0, 1⟩, .modify 0 7, .writeOver 0, .syncAll,
        .read ⟨0, 2⟩ 0, .enter 1 ⟨0, 2⟩, .modify 1 5, .writeOver 1,
        .read ⟨0, 1⟩ 0, .enter 0 ⟨0, 1⟩] fun s =>
      s.held 0 = some ⟨0, 1⟩ ∧ s.disk ⟨0, 1⟩ = 7 ∧ s.disk ⟨0, 2⟩ = 0 ∧ s.stored ⟨0, 2⟩ = 5 := by
    decide +kernel
  obtain ⟨s, hreach, hheld, hone, htwo, hstored⟩ :=
    hrun.reaches Step _ (tested_step unrecycled_sound fun _ _ _ h => h)
  exact ⟨s, hheld, hone, htwo, hstored, blkCache_ok (fun _ => 0) hreach⟩

end Uniks.Blkbuf
