/-
  When `blkdev_read` and `blkdev_write` move the right bytes.

  Neither loop advances `buf`, so a transfer over several blocks puts every block at the same
  place of the user buffer (or takes every block from it).  Within one block two more things go
  wrong, both in the cache: a recycled buffer keeps its `b_valid` and loses what it held, and a
  block that is written as a whole goes into a buffer that `blk_read` never filled and that is
  not marked valid, so that the next read discards it.

  `Well` is what the cache always satisfies, also after the wrong transfers (`well_of_calls`).
  Each call is then walked once: `Fetched` says what a buffer and the rest of the cache are like
  when `getblk` or `blk_read` returns, and the two exact conditions are read off from it.
-/
import Uniks.BlkDev
import Uniks.BlkbufInv

namespace Uniks.BlkDev

open Uniks.Blkbuf Uniks.ByteMem Uniks.Runs
open Function (update update_idem update_self update_apply update_of_ne)
open Option (some)

variable {n : Nat}

/-! ## The cache -/

/-- A cache whose buckets hold exactly the hashed buffers, no block twice. -/
structure Well (c : BlkCache n Bytes) : Prop where
  bucket : ∀ b i, i ∈ c.hashBucketTable b ↔
    (c.blkbuf i).bHashed = true ∧ hashfn (c.blkbuf i).addr = b
  once : ∀ b, (c.hashBucketTable b).Nodup
  unique : ∀ i j, (c.blkbuf i).bHashed = true → (c.blkbuf j).bHashed = true →
    (c.blkbuf i).addr = (c.blkbuf j).addr → i = j
  page : ∀ i, (c.blkbuf i).bHashed = true → (c.blkbuf i).bData.isSome = true
  valid : ∀ i, (c.blkbuf i).bValid = true → (c.blkbuf i).bHashed = true
  within : ∀ i, (c.blkbuf i).bHashed = true → (c.blkbuf i).bBlkno.toNat * BLKSIZE < deviceSize

variable {c c' : BlkCache n Bytes} {io io' : Io n} {i j : Fin n} {a a' : Addr}

theorem Well.find_eq_some (h : Well c) :
    findBufferInhash c a = some i ↔ (c.blkbuf i).bHashed = true ∧ (c.blkbuf i).addr = a := by
  constructor
  · intro hf
    have hmem := List.mem_of_find?_eq_some hf
    have hmatch := List.find?_some hf
    rw [Bool.and_eq_true, beq_iff_eq, beq_iff_eq] at hmatch
    exact ⟨((h.bucket _ i).mp hmem).1, addr_eq_iff.mpr hmatch⟩
  · rintro ⟨hhash, haddr⟩
    have hmem : i ∈ c.hashBucketTable (hashfn a) := (h.bucket _ i).mpr ⟨hhash, by rw [haddr]⟩
    have hmatch : ((c.blkbuf i).bDev == a.dev && (c.blkbuf i).bBlkno == a.blkno) = true := by
      rw [Bool.and_eq_true, beq_iff_eq, beq_iff_eq]
      exact addr_eq_iff.mp haddr
    have hsome : (findBufferInhash c a).isSome = true := List.find?_isSome.mpr ⟨i, hmem, hmatch⟩
    obtain ⟨k, hk⟩ := Option.isSome_iff_exists.mp hsome
    have hkmem := (h.bucket _ k).mp (List.mem_of_find?_eq_some hk)
    have hkmatch := List.find?_some hk
    rw [Bool.and_eq_true, beq_iff_eq, beq_iff_eq] at hkmatch
    have hki : k = i := h.unique k i hkmem.1 hhash (by rw [addr_eq_iff.mpr hkmatch, haddr])
    rw [← hki]
    exact hk

theorem Well.find_eq_none (h : Well c) :
    findBufferInhash c a = none ↔ ∀ i, (c.blkbuf i).bHashed = true → (c.blkbuf i).addr ≠ a := by
  constructor
  · intro hf i hhash haddr
    rw [h.find_eq_some.mpr ⟨hhash, haddr⟩] at hf
    cases hf
  · intro hno
    cases hf : findBufferInhash c a with
    | none => rfl
    | some i =>
      obtain ⟨hhash, haddr⟩ := h.find_eq_some.mp hf
      exact absurd haddr (hno i hhash)

/-- One buffer changes, but neither its name nor the buckets. -/
theorem Well.setBuf (h : Well c) {bb : BlkBuf Bytes}
    (htable : c'.hashBucketTable = c.hashBucketTable)
    (hbuf : c'.blkbuf = update c.blkbuf i bb)
    (hhash : bb.bHashed = (c.blkbuf i).bHashed) (haddr : bb.addr = (c.blkbuf i).addr)
    (hpage : (c.blkbuf i).bHashed = true → bb.bData.isSome = true)
    (hvalid : bb.bValid = true → (c.blkbuf i).bHashed = true) : Well c' := by
  have hkeep (P : BlkBuf Bytes → BlkBuf Bytes → Prop) (hP : P bb (c.blkbuf i))
      (hrefl : ∀ j, P (c.blkbuf j) (c.blkbuf j)) (j : Fin n) :
      P (c'.blkbuf j) (c.blkbuf j) := by
    rw [hbuf]
    by_cases hj : j = i
    · subst hj
      rw [update_self]
      exact hP
    · rw [update_of_ne hj]
      exact hrefl j
  have hash : ∀ j, (c'.blkbuf j).bHashed = (c.blkbuf j).bHashed :=
    hkeep (fun x y => x.bHashed = y.bHashed) hhash fun _ => rfl
  have addr : ∀ j, (c'.blkbuf j).addr = (c.blkbuf j).addr :=
    hkeep (fun x y => x.addr = y.addr) haddr fun _ => rfl
  refine ⟨?_, ?_, ?_, ?_, ?_, ?_⟩
  · intro b j
    rw [htable, hash, addr]
    exact h.bucket b j
  · intro b
    rw [htable]
    exact h.once b
  · intro i j hi hj hij
    rw [hash] at hi hj
    rw [addr, addr] at hij
    exact h.unique i j hi hj hij
  · intro j hj
    rw [hash] at hj
    exact hkeep (fun x y => y.bHashed = true → x.bData.isSome = true) hpage h.page j hj
  · intro j hj
    rw [hash]
    exact hkeep (fun x y => x.bValid = true → y.bHashed = true) hvalid h.valid j hj
  · intro j hj
    rw [hash] at hj
    have hno : (c'.blkbuf j).addr.blkno = (c.blkbuf j).addr.blkno := by rw [addr]
    have hlt := h.within j hj
    rw [show (c'.blkbuf j).bBlkno = (c.blkbuf j).bBlkno from hno]
    exact hlt

/-- The buffer at the end of the free list is given to another block. -/
theorem Well.take (h : Well c) (page : Bytes) (ha : a.blkno.toNat * BLKSIZE < deviceSize)
    (hnew : ∀ j, (c.blkbuf j).bHashed = true → (c.blkbuf j).addr ≠ a) :
    Well (takeBuffer { c with freeList := c.freeList.dropLast } i a page) := by
  obtain ⟨c', hc'⟩ : ∃ c', c' = takeBuffer { c with freeList := c.freeList.dropLast } i a page :=
    ⟨_, rfl⟩
  rw [← hc']
  have hself : c'.blkbuf i = { c.blkbuf i with
      bHashed := true, bDev := a.dev, bBlkno := a.blkno, bCount := (c.blkbuf i).bCount + 1,
      bData := some ((c.blkbuf i).bData.getD page) } := by
    rw [hc']
    exact takeBuffer_self _ i a page
  have hother : ∀ j, j ≠ i → c'.blkbuf j = c.blkbuf j := by
    intro j hj
    rw [hc']
    exact takeBuffer_of_ne _ a page hj
  have haddr : (c'.blkbuf i).addr = a := by
    rw [hself]
    rfl
  -- the buckets once `i` is unlinked from the one it was in
  obtain ⟨t, ht⟩ : ∃ t, t = (if (c.blkbuf i).bHashed then
      fun b => (c.hashBucketTable b).erase i else c.hashBucketTable) := ⟨_, rfl⟩
  have htable : c'.hashBucketTable = update t (hashfn a) (i :: t (hashfn a)) := by
    rw [hc', ht]
    simp only [takeBuffer, rmoldThenInsertNewhash, BlkCache.set_hashBucketTable]
  have hmem : ∀ b j, j ∈ t b ↔ j ≠ i ∧ j ∈ c.hashBucketTable b := by
    intro b j
    rw [ht]
    split
    · exact (h.once b).mem_erase_iff
    · rename_i hhash
      constructor
      · intro hj
        refine ⟨?_, hj⟩
        rintro rfl
        exact hhash ((h.bucket b j).mp hj).1
      · exact fun hj => hj.2
  have hnodup : ∀ b, (t b).Nodup := by
    intro b
    rw [ht]
    split
    · exact (h.once b).erase i
    · exact h.once b
  refine ⟨?_, ?_, ?_, ?_, ?_, ?_⟩
  · intro b j
    rw [htable, update_apply]
    by_cases hj : j = i
    · subst hj
      rw [haddr, hself]
      split
      · rename_i hb
        exact ⟨fun _ => ⟨rfl, hb.symm⟩, fun _ => List.mem_cons_self⟩
      · rename_i hb
        exact ⟨fun hin => absurd rfl ((hmem b j).mp hin).1, fun hin => absurd hin.2.symm hb⟩
    · rw [hother j hj, ← h.bucket b j]
      split
      · rename_i hb
        rw [hb, List.mem_cons, hmem]
        exact ⟨fun hin => (hin.resolve_left hj).2, fun hin => .inr ⟨hj, hin⟩⟩
      · rw [hmem]
        exact ⟨fun hin => hin.2, fun hin => ⟨hj, hin⟩⟩
  · intro b
    rw [htable, update_apply]
    split
    · refine List.nodup_cons.mpr ⟨?_, hnodup _⟩
      exact fun hin => absurd rfl ((hmem _ i).mp hin).1
    · exact hnodup b
  · exact unique_of_new haddr hother hnew h.unique
  · intro j hj
    by_cases hji : j = i
    · rw [hji, hself]
      rfl
    · rw [hother j hji] at hj ⊢
      exact h.page j hj
  · intro j hj
    by_cases hji : j = i
    · rw [hji, hself]
    · rw [hother j hji] at hj ⊢
      exact h.valid j hj
  · intro j hj
    by_cases hji : j = i
    · rw [hji, hself]
      exact ha
    · rw [hother j hji] at hj ⊢
      exact h.within j hj

/-! ## What the small functions do to the buffers -/

theorem hitBuffer_table (c : BlkCache n Bytes) (i : Fin n) :
    (hitBuffer c i).hashBucketTable = c.hashBucketTable := by
  simp only [hitBuffer]
  split <;> rfl

theorem hitBuffer_blkbuf (c : BlkCache n Bytes) (i : Fin n) :
    (hitBuffer c i).blkbuf = update c.blkbuf i
      { c.blkbuf i with bCount := (c.blkbuf i).bCount + 1 } := by
  simp only [hitBuffer]
  split <;> rfl

theorem blkRelease_table (c : BlkCache n Bytes) (i : Fin n) :
    (blkRelease c i).hashBucketTable = c.hashBucketTable := by
  simp only [blkRelease]
  split <;> rfl

theorem blkRelease_blkbuf (c : BlkCache n Bytes) (i : Fin n) :
    (blkRelease c i).blkbuf = update c.blkbuf i
      { c.blkbuf i with bCount := (c.blkbuf i).bCount - 1 } := by
  simp only [blkRelease]
  split <;> rfl

theorem blkWriteOver_table (c : BlkCache n Bytes) (i : Fin n) :
    (blkWriteOver c i).hashBucketTable = c.hashBucketTable := by
  rw [blkWriteOver, blkRelease_table, BlkCache.set_hashBucketTable]

theorem blkWriteOver_blkbuf (c : BlkCache n Bytes) (i : Fin n) :
    (blkWriteOver c i).blkbuf = update c.blkbuf i
      { c.blkbuf i with bDirty := true, bCount := (c.blkbuf i).bCount - 1 } := by
  rw [blkWriteOver, blkRelease_blkbuf, BlkCache.set_blkbuf, update_self,
    update_idem]

/-- The test for a write-back compares the buffer with the block it has just been given. -/
theorem blkReadLocked_eq (disk : Addr → Bytes) (haddr : (c.blkbuf i).addr = a) :
    blkReadLocked disk c i a = some (disk,
      if (c.blkbuf i).bValid then c
      else c.set i { c.blkbuf i with bData := some (disk a), bValid := true }) := by
  obtain ⟨hdev, hno⟩ := addr_eq_iff.mp haddr
  unfold blkReadLocked
  simp only [hdev, hno, bne_self_eq_false, Bool.and_false, Bool.false_eq_true,
    if_false]
  split <;> rfl

/-! ## One buffer is for a block -/

/-- The call has got hold of buffer `i` for the block `a`. -/
structure Fetched (io io' : Io n) (i : Fin n) (a : Addr) : Prop where
  well : Well io'.cache
  disk : io'.disk = io.disk
  syncing : io'.syncing = io.syncing
  others : ∀ j, j ≠ i → io'.cache.blkbuf j = io.cache.blkbuf j
  hashed : (io'.cache.blkbuf i).bHashed = true
  addr : (io'.cache.blkbuf i).addr = a

theorem Fetched.find (h : Fetched io io' i a) : findBufferInhash io'.cache a = some i :=
  h.well.find_eq_some.mpr ⟨h.hashed, h.addr⟩

theorem Fetched.blockNow_self (h : Fetched io io' i a) : blockNow io' a = served io' a i := by
  rw [blockNow, h.find]

/-- All other blocks are as they were, but for the one the buffer was taken from. -/
theorem Fetched.blockNow_of_ne (h : Fetched io io' i a) (hw : Well io.cache) (hne : a' ≠ a) :
    blockNow io' a' =
      if (io.cache.blkbuf i).bHashed = true ∧ (io.cache.blkbuf i).addr = a' then io.disk a'
      else blockNow io a' := by
  cases hf : findBufferInhash io.cache a' with
  | none =>
    have hno := hw.find_eq_none.mp hf
    have hnone : findBufferInhash io'.cache a' = none := by
      refine h.well.find_eq_none.mpr fun j hj => ?_
      by_cases hji : j = i
      · rw [hji, h.addr]
        exact hne.symm
      · rw [h.others j hji] at hj ⊢
        exact hno j hj
    rw [if_neg fun hc => hno i hc.1 hc.2, blockNow, blockNow, hnone, hf, h.disk]
  | some k =>
    obtain ⟨hhash, haddr⟩ := hw.find_eq_some.mp hf
    by_cases hki : k = i
    · subst hki
      have hnone : findBufferInhash io'.cache a' = none := by
        refine h.well.find_eq_none.mpr fun j hj hja => ?_
        by_cases hjk : j = k
        · rw [hjk, h.addr] at hja
          exact hne hja.symm
        · rw [h.others j hjk] at hj hja
          exact hjk (hw.unique j k hj hhash (hja.trans haddr.symm))
      rw [if_pos ⟨hhash, haddr⟩, blockNow, hnone, h.disk]
    · have hsome : findBufferInhash io'.cache a' = some k := by
        refine h.well.find_eq_some.mpr ?_
        rw [h.others k hki]
        exact ⟨hhash, haddr⟩
      have hno : ¬ ((io.cache.blkbuf i).bHashed = true ∧ (io.cache.blkbuf i).addr = a') :=
        fun hc => hki (hw.unique k i hhash hc.1 (haddr.trans hc.2.symm))
      rw [if_neg hno, blockNow, blockNow, hsome, hf]
      show served io' a' k = served io a' k
      rw [served, served, h.others k hki, h.disk]

/-- The buffer in hand changes, but neither its name nor the buckets. -/
theorem Fetched.setBuf (h : Fetched io io' i a) {bb : BlkBuf Bytes}
    (htable : c'.hashBucketTable = io'.cache.hashBucketTable)
    (hbuf : c'.blkbuf = update io'.cache.blkbuf i bb)
    (hhash : bb.bHashed = (io'.cache.blkbuf i).bHashed)
    (haddr : bb.addr = (io'.cache.blkbuf i).addr) (hpage : bb.bData.isSome = true) :
    Fetched io { io' with cache := c' } i a := by
  refine ⟨?_, h.disk, h.syncing, ?_, ?_, ?_⟩
  · exact h.well.setBuf htable hbuf hhash haddr (fun _ => hpage) fun _ => h.hashed
  · intro j hj
    show c'.blkbuf j = _
    rw [hbuf, update_of_ne hj]
    exact h.others j hj
  · show (c'.blkbuf i).bHashed = true
    rw [hbuf, update_self, hhash]
    exact h.hashed
  · show (c'.blkbuf i).addr = a
    rw [hbuf, update_self, haddr]
    exact h.addr

/-- What `getblk` returns with: the buffer keeps its flag, and its bytes if it has any. -/
theorem getblk_spec (hw : Well io.cache) (ha : a.blkno.toNat * BLKSIZE < deviceSize)
    (ht : target io a = some i) :
    ∃ io' data, getblk io a = some (io', i) ∧ Fetched io io' i a ∧ io'.user = io.user ∧
      (io'.cache.blkbuf i).bData = some data ∧
      (io'.cache.blkbuf i).bValid = (io.cache.blkbuf i).bValid ∧
      ((io.cache.blkbuf i).bValid = true → data = served io a i) := by
  cases hf : findBufferInhash io.cache a with
  | some k =>
    rw [target, hf] at ht
    obtain rfl := some.inj ht
    obtain ⟨hhash, haddr⟩ := hw.find_eq_some.mp hf
    obtain ⟨data, hdata⟩ := Option.isSome_iff_exists.mp (hw.page k hhash)
    have hbuf := hitBuffer_blkbuf io.cache k
    refine ⟨{ io with cache := hitBuffer io.cache k }, data, ?_, ?_, rfl, ?_, ?_, ?_⟩
    · rw [getblk, hf]
    · refine ⟨?_, rfl, rfl, ?_, ?_, ?_⟩
      · exact hw.setBuf (hitBuffer_table _ k) hbuf rfl rfl (hw.page k) (hw.valid k)
      · intro j hj
        show (hitBuffer io.cache k).blkbuf j = _
        rw [hbuf, update_of_ne hj]
      · show ((hitBuffer io.cache k).blkbuf k).bHashed = true
        rw [hbuf, update_self]
        exact hhash
      · show ((hitBuffer io.cache k).blkbuf k).addr = a
        rw [hbuf, update_self]
        exact haddr
    · show ((hitBuffer io.cache k).blkbuf k).bData = _
      rw [hbuf, update_self]
      exact hdata
    · show ((hitBuffer io.cache k).blkbuf k).bValid = _
      rw [hbuf, update_self]
    · intro hv
      rw [served, if_pos hv, hdata, Option.getD_some]
  | none =>
    rw [target, hf, Option.filter_eq_some_iff] at ht
    obtain ⟨hlast, hpage⟩ := ht
    obtain ⟨⟨page, pages⟩, hpage⟩ := Option.isSome_iff_exists.mp hpage
    have hself := takeBuffer_self { io.cache with freeList := io.cache.freeList.dropLast } i a page
    refine ⟨{ io with
      cache := takeBuffer { io.cache with freeList := io.cache.freeList.dropLast } i a page,
      pages := pages }, (io.cache.blkbuf i).bData.getD page, ?_, ?_, rfl, ?_, ?_, ?_⟩
    · simp only [getblk, hf, getLRUBlk_of_last hlast, hpage, Option.bind_eq_bind, Option.bind_some,
        Option.pure_def]
    · refine ⟨hw.take page ha (hw.find_eq_none.mp hf), rfl, rfl, ?_, ?_, ?_⟩
      · exact fun j hj => takeBuffer_of_ne _ a page hj
      · rw [hself]
      · rw [hself]
        rfl
    · rw [hself]
    · rw [hself]
    · intro hv
      obtain ⟨data, hdata⟩ := Option.isSome_iff_exists.mp (hw.page i (hw.valid i hv))
      rw [served, if_pos hv, hdata, Option.getD_some, Option.getD_some]

theorem getblk_none (ht : target io a = none) : getblk io a = none := by
  cases hf : findBufferInhash io.cache a with
  | some k =>
    rw [target, hf] at ht
    cases ht
  | none =>
    rw [target, hf] at ht
    cases hlast : io.cache.freeList.getLast? with
    | none =>
      simp only [getblk, hf, getLRUBlk, hlast, Option.bind_eq_bind, Option.bind_none]
    | some i =>
      rw [hlast, Option.filter_some] at ht
      have hpage : bufferPage io i = none := by
        by_contra hne
        rw [if_pos (Option.isSome_iff_ne_none.mpr hne)] at ht
        cases ht
      simp only [getblk, hf, getLRUBlk_of_last hlast, hpage, Option.bind_eq_bind, Option.bind_some,
        Option.bind_none]

/-- What `blk_read` returns with. -/
theorem blkRead_spec (hw : Well io.cache) (ha : a.blkno.toNat * BLKSIZE < deviceSize)
    (ht : target io a = some i) :
    ∃ io', blkRead io a = some (io', i) ∧ Fetched io io' i a ∧ io'.user = io.user ∧
      (io'.cache.blkbuf i).bData = some (served io a i) ∧
      (io'.cache.blkbuf i).bValid = true := by
  obtain ⟨io₁, data, hget, hfetch, huser, hdata, hvalid, hserved⟩ := getblk_spec hw ha ht
  have hread := blkReadLocked_eq io₁.disk hfetch.addr
  by_cases hv : (io.cache.blkbuf i).bValid = true
  · rw [if_pos (hvalid.trans hv)] at hread
    refine ⟨io₁, ?_, hfetch, huser, ?_, hvalid.trans hv⟩
    · simp only [blkRead, hget, hread, Option.bind_eq_bind, Option.bind_some, Option.pure_def]
    · rw [hdata, hserved hv]
  · rw [hvalid, if_neg hv] at hread
    obtain ⟨bb, hbb⟩ : ∃ bb, bb = { io₁.cache.blkbuf i with
      bData := some (io₁.disk a), bValid := true } := ⟨_, rfl⟩
    rw [← hbb] at hread
    refine ⟨{ io₁ with cache := io₁.cache.set i bb }, ?_, ?_, huser, ?_, ?_⟩
    · simp only [blkRead, hget, hread, Option.bind_eq_bind, Option.bind_some, Option.pure_def]
    · refine hfetch.setBuf rfl
        (show (io₁.cache.set i bb).blkbuf = update io₁.cache.blkbuf i bb from rfl) ?_ ?_ ?_
      · rw [hbb]
      · rw [hbb]
        rfl
      · rw [hbb]
        rfl
    · show (update io₁.cache.blkbuf i bb i).bData = _
      rw [update_self, hbb, served, if_neg hv, hfetch.disk]
    · show (update io₁.cache.blkbuf i bb i).bValid = _
      rw [update_self, hbb]

theorem blkRead_none (ht : target io a = none) : blkRead io a = none := by
  simp only [blkRead, getblk_none ht, Option.bind_eq_bind, Option.bind_none]

/-- What a round of `blkdev_write` has in hand before it copies: the filled block, or for one that
    is written as a whole a buffer whose flag is as it was. -/
theorem writeBuffer_spec (hw : Well io.cache) (ha : a.blkno.toNat * BLKSIZE < deviceSize)
    (ht : target io a = some i) (bytes : Nat) :
    ∃ io' data, writeBuffer io a bytes = some (io', i) ∧ Fetched io io' i a ∧
      io'.user = io.user ∧ (io'.cache.blkbuf i).bData = some data ∧
      (bytes = BLKSIZE → (io'.cache.blkbuf i).bValid = (io.cache.blkbuf i).bValid) ∧
      (bytes ≠ BLKSIZE → data = served io a i ∧ (io'.cache.blkbuf i).bValid = true) := by
  unfold writeBuffer
  by_cases hfull : bytes = BLKSIZE
  · rw [if_pos hfull]
    obtain ⟨io', data, hget, hfetch, huser, hdata, hvalid, -⟩ := getblk_spec hw ha ht
    exact ⟨io', data, hget, hfetch, huser, hdata, fun _ => hvalid, fun hne => absurd hfull hne⟩
  · rw [if_neg hfull]
    obtain ⟨io', hread, hfetch, huser, hdata, hvalid⟩ := blkRead_spec hw ha ht
    exact ⟨io', _, hread, hfetch, huser, hdata, fun he => absurd he hfull, fun _ => ⟨rfl, hvalid⟩⟩

theorem writeBuffer_none (ht : target io a = none) (bytes : Nat) :
    writeBuffer io a bytes = none := by
  unfold writeBuffer
  split
  · exact getblk_none ht
  · exact blkRead_none ht

/-! ## One round of the loops -/

theorem blockAt_blkno {b : Nat} (dev : UInt32) (hb : b * BLKSIZE < deviceSize) :
    (blockAt dev b).blkno.toNat = b := by
  change b * 4096 < 2199023255552 at hb
  have hlt : b < UInt32.size := by
    show b < 4294967296
    omega
  exact UInt32.toNat_ofNat_of_lt' hlt

theorem blockAt_within {b : Nat} (dev : UInt32) (hb : b * BLKSIZE < deviceSize) :
    (blockAt dev b).blkno.toNat * BLKSIZE < deviceSize := by
  rw [blockAt_blkno dev hb]
  exact hb

variable {dev : UInt32} {buf blkNo count cnt pos : Nat} {offset : Fin BLKSIZE} {r : Int}

/-- One round of `blkdev_read`: the bytes of the block are copied to `buf`. -/
theorem readLoop_round (io : Io n) (buf count : Nat) (offset : Fin BLKSIZE) (hw : Well io.cache)
    (hb : blkNo * BLKSIZE < deviceSize)
    (ht : target io (blockAt dev blkNo) = some i) (hcnt : 0 < cnt) :
    ∃ io', blkdevReadLoop io dev buf blkNo offset count cnt =
        blkdevReadLoop io' dev buf (blkNo + 1) 0 (count + roundBytes offset cnt)
          (cnt - roundBytes offset cnt) ∧
      Fetched io io' i (blockAt dev blkNo) ∧
      io'.user = splice io.user buf (roundBytes offset cnt)
        (fun k => served io (blockAt dev blkNo) i (offset + k)) := by
  obtain ⟨io₁, hread, hfetch, huser, hdata, -⟩ := blkRead_spec hw (blockAt_within dev hb) ht
  have hrel := hfetch.setBuf (blkRelease_table io₁.cache i) (blkRelease_blkbuf io₁.cache i) rfl rfl
    (Option.isSome_iff_exists.mpr ⟨_, hdata⟩)
  obtain ⟨user, hnew⟩ : ∃ user, user = splice io₁.user buf (roundBytes offset cnt)
    (fun k => served io (blockAt dev blkNo) i (offset + k)) := ⟨_, rfl⟩
  refine ⟨{ io₁ with user := user, cache := blkRelease io₁.cache i }, ?_, ?_, ?_⟩
  · rw [blkdevReadLoop, if_pos hcnt, hnew]
    simp only [hread, hdata, Option.bind_eq_bind, Option.bind_some]
  · exact ⟨hrel.well, hrel.disk, hrel.syncing, hrel.others, hrel.hashed, hrel.addr⟩
  · rw [← huser]
    exact hnew

/-- One round of `blkdev_write`: the bytes at `buf` are copied into the block. -/
theorem writeLoop_round (io : Io n) (buf count : Nat) (offset : Fin BLKSIZE) (hw : Well io.cache)
    (hb : blkNo * BLKSIZE < deviceSize)
    (ht : target io (blockAt dev blkNo) = some i) (hcnt : 0 < cnt) :
    ∃ io' data, blkdevWriteLoop io dev buf blkNo offset count cnt =
        blkdevWriteLoop io' dev buf (blkNo + 1) 0 (count + roundBytes offset cnt)
          (cnt - roundBytes offset cnt) ∧
      Fetched io io' i (blockAt dev blkNo) ∧
      (io'.cache.blkbuf i).bData =
        some (splice data offset (roundBytes offset cnt) fun k => io.user (buf + k)) ∧
      (roundBytes offset cnt = BLKSIZE →
        (io'.cache.blkbuf i).bValid = (io.cache.blkbuf i).bValid) ∧
      (roundBytes offset cnt ≠ BLKSIZE →
        data = served io (blockAt dev blkNo) i ∧ (io'.cache.blkbuf i).bValid = true) := by
  obtain ⟨io₁, data, hbuf, hfetch, huser, hdata, hfull, hpart⟩ :=
    writeBuffer_spec hw (blockAt_within dev hb) ht (roundBytes offset cnt)
  obtain ⟨new, hnew⟩ : ∃ new, new = splice data offset (roundBytes offset cnt)
    (fun k => io.user (buf + k)) := ⟨_, rfl⟩
  obtain ⟨c', hc'⟩ : ∃ c', c' = blkWriteOver
    (io₁.cache.set i { io₁.cache.blkbuf i with bData := some new }) i := ⟨_, rfl⟩
  have hblk : c'.blkbuf = update io₁.cache.blkbuf i { io₁.cache.blkbuf i with
      bData := some new, bDirty := true, bCount := (io₁.cache.blkbuf i).bCount - 1 } := by
    rw [hc', blkWriteOver_blkbuf, BlkCache.set_blkbuf, update_self, update_idem]
  have hstore : Fetched io { io₁ with cache := c' } i (blockAt dev blkNo) := by
    refine hfetch.setBuf ?_ hblk rfl rfl rfl
    rw [hc', blkWriteOver_table, BlkCache.set_hashBucketTable]
  refine ⟨{ io₁ with cache := c' }, data, ?_, hstore, ?_, ?_, ?_⟩
  · rw [blkdevWriteLoop, if_pos hcnt, hc', hnew, ← huser]
    simp only [hbuf, hdata, Option.bind_eq_bind, Option.bind_some]
  · show (c'.blkbuf i).bData = _
    rw [hblk, update_self, hnew]
  · intro he
    show (c'.blkbuf i).bValid = _
    rw [hblk, update_self]
    exact hfull he
  · intro hne
    refine ⟨(hpart hne).1, ?_⟩
    show (c'.blkbuf i).bValid = _
    rw [hblk, update_self]
    exact (hpart hne).2

theorem readLoop_none (io : Io n) (ht : target io (blockAt dev blkNo) = none) (hcnt : 0 < cnt) :
    blkdevReadLoop io dev buf blkNo offset count cnt = none := by
  rw [blkdevReadLoop, if_pos hcnt]
  simp only [blkRead_none ht, Option.bind_eq_bind, Option.bind_none]

theorem writeLoop_none (io : Io n) (ht : target io (blockAt dev blkNo) = none) (hcnt : 0 < cnt) :
    blkdevWriteLoop io dev buf blkNo offset count cnt = none := by
  rw [blkdevWriteLoop, if_pos hcnt]
  simp only [writeBuffer_none ht, Option.bind_eq_bind, Option.bind_none]

theorem readLoop_zero : blkdevReadLoop io dev buf blkNo offset count 0 = some (io, (count : Int)) := by
  rw [blkdevReadLoop, if_neg (Nat.lt_irrefl 0)]

theorem writeLoop_zero :
    blkdevWriteLoop io dev buf blkNo offset count 0 = some (io, (count : Int)) := by
  rw [blkdevWriteLoop, if_neg (Nat.lt_irrefl 0)]

/-! ## Whole calls keep the cache well formed -/

/-- What is left after a round lies in the device, if the transfer did. -/
theorem round_within (hin : blkNo * BLKSIZE + offset + cnt ≤ deviceSize) :
    (blkNo + 1) * BLKSIZE + ((0 : Fin BLKSIZE) : Nat) + (cnt - roundBytes offset cnt) ≤ deviceSize ∨
      cnt - roundBytes offset cnt = 0 := by
  have hoff := offset.isLt
  have hz : ((0 : Fin BLKSIZE) : Nat) = 0 := rfl
  change (offset : Nat) < 4096 at hoff
  change blkNo * 4096 + offset + cnt ≤ 2199023255552 at hin
  rw [hz, roundBytes]
  show (blkNo + 1) * 4096 + 0 + (cnt - min (4096 - (offset : Nat)) cnt) ≤ 2199023255552 ∨ _
  omega

/-- `blkdev_read` keeps the cache well formed, and writes no further than its longest round. -/
theorem readLoop_run (io : Io n) {M : Nat} (hw : Well io.cache)
    (hin : blkNo * BLKSIZE + offset + cnt ≤ deviceSize ∨ cnt = 0)
    (hround : roundBytes offset cnt ≤ M) (hrest : cnt - roundBytes offset cnt ≤ M)
    (h : blkdevReadLoop io dev buf blkNo offset count cnt = some (io', r)) :
    Well io'.cache ∧ ∀ k, buf + M ≤ k → io'.user k = io.user k := by
  induction cnt using Nat.strong_induction_on generalizing io blkNo offset count with
  | _ cnt ih =>
    rcases Nat.eq_zero_or_pos cnt with rfl | hcnt
    · rw [readLoop_zero] at h
      cases h
      exact ⟨hw, fun _ _ => rfl⟩
    · have hin := hin.resolve_right hcnt.ne'
      have hb : blkNo * BLKSIZE < deviceSize := by omega
      have hpos := roundBytes_pos offset hcnt
      cases ht : target io (blockAt dev blkNo) with
      | none =>
        rw [readLoop_none io ht hcnt] at h
        cases h
      | some i =>
        obtain ⟨io₁, heq, hfetch, huser⟩ := readLoop_round io buf count offset hw hb ht hcnt
        rw [heq] at h
        have hnext : roundBytes 0 (cnt - roundBytes offset cnt) ≤ cnt - roundBytes offset cnt :=
          Nat.min_le_right _ _
        obtain ⟨hwell, hkeep⟩ := ih (cnt - roundBytes offset cnt) (by omega) io₁ hfetch.well
          (round_within hin) (by omega) (by omega) h
        refine ⟨hwell, fun k hk => ?_⟩
        rw [hkeep k hk, huser]
        exact splice_of_not_mem (by omega)

/-- `blkdev_write` keeps the cache well formed. -/
theorem writeLoop_well (io : Io n) (hw : Well io.cache)
    (hin : blkNo * BLKSIZE + offset + cnt ≤ deviceSize ∨ cnt = 0)
    (h : blkdevWriteLoop io dev buf blkNo offset count cnt = some (io', r)) : Well io'.cache := by
  induction cnt using Nat.strong_induction_on generalizing io blkNo offset count with
  | _ cnt ih =>
    rcases Nat.eq_zero_or_pos cnt with rfl | hcnt
    · rw [writeLoop_zero] at h
      cases h
      exact hw
    · have hin := hin.resolve_right hcnt.ne'
      have hb : blkNo * BLKSIZE < deviceSize := by omega
      have hpos := roundBytes_pos offset hcnt
      cases ht : target io (blockAt dev blkNo) with
      | none =>
        rw [writeLoop_none io ht hcnt] at h
        cases h
      | some i =>
        obtain ⟨io₁, data, heq, hfetch, -⟩ := writeLoop_round io buf count offset hw hb ht hcnt
        rw [heq] at h
        exact ih (cnt - roundBytes offset cnt) (by omega) _ hfetch.well (round_within hin) h

theorem writeBuffer_user (io : Io n) (a : Addr) (bytes : Nat) (user : Bytes) :
    writeBuffer { io with user := user } a bytes =
      (writeBuffer io a bytes).map fun x => ({ x.1 with user := user }, x.2) := by
  have hget : getblk { io with user := user } a =
      (getblk io a).map fun x => ({ x.1 with user := user }, x.2) := by
    cases hf : findBufferInhash io.cache a with
    | some i => simp only [getblk, hf, Option.map_some]
    | none =>
      cases hlru : getLRUBlk io.cache with
      | none => simp only [getblk, hf, hlru, Option.bind_eq_bind, Option.bind_none, Option.map_none]
      | some x =>
        have hpage : bufferPage { io with user := user } x.2 = bufferPage io x.2 := rfl
        simp only [getblk, hf, hlru, hpage, Option.bind_eq_bind, Option.bind_some]
        cases bufferPage io x.2 <;> rfl
  unfold writeBuffer
  split
  · exact hget
  · unfold blkRead
    rw [hget]
    cases getblk io a with
    | none => rfl
    | some x =>
      simp only [Option.bind_eq_bind, Option.map_some, Option.bind_some]
      cases blkReadLocked x.1.disk x.1.cache x.2 a <;> rfl

/-- `blkdev_write` reads no further than its longest round: bytes of the user beyond that make no
    difference. -/
theorem writeLoop_congr {M : Nat} (u u' : Bytes) (hsame : ∀ k, k < M → u (buf + k) = u' (buf + k))
    (hround : roundBytes offset cnt ≤ M) (hrest : cnt - roundBytes offset cnt ≤ M)
    (h : blkdevWriteLoop { io with user := u } dev buf blkNo offset count cnt = some (io', r)) :
    blkdevWriteLoop { io with user := u' } dev buf blkNo offset count cnt =
      some ({ io' with user := u' }, r) := by
  induction cnt using Nat.strong_induction_on generalizing io blkNo offset count with
  | _ cnt ih =>
    rcases Nat.eq_zero_or_pos cnt with rfl | hcnt
    · rw [writeLoop_zero] at h ⊢
      cases h
      rfl
    · have hpos := roundBytes_pos offset hcnt
      rw [blkdevWriteLoop, if_pos hcnt] at h ⊢
      simp only [writeBuffer_user, Option.bind_eq_bind] at h ⊢
      cases hbuf : writeBuffer io (blockAt dev blkNo) (roundBytes offset cnt) with
      | none =>
        rw [hbuf] at h
        cases h
      | some x =>
        rw [hbuf] at h
        simp only [Option.map_some, Option.bind_some] at h ⊢
        cases hdata : (x.1.cache.blkbuf x.2).bData with
        | none =>
          rw [hdata] at h
          cases h
        | some data =>
          rw [hdata] at h
          simp only [Option.bind_some] at h ⊢
          have hcopy : splice data offset (roundBytes offset cnt) (fun k => u' (buf + k)) =
              splice data offset (roundBytes offset cnt) fun k => u (buf + k) :=
            splice_congr (fun k hk => (hsame k (by omega)).symm) fun _ _ => rfl
          have hnext : roundBytes 0 (cnt - roundBytes offset cnt) ≤ cnt - roundBytes offset cnt :=
            Nat.min_le_right _ _
          rw [hcopy]
          refine @ih (cnt - roundBytes offset cnt) (by omega) { x.1 with cache := _ } (blkNo + 1)
            (count + roundBytes offset cnt) 0 ?_ ?_ h
          · omega
          · omega

/-! ## What is asked of a call, and when it is given -/

/-- `blkdev_read` returns `cnt` and copies the bytes of the device to `buf`, whatever the user
    memory held. -/
def Reads (io : Io n) (dev : UInt32) (buf pos cnt : Nat) : Prop :=
  ∀ user, ∃ io', blkdevRead { io with user := user } dev buf pos cnt = some (io', (cnt : Int)) ∧
    io'.user = splice user buf cnt fun k => byteAt io dev (pos + k)

/-- `blkdev_write` returns `cnt`, replaces the bytes of the device by those at `buf` and no others
    of any device, whatever the user memory holds; and reading them back gives what was written. -/
def Writes (io : Io n) (dev : UInt32) (buf pos cnt : Nat) : Prop :=
  ∀ user, ∃ io', blkdevWrite { io with user := user } dev buf pos cnt = some (io', (cnt : Int)) ∧
    (∀ dev' p, p < deviceSize → byteAt io' dev' p =
      if dev' = dev then splice (byteAt io dev) pos cnt (fun k => user (buf + k)) p
      else byteAt io dev' p) ∧
    ∀ buf', Reads io' dev buf' pos cnt

/-- The transfer stays inside one block, no sync is running, and the block is cached or there is a
    buffer for it. -/
structure OneBlock (io : Io n) (dev : UInt32) (pos cnt : Nat) (i : Fin n) : Prop where
  syncing : io.syncing = 0
  inside : pos % BLKSIZE + cnt ≤ BLKSIZE
  target : target io (blockAt dev (pos / BLKSIZE)) = some i

/-- What `getblk` found is not a recycled buffer whose old bytes are taken for those of the
    block. -/
def ReadsTrue (io : Io n) (dev : UInt32) (pos cnt : Nat) : Prop :=
  ∃ i, OneBlock io dev pos cnt i ∧
    (findBufferInhash io.cache (blockAt dev (pos / BLKSIZE)) = none →
      ∀ k, pos % BLKSIZE ≤ k → k < pos % BLKSIZE + cnt →
        served io (blockAt dev (pos / BLKSIZE)) i k = io.disk (blockAt dev (pos / BLKSIZE)) k)

/-- A block that is written as a whole finds its buffer marked valid; and a recycled buffer loses
    nothing that the disk does not have, nor keeps old bytes around those that are written. -/
def WritesTrue (io : Io n) (dev : UInt32) (pos cnt : Nat) : Prop :=
  ∃ i, OneBlock io dev pos cnt i ∧
    (cnt = BLKSIZE → (io.cache.blkbuf i).bValid = true) ∧
    (findBufferInhash io.cache (blockAt dev (pos / BLKSIZE)) = none →
      ((io.cache.blkbuf i).bHashed = true → ∀ k, k < BLKSIZE →
        served io (io.cache.blkbuf i).addr i k = io.disk (io.cache.blkbuf i).addr k) ∧
      ∀ k, k < BLKSIZE → ¬ (pos % BLKSIZE ≤ k ∧ k < pos % BLKSIZE + cnt) →
        served io (blockAt dev (pos / BLKSIZE)) i k = io.disk (blockAt dev (pos / BLKSIZE)) k)

/-! ## Transfers inside one block -/

theorem roundBytes_one {offset : Fin BLKSIZE} (hone : offset + cnt ≤ BLKSIZE) :
    roundBytes offset cnt = cnt := by
  unfold roundBytes
  omega

/-- The whole of a `blkdev_read` inside one block. -/
theorem blkdevRead_one (hw : Well io.cache) (hb : pos / BLKSIZE * BLKSIZE < deviceSize)
    (hone : OneBlock io dev pos cnt i) (hcnt : 0 < cnt) (buf : Nat) (user : Bytes) :
    ∃ io', blkdevRead { io with user := user } dev buf pos cnt = some (io', (cnt : Int)) ∧
      Fetched io io' i (blockAt dev (pos / BLKSIZE)) ∧
      io'.user = splice user buf cnt
        (fun k => served io (blockAt dev (pos / BLKSIZE)) i (pos % BLKSIZE + k)) := by
  have hrb : roundBytes (Fin.ofNat BLKSIZE pos) cnt = cnt := roundBytes_one hone.inside
  obtain ⟨io', heq, hfetch, huser⟩ := readLoop_round { io with user := user } buf 0
    (Fin.ofNat BLKSIZE pos) hw hb hone.target hcnt
  rw [hrb, Nat.sub_self, readLoop_zero, Nat.zero_add] at heq
  rw [hrb] at huser
  have hsync : ¬ io.syncing > 0 := by rw [hone.syncing]; exact Nat.lt_irrefl 0
  refine ⟨io', ?_, ?_, huser⟩
  · rw [blkdevRead, if_neg hsync]
    exact heq
  · exact ⟨hfetch.well, hfetch.disk, hfetch.syncing, hfetch.others, hfetch.hashed, hfetch.addr⟩

/-- The whole of a `blkdev_write` inside one block. -/
theorem blkdevWrite_one (hw : Well io.cache) (hb : pos / BLKSIZE * BLKSIZE < deviceSize)
    (hone : OneBlock io dev pos cnt i) (hcnt : 0 < cnt) (buf : Nat) (user : Bytes) :
    ∃ io' data, blkdevWrite { io with user := user } dev buf pos cnt = some (io', (cnt : Int)) ∧
      Fetched io io' i (blockAt dev (pos / BLKSIZE)) ∧
      (io'.cache.blkbuf i).bData =
        some (splice data (pos % BLKSIZE) cnt fun k => user (buf + k)) ∧
      (cnt = BLKSIZE → (io'.cache.blkbuf i).bValid = (io.cache.blkbuf i).bValid) ∧
      (cnt ≠ BLKSIZE → data = served io (blockAt dev (pos / BLKSIZE)) i ∧
        (io'.cache.blkbuf i).bValid = true) := by
  have hrb : roundBytes (Fin.ofNat BLKSIZE pos) cnt = cnt := roundBytes_one hone.inside
  obtain ⟨io', data, heq, hfetch, hrest⟩ := writeLoop_round { io with user := user } buf 0
    (Fin.ofNat BLKSIZE pos) hw hb hone.target hcnt
  rw [hrb, Nat.sub_self, writeLoop_zero, Nat.zero_add] at heq
  rw [hrb] at hrest
  have hsync : ¬ io.syncing > 0 := by rw [hone.syncing]; exact Nat.lt_irrefl 0
  refine ⟨io', data, ?_, ?_, hrest⟩
  · rw [blkdevWrite, if_neg hsync]
    exact heq
  · exact ⟨hfetch.well, hfetch.disk, hfetch.syncing, hfetch.others, hfetch.hashed, hfetch.addr⟩

theorem blockNow_of_find_none (hf : findBufferInhash io.cache a = none) :
    blockNow io a = io.disk a := by
  rw [blockNow, hf]

theorem blockNow_of_target (hf : findBufferInhash io.cache a ≠ none) (ht : target io a = some i) :
    blockNow io a = served io a i := by
  cases hfind : findBufferInhash io.cache a with
  | none => exact absurd hfind hf
  | some k =>
    rw [target, hfind] at ht
    rw [blockNow, hfind, some.inj ht]

/-- Positions inside one block. -/
theorem byteAt_inside (io : Io n) (dev : UInt32) {k : Nat} (hk : pos % BLKSIZE + k < BLKSIZE) :
    byteAt io dev (pos + k) = blockNow io (blockAt dev (pos / BLKSIZE)) (pos % BLKSIZE + k) := by
  change pos % 4096 + k < 4096 at hk
  have hdiv : (pos + k) / BLKSIZE = pos / BLKSIZE := by
    show (pos + k) / 4096 = pos / 4096
    omega
  have hmod : (pos + k) % BLKSIZE = pos % BLKSIZE + k := by
    show (pos + k) % 4096 = pos % 4096 + k
    omega
  rw [byteAt, hdiv, hmod]

theorem blockAt_inj {dev dev' : UInt32} {b b' : Nat} (hb : b * BLKSIZE < deviceSize)
    (hb' : b' * BLKSIZE < deviceSize) (h : blockAt dev b = blockAt dev' b') :
    dev = dev' ∧ b = b' := by
  refine ⟨congrArg Addr.dev h, ?_⟩
  rw [← blockAt_blkno dev hb, ← blockAt_blkno dev' hb', h]

theorem block_within {p : Nat} (hp : p < deviceSize) : p / BLKSIZE * BLKSIZE < deviceSize := by
  have := Nat.div_mul_le_self p BLKSIZE
  omega

theorem block_offset_within {b k : Nat} (hb : b * BLKSIZE < deviceSize) (hk : k < BLKSIZE) :
    b * BLKSIZE + k < deviceSize := by
  have hdev : deviceSize = 536870912 * BLKSIZE := rfl
  rw [hdev] at hb ⊢
  have hlt : b < 536870912 := Nat.lt_of_mul_lt_mul_right hb
  calc b * BLKSIZE + k < b * BLKSIZE + BLKSIZE := Nat.add_lt_add_left hk _
    _ = (b + 1) * BLKSIZE := (Nat.succ_mul b BLKSIZE).symm
    _ ≤ 536870912 * BLKSIZE := Nat.mul_le_mul_right _ hlt

/-! ## Reading -/

theorem reads_of_readsTrue (hw : Well io.cache) (hcnt : 0 < cnt) (hin : pos + cnt ≤ deviceSize)
    (h : ReadsTrue io dev pos cnt) : Reads io dev buf pos cnt := by
  obtain ⟨i, hone, hmiss⟩ := h
  intro user
  obtain ⟨io', hrun, -, huser⟩ :=
    blkdevRead_one hw (block_within (by omega)) hone hcnt buf user
  refine ⟨io', hrun, ?_⟩
  rw [huser]
  refine splice_congr (fun k hk => ?_) fun _ _ => rfl
  have hinside := hone.inside
  rw [byteAt_inside io dev (by omega)]
  by_cases hf : findBufferInhash io.cache (blockAt dev (pos / BLKSIZE)) = none
  · rw [blockNow_of_find_none hf]
    exact hmiss hf (pos % BLKSIZE + k) (by omega) (by omega)
  · rw [blockNow_of_target hf hone.target]

/-- A call while a sync is running gives up. -/
theorem syncing_of_returns (io : Io n) {f : Option (Io n × Int)} {P : Io n → Prop} (hcnt : 0 < cnt)
    (hrun : ∃ io', (if io.syncing > 0 then some (io, -EBUSY) else f) = some (io', (cnt : Int)) ∧
      P io') : io.syncing = 0 ∧ ∃ io', f = some (io', (cnt : Int)) ∧ P io' := by
  obtain ⟨io', hrun, hP⟩ := hrun
  by_cases hsync : io.syncing > 0
  · rw [if_pos hsync] at hrun
    have hres := (Prod.mk.inj (some.inj hrun)).2
    unfold EBUSY at hres
    omega
  · rw [if_neg hsync] at hrun
    exact ⟨by omega, io', hrun, hP⟩

/-- The bounds the two loops start with when a transfer is longer than its first block. -/
theorem long_rounds (hlong : ¬ pos % BLKSIZE + cnt ≤ BLKSIZE) :
    roundBytes (Fin.ofNat BLKSIZE pos) cnt ≤ cnt - 1 ∧
      cnt - roundBytes (Fin.ofNat BLKSIZE pos) cnt ≤ cnt - 1 := by
  have hlt : pos % BLKSIZE < BLKSIZE := Nat.mod_lt _ (by decide)
  have heq : roundBytes (Fin.ofNat BLKSIZE pos) cnt = min (BLKSIZE - pos % BLKSIZE) cnt := rfl
  rw [heq]
  omega

theorem start_within (hin : pos + cnt ≤ deviceSize) :
    pos / BLKSIZE * BLKSIZE + (Fin.ofNat BLKSIZE pos : Nat) + cnt ≤ deviceSize := by
  have heq : pos / BLKSIZE * BLKSIZE + (Fin.ofNat BLKSIZE pos : Nat) = pos :=
    Nat.div_add_mod' pos BLKSIZE
  rw [heq]
  exact hin

theorem ne_add_one (x : UInt8) : x + 1 ≠ x := by
  intro h
  have hone : (1 : UInt8) = 0 := by
    calc (1 : UInt8) = x + 1 - x := by rw [UInt8.add_comm, UInt8.add_sub_cancel]
      _ = 0 := by rw [h, UInt8.sub_self]
  exact absurd hone (by decide)

theorem readsTrue_of_reads (hw : Well io.cache) (hcnt : 0 < cnt) (hin : pos + cnt ≤ deviceSize)
    (h : Reads io dev buf pos cnt) : ReadsTrue io dev pos cnt := by
  -- the last byte asked for, from a user memory that holds another one there
  obtain ⟨last, hlast⟩ : ∃ x, x = byteAt io dev (pos + (cnt - 1)) := ⟨_, rfl⟩
  obtain ⟨hsync, io', hrun, huser⟩ :=
    syncing_of_returns { io with user := fun _ => last + 1 } hcnt (h fun _ => last + 1)
  have hinside : pos % BLKSIZE + cnt ≤ BLKSIZE := by
    by_contra hlong
    obtain ⟨hround, hrest⟩ := long_rounds hlong
    obtain ⟨-, hkeep⟩ := readLoop_run { io with user := fun _ => last + 1 } hw
      (.inl (start_within hin)) hround hrest hrun
    have hold := hkeep (buf + (cnt - 1)) (Nat.le_refl _)
    rw [huser, splice_add (by omega), ← hlast] at hold
    exact ne_add_one last hold.symm
  cases ht : target io (blockAt dev (pos / BLKSIZE)) with
  | none =>
    rw [readLoop_none { io with user := fun _ => last + 1 } ht hcnt] at hrun
    cases hrun
  | some i =>
    have hone : OneBlock io dev pos cnt i := ⟨hsync, hinside, ht⟩
    refine ⟨i, hone, fun hf k hlow hhigh => ?_⟩
    obtain ⟨io₁, hrun₁, -, huser₁⟩ :=
      blkdevRead_one hw (block_within (by omega)) hone hcnt buf fun _ => last + 1
    obtain ⟨io₂, hrun₂, huser₂⟩ := h fun _ => last + 1
    rw [hrun₂] at hrun₁
    cases hrun₁
    have hbyte := congrFun (huser₁.symm.trans huser₂) (buf + (k - pos % BLKSIZE))
    rw [splice_add (by omega), splice_add (by omega), byteAt_inside io dev (by omega),
      blockNow_of_find_none hf, Nat.add_sub_cancel' hlow] at hbyte
    exact hbyte

/-! ## Writing -/

theorem byteAt_block (io : Io n) (dev : UInt32) (b : Nat) {k : Nat} (hk : k < BLKSIZE) :
    byteAt io dev (b * BLKSIZE + k) = blockNow io (blockAt dev b) k := by
  have hdiv : (b * BLKSIZE + k) / BLKSIZE = b := by
    show (b * 4096 + k) / 4096 = b
    change k < 4096 at hk
    omega
  have hmod : (b * BLKSIZE + k) % BLKSIZE = k := by
    show (b * 4096 + k) % 4096 = k
    change k < 4096 at hk
    omega
  rw [byteAt, hdiv, hmod]

/-- A position of another block lies outside the transfer. -/
theorem outside_of_block_ne {dev' : UInt32} {p : Nat} (hinside : pos % BLKSIZE + cnt ≤ BLKSIZE)
    (hne : blockAt dev' (p / BLKSIZE) ≠ blockAt dev (pos / BLKSIZE)) :
    ¬ (dev' = dev ∧ pos ≤ p ∧ p < pos + cnt) := by
  rintro ⟨rfl, hlow, hhigh⟩
  apply hne
  have hdiv : p / BLKSIZE = pos / BLKSIZE := by
    change pos % 4096 + cnt ≤ 4096 at hinside
    show p / 4096 = pos / 4096
    omega
  rw [hdiv]

/-- What the claim asks of a byte outside the transfer. -/
theorem spliced_outside {dev' : UInt32} {p : Nat} {src : Bytes}
    (hout : ¬ (dev' = dev ∧ pos ≤ p ∧ p < pos + cnt)) :
    (if dev' = dev then splice (byteAt io dev) pos cnt src p else byteAt io dev' p) =
      byteAt io dev' p := by
  split
  · rename_i heq
    rw [splice_of_not_mem fun hin => hout ⟨heq, hin⟩, heq]
  · rfl

theorem addr_blockAt (a : Addr) : blockAt a.dev a.blkno.toNat = a := by
  rw [blockAt, UInt32.ofNat_toNat]

theorem writes_of_writesTrue (hw : Well io.cache) (hcnt : 0 < cnt) (hin : pos + cnt ≤ deviceSize)
    (h : WritesTrue io dev pos cnt) : Writes io dev buf pos cnt := by
  obtain ⟨i, hone, hfullvalid, hmiss⟩ := h
  intro user
  obtain ⟨io', data, hrun, hfetch, hdata, hfull, hpart⟩ :=
    blkdevWrite_one hw (block_within (by omega)) hone hcnt buf user
  have hinside := hone.inside
  have hvalid : (io'.cache.blkbuf i).bValid = true := by
    by_cases hc : cnt = BLKSIZE
    · rw [hfull hc, hfullvalid hc]
    · exact (hpart hc).2
  refine ⟨io', hrun, fun dev' p hp => ?_, fun buf' => ?_⟩
  · by_cases hblk : blockAt dev' (p / BLKSIZE) = blockAt dev (pos / BLKSIZE)
    · -- the block that was written
      obtain ⟨rfl, hdiv⟩ := blockAt_inj (block_within hp) (block_within (by omega)) hblk
      rw [if_pos rfl, byteAt, hblk, hfetch.blockNow_self, served, if_pos hvalid, hdata,
        Option.getD_some]
      have hp' := Nat.div_add_mod' p BLKSIZE
      have hpos' := Nat.div_add_mod' pos BLKSIZE
      by_cases hmem : pos ≤ p ∧ p < pos + cnt
      · have hdist : p % BLKSIZE - pos % BLKSIZE = p - pos := by rw [hdiv] at hp'; omega
        rw [splice_of_mem hmem.1 hmem.2, splice_of_mem (by rw [hdiv] at hp'; omega)
          (by rw [hdiv] at hp'; omega), hdist]
      · have hlt : p % BLKSIZE < BLKSIZE := Nat.mod_lt _ (by decide)
        have hnot : ¬ (pos % BLKSIZE ≤ p % BLKSIZE ∧ p % BLKSIZE < pos % BLKSIZE + cnt) := by
          rw [hdiv] at hp'
          omega
        have hc : cnt ≠ BLKSIZE := by omega
        rw [splice_of_not_mem hmem, splice_of_not_mem hnot, (hpart hc).1, byteAt, hdiv]
        by_cases hf : findBufferInhash io.cache (blockAt dev' (pos / BLKSIZE)) = none
        · rw [blockNow_of_find_none hf]
          exact (hmiss hf).2 (p % BLKSIZE) hlt hnot
        · rw [blockNow_of_target hf hone.target]
    · -- any other block, which the buffer may have been for
      rw [spliced_outside (outside_of_block_ne hinside hblk), byteAt, byteAt,
        hfetch.blockNow_of_ne hw hblk]
      split
      · rename_i hold
        have hmissed : findBufferInhash io.cache (blockAt dev (pos / BLKSIZE)) = none := by
          by_contra hf
          obtain ⟨k, hk⟩ := Option.ne_none_iff_exists'.mp hf
          have ht := hone.target
          rw [target, hk] at ht
          cases ht
          exact hblk (hold.2.symm.trans (hw.find_eq_some.mp hk).2)
        have hfind := hw.find_eq_some.mpr hold
        rw [blockNow, hfind, ← hold.2]
        exact ((hmiss hmissed).1 hold.1 _ (Nat.mod_lt _ (by decide))).symm
      · rfl
  · refine reads_of_readsTrue hfetch.well hcnt hin ⟨i, ⟨?_, hinside, ?_⟩, ?_⟩
    · rw [hfetch.syncing]
      exact hone.syncing
    · rw [target, hfetch.find]
    · intro hf
      rw [hfetch.find] at hf
      cases hf

theorem writesTrue_of_writes (hw : Well io.cache) (hcnt : 0 < cnt) (hin : pos + cnt ≤ deviceSize)
    (h : Writes io dev buf pos cnt) : WritesTrue io dev pos cnt := by
  obtain ⟨hsync, io₀, hrun₀, -⟩ := syncing_of_returns { io with user := fun _ => 0 } hcnt
    (h fun _ => 0)
  have hinside : pos % BLKSIZE + cnt ≤ BLKSIZE := by
    by_contra hlong
    obtain ⟨hround, hrest⟩ := long_rounds hlong
    -- two user memories that differ in the last byte, which no round gets to
    obtain ⟨u, hu⟩ : ∃ u : Bytes, u = fun k => if k = buf + (cnt - 1) then 1 else 0 := ⟨_, rfl⟩
    obtain ⟨-, io₁, hrun₁, hbytes₁, -⟩ := syncing_of_returns { io with user := u } hcnt (h u)
    obtain ⟨-, io₂, hrun₂, hbytes₂, -⟩ := syncing_of_returns { io with user := fun _ => 0 } hcnt
      (h fun _ => 0)
    have hsame : ∀ k, k < cnt - 1 → u (buf + k) = 0 := by
      intro k hk
      rw [hu]
      exact if_neg (by omega)
    have hrun := writeLoop_congr u (fun _ => 0) hsame hround hrest hrun₁
    rw [hrun₂] at hrun
    cases hrun
    have hone := hbytes₁ dev (pos + (cnt - 1)) (by omega)
    have hzero := hbytes₂ dev (pos + (cnt - 1)) (by omega)
    rw [if_pos rfl, splice_add (by omega)] at hone hzero
    have hlast : u (buf + (cnt - 1)) = 1 := by
      rw [hu]
      exact if_pos rfl
    rw [hlast] at hone
    exact absurd (hone.symm.trans hzero) (by decide)
  cases ht : target io (blockAt dev (pos / BLKSIZE)) with
  | none =>
    rw [writeLoop_none { io with user := fun _ => 0 } ht hcnt] at hrun₀
    cases hrun₀
  | some i =>
    have hone : OneBlock io dev pos cnt i := ⟨hsync, hinside, ht⟩
    have hb : pos / BLKSIZE * BLKSIZE < deviceSize := block_within (by omega)
    -- one call, seen both ways
    have hcall : ∀ user : Bytes, ∃ io' data, Fetched io io' i (blockAt dev (pos / BLKSIZE)) ∧
        (io'.cache.blkbuf i).bData =
          some (splice data (pos % BLKSIZE) cnt fun k => user (buf + k)) ∧
        (cnt = BLKSIZE → (io'.cache.blkbuf i).bValid = (io.cache.blkbuf i).bValid) ∧
        (cnt ≠ BLKSIZE → data = served io (blockAt dev (pos / BLKSIZE)) i ∧
          (io'.cache.blkbuf i).bValid = true) ∧
        ∀ dev' p, p < deviceSize → byteAt io' dev' p =
          if dev' = dev then splice (byteAt io dev) pos cnt (fun k => user (buf + k)) p
          else byteAt io dev' p := by
      intro user
      obtain ⟨io₁, data, hrun₁, hfetch, hdata, hfull, hpart⟩ :=
        blkdevWrite_one hw hb hone hcnt buf user
      obtain ⟨io₂, hrun₂, hbytes, -⟩ := h user
      rw [hrun₂] at hrun₁
      obtain ⟨rfl, -⟩ := Prod.mk.inj (some.inj hrun₁)
      exact ⟨io₂, data, hfetch, hdata, hfull, hpart, hbytes⟩
    refine ⟨i, hone, fun hc => ?_, fun hf => ⟨fun hhash k hk => ?_, fun k hk hnot => ?_⟩⟩
    · by_contra hinvalid
      obtain ⟨io', data, hfetch, -, hfull, -, hbytes⟩ :=
        hcall fun _ => io.disk (blockAt dev (pos / BLKSIZE)) (pos % BLKSIZE) + 1
      have hbyte := hbytes dev (pos + 0) (by omega)
      rw [byteAt_inside io' dev (by omega), if_pos rfl, splice_add hcnt, hfetch.blockNow_self,
        served, hfull hc, if_neg hinvalid, hfetch.disk] at hbyte
      exact ne_add_one _ hbyte.symm
    · obtain ⟨io', data, hfetch, -, -, -, hbytes⟩ := hcall fun _ => 0
      have hwithin := hw.within i hhash
      have hne : (io.cache.blkbuf i).addr ≠ blockAt dev (pos / BLKSIZE) :=
        hw.find_eq_none.mp hf i hhash
      have hplace := addr_blockAt (io.cache.blkbuf i).addr
      have hp : (io.cache.blkbuf i).addr.blkno.toNat * BLKSIZE + k < deviceSize :=
        block_offset_within hwithin hk
      have hbyte := hbytes (io.cache.blkbuf i).addr.dev _ hp
      have hdiv : ((io.cache.blkbuf i).addr.blkno.toNat * BLKSIZE + k) / BLKSIZE =
          (io.cache.blkbuf i).addr.blkno.toNat := by
        change k < 4096 at hk
        show ((io.cache.blkbuf i).addr.blkno.toNat * 4096 + k) / 4096 = _
        omega
      have hout : blockAt (io.cache.blkbuf i).addr.dev
          (((io.cache.blkbuf i).addr.blkno.toNat * BLKSIZE + k) / BLKSIZE) ≠
          blockAt dev (pos / BLKSIZE) := by
        rw [hdiv, hplace]
        exact hne
      rw [spliced_outside (outside_of_block_ne hinside hout), byteAt_block _ _ _ hk,
        byteAt_block _ _ _ hk, hplace, hfetch.blockNow_of_ne hw hne, if_pos ⟨hhash, rfl⟩,
        blockNow, hw.find_eq_some.mpr ⟨hhash, rfl⟩] at hbyte
      exact hbyte.symm
    · obtain ⟨io', data, hfetch, hdata, -, hpart, hbytes⟩ := hcall fun _ => 0
      have hc : cnt ≠ BLKSIZE := by omega
      obtain ⟨hserved, hvalid⟩ := hpart hc
      have hp : pos / BLKSIZE * BLKSIZE + k < deviceSize := block_offset_within hb hk
      have hpos := Nat.div_add_mod' pos BLKSIZE
      have hbyte := hbytes dev _ hp
      rw [if_pos rfl, splice_of_not_mem (by omega), byteAt_block _ _ _ hk, byteAt_block _ _ _ hk,
        blockNow_of_find_none hf, hfetch.blockNow_self, served, if_pos hvalid, hdata,
        Option.getD_some, splice_of_not_mem hnot, hserved] at hbyte
      exact hbyte

/-! ## Every cache a run leads to -/

theorem start_blkbuf (disk : Addr → Bytes) (pages : List Bytes) (i : Fin n) :
    (start n disk pages).cache.blkbuf i = zeroBuf := by
  show (boot n disk).cache.blkbuf i = zeroBuf
  rw [boot_cache]

theorem start_table (disk : Addr → Bytes) (pages : List Bytes) (b : Fin HASH_TABLE_PRIME) :
    (start n disk pages).cache.hashBucketTable b = [] := by
  show (boot n disk).cache.hashBucketTable b = []
  rw [boot_cache]

theorem well_start (disk : Addr → Bytes) (pages : List Bytes) :
    Well (start n disk pages).cache := by
  refine ⟨?_, ?_, ?_, ?_, ?_, ?_⟩
  · intro b i
    rw [start_table, start_blkbuf]
    exact ⟨fun hin => absurd hin List.not_mem_nil, fun hin => nomatch hin.1⟩
  · intro b
    rw [start_table]
    exact List.nodup_nil
  · intro i j hi
    rw [start_blkbuf] at hi
    cases hi
  · intro i hi
    rw [start_blkbuf] at hi
    cases hi
  · intro i hi
    rw [start_blkbuf] at hi
    cases hi
  · intro i hi
    rw [start_blkbuf] at hi
    cases hi

/-- Calls inside the device keep the cache well formed, the wrong ones too. -/
theorem well_of_calls {disk : Addr → Bytes} {pages : List Bytes}
    (hr : Reaches Step (fun _ call => call.Within) (start n disk pages) io) : Well io.cache := by
  refine hr.invariant (I := fun io => Well io.cache) (well_start disk pages) ?_
  rintro io₁ call io₂ hw hin ⟨r, hrun⟩
  cases call with
  | read user dev buf pos cnt =>
    have hin : pos + cnt ≤ deviceSize := hin
    replace hrun : blkdevRead { io₁ with user := user } dev buf pos cnt = some (io₂, r) := hrun
    by_cases hsync : io₁.syncing > 0
    · rw [blkdevRead, if_pos hsync] at hrun
      rw [← (Prod.mk.inj (some.inj hrun)).1]
      exact hw
    · rw [blkdevRead, if_neg hsync] at hrun
      exact (readLoop_run { io₁ with user := user } hw (.inl (start_within hin))
        (Nat.min_le_right _ _) (Nat.sub_le _ _) hrun).1
  | write user dev buf pos cnt =>
    have hin : pos + cnt ≤ deviceSize := hin
    replace hrun : blkdevWrite { io₁ with user := user } dev buf pos cnt = some (io₂, r) := hrun
    by_cases hsync : io₁.syncing > 0
    · rw [blkdevWrite, if_pos hsync] at hrun
      rw [← (Prod.mk.inj (some.inj hrun)).1]
      exact hw
    · rw [blkdevWrite, if_neg hsync] at hrun
      exact writeLoop_well { io₁ with user := user } hw (.inl (start_within hin)) hrun

/-- A transfer inside the device reads what the device holds, and writes what it is given, exactly
    when it stays in one block and the cache has a buffer that is right for it. -/
theorem blkdev_exact (hw : Well io.cache) (hcnt : 0 < cnt) (hin : pos + cnt ≤ deviceSize) :
    (Reads io dev buf pos cnt ↔ ReadsTrue io dev pos cnt) ∧
      (Writes io dev buf pos cnt ↔ WritesTrue io dev pos cnt) := by
  constructor
  · exact ⟨readsTrue_of_reads hw hcnt hin, reads_of_readsTrue hw hcnt hin⟩
  · exact ⟨writesTrue_of_writes hw hcnt hin, writes_of_writesTrue hw hcnt hin⟩

/-- At the start every block is given the first buffer. -/
theorem start_target (hn : 0 < n) (disk : Addr → Bytes) (page : Bytes) (pages : List Bytes)
    (a : Addr) : target (start n disk (page :: pages)) a = some ⟨0, hn⟩ := by
  obtain ⟨m, rfl⟩ : ∃ m, n = m + 1 := ⟨n - 1, by omega⟩
  have hf : findBufferInhash (start (m + 1) disk (page :: pages)).cache a = none := by
    rw [findBufferInhash, start_table, List.find?_nil]
  have hlast : (start (m + 1) disk (page :: pages)).cache.freeList.getLast? = some ⟨0, hn⟩ := by
    show (boot (m + 1) disk).cache.freeList.getLast? = _
    rw [boot_cache, List.getLast?_reverse, List.finRange_succ, List.head?_cons]
    rfl
  have hpage : bufferPage (start (m + 1) disk (page :: pages)) ⟨0, hn⟩ = some (page, pages) := by
    rw [bufferPage, start_blkbuf]
    rfl
  rw [target, hf]
  show Option.filter _ (start (m + 1) disk (page :: pages)).cache.freeList.getLast? = _
  rw [hlast, Option.filter_some, hpage]
  rfl

/-- A part of one block is read and written as it should be at the start. -/
theorem start_true (hn : 0 < n) (disk : Addr → Bytes) (page : Bytes) (pages : List Bytes)
    (hinside : pos % BLKSIZE + cnt ≤ BLKSIZE) (hpart : cnt ≠ BLKSIZE) :
    ReadsTrue (start n disk (page :: pages)) dev pos cnt ∧
      WritesTrue (start n disk (page :: pages)) dev pos cnt := by
  have hone : OneBlock (start n disk (page :: pages)) dev pos cnt ⟨0, hn⟩ :=
    ⟨rfl, hinside, start_target hn disk page pages _⟩
  have hserved (a : Addr) (k : Nat) : served (start n disk (page :: pages)) a ⟨0, hn⟩ k =
      (start n disk (page :: pages)).disk a k := by
    rw [served, start_blkbuf]
    rfl
  refine ⟨⟨_, hone, fun _ k _ _ => hserved _ k⟩, ⟨_, hone, fun hc => absurd hc hpart, fun _ => ?_⟩⟩
  exact ⟨fun _ k _ => hserved _ k, fun k _ _ => hserved _ k⟩

/-- A kernel that has just been started, on a disk of zeros. -/
def cold : Io NBBUF := start NBBUF (fun _ _ => 0) [fun _ => 0, fun _ => 0]

/-- Ten bytes of a block that is not cached are read and written as they should be. -/
theorem blkdev_exact_cold : Reads cold 1 0 5 10 ∧ Writes cold 1 0 5 10 := by
  have hw : Well cold.cache := well_start _ _
  have hin : 5 + 10 ≤ deviceSize := by decide
  obtain ⟨hread, hwrite⟩ : ReadsTrue cold 1 5 10 ∧ WritesTrue cold 1 5 10 :=
    start_true (by decide) _ _ _ (by decide) (by decide)
  obtain ⟨hreads, hwrites⟩ := blkdev_exact hw (by decide) hin
  exact ⟨hreads.mpr hread, hwrites.mpr hwrite⟩

/-- One byte more than a block: the last one is copied over the first. -/
theorem blkdev_two_blocks : Well cold.cache ∧ 0 < BLKSIZE + 1 ∧ 0 + (BLKSIZE + 1) ≤ deviceSize ∧
    ¬ Reads cold 1 0 0 (BLKSIZE + 1) ∧ ¬ Writes cold 1 0 0 (BLKSIZE + 1) := by
  have hw : Well cold.cache := well_start _ _
  have hlong : ¬ 0 % BLKSIZE + (BLKSIZE + 1) ≤ BLKSIZE := by omega
  have hpos : 0 < BLKSIZE + 1 := Nat.succ_pos _
  have hin : 0 + (BLKSIZE + 1) ≤ deviceSize := by
    have hlt : 1 * BLKSIZE + 1 < deviceSize := block_offset_within (by decide) (by decide)
    omega
  refine ⟨hw, hpos, hin, fun h => ?_, fun h => ?_⟩
  · obtain ⟨i, hone, -⟩ := readsTrue_of_reads hw hpos hin h
    exact hlong hone.inside
  · obtain ⟨i, hone, -⟩ := writesTrue_of_writes hw hpos hin h
    exact hlong hone.inside

end Uniks.BlkDev
