/-
  `kernel/device/blkbuf.c`: the cache of disk blocks.

  A buffer is named by its index in `blkbuf`; the number `n` of buffers (`NBBUF` in the kernel) and
  the type `β` of the contents of a block are parameters.  Lists run from the front to the back, so
  the least recently used free buffer is the last one of `freeList`.

  What `getblk` does under `blk_cache.lock` is one step, and what `blk_read` does under the mutex
  of the buffer is another; in between a process is one of `waiting`, and one that found the free
  list empty is one of `stalled`.  The mutex of a buffer is kept as `held`: the block its holder
  asked for.  `stored` is not part of the kernel: it is the contents of each block as the callers
  of the cache have last written them.
-/
import Uniks.Lib.Slots
import Mathlib.Logic.Function.Basic
import Mathlib.Data.List.FinRange

namespace Uniks.Blkbuf

open Function (update)

abbrev NBBUF : Nat := 8192

abbrev HASH_TABLE_PRIME : Nat := 307

abbrev BLKSIZE : Nat := 4096

/-- What a device and a block number name. -/
structure Addr where
  dev : UInt32
  blkno : UInt32
  deriving DecidableEq, Repr

/-- Named, so that every test for membership refers to one proof. -/
instance lawfulBEq_use {n : Nat} : LawfulBEq (Fin n × Addr) := inferInstance

/-- The macro `_hashfn`. -/
def hashfn (a : Addr) : Fin HASH_TABLE_PRIME :=
  ⟨(a.dev ^^^ a.blkno).toNat % HASH_TABLE_PRIME, Nat.mod_lt _ (by decide)⟩

/-- The C type `struct blkbuf_t`; `bData` is `none` for `NULL`. -/
structure BlkBuf (β : Type) where
  bDev : UInt32
  bBlkno : UInt32
  bValid : Bool
  bDirty : Bool
  bHashed : Bool
  bCount : Nat
  bData : Option β

/-- The block a buffer is for. -/
def BlkBuf.addr {β : Type} (bb : BlkBuf β) : Addr := ⟨bb.bDev, bb.bBlkno⟩

/-- The C type `struct blk_cache_t`. -/
structure BlkCache (n : Nat) (β : Type) where
  blkbuf : Fin n → BlkBuf β
  freeList : List (Fin n)
  hashBucketTable : Fin HASH_TABLE_PRIME → List (Fin n)

variable {n : Nat} {β : Type}

/-- Store one buffer. -/
def BlkCache.set (c : BlkCache n β) (i : Fin n) (bb : BlkBuf β) : BlkCache n β :=
  { c with blkbuf := update c.blkbuf i bb }

@[simp] theorem BlkCache.set_blkbuf (c : BlkCache n β) (i : Fin n) (bb : BlkBuf β) :
    (c.set i bb).blkbuf = update c.blkbuf i bb := rfl

@[simp] theorem BlkCache.set_freeList (c : BlkCache n β) (i : Fin n) (bb : BlkBuf β) :
    (c.set i bb).freeList = c.freeList := rfl

@[simp] theorem BlkCache.set_hashBucketTable (c : BlkCache n β) (i : Fin n) (bb : BlkBuf β) :
    (c.set i bb).hashBucketTable = c.hashBucketTable := rfl

/-! ## Initialisation -/

/-- The loop of `blk_init` over the buffers. -/
def blkInitLoop : List (Fin n) → BlkCache n β → BlkCache n β
  | [], c => c
  | i :: is, c =>
    let bb := { c.blkbuf i with bCount := 0, bDirty := false, bHashed := false, bData := none }
    blkInitLoop is { c.set i bb with freeList := i :: c.freeList }

/-- The source's `blk_init`. -/
def blkInit (c : BlkCache n β) : BlkCache n β :=
  blkInitLoop (List.finRange n) { c with freeList := [], hashBucketTable := fun _ => [] }

/-! ## Looking a block up -/

/-- The source's `find_buffer_inhash`. -/
def findBufferInhash (c : BlkCache n β) (a : Addr) : Option (Fin n) :=
  (c.hashBucketTable (hashfn a)).find? fun i =>
    (c.blkbuf i).bDev == a.dev && (c.blkbuf i).bBlkno == a.blkno

/-- The source's `get_LRU_blk`; `none` is a process that has to wait for a buffer. -/
def getLRUBlk (c : BlkCache n β) : Option (BlkCache n β × Fin n) := do
  let i ← c.freeList.getLast?
  return ({ c with freeList := c.freeList.dropLast }, i)

/-- The source's `rmold_then_insert_newhash`. -/
def rmoldThenInsertNewhash (c : BlkCache n β) (i : Fin n) (a : Addr) : BlkCache n β :=
  -- a node is unlinked from whichever bucket it is in
  let table := if (c.blkbuf i).bHashed then fun b => (c.hashBucketTable b).erase i
    else c.hashBucketTable
  { c.set i { c.blkbuf i with bHashed := true } with
    hashBucketTable := update table (hashfn a) (i :: table (hashfn a)) }

/-- The end of `getblk` on a buffer from the free list; `page` is what a new page contains. -/
def takeBuffer (c : BlkCache n β) (i : Fin n) (a : Addr) (page : β) : BlkCache n β :=
  let c := rmoldThenInsertNewhash c i a
  let bb := c.blkbuf i
  c.set i { bb with bDev := a.dev, bBlkno := a.blkno, bCount := bb.bCount + 1,
                    bData := some (bb.bData.getD page) }

/-- The branch of `getblk` for a block that is cached. -/
def hitBuffer (c : BlkCache n β) (i : Fin n) : BlkCache n β :=
  let bb := c.blkbuf i
  let c := if bb.bCount = 0 then { c with freeList := c.freeList.erase i } else c
  c.set i { bb with bCount := bb.bCount + 1 }

/-- The source's `getblk` up to `mutex_acquire`; `none` is a process that has to wait. -/
def getblk (c : BlkCache n β) (a : Addr) (page : β) : Option (BlkCache n β × Fin n) :=
  match findBufferInhash c a with
  | some i => some (hitBuffer c i, i)
  | none => do
    let (c, i) ← getLRUBlk c
    return (takeBuffer c i a page, i)

/-! ## Reading, giving back, and writing to the disk -/

/-- The source's `blk_read` under the mutex of the buffer; the device serves every request. -/
def blkReadLocked (disk : Addr → β) (c : BlkCache n β) (i : Fin n) (a : Addr) :
    Option ((Addr → β) × BlkCache n β) := do
  let bb := c.blkbuf i
  if bb.bDirty && (bb.bDev != a.dev && bb.bBlkno != a.blkno) then
    let data ← bb.bData
    let disk := update disk ⟨a.dev, bb.bBlkno⟩ data
    let bb := { bb with bDirty := false }
    if bb.bValid then return (disk, c.set i bb)
    else return (disk, c.set i { bb with bData := some (disk ⟨a.dev, bb.bBlkno⟩), bValid := true })
  else
    if bb.bValid then return (disk, c)
    else return (disk, c.set i { bb with bData := some (disk ⟨a.dev, bb.bBlkno⟩), bValid := true })

/-- The source's `blk_release`, after the mutex. -/
def blkRelease (c : BlkCache n β) (i : Fin n) : BlkCache n β :=
  let bb := c.blkbuf i
  let c := c.set i { bb with bCount := bb.bCount - 1 }
  if bb.bCount - 1 = 0 then { c with freeList := i :: c.freeList } else c

/-- The source's `blk_write_over`. -/
def blkWriteOver (c : BlkCache n β) (i : Fin n) : BlkCache n β :=
  blkRelease (c.set i { c.blkbuf i with bDirty := true }) i

/-- The loop of `blk_sync_all`; `none` is the failed assertion. -/
def blkSyncLoop : List (Fin n) → (Addr → β) → BlkCache n β →
    Option ((Addr → β) × BlkCache n β)
  | [], disk, c => some (disk, c)
  | i :: is, disk, c => do
    let bb := c.blkbuf i
    if bb.bDirty then
      let data ← bb.bData
      blkSyncLoop is (update disk bb.addr data) (c.set i { bb with bDirty := false })
    else blkSyncLoop is disk c

/-- The source's `blk_sync_all`. -/
def blkSyncAll (disk : Addr → β) (c : BlkCache n β) : Option ((Addr → β) × BlkCache n β) :=
  blkSyncLoop (List.finRange n) disk c

/-! ## The system -/

/-- The cache, the disk, and the processes that use them. -/
structure State (n : Nat) (β : Type) where
  cache : BlkCache n β
  disk : Addr → β
  waiting : List (Fin n × Addr)
  stalled : List Addr
  held : Fin n → Option Addr
  stored : Addr → β

/-- The start: nothing is cached. -/
def boot (n : Nat) {β : Type} (disk : Addr → β) : State n β :=
  let zero : BlkBuf β := ⟨0, 0, false, false, false, 0, none⟩
  { cache := blkInit ⟨fun _ => zero, [], fun _ => []⟩, disk := disk, waiting := [], stalled := [],
    held := fun _ => none, stored := disk }

/-- What the processes do: call `blk_read`, go on after waiting for a free buffer, go on under the
    mutex, change the contents of a buffer, give it back, and write everything to the disk. -/
inductive Op (n : Nat) (β : Type) where
  | read (a : Addr) (page : β)
  | retry (a : Addr) (page : β)
  | enter (i : Fin n) (a : Addr)
  | modify (i : Fin n) (x : β)
  | writeOver (i : Fin n)
  | release (i : Fin n)
  | syncAll

/-- One step; `none` when it is not possible. -/
def exec (s : State n β) : Op n β → Option (State n β)
  | .read a page =>
    match getblk s.cache a page with
    | some (c, i) => some { s with cache := c, waiting := (i, a) :: s.waiting }
    | none => some { s with stalled := a :: s.stalled }
  | .retry a page =>
    if a ∈ s.stalled then do
      let (c, i) ← getLRUBlk s.cache
      return { s with cache := takeBuffer c i a page, waiting := (i, a) :: s.waiting,
                      stalled := s.stalled.erase a }
    else none
  | .enter i a =>
    if (i, a) ∈ s.waiting ∧ s.held i = none then do
      let (disk, c) ← blkReadLocked s.disk s.cache i a
      return { s with disk := disk, cache := c, waiting := s.waiting.erase (i, a),
                      held := update s.held i (some a) }
    else none
  | .modify i x => do
    let a ← s.held i
    return { s with cache := s.cache.set i { s.cache.blkbuf i with bData := some x },
                    stored := update s.stored a x }
  | .writeOver i =>
    if (s.held i).isSome then
      some { s with cache := blkWriteOver s.cache i, held := update s.held i none }
    else none
  | .release i =>
    if (s.held i).isSome then
      some { s with cache := blkRelease s.cache i, held := update s.held i none }
    else none
  | .syncAll =>
    -- every mutex is taken in turn
    if ∀ i, s.held i = none then do
      let (disk, c) ← blkSyncAll s.disk s.cache
      return { s with disk := disk, cache := c }
    else none

/-- The step relation. -/
def Step (s : State n β) (op : Op n β) (s' : State n β) : Prop := exec s op = some s'

end Uniks.Blkbuf
