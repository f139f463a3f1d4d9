/-
  `kernel/device/blk_dev.c`: reading and writing a block device as a run of bytes.

  `Io` is what a call works on: the cache of `blkbuf.c`, the disks behind it, the pages that
  `pages_alloc` will hand out, the user memory that `buf` points into (the caller has had it
  checked by `verify_area`, so `copyin` and `copyout` succeed), and the counter `syncing`.  A call
  runs alone: no other process holds or asks for a buffer meanwhile.

  A function returns `none` where the source does not return to its caller: a process that waits
  for a free buffer, or a failed assertion, which is also how `pages_alloc` and the interrupt
  handler of the disk end when there is no page or the disk reports an error.  So `blk_read` never
  gives `NULL`, and the exits of the two loops for that case have no counterpart here.
-/
import Uniks.Blkbuf
import Uniks.Lib.ByteMem

namespace Uniks.BlkDev

open Uniks.Blkbuf Uniks.ByteMem

abbrev SECTORSIZE : Nat := 512

def EBUSY : Int := 16

/-- What one call of `blkdev_read` or `blkdev_write` works on. -/
structure Io (n : Nat) where
  cache : BlkCache n Bytes
  disk : Addr → Bytes
  pages : List Bytes
  user : Bytes
  syncing : Nat

variable {n : Nat}

/-- The page a buffer gets when it has none; `none` is `pages_alloc` without a free page. -/
def bufferPage (io : Io n) (i : Fin n) : Option (Bytes × List Bytes) :=
  match (io.cache.blkbuf i).bData, io.pages with
  | some data, pages => some (data, pages)
  | none, page :: pages => some (page, pages)
  | none, [] => none

/-- The source's `getblk`. -/
def getblk (io : Io n) (a : Addr) : Option (Io n × Fin n) :=
  match findBufferInhash io.cache a with
  | some i => some ({ io with cache := hitBuffer io.cache i }, i)
  | none => do
    let (c, i) ← getLRUBlk io.cache
    let (page, pages) ← bufferPage io i
    return ({ io with cache := takeBuffer c i a page, pages := pages }, i)

/-- The source's `blk_read`. -/
def blkRead (io : Io n) (a : Addr) : Option (Io n × Fin n) := do
  let (io, i) ← getblk io a
  let (disk, c) ← blkReadLocked io.disk io.cache i a
  return ({ io with cache := c, disk := disk }, i)

/-- The bytes the next round of either loop moves: `blkdev_rw_common2`. -/
def roundBytes (offset : Fin BLKSIZE) (cnt : Nat) : Nat := min (BLKSIZE - offset) cnt

theorem roundBytes_pos (offset : Fin BLKSIZE) {cnt : Nat} (h : 0 < cnt) :
    0 < roundBytes offset cnt := by
  have := offset.isLt
  unfold roundBytes
  omega

/-- The block that holds the byte `pos`: the parameter `blkno` of the cache has 32 bits. -/
def blockAt (dev : UInt32) (blkNo : Nat) : Addr := ⟨dev, UInt32.ofNat blkNo⟩

/-- The loop of `blkdev_read`; `count` is the source's `n`. -/
def blkdevReadLoop (io : Io n) (dev : UInt32) (buf blkNo : Nat) (offset : Fin BLKSIZE)
    (count cnt : Nat) : Option (Io n × Int) :=
  if 0 < cnt then do
    let bytes := roundBytes offset cnt
    let (io, i) ← blkRead io (blockAt dev blkNo)
    let data ← (io.cache.blkbuf i).bData
    let user := splice io.user buf bytes fun k => data (offset + k)
    blkdevReadLoop { io with user := user, cache := blkRelease io.cache i } dev buf (blkNo + 1) 0
      (count + bytes) (cnt - bytes)
  else some (io, count)
termination_by cnt
decreasing_by
  have := roundBytes_pos offset ‹0 < cnt›
  omega

/-- The source's `blkdev_read`. -/
def blkdevRead (io : Io n) (dev : UInt32) (buf pos cnt : Nat) : Option (Io n × Int) :=
  if io.syncing > 0 then some (io, -EBUSY)
  else blkdevReadLoop io dev buf (pos / BLKSIZE) (Fin.ofNat BLKSIZE pos) 0 cnt

/-- The block a round of `blkdev_write` fills: one that is written as a whole is not read in. -/
def writeBuffer (io : Io n) (a : Addr) (bytes : Nat) : Option (Io n × Fin n) :=
  if bytes = BLKSIZE then getblk io a else blkRead io a

/-- The loop of `blkdev_write`. -/
def blkdevWriteLoop (io : Io n) (dev : UInt32) (buf blkNo : Nat) (offset : Fin BLKSIZE)
    (count cnt : Nat) : Option (Io n × Int) :=
  if 0 < cnt then do
    let bytes := roundBytes offset cnt
    let (io, i) ← writeBuffer io (blockAt dev blkNo) bytes
    let data ← (io.cache.blkbuf i).bData
    let data := splice data offset bytes fun k => io.user (buf + k)
    let c := io.cache.set i { io.cache.blkbuf i with bData := some data }
    blkdevWriteLoop { io with cache := blkWriteOver c i } dev buf (blkNo + 1) 0
      (count + bytes) (cnt - bytes)
  else some (io, count)
termination_by cnt
decreasing_by
  have := roundBytes_pos offset ‹0 < cnt›
  omega

/-- The source's `blkdev_write`. -/
def blkdevWrite (io : Io n) (dev : UInt32) (buf pos cnt : Nat) : Option (Io n × Int) :=
  if io.syncing > 0 then some (io, -EBUSY)
  else blkdevWriteLoop io dev buf (pos / BLKSIZE) (Fin.ofNat BLKSIZE pos) 0 cnt

/-! ## The device as bytes -/

/-- The bytes of the largest device `virtio_disk_rw` can address: it computes the number of a
    sector in 32 bits. -/
def deviceSize : Nat := 2 ^ 32 * SECTORSIZE

/-- What a buffer holds of the block `a` once `blk_read` has had it: its own bytes if it is marked
    valid, else those on the disk. -/
def served (io : Io n) (a : Addr) (i : Fin n) : Bytes :=
  if (io.cache.blkbuf i).bValid then (io.cache.blkbuf i).bData.getD (io.disk a) else io.disk a

/-- What a block holds at the moment: its buffer if it is cached, else the disk. -/
def blockNow (io : Io n) (a : Addr) : Bytes :=
  match findBufferInhash io.cache a with
  | some i => served io a i
  | none => io.disk a

/-- The byte at a position of a device. -/
def byteAt (io : Io n) (dev : UInt32) (p : Nat) : UInt8 :=
  blockNow io (blockAt dev (p / BLKSIZE)) (p % BLKSIZE)

/-- The buffer `getblk` returns for a block: the one that caches it, else the one at the end of the
    free list, which must have or get a page.  `none` where `getblk` does not return. -/
def target (io : Io n) (a : Addr) : Option (Fin n) :=
  match findBufferInhash io.cache a with
  | some i => some i
  | none => io.cache.freeList.getLast?.filter fun i => (bufferPage io i).isSome

/-! ## The calls of processes -/

/-- A call of `file_read` or `file_write` on a block device, with the user memory it finds. -/
inductive Call where
  | read (user : Bytes) (dev : UInt32) (buf pos cnt : Nat)
  | write (user : Bytes) (dev : UInt32) (buf pos cnt : Nat)

/-- A call inside the device. -/
def Call.Within : Call → Prop
  | .read _ _ _ pos cnt => pos + cnt ≤ deviceSize
  | .write _ _ _ pos cnt => pos + cnt ≤ deviceSize

/-- One call. -/
def exec (io : Io n) : Call → Option (Io n × Int)
  | .read user dev buf pos cnt => blkdevRead { io with user := user } dev buf pos cnt
  | .write user dev buf pos cnt => blkdevWrite { io with user := user } dev buf pos cnt

/-- The step relation: a call that returns. -/
def Step (io : Io n) (call : Call) (io' : Io n) : Prop := ∃ r, exec io call = some (io', r)

/-- The start: nothing is cached. -/
def start (n : Nat) (disk : Addr → Bytes) (pages : List Bytes) : Io n :=
  { cache := (boot n disk).cache, disk := disk, pages := pages, user := fun _ => 0, syncing := 0 }

end Uniks.BlkDev
