/-
  The disk driver: `kernel/device/virtio_disk.c`.

  A request takes three descriptors, chains them, puts the first one into the avail ring and sleeps
  until `b_disk` of its buffer is 0.  The device takes the heads of the chains out of the avail ring,
  finishes the requests in any order and puts their heads into the used ring; the interrupt handler
  looks up the buffer that was noted under the head.

  Driver and handler run under the lock of the disk, so a step of theirs is what they do from where
  they take it to where they give it up; but the device does not know of the lock, so the handler
  makes a step of its own for each turn of its loop.  A process uses only a buffer that it has
  locked (`Uniks.Mutex`).

  `submitted` and `reported` are not in the source: the heads in the avail ring that the device has
  not taken yet, and those in the used ring that the handler has not seen yet.
-/
import Uniks.Lib.Runs
import Uniks.Lib.IndexRing
import Uniks.WaitList

namespace Uniks.VirtioDisk

open Uniks.Runs Uniks.IndexRing Uniks.WaitList
open Function (update)

abbrev Pid := Nat
/-- A `struct blkbuf_t *`. -/
abbrev Buf := Nat

abbrev VIRTIO_DESC_NUM : Nat := 64
abbrev VRING_DESC_F_NEXT : Nat := 1
abbrev VRING_DESC_F_READ : Nat := 0
abbrev VRING_DESC_F_WRITE : Nat := 2
abbrev VIRTIO_BLK_T_IN : Nat := 0
abbrev VIRTIO_BLK_T_OUT : Nat := 1
abbrev BLKSIZE : Nat := 4096
abbrev SECTORSIZE : Nat := 512

/-! ## Data -/

/-- What a descriptor points to: `&disk.ops[i]`, `bb->b_data` or `&disk.info[i].status`. -/
inductive Addr where
  | null
  | op (i : Nat)
  | data (bb : Buf)
  | status (i : Nat)
  deriving DecidableEq, Repr

/-- The C type `struct virtq_desc_t`. -/
structure VirtqDesc where
  addr : Addr
  len : Nat
  flags : Nat
  next : Nat
  deriving DecidableEq, Repr

def VirtqDesc.zero : VirtqDesc := ⟨.null, 0, 0, 0⟩

/-- The C type `struct virtio_blk_req_t`. -/
structure VirtioBlkReq where
  type : Nat
  reserved : Nat
  sector : Nat
  deriving DecidableEq, Repr

/-- The C type `struct virtq_avail_t`. -/
structure VirtqAvail where
  index : UInt16
  ring : Nat → Nat

/-- The C type `struct virtq_used_elem_t`. -/
structure VirtqUsedElem where
  id : Nat
  len : Nat
  deriving DecidableEq, Repr

/-- The C type `struct virtq_used_t`. -/
structure VirtqUsed where
  index : UInt16
  ring : Nat → VirtqUsedElem

/-- An entry of `disk.info`. -/
structure Info where
  buf : Option Buf
  status : Int
  deriving DecidableEq, Repr

/-- The C type `struct disk_t`, without its lock. -/
structure DiskT where
  waitList : List Pid
  desc : Nat → VirtqDesc
  avail : VirtqAvail
  used : VirtqUsed
  free : Nat → Bool
  usedIndex : UInt16
  info : Nat → Info
  ops : Nat → VirtioBlkReq

/-- What the driver uses of `struct blkbuf_t`. -/
structure Blkbuf where
  bBlkno : UInt32
  bValid : Bool
  bDisk : Bool
  diskWaitList : List Pid

/-- A request in flight: the arguments of `virtio_disk_rw` and its local array `index`. -/
structure Request where
  bb : Buf
  write : Bool
  i0 : Nat
  i1 : Nat
  i2 : Nat
  deriving DecidableEq, Repr

def Request.index (r : Request) : List Nat := [r.i0, r.i1, r.i2]

/-- Where a process is. -/
inductive Place where
  | outside
  /-- In the loop around `alloc3_desc`. -/
  | allocating (bb : Buf) (write : Bool)
  /-- In the loop that waits for the handler. -/
  | waiting (r : Request)
  deriving DecidableEq, Repr

/-- The driver, the device and the users. -/
structure State where
  disk : DiskT
  buf : Buf → Blkbuf
  blocked : Pid → Bool
  place : Pid → Place
  /-- Who has locked a buffer. -/
  owner : Buf → Option Pid
  /-- The handler has the lock of the disk; it runs on top of this process, if any. -/
  handler : Option (Option Pid)
  /-- How far the device has looked into the avail ring. -/
  devIndex : UInt16
  /-- The requests that the device works on. -/
  outstanding : List Nat
  submitted : List Nat
  reported : List VirtqUsedElem

/-! ## Descriptors -/

/-- The source's `alloc_desc`; `none` is -1. -/
def allocDesc (free : Nat → Bool) : Option Nat := (List.range VIRTIO_DESC_NUM).find? free

/-- The source's `free_1_descriptor`. -/
def free1Descriptor (p : Pid) (s : State) (i : Nat) : Option State :=
  if i < VIRTIO_DESC_NUM ∧ s.disk.free i = false then do
    let d := { s.disk with
      desc := update s.disk.desc i .zero, free := update s.disk.free i true }
    let blocked ← procUnblockAll (some p) d.waitList s.blocked
    return { s with disk := { d with waitList := [] }, blocked := blocked }
  else none

/-- The source's `free_descriptor_list`.  Every turn frees one more descriptor, so there are at most
    `VIRTIO_DESC_NUM` turns. -/
def freeDescriptorList (p : Pid) : Nat → State → Nat → Option State
  | 0, _, _ => none
  | turns + 1, s, i => do
    let flag := (s.disk.desc i).flags
    let nxt := (s.disk.desc i).next
    let s ← free1Descriptor p s i
    if flag &&& VRING_DESC_F_NEXT ≠ 0 then freeDescriptorList p turns s nxt else return s

/-- The inner loop of `alloc3_desc`. -/
def giveBack (p : Pid) : List Nat → State → Option State
  | [], s => some s
  | i :: index, s => (free1Descriptor p s i).bind (giveBack p index)

/-- The last turns of the loop of `alloc3_desc`, with the descriptors that it has already. -/
def allocTurns (p : Pid) : Nat → List Nat → State → Option (State × Option (List Nat))
  | 0, index, s => some (s, some index)
  | turns + 1, index, s =>
    match allocDesc s.disk.free with
    | none => (giveBack p index s).map fun s => (s, none)
    | some i =>
      allocTurns p turns (index ++ [i])
        { s with disk := { s.disk with free := update s.disk.free i false } }

/-- The source's `alloc3_desc`; `none` for the descriptors is -1. -/
def alloc3Desc (p : Pid) (s : State) : Option (State × Option (List Nat)) := allocTurns p 3 [] s

/-! ## Requests -/

def sectorOf (blkno : UInt32) : Nat := (blkno * UInt32.ofNat (BLKSIZE / SECTORSIZE)).toNat

def dirFlag (write : Bool) : Nat := if write then VRING_DESC_F_READ else VRING_DESC_F_WRITE

/-- The header of a request, for the device. -/
def Request.op (r : Request) (blkno : UInt32) : VirtioBlkReq where
  type := if r.write then VIRTIO_BLK_T_OUT else VIRTIO_BLK_T_IN
  reserved := 0
  sector := sectorOf blkno

def Request.desc0 (r : Request) : VirtqDesc := ⟨.op r.i0, 16, VRING_DESC_F_NEXT, r.i1⟩

def Request.desc1 (r : Request) : VirtqDesc :=
  ⟨.data r.bb, BLKSIZE, dirFlag r.write ||| VRING_DESC_F_NEXT, r.i2⟩

def Request.desc2 (r : Request) : VirtqDesc := ⟨.status r.i0, 1, VRING_DESC_F_WRITE, 0⟩

/-- `virtio_disk_rw` from behind the first loop to the second one. -/
def submit (s : State) (p : Pid) (r : Request) : State :=
  let d := s.disk
  let d := { d with ops := update d.ops r.i0 (r.op (s.buf r.bb).bBlkno) }
  let d := { d with desc := update d.desc r.i0 r.desc0 }
  let d := { d with desc := update d.desc r.i1 r.desc1 }
  let d := { d with info := update d.info r.i0 { d.info r.i0 with status := -1 } }
  let d := { d with desc := update d.desc r.i2 r.desc2 }
  let s := { s with buf := update s.buf r.bb { s.buf r.bb with bDisk := true } }
  let d := { d with info := update d.info r.i0 { d.info r.i0 with buf := some r.bb } }
  let ring := update d.avail.ring (slot VIRTIO_DESC_NUM d.avail.index) r.i0
  let d := { d with avail := ⟨d.avail.index + 1, ring⟩ }
  { s with
    disk := d
    place := update s.place p (.waiting r)
    submitted := s.submitted ++ [r.i0] }

/-- The second loop of `virtio_disk_rw`, up to where it blocks, and what comes behind it. -/
def waitDisk (s : State) (p : Pid) (r : Request) : Option State :=
  let bb := s.buf r.bb
  if bb.bDisk then do
    let (blocked, waitList) ← procBlock s.blocked bb.diskWaitList p
    return { s with
      buf := update s.buf r.bb { bb with diskWaitList := waitList }, blocked := blocked }
  else do
    let info := update s.disk.info r.i0 { s.disk.info r.i0 with buf := none }
    let s := { s with disk := { s.disk with info := info } }
    let s ← freeDescriptorList p VIRTIO_DESC_NUM s r.i0
    return { s with place := update s.place p .outside }

/-- The source's `virtio_disk_rw`, once it has the lock, up to where it blocks. -/
def virtioDiskRw (s : State) (p : Pid) (bb : Buf) (write : Bool) : Option State := do
  match ← alloc3Desc p s with
  | (s, some [i0, i1, i2]) =>
    let r : Request := ⟨bb, write, i0, i1, i2⟩
    waitDisk (submit s p r) p r
  | (s, _) =>
    let (blocked, waitList) ← procBlock s.blocked s.disk.waitList p
    return { s with disk := { s.disk with waitList := waitList }, blocked := blocked }

/-! ## The handler and the device -/

/-- A turn of the loop of `do_virtio_disk_interrupt`; without a buffer it is a fault. -/
def interruptTurn (s : State) (me : Option Pid) : Option State := do
  let id := (s.disk.used.ring (slot VIRTIO_DESC_NUM s.disk.usedIndex)).id
  if (s.disk.info id).status = 0 then do
    let b ← (s.disk.info id).buf
    let bb := { s.buf b with bDisk := false, bValid := true }
    let blocked ← procUnblockAll me bb.diskWaitList s.blocked
    return { s with
      buf := update s.buf b { bb with diskWaitList := [] }
      blocked := blocked
      disk := { s.disk with usedIndex := s.disk.usedIndex + 1 }
      reported := s.reported.tail }
  else none

/-- The device takes the next head out of the avail ring. -/
def consume (s : State) : State :=
  { s with
    devIndex := s.devIndex + 1
    outstanding := s.disk.avail.ring (slot VIRTIO_DESC_NUM s.devIndex) :: s.outstanding
    submitted := s.submitted.tail }

/-- Where the last descriptor of a chain points to. -/
def statusAddr (desc : Nat → VirtqDesc) (id : Nat) : Addr :=
  (desc (desc (desc id).next).next).addr

/-- The device writes a status. -/
def writeStatus (info : Nat → Info) : Addr → Int → Nat → Info
  | .status i, v => update info i { info i with status := v }
  | _, _ => info

/-- The device reports a request with status 0. -/
def complete (s : State) (e : VirtqUsedElem) : State :=
  let d := { s.disk with info := writeStatus s.disk.info (statusAddr s.disk.desc e.id) 0 }
  let ring := update d.used.ring (slot VIRTIO_DESC_NUM d.used.index) e
  { s with
    disk := { d with used := ⟨d.used.index + 1, ring⟩ }
    outstanding := s.outstanding.erase e.id
    reported := s.reported ++ [e] }

/-! ## Steps -/

inductive Input where
  /-- The buffer may have got another block since. -/
  | lock (p : Pid) (bb : Buf) (blkno : UInt32)
  | unlock (p : Pid) (bb : Buf)
  | call (p : Pid) (bb : Buf) (write : Bool)
  | allocate (p : Pid)
  | wake (p : Pid)
  | interrupt (me : Option Pid)
  | turn
  | interruptEnd
  | consume
  | complete (e : VirtqUsedElem)
  deriving DecidableEq, Repr

/-- Who makes a step: nobody who sleeps, and the driver and the handler only with the lock. -/
def Enabled (s : State) : Input → Prop
  | .lock p bb _ => s.owner bb = none ∧ s.blocked p = false
  | .unlock p bb => s.owner bb = some p ∧ s.place p = .outside
  | .call p bb _ => s.owner bb = some p ∧ s.place p = .outside
  | .allocate p => (∃ bb write, s.place p = .allocating bb write) ∧ s.blocked p = false ∧
      s.handler = none
  | .wake p => (∃ r, s.place p = .waiting r) ∧ s.blocked p = false ∧ s.handler = none
  | .interrupt me => s.handler = none ∧ ∀ p, me = some p → s.blocked p = false
  | .turn => s.handler ≠ none ∧ s.disk.usedIndex ≠ s.disk.used.index
  | .interruptEnd => s.handler ≠ none ∧ s.disk.usedIndex = s.disk.used.index
  | .consume => s.devIndex ≠ s.disk.avail.index
  | .complete e => e.id ∈ s.outstanding

instance (pl : Place) : Decidable (∃ bb write, pl = .allocating bb write) :=
  match pl with
  | .outside => isFalse fun ⟨_, _, h⟩ => nomatch h
  | .allocating bb write => isTrue ⟨bb, write, rfl⟩
  | .waiting _ => isFalse fun ⟨_, _, h⟩ => nomatch h

instance (pl : Place) : Decidable (∃ r, pl = .waiting r) :=
  match pl with
  | .outside => isFalse fun ⟨_, h⟩ => nomatch h
  | .allocating _ _ => isFalse fun ⟨_, h⟩ => nomatch h
  | .waiting r => isTrue ⟨r, rfl⟩

instance (s : State) (i : Input) : Decidable (Enabled s i) := by
  cases i <;> unfold Enabled <;> infer_instance

/-- What happens; `none` is a failed assertion or a fault. -/
def next (s : State) : Input → Option State
  | .lock p bb blkno => some { s with
      owner := update s.owner bb (some p)
      buf := update s.buf bb { s.buf bb with bBlkno := blkno } }
  | .unlock _ bb => some { s with owner := update s.owner bb none }
  | .call p bb write => some { s with place := update s.place p (.allocating bb write) }
  | .allocate p =>
    match s.place p with
    | .allocating bb write => virtioDiskRw s p bb write
    | _ => none
  | .wake p =>
    match s.place p with
    | .waiting r => waitDisk s p r
    | _ => none
  | .interrupt me => some { s with handler := some me }
  | .turn => s.handler.bind fun me => interruptTurn s me
  | .interruptEnd => some { s with handler := none }
  | .consume => some (VirtioDisk.consume s)
  | .complete e => some (VirtioDisk.complete s e)

def Step (s : State) (i : Input) (s' : State) : Prop := Enabled s i ∧ next s i = some s'

/-- After `virtio_disk_init`. -/
def start : State where
  disk :=
    { waitList := [], desc := fun _ => .zero, avail := ⟨0, fun _ => 0⟩, used := ⟨0, fun _ => ⟨0, 0⟩⟩
      free := fun _ => true, usedIndex := 0, info := fun _ => ⟨none, 0⟩, ops := fun _ => ⟨0, 0, 0⟩ }
  buf := fun _ => ⟨0, false, false, []⟩
  blocked := fun _ => false
  place := fun _ => .outside
  owner := fun _ => none
  handler := none
  devIndex := 0
  outstanding := []
  submitted := []
  reported := []

end Uniks.VirtioDisk
