/-
  The in-memory inode table of `fs/ext2fs.c`, as far as references to inodes go.

  A slot of `inode_table.m_inodes` is a `MInode`; a pointer `struct m_inode_t *` is its index.
  Every function returns `none` where the source does not return to its caller: a failed
  assertion (`panic` shuts the machine down) or a process that blocks because every slot is
  taken.  What the directory and data blocks hold is not part of this component, so it enters as
  an argument: `Walk` lists, for each component of a path, the inode number that `dirlookup`
  finds, and `CreateEnv` how the lookups and allocations inside `create` end.
-/
import Uniks.Lib.Slots
import Mathlib.Data.Fintype.Basic
import Mathlib.Data.List.FinRange
import Mathlib.Logic.Function.Basic

namespace Uniks.Inode

/-- The number of slots, from `param.h`. -/
abbrev NINODE : Nat := 512

/-- A pointer into `inode_table.m_inodes`. -/
abbrev Slot := Fin NINODE

/-- The value a `uint16_t` field takes when `n` is stored in it. -/
def u16 (n : Nat) : Nat := n % 65536

/-! ## Data -/

/-- The fields of `struct ext2_inode_t` that these functions read or write. -/
structure DInode where
  iMode : Nat
  iSize : Nat
  iLinksCount : Nat
  iBlocks : Nat
  deriving DecidableEq, Repr

/-- The two flags of the `struct pipe_t` that overlays the inode of a pipe. -/
structure PipeNode where
  readopen : Bool
  writeopen : Bool
  deriving DecidableEq, Repr

/-- A slot: `struct m_inode_t`. -/
structure MInode where
  dInodeCtnt : DInode
  pipeNode : PipeNode
  iDev : Nat
  iNo : Nat
  iValid : Bool
  iCount : Nat
  deriving DecidableEq, Repr

/-- The inode table, and the inode records on disk that `ilock` reads and `iupdate` writes. -/
structure InodeTable where
  mInodes : Slot → MInode
  diskInode : Nat → Nat → DInode

/-- Store one slot. -/
def InodeTable.set (t : InodeTable) (ip : Slot) (m : MInode) : InodeTable :=
  { t with mInodes := Function.update t.mInodes ip m }

@[simp] theorem InodeTable.set_self (t : InodeTable) (ip : Slot) (m : MInode) :
    (t.set ip m).mInodes ip = m := Function.update_self ..

theorem InodeTable.set_of_ne (t : InodeTable) {ip jp : Slot} (m : MInode) (h : jp ≠ ip) :
    (t.set ip m).mInodes jp = t.mInodes jp := Function.update_of_ne h ..

/-! ## File modes -/

def fileType (mode : Nat) : Nat := mode &&& 0xf000

def isReg (mode : Nat) : Bool := fileType mode == 0x8000
def isBlk (mode : Nat) : Bool := fileType mode == 0x6000
def isDir (mode : Nat) : Bool := fileType mode == 0x4000
def isChr (mode : Nat) : Bool := fileType mode == 0x2000
def isFifo (mode : Nat) : Bool := fileType mode == 0x1000

def EXT2_S_IFREG : Nat := 0x8000
def EXT2_S_IFDIR : Nat := 0x4000
def EXT2_S_IFIFO : Nat := 0x1000

/-- The source's `inode_table_init`. -/
def inodeTableInit (t : InodeTable) : InodeTable :=
  { t with mInodes := fun ip => { t.mInodes ip with iCount := 0, iDev := 0 } }

/-! ## Getting, duplicating and dropping references -/

/-- The scan of `iget`: the slot that already carries `(dev, i_no)`. -/
def igetMatch (t : InodeTable) (dev iNo : Nat) : Option Slot :=
  (List.finRange NINODE).find? fun ip => (t.mInodes ip).iDev == dev && (t.mInodes ip).iNo == iNo

/-- The first slot without a reference. -/
def firstIdle (t : InodeTable) : Option Slot :=
  (List.finRange NINODE).find? fun ip => (t.mInodes ip).iCount == 0

/-- The source's `iget`; it blocks (`none`) while every slot is referenced. -/
def iget (t : InodeTable) (dev iNo : Nat) (clean : Bool) : Option (InodeTable × Slot) :=
  match igetMatch t dev iNo with
  | some ip => some (t.set ip { t.mInodes ip with iCount := u16 ((t.mInodes ip).iCount + 1) }, ip)
  | none =>
    match firstIdle t with
    | some ip =>
      some (t.set ip { t.mInodes ip with iDev := dev, iNo := iNo, iValid := clean,
                                         iCount := u16 ((t.mInodes ip).iCount + 1) }, ip)
    | none => none

/-- The source's `idup` on a pointer that is not `NULL`. -/
def idup (t : InodeTable) (ip : Slot) : Option InodeTable :=
  if (t.mInodes ip).iCount ≥ 1 then
    some (t.set ip { t.mInodes ip with iCount := u16 ((t.mInodes ip).iCount + 1) })
  else none

/-- The source's `ilock`: the record is read from disk unless it is there already. -/
def ilock (t : InodeTable) (ip : Slot) : Option InodeTable :=
  if (t.mInodes ip).iCount ≥ 1 then
    if (t.mInodes ip).iValid then some t
    else
      some (t.set ip { t.mInodes ip with
        dInodeCtnt := t.diskInode (t.mInodes ip).iDev (t.mInodes ip).iNo, iValid := true })
  else none

/-- The source's `iunlock`: only its assertions can be seen here. -/
def iunlock (t : InodeTable) (ip : Slot) : Option InodeTable :=
  if (t.mInodes ip).iCount ≥ 1 then some t else none

/-- The source's `iupdate`. -/
def iupdate (t : InodeTable) (ip : Slot) : Option InodeTable :=
  if (t.mInodes ip).iValid then
    some { t with diskInode := fun dev iNo =>
      if dev = (t.mInodes ip).iDev ∧ iNo = (t.mInodes ip).iNo then (t.mInodes ip).dInodeCtnt
      else t.diskInode dev iNo }
  else none

/-- What `itruncate` does to the inode record.  `blocks` is the new `i_blocks`; `grown` is how far
    the zero-filling `writei` calls of the growing branch get. -/
def itruncate (d : DInode) (length blocks grown : Nat) : DInode × Int :=
  if length > d.iSize then
    if grown ≥ length then ({ d with iSize := length, iBlocks := blocks }, 0)
    else ({ d with iSize := grown, iBlocks := blocks }, -1)
  else if length < d.iSize then ({ d with iSize := length, iBlocks := blocks }, 0)
  else (d, 0)

/-- The source's `itruncate` on a slot: the record changes and is written back. -/
def itruncateSlot (t : InodeTable) (ip : Slot) (length blocks grown : Nat) :
    Option (InodeTable × Int) :=
  let m := t.mInodes ip
  let (d, res) := itruncate m.dInodeCtnt length blocks grown
  if length = m.dInodeCtnt.iSize then some (t, res)
  else (iupdate (t.set ip { m with dInodeCtnt := d }) ip).map fun t => (t, res)

/-- The part of `iput` that frees an inode nobody links to any more. -/
def iputFree (m : MInode) : MInode :=
  if m.iCount = 1 ∧ m.iValid ∧ m.dInodeCtnt.iLinksCount = 0 then
    { m with dInodeCtnt := (itruncate m.dInodeCtnt 0 0 0).1, iValid := false }
  else m

/-- The source's `iput` on a pointer that is not `NULL`. -/
def iput (t : InodeTable) (ip : Slot) : InodeTable :=
  let m := iputFree (t.mInodes ip)
  t.set ip { m with iCount := u16 (m.iCount + 65535) }

/-- The source's `iunlockput`. -/
def iunlockput (t : InodeTable) (ip : Slot) : Option InodeTable :=
  (iunlock t ip).map fun t => iput t ip

/-- The source's `pipealloc`, once it has its page: the first idle slot becomes the pipe. -/
def pipealloc (t : InodeTable) : Option (InodeTable × Slot) :=
  match firstIdle t with
  | some ip =>
    let m := t.mInodes ip
    some (t.set ip { m with iCount := u16 (m.iCount + 1), iDev := 0,
                            dInodeCtnt := { m.dInodeCtnt with iMode := EXT2_S_IFIFO },
                            pipeNode := { readopen := true, writeopen := true } }, ip)
  | none => none

/-! ## The scans -/

section Scan

variable {t : InodeTable} {ip : Slot}

theorem igetMatch_some {dev iNo : Nat} (h : igetMatch t dev iNo = some ip) :
    (t.mInodes ip).iDev = dev ∧ (t.mInodes ip).iNo = iNo := by
  have hp := List.find?_some h
  rw [Bool.and_eq_true, beq_iff_eq, beq_iff_eq] at hp
  exact hp

theorem igetMatch_none {dev iNo : Nat} (h : igetMatch t dev iNo = none) (jp : Slot)
    (hdev : (t.mInodes jp).iDev = dev) : (t.mInodes jp).iNo ≠ iNo := by
  intro hno
  have hp := List.find?_eq_none.mp h jp (List.mem_finRange jp)
  rw [Bool.and_eq_true, beq_iff_eq, beq_iff_eq] at hp
  exact hp ⟨hdev, hno⟩

theorem firstIdle_some (h : firstIdle t = some ip) : (t.mInodes ip).iCount = 0 := by
  unfold firstIdle at h
  have hp := List.find?_some h
  exact beq_iff_eq.mp hp

theorem firstIdle_none (h : firstIdle t = none) (jp : Slot) : (t.mInodes jp).iCount ≠ 0 := by
  intro hzero
  exact List.find?_eq_none.mp h jp (List.mem_finRange jp) (beq_iff_eq.mpr hzero)

end Scan

/-! ## Paths -/

/-- A path as `namex` sees it: absolute or not, and for each component the inode number the
    directory gives for it (`none` = the directory has no such entry). -/
structure Walk where
  absolute : Bool
  comps : List (Option Nat)

def EXT2_ROOT_INO : Nat := 2

/-- The device the file system lies on, `m_sb.sb_dev` (`VIRTIO_IRQ`). -/
def sbDev : Nat := 1

/-- The while loop of `namex`. -/
def namexLoop (parent : Bool) : List (Option Nat) → InodeTable → Slot →
    Option (InodeTable × Option Slot)
  | [], t, ip => if parent then some (iput t ip, none) else some (t, some ip)
  | c :: cs, t, ip => do
    let t ← ilock t ip
    if isDir (t.mInodes ip).dInodeCtnt.iMode then
      if parent && cs.isEmpty then
        -- stop one level early
        let t ← iunlock t ip
        return (t, some ip)
      else
        match c with
        | none =>
          let t ← iunlockput t ip
          return (t, none)
        | some iNo =>
          let (t, next) ← iget t (t.mInodes ip).iDev iNo false
          let t ← iunlockput t ip
          namexLoop parent cs t next
    else none

/-- The source's `namex`. -/
def namex (t : InodeTable) (icwd : Slot) (path : Walk) (parent : Bool) :
    Option (InodeTable × Option Slot) := do
  if path.absolute then
    let (t, ip) ← iget t sbDev EXT2_ROOT_INO false
    namexLoop parent path.comps t ip
  else
    let t ← idup t icwd
    namexLoop parent path.comps t icwd

def namei (t : InodeTable) (icwd : Slot) (path : Walk) : Option (InodeTable × Option Slot) :=
  namex t icwd path false

def nameiparent (t : InodeTable) (icwd : Slot) (path : Walk) :
    Option (InodeTable × Option Slot) :=
  namex t icwd path true

/-! ## Creating files -/

/-- How a `dirlink` call ends: the entry `dirlookup` finds under that name, if any, and whether
    the `writei` calls that store the new entry succeed. -/
structure LinkEnv where
  found : Option Nat
  written : Bool

def BLKSIZE : Nat := 4096

/-- The source's `dirlink` on a locked directory. -/
def dirlink (t : InodeTable) (dp : Slot) (env : LinkEnv) : Option (InodeTable × Int) := do
  if isDir (t.mInodes dp).dInodeCtnt.iMode then
    match env.found with
    | some iNo =>
      let (t, ip) ← iget t (t.mInodes dp).iDev iNo false
      return (iput t ip, -1)
    | none =>
      if env.written then
        let m := t.mInodes dp
        let d := m.dInodeCtnt
        let t := t.set dp { m with dInodeCtnt :=
          if d.iSize = 0 then { d with iSize := BLKSIZE, iBlocks := 16 } else d }
        let t ← iupdate t dp
        return (t, 0)
      else return (t, -1)
  else none

/-- The two kinds of file `create` is called for. -/
inductive FileKind where
  | regfile
  | dir
  deriving DecidableEq

/-- How the lookups and allocations inside `create` end: the parent walk, the entry of that name
    in the parent, the inode number `ialloc` marks, and the three `dirlink` calls. -/
structure CreateEnv where
  walk : Walk
  found : Option Nat
  fresh : Option Nat
  dot : LinkEnv
  dotdot : LinkEnv
  entry : LinkEnv

/-- The initialisation of a fresh inode in `create`. -/
def freshInode (mode : Nat) : DInode := { iMode := mode, iSize := 0, iLinksCount := 1, iBlocks := 0 }

/-- The `fail:` exit of `create`. -/
def createFail (t : InodeTable) (ip dp : Slot) : Option (InodeTable × Option Slot) := do
  let m := t.mInodes ip
  let t := t.set ip { m with dInodeCtnt := { m.dInodeCtnt with iLinksCount := 0 } }
  let t ← iupdate t ip
  let t ← iunlockput t ip
  let t ← iunlockput t dp
  return (t, none)

/-- The end of `create` once the new inode's own entries are there. -/
def createEntry (t : InodeTable) (ip dp : Slot) (kind : FileKind) (entry : LinkEnv) :
    Option (InodeTable × Option Slot) := do
  let (t, res) ← dirlink t dp entry
  if res < 0 then createFail t ip dp
  else
    let t ← (if kind = .dir then do
        let m := t.mInodes dp
        let t := t.set dp { m with dInodeCtnt :=
          { m.dInodeCtnt with iLinksCount := u16 (m.dInodeCtnt.iLinksCount + 1) } }
        iupdate t dp
      else some t)
    let t ← iunlock t ip
    let t ← iunlockput t dp
    return (t, some ip)

/-- The branch of `create` for a name the parent does not hold yet. -/
def createFresh (t : InodeTable) (dp : Slot) (iNo : Nat) (kind : FileKind) (mode : Nat)
    (env : CreateEnv) : Option (InodeTable × Option Slot) := do
  let (t, ip) ← iget t (t.mInodes dp).iDev iNo true
  let t ← ilock t ip
  let t := t.set ip { t.mInodes ip with dInodeCtnt := freshInode mode }
  let t ← iupdate t ip
  if kind = .dir then
    let (t, res) ← dirlink t ip env.dot
    if res < 0 then createFail t ip dp
    else
      let (t, res) ← dirlink t ip env.dotdot
      if res < 0 then createFail t ip dp
      else createEntry t ip dp kind env.entry
  else createEntry t ip dp kind env.entry

/-- The branch of `create` for a name the parent already holds. -/
def createFound (t : InodeTable) (dp : Slot) (iNo : Nat) (kind : FileKind) :
    Option (InodeTable × Option Slot) := do
  let (t, ip) ← iget t (t.mInodes dp).iDev iNo false
  let t ← iunlockput t dp
  let t ← ilock t ip
  let mode := (t.mInodes ip).dInodeCtnt.iMode
  if kind = .regfile && (isReg mode || isBlk mode || isChr mode) then
    let t ← iunlock t ip
    return (t, some ip)
  else
    let t ← iunlockput t ip
    return (t, none)

/-- The source's `create`. -/
def create (t : InodeTable) (icwd : Slot) (kind : FileKind) (mode : Nat) (env : CreateEnv) :
    Option (InodeTable × Option Slot) := do
  let (t, dp) ← nameiparent t icwd env.walk
  match dp with
  | none => return (t, none)
  | some dp =>
    let t ← ilock t dp
    if isDir (t.mInodes dp).dInodeCtnt.iMode then
      match env.found with
      | some iNo => createFound t dp iNo kind
      | none =>
        match env.fresh with
        | none =>
          let t ← iunlockput t dp
          return (t, none)
        | some iNo => createFresh t dp iNo kind mode env
    else none

end Uniks.Inode
