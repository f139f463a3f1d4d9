/-
  `create` of `kernel/sys/sysfile.c` down to the bitmaps: what it takes from the disk, and what its
  `fail:` exit gives back.

  A `World` is the file system of `Uniks.PathCalls` together with the block bitmaps, the block map of
  each inode and `bg_used_dirs_count` of each group.  The three calls of `dirlink` work on these: a
  call of `writei` meets a sync that is running, or a device that delivers some blocks and not others
  (`Meeting`).  Directories are read without trouble, and the bitmaps and the index blocks are always
  delivered.

  What `create` does before it has a new inode is the part of `Uniks.PathCalls`: the inodes a path
  comes by have links or are referred to, so no blocks are freed on the way.
-/
import Uniks.FailedPaths
import Uniks.DirLinkFormat
import Uniks.FileContents

namespace Uniks.Creation

open Uniks.Inode (DInode Slot FileKind freshInode u16)
open Uniks.PathCalls (Stop Fs Str record setRecord setFile grownTo dirOf nameOf)
open Uniks.Sysfile (Pid)
open Uniks.BlockBitmap (Bitmaps Geometry)
open Uniks.ByteMem Uniks.DirLink

/-- The inodes and the disk. -/
structure World where
  fs : Fs
  bitmaps : Bitmaps
  iBlock : Nat → Nat → Nat → UInt32
  blocks : Nat → Bytes
  bgUsedDirsCount : Nat → UInt16

/-- What a call of `dirlink` meets: what is on the stack, and for each of its calls of `writei` a
    sync (`none`) or the blocks that the device delivers. -/
structure Meeting where
  stack : Stack
  first : Option (Nat → Bool)
  second : Option (Nat → Bool)

/-- What `create` meets. -/
structure Setting where
  calls : PathCalls.Env
  geo : Geometry
  dot : Meeting
  dotdot : Meeting
  entry : Meeting

/-- The source's `i_block_group`. -/
def iBlockGroup (c : Setting) (iNo : Nat) : Nat := (iNo - 1) / c.calls.sInodesPerGroup

/-- The blocks of a file. -/
def World.file (w : World) (dev iNo : Nat) (d : DInode) : Bmap.File where
  ino := ⟨w.iBlock dev iNo, UInt32.ofNat d.iBlocks⟩
  bitmaps := w.bitmaps
  data := w.blocks

def World.storeFile (w : World) (dev iNo : Nat) (f : Bmap.File) : World :=
  { w with
    bitmaps := f.bitmaps
    iBlock := setFile w.iBlock dev iNo f.ino.iBlock
    blocks := f.data }

/-! ## Files -/

def EBUSY : Int := 16

/-- The source's `writei` from a kernel buffer. -/
def writei (c : Setting) (w : World) (ip : Slot) (met : Option (Nat → Bool)) (src : Bytes)
    (off n : Nat) : Except Stop (World × Int) :=
  let m := w.fs.inodes.mInodes ip
  let d := m.dInodeCtnt
  match met with
  | none => .ok (w, -EBUSY)
  | some served =>
    if off > d.iSize ∨ (off + n) % 2 ^ 64 < off then .ok (w, -1)
    else if off + n > Bmap.EXT2_MAX_FBLKS * BLKSIZE then .ok (w, -1)
    else
      match Bmap.writeiLoop (Bmap.ballocFor c.geo (iBlockGroup c m.iNo)) served src off n 0
          (w.file m.iDev m.iNo d) with
      | none => .error .panics
      | some (f, tot) => do
        let fs ← PathCalls.iupdate (setRecord w.fs ip (grownTo d (off + tot))) ip
        let data := setFile fs.data m.iDev m.iNo (splice (fs.data m.iDev m.iNo) off tot src)
        return ({ w with fs := { fs with data := data } }.storeFile m.iDev m.iNo f,
          if tot ≠ 0 then tot else - DirLink.EIO)

/-- The source's `itruncate` with length 0. -/
def itruncate (p : Pid) (c : Setting) (w : World) (ip : Slot) : Except Stop World :=
  let m := w.fs.inodes.mInodes ip
  let d := m.dInodeCtnt
  if w.fs.iMtx ip ≠ some p then .error .panics
  else if d.iSize = 0 then .ok w
  else
    match Bmap.shrink c.geo ⟨w.file m.iDev m.iNo d, UInt32.ofNat d.iSize⟩ 0 with
    | none => .error .panics
    | some s => do
      let d := { d with iSize := 0, iBlocks := s.file.ino.iBlocks.toNat }
      let fs ← PathCalls.iupdate (setRecord w.fs ip d) ip
      return { w with fs := fs }.storeFile m.iDev m.iNo s.file

/-- The source's `iput` on a pointer that is not `NULL`. -/
def iput (p : Pid) (c : Setting) (w : World) (ip : Slot) : Except Stop World :=
  let m := w.fs.inodes.mInodes ip
  if m.iCount = 1 ∧ m.iValid ∧ m.dInodeCtnt.iLinksCount = 0 then
    if (w.fs.iMtx ip).isSome then .error .waits
    else do
      let locked := { w.fs with iMtx := Function.update w.fs.iMtx ip (some p) }
      let w ← itruncate p c { w with fs := PathCalls.ifree c.calls locked m.iDev m.iNo } ip
      let iMtx := Function.update w.fs.iMtx ip none
      return { w with fs := { w.fs with inodes := Inode.iput w.fs.inodes ip, iMtx := iMtx } }
  else .ok { w with fs := { w.fs with inodes := Inode.iput w.fs.inodes ip } }

/-- The source's `iunlockput`. -/
def iunlockput (p : Pid) (c : Setting) (w : World) (ip : Slot) : Except Stop World := do
  let fs ← PathCalls.iunlock p w.fs ip
  iput p c { w with fs := fs } ip

/-! ## Directories -/

/-- The end of `dirlink` for a directory that has entries: the new one takes the room behind the one
    at `off`. -/
def insertDe (c : Setting) (w : World) (dp : Slot) (met : Meeting) (off : Nat) (de1 de2 : Bytes) :
    Except Stop (World × Int) := do
  let de1Len := alignaddrUp (sizeofDe + deNameLen de1) 4
  let de2Len := alignaddrUp (sizeofDe + deNameLen de2) 4
  let de2 := setRecLen de2 (deRecLen de1 + 2 ^ 64 - de1Len)
  let (w, res) ← writei c w dp met.first de2 (off + de1Len) de2Len
  if res ≠ de2Len then return (w, -1)
  else
    let (w, res) ← writei c w dp met.second (setRecLen de1 de1Len) off de1Len
    return (w, if res ≠ de1Len then -1 else 0)

/-- The source's `dirlink`. -/
def dirlink (p : Pid) (c : Setting) (w : World) (dp : Slot) (name : Str) (iNo : Nat)
    (met : Meeting) : Except Stop (World × Int) := do
  let (fs, found) ← PathCalls.dirlookup w.fs dp name met.stack.lookupDe
  let w := { w with fs := fs }
  match found with
  | some ip =>
    let w ← iput p c w ip
    return (w, -1)
  | none =>
    let m := w.fs.inodes.mInodes dp
    let dir := dirOf m.dInodeCtnt (w.fs.data m.iDev m.iNo)
    match roomLoop dir (nameOf name).chars.length 0 met.stack.tmpDe with
    | none => .error .loops
    | some (off, de1) =>
      let de2 := fillDe met.stack.newDe (nameOf name) iNo
      if dir.iSize = 0 then
        let (w, res) ← writei c w dp met.first (setRecLen de2 BLKSIZE) off BLKSIZE
        return (w, if res ≠ BLKSIZE then -1 else 0)
      else insertDe c w dp met off de1 de2

/-! ## Creating files -/

/-- The part of `create` that gets an inode and fills it in. -/
def newInode (p : Pid) (c : Setting) (s : Fs) (dev mode : Nat) :
    Except Stop (Fs × Option (Slot × Nat)) := do
  let (s, fresh) ← PathCalls.ialloc c.calls s dev
  match fresh with
  | none => return (s, none)
  | some (ip, iNo) =>
    let s ← PathCalls.ilock p s ip
    let s ← PathCalls.iupdate (setRecord s ip (freshInode mode)) ip
    return (s, some (ip, iNo))

/-- The `fail:` exit of `create`. -/
def createFail (p : Pid) (c : Setting) (w : World) (ip dp : Slot) :
    Except Stop (World × Option Slot) := do
  let fs ← PathCalls.iupdate (setRecord w.fs ip { record w.fs ip with iLinksCount := 0 }) ip
  let w ← iunlockput p c { w with fs := fs } ip
  let w ← iunlockput p c w dp
  return (w, none)

/-- The end of `create` once the new inode's own entries are there. -/
def createEntry (p : Pid) (c : Setting) (w : World) (ip dp : Slot) (name : Str) (kind : FileKind) :
    Except Stop (World × Option Slot) := do
  let (w, res) ← dirlink p c w dp name (w.fs.inodes.mInodes ip).iNo c.entry
  if res < 0 then createFail p c w ip dp
  else
    let fs ← (if kind = .dir then
        let d := record w.fs dp
        PathCalls.iupdate (setRecord w.fs dp { d with iLinksCount := u16 (d.iLinksCount + 1) }) dp
      else .ok w.fs)
    let fs ← PathCalls.iunlock p fs ip
    let w ← iunlockput p c { w with fs := fs } dp
    return (w, some ip)

/-- A directory more in a group. -/
def World.countDir (w : World) (g : Nat) : World :=
  { w with
    bgUsedDirsCount := Function.update w.bgUsedDirsCount g (w.bgUsedDirsCount g + 1) }

/-- The part of `create` that follows when it has an inode: the entries. -/
def createLinks (p : Pid) (c : Setting) (w : World) (ip dp : Slot) (iNo : Nat) (name : Str)
    (kind : FileKind) : Except Stop (World × Option Slot) := do
  if kind = .dir then
    let (w, res) ← dirlink p c w ip PathCalls.dot iNo c.dot
    if res < 0 then createFail p c w ip dp
    else
      let (w, res) ← dirlink p c w ip PathCalls.dotdot (w.fs.inodes.mInodes dp).iNo c.dotdot
      if res < 0 then createFail p c w ip dp
      else createEntry p c (w.countDir (iBlockGroup c iNo)) ip dp name kind
  else createEntry p c w ip dp name kind

/-- The branch of `create` for a name the parent does not hold yet. -/
def createFresh (p : Pid) (c : Setting) (w : World) (dp : Slot) (name : Str) (kind : FileKind)
    (mode : Nat) : Except Stop (World × Option Slot) := do
  let dev := (w.fs.inodes.mInodes dp).iDev
  let (fs, fresh) ← newInode p c w.fs dev mode
  match fresh with
  | none =>
    let w ← iunlockput p c { w with fs := fs } dp
    return (w, none)
  | some (ip, iNo) =>
    createLinks p c { w with fs := fs, iBlock := setFile w.iBlock dev iNo fun _ => 0 } ip dp iNo
      name kind

/-- The branch of `create` for a name the parent holds. -/
def createFound (p : Pid) (c : Setting) (s : Fs) (dp ip : Slot) (kind : FileKind) :
    Except Stop (Fs × Option Slot) := do
  let s ← PathCalls.iunlockput p c.calls s dp
  let s ← PathCalls.ilock p s ip
  if PathCalls.fits kind (record s ip).iMode then
    let s ← PathCalls.iunlock p s ip
    return (s, some ip)
  else
    let s ← PathCalls.iunlockput p c.calls s ip
    return (s, none)

/-- The source's `create`. -/
def create (p : Pid) (c : Setting) (w : World) (icwd : Slot) (path : Str) (kind : FileKind)
    (mode : Nat) : Except Stop (World × Option Slot) := do
  let (fs, r) ← PathCalls.nameiparent p c.calls w.fs icwd path
  match r with
  | none => return ({ w with fs := fs }, none)
  | some (dp, name) =>
    let fs ← PathCalls.ilock p fs dp
    let (fs, found) ← PathCalls.dirlookup fs dp name (c.calls.lookupStack [name])
    match found with
    | none => createFresh p c { w with fs := fs } dp name kind mode
    | some ip =>
      let (fs, r) ← createFound p c fs dp ip kind
      return ({ w with fs := fs }, r)

end Uniks.Creation
