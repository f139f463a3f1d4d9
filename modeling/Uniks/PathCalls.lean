/-
  The system calls of `kernel/sys/sysfile.c` that take a path, with all they touch on their way:
  the user memory a path is fetched from, the mutex of each inode, the bytes of the directories and
  the inode bitmap on disk.

  References and records are those of `Uniks.Inode`, directories those of `Uniks.DirLink`, and the
  functions of both are used here; added to them are who holds the `i_mtx` of each slot, and what
  `iput` does to the disk when it frees an inode.  What the block allocator and `bunmap` meet is an
  argument (`Env`).

  `Stop` says how a call ends that does not come back: a failed assertion, or a wild or `NULL`
  pointer (`panics`); a process that sleeps until another one gives something up (`waits`); a loop
  that goes on for ever (`loops`).  The result of a call is `none` where the source returns a
  variable it has not assigned.
-/
import Uniks.DirLink
import Uniks.Sysfile

namespace Uniks.PathCalls

open Uniks.Inode Uniks.Sysfile Uniks.ByteMem

abbrev PGSIZE : Nat := 4096
abbrev MAXVA : Nat := 2 ^ 38
abbrev PATH_MAX : Nat := 1024
abbrev EXT2_NAME_LEN : Nat := 255

inductive Stop where
  | panics
  | waits
  | loops
  deriving DecidableEq

/-- The bytes of a string, without the zero at its end. -/
abbrev Str := List UInt8

def slash : UInt8 := 47

/-! ## Fetching a path -/

/-- The memory of the process: whether `verify_area` admits a range for reading, or how it stops,
    and the pages the user can read afterwards. -/
structure UserMem where
  verify : Nat → Nat → Except Stop Bool
  page : Nat → Option (Nat → UInt8)

/-- The source's `walkaddr`; `none` is 0. -/
def walkaddr (um : UserMem) (va : Nat) : Except Stop (Option (Nat → UInt8)) :=
  -- assert(va < MAXVA), in `walk`
  if va < MAXVA then .ok (um.page (va / PGSIZE)) else .error .panics

/-- The source's `copyin_string`; `none` is -1. -/
def copyinString (um : UserMem) (srcva max : Nat) : Except Stop (Option Str) :=
  if 0 < max then
    match walkaddr um (srcva / PGSIZE * PGSIZE) with
    | .error stop => .error stop
    | .ok none => .ok none
    | .ok (some page) =>
      let off := srcva % PGSIZE
      let n := min (PGSIZE - off) max
      let part := (List.range n).map fun k => page (off + k)
      let str := part.takeWhile (· != 0)
      if str.length < n then .ok (some str)
      else
        (copyinString um ((srcva / PGSIZE + 1) * PGSIZE % 2 ^ 64) (max - n)).map
          (Option.map (part ++ ·))
  else .ok none
termination_by max
decreasing_by
  have hoff : srcva % PGSIZE < PGSIZE := Nat.mod_lt _ (by decide)
  omega

/-- The loop of `argstrfetch`.  A part without a zero is fetched to where the next part goes, too:
    the string that is left is that of the last part.  When `max` is used up the loop stays where
    it is. -/
def argstrLoop (um : UserMem) (vaddr offset max : Nat) : Except Stop (Option Str) :=
  let bytes := min (PGSIZE - offset) max
  match um.verify vaddr bytes with
  | .error stop => .error stop
  | .ok false => .ok none
  | .ok true =>
    match copyinString um vaddr bytes with
    | .error stop => .error stop
    | .ok (some str) => .ok (some str)
    | .ok none =>
      if 0 < bytes then argstrLoop um ((vaddr + bytes) % 2 ^ 64) 0 (max - bytes)
      else .error .loops
termination_by max

/-- The source's `argstrfetch`; `none` is -1. -/
def argstrfetch (um : UserMem) (vaddr max : Nat) : Except Stop (Option Str) :=
  argstrLoop um vaddr (vaddr % PGSIZE) max

/-- A string from `MAXVA` on that `verify_area` lets through, as it does when the end of the piece
    is 2^64, is one that the kernel panics on. -/
theorem argstrfetch_beyond {um : UserMem} {vaddr max : Nat} (hmax : 0 < max) (hva : MAXVA ≤ vaddr)
    (hverify : um.verify vaddr (min (PGSIZE - vaddr % PGSIZE) max) = .ok true) :
    argstrfetch um vaddr max = .error .panics := by
  have hoff : vaddr % PGSIZE < PGSIZE := Nat.mod_lt _ (by decide)
  have hpiece : 0 < min (PGSIZE - vaddr % PGSIZE) max := by omega
  have hpage : ¬ vaddr / PGSIZE * PGSIZE < MAXVA := by
    unfold MAXVA PGSIZE at *
    omega
  have hcopy : copyinString um vaddr (min (PGSIZE - vaddr % PGSIZE) max) = .error .panics := by
    rw [copyinString, if_pos hpiece, walkaddr, if_neg hpage]
  rw [argstrfetch, argstrLoop, hverify]
  simp only [hcopy]

/-- The source's `skipelem`: the next element of a path, and the path behind it. -/
def skipelem (path : Str) : Option (Str × Str) :=
  match path.dropWhile (· == slash) with
  | [] => none
  | c :: cs =>
    some (((c :: cs).takeWhile (· != slash)).take EXT2_NAME_LEN,
      ((c :: cs).dropWhile (· != slash)).dropWhile (· == slash))

theorem length_dropWhile_le (f : UInt8 → Bool) (l : Str) : (l.dropWhile f).length ≤ l.length :=
  (List.dropWhile_suffix f).length_le

theorem skipelem_lt {path elem rest : Str} (h : skipelem path = some (elem, rest)) :
    rest.length < path.length := by
  unfold skipelem at h
  split at h
  · cases h
  · rename_i c cs hpath
    cases h
    have hc : (c != slash) = true := by
      have hhead := List.head?_dropWhile_not (fun x : UInt8 => x == slash) path
      rw [hpath] at hhead
      exact bne_iff_ne.mpr (beq_eq_false_iff_ne.mp hhead)
    have hdrop : (c :: cs).dropWhile (· != slash) = cs.dropWhile (· != slash) :=
      List.dropWhile_cons_of_pos hc
    rw [hdrop]
    have h1 := length_dropWhile_le (· == slash) (cs.dropWhile (· != slash))
    have h2 := length_dropWhile_le (· != slash) cs
    have h3 := length_dropWhile_le (· == slash) path
    rw [hpath, List.length_cons] at h3
    omega

/-- The elements of a path, as the loop of `namex` takes them off one by one.  What `skipelem`
    leaves is empty only behind the last one. -/
def elements (path : Str) : List Str :=
  match _h : skipelem path with
  | none => []
  | some (elem, rest) => elem :: elements rest
termination_by path.length
decreasing_by exact skipelem_lt _h

/-! ## The file system -/

/-- The inode table and the disk: the records are in the table, `used` is the inode bitmap, and
    `data` the bytes of each file. -/
structure Fs where
  inodes : InodeTable
  iMtx : Slot → Option Pid
  used : Nat → Nat → Bool
  data : Nat → Nat → Bytes

/-- What `itruncate` meets: whether every block it takes away is there, `i_blocks` after that, and
    how far the filling of a longer file gets. -/
structure Truncation where
  mapped : Bool
  blocks : Nat
  grown : Nat

/-- What the calls meet: the memory of the process, the geometry of the disk, the inode number that
    `ialloc` marks, whether the allocator has a block for the entries that `create` and `link`
    write, what `itruncate` meets on a file, what `abspath` makes of a working directory, and what
    is on the stack where `dirlookup` (with these elements still to come) and `dirlink` put their
    buffers. -/
structure Env where
  user : UserMem
  sInodesPerGroup : Nat
  fresh : Option Nat
  roomDot : Bool
  roomDotdot : Bool
  roomEntry : Bool
  truncation : Nat → Nat → Nat → Truncation
  abspath : Str → Str → Str
  lookupStack : List Str → Bytes
  linkStack : DirLink.Stack

/-- Store a value for one file. -/
def setFile {α : Type} (f : Nat → Nat → α) (dev iNo : Nat) (v : α) : Nat → Nat → α :=
  fun d n => if d = dev ∧ n = iNo then v else f d n

/-- The inode whose bit `ifree` clears. -/
def ifreeNo (env : Env) (iNo : Nat) : Nat :=
  iNo / env.sInodesPerGroup * env.sInodesPerGroup + (iNo - 1) % env.sInodesPerGroup + 1

/-- The source's `ifree`. -/
def ifree (env : Env) (s : Fs) (dev iNo : Nat) : Fs :=
  { s with used := setFile s.used dev (ifreeNo env iNo) false }

/-- The source's `iget`; it sleeps while every slot is referenced. -/
def iget (s : Fs) (dev iNo : Nat) (clean : Bool) : Except Stop (Fs × Slot) :=
  match Inode.iget s.inodes dev iNo clean with
  | some (t, ip) => .ok ({ s with inodes := t }, ip)
  | none => .error .waits

/-- The source's `idup`. -/
def idup (s : Fs) (ip : Slot) : Except Stop Fs :=
  match Inode.idup s.inodes ip with
  | some t => .ok { s with inodes := t }
  | none => .error .panics

/-- The source's `ilock`. -/
def ilock (p : Pid) (s : Fs) (ip : Slot) : Except Stop Fs :=
  match Inode.ilock s.inodes ip with
  | some t =>
    if (s.iMtx ip).isSome then .error .waits
    else .ok { s with inodes := t, iMtx := Function.update s.iMtx ip (some p) }
  | none => .error .panics

/-- The source's `iunlock`. -/
def iunlock (p : Pid) (s : Fs) (ip : Slot) : Except Stop Fs :=
  match Inode.iunlock s.inodes ip with
  | some t =>
    if s.iMtx ip = some p then .ok { s with inodes := t, iMtx := Function.update s.iMtx ip none }
    else .error .panics
  | none => .error .panics

/-- The source's `iupdate`. -/
def iupdate (s : Fs) (ip : Slot) : Except Stop Fs :=
  match Inode.iupdate s.inodes ip with
  | some t => .ok { s with inodes := t }
  | none => .error .panics

/-- Store a record in a slot. -/
def setRecord (s : Fs) (ip : Slot) (d : DInode) : Fs :=
  { s with inodes := s.inodes.set ip { s.inodes.mInodes ip with dInodeCtnt := d } }

/-- The record in a slot. -/
def record (s : Fs) (ip : Slot) : DInode := (s.inodes.mInodes ip).dInodeCtnt

/-- The source's `itruncate`.  Its last assertion reads `(i_blocks == (length == 0)) ? 0 : …`. -/
def itruncate (p : Pid) (env : Env) (s : Fs) (ip : Slot) (length : Nat) :
    Except Stop (Fs × Int) :=
  let m := s.inodes.mInodes ip
  let e := env.truncation m.iDev m.iNo length
  if s.iMtx ip ≠ some p then .error .panics
  else if length < m.dInodeCtnt.iSize ∧ (¬ e.mapped ∨ e.blocks = if length = 0 then 1 else 0) then
    .error .panics
  else
    match itruncateSlot s.inodes ip length e.blocks e.grown with
    | some (t, res) =>
      -- a longer file is filled with zeros
      let zeros := splice (s.data m.iDev m.iNo) m.dInodeCtnt.iSize (length - m.dInodeCtnt.iSize)
        fun _ => 0
      .ok ({ s with inodes := t, data := setFile s.data m.iDev m.iNo zeros }, res)
    | none => .error .panics

/-- The source's `iput` on a pointer that is not `NULL`. -/
def iput (p : Pid) (env : Env) (s : Fs) (ip : Slot) : Except Stop Fs :=
  let m := s.inodes.mInodes ip
  if m.iCount = 1 ∧ m.iValid ∧ m.dInodeCtnt.iLinksCount = 0 then
    if (s.iMtx ip).isSome then .error .waits
    else do
      let s := ifree env { s with iMtx := Function.update s.iMtx ip (some p) } m.iDev m.iNo
      let (s, _) ← itruncate p env s ip 0
      return { s with inodes := Inode.iput s.inodes ip, iMtx := Function.update s.iMtx ip none }
  else .ok { s with inodes := Inode.iput s.inodes ip }

/-- The source's `iunlockput`. -/
def iunlockput (p : Pid) (env : Env) (s : Fs) (ip : Slot) : Except Stop Fs := do
  let s ← iunlock p s ip
  iput p env s ip

/-! ## Directories -/

/-- The contents of a directory. -/
def dirOf (d : DInode) (data : Bytes) : DirLink.Dir :=
  ⟨d.iSize % 2 ^ 32, data, Nat.mod_lt _ (by decide)⟩

/-- A string up to its first zero. -/
def nameOf (name : Str) : DirLink.Name where
  chars := name.takeWhile (· != 0)
  nul := fun h => absurd (List.all_eq_true.mp List.all_takeWhile 0 h) (by decide)

/-- The inode number that a directory has under a name; `none` is a lookup that goes on for
    ever. -/
def lookup (d : DInode) (data : Bytes) (name : Str) (tmpDe : Bytes) : Option (Option Nat) :=
  DirLink.dirlookup (dirOf d data) (nameOf name) tmpDe

/-- The source's `dirlookup`. -/
def dirlookup (s : Fs) (dp : Slot) (name : Str) (tmpDe : Bytes) : Except Stop (Fs × Option Slot) :=
  let m := s.inodes.mInodes dp
  if name.length ≤ EXT2_NAME_LEN ∧ isDir m.dInodeCtnt.iMode then
    match lookup m.dInodeCtnt (s.data m.iDev m.iNo) name tmpDe with
    | none => .error .loops
    | some none => .ok (s, none)
    | some (some iNo) => do
      let (s, ip) ← iget s m.iDev iNo false
      return (s, some ip)
  else .error .panics

/-- The record of a directory after its contents have changed. -/
def grownTo (d : DInode) (iSize : Nat) : DInode :=
  if iSize > d.iSize then { d with iSize := iSize, iBlocks := (iSize / BLKSIZE + 1) * 8 } else d

/-- The source's `dirlink`. -/
def dirlink (p : Pid) (env : Env) (s : Fs) (dp : Slot) (name : Str) (iNo : Nat) (room : Bool) :
    Except Stop (Fs × Int) := do
  let (s, found) ← dirlookup s dp name env.linkStack.lookupDe
  match found with
  | some ip =>
    let s ← iput p env s ip
    return (s, -1)
  | none =>
    let m := s.inodes.mInodes dp
    let dir := dirOf m.dInodeCtnt (s.data m.iDev m.iNo)
    match DirLink.dirlink dir (nameOf name) iNo room env.linkStack with
    | none => .error .loops
    | some (dir, res) =>
      let s ← iupdate (setRecord s dp (grownTo m.dInodeCtnt dir.iSize)) dp
      return ({ s with data := setFile s.data m.iDev m.iNo dir.data }, res)

/-! ## Paths -/

/-- The while loop of `namex`, with the slot it stands at, the elements still to come and the name
    it has taken last. -/
def namexLoop (p : Pid) (env : Env) (parent : Bool) :
    Fs → Slot → List Str → Str → Except Stop (Fs × Option (Slot × Str))
  | s, ip, [], name =>
    if parent then do
      let s ← iput p env s ip
      return (s, none)
    else .ok (s, some (ip, name))
  | s, ip, elem :: rest, _ => do
    let s ← ilock p s ip
    if isDir (record s ip).iMode then
      if parent && rest.isEmpty then
        -- stop one level early
        let s ← iunlock p s ip
        return (s, some (ip, elem))
      else
        let (s, next) ← dirlookup s ip elem (env.lookupStack (elem :: rest))
        let s ← iunlockput p env s ip
        match next with
        | none => return (s, none)
        | some next => namexLoop p env parent s next rest elem
    else .error .panics

/-- The test `*path == '/'`. -/
def isAbsolute (path : Str) : Bool := path.head? == some slash

/-- The source's `namex`. -/
def namex (p : Pid) (env : Env) (s : Fs) (icwd : Slot) (path : Str) (parent : Bool) :
    Except Stop (Fs × Option (Slot × Str)) :=
  if isAbsolute path then do
    let (s, ip) ← iget s sbDev EXT2_ROOT_INO false
    namexLoop p env parent s ip (elements path) []
  else do
    let s ← idup s icwd
    namexLoop p env parent s icwd (elements path) []

/-- The source's `namei`, which does not hand the name out. -/
def namei (p : Pid) (env : Env) (s : Fs) (icwd : Slot) (path : Str) :
    Except Stop (Fs × Option Slot) := do
  let (s, r) ← namex p env s icwd path false
  return (s, r.map Prod.fst)

def nameiparent (p : Pid) (env : Env) (s : Fs) (icwd : Slot) (path : Str) :
    Except Stop (Fs × Option (Slot × Str)) :=
  namex p env s icwd path true

/-! ## Creating files -/

/-- The source's `ialloc`, with the inode number it marks. -/
def ialloc (env : Env) (s : Fs) (dev : Nat) : Except Stop (Fs × Option (Slot × Nat)) :=
  match env.fresh with
  | none => .ok (s, none)
  | some iNo => do
    let (s, ip) ← iget { s with used := setFile s.used dev iNo true } dev iNo true
    return (s, some (ip, iNo))

/-- The `fail:` exit of `create`. -/
def createFail (p : Pid) (env : Env) (s : Fs) (ip dp : Slot) : Except Stop (Fs × Option Slot) := do
  let s ← iupdate (setRecord s ip { record s ip with iLinksCount := 0 }) ip
  let s ← iunlockput p env s ip
  let s ← iunlockput p env s dp
  return (s, none)

/-- The end of `create` once the new inode's own entries are there. -/
def createEntry (p : Pid) (env : Env) (s : Fs) (ip dp : Slot) (name : Str) (kind : FileKind) :
    Except Stop (Fs × Option Slot) := do
  let (s, res) ← dirlink p env s dp name (s.inodes.mInodes ip).iNo env.roomEntry
  if res < 0 then createFail p env s ip dp
  else
    let s ← (if kind = .dir then
        let d := record s dp
        iupdate (setRecord s dp { d with iLinksCount := u16 (d.iLinksCount + 1) }) dp
      else .ok s)
    let s ← iunlock p s ip
    let s ← iunlockput p env s dp
    return (s, some ip)

def dot : Str := [46]
def dotdot : Str := [46, 46]

/-- The branch of `create` for a name the parent does not hold yet. -/
def createFresh (p : Pid) (env : Env) (s : Fs) (dp : Slot) (name : Str) (kind : FileKind)
    (mode : Nat) : Except Stop (Fs × Option Slot) := do
  let (s, fresh) ← ialloc env s (s.inodes.mInodes dp).iDev
  match fresh with
  | none =>
    let s ← iunlockput p env s dp
    return (s, none)
  | some (ip, iNo) =>
    let s ← ilock p s ip
    let s ← iupdate (setRecord s ip (freshInode mode)) ip
    if kind = .dir then
      let (s, res) ← dirlink p env s ip dot iNo env.roomDot
      if res < 0 then createFail p env s ip dp
      else
        let (s, res) ← dirlink p env s ip dotdot (s.inodes.mInodes dp).iNo env.roomDotdot
        if res < 0 then createFail p env s ip dp
        else createEntry p env s ip dp name kind
    else createEntry p env s ip dp name kind

/-- What `create` takes for the file it was to make. -/
def fits (kind : FileKind) (mode : Nat) : Bool :=
  kind = .regfile && (isReg mode || isBlk mode || isChr mode)

/-- The source's `create`. -/
def create (p : Pid) (env : Env) (s : Fs) (icwd : Slot) (path : Str) (kind : FileKind)
    (mode : Nat) : Except Stop (Fs × Option Slot) := do
  let (s, r) ← nameiparent p env s icwd path
  match r with
  | none => return (s, none)
  | some (dp, name) =>
    let s ← ilock p s dp
    let (s, found) ← dirlookup s dp name (env.lookupStack [name])
    match found with
    | none => createFresh p env s dp name kind mode
    | some ip =>
      let s ← iunlockput p env s dp
      let s ← ilock p s ip
      if fits kind (record s ip).iMode then
        let s ← iunlock p s ip
        return (s, some ip)
      else
        let s ← iunlockput p env s ip
        return (s, none)

/-! ## The system calls -/

/-- The file system, the open files, and the processes with their working directories. -/
structure Sys where
  fs : Fs
  fcb : FcbTable
  procs : Pid → Option Proc
  cwd : Pid → Str

/-- The calls `sys_creat` and `sys_mkdir`, which differ in the kind of file and its type bits. -/
def sysCreate (p : Pid) (env : Env) (s : Sys) (pr : Proc) (kind : FileKind) (typeBits uaddr mode :
    Nat) : Except Stop (Sys × Option Int) := do
  let path ← argstrfetch env.user uaddr PATH_MAX
  match path with
  | none => return (s, some (-EFAULT))
  | some path =>
    let (fs, ip) ← create p env s.fs pr.icwd path kind (u16 mode ||| typeBits)
    match ip with
    | none => return ({ s with fs := fs }, some (-EPERM))
    | some _ => return ({ s with fs := fs }, some 0)

def sysCreat (p : Pid) (env : Env) (s : Sys) (pr : Proc) (uaddr mode : Nat) :
    Except Stop (Sys × Option Int) :=
  sysCreate p env s pr .regfile EXT2_S_IFREG uaddr mode

def sysMkdir (p : Pid) (env : Env) (s : Sys) (pr : Proc) (uaddr mode : Nat) :
    Except Stop (Sys × Option Int) :=
  sysCreate p env s pr .dir EXT2_S_IFDIR uaddr mode

/-- The source's `sys_chmod`. -/
def sysChmod (p : Pid) (env : Env) (s : Sys) (pr : Proc) (uaddr mode : Nat) :
    Except Stop (Sys × Option Int) := do
  let path ← argstrfetch env.user uaddr PATH_MAX
  match path with
  | none => return (s, some (-EFAULT))
  | some path =>
    let (fs, ip) ← namei p env s.fs pr.icwd path
    match ip with
    | none => return ({ s with fs := fs }, some (-ENOENT))
    | some ip =>
      let d := record fs ip
      let kept := d.iMode - (d.iMode &&& 0o777)
      let fs ← iupdate (setRecord fs ip { d with iMode := kept ||| u16 mode }) ip
      return ({ s with fs := fs }, some 0)

/-- The part of `sys_open` that finds or makes the inode. -/
def openInode (p : Pid) (env : Env) (s : Fs) (icwd : Slot) (path : Str) (flags mode : Nat) :
    Except Stop (Fs × (Int ⊕ Slot)) := do
  if hasBit flags O_CREAT then
    let (s, ip) ← create p env s icwd path .regfile (u16 mode ||| EXT2_S_IFREG)
    match ip with
    | none => return (s, .inl (-EPERM))
    | some ip => return (s, .inr ip)
  else
    let (s, ip) ← namei p env s icwd path
    match ip with
    | none => return (s, .inl (-ENOENT))
    | some ip => return (s, .inr ip)

/-- The position of a new file, and what `O_TRUNC` does to the inode first.  A failure to truncate
    is `none`. -/
def openPos (p : Pid) (env : Env) (s : Fs) (ip : Slot) (flags : Nat) :
    Except Stop (Fs × Option Nat) := do
  if hasBit flags O_APPEND then
    let s ← ilock p s ip
    let pos := (record s ip).iSize
    let s ← iunlock p s ip
    return (s, some pos)
  else if hasBit flags O_TRUNC then
    let s ← ilock p s ip
    let (s, res) ← itruncate p env s ip 0
    if res < 0 then
      let s ← iunlockput p env s ip
      return (s, none)
    else
      let s ← iunlock p s ip
      return (s, some 0)
  else return (s, some 0)

/-- The end of `sys_open`: a file entry for the inode, installed at `fd`. -/
def openInstall (p : Pid) (env : Env) (s : Sys) (pr : Proc) (fd : Fd) (ip : Slot) (flags : Nat) :
    Except Stop (Sys × Option Int) :=
  match fileAlloc s.fcb with
  | none => .error .waits
  | some (fcb, no) => do
    let procs := Function.update s.procs p (some (pr.setFd fd (some no)))
    let f := fcb.files no
    let f := { f with fFlags := flags, fCount := u32 (f.fCount + 1), fInode := some ip }
    let (fs, pos) ← openPos p env s.fs ip flags
    match pos with
    | none => return ({ s with fs := fs, fcb := fcb.set no f, procs := procs }, some (- Sysfile.EIO))
    | some pos =>
      return ({ s with fs := fs, fcb := fcb.set no { f with fPos := pos }, procs := procs },
        some (fd : Nat))

/-- The source's `sys_open`. -/
def sysOpen (p : Pid) (env : Env) (s : Sys) (pr : Proc) (uaddr flags mode : Nat) :
    Except Stop (Sys × Option Int) :=
  match idleFd pr 0 with
  | none => .ok (s, some (-EMFILE))
  | some fd => do
    let path ← argstrfetch env.user uaddr PATH_MAX
    match path with
    | none => return (s, some (-EFAULT))
    | some path =>
      let (fs, r) ← openInode p env s.fs pr.icwd path flags mode
      match r with
      | .inl err => return ({ s with fs := fs }, some err)
      | .inr ip => openInstall p env { s with fs := fs } pr fd ip flags

/-- The source's `sys_chdir`. -/
def sysChdir (p : Pid) (env : Env) (s : Sys) (pr : Proc) (uaddr : Nat) :
    Except Stop (Sys × Option Int) := do
  let path ← argstrfetch env.user uaddr PATH_MAX
  match path with
  | none => return (s, some (-EFAULT))
  | some path =>
    let (fs, ip) ← namei p env s.fs pr.icwd path
    match ip with
    | none => return ({ s with fs := fs }, some (-ENOENT))
    | some ip =>
      if ip = pr.icwd then return ({ s with fs := fs }, some 0)
      else
        let fs ← ilock p fs ip
        if isDir (record fs ip).iMode then
          let fs ← iput p env fs pr.icwd
          let fs ← iunlock p fs ip
          return ({ s with
            fs := fs
            procs := Function.update s.procs p (some { pr with icwd := ip })
            cwd := Function.update s.cwd p (env.abspath (s.cwd p) path) }, some 0)
        else
          let fs ← iunlock p fs ip
          return ({ s with fs := fs }, some (-EPERM))

/-- The source's `sys_stat`, without the record it copies out; `areaOk = false` is a buffer that
    `verify_area` refuses. -/
def sysStat (p : Pid) (env : Env) (s : Sys) (pr : Proc) (uaddr : Nat) (areaOk : Bool) :
    Except Stop (Sys × Option Int) := do
  let path ← argstrfetch env.user uaddr PATH_MAX
  match path with
  | none => return (s, some (-EFAULT))
  | some path =>
    let (fs, ip) ← namei p env s.fs pr.icwd path
    match ip with
    | none => return ({ s with fs := fs }, some (-ENOENT))
    | some ip =>
      if areaOk then
        let fs ← ilock p fs ip
        let fs ← iunlock p fs ip
        return ({ s with fs := fs }, some 0)
      else return ({ s with fs := fs }, some (-EFAULT))

/-- The test `S_IWUSR`. -/
def mayWrite (mode : Nat) : Bool := hasBit mode 0o200

/-- The source's `sys_truncate`.  Its `ret:` exit unlocks and drops a pointer that is still unset
    when the path cannot be fetched, and `NULL` when it leads nowhere. -/
def sysTruncate (p : Pid) (env : Env) (s : Sys) (pr : Proc) (uaddr length : Nat) :
    Except Stop (Sys × Option Int) := do
  let path ← argstrfetch env.user uaddr PATH_MAX
  match path with
  | none => .error .panics
  | some path =>
    let (fs, ip) ← namei p env s.fs pr.icwd path
    match ip with
    | none => .error .panics
    | some ip =>
      let fs ← ilock p fs ip
      if mayWrite (record fs ip).iMode then
        let (fs, res) ← itruncate p env fs ip length
        let fs ← iunlockput p env fs ip
        return ({ s with fs := fs }, some (if res < 0 then - Sysfile.EIO else 0))
      else
        let fs ← iunlockput p env fs ip
        return ({ s with fs := fs }, some (-EACCES))

/-- The middle of `sys_link`: the new name is entered into its directory.  The result is `false`
    on the way to `fail:`. -/
def linkEntry (p : Pid) (env : Env) (s : Fs) (icwd ip : Slot) (newPath : Str) :
    Except Stop (Fs × Bool) := do
  let (s, r) ← nameiparent p env s icwd newPath
  match r with
  | none => return (s, false)
  | some (dp, name) =>
    let s ← ilock p s dp
    let (s, res) ← dirlink p env s dp name (s.inodes.mInodes ip).iNo env.roomEntry
    let s ← iunlockput p env s dp
    return (s, decide (0 ≤ res))

/-- The link count of a locked inode is changed and written back. -/
def addLinks (s : Fs) (ip : Slot) (n : Nat) : Except Stop Fs :=
  let d := record s ip
  iupdate (setRecord s ip { d with iLinksCount := u16 (d.iLinksCount + n) }) ip

/-- The end of `sys_link`, for an old name that is not a directory.  Its `fail:` exit leaves `res`
    unset. -/
def linkFile (p : Pid) (env : Env) (s : Fs) (icwd ip : Slot) (newPath : Str) :
    Except Stop (Fs × Option Int) := do
  let s ← addLinks s ip 1
  let s ← iunlock p s ip
  let (s, done) ← linkEntry p env s icwd ip newPath
  if done then
    let s ← iput p env s ip
    return (s, some 0)
  else
    let s ← ilock p s ip
    let s ← addLinks s ip 65535
    let s ← iunlockput p env s ip
    return (s, none)

/-- The fetches of `sys_link`: the second one is left out when the first one fails. -/
def fetchBoth (um : UserMem) (oldUaddr newUaddr : Nat) : Except Stop (Option (Str × Str)) := do
  let oldPath ← argstrfetch um oldUaddr PATH_MAX
  match oldPath with
  | none => return none
  | some oldPath =>
    let newPath ← argstrfetch um newUaddr PATH_MAX
    return newPath.map fun newPath => (oldPath, newPath)

/-- The source's `sys_link`. -/
def sysLink (p : Pid) (env : Env) (s : Sys) (pr : Proc) (oldUaddr newUaddr : Nat) :
    Except Stop (Sys × Option Int) := do
  let paths ← fetchBoth env.user oldUaddr newUaddr
  match paths with
  | none => return (s, some (-EFAULT))
  | some (oldPath, newPath) =>
    let (fs, ip) ← namei p env s.fs pr.icwd oldPath
    match ip with
    | none => return ({ s with fs := fs }, some (-ENOENT))
    | some ip =>
      let fs ← ilock p fs ip
      if isDir (record fs ip).iMode then
        let fs ← iunlockput p env fs ip
        return ({ s with fs := fs }, some (-EPERM))
      else
        let (fs, res) ← linkFile p env fs pr.icwd ip newPath
        return ({ s with fs := fs }, res)

/-- The calls that take a path, with the user addresses of their paths. -/
inductive PathCall where
  | creat (uaddr mode : Nat)
  | mkdir (uaddr mode : Nat)
  | chmod (uaddr mode : Nat)
  | openPath (uaddr flags mode : Nat)
  | chdir (uaddr : Nat)
  | stat (uaddr : Nat) (areaOk : Bool)
  | truncate (uaddr length : Nat)
  | link (oldUaddr newUaddr : Nat)

/-- A process makes a call. -/
def exec (p : Pid) (env : Env) (s : Sys) (pr : Proc) : PathCall → Except Stop (Sys × Option Int)
  | .creat uaddr mode => sysCreat p env s pr uaddr mode
  | .mkdir uaddr mode => sysMkdir p env s pr uaddr mode
  | .chmod uaddr mode => sysChmod p env s pr uaddr mode
  | .openPath uaddr flags mode => sysOpen p env s pr uaddr flags mode
  | .chdir uaddr => sysChdir p env s pr uaddr
  | .stat uaddr areaOk => sysStat p env s pr uaddr areaOk
  | .truncate uaddr length => sysTruncate p env s pr uaddr length
  | .link oldUaddr newUaddr => sysLink p env s pr oldUaddr newUaddr

end Uniks.PathCalls
