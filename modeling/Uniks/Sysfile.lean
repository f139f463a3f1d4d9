/-
  The open-file table of `kernel/file/file.c`, and the system calls of `kernel/sys/sysfile.c`
  that take or drop a reference to a file entry or an inode (with `fork`, `execve` and `exit`,
  which do so for a whole process).

  A file number is an index below `NFILE`, a descriptor an index below `NFD`; the C value `-1` of
  an `fdtable` entry is `none`.  As in `Uniks.Inode`, a function returns `none` where the source
  does not return to user space: a failed assertion, a use of an uninitialised or `NULL` pointer,
  or a process that blocks for good as far as the call alone is concerned.  What the call reads
  from user memory and from disk enters as its arguments: `path = none` is a path that
  `argstrfetch` cannot fetch, `areaOk = false` a user buffer that `verify_area` refuses.
-/
import Uniks.Inode
import Uniks.Queue

namespace Uniks.Sysfile

open Uniks.Inode Uniks.Queue

/-! ## Data -/

abbrev NPROC : Nat := 64
abbrev NFD : Nat := 64
abbrev NFILE : Nat := 256

abbrev Pid := Fin NPROC
abbrev Fd := Fin NFD
abbrev FcbNo := Fin NFILE

/-- The C type `struct file_t`. -/
structure FileT where
  fCount : Nat
  fFlags : Nat
  fPos : Nat
  fInode : Option Slot
  deriving DecidableEq, Repr

/-- The C type `struct fcbtable_t`. -/
structure FcbTable where
  files : FcbNo → FileT
  qm : QueueMeta FcbNo

/-- Store one file entry. -/
def FcbTable.set (fcb : FcbTable) (no : FcbNo) (f : FileT) : FcbTable :=
  { fcb with files := Function.update fcb.files no f }

@[simp] theorem FcbTable.set_qm (fcb : FcbTable) (no : FcbNo) (f : FileT) :
    (fcb.set no f).qm = fcb.qm := rfl

@[simp] theorem FcbTable.set_files (fcb : FcbTable) (no : FcbNo) (f : FileT) :
    (fcb.set no f).files = Function.update fcb.files no f := rfl

/-- What a process holds: its descriptors, its working directory, and the files its memory areas
    map (`vm_inode` of each area that has one). -/
structure Proc where
  fdtable : Fd → Option FcbNo
  icwd : Slot
  vmInodes : List Slot

/-- Store one descriptor. -/
def Proc.setFd (pr : Proc) (fd : Fd) (no : Option FcbNo) : Proc :=
  { pr with fdtable := Function.update pr.fdtable fd no }

@[simp] theorem Proc.setFd_fdtable (pr : Proc) (fd : Fd) (no : Option FcbNo) :
    (pr.setFd fd no).fdtable = Function.update pr.fdtable fd no := rfl

/-- The tables the calls work on.  A process that is absent or has exited holds nothing. -/
structure Kernel where
  inodes : InodeTable
  fcb : FcbTable
  procs : Pid → Option Proc

/-- Store one process. -/
def Kernel.setProc (k : Kernel) (p : Pid) (pr : Option Proc) : Kernel :=
  { k with procs := Function.update k.procs p pr }

@[simp] theorem Kernel.setProc_procs (k : Kernel) (p : Pid) (pr : Option Proc) :
    (k.setProc p pr).procs = Function.update k.procs p pr := rfl

/-! ## Flags and error numbers -/

def O_WRONLY : Nat := 0x001
def O_RDWR : Nat := 0x002
def O_CREAT : Nat := 0x040
def O_TRUNC : Nat := 0x200
def O_APPEND : Nat := 0x400

/-- The C macro `get_var_bit`, as a test. -/
def hasBit (flags bit : Nat) : Bool := flags &&& bit != 0

def writeable (flags : Nat) : Bool := hasBit flags O_WRONLY || hasBit flags O_RDWR

def EPERM : Int := 1
def ENOENT : Int := 2
def EIO : Int := 5
def ENOEXEC : Int := 8
def EBADF : Int := 9
def EACCES : Int := 13
def EFAULT : Int := 14
def EINVAL : Int := 22
def EMFILE : Int := 24

/-- The value a `uint32_t` field takes when `n` is stored in it. -/
def u32 (n : Nat) : Nat := n % 4294967296

/-! ## The file table -/

/-- The source's `sys_ftable_init`. -/
def sysFtableInit (fcb : FcbTable) : Option FcbTable := do
  let qm ← queueInit NFILE fcb.qm.queueArray
  let qm ← pushAll (List.finRange NFILE) qm
  return { files := fun no => { fcb.files no with fCount := 0 }, qm := qm }

/-- The source's `file_alloc`; it blocks (`none`) while no entry is idle. -/
def fileAlloc (fcb : FcbTable) : Option (FcbTable × FcbNo) := do
  let idlefcb := queueFront fcb.qm
  let qm ← queueFrontPop fcb.qm
  if (fcb.files idlefcb).fCount = 0 then return ({ fcb with qm := qm }, idlefcb) else none

/-- The source's `file_dup`; a negative number is passed through. -/
def fileDup (fcb : FcbTable) : Option FcbNo → Option FcbTable
  | none => some fcb
  | some no =>
    let f := fcb.files no
    if f.fCount ≥ 1 then some (fcb.set no { f with fCount := u32 (f.fCount + 1) }) else none

/-- The source's `fcbno_free`. -/
def fcbnoFree (fcb : FcbTable) (no : FcbNo) : Option FcbTable :=
  (queuePush fcb.qm no).map fun qm => { fcb with qm := qm }

/-- What `pipeclose` does to the ends of the pipe. -/
def pipeclose (pi : PipeNode) (w : Bool) : PipeNode :=
  if w then { pi with writeopen := false } else { pi with readopen := false }

/-- The end of `file_close`, once the entry has lost its last reference: what happens to the
    inode depends on the type recorded in it. -/
def fileRelease (t : InodeTable) (ip : Slot) (flag : Nat) : InodeTable :=
  let m := t.mInodes ip
  let mode := m.dInodeCtnt.iMode
  if isChr mode || isBlk mode || isReg mode || isDir mode then iput t ip
  else if isFifo mode then
    t.set ip { m with pipeNode := pipeclose m.pipeNode (writeable flag),
                      iCount := u16 (m.iCount + 65535) }
  else t

/-- The source's `file_close`. -/
def fileClose (t : InodeTable) (fcb : FcbTable) (no : FcbNo) : Option (InodeTable × FcbTable) :=
  let f := fcb.files no
  if f.fCount ≥ 1 then
    let fcb := fcb.set no { f with fCount := f.fCount - 1 }
    if f.fCount - 1 > 0 then some (t, fcb)
    else
      match f.fInode with
      | none => none
      | some ip => (fcbnoFree fcb no).map fun fcb => (fileRelease t ip f.fFlags, fcb)
  else none

/-! ## Descriptors -/

/-- The macro `sys_file_fd_common`: the first idle descriptor from `arg` on. -/
def idleFd (pr : Proc) (arg : Nat) : Option Fd :=
  (List.finRange NFD).find? fun fd => arg ≤ fd && (pr.fdtable fd).isNone

/-- The check the calls on a descriptor begin with. -/
def openFd (pr : Proc) (fd : Int) : Option (Fd × FcbNo) :=
  if h : 0 ≤ fd ∧ fd < NFD then
    let i : Fd := ⟨fd.toNat, by omega⟩
    (pr.fdtable i).map fun no => (i, no)
  else none

/-- The source's `do_close`. -/
def doClose (k : Kernel) (p : Pid) (pr : Proc) (fd : Fd) : Option (Kernel × Proc) := do
  let no ← pr.fdtable fd
  let (t, fcb) ← fileClose k.inodes k.fcb no
  let pr := pr.setFd fd none
  return ({ k with inodes := t, fcb := fcb }.setProc p (some pr), pr)

/-- The source's `sys_close`. -/
def sysClose (k : Kernel) (p : Pid) (fd : Int) : Option (Kernel × Int) := do
  let pr ← k.procs p
  match openFd pr fd with
  | none => return (k, -EBADF)
  | some (i, _) =>
    let (k, _) ← doClose k p pr i
    return (k, 0)

/-- The source's `do_dupfd`.  A source descriptor past the table is read out of bounds. -/
def doDupfd (k : Kernel) (p : Pid) (pr : Proc) (fd arg : Nat) : Option (Kernel × Int) :=
  if arg ≥ NFD then some (k, -EINVAL)
  else
    match idleFd pr arg with
    | none => some (k, -EMFILE)
    | some i =>
      if h : fd < NFD then do
        let no := pr.fdtable ⟨fd, h⟩
        let fcb ← fileDup k.fcb no
        return ({ k with fcb := fcb }.setProc p (some (pr.setFd i no)), (i : Nat))
      else none

/-- The source's `sys_dup2` on its two 32-bit arguments. -/
def sysDup2 (k : Kernel) (p : Pid) (oldfd newfd : Nat) : Option (Kernel × Int) := do
  let pr ← k.procs p
  if h : newfd < NFD then
    match pr.fdtable ⟨newfd, h⟩ with
    | none => doDupfd k p pr oldfd newfd
    | some _ =>
      let (k, pr) ← doClose k p pr ⟨newfd, h⟩
      doDupfd k p pr oldfd newfd
  else return (k, -EBADF)

/-- The source's `sys_dup` on its 32-bit argument. -/
def sysDup (k : Kernel) (p : Pid) (oldfd : Nat) : Option (Kernel × Int) := do
  let pr ← k.procs p
  match openFd pr oldfd with
  | none => return (k, -EBADF)
  | some _ => doDupfd k p pr oldfd 0

/-- The end of `sys_pipe`, once both descriptors are there and the user buffer is admitted. -/
def pipeFill (k : Kernel) (no1 no2 : FcbNo) : Option Kernel := do
  let (t, ip) ← pipealloc k.inodes
  let f1 := k.fcb.files no1
  let fcb := k.fcb.set no1 { f1 with fFlags := 0, fCount := u32 (f1.fCount + 1), fInode := some ip }
  let t ← idup t ip
  let f2 := fcb.files no2
  let fcb := fcb.set no2 { f2 with fFlags := O_WRONLY, fCount := u32 (f2.fCount + 1),
                                   fInode := some ip }
  return { k with inodes := t, fcb := fcb }

/-- The source's `sys_pipe`. -/
def sysPipe (k : Kernel) (p : Pid) (areaOk : Bool) : Option (Kernel × Int) := do
  let pr ← k.procs p
  match idleFd pr 0 with
  | none => return (k, -EMFILE)
  | some fd1 =>
    let (fcb, no1) ← fileAlloc k.fcb
    let pr1 := pr.setFd fd1 (some no1)
    match idleFd pr1 0 with
    | none =>
      let fcb ← fcbnoFree fcb no1
      return ({ k with fcb := fcb }.setProc p (some (pr1.setFd fd1 none)), -EMFILE)
    | some fd2 =>
      let (fcb, no2) ← fileAlloc fcb
      let k := { k with fcb := fcb }.setProc p (some (pr1.setFd fd2 (some no2)))
      if areaOk then
        let k ← pipeFill k no1 no2
        return (k, 0)
      else return (k, -EFAULT)

/-! ## Opening and the calls on paths -/

/-- What the path of `open` leads to: a `Walk` for `namei`, and the environment for `create`. -/
structure OpenEnv where
  walk : Walk
  create : CreateEnv

/-- The part of `sys_open` that finds or makes the inode. -/
def openInode (t : InodeTable) (icwd : Slot) (env : OpenEnv) (flags mode : Nat) :
    Option (InodeTable × (Int ⊕ Slot)) := do
  if hasBit flags O_CREAT then
    let (t, ip) ← create t icwd .regfile (u16 mode ||| EXT2_S_IFREG) env.create
    match ip with
    | none => return (t, .inl (-EPERM))
    | some ip => return (t, .inr ip)
  else
    let (t, ip) ← namei t icwd env.walk
    match ip with
    | none => return (t, .inl (-ENOENT))
    | some ip => return (t, .inr ip)

/-- The end of `sys_open`: a file entry for the inode, installed at `fd`. -/
def openInstall (k : Kernel) (p : Pid) (pr : Proc) (fd : Fd) (ip : Slot) (flags : Nat) :
    Option (Kernel × Int) := do
  let (fcb, no) ← fileAlloc k.fcb
  let k := k.setProc p (some (pr.setFd fd (some no)))
  let f := fcb.files no
  let f := { f with fFlags := flags, fCount := u32 (f.fCount + 1), fInode := some ip }
  if hasBit flags O_APPEND then
    let t ← ilock k.inodes ip
    let f := { f with fPos := (t.mInodes ip).dInodeCtnt.iSize }
    let t ← iunlock t ip
    return ({ k with inodes := t, fcb := fcb.set no f }, (fd : Nat))
  else if hasBit flags O_TRUNC then
    let t ← ilock k.inodes ip
    let (t, res) ← itruncateSlot t ip 0 0 0
    if res < 0 then
      let t ← iunlockput t ip
      return ({ k with inodes := t, fcb := fcb.set no f }, - EIO)
    else
      let t ← iunlock t ip
      return ({ k with inodes := t, fcb := fcb.set no { f with fPos := 0 } }, (fd : Nat))
  else return ({ k with fcb := fcb.set no { f with fPos := 0 } }, (fd : Nat))

/-- The source's `sys_open`. -/
def sysOpen (k : Kernel) (p : Pid) (path : Option OpenEnv) (flags mode : Nat) :
    Option (Kernel × Int) := do
  let pr ← k.procs p
  match idleFd pr 0 with
  | none => return (k, -EMFILE)
  | some fd =>
    match path with
    | none => return (k, -EFAULT)
    | some env =>
      let (t, r) ← openInode k.inodes pr.icwd env flags mode
      match r with
      | .inl err => return ({ k with inodes := t }, err)
      | .inr ip => openInstall { k with inodes := t } p pr fd ip flags

/-- The calls `sys_creat` and `sys_mkdir`, which differ in the kind of file and its type bits. -/
def sysCreate (k : Kernel) (p : Pid) (kind : FileKind) (typeBits : Nat) (path : Option CreateEnv)
    (mode : Nat) : Option (Kernel × Int) := do
  let pr ← k.procs p
  match path with
  | none => return (k, -EFAULT)
  | some env =>
    let (t, ip) ← create k.inodes pr.icwd kind (u16 mode ||| typeBits) env
    match ip with
    | none => return ({ k with inodes := t }, -EPERM)
    | some _ => return ({ k with inodes := t }, 0)

def sysCreat (k : Kernel) (p : Pid) (path : Option CreateEnv) (mode : Nat) :
    Option (Kernel × Int) :=
  sysCreate k p .regfile EXT2_S_IFREG path mode

def sysMkdir (k : Kernel) (p : Pid) (path : Option CreateEnv) (mode : Nat) :
    Option (Kernel × Int) :=
  sysCreate k p .dir EXT2_S_IFDIR path mode

/-- The source's `sys_chmod`. -/
def sysChmod (k : Kernel) (p : Pid) (path : Option Walk) (mode : Nat) : Option (Kernel × Int) := do
  let pr ← k.procs p
  match path with
  | none => return (k, -EFAULT)
  | some walk =>
    let (t, ip) ← namei k.inodes pr.icwd walk
    match ip with
    | none => return ({ k with inodes := t }, -ENOENT)
    | some ip =>
      let m := t.mInodes ip
      let kept := m.dInodeCtnt.iMode - (m.dInodeCtnt.iMode &&& 0o777)
      let t := t.set ip { m with dInodeCtnt := { m.dInodeCtnt with iMode := kept ||| u16 mode } }
      let t ← iupdate t ip
      return ({ k with inodes := t }, 0)

/-- The source's `do_stat`, without the record it copies out. -/
def doStat (t : InodeTable) (ip : Slot) (areaOk : Bool) : Option (InodeTable × Int) := do
  if areaOk then
    let t ← ilock t ip
    let t ← iunlock t ip
    return (t, 0)
  else return (t, -1)

/-- The source's `sys_stat`. -/
def sysStat (k : Kernel) (p : Pid) (path : Option Walk) (areaOk : Bool) :
    Option (Kernel × Int) := do
  let pr ← k.procs p
  match path with
  | none => return (k, -EFAULT)
  | some walk =>
    let (t, ip) ← namei k.inodes pr.icwd walk
    match ip with
    | none => return ({ k with inodes := t }, -ENOENT)
    | some ip =>
      let (t, res) ← doStat t ip areaOk
      return ({ k with inodes := t }, if res < 0 then -EFAULT else 0)

/-- The source's `sys_fstat`. -/
def sysFstat (k : Kernel) (p : Pid) (fd : Int) (areaOk : Bool) : Option (Kernel × Int) := do
  let pr ← k.procs p
  match openFd pr fd with
  | none => return (k, -EBADF)
  | some (_, no) =>
    let ip ← (k.fcb.files no).fInode
    let (t, res) ← doStat k.inodes ip areaOk
    return ({ k with inodes := t }, res)

/-- The source's `sys_chdir`. -/
def sysChdir (k : Kernel) (p : Pid) (path : Option Walk) : Option (Kernel × Int) := do
  let pr ← k.procs p
  match path with
  | none => return (k, -EFAULT)
  | some walk =>
    let (t, ip) ← namei k.inodes pr.icwd walk
    match ip with
    | none => return ({ k with inodes := t }, -ENOENT)
    | some ip =>
      if ip = pr.icwd then return ({ k with inodes := t }, 0)
      else
        let t ← ilock t ip
        if isDir (t.mInodes ip).dInodeCtnt.iMode then
          let t := iput t pr.icwd
          let t ← iunlock t ip
          return ({ k with inodes := t }.setProc p (some { pr with icwd := ip }), 0)
        else
          let t ← iunlock t ip
          return ({ k with inodes := t }, -EPERM)

/-- How the zero-filling of `itruncate` ends: the new `i_blocks`, and how far it got. -/
structure TruncEnv where
  blocks : Nat
  grown : Nat

/-- The source's `sys_truncate`.  Its `ret:` exit unlocks and drops a pointer that is still unset
    when the path cannot be fetched, and `NULL` when it leads nowhere. -/
def sysTruncate (k : Kernel) (p : Pid) (path : Option Walk) (length : Nat) (env : TruncEnv) :
    Option (Kernel × Int) := do
  let pr ← k.procs p
  match path with
  | none => none
  | some walk =>
    let (t, ip) ← namei k.inodes pr.icwd walk
    match ip with
    | none => none
    | some ip =>
      let t ← ilock t ip
      if hasBit (t.mInodes ip).dInodeCtnt.iMode 0o200 then
        let (t, res) ← itruncateSlot t ip length env.blocks env.grown
        let t ← iunlockput t ip
        return ({ k with inodes := t }, if res < 0 then - EIO else 0)
      else
        let t ← iunlockput t ip
        return ({ k with inodes := t }, -EACCES)

/-- The two paths of `link`, and how the `dirlink` of the new name ends. -/
structure LinkPaths where
  old : Walk
  new : Walk
  entry : LinkEnv

/-- The `fail:` exit of `sys_link`. -/
def linkFail (t : InodeTable) (ip : Slot) : Option InodeTable := do
  let t ← ilock t ip
  let m := t.mInodes ip
  let t := t.set ip { m with dInodeCtnt :=
    { m.dInodeCtnt with iLinksCount := u16 (m.dInodeCtnt.iLinksCount + 65535) } }
  let t ← iupdate t ip
  iunlockput t ip

/-- The middle of `sys_link`: the new name is entered into its directory.  The result is `-1` on
    the way to `fail:`. -/
def linkEntry (t : InodeTable) (icwd : Slot) (env : LinkPaths) : Option (InodeTable × Int) := do
  let (t, dp) ← nameiparent t icwd env.new
  match dp with
  | none => return (t, -1)
  | some dp =>
    let t ← ilock t dp
    let (t, res) ← dirlink t dp env.entry
    let t ← iunlockput t dp
    return (t, res)

/-- The source's `sys_link`.  Its `fail:` exit leaves `res` unset, hence the argument `junk`. -/
def sysLink (k : Kernel) (p : Pid) (paths : Option LinkPaths) (junk : Int) :
    Option (Kernel × Int) := do
  let pr ← k.procs p
  match paths with
  | none => return (k, -EFAULT)
  | some env =>
    let (t, ip) ← namei k.inodes pr.icwd env.old
    match ip with
    | none => return ({ k with inodes := t }, -ENOENT)
    | some ip =>
      let t ← ilock t ip
      if isDir (t.mInodes ip).dInodeCtnt.iMode then
        let t ← iunlockput t ip
        return ({ k with inodes := t }, -EPERM)
      else
        let m := t.mInodes ip
        let t := t.set ip { m with dInodeCtnt :=
          { m.dInodeCtnt with iLinksCount := u16 (m.dInodeCtnt.iLinksCount + 1) } }
        let t ← iupdate t ip
        let t ← iunlock t ip
        let (t, res) ← linkEntry t pr.icwd env
        if res < 0 then
          let t ← linkFail t ip
          return ({ k with inodes := t }, junk)
        else return ({ k with inodes := iput t ip }, 0)

/-! ## Whole processes -/

/-- One `idup` for each inode of a list, as `new_vmarea_struct` does for each area. -/
def idupAll : List Slot → InodeTable → Option InodeTable
  | [], t => some t
  | ip :: ips, t => do
    let t ← idup t ip
    idupAll ips t

/-- One `iput` for each inode of a list, as `free_mm_struct` does for each area. -/
def iputAll : List Slot → InodeTable → InodeTable
  | [], t => t
  | ip :: ips, t => iputAll ips (iput t ip)

/-- The loop of `do_fork` over the descriptors. -/
def dupAll (pr : Proc) : List Fd → FcbTable → Option FcbTable
  | [], fcb => some fcb
  | fd :: fds, fcb => do
    let fcb ← fileDup fcb (pr.fdtable fd)
    dupAll pr fds fcb

/-- The source's `do_fork`; `child` is the pid `allocpid` takes from its queue, if any. -/
def doFork (k : Kernel) (p : Pid) (child : Option Pid) : Option (Kernel × Int) := do
  let pr ← k.procs p
  match child with
  | none => return (k, -1)
  | some c =>
    if (k.procs c).isNone then
      let t ← idupAll pr.vmInodes k.inodes
      let fcb ← dupAll pr (List.finRange NFD) k.fcb
      let t ← idup t pr.icwd
      return ({ k with inodes := t, fcb := fcb }.setProc c (some pr), (c : Nat))
    else none

/-- What `do_execve` meets: the program's path, the files its segments map (as many times as
    `load_elf` gets through the headers), whether `load_elf` succeeds, and whether the argument
    strings can be fetched. -/
structure ExecEnv where
  walk : Walk
  segs : Nat
  loaded : Bool
  argsOk : Bool
  argc : Nat

/-- The source's `do_execve`. -/
def doExecve (k : Kernel) (p : Pid) (path : Option ExecEnv) : Option (Kernel × Int) := do
  let pr ← k.procs p
  match path with
  | none => return (k, -EFAULT)
  | some env =>
    let (t, ip) ← namei k.inodes pr.icwd env.walk
    match ip with
    | none => return ({ k with inodes := t }, -ENOENT)
    | some ip =>
      let t ← ilock t ip
      let t ← idupAll (List.replicate env.segs ip) t
      let t ← iunlock t ip
      if env.loaded then
        if env.argsOk then
          let t := iputAll pr.vmInodes t
          return ({ k with inodes := iput t ip }.setProc p
            (some { pr with vmInodes := List.replicate env.segs ip }), (env.argc : Nat))
        else return ({ k with inodes := iput t ip }, -EFAULT)
      else
        let t := iputAll (List.replicate env.segs ip) t
        return ({ k with inodes := iput t ip }, -ENOEXEC)

/-- The loop of `freeproc` over the descriptors. -/
def closeAll (pr : Proc) : List Fd → InodeTable × FcbTable → Option (InodeTable × FcbTable)
  | [], s => some s
  | fd :: fds, s =>
    match pr.fdtable fd with
    | none => closeAll pr fds s
    | some no => do
      let s ← fileClose s.1 s.2 no
      closeAll pr fds s

/-- The source's `do_exit` with `freeproc`: idle (0) and the first process (1) never exit. -/
def doExit (k : Kernel) (p : Pid) : Option (Kernel × Int) := do
  let pr ← k.procs p
  if 1 < (p : Nat) then
    let (t, fcb) ← closeAll pr (List.finRange NFD) (k.inodes, k.fcb)
    let t := iputAll pr.vmInodes (iput t pr.icwd)
    return ({ k with inodes := t, fcb := fcb }.setProc p none, 0)
  else none

/-! ## The system -/

/-- The calls, each with what it finds in user memory and on disk. -/
inductive Call where
  | openPath (path : Option OpenEnv) (flags mode : Nat)
  | creat (path : Option CreateEnv) (mode : Nat)
  | mkdir (path : Option CreateEnv) (mode : Nat)
  | chmod (path : Option Walk) (mode : Nat)
  | stat (path : Option Walk) (areaOk : Bool)
  | fstat (fd : Int) (areaOk : Bool)
  | chdir (path : Option Walk)
  | truncate (path : Option Walk) (length : Nat) (env : TruncEnv)
  | link (paths : Option LinkPaths) (junk : Int)
  | close (fd : Int)
  | dup (oldfd : Nat)
  | dup2 (oldfd newfd : Nat)
  | pipe (areaOk : Bool)
  | fork (child : Option Pid)
  | execve (path : Option ExecEnv)
  | exit

/-- Process `p` makes a call, and the call returns. -/
def exec (k : Kernel) (p : Pid) : Call → Option (Kernel × Int)
  | .openPath path flags mode => sysOpen k p path flags mode
  | .creat path mode => sysCreat k p path mode
  | .mkdir path mode => sysMkdir k p path mode
  | .chmod path mode => sysChmod k p path mode
  | .stat path areaOk => sysStat k p path areaOk
  | .fstat fd areaOk => sysFstat k p fd areaOk
  | .chdir path => sysChdir k p path
  | .truncate path length env => sysTruncate k p path length env
  | .link paths junk => sysLink k p paths junk
  | .close fd => sysClose k p fd
  | .dup oldfd => sysDup k p oldfd
  | .dup2 oldfd newfd => sysDup2 k p oldfd newfd
  | .pipe areaOk => sysPipe k p areaOk
  | .fork child => doFork k p child
  | .execve path => doExecve k p path
  | .exit => doExit k p

/-- One step of the system: some process makes a call that returns. -/
def Step (k : Kernel) (i : Pid × Call) (k' : Kernel) : Prop :=
  ∃ res, exec k i.1 i.2 = some (k', res)

/-- The first process, as `user_init` and its first `forkret` leave it. -/
def initProc (root : Slot) : Proc := { fdtable := fun _ => none, icwd := root, vmInodes := [] }

/-- The state in which the first process enters user space. -/
structure Booted (k : Kernel) : Prop where
  fcb : ∃ fcb, sysFtableInit fcb = some k.fcb
  init : ∃ t root, namei (inodeTableInit t) root ⟨true, []⟩ = some (k.inodes, some root) ∧
    k.procs = Function.update (fun _ => none) 1 (some (initProc root))

end Uniks.Sysfile
