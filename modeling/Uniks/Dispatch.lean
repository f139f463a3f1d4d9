/-
  What `file_read`, `file_write` and `file_close` take a file for.

  They look at the type recorded in the slot: for a pipe before the inode is locked, for anything
  else after (`file_close` never locks).  A slot that has not been read from disk records what its
  last user left there, so a disk inode can be taken for a pipe, or `file_close` for an inode of no
  type.  `Classed` says of a call that it does not meet such a slot.

  A run is made of `pipe`, `open`, `read`, `write`, `lseek`, `close`, and `fork`, which gives other
  processes their descriptors; each call is one step, as in `Uniks.Sysfile`.  `origin` remembers
  for each file entry how it was obtained.  What a device, a pipe or `readi` answers is an argument.
-/
import Uniks.InodeNames
import Uniks.InodeCount

namespace Uniks.Dispatch

open Uniks.Inode Uniks.Sysfile Uniks.RefCount Uniks.Runs
open Function (update_self update_of_ne)
open Option (some bind_eq_some_iff)

/-! ## Reading and writing -/

/-- What is done with the inode of a file. -/
inductive Action where
  /-- The call ends before the inode is looked at. -/
  | refused
  /-- `file_close` of an entry that keeps descriptors. -/
  | kept
  /-- `piperead`, `pipewrite` or `pipeclose`. -/
  | pipe (ip : Slot)
  /-- `device_read` or `device_write`. -/
  | chr
  /-- `blkdev_read` or `blkdev_write`. -/
  | blk
  /-- `readi` or `writei`. -/
  | file
  /-- `iput`. -/
  | put
  | nothing
  deriving DecidableEq, Repr

def readable (flags : Nat) : Bool := flags &&& 3 == 0 || hasBit flags O_RDWR

/-- The tests on the type of a locked inode. -/
def lockedAction (mode : Nat) : Action :=
  if isChr mode then .chr
  else if isBlk mode then .blk
  else if isReg mode || isDir mode then .file
  else .nothing

/-- A block device and a file move the offset by what was transferred. -/
def advancePos (f : FileT) (a : Action) (res : Int) : FileT :=
  if (a = .blk ∨ a = .file) ∧ 0 < res then { f with fPos := (f.fPos + res.toNat) % 2 ^ 64 } else f

/-- The common part of `file_read` and `file_write`.  `io` is the answer of the routine called, and
    `store` what `writei` does to the inode. -/
def fileRw (allowed : Bool) (store : InodeTable → Slot → Option InodeTable) (t : InodeTable)
    (f : FileT) (areaOk : Bool) (io : Int) : Option (InodeTable × FileT × Action × Int) :=
  if !allowed then some (t, f, .refused, -EINVAL)
  else if !areaOk then some (t, f, .refused, -EFAULT)
  else
    match f.fInode with
    | none => none
    | some ip =>
      if isFifo (t.mInodes ip).dInodeCtnt.iMode then some (t, f, .pipe ip, io)
      else do
        let t ← ilock t ip
        let a := lockedAction (t.mInodes ip).dInodeCtnt.iMode
        let t ← (if a = .file then store t ip else some t)
        let res := if a = .nothing then -EINVAL else io
        let t ← iunlock t ip
        return (t, advancePos f a res, a, res)

/-- The source's `file_read`. -/
def fileRead (t : InodeTable) (f : FileT) (areaOk : Bool) (io : Int) :
    Option (InodeTable × FileT × Action × Int) :=
  fileRw (readable f.fFlags) (fun t _ => some t) t f areaOk io

/-- The record after `writei`: its size and its blocks, if it writes the record back. -/
def writeRecord (sizes : Option (Nat × Nat)) (t : InodeTable) (ip : Slot) : Option InodeTable :=
  match sizes with
  | none => some t
  | some (size, blocks) =>
    let m := t.mInodes ip
    iupdate (t.set ip { m with dInodeCtnt := { m.dInodeCtnt with iSize := size, iBlocks := blocks } }) ip

/-- The source's `file_write`. -/
def fileWrite (t : InodeTable) (f : FileT) (areaOk : Bool) (io : Int) (sizes : Option (Nat × Nat)) :
    Option (InodeTable × FileT × Action × Int) :=
  fileRw (writeable f.fFlags) (writeRecord sizes) t f areaOk io

/-- The macro `sys_file_rw_common`, and the call of `file_read` or `file_write`. -/
def sysRw (rw : InodeTable → FileT → Option (InodeTable × FileT × Action × Int)) (k : Kernel) (p : Pid)
    (fd : Int) (cnt : Nat) : Option (Kernel × Int) := do
  let pr ← k.procs p
  match openFd pr fd with
  | none => return (k, -EBADF)
  | some (_, no) =>
    if cnt = 0 then return (k, 0)
    else
      let (t, f, _, res) ← rw k.inodes (k.fcb.files no)
      return ({ k with inodes := t, fcb := k.fcb.set no f }, res)

/-- The source's `sys_lseek`; the offset of a file is a 64-bit word. -/
def sysLseek (k : Kernel) (p : Pid) (fd : Int) (off whence : Nat) : Option (Kernel × Int) := do
  let pr ← k.procs p
  match openFd pr fd with
  | none => return (k, -EBADF)
  | some (_, no) =>
    let f := k.fcb.files no
    let fPos ← (match whence with
      | 0 => some off
      | 1 => some (f.fPos + off)
      | 2 => f.fInode.map fun ip => (k.inodes.mInodes ip).dInodeCtnt.iSize + off
      | _ => some f.fPos)
    return ({ k with fcb := k.fcb.set no { f with fPos := fPos % 2 ^ 64 } }, 0)

/-- What `file_close` does with the inode of an entry that loses its last descriptor. -/
def releaseAction (mode : Nat) (ip : Slot) : Action :=
  if isChr mode || isBlk mode || isReg mode || isDir mode then .put
  else if isFifo mode then .pipe ip
  else .nothing

/-- `file_close` does what `releaseAction` says. -/
theorem fileRelease_action (t : InodeTable) (ip : Slot) (flag : Nat) :
    fileRelease t ip flag = match releaseAction (t.mInodes ip).dInodeCtnt.iMode ip with
      | .put => iput t ip
      | .pipe _ => t.set ip { t.mInodes ip with
          pipeNode := pipeclose (t.mInodes ip).pipeNode (writeable flag)
          iCount := u16 ((t.mInodes ip).iCount + 65535) }
      | _ => t := by
  unfold fileRelease releaseAction
  dsimp only
  split
  · rfl
  · split
    · rfl
    · rfl

/-! ## Runs -/

/-- The calls, each with what it finds in user memory and what the routines below answer. -/
inductive Call where
  | pipe (areaOk : Bool)
  | openPath (path : Option OpenEnv) (flags mode : Nat)
  | read (fd : Int) (cnt : Nat) (areaOk : Bool) (io : Int)
  | write (fd : Int) (cnt : Nat) (areaOk : Bool) (io : Int) (sizes : Option (Nat × Nat))
  | lseek (fd : Int) (off whence : Nat)
  | close (fd : Int)
  | fork (child : Option Pid)

def exec (k : Kernel) (p : Pid) : Call → Option (Kernel × Int)
  | .pipe areaOk => sysPipe k p areaOk
  | .openPath path flags mode => sysOpen k p path flags mode
  | .read fd cnt areaOk io => sysRw (fun t f => fileRead t f areaOk io) k p fd cnt
  | .write fd cnt areaOk io sizes => sysRw (fun t f => fileWrite t f areaOk io sizes) k p fd cnt
  | .lseek fd off whence => sysLseek k p fd off whence
  | .close fd => sysClose k p fd
  | .fork child => doFork k p child

/-- How a file entry was obtained: by opening an inode on disk, or as an end of a pipe. -/
inductive Origin where
  | disk (dev iNo : Nat)
  | pipe (ip : Slot)

structure State where
  kernel : Kernel
  origin : FcbNo → Origin

/-- The origin of an entry that the call has taken from the idle ones. -/
def obtained (k : Kernel) (c : Call) (no : FcbNo) (before : Origin) : Origin :=
  match c, (k.fcb.files no).fInode with
  | .pipe _, some ip => .pipe ip
  | .openPath _ _ _, some ip => .disk (k.inodes.mInodes ip).iDev (k.inodes.mInodes ip).iNo
  | _, _ => before

theorem obtained_open {k : Kernel} {no : FcbNo} {ip : Slot} (h : (k.fcb.files no).fInode = some ip)
    (path : Option OpenEnv) (flags mode : Nat) (o : Origin) :
    obtained k (.openPath path flags mode) no o
      = .disk (k.inodes.mInodes ip).iDev (k.inodes.mInodes ip).iNo := by
  unfold obtained
  rw [h]

theorem obtained_pipe {k : Kernel} {no : FcbNo} {ip : Slot} (h : (k.fcb.files no).fInode = some ip)
    (areaOk : Bool) (o : Origin) : obtained k (.pipe areaOk) no o = .pipe ip := by
  unfold obtained
  rw [h]

def State.next (st : State) (c : Call) (k : Kernel) : State :=
  { kernel := k
    origin := fun no =>
      if (st.kernel.fcb.files no).fCount = 0 ∧ (k.fcb.files no).fCount ≠ 0 then
        obtained k c no (st.origin no)
      else st.origin no }

/-- One step: some process makes a call that returns. -/
def Step (st : State) (i : Pid × Call) (st' : State) : Prop :=
  ∃ k res, exec st.kernel i.1 i.2 = some (k, res) ∧ st' = st.next i.2 k

/-- The first process has just entered user space. -/
def Booted (st : State) : Prop := Sysfile.Booted st.kernel

/-! ## Dispatch -/

/-- What a call does with the inode of the file entry behind its descriptor. -/
def action (k : Kernel) (p : Pid) (c : Call) : Option (FcbNo × Action) := do
  let pr ← k.procs p
  match c with
  | .read fd cnt areaOk io =>
    let (_, no) ← openFd pr fd
    if cnt = 0 then none
    else
      let (_, _, a, _) ← fileRead k.inodes (k.fcb.files no) areaOk io
      return (no, a)
  | .write fd cnt areaOk io sizes =>
    let (_, no) ← openFd pr fd
    if cnt = 0 then none
    else
      let (_, _, a, _) ← fileWrite k.inodes (k.fcb.files no) areaOk io sizes
      return (no, a)
  | .close fd =>
    let (_, no) ← openFd pr fd
    if (k.fcb.files no).fCount > 1 then return (no, .kept)
    else
      let ip ← (k.fcb.files no).fInode
      return (no, releaseAction (k.inodes.mInodes ip).dInodeCtnt.iMode ip)
  | _ => none

/-- The routine is the one for the type the inode has on disk, or for the pipe. -/
def Fits (t : InodeTable) (o : Origin) (c : Call) (a : Action) : Prop :=
  match o with
  | .pipe ip => a = .pipe ip
  | .disk dev iNo =>
    let mode := (t.diskInode dev iNo).iMode
    match c with
    | .close _ => isChr mode = true ∨ isBlk mode = true ∨ isReg mode = true ∨ isDir mode = true →
        a = .put
    | _ => (isChr mode = true → a = .chr) ∧ (isBlk mode = true → a = .blk) ∧
        (isReg mode = true ∨ isDir mode = true → a = .file)

/-- A call acts on a file according to how it was obtained. -/
def Acts (st : State) (i : Pid × Call) : Prop :=
  ∀ no a, action st.kernel i.1 i.2 = some (no, a) → (st.kernel.fcb.files no).fCount ≠ 0 →
    a = .refused ∨ a = .kept ∨ Fits st.kernel.inodes (st.origin no) i.2 a

/-- The slot of a disk inode does not record that it is a pipe; when its last descriptor is closed,
    it records one of the four types. -/
def Classed (st : State) (i : Pid × Call) : Prop :=
  let k := st.kernel
  let mode ip := (k.inodes.mInodes ip).dInodeCtnt.iMode
  ∀ pr, k.procs i.1 = some pr →
    match i.2 with
    | .read fd cnt _ _ | .write fd cnt _ _ _ => cnt ≠ 0 → ∀ i no ip, openFd pr fd = some (i, no) →
        (k.fcb.files no).fInode = some ip → (k.inodes.mInodes ip).iDev ≠ 0 → isFifo (mode ip) = false
    | .close fd => ∀ i no ip, openFd pr fd = some (i, no) → (k.fcb.files no).fCount = 1 →
        (k.fcb.files no).fInode = some ip → (k.inodes.mInodes ip).iDev ≠ 0 →
          (isChr (mode ip) || isBlk (mode ip) || isReg (mode ip) || isDir (mode ip)) = true
    | _ => True

/-! ## The invariant -/

/-- A slot stands for what a file entry was obtained for. -/
def Stands (t : InodeTable) (o : Origin) (ip : Slot) : Prop :=
  match o with
  | .disk dev iNo => dev ≠ 0 ∧ (t.mInodes ip).iDev = dev ∧ (t.mInodes ip).iNo = iNo
  | .pipe jp => ip = jp ∧ (t.mInodes ip).iDev = 0

structure Inv (st : State) : Prop where
  balanced : Balanced st.kernel
  sound : Sound st.kernel.inodes none
  cwd : ∀ p pr, st.kernel.procs p = some pr → (st.kernel.inodes.mInodes pr.icwd).iDev ≠ 0
  areas : ∀ p pr, st.kernel.procs p = some pr → pr.vmInodes = []
  files : ∀ no, (st.kernel.fcb.files no).fCount ≠ 0 →
    ∃ ip, (st.kernel.fcb.files no).fInode = some ip ∧ Stands st.kernel.inodes (st.origin no) ip

variable {st st' : State} {k k' : Kernel} {t t' : InodeTable} {p : Pid} {no : FcbNo} {ip : Slot}

theorem Stands.same {o : Origin} (h : Stands t o ip) (hn : SameName (t.mInodes ip) (t'.mInodes ip)) :
    Stands t' o ip := by
  cases o with
  | disk dev iNo => exact ⟨h.1, hn.1.trans h.2.1, hn.2.trans h.2.2⟩
  | pipe jp => exact ⟨h.1, hn.1.trans h.2⟩

theorem file_used (h : Balanced k) (hcount : (k.fcb.files no).fCount ≠ 0)
    (hip : (k.fcb.files no).fInode = some ip) : 1 ≤ (k.inodes.mInodes ip).iCount := by
  have hpos : 0 < fileRefs k.fcb ip := by
    apply refs_pos.mpr
    refine ⟨no, ?_⟩
    rw [fileInode, if_neg hcount]
    exact hip
  rw [h.count ip, inodeRefs]
  omega

theorem cwd_used (h : Balanced k) {pr : Proc} (hpr : k.procs p = some pr) :
    1 ≤ (k.inodes.mInodes pr.icwd).iCount := by
  have hpos : 0 < cwdRefs k.procs pr.icwd := by
    apply refs_pos.mpr
    refine ⟨p, ?_⟩
    rw [hpr]
    rfl
  rw [h.count pr.icwd, inodeRefs]
  omega

/-- There are few references: one for each file entry and each process. -/
theorem Inv.few (h : Inv st) (ip : Slot) : inodeRefs st.kernel ip ≤ 320 := by
  refine inodeRefs_le (n := 0) (fun q pr hq => ?_) ip
  rw [h.areas q pr hq]
  exact Nat.le_refl 0

theorem Inv.room (h : Inv st) : Room st.kernel.inodes := by
  intro ip
  have hfew := h.few ip
  rw [h.balanced.count ip]
  omega

/-- A call that gives back what it takes is accountable. -/
theorem Inv.accountable (h : Inv st) {c : Sysfile.Call}
    (hback : ∀ pr, st.kernel.procs p = some pr → GivesBack st.kernel pr c)
    (hgains : ∀ pr ip, st.kernel.procs p = some pr → gains pr ip c ≤ 2) :
    Accountable st.kernel (p, c) := by
  intro pr hpr
  refine ⟨hback pr hpr, ?_⟩
  intro ip
  have hfew := h.few ip
  have hgain := hgains pr ip hpr
  have hgain' : gains pr ip (p, c).2 ≤ 2 := hgain
  omega

/-- What a call has to keep. -/
theorem Inv.build (h : Inv st) (c : Call) (hbal : Balanced k') (hsound : Sound k'.inodes none)
    (hnames : ∀ ip, 1 ≤ (k'.inodes.mInodes ip).iCount → 1 ≤ (st.kernel.inodes.mInodes ip).iCount →
      SameName (st.kernel.inodes.mInodes ip) (k'.inodes.mInodes ip))
    (hprocs : ∀ p pr', k'.procs p = some pr' → ∃ q pr, st.kernel.procs q = some pr ∧
      pr'.icwd = pr.icwd ∧ pr'.vmInodes = pr.vmInodes)
    (hold : ∀ no, (st.kernel.fcb.files no).fCount ≠ 0 → (k'.fcb.files no).fCount ≠ 0 →
      (k'.fcb.files no).fInode = (st.kernel.fcb.files no).fInode)
    (hnew : ∀ no, (st.kernel.fcb.files no).fCount = 0 → (k'.fcb.files no).fCount ≠ 0 →
      ∃ ip, (k'.fcb.files no).fInode = some ip ∧
        Stands k'.inodes (obtained k' c no (st.origin no)) ip) : Inv (st.next c k') := by
  refine ⟨hbal, hsound, ?_, ?_, ?_⟩
  · intro q pr' hq
    rcases hprocs q pr' hq with ⟨r, pr, hr, hcwd, -⟩
    have hused := cwd_used hbal hq
    show (k'.inodes.mInodes pr'.icwd).iDev ≠ 0
    rw [hcwd] at hused ⊢
    rw [(hnames pr.icwd hused (cwd_used h.balanced hr)).1]
    exact h.cwd r pr hr
  · intro q pr' hq
    rcases hprocs q pr' hq with ⟨r, pr, hr, -, hareas⟩
    rw [hareas]
    exact h.areas r pr hr
  · intro no hno
    have hno : (k'.fcb.files no).fCount ≠ 0 := hno
    by_cases hzero : (st.kernel.fcb.files no).fCount = 0
    · rcases hnew no hzero hno with ⟨ip, hip, hstands⟩
      refine ⟨ip, hip, ?_⟩
      show Stands k'.inodes (if _ then _ else _) ip
      rw [if_pos ⟨hzero, hno⟩]
      exact hstands
    · rcases h.files no hzero with ⟨ip, hip, hstands⟩
      have hip' : (k'.fcb.files no).fInode = some ip := (hold no hzero hno).trans hip
      refine ⟨ip, hip', ?_⟩
      show Stands k'.inodes (if _ then _ else _) ip
      rw [if_neg fun hc => hzero hc.1]
      exact hstands.same (hnames ip (file_used hbal hno hip') (file_used h.balanced hzero hip))

/-! ## Reading, writing and seeking -/

/-- An entry that keeps its count and its inode, and a table that keeps its counts. -/
theorem balanced_same (h : Balanced k) {f : FileT}
    (hcounts : ∀ ip, (t.mInodes ip).iCount = (k.inodes.mInodes ip).iCount)
    (hcount : f.fCount = (k.fcb.files no).fCount) (hinode : f.fInode = (k.fcb.files no).fInode) :
    Balanced { k with inodes := t, fcb := k.fcb.set no f } := by
  rcases h.counted with ⟨dead, hcounted⟩
  have hsame : fileInode (k.fcb.set no f) = fileInode k.fcb := by
    funext m
    by_cases hm : m = no
    · subst hm
      rw [fileInode, fileInode, FcbTable.set_files, update_self, hcount, hinode]
    · rw [fileInode, fileInode, FcbTable.set_files, update_of_ne hm]
  have hrefs : ∀ ip, inodeRefs { k with inodes := t, fcb := k.fcb.set no f } ip = inodeRefs k ip := by
    intro ip
    show fileRefs (k.fcb.set no f) ip + _ + _ = _
    rw [fileRefs, hsame]
    rfl
  have hfcb : FcbOk k.fcb (fdRefs k.procs) dead [] := hcounted
  have hno : f.fCount + dead no = fdRefs k.procs no := by
    rw [hcount]
    exact hfcb.count no
  have hdead : 0 < dead no → f.fCount = 0 := by
    rw [hcount]
    exact hfcb.uncounted no
  refine ⟨⟨dead, hfcb.store hno hdead (fun _ _ => ⟨rfl, rfl⟩) fun _ => Iff.rfl⟩, ?_, ?_, ?_⟩
  · intro ip
    show (t.mInodes ip).iCount < 65536
    rw [hcounts ip]
    exact h.fits ip
  · intro ip
    rw [hrefs ip]
    exact h.few ip
  · intro ip
    show (t.mInodes ip).iCount = _
    rw [hrefs ip, hcounts ip]
    exact h.count ip

/-- A slot in use that records no pipe is that of a disk inode. -/
theorem ilock_disk (h : Sound t none) (hfifo : isFifo (t.mInodes ip).dInodeCtnt.iMode = false)
    (hlock : ilock t ip = some t') : (t.mInodes ip).iDev ≠ 0 := by
  intro hzero
  unfold ilock at hlock
  split at hlock
  · rename_i hcount
    rw [h.pipes ip hcount hzero] at hfifo
    cases hfifo
  · cases hlock

theorem ilock_diskInode (h : ilock t ip = some t') : t'.diskInode = t.diskInode := by
  unfold ilock at h
  split at h
  · split at h
    · cases h
      rfl
    · cases h
      rfl
  · cases h

theorem advancePos_fields (f : FileT) (a : Action) (res : Int) :
    (advancePos f a res).fCount = f.fCount ∧ (advancePos f a res).fInode = f.fInode := by
  unfold advancePos
  split
  · exact ⟨rfl, rfl⟩
  · exact ⟨rfl, rfl⟩

/-- The common part of reading and writing keeps the table in order and the entry's inode. -/
theorem fileRw_spec {allowed areaOk : Bool} {store : InodeTable → Slot → Option InodeTable}
    {f f' : FileT} {a : Action} {io res : Int} (h : Sound t none)
    (hstore : ∀ t₁ t₂ ip, Within t t₁ [] none → (t₁.mInodes ip).iDev ≠ 0 → store t₁ ip = some t₂ →
      Within t t₂ [] none)
    (hrw : fileRw allowed store t f areaOk io = some (t', f', a, res)) :
    Within t t' [] none ∧ f'.fCount = f.fCount ∧ f'.fInode = f.fInode := by
  unfold fileRw at hrw
  split at hrw
  · rcases Prod.mk.inj (some.inj hrw) with ⟨rfl, hrest⟩
    cases hrest
    exact ⟨.refl h, rfl, rfl⟩
  · split at hrw
    · rcases Prod.mk.inj (some.inj hrw) with ⟨rfl, hrest⟩
      cases hrest
      exact ⟨.refl h, rfl, rfl⟩
    · split at hrw
      · cases hrw
      · rename_i ip hip
        split at hrw
        · rcases Prod.mk.inj (some.inj hrw) with ⟨rfl, hrest⟩
          cases hrest
          exact ⟨.refl h, rfl, rfl⟩
        · rename_i hfifo
          rcases bind_eq_some_iff.mp hrw with ⟨t₁, hlock, hrw⟩
          rcases bind_eq_some_iff.mp hrw with ⟨t₂, hwritten, hrw⟩
          rcases bind_eq_some_iff.mp hrw with ⟨t₃, hun, hrw⟩
          rcases Prod.mk.inj (some.inj hrw) with ⟨rfl, hrest⟩
          cases hrest
          have hdev := ilock_disk h (Bool.eq_false_iff.mpr hfifo) hlock
          rcases (Within.refl h).ilock hdev hlock with ⟨h₁, hdev₁, -⟩
          refine ⟨?_, advancePos_fields f _ _⟩
          rw [iunlock_eq hun]
          split at hwritten
          · exact hstore t₁ t₂ ip h₁ hdev₁ hwritten
          · cases hwritten
            exact h₁

theorem writeRecord_within {t₀ t₁ t₂ : InodeTable} {sizes : Option (Nat × Nat)}
    (h : Within t₀ t₁ [] none) (hdev : (t₁.mInodes ip).iDev ≠ 0)
    (hstore : writeRecord sizes t₁ ip = some t₂) : Within t₀ t₂ [] none := by
  cases sizes with
  | none =>
    cases hstore
    exact h
  | some sizes => exact (h.write hdev (.inl rfl) hstore).1

/-- A file entry and the table change, but not which inode it names. -/
theorem Inv.touch (h : Inv st) (c : Call) {f : FileT} (ht : Within st.kernel.inodes t [] none)
    (hcount : f.fCount = (st.kernel.fcb.files no).fCount)
    (hinode : f.fInode = (st.kernel.fcb.files no).fInode) :
    Inv (st.next c { st.kernel with inodes := t, fcb := st.kernel.fcb.set no f }) := by
  have hfiles : ∀ m, ((st.kernel.fcb.set no f).files m).fCount = (st.kernel.fcb.files m).fCount ∧
      ((st.kernel.fcb.set no f).files m).fInode = (st.kernel.fcb.files m).fInode := by
    intro m
    rw [FcbTable.set_files]
    by_cases hm : m = no
    · subst hm
      rw [update_self]
      exact ⟨hcount, hinode⟩
    · rw [update_of_ne hm]
      exact ⟨rfl, rfl⟩
  refine h.build c (balanced_same h.balanced ?_ hcount hinode) ht.sound ?_ ?_ ?_ ?_
  · intro ip
    rw [ht.count ip, List.count_nil, Nat.add_zero]
  · intro ip _ hused
    exact ht.names ip hused
  · intro q pr hq
    exact ⟨q, pr, hq, rfl, rfl⟩
  · intro m _ _
    exact (hfiles m).2
  · intro m hzero hnot
    exact absurd ((hfiles m).1.trans hzero) hnot

/-- A call that leaves everything as it is. -/
theorem Inv.idle (h : Inv st) (c : Call) : Inv (st.next c st.kernel) := by
  refine h.build c h.balanced h.sound (fun ip _ _ => .refl _) (fun q pr hq => ⟨q, pr, hq, rfl, rfl⟩)
    (fun _ _ _ => rfl) ?_
  intro m hzero hnot
  exact absurd hzero hnot

theorem Inv.sysRw (h : Inv st) (c : Call) {fd : Int} {cnt : Nat} {res : Int}
    {rw : InodeTable → FileT → Option (InodeTable × FileT × Action × Int)}
    (hspec : ∀ t f t' f' a io, Sound t none → rw t f = some (t', f', a, io) →
      Within t t' [] none ∧ f'.fCount = f.fCount ∧ f'.fInode = f.fInode)
    (hcall : Dispatch.sysRw rw st.kernel p fd cnt = some (k', res)) : Inv (st.next c k') := by
  rcases bind_eq_some_iff.mp hcall with ⟨pr, -, hcall⟩
  split at hcall
  · cases hcall
    exact h.idle c
  · rename_i i no hopen
    split at hcall
    · cases hcall
      exact h.idle c
    · rcases bind_eq_some_iff.mp hcall with ⟨⟨t, f, a, io⟩, hrw, hcall⟩
      cases hcall
      rcases hspec _ _ _ _ _ _ h.sound hrw with ⟨ht, hcount, hinode⟩
      exact h.touch c ht hcount hinode

theorem Inv.sysLseek (h : Inv st) (c : Call) {fd : Int} {off whence : Nat} {res : Int}
    (hcall : Dispatch.sysLseek st.kernel p fd off whence = some (k', res)) : Inv (st.next c k') := by
  rcases bind_eq_some_iff.mp hcall with ⟨pr, -, hcall⟩
  split at hcall
  · cases hcall
    exact h.idle c
  · rename_i i no hopen
    rcases bind_eq_some_iff.mp hcall with ⟨fPos, -, hcall⟩
    cases hcall
    exact h.touch c (.refl h.sound) rfl rfl

/-! ## Closing -/

/-- Releasing an inode renames no slot. -/
theorem fileRelease_sound (flag : Nat) (h : Sound t none) (hused : 1 ≤ (t.mInodes ip).iCount) :
    Sound (fileRelease t ip flag) none ∧
      ∀ jp, SameName (t.mInodes jp) ((fileRelease t ip flag).mInodes jp) := by
  unfold fileRelease
  dsimp only
  split
  · rcases iputFree_fields (t.mInodes ip) with ⟨hdev, hno, hmode, hvalid⟩
    rw [iput]
    exact h.store ⟨hdev, hno⟩ hmode hvalid fun _ => hused
  · split
    · exact h.store ⟨rfl, rfl⟩ rfl id fun _ => hused
    · exact ⟨h, fun jp => .refl _⟩

theorem fileClose_sound {fcb fcb' : FcbTable} (h : Sound t none)
    (hused : ∀ ip, (fcb.files no).fCount ≠ 0 → (fcb.files no).fInode = some ip →
      1 ≤ (t.mInodes ip).iCount)
    (hclose : fileClose t fcb no = some (t', fcb')) :
    Sound t' none ∧ (∀ jp, SameName (t.mInodes jp) (t'.mInodes jp)) ∧
      ∀ m, (fcb'.files m).fInode = (fcb.files m).fInode ∧
        ((fcb'.files m).fCount ≠ 0 → (fcb.files m).fCount ≠ 0) := by
  rcases fileClose_cases hclose with ⟨f, hf, hinode, hcases⟩
  have hfiles : ∀ m, (((fcb.set no f).files m).fInode = (fcb.files m).fInode) ∧
      (((fcb.set no f).files m).fCount ≠ 0 → (fcb.files m).fCount ≠ 0) := by
    intro m
    rw [FcbTable.set_files]
    by_cases hm : m = no
    · subst hm
      rw [update_self]
      refine ⟨hinode, fun _ => ?_⟩
      omega
    · rw [update_of_ne hm]
      exact ⟨rfl, id⟩
  rcases hcases with ⟨-, rfl, rfl⟩ | ⟨-, ip, flags, hip, rfl, hfree⟩
  · exact ⟨h, fun jp => .refl _, hfiles⟩
  · have hip' : (fcb.files no).fInode = some ip := hinode.symm.trans hip
    rcases fileRelease_sound flags h (hused ip (by omega) hip') with ⟨hsound, hnames⟩
    refine ⟨hsound, hnames, ?_⟩
    rw [fcbnoFree_files hfree]
    exact hfiles

theorem openFd_some {pr : Proc} {fd : Int} {i : Fd} (h : openFd pr fd = some (i, no)) :
    pr.fdtable i = some no := by
  unfold openFd at h
  split at h
  · rcases Option.map_eq_some_iff.mp h with ⟨m, hm, heq⟩
    cases heq
    exact hm
  · cases h

/-- The inode of the entry that loses its last descriptor is given back. -/
theorem Inv.lastKnown (h : Inv st) {fd : Int} (hc : Classed st (p, .close fd)) {pr : Proc}
    (hpr : st.kernel.procs p = some pr) {i : Fd} (hopen : openFd pr fd = some (i, no))
    (hpos : (st.kernel.fcb.files no).fCount ≠ 0) :
    LastKnown st.kernel.inodes st.kernel.fcb pr [i] := by
  intro m ip hdemand hle hip
  have hfd := openFd_some hopen
  have hsingle : fdsDemand pr [i] m = if pr.fdtable i = some m then 1 else 0 := by
    rw [fdsDemand_cons]
    exact Nat.zero_add _
  rw [hsingle, hfd] at hdemand hle
  split at hle
  · rename_i hm
    cases hm
    have hone : (st.kernel.fcb.files no).fCount = 1 := by omega
    unfold droppable
    dsimp only
    by_cases hdev : (st.kernel.inodes.mInodes ip).iDev = 0
    · -- an end of a pipe
      rw [h.sound.pipes ip (file_used h.balanced hpos hip) hdev, Bool.or_true]
    · have hknown := hc pr hpr i no ip hopen hone hip hdev
      dsimp only at hknown
      rw [hknown, Bool.true_or]
  · rename_i hm
    rw [if_neg hm] at hdemand
    exact absurd hdemand (Nat.lt_irrefl 0)

theorem Inv.close (h : Inv st) {fd : Int} {res : Int} (hc : Classed st (p, .close fd))
    (hcall : sysClose st.kernel p fd = some (k', res)) : Inv (st.next (.close fd) k') := by
  rcases sysClose_cases hcall with ⟨pr, hpr, ⟨rfl, -⟩ | ⟨i, no, pr', hopen, hclose, -⟩⟩
  · exact h.idle _
  · rcases doClose_cases hclose with ⟨m, t, fcb, hm, hfile, rfl, rfl⟩
    have hfd := openFd_some hopen
    cases hfd.symm.trans hm
    have hpos : (st.kernel.fcb.files no).fCount ≠ 0 := by
      rcases fileClose_cases hfile with ⟨f, hf, -⟩
      omega
    have hbal : Balanced ({ st.kernel with inodes := t, fcb := fcb }.setProc p
        (some (pr.setFd i none))) := by
      refine h.balanced.step (i := (p, .close fd)) (h.accountable ?_ ?_) ⟨res, hcall⟩
      · intro pr₁ hpr₁ i₁ no₁ hopen₁
        cases hpr.symm.trans hpr₁
        cases hopen.symm.trans hopen₁
        exact h.lastKnown hc hpr hopen hpos
      · intro _ _ _
        exact Nat.zero_le 2
    rcases fileClose_sound h.sound (fun ip hcount hip => file_used h.balanced hcount hip) hfile
      with ⟨hsound, hnames, hfiles⟩
    refine h.build _ hbal hsound (fun ip _ _ => hnames ip) ?_ ?_ ?_
    · intro q pr₁ hq
      rw [Kernel.setProc_procs] at hq
      by_cases hqp : q = p
      · rw [hqp, update_self] at hq
        cases hq
        exact ⟨p, pr, hpr, rfl, rfl⟩
      · rw [update_of_ne hqp] at hq
        exact ⟨q, pr₁, hq, rfl, rfl⟩
    · intro m _ _
      exact (hfiles m).1
    · intro m hzero hnot
      exact absurd hzero ((hfiles m).2 hnot)

/-! ## Forking -/

theorem idup_sound (h : Sound t none) (hdup : idup t ip = some t') :
    Sound t' none ∧ ∀ jp, SameName (t.mInodes jp) (t'.mInodes jp) := by
  unfold idup at hdup
  split at hdup
  · rename_i hused
    cases hdup
    exact h.store ⟨rfl, rfl⟩ rfl id fun _ => hused
  · cases hdup

theorem fileDup_files {fcb fcb' : FcbTable} {v : Option FcbNo} (h : fileDup fcb v = some fcb')
    (m : FcbNo) : (fcb'.files m).fInode = (fcb.files m).fInode ∧
      ((fcb'.files m).fCount ≠ 0 → (fcb.files m).fCount ≠ 0) := by
  cases v with
  | none =>
    rw [fileDup_none h]
    exact ⟨rfl, id⟩
  | some no =>
    unfold fileDup at h
    dsimp only at h
    split at h
    · rename_i hpos
      cases h
      rw [FcbTable.set_files]
      by_cases hm : m = no
      · subst hm
        rw [update_self]
        refine ⟨rfl, fun _ => ?_⟩
        omega
      · rw [update_of_ne hm]
        exact ⟨rfl, id⟩
    · cases h

theorem dupAll_files {pr : Proc} {fds : List Fd} {fcb fcb' : FcbTable}
    (h : dupAll pr fds fcb = some fcb') (m : FcbNo) :
    (fcb'.files m).fInode = (fcb.files m).fInode ∧
      ((fcb'.files m).fCount ≠ 0 → (fcb.files m).fCount ≠ 0) := by
  induction fds generalizing fcb with
  | nil =>
    cases h
    exact ⟨rfl, id⟩
  | cons fd fds ih =>
    rcases bind_eq_some_iff.mp h with ⟨fcb₁, hdup, h⟩
    have hfirst := fileDup_files hdup m
    have hrest := ih h
    exact ⟨hrest.1.trans hfirst.1, fun hnot => hfirst.2 (hrest.2 hnot)⟩

theorem Inv.fork (h : Inv st) {child : Option Pid} {res : Int}
    (hcall : doFork st.kernel p child = some (k', res)) : Inv (st.next (.fork child) k') := by
  have hbal : Balanced k' := by
    refine h.balanced.step (i := (p, .fork child)) (h.accountable ?_ ?_) ⟨res, hcall⟩
    · intro _ _
      trivial
    · intro pr ip hpr
      show pr.vmInodes.count ip + 1 ≤ 2
      rw [h.areas p pr hpr, List.count_nil]
      decide
  unfold doFork at hcall
  rcases bind_eq_some_iff.mp hcall with ⟨pr, hpr, hcall⟩
  cases child with
  | none =>
    cases hcall
    exact h.idle _
  | some c =>
    dsimp only at hcall
    split at hcall
    · rcases bind_eq_some_iff.mp hcall with ⟨t₁, hdups, hcall⟩
      rcases bind_eq_some_iff.mp hcall with ⟨fcb, hfiles, hcall⟩
      rcases bind_eq_some_iff.mp hcall with ⟨t₂, hdup, hcall⟩
      cases hcall
      rw [h.areas p pr hpr] at hdups
      cases hdups
      rcases idup_sound h.sound hdup with ⟨hsound, hnames⟩
      refine h.build _ hbal hsound (fun ip _ _ => hnames ip) ?_ ?_ ?_
      · intro q pr₁ hq
        rw [Kernel.setProc_procs] at hq
        by_cases hqc : q = c
        · rw [hqc, update_self] at hq
          cases hq
          exact ⟨p, pr, hpr, rfl, rfl⟩
        · rw [update_of_ne hqc] at hq
          exact ⟨q, pr₁, hq, rfl, rfl⟩
      · intro m _ _
        exact (dupAll_files hfiles m).1
      · intro m hzero hnot
        exact absurd hzero ((dupAll_files hfiles m).2 hnot)
    · cases hcall

/-! ## Opening -/

theorem openInode_within {icwd : Slot} {env : OpenEnv} {flags mode : Nat} {r : Int ⊕ Slot}
    (h : Sound t none) (hroom : Room t) (hcwd : (t.mInodes icwd).iDev ≠ 0)
    (hopen : openInode t icwd env flags mode = some (t', r)) :
    Within t t' r.getRight?.toList none := by
  unfold openInode at hopen
  split at hopen
  · rcases bind_eq_some_iff.mp hopen with ⟨⟨t₁, ip⟩, hcreate, hopen⟩
    have h₁ := (Within.refl h).create hroom (Nat.zero_le 2) hcwd hcreate
    rw [List.append_nil] at h₁
    cases ip with
    | none =>
      cases hopen
      exact h₁
    | some ip =>
      cases hopen
      exact h₁
  · rcases bind_eq_some_iff.mp hopen with ⟨⟨t₁, ip⟩, hwalk, hopen⟩
    have h₁ := (Within.refl h).namex hroom (Nat.zero_le 2) hcwd hwalk
    rw [List.append_nil] at h₁
    cases ip with
    | none =>
      cases hopen
      exact h₁
    | some ip =>
      cases hopen
      exact h₁

/-- The entry that `open` fills names the inode it found. -/
theorem openInstall_within {t₀ : InodeTable} {pr : Proc} {fd : Fd} {flags : Nat} {res : Int}
    (h : Within t₀ k.inodes [ip] none) (hinstall : openInstall k p pr fd ip flags = some (k', res)) :
    ∃ fcb no f t, fileAlloc k.fcb = some (fcb, no) ∧
      k' = { k with inodes := t, fcb := fcb.set no f }.setProc p
        (some (pr.setFd fd (some no))) ∧ f.fInode = some ip ∧ Within t₀ t [ip] none := by
  have hdev := h.disk ip List.mem_cons_self
  rcases bind_eq_some_iff.mp hinstall with ⟨⟨fcb, no⟩, halloc, hinstall⟩
  dsimp only at hinstall
  split at hinstall
  · rcases bind_eq_some_iff.mp hinstall with ⟨t₁, hlock, hinstall⟩
    rcases bind_eq_some_iff.mp hinstall with ⟨t₂, hun, hinstall⟩
    cases hinstall
    refine ⟨fcb, no, _, t₂, halloc, rfl, rfl, ?_⟩
    rw [iunlock_eq hun]
    exact (h.ilock hdev hlock).1
  · split at hinstall
    · rcases bind_eq_some_iff.mp hinstall with ⟨t₁, hlock, hinstall⟩
      rcases bind_eq_some_iff.mp hinstall with ⟨⟨t₂, res'⟩, htrunc, hinstall⟩
      rcases itruncateSlot_to_zero htrunc
      rcases bind_eq_some_iff.mp hinstall with ⟨t₃, hun, hinstall⟩
      cases hinstall
      refine ⟨fcb, no, _, t₃, halloc, rfl, rfl, ?_⟩
      rcases h.ilock hdev hlock with ⟨h₁, hdev₁, -⟩
      rw [iunlock_eq hun]
      exact (h₁.itruncateSlot hdev₁ htrunc).1
    · cases hinstall
      exact ⟨fcb, no, _, k.inodes, halloc, rfl, rfl, h⟩

theorem Inv.open (h : Inv st) {path : Option OpenEnv} {flags mode : Nat} {res : Int}
    (hcall : sysOpen st.kernel p path flags mode = some (k', res)) :
    Inv (st.next (.openPath path flags mode) k') := by
  have hbal : Balanced k' := by
    refine h.balanced.step (i := (p, .openPath path flags mode)) (h.accountable ?_ ?_) ⟨res, hcall⟩
    · intro _ _
      trivial
    · intro _ _ _
      exact Nat.le_succ 1
  unfold sysOpen at hcall
  rcases bind_eq_some_iff.mp hcall with ⟨pr, hpr, hcall⟩
  split at hcall
  · cases hcall
    exact h.idle _
  · rename_i fd hidle
    cases path with
    | none =>
      cases hcall
      exact h.idle _
    | some env =>
      rcases bind_eq_some_iff.mp hcall with ⟨⟨t, r⟩, hopen, hcall⟩
      have ht := openInode_within h.sound h.room (h.cwd p pr hpr) hopen
      cases r with
      | inl err =>
        cases hcall
        refine h.build _ hbal ht.sound (fun ip _ hused => ht.names ip hused)
          (fun q pr₁ hq => ⟨q, pr₁, hq, rfl, rfl⟩) (fun _ _ _ => rfl) ?_
        intro m hzero hnot
        exact absurd hzero hnot
      | inr ip =>
        have ht : Within st.kernel.inodes t [ip] none := ht
        rcases openInstall_within ht hcall with ⟨fcb, no, f, t₂, halloc, rfl, hip, ht₂⟩
        rcases fileAlloc_files halloc with ⟨hfiles, hzero⟩
        have hzero : (st.kernel.fcb.files no).fCount = 0 := hzero
        have hother : ∀ m, m ≠ no → (fcb.set no f).files m = st.kernel.fcb.files m := by
          intro m hm
          rw [FcbTable.set_files, update_of_ne hm, hfiles]
        have hself : (fcb.set no f).files no = f := by
          rw [FcbTable.set_files, update_self]
        refine h.build _ hbal ht₂.sound (fun jp _ hused => ht₂.names jp hused) ?_ ?_ ?_
        · intro q pr₁ hq
          rw [Kernel.setProc_procs] at hq
          by_cases hqp : q = p
          · rw [hqp, update_self] at hq
            cases hq
            exact ⟨p, pr, hpr, rfl, rfl⟩
          · rw [update_of_ne hqp] at hq
            exact ⟨q, pr₁, hq, rfl, rfl⟩
        · intro m hold _
          have hm : m ≠ no := by
            rintro rfl
            exact hold hzero
          show ((fcb.set no f).files m).fInode = _
          rw [hother m hm]
        · intro m hidle hnot
          by_cases hm : m = no
          · subst hm
            have hnamed : ((fcb.set m f).files m).fInode = some ip := by
              rw [hself, hip]
            refine ⟨ip, hnamed, ?_⟩
            rw [obtained_open hnamed]
            exact ⟨ht₂.disk ip List.mem_cons_self, rfl, rfl⟩
          · have hnot : ((fcb.set no f).files m).fCount ≠ 0 := hnot
            rw [hother m hm] at hnot
            exact absurd hidle hnot

/-! ## Pipes -/

/-- Both entries name the slot of the new pipe. -/
theorem pipeFill_sound {no₁ no₂ : FcbNo} (hfill : pipeFill k no₁ no₂ = some k')
    (h : Sound k.inodes none) :
    ∃ ip, Sound k'.inodes none ∧ (k'.inodes.mInodes ip).iDev = 0 ∧ k'.procs = k.procs ∧
      (∀ jp, 1 ≤ (k.inodes.mInodes jp).iCount →
        SameName (k.inodes.mInodes jp) (k'.inodes.mInodes jp)) ∧
      ∀ m, if m = no₁ ∨ m = no₂ then (k'.fcb.files m).fInode = some ip
        else k'.fcb.files m = k.fcb.files m := by
  unfold pipeFill at hfill
  rcases bind_eq_some_iff.mp hfill with ⟨⟨t₁, ip⟩, halloc, hfill⟩
  rcases bind_eq_some_iff.mp hfill with ⟨t₂, hdup, hfill⟩
  cases hfill
  rcases pipealloc_sound h halloc with ⟨h₁, hdev, hnames⟩
  rcases idup_sound h₁ hdup with ⟨h₂, hsame⟩
  refine ⟨ip, h₂, (hsame ip).1.trans hdev, rfl, ?_, ?_⟩
  · intro jp hused
    exact (hnames jp hused).trans (hsame jp)
  · intro m
    dsimp only
    rw [FcbTable.set_files]
    by_cases h₂ : m = no₂
    · rw [if_pos (.inr h₂), h₂, update_self]
    · rw [update_of_ne h₂, FcbTable.set_files]
      by_cases h₁ : m = no₁
      · rw [if_pos (.inl h₁), h₁, update_self]
      · rw [if_neg (fun hor => hor.elim h₁ h₂), update_of_ne h₁]

/-- Only descriptors of one process change, and which entries are idle. -/
theorem Inv.renumber (h : Inv st) (c : Call) {pr pr' : Proc} {fcb : FcbTable}
    (hpr : st.kernel.procs p = some pr) (hcwd : pr'.icwd = pr.icwd)
    (hareas : pr'.vmInodes = pr.vmInodes) (hfiles : fcb.files = st.kernel.fcb.files)
    (hbal : Balanced ({ st.kernel with fcb := fcb }.setProc p (some pr'))) :
    Inv (st.next c ({ st.kernel with fcb := fcb }.setProc p (some pr'))) := by
  refine h.build c hbal h.sound (fun _ _ _ => .refl _) ?_ ?_ ?_
  · intro q pr₁ hq
    rw [Kernel.setProc_procs] at hq
    by_cases hqp : q = p
    · rw [hqp, update_self] at hq
      cases hq
      exact ⟨p, pr, hpr, hcwd, hareas⟩
    · rw [update_of_ne hqp] at hq
      exact ⟨q, pr₁, hq, rfl, rfl⟩
  · intro m _ _
    show (fcb.files m).fInode = _
    rw [hfiles]
  · intro m hzero hnot
    have hnot : (fcb.files m).fCount ≠ 0 := hnot
    rw [hfiles] at hnot
    exact absurd hzero hnot

theorem Inv.pipe (h : Inv st) {areaOk : Bool} {res : Int}
    (hcall : sysPipe st.kernel p areaOk = some (k', res)) : Inv (st.next (.pipe areaOk) k') := by
  have hbal : Balanced k' := by
    refine h.balanced.step (i := (p, .pipe areaOk)) (h.accountable ?_ ?_) ⟨res, hcall⟩
    · intro _ _
      trivial
    · intro _ _ _
      exact Nat.le_refl 2
  rcases sysPipe_cases hcall with ⟨pr, hpr, ⟨rfl, -⟩ | ⟨fd₁, fcb₁, no₁, -, halloc₁, hcases⟩⟩
  · exact h.idle _
  · rcases fileAlloc_files halloc₁ with ⟨hfiles₁, hzero₁⟩
    rcases hcases with ⟨fcb₂, hfree, -, rfl⟩ | ⟨fd₂, fcb₂, no₂, k₁, -, halloc₂, rfl, -, hend⟩
    · have hfiles := (fcbnoFree_files hfree).trans hfiles₁
      exact h.renumber _ hpr (by rfl) (by rfl) hfiles hbal
    · rcases fileAlloc_files halloc₂ with ⟨hfiles₂, hzero₂⟩
      have hfiles := hfiles₂.trans hfiles₁
      cases areaOk with
      | false =>
        rw [if_neg Bool.false_ne_true] at hend
        subst hend
        exact h.renumber _ hpr (by rfl) (by rfl) hfiles hbal
      | true =>
        rw [if_pos rfl] at hend
        rcases pipeFill_sound hend h.sound with ⟨ip, hsound, hdev, hprocs, hnames, hfilled⟩
        have hboth : ∀ m, m = no₁ ∨ m = no₂ → (st.kernel.fcb.files m).fCount = 0 := by
          rintro m (rfl | rfl)
          · exact hzero₁
          · rw [← hfiles₁]
            exact hzero₂
        have hother : ∀ m, ¬ (m = no₁ ∨ m = no₂) → k'.fcb.files m = st.kernel.fcb.files m := by
          intro m hm
          have hf := hfilled m
          rw [if_neg hm] at hf
          rw [hf]
          show fcb₂.files m = _
          rw [hfiles]
        refine h.build _ hbal hsound (fun jp _ hused => hnames jp hused) ?_ ?_ ?_
        · intro q pr₁ hq
          rw [hprocs, Kernel.setProc_procs] at hq
          by_cases hqp : q = p
          · rw [hqp, update_self] at hq
            cases hq
            exact ⟨p, pr, hpr, rfl, rfl⟩
          · rw [update_of_ne hqp] at hq
            exact ⟨q, pr₁, hq, rfl, rfl⟩
        · intro m hold _
          rw [hother m fun hm => hold (hboth m hm)]
        · intro m hidle hnot
          by_cases hm : m = no₁ ∨ m = no₂
          · have hnamed := hfilled m
            rw [if_pos hm] at hnamed
            refine ⟨ip, hnamed, ?_⟩
            rw [obtained_pipe hnamed]
            exact ⟨rfl, hdev⟩
          · rw [hother m hm] at hnot
            exact absurd hidle hnot

/-! ## Runs -/

/-- One call keeps the invariant. -/
theorem Inv.step (h : Inv st) {i : Pid × Call} (hc : Classed st i) (hs : Step st i st') :
    Inv st' := by
  rcases i with ⟨p, c⟩
  rcases hs with ⟨k, res, hexec, rfl⟩
  cases c with
  | pipe areaOk => exact h.pipe hexec
  | openPath path flags mode => exact h.open hexec
  | read fd cnt areaOk io =>
    have hread : Dispatch.sysRw (fun t f => fileRead t f areaOk io) st.kernel p fd cnt
        = some (k, res) := hexec
    apply h.sysRw _ ?_ hread
    intro t f t' f' a res ht hrw
    apply fileRw_spec ht ?_ hrw
    intro t₁ t₂ ip h₁ _ hstore
    cases hstore
    exact h₁
  | write fd cnt areaOk io sizes =>
    have hwrite : Dispatch.sysRw (fun t f => fileWrite t f areaOk io sizes) st.kernel p fd cnt
        = some (k, res) := hexec
    apply h.sysRw _ ?_ hwrite
    intro t f t' f' a res ht hrw
    apply fileRw_spec ht ?_ hrw
    intro t₁ t₂ ip h₁ hdev hstore
    exact writeRecord_within h₁ hdev hstore
  | lseek fd off whence => exact h.sysLseek _ hexec
  | close fd => exact h.close hc hexec
  | fork child => exact h.fork hexec

/-- After boot one slot has a name, and it has not been read. -/
theorem iget_inodeTableInit_slots {dev iNo : Nat} {root : Slot} (hdev : dev ≠ 0)
    (h : iget (inodeTableInit t) dev iNo false = some (t', root)) :
    (t'.mInodes root).iDev = dev ∧ (t'.mInodes root).iValid = false ∧
      ∀ ip, ip ≠ root → (t'.mInodes ip).iDev = 0 ∧ (t'.mInodes ip).iCount = 0 := by
  unfold iget at h
  split at h
  · rename_i ip hmatch
    exact absurd (igetMatch_some hmatch).1.symm hdev
  · split at h
    · rename_i ip hidle
      cases h
      refine ⟨?_, ?_, ?_⟩
      · rw [InodeTable.set_self]
      · rw [InodeTable.set_self]
      · intro jp hjp
        rw [InodeTable.set_of_ne _ _ hjp]
        exact ⟨rfl, rfl⟩
    · cases h

theorem Booted.inv (h : Booted st) : Inv st := by
  have hbooted : Sysfile.Booted st.kernel := h
  have hbal := hbooted.balanced
  rcases hbooted.iget_root with ⟨t, root, hget, hprocs⟩
  rcases iget_inodeTableInit_slots (Nat.succ_ne_zero 0) hget with ⟨hroot, hvalid, hothers⟩
  have honly : ∀ p pr, st.kernel.procs p = some pr → pr = initProc root := by
    intro p pr hpr
    rw [hprocs] at hpr
    by_cases hp : p = 1
    · rw [hp, update_self] at hpr
      exact (some.inj hpr).symm
    · rw [update_of_ne hp] at hpr
      cases hpr
  have hnamed : ∀ ip, (st.kernel.inodes.mInodes ip).iDev ≠ 0 → ip = root := by
    intro ip hdev
    by_contra hip
    exact hdev (hothers ip hip).1
  refine ⟨hbal, ⟨?_, ?_, ?_⟩, ?_, ?_, ?_⟩
  · intro ip jp hdev hsame
    have hjp : (st.kernel.inodes.mInodes jp).iDev ≠ 0 := by
      rw [hsame.1]
      exact hdev
    rw [hnamed ip hdev, hnamed jp hjp]
  · intro ip _ hdev hv
    rw [hnamed ip hdev, hvalid] at hv
    cases hv
  · intro ip hused hdev
    by_cases hip : ip = root
    · rw [hip, hroot] at hdev
      cases hdev
    · have hzero := (hothers ip hip).2
      omega
  · intro p pr hpr
    rw [honly p pr hpr]
    show (st.kernel.inodes.mInodes root).iDev ≠ 0
    rw [hroot]
    exact Nat.succ_ne_zero 0
  · intro p pr hpr
    rw [honly p pr hpr]
    rfl
  · intro no hcount
    have hzero := hbooted.counted.count no
    have hdemand : fdRefs st.kernel.procs no = 0 := by
      rw [hprocs]
      apply total_eq_zero.mpr
      intro p
      by_cases hp : p = 1
      · rw [hp, update_self]
        exact refs_none no
      · rw [update_of_ne hp]
        rfl
    omega

/-! ## What the calls act on -/

/-- The type tests exclude each other. -/
theorem type_exclusive {mode : Nat} (h : isFifo mode = true) :
    (isChr mode || isBlk mode || isReg mode || isDir mode) = false := by
  unfold isFifo at h
  have hmode : fileType mode = 0x1000 := beq_iff_eq.mp h
  unfold isChr isBlk isReg isDir
  rw [hmode]
  rfl

theorem lockedAction_chr {mode : Nat} (h : isChr mode = true) : lockedAction mode = .chr := if_pos h

theorem lockedAction_blk {mode : Nat} (h : isBlk mode = true) : lockedAction mode = .blk := by
  unfold isBlk at h
  have hmode : fileType mode = 0x6000 := beq_iff_eq.mp h
  unfold lockedAction isChr isBlk
  rw [hmode]
  rfl

theorem lockedAction_file {mode : Nat} (h : isReg mode = true ∨ isDir mode = true) :
    lockedAction mode = .file := by
  have hmode : fileType mode = 0x8000 ∨ fileType mode = 0x4000 := by
    rcases h with h | h
    · exact .inl (beq_iff_eq.mp h)
    · exact .inr (beq_iff_eq.mp h)
  unfold lockedAction isChr isBlk isReg isDir
  rcases hmode with hmode | hmode
  · rw [hmode]
    rfl
  · rw [hmode]
    rfl

/-- What reading and writing a file comes to, by its origin. -/
def dueAction (t : InodeTable) : Origin → Action
  | .pipe ip => .pipe ip
  | .disk dev iNo => lockedAction (t.diskInode dev iNo).iMode

/-- A slot that is locked acts by its type on disk. -/
theorem fileRw_fits {allowed areaOk : Bool} {store : InodeTable → Slot → Option InodeTable}
    {f f' : FileT} {a : Action} {io res : Int} {o : Origin} (h : Sound t none)
    (hused : 1 ≤ (t.mInodes ip).iCount) (hip : f.fInode = some ip) (hstands : Stands t o ip)
    (hclassed : (t.mInodes ip).iDev ≠ 0 → isFifo (t.mInodes ip).dInodeCtnt.iMode = false)
    (hrw : fileRw allowed store t f areaOk io = some (t', f', a, res)) :
    a = .refused ∨ a = dueAction t o := by
  unfold fileRw at hrw
  split at hrw
  · rcases Prod.mk.inj (some.inj hrw) with ⟨-, hrest⟩
    rcases Prod.mk.inj hrest with ⟨-, hrest⟩
    exact .inl (Prod.mk.inj hrest).1.symm
  · split at hrw
    · rcases Prod.mk.inj (some.inj hrw) with ⟨-, hrest⟩
      rcases Prod.mk.inj hrest with ⟨-, hrest⟩
      exact .inl (Prod.mk.inj hrest).1.symm
    · right
      rw [hip] at hrw
      dsimp only at hrw
      split at hrw
      · rename_i hfifo
        rcases Prod.mk.inj (some.inj hrw) with ⟨-, hrest⟩
        rcases Prod.mk.inj hrest with ⟨-, hrest⟩
        have ha := (Prod.mk.inj hrest).1.symm
        cases o with
        | pipe jp =>
          rw [ha, hstands.1]
          rfl
        | disk dev iNo =>
          have hdev : (t.mInodes ip).iDev ≠ 0 := by
            rw [hstands.2.1]
            exact hstands.1
          rw [hclassed hdev] at hfifo
          cases hfifo
      · rename_i hfifo
        rcases bind_eq_some_iff.mp hrw with ⟨t₁, hlock, hrw⟩
        rcases bind_eq_some_iff.mp hrw with ⟨t₂, hwritten, hrw⟩
        rcases bind_eq_some_iff.mp hrw with ⟨t₃, hun, hrw⟩
        rcases Prod.mk.inj (some.inj hrw) with ⟨-, hrest⟩
        rcases Prod.mk.inj hrest with ⟨-, hrest⟩
        have ha := (Prod.mk.inj hrest).1.symm
        have hdev := ilock_disk h (Bool.eq_false_iff.mpr hfifo) hlock
        rcases (Within.refl h).ilock hdev hlock with ⟨h₁, hdev₁, hvalid₁⟩
        cases o with
        | pipe jp => exact absurd hstands.2 hdev
        | disk dev iNo =>
          have hname := h₁.names ip hused
          have hdisk : t₁.diskInode = t.diskInode := ilock_diskInode hlock
          rw [ha, h₁.sound.loaded ip nofun hdev₁ hvalid₁, hname.1, hname.2, hstands.2.1, hstands.2.2,
            hdisk]
          rfl

theorem fits_of_due {t : InodeTable} {o : Origin} {c : Call} {a : Action} (h : a = dueAction t o)
    (hc : ∀ fd, c ≠ .close fd) : Fits t o c a := by
  subst h
  cases o with
  | pipe ip => exact rfl
  | disk dev iNo =>
    cases c with
    | close fd => exact absurd rfl (hc fd)
    | _ => exact ⟨lockedAction_chr, lockedAction_blk, lockedAction_file⟩

/-- The file behind a descriptor of a read or a write. -/
theorem Inv.acts_rw (h : Inv st) {allowed areaOk : Bool} {c : Call}
    {store : InodeTable → Slot → Option InodeTable} {f : FileT} {a : Action} {io res : Int}
    (hcount : (st.kernel.fcb.files no).fCount ≠ 0) (hc : ∀ fd, c ≠ .close fd)
    (hclassed : ∀ ip, (st.kernel.fcb.files no).fInode = some ip →
      (st.kernel.inodes.mInodes ip).iDev ≠ 0 →
        isFifo (st.kernel.inodes.mInodes ip).dInodeCtnt.iMode = false)
    (hrw : fileRw allowed store st.kernel.inodes (st.kernel.fcb.files no) areaOk io
      = some (t', f, a, res)) :
    a = .refused ∨ a = .kept ∨ Fits st.kernel.inodes (st.origin no) c a := by
  rcases h.files no hcount with ⟨ip, hip, hstands⟩
  rcases fileRw_fits h.sound (file_used h.balanced hcount hip) hip hstands (hclassed ip hip) hrw
    with hrefused | hdue
  · exact .inl hrefused
  · exact .inr (.inr (fits_of_due hdue hc))

theorem Inv.acts (h : Inv st) {i : Pid × Call} (hc : Classed st i) : Acts st i := by
  rcases i with ⟨p, c⟩
  intro no a ha hcount
  rcases bind_eq_some_iff.mp ha with ⟨pr, hpr, ha⟩
  have hc := hc pr hpr
  cases c with
  | pipe areaOk => exact nomatch ha
  | openPath path flags mode => exact nomatch ha
  | lseek fd off whence => exact nomatch ha
  | fork child => exact nomatch ha
  | read fd cnt areaOk io | write fd cnt areaOk io sizes =>
    rcases bind_eq_some_iff.mp ha with ⟨⟨i, m⟩, hopen, ha⟩
    dsimp only at ha
    split at ha
    · exact nomatch ha
    · rename_i hcnt
      rcases bind_eq_some_iff.mp ha with ⟨⟨t, f, b, res⟩, hrw, ha⟩
      rcases Prod.mk.inj (some.inj ha) with ⟨rfl, rfl⟩
      exact h.acts_rw hcount nofun (fun ip hip hdev => hc hcnt i m ip hopen hip hdev) hrw
  | close fd =>
    rcases bind_eq_some_iff.mp ha with ⟨⟨i, m⟩, hopen, ha⟩
    dsimp only at ha
    split at ha
    · rcases Prod.mk.inj (some.inj ha) with ⟨rfl, rfl⟩
      exact Or.inr (Or.inl rfl)
    · rename_i hmany
      rcases bind_eq_some_iff.mp ha with ⟨ip, hip, ha⟩
      rcases Prod.mk.inj (some.inj ha) with ⟨rfl, rfl⟩
      refine Or.inr (Or.inr ?_)
      rcases h.files m hcount with ⟨jp, hjp, hstands⟩
      rcases some.inj (hip.symm.trans hjp)
      cases ho : st.origin m with
      | pipe kp =>
        rw [ho] at hstands
        have hfifo := h.sound.pipes ip (file_used h.balanced hcount hip) hstands.2
        show releaseAction _ ip = .pipe kp
        unfold releaseAction
        rw [if_neg (Bool.eq_false_iff.mp (type_exclusive hfifo)), if_pos hfifo, hstands.1]
      | disk dev iNo =>
        rw [ho] at hstands
        intro _
        have hdev : (st.kernel.inodes.mInodes ip).iDev ≠ 0 := by
          rw [hstands.2.1]
          exact hstands.1
        unfold releaseAction
        exact if_pos (hc i m ip hopen (by omega) hip hdev)

/-- In every run from boot whose calls all meet slots that are classed, every read, write and close
    acts on its file according to how that was obtained. -/
theorem dispatch_ok {st₀ : State} {i : Pid × Call} (h0 : Booted st₀)
    (hr : Reaches Step Classed st₀ st) (hc : Classed st i) : Acts st i := by
  have hinv : Inv st := hr.invariant h0.inv fun a i b ha hc hs => ha.step hc hs
  exact hinv.acts hc

/-! ## Runs by their calls -/

/-- The state after a call; `none` if the call does not return. -/
def afterCall (st : State) (i : Pid × Call) : Option State :=
  (exec st.kernel i.1 i.2).map fun r => st.next i.2 r.1

theorem afterCall_step (st : State) (i : Pid × Call) (st' : State) (h : afterCall st i = some st') :
    Step st i st' := by
  rcases Option.map_eq_some_iff.mp h with ⟨⟨k, res⟩, hexec, heq⟩
  exact ⟨k, res, hexec, heq.symm⟩

/-- Boot from tables that are zero. -/
def bootState : State := ⟨bootKernel, fun _ => .pipe 0⟩

/-- The file that inode 5 is. -/
def fileEnv : OpenEnv :=
  ⟨⟨true, [some 5]⟩, ⟨⟨true, []⟩, none, none, ⟨none, true⟩, ⟨none, true⟩, ⟨none, true⟩⟩⟩

/-- The type that the slot of a disk inode behind a descriptor records passes a test. -/
def recorded (k : Kernel) (pr : Proc) (fd : Int) (test : Nat → Bool) : Bool :=
  (openFd pr fd).all fun r => (k.fcb.files r.2).fInode.all fun ip =>
    (k.inodes.mInodes ip).iDev == 0 || test (k.inodes.mInodes ip).dInodeCtnt.iMode

theorem recorded_sound {pr : Proc} {fd : Int} (test : Nat → Bool) {i : Fd}
    (h : recorded k pr fd test = true) (hopen : openFd pr fd = some (i, no))
    (hip : (k.fcb.files no).fInode = some ip) (hdev : (k.inodes.mInodes ip).iDev ≠ 0) :
    test (k.inodes.mInodes ip).dInodeCtnt.iMode = true := by
  unfold recorded at h
  rw [hopen, Option.all_some, hip, Option.all_some, Bool.or_eq_true, beq_iff_eq] at h
  rcases h with hzero | hpass
  · exact absurd hzero hdev
  · exact hpass

/-- A test of `Classed`. -/
def classed (st : State) (i : Pid × Call) : Bool :=
  (st.kernel.procs i.1).all fun pr =>
    match i.2 with
    | .read fd _ _ _ | .write fd _ _ _ _ => recorded st.kernel pr fd fun m => !isFifo m
    | .close fd => recorded st.kernel pr fd fun m => isChr m || isBlk m || isReg m || isDir m
    | _ => true

theorem classed_sound (st : State) (i : Pid × Call) (h : classed st i = true) : Classed st i := by
  rcases i with ⟨p, c⟩
  intro pr hpr
  unfold classed at h
  rw [hpr, Option.all_some] at h
  cases c with
  | read fd cnt areaOk io | write fd cnt areaOk io sizes =>
    intro _ i no ip hopen hip hdev
    have hpass : (!isFifo (st.kernel.inodes.mInodes ip).dInodeCtnt.iMode) = true :=
      recorded_sound (fun m => !isFifo m) h hopen hip hdev
    rw [Bool.not_eq_true'] at hpass
    exact hpass
  | close fd =>
    intro i no ip hopen _ hip hdev
    exact recorded_sound (fun m => isChr m || isBlk m || isReg m || isDir m) h hopen hip hdev
  | _ => trivial

/-! ## A run that takes a file for a pipe -/

/-- The slot of a closed pipe goes to the file. -/
def slotReuse : List (Pid × Call) :=
  [(1, .pipe true), (1, .close 0), (1, .close 1), (1, .openPath (some fileEnv) 0 0)]

set_option maxRecDepth 10000 in
/-- The file that is read is taken for the pipe that had its slot. -/
theorem dispatch_stale : ∃ st₀ st, Booted st₀ ∧ Reaches Step anyInput st₀ st ∧
    ¬ Acts st (1, .read 0 1 true 0) := by
  have hrun : Leads afterCall bootState slotReuse fun st =>
      action st.kernel 1 (.read 0 1 true 0) = some (2, .pipe 1) ∧ (st.kernel.fcb.files 2).fCount = 1 ∧
        (match st.origin 2 with
          | .pipe _ => false
          | .disk dev iNo => isReg (st.kernel.inodes.diskInode dev iNo).iMode) = true := by
    decide +kernel
  rcases hrun.reaches Step anyInput fun _ _ _ h => ⟨trivial, afterCall_step _ _ _ h⟩ with
    ⟨st, hreach, haction, hcount, hdisk⟩
  refine ⟨bootState, st, bootKernel_booted, hreach, fun hacts => ?_⟩
  have hfits := hacts 2 (.pipe 1) haction (by rw [hcount]; decide)
  cases ho : st.origin 2 with
  | pipe ip =>
    rw [ho] at hdisk
    cases hdisk
  | disk dev iNo =>
    rw [ho] at hdisk hfits
    rcases hfits with hbad | hbad | hbad
    · cases hbad
    · cases hbad
    · exact nomatch hbad.2.2 (.inl hdisk)

/-- A file is opened and read, then a pipe is made, and a child shares them. -/
def fileAndPipe : List (Pid × Call) :=
  [(1, .openPath (some fileEnv) 0 0), (1, .read 0 1 true 1), (1, .pipe true), (1, .fork (some 2)),
    (1, .close 0)]

set_option maxRecDepth 10000 in
/-- A run of five calls; then the child reads the file and the pipe, and lets go of the file, of
    which it has the last descriptor. -/
theorem dispatch_ok_file : ∃ st₀ st, Booted st₀ ∧ Reaches Step Classed st₀ st ∧
    action st.kernel 2 (.read 0 1 true 1) = some (0, .file) ∧
    action st.kernel 2 (.read 1 1 true 1) = some (1, .pipe 2) ∧
    action st.kernel 2 (.close 0) = some (0, .put) ∧
    Acts st (2, .read 0 1 true 1) ∧ Acts st (2, .read 1 1 true 1) ∧ Acts st (2, .close 0) := by
  have hrun : Leads (tested classed afterCall) bootState fileAndPipe fun st =>
      action st.kernel 2 (.read 0 1 true 1) = some (0, .file) ∧
      action st.kernel 2 (.read 1 1 true 1) = some (1, .pipe 2) ∧
      action st.kernel 2 (.close 0) = some (0, .put) ∧
      classed st (2, .read 0 1 true 1) ∧ classed st (2, .read 1 1 true 1) ∧
      classed st (2, .close 0) := by
    decide +kernel
  rcases hrun.reaches Step _ (tested_step classed_sound afterCall_step) with
    ⟨st, hreach, hfile, hpipe, hput, hc₁, hc₂, hc₃⟩
  have hbooted : Booted bootState := bootKernel_booted
  have hacts : ∀ i, classed st i → Acts st i :=
    fun i hc => dispatch_ok hbooted hreach (classed_sound st i hc)
  exact ⟨bootState, st, hbooted, hreach, hfile, hpipe, hput, hacts _ hc₁, hacts _ hc₂,
    hacts _ hc₃⟩

end Uniks.Dispatch
