/-
  What the steps of `create` do to the inodes and the disk (`Uniks.Creation`).

  From the moment it has a new inode, `create` holds two slots, and everything else is as it was
  when the call began (`Making`).  A write into a block that a directory has already is done or
  leaves no trace; the first write into the new directory takes a block even if it fails.  The
  `fail:` exit gives back the slots, the mutexes and the inode, and the block if `i_size` counts it
  (`createFail_ends`).
-/
import Uniks.Creation

namespace Uniks.Creation

open Uniks.Inode (DInode InodeTable MInode Slot FileKind Within Sound Room freshInode isDir SameName
  EXT2_ROOT_INO sbDev u16)
open Uniks.PathCalls (Stop Fs Str Lead record setRecord setFile setFile_self grownTo dirOf nameOf
  Named Amid AtHome Lacks diskLookup pathLeads startOf holding)
open Uniks.Sysfile (Pid)
open Uniks.BlockBitmap (Bitmaps Geometry Full InReach)
open Uniks.ByteMem Uniks.DirLink Uniks.Hoare
open Function (update update_idem update_self update_of_ne update_eq_self)

variable {c : Setting} {p : Pid} {w w' : World} {s₀ s s' : Fs} {dev dpNo iNo : Nat} {ip dp : Slot}

/-! ## Writes that stay in one block -/

/-- A piece in one block: it is written if there is such a block and the device delivers it. -/
theorem writeiLoop_piece {balloc : Bitmaps → Bitmaps × Int} (served : Nat → Bool) (src : Bytes)
    {off n b : Nat} {f f' : Bmap.File} (hn : 0 < n) (hin : off % BLKSIZE + n ≤ BLKSIZE)
    (hmap : Bmap.bmap balloc f (off / BLKSIZE % 2 ^ 32) = some (f', b)) :
    Bmap.writeiLoop balloc served src off n 0 f = some (if b ≠ 0 ∧ served (b % 2 ^ 32) = true
      then (f'.copyBlock b (off % BLKSIZE) n src, n) else (f', 0)) := by
  have hmin : min (n - 0) (BlockBitmap.BLKSIZE - off % BlockBitmap.BLKSIZE) = n := by
    show min (n - 0) (BLKSIZE - off % BLKSIZE) = n
    omega
  have hsrc : (fun k => src (0 + k)) = src := funext fun k => by rw [Nat.zero_add]
  have hmap' : Bmap.bmap balloc f (off / BlockBitmap.BLKSIZE % 2 ^ 32) = some (f', b) := hmap
  rw [Bmap.writeiLoop, if_pos hn, hmap']
  dsimp only
  by_cases hzero : b = 0
  · rw [if_pos hzero, if_neg (fun hand => hand.1 hzero)]
  · rw [if_neg hzero]
    by_cases hread : served (b % 2 ^ 32) = true
    · rw [if_pos hread, if_pos ⟨hzero, hread⟩, hmin, hsrc, Nat.zero_add, Bmap.writeiLoop,
        if_neg (Nat.lt_irrefl n)]
    · rw [if_neg hread, if_neg (fun hand => hread hand.2)]

/-- Bytes of a file are overwritten. -/
def World.overwrite (w : World) (dev iNo b off n : Nat) (src : Bytes) : World :=
  { w with
    fs := { w.fs with data := setFile w.fs.data dev iNo (splice (w.fs.data dev iNo) off n src) }
    blocks := update w.blocks b (splice (w.blocks b) (off % BLKSIZE) n src) }

theorem iupdate_loaded (hname : Named s ip dev iNo) (hvalid : (s.inodes.mInodes ip).iValid = true)
    (hload : record s ip = s.inodes.diskInode dev iNo) :
    PathCalls.iupdate (setRecord s ip (record s ip)) ip = .ok s := by
  rcases hname with ⟨rfl, rfl⟩
  have hset : setRecord s ip (record s ip) = s := by
    have hself : s.inodes.set ip (s.inodes.mInodes ip) = s.inodes := by
      unfold InodeTable.set
      rw [update_eq_self]
    show { s with inodes := s.inodes.set ip (s.inodes.mInodes ip) } = s
    rw [hself]
  have hdisk : (fun dev iNo => if dev = (s.inodes.mInodes ip).iDev ∧ iNo = (s.inodes.mInodes ip).iNo
      then (s.inodes.mInodes ip).dInodeCtnt else s.inodes.diskInode dev iNo)
        = s.inodes.diskInode := by
    funext d n
    split
    · rename_i heq
      rw [heq.1, heq.2]
      exact hload
    · rfl
  rw [hset, PathCalls.iupdate, Inode.iupdate, if_pos hvalid]
  dsimp only
  rw [hdisk]

theorem storeFile_file (w : World) (dev iNo : Nat) (d : DInode) :
    w.storeFile dev iNo (w.file dev iNo d) = w := by
  unfold World.storeFile World.file
  dsimp only
  rw [setFile_self rfl]

/-- `writei` within a block of the file. -/
theorem writei_inside {served : Nat → Bool} {src : Bytes} {off n b : Nat}
    (hname : Named w.fs ip dev iNo) (hvalid : (w.fs.inodes.mInodes ip).iValid = true)
    (hload : record w.fs ip = w.fs.inodes.diskInode dev iNo) (hn : 0 < n)
    (hin : off % BLKSIZE + n ≤ BLKSIZE) (hend : off + n ≤ (record w.fs ip).iSize)
    (hsmall : (record w.fs ip).iSize < 2 ^ 32)
    (hmap : Bmap.bmap (Bmap.ballocFor c.geo (iBlockGroup c iNo)) (w.file dev iNo (record w.fs ip))
      (off / BLKSIZE % 2 ^ 32) = some (w.file dev iNo (record w.fs ip), b)) (hb : b ≠ 0) :
    writei c w ip (some served) src off n = .ok (if served (b % 2 ^ 32)
      then (w.overwrite dev iNo (b % 2 ^ 32) off n src, (n : Int)) else (w, - DirLink.EIO)) := by
  have hup := iupdate_loaded hname hvalid hload
  rcases hname with ⟨rfl, rfl⟩
  have hmax : (2 : Nat) ^ 32 ≤ Bmap.EXT2_MAX_FBLKS * BLKSIZE := by decide
  have hgrown : ∀ k ≤ n, grownTo (record w.fs ip) (off + k) = record w.fs ip := by
    intro k hk
    rw [grownTo, if_neg (by omega)]
  unfold writei
  dsimp only
  rw [if_neg (by show ¬ (off > (record w.fs ip).iSize ∨ _); omega), if_neg (by omega)]
  have hloop : Bmap.writeiLoop
      (Bmap.ballocFor c.geo (iBlockGroup c (w.fs.inodes.mInodes ip).iNo)) served src off n 0
      (w.file (w.fs.inodes.mInodes ip).iDev (w.fs.inodes.mInodes ip).iNo
        (w.fs.inodes.mInodes ip).dInodeCtnt) = _ :=
    writeiLoop_piece served src hn hin hmap
  rw [hloop]
  by_cases hread : served (b % 2 ^ 32) = true
  · rw [if_pos ⟨hb, hread⟩, if_pos hread]
    show (PathCalls.iupdate (setRecord w.fs ip (grownTo (record w.fs ip) (off + n))) ip >>= _) = _
    rw [hgrown n (Nat.le_refl n), hup, ok_bind, if_pos (Nat.ne_of_gt hn)]
    show Except.ok (World.storeFile _ _ _ _, _) = Except.ok (w.overwrite _ _ _ _ _ _, _)
    unfold World.storeFile World.overwrite
    dsimp only [Bmap.File.copyBlock, World.file]
    rw [setFile_self rfl]
  · rw [if_neg (fun hand => hread hand.2), if_neg hread]
    show (PathCalls.iupdate (setRecord w.fs ip (grownTo (record w.fs ip) (off + 0))) ip >>= _) = _
    rw [hgrown 0 (Nat.zero_le n), hup, ok_bind, splice_zero, setFile_self rfl, storeFile_file]
    rfl

/-! ## Other slots -/

theorem iget_others {t t' : InodeTable} {clean : Bool}
    (h : Inode.iget t dev iNo clean = some (t', ip)) :
    (∀ jp, jp ≠ ip → t'.mInodes jp = t.mInodes jp) ∧ t'.diskInode = t.diskInode := by
  unfold Inode.iget at h
  split at h
  · cases h
    exact ⟨fun jp hjp => InodeTable.set_of_ne t _ hjp, rfl⟩
  · split at h
    · cases h
      exact ⟨fun jp hjp => InodeTable.set_of_ne t _ hjp, rfl⟩
    · cases h

theorem ilock_others {t t' : InodeTable} (h : Inode.ilock t ip = some t') :
    (∀ jp, jp ≠ ip → t'.mInodes jp = t.mInodes jp) ∧ t'.diskInode = t.diskInode ∧
      SameName (t.mInodes ip) (t'.mInodes ip) := by
  unfold Inode.ilock at h
  split at h
  · split at h
    · cases h
      exact ⟨fun _ _ => rfl, rfl, .refl _⟩
    · cases h
      refine ⟨fun jp hjp => InodeTable.set_of_ne t _ hjp, rfl, ?_⟩
      rw [InodeTable.set_self]
      exact ⟨rfl, rfl⟩
  · cases h

/-- The table after a record has been changed and written back. -/
def written (t : InodeTable) (ip : Slot) (d : DInode) : InodeTable where
  mInodes := (t.set ip { t.mInodes ip with dInodeCtnt := d }).mInodes
  diskInode := setFile t.diskInode (t.mInodes ip).iDev (t.mInodes ip).iNo d

theorem iupdate_written {t : InodeTable} {d : DInode} (hvalid : (t.mInodes ip).iValid = true) :
    Inode.iupdate (t.set ip { t.mInodes ip with dInodeCtnt := d }) ip = some (written t ip d) := by
  have hself : (t.set ip { t.mInodes ip with dInodeCtnt := d }).mInodes ip
      = { t.mInodes ip with dInodeCtnt := d } := InodeTable.set_self ..
  rw [Inode.iupdate, hself, if_pos hvalid]
  rfl

theorem setFile_at {α : Type} {f : Nat → Nat → α} {v : α} : setFile f dev iNo v dev iNo = v :=
  if_pos ⟨rfl, rfl⟩

theorem setFile_off {α : Type} {f : Nat → Nat → α} {v : α} {a b : Nat} (h : ¬ (a = dev ∧ b = iNo)) :
    setFile f dev iNo v a b = f a b := if_neg h

/-! ## While the new inode is made -/

/-- The new inode has a slot and the record `d`; it and the parent are locked, and nothing else has
    changed but what files contain. -/
structure Making (p : Pid) (s₀ : Fs) (dev dpNo iNo : Nat) (dp ip : Slot) (more : List Slot)
    (used : Nat → Nat → Bool) (d : DInode) (s : Fs) : Prop where
  within : Within s₀.inodes s.inodes (ip :: dp :: more) none
  loaded : ∀ jp, (s.inodes.mInodes jp).iDev ≠ 0 → (s.inodes.mInodes jp).iValid = true →
    record s jp = s.inodes.diskInode (s.inodes.mInodes jp).iDev (s.inodes.mInodes jp).iNo
  disk : ∀ a b, ¬ (a = dev ∧ b = iNo) → s.inodes.diskInode a b = s₀.inodes.diskInode a b
  marks : s.used = used
  mutexes : s.iMtx = update (holding p (some dp)) ip (some p)
  parent : Named s dp dev dpNo
  parentValid : (s.inodes.mInodes dp).iValid = true
  child : Named s ip dev iNo
  childValid : (s.inodes.mInodes ip).iValid = true
  childRecord : record s ip = d
  apart : dpNo ≠ iNo
  idle : (s₀.inodes.mInodes ip).iCount = 0

variable {more : List Slot} {used : Nat → Nat → Bool} {d d' : DInode} {allowed : Stop → Prop}

theorem Making.ne (h : Making p s₀ dev dpNo iNo dp ip more used d s) : ip ≠ dp := by
  rintro rfl
  exact h.apart (h.parent.2.symm.trans h.child.2)

theorem Making.device (h : Making p s₀ dev dpNo iNo dp ip more used d s) : dev ≠ 0 := by
  have hdev := h.within.disk ip List.mem_cons_self
  rw [h.child.1] at hdev
  exact hdev

/-- Other contents of files, and another memory of blocks. -/
theorem Making.withData (h : Making p s₀ dev dpNo iNo dp ip more used d s)
    (data : Nat → Nat → Bytes) :
    Making p s₀ dev dpNo iNo dp ip more used d { s with data := data } :=
  ⟨h.within, h.loaded, h.disk, h.marks, h.mutexes, h.parent, h.parentValid, h.child, h.childValid,
    h.childRecord, h.apart, h.idle⟩

/-- The record of a slot is written, and no other slot has its name. -/
theorem written_loaded {t : InodeTable} (hsound : ∀ jp, (t.mInodes jp).iDev ≠ 0 →
      SameName (t.mInodes jp) (t.mInodes ip) → jp = ip)
    (hload : ∀ jp, jp ≠ ip → (t.mInodes jp).iDev ≠ 0 → (t.mInodes jp).iValid = true →
      (t.mInodes jp).dInodeCtnt = t.diskInode (t.mInodes jp).iDev (t.mInodes jp).iNo) (jp : Slot)
    (hdev : ((written t ip d).mInodes jp).iDev ≠ 0)
    (hvalid : ((written t ip d).mInodes jp).iValid = true) :
    ((written t ip d).mInodes jp).dInodeCtnt = (written t ip d).diskInode
      ((written t ip d).mInodes jp).iDev ((written t ip d).mInodes jp).iNo := by
  unfold written at hdev hvalid ⊢
  dsimp only at hdev hvalid ⊢
  by_cases hjp : jp = ip
  · rw [hjp, InodeTable.set_self]
    exact setFile_at.symm
  · rw [InodeTable.set_of_ne _ _ hjp] at hdev hvalid ⊢
    rw [setFile_off]
    · exact hload jp hjp hdev hvalid
    · rintro ⟨hd, hn⟩
      exact hjp (hsound jp hdev ⟨hd.symm, hn.symm⟩)

/-- The new inode gets another record. -/
theorem Making.rewrite (h : Making p s₀ dev dpNo iNo dp ip more used d s) (d' : DInode) :
    PathCalls.iupdate (setRecord s ip d') ip = .ok { s with inodes := written s.inodes ip d' } ∧
      Making p s₀ dev dpNo iNo dp ip more used d' { s with inodes := written s.inodes ip d' } := by
  have hup := iupdate_written (d := d') h.childValid
  have hdev := h.within.disk ip List.mem_cons_self
  have hwithin := (h.within.write hdev (.inl rfl) hup).1
  have hself : (written s.inodes ip d').mInodes ip
      = { s.inodes.mInodes ip with dInodeCtnt := d' } := InodeTable.set_self ..
  have hparent : (written s.inodes ip d').mInodes dp = s.inodes.mInodes dp :=
    InodeTable.set_of_ne _ _ (Ne.symm h.ne)
  constructor
  · unfold PathCalls.iupdate setRecord
    dsimp only
    rw [hup]
  · refine ⟨hwithin, ?_, fun a b hab => ?_, h.marks, h.mutexes, ?_, ?_, ?_, ?_, ?_, h.apart, h.idle⟩
    · refine written_loaded (fun jp hjdev hsame => ?_) fun jp _ => h.loaded jp
      exact (h.within.sound.unique jp ip hjdev hsame)
    · rw [← h.disk a b hab]
      show setFile _ _ _ _ a b = _
      rw [h.child.1, h.child.2]
      exact setFile_off hab
    · rw [Named, hparent]
      exact h.parent
    · rw [hparent]
      exact h.parentValid
    · rw [Named, hself]
      exact h.child
    · rw [hself]
      exact h.childValid
    · show ((written s.inodes ip d').mInodes ip).dInodeCtnt = d'
      rw [hself]

/-- A table with a slot for the new inode. -/
def claimed (s : Fs) (t : InodeTable) (locked : Slot → Option Pid) (dev iNo : Nat) : Fs where
  inodes := t
  iMtx := locked
  used := setFile s.used dev iNo true
  data := s.data

/-- The slot of a new inode, locked, before its record is filled in. -/
theorem claim_made {t : InodeTable} {locked : Slot → Option Pid} (h : Amid p s₀ s [dp] (some dp))
    (hname : Named s dp dev dpNo) (hvalid : (s.inodes.mInodes dp).iValid = true)
    (hapart : dpNo ≠ iNo) (hidle : (s₀.inodes.mInodes ip).iCount = 0)
    (hwithin : Within s₀.inodes t [ip, dp] (some ip))
    (hothers : ∀ jp, jp ≠ ip → t.mInodes jp = s.inodes.mInodes jp)
    (hdisk : t.diskInode = s.inodes.diskInode) (hdev : (t.mInodes ip).iDev = dev)
    (hno : (t.mInodes ip).iNo = iNo) (hread : (t.mInodes ip).iValid = true) (hne : dp ≠ ip)
    (hlocked : locked = update s.iMtx ip (some p)) (d : DInode) :
    PathCalls.iupdate (setRecord (claimed s t locked dev iNo) ip d) ip
        = .ok (claimed s (written t ip d) locked dev iNo) ∧
      Making p s₀ dev dpNo iNo dp ip [] (setFile s₀.used dev iNo true) d
        (claimed s (written t ip d) locked dev iNo) := by
  have hup := iupdate_written (d := d) hread
  have hdev' := hwithin.disk ip List.mem_cons_self
  have hwrite := (hwithin.write hdev' (.inr rfl) hup).1
  have hself : (written t ip d).mInodes ip = { t.mInodes ip with dInodeCtnt := d } :=
    InodeTable.set_self ..
  have hparent : (written t ip d).mInodes dp = s.inodes.mInodes dp := by
    rw [← hothers dp hne]
    exact InodeTable.set_of_ne _ _ hne
  constructor
  · unfold PathCalls.iupdate setRecord claimed
    dsimp only
    rw [hup]
  · refine ⟨hwrite, ?_, fun a b hab => ?_, ?_, ?_, ?_, ?_, ?_, ?_, ?_, hapart, hidle⟩
    · refine written_loaded (fun jp hjdev hsame => ?_) fun jp hjp => ?_
      · exact hwithin.sound.unique jp ip hjdev hsame
      · rw [hothers jp hjp, hdisk]
        exact h.loaded jp
    · rw [← h.disk.records, ← hdisk]
      show setFile _ _ _ _ a b = _
      rw [hdev, hno]
      exact setFile_off hab
    · show setFile s.used dev iNo true = _
      rw [h.disk.used]
    · show locked = _
      rw [hlocked, h.mutexes]
    · show ((written t ip d).mInodes dp).iDev = dev ∧ ((written t ip d).mInodes dp).iNo = dpNo
      rw [hparent]
      exact hname
    · show ((written t ip d).mInodes dp).iValid = true
      rw [hparent]
      exact hvalid
    · show ((written t ip d).mInodes ip).iDev = dev ∧ ((written t ip d).mInodes ip).iNo = iNo
      rw [hself]
      exact ⟨hdev, hno⟩
    · show ((written t ip d).mInodes ip).iValid = true
      rw [hself]
      exact hread
    · show ((written t ip d).mInodes ip).dInodeCtnt = d
      rw [hself]

/-- `create` gets its inode. -/
theorem newInode_made (h : Amid p s₀ s [dp] (some dp)) (hroom : Room s₀.inodes)
    (hname : Named s dp dev dpNo) (hvalid : (s.inodes.mInodes dp).iValid = true)
    (hapart : dpNo ≠ iNo) (hidle : ∀ jp, 1 ≤ (s₀.inodes.mInodes jp).iCount → ¬ Named s₀ jp dev iNo)
    (hfresh : c.calls.fresh = some iNo) (mode : Nat) :
    Meets (Lacks s₀) (newInode p c s dev mode) fun r =>
      ∃ ip, r.2 = some (ip, iNo) ∧ Making p s₀ dev dpNo iNo dp ip [] (setFile s₀.used dev iNo true)
        (freshInode mode) r.1 ∧ r.1.data = s.data := by
  have hdev : dev ≠ 0 := by
    rw [← hname.1]
    exact h.device List.mem_cons_self
  unfold newInode PathCalls.ialloc PathCalls.iget
  rw [hfresh]
  dsimp only
  cases hget : Inode.iget s.inodes dev iNo true with
  | none =>
    refine .error ⟨rfl, fun hspare => ?_⟩
    obtain ⟨jp, hidle⟩ := h.spare (Nat.le_succ 1) hspare
    unfold Inode.iget at hget
    split at hget
    · cases hget
    · rw [hidle] at hget
      cases hget
  | some r =>
    obtain ⟨t, ip⟩ := r
    rcases h.within.iget hroom (Nat.le_add_left 1 3) hdev rfl hget with ⟨hwithin, hipdev, hipno⟩
    rcases iget_others hget with ⟨hothers, hdisk⟩
    have hkeep := PathCalls.iget_names hget (h.within.in_use List.mem_cons_self)
    have hne : dp ≠ ip := by
      rintro rfl
      exact hapart ((hkeep.2.trans hname.2).symm.trans hipno)
    have hfree : ¬ (s.iMtx ip).isSome := by
      rw [h.mutexes, holding, update_of_ne (Ne.symm hne)]
      exact nofun
    have hipdev' : (t.mInodes ip).iDev ≠ 0 := hwithin.disk ip List.mem_cons_self
    have hipused := hwithin.in_use (List.mem_cons_self (a := ip))
    have hlock : ∃ t', Inode.ilock t ip = some t' := by
      rw [Inode.ilock, if_pos hipused]
      split
      · exact ⟨_, rfl⟩
      · exact ⟨_, rfl⟩
    obtain ⟨t', hlock⟩ := hlock
    rcases hwithin.ilock hipdev' hlock with ⟨hwithin', -, hread⟩
    rcases ilock_others hlock with ⟨hothers', hdisk', hsame⟩
    have hipidle : (s₀.inodes.mInodes ip).iCount = 0 := by
      by_contra hne
      have hpos : 1 ≤ (s₀.inodes.mInodes ip).iCount := Nat.pos_of_ne_zero hne
      have hnames := hwithin.names ip hpos
      exact hidle ip hpos ⟨hnames.1.symm.trans hipdev, hnames.2.symm.trans hipno⟩
    obtain ⟨hrun, hmaking⟩ := claim_made h hname hvalid hapart hipidle hwithin'
      (fun jp hjp => (hothers' jp hjp).trans (hothers jp hjp)) (hdisk'.trans hdisk)
      (hsame.1.trans hipdev) (hsame.2.trans hipno) hread hne rfl (freshInode mode)
    show Meets _ (PathCalls.ilock p _ ip >>= _) _
    unfold PathCalls.ilock
    dsimp only
    rw [hlock]
    dsimp only
    rw [if_neg hfree, ok_bind]
    show Meets _ (PathCalls.iupdate (setRecord (claimed s t' _ dev iNo) ip (freshInode mode)) ip
      >>= _) _
    rw [hrun]
    exact .ok ⟨ip, rfl, hmaking, rfl⟩

/-! ## The `fail:` exit -/

/-- The new inode is empty, or has one block. -/
def OneBlock (w : World) (dev iNo : Nat) (d : DInode) : Prop :=
  d.iSize = BLKSIZE ∧ d.iBlocks = 16 ∧ (w.iBlock dev iNo 0).toNat ≠ 0

/-- The bitmaps when its blocks have been given back. -/
def givenBack (c : Setting) (w : World) (dev iNo : Nat) (d : DInode) : Bitmaps :=
  if d.iSize = 0 then w.bitmaps else BlockBitmap.bfree c.geo w.bitmaps (w.iBlock dev iNo 0).toNat

/-- A file of one block is taken apart.  The last assertion of `itruncate` holds by accident: there
    are 8 sectors left on the count. -/
theorem shrink_one (geo : Geometry) {f : Bmap.File} (hb : (f.ino.iBlock 0).toNat ≠ 0)
    (hblocks : f.ino.iBlocks = 16) : Bmap.shrink geo ⟨f, UInt32.ofNat BLKSIZE⟩ 0
      = some ⟨Bmap.releaseSlot geo f 0, UInt32.ofNat 0⟩ := by
  have hlow : Bmap.lowerBound 0 = 0 := by decide
  have hsize : (UInt32.ofNat BLKSIZE).toNat = BLKSIZE := by decide
  have hunmap : Bmap.bunmap geo f ((BLKSIZE - 1) / BlockBitmap.BLKSIZE)
      = some (Bmap.releaseSlot geo f 0) := by
    have hzero : (BLKSIZE - 1) / BlockBitmap.BLKSIZE = 0 := by decide
    rw [hzero, Bmap.bunmap, if_pos (by decide), if_pos (by decide), if_pos hb]
  have hloop : Bmap.shrinkLoop geo 0 BLKSIZE f = some (Bmap.releaseSlot geo f 0) := by
    rw [Bmap.shrinkLoop, if_pos (by decide), hunmap]
    dsimp only
    rw [Bmap.shrinkLoop, if_neg (by decide)]
  have hleft : (Bmap.releaseSlot geo f 0).ino.iBlocks.toNat = 8 := by
    show (f.ino.iBlocks - UInt32.ofNat _).toNat = 8
    rw [hblocks]
    decide
  rw [Bmap.shrink, hlow, hsize, hloop]
  dsimp only
  rw [hleft, if_neg (by decide)]

/-- What `itruncate` leaves of the new inode. -/
theorem itruncate_child (h : Making p s₀ dev dpNo iNo dp ip more used d w.fs)
    (hsmall : d.iSize = 0 ∨ OneBlock w dev iNo d) :
    ∃ w' d', itruncate p c w ip = .ok w' ∧ Making p s₀ dev dpNo iNo dp ip more used d' w'.fs ∧
      d'.iLinksCount = d.iLinksCount ∧ w'.fs.data = w.fs.data ∧
      w'.bitmaps = givenBack c w dev iNo d ∧ w'.bgUsedDirsCount = w.bgUsedDirsCount := by
  have hmine : ¬ w.fs.iMtx ip ≠ some p := by
    rw [h.mutexes, not_not]
    exact update_self ..
  have hrecord : (w.fs.inodes.mInodes ip).dInodeCtnt = d := h.childRecord
  have hdev := h.child.1
  have hno := h.child.2
  unfold itruncate givenBack
  dsimp only
  rw [if_neg hmine, hrecord, hdev, hno]
  rcases hsmall with hzero | ⟨hsize, hblocks, hb⟩
  · rw [if_pos hzero, if_pos hzero]
    exact ⟨w, d, rfl, h, rfl, rfl, rfl, rfl⟩
  · have hne : d.iSize ≠ 0 := by
      rw [hsize]
      decide
    have hfile : (w.file dev iNo d).ino.iBlocks = 16 := by
      show UInt32.ofNat d.iBlocks = 16
      rw [hblocks]
      rfl
    rw [if_neg hne, if_neg hne, hsize, shrink_one c.geo hb hfile]
    dsimp only
    generalize hleft : (Bmap.releaseSlot c.geo (w.file dev iNo d) 0).ino.iBlocks.toNat = left
    obtain ⟨hup, hmaking⟩ := h.rewrite { d with iSize := 0, iBlocks := left }
    rw [hup]
    exact ⟨_, _, rfl, hmaking, rfl, rfl, rfl, rfl⟩

/-- A reference is given back that is not the last one to an inode without links. -/
theorem iunlockput_keeps (hused : 1 ≤ (w.fs.inodes.mInodes ip).iCount)
    (hmine : w.fs.iMtx ip = some p) (hkeep : ¬ ((w.fs.inodes.mInodes ip).iCount = 1 ∧
      (w.fs.inodes.mInodes ip).iValid ∧ (w.fs.inodes.mInodes ip).dInodeCtnt.iLinksCount = 0)) :
    iunlockput p c w ip = .ok { w with fs := { w.fs with
      inodes := Inode.iput w.fs.inodes ip
      iMtx := update w.fs.iMtx ip none } } := by
  have hunlock : Inode.iunlock w.fs.inodes ip = some w.fs.inodes := if_pos hused
  unfold iunlockput PathCalls.iunlock
  rw [hunlock]
  dsimp only
  rw [if_pos hmine, ok_bind, iput]
  dsimp only
  rw [if_neg hkeep]

/-- The new inode is unlocked and locked again, and its bit cleared. -/
theorem Making.relock (h : Making p s₀ dev dpNo iNo dp ip more used d s)
    (used' : Nat → Nat → Bool) : Making p s₀ dev dpNo iNo dp ip more used' d { s with
      iMtx := update (update s.iMtx ip none) ip (some p)
      used := used' } := by
  refine ⟨h.within, h.loaded, h.disk, rfl, ?_, h.parent, h.parentValid, h.child, h.childValid,
    h.childRecord, h.apart, h.idle⟩
  show update (update s.iMtx ip none) ip (some p) = _
  rw [h.mutexes, update_idem, update_idem]

/-- The slots that have been read have what is on disk. -/
def Loaded (t : InodeTable) : Prop :=
  ∀ jp, (t.mInodes jp).iDev ≠ 0 → (t.mInodes jp).iValid = true →
    (t.mInodes jp).dInodeCtnt = t.diskInode (t.mInodes jp).iDev (t.mInodes jp).iNo

theorem iput_loaded {t : InodeTable} (h : Loaded t) (ip : Slot) : Loaded (Inode.iput t ip) := by
  intro jp hdev hvalid
  unfold Inode.iput at hdev hvalid ⊢
  by_cases hjp : jp = ip
  · subst hjp
    rw [InodeTable.set_self] at hdev hvalid ⊢
    by_cases hfree : (t.mInodes jp).iCount = 1 ∧ (t.mInodes jp).iValid ∧
        (t.mInodes jp).dInodeCtnt.iLinksCount = 0
    · rw [Inode.iputFree, if_pos hfree] at hvalid
      cases hvalid
    · rw [Inode.iputFree, if_neg hfree] at hdev hvalid ⊢
      exact h jp hdev hvalid
  · rw [InodeTable.set_of_ne _ _ hjp] at hdev hvalid ⊢
    exact h jp hdev hvalid

/-- The new inode is gone, and the parent is still locked. -/
structure Dropped (p : Pid) (c : Setting) (s₀ : Fs) (dev dpNo iNo : Nat) (dp : Slot)
    (used : Nat → Nat → Bool) (s : Fs) : Prop where
  within : Within s₀.inodes s.inodes [dp] none
  loaded : Loaded s.inodes
  disk : ∀ a b, ¬ (a = dev ∧ b = iNo) → s.inodes.diskInode a b = s₀.inodes.diskInode a b
  marks : s.used = setFile used dev (PathCalls.ifreeNo c.calls iNo) false
  mutexes : s.iMtx = holding p (some dp)
  parent : Named s dp dev dpNo
  parentRecord : record s dp = s₀.inodes.diskInode dev dpNo

/-- What is left of a world by a call that has failed. -/
structure Leaves (w w' : World) (bitmaps : Bitmaps) : Prop where
  data : w'.fs.data = w.fs.data
  bitmaps : w'.bitmaps = bitmaps
  dirs : w'.bgUsedDirsCount = w.bgUsedDirsCount

theorem drop_child (h : Making p s₀ dev dpNo iNo dp ip [] used d w.fs) (hroom : Room s₀.inodes)
    (hlinks : d.iLinksCount = 0) (hsmall : d.iSize = 0 ∨ OneBlock w dev iNo d) :
    ∃ w', iunlockput p c w ip = .ok w' ∧ Dropped p c s₀ dev dpNo iNo dp used w'.fs ∧
      Leaves w w' (givenBack c w dev iNo d) := by
  have hused := h.within.in_use (List.mem_cons_self (a := ip))
  have hunlock : Inode.iunlock w.fs.inodes ip = some w.fs.inodes := if_pos hused
  have hmine : w.fs.iMtx ip = some p := by
    rw [h.mutexes]
    exact update_self ..
  have hcount : (w.fs.inodes.mInodes ip).iCount = 1 := by
    rw [h.within.count ip, h.idle, List.count_cons_self, List.count_singleton, Nat.zero_add]
    rw [if_neg (by simpa using Ne.symm h.ne)]
  have hfree : (w.fs.inodes.mInodes ip).iCount = 1 ∧ (w.fs.inodes.mInodes ip).iValid ∧
      (w.fs.inodes.mInodes ip).dInodeCtnt.iLinksCount = 0 :=
    ⟨hcount, h.childValid, (congrArg DInode.iLinksCount h.childRecord).trans hlinks⟩
  have hopen : ¬ (update w.fs.iMtx ip none ip).isSome := by
    rw [update_self]
    exact nofun
  unfold iunlockput PathCalls.iunlock
  rw [hunlock]
  dsimp only
  rw [if_pos hmine, ok_bind, iput]
  dsimp only
  rw [if_pos hfree, if_neg hopen, h.child.1, h.child.2]
  have hrelock := h.relock (setFile w.fs.used dev (PathCalls.ifreeNo c.calls iNo) false)
  obtain ⟨w₃, d₃, hrun, h₃, -, hdata, hbits, hdirs⟩ := itruncate_child (c := c)
    (w := { w with fs := { w.fs with
      iMtx := update (update w.fs.iMtx ip none) ip (some p)
      used := setFile w.fs.used dev (PathCalls.ifreeNo c.calls iNo) false } }) hrelock hsmall
  have hother : holding p (some dp) ip = none := by
    rw [holding, update_of_ne h.ne]
  have hparent : (Inode.iput w₃.fs.inodes ip).mInodes dp = w₃.fs.inodes.mInodes dp :=
    InodeTable.set_of_ne _ _ (Ne.symm h.ne)
  unfold PathCalls.ifree
  dsimp only
  rw [hrun]
  refine ⟨_, rfl, ⟨h₃.within.iput hroom (Nat.le_add_left 1 3), iput_loaded h₃.loaded ip, h₃.disk,
    ?_, ?_, ?_, ?_⟩,
    ⟨hdata, hbits, hdirs⟩⟩
  · rw [← h.marks]
    exact h₃.marks
  · show update w₃.fs.iMtx ip none = _
    rw [h₃.mutexes, update_idem, ← hother, update_eq_self]
  · show ((Inode.iput w₃.fs.inodes ip).mInodes dp).iDev = _ ∧
      ((Inode.iput w₃.fs.inodes ip).mInodes dp).iNo = _
    rw [hparent]
    exact h₃.parent
  · show ((Inode.iput w₃.fs.inodes ip).mInodes dp).dInodeCtnt = _
    have hdev : (w₃.fs.inodes.mInodes dp).iDev ≠ 0 := by
      rw [h₃.parent.1]
      exact h₃.device
    have hload := h₃.loaded dp hdev h₃.parentValid
    rw [h₃.parent.1, h₃.parent.2, h₃.disk dev dpNo fun hand => h₃.apart hand.2] at hload
    rw [hparent]
    exact hload

/-- Somebody refers to the inode, or it has links. -/
def Linked (s : Fs) (dev iNo : Nat) : Prop :=
  (∃ jp, 1 ≤ (s.inodes.mInodes jp).iCount ∧ Named s jp dev iNo) ∨
    (s.inodes.diskInode dev iNo).iLinksCount ≠ 0

/-- All references have been given back, and the new inode is gone. -/
structure Ended (c : Setting) (s₀ : Fs) (dev iNo : Nat) (used : Nat → Nat → Bool) (s : Fs) :
    Prop where
  within : Within s₀.inodes s.inodes [] none
  loaded : Loaded s.inodes
  disk : ∀ a b, ¬ (a = dev ∧ b = iNo) → s.inodes.diskInode a b = s₀.inodes.diskInode a b
  marks : s.used = setFile used dev (PathCalls.ifreeNo c.calls iNo) false
  mutexes : s.iMtx = fun _ => none

/-- Dropping a reference of the call leaves an inode that is linked. -/
theorem keeps_linked (hwithin : Within s₀.inodes s.inodes [dp] none) (hname : Named s dp dev dpNo)
    (hrecord : record s dp = s₀.inodes.diskInode dev dpNo) (hlinked : Linked s₀ dev dpNo) :
    ¬ ((s.inodes.mInodes dp).iCount = 1 ∧ (s.inodes.mInodes dp).iValid ∧
      (s.inodes.mInodes dp).dInodeCtnt.iLinksCount = 0) := by
  rintro ⟨hone, -, hzero⟩
  have hdev := hwithin.disk dp List.mem_cons_self
  rcases hlinked with ⟨jp, hused, hjname⟩ | hlinks
  · have hnames := hwithin.names jp hused
    have hjp : dp = jp := hwithin.sound.unique dp jp hdev
      ⟨(hnames.1.trans hjname.1).trans hname.1.symm, (hnames.2.trans hjname.2).trans hname.2.symm⟩
    have hcount := hwithin.count dp
    rw [hone, List.count_singleton_self] at hcount
    rw [← hjp] at hused
    omega
  · exact hlinks ((congrArg DInode.iLinksCount hrecord).symm.trans hzero)

/-- The `fail:` exit gives everything back but the bits of the blocks. -/
theorem createFail_ends (h : Making p s₀ dev dpNo iNo dp ip [] used d w.fs) (hroom : Room s₀.inodes)
    (hlinked : Linked s₀ dev dpNo) (hsmall : d.iSize = 0 ∨ OneBlock w dev iNo d) :
    ∃ w', createFail p c w ip dp = .ok (w', none) ∧ Ended c s₀ dev iNo used w'.fs ∧
      Leaves w w' (givenBack c w dev iNo d) := by
  obtain ⟨hup, hmaking⟩ := h.rewrite { d with iLinksCount := 0 }
  obtain ⟨w₁, hchild, hdropped, hleaves⟩ := drop_child (c := c)
    (w := { w with fs := { w.fs with
      inodes := written w.fs.inodes ip { d with iLinksCount := 0 } } })
    hmaking hroom rfl hsmall
  have hmine : w₁.fs.iMtx dp = some p := by
    rw [hdropped.mutexes, holding, update_self]
  have hparent := iunlockput_keeps (c := c) (hdropped.within.in_use List.mem_cons_self) hmine
    (keeps_linked hdropped.within hdropped.parent hdropped.parentRecord hlinked)
  refine ⟨{ w₁ with fs := { w₁.fs with
    inodes := Inode.iput w₁.fs.inodes dp
    iMtx := update w₁.fs.iMtx dp none } }, ?_,
    ⟨hdropped.within.iput hroom (Nat.zero_le 4), iput_loaded hdropped.loaded dp, hdropped.disk,
      hdropped.marks, ?_⟩,
    ⟨hleaves.data, hleaves.bitmaps, hleaves.dirs⟩⟩
  · unfold createFail
    rw [h.childRecord, hup, ok_bind, hchild, ok_bind, hparent]
    rfl
  · show update w₁.fs.iMtx dp none = _
    rw [hdropped.mutexes]
    exact PathCalls.update_holding p dp

/-! ## The first block of a directory -/

/-- The bitmaps when a block has been taken for the new inode. -/
def taken (c : Setting) (w : World) (iNo : Nat) : Bitmaps :=
  (BlockBitmap.balloc c.geo w.bitmaps (iBlockGroup c iNo)).1

/-- The number of that block, as `bmap` has it. -/
def firstBlock (c : Setting) (w : World) (iNo : Nat) : Nat :=
  Bmap.u64 (BlockBitmap.balloc c.geo w.bitmaps (iBlockGroup c iNo)).2

/-- The first block of an inode without blocks. -/
theorem bmap_blank (hblank : w.iBlock dev iNo 0 = 0) :
    ∃ f, Bmap.bmap (Bmap.ballocFor c.geo (iBlockGroup c iNo)) (w.file dev iNo d) 0
        = some (f, firstBlock c w iNo) ∧ f.bitmaps = taken c w iNo ∧
      (firstBlock c w iNo ≠ 0 → f.ino.iBlock 0 = UInt32.ofNat (firstBlock c w iNo)) := by
  have hzero : ((w.file dev iNo d).ino.iBlock 0).toNat = 0 := by
    show (w.iBlock dev iNo 0).toNat = 0
    rw [hblank]
    rfl
  rw [Bmap.bmap, if_pos (by decide), if_pos (by decide), Bmap.bmapSlot]
  dsimp only
  rw [if_pos hzero]
  show ∃ f, some (if firstBlock c w iNo = 0
    then ({ w.file dev iNo d with bitmaps := taken c w iNo }, 0)
    else ({ w.file dev iNo d with bitmaps := taken c w iNo }.setSlot 0 (firstBlock c w iNo),
      firstBlock c w iNo)) = some (f, firstBlock c w iNo) ∧ _
  by_cases hnone : firstBlock c w iNo = 0
  · rw [if_pos hnone]
    exact ⟨_, by rw [hnone], rfl, fun hne => absurd hnone hne⟩
  · rw [if_neg hnone]
    refine ⟨_, rfl, rfl, fun _ => ?_⟩
    show update (w.iBlock dev iNo) 0 (UInt32.ofNat (firstBlock c w iNo)) 0 = _
    rw [update_self]

/-- The device delivers the first block of the new inode. -/
def Delivered (c : Setting) (w : World) (iNo : Nat) (served : Nat → Bool) : Prop :=
  firstBlock c w iNo ≠ 0 ∧ served (firstBlock c w iNo % 2 ^ 32) = true

/-- The first write into the new inode takes a block, whether or not it can be written. -/
theorem writei_blank (served : Nat → Bool) (src : Bytes)
    (h : Making p s₀ dev dpNo iNo dp ip more used d w.fs) (hsize : d.iSize = 0)
    (hblank : w.iBlock dev iNo 0 = 0) :
    (Delivered c w iNo served →
      ∃ w', writei c w ip (some served) src 0 BLKSIZE = .ok (w', BLKSIZE) ∧
      Making p s₀ dev dpNo iNo dp ip more used (grownTo d BLKSIZE) w'.fs ∧
      w'.bitmaps = taken c w iNo ∧ w'.iBlock dev iNo 0 = UInt32.ofNat (firstBlock c w iNo) ∧
      w'.fs.data = setFile w.fs.data dev iNo (splice (w.fs.data dev iNo) 0 BLKSIZE src) ∧
      w'.bgUsedDirsCount = w.bgUsedDirsCount) ∧
    (¬ Delivered c w iNo served →
      ∃ w', writei c w ip (some served) src 0 BLKSIZE = .ok (w', - DirLink.EIO) ∧
        Making p s₀ dev dpNo iNo dp ip more used d w'.fs ∧ Leaves w w' (taken c w iNo)) := by
  have hrecord : (w.fs.inodes.mInodes ip).dInodeCtnt = d := h.childRecord
  have hdev := h.child.1
  have hno := h.child.2
  have hrange : ¬ (0 > d.iSize ∨ (0 + BLKSIZE) % 2 ^ 64 < 0) := by omega
  obtain ⟨f, hmap, hbits, hslot⟩ := bmap_blank (c := c) (d := d) hblank
  have hloop := writeiLoop_piece served src (show 0 < BLKSIZE by decide)
    (show 0 % BLKSIZE + BLKSIZE ≤ BLKSIZE by decide) hmap
  unfold writei
  dsimp only
  rw [hrecord, hdev, hno, if_neg hrange, if_neg (by decide), hloop]
  constructor
  · intro hread
    obtain ⟨hup, hmaking⟩ := h.rewrite (grownTo d (0 + BLKSIZE))
    have hread' : firstBlock c w iNo ≠ 0 ∧ served (firstBlock c w iNo % 2 ^ 32) = true := hread
    rw [if_pos hread']
    dsimp only
    rw [hup, ok_bind]
    refine ⟨_, rfl, hmaking.withData _, hbits, ?_, rfl, rfl⟩
    rw [← hslot hread.1]
    show setFile w.iBlock dev iNo _ dev iNo 0 = _
    rw [setFile_at]
    rfl
  · intro hread
    have hread' : ¬ (firstBlock c w iNo ≠ 0 ∧ served (firstBlock c w iNo % 2 ^ 32) = true) := hread
    have hsame : grownTo d (0 + 0) = d := by
      rw [grownTo, if_neg (by omega)]
    obtain ⟨hup, hmaking⟩ := h.rewrite d
    rw [if_neg hread']
    dsimp only
    rw [hsame, hup, ok_bind]
    refine ⟨_, rfl, hmaking.withData _, ⟨?_, hbits, rfl⟩⟩
    show setFile w.fs.data dev iNo (splice (w.fs.data dev iNo) 0 0 src) = w.fs.data
    rw [splice_zero, setFile_self rfl]

/-! ## An entry more in a block -/

/-- The call of `writei` gets to its block. -/
def Serves (met : Option (Nat → Bool)) (b : Nat) : Prop :=
  ∃ served, met = some served ∧ served b = true

/-- The block of a file, whatever is written into it. -/
structure Steady (c : Setting) (w : World) (dev iNo : Nat) (d : DInode) (m b : Nat) : Prop where
  pos : b ≠ 0
  small : b < 2 ^ 32
  map : ∀ x, Bmap.bmap (Bmap.ballocFor c.geo (iBlockGroup c iNo))
    ({ w with blocks := update w.blocks b x }.file dev iNo d) m
      = some ({ w with blocks := update w.blocks b x }.file dev iNo d, b)

theorem Steady.here {m b : Nat} (h : Steady c w dev iNo d m b) :
    Bmap.bmap (Bmap.ballocFor c.geo (iBlockGroup c iNo)) (w.file dev iNo d) m
      = some (w.file dev iNo d, b) := by
  have hmap := h.map (w.blocks b)
  rw [update_eq_self] at hmap
  exact hmap

theorem Steady.overwrite {m b off n : Nat} {src : Bytes} (h : Steady c w dev iNo d m b) :
    Steady c (w.overwrite dev iNo b off n src) dev iNo d m b := by
  refine ⟨h.pos, h.small, fun x => ?_⟩
  have hblocks : update (w.overwrite dev iNo b off n src).blocks b x
      = update w.blocks b x := update_idem ..
  rw [hblocks]
  exact h.map x

/-- A slot that has been read. -/
structure Read (s : Fs) (ip : Slot) (dev iNo : Nat) (d : DInode) : Prop where
  name : Named s ip dev iNo
  valid : (s.inodes.mInodes ip).iValid = true
  record : record s ip = d
  disk : s.inodes.diskInode dev iNo = d

/-- `writei` gets to a block that is not delivered. -/
theorem writei_refused {served : Nat → Bool} {src : Bytes} {off n b : Nat}
    (h : Read w.fs ip dev iNo d) (hn : 0 < n) (hoff : off ≤ d.iSize) (hlong : n ≤ 2 ^ 32)
    (hsmall : d.iSize < 2 ^ 32) (hsteady : Steady c w dev iNo d (off / BLKSIZE % 2 ^ 32) b)
    (hno : ¬ served b = true) :
    writei c w ip (some served) src off n = .ok (w, - DirLink.EIO) := by
  have hmax : (2 : Nat) ^ 33 ≤ Bmap.EXT2_MAX_FBLKS * BLKSIZE := by decide
  have hup := iupdate_loaded h.name h.valid (h.record.trans h.disk.symm)
  have hrecord : (w.fs.inodes.mInodes ip).dInodeCtnt = d := h.record
  have hsame : grownTo d (off + 0) = d := by
    rw [grownTo, if_neg (by omega)]
  have hmod : b % 2 ^ 32 = b := Nat.mod_eq_of_lt hsteady.small
  have hloop : Bmap.writeiLoop (Bmap.ballocFor c.geo (iBlockGroup c iNo)) served src off n 0
      (w.file dev iNo d) = some (w.file dev iNo d, 0) := by
    have hmap : Bmap.bmap (Bmap.ballocFor c.geo (iBlockGroup c iNo)) (w.file dev iNo d)
        (off / BlockBitmap.BLKSIZE % 2 ^ 32) = some (w.file dev iNo d, b) := hsteady.here
    rw [Bmap.writeiLoop, if_pos hn, hmap]
    dsimp only
    rw [if_neg hsteady.pos, hmod, if_neg hno]
  rw [h.record] at hup
  unfold writei
  dsimp only
  rw [hrecord, h.name.1, h.name.2, if_neg (by omega), if_neg (by omega), hloop]
  dsimp only
  rw [hsame, hup, ok_bind, splice_zero, setFile_self rfl, storeFile_file]
  rfl

/-- `writei` that does not get to its block. -/
theorem writei_stopped {met : Option (Nat → Bool)} (src : Bytes) {off n b : Nat}
    (h : Read w.fs ip dev iNo d) (hn : 0 < n) (hoff : off ≤ d.iSize) (hlong : n ≤ 2 ^ 32)
    (hsmall : d.iSize < 2 ^ 32) (hsteady : Steady c w dev iNo d (off / BLKSIZE % 2 ^ 32) b)
    (hno : ¬ Serves met b) : ∃ e < 0, writei c w ip met src off n = .ok (w, e) := by
  cases met with
  | none => exact ⟨-EBUSY, by decide, rfl⟩
  | some served =>
    have hread : ¬ served b = true := fun hread => hno ⟨served, rfl, hread⟩
    exact ⟨- DirLink.EIO, by decide, writei_refused h hn hoff hlong hsmall hsteady hread⟩

/-- `writei` within a block that is there and delivered. -/
theorem writei_served {met : Option (Nat → Bool)} (src : Bytes) {off n b : Nat}
    (h : Read w.fs ip dev iNo d) (hn : 0 < n) (hin : off % BLKSIZE + n ≤ BLKSIZE)
    (hend : off + n ≤ d.iSize) (hsmall : d.iSize < 2 ^ 32)
    (hsteady : Steady c w dev iNo d (off / BLKSIZE % 2 ^ 32) b) (hyes : Serves met b) :
    writei c w ip met src off n = .ok (w.overwrite dev iNo b off n src, (n : Int)) := by
  have hmod : b % 2 ^ 32 = b := Nat.mod_eq_of_lt hsteady.small
  have hmap := hsteady.here
  have hload : record w.fs ip = w.fs.inodes.diskInode dev iNo := h.record.trans h.disk.symm
  rw [← h.record] at hend hsmall hmap
  obtain ⟨served, rfl, hread⟩ := hyes
  rw [writei_inside h.name h.valid hload hn hin hend hsmall hmap hsteady.pos, hmod, if_pos hread]

/-- The entry that `insertDe` writes first. -/
def behind (de1 de2 : Bytes) : Bytes :=
  setRecLen de2 (deRecLen de1 + 2 ^ 64 - alignaddrUp (sizeofDe + deNameLen de1) 4)

section Insert

variable {met : Meeting} {off b : Nat} {de1 de2 : Bytes}

/-- The room that an entry needs. -/
def deLen (de : Bytes) : Nat := alignaddrUp (sizeofDe + deNameLen de) 4

theorem deLen_bounds (de : Bytes) : 0 < deLen de ∧ deLen de ≤ 2 ^ 17 := by
  have hlt : deNameLen de < 2 ^ 16 := getLE_lt de 6 2
  have hde : sizeofDe = 8 := rfl
  unfold deLen
  rw [alignaddrUp_four]
  omega

theorem insertDe_eq (c : Setting) (w : World) (dp : Slot) (met : Meeting) (off : Nat)
    (de1 de2 : Bytes) : insertDe c w dp met off de1 de2 = do
      let (w, res) ← writei c w dp met.first (behind de1 de2) (off + deLen de1) (deLen de2)
      if res ≠ deLen de2 then return (w, -1)
      else
        let (w, res) ← writei c w dp met.second (setRecLen de1 (deLen de1)) off (deLen de1)
        return (w, if res ≠ deLen de1 then -1 else 0) := rfl

/-- The first write does not get to its block. -/
theorem insertDe_refused (h : Read w.fs ip dev iNo d) (hoff : off + deLen de1 ≤ d.iSize)
    (hsmall : d.iSize < 2 ^ 32)
    (hsteady : Steady c w dev iNo d ((off + deLen de1) / BLKSIZE % 2 ^ 32) b)
    (hno : ¬ Serves met.first b) : insertDe c w ip met off de1 de2 = .ok (w, -1) := by
  have hbounds := deLen_bounds de2
  obtain ⟨e, he, hrun⟩ := writei_stopped (behind de1 de2) h hbounds.1 hoff
    (by omega) hsmall hsteady hno
  rw [insertDe_eq, hrun, ok_bind]
  dsimp only
  rw [if_pos (by omega)]
  rfl

/-- The writes are both in one block, and the first one is done. -/
theorem insertDe_first (h : Read w.fs ip dev iNo d)
    (hin : off % BLKSIZE + deLen de1 + deLen de2 ≤ BLKSIZE)
    (hend : off + deLen de1 + deLen de2 ≤ d.iSize) (hsmall : d.iSize < 2 ^ 32)
    (hsteady : Steady c w dev iNo d (off / BLKSIZE % 2 ^ 32) b) (hyes : Serves met.first b) :
    writei c w ip met.first (behind de1 de2) (off + deLen de1) (deLen de2)
      = .ok (w.overwrite dev iNo b (off + deLen de1) (deLen de2) (behind de1 de2),
        (deLen de2 : Int)) := by
  have hblk : BLKSIZE = 4096 := rfl
  have hbounds := deLen_bounds de2
  rw [hblk] at hin hsteady
  have hblock : (off + deLen de1) / 4096 = off / 4096 := by omega
  rw [← hblock] at hsteady
  exact writei_served (behind de1 de2) h hbounds.1 (by rw [hblk]; omega) hend hsmall hsteady hyes

theorem overwrite_read (h : Read w.fs ip dev iNo d) (b x n : Nat) (src : Bytes) :
    Read (w.overwrite dev iNo b x n src).fs ip dev iNo d := ⟨h.name, h.valid, h.record, h.disk⟩

/-- The second write does not get to the block. -/
theorem insertDe_half (h : Read w.fs ip dev iNo d)
    (hin : off % BLKSIZE + deLen de1 + deLen de2 ≤ BLKSIZE)
    (hend : off + deLen de1 + deLen de2 ≤ d.iSize) (hsmall : d.iSize < 2 ^ 32)
    (hsteady : Steady c w dev iNo d (off / BLKSIZE % 2 ^ 32) b) (hyes : Serves met.first b)
    (hno : ¬ Serves met.second b) : insertDe c w ip met off de1 de2
      = .ok (w.overwrite dev iNo b (off + deLen de1) (deLen de2) (behind de1 de2), -1) := by
  have hbounds := deLen_bounds de1
  obtain ⟨e, he, hrun⟩ := writei_stopped (setRecLen de1 (deLen de1)) (overwrite_read h b _ _ _)
    hbounds.1 (show off ≤ d.iSize by omega) (by omega) hsmall hsteady.overwrite hno
  rw [insertDe_eq, insertDe_first h hin hend hsmall hsteady hyes, ok_bind]
  dsimp only
  rw [if_neg (not_not_intro rfl), hrun, ok_bind]
  dsimp only
  rw [if_pos (by omega)]
  rfl

/-- Both writes are done. -/
theorem insertDe_done (h : Read w.fs ip dev iNo d)
    (hin : off % BLKSIZE + deLen de1 + deLen de2 ≤ BLKSIZE)
    (hend : off + deLen de1 + deLen de2 ≤ d.iSize) (hsmall : d.iSize < 2 ^ 32)
    (hsteady : Steady c w dev iNo d (off / BLKSIZE % 2 ^ 32) b) (hyes : Serves met.first b)
    (hyes' : Serves met.second b) : insertDe c w ip met off de1 de2
      = .ok ((w.overwrite dev iNo b (off + deLen de1) (deLen de2) (behind de1 de2)).overwrite
        dev iNo b off (deLen de1) (setRecLen de1 (deLen de1)), 0) := by
  have hbounds := deLen_bounds de1
  have hrun := writei_served (setRecLen de1 (deLen de1))
    (overwrite_read h b (off + deLen de1) (deLen de2) (behind de1 de2)) hbounds.1
    (show off % BLKSIZE + _ ≤ _ by omega) (by omega) hsmall hsteady.overwrite hyes'
  rw [insertDe_eq, insertDe_first h hin hend hsmall hsteady hyes, ok_bind]
  dsimp only
  rw [if_neg (not_not_intro rfl), hrun, ok_bind]
  dsimp only
  rw [if_neg (not_not_intro rfl)]
  rfl

end Insert

end Uniks.Creation
