/-
  The calls of `dirlink` that `create` makes.

  The first one takes a block for the new directory, the second one finds room behind the entry `.`,
  unless the byte behind that name makes it pass for `..`, and the third one is made on a directory
  that may be full, may have the name under another reading of the bytes, or may have a gap that is
  four bytes short (`Spills`).  A call that fails leaves the parent's entries as they were; what it
  may leave is a block that nothing counts.
-/
import Uniks.CreateSteps

namespace Uniks.Creation

open Uniks.Inode (DInode InodeTable MInode Slot FileKind Within Sound Room freshInode isDir SameName
  EXT2_ROOT_INO sbDev u16)
open Uniks.PathCalls (Stop Fs Str Lead record setRecord setFile setFile_self grownTo dirOf nameOf
  Named Amid AtHome Lacks diskLookup pathLeads startOf holding)
open Uniks.Sysfile (Pid)
open Uniks.BlockBitmap (Bitmaps Geometry Full InReach)
open Uniks.ByteMem Uniks.DirLink Uniks.Hoare

variable {c : Setting} {p : Pid} {w w' : World} {s₀ s s' : Fs} {dev dpNo iNo : Nat}
  {ip dp jp : Slot} {more : List Slot} {used : Nat → Nat → Bool} {d d' : DInode}

/-! ## The blocks of a directory -/

theorem steady_mapped {m b : Nat} (hwf : Bmap.WellFormed c.geo (w.file dev iNo d))
    (hm : m < Bmap.EXT2_TIND_LIMIT) (hb : Bmap.mapped (w.file dev iNo d) m = some (some b)) :
    Steady c w dev iNo d m b := by
  refine ⟨EntryTree.walk_ne_zero hb, Bmap.walk_small hb b rfl, fun x => ?_⟩
  have hb' := (Bmap.update_walk hwf hm hb x (Bmap.path_valid hm)).trans hb
  rw [Bmap.bmap_eq_descend hm]
  exact congrArg some (Bmap.descend_walk _ Bmap.small_root hb')

theorem steady_direct {b : Nat} (hb : (w.iBlock dev iNo 0).toNat = b) (hne : b ≠ 0) :
    Steady c w dev iNo d 0 b := by
  subst hb
  refine ⟨hne, UInt32.toNat_lt _, fun x => ?_⟩
  rw [Bmap.bmap, if_pos (by decide), if_pos (by decide)]
  exact congrArg some (if_neg hne)

/-! ## The entry for the new directory itself -/

/-- The first entry of an empty directory. -/
theorem dirlink_empty (hrecord : record w.fs ip = d) (hdir : isDir d.iMode = true)
    (hsize : d.iSize = 0) {name : Str} (hshort : name.length ≤ PathCalls.EXT2_NAME_LEN) (n : Nat)
    (met : Meeting) : dirlink p c w ip name n met = do
      let (w, res) ← writei c w ip met.first
        (setRecLen (fillDe met.stack.newDe (nameOf name) n) BLKSIZE) 0 BLKSIZE
      return (w, if res ≠ BLKSIZE then -1 else 0) := by
  have hrecord : (w.fs.inodes.mInodes ip).dInodeCtnt = d := hrecord
  have hzero : ∀ data, (dirOf d data).iSize = 0 := by
    intro data
    show d.iSize % 2 ^ 32 = 0
    rw [hsize]
    rfl
  have hnone : ∀ data tmpDe, PathCalls.lookup d data name tmpDe = some none := by
    intro data tmpDe
    have hshort' : (nameOf name).chars.length ≤ EXT2_NAME_LEN :=
      Nat.le_trans (List.takeWhile_prefix _).length_le hshort
    rw [PathCalls.lookup, DirLink.dirlookup, if_pos hshort', dirlookupLoop, hzero,
      if_neg (Nat.lt_irrefl 0)]
  unfold dirlink PathCalls.dirlookup
  dsimp only
  rw [hrecord, if_pos ⟨hshort, hdir⟩, hnone, ok_bind]
  dsimp only
  rw [roomLoop, hrecord, hzero, if_neg (Nat.lt_irrefl 0)]
  dsimp only
  rw [if_pos rfl]

/-- The block of the new directory has been written. -/
def DotWritten (c : Setting) (w : World) (iNo : Nat) : Prop :=
  ∃ served, c.dot.first = some served ∧ Delivered c w iNo served

/-- The bitmaps after a first write that has failed. -/
def afterDot (c : Setting) (w : World) (iNo : Nat) : Bitmaps :=
  match c.dot.first with
  | none => w.bitmaps
  | some _ => taken c w iNo

/-- The new directory with an entry for itself. -/
structure Begun (c : Setting) (w w' : World) (dev iNo : Nat) : Prop where
  bitmaps : w'.bitmaps = taken c w iNo
  block : w'.iBlock dev iNo 0 = UInt32.ofNat (firstBlock c w iNo)
  dirs : w'.bgUsedDirsCount = w.bgUsedDirsCount
  entry : ∀ k < BLKSIZE, w'.fs.data dev iNo k
    = setRecLen (fillDe c.dot.stack.newDe (nameOf PathCalls.dot) iNo) BLKSIZE k
  others : ∀ a b, ¬ (a = dev ∧ b = iNo) → w'.fs.data a b = w.fs.data a b

theorem dot_written (h : Making p s₀ dev dpNo iNo dp ip more used d w.fs)
    (hdir : isDir d.iMode = true) (hsize : d.iSize = 0) (hblank : w.iBlock dev iNo 0 = 0)
    (hw : DotWritten c w iNo) :
    ∃ w', dirlink p c w ip PathCalls.dot iNo c.dot = .ok (w', 0) ∧
      Making p s₀ dev dpNo iNo dp ip more used (grownTo d BLKSIZE) w'.fs ∧
      Begun c w w' dev iNo := by
  obtain ⟨served, hmet, hread⟩ := hw
  have hwrite := writei_blank (c := c) served
    (setRecLen (fillDe c.dot.stack.newDe (nameOf PathCalls.dot) iNo) BLKSIZE) h hsize hblank
  obtain ⟨w', hrun, hmaking, hbits, hblock, hdata, hdirs⟩ := hwrite.1 hread
  refine ⟨w', ?_, hmaking, hbits, hblock, hdirs, fun k hk => ?_, fun a b hab => ?_⟩
  · rw [dirlink_empty h.childRecord hdir hsize (by decide), hmet, hrun]
    rfl
  · rw [hdata, setFile_at, splice_of_mem (Nat.zero_le k) (by omega), Nat.sub_zero]
  · rw [hdata, setFile_off hab]

theorem dot_failed (h : Making p s₀ dev dpNo iNo dp ip more used d w.fs)
    (hdir : isDir d.iMode = true) (hsize : d.iSize = 0) (hblank : w.iBlock dev iNo 0 = 0)
    (hw : ¬ DotWritten c w iNo) :
    ∃ w', dirlink p c w ip PathCalls.dot iNo c.dot = .ok (w', -1) ∧
      Making p s₀ dev dpNo iNo dp ip more used d w'.fs ∧ Leaves w w' (afterDot c w iNo) := by
  rw [dirlink_empty h.childRecord hdir hsize (by decide)]
  unfold afterDot
  cases hmet : c.dot.first with
  | none => exact ⟨w, rfl, h, rfl, rfl, rfl⟩
  | some served =>
    have hread : ¬ Delivered c w iNo served := fun hread => hw ⟨served, hmet, hread⟩
    have hwrite := writei_blank (c := c) served
      (setRecLen (fillDe c.dot.stack.newDe (nameOf PathCalls.dot) iNo) BLKSIZE) h hsize hblank
    obtain ⟨w', hrun, hmaking, hleaves⟩ := hwrite.2 hread
    rw [hrun]
    exact ⟨w', rfl, hmaking, hleaves⟩

/-! ## Further references -/

/-- One slot is stored, and those of the new inode and of its parent keep what they have. -/
theorem Making.store (h : Making p s₀ dev dpNo iNo dp ip more used d s) {jp : Slot} {m : MInode}
    {more' : List Slot} (hwithin : Within s₀.inodes (s.inodes.set jp m) (ip :: dp :: more') none)
    (hload : m.iDev ≠ 0 → m.iValid = true → m.dInodeCtnt = s.inodes.diskInode m.iDev m.iNo)
    (hkeep : jp = ip ∨ jp = dp → ∃ n, m = { s.inodes.mInodes jp with iCount := n }) :
    Making p s₀ dev dpNo iNo dp ip more' used d { s with inodes := s.inodes.set jp m } := by
  have hslot : ∀ kp, kp = ip ∨ kp = dp →
      ∃ n, (s.inodes.set jp m).mInodes kp = { s.inodes.mInodes kp with iCount := n } := by
    intro kp hkp
    by_cases heq : kp = jp
    · subst heq
      rw [InodeTable.set_self]
      exact hkeep hkp
    · rw [InodeTable.set_of_ne _ _ heq]
      exact ⟨_, rfl⟩
  obtain ⟨n, hchild⟩ := hslot ip (.inl rfl)
  obtain ⟨k, hparent⟩ := hslot dp (.inr rfl)
  refine ⟨hwithin, fun kp => ?_, h.disk, h.marks, h.mutexes, ?_, ?_, ?_, ?_, ?_, h.apart, h.idle⟩
  · show _ → _ → ((s.inodes.set jp m).mInodes kp).dInodeCtnt = _
    by_cases heq : kp = jp
    · rw [heq, InodeTable.set_self]
      exact hload
    · rw [InodeTable.set_of_ne _ _ heq]
      exact h.loaded kp
  · rw [Named, hparent]
    exact h.parent
  · rw [hparent]
    exact h.parentValid
  · rw [Named, hchild]
    exact h.child
  · rw [hchild]
    exact h.childValid
  · show ((s.inodes.set jp m).mInodes ip).dInodeCtnt = d
    rw [hchild]
    exact h.childRecord

/-- `iget` finds a slot, or takes an idle one. -/
theorem Making.get (h : Making p s₀ dev dpNo iNo dp ip [] used d s) (hroom : Room s₀.inodes)
    {n : Nat} {t : InodeTable} {jp : Slot} (hget : Inode.iget s.inodes dev n false = some (t, jp)) :
    Making p s₀ dev dpNo iNo dp ip [jp] used d { s with inodes := t } ∧
      Named { s with inodes := t } jp dev n := by
  have hdev := h.device
  rcases h.within.iget hroom (Nat.le_add_left 2 2) hdev rfl hget with ⟨hwithin, hname⟩
  have hwithin := hwithin.perm
    ((List.Perm.swap ip jp [dp]).trans ((List.Perm.swap dp jp []).cons ip))
  refine ⟨?_, hname⟩
  unfold Inode.iget at hget
  split at hget
  · rename_i kp hmatch
    rcases Prod.mk.inj (Option.some.inj hget) with ⟨rfl, rfl⟩
    exact h.store hwithin (h.loaded kp) fun _ => ⟨_, rfl⟩
  · split at hget
    · rename_i kp hidle
      rcases Prod.mk.inj (Option.some.inj hget) with ⟨rfl, rfl⟩
      refine h.store hwithin (fun _ hvalid => nomatch hvalid) fun hkp => ?_
      have hidle := Inode.firstIdle_some hidle
      rcases hkp with rfl | rfl
      · have hused := h.within.in_use List.mem_cons_self
        omega
      · have hused := h.within.in_use (List.mem_cons_of_mem ip (List.mem_cons_self (a := kp)))
        omega
    · cases hget

/-- The reference is given back, and the inode stays. -/
theorem Making.put (h : Making p s₀ dev dpNo iNo dp ip [jp] used d w.fs) (hroom : Room s₀.inodes)
    {n : Nat} (hname : Named w.fs jp dev n) (hstays : n = iNo ∨ Linked s₀ dev n) :
    ∃ fs, iput p c w jp = .ok { w with fs := fs } ∧
      Making p s₀ dev dpNo iNo dp ip [] used d fs ∧ fs.data = w.fs.data := by
  have hcount := h.within.count jp
  have hjpdev : (w.fs.inodes.mInodes jp).iDev ≠ 0 := hname.1 ▸ h.device
  have hlast : [ip, dp, jp].count jp = [ip, dp].count jp + 1 := by
    show ([ip, dp] ++ [jp]).count jp = _
    rw [List.count_append, List.count_singleton_self]
  have hkeep : ¬ ((w.fs.inodes.mInodes jp).iCount = 1 ∧ (w.fs.inodes.mInodes jp).iValid ∧
      (w.fs.inodes.mInodes jp).dInodeCtnt.iLinksCount = 0) := by
    rintro ⟨hone, hvalid, hzero⟩
    by_cases hno : n = iNo
    · -- the new inode has a reference already
      have hjp : jp = ip := h.within.sound.unique jp ip hjpdev
        ⟨h.child.1.trans hname.1.symm, h.child.2.trans (hname.2.trans hno).symm⟩
      have hpos := List.count_pos_iff.mpr (List.mem_cons_self (a := ip) (l := [dp]))
      rw [hjp] at hcount hone hlast
      omega
    · rcases hstays.resolve_left hno with ⟨kp, hused, hkname⟩ | hlinks
      · have hnames := h.within.names kp hused
        have hkp : jp = kp := h.within.sound.unique jp kp hjpdev
          ⟨(hnames.1.trans hkname.1).trans hname.1.symm,
            (hnames.2.trans hkname.2).trans hname.2.symm⟩
        rw [← hkp] at hused
        omega
      · have hload : (w.fs.inodes.mInodes jp).dInodeCtnt = _ := h.loaded jp hjpdev hvalid
        rw [hname.1, hname.2, h.disk dev n fun hand => hno hand.2] at hload
        rw [hload] at hzero
        exact hlinks hzero
  have hwithin := (h.within.perm (((List.Perm.swap jp dp []).cons ip).trans
    (List.Perm.swap jp ip [dp]))).iput hroom (Nat.le_add_left 2 2)
  have hput : Inode.iput w.fs.inodes jp = w.fs.inodes.set jp { w.fs.inodes.mInodes jp with
      iCount := u16 ((w.fs.inodes.mInodes jp).iCount + 65535) } := by
    rw [Inode.iput, Inode.iputFree, if_neg hkeep]
  rw [hput] at hwithin
  refine ⟨_, ?_, h.store hwithin (h.loaded jp) fun _ => ⟨_, rfl⟩, rfl⟩
  unfold iput
  dsimp only
  rw [if_neg hkeep, hput]

/-- What `dirlink` does with an inode that has the name already. -/
theorem Making.visit (h : Making p s₀ dev dpNo iNo dp ip [] used d w.fs) (hroom : Room s₀.inodes)
    {n : Nat} (hstays : n = iNo ∨ Linked s₀ dev n) :
    Meets (fun _ => True) (do
      let (fs, jp) ← PathCalls.iget w.fs dev n false
      iput p c { w with fs := fs } jp) fun w' => ∃ fs, w' = { w with fs := fs } ∧
        Making p s₀ dev dpNo iNo dp ip [] used d fs ∧ fs.data = w.fs.data := by
  unfold PathCalls.iget
  cases hget : Inode.iget w.fs.inodes dev n false with
  | none => exact .error trivial
  | some r =>
    obtain ⟨t, jp⟩ := r
    obtain ⟨hmaking, hname⟩ := h.get hroom hget
    obtain ⟨fs, hput, hmaking', hdata⟩ := Making.put (c := c)
      (w := { w with fs := { w.fs with inodes := t } }) hmaking hroom hname hstays
    dsimp only
    rw [ok_bind, hput]
    exact .ok ⟨fs, rfl, hmaking', hdata⟩

/-! ## The two ways of `dirlink` -/

/-- The name is there. -/
theorem dirlink_taken {n k : Nat} {name : Str} {met : Meeting} (hname : Named w.fs ip dev iNo)
    (hrecord : record w.fs ip = d) (hdir : isDir d.iMode = true)
    (hshort : name.length ≤ PathCalls.EXT2_NAME_LEN)
    (hfound : PathCalls.lookup d (w.fs.data dev iNo) name met.stack.lookupDe = some (some n)) :
    dirlink p c w ip name k met = do
      let w ← (do
        let (fs, jp) ← PathCalls.iget w.fs dev n false
        iput p c { w with fs := fs } jp)
      return (w, -1) := by
  have hrecord : (w.fs.inodes.mInodes ip).dInodeCtnt = d := hrecord
  unfold dirlink PathCalls.dirlookup
  dsimp only
  rw [hrecord, hname.1, hname.2, if_pos ⟨hshort, hdir⟩, hfound]
  dsimp only
  cases PathCalls.iget w.fs dev n false with
  | error e => rfl
  | ok r => rfl

/-- It is not, and there are entries. -/
theorem dirlink_free {k off : Nat} {name : Str} {met : Meeting} {de1 : Bytes}
    (hname : Named w.fs ip dev iNo) (hrecord : record w.fs ip = d) (hdir : isDir d.iMode = true)
    (hshort : name.length ≤ PathCalls.EXT2_NAME_LEN)
    (hfree : PathCalls.lookup d (w.fs.data dev iNo) name met.stack.lookupDe = some none)
    (hroom : roomLoop (dirOf d (w.fs.data dev iNo)) (nameOf name).chars.length 0 met.stack.tmpDe
      = some (off, de1)) (hsize : (dirOf d (w.fs.data dev iNo)).iSize ≠ 0) :
    dirlink p c w ip name k met
      = insertDe c w ip met off de1 (fillDe met.stack.newDe (nameOf name) k) := by
  have hrecord : (w.fs.inodes.mInodes ip).dInodeCtnt = d := hrecord
  unfold dirlink PathCalls.dirlookup
  dsimp only
  rw [hrecord, hname.1, hname.2, if_pos ⟨hshort, hdir⟩, hfree, ok_bind]
  dsimp only
  rw [hrecord, hname.1, hname.2, hroom]
  dsimp only
  rw [if_neg hsize]

/-! ## The entry for the parent -/

/-- The entry of the new directory for itself. -/
def dotEntry (iNo : Nat) : DirEntry := ⟨iNo, BLKSIZE, [46]⟩

theorem dotEntry_ok (iNo : Nat) : EntryOk 0 (dotEntry iNo) where
  aligned := show 4 ∣ BLKSIZE by decide
  room := show sizeofDe + 1 ≤ BLKSIZE by decide
  short := show 1 ≤ EXT2_NAME_LEN by decide
  block := show 0 / BLKSIZE = (0 + BLKSIZE - 1) / BLKSIZE by decide

/-- A directory whose only block begins with the entry for itself. -/
structure OnlyDot (newDe : Bytes) (iNo : Nat) (d : DInode) (data : Bytes) : Prop where
  size : d.iSize = BLKSIZE
  bytes : ∀ k < BLKSIZE, data k = setRecLen (fillDe newDe (nameOf PathCalls.dot) iNo) BLKSIZE k

variable {newDe data : Bytes}

theorem OnlyDot.iSize (h : OnlyDot newDe iNo d data) : (dirOf d data).iSize = BLKSIZE := by
  show d.iSize % 2 ^ 32 = BLKSIZE
  rw [h.size]
  rfl

theorem OnlyDot.entryAt (h : OnlyDot newDe iNo d data) (hno : iNo < 2 ^ 32) :
    DirLink.entryAt data 0 = dotEntry iNo := by
  have hbuf : DirLink.entryAt (setRecLen (fillDe newDe (nameOf PathCalls.dot) iNo) BLKSIZE) 0
      = dotEntry iNo := entryAt_fillDe newDe BLKSIZE hno (by decide)
  rw [← hbuf]
  refine entryAt_congr fun k hk => ?_
  rw [hbuf] at hk
  have hk : k < 9 := hk
  have hblk : BLKSIZE = 4096 := rfl
  exact h.bytes (0 + k) (by omega)

theorem OnlyDot.wellFormed (h : OnlyDot newDe iNo d data) (hno : iNo < 2 ^ 32) :
    WellFormed (dirOf d data) [dotEntry iNo] := by
  refine ⟨h.entryAt hno, dotEntry_ok iNo, ?_⟩
  show 0 + BLKSIZE = (dirOf d data).iSize
  rw [h.iSize, Nat.zero_add]

/-- What a lookup has in its buffer. -/
theorem OnlyDot.reads (h : OnlyDot newDe iNo d data) (tmpDe : Bytes) {k : Nat} (hk : k < 16) :
    readi (dirOf d data) tmpDe 0 EXT2_DIRENTRY_MAXSIZE k
      = setRecLen (fillDe newDe (nameOf PathCalls.dot) iNo) BLKSIZE k := by
  have hmax : EXT2_DIRENTRY_MAXSIZE = 263 := rfl
  have hblk : BLKSIZE = 4096 := rfl
  unfold readi
  rw [if_neg (Nat.not_lt_zero _), h.iSize, splice_of_mem (Nat.zero_le k) (by omega)]
  show data (0 + (k - 0)) = _
  rw [Nat.zero_add, Nat.sub_zero]
  exact h.bytes k (by omega)

/-- A lookup compares the one entry. -/
theorem OnlyDot.lookup_eq (h : OnlyDot newDe iNo d data) (hno : iNo < 2 ^ 32) {name : Str}
    (hshort : (nameOf name).chars.length ≤ EXT2_NAME_LEN) (tmpDe : Bytes) :
    PathCalls.lookup d data name tmpDe = some (if matchesName (nameOf name)
      (readi (dirOf d data) tmpDe 0 EXT2_DIRENTRY_MAXSIZE) then some iNo else none) := by
  have hwf := h.wellFormed hno
  have hentry := entryAt_readi tmpDe hwf.1 hwf.2.1 hwf.2.2.le
  have hinode : deInode (readi (dirOf d data) tmpDe 0 EXT2_DIRENTRY_MAXSIZE) = iNo :=
    deInode_of_entryAt hentry
  have hrec : deRecLen (readi (dirOf d data) tmpDe 0 EXT2_DIRENTRY_MAXSIZE) = BLKSIZE :=
    deRecLen_of_entryAt hentry
  rw [PathCalls.lookup, DirLink.dirlookup, if_pos hshort, dirlookupLoop, h.iSize,
    if_pos (by decide)]
  simp only [hinode, hrec]
  split
  · rfl
  · rw [if_neg (by decide), dirlookupLoop, h.iSize, if_neg (by decide)]

/-- The byte behind the name `.` decides whether it passes for `..`: it comes from the stack. -/
theorem OnlyDot.lookup (h : OnlyDot newDe iNo d data) (hpos : 0 < iNo) (hno : iNo < 2 ^ 32)
    (tmpDe : Bytes) : PathCalls.lookup d data PathCalls.dotdot tmpDe
      = some (if newDe 9 = 46 then some iNo else none) := by
  have hwf := h.wellFormed hno
  have hentry := entryAt_readi tmpDe hwf.1 hwf.2.1 hwf.2.2.le
  have hinode : deInode (readi (dirOf d data) tmpDe 0 EXT2_DIRENTRY_MAXSIZE) = iNo :=
    deInode_of_entryAt hentry
  have hlen : deNameLen (readi (dirOf d data) tmpDe 0 EXT2_DIRENTRY_MAXSIZE) = 1 :=
    deNameLen_of_entryAt hentry
  have hdot : readi (dirOf d data) tmpDe 0 EXT2_DIRENTRY_MAXSIZE 8 = 46 := by
    rw [h.reads tmpDe (by decide)]
    rfl
  have hnext : readi (dirOf d data) tmpDe 0 EXT2_DIRENTRY_MAXSIZE 9 = newDe 9 := by
    rw [h.reads tmpDe (by decide)]
    rfl
  have hmax : max (nameOf PathCalls.dotdot).chars.length 1 = 2 := by decide
  have hfirst : (nameOf PathCalls.dotdot).cstr 0 = 46 := by decide
  have hsecond : (nameOf PathCalls.dotdot).cstr 1 = 46 := by decide
  have hmatch : matchesName (nameOf PathCalls.dotdot)
      (readi (dirOf d data) tmpDe 0 EXT2_DIRENTRY_MAXSIZE) = decide (newDe 9 = 46) := by
    unfold matchesName
    rw [hinode, hlen, hmax]
    simp only [strncmpEq, deName, Nat.add_zero, Nat.zero_add, hdot, hnext, hfirst, hsecond]
    by_cases hbyte : newDe 9 = 46
    · simp [hbyte, Nat.ne_of_gt hpos]
    · simp [hbyte, Ne.symm hbyte]
  rw [h.lookup_eq hno (by decide), hmatch]
  by_cases hbyte : newDe 9 = 46
  · rw [if_pos (decide_eq_true hbyte), if_pos hbyte]
  · rw [if_neg (by simpa using hbyte), if_neg hbyte]

theorem Making.read (h : Making p s₀ dev dpNo iNo dp ip more used d s) : Read s ip dev iNo d := by
  have hload := h.loaded ip (h.child.1 ▸ h.device) h.childValid
  rw [h.childRecord, h.child.1, h.child.2] at hload
  exact ⟨h.child, h.childValid, h.childRecord, hload.symm⟩

/-- Nothing but the contents of one file has changed on disk. -/
structure Rewrites (w w' : World) (dev iNo : Nat) : Prop where
  bitmaps : w'.bitmaps = w.bitmaps
  blocks : w'.iBlock = w.iBlock
  dirs : w'.bgUsedDirsCount = w.bgUsedDirsCount
  others : ∀ a b, ¬ (a = dev ∧ b = iNo) → w'.fs.data a b = w.fs.data a b

theorem Rewrites.refl (w : World) (dev iNo : Nat) : Rewrites w w dev iNo :=
  ⟨rfl, rfl, rfl, fun _ _ _ => rfl⟩

theorem Rewrites.overwrite (h : Rewrites w w' dev iNo) (b x n : Nat) (src : Bytes) :
    Rewrites w (w'.overwrite dev iNo b x n src) dev iNo :=
  ⟨h.bitmaps, h.blocks, h.dirs, fun a m hab => (setFile_off hab).trans (h.others a m hab)⟩

/-- The entry for the parent gets into the new directory, whose block is `b`. -/
def DotdotWritten (c : Setting) (b : Nat) : Prop :=
  c.dot.stack.newDe 9 ≠ 46 ∧ Serves c.dotdot.first b ∧ Serves c.dotdot.second b

section Dotdot

variable {b k : Nat}

/-- `dirlink` finds room behind the entry for the directory itself. -/
theorem dotdot_room (h : Making p s₀ dev dpNo iNo dp ip [] used d w.fs)
    (hdir : isDir d.iMode = true) (honly : OnlyDot c.dot.stack.newDe iNo d (w.fs.data dev iNo))
    (hpos : 0 < iNo) (hno : iNo < 2 ^ 32) (hbyte : c.dot.stack.newDe 9 ≠ 46) (k : Nat) : ∃ de1 de2,
    dirlink p c w ip PathCalls.dotdot k c.dotdot = insertDe c w ip c.dotdot 0 de1 de2 ∧
      deLen de1 = 12 ∧ deLen de2 = 12 := by
  have hfit : firstFit (nameOf PathCalls.dotdot).chars.length 0 [dotEntry iNo]
      = some (0, dotEntry iNo) := by
    rw [firstFit]
    exact if_pos ⟨Nat.ne_of_gt hpos, show 8 + 1 + (8 + 2) ≤ 4096 by decide⟩
  obtain ⟨de1, hroom, hentry⟩ := roomLoop_of_some c.dotdot.stack.tmpDe (honly.wellFormed hno) hfit
  have hsize : (dirOf d (w.fs.data dev iNo)).iSize ≠ 0 := by
    rw [honly.iSize]
    decide
  have hlookup := honly.lookup hpos hno c.dotdot.stack.lookupDe
  rw [if_neg hbyte] at hlookup
  refine ⟨de1, fillDe c.dotdot.stack.newDe (nameOf PathCalls.dotdot) k, ?_, ?_, ?_⟩
  · exact dirlink_free h.child h.childRecord hdir (by decide) hlookup hroom hsize
  · have hlen : (dotEntry iNo).name.length = 1 := rfl
    rw [deLen, deNameLen_of_entryAt hentry, hlen]
    decide
  · have hlen : (nameOf PathCalls.dotdot).chars.length = 2 := by decide
    rw [deLen, deNameLen_fillDe _ _ _ (by decide), hlen]
    decide

theorem dotdot_failed (h : Making p s₀ dev dpNo iNo dp ip [] used d w.fs) (hroom : Room s₀.inodes)
    (hdir : isDir d.iMode = true) (honly : OnlyDot c.dot.stack.newDe iNo d (w.fs.data dev iNo))
    (hpos : 0 < iNo) (hno : iNo < 2 ^ 32) (hb : (w.iBlock dev iNo 0).toNat = b) (hne : b ≠ 0)
    (hfails : ¬ DotdotWritten c b) :
    Meets (fun _ => True) (dirlink p c w ip PathCalls.dotdot k c.dotdot) fun r =>
      r.2 = -1 ∧ Making p s₀ dev dpNo iNo dp ip [] used d r.1.fs ∧ Rewrites w r.1 dev iNo := by
  by_cases hbyte : c.dot.stack.newDe 9 = 46
  · -- the entry `.` passes for `..`
    have hlookup := honly.lookup hpos hno c.dotdot.stack.lookupDe
    rw [if_pos hbyte] at hlookup
    rw [dirlink_taken h.child h.childRecord hdir (by decide) hlookup]
    refine (h.visit hroom (.inl rfl)).bind fun w' hw' => .pure ?_
    obtain ⟨fs, rfl, hmaking, hdata⟩ := hw'
    exact ⟨rfl, hmaking, rfl, rfl, rfl, fun a m _ => congrFun (congrFun hdata a) m⟩
  · obtain ⟨de1, de2, hrun, hde1, hde2⟩ := dotdot_room h hdir honly hpos hno hbyte k
    have hsize := honly.size
    have hblk : BLKSIZE = 4096 := rfl
    have hsteady : Steady c w dev iNo d 0 b := steady_direct hb hne
    rw [hrun]
    by_cases hfirst : Serves c.dotdot.first b
    · have hsecond : ¬ Serves c.dotdot.second b := fun hyes => hfails ⟨hbyte, hfirst, hyes⟩
      rw [insertDe_half h.read (by rw [hde1, hde2]; decide) (by omega) (by omega) hsteady hfirst
        hsecond]
      exact .ok ⟨rfl, h.withData _, (Rewrites.refl w dev iNo).overwrite b _ _ _⟩
    · have hzero : (0 + deLen de1) / BLKSIZE % 2 ^ 32 = 0 := by rw [hde1]; decide
      rw [insertDe_refused h.read (by omega) (by omega) (by rw [hzero]; exact hsteady) hfirst]
      exact .ok ⟨rfl, h, .refl w dev iNo⟩

theorem dotdot_written (h : Making p s₀ dev dpNo iNo dp ip [] used d w.fs)
    (hdir : isDir d.iMode = true) (honly : OnlyDot c.dot.stack.newDe iNo d (w.fs.data dev iNo))
    (hpos : 0 < iNo) (hno : iNo < 2 ^ 32) (hb : (w.iBlock dev iNo 0).toNat = b) (hne : b ≠ 0)
    (hw : DotdotWritten c b) : ∃ w', dirlink p c w ip PathCalls.dotdot k c.dotdot = .ok (w', 0) ∧
      Making p s₀ dev dpNo iNo dp ip [] used d w'.fs ∧ Rewrites w w' dev iNo := by
  obtain ⟨de1, de2, hrun, hde1, hde2⟩ := dotdot_room h hdir honly hpos hno hw.1 k
  have hsize := honly.size
  have hblk : BLKSIZE = 4096 := rfl
  have hsteady : Steady c w dev iNo d 0 b := steady_direct hb hne
  rw [hrun, insertDe_done h.read (by rw [hde1, hde2]; decide) (by omega) (by omega) hsteady hw.2.1
    hw.2.2]
  exact ⟨_, rfl, (h.withData _).withData _,
    ((Rewrites.refl w dev iNo).overwrite b _ _ _).overwrite b _ _ _⟩

end Dotdot

/-! ## The entry in the parent -/

theorem Making.readParent (h : Making p s₀ dev dpNo iNo dp ip more used d s) {r : DInode}
    (hrecord : record s dp = r) : Read s dp dev dpNo r := by
  have hload := h.loaded dp (h.parent.1 ▸ h.device) h.parentValid
  rw [hrecord, h.parent.1, h.parent.2] at hload
  exact ⟨h.parent, h.parentValid, hrecord, hload.symm⟩

/-- A directory that has entries, and all its blocks. -/
structure DirOk (c : Setting) (w : World) (dev no : Nat) (r : DInode) : Prop where
  entries : ∃ es, es ≠ [] ∧ WellFormed (dirOf r (w.fs.data dev no)) es
  small : r.iSize < 2 ^ 32
  tree : Bmap.WellFormed c.geo (w.file dev no r)
  mapped : ∀ m, m * BLKSIZE < r.iSize → ∃ b, Bmap.mapped (w.file dev no r) m = some (some b)

/-- The new entry would go into the gap behind an entry, and take four bytes more than there
    are. -/
def Spills (c : Setting) (w : World) (dev no : Nat) (r : DInode) (name : Str) : Prop :=
  PathCalls.lookup r (w.fs.data dev no) name c.entry.stack.lookupDe = some none ∧
    ∃ es off e b, WellFormed (dirOf r (w.fs.data dev no)) es ∧
      firstFit (nameOf name).chars.length 0 es = some (off, e) ∧
      e.recLen < (keptPart e).recLen + (sizeofDe + (nameOf name).chars.length) ∧
      Bmap.mapped (w.file dev no r) (off / BLKSIZE) = some (some b) ∧ Serves c.entry.first b

/-- A tiling is read off the bytes. -/
theorem tiles_unique {data : Bytes} {lo hi : Nat} {es es' : List DirEntry}
    (h : Tiles data lo es hi) (h' : Tiles data lo es' hi) : es = es' := by
  induction es generalizing lo es' with
  | nil =>
    have hend : lo = hi := h
    cases es' with
    | nil => rfl
    | cons x xs =>
      have hroom := h'.2.1.room
      have hle := h'.2.2.le
      have hde : sizeofDe = 8 := rfl
      omega
  | cons e es ih =>
    have hroom := h.2.1.room
    have hle := h.2.2.le
    have hde : sizeofDe = 8 := rfl
    cases es' with
    | nil =>
      have hend : lo = hi := h'
      omega
    | cons x xs =>
      have hx : e = x := h.1.symm.trans h'.1
      subst hx
      rw [ih h.2.2 h'.2.2]

/-- Bytes are written into the gap behind an entry. -/
theorem tiles_gap {data src : Bytes} {off hi n : Nat} {e : DirEntry} {es : List DirEntry}
    {namelen : Nat} (h : Tiles data 0 es hi) (hfit : firstFit namelen 0 es = some (off, e))
    (hn : (keptPart e).recLen + n ≤ e.recLen) :
    Tiles (splice data (off + (keptPart e).recLen) n src) 0 es hi := by
  obtain ⟨pre, post, rfl, hpre, ⟨hat, hok, hpost⟩, -, -⟩ := firstFit_split h hfit
  have hkept := kept_bounds e
  refine tiles_append.mpr ⟨off, ?_, ?_, hok, ?_⟩
  · exact hpre.congr fun k _ hk => splice_of_not_mem (by omega)
  · refine (entryAt_congr fun k hk => splice_of_not_mem ?_).trans hat
    rw [hat] at hk
    omega
  · exact hpost.congr fun k hk _ => splice_of_not_mem (by omega)

/-- There is nothing to be written behind the end. -/
theorem insertDe_behind {met : Meeting} {off : Nat} {de1 de2 : Bytes}
    (h : record w.fs ip = d) (hoff : d.iSize < off + deLen de1) :
    insertDe c w ip met off de1 de2 = .ok (w, -1) := by
  have hrecord : (w.fs.inodes.mInodes ip).dInodeCtnt = d := h
  have hrun : ∃ e < 0, writei c w ip met.first (behind de1 de2) (off + deLen de1) (deLen de2)
      = .ok (w, e) := by
    cases met.first with
    | none => exact ⟨-EBUSY, by decide, rfl⟩
    | some served =>
      refine ⟨-1, by decide, ?_⟩
      unfold writei
      dsimp only
      rw [hrecord, if_pos (.inl hoff)]
  obtain ⟨e, he, hrun⟩ := hrun
  rw [insertDe_eq, hrun, ok_bind]
  dsimp only
  rw [if_pos (by omega)]
  rfl

section Entry

variable {r : DInode} {name : Str} {k : Nat}

/-- The parent is as it was, but for bytes in its gaps. -/
structure KeepsEntries (w w' : World) (dev no : Nat) (r : DInode) : Prop extends
    Rewrites w w' dev no where
  entries : ∀ es, WellFormed (dirOf r (w.fs.data dev no)) es →
    WellFormed (dirOf r (w'.fs.data dev no)) es

theorem KeepsEntries.refl (w : World) (dev no : Nat) (r : DInode) : KeepsEntries w w dev no r :=
  ⟨.refl w dev no, fun _ h => h⟩

/-- An entry for the new inode, in a directory with a gap for it. -/
theorem entry_fits (h : Making p s₀ dev dpNo iNo dp ip [] used d w.fs)
    (hrecord : record w.fs dp = r) (hok : DirOk c w dev dpNo r) {es : List DirEntry} {off : Nat}
    {e : DirEntry} {de1 de2 : Bytes}
    (hwf : WellFormed (dirOf r (w.fs.data dev dpNo)) es)
    (hfit : firstFit (nameOf name).chars.length 0 es = some (off, e)) (hat : entryAt de1 0 = e)
    (hlen : deLen de2 = alignaddrUp (sizeofDe + (nameOf name).chars.length) 4)
    (hspills : ∀ b, Bmap.mapped (w.file dev dpNo r) (off / BLKSIZE) = some (some b) →
      Serves c.entry.first b →
      (keptPart e).recLen + (sizeofDe + (nameOf name).chars.length) ≤ e.recLen) :
    Meets (fun _ => True) (insertDe c w dp c.entry off de1 de2) fun r' => r'.2 = 0 ∨ r'.2 = -1 ∧
      Making p s₀ dev dpNo iNo dp ip [] used d r'.1.fs ∧ KeepsEntries w r'.1 dev dpNo r := by
  obtain ⟨pre, post, -, -, ⟨-, hentry, hpost⟩, -, hroom⟩ := firstFit_split hwf hfit
  have hsize : (dirOf r (w.fs.data dev dpNo)).iSize = r.iSize := Nat.mod_eq_of_lt hok.small
  have hend := hpost.le
  rw [hsize] at hend
  have hkept := kept_bounds e
  have hblock := hentry.block
  have hsmall := hok.small
  have hde : sizeofDe = 8 := rfl
  have hblk : BLKSIZE = 4096 := rfl
  have hde1 : deLen de1 = (keptPart e).recLen := by
    rw [deLen, deNameLen_of_entryAt hat]
    rfl
  rw [hblk] at hblock
  obtain ⟨b, hb⟩ := hok.mapped (off / BLKSIZE) (by rw [hblk]; omega)
  have hlimit : off / BLKSIZE < Bmap.EXT2_TIND_LIMIT :=
    Nat.lt_of_lt_of_le (show off / BLKSIZE < 2 ^ 20 by rw [hblk]; omega) (by decide)
  have hsteady := steady_mapped hok.tree hlimit hb
  have hmod : off / BLKSIZE % 2 ^ 32 = off / BLKSIZE := by rw [hblk]; omega
  have hread := h.readParent hrecord
  by_cases hfirst : Serves c.entry.first b
  · have hspace := hspills b hb hfirst
    have hlen4 := alignaddrUp_four (sizeofDe + (nameOf name).chars.length)
    have h4 := hentry.aligned
    have hfits : (keptPart e).recLen + deLen de2 ≤ e.recLen := by omega
    have hin : off % BLKSIZE + deLen de1 + deLen de2 ≤ BLKSIZE := by
      rw [hde1, hblk]
      omega
    have hstop : off + deLen de1 + deLen de2 ≤ r.iSize := by omega
    have hsteady' : Steady c w dev dpNo r (off / BLKSIZE % 2 ^ 32) b := by
      rw [hmod]
      exact hsteady
    by_cases hsecond : Serves c.entry.second b
    · rw [insertDe_done hread hin hstop hsmall hsteady' hfirst hsecond]
      exact .ok (.inl rfl)
    · rw [insertDe_half hread hin hstop hsmall hsteady' hfirst hsecond]
      refine .ok (.inr ⟨rfl, h.withData _, (Rewrites.refl w dev dpNo).overwrite b _ _ _, ?_⟩)
      intro es' hes'
      have hsame := tiles_unique hes' hwf
      subst hsame
      show Tiles (setFile w.fs.data dev dpNo _ dev dpNo) 0 es' _
      rw [setFile_at, hde1]
      exact tiles_gap hes' hfit hfits
  · have hhere : (off + deLen de1) / BLKSIZE % 2 ^ 32 = off / BLKSIZE := by
      rw [hde1, hblk]
      omega
    rw [insertDe_refused hread (by omega) hsmall (by rw [hhere]; exact hsteady) hfirst]
    exact .ok (.inr ⟨rfl, h, .refl w dev dpNo r⟩)

/-- An entry for the new inode. -/
theorem entry_outcome (h : Making p s₀ dev dpNo iNo dp ip [] used d w.fs) (hroom : Room s₀.inodes)
    (hrecord : record w.fs dp = r) (hok : DirOk c w dev dpNo r) (hdir : isDir r.iMode = true)
    (hshort : name.length ≤ PathCalls.EXT2_NAME_LEN)
    (hstays : ∀ n, PathCalls.lookup r (w.fs.data dev dpNo) name c.entry.stack.lookupDe
      = some (some n) → n = iNo ∨ Linked s₀ dev n) (hspills : ¬ Spills c w dev dpNo r name) :
    Meets (fun _ => True) (dirlink p c w dp name k c.entry) fun r' => r'.2 = 0 ∨ r'.2 = -1 ∧
      Making p s₀ dev dpNo iNo dp ip [] used d r'.1.fs ∧ KeepsEntries w r'.1 dev dpNo r := by
  obtain ⟨es, hne, hwf⟩ := hok.entries
  have hlen : (nameOf name).chars.length ≤ EXT2_NAME_LEN :=
    Nat.le_trans (List.takeWhile_prefix _).length_le hshort
  have hsize : (dirOf r (w.fs.data dev dpNo)).iSize = r.iSize := Nat.mod_eq_of_lt hok.small
  obtain ⟨found, hfound⟩ : ∃ found, PathCalls.lookup r (w.fs.data dev dpNo) name
      c.entry.stack.lookupDe = some found := by
    unfold PathCalls.lookup DirLink.dirlookup
    rw [if_pos hlen]
    exact dirlookupLoop_ends (nameOf name) c.entry.stack.lookupDe hwf
  cases found with
  | some n =>
    rw [dirlink_taken h.parent hrecord hdir hshort hfound]
    refine (h.visit hroom (hstays n hfound)).bind fun w' hw' => .pure (.inr ?_)
    obtain ⟨fs, rfl, hmaking, hdata⟩ := hw'
    refine ⟨rfl, hmaking, ⟨rfl, rfl, rfl, fun a m _ => congrFun (congrFun hdata a) m⟩, ?_⟩
    intro es' hes'
    show WellFormed (dirOf r (fs.data dev dpNo)) es'
    rw [hdata]
    exact hes'
  | none =>
    have hpos : (dirOf r (w.fs.data dev dpNo)).iSize ≠ 0 := by
      cases es with
      | nil => exact absurd rfl hne
      | cons e es =>
        have hroom' := hwf.2.1.room
        have hle := hwf.2.2.le
        have hde : sizeofDe = 8 := rfl
        omega
    cases hfit : firstFit (nameOf name).chars.length 0 es with
    | none =>
      obtain ⟨de1, hloop⟩ := roomLoop_of_none c.entry.stack.tmpDe hwf hfit
      rw [dirlink_free h.parent hrecord hdir hshort hfound hloop hpos,
        insertDe_behind hrecord (by have := deLen_bounds de1; omega)]
      exact .ok (.inr ⟨rfl, h, .refl w dev dpNo r⟩)
    | some fit =>
      obtain ⟨off, e⟩ := fit
      obtain ⟨de1, hloop, hat⟩ := roomLoop_of_some c.entry.stack.tmpDe hwf hfit
      rw [dirlink_free h.parent hrecord hdir hshort hfound hloop hpos]
      refine entry_fits h hrecord hok hwf hfit hat ?_ fun b hb hfirst => ?_
      · rw [deLen, deNameLen_fillDe _ _ _ hlen]
      · by_contra hover
        exact hspills ⟨hfound, es, off, e, b, hwf, hfit, Nat.lt_of_not_le hover, hb, hfirst⟩

end Entry

end Uniks.Creation
