/-
  A call of `create` that fails, against what was there before.

  A call that does not get to a new inode gives back what it refers to, and that is all.  One that
  does has taken the bit of the inode, perhaps a block, and for a directory that gets both of its
  own entries a place in the count of directories.  The `fail:` exit clears the links and leaves the
  rest to `iput`: the bit is cleared unless the number is a multiple of the inodes in a group, the
  block is given back if it was handed out under its own number, and the count stays.
-/
import Uniks.CreateLinks

namespace Uniks.Creation

open Uniks.Inode (DInode InodeTable MInode Slot FileKind Within Sound Room freshInode isDir SameName
  EXT2_ROOT_INO sbDev u16)
open Uniks.PathCalls (Stop Fs Str Lead record setRecord setFile setFile_self grownTo dirOf nameOf
  Named Amid AtHome Lacks diskLookup pathLeads leads startOf holding)
open Uniks.Sysfile (Pid)
open Uniks.BlockBitmap (Bitmaps Geometry Full InReach)
open Uniks.ByteMem Uniks.DirLink Uniks.Hoare Uniks.Bits

variable {c : Setting} {p : Pid} {w w' : World} {s₀ s s' : Fs} {dev dpNo iNo : Nat}
  {ip dp jp : Slot} {used : Nat → Nat → Bool} {d : DInode}

/-! ## Blocks taken and given back -/

/-- The groups are of full size, and the numbers of the blocks have 32 bits. -/
structure Sized (geo : Geometry) : Prop where
  blocks : geo.sBlocksPerGroup = 8 * BlockBitmap.BLKSIZE
  groups : geo.sBlocksPerGroup * geo.grpNum < 2 ^ 32

/-- What `balloc` gives to a new inode: a block with its number, which may be that of a block one
    group below; or none. -/
theorem firstBlock_cases (hgeo : Sized c.geo) (hgrp : iBlockGroup c iNo < c.geo.grpNum) :
    (taken c w iNo = w.bitmaps ∧ firstBlock c w iNo = 2 ^ 64 - 1 ∧
      ∀ g < c.geo.grpNum, Full w.bitmaps g) ∨
    ∃ g i, g < c.geo.grpNum ∧ i < 32768 ∧ bit (w.bitmaps g) i = false ∧
      (g = iBlockGroup c iNo ∨ Full w.bitmaps (iBlockGroup c iNo) ∧ ∀ h < g, Full w.bitmaps h) ∧
      taken c w iNo = Function.update w.bitmaps g (setBit (w.bitmaps g) i) ∧
      firstBlock c w iNo = i + 32768 * (if iBlockGroup c iNo < g then g - 1 else g) ∧
      firstBlock c w iNo < 2 ^ 32 := by
  have hspg : c.geo.sBlocksPerGroup = 32768 := hgeo.blocks
  have hgroups := hgeo.groups
  unfold taken firstBlock
  rcases BlockBitmap.balloc_spec c.geo w.bitmaps hgrp with
    ⟨hres, hall⟩ | ⟨g, i, hg, hi, hclear, hfirst, hres⟩
  · rw [hres]
    exact .inl ⟨rfl, (by decide : Bmap.u64 (-1) = 2 ^ 64 - 1), hall⟩
  · have hi' : i < 32768 := hi
    have hbelow : 32768 * (g + 1) ≤ c.geo.sBlocksPerGroup * c.geo.grpNum := by
      rw [hspg]
      exact Nat.mul_le_mul_left 32768 hg
    have hnum : (i + if g = iBlockGroup c iNo then
        c.geo.sBlocksPerGroup * iBlockGroup c iNo % 2 ^ 32
        else BlockBitmap.base c.geo (iBlockGroup c iNo) g)
          = i + 32768 * (if iBlockGroup c iNo < g then g - 1 else g) := by
      rw [BlockBitmap.base, hspg]
      by_cases hpref : g = iBlockGroup c iNo
      · rw [if_pos hpref, ← hpref, if_neg (Nat.lt_irrefl g)]
        omega
      · rw [if_neg hpref]
        split <;> rfl
    have hlt : i + 32768 * (if iBlockGroup c iNo < g then g - 1 else g) < 2 ^ 32 := by
      split <;> omega
    rw [hnum] at hres
    rw [hres]
    refine .inr ⟨g, i, hg, hi', hclear, hfirst, rfl, Bmap.u64_natCast (by omega), ?_⟩
    rw [Bmap.u64_natCast (by omega)]
    exact hlt

/-- A block number that is not zero is not zero in 32 bits either. -/
theorem firstBlock_ne_zero (hgeo : Sized c.geo) (hgrp : iBlockGroup c iNo < c.geo.grpNum)
    (h : firstBlock c w iNo ≠ 0) : (UInt32.ofNat (firstBlock c w iNo)).toNat ≠ 0 := by
  have hmod : (UInt32.ofNat (firstBlock c w iNo)).toNat = firstBlock c w iNo % 2 ^ 32 :=
    UInt32.toNat_ofNat'
  rw [hmod]
  rcases firstBlock_cases hgeo hgrp with ⟨-, hnum, -⟩ | ⟨g, i, -, -, -, -, -, -, hlt⟩
  · rw [hnum]
    decide
  · rw [Nat.mod_eq_of_lt hlt]
    exact h

/-- A block that has been taken is missed, unless there was none. -/
theorem taken_back (hgeo : Sized c.geo) (hgrp : iBlockGroup c iNo < c.geo.grpNum) :
    (∀ g < c.geo.grpNum, taken c w iNo g = w.bitmaps g) ↔ ∀ g < c.geo.grpNum, Full w.bitmaps g := by
  rcases firstBlock_cases hgeo hgrp with
    ⟨hsame, -, hall⟩ | ⟨g, i, hg, hi, hclear, -, htaken, -, -⟩
  · exact ⟨fun _ => hall, fun _ g _ => by rw [hsame]⟩
  · constructor
    · intro hback
      have hbit := congrArg (fun bytes => bit bytes i) (hback g hg)
      rw [htaken, BlockBitmap.bit_take, hclear, decide_eq_true ⟨rfl, rfl⟩] at hbit
      cases hbit
    · intro hall
      exact absurd (hall g hg) (BlockBitmap.not_full hi hclear)

/-- Giving the block back restores the bitmaps exactly if it was handed out under its own number. -/
theorem freed_back (hgeo : Sized c.geo) (hgrp : iBlockGroup c iNo < c.geo.grpNum) :
    (∀ g < c.geo.grpNum, BlockBitmap.bfree c.geo (taken c w iNo)
      (UInt32.ofNat (firstBlock c w iNo)).toNat g = w.bitmaps g) ↔
        InReach c.geo w.bitmaps (iBlockGroup c iNo) := by
  have hspg : c.geo.sBlocksPerGroup = 32768 := hgeo.blocks
  have hgroups := hgeo.groups
  have hmod : (UInt32.ofNat (firstBlock c w iNo)).toNat = firstBlock c w iNo % 2 ^ 32 :=
    UInt32.toNat_ofNat'
  rw [hmod]
  rcases firstBlock_cases hgeo hgrp with
    ⟨hsame, hnum, hall⟩ | ⟨g, i, hg, hi, hclear, hfirst, htaken, hnum, hlt⟩
  · refine ⟨fun _ => .inl hall, fun _ g hg => ?_⟩
    -- there is no group for the number that stands for no block
    rw [hsame, hnum]
    refine Function.update_of_ne ?_ _ _
    rw [hspg] at hgroups ⊢
    omega
  · rw [htaken, Nat.mod_eq_of_lt hlt]
    constructor
    · intro hback
      have hbit := congrArg (fun bytes => bit bytes i) (hback g hg)
      have hself : decide (g = g ∧ i = i) = true := decide_eq_true ⟨rfl, rfl⟩
      rw [BlockBitmap.bfree_bit, BlockBitmap.bit_take, hclear, hself, hspg,
        Nat.mod_eq_of_lt hlt] at hbit
      have hown : g = firstBlock c w iNo / 32768 ∧ i = firstBlock c w iNo % 32768 := by
        by_contra hno
        rw [decide_eq_false hno] at hbit
        cases hbit
      have hle : ¬ iBlockGroup c iNo < g := by
        intro hbehind
        rw [if_pos hbehind] at hnum
        omega
      have hbits : c.geo.sBlocksPerGroup * g < 2 ^ 32 := by
        rw [hspg]
        omega
      exact .inr ⟨g, Nat.le_of_not_lt hle, hbits, BlockBitmap.not_full hi hclear, hfirst⟩
    · intro hreach h _
      have hle : ¬ iBlockGroup c iNo < g := by
        intro hbehind
        rcases hreach with hall | ⟨g', hg', -, hopen, hfirst'⟩
        · exact BlockBitmap.not_full hi hclear (hall g hg)
        · have hfull := (hfirst.resolve_left (by omega)).2 g' (by omega)
          exact hopen hfull
      rw [if_neg hle, Nat.add_comm] at hnum
      have hbits : c.geo.sBlocksPerGroup * g < 2 ^ 32 := by
        rw [hspg]
        omega
      have htake := BlockBitmap.bfree_take hgeo.blocks hbits hi hclear
      rw [hspg, ← hnum] at htake
      rw [htake]

/-! ## Atomic calls -/

/-- An inode in use: it is marked, and it has links or somebody refers to it. -/
structure Kept (s : Fs) (dev iNo : Nat) : Prop where
  marked : s.used dev iNo = true
  linked : Linked s dev iNo

/-- A file system that `create` may find: what is referred to and what directories name is in use,
    directories are well formed and have their blocks, and the number that `ialloc` finds is
    free. -/
structure Consistent (c : Setting) (w : World) (icwd : Slot) (path : Str) : Prop extends
    AtHome c.calls w.fs icwd where
  rootKept : Kept w.fs sbDev EXT2_ROOT_INO
  referred : ∀ ip, 1 ≤ (w.fs.inodes.mInodes ip).iCount → (w.fs.inodes.mInodes ip).iDev ≠ 0 →
    w.fs.used (w.fs.inodes.mInodes ip).iDev (w.fs.inodes.mInodes ip).iNo = true
  listed : ∀ dev iNo name tmpDe next, Kept w.fs dev iNo →
    isDir (w.fs.inodes.diskInode dev iNo).iMode = true →
      diskLookup w.fs dev iNo name tmpDe = some (some next) → Kept w.fs dev next
  dirs : ∀ dev iNo, Kept w.fs dev iNo → isDir (w.fs.inodes.diskInode dev iNo).iMode = true →
    DirOk c w dev iNo (w.fs.inodes.diskInode dev iNo)
  fresh : ∀ iNo, c.calls.fresh = some iNo → w.fs.used (startOf w.fs icwd path).1 iNo = false ∧
    0 < iNo ∧ iNo < 2 ^ 32 ∧ iBlockGroup c iNo < c.geo.grpNum
  sized : Sized c.geo

/-- A directory is as it was: its link count, and its entries. -/
structure SameDir (w w' : World) (dev no : Nat) : Prop where
  links : (w'.fs.inodes.diskInode dev no).iLinksCount = (w.fs.inodes.diskInode dev no).iLinksCount
  loaded : ∀ ip, dev ≠ 0 → Named w'.fs ip dev no → (w'.fs.inodes.mInodes ip).iValid = true →
    (record w'.fs ip).iLinksCount = (w.fs.inodes.diskInode dev no).iLinksCount
  entries : ∀ es, WellFormed (dirOf (w.fs.inodes.diskInode dev no) (w.fs.data dev no)) es →
    WellFormed (dirOf (w'.fs.inodes.diskInode dev no) (w'.fs.data dev no)) es

/-- Everything is as before the call: the bitmaps, the group descriptors, the parent that the path
    leads to, the reference counts and the mutexes. -/
structure Undone (c : Setting) (w w' : World) (dev : Nat) (lead : Lead) : Prop where
  blocks : ∀ g < c.geo.grpNum, w'.bitmaps g = w.bitmaps g
  inodes : w'.fs.used = w.fs.used
  dirs : w'.bgUsedDirsCount = w.bgUsedDirsCount
  parent : ∀ no name, lead = .found no name → SameDir w w' dev no
  counts : ∀ ip, (w'.fs.inodes.mInodes ip).iCount = (w.fs.inodes.mInodes ip).iCount
  mutexes : w'.fs.iMtx = fun _ => none

/-- What `create` leaves is as before the call. -/
def UndoneAt (c : Setting) (w w' : World) (icwd : Slot) (path : Str) : Prop :=
  Undone c w w' (startOf w.fs icwd path).1 (pathLeads c.calls w.fs icwd true path)

/-- A new directory that fails leaves no trace: its first entry has failed without a block being
    taken, or there was none; or its second one has, and the block had been handed out under its own
    number. -/
def DirUndoes (c : Setting) (w : World) (iNo : Nat) : Prop :=
  (¬ DotWritten c w iNo ∧ (c.dot.first = none ∨ ∀ g < c.geo.grpNum, Full w.bitmaps g)) ∨
    (DotWritten c w iNo ∧ ¬ DotdotWritten c (UInt32.ofNat (firstBlock c w iNo)).toNat ∧
      InReach c.geo w.bitmaps (iBlockGroup c iNo))

/-- The call gets to the point where it has an inode, and its parent. -/
def Reaches (c : Setting) (w : World) (icwd : Slot) (path : Str) (no : Nat) (name : Str)
    (iNo : Nat) : Prop :=
  pathLeads c.calls w.fs icwd true path = .found no name ∧
    PathCalls.entry c.calls w.fs (startOf w.fs icwd path).1 no name = some none ∧
      c.calls.fresh = some iNo

/-- The entry that `create` makes in the parent does not fit, and is begun nevertheless. -/
def SpillsAt (c : Setting) (w : World) (icwd : Slot) (path : Str) (no : Nat) (name : Str) : Prop :=
  Spills c w (startOf w.fs icwd path).1 no
    (w.fs.inodes.diskInode (startOf w.fs icwd path).1 no) name

/-- The condition under which a failing call leaves no trace: if it comes as far as to have an
    inode, `ifree` finds the bit of that inode again, and what follows can be undone. -/
def Atomic (c : Setting) (w : World) (icwd : Slot) (path : Str) (kind : FileKind) : Prop :=
  ∀ no name iNo, Reaches c w icwd path no name iNo → iNo % c.calls.sInodesPerGroup ≠ 0 ∧
    match kind with
    | .dir => DirUndoes c w iNo
    | .regfile => ¬ SpillsAt c w icwd path no name

/-! ## The end of a call -/

theorem undone_of_amid {lead : Lead} (h : Amid p w.fs s [] none) :
    Undone c w { w with fs := s } dev lead := by
  refine ⟨fun _ _ => rfl, h.disk.used, rfl, fun no name _ => ⟨?_, ?_, ?_⟩, fun ip => ?_, h.mutexes⟩
  · show (s.inodes.diskInode dev no).iLinksCount = _
    rw [h.disk.records]
  · intro ip hdev hname hvalid
    have hload := h.loaded ip (hname.1 ▸ hdev) hvalid
    rw [hname.1, hname.2, h.disk.records] at hload
    exact congrArg DInode.iLinksCount hload
  · intro es hes
    show WellFormed (dirOf (s.inodes.diskInode dev no) (s.data dev no)) es
    rw [h.disk.records, h.disk.data]
    exact hes
  · show (s.inodes.mInodes ip).iCount = _
    rw [h.within.count ip, List.count_nil, Nat.add_zero]

/-- `ifree` finds the bit of an inode unless its number is a multiple of the size of a group. -/
theorem ifreeNo_eq_iff {env : PathCalls.Env} (hpos : 0 < iNo) :
    PathCalls.ifreeNo env iNo = iNo ↔ iNo % env.sInodesPerGroup ≠ 0 := by
  unfold PathCalls.ifreeNo
  generalize env.sInodesPerGroup = n
  rcases Nat.eq_zero_or_pos n with rfl | hn
  · rw [Nat.mod_zero, Nat.mod_zero, Nat.mul_zero]
    omega
  · have hsplit := Nat.div_add_mod' iNo n
    have hlt := Nat.mod_lt iNo hn
    by_cases hzero : iNo % n = 0
    · -- the last one of a group
      have hprev : (iNo - 1) % n = n - 1 := by
        obtain ⟨q, rfl⟩ : n ∣ iNo := Nat.dvd_of_mod_eq_zero hzero
        cases q with
        | zero => exact absurd hpos (Nat.lt_irrefl 0)
        | succ q =>
          have hq : n * (q + 1) - 1 = n * q + (n - 1) := by
            rw [Nat.mul_succ]
            omega
          rw [hq, Nat.mul_add_mod, Nat.mod_eq_of_lt (by omega)]
      rw [hprev]
      omega
    · have hprev : (iNo - 1) % n = iNo % n - 1 := by
        have hq : iNo - 1 = iNo / n * n + (iNo % n - 1) := by omega
        rw [hq, Nat.mul_add_mod', Nat.mod_eq_of_lt (by omega)]
      rw [hprev]
      omega

/-- The bitmap of the inodes is restored if the right bit has been cleared. -/
theorem marks_back {used : Nat → Nat → Bool} {k : Nat} (hclear : used dev iNo = false) :
    setFile (setFile used dev iNo true) dev k false = used ↔ k = iNo := by
  constructor
  · intro hback
    by_contra hne
    have hbit := congrFun (congrFun hback dev) iNo
    rw [setFile_off fun hand => hne hand.2.symm, setFile_at, hclear] at hbit
    cases hbit
  · rintro rfl
    funext a b
    by_cases hab : a = dev ∧ b = k
    · rw [hab.1, hab.2, setFile_at, hclear]
    · rw [setFile_off hab, setFile_off hab]

/-- What the `fail:` exit has not undone. -/
theorem Ended.undone_iff {name : Str}
    (h : Ended c w.fs dev iNo (setFile w.fs.used dev iNo true) w'.fs)
    (hpos : 0 < iNo) (hclear : w.fs.used dev iNo = false) (hapart : dpNo ≠ iNo)
    (hdirs : w'.bgUsedDirsCount = w.bgUsedDirsCount)
    (hentries : ∀ es, WellFormed (dirOf (w.fs.inodes.diskInode dev dpNo) (w.fs.data dev dpNo)) es →
      WellFormed (dirOf (w.fs.inodes.diskInode dev dpNo) (w'.fs.data dev dpNo)) es) :
    Undone c w w' dev (.found dpNo name) ↔ iNo % c.calls.sInodesPerGroup ≠ 0 ∧
      ∀ g < c.geo.grpNum, w'.bitmaps g = w.bitmaps g := by
  have hmarks : w'.fs.used = w.fs.used ↔ iNo % c.calls.sInodesPerGroup ≠ 0 := by
    rw [h.marks, marks_back hclear]
    exact ifreeNo_eq_iff hpos
  have hdisk : w'.fs.inodes.diskInode dev dpNo = w.fs.inodes.diskInode dev dpNo :=
    h.disk dev dpNo fun hand => hapart hand.2
  constructor
  · exact fun hundone => ⟨hmarks.mp hundone.inodes, hundone.blocks⟩
  · rintro ⟨hno, hblocks⟩
    refine ⟨hblocks, hmarks.mpr hno, hdirs, ?_, fun ip => ?_, h.mutexes⟩
    · rintro no _ ⟨⟩
      refine ⟨by rw [hdisk], fun ip hdev hname hvalid => ?_, fun es hes => ?_⟩
      · have hload := h.loaded ip (hname.1 ▸ hdev) hvalid
        rw [hname.1, hname.2, hdisk] at hload
        exact congrArg DInode.iLinksCount hload
      · rw [hdisk]
        exact hentries es hes
    · rw [h.within.count ip, List.count_nil, Nat.add_zero]

/-! ## The count of directories -/

section Dirs

variable {met : Meeting} {name : Str} {k : Nat}

theorem writei_dirs {met : Option (Nat → Bool)} {src : Bytes} {off n : Nat} :
    Meets (fun _ => True) (writei c w ip met src off n) fun r =>
      r.1.bgUsedDirsCount = w.bgUsedDirsCount := by
  unfold writei
  cases met with
  | none => exact .ok rfl
  | some served =>
    refine .ite (fun _ => .ok rfl) fun _ => .ite (fun _ => .ok rfl) fun _ => ?_
    split
    · exact .error trivial
    · exact .after fun fs => .pure rfl

theorem itruncate_dirs : Meets (fun _ => True) (itruncate p c w ip) fun w' =>
    w'.bgUsedDirsCount = w.bgUsedDirsCount := by
  unfold itruncate
  refine .ite (fun _ => .error trivial) fun _ => ?_
  refine .ite (fun _ => .ok rfl) fun _ => ?_
  split
  · exact .error trivial
  · exact .after fun fs => .pure rfl

theorem iput_dirs : Meets (fun _ => True) (iput p c w ip) fun w' =>
    w'.bgUsedDirsCount = w.bgUsedDirsCount := by
  unfold iput
  refine .ite (fun _ => ?_) fun _ => .ok rfl
  refine .ite (fun _ => .error trivial) fun _ => ?_
  exact itruncate_dirs.bind fun w' hw' => .pure hw'

theorem iunlockput_dirs : Meets (fun _ => True) (iunlockput p c w ip) fun w' =>
    w'.bgUsedDirsCount = w.bgUsedDirsCount := Meets.after fun _ => iput_dirs

theorem insertDe_dirs {off : Nat} {de1 de2 : Bytes} :
    Meets (fun _ => True) (insertDe c w ip met off de1 de2) fun r =>
      r.1.bgUsedDirsCount = w.bgUsedDirsCount := by
  rw [insertDe_eq]
  refine writei_dirs.bind fun r hr => .ite (fun _ => .pure hr) fun _ => ?_
  exact writei_dirs.bind fun r' hr' => .pure (hr'.trans hr)

theorem dirlink_dirs : Meets (fun _ => True) (dirlink p c w ip name k met) fun r =>
    r.1.bgUsedDirsCount = w.bgUsedDirsCount := by
  refine .after fun ⟨fs, found⟩ => ?_
  dsimp only
  cases found with
  | some jp => exact iput_dirs.bind fun w' hw' => .pure hw'
  | none =>
    dsimp only
    split
    · exact .error trivial
    · refine .ite (fun _ => ?_) fun _ => insertDe_dirs
      exact writei_dirs.bind fun r hr => .pure hr

theorem createFail_dirs : Meets (fun _ => True) (createFail p c w ip dp) fun r =>
    r.1.bgUsedDirsCount = w.bgUsedDirsCount := by
  refine .after fun fs => iunlockput_dirs.bind fun w₁ h₁ => ?_
  exact iunlockput_dirs.bind fun w₂ h₂ => .pure (h₂.trans h₁)

/-- The end of `create` returns the inode, or goes through `fail:`. -/
theorem createEntry_rule {kind : FileKind} (post : World → Prop)
    (hlink : Meets (fun _ => True) (dirlink p c w dp name (w.fs.inodes.mInodes ip).iNo c.entry)
      fun r => r.2 < 0 → Meets (fun _ => True) (createFail p c r.1 ip dp) fun r' => post r'.1) :
    Meets (fun _ => True) (createEntry p c w ip dp name kind) fun r => r.2 = none → post r.1 := by
  refine hlink.bind fun r hr => .ite (fun hneg => ?_) fun _ => ?_
  · exact (hr hneg).mono fun r' hr' _ => hr'
  · refine .after fun fs => .after fun fs' => .after fun w' => ?_
    exact .pure fun hnone => nomatch hnone

theorem createEntry_dirs {kind : FileKind} :
    Meets (fun _ => True) (createEntry p c w ip dp name kind) fun r =>
      r.2 = none → r.1.bgUsedDirsCount = w.bgUsedDirsCount :=
  createEntry_rule (fun w' => w'.bgUsedDirsCount = w.bgUsedDirsCount)
    (dirlink_dirs.mono fun _ hr _ => createFail_dirs.mono fun _ hr' => hr'.trans hr)

end Dirs

/-! ## The entries of a new inode -/

/-- What is known of the parent and of the number for the new inode. -/
structure Site (c : Setting) (w : World) (dev dpNo iNo : Nat) (name : Str) : Prop where
  room : Room w.fs.inodes
  parent : Kept w.fs dev dpNo
  dir : isDir (w.fs.inodes.diskInode dev dpNo).iMode = true
  short : name.length ≤ PathCalls.EXT2_NAME_LEN
  ok : DirOk c w dev dpNo (w.fs.inodes.diskInode dev dpNo)
  listed : ∀ tmpDe n, diskLookup w.fs dev dpNo name tmpDe = some (some n) → Kept w.fs dev n
  clear : w.fs.used dev iNo = false
  pos : 0 < iNo
  small : iNo < 2 ^ 32
  group : iBlockGroup c iNo < c.geo.grpNum
  sized : Sized c.geo

theorem Site.apart {name : Str} (h : Site c w dev dpNo iNo name) : dpNo ≠ iNo := by
  rintro rfl
  have hmarked := h.parent.marked
  rw [h.clear] at hmarked
  cases hmarked

/-- The world when the new inode has been filled in. -/
def started (w : World) (fs : Fs) (dev iNo : Nat) : World :=
  { w with fs := fs, iBlock := setFile w.iBlock dev iNo fun _ => 0 }

theorem started_file (w : World) (fs : Fs) {d : DInode} (hapart : dpNo ≠ iNo) :
    (started w fs dev iNo).file dev dpNo d = w.file dev dpNo d := by
  have hblock : (started w fs dev iNo).iBlock dev dpNo = w.iBlock dev dpNo :=
    setFile_off fun hand => hapart hand.2
  unfold World.file
  rw [hblock]
  rfl

theorem DirOk.congr {no : Nat} (h : DirOk c w dev no d)
    (hfile : w'.file dev no d = w.file dev no d) (hdata : w'.fs.data dev no = w.fs.data dev no) :
    DirOk c w' dev no d := by
  refine ⟨?_, h.small, ?_, ?_⟩
  · rw [hdata]
    exact h.entries
  · rw [hfile]
    exact h.tree
  · rw [hfile]
    exact h.mapped

theorem givenBack_empty (h : d.iSize = 0) : givenBack c w dev iNo d = w.bitmaps := if_pos h

section Links

variable {name : Str} {fs : Fs} {mode : Nat}

/-- The record of the parent, while the new inode is made. -/
theorem Making.parentRecord {more : List Slot}
    (h : Making p s₀ dev dpNo iNo dp ip more used d s) :
    record s dp = s₀.inodes.diskInode dev dpNo := by
  have hload := h.loaded dp (h.parent.1 ▸ h.device) h.parentValid
  rw [h.parent.1, h.parent.2, h.disk dev dpNo fun hand => h.apart hand.2] at hload
  exact hload

/-- A file: there is only the entry in its parent. -/
theorem createLinks_regfile (hs : Site c w dev dpNo iNo name)
    (h : Making p w.fs dev dpNo iNo dp ip [] (setFile w.fs.used dev iNo true) (freshInode mode) fs)
    (hdata : fs.data = w.fs.data)
    (hspills : ¬ Spills c w dev dpNo (w.fs.inodes.diskInode dev dpNo) name) :
    Meets (fun _ => True) (createLinks p c (started w fs dev iNo) ip dp iNo name .regfile) fun r =>
      r.2 = none → (Undone c w r.1 dev (.found dpNo name) ↔ iNo % c.calls.sInodesPerGroup ≠ 0) := by
  have hfile : (started w fs dev iNo).file dev dpNo (w.fs.inodes.diskInode dev dpNo)
      = w.file dev dpNo (w.fs.inodes.diskInode dev dpNo) := started_file w fs hs.apart
  have hdata' : (started w fs dev iNo).fs.data dev dpNo = w.fs.data dev dpNo := by
    show fs.data dev dpNo = _
    rw [hdata]
  have hspills' : ¬ Spills c (started w fs dev iNo) dev dpNo
      (w.fs.inodes.diskInode dev dpNo) name := by
    unfold Spills
    rw [hfile, hdata']
    exact hspills
  have hstays : ∀ n, PathCalls.lookup (w.fs.inodes.diskInode dev dpNo)
      ((started w fs dev iNo).fs.data dev dpNo) name c.entry.stack.lookupDe = some (some n) →
        n = iNo ∨ Linked w.fs dev n := by
    intro n hfound
    rw [hdata'] at hfound
    exact .inr (hs.listed _ n hfound).linked
  have hlink := entry_outcome (p := p) (w := started w fs dev iNo)
    (k := ((started w fs dev iNo).fs.inodes.mInodes ip).iNo) h hs.room h.parentRecord
    (hs.ok.congr hfile hdata') hs.dir hs.short hstays hspills'
  unfold createLinks
  rw [if_neg (by decide)]
  refine createEntry_rule (fun w' => Undone c w w' dev (.found dpNo name) ↔
    iNo % c.calls.sInodesPerGroup ≠ 0) (hlink.mono ?_)
  rintro r (hzero | ⟨-, hmaking, hkeeps⟩) hneg
  · rw [hzero] at hneg
    exact absurd hneg (Int.lt_irrefl 0)
  · obtain ⟨w', hrun, hended, hleaves⟩ := createFail_ends (c := c) hmaking hs.room hs.parent.linked
      (.inl rfl)
    have hbits : w'.bitmaps = w.bitmaps := by
      rw [hleaves.bitmaps, givenBack_empty rfl, hkeeps.bitmaps]
      rfl
    rw [hrun]
    refine .ok ((hended.undone_iff hs.pos hs.clear hs.apart (hleaves.dirs.trans hkeeps.dirs)
      fun es hes => ?_).trans (and_iff_left fun g _ => by rw [hbits]))
    rw [hleaves.data]
    refine hkeeps.entries es ?_
    rw [hdata']
    exact hes

/-- The bitmaps after a first entry that has failed. -/
theorem afterDot_back (hs : Site c w dev dpNo iNo name) :
    (∀ g < c.geo.grpNum, afterDot c w iNo g = w.bitmaps g) ↔
      (c.dot.first = none ∨ ∀ g < c.geo.grpNum, Full w.bitmaps g) := by
  unfold afterDot
  cases c.dot.first with
  | none => exact ⟨fun _ => .inl rfl, fun _ _ _ => rfl⟩
  | some served =>
    rw [taken_back hs.sized hs.group]
    exact ⟨.inr, fun hor => hor.resolve_left (nomatch ·)⟩

/-- In a record that is no directory nothing is looked up. -/
theorem dirlink_no_dir (name : Str) (k : Nat) (met : Meeting) (hrecord : record w.fs ip = d)
    (hdir : ¬ isDir d.iMode = true) : dirlink p c w ip name k met = .error .panics := by
  have hrecord : (w.fs.inodes.mInodes ip).dInodeCtnt = d := hrecord
  unfold dirlink PathCalls.dirlookup
  dsimp only
  rw [hrecord, if_neg (fun hand => hdir hand.2)]
  rfl

/-- The first entry of a new directory has failed. -/
theorem createLinks_dot (hs : Site c w dev dpNo iNo name)
    (h : Making p w.fs dev dpNo iNo dp ip [] (setFile w.fs.used dev iNo true) (freshInode mode) fs)
    (hdata : fs.data = w.fs.data) (hdir : isDir mode = true) (hdot : ¬ DotWritten c w iNo) :
    ∃ w', createLinks p c (started w fs dev iNo) ip dp iNo name .dir = .ok (w', none) ∧
      (Undone c w w' dev (.found dpNo name) ↔ iNo % c.calls.sInodesPerGroup ≠ 0 ∧
        (c.dot.first = none ∨ ∀ g < c.geo.grpNum, Full w.bitmaps g)) := by
  have hblank : (started w fs dev iNo).iBlock dev iNo 0 = 0 := congrFun setFile_at 0
  obtain ⟨w₁, hrun₁, hmaking, hleaves₁⟩ := dot_failed (c := c) (w := started w fs dev iNo) h
    hdir rfl hblank hdot
  obtain ⟨w', hrun, hended, hleaves⟩ := createFail_ends (c := c) hmaking hs.room hs.parent.linked
    (.inl rfl)
  have hbits : w'.bitmaps = afterDot c w iNo := by
    rw [hleaves.bitmaps, givenBack_empty rfl]
    exact hleaves₁.bitmaps
  have hsame : w'.fs.data = w.fs.data := hleaves.data.trans (hleaves₁.data.trans hdata)
  refine ⟨w', ?_, ?_⟩
  · unfold createLinks
    rw [if_pos rfl, hrun₁, ok_bind]
    dsimp only
    rw [if_pos (by decide), hrun]
  · rw [hended.undone_iff hs.pos hs.clear hs.apart (hleaves.dirs.trans hleaves₁.dirs)
      fun es hes => hsame ▸ hes, hbits, afterDot_back hs]

/-- The first entry of a new directory is there. -/
theorem createLinks_begun (hs : Site c w dev dpNo iNo name)
    (h : Making p w.fs dev dpNo iNo dp ip [] (setFile w.fs.used dev iNo true) (freshInode mode) fs)
    (hdir : isDir mode = true) (hdot : DotWritten c w iNo) :
    ∃ w₁, createLinks p c (started w fs dev iNo) ip dp iNo name .dir = (do
        let (w, res) ← dirlink p c w₁ ip PathCalls.dotdot (w₁.fs.inodes.mInodes dp).iNo c.dotdot
        if res < 0 then createFail p c w ip dp
        else createEntry p c (w.countDir (iBlockGroup c iNo)) ip dp name .dir) ∧
      Making p w.fs dev dpNo iNo dp ip [] (setFile w.fs.used dev iNo true)
        (grownTo (freshInode mode) BLKSIZE) w₁.fs ∧ Begun c (started w fs dev iNo) w₁ dev iNo ∧
      (w₁.iBlock dev iNo 0).toNat = (UInt32.ofNat (firstBlock c w iNo)).toNat ∧
      (UInt32.ofNat (firstBlock c w iNo)).toNat ≠ 0 := by
  have hblank : (started w fs dev iNo).iBlock dev iNo 0 = 0 := congrFun setFile_at 0
  obtain ⟨w₁, hrun, hmaking, hbegun⟩ := dot_written (c := c) (w := started w fs dev iNo) h hdir rfl
    hblank hdot
  obtain ⟨served, -, hread⟩ := hdot
  refine ⟨w₁, ?_, hmaking, hbegun, congrArg UInt32.toNat hbegun.block,
    firstBlock_ne_zero hs.sized hs.group hread.1⟩
  unfold createLinks
  rw [if_pos rfl, hrun, ok_bind]
  dsimp only
  rw [if_neg (by decide)]

/-- The second one is not. -/
theorem createLinks_dotdot (hs : Site c w dev dpNo iNo name)
    (h : Making p w.fs dev dpNo iNo dp ip [] (setFile w.fs.used dev iNo true) (freshInode mode) fs)
    (hdata : fs.data = w.fs.data) (hdir : isDir mode = true) (hdot : DotWritten c w iNo)
    (hdotdot : ¬ DotdotWritten c (UInt32.ofNat (firstBlock c w iNo)).toNat) :
    Meets (fun _ => True) (createLinks p c (started w fs dev iNo) ip dp iNo name .dir) fun r =>
      Undone c w r.1 dev (.found dpNo name) ↔ iNo % c.calls.sInodesPerGroup ≠ 0 ∧
        InReach c.geo w.bitmaps (iBlockGroup c iNo) := by
  obtain ⟨w₁, hrun, hmaking, hbegun, hblock, hne⟩ := createLinks_begun hs h hdir hdot
  have honly : OnlyDot c.dot.stack.newDe iNo (grownTo (freshInode mode) BLKSIZE)
      (w₁.fs.data dev iNo) := ⟨rfl, hbegun.entry⟩
  rw [hrun]
  refine (dotdot_failed hmaking hs.room hdir honly hs.pos hs.small hblock hne hdotdot).bind
    fun ⟨w₂, res⟩ hr => ?_
  obtain ⟨rfl, hmaking₂, hkeeps⟩ := hr
  dsimp only at hmaking₂ hkeeps ⊢
  rw [if_pos (by decide)]
  have hone : OneBlock w₂ dev iNo (grownTo (freshInode mode) BLKSIZE) := by
    refine ⟨rfl, rfl, ?_⟩
    rw [hkeeps.blocks, hblock]
    exact hne
  obtain ⟨w', hfail, hended, hleaves⟩ := createFail_ends (c := c) hmaking₂ hs.room hs.parent.linked
    (.inr hone)
  have hbits : w'.bitmaps = BlockBitmap.bfree c.geo (taken c w iNo)
      (UInt32.ofNat (firstBlock c w iNo)).toNat := by
    rw [hleaves.bitmaps, givenBack, if_neg (by show ¬ BLKSIZE = 0; decide), hkeeps.bitmaps,
      hkeeps.blocks, hblock, hbegun.bitmaps]
    rfl
  have hother : ¬ (dev = dev ∧ dpNo = iNo) := fun hand => hs.apart hand.2
  have hsame : w'.fs.data dev dpNo = w.fs.data dev dpNo := by
    rw [hleaves.data, hkeeps.others dev dpNo hother, hbegun.others dev dpNo hother]
    show fs.data dev dpNo = _
    rw [hdata]
  rw [hfail]
  refine .ok ?_
  rw [hended.undone_iff hs.pos hs.clear hs.apart
    (hleaves.dirs.trans (hkeeps.dirs.trans hbegun.dirs)) fun es hes => hsame ▸ hes, hbits,
    freed_back hs.sized hs.group]

theorem ne_add_one (n : UInt16) : n ≠ n + 1 := by
  intro heq
  have hnat := congrArg UInt16.toNat heq
  have hone : (1 : UInt16).toNat = 1 := rfl
  rw [UInt16.toNat_add, hone] at hnat
  have hlt := n.toNat_lt
  omega

/-- Both entries are there, and the directory is counted: that is not undone. -/
theorem createLinks_counted (hs : Site c w dev dpNo iNo name)
    (h : Making p w.fs dev dpNo iNo dp ip [] (setFile w.fs.used dev iNo true) (freshInode mode) fs)
    (hdir : isDir mode = true) (hdot : DotWritten c w iNo)
    (hdotdot : DotdotWritten c (UInt32.ofNat (firstBlock c w iNo)).toNat) :
    Meets (fun _ => True) (createLinks p c (started w fs dev iNo) ip dp iNo name .dir) fun r =>
      r.2 = none → ¬ Undone c w r.1 dev (.found dpNo name) := by
  obtain ⟨w₁, hrun, hmaking, hbegun, hblock, hne⟩ := createLinks_begun hs h hdir hdot
  have honly : OnlyDot c.dot.stack.newDe iNo (grownTo (freshInode mode) BLKSIZE)
      (w₁.fs.data dev iNo) := ⟨rfl, hbegun.entry⟩
  obtain ⟨w₂, hrun₂, -, hkeeps⟩ := dotdot_written (k := (w₁.fs.inodes.mInodes dp).iNo) hmaking hdir
    honly hs.pos hs.small hblock hne hdotdot
  rw [hrun, hrun₂, ok_bind]
  dsimp only
  rw [if_neg (by decide)]
  refine createEntry_dirs.mono fun r hr hnone hundone => ?_
  have hcount := congrFun (hr hnone) (iBlockGroup c iNo)
  rw [hundone.dirs] at hcount
  have hmore : (w₂.countDir (iBlockGroup c iNo)).bgUsedDirsCount (iBlockGroup c iNo)
      = w.bgUsedDirsCount (iBlockGroup c iNo) + 1 := by
    show Function.update w₂.bgUsedDirsCount _ _ _ = _
    rw [Function.update_self, hkeeps.dirs, hbegun.dirs]
    rfl
  exact ne_add_one _ (hcount.trans hmore)

/-- A directory. -/
theorem createLinks_dir (hs : Site c w dev dpNo iNo name)
    (h : Making p w.fs dev dpNo iNo dp ip [] (setFile w.fs.used dev iNo true) (freshInode mode) fs)
    (hdata : fs.data = w.fs.data) :
    Meets (fun _ => True) (createLinks p c (started w fs dev iNo) ip dp iNo name .dir) fun r =>
      r.2 = none → (Undone c w r.1 dev (.found dpNo name) ↔
        iNo % c.calls.sInodesPerGroup ≠ 0 ∧ DirUndoes c w iNo) := by
  by_cases hdir : isDir mode = true
  · by_cases hdot : DotWritten c w iNo
    · by_cases hdotdot : DotdotWritten c (UInt32.ofNat (firstBlock c w iNo)).toNat
      · refine (createLinks_counted hs h hdir hdot hdotdot).mono fun r hr hnone => ?_
        refine iff_of_false (hr hnone) ?_
        rintro ⟨-, ⟨hno, -⟩ | ⟨-, hno, -⟩⟩
        · exact hno hdot
        · exact hno hdotdot
      · refine (createLinks_dotdot hs h hdata hdir hdot hdotdot).mono fun r hr _ => hr.trans ?_
        refine and_congr_right fun _ => ⟨fun hreach => .inr ⟨hdot, hdotdot, hreach⟩, ?_⟩
        exact fun hundoes => hundoes.elim (fun hand => absurd hdot hand.1) fun hand => hand.2.2
    · obtain ⟨w', hrun, hundone⟩ := createLinks_dot hs h hdata hdir hdot
      rw [hrun]
      refine .ok fun _ => hundone.trans (and_congr_right fun _ => ⟨fun hnone => ?_, ?_⟩)
      · exact .inl ⟨hdot, hnone⟩
      · exact fun hundoes => hundoes.elim (fun hand => hand.2) fun hand => absurd hand.1 hdot
  · have hrun := dirlink_no_dir (p := p) (c := c) (w := started w fs dev iNo) PathCalls.dot iNo
      c.dot h.childRecord hdir
    unfold createLinks
    rw [if_pos rfl, hrun]
    exact .error trivial

end Links

/-! ## The whole call -/

variable {icwd : Slot} {path : Str} {kind : FileKind} {mode : Nat}

/-- A walk ends at an inode in use. -/
theorem leads_kept (h : Consistent c w icwd path) {no target : Nat} {elems : List Str}
    {name last : Str} (hkept : Kept w.fs dev no)
    (hlead : leads c.calls w.fs true dev no elems name = .found target last) :
    Kept w.fs dev target := by
  induction elems generalizing no name with
  | nil => cases hlead
  | cons elem rest ih =>
    unfold leads at hlead
    split at hlead
    · rename_i hdir
      split at hlead
      · injection hlead with hno _
        exact hno ▸ hkept
      · split at hlead
        · cases hlead
        · cases hlead
        · rename_i next hnext
          exact ih (h.listed dev no elem _ next hkept hdir hnext) hlead
    · cases hlead

theorem Consistent.start (h : Consistent c w icwd path) :
    Kept w.fs (startOf w.fs icwd path).1 (startOf w.fs icwd path).2 := by
  unfold startOf
  split
  · exact h.rootKept
  · exact ⟨h.referred icwd h.cwdUsed h.cwdDev, .inl ⟨icwd, h.cwdUsed, rfl, rfl⟩⟩

/-- The parent is a directory that is in use, and in order. -/
theorem Consistent.site (h : Consistent c w icwd path) {no : Nat} {name : Str}
    (hreach : Reaches c w icwd path no name iNo) :
    Site c w (startOf w.fs icwd path).1 no iNo name := by
  obtain ⟨hlead, -, hfresh⟩ := hreach
  have hkept := leads_kept h h.start hlead
  rcases PathCalls.leads_parent (fun elem => PathCalls.elements_short) hlead with ⟨hshort, hdir⟩
  obtain ⟨hclear, hpos, hsmall, hgroup⟩ := h.fresh iNo hfresh
  exact ⟨h.room, hkept, hdir, hshort, h.dirs _ no hkept hdir,
    fun tmpDe n => h.listed _ no name tmpDe n hkept hdir, hclear, hpos, hsmall, hgroup, h.sized⟩

/-- A reference to an inode that stays is given back as in `Uniks.PathCalls`. -/
theorem iunlockput_calls (hkeep : ¬ ((w.fs.inodes.mInodes ip).iCount = 1 ∧
      (w.fs.inodes.mInodes ip).iValid ∧ (w.fs.inodes.mInodes ip).dInodeCtnt.iLinksCount = 0)) :
    iunlockput p c w ip = do
      let fs ← PathCalls.iunlockput p c.calls w.fs ip
      return { w with fs := fs } := by
  unfold iunlockput PathCalls.iunlockput PathCalls.iunlock
  cases hunlock : Inode.iunlock w.fs.inodes ip with
  | none => rfl
  | some t =>
    rw [Inode.iunlock_eq hunlock]
    dsimp only
    by_cases hmine : w.fs.iMtx ip = some p
    · rw [if_pos hmine, ok_bind, ok_bind]
      unfold iput PathCalls.iput
      dsimp only
      rw [if_neg hkeep, if_neg hkeep]
      rfl
    · rw [if_neg hmine]
      rfl

/-- What `create` does when there is no inode to be had. -/
theorem createFresh_none {no : Nat} {name : Str} (h : Amid p w.fs s [dp] (some dp))
    (hroom : Room w.fs.inodes) (hname : Named s dp dev no)
    (hrecord : record s dp = w.fs.inodes.diskInode dev no) (hkept : Kept w.fs dev no)
    (hsafe : PathCalls.SafeDrop c.calls w.fs dev no) (hfresh : c.calls.fresh = none) :
    Meets (fun _ => True) (createFresh p c { w with fs := s } dp name kind mode) fun r =>
      ∀ dev lead, Undone c w r.1 dev lead := by
  have hkeep := keeps_linked h.within hname hrecord hkept.linked
  unfold createFresh newInode PathCalls.ialloc
  rw [hfresh]
  show Meets _ (iunlockput p c { w with fs := s } dp >>= fun w => .ok (w, none)) _
  rw [iunlockput_calls hkeep]
  refine .bind ((h.iunlockput hroom (Nat.zero_le 4) hname hsafe).bind
    fun s' hs' => .pure ?_) fun w' hw' => .ok hw'
  exact fun dev lead => undone_of_amid hs'.1

/-- What `create` does with a new inode. -/
theorem createFresh_some {no : Nat} {name : Str} (h : Amid p w.fs s [dp] (some dp))
    (hname : Named s dp dev no) (hvalid : (s.inodes.mInodes dp).iValid = true)
    (hs : Site c w dev no iNo name)
    (hidle : ∀ jp, 1 ≤ (w.fs.inodes.mInodes jp).iCount → ¬ Named w.fs jp dev iNo)
    (hfresh : c.calls.fresh = some iNo) {allowed : Stop → Prop}
    (hlacks : ∀ e, Lacks w.fs e → allowed e) {post : World × Option Slot → Prop}
    (hrest : ∀ fs ip, Making p w.fs dev no iNo dp ip [] (setFile w.fs.used dev iNo true)
      (freshInode mode) fs → fs.data = w.fs.data →
        Meets allowed (createLinks p c (started w fs dev iNo) ip dp iNo name kind) post) :
    Meets allowed (createFresh p c { w with fs := s } dp name kind mode) post := by
  have hnew := newInode_made h hs.room hname hvalid hs.apart hidle hfresh mode
  unfold createFresh
  dsimp only
  rw [hname.1]
  refine (hnew.weaken hlacks).bind fun ⟨fs, r⟩ hr => ?_
  obtain ⟨ip, rfl, hmaking, hdata⟩ := hr
  exact hrest fs ip hmaking (hdata.trans h.disk.data)

/-- A slot that has been locked has been read. -/
theorem ilock_valid {s : Fs} : Meets (fun _ => True) (PathCalls.ilock p s ip) fun s' =>
    (s'.inodes.mInodes ip).iValid = true := by
  unfold PathCalls.ilock Inode.ilock
  by_cases hused : (s.inodes.mInodes ip).iCount ≥ 1
  · rw [if_pos hused]
    by_cases hvalid : (s.inodes.mInodes ip).iValid = true
    · rw [if_pos hvalid]
      exact .ite (fun _ => .error trivial) fun _ => .ok hvalid
    · rw [if_neg hvalid]
      refine .ite (fun _ => .error trivial) fun _ => .ok ?_
      show ((s.inodes.set ip _).mInodes ip).iValid = true
      rw [InodeTable.set_self]
  · rw [if_neg hused]
    exact .error trivial

/-- A name that is not there. -/
theorem dirlookup_none {no : Nat} {name : Str} {tmpDe : Bytes} {own : List Slot}
    {locked : Option Slot} (h : Amid p s₀ s own locked) (hname : Named s dp dev no)
    (hrecord : record s dp = s₀.inodes.diskInode dev no)
    (hshort : name.length ≤ PathCalls.EXT2_NAME_LEN)
    (hdir : isDir (s₀.inodes.diskInode dev no).iMode = true)
    (hnone : diskLookup s₀ dev no name tmpDe = some none) :
    PathCalls.dirlookup s dp name tmpDe = .ok (s, none) := by
  have hrecord : (s.inodes.mInodes dp).dInodeCtnt = _ := hrecord
  have hnone : PathCalls.lookup (s₀.inodes.diskInode dev no) (s₀.data dev no) name tmpDe
      = some none := hnone
  unfold PathCalls.dirlookup
  dsimp only
  rw [hname.1, hname.2, hrecord, if_pos ⟨hshort, hdir⟩, h.disk.data, hnone]

/-- An inode that is referred to is not the one that `ialloc` finds. -/
theorem Consistent.idle (h : Consistent c w icwd path) (hfresh : c.calls.fresh = some iNo)
    (hdev : (startOf w.fs icwd path).1 ≠ 0) (jp : Slot)
    (hused : 1 ≤ (w.fs.inodes.mInodes jp).iCount) :
    ¬ Named w.fs jp (startOf w.fs icwd path).1 iNo := by
  rintro ⟨hjdev, hjno⟩
  have hmarked := h.referred jp hused (hjdev ▸ hdev)
  rw [hjdev, hjno, (h.fresh iNo hfresh).1] at hmarked
  cases hmarked

/-- The runs of `create` that get to a new inode. -/
theorem create_reached (h : Consistent c w icwd path) {no : Nat} {name : Str}
    (hreach : Reaches c w icwd path no name iNo) {allowed : Stop → Prop}
    (hlacks : ∀ e, Lacks w.fs e → allowed e) {post : World × Option Slot → Prop}
    (hrest : ∀ fs dp ip, Making p w.fs (startOf w.fs icwd path).1 no iNo dp ip []
      (setFile w.fs.used (startOf w.fs icwd path).1 iNo true) (freshInode mode) fs →
        fs.data = w.fs.data → Meets allowed (createLinks p c
          (started w fs (startOf w.fs icwd path).1 iNo) ip dp iNo name kind) post) :
    Meets allowed (create p c w icwd path kind mode) post := by
  have hs := h.site hreach
  obtain ⟨hlead, hentry, hfresh⟩ := hreach
  refine ((h.toAtHome.namex_found hlead).weaken hlacks).bind fun ⟨s₁, r₁⟩ hr₁ => ?_
  rcases hr₁ with ⟨dp, rfl, h₁, hname₁⟩
  refine ((h₁.ilock List.mem_cons_self hname₁).and ilock_valid).bind fun s₂ hs₂ => ?_
  rcases hs₂ with ⟨⟨h₂, hname₂, hrecord⟩, hvalid⟩
  have hdev : (startOf w.fs icwd path).1 ≠ 0 := hname₂.1 ▸ h₂.device List.mem_cons_self
  rw [dirlookup_none h₂ hname₂ hrecord hs.short hs.dir hentry, ok_bind]
  exact createFresh_some h₂ hname₂ hvalid hs (h.idle hfresh hdev) hfresh hlacks
    fun fs ip => hrest fs dp ip

/-- The runs that do not get to a new inode leave no trace. -/
theorem create_unreached (h : Consistent c w icwd path)
    (hno : ∀ no name iNo, ¬ Reaches c w icwd path no name iNo) :
    Meets (fun _ => True) (create p c w icwd path kind mode) fun r =>
      r.2 = none → UndoneAt c w r.1 icwd path := by
  cases hlead : pathLeads c.calls w.fs icwd true path with
  | stuck => exact (h.toAtHome.namex_stuck hlead).bind fun _ hfalse => hfalse.elim
  | missing =>
    refine (h.toAtHome.namex_missing hlead).lax.bind fun ⟨s, r⟩ hr => ?_
    rcases hr with ⟨rfl, hamid⟩
    exact .pure fun _ => undone_of_amid hamid
  | found no name =>
    rcases PathCalls.leads_parent (fun elem => PathCalls.elements_short) hlead with ⟨hshort, hdir⟩
    have hkept := leads_kept h h.start hlead
    have hsafe := PathCalls.leads_safe h.toQuiet (h.startOf_safe path) hlead
    refine (h.toAtHome.namex_found hlead).lax.bind fun ⟨s₁, r₁⟩ hr₁ => ?_
    rcases hr₁ with ⟨dp, rfl, h₁, hname₁⟩
    refine (h₁.ilock List.mem_cons_self hname₁).bind fun s₂ hs₂ => ?_
    rcases hs₂ with ⟨h₂, hname₂, hrecord⟩
    have hlook := (h₂.dirlookup h.room (Nat.le_succ 1) List.mem_cons_self hname₂ hrecord hshort hdir
      (c.calls.lookupStack [name])).lax
    cases hentry : diskLookup w.fs (startOf w.fs icwd path).1 no name
        (c.calls.lookupStack [name]) with
    | none =>
      rw [hentry] at hlook
      exact hlook.bind fun _ hfalse => hfalse.elim
    | some found =>
      cases found with
      | none =>
        rw [dirlookup_none h₂ hname₂ hrecord hshort hdir hentry, ok_bind]
        cases hfresh : c.calls.fresh with
        | some iNo => exact absurd ⟨hlead, hentry, hfresh⟩ (hno no name iNo)
        | none =>
          exact (createFresh_none h₂ h.room hname₂ hrecord hkept hsafe hfresh).mono
            fun r hr _ => hr _ _
      | some target =>
        rw [hentry] at hlook
        refine hlook.bind fun ⟨s₃, r₃⟩ hr₃ => ?_
        rcases hr₃ with ⟨ip, rfl, h₃, hname₃, hnamed⟩
        have htarget := h.linked _ no name _ target hdir hentry
        refine (PathCalls.create_taken h₃ h.room hname₃ hnamed hsafe htarget).lax.bind
          fun ⟨s₄, r₄⟩ hr₄ => ?_
        exact .pure fun hnone => undone_of_amid (hr₄.2 hnone)

/-- There is only one way to get to a new inode. -/
theorem Reaches.unique {no no' iNo' : Nat} {name name' : Str}
    (h : Reaches c w icwd path no name iNo) (h' : Reaches c w icwd path no' name' iNo') :
    no' = no ∧ name' = name ∧ iNo' = iNo := by
  obtain ⟨hlead, -, hfresh⟩ := h'
  have hlead' := hlead.symm.trans h.1
  injection hlead' with hno hname
  exact ⟨hno, hname, Option.some.inj (hfresh.symm.trans h.2.2)⟩

/-- The condition for a call that gets there. -/
theorem atomic_iff (kind : FileKind) {no : Nat} {name : Str}
    (h : Reaches c w icwd path no name iNo) :
    Atomic c w icwd path kind ↔ iNo % c.calls.sInodesPerGroup ≠ 0 ∧
      match kind with
      | .dir => DirUndoes c w iNo
      | .regfile => ¬ SpillsAt c w icwd path no name := by
  refine ⟨fun hatomic => hatomic no name iNo h, fun hcond no' name' iNo' h' => ?_⟩
  obtain ⟨rfl, rfl, rfl⟩ := h.unique h'
  exact hcond

/-- What a run that returns `NULL` leaves. -/
theorem create_undone (h : Consistent c w icwd path) :
    Meets (fun _ => True) (create p c w icwd path kind mode) fun r => r.2 = none →
      (Atomic c w icwd path kind → UndoneAt c w r.1 icwd path) ∧
        ((kind = .regfile → ∀ no name iNo, Reaches c w icwd path no name iNo →
          ¬ SpillsAt c w icwd path no name) →
            UndoneAt c w r.1 icwd path → Atomic c w icwd path kind) := by
  by_cases hsome : ∃ no name iNo, Reaches c w icwd path no name iNo
  · obtain ⟨no, name, iNo, hreach⟩ := hsome
    have hs := h.site hreach
    unfold UndoneAt
    rw [hreach.1]
    cases kind with
    | dir =>
      refine create_reached h hreach (fun _ _ => trivial) fun fs dp ip hmaking hdata => ?_
      refine (createLinks_dir hs hmaking hdata).mono fun r hr hnull => ?_
      have hiff := (hr hnull).trans (atomic_iff .dir hreach).symm
      exact ⟨hiff.mpr, fun _ => hiff.mp⟩
    | regfile =>
      by_cases hspills : SpillsAt c w icwd path no name
      · refine Meets.any.mono fun r _ _ => ⟨fun hatomic => ?_, fun hnot => ?_⟩
        · exact absurd hspills (hatomic no name iNo hreach).2
        · exact absurd hspills (hnot rfl no name iNo hreach)
      · refine create_reached h hreach (fun _ _ => trivial) fun fs dp ip hmaking hdata => ?_
        refine (createLinks_regfile hs hmaking hdata hspills).mono fun r hr hnull => ?_
        have hiff := (hr hnull).trans ((atomic_iff .regfile hreach).trans
          (and_iff_left hspills)).symm
        exact ⟨hiff.mpr, fun _ => hiff.mp⟩
  · have hnone : ∀ no name iNo, ¬ Reaches c w icwd path no name iNo :=
      fun no name iNo hreach => hsome ⟨no, name, iNo, hreach⟩
    refine (create_unreached h hnone).mono fun r hr hnull => ⟨fun _ => hr hnull, fun _ _ => ?_⟩
    exact fun no name iNo hreach => absurd hreach (hnone no name iNo)

/-- A call of `create` that fails leaves everything as it was if it does not get to a new inode, or
    if `ifree` finds the bit of that inode and the entries it has made can be undone; and otherwise
    it does not, unless the entry in the parent has run over. -/
theorem create_exact (h : Consistent c w icwd path)
    (hrun : create p c w icwd path kind mode = .ok (w', none)) :
    (Atomic c w icwd path kind → UndoneAt c w w' icwd path) ∧
      ((kind = .regfile → ∀ no name iNo, Reaches c w icwd path no name iNo →
        ¬ SpillsAt c w icwd path no name) →
          UndoneAt c w w' icwd path → Atomic c w icwd path kind) :=
  (create_undone h).of_ok hrun rfl

/-! ## A root directory with one entry -/

/-- A file of one block. -/
theorem wellFormed_single {geo : Geometry} {f : Bmap.File} {b : Nat}
    (hb : (f.ino.iBlock 0).toNat = b) (hne : b ≠ 0)
    (hrest : ∀ i, i ≠ 0 → (f.ino.iBlock i).toNat = 0)
    (hused : Bmap.inUse geo f.bitmaps b = true) : Bmap.WellFormed geo f := by
  have hzero : f.tree none 0 = b := hb
  have hshape : ∀ q m, Bmap.Valid q → EntryTree.walk f.tree none q = some m →
      q = [] ∧ m = none ∨ q = [0] ∧ m = some b := by
    intro q m hvalid hm
    cases q with
    | nil => exact .inl ⟨rfl, (Option.some.inj hm).symm⟩
    | cons slot is =>
      rw [EntryTree.walk_cons] at hm
      by_cases hslot : slot = 0
      · subst hslot
        have hlen : is.length ≤ 0 := hvalid.2.1
        obtain rfl := List.length_eq_zero_iff.mp (Nat.le_zero.mp hlen)
        rw [hzero, if_neg hne] at hm
        exact .inr ⟨rfl, (Option.some.inj hm).symm⟩
      · rw [if_pos (show f.tree none slot = 0 from hrest slot hslot)] at hm
        cases hm
  refine ⟨fun q r m hq hr hqm hrm => ?_, fun q x hq hx => ?_⟩
  · rcases hshape q m hq hqm with ⟨rfl, rfl⟩ | ⟨rfl, rfl⟩
    · rcases hshape r _ hr hrm with ⟨rfl, -⟩ | ⟨-, hm⟩
      · rfl
      · cases hm
    · rcases hshape r _ hr hrm with ⟨-, hm⟩ | ⟨rfl, -⟩
      · cases hm
      · rfl
  · rcases hshape q _ hq hx with ⟨-, hm⟩ | ⟨-, hm⟩
    · cases hm
    · rw [Option.some.inj hm]
      exact hused

def tinyRoot : DInode := ⟨0x41ed, 4096, 2, 16⟩

/-- The root directory has an entry for itself, and its block is block 5. -/
def tinyWorld : World where
  fs :=
    { PathCalls.rootFs tinyRoot
        (fun _ _ => setRecLen (fillDe (fun _ => 0) (nameOf PathCalls.dot) 2) BLKSIZE) with
      used := fun dev iNo => decide (dev = 1 ∧ iNo = 2) }
  bitmaps := fun _ k => if k = 0 then 63 else 0
  iBlock := fun _ _ slot => if slot = 0 then 5 else 0
  blocks := fun _ _ => 0
  bgUsedDirsCount := fun _ => 1

def tinyCalls : PathCalls.Env := { PathCalls.smallEnv with fresh := some 3 }

def tinyGeo : Geometry := ⟨8 * BlockBitmap.BLKSIZE, 1⟩

/-- A sync is running when the entry is made in the parent; `first` is what the first write into a
    new directory meets. -/
def tinySetting (first : Option (Nat → Bool)) : Setting where
  calls := tinyCalls
  geo := tinyGeo
  dot := ⟨zeroStack, first, none⟩
  dotdot := ⟨zeroStack, some fun _ => true, some fun _ => true⟩
  entry := ⟨zeroStack, none, none⟩

/-- The name `d`. -/
def tinyName : Str := [100]

variable {first : Option (Nat → Bool)}

theorem tiny_onlyDot (dev iNo : Nat) :
    OnlyDot (fun _ => 0) 2 tinyRoot (tinyWorld.fs.data dev iNo) :=
  ⟨rfl, fun _ _ => rfl⟩

theorem tiny_kept {dev iNo : Nat} (h : tinyWorld.fs.used dev iNo = true) : dev = 1 ∧ iNo = 2 :=
  of_decide_eq_true h

theorem tiny_sized : Sized tinyGeo := ⟨rfl, by decide⟩

theorem tiny_root : Kept tinyWorld.fs 1 2 := ⟨rfl, .inr (by decide)⟩

theorem tiny_consistent : Consistent (tinySetting first) tinyWorld 0 tinyName := by
  have hlinks : ∀ dev iNo, (tinyWorld.fs.inodes.diskInode dev iNo).iLinksCount ≠ 0 :=
    PathCalls.rootDisk_links (show tinyRoot.iLinksCount ≠ 0 by decide)
  have hhome : AtHome tinyCalls (PathCalls.rootFs tinyRoot tinyWorld.fs.data) 0 :=
    PathCalls.rootFs_atHome (show tinyRoot.iLinksCount ≠ 0 by decide) tinyWorld.fs.data
  refine ⟨⟨⟨hhome.sound, hhome.loaded, hhome.room, hhome.free, .inr (.inl (hlinks 1 2)),
    fun dev _ _ _ next _ _ => .inr (.inl (hlinks dev next))⟩, hhome.cwdUsed, hhome.cwdDev⟩,
    tiny_root, ?_, ?_, ?_, ?_, tiny_sized⟩
  · intro ip _ hdev
    obtain rfl := PathCalls.rootSlots_of_device (d := tinyRoot) hdev
    rfl
  · intro dev iNo name tmpDe next hkept _ hfound
    obtain ⟨rfl, rfl⟩ := tiny_kept hkept.marked
    have hlookup : PathCalls.lookup tinyRoot (tinyWorld.fs.data 1 2) name tmpDe
        = some (some next) := hfound
    have hshort : (nameOf name).chars.length ≤ DirLink.EXT2_NAME_LEN := by
      by_contra hlong
      rw [PathCalls.lookup, DirLink.dirlookup, if_neg hlong] at hlookup
      cases hlookup
    rw [(tiny_onlyDot 1 2).lookup_eq (by decide) hshort] at hlookup
    split at hlookup
    · cases Option.some.inj hlookup
      exact tiny_root
    · cases Option.some.inj hlookup
  · intro dev iNo hkept _
    obtain ⟨rfl, rfl⟩ := tiny_kept hkept.marked
    refine ⟨⟨[dotEntry 2], List.cons_ne_nil _ _, (tiny_onlyDot 1 2).wellFormed (by decide)⟩,
      by decide, ?_, fun m hm => ⟨5, ?_⟩⟩
    · refine wellFormed_single (b := 5) rfl (by decide) (fun i hi => ?_)
        (show Bmap.inUse tinyGeo tinyWorld.bitmaps 5 = true by decide)
      show (if i = 0 then (5 : UInt32) else 0).toNat = 0
      rw [if_neg hi]
      rfl
    · have hm : m * 4096 < 4096 := hm
      obtain rfl : m = 0 := by omega
      rfl
  · rintro iNo ⟨⟩
    exact ⟨by decide, by decide, by decide, show (3 - 1) / 128 < 1 by decide⟩

theorem tiny_reaches (first : Option (Nat → Bool)) :
    Reaches (tinySetting first) tinyWorld 0 tinyName 2 tinyName 3 := by
  have hlead : pathLeads tinyCalls tinyWorld.fs 0 true tinyName = .found 2 tinyName := by
    decide +kernel
  have hfree : PathCalls.entry tinyCalls tinyWorld.fs 1 2 tinyName = some none := by
    decide +kernel
  exact ⟨hlead, hfree, rfl⟩

/-- A sync that is running when the first entry is made: nothing has been taken yet. -/
theorem create_exact_sync : ∃ w', create 1 (tinySetting none) tinyWorld 0 tinyName .dir 0x41ed
    = .ok (w', none) ∧ UndoneAt (tinySetting none) tinyWorld w' 0 tinyName := by
  have hdot : ¬ DotWritten (tinySetting none) tinyWorld 3 := fun ⟨_, hmet, _⟩ => nomatch hmet
  have hcall : ∃ r, create 1 (tinySetting none) tinyWorld 0 tinyName .dir 0x41ed = .ok r ∧
      r.2 = none := by
    decide +kernel
  obtain ⟨⟨w', _⟩, hrun, rfl⟩ := hcall
  refine ⟨w', hrun, (create_exact tiny_consistent hrun).1 ?_⟩
  refine (atomic_iff .dir (tiny_reaches none)).mpr ⟨show 3 % 128 ≠ 0 by decide, ?_⟩
  exact .inl ⟨hdot, .inl rfl⟩

/-- The setting in which only the entry in the parent meets a sync. -/
def lateSetting : Setting := tinySetting (some fun _ => true)

/-- A directory has both of its own entries when a sync keeps it from getting into its parent: its
    inode is freed, but it is still counted. -/
theorem create_counts_lost : ¬ ∀ (p : Pid) (c : Setting) (w : World) (icwd : Slot) (path : Str)
    (kind : FileKind) (mode : Nat) (w' : World), Consistent c w icwd path →
      create p c w icwd path kind mode = .ok (w', none) → UndoneAt c w w' icwd path := by
  intro hall
  have hcall : ∃ r, create 1 lateSetting tinyWorld 0 tinyName .dir 0x41ed = .ok r ∧ r.2 = none ∧
      r.1.bgUsedDirsCount 0 ≠ tinyWorld.bgUsedDirsCount 0 := by
    decide +kernel
  obtain ⟨⟨w', _⟩, hrun, rfl, hcounted⟩ := hcall
  have hundone := hall _ _ _ _ _ _ _ _ tiny_consistent hrun
  exact hcounted (congrFun hundone.dirs 0)

end Uniks.Creation
