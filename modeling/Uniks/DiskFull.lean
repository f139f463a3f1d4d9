/-
  `bmap` on a full disk (`fs/ext2fs.c`).

  `balloc` answers -1 when no bit is clear.  `bmap` keeps the answer in 64 unsigned bits and takes
  it for a failure if it is 0, so -1 passes for a block: 32 bits of it are stored in the slot or in
  the entry, and the descent goes on in the block of that number, which no disk has.  From there on
  no answer can be 0 any more (`descend_ne_zero`), so `writei` never hears of the failure.

  `RunsDry` is that state of affairs at any step of the descent; what was mapped before stays so.
-/
import Uniks.FileWrite

namespace Uniks.Bmap

open Uniks.ByteMem Uniks.BlockBitmap Uniks.EntryTree

/-- `balloc` finds no clear bit. -/
def NoFreeBit (geo : Geometry) (bitmaps : Bitmaps) (grpNo : Nat) : Prop :=
  Full bitmaps grpNo ∧ ∀ g < geo.grpNum, Full bitmaps g

/-- The node whose entries are read: `blk_read` takes 32 bits of the number. -/
def readNode : Node → Node
  | none => none
  | some b => some (b % 2 ^ 32)

/-- At some step of the descent an entry is missing, and no bit is clear. -/
def RunsDry (geo : Geometry) (grpNo : Nat) : File → Node → List Nat → Prop
  | _, _, [] => False
  | f, n, i :: is =>
    let r := visit (ballocFor geo grpNo) f n i
    f.tree (readNode n) i = 0 ∧ NoFreeBit geo f.bitmaps grpNo ∨
      r.2 ≠ 0 ∧ RunsDry geo grpNo r.1 (some r.2) is

/-- What is to become of it: `bmap` answers 0, every entry that has changed holds a block allocated
    by the call, what was mapped stays so, and the loop of `writei` ends with the bytes before. -/
structure ReportsFull (geo : Geometry) (grpNo : Nat) (f : File) (blkNo : Nat) (f' : File) :
    Prop where
  answer : bmap (ballocFor geo grpNo) f blkNo = some (f', 0)
  stored : ∀ n i, f'.tree n i ≠ f.tree n i → inUse geo f.bitmaps (f'.tree n i) = false ∧
    inUse geo f'.bitmaps (f'.tree n i) = true
  kept : ∀ m < EXT2_TIND_LIMIT, ∀ d, mapped f m = some d → mapped f' m = some d
  written : ∀ src off n tot, off / BLKSIZE % 2 ^ 32 = blkNo → tot < n →
    ∀ served, writeiLoop (ballocFor geo grpNo) served src off n tot f = some (f', tot)

variable {geo : Geometry} {grpNo : Nat} {balloc : Bitmaps → Bitmaps × Int} {bitmaps : Bitmaps}
  {served : Nat → Bool} {f f' : File} {n : Node} {i blkNo : Nat} {is : List Nat}

/-! ## One step -/

theorem ballocLoop_full (h : ∀ g < geo.grpNum, Full bitmaps g) (left : Nat) :
    ∀ gIdx bnum, gIdx + left ≤ geo.grpNum →
      ballocLoop geo bitmaps grpNo left gIdx bnum = (bitmaps, -1) := by
  induction left with
  | zero => exact fun gIdx bnum _ => rfl
  | succ left ih =>
    intro gIdx bnum hle
    rw [ballocLoop, takeBit_of_full (h gIdx (by omega))]
    split
    · exact ih _ _ (by omega)
    · exact ih _ _ (by omega)

theorem NoFreeBit.fails (h : NoFreeBit geo bitmaps grpNo) :
    ballocFor geo grpNo bitmaps = (bitmaps, -1) := by
  rw [ballocFor, BlockBitmap.balloc, takeBit_of_full h.1]
  exact ballocLoop_full h.2 _ _ _ (Nat.le_of_eq (Nat.zero_add _))

theorem put_tree_cut (f : File) (n : Node) (i c : Nat) :
    (f.put n i c).tree = store f.tree n i (c % 2 ^ 32) := by
  cases n with
  | none => exact tree_setSlot f i c
  | some b => exact tree_setEntry f b i c

/-- An entry that is there is read, whatever the number of the node. -/
theorem visit_read (balloc : Bitmaps → Bitmaps × Int) (h : f.tree (readNode n) i ≠ 0) :
    visit balloc f n i = (f, f.tree (readNode n) i) := by
  cases n with
  | none => exact visit_there small_root h
  | some b =>
    have hne : ¬ word f.data (b % 2 ^ 32) i = 0 := h
    show bmapEntry balloc f b i = _
    rw [bmapEntry]
    dsimp only
    rw [if_neg hne]
    rfl

/-- One that is missing is allocated, unless the allocator answers 0. -/
theorem visit_alloc (balloc : Bitmaps → Bitmaps × Int) (h : f.tree (readNode n) i = 0) :
    visit balloc f n i =
      if u64 (balloc f.bitmaps).2 = 0 then (f.taken balloc, 0)
      else ((f.taken balloc).put (readNode n) i (u64 (balloc f.bitmaps).2),
        u64 (balloc f.bitmaps).2) := by
  cases n with
  | none =>
    have hzero : (f.ino.iBlock i).toNat = 0 := h
    show bmapSlot balloc f i = _
    rw [bmapSlot]
    dsimp only
    rw [if_pos hzero]
    rfl
  | some b =>
    have hzero : word f.data (b % 2 ^ 32) i = 0 := h
    show bmapEntry balloc f b i = _
    rw [bmapEntry]
    dsimp only
    rw [if_pos hzero]
    rfl

theorem visit_keeps (balloc : Bitmaps → Bitmaps × Int) (f : File) (n : Node) (i : Nat) :
    Keeps f.tree (visit balloc f n i).1.tree := by
  by_cases hzero : f.tree (readNode n) i = 0
  · rw [visit_alloc balloc hzero]
    split
    · exact Keeps.refl _
    · show Keeps f.tree (((f.taken balloc).put (readNode n) i _).tree)
      rw [put_tree_cut]
      exact Keeps.store hzero _
  · rw [visit_read balloc hzero]
    exact Keeps.refl _

/-- A step on a full disk: nothing is allocated, and the answer is a number all the same. -/
theorem visit_dry (h : NoFreeBit geo f.bitmaps grpNo) (n : Node) (i : Nat) :
    (visit (ballocFor geo grpNo) f n i).1.bitmaps = f.bitmaps ∧
      (visit (ballocFor geo grpNo) f n i).2 ≠ 0 := by
  by_cases hzero : f.tree (readNode n) i = 0
  · have hminus : u64 (-1) ≠ 0 := by decide
    rw [visit_alloc _ hzero, File.taken, h.fails, if_neg hminus]
    exact ⟨put_bitmaps _ _ _ _, hminus⟩
  · rw [visit_read _ hzero]
    exact ⟨rfl, hzero⟩

/-- The missing entry holds what is left of -1. -/
theorem visit_stores (h : NoFreeBit geo f.bitmaps grpNo) (hzero : f.tree (readNode n) i = 0) :
    (visit (ballocFor geo grpNo) f n i).1.tree (readNode n) i = 2 ^ 32 - 1 := by
  have hminus : u64 (-1) ≠ 0 := by decide
  rw [visit_alloc _ hzero, File.taken, h.fails, if_neg hminus]
  show File.tree (File.put _ (readNode n) i (u64 (-1))) (readNode n) i = _
  rw [put_tree_cut, store_self]
  decide

/-! ## The descent -/

theorem descend_keeps_entries (balloc : Bitmaps → Bitmaps × Int) :
    Keeps f.tree (descend balloc f n is).1.tree := by
  induction is generalizing f n with
  | nil => exact Keeps.refl _
  | cons i is ih =>
    rw [descend_cons]
    dsimp only
    split
    · exact visit_keeps balloc f n i
    · exact (visit_keeps balloc f n i).trans ih

/-- Once the disk is full, no answer is 0. -/
theorem descend_ne_zero (h : NoFreeBit geo f.bitmaps grpNo) {b : Nat} (hb : b ≠ 0) :
    (descend (ballocFor geo grpNo) f (some b) is).2 ≠ 0 := by
  induction is generalizing f b with
  | nil => exact hb
  | cons i is ih =>
    obtain ⟨hsame, hne⟩ := visit_dry h (some b) i
    rw [descend_cons]
    dsimp only
    rw [if_neg hne]
    apply ih
    · rw [hsame]
      exact h
    · exact hne

/-- A descent in which the disk turns out to be full: some missing entry holds 32 bits of -1 in the
    end, and the answer is not 0. -/
theorem RunsDry.descend (h : RunsDry geo grpNo f n is) :
    (Bmap.descend (ballocFor geo grpNo) f n is).2 ≠ 0 ∧
      ∃ m i, f.tree m i = 0 ∧
        (Bmap.descend (ballocFor geo grpNo) f n is).1.tree m i = 2 ^ 32 - 1 := by
  induction is generalizing f n with
  | nil => exact h.elim
  | cons i is ih =>
    rw [descend_cons]
    dsimp only
    rcases h with ⟨hzero, hfull⟩ | ⟨hne, hlater⟩
    · -- the failure comes here
      obtain ⟨hsame, hne⟩ := visit_dry hfull n i
      have hstored := visit_stores hfull hzero
      rw [if_neg hne]
      constructor
      · apply descend_ne_zero _ hne
        rw [hsame]
        exact hfull
      · refine ⟨readNode n, i, hzero, ?_⟩
        rw [descend_keeps_entries _ _ _ (by rw [hstored]; decide), hstored]
    · -- the failure comes further along
      rw [if_neg hne]
      obtain ⟨hanswer, m, j, hempty, hstored⟩ := ih hlater
      refine ⟨hanswer, m, j, ?_, hstored⟩
      by_contra hthere
      have hkept := visit_keeps (ballocFor geo grpNo) f n i m j hthere
      rw [hkept] at hempty
      exact hthere hempty

/-! ## `writei` -/

/-- The loop loses none of the bytes it has counted. -/
theorem writeiLoop_le {src : Bytes} {off k tot t : Nat}
    (h : writeiLoop balloc served src off k tot f = some (f', t)) : tot ≤ t := by
  fun_induction writeiLoop balloc served src off k tot f with
  | case1 => cases h
  | case2 => exact Nat.le_of_eq (Prod.mk.inj (Option.some.inj h)).2
  | case3 off tot f hlt f₁ addr hrun hne hread m ih => exact (Nat.le_add_right tot m).trans (ih h)
  | case4 => exact Nat.le_of_eq (Prod.mk.inj (Option.some.inj h)).2
  | case5 => exact Nat.le_of_eq (Prod.mk.inj (Option.some.inj h)).2

/-- After an answer that is not 0 the loop goes on, if the device delivers that block. -/
theorem writeiLoop_counts {src : Bytes} {off k tot t b : Nat} {f₁ : File}
    (hrun : bmap balloc f (off / BLKSIZE % 2 ^ 32) = some (f₁, b)) (hb : b ≠ 0)
    (hread : served (b % 2 ^ 32) = true) (hlt : tot < k)
    (h : writeiLoop balloc served src off k tot f = some (f', t)) : tot < t := by
  have hmod : off % BLKSIZE < BLKSIZE := Nat.mod_lt off (by decide)
  rw [writeiLoop, if_pos hlt, hrun] at h
  dsimp only at h
  rw [if_neg hb, if_pos hread] at h
  have hle := writeiLoop_le h
  omega

/-- Wherever the disk turns out to be full during a call of `bmap`, the call answers a number that
    is not 0 and leaves 2^32 - 1 in an entry that was empty; what was mapped stays so, and if the
    device delivers anything for that number, `writei` counts bytes that are nowhere.  So the
    failure is never reported. -/
theorem bmap_disk_full (geo : Geometry) (grpNo : Nat) (f : File) (hn : blkNo < EXT2_TIND_LIMIT)
    (hdry : RunsDry geo grpNo f none (path blkNo)) :
    (∃ f' b, bmap (ballocFor geo grpNo) f blkNo = some (f', b) ∧ b ≠ 0 ∧
      (∃ n i, f.tree n i = 0 ∧ f'.tree n i = 2 ^ 32 - 1) ∧
      (∀ m d, mapped f m = some d → mapped f' m = some d) ∧
      ∀ served src off n tot f'' t, off / BLKSIZE % 2 ^ 32 = blkNo → tot < n →
        served (b % 2 ^ 32) = true →
        writeiLoop (ballocFor geo grpNo) served src off n tot f = some (f'', t) → tot < t) ∧
    ∀ f', ¬ ReportsFull geo grpNo f blkNo f' := by
  obtain ⟨hne, hstored⟩ := hdry.descend
  have hrun : bmap (ballocFor geo grpNo) f blkNo
      = some (descend (ballocFor geo grpNo) f none (path blkNo)) := bmap_eq_descend hn
  constructor
  · refine ⟨_, _, hrun, hne, hstored, fun m d hm => ?_, ?_⟩
    · exact (descend_keeps_entries (ballocFor geo grpNo)).walk hm
    · rintro served src off n tot f'' t rfl hlt hread hloop
      exact writeiLoop_counts hrun hne hread hlt hloop
  · intro f' hreport
    have hanswer := hreport.answer
    rw [hrun] at hanswer
    exact hne (Prod.mk.inj (Option.some.inj hanswer)).2

/-- An empty file on a disk without a free block. -/
def fullDisk : File where
  ino := ⟨fun _ => 0, 0⟩
  bitmaps _ _ := 255
  data _ _ := 0

theorem noFreeBit_fullDisk : NoFreeBit oneGroup fullDisk.bitmaps 0 := by
  have hones : ∀ j < 8, (255 : UInt8).toBitVec.getLsbD j = true := by decide
  have hfull : ∀ g, Full fullDisk.bitmaps g := fun g i _ => hones (i % 8) (Nat.mod_lt i (by decide))
  exact ⟨hfull 0, fun g _ => hfull g⟩

theorem runsDry_fullDisk : RunsDry oneGroup 0 fullDisk none (path 0) :=
  Or.inl ⟨rfl, noFreeBit_fullDisk⟩

/-- The first block of the file. -/
theorem bmap_disk_full_first : ¬ ∃ f', ReportsFull oneGroup 0 fullDisk 0 f' := fun ⟨f', h⟩ =>
  (bmap_disk_full oneGroup 0 fullDisk (by decide) runsDry_fullDisk).2 f' h

/-- `bmap` answers 2^64 - 1 for it. -/
theorem bmap_stores_failure : RunsDry oneGroup 0 fullDisk none (path 0) ∧
    ¬ (∃ f', ReportsFull oneGroup 0 fullDisk 0 f') ∧
    (bmap (ballocFor oneGroup 0) fullDisk 0).map (·.2) = some (2 ^ 64 - 1) := by
  have hrun : bmap (ballocFor oneGroup 0) fullDisk 0
      = some ((fullDisk.taken (ballocFor oneGroup 0)).put none 0 (u64 (-1)), 2 ^ 64 - 1) := by
    have hminus : u64 (-1) ≠ 0 := by decide
    have hvisit : visit (ballocFor oneGroup 0) fullDisk none 0
        = ((fullDisk.taken (ballocFor oneGroup 0)).put none 0 (u64 (-1)), u64 (-1)) := by
      have hzero : fullDisk.tree (readNode none) 0 = 0 := rfl
      rw [visit_alloc _ hzero, noFreeBit_fullDisk.fails, if_neg hminus]
      rfl
    have hdir : 0 < EXT2_NDIR_BLOCKS := by decide
    rw [bmap, if_pos (by decide), if_pos hdir]
    exact congrArg some hvisit
  refine ⟨runsDry_fullDisk, ?_, ?_⟩
  · rintro ⟨f', hreport⟩
    have hanswer := hreport.answer
    rw [hrun] at hanswer
    exact absurd (Prod.mk.inj (Option.some.inj hanswer)).2 (by decide)
  · rw [hrun]
    rfl

end Uniks.Bmap
