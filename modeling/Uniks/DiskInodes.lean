/-
  Inode numbers on the disk: `ialloc`, `ifree`, `iupdate` and the reading of `ilock` in
  `fs/ext2fs.c`.

  Numbers start at 1, and the inode `n` is number `(n - 1) % s_inodes_per_group` of the group
  `(n - 1) / s_inodes_per_group`.  `ialloc` counts this way, and so does `EXT2_IBLOCK_NO`, by which
  the record of an inode is found: two inodes never share a record (`slot_injective`).  `ifree`
  takes the place in the group from `n - 1` and the group from `n`.  For the last inode of a group
  that is the group behind it: the bit stays set in its own group, and the bit of another inode is
  cleared.
-/
import Uniks.BlockBitmap

namespace Uniks.DiskInodes

open Uniks.ByteMem Uniks.Bits Uniks.BlockBitmap
open Function (update update_idem update_self update_of_ne update_eq_self)

/-- What a group descriptor says about inodes. -/
structure GroupDesc where
  bgInodeBitmap : Nat
  bgInodeTable : Nat

/-- What the super block and the group descriptors say about inodes.  The table of descriptors
    goes on behind the last group. -/
structure Super where
  sInodesPerGroup : Nat
  /-- The source's `EXT2_GRP_NUM`. -/
  grpNum : Nat
  groupDescs : Nat → GroupDesc

/-- The source's `s_inodes_count`: all groups are full. -/
def Super.sInodesCount (sb : Super) : Nat := sb.grpNum * sb.sInodesPerGroup

/-- The contents of the blocks, in the block cache. -/
abbrev Disk := Nat → Bytes

/-- The size of `ext2_inode_t`. -/
abbrev sizeofInode : Nat := 128

/-- The source's `IPB`. -/
abbrev IPB : Nat := BLKSIZE / sizeofInode

/-- The source's `EXT2_IOFFSET_OFGRP`. -/
def ioffsetOfgrp (sb : Super) (iNo : Nat) : Nat := (iNo + 2 ^ 32 - 1) % 2 ^ 32 % sb.sInodesPerGroup

/-- The source's `EXT2_IBLOCK_NO`. -/
def iblockNo (sb : Super) (iNo : Nat) : Nat :=
  (sb.groupDescs ((iNo + 2 ^ 32 - 1) % 2 ^ 32 / sb.sInodesPerGroup)).bgInodeTable
    + ioffsetOfgrp sb iNo / IPB

/-- The group of an inode. -/
def groupOf (sb : Super) (n : Nat) : Nat := (n - 1) / sb.sInodesPerGroup

/-- The number of an inode within its group. -/
def offsetOf (sb : Super) (n : Nat) : Nat := (n - 1) % sb.sInodesPerGroup

/-! ## The inode bitmaps -/

/-- The loop of `ialloc`, with `left` groups to come. -/
def iallocLoop (sb : Super) (disk : Disk) : Nat → Nat → Nat → Option (Disk × Nat)
  | 0, _, _ => none
  | left + 1, gIdx, inum =>
    match takeBit disk (sb.groupDescs gIdx).bgInodeBitmap with
    | some (disk, freeno) => some (disk, (inum + freeno + 1) % 2 ^ 32)
    | none => iallocLoop sb disk left (gIdx + 1) (inum + sb.sInodesPerGroup)

/-- The source's `ialloc`, up to the number for which it calls `iget`. -/
def ialloc (sb : Super) (disk : Disk) : Option (Disk × Nat) := iallocLoop sb disk sb.grpNum 0 0

/-- The group in which `ifree` clears a bit. -/
def ifreeGroup (sb : Super) (iNo : Nat) : Nat := iNo / sb.sInodesPerGroup

/-- The source's `ifree`. -/
def ifree (sb : Super) (disk : Disk) (iNo : Nat) : Disk :=
  let gIdx := ifreeGroup sb iNo
  let iOffset := ioffsetOfgrp sb iNo
  let blk := (sb.groupDescs gIdx).bgInodeBitmap
  update disk blk (clearBit (disk blk) iOffset)

/-- The bits of the inode bitmap of a group. -/
def inodeBit (sb : Super) (disk : Disk) (g i : Nat) : Bool :=
  bit (disk (sb.groupDescs g).bgInodeBitmap) i

/-- A group has inodes, an inode number has 32 bits, and each group has a bitmap of its own. -/
structure WellFormed (sb : Super) : Prop where
  pos : 0 < sb.sInodesPerGroup
  small : sb.sInodesCount < 2 ^ 32
  bitmaps : ∀ g h, g < sb.grpNum → h < sb.grpNum →
    (sb.groupDescs g).bgInodeBitmap = (sb.groupDescs h).bgInodeBitmap → g = h

/-- The bits behind the last inode of each group are set. -/
def Padded (sb : Super) (disk : Disk) : Prop :=
  ∀ g i, g < sb.grpNum → sb.sInodesPerGroup ≤ i → i < 8 * BLKSIZE → inodeBit sb disk g i = true

/-- The inode bitmaps differ in one bit, that of the inode `n`. -/
def DifferAt (sb : Super) (disk disk' : Disk) (n : Nat) : Prop :=
  ∀ g i, g < sb.grpNum →
    (inodeBit sb disk' g i ≠ inodeBit sb disk g i ↔ g = groupOf sb n ∧ i = offsetOf sb n)

/-- When `ialloc` hands out `n`, it changes the bit of `n`; `ifree` changes the same bit, and then
    all bitmaps are as they were. -/
def RoundTrips (sb : Super) (n : Nat) : Prop :=
  ∀ disk disk', Padded sb disk → ialloc sb disk = some (disk', n) →
    DifferAt sb disk disk' n ∧ DifferAt sb disk' (ifree sb disk' n) n ∧
      ∀ g, g < sb.grpNum → ifree sb disk' n (sb.groupDescs g).bgInodeBitmap
        = disk (sb.groupDescs g).bgInodeBitmap

/-- `ifree` looks for the bit of `n` where it is. -/
def FreesOwnBit (sb : Super) (n : Nat) : Prop :=
  ifreeGroup sb n = groupOf sb n ∧ ioffsetOfgrp sb n = offsetOf sb n

variable {sb : Super} {disk disk' : Disk} {n : Nat}

/-- The subtraction in the macros does not wrap around. -/
theorem pred_mod (hn : 1 ≤ n) (hlt : n < 2 ^ 32) : (n + 2 ^ 32 - 1) % 2 ^ 32 = n - 1 := by omega

theorem ioffsetOfgrp_eq (hn : 1 ≤ n) (hlt : n < 2 ^ 32) : ioffsetOfgrp sb n = offsetOf sb n := by
  rw [ioffsetOfgrp, pred_mod hn hlt, offsetOf]

theorem groupOf_lt (hn : 1 ≤ n) (hcount : n ≤ sb.sInodesCount) : groupOf sb n < sb.grpNum := by
  rw [Super.sInodesCount] at hcount
  exact Nat.div_lt_of_lt_mul (by rw [Nat.mul_comm]; omega)

/-- The two groups differ for the last inode of a group, and only there. -/
theorem ifreeGroup_eq_iff (hn : 1 ≤ n) :
    ifreeGroup sb n = groupOf sb n ↔ n % sb.sInodesPerGroup ≠ 0 := by
  obtain ⟨m, rfl⟩ : ∃ m, n = m + 1 := ⟨n - 1, by omega⟩
  rw [ifreeGroup, groupOf, Nat.add_sub_cancel, Nat.succ_div]
  split
  · rename_i hdvd
    have hmod := Nat.mod_eq_zero_of_dvd hdvd
    constructor
    · intro heq
      omega
    · intro hne
      exact absurd hmod hne
  · rename_i hdvd
    exact ⟨fun _ hmod => hdvd (Nat.dvd_of_mod_eq_zero hmod), fun _ => rfl⟩

/-- What `ialloc` does when it finds an inode: it sets a bit that was clear, and the number is that
    of the bit. -/
theorem iallocLoop_some {left gIdx inum : Nat} (hinum : inum = gIdx * sb.sInodesPerGroup)
    (h : iallocLoop sb disk left gIdx inum = some (disk', n)) :
    ∃ g i, gIdx ≤ g ∧ g < gIdx + left ∧ i < 8 * BLKSIZE ∧ inodeBit sb disk g i = false ∧
      n = (g * sb.sInodesPerGroup + i + 1) % 2 ^ 32 ∧
      disk' = update disk (sb.groupDescs g).bgInodeBitmap
        (setBit (disk (sb.groupDescs g).bgInodeBitmap) i) := by
  induction left generalizing gIdx inum with
  | zero => cases h
  | succ left ih =>
    rw [iallocLoop] at h
    cases htake : takeBit disk (sb.groupDescs gIdx).bgInodeBitmap with
    | some r =>
      obtain ⟨disk₁, i⟩ := r
      rw [htake] at h
      cases h
      obtain ⟨hi, hclear, hdisk⟩ := takeBit_some htake
      exact ⟨gIdx, i, Nat.le_refl gIdx, by omega, hi, hclear, by rw [hinum], hdisk⟩
    | none =>
      rw [htake] at h
      have hnext : inum + sb.sInodesPerGroup = (gIdx + 1) * sb.sInodesPerGroup := by
        rw [hinum, Nat.add_mul, Nat.one_mul]
      obtain ⟨g, i, hlow, hhigh, hrest⟩ := ih hnext h
      exact ⟨g, i, by omega, by omega, hrest⟩

/-- The number that `ialloc` hands out is that of the bit it has set. -/
theorem ialloc_some (h : WellFormed sb) (hpad : Padded sb disk)
    (hrun : ialloc sb disk = some (disk', n)) :
    groupOf sb n < sb.grpNum ∧ inodeBit sb disk (groupOf sb n) (offsetOf sb n) = false ∧
      disk' = update disk (sb.groupDescs (groupOf sb n)).bgInodeBitmap
        (setBit (disk (sb.groupDescs (groupOf sb n)).bgInodeBitmap) (offsetOf sb n)) := by
  obtain ⟨g, i, -, hg, hi, hclear, hnum, hdisk⟩ := iallocLoop_some (by rw [Nat.zero_mul]) hrun
  have hg : g < sb.grpNum := by omega
  -- a clear bit is that of an inode
  have hipg : i < sb.sInodesPerGroup := by
    by_contra hge
    rw [hpad g i hg (by omega) hi] at hclear
    cases hclear
  have hcount : g * sb.sInodesPerGroup + i < sb.sInodesCount := by
    have hmul : (g + 1) * sb.sInodesPerGroup ≤ sb.grpNum * sb.sInodesPerGroup :=
      Nat.mul_le_mul_right _ hg
    rw [Nat.add_mul, Nat.one_mul] at hmul
    rw [Super.sInodesCount]
    omega
  have hsmall := h.small
  rw [Nat.mod_eq_of_lt (by omega)] at hnum
  have hpred : n - 1 = sb.sInodesPerGroup * g + i := by
    rw [hnum, Nat.add_sub_cancel, Nat.mul_comm]
  have hgroup : groupOf sb n = g := by
    rw [groupOf, hpred, Nat.mul_add_div h.pos, Nat.div_eq_of_lt hipg, Nat.add_zero]
  have hoffset : offsetOf sb n = i := by
    rw [offsetOf, hpred, Nat.mul_add_mod, Nat.mod_eq_of_lt hipg]
  rw [hgroup, hoffset]
  exact ⟨hg, hclear, hdisk⟩

/-- Setting the bit of an inode changes this bit and no other one. -/
theorem differAt_set (h : WellFormed sb) (hg : groupOf sb n < sb.grpNum)
    (hclear : inodeBit sb disk (groupOf sb n) (offsetOf sb n) = false)
    (hdisk : disk' = update disk (sb.groupDescs (groupOf sb n)).bgInodeBitmap
      (setBit (disk (sb.groupDescs (groupOf sb n)).bgInodeBitmap) (offsetOf sb n))) :
    DifferAt sb disk disk' n := by
  intro g i hlt
  unfold inodeBit
  rw [hdisk, bit_take]
  by_cases hhere : g = groupOf sb n ∧ i = offsetOf sb n
  · obtain ⟨rfl, rfl⟩ := hhere
    have hold : bit (disk (sb.groupDescs (groupOf sb n)).bgInodeBitmap) (offsetOf sb n) = false :=
      hclear
    simp [hold]
  · have hblk : ¬ ((sb.groupDescs g).bgInodeBitmap = (sb.groupDescs (groupOf sb n)).bgInodeBitmap ∧
        i = offsetOf sb n) := by
      rintro ⟨heq, hi⟩
      exact hhere ⟨h.bitmaps _ _ hlt hg heq, hi⟩
    rw [decide_eq_false hblk, Bool.false_or]
    exact ⟨fun hne => absurd rfl hne, fun hand => absurd hand hhere⟩

/-- Where `ifree` looks for the bit in the right group, it undoes `ialloc`. -/
theorem ifree_ialloc (h : WellFormed sb) (hn : 1 ≤ n) (hcount : n ≤ sb.sInodesCount)
    (hmod : n % sb.sInodesPerGroup ≠ 0)
    (hclear : inodeBit sb disk (groupOf sb n) (offsetOf sb n) = false)
    (hdisk : disk' = update disk (sb.groupDescs (groupOf sb n)).bgInodeBitmap
      (setBit (disk (sb.groupDescs (groupOf sb n)).bgInodeBitmap) (offsetOf sb n))) :
    ifree sb disk' n = disk := by
  have hsmall := h.small
  unfold ifree
  dsimp only
  rw [(ifreeGroup_eq_iff hn).mpr hmod, ioffsetOfgrp_eq hn (by omega), hdisk,
    update_self, clearBit_setBit hclear, update_idem]
  exact update_eq_self _ disk

/-- For an inode number of the disk, `ifree` undoes `ialloc`, and looks for the bit where it is,
    exactly when the inode is not the last one of its group. -/
theorem inode_bitmap_round_trip (h : WellFormed sb) (hn : 1 ≤ n) (hcount : n ≤ sb.sInodesCount) :
    RoundTrips sb n ∧ FreesOwnBit sb n ↔ n % sb.sInodesPerGroup ≠ 0 := by
  have hsmall := h.small
  constructor
  · rintro ⟨-, hgroup, -⟩
    exact (ifreeGroup_eq_iff hn).mp hgroup
  · intro hmod
    refine ⟨?_, (ifreeGroup_eq_iff hn).mpr hmod, ioffsetOfgrp_eq hn (by omega)⟩
    intro disk disk' hpad hrun
    obtain ⟨hg, hclear, hdisk⟩ := ialloc_some h hpad hrun
    have hdiffer := differAt_set h hg hclear hdisk
    have hback := ifree_ialloc h hn hcount hmod hclear hdisk
    rw [hback]
    refine ⟨hdiffer, ?_, fun g _ => rfl⟩
    intro g i hlt
    rw [← hdiffer g i hlt]
    exact ne_comm

/-- Two groups of eight inodes each. -/
def twoGroups : Super where
  sInodesPerGroup := 8
  grpNum := 2
  groupDescs g := { bgInodeBitmap := 10 + g, bgInodeTable := 20 + g }

theorem twoGroups_wellFormed : WellFormed twoGroups where
  pos := by decide
  small := by decide
  bitmaps := by
    intro g h _ _ heq
    have heq : 10 + g = 10 + h := heq
    omega

/-- The bitmap of the first group begins with a byte; every other bit is set. -/
def beginsWith (byte : UInt8) : Disk := fun b k => if b = 10 ∧ k = 0 then byte else 255

theorem beginsWith_padded (byte : UInt8) : Padded twoGroups (beginsWith byte) := by
  intro g i hg hlow _
  have hbyte : beginsWith byte (twoGroups.groupDescs g).bgInodeBitmap (i / 8) = 255 := by
    have hlow : 8 ≤ i := hlow
    exact if_neg (by omega)
  have hlt : i % 8 < 8 := Nat.mod_lt i (by decide)
  have hones : ∀ j < 8, (255 : UInt8).toBitVec.getLsbD j = true := by decide
  rw [inodeBit, bit, hbyte]
  exact hones (i % 8) hlt

/-- What `ialloc` hands out in the first group. -/
theorem ialloc_beginsWith {byte : UInt8} {i : Nat} (hlt : i < 8)
    (hsearch : searchFreeBit (beginsWith byte 10) BLKSIZE = i) :
    ialloc twoGroups (beginsWith byte)
      = some (update (beginsWith byte) 10 (setBit (beginsWith byte 10) i), i + 1) := by
  have htake : takeBit (beginsWith byte) 10
      = some (update (beginsWith byte) 10 (setBit (beginsWith byte 10) i), i) := by
    rw [takeBit, hsearch]
    exact if_pos (by omega)
  have hblk : (twoGroups.groupDescs 0).bgInodeBitmap = 10 := rfl
  have hno : (0 + i + 1) % 2 ^ 32 = i + 1 := by omega
  show iallocLoop twoGroups (beginsWith byte) (1 + 1) 0 0 = _
  rw [iallocLoop, hblk, htake]
  show some (_, (0 + i + 1) % 2 ^ 32) = _
  rw [hno]

/-- The inode 7 is handed out with its own bit, and `ifree` clears that bit again. -/
theorem inode_bitmap_round_trip_seven : ∃ disk',
    ialloc twoGroups (beginsWith 63) = some (disk', 7) ∧
    DifferAt twoGroups (beginsWith 63) disk' 7 ∧
    ifree twoGroups disk' 7 10 = beginsWith 63 10 ∧ FreesOwnBit twoGroups 7 := by
  obtain ⟨htrip, hown⟩ :=
    (inode_bitmap_round_trip twoGroups_wellFormed (n := 7) (by decide) (by decide)).mpr (by decide)
  have hrun := ialloc_beginsWith (show 6 < 8 by decide)
    (show searchFreeBit (beginsWith 63 10) BLKSIZE = 6 by decide)
  obtain ⟨hdiffer, -, hback⟩ := htrip _ _ (beginsWith_padded 63) hrun
  exact ⟨_, hrun, hdiffer, hback 0 (by decide), hown⟩

/-- `ialloc` hands out the inode 8, and `ifree` leaves its bit set. -/
theorem inode_bitmap_stays_set : ¬ ∀ sb, WellFormed sb → ∀ n, 1 ≤ n → n ≤ sb.sInodesCount →
    RoundTrips sb n ∧ FreesOwnBit sb n := by
  intro hall
  obtain ⟨htrip, -⟩ := hall twoGroups twoGroups_wellFormed 8 (by decide) (by decide)
  -- all inodes of the first group are in use but the last one
  have hrun := ialloc_beginsWith (show 7 < 8 by decide)
    (show searchFreeBit (beginsWith 127 10) BLKSIZE = 7 by decide)
  obtain ⟨-, -, hback⟩ := htrip _ _ (beginsWith_padded 127) hrun
  have hbit := congrArg (fun b => bit b 7) (hback 0 (by decide))
  exact absurd hbit (by decide)

/-! ## The inode tables -/

/-- An inode in memory, as far as its record on the disk goes. -/
structure MInode where
  dInodeCtnt : Bytes
  iNo : Nat
  iValid : Bool

/-- The contents of the blocks, and the buffers whose mutex is held. -/
structure Cache where
  disk : Disk
  held : Nat → Bool

/-- The contents that the source's `blk_read` finds.  There is no result when the buffer is not
    given back. -/
def blkRead (c : Cache) (blockno : Nat) : Option Bytes :=
  if c.held blockno then none else some (c.disk blockno)

/-- The block of a record, as `blk_read` gets its number: with 32 bits. -/
def recordBlk (sb : Super) (iNo : Nat) : Nat := iblockNo sb iNo % 2 ^ 32

/-- The place of a record in its block. -/
def recordPos (sb : Super) (iNo : Nat) : Nat := ioffsetOfgrp sb iNo % IPB * sizeofInode

/-- The source's `iupdate`.  The buffer is given back when the block is only marked as dirty; it is
    kept when the block is written through. -/
def iupdate (sb : Super) (c : Cache) (ip : MInode) (wthrough : Bool) : Option Cache := do
  if ip.iValid then
    let data ← blkRead c (recordBlk sb ip.iNo)
    let blk := recordBlk sb ip.iNo
    let data := splice data (recordPos sb ip.iNo) sizeofInode ip.dInodeCtnt
    return { disk := update c.disk blk data, held := update c.held blk wthrough }
  else none

/-- What the source's `ilock` does when it has the mutex of the inode. -/
def ilock (sb : Super) (c : Cache) (ip : MInode) : Option MInode :=
  if ip.iValid then some ip
  else do
    let data ← blkRead c (recordBlk sb ip.iNo)
    let tarIp : Bytes := fun k => data (recordPos sb ip.iNo + k)
    return { ip with dInodeCtnt := splice ip.dInodeCtnt 0 sizeofInode tarIp, iValid := true }

/-- The record of an inode on the disk. -/
def record (sb : Super) (disk : Disk) (n k : Nat) : UInt8 :=
  disk (recordBlk sb n) (recordPos sb n + k)

/-- The blocks of the inode table of a group. -/
def InTable (sb : Super) (g b : Nat) : Prop :=
  ∃ j, j < sb.sInodesPerGroup / IPB ∧ b = ((sb.groupDescs g).bgInodeTable + j) % 2 ^ 32

/-- The tables are whole blocks, and no two of them have a block in common. -/
structure Tables (sb : Super) : Prop where
  pos : 0 < sb.sInodesPerGroup
  whole : IPB ∣ sb.sInodesPerGroup
  small : sb.sInodesCount < 2 ^ 32
  disjoint : ∀ g h b, g < sb.grpNum → h < sb.grpNum → InTable sb g b → InTable sb h b → g = h

variable {c c' : Cache} {ip ip' : MInode} {m : Nat} {wthrough : Bool}

theorem recordBlk_eq (hn : 1 ≤ n) (hlt : n < 2 ^ 32) : recordBlk sb n
    = ((sb.groupDescs (groupOf sb n)).bgInodeTable + offsetOf sb n / IPB) % 2 ^ 32 := by
  rw [recordBlk, iblockNo, ioffsetOfgrp_eq hn hlt, pred_mod hn hlt, groupOf]

theorem recordPos_eq (hn : 1 ≤ n) (hlt : n < 2 ^ 32) :
    recordPos sb n = offsetOf sb n % IPB * sizeofInode := by
  rw [recordPos, ioffsetOfgrp_eq hn hlt]

/-- The block of a record is a block of the table of its group. -/
theorem Tables.inTable (h : Tables sb) (hn : 1 ≤ n) (hcount : n ≤ sb.sInodesCount) :
    InTable sb (groupOf sb n) (recordBlk sb n) := by
  have hsmall := h.small
  have hoff : offsetOf sb n < sb.sInodesPerGroup := Nat.mod_lt _ h.pos
  refine ⟨offsetOf sb n / IPB, ?_, recordBlk_eq hn (by omega)⟩
  obtain ⟨q, hq⟩ := h.whole
  rw [hq] at hoff ⊢
  rw [Nat.mul_div_cancel_left q (by decide)]
  exact Nat.div_lt_of_lt_mul hoff

/-- Two inodes whose records begin at the same place of the same block are one. -/
theorem Tables.slot_injective (h : Tables sb) (hn : 1 ≤ n) (hn' : n ≤ sb.sInodesCount)
    (hm : 1 ≤ m) (hm' : m ≤ sb.sInodesCount) (hblk : recordBlk sb m = recordBlk sb n)
    (hslot : offsetOf sb m % IPB = offsetOf sb n % IPB) : m = n := by
  have hsmall := h.small
  have hgroupM := groupOf_lt hm hm'
  have htable := h.inTable hm hm'
  rw [hblk] at htable
  have hgroup : groupOf sb m = groupOf sb n :=
    h.disjoint _ _ _ hgroupM (groupOf_lt hn hn') htable (h.inTable hn hn')
  have hsmallM : m < 2 ^ 32 := by omega
  have hsmallN : n < 2 ^ 32 := by omega
  rw [recordBlk_eq hm hsmallM, recordBlk_eq hn hsmallN, hgroup] at hblk
  have hle : sb.sInodesPerGroup ≤ sb.sInodesCount :=
    Nat.le_mul_of_pos_left sb.sInodesPerGroup (Nat.zero_lt_of_lt hgroupM)
  have hoffM : offsetOf sb m < sb.sInodesPerGroup := Nat.mod_lt _ h.pos
  have hoffN : offsetOf sb n < sb.sInodesPerGroup := Nat.mod_lt _ h.pos
  have hoffset : offsetOf sb m = offsetOf sb n := by
    have hipb : IPB = 32 := rfl
    rw [hipb] at hblk hslot
    omega
  have hpred : m - 1 = n - 1 := by
    calc m - 1 = sb.sInodesPerGroup * groupOf sb m + offsetOf sb m := (Nat.div_add_mod _ _).symm
      _ = sb.sInodesPerGroup * groupOf sb n + offsetOf sb n := by rw [hgroup, hoffset]
      _ = n - 1 := Nat.div_add_mod _ _
  omega

/-- The cache after `iupdate`. -/
def stored (sb : Super) (c : Cache) (ip : MInode) (wthrough : Bool) : Cache where
  disk := update c.disk (recordBlk sb ip.iNo)
    (splice (c.disk (recordBlk sb ip.iNo)) (recordPos sb ip.iNo) sizeofInode ip.dInodeCtnt)
  held := update c.held (recordBlk sb ip.iNo) wthrough

theorem iupdate_eq (hvalid : ip.iValid = true) (hfree : c.held (recordBlk sb ip.iNo) = false) :
    iupdate sb c ip wthrough = some (stored sb c ip wthrough) := by
  simp [iupdate, blkRead, hvalid, hfree, stored]

/-- The record of the inode holds what it has in memory. -/
theorem record_self {k : Nat} (hk : k < sizeofInode) :
    record sb (stored sb c ip wthrough).disk ip.iNo k = ip.dInodeCtnt k := by
  rw [record, stored]
  dsimp only
  rw [update_self, splice_add hk]

/-- The record of another inode is as before. -/
theorem Tables.record_other (h : Tables sb) (hn : 1 ≤ ip.iNo) (hn' : ip.iNo ≤ sb.sInodesCount)
    (hm : 1 ≤ m) (hm' : m ≤ sb.sInodesCount) (hne : m ≠ ip.iNo) {k : Nat} (hk : k < sizeofInode) :
    record sb (stored sb c ip wthrough).disk m k = record sb c.disk m k := by
  have hsmall := h.small
  rw [record, stored]
  dsimp only
  by_cases hblk : recordBlk sb m = recordBlk sb ip.iNo
  · have hslot : offsetOf sb m % IPB ≠ offsetOf sb ip.iNo % IPB :=
      fun heq => hne (h.slot_injective hn hn' hm hm' hblk heq)
    rw [record, hblk, update_self, splice_of_not_mem]
    rw [recordPos_eq hm (by omega), recordPos_eq hn (by omega)]
    -- two different slots of a block have no byte in common
    have hsize : sizeofInode = 128 := rfl
    rw [hsize] at hk ⊢
    omega
  · rw [record, update_of_ne hblk]

/-- What `ilock` reads back when the buffer has been given back. -/
theorem ilock_stored {old : MInode} (hno : old.iNo = ip.iNo) (hinvalid : old.iValid = false) :
    ∃ ip', ilock sb (stored sb c ip false) old = some ip' ∧ ip'.iValid = true ∧
      ∀ k, k < sizeofInode → ip'.dInodeCtnt k = ip.dInodeCtnt k := by
  have hfree : (stored sb c ip false).held (recordBlk sb old.iNo) = false := by
    rw [hno]
    exact update_self _ _ _
  have hread : blkRead (stored sb c ip false) (recordBlk sb old.iNo)
      = some ((stored sb c ip false).disk (recordBlk sb old.iNo)) := by
    rw [blkRead, hfree]
    rfl
  have hrun : ilock sb (stored sb c ip false) old = some { old with
      dInodeCtnt := splice old.dInodeCtnt 0 sizeofInode fun k =>
        (stored sb c ip false).disk (recordBlk sb old.iNo) (recordPos sb old.iNo + k)
      iValid := true } := by
    rw [ilock, hinvalid, hread]
    rfl
  refine ⟨_, hrun, rfl, fun k hk => ?_⟩
  dsimp only
  rw [splice_of_mem (Nat.zero_le k) (by omega), Nat.sub_zero, hno]
  exact record_self hk

/-- For a valid inode of the disk whose block nobody holds: `iupdate` stores it; `ilock` then reads
    it back, unless the block has been written through and is still held; the records of all other
    inodes are as before, and so are all blocks that belong to no inode table. -/
theorem inode_slots_persist (h : Tables sb) (hn : 1 ≤ ip.iNo) (hn' : ip.iNo ≤ sb.sInodesCount)
    (hvalid : ip.iValid = true) (hfree : c.held (recordBlk sb ip.iNo) = false) :
    ∃ c', iupdate sb c ip wthrough = some c' ∧
      (∀ k, k < sizeofInode → record sb c'.disk ip.iNo k = ip.dInodeCtnt k) ∧
      (wthrough = false → ∀ old : MInode, old.iNo = ip.iNo → old.iValid = false →
        ∃ ip', ilock sb c' old = some ip' ∧ ip'.iValid = true ∧
          ∀ k, k < sizeofInode → ip'.dInodeCtnt k = ip.dInodeCtnt k) ∧
      (∀ m, 1 ≤ m → m ≤ sb.sInodesCount → m ≠ ip.iNo → ∀ k, k < sizeofInode →
        record sb c'.disk m k = record sb c.disk m k) ∧
      ∀ b, (∀ g, g < sb.grpNum → ¬ InTable sb g b) → c'.disk b = c.disk b := by
  refine ⟨stored sb c ip wthrough, iupdate_eq hvalid hfree, fun k hk => record_self hk, ?_,
    fun m hm hm' hne k hk => h.record_other hn hn' hm hm' hne hk, ?_⟩
  · rintro rfl old hno hinvalid
    exact ilock_stored hno hinvalid
  · intro b hb
    refine update_of_ne ?_ _ _
    rintro rfl
    exact hb _ (groupOf_lt hn hn') (h.inTable hn hn')

/-- Two groups of 64 inodes each, with tables of two blocks. -/
def twoTables : Super where
  sInodesPerGroup := 64
  grpNum := 2
  groupDescs g := { bgInodeBitmap := 10 + g, bgInodeTable := 20 + 2 * g }

theorem twoTables_tables : Tables twoTables where
  pos := by decide
  whole := by decide
  small := by decide
  disjoint := by
    rintro g h b hg hh ⟨i, hi, rfl⟩ ⟨j, hj, heq⟩
    have hi : i < 2 := hi
    have hj : j < 2 := hj
    have hg : g < 2 := hg
    have hh : h < 2 := hh
    have heq : (20 + 2 * g + i) % 2 ^ 32 = (20 + 2 * h + j) % 2 ^ 32 := heq
    omega

/-- The last inode of the first group is written to the disk, and a slot that has nothing yet reads
    it back; the first inode of the second group is as before. -/
theorem inode_slots_persist_last :
    let ip : MInode := { dInodeCtnt := fun k => UInt8.ofNat k, iNo := 64, iValid := true }
    let old : MInode := { dInodeCtnt := fun _ => 0, iNo := 64, iValid := false }
    let c : Cache := { disk := fun _ _ => 0, held := fun _ => false }
    ∃ c', iupdate twoTables c ip false = some c' ∧ record twoTables c'.disk 64 5 = 5 ∧
      (∃ ip', ilock twoTables c' old = some ip' ∧ ip'.iValid = true ∧ ip'.dInodeCtnt 5 = 5) ∧
      record twoTables c'.disk 65 5 = 0 := by
  intro ip old c
  have hstored : ∃ c', iupdate twoTables c ip false = some c' ∧ _ :=
    inode_slots_persist twoTables_tables (by decide) (by decide) rfl rfl
  obtain ⟨c', hrun, hself, hreload, hother, -⟩ := hstored
  obtain ⟨ip', hlock, hvalid, hread⟩ := hreload rfl old rfl rfl
  refine ⟨c', hrun, hself 5 (by decide), ⟨ip', hlock, hvalid, hread 5 (by decide)⟩, ?_⟩
  exact hother 65 (by decide) (by decide) (by decide) 5 (by decide)

end Uniks.DiskInodes
