/-
  What `i_blocks` counts, over any sequence of `writei` and `itruncate` (`fs/ext2fs.c`).

  A call that makes the file longer computes `i_blocks` anew from the new length, as one block more
  than the length has whole blocks; `bunmap` takes 8 off for each block it frees, of either kind.
  The first is the number of data and index blocks in two cases only: without an index block, when
  the last block is not full; with one, when it is (`CountsRight`).  From there on `bunmap` keeps
  the number right, down to 0 (`Sound`).

  A call that makes the file longer is to find the blocks it needs, and no old entries in the block
  that becomes the index block (`Stocked`).  The device delivers every block.
-/
import Uniks.FileContents

namespace Uniks.Bmap

open Uniks.ByteMem Uniks.BlockBitmap Uniks.EntryTree

/-- A call that changes the blocks of a file. -/
inductive Call where
  | writei (src : Bytes) (off n : Nat)
  | itruncate (length : Nat)

/-- The length that a call asks for. -/
def Call.stop : Call → Nat
  | .writei _ off n => off + n
  | .itruncate length => length

/-- The call does all that it is asked for. -/
def Succeeds (geo : Geometry) (balloc : Bitmaps → Bitmaps × Int) (s : SizedFile) :
    Call → SizedFile → Prop
  | .writei src off n, s' => writei balloc allServed s src off n = some (s', (n : Int))
  | .itruncate length, s' => Truncates balloc allServed geo s length s'

/-- `i_blocks` counts the data blocks and the index blocks, and is 0 for a file of length 0. -/
def Accounted (s : SizedFile) : Prop :=
  (∃ blocks : Finset Nat, (∀ b, b ∈ blocks ↔ Reached s.file b) ∧
    s.file.ino.iBlocks.toNat = BLKSIZE / SECTORSIZE * blocks.card) ∧
  (s.iSize = 0 → s.file.ino.iBlocks = 0)

/-- The lengths for which the formula of `writei` is right. -/
def CountsRight (length : Nat) : Prop :=
  length % BLKSIZE ≠ 0 ∧ length ≤ EXT2_NDIR_BLOCKS * BLKSIZE ∨
  length % BLKSIZE = 0 ∧ EXT2_NDIR_BLOCKS * BLKSIZE < length ∧ length ≤ EXT2_IND_LIMIT * BLKSIZE

/-- A call that makes the file longer ends at such a length, and finds the blocks it needs. -/
def Fine (geo : Geometry) (balloc : Bitmaps → Bitmaps × Int) (s : SizedFile) (c : Call) : Prop :=
  s.iSize.toNat < c.stop → CountsRight c.stop ∧
    Stocked geo balloc s.file (dataBlocks s.iSize.toNat) (dataBlocks c.stop)

/-- Calls that succeed one after another, and are fine. -/
def Runs (geo : Geometry) (balloc : Bitmaps → Bitmaps × Int) (s : SizedFile) :
    List Call → SizedFile → Prop
  | [], s' => s' = s
  | c :: cs, s' => ∃ s₁, Succeeds geo balloc s c s₁ ∧ Fine geo balloc s c ∧
      Runs geo balloc s₁ cs s'

/-- A file without blocks. -/
def Empty (s : SizedFile) : Prop :=
  s.iSize = 0 ∧ s.file.ino.iBlocks = 0 ∧ ∀ i < EXT2_N_BLOCKS, s.file.ino.iBlock i = 0

variable {geo : Geometry} {balloc : Bitmaps → Bitmaps × Int} {f f' : File} {s s' : SizedFile}
  {size last length : Nat}

/-! ## Lengths and blocks -/

/-- The formula of `writei`, against the blocks there are. -/
theorem CountsRight.allBlocks (h : CountsRight length) :
    length / BLKSIZE + 1 = Bmap.allBlocks (dataBlocks length) := by
  have hindex : EXT2_NDIR_BLOCKS < dataBlocks length ↔ 49152 < length := lt_dataBlocks
  rw [Bmap.allBlocks]
  simp only [CountsRight, EXT2_IND_LIMIT, EXT2_IND_PER_BLK, EXT2_NDIR_BLOCKS, BLKSIZE] at h
  by_cases hlong : 49152 < length
  · rw [if_pos (hindex.mpr hlong)]
    simp only [dataBlocks, BLKSIZE]
    omega
  · rw [if_neg fun hlt => hlong (hindex.mp hlt)]
    simp only [dataBlocks, BLKSIZE]
    omega

theorem CountsRight.le (h : CountsRight length) : length ≤ EXT2_IND_LIMIT * BLKSIZE := by
  simp only [CountsRight, EXT2_IND_LIMIT, EXT2_IND_PER_BLK, EXT2_NDIR_BLOCKS, BLKSIZE] at h ⊢
  omega

/-! ## Writing -/

/-- A file laid out to its length, with what it needs to grow to `last` blocks. -/
structure Ready (geo : Geometry) (balloc : Bitmaps → Bitmaps × Int) (last : Nat)
    (s : SizedFile) : Prop where
  laid : Laid geo s.file (dataBlocks s.iSize.toNat)
  stocked : Stocked geo balloc s.file (dataBlocks s.iSize.toNat) last

/-- `writei` writes everything, and counts the blocks by its formula if the file has become
    longer. -/
theorem writei_lays (src : Bytes) {off n : Nat} (h : Ready geo balloc last s)
    (hlast : last ≤ EXT2_IND_LIMIT) (hoff : off ≤ s.iSize.toNat) (hn : 0 < n)
    (hend : dataBlocks (off + n) ≤ last) :
    ∃ s', writei balloc allServed s src off n = some (s', (n : Int)) ∧ Ready geo balloc last s' ∧
      s'.iSize.toNat = max s.iSize.toNat (off + n) ∧
      s'.file.ino.iBlocks.toNat = if s.iSize.toNat < off + n then 8 * ((off + n) / BLKSIZE + 1)
        else s.file.ino.iBlocks.toNat := by
  have hbound : off + n ≤ EXT2_IND_LIMIT * BLKSIZE := by
    rw [Nat.mul_comm]
    exact dataBlocks_le.mp (hend.trans hlast)
  have hstart : off ≤ BLKSIZE * dataBlocks s.iSize.toNat :=
    hoff.trans (dataBlocks_le.mp (Nat.le_refl _))
  obtain ⟨f', tot, size, hloop, -, -, hwrote, hall, hlays⟩ := writeiLoop_wrote allServed src h.laid
    h.stocked hlast hstart (Nat.zero_le n) (by rw [Nat.sub_zero]; exact hend)
  obtain rfl := hall rfl
  obtain ⟨s', hrun, hsize, htree, hbits, hdata, hcount⟩ :=
    writei_of_loop hoff hbound (Nat.le_refl _) hloop
  have hblocks : size = dataBlocks s'.iSize.toNat := by
    rw [hlays rfl, hsize, Nat.sub_zero, dataBlocks_max]
  obtain rfl := hblocks
  rw [if_pos (Nat.ne_of_gt hn)] at hrun
  rw [hwrote.count] at hcount
  exact ⟨s', hrun, ⟨hwrote.laid.congr hbits fun q _ => by rw [htree],
    hwrote.stocked.congr hbits hdata⟩, hsize, hcount⟩

/-! ## Making a file longer -/

/-- The loop that makes a file longer. -/
def Growing (geo : Geometry) (balloc : Bitmaps → Bitmaps × Int) (start length : Nat) :
    Grow SizedFile → Prop
  | .looping s off => Ready geo balloc (dataBlocks length) s ∧ s.iSize.toNat = off ∧
      off ≤ length ∧ (start < off → s.file.ino.iBlocks.toNat = 8 * (off / BLKSIZE + 1))
  | .returned s _ => Ready geo balloc (dataBlocks length) s ∧ s.iSize.toNat = length ∧
      s.file.ino.iBlocks.toNat = 8 * (length / BLKSIZE + 1)
  | .panicked => False

theorem growStep_growing {start : Nat} (hlength : length ≤ EXT2_IND_LIMIT * BLKSIZE)
    (hstart : start < length) {g : Grow SizedFile} (h : Growing geo balloc start length g) :
    Growing geo balloc start length (growStep (fun s off n => writei balloc allServed s zeroBlk off n)
      SizedFile.setSize length g) := by
  cases g with
  | returned s ret => exact h
  | panicked => exact h
  | looping s off =>
    obtain ⟨hready, hsize, hle, hcount⟩ := h
    have hlast : dataBlocks length ≤ EXT2_IND_LIMIT :=
      dataBlocks_le.mpr (by rw [Nat.mul_comm]; exact hlength)
    simp only [EXT2_IND_LIMIT, EXT2_IND_PER_BLK, EXT2_NDIR_BLOCKS, BLKSIZE] at hlength
    rw [growStep]
    by_cases hlt : off < length
    · rw [if_pos hlt]
      -- a piece of the length that is left
      have hleft : (length + 2 ^ 64 - off) % 2 ^ 64 = length - off := by omega
      rw [hleft, minBlksize_eq (by omega)]
      generalize hm : min BLKSIZE (length - off) = m
      have hblk : BLKSIZE = 4096 := rfl
      obtain ⟨s', hwrite, hready', hsize', hcount'⟩ := writei_lays zeroBlk hready hlast
        (Nat.le_of_eq hsize.symm) (show 0 < m by omega) (dataBlocks_mono (by omega))
      have hres : u64 (m : Int) = m := by
        show ((m : Int) % 2 ^ 64).toNat = m
        omega
      have hoff : (off + m) % 2 ^ 64 = off + m := by omega
      rw [hwrite]
      dsimp only
      rw [hres, if_pos (by omega), hoff]
      rw [if_pos (by omega)] at hcount'
      exact ⟨hready', by omega, by omega, fun _ => hcount'⟩
    · have heq : off = length := by omega
      subst heq
      rw [if_neg hlt, if_pos rfl]
      have hsame : (s.setSize off).iSize.toNat = off := UInt32.toNat_ofNat_of_lt' (by
        show off < 2 ^ 32
        omega)
      obtain ⟨hlaid, hstocked⟩ := hready
      rw [hsize] at hlaid hstocked
      refine ⟨⟨?_, ?_⟩, hsame, hcount hstart⟩
      · rw [hsame]
        exact hlaid
      · rw [hsame]
        exact hstocked

/-- After any number of rounds. -/
theorem iterate_growing {start : Nat} (hlength : length ≤ EXT2_IND_LIMIT * BLKSIZE)
    (hstart : start < length) (rounds : Nat) {g : Grow SizedFile}
    (h : Growing geo balloc start length g) :
    Growing geo balloc start length ((growStep (fun s off n => writei balloc allServed s zeroBlk off n)
      SizedFile.setSize length)^[rounds] g) := by
  induction rounds generalizing g with
  | zero => exact h
  | succ rounds ih =>
    rw [Function.iterate_succ_apply]
    exact ih (growStep_growing hlength hstart h)

/-! ## Making a file shorter -/

/-- `bunmap` takes one block after another, down to the length. -/
theorem shrinkLoop_lays {low i : Nat} (h : Laid geo f (dataBlocks i))
    (hi : dataBlocks i ≤ EXT2_IND_LIMIT)
    (hcount : f.ino.iBlocks.toNat = 8 * allBlocks (dataBlocks i)) (hlow : low ≤ dataBlocks i) :
    ∃ f', shrinkLoop geo (low * BLKSIZE) i f = some f' ∧ Laid geo f' low ∧
      f'.ino.iBlocks.toNat = 8 * allBlocks low := by
  induction i using Nat.strong_induction_on generalizing f with
  | _ i ih =>
    have hblk : BLKSIZE = 4096 := rfl
    rw [shrinkLoop]
    by_cases hlt : low * BLKSIZE < i
    · rw [if_pos hlt]
      have hblock : dataBlocks i = (i - 1) / BLKSIZE + 1 := by
        simp only [dataBlocks, BLKSIZE]
        omega
      have hnext : dataBlocks (i - BLKSIZE) = (i - 1) / BLKSIZE := by
        simp only [dataBlocks, BLKSIZE]
        omega
      have hbelow : low < dataBlocks i := lt_dataBlocks.mpr (by rw [Nat.mul_comm]; exact hlt)
      rw [hblock] at h hi hcount hbelow
      obtain ⟨f₁, hrun, hlaid, hcount₁⟩ := h.bunmap hi hcount
      rw [hrun]
      apply ih (i - BLKSIZE) (by omega)
      · rw [hnext]
        exact hlaid
      · rw [hnext]
        exact Nat.le_of_succ_le hi
      · rw [hnext]
        exact hcount₁
      · rw [hnext]
        exact Nat.le_of_lt_succ hbelow
    · rw [if_neg hlt]
      have hle : dataBlocks i ≤ low := dataBlocks_le.mpr (by rw [Nat.mul_comm]; omega)
      have heq : dataBlocks i = low := Nat.le_antisymm hle hlow
      rw [heq] at h hcount
      exact ⟨f, rfl, h, hcount⟩

/-! ## Any sequence of calls -/

/-- Between the calls: the file is laid out to its length, and all its blocks are counted. -/
structure Sound (geo : Geometry) (s : SizedFile) : Prop where
  laid : Laid geo s.file (dataBlocks s.iSize.toNat)
  le : dataBlocks s.iSize.toNat ≤ EXT2_IND_LIMIT
  count : s.file.ino.iBlocks.toNat = 8 * allBlocks (dataBlocks s.iSize.toNat)

theorem Sound.accounted (h : Sound geo s) : Accounted s := by
  obtain ⟨blocks, hblocks, hcard⟩ := h.laid.blocks h.le
  constructor
  · refine ⟨blocks, hblocks, ?_⟩
    rw [hcard]
    exact h.count
  · intro hzero
    have hcount := h.count
    rw [hzero] at hcount
    exact UInt32.toNat_inj.mp hcount

theorem Empty.sound (geo : Geometry) (h : Empty s) : Sound geo s := by
  obtain ⟨hsize, hcount, hslots⟩ := h
  have hzero : dataBlocks s.iSize.toNat = 0 := by
    rw [hsize]
    rfl
  constructor
  · rw [hzero]
    apply laid_empty
    intro i hi
    show (s.file.ino.iBlock i).toNat = 0
    rw [hslots i hi]
    rfl
  · rw [hzero]
    exact Nat.zero_le _
  · rw [hzero, hcount]
    rfl

/-- A write that succeeds begins in the file, and writes something. -/
theorem writei_success {src : Bytes} {off n : Nat}
    (h : writei balloc allServed s src off n = some (s', (n : Int))) :
    off ≤ s.iSize.toNat ∧ 0 < n := by
  have hret : ∀ {r : SizedFile} {x : Int}, x < 0 → some (r, x) ≠ some (s', (n : Int)) := by
    intro r x hx heq
    have hx' : x = n := (Prod.mk.inj (Option.some.inj heq)).2
    omega
  rw [writei] at h
  split at h
  · exact absurd h (hret (by decide))
  · rename_i hrange
    split at h
    · exact absurd h (hret (by decide))
    · refine ⟨by omega, Nat.pos_of_ne_zero fun hzero => ?_⟩
      subst hzero
      rw [writeiLoop, if_neg (Nat.lt_irrefl 0)] at h
      dsimp only at h
      refine hret ?_ h
      decide

theorem writei_sound {src : Bytes} {off n : Nat} (h : Sound geo s)
    (hrun : writei balloc allServed s src off n = some (s', (n : Int)))
    (hfine : Fine geo balloc s (.writei src off n)) : Sound geo s' := by
  obtain ⟨hoff, hn⟩ := writei_success hrun
  by_cases hgrow : s.iSize.toNat < off + n
  · obtain ⟨hright, hstocked⟩ : CountsRight (off + n) ∧ Stocked geo balloc s.file
      (dataBlocks s.iSize.toNat) (dataBlocks (off + n)) := hfine hgrow
    have hle : dataBlocks (off + n) ≤ EXT2_IND_LIMIT :=
      dataBlocks_le.mpr (by rw [Nat.mul_comm]; exact hright.le)
    obtain ⟨s₁, hwrite, hready, hsize, hcount⟩ :=
      writei_lays src ⟨h.laid, hstocked⟩ hle hoff hn (Nat.le_refl _)
    obtain rfl := (Prod.mk.inj (Option.some.inj (hwrite.symm.trans hrun))).1
    rw [Nat.max_eq_right (Nat.le_of_lt hgrow)] at hsize
    rw [if_pos hgrow, hright.allBlocks] at hcount
    exact ⟨hready.laid, by rw [hsize]; exact hle, by rw [hsize]; exact hcount⟩
  · -- nothing is missing
    have hstocked := stocked_self geo balloc s.file (dataBlocks s.iSize.toNat)
    obtain ⟨s₁, hwrite, hready, hsize, hcount⟩ := writei_lays src ⟨h.laid, hstocked⟩ h.le hoff hn
      (dataBlocks_mono (Nat.le_of_not_lt hgrow))
    obtain rfl := (Prod.mk.inj (Option.some.inj (hwrite.symm.trans hrun))).1
    rw [Nat.max_eq_left (Nat.le_of_not_lt hgrow)] at hsize
    rw [if_neg hgrow, h.count] at hcount
    exact ⟨hready.laid, by rw [hsize]; exact h.le, by rw [hsize]; exact hcount⟩

/-- The 32 bits of `lower_bound` are enough. -/
theorem lowerBound_eq (h : length ≤ EXT2_IND_LIMIT * BLKSIZE) :
    lowerBound length = dataBlocks length * BLKSIZE := by
  simp only [EXT2_IND_LIMIT, EXT2_IND_PER_BLK, EXT2_NDIR_BLOCKS, BLKSIZE] at h
  simp only [lowerBound, dataBlocks, BLKSIZE]
  omega

/-- A shorter length is always reached. -/
theorem Sound.shrinks (h : Sound geo s) (hlt : length < s.iSize.toNat) :
    ∃ s', shrink geo s length = some s' ∧ Sound geo s' := by
  have hle := dataBlocks_mono (Nat.le_of_lt hlt)
  have hbound : length ≤ EXT2_IND_LIMIT * BLKSIZE := by
    rw [Nat.mul_comm]
    exact dataBlocks_le.mp (hle.trans h.le)
  obtain ⟨f', hloop, hlaid, hcount⟩ := shrinkLoop_lays h.laid h.le h.count hle
  have hassert : f'.ino.iBlocks.toNat ≠ if length = 0 then 1 else 0 := by
    rw [hcount]
    split
    · omega
    · -- a file that is not empty has a block
      have hpos : 0 < dataBlocks length := lt_dataBlocks.mpr (by omega)
      unfold allBlocks
      split <;> omega
  have hsize : (UInt32.ofNat length).toNat = length := UInt32.toNat_ofNat_of_lt' (by
    have hlt : s.iSize.toNat < 2 ^ 32 := UInt32.toNat_lt _
    show length < 2 ^ 32
    omega)
  refine ⟨{ file := f', iSize := UInt32.ofNat length }, ?_, ?_, ?_, ?_⟩
  · unfold shrink
    rw [lowerBound_eq hbound, hloop]
    show (if f'.ino.iBlocks.toNat = (if length = 0 then 1 else 0) then none else _) = some _
    rw [if_neg hassert]
  · show Laid geo f' (dataBlocks (UInt32.ofNat length).toNat)
    rw [hsize]
    exact hlaid
  · show dataBlocks (UInt32.ofNat length).toNat ≤ EXT2_IND_LIMIT
    rw [hsize]
    exact hle.trans h.le
  · show f'.ino.iBlocks.toNat = 8 * allBlocks (dataBlocks (UInt32.ofNat length).toNat)
    rw [hsize]
    exact hcount

theorem itruncate_sound (h : Sound geo s) (hrun : Truncates balloc allServed geo s length s')
    (hfine : Fine geo balloc s (.itruncate length)) : Sound geo s' := by
  rw [Truncates] at hrun
  by_cases hgrow : length > s.iSize.toNat
  · rw [if_pos hgrow] at hrun
    obtain ⟨rounds, hrun⟩ := hrun
    obtain ⟨hright, hstocked⟩ : CountsRight length ∧ Stocked geo balloc s.file
      (dataBlocks s.iSize.toNat) (dataBlocks length) := hfine hgrow
    have hbegin : Growing geo balloc s.iSize.toNat length (.looping s s.iSize.toNat) :=
      ⟨⟨h.laid, hstocked⟩, rfl, Nat.le_of_lt hgrow, fun hlt => absurd hlt (Nat.lt_irrefl _)⟩
    have hend := iterate_growing hright.le hgrow rounds hbegin
    rw [hrun] at hend
    obtain ⟨hready, hsize, hcount⟩ := hend
    rw [hright.allBlocks] at hcount
    refine ⟨hready.laid, ?_, by rw [hsize]; exact hcount⟩
    rw [hsize, dataBlocks_le, Nat.mul_comm]
    exact hright.le
  · rw [if_neg hgrow] at hrun
    by_cases hshrink : length < s.iSize.toNat
    · rw [if_pos hshrink] at hrun
      obtain ⟨s₁, hrun₁, hsound⟩ := h.shrinks hshrink
      cases hrun₁.symm.trans hrun
      exact hsound
    · rw [if_neg hshrink] at hrun
      rw [hrun]
      exact h

/-- A call keeps the file sound. -/
theorem Sound.step {c : Call} (h : Sound geo s) (hrun : Succeeds geo balloc s c s')
    (hfine : Fine geo balloc s c) : Sound geo s' := by
  cases c with
  | writei src off n => exact writei_sound h hrun hfine
  | itruncate length => exact itruncate_sound h hrun hfine

theorem Sound.runs {calls : List Call} (h : Sound geo s) (hrun : Runs geo balloc s calls s') :
    Sound geo s' := by
  induction calls generalizing s with
  | nil => exact hrun ▸ h
  | cons c calls ih =>
    obtain ⟨s₁, hstep, hfine, hrest⟩ := hrun
    exact ih (h.step hstep hfine) hrest

/-- Whatever sequence of calls succeeds on an empty file: if each call that makes the file longer
    ends where the formula of `writei` is right, and finds the blocks it needs, `i_blocks` counts
    the blocks of the file after each of them. -/
theorem i_blocks_accounted (geo : Geometry) (grpNo : Nat) (calls : List Call) (hempty : Empty s)
    (hrun : Runs geo (ballocFor geo grpNo) s calls s') : Accounted s' :=
  ((hempty.sound geo).runs hrun).accounted

/-- The empty file on a disk with few blocks in use. -/
def newFile : SizedFile := ⟨emptyFile fun _ => 0, 0⟩

theorem empty_newFile : Empty newFile := ⟨rfl, rfl, fun _ _ => rfl⟩

theorem stocked_newFile : Stocked oneGroup (ballocFor oneGroup 0) newFile.file 0 1 :=
  ⟨supplies_fewUsed.of_succ, fun _ hlt => absurd hlt (by decide)⟩

/-- Any write to it that needs one block. -/
theorem writei_newFile {n : Nat} (hn : 0 < n) (hle : n ≤ BLKSIZE) :
    ∃ s', writei (ballocFor oneGroup 0) allServed newFile zeroBlk 0 n = some (s', (n : Int)) ∧
      Ready oneGroup (ballocFor oneGroup 0) 1 s' ∧ s'.iSize.toNat = n ∧
      s'.file.ino.iBlocks.toNat = 8 * (n / BLKSIZE + 1) := by
  have hend : dataBlocks (0 + n) ≤ 1 := dataBlocks_le.mpr (by rw [Nat.zero_add, Nat.mul_one]; exact hle)
  have hready : Ready oneGroup (ballocFor oneGroup 0) 1 newFile :=
    ⟨(empty_newFile.sound oneGroup).laid, stocked_newFile⟩
  obtain ⟨s', hrun, hready', hsize, hcount⟩ := writei_lays zeroBlk hready (by decide)
    (Nat.zero_le _) hn hend
  have hzero : newFile.iSize.toNat = 0 := rfl
  rw [Nat.zero_add] at hsize hcount
  rw [hzero, if_pos hn] at hcount
  rw [hzero, Nat.max_eq_right (Nat.zero_le n)] at hsize
  exact ⟨s', hrun, hready', hsize, hcount⟩

/-- A byte is written, then the rest of the block but a byte, and then the file is emptied. -/
theorem i_blocks_accounted_three : ∃ s', Runs oneGroup (ballocFor oneGroup 0) newFile
    [.writei zeroBlk 0 1, .writei zeroBlk 1 4094, .itruncate 0] s' ∧ Accounted s' := by
  obtain ⟨s₁, hfirst, hready, hsize, -⟩ := writei_newFile Nat.one_pos (by decide)
  obtain ⟨s₂, hsecond, -, hsize', -⟩ := writei_lays zeroBlk hready (by decide)
    (show 1 ≤ s₁.iSize.toNat from Nat.le_of_eq hsize.symm) (show 0 < 4094 by decide) (by decide)
  have hfine₁ : Fine oneGroup (ballocFor oneGroup 0) newFile (.writei zeroBlk 0 1) :=
    fun _ => ⟨.inl (by decide), stocked_newFile⟩
  have hfine₂ : Fine oneGroup (ballocFor oneGroup 0) s₁ (.writei zeroBlk 1 4094) :=
    fun _ => ⟨.inl (by decide), hready.stocked⟩
  have hsound₁ : Sound oneGroup s₁ := writei_sound (empty_newFile.sound oneGroup) hfirst hfine₁
  have hsound₂ : Sound oneGroup s₂ := writei_sound hsound₁ hsecond hfine₂
  obtain ⟨s₃, hshrink, -⟩ := hsound₂.shrinks (show 0 < s₂.iSize.toNat by omega)
  have hthird : Truncates (ballocFor oneGroup 0) allServed oneGroup s₂ 0 s₃ := by
    unfold Truncates
    rw [if_neg (Nat.not_lt_zero _), if_pos (by omega)]
    exact hshrink
  have hruns : Runs oneGroup (ballocFor oneGroup 0) newFile
      [.writei zeroBlk 0 1, .writei zeroBlk 1 4094, .itruncate 0] s₃ :=
    ⟨s₁, hfirst, hfine₁, s₂, hsecond, hfine₂, s₃, hthird,
      fun hgrow => absurd hgrow (Nat.not_lt_zero _), rfl⟩
  exact ⟨s₃, hruns, i_blocks_accounted oneGroup 0 _ empty_newFile hruns⟩

/-- One whole block is written: the file has one block, and `i_blocks` is 16. -/
theorem i_blocks_whole_block : ∃ s',
    Succeeds oneGroup (ballocFor oneGroup 0) newFile (.writei zeroBlk 0 BLKSIZE) s' ∧
      s'.file.ino.iBlocks = 16 ∧ ¬ Accounted s' := by
  obtain ⟨s', hrun, hready, hsize, hcount⟩ := writei_newFile (n := BLKSIZE) (by decide) (Nat.le_refl _)
  have hlaid := hready.laid
  rw [hsize] at hlaid
  refine ⟨s', hrun, UInt32.toNat_inj.mp hcount, ?_⟩
  rintro ⟨⟨blocks, hblocks, hcount'⟩, -⟩
  obtain ⟨blocks', hblocks', hcard⟩ := hlaid.blocks (by decide)
  have hsame : blocks = blocks' := by
    ext b
    rw [hblocks, hblocks']
  rw [hcount, hsame, hcard] at hcount'
  exact absurd hcount' (by decide)

end Uniks.Bmap
