/-
  What `writei` does to the bytes of a file without holes (`Uniks.FileLayout`).

  The loop goes from block to block and stops at the first one that the device does not deliver
  (`writeiLoop_wrote`).  Up to there the bytes are those of the buffer, and all others are as they
  were.  A block that could not be read stays in the file, so there may be one more block than the
  size needs (`Holds`).
-/
import Uniks.FileLayout

namespace Uniks.Bmap

open Uniks.ByteMem Uniks.BlockBitmap Uniks.EntryTree

/-- What the loop of `writei` has made of a file of `size` blocks when it has come from `tot`
    to `t`. -/
structure Wrote (geo : Geometry) (balloc : Bitmaps → Bitmaps × Int) (last : Nat) (src : Bytes)
    (off tot t : Nat) (f f' : File) (size size' : Nat) : Prop where
  laid : Laid geo f' size'
  stocked : Stocked geo balloc f' size' last
  le : size ≤ size'
  reach : off + (t - tot) ≤ BLKSIZE * size'
  count : f'.ino.iBlocks = f.ino.iBlocks
  bytes : ∀ i, (i < BLKSIZE * size ∨ off ≤ i ∧ i < off + (t - tot)) →
    byteAt f' i = splice (byteAt f) off (t - tot) (fun k => src (tot + k)) i

/-- A file without holes that has the blocks its size needs. -/
def Holds (geo : Geometry) (balloc : Bitmaps → Bitmaps × Int) (last : Nat) (s : SizedFile) : Prop :=
  ∃ size, Laid geo s.file size ∧ Stocked geo balloc s.file size last ∧
    s.iSize.toNat ≤ BLKSIZE * size

variable {geo : Geometry} {balloc : Bitmaps → Bitmaps × Int} {served : Nat → Bool} {f f' : File}
  {s : SizedFile} {src : Bytes} {size last off n tot : Nat}

/-! ## The loop -/

/-- The loop stops in front of the block at the offset. -/
theorem Gets.wrote_nothing {b : Nat} (h : Gets geo balloc f size last (off / BLKSIZE) f' b)
    (hlaid : Laid geo f size) (hoff : off ≤ BLKSIZE * size) :
    Wrote geo balloc last src off tot tot f f' size (max size (off / BLKSIZE + 1)) := by
  have hle := Nat.le_max_left size (off / BLKSIZE + 1)
  refine ⟨h.laid, h.stocked, hle, ?_, h.count, fun i hi => ?_⟩
  · rw [Nat.sub_self, Nat.add_zero]
    exact hoff.trans (Nat.mul_le_mul_left BLKSIZE hle)
  · rw [Nat.sub_self, splice_zero]
    rw [Nat.sub_self] at hi
    apply h.byteAt hlaid
    apply Nat.div_lt_of_lt_mul
    omega

/-- The piece in the block at the offset is written, and then the rest. -/
theorem Gets.wrote {b m t size' : Nat} {f₁ : File}
    (h : Gets geo balloc f size last (off / BLKSIZE) f₁ b) (hlaid : Laid geo f size)
    (hm : off % BLKSIZE + m ≤ BLKSIZE) (ht : tot + m ≤ t)
    (hrest : Wrote geo balloc last src (off + m) (tot + m) t
      (f₁.copyBlock b (off % BLKSIZE) m fun k => src (tot + k)) f' (max size (off / BLKSIZE + 1))
      size') :
    Wrote geo balloc last src off tot t f f' size size' := by
  have hle := Nat.le_max_left size (off / BLKSIZE + 1)
  have hhere : off / BLKSIZE < max size (off / BLKSIZE + 1) :=
    Nat.lt_of_lt_of_le (Nat.lt_succ_self _) (Nat.le_max_right _ _)
  have hsum : off + m + (t - (tot + m)) = off + (t - tot) := by omega
  have hdm := Nat.div_add_mod off BLKSIZE
  have hblocks := Nat.mul_le_mul_left BLKSIZE hle
  have hnext := Nat.mul_le_mul_left BLKSIZE (Nat.succ_le_of_lt hhere)
  rw [Nat.mul_succ] at hnext
  have hreach := hrest.reach
  rw [hsum] at hreach
  refine ⟨hrest.laid, hrest.stocked, hle.trans hrest.le, hreach, hrest.count.trans h.count,
    fun i hi => ?_⟩
  have hbytes := hrest.bytes i
  rw [hsum] at hbytes
  rw [hbytes (by omega)]
  by_cases hbehind : off + m ≤ i ∧ i < off + (t - tot)
  · -- written by the rest
    have hdist : tot + m + (i - (off + m)) = tot + (i - off) := by omega
    rw [splice_of_mem hbehind.1 (by omega), splice_of_mem (by omega) hbehind.2, hdist]
  · have hin : i / BLKSIZE < max size (off / BLKSIZE + 1) := Nat.div_lt_of_lt_mul (by omega)
    rw [splice_of_not_mem (by omega), copyBlock_byteAt h.laid hhere h.here hm _ hin, hdm]
    by_cases hpiece : off ≤ i ∧ i < off + m
    · rw [splice_of_mem hpiece.1 hpiece.2, splice_of_mem hpiece.1 (by omega)]
    · rw [splice_of_not_mem hpiece, splice_of_not_mem (by omega)]
      exact h.byteAt hlaid (Nat.div_lt_of_lt_mul (by omega))

/-- The loop writes what it can, and everything if the device delivers every block. -/
theorem writeiLoop_wrote (served : Nat → Bool) (src : Bytes) (h : Laid geo f size)
    (hs : Stocked geo balloc f size last) (hlast : last ≤ EXT2_IND_LIMIT)
    (hoff : off ≤ BLKSIZE * size) (htot : tot ≤ n) (hend : dataBlocks (off + (n - tot)) ≤ last) :
    ∃ f' t size', writeiLoop balloc served src off n tot f = some (f', t) ∧ tot ≤ t ∧ t ≤ n ∧
      Wrote geo balloc last src off tot t f f' size size' ∧ (served = allServed → t = n) ∧
      (t = n → size' = max size (dataBlocks (off + (n - tot)))) := by
  induction hleft : n - tot using Nat.strong_induction_on generalizing f size off tot with
  | _ left ih =>
    rw [writeiLoop]
    by_cases hlt : tot < n
    · rw [if_pos hlt]
      have hmod : off % BLKSIZE < BLKSIZE := Nat.mod_lt off (by decide)
      have hdm := Nat.div_add_mod off BLKSIZE
      have hhere : off / BLKSIZE ≤ size := Nat.div_le_of_le_mul hoff
      have hneeded : off / BLKSIZE < dataBlocks (off + (n - tot)) := lt_dataBlocks.mpr (by omega)
      have hbelow := Nat.lt_of_lt_of_le hneeded hend
      have hsmall : off / BLKSIZE % 2 ^ 32 = off / BLKSIZE := by
        apply Nat.mod_eq_of_lt
        exact Nat.lt_trans (Nat.lt_of_lt_of_le hbelow hlast) (by decide)
      obtain ⟨f₁, b, hrun, hgets⟩ := h.bmap hs hhere hbelow hlast
      have hbne : b ≠ 0 := walk_ne_zero hgets.here
      rw [hsmall, hrun]
      dsimp only
      rw [if_neg hbne]
      cases hread : served (b % 2 ^ 32) with
      | false =>
        refine ⟨f₁, tot, _, rfl, Nat.le_refl _, htot, hgets.wrote_nothing h hoff, ?_, ?_⟩
        · rintro rfl
          cases hread
        · omega
      | true =>
        rw [if_pos rfl]
        generalize hm : min (n - tot) (BLKSIZE - off % BLKSIZE) = m
        have hend' : off + m + (n - (tot + m)) = off + (n - tot) := by omega
        have hmlt : off / BLKSIZE < max size (off / BLKSIZE + 1) :=
          Nat.lt_of_lt_of_le (Nat.lt_succ_self _) (Nat.le_max_right _ _)
        have hnext : off + m ≤ BLKSIZE * max size (off / BLKSIZE + 1) := by
          have hle := Nat.mul_le_mul_left BLKSIZE (Nat.succ_le_of_lt hmlt)
          rw [Nat.mul_succ] at hle
          omega
        have hused : inUse geo f₁.bitmaps (b % 2 ^ 32) = true := by
          rw [Nat.mod_eq_of_lt (walk_small hgets.here b rfl)]
          exact hgets.laid.tree.used _ b (path_valid (Nat.lt_of_lt_of_le hmlt hgets.laid.le))
            hgets.here
        obtain ⟨f', t, size', hloop, hle, ht, hwrote, hall, hsize⟩ := ih (n - (tot + m)) (by omega)
          (hgets.laid.copyBlock hmlt hgets.here (off % BLKSIZE) m _)
          (hgets.stocked.copyBlock hused (off % BLKSIZE) m fun k => src (tot + k)) hnext (by omega)
          (by rw [hend']; exact hend) rfl
        refine ⟨f', t, size', hloop, by omega, ht, hgets.wrote h (by omega) hle hwrote, hall, ?_⟩
        intro hfull
        rw [hsize hfull, hend', ← hleft, Nat.max_assoc, Nat.max_eq_right hneeded]
    · rw [if_neg hlt]
      have htotal : tot = n := by omega
      refine ⟨f, tot, size, rfl, Nat.le_refl _, htot, ⟨h, hs, Nat.le_refl _, by omega, rfl, ?_⟩,
        fun _ => htotal, fun _ => ?_⟩
      · intro i _
        rw [Nat.sub_self, splice_zero]
      · have hle : dataBlocks (off + left) ≤ size := dataBlocks_le.mpr (by omega)
        exact (Nat.max_eq_left hle).symm

/-! ## The call -/

/-- What `writei` makes of what its loop has done. -/
theorem writei_of_loop (hoff : off ≤ s.iSize.toNat) (hbound : off + n ≤ EXT2_IND_LIMIT * BLKSIZE)
    (htot : tot ≤ n) (hloop : writeiLoop balloc served src off n 0 s.file = some (f', tot)) :
    ∃ s', writei balloc served s src off n = some (s', if tot ≠ 0 then (tot : Int) else - EIO) ∧
      s'.iSize.toNat = max s.iSize.toNat (off + tot) ∧ s'.file.tree = f'.tree ∧
      s'.file.bitmaps = f'.bitmaps ∧ s'.file.data = f'.data ∧
      s'.file.ino.iBlocks.toNat = if s.iSize.toNat < off + tot then 8 * ((off + tot) / BLKSIZE + 1)
        else f'.ino.iBlocks.toNat := by
  have hmax : off + n ≤ EXT2_MAX_FBLKS * BLKSIZE := hbound.trans (by decide)
  simp only [EXT2_IND_LIMIT, EXT2_IND_PER_BLK, EXT2_NDIR_BLOCKS, BLKSIZE] at hbound
  have hrange : ¬ (off > s.iSize.toNat ∨ (off + n) % 2 ^ 64 < off) := by omega
  rw [writei, if_neg hrange, if_neg (Nat.not_lt_of_le hmax), hloop]
  dsimp only
  by_cases hgrow : s.iSize.toNat < off + tot
  · have hsize : (UInt32.ofNat (off + tot)).toNat = off + tot :=
      UInt32.toNat_ofNat_of_lt' (by show off + tot < 2 ^ 32; omega)
    have hblocks : (UInt32.ofNat (((off + tot) / BLKSIZE + 1) * (BLKSIZE / SECTORSIZE))).toNat
        = 8 * ((off + tot) / BLKSIZE + 1) := by
      have hfactor : BLKSIZE / SECTORSIZE = 8 := by decide
      rw [hfactor, Nat.mul_comm]
      exact UInt32.toNat_ofNat_of_lt' (by show 8 * ((off + tot) / 4096 + 1) < 2 ^ 32; omega)
    rw [if_pos hgrow, if_pos hgrow, Nat.max_eq_right (Nat.le_of_lt hgrow)]
    exact ⟨_, rfl, hsize, rfl, rfl, rfl, hblocks⟩
  · rw [if_neg hgrow, if_neg hgrow, Nat.max_eq_left (Nat.le_of_not_lt hgrow)]
    exact ⟨_, rfl, rfl, rfl, rfl, rfl, rfl⟩

theorem Stocked.congr (h : Stocked geo balloc f size last) (hbits : f'.bitmaps = f.bitmaps)
    (hdata : f'.data = f.data) : Stocked geo balloc f' size last := by
  obtain ⟨hsupply, hblank⟩ := h
  constructor
  · rw [hbits]
    exact hsupply
  · unfold BlankBlock at hblank ⊢
    rw [hbits, hdata]
    exact hblank

/-- `writei` writes a part of the buffer, and counts it. -/
theorem writei_wrote (served : Nat → Bool) (src : Bytes) (h : Holds geo balloc last s)
    (hlast : last ≤ EXT2_IND_LIMIT) (hoff : off ≤ s.iSize.toNat) (hend : dataBlocks (off + n) ≤ last) :
    ∃ s' tot, writei balloc served s src off n
        = some (s', if tot ≠ 0 then ((tot : Nat) : Int) else - EIO) ∧ tot ≤ n ∧
      Holds geo balloc last s' ∧ s'.iSize.toNat = max s.iSize.toNat (off + tot) ∧
      ∀ i < s'.iSize.toNat, byteAt s'.file i = splice (byteAt s.file) off tot src i := by
  obtain ⟨size, hlaid, hstocked, hsize⟩ := h
  have hbound : off + n ≤ EXT2_IND_LIMIT * BLKSIZE := by
    rw [Nat.mul_comm]
    exact dataBlocks_le.mp (hend.trans hlast)
  obtain ⟨f', tot, size', hloop, -, htot, hwrote, -, -⟩ := writeiLoop_wrote served src hlaid hstocked
    hlast (hoff.trans hsize) (Nat.zero_le n) (by rw [Nat.sub_zero]; exact hend)
  obtain ⟨s', hrun, hsize', htree, hbits, hdata, -⟩ := writei_of_loop hoff hbound htot hloop
  have hreach := hwrote.reach
  have hblocks := Nat.mul_le_mul_left BLKSIZE hwrote.le
  refine ⟨s', tot, hrun, htot, ⟨size', ?_, hwrote.stocked.congr hbits hdata, by omega⟩, hsize',
    fun i hi => ?_⟩
  · exact hwrote.laid.congr hbits fun q _ => by rw [htree]
  · have hbyte : byteAt s'.file i = byteAt f' i := by
      rw [byteAt, byteAt, blockAt, blockAt, htree, hdata]
    have hbytes := hwrote.bytes i
    simp only [Nat.sub_zero, Nat.zero_add] at hbytes
    rw [hbyte, hbytes (by omega)]

end Uniks.Bmap
