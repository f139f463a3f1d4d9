/-
  The loop of `itruncate` on the blocks of a file, and on its bytes.

  `Uniks.Growth` takes a file for its bytes, and lets each call of `writei` have blocks for so many
  of them.  Here the file is one of `Uniks.FileContents`, and what each call meets is a sync or a
  device that delivers some blocks and not others (`Schedule`).  Round by round the two loops do the
  same (`Matches`), so the growth of such a file is clean exactly if the results of the calls lead
  to the length (`blocks_clean_growth`).
-/
import Uniks.FileContents
import Uniks.Growth

namespace Uniks.Growth

open Uniks.ByteMem Uniks.BlockBitmap
open Uniks.Bmap hiding EIO writei

/-- What each call meets: a sync that is running (`none`), or the blocks the device delivers. -/
abbrev Schedule : Type := Nat → Option (Nat → Bool)

variable (balloc : Bitmaps → Bitmaps × Int) (schedule : Schedule) (length : Nat)

/-- The next call of `writei`; the file comes with the number of calls made so far. -/
def nextBlocks (s : SizedFile × Nat) (off n : Nat) : Option ((SizedFile × Nat) × Int) :=
  match schedule s.2 with
  | none => some ((s.1, s.2 + 1), - EBUSY)
  | some served =>
    (Bmap.writei balloc served s.1 zeroBlk off n).map fun (t, ret) => ((t, s.2 + 1), ret)

def setBlocksSize (s : SizedFile × Nat) (off : Nat) : SizedFile × Nat := (s.1.setSize off, s.2)

/-- A round of the loop of `itruncate`. -/
def blockRound : Grow (SizedFile × Nat) → Grow (SizedFile × Nat) :=
  growStep (nextBlocks balloc schedule) setBlocksSize length

def blockStart (s : SizedFile) : Grow (SizedFile × Nat) := .looping (s, 0) s.iSize.toNat

/-- What the call of a round meets, as far as the bytes are concerned. -/
def met : Grow (SizedFile × Nat) → Meets
  | .looping (s, k) off =>
    match schedule k with
    | none => .syncing
    | some served =>
      match Bmap.writei balloc served s zeroBlk off
          (minBlksize ((length + 2 ^ 64 - off) % 2 ^ 64)) with
      | some (_, ret) => .room ret.toNat
      | none => .room 0
  | _ => .room 0

/-- What the calls meet one after another. -/
def metFrom (s : SizedFile) (k : Nat) : Meets :=
  met balloc schedule length ((blockRound balloc schedule length)^[k] (blockStart s))

/-- `CleanGrowth`, on blocks. -/
def CleanBlocks (s : SizedFile) : Prop :=
  ∃ rounds t calls ret,
    (blockRound balloc schedule length)^[rounds] (blockStart s) = .returned (t, calls) ret ∧
    (∀ i < s.iSize.toNat, byteAt t.file i = byteAt s.file i) ∧
    (∀ i, s.iSize.toNat ≤ i → i < t.iSize.toNat → byteAt t.file i = 0) ∧
    (ret = 0 ∧ t.iSize.toNat = length ∨ ret = -1 ∧ s.iSize.toNat ≤ t.iSize.toNat)

/-- The bytes of a file. -/
def contents (s : SizedFile) : ByteFile := ⟨s.iSize, byteAt s.file⟩

/-- The bytes are those of the file, as far as it reaches. -/
structure Agrees (s : SizedFile) (t : ByteFile) : Prop where
  size : t.iSize = s.iSize
  bytes : ∀ i < s.iSize.toNat, t.bytes i = byteAt s.file i

/-- The two loops are at the same place. -/
inductive Matches (geo : Geometry) : Grow (SizedFile × Nat) → Grow (ByteFile × Nat) → Prop
  | looping {s t k off} : Agrees s t → Holds geo balloc (dataBlocks length) s →
      (off ≤ length → off ≤ s.iSize.toNat) → Matches geo (.looping (s, k) off) (.looping (t, k) off)
  | returned {s t k ret} : Agrees s t → Matches geo (.returned (s, k) ret) (.returned (t, k) ret)
  | panicked : Matches geo .panicked .panicked

variable {balloc schedule length} {geo : Geometry} {s : SizedFile} {t : ByteFile} {k off : Nat}

/-- A call of `writei` on blocks is one on bytes. -/
theorem writei_agrees (served : Nat → Bool) {n last : Nat} (h : Agrees s t)
    (hholds : Holds geo balloc last s) (hlast : last ≤ EXT2_IND_LIMIT) (hoff : off ≤ s.iSize.toNat)
    (hend : dataBlocks (off + n) ≤ last) :
    ∃ s' t' ret, Bmap.writei balloc served s zeroBlk off n = some (s', ret) ∧
      writei (.room ret.toNat) t zeroBlk off n = (t', ret) ∧ Agrees s' t' ∧
      Holds geo balloc last s' ∧ -5 ≤ ret ∧ (off : Int) + ret ≤ s'.iSize.toNat := by
  obtain ⟨s', tot, hrun, htot, hholds', hsize, hbytes⟩ :=
    writei_wrote served zeroBlk hholds hlast hoff hend
  have hbound := dataBlocks_le.mp (hend.trans hlast)
  have hmax : EXT2_MAX_FBLKS * BLKSIZE = 4402345721856 := by decide
  simp only [EXT2_IND_LIMIT, EXT2_IND_PER_BLK, EXT2_NDIR_BLOCKS, BLKSIZE] at hbound
  have hret : (if tot ≠ 0 then (tot : Int) else - Bmap.EIO).toNat = tot := by
    by_cases hzero : tot = 0
    · subst hzero
      rfl
    · rw [if_pos hzero]
      rfl
  refine ⟨s', ⟨if off + tot > t.iSize.toNat then UInt32.ofNat (off + tot) else t.iSize,
    splice t.bytes off tot zeroBlk⟩, _, hrun, ?_, ?_, hholds', ?_⟩
  · show writei (.room (if tot ≠ 0 then (tot : Int) else - Bmap.EIO).toNat) t zeroBlk off n = _
    have hrange : ¬ (off > t.iSize.toNat ∨ (off + n) % 2 ^ 64 < off) := by
      rw [h.size]
      omega
    rw [hret, writei]
    dsimp only
    rw [if_neg hrange, if_neg (by omega), Nat.min_eq_right htot]
  · refine ⟨?_, fun i hi => ?_⟩
    · apply UInt32.toNat_inj.mp
      show (if off + tot > t.iSize.toNat then UInt32.ofNat (off + tot) else t.iSize).toNat = _
      rw [h.size, hsize]
      by_cases hgrow : off + tot > s.iSize.toNat
      · rw [if_pos hgrow, Nat.max_eq_right (Nat.le_of_lt hgrow)]
        exact UInt32.toNat_ofNat_of_lt' (by show off + tot < 2 ^ 32; omega)
      · rw [if_neg hgrow, Nat.max_eq_left (Nat.le_of_not_lt hgrow)]
    · rw [hbytes i hi]
      by_cases hin : off ≤ i ∧ i < off + tot
      · show splice t.bytes off tot zeroBlk i = _
        rw [splice_of_mem hin.1 hin.2, splice_of_mem hin.1 hin.2]
      · show splice t.bytes off tot zeroBlk i = _
        rw [splice_of_not_mem hin, splice_of_not_mem hin]
        exact h.bytes i (by omega)
  · have herr : - Bmap.EIO = -5 := rfl
    split <;> omega

/-- The next call on blocks is the next one on bytes. -/
theorem next_agrees {meets : Nat → Meets} {n : Nat} (h : Agrees s t)
    (hholds : Holds geo balloc (dataBlocks length) s) (hlength : length ≤ EXT2_IND_LIMIT * BLKSIZE)
    (hoff : off ≤ s.iSize.toNat) (hlt : off < length)
    (hn : minBlksize ((length + 2 ^ 64 - off) % 2 ^ 64) = n)
    (hmet : meets k = met balloc schedule length (.looping (s, k) off)) :
    ∃ s' t' ret, nextBlocks balloc schedule (s, k) off n = some ((s', k + 1), ret) ∧
      nextWritei meets (t, k) off n = some ((t', k + 1), ret) ∧ Agrees s' t' ∧
      Holds geo balloc (dataBlocks length) s' ∧ -16 ≤ ret ∧ (off : Int) + ret ≤ s'.iSize.toNat := by
  rw [met] at hmet
  cases hnow : schedule k with
  | none =>
    rw [hnow] at hmet
    have hbusy : - EBUSY = -16 := rfl
    refine ⟨s, t, - EBUSY, ?_, ?_, h, hholds, by omega, by omega⟩
    · rw [nextBlocks, hnow]
    · rw [nextWritei, hmet]
      rfl
  | some served =>
    have hlast : dataBlocks length ≤ EXT2_IND_LIMIT :=
      dataBlocks_le.mpr (by rw [Nat.mul_comm]; exact hlength)
    simp only [EXT2_IND_LIMIT, EXT2_IND_PER_BLK, EXT2_NDIR_BLOCKS, BLKSIZE] at hlength
    have hleft : (length + 2 ^ 64 - off) % 2 ^ 64 = length - off := by omega
    have hle : off + n ≤ length := by
      rw [← hn, hleft, minBlksize_eq (by omega)]
      omega
    obtain ⟨s', t', ret, hrun, hrun', hagree, hholds', hlow, hreach⟩ := writei_agrees served h hholds
      hlast hoff (dataBlocks_mono hle)
    rw [hnow] at hmet
    dsimp only at hmet
    rw [hn, hrun] at hmet
    refine ⟨s', t', ret, ?_, ?_, hagree, hholds', by omega, hreach⟩
    · rw [nextBlocks, hnow]
      dsimp only
      rw [hrun, Option.map_some]
    · rw [nextWritei, hmet]
      dsimp only
      rw [hrun']

/-- A round on blocks is one on bytes. -/
theorem Matches.round {meets : Nat → Meets} {g : Grow (SizedFile × Nat)} {g' : Grow (ByteFile × Nat)}
    (h : Matches balloc length geo g g') (hlength : length ≤ EXT2_IND_LIMIT * BLKSIZE)
    (hmeets : ∀ s k off, g = .looping (s, k) off → meets k = met balloc schedule length g) :
    Matches balloc length geo (blockRound balloc schedule length g)
      (Growth.round meets length g') := by
  cases h with
  | returned h => exact .returned h
  | panicked => exact .panicked
  | @looping s t k off hagree hholds hreach =>
    rw [blockRound, Growth.round, growStep, growStep]
    by_cases hlt : off < length
    · rw [if_pos hlt, if_pos hlt]
      obtain ⟨s', t', ret, hrun, hrun', hagree', hholds', hlow, hreach'⟩ := next_agrees hagree hholds
        hlength (hreach (Nat.le_of_lt hlt)) hlt rfl (hmeets s k off rfl)
      have hpos := nextWritei_pos (minBlksize_lt _) hrun'
      rw [hrun, hrun']
      dsimp only
      rw [if_pos hpos, if_pos hpos]
      refine .looping hagree' hholds' fun hle => ?_
      -- an offset that has wrapped around lies beyond the length
      simp only [EXT2_IND_LIMIT, EXT2_IND_PER_BLK, EXT2_NDIR_BLOCKS, BLKSIZE] at hlength
      rw [u64_add] at hle ⊢
      have hwrap : u64 ((off : Int) + ret) = (((off : Int) + ret) % 2 ^ 64).toNat := rfl
      rw [hwrap] at hle ⊢
      omega
    · rw [if_neg hlt, if_neg hlt]
      by_cases heq : off = length
      · rw [if_pos heq, if_pos heq]
        have hle := hreach (Nat.le_of_eq heq)
        simp only [EXT2_IND_LIMIT, EXT2_IND_PER_BLK, EXT2_NDIR_BLOCKS, BLKSIZE] at hlength
        have hnum : (UInt32.ofNat off).toNat = off :=
          UInt32.toNat_ofNat_of_lt' (by show off < 2 ^ 32; omega)
        refine .returned ⟨rfl, fun i hi => ?_⟩
        have hi : i < (UInt32.ofNat off).toNat := hi
        exact hagree.bytes i (by omega)
      · rw [if_neg heq, if_neg heq]
        exact .panicked

/-! ## The whole loop -/

theorem nextBlocks_calls {r r' : SizedFile × Nat} {n : Nat} {ret : Int}
    (h : nextBlocks balloc schedule r off n = some (r', ret)) : r'.2 = r.2 + 1 := by
  rw [nextBlocks] at h
  split at h
  · rw [← (Prod.mk.inj (Option.some.inj h)).1]
  · obtain ⟨x, -, hx⟩ := Option.map_eq_some_iff.mp h
    rw [← (Prod.mk.inj hx).1]

/-- The calls made so far are counted. -/
theorem blockRound_calls (rounds : Nat) {r : SizedFile × Nat}
    (h : (blockRound balloc schedule length)^[rounds] (blockStart s) = .looping r off) :
    r.2 = rounds := by
  induction rounds generalizing r off with
  | zero => rw [← (Grow.looping.inj h).1]
  | succ rounds ih =>
    rw [Function.iterate_succ_apply'] at h
    cases hg : (blockRound balloc schedule length)^[rounds] (blockStart s) with
    | returned r' ret =>
      rw [hg] at h
      cases h
    | panicked =>
      rw [hg] at h
      cases h
    | looping r' off' =>
      rw [hg, blockRound, growStep] at h
      split at h
      · cases hcall : nextBlocks balloc schedule r' off'
          (minBlksize ((length + 2 ^ 64 - off') % 2 ^ 64)) with
        | none =>
          rw [hcall] at h
          cases h
        | some x =>
          rw [hcall] at h
          dsimp only at h
          split at h
          · rw [← (Grow.looping.inj h).1, nextBlocks_calls hcall, ih hg]
          · cases h
      · split at h
        · cases h
        · cases h

/-- Round by round the loop on blocks does what the loop on bytes does. -/
theorem blocks_match (schedule : Schedule) (hholds : Holds geo balloc (dataBlocks length) s)
    (hlength : length ≤ EXT2_IND_LIMIT * BLKSIZE) (rounds : Nat) :
    Matches balloc length geo ((blockRound balloc schedule length)^[rounds] (blockStart s))
      ((round (metFrom balloc schedule length s) length)^[rounds] (start (contents s))) := by
  induction rounds with
  | zero => exact .looping ⟨rfl, fun _ _ => rfl⟩ hholds fun _ => Nat.le_refl _
  | succ rounds ih =>
    rw [Function.iterate_succ_apply', Function.iterate_succ_apply']
    apply ih.round hlength
    intro s' k off hg
    have hk : k = rounds := blockRound_calls rounds hg
    rw [hk]
    rfl

/-- The growth of a file on blocks is clean if that of its bytes is. -/
theorem cleanBlocks_iff (schedule : Schedule) (hsize : s.iSize.toNat < length)
    (hholds : Holds geo balloc (dataBlocks length) s) (hlength : length ≤ EXT2_IND_LIMIT * BLKSIZE) :
    CleanBlocks balloc schedule length s ↔
      CleanGrowth (metFrom balloc schedule length s) length (contents s) := by
  have hmatch := blocks_match schedule hholds hlength
  constructor
  · rintro ⟨rounds, t, calls, ret, hret, hkept, hzero, hend⟩
    have hm := hmatch rounds
    rw [hret] at hm
    generalize hret' : (Growth.round _ length)^[rounds] _ = g at hm
    cases hm with
    | @returned _ t' _ _ hagree =>
      have hiSize : t'.iSize = t.iSize := hagree.size
      refine ⟨rounds, t', calls, ret, hret', fun i hi => ?_, fun i hlow hhigh => ?_, ?_⟩
      · have hi : i < s.iSize.toNat := hi
        rw [hagree.bytes i (by omega)]
        exact hkept i hi
      · rw [hiSize] at hhigh
        rw [hagree.bytes i hhigh]
        exact hzero i hlow hhigh
      · rw [hiSize]
        exact hend
  · rintro ⟨rounds, t', calls, ret, hret', hkept, hzero, hend⟩
    have hm := hmatch rounds
    rw [hret'] at hm
    generalize hret : (blockRound balloc schedule length)^[rounds] _ = g at hm
    cases hm with
    | @returned t _ _ _ hagree =>
      have hiSize : t'.iSize = t.iSize := hagree.size
      rw [hiSize] at hend
      refine ⟨rounds, t, calls, ret, hret, fun i hi => ?_, fun i hlow hhigh => ?_, hend⟩
      · have hold : (contents s).iSize = s.iSize := rfl
        rw [hold] at hend
        rw [← hagree.bytes i (by omega)]
        exact hkept i hi
      · rw [← hagree.bytes i hhigh]
        exact hzero i hlow (hiSize ▸ hhigh)

/-- Growth on blocks is clean exactly if the results of the calls lead to the length. -/
theorem blocks_clean_growth (schedule : Schedule) (hsize : s.iSize.toNat < length)
    (hholds : Holds geo balloc (dataBlocks length) s) (hlength : length ≤ EXT2_IND_LIMIT * BLKSIZE) :
    CleanBlocks balloc schedule length s ↔
      Climbs (metFrom balloc schedule length s) length (contents s) := by
  rw [cleanBlocks_iff schedule hsize hholds hlength]
  exact ⟨CleanGrowth.climbs hsize, Climbs.clean hsize⟩

end Uniks.Growth
