/-
  The block bitmaps of `fs/ext2fs.c`: `search_free_bit`, `set_allocated_bit`, `balloc` and `bfree`.

  Each group has a bitmap block of its own, read and written through the block cache; `Bitmaps` are
  their contents.  `balloc` looks into the preferred group first and then into all the others, in
  order.  The second search keeps the number of the first block of the group it is in, `bnum`, and
  forgets to move it on when it comes past the preferred group.  So a block of a later group is
  marked there and handed out under the number of its neighbour one group below, which is in use.
-/
import Uniks.Lib.Bits

namespace Uniks.BlockBitmap

open Uniks.ByteMem Uniks.Bits
open Function (update update_idem update_self update_of_ne update_eq_self)

abbrev BLKSIZE : Nat := 4096

/-- What the super block and the sizes of the disk say. -/
structure Geometry where
  sBlocksPerGroup : Nat
  /-- The source's `EXT2_GRP_NUM`. -/
  grpNum : Nat

/-- The bitmap block of each group. -/
abbrev Bitmaps := Nat → Bytes

/-! ## One bitmap -/

/-- The inner loop of `search_free_bit`. -/
def searchByte (x : UInt8) : Option Nat := (List.range 8).find? fun j => ~~~ x &&& mask j != 0

/-- The outer loop of `search_free_bit`, with `left` bytes to come. -/
def searchFrom (start : Bytes) : Nat → Nat → Int
  | 0, _ => -1
  | left + 1, i =>
    match searchByte (start i) with
    | some j => ((8 * i + j : Nat) : Int)
    | none => searchFrom start left (i + 1)

/-- The source's `search_free_bit`. -/
def searchFreeBit (start : Bytes) (size : Nat) : Int := searchFrom start size 0

/-- The source's `set_allocated_bit`. -/
def setAllocatedBit (start : Bytes) (location : Nat) : Bytes := setBit start location

/-! ## All groups -/

/-- What both phases of `balloc` do in a group: find a free bit and set it. -/
def takeBit (bitmaps : Bitmaps) (g : Nat) : Option (Bitmaps × Nat) :=
  let freeno := searchFreeBit (bitmaps g) BLKSIZE
  if freeno ≠ -1 then
    some (update bitmaps g (setAllocatedBit (bitmaps g) freeno.toNat), freeno.toNat)
  else none

/-- The second phase of `balloc`, with `left` groups to come. -/
def ballocLoop (geo : Geometry) (bitmaps : Bitmaps) (grpNo : Nat) :
    Nat → Nat → Nat → Bitmaps × Int
  | 0, _, _ => (bitmaps, -1)
  | left + 1, gIdx, bnum =>
    if gIdx = grpNo then ballocLoop geo bitmaps grpNo left (gIdx + 1) bnum
    else
      match takeBit bitmaps gIdx with
      | some (bitmaps, freeno) => (bitmaps, ((freeno + bnum : Nat) : Int))
      | none => ballocLoop geo bitmaps grpNo left (gIdx + 1) (bnum + geo.sBlocksPerGroup)

/-- The source's `balloc`.  The product of the first phase has 32 bits. -/
def balloc (geo : Geometry) (bitmaps : Bitmaps) (grpNo : Nat) : Bitmaps × Int :=
  match takeBit bitmaps grpNo with
  | some (bitmaps, freeno) =>
    (bitmaps, ((freeno + geo.sBlocksPerGroup * grpNo % 2 ^ 32 : Nat) : Int))
  | none => ballocLoop geo bitmaps grpNo geo.grpNum 0 0

/-- The source's `bfree`; the number is cut to 32 bits. -/
def bfree (geo : Geometry) (bitmaps : Bitmaps) (blkNo : Nat) : Bitmaps :=
  let blkNo := blkNo % 2 ^ 32
  let gIdx := blkNo / geo.sBlocksPerGroup
  update bitmaps gIdx (clearBit (bitmaps gIdx) (blkNo % geo.sBlocksPerGroup))

/-! ## Searching -/

variable {geo : Geometry} {bitmaps : Bitmaps} {grpNo g : Nat} {start : Bytes}

/-- The first bit of a byte that is clear. -/
theorem searchByte_some {x : UInt8} {j : Nat} (h : searchByte x = some j) :
    j < 8 ∧ x.toBitVec.getLsbD j = false := by
  have hmem := List.mem_range.mp (List.mem_of_find?_eq_some h)
  have htest := List.find?_some h
  exact ⟨hmem, (not_and_mask_ne_zero x hmem).mp (bne_iff_ne.mp htest)⟩

theorem searchByte_none {x : UInt8} (h : searchByte x = none) {j : Nat} (hj : j < 8) :
    x.toBitVec.getLsbD j = true := by
  by_contra hnot
  rw [Bool.not_eq_true] at hnot
  have htest := List.find?_eq_none.mp h j (List.mem_range.mpr hj)
  exact htest (bne_iff_ne.mpr ((not_and_mask_ne_zero x hj).mpr hnot))

theorem searchFrom_spec (start : Bytes) (left : Nat) : ∀ i,
    (searchFrom start left i = -1 ∧ ∀ k, 8 * i ≤ k → k < 8 * (i + left) → bit start k = true) ∨
    ∃ k : Nat, searchFrom start left i = k ∧ k < 8 * (i + left) ∧ bit start k = false := by
  induction left with
  | zero =>
    intro i
    exact .inl ⟨rfl, fun k hlow hhigh => by omega⟩
  | succ left ih =>
    intro i
    rw [searchFrom]
    cases hbyte : searchByte (start i) with
    | some j =>
      obtain ⟨hj, hclear⟩ := searchByte_some hbyte
      refine .inr ⟨8 * i + j, rfl, by omega, ?_⟩
      have hdiv : (8 * i + j) / 8 = i := by omega
      have hmod : (8 * i + j) % 8 = j := by omega
      rw [bit, hdiv, hmod]
      exact hclear
    | none =>
      have hshift : i + 1 + left = i + (left + 1) := by omega
      rcases ih (i + 1) with ⟨hres, hrest⟩ | ⟨k, hres, hlt, hclear⟩
      · refine .inl ⟨hres, fun k hlow hhigh => ?_⟩
        by_cases hhere : k < 8 * (i + 1)
        · have hdiv : k / 8 = i := by omega
          rw [bit, hdiv]
          exact searchByte_none hbyte (Nat.mod_lt k (by decide))
        · exact hrest k (by omega) (by omega)
      · exact .inr ⟨k, hres, by omega, hclear⟩

/-- Every bit of the group is set. -/
def Full (bitmaps : Bitmaps) (g : Nat) : Prop := ∀ i < 8 * BLKSIZE, bit (bitmaps g) i = true

theorem takeBit_none (h : takeBit bitmaps g = none) : Full bitmaps g := by
  unfold takeBit at h
  dsimp only at h
  split at h
  · cases h
  · rename_i hres
    rw [not_not] at hres
    rcases searchFrom_spec (bitmaps g) BLKSIZE 0 with ⟨-, hall⟩ | ⟨k, hk, -⟩
    · intro i hi
      exact hall i (Nat.zero_le _) (by omega)
    · have heq : searchFreeBit (bitmaps g) BLKSIZE = k := hk
      omega

/-- A bit has been found, and is set now. -/
theorem takeBit_some {bitmaps' : Bitmaps} {i : Nat} (h : takeBit bitmaps g = some (bitmaps', i)) :
    i < 8 * BLKSIZE ∧ bit (bitmaps g) i = false ∧
      bitmaps' = update bitmaps g (setBit (bitmaps g) i) := by
  unfold takeBit at h
  dsimp only at h
  split at h
  · rename_i hres
    cases h
    rcases searchFrom_spec (bitmaps g) BLKSIZE 0 with ⟨hnone, -⟩ | ⟨k, hk, hlt, hclear⟩
    · exact absurd hnone hres
    · have heq : searchFreeBit (bitmaps g) BLKSIZE = k := hk
      rw [heq, Int.toNat_natCast]
      exact ⟨by omega, hclear, rfl⟩
  · cases h

/-- A group with a clear bit gives one. -/
theorem takeBit_of_not_full (h : ¬ Full bitmaps g) :
    ∃ bitmaps' i, takeBit bitmaps g = some (bitmaps', i) := by
  cases htake : takeBit bitmaps g with
  | some r => exact ⟨r.1, r.2, rfl⟩
  | none => exact absurd (takeBit_none htake) h

theorem takeBit_of_full (h : Full bitmaps g) : takeBit bitmaps g = none := by
  cases htake : takeBit bitmaps g with
  | none => rfl
  | some r =>
    obtain ⟨bitmaps', i⟩ := r
    obtain ⟨hlt, hclear, -⟩ := takeBit_some htake
    rw [h i hlt] at hclear
    cases hclear

/-! ## The second phase -/

/-- The number that the second phase takes for the first block of a group. -/
def base (geo : Geometry) (grpNo g : Nat) : Nat :=
  if grpNo < g then geo.sBlocksPerGroup * (g - 1) else geo.sBlocksPerGroup * g

theorem base_succ (h : g ≠ grpNo) :
    base geo grpNo (g + 1) = base geo grpNo g + geo.sBlocksPerGroup := by
  unfold base
  by_cases hlt : grpNo < g
  · rw [if_pos (by omega), if_pos hlt, ← Nat.mul_succ]
    congr 1
    omega
  · rw [if_neg (by omega), if_neg hlt, Nat.mul_succ]

theorem base_skip : base geo grpNo (grpNo + 1) = base geo grpNo grpNo := by
  unfold base
  rw [if_pos (Nat.lt_succ_self grpNo), if_neg (Nat.lt_irrefl grpNo), Nat.add_sub_cancel]

/-- The first group that is not full gives a bit, under a number counted from its base. -/
theorem ballocLoop_spec (geo : Geometry) (bitmaps : Bitmaps) (grpNo left : Nat) :
    ∀ gIdx, (ballocLoop geo bitmaps grpNo left gIdx (base geo grpNo gIdx) = (bitmaps, -1) ∧
        ∀ g, gIdx ≤ g → g < gIdx + left → g ≠ grpNo → Full bitmaps g) ∨
      ∃ g i, gIdx ≤ g ∧ g < gIdx + left ∧ g ≠ grpNo ∧
        (∀ h, gIdx ≤ h → h < g → h ≠ grpNo → Full bitmaps h) ∧
        i < 8 * BLKSIZE ∧ bit (bitmaps g) i = false ∧
        ballocLoop geo bitmaps grpNo left gIdx (base geo grpNo gIdx)
          = (update bitmaps g (setBit (bitmaps g) i), ((i + base geo grpNo g : Nat) : Int)) := by
  induction left with
  | zero =>
    intro gIdx
    exact .inl ⟨rfl, fun g hlow hhigh => by omega⟩
  | succ left ih =>
    intro gIdx
    rw [ballocLoop]
    -- what the rest of the groups say, once this one is known to be full or left out
    have hgo : (gIdx ≠ grpNo → Full bitmaps gIdx) → ∀ {r : Bitmaps × Int},
        r = ballocLoop geo bitmaps grpNo left (gIdx + 1) (base geo grpNo (gIdx + 1)) →
        (r = (bitmaps, -1) ∧ ∀ g, gIdx ≤ g → g < gIdx + (left + 1) → g ≠ grpNo → Full bitmaps g) ∨
        ∃ g i, gIdx ≤ g ∧ g < gIdx + (left + 1) ∧ g ≠ grpNo ∧
          (∀ h, gIdx ≤ h → h < g → h ≠ grpNo → Full bitmaps h) ∧
          i < 8 * BLKSIZE ∧ bit (bitmaps g) i = false ∧
          r = (update bitmaps g (setBit (bitmaps g) i),
            ((i + base geo grpNo g : Nat) : Int)) := by
      rintro hhere r rfl
      have hcase : ∀ h, gIdx ≤ h → h ≠ grpNo → (gIdx + 1 ≤ h → Full bitmaps h) → Full bitmaps h := by
        intro h hlow hne hlater
        by_cases heq : h = gIdx
        · rw [heq]
          exact hhere (heq ▸ hne)
        · exact hlater (by omega)
      rcases ih (gIdx + 1) with ⟨hres, hall⟩ | ⟨g, i, hlow, hhigh, hne, hbefore, hi, hclear, hres⟩
      · exact .inl ⟨hres, fun g hlow hhigh hne =>
          hcase g hlow hne fun hlater => hall g hlater (by omega) hne⟩
      · refine .inr ⟨g, i, by omega, by omega, hne, ?_, hi, hclear, hres⟩
        exact fun h hl hg hn => hcase h hl hn fun hlater => hbefore h hlater hg hn
    by_cases hpref : gIdx = grpNo
    · rw [if_pos hpref]
      refine hgo (fun hne => absurd hpref hne) ?_
      rw [hpref, base_skip]
    · rw [if_neg hpref]
      by_cases hfull : Full bitmaps gIdx
      · rw [takeBit_of_full hfull]
        refine hgo (fun _ => hfull) ?_
        rw [base_succ hpref]
      · obtain ⟨bitmaps', i, htake⟩ := takeBit_of_not_full hfull
        obtain ⟨hi, hclear, rfl⟩ := takeBit_some htake
        rw [htake]
        exact .inr ⟨gIdx, i, Nat.le_refl _, by omega, hpref, fun h hl hg => by omega, hi, hclear, rfl⟩

/-! ## What an allocation is to do -/

/-- Some bit is clear: one clear bit is set and its number handed out, and giving that number back
    undoes it.  Every bit is set: nothing changes, and -1 says so. -/
structure Allocates (geo : Geometry) (bitmaps : Bitmaps) (grpNo : Nat) : Prop where
  found : (∃ g < geo.grpNum, ∃ i < geo.sBlocksPerGroup, bit (bitmaps g) i = false) →
    ∃ g < geo.grpNum, ∃ i < geo.sBlocksPerGroup, bit (bitmaps g) i = false ∧
      (balloc geo bitmaps grpNo).2 = ((geo.sBlocksPerGroup * g + i : Nat) : Int) ∧
      (∀ h k, bit ((balloc geo bitmaps grpNo).1 h) k
        = (decide (h = g ∧ k = i) || bit (bitmaps h) k)) ∧
      bfree geo (balloc geo bitmaps grpNo).1 (balloc geo bitmaps grpNo).2.toNat = bitmaps
  full : (∀ g < geo.grpNum, ∀ i < geo.sBlocksPerGroup, bit (bitmaps g) i = true) →
    balloc geo bitmaps grpNo = (bitmaps, -1)

/-- The group that gives the block is the preferred one or lies below it, and its numbers have 32
    bits; or no group has a block to give. -/
def InReach (geo : Geometry) (bitmaps : Bitmaps) (grpNo : Nat) : Prop :=
  (∀ g < geo.grpNum, Full bitmaps g) ∨
  ∃ g, g ≤ grpNo ∧ geo.sBlocksPerGroup * g < 2 ^ 32 ∧ ¬ Full bitmaps g ∧
    (g = grpNo ∨ Full bitmaps grpNo ∧ ∀ h < g, Full bitmaps h)

/-- What `balloc` does: the group it takes the bit from, and the number it hands out. -/
theorem balloc_spec (geo : Geometry) (bitmaps : Bitmaps) (hgrp : grpNo < geo.grpNum) :
    (balloc geo bitmaps grpNo = (bitmaps, -1) ∧ ∀ g < geo.grpNum, Full bitmaps g) ∨
    ∃ g i, g < geo.grpNum ∧ i < 8 * BLKSIZE ∧ bit (bitmaps g) i = false ∧
      (g = grpNo ∨ Full bitmaps grpNo ∧ ∀ h < g, Full bitmaps h) ∧
      balloc geo bitmaps grpNo = (update bitmaps g (setBit (bitmaps g) i),
        ((i + if g = grpNo then geo.sBlocksPerGroup * grpNo % 2 ^ 32 else base geo grpNo g : Nat) :
          Int)) := by
  unfold balloc
  by_cases hfull : Full bitmaps grpNo
  · rw [takeBit_of_full hfull]
    have hpref : ∀ {h}, (h ≠ grpNo → Full bitmaps h) → Full bitmaps h := by
      intro h hother
      by_cases heq : h = grpNo
      · rw [heq]
        exact hfull
      · exact hother heq
    have hzero : base geo grpNo 0 = 0 := rfl
    have hloop := ballocLoop_spec geo bitmaps grpNo geo.grpNum 0
    rw [hzero, Nat.zero_add] at hloop
    rcases hloop with ⟨hres, hall⟩ | ⟨g, i, -, hlt, hne, hbefore, hi, hclear, hres⟩
    · exact .inl ⟨hres, fun g hg => hpref fun hne => hall g (Nat.zero_le g) hg hne⟩
    · refine .inr ⟨g, i, hlt, hi, hclear, .inr ⟨hfull, fun h hh => ?_⟩, ?_⟩
      · exact hpref fun hne' => hbefore h (Nat.zero_le h) hh hne'
      · rw [if_neg hne]
        exact hres
  · obtain ⟨bitmaps', i, htake⟩ := takeBit_of_not_full hfull
    obtain ⟨hi, hclear, rfl⟩ := takeBit_some htake
    rw [htake]
    refine .inr ⟨grpNo, i, hgrp, hi, hclear, .inl rfl, ?_⟩
    rw [if_pos rfl]

/-- One bit more is set. -/
theorem bit_take (bitmaps : Bitmaps) (g i h k : Nat) :
    bit (update bitmaps g (setBit (bitmaps g) i) h) k
      = (decide (h = g ∧ k = i) || bit (bitmaps h) k) := by
  by_cases hg : h = g
  · subst hg
    rw [update_self, bit_setBit]
    simp only [true_and]
  · rw [update_of_ne hg, decide_eq_false (fun hand => hg hand.1), Bool.false_or]

/-- The two bits that `bfree` and an allocation touch. -/
theorem bfree_bit (geo : Geometry) (bitmaps : Bitmaps) (n h k : Nat) :
    bit (bfree geo bitmaps n h) k = (!decide (h = n % 2 ^ 32 / geo.sBlocksPerGroup ∧
      k = n % 2 ^ 32 % geo.sBlocksPerGroup) && bit (bitmaps h) k) := by
  unfold bfree
  by_cases hg : h = n % 2 ^ 32 / geo.sBlocksPerGroup
  · rw [hg, update_self, bit_clearBit]
    simp only [true_and]
  · rw [update_of_ne hg, decide_eq_false (fun hand => hg hand.1), Bool.not_false,
      Bool.true_and]

/-- Giving back what has just been taken, under its own number. -/
theorem bfree_take {i : Nat} (hspg : geo.sBlocksPerGroup = 8 * BLKSIZE)
    (hbits : geo.sBlocksPerGroup * g < 2 ^ 32) (hi : i < 8 * BLKSIZE)
    (hclear : bit (bitmaps g) i = false) :
    bfree geo (update bitmaps g (setBit (bitmaps g) i)) (geo.sBlocksPerGroup * g + i)
      = bitmaps := by
  rw [hspg] at hbits
  have hsize : 8 * BLKSIZE = 32768 := rfl
  rw [hsize] at hbits hi
  have hsmall : (32768 * g + i) % 2 ^ 32 = 32768 * g + i := by omega
  have hdiv : (32768 * g + i) / 32768 = g := by omega
  have hmod : (32768 * g + i) % 32768 = i := by omega
  unfold bfree
  rw [hspg, hsize]
  dsimp only
  rw [hsmall, hdiv, hmod, update_self, clearBit_setBit hclear, update_idem]
  exact update_eq_self g bitmaps

theorem not_full {i : Nat} (hi : i < 8 * BLKSIZE) (hclear : bit (bitmaps g) i = false) :
    ¬ Full bitmaps g := fun hfull => by
  rw [hfull i hi] at hclear
  cases hclear

/-- An allocation that does what it should has found its block in reach. -/
theorem Allocates.inReach (h : Allocates geo bitmaps grpNo)
    (hspg : geo.sBlocksPerGroup = 8 * BLKSIZE) (hgrp : grpNo < geo.grpNum) :
    InReach geo bitmaps grpNo := by
  have hsize : 8 * BLKSIZE = 32768 := rfl
  rcases balloc_spec geo bitmaps hgrp with
    ⟨-, hall⟩ | ⟨g, i, hg, hi, hclear, hfirst, hres⟩
  · exact .inl hall
  · obtain ⟨g', -, j, -, -, hnum, hbits, hback⟩ := h.found ⟨g, hg, i, hspg ▸ hi, hclear⟩
    rw [hres] at hnum hbits hback
    -- the bit that was set is the one the number stands for
    have hsame : g = g' ∧ i = j := by
      have hset := hbits g i
      rw [bit_take, hclear, Bool.or_false, Bool.or_false] at hset
      have hself : decide (g = g ∧ i = i) = true := decide_eq_true ⟨rfl, rfl⟩
      rw [hself] at hset
      exact of_decide_eq_true hset.symm
    obtain ⟨rfl, rfl⟩ := hsame
    have hnum := Int.natCast_inj.mp hnum
    refine .inr ⟨g, ?_⟩
    have hi' := hi
    rw [hsize] at hspg hi'
    rw [hspg] at hnum ⊢
    by_cases hpref : g = grpNo
    · rw [if_pos hpref, ← hpref] at hnum
      exact ⟨Nat.le_of_eq hpref, by omega, not_full hi hclear, hfirst⟩
    · rw [if_neg hpref, base, hspg] at hnum
      have hle : ¬ grpNo < g := by
        intro hlt
        rw [if_pos hlt] at hnum
        omega
      rw [base, if_neg hpref, if_neg hle, hspg, Int.toNat_natCast] at hback
      refine ⟨Nat.le_of_not_lt hle, ?_, not_full hi hclear, hfirst⟩
      -- a number cut to 32 bits would give back the bit of another group
      by_contra hbig
      have hbit := congrArg (fun b : Bitmaps => bit (b g) i) hback
      dsimp only at hbit
      rw [bfree_bit, bit_take, hclear, hspg] at hbit
      have hother : ¬ (g = (i + 32768 * g) % 2 ^ 32 / 32768 ∧
          i = (i + 32768 * g) % 2 ^ 32 % 32768) := by omega
      rw [decide_eq_false hother, decide_eq_true ⟨rfl, rfl⟩] at hbit
      cases hbit

/-- A block in reach is allocated as it should be. -/
theorem InReach.allocates (h : InReach geo bitmaps grpNo)
    (hspg : geo.sBlocksPerGroup = 8 * BLKSIZE) (hgrp : grpNo < geo.grpNum) :
    Allocates geo bitmaps grpNo := by
  rcases balloc_spec geo bitmaps hgrp with
    ⟨hres, hall⟩ | ⟨g, i, hg, hi, hclear, hfirst, hres⟩
  · refine ⟨?_, fun _ => hres⟩
    rintro ⟨g, hg, i, hi, hclear⟩
    rw [hall g hg i (hspg ▸ hi)] at hclear
    cases hclear
  · have hopen := not_full hi hclear
    rcases h with hall | ⟨g', hle, hbits, hopen', hfirst'⟩
    · exact absurd (hall g hg) hopen
    · -- the group found is the one in reach
      have hsame : g = g' := by
        rcases hfirst with rfl | ⟨hfull, hbelow⟩
        · rcases hfirst' with rfl | ⟨hfull', -⟩
          · rfl
          · exact absurd hfull' hopen
        · rcases hfirst' with rfl | ⟨-, hbelow'⟩
          · exact absurd hfull hopen'
          · rcases Nat.lt_trichotomy g g' with hlt | heq | hgt
            · exact absurd (hbelow' g hlt) hopen
            · exact heq
            · exact absurd (hbelow g' hgt) hopen'
      subst hsame
      have hnum : (i + if g = grpNo then geo.sBlocksPerGroup * grpNo % 2 ^ 32
          else base geo grpNo g) = geo.sBlocksPerGroup * g + i := by
        by_cases hpref : g = grpNo
        · rw [if_pos hpref, ← hpref, Nat.mod_eq_of_lt hbits, Nat.add_comm]
        · rw [if_neg hpref, base, if_neg (by omega), Nat.add_comm]
      rw [hnum] at hres
      refine ⟨fun _ => ⟨g, hg, i, hspg ▸ hi, hclear, ?_, ?_, ?_⟩, fun hall => ?_⟩
      · rw [hres]
      · rw [hres]
        exact bit_take bitmaps g i
      · rw [hres, Int.toNat_natCast]
        exact bfree_take hspg hbits hi hclear
      · rw [hall g hg i (hspg ▸ hi)] at hclear
        cases hclear

/-- The groups have as many blocks as a bitmap block has bits.  Then `balloc` allocates a block as
    it should exactly if the first group it finds one in is in reach. -/
theorem balloc_exact (hspg : geo.sBlocksPerGroup = 8 * BLKSIZE) (hgrp : grpNo < geo.grpNum) :
    Allocates geo bitmaps grpNo ↔ InReach geo bitmaps grpNo :=
  ⟨fun h => h.inReach hspg hgrp, fun h => h.allocates hspg hgrp⟩

/-- Three groups, of which the last one alone has a block to give. -/
def lastGroup : Bitmaps := fun g _ => if g = 2 then 0 else 255

/-- The block is found in the group that is asked for. -/
theorem balloc_exact_preferred : Allocates ⟨8 * BLKSIZE, 3⟩ lastGroup 2 := by
  refine (balloc_exact rfl (by decide)).mpr (.inr ⟨2, ?_⟩)
  refine ⟨Nat.le_refl 2, by decide, fun hfull => ?_, .inl rfl⟩
  exact absurd (hfull 0 (by decide)) (by decide)

/-- Asked for a block near group 1, `balloc` marks one in group 2 and hands out one of group 1. -/
theorem balloc_wrong_number : ¬ Allocates ⟨8 * BLKSIZE, 3⟩ lastGroup 1 := by
  intro hcorrect
  have hreach := hcorrect.inReach rfl (by decide)
  have hfull : ∀ g, g ≠ 2 → Full lastGroup g := by
    intro g hg i _
    have hbyte : lastGroup g (i / 8) = 255 := if_neg hg
    have hmod : i % 8 < 8 := Nat.mod_lt i (by decide)
    have hones : ∀ j < 8, (255 : UInt8).toBitVec.getLsbD j = true := by decide
    rw [bit, hbyte]
    exact hones (i % 8) hmod
  rcases hreach with hall | ⟨g, hle, -, hopen, -⟩
  · exact absurd (hall 2 (by decide) 0 (by decide)) (by decide)
  · exact hopen (hfull g (by omega))

end Uniks.BlockBitmap
