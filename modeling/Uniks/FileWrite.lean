/-
  Writing to a file and changing its length: `writei` and `itruncate` of `fs/ext2fs.c`, on the
  blocks of `Uniks.Bmap`.

  `writei` asks `bmap` for the block of each piece and copies the piece into it; when the file has
  become longer it sets `i_size` and computes `i_blocks` anew from the length.  `itruncate` makes a
  file longer by writing zeros and shorter by one `bunmap` for each block, last one first.

  No sync is running (a call that meets one returns `-EBUSY` and changes nothing).  Which blocks the
  device delivers to `writei` is an argument, `served`; the bitmaps and the index blocks are always
  delivered.  The loop that makes a file longer adds an error to the offset when it meets one
  (`growStep`), so it is run round by round; it is stated for any `writei`.
-/
import Uniks.Bunmap
import Mathlib.Logic.Function.Iterate

namespace Uniks.Bmap

open Uniks.ByteMem Uniks.BlockBitmap

abbrev EXT2_MAX_FBLKS : Nat := EXT2_TIND_LIMIT

def EIO : Int := 5

/-- A file with its size. -/
structure SizedFile where
  file : File
  iSize : UInt32

/-- A piece of a block is overwritten; `blk_read` takes 32 bits of the number. -/
def File.copyBlock (f : File) (addr pos m : Nat) (src : Bytes) : File :=
  let b := addr % 2 ^ 32
  { f with data := Function.update f.data b (splice (f.data b) pos m src) }

/-- A device that delivers every block. -/
def allServed : Nat → Bool := fun _ => true

variable (balloc : Bitmaps → Bitmaps × Int) (served : Nat → Bool) (geo : Geometry)

/-- The loop of `writei`: the file, and the value of `tot` in the end. -/
def writeiLoop (src : Bytes) (off n tot : Nat) (f : File) : Option (File × Nat) :=
  if tot < n then
    match bmap balloc f (off / BLKSIZE % 2 ^ 32) with
    | none => none
    | some (f, addr) =>
      if addr = 0 then some (f, tot)
      else if served (addr % 2 ^ 32) then
        let m := min (n - tot) (BLKSIZE - off % BLKSIZE)
        writeiLoop src (off + m) n (tot + m)
          (f.copyBlock addr (off % BLKSIZE) m fun k => src (tot + k))
      else some (f, tot)
  else some (f, tot)
termination_by n - tot
decreasing_by
  have hlt : off % BLKSIZE < BLKSIZE := Nat.mod_lt _ (by decide)
  omega

/-- The source's `writei` from a kernel buffer; `none` is a failed assertion. -/
def writei (s : SizedFile) (src : Bytes) (off n : Nat) : Option (SizedFile × Int) :=
  if off > s.iSize.toNat ∨ (off + n) % 2 ^ 64 < off then some (s, -1)
  else if off + n > EXT2_MAX_FBLKS * BLKSIZE then some (s, -1)
  else
    match writeiLoop balloc served src off n 0 s.file with
    | none => none
    | some (f, tot) =>
      let off := off + tot
      let s : SizedFile :=
        if off > s.iSize.toNat then
          { file := { f with ino := { f.ino with
              iBlocks := UInt32.ofNat ((off / BLKSIZE + 1) * (BLKSIZE / SECTORSIZE)) } }
            iSize := UInt32.ofNat off }
        else { s with file := f }
      some (s, if tot ≠ 0 then tot else - EIO)

/-- The macro `MIN(BLKSIZE, x)`: the second argument becomes an `int`, and the result a `size_t`. -/
def minBlksize (x : Nat) : Nat :=
  let b : Int := (BitVec.ofNat 32 x).toInt
  if (BLKSIZE : Int) < b then BLKSIZE else u64 b

/-- How far the loop that makes a file longer has come. -/
inductive Grow (σ : Type) where
  | looping (s : σ) (off : Nat)
  | returned (s : σ) (ret : Int)
  | panicked

/-- A round of the loop of `itruncate`, or what is behind it; the result of `writei` becomes
    unsigned. -/
def growStep {σ : Type} (write : σ → Nat → Nat → Option (σ × Int)) (setSize : σ → Nat → σ)
    (length : Nat) : Grow σ → Grow σ
  | .looping s off =>
    if off < length then
      match write s off (minBlksize ((length + 2 ^ 64 - off) % 2 ^ 64)) with
      | none => .panicked
      | some (s, ret) =>
        let res := u64 ret
        if res > 0 then .looping s ((off + res) % 2 ^ 64) else .returned (setSize s off) (-1)
    else if off = length then .returned (setSize s off) 0
    else .panicked
  | r => r

/-- Store a size. -/
def SizedFile.setSize (s : SizedFile) (off : Nat) : SizedFile :=
  { s with iSize := UInt32.ofNat off }

/-- The block `zero_blk`. -/
def zeroBlk : Bytes := fun _ => 0

/-- The loop of `itruncate` that makes a file shorter. -/
def shrinkLoop (lowerBound i : Nat) (f : File) : Option File :=
  if lowerBound < i then
    match bunmap geo f ((i - 1) / BLKSIZE) with
    | none => none
    | some f => shrinkLoop lowerBound (i - BLKSIZE) f
  else some f
termination_by i
decreasing_by
  have hblk : BLKSIZE = 4096 := rfl
  omega

/-- The variable `lower_bound`, which has 32 bits. -/
def lowerBound (length : Nat) : Nat := (length + (BLKSIZE - 1)) / BLKSIZE * BLKSIZE % 2 ^ 32

/-- The part of `itruncate` that makes a file shorter.  Its last assertion reads
    `(i_blocks == (length == 0)) ? 0 : …`. -/
def shrink (s : SizedFile) (length : Nat) : Option SizedFile :=
  match shrinkLoop geo (lowerBound length) s.iSize.toNat s.file with
  | none => none
  | some f =>
    if f.ino.iBlocks.toNat = (if length = 0 then 1 else 0) then none
    else some { file := f, iSize := UInt32.ofNat length }

/-- The source's `itruncate` returns 0. -/
def Truncates (s : SizedFile) (length : Nat) (s' : SizedFile) : Prop :=
  if length > s.iSize.toNat then
    ∃ rounds, (growStep (fun s off n => writei balloc served s zeroBlk off n) SizedFile.setSize
      length)^[rounds] (.looping s s.iSize.toNat) = .returned s' 0
  else if length < s.iSize.toNat then shrink geo s length = some s'
  else s' = s

/-! ## The macro -/

/-- The macro `MIN` is the minimum below 2^31. -/
theorem minBlksize_eq {x : Nat} (h : x < 2 ^ 31) : minBlksize x = min BLKSIZE x := by
  have hnat : (BitVec.ofNat 32 x).toNat = x := Nat.mod_eq_of_lt (Nat.lt_trans h (by decide))
  have hint : (BitVec.ofNat 32 x).toInt = (x : Int) := by
    rw [BitVec.toInt_eq_toNat_of_lt (by rw [hnat]; omega), hnat]
  have hblk : BLKSIZE = 4096 := rfl
  have hcast : u64 (x : Int) = x := by
    show ((x : Int) % 2 ^ 64).toNat = x
    omega
  rw [minBlksize, hint, hcast]
  split <;> omega

/-- From there on it is a negative `int`, and a huge number of bytes. -/
theorem minBlksize_neg {x : Nat} (hlow : 2 ^ 31 ≤ x) (h : x < 2 ^ 32) :
    minBlksize x = 2 ^ 64 - 2 ^ 32 + x := by
  have hnat : (BitVec.ofNat 32 x).toNat = x := Nat.mod_eq_of_lt h
  have hint : (BitVec.ofNat 32 x).toInt = (x : Int) - 2 ^ 32 := by
    rw [BitVec.toInt_eq_toNat_cond, hnat, if_neg (by omega)]
    rfl
  have hneg : ¬ (BLKSIZE : Int) < (x : Int) - 2 ^ 32 := by
    show ¬ (4096 : Int) < (x : Int) - 2 ^ 32
    omega
  rw [minBlksize, hint, if_neg hneg]
  show (((x : Int) - 2 ^ 32) % 2 ^ 64).toNat = _
  omega

end Uniks.Bmap
