/-
  `itruncate` making a file longer, when calls of `writei` fail (`fs/ext2fs.c`).

  The file is a size and bytes.  Each call of `writei` meets a sync that is running, or blocks for
  so many bytes and no more (`Meets`); it returns `-EBUSY`, `-EIO` or a count.  The loop of
  `itruncate` keeps the result in 64 unsigned bits and asks whether it is more than 0.  So an error
  is added to the offset, which moves back by 16 or by 5: the zeros to come are written over the
  file, or, in front of its beginning, the offset wraps around and the assertion behind the loop
  fails.  The return of -1 is never reached (`iterate_returns`).

  `offset` is where the results lead, as signed numbers, and `Climbs` says that they lead to the
  length without doing harm.
-/
import Uniks.FileWrite
import Mathlib.Data.Nat.Find

namespace Uniks.Growth

open Uniks.ByteMem Uniks.BlockBitmap
open Uniks.Bmap hiding EIO writei

def EBUSY : Int := 16

/-- A file as its bytes. -/
structure ByteFile where
  iSize : UInt32
  bytes : Bytes

/-- What a call of `writei` meets. -/
inductive Meets where
  | syncing
  /-- The blocks of the next `k` bytes can be had. -/
  | room (k : Nat)

/-! ## The code -/

/-- The source's `writei` from a kernel buffer. -/
def writei (e : Meets) (s : ByteFile) (src : Bytes) (off n : Nat) : ByteFile × Int :=
  match e with
  | .syncing => (s, - EBUSY)
  | .room k =>
    if off > s.iSize.toNat ∨ (off + n) % 2 ^ 64 < off then (s, -1)
    else if off + n > EXT2_MAX_FBLKS * BLKSIZE then (s, -1)
    else
      let tot := min n k
      let s : ByteFile :=
        { iSize := if off + tot > s.iSize.toNat then UInt32.ofNat (off + tot) else s.iSize
          bytes := splice s.bytes off tot src }
      (s, if tot ≠ 0 then tot else - Bmap.EIO)

variable (meets : Nat → Meets) (length : Nat)

/-- The next call of `writei`; the file comes with the number of calls made so far. -/
def nextWritei (s : ByteFile × Nat) (off n : Nat) : Option ((ByteFile × Nat) × Int) :=
  let (t, ret) := writei (meets s.2) s.1 zeroBlk off n
  some ((t, s.2 + 1), ret)

def setSize (s : ByteFile × Nat) (off : Nat) : ByteFile × Nat :=
  ({ s.1 with iSize := UInt32.ofNat off }, s.2)

/-- A round of the loop of `itruncate`. -/
def round : Grow (ByteFile × Nat) → Grow (ByteFile × Nat) :=
  growStep (nextWritei meets) setSize length

/-- The file that `itruncate` begins with. -/
def start (s : ByteFile) : Grow (ByteFile × Nat) := .looping (s, 0) s.iSize.toNat

/-! ## What it is to do, and when it does -/

/-- `itruncate` returns; the old bytes are as they were, those behind them are 0; and it has reached
    the length and returns 0, or it returns -1. -/
def CleanGrowth (s : ByteFile) : Prop :=
  ∃ rounds t calls ret, (round meets length)^[rounds] (start s) = .returned (t, calls) ret ∧
    (∀ i < s.iSize.toNat, t.bytes i = s.bytes i) ∧
    (∀ i, s.iSize.toNat ≤ i → i < t.iSize.toNat → t.bytes i = 0) ∧
    (ret = 0 ∧ t.iSize.toNat = length ∨ ret = -1 ∧ s.iSize.toNat ≤ t.iSize.toNat)

/-- The result of a call when so many bytes are left. -/
def result (e : Meets) (left : Nat) : Int :=
  match e with
  | .syncing => - EBUSY
  | .room k =>
    if left < 2 ^ 31 then
      let tot := min (min BLKSIZE left) k
      if tot ≠ 0 then tot else - Bmap.EIO
    else -1

/-- The results, added to the old size one after another. -/
def offset (size : Nat) : Nat → Int
  | 0 => size
  | k + 1 => offset size k + result (meets k) (length - offset size k).toNat

/-- The results of the first `k` calls do not leave the range from 0 to the length. -/
def InRange (size k : Nat) : Prop :=
  ∀ j < k, 0 ≤ offset meets length size j ∧ offset meets length size j < length

/-- One of the first `k` calls writes byte `i`. -/
def Covers (size k i : Nat) : Prop :=
  ∃ j < k, offset meets length size j ≤ i ∧ i < offset meets length size (j + 1)

/-- The results lead to the length before they lead below 0, and what is written over the old bytes
    on the way finds zeros there. -/
def Climbs (s : ByteFile) : Prop :=
  length < 2 ^ 32 ∧ ∃ k, offset meets length s.iSize.toNat k = length ∧
    InRange meets length s.iSize.toNat k ∧
    ∀ i < s.iSize.toNat, Covers meets length s.iSize.toNat k i → s.bytes i = 0

variable {meets length} {s t : ByteFile} {e : Meets} {off size k : Nat}

/-! ## One call -/

/-- What a call does to a file that reaches as far as the offset. -/
theorem writei_result (e : Meets) (hoff : off ≤ t.iSize.toNat) (hlt : off < length)
    (h32 : length < 2 ^ 32) :
    ∃ t', writei e t zeroBlk off (minBlksize (length - off)) = (t', result e (length - off)) ∧
      (∀ i : Nat, t'.bytes i
        = if off ≤ i ∧ (i : Int) < off + result e (length - off) then 0 else t.bytes i) ∧
      (t'.iSize.toNat : Int) = max (t.iSize.toNat : Int) (off + result e (length - off)) := by
  -- a call that fails leaves the file as it is
  have hfails : ∀ {r : Int}, r < 0 → (∀ i : Nat, t.bytes i
      = if off ≤ i ∧ (i : Int) < off + r then 0 else t.bytes i) ∧
      (t.iSize.toNat : Int) = max (t.iSize.toNat : Int) (off + r) := by
    intro r hr
    constructor
    · intro i
      rw [if_neg (by omega)]
    · omega
  cases e with
  | syncing =>
    have hbusy : - EBUSY < 0 := by decide
    exact ⟨t, rfl, hfails hbusy⟩
  | room k =>
    have hmax : EXT2_MAX_FBLKS * BLKSIZE = 4402345721856 := by decide
    have hinside : ¬ off > t.iSize.toNat := Nat.not_lt_of_le hoff
    by_cases hleft : length - off < 2 ^ 31
    · rw [minBlksize_eq hleft, result]
      dsimp only
      rw [if_pos hleft]
      have hblk : BLKSIZE = 4096 := rfl
      generalize hn : min BLKSIZE (length - off) = n
      have hrange : ¬ (off > t.iSize.toNat ∨ (off + n) % 2 ^ 64 < off) := by omega
      have hsize : ¬ off + n > EXT2_MAX_FBLKS * BLKSIZE := by omega
      rw [writei]
      dsimp only
      rw [if_neg hrange, if_neg hsize]
      generalize htot : min n k = tot
      by_cases hzero : tot = 0
      · -- not a single block
        subst hzero
        have hnone : ¬ (0 : Nat) ≠ 0 := fun h => h rfl
        have herr : - Bmap.EIO < 0 := by decide
        rw [if_neg hnone, Nat.add_zero, if_neg hinside, splice_zero]
        exact ⟨t, rfl, hfails herr⟩
      · rw [if_pos hzero]
        refine ⟨_, rfl, fun i => ?_, ?_⟩
        · show splice t.bytes off tot zeroBlk i = _
          by_cases hi : off ≤ i ∧ i < off + tot
          · rw [splice_of_mem hi.1 hi.2, if_pos (by omega)]
            rfl
          · rw [splice_of_not_mem hi, if_neg (by omega)]
        · show ((if off + tot > t.iSize.toNat then UInt32.ofNat (off + tot) else t.iSize).toNat : Int)
            = _
          by_cases hgrow : off + tot > t.iSize.toNat
          · have hnum : (UInt32.ofNat (off + tot)).toNat = off + tot := UInt32.toNat_ofNat_of_lt' (by
              show off + tot < 2 ^ 32
              omega)
            rw [if_pos hgrow, hnum]
            omega
          · rw [if_neg hgrow]
            omega
    · -- the number of bytes is negative as an `int`
      have hres : result (.room k) (length - off) = -1 := if_neg hleft
      have hminus : (-1 : Int) < 0 := by decide
      rw [hres, minBlksize_neg (by omega) (by omega)]
      refine ⟨t, ?_, hfails hminus⟩
      rw [writei]
      dsimp only
      by_cases hrange : off > t.iSize.toNat ∨ (off + (2 ^ 64 - 2 ^ 32 + (length - off))) % 2 ^ 64 < off
      · rw [if_pos hrange]
      · rw [if_neg hrange, if_pos (by omega)]

theorem result_bounds (e : Meets) {left : Nat} (h : 0 < left) :
    -16 ≤ result e left ∧ result e left ≠ 0 ∧ result e left ≤ left := by
  have hblk : BLKSIZE = 4096 := rfl
  cases e with
  | syncing =>
    show -16 ≤ (-16 : Int) ∧ (-16 : Int) ≠ 0 ∧ (-16 : Int) ≤ left
    omega
  | room k =>
    rw [result]
    dsimp only
    split
    · split
      · omega
      · show -16 ≤ (-5 : Int) ∧ (-5 : Int) ≠ 0 ∧ (-5 : Int) ≤ left
        omega
    · omega

/-! ## The calls up to the end -/

/-- A signed number is added to an unsigned one. -/
theorem u64_add (off : Nat) (r : Int) : (off + u64 r) % 2 ^ 64 = u64 (off + r) := by
  show (off + (r % 2 ^ 64).toNat) % 2 ^ 64 = (((off : Int) + r) % 2 ^ 64).toNat
  omega

theorem covers_succ {i : Nat} : Covers meets length size (k + 1) i ↔
    Covers meets length size k i ∨
      offset meets length size k ≤ i ∧ (i : Int) < offset meets length size (k + 1) := by
  constructor
  · rintro ⟨j, hj, hi⟩
    rcases Nat.lt_succ_iff_lt_or_eq.mp hj with hlt | rfl
    · exact .inl ⟨j, hlt, hi⟩
    · exact .inr hi
  · rintro (⟨j, hj, hi⟩ | hi)
    · exact ⟨j, Nat.lt_succ_of_lt hj, hi⟩
    · exact ⟨k, Nat.lt_succ_self k, hi⟩

theorem InRange.of_succ (h : InRange meets length size (k + 1)) : InRange meets length size k :=
  fun j hj => h j (Nat.lt_succ_of_lt hj)

/-- The offset after calls in range has left it by 16 at most. -/
theorem InRange.bounds (h : InRange meets length size k) (hsize : size < length) :
    -16 ≤ offset meets length size k ∧ offset meets length size k ≤ length := by
  cases k with
  | zero =>
    show (-16 : Int) ≤ (size : Int) ∧ (size : Int) ≤ length
    omega
  | succ k =>
    obtain ⟨hlow, hhigh⟩ := h k (Nat.lt_succ_self k)
    have hres := result_bounds (meets k)
      (show 0 < ((length : Int) - offset meets length size k).toNat by omega)
    rw [offset]
    omega

/-- The file after the first `k` calls. -/
structure Trace (meets : Nat → Meets) (length : Nat) (s : ByteFile) (k : Nat) (t : ByteFile) :
    Prop where
  covered : ∀ i, Covers meets length s.iSize.toNat k i → t.bytes i = 0
  kept : ∀ i, ¬ Covers meets length s.iSize.toNat k i → t.bytes i = s.bytes i
  size : s.iSize.toNat ≤ t.iSize.toNat
  le : t.iSize.toNat ≤ length
  reach : offset meets length s.iSize.toNat k ≤ t.iSize.toNat
  new : ∀ i, s.iSize.toNat ≤ i → i < t.iSize.toNat → Covers meets length s.iSize.toNat k i

/-- The loop follows the offsets as long as they are in range. -/
theorem iterate_looping (hsize : s.iSize.toNat < length) (h32 : length < 2 ^ 32)
    (h : InRange meets length s.iSize.toNat k) :
    ∃ t, (round meets length)^[k] (start s)
        = .looping (t, k) (u64 (offset meets length s.iSize.toNat k)) ∧
      Trace meets length s k t := by
  induction k with
  | zero =>
    have hoff : u64 (offset meets length s.iSize.toNat 0) = s.iSize.toNat := u64_natCast (by omega)
    refine ⟨s, ?_, ⟨?_, fun _ _ => rfl, Nat.le_refl _, Nat.le_of_lt hsize, Int.le_refl _, ?_⟩⟩
    · rw [hoff]
      rfl
    · rintro i ⟨j, hj, -⟩
      exact absurd hj (Nat.not_lt_zero j)
    · intro i hlow hhigh
      omega
  | succ k ih =>
    obtain ⟨t, hrun, htrace⟩ := ih h.of_succ
    obtain ⟨hlow, hhigh⟩ := h k (Nat.lt_succ_self k)
    obtain ⟨off, hoff⟩ := Int.eq_ofNat_of_zero_le hlow
    have hreach := htrace.reach
    have hnext : offset meets length s.iSize.toNat (k + 1)
        = off + result (meets k) (length - off) := by
      have hleft : ((length : Int) - (off : Int)).toNat = length - off := by omega
      rw [offset, hoff, hleft]
    rw [hoff] at hrun hhigh hreach
    obtain ⟨t', hcall, hbytes, hsize'⟩ := writei_result (meets k) (show off ≤ t.iSize.toNat by omega)
      (show off < length by omega) h32
    have hres := result_bounds (meets k) (show 0 < length - off by omega)
    refine ⟨t', ?_, ?_⟩
    · have hleft : (length + 2 ^ 64 - off) % 2 ^ 64 = length - off := by omega
      have hpos : u64 (result (meets k) (length - off)) > 0 := by
        show (result (meets k) (length - off) % 2 ^ 64).toNat > 0
        omega
      rw [Function.iterate_succ_apply', hrun, u64_natCast (by omega), round, growStep,
        if_pos (by omega), hleft, nextWritei]
      dsimp only
      rw [hcall]
      dsimp only
      rw [if_pos hpos, u64_add, hnext]
    · have hcover : ∀ i : Nat, Covers meets length s.iSize.toNat (k + 1) i ↔
          Covers meets length s.iSize.toNat k i ∨
            off ≤ i ∧ (i : Int) < off + result (meets k) (length - off) := by
        intro i
        rw [covers_succ, hoff, hnext, Int.ofNat_le]
      have hold := htrace.size
      have hle := htrace.le
      refine ⟨fun i hi => ?_, fun i hi => ?_, by omega, by omega, by omega, fun i hlow hhigh => ?_⟩
      · rw [hbytes]
        split
        · rfl
        · rename_i hnot
          exact htrace.covered i (((hcover i).mp hi).resolve_right hnot)
      · rw [hcover, not_or] at hi
        rw [hbytes, if_neg hi.2]
        exact htrace.kept i hi.1
      · rw [hcover]
        by_cases hthere : i < t.iSize.toNat
        · exact .inl (htrace.new i hlow hthere)
        · right
          omega

/-! ## The end -/

/-- The offset is at the length: the loop ends, and `itruncate` returns 0. -/
theorem iterate_returned (hsize : s.iSize.toNat < length) (h32 : length < 2 ^ 32)
    (h : InRange meets length s.iSize.toNat k) (hend : offset meets length s.iSize.toNat k = length) :
    ∃ t, (round meets length)^[k + 1] (start s) = .returned (setSize (t, k) length) 0 ∧
      Trace meets length s k t := by
  obtain ⟨t, hrun, htrace⟩ := iterate_looping hsize h32 h
  refine ⟨t, ?_, htrace⟩
  rw [Function.iterate_succ_apply', hrun, hend, u64_natCast (by omega), round, growStep,
    if_neg (Nat.lt_irrefl _), if_pos rfl]

/-- The offset is below 0: it has wrapped around, and the assertion fails. -/
theorem iterate_panicked (hsize : s.iSize.toNat < length) (h32 : length < 2 ^ 32)
    (h : InRange meets length s.iSize.toNat k) (hend : offset meets length s.iSize.toNat k < 0) :
    (round meets length)^[k + 1] (start s) = .panicked := by
  obtain ⟨t, hrun, -⟩ := iterate_looping hsize h32 h
  have hbounds := h.bounds hsize
  have hwrap : length < u64 (offset meets length s.iSize.toNat k) := by
    show length < (offset meets length s.iSize.toNat k % 2 ^ 64).toNat
    omega
  rw [Function.iterate_succ_apply', hrun, round, growStep, if_neg (by omega), if_neg (by omega)]

/-- What the loop has ended in it stays in. -/
theorem iterate_ended {g : Grow (ByteFile × Nat)} (hsize : s.iSize.toNat < length)
    (h32 : length < 2 ^ 32) (h : InRange meets length s.iSize.toNat k)
    (hend : (round meets length)^[k + 1] (start s) = g) (hfix : round meets length g = g)
    {rounds : Nat} {r : ByteFile × Nat} {ret : Int}
    (hret : (round meets length)^[rounds] (start s) = .returned r ret) : g = .returned r ret := by
  by_cases hle : rounds ≤ k
  · obtain ⟨t, hrun, -⟩ := iterate_looping hsize h32 fun j hj => h j (Nat.lt_of_lt_of_le hj hle)
    rw [hrun] at hret
    cases hret
  · obtain ⟨more, rfl⟩ := Nat.exists_eq_add_of_le' (Nat.succ_le_of_lt (Nat.lt_of_not_le hle))
    rw [Function.iterate_add_apply, hend, Function.iterate_fixed hfix] at hret
    exact hret

/-- A loop that returns has left the range, at the length. -/
theorem returned_offset (hsize : s.iSize.toNat < length) (h32 : length < 2 ^ 32) {rounds : Nat}
    {r : ByteFile × Nat} {ret : Int}
    (hret : (round meets length)^[rounds] (start s) = .returned r ret) :
    ∃ k, InRange meets length s.iSize.toNat k ∧ offset meets length s.iSize.toNat k = length := by
  by_cases hstop : ∃ k, ¬ (0 ≤ offset meets length s.iSize.toNat k ∧
      offset meets length s.iSize.toNat k < length)
  · classical
    have hout := Nat.find_spec hstop
    have hrange : InRange meets length s.iSize.toNat (Nat.find hstop) := fun j hj =>
      not_not.mp (Nat.find_min hstop hj)
    refine ⟨Nat.find hstop, hrange, ?_⟩
    have hbounds := hrange.bounds hsize
    by_contra hne
    have hpanic := iterate_panicked hsize h32 hrange (by omega)
    exact nomatch iterate_ended hsize h32 hrange hpanic rfl hret
  · push Not at hstop
    obtain ⟨t, hrun, -⟩ := iterate_looping hsize h32 fun j (_ : j < rounds) =>
      ⟨(hstop j).1, (hstop j).2⟩
    rw [hrun] at hret
    cases hret

/-! ## Failures are never reported -/

theorem minBlksize_lt (x : Nat) : minBlksize x < 2 ^ 64 := by
  rw [minBlksize]
  split
  · show 4096 < 2 ^ 64
    decide
  · show ((BitVec.ofNat 32 x).toInt % 2 ^ 64).toNat < 2 ^ 64
    omega

/-- `writei` never returns 0. -/
theorem writei_pos (e : Meets) (src : Bytes) {n : Nat} (hn : n < 2 ^ 64) :
    u64 (writei e s src off n).2 > 0 := by
  cases e with
  | syncing =>
    show u64 (- EBUSY) > 0
    decide
  | room k =>
    rw [writei]
    dsimp only
    have hminus : u64 (-1) > 0 := by decide
    split
    · exact hminus
    · split
      · exact hminus
      · dsimp only
        split
        · rw [u64_natCast (by omega)]
          omega
        · decide

theorem nextWritei_pos {r r' : ByteFile × Nat} {n : Nat} {ret : Int} (hn : n < 2 ^ 64)
    (h : nextWritei meets r off n = some (r', ret)) : u64 ret > 0 := by
  rw [nextWritei] at h
  rw [← (Prod.mk.inj (Option.some.inj h)).2]
  exact writei_pos _ _ hn

/-- Whatever the calls meet, `itruncate` does not return -1. -/
theorem iterate_returns {rounds : Nat} {r : ByteFile × Nat} {ret : Int}
    (h : (round meets length)^[rounds] (start s) = .returned r ret) : ret = 0 := by
  induction rounds generalizing r with
  | zero => cases h
  | succ rounds ih =>
    rw [Function.iterate_succ_apply'] at h
    cases hg : (round meets length)^[rounds] (start s) with
    | panicked =>
      rw [hg] at h
      cases h
    | returned r' ret' =>
      rw [hg] at h
      have hsame : Grow.returned r' ret' = Grow.returned r ret := h
      obtain ⟨rfl, rfl⟩ := Grow.returned.inj hsame
      exact ih hg
    | looping f off =>
      rw [hg, round, growStep, nextWritei] at h
      dsimp only at h
      split at h
      · rw [if_pos (writei_pos _ _ (minBlksize_lt _))] at h
        cases h
      · split at h
        · exact (Grow.returned.inj h).2.symm
        · cases h

/-! ## Clean growth -/

theorem Climbs.clean (hsize : s.iSize.toNat < length) (h : Climbs meets length s) :
    CleanGrowth meets length s := by
  obtain ⟨h32, k, hend, hrange, hzeros⟩ := h
  obtain ⟨t, hrun, htrace⟩ := iterate_returned hsize h32 hrange hend
  have hnum : (UInt32.ofNat length).toNat = length := UInt32.toNat_ofNat_of_lt' h32
  have hreach := htrace.reach
  refine ⟨k + 1, _, _, _, hrun, fun i hi => ?_, fun i hlow hhigh => ?_, .inl ⟨rfl, hnum⟩⟩
  · show t.bytes i = s.bytes i
    by_cases hcover : Covers meets length s.iSize.toNat k i
    · rw [htrace.covered i hcover, hzeros i hi hcover]
    · exact htrace.kept i hcover
  · have hhigh : i < (UInt32.ofNat length).toNat := hhigh
    show t.bytes i = 0
    rw [hend] at hreach
    exact htrace.covered i (htrace.new i hlow (by omega))

/-- A call that writes something leads on. -/
theorem result_room {r left : Nat} (hr : 0 < r) (hleft : 0 < left) (h : left < 2 ^ 31) :
    0 < result (.room r) left := by
  have hblk : BLKSIZE = 4096 := rfl
  rw [result]
  dsimp only
  rw [if_pos h, if_pos (by omega)]
  omega

/-- If no call fails the results lead to the length. -/
theorem climbs_of_room (hsize : s.iSize.toNat < length) (h32 : length < 2 ^ 32)
    (hleft : length - s.iSize.toNat < 2 ^ 31) (hroom : ∀ k, ∃ r, meets k = .room r ∧ 0 < r) :
    Climbs meets length s := by
  -- the distance to the length gets smaller, and no offset is below the old size
  have hlead : ∀ d k : Nat, InRange meets length s.iSize.toNat k →
      (∀ j ≤ k, (s.iSize.toNat : Int) ≤ offset meets length s.iSize.toNat j) →
      ((length : Int) - offset meets length s.iSize.toNat k).toNat ≤ d →
      ∃ k, InRange meets length s.iSize.toNat k ∧ offset meets length s.iSize.toNat k = length ∧
        ∀ j ≤ k, (s.iSize.toNat : Int) ≤ offset meets length s.iSize.toNat j := by
    intro d
    induction d with
    | zero =>
      intro k hrange habove hd
      have hbounds := hrange.bounds hsize
      exact ⟨k, hrange, by omega, habove⟩
    | succ d ih =>
      intro k hrange habove hd
      have hbounds := hrange.bounds hsize
      have hhere := habove k (Nat.le_refl k)
      by_cases hend : offset meets length s.iSize.toNat k = length
      · exact ⟨k, hrange, hend, habove⟩
      · obtain ⟨r, hr, hpos⟩ := hroom k
        have hres : 0 < result (.room r)
            ((length : Int) - offset meets length s.iSize.toNat k).toNat :=
          result_room hpos (by omega) (by omega)
        have hnext : offset meets length s.iSize.toNat (k + 1) = offset meets length s.iSize.toNat k
            + result (.room r) ((length : Int) - offset meets length s.iSize.toNat k).toNat := by
          rw [offset, hr]
        refine ih (k + 1) (fun j hj => ?_) (fun j hj => ?_) (by omega)
        · rcases Nat.lt_succ_iff_lt_or_eq.mp hj with hlt | rfl
          · exact hrange j hlt
          · omega
        · rcases Nat.le_succ_iff.mp hj with hle | rfl
          · exact habove j hle
          · rw [hnext]
            omega
  have hstart : ∀ j ≤ 0, (s.iSize.toNat : Int) ≤ offset meets length s.iSize.toNat j := by
    intro j hj
    obtain rfl := Nat.le_zero.mp hj
    exact Int.le_refl _
  obtain ⟨k, hrange, hend, habove⟩ := hlead _ 0 (fun j hj => absurd hj (Nat.not_lt_zero j)) hstart
    (Nat.le_refl _)
  refine ⟨h32, k, hend, hrange, ?_⟩
  rintro i hi ⟨j, hj, hlow, -⟩
  have hbelow := habove j (Nat.le_of_lt hj)
  omega

theorem CleanGrowth.climbs (hsize : s.iSize.toNat < length) (h : CleanGrowth meets length s) :
    Climbs meets length s := by
  obtain ⟨rounds, t, calls, ret, hret, hkept, -, hend⟩ := h
  have hzero := iterate_returns hret
  have hlength : t.iSize.toNat = length := by
    rcases hend with ⟨-, heq⟩ | ⟨hminus, -⟩
    · exact heq
    · omega
  have h32 : length < 2 ^ 32 := hlength ▸ UInt32.toNat_lt _
  obtain ⟨k, hrange, hoff⟩ := returned_offset hsize h32 hret
  refine ⟨h32, k, hoff, hrange, fun i hi hcover => ?_⟩
  obtain ⟨t', hrun, htrace⟩ := iterate_returned hsize h32 hrange hoff
  have hsame := (Grow.returned.inj (iterate_ended hsize h32 hrange hrun rfl hret)).1
  have hbytes : t'.bytes i = t.bytes i := congrArg (fun r : ByteFile × Nat => r.1.bytes i) hsame
  rw [← hkept i hi, ← hbytes]
  exact htrace.covered i hcover

/-- Growth is clean exactly if the length has 32 bits, and the results of the calls of `writei` lead
    from the old size to it without leading below 0, and find zeros where they write over the old
    bytes. -/
theorem itruncate_clean_growth (meets : Nat → Meets) (hsize : s.iSize.toNat < length) :
    CleanGrowth meets length s ↔ Climbs meets length s :=
  ⟨CleanGrowth.climbs hsize, Climbs.clean hsize⟩

/-- A file without bytes. -/
def noBytes : ByteFile := ⟨0, fun _ => 0⟩

/-- A file of ten bytes. -/
def tenBytes : ByteFile := ⟨10, fun _ => 7⟩

/-- The first call finds room for a hundred bytes, the second meets a sync. -/
def shortThenBusy (k : Nat) : Meets :=
  if k = 0 then .room 100 else if k = 1 then .syncing else .room BLKSIZE

/-- An empty file grows by a byte, and nothing fails; and a file of ten bytes grows, where the error
    takes the offset back to bytes that the first call has written. -/
theorem itruncate_clean_growth_busy : CleanGrowth (fun _ => .room BLKSIZE) 1 noBytes ∧
    CleanGrowth shortThenBusy 5000 tenBytes := by
  have hbounds : ∀ j < 4, 10 ≤ offset shortThenBusy 5000 10 j ∧
      offset shortThenBusy 5000 10 j < 5000 := by decide +kernel
  have hclimbs : Climbs shortThenBusy 5000 tenBytes := by
    refine ⟨by decide, 4, by decide +kernel, fun j hj => ?_, ?_⟩
    · have hj := hbounds j hj
      exact ⟨Int.le_trans (by decide) hj.1, hj.2⟩
    · -- none of the calls comes back to the old bytes
      rintro i hi ⟨j, hj, hlow, -⟩
      have hold : i < 10 := hi
      have hbelow : offset shortThenBusy 5000 10 j ≤ i := hlow
      have habove := (hbounds j hj).1
      omega
  have hroom : Climbs (fun _ => .room BLKSIZE) 1 noBytes :=
    climbs_of_room (by decide) (by decide) (by decide) fun _ => ⟨BLKSIZE, rfl, by decide⟩
  exact ⟨(itruncate_clean_growth _ (by decide)).mpr hroom,
    (itruncate_clean_growth shortThenBusy (by decide)).mpr hclimbs⟩

/-- An empty file grows by a byte, and the first call meets a sync: the offset wraps around, and
    the assertion fails. -/
theorem itruncate_growth_busy :
    let meets := fun k => if k = 0 then Meets.syncing else Meets.room BLKSIZE
    (round meets 1)^[2] (start noBytes) = .panicked ∧ ¬ CleanGrowth meets 1 noBytes := by
  intro meets
  have hrange : InRange meets 1 noBytes.iSize.toNat 1 := by
    intro j hj
    obtain rfl := Nat.lt_one_iff.mp hj
    decide
  have hpanic : (round meets 1)^[1 + 1] (start noBytes) = .panicked :=
    iterate_panicked (by decide) (by decide) hrange (by decide)
  refine ⟨hpanic, ?_⟩
  rintro ⟨rounds, t, calls, ret, hret, -⟩
  exact nomatch iterate_ended (by decide) (by decide) hrange hpanic rfl hret

end Uniks.Growth
