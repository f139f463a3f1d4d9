/-
  A file without holes: the blocks from 0 up to a number, the index blocks on the way to them, and
  nothing else (`Laid`).

  `bmap` gives such a file its next block and `bunmap` takes its last one (`Laid.grow`,
  `Laid.shrink`); a write into a data block changes no entry (`Laid.copyBlock`).  Up to block 1036
  the file has at most one index block, so its blocks are easily counted (`Laid.blocks`).
-/
import Uniks.FileWrite
import Mathlib.Data.Finset.Image
import Mathlib.Data.Finset.Card

namespace Uniks.Bmap

open Uniks.ByteMem Uniks.BlockBitmap Uniks.EntryTree
open Function (update update_self update_of_ne)

/-- The file has the blocks below `size` and the index blocks on the way to them. -/
structure Laid (geo : Geometry) (f : File) (size : Nat) : Prop where
  tree : WellFormed geo f
  le : size ≤ EXT2_TIND_LIMIT
  reach : ∀ q, Valid q → q ≠ [] → ((∃ n, walk f.tree none q = some n) ↔ ∃ m < size, q <+: path m)

/-- A data block or an index block of the file. -/
def Reached (f : File) (b : Nat) : Prop := ∃ q, Valid q ∧ walk f.tree none q = some (some b)

/-- The block that a path leads to, 0 if there is none. -/
def blockAt (f : File) (q : List Nat) : Nat := ((walk f.tree none q).getD none).getD 0

/-- A byte of the file. -/
def byteAt (f : File) (i : Nat) : UInt8 := f.data (blockAt f (path (i / BLKSIZE))) (i % BLKSIZE)

/-- The number of data blocks that a length takes. -/
def dataBlocks (length : Nat) : Nat := (length + (BLKSIZE - 1)) / BLKSIZE

/-- All blocks of a file of so many data blocks, if it needs at most one index block. -/
def allBlocks (size : Nat) : Nat := size + if EXT2_NDIR_BLOCKS < size then 1 else 0

/-- The allocator has what the file needs to grow to `last` blocks, and the block that is to become
    the index block has no entries. -/
structure Stocked (geo : Geometry) (balloc : Bitmaps → Bitmaps × Int) (f : File)
    (size last : Nat) : Prop where
  supply : Supplies geo balloc (allBlocks last - allBlocks size) f.bitmaps
  blank : size ≤ EXT2_NDIR_BLOCKS → EXT2_NDIR_BLOCKS < last →
    BlankBlock f (fresh balloc f.bitmaps (EXT2_NDIR_BLOCKS - size))

variable {geo : Geometry} {balloc : Bitmaps → Bitmaps × Int} {f f' : File} {n : Node}
  {p q : List Nat} {size last m b : Nat}

/-! ## Lengths and blocks -/

theorem dataBlocks_mono {a b : Nat} (h : a ≤ b) : dataBlocks a ≤ dataBlocks b :=
  Nat.div_le_div_right (Nat.add_le_add_right h _)

theorem dataBlocks_max (a b : Nat) :
    dataBlocks (max a b) = max (dataBlocks a) (dataBlocks b) := by
  rcases Nat.le_total a b with h | h
  · rw [Nat.max_eq_right h, Nat.max_eq_right (dataBlocks_mono h)]
  · rw [Nat.max_eq_left h, Nat.max_eq_left (dataBlocks_mono h)]

theorem dataBlocks_le {a k : Nat} : dataBlocks a ≤ k ↔ a ≤ BLKSIZE * k := by
  simp only [dataBlocks, BLKSIZE]
  omega

theorem lt_dataBlocks {a k : Nat} : k < dataBlocks a ↔ BLKSIZE * k < a := by
  rw [← Nat.not_le, dataBlocks_le, Nat.not_le]

theorem allBlocks_mono {a b : Nat} (h : a ≤ b) : allBlocks a ≤ allBlocks b := by
  unfold allBlocks
  split <;> split <;> omega

/-! ## Which blocks there are -/

theorem Laid.mapped_some (h : Laid geo f size) (hm : m < size) :
    ∃ b, mapped f m = some (some b) := by
  have hv := path_valid (Nat.lt_of_lt_of_le hm h.le)
  obtain ⟨n, hn⟩ := (h.reach (path m) hv (path_ne_nil m)).mpr ⟨m, hm, List.prefix_refl _⟩
  obtain ⟨b, rfl⟩ := walk_some_block hn (path_ne_nil m)
  exact ⟨b, hn⟩

/-- What no block of the file needs is not there. -/
theorem Laid.walk_none (h : Laid geo f size) (hq : Valid q) (hne : q ≠ [])
    (hoff : ∀ m < size, ¬ q <+: path m) : walk f.tree none q = none := by
  cases hwalk : walk f.tree none q with
  | none => rfl
  | some n =>
    obtain ⟨m, hm, hpre⟩ := (h.reach q hq hne).mp ⟨n, hwalk⟩
    exact absurd hpre (hoff m hm)

/-- A file without blocks. -/
theorem laid_empty (h : ∀ i < EXT2_N_BLOCKS, f.tree none i = 0) : Laid geo f 0 := by
  have hnone : ∀ q n, Valid q → walk f.tree none q = some n → q = [] := by
    intro q n hq hn
    cases q with
    | nil => rfl
    | cons i q =>
      rw [walk_cons, if_pos (h i hq.1)] at hn
      cases hn
  refine ⟨⟨fun p q n hp hq hpn hqn => ?_, fun q b hq hb => ?_⟩, Nat.zero_le _, fun q hq hne => ?_⟩
  · rw [hnone p n hp hpn, hnone q n hq hqn]
  · rw [hnone q _ hq hb] at hb
    cases hb
  · constructor
    · rintro ⟨n, hn⟩
      exact absurd (hnone q n hq hn) hne
    · rintro ⟨m, hm, -⟩
      exact absurd hm (Nat.not_lt_zero m)

/-- Only the walks and the bitmaps matter. -/
theorem Laid.congr (h : Laid geo f size) (hbits : f'.bitmaps = f.bitmaps)
    (hwalk : ∀ q, Valid q → walk f'.tree none q = walk f.tree none q) : Laid geo f' size := by
  refine ⟨⟨fun p q n hp hq hpn hqn => ?_, fun q b hq hb => ?_⟩, h.le, fun q hq hne => ?_⟩
  · rw [hwalk p hp] at hpn
    rw [hwalk q hq] at hqn
    exact h.tree.once p q n hp hq hpn hqn
  · rw [hwalk q hq] at hb
    rw [hbits]
    exact h.tree.used q b hq hb
  · rw [hwalk q hq]
    exact h.reach q hq hne

/-- What lies on the way to a block up to 1036. -/
theorem prefix_path (hm : m < EXT2_IND_LIMIT) (hne : q ≠ []) :
    q <+: path m ↔ q = path m ∨ EXT2_NDIR_BLOCKS ≤ m ∧ q = [EXT2_IND_BLOCK] := by
  unfold path
  by_cases hdir : m < EXT2_NDIR_BLOCKS
  · rw [if_pos hdir, ← List.nil_append [m], List.prefix_concat_iff, List.prefix_nil]
    have hlow : ¬ EXT2_NDIR_BLOCKS ≤ m := Nat.not_le_of_lt hdir
    simp only [hne, hlow, or_false, false_and]
  · rw [if_neg hdir, if_pos hm]
    have hsplit : [EXT2_IND_BLOCK, m - EXT2_NDIR_BLOCKS]
        = [EXT2_IND_BLOCK] ++ [m - EXT2_NDIR_BLOCKS] := rfl
    rw [hsplit, List.prefix_concat_iff, ← List.nil_append [EXT2_IND_BLOCK],
      List.prefix_concat_iff, List.prefix_nil]
    have hhigh : EXT2_NDIR_BLOCKS ≤ m := Nat.le_of_not_lt hdir
    simp only [hne, hhigh, or_false, true_and]

/-- No block has the path of the index block. -/
theorem path_ne_index (m : Nat) : path m ≠ [EXT2_IND_BLOCK] := by
  intro heq
  have hwhole := path_whole m 0 []
  have hfirst : Valid (path EXT2_NDIR_BLOCKS) := path_valid (by decide)
  rw [heq] at hwhole
  exact hwhole hfirst

theorem index_on_path (hm : m < EXT2_IND_LIMIT) :
    [EXT2_IND_BLOCK] <+: path m ↔ EXT2_NDIR_BLOCKS ≤ m := by
  rw [prefix_path hm (List.cons_ne_nil _ [])]
  constructor
  · rintro (heq | ⟨hle, -⟩)
    · exact absurd heq.symm (path_ne_index m)
    · exact hle
  · exact fun hle => .inr ⟨hle, rfl⟩

/-- The index block is there from block 12 on. -/
theorem Laid.index (h : Laid geo f size) (hsize : size ≤ EXT2_IND_LIMIT) :
    (∃ n, walk f.tree none [EXT2_IND_BLOCK] = some n) ↔ EXT2_NDIR_BLOCKS < size := by
  have hv : Valid [EXT2_IND_BLOCK] :=
    ⟨by decide, Nat.zero_le _, fun i hi => absurd hi List.not_mem_nil⟩
  rw [h.reach _ hv (List.cons_ne_nil _ [])]
  constructor
  · rintro ⟨m, hm, hpre⟩
    have hle := (index_on_path (Nat.lt_of_lt_of_le hm hsize)).mp hpre
    omega
  · exact fun hlt => ⟨EXT2_NDIR_BLOCKS, hlt, (index_on_path (by decide)).mpr (Nat.le_refl _)⟩

/-! ## A block is overwritten -/

/-- A data block has no entries, whatever it contains. -/
theorem update_walk (h : WellFormed geo f) (hm : m < EXT2_TIND_LIMIT)
    (hb : mapped f m = some (some b)) (x : Bytes) (hq : Valid q) :
    walk { f with data := update f.data b x }.tree none q = walk f.tree none q := by
  refine walk_congr fun q₁ j q₂ heq d hd => ?_
  cases d with
  | none => rfl
  | some c =>
    have hother : c ≠ b := by
      rintro rfl
      have hq₁ : Valid q₁ := valid_closed q₁ q ⟨j :: q₂, heq.symm⟩ hq
      obtain rfl := h.once q₁ (path m) _ hq₁ (path_valid hm) hd hb
      exact path_whole m j q₂ (heq ▸ hq)
    show getLE (update f.data b x c) (4 * j) 4 = _
    rw [update_of_ne hother]
    rfl

theorem copyBlock_walk (h : WellFormed geo f) (hm : m < EXT2_TIND_LIMIT)
    (hb : mapped f m = some (some b)) (pos k : Nat) (src : Bytes) (hq : Valid q) :
    walk (f.copyBlock b pos k src).tree none q = walk f.tree none q := by
  have hsmall : b % 2 ^ 32 = b := Nat.mod_eq_of_lt (walk_small hb b rfl)
  show walk { f with data := update f.data (b % 2 ^ 32) _ }.tree none q = _
  rw [hsmall]
  exact update_walk h hm hb _ hq

theorem Laid.copyBlock (h : Laid geo f size) (hm : m < size) (hb : mapped f m = some (some b))
    (pos k : Nat) (src : Bytes) : Laid geo (f.copyBlock b pos k src) size :=
  h.congr rfl fun _ hq => copyBlock_walk h.tree (Nat.lt_of_lt_of_le hm h.le) hb pos k src hq

/-! ## The next block -/

/-- A descent to the first block that is not there adds it. -/
theorem Laid.grow (h : Laid geo f size) (hlt : size < EXT2_TIND_LIMIT)
    (hbetween : Between geo f f' (path size) (some b)) : Laid geo f' (size + 1) := by
  refine ⟨hbetween.tree, hlt, fun q hq hne => ?_⟩
  constructor
  · rintro ⟨n, hn⟩
    rcases hbetween.same q hq with hold | ⟨hpre, -⟩
    · rw [hold] at hn
      obtain ⟨m, hm, hpre⟩ := (h.reach q hq hne).mp ⟨n, hn⟩
      exact ⟨m, Nat.lt_succ_of_lt hm, hpre⟩
    · exact ⟨size, Nat.lt_succ_self size, hpre⟩
  · rintro ⟨m, hm, hpre⟩
    rcases Nat.lt_succ_iff_lt_or_eq.mp hm with hold | rfl
    · obtain ⟨n, hn⟩ := (h.reach q hq hne).mpr ⟨m, hold, hpre⟩
      exact ⟨n, hbetween.keeps.walk hn⟩
    · exact walk_prefix_some hbetween.here hpre

/-- How many blocks the next one takes. -/
theorem Laid.missing (h : Laid geo f size) (hlt : size < EXT2_IND_LIMIT) :
    EntryTree.missing f.tree none (path size) = allBlocks (size + 1) - allBlocks size := by
  have hlimit : size < EXT2_TIND_LIMIT := Nat.lt_trans hlt (by decide)
  have hnone : walk f.tree none (path size) = none :=
    h.walk_none (path_valid hlimit) (path_ne_nil size) fun m hm hpre =>
      Nat.ne_of_gt hm (path_prefix_eq (Nat.lt_trans hm hlimit) hpre)
  by_cases hdir : size < EXT2_NDIR_BLOCKS
  · -- a slot of the inode
    have hpath : path size = [size] := by rw [path, if_pos hdir]
    have hcount : allBlocks (size + 1) - allBlocks size = 1 := by
      rw [allBlocks, allBlocks, if_neg (by omega), if_neg (by omega)]
      omega
    rw [hpath] at hnone ⊢
    have hzero : f.tree none size = 0 := by
      by_contra hne
      rw [walk_cons, if_neg hne] at hnone
      cases hnone
    rw [EntryTree.missing, if_pos hzero, hcount]
    rfl
  · have hpath : path size = [EXT2_IND_BLOCK, size - EXT2_NDIR_BLOCKS] := by
      rw [path, if_neg hdir, if_pos hlt]
    rw [hpath] at hnone ⊢
    have hindex := h.index (Nat.le_of_lt hlt)
    by_cases hgt : EXT2_NDIR_BLOCKS < size
    · -- the index block is there, its entry is not
      have hcount : allBlocks (size + 1) - allBlocks size = 1 := by
        rw [allBlocks, allBlocks, if_pos hgt, if_pos (by omega)]
        omega
      obtain ⟨n, hn⟩ := hindex.mpr hgt
      have hslot : f.tree none EXT2_IND_BLOCK ≠ 0 := walk_entry (walk_nil f.tree none) hn
      rw [walk_cons, if_neg hslot] at hnone
      have hzero : f.tree (some (f.tree none EXT2_IND_BLOCK)) (size - EXT2_NDIR_BLOCKS) = 0 := by
        by_contra hne
        rw [walk_cons, if_neg hne] at hnone
        cases hnone
      rw [EntryTree.missing, if_neg hslot, EntryTree.missing, if_pos hzero, hcount]
      rfl
    · -- block 12 takes the index block as well
      have hcount : allBlocks (size + 1) - allBlocks size = 2 := by
        rw [allBlocks, allBlocks, if_neg hgt, if_pos (by omega)]
        omega
      have hslot : f.tree none EXT2_IND_BLOCK = 0 := by
        by_contra hne
        refine hgt (hindex.mp ⟨some (f.tree none EXT2_IND_BLOCK), ?_⟩)
        rw [walk_cons, if_neg hne, walk_nil]
      rw [EntryTree.missing, if_pos hslot, hcount]
      rfl

theorem Supplies.later {k l : Nat} {bitmaps : Bitmaps} (h : Supplies geo balloc l bitmaps)
    (hle : k ≤ l) : Supplies geo balloc (l - k) (Bmap.later balloc k bitmaps) := by
  induction k generalizing l bitmaps with
  | zero => exact h
  | succ k ih =>
    cases l with
    | zero => exact absurd hle (Nat.not_succ_le_zero k)
    | succ l =>
      rw [Nat.succ_sub_succ]
      exact ih h.2 (Nat.le_of_succ_le_succ hle)

theorem fresh_later (balloc : Bitmaps → Bitmaps × Int) (k l : Nat) : ∀ bitmaps : Bitmaps,
    fresh balloc (later balloc k bitmaps) l = fresh balloc bitmaps (k + l) := by
  induction k with
  | zero =>
    intro bitmaps
    rw [Nat.zero_add]
    rfl
  | succ k ih =>
    intro bitmaps
    rw [Nat.succ_add]
    exact ih (balloc bitmaps).1

/-- Nothing more is wanted. -/
theorem stocked_self (geo : Geometry) (balloc : Bitmaps → Bitmaps × Int) (f : File) (size : Nat) :
    Stocked geo balloc f size size := by
  constructor
  · rw [Nat.sub_self]
    trivial
  · intro hle hlt
    omega

/-- A write into a block in use leaves the blocks to come alone. -/
theorem Stocked.copyBlock (h : Stocked geo balloc f size last)
    (hb : inUse geo f.bitmaps (b % 2 ^ 32) = true) (pos k : Nat) (src : Bytes) :
    Stocked geo balloc (f.copyBlock b pos k src) size last := by
  refine ⟨h.supply, fun hle hlt j hj => ?_⟩
  have hneed : EXT2_NDIR_BLOCKS - size < allBlocks last - allBlocks size := by
    rw [allBlocks, allBlocks, if_pos hlt, if_neg (Nat.not_lt_of_le hle)]
    omega
  have hfree := h.supply.fresh_unused hneed
  have hother : fresh balloc f.bitmaps (EXT2_NDIR_BLOCKS - size) ≠ b % 2 ^ 32 := by
    intro heq
    rw [heq, hb] at hfree
    cases hfree
  show getLE (update f.data (b % 2 ^ 32) _
    (fresh balloc f.bitmaps (EXT2_NDIR_BLOCKS - size))) (4 * j) 4 = 0
  rw [update_of_ne hother]
  exact h.blank hle hlt j hj

/-- What `bmap` does to a file of `size` blocks, asked for a block of it or for the next one. -/
structure Gets (geo : Geometry) (balloc : Bitmaps → Bitmaps × Int) (f : File) (size last m : Nat)
    (f' : File) (b : Nat) : Prop where
  laid : Laid geo f' (max size (m + 1))
  stocked : Stocked geo balloc f' (max size (m + 1)) last
  here : mapped f' m = some (some b)
  keeps : Keeps f.tree f'.tree
  frame : ∀ q b, Valid q → Whole q → walk f.tree none q = some (some b) → f'.data b = f.data b
  count : f'.ino.iBlocks = f.ino.iBlocks

/-- `bmap` gives the file its next block. -/
theorem Laid.bmap_next (h : Laid geo f size) (hs : Stocked geo balloc f size last)
    (hlt : size < last) (hlast : last ≤ EXT2_IND_LIMIT) :
    ∃ f' b, bmap balloc f size = some (f', b) ∧ Gets geo balloc f size last size f' b := by
  have hsize : size < EXT2_IND_LIMIT := Nat.lt_of_lt_of_le hlt hlast
  have hlimit : size < EXT2_TIND_LIMIT := Nat.lt_trans hsize (by decide)
  have hmissing := h.missing hsize
  have hmore : allBlocks size ≤ allBlocks (size + 1) := allBlocks_mono (Nat.le_succ size)
  have hall : allBlocks (size + 1) ≤ allBlocks last := allBlocks_mono hlt
  have hsupply : Supplies geo balloc (EntryTree.missing f.tree none (path size)) f.bitmaps := by
    rw [hmissing]
    exact hs.supply.mono (by omega)
  have hblank : BlankFrom balloc f none (path size) := by
    -- two blocks are missing only if the first of them becomes the index block
    intro k hk
    rw [hmissing, allBlocks, allBlocks] at hk
    have hindex : size = EXT2_NDIR_BLOCKS ∧ k = 0 := by
      split at hk <;> split at hk <;> omega
    obtain ⟨rfl, rfl⟩ := hindex
    exact hs.blank (Nat.le_refl _) hlt
  obtain ⟨hbetween, hbits⟩ := ((Between.refl h.tree).descend hsupply (path_valid hlimit)
    (path_whole size) (path_ne_nil size)).1 hblank
  rw [hmissing] at hbits
  refine ⟨_, _, bmap_eq_descend hlimit, ?_⟩
  have hnext : max size (size + 1) = size + 1 := Nat.max_eq_right (Nat.le_succ size)
  have hrest : Supplies geo balloc (allBlocks last - allBlocks (size + 1))
      (later balloc (allBlocks (size + 1) - allBlocks size) f.bitmaps) := by
    have hleft : allBlocks last - allBlocks size - (allBlocks (size + 1) - allBlocks size)
        = allBlocks last - allBlocks (size + 1) := by omega
    rw [← hleft]
    exact hs.supply.later (by omega)
  refine ⟨?_, ?_, hbetween.here, hbetween.keeps, hbetween.frame, hbetween.count⟩
  · rw [hnext]
    exact h.grow hlimit hbetween
  rw [hnext]
  constructor
  · rw [hbits]
    exact hrest
  · intro hle hgt
    -- the block that is to become the index block is still unused, so nothing has been stored in it
    have hone : allBlocks (size + 1) - allBlocks size = 1 := by
      rw [allBlocks, allBlocks, if_neg (by omega), if_neg (by omega)]
      omega
    have hsame : 1 + (EXT2_NDIR_BLOCKS - (size + 1)) = EXT2_NDIR_BLOCKS - size := by omega
    have hneed : EXT2_NDIR_BLOCKS - (size + 1) < allBlocks last - allBlocks (size + 1) := by
      rw [allBlocks, allBlocks, if_pos hgt, if_neg (Nat.not_lt_of_le hle)]
      omega
    have hfree := hrest.fresh_unused hneed
    rw [← hbits] at hfree
    unfold BlankBlock word
    rw [hbetween.data _ hfree, hbits, hone, fresh_later, hsame]
    exact hs.blank (Nat.le_of_succ_le hle) hgt

/-- `bmap` on a block of the file, or on the next one. -/
theorem Laid.bmap (h : Laid geo f size) (hs : Stocked geo balloc f size last) (hle : m ≤ size)
    (hlt : m < last) (hlast : last ≤ EXT2_IND_LIMIT) :
    ∃ f' b, Bmap.bmap balloc f m = some (f', b) ∧ Gets geo balloc f size last m f' b := by
  rcases Nat.lt_or_eq_of_le hle with hthere | rfl
  · obtain ⟨b, hb⟩ := h.mapped_some hthere
    have hlimit : m < EXT2_TIND_LIMIT := Nat.lt_of_lt_of_le hthere h.le
    have hsame : max size (m + 1) = size := Nat.max_eq_left hthere
    rw [bmap_eq_descend hlimit, descend_walk balloc small_root hb]
    refine ⟨f, b, rfl, ?_, ?_, hb, .refl _, fun _ _ _ _ _ => rfl, rfl⟩
    · rw [hsame]
      exact h
    · rw [hsame]
      exact hs
  · exact h.bmap_next hs hlt hlast

/-! ## The bytes of the file -/

theorem blockAt_eq (h : walk f.tree none q = some (some b)) : blockAt f q = b := by
  rw [blockAt, h]
  rfl

/-- A new block changes none of the bytes there are. -/
theorem Gets.byteAt {i : Nat} (h : Gets geo balloc f size last m f' b) (hlaid : Laid geo f size)
    (hi : i / BLKSIZE < size) : Bmap.byteAt f' i = Bmap.byteAt f i := by
  obtain ⟨c, hc⟩ := hlaid.mapped_some hi
  have hv := path_valid (Nat.lt_of_lt_of_le hi hlaid.le)
  rw [Bmap.byteAt, Bmap.byteAt, blockAt_eq hc, blockAt_eq (h.keeps.walk hc),
    h.frame _ c hv (path_whole _) hc]

/-- A write into a block is a write into the file. -/
theorem copyBlock_byteAt {pos k i : Nat} (h : Laid geo f size) (hm : m < size)
    (hb : mapped f m = some (some b)) (hend : pos + k ≤ BLKSIZE) (src : Bytes)
    (hi : i / BLKSIZE < size) :
    byteAt (f.copyBlock b pos k src) i = splice (byteAt f) (BLKSIZE * m + pos) k src i := by
  have hsmall : b % 2 ^ 32 = b := Nat.mod_eq_of_lt (walk_small hb b rfl)
  have hmlimit : m < EXT2_TIND_LIMIT := Nat.lt_of_lt_of_le hm h.le
  have hilimit : i / BLKSIZE < EXT2_TIND_LIMIT := Nat.lt_of_lt_of_le hi h.le
  obtain ⟨c, hc⟩ := h.mapped_some hi
  have hc' : walk (f.copyBlock b pos k src).tree none (path (i / BLKSIZE)) = some (some c) := by
    rw [copyBlock_walk h.tree hmlimit hb pos k src (path_valid hilimit)]
    exact hc
  have hdm := Nat.div_add_mod i BLKSIZE
  have hmod : i % BLKSIZE < BLKSIZE := Nat.mod_lt i (by decide)
  rw [byteAt, blockAt_eq hc']
  show update f.data (b % 2 ^ 32) (splice (f.data (b % 2 ^ 32)) pos k src) c (i % BLKSIZE) = _
  rw [hsmall]
  by_cases hsame : i / BLKSIZE = m
  · have hcb : c = b := by
      rw [hsame] at hc
      rw [hb] at hc
      exact (Option.some.inj (Option.some.inj hc)).symm
    rw [hsame] at hdm
    rw [hcb, update_self]
    by_cases hin : pos ≤ i % BLKSIZE ∧ i % BLKSIZE < pos + k
    · have hdist : i - (BLKSIZE * m + pos) = i % BLKSIZE - pos := by omega
      rw [splice_of_mem hin.1 hin.2, splice_of_mem (by omega) (by omega), hdist]
    · rw [splice_of_not_mem hin, splice_of_not_mem (by omega), byteAt, hsame, blockAt_eq hb]
  · have hother : c ≠ b := by
      rintro rfl
      exact hsame (path_inj (h.tree.once _ _ _ (path_valid hilimit) (path_valid hmlimit) hc hb))
    have hout : ¬ (BLKSIZE * m + pos ≤ i ∧ i < BLKSIZE * m + pos + k) := by
      rintro ⟨hlow, hhigh⟩
      refine hsame (Nat.div_eq_of_lt_le ?_ ?_)
      · rw [Nat.mul_comm]
        omega
      · rw [Nat.mul_comm, Nat.mul_succ]
        omega
    rw [update_of_ne hother, splice_of_not_mem hout, byteAt, blockAt_eq hc]

/-! ## The last block -/

/-- What is cut off is what the last block alone needs. -/
theorem Laid.shrink {cut freed : List Nat} (h : Laid geo f (size + 1))
    (hcuts : Cuts geo f size f' cut freed) : Laid geo f' size := by
  have hlt : size < EXT2_TIND_LIMIT := h.le
  refine ⟨hcuts.tree, Nat.le_of_lt hlt, fun q hq hne => ?_⟩
  by_cases hcut : cut <+: q
  · -- a block behind the cut is the last one, or lies beside it and was not there
    rw [hcuts.gone q hq hcut]
    refine ⟨(by rintro ⟨n, hn⟩; cases hn), ?_⟩
    rintro ⟨m, hm, hpre⟩
    have hmlt : m < EXT2_TIND_LIMIT := Nat.lt_trans hm hlt
    have haside := hcuts.aside (path m) (path_valid hmlt) (hcut.trans hpre)
      (fun hp => absurd (path_prefix_eq hlt hp) (Nat.ne_of_lt hm))
      (fun hp => absurd (path_prefix_eq hmlt hp) (Nat.ne_of_gt hm))
    obtain ⟨b, hb⟩ := h.mapped_some (Nat.lt_succ_of_lt hm)
    rw [mapped, haside] at hb
    cases hb
  · rw [hcuts.kept q hq hcut, h.reach q hq hne]
    constructor
    · rintro ⟨m, hm, hpre⟩
      rcases Nat.lt_succ_iff_lt_or_eq.mp hm with hold | rfl
      · exact ⟨m, hold, hpre⟩
      · -- an index block of the last block that stays has an entry of another one
        obtain ⟨p, i, hsplit⟩ : ∃ p i, cut = p ++ [i] := by
          rcases List.eq_nil_or_concat cut with hnil | ⟨p, i, heq⟩
          · exact absurd hnil hcuts.ne_nil
          · exact ⟨p, i, by rw [heq, List.concat_eq_append]⟩
        have hpi : p ++ [i] <+: path m := hsplit ▸ hcuts.reach
        have hqp : q <+: p := by
          rcases List.prefix_or_prefix_of_prefix hpre hpi with hfront | hbehind
          · refine (List.prefix_concat_iff.mp hfront).resolve_left fun heq => hcut ?_
            rw [heq, hsplit]
          · exact absurd (hsplit ▸ hbehind) hcut
        have hpne : p ≠ [] := by
          rintro rfl
          exact hne (List.prefix_nil.mp hqp)
        have hpv : Valid (p ++ [i]) := valid_closed _ _ hpi (path_valid hlt)
        have hp : Valid p := valid_closed _ _ (List.prefix_append p [i]) hpv
        have hoff : ¬ cut <+: p := fun hpre => snoc_prefix_absurd p i (hsplit ▸ hpre)
        obtain ⟨b, hb⟩ := h.mapped_some (Nat.lt_succ_self m)
        obtain ⟨n, hn⟩ := walk_prefix_some hb ((List.prefix_append p [i]).trans hpi)
        obtain ⟨c, rfl⟩ := walk_some_block hn hpne
        have hentries := hcuts.stop p i c hsplit hn
        unfold BlankBlock at hentries
        push Not at hentries
        obtain ⟨j, hj, hentry⟩ := hentries
        have hstill : walk f'.tree none p = some (some c) := by rw [hcuts.kept p hp hoff, hn]
        have hthere : walk f'.tree none (p ++ [j]) = some (some (word f'.data c j)) := by
          rw [walk_snoc hstill]
          exact if_neg hentry
        have hpj := valid_sibling hpv hpne hj
        have hoffj : ¬ cut <+: p ++ [j] := by
          intro hpre
          rw [hcuts.gone _ hpj hpre] at hthere
          cases hthere
        rw [hcuts.kept _ hpj hoffj] at hthere
        obtain ⟨k, hk, hprek⟩ := (h.reach _ hpj (List.append_ne_nil_of_right_ne_nil p
          (List.cons_ne_nil j []))).mp ⟨_, hthere⟩
        refine ⟨k, ?_, hqp.trans ((List.prefix_append p [j]).trans hprek)⟩
        refine Nat.lt_of_le_of_ne (Nat.le_of_lt_succ hk) ?_
        rintro rfl
        have hlen : (p ++ [i]).length = (p ++ [j]).length := by
          simp only [List.length_append, List.length_singleton]
        have hsame := (List.prefix_of_prefix_length_le hpi hprek (Nat.le_of_eq hlen)).eq_of_length hlen
        exact hoffj (hsame ▸ hsplit ▸ List.prefix_refl _)
    · rintro ⟨m, hm, hpre⟩
      exact ⟨m, Nat.lt_succ_of_lt hm, hpre⟩

/-! ## Counting -/

/-- The paths to the blocks of a file that needs at most one index block. -/
def paths (size : Nat) : Finset (List Nat) :=
  (Finset.range size).image path ∪ if EXT2_NDIR_BLOCKS < size then {[EXT2_IND_BLOCK]} else ∅

theorem mem_paths (hsize : size ≤ EXT2_IND_LIMIT) :
    q ∈ paths size ↔ q ≠ [] ∧ ∃ m < size, q <+: path m := by
  unfold paths
  rw [Finset.mem_union, Finset.mem_image]
  constructor
  · rintro (⟨m, hm, rfl⟩ | hindex)
    · exact ⟨path_ne_nil m, m, Finset.mem_range.mp hm, List.prefix_refl _⟩
    · split at hindex
      · rename_i hlt
        obtain rfl := Finset.mem_singleton.mp hindex
        have hne := List.cons_ne_nil EXT2_IND_BLOCK []
        exact ⟨hne, EXT2_NDIR_BLOCKS, hlt, (prefix_path (by decide) hne).mpr
          (.inr ⟨Nat.le_refl _, rfl⟩)⟩
      · exact absurd hindex (Finset.notMem_empty q)
  · rintro ⟨hne, m, hm, hpre⟩
    rcases (prefix_path (Nat.lt_of_lt_of_le hm hsize) hne).mp hpre with rfl | ⟨hle, rfl⟩
    · exact .inl ⟨m, Finset.mem_range.mpr hm, rfl⟩
    · right
      rw [if_pos (Nat.lt_of_le_of_lt hle hm)]
      exact Finset.mem_singleton_self _

theorem card_paths (size : Nat) : (paths size).card = allBlocks size := by
  unfold paths allBlocks
  have hinj : ((Finset.range size).image path).card = size := by
    rw [Finset.card_image_of_injective _ fun _ _ => path_inj, Finset.card_range]
  by_cases hlt : EXT2_NDIR_BLOCKS < size
  · have hnotin : Disjoint ((Finset.range size).image path) {[EXT2_IND_BLOCK]} := by
      rw [Finset.disjoint_singleton_right, Finset.mem_image]
      rintro ⟨m, -, hm⟩
      exact path_ne_index m hm
    rw [if_pos hlt, if_pos hlt, Finset.card_union_of_disjoint hnotin, hinj,
      Finset.card_singleton]
  · rw [if_neg hlt, if_neg hlt, Finset.union_empty, hinj]
    rfl

/-- A file laid out has so many blocks, each at a path of its own. -/
theorem Laid.blocks (h : Laid geo f size) (hsize : size ≤ EXT2_IND_LIMIT) :
    ∃ blocks : Finset Nat, (∀ b, b ∈ blocks ↔ Reached f b) ∧ blocks.card = allBlocks size := by
  have hthere : ∀ q ∈ paths size, Valid q ∧ walk f.tree none q = some (some (blockAt f q)) := by
    intro q hq
    obtain ⟨hne, m, hm, hpre⟩ := (mem_paths hsize).mp hq
    have hv : Valid q := valid_closed _ _ hpre (path_valid (Nat.lt_of_lt_of_le hm h.le))
    obtain ⟨n, hn⟩ := (h.reach q hv hne).mpr ⟨m, hm, hpre⟩
    obtain ⟨b, rfl⟩ := walk_some_block hn hne
    refine ⟨hv, ?_⟩
    rw [blockAt, hn]
    rfl
  refine ⟨(paths size).image (blockAt f), fun b => ?_, ?_⟩
  · rw [Finset.mem_image]
    constructor
    · rintro ⟨q, hq, rfl⟩
      exact ⟨q, hthere q hq⟩
    · rintro ⟨q, hv, hb⟩
      have hne : q ≠ [] := by
        rintro rfl
        cases hb
      refine ⟨q, (mem_paths hsize).mpr ⟨hne, (h.reach q hv hne).mp ⟨_, hb⟩⟩, ?_⟩
      rw [blockAt, hb]
      rfl
  · rw [Finset.card_image_of_injOn, card_paths]
    intro q hq r hr heq
    obtain ⟨hvq, hwq⟩ := hthere q hq
    obtain ⟨hvr, hwr⟩ := hthere r hr
    have heq : blockAt f q = blockAt f r := heq
    rw [heq] at hwq
    exact h.tree.once q r _ hvq hvr hwq hwr

/-- The file loses the blocks that are freed, and no others. -/
theorem Cuts.reached {cut freed : List Nat} (h : Cuts geo f m f' cut freed) (hwf : WellFormed geo f)
    (hm : m < EXT2_TIND_LIMIT) (b : Nat) : Reached f' b ↔ Reached f b ∧ b ∉ freed := by
  have hpath := path_valid hm
  constructor
  · rintro ⟨q, hq, hb⟩
    have hoff : ¬ cut <+: q := by
      intro hcut
      rw [h.gone q hq hcut] at hb
      cases hb
    rw [h.kept q hq hoff] at hb
    refine ⟨⟨q, hq, hb⟩, fun hmem => ?_⟩
    obtain ⟨r, hcut, hr, hrb⟩ := (h.freed_iff b).mp hmem
    obtain rfl := hwf.once _ _ _ (valid_closed _ _ hr hpath) hq hrb hb
    exact hoff hcut
  · rintro ⟨⟨q, hq, hb⟩, hkeep⟩
    by_cases hcut : cut <+: q
    · refine absurd ((h.freed_iff b).mpr ⟨q, hcut, ?_, hb⟩) hkeep
      by_contra hoff
      have hbehind : ¬ path m <+: q := by
        rintro ⟨r, rfl⟩
        cases r with
        | nil =>
          rw [List.append_nil] at hoff
          exact hoff (List.prefix_refl _)
        | cons j r => exact path_whole m j r hq
      rw [h.aside q hq hcut hoff hbehind] at hb
      cases hb
    · refine ⟨q, hq, ?_⟩
      rw [h.kept q hq hcut, hb]

/-- `bunmap` takes the last block of a file, and counts what it frees. -/
theorem Laid.bunmap (h : Laid geo f (size + 1)) (hsize : size + 1 ≤ EXT2_IND_LIMIT)
    (hcount : f.ino.iBlocks.toNat = 8 * allBlocks (size + 1)) :
    ∃ f', Bmap.bunmap geo f size = some f' ∧ Laid geo f' size ∧
      f'.ino.iBlocks.toNat = 8 * allBlocks size := by
  have hlimit : size < EXT2_TIND_LIMIT := h.le
  obtain ⟨b, hb⟩ := h.mapped_some (Nat.lt_succ_self size)
  obtain ⟨f', cut, freed, hrun, hcuts⟩ := unmapPath_cuts h.tree hlimit hb
  have hlaid := h.shrink hcuts
  obtain ⟨blocks, hblocks, hcard⟩ := h.blocks hsize
  obtain ⟨blocks', hblocks', hcard'⟩ := hlaid.blocks (Nat.le_of_succ_le hsize)
  have hleft : blocks' = blocks \ freed.toFinset := by
    ext c
    rw [hblocks', Finset.mem_sdiff, hblocks, List.mem_toFinset]
    exact hcuts.reached h.tree hlimit c
  have hsub : freed.toFinset ⊆ blocks := by
    intro c hc
    obtain ⟨q, -, hq, hqc⟩ := (hcuts.freed_iff c).mp (List.mem_toFinset.mp hc)
    exact (hblocks c).mpr ⟨q, valid_closed _ _ hq (path_valid hlimit), hqc⟩
  have hfreed : freed.toFinset.card = freed.length := List.toFinset_card_of_nodup hcuts.nodup
  have hsum : allBlocks size = allBlocks (size + 1) - freed.length := by
    rw [← hcard', ← hcard, ← hfreed, hleft, Finset.card_sdiff_of_subset hsub]
  have hle : freed.length ≤ allBlocks (size + 1) := by
    rw [← hcard, ← hfreed]
    exact Finset.card_le_card hsub
  refine ⟨f', (bunmap_eq_unmapPath hlimit).trans hrun, hlaid, ?_⟩
  have hlt : f.ino.iBlocks.toNat < 2 ^ 32 := UInt32.toNat_lt _
  have hnum : (UInt32.ofNat (8 * freed.length)).toNat = 8 * freed.length :=
    UInt32.toNat_ofNat_of_lt' (by show 8 * freed.length < 2 ^ 32; omega)
  rw [hcuts.count, UInt32.toNat_sub_of_le _ _ (by rw [UInt32.le_iff_toNat_le, hnum]; omega), hnum]
  omega

end Uniks.Bmap
