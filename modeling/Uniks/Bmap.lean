/-
  The blocks of a file: `bmap` of `fs/ext2fs.c`.

  An inode refers to 12 data blocks itself, and to one index block for each of the three depths;
  an index block holds 1024 numbers of 32 bits.  Together they are a tree of entries
  (`Uniks.Lib.EntryTree`), in which a block of the file has its path: the slot of the inode, and
  then what the divisions of `bmap` give (`path`).  The code is that of the source, with its shared
  loop; `bmap_eq_descend` is the only place where its arithmetic matters.

  The allocator is an argument.  It hands out blocks that are not in use, with whatever they contain
  (`Supplies`).  `bmap` takes a new block for an index block without clearing it, so what is left in
  it from its last use counts as entries (`BlankIndex` asks that there be none).
-/
import Uniks.BlockBitmap
import Uniks.Lib.EntryTree
import Mathlib.Algebra.Order.Ring.Int

namespace Uniks.Bmap

open Uniks.ByteMem Uniks.Bits Uniks.BlockBitmap Uniks.EntryTree
open Function (update update_self update_of_ne)

abbrev EXT2_NDIR_BLOCKS : Nat := 12
abbrev EXT2_IND_BLOCK : Nat := EXT2_NDIR_BLOCKS
abbrev EXT2_DIND_BLOCK : Nat := EXT2_IND_BLOCK + 1
abbrev EXT2_TIND_BLOCK : Nat := EXT2_DIND_BLOCK + 1
abbrev EXT2_N_BLOCKS : Nat := EXT2_TIND_BLOCK + 1
abbrev EXT2_IND_PER_BLK : Nat := 1024
abbrev EXT2_IND_LIMIT : Nat := EXT2_NDIR_BLOCKS + EXT2_IND_PER_BLK
abbrev EXT2_DIND_LIMIT : Nat := EXT2_IND_LIMIT + EXT2_IND_PER_BLK * EXT2_IND_PER_BLK
abbrev EXT2_TIND_LIMIT : Nat :=
  EXT2_DIND_LIMIT + EXT2_IND_PER_BLK * EXT2_IND_PER_BLK * EXT2_IND_PER_BLK

/-- The fields of `struct ext2_inode_t` that say where the blocks are. -/
structure DInode where
  iBlock : Nat → UInt32
  iBlocks : UInt32

/-- An inode, the bitmaps, and the other blocks of its disk. -/
structure File where
  ino : DInode
  bitmaps : Bitmaps
  data : Nat → Bytes

/-- The `i`-th number of an index block. -/
def word (data : Nat → Bytes) (b i : Nat) : Nat := getLE (data b) (4 * i) 4

/-- Store it. -/
def setWord (data : Nat → Bytes) (b i c : Nat) : Nat → Bytes :=
  update data b (setLE (data b) (4 * i) 4 c)

def File.setSlot (f : File) (slot c : Nat) : File :=
  { f with ino := { f.ino with iBlock := update f.ino.iBlock slot (UInt32.ofNat c) } }

def File.setEntry (f : File) (b i c : Nat) : File := { f with data := setWord f.data b i c }

/-! ## The code -/

/-- A signed 64-bit number as an unsigned one. -/
def u64 (x : Int) : Nat := (x % 2 ^ 64).toNat

theorem u64_natCast {n : Nat} (h : n < 2 ^ 64) : u64 (n : Int) = n := by
  show ((n : Int) % 2 ^ 64).toNat = n
  omega

variable (balloc : Bitmaps → Bitmaps × Int)

/-- The `i_block` entry of a slot in `bmap`, allocated if there is none. -/
def bmapSlot (f : File) (slot : Nat) : File × Nat :=
  let baddr := (f.ino.iBlock slot).toNat
  if baddr = 0 then
    let (bitmaps, n) := balloc f.bitmaps
    let f := { f with bitmaps := bitmaps }
    let baddr := u64 n
    if baddr = 0 then (f, 0) else (f.setSlot slot baddr, baddr)
  else (f, baddr)

/-- An entry of an index block in `bmap`, allocated if there is none; `blk_read` takes 32 bits of
    the number of the block. -/
def bmapEntry (f : File) (baddr i : Nat) : File × Nat :=
  let b := baddr % 2 ^ 32
  let baddr := word f.data b i
  if baddr = 0 then
    let (bitmaps, n) := balloc f.bitmaps
    let f := { f with bitmaps := bitmaps }
    let baddr := u64 n
    if baddr = 0 then (f, 0) else (f.setEntry b i baddr, baddr)
  else (f, baddr)

/-- The loop of `bmap`. -/
def bmapLoop (f : File) (baddr blkNo divisor : Nat) : File × Nat :=
  if divisor ≠ 0 then
    let (f, baddr) := bmapEntry balloc f baddr (blkNo / divisor)
    if baddr = 0 then (f, 0)
    else bmapLoop f baddr (blkNo % divisor) (divisor / EXT2_IND_PER_BLK)
  else (f, baddr)
termination_by divisor
decreasing_by exact Nat.div_lt_self (Nat.pos_of_ne_zero ‹_›) (by decide)

/-- The number within its layer, the divisor, and the slot of the layer. -/
def primaryLayer (blkNo : Nat) : Nat × Nat × Nat :=
  if blkNo < EXT2_IND_LIMIT then (blkNo - EXT2_NDIR_BLOCKS, 1, EXT2_IND_BLOCK)
  else if blkNo < EXT2_DIND_LIMIT then (blkNo - EXT2_IND_LIMIT, EXT2_IND_PER_BLK, EXT2_DIND_BLOCK)
  else (blkNo - EXT2_DIND_LIMIT, EXT2_IND_PER_BLK * EXT2_IND_PER_BLK, EXT2_TIND_BLOCK)

/-- The source's `bmap`; `none` is the failed assertion. -/
def bmap (f : File) (blkNo : Nat) : Option (File × Nat) :=
  if blkNo < EXT2_TIND_LIMIT then
    if blkNo < EXT2_NDIR_BLOCKS then some (bmapSlot balloc f blkNo)
    else
      let (blkNo, divisor, slot) := primaryLayer blkNo
      let (f, baddr) := bmapSlot balloc f slot
      if baddr = 0 then some (f, 0) else some (bmapLoop balloc f baddr blkNo divisor)
  else none

/-! ## Paths -/

/-- The slot and the entries that lead to a block of the file. -/
def path (blkNo : Nat) : List Nat :=
  if blkNo < EXT2_NDIR_BLOCKS then [blkNo]
  else if blkNo < EXT2_IND_LIMIT then [EXT2_IND_BLOCK, blkNo - EXT2_NDIR_BLOCKS]
  else if blkNo < EXT2_DIND_LIMIT then
    let n := blkNo - EXT2_IND_LIMIT
    [EXT2_DIND_BLOCK, n / 1024, n % 1024]
  else
    let n := blkNo - EXT2_DIND_LIMIT
    [EXT2_TIND_BLOCK, n / (1024 * 1024), n % (1024 * 1024) / 1024, n % 1024]

/-- How many index blocks lie behind a slot. -/
def depth (slot : Nat) : Nat := slot - 11

/-- The paths there can be. -/
def Valid : List Nat → Prop
  | [] => True
  | slot :: is => slot < EXT2_N_BLOCKS ∧ is.length ≤ depth slot ∧ ∀ i ∈ is, i < EXT2_IND_PER_BLK

/-- The entries of the inode and of the index blocks. -/
def File.tree (f : File) : Tree
  | none, i => (f.ino.iBlock i).toNat
  | some b, i => word f.data b i

/-- One entry of a node, allocated if there is none. -/
def visit (f : File) : Node → Nat → File × Nat
  | none, i => bmapSlot balloc f i
  | some b, i => bmapEntry balloc f b i

/-- Follow a path, and allocate what is missing. -/
def descend (f : File) : Node → List Nat → File × Nat
  | n, [] => (f, n.getD 0)
  | n, i :: is =>
    let (f, baddr) := visit balloc f n i
    if baddr = 0 then (f, 0) else descend f (some baddr) is

variable {balloc} {f f' : File} {n : Node} {i : Nat} {p q : List Nat}

theorem bmapLoop_zero (f : File) (baddr blkNo : Nat) :
    bmapLoop balloc f baddr blkNo 0 = (f, baddr) := by
  rw [bmapLoop, if_neg (by simp)]

/-- A turn of the loop. -/
theorem bmapLoop_succ {divisor : Nat} (h : divisor ≠ 0) (f : File) (baddr blkNo : Nat) :
    bmapLoop balloc f baddr blkNo divisor =
      let (f, baddr) := bmapEntry balloc f baddr (blkNo / divisor)
      if baddr = 0 then (f, 0)
      else bmapLoop balloc f baddr (blkNo % divisor) (divisor / EXT2_IND_PER_BLK) := by
  rw [bmapLoop, if_pos h]

theorem descend_cons (f : File) (n : Node) (i : Nat) (is : List Nat) :
    descend balloc f n (i :: is) =
      let (f, baddr) := visit balloc f n i
      if baddr = 0 then (f, 0) else descend balloc f (some baddr) is := rfl

/-- The last index block. -/
theorem bmapLoop_one (f : File) (baddr blkNo : Nat) :
    bmapLoop balloc f baddr blkNo 1 = descend balloc f (some baddr) [blkNo] := by
  have hdiv : (1 : Nat) / EXT2_IND_PER_BLK = 0 := by decide
  rw [bmapLoop_succ Nat.one_ne_zero, Nat.div_one, hdiv, descend_cons]
  simp only [bmapLoop_zero]
  rfl

theorem bmapLoop_dind (f : File) (baddr blkNo : Nat) :
    bmapLoop balloc f baddr blkNo EXT2_IND_PER_BLK
      = descend balloc f (some baddr) [blkNo / 1024, blkNo % 1024] := by
  have hne : EXT2_IND_PER_BLK ≠ 0 := by decide
  have hdiv : EXT2_IND_PER_BLK / EXT2_IND_PER_BLK = 1 := by decide
  rw [bmapLoop_succ hne, hdiv, descend_cons]
  simp only [bmapLoop_one]
  rfl

theorem bmapLoop_tind (f : File) (baddr blkNo : Nat) :
    bmapLoop balloc f baddr blkNo (EXT2_IND_PER_BLK * EXT2_IND_PER_BLK) = descend balloc f
      (some baddr) [blkNo / (1024 * 1024), blkNo % (1024 * 1024) / 1024, blkNo % 1024] := by
  have hne : EXT2_IND_PER_BLK * EXT2_IND_PER_BLK ≠ 0 := by decide
  have hdiv : EXT2_IND_PER_BLK * EXT2_IND_PER_BLK / EXT2_IND_PER_BLK = EXT2_IND_PER_BLK := by decide
  have hmod : blkNo % (1024 * 1024) % 1024 = blkNo % 1024 := by omega
  rw [bmapLoop_succ hne, hdiv, descend_cons]
  simp only [bmapLoop_dind, hmod]
  rfl

/-- The arithmetic of `bmap` is that of the paths. -/
theorem bmap_eq_descend {blkNo : Nat} (h : blkNo < EXT2_TIND_LIMIT) :
    bmap balloc f blkNo = some (descend balloc f none (path blkNo)) := by
  unfold bmap path primaryLayer
  rw [if_pos h]
  by_cases hdir : blkNo < EXT2_NDIR_BLOCKS
  · rw [if_pos hdir, if_pos hdir, descend_cons]
    show some (bmapSlot balloc f blkNo) = some (if (bmapSlot balloc f blkNo).2 = 0 then
      ((bmapSlot balloc f blkNo).1, 0) else bmapSlot balloc f blkNo)
    split
    · rename_i hzero
      rw [← hzero]
    · rfl
  · rw [if_neg hdir, if_neg hdir]
    by_cases hind : blkNo < EXT2_IND_LIMIT
    · rw [if_pos hind, if_pos hind, descend_cons]
      dsimp only
      rw [bmapLoop_one]
      exact (apply_ite some _ _ _).symm
    · rw [if_neg hind, if_neg hind]
      by_cases hdind : blkNo < EXT2_DIND_LIMIT
      · rw [if_pos hdind, if_pos hdind, descend_cons]
        dsimp only
        rw [bmapLoop_dind]
        exact (apply_ite some _ _ _).symm
      · rw [if_neg hdind, if_neg hdind, descend_cons]
        dsimp only
        rw [bmapLoop_tind]
        exact (apply_ite some _ _ _).symm

/-! ## The tree of a file -/

theorem tree_setSlot (f : File) (slot c : Nat) :
    (f.setSlot slot c).tree = store f.tree none slot (c % 2 ^ 32) := by
  funext n i
  cases n with
  | none =>
    show (update f.ino.iBlock slot (UInt32.ofNat c) i).toNat = _
    by_cases hi : i = slot
    · subst hi
      rw [store_self, update_self]
      exact UInt32.toNat_ofNat'
    · rw [update_of_ne hi, store_of_ne _ _ fun heq => hi (Prod.mk.inj heq).2]
      rfl
  | some b =>
    rw [store_of_ne _ _ (by simp)]
    rfl

theorem tree_setEntry (f : File) (b i c : Nat) :
    (f.setEntry b i c).tree = store f.tree (some b) i (c % 2 ^ 32) := by
  funext n j
  cases n with
  | none =>
    rw [store_of_ne _ _ (by simp)]
    rfl
  | some a =>
    show getLE (update f.data b (setLE (f.data b) (4 * i) 4 c) a) (4 * j) 4 = _
    by_cases ha : a = b
    · subst ha
      rw [update_self]
      by_cases hj : j = i
      · subst hj
        have hword : (256 : Nat) ^ 4 = 2 ^ 32 := by decide
        rw [store_self, getLE_setLE_self, hword]
      · rw [getLE_setLE_of_disjoint _ _ (by omega),
          store_of_ne _ _ (fun heq => hj (Prod.mk.inj heq).2)]
        rfl
    · rw [update_of_ne ha,
        store_of_ne _ _ (fun heq => ha (Option.some.inj (Prod.mk.inj heq).1))]
      rfl

theorem tree_lt (f : File) (n : Node) (i : Nat) : f.tree n i < 2 ^ 32 := by
  cases n with
  | none => exact UInt32.toNat_lt _
  | some b => exact getLE_lt _ _ 4

/-- The root, or a block whose number an entry can hold. -/
def Small (n : Node) : Prop := ∀ b, n = some b → b < 2 ^ 32

theorem small_root : Small none := fun _ hb => nomatch hb

theorem small_entry (f : File) (n : Node) (i : Nat) : Small (some (f.tree n i)) := by
  rintro b ⟨⟩
  exact tree_lt f n i

theorem walk_small (h : walk f.tree none p = some n) : Small n := by
  rintro b rfl
  obtain ⟨-, i, m, -, -, rfl, -⟩ := walk_block h
  exact tree_lt f m i

theorem valid_closed : Closed Valid := by
  intro p q hpre hq
  cases p with
  | nil => trivial
  | cons slot p =>
    obtain ⟨r, rfl⟩ := hpre
    rcases hq with ⟨hslot, hlen, hsmall⟩
    have hlen : (p ++ r).length ≤ depth slot := hlen
    rw [List.length_append] at hlen
    exact ⟨hslot, by omega, fun i hi => hsmall i (List.mem_append_left r hi)⟩

theorem path_valid {blkNo : Nat} (h : blkNo < EXT2_TIND_LIMIT) : Valid (path blkNo) := by
  simp only [EXT2_TIND_LIMIT, EXT2_DIND_LIMIT, EXT2_IND_LIMIT, EXT2_IND_PER_BLK,
    EXT2_NDIR_BLOCKS] at h
  simp only [path, EXT2_DIND_LIMIT, EXT2_IND_LIMIT, EXT2_IND_PER_BLK, EXT2_NDIR_BLOCKS]
  split
  · refine ⟨?_, Nat.zero_le _, fun i hi => nomatch hi⟩
    show blkNo < 15
    omega
  · split
    · refine ⟨by decide, Nat.le_refl 1, fun i hi => ?_⟩
      rw [List.mem_singleton] at hi
      simp only [EXT2_IND_PER_BLK]
      omega
    · split
      · refine ⟨by decide, Nat.le_refl 2, fun i hi => ?_⟩
        simp only [List.mem_cons, List.not_mem_nil, or_false] at hi
        simp only [EXT2_IND_PER_BLK]
        omega
      · refine ⟨by decide, Nat.le_refl 3, fun i hi => ?_⟩
        simp only [List.mem_cons, List.not_mem_nil, or_false] at hi
        simp only [EXT2_IND_PER_BLK]
        omega

/-- A path that leads to a data block has all the entries it can have. -/
def Whole (q : List Nat) : Prop := ∀ j r, ¬ Valid (q ++ j :: r)

theorem whole_of_length {slot : Nat} {is : List Nat} (h : depth slot ≤ is.length) :
    Whole (slot :: is) := by
  intro j r hvalid
  have hlen : (is ++ j :: r).length ≤ depth slot := hvalid.2.1
  rw [List.length_append, List.length_cons] at hlen
  omega

theorem path_whole (blkNo : Nat) : Whole (path blkNo) := by
  unfold path
  split
  · rename_i hdir
    apply whole_of_length
    show blkNo - 11 ≤ 0
    simp only [EXT2_NDIR_BLOCKS] at hdir
    omega
  · split
    · exact whole_of_length (Nat.le_refl 1)
    · split
      · exact whole_of_length (Nat.le_refl 2)
      · exact whole_of_length (Nat.le_refl 3)

/-- The block of the file that a path leads to. -/
def blockNumber : List Nat → Nat
  | [n] => n
  | [_, i] => EXT2_NDIR_BLOCKS + i
  | [_, i, j] => EXT2_IND_LIMIT + (i * 1024 + j)
  | [_, i, j, k] => EXT2_DIND_LIMIT + ((i * 1024 + j) * 1024 + k)
  | _ => 0

theorem blockNumber_path (blkNo : Nat) : blockNumber (path blkNo) = blkNo := by
  unfold path
  split
  · rfl
  · rename_i hdir
    split
    · exact Nat.add_sub_cancel' (Nat.le_of_not_lt hdir)
    · rename_i hind
      split
      · have hsplit := Nat.div_add_mod' (blkNo - EXT2_IND_LIMIT) 1024
        show EXT2_IND_LIMIT + ((blkNo - EXT2_IND_LIMIT) / 1024 * 1024
          + (blkNo - EXT2_IND_LIMIT) % 1024) = blkNo
        omega
      · rename_i hdind
        show EXT2_DIND_LIMIT + (((blkNo - EXT2_DIND_LIMIT) / (1024 * 1024) * 1024
          + (blkNo - EXT2_DIND_LIMIT) % (1024 * 1024) / 1024) * 1024
          + (blkNo - EXT2_DIND_LIMIT) % 1024) = blkNo
        omega

/-- No two blocks of a file have the same path. -/
theorem path_inj {a b : Nat} (h : path a = path b) : a = b := by
  rw [← blockNumber_path a, h, blockNumber_path]

/-- No path to a block passes another one. -/
theorem path_prefix_eq {a b : Nat} (hb : b < EXT2_TIND_LIMIT) (h : path a <+: path b) : a = b := by
  obtain ⟨r, hr⟩ := h
  cases r with
  | nil =>
    rw [List.append_nil] at hr
    exact path_inj hr
  | cons j r =>
    have hvalid := path_valid hb
    rw [← hr] at hvalid
    exact absurd hvalid (path_whole a j r)

end Uniks.Bmap
