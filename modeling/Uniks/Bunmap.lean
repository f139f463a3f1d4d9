/-
  Taking a block from a file: `recursively_release` and `bunmap` of `fs/ext2fs.c`.

  The descent is that of `bmap`, by recursion on the level; on the way back an entry is cleared and
  its block freed as long as what lies behind it has become empty (`releasePath`, on the paths of
  `Uniks.Bmap`).  So what is cut off the tree is everything from one entry of the path on, the cut.
  `Cut` says all that is left and all that is gone, and each level of the recursion moves the cut up
  by one entry or stops (`Cut.up`, `Released`).
-/
import Uniks.BmapExact
import Mathlib.Data.List.Nodup

namespace Uniks.Bmap

open Uniks.ByteMem Uniks.Bits Uniks.BlockBitmap Uniks.EntryTree
open Option (some)

abbrev SECTORSIZE : Nat := 512

/-! ## The code -/

/-- `i_blocks -= BLKSIZE / SECTORSIZE`. -/
def File.fewerBlocks (f : File) : File :=
  { f with ino := { f.ino with iBlocks := f.ino.iBlocks - UInt32.ofNat (BLKSIZE / SECTORSIZE) } }

/-- The scan of an index block: 0 if it is empty. -/
def anyEntry (f : File) (baddr : Nat) : Nat :=
  if (List.range EXT2_IND_PER_BLK).any fun j => word f.data baddr j != 0 then 1 else 0

/-- The block of an entry is freed and the entry cleared: `leaf:` in `recursively_release`.  The
    answer is the scan's. -/
def releaseLeaf (geo : Geometry) (f : File) (baddr i : Nat) : File × Nat :=
  let f := { f with bitmaps := bfree geo f.bitmaps (word f.data baddr i) }
  let f := (f.setEntry baddr i 0).fewerBlocks
  (f, anyEntry f baddr)

/-- The block of a slot is freed and the slot cleared, in `bunmap`. -/
def releaseSlot (geo : Geometry) (f : File) (slot : Nat) : File :=
  let f := { f with bitmaps := bfree geo f.bitmaps (f.ino.iBlock slot).toNat }
  (f.setSlot slot 0).fewerBlocks

def divisors : Nat → Nat
  | 0 => 1
  | 1 => EXT2_IND_PER_BLK
  | _ => EXT2_IND_PER_BLK * EXT2_IND_PER_BLK

/-- The source's `recursively_release`; `none` is the failed assertion. -/
def recursivelyRelease (geo : Geometry) (f : File) : Nat → Nat → Nat → Option (File × Nat)
  | 0, blkNo, baddr =>
    let i := blkNo / divisors 0
    if word f.data baddr i ≠ 0 then some (releaseLeaf geo f baddr i) else none
  | level + 1, blkNo, baddr =>
    let i := blkNo / divisors (level + 1)
    if word f.data baddr i ≠ 0 then do
      let (f, res) ← recursivelyRelease geo f level (blkNo % divisors (level + 1))
        (word f.data baddr i)
      if res = 0 then some (releaseLeaf geo f baddr i) else some (f, res)
    else none

/-- One layer of `bunmap`. -/
def bunmapLayer (geo : Geometry) (f : File) (level blkNo slot : Nat) : Option File := do
  let (f, res) ← recursivelyRelease geo f level blkNo (f.ino.iBlock slot).toNat
  return if res = 0 then releaseSlot geo f slot else f

/-- The source's `bunmap`. -/
def bunmap (geo : Geometry) (f : File) (blkNo : Nat) : Option File :=
  if blkNo < EXT2_TIND_LIMIT then
    if blkNo < EXT2_NDIR_BLOCKS then
      if (f.ino.iBlock blkNo).toNat ≠ 0 then some (releaseSlot geo f blkNo) else none
    else if blkNo < EXT2_IND_LIMIT then
      bunmapLayer geo f 0 (blkNo - EXT2_NDIR_BLOCKS) EXT2_IND_BLOCK
    else if blkNo < EXT2_DIND_LIMIT then
      bunmapLayer geo f 1 (blkNo - EXT2_IND_LIMIT) EXT2_DIND_BLOCK
    else bunmapLayer geo f 2 (blkNo - EXT2_DIND_LIMIT) EXT2_TIND_BLOCK
  else none

/-! ## Along the path -/

/-- `recursively_release` on the entries of the path. -/
def releasePath (geo : Geometry) (f : File) : Nat → List Nat → Option (File × Nat)
  | _, [] => none
  | baddr, i :: is =>
    if word f.data baddr i ≠ 0 then
      if is = [] then some (releaseLeaf geo f baddr i)
      else do
        let (f, res) ← releasePath geo f (word f.data baddr i) is
        if res = 0 then some (releaseLeaf geo f baddr i) else some (f, res)
    else none

/-- `bunmap` on the path. -/
def unmapPath (geo : Geometry) (f : File) : List Nat → Option File
  | [] => none
  | slot :: is =>
    if is = [] then
      if (f.ino.iBlock slot).toNat ≠ 0 then some (releaseSlot geo f slot) else none
    else do
      let (f, res) ← releasePath geo f (f.ino.iBlock slot).toNat is
      return if res = 0 then releaseSlot geo f slot else f

variable {geo : Geometry} {f f₀ f' : File} {n m : Node} {i c b : Nat} {p q is cut : List Nat}
  {freed : List Nat}

theorem recursivelyRelease_zero (f : File) (blkNo baddr : Nat) :
    recursivelyRelease geo f 0 blkNo baddr = releasePath geo f baddr [blkNo] := by
  have hdiv : blkNo / divisors 0 = blkNo := Nat.div_one blkNo
  rw [recursivelyRelease, releasePath, hdiv]
  rfl

theorem recursivelyRelease_one (f : File) (blkNo baddr : Nat) :
    recursivelyRelease geo f 1 blkNo baddr
      = releasePath geo f baddr [blkNo / 1024, blkNo % 1024] := by
  rw [recursivelyRelease, releasePath]
  simp only [recursivelyRelease_zero]
  rfl

theorem recursivelyRelease_two (f : File) (blkNo baddr : Nat) :
    recursivelyRelease geo f 2 blkNo baddr = releasePath geo f baddr
      [blkNo / (1024 * 1024), blkNo % (1024 * 1024) / 1024, blkNo % 1024] := by
  have hmod : blkNo % (1024 * 1024) % 1024 = blkNo % 1024 := by omega
  rw [recursivelyRelease, releasePath]
  simp only [recursivelyRelease_one, divisors, EXT2_IND_PER_BLK, hmod]
  rfl

/-- `bunmap` takes the path that `bmap` takes. -/
theorem bunmap_eq_unmapPath {blkNo : Nat} (h : blkNo < EXT2_TIND_LIMIT) :
    bunmap geo f blkNo = unmapPath geo f (path blkNo) := by
  unfold bunmap path bunmapLayer
  rw [if_pos h]
  by_cases hdir : blkNo < EXT2_NDIR_BLOCKS
  · rw [if_pos hdir, if_pos hdir]
    rfl
  · rw [if_neg hdir, if_neg hdir]
    by_cases hind : blkNo < EXT2_IND_LIMIT
    · rw [if_pos hind, if_pos hind, recursivelyRelease_zero]
      rfl
    · rw [if_neg hind, if_neg hind]
      by_cases hdind : blkNo < EXT2_DIND_LIMIT
      · rw [if_pos hdind, if_pos hdind, recursivelyRelease_one]
        rfl
      · rw [if_neg hdind, if_neg hdind, recursivelyRelease_two]
        rfl

/-! ## An entry is cut off -/

theorem sub_sub_u32 (a b c : UInt32) : a - b - c = a - (b + c) := by
  rw [UInt32.sub_eq_iff_eq_add, UInt32.sub_eq_add_neg a (b + c), UInt32.neg_add, UInt32.add_assoc,
    UInt32.sub_add_cancel, ← UInt32.sub_eq_add_neg]

/-- The block of an entry is freed and the entry cleared. -/
def File.unhung (geo : Geometry) (f : File) : Node → Nat → File
  | none, slot => releaseSlot geo f slot
  | some b, i => (releaseLeaf geo f b i).1

theorem unhung_tree (f : File) (n : Node) (i : Nat) :
    (f.unhung geo n i).tree = store f.tree n i 0 := by
  cases n with
  | none => exact tree_setSlot _ i 0
  | some b => exact tree_setEntry _ b i 0

theorem unhung_bitmaps (f : File) (n : Node) (i : Nat) :
    (f.unhung geo n i).bitmaps = bfree geo f.bitmaps (f.tree n i) := by
  cases n <;> rfl

theorem unhung_iBlocks (f : File) (n : Node) (i : Nat) :
    (f.unhung geo n i).ino.iBlocks = f.ino.iBlocks - 8 := by
  cases n <;> rfl

theorem unhung_data (f : File) (i : Nat) (h : n ≠ some b) :
    (f.unhung geo n i).data b = f.data b := by
  cases n with
  | none => rfl
  | some a =>
    have hne : b ≠ a := fun heq => h (by rw [heq])
    exact Function.update_of_ne hne _ _

/-- The bit of the block is cleared. -/
theorem inUse_bfree (bitmaps : Bitmaps) (h : c < 2 ^ 32) (b : Nat) :
    inUse geo (bfree geo bitmaps c) b = (!decide (b = c) && inUse geo bitmaps b) := by
  have hsame : (b / geo.sBlocksPerGroup = c / geo.sBlocksPerGroup ∧
      b % geo.sBlocksPerGroup = c % geo.sBlocksPerGroup) ↔ b = c := by
    constructor
    · rintro ⟨hdiv, hmod⟩
      rw [← Nat.div_add_mod b geo.sBlocksPerGroup, hdiv, hmod, Nat.div_add_mod]
    · rintro rfl
      exact ⟨rfl, rfl⟩
  rw [inUse, bfree_bit, Nat.mod_eq_of_lt h]
  simp only [hsame]
  rfl

/-- A file in order is in order without one of its entries. -/
theorem WellFormed.unhung (h : WellFormed geo f) (hp : Valid (p ++ [i]))
    (hn : walk f.tree none p = some n) (hne : f.tree n i ≠ 0) :
    WellFormed geo (f.unhung geo n i) := by
  have hp' : Valid p := valid_closed _ _ (List.prefix_append p [i]) hp
  have hc : walk f.tree none (p ++ [i]) = some (some (f.tree n i)) := by
    rw [walk_snoc hn, if_neg hne]
  refine ⟨?_, fun q b hq hb => ?_⟩
  · rw [unhung_tree]
    exact h.once.prune valid_closed hp' hn i
  · rw [unhung_tree] at hb
    obtain ⟨hwas, hoff⟩ := h.once.walk_of_prune valid_closed hp' hn hq hb
    rw [unhung_bitmaps, inUse_bfree _ (tree_lt f n i), h.used q b hq hwas, Bool.and_true,
      Bool.not_eq_true', decide_eq_false_iff_not]
    rintro rfl
    exact hoff ⟨[], by rw [List.append_nil]; exact h.once _ _ _ hp hq hc hwas⟩

theorem valid_lt {x : Nat} (h : Valid (p ++ i :: is)) (hp : p ≠ []) (hx : x ∈ i :: is) :
    x < EXT2_IND_PER_BLK := by
  cases p with
  | nil => exact absurd rfl hp
  | cons slot p => exact h.2.2 x (List.mem_append_right p hx)

/-- What has become of a file when the part of a path from the cut on is gone; `freed` are the
    blocks that have been freed, the lowest first. -/
structure Cut (geo : Geometry) (f f' : File) (path cut freed : List Nat) : Prop where
  tree : WellFormed geo f'
  gone : ∀ q, Valid q → cut <+: q → walk f'.tree none q = none
  kept : ∀ q, Valid q → ¬ cut <+: q → walk f'.tree none q = walk f.tree none q
  freed_iff : ∀ c, c ∈ freed ↔ ∃ q, cut <+: q ∧ q <+: path ∧ walk f.tree none q = some (some c)
  nodup : freed.Nodup
  bitmaps : f'.bitmaps = freed.foldl (bfree geo) f.bitmaps
  count : f'.ino.iBlocks = f.ino.iBlocks - UInt32.ofNat (8 * freed.length)
  blank : ∀ q c, cut <+: q → q <+: path → q ≠ path → walk f.tree none q = some (some c) →
    BlankBlock f' c
  aside : ∀ q, Valid q → cut <+: q → ¬ q <+: path → ¬ path <+: q → walk f.tree none q = none

/-- The last entry of the path is cut off. -/
theorem Cut.leaf (h : WellFormed geo f) (hp : Valid (p ++ [i])) (hn : walk f.tree none p = some n)
    (hne : f.tree n i ≠ 0) :
    Cut geo f (f.unhung geo n i) (p ++ [i]) (p ++ [i]) [f.tree n i] := by
  have hp' : Valid p := valid_closed _ _ (List.prefix_append p [i]) hp
  have hc : walk f.tree none (p ++ [i]) = some (some (f.tree n i)) := by
    rw [walk_snoc hn, if_neg hne]
  refine ⟨h.unhung hp hn hne, ?_, ?_, ?_, List.nodup_singleton _, ?_, ?_, ?_,
    fun q _ hcut _ hoff => absurd hcut hoff⟩
  · rintro q hq ⟨r, rfl⟩
    rw [unhung_tree, h.once.walk_store_behind valid_closed hp' hn, if_pos rfl]
  · intro q hq hoff
    rw [unhung_tree]
    exact h.once.walk_store valid_closed hp' hn 0 hq hoff
  · intro c
    rw [List.mem_singleton]
    constructor
    · rintro rfl
      exact ⟨p ++ [i], List.prefix_refl _, List.prefix_refl _, hc⟩
    · rintro ⟨q, hcut, hq, hwalk⟩
      obtain rfl := hcut.eq_of_length_le hq.length_le
      rw [hc] at hwalk
      exact (some.inj (some.inj hwalk)).symm
  · rw [unhung_bitmaps]
    rfl
  · rw [unhung_iBlocks]
    rfl
  · rintro q c hcut hq hne' -
    exact absurd (hq.eq_of_length_le hcut.length_le) hne'

/-- The index block in front of the cut has become empty, and is cut off as well. -/
theorem Cut.up {path : List Nat} {j : Nat} (h : Cut geo f f' path (p ++ [i] ++ [j]) freed)
    (hwf : WellFormed geo f) (hp : Valid path) (hpath : p ++ [i] ++ [j] <+: path)
    (hn : walk f.tree none p = some n) (hne : f.tree n i ≠ 0)
    (hblank : BlankBlock f' (f.tree n i)) :
    f'.tree n i = f.tree n i ∧
      Cut geo f (f'.unhung geo n i) path (p ++ [i]) (freed ++ [f.tree n i]) := by
  have hpi : Valid (p ++ [i]) :=
    valid_closed _ _ ((List.prefix_append _ [j]).trans hpath) hp
  have hp' : Valid p := valid_closed _ _ (List.prefix_append p [i]) hpi
  have hc : walk f.tree none (p ++ [i]) = some (some (f.tree n i)) := by
    rw [walk_snoc hn, if_neg hne]
  have hoffi : ¬ p ++ [i] ++ [j] <+: p ++ [i] := snoc_prefix_absurd _ j
  have hoffp : ¬ p ++ [i] ++ [j] <+: p := fun hpre =>
    hoffi (hpre.trans (List.prefix_append p [i]))
  have hn' : walk f'.tree none p = some n := by rw [h.kept p hp' hoffp, hn]
  have hc' : walk f'.tree none (p ++ [i]) = some (some (f.tree n i)) := by
    rw [h.kept _ hpi hoffi, hc]
  have hentry : f'.tree n i = f.tree n i := by
    rw [walk_snoc hn'] at hc'
    split at hc'
    · cases hc'
    · exact some.inj (some.inj hc')
  have hne' : f'.tree n i ≠ 0 := by
    rw [hentry]
    exact hne
  -- what has been blank stays so: the node whose entry is cleared lies above
  have hstay : ∀ q c, p ++ [i] <+: q → Valid q → walk f.tree none q = some (some c) →
      BlankBlock f' c → BlankBlock (f'.unhung geo n i) c := by
    intro q c hq hv hwalk hblank k hk
    have hother : n ≠ some c := by
      intro heq
      rw [heq] at hn
      obtain rfl := hwf.once _ _ _ hp' hv hn hwalk
      exact snoc_prefix_absurd p i hq
    rw [word, unhung_data f' i hother]
    exact hblank k hk
  refine ⟨hentry, h.tree.unhung hpi hn' hne', ?_, ?_, ?_, ?_, ?_, ?_, ?_, ?_⟩
  · rintro q hq ⟨r, rfl⟩
    rw [unhung_tree, h.tree.once.walk_store_behind valid_closed hp' hn', if_pos rfl]
  · intro q hq hoff
    have hoff' : ¬ p ++ [i] ++ [j] <+: q := fun hpre =>
      hoff ((List.prefix_append _ [j]).trans hpre)
    rw [unhung_tree, h.tree.once.walk_store valid_closed hp' hn' 0 hq hoff]
    exact h.kept q hq hoff'
  · intro c
    rw [List.mem_append, h.freed_iff, List.mem_singleton]
    constructor
    · rintro (⟨q, hcut, hq, hwalk⟩ | rfl)
      · exact ⟨q, (List.prefix_append _ [j]).trans hcut, hq, hwalk⟩
      · exact ⟨p ++ [i], List.prefix_refl _, (List.prefix_append _ [j]).trans hpath, hc⟩
    · rintro ⟨q, hcut, hq, hwalk⟩
      rcases List.prefix_or_prefix_of_prefix hpath hq with hbehind | hfront
      · exact .inl ⟨q, hbehind, hq, hwalk⟩
      · -- between the two cuts lies only the index block
        by_cases heq : q = p ++ [i] ++ [j]
        · exact .inl ⟨q, heq ▸ List.prefix_refl _, hq, hwalk⟩
        · have hlen := hcut.length_le
          have hlen' := hfront.length_le
          have hlt : q.length ≠ (p ++ [i] ++ [j]).length := fun hl => heq (hfront.eq_of_length hl)
          rw [List.length_append, List.length_singleton] at hlen' hlt
          obtain rfl := hcut.eq_of_length (by omega)
          rw [hc] at hwalk
          exact .inr (some.inj (some.inj hwalk)).symm
  · rw [List.nodup_append]
    refine ⟨h.nodup, List.nodup_singleton _, fun x hx y hy => ?_⟩
    rw [List.mem_singleton] at hy
    rintro rfl
    obtain ⟨q, hcut, hq, hwalk⟩ := (h.freed_iff x).mp hx
    rw [hy] at hwalk
    obtain rfl := hwf.once _ _ _ (valid_closed _ _ hq hp) hpi hwalk hc
    exact hoffi hcut
  · rw [unhung_bitmaps, hentry, h.bitmaps, List.foldl_append]
    rfl
  · rw [unhung_iBlocks, h.count, List.length_append, List.length_singleton, Nat.mul_add,
      UInt32.ofNat_add]
    exact sub_sub_u32 _ _ _
  · intro q c hcut hq hnot hwalk
    have hv : Valid q := valid_closed _ _ hq hp
    refine hstay q c hcut hv hwalk ?_
    rcases List.prefix_or_prefix_of_prefix hpath hq with hbehind | hfront
    · exact h.blank q c hbehind hq hnot hwalk
    · by_cases heq : q = p ++ [i] ++ [j]
      · exact h.blank q c (heq ▸ List.prefix_refl _) hq hnot hwalk
      · have hlen := hcut.length_le
        have hlen' := hfront.length_le
        have hlt : q.length ≠ (p ++ [i] ++ [j]).length := fun hl => heq (hfront.eq_of_length hl)
        rw [List.length_append, List.length_singleton] at hlen' hlt
        obtain rfl := hcut.eq_of_length (by omega)
        rw [hc] at hwalk
        rw [← some.inj (some.inj hwalk)]
        exact hblank
  · -- beside the path the index block was empty before
    rintro q hq ⟨r, rfl⟩ hnot hoff
    cases r with
    | nil =>
      rw [List.append_nil] at hnot
      exact absurd ((List.prefix_append _ [j]).trans hpath) hnot
    | cons k r =>
      have hassoc : p ++ [i] ++ k :: r = p ++ [i] ++ [k] ++ r := by
        rw [List.append_assoc (p ++ [i])]
        rfl
      by_cases hkj : k = j
      · subst hkj
        exact h.aside _ hq (hassoc ▸ List.prefix_append _ r) hnot hoff
      · have hv : Valid (p ++ [i] ++ [k]) :=
          valid_closed _ _ (hassoc ▸ List.prefix_append _ r) hq
        have hk : k < EXT2_IND_PER_BLK :=
          valid_lt hq (List.append_ne_nil_of_right_ne_nil p (List.cons_ne_nil i [])) List.mem_cons_self
        have hoffk : ¬ p ++ [i] ++ [j] <+: p ++ [i] ++ [k] := by
          intro hpre
          have hlen : (p ++ [i] ++ [j]).length = (p ++ [i] ++ [k]).length := by
            simp only [List.length_append, List.length_singleton]
          have heq := hpre.eq_of_length hlen
          exact hkj (List.cons.inj (List.append_cancel_left heq)).1.symm
        have hzero : f'.tree (some (f.tree n i)) k = 0 := hblank k hk
        have hkept := h.kept _ hv hoffk
        rw [walk_snoc hc', if_pos hzero] at hkept
        exact walk_none_behind hkept.symm (hassoc ▸ List.prefix_append _ r)

/-! ## The recursion -/

theorem anyEntry_eq_zero (f : File) (b : Nat) : anyEntry f b = 0 ↔ BlankBlock f b := by
  unfold anyEntry BlankBlock
  by_cases hany : ((List.range EXT2_IND_PER_BLK).any fun j => word f.data b j != 0) = true
  · rw [if_pos hany]
    obtain ⟨j, hj, hne⟩ := List.any_eq_true.mp hany
    refine ⟨fun hone => absurd hone Nat.one_ne_zero, fun hblank => ?_⟩
    exact absurd (hblank j (List.mem_range.mp hj)) (bne_iff_ne.mp hne)
  · rw [if_neg hany]
    refine ⟨fun _ j hj => ?_, fun _ => rfl⟩
    by_contra hne
    exact hany (List.any_eq_true.mpr ⟨j, List.mem_range.mpr hj, bne_iff_ne.mpr hne⟩)

theorem releaseLeaf_eq (f : File) (b i : Nat) :
    releaseLeaf geo f b i = (f.unhung geo (some b) i, anyEntry (f.unhung geo (some b) i) b) := rfl

/-- In front of the cut something is left: the cut is right behind `p`, or the index block in front
    of it has other entries. -/
def Stops (f f' : File) (p cut : List Nat) (res : Nat) : Prop :=
  ∃ q i, cut = q ++ [i] ∧ p <+: q ∧
    (q = p ∨ res ≠ 0 ∧ ∃ c, walk f.tree none q = some (some c) ∧ ¬ BlankBlock f' c)

/-- What a level of the recursion answers. -/
structure Released (geo : Geometry) (f f' : File) (p path cut freed : List Nat) (b res : Nat) :
    Prop where
  off : Cut geo f f' path cut freed
  reach : cut <+: path
  answer : res = 0 ↔ BlankBlock f' b
  stops : Stops f f' p cut res

/-- `recursively_release` cuts the path off as far up as the index blocks become empty. -/
theorem releasePath_spec (hwf : WellFormed geo f) (hp : Valid (p ++ is)) (hne : p ≠ [])
    (hn : walk f.tree none p = some (some b)) {d : Node} (hd : walk f.tree none (p ++ is) = some d)
    (his : is ≠ []) :
    ∃ f' res cut freed, releasePath geo f b is = some (f', res) ∧
      Released geo f f' p (p ++ is) cut freed b res := by
  induction is generalizing p b with
  | nil => exact absurd rfl his
  | cons i is ih =>
    have hassoc : p ++ i :: is = p ++ [i] ++ is := by rw [List.append_assoc]; rfl
    have hi := valid_lt hp hne List.mem_cons_self
    rw [hassoc] at hp hd ⊢
    have hpi : Valid (p ++ [i]) := valid_closed _ _ (List.prefix_append _ is) hp
    obtain ⟨m, hm⟩ := walk_prefix_some hd (List.prefix_append (p ++ [i]) is)
    have hentry : f.tree (some b) i ≠ 0 := by
      intro hzero
      rw [walk_snoc hn, if_pos hzero] at hm
      cases hm
    have hword : word f.data b i ≠ 0 := hentry
    have hc : walk f.tree none (p ++ [i]) = some (some (f.tree (some b) i)) := by
      rw [walk_snoc hn, if_neg hentry]
    rw [releasePath, if_pos hword]
    by_cases hlast : is = []
    · -- the data block
      subst hlast
      rw [if_pos rfl, List.append_nil, releaseLeaf_eq]
      exact ⟨_, _, _, _, rfl, Cut.leaf hwf hpi hn hentry, List.prefix_refl _,
        anyEntry_eq_zero _ b, p, i, rfl, List.prefix_refl _, .inl rfl⟩
    · rw [if_neg hlast]
      have hne' : p ++ [i] ≠ [] := List.append_ne_nil_of_right_ne_nil p (List.cons_ne_nil i [])
      obtain ⟨f₁, res, cut, freed, hrun, hrel⟩ := ih hp hne' hc hd hlast
      have hrun : releasePath geo f (word f.data b i) is = some (f₁, res) := hrun
      rw [hrun, Option.bind_eq_bind, Option.bind_some]
      dsimp only
      obtain ⟨q, j, hcut, hpq, hstop⟩ := hrel.stops
      by_cases hres : res = 0
      · -- the index block below has become empty: its own entry goes as well
        rw [if_pos hres]
        have hblank := hrel.answer.mp hres
        have hq : q = p ++ [i] := hstop.resolve_right fun hand => hand.1 hres
        subst hq
        have hcutpath : p ++ [i] ++ [j] <+: p ++ [i] ++ is := hcut ▸ hrel.reach
        have hcut' := hrel.off
        rw [hcut] at hcut'
        obtain ⟨-, hup⟩ := hcut'.up hwf hp hcutpath hn hentry hblank
        rw [releaseLeaf_eq]
        exact ⟨_, _, _, _, rfl, hup, List.prefix_append _ is, anyEntry_eq_zero _ b, p, i, rfl,
          List.prefix_refl _, .inl rfl⟩
      · rw [if_neg hres]
        -- the entry of this level stays
        have hoff : ¬ cut <+: p ++ [i] := by
          intro hpre
          have hlen := hpre.length_le
          have hlen' := hpq.length_le
          rw [hcut, List.length_append, List.length_singleton] at hlen
          omega
        have hkept := hrel.off.kept (p ++ [i]) hpi hoff
        have hoffp : ¬ cut <+: p := fun hpre => hoff (hpre.trans (List.prefix_append p [i]))
        have hp' : Valid p := valid_closed _ _ (List.prefix_append p [i]) hpi
        have hkeptp := hrel.off.kept p hp' hoffp
        rw [hn] at hkeptp
        rw [hc, walk_snoc hkeptp] at hkept
        have hstays : f₁.tree (some b) i ≠ 0 := by
          intro hzero
          rw [if_pos hzero] at hkept
          cases hkept
        refine ⟨_, _, cut, freed, rfl, hrel.off, hrel.reach, ?_, q, j, hcut,
          (List.prefix_append p [i]).trans hpq, .inr ⟨hres, ?_⟩⟩
        · refine ⟨fun hzero => absurd hzero hres, fun hblank => ?_⟩
          exact absurd (hblank i hi) hstays
        · rcases hstop with rfl | ⟨-, hc'⟩
          · exact ⟨_, hc, fun hblank => hres (hrel.answer.mpr hblank)⟩
          · exact hc'

/-! ## The file afterwards -/

/-- The index blocks on the way to a block number. -/
def IndexOn (f : File) (blkNo c : Nat) : Prop :=
  ∃ q, q <+: path blkNo ∧ q ≠ path blkNo ∧ walk f.tree none q = some (some c)

/-- What `bunmap` is to do: the block goes, and with it the index blocks on the way to it that have
    become empty; their entries are cleared, and the rest of the file is as it was. -/
structure Unmaps (geo : Geometry) (f : File) (blkNo b : Nat) (f' : File) (freed : List Nat) :
    Prop where
  freed_iff : ∀ c, c ∈ freed ↔ c = b ∨ IndexOn f blkNo c ∧ BlankBlock f' c
  nodup : freed.Nodup
  bitmaps : f'.bitmaps = freed.foldl (bfree geo) f.bitmaps
  cleared : ∀ q i n, q ++ [i] <+: path blkNo → walk f.tree none q = some n → f.tree n i ∈ freed →
    f'.tree n i = 0
  count : f'.ino.iBlocks = f.ino.iBlocks - UInt32.ofNat (BLKSIZE / SECTORSIZE * freed.length)
  gone : mapped f' blkNo = none
  kept : ∀ m < EXT2_TIND_LIMIT, m ≠ blkNo → mapped f' m = mapped f m
  tree : WellFormed geo f'

/-- The entry that a walk has taken is not empty. -/
theorem walk_entry {t : Tree} (hn : walk t none p = some n) (hm : walk t none (p ++ [i]) = some m) :
    t n i ≠ 0 := by
  intro hzero
  rw [walk_snoc hn, if_pos hzero] at hm
  cases hm

/-- The part of the path to a block that `bunmap` cuts off: an index block in front of the cut has
    other entries. -/
structure Cuts (geo : Geometry) (f : File) (blkNo : Nat) (f' : File) (cut freed : List Nat) :
    Prop extends Cut geo f f' (path blkNo) cut freed where
  reach : cut <+: path blkNo
  ne_nil : cut ≠ []
  stop : ∀ q i c, cut = q ++ [i] → walk f.tree none q = some (some c) → ¬ BlankBlock f' c

theorem Cuts.unmaps {blkNo : Nat} (h : Cuts geo f blkNo f' cut freed) (hwf : WellFormed geo f)
    (hn : blkNo < EXT2_TIND_LIMIT) (hb : mapped f blkNo = some (some b)) :
    Unmaps geo f blkNo b f' freed := by
  have hreach := h.reach
  have hpath := path_valid hn
  refine ⟨fun c => ?_, h.nodup, h.bitmaps, ?_, h.count, h.gone _ hpath hreach, ?_, h.tree⟩
  · rw [h.freed_iff]
    constructor
    · rintro ⟨q, hcut, hq, hwalk⟩
      by_cases heq : q = path blkNo
      · subst heq
        have hb : walk f.tree none (path blkNo) = some (some b) := hb
        rw [hb] at hwalk
        exact .inl (some.inj (some.inj hwalk)).symm
      · exact .inr ⟨⟨q, hq, heq, hwalk⟩, h.blank q c hcut hq heq hwalk⟩
    · rintro (rfl | ⟨⟨q, hq, hqne, hwalk⟩, hblank⟩)
      · exact ⟨path blkNo, hreach, List.prefix_refl _, hb⟩
      · refine ⟨q, ?_, hq, hwalk⟩
        rcases List.prefix_or_prefix_of_prefix hreach hq with hbehind | ⟨r, hr⟩
        · exact hbehind
        · -- an index block in front of the cut keeps its entry
          cases r with
          | nil =>
            rw [List.append_nil] at hr
            rw [hr]
          | cons j r =>
            refine absurd hblank ?_
            by_cases hlast : r = []
            · subst hlast
              exact h.stop q j c hr.symm hwalk
            · have hassoc : q ++ j :: r = q ++ [j] ++ r := by rw [List.append_assoc]; rfl
              rw [hassoc] at hr
              have hpre : q ++ [j] <+: path blkNo := (hr ▸ List.prefix_append _ r).trans hreach
              have hv : Valid (q ++ [j]) := valid_closed _ _ hpre hpath
              have hoff : ¬ cut <+: q ++ [j] := by
                intro hcut
                have hlen := hcut.length_le
                rw [← hr, List.length_append] at hlen
                exact hlast (List.length_eq_zero_iff.mp (by omega))
              have hoffq : ¬ cut <+: q := fun hcut => hoff (hcut.trans (List.prefix_append q [j]))
              obtain ⟨m, hm⟩ := walk_prefix_some hb hpre
              have hq' : walk f'.tree none q = some (some c) := by
                rw [h.kept q (valid_closed _ _ hq hpath) hoffq, hwalk]
              have hentry : f'.tree (some c) j ≠ 0 := walk_entry hq' ((h.kept _ hv hoff).trans hm)
              have hqnil : q ≠ [] := by
                rintro rfl
                cases hwalk
              exact fun hblank => hentry (hblank j (valid_lt hv hqnil List.mem_cons_self))
  · intro q i n hq hwalk hmem
    have hv : Valid (q ++ [i]) := valid_closed _ _ hq hpath
    obtain ⟨m, hm⟩ := walk_prefix_some hb hq
    have hentry := walk_entry hwalk hm
    have hc : walk f.tree none (q ++ [i]) = some (some (f.tree n i)) := by
      rw [walk_snoc hwalk, if_neg hentry]
    obtain ⟨q', hcut, hq', hwalk'⟩ := (h.freed_iff _).mp hmem
    obtain rfl := hwf.once _ _ _ (valid_closed _ _ hq' hpath) hv hwalk' hc
    by_cases hcutq : cut <+: q
    · -- the entry lies in a block that has become empty
      cases n with
      | none =>
        have hnil : q = [] := by
          by_contra hqnil
          obtain ⟨c, hc⟩ := walk_some_block hwalk hqnil
          cases hc
        subst hnil
        exact absurd (List.prefix_nil.mp hcutq) h.ne_nil
      | some c =>
        have hqne : q ≠ path blkNo := fun heq => snoc_prefix_absurd q i (heq ▸ hq)
        have hqnil : q ≠ [] := by
          rintro rfl
          cases hwalk
        exact h.blank q c hcutq ((List.prefix_append q [i]).trans hq) hqne hwalk i
          (valid_lt hv hqnil List.mem_cons_self)
    · -- it is the entry at the cut
      have hgone := h.gone _ hv hcut
      have hkept := h.kept q (valid_closed _ _ (List.prefix_append q [i]) hv) hcutq
      rw [hwalk] at hkept
      by_contra hstays
      rw [walk_snoc hkept, if_neg hstays] at hgone
      cases hgone
  · intro m hm hmne
    by_cases hcut : cut <+: path m
    · have hgone := h.gone _ (path_valid hm) hcut
      have haside := h.aside _ (path_valid hm) hcut (fun hpre => hmne (path_prefix_eq hn hpre))
        (fun hpre => hmne (path_prefix_eq hm hpre).symm)
      rw [mapped, mapped, hgone, haside]
    · exact h.kept _ (path_valid hm) hcut

theorem unmapPath_cuts {blkNo : Nat} (hwf : WellFormed geo f) (hn : blkNo < EXT2_TIND_LIMIT)
    (hb : mapped f blkNo = some (some b)) :
    ∃ f' cut freed, unmapPath geo f (path blkNo) = some f' ∧ Cuts geo f blkNo f' cut freed := by
  obtain ⟨slot, is, hpath⟩ := List.exists_cons_of_ne_nil (path_ne_nil blkNo)
  have hslots : path blkNo = [slot] ++ is := hpath
  have hvalid := path_valid hn
  have hwalk : walk f.tree none (path blkNo) = some (some b) := hb
  have hslot : [slot] <+: path blkNo := hslots ▸ List.prefix_append _ is
  obtain ⟨m, hm⟩ := walk_prefix_some hwalk hslot
  have hentry : f.tree none slot ≠ 0 := walk_entry (walk_nil f.tree none) hm
  have hc : walk f.tree none [slot] = some (some (f.tree none slot)) := by
    rw [walk_cons, if_neg hentry, walk_nil]
  rw [hpath, unmapPath]
  by_cases hlast : is = []
  · -- one of the direct blocks
    subst hlast
    have hne : (f.ino.iBlock slot).toNat ≠ 0 := hentry
    rw [if_pos rfl, if_pos hne]
    have hcut : Cut geo f (f.unhung geo none slot) (path blkNo) (path blkNo) [f.tree none slot] := by
      rw [hpath] at hvalid ⊢
      exact Cut.leaf (p := []) hwf hvalid (walk_nil _ _) hentry
    refine ⟨_, _, _, rfl, hcut, List.prefix_refl _, path_ne_nil blkNo, ?_⟩
    intro q i c hq hindex
    rw [hpath] at hq
    obtain ⟨rfl, -⟩ := List.append_inj' (show [] ++ [slot] = q ++ [i] from hq) rfl
    cases hindex
  · rw [if_neg hlast]
    rw [hslots] at hvalid hwalk
    obtain ⟨f₁, res, cut, freed, hrun, hrel⟩ :=
      releasePath_spec hwf hvalid (List.cons_ne_nil slot []) hc hwalk hlast
    rw [← hslots] at hrel hvalid
    have hrun : releasePath geo f (f.ino.iBlock slot).toNat is = some (f₁, res) := hrun
    rw [hrun, Option.bind_eq_bind, Option.bind_some]
    dsimp only
    obtain ⟨q, j, rfl, hpq, hstop⟩ := hrel.stops
    by_cases hres : res = 0
    · -- the slot goes as well
      rw [if_pos hres]
      obtain rfl := hstop.resolve_right fun hand => hand.1 hres
      obtain ⟨-, hup⟩ := hrel.off.up (p := []) hwf hvalid hrel.reach (walk_nil _ _) hentry
        (hrel.answer.mp hres)
      refine ⟨_, _, _, rfl, hup, hslot, List.cons_ne_nil slot [], ?_⟩
      intro q i c hq hindex
      obtain ⟨rfl, -⟩ := List.append_inj' (show [] ++ [slot] = q ++ [i] from hq) rfl
      cases hindex
    · rw [if_neg hres]
      refine ⟨_, _, _, rfl, hrel.off, hrel.reach,
        List.append_ne_nil_of_right_ne_nil q (List.cons_ne_nil j []), ?_⟩
      intro q' i c hq hindex
      obtain ⟨rfl, -⟩ := List.append_inj' hq rfl
      rcases hstop with rfl | ⟨-, c', hindex', hnot⟩
      · rw [hc] at hindex
        rw [← some.inj (some.inj hindex)]
        exact fun hblank => hres (hrel.answer.mpr hblank)
      · rw [hindex'] at hindex
        rw [← some.inj (some.inj hindex)]
        exact hnot

theorem unmapPath_spec {blkNo : Nat} (hwf : WellFormed geo f) (hn : blkNo < EXT2_TIND_LIMIT)
    (hb : mapped f blkNo = some (some b)) :
    ∃ f' freed, unmapPath geo f (path blkNo) = some f' ∧ Unmaps geo f blkNo b f' freed := by
  obtain ⟨f', cut, freed, hrun, hcuts⟩ := unmapPath_cuts hwf hn hb
  exact ⟨f', freed, hrun, hcuts.unmaps hwf hn hb⟩

/-- Where nothing is missing `bmap` only follows the path. -/
theorem descend_walk (balloc : Bitmaps → Bitmaps × Int) (hn : Small n)
    (h : walk f.tree n q = some (some b)) :
    descend balloc f n q = (f, b) := by
  induction q generalizing n with
  | nil => rw [descend, some.inj h]; rfl
  | cons i is ih =>
    rw [walk_cons] at h
    split at h
    · cases h
    next hne => rw [descend_there hn hne, ih (small_entry f n i) h]

/-- `bunmap` undoes `bmap`. -/
theorem bunmap_exact {blkNo : Nat} (hwf : WellFormed geo f) (hn : blkNo < EXT2_TIND_LIMIT)
    (hb : mapped f blkNo = some (some b)) :
    (∀ balloc, bmap balloc f blkNo = some (f, b)) ∧
      ∃ f' freed, bunmap geo f blkNo = some f' ∧ Unmaps geo f blkNo b f' freed := by
  refine ⟨fun balloc => ?_, ?_⟩
  · rw [bmap_eq_descend hn, descend_walk balloc small_root hb]
  · rw [bunmap_eq_unmapPath hn]
    exact unmapPath_spec hwf hn hb

/-- Block 12 is put into an empty file and taken from it. -/
theorem bunmap_exact_undo : ∃ f' b f'' freed,
    bmap (ballocFor oneGroup 0) (emptyFile fun _ => 0) 12 = some (f', b) ∧
      bunmap oneGroup f' 12 = some f'' ∧ Unmaps oneGroup f' 12 b f'' freed := by
  obtain ⟨f', b, hrun, hmaps⟩ := bmap_blankFile
  obtain ⟨-, f'', freed, hrun', hunmaps⟩ := bunmap_exact hmaps.tree (by decide) hmaps.there
  exact ⟨f', b, f'', freed, hrun, hrun', hunmaps⟩

end Uniks.Bmap
