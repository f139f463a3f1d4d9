/-
  What `bmap` does to the tree of a file.

  In a file in order (`WellFormed`) every block the tree refers to is in use, and there once.  Where
  an entry is missing `bmap` hangs in a block that was not in use, so that the tree is still in
  order, provided that the new block brings no entries with it.  `Between` is the invariant of the
  descent: what is there beyond the old tree lies on the path.

  An old entry in a new index block spoils the order for good, since `bmap` changes no entry that is
  there (`Between.spoilt`): whatever it refers to is either not in use, or there twice, or somebody
  else's.
-/
import Uniks.Bmap

namespace Uniks.Bmap

open Uniks.ByteMem Uniks.Bits Uniks.BlockBitmap Uniks.EntryTree

/-! ## Blocks in use -/

/-- The bit of a block. -/
def inUse (geo : Geometry) (bitmaps : Bitmaps) (b : Nat) : Bool :=
  bit (bitmaps (b / geo.sBlocksPerGroup)) (b % geo.sBlocksPerGroup)

/-- The allocator gives a block that is not in use, and marks it. -/
structure Grants (geo : Geometry) (balloc : Bitmaps → Bitmaps × Int) (bitmaps : Bitmaps) : Prop where
  pos : 0 < (balloc bitmaps).2
  lt : (balloc bitmaps).2 < 2 ^ 32
  unused : inUse geo bitmaps (balloc bitmaps).2.toNat = false
  marks : ∀ b, inUse geo (balloc bitmaps).1 b
    = (decide (b = (balloc bitmaps).2.toNat) || inUse geo bitmaps b)

/-- It does so the next few times. -/
def Supplies (geo : Geometry) (balloc : Bitmaps → Bitmaps × Int) : Nat → Bitmaps → Prop
  | 0, _ => True
  | k + 1, bitmaps => Grants geo balloc bitmaps ∧ Supplies geo balloc k (balloc bitmaps).1

/-- The block that it gives next but `k`. -/
def fresh (balloc : Bitmaps → Bitmaps × Int) : Bitmaps → Nat → Nat
  | bitmaps, 0 => (balloc bitmaps).2.toNat
  | bitmaps, k + 1 => fresh balloc (balloc bitmaps).1 k

/-- The bitmaps after the next `k` blocks. -/
def later (balloc : Bitmaps → Bitmaps × Int) : Nat → Bitmaps → Bitmaps
  | 0, bitmaps => bitmaps
  | k + 1, bitmaps => later balloc k (balloc bitmaps).1

/-- A file in order. -/
structure WellFormed (geo : Geometry) (f : File) : Prop where
  once : Once Valid f.tree
  used : ∀ q b, Valid q → walk f.tree none q = some (some b) → inUse geo f.bitmaps b = true

/-- The blocks in use that the file does not refer to. -/
def Others (geo : Geometry) (f : File) (b : Nat) : Prop :=
  inUse geo f.bitmaps b = true ∧ Unused Valid f.tree b

/-- The block of a block number; `none` if there is none. -/
def mapped (f : File) (blkNo : Nat) : Option Node := walk f.tree none (path blkNo)

/-- What `bmap` is to do: `b` is the block that was there, or one that was not in use; it is there
    now, all other blocks of the file are as they were, and the file is in order and refers to no
    block of somebody else. -/
structure Maps (geo : Geometry) (f : File) (blkNo : Nat) (f' : File) (b : Nat) : Prop where
  answer : mapped f blkNo = some (some b) ∨
    mapped f blkNo = none ∧ inUse geo f.bitmaps b = false
  there : mapped f' blkNo = some (some b)
  kept : ∀ m < EXT2_TIND_LIMIT, m ≠ blkNo → mapped f' m = mapped f m
  tree : WellFormed geo f'
  others : ∀ b, Others geo f b → Unused Valid f'.tree b

/-- A block without entries. -/
def BlankBlock (f : File) (b : Nat) : Prop := ∀ j < EXT2_IND_PER_BLK, word f.data b j = 0

/-- The blocks that become index blocks have no entries. -/
def BlankFrom (balloc : Bitmaps → Bitmaps × Int) (f : File) (n : Node) (q : List Nat) : Prop :=
  ∀ k, k + 1 < missing f.tree n q → BlankBlock f (fresh balloc f.bitmaps k)

/-- The new index blocks on the way to a block have no entries. -/
def BlankIndex (balloc : Bitmaps → Bitmaps × Int) (f : File) (blkNo : Nat) : Prop :=
  BlankFrom balloc f none (path blkNo)

/-! ## One entry -/

variable {geo : Geometry} {balloc : Bitmaps → Bitmaps × Int} {f f₀ f' : File} {n m : Node}
  {i c : Nat} {p q is : List Nat}

/-- The entry of a node is stored. -/
def File.put (f : File) : Node → Nat → Nat → File
  | none, i, c => f.setSlot i c
  | some b, i, c => f.setEntry b i c

@[simp] theorem put_bitmaps (f : File) (n : Node) (i c : Nat) : (f.put n i c).bitmaps = f.bitmaps := by
  cases n <;> rfl

theorem put_tree (f : File) (n : Node) {c : Nat} (hc : c < 2 ^ 32) (i : Nat) :
    (f.put n i c).tree = store f.tree n i c := by
  cases n with
  | none =>
    show (f.setSlot i c).tree = _
    rw [tree_setSlot, Nat.mod_eq_of_lt hc]
  | some b =>
    show (f.setEntry b i c).tree = _
    rw [tree_setEntry, Nat.mod_eq_of_lt hc]

theorem put_data {b : Nat} (h : n ≠ some b) (f : File) (i c : Nat) :
    (f.put n i c).data b = f.data b := by
  cases n with
  | none => rfl
  | some a =>
    have hne : b ≠ a := fun heq => h (by rw [heq])
    exact Function.update_of_ne hne _ _

/-- The state after a call of the allocator. -/
def File.taken (balloc : Bitmaps → Bitmaps × Int) (f : File) : File :=
  { f with bitmaps := (balloc f.bitmaps).1 }

theorem Grants.u64_eq (h : Grants geo balloc f.bitmaps) :
    u64 (balloc f.bitmaps).2 = fresh balloc f.bitmaps 0 := by
  have hpos := h.pos
  have hlt := h.lt
  show ((balloc f.bitmaps).2 % 2 ^ 64).toNat = (balloc f.bitmaps).2.toNat
  omega

theorem Grants.ne_zero (h : Grants geo balloc f.bitmaps) : fresh balloc f.bitmaps 0 ≠ 0 := by
  have hpos := h.pos
  show (balloc f.bitmaps).2.toNat ≠ 0
  omega

theorem Grants.fresh_unused (h : Grants geo balloc f.bitmaps) :
    inUse geo f.bitmaps (fresh balloc f.bitmaps 0) = false := h.unused

theorem Grants.small (h : Grants geo balloc f.bitmaps) : fresh balloc f.bitmaps 0 < 2 ^ 32 := by
  have hlt := h.lt
  show (balloc f.bitmaps).2.toNat < 2 ^ 32
  omega

theorem visit_there (hn : Small n) (h : f.tree n i ≠ 0) : visit balloc f n i = (f, f.tree n i) := by
  cases n with
  | none =>
    have hne : ¬ (f.ino.iBlock i).toNat = 0 := h
    show bmapSlot balloc f i = _
    rw [bmapSlot, if_neg hne]
    rfl
  | some b =>
    have hne : ¬ word f.data b i = 0 := h
    show bmapEntry balloc f b i = _
    rw [bmapEntry, Nat.mod_eq_of_lt (hn b rfl)]
    dsimp only
    rw [if_neg hne]
    rfl

/-- The file with a new block hung in. -/
def File.grown (balloc : Bitmaps → Bitmaps × Int) (f : File) (n : Node) (i : Nat) : File :=
  (f.taken balloc).put n i (fresh balloc f.bitmaps 0)

theorem visit_new (hn : Small n) (hg : Grants geo balloc f.bitmaps) (h : f.tree n i = 0) :
    visit balloc f n i = (f.grown balloc n i, fresh balloc f.bitmaps 0) := by
  have hne : ¬ u64 (balloc f.bitmaps).2 = 0 := by
    rw [hg.u64_eq]
    exact hg.ne_zero
  cases n with
  | none =>
    have hzero : (f.ino.iBlock i).toNat = 0 := h
    show bmapSlot balloc f i = _
    rw [bmapSlot, if_pos hzero]
    dsimp only
    rw [if_neg hne, hg.u64_eq]
    rfl
  | some b =>
    have hzero : word f.data b i = 0 := h
    show bmapEntry balloc f b i = _
    rw [bmapEntry, Nat.mod_eq_of_lt (hn b rfl)]
    dsimp only
    rw [if_pos hzero, if_neg hne, hg.u64_eq]
    rfl

theorem grown_tree (hg : Grants geo balloc f.bitmaps) (n : Node) (i : Nat) :
    (f.grown balloc n i).tree = store f.tree n i (fresh balloc f.bitmaps 0) :=
  put_tree (f.taken balloc) n hg.small i

@[simp] theorem grown_bitmaps (f : File) (n : Node) (i : Nat) :
    (f.grown balloc n i).bitmaps = (balloc f.bitmaps).1 := put_bitmaps _ n i _

theorem grown_inUse (hg : Grants geo balloc f.bitmaps) (n : Node) (i b : Nat) :
    inUse geo (f.grown balloc n i).bitmaps b
      = (decide (b = fresh balloc f.bitmaps 0) || inUse geo f.bitmaps b) := by
  rw [grown_bitmaps]
  exact hg.marks b

/-- A step of the descent. -/
theorem descend_there (hn : Small n) (h : f.tree n i ≠ 0) (is : List Nat) :
    descend balloc f n (i :: is) = descend balloc f (some (f.tree n i)) is := by
  rw [descend_cons, visit_there hn h]
  dsimp only
  rw [if_neg h]

theorem descend_new (hn : Small n) (hg : Grants geo balloc f.bitmaps) (h : f.tree n i = 0)
    (is : List Nat) : descend balloc f n (i :: is)
      = descend balloc (f.grown balloc n i) (some (fresh balloc f.bitmaps 0)) is := by
  rw [descend_cons, visit_new hn hg h]
  dsimp only
  rw [if_neg hg.ne_zero]

theorem Supplies.of_succ {k : Nat} : ∀ {bitmaps : Bitmaps}, Supplies geo balloc (k + 1) bitmaps →
    Supplies geo balloc k bitmaps := by
  induction k with
  | zero => exact fun _ => trivial
  | succ k ih => exact fun h => ⟨h.1, ih h.2⟩

theorem Supplies.mono {k l : Nat} {bitmaps : Bitmaps} (h : Supplies geo balloc l bitmaps)
    (hle : k ≤ l) : Supplies geo balloc k bitmaps := by
  induction hle with
  | refl => exact h
  | step _ ih => exact ih h.of_succ

theorem Supplies.grown {k : Nat} (h : Supplies geo balloc k (balloc f.bitmaps).1) (n : Node)
    (i : Nat) : Supplies geo balloc k (f.grown balloc n i).bitmaps := by
  rw [grown_bitmaps]
  exact h

/-- None of the blocks to come is in use. -/
theorem Supplies.fresh_unused {l k : Nat} {bitmaps : Bitmaps} (h : Supplies geo balloc l bitmaps)
    (hk : k < l) : inUse geo bitmaps (fresh balloc bitmaps k) = false := by
  induction k generalizing l bitmaps with
  | zero =>
    cases l with
    | zero => omega
    | succ l => exact h.1.unused
  | succ k ih =>
    cases l with
    | zero => omega
    | succ l =>
      have hlater := ih h.2 (by omega)
      rw [h.1.marks, Bool.or_eq_false_iff] at hlater
      exact hlater.2

/-! ## Whatever the new blocks contain -/

/-- What is on the path was there, or is new there. -/
theorem descend_keeps (hs : Supplies geo balloc is.length f.bitmaps)
    (hp : walk f.tree none p = some n) :
    Keeps f.tree (descend balloc f n is).1.tree ∧
      ∀ b, inUse geo (descend balloc f n is).1.bitmaps b = true → inUse geo f.bitmaps b = true ∨
        ∃ q, q <+: p ++ is ∧ walk (descend balloc f n is).1.tree none q = some (some b) ∧
          walk f.tree none q = none := by
  induction is generalizing f n p with
  | nil => exact ⟨.refl _, fun b hb => .inl hb⟩
  | cons i is ih =>
    have hassoc : p ++ i :: is = p ++ [i] ++ is := by rw [List.append_assoc]; rfl
    rcases hs with ⟨hg, hrest⟩
    by_cases hzero : f.tree n i = 0
    · rw [descend_new (walk_small hp) hg hzero, hassoc]
      have hkeep : Keeps f.tree (f.grown balloc n i).tree := by
        rw [grown_tree hg]
        exact Keeps.store hzero _
      have hnone : walk f.tree none (p ++ [i]) = none := by rw [walk_snoc hp, if_pos hzero]
      have hnext : walk (f.grown balloc n i).tree none (p ++ [i])
          = some (some (fresh balloc f.bitmaps 0)) := by
        rw [walk_snoc (hkeep.walk hp), grown_tree hg, store_self, if_neg hg.ne_zero]
      obtain ⟨hk, hu⟩ := ih (hrest.grown n i) hnext
      refine ⟨hkeep.trans hk, fun b hb => ?_⟩
      rcases hu b hb with hold | ⟨q, hq, hqb, hqn⟩
      · rw [grown_inUse hg, Bool.or_eq_true, decide_eq_true_eq] at hold
        rcases hold with rfl | hold
        · exact .inr ⟨p ++ [i], ⟨is, rfl⟩, hk.walk hnext, hnone⟩
        · exact .inl hold
      · refine .inr ⟨q, hq, hqb, ?_⟩
        cases hwas : walk f.tree none q with
        | none => rfl
        | some m =>
          rw [hkeep.walk hwas] at hqn
          cases hqn
    · rw [descend_there (walk_small hp) hzero, hassoc]
      have hnext : walk f.tree none (p ++ [i]) = some (some (f.tree n i)) := by
        rw [walk_snoc hp, if_neg hzero]
      exact ih (Supplies.of_succ ⟨hg, hrest⟩) hnext

/-! ## The descent -/

/-- In the middle of the descent that began in `f₀`, at the node that `p` leads to. -/
structure Between (geo : Geometry) (f₀ f : File) (p : List Nat) (n : Node) : Prop where
  tree : WellFormed geo f
  others : ∀ b, Others geo f₀ b → Unused Valid f.tree b
  keeps : Keeps f₀.tree f.tree
  used : ∀ b, inUse geo f₀.bitmaps b = true → inUse geo f.bitmaps b = true
  news : ∀ b, inUse geo f.bitmaps b = true → inUse geo f₀.bitmaps b = true ∨
    ∃ q, q <+: p ∧ walk f.tree none q = some (some b) ∧ walk f₀.tree none q = none
  same : ∀ q, Valid q → walk f.tree none q = walk f₀.tree none q ∨
    q <+: p ∧ walk f₀.tree none q = none
  data : ∀ b, inUse geo f.bitmaps b = false → f.data b = f₀.data b
  frame : ∀ q b, Valid q → Whole q → walk f₀.tree none q = some (some b) → f.data b = f₀.data b
  count : f.ino.iBlocks = f₀.ino.iBlocks
  here : walk f.tree none p = some n

theorem Between.refl (h : WellFormed geo f) : Between geo f f [] none where
  tree := h
  others _ hb := hb.2
  keeps := .refl _
  used _ hb := hb
  news _ hb := .inl hb
  same _ _ := .inl rfl
  data _ _ := rfl
  frame _ _ _ _ _ := rfl
  count := rfl
  here := rfl

/-- A block that the allocator gives is not in the tree. -/
theorem WellFormed.unused (h : WellFormed geo f) {b : Nat} (hb : inUse geo f.bitmaps b = false) :
    Unused Valid f.tree b := by
  intro q hq hwalk
  rw [h.used q b hq hwalk] at hb
  cases hb

/-- Nor is it the node whose entry is stored. -/
theorem WellFormed.node_ne (h : WellFormed geo f) {b : Nat} (hb : inUse geo f.bitmaps b = false)
    (hp : Valid p) (hn : walk f.tree none p = some n) : n ≠ some b := fun heq =>
  h.unused hb p hp (heq ▸ hn)

/-- An entry that is there. -/
theorem Between.there (h : Between geo f₀ f p n) (hne : f.tree n i ≠ 0) :
    Between geo f₀ f (p ++ [i]) (some (f.tree n i)) where
  tree := h.tree
  others := h.others
  keeps := h.keeps
  used := h.used
  news b hb := by
    rcases h.news b hb with hold | ⟨q, hq, hwalk⟩
    · exact .inl hold
    · exact .inr ⟨q, hq.trans (List.prefix_append p [i]), hwalk⟩
  same q hq := by
    rcases h.same q hq with hold | ⟨hpre, hnone⟩
    · exact .inl hold
    · exact .inr ⟨hpre.trans (List.prefix_append p [i]), hnone⟩
  data := h.data
  frame := h.frame
  count := h.count
  here := by rw [walk_snoc h.here, if_neg hne]

/-- A missing entry is missing in the old tree as well. -/
theorem Between.missing (h : Between geo f₀ f p n) (hp : Valid (p ++ [i])) (hzero : f.tree n i = 0) :
    walk f₀.tree none (p ++ [i]) = none := by
  have hnone : walk f.tree none (p ++ [i]) = none := by rw [walk_snoc h.here, if_pos hzero]
  rcases h.same (p ++ [i]) hp with hold | ⟨hpre, -⟩
  · rw [← hold]
    exact hnone
  · exact absurd hpre (snoc_prefix_absurd p i)

/-- A block without entries is hung in. -/
theorem Between.grow (h : Between geo f₀ f p n) (hg : Grants geo balloc f.bitmaps)
    (hp : Valid (p ++ [i])) (hzero : f.tree n i = 0)
    (hblank : ∀ j r, Valid (p ++ [i] ++ j :: r) → word f.data (fresh balloc f.bitmaps 0) j = 0) :
    Between geo f₀ (f.grown balloc n i) (p ++ [i]) (some (fresh balloc f.bitmaps 0)) := by
  have hp' : Valid p := valid_closed _ _ (List.prefix_append p [i]) hp
  have hc := hg.ne_zero
  have hfree := h.tree.unused hg.unused
  have htree := grown_tree hg n i
  have hnone := h.missing hp hzero
  have hwalk : ∀ {q}, Valid q → ∀ [Decidable (q = p ++ [i])],
      walk (f.grown balloc n i).tree none q
        = if q = p ++ [i] then some (some (fresh balloc f.bitmaps 0)) else walk f.tree none q := by
    intro q hq hdec
    rw [htree]
    exact h.tree.once.walk_grow valid_closed hp' h.here hzero hc hfree hblank hq
  have hhere : walk (f.grown balloc n i).tree none (p ++ [i])
      = some (some (fresh balloc f.bitmaps 0)) := by rw [hwalk hp, if_pos rfl]
  have hcount : (f.grown balloc n i).ino.iBlocks = f.ino.iBlocks := by cases n <;> rfl
  refine ⟨⟨?_, ?_⟩, ?_, ?_, ?_, ?_, ?_, ?_, ?_, hcount.trans h.count, hhere⟩
  · rw [htree]
    exact h.tree.once.grow valid_closed hp' h.here hzero hc hfree hblank
  · intro q b hq hb
    rw [grown_inUse hg, Bool.or_eq_true, decide_eq_true_eq]
    rw [hwalk hq] at hb
    split at hb
    · exact .inl (Option.some.inj (Option.some.inj hb)).symm
    · exact .inr (h.tree.used q b hq hb)
  · intro b hb q hq hwas
    rw [hwalk hq] at hwas
    split at hwas
    · -- the new block was not in use, the other one is
      have heq := Option.some.inj (Option.some.inj hwas)
      have hused := h.used b hb.1
      rw [← heq, hg.fresh_unused] at hused
      cases hused
    · exact h.others b hb q hq hwas
  · rw [htree]
    exact h.keeps.trans (Keeps.store hzero _)
  · intro b hb
    rw [grown_inUse hg, h.used b hb, Bool.or_true]
  · intro b hb
    rw [grown_inUse hg, Bool.or_eq_true, decide_eq_true_eq] at hb
    rcases hb with rfl | hb
    · exact .inr ⟨p ++ [i], List.prefix_refl _, hhere, hnone⟩
    · rcases h.news b hb with hold | ⟨q, hq, hqb, hqn⟩
      · exact .inl hold
      · refine .inr ⟨q, hq.trans (List.prefix_append p [i]), ?_, hqn⟩
        rw [htree]
        exact (Keeps.store hzero _).walk hqb
  · intro q hq
    rw [hwalk hq]
    split
    · rename_i heq
      rw [heq]
      exact .inr ⟨List.prefix_refl _, hnone⟩
    · rcases h.same q hq with hold | ⟨hpre, hqn⟩
      · exact .inl hold
      · exact .inr ⟨hpre.trans (List.prefix_append p [i]), hqn⟩
  · intro b hb
    rw [grown_inUse hg, Bool.or_eq_false_iff] at hb
    rw [← h.data b hb.2]
    exact put_data (h.tree.node_ne hb.2 hp' h.here) (f.taken balloc) i _
  · intro q b hq hwhole hb
    rw [← h.frame q b hq hwhole hb]
    -- a data block is not the node whose entry is stored
    refine put_data (fun heq => ?_) (f.taken balloc) i _
    have hhere := h.here
    rw [heq] at hhere
    obtain rfl := h.tree.once p q _ hp' hq hhere (h.keeps.walk hb)
    exact hwhole i [] hp

/-- A block with an entry is hung in where blocks lie behind it: the file is never in order
    again. -/
theorem Between.spoilt (h : Between geo f₀ f p n) (hg : Grants geo balloc f.bitmaps) {j : Nat}
    (hp : Valid (p ++ [i] ++ [j])) (hzero : f.tree n i = 0)
    (hentry : word f.data (fresh balloc f.bitmaps 0) j ≠ 0)
    (hs : Supplies geo balloc is.length (balloc f.bitmaps).1)
    (hpath : Valid (p ++ [i] ++ is)) :
    let f' := (descend balloc (f.grown balloc n i) (some (fresh balloc f.bitmaps 0)) is).1
    ¬ (WellFormed geo f' ∧ ∀ b, Others geo f₀ b → Unused Valid f'.tree b) := by
  rintro f' ⟨hwf, hothers⟩
  have hpi : Valid (p ++ [i]) := valid_closed _ _ (List.prefix_append _ [j]) hp
  have hp' : Valid p := valid_closed _ _ (List.prefix_append p [i]) hpi
  have hkeep : Keeps f.tree (f.grown balloc n i).tree := by
    rw [grown_tree hg]
    exact Keeps.store hzero _
  have hnode := h.tree.node_ne hg.unused hp' h.here
  have hhere : walk (f.grown balloc n i).tree none (p ++ [i])
      = some (some (fresh balloc f.bitmaps 0)) := by
    rw [walk_snoc (hkeep.walk h.here), grown_tree hg, store_self, if_neg hg.ne_zero]
  -- the entry is there from now on
  have hj : (f.grown balloc n i).tree (some (fresh balloc f.bitmaps 0)) j
      = word f.data (fresh balloc f.bitmaps 0) j := by
    rw [grown_tree hg]
    exact store_of_ne _ _ fun heq => hnode (Prod.mk.inj heq).1.symm
  have hQ : walk (f.grown balloc n i).tree none (p ++ [i] ++ [j])
      = some (some (word f.data (fresh balloc f.bitmaps 0) j)) := by
    rw [walk_snoc hhere, hj, if_neg hentry]
  obtain ⟨hk, hu⟩ := descend_keeps (hs.grown n i) hhere
  have hQ' : walk f'.tree none (p ++ [i] ++ [j])
      = some (some (word f.data (fresh balloc f.bitmaps 0) j)) := hk.walk hQ
  -- so its block is reached by no other path
  have honly : ∀ q, Valid q → walk f'.tree none q
      = some (some (word f.data (fresh balloc f.bitmaps 0) j)) → q = p ++ [i] ++ [j] :=
    fun q hq hwalk => hwf.once q _ _ hq hp hwalk hQ'
  have hnotp : ∀ {q}, q <+: p ++ [i] → q ≠ p ++ [i] ++ [j] := by
    rintro q hq rfl
    exact snoc_prefix_absurd _ j hq
  rcases hu _ (hwf.used _ _ hp hQ') with hold | ⟨q, hq, hqb, hqn⟩
  · rw [grown_inUse hg, Bool.or_eq_true, decide_eq_true_eq] at hold
    rcases hold with hself | hold
    · refine hnotp (List.prefix_refl _) (honly (p ++ [i]) hpi ?_)
      rw [hself]
      exact hk.walk hhere
    · rcases h.news _ hold with hwas | ⟨q, hq, hqb, -⟩
      · -- in use before: somebody else's, or the file's own
        by_cases hmine : Unused Valid f₀.tree (word f.data (fresh balloc f.bitmaps 0) j)
        · exact hothers _ ⟨hwas, hmine⟩ _ hp hQ'
        · unfold Unused at hmine
          push Not at hmine
          obtain ⟨q, hq, hqb⟩ := hmine
          obtain rfl := honly q hq (hk.walk (hkeep.walk (h.keeps.walk hqb)))
          have hnone := walk_none_behind (h.missing hpi hzero) (List.prefix_append _ [j])
          rw [hnone] at hqb
          cases hqb
      · have hqv : Valid q := valid_closed _ _ hq hp'
        exact hnotp (hq.trans (List.prefix_append p [i]))
          (honly q hqv (hk.walk (hkeep.walk hqb)))
  · have hqv : Valid q := valid_closed _ _ hq hpath
    obtain rfl := honly q hqv hqb
    rw [hQ] at hqn
    cases hqn

/-! ## The whole descent -/

/-- An index block has room for other entries. -/
theorem valid_sibling {j : Nat} (h : Valid (p ++ [i])) (hne : p ≠ []) (hj : j < EXT2_IND_PER_BLK) :
    Valid (p ++ [j]) := by
  cases p with
  | nil => exact absurd rfl hne
  | cons slot p =>
    rcases h with ⟨hslot, hlen, hsmall⟩
    have hlen : (p ++ [i]).length ≤ depth slot := hlen
    rw [List.length_append, List.length_singleton] at hlen
    refine ⟨hslot, ?_, fun x hx => ?_⟩
    · show (p ++ [j]).length ≤ depth slot
      rw [List.length_append, List.length_singleton]
      exact hlen
    · rcases List.mem_append.mp hx with hx | hx
      · exact hsmall x (List.mem_append_left _ hx)
      · rw [List.mem_singleton.mp hx]
        exact hj

/-- There is room for entries on a path that goes on. -/
theorem valid_entry {j k : Nat} (h : Valid (p ++ [i] ++ k :: is)) (hj : j < EXT2_IND_PER_BLK) :
    Valid (p ++ [i] ++ [j]) := by
  have hpre : p ++ [i] ++ [k] <+: p ++ [i] ++ k :: is :=
    List.prefix_append_right_inj _ |>.mpr (List.prefix_append [k] is)
  exact valid_sibling (valid_closed _ _ hpre h)
    (List.append_ne_nil_of_right_ne_nil p (List.cons_ne_nil i [])) hj

theorem blankFrom_there (hne : f.tree n i ≠ 0) :
    BlankFrom balloc f n (i :: is) ↔ BlankFrom balloc f (some (f.tree n i)) is := by
  unfold BlankFrom
  rw [missing, if_neg hne]

/-- Behind a new block everything is missing, if it brings nothing with it. -/
theorem missing_new (hwf : WellFormed geo f) (hg : Grants geo balloc f.bitmaps) (hp : Valid p)
    (hn : walk f.tree none p = some n)
    (hfirst : ∀ j r, is = j :: r → BlankBlock f (fresh balloc f.bitmaps 0))
    (hsmall : ∀ j ∈ is, j < EXT2_IND_PER_BLK) :
    missing (f.grown balloc n i).tree (some (fresh balloc f.bitmaps 0)) is = is.length := by
  cases is with
  | nil => rfl
  | cons j r =>
    have hentry : (f.grown balloc n i).tree (some (fresh balloc f.bitmaps 0)) j = 0 := by
      rw [grown_tree hg, store_of_ne _ _ fun heq =>
        hwf.node_ne hg.fresh_unused hp hn (Prod.mk.inj heq).1.symm]
      exact hfirst j r rfl j (hsmall j List.mem_cons_self)
    rw [missing, if_pos hentry, List.length_cons]

/-- What the new blocks contain, when the first of them has just been hung in. -/
theorem blankFrom_new (hwf : WellFormed geo f) (hg : Grants geo balloc f.bitmaps)
    (hs : Supplies geo balloc is.length (balloc f.bitmaps).1) (hp : Valid p)
    (hn : walk f.tree none p = some n) (hzero : f.tree n i = 0)
    (hfirst : ∀ j r, is = j :: r → BlankBlock f (fresh balloc f.bitmaps 0))
    (hsmall : ∀ j ∈ is, j < EXT2_IND_PER_BLK) :
    BlankFrom balloc f n (i :: is) ↔
      BlankFrom balloc (f.grown balloc n i) (some (fresh balloc f.bitmaps 0)) is := by
  have hlater : ∀ k < is.length, BlankBlock (f.grown balloc n i) (fresh balloc (balloc f.bitmaps).1 k)
      ↔ BlankBlock f (fresh balloc f.bitmaps (k + 1)) := by
    intro k hk
    -- the later blocks are not in use yet, so nothing has been stored in them
    have hall : Supplies geo balloc (is.length + 1) f.bitmaps := ⟨hg, hs⟩
    have hfree := hall.fresh_unused (k := k + 1) (by omega)
    have hdata : (f.grown balloc n i).data (fresh balloc f.bitmaps (k + 1))
        = f.data (fresh balloc f.bitmaps (k + 1)) :=
      put_data (hwf.node_ne hfree hp hn) (f.taken balloc) i _
    unfold BlankBlock word
    show (∀ j < _, getLE ((f.grown balloc n i).data (fresh balloc f.bitmaps (k + 1))) _ _ = 0) ↔ _
    rw [hdata]
  unfold BlankFrom
  rw [missing, if_pos hzero, grown_bitmaps, missing_new hwf hg hp hn hfirst hsmall]
  constructor
  · intro h k hk
    exact (hlater k (by omega)).mpr (h (k + 1) (by omega))
  · intro h k hk
    cases k with
    | zero =>
      cases is with
      | nil => simp only [List.length_nil] at hk; omega
      | cons j r => exact hfirst j r rfl
    | succ k => exact (hlater k (by omega)).mp (h k (by omega))

/-- A path that is not empty ends at a block. -/
theorem walk_some_block {t : Tree} (h : walk t none p = some n) (hp : p ≠ []) :
    ∃ b, n = some b := by
  rcases List.eq_nil_or_concat p with rfl | ⟨q, i, rfl⟩
  · exact absurd rfl hp
  · rw [List.concat_eq_append, walk_append] at h
    obtain ⟨m, -, hlast⟩ := Option.bind_eq_some_iff.mp h
    rw [walk_cons] at hlast
    split at hlast
    · cases hlast
    · exact ⟨_, (Option.some.inj hlast).symm⟩

/-- The descent keeps the file in order exactly if the new index blocks are blank, and then it takes
    the missing blocks. -/
theorem Between.descend (h : Between geo f₀ f p n)
    (hs : Supplies geo balloc (EntryTree.missing f.tree n is) f.bitmaps) (hp : Valid (p ++ is))
    (hwhole : Whole (p ++ is)) (hne : p ++ is ≠ []) :
    let r := Bmap.descend balloc f n is
    (BlankFrom balloc f n is → Between geo f₀ r.1 (p ++ is) (some r.2) ∧
      r.1.bitmaps = later balloc (EntryTree.missing f.tree n is) f.bitmaps) ∧
      (¬ BlankFrom balloc f n is →
        ¬ (WellFormed geo r.1 ∧ ∀ b, Others geo f₀ b → Unused Valid r.1.tree b)) := by
  induction is generalizing f n p with
  | nil =>
    rw [List.append_nil] at hne ⊢
    obtain ⟨b, rfl⟩ := walk_some_block h.here hne
    exact ⟨fun _ => ⟨h, rfl⟩, fun hnot => absurd (fun k hk => nomatch hk) hnot⟩
  | cons i is ih =>
    have hassoc : p ++ i :: is = p ++ [i] ++ is := by rw [List.append_assoc]; rfl
    rw [hassoc] at hp hwhole hne ⊢
    have hpi : Valid (p ++ [i]) := valid_closed _ _ (List.prefix_append _ is) hp
    have hp' : Valid p := valid_closed _ _ (List.prefix_append p [i]) hpi
    by_cases hzero : f.tree n i = 0
    · rw [EntryTree.missing, if_pos hzero] at hs ⊢
      rcases hs with ⟨hg, hrest⟩
      rw [descend_new (walk_small h.here) hg hzero]
      by_cases hfirst : ∀ j r, is = j :: r → BlankBlock f (fresh balloc f.bitmaps 0)
      · -- the new block brings nothing with it
        have hsmall : ∀ j ∈ is, j < EXT2_IND_PER_BLK := by
          intro j hj
          cases p with
          | nil => exact hp.2.2 j hj
          | cons slot p => exact hp.2.2 j (List.mem_append_right (p ++ [i]) hj)
        have hblank : ∀ j r, Valid (p ++ [i] ++ j :: r) →
            word f.data (fresh balloc f.bitmaps 0) j = 0 := by
          intro j r hvalid
          cases is with
          | nil =>
            rw [List.append_nil] at hwhole
            exact absurd hvalid (hwhole j r)
          | cons k is =>
            refine hfirst k is rfl j ?_
            cases p with
            | nil => exact hvalid.2.2 j List.mem_cons_self
            | cons slot p =>
              exact hvalid.2.2 j (List.mem_append_right (p ++ [i]) List.mem_cons_self)
        rw [blankFrom_new h.tree hg hrest hp' h.here hzero hfirst hsmall]
        have hall : EntryTree.missing (f.grown balloc n i).tree (some (fresh balloc f.bitmaps 0)) is
            = is.length := missing_new h.tree hg hp' h.here hfirst hsmall
        have hgrown := h.grow hg hpi hzero hblank
        have hstep := ih hgrown (hall.symm ▸ hrest.grown n i) hp hwhole hne
        rw [hall, grown_bitmaps] at hstep
        exact hstep
      · -- the new block is to be an index block, and has an entry
        push Not at hfirst
        obtain ⟨k, r, rfl, hspoilt⟩ := hfirst
        unfold BlankBlock at hspoilt
        push Not at hspoilt
        obtain ⟨j, hj, hentry⟩ := hspoilt
        have hlost := h.spoilt hg (valid_entry hp hj) hzero hentry hrest hp
        refine ⟨fun hblank => ?_, fun _ => hlost⟩
        have hmissing : 0 + 1 < EntryTree.missing f.tree n (i :: k :: r) := by
          rw [EntryTree.missing, if_pos hzero, List.length_cons]
          omega
        exact absurd (hblank 0 hmissing j hj) hentry
    · rw [EntryTree.missing, if_neg hzero] at hs ⊢
      rw [descend_there (walk_small h.here) hzero, blankFrom_there hzero]
      exact ih (h.there hzero) hs hp hwhole hne

/-- A descent that has kept the order has done what `bmap` is to do. -/
theorem Between.maps {blkNo b : Nat} (h : Between geo f₀ f (path blkNo) (some b))
    (hn : blkNo < EXT2_TIND_LIMIT) : Maps geo f₀ blkNo f b where
  answer := by
    cases hwas : mapped f₀ blkNo with
    | some m =>
      have hstill : walk f.tree none (path blkNo) = some m := h.keeps.walk hwas
      rw [h.here] at hstill
      exact .inl hstill.symm
    | none =>
      refine .inr ⟨rfl, ?_⟩
      cases hused : inUse geo f₀.bitmaps b with
      | false => rfl
      | true =>
        have hvalid := path_valid hn
        by_cases hmine : Unused Valid f₀.tree b
        · exact absurd h.here (h.others b ⟨hused, hmine⟩ _ hvalid)
        · unfold Unused at hmine
          push Not at hmine
          obtain ⟨q, hq, hqb⟩ := hmine
          obtain rfl := h.tree.once q _ _ hq hvalid (h.keeps.walk hqb) h.here
          have hwas : walk f₀.tree none (path blkNo) = none := hwas
          rw [hqb] at hwas
          cases hwas
  there := h.here
  kept m hm hne := by
    rcases h.same (path m) (path_valid hm) with hold | ⟨hpre, -⟩
    · exact hold
    · exact absurd (path_prefix_eq hn hpre) hne
  tree := h.tree
  others := h.others

theorem path_ne_nil (blkNo : Nat) : path blkNo ≠ [] := by
  intro heq
  have hwhole := path_whole blkNo 0 []
  rw [heq] at hwhole
  exact hwhole ⟨by decide, Nat.zero_le _, fun i hi => nomatch hi⟩

/-- An entry left in a new index block. -/
theorem bmap_spoilt {blkNo : Nat} (hwf : WellFormed geo f) (hn : blkNo < EXT2_TIND_LIMIT)
    (hs : Supplies geo balloc (path blkNo).length f.bitmaps) (hnot : ¬ BlankIndex balloc f blkNo) :
    ∃ f' b, bmap balloc f blkNo = some (f', b) ∧ ¬ Maps geo f blkNo f' b := by
  have hdescend := (Between.refl hwf).descend (hs.mono (missing_le f.tree none (path blkNo)))
    (path_valid hn) (path_whole blkNo) (path_ne_nil blkNo)
  exact ⟨_, _, bmap_eq_descend hn, fun hmaps => hdescend.2 hnot ⟨hmaps.tree, hmaps.others⟩⟩

/-! ## With the allocator of the source -/

/-- `balloc` as `bmap` calls it, with the group of the inode. -/
def ballocFor (geo : Geometry) (grpNo : Nat) (bitmaps : Bitmaps) : Bitmaps × Int :=
  BlockBitmap.balloc geo bitmaps grpNo

/-- A call of `balloc` that stays in reach hands out a block that is not in use. -/
theorem InReach.grants {bitmaps : Bitmaps} {grpNo : Nat} (h : InReach geo bitmaps grpNo)
    (hspg : geo.sBlocksPerGroup = 8 * BLKSIZE) (hgrp : grpNo < geo.grpNum)
    (hdisk : geo.sBlocksPerGroup * geo.grpNum ≤ 2 ^ 32) (hroom : ∃ g < geo.grpNum, ¬ Full bitmaps g)
    (hboot : inUse geo bitmaps 0 = true) : Grants geo (ballocFor geo grpNo) bitmaps := by
  obtain ⟨g', hg', hopen⟩ := hroom
  unfold Full at hopen
  push Not at hopen
  obtain ⟨i', hi', hclear'⟩ := hopen
  obtain ⟨g, hg, i, hi, hclear, hnum, hbits, -⟩ := (h.allocates hspg hgrp).found
    ⟨g', hg', i', hspg ▸ hi', Bool.eq_false_iff.mpr hclear'⟩
  have hpos : 0 < geo.sBlocksPerGroup := by omega
  have hbits_of : ∀ b, (b / geo.sBlocksPerGroup = g ∧ b % geo.sBlocksPerGroup = i) ↔
      b = geo.sBlocksPerGroup * g + i := by
    intro b
    constructor
    · rintro ⟨rfl, rfl⟩
      exact (Nat.div_add_mod b _).symm
    · rintro rfl
      rw [Nat.mul_add_div hpos, Nat.div_eq_of_lt hi, Nat.add_zero, Nat.mul_add_mod,
        Nat.mod_eq_of_lt hi]
      exact ⟨rfl, rfl⟩
  have hfree : inUse geo bitmaps (geo.sBlocksPerGroup * g + i) = false := by
    obtain ⟨hdiv, hmod⟩ := (hbits_of _).mpr rfl
    rw [inUse, hdiv, hmod]
    exact hclear
  have hlast : geo.sBlocksPerGroup * g + i < geo.sBlocksPerGroup * geo.grpNum := by
    have hstep := Nat.mul_le_mul_left geo.sBlocksPerGroup (Nat.succ_le_of_lt hg)
    rw [Nat.mul_succ] at hstep
    omega
  refine ⟨?_, ?_, ?_, fun b => ?_⟩
  · show 0 < (BlockBitmap.balloc geo bitmaps grpNo).2
    rw [hnum]
    refine Int.natCast_pos.mpr (Nat.pos_of_ne_zero fun hzero => ?_)
    rw [hzero, hboot] at hfree
    cases hfree
  · show (BlockBitmap.balloc geo bitmaps grpNo).2 < 2 ^ 32
    rw [hnum]
    omega
  · show inUse geo bitmaps (BlockBitmap.balloc geo bitmaps grpNo).2.toNat = false
    rw [hnum, Int.toNat_natCast]
    exact hfree
  · show inUse geo (BlockBitmap.balloc geo bitmaps grpNo).1 b
      = (decide (b = (BlockBitmap.balloc geo bitmaps grpNo).2.toNat) || inUse geo bitmaps b)
    rw [inUse, hbits, hnum, Int.toNat_natCast]
    simp only [hbits_of]
    rfl

theorem bmap_maps {blkNo : Nat} (hwf : WellFormed geo f) (hn : blkNo < EXT2_TIND_LIMIT)
    (hs : Supplies geo balloc (path blkNo).length f.bitmaps) (hblank : BlankIndex balloc f blkNo) :
    ∃ f' b, bmap balloc f blkNo = some (f', b) ∧ Maps geo f blkNo f' b := by
  have hdescend := (Between.refl hwf).descend (hs.mono (missing_le f.tree none (path blkNo)))
    (path_valid hn) (path_whole blkNo) (path_ne_nil blkNo)
  exact ⟨_, _, bmap_eq_descend hn, (hdescend.1 hblank).1.maps hn⟩

/-- `bmap` returns, and it gives the file a block of its own without touching the others exactly if
    the blocks it makes index blocks have no entries. -/
theorem bmap_exact {blkNo : Nat} (hwf : WellFormed geo f) (hn : blkNo < EXT2_TIND_LIMIT)
    (hs : Supplies geo balloc (path blkNo).length f.bitmaps) :
    ∃ f' b, bmap balloc f blkNo = some (f', b) ∧
      (Maps geo f blkNo f' b ↔ BlankIndex balloc f blkNo) := by
  by_cases hblank : BlankIndex balloc f blkNo
  · obtain ⟨f', b, hrun, hmaps⟩ := bmap_maps hwf hn hs hblank
    exact ⟨f', b, hrun, fun _ => hblank, fun _ => hmaps⟩
  · obtain ⟨f', b, hrun, hnot⟩ := bmap_spoilt hwf hn hs hblank
    exact ⟨f', b, hrun, fun hmaps => absurd hmaps hnot, fun h => absurd h hblank⟩

/-- A file without blocks. -/
theorem wellFormed_empty (h : ∀ i, f.tree none i = 0) : WellFormed geo f := by
  have hnone : ∀ q m, walk f.tree none q = some m → q = [] := by
    intro q m hm
    cases q with
    | nil => rfl
    | cons i q =>
      rw [walk_cons, if_pos (h i)] at hm
      cases hm
  refine ⟨fun p q m _ _ hp hq => ?_, fun q b _ hq => ?_⟩
  · rw [hnone p m hp, hnone q m hq]
  · obtain rfl := hnone q _ hq
    cases hq

/-- One group of blocks, of which 0, 1 and 7 are in use. -/
def oneGroup : Geometry := ⟨8 * BLKSIZE, 1⟩

def fewUsed : Bitmaps := fun _ k => if k = 0 then 0x83 else 0

/-- An empty file, on a disk where block 2 has been left with these bytes. -/
def emptyFile (left : Bytes) : File where
  ino := ⟨fun _ => 0, 0⟩
  bitmaps := fewUsed
  data b := if b = 2 then left else fun _ => 0

theorem supplies_fewUsed : Supplies oneGroup (ballocFor oneGroup 0) 2 fewUsed := by
  have hgrants : ∀ bitmaps : Bitmaps, bit (bitmaps 0) 32760 = false → bit (bitmaps 0) 0 = true →
      Grants oneGroup (ballocFor oneGroup 0) bitmaps := by
    intro bitmaps hclear hboot
    have hopen : ¬ Full bitmaps 0 := not_full (by decide) hclear
    exact InReach.grants (.inr ⟨0, Nat.le_refl 0, by decide, hopen, .inl rfl⟩) rfl (by decide)
      (by decide) ⟨0, by decide, hopen⟩ hboot
  exact ⟨hgrants _ (by decide) (by decide), hgrants _ (by decide) (by decide), trivial⟩

theorem wellFormed_emptyFile (left : Bytes) : WellFormed oneGroup (emptyFile left) :=
  wellFormed_empty fun _ => rfl

theorem blankIndex_emptyFile (balloc : Bitmaps → Bitmaps × Int) (blkNo : Nat) :
    BlankIndex balloc (emptyFile fun _ => 0) blkNo := by
  intro k _ j _
  have hzero : ∀ b, (emptyFile fun _ => 0).data b = fun _ => 0 := fun b => by
    show (if b = 2 then _ else _) = _
    rw [ite_self]
  rw [word, hzero]
  exact getLE_zero _ _

/-- Block 12 of an empty file: block 2, which is blank, becomes the index block. -/
theorem bmap_exact_blank : ∃ f' b, bmap (ballocFor oneGroup 0) (emptyFile fun _ => 0) 12
    = some (f', b) ∧ Maps oneGroup (emptyFile fun _ => 0) 12 f' b := by
  have hn : 12 < EXT2_TIND_LIMIT := by decide
  obtain ⟨f', b, hrun, hmaps⟩ := bmap_exact (wellFormed_emptyFile _) hn supplies_fewUsed
  exact ⟨f', b, hrun, hmaps.mpr (blankIndex_emptyFile _ 12)⟩

theorem bmap_blankFile : ∃ f' b, bmap (ballocFor oneGroup 0) (emptyFile fun _ => 0) 12
    = some (f', b) ∧ Maps oneGroup (emptyFile fun _ => 0) 12 f' b :=
  bmap_maps (wellFormed_emptyFile _) (by decide) supplies_fewUsed (blankIndex_emptyFile _ 12)

/-- Block 2 has been left with the number 7 in its second entry. -/
def staleFile : File := emptyFile fun k => if k = 4 then 7 else 0

/-- Block 12 of an empty file: with the index block comes a block 13, which is somebody else's. -/
theorem bmap_stale_index : WellFormed oneGroup staleFile ∧
    Supplies oneGroup (ballocFor oneGroup 0) (path 12).length staleFile.bitmaps ∧
    ∃ f' b, bmap (ballocFor oneGroup 0) staleFile 12 = some (f', b) ∧
      ¬ Maps oneGroup staleFile 12 f' b := by
  have hwf := wellFormed_emptyFile fun k => if k = 4 then 7 else 0
  refine ⟨hwf, supplies_fewUsed, bmap_spoilt hwf (by decide) supplies_fewUsed fun hblank => ?_⟩
  have hentry := hblank 0 (by decide) 1 (by decide)
  exact absurd hentry (by decide)

end Uniks.Bmap
