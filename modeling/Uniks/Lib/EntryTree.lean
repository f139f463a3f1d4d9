/-
  Trees of numbered blocks.

  `t n i` is the number of the block that entry `i` of node `n` refers to, 0 for none.  The node
  `none` is the root, which is no block; `some b` is block `b`.  A path lists the entries taken from
  the root on.  Some paths are valid, and a tree is in order when no two valid paths lead to the
  same node (`Once`): then storing an entry changes what lies behind it and nothing else, although
  nothing but the block numbers holds the tree together.

  `Once.grow` hangs an empty block into an empty entry, `Once.prune` cuts an entry off.
-/
import Mathlib.Logic.Function.Basic
import Mathlib.Data.List.Infix

namespace Uniks.EntryTree

abbrev Node := Option Nat

/-- The entries of every node. -/
abbrev Tree := Node → Nat → Nat

/-- The node that a path leads to from a node. -/
def walk (t : Tree) : Node → List Nat → Option Node
  | n, [] => some n
  | n, i :: is => if t n i = 0 then none else walk t (some (t n i)) is

/-- One entry is stored. -/
def store (t : Tree) (n : Node) (i c : Nat) : Tree :=
  Function.update t n (Function.update (t n) i c)

variable {t t' : Tree} {n m : Node} {i j c : Nat} {p q : List Nat} {valid : List Nat → Prop}

@[simp] theorem walk_nil (t : Tree) (n : Node) : walk t n [] = some n := rfl

theorem walk_cons (t : Tree) (n : Node) (i : Nat) (is : List Nat) :
    walk t n (i :: is) = if t n i = 0 then none else walk t (some (t n i)) is := rfl

theorem store_self (t : Tree) (n : Node) (i c : Nat) : store t n i c n i = c := by
  unfold store
  rw [Function.update_self, Function.update_self]

theorem store_of_ne (t : Tree) (c : Nat) (h : (m, j) ≠ (n, i)) : store t n i c m j = t m j := by
  unfold store
  by_cases hm : m = n
  · subst hm
    have hj : j ≠ i := fun heq => h (by rw [heq])
    rw [Function.update_self, Function.update_of_ne hj]
  · rw [Function.update_of_ne hm]

/-- A path of two parts is walked in two parts. -/
theorem walk_append (t : Tree) (n : Node) (p q : List Nat) :
    walk t n (p ++ q) = (walk t n p).bind fun m => walk t m q := by
  induction p generalizing n with
  | nil => rfl
  | cons i p ih =>
    rw [List.cons_append, walk_cons, walk_cons]
    split
    · rfl
    · exact ih _

theorem walk_snoc (h : walk t n p = some m) (i : Nat) :
    walk t n (p ++ [i]) = if t m i = 0 then none else some (some (t m i)) := by
  rw [walk_append, h]
  rfl

/-- The part of a path that comes first leads somewhere if the whole does. -/
theorem walk_prefix_some (h : walk t n q = some m) (hp : p <+: q) : ∃ l, walk t n p = some l := by
  obtain ⟨r, rfl⟩ := hp
  rw [walk_append] at h
  obtain ⟨l, hl, -⟩ := Option.bind_eq_some_iff.mp h
  exact ⟨l, hl⟩

/-- Nothing lies behind what is not there. -/
theorem walk_none_behind (h : walk t n p = none) (hp : p <+: q) : walk t n q = none := by
  cases hq : walk t n q with
  | none => rfl
  | some m =>
    obtain ⟨l, hl⟩ := walk_prefix_some hq hp
    rw [h] at hl
    cases hl

/-- Only the entries that are passed matter. -/
theorem walk_congr (h : ∀ q₁ j q₂, q = q₁ ++ j :: q₂ → ∀ m, walk t n q₁ = some m →
    t' m j = t m j) : walk t' n q = walk t n q := by
  induction q generalizing n with
  | nil => rfl
  | cons i q ih =>
    have hfirst := h [] i q rfl n rfl
    rw [walk_cons, walk_cons, hfirst]
    split
    · rfl
    · rename_i hne
      refine ih fun q₁ j q₂ heq m hm => h (i :: q₁) j q₂ (by rw [heq]; rfl) m ?_
      rw [walk_cons, if_neg hne]
      exact hm

/-- A path that leads to a block does so by an entry. -/
theorem walk_block {b : Nat} (h : walk t none q = some (some b)) :
    ∃ p i m, q = p ++ [i] ∧ walk t none p = some m ∧ t m i = b ∧ b ≠ 0 := by
  rcases List.eq_nil_or_concat q with rfl | ⟨p, i, rfl⟩
  · cases h
  · rw [List.concat_eq_append, walk_append] at h
    obtain ⟨m, hm, hlast⟩ := Option.bind_eq_some_iff.mp h
    rw [walk_cons] at hlast
    split at hlast
    · cases hlast
    · rename_i hne
      have hb := Option.some.inj (Option.some.inj hlast)
      exact ⟨p, i, m, List.concat_eq_append, hm, hb, hb ▸ hne⟩

/-- A block that is referred to has a number. -/
theorem walk_ne_zero {b : Nat} (h : walk t none q = some (some b)) : b ≠ 0 := by
  obtain ⟨-, -, -, -, -, -, hb⟩ := walk_block h
  exact hb

/-! ## Trees in order -/

/-- No node is reached by two valid paths. -/
def Once (valid : List Nat → Prop) (t : Tree) : Prop :=
  ∀ p q n, valid p → valid q → walk t none p = some n → walk t none q = some n → p = q

/-- What a valid path passes is valid. -/
def Closed (valid : List Nat → Prop) : Prop := ∀ p q, p <+: q → valid q → valid p

/-- An entry is passed by the paths that contain it, and by no others. -/
theorem Once.walk_store (h : Once valid t) (hclosed : Closed valid) (hp : valid p)
    (hn : walk t none p = some n) (c : Nat) (hq : valid q) (hoff : ¬ (p ++ [i]) <+: q) :
    walk (store t n i c) none q = walk t none q := by
  refine walk_congr fun q₁ j q₂ heq m hm => store_of_ne t c fun hsame => ?_
  obtain ⟨rfl, rfl⟩ := Prod.mk.inj hsame
  have hq₁ : valid q₁ := hclosed q₁ q ⟨j :: q₂, heq.symm⟩ hq
  obtain rfl := h p q₁ m hp hq₁ hn hm
  exact hoff ⟨q₂, by rw [heq, List.append_assoc]; rfl⟩

theorem snoc_prefix_absurd (p : List Nat) (i : Nat) : ¬ (p ++ [i]) <+: p := by
  intro hpre
  have hlen := hpre.length_le
  rw [List.length_append, List.length_singleton] at hlen
  omega

/-- The node whose entry is stored stays where it is. -/
theorem Once.walk_store_self (h : Once valid t) (hclosed : Closed valid) (hp : valid p)
    (hn : walk t none p = some n) (i c : Nat) : walk (store t n i c) none p = some n := by
  rw [h.walk_store hclosed hp hn c hp (snoc_prefix_absurd p i), hn]

/-- Behind the entry lies what it refers to now. -/
theorem Once.walk_store_behind (h : Once valid t) (hclosed : Closed valid) (hp : valid p)
    (hn : walk t none p = some n) (i c : Nat) (r : List Nat) :
    walk (store t n i c) none (p ++ [i] ++ r)
      = if c = 0 then none else walk (store t n i c) (some c) r := by
  have hself := h.walk_store_self hclosed hp hn i c
  rw [walk_append, walk_snoc hself, store_self]
  split <;> rfl

/-! ### An entry is cut off -/

theorem Once.walk_prune (h : Once valid t) (hclosed : Closed valid) (hp : valid p)
    (hn : walk t none p = some n) (hq : valid q) (i : Nat) [Decidable ((p ++ [i]) <+: q)] :
    walk (store t n i 0) none q = if (p ++ [i]) <+: q then none else walk t none q := by
  split
  · rename_i hon
    obtain ⟨r, rfl⟩ := hon
    rw [h.walk_store_behind hclosed hp hn, if_pos rfl]
  · rename_i hoff
    exact h.walk_store hclosed hp hn 0 hq hoff

/-- What is left was there before. -/
theorem Once.walk_of_prune (h : Once valid t) (hclosed : Closed valid) (hp : valid p)
    (hn : walk t none p = some n) (hq : valid q) (hm : walk (store t n i 0) none q = some m) :
    walk t none q = some m ∧ ¬ (p ++ [i]) <+: q := by
  have hdec : Decidable ((p ++ [i]) <+: q) := Classical.propDecidable _
  rw [h.walk_prune hclosed hp hn hq i] at hm
  split at hm
  · cases hm
  · rename_i hoff
    exact ⟨hm, hoff⟩

theorem Once.prune (h : Once valid t) (hclosed : Closed valid) (hp : valid p)
    (hn : walk t none p = some n) (i : Nat) : Once valid (store t n i 0) := by
  intro q r m hq hr hqm hrm
  exact h q r m hq hr (h.walk_of_prune hclosed hp hn hq hqm).1
    (h.walk_of_prune hclosed hp hn hr hrm).1

/-! ### A block is hung in -/

/-- A block that no valid path leads to. -/
def Unused (valid : List Nat → Prop) (t : Tree) (b : Nat) : Prop :=
  ∀ q, valid q → walk t none q ≠ some (some b)

theorem Once.walk_grow (h : Once valid t) (hclosed : Closed valid) (hp : valid p)
    (hn : walk t none p = some n) (hempty : t n i = 0) (hc : c ≠ 0) (hunused : Unused valid t c)
    (hblank : ∀ j r, valid (p ++ [i] ++ j :: r) → t (some c) j = 0) (hq : valid q)
    [Decidable (q = p ++ [i])] :
    walk (store t n i c) none q = if q = p ++ [i] then some (some c) else walk t none q := by
  split
  · rename_i heq
    rw [heq, walk_snoc (h.walk_store_self hclosed hp hn i c), store_self, if_neg hc]
  · rename_i hne
    have hdec : Decidable ((p ++ [i]) <+: q) := Classical.propDecidable _
    by_cases hon : (p ++ [i]) <+: q
    · -- behind the new block there is nothing, as before
      obtain ⟨r, rfl⟩ := hon
      have hnone : walk t none (p ++ [i]) = none := by rw [walk_snoc hn, if_pos hempty]
      rw [walk_none_behind hnone ⟨r, rfl⟩, h.walk_store_behind hclosed hp hn, if_neg hc]
      cases r with
      | nil => exact absurd (List.append_nil _) hne
      | cons j r =>
        have hother : (some c, j) ≠ (n, i) := by
          intro hsame
          cases hsame
          exact hunused p hp hn
        rw [walk_cons, store_of_ne t c hother, if_pos (hblank j r hq)]
    · exact h.walk_store hclosed hp hn c hq hon

theorem Once.grow (h : Once valid t) (hclosed : Closed valid) (hp : valid p)
    (hn : walk t none p = some n) (hempty : t n i = 0) (hc : c ≠ 0) (hunused : Unused valid t c)
    (hblank : ∀ j r, valid (p ++ [i] ++ j :: r) → t (some c) j = 0) :
    Once valid (store t n i c) := by
  have hdec : ∀ q, Decidable (q = p ++ [i]) := fun q => Classical.propDecidable _
  have hwalk := fun {q : List Nat} (hq : valid q) =>
    h.walk_grow hclosed hp hn hempty hc hunused hblank hq
  intro q r m hq hr hqm hrm
  rw [hwalk hq] at hqm
  rw [hwalk hr] at hrm
  by_cases hq' : q = p ++ [i]
  · rw [if_pos hq'] at hqm
    by_cases hr' : r = p ++ [i]
    · rw [hq', hr']
    · rw [if_neg hr', ← hqm] at hrm
      exact absurd hrm (hunused r hr)
  · rw [if_neg hq'] at hqm
    by_cases hr' : r = p ++ [i]
    · rw [if_pos hr'] at hrm
      rw [← hrm] at hqm
      exact absurd hqm (hunused q hq)
    · rw [if_neg hr'] at hrm
      exact h q r m hq hr hqm hrm

/-! ## What is missing on a path -/

/-- How many entries of the path are not there: all from the first empty one on. -/
def missing (t : Tree) : Node → List Nat → Nat
  | _, [] => 0
  | n, i :: is => if t n i = 0 then is.length + 1 else missing t (some (t n i)) is

theorem missing_le (t : Tree) (n : Node) (q : List Nat) : missing t n q ≤ q.length := by
  induction q generalizing n with
  | nil => exact Nat.le_refl 0
  | cons i q ih =>
    rw [missing, List.length_cons]
    split
    · exact Nat.le_refl _
    · exact Nat.le_succ_of_le (ih _)

/-! ## Trees that only grow -/

/-- Every entry that is there stays. -/
def Keeps (t t' : Tree) : Prop := ∀ n i, t n i ≠ 0 → t' n i = t n i

theorem Keeps.refl (t : Tree) : Keeps t t := fun _ _ _ => rfl

theorem Keeps.trans {t'' : Tree} (h : Keeps t t') (h' : Keeps t' t'') : Keeps t t'' := by
  intro n i hne
  have hfirst := h n i hne
  rw [h' n i (by rw [hfirst]; exact hne), hfirst]

theorem Keeps.store (hempty : t n i = 0) (c : Nat) : Keeps t (store t n i c) := by
  intro m j hne
  refine store_of_ne t c fun hsame => ?_
  cases hsame
  exact hne hempty

/-- What was found is found. -/
theorem Keeps.walk (h : Keeps t t') (hm : walk t n q = some m) : EntryTree.walk t' n q = some m := by
  induction q generalizing n with
  | nil => exact hm
  | cons i q ih =>
    rw [walk_cons] at hm ⊢
    split at hm
    · cases hm
    · rename_i hne
      rw [h n i hne, if_neg hne]
      exact ih hm

end Uniks.EntryTree
