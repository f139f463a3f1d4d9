/-
  Lists and rings of links.

  `Linked next l`: the link of each member of `l` leads to the one after it.  A ring is a list
  that leads back to where it began; it can be entered at each of its members (`Ring.enter`), and
  a search that follows its links finds what there is to find (`find_ring`).  What is stored
  elsewhere does not matter (`Linked.congr`), so that a stretch of a ring can be exchanged on its
  own (`Ring.splice`).
-/
import Mathlib.Data.List.Chain

namespace Uniks.Rings

variable {α : Type} {next next' : α → α} {a x y : α} {xs ys l : List α}

/-- The link of each member leads to the next member. -/
def Linked (next : α → α) (l : List α) : Prop := l.IsChain fun x y => next x = y

/-- From `a` the links lead through `xs` back to `a`. -/
def Ring (next : α → α) (a : α) (xs : List α) : Prop := Linked next (a :: xs ++ [a])

theorem linked_cons_cons : Linked next (x :: y :: l) ↔ next x = y ∧ Linked next (y :: l) :=
  List.isChain_cons_cons

theorem linked_split :
    Linked next (xs ++ y :: ys) ↔ Linked next (xs ++ [y]) ∧ Linked next (y :: ys) :=
  List.isChain_split

/-- The link of the last member is not looked at. -/
theorem Linked.congr (h : Linked next l) (heq : ∀ x ∈ l.dropLast, next' x = next x) :
    Linked next' l := by
  induction l with
  | nil => exact List.IsChain.nil
  | cons x l ih =>
    cases l with
    | nil => exact List.IsChain.singleton x
    | cons y l =>
      rw [List.dropLast_cons_cons] at heq
      obtain ⟨hxy, hl⟩ := linked_cons_cons.mp h
      refine linked_cons_cons.mpr ⟨(heq x List.mem_cons_self).trans hxy, ih hl fun z hz => ?_⟩
      exact heq z (List.mem_cons_of_mem x hz)

theorem Ring.congr (h : Ring next a xs) (heq : ∀ x ∈ a :: xs, next' x = next x) :
    Ring next' a xs := by
  refine Linked.congr h fun x hx => heq x ?_
  rwa [List.dropLast_concat] at hx

/-- A ring entered at another of its members. -/
theorem Ring.rotate (h : Ring next a (xs ++ y :: ys)) : Ring next y (ys ++ a :: xs) := by
  have hcons : a :: (xs ++ y :: ys) ++ [a] = (a :: xs) ++ y :: (ys ++ [a]) := by simp
  have hgoal : y :: (ys ++ a :: xs) ++ [y] = (y :: ys) ++ a :: (xs ++ [y]) := by simp
  rw [Ring, hcons, linked_split] at h
  rw [Ring, hgoal, linked_split]
  exact ⟨h.2, h.1⟩

/-- A ring entered at any member, and its members. -/
theorem Ring.enter (h : Ring next a xs) (hy : y ∈ a :: xs) :
    ∃ ys, Ring next y ys ∧ (y :: ys).Perm (a :: xs) := by
  rcases List.mem_cons.mp hy with rfl | hy
  · exact ⟨xs, h, List.Perm.refl _⟩
  · obtain ⟨pre, post, rfl⟩ := List.append_of_mem hy
    refine ⟨post ++ a :: pre, h.rotate, ?_⟩
    rw [← List.cons_append, ← List.cons_append]
    exact List.perm_append_comm

/-- The link of a member that is followed by `ys`. -/
theorem Ring.next_eq (h : Ring next a xs) (pre : List α) (hsplit : a :: xs = pre ++ x :: ys) :
    next x = ys.headD a := by
  have hlist : a :: xs ++ [a] = pre ++ x :: (ys ++ [a]) := by rw [hsplit]; simp
  rw [Ring, hlist, linked_split] at h
  cases ys with
  | nil => exact (linked_cons_cons.mp h.2).1
  | cons y ys => exact (linked_cons_cons.mp h.2).1

/-! ## Exchanging a stretch -/

variable {before pre mid mid' post : List α} {p : α}

/-- The members between `p` and `post` are exchanged; only the links of `p` and of these change. -/
theorem Ring.splice (h : Ring next a (pre ++ mid ++ post)) (hlast : a :: pre = before ++ [p])
    (hmid : Linked next' (p :: mid' ++ [post.headD a]))
    (hpre : ∀ x ∈ before, next' x = next x) (hpost : ∀ x ∈ post, next' x = next x) :
    Ring next' a (pre ++ mid' ++ post) := by
  have hparts : ∀ m : List α,
      a :: (pre ++ m ++ post) ++ [a] = before ++ p :: (m ++ (post ++ [a])) := by
    intro m
    rw [← List.cons_append, ← List.cons_append, hlast]
    simp
  obtain ⟨z, zs, hz, hhead⟩ : ∃ z zs, post ++ [a] = z :: zs ∧ post.headD a = z := by
    cases post with
    | nil => exact ⟨a, [], rfl, rfl⟩
    | cons z post => exact ⟨z, post ++ [a], rfl, rfl⟩
  -- the ring, taken apart behind `pre` and in front of `post`
  rw [Ring, hparts, linked_split] at h
  obtain ⟨hbefore, hrest⟩ := h
  rw [hz, ← List.cons_append, linked_split] at hrest
  rw [hhead] at hmid
  have hbefore' : Linked next' (before ++ [p]) := by
    refine hbefore.congr fun x hx => hpre x ?_
    rwa [List.dropLast_concat] at hx
  have hpost' : Linked next' (z :: zs) := by
    refine hrest.2.congr fun x hx => hpost x ?_
    rwa [← hz, List.dropLast_concat] at hx
  rw [Ring, hparts, linked_split]
  refine ⟨hbefore', ?_⟩
  rw [hz, ← List.cons_append, linked_split]
  exact ⟨hmid, hpost'⟩

/-! ## Searching -/

/-- Follow the links to the first that meets the test. -/
def find (next : α → α) (test : α → Prop) [DecidablePred test] : Nat → α → Option α
  | 0, _ => none
  | k + 1, a => if test a then some a else find next test k (next a)

variable {test : α → Prop} [DecidablePred test] {k : Nat}

theorem find_linked (h : Linked next (a :: xs)) (hex : ∃ x ∈ a :: xs, test x)
    (hk : xs.length < k) : ∃ x ∈ a :: xs, find next test k a = some x ∧ test x := by
  induction xs generalizing a k with
  | nil =>
    obtain ⟨k, rfl⟩ := Nat.exists_eq_succ_of_ne_zero (Nat.ne_zero_of_lt hk)
    obtain ⟨x, hx, htest⟩ := hex
    rw [List.mem_singleton] at hx
    subst hx
    exact ⟨x, List.mem_cons_self, if_pos htest, htest⟩
  | cons x xs ih =>
    obtain ⟨k, rfl⟩ := Nat.exists_eq_succ_of_ne_zero (Nat.ne_zero_of_lt hk)
    by_cases htest : test a
    · exact ⟨a, List.mem_cons_self, if_pos htest, htest⟩
    · obtain ⟨hax, hl⟩ := linked_cons_cons.mp h
      have hrest : ∃ y ∈ x :: xs, test y := by
        obtain ⟨y, hy, hty⟩ := hex
        rcases List.mem_cons.mp hy with rfl | hy
        · exact absurd hty htest
        · exact ⟨y, hy, hty⟩
      obtain ⟨y, hy, hfind, hty⟩ := ih hl hrest (Nat.lt_of_succ_lt_succ hk)
      refine ⟨y, List.mem_cons_of_mem a hy, ?_, hty⟩
      rw [find, if_neg htest, hax]
      exact hfind

/-- A search round a ring, from any of its members. -/
theorem find_ring (h : Ring next a xs) (hy : y ∈ a :: xs) (hex : ∃ x ∈ a :: xs, test x)
    (hk : xs.length < k) : ∃ x ∈ a :: xs, find next test k y = some x ∧ test x := by
  obtain ⟨ys, hys, hperm⟩ := h.enter hy
  have hlen : ys.length < k := by
    have heq := hperm.length_eq
    rw [List.length_cons, List.length_cons, Nat.succ_inj] at heq
    rwa [heq]
  have hlinked : Linked next (y :: ys) := List.IsChain.left_of_append hys
  obtain ⟨x, hx, htest⟩ := hex
  obtain ⟨z, hz, hfind, hztest⟩ := find_linked hlinked ⟨x, hperm.symm.subset hx, htest⟩ hlen
  exact ⟨z, hperm.subset hz, hfind, hztest⟩

end Uniks.Rings
