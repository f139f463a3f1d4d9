/-
  A forest kept twice: as a parent field in every node, and as a list of children in every node.

  `Linked t` says that the two agree: the list of `p` holds exactly once every node whose parent
  field is `p`, and nothing else.  A node may leave the table while others point to it only if it
  has no children (`Linked.remove`), and a node moves between two lists in one step
  (`Linked.adopt`).
-/
import Mathlib.Data.List.Basic
import Mathlib.Logic.Function.Basic

namespace Uniks.ChildLists

open Function (update update_self update_of_ne)
open Option (some)

variable {ι : Type} [DecidableEq ι]

/-- A node: who its parent is, and its own children, the latest first. -/
structure Node (ι : Type) where
  parent : ι
  children : List ι

/-- The node `c` is there and names `p` as its parent. -/
def ChildOf (t : ι → Option (Node ι)) (p c : ι) : Prop := ∃ n, t c = some n ∧ n.parent = p

/-- Every list of children holds exactly the nodes that name its owner, each once. -/
structure Linked (t : ι → Option (Node ι)) : Prop where
  once : ∀ p n c, t p = some n → ChildOf t p c → n.children.count c = 1
  only : ∀ p n c, t p = some n → ¬ ChildOf t p c → n.children.count c = 0

variable {t : ι → Option (Node ι)} {p c q g : ι} {cs qs : List ι}

theorem Linked.mem_iff (h : Linked t) {n : Node ι} (hp : t p = some n) :
    c ∈ n.children ↔ ChildOf t p c := by
  constructor
  · intro hmem
    by_contra hnot
    have hzero := h.only p n c hp hnot
    exact List.count_eq_zero.mp hzero hmem
  · intro hchild
    have hone := h.once p n c hp hchild
    exact List.count_pos_iff.mp (by omega)

/-- The first child on a list names its owner, and is on the list no second time. -/
theorem Linked.head (h : Linked t) (hp : t p = some ⟨g, c :: cs⟩) :
    ChildOf t p c ∧ cs.count c = 0 := by
  have hchild := (h.mem_iff hp).mp List.mem_cons_self
  have hone := h.once p _ c hp hchild
  rw [List.count_cons_self] at hone
  exact ⟨hchild, by omega⟩

/-- `Linked` from one statement for each pair, decided by the parent field. -/
theorem Linked.of_count
    (h : ∀ p n c, t p = some n →
      (ChildOf t p c ∧ n.children.count c = 1) ∨ (¬ ChildOf t p c ∧ n.children.count c = 0)) :
    Linked t := by
  refine ⟨fun p n c hp hchild => ?_, fun p n c hp hnot => ?_⟩
  · rcases h p n c hp with ⟨-, hone⟩ | ⟨hnot, -⟩
    · exact hone
    · exact absurd hchild hnot
  · rcases h p n c hp with ⟨hchild, -⟩ | ⟨-, hzero⟩
    · exact absurd hchild hnot
    · exact hzero

theorem Linked.count_cases (h : Linked t) {n : Node ι} (hp : t p = some n) (c : ι) :
    (ChildOf t p c ∧ n.children.count c = 1) ∨ (¬ ChildOf t p c ∧ n.children.count c = 0) := by
  by_cases hchild : ChildOf t p c
  · exact .inl ⟨hchild, h.once p n c hp hchild⟩
  · exact .inr ⟨hchild, h.only p n c hp hchild⟩

/-- A new node without children is put under `p`. -/
theorem Linked.spawn (h : Linked t) (hp : t p = some ⟨g, cs⟩) (hc : t c = none)
    (hnochild : ∀ x, ¬ ChildOf t c x) :
    Linked (update (update t c (some ⟨p, []⟩)) p (some ⟨g, c :: cs⟩)) := by
  have hne : c ≠ p := by
    rintro rfl
    rw [hp] at hc
    cases hc
  have hchild : ∀ q x, ChildOf (update (update t c (some ⟨p, []⟩)) p
      (some ⟨g, c :: cs⟩)) q x ↔ (x = c ∧ q = p) ∨ (x ≠ c ∧ ChildOf t q x) := by
    intro q x
    unfold ChildOf
    by_cases hxp : x = p
    · subst hxp
      rw [update_self, hp]
      constructor
      · rintro ⟨n, hn, hq⟩
        cases hn
        exact .inr ⟨Ne.symm hne, _, rfl, hq⟩
      · rintro (⟨rfl, -⟩ | ⟨-, n, hn, hq⟩)
        · exact absurd rfl hne
        · cases hn
          exact ⟨_, rfl, hq⟩
    · rw [update_of_ne hxp]
      by_cases hxc : x = c
      · subst hxc
        rw [update_self]
        constructor
        · rintro ⟨n, hn, hq⟩
          cases hn
          exact .inl ⟨rfl, hq.symm⟩
        · rintro (⟨-, rfl⟩ | ⟨hself, -⟩)
          · exact ⟨_, rfl, rfl⟩
          · exact absurd rfl hself
      · rw [update_of_ne hxc]
        constructor
        · intro hx
          exact .inr ⟨hxc, hx⟩
        · rintro (⟨rfl, -⟩ | ⟨-, hx⟩)
          · exact absurd rfl hxc
          · exact hx
  refine Linked.of_count fun q n x hq => ?_
  rw [hchild q x]
  by_cases hqp : q = p
  · subst hqp
    rw [update_self] at hq
    cases hq
    by_cases hxc : x = c
    · subst hxc
      have hzero : cs.count x = 0 := h.only q _ x hp fun ⟨n, hn, _⟩ => by
        rw [hc] at hn
        cases hn
      exact .inl ⟨.inl ⟨rfl, rfl⟩, by rw [List.count_cons_self, hzero]⟩
    · rw [List.count_cons_of_ne (Ne.symm hxc)]
      rcases h.count_cases hp x with ⟨hx, hone⟩ | ⟨hx, hzero⟩
      · exact .inl ⟨.inr ⟨hxc, hx⟩, hone⟩
      · refine .inr ⟨?_, hzero⟩
        rintro (⟨rfl, -⟩ | ⟨-, hx'⟩)
        · exact hxc rfl
        · exact hx hx'
  · rw [update_of_ne hqp] at hq
    by_cases hqc : q = c
    · subst hqc
      rw [update_self] at hq
      cases hq
      refine .inr ⟨?_, List.count_nil⟩
      rintro (⟨-, hqp'⟩ | ⟨-, hx⟩)
      · exact hqp hqp'
      · exact hnochild x hx
    · rw [update_of_ne hqc] at hq
      by_cases hxc : x = c
      · subst hxc
        have hnot : ¬ ChildOf t q x := fun ⟨n, hn, _⟩ => by
          rw [hc] at hn
          cases hn
        refine .inr ⟨?_, h.only q n x hq hnot⟩
        rintro (⟨-, hqp'⟩ | ⟨hself, -⟩)
        · exact hqp hqp'
        · exact hself rfl
      · rcases h.count_cases hq x with ⟨hx, hone⟩ | ⟨hx, hzero⟩
        · exact .inl ⟨.inr ⟨hxc, hx⟩, hone⟩
        · refine .inr ⟨?_, hzero⟩
          rintro (⟨rfl, -⟩ | ⟨-, hx'⟩)
          · exact hxc rfl
          · exact hx hx'

/-- The first child of `p` moves to `q`. -/
theorem Linked.adopt (h : Linked t) {gq gc : ι} {ccs : List ι} (hp : t p = some ⟨g, c :: cs⟩)
    (hq : t q = some ⟨gq, qs⟩) (hc : t c = some ⟨gc, ccs⟩) (hpq : p ≠ q) (hcp : c ≠ p)
    (hcq : c ≠ q) :
    Linked (update (update (update t p (some ⟨g, cs⟩)) q
      (some ⟨gq, c :: qs⟩)) c (some ⟨q, ccs⟩)) := by
  obtain ⟨⟨n, hn, hgc⟩, hcs⟩ := h.head hp
  cases hc.symm.trans hn
  simp only at hgc
  subst hgc
  have hchild : ∀ r x, ChildOf (update (update (update t gc
      (some ⟨g, cs⟩)) q (some ⟨gq, c :: qs⟩)) c (some ⟨q, ccs⟩)) r x
      ↔ (x = c ∧ r = q) ∨ (x ≠ c ∧ ChildOf t r x) := by
    intro r x
    unfold ChildOf
    by_cases hxc : x = c
    · subst hxc
      rw [update_self]
      constructor
      · rintro ⟨n, hn, hr⟩
        cases hn
        exact .inl ⟨rfl, hr.symm⟩
      · rintro (⟨-, rfl⟩ | ⟨hself, -⟩)
        · exact ⟨_, rfl, rfl⟩
        · exact absurd rfl hself
    · rw [update_of_ne hxc]
      have hsame : (∃ n, update (update t gc (some ⟨g, cs⟩)) q
          (some ⟨gq, c :: qs⟩) x = some n ∧ n.parent = r) ↔ ∃ n, t x = some n ∧ n.parent = r := by
        by_cases hxq : x = q
        · subst hxq
          rw [update_self, hq]
          constructor
          · rintro ⟨n, hn, hr⟩
            cases hn
            exact ⟨_, rfl, hr⟩
          · rintro ⟨n, hn, hr⟩
            cases hn
            exact ⟨_, rfl, hr⟩
        · rw [update_of_ne hxq]
          by_cases hxp : x = gc
          · subst hxp
            rw [update_self, hp]
            constructor
            · rintro ⟨n, hn, hr⟩
              cases hn
              exact ⟨_, rfl, hr⟩
            · rintro ⟨n, hn, hr⟩
              cases hn
              exact ⟨_, rfl, hr⟩
          · rw [update_of_ne hxp]
      rw [hsame]
      constructor
      · intro hx
        exact .inr ⟨hxc, hx⟩
      · rintro (⟨rfl, -⟩ | ⟨-, hx⟩)
        · exact absurd rfl hxc
        · exact hx
  have hparent : ChildOf t gc c := ⟨_, hc, rfl⟩
  -- what the lists of the nodes other than the two say about a node other than `c`
  have hother : ∀ (r : ι) (n : Node ι) (x : ι), t r = some n → x ≠ c → ∀ l : List ι,
      l.count x = n.children.count x →
      (((x = c ∧ r = q) ∨ (x ≠ c ∧ ChildOf t r x)) ∧ l.count x = 1) ∨
        (¬ ((x = c ∧ r = q) ∨ (x ≠ c ∧ ChildOf t r x)) ∧ l.count x = 0) := by
    intro r n x hr hxc l hl
    rw [hl]
    rcases h.count_cases hr x with ⟨hx, hone⟩ | ⟨hx, hzero⟩
    · exact .inl ⟨.inr ⟨hxc, hx⟩, hone⟩
    · refine .inr ⟨?_, hzero⟩
      rintro (⟨rfl, -⟩ | ⟨-, hx'⟩)
      · exact hxc rfl
      · exact hx hx'
  -- and about `c` itself: only its old parent listed it
  have hmoved : ∀ (r : ι) (n : Node ι), t r = some n → r ≠ gc → n.children.count c = 0 := by
    intro r n hr hrp
    refine h.only r n c hr ?_
    rintro ⟨m, hm, hmr⟩
    cases hc.symm.trans hm
    exact hrp hmr.symm
  refine Linked.of_count fun r n x hr => ?_
  rw [hchild r x]
  by_cases hrc : r = c
  · subst hrc
    rw [update_self] at hr
    cases hr
    by_cases hxc : x = r
    · subst hxc
      have hzero := hmoved x _ hc hcp
      refine .inr ⟨?_, hzero⟩
      rintro (⟨-, hxq⟩ | ⟨hself, -⟩)
      · exact hcq hxq
      · exact hself rfl
    · exact hother r _ x hc hxc ccs rfl
  · rw [update_of_ne hrc] at hr
    by_cases hrq : r = q
    · subst hrq
      rw [update_self] at hr
      cases hr
      by_cases hxc : x = c
      · subst hxc
        have hzero := hmoved r _ hq (Ne.symm hpq)
        simp only at hzero
        exact .inl ⟨.inl ⟨rfl, rfl⟩, by rw [List.count_cons_self, hzero]⟩
      · exact hother r _ x hq hxc _ (List.count_cons_of_ne (Ne.symm hxc))
    · rw [update_of_ne hrq] at hr
      by_cases hrp : r = gc
      · subst hrp
        rw [update_self] at hr
        cases hr
        by_cases hxc : x = c
        · subst hxc
          refine .inr ⟨?_, hcs⟩
          rintro (⟨-, hxq⟩ | ⟨hself, -⟩)
          · exact hrq hxq
          · exact hself rfl
        · exact hother r _ x hp hxc cs (List.count_cons_of_ne (Ne.symm hxc)).symm
      · rw [update_of_ne hrp] at hr
        by_cases hxc : x = c
        · subst hxc
          refine .inr ⟨?_, hmoved r n hr hrp⟩
          rintro (⟨-, hxq⟩ | ⟨hself, -⟩)
          · exact hrq hxq
          · exact hself rfl
        · exact hother r n x hr hxc n.children rfl

/-- A node without children is taken off its parent's list and out of the table. -/
theorem Linked.remove (h : Linked t) {gc : ι} {ccs : List ι} (hp : t p = some ⟨g, cs⟩)
    (hc : t c = some ⟨gc, ccs⟩) (hchildc : ChildOf t p c) (hcp : c ≠ p) :
    Linked (update (update t p (some ⟨g, cs.erase c⟩)) c none) := by
  have hchild : ∀ r x, ChildOf (update (update t p (some ⟨g, cs.erase c⟩)) c none)
      r x ↔ x ≠ c ∧ ChildOf t r x := by
    intro r x
    unfold ChildOf
    by_cases hxc : x = c
    · subst hxc
      rw [update_self]
      constructor
      · rintro ⟨n, hn, -⟩
        cases hn
      · rintro ⟨hself, -⟩
        exact absurd rfl hself
    · rw [update_of_ne hxc]
      by_cases hxp : x = p
      · subst hxp
        rw [update_self, hp]
        constructor
        · rintro ⟨n, hn, hr⟩
          cases hn
          exact ⟨hxc, _, rfl, hr⟩
        · rintro ⟨-, n, hn, hr⟩
          cases hn
          exact ⟨_, rfl, hr⟩
      · rw [update_of_ne hxp]
        constructor
        · intro hx
          exact ⟨hxc, hx⟩
        · exact fun hx => hx.2
  refine Linked.of_count fun r n x hr => ?_
  rw [hchild r x]
  have hrc : r ≠ c := by
    rintro rfl
    rw [update_self] at hr
    cases hr
  rw [update_of_ne hrc] at hr
  by_cases hrp : r = p
  · subst hrp
    rw [update_self] at hr
    cases hr
    by_cases hxc : x = c
    · subst hxc
      have hone : cs.count x = 1 := h.once r _ x hp hchildc
      refine .inr ⟨fun hx => hx.1 rfl, ?_⟩
      rw [List.count_erase_self, hone]
    · rw [List.count_erase_of_ne hxc]
      rcases h.count_cases hp x with ⟨hx, hone⟩ | ⟨hx, hzero⟩
      · exact .inl ⟨⟨hxc, hx⟩, hone⟩
      · exact .inr ⟨fun hx' => hx hx'.2, hzero⟩
  · rw [update_of_ne hrp] at hr
    by_cases hxc : x = c
    · subst hxc
      refine .inr ⟨fun hx => hx.1 rfl, h.only r n x hr ?_⟩
      rintro ⟨m, hm, hmr⟩
      obtain ⟨m', hm', hmp⟩ := hchildc
      cases hm.symm.trans hm'
      exact hrp (hmr.symm.trans hmp)
    · rcases h.count_cases hr x with ⟨hx, hone⟩ | ⟨hx, hzero⟩
      · exact .inl ⟨⟨hxc, hx⟩, hone⟩
      · exact .inr ⟨fun hx' => hx hx'.2, hzero⟩

end Uniks.ChildLists
