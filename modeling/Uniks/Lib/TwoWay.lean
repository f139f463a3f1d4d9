/-
  Rings that are linked both ways.

  `Circle next prev a xs`: from `a` the links `next` lead through `xs` back to `a`, and the links
  `prev` lead back from each to the one before it.  A circle can be entered at each of its members
  (`Circle.rotate`); a new member behind `a` (`Circle.insert`) and the member behind `a` taken out
  (`Circle.remove`) change four and two links, and what is stored elsewhere does not matter
  (`Circle.congr`).  Everything that is done to a circle is one of these at the right entrance.
-/
import Mathlib.Data.List.Chain
import Mathlib.Logic.Function.Basic

namespace Uniks.TwoWay

open Function (update update_self update_of_ne)

variable {α : Type} {next next' prev prev' : α → α} {a e p x y : α} {xs ys l : List α}

/-- The links of each member lead to the one after it, and those of that one back. -/
def Linked (next prev : α → α) (l : List α) : Prop := l.IsChain fun x y => next x = y ∧ prev y = x

def Circle (next prev : α → α) (a : α) (xs : List α) : Prop := Linked next prev (a :: xs ++ [a])

theorem linked_cons_cons :
    Linked next prev (x :: y :: l) ↔ (next x = y ∧ prev y = x) ∧ Linked next prev (y :: l) :=
  List.isChain_cons_cons

theorem linked_split : Linked next prev (xs ++ y :: ys) ↔
    Linked next prev (xs ++ [y]) ∧ Linked next prev (y :: ys) :=
  List.isChain_split

/-- The link `next` of the last member and the link `prev` of the first are not looked at. -/
theorem Linked.congr (h : Linked next prev l) (hnext : ∀ x ∈ l.dropLast, next' x = next x)
    (hprev : ∀ x ∈ l.tail, prev' x = prev x) : Linked next' prev' l := by
  induction l with
  | nil => exact List.IsChain.nil
  | cons x l ih =>
    cases l with
    | nil => exact List.IsChain.singleton x
    | cons y l =>
      rw [List.dropLast_cons_cons] at hnext
      obtain ⟨⟨hxy, hyx⟩, hl⟩ := linked_cons_cons.mp h
      refine linked_cons_cons.mpr ⟨⟨?_, ?_⟩, ih hl (fun z hz => ?_) fun z hz => ?_⟩
      · exact (hnext x List.mem_cons_self).trans hxy
      · exact (hprev y List.mem_cons_self).trans hyx
      · exact hnext z (List.mem_cons_of_mem x hz)
      · exact hprev z (List.mem_cons_of_mem y hz)

theorem Circle.congr (h : Circle next prev a xs) (hnext : ∀ x ∈ a :: xs, next' x = next x)
    (hprev : ∀ x ∈ a :: xs, prev' x = prev x) : Circle next' prev' a xs := by
  refine Linked.congr h (fun x hx => hnext x ?_) fun x hx => hprev x ?_
  · rwa [List.dropLast_concat] at hx
  · have hmem : x ∈ xs ++ [a] := hx
    rcases List.mem_append.mp hmem with hin | hlast
    · exact List.mem_cons_of_mem a hin
    · rw [List.mem_singleton.mp hlast]
      exact List.mem_cons_self

/-- A circle entered at another of its members. -/
theorem Circle.rotate (h : Circle next prev a (xs ++ y :: ys)) :
    Circle next prev y (ys ++ a :: xs) := by
  have hcons : a :: (xs ++ y :: ys) ++ [a] = (a :: xs) ++ y :: (ys ++ [a]) := by simp
  have hgoal : y :: (ys ++ a :: xs) ++ [y] = (y :: ys) ++ a :: (xs ++ [y]) := by simp
  rw [Circle, hcons, linked_split] at h
  rw [Circle, hgoal, linked_split]
  exact ⟨h.2, h.1⟩

theorem Circle.next_eq (h : Circle next prev a xs) : next a = xs.headD a := by
  cases xs with
  | nil => exact (linked_cons_cons.mp h).1.1
  | cons x xs => exact (linked_cons_cons.mp h).1.1

/-- The link back of the member behind `a`. -/
theorem Circle.prev_next (h : Circle next prev a xs) : prev (next a) = a := by
  rw [h.next_eq]
  cases xs with
  | nil => exact (linked_cons_cons.mp h).1.2
  | cons x xs => exact (linked_cons_cons.mp h).1.2

theorem Circle.prev_eq (h : Circle next prev a xs) : prev a = xs.getLastD a := by
  cases hxs : xs.reverse with
  | nil =>
    rw [List.reverse_eq_nil_iff] at hxs
    subst hxs
    exact (linked_cons_cons.mp h).1.2
  | cons y ys =>
    have heq : xs = ys.reverse ++ [y] := by
      rw [← List.reverse_reverse xs, hxs, List.reverse_cons]
    subst heq
    have hrotate : Circle next prev y ([] ++ a :: ys.reverse) := h.rotate
    rw [List.getLastD_concat]
    exact (linked_cons_cons.mp hrotate).1.2

/-- The links of a circle stay in it. -/
theorem Circle.next_mem (h : Circle next prev a xs) : next a ∈ a :: xs := by
  rw [h.next_eq]
  cases xs with
  | nil => exact List.mem_cons_self
  | cons x xs => exact List.mem_cons_of_mem a List.mem_cons_self

theorem Circle.prev_mem (h : Circle next prev a xs) : prev a ∈ a :: xs := by
  rw [h.prev_eq]
  cases hxs : xs.reverse with
  | nil =>
    rw [List.reverse_eq_nil_iff] at hxs
    rw [hxs]
    exact List.mem_cons_self
  | cons y ys =>
    have heq : xs = ys.reverse ++ [y] := by
      rw [← List.reverse_reverse xs, hxs, List.reverse_cons]
    rw [heq, List.getLastD_concat]
    exact List.mem_cons_of_mem a (List.mem_append_right _ List.mem_cons_self)

variable [DecidableEq α]

/-- A node behind `a`. -/
theorem Circle.insert (h : Circle next prev a xs) (hnodup : (a :: xs).Nodup) (hout : e ∉ a :: xs) :
    Circle (update (update next a e) e (next a))
      (update (update prev (next a) e) e a) a (e :: xs) := by
  have hea : e ≠ a := fun heq => hout (heq ▸ List.mem_cons_self)
  have hne : ∀ x ∈ a :: xs, x ≠ e := fun x hx heq => hout (heq ▸ hx)
  obtain ⟨z, zs, hz⟩ : ∃ z zs, xs ++ [a] = z :: zs :=
    List.exists_cons_of_ne_nil (List.append_ne_nil_of_right_ne_nil xs (List.cons_ne_nil a []))
  have hlist : Linked next prev (a :: z :: zs) := by
    rw [← hz]
    exact h
  obtain ⟨⟨haz, hza⟩, hrest⟩ := linked_cons_cons.mp hlist
  have hzmem : ∀ x ∈ z :: zs, x ∈ a :: xs := by
    intro x hx
    rw [← hz] at hx
    exact (List.perm_append_singleton a xs).subset hx
  have hznodup : (z :: zs).Nodup := by
    rw [← hz]
    exact (List.perm_append_singleton a xs).nodup_iff.mpr hnodup
  show Linked _ _ (a :: e :: (xs ++ [a]))
  rw [hz, haz]
  refine linked_cons_cons.mpr ⟨⟨?_, ?_⟩, linked_cons_cons.mpr ⟨⟨?_, ?_⟩, hrest.congr ?_ ?_⟩⟩
  · rw [update_of_ne hea.symm, update_self]
  · rw [update_self]
  · rw [update_self]
  · rw [update_of_ne (hne z (hzmem z List.mem_cons_self)), update_self]
  · intro x hx
    have hin : x ∈ xs := by
      rwa [← hz, List.dropLast_concat] at hx
    have hxa : x ≠ a := fun heq => (List.nodup_cons.mp hnodup).1 (heq ▸ hin)
    rw [update_of_ne (hne x (List.mem_cons_of_mem a hin)), update_of_ne hxa]
  · intro x hx
    have hin : x ∈ zs := hx
    have hxz : x ≠ z := fun heq => (List.nodup_cons.mp hznodup).1 (heq ▸ hin)
    rw [update_of_ne (hne x (hzmem x (List.mem_cons_of_mem z hin))),
      update_of_ne hxz]

/-- The node behind `a` is taken out. -/
theorem Circle.remove (h : Circle next prev a (e :: xs)) (hnodup : (a :: e :: xs).Nodup) :
    Circle (update next a (next e)) (update prev (next e) a) a xs := by
  obtain ⟨z, zs, hz⟩ : ∃ z zs, xs ++ [a] = z :: zs :=
    List.exists_cons_of_ne_nil (List.append_ne_nil_of_right_ne_nil xs (List.cons_ne_nil a []))
  have hlist : Linked next prev (a :: e :: z :: zs) := by
    rw [← hz]
    exact h
  obtain ⟨hae, hout⟩ := linked_cons_cons.mp hlist
  obtain ⟨⟨hez, hze⟩, hrest⟩ := linked_cons_cons.mp hout
  have hperm : (z :: zs).Perm (a :: xs) := by
    rw [← hz]
    exact List.perm_append_singleton a xs
  have hsub : (a :: xs).Nodup :=
    hnodup.sublist (List.Sublist.cons_cons a (List.sublist_cons_self e xs))
  have hznodup : (z :: zs).Nodup := hperm.nodup_iff.mpr hsub
  show Linked _ _ (a :: (xs ++ [a]))
  rw [hz, hez]
  refine linked_cons_cons.mpr ⟨⟨?_, ?_⟩, hrest.congr ?_ ?_⟩
  · rw [update_self]
  · rw [update_self]
  · intro x hx
    have hin : x ∈ xs := by
      rwa [← hz, List.dropLast_concat] at hx
    have hxa : x ≠ a := fun heq => (List.nodup_cons.mp hsub).1 (heq ▸ hin)
    rw [update_of_ne hxa]
  · intro x hx
    have hin : x ∈ zs := hx
    have hxz : x ≠ z := fun heq => (List.nodup_cons.mp hznodup).1 (heq ▸ hin)
    rw [update_of_ne hxz]

end Uniks.TwoWay
