/-
  Cells that lie end to end.

  `place size a cs` gives each cell of a list its address: the first lies at `a`, and each begins
  where the one before it ends.  Cells at different places do not overlap (`place_pairwise`), and
  a placed cell splits the list into what lies in front of it and what lies behind it
  (`mem_place_iff`).
-/
import Mathlib.Data.List.Basic

namespace Uniks.Tiles

variable {β : Type} {size : β → Nat} {a x y : Nat} {c d : β} {cs ds : List β}

/-- How much room the cells take. -/
def width (size : β → Nat) : List β → Nat
  | [] => 0
  | c :: cs => size c + width size cs

/-- The cells with their addresses. -/
def place (size : β → Nat) : Nat → List β → List (Nat × β)
  | _, [] => []
  | a, c :: cs => (a, c) :: place size (a + size c) cs

@[simp] theorem width_nil : width size [] = 0 := rfl

@[simp] theorem width_cons (size : β → Nat) (c : β) (cs : List β) :
    width size (c :: cs) = size c + width size cs := rfl

@[simp] theorem width_append (size : β → Nat) (cs ds : List β) :
    width size (cs ++ ds) = width size cs + width size ds := by
  induction cs with
  | nil => exact (Nat.zero_add _).symm
  | cons c cs ih => rw [List.cons_append, width_cons, width_cons, ih, Nat.add_assoc]

theorem place_append (size : β → Nat) (a : Nat) (cs ds : List β) :
    place size a (cs ++ ds) = place size a cs ++ place size (a + width size cs) ds := by
  induction cs generalizing a with
  | nil => rfl
  | cons c cs ih =>
    show (a, c) :: place size (a + size c) (cs ++ ds) = _
    rw [ih, width_cons, Nat.add_assoc]
    rfl

/-- A placed cell, what lies in front of it and what lies behind it. -/
theorem mem_place_iff : (x, c) ∈ place size a cs ↔
    ∃ pre post, cs = pre ++ c :: post ∧ x = a + width size pre := by
  constructor
  · intro h
    induction cs generalizing a with
    | nil => cases h
    | cons d cs ih =>
      rcases List.mem_cons.mp h with heq | h
      · cases heq
        exact ⟨[], cs, rfl, rfl⟩
      · obtain ⟨pre, post, rfl, rfl⟩ := ih h
        exact ⟨d :: pre, post, rfl, by rw [width_cons, Nat.add_assoc]⟩
  · rintro ⟨pre, post, rfl, rfl⟩
    rw [place_append]
    exact List.mem_append_right _ List.mem_cons_self

/-- Where a placed cell may lie. -/
theorem place_bounds (h : (x, c) ∈ place size a cs) :
    a ≤ x ∧ x + size c ≤ a + width size cs := by
  obtain ⟨pre, post, rfl, rfl⟩ := mem_place_iff.mp h
  rw [width_append, width_cons]
  omega

/-- Each cell ends before the later ones begin. -/
theorem place_pairwise (size : β → Nat) (a : Nat) (cs : List β) :
    (place size a cs).Pairwise fun p q => p.1 + size p.2 ≤ q.1 := by
  induction cs generalizing a with
  | nil => exact List.Pairwise.nil
  | cons c cs ih =>
    refine List.pairwise_cons.mpr ⟨?_, ih _⟩
    rintro ⟨y, d⟩ hd
    exact (place_bounds hd).1

/-- Two placed cells are one, or one ends before the other begins. -/
theorem place_apart (hx : (x, c) ∈ place size a cs) (hy : (y, d) ∈ place size a cs) :
    (x, c) = (y, d) ∨ x + size c ≤ y ∨ y + size d ≤ x := by
  obtain ⟨pre, post, hsplit, rfl⟩ := mem_place_iff.mp hy
  rw [hsplit, place_append] at hx
  rcases List.mem_append.mp hx with hfront | hrest
  · exact .inr (.inl (place_bounds hfront).2)
  · rcases List.mem_cons.mp hrest with heq | hbehind
    · exact .inl heq
    · exact .inr (.inr (place_bounds hbehind).1)

end Uniks.Tiles
