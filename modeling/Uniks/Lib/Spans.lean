/-
  Insertion into a list of spans, with a check on the way.

  A span runs from `lo` to `hi`, which it does not contain.  The new one goes in front of the first
  that begins at its end or behind it, and each span passed is asked to end before the new one
  begins (`Clear`).  Spans are not required to be proper, and a list with one that ends before it
  begins hides others from the check: what lies behind the first span that is far enough is never
  looked at.  As long as they are proper the check finds every overlap, and the lists in which all
  insertions pass are those that are pairwise apart (`clashfree_iff`).
-/
import Mathlib.Data.List.Perm.Basic
import Mathlib.Order.Basic
import Mathlib.Order.Defs.LinearOrder
import Mathlib.Order.Lattice

namespace Uniks.Spans

variable {α β : Type} [LinearOrder α] (lo hi : β → α)

def Proper (v : β) : Prop := lo v ≤ hi v

def Apart (a b : β) : Prop := hi a ≤ lo b ∨ hi b ≤ lo a

/-- What the insertion of `new` asks of the spans it passes. -/
def Clear (new : β) : List β → Prop
  | [] => True
  | v :: rest => hi new ≤ lo v ∨ hi v ≤ lo new ∧ Clear new rest

/-- Where `new` goes. -/
def place (new : β) : List β → List β
  | [] => [new]
  | v :: rest => if hi new ≤ lo v then new :: v :: rest else v :: place new rest

/-- One span after the other is inserted. -/
def placeAll (placed news : List β) : List β := news.foldl (fun r new => place lo hi new r) placed

/-- Every insertion passes. -/
def Clashfree : List β → List β → Prop
  | _, [] => True
  | placed, new :: rest => Clear lo hi new placed ∧ Clashfree (place lo hi new placed) rest

/-- Each span ends before the next begins. -/
def Ordered (l : List β) : Prop := l.Pairwise fun a b => hi a ≤ lo b

variable {lo hi} {new v : β} {l placed news more : List β}

theorem Apart.symm {a b : β} (h : Apart lo hi a b) : Apart lo hi b a := Or.symm h

instance decidableApart (a b : β) : Decidable (Apart lo hi a b) :=
  inferInstanceAs (Decidable (hi a ≤ lo b ∨ hi b ≤ lo a))

instance decidableClear (new : β) : (l : List β) → Decidable (Clear lo hi new l)
  | [] => .isTrue trivial
  | v :: rest =>
    have := decidableClear new rest
    inferInstanceAs (Decidable (hi new ≤ lo v ∨ hi v ≤ lo new ∧ Clear lo hi new rest))

instance decidableClashfree : (placed l : List β) → Decidable (Clashfree lo hi placed l)
  | _, [] => .isTrue trivial
  | placed, new :: rest =>
    have := decidableClashfree (place lo hi new placed) rest
    inferInstanceAs (Decidable (_ ∧ _))

theorem place_perm (new : β) (l : List β) : (place lo hi new l).Perm (new :: l) := by
  induction l with
  | nil => exact List.Perm.refl _
  | cons v rest ih =>
    rw [place]
    split
    · exact List.Perm.refl _
    · exact (ih.cons v).trans (List.Perm.swap new v rest)

theorem placeAll_cons (placed news : List β) :
    placeAll lo hi placed (new :: news) = placeAll lo hi (place lo hi new placed) news := rfl

theorem placeAll_append (placed news more : List β) :
    placeAll lo hi placed (news ++ more) = placeAll lo hi (placeAll lo hi placed news) more :=
  List.foldl_append

theorem placeAll_perm (placed news : List β) :
    (placeAll lo hi placed news).Perm (news ++ placed) := by
  induction news generalizing placed with
  | nil => exact List.Perm.refl _
  | cons new news ih =>
    have hmiddle : (news ++ new :: placed).Perm (new :: news ++ placed) := List.perm_middle
    exact (ih _).trans (((place_perm new placed).append_left news).trans hmiddle)

theorem clashfree_append :
    Clashfree lo hi placed (news ++ more) ↔
      Clashfree lo hi placed news ∧ Clashfree lo hi (placeAll lo hi placed news) more := by
  induction news generalizing placed with
  | nil =>
    constructor
    · intro h
      exact ⟨trivial, h⟩
    · intro h
      exact h.2
  | cons new news ih =>
    rw [List.cons_append, Clashfree, Clashfree, placeAll_cons, ih, and_assoc]

/-! ## Spans that are proper -/

/-- The check passes where nothing overlaps. -/
theorem clear_of_apart (h : ∀ v ∈ l, Apart lo hi new v) : Clear lo hi new l := by
  induction l with
  | nil => trivial
  | cons v rest ih =>
    rcases h v List.mem_cons_self with hbefore | hbehind
    · exact .inl hbefore
    · exact .inr ⟨hbehind, ih fun w hw => h w (List.mem_cons_of_mem v hw)⟩

/-- The check finds every overlap. -/
theorem Clear.apart (h : Clear lo hi new l) (hord : Ordered lo hi l)
    (hproper : ∀ v ∈ l, Proper lo hi v) : ∀ v ∈ l, Apart lo hi new v := by
  induction l with
  | nil => exact nofun
  | cons v rest ih =>
    have hpair := List.pairwise_cons.mp hord
    intro w hw
    rcases h with hbefore | ⟨hbehind, hrest⟩
    · rcases List.mem_cons.mp hw with rfl | hw
      · exact .inl hbefore
      · -- behind the first span that is far enough they are farther
        have hv : lo v ≤ hi v := hproper v List.mem_cons_self
        exact .inl (hbefore.trans (hv.trans (hpair.1 w hw)))
    · rcases List.mem_cons.mp hw with rfl | hw
      · exact .inr hbehind
      · exact ih hrest hpair.2 (fun u hu => hproper u (List.mem_cons_of_mem v hu)) w hw

theorem place_ordered (hclear : Clear lo hi new l) (hord : Ordered lo hi l)
    (hproper : ∀ v ∈ l, Proper lo hi v) : Ordered lo hi (place lo hi new l) := by
  induction l with
  | nil => exact List.pairwise_singleton _ _
  | cons v rest ih =>
    have hpair := List.pairwise_cons.mp hord
    have hrest : ∀ u ∈ rest, Proper lo hi u := fun u hu => hproper u (List.mem_cons_of_mem v hu)
    rw [place]
    split
    case isTrue hbefore =>
      refine List.pairwise_cons.mpr ⟨fun w hw => ?_, hord⟩
      rcases List.mem_cons.mp hw with rfl | hw
      · exact hbefore
      · have hv : lo v ≤ hi v := hproper v List.mem_cons_self
        exact hbefore.trans (hv.trans (hpair.1 w hw))
    case isFalse hnot =>
      rcases hclear with hbefore | ⟨hbehind, hclear⟩
      · exact absurd hbefore hnot
      · refine List.pairwise_cons.mpr ⟨fun w hw => ?_, ih hclear hpair.2 hrest⟩
        rcases List.mem_cons.mp ((place_perm new rest).mem_iff.mp hw) with rfl | hw
        · exact hbehind
        · exact hpair.1 w hw

theorem placeAll_ordered (hclash : Clashfree lo hi placed news) (hord : Ordered lo hi placed)
    (hplaced : ∀ v ∈ placed, Proper lo hi v) (hnews : ∀ v ∈ news, Proper lo hi v) :
    Ordered lo hi (placeAll lo hi placed news) := by
  induction news generalizing placed with
  | nil => exact hord
  | cons new news ih =>
    rw [placeAll_cons]
    refine ih hclash.2 (place_ordered hclash.1 hord hplaced) (fun v hv => ?_) fun v hv => ?_
    · rcases List.mem_cons.mp ((place_perm new placed).mem_iff.mp hv) with rfl | hv
      · exact hnews v List.mem_cons_self
      · exact hplaced v hv
    · exact hnews v (List.mem_cons_of_mem new hv)

/-- Among proper spans the insertions pass if and only if no two overlap. -/
theorem clashfree_iff (hord : Ordered lo hi placed) (hplaced : ∀ v ∈ placed, Proper lo hi v)
    (hnews : ∀ v ∈ news, Proper lo hi v) :
    Clashfree lo hi placed news ↔
      news.Pairwise (Apart lo hi) ∧ ∀ new ∈ news, ∀ v ∈ placed, Apart lo hi new v := by
  induction news generalizing placed with
  | nil => exact ⟨fun _ => ⟨List.Pairwise.nil, nofun⟩, fun _ => trivial⟩
  | cons new news ih =>
    have hnew := hnews new List.mem_cons_self
    have hrest : ∀ v ∈ news, Proper lo hi v := fun v hv => hnews v (List.mem_cons_of_mem new hv)
    have hmem : ∀ v, v ∈ place lo hi new placed ↔ v = new ∨ v ∈ placed := by
      intro v
      rw [(place_perm new placed).mem_iff, List.mem_cons]
    have hplaced' : ∀ v ∈ place lo hi new placed, Proper lo hi v := by
      intro v hv
      rcases (hmem v).mp hv with rfl | hv
      · exact hnew
      · exact hplaced v hv
    rw [Clashfree]
    constructor
    · rintro ⟨hclear, hclash⟩
      have hlater := (ih (place_ordered hclear hord hplaced) hplaced' hrest).mp hclash
      refine ⟨List.pairwise_cons.mpr ⟨fun v hv => ?_, hlater.1⟩, fun w hw v hv => ?_⟩
      · exact (hlater.2 v hv new ((hmem new).mpr (.inl rfl))).symm
      · rcases List.mem_cons.mp hw with rfl | hw
        · exact hclear.apart hord hplaced v hv
        · exact hlater.2 w hw v ((hmem v).mpr (.inr hv))
    · rintro ⟨hpair, happart⟩
      have hpair := List.pairwise_cons.mp hpair
      have hclear : Clear lo hi new placed := clear_of_apart (happart new List.mem_cons_self)
      refine ⟨hclear, (ih (place_ordered hclear hord hplaced) hplaced' hrest).mpr ⟨hpair.2, ?_⟩⟩
      intro w hw v hv
      rcases (hmem v).mp hv with rfl | hv
      · exact (hpair.1 w hw).symm
      · exact happart w (List.mem_cons_of_mem new hw) v hv

end Uniks.Spans
