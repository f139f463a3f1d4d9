/-
  Binary heaps kept in the slots `1 .. n` of an array, slot `i / 2` above slot `i`.

  A program that restores the order goes up or down along one path.  While it is on its way the
  order fails at one slot only: `UpOrdered a n r` says where it may fail for a climb from `r`,
  `DownOrdered a n r` for a descent.  Both ask that the slots under `r` are not below the slot over
  `r`, so that an exchange at `r` cannot break what it leaves behind.  `contents` is what the slots
  hold, as a multiset: an exchange keeps it, and so it is all a caller needs besides the order.
-/
import Mathlib.Data.Multiset.MapFold
import Mathlib.Data.Multiset.Sort
import Mathlib.Order.Interval.Finset.Nat
import Mathlib.Logic.Equiv.Basic

namespace Uniks.Heap

open Function (update update_self update_of_ne update_eq_self)

variable {α : Type}

/-- Two slots exchanged. -/
def swap (a : Nat → α) (i j : Nat) : Nat → α := fun k => a (Equiv.swap i j k)

@[simp] theorem swap_left (a : Nat → α) (i j : Nat) : swap a i j i = a j := by
  simp [swap]

@[simp] theorem swap_right (a : Nat → α) (i j : Nat) : swap a i j j = a i := by
  simp [swap]

theorem swap_of_ne (a : Nat → α) {i j k : Nat} (hi : k ≠ i) (hj : k ≠ j) :
    swap a i j k = a k := by
  simp [swap, Equiv.swap_apply_of_ne_of_ne hi hj]

/-! ## What the slots hold -/

def contents (a : Nat → α) (n : Nat) : Multiset α := (Finset.Icc 1 n).val.map a

@[simp] theorem contents_zero (a : Nat → α) : contents a 0 = 0 := by
  simp [contents]

@[simp] theorem card_contents (a : Nat → α) (n : Nat) : (contents a n).card = n := by
  simp [contents]

theorem mem_contents {a : Nat → α} {n : Nat} {x : α} :
    x ∈ contents a n ↔ ∃ i, 1 ≤ i ∧ i ≤ n ∧ a i = x := by
  simp only [contents, Multiset.mem_map, Finset.mem_val, Finset.mem_Icc, and_assoc]

theorem contents_congr {a b : Nat → α} {n : Nat} (h : ∀ i, 1 ≤ i → i ≤ n → a i = b i) :
    contents a n = contents b n := by
  apply Multiset.map_congr rfl
  intro i hi
  rw [Finset.mem_val, Finset.mem_Icc] at hi
  exact h i hi.1 hi.2

theorem contents_succ (a : Nat → α) (n : Nat) :
    contents a (n + 1) = a (n + 1) ::ₘ contents a n := by
  have hsplit : Finset.Icc 1 (n + 1) = insert (n + 1) (Finset.Icc 1 n) := by
    ext i
    simp only [Finset.mem_insert, Finset.mem_Icc]
    omega
  have hnew : n + 1 ∉ Finset.Icc 1 n := by
    rw [Finset.mem_Icc]
    omega
  rw [contents, hsplit, Finset.insert_val_of_notMem hnew, Multiset.map_cons]
  rfl

/-- A new element behind the last slot. -/
theorem contents_push (a : Nat → α) (n : Nat) (x : α) :
    contents (update a (n + 1) x) (n + 1) = x ::ₘ contents a n := by
  rw [contents_succ, update_self]
  congr 1
  apply contents_congr
  intro i _ hi
  exact update_of_ne (by omega) _ _

theorem contents_swap (a : Nat → α) {i j n : Nat} (hi : 1 ≤ i ∧ i ≤ n) (hj : 1 ≤ j ∧ j ≤ n) :
    contents (swap a i j) n = contents a n := by
  have hperm : (Finset.Icc 1 n).map (Equiv.swap i j).toEmbedding = Finset.Icc 1 n := by
    apply Finset.eq_of_subset_of_card_le
    · intro k hk
      rw [Finset.mem_map_equiv, Equiv.symm_swap, Finset.mem_Icc, Equiv.swap_apply_def] at hk
      rw [Finset.mem_Icc]
      split_ifs at hk <;> omega
    · rw [Finset.card_map]
  have hval : (Finset.Icc 1 n).val.map (Equiv.swap i j) = (Finset.Icc 1 n).val := by
    have hmap := congrArg Finset.val hperm
    rwa [Finset.map_val] at hmap
  show (Finset.Icc 1 n).val.map (a ∘ Equiv.swap i j) = (Finset.Icc 1 n).val.map a
  rw [← Multiset.map_map, hval]

/-- A slot apart from the others. -/
theorem contents_eq_cons (a : Nat → α) {i n : Nat} (hi : 1 ≤ i ∧ i ≤ n) :
    contents a n = a i ::ₘ ((Finset.Icc 1 n).erase i).val.map a := by
  have hmem : i ∈ Finset.Icc 1 n := Finset.mem_Icc.mpr hi
  have hsplit : (Finset.Icc 1 n).val = i ::ₘ ((Finset.Icc 1 n).erase i).val := by
    rw [Finset.erase_val, Multiset.cons_erase hmem]
  rw [contents, hsplit, Multiset.map_cons]

/-- Another element in a slot. -/
theorem contents_update (a : Nat → α) {i n : Nat} (hi : 1 ≤ i ∧ i ≤ n) (x : α) :
    a i ::ₘ contents (update a i x) n = x ::ₘ contents a n := by
  have hrest : ((Finset.Icc 1 n).erase i).val.map (update a i x)
      = ((Finset.Icc 1 n).erase i).val.map a := by
    apply Multiset.map_congr rfl
    intro j hj
    exact update_of_ne (Finset.ne_of_mem_erase (Finset.mem_val.mp hj)) _ _
  rw [contents_eq_cons a hi, contents_eq_cons _ hi, update_self, hrest, Multiset.cons_swap]

/-- The last element put in the place of another one. -/
theorem contents_take (a : Nat → α) {i n : Nat} (hi : 1 ≤ i ∧ i ≤ n + 1) :
    contents a (n + 1) = a i ::ₘ contents (update a i (a (n + 1))) n := by
  rcases Nat.lt_or_eq_of_le hi.2 with hlt | rfl
  · rw [contents_update a ⟨hi.1, Nat.le_of_lt_succ hlt⟩, contents_succ]
  · rw [update_eq_self, contents_succ]

/-- An element behind the slots exchanged with one of them. -/
theorem contents_swap_out (a : Nat → α) {i j n : Nat} (hi : n < i) (hj : 1 ≤ j ∧ j ≤ n) :
    a j ::ₘ contents (swap a i j) n = a i ::ₘ contents a n := by
  have hupdate : contents (swap a i j) n = contents (update a j (a i)) n := by
    apply contents_congr
    intro k _ hk
    rcases eq_or_ne k j with rfl | hne
    · rw [swap_right, update_self]
    · rw [swap_of_ne a (by omega) hne, update_of_ne hne]
  rw [hupdate, contents_update a hj]

/-- Counted once is in exactly one slot. -/
theorem countP_contents_eq_one {P : α → Prop} [DecidablePred P] {a : Nat → α} {n : Nat} :
    (contents a n).countP P = 1 ↔ ∃! i, 1 ≤ i ∧ i ≤ n ∧ P (a i) := by
  have hcard : (contents a n).countP P = ((Finset.Icc 1 n).filter fun i => P (a i)).card := by
    rw [contents, Multiset.countP_map]
    rfl
  rw [hcard, Finset.card_eq_one]
  constructor
  · rintro ⟨i, hi⟩
    obtain ⟨hmem, huniq⟩ := Finset.eq_singleton_iff_unique_mem.mp hi
    rw [Finset.mem_filter, Finset.mem_Icc] at hmem
    refine ⟨i, ⟨hmem.1.1, hmem.1.2, hmem.2⟩, fun j hj => huniq j ?_⟩
    rw [Finset.mem_filter, Finset.mem_Icc]
    exact ⟨⟨hj.1, hj.2.1⟩, hj.2.2⟩
  · rintro ⟨i, hi, huniq⟩
    refine ⟨i, Finset.eq_singleton_iff_unique_mem.mpr ⟨?_, fun j hj => ?_⟩⟩
    · rw [Finset.mem_filter, Finset.mem_Icc]
      exact ⟨⟨hi.1, hi.2.1⟩, hi.2.2⟩
    · rw [Finset.mem_filter, Finset.mem_Icc] at hj
      exact huniq j ⟨hj.1.1, hj.1.2, hj.2⟩

/-! ## The order -/

variable [LinearOrder α]

/-- No slot is below the slot over it. -/
def Ordered (a : Nat → α) (n : Nat) : Prop := ∀ i, 2 ≤ i → i ≤ n → a (i / 2) ≤ a i

/-- In order, but `r` may be below the slot over it. -/
structure UpOrdered (a : Nat → α) (n r : Nat) : Prop where
  except : ∀ i, 2 ≤ i → i ≤ n → i ≠ r → a (i / 2) ≤ a i
  grand : ∀ i, 2 ≤ r → i ≤ n → i / 2 = r → a (r / 2) ≤ a i

/-- In order, but the slots under `r` may be below it. -/
structure DownOrdered (a : Nat → α) (n r : Nat) : Prop where
  except : ∀ i, 2 ≤ i → i ≤ n → i / 2 ≠ r → a (i / 2) ≤ a i
  grand : ∀ i, 2 ≤ r → i ≤ n → i / 2 = r → a (r / 2) ≤ a i

variable {a : Nat → α} {n r : Nat}

/-- The first slot of an ordered heap is a least one. -/
theorem Ordered.first_le (h : Ordered a n) : ∀ i, 1 ≤ i → i ≤ n → a 1 ≤ a i := by
  intro i
  induction i using Nat.strong_induction_on with
  | _ i ih =>
    intro hi hn
    rcases Nat.lt_or_ge i 2 with hlt | hge
    · rw [show i = 1 from by omega]
    · exact le_trans (ih (i / 2) (by omega) (by omega) (by omega)) (h i hge hn)

theorem Ordered.first_le_mem (h : Ordered a n) {x : α} (hx : x ∈ contents a n) : a 1 ≤ x := by
  obtain ⟨i, hi, hn, rfl⟩ := mem_contents.mp hx
  exact h.first_le i hi hn

/-! ## Going up -/

/-- A new element behind the last slot is out of order with the slot over it only. -/
theorem Ordered.push (h : Ordered a n) (x : α) :
    UpOrdered (update a (n + 1) x) (n + 1) (n + 1) := by
  constructor
  · intro i hi hn hne
    rw [update_of_ne hne, update_of_ne (by omega)]
    exact h i hi (by omega)
  · intro i hr hn hdiv
    omega

/-- A smaller element in the place of another one is out of order with the slot over it only. -/
theorem Ordered.replace_up {m : Nat} (h : Ordered a n) (hm : m ≤ n) {i : Nat} {x : α} (hi : 2 ≤ i)
    (hin : i ≤ n) (hx : x < a (i / 2)) : UpOrdered (update a i x) m i := by
  have hover : a (i / 2) ≤ a i := h i hi hin
  constructor
  · intro j hj hjm hne
    rw [update_of_ne hne]
    rcases eq_or_ne (j / 2) i with hdiv | hdiv
    · rw [hdiv, update_self]
      exact hx.le.trans (hover.trans (hdiv ▸ h j hj (hjm.trans hm)))
    · rw [update_of_ne hdiv]
      exact h j hj (hjm.trans hm)
  · intro j _ hjm hdiv
    rw [update_of_ne (by omega), update_of_ne (by omega)]
    exact hover.trans (hdiv ▸ h j (by omega) (hjm.trans hm))

/-- The climb goes on one level higher. -/
theorem UpOrdered.move (h : UpOrdered a n r) (hr : 2 ≤ r) (hn : r / 2 ≤ n)
    (hlt : a r < a (r / 2)) :
    UpOrdered (swap a r (r / 2)) n (r / 2) := by
  have hhalf : r / 2 ≠ r := by omega
  constructor
  · intro i hi hin hne
    rcases eq_or_ne i r with rfl | hir
    · rw [swap_left, swap_right]
      exact hlt.le
    rw [swap_of_ne a hir hne]
    rcases eq_or_ne (i / 2) r with hdiv | hdiv
    · rw [hdiv, swap_left]
      exact h.grand i hr hin hdiv
    rcases eq_or_ne (i / 2) (r / 2) with hsib | hsib
    · rw [hsib, swap_right]
      have hle := h.except i hi hin hir
      rw [hsib] at hle
      exact le_trans hlt.le hle
    · rw [swap_of_ne a hdiv hsib]
      exact h.except i hi hin hir
  · intro i hr2 hin hdiv
    have hup : a (r / 2 / 2) ≤ a (r / 2) := h.except (r / 2) hr2 (by omega) hhalf
    rw [swap_of_ne a (k := r / 2 / 2) (by omega) (by omega)]
    rcases eq_or_ne i r with rfl | hir
    · rw [swap_left]
      exact hup
    · rw [swap_of_ne a hir (by omega)]
      have hle := h.except i (by omega) hin hir
      rw [hdiv] at hle
      exact le_trans hup hle

/-- The climb is over. -/
theorem UpOrdered.ordered (h : UpOrdered a n r) (hdone : 2 ≤ r → a (r / 2) ≤ a r) :
    Ordered a n := by
  intro i hi hn
  rcases eq_or_ne i r with rfl | hir
  · exact hdone hi
  · exact h.except i hi hn hir

/-! ## Going down -/

/-- An element that is not below the slot over it, in the place of another one, is out of order with
    the slots under it only. -/
theorem Ordered.replace_down {m : Nat} (h : Ordered a n) (hm : m ≤ n) {i : Nat} {x : α}
    (hx : 2 ≤ i → a (i / 2) ≤ x) : DownOrdered (update a i x) m i := by
  constructor
  · intro j hj hjm hdiv
    rw [update_of_ne hdiv]
    rcases eq_or_ne j i with rfl | hne
    · rw [update_self]
      exact hx hj
    · rw [update_of_ne hne]
      exact h j hj (hjm.trans hm)
  · intro j hi hjm hdiv
    rw [update_of_ne (by omega), update_of_ne (by omega)]
    have hover := h j (by omega) (hjm.trans hm)
    rw [hdiv] at hover
    exact (h i hi (by omega)).trans hover

/-- The descent goes on one level lower, at the lesser one of the two slots there. -/
theorem DownOrdered.move {c : Nat} (h : DownOrdered a n r) (hr : 1 ≤ r) (hc : c / 2 = r)
    (hn : c ≤ n) (hlt : a c < a r) (hleast : ∀ i, i ≤ n → i / 2 = r → a c ≤ a i) :
    DownOrdered (swap a c r) n c := by
  constructor
  · intro i hi hin hdiv
    rcases eq_or_ne i r with rfl | hir
    · rw [swap_right, swap_of_ne a hdiv (by omega)]
      exact h.grand c hi hn hc
    rcases eq_or_ne i c with rfl | hic
    · rw [hc, swap_left, swap_right]
      exact hlt.le
    rw [swap_of_ne a hic hir]
    rcases eq_or_ne (i / 2) r with hir2 | hir2
    · rw [hir2, swap_right]
      exact hleast i hin hir2
    · rw [swap_of_ne a hdiv hir2]
      exact h.except i hi hin hir2
  · intro i _ hin hdiv
    rw [hc, swap_right, swap_of_ne a (by omega) (by omega)]
    have hle := h.except i (by omega) hin (by omega)
    rwa [hdiv] at hle

/-- The descent is over. -/
theorem DownOrdered.ordered (h : DownOrdered a n r)
    (hdone : ∀ i, 2 ≤ i → i ≤ n → i / 2 = r → a r ≤ a i) : Ordered a n := by
  intro i hi hn
  rcases eq_or_ne (i / 2) r with hdiv | hdiv
  · rw [hdiv]
    exact hdone i hi hn hdiv
  · exact h.except i hi hn hdiv

/-! ## The least element of a bag -/

/-- The bag without its least element. -/
def takeLeast (s : Multiset α) : Option (Multiset α) :=
  match s.sort (· ≤ ·) with
  | [] => none
  | _ :: rest => some rest

theorem takeLeast_zero : takeLeast (0 : Multiset α) = none := by
  rw [takeLeast, Multiset.sort_zero]

theorem takeLeast_cons {x : α} {s : Multiset α} (hx : ∀ y ∈ s, x ≤ y) :
    takeLeast (x ::ₘ s) = some s := by
  have hsort := Multiset.sort_cons x s (fun y z => y ≤ z) hx
  rw [takeLeast, hsort]
  exact congrArg some (Multiset.sort_eq s _)

end Uniks.Heap
