/-
  A ring of slots between two counters that never go back.

  The writer stores at its counter, modulo the size of the ring, and adds one; the reader does the
  same with its own.  The counters are 16 bits wide and wrap around, which the ring does not notice
  as long as its size divides `2^16`: the slot of the `k`-th entry is `(first + k) % size`
  (`slot_eq`).  `Holds` says that a list lies between the counters; storing appends to the list and
  reading takes its head, provided that the list never gets longer than the ring.
-/
import Mathlib.Logic.Function.Basic
import Mathlib.Data.Nat.ModEq

namespace Uniks.IndexRing

variable {α : Type} {ring : Nat → α} {size : Nat} {first last : UInt16} {x : α} {xs : List α}

/-- The slot of a counter. -/
def slot (size : Nat) (index : UInt16) : Nat := index.toNat % size

/-- Between the counters lies this list. -/
structure Holds (ring : Nat → α) (size : Nat) (first last : UInt16) (xs : List α) : Prop where
  fits : xs.length ≤ size
  count : last = first + UInt16.ofNat xs.length
  slots : ∀ k x, xs[k]? = some x → ring (slot size (first + UInt16.ofNat k)) = x

theorem slot_eq (hsize : size ∣ 2 ^ 16) (first : UInt16) (k : Nat) :
    slot size (first + UInt16.ofNat k) = (first.toNat + k) % size := by
  rw [slot, UInt16.toNat_add, UInt16.toNat_ofNat', Nat.add_mod_mod, Nat.mod_mod_of_dvd _ hsize]

theorem slot_inj (hsize : size ∣ 2 ^ 16) (first : UInt16) {j k : Nat} (hj : j < size)
    (hk : k < size) (h : slot size (first + UInt16.ofNat j) = slot size (first + UInt16.ofNat k)) :
    j = k := by
  rw [slot_eq hsize, slot_eq hsize] at h
  have hmod : j % size = k % size := Nat.ModEq.add_left_cancel' first.toNat h
  rwa [Nat.mod_eq_of_lt hj, Nat.mod_eq_of_lt hk] at hmod

theorem Holds.nil (ring : Nat → α) (size : Nat) (index : UInt16) :
    Holds ring size index index [] where
  fits := Nat.zero_le size
  count := (UInt16.add_zero index).symm
  slots _ _ h := nomatch h

/-- Storing behind the list, while there is room. -/
theorem Holds.push (h : Holds ring size first last xs) (hsize : size ∣ 2 ^ 16)
    (hroom : xs.length < size) (x : α) :
    Holds (Function.update ring (slot size last) x) size first (last + 1) (xs ++ [x]) := by
  refine ⟨?_, ?_, fun k y hk => ?_⟩
  · rw [List.length_append]
    exact hroom
  · rw [h.count, List.length_append, List.length_singleton, UInt16.ofNat_add, UInt16.add_assoc]
    rfl
  · have hlt : k < (xs ++ [x]).length := (List.getElem?_eq_some_iff.mp hk).1
    rw [List.length_append, List.length_singleton] at hlt
    by_cases hlast : k = xs.length
    · subst hlast
      rw [List.getElem?_append_right (Nat.le_refl _), Nat.sub_self] at hk
      rw [← h.count, Function.update_self]
      exact Option.some.inj hk
    · have hbefore : k < xs.length := by omega
      have hne : slot size (first + UInt16.ofNat k) ≠ slot size last := by
        intro heq
        rw [h.count] at heq
        exact hlast (slot_inj hsize first (Nat.lt_trans hbefore hroom) hroom heq)
      rw [Function.update_of_ne hne]
      rw [List.getElem?_append_left hbefore] at hk
      exact h.slots k y hk

/-- Reading the head of the list. -/
theorem Holds.head (h : Holds ring size first last (x :: xs)) : ring (slot size first) = x := by
  have hzero := h.slots 0 x rfl
  rwa [show UInt16.ofNat 0 = 0 from rfl, UInt16.add_zero] at hzero

theorem Holds.pop (h : Holds ring size first last (x :: xs)) :
    Holds ring size (first + 1) last xs := by
  refine ⟨Nat.le_of_succ_le h.fits, ?_, fun k y hk => ?_⟩
  · rw [h.count, List.length_cons, Nat.add_comm, UInt16.ofNat_add, UInt16.add_assoc]
    rfl
  · have hnext := h.slots (k + 1) y hk
    rwa [Nat.add_comm, UInt16.ofNat_add, ← UInt16.add_assoc] at hnext

/-- The counters are equal exactly if nothing lies between them. -/
theorem Holds.eq_iff (h : Holds ring size first last xs) (hsize : size < 2 ^ 16) :
    first = last ↔ xs = [] := by
  constructor
  · intro heq
    have hcount := h.count
    rw [← heq] at hcount
    have hzero : UInt16.ofNat xs.length = 0 := UInt16.add_eq_left.mp hcount.symm
    have hnat := congrArg UInt16.toNat hzero
    have hfits := h.fits
    rw [UInt16.toNat_ofNat', Nat.mod_eq_of_lt (by omega)] at hnat
    exact List.length_eq_zero_iff.mp hnat
  · rintro rfl
    exact (h.count.trans (UInt16.add_zero first)).symm

end Uniks.IndexRing
