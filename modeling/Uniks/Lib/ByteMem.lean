/-
  Byte memories with one operation, copying a run of bytes into them, and the little-endian fields
  stored in them.

  A memory is a total function on positions; what lies past the end of an object is simply never
  looked at.  `splice m pos n src` is `memcpy(m + pos, src, n)`: the positions from `pos` up to
  `pos + n` hold the first `n` bytes of `src`, all others what they held before.  The lemmas say
  what a single position holds afterwards, and that two copies one behind the other are one copy.
-/
import Mathlib.Data.List.GetD
import Mathlib.Logic.Function.Basic
import Mathlib.Algebra.Order.Ring.Nat

namespace Uniks.ByteMem

variable {α : Type}

/-- A memory of bytes. -/
abbrev Bytes : Type := Nat → UInt8

/-- The C function `memcpy(m + pos, src, n)`. -/
def splice (m : Nat → α) (pos n : Nat) (src : Nat → α) : Nat → α :=
  fun k => if pos ≤ k ∧ k < pos + n then src (k - pos) else m k

variable {m src : Nat → α} {pos n k : Nat}

theorem splice_of_mem (hpos : pos ≤ k) (hk : k < pos + n) : splice m pos n src k = src (k - pos) :=
  if_pos ⟨hpos, hk⟩

theorem splice_of_not_mem (hk : ¬ (pos ≤ k ∧ k < pos + n)) : splice m pos n src k = m k :=
  if_neg hk

/-- The bytes copied, by their distance from the start of the copy. -/
theorem splice_add (hk : k < n) : splice m pos n src (pos + k) = src k := by
  rw [splice_of_mem (Nat.le_add_right pos k) (Nat.add_lt_add_left hk pos), Nat.add_sub_cancel_left]

@[simp] theorem splice_zero (m : Nat → α) (pos : Nat) (src : Nat → α) : splice m pos 0 src = m := by
  funext k
  exact splice_of_not_mem (by omega)

/-- Copying a run from the front and then its rest is copying the run. -/
theorem splice_splice_add (m : Nat → α) (pos a b : Nat) (src : Nat → α) :
    splice (splice m pos a src) (pos + a) b (fun k => src (a + k)) = splice m pos (a + b) src := by
  funext k
  unfold splice
  by_cases hlow : k < pos + a
  · rw [if_neg (by omega)]
    by_cases hpos : pos ≤ k
    · rw [if_pos ⟨hpos, hlow⟩, if_pos (by omega)]
    · rw [if_neg (by omega), if_neg (by omega)]
  · by_cases hhigh : k < pos + a + b
    · have hpos : a + (k - (pos + a)) = k - pos := by omega
      rw [if_pos ⟨by omega, hhigh⟩, if_pos ⟨by omega, by omega⟩]
      show src (a + (k - (pos + a))) = src (k - pos)
      rw [hpos]
    · rw [if_neg (by omega), if_neg (by omega), if_neg (by omega)]

/-- Only the bytes copied and the bytes kept matter. -/
theorem splice_congr {m' src' : Nat → α} (hsrc : ∀ k, k < n → src k = src' k)
    (hm : ∀ k, ¬ (pos ≤ k ∧ k < pos + n) → m k = m' k) :
    splice m pos n src = splice m' pos n src' := by
  funext k
  by_cases hk : pos ≤ k ∧ k < pos + n
  · rw [splice_of_mem hk.1 hk.2, splice_of_mem hk.1 hk.2]
    exact hsrc (k - pos) (by omega)
  · rw [splice_of_not_mem hk, splice_of_not_mem hk]
    exact hm k hk

/-! ## Little-endian fields -/

/-- The field of `w` bytes at a position. -/
def getLE (b : Bytes) (p : Nat) : Nat → Nat
  | 0 => 0
  | w + 1 => (b p).toNat + 256 * getLE b (p + 1) w

/-- The bytes of a number, the lowest first. -/
def leBytes (v : Nat) : Bytes := fun k => UInt8.ofNat (v / 256 ^ k)

/-- Store a number in the field of `w` bytes at a position. -/
def setLE (b : Bytes) (p w v : Nat) : Bytes := splice b p w (leBytes v)

theorem getLE_congr {b b' : Bytes} {p p' w : Nat} (h : ∀ k, k < w → b (p + k) = b' (p' + k)) :
    getLE b p w = getLE b' p' w := by
  induction w generalizing p p' with
  | zero => rfl
  | succ w ih =>
    have hfirst := h 0 (Nat.succ_pos w)
    rw [Nat.add_zero, Nat.add_zero] at hfirst
    have hrest : getLE b (p + 1) w = getLE b' (p' + 1) w := by
      refine ih fun k hk => ?_
      rw [Nat.add_assoc, Nat.add_assoc, Nat.add_comm 1 k]
      exact h (k + 1) (Nat.succ_lt_succ hk)
    rw [getLE, getLE, hfirst, hrest]

theorem getLE_leBytes (v w : Nat) : getLE (leBytes v) 0 w = v % 256 ^ w := by
  have hshift : ∀ w p, getLE (leBytes v) p w = v / 256 ^ p % 256 ^ w := by
    intro w
    induction w with
    | zero =>
      intro p
      rw [getLE, Nat.pow_zero, Nat.mod_one]
    | succ w ih =>
      intro p
      have hdiv : v / 256 ^ (p + 1) = v / 256 ^ p / 256 := by
        rw [Nat.pow_succ, Nat.div_div_eq_div_mul]
      have hpow : 256 ^ (w + 1) = 256 * 256 ^ w := by
        rw [Nat.pow_succ, Nat.mul_comm]
      have hbyte : (leBytes v p).toNat = v / 256 ^ p % 256 := UInt8.toNat_ofNat'
      rw [getLE, ih, hbyte, hdiv, hpow]
      exact Nat.mod_mul.symm
  rw [hshift w 0, Nat.pow_zero, Nat.div_one]

theorem getLE_zero (p w : Nat) : getLE (fun _ => 0) p w = 0 := by
  induction w generalizing p with
  | zero => rfl
  | succ w ih =>
    rw [getLE, ih]
    rfl

theorem getLE_lt (b : Bytes) (p w : Nat) : getLE b p w < 256 ^ w := by
  induction w generalizing p with
  | zero => exact Nat.one_pos
  | succ w ih =>
    have hbyte : (b p).toNat < 256 := UInt8.toNat_lt (b p)
    have hrest := ih (p + 1)
    rw [getLE, Nat.pow_succ]
    omega

/-- The bytes of a field depend on what fits into it. -/
theorem leBytes_mod (v : Nat) {k w : Nat} (hk : k < w) : leBytes (v % 256 ^ w) k = leBytes v k := by
  apply UInt8.toNat_inj.mp
  show (UInt8.ofNat (v % 256 ^ w / 256 ^ k)).toNat = (UInt8.ofNat (v / 256 ^ k)).toNat
  have hpow : 256 ^ w = 256 ^ k * (256 * 256 ^ (w - k - 1)) := by
    rw [← Nat.pow_succ', ← Nat.pow_add]
    congr 1
    omega
  rw [UInt8.toNat_ofNat', UInt8.toNat_ofNat', hpow, Nat.mod_mul_right_div_self]
  exact Nat.mod_mul_right_mod _ _ _

theorem setLE_mod (b : Bytes) (p w v : Nat) : setLE b p w (v % 256 ^ w) = setLE b p w v :=
  splice_congr (fun _ hk => leBytes_mod v hk) fun _ _ => rfl

/-- A field just stored. -/
theorem getLE_setLE_self (b : Bytes) (p w v : Nat) : getLE (setLE b p w v) p w = v % 256 ^ w := by
  rw [← getLE_leBytes v w]
  refine getLE_congr fun k hk => ?_
  rw [setLE, splice_add hk, Nat.zero_add]

/-- A field that does not overlap the one just stored. -/
theorem getLE_setLE_of_disjoint (b : Bytes) {p q w u : Nat} (v : Nat)
    (h : p + w ≤ q ∨ q + u ≤ p) : getLE (setLE b p w v) q u = getLE b q u := by
  refine getLE_congr fun k hk => ?_
  rw [setLE, splice_of_not_mem (by omega)]

/-! ## Runs of bytes -/

/-- The bytes of a list, from a position on. -/
def HoldsAt (b : Bytes) (p : Nat) (bs : List UInt8) : Prop :=
  ∀ k (hk : k < bs.length), b (p + k) = bs[k]

instance (b : Bytes) (p : Nat) (bs : List UInt8) : Decidable (HoldsAt b p bs) :=
  inferInstanceAs (Decidable (∀ k (hk : k < bs.length), b (p + k) = bs[k]))

variable {b b' : Bytes} {p : Nat} {bs : List UInt8}

/-- What has just been copied. -/
theorem HoldsAt.splice (b : Bytes) (p : Nat) (bs : List UInt8) :
    HoldsAt (splice b p bs.length fun k => bs.getD k 0) p bs := by
  intro k hk
  rw [splice_add hk, List.getD_eq_getElem _ _ hk]

/-- A memory that agrees there. -/
theorem HoldsAt.congr (h : HoldsAt b p bs) {q : Nat}
    (hsame : ∀ k, k < bs.length → b' (q + k) = b (p + k)) : HoldsAt b' q bs := by
  intro k hk
  rw [hsame k hk]
  exact h k hk

/-- One list behind the other. -/
theorem holdsAt_append {bs' : List UInt8} :
    HoldsAt b p (bs ++ bs') ↔ HoldsAt b p bs ∧ HoldsAt b (p + bs.length) bs' := by
  constructor
  · intro h
    refine ⟨fun k hk => ?_, fun k hk => ?_⟩
    · have hget := h k (by rw [List.length_append]; omega)
      rw [List.getElem_append_left hk] at hget
      exact hget
    · have hget := h (bs.length + k) (by rw [List.length_append]; omega)
      rw [List.getElem_append_right (Nat.le_add_right _ _), ← Nat.add_assoc] at hget
      rw [hget]
      congr 1
      exact Nat.add_sub_cancel_left _ _
  · rintro ⟨hfront, hback⟩ k hk
    rw [List.length_append] at hk
    by_cases hlt : k < bs.length
    · rw [List.getElem_append_left hlt]
      exact hfront k hlt
    · have hget := hback (k - bs.length) (by omega)
      rw [List.getElem_append_right (Nat.not_lt.mp hlt), ← hget]
      congr 1
      omega

theorem holdsAt_singleton {c : UInt8} : HoldsAt b p [c] ↔ b p = c := by
  constructor
  · intro h
    exact h 0 Nat.one_pos
  · intro h k hk
    have hk : k = 0 := Nat.lt_one_iff.mp hk
    subst hk
    exact h

end Uniks.ByteMem
