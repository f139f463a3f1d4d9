/-
  Tilings of an interval by aligned power-of-two blocks.

  A block of order `k` at `a` is `[a, a + 2^k)` with `2^k` dividing `a`.  Two such blocks are nested
  or disjoint, which is why a block can be split in halves and why two halves can be merged: a
  neighbour of the same order, if it starts a tile at all, starts one that is no larger
  (`Tiling.buddy`).  `Tiling N T` says that the blocks `T` cover `[0, N)` without overlap; every
  change an allocator makes replaces some tiles by others that cover the same points
  (`Tiling.replace`), and splitting and merging are its two instances.

  A tiling in which two halves of one block never lie side by side (`NoBuddies`) is as coarse as it
  can be: there is only one (`Tiling.unique`).
-/
import Mathlib.Algebra.Order.Ring.Nat
import Mathlib.Tactic.Ring
import Mathlib.Data.Nat.Bitwise
import Mathlib.Data.Nat.Log

namespace Uniks.Dyadic

/-- The block of order `k` at `a` contains `x`. -/
def Covers (a k x : Nat) : Prop := a ≤ x ∧ x < a + 2 ^ k

theorem covers_self (a k : Nat) : Covers a k a :=
  ⟨Nat.le_refl a, Nat.lt_add_of_pos_right (Nat.two_pow_pos k)⟩

/-- Multiples of `d` keep their distance. -/
theorem add_le_of_dvd_of_lt {d u v : Nat} (hu : d ∣ u) (hv : d ∣ v) (h : u < v) : u + d ≤ v := by
  obtain ⟨m, rfl⟩ := hu
  obtain ⟨n, rfl⟩ := hv
  have hmn : m < n := Nat.lt_of_mul_lt_mul_left h
  calc d * m + d = d * (m + 1) := by ring
    _ ≤ d * n := Nat.mul_le_mul_left d hmn

/-- A block that meets a block of at least its own order lies inside it. -/
theorem nested {a k b j x : Nat} (ha : 2 ^ k ∣ a) (hb : 2 ^ j ∣ b) (hjk : j ≤ k)
    (hax : Covers a k x) (hbx : Covers b j x) : a ≤ b ∧ b + 2 ^ j ≤ a + 2 ^ k := by
  have hpow : 2 ^ j ∣ 2 ^ k := Nat.pow_dvd_pow 2 hjk
  have ha' : 2 ^ j ∣ a := Nat.dvd_trans hpow ha
  obtain ⟨hax₁, hax₂⟩ := hax
  obtain ⟨hbx₁, hbx₂⟩ := hbx
  constructor
  · have hle := add_le_of_dvd_of_lt ha' (Nat.dvd_add hb (Nat.dvd_refl _)) (by omega)
    omega
  · exact add_le_of_dvd_of_lt hb (Nat.dvd_add ha' hpow) (by omega)

/-- The blocks `T` (start and order) cover `[0, N)` without overlap. -/
structure Tiling (N : Nat) (T : Nat → Nat → Prop) : Prop where
  aligned : ∀ a k, T a k → 2 ^ k ∣ a
  fits : ∀ a k, T a k → a + 2 ^ k ≤ N
  cover : ∀ x, x < N → ∃ a k, T a k ∧ Covers a k x
  apart : ∀ a k b j x, T a k → T b j → Covers a k x → Covers b j x → a = b ∧ k = j

variable {N : Nat} {T T' : Nat → Nat → Prop}

/-- A point starts at most one tile. -/
theorem Tiling.order_unique (h : Tiling N T) {a k j : Nat} (hk : T a k) (hj : T a j) : k = j :=
  (h.apart a k a j a hk hj (covers_self a k) (covers_self a j)).2

theorem Tiling.congr (h : Tiling N T) (hT : ∀ a k, T' a k ↔ T a k) : Tiling N T' := by
  have hsame : T' = T := by
    funext a k
    exact propext (hT a k)
  rw [hsame]
  exact h

/-- Nothing is tiled. -/
theorem Tiling.empty : Tiling 0 fun _ _ => False :=
  ⟨fun _ _ h => h.elim, fun _ _ h => h.elim, fun x hx => absurd hx (Nat.not_lt_zero x),
    fun _ _ _ _ _ h => h.elim⟩

/-- A block is laid behind the last one. -/
theorem Tiling.snoc (h : Tiling N T) {k : Nat} (hk : 2 ^ k ∣ N)
    (hT' : ∀ a j, T' a j ↔ T a j ∨ (a = N ∧ j = k)) : Tiling (N + 2 ^ k) T' := by
  refine ⟨?_, ?_, ?_, ?_⟩
  · intro a j ha
    rcases (hT' a j).mp ha with hold | ⟨rfl, rfl⟩
    · exact h.aligned a j hold
    · exact hk
  · intro a j ha
    rcases (hT' a j).mp ha with hold | ⟨rfl, rfl⟩
    · exact Nat.le_trans (h.fits a j hold) (Nat.le_add_right N _)
    · exact Nat.le_refl _
  · intro x hx
    by_cases hxN : x < N
    · obtain ⟨a, j, ha, hcov⟩ := h.cover x hxN
      exact ⟨a, j, (hT' a j).mpr (.inl ha), hcov⟩
    · exact ⟨N, k, (hT' N k).mpr (.inr ⟨rfl, rfl⟩), Nat.le_of_not_lt hxN, hx⟩
  · intro a i b j x ha hb hax hbx
    have hin : ∀ c l, T c l → Covers c l x → x < N := fun c l hc hcx =>
      Nat.lt_of_lt_of_le hcx.2 (h.fits c l hc)
    rcases (hT' a i).mp ha with ha | ⟨rfl, rfl⟩
    · rcases (hT' b j).mp hb with hb | ⟨rfl, rfl⟩
      · exact h.apart a i b j x ha hb hax hbx
      · exact absurd hbx.1 (Nat.not_le_of_lt (hin a i ha hax))
    · rcases (hT' b j).mp hb with hb | ⟨rfl, rfl⟩
      · exact absurd hax.1 (Nat.not_le_of_lt (hin b j hb hbx))
      · exact ⟨rfl, rfl⟩

/-- Some tiles `R` are replaced by blocks `R'` that cover the same points. -/
theorem Tiling.replace (h : Tiling N T) (R R' : Nat → Nat → Prop) (hR : ∀ a k, R a k → T a k)
    (hal : ∀ a k, R' a k → 2 ^ k ∣ a)
    (hsame : ∀ x, (∃ a k, R' a k ∧ Covers a k x) ↔ ∃ a k, R a k ∧ Covers a k x)
    (hap : ∀ a k b j x, R' a k → R' b j → Covers a k x → Covers b j x → a = b ∧ k = j)
    (hT' : ∀ a k, T' a k ↔ (T a k ∧ ¬ R a k) ∨ R' a k) : Tiling N T' := by
  -- a tile that stays meets no new tile: the point would lie in a replaced tile as well
  have hmix : ∀ a k b j x, T a k → ¬ R a k → R' b j → Covers a k x → Covers b j x → False := by
    intro a k b j x ha hnot hb hax hbx
    obtain ⟨c, l, hc, hcx⟩ := (hsame x).mp ⟨b, j, hb, hbx⟩
    obtain ⟨rfl, rfl⟩ := h.apart a k c l x ha (hR c l hc) hax hcx
    exact hnot hc
  refine ⟨?_, ?_, ?_, ?_⟩
  · intro a k ha
    rcases (hT' a k).mp ha with ⟨hold, -⟩ | hnew
    · exact h.aligned a k hold
    · exact hal a k hnew
  · intro a k ha
    rcases (hT' a k).mp ha with ⟨hold, -⟩ | hnew
    · exact h.fits a k hold
    · have hpos := Nat.two_pow_pos k
      obtain ⟨c, l, hc, hcx⟩ := (hsame (a + 2 ^ k - 1)).mp ⟨a, k, hnew, by omega, by omega⟩
      have hfit := h.fits c l (hR c l hc)
      have hlast := hcx.2
      omega
  · intro x hx
    obtain ⟨a, k, ha, hcov⟩ := h.cover x hx
    by_cases hold : R a k
    · obtain ⟨b, j, hb, hbx⟩ := (hsame x).mpr ⟨a, k, hold, hcov⟩
      exact ⟨b, j, (hT' b j).mpr (.inr hb), hbx⟩
    · exact ⟨a, k, (hT' a k).mpr (.inl ⟨ha, hold⟩), hcov⟩
  · intro a k b j x ha hb hax hbx
    rcases (hT' a k).mp ha with ⟨ha, hna⟩ | ha
    · rcases (hT' b j).mp hb with ⟨hb, -⟩ | hb
      · exact h.apart a k b j x ha hb hax hbx
      · exact (hmix a k b j x ha hna hb hax hbx).elim
    · rcases (hT' b j).mp hb with ⟨hb, hnb⟩ | hb
      · exact (hmix b j a k x hb hnb ha hbx hax).elim
      · exact hap a k b j x ha hb hax hbx

/-- The two halves of a block. -/
def Halves (a k : Nat) (b j : Nat) : Prop := j = k ∧ (b = a ∨ b = a + 2 ^ k)

/-- The halves cover what the block covers. -/
theorem covers_halves (a k x : Nat) :
    (∃ b j, Halves a k b j ∧ Covers b j x) ↔ Covers a (k + 1) x := by
  have hpow : 2 ^ (k + 1) = 2 ^ k + 2 ^ k := by ring
  constructor
  · rintro ⟨b, j, ⟨rfl, rfl | rfl⟩, hb₁, hb₂⟩
    · exact ⟨hb₁, by omega⟩
    · exact ⟨by omega, by omega⟩
  · rintro ⟨hx₁, hx₂⟩
    by_cases hx : x < a + 2 ^ k
    · exact ⟨a, k, ⟨rfl, .inl rfl⟩, hx₁, hx⟩
    · exact ⟨a + 2 ^ k, k, ⟨rfl, .inr rfl⟩, by omega, by omega⟩

/-- A tile is split into its halves. -/
theorem Tiling.split (h : Tiling N T) {a k : Nat} (ha : T a (k + 1))
    (hT' : ∀ b j, T' b j ↔ (T b j ∧ ¬ (b = a ∧ j = k + 1)) ∨ Halves a k b j) : Tiling N T' := by
  have hal := h.aligned a (k + 1) ha
  have hk : 2 ^ k ∣ a := Nat.dvd_trans (Nat.pow_dvd_pow 2 (Nat.le_succ k)) hal
  refine h.replace (fun b j => b = a ∧ j = k + 1) (Halves a k) ?_ ?_ ?_ ?_ hT'
  · rintro b j ⟨rfl, rfl⟩
    exact ha
  · rintro b j ⟨rfl, rfl | rfl⟩
    · exact hk
    · exact Nat.dvd_add hk (Nat.dvd_refl _)
  · intro x
    rw [covers_halves]
    constructor
    · intro hx
      exact ⟨a, k + 1, ⟨rfl, rfl⟩, hx⟩
    · rintro ⟨b, j, ⟨rfl, rfl⟩, hx⟩
      exact hx
  · rintro b j c l x ⟨rfl, hb⟩ ⟨rfl, hc⟩ ⟨hbx₁, hbx₂⟩ ⟨hcx₁, hcx₂⟩
    refine ⟨?_, rfl⟩
    rcases hb with rfl | rfl
    · rcases hc with rfl | rfl
      · rfl
      · omega
    · rcases hc with rfl | rfl
      · omega
      · rfl

/-- Two halves of an aligned block are merged. -/
theorem Tiling.merge (h : Tiling N T) {a k : Nat} (hal : 2 ^ (k + 1) ∣ a) (hl : T a k)
    (hr : T (a + 2 ^ k) k)
    (hT' : ∀ b j, T' b j ↔ (T b j ∧ ¬ Halves a k b j) ∨ (b = a ∧ j = k + 1)) : Tiling N T' := by
  refine h.replace (Halves a k) (fun b j => b = a ∧ j = k + 1) ?_ ?_ ?_ ?_ hT'
  · rintro b j ⟨rfl, rfl | rfl⟩
    · exact hl
    · exact hr
  · rintro b j ⟨rfl, rfl⟩
    exact hal
  · intro x
    rw [covers_halves]
    constructor
    · rintro ⟨b, j, ⟨rfl, rfl⟩, hx⟩
      exact hx
    · intro hx
      exact ⟨a, k + 1, ⟨rfl, rfl⟩, hx⟩
  · rintro b j c l x ⟨rfl, rfl⟩ ⟨rfl, rfl⟩ - -
    exact ⟨rfl, rfl⟩

/-- What a block of order `j` has beyond its lowest `2^k` points is tiled by one block of each order
    from `k` to `j - 1`: its right half, the right half of its left half, and so on. -/
theorem covers_rest (k j a x : Nat) :
    (a + 2 ^ k ≤ x ∧ x < a + 2 ^ j) ↔ ∃! i, (k ≤ i ∧ i < j) ∧ Covers (a + 2 ^ i) i x := by
  have hdouble : ∀ i, 2 ^ (i + 1) = 2 ^ i + 2 ^ i := fun i => by ring
  constructor
  · rintro ⟨hlow, hhigh⟩
    have hpos := Nat.two_pow_pos k
    have hne : x - a ≠ 0 := by omega
    -- the order is the position of the highest bit of the distance
    have hbot := Nat.pow_log_le_self 2 hne
    have htop := Nat.lt_pow_succ_log_self Nat.one_lt_two (x - a)
    have hdbl := hdouble (Nat.log 2 (x - a))
    refine ⟨Nat.log 2 (x - a), ⟨⟨?_, ?_⟩, by omega, by rw [Nat.succ_eq_add_one] at htop; omega⟩, ?_⟩
    · exact Nat.le_log_of_pow_le Nat.one_lt_two (by omega)
    · exact Nat.log_lt_of_lt_pow hne (by omega)
    · rintro i ⟨-, hi₁, hi₂⟩
      have hdbl' := hdouble i
      exact (Nat.log_eq_of_pow_le_of_lt_pow (by omega) (by omega)).symm
  · rintro ⟨i, ⟨⟨hki, hij⟩, hi₁, hi₂⟩, -⟩
    have hlow := Nat.pow_le_pow_right Nat.two_pos hki
    have hhigh := Nat.pow_le_pow_right Nat.two_pos (Nat.succ_le_of_lt hij)
    have hdbl := hdouble i
    rw [Nat.succ_eq_add_one] at hhigh
    omega

/-- The start of the block that contains `a` and its neighbour of order `k`. -/
def parent (a k : Nat) : Nat := a - a % 2 ^ (k + 1)

theorem parent_aligned (a k : Nat) : 2 ^ (k + 1) ∣ parent a k :=
  Nat.dvd_sub_mod a

/-- An aligned block is one of the halves of its parent. -/
theorem parent_cases {a k : Nat} (ha : 2 ^ k ∣ a) :
    (a % 2 ^ (k + 1) = 0 ∧ a = parent a k) ∨
      (a % 2 ^ (k + 1) = 2 ^ k ∧ a = parent a k + 2 ^ k) := by
  have hpow : 2 ^ (k + 1) = 2 ^ k + 2 ^ k := by ring
  have hmod : 2 ^ k ∣ a % 2 ^ (k + 1) :=
    (Nat.dvd_mod_iff (Nat.pow_dvd_pow 2 (Nat.le_succ k))).mpr ha
  have hlt := Nat.mod_lt a (Nat.two_pow_pos (k + 1))
  have hle := Nat.mod_le a (2 ^ (k + 1))
  obtain ⟨m, hm⟩ := hmod
  have hm2 : m < 2 := by
    by_contra hge
    have hbig : 2 ^ k * 2 ≤ 2 ^ k * m := Nat.mul_le_mul_left _ (Nat.le_of_not_lt hge)
    omega
  unfold parent
  rcases (by omega : m = 0 ∨ m = 1) with rfl | rfl
  · rw [Nat.mul_zero] at hm
    exact .inl ⟨hm, by omega⟩
  · rw [Nat.mul_one] at hm
    exact .inr ⟨hm, by omega⟩

/-- The neighbour of a tile, where it lies in the tiled interval, starts a tile, and one that is no
    larger. -/
theorem Tiling.buddy (h : Tiling N T) {a k p b : Nat} (ha : T a k) (hp : 2 ^ (k + 1) ∣ p)
    (hap : a = p ∨ a = p + 2 ^ k) (hbp : b = p ∨ b = p + 2 ^ k) (hne : b ≠ a) (hb : b < N) :
    ∃ j, j ≤ k ∧ T b j := by
  have hpow : 2 ^ (k + 1) = 2 ^ k + 2 ^ k := by ring
  have hpos := Nat.two_pow_pos k
  obtain ⟨c, j, hc, hcov⟩ := h.cover b hb
  have hcal := h.aligned c j hc
  have hjk : j ≤ k := by
    by_contra hgt
    -- a larger tile would contain the parent, hence `a`
    have hin := nested hcal hp (Nat.lt_of_not_le hgt) hcov
      (⟨by rcases hbp with rfl | rfl <;> omega, by rcases hbp with rfl | rfl <;> omega⟩ :
        Covers p (k + 1) b)
    have hca : Covers c j a := by
      rcases hap with rfl | rfl
      · exact ⟨by omega, by omega⟩
      · exact ⟨by omega, by omega⟩
    obtain ⟨rfl, rfl⟩ := h.apart a k c j a ha hc (covers_self a k) hca
    exact hgt (Nat.le_refl k)
  have hpk : 2 ^ k ∣ p := Nat.dvd_trans (Nat.pow_dvd_pow 2 (Nat.le_succ k)) hp
  have hbal : 2 ^ k ∣ b := by
    rcases hbp with rfl | rfl
    · exact hpk
    · exact Nat.dvd_add hpk (Nat.dvd_refl _)
  have hin := nested hbal hcal hjk (covers_self b k) hcov
  have hcb : c = b := Nat.le_antisymm hcov.1 hin.1
  exact ⟨j, hjk, hcb ▸ hc⟩

/-! ## The coarsest tiling -/

/-- No two tiles of an order below `m` are the halves of one block. -/
def NoBuddies (m : Nat) (T : Nat → Nat → Prop) : Prop :=
  ∀ k, k < m → ∀ p, 2 ^ (k + 1) ∣ p → T p k → ¬ T (p + 2 ^ k) k

variable {m : Nat}

theorem NoBuddies.mono (h : NoBuddies m T) (hsub : ∀ a k, T' a k → T a k) : NoBuddies m T' :=
  fun k hk p hp hl hr => h k hk p hp (hsub p k hl) (hsub _ k hr)

/-- Two aligned starts that differ in bit `k` only are the halves of one block. -/
theorem halves_of_xor {a b k : Nat} (ha : 2 ^ k ∣ a) (hb : 2 ^ k ∣ b) (h : a ^^^ b = 2 ^ k) :
    ∃ p, 2 ^ (k + 1) ∣ p ∧ ((a = p ∧ b = p + 2 ^ k) ∨ (a = p + 2 ^ k ∧ b = p)) := by
  have hpos := Nat.two_pow_pos k
  have hne : a ≠ b := by
    rintro rfl
    rw [Nat.xor_self] at h
    omega
  -- above bit `k` the two agree
  have hshift : (a ^^^ b) >>> (k + 1) = 0 := by
    rw [h, Nat.shiftRight_eq_div_pow]
    exact Nat.div_eq_of_lt (Nat.pow_lt_pow_right (by decide) (Nat.lt_succ_self k))
  rw [Nat.shiftRight_xor_distrib, Nat.xor_eq_zero_iff, Nat.shiftRight_eq_div_pow,
    Nat.shiftRight_eq_div_pow] at hshift
  have hparent : parent a k = parent b k := by
    unfold parent
    have hda := Nat.div_add_mod a (2 ^ (k + 1))
    have hdb := Nat.div_add_mod b (2 ^ (k + 1))
    rw [hshift] at hda
    omega
  refine ⟨parent a k, parent_aligned a k, ?_⟩
  rcases parent_cases ha with ⟨-, hpa⟩ | ⟨-, hpa⟩
  · rcases parent_cases hb with ⟨-, hpb⟩ | ⟨-, hpb⟩
    · exact absurd (hpa.trans (hparent.trans hpb.symm)) hne
    · exact .inl ⟨hpa, by omega⟩
  · rcases parent_cases hb with ⟨-, hpb⟩ | ⟨-, hpb⟩
    · exact .inr ⟨hpa, by omega⟩
    · omega

/-- A block of order at most `m` is not cut into smaller tiles: among those of the smallest order
    one would have its other half for a neighbour. -/
theorem Tiling.not_cut (h : Tiling N T) (hn : NoBuddies m T) {b j : Nat} (hb : 2 ^ j ∣ b)
    (hfit : b + 2 ^ j ≤ N) (hj : j ≤ m) (k : Nat) :
    ∀ a, T a k → k < j → ¬ Covers b j a := by
  induction k using Nat.strong_induction_on with
  | _ k ih =>
    intro a ha hkj hcov
    have hpos := Nat.two_pow_pos k
    have hpow : 2 ^ (k + 1) = 2 ^ k + 2 ^ k := by ring
    have hpal := parent_aligned a k
    have hside := parent_cases (h.aligned a k ha)
    have hin : Covers (parent a k) (k + 1) a := by
      rcases hside with ⟨-, hpa⟩ | ⟨-, hpa⟩
      · exact ⟨by omega, by omega⟩
      · exact ⟨by omega, by omega⟩
    obtain ⟨hlow, hhigh⟩ := nested hb hpal hkj hcov hin
    -- the other half, in the same block
    obtain ⟨c, hc, hca⟩ : ∃ c, (c = parent a k ∨ c = parent a k + 2 ^ k) ∧ c ≠ a := by
      rcases hside with ⟨-, hpa⟩ | ⟨-, hpa⟩
      · exact ⟨parent a k + 2 ^ k, .inr rfl, by omega⟩
      · exact ⟨parent a k, .inl rfl, by omega⟩
    have hap : a = parent a k ∨ a = parent a k + 2 ^ k := by
      rcases hside with ⟨-, hpa⟩ | ⟨-, hpa⟩
      · exact .inl hpa
      · exact .inr hpa
    obtain ⟨i, hik, hci⟩ := h.buddy ha hpal hap hc hca (by rcases hc with hc | hc <;> omega)
    rcases Nat.lt_or_eq_of_le hik with hlt | rfl
    · refine ih i hlt c hci (by omega) ⟨?_, ?_⟩
      · rcases hc with hc | hc <;> omega
      · rcases hc with hc | hc <;> omega
    · rcases hap with hap | hap
      · rcases hc with hc | hc
        · omega
        · exact hn i (by omega) (parent a i) hpal (hap ▸ ha) (hc ▸ hci)
      · rcases hc with hc | hc
        · exact hn i (by omega) (parent a i) hpal (hc ▸ hci) (hap ▸ ha)
        · omega

/-- Two tilings of one interval by tiles of order at most `m` without buddies are the same. -/
theorem Tiling.unique (h : Tiling N T) (h' : Tiling N T') (hm : ∀ a k, T a k → k ≤ m)
    (hm' : ∀ a k, T' a k → k ≤ m) (hn : NoBuddies m T) (hn' : NoBuddies m T') {a k : Nat}
    (ha : T a k) : T' a k := by
  have hpos := Nat.two_pow_pos k
  have hfit := h.fits a k ha
  obtain ⟨b, j, hb, hcov⟩ := h'.cover a (by omega)
  rcases Nat.lt_trichotomy k j with hlt | rfl | hgt
  · -- the other tiling has a larger tile here, which the first one would have cut
    exact absurd hcov
      (h.not_cut hn (h'.aligned b j hb) (h'.fits b j hb) (hm' b j hb) k a ha hlt)
  · have hin := nested (h'.aligned b k hb) (h.aligned a k ha) (Nat.le_refl k) hcov (covers_self a k)
    have heq : b = a := by omega
    exact heq ▸ hb
  · have hin := nested (h.aligned a k ha) (h'.aligned b j hb) (Nat.le_of_lt hgt) (covers_self a k)
      hcov
    have heq : b = a := by
      have hle := hcov.1
      omega
    exact absurd (heq ▸ covers_self a k)
      (h'.not_cut hn' (h.aligned a k ha) hfit (hm a k ha) j b hb hgt)

end Uniks.Dyadic
