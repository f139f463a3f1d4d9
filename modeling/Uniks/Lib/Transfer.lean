/-
  Cells of one memory copied to others of it, one after another.

  `transfer m src dst n` copies cell `src 0` to `dst 0`, then `src 1` to `dst 1` and so on, for `n`
  cells; a cell that has been written is read as written.  What is left in a cell is what was
  copied to it last (`transfer_last`), provided that no cell is both read and written.
-/
import Mathlib.Logic.Function.Basic

namespace Uniks.Transfer

variable {α β : Type} [DecidableEq α]

def transfer (m : α → β) (src dst : Nat → α) : Nat → α → β
  | 0 => m
  | n + 1 => Function.update (transfer m src dst n) (dst n) (transfer m src dst n (src n))

variable {m : α → β} {src dst src' dst' : Nat → α} {n : Nat} {p : α}

@[simp] theorem transfer_zero (m : α → β) (src dst : Nat → α) : transfer m src dst 0 = m := rfl

theorem transfer_succ (m : α → β) (src dst : Nat → α) (n : Nat) :
    transfer m src dst (n + 1)
      = Function.update (transfer m src dst n) (dst n) (transfer m src dst n (src n)) := rfl

/-- Two transfers, the second from where the first has ended. -/
theorem transfer_add (m : α → β) (src dst : Nat → α) (a b : Nat) :
    transfer m src dst (a + b)
      = transfer (transfer m src dst a) (fun i => src (a + i)) (fun i => dst (a + i)) b := by
  induction b with
  | zero => rfl
  | succ b ih => rw [← Nat.add_assoc, transfer_succ, transfer_succ, ih]

/-- Only the cells named count. -/
theorem transfer_congr (hsrc : ∀ i, i < n → src i = src' i) (hdst : ∀ i, i < n → dst i = dst' i) :
    transfer m src dst n = transfer m src' dst' n := by
  induction n with
  | zero => rfl
  | succ n ih =>
    rw [transfer_succ, transfer_succ, hsrc n (Nat.lt_succ_self n), hdst n (Nat.lt_succ_self n),
      ih (fun i hi => hsrc i (Nat.lt_succ_of_lt hi)) fun i hi => hdst i (Nat.lt_succ_of_lt hi)]

/-- A cell that nothing is copied to keeps what it holds. -/
theorem transfer_frame (h : ∀ i, i < n → p ≠ dst i) : transfer m src dst n p = m p := by
  induction n with
  | zero => rfl
  | succ n ih =>
    rw [transfer_succ, Function.update_of_ne (h n (Nat.lt_succ_self n))]
    exact ih fun i hi => h i (Nat.lt_succ_of_lt hi)

/-- A cell holds what was copied to it last. -/
theorem transfer_last (m : α → β) (src dst : Nat → α)
    (hapart : ∀ i, i < n → ∀ j, j < n → src i ≠ dst j) {i : Nat} (hi : i < n)
    (hlast : ∀ j, j < n → i < j → dst j ≠ dst i) : transfer m src dst n (dst i) = m (src i) := by
  induction n with
  | zero => exact absurd hi (Nat.not_lt_zero i)
  | succ n ih =>
    rw [transfer_succ]
    by_cases hin : i = n
    · subst hin
      rw [Function.update_self, transfer_frame]
      exact fun j hj => hapart i hi j (Nat.lt_succ_of_lt hj)
    · have hlt : i < n := by omega
      rw [Function.update_of_ne (hlast n (Nat.lt_succ_self n) hlt).symm]
      exact ih (fun k hk j hj => hapart k (Nat.lt_succ_of_lt hk) j (Nat.lt_succ_of_lt hj)) hlt
        fun j hj => hlast j (Nat.lt_succ_of_lt hj)

/-- Where no cell is written twice, all of them hold what was copied to them. -/
theorem transfer_self (m : α → β) (src dst : Nat → α)
    (hapart : ∀ i, i < n → ∀ j, j < n → src i ≠ dst j)
    (hinj : ∀ i, i < n → ∀ j, j < n → dst i = dst j → i = j) {i : Nat} (hi : i < n) :
    transfer m src dst n (dst i) = m (src i) := by
  apply transfer_last m src dst hapart hi
  intro j hj hlt heq
  have hsame := hinj j hj i hi heq
  omega

end Uniks.Transfer
