/-
  Two programs that may fail, side by side.

  `Agree R x y`: the programs end in the same way, with the same failure or with results that `R`
  relates.  A proof walks along both at once with `Agree.bind` and `Agree.ite`; what is known of a
  run of the one is carried over to the other with `Agree.of_left` and `Agree.of_right`.
-/
import Mathlib.Logic.Relation

namespace Uniks.Lockstep

variable {ε α α' β β' : Type} {R : α → α' → Prop} {S : β → β' → Prop}

inductive Agree (R : α → α' → Prop) : Except ε α → Except ε α' → Prop
  | ok {a : α} {b : α'} (h : R a b) : Agree R (.ok a) (.ok b)
  | error (e : ε) : Agree R (.error e) (.error e)

theorem Agree.bind {x : Except ε α} {y : Except ε α'} {f : α → Except ε β} {g : α' → Except ε β'}
    (h : Agree R x y) (hf : ∀ a b, R a b → Agree S (f a) (g b)) : Agree S (x >>= f) (y >>= g) := by
  cases h with
  | ok h => exact hf _ _ h
  | error e => exact Agree.error e

/-- The first program goes on where the second is done. -/
theorem Agree.bind_left {S : β → α' → Prop} {x : Except ε α} {y : Except ε α'}
    {f : α → Except ε β} (h : Agree R x y) (hf : ∀ a b, R a b → Agree S (f a) (.ok b)) :
    Agree S (x >>= f) y := by
  cases h with
  | ok h => exact hf _ _ h
  | error e => exact Agree.error e

/-- Both programs go the same way. -/
theorem Agree.ite {p p' : Prop} [Decidable p] [Decidable p'] {x x' : Except ε α}
    {y y' : Except ε α'} (hp : p ↔ p') (hx : p → Agree R x y) (hy : ¬ p → Agree R x' y') :
    Agree R (if p then x else x') (if p' then y else y') := by
  by_cases h : p
  · rw [if_pos h, if_pos (hp.mp h)]
    exact hx h
  · rw [if_neg h, if_neg fun h' => h (hp.mpr h')]
    exact hy h

theorem Agree.mono {R' : α → α' → Prop} {x : Except ε α} {y : Except ε α'} (h : Agree R x y)
    (hR : ∀ a b, R a b → R' a b) : Agree R' x y := by
  cases h with
  | ok h => exact Agree.ok (hR _ _ h)
  | error e => exact Agree.error e

theorem Agree.of_left {x : Except ε α} {y : Except ε α'} {a : α} (h : Agree R x y)
    (hx : x = .ok a) : ∃ b, y = .ok b ∧ R a b := by
  cases h with
  | ok h =>
    cases hx
    exact ⟨_, rfl, h⟩
  | error e => cases hx

theorem Agree.of_right {x : Except ε α} {y : Except ε α'} {b : α'} (h : Agree R x y)
    (hy : y = .ok b) : ∃ a, x = .ok a ∧ R a b := by
  cases h with
  | ok h =>
    cases hy
    exact ⟨_, rfl, h⟩
  | error e => cases hy

end Uniks.Lockstep
