/-
  Postconditions for programs that may fail.

  `Meets allowed x post`: if `x` returns, its result meets `post`; if it fails, the failure is one
  that is allowed.  With `allowed := fun _ => True` this is partial correctness; with a set of
  allowed failures it says as well which failures never happen.  A proof walks along the program
  with `Meets.bind`, and goes round a loop with `Meets.foldlM`, whose invariant knows the part of
  the list that has been done.

  It is a structure, so that no tactic runs the program to see what is asked of it.
-/
import Mathlib.Data.List.Basic

namespace Uniks.Hoare

variable {ε α β σ : Type} {allowed : ε → Prop}

@[simp] theorem ok_bind (a : α) (f : α → Except ε β) : (Except.ok a >>= f) = f a := rfl

@[simp] theorem error_bind (e : ε) (f : α → Except ε β) :
    (Except.error e >>= f) = Except.error e := rfl

/-- A sequence that returns has returned at both of its parts. -/
theorem ok_of_bind {x : Except ε α} {f : α → Except ε β} {b : β} (h : (x >>= f) = .ok b) :
    ∃ a, x = .ok a ∧ f a = .ok b := by
  cases x with
  | ok a => exact ⟨a, rfl, h⟩
  | error e => cases h

/-- Whether a program returns, and with what, is computed. -/
instance decidableReturns {x : Except ε α} {p : α → Prop} [DecidablePred p] :
    Decidable (∃ a, x = .ok a ∧ p a) :=
  match x with
  | .ok a => decidable_of_iff (p a) ⟨fun hp => ⟨a, rfl, hp⟩, fun ⟨_, heq, hp⟩ => by cases heq; exact hp⟩
  | .error _ => isFalse fun ⟨_, heq, _⟩ => nomatch heq

theorem ok_of_toOption {x : Except ε α} {a : α} (h : x.toOption = some a) : x = .ok a := by
  cases x with
  | ok b =>
    cases h
    rfl
  | error e => cases h

/-- What a program that may fail is required to do. -/
structure Meets (allowed : ε → Prop) (x : Except ε α) (post : α → Prop) : Prop where
  of_ok : ∀ {a}, x = .ok a → post a
  of_error : ∀ {e}, x = .error e → allowed e

theorem Meets.ok {a : α} {post : α → Prop} (h : post a) :
    Meets allowed (.ok a : Except ε α) post := by
  refine ⟨fun heq => ?_, fun heq => nomatch heq⟩
  rw [Except.ok.injEq] at heq
  exact heq ▸ h

theorem Meets.pure {a : α} {post : α → Prop} (h : post a) :
    Meets allowed (Pure.pure a : Except ε α) post := Meets.ok h

theorem Meets.error {e : ε} {post : α → Prop} (h : allowed e) :
    Meets allowed (.error e : Except ε α) post := by
  refine ⟨fun heq => (nomatch heq), fun heq => ?_⟩
  rw [Except.error.injEq] at heq
  exact heq ▸ h

theorem Meets.bind {x : Except ε α} {f : α → Except ε β} {mid : α → Prop} {post : β → Prop}
    (hx : Meets allowed x mid) (hf : ∀ a, mid a → Meets allowed (f a) post) :
    Meets allowed (x >>= f) post := by
  cases x with
  | ok a => exact hf a (hx.of_ok rfl)
  | error e => exact .error (hx.of_error rfl)

theorem Meets.mono {x : Except ε α} {post post' : α → Prop} (hx : Meets allowed x post)
    (h : ∀ a, post a → post' a) : Meets allowed x post' :=
  ⟨fun heq => h _ (hx.of_ok heq), hx.of_error⟩

/-- Two facts about the result. -/
theorem Meets.and {allowed' : ε → Prop} {x : Except ε α} {post post' : α → Prop}
    (hx : Meets allowed x post) (hx' : Meets allowed' x post') :
    Meets allowed x fun a => post a ∧ post' a :=
  ⟨fun heq => ⟨hx.of_ok heq, hx'.of_ok heq⟩, hx.of_error⟩

/-- More failures are allowed. -/
theorem Meets.weaken {allowed' : ε → Prop} {x : Except ε α} {post : α → Prop}
    (hx : Meets allowed x post) (h : ∀ e, allowed e → allowed' e) : Meets allowed' x post :=
  ⟨hx.of_ok, fun heq => h _ (hx.of_error heq)⟩

/-- Only the runs that return are looked at. -/
theorem Meets.lax {x : Except ε α} {post : α → Prop} (hx : Meets allowed x post) :
    Meets (fun _ => True) x post := hx.weaken fun _ _ => trivial

theorem Meets.ite {c : Prop} [Decidable c] {x y : Except ε α} {post : α → Prop}
    (hx : c → Meets allowed x post) (hy : ¬ c → Meets allowed y post) :
    Meets allowed (if c then x else y) post := by
  by_cases h : c
  · rw [if_pos h]
    exact hx h
  · rw [if_neg h]
    exact hy h

/-- Partial correctness, from the runs that return. -/
theorem Meets.partial_intro {x : Except ε α} {post : α → Prop} (h : ∀ a, x = .ok a → post a) :
    Meets (fun _ => True) x post :=
  ⟨fun heq => h _ heq, fun _ => trivial⟩

/-- Nothing is known of the result. -/
theorem Meets.any {x : Except ε α} : Meets (fun _ => True) x fun _ => True :=
  Meets.partial_intro fun _ _ => trivial

/-- What comes first is only known to have returned. -/
theorem Meets.after {x : Except ε α} {f : α → Except ε β} {post : β → Prop}
    (hf : ∀ a, Meets (fun _ => True) (f a) post) : Meets (fun _ => True) (x >>= f) post :=
  Meets.any.bind fun a _ => hf a

/-- The loop rule: `inv done st` holds in front of the element that follows `done`. -/
theorem Meets.foldlM {f : σ → α → Except ε σ} {l : List α} {st : σ} (inv : List α → σ → Prop)
    (h0 : inv [] st)
    (hstep : ∀ done a rest st, l = done ++ a :: rest → inv done st →
      Meets allowed (f st a) (inv (done ++ [a]))) :
    Meets allowed (l.foldlM f st) (inv l) := by
  have hgo : ∀ rest done st, l = done ++ rest → inv done st →
      Meets allowed (rest.foldlM f st) (inv l) := by
    intro rest
    induction rest with
    | nil =>
      intro done st hl hinv
      rw [List.append_nil] at hl
      exact .pure (hl ▸ hinv)
    | cons a rest ih =>
      intro done st hl hinv
      rw [List.foldlM_cons]
      refine .bind (hstep done a rest st hl hinv) fun st' hst' => ?_
      refine ih (done ++ [a]) st' ?_ hst'
      rw [List.append_assoc, List.singleton_append]
      exact hl
  exact hgo l [] st rfl h0

end Uniks.Hoare
