/-
  The grammar of the shell, over the tokens that `gettoken` cuts.

  `Lexes s toks s'`: the calls of `gettoken` from `s` on return `toks` and leave `s'`.  The tree of
  a derivation is the one that the grammar assigns: redirections are put around a command in the
  order in which they are read, lists and pipes nest to the right.  What follows in the line is not
  part of a derivation; `IsLine` says that nothing does.
-/
import Mathlib.Data.List.DropRight
import Mathlib.Logic.Function.Iterate
import Mathlib.Tactic.Tauto
import Uniks.Shell

namespace Uniks.Shell

/-! ## Tokens -/

inductive Tok where
  /-- What `gettoken` returns for it; `>>` is `+`. -/
  | op (c : Char)
  | word (w : Word)
  deriving DecidableEq, Repr

def tokOf (ret : Char) (q : Text) : Tok :=
  if ret = 'a' then .word ⟨q, false⟩
  else if ret = 'b' then .word ⟨unquote q, true⟩
  else .op ret

inductive Lexes : Text → List Tok → Text → Prop
  | nil (s : Text) : Lexes s [] (skip s)
  | cons {s q m s' : Text} {ret : Char} {toks : List Tok} (hget : gettoken s = .ok (ret, q, m))
      (hret : ret ≠ '\x00') (hrest : Lexes m toks s') : Lexes s (tokOf ret q :: toks) s'

/-! ## The grammar -/

/-- What the grammar has a rule for; a block is an exec that begins with a parenthesis. -/
inductive Nt where
  | line
  | pipe
  | exec
  | block
  deriving DecidableEq, Repr

def redirOps : Text := ['<', '>', '+']

abbrev Redir := Char × Word

/-- `redir*` -/
inductive Redirs : List Tok → List Redir → Prop
  | nil : Redirs [] []
  | cons {o : Char} {w : Word} {toks : List Tok} {rs : List Redir} (ho : o ∈ redirOps)
      (hrest : Redirs toks rs) : Redirs (.op o :: .word w :: toks) ((o, w) :: rs)

/-- `(word redir*)*` -/
inductive Args : List Tok → List Word → List Redir → Prop
  | nil : Args [] [] []
  | cons {w : Word} {b a : List Tok} {ws : List Word} {rs rs' : List Redir} (hb : Redirs b rs)
      (ha : Args a ws rs') : Args (.word w :: b ++ a) (w :: ws) (rs ++ rs')

def wrap (c : Cmd) (rs : List Redir) : Cmd := rs.foldl (fun c r => redirect r.1 c r.2) c

def backs (k : Nat) (c : Cmd) : Cmd := Cmd.back^[k] c

abbrev amps (k : Nat) : List Tok := List.replicate k (.op '&')

inductive Derives : Nt → List Tok → Cmd → Prop
  | last {a : List Tok} {c : Cmd} (k : Nat) (ha : Derives .pipe a c) :
      Derives .line (a ++ amps k) (backs k c)
  | seq {a b : List Tok} {c d : Cmd} (k : Nat) (ha : Derives .pipe a c) (hb : Derives .line b d) :
      Derives .line (a ++ (amps k ++ .op ';' :: b)) (.list (backs k c) d)
  | one {a : List Tok} {c : Cmd} (ha : Derives .exec a c) : Derives .pipe a c
  | bar {a b : List Tok} {c d : Cmd} (ha : Derives .exec a c) (hb : Derives .pipe b d) :
      Derives .pipe (a ++ .op '|' :: b) (.pipe c d)
  | group {a : List Tok} {c : Cmd} (ha : Derives .block a c) : Derives .exec a c
  | plain {b a : List Tok} {ws : List Word} {rs rs' : List Redir} (hb : Redirs b rs)
      (ha : Args a ws rs') (hlen : ws.length < MAXARGS) :
      Derives .exec (b ++ a) (wrap (.exec ws) (rs ++ rs'))
  | parens {a b : List Tok} {c : Cmd} {rs : List Redir} (ha : Derives .line a c)
      (hb : Redirs b rs) : Derives .block (.op '(' :: (a ++ .op ')' :: b)) (wrap c rs)

/-- The line is one of the grammar, and `t` is its tree. -/
def IsLine (s : Text) (t : Cmd) : Prop := ∃ toks, Lexes s toks [] ∧ Derives .line toks t

/-! ## What one token takes off the line -/

variable {s s' m q : Text} {ret c o : Char} {toks : List Tok} {w : Word} {S : Text}

@[simp] theorem skip_nil : skip [] = [] := rfl

@[simp] theorem skip_skip (s : Text) : skip (skip s) = skip s := List.dropWhile_idempotent _ s

theorem skip_length_le (s : Text) : (skip s).length ≤ s.length :=
  (List.dropWhile_suffix _).length_le

/-- What stands behind the blanks is no blank. -/
theorem not_blank {r : Text} (h : skip s = c :: r) : c ∉ whitespace := by
  intro hc
  have hskip : skip (c :: r) = skip r := by simp [skip, hc]
  have hlen := congrArg List.length (skip_skip s)
  rw [h, hskip, List.length_cons] at hlen
  have hle := skip_length_le r
  omega

@[simp] theorem gettoken_skip (s : Text) : gettoken (skip s) = gettoken s := by
  simp only [gettoken, skip_skip]

theorem Scan.push_ret (c : Char) (r : Scan) : (r.push c).ret = r.ret := rfl
theorem Scan.push_rest (c : Char) (r : Scan) : (r.push c).rest = r.rest := rfl

/-- A scan only moves on, and `ret` can only become `b`. -/
theorem scan_spec (state : Bool) (ret : Char) (s : Text) :
    (scan state ret s).rest.length ≤ s.length
      ∧ ((scan state ret s).ret = ret ∨ (scan state ret s).ret = 'b') := by
  fun_induction scan state ret s with
  | case1 => simp
  | case2 => simp
  | case3 ret c s hc ih => exact ⟨Nat.le_succ_of_le ih.1, ih.2⟩
  | case4 ret c s ih => exact ⟨Nat.le_succ_of_le ih.1, .inr (ih.2.elim id id)⟩

/-- The three kinds of tokens, by the character at which they begin. -/
inductive Cut (s : Text) (ret : Char) (m : Text) : Prop
  | fin (hs : skip s = []) (hret : ret = '\x00') (hm : m = [])
  | op {c : Char} {r : Text} (hs : skip s = c :: r) (hc : c ∈ symbols)
      (hret : ret = c ∨ ret = '+' ∧ c = '>') (hm : m.length ≤ r.length)
  | word {c : Char} {r : Text} (hs : skip s = c :: r) (hc : c ∉ symbols)
      (hret : ret = 'a' ∨ ret = 'b') (hm : m.length ≤ r.length)

theorem gettoken_op {r : Text} (hs : skip s = c :: r) (hc : c ∈ ['|', '(', ')', ';', '&', '<']) :
    gettoken s = .ok (c, [c], skip r) := by
  simp only [gettoken, hs, hc, if_true]

theorem gettoken_cut (h : gettoken s = .ok (ret, q, m)) : Cut s ret m ∧ skip m = m := by
  unfold gettoken at h
  cases hs : skip s with
  | nil =>
    simp only [hs, Except.ok.injEq, Prod.mk.injEq] at h
    obtain ⟨rfl, -, rfl⟩ := h
    exact ⟨.fin hs rfl rfl, rfl⟩
  | cons c r =>
    simp only [hs] at h
    split at h
    · next hc =>
      simp only [Except.ok.injEq, Prod.mk.injEq] at h
      obtain ⟨rfl, -, rfl⟩ := h
      have hsym : c ∈ symbols := by
        revert hc
        simp only [symbols, List.mem_cons]
        tauto
      exact ⟨.op hs hsym (.inl rfl) (skip_length_le r), skip_skip r⟩
    · next hc =>
      split at h
      · next hgt =>
        subst hgt
        split at h <;> simp only [Except.ok.injEq, Prod.mk.injEq] at h <;>
          obtain ⟨rfl, -, rfl⟩ := h
        · refine ⟨.op hs (by decide) (.inr ⟨rfl, rfl⟩) ?_, skip_skip _⟩
          exact le_trans (skip_length_le _) (by simp)
        · exact ⟨.op hs (by decide) (.inl rfl) (skip_length_le r), skip_skip r⟩
      · next hgt =>
        have hsym : c ∉ symbols := by
          simp only [symbols, List.mem_cons] at hc ⊢
          tauto
        have hscan : scan false 'a' (c :: r) = (scan (c = quotmark) 'a' r).push c := by
          rw [scan, if_neg (not_or.mpr ⟨not_blank hs, hsym⟩)]
        have hspec := scan_spec (c = quotmark) 'a' r
        simp only [hscan, Scan.push_ret, Scan.push_rest] at h
        split at h
        · cases h
        · simp only [Except.ok.injEq, Prod.mk.injEq] at h
          obtain ⟨rfl, -, rfl⟩ := h
          exact ⟨.word hs hsym hspec.2 (le_trans (skip_length_le _) hspec.1), skip_skip _⟩

/-! ## Sequences of tokens -/

variable {a b : List Tok}

theorem lexes_skip : Lexes (skip s) toks s' ↔ Lexes s toks s' := by
  constructor <;> intro h
  · generalize hx : skip s = x at h
    cases h with
    | nil =>
      rw [← hx, skip_skip]
      exact .nil s
    | cons hget hret hrest =>
      rw [← hx, gettoken_skip] at hget
      exact .cons hget hret hrest
  · cases h with
    | nil =>
      have hnil := Lexes.nil (skip s)
      rwa [skip_skip] at hnil
    | cons hget hret hrest => exact .cons (by rwa [gettoken_skip]) hret hrest

theorem Lexes.append (h : Lexes s a m) (h' : Lexes m b s') : Lexes s (a ++ b) s' := by
  induction h with
  | nil s => exact lexes_skip.mp h'
  | cons hget hret _ ih => exact .cons hget hret (ih h')

theorem Lexes.split (h : Lexes s (a ++ b) s') : ∃ m, Lexes s a m ∧ Lexes m b s' := by
  induction a generalizing s with
  | nil => exact ⟨skip s, .nil s, lexes_skip.mpr h⟩
  | cons t a ih =>
    cases h with
    | cons hget hret hrest =>
      obtain ⟨m, ha, hb⟩ := ih hrest
      exact ⟨m, .cons hget hret ha, hb⟩

theorem Lexes.single (hget : gettoken s = .ok (ret, q, m)) (hret : ret ≠ '\x00') :
    Lexes s [tokOf ret q] m := by
  have h := Lexes.cons hget hret (.nil m)
  rwa [(gettoken_cut hget).2] at h

theorem Lexes.skip_rest (h : Lexes s toks s') : skip s' = s' := by
  induction h with
  | nil s => exact skip_skip s
  | cons _ _ _ ih => exact ih

/-- Every token takes at least one character. -/
theorem Lexes.length_le (h : Lexes s toks s') : toks.length + s'.length ≤ (skip s).length := by
  induction h with
  | nil s => simp
  | @cons s q m s' ret toks hget hret _ ih =>
    have hskip := skip_length_le m
    rw [List.length_cons]
    obtain ⟨_, h0, _⟩ | ⟨hs, _, _, hm⟩ | ⟨hs, _, _, hm⟩ := (gettoken_cut hget).1
    · exact absurd h0 hret
    all_goals
      rw [hs, List.length_cons]
      omega

/-! ## The next character, and what `peek` sees of it -/

/-- The line goes on with a character of `S`, or is at its end. -/
def Before (S s : Text) : Prop := ∀ c r, skip s = c :: r → c ∈ S

theorem Before.mono {S' : Text} (h : Before S s) (hS : S ⊆ S') : Before S' s :=
  fun c r hs => hS (h c r hs)

theorem before_nil : Before S [] := by
  intro c r hs
  cases hs

theorem peek_of_cons {r toks : Text} (hs : skip s = c :: r) : peek s toks = toks.contains c := by
  simp only [peek, hs]

theorem peek_true {toks : Text} (h : peek s toks = true) : ∃ c r, skip s = c :: r ∧ c ∈ toks := by
  cases hs : skip s with
  | nil =>
    simp only [peek, hs] at h
    cases h
  | cons c r => exact ⟨c, r, rfl, by simpa [peek_of_cons hs] using h⟩

theorem Before.peek {toks : Text} (h : Before S s) (hS : ∀ c ∈ S, c ∉ toks) :
    peek s toks = false := by
  by_contra hne
  obtain ⟨c, r, hs, hc⟩ := peek_true (eq_true_of_ne_false hne)
  exact hS c (h c r hs) hc

/-! ## Operators and words -/

theorem tokOf_op (ha : ret ≠ 'a') (hb : ret ≠ 'b') : tokOf ret q = .op ret := by
  simp only [tokOf, ha, hb, if_false]

/-- The zero is returned at the end of the line only. -/
theorem gettoken_fin (h : gettoken s = .ok ('\x00', q, m)) : m = skip s := by
  obtain ⟨hs, _, hm⟩ | ⟨_, hc, hret, _⟩ | ⟨_, _, hret, _⟩ := (gettoken_cut h).1
  · rw [hs, hm]
  · obtain rfl | ⟨hplus, _⟩ := hret
    · exact absurd hc (by decide)
    · exact absurd hplus (by decide)
  · exact absurd hret (by decide)

theorem ret_of_op (h : tokOf ret q = .op o) : ret = o ∧ ret ≠ 'a' ∧ ret ≠ 'b' := by
  by_cases ha : ret = 'a'
  · simp [tokOf, ha] at h
  by_cases hb : ret = 'b'
  · simp [tokOf, hb] at h
  rw [tokOf_op ha hb, Tok.op.injEq] at h
  exact ⟨h, ha, hb⟩

theorem ret_of_word (h : tokOf ret q = .word w) : ret = 'a' ∨ ret = 'b' := by
  by_contra hne
  rw [tokOf_op (fun ha => hne (.inl ha)) fun hb => hne (.inr hb)] at h
  cases h

theorem not_letter :
    ∀ o ∈ ['|', '(', ')', ';', '&', '<'] ++ redirOps, o ≠ '\x00' ∧ o ≠ 'a' ∧ o ≠ 'b' := by
  simp [redirOps]

/-- An operator that `peek` has seen is the next token. -/
theorem gettoken_peek (h : peek s [o] = true) (ho : o ∈ ['|', '(', ')', ';', '&', '<']) :
    ∃ m, gettoken s = .ok (o, [o], m) ∧ Lexes s [.op o] m := by
  obtain ⟨c, r, hs, hc⟩ := peek_true h
  obtain rfl := List.mem_singleton.mp hc
  have hget := gettoken_op hs ho
  obtain ⟨h0, ha, hb⟩ := not_letter c (List.mem_append_left _ ho)
  have hlex := Lexes.single hget h0
  rw [tokOf_op ha hb] at hlex
  exact ⟨skip r, hget, hlex⟩

theorem gettoken_redir (h : peek s ['<', '>'] = true) :
    ∃ o q m, o ∈ redirOps ∧ gettoken s = .ok (o, q, m) ∧ Lexes s [.op o] m := by
  obtain ⟨c, r, hs, hc⟩ := peek_true h
  have hop : ∃ o q m, o ∈ redirOps ∧ gettoken s = .ok (o, q, m) := by
    simp only [List.mem_cons, List.not_mem_nil, or_false] at hc
    obtain rfl | rfl := hc
    · exact ⟨'<', ['<'], skip r, by decide, gettoken_op hs (by decide)⟩
    · by_cases hr : r.head? = some '>'
      · refine ⟨'+', ['>', '>'], skip r.tail, by decide, ?_⟩
        simp [gettoken, hs, hr]
      · refine ⟨'>', ['>'], skip r, by decide, ?_⟩
        simp [gettoken, hs, hr]
  obtain ⟨o, q, m, ho, hget⟩ := hop
  obtain ⟨h0, ha, hb⟩ := not_letter o (List.mem_append_right _ ho)
  have hlex := Lexes.single hget h0
  rw [tokOf_op ha hb] at hlex
  exact ⟨o, q, m, ho, hget, hlex⟩

theorem Lexes.next {t : Tok} (h : Lexes s (t :: toks) s') :
    ∃ ret q m, gettoken s = .ok (ret, q, m) ∧ ret ≠ '\x00' ∧ tokOf ret q = t
      ∧ Lexes m toks s' := by
  generalize ht : t :: toks = l at h
  cases h with
  | nil => cases ht
  | @cons _ q m _ ret _ hget hret hrest =>
    obtain ⟨htok, rfl⟩ := List.cons.inj ht
    exact ⟨ret, q, m, hget, hret, htok.symm, hrest⟩

theorem Lexes.op_next (h : Lexes s (.op o :: toks) s') :
    ∃ q m, gettoken s = .ok (o, q, m) ∧ Lexes m toks s' := by
  obtain ⟨ret, q, m, hget, -, htok, hrest⟩ := h.next
  obtain ⟨rfl, -, -⟩ := ret_of_op htok
  exact ⟨q, m, hget, hrest⟩

theorem Lexes.word_next (h : Lexes s (.word w :: toks) s') :
    ∃ ret q m, tokOf ret q = .word w ∧ gettoken s = .ok (ret, q, m) ∧ Lexes m toks s' := by
  obtain ⟨ret, q, m, hget, -, htok, hrest⟩ := h.next
  exact ⟨ret, q, m, htok, hget, hrest⟩

theorem Lexes.op_head (h : Lexes s (.op o :: toks) s') :
    ∃ c r, skip s = c :: r ∧ c ∈ symbols ∧ (o = c ∨ o = '+' ∧ c = '>') := by
  obtain ⟨ret, q, m, hget, hret, htok, -⟩ := h.next
  obtain ⟨rfl, ha, hb⟩ := ret_of_op htok
  obtain ⟨_, h0, _⟩ | ⟨hs, hc, ho, _⟩ | ⟨_, _, hw, _⟩ := (gettoken_cut hget).1
  · exact absurd h0 hret
  · exact ⟨_, _, hs, hc, ho⟩
  · exact absurd hw (not_or.mpr ⟨ha, hb⟩)

theorem Lexes.word_head (h : Lexes s (.word w :: toks) s') :
    ∃ c r, skip s = c :: r ∧ c ∉ symbols := by
  obtain ⟨ret, q, m, hget, hret, htok, -⟩ := h.next
  obtain ⟨_, h0, _⟩ | ⟨_, hc, ho, _⟩ | ⟨hs, hc, _, _⟩ := (gettoken_cut hget).1
  · exact absurd h0 hret
  · have hw := ret_of_word htok
    have hsym : 'a' ∉ symbols ∧ 'b' ∉ symbols := by decide
    obtain rfl | ⟨rfl, _⟩ := ho
    · obtain rfl | rfl := hw
      · exact absurd hc hsym.1
      · exact absurd hc hsym.2
    · exact absurd hw (by decide)
  · exact ⟨_, _, hs, hc⟩

end Uniks.Shell
