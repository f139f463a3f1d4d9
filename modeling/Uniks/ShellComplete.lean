/-
  The shell's parser finds the tree of every derivation.

  Given a derivation and a line that begins with its tokens, the routine for it returns its tree and
  stands behind it, provided that what follows does not go on with it (`follow`).  It may instead
  run out of fuel, or write behind a buffer if one of the words is too long.  In the same way a
  routine never gets past a word that is too long where it reads one (`reads_fails`).

  A line is consumed by steps: an operator or a word at its front, and the routine goes on behind
  it.
-/
import Uniks.ShellSound

namespace Uniks.Shell

open Uniks.Hoare

variable {s s' m q : Text} {c d t : Cmd} {o x : Char} {w : Word} {a b toks u : List Tok}
  {ws : List Word} {rs : List Redir} {S : Text} {L : Prop} {n argc k : Nat}

/-- How a run that is not refused may stop; `L` stands for a word that is too long. -/
def Stops (L : Prop) (e : Stop) : Prop := e = .fuel ∨ e = .overrun ∧ L

theorem stops_fuel {α : Type} {post : α → Prop} :
    Meets (Stops L) (.error .fuel : Parse α) post :=
  Meets.error (.inl rfl)

theorem stops_overrun {α : Type} {post : α → Prop} (h : L) :
    Meets (Stops L) (.error .overrun : Parse α) post :=
  Meets.error (.inr ⟨rfl, h⟩)

/-! ## The character in front of a token -/

theorem before_skip : Before S (skip s) ↔ Before S s := by
  unfold Before
  rw [skip_skip]

theorem peek_skip (s toks : Text) : peek (skip s) toks = peek s toks := by
  unfold peek
  rw [skip_skip]

theorem lexes_nil_iff : Lexes s [] s' ↔ s' = skip s := by
  constructor
  · intro h
    cases h
    rfl
  · rintro rfl
    exact .nil s

theorem before_op (hs : Lexes s (.op o :: toks) s') (ho : o ≠ '+') : Before [o] s := by
  obtain ⟨c, r, hc, -, hoc⟩ := hs.op_head
  obtain rfl := hoc.resolve_right fun h => ho h.1
  intro c' r' hs'
  rw [hc] at hs'
  obtain ⟨rfl, -⟩ := List.cons.inj hs'
  exact List.mem_singleton_self _

theorem peek_op (hs : Lexes s (.op o :: toks) s') (ho : o ≠ '+') : peek s [o] = true := by
  obtain ⟨c, r, hc, -, hoc⟩ := hs.op_head
  obtain rfl := hoc.resolve_right fun h => ho h.1
  rw [peek_of_cons hc]
  simp

theorem before_redir (hs : Lexes s (.op o :: toks) s') (ho : o ∈ redirOps) :
    Before ['<', '>'] s ∧ peek s ['<', '>'] = true := by
  obtain ⟨c, r, hc, hsym, hoc⟩ := hs.op_head
  have hone : ∀ x ∈ symbols, x ∈ redirOps → x ∈ ['<', '>'] := by simp [symbols, redirOps]
  have hmem : c ∈ ['<', '>'] := by
    obtain rfl | ⟨-, rfl⟩ := hoc
    · exact hone o hsym ho
    · decide
  refine ⟨fun c' r' hs' => ?_, ?_⟩
  · rw [hc] at hs'
    obtain ⟨rfl, -⟩ := List.cons.inj hs'
    exact hmem
  · rw [peek_of_cons hc]
    simpa using hmem

theorem peek_word (hs : Lexes s (.word w :: toks) s') (hS : S ⊆ symbols) : peek s S = false := by
  obtain ⟨c, r, hc, hsym⟩ := hs.word_head
  rw [peek_of_cons hc]
  simpa using fun h => hsym (hS h)

theorem before_amps (hs : Lexes s (amps k) s') (h : Before S s') : Before ('&' :: S) s := by
  cases k with
  | zero =>
    obtain rfl := lexes_nil_iff.mp hs
    exact (before_skip.mp h).mono (List.subset_cons_self _ _)
  | succ k => exact (before_op hs (by decide)).mono (by simp)

/-! ## Steps of the loops -/

theorem parseredirs_done (h : peek s ['<', '>'] = false) :
    parseredirs (n + 1) c s = .ok (c, skip s) := by
  rw [parseredirs, h]
  rfl

theorem parseredirs_step (n : Nat) (c : Cmd) (ho : o ∈ redirOps)
    (hs : Lexes s (.op o :: .word w :: toks) s') :
    ∃ m, Lexes m toks s' ∧ parseredirs (n + 1) c s
      = if w.Fits then parseredirs n (redirect o c w) m else .error .overrun := by
  obtain ⟨q, m, hget, hrest⟩ := hs.op_next
  obtain ⟨ret, q', m', htok, hget', hrest'⟩ := hrest.word_next
  refine ⟨m', hrest', ?_⟩
  rw [parseredirs, if_pos (before_redir hs ho).2, gettoken_skip]
  simp only [hget, ok_bind, hget', wordOf_word _ htok]
  split <;> rfl

theorem parseargs_step (n argc : Nat) (c : Cmd) (hs : Lexes s (.word w :: toks) s') :
    ∃ m, Lexes m toks s' ∧ parseargs (n + 1) argc c s
      = if w.Fits then
          if argc + 1 ≥ MAXARGS then .error (.panic "too many args")
          else do
            let (ret, s) ← parseredirs n (pushArg c w) m
            parseargs n (argc + 1) ret s
        else .error .overrun := by
  obtain ⟨ret, q, m, htok, hget, hrest⟩ := hs.word_next
  have hret : ret ≠ '\x00' := by
    obtain rfl | rfl := ret_of_word htok <;> decide
  refine ⟨m, hrest, ?_⟩
  rw [parseargs, peek_word hs (by simp [symbols]), gettoken_skip]
  simp only [hget, ok_bind, hret, wordOf_word _ htok, if_false, Bool.false_eq_true]
  by_cases hfit : w.Fits
  · rw [if_pos hfit, if_pos hfit]
    rfl
  · rw [if_neg hfit, if_neg hfit]
    rfl

theorem parsebacks_complete (hs : Lexes s (amps k) s') (hnext : peek s' ['&'] = false) :
    Meets (Stops L) (parsebacks n c s) (· = (backs k c, s')) := by
  induction k generalizing n c s with
  | zero =>
    obtain rfl := lexes_nil_iff.mp hs
    rw [peek_skip] at hnext
    cases n with
    | zero => exact stops_fuel
    | succ n =>
      rw [parsebacks, hnext]
      exact .ok rfl
  | succ k ih =>
    cases n with
    | zero => exact stops_fuel
    | succ n =>
      obtain ⟨q, m, hget, hrest⟩ := hs.op_next
      rw [parsebacks, if_pos (peek_op hs (by decide)), gettoken_skip]
      simp only [hget, ok_bind]
      exact ih hrest

theorem parseredirs_complete (hb : Redirs b rs) (hs : Lexes s b s')
    (hnext : peek s' ['<', '>'] = false) (hL : ∀ w, .word w ∈ b → ¬ w.Fits → L) :
    Meets (Stops L) (parseredirs n c s) (· = (wrap c rs, s')) := by
  induction hb generalizing n c s with
  | nil =>
    obtain rfl := lexes_nil_iff.mp hs
    rw [peek_skip] at hnext
    cases n with
    | zero => exact stops_fuel
    | succ n =>
      rw [parseredirs_done hnext]
      exact .ok rfl
  | @cons o w b rs ho _ ih =>
    cases n with
    | zero => exact stops_fuel
    | succ n =>
      obtain ⟨m, hrest, hstep⟩ := parseredirs_step n c ho hs
      rw [hstep]
      refine .ite (fun _ => ?_) fun hfit => stops_overrun (hL w (by simp) hfit)
      exact ih hrest fun w' hw' => hL w' (by simp [hw'])

theorem parseredirs_fails (hu : ReadsRedirs u) (hs : Lexes s (u ++ [.word w]) s')
    (hw : ¬ w.Fits) : Meets (Stops True) (parseredirs n c s) fun _ => False := by
  induction hu generalizing n c s with
  | @file o ho =>
    cases n with
    | zero => exact stops_fuel
    | succ n =>
      obtain ⟨m, -, hstep⟩ := parseredirs_step n c ho hs
      rw [hstep, if_neg hw]
      exact stops_overrun trivial
  | @next o w' u ho _ ih =>
    cases n with
    | zero => exact stops_fuel
    | succ n =>
      obtain ⟨m, hrest, hstep⟩ := parseredirs_step n c ho hs
      rw [hstep]
      exact .ite (fun _ => ih hrest) fun _ => stops_overrun trivial

theorem parseargs_done (hend : Before ['|', '&', ';', ')'] s) :
    parseargs (n + 1) argc c s = .ok (c, skip s) := by
  rw [parseargs]
  split
  · rfl
  · next hpeek =>
    -- `peek` has seen none of the characters that may follow, so there is nothing left
    have hnil : skip s = [] := by
      cases hs : skip s with
      | nil => rfl
      | cons x r =>
        have hx : x ∈ ['|', '&', ';', ')'] := hend x r hs
        rw [peek_of_cons hs] at hpeek
        have hmem : ∀ x ∈ ['|', '&', ';', ')'], x ∈ ['|', ')', '&', ';'] := by simp
        exact absurd (List.contains_iff_mem.mpr (hmem x hx)) hpeek
    have hget : gettoken s = .ok ('\x00', [], []) := by simp only [gettoken, hnil]
    rw [gettoken_skip, hget, hnil]
    rfl

/-- Words stand in front of what follows, not redirections. -/
theorem Args.no_redir (ha : Args a ws rs) (hs : Lexes s a s')
    (hend : Before ['|', '&', ';', ')'] s') : peek s ['<', '>'] = false := by
  cases ha with
  | nil =>
    obtain rfl := lexes_nil_iff.mp hs
    exact (before_skip.mp hend).peek (by simp)
  | cons hb ha => exact peek_word hs (by simp [symbols])

theorem parseargs_complete (ha : Args a ws rs) (hs : Lexes s a s')
    (hend : Before ['|', '&', ';', ')'] s') (hargc : argc + ws.length < MAXARGS)
    (hL : ∀ w, .word w ∈ a → ¬ w.Fits → L) :
    Meets (Stops L) (parseargs n argc c s) (· = (wrap (ws.foldl pushArg c) rs, s')) := by
  induction ha generalizing n argc c s with
  | nil =>
    obtain rfl := lexes_nil_iff.mp hs
    cases n with
    | zero => exact stops_fuel
    | succ n =>
      rw [parseargs_done (before_skip.mp hend)]
      exact .ok rfl
  | @cons w b a _ rs rs' hb ha ih =>
    rw [List.length_cons] at hargc
    cases n with
    | zero => exact stops_fuel
    | succ n =>
      obtain ⟨m, hrest, hstep⟩ := parseargs_step n argc c hs
      obtain ⟨m', hb', ha'⟩ := hrest.split
      rw [hstep]
      refine .ite (fun _ => ?_) fun hfit => stops_overrun (hL w (by simp) hfit)
      rw [if_neg (by omega)]
      refine (parseredirs_complete hb hb' (ha.no_redir ha' hend)
        fun w' hw' => hL w' (by simp [hw'])).bind ?_
      rintro _ rfl
      have hgo := @ih m' (wrap (pushArg c w) rs) n (argc + 1) ha' (by omega)
        fun w' hw' => hL w' (by simp [hw'])
      rw [pushArgs_wrap, ← wrap_append] at hgo
      exact hgo

/-- Where a word is read, a word stands next. -/
theorem ReadsArgs.word (hu : ReadsArgs argc u) (w : Word) :
    ∃ w' toks, u ++ [.word w] = .word w' :: toks := by
  cases hu with
  | arg => exact ⟨w, [], rfl⟩
  | file hargc hu => exact ⟨_, _, rfl⟩
  | next hargc hb hu => exact ⟨_, _, rfl⟩

theorem ReadsArgs.peek (hu : ReadsArgs argc u) (hs : Lexes s (u ++ [.word w]) s')
    (hS : S ⊆ symbols) : peek s S = false := by
  obtain ⟨w', toks, hcons⟩ := hu.word w
  rw [hcons] at hs
  exact peek_word hs hS

theorem parseargs_fails (hu : ReadsArgs argc u) (hs : Lexes s (u ++ [.word w]) s')
    (hw : ¬ w.Fits) : Meets (Stops True) (parseargs n argc c s) fun _ => False := by
  induction hu generalizing n c s with
  | @arg argc =>
    cases n with
    | zero => exact stops_fuel
    | succ n =>
      obtain ⟨m, -, hstep⟩ := parseargs_step n argc c hs
      rw [hstep, if_neg hw]
      exact stops_overrun trivial
  | @file argc w' u hargc hu =>
    cases n with
    | zero => exact stops_fuel
    | succ n =>
      obtain ⟨m, hrest, hstep⟩ := parseargs_step n argc c hs
      rw [hstep]
      refine .ite (fun _ => ?_) fun _ => stops_overrun trivial
      rw [if_neg (Nat.not_le.mpr hargc)]
      exact (parseredirs_fails hu hrest hw).bind fun _ => False.elim
  | @next argc w' b u rs hargc hb hu ih =>
    cases n with
    | zero => exact stops_fuel
    | succ n =>
      rw [List.append_assoc] at hs
      obtain ⟨m, hrest, hstep⟩ := parseargs_step n argc c hs
      obtain ⟨m', hb', hu'⟩ := hrest.split
      rw [hstep]
      refine .ite (fun _ => ?_) fun _ => stops_overrun trivial
      rw [if_neg (Nat.not_le.mpr hargc)]
      refine (parseredirs_complete hb hb' (hu.peek hu' (by simp [symbols])) fun _ _ _ => trivial).bind ?_
      rintro _ rfl
      exact ih hu'

/-! ## Steps of the routines -/

/-- What the routine for `nt` leaves to its callers. -/
def follow : Nt → Text
  | .line => [')']
  | .pipe => ['&', ';', ')']
  | .exec => ['|', '&', ';', ')']
  | .block => ['|', '&', ';', ')']

/-- The routine for `nt` returns `t` and leaves `s'`, given fuel and room in the buffers. -/
def Gives (L : Prop) (n : Nat) (nt : Nt) (s : Text) (t : Cmd) (s' : Text) : Prop :=
  Meets (Stops L) (parse nt n s) (· = (t, s'))

/-- `parseline` as far as a semicolon. -/
theorem parseline_front {post : Cmd × Text → Prop}
    (hpipe : ∀ m, Lexes s a m → Before (follow .pipe) m → Gives L n .pipe s c m)
    (hs : Lexes s (a ++ (amps k ++ .op ';' :: toks)) s')
    (hright : ∀ m, Lexes m toks s' →
      Meets (Stops L) (parse .line n m) fun r => post (.list (backs k c) r.1, r.2)) :
    Meets (Stops L) (parseline (n + 1) s) post := by
  obtain ⟨m, ha, hrest⟩ := hs.split
  obtain ⟨m', hk, hsemi⟩ := hrest.split
  have hend : Before [';'] m' := before_op hsemi (by decide)
  have hm : Before (follow .pipe) m := (before_amps hk hend).mono (by simp [follow])
  rw [parseline]
  refine (hpipe m ha hm).bind ?_
  rintro _ rfl
  refine (parsebacks_complete hk (hend.peek (by simp))).bind ?_
  rintro _ rfl
  obtain ⟨q, r, hget, hleft⟩ := hsemi.op_next
  simp only [peek_op hsemi (by decide), if_true, gettoken_skip, hget, ok_bind]
  refine (hright r hleft).bind ?_
  rintro ⟨d, s''⟩ hpost
  exact .ok hpost

/-- `parsepipe` as far as a bar. -/
theorem parsepipe_front {post : Cmd × Text → Prop}
    (hexec : ∀ m, Lexes s a m → Before (follow .exec) m → Gives L n .exec s c m)
    (hs : Lexes s (a ++ .op '|' :: toks) s')
    (hright : ∀ m, Lexes m toks s' →
      Meets (Stops L) (parse .pipe n m) fun r => post (.pipe c r.1, r.2)) :
    Meets (Stops L) (parsepipe (n + 1) s) post := by
  obtain ⟨m, ha, hbar⟩ := hs.split
  have hm : Before (follow .exec) m := (before_op hbar (by decide)).mono (by simp [follow])
  rw [parsepipe]
  refine (hexec m ha hm).bind ?_
  rintro _ rfl
  obtain ⟨q, r, hget, hleft⟩ := hbar.op_next
  simp only [peek_op hbar (by decide), if_true, gettoken_skip, hget, ok_bind]
  refine (hright r hleft).bind ?_
  rintro ⟨d, s''⟩ hpost
  exact .ok hpost

/-- `parseblock` as far as the parenthesis that closes it. -/
theorem parseblock_front {post : Cmd × Text → Prop}
    (hline : ∀ m m', Lexes m a m' → Before (follow .line) m' → Gives L n .line m c m')
    (hs : Lexes s (.op '(' :: (a ++ .op ')' :: toks)) s')
    (hredirs : ∀ m, Lexes m toks s' → Meets (Stops L) (parseredirs n c m) post) :
    Meets (Stops L) (parseblock (n + 1) s) post := by
  obtain ⟨q, m, hget, hrest⟩ := hs.op_next
  obtain ⟨m', ha, hclose⟩ := hrest.split
  obtain ⟨q', r, hget', hleft⟩ := hclose.op_next
  rw [parseblock, if_neg (not_not.mpr (peek_op hs (by decide))), gettoken_skip]
  simp only [hget, ok_bind]
  refine (hline m m' ha (before_op hclose (by decide))).bind ?_
  rintro _ rfl
  simp only [peek_op hclose (by decide), not_true, if_false, gettoken_skip, hget', ok_bind]
  exact hredirs r hleft

/-- `parseexec` behind the redirections at its front. -/
theorem parseexec_front {post : Cmd × Text → Prop} (hb : Redirs b rs)
    (hs : Lexes s (b ++ toks) s') (hL : ∀ w, .word w ∈ b → ¬ w.Fits → L)
    (hnext : ∀ m, Lexes m toks s' → peek m ['('] = false ∧ peek m ['<', '>'] = false)
    (hargs : ∀ m, Lexes m toks s' →
      Meets (Stops L) (parseargs n 0 (wrap (.exec []) rs) m) post) :
    Meets (Stops L) (parseexec (n + 1) s) post := by
  obtain ⟨m, hb', hrest⟩ := hs.split
  have hopen : peek s ['('] = false := by
    cases hb with
    | nil =>
      obtain rfl := lexes_nil_iff.mp hb'
      rw [← peek_skip]
      exact (hnext _ hrest).1
    | cons ho _ => exact (before_redir hb' ho).1.peek (by simp)
  rw [parseexec, hopen]
  refine (parseredirs_complete hb (lexes_skip.mpr hb') (hnext m hrest).2 hL).bind ?_
  rintro _ rfl
  exact hargs m hrest

/-! ## Derivations -/

theorem meets_of_succ {nt : Nt} {post : Cmd × Text → Prop}
    (h : ∀ n, Meets (Stops L) (parse nt (n + 1) s) post) (n : Nat) :
    Meets (Stops L) (parse nt n s) post := by
  cases n with
  | zero => cases nt <;> exact stops_fuel
  | succ n => exact h n

theorem parse_complete {nt : Nt} (h : Derives nt toks t) (n : Nat) (hs : Lexes s toks s')
    (hend : Before (follow nt) s') (hL : ∀ w, .word w ∈ toks → ¬ w.Fits → L) :
    Gives L n nt s t s' := by
  induction h generalizing n s s' with
  | @last a c k ha ih =>
    apply meets_of_succ
    intro n
    obtain ⟨m, ha', hk⟩ := hs.split
    have hm : Before (follow .pipe) m := (before_amps hk hend).mono (by simp [follow])
    show Meets _ (parseline (n + 1) s) _
    rw [parseline]
    refine (ih n ha' hm fun w hw => hL w (by simp [hw])).bind ?_
    rintro _ rfl
    refine (parsebacks_complete hk (hend.peek (by simp [follow]))).bind ?_
    rintro _ rfl
    have hnext : peek s' [';'] = false := hend.peek (by simp [follow])
    simp only [hnext, Bool.false_eq_true, if_false, hk.skip_rest]
    exact .ok rfl
  | @seq a b c d k ha hb iha ihb =>
    apply meets_of_succ
    intro n
    refine parseline_front (fun m ha' hm => iha n ha' hm fun w hw => hL w (by simp [hw])) hs ?_
    intro m hb'
    refine (ihb n hb' hend fun w hw => hL w (by simp [hw])).mono ?_
    rintro _ rfl
    rfl
  | @one a c ha ih =>
    apply meets_of_succ
    intro n
    show Meets _ (parsepipe (n + 1) s) _
    rw [parsepipe]
    refine (ih n hs (hend.mono (by simp [follow])) hL).bind ?_
    rintro _ rfl
    have hnext : peek s' ['|'] = false := hend.peek (by simp [follow])
    simp only [hnext, Bool.false_eq_true, if_false, hs.skip_rest]
    exact .ok rfl
  | @bar a b c d ha hb iha ihb =>
    apply meets_of_succ
    intro n
    refine parsepipe_front (fun m ha' hm => iha n ha' hm fun w hw => hL w (by simp [hw])) hs ?_
    intro m hb'
    refine (ihb n hb' hend fun w hw => hL w (by simp [hw])).mono ?_
    rintro _ rfl
    rfl
  | @group a c ha ih =>
    apply meets_of_succ
    intro n
    have hopen : peek s ['('] = true := by
      cases ha with
      | parens ha hb => exact peek_op hs (by decide)
    show Meets _ (parseexec (n + 1) s) _
    rw [parseexec, if_pos hopen]
    exact ih n (lexes_skip.mpr hs) hend hL
  | @plain b a ws rs rs' hb ha hlen =>
    apply meets_of_succ
    intro n
    refine parseexec_front hb hs (fun w hw => hL w (by simp [hw])) (fun m ha' => ?_) fun m ha' => ?_
    · refine ⟨?_, ha.no_redir ha' hend⟩
      cases ha with
      | nil =>
        obtain rfl := lexes_nil_iff.mp ha'
        exact (before_skip.mp hend).peek (by simp [follow])
      | cons _ _ => exact peek_word ha' (by simp [symbols])
    · have hgo := parseargs_complete (n := n) (c := wrap (.exec []) rs) ha ha' hend
        (by rwa [Nat.zero_add]) fun w hw => hL w (by simp [hw])
      rw [pushArgs_wrap, pushArgs_exec, List.nil_append, ← wrap_append] at hgo
      exact hgo
  | @parens a b c rs ha hb ih =>
    apply meets_of_succ
    intro n
    refine parseblock_front
      (fun m m' ha' hm' => ih n ha' hm' fun w hw => hL w (by simp [hw])) hs fun m hb' => ?_
    exact parseredirs_complete hb hb' (hend.peek (by simp [follow])) fun w hw => hL w (by simp [hw])

/-- A routine does not get past a word that is too long. -/
theorem reads_fails {nt : Nt} (hu : Reads nt u) (n : Nat) (hs : Lexes s (u ++ [.word w]) s')
    (hw : ¬ w.Fits) : Meets (Stops True) (parse nt n s) fun _ => False := by
  induction hu generalizing n s with
  | @lineHead u hu ih =>
    apply meets_of_succ
    intro n
    show Meets _ (parseline (n + 1) s) _
    rw [parseline]
    exact (ih n hs).bind fun _ => False.elim
  | @lineTail a u c k ha hu ih =>
    apply meets_of_succ
    intro n
    simp only [List.append_assoc, List.cons_append] at hs
    exact parseline_front
      (fun m ha' hm => parse_complete ha n ha' hm fun _ _ _ => trivial) hs fun m hu' => ih n hu'
  | @pipeHead u hu ih =>
    apply meets_of_succ
    intro n
    show Meets _ (parsepipe (n + 1) s) _
    rw [parsepipe]
    exact (ih n hs).bind fun _ => False.elim
  | @pipeTail a u c ha hu ih =>
    apply meets_of_succ
    intro n
    simp only [List.append_assoc, List.cons_append] at hs
    exact parsepipe_front
      (fun m ha' hm => parse_complete ha n ha' hm fun _ _ _ => trivial) hs fun m hu' => ih n hu'
  | @group u hu ih =>
    apply meets_of_succ
    intro n
    have hopen : peek s ['('] = true := by
      cases hu with
      | blockHead _ => exact peek_op hs (by decide)
      | blockTail _ _ => exact peek_op hs (by decide)
    show Meets _ (parseexec (n + 1) s) _
    rw [parseexec, if_pos hopen]
    exact ih n (lexes_skip.mpr hs)
  | @redirs u hu =>
    apply meets_of_succ
    intro n
    have hopen : peek s ['('] = false := by
      cases hu with
      | file ho => exact (before_redir hs ho).1.peek (by simp)
      | next ho _ => exact (before_redir hs ho).1.peek (by simp)
    show Meets _ (parseexec (n + 1) s) _
    rw [parseexec, hopen]
    exact (parseredirs_fails hu (lexes_skip.mpr hs) hw).bind fun _ => False.elim
  | @args b u rs hb hu =>
    apply meets_of_succ
    intro n
    rw [List.append_assoc] at hs
    exact parseexec_front hb hs (fun _ _ _ => trivial)
      (fun m hu' => ⟨hu.peek hu' (by simp [symbols]), hu.peek hu' (by simp [symbols])⟩)
      fun m hu' => parseargs_fails hu hu' hw
  | @blockHead u hu ih =>
    apply meets_of_succ
    intro n
    obtain ⟨q, m, hget, hrest⟩ := hs.op_next
    show Meets _ (parseblock (n + 1) s) _
    rw [parseblock, if_neg (not_not.mpr (peek_op hs (by decide))), gettoken_skip]
    simp only [hget, ok_bind]
    exact (ih n hrest).bind fun _ => False.elim
  | @blockTail a u c ha hu =>
    apply meets_of_succ
    intro n
    simp only [List.append_assoc, List.cons_append] at hs
    exact parseblock_front
      (fun m m' ha' hm' => parse_complete ha n ha' hm' fun _ _ _ => trivial) hs
      fun m hu' => parseredirs_fails hu hu' hw

end Uniks.Shell
