/-
  What the shell's parser returns is the tree of a derivation.

  `Reads` are the beginnings of a line after which the next token is read as a word: a word that
  does not fit its buffer does harm there, whatever comes behind it.  One induction on the fuel says
  how a routine ends (`parse_sound`): with a derivation, with a message, at a word that is too long
  behind such a beginning, or for lack of fuel, and that is bounded by what is left of the line.
-/
import Uniks.ShellGrammar

namespace Uniks.Shell

open Uniks.Hoare

/-- The buffer holds the word. -/
def Word.Fits (w : Word) : Prop := w.inBuf = true → w.text.length ≤ MAXARGLEN

instance (w : Word) : Decidable w.Fits := inferInstanceAs (Decidable (_ → _))

/-! ## Where words are read -/

inductive ReadsRedirs : List Tok → Prop
  | file {o : Char} (ho : o ∈ redirOps) : ReadsRedirs [.op o]
  | next {o : Char} {w : Word} {u : List Tok} (ho : o ∈ redirOps) (hu : ReadsRedirs u) :
      ReadsRedirs (.op o :: .word w :: u)

/-- With `argc` words read before. -/
inductive ReadsArgs : Nat → List Tok → Prop
  | arg {argc : Nat} : ReadsArgs argc []
  | file {argc : Nat} {w : Word} {u : List Tok} (hargc : argc + 1 < MAXARGS)
      (hu : ReadsRedirs u) : ReadsArgs argc (.word w :: u)
  | next {argc : Nat} {w : Word} {b u : List Tok} {rs : List Redir} (hargc : argc + 1 < MAXARGS)
      (hb : Redirs b rs) (hu : ReadsArgs (argc + 1) u) : ReadsArgs argc (.word w :: b ++ u)

inductive Reads : Nt → List Tok → Prop
  | lineHead {u : List Tok} (hu : Reads .pipe u) : Reads .line u
  | lineTail {a u : List Tok} {c : Cmd} (k : Nat) (ha : Derives .pipe a c) (hu : Reads .line u) :
      Reads .line (a ++ (amps k ++ .op ';' :: u))
  | pipeHead {u : List Tok} (hu : Reads .exec u) : Reads .pipe u
  | pipeTail {a u : List Tok} {c : Cmd} (ha : Derives .exec a c) (hu : Reads .pipe u) :
      Reads .pipe (a ++ .op '|' :: u)
  | group {u : List Tok} (hu : Reads .block u) : Reads .exec u
  | redirs {u : List Tok} (hu : ReadsRedirs u) : Reads .exec u
  | args {b u : List Tok} {rs : List Redir} (hb : Redirs b rs) (hu : ReadsArgs 0 u) :
      Reads .exec (b ++ u)
  | blockHead {u : List Tok} (hu : Reads .line u) : Reads .block (.op '(' :: u)
  | blockTail {a u : List Tok} {c : Cmd} (ha : Derives .line a c) (hu : ReadsRedirs u) :
      Reads .block (.op '(' :: (a ++ .op ')' :: u))

/-! ## How a run may stop -/

variable {s s' m q : Text} {ret o : Char} {w : Word} {a b : List Tok} {n n' N N' : Nat}
  {R R' : List Tok → Prop} {allowed : Stop → Prop}

/-- Why a routine has stopped that was given the fuel `n` at `s`: `R` are the beginnings after
which it reads a word, and `N` is fuel enough. -/
def Blames (R : List Tok → Prop) (N n : Nat) (s : Text) : Stop → Prop
  | .panic _ => True
  | .overrun => ∃ u w m, R u ∧ Lexes s (u ++ [.word w]) m ∧ ¬ w.Fits
  | .fuel => n < N

/-- A part of the run, at `m`, and the whole of it: tokens read from `m` are read behind `a`. -/
theorem Blames.lift (a : List Tok) (hlex : ∀ u m', Lexes m u m' → Lexes s (a ++ u) m')
    (hR : ∀ u, R u → R' (a ++ u)) (hN : n < N → n' < N') :
    ∀ e, Blames R N n m e → Blames R' N' n' s e := by
  intro e he
  cases e with
  | panic msg => trivial
  | overrun =>
    obtain ⟨u, w, m', hu, hread, hfit⟩ := he
    refine ⟨a ++ u, w, m', hR u hu, ?_, hfit⟩
    rw [List.append_assoc]
    exact hlex _ _ hread
  | fuel => exact hN he

theorem Blames.after (ha : Lexes s a m) (hR : ∀ u, R u → R' (a ++ u)) (hN : n < N → n' < N') :
    ∀ e, Blames R N n m e → Blames R' N' n' s e :=
  Blames.lift a (fun _ _ => ha.append) hR hN

theorem Blames.head (hR : ∀ u, R u → R' u) (hN : n < N → n' < N') :
    ∀ e, Blames R N n s e → Blames R' N' n' s e :=
  Blames.lift [] (fun _ _ => id) hR hN

theorem gettoken_error {e : Stop} (h : gettoken s = .error e) : ∃ msg, e = .panic msg := by
  unfold gettoken at h
  split at h
  · cases h
  · split at h
    · cases h
    · split at h
      · split at h <;> cases h
      · simp only at h
        split at h
        · exact ⟨_, (Except.error.inj h).symm⟩
        · cases h

theorem gettoken_meets (hp : ∀ msg, allowed (.panic msg)) :
    Meets allowed (gettoken s) fun r => gettoken s = .ok r := by
  refine ⟨id, fun h => ?_⟩
  obtain ⟨msg, rfl⟩ := gettoken_error h
  exact hp msg

theorem wordOf_word (msg : String) (h : tokOf ret q = .word w) :
    wordOf msg ret q = if w.Fits then .ok w else .error .overrun := by
  obtain rfl | rfl := ret_of_word h
  · obtain rfl := Tok.word.inj h
    simp [wordOf, Word.Fits]
  · obtain rfl := Tok.word.inj h
    by_cases hlen : (unquote q).length ≤ MAXARGLEN
    · simp [wordOf, handleQuotmark, Word.Fits, hlen]
    · simp [wordOf, handleQuotmark, Word.Fits, hlen, Nat.lt_of_not_le hlen]

theorem wordOf_meets (msg : String) (hp : ∀ msg, allowed (.panic msg))
    (ho : ∀ w, tokOf ret q = .word w → ¬ w.Fits → allowed .overrun) :
    Meets allowed (wordOf msg ret q) fun w => tokOf ret q = .word w := by
  cases htok : tokOf ret q with
  | op o =>
    obtain ⟨-, ha, hb⟩ := ret_of_op htok
    rw [wordOf, if_pos ⟨ha, hb⟩]
    exact .error (hp msg)
  | word w =>
    rw [wordOf_word msg htok]
    exact .ite (fun _ => .ok rfl) fun hfit => .error (ho w htok hfit)

/-- A token that has to be a word, read and used. -/
theorem Lexes.single_word (hget : gettoken s = .ok (ret, q, m)) (htok : tokOf ret q = .word w) :
    Lexes s [.word w] m := by
  have hret : ret ≠ '\x00' := by
    obtain rfl | rfl := ret_of_word htok <;> decide
  have hlex := Lexes.single hget hret
  rwa [htok] at hlex

/-! ## The loops -/

theorem wrap_cons (c : Cmd) (r : Redir) (rs : List Redir) :
    wrap c (r :: rs) = wrap (redirect r.1 c r.2) rs := rfl

theorem wrap_append (c : Cmd) (rs rs' : List Redir) : wrap c (rs ++ rs') = wrap (wrap c rs) rs' :=
  List.foldl_append

theorem parseredirs_sound (n : Nat) (c : Cmd) (s : Text) :
    Meets (Blames ReadsRedirs ((skip s).length + 1) n s) (parseredirs n c s) fun r =>
      ∃ b rs, Lexes s b r.2 ∧ Redirs b rs ∧ r.1 = wrap c rs := by
  induction n generalizing c s with
  | zero => exact .error (Nat.succ_pos _)
  | succ n ih =>
    rw [parseredirs]
    refine .ite (fun h => ?_) fun _ => .ok ⟨[], [], .nil s, .nil, rfl⟩
    obtain ⟨o, q, m, ho, hget, hop⟩ := gettoken_redir h
    simp only [gettoken_skip, hget, ok_bind]
    refine (gettoken_meets fun _ => trivial).bind ?_
    rintro ⟨tok2, q2, m2⟩ hget2
    refine (wordOf_meets _ (fun _ => trivial) fun w htok hfit => ?_).bind fun w htok => ?_
    · exact ⟨[.op o], w, m2, .file ho, hop.append (.single_word hget2 htok), hfit⟩
    · have htwo : Lexes s [.op o, .word w] m2 := hop.append (.single_word hget2 htok)
      have hlen := htwo.length_le
      have hskip := skip_length_le m2
      rw [List.length_cons, List.length_singleton] at hlen
      refine ((ih (redirect o c w) m2).weaken (Blames.after htwo (fun u => .next ho) ?_)).mono ?_
      · omega
      · rintro ⟨t, s'⟩ ⟨b, rs, hlex, hb, rfl⟩
        exact ⟨_, _, htwo.append hlex, .cons ho hb, rfl⟩

theorem parsebacks_sound (n : Nat) (c : Cmd) (s : Text) :
    Meets (Blames (fun _ => False) ((skip s).length + 1) n s) (parsebacks n c s) fun r =>
      ∃ k, Lexes s (amps k) r.2 ∧ r.1 = backs k c := by
  induction n generalizing c s with
  | zero => exact .error (Nat.succ_pos _)
  | succ n ih =>
    rw [parsebacks]
    refine .ite (fun h => ?_) fun _ => .ok ⟨0, .nil s, rfl⟩
    obtain ⟨m, hget, hop⟩ := gettoken_peek h (by decide)
    simp only [gettoken_skip, hget, ok_bind]
    have hlen := hop.length_le
    have hskip := skip_length_le m
    rw [List.length_singleton] at hlen
    refine ((ih (.back c) m).weaken (Blames.after hop (fun u => id) ?_)).mono ?_
    · omega
    · rintro ⟨t, s'⟩ ⟨k, hlex, rfl⟩
      exact ⟨k + 1, hop.append hlex, rfl⟩

theorem pushArg_redirect (o : Char) (c : Cmd) (f w : Word) :
    pushArg (redirect o c f) w = redirect o (pushArg c w) f := by
  unfold redirect
  split_ifs <;> rfl

theorem pushArg_wrap (c : Cmd) (w : Word) (rs : List Redir) :
    pushArg (wrap c rs) w = wrap (pushArg c w) rs := by
  induction rs generalizing c with
  | nil => rfl
  | cons r rs ih => rw [wrap_cons, wrap_cons, ih, pushArg_redirect]

/-- The words go to the bottom of the tree. -/
theorem pushArgs_wrap (ws : List Word) (c : Cmd) (rs : List Redir) :
    ws.foldl pushArg (wrap c rs) = wrap (ws.foldl pushArg c) rs := by
  induction ws generalizing c with
  | nil => rfl
  | cons w ws ih => rw [List.foldl_cons, List.foldl_cons, pushArg_wrap, ih]

theorem pushArgs_exec (argv ws : List Word) :
    ws.foldl pushArg (.exec argv) = .exec (argv ++ ws) := by
  induction ws generalizing argv with
  | nil => simp
  | cons w ws ih =>
    show ws.foldl pushArg (.exec (argv ++ [w])) = _
    rw [ih, List.append_assoc, List.singleton_append]

theorem parseargs_sound (n argc : Nat) (c : Cmd) (s : Text) (hargc : argc < MAXARGS) :
    Meets (Blames (ReadsArgs argc) ((skip s).length + 1) n s) (parseargs n argc c s) fun r =>
      ∃ a ws rs, Lexes s a r.2 ∧ Args a ws rs ∧ argc + ws.length < MAXARGS
        ∧ r.1 = wrap (ws.foldl pushArg c) rs := by
  induction n generalizing argc c s with
  | zero => exact .error (Nat.succ_pos _)
  | succ n ih =>
    rw [parseargs]
    have hnone : ∃ a ws rs, Lexes s a (skip s) ∧ Args a ws rs ∧ argc + ws.length < MAXARGS
        ∧ c = wrap (ws.foldl pushArg c) rs := ⟨[], [], [], .nil s, .nil, hargc, rfl⟩
    refine .ite (fun _ => .ok hnone) fun _ => ?_
    rw [gettoken_skip]
    refine (gettoken_meets fun _ => trivial).bind ?_
    rintro ⟨tok, q, m⟩ hget
    refine .ite (fun h0 => ?_) fun _ => ?_
    · subst h0
      rw [gettoken_fin hget]
      exact .ok hnone
    refine (wordOf_meets _ (fun _ => trivial) fun w htok hfit => ?_).bind fun w htok => ?_
    · exact ⟨[], w, m, .arg, .single_word hget htok, hfit⟩
    refine .ite (fun _ => .error trivial) fun hmax => ?_
    have hlt : argc + 1 < MAXARGS := Nat.lt_of_not_le hmax
    have hone : Lexes s [.word w] m := .single_word hget htok
    have hlen := hone.length_le
    have hskip := skip_length_le m
    rw [List.length_singleton] at hlen
    refine .bind ((parseredirs_sound n (pushArg c w) m).weaken
      (Blames.after hone (fun u => .file hlt) (by omega))) ?_
    rintro ⟨c', m'⟩ ⟨b, rs, hredir, hb, rfl⟩
    have htwo : Lexes s (.word w :: b) m' := hone.append hredir
    have hlen' := htwo.length_le
    have hskip' := skip_length_le m'
    rw [List.length_cons] at hlen'
    refine ((ih (argc + 1) _ m' hlt).weaken
      (Blames.after htwo (fun u => .next hlt hb) (by omega))).mono ?_
    rintro ⟨t, s'⟩ ⟨a, ws, rs', hlex, ha, hcount, rfl⟩
    refine ⟨_, _, _, htwo.append hlex, .cons hb ha, ?_, ?_⟩
    · rw [List.length_cons]
      omega
    · rw [pushArgs_wrap, wrap_append, List.foldl_cons]

/-! ## The routines -/

def parse : Nt → Nat → Text → Parse (Cmd × Text)
  | .line => parseline
  | .pipe => parsepipe
  | .exec => parseexec
  | .block => parseblock

/-- How deep the calls are that take no token. -/
def rank : Nt → Nat
  | .line => 4
  | .pipe => 3
  | .exec => 2
  | .block => 1

/-- Fuel enough for a routine at `s`. -/
def enough (nt : Nt) (s : Text) : Nat := 4 * (skip s).length + rank nt

/-- What is asked of one routine. -/
def Sound (n : Nat) (nt : Nt) (s : Text) : Prop :=
  Meets (Blames (Reads nt) (enough nt s) n s) (parse nt n s) fun r =>
    ∃ toks, Lexes s toks r.2 ∧ Derives nt toks r.1

theorem enough_lt (nt nt' : Nt) (ha : Lexes s a m) (hpos : a ≠ []) :
    n < enough nt m → n + 1 < enough nt' s := by
  have hlen := ha.length_le
  have hskip := skip_length_le m
  have hone := List.length_pos_iff.mpr hpos
  intro hn
  have hrank : rank nt ≤ 4 ∧ 1 ≤ rank nt' := by cases nt <;> cases nt' <;> decide
  unfold enough at hn ⊢
  omega

theorem loop_lt (nt : Nt) (ha : Lexes s a m) (htwo : 2 ≤ a.length + rank nt) :
    n < (skip m).length + 1 → n + 1 < enough nt s := by
  have hlen := ha.length_le
  have hskip := skip_length_le m
  intro hn
  unfold enough
  omega

theorem parseline_sound (hpipe : Sound n .pipe s) (hline : ∀ m, Sound n .line m) :
    Sound (n + 1) .line s := by
  show Meets _ (parseline (n + 1) s) _
  rw [parseline]
  refine (hpipe.weaken (Blames.head (fun u => .lineHead) Nat.succ_lt_succ)).bind ?_
  rintro ⟨c, m⟩ ⟨a, ha, hc⟩
  have hloop : n < (skip m).length + 1 → n + 1 < enough .line s :=
    loop_lt .line ha (Nat.le_add_left_of_le (by decide))
  refine ((parsebacks_sound n c m).weaken (Blames.after ha (fun u => False.elim) hloop)).bind ?_
  rintro ⟨c', m'⟩ ⟨k, hk, rfl⟩
  refine .ite (fun h => ?_) fun _ => ?_
  · obtain ⟨r, hget, hop⟩ := gettoken_peek h (by decide)
    simp only [gettoken_skip, hget, ok_bind]
    have hfront : Lexes s (a ++ (amps k ++ [.op ';'])) r := ha.append (hk.append hop)
    refine ((hline r).weaken
      (Blames.after hfront ?_ (enough_lt .line .line hfront (by simp)))).bind ?_
    · intro u hu
      simpa using Reads.lineTail k hc hu
    · rintro ⟨d, s'⟩ ⟨b, hb, hd⟩
      exact .ok ⟨_, by simpa using hfront.append hb, .seq k hc hd⟩
  · have hend := ha.append hk
    rw [← hk.skip_rest] at hend
    exact .ok ⟨_, hend, .last k hc⟩

theorem parsepipe_sound (hexec : Sound n .exec s) (hpipe : ∀ m, Sound n .pipe m) :
    Sound (n + 1) .pipe s := by
  show Meets _ (parsepipe (n + 1) s) _
  rw [parsepipe]
  refine (hexec.weaken (Blames.head (fun u => .pipeHead) Nat.succ_lt_succ)).bind ?_
  rintro ⟨c, m⟩ ⟨a, ha, hc⟩
  refine .ite (fun h => ?_) fun _ => ?_
  · obtain ⟨r, hget, hop⟩ := gettoken_peek h (by decide)
    simp only [gettoken_skip, hget, ok_bind]
    have hfront : Lexes s (a ++ [.op '|']) r := ha.append hop
    refine ((hpipe r).weaken
      (Blames.after hfront ?_ (enough_lt .pipe .pipe hfront (by simp)))).bind ?_
    · intro u hu
      simpa using Reads.pipeTail hc hu
    · rintro ⟨d, s'⟩ ⟨b, hb, hd⟩
      exact .ok ⟨_, by simpa using hfront.append hb, .bar hc hd⟩
  · rw [← ha.skip_rest] at ha
    exact .ok ⟨a, ha, .one hc⟩

theorem parseexec_sound (hblock : ∀ m, Sound n .block m) : Sound (n + 1) .exec s := by
  show Meets _ (parseexec (n + 1) s) _
  rw [parseexec]
  refine .ite (fun _ => ?_) fun _ => ?_
  · refine ((hblock (skip s)).weaken (Blames.after (.nil s) (fun u => .group) ?_)).mono ?_
    · intro hn
      unfold enough at hn ⊢
      rw [skip_skip] at hn
      exact Nat.succ_lt_succ hn
    · rintro ⟨t, s'⟩ ⟨a, ha, ht⟩
      exact ⟨a, lexes_skip.mp ha, .group ht⟩
  · refine ((parseredirs_sound n (.exec []) (skip s)).weaken
      (Blames.after (.nil s) (fun u => .redirs) (loop_lt .exec (.nil s) (by decide)))).bind ?_
    rintro ⟨c, m⟩ ⟨b, rs, hb, hrs, rfl⟩
    have hb' := lexes_skip.mp hb
    refine ((parseargs_sound n 0 _ m (by decide)).weaken
      (Blames.after hb' (fun u => .args hrs)
        (loop_lt .exec hb' (Nat.le_add_left_of_le (by decide))))).mono ?_
    rintro ⟨t, s'⟩ ⟨a, ws, rs', ha, hargs, hcount, rfl⟩
    rw [Nat.zero_add] at hcount
    refine ⟨_, hb'.append ha, ?_⟩
    show Derives .exec (b ++ a) (wrap _ rs')
    rw [pushArgs_wrap, pushArgs_exec, List.nil_append, ← wrap_append]
    exact .plain hrs hargs hcount

theorem parseblock_sound (hline : ∀ m, Sound n .line m) : Sound (n + 1) .block s := by
  show Meets _ (parseblock (n + 1) s) _
  rw [parseblock]
  refine .ite (fun _ => .error trivial) fun hopen => ?_
  obtain ⟨m, hget, hop⟩ := gettoken_peek (not_not.mp hopen) (by decide)
  simp only [gettoken_skip, hget, ok_bind]
  refine ((hline m).weaken
    (Blames.after hop (fun u => .blockHead) (enough_lt .line .block hop (by simp)))).bind ?_
  rintro ⟨c, m'⟩ ⟨a, ha, hc⟩
  refine .ite (fun _ => .error trivial) fun hclose => ?_
  obtain ⟨r, hget', hop'⟩ := gettoken_peek (not_not.mp hclose) (by decide)
  simp only [hget', ok_bind]
  have hfront : Lexes s (.op '(' :: (a ++ [.op ')'])) r := hop.append (ha.append hop')
  refine ((parseredirs_sound n c r).weaken
    (Blames.after hfront ?_ (loop_lt .block hfront (by simp [rank])))).mono ?_
  · intro u hu
    simpa using Reads.blockTail hc hu
  · rintro ⟨t, s'⟩ ⟨b, rs, hb, hrs, rfl⟩
    exact ⟨_, by simpa using hfront.append hb, .parens hc hrs⟩

theorem parse_sound (n : Nat) : ∀ nt s, Sound n nt s := by
  induction n with
  | zero =>
    intro nt s
    have hpos : 0 < enough nt s := by cases nt <;> exact Nat.succ_pos _
    cases nt <;> exact .error hpos
  | succ n ih =>
    intro nt s
    cases nt with
    | line => exact parseline_sound (ih .pipe s) (ih .line)
    | pipe => exact parsepipe_sound (ih .exec s) (ih .pipe)
    | exec => exact parseexec_sound (ih .block)
    | block => exact parseblock_sound (ih .line)

end Uniks.Shell
