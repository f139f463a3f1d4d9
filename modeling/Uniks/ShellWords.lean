/-
  The words of the shell keep their text.

  The parser on memory goes in step with the parser on texts (`parsecmd_agree`): its words hold the
  texts of the other's, in the line or in a buffer.  The zero behind a word of the line is written
  over a blank or an operator or behind the line, and a word of the line has none of these, so it is
  not written over by the zeros of the others.
-/
import Mathlib.Data.List.Forall2
import Uniks.Lib.Lockstep
import Uniks.ShellExact
import Uniks.ShellMem

namespace Uniks.ShellMem

open Uniks.Lockstep
open Uniks.Shell (Text Parse Stop MAXARGS MAXARGLEN quotmark skip scan peek Word unquote whitespace
  symbols Scan Lexes Derives IsLine tokOf)

/-! ## Strings -/

/-- A character that ends a word. -/
def Breaks (c : Char) : Prop := c ∈ whitespace ∨ c ∈ symbols

/-- The string at a position of an object. -/
structure IsStr (m : Chars) (p : Nat) (t : Text) : Prop where
  chars : ∀ k (hk : k < t.length), m (p + k) = t[k]
  nul : m (p + t.length) = '\x00'
  noNul : '\x00' ∉ t

/-- The string that a pointer of a tree points at is the text of a word. -/
def Shows (start : Nat) (cmdbuf : Chars) (str : Str) (w : Word) : Prop :=
  match str with
  | .line q _ => IsStr cmdbuf (start + q) w.text
  | .buf bytes _ => IsStr bytes 0 w.text

/-- Two trees of the same shape, whose words are related. -/
inductive Cmd.Rel (R : Str → Word → Prop) : Cmd → Shell.Cmd → Prop
  | exec {argv : List Str} {ws : List Word} (h : List.Forall₂ R argv ws) :
      Cmd.Rel R (.exec argv) (.exec ws)
  | redir {cmd : Cmd} {cmd' : Shell.Cmd} {file : Str} {w : Word} {mode fd : Nat}
      (hcmd : Cmd.Rel R cmd cmd') (hfile : R file w) :
      Cmd.Rel R (.redir cmd file mode fd) (.redir cmd' w mode fd)
  | pipe {left right : Cmd} {left' right' : Shell.Cmd} (hl : Cmd.Rel R left left')
      (hr : Cmd.Rel R right right') : Cmd.Rel R (.pipe left right) (.pipe left' right')
  | list {left right : Cmd} {left' right' : Shell.Cmd} (hl : Cmd.Rel R left left')
      (hr : Cmd.Rel R right right') : Cmd.Rel R (.list left right) (.list left' right')
  | back {cmd : Cmd} {cmd' : Shell.Cmd} (hcmd : Cmd.Rel R cmd cmd') :
      Cmd.Rel R (.back cmd) (.back cmd')

theorem Cmd.Rel.mono {R R' : Str → Word → Prop} (hR : ∀ str w, R str w → R' str w) {c : Cmd}
    {c' : Shell.Cmd} (h : Cmd.Rel R c c') : Cmd.Rel R' c c' := by
  induction h with
  | exec h => exact .exec (h.imp hR)
  | redir _ hfile ih => exact .redir ih (hR _ _ hfile)
  | pipe _ _ ihl ihr => exact .pipe ihl ihr
  | list _ _ ihl ihr => exact .list ihl ihr
  | back _ ih => exact .back ih

/-- What the parser has made of a word of the line `S`, before its zero is written. -/
inductive Holds (S : Text) : Str → Word → Prop
  | line {front q eq : Text} (hS : S = front ++ (q ++ eq)) (hq : ∀ c ∈ q, ¬ Breaks c)
      (heq : ∀ c r, eq = c :: r → Breaks c) :
      Holds S (.line front.length (front.length + q.length)) ⟨q, false⟩
  | buf {bytes : Chars} {text : Text} (hbytes : ∀ k (hk : k < text.length), bytes k = text[k])
      (hS : text ⊆ S) : Holds S (.buf bytes text.length) ⟨text, true⟩

/-! ## Tokens -/

section Tokens

variable {S s : Text}

theorem scan_append (state : Bool) (ret : Char) (s : Text) :
    (scan state ret s).word ++ (scan state ret s).rest = s := by
  fun_induction scan state ret s with
  | case1 => rfl
  | case2 => rfl
  | case3 ret c s hc ih => exact congrArg (c :: ·) ih
  | case4 ret c s ih => exact congrArg (c :: ·) ih

/-- A word ends at a blank, at an operator or with the line. -/
theorem scan_rest (state : Bool) (ret : Char) (s : Text) (hopen : (scan state ret s).isOpen = false)
    {c : Char} {r : Text} (hrest : (scan state ret s).rest = c :: r) : Breaks c := by
  fun_induction scan state ret s with
  | case1 => cases hrest
  | case2 ret c' s hc =>
    obtain ⟨rfl, -⟩ := List.cons.inj hrest
    exact hc
  | case3 ret c' s hc ih => exact ih hopen hrest
  | case4 ret c' s ih => exact ih hopen hrest

/-- A word without quotation marks has nothing in it that ends a word. -/
theorem scan_plain (state : Bool) (ret : Char) (s : Text)
    (hopen : (scan state ret s).isOpen = false)
    (hret : (scan state ret s).ret = 'a') :
    state = false ∧ ∀ c ∈ (scan state ret s).word, ¬ Breaks c ∧ c ≠ quotmark := by
  fun_induction scan state ret s with
  | case1 state ret =>
    refine ⟨hopen, fun c hc => ?_⟩
    cases hc
  | case2 ret c s hc =>
    refine ⟨rfl, fun c hc => ?_⟩
    cases hc
  | case3 ret c s hc ih =>
    obtain ⟨hmark, hword⟩ := ih hopen hret
    refine ⟨rfl, fun d hd => ?_⟩
    rcases List.mem_cons.mp hd with rfl | hd
    · exact ⟨hc, of_decide_eq_false hmark⟩
    · exact hword d hd
  | case4 ret c s ih =>
    -- Between quotation marks `ret` becomes `b` and stays it.
    have hspec := (Shell.scan_spec (c ≠ quotmark) 'b' s).2
    rw [Scan.push_ret] at hret
    rw [or_self] at hspec
    have hb : (scan (decide (c ≠ quotmark)) 'b' s).ret = 'b' := hspec
    rw [hb] at hret
    exact absurd hret (by decide)

/-- A token on memory and the token on texts. -/
structure Cuts (S : Text) (r : Char × Text × Text × Text) (r' : Char × Text × Text) : Prop where
  ret : r.1 = r'.1
  rest : r.2.2.2 = r'.2.2
  word : r.2.1 = r'.2.1 ++ r.2.2.1
  suffix : r.2.1 <:+ S
  left : r.2.2.2 <:+ S
  plain : r.1 = 'a' → (∀ c ∈ r'.2.1, ¬ Breaks c ∧ c ≠ quotmark) ∧
    ∀ c t, r.2.2.1 = c :: t → Breaks c

theorem skip_suffix (h : s <:+ S) : skip s <:+ S := (List.dropWhile_suffix _).trans h

theorem gettoken_agree (h : s <:+ S) : Agree (Cuts S) (gettoken s) (Shell.gettoken s) := by
  have hskip := skip_suffix h
  unfold gettoken Shell.gettoken
  cases hs : skip s with
  | nil =>
    refine Agree.ok ⟨rfl, rfl, rfl, List.nil_suffix, List.nil_suffix, fun h => ?_⟩
    exact absurd h (by decide)
  | cons c r =>
    rw [hs] at hskip
    have hr : r <:+ S := (List.suffix_cons c r).trans hskip
    refine Agree.ite Iff.rfl (fun hc => ?_) fun hc => Agree.ite Iff.rfl (fun hgt => ?_) fun _ => ?_
    · refine Agree.ok ⟨rfl, rfl, rfl, hskip, skip_suffix hr, fun h => ?_⟩
      have h : c = 'a' := h
      subst h
      exact absurd hc (by decide)
    · subst hgt
      refine Agree.ite Iff.rfl (fun hhead => ?_) fun _ => ?_
      · obtain ⟨t, rfl⟩ : ∃ t, r = '>' :: t := by
          cases r with
          | nil => cases hhead
          | cons d t => exact ⟨t, by rw [Option.some.inj hhead]⟩
        have ht : t <:+ S := (List.suffix_cons _ t).trans hr
        refine Agree.ok ⟨rfl, rfl, rfl, hskip, skip_suffix ht, fun h => ?_⟩
        have h : '+' = 'a' := h
        exact absurd h (by decide)
      · refine Agree.ok ⟨rfl, rfl, rfl, hskip, skip_suffix hr, fun h => ?_⟩
        have h : '>' = 'a' := h
        exact absurd h (by decide)
    · have happ := scan_append false 'a' (c :: r)
      refine Agree.ite Iff.rfl (fun _ => Agree.error _) fun hopen => ?_
      rw [Bool.not_eq_true] at hopen
      have hrest : (scan false 'a' (c :: r)).rest <:+ S :=
        List.IsSuffix.trans ⟨_, happ⟩ hskip
      refine Agree.ok ⟨rfl, rfl, happ.symm, hskip, skip_suffix hrest, fun hret => ⟨?_, ?_⟩⟩
      · exact (scan_plain false 'a' (c :: r) hopen hret).2
      · exact fun d t hd => scan_rest false 'a' (c :: r) hopen hd

/-! ## Words -/

/-- The loop of `handle_quotmark`, when `done` has been copied. -/
theorem copyLoop_agree (q : Text) (buf : Chars) (copied : Text)
    (hbuf : ∀ k (hk : k < copied.length), buf k = copied[k]) (hlen : copied.length ≤ MAXARGLEN)
    (hS : copied ++ unquote q ⊆ S) :
    Agree (Holds S) (copyLoop q buf copied.length)
      (if MAXARGLEN < (copied ++ unquote q).length then .error .overrun
        else .ok ⟨copied ++ unquote q, true⟩) := by
  induction q generalizing buf copied with
  | nil =>
    have hnil : copied ++ unquote [] = copied := List.append_nil copied
    rw [hnil] at hS ⊢
    rw [if_neg (Nat.not_lt.mpr hlen)]
    exact Agree.ok (Holds.buf hbuf hS)
  | cons c q ih =>
    rw [copyLoop]
    by_cases hc : c = quotmark
    · have hskip : unquote (c :: q) = unquote q := List.filter_cons_of_neg (by simp [hc])
      rw [if_pos hc]
      rw [hskip] at hS ⊢
      exact ih buf copied hbuf hlen hS
    · have hpush : copied ++ unquote (c :: q) = (copied ++ [c]) ++ unquote q := by
        rw [unquote, List.filter_cons_of_pos (by simp [hc]), List.append_assoc]
        rfl
      rw [if_neg hc]
      rw [hpush] at hS ⊢
      by_cases hroom : copied.length < MAXARGLEN
      · rw [if_pos hroom]
        have hpushed : (copied ++ [c]).length = copied.length + 1 := List.length_append
        rw [← hpushed]
        apply ih _ _ _ (by omega) hS
        intro k hk
        by_cases hlast : k = copied.length
        · subst hlast
          rw [Function.update_self, List.getElem_append_right (Nat.le_refl _)]
          simp
        · rw [Function.update_of_ne hlast, hbuf k (by omega), List.getElem_append_left]
      · -- One character more than the buffer holds, whatever comes behind it.
        rw [if_neg hroom, if_pos]
        · exact Agree.error _
        · rw [List.length_append, List.length_append, List.length_singleton]
          omega

theorem wordOf_agree (fresh : Text → Chars) (msg : String) {r : Char × Text × Text × Text}
    {r' : Char × Text × Text} (h : Cuts S r r') :
    Agree (Holds S) (wordOf fresh S.length msg r.1 r.2.1 r.2.2.1)
      (Shell.wordOf msg r'.1 r'.2.1) := by
  obtain ⟨tok, Q, eq, m⟩ := r
  obtain ⟨tok', q, m'⟩ := r'
  obtain ⟨rfl, -, hword, ⟨front, hfront⟩, -, hplain⟩ := h
  have hword : Q = q ++ eq := hword
  subst hword
  have hS : S = front ++ (q ++ eq) := hfront.symm
  unfold wordOf Shell.wordOf
  refine Agree.ite Iff.rfl (fun _ => Agree.error _) fun hletter => ?_
  refine Agree.ite Iff.rfl (fun _ => ?_) fun hb => ?_
  · have hslice : (q ++ eq).take ((q ++ eq).length - eq.length) = q := by
      rw [List.length_append, Nat.add_sub_cancel, List.take_left]
    have hsub : [] ++ unquote q ⊆ S := by
      intro c hc
      rw [hS]
      have hmem : c ∈ q := List.mem_of_mem_filter hc
      exact List.mem_append_right front (List.mem_append_left eq hmem)
    have hcopy := copyLoop_agree q (fresh (q ++ eq)) [] (by intro k hk; cases hk)
      (Nat.zero_le _) hsub
    rw [handleQuotmark, hslice]
    exact hcopy
  · have ha : tok = 'a' := by
      by_contra hne
      exact hletter ⟨hne, hb⟩
    obtain ⟨hq, heq⟩ := hplain ha
    have hpos : S.length - (q ++ eq).length = front.length := by
      rw [hS, List.length_append, Nat.add_sub_cancel]
    have hend : S.length - eq.length = front.length + q.length := by
      rw [hS, List.length_append, List.length_append, ← Nat.add_assoc, Nat.add_sub_cancel]
    rw [hpos, hend]
    exact Agree.ok (Holds.line hS (fun c hc => (hq c hc).1) heq)

end Tokens

/-! ## The routines -/

section Routines

variable {S s : Text} {c : Cmd} {c' : Shell.Cmd} {w : Str} {w' : Word}

/-- The two parsers have made the same tree, and are at the same place. -/
structure Together (S : Text) (r : Cmd × Text) (r' : Shell.Cmd × Text) : Prop where
  tree : Cmd.Rel (Holds S) r.1 r'.1
  rest : r.2 = r'.2
  suffix : r.2 <:+ S

theorem redirect_rel (tok : Char) (hc : Cmd.Rel (Holds S) c c') (hw : Holds S w w') :
    Cmd.Rel (Holds S) (redirect tok c w) (Shell.redirect tok c' w') := by
  unfold redirect Shell.redirect
  split
  · exact .redir hc hw
  · split
    · exact .redir hc hw
    · split
      · exact .redir hc hw
      · exact hc

theorem pushArg_rel (hc : Cmd.Rel (Holds S) c c') (hw : Holds S w w') :
    Cmd.Rel (Holds S) (pushArg c w) (Shell.pushArg c' w') := by
  induction hc with
  | exec h => exact .exec (List.rel_append h (List.Forall₂.cons hw List.Forall₂.nil))
  | redir _ hfile ih => exact .redir ih hfile
  | pipe hl hr => exact .pipe hl hr
  | list hl hr => exact .list hl hr
  | back hcmd => exact .back hcmd

/-- Only the text behind a token is looked at. -/
theorem token_agree (hs : s <:+ S) :
    Agree (fun r r' => r.2.2.2 = r'.2.2 ∧ r.2.2.2 <:+ S) (gettoken s) (Shell.gettoken s) :=
  (gettoken_agree hs).mono fun _ _ h => ⟨h.rest, h.left⟩

theorem parseredirs_agree (fresh : Text → Chars) (n : Nat) (hc : Cmd.Rel (Holds S) c c')
    (hs : s <:+ S) :
    Agree (Together S) (parseredirs fresh S.length n c s) (Shell.parseredirs n c' s) := by
  induction n generalizing c c' s with
  | zero => exact Agree.error _
  | succ n ih =>
    rw [parseredirs, Shell.parseredirs]
    apply Agree.ite Iff.rfl _ fun _ => Agree.ok ⟨hc, rfl, skip_suffix hs⟩
    intro _
    apply (gettoken_agree (skip_suffix hs)).bind
    rintro ⟨tok1, q1, eq1, m1⟩ ⟨tok1', q1', m1'⟩ ⟨rfl, rfl, -, -, hm1, -⟩
    apply (gettoken_agree hm1).bind
    intro r r' hcut
    apply (wordOf_agree fresh _ hcut).bind
    intro w w' hw
    rw [← hcut.rest]
    exact ih (redirect_rel tok1 hc hw) hcut.left

theorem parseargs_agree (fresh : Text → Chars) (n argc : Nat) (hc : Cmd.Rel (Holds S) c c')
    (hs : s <:+ S) :
    Agree (Together S) (parseargs fresh S.length n argc c s) (Shell.parseargs n argc c' s) := by
  induction n generalizing argc c c' s with
  | zero => exact Agree.error _
  | succ n ih =>
    rw [parseargs, Shell.parseargs]
    apply Agree.ite Iff.rfl (fun _ => Agree.ok ⟨hc, rfl, skip_suffix hs⟩)
    intro _
    apply (gettoken_agree (skip_suffix hs)).bind
    intro r r' hcut
    apply Agree.ite (by rw [hcut.ret]) fun _ => Agree.ok ⟨hc, hcut.rest, hcut.left⟩
    intro _
    apply (wordOf_agree fresh _ hcut).bind
    intro w w' hw
    apply Agree.ite Iff.rfl fun _ => Agree.error _
    intro _
    rw [← hcut.rest]
    apply (parseredirs_agree fresh n (pushArg_rel hc hw) hcut.left).bind
    rintro ⟨ret, m⟩ ⟨ret', m'⟩ ⟨hret, rfl, hm⟩
    exact ih (argc + 1) hret hm

theorem parsebacks_agree (n : Nat) (hc : Cmd.Rel (Holds S) c c') (hs : s <:+ S) :
    Agree (Together S) (parsebacks n c s) (Shell.parsebacks n c' s) := by
  induction n generalizing c c' s with
  | zero => exact Agree.error _
  | succ n ih =>
    rw [parsebacks, Shell.parsebacks]
    apply Agree.ite Iff.rfl _ fun _ => Agree.ok ⟨hc, rfl, skip_suffix hs⟩
    intro _
    apply (token_agree (skip_suffix hs)).bind
    rintro ⟨_, _, _, m⟩ ⟨_, _, m'⟩ ⟨rfl, hm⟩
    exact ih (.back hc) hm

/-- The routine of a symbol of the grammar. -/
def parse (fresh : Text → Chars) (len : Nat) : Shell.Nt → Nat → Text → Parse (Cmd × Text)
  | .line => parseline fresh len
  | .pipe => parsepipe fresh len
  | .exec => parseexec fresh len
  | .block => parseblock fresh len

/-- With this much fuel the routines go in step. -/
def InStep (S : Text) (fresh : Text → Chars) (n : Nat) (nt : Shell.Nt) : Prop :=
  ∀ s, s <:+ S → Agree (Together S) (parse fresh S.length nt n s) (Shell.parse nt n s)

variable {fresh : Text → Chars} {n : Nat}

theorem parseline_agree (hpipe : InStep S fresh n .pipe) (hline : InStep S fresh n .line) :
    InStep S fresh (n + 1) .line := by
  intro s hs
  show Agree _ (parseline fresh S.length (n + 1) s) (Shell.parseline (n + 1) s)
  rw [parseline, Shell.parseline]
  apply (hpipe s hs).bind
  rintro ⟨cmd, m⟩ ⟨cmd', m'⟩ ⟨hcmd, rfl, hm⟩
  apply (parsebacks_agree n hcmd hm).bind
  rintro ⟨left, m1⟩ ⟨left', m1'⟩ ⟨hleft, rfl, hm1⟩
  apply Agree.ite Iff.rfl _ fun _ => Agree.ok ⟨hleft, rfl, skip_suffix hm1⟩
  intro _
  apply (token_agree (skip_suffix hm1)).bind
  rintro ⟨_, _, _, m2⟩ ⟨_, _, m2'⟩ ⟨rfl, hm2⟩
  apply (hline m2 hm2).bind
  rintro ⟨right, m3⟩ ⟨right', m3'⟩ ⟨hright, rfl, hm3⟩
  exact Agree.ok ⟨.list hleft hright, rfl, hm3⟩

theorem parsepipe_agree (hexec : InStep S fresh n .exec) (hpipe : InStep S fresh n .pipe) :
    InStep S fresh (n + 1) .pipe := by
  intro s hs
  show Agree _ (parsepipe fresh S.length (n + 1) s) (Shell.parsepipe (n + 1) s)
  rw [parsepipe, Shell.parsepipe]
  apply (hexec s hs).bind
  rintro ⟨left, m⟩ ⟨left', m'⟩ ⟨hleft, rfl, hm⟩
  apply Agree.ite Iff.rfl _ fun _ => Agree.ok ⟨hleft, rfl, skip_suffix hm⟩
  intro _
  apply (token_agree (skip_suffix hm)).bind
  rintro ⟨_, _, _, m1⟩ ⟨_, _, m1'⟩ ⟨rfl, hm1⟩
  apply (hpipe m1 hm1).bind
  rintro ⟨right, m2⟩ ⟨right', m2'⟩ ⟨hright, rfl, hm2⟩
  exact Agree.ok ⟨.pipe hleft hright, rfl, hm2⟩

theorem parseexec_agree (hblock : InStep S fresh n .block) : InStep S fresh (n + 1) .exec := by
  intro s hs
  show Agree _ (parseexec fresh S.length (n + 1) s) (Shell.parseexec (n + 1) s)
  rw [parseexec, Shell.parseexec]
  apply Agree.ite Iff.rfl fun _ => hblock (skip s) (skip_suffix hs)
  intro _
  apply (parseredirs_agree fresh n (.exec List.Forall₂.nil) (skip_suffix hs)).bind
  rintro ⟨ret, m⟩ ⟨ret', m'⟩ ⟨hret, rfl, hm⟩
  exact parseargs_agree fresh n 0 hret hm

theorem parseblock_agree (hline : InStep S fresh n .line) : InStep S fresh (n + 1) .block := by
  intro s hs
  show Agree _ (parseblock fresh S.length (n + 1) s) (Shell.parseblock (n + 1) s)
  rw [parseblock, Shell.parseblock]
  apply Agree.ite Iff.rfl fun _ => Agree.error _
  intro _
  apply (token_agree (skip_suffix hs)).bind
  rintro ⟨_, _, _, m⟩ ⟨_, _, m'⟩ ⟨rfl, hm⟩
  apply (hline m hm).bind
  rintro ⟨cmd, m1⟩ ⟨cmd', m1'⟩ ⟨hcmd, rfl, hm1⟩
  apply Agree.ite Iff.rfl fun _ => Agree.error _
  intro _
  apply (token_agree (skip_suffix hm1)).bind
  rintro ⟨_, _, _, m2⟩ ⟨_, _, m2'⟩ ⟨rfl, hm2⟩
  exact parseredirs_agree fresh n hcmd hm2

/-- The two parsers go in step, by induction on the fuel for all routines at once. -/
theorem parse_agree (S : Text) (fresh : Text → Chars) (n : Nat) :
    ∀ nt, InStep S fresh n nt := by
  induction n with
  | zero =>
    intro nt s _
    cases nt <;> exact Agree.error _
  | succ n ih =>
    intro nt
    cases nt with
    | line => exact parseline_agree (ih .pipe) (ih .line)
    | pipe => exact parsepipe_agree (ih .exec) (ih .pipe)
    | exec => exact parseexec_agree (ih .block)
    | block => exact parseblock_agree (ih .line)

end Routines

/-! ## The zeros -/

section Zeros

variable {S : Text} {start : Nat} {m m' m'' : Chars} {c : Cmd} {c' : Shell.Cmd} {str : Str}
  {w : Word}

/-- A word of the line does not go on here. -/
def BreakAt (S : Text) (k : Nat) : Prop := ∀ c, S[k]? = some c → Breaks c

/-- Zeros have been written, where no word of the line goes on. -/
def Zeroed (S : Text) (start : Nat) (m m' : Chars) : Prop :=
  ∀ p, m' p = m p ∨ m' p = '\x00' ∧ ∃ k, p = start + k ∧ BreakAt S k

theorem Zeroed.refl (S : Text) (start : Nat) (m : Chars) : Zeroed S start m m :=
  fun _ => .inl rfl

theorem Zeroed.trans (h : Zeroed S start m m') (h' : Zeroed S start m' m'') :
    Zeroed S start m m'' := by
  intro p
  rcases h' p with heq | hzero
  · rw [heq]
    exact h p
  · exact .inr hzero

/-- A zero stays. -/
theorem Zeroed.keeps (h : Zeroed S start m m') {p : Nat} (hp : m p = '\x00') : m' p = '\x00' := by
  rcases h p with heq | ⟨hzero, -⟩
  · rw [heq, hp]
  · exact hzero

/-- The zero behind a string is there. -/
def Ended (start : Nat) (m : Chars) : Str → Prop
  | .line _ eq => m (start + eq) = '\x00'
  | .buf bytes n => bytes n = '\x00'

/-- A word and its zero. -/
def Done (S : Text) (start : Nat) (m : Chars) (str : Str) (w : Word) : Prop :=
  Holds S str w ∧ Ended start m str

theorem Done.later (hm : Zeroed S start m m') (str : Str) (w : Word) (h : Done S start m str w) :
    Done S start m' str w := by
  refine ⟨h.1, ?_⟩
  cases str with
  | line q eq => exact hm.keeps h.2
  | buf bytes n => exact h.2

/-- Where a word of the line ends there is none that goes on. -/
theorem breakAt_end {front q eq : Text} (heq : ∀ c r, eq = c :: r → Breaks c) :
    BreakAt (front ++ (q ++ eq)) (front.length + q.length) := by
  intro c hc
  rw [List.getElem?_append_right (Nat.le_add_right _ _), Nat.add_sub_cancel_left,
    List.getElem?_append_right (Nat.le_refl _), Nat.sub_self] at hc
  cases eq with
  | nil => cases hc
  | cons d r =>
    obtain rfl := Option.some.inj hc
    exact heq d r rfl

/-- One zero.  In the line there is room for it, at its end too. -/
theorem endStr_agree (hroom : start + S.length < LINE_MAX) (m : Chars) (h : Holds S str w) :
    Agree (fun r _ => Zeroed S start m r.1 ∧ Done S start r.1 r.2 w) (endStr start m str)
      (Shell.endWord w) := by
  cases h with
  | @line front q eq hS hq heq =>
    have hlen : start + (front.length + q.length) < LINE_MAX := by
      rw [hS, List.length_append, List.length_append] at hroom
      omega
    rw [endStr, if_pos hlen, Shell.endWord, if_neg (by simp)]
    refine Agree.ok ⟨fun p => ?_, Holds.line hS hq heq, Function.update_self ..⟩
    by_cases hp : p = start + (front.length + q.length)
    · subst hp
      refine .inr ⟨Function.update_self .., _, rfl, ?_⟩
      rw [hS]
      exact breakAt_end heq
    · exact .inl (Function.update_of_ne hp _ _)
  | @buf bytes text hbytes hS =>
    rw [endStr, Shell.endWord]
    by_cases hlen : text.length < MAXARGLEN
    · rw [if_pos hlen, if_neg (by simp [Nat.not_le.mpr hlen])]
      refine Agree.ok ⟨Zeroed.refl S start m, Holds.buf (fun k hk => ?_) hS,
        Function.update_self ..⟩
      rw [Function.update_of_ne (Nat.ne_of_lt hk)]
      exact hbytes k hk
    · rw [if_neg hlen, if_pos (by simp [Nat.le_of_not_lt hlen])]
      exact Agree.error _

theorem endStrs_agree (hroom : start + S.length < LINE_MAX) {strs : List Str} {ws : List Word}
    (h : List.Forall₂ (Holds S) strs ws) (m : Chars) :
    Agree (fun r _ => Zeroed S start m r.1 ∧ List.Forall₂ (Done S start r.1) r.2 ws)
      (endStrs start m strs) (ws.forM Shell.endWord) := by
  induction h generalizing m with
  | nil => exact Agree.ok ⟨Zeroed.refl S start m, List.Forall₂.nil⟩
  | cons hw _ ih =>
    apply (endStr_agree hroom m hw).bind
    rintro ⟨m1, w1⟩ _ ⟨hm1, hw1⟩
    apply (ih m1).bind_left
    rintro ⟨m2, ws2⟩ _ ⟨hm2, hws2⟩
    -- The zero of the first word is still there after those of the others.
    exact Agree.ok ⟨hm1.trans hm2, List.Forall₂.cons (Done.later hm2 _ _ hw1) hws2⟩

theorem nulterminate_agree (hroom : start + S.length < LINE_MAX) (h : Cmd.Rel (Holds S) c c')
    (m : Chars) :
    Agree (fun r _ => Zeroed S start m r.1 ∧ Cmd.Rel (Done S start r.1) r.2 c')
      (nulterminate start m c) (Shell.nulterminate c') := by
  induction h generalizing m with
  | exec hargs =>
    rw [nulterminate, Shell.nulterminate]
    apply (endStrs_agree hroom hargs m).bind_left
    rintro ⟨m1, ws⟩ _ ⟨hm1, hws⟩
    exact Agree.ok ⟨hm1, .exec hws⟩
  | redir _ hfile ih =>
    rw [nulterminate, Shell.nulterminate]
    apply (ih m).bind
    rintro ⟨m1, cmd⟩ _ ⟨hm1, hcmd⟩
    apply (endStr_agree hroom m1 hfile).bind_left
    rintro ⟨m2, file⟩ _ ⟨hm2, hfile⟩
    exact Agree.ok ⟨hm1.trans hm2, .redir (hcmd.mono (Done.later hm2)) hfile⟩
  | pipe _ _ ihl ihr =>
    rw [nulterminate, Shell.nulterminate]
    apply (ihl m).bind
    rintro ⟨m1, left⟩ _ ⟨hm1, hleft⟩
    apply (ihr m1).bind_left
    rintro ⟨m2, right⟩ _ ⟨hm2, hright⟩
    exact Agree.ok ⟨hm1.trans hm2, .pipe (hleft.mono (Done.later hm2)) hright⟩
  | list _ _ ihl ihr =>
    rw [nulterminate, Shell.nulterminate]
    apply (ihl m).bind
    rintro ⟨m1, left⟩ _ ⟨hm1, hleft⟩
    apply (ihr m1).bind_left
    rintro ⟨m2, right⟩ _ ⟨hm2, hright⟩
    exact Agree.ok ⟨hm1.trans hm2, .list (hleft.mono (Done.later hm2)) hright⟩
  | back _ ih =>
    rw [nulterminate, Shell.nulterminate]
    apply (ih m).bind_left
    rintro ⟨m1, cmd⟩ _ ⟨hm1, hcmd⟩
    exact Agree.ok ⟨hm1, .back hcmd⟩

/-- The zeros of the others are not in a word of the line. -/
theorem Done.shows (hnul : '\x00' ∉ S) {cmdbuf : Chars}
    (hline : ∀ k (hk : k < S.length), cmdbuf (start + k) = S[k]) (hm : Zeroed S start cmdbuf m)
    (str : Str) (w : Word) (h : Done S start m str w) : Shows start m str w := by
  obtain ⟨hholds, hended⟩ := h
  cases hholds with
  | @line front q eq hS hq heq =>
    refine ⟨fun k hk => ?_, ?_, ?_⟩
    · have hk : k < q.length := hk
      have hlt : front.length + k < S.length := by
        rw [hS, List.length_append, List.length_append]
        omega
      have hchar : S[front.length + k] = q[k] := by
        simp only [hS]
        rw [List.getElem_append_right (Nat.le_add_right _ _), List.getElem_append_left (by omega)]
        congr 1
        omega
      have hpos : start + front.length + k = start + (front.length + k) := Nat.add_assoc ..
      rw [hpos]
      -- A zero that has been written is where no word goes on, and this one does.
      rcases hm (start + (front.length + k)) with hkept | ⟨-, k', hk', hbreak⟩
      · rw [hkept, hline _ hlt, hchar]
      · obtain rfl : k' = front.length + k := by omega
        have hsome : S[front.length + k]? = some q[k] := by
          rw [List.getElem?_eq_getElem hlt, hchar]
        exact absurd (hbreak _ hsome) (hq _ (List.getElem_mem hk))
    · show m (start + front.length + q.length) = _
      rw [Nat.add_assoc]
      exact hended
    · intro hzero
      apply hnul
      rw [hS]
      exact List.mem_append_right front (List.mem_append_left eq hzero)
  | @buf bytes text hbytes hS =>
    refine ⟨fun k hk => ?_, ?_, fun hzero => hnul (hS hzero)⟩
    · show bytes (0 + k) = _
      rw [Nat.zero_add]
      exact hbytes k hk
    · show bytes (0 + text.length) = _
      rw [Nat.zero_add]
      exact hended

end Zeros

/-! ## Whole lines -/

/-- The line is at `start` in `cmdbuf`. -/
def InBuf (cmdbuf : Chars) (start : Nat) (s : Text) : Prop :=
  (∀ k (hk : k < s.length), cmdbuf (start + k) = s[k]) ∧ cmdbuf (start + s.length) = '\x00'

section Lines

variable {s : Text} {start : Nat} {cmdbuf : Chars}

/-- The parser on memory does what the parser on texts does, and the strings of its tree are the
    texts of the words of the other's. -/
theorem parsecmd_agree (hnul : '\x00' ∉ s) (hroom : start + s.length < LINE_MAX)
    (hline : InBuf cmdbuf start s) (fresh : Text → Chars) (n : Nat) :
    Agree (fun r t => Cmd.Rel (Shows start r.1) r.2 t) (parsecmd fresh n start cmdbuf s)
      (Shell.parsecmd n s) := by
  unfold parsecmd Shell.parsecmd
  apply (parse_agree s fresh n .line s (List.suffix_refl s)).bind
  rintro ⟨cmd, m⟩ ⟨cmd', m'⟩ ⟨hcmd, rfl, -⟩
  apply Agree.ite Iff.rfl fun _ => Agree.error _
  intro _
  rw [← bind_pure (nulterminate start cmdbuf cmd)]
  apply (nulterminate_agree hroom hcmd cmdbuf).bind
  rintro ⟨m, c⟩ _ ⟨hm, hc⟩
  exact Agree.ok (hc.mono (Done.shows hnul hline.1 hm))

/-- Every accepted line is parsed without a byte written out of bounds, given fuel enough, and the
    strings of the tree are the texts of the words that the grammar has for it. -/
def KeepsText (start : Nat) (s : Text) : Prop :=
  ∃ N, ∀ n, N ≤ n → ∀ fresh cmdbuf t, InBuf cmdbuf start s → IsLine s t →
    ∃ cmdbuf' c, parsecmd fresh n start cmdbuf s = .ok (cmdbuf', c) ∧
      Cmd.Rel (Shows start cmdbuf') c t

/-- The text of a word is that of its token without the quotation marks. -/
theorem word_text {q m : Text} {ret : Char} {w : Word} (hget : Shell.gettoken s = .ok (ret, q, m))
    (htok : tokOf ret q = .word w) : w.text = unquote q := by
  rcases Shell.ret_of_word htok with rfl | rfl
  · obtain rfl := Shell.Tok.word.inj htok
    obtain ⟨r, -, hcut⟩ := (gettoken_agree (List.suffix_refl s)).of_right hget
    have hplain := (hcut.plain hcut.ret).1
    apply (List.filter_eq_self.mpr _).symm
    intro c hc
    exact decide_eq_true (hplain c hc).2
  · obtain rfl := Shell.Tok.word.inj htok
    rfl

/-- Behind the last token there is none. -/
theorem ret_of_end {q m : Text} {ret : Char} (hs : skip s = [])
    (hget : Shell.gettoken s = .ok (ret, q, m)) : ret = '\x00' := by
  rw [← Shell.gettoken_skip, hs] at hget
  exact (congrArg Prod.fst (Except.ok.inj hget)).symm

/-- A line has one sequence of tokens. -/
theorem lexes_unique {a b : List Shell.Tok} {e e' : Text} (ha : Lexes s a e) (he : e = [])
    (hb : Lexes s b e') (he' : e' = []) : a = b := by
  induction ha generalizing b with
  | nil s =>
    cases hb with
    | nil => rfl
    | cons hget hret _ => exact absurd (ret_of_end he hget) hret
  | cons hget hret _ ih =>
    cases hb with
    | nil => exact absurd (ret_of_end he' hget) hret
    | cons hget' hret' hrest =>
      rw [hget] at hget'
      obtain ⟨rfl, rfl, rfl⟩ := Except.ok.inj hget'
      rw [ih he hrest]

theorem keepsText_of_ends (hnul : '\x00' ∉ s) (hroom : start + s.length < LINE_MAX)
    (hends : ∀ toks t, Lexes s toks [] → Derives .line toks t → ∀ w, .word w ∈ toks → w.Ends) :
    KeepsText start s := by
  refine ⟨Shell.enough .line s, fun n hn fresh cmdbuf t hline => ?_⟩
  rintro ⟨toks, hlex, hder⟩
  have htext := Shell.parsecmd_complete hn hlex hder (hends toks t hlex hder)
  obtain ⟨⟨cmdbuf', c⟩, hmem, hshows⟩ := (parsecmd_agree hnul hroom hline fresh n).of_right htext
  exact ⟨cmdbuf', c, hmem, hshows⟩

/-- The line in memory, and zeros. -/
def lineBuf (start : Nat) (s : Text) : Chars := fun p => (s[p - start]?).getD '\x00'

theorem inBuf_lineBuf (start : Nat) (s : Text) : InBuf (lineBuf start s) start s := by
  constructor
  · intro k hk
    rw [lineBuf, Nat.add_sub_cancel_left, List.getElem?_eq_getElem hk]
    rfl
  · rw [lineBuf, Nat.add_sub_cancel_left, List.getElem?_eq_none (Nat.le_refl _)]
    rfl

theorem ends_of_keepsText (hnul : '\x00' ∉ s) (hroom : start + s.length < LINE_MAX)
    (h : KeepsText start s) {toks : List Shell.Tok} {t : Shell.Cmd} (hlex : Lexes s toks [])
    (hder : Derives .line toks t) : ∀ w, .word w ∈ toks → w.Ends := by
  obtain ⟨N, hN⟩ := h
  have hline := inBuf_lineBuf start s
  obtain ⟨cmdbuf', c, hmem, -⟩ :=
    hN N (Nat.le_refl N) (fun _ _ => '\x00') _ t hline ⟨toks, hlex, hder⟩
  obtain ⟨t', htext, -⟩ := (parsecmd_agree hnul hroom hline _ N).of_left hmem
  obtain ⟨⟨toks', hlex', hder'⟩, hends⟩ := Shell.parsecmd_sound htext
  -- The tree that is returned may be another one, but its words are those of the same tokens.
  obtain rfl := lexes_unique hlex rfl hlex' rfl
  exact fun w hw => hends w ((hder'.words w).mpr hw)

/-- No word is longer than the line. -/
theorem word_length_le {toks : List Shell.Tok} {e : Text} (h : Lexes s toks e) :
    ∀ w, .word w ∈ toks → w.text.length ≤ s.length := by
  induction h with
  | nil s =>
    intro w hw
    cases hw
  | @cons s q m e ret toks hget hret _ ih =>
    intro w hw
    obtain ⟨r, -, hcut⟩ := (gettoken_agree (List.suffix_refl s)).of_right hget
    rcases List.mem_cons.mp hw with htok | hw
    · have hlen : (unquote q).length ≤ q.length := List.length_filter_le _ q
      have hsuffix := hcut.suffix.length_le
      rw [hcut.word, List.length_append] at hsuffix
      rw [word_text hget htok.symm]
      have hq : q.length ≤ s.length := Nat.le_trans (Nat.le_add_right _ _) hsuffix
      exact Nat.le_trans hlen hq
    · have hm := hcut.left.length_le
      rw [hcut.rest] at hm
      exact Nat.le_trans (ih w hw) hm

end Lines

/-- The words of an accepted line keep their text, and nothing is written out of bounds, if and only
    if there is room for the zero behind every word that is in a buffer. -/
theorem shell_words {s : Text} {start : Nat} (hnul : '\x00' ∉ s)
    (hroom : start + s.length < LINE_MAX) :
    KeepsText start s ↔
      ∀ toks t, Lexes s toks [] → Derives .line toks t → ∀ w, .word w ∈ toks → w.Ends := by
  constructor
  · intro h toks t hlex hder
    exact ends_of_keepsText hnul hroom h hlex hder
  · exact keepsText_of_ends hnul hroom

/-- `a "b c">f`, behind two blanks that `trim` has skipped. -/
abbrev quotedLine : Text := ['a', ' ', quotmark, 'b', ' ', 'c', quotmark, '>', 'f']

theorem shell_words_quoted :
    IsLine quotedLine
      (.redir (.exec [⟨['a'], false⟩, ⟨['b', ' ', 'c'], true⟩]) ⟨['f'], false⟩ 0x241 1) ∧
    KeepsText 2 quotedLine := by
  have htext : Shell.parsecmd 40 quotedLine = .ok
      (.redir (.exec [⟨['a'], false⟩, ⟨['b', ' ', 'c'], true⟩]) ⟨['f'], false⟩ 0x241 1) := by
    decide
  refine ⟨(Shell.parsecmd_sound htext).1, (shell_words (by simp [quotmark]) (by decide)).mpr ?_⟩
  intro toks t hlex _ w hw _
  exact Nat.lt_of_le_of_lt (word_length_le hlex w hw) (by decide)

/-- One quoted word of 64 letters. -/
abbrev fullLine : Text := quotmark :: (List.replicate 64 'a' ++ [quotmark])

/-- The word fills its buffer, and its zero goes behind it. -/
theorem fullLine_overruns : ¬ ∀ (s : Text) (start : Nat), '\x00' ∉ s →
    start + s.length < LINE_MAX → KeepsText start s := by
  intro h
  have hget : Shell.gettoken fullLine = .ok ('b', fullLine, []) := by rfl
  have hlex : Lexes fullLine [.word ⟨unquote fullLine, true⟩] [] := .single_word hget rfl
  have hder : Derives .line [.word ⟨unquote fullLine, true⟩] _ :=
    .last 0 (.one (.plain .nil (.cons .nil .nil) (by decide)))
  have hnul : '\x00' ∉ fullLine := by simp [quotmark]
  have hroom : 0 + fullLine.length < LINE_MAX := by decide
  have hends := ends_of_keepsText hnul hroom (h fullLine 0 hnul hroom) hlex hder _
    List.mem_cons_self rfl
  revert hends
  decide

end Uniks.ShellMem
