/-
  Which lines the shell's parser gets right: those whose quoted words fit into their buffers.

  On such a line `parsecmd` returns the tree that the grammar assigns, or it panics where there is
  none.  `handle_quotmark` has no bound for what it copies, and `nulterminate` none for where it
  puts the zero: a word of as many bytes as the buffer has is copied, but no room is left behind it.
-/
import Uniks.ShellComplete

namespace Uniks.Shell

open Uniks.Hoare

variable {s s' m : Text} {c t : Cmd} {w : Word} {a b toks : List Tok} {ws : List Word}
  {rs : List Redir} {nt : Nt} {n : Nat}

/-! ## The words of a tree -/

/-- There is room for the zero behind the word. -/
def Word.Ends (w : Word) : Prop := w.inBuf = true → w.text.length < MAXARGLEN

theorem Word.Ends.fits (h : w.Ends) : w.Fits := fun hbuf => Nat.le_of_lt (h hbuf)

def Cmd.words : Cmd → List Word
  | .exec argv => argv
  | .redir cmd file _ _ => cmd.words ++ [file]
  | .pipe left right => left.words ++ right.words
  | .list left right => left.words ++ right.words
  | .back cmd => cmd.words

instance (w : Word) : Decidable w.Ends := inferInstanceAs (Decidable (_ → _))

/-- Zeros are written, and there is room for them if `p`. -/
def room (p : Prop) [Decidable p] : Parse Unit := if p then .ok () else .error .overrun

section
variable {p q : Prop} [Decidable p] [Decidable q]

theorem room_seq : (do room p; room q) = room (p ∧ q) := by
  by_cases hp : p
  · simp [room, hp]
  · simp [room, hp]

theorem room_congr (h : p ↔ q) : room p = room q := if_congr h rfl rfl

end

theorem endWord_eq (w : Word) : endWord w = room w.Ends := by
  unfold endWord room Word.Ends
  by_cases hbuf : w.inBuf = true
  · by_cases hlen : w.text.length < MAXARGLEN
    · simp [hbuf, hlen, Nat.not_le.mpr hlen]
    · simp [hbuf, hlen, Nat.le_of_not_lt hlen]
  · simp [hbuf]

theorem endWords_eq (ws : List Word) : ws.forM endWord = room (∀ w ∈ ws, w.Ends) := by
  induction ws with
  | nil => simp [room, pure, Except.pure]
  | cons w ws ih =>
    show (do endWord w; ws.forM endWord) = _
    rw [endWord_eq, ih, room_seq]
    exact room_congr List.forall_mem_cons.symm

theorem nulterminate_eq (c : Cmd) : nulterminate c = room (∀ w ∈ c.words, w.Ends) := by
  induction c with
  | exec argv => exact endWords_eq argv
  | redir cmd file mode fd ih =>
    rw [nulterminate, ih, endWord_eq, room_seq]
    exact room_congr (by simp [Cmd.words, or_imp, forall_and])
  | pipe left right ihl ihr | list left right ihl ihr =>
    rw [nulterminate, ihl, ihr, room_seq]
    exact room_congr List.forall_mem_append.symm
  | back cmd ih => exact ih

theorem redirect_words {o : Char} (ho : o ∈ redirOps) :
    (redirect o c w).words = c.words ++ [w] := by
  simp only [redirOps, List.mem_cons, List.not_mem_nil, or_false] at ho
  obtain rfl | rfl | rfl := ho <;> rfl

theorem wrap_words (h : ∀ r ∈ rs, r.1 ∈ redirOps) :
    (wrap c rs).words = c.words ++ rs.map Prod.snd := by
  induction rs generalizing c with
  | nil => simp [wrap]
  | cons r rs ih =>
    rw [List.forall_mem_cons] at h
    rw [wrap_cons, ih h.2, redirect_words h.1]
    simp

theorem backs_words (k : Nat) (c : Cmd) : (backs k c).words = c.words := by
  induction k generalizing c with
  | zero => rfl
  | succ k ih => exact ih (.back c)

theorem Redirs.words (h : Redirs b rs) :
    (∀ r ∈ rs, r.1 ∈ redirOps) ∧ ∀ w, w ∈ rs.map Prod.snd ↔ .word w ∈ b := by
  induction h with
  | nil => simp
  | cons ho _ ih => exact ⟨List.forall_mem_cons.mpr ⟨ho, ih.1⟩, fun w => by simp [← ih.2 w]⟩

theorem Args.words (h : Args a ws rs) :
    (∀ r ∈ rs, r.1 ∈ redirOps) ∧ ∀ w, w ∈ ws ∨ w ∈ rs.map Prod.snd ↔ .word w ∈ a := by
  induction h with
  | nil => simp
  | cons hb _ ih =>
    refine ⟨List.forall_mem_append.mpr ⟨hb.words.1, ih.1⟩, fun w => ?_⟩
    simp only [List.map_append, List.mem_append, List.mem_cons, Tok.word.injEq, List.cons_append,
      ← hb.words.2 w, ← ih.2 w]
    tauto

/-- A tree has the words of its line. -/
theorem Derives.words (h : Derives nt toks t) : ∀ w, w ∈ t.words ↔ .word w ∈ toks := by
  induction h with
  | last k _ ih =>
    intro w
    simp [backs_words, ih w]
  | seq k _ _ iha ihb =>
    intro w
    simp [Cmd.words, backs_words, iha w, ihb w]
  | one _ ih => exact ih
  | bar _ _ iha ihb =>
    intro w
    simp [Cmd.words, iha w, ihb w]
  | group _ ih => exact ih
  | plain hb ha _ =>
    intro w
    rw [wrap_words (List.forall_mem_append.mpr ⟨hb.words.1, ha.words.1⟩)]
    simp only [Cmd.words, List.map_append, List.mem_append, ← hb.words.2 w, ← ha.words.2 w]
    tauto
  | parens _ hb ih =>
    intro w
    rw [wrap_words hb.words.1]
    simp [ih w, ← hb.words.2 w]

/-! ## Whole lines -/

/-- The parser does what the grammar says, given fuel enough. -/
def Exact (s : Text) : Prop :=
  ∃ N, ∀ n, N ≤ n → (∀ t, parsecmd n s = .ok t ↔ IsLine s t)
    ∧ ((∀ t, ¬ IsLine s t) → ∃ msg, parsecmd n s = .error (.panic msg))

/-- No quoted word is larger than its buffer where the parser reads it, and none fills its buffer
if the line is one of the grammar. -/
structure Fits (s : Text) : Prop where
  read : ∀ u w m, Reads .line u → Lexes s (u ++ [.word w]) m → w.Fits
  ended : ∀ toks t, Lexes s toks [] → Derives .line toks t → ∀ w, .word w ∈ toks → w.Ends

theorem parsecmd_of_line (h : parseline n s = .ok (t, s')) (hs : skip s' = []) :
    parsecmd n s = if ∀ w ∈ t.words, w.Ends then .ok t else .error .overrun := by
  unfold parsecmd
  simp only [h, ok_bind, hs, ne_eq, not_true, if_false, nulterminate_eq, room]
  split <;> rfl

theorem parsecmd_of_leftovers (h : parseline n s = .ok (t, s')) (hs : skip s' ≠ []) :
    parsecmd n s = .error (.panic "syntax error") := by
  unfold parsecmd
  simp only [h, ok_bind, hs, ne_eq, not_false_iff, if_true]

theorem parsecmd_of_error {e : Stop} (h : parseline n s = .error e) :
    parsecmd n s = .error e := by
  unfold parsecmd
  rw [h]
  rfl

/-- A tree that `parseline` returns with nothing behind it is that of the line. -/
theorem isLine_of_parseline (h : parseline n s = .ok (t, s')) (hs : skip s' = []) :
    IsLine s t := by
  obtain ⟨toks, hlex, hder⟩ := (parse_sound n .line s).of_ok h
  have hrest : skip s' = s' := hlex.skip_rest
  rw [hs] at hrest
  exact ⟨toks, hrest ▸ hlex, hder⟩

/-- What is returned is the tree of the line, and all its words have their zeros. -/
theorem parsecmd_sound (h : parsecmd n s = .ok t) : IsLine s t ∧ ∀ w ∈ t.words, w.Ends := by
  cases hline : parseline n s with
  | error e =>
    rw [parsecmd_of_error hline] at h
    cases h
  | ok r =>
    obtain ⟨c, s'⟩ := r
    by_cases hs : skip s' = []
    · rw [parsecmd_of_line hline hs] at h
      split at h
      · next hends =>
        cases h
        exact ⟨isLine_of_parseline hline hs, hends⟩
      · cases h
    · rw [parsecmd_of_leftovers hline hs] at h
      cases h

/-- `parsecmd` comes to an end on every line. -/
theorem parsecmd_total (h : enough .line s ≤ n) : parsecmd n s ≠ .error .fuel := by
  intro hfuel
  cases hline : parseline n s with
  | error e =>
    rw [parsecmd_of_error hline, Except.error.injEq] at hfuel
    subst hfuel
    exact absurd ((parse_sound n .line s).of_error hline) (Nat.not_lt.mpr h)
  | ok r =>
    obtain ⟨c, s'⟩ := r
    by_cases hs : skip s' = []
    · rw [parsecmd_of_line hline hs] at hfuel
      split at hfuel <;> cases hfuel
    · rw [parsecmd_of_leftovers hline hs] at hfuel
      cases hfuel

/-- The tree of a line is found if there is room for its words. -/
theorem parsecmd_complete (hn : enough .line s ≤ n) (hlex : Lexes s toks [])
    (hder : Derives .line toks t) (hends : ∀ w, .word w ∈ toks → w.Ends) :
    parsecmd n s = .ok t := by
  have hgives : Gives False n .line s t [] :=
    parse_complete hder n hlex before_nil fun w hw hfit => hfit (hends w hw).fits
  have hwords : ∀ w ∈ t.words, w.Ends := fun w hw => hends w ((hder.words w).mp hw)
  cases hline : parseline n s with
  | error e =>
    obtain rfl | ⟨-, h⟩ := hgives.of_error hline
    · exact absurd (parsecmd_of_error hline) (parsecmd_total hn)
    · exact h.elim
  | ok r =>
    obtain rfl := hgives.of_ok hline
    rw [parsecmd_of_line hline rfl, if_pos hwords]

theorem Fits.exact (h : Fits s) : Exact s := by
  refine ⟨enough .line s, fun n hn => ⟨fun t => ⟨fun ht => (parsecmd_sound ht).1, ?_⟩, ?_⟩⟩
  · rintro ⟨toks, hlex, hder⟩
    exact parsecmd_complete hn hlex hder (h.ended toks t hlex hder)
  · intro hnone
    cases hline : parseline n s with
    | error e =>
      rw [parsecmd_of_error hline]
      have he := (parse_sound n .line s).of_error hline
      cases e with
      | panic msg => exact ⟨msg, rfl⟩
      | overrun =>
        obtain ⟨u, w, m, hu, hlex, hfit⟩ := he
        exact absurd (h.read u w m hu hlex) hfit
      | fuel => exact absurd he (Nat.not_lt.mpr hn)
    | ok r =>
      obtain ⟨t, s'⟩ := r
      by_cases hs : skip s' = []
      · exact absurd (isLine_of_parseline hline hs) (hnone t)
      · exact ⟨_, parsecmd_of_leftovers hline hs⟩

theorem Exact.fits (h : Exact s) : Fits s := by
  obtain ⟨N, hN⟩ := h
  obtain ⟨htree, hpanic⟩ := hN N (Nat.le_refl N)
  refine ⟨fun u w m hu hlex => ?_, fun toks t hlex hder w hw => ?_⟩
  · by_contra hfit
    have hfails := reads_fails hu N hlex hfit
    have hstop : ∃ e, parsecmd N s = .error e ∧ Stops True e := by
      cases hline : parseline N s with
      | error e => exact ⟨e, parsecmd_of_error hline, hfails.of_error hline⟩
      | ok r => exact (hfails.of_ok hline).elim
    obtain ⟨e, he, hstops⟩ := hstop
    by_cases hsome : ∃ t, IsLine s t
    · obtain ⟨t, ht⟩ := hsome
      rw [(htree t).mpr ht] at he
      cases he
    · obtain ⟨msg, hmsg⟩ := hpanic (not_exists.mp hsome)
      rw [hmsg] at he
      obtain rfl := Except.error.inj he
      obtain h | ⟨h, -⟩ := hstops <;> cases h
  · have ht := (htree t).mpr ⟨toks, hlex, hder⟩
    exact (parsecmd_sound ht).2 w ((hder.words w).mpr hw)

theorem parsecmd_exact_iff (s : Text) : Exact s ↔ Fits s := ⟨Exact.fits, Fits.exact⟩

/-- `a>f|(b;)&` -/
example : parsecmd 40 ['a', '>', 'f', '|', '(', 'b', ';', ')', '&']
    = .ok (.back (.pipe (.redir (.exec [⟨['a'], false⟩]) ⟨['f'], false⟩ 0x241 1)
        (.list (.exec [⟨['b'], false⟩]) (.exec [])))) := by
  decide

/-- One quoted word of 85 letters. -/
abbrev longLine : Text := quotmark :: (List.replicate 85 'a' ++ [quotmark])

/-- The word is copied to a buffer of 64 bytes. -/
theorem longLine_not_exact : ¬ Exact longLine := by
  intro h
  have hget : gettoken longLine = .ok ('b', longLine, []) := by rfl
  have hlex : Lexes longLine [.word ⟨unquote longLine, true⟩] [] := .single_word hget rfl
  have hread : Reads .line [] := .lineHead (.pipeHead (.args .nil .arg))
  have hfits := h.fits.read [] _ [] hread hlex rfl
  revert hfits
  decide

end Uniks.Shell
