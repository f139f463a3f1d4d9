/-
  What the calls of `runcmd` come to: the programs that a list of calls is going to start
  (`owed`), and that a process has its three descriptors wherever `runcmd` begins (`Ready`).

  `pipe` finds the descriptors 3 and 4, since a process that runs a command has 0, 1 and 2 and no
  others; each side moves its end to 0 or 1 and drops both, and so has three descriptors again.
-/
import Uniks.ShellRun

namespace Uniks.ShellRun

open Uniks.Shell Uniks.Runs
open Uniks.Sysfile (NFD NPROC Fd Pid)

/-! ## Tables -/

section Fds

variable {α : Type} {t : Fds α} {i : Fd} {k : Nat} {f r w : α}

theorem put_at (t : Fds α) (i : Fd) (v : Option α) : put t i.val v i = v := if_pos rfl

theorem put_off {v : Option α} (h : i.val ≠ k) : put t k v i = t i := if_neg h

theorem idle_eq (h : t i = none) (hlow : ∀ j, j < i → t j ≠ none) : idle t = some i := by
  unfold idle
  rw [List.find?_eq_some_iff_getElem]
  refine ⟨Option.isNone_iff_eq_none.mpr h, i.val, by simp, by simp, fun j hj => ?_⟩
  rw [Bool.not_eq_true', List.getElem_finRange, Option.isNone_eq_false_iff,
    Option.isSome_iff_ne_none]
  exact hlow _ hj

theorem idle_none (h : idle t = some i) : t i = none := by
  unfold idle at h
  have hfound := List.find?_some h
  exact Option.isNone_iff_eq_none.mp hfound

/-- Where a descriptor has been closed, the next file comes, if those below are open. -/
theorem install_put (hlow : ∀ j, j < i → t j ≠ none) (f : α) :
    install (put t i.val none) f = some (i, put t i.val (some f)) := by
  have hidle : idle (put t i.val none) = some i := by
    refine idle_eq (put_at t i none) fun j hj => ?_
    rw [put_off (Nat.ne_of_lt hj)]
    exact hlow j hj
  rw [install, hidle, Option.map_some, Option.some.injEq, Prod.mk.injEq]
  refine ⟨rfl, funext fun j => ?_⟩
  by_cases hj : j.val = i.val
  · simp only [put, if_pos hj]
  · simp only [put, if_neg hj]

/-- An open file is not lost by `dup` or `open`. -/
theorem install_keeps {j : Fd} {t' : Fds α} (h : install t f = some (j, t')) (hi : t i ≠ none) :
    t' i = t i := by
  obtain ⟨b, hb, heq⟩ := Option.map_eq_some_iff.mp h
  cases heq
  refine put_off fun hib => hi ?_
  rw [Fin.ext hib]
  exact idle_none hb

theorem dup_put (hf : get t k = some f) (hi : idle t = some i) :
    (FdCall.dup k).run t = put t i (some f) := by
  simp only [FdCall.run, hf, hi]

theorem dup_keeps (k : Nat) (hi : t i ≠ none) : (FdCall.dup k).run t i = t i := by
  cases hf : get t k with
  | none => simp only [FdCall.run, hf]
  | some f =>
    cases hb : idle t with
    | none => simp only [FdCall.run, hf, hb]
    | some b =>
      rw [dup_put hf hb]
      refine put_off fun hib => hi ?_
      rw [Fin.ext hib]
      exact idle_none hb

/-- The descriptors 0, 1 and 2, and no others. -/
def Std (t : Fds α) : Prop := ∀ i : Fd, t i ≠ none ↔ i.val < 3

theorem Std.put (h : Std t) (hk : k < 3) (f : α) : Std (put t k (some f)) := by
  intro i
  by_cases hi : i.val = k
  · subst hi
    rw [put_at]
    exact ⟨fun _ => hk, fun _ => nofun⟩
  · rw [put_off hi]
    exact h i

theorem Std.closed (h : Std t) (hi : 3 ≤ i.val) : t i = none := by
  by_contra hne
  exact Nat.not_lt.mpr hi ((h i).mp hne)

theorem Std.low (h : Std t) (hi : i.val < 3) : ∀ j, j < i → t j ≠ none :=
  fun j hj => (h j).mpr (Nat.lt_trans hj hi)

/-- The table behind `pipe(p)`. -/
def piped (t : Fds α) (r w : α) : Fds α := put (put t 3 (some r)) 4 (some w)

theorem Std.pipeFds (h : Std t) (r w : α) : pipeFds t r w = some (3, 4, piped t r w) := by
  have h3 : idle t = some 3 := idle_eq (h.closed (Nat.le_refl 3)) fun j hj => (h j).mpr hj
  have h4 : idle (ShellRun.put t 3 (some r)) = some 4 := by
    refine idle_eq ?_ fun j hj => ?_
    · rw [put_off (by decide)]
      exact h.closed (by decide)
    · by_cases hj3 : j.val = 3
      · simp [ShellRun.put, hj3]
      · rw [put_off hj3]
        have hlt : j.val < 4 := hj
        exact (h j).mpr (by omega)
  unfold ShellRun.pipeFds
  simp only [install, h3, Option.map_some, Option.bind_eq_bind, Option.bind_some]
  rw [show ((3 : Fd) : Nat) = 3 from rfl, h4]
  rfl

/-- One side of a pipe: its descriptor `k` is the end `e`, and the rest is as before. -/
theorem Std.wire (h : Std t) (hk : k < 3) {e : Nat} (he : get (piped t r w) e = some f)
    (hek : e = 3 ∨ e = 4) :
    [FdCall.close k, .dup e, .close 3, .close 4].foldl FdCall.run (piped t r w)
      = ShellRun.put t k (some f) := by
  let i : Fd := ⟨k, Nat.lt_trans hk (by decide)⟩
  have hlow : ∀ j, j < i → piped t r w j ≠ none := by
    intro j hj
    have hjk : j.val < k := hj
    rw [piped, put_off (by omega), put_off (by omega)]
    exact (h j).mpr (by omega)
  obtain ⟨b, hb, heq⟩ := Option.map_eq_some_iff.mp (install_put hlow f)
  obtain ⟨rfl, -⟩ := Prod.mk.inj heq
  have hget : get (ShellRun.put (piped t r w) k none) e = some f := by
    have hlt : e < NFD := by
      obtain rfl | rfl := hek <;> decide
    unfold get at he ⊢
    rw [dif_pos hlt] at he ⊢
    rw [put_off (show e ≠ k by omega)]
    exact he
  have hclose : (FdCall.close k).run (piped t r w) = ShellRun.put (piped t r w) k none := rfl
  simp only [List.foldl_cons, List.foldl_nil]
  rw [hclose, dup_put hget hb]
  funext j
  have h3 : j.val = 3 → t j = none := fun hj => h.closed (by omega)
  have h4 : j.val = 4 → t j = none := fun hj => h.closed (by omega)
  simp only [FdCall.run, ShellRun.put, piped]
  split_ifs <;> first | rfl | omega | simp_all

theorem Std.unpipe (h : Std t) (r w : α) :
    ShellRun.put (ShellRun.put (piped t r w) 3 none) 4 none = t := by
  funext j
  have h3 : j.val = 3 → t j = none := fun hj => h.closed (by omega)
  have h4 : j.val = 4 → t j = none := fun hj => h.closed (by omega)
  simp only [ShellRun.put, piped]
  split_ifs <;> simp_all

end Fds

/-! ## What a process holds -/

variable {x site : Site} {t t' : Fds File} {i : Fd} {acts : List Act} {cmd : Cmd} {w : Bool}

/-- The ends of pipes in a table belong to a process at `x`: each is for the side it is on. -/
def Owns (x : Site) (t : Fds File) : Prop :=
  ∀ i site w, t i = some (.pipe site w) → site ++ [side w] <+: x

theorem Owns.mono (h : Owns x t) (hx : x <+: site) : Owns site t :=
  fun i s w hi => (h i s w hi).trans hx

theorem Owns.put {k : Nat} {f : File} (h : Owns x t)
    (hf : ∀ s w, f = .pipe s w → s ++ [side w] <+: x) : Owns x (put t k (some f)) := by
  intro i s w hi
  by_cases hik : i.val = k
  · subst hik
    rw [put_at] at hi
    exact hf s w (Option.some.inj hi)
  · rw [put_off hik] at hi
    exact h i s w hi

/-- The table of a process at `x` that runs a command. -/
structure Neat (x : Site) (t : Fds File) : Prop where
  std : Std t
  owns : Owns x t

theorem Neat.mono (h : Neat x t) (hx : x <+: site) : Neat site t := ⟨h.std, h.owns.mono hx⟩

theorem Neat.put {k : Nat} {f : File} (h : Neat x t) (hk : k < 3)
    (hf : ∀ s w, f = .pipe s w → s ++ [side w] <+: x) : Neat x (put t k (some f)) :=
  ⟨h.std.put hk f, h.owns.put hf⟩

/-- One side of a `pipecmd`. -/
theorem Neat.side (h : Neat site t) {k : Nat} (hk : k < 3) (w : Bool) :
    Neat (site ++ [side w]) (ShellRun.put t k (some (.pipe site w))) := by
  refine (h.mono (List.prefix_append site _)).put hk fun s v heq => ?_
  obtain ⟨rfl, rfl⟩ := File.pipe.inj heq
  exact List.prefix_refl _

/-- Redirections are of 0, 1 or 2. -/
def Plain : Cmd → Prop
  | .exec _ => True
  | .redir cmd _ _ fd => fd < 3 ∧ Plain cmd
  | .pipe left right => Plain left ∧ Plain right
  | .list left right => Plain left ∧ Plain right
  | .back cmd => Plain cmd

/-- A process at `x` with the table `t` and these calls left has the three descriptors wherever it
    waits, ends, or goes on with a command, and so do the children it forks. -/
def Ready (x : Site) : Fds File → List Act → Prop
  | _, [] => False
  | t, .getcmd site lines :: _ => x <+: site ∧ Neat x t ∧ ∀ l ∈ lines, l.Fits
  | t, .fd call :: acts => Ready x (call.run t) acts
  | t, .openFile site file mode :: acts =>
    ∃ i t', install t (.named site file mode) = some (i, t') ∧ Ready x t' acts
  | t, .pipe site left right :: _ => x = site ∧ Neat x t ∧ Plain left ∧ Plain right
  | t, .fork calls site cmd :: acts =>
    Neat site (calls.foldl FdCall.run t) ∧ (∀ c ∈ cmd, Plain c) ∧ Ready x t acts
  | t, .wait :: acts => Neat x t ∧ Ready x t acts
  | t, .run site cmd :: _ => x <+: site ∧ Neat x t ∧ Plain cmd
  | t, .exec site _ :: acts => x = site ∧ Neat x t ∧ acts = [.exit]
  | t, .exit :: _ => Neat x t

/-- The programs that a process and the children it forks are going to start. -/
def owed : Fds File → List Act → Multiset Start
  | _, [] => 0
  | t, .getcmd site lines :: _ => session site lines t
  | t, .fd call :: acts => owed (call.run t) acts
  | t, .openFile site file mode :: acts =>
    (install t (.named site file mode)).elim 0 fun r => owed r.2 acts
  | t, .pipe site left right :: _ => wiring site (.pipe left right) t
  | t, .fork calls site cmd :: acts =>
    (cmd.elim 0 fun c => wiring site c (calls.foldl FdCall.run t)) + owed t acts
  | t, .wait :: acts => owed t acts
  | t, .run site cmd :: _ => wiring site cmd t
  | t, .exec site argv :: _ => {⟨site, argv, t⟩}
  | _, .exit :: _ => 0

theorem ready_calls (calls : List FdCall) :
    Ready x t (calls.map .fd ++ acts) ↔ Ready x (calls.foldl FdCall.run t) acts := by
  induction calls generalizing t with
  | nil => rfl
  | cons call calls ih => exact ih

theorem owed_calls (calls : List FdCall) :
    owed t (calls.map .fd ++ acts) = owed (calls.foldl FdCall.run t) acts := by
  induction calls generalizing t with
  | nil => rfl
  | cons call calls ih => exact ih

theorem ready_child {calls : List FdCall} {c : Option Cmd}
    (h : Neat site (calls.foldl FdCall.run t)) (hc : ∀ cmd ∈ c, Plain cmd) :
    Ready site t (childActs calls site c) := by
  cases c with
  | none => exact (ready_calls calls).mpr h
  | some cmd => exact (ready_calls calls).mpr ⟨List.prefix_refl _, h, hc cmd rfl⟩

theorem owed_child (calls : List FdCall) (c : Option Cmd) :
    owed t (childActs calls site c) =
      c.elim 0 fun cmd => wiring site cmd (calls.foldl FdCall.run t) := by
  cases c with
  | none => exact owed_calls calls
  | some cmd => exact owed_calls calls

/-! ## The calls of a command -/

theorem install_close (h : Std t) {fd : Nat} (hfd : fd < 3) (f : File) :
    ∃ i, install ((FdCall.close fd).run t) f = some (i, put t fd (some f)) :=
  ⟨⟨fd, Nat.lt_trans hfd (by decide)⟩,
    install_put (h.low (i := ⟨fd, Nat.lt_trans hfd (by decide)⟩) hfd) f⟩

theorem runcmd_ready (h : Neat site t) (hplain : Plain cmd) : Ready site t (runcmd site cmd) := by
  have hsub : ∀ b, Neat (site ++ [b]) t := fun b => h.mono (List.prefix_append site [b])
  cases cmd with
  | exec argv =>
    cases argv with
    | nil => exact h
    | cons a as => exact ⟨rfl, h, rfl⟩
  | redir cmd file mode fd =>
    obtain ⟨i, hopen⟩ := install_close h.std hplain.1 (.named site file mode)
    exact ⟨i, _, hopen, List.prefix_append site _, h.put hplain.1 fun _ _ => nofun, hplain.2⟩
  | pipe left right => exact ⟨rfl, h, hplain⟩
  | list left right =>
    refine ⟨hsub .first, ?_, h, List.prefix_append site _, h, hplain.2⟩
    rintro c ⟨⟩
    exact hplain.1
  | back cmd =>
    refine ⟨hsub .back, ?_, h⟩
    rintro c ⟨⟩
    exact hplain

/-- A command starts the programs that it is for. -/
theorem owed_runcmd (h : Std t) (hplain : Plain cmd) :
    owed t (runcmd site cmd) = wiring site cmd t := by
  cases cmd with
  | exec argv =>
    cases argv with
    | nil => rfl
    | cons a as => rfl
  | redir cmd file mode fd =>
    obtain ⟨i, hopen⟩ := install_close h hplain.1 (.named site file mode)
    show (install ((FdCall.close fd).run t) (.named site file mode)).elim 0 _ = _
    rw [hopen]
    rfl
  | pipe left right => rfl
  | list left right => rfl
  | back cmd => exact add_zero (wiring (site ++ [.back]) cmd t)

/-- Behind `pipe(p)`, a `pipecmd` has both ends, and is going to start what it is for. -/
theorem pipeActs_ready (h : Neat site t) {left right : Cmd} (hleft : Plain left)
    (hright : Plain right) :
    Ready site (piped t (.pipe site false) (.pipe site true)) (pipeActs site left right 3 4) := by
  have hwrite : Neat (site ++ [.left]) (put t 1 (some (.pipe site true))) := h.side (by decide) true
  have hread : Neat (site ++ [.right]) (put t 0 (some (.pipe site false))) :=
    h.side (by decide) false
  refine ⟨?_, ?_, ?_, ?_, ?_⟩
  · rw [h.std.wire (by decide) (by rfl) (.inr rfl)]
    exact hwrite
  · rintro c ⟨⟩
    exact hleft
  · rw [h.std.wire (by decide) (by rfl) (.inl rfl)]
    exact hread
  · rintro c ⟨⟩
    exact hright
  · show Ready site (put (put (piped t _ _) 3 none) 4 none) [.wait, .wait, .exit]
    rw [h.std.unpipe]
    exact ⟨h, h, h⟩

theorem owed_pipeActs (h : Std t) (left right : Cmd) :
    owed (piped t (.pipe site false) (.pipe site true)) (pipeActs site left right 3 4) =
      wiring site (.pipe left right) t := by
  let both : Fds File := piped t (.pipe site false) (.pipe site true)
  have hget4 : get both 4 = some (.pipe site true) := rfl
  have hget3 : get both 3 = some (.pipe site false) := rfl
  have hwrite := h.wire (k := 1) (by decide) hget4 (.inr rfl)
  have hread := h.wire (k := 0) (by decide) hget3 (.inl rfl)
  show wiring _ left _ + (wiring _ right _ + 0) = wiring _ left _ + wiring _ right _
  rw [hwrite, hread, add_zero]

/-! ## The calls of `main` -/

theorem redirect_plain (tok : Char) (w : Word) (h : Plain cmd) : Plain (redirect tok cmd w) := by
  unfold redirect
  split
  · exact ⟨by decide, h⟩
  · split
    · exact ⟨by decide, h⟩
    · split
      · exact ⟨by decide, h⟩
      · exact h

theorem wrap_plain (rs : List Redir) (h : Plain cmd) : Plain (wrap cmd rs) := by
  induction rs generalizing cmd with
  | nil => exact h
  | cons r rs ih => exact ih (redirect_plain r.1 r.2 h)

theorem backs_plain (k : Nat) (h : Plain cmd) : Plain (backs k cmd) := by
  induction k generalizing cmd with
  | zero => exact h
  | succ k ih => exact ih (show Plain (.back cmd) from h)

theorem derives_plain {nt : Nt} {toks : List Tok} (h : Derives nt toks cmd) : Plain cmd := by
  induction h with
  | last k _ ih => exact backs_plain k ih
  | seq k _ _ iha ihb => exact ⟨backs_plain k iha, ihb⟩
  | one _ ih => exact ih
  | bar _ _ iha ihb => exact ⟨iha, ihb⟩
  | group _ ih => exact ih
  | plain _ _ _ => exact wrap_plain _ trivial
  | parens _ _ ih => exact wrap_plain _ ih

/-- The parser makes redirections of 0 and 1 only. -/
theorem Line.cmd_plain (l : Line) (h : cmd ∈ l.cmd) : Plain cmd := by
  unfold Line.cmd at h
  cases hparse : parsecmd (enough .line l.text) l.text with
  | error e =>
    rw [hparse] at h
    cases h
  | ok c =>
    rw [hparse] at h
    cases h
    obtain ⟨⟨toks, -, hder⟩, -⟩ := parsecmd_sound hparse
    exact derives_plain hder

theorem mainActs_ready (h : Neat site t) {ls : List Line} (hfits : ∀ l ∈ ls, l.Fits) :
    Ready site t (mainActs site ls) := by
  cases ls with
  | nil => exact h
  | cons l ls =>
    have hrest : ∀ l ∈ ls, l.Fits := fun l hl => hfits l (List.mem_cons_of_mem _ hl)
    have hsub : ∀ b, site <+: site ++ [b] := fun b => List.prefix_append site [b]
    rw [mainActs]
    split
    · exact ⟨hsub _, h, hrest⟩
    · split
      · exact h
      · exact ⟨h.mono (hsub _), fun c hc => l.cmd_plain hc, h, hsub _, h, hrest⟩

theorem owed_mainActs (site : Site) (ls : List Line) :
    owed t (mainActs site ls) = session site ls t := by
  cases ls with
  | nil => rfl
  | cons l ls =>
    rw [mainActs, session]
    split
    · rfl
    · split
      · rfl
      · rfl

end Uniks.ShellRun
