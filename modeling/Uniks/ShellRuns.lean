/-
  What every run of the shell keeps: the programs that have been started and those that the
  processes are still going to start are together the ones that the session is for, or fewer where
  a call has failed or somebody was killed; and no process is left with an end of a pipe that is
  not for it.
-/
import Uniks.ShellWiring
import Mathlib.Data.Multiset.OrderedMonoid
import Mathlib.Algebra.BigOperators.Group.Finset.Piecewise
import Mathlib.Tactic.Abel

namespace Uniks.ShellRun

open Uniks.Shell Uniks.Runs
open Uniks.Sysfile (NFD NPROC Fd Pid)
open Option (some bind_eq_some_iff)

variable {env : Option Text} {s s' : Sys} {e : Event} {p c : Pid} {P P' C : Process}
  {lines : List Line} {x site : Site} {t : Fds File} {i : Fd} {acts : List Act} {w : Bool}

/-! ## The processes -/

/-- What is known of a process: it is ready for its calls, or holds what belongs to it, or nothing
    once it has exited. -/
def Process.Good (P : Process) : Prop :=
  match P.code with
  | .shell acts => Ready P.site P.fds acts
  | .program | .offspring => Owns P.site P.fds
  | .zombie => ∀ i, P.fds i = none

def AllGood (s : Sys) : Prop := ∀ p P, s.procs p = some P → P.Good

theorem good_shell (hcode : P.code = .shell acts) : P.Good ↔ Ready P.site P.fds acts := by
  unfold Process.Good
  rw [hcode]

theorem good_program (hcode : P.code = .program ∨ P.code = .offspring) :
    P.Good ↔ Owns P.site P.fds := by
  unfold Process.Good
  obtain h | h := hcode <;> rw [h]

theorem good_orphan (p : Pid) (P : Process) : (P.orphan p).Good ↔ P.Good := by
  unfold Process.orphan
  split <;> rfl

theorem AllGood.set (h : AllGood s) (hP : P.Good) : AllGood (s.set p P) := by
  intro q Q hq
  obtain rfl | hne := eq_or_ne q p
  · rw [Sys.set_self] at hq
    exact some.inj hq ▸ hP
  · rw [Sys.set_off _ _ _ hne] at hq
    exact h q Q hq

theorem AllGood.set_shell (h : AllGood s) (hcode : P.code = .shell acts)
    (hready : Ready P.site P.fds acts) : AllGood (s.set p P) :=
  h.set ((good_shell hcode).mpr hready)

theorem AllGood.remove (h : AllGood s) : AllGood (s.remove p) := by
  intro q Q hq
  obtain rfl | hne := eq_or_ne q p
  · rw [Sys.remove_self] at hq
    cases hq
  · rw [Sys.remove_off _ _ hne] at hq
    exact h q Q hq

theorem AllGood.exit (h : AllGood s) (P : Process) : AllGood (s.exit p P) := by
  intro q Q hq
  obtain rfl | hne := eq_or_ne q p
  · rw [Sys.exit_self] at hq
    cases hq
    exact fun _ => rfl
  · rw [Sys.exit_off _ _ _ hne] at hq
    obtain ⟨R, hR, rfl⟩ := Option.map_eq_some_iff.mp hq
    exact (good_orphan p R).mpr (h q R hR)

theorem AllGood.step (h : AllGood s) (hs : Step env s e s') : AllGood s' := by
  have hready : ∀ {p P acts}, s.procs p = some P → P.code = .shell acts →
      Ready P.site P.fds acts := fun hp hcode => (good_shell hcode).mp (h _ _ hp)
  cases hs with
  | @getcmd p P site lines acts hp hcode =>
    obtain ⟨hx, hneat, hfits⟩ := hready hp hcode
    have hbegin := mainActs_ready (hneat.mono hx) hfits
    exact h.set_shell rfl hbegin
  | overrun hp hcode hover =>
    obtain ⟨-, -, hfits⟩ := hready hp hcode
    exact absurd (hfits _ List.mem_cons_self) hover
  | fd hp hcode =>
    have hrest := hready hp hcode
    exact h.set_shell rfl hrest
  | openFile hp hcode hopen =>
    obtain ⟨i, t, hopen', hrest⟩ := hready hp hcode
    cases hopen.symm.trans hopen'
    exact h.set_shell rfl hrest
  | @pipe p P site left right acts i j t hp hcode hpipe =>
    obtain ⟨hx, hneat, hleft, hright⟩ := hready hp hcode
    rw [hneat.std.pipeFds] at hpipe
    obtain ⟨rfl, heq⟩ := Prod.mk.inj (some.inj hpipe)
    cases heq
    refine h.set_shell rfl ?_
    show Ready P.site _ (pipeActs site left right 3 4)
    subst hx
    exact pipeActs_ready hneat hleft hright
  | run hp hcode =>
    obtain ⟨hx, hneat, hplain⟩ := hready hp hcode
    have hbegin := runcmd_ready (hneat.mono hx) hplain
    exact h.set_shell rfl hbegin
  | @fork p P c calls site cmd acts hp hcode hc =>
    obtain ⟨hneat, hplain, hrest⟩ := hready hp hcode
    have hchild := ready_child hneat hplain
    have hparent : AllGood (s.set p { P with code := .shell acts }) := h.set_shell rfl hrest
    exact hparent.set_shell rfl hchild
  | panic hp hcode ha => exact h.exit _
  | @exec p P site argv acts path hp hcode hpath =>
    obtain ⟨-, hneat, -⟩ := hready hp hcode
    have hset : AllGood (s.set p { P with code := .program }) :=
      h.set ((good_program (.inl rfl)).mpr hneat.owns)
    exact hset
  | execFail hp hcode =>
    obtain ⟨-, hneat, rfl⟩ := hready hp hcode
    have hend : Ready _ _ [.exit] := hneat
    exact h.set_shell rfl hend
  | wait hp hcode hc hchild hdead =>
    obtain ⟨-, hrest⟩ := hready hp hcode
    refine AllGood.remove ?_
    exact h.set_shell rfl hrest
  | waitNone hp hcode hno =>
    obtain ⟨-, hrest⟩ := hready hp hcode
    exact h.set_shell rfl hrest
  | exit hp hcode => exact h.exit _
  | @table p P t hp hcode ht =>
    have howns := (good_program hcode).mp (h _ _ hp)
    refine h.set ((good_program (P := { P with fds := t }) hcode).mpr fun i site w hi => ?_)
    obtain ⟨j, hj⟩ | ⟨n, hn⟩ := ht i _ hi
    · exact howns j site w hj
    · cases hn
  | progFork hp hcode hc =>
    exact h.set ((good_program (.inr rfl)).mpr ((good_program hcode).mp (h _ _ hp)))
  | progReap hp hcode hc hchild hdead => exact h.remove
  | progExit hp hcode => exact h.exit _
  | kill hp hlive => exact h.exit _
  | adopt hc horphan hdead => exact h.remove

theorem given_neat : Neat [] givenFds := by
  refine ⟨fun i => ?_, fun i site w hi => ?_⟩
  · unfold givenFds
    split
    · next h => exact ⟨fun _ => h, fun _ => nofun⟩
    · next h => exact ⟨fun hne => absurd rfl hne, fun hlt => absurd hlt h⟩
  · unfold givenFds at hi
    split at hi <;> cases hi

theorem boot_good (hfits : ∀ l ∈ lines, l.Fits) : AllGood (boot lines) := by
  have hempty : AllGood ⟨fun _ => none, []⟩ := fun _ _ => nofun
  exact hempty.set_shell rfl ⟨List.prefix_refl [], given_neat, hfits⟩

theorem run_good {cond : Sys → Event → Prop} (hfits : ∀ l ∈ lines, l.Fits)
    (hrun : Reaches (Step env) cond (boot lines) s) : AllGood s :=
  hrun.invariant (boot_good hfits) fun _ _ _ h _ hs => h.step hs

/-! ## The programs -/

/-- The programs that one process and the children it forks are going to start. -/
def owedBy (o : Option Process) : Multiset Start :=
  o.elim 0 fun P =>
    match P.code with
    | .shell acts => owed P.fds acts
    | _ => 0

/-- What has been started, and what is going to be. -/
def due (s : Sys) : Multiset Start := (s.log : Multiset Start) + ∑ p, owedBy (s.procs p)

/-- Nothing fails and nobody is killed. -/
def Event.smooth : Event → Prop
  | .fail _ | .kill _ => False
  | _ => True

theorem owedBy_shell (hcode : P.code = .shell acts) : owedBy (some P) = owed P.fds acts := by
  show (match P.code with
    | .shell acts => owed P.fds acts
    | _ => 0) = _
  rw [hcode]

theorem owedBy_not_shell (hcode : ∀ acts, P.code ≠ .shell acts) : owedBy (some P) = 0 := by
  show (match P.code with
    | .shell acts => owed P.fds acts
    | _ => 0) = _
  cases h : P.code with
  | shell acts => exact absurd h (hcode acts)
  | _ => rfl

theorem owedBy_program (hcode : P.code = .program ∨ P.code = .offspring) : owedBy (some P) = 0 := by
  refine owedBy_not_shell fun acts h => ?_
  rw [h] at hcode
  obtain h | h := hcode <;> cases h

theorem owedBy_orphan (p : Pid) (o : Option Process) :
    owedBy (o.map (Process.orphan p)) = owedBy o := by
  cases o with
  | none => rfl
  | some P =>
    show owedBy (some (P.orphan p)) = owedBy (some P)
    unfold Process.orphan
    split <;> rfl

theorem sum_update {ι M : Type} [Fintype ι] [DecidableEq ι] [AddCommMonoid M] (f : ι → M) (a : ι)
    (v : M) : ∑ i, Function.update f a v i + f a = ∑ i, f i + v := by
  rw [Finset.sum_update_of_mem (Finset.mem_univ a), ← Finset.add_sum_erase _ f (Finset.mem_univ a),
    Finset.sdiff_singleton_eq_erase]
  abel

theorem owedBy_update (procs : Pid → Option Process) (p : Pid) (o : Option Process) :
    ∑ q, owedBy (Function.update procs p o q) + owedBy (procs p) =
      ∑ q, owedBy (procs q) + owedBy o := by
  have hsame : (fun q => owedBy (Function.update procs p o q)) =
      Function.update (fun q => owedBy (procs q)) p (owedBy o) :=
    funext fun q => Function.apply_update (fun _ => owedBy) procs p o q
  rw [hsame]
  exact sum_update (fun q => owedBy (procs q)) p (owedBy o)

theorem due_update (s : Sys) (p : Pid) (o : Option Process) :
    due { s with procs := Function.update s.procs p o } + owedBy (s.procs p) =
      due s + owedBy o := by
  unfold due
  rw [add_assoc, owedBy_update, add_assoc]

/-- Another list of calls for the same programs. -/
theorem due_set (hp : s.procs p = some P) (h : owedBy (some P') = owedBy (some P)) :
    due (s.set p P') = due s := by
  have hupd := due_update s p (some P')
  rw [hp, h] at hupd
  exact add_right_cancel hupd

theorem due_exit (hp : s.procs p = some P) : due (s.exit p P) + owedBy (some P) = due s := by
  have hupd := due_update (s.reparent p) p
    (some { P with fds := fun _ => none, code := .zombie })
  have hself : owedBy ((s.reparent p).procs p) = owedBy (some P) := by
    rw [← hp]
    exact owedBy_orphan p (s.procs p)
  have hsame : due (s.reparent p) = due s := by
    have hsum : (fun q => owedBy ((s.procs q).map (Process.orphan p))) =
        fun q => owedBy (s.procs q) :=
      funext fun q => owedBy_orphan p (s.procs q)
    show (s.log : Multiset Start) + ∑ q, owedBy ((s.procs q).map (Process.orphan p)) = due s
    rw [hsum]
    rfl
  rw [hsame, hself] at hupd
  exact hupd.trans (add_zero _)

theorem due_remove (hc : s.procs c = some C) (hdead : C.code = .zombie) :
    due (s.remove c) = due s := by
  have hzero : owedBy (some C) = 0 := owedBy_not_shell fun acts h => by
    rw [hdead] at h
    cases h
  have hupd := due_update s c none
  rw [hc, hzero, add_zero] at hupd
  exact hupd.trans (add_zero _)

/-- One call neither adds to what is started in all, nor takes from it unless it fails. -/
theorem due_step (h : AllGood s) (hs : Step env s e s') :
    due s' ≤ due s ∧ (e.smooth → due s' = due s) := by
  have hready : ∀ {p P acts}, s.procs p = some P → P.code = .shell acts →
      Ready P.site P.fds acts := fun hp hcode => (good_shell hcode).mp (h _ _ hp)
  have heq : due s' = due s → due s' ≤ due s ∧ (e.smooth → due s' = due s) :=
    fun heq => ⟨le_of_eq heq, fun _ => heq⟩
  have hexit : ∀ {p P}, s.procs p = some P → due (s.exit p P) ≤ due s := fun hp => by
    rw [← due_exit hp]
    exact le_self_add
  have hgone : ∀ {p P}, s.procs p = some P → owedBy (some P) = 0 → due (s.exit p P) = due s := by
    intro p P hp hzero
    have hd := due_exit hp
    rwa [hzero, add_zero] at hd
  cases hs with
  | getcmd hp hcode =>
    refine heq (due_set hp ?_)
    rw [owedBy_shell hcode]
    exact owed_mainActs _ _
  | overrun hp hcode hover =>
    obtain ⟨-, -, hfits⟩ := hready hp hcode
    exact absurd (hfits _ List.mem_cons_self) hover
  | fd hp hcode =>
    refine heq (due_set hp ?_)
    rw [owedBy_shell hcode]
    rfl
  | @openFile p P site file mode acts i t hp hcode hopen =>
    refine heq (due_set hp ?_)
    rw [owedBy_shell hcode]
    show owed t acts = (install P.fds (.named site file mode)).elim 0 _
    rw [hopen]
    rfl
  | @pipe p P site left right acts i j t hp hcode hpipe =>
    obtain ⟨-, hneat, -, -⟩ := hready hp hcode
    rw [hneat.std.pipeFds] at hpipe
    obtain ⟨rfl, hij⟩ := Prod.mk.inj (some.inj hpipe)
    cases hij
    refine heq (due_set hp ?_)
    rw [owedBy_shell hcode]
    exact owed_pipeActs hneat.std left right
  | run hp hcode =>
    obtain ⟨-, hneat, hplain⟩ := hready hp hcode
    refine heq (due_set hp ?_)
    rw [owedBy_shell hcode]
    exact owed_runcmd hneat.std hplain
  | @fork p P c calls site cmd acts hp hcode hc =>
    have hne : c ≠ p := fun hcp => by
      rw [hcp, hp] at hc
      cases hc
    have hparent := due_update s p (some { P with code := .shell acts })
    have hchild := due_update (s.set p { P with code := .shell acts }) c
      (some ⟨some p, site, site, P.fds, .shell (childActs calls site cmd)⟩)
    have hfree : (s.set p { P with code := .shell acts }).procs c = none := by
      rw [Sys.set_off _ _ _ hne]
      exact hc
    rw [hfree] at hchild
    rw [hp, owedBy_shell hcode] at hparent
    refine heq ?_
    have hboth : due ((s.set p { P with code := .shell acts }).set c
        ⟨some p, site, site, P.fds, .shell (childActs calls site cmd)⟩) =
        due (s.set p { P with code := .shell acts }) + owed P.fds (childActs calls site cmd) :=
      (add_zero _).symm.trans hchild
    rw [hboth, owed_child]
    refine add_right_cancel (b := owed P.fds acts) ?_
    rw [add_assoc]
    exact hparent
  | panic hp hcode ha => exact ⟨hexit hp, False.elim⟩
  | @exec p P site argv acts path hp hcode hpath =>
    refine heq ?_
    have hset := due_update s p (some { P with code := .program })
    rw [hp, owedBy_shell hcode] at hset
    show ((⟨site, argv, P.fds⟩ :: s.log : List Start) : Multiset Start) + _ = _
    rw [← Multiset.cons_coe, ← Multiset.singleton_add, add_assoc, add_comm]
    exact hset.trans (add_zero _)
  | @execFail p P site argv acts hp hcode =>
    refine ⟨?_, False.elim⟩
    obtain ⟨-, -, rfl⟩ := hready hp hcode
    have hset := due_update s p (some { P with code := .shell [.exit] })
    rw [hp] at hset
    calc due (s.set p { P with code := .shell [.exit] })
        ≤ due (s.set p { P with code := .shell [.exit] }) + owedBy (some P) := le_self_add
      _ = due s + owedBy (some { P with code := .shell [.exit] }) := hset
      _ = due s := add_zero _
  | @wait p P c C acts hp hcode hc hchild hdead =>
    have hne : c ≠ p := fun hcp => by
      rw [hcp, hp] at hc
      cases hc
      rw [hcode] at hdead
      cases hdead
    have hset : due (s.set p { P with code := .shell acts }) = due s := by
      refine due_set hp ?_
      rw [owedBy_shell hcode]
      rfl
    have hkept : (s.set p { P with code := .shell acts }).procs c = some C := by
      rw [Sys.set_off _ _ _ hne]
      exact hc
    exact heq ((due_remove hkept hdead).trans hset)
  | waitNone hp hcode hno =>
    refine heq (due_set hp ?_)
    rw [owedBy_shell hcode]
    rfl
  | exit hp hcode =>
    refine heq (hgone hp ?_)
    rw [owedBy_shell hcode]
    rfl
  | @table p P t hp hcode ht =>
    refine heq (due_set hp ?_)
    rw [owedBy_program hcode]
    exact owedBy_program (P := { P with fds := t }) hcode
  | @progFork p P c hp hcode hc =>
    have hupd := due_update s c (some ⟨some p, P.origin, P.site, P.fds, .offspring⟩)
    rw [hc] at hupd
    exact heq ((add_zero _).symm.trans (hupd.trans (add_zero _)))
  | progReap hp hcode hc hchild hdead => exact heq (due_remove hc hdead)
  | progExit hp hcode => exact heq (hgone hp (owedBy_program hcode))
  | kill hp hlive => exact ⟨hexit hp, False.elim⟩
  | adopt hc horphan hdead => exact heq (due_remove hc hdead)

/-! ## The programs of a session -/

variable {cmd : Cmd} {st : Start}

/-- Two commands inside one are apart. -/
theorem branch_eq {a b : Branch} {y : Site} (ha : site ++ [a] <+: y) (hb : site ++ [b] <+: y) :
    a = b := by
  have hlen : (site ++ [a]).length = (site ++ [b]).length := by simp
  have heq : site ++ [a] = site ++ [b] := by
    rw [List.prefix_iff_eq_take] at ha hb
    rw [ha, hb, hlen]
  exact (List.cons.inj (List.append_cancel_left heq)).1

theorem wiring_site (h : st ∈ wiring site cmd t) : site <+: st.site := by
  have hsub : ∀ b, site ++ [b] <+: st.site → site <+: st.site :=
    fun b hb => (List.prefix_append site [b]).trans hb
  induction cmd generalizing site t with
  | exec argv =>
    cases argv with
    | nil => cases h
    | cons a as =>
      rw [Multiset.mem_singleton.mp h]
  | redir cmd file mode fd ih => exact hsub _ (ih h fun b hb => (List.prefix_append _ [b]).trans hb)
  | pipe left right ihl ihr | list left right ihl ihr =>
    obtain h | h := Multiset.mem_add.mp h
    · exact hsub _ (ihl h fun b hb => (List.prefix_append _ [b]).trans hb)
    · exact hsub _ (ihr h fun b hb => (List.prefix_append _ [b]).trans hb)
  | back cmd ih => exact hsub _ (ih h fun b hb => (List.prefix_append _ [b]).trans hb)

theorem wiring_std (h : Std t) (hplain : Plain cmd) (hst : st ∈ wiring site cmd t) :
    Std st.fds := by
  induction cmd generalizing site t with
  | exec argv =>
    cases argv with
    | nil => cases hst
    | cons a as =>
      rw [Multiset.mem_singleton.mp hst]
      exact h
  | redir cmd file mode fd ih => exact ih (h.put hplain.1 _) hplain.2 hst
  | pipe left right ihl ihr =>
    obtain hst | hst := Multiset.mem_add.mp hst
    · exact ihl (h.put (by decide) _) hplain.1 hst
    · exact ihr (h.put (by decide) _) hplain.2 hst
  | list left right ihl ihr =>
    obtain hst | hst := Multiset.mem_add.mp hst
    · exact ihl h hplain.1 hst
    · exact ihr h hplain.2 hst
  | back cmd ih => exact ih h hplain hst

/-- The sites of two lots of programs are apart if those of the first are all below one branch, and
    those of the second below others. -/
theorem sites_add {a b : Multiset Start} {d : Branch} (ha : (a.map Start.site).Nodup)
    (hb : (b.map Start.site).Nodup) (hin : ∀ st ∈ a, site ++ [d] <+: st.site)
    (hout : ∀ st ∈ b, ∃ d', d' ≠ d ∧ site ++ [d'] <+: st.site) :
    ((a + b).map Start.site).Nodup := by
  rw [Multiset.map_add, Multiset.nodup_add]
  refine ⟨ha, hb, Multiset.disjoint_left.mpr ?_⟩
  intro y hya hyb
  obtain ⟨u, hu, rfl⟩ := Multiset.mem_map.mp hya
  obtain ⟨v, hv, heq⟩ := Multiset.mem_map.mp hyb
  obtain ⟨d', hne, hd⟩ := hout v hv
  exact hne (branch_eq hd (heq ▸ hin u hu))

/-- Every command of a line is at a place of its own. -/
theorem wiring_nodup (site : Site) (cmd : Cmd) (t : Fds File) :
    ((wiring site cmd t).map Start.site).Nodup := by
  induction cmd generalizing site t with
  | exec argv =>
    cases argv with
    | nil => exact Multiset.nodup_zero
    | cons a as => exact Multiset.nodup_singleton _
  | redir cmd file mode fd ih => exact ih _ _
  | pipe left right ihl ihr =>
    exact sites_add (ihl _ _) (ihr _ _) (fun _ => wiring_site)
      fun _ hst => ⟨.right, by decide, wiring_site hst⟩
  | list left right ihl ihr =>
    exact sites_add (ihl _ _) (ihr _ _) (fun _ => wiring_site)
      fun _ hst => ⟨.second, by decide, wiring_site hst⟩
  | back cmd ih => exact ih _ _

/-- What is known of a program of a session. -/
theorem session_mem {ls : List Line} (h : Std t) (hst : st ∈ session site ls t) :
    site <+: st.site ∧ Std st.fds := by
  induction ls generalizing site with
  | nil => cases hst
  | cons l ls ih =>
    have hlater : st ∈ session (site ++ [.second]) ls t → site <+: st.site ∧ Std st.fds :=
      fun hst => ⟨(List.prefix_append site _).trans (ih hst).1, (ih hst).2⟩
    unfold session at hst
    split at hst
    · exact hlater hst
    · split at hst
      · cases hst
      · obtain hst | hst := Multiset.mem_add.mp hst
        · cases hcmd : l.cmd with
          | none =>
            rw [hcmd] at hst
            cases hst
          | some cmd =>
            rw [hcmd] at hst
            exact ⟨(List.prefix_append site _).trans (wiring_site hst),
              wiring_std h (l.cmd_plain hcmd) hst⟩
        · exact hlater hst

theorem session_nodup (site : Site) (ls : List Line) (h : Std t) :
    ((session site ls t).map Start.site).Nodup := by
  induction ls generalizing site with
  | nil => exact Multiset.nodup_zero
  | cons l ls ih =>
    unfold session
    split
    · exact ih _
    · split
      · exact Multiset.nodup_zero
      · refine sites_add (d := .first) ?_ (ih _) ?_
          fun _ hst => ⟨.second, by decide, (session_mem h hst).1⟩
        · cases l.cmd with
          | none => exact Multiset.nodup_zero
          | some cmd => exact wiring_nodup _ cmd t
        · intro st hst
          cases hcmd : l.cmd with
          | none =>
            rw [hcmd] at hst
            cases hst
          | some cmd =>
            rw [hcmd] at hst
            exact wiring_site hst

theorem boot_due (lines : List Line) : due (boot lines) = session [] lines givenFds := by
  have hupd := due_update ⟨fun _ => none, []⟩ 2
    (some ⟨none, [], [], givenFds, .shell [.getcmd [] lines]⟩)
  have hnone : due (⟨fun _ => none, []⟩ : Sys) = 0 := by
    show (0 : Multiset Start) + ∑ _q : Pid, (0 : Multiset Start) = 0
    rw [Finset.sum_const_zero, zero_add]
  rw [hnone, zero_add] at hupd
  exact (add_zero _).symm.trans hupd

/-- In every run of the shell over lines that fit, whatever the order in which the processes take
    their turns, the programs started are ones that the session is for, each with the descriptors it is
    to have and no others, and none is started twice.  Where nothing fails, they are all of them
    when the shell is done. -/
theorem programs_started {cond : Sys → Event → Prop} (hfits : ∀ l ∈ lines, l.Fits)
    (hrun : Reaches (Step env) cond (boot lines) s) :
    (s.log : Multiset Start) ≤ session [] lines givenFds ∧
    (s.log.map Start.site).Nodup ∧ (∀ st ∈ s.log, Std st.fds) ∧
    ((∀ s e, cond s e → e.smooth) → (∀ p P acts, s.procs p = some P → P.code ≠ .shell acts) →
      (s.log : Multiset Start) = session [] lines givenFds) := by
  have hinv : AllGood s ∧ due s ≤ session [] lines givenFds ∧
      ((∀ s e, cond s e → e.smooth) → due s = session [] lines givenFds) := by
    have hboot := boot_due lines
    refine hrun.invariant (I := fun s => AllGood s ∧ due s ≤ session [] lines givenFds ∧
      ((∀ s e, cond s e → e.smooth) → due s = session [] lines givenFds))
      ⟨boot_good hfits, le_of_eq hboot, fun _ => hboot⟩ ?_
    intro a e b ⟨hgood, hle, heq⟩ hcond hs
    obtain ⟨hdue, hsmooth⟩ := due_step hgood hs
    exact ⟨hgood.step hs, hdue.trans hle, fun h => (hsmooth (h a e hcond)).trans (heq h)⟩
  obtain ⟨-, hle, hall⟩ := hinv
  have hlog : (s.log : Multiset Start) ≤ session [] lines givenFds := le_self_add.trans hle
  refine ⟨hlog, ?_, fun st hst => ?_, fun hsmooth hdone => ?_⟩
  · have hnodup := session_nodup [] lines given_neat.std
    exact Multiset.coe_nodup.mp (Multiset.nodup_of_le (Multiset.map_le_map hlog) hnodup)
  · exact (session_mem given_neat.std (Multiset.mem_of_le hlog hst)).2
  · have hzero : ∑ p, owedBy (s.procs p) = 0 := by
      refine Finset.sum_eq_zero fun p _ => ?_
      cases hp : s.procs p with
      | none => rfl
      | some P => exact owedBy_not_shell fun acts => hdone p P acts hp
    have hdue := hall hsmooth
    rw [due, hzero, add_zero] at hdue
    exact hdue

/-! ## Runs that can be computed -/

/-- The next call of a process of the shell that concerns nobody else. -/
def nextAct (P : Process) : Option Process :=
  match P.code with
  | .shell (.getcmd site lines :: _) =>
    some { P with site := site, code := .shell (mainActs site lines) }
  | .shell (.fd call :: acts) => some { P with fds := call.run P.fds, code := .shell acts }
  | .shell (.openFile site file mode :: acts) =>
    (install P.fds (.named site file mode)).map fun r =>
      { P with fds := r.2, code := .shell acts }
  | .shell (.pipe site left right :: _) =>
    (pipeFds P.fds (.pipe site false) (.pipe site true)).map fun r =>
      { P with fds := r.2.2, code := .shell (pipeActs site left right r.1 r.2.1) }
  | .shell (.run site cmd :: _) => some { P with site := site, code := .shell (runcmd site cmd) }
  | _ => none

/-- The step of an event in which nothing fails. -/
def next (env : Option Text) (s : Sys) : Event → Option Sys
  | .act p => do
    let P ← s.procs p
    let P ← nextAct P
    return s.set p P
  | .exec p path => do
    let P ← s.procs p
    match P.code with
    | .shell (.exec site argv :: _) =>
      if path ∈ tries env argv then
        return { s.set p { P with code := .program } with log := ⟨site, argv, P.fds⟩ :: s.log }
      else none
    | _ => none
  | .fork p c => do
    let P ← s.procs p
    match P.code, s.procs c with
    | .shell (.fork calls site cmd :: acts), none =>
      return (s.set p { P with code := .shell acts }).set c
        ⟨some p, site, site, P.fds, .shell (childActs calls site cmd)⟩
    | _, _ => none
  | .reap p c => do
    let P ← s.procs p
    let C ← s.procs c
    match P.code, C.code with
    | .shell (.wait :: acts), .zombie =>
      if C.parent = some p then return (s.set p { P with code := .shell acts }).remove c else none
    | _, _ => none
  | .exit p => do
    let P ← s.procs p
    match P.code with
    | .shell (.exit :: _) | .program => return s.exit p P
    | _ => none
  | _ => none

theorem nextAct_step (hp : s.procs p = some P) (h : nextAct P = some P') :
    Step env s (.act p) (s.set p P') := by
  unfold nextAct at h
  split at h
  · next hcode =>
    cases h
    exact .getcmd hp hcode
  · next hcode =>
    cases h
    exact .fd hp hcode
  · next hcode =>
    obtain ⟨⟨i, t⟩, hopen, rfl⟩ := Option.map_eq_some_iff.mp h
    exact .openFile hp hcode hopen
  · next hcode =>
    obtain ⟨⟨i, j, t⟩, hpipe, rfl⟩ := Option.map_eq_some_iff.mp h
    exact .pipe hp hcode hpipe
  · next hcode =>
    cases h
    exact .run hp hcode
  · cases h

theorem next_step (s : Sys) (e : Event) (s' : Sys) (h : next env s e = some s') :
    e.smooth ∧ Step env s e s' := by
  cases e with
  | act p =>
    obtain ⟨P, hp, h⟩ := bind_eq_some_iff.mp h
    obtain ⟨P', hact, h⟩ := bind_eq_some_iff.mp h
    cases h
    exact ⟨trivial, nextAct_step hp hact⟩
  | exec p path =>
    obtain ⟨P, hp, h⟩ := bind_eq_some_iff.mp h
    split at h
    · next hcode =>
      split at h
      · next hpath =>
        cases h
        exact ⟨trivial, .exec hp hcode hpath⟩
      · cases h
    · cases h
  | fork p c =>
    obtain ⟨P, hp, h⟩ := bind_eq_some_iff.mp h
    split at h
    · next hcode hc =>
      cases h
      exact ⟨trivial, .fork hp hcode hc⟩
    · cases h
  | reap p c =>
    obtain ⟨P, hp, h⟩ := bind_eq_some_iff.mp h
    obtain ⟨C, hc, h⟩ := bind_eq_some_iff.mp h
    split at h
    · next hcode hdead =>
      split at h
      · next hchild =>
        cases h
        exact ⟨trivial, .wait hp hcode hc hchild hdead⟩
      · cases h
    · cases h
  | exit p =>
    obtain ⟨P, hp, h⟩ := bind_eq_some_iff.mp h
    split at h
    · next hcode =>
      cases h
      exact ⟨trivial, .exit hp hcode⟩
    · next hcode =>
      cases h
      exact ⟨trivial, .progExit hp (.inl hcode)⟩
    · cases h
  | fail p => cases h
  | kill p => cases h
  | table p => cases h
  | adopt c => cases h

/-- Whether a process is still at the calls of the shell. -/
def Process.inShell (P : Process) : Bool :=
  match P.code with
  | .shell _ => true
  | _ => false

/-- The line `a|b`. -/
def lineAB : Line := ⟨['a', '|', 'b']⟩

theorem lineAB_fits : ∀ l ∈ [lineAB], l.Fits := by
  intro l hl
  obtain rfl := List.mem_singleton.mp hl
  decide +kernel

/-- The shell forks a process for the line, which makes the pipe. -/
def piping : List Event := [.act 2, .fork 2 3, .act 3, .act 3]

/-- It forks one for each side; they set up their descriptors and start their programs, and
    everybody waits for everybody. -/
def pipedToEnd : List Event :=
  piping ++ [.fork 3 4, .fork 3 5, .act 4, .act 4, .act 4, .act 4, .act 4, .exec 4 ['a'],
    .act 5, .act 5, .act 5, .act 5, .act 5, .exec 5 ['b'], .act 3, .act 3, .exit 4, .reap 3 4,
    .exit 5, .reap 3 5, .exit 3, .reap 2 3, .act 2, .exit 2]

/-- The session of the one line `a|b`, to its end. -/
theorem programs_started_piped : ∃ s, Reaches (Step none) (fun _ e => e.smooth) (boot [lineAB]) s ∧
    s.log.length = 2 ∧ (s.log : Multiset Start) = session [] [lineAB] givenFds := by
  have hrun : Leads (next none) (boot [lineAB]) pipedToEnd fun s => s.log.length = 2 ∧
      ∀ p, ∀ P ∈ s.procs p, P.inShell = false := by
    decide +kernel
  obtain ⟨s, hreach, hlog, hout⟩ := hrun.reaches (Step none) (fun _ e => e.smooth) next_step
  refine ⟨s, hreach, hlog, (programs_started lineAB_fits hreach).2.2.2 (fun _ _ h => h) ?_⟩
  intro p P acts hp hcode
  have hno := hout p P hp
  rw [Process.inShell, hcode] at hno
  cases hno

/-! ## Ends of pipes -/

/-- The calls that do not block, and do not go on with another command. -/
def Act.quick : Act → Bool
  | .fd _ | .openFile .. | .fork .. => true
  | _ => false

/-- An end of a pipe is for the side of the process, or about to be closed. -/
theorem Ready.held (h : Ready x t acts) (hi : t i = some (.pipe site w)) :
    site ++ [side w] <+: x ∨ .fd (.close i) ∈ acts.takeWhile Act.quick := by
  have hne : t i ≠ none := fun hnone => by
    rw [hi] at hnone
    cases hnone
  induction acts generalizing t with
  | nil => exact h.elim
  | cons a acts ih =>
    have hlater : ∀ {t'}, a.quick → Ready x t' acts → t' i = t i →
        site ++ [side w] <+: x ∨ .fd (.close i) ∈ (a :: acts).takeWhile Act.quick := by
      intro t' hquick hready hsame
      rw [List.takeWhile_cons_of_pos hquick]
      exact (ih hready (hsame.trans hi) (hsame ▸ hne)).imp id (List.mem_cons_of_mem a)
    cases a with
    | getcmd s ls => exact .inl (h.2.1.owns i site w hi)
    | fd call =>
      cases call with
      | close k =>
        by_cases hk : i.val = k
        · subst hk
          exact .inr List.mem_cons_self
        · exact hlater rfl h (put_off hk)
      | dup k => exact hlater rfl h (dup_keeps k hne)
    | openFile s f m =>
      obtain ⟨j, t', hopen, hready⟩ := h
      exact hlater rfl hready (install_keeps hopen hne)
    | pipe s l r => exact .inl (h.2.1.owns i site w hi)
    | fork calls s c => exact hlater rfl h.2.2 rfl
    | wait => exact .inl (h.1.owns i site w hi)
    | run s c => exact .inl (h.2.1.owns i site w hi)
    | exec s argv => exact .inl (h.2.1.owns i site w hi)
    | exit => exact .inl (h.owns i site w hi)

theorem Process.Good.held (h : P.Good) (hi : P.fds i = some (.pipe site w)) :
    P.code ≠ .zombie ∧ (site ++ [side w] <+: P.site ∨
      ∃ acts, P.code = .shell acts ∧ .fd (.close i) ∈ acts.takeWhile Act.quick) := by
  cases hcode : P.code with
  | shell acts =>
    exact ⟨nofun, (((good_shell hcode).mp h).held hi).imp id fun hmem => ⟨acts, rfl, hmem⟩⟩
  | program => exact ⟨nofun, .inl ((good_program (.inl hcode)).mp h i site w hi)⟩
  | offspring => exact ⟨nofun, .inl ((good_program (.inr hcode)).mp h i site w hi)⟩
  | zombie =>
    unfold Process.Good at h
    rw [hcode] at h
    rw [h i] at hi
    cases hi

/-- In every run of the shell over lines that fit, an end of the pipe of a `pipecmd` is held on the
    side of it that the end is for, or by a process of the shell that closes it before it waits or
    goes on.  So once the writers are gone and such closing is over, nobody is left with the end for
    writing, and what reads from the pipe comes to the end of it. -/
theorem pipe_ends (hfits : ∀ l ∈ lines, l.Fits)
    (hrun : Reaches (Step env) anyInput (boot lines) s) :
    (∀ p P i site w, s.procs p = some P → P.fds i = some (.pipe site w) →
      site ++ [side w] <+: P.site ∨
        ∃ acts, P.code = .shell acts ∧ .fd (.close i) ∈ acts.takeWhile Act.quick) ∧
    ∀ site, (∀ p P, s.procs p = some P → site ++ [.left] <+: P.site → P.code = .zombie) →
      (∀ p P acts i, s.procs p = some P → P.code = .shell acts →
        .fd (.close i) ∉ acts.takeWhile Act.quick) →
      ∀ p P i, s.procs p = some P → P.fds i ≠ some (.pipe site true) := by
  have h := run_good hfits hrun
  refine ⟨fun p P i site w hp hi => ((h p P hp).held hi).2, ?_⟩
  intro site hgone hquick p P i hp hi
  obtain ⟨hlive, hside | ⟨acts, hcode, hclose⟩⟩ := (h p P hp).held hi
  · exact hlive (hgone p P hp hside)
  · exact hquick p P acts i hp hcode hclose

/-- The process that has called `pipe` has both ends, and closes them before it waits. -/
theorem pipe_ends_made : ∃ s P acts, Reaches (Step none) anyInput (boot [lineAB]) s ∧
    s.procs 3 = some P ∧ P.fds 4 = some (.pipe [.first] true) ∧ P.code = .shell acts ∧
    .fd (.close 4) ∈ acts.takeWhile Act.quick := by
  have hrun : Leads (next none) (boot [lineAB]) piping fun s =>
      ∃ P ∈ s.procs 3, P.fds 4 = some (.pipe [.first] true) ∧ P.site = [.first] := by
    decide +kernel
  obtain ⟨s, hreach, P, hp, hend, hsite⟩ := hrun.reaches (Step none) (fun _ e => e.smooth) next_step
  have hreach := hreach.anyInput
  obtain hside | ⟨acts, hcode, hclose⟩ := (pipe_ends lineAB_fits hreach).1 3 P 4 [.first] true hp hend
  · rw [hsite] at hside
    exact absurd hside (by decide)
  · exact ⟨s, P, acts, hreach, hp, hend, hcode, hclose⟩

end Uniks.ShellRun
