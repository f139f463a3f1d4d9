/-
  Free code, interrupts and user space keep the invariant (`Inv.next`).

  Whatever the free code of a process or an interrupt handler calls, as long as it keeps the rules
  of the functions, the statements of the function fit the context of the caller.  An interrupt
  comes only where a hart has no lock, and a trap finds the hart in `p->host`.
-/
import Uniks.SchedSteps

namespace Uniks.Sched

variable {s s' : State} {ctx : Hart → Ctx} {bed : Pid → Option Bed} {Γ : Ctx} {lk : Lock}
  {p q : Pid} {wl : WaitList} {k code : List Stmt} {x : Hart} {pr : Proc} {held : List Lock}
  {c : Call} {lost : Pid → Prop}

/-! ## Free code -/

/-- Code that may call what it likes: a process in the kernel, or an interrupt handler. -/
def FreeCode (code : List Stmt) : Prop := code = [] ∨ ∃ k, code = .irqBody :: k

structure Ctx.Open (Γ : Ctx) : Prop extends Ctx.Calm Γ where
  extra : Γ.extra = 0
  w4child : Γ.me.w4child = false
  parked : Γ.me.parked = false

theorem fits_open (hcode : FreeCode code) (h : Fits Γ code) : Γ.Open := by
  rcases hcode with rfl | ⟨k, rfl⟩
  · cases h with
    | nil hdone => exact ⟨hdone.toCalm, hdone.extra, hdone.w4child, hdone.parked⟩
  · obtain ⟨Γ', hn, -⟩ := fits_cons.mp h
    cases hn with
    | irqBody hcalm hextra hplain hie => exact ⟨hcalm, hextra, hplain.w4child, hplain.parked⟩

/-- Free code may take locks and release them, but for the lock of its own that a zombie has. -/
theorem fits_held (hcode : FreeCode code) (h : Fits Γ code)
    (hkeep : Γ.me.st = .zombie → Γ.Locked → ({ Γ with held := held } : Ctx).Locked) :
    Fits { Γ with held := held } code := by
  rcases hcode with rfl | ⟨k, rfl⟩
  · cases h with
    | nil hdone =>
      refine .nil ⟨⟨hdone.half, hdone.task⟩, hdone.extra, hdone.ie, hdone.w4child, hdone.parked, ?_⟩
      rcases hdone.st with hst | ⟨hst, hlocked⟩ | hst
      · exact .inl hst
      · exact .inr (.inl ⟨hst, hkeep hst hlocked⟩)
      · exact .inr (.inr hst)
  · obtain ⟨Γ', hn, hk⟩ := fits_cons.mp h
    cases hn with
    | irqBody hcalm hextra hplain hie =>
      exact .cons (.irqBody ⟨hcalm.half, hcalm.task⟩ hextra hplain hie) hk

theorem free_proc (h : HartOk x (s.cpus x) (s.regs x) Γ) (hcode : FreeCode (s.regs x).code) :
    (s.cpus x).proc = Γ.me.who.pid := by
  refine h.proc fun k hk => ?_
  rcases hcode with heq | ⟨l, heq⟩ <;> rw [hk] at heq
  · cases heq
  · exact nomatch (List.cons.inj heq).1

theorem freeCode (h : Free s x c code) : FreeCode code := by
  unfold Free at h
  split at h
  · exact .inl rfl
  · exact .inr ⟨_, rfl⟩
  · exact h.elim

/-- Who does not run in a handler is a process. -/
theorem Inv.caller (h : Inv lost s ctx bed) (hproc : (s.cpus x).proc = (ctx x).me.who.pid)
    (hreal : (s.cpu x).proc ≠ FIRST_PROC) :
    (ctx x).me.who = .proc (s.cpu x).proc := by
  rw [h.cpu, hproc] at hreal ⊢
  cases hwho : (ctx x).me.who with
  | idle c =>
    rw [hwho] at hreal
    exact absurd rfl hreal
  | proc p => rfl

/-- What a hart has locked, by how many calls of `push_off` are open. -/
theorem Inv.heldLength (h : Inv lost s ctx bed) (hextra : (ctx x).extra = 0) :
    (ctx x).held.length = (s.cpu x).repeat_ := by
  rw [h.cpu, (h.harts x).count, hextra]
  rfl

theorem Inv.heldNone (h : Inv lost s ctx bed) (hextra : (ctx x).extra = 0)
    (hzero : (s.cpu x).repeat_ = 0) : (ctx x).held = [] :=
  List.length_eq_zero_iff.mp ((h.heldLength hextra).trans hzero)

/-- A hart with one lock holds that one. -/
theorem Inv.heldOne (h : Inv lost s ctx bed) (hextra : (ctx x).extra = 0)
    (hin : s.holding x lk = true) (hone : (s.cpu x).repeat_ = 1) : (ctx x).held = [lk] := by
  obtain ⟨lk', hlk'⟩ := List.length_eq_one_iff.mp ((h.heldLength hextra).trans hone)
  have hmem := (h.holding x lk).mp hin
  rw [hlk'] at hmem ⊢
  rw [List.mem_singleton.mp hmem]

theorem Inv.stateIs (h : Inv lost s ctx bed) (hwho : (ctx x).me.who = .proc p) {st : ProcState}
    (hst : s.stateIs p st) : (ctx x).me.st = st := by
  obtain ⟨pr, hpr, heq⟩ := hst
  obtain ⟨pr', hpr', hruns⟩ := h.procs.runs x p hwho
  cases hpr.symm.trans hpr'
  exact hruns.state.symm.trans heq

theorem Inv.ownPcbs (h : Inv lost s ctx bed) (hproc : (s.cpus x).proc = (ctx x).me.who.pid)
    (hown : s.OwnPcbs x) : (ctx x).OwnPcbs := by
  intro p hin
  have heq := hown p ((h.holding x _).mpr hin)
  rwa [h.cpu, hproc] at heq

/-! ## Calls that only run on -/

section

variable (h : Inv lost s ctx bed) (hcode : FreeCode (s.regs x).code)
include h hcode

theorem Inv.callAcquire (hnot : s.holding x lk = false) :
    Safe lost (s.goto x (acquire lk ++ (s.regs x).code)) := by
  have hfits := (h.harts x).fits
  have hopen := fits_open hcode hfits
  have hout : lk ∉ (ctx x).held := fun hin => nomatch hnot.symm.trans ((h.holding x lk).mpr hin)
  refine h.goto (free_proc (h.harts x) hcode) (fits_acquire hout hopen.half ?_)
  refine fits_held hcode hfits fun _ ⟨p, hp, hin⟩ => ⟨p, hp, List.mem_cons_of_mem _ hin⟩

theorem Inv.callRelease (hin : s.holding x lk = true)
    (hown : lk = .pcb (s.cpu x).proc → (s.cpu x).proc ≠ FIRST_PROC →
      s.stateIs (s.cpu x).proc .running) :
    Safe lost (s.goto x (release lk ++ (s.regs x).code)) := by
  have hfits := (h.harts x).fits
  have hopen := fits_open hcode hfits
  have hproc := free_proc (h.harts x) hcode
  have hrunning : ∀ p, (ctx x).me.who = .proc p → lk = .pcb p → (ctx x).me.st = .running := by
    intro p hwho hlk
    obtain ⟨pr, hpr, -⟩ := h.procs.runs x p hwho
    have hcur : (s.cpu x).proc = p := by
      rw [h.cpu, hproc, hwho]
      rfl
    rw [hcur] at hown
    exact h.stateIs hwho (hown hlk (h.real hpr).symm)
  refine h.goto hproc (fits_release ((h.holding x lk).mp hin) hopen.half ?_ (fun _ => hopen.task)
    (fun _ => hopen.task) (fits_held hcode hfits ?_))
  · exact fun p hwho hlk => ⟨hrunning p hwho hlk, hopen.w4child, hopen.parked⟩
  · intro hz hlocked
    refine hlocked.erase fun p hwho hlk => ?_
    exact nomatch (hrunning p hwho hlk).symm.trans hz

theorem Inv.callMyproc : Safe lost (s.goto x (myproc ++ (s.regs x).code)) := by
  have hfits := (h.harts x).fits
  exact h.goto (free_proc (h.harts x) hcode) (fits_myproc (fun _ => (fits_open hcode hfits).toCalm)
    hfits)

theorem Inv.callUnblockAll (hsleep : wl.lk ≠ .sleep) (hin : s.holding x wl.lk = true)
    (hown : s.OwnPcbs x) : Safe lost (s.goto x (.unblockAll wl :: (s.regs x).code)) := by
  have hfits := (h.harts x).fits
  have hopen := fits_open hcode hfits
  have hproc := free_proc (h.harts x) hcode
  exact h.goto hproc (.cons (.unblockAll ((h.holding x _).mp hin) hsleep hopen.toCalm
    (h.ownPcbs hproc hown) hopen.parked) hfits)

theorem Inv.callTimeWakeup (hnot : s.holding x .sleep = false) (hown : s.OwnPcbs x) :
    Safe lost (s.goto x (timeWakeup ++ (s.regs x).code)) := by
  have hfits := (h.harts x).fits
  have hopen := fits_open hcode hfits
  have hproc := free_proc (h.harts x) hcode
  have hout : Lock.sleep ∉ (ctx x).held := fun hin =>
    nomatch hnot.symm.trans ((h.holding x _).mpr hin)
  exact h.goto hproc (fits_timeWakeup hopen.toCalm hout (h.ownPcbs hproc hown) hopen.parked hfits)

end

/-! ## Calls that give up the hart -/

section

variable (h : Inv lost s ctx bed) (hcode : (s.regs x).code = [])
  (hreal : (s.cpu x).proc ≠ FIRST_PROC)
include h hcode hreal

theorem Inv.self : (s.cpus x).proc = (ctx x).me.who.pid ∧
    (ctx x).me.who = .proc (s.cpu x).proc ∧ (ctx x).Done := by
  have hproc := free_proc (h.harts x) (.inl hcode)
  have hfits := (h.harts x).fits
  rw [hcode] at hfits
  refine ⟨hproc, h.caller hproc hreal, ?_⟩
  cases hfits with
  | nil hdone => exact hdone

/-- A process that has not locked its own entry runs. -/
theorem Inv.selfPlain (hno : Lock.pcb (s.cpu x).proc ∉ (ctx x).held) : (ctx x).me.Plain := by
  obtain ⟨-, hwho, -⟩ := h.self hcode hreal
  refine (h.harts x).good.own ?_
  rintro ⟨p, hp, hin⟩
  obtain rfl := Who.proc.inj (hwho.symm.trans hp)
  exact hno hin

theorem Inv.selfBare (hzero : (s.cpu x).repeat_ = 0) : (ctx x).Bare ∧ (ctx x).me.Plain := by
  obtain ⟨-, -, hdone⟩ := h.self hcode hreal
  have hheld := h.heldNone hdone.extra hzero
  refine ⟨⟨hdone.toCalm, hheld, hdone.extra⟩, h.selfPlain hcode hreal ?_⟩
  rw [hheld]
  exact List.not_mem_nil

theorem Inv.callYield (hin : s.holding x (.pcb (s.cpu x).proc) = true)
    (hone : (s.cpu x).repeat_ = 1) (hst : s.stateIs (s.cpu x).proc .running) :
    Safe lost (s.goto x (yield (s.cpu x).proc ++ (s.regs x).code)) := by
  obtain ⟨hproc, hwho, hdone⟩ := h.self hcode hreal
  have hrun := h.stateIs hwho hst
  refine h.goto hproc (fits_yield hwho (h.heldOne hdone.extra hin hone) hdone.extra hdone.toCalm
    hdone.ie ⟨hrun, hdone.w4child, hdone.parked⟩ ?_)
  rw [hcode]
  exact .nil ⟨⟨hdone.half, hdone.task⟩, hdone.extra, hdone.ie, hdone.w4child, hdone.parked,
    Or.inl hrun⟩

theorem Inv.callBlock (hne : wl.lk ≠ .pcb (s.cpu x).proc) (hin : s.holding x wl.lk = true)
    (hone : (s.cpu x).repeat_ = 1) :
    Safe lost (s.goto x (procBlock (s.cpu x).proc wl ++ (s.regs x).code)) := by
  obtain ⟨hproc, hwho, hdone⟩ := h.self hcode hreal
  have hheld := h.heldOne hdone.extra hin hone
  have hplain : (ctx x).me.Plain := by
    refine h.selfPlain hcode hreal ?_
    rw [hheld]
    exact fun hmem => hne (List.mem_singleton.mp hmem).symm
  exact h.goto hproc (fits_procBlock hwho hheld hne hdone.extra hdone.toCalm hdone.ie hplain
    (h.harts x).fits)

theorem Inv.callMsleep (hzero : (s.cpu x).repeat_ = 0) :
    Safe lost (s.goto x (sysMsleep (s.cpu x).proc ++ (s.regs x).code)) := by
  obtain ⟨hproc, hwho, hdone⟩ := h.self hcode hreal
  obtain ⟨hbare, hplain⟩ := h.selfBare hcode hreal hzero
  exact h.goto hproc (fits_sysMsleep hwho hbare hdone.ie hplain (h.harts x).fits)

theorem Inv.callKill {target : Pid} (hzero : (s.cpu x).repeat_ = 0) :
    Safe lost (if target = FIRST_PROC ∨ (s.pcbtable target).isSome then
      s.goto x (sysKill (s.cpu x).proc target ++ (s.regs x).code) else s) := by
  obtain ⟨hproc, hwho, -⟩ := h.self hcode hreal
  obtain ⟨hbare, hplain⟩ := h.selfBare hcode hreal hzero
  split
  · exact h.goto hproc (fits_sysKill hwho hbare hplain (h.harts x).fits)
  · exact h.safe

theorem Inv.callWaitAny (hzero : (s.cpu x).repeat_ = 0) :
    Safe lost (s.goto x (waitAny (s.cpu x).proc ++ (s.regs x).code)) := by
  obtain ⟨hproc, hwho, hdone⟩ := h.self hcode hreal
  obtain ⟨hbare, hplain⟩ := h.selfBare hcode hreal hzero
  exact h.goto hproc (fits_waitAny hwho hbare hdone.ie hplain (h.harts x).fits)

theorem Inv.callUsertrapret (hzero : (s.cpu x).repeat_ = 0) :
    Safe lost (s.goto x (usertrapret (s.cpu x).proc ++ (s.regs x).code)) := by
  obtain ⟨hproc, hwho, hdone⟩ := h.self hcode hreal
  refine h.goto hproc ?_
  rw [hcode, List.append_nil]
  exact fits_usertrapret hwho (h.selfBare hcode hreal hzero).1 hdone

theorem Inv.callExit (hin : s.holding x (.pcb (s.cpu x).proc) = true)
    (hone : (s.cpu x).repeat_ = 1) (hst : s.stateIs (s.cpu x).proc .zombie) :
    Safe lost (s.goto x ([.sched, .bug] ++ (s.regs x).code)) := by
  obtain ⟨hproc, hwho, hdone⟩ := h.self hcode hreal
  have hz := h.stateIs hwho hst
  have hback : (ctx x).me.back.st = .unused := by
    rw [Me.back]
    exact if_pos hz
  refine h.goto hproc (fits_sched hwho (h.heldOne hdone.extra hin hone) hdone.extra hdone.toCalm
    hdone.ie (.inr (.inr ⟨hz, hdone.w4child, hdone.parked⟩)) (.cons (.bug hback) ?_))
  rw [hcode]
  exact .nil ⟨⟨hdone.half, hdone.task⟩, hdone.extra, hdone.ie, hdone.w4child, rfl,
    Or.inr (.inr hback)⟩

theorem Inv.callZombie (hin : s.holding x (.pcb (s.cpu x).proc) = true) :
    ∃ s', call s x (s.cpu x).proc (s.regs x).code .zombie = some s' ∧ Safe lost s' := by
  obtain ⟨hproc, hwho, hdone⟩ := h.self hcode hreal
  have hmem := (h.holding x _).mp hin
  obtain ⟨pr, hpr, hruns⟩ := h.procs.runs x _ hwho
  have hsame : (s.setProc (s.cpu x).proc { pr with state := .zombie }).goto x [] =
      s.setProc (s.cpu x).proc { pr with state := .zombie } := by
    rw [← hcode]
    exact congrArg (fun r => ({ s with
      pcbtable := Function.update s.pcbtable (s.cpu x).proc
        (some { pr with state := .zombie }), regs := r } : State))
      (Function.update_eq_self x s.regs)
  have hsafe := h.ownEntry hproc { (ctx x).me with st := .zombie } { pr with state := .zombie }
    (bed (s.cpu x).proc) hwho hmem hwho (hruns.setState nofun) ?_ (k := []) (.nil ?_)
  · rw [hsame] at hsafe
    refine ⟨_, ?_, hsafe⟩
    rw [call, hpr]
    rfl
  · rw [Function.update_eq_self]
    exact h.beds
  · exact ⟨⟨hdone.half, hdone.task⟩, hdone.extra, hdone.ie, hdone.w4child, hdone.parked,
      Or.inr (.inl ⟨rfl, _, hwho, hmem⟩)⟩

end

/-! ## Calls that change other processes -/

/-- The harts, the locks and the lists stay as they are. -/
theorem Inv.setTable (h : Inv lost s ctx bed) {tbl : Pid → Option Proc} {bed' : Pid → Option Bed}
    (hprocs : ProcsOk lost tbl (fun y => (ctx y).me) bed')
    (hbeds : BedsOk s.queue (fun y => (ctx y).task) bed') : Safe lost { s with pcbtable := tbl } :=
  ⟨ctx, bed', h.harts, h.locks, hprocs, hbeds⟩

/-- The process that a caller means is not its own. -/
theorem Inv.notMine (h : Inv lost s ctx bed) (hproc : (s.cpus x).proc = (ctx x).me.who.pid)
    (hne : p ≠ (s.cpu x).proc) : (ctx x).me.who ≠ .proc p := by
  intro hwho
  refine hne ?_
  rw [h.cpu, hproc, hwho]
  rfl

section

variable (h : Inv lost s ctx bed) (hproc : (s.cpus x).proc = (ctx x).me.who.pid)
  (hin : s.holding x (.pcb p) = true)

include h in
theorem Inv.callAllocproc (hreal : p ≠ FIRST_PROC) (hnone : s.pcbtable p = none) :
    Safe lost (s.setProc p (freshProc p)) := by
  have hbed := h.procs.absent p hnone
  have hrest : ∀ y, (ctx y).me.who ≠ .proc p := by
    intro y hy
    obtain ⟨pr, hpr, -⟩ := h.procs.runs y p hy
    exact nomatch hnone.symm.trans hpr
  have hfresh : AtRest lost p (freshProc p) none :=
    ⟨nofun, .inr (fits_forkret p), nofun, nofun, nofun, ⟨nofun, fun hboth => nomatch hboth.1⟩⟩
  have hprocs := h.procs.other hreal.symm hrest hfresh
  rw [← hbed, Function.update_eq_self] at hprocs
  exact h.setTable hprocs h.beds

include h hproc hin

/-- A process of somebody else becomes ready. -/
theorem Inv.makeReady (hne : p ≠ (s.cpu x).proc) (hpr : s.pcbtable p = some pr)
    (hst : pr.state ≠ .running) (hz : pr.state ≠ .zombie)
    (hwait : pr.state = .block → pr.w4child = true) :
    Safe lost (s.setProc p { pr with state := .ready }) := by
  obtain ⟨hrest, hat⟩ := h.atRest ((h.holding x _).mp hin) (h.notMine hproc hne) hpr hst
  refine h.setTable (h.procs.other (h.real hpr) hrest (hat.ready hz))
    (h.beds.child (fun b hb hlies => ?_) (.inl rfl))
  cases hbed : bed p with
  | none => exact h.beds.nowhere hbed hb hlies
  | some b' =>
    rw [hbed] at hat
    have hblock := hat.block rfl
    have hchild := hat.child.mpr ⟨hblock, hwait hblock⟩
    exact hb ((h.beds.single hbed hb hlies).trans (Option.some.inj hchild))

theorem Inv.callForked (hne : p ≠ (s.cpu x).proc) (hst : s.stateIs p .initing) :
    ∃ s', call s x q k (.forked p) = some s' ∧ Safe lost s' := by
  obtain ⟨pr, hpr, hinit⟩ := hst
  refine ⟨s.setProc p { pr with state := .ready }, ?_, h.makeReady hproc hin hne hpr ?_ ?_ ?_⟩
  · rw [call, hpr]
    rfl
  all_goals
    rw [hinit]
    exact nofun

/-- A parent whose entry somebody else has locked waits for a child, if `w4child` says so. -/
theorem Inv.callWakeParent (hne : p ≠ (s.cpu x).proc) (hpr : s.pcbtable p = some pr) :
    ∃ s', call s x q k (.wakeParent p) = some s' ∧ Safe lost s' := by
  have hcall : call s x q k (.wakeParent p) =
      some (if pr.w4child then s.setProc p { pr with state := .ready } else s) := by
    rw [call, hpr]
    rfl
  refine ⟨_, hcall, ?_⟩
  by_cases hw : pr.w4child = true
  · have hrest : ∀ y, (ctx y).me.who ≠ .proc p := by
      intro y hy
      obtain ⟨pr', hpr', hruns⟩ := h.procs.runs y p hy
      cases hpr.symm.trans hpr'
      have hplain := h.plain ((h.holding x _).mp hin) (h.notMine hproc hne) hy
      exact nomatch hplain.w4child.symm.trans (hruns.w4child.symm.trans hw)
    have hwaits := (h.procs.rests p pr hpr hrest).waits hw
    rw [if_pos hw]
    refine h.makeReady hproc hin hne hpr ?_ ?_ fun _ => hw
    all_goals
      rcases hwaits with hst | hst <;> rw [hst] <;> exact nofun
  · rw [if_neg hw]
    exact h.safe

theorem Inv.callReap (hne : p ≠ (s.cpu x).proc) (hst : s.stateIs p .zombie) :
    Safe lost { s with pcbtable := Function.update s.pcbtable p none } := by
  obtain ⟨pr, hpr, hz⟩ := hst
  have hnot : pr.state ≠ .running := by
    rw [hz]
    exact nofun
  obtain ⟨hrest, hat⟩ := h.atRest ((h.holding x _).mp hin) (h.notMine hproc hne) hpr hnot
  have hbed : bed p = none := by
    refine Option.isNone_iff_eq_none.mp (Option.isSome_eq_false_iff.mp (Bool.eq_false_iff.mpr ?_))
    exact fun hsome => nomatch hz.symm.trans (hat.block hsome)
  exact h.setTable (h.procs.remove hrest hbed) h.beds

end

/-! ## All inputs -/

theorem Inv.call (h : Inv lost s ctx bed) (hfree : Free s x c (s.regs x).code)
    (hrule : c.Allowed s x) :
    ∃ s', call s x (s.cpu x).proc (s.regs x).code c = some s' ∧ Safe lost s' := by
  have hcode := freeCode hfree
  have hproc := free_proc (h.harts x) hcode
  -- who is not in a handler is a process in the kernel
  have hself : c.inHandler = false → (s.regs x).code = [] ∧ (s.cpu x).proc ≠ FIRST_PROC := by
    intro hno
    rcases hcode with hnil | ⟨k, hirq⟩
    · rw [hnil] at hfree
      exact ⟨hnil, hfree⟩
    · rw [hirq] at hfree
      exact nomatch hno.symm.trans hfree
  cases c with
  | acquire lk => exact ⟨_, rfl, h.callAcquire hcode hrule⟩
  | release lk => exact ⟨_, rfl, h.callRelease hcode hrule.1 hrule.2⟩
  | myproc => exact ⟨_, rfl, h.callMyproc hcode⟩
  | procUnblockAll wl =>
    obtain ⟨hsleep, hin, hown⟩ := hrule
    exact ⟨_, rfl, h.callUnblockAll hcode hsleep hin hown⟩
  | timeWakeup => exact ⟨_, rfl, h.callTimeWakeup hcode hrule.1 hrule.2⟩
  | yield =>
    obtain ⟨hnil, hreal⟩ := hself rfl
    obtain ⟨hin, hone, hst⟩ := hrule
    exact ⟨_, rfl, h.callYield hnil hreal hin hone hst⟩
  | procBlock wl =>
    obtain ⟨hnil, hreal⟩ := hself rfl
    obtain ⟨-, hne, hin, hone⟩ := hrule
    exact ⟨_, rfl, h.callBlock hnil hreal hne hin hone⟩
  | sysMsleep =>
    obtain ⟨hnil, hreal⟩ := hself rfl
    exact ⟨_, rfl, h.callMsleep hnil hreal hrule⟩
  | sysKill target =>
    obtain ⟨hnil, hreal⟩ := hself rfl
    exact ⟨_, rfl, h.callKill hnil hreal hrule.1⟩
  | waitAny =>
    obtain ⟨hnil, hreal⟩ := hself rfl
    exact ⟨_, rfl, h.callWaitAny hnil hreal hrule⟩
  | allocproc newpid => exact ⟨_, rfl, h.callAllocproc hrule.2.1 hrule.2.2⟩
  | forked newpid =>
    obtain ⟨hin, hne, hst⟩ := hrule
    exact h.callForked hproc hin hne hst
  | zombie =>
    obtain ⟨hnil, hreal⟩ := hself rfl
    exact h.callZombie hnil hreal hrule.1
  | wakeParent parent =>
    obtain ⟨hin, hne, pr, hpr⟩ := hrule
    exact h.callWakeParent hproc hin hne hpr
  | exitSched =>
    obtain ⟨hnil, hreal⟩ := hself rfl
    obtain ⟨hin, hone, hst⟩ := hrule
    exact ⟨_, rfl, h.callExit hnil hreal hin hone hst⟩
  | reap target =>
    obtain ⟨hin, hne, hst⟩ := hrule
    exact ⟨_, rfl, h.callReap hproc hin hne hst⟩
  | usertrapret =>
    obtain ⟨hnil, hreal⟩ := hself rfl
    exact ⟨_, rfl, h.callUsertrapret hnil hreal hrule⟩

/-- Where the interrupts are on, the hart has no lock and is in the middle of nothing. -/
theorem HartOk.listening {cpu : Cpu} {r : Regs} (h : HartOk x cpu r Γ) (hsie : r.sie = true) :
    Γ.Bare ∧ Γ.me.Plain ∧ Γ.ie = true ∧ cpu.proc = Γ.me.who.pid := by
  have hzero : cpu.repeat_ = 0 := by
    by_cases hne : cpu.repeat_ = 0
    · exact hne
    · exact nomatch (h.off hne).1.symm.trans hsie
  have hsum : Γ.held.length + Γ.extra = 0 := h.count.symm.trans hzero
  have hheld : Γ.held = [] := List.length_eq_zero_iff.mp (Nat.eq_zero_of_add_eq_zero_right hsum)
  have hextra : Γ.extra = 0 := Nat.eq_zero_of_add_eq_zero_left hsum
  refine ⟨⟨h.good.calm hheld hextra, hheld, hextra⟩, h.good.own ?_, ?_, h.proc fun k hk => ?_⟩
  · rintro ⟨p, -, hin⟩
    rw [hheld] at hin
    exact absurd hin List.not_mem_nil
  · exact (h.on hzero).symm.trans hsie
  · have hfits := h.fits
    rw [hk] at hfits
    obtain ⟨Γ', hn, -⟩ := fits_cons.mp hfits
    cases hn with
    | idle hwho hne => exact hne hheld

theorem Inv.interrupt (h : Inv lost s ctx bed) (hsie : (s.regs x).sie = true) :
    Safe lost (s.setRegs x { s.regs x with sie := false, code := .irqBody :: (s.regs x).code }) := by
  obtain ⟨hbare, hplain, hie, hproc⟩ := (h.harts x).listening hsie
  refine h.setSie hproc hbare (.cons (.irqBody ⟨hbare.half, hbare.task⟩ hbare.extra hplain rfl) ?_)
  have hback : ({ ctx x with ie := true, held := [] } : Ctx) = ctx x := by
    rw [← hbare.held, ← hie]
  show Fits { ctx x with ie := true, held := [] } _
  rw [hback]
  exact (h.harts x).fits

theorem Inv.handled (h : Inv lost s ctx bed) (hcode : (s.regs x).code = .irqBody :: k)
    (hzero : (s.cpu x).repeat_ = 0) :
    Safe lost (s.setRegs x { s.regs x with sie := true, code := k }) := by
  have hfits := (h.harts x).fits
  have hproc := free_proc (h.harts x) (.inr ⟨k, hcode⟩)
  rw [hcode] at hfits
  obtain ⟨Γ', hn, hk⟩ := fits_cons.mp hfits
  cases hn with
  | irqBody hcalm hextra hplain hie =>
    have hheld := h.heldNone hextra hzero
    refine h.setSie hproc ⟨hcalm, hheld, hextra⟩ ?_
    rw [← hheld] at hk
    exact hk

theorem Inv.trap (h : Inv lost s ctx bed) (hcode : (s.regs x).code = [.user p]) :
    ∃ pr, s.pcbtable p = some pr ∧
      Safe lost (s.setRegs x ⟨pr.host, false, usertrapHandler⟩) := by
  have hfits := (h.harts x).fits
  rw [hcode] at hfits
  obtain ⟨Γ', hn, hk⟩ := fits_cons.mp hfits
  cases hn with
  | user hwho hbare hie =>
    have hproc : (s.cpus x).proc = (ctx x).me.who.pid := by
      refine (h.harts x).proc fun l hl => ?_
      rw [hcode] at hl
      exact nomatch (List.cons.inj hl).1
    obtain ⟨pr, hpr, hruns⟩ := h.procs.runs x p hwho
    have hregs : (⟨pr.host, false, usertrapHandler⟩ : Regs) =
        { s.regs x with sie := false, code := usertrapHandler } :=
      congrArg (Regs.mk · false usertrapHandler) (hruns.host.trans (h.harts x).scratch.symm)
    have hback : ({ ctx x with ie := true } : Ctx) = ctx x := by
      rw [← hie]
    refine ⟨pr, hpr, ?_⟩
    rw [hregs]
    refine h.setSie hproc hbare (fits_usertrapHandler ⟨⟨hbare.half, hbare.task⟩, hbare.held,
      hbare.extra⟩ ?_)
    show ({ ctx x with ie := true } : Ctx).Done
    rw [hback]
    cases hk with
    | nil hdone => exact hdone

/-- What can happen does, and keeps the invariant. -/
theorem Inv.next (h : Inv lost s ctx bed) {i : Input} (hi : Enabled s i)
    (hlost : ∀ x p, i = .popped x p → lost p) :
    ∃ s', next s i = some s' ∧ Safe lost s' := by
  cases i with
  | step x =>
    obtain ⟨st, k, hcode, hirq, huser⟩ := hi
    obtain ⟨s', hexec, hsafe⟩ := h.exec hcode hirq huser
    refine ⟨s', ?_, hsafe⟩
    rw [Sched.next, hcode]
    exact hexec
  | due x p =>
    obtain ⟨⟨k, hcode⟩, hin⟩ := hi
    have hfits := (h.harts x).fits
    have hproc : (s.cpus x).proc = (ctx x).me.who.pid := by
      refine (h.harts x).proc fun l hl => ?_
      rw [hcode] at hl
      exact nomatch (List.cons.inj hl).1
    obtain ⟨Γ', hn, -⟩ := fits_cons.mp (hcode ▸ hfits)
    cases hn with
    | timeLoop hsleep hcalm hown hparked =>
      exact ⟨_, rfl, h.due hproc hsleep hcalm hown hparked hin hfits⟩
  | popped x p =>
    obtain ⟨⟨k, hcode⟩, hin⟩ := hi
    have hfits := (h.harts x).fits
    have hproc : (s.cpus x).proc = (ctx x).me.who.pid := by
      refine (h.harts x).proc fun l hl => ?_
      rw [hcode] at hl
      exact nomatch (List.cons.inj hl).1
    obtain ⟨Γ', hn, hk⟩ := fits_cons.mp (hcode ▸ hfits)
    refine ⟨_, rfl, ?_⟩
    rw [hcode]
    cases hn with
    | popV hsleep hlocked hcalm hparked =>
      exact h.popped hproc hsleep hlocked hcalm hparked hin (hlost x p rfl) hk
  | call x c => exact h.call hi.1 hi.2
  | interrupt x => exact ⟨_, rfl, h.interrupt hi.1⟩
  | handled x =>
    obtain ⟨⟨k, hcode⟩, hzero⟩ := hi
    refine ⟨_, rfl, ?_⟩
    rw [hcode]
    exact h.handled hcode hzero
  | trap x =>
    obtain ⟨p, hcode⟩ := hi
    obtain ⟨pr, hpr, hsafe⟩ := h.trap hcode
    refine ⟨_, ?_, hsafe⟩
    rw [Sched.next, hcode]
    show (s.pcbtable p).bind _ = _
    rw [hpr]
    rfl

end Uniks.Sched
