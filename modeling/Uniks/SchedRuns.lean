/-
  What holds in every state that the harts can reach.

  From `kernel_start` on, in any interleaving of any number of harts, with interrupts wherever they
  are on and with whatever free code calls that keeps the rules of the functions: no assertion
  fails and nothing panics, a process runs on one hart, a lock stays with the hart that holds it,
  and the interrupts are off just where a lock is held.  As long as no `sys_kill` takes a process
  out of the sleep queue, which leaves it in `TASK_BLOCK` on no list, a process that is blocked can
  be found by who is to wake it.
-/
import Uniks.SchedCalls

namespace Uniks.Sched

open Uniks.Runs
open Option (some bind_eq_some_iff)

variable {s s' : State} {ctx : Hart → Ctx} {bed : Pid → Option Bed} {Γ Γ' : Ctx} {lk : Lock}
  {p q : Pid} {wl wl' : WaitList} {k code : List Stmt} {st : Stmt} {x y : Hart} {i : Input}
  {lost : Pid → Prop}

/-- The states that can be reached from `kernel_start`. -/
def Reached (s : State) : Prop := Reaches Step anyInput start s

/-- `sys_kill` does not find its target in the sleep queue. -/
def KillsNoSleeper (_ : State) (i : Input) : Prop := ∀ x p, i ≠ .popped x p

theorem start_inv : Inv lost start (fun h => idleCtx h []) fun _ => none := by
  refine ⟨fun h => ?_, ?_, ?_, ?_⟩
  · refine ⟨fits_scan h (Nat.le_refl 1), idleCtx_good h [], fun c hc => (Who.idle.inj hc).symm, rfl,
      rfl, fun hne => absurd rfl hne, fun _ => rfl, fun _ => rfl, nofun⟩
  · exact ⟨fun h lk => ⟨nofun, nofun⟩, fun h => List.nodup_nil, nofun, nofun, nofun⟩
  · refine ⟨nofun, fun p pr hpr _ => ?_, fun _ _ => rfl, rfl, nofun⟩
    by_cases hp : p = INIT_PROC
    · subst hp
      cases hpr
      exact ⟨nofun, .inr (fits_forkret INIT_PROC), nofun, nofun, nofun,
        ⟨nofun, fun hboth => nomatch hboth.1⟩⟩
    · have hnone : start.pcbtable p = none := if_neg hp
      exact nomatch hnone.symm.trans hpr
  · refine ⟨fun wl => List.nodup_nil, fun p b hb => ⟨nofun, fun hlies => ?_⟩, nofun⟩
    cases b with
    | list wl => exact absurd hlies.1 List.not_mem_nil
    | hand h => cases hlies
    | child => exact absurd rfl hb

/-- A run in which a kill takes none but the `lost` out of the sleep queue. -/
theorem safe_of_reaches {cond : State → Input → Prop}
    (hcond : ∀ s x p, cond s (.popped x p) → lost p) (h : Reaches Step cond start s) :
    Safe lost s := by
  refine h.invariant ⟨_, _, start_inv⟩ ?_
  rintro s i s' ⟨ctx, bed, hinv⟩ hc ⟨hi, hnext⟩
  obtain ⟨s'', hs'', hsafe⟩ := hinv.next hi fun x p heq => hcond s x p (heq ▸ hc)
  cases hs''.symm.trans hnext
  exact hsafe

theorem reached_safe (h : Reached s) : Safe (fun _ => True) s :=
  safe_of_reaches (fun _ _ _ _ => trivial) h

/-! ## Runs that can be computed -/

def Stmt.ordinary : Stmt → Bool
  | .irqBody | .user _ => false
  | _ => true

/-- What a process calls without a lock. -/
def Call.bare : Call → Bool
  | .sysMsleep | .waitAny => true
  | .sysKill target => target < NPROC
  | _ => false

/-- Inputs that are seen to be possible: statements, and calls of a process without a lock. -/
def Input.sure (s : State) : Input → Bool
  | .step h =>
    match (s.regs h).code with
    | [] => false
    | st :: _ => st.ordinary
  | .call h c =>
    c.bare && (s.regs h).code.isEmpty && (s.cpu h).proc ≠ FIRST_PROC && (s.cpu h).repeat_ = 0
  | _ => false

theorem Stmt.ordinary_iff : st.ordinary = true ↔ st ≠ .irqBody ∧ ∀ p, st ≠ .user p := by
  cases st <;> simp [Stmt.ordinary]

theorem sure_enabled (h : i.sure s = true) : Enabled s i := by
  cases i with
  | step x =>
    cases hcode : (s.regs x).code with
    | nil =>
      rw [Input.sure, hcode] at h
      cases h
    | cons st k =>
      rw [Input.sure, hcode] at h
      exact ⟨st, k, hcode, Stmt.ordinary_iff.mp h⟩
  | call x c =>
    simp only [Input.sure, Bool.and_eq_true, List.isEmpty_iff, decide_eq_true_eq] at h
    obtain ⟨⟨⟨hbare, hcode⟩, hreal⟩, hzero⟩ := h
    refine ⟨?_, ?_⟩
    · show Free s x c (s.regs x).code
      rw [hcode]
      exact hreal
    · show c.Allowed s x
      cases c with
      | sysMsleep => exact hzero
      | waitAny => exact hzero
      | sysKill target => exact ⟨hzero, of_decide_eq_true hbare⟩
      | _ => cases hbare
  | _ => cases h

theorem sure_kills (h : i.sure s = true) : KillsNoSleeper s i := by
  rintro x p rfl
  cases h

def advance : State → Input → Option State := guarded (fun s i => i.sure s = true) next

theorem advance_step (s : State) (i : Input) (s' : State) (h : advance s i = some s') :
    KillsNoSleeper s i ∧ Step s i s' := by
  obtain ⟨hsure, hnext⟩ := guarded_step s i s' h
  exact ⟨sure_kills hsure, sure_enabled hsure, hnext⟩

theorem reaches_of_run {is : List Input} (h : runAll advance start is = some s) :
    Reaches Step KillsNoSleeper start s :=
  runAll_reaches advance_step h

theorem reached_of_run {is : List Input} (h : runAll advance start is = some s) : Reached s :=
  (reaches_of_run h).anyInput

/-- The scheduler of the first hart takes the lock of the process of `user_init`, .. -/
def locking : List Input := List.replicate 5 (.step 0)

/-- .. which then runs, .. -/
def opening : List Input := locking ++ List.replicate 7 (.step 0)

/-- .. and is about to give up the hart to wait for a child, .. -/
def leaving : List Input := opening ++ .call 0 .waitAny :: List.replicate 6 (.step 0)

/-- .. or kills itself, which comes to nothing, and sleeps. -/
def sleeping : List Input :=
  opening ++ .call 0 (.sysKill INIT_PROC) :: List.replicate 18 (.step 0) ++
    .call 0 .sysMsleep :: List.replicate 15 (.step 0)

theorem locking_runs : (runAll advance start locking).isSome = true := by decide +kernel

theorem opening_runs : (runAll advance start opening).isSome = true := by decide +kernel

theorem leaving_runs : (runAll advance start leaving).isSome = true := by decide +kernel

theorem sleeping_runs : (runAll advance start sleeping).isSome = true := by decide +kernel

def locked : State := (runAll advance start locking).get locking_runs

def opened : State := (runAll advance start opening).get opening_runs

def left : State := (runAll advance start leaving).get leaving_runs

def asleep : State := (runAll advance start sleeping).get sleeping_runs

theorem locked_reached : Reached locked := reached_of_run (Option.some_get locking_runs).symm

theorem opened_reached : Reached opened := reached_of_run (Option.some_get opening_runs).symm

theorem asleep_reaches : Reaches Step KillsNoSleeper start asleep :=
  reaches_of_run (Option.some_get sleeping_runs).symm

/-! ## Nothing fails -/

/-- `p` is the process of hart `x`, and the hart is not just behind the `switch_to` of
    `scheduler`. -/
def Executes (s : State) (x : Hart) (p : Pid) : Prop :=
  (s.cpus x).proc = p ∧ p ≠ FIRST_PROC ∧ ∀ k, (s.regs x).code ≠ .idle x :: k

theorem Inv.executes (h : Inv lost s ctx bed) : Executes s x p ↔ (ctx x).me.who = .proc p := by
  constructor
  · rintro ⟨hcur, hreal, hcode⟩
    have hproc := (h.harts x).proc hcode
    rw [hcur] at hproc
    cases hwho : (ctx x).me.who with
    | idle c =>
      rw [hwho] at hproc
      exact absurd hproc hreal
    | proc q =>
      rw [hwho] at hproc
      exact congrArg Who.proc hproc.symm
  · intro hwho
    have hcode : ∀ k, (s.regs x).code ≠ .idle x :: k := by
      intro k hk
      obtain ⟨Γ', hn, -⟩ := fits_cons.mp (hk ▸ (h.harts x).fits)
      cases hn with
      | idle hidle hheld => exact nomatch hidle.symm.trans hwho
    obtain ⟨pr, hpr, -⟩ := h.procs.runs x p hwho
    refine ⟨?_, (h.real hpr).symm, hcode⟩
    rw [(h.harts x).proc hcode, hwho]
    rfl

/-- A process is executed by one hart, which is in `p->host` and, as its `struct cpu_t`, in
    `sscratch`; and `TASK_RUNNING` says that it is executed. -/
theorem one_hart (h : Reached s) :
    (∀ x y p, Executes s x p → Executes s y p → x = y) ∧
    (∀ p, s.stateIs p .running → ∃ x, Executes s x p) ∧
    (∀ x p, Executes s x p → s.holding x (.pcb p) = false → s.stateIs p .running) ∧
    (∀ x p, Executes s x p → ∃ pr, s.pcbtable p = some pr ∧ pr.host = x) ∧
    ∀ x, s.mycpu x = x := by
  obtain ⟨ctx, bed, hinv⟩ := reached_safe h
  refine ⟨fun x y p hx hy => ?_, fun p hst => ?_, fun x p hx hno => ?_, fun x p hx => ?_,
    hinv.mycpu⟩
  · exact hinv.procs.one x y p (hinv.executes.mp hx) (hinv.executes.mp hy)
  · obtain ⟨pr, hpr, hrun⟩ := hst
    by_contra hnone
    refine (hinv.procs.rests p pr hpr fun x hx => ?_).state hrun
    exact hnone ⟨x, hinv.executes.mpr hx⟩
  · have hwho := hinv.executes.mp hx
    obtain ⟨pr, hpr, hruns⟩ := hinv.procs.runs x p hwho
    refine ⟨pr, hpr, hruns.state.trans ((hinv.harts x).good.own ?_).st⟩
    rintro ⟨q, hq, hin⟩
    obtain rfl := Who.proc.inj (hwho.symm.trans hq)
    exact nomatch hno.symm.trans ((hinv.holding x _).mpr hin)
  · obtain ⟨pr, hpr, hruns⟩ := hinv.procs.runs x p (hinv.executes.mp hx)
    exact ⟨pr, hpr, hruns.host⟩

theorem one_hart_opened : Executes opened 0 INIT_PROC ∧
    ∀ y, Executes opened y INIT_PROC → y = 0 := by
  have hcode : (opened.regs 0).code = [] := by decide +kernel
  have hcur : (opened.cpus 0).proc = INIT_PROC := by decide +kernel
  have hexec : Executes opened 0 INIT_PROC :=
    ⟨hcur, nofun, fun k hk => nomatch hcode.symm.trans hk⟩
  exact ⟨hexec, fun y hy => (one_hart opened_reached).1 y 0 INIT_PROC hy hexec⟩

/-! ## Interrupts -/

/-- Where a hart is not in the middle of one of the functions: a process in the kernel, the
    scheduler between two entries, and user space. -/
def Between (x : Hart) (code : List Stmt) : Prop :=
  code = [] ∨ (∃ i, code = [.scan x i]) ∨ ∃ p, code = [.user p]

theorem fits_between (hcode : Between x code) (h : Fits Γ code) : Γ.extra = 0 ∧ Γ.ie = true := by
  rcases hcode with rfl | ⟨i, rfl⟩ | ⟨p, rfl⟩
  · cases h with
    | nil hdone => exact ⟨hdone.extra, hdone.ie⟩
  · obtain ⟨Γ', hn, -⟩ := fits_cons.mp h
    cases hn with
    | scan hwho hbare hie hi => exact ⟨hbare.extra, hie⟩
  · obtain ⟨Γ', hn, -⟩ := fits_cons.mp h
    cases hn with
    | user hwho hbare hie => exact ⟨hbare.extra, hie⟩

/-- A hart with a lock does not listen, and neither does it in a handler.  Outside of the functions
    it does not listen only then, whichever harts its process has been on before. -/
theorem off_iff_locked (h : Reached s) :
    (∀ x lk, s.holding x lk = true → (s.regs x).sie = false) ∧
    (∀ x k, (s.regs x).code = .irqBody :: k → (s.regs x).sie = false) ∧
    ∀ x, Between x (s.regs x).code → (s.regs x).sie = false → ∃ lk, s.holding x lk = true := by
  obtain ⟨ctx, bed, hinv⟩ := reached_safe h
  refine ⟨fun x lk hin => ?_, fun x k hk => ?_, fun x hcode hoff => ?_⟩
  · have hmem := (hinv.holding x lk).mp hin
    refine ((hinv.harts x).off ?_).1
    rw [(hinv.harts x).count]
    exact Nat.ne_of_gt (Nat.add_pos_left (List.length_pos_of_mem hmem) _)
  · obtain ⟨Γ', hn, -⟩ := fits_cons.mp (hk ▸ (hinv.harts x).fits)
    cases hn with
    | irqBody hcalm hextra hplain hie =>
      by_cases hzero : (s.cpus x).repeat_ = 0
      · exact ((hinv.harts x).on hzero).trans hie
      · exact ((hinv.harts x).off hzero).1
  · obtain ⟨hextra, hie⟩ := fits_between hcode (hinv.harts x).fits
    have hne : (s.cpus x).repeat_ ≠ 0 := by
      intro hzero
      exact nomatch hoff.symm.trans (((hinv.harts x).on hzero).trans hie)
    rw [(hinv.harts x).count, hextra] at hne
    obtain ⟨lk, hlk⟩ := List.exists_mem_of_length_pos (Nat.pos_of_ne_zero hne)
    exact ⟨lk, (hinv.holding x lk).mpr hlk⟩

theorem off_iff_locked_locked : locked.holding 0 (.pcb INIT_PROC) = true ∧
    (locked.regs 0).sie = false := by
  have hin : locked.holding 0 (.pcb INIT_PROC) = true := by decide +kernel
  exact ⟨hin, (off_iff_locked locked_reached).1 0 _ hin⟩

/-! ## Locks -/

/-- The hart that an input is about. -/
def Input.hart : Input → Hart
  | .step h | .due h _ | .popped h _ | .call h _ | .interrupt h | .handled h | .trap h => h

/-- The statements that store into a lock. -/
theorem exec_lock (hexec : exec s x k st = some s') (htake : st ≠ .testAndSet lk)
    (hown : st ≠ .setCpu lk) (hclear : st ≠ .clearCpu lk) (hgive : st ≠ .unlock lk) :
    s'.lock lk = s.lock lk := by
  cases st with
  | testAndSet lk' =>
    have hne : lk ≠ lk' := fun heq => htake (heq ▸ rfl)
    rw [exec] at hexec
    split at hexec
    · cases hexec
      rfl
    · cases hexec
      exact Function.update_of_ne hne ..
  | setCpu lk' =>
    have hne : lk ≠ lk' := fun heq => hown (heq ▸ rfl)
    cases hexec
    exact Function.update_of_ne hne ..
  | clearCpu lk' =>
    have hne : lk ≠ lk' := fun heq => hclear (heq ▸ rfl)
    cases hexec
    exact Function.update_of_ne hne ..
  | unlock lk' =>
    have hne : lk ≠ lk' := fun heq => hgive (heq ▸ rfl)
    cases hexec
    exact Function.update_of_ne hne ..
  | popOff | isHolding =>
    rw [exec] at hexec
    split at hexec
    · cases hexec
      rfl
    · cases hexec
  | notHolding lk' =>
    rw [exec] at hexec
    split at hexec
    · cases hexec
    · cases hexec
      rfl
  | assertRunning p | wake p =>
    obtain ⟨pr, -, hrest⟩ := bind_eq_some_iff.mp hexec
    split at hrest
    · cases hrest
      rfl
    · cases hrest
  | setState p b | setW4child p b =>
    obtain ⟨pr, -, hrest⟩ := bind_eq_some_iff.mp hexec
    cases hrest
    rfl
  | unblockSelf p =>
    obtain ⟨pr, -, hrest⟩ := bind_eq_some_iff.mp hexec
    cases hrest
    show (if pr.state = .block then _ else s).lock lk = s.lock lk
    split <;> rfl
  | sched =>
    obtain ⟨pr, -, hrest⟩ := bind_eq_some_iff.mp hexec
    split at hrest
    · cases hrest
      rfl
    · cases hrest
  | unblockAll wl =>
    rw [exec] at hexec
    split at hexec <;>
    · cases hexec
      rfl
  | pick c i =>
    cases hexec
    show (execPick s x c i).lock lk = s.lock lk
    rw [execPick]
    split
    · rfl
    · split <;> rfl
  | bug | irqBody => cases hexec
  | user p => cases hexec
  | pushOff | interruptOff | interruptOn | timeLoop =>
    cases hexec
    rfl
  | enqueue p wl | scan p wl =>
    cases hexec
    rfl
  | setPreintstat b | pqPop b | popV b | idle b | sret b =>
    cases hexec
    rfl

theorem call_lock {c : Call} (hcall : call s x p k c = some s') : s'.lock = s.lock := by
  cases c with
  | forked newpid | zombie =>
    obtain ⟨pr, -, hrest⟩ := bind_eq_some_iff.mp hcall
    cases hrest
    rfl
  | wakeParent parent =>
    obtain ⟨pr, -, hrest⟩ := bind_eq_some_iff.mp hcall
    cases hrest
    split <;> rfl
  | sysKill target =>
    cases hcall
    split <;> rfl
  | _ =>
    cases hcall
    rfl

/-- What a hart does leaves the locks of the others as they are. -/
theorem Inv.lockStep (h : Inv lost s ctx bed) (hin : lk ∈ (ctx x).held) (hi : Enabled s i)
    (hnext : Sched.next s i = some s') (hne : i.hart ≠ x) : s'.lock lk = s.lock lk := by
  cases i with
  | step y =>
    obtain ⟨st, k, hcode, -, -⟩ := hi
    rw [Sched.next, hcode] at hnext
    have hfits := (h.harts y).fits
    rw [hcode] at hfits
    obtain ⟨Γ', hn, -⟩ := fits_cons.mp hfits
    have hcpu := (h.locks.holds x lk).mp hin
    have hnohalf : (ctx y).half ≠ some lk := by
      intro hhalf
      rw [h.locks.between y lk hhalf] at hcpu
      cases hcpu
    by_cases htake : st = .testAndSet lk
    · subst htake
      have hlocked := h.locks.locked x lk hin
      obtain rfl := some.inj ((if_pos hlocked).symm.trans hnext)
      rfl
    refine exec_lock hnext htake ?_ ?_ ?_
    · rintro rfl
      cases hn with
      | setCpu hpos hhalf => exact hnohalf hhalf
    · rintro rfl
      cases hn with
      | clearCpu hmine hhalf hown hsleep => exact hne (h.locks.apart hmine hin)
    · rintro rfl
      cases hn with
      | unlock hhalf => exact hnohalf hhalf
  | due y p | popped y p =>
    cases hnext
    rfl
  | call y c => exact congrFun (call_lock hnext) lk
  | interrupt y | handled y =>
    cases hnext
    rfl
  | trap y =>
    obtain ⟨p, hcode⟩ := hi
    rw [Sched.next, hcode] at hnext
    obtain ⟨pr, -, hrest⟩ := bind_eq_some_iff.mp hnext
    cases hrest
    rfl

/-- Whatever the other harts do, and for however long, a lock stays with the hart that holds it. -/
theorem lock_kept (h : Reached s) (hin : s.holding x lk = true)
    (hrun : Reaches Step (fun _ i => i.hart ≠ x) s s') :
    Reached s' ∧ s'.holding x lk = true := by
  refine hrun.invariant (I := fun a => Reached a ∧ a.holding x lk = true) ⟨h, hin⟩ ?_
  rintro a i b ⟨ha, hold⟩ hne hstep
  have hb : Reached b := ha.snoc trivial hstep
  obtain ⟨ctx, bed, hinv⟩ := reached_safe ha
  obtain ⟨ctx', bed', hinv'⟩ := reached_safe hb
  have hsame := hinv.lockStep ((hinv.holding x lk).mp hold) hstep.1 hstep.2 hne
  refine ⟨hb, ?_⟩
  rw [State.holding, hinv.mycpu] at hold
  rw [State.holding, hinv'.mycpu, hsame]
  exact hold

/-- Another hart spins on the lock. -/
theorem lock_kept_spin :
    ∃ s, runAll (guarded (fun _ i => i.hart ≠ 0) advance) locked (List.replicate 9 (.step 1)) = some s ∧
      s.holding 0 (.pcb INIT_PROC) = true := by
  have hin : locked.holding 0 (.pcb INIT_PROC) = true := by decide +kernel
  have hspin : Leads (guarded (fun _ i => i.hart ≠ 0) advance) locked (List.replicate 9 (.step 1))
      fun _ => True := by
    decide +kernel
  obtain ⟨s, hs, -⟩ := hspin
  have hreach : Reaches Step (fun _ i => i.hart ≠ 0) locked s :=
    runAll_reaches (fun s i s' h => (guarded_step s i s' h).imp_right fun hstep =>
      (advance_step s i s' hstep).2) hs
  exact ⟨s, hs, (lock_kept locked_reached hin hreach).2⟩

/-! ## Blocked processes -/

/-- Who is in the hands of a hart is about to be woken. -/
theorem fits_hand (h : Fits Γ code) (htask : Γ.task = .hand p) : Stmt.wake p ∈ code := by
  induction h with
  | nil hdone => exact nomatch hdone.task.symm.trans htask
  | cons hn hk ih =>
    cases hn with
    | wakeHand heq hin hne =>
      obtain rfl := Task.hand.inj (heq.symm.trans htask)
      exact List.mem_cons_self
    | wakeDue heq hin hne hsleep => exact nomatch heq.symm.trans htask
    | pqPop heq hsleep => exact nomatch heq.symm.trans htask
    | _ => exact List.mem_cons_of_mem _ (ih htask)

theorem Inv.waits (h : Inv lost s ctx bed) (hfound : ¬ lost p) (hst : s.stateIs p .block)
    (hrest : ∀ x, ¬ Executes s x p) :
    (∃ wl, p ∈ s.queue wl) ∨ (∃ x, Stmt.wake p ∈ (s.regs x).code) ∨
      ∃ pr, s.pcbtable p = some pr ∧ pr.w4child = true := by
  obtain ⟨pr, hpr, hblock⟩ := hst
  have hat := h.procs.rests p pr hpr fun x hx => hrest x (h.executes.mpr hx)
  obtain ⟨b, hb⟩ := Option.isSome_iff_exists.mp ((hat.found hblock).resolve_right hfound)
  cases b with
  | list wl => exact .inl ⟨wl, ((h.beds.lies p (.list wl) nofun).mp hb).1⟩
  | hand x =>
    exact .inr (.inl ⟨x, fits_hand (h.harts x).fits ((h.beds.lies p (.hand x) nofun).mp hb)⟩)
  | child => exact .inr (.inr ⟨pr, hpr, (hat.child.mp hb).2⟩)

/-- A process on a wait list is blocked, or on the way to that under its own lock. -/
theorem Inv.listed (h : Inv lost s ctx bed) (hin : p ∈ s.queue wl) (hwl : wl ≠ sleepQueue) :
    bed p = some (.list wl) ∧
      (s.stateIs p .block ∨ ∃ x, Executes s x p ∧ s.holding x (.pcb p) = true) := by
  have hbed : bed p = some (.list wl) :=
    (h.beds.lies p (.list wl) nofun).mpr ⟨hin, fun heq => hwl heq.1⟩
  have hsome : (bed p).isSome = true := by
    rw [hbed]
    rfl
  refine ⟨hbed, ?_⟩
  by_cases hex : ∃ x, (ctx x).me.who = .proc p
  · obtain ⟨x, hwho⟩ := hex
    obtain ⟨pr, -, hruns⟩ := h.procs.runs x p hwho
    refine .inr ⟨x, h.executes.mpr hwho, (h.holding x _).mpr ?_⟩
    by_contra hout
    have hplain : (ctx x).me.Plain := by
      refine (h.harts x).good.own ?_
      rintro ⟨q, hq, hlocked⟩
      obtain rfl := Who.proc.inj (hwho.symm.trans hq)
      exact hout hlocked
    exact nomatch hplain.parked.symm.trans (hruns.parked.symm.trans hsome)
  · cases hpr : s.pcbtable p with
    | none => exact nomatch (h.procs.absent p hpr).symm.trans hbed
    | some pr =>
      have hat := h.procs.rests p pr hpr fun x hx => hex ⟨x, hx⟩
      exact .inl ⟨pr, hpr, hat.block hsome⟩

/-- No process is lost, as long as no kill takes one out of the sleep queue: who has given up the
    hart in `TASK_BLOCK` is on a list, or about to be woken, or waits for a child.  A wait list has
    a process once, has none that another has, and nobody but processes that are blocked or, with
    their own lock held, about to be. -/
theorem none_lost (h : Reaches Step KillsNoSleeper start s) :
    (∀ p, s.stateIs p .block → (∀ x, ¬ Executes s x p) →
      (∃ wl, p ∈ s.queue wl) ∨ (∃ x, Stmt.wake p ∈ (s.regs x).code) ∨
        ∃ pr, s.pcbtable p = some pr ∧ pr.w4child = true) ∧
    (∀ wl, (s.queue wl).Nodup) ∧
    (∀ p wl wl', p ∈ s.queue wl → p ∈ s.queue wl' → wl ≠ sleepQueue → wl' ≠ sleepQueue →
      wl = wl') ∧
    ∀ p wl, p ∈ s.queue wl → wl ≠ sleepQueue →
      s.stateIs p .block ∨ ∃ x, Executes s x p ∧ s.holding x (.pcb p) = true := by
  have hsafe : Safe (fun _ => False) s := safe_of_reaches (fun _ x p hc => hc x p rfl) h
  obtain ⟨ctx, bed, hinv⟩ := hsafe
  refine ⟨fun p => hinv.waits id, hinv.beds.nodup, fun p wl wl' hin hin' hwl hwl' => ?_,
    fun p wl hin hwl => (hinv.listed hin hwl).2⟩
  exact Bed.list.inj (some.inj
    ((hinv.listed hin hwl).1.symm.trans (hinv.listed hin' hwl').1))

/-- The process of `user_init` sleeps, on no hart. -/
theorem none_lost_asleep : asleep.stateIs INIT_PROC .block ∧ (asleep.queue sleepQueue).Nodup ∧
    ((∃ wl, INIT_PROC ∈ asleep.queue wl) ∨ (∃ x, Stmt.wake INIT_PROC ∈ (asleep.regs x).code) ∨
      ∃ pr, asleep.pcbtable INIT_PROC = some pr ∧ pr.w4child = true) := by
  have hst : (asleep.pcbtable INIT_PROC).map Proc.state = some .block := by decide +kernel
  have hblock : asleep.stateIs INIT_PROC .block := Option.map_eq_some_iff.mp hst
  have hcode : (asleep.regs 0).code.head? = some (.idle 0) := by decide +kernel
  have hcpu : (asleep.lock (.pcb INIT_PROC)).cpu = some 0 := by decide +kernel
  obtain ⟨-, -, hrunning, -, hmine⟩ := one_hart asleep_reaches.anyInput
  have hoff : ∀ x, ¬ Executes asleep x INIT_PROC := by
    intro x hexec
    by_cases hx : x = 0
    · -- the first hart is just behind the `switch_to` of its scheduler
      subst hx
      obtain ⟨k, hk⟩ := List.head?_eq_some_iff.mp hcode
      exact hexec.2.2 k hk
    · -- another one would run it in `TASK_RUNNING`, as the first has its lock
      have hno : asleep.holding x (.pcb INIT_PROC) = false := by
        rw [State.holding, hmine, hcpu, decide_eq_false fun heq => hx (some.inj heq).symm,
          Bool.and_false]
      obtain ⟨pr, hpr, hrun⟩ := hrunning x INIT_PROC hexec hno
      obtain ⟨pr', hpr', hblocked⟩ := hblock
      cases hpr.symm.trans hpr'
      cases hrun.symm.trans hblocked
  obtain ⟨hwaits, hnodup, -, -⟩ := none_lost asleep_reaches
  exact ⟨hblock, hnodup sleepQueue, hwaits INIT_PROC hblock hoff⟩

end Uniks.Sched
