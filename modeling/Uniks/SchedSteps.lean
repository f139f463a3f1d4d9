/-
  Every statement keeps the invariant, and none fails (`Inv.exec`).

  A statement changes what is known of its own hart and of the locks, the processes and the beds
  that it stores into; the rest carries over (`Inv.put`).
-/
import Uniks.SchedInv

namespace Uniks.Sched

open Function (update update_self update_of_ne update_eq_self)

variable {s s' : State} {ctx : Hart → Ctx} {bed bed' : Pid → Option Bed} {Γ Γ' : Ctx} {lk : Lock}
  {p q : Pid} {i : Pid} {wl : WaitList} {k : List Stmt} {st : Stmt} {x y : Hart} {c : Cpu}
  {r : Regs} {m : Me} {pr : Proc} {b : Option Bed} {lost : Pid → Prop}

structure Inv (lost : Pid → Prop) (s : State) (ctx : Hart → Ctx) (bed : Pid → Option Bed) :
    Prop where
  harts : ∀ h, HartOk h (s.cpus h) (s.regs h) (ctx h)
  locks : LocksOk s.lock (fun h => (ctx h).held) fun h => (ctx h).half
  procs : ProcsOk lost s.pcbtable (fun h => (ctx h).me) bed
  beds : BedsOk s.queue (fun h => (ctx h).task) bed

/-- There are contexts and beds that fit the state.  The `lost` are the processes that a kill may
    have taken out of the sleep queue. -/
def Safe (lost : Pid → Prop) (s : State) : Prop := ∃ ctx bed, Inv lost s ctx bed

theorem Inv.safe (h : Inv lost s ctx bed) : Safe lost s := ⟨ctx, bed, h⟩

theorem field_update {β : Type} (f : Ctx → β) (ctx : Hart → Ctx) (x : Hart) (Γ : Ctx) :
    (fun h => f (update ctx x Γ h)) = update (fun h => f (ctx h)) x (f Γ) :=
  Function.comp_update f ctx x Γ

theorem field_same {β : Type} {f : Ctx → β} (h : f Γ = f (ctx x)) :
    update (fun y => f (ctx y)) x (f Γ) = fun y => f (ctx y) := by
  rw [h]
  exact update_eq_self x fun y => f (ctx y)

/-- What one hart does, from its parts. -/
theorem Inv.put (h : Inv lost s ctx bed) (hcpus : s'.cpus = update s.cpus x c)
    (hregs : s'.regs = update s.regs x r) (hhart : HartOk x c r Γ)
    (hlocks : LocksOk s'.lock (update (fun h => (ctx h).held) x Γ.held)
      (update (fun h => (ctx h).half) x Γ.half))
    (hprocs : ProcsOk lost s'.pcbtable (update (fun h => (ctx h).me) x Γ.me) bed')
    (hbeds : BedsOk s'.queue (update (fun h => (ctx h).task) x Γ.task) bed') :
    Inv lost s' (update ctx x Γ) bed' := by
  refine ⟨fun y => ?_, ?_, ?_, ?_⟩
  · rw [hcpus, hregs]
    by_cases hyx : y = x
    · rw [hyx, update_self, update_self, update_self]
      exact hhart
    · rw [update_of_ne hyx, update_of_ne hyx, update_of_ne hyx]
      exact h.harts y
  · rw [field_update, field_update]
    exact hlocks
  · rw [field_update]
    exact hprocs
  · rw [field_update]
    exact hbeds

theorem Inv.locksSame (h : Inv lost s ctx bed) (hheld : Γ.held = (ctx x).held)
    (hhalf : Γ.half = (ctx x).half) :
    LocksOk s.lock (update (fun h => (ctx h).held) x Γ.held)
      (update (fun h => (ctx h).half) x Γ.half) := by
  rw [field_same (f := Ctx.held) hheld, field_same (f := Ctx.half) hhalf]
  exact h.locks

theorem Inv.procsSame (h : Inv lost s ctx bed) (hme : Γ.me = (ctx x).me) :
    ProcsOk lost s.pcbtable (update (fun h => (ctx h).me) x Γ.me) bed := by
  rw [field_same (f := Ctx.me) hme]
  exact h.procs

theorem Inv.bedsSame (h : Inv lost s ctx bed) (htask : Γ.task = (ctx x).task) :
    BedsOk s.queue (update (fun h => (ctx h).task) x Γ.task) bed := by
  rw [field_same (f := Ctx.task) htask]
  exact h.beds

/-- Only the registers of the hart and its entry in `cpus` change. -/
theorem Inv.alone (h : Inv lost s ctx bed) (hhart : HartOk x c r Γ) (hheld : Γ.held = (ctx x).held)
    (hhalf : Γ.half = (ctx x).half) (hme : Γ.me = (ctx x).me) (htask : Γ.task = (ctx x).task) :
    Inv lost { s with cpus := update s.cpus x c, regs := update s.regs x r }
      (update ctx x Γ) bed :=
  h.put rfl rfl hhart (h.locksSame hheld hhalf) (h.procsSame hme) (h.bedsSame htask)

theorem Inv.mycpu (h : Inv lost s ctx bed) (x : Hart) : s.mycpu x = x := (h.harts x).scratch

theorem Inv.cpu (h : Inv lost s ctx bed) (x : Hart) : s.cpu x = s.cpus x :=
  congrArg s.cpus (h.mycpu x)

theorem Inv.holding (h : Inv lost s ctx bed) (x : Hart) (lk : Lock) :
    s.holding x lk = true ↔ lk ∈ (ctx x).held := by
  rw [State.holding, h.mycpu, Bool.and_eq_true, decide_eq_true_iff]
  constructor
  · exact fun hboth => (h.locks.holds x lk).mpr hboth.2
  · exact fun hin => ⟨h.locks.locked x lk hin, (h.locks.holds x lk).mp hin⟩

theorem Inv.setCpu (h : Inv lost s ctx bed) (x : Hart) (c : Cpu) :
    s.setCpu x c = { s with cpus := update s.cpus x c } := by
  rw [State.setCpu, h.mycpu]

theorem cpus_same (s : State) (x : Hart) : s.cpus = update s.cpus x (s.cpus x) :=
  (update_eq_self x s.cpus).symm

/-- A hart that goes on, after a statement that stores into nothing of the others'. -/
theorem Inv.goto (h : Inv lost s ctx bed) (hproc : (s.cpus x).proc = (ctx x).me.who.pid)
    (hk : Fits (ctx x) k) : Safe lost (s.goto x k) := by
  have hhart := (h.harts x).change hproc (h.harts x).good hk rfl rfl rfl
  refine Inv.safe (h.put (cpus_same s x) rfl hhart (h.locksSame rfl rfl) (h.procsSame rfl)
    (h.bedsSame rfl))

/-! ## Processes that a hart has locked -/

/-- A process whose lock another hart holds is not in the middle of anything. -/
theorem Inv.plain (h : Inv lost s ctx bed) (hin : Lock.pcb p ∈ (ctx x).held)
    (hne : (ctx x).me.who ≠ .proc p) (hy : (ctx y).me.who = .proc p) : (ctx y).me.Plain := by
  refine (h.harts y).good.own ?_
  rintro ⟨q, hq, hlocked⟩
  obtain rfl : p = q := Who.proc.inj (hy.symm.trans hq)
  obtain rfl : x = y := h.locks.apart hin hlocked
  exact hne hy

theorem Inv.atRest (h : Inv lost s ctx bed) (hin : Lock.pcb p ∈ (ctx x).held)
    (hne : (ctx x).me.who ≠ .proc p) (hpr : s.pcbtable p = some pr) (hst : pr.state ≠ .running) :
    (∀ y, (ctx y).me.who ≠ .proc p) ∧ AtRest lost p pr (bed p) := by
  have hrest : ∀ y, (ctx y).me.who ≠ .proc p := by
    intro y hy
    obtain ⟨pr', hpr', hruns⟩ := h.procs.runs y p hy
    cases hpr.symm.trans hpr'
    exact hst (hruns.state.trans (h.plain hin hne hy).st)
  exact ⟨hrest, h.procs.rests p pr hpr hrest⟩

/-- A process in a bed whose lock another hart holds is in `TASK_BLOCK`. -/
theorem Inv.asleep (h : Inv lost s ctx bed) (hin : Lock.pcb p ∈ (ctx x).held)
    (hne : (ctx x).me.who ≠ .proc p) (hbed : bed p ≠ none) :
    ∃ pr, s.pcbtable p = some pr ∧ pr.state = .block ∧ (∀ y, (ctx y).me.who ≠ .proc p) ∧
      AtRest lost p pr (bed p) := by
  have hsome : (bed p).isSome = true := Option.isSome_iff_ne_none.mpr hbed
  obtain ⟨pr, hpr⟩ : ∃ pr, s.pcbtable p = some pr := by
    cases htbl : s.pcbtable p with
    | none => exact absurd (h.procs.absent p htbl) hbed
    | some pr => exact ⟨pr, rfl⟩
  have hrest : ∀ y, (ctx y).me.who ≠ .proc p := by
    intro y hy
    obtain ⟨pr', -, hruns⟩ := h.procs.runs y p hy
    have hparked := hruns.parked.symm.trans hsome
    rw [(h.plain hin hne hy).parked] at hparked
    cases hparked
  have hat := h.procs.rests p pr hpr hrest
  exact ⟨pr, hpr, hat.block hsome, hrest, hat⟩

/-- What goes on in the sleep queue goes on under its lock. -/
theorem Inv.sleepTask (h : Inv lost s ctx bed) (hin : Lock.sleep ∈ (ctx x).held)
    (hnone : (ctx y).task ≠ .none) (hhand : ∀ p, (ctx y).task ≠ .hand p) : y = x :=
  h.locks.apart ((h.harts y).good.sleep hnone hhand) hin

theorem Inv.noWoken (h : Inv lost s ctx bed) (hin : Lock.sleep ∈ (ctx x).held)
    (htask : (ctx x).task = .none) (y : Hart) : (ctx y).task ≠ .woken p := by
  intro hy
  have hyx : y = x := h.sleepTask hin (fun heq => nomatch heq.symm.trans hy)
    fun q heq => nomatch heq.symm.trans hy
  rw [hyx, htask] at hy
  cases hy

/-! ## Locks and interrupts -/

section

variable (h : Inv lost s ctx bed) (hproc : (s.cpus x).proc = (ctx x).me.who.pid)
include h hproc

theorem Inv.pushOff (hk : Fits { ctx x with extra := (ctx x).extra + 1 } k) :
    ∃ s', exec s x k .pushOff = some s' ∧ Safe lost s' := by
  refine ⟨_, rfl, ?_⟩
  rw [h.setCpu, h.cpu]
  exact (h.alone ((h.harts x).pushOff hproc hk) rfl rfl rfl rfl).safe

theorem Inv.popOff (hpos : 0 < (ctx x).extra)
    (hcalm : (ctx x).held = [] → (ctx x).extra = 1 → (ctx x).Calm)
    (hk : Fits { ctx x with extra := (ctx x).extra - 1 } k) :
    ∃ s', exec s x k .popOff = some s' ∧ Safe lost s' := by
  obtain ⟨hcond, hhart⟩ := (h.harts x).popOff hproc hpos hcalm hk
  rw [← h.cpu x] at hcond hhart
  refine ⟨_, if_pos hcond, ?_⟩
  rw [h.setCpu]
  exact (h.alone hhart rfl rfl rfl rfl).safe

theorem Inv.testAndSet (hn : (ctx x).Next (.testAndSet lk) { ctx x with half := some lk })
    (hk : Fits { ctx x with half := some lk } k) :
    ∃ s', exec s x k (.testAndSet lk) = some s' ∧ Safe lost s' := by
  cases hlocked : (s.lock lk).locked with
  | true => exact ⟨s, if_pos hlocked, h.safe⟩
  | false =>
    have hno : ¬ (s.lock lk).locked = true := by
      rw [hlocked]
      exact nofun
    have hhart := (h.harts x).change hproc (hn.good (h.harts x).good) hk hn.who rfl rfl
    refine ⟨_, if_neg hno, Inv.safe (h.put (cpus_same s x) rfl hhart ?_ (h.procsSame rfl)
      (h.bedsSame rfl))⟩
    rw [field_same (f := Ctx.held) rfl]
    exact h.locks.take hlocked

theorem Inv.takeCpu (hpos : 0 < (ctx x).extra) (hhalf : (ctx x).half = some lk)
    (hk : Fits { ctx x with
      half := none, held := lk :: (ctx x).held, extra := (ctx x).extra - 1 } k) :
    ∃ s', exec s x k (.setCpu lk) = some s' ∧ Safe lost s' := by
  have hn := Ctx.Next.setCpu hpos hhalf
  have hcount : (lk :: (ctx x).held).length + ((ctx x).extra - 1) =
      (ctx x).held.length + (ctx x).extra := by
    rw [List.length_cons]
    omega
  have hhart := (h.harts x).change hproc (hn.good (h.harts x).good) hk hn.who hcount rfl
  refine ⟨_, rfl, Inv.safe (h.put (cpus_same s x) rfl hhart ?_ (h.procsSame rfl)
    (h.bedsSame rfl))⟩
  show LocksOk (update s.lock lk { s.lock lk with cpu := some (s.mycpu x) }) _ _
  rw [h.mycpu]
  exact h.locks.own hhalf

theorem Inv.clearCpu (hin : lk ∈ (ctx x).held)
    (hn : (ctx x).Next (.clearCpu lk) { ctx x with
      half := some lk, held := (ctx x).held.erase lk, extra := (ctx x).extra + 1 })
    (hk : Fits { ctx x with
      half := some lk, held := (ctx x).held.erase lk, extra := (ctx x).extra + 1 } k) :
    ∃ s', exec s x k (.clearCpu lk) = some s' ∧ Safe lost s' := by
  have hcount : ((ctx x).held.erase lk).length + ((ctx x).extra + 1) =
      (ctx x).held.length + (ctx x).extra := by
    have hpos := List.length_pos_of_mem hin
    rw [List.length_erase_of_mem hin]
    omega
  have hhart := (h.harts x).change hproc (hn.good (h.harts x).good) hk hn.who hcount rfl
  exact ⟨_, rfl, Inv.safe (h.put (cpus_same s x) rfl hhart (h.locks.disown hin)
    (h.procsSame rfl) (h.bedsSame rfl))⟩

theorem Inv.unlock (hhalf : (ctx x).half = some lk) (hk : Fits { ctx x with half := none } k) :
    ∃ s', exec s x k (.unlock lk) = some s' ∧ Safe lost s' := by
  have hn := Ctx.Next.unlock hhalf
  have hhart := (h.harts x).change hproc (hn.good (h.harts x).good) hk hn.who rfl rfl
  refine ⟨_, rfl, Inv.safe (h.put (cpus_same s x) rfl hhart ?_ (h.procsSame rfl)
    (h.bedsSame rfl))⟩
  rw [field_same (f := Ctx.held) rfl]
  exact h.locks.give hhalf

theorem Inv.setSie (hbare : (ctx x).Bare) {b : Bool} (hk : Fits { ctx x with ie := b } k) :
    Safe lost (s.setRegs x { s.regs x with sie := b, code := k }) :=
  Inv.safe (h.put (cpus_same s x) rfl ((h.harts x).setSie hproc hbare hk) (h.locksSame rfl rfl)
    (h.procsSame rfl) (h.bedsSame rfl))

theorem Inv.setPreintstat (hheld : (ctx x).held ≠ []) {b : Bool}
    (hk : Fits { ctx x with ie := b } k) :
    ∃ s', exec s x k (.setPreintstat b) = some s' ∧ Safe lost s' := by
  refine ⟨_, rfl, ?_⟩
  rw [h.setCpu, h.cpu]
  exact (h.alone ((h.harts x).setPreintstat hproc hheld hk) rfl rfl rfl rfl).safe

end

/-! ## The running process -/

theorem Runs.setState (h : Runs x m pr b) {st : ProcState} (hst : st ≠ .unused) :
    Runs x { m with st := st } { pr with state := st } b :=
  ⟨rfl, h.w4child, h.host, h.parked, h.child, hst⟩

theorem Inv.bedNone (h : Inv lost s ctx bed) (hwho : (ctx x).me.who = .proc p)
    (hparked : (ctx x).me.parked = false) : bed p = none := by
  obtain ⟨pr, -, hruns⟩ := h.procs.runs x p hwho
  exact Option.isNone_iff_eq_none.mp (Option.isSome_eq_false_iff.mp (hruns.parked.trans hparked))

/-- The running process changes its own entry. -/
theorem Inv.ownEntry (h : Inv lost s ctx bed) (hproc : (s.cpus x).proc = (ctx x).me.who.pid) (m : Me)
    (pr : Proc) (b : Option Bed) (hwho : (ctx x).me.who = .proc p)
    (hin : Lock.pcb p ∈ (ctx x).held) (hm : m.who = .proc p) (hruns : Runs x m pr b)
    (hbeds : BedsOk s.queue (fun y => (ctx y).task) (update bed p b))
    (hk : Fits { ctx x with me := m } k) : Safe lost ((s.setProc p pr).goto x k) := by
  have hgood := (h.harts x).good.locked hin hm
  have hhart := (h.harts x).change hproc hgood hk (hm.trans hwho.symm) rfl rfl
  refine Inv.safe (h.put (cpus_same s x) rfl hhart (h.locksSame rfl rfl)
    (h.procs.own hwho hm hruns) ?_)
  rw [field_same (f := Ctx.task) rfl]
  exact hbeds

section

variable (h : Inv lost s ctx bed) (hproc : (s.cpus x).proc = (ctx x).me.who.pid)
  (hwho : (ctx x).me.who = .proc p) (hin : Lock.pcb p ∈ (ctx x).held)
include h hproc hwho hin

theorem Inv.setState {st : ProcState} (hst : st ≠ .unused)
    (hk : Fits { ctx x with me := { (ctx x).me with st := st } } k) :
    ∃ s', exec s x k (.setState p st) = some s' ∧ Safe lost s' := by
  obtain ⟨pr, hpr, hruns⟩ := h.procs.runs x p hwho
  have hexec : exec s x k (.setState p st) =
      some ((s.setProc p { pr with state := st }).goto x k) := by
    rw [exec, hpr]
    rfl
  refine ⟨_, hexec, h.ownEntry hproc { (ctx x).me with st := st } { pr with state := st } (bed p)
    hwho hin hwho (hruns.setState hst) ?_ hk⟩
  rw [update_eq_self]
  exact h.beds

theorem Inv.awaitChild (hplain : (ctx x).me.Plain)
    (hk : Fits { ctx x with me := { (ctx x).me with w4child := true, parked := true } } k) :
    ∃ s', exec s x k (.setW4child p true) = some s' ∧ Safe lost s' := by
  obtain ⟨pr, hpr, hruns⟩ := h.procs.runs x p hwho
  have hexec : exec s x k (.setW4child p true) =
      some ((s.setProc p { pr with w4child := true }).goto x k) := by
    rw [exec, hpr]
    rfl
  have hnone := h.bedNone hwho hplain.parked
  refine ⟨_, hexec, h.ownEntry hproc { (ctx x).me with w4child := true, parked := true }
    { pr with w4child := true } (some .child) hwho hin hwho ?_
    (h.beds.child (fun b hb => h.beds.nowhere hnone hb) (.inr rfl)) hk⟩
  exact ⟨hruns.state, rfl, hruns.host, rfl, ⟨fun _ => ⟨rfl, rfl⟩, fun _ => rfl⟩, hruns.used⟩

theorem Inv.childCame (hparked : (ctx x).me.parked = false)
    (hk : Fits { ctx x with me := { (ctx x).me with w4child := false } } k) :
    ∃ s', exec s x k (.setW4child p false) = some s' ∧ Safe lost s' := by
  obtain ⟨pr, hpr, hruns⟩ := h.procs.runs x p hwho
  have hexec : exec s x k (.setW4child p false) =
      some ((s.setProc p { pr with w4child := false }).goto x k) := by
    rw [exec, hpr]
    rfl
  have hnone := h.bedNone hwho hparked
  refine ⟨_, hexec, h.ownEntry hproc { (ctx x).me with w4child := false }
    { pr with w4child := false } (bed p) hwho hin hwho ?_ ?_ hk⟩
  · refine ⟨hruns.state, rfl, hruns.host, hruns.parked, ?_, hruns.used⟩
    rw [hnone]
    exact ⟨nofun, fun hm => nomatch hm.2⟩
  · rw [update_eq_self]
    exact h.beds

theorem Inv.enqueue (hlk : wl.lk ∈ (ctx x).held) (hplain : (ctx x).me.Plain)
    (htask : (ctx x).task = .none)
    (hk : Fits { ctx x with me := { (ctx x).me with parked := true } } k) :
    ∃ s', exec s x k (.enqueue p wl) = some s' ∧ Safe lost s' := by
  obtain ⟨pr, hpr, hruns⟩ := h.procs.runs x p hwho
  have hwoken : wl = sleepQueue → ∀ y, (ctx y).task ≠ .woken p := by
    rintro rfl
    exact h.noWoken hlk htask
  have hgood : Ctx.Good { ctx x with me := { (ctx x).me with parked := true } } :=
    (h.harts x).good.locked hin hwho
  have hhart := (h.harts x).change hproc hgood hk rfl rfl rfl
  have hnew : Runs x { (ctx x).me with parked := true } pr (some (.list wl)) := by
    refine ⟨hruns.state, hruns.w4child, hruns.host, rfl, ⟨nofun, fun hm => ?_⟩,
      hruns.used⟩
    exact nomatch hplain.w4child.symm.trans hm.2
  have hown := h.procs.own (m := { (ctx x).me with parked := true }) hwho hwho hnew
  rw [← hpr, update_eq_self] at hown
  refine ⟨_, rfl, Inv.safe (h.put (cpus_same s x) rfl hhart (h.locksSame rfl rfl) hown ?_)⟩
  rw [field_same (f := Ctx.task) rfl]
  exact h.beds.enqueue (h.bedNone hwho hplain.parked) hwoken

end

/-! ## Waking others -/

/-- A process that does not run becomes ready. -/
theorem AtRest.ready (h : AtRest lost p pr b) (hne : pr.state ≠ .zombie) :
    AtRest lost p { pr with state := .ready } none :=
  ⟨nofun, .inr (h.fits.resolve_left hne), fun _ => .inr rfl, nofun, nofun,
    ⟨nofun, fun hboth => nomatch hboth.1⟩⟩

theorem Inv.real (h : Inv lost s ctx bed) (hpr : s.pcbtable p = some pr) : FIRST_PROC ≠ p := by
  rintro rfl
  exact nomatch h.procs.first.symm.trans hpr

/-- The process of the hart is none that somebody else is, or that is at rest. -/
theorem Inv.notCurrent (h : Inv lost s ctx bed) (hproc : (s.cpus x).proc = (ctx x).me.who.pid)
    (hpr : s.pcbtable p = some pr) (hne : (ctx x).me.who ≠ .proc p) : p ≠ (s.cpu x).proc := by
  rw [h.cpu, hproc]
  intro heq
  cases hwho : (ctx x).me.who with
  | idle c =>
    rw [hwho] at heq
    exact h.real hpr heq.symm
  | proc q =>
    rw [hwho] at heq
    obtain rfl : p = q := heq
    exact hne hwho

/-- `p->state = TASK_READY` for a process that waits. -/
theorem Inv.wake (h : Inv lost s ctx bed) (hproc : (s.cpus x).proc = (ctx x).me.who.pid)
    (hin : Lock.pcb p ∈ (ctx x).held) (hne : (ctx x).me.who ≠ .proc p) (hbed : bed p ≠ none)
    {t : Task} (hn : (ctx x).Next (.wake p) { ctx x with task := t })
    (hbeds : BedsOk s.queue (update (fun y => (ctx y).task) x t)
      (update bed p none))
    (hk : Fits { ctx x with task := t } k) : ∃ s', exec s x k (.wake p) = some s' ∧ Safe lost s' := by
  obtain ⟨pr, hpr, hst, hrest, hat⟩ := h.asleep hin hne hbed
  have hexec : exec s x k (.wake p) =
      some ((s.setProc p { pr with state := .ready }).goto x k) := by
    rw [exec, hpr]
    exact if_pos ⟨hst, h.notCurrent hproc hpr hne⟩
  have hready := hat.ready fun heq => nomatch hst.symm.trans heq
  have hgood : Ctx.Good { ctx x with task := t } := hn.good (h.harts x).good
  have hhart := (h.harts x).change hproc hgood hk rfl rfl rfl
  refine ⟨_, hexec, Inv.safe (h.put (cpus_same s x) rfl hhart (h.locksSame rfl rfl) ?_ hbeds)⟩
  rw [field_same (f := Ctx.me) rfl]
  exact h.procs.other (h.real hpr) hrest hready

theorem Inv.wakeHand (h : Inv lost s ctx bed) (hproc : (s.cpus x).proc = (ctx x).me.who.pid)
    (htask : (ctx x).task = .hand p) (hin : Lock.pcb p ∈ (ctx x).held)
    (hne : (ctx x).me.who ≠ .proc p) (hk : Fits { ctx x with task := .none } k) :
    ∃ s', exec s x k (.wake p) = some s' ∧ Safe lost s' := by
  have hbed : bed p = some (.hand x) := (h.beds.lies p (.hand x) nofun).mpr htask
  refine h.wake hproc hin hne ?_ (.wakeHand htask hin hne) (h.beds.wakeHand htask) hk
  rw [hbed]
  exact nofun

theorem Inv.wakeDue (h : Inv lost s ctx bed) (hproc : (s.cpus x).proc = (ctx x).me.who.pid)
    (htask : (ctx x).task = .due p) (hin : Lock.pcb p ∈ (ctx x).held)
    (hne : (ctx x).me.who ≠ .proc p) (hsleep : Lock.sleep ∈ (ctx x).held)
    (hk : Fits { ctx x with task := .woken p } k) :
    ∃ s', exec s x k (.wake p) = some s' ∧ Safe lost s' := by
  have hbed := h.beds.due x p htask
  have hone : ∀ y, (ctx y).task = .due p → y = x := fun y hy =>
    h.sleepTask hsleep (fun heq => nomatch heq.symm.trans hy) fun q heq => nomatch heq.symm.trans hy
  refine h.wake hproc hin hne ?_ (.wakeDue htask hin hne hsleep) (h.beds.wakeDue htask hone) hk
  rw [hbed]
  exact nofun

/-- A process that lies in a bed is not the one that is about to run on. -/
theorem Inv.notSelf (h : Inv lost s ctx bed) (hparked : (ctx x).me.parked = false)
    (hbed : bed p ≠ none) : (ctx x).me.who ≠ .proc p :=
  fun hwho => hbed (h.bedNone hwho hparked)

/-- Nor does the hart hold its lock, as it would have to be its own. -/
theorem Inv.notLocked (h : Inv lost s ctx bed) (hown : (ctx x).OwnPcbs)
    (hparked : (ctx x).me.parked = false) (hbed : bed p ≠ none) :
    Lock.pcb p ∉ (ctx x).held := by
  intro hin
  have hself := hown p hin
  cases hwho : (ctx x).me.who with
  | idle c =>
    rw [hwho] at hself
    rw [hself] at hbed
    exact hbed (h.procs.absent FIRST_PROC h.procs.first)
  | proc q =>
    rw [hwho] at hself
    obtain rfl : p = q := hself
    exact h.notSelf hparked hbed hwho

theorem Inv.unblockAll (h : Inv lost s ctx bed) (hproc : (s.cpus x).proc = (ctx x).me.who.pid)
    (hlk : wl.lk ∈ (ctx x).held) (hsleep : wl.lk ≠ .sleep) (hcalm : (ctx x).Calm)
    (hown : (ctx x).OwnPcbs) (hparked : (ctx x).me.parked = false) (hk : Fits (ctx x) k) :
    ∃ s', exec s x k (.unblockAll wl) = some s' ∧ Safe lost s' := by
  have hheld : (ctx x).held ≠ [] := List.ne_nil_of_mem hlk
  have hback : { ctx x with task := .none } = ctx x := by
    rw [← hcalm.task]
  cases hq : s.queue wl with
  | nil =>
    have hexec : exec s x k (.unblockAll wl) = some (s.goto x k) := by
      rw [exec, hq]
    exact ⟨_, hexec, h.goto hproc hk⟩
  | cons p rest =>
    have hexec : exec s x k (.unblockAll wl) =
        some ((s.setQueue wl rest).goto x (wakeUp p ++ .unblockAll wl :: k)) := by
      rw [exec, hq]
    have hwl : wl ≠ sleepQueue := by
      rintro rfl
      exact hsleep rfl
    obtain ⟨hbed, hbeds⟩ := h.beds.pop hwl hq hcalm.task
    have hsome : bed p ≠ none := by
      rw [hbed]
      exact nofun
    have hne := h.notSelf hparked hsome
    have hfits : Fits { ctx x with task := .hand p } (wakeUp p ++ .unblockAll wl :: k) := by
      have hwake : Ctx.Next { ctx x with held := .pcb p :: (ctx x).held, task := .hand p }
          (.wake p) { ctx x with held := .pcb p :: (ctx x).held, task := .none } :=
        .wakeHand rfl List.mem_cons_self hne
      refine fits_wakeUp (h.notLocked hown hparked hsome) hne hcalm.half hwake hheld ?_
      show Fits { ctx x with task := .none } _
      rw [hback]
      exact .cons (.unblockAll hlk hsleep hcalm hown hparked) hk
    have hgood : Ctx.Good { ctx x with task := .hand p } :=
      ⟨(h.harts x).good.own, fun hempty _ => absurd hempty hheld,
        fun _ hno => absurd rfl (hno p)⟩
    have hhart := (h.harts x).change hproc hgood hfits rfl rfl rfl
    refine ⟨_, hexec, Inv.safe (h.put (cpus_same s x) rfl hhart (h.locksSame rfl rfl) ?_ hbeds)⟩
    rw [field_same (f := Ctx.me) rfl]
    exact h.procs.rebed hbed nofun nofun

/-- Where nothing goes on in the sleep queue, who is in it sleeps. -/
theorem Inv.sleeps (h : Inv lost s ctx bed) (hsleep : Lock.sleep ∈ (ctx x).held)
    (hcalm : (ctx x).Calm) (hin : p ∈ s.queue sleepQueue) :
    bed p = some (.list sleepQueue) := by
  refine (h.beds.lies p (.list sleepQueue) nofun).mpr ⟨hin, ?_⟩
  exact fun ⟨_, y, hy⟩ => h.noWoken hsleep hcalm.task y hy

/-- `time_wakeup` finds an entry that is due. -/
theorem Inv.due (h : Inv lost s ctx bed) (hproc : (s.cpus x).proc = (ctx x).me.who.pid)
    (hsleep : Lock.sleep ∈ (ctx x).held) (hcalm : (ctx x).Calm) (hown : (ctx x).OwnPcbs)
    (hparked : (ctx x).me.parked = false) (hin : p ∈ s.queue sleepQueue) (hk : Fits (ctx x) k) :
    Safe lost (s.goto x (wakeUp p ++ .pqPop p :: k)) := by
  have hheld : (ctx x).held ≠ [] := List.ne_nil_of_mem hsleep
  have hback : { ctx x with task := .none } = ctx x := by
    rw [← hcalm.task]
  have hbed := h.sleeps hsleep hcalm hin
  have hsome : bed p ≠ none := by
    rw [hbed]
    exact nofun
  have hne := h.notSelf hparked hsome
  have hfits : Fits { ctx x with task := .due p } (wakeUp p ++ .pqPop p :: k) := by
    have hwake : Ctx.Next { ctx x with held := .pcb p :: (ctx x).held, task := .due p }
        (.wake p) { ctx x with held := .pcb p :: (ctx x).held, task := .woken p } :=
      .wakeDue rfl List.mem_cons_self hne (List.mem_cons_of_mem _ hsleep)
    refine fits_wakeUp (h.notLocked hown hparked hsome) hne hcalm.half hwake hheld ?_
    refine .cons (.pqPop rfl hsleep) ?_
    show Fits { ctx x with task := .none } _
    rw [hback]
    exact hk
  have hgood : Ctx.Good { ctx x with task := .due p } :=
    ⟨(h.harts x).good.own, fun hempty _ => absurd hempty hheld, fun _ _ => hsleep⟩
  have hhart := (h.harts x).change hproc hgood hfits rfl rfl rfl
  exact Inv.safe (h.put (cpus_same s x) rfl hhart (h.locksSame rfl rfl) (h.procsSame rfl)
    (h.beds.takeDue hcalm.task hbed))

theorem Inv.pqPop (h : Inv lost s ctx bed) (hproc : (s.cpus x).proc = (ctx x).me.who.pid)
    (htask : (ctx x).task = .woken p) (hsleep : Lock.sleep ∈ (ctx x).held)
    (hk : Fits { ctx x with task := .none } k) :
    ∃ s', exec s x k (.pqPop p) = some s' ∧ Safe lost s' := by
  have hgood := (Ctx.Next.pqPop htask hsleep).good (h.harts x).good
  have hhart := (h.harts x).change hproc hgood hk rfl rfl rfl
  exact ⟨_, rfl, Inv.safe (h.put (cpus_same s x) rfl hhart (h.locksSame rfl rfl) (h.procsSame rfl)
    (h.beds.pqPop htask))⟩

/-- `priority_queue_pop_v` finds the entry that `sys_kill` is after: its process is in `TASK_BLOCK`
    and on no list any more. -/
theorem Inv.popped (h : Inv lost s ctx bed) (hproc : (s.cpus x).proc = (ctx x).me.who.pid)
    (hsleep : Lock.sleep ∈ (ctx x).held) (hlocked : Lock.pcb p ∈ (ctx x).held)
    (hcalm : (ctx x).Calm) (hparked : (ctx x).me.parked = false) (hin : p ∈ s.queue sleepQueue)
    (hlost : lost p) (hk : Fits (ctx x) k) :
    Safe lost ((s.setQueue sleepQueue ((s.queue sleepQueue).erase p)).goto x k) := by
  have hbed := h.sleeps hsleep hcalm hin
  have hsome : bed p ≠ none := by
    rw [hbed]
    exact nofun
  have hdue : ∀ y, (ctx y).task ≠ .due p := by
    intro y hy
    have hyx : y = x := h.sleepTask hsleep (fun heq => nomatch heq.symm.trans hy)
      fun q heq => nomatch heq.symm.trans hy
    rw [hyx, hcalm.task] at hy
    cases hy
  obtain ⟨-, -, -, hrest, -⟩ := h.asleep hlocked (h.notSelf hparked hsome) hsome
  have hhart := (h.harts x).change hproc (h.harts x).good hk rfl rfl rfl
  have hprocs := h.procs.unbed hbed nofun hrest hlost
  rw [← field_same (f := Ctx.me) (Γ := ctx x) (x := x) rfl] at hprocs
  refine Inv.safe (h.put (cpus_same s x) rfl hhart (h.locksSame rfl rfl) hprocs ?_)
  rw [field_same (f := Ctx.task) rfl]
  exact h.beds.popped hbed hdue

/-- The caller of `sys_kill` runs: its state is left alone. -/
theorem Inv.unblockSelf (h : Inv lost s ctx bed) (hproc : (s.cpus x).proc = (ctx x).me.who.pid)
    (hwho : (ctx x).me.who = .proc p) (hplain : (ctx x).me.Plain) (hk : Fits (ctx x) k) :
    ∃ s', exec s x k (.unblockSelf p) = some s' ∧ Safe lost s' := by
  obtain ⟨pr, hpr, hruns⟩ := h.procs.runs x p hwho
  have hno : ¬ pr.state = .block := by
    rw [hruns.state, hplain.st]
    exact nofun
  have hexec : exec s x k (.unblockSelf p) = some (s.goto x k) := by
    rw [exec, hpr]
    show some ((if pr.state = .block then _ else s).goto x k) = _
    rw [if_neg hno]
  exact ⟨_, hexec, h.goto hproc hk⟩

/-! ## Giving up the hart, and the scheduler -/

theorem idleCtx_good (x : Hart) (l : List Lock) : (idleCtx x l).Good :=
  ⟨fun _ => ⟨rfl, rfl, rfl⟩, fun _ _ => ⟨rfl, rfl⟩, fun hno => absurd rfl hno⟩

theorem startCtx_good (p : Pid) (w4child : Bool) : (startCtx p w4child).Good :=
  ⟨fun hno => absurd ⟨p, rfl, List.mem_cons_self⟩ hno, nofun, fun hno => absurd rfl hno⟩

theorem Me.Leaves.notRunning (h : m.Leaves) : m.st ≠ .running := by
  rcases h with ⟨hst, -, -⟩ | ⟨hst, -⟩ | ⟨hst, -, -⟩ <;> simp [hst]

theorem Me.Leaves.block (h : m.Leaves) : m.parked = true ↔ m.st = .block := by
  rcases h with ⟨hst, -, hparked⟩ | ⟨hst, hparked⟩ | ⟨hst, -, hparked⟩ <;> simp [hst, hparked]

theorem Me.Leaves.child (h : m.Leaves) (hw : m.w4child = true) : m.st = .block := by
  rcases h with ⟨-, hno, -⟩ | ⟨hst, -⟩ | ⟨-, hno, -⟩
  · exact nomatch hno.symm.trans hw
  · exact hst
  · exact nomatch hno.symm.trans hw

/-- A process that may give up the hart is at rest then. -/
theorem Runs.atRest (h : Runs x m pr b) (hleaves : m.Leaves) {l : List Stmt}
    (hl : m.st = .zombie ∨ Fits (startCtx p m.w4child) l) :
    AtRest lost p { pr with ctxt := l } b := by
  have hblock : b.isSome = true ↔ pr.state = .block := by
    rw [h.parked, h.state]
    exact hleaves.block
  refine ⟨?_, ?_, fun hw => .inl ?_, hblock.mp, fun hst => .inl (hblock.mpr hst), ?_⟩
  · rw [h.state]
    exact hleaves.notRunning
  · rw [h.state, h.w4child]
    exact hl
  · exact h.state.trans (hleaves.child (h.w4child.symm.trans hw))
  · rw [h.child, h.state, h.w4child, hleaves.block]

/-- What `sched` comes back to is what the scheduler starts it in. -/
theorem Ctx.back_eq (hwho : Γ.me.who = .proc p) (hheld : Γ.held = [.pcb p]) (hextra : Γ.extra = 0)
    (hcalm : Γ.Calm) (hie : Γ.ie = true) (hz : Γ.me.st ≠ .zombie) :
    { Γ with me := Γ.me.back } = startCtx p Γ.me.w4child := by
  obtain ⟨held, half, extra, ie, ⟨who, st, w4child, parked⟩, task⟩ := Γ
  obtain ⟨rfl, rfl⟩ := hcalm
  obtain rfl : who = .proc p := hwho
  obtain rfl : held = [.pcb p] := hheld
  obtain rfl : extra = 0 := hextra
  obtain rfl : ie = true := hie
  rw [Me.back, if_neg hz]
  rfl

/-- `scheduler` is in nothing but its own lock. -/
theorem Ctx.idle_eq {c : Hart} (hwho : Γ.me.who = .idle c) (hplain : Γ.me.Plain)
    (hextra : Γ.extra = 0) (hcalm : Γ.Calm) (hie : Γ.ie = true) : Γ = idleCtx c Γ.held := by
  obtain ⟨held, half, extra, ie, ⟨who, st, w4child, parked⟩, task⟩ := Γ
  obtain ⟨rfl, rfl, rfl⟩ := hplain
  obtain ⟨rfl, rfl⟩ := hcalm
  obtain rfl : who = .idle c := hwho
  obtain rfl : extra = 0 := hextra
  obtain rfl : ie = true := hie
  rfl

/-- `sched`, up to where the scheduler of the hart goes on. -/
theorem Inv.sched (h : Inv lost s ctx bed) (hproc : (s.cpus x).proc = (ctx x).me.who.pid)
    (hwho : (ctx x).me.who = .proc p) (hheld : (ctx x).held = [.pcb p])
    (hextra : (ctx x).extra = 0) (hcalm : (ctx x).Calm) (hie : (ctx x).ie = true)
    (hleaves : (ctx x).me.Leaves) (hk : Fits { ctx x with me := (ctx x).me.back } k) :
    ∃ s', exec s x k .sched = some s' ∧ Safe lost s' := by
  have hhart := h.harts x
  obtain ⟨pr, hpr, hruns⟩ := h.procs.runs x p hwho
  obtain ⟨l, hctxt, hl⟩ := hhart.back p hwho
  have hp : (s.cpu x).proc = p := by
    rw [h.cpu, hproc, hwho]
    rfl
  have hcount : (s.cpus x).repeat_ = 1 := by
    rw [hhart.count, hheld, hextra]
    rfl
  obtain ⟨hsie, hpre⟩ := hhart.off (hcount.trans_ne Nat.one_ne_zero)
  rw [hie] at hpre
  have hcond : s.holding x (.pcb p) ∧ (s.cpu x).repeat_ = 1 ∧ pr.state ≠ .running ∧
      (s.regs x).sie = false := by
    refine ⟨(h.holding x _).mpr (hheld ▸ List.mem_cons_self), ?_, ?_, hsie⟩
    · rw [h.cpu, hcount]
    · rw [hruns.state]
      exact hleaves.notRunning
  have hexec : exec s x k .sched = some ((s.setProc p { pr with
      ctxt := .setPreintstat true :: k }).goto x (.idle x :: l)) := by
    rw [exec, execSched, hp, hpr]
    refine (if_pos hcond).trans ?_
    rw [h.cpu, hpre, hctxt]
    rfl
  have hfits : (ctx x).me.st = .zombie ∨
      Fits (startCtx p (ctx x).me.w4child) (.setPreintstat true :: k) := by
    by_cases hz : (ctx x).me.st = .zombie
    · exact .inl hz
    · refine .inr (.cons (.setPreintstat nofun) ?_)
      rw [Ctx.back_eq hwho hheld hextra hcalm hie hz] at hk
      exact hk
  have hidle : HartOk x (s.cpus x) { s.regs x with code := .idle x :: l } (idleCtx x [.pcb p]) := by
    refine ⟨hl, idleCtx_good x _, fun c hc => (Who.idle.inj hc).symm, hhart.scratch, hcount,
      fun _ => ⟨hsie, hpre⟩, fun hzero => ?_, fun hno => absurd rfl (hno l), nofun⟩
    exact absurd (hcount.symm.trans hzero) Nat.one_ne_zero
  refine ⟨_, hexec, Inv.safe (h.put (cpus_same s x) rfl hidle (h.locksSame hheld.symm
    hcalm.half.symm) (h.procs.leave hwho nofun (hruns.atRest hleaves hfits))
    (h.bedsSame hcalm.task.symm))⟩

theorem Inv.idleCtx_eq (h : Inv lost s ctx bed) {c : Hart} (hwho : (ctx x).me.who = .idle c)
    (hcalm : (ctx x).Calm) (hextra : (ctx x).extra = 0) (hie : (ctx x).ie = true) :
    c = x ∧ ctx x = idleCtx x (ctx x).held := by
  obtain rfl := (h.harts x).hart c hwho
  have hplain : (ctx c).me.Plain := by
    refine (h.harts c).good.own ?_
    rintro ⟨p, hp, -⟩
    exact nomatch hwho.symm.trans hp
  exact ⟨rfl, Ctx.idle_eq hwho hplain hextra hcalm hie⟩

theorem Inv.scan (h : Inv lost s ctx bed) (hproc : (s.cpus x).proc = (ctx x).me.who.pid) {c : Hart}
    (hwho : (ctx x).me.who = .idle c) (hbare : (ctx x).Bare) (hie : (ctx x).ie = true)
    (hi : 1 ≤ i) : ∃ s', exec s x k (.scan c i) = some s' ∧ Safe lost s' := by
  obtain ⟨rfl, hctx⟩ := h.idleCtx_eq hwho hbare.toCalm hbare.extra hie
  rw [hbare.held] at hctx
  refine ⟨_, rfl, h.goto hproc ?_⟩
  rw [hctx]
  by_cases hlast : i < NPROC
  · rw [if_pos hlast]
    exact fits_visit c hi
  · rw [if_neg hlast]
    exact fits_scan c (Nat.le_refl 1)

theorem Inv.pick (h : Inv lost s ctx bed) (hproc : (s.cpus x).proc = (ctx x).me.who.pid) {c : Hart}
    (hwho : (ctx x).me.who = .idle c) (hcalm : (ctx x).Calm) (hheld : (ctx x).held = [.pcb i])
    (hextra : (ctx x).extra = 0) (hie : (ctx x).ie = true) :
    ∃ s', exec s x k (.pick c i) = some s' ∧ Safe lost s' := by
  obtain ⟨rfl, hctx⟩ := h.idleCtx_eq hwho hcalm hextra hie
  rw [hheld] at hctx
  have hin : Lock.pcb i ∈ (ctx c).held := hheld ▸ List.mem_cons_self
  have hne : (ctx c).me.who ≠ .proc i := fun heq => nomatch hwho.symm.trans heq
  have hon : Fits (ctx c) (release (.pcb i) ++ [.scan c (i + 1)]) := by
    rw [hctx]
    exact fits_turn c i
  refine ⟨_, rfl, ?_⟩
  show Safe lost (execPick s c c i)
  cases hpr : s.pcbtable i with
  | none =>
    have hexec : execPick s c c i = s.goto c (release (.pcb i) ++ [.scan c (i + 1)]) := by
      rw [execPick, hpr]
    rw [hexec]
    exact h.goto hproc hon
  | some pr =>
    by_cases hst : pr.state = .ready
    · have hexec : execPick s c c i =
          (({ s with cpus := update s.cpus c { s.cpus c with
                proc := i, ctxt := .idle c :: (release (.pcb i) ++ [.scan c (i + 1)]) } } : State
            ).setProc i { pr with state := .running, host := c }).goto c pr.ctxt := by
        rw [execPick, hpr]
        exact if_pos hst
      obtain ⟨hrest, hat⟩ := h.atRest hin hne hpr fun heq => nomatch hst.symm.trans heq
      have hbed : (bed i).isSome = false := by
        rw [Bool.eq_false_iff]
        exact fun hsome => nomatch hst.symm.trans (hat.block hsome)
      have hruns : Runs c ⟨.proc i, .running, pr.w4child, false⟩
          { pr with state := .running, host := c } (bed i) := by
        refine ⟨rfl, rfl, rfl, hbed, ⟨fun heq => ?_, nofun⟩, nofun⟩
        rw [heq] at hbed
        cases hbed
      have hhart := h.harts c
      have hcount : (s.cpus c).repeat_ = 1 := by
        rw [hhart.count, hheld, hextra]
        rfl
      obtain ⟨hsie, hpre⟩ := hhart.off (hcount.trans_ne Nat.one_ne_zero)
      rw [hie] at hpre
      have hstart : HartOk c { s.cpus c with
            proc := i, ctxt := .idle c :: (release (.pcb i) ++ [.scan c (i + 1)]) }
          { s.regs c with code := pr.ctxt } (startCtx i pr.w4child) := by
        refine ⟨hat.fits.resolve_left (fun heq => nomatch hst.symm.trans heq),
          startCtx_good i pr.w4child, nofun, hhart.scratch, hcount, fun _ => ⟨hsie, hpre⟩,
          fun hzero => absurd (hcount.symm.trans hzero) Nat.one_ne_zero, fun _ => rfl, ?_⟩
        rintro q hq
        obtain rfl := Who.proc.inj hq
        exact ⟨_, rfl, fits_idle c i⟩
      rw [hexec]
      refine Inv.safe (h.put rfl rfl hstart (h.locksSame hheld.symm hcalm.half.symm)
        (h.procs.begin (h.real hpr) ?_ hrest rfl hruns) (h.bedsSame hcalm.task.symm))
      exact fun q hq => nomatch hwho.symm.trans hq
    · have hexec : execPick s c c i = s.goto c (release (.pcb i) ++ [.scan c (i + 1)]) := by
        rw [execPick, hpr]
        exact if_neg hst
      rw [hexec]
      exact h.goto hproc hon

/-- `c->proc = FIRST_PROC`. -/
theorem Inv.idle (h : Inv lost s ctx bed) {c : Hart} (hwho : (ctx x).me.who = .idle c)
    (hk : Fits (ctx x) k) : ∃ s', exec s x k (.idle c) = some s' ∧ Safe lost s' := by
  have hhart := h.harts x
  obtain rfl := hhart.hart c hwho
  have hidle : HartOk c { s.cpus c with proc := FIRST_PROC } { s.regs c with code := k }
      (ctx c) := by
    refine ⟨hk, hhart.good, hhart.hart, hhart.scratch, hhart.count, hhart.off, hhart.on,
      fun _ => ?_, hhart.back⟩
    rw [hwho]
    rfl
  exact ⟨_, rfl, Inv.safe (h.put rfl rfl hidle (h.locksSame rfl rfl) (h.procsSame rfl)
    (h.bedsSame rfl))⟩

/-! ## All statements -/

theorem Inv.assertRunning (h : Inv lost s ctx bed) (hproc : (s.cpus x).proc = (ctx x).me.who.pid)
    (hwho : (ctx x).me.who = .proc p) (hplain : (ctx x).me.Plain) (hk : Fits (ctx x) k) :
    ∃ s', exec s x k (.assertRunning p) = some s' ∧ Safe lost s' := by
  obtain ⟨pr, hpr, hruns⟩ := h.procs.runs x p hwho
  have hexec : exec s x k (.assertRunning p) = some (s.goto x k) := by
    rw [exec, hpr]
    exact if_pos (hruns.state.trans hplain.st)
  exact ⟨_, hexec, h.goto hproc hk⟩

/-- `do_exit` does not come back from `sched`. -/
theorem Inv.noBug (h : Inv lost s ctx bed) : (ctx x).me.st ≠ .unused := by
  intro hst
  cases hwho : (ctx x).me.who with
  | idle c =>
    have hplain : (ctx x).me.Plain := by
      refine (h.harts x).good.own ?_
      rintro ⟨p, hp, -⟩
      exact nomatch hwho.symm.trans hp
    exact nomatch hst.symm.trans hplain.st
  | proc p =>
    obtain ⟨pr, -, hruns⟩ := h.procs.runs x p hwho
    exact hruns.used hst

/-- The statement that a hart is at does not fail, and keeps the invariant. -/
theorem Inv.exec (h : Inv lost s ctx bed) (hcode : (s.regs x).code = st :: k) (hirq : st ≠ .irqBody)
    (huser : ∀ p, st ≠ .user p) : ∃ s', exec s x k st = some s' ∧ Safe lost s' := by
  have hfits := (h.harts x).fits
  rw [hcode] at hfits
  obtain ⟨Γ', hn, hk⟩ := fits_cons.mp hfits
  by_cases hidle : st = .idle x
  · subst hidle
    cases hn with
    | idle hwho hheld => exact h.idle hwho hk
  have hproc : (s.cpus x).proc = (ctx x).me.who.pid := by
    refine (h.harts x).proc fun l hl => hidle ?_
    rw [hcode] at hl
    exact (List.cons.inj hl).1
  cases hn with
  | pushOff => exact h.pushOff hproc hk
  | popOff hpos hcalm => exact h.popOff hproc hpos hcalm hk
  | notHolding hnot =>
    refine ⟨_, if_neg ?_, h.goto hproc hk⟩
    exact fun hyes => hnot ((h.holding x _).mp hyes)
  | testAndSet hpos hhalf => exact h.testAndSet hproc (.testAndSet hpos hhalf) hk
  | setCpu hpos hhalf => exact h.takeCpu hproc hpos hhalf hk
  | isHolding hin => exact ⟨_, if_pos ((h.holding x _).mpr hin), h.goto hproc hk⟩
  | clearCpu hin hhalf hown hsleep =>
    exact h.clearCpu hproc hin (.clearCpu hin hhalf hown hsleep) hk
  | unlock hhalf => exact h.unlock hproc hhalf hk
  | interruptOff hbare => exact ⟨_, rfl, h.setSie hproc hbare hk⟩
  | interruptOn hbare => exact ⟨_, rfl, h.setSie hproc hbare hk⟩
  | assertRunning hwho hplain => exact h.assertRunning hproc hwho hplain hk
  | toReady hwho hin hplain => exact h.setState hproc hwho hin nofun hk
  | toBlock hwho hin hparked => exact h.setState hproc hwho hin nofun hk
  | awaitChild hwho hin hplain => exact h.awaitChild hproc hwho hin hplain hk
  | childCame hwho hin hparked => exact h.childCame hproc hwho hin hparked hk
  | enqueue hwho hin hlk hplain htask => exact h.enqueue hproc hwho hin hlk hplain htask hk
  | sched hwho hheld hextra hcalm hie hleaves =>
    exact h.sched hproc hwho hheld hextra hcalm hie hleaves hk
  | setPreintstat hheld => exact h.setPreintstat hproc hheld hk
  | bug hst => exact absurd hst h.noBug
  | unblockAll hlk hsleep hcalm hown hparked =>
    exact h.unblockAll hproc hlk hsleep hcalm hown hparked hk
  | wakeHand htask hin hne => exact h.wakeHand hproc htask hin hne hk
  | wakeDue htask hin hne hsleep => exact h.wakeDue hproc htask hin hne hsleep hk
  | timeLoop hsleep hcalm hown hparked => exact ⟨_, rfl, h.goto hproc hk⟩
  | pqPop htask hsleep => exact h.pqPop hproc htask hsleep hk
  | popV hsleep hin hcalm hparked => exact ⟨_, rfl, h.goto hproc hk⟩
  | unblockSelf hwho hplain => exact h.unblockSelf hproc hwho hplain hk
  | scan hwho hbare hie hi => exact h.scan hproc hwho hbare hie hi
  | pick hwho hcalm hheld hextra hie hi => exact h.pick hproc hwho hcalm hheld hextra hie
  | idle hwho hheld => exact h.idle hwho hk
  | irqBody => exact absurd rfl hirq
  | sret hwho hbare hie =>
    refine ⟨_, rfl, h.setSie hproc hbare (.cons (.user hwho ?_ rfl) hk)⟩
    exact ⟨⟨hbare.half, hbare.task⟩, hbare.held, hbare.extra⟩
  | user => exact absurd rfl (huser _)

end Uniks.Sched
