/-
  What a hart holds while it runs: the context of a list of statements.

  `Ctx` says which locks the hart has, how many calls of `push_off` are open besides, whether its
  interrupts are on outside of them, and what the running process is about to do.  `Ctx.Next` is
  what each statement asks for and makes of it, and `Fits` that a list of statements can be run
  from a context to its end.  The bodies of the functions fit wherever their callers keep the rules
  (`fits_procBlock`, `fits_wakeUp`, ..).
-/
import Uniks.Sched

namespace Uniks.Sched

/-- A process that the hart is about to wake: taken off a wait list (`hand`), at the top of the
    sleep queue (`due`), or woken but still in the sleep queue. -/
inductive Task where
  | none
  | hand (p : Pid)
  | due (p : Pid)
  | woken (p : Pid)
  deriving DecidableEq

/-- Who runs on a hart: its scheduler, or a process. -/
inductive Who where
  | idle (h : Hart)
  | proc (p : Pid)
  deriving DecidableEq

/-- What `myproc` finds. -/
def Who.pid : Who → Pid
  | idle _ => FIRST_PROC
  | proc p => p

/-- Who runs, the state of the process, and whether it is in a place from which somebody will wake
    it. -/
structure Me where
  who : Who
  st : ProcState
  w4child : Bool
  parked : Bool
  deriving DecidableEq

/-- `half` is a lock between the two stores of `acquire` or `release`. -/
structure Ctx where
  held : List Lock
  half : Option Lock
  extra : Nat
  ie : Bool
  me : Me
  task : Task

/-- Not in the middle of anything. -/
structure Ctx.Calm (Γ : Ctx) : Prop where
  half : Γ.half = none
  task : Γ.task = .none

/-- The process runs, and is about to run on. -/
structure Me.Plain (m : Me) : Prop where
  st : m.st = .running
  w4child : m.w4child = false
  parked : m.parked = false

/-- The process may give up the hart. -/
def Me.Leaves (m : Me) : Prop :=
  m.st = .ready ∧ m.w4child = false ∧ m.parked = false ∨ m.st = .block ∧ m.parked = true ∨
    m.st = .zombie ∧ m.w4child = false ∧ m.parked = false

/-- The process when it comes back. -/
def Me.back (m : Me) : Me :=
  { m with st := if m.st = .zombie then .unused else .running, parked := false }

/-- No lock of another process is held. -/
def Ctx.OwnPcbs (Γ : Ctx) : Prop := ∀ p, Lock.pcb p ∈ Γ.held → p = Γ.me.who.pid

/-- The entry of `pcblock` that belongs to the running process is held. -/
def Ctx.Locked (Γ : Ctx) : Prop := ∃ p, Γ.me.who = .proc p ∧ Lock.pcb p ∈ Γ.held

/-- No lock is held, and nothing is going on. -/
structure Ctx.Bare (Γ : Ctx) : Prop extends Ctx.Calm Γ where
  held : Γ.held = []
  extra : Γ.extra = 0

/-- What each statement asks for, and what it makes of the context. -/
inductive Ctx.Next : Ctx → Stmt → Ctx → Prop
  | pushOff {Γ : Ctx} : Next Γ .pushOff { Γ with extra := Γ.extra + 1 }
  | popOff {Γ : Ctx} : 0 < Γ.extra → (Γ.held = [] → Γ.extra = 1 → Γ.Calm) →
      Next Γ .popOff { Γ with extra := Γ.extra - 1 }
  | notHolding {Γ : Ctx} {lk : Lock} : lk ∉ Γ.held → Next Γ (.notHolding lk) Γ
  | testAndSet {Γ : Ctx} {lk : Lock} : 0 < Γ.extra → Γ.half = none →
      Next Γ (.testAndSet lk) { Γ with half := some lk }
  | setCpu {Γ : Ctx} {lk : Lock} : 0 < Γ.extra → Γ.half = some lk →
      Next Γ (.setCpu lk) { Γ with half := none, held := lk :: Γ.held, extra := Γ.extra - 1 }
  | isHolding {Γ : Ctx} {lk : Lock} : lk ∈ Γ.held → Next Γ (.isHolding lk) Γ
  | clearCpu {Γ : Ctx} {lk : Lock} : lk ∈ Γ.held → Γ.half = none →
      (∀ p, Γ.me.who = .proc p → lk = .pcb p → Γ.me.Plain) → (lk = .sleep → Γ.task = .none) →
      Next Γ (.clearCpu lk)
        { Γ with half := some lk, held := Γ.held.erase lk, extra := Γ.extra + 1 }
  | unlock {Γ : Ctx} {lk : Lock} : Γ.half = some lk → Next Γ (.unlock lk) { Γ with half := none }
  | interruptOff {Γ : Ctx} : Γ.Bare → Next Γ .interruptOff { Γ with ie := false }
  | interruptOn {Γ : Ctx} : Γ.Bare → Next Γ .interruptOn { Γ with ie := true }
  | assertRunning {Γ : Ctx} {p : Pid} : Γ.me.who = .proc p → Γ.me.Plain →
      Next Γ (.assertRunning p) Γ
  | toReady {Γ : Ctx} {p : Pid} : Γ.me.who = .proc p → Lock.pcb p ∈ Γ.held → Γ.me.Plain →
      Next Γ (.setState p .ready) { Γ with me := { Γ.me with st := .ready } }
  | toBlock {Γ : Ctx} {p : Pid} : Γ.me.who = .proc p → Lock.pcb p ∈ Γ.held → Γ.me.parked = true →
      Next Γ (.setState p .block) { Γ with me := { Γ.me with st := .block } }
  | awaitChild {Γ : Ctx} {p : Pid} : Γ.me.who = .proc p → Lock.pcb p ∈ Γ.held → Γ.me.Plain →
      Next Γ (.setW4child p true) { Γ with me := { Γ.me with w4child := true, parked := true } }
  | childCame {Γ : Ctx} {p : Pid} : Γ.me.who = .proc p → Lock.pcb p ∈ Γ.held →
      Γ.me.parked = false →
      Next Γ (.setW4child p false) { Γ with me := { Γ.me with w4child := false } }
  | enqueue {Γ : Ctx} {p : Pid} {wl : WaitList} : Γ.me.who = .proc p → Lock.pcb p ∈ Γ.held →
      wl.lk ∈ Γ.held → Γ.me.Plain → Γ.task = .none →
      Next Γ (.enqueue p wl) { Γ with me := { Γ.me with parked := true } }
  | sched {Γ : Ctx} {p : Pid} : Γ.me.who = .proc p → Γ.held = [.pcb p] → Γ.extra = 0 → Γ.Calm →
      Γ.ie = true → Γ.me.Leaves → Next Γ .sched { Γ with me := Γ.me.back }
  | setPreintstat {Γ : Ctx} {b : Bool} : Γ.held ≠ [] →
      Next Γ (.setPreintstat b) { Γ with ie := b }
  | bug {Γ : Ctx} : Γ.me.st = .unused → Next Γ .bug Γ
  | unblockAll {Γ : Ctx} {wl : WaitList} : wl.lk ∈ Γ.held → wl.lk ≠ .sleep → Γ.Calm →
      Γ.OwnPcbs → Γ.me.parked = false → Next Γ (.unblockAll wl) Γ
  | wakeHand {Γ : Ctx} {p : Pid} : Γ.task = .hand p → Lock.pcb p ∈ Γ.held → Γ.me.who ≠ .proc p →
      Next Γ (.wake p) { Γ with task := .none }
  | wakeDue {Γ : Ctx} {p : Pid} : Γ.task = .due p → Lock.pcb p ∈ Γ.held → Γ.me.who ≠ .proc p →
      Lock.sleep ∈ Γ.held → Next Γ (.wake p) { Γ with task := .woken p }
  | timeLoop {Γ : Ctx} : Lock.sleep ∈ Γ.held → Γ.Calm → Γ.OwnPcbs → Γ.me.parked = false →
      Next Γ .timeLoop Γ
  | pqPop {Γ : Ctx} {p : Pid} : Γ.task = .woken p → Lock.sleep ∈ Γ.held →
      Next Γ (.pqPop p) { Γ with task := .none }
  | popV {Γ : Ctx} {p : Pid} : Lock.sleep ∈ Γ.held → Lock.pcb p ∈ Γ.held → Γ.Calm →
      Γ.me.parked = false → Next Γ (.popV p) Γ
  | unblockSelf {Γ : Ctx} {p : Pid} : Γ.me.who = .proc p → Γ.me.Plain →
      Next Γ (.unblockSelf p) Γ
  | scan {Γ : Ctx} {c : Hart} {i : Pid} : Γ.me.who = .idle c → Γ.Bare → Γ.ie = true →
      1 ≤ i → Next Γ (.scan c i) Γ
  | pick {Γ : Ctx} {c : Hart} {i : Pid} : Γ.me.who = .idle c → Γ.Calm → Γ.held = [.pcb i] →
      Γ.extra = 0 → Γ.ie = true → 1 ≤ i → Next Γ (.pick c i) { Γ with held := [] }
  | idle {Γ : Ctx} {c : Hart} : Γ.me.who = .idle c → Γ.held ≠ [] → Next Γ (.idle c) Γ
  | irqBody {Γ : Ctx} : Γ.Calm → Γ.extra = 0 → Γ.me.Plain → Γ.ie = false →
      Next Γ .irqBody { Γ with held := [], ie := true }
  | sret {Γ : Ctx} {p : Pid} : Γ.me.who = .proc p → Γ.Bare → Γ.ie = false →
      Next Γ (.sret p) { Γ with ie := true }
  | user {Γ : Ctx} {p : Pid} : Γ.me.who = .proc p → Γ.Bare → Γ.ie = true → Next Γ (.user p) Γ

/-- Free code of the kernel: nothing is open, and the interrupts are on outside of the locks. -/
structure Ctx.Done (Γ : Ctx) : Prop extends Ctx.Calm Γ where
  extra : Γ.extra = 0
  ie : Γ.ie = true
  w4child : Γ.me.w4child = false
  parked : Γ.me.parked = false
  st : Γ.me.st = .running ∨ Γ.me.st = .zombie ∧ Γ.Locked ∨ Γ.me.st = .unused

/-- The statements can be run from the context to their end. -/
inductive Fits : Ctx → List Stmt → Prop
  | nil {Γ : Ctx} : Γ.Done → Fits Γ []
  | cons {Γ Γ' : Ctx} {st : Stmt} {k : List Stmt} : Γ.Next st Γ' → Fits Γ' k → Fits Γ (st :: k)

variable {Γ Γ' : Ctx} {lk : Lock} {p q : Pid} {i : Pid} {wl : WaitList} {k : List Stmt} {st : Stmt}

theorem fits_cons : Fits Γ (st :: k) ↔ ∃ Γ', Γ.Next st Γ' ∧ Fits Γ' k := by
  constructor
  · intro h
    cases h with
    | cons hnext hrest => exact ⟨_, hnext, hrest⟩
  · rintro ⟨Γ', hnext, hrest⟩
    exact Fits.cons hnext hrest

/-! ## Taking and releasing a lock -/

theorem fits_acquire (hnot : lk ∉ Γ.held) (hhalf : Γ.half = none)
    (h : Fits { Γ with held := lk :: Γ.held } k) : Fits Γ (acquire lk ++ k) := by
  refine .cons .pushOff (.cons (.notHolding hnot) (.cons (.testAndSet (Nat.succ_pos _) hhalf)
    (.cons (.setCpu (Nat.succ_pos _) rfl) ?_)))
  rw [hhalf] at h
  exact h

theorem fits_release (hin : lk ∈ Γ.held) (hhalf : Γ.half = none)
    (hown : ∀ p, Γ.me.who = .proc p → lk = .pcb p → Γ.me.Plain)
    (hsleep : lk = .sleep → Γ.task = .none) (hcalm : Γ.held.erase lk = [] → Γ.task = .none)
    (h : Fits { Γ with held := Γ.held.erase lk } k) : Fits Γ (release lk ++ k) := by
  refine .cons (.isHolding hin) (.cons (.clearCpu hin hhalf hown hsleep) (.cons (.unlock rfl)
    (.cons (.popOff (Nat.succ_pos _) ?_) ?_)))
  · exact fun hempty _ => ⟨rfl, hcalm hempty⟩
  · rw [hhalf] at h
    exact h

theorem fits_myproc (hcalm : Γ.held = [] → Γ.Calm) (h : Fits Γ k) : Fits Γ (myproc ++ k) :=
  .cons .pushOff (.cons (.popOff (Nat.succ_pos _) fun hempty _ => ⟨(hcalm hempty).half,
    (hcalm hempty).task⟩) h)

/-! ## Giving up the hart -/

/-- What `sched` comes back to. -/
theorem fits_sched (hwho : Γ.me.who = .proc p) (hheld : Γ.held = [.pcb p]) (hextra : Γ.extra = 0)
    (hcalm : Γ.Calm) (hie : Γ.ie = true) (hleaves : Γ.me.Leaves)
    (h : Fits { Γ with me := Γ.me.back } k) : Fits Γ (.sched :: k) :=
  .cons (.sched hwho hheld hextra hcalm hie hleaves) h

/-- The end of a function that gives up the hart. -/
theorem fits_releaseSelf (hheld : Γ.held = [.pcb p])
    (hcalm : Γ.Calm) (hplain : Γ.me.Plain) (h : Fits { Γ with held := [] } k) :
    Fits Γ (release (.pcb p) ++ k) := by
  have herase : Γ.held.erase (.pcb p) = [] := by
    rw [hheld]
    exact List.erase_cons_head _ _
  have hin : Lock.pcb p ∈ Γ.held := hheld ▸ List.mem_cons_self
  refine fits_release hin hcalm.half (fun _ _ _ => hplain) (fun _ => hcalm.task)
    (fun _ => hcalm.task) ?_
  rw [herase]
  exact h

theorem Me.Plain.back {m : Me} (h : m.Plain) {st : ProcState} {b : Bool} (hst : st ≠ .zombie) :
    ({ m with st := st, parked := b } : Me).back = m := by
  obtain ⟨who, st', w4child, parked⟩ := m
  obtain ⟨rfl, rfl, rfl⟩ := h
  rw [Me.back, if_neg hst]

theorem fits_yield (hwho : Γ.me.who = .proc p) (hheld : Γ.held = [.pcb p]) (hextra : Γ.extra = 0)
    (hcalm : Γ.Calm) (hie : Γ.ie = true) (hplain : Γ.me.Plain)
    (h : Fits { Γ with held := [] } k) : Fits Γ (yield p ++ k) := by
  have hin : Lock.pcb p ∈ Γ.held := hheld ▸ List.mem_cons_self
  have hback : ({ Γ.me with st := .ready } : Me).back = Γ.me := hplain.back nofun
  refine .cons (.isHolding hin) (.cons (.toReady hwho hin hplain)
    (fits_sched hwho hheld hextra ⟨hcalm.half, hcalm.task⟩ hie
      (.inl ⟨rfl, hplain.w4child, hplain.parked⟩) ?_))
  rw [hback]
  exact fits_releaseSelf hheld ⟨hcalm.half, hcalm.task⟩ hplain h

theorem fits_procBlock (hwho : Γ.me.who = .proc p) (hheld : Γ.held = [wl.lk])
    (hne : wl.lk ≠ .pcb p) (hextra : Γ.extra = 0) (hcalm : Γ.Calm) (hie : Γ.ie = true)
    (hplain : Γ.me.Plain) (h : Fits Γ k) : Fits Γ (procBlock p wl ++ k) := by
  obtain ⟨held, half, extra, ie, me, task⟩ := Γ
  obtain ⟨rfl, rfl⟩ := hcalm
  obtain rfl : held = [wl.lk] := hheld
  obtain rfl : extra = 0 := hextra
  obtain rfl : ie = true := hie
  have hback : ({ me with st := .block, parked := true } : Me).back = me := hplain.back nofun
  have hpcb : Lock.pcb p ∈ [Lock.pcb p, wl.lk] := List.mem_cons_self
  have hlk : wl.lk ∈ [Lock.pcb p, wl.lk] := List.mem_cons_of_mem _ List.mem_cons_self
  have herase : [Lock.pcb p, wl.lk].erase wl.lk = [Lock.pcb p] := by
    rw [List.erase_cons_tail (by simpa using hne.symm), List.erase_cons_head]
  show Fits _ (_ :: (acquire (.pcb p) ++ [.enqueue p wl, .setState p .block] ++ release wl.lk ++
    [.sched] ++ release (.pcb p) ++ acquire wl.lk ++ k))
  simp only [List.append_assoc]
  refine .cons (.assertRunning hwho hplain) (fits_acquire ?_ rfl ?_)
  · exact fun hin => hne (List.mem_singleton.mp hin).symm
  refine .cons (.enqueue hwho hpcb hlk hplain rfl) (.cons (.toBlock hwho hpcb rfl) ?_)
  refine fits_release hlk rfl (fun q hq heq => ?_) (fun _ => rfl) (fun _ => rfl) ?_
  · obtain rfl : p = q := Who.proc.inj (hwho.symm.trans hq)
    exact absurd heq hne
  rw [herase]
  refine fits_sched hwho rfl rfl ⟨rfl, rfl⟩ rfl (.inr (.inl ⟨rfl, rfl⟩)) ?_
  rw [hback]
  refine fits_releaseSelf rfl ⟨rfl, rfl⟩ hplain (fits_acquire ?_ rfl h)
  exact List.not_mem_nil

theorem fits_sysMsleep (hwho : Γ.me.who = .proc p) (hbare : Γ.Bare) (hie : Γ.ie = true)
    (hplain : Γ.me.Plain) (h : Fits Γ k) : Fits Γ (sysMsleep p ++ k) := by
  obtain ⟨held, half, extra, ie, me, task⟩ := Γ
  obtain ⟨⟨rfl, rfl⟩, rfl, rfl⟩ := hbare
  obtain rfl : ie = true := hie
  have hback : ({ me with st := .block, parked := true } : Me).back = me := hplain.back nofun
  have hpcb : Lock.pcb p ∈ [Lock.pcb p, Lock.sleep] := List.mem_cons_self
  have hlk : Lock.sleep ∈ [Lock.pcb p, Lock.sleep] := List.mem_cons_of_mem _ List.mem_cons_self
  have herase : [Lock.pcb p, Lock.sleep].erase .sleep = [Lock.pcb p] := by
    rw [List.erase_cons_tail (by simp), List.erase_cons_head]
  show Fits _ (acquire .sleep ++ acquire (.pcb p) ++ [.enqueue p sleepQueue] ++ release .sleep ++
    [.setState p .block, .sched] ++ release (.pcb p) ++ k)
  simp only [List.append_assoc]
  refine fits_acquire List.not_mem_nil rfl (fits_acquire ?_ rfl ?_)
  · exact fun hin => nomatch List.mem_singleton.mp hin
  refine .cons (.enqueue hwho hpcb hlk hplain rfl) (fits_release hlk rfl ?_ (fun _ => rfl)
    (fun _ => rfl) ?_)
  · exact fun _ _ heq => nomatch heq
  rw [herase]
  refine .cons (.toBlock hwho List.mem_cons_self rfl) ?_
  refine fits_sched hwho rfl rfl ⟨rfl, rfl⟩ rfl (.inr (.inl ⟨rfl, rfl⟩)) ?_
  rw [hback]
  exact fits_releaseSelf rfl ⟨rfl, rfl⟩ hplain h

theorem fits_waitAny (hwho : Γ.me.who = .proc p) (hbare : Γ.Bare) (hie : Γ.ie = true)
    (hplain : Γ.me.Plain) (h : Fits Γ k) : Fits Γ (waitAny p ++ k) := by
  obtain ⟨held, half, extra, ie, ⟨who, st, w4child, parked⟩, task⟩ := Γ
  obtain ⟨⟨rfl, rfl⟩, rfl, rfl⟩ := hbare
  obtain ⟨rfl, rfl, rfl⟩ := hplain
  obtain rfl : ie = true := hie
  have hpcb : Lock.pcb p ∈ [Lock.pcb p] := List.mem_cons_self
  show Fits _ (acquire (.pcb p) ++ [.setW4child p true, .setState p .block, .sched,
    .setW4child p false] ++ release (.pcb p) ++ k)
  simp only [List.append_assoc]
  refine fits_acquire List.not_mem_nil rfl ?_
  refine .cons (.awaitChild hwho hpcb ⟨rfl, rfl, rfl⟩) (.cons (.toBlock hwho hpcb rfl) ?_)
  refine fits_sched hwho rfl rfl ⟨rfl, rfl⟩ rfl (.inr (.inl ⟨rfl, rfl⟩)) ?_
  refine .cons (.childCame hwho hpcb rfl) ?_
  exact fits_releaseSelf rfl ⟨rfl, rfl⟩ ⟨rfl, rfl, rfl⟩ h

theorem fits_sysKill {target : Pid} (hwho : Γ.me.who = .proc p) (hbare : Γ.Bare)
    (hplain : Γ.me.Plain) (h : Fits Γ k) : Fits Γ (sysKill p target ++ k) := by
  obtain ⟨held, half, extra, ie, me, task⟩ := Γ
  obtain ⟨⟨rfl, rfl⟩, rfl, rfl⟩ := hbare
  have hpcb : Lock.pcb target ∈ [Lock.pcb target, Lock.sleep] := List.mem_cons_self
  have hlk : Lock.sleep ∈ [Lock.pcb target, Lock.sleep] :=
    List.mem_cons_of_mem _ List.mem_cons_self
  have herase : [Lock.pcb target, Lock.sleep].erase .sleep = [Lock.pcb target] := by
    rw [List.erase_cons_tail (by simp), List.erase_cons_head]
  show Fits _ (acquire .sleep ++ acquire (.pcb target) ++ [.popV target] ++ release .sleep ++
    [.unblockSelf p] ++ release (.pcb target) ++ k)
  simp only [List.append_assoc]
  refine fits_acquire List.not_mem_nil rfl (fits_acquire ?_ rfl ?_)
  · exact fun hin => nomatch List.mem_singleton.mp hin
  refine .cons (.popV hlk hpcb ⟨rfl, rfl⟩ hplain.parked) (fits_release hlk rfl ?_ (fun _ => rfl)
    (fun _ => rfl) ?_)
  · exact fun _ _ heq => nomatch heq
  rw [herase]
  refine .cons (.unblockSelf hwho hplain) ?_
  -- the lock may be its own: the process runs on
  exact fits_releaseSelf rfl ⟨rfl, rfl⟩ hplain h

/-! ## Waking others -/

/-- A process that is taken off a wait list, or found in the sleep queue, is woken. -/
theorem fits_wakeUp {task : Task} (hnot : Lock.pcb p ∉ Γ.held) (hne : Γ.me.who ≠ .proc p)
    (hhalf : Γ.half = none)
    (hwake : Ctx.Next { Γ with held := .pcb p :: Γ.held } (.wake p)
      { Γ with held := .pcb p :: Γ.held, task := task })
    (hquiet : Γ.held ≠ []) (h : Fits { Γ with task := task } k) : Fits Γ (wakeUp p ++ k) := by
  have hsplit : wakeUp p ++ k =
      acquire (.pcb p) ++ (.wake p :: (release (.pcb p) ++ k)) := by
    simp only [wakeUp, List.append_assoc, List.cons_append, List.nil_append]
  have herase : (Lock.pcb p :: Γ.held).erase (.pcb p) = Γ.held := List.erase_cons_head _ _
  rw [hsplit]
  refine fits_acquire hnot hhalf (.cons hwake
    (fits_release List.mem_cons_self hhalf ?_ nofun ?_ ?_))
  · intro q hq heq
    obtain rfl : p = q := Lock.pcb.inj heq
    exact absurd hq hne
  · intro hempty
    exact absurd (herase.symm.trans hempty) hquiet
  · show Fits { Γ with held := (Lock.pcb p :: Γ.held).erase (.pcb p), task := task } k
    rw [herase]
    exact h

theorem fits_timeWakeup (hcalm : Γ.Calm) (hnot : Lock.sleep ∉ Γ.held) (hown : Γ.OwnPcbs)
    (hparked : Γ.me.parked = false) (h : Fits Γ k) : Fits Γ (timeWakeup ++ k) := by
  have herase : (Lock.sleep :: Γ.held).erase .sleep = Γ.held := List.erase_cons_head _ _
  have hsplit : timeWakeup ++ k =
      acquire .sleep ++ (.timeLoop :: (release .sleep ++ k)) := by
    simp only [timeWakeup, List.append_assoc, List.cons_append, List.nil_append]
  rw [hsplit]
  refine fits_acquire hnot hcalm.half (.cons (.timeLoop List.mem_cons_self ⟨hcalm.half, hcalm.task⟩
    (fun q hq => ?_) hparked) (fits_release List.mem_cons_self hcalm.half ?_
      (fun _ => hcalm.task) (fun _ => hcalm.task) ?_))
  · rcases List.mem_cons.mp hq with heq | hq
    · cases heq
    · exact hown q hq
  · exact fun _ _ heq => nomatch heq
  · rw [herase]
    exact h

/-! ## New processes, the scheduler, user space -/

/-- A process that the scheduler has chosen, under its lock. -/
def startCtx (p : Pid) (w4child : Bool) : Ctx where
  held := [.pcb p]
  half := none
  extra := 0
  ie := true
  me := ⟨.proc p, .running, w4child, false⟩
  task := .none

/-- The scheduler of a hart. -/
def idleCtx (h : Hart) (held : List Lock) : Ctx where
  held := held
  half := none
  extra := 0
  ie := true
  me := ⟨.idle h, .running, false, false⟩
  task := .none

theorem fits_forkret (p : Pid) : Fits (startCtx p false) (forkret p) := by
  have hsplit : forkret p = myproc ++ (release (.pcb p) ++ []) := by
    rw [List.append_nil]
    rfl
  rw [hsplit]
  refine fits_myproc nofun (fits_releaseSelf rfl ⟨rfl, rfl⟩ ⟨rfl, rfl, rfl⟩ (.nil ?_))
  exact ⟨⟨rfl, rfl⟩, rfl, rfl, rfl, rfl, .inl rfl⟩

theorem fits_scan (h : Hart) {i : Pid} (hi : 1 ≤ i) : Fits (idleCtx h []) [.scan h i] :=
  .cons (.scan rfl ⟨⟨rfl, rfl⟩, rfl, rfl⟩ rfl hi)
    (.nil ⟨⟨rfl, rfl⟩, rfl, rfl, rfl, rfl, .inl rfl⟩)

/-- The end of a turn of the loop of `scheduler`. -/
theorem fits_turn (h : Hart) (i : Pid) :
    Fits (idleCtx h [.pcb i]) (release (.pcb i) ++ [.scan h (i + 1)]) := by
  refine fits_release List.mem_cons_self rfl (fun _ hwho => nomatch hwho) nofun (fun _ => rfl) ?_
  have herase : [Lock.pcb i].erase (.pcb i) = [] := List.erase_cons_head _ _
  show Fits (idleCtx h ([Lock.pcb i].erase (.pcb i))) _
  rw [herase]
  exact fits_scan h (Nat.succ_pos i)

theorem fits_visit (h : Hart) {i : Pid} (hi : 1 ≤ i) :
    Fits (idleCtx h []) (acquire (.pcb i) ++ [.pick h i]) :=
  fits_acquire List.not_mem_nil rfl (.cons (.pick rfl ⟨rfl, rfl⟩ rfl rfl rfl hi)
    (.nil ⟨⟨rfl, rfl⟩, rfl, rfl, rfl, rfl, .inl rfl⟩))

theorem fits_idle (h : Hart) (i : Pid) :
    Fits (idleCtx h [.pcb i]) (.idle h :: (release (.pcb i) ++ [.scan h (i + 1)])) :=
  .cons (.idle rfl nofun) (fits_turn h i)

theorem fits_usertrapHandler (hbare : Γ.Bare) (hdone : ({ Γ with ie := true } : Ctx).Done) :
    Fits Γ usertrapHandler := by
  refine fits_myproc (k := [.interruptOn]) (fun _ => hbare.toCalm) ?_
  exact .cons (.interruptOn hbare) (.nil hdone)

theorem fits_usertrapret (hwho : Γ.me.who = .proc p) (hbare : Γ.Bare) (hdone : Γ.Done) :
    Fits Γ (usertrapret p) := by
  refine .cons (.interruptOff hbare) (fits_myproc (k := [.sret p])
    (fun _ => ⟨hbare.half, hbare.task⟩)
    (.cons (.sret hwho ⟨⟨hbare.half, hbare.task⟩, hbare.held, hbare.extra⟩ rfl) (.nil ?_)))
  have hie := hdone.ie
  exact ⟨⟨hdone.half, hdone.task⟩, hdone.extra, rfl, hdone.w4child, hdone.parked, hdone.st⟩

end Uniks.Sched
