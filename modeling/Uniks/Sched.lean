/-
  Spinlocks, interrupts and the scheduler: `kernel/sync/spinlock.c`, the scheduler with `sched`,
  `yield`, `proc_block`, `proc_unblock_all` and `time_wakeup` of `kernel/process/proc.c`, the
  blocking parts of `kernel/sys/sysproc.c` and the ways into the kernel and out of it
  (`kernel/trap/trap.c`, `trampoline.S`).

  Any number of harts run at once.  What a hart does next is a list of statements (`Stmt`); a step
  is one statement of one hart, so that the harts interleave between any two of them, in the middle
  of `acquire` and `release` too.  Kernel code that takes and releases locks of its own between the
  functions that are modelled here is free: it may call whatever it likes as long as it keeps the
  rules of these functions (`Call.Allowed`), and so may an interrupt handler, which begins wherever
  the interrupts of its hart are on.

  A hart reaches its `struct cpu_t` through `sscratch`, which user space may have overwritten: on
  the way into the kernel it is read from `p->host`.  `none` is a failed assertion or a panic.

  A process stands on a wait list, or in the sleep queue, or waits for a child.  Which entries of
  the sleep queue are due, and whether `priority_queue_pop_v` finds the one it is after (it does not
  look at the last slot), is in `Uniks.SleepQueue`: here either may be.
-/
import Uniks.Lib.Runs
import Mathlib.Logic.Function.Basic

namespace Uniks.Sched

open Uniks.Runs
open Function (update)

abbrev Hart := Nat
abbrev Pid := Nat

/-- `FIRST_PROC`, the process of a hart that has nothing to do. -/
abbrev FIRST_PROC : Pid := 0
abbrev INIT_PROC : Pid := 1
abbrev NPROC : Nat := 64

/-! ## Data -/

/-- An entry of `pcblock`, the lock of the sleep queue, or any other lock. -/
inductive Lock where
  | pcb (p : Pid)
  | sleep
  | other (n : Nat)
  deriving DecidableEq, Repr

/-- A wait list, named by the lock that protects it. -/
structure WaitList where
  lk : Lock
  no : Nat
  deriving DecidableEq, Repr

/-- The pids in the sleep queue. -/
abbrev sleepQueue : WaitList := ⟨.sleep, 0⟩

/-- The source's `enum proc_state`. -/
inductive ProcState where
  | unused
  | initing
  | block
  | ready
  | running
  | zombie
  deriving DecidableEq, Repr

inductive Stmt where
  | pushOff
  | popOff
  -- `do_acquire`
  | notHolding (lk : Lock)
  | testAndSet (lk : Lock)
  | setCpu (lk : Lock)
  -- `do_release`; `isHolding` also stands for an assertion
  | isHolding (lk : Lock)
  | clearCpu (lk : Lock)
  | unlock (lk : Lock)
  | interruptOff
  | interruptOn
  | assertRunning (p : Pid)
  | setState (p : Pid) (st : ProcState)
  | setW4child (p : Pid) (b : Bool)
  | enqueue (p : Pid) (wl : WaitList)
  | sched
  | setPreintstat (b : Bool)
  | bug
  /-- The loop of `proc_unblock_all`, and what it does to a process. -/
  | unblockAll (wl : WaitList)
  | wake (p : Pid)
  /-- The loop of `time_wakeup`, and `priority_queue_pop`. -/
  | timeLoop
  | pqPop (p : Pid)
  /-- `priority_queue_pop_v`, and what `sys_kill` does to its caller. -/
  | popV (target : Pid)
  | unblockSelf (p : Pid)
  /-- The loop of `scheduler`, in front of `acquire` and behind it, and what follows `switch_to`. -/
  | scan (c : Hart) (i : Pid)
  | pick (c : Hart) (i : Pid)
  | idle (c : Hart)
  /-- Back to the code that an interrupt has found. -/
  | irqBody
  /-- Into user space, in which the hart then is. -/
  | sret (p : Pid)
  | user (p : Pid)
  deriving DecidableEq, Repr

/-- The source's `struct cpu_t`; `preintstat` is its bit `SSTATUS_SIE`. -/
structure Cpu where
  proc : Pid
  ctxt : List Stmt
  repeat_ : Nat
  preintstat : Bool

/-- The registers of a hart: `sscratch`, the bit `SSTATUS_SIE`, and what it does next. -/
structure Regs where
  sscratch : Hart
  sie : Bool
  code : List Stmt

/-- The source's `struct spinlock_t`; `none` is -1. -/
structure Spinlock where
  locked : Bool
  cpu : Option Hart

/-- The fields of `struct proc_t` that the scheduler uses. -/
structure Proc where
  state : ProcState
  w4child : Bool
  host : Hart
  ctxt : List Stmt

structure State where
  cpus : Hart → Cpu
  regs : Hart → Regs
  lock : Lock → Spinlock
  pcbtable : Pid → Option Proc
  queue : WaitList → List Pid

/-! ## The functions -/

/-- The source's `acquire`. -/
def acquire (lk : Lock) : List Stmt := [.pushOff, .notHolding lk, .testAndSet lk, .setCpu lk]

/-- The source's `release`. -/
def release (lk : Lock) : List Stmt := [.isHolding lk, .clearCpu lk, .unlock lk, .popOff]

/-- The source's `myproc`. -/
def myproc : List Stmt := [.pushOff, .popOff]

/-- The source's `yield`. -/
def yield (p : Pid) : List Stmt :=
  [.isHolding (.pcb p), .setState p .ready, .sched] ++ release (.pcb p)

/-- The source's `proc_block`, with the lock of the list. -/
def procBlock (p : Pid) (wl : WaitList) : List Stmt :=
  .assertRunning p :: acquire (.pcb p) ++ [.enqueue p wl, .setState p .block] ++ release wl.lk ++
    [.sched] ++ release (.pcb p) ++ acquire wl.lk

/-- What `proc_unblock_all` and `time_wakeup` do to a process. -/
def wakeUp (p : Pid) : List Stmt := acquire (.pcb p) ++ [.wake p] ++ release (.pcb p)

/-- The source's `time_wakeup`. -/
def timeWakeup : List Stmt := acquire .sleep ++ [.timeLoop] ++ release .sleep

/-- The END of `sys_msleep`. -/
def sysMsleep (p : Pid) : List Stmt :=
  acquire .sleep ++ acquire (.pcb p) ++ [.enqueue p sleepQueue] ++ release .sleep ++
    [.setState p .block, .sched] ++ release (.pcb p)

/-- The source's `sys_kill`, behind its test of the pid; nothing here looks at `p->killed`. -/
def sysKill (p target : Pid) : List Stmt :=
  acquire .sleep ++ acquire (.pcb target) ++ [.popV target] ++ release .sleep ++
    [.unblockSelf p] ++ release (.pcb target)

/-- How `sys_wait4` waits for any child. -/
def waitAny (p : Pid) : List Stmt :=
  acquire (.pcb p) ++ [.setW4child p true, .setState p .block, .sched, .setW4child p false] ++
    release (.pcb p)

/-- The source's `forkret`, up to the release of the lock. -/
def forkret (p : Pid) : List Stmt := myproc ++ release (.pcb p)

/-- The source's `usertrap_handler`, up to where it turns the interrupts on. -/
def usertrapHandler : List Stmt := myproc ++ [.interruptOn]

/-- The source's `usertrapret`. -/
def usertrapret (p : Pid) : List Stmt := .interruptOff :: myproc ++ [.sret p]

/-! ## What a statement does -/

def State.mycpu (s : State) (h : Hart) : Hart := (s.regs h).sscratch

def State.cpu (s : State) (h : Hart) : Cpu := s.cpus (s.mycpu h)

def State.setRegs (s : State) (h : Hart) (r : Regs) : State :=
  { s with regs := update s.regs h r }

def State.setCpu (s : State) (h : Hart) (c : Cpu) : State :=
  { s with cpus := update s.cpus (s.mycpu h) c }

def State.setLock (s : State) (lk : Lock) (l : Spinlock) : State :=
  { s with lock := update s.lock lk l }

def State.setProc (s : State) (p : Pid) (pr : Proc) : State :=
  { s with pcbtable := update s.pcbtable p (some pr) }

def State.setQueue (s : State) (wl : WaitList) (l : List Pid) : State :=
  { s with queue := update s.queue wl l }

/-- The hart goes on with `k`. -/
def State.goto (s : State) (h : Hart) (k : List Stmt) : State :=
  s.setRegs h { s.regs h with code := k }

/-- The source's `holding`. -/
def State.holding (s : State) (h : Hart) (lk : Lock) : Bool :=
  (s.lock lk).locked && (s.lock lk).cpu = some (s.mycpu h)

/-- The source's `sched` with the first half of `switch_to`: what follows is what the process does
    when it comes back. -/
def execSched (s : State) (h : Hart) (k : List Stmt) : Option State := do
  let c := s.cpu h
  let pr ← s.pcbtable c.proc
  if s.holding h (.pcb c.proc) ∧ c.repeat_ = 1 ∧ pr.state ≠ .running ∧ (s.regs h).sie = false then
    return (s.setProc c.proc { pr with ctxt := .setPreintstat c.preintstat :: k }).goto h c.ctxt
  else none

/-- The body of the loop of `scheduler`, under the lock of entry `i`. -/
def execPick (s : State) (h : Hart) (c : Hart) (i : Pid) : State :=
  let on := release (.pcb i) ++ [.scan c (i + 1)]
  match s.pcbtable i with
  | none => s.goto h on
  | some pr =>
    if pr.state = .ready then
      let s := { s with cpus := update s.cpus c
                          { s.cpus c with proc := i, ctxt := .idle c :: on } }
      (s.setProc i { pr with state := .running, host := c }).goto h pr.ctxt
    else s.goto h on

/-- One statement of hart `h`, in front of `k`. -/
def exec (s : State) (h : Hart) (k : List Stmt) : Stmt → Option State
  | .pushOff =>
    let c := s.cpu h
    let old := (s.regs h).sie
    some ((s.setCpu h { c with
        preintstat := if c.repeat_ = 0 then old else c.preintstat
        repeat_ := c.repeat_ + 1 }).setRegs h { s.regs h with sie := false, code := k })
  | .popOff =>
    let c := s.cpu h
    if (s.regs h).sie = false ∧ 1 ≤ c.repeat_ then
      some ((s.setCpu h { c with repeat_ := c.repeat_ - 1 }).setRegs h
        { s.regs h with sie := c.repeat_ - 1 = 0 && c.preintstat, code := k })
    else none
  | .notHolding lk => if s.holding h lk then none else some (s.goto h k)
  | .testAndSet lk =>
    if (s.lock lk).locked then some s
    else some ((s.setLock lk { s.lock lk with locked := true }).goto h k)
  | .setCpu lk => some ((s.setLock lk { s.lock lk with cpu := some (s.mycpu h) }).goto h k)
  | .isHolding lk => if s.holding h lk then some (s.goto h k) else none
  | .clearCpu lk => some ((s.setLock lk { s.lock lk with cpu := none }).goto h k)
  | .unlock lk => some ((s.setLock lk { s.lock lk with locked := false }).goto h k)
  | .interruptOff => some (s.setRegs h { s.regs h with sie := false, code := k })
  | .interruptOn => some (s.setRegs h { s.regs h with sie := true, code := k })
  | .assertRunning p => do
    let pr ← s.pcbtable p
    if pr.state = .running then return s.goto h k else none
  | .setState p st => do
    let pr ← s.pcbtable p
    return (s.setProc p { pr with state := st }).goto h k
  | .setW4child p b => do
    let pr ← s.pcbtable p
    return (s.setProc p { pr with w4child := b }).goto h k
  | .enqueue p wl => some ((s.setQueue wl (p :: s.queue wl)).goto h k)
  | .sched => execSched s h k
  | .setPreintstat b => some ((s.setCpu h { s.cpu h with preintstat := b }).goto h k)
  | .bug => none
  | .unblockAll wl =>
    match s.queue wl with
    | [] => some (s.goto h k)
    | p :: rest => some ((s.setQueue wl rest).goto h (wakeUp p ++ .unblockAll wl :: k))
  | .wake p => do
    let pr ← s.pcbtable p
    if pr.state = .block ∧ p ≠ (s.cpu h).proc then
      return (s.setProc p { pr with state := .ready }).goto h k
    else none
  | .timeLoop => some (s.goto h k)
  | .pqPop p => some ((s.setQueue sleepQueue ((s.queue sleepQueue).erase p)).goto h k)
  | .popV _ => some (s.goto h k)
  | .unblockSelf p => do
    let pr ← s.pcbtable p
    return (if pr.state = .block then s.setProc p { pr with state := .ready } else s).goto h k
  | .scan c i =>
    some (s.goto h (if i < NPROC then acquire (.pcb i) ++ [.pick c i] else [.scan c 1]))
  | .pick c i => some (execPick s h c i)
  | .idle c =>
    some ({ s with cpus := update s.cpus c { s.cpus c with proc := FIRST_PROC } }.goto h k)
  | .sret p => some (s.setRegs h { s.regs h with sie := true, code := .user p :: k })
  | .irqBody => none
  | .user _ => none

/-! ## Steps -/

/-- What free code of the kernel calls. -/
inductive Call where
  | acquire (lk : Lock)
  | release (lk : Lock)
  | myproc
  | procUnblockAll (wl : WaitList)
  | timeWakeup
  | yield
  | procBlock (wl : WaitList)
  | sysMsleep
  | sysKill (target : Pid)
  | waitAny
  /-- The end of `allocproc`, and the end of `do_fork`. -/
  | allocproc (newpid : Pid)
  | forked (newpid : Pid)
  /-- `do_exit`: `p->state = TASK_ZOMBIE`, the parent that waits for any child, and `sched`. -/
  | zombie
  | wakeParent (parent : Pid)
  | exitSched
  /-- The end of `sys_wait4`. -/
  | reap (target : Pid)
  | usertrapret
  deriving DecidableEq, Repr

/-- What an interrupt handler may call too. -/
def Call.inHandler : Call → Bool
  | .acquire _ | .release _ | .myproc | .procUnblockAll _ | .timeWakeup => true
  | _ => false

/-- The locks of processes that a hart holds are its own. -/
def State.OwnPcbs (s : State) (h : Hart) : Prop :=
  ∀ p, s.holding h (.pcb p) = true → p = (s.cpu h).proc

def State.stateIs (s : State) (p : Pid) (st : ProcState) : Prop :=
  ∃ pr, s.pcbtable p = some pr ∧ pr.state = st

/-- The rules that callers keep.  A lock is taken once and released by who holds it; the lock of
    its own entry a process keeps from when it is a zombie.  Who gives up the hart holds the lock
    that it hands over and no other.  Lists are changed under their lock. -/
def Call.Allowed (s : State) (h : Hart) : Call → Prop
  | .acquire lk => s.holding h lk = false
  | .release lk => s.holding h lk = true ∧
      (lk = .pcb (s.cpu h).proc → (s.cpu h).proc ≠ FIRST_PROC → s.stateIs (s.cpu h).proc .running)
  | .myproc => True
  | .procUnblockAll wl => wl.lk ≠ .sleep ∧ s.holding h wl.lk = true ∧ s.OwnPcbs h
  | .timeWakeup => s.holding h .sleep = false ∧ s.OwnPcbs h
  | .yield => s.holding h (.pcb (s.cpu h).proc) = true ∧ (s.cpu h).repeat_ = 1 ∧
      s.stateIs (s.cpu h).proc .running
  | .procBlock wl => wl.lk ≠ .sleep ∧ wl.lk ≠ .pcb (s.cpu h).proc ∧ s.holding h wl.lk = true ∧
      (s.cpu h).repeat_ = 1
  | .sysMsleep => (s.cpu h).repeat_ = 0
  | .sysKill target => (s.cpu h).repeat_ = 0 ∧ target < NPROC
  | .waitAny => (s.cpu h).repeat_ = 0
  | .allocproc newpid => s.holding h (.pcb newpid) = true ∧ newpid ≠ FIRST_PROC ∧
      s.pcbtable newpid = none
  | .forked newpid => s.holding h (.pcb newpid) = true ∧ newpid ≠ (s.cpu h).proc ∧
      s.stateIs newpid .initing
  | .zombie => s.holding h (.pcb (s.cpu h).proc) = true ∧ s.stateIs (s.cpu h).proc .running
  | .wakeParent parent => s.holding h (.pcb parent) = true ∧ parent ≠ (s.cpu h).proc ∧
      ∃ pr, s.pcbtable parent = some pr
  | .exitSched => s.holding h (.pcb (s.cpu h).proc) = true ∧ (s.cpu h).repeat_ = 1 ∧
      s.stateIs (s.cpu h).proc .zombie
  | .reap target => s.holding h (.pcb target) = true ∧ target ≠ (s.cpu h).proc ∧
      s.stateIs target .zombie
  | .usertrapret => (s.cpu h).repeat_ = 0

/-- A process as `allocproc` sets it up. -/
def freshProc (p : Pid) : Proc := ⟨.initing, false, 0, forkret p⟩

/-- A call of the process `p` on hart `h`, in front of `k`. -/
def call (s : State) (h : Hart) (p : Pid) (k : List Stmt) : Call → Option State
  | .acquire lk => some (s.goto h (acquire lk ++ k))
  | .release lk => some (s.goto h (release lk ++ k))
  | .myproc => some (s.goto h (myproc ++ k))
  | .procUnblockAll wl => some (s.goto h (.unblockAll wl :: k))
  | .timeWakeup => some (s.goto h (timeWakeup ++ k))
  | .yield => some (s.goto h (yield p ++ k))
  | .procBlock wl => some (s.goto h (procBlock p wl ++ k))
  | .sysMsleep => some (s.goto h (sysMsleep p ++ k))
  | .sysKill target =>
    -- `pcbtable[0]` is the process of an idle hart, which has no entry here
    some (if target = FIRST_PROC ∨ (s.pcbtable target).isSome then
      s.goto h (sysKill p target ++ k) else s)
  | .waitAny => some (s.goto h (waitAny p ++ k))
  | .allocproc newpid => some (s.setProc newpid (freshProc newpid))
  | .forked newpid => do
    let pr ← s.pcbtable newpid
    return s.setProc newpid { pr with state := .ready }
  | .zombie => do
    let pr ← s.pcbtable p
    return s.setProc p { pr with state := .zombie }
  | .wakeParent parent => do
    let pr ← s.pcbtable parent
    return if pr.w4child then s.setProc parent { pr with state := .ready } else s
  | .exitSched => some (s.goto h ([.sched, .bug] ++ k))
  | .reap target => some { s with pcbtable := update s.pcbtable target none }
  | .usertrapret => some (s.goto h (usertrapret p ++ k))

/-- What happens next on a hart: its next statement, the loop of `time_wakeup` with an entry that
    is due, `priority_queue_pop_v` with the entry it is after, a call of free code, an interrupt in
    the kernel, the end of its handler, or a trap from user space. -/
inductive Input where
  | step (h : Hart)
  | due (h : Hart) (p : Pid)
  | popped (h : Hart) (p : Pid)
  | call (h : Hart) (c : Call)
  | interrupt (h : Hart)
  | handled (h : Hart)
  | trap (h : Hart)
  deriving DecidableEq, Repr

/-- Free code: that of a process, or of an interrupt handler. -/
def Free (s : State) (h : Hart) (c : Call) : List Stmt → Prop
  | [] => (s.cpu h).proc ≠ FIRST_PROC
  | .irqBody :: _ => c.inHandler = true
  | _ => False

def Enabled (s : State) : Input → Prop
  | .step h => ∃ st k, (s.regs h).code = st :: k ∧ st ≠ .irqBody ∧ ∀ p, st ≠ .user p
  | .due h p => (∃ k, (s.regs h).code = .timeLoop :: k) ∧ p ∈ s.queue sleepQueue
  | .popped h p => (∃ k, (s.regs h).code = .popV p :: k) ∧ p ∈ s.queue sleepQueue
  | .call h c => Free s h c (s.regs h).code ∧ c.Allowed s h
  | .interrupt h => (s.regs h).sie = true ∧ ∀ p k, (s.regs h).code ≠ .user p :: k
  | .handled h => (∃ k, (s.regs h).code = .irqBody :: k) ∧ (s.cpu h).repeat_ = 0
  | .trap h => ∃ p, (s.regs h).code = [.user p]

def next (s : State) : Input → Option State
  | .step h =>
    match (s.regs h).code with
    | [] => none
    | st :: k => exec s h k st
  | .due h p =>
    some (s.goto h (wakeUp p ++ .pqPop p :: (s.regs h).code))
  | .popped h p =>
    some ((s.setQueue sleepQueue ((s.queue sleepQueue).erase p)).goto h (s.regs h).code.tail)
  | .call h c => call s h (s.cpu h).proc (s.regs h).code c
  | .interrupt h =>
    some (s.setRegs h { s.regs h with sie := false, code := .irqBody :: (s.regs h).code })
  | .handled h => some (s.setRegs h { s.regs h with sie := true, code := (s.regs h).code.tail })
  | .trap h =>
    match (s.regs h).code with
    | .user p :: _ => do
      let pr ← s.pcbtable p
      return s.setRegs h ⟨pr.host, false, usertrapHandler⟩
    | _ => none

def Step (s : State) (i : Input) (s' : State) : Prop := Enabled s i ∧ next s i = some s'

/-- After `kernel_start`: the harts are in `scheduler`, and there is the process of `user_init`. -/
def start : State where
  cpus := fun _ => ⟨FIRST_PROC, [], 0, false⟩
  regs := fun h => ⟨h, true, [.scan h 1]⟩
  lock := fun _ => ⟨false, none⟩
  pcbtable := fun p => if p = INIT_PROC then some ⟨.ready, false, 0, forkret INIT_PROC⟩ else none
  queue := fun _ => []

end Uniks.Sched
