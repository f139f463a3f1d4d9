/-
  The process tree: `fork`, `exit` and `wait4` of `kernel/process/proc.c` and
  `kernel/sys/sysproc.c`.

  `pcbtable` holds the processes; its entry 0 belongs to the idle loop of the scheduler, which is
  no process, and stays empty here.  A list node is the pid of the process it is embedded in.
  What the kernel does under `wait_lock` is one step, and so is a scan that ends in blocking: the
  process keeps in `pc` where it will go on.  A pointer to a process that has been reaped is
  `dangling`; what happens when it is followed is not determined.  `none` stands for a failed
  assertion, or for following the list node of a process that is gone.
-/
import Uniks.Queue

namespace Uniks.Proc

open Uniks.Queue

abbrev NPROC : Nat := 64

abbrev Pid := Fin NPROC

/-- The entry `INIT_PROC`. -/
def INIT : Pid := 1

/-- The states of a process here: `ready` is any of `TASK_READY` and `TASK_RUNNING`. -/
inductive TaskState where
  | block
  | ready
  | zombie
  deriving DecidableEq, Repr

/-- Where a process goes on: in user space, in the loop of `wait4(-1)`, in the loop of `wait4(pid)`
    with its pointer `target_p`, or in that loop with a pointer to freed memory. -/
inductive Pc where
  | user
  | waitAny
  | waitPid (target : Pid)
  | dangling
  deriving DecidableEq, Repr

/-- The fields of `struct proc_t` that the tree depends on. -/
structure Pcb where
  parentpid : Pid
  state : TaskState
  killed : Bool
  w4child : Bool
  exitstate : Int
  waitList : List Pid
  childList : List Pid
  pc : Pc
  deriving DecidableEq, Repr

/-- The process table and the queue of free pids. -/
structure Kernel where
  pcbtable : Pid → Option Pcb
  pidsQueue : QueueMeta Pid

/-- Store one process. -/
def Kernel.set (k : Kernel) (p : Pid) (pcb : Pcb) : Kernel :=
  { k with pcbtable := Function.update k.pcbtable p (some pcb) }

@[simp] theorem Kernel.set_pcbtable (k : Kernel) (p : Pid) (pcb : Pcb) :
    (k.set p pcb).pcbtable = Function.update k.pcbtable p (some pcb) := rfl

/-! ## Fork -/

/-- A process as `allocproc` and `do_fork` set it up. -/
def freshPcb (parentpid : Pid) : Pcb :=
  { parentpid := parentpid, state := .ready, killed := false, w4child := false, exitstate := 0,
    waitList := [], childList := [], pc := .user }

/-- The source's `do_fork`; without a free pid it returns -1. -/
def doFork (k : Kernel) (p : Pid) : Option Kernel := do
  let pcb ← k.pcbtable p
  if queueEmpty k.pidsQueue then return k
  else
    let newpid := queueFront k.pidsQueue
    let pidsQueue ← queueFrontPop k.pidsQueue
    let k := { k with pidsQueue := pidsQueue }.set newpid (freshPcb p)
    return k.set p { pcb with childList := newpid :: pcb.childList }

/-! ## Exit -/

/-- The loop of `reparent`; the list is the part of `child_list` that is left. -/
def reparentLoop (p : Pid) : List Pid → Kernel → Option Kernel
  | [], k => some k
  | c :: cs, k => do
    let pcb ← k.pcbtable p
    let k := k.set p { pcb with childList := cs }
    let child ← k.pcbtable c
    if child.parentpid = p then
      let init ← k.pcbtable INIT
      let k := k.set INIT { init with
        childList := c :: init.childList
        state := if init.w4child then .ready else init.state }
      let k := k.set c { child with parentpid := INIT }
      reparentLoop p cs k
    else none

/-- The source's `reparent`. -/
def reparent (k : Kernel) (p : Pid) : Option Kernel := do
  let pcb ← k.pcbtable p
  reparentLoop p pcb.childList k

/-- The source's `proc_unblock_all` on the processes of a wait list. -/
def unblockAll : List Pid → Kernel → Option Kernel
  | [], k => some k
  | w :: ws, k => do
    let pcb ← k.pcbtable w
    if pcb.state = .block then unblockAll ws (k.set w { pcb with state := .ready }) else none

/-- The end of `do_exit`: whoever waits for the process is woken, or else its parent if it waits
    for a child. -/
def exitWake (k : Kernel) (p : Pid) : Option Kernel := do
  let pcb ← k.pcbtable p
  let k ← unblockAll pcb.waitList (k.set p { pcb with waitList := [] })
  if pcb.waitList.isEmpty then
    let parentp ← k.pcbtable pcb.parentpid
    if parentp.w4child then return k.set pcb.parentpid { parentp with state := .ready }
    else return k
  else return k

/-- The source's `do_exit`: the idle loop and the first process never exit. -/
def doExit (k : Kernel) (p : Pid) (status : Int) : Option Kernel := do
  if 1 < (p : Nat) then
    let k ← reparent k p
    let pcb ← k.pcbtable p
    exitWake (k.set p { pcb with exitstate := status, state := .zombie }) p
  else none

/-! ## Wait -/

/-- The scan of `wait4(-1)` over the children. -/
def findZombie (k : Kernel) (p : Pid) : List Pid → Option (Option Pid)
  | [] => some none
  | c :: cs => do
    let child ← k.pcbtable c
    if child.parentpid = p then
      if child.state = .zombie then return some c else findZombie k p cs
    else none

/-- A process whose pointer `target_p` leads to the process `c` that is being freed. -/
def dangle (c : Pid) (pcb : Pcb) : Pcb :=
  if pcb.pc = .waitPid c then { pcb with pc := .dangling } else pcb

/-- The end of `wait4`: the pid and the page of the zombie are freed. -/
def reap (k : Kernel) (c : Pid) : Option Kernel := do
  let pidsQueue ← queuePush k.pidsQueue c
  return { pcbtable := Function.update (fun p => (k.pcbtable p).map (dangle c)) c none,
           pidsQueue := pidsQueue }

/-- One round of `wait4(-1)`.  `statusOk` says that the status address is 0 or is admitted. -/
def waitAny (k : Kernel) (p : Pid) (statusOk : Bool) : Option Kernel := do
  let pcb ← k.pcbtable p
  let found ← findZombie k p pcb.childList
  match found with
  | some c =>
    -- the zombie leaves the list before anything else is checked
    let k := k.set p { pcb with childList := pcb.childList.erase c, pc := .user }
    if pcb.killed then return k
    else if statusOk then reap k c
    else return k
  | none =>
    if pcb.childList.isEmpty || pcb.killed then return k.set p { pcb with pc := .user }
    else return k.set p { pcb with w4child := true, state := .block, pc := .waitAny }

/-- One round of `wait4(pid)` on a process that is there. -/
def waitPid (k : Kernel) (p target : Pid) (statusOk : Bool) : Option Kernel := do
  let targetp ← k.pcbtable target
  if targetp.state = .zombie then
    let pcb ← k.pcbtable p
    let k := k.set p { pcb with pc := .user }
    if statusOk then reap k target else return k
  else
    let k := k.set target { targetp with waitList := p :: targetp.waitList }
    let pcb ← k.pcbtable p
    return k.set p { pcb with state := .block, pc := .waitPid target }

/-- The source's `sys_wait4` with a pid. -/
def sysWait4 (k : Kernel) (p target : Pid) (statusOk : Bool) : Option Kernel :=
  if target = p then some k
  else if (k.pcbtable target).isNone then some k
  else waitPid k p target statusOk

/-- A process that was woken in `wait4` goes on. -/
def resume (k : Kernel) (p : Pid) (statusOk : Bool) : Option Kernel := do
  let pcb ← k.pcbtable p
  match pcb.pc with
  | .waitAny => waitAny (k.set p { pcb with w4child := false }) p statusOk
  | .waitPid target => waitPid k p target statusOk
  | _ => none

/-- The first process or a page fault marks itself killed. -/
def setkilled (k : Kernel) (p : Pid) : Option Kernel := do
  let pcb ← k.pcbtable p
  return k.set p { pcb with killed := true }

/-! ## The system -/

/-- What a process does. -/
inductive Act where
  | fork
  | exit (status : Int)
  | waitAny (statusOk : Bool)
  | waitPid (target : Pid) (statusOk : Bool)
  | resume (statusOk : Bool)
  | setkilled

/-- The process `p` is there, may run, and stands at `pc`. -/
def RunsAt (k : Kernel) (p : Pid) (pc : Pc) : Prop :=
  ∃ pcb, k.pcbtable p = some pcb ∧ pcb.state = .ready ∧ pcb.pc = pc

/-- One step: a process in user space makes a call, or a process in `wait4` goes on. -/
inductive Step (k : Kernel) : Pid × Act → Kernel → Prop
  | fork {p : Pid} {k' : Kernel} (hrun : RunsAt k p .user) (h : doFork k p = some k') :
      Step k (p, .fork) k'
  | exit {p : Pid} {status : Int} {k' : Kernel} (hrun : RunsAt k p .user)
      (h : doExit k p status = some k') : Step k (p, .exit status) k'
  | waitAny {p : Pid} {statusOk : Bool} {k' : Kernel} (hrun : RunsAt k p .user)
      (h : Proc.waitAny k p statusOk = some k') : Step k (p, .waitAny statusOk) k'
  | waitPid {p target : Pid} {statusOk : Bool} {k' : Kernel} (hrun : RunsAt k p .user)
      (h : sysWait4 k p target statusOk = some k') : Step k (p, .waitPid target statusOk) k'
  | resumeAny {p : Pid} {statusOk : Bool} {k' : Kernel} (hrun : RunsAt k p .waitAny)
      (h : Proc.resume k p statusOk = some k') : Step k (p, .resume statusOk) k'
  | resumePid {p target : Pid} {statusOk : Bool} {k' : Kernel} (hrun : RunsAt k p (.waitPid target))
      (h : Proc.resume k p statusOk = some k') : Step k (p, .resume statusOk) k'
  /-- A pointer to freed memory is followed: anything may happen. -/
  | resumeDangling {p : Pid} {statusOk : Bool} {k' : Kernel} (hrun : RunsAt k p .dangling) :
      Step k (p, .resume statusOk) k'
  | setkilled {p : Pid} {k' : Kernel} (hrun : RunsAt k p .user) (h : Proc.setkilled k p = some k') :
      Step k (p, .setkilled) k'

/-- The state in which the first process enters user space: the pids from 1 on were put into the
    queue in order, and the first process has taken the front one. -/
structure Booted (k : Kernel) : Prop where
  queue : ∃ heap q₀ q₁, queueInit NPROC heap = some q₀ ∧
    pushAll (List.finRange NPROC).tail q₀ = some q₁ ∧ queueFrontPop q₁ = some k.pidsQueue
  init : k.pcbtable = Function.update (fun _ => none) INIT (some (freshPcb 0))

/-- The queue of pids in that state. -/
def bootPids : Option (QueueMeta Pid) :=
  (queueInit NPROC fun _ => INIT).bind fun q =>
    (pushAll (List.finRange NPROC).tail q).bind queueFrontPop

theorem bootPids_isSome : bootPids.isSome := by decide +kernel

theorem bootPids_queue : ∃ heap q₀ q₁, queueInit NPROC heap = some q₀ ∧
    pushAll (List.finRange NPROC).tail q₀ = some q₁ ∧
      queueFrontPop q₁ = some (bootPids.get bootPids_isSome) := by
  have h : bootPids = some (bootPids.get bootPids_isSome) := (Option.some_get _).symm
  unfold bootPids at h
  obtain ⟨q₀, hinit, h⟩ := Option.bind_eq_some_iff.mp h
  obtain ⟨q₁, hall, hpop⟩ := Option.bind_eq_some_iff.mp h
  exact ⟨_, q₀, q₁, hinit, hall, hpop⟩

/-- The pids from 2 on are in the queue. -/
theorem holds_of_boot {q : QueueMeta Pid} (h : ∃ heap q₀ q₁, queueInit NPROC heap = some q₀ ∧
    pushAll (List.finRange NPROC).tail q₀ = some q₁ ∧ queueFrontPop q₁ = some q) :
    Holds q (List.finRange NPROC).tail.tail := by
  obtain ⟨heap, q₀, q₁, hinit, hall, hpop⟩ := h
  have hcap : q₀.queueCapacity = NPROC := by
    rw [queueInit, if_pos (by decide)] at hinit
    cases hinit
    rfl
  obtain ⟨q', hall', hholds, -⟩ := (holds_queueInit hinit).pushAll (List.finRange NPROC).tail
    (by rw [hcap]; decide)
  cases hall.symm.trans hall'
  rw [List.nil_append] at hholds
  have hcons : (List.finRange NPROC).tail = INIT :: (List.finRange NPROC).tail.tail := rfl
  rw [hcons] at hholds
  exact (hholds.frontPop hpop).1

end Uniks.Proc
