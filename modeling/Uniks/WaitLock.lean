/-
  `fork`, `exit` and `wait4` at the granularity of lock operations.

  `Uniks.Proc` has each call as one step.  Here a step is one operation on `wait_lock` or on an
  entry of `pcblock` together with the code up to the next one, so that several processes may be in
  the middle of these calls at once, on several harts.  A process keeps in `Pc` where it is; the
  lock it takes next (`wants`) and the locks it holds there (`held`) can be told from that alone.
  `freepid` ends with a release of `pid_lock`, and is a step of its own.  The scheduler releases
  the lock a process holds when it calls `sched`, and takes it again to resume the process.

  A process is the object its `struct proc_t` and kernel stack make, numbered in the order of
  allocation.  An object that has been freed stays readable as long as its page is not used again
  (`intact`); what a process does that follows a pointer to one that is not is not determined.
  Nobody is killed, and pids are below `NPROC`.  `none` stands for a failed assertion or a `NULL`
  pointer that is followed, and for a lock that is not free.
-/
import Uniks.Lib.Runs
import Uniks.Proc

namespace Uniks.WaitLock

open Uniks.Queue Uniks.Runs
open Uniks.Proc (NPROC Pid INIT)
open Function (update)

/-- A `struct proc_t` with its kernel stack. -/
abbrev Obj := Nat

/-- The source's `proc_state`; `ready` is any of `TASK_READY` and `TASK_RUNNING`. -/
inductive TaskState where
  | initing
  | block
  | ready
  | zombie
  deriving DecidableEq, Repr

/-- The fields of `struct proc_t` these calls use. -/
structure Pcb where
  pid : Pid
  parentpid : Pid
  state : TaskState
  w4child : Bool
  waitList : List Obj
  childList : List Obj
  deriving DecidableEq, Repr

inductive Lock where
  | wait
  | pcb (p : Pid)
  deriving DecidableEq, Repr

/-- Where a process is: the lock operation it does next, and its local variables.  A pid behind a
    pointer is that of the object, read when the lock was chosen. -/
inductive Pc where
  | user
  /-- A new process, before and after its first `release` in `forkret`. -/
  | start
  | startRel
  | forkLock (newpid : Pid)
  | forkLink (newpid : Pid) (child : Obj)
  | forkRelWait (newpid : Pid) (child : Obj)
  | forkReady (newpid : Pid) (child : Obj)
  | exitBegin
  | exitInit (childp : Obj)
  | exitChild (childp : Obj) (pid : Pid)
  | exitRelChild (pid : Pid)
  | exitRelInit
  | exitSelf
  | exitWake (num : Nat) (p : Obj) (pid : Pid)
  | exitRelWake (num : Nat) (pid : Pid)
  | exitParent (parentp : Obj) (pid : Pid)
  | exitRelParent (pid : Pid)
  | exitRelWait
  | exitSched
  | anyBegin
  | anyFail
  | anyScan (childp : Obj) (pid : Pid) (rest : List Obj)
  | anyRelChild (pid : Pid) (rest : List Obj)
  | anyKilled
  | anyRelKilled
  | anyRelWait
  | anyBlock
  | anySched
  | anyAsleep
  | anyWoken
  | foundKilled (targetPid : Pid) (targetp : Obj)
  | foundRelKilled (targetPid : Pid) (targetp : Obj)
  | pidBegin (targetPid : Pid)
  | pidFail (targetPid : Pid)
  | pidBlock (targetPid : Pid) (targetp : Obj)
  | pidRelTarget (targetPid : Pid) (targetp : Obj)
  | pidSched (targetPid : Pid) (targetp : Obj)
  | pidAsleep (targetPid : Pid) (targetp : Obj)
  | pidWoken (targetPid : Pid) (targetp : Obj)
  | pidRelock (targetPid : Pid) (targetp : Obj)
  | pidWait (targetPid : Pid) (targetp : Obj)
  | reap (targetPid : Pid) (targetp : Obj)
  | reapFree (targetPid : Pid) (targetp : Obj)
  | reapRelWait (targetPid : Pid)
  | reapRelPcb (targetPid : Pid)
  deriving DecidableEq

/-- The locks a process with the pid `p` holds. -/
def Pc.held (p : Pid) : Pc → List Lock
  | .forkLink c _ | .forkReady c _ => [.pcb c]
  | .forkRelWait c _ => [.wait, .pcb c]
  | .exitInit _ | .exitSelf => [.wait]
  | .exitChild _ _ | .exitRelInit => [.pcb INIT, .wait]
  | .exitRelChild c => [.pcb c, .pcb INIT, .wait]
  | .exitWake _ _ _ | .exitParent _ _ | .exitRelWait => [.pcb p, .wait]
  | .exitRelWake _ w => [.pcb w, .pcb p, .wait]
  | .exitRelParent parent => [.pcb parent, .pcb p, .wait]
  | .startRel | .exitSched | .anySched | .anyWoken => [.pcb p]
  | .anyFail | .anyScan _ _ _ | .anyKilled | .anyRelWait => [.wait]
  | .anyRelChild c _ => [.pcb c, .wait]
  | .anyRelKilled => [.pcb p, .wait]
  | .foundKilled t _ => [.pcb t, .wait]
  | .foundRelKilled t _ => [.pcb p, .pcb t, .wait]
  | .pidFail t | .pidBlock t _ | .pidWait t _ | .reapRelPcb t => [.pcb t]
  | .pidRelTarget t _ => [.pcb p, .pcb t]
  | .pidSched _ _ | .pidWoken _ _ => [.pcb p]
  | .reap t _ | .reapFree t _ | .reapRelWait t => [.pcb t, .wait]
  | .user | .start | .forkLock _ | .exitBegin | .anyBegin | .anyBlock | .anyAsleep | .pidBegin _
  | .pidAsleep _ _ | .pidRelock _ _ => []

/-- The lock a process with the pid `p` takes next, and spins for if it is not free; for a process
    that sleeps it is the scheduler that does so. -/
def Pc.wants (p : Pid) : Pc → Option Lock
  | .start | .anyAsleep | .pidAsleep _ _ => some (.pcb p)
  | .forkLock c => some (.pcb c)
  | .forkLink _ _ | .exitBegin | .anyBegin | .pidWait _ _ => some .wait
  | .exitInit _ => some (.pcb INIT)
  | .exitChild _ c => some (.pcb c)
  | .exitSelf | .anyKilled | .anyBlock | .foundKilled _ _ | .pidBlock _ _ => some (.pcb p)
  | .exitWake _ _ w => some (.pcb w)
  | .exitParent _ parent => some (.pcb parent)
  | .anyScan _ c _ => some (.pcb c)
  | .pidBegin t | .pidRelock t _ => some (.pcb t)
  | _ => none

structure Thread where
  pid : Pid
  pc : Pc
  deriving DecidableEq

/-- The objects (contents, whether the page is allocated, whether the contents are still there, the
    number of the next one), `pcbtable`, the free pids, who holds the locks, and the processes that
    run or may run again. -/
structure Sys where
  obj : Obj → Pcb
  inUse : Obj → Bool
  intact : Obj → Bool
  fresh : Obj
  pcbtable : Pid → Option Obj
  pidsQueue : QueueMeta Pid
  lock : Lock → Option Obj
  thread : Obj → Option Thread

/-! ## Parts of a step -/

/-- The source's `acquire`, as far as it succeeds at once. -/
def Sys.acquire (s : Sys) (o : Obj) (l : Lock) : Option Sys :=
  if s.lock l = none then some { s with lock := update s.lock l (some o) } else none

/-- The source's `release`. -/
def Sys.release (s : Sys) (l : Lock) : Sys :=
  { s with lock := update s.lock l none }

def Sys.goto (s : Sys) (o : Obj) (p : Pid) (pc : Pc) : Sys :=
  { s with thread := update s.thread o (some ⟨p, pc⟩) }

/-- Store one object. -/
def Sys.setObj (s : Sys) (o : Obj) (pcb : Pcb) : Sys :=
  { s with obj := update s.obj o pcb }

/-- A process as `allocproc` sets it up. -/
def freshPcb (pid : Pid) : Pcb :=
  { pid := pid, parentpid := 0, state := .initing, w4child := false, waitList := [],
    childList := [] }

/-- The END of `allocproc`: the entry of `pcbtable`, and the new process, which will begin in
    `forkret`. -/
def Sys.allocproc (s : Sys) (newpid : Pid) : Sys :=
  { s with
    obj := update s.obj s.fresh (freshPcb newpid)
    inUse := update s.inUse s.fresh true
    intact := update s.intact s.fresh true
    fresh := s.fresh + 1
    pcbtable := update s.pcbtable newpid (some s.fresh)
    thread := update s.thread s.fresh (some ⟨newpid, .start⟩) }

/-- The loop of `reparent` up to its next lock. -/
def exitLoop (s : Sys) (o : Obj) (p : Pid) : Option Sys :=
  match (s.obj o).childList with
  | [] => some (s.goto o p .exitSelf)
  | c :: cs =>
    if (s.obj c).parentpid = p then
      some ((s.setObj o { s.obj o with childList := cs }).goto o p (.exitInit c))
    else none

/-- The loop of `proc_unblock_all` up to its next lock, and what follows it in `do_exit`. -/
def exitUnblock (s : Sys) (o : Obj) (p : Pid) (num : Nat) : Option Sys :=
  match (s.obj o).waitList with
  | w :: ws =>
    some ((s.setObj o { s.obj o with waitList := ws }).goto o p (.exitWake num w (s.obj w).pid))
  | [] =>
    if num = 0 then
      match s.pcbtable (s.obj o).parentpid with
      | some parentp => some (s.goto o p (.exitParent parentp (s.obj parentp).pid))
      | none => none
    else some (s.goto o p .exitRelWait)

/-- The loop of `wait4(pid)` up to its next lock. -/
def pidLoop (s : Sys) (o : Obj) (p t : Pid) (targetp : Obj) : Sys :=
  if (s.obj targetp).state = .zombie then s.goto o p (.pidWait t targetp)
  else s.goto o p (.pidBlock t targetp)

/-- The loop of `wait4(-1)` over the children up to its next lock. -/
def anyLoop (s : Sys) (o : Obj) (p : Pid) : List Obj → Sys
  | [] => s.goto o p .anyKilled
  | c :: cs => s.goto o p (.anyScan c (s.obj c).pid cs)

/-! ## Steps -/

/-- What a process in user space calls. -/
inductive Call where
  | fork
  | exit
  | waitAny
  | waitPid (targetPid : Pid)
  deriving DecidableEq, Repr

/-- The code of a call in front of its first lock.  `allocpid` has a lock of its own and is here. -/
def begin (s : Sys) (o : Obj) (p : Pid) : Call → Option Sys
  | .fork =>
    if queueEmpty s.pidsQueue then some s
    else do
      let newpid := queueFront s.pidsQueue
      let pidsQueue ← queueFrontPop s.pidsQueue
      return { s with pidsQueue := pidsQueue }.goto o p (.forkLock newpid)
  | .exit => if 1 < (p : Nat) then some (s.goto o p .exitBegin) else none
  | .waitAny => some (s.goto o p .anyBegin)
  | .waitPid t => if t = p then some s else if 0 < (t : Nat) then some (s.goto o p (.pidBegin t)) else none

/-- One step in the middle of a call.  `statusOk` says that the status address of `wait4` is 0 or
    is admitted. -/
def advance (s : Sys) (o : Obj) (p : Pid) (statusOk : Bool) : Pc → Option Sys
  | .user => none
  | .start =>
    if (s.obj o).state = .ready then do
      let s ← s.acquire o (.pcb p)
      return s.goto o p .startRel
    else none
  | .startRel => some ((s.release (.pcb p)).goto o p .user)
  -- do_fork
  | .forkLock c => do
    let s ← s.acquire o (.pcb c)
    return (s.allocproc c).goto o p (.forkLink c s.fresh)
  | .forkLink c child => do
    let s ← s.acquire o .wait
    let s := s.setObj child { s.obj child with parentpid := p }
    return (s.setObj o { s.obj o with childList := child :: (s.obj o).childList }).goto o p
      (.forkRelWait c child)
  | .forkRelWait c child => some ((s.release .wait).goto o p (.forkReady c child))
  | .forkReady c child =>
    some (((s.setObj child { s.obj child with state := .ready }).release (.pcb c)).goto o p .user)
  -- do_exit
  | .exitBegin => do
    let s ← s.acquire o .wait
    exitLoop s o p
  | .exitInit c => do
    let s ← s.acquire o (.pcb INIT)
    return s.goto o p (.exitChild c (s.obj c).pid)
  | .exitChild c cp => do
    let s ← s.acquire o (.pcb cp)
    let init ← s.pcbtable INIT
    let s := s.setObj init { s.obj init with childList := c :: (s.obj init).childList }
    return (s.setObj c { s.obj c with parentpid := INIT }).goto o p (.exitRelChild cp)
  | .exitRelChild cp => do
    let s := s.release (.pcb cp)
    let init ← s.pcbtable INIT
    if (s.obj init).w4child then
      return (s.setObj init { s.obj init with state := .ready }).goto o p .exitRelInit
    else return s.goto o p .exitRelInit
  | .exitRelInit => exitLoop (s.release (.pcb INIT)) o p
  | .exitSelf => do
    let s ← s.acquire o (.pcb p)
    exitUnblock (s.setObj o { s.obj o with state := .zombie }) o p 0
  | .exitWake num w wp => do
    let s ← s.acquire o (.pcb wp)
    if (s.obj w).state = .block then
      return (s.setObj w { s.obj w with state := .ready }).goto o p (.exitRelWake (num + 1) wp)
    else none
  | .exitRelWake num wp => exitUnblock (s.release (.pcb wp)) o p num
  | .exitParent parentp pp => do
    let s ← s.acquire o (.pcb pp)
    if (s.obj o).parentpid = (s.obj parentp).pid then
      if (s.obj parentp).w4child then
        return (s.setObj parentp { s.obj parentp with state := .ready }).goto o p
          (.exitRelParent pp)
      else return s.goto o p (.exitRelParent pp)
    else none
  | .exitRelParent pp => some ((s.release (.pcb pp)).goto o p .exitRelWait)
  | .exitRelWait => some ((s.release .wait).goto o p .exitSched)
  | .exitSched =>
    let s := s.release (.pcb p)
    some { s with thread := update s.thread o none }
  -- sys_wait4 with -1
  | .anyBegin => do
    let s ← s.acquire o .wait
    match (s.obj o).childList with
    | [] => return s.goto o p .anyFail
    | c :: cs => return anyLoop s o p (c :: cs)
  | .anyFail => some ((s.release .wait).goto o p .user)
  | .anyScan c cp cs => do
    let s ← s.acquire o (.pcb cp)
    if (s.obj c).parentpid = p then
      if (s.obj c).state = .zombie then
        let targetp ← s.pcbtable cp
        return (s.setObj o { s.obj o with childList := (s.obj o).childList.erase c }).goto o p
          (.foundKilled cp targetp)
      else return s.goto o p (.anyRelChild cp cs)
    else none
  | .anyRelChild cp cs => some (anyLoop (s.release (.pcb cp)) o p cs)
  | .anyKilled => do
    let s ← s.acquire o (.pcb p)
    return s.goto o p .anyRelKilled
  | .anyRelKilled => some ((s.release (.pcb p)).goto o p .anyRelWait)
  | .anyRelWait => some ((s.release .wait).goto o p .anyBlock)
  | .anyBlock => do
    let s ← s.acquire o (.pcb p)
    return (s.setObj o { s.obj o with w4child := true, state := .block }).goto o p .anySched
  | .anySched => some ((s.release (.pcb p)).goto o p .anyAsleep)
  | .anyAsleep =>
    if (s.obj o).state = .ready then do
      let s ← s.acquire o (.pcb p)
      return (s.setObj o { s.obj o with w4child := false }).goto o p .anyWoken
    else none
  | .anyWoken => some ((s.release (.pcb p)).goto o p .anyBegin)
  | .foundKilled t targetp => do
    let s ← s.acquire o (.pcb p)
    return s.goto o p (.foundRelKilled t targetp)
  | .foundRelKilled t targetp => some ((s.release (.pcb p)).goto o p (.reap t targetp))
  -- sys_wait4 with a pid
  | .pidBegin t => do
    let s ← s.acquire o (.pcb t)
    match s.pcbtable t with
    | none => return s.goto o p (.pidFail t)
    | some targetp => return pidLoop s o p t targetp
  | .pidFail t => some ((s.release (.pcb t)).goto o p .user)
  | .pidBlock t targetp => do
    let s ← s.acquire o (.pcb p)
    let s := s.setObj targetp { s.obj targetp with waitList := o :: (s.obj targetp).waitList }
    return (s.setObj o { s.obj o with state := .block }).goto o p (.pidRelTarget t targetp)
  | .pidRelTarget t targetp => some ((s.release (.pcb t)).goto o p (.pidSched t targetp))
  | .pidSched t targetp => some ((s.release (.pcb p)).goto o p (.pidAsleep t targetp))
  | .pidAsleep t targetp =>
    if (s.obj o).state = .ready then do
      let s ← s.acquire o (.pcb p)
      return s.goto o p (.pidWoken t targetp)
    else none
  | .pidWoken t targetp => some ((s.release (.pcb p)).goto o p (.pidRelock t targetp))
  | .pidRelock t targetp => do
    let s ← s.acquire o (.pcb t)
    return pidLoop s o p t targetp
  | .pidWait t targetp => do
    let s ← s.acquire o .wait
    return s.goto o p (.reap t targetp)
  -- the END of sys_wait4
  | .reap t targetp =>
    if (s.obj targetp).state = .zombie then
      if statusOk then do
        let pidsQueue ← queuePush s.pidsQueue (s.obj targetp).pid
        return { s with pidsQueue := pidsQueue }.goto o p (.reapFree t targetp)
      else some (s.goto o p (.reapRelWait t))
    else none
  | .reapFree t targetp =>
    if s.inUse targetp then
      some ({ s with inUse := update s.inUse targetp false
                     pcbtable := update s.pcbtable t none }.goto o p (.reapRelWait t))
    else none
  | .reapRelWait t => some ((s.release .wait).goto o p (.reapRelPcb t))
  | .reapRelPcb t => some ((s.release (.pcb t)).goto o p .user)

/-- The objects whose memory a step reads or writes, but for the process itself; a list is changed
    in the node next to the place. -/
def touched (s : Sys) (o : Obj) : Pc → List Obj
  | .forkLink _ _ | .exitBegin | .exitRelInit | .anyBegin => (s.obj o).childList
  | .exitInit c => [c]
  | .exitChild c _ => c :: ((s.pcbtable INIT).map fun init => (s.obj init).childList).getD []
  | .exitSelf | .exitRelWake _ _ => (s.obj o).waitList
  | .exitWake _ w _ => [w]
  | .exitParent parentp _ => [parentp]
  | .anyScan c _ _ => c :: (s.obj o).childList
  | .anyRelChild _ cs => cs
  | .pidBlock _ targetp => targetp :: (s.obj targetp).waitList
  | .pidRelock _ targetp | .reap _ targetp | .reapFree _ targetp => [targetp]
  | _ => []

/-- What happens next: a process in user space makes a call, a process in a call goes on, or the
    page of an object that has been freed is used for something else. -/
inductive Input where
  | call (o : Obj) (c : Call)
  | run (o : Obj) (statusOk : Bool)
  | reuse (o : Obj)

/-- One step. -/
inductive Step (s : Sys) : Input → Sys → Prop
  | call {o : Obj} {p : Pid} {c : Call} {s' : Sys} (hat : s.thread o = some ⟨p, .user⟩)
      (h : begin s o p c = some s') : Step s (.call o c) s'
  | run {o : Obj} {p : Pid} {pc : Pc} {statusOk : Bool} {s' : Sys}
      (hat : s.thread o = some ⟨p, pc⟩) (hintact : ∀ c ∈ touched s o pc, s.intact c = true)
      (h : advance s o p statusOk pc = some s') : Step s (.run o statusOk) s'
  /-- Memory that is in use for something else is taken for an object: anything may happen. -/
  | wild {o : Obj} {p : Pid} {pc : Pc} {statusOk : Bool} {s' : Sys}
      (hat : s.thread o = some ⟨p, pc⟩) (hlost : ∃ c ∈ touched s o pc, s.intact c = false) :
      Step s (.run o statusOk) s'
  | reuse {o : Obj} (hfree : s.inUse o = false) :
      Step s (.reuse o) { s with intact := update s.intact o false }

/-- The step an input leads to, if it is determined. -/
def runStep (s : Sys) : Input → Option Sys
  | .call o c =>
    match s.thread o with
    | some ⟨p, .user⟩ => begin s o p c
    | _ => none
  | .run o statusOk =>
    match s.thread o with
    | some ⟨p, pc⟩ =>
      if (touched s o pc).all s.intact then advance s o p statusOk pc else none
    | none => none
  | .reuse o =>
    if s.inUse o then none else some { s with intact := update s.intact o false }

theorem runStep_sound (s : Sys) (i : Input) (s' : Sys) (h : runStep s i = some s') : Step s i s' := by
  cases i with
  | call o c =>
    rw [runStep] at h
    split at h
    · rename_i p hat
      exact .call hat h
    · cases h
  | run o statusOk =>
    rw [runStep] at h
    split at h
    · rename_i p pc hat
      split at h
      · rename_i hall
        exact .run hat (List.all_eq_true.mp hall) h
      · cases h
    · cases h
  | reuse o =>
    rw [runStep] at h
    split at h
    · cases h
    · rename_i hfree
      rw [Bool.not_eq_true] at hfree
      cases h
      exact .reuse hfree

/-- The state in which the first process enters user space. -/
structure Booted (s : Sys) : Prop where
  queue : ∃ heap q₀ q₁, queueInit NPROC heap = some q₀ ∧
    pushAll (List.finRange NPROC).tail q₀ = some q₁ ∧ queueFrontPop q₁ = some s.pidsQueue
  fresh : s.fresh = 1
  obj : s.obj 0 = { freshPcb INIT with state := .ready }
  inUse : s.inUse = update (fun _ => false) 0 true
  intact : s.intact 0 = true
  pcbtable : s.pcbtable = update (fun _ => none) INIT (some 0)
  lock : s.lock = fun _ => none
  thread : s.thread = update (fun _ => none) 0 (some ⟨INIT, .user⟩)

end Uniks.WaitLock
