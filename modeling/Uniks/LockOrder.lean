/-
  Who holds the locks, and when two processes can wait for each other.

  `advance_effect` says once what a step does to the locks: it takes the one lock that `wants` names,
  or gives one back, or neither, and `held` changes along.  From this the locks and the places of
  the processes agree (`LocksHeld`) in every state a run reaches.

  The rule at `wait_lock` is that it is acquired before any process lock.  Everybody but `wait4` with
  a pid keeps to it: a process that holds a lock and takes another one holds `wait_lock`, and so
  there is only one such process at a time.  `wait4` with a pid takes its own lock, and `wait_lock`,
  while it holds that of the process it waits for.
-/
import Uniks.Lib.Runs
import Uniks.WaitLock

namespace Uniks.WaitLock

open Uniks.Queue Uniks.Runs
open Uniks.Proc (NPROC Pid INIT)
open Function (update update_self update_of_ne update_eq_self)
open Option (some bind_eq_some_iff)

variable {s s' : Sys} {o : Obj} {p : Pid} {pc : Pc}

/-! ## What a step does to the locks -/

theorem acquire_eq_some {l : Lock} (h : s.acquire o l = some s') :
    s.lock l = none ∧ s' = { s with lock := update s.lock l (some o) } := by
  unfold Sys.acquire at h
  split at h
  · rename_i hfree
    exact ⟨hfree, (some.inj h).symm⟩
  · cases h

/-- The process `o` has just taken the lock `l`. -/
abbrev Sys.locked (s : Sys) (o : Obj) (l : Lock) : Sys :=
  { s with lock := update s.lock l (some o) }

/-- The branches of `advance`, each with what it has tested and the state it leaves. -/
inductive Advances (s : Sys) (o : Obj) (p : Pid) (statusOk : Bool) : Pc → Sys → Prop
  | start (hready : (s.obj o).state = .ready) (hfree : s.lock (.pcb p) = none) :
      Advances s o p statusOk .start ((s.locked o (.pcb p)).goto o p .startRel)
  | startRel : Advances s o p statusOk .startRel ((s.release (.pcb p)).goto o p .user)
  -- do_fork
  | forkLock {c : Pid} (hfree : s.lock (.pcb c) = none) :
      Advances s o p statusOk (.forkLock c)
        (((s.locked o (.pcb c)).allocproc c).goto o p (.forkLink c s.fresh))
  | forkLink {c : Pid} {ch : Obj} {s₁ : Sys} (hfree : s.lock .wait = none)
      (hs₁ : s₁ = (s.locked o .wait).setObj ch { s.obj ch with parentpid := p }) :
      Advances s o p statusOk (.forkLink c ch)
        ((s₁.setObj o { s₁.obj o with childList := ch :: (s₁.obj o).childList }).goto o p
          (.forkRelWait c ch))
  | forkRelWait {c : Pid} {ch : Obj} :
      Advances s o p statusOk (.forkRelWait c ch) ((s.release .wait).goto o p (.forkReady c ch))
  | forkReady {c : Pid} {ch : Obj} :
      Advances s o p statusOk (.forkReady c ch)
        (((s.setObj ch { s.obj ch with state := .ready }).release (.pcb c)).goto o p .user)
  -- do_exit
  | exitBegin {s' : Sys} (hfree : s.lock .wait = none)
      (hloop : exitLoop (s.locked o .wait) o p = some s') : Advances s o p statusOk .exitBegin s'
  | exitInit {c : Obj} (hfree : s.lock (.pcb INIT) = none) :
      Advances s o p statusOk (.exitInit c)
        ((s.locked o (.pcb INIT)).goto o p (.exitChild c (s.obj c).pid))
  | exitChild {c init : Obj} {cp : Pid} {s₁ : Sys} (hfree : s.lock (.pcb cp) = none)
      (hinit : s.pcbtable INIT = some init)
      (hs₁ : s₁ = (s.locked o (.pcb cp)).setObj init
        { s.obj init with childList := c :: (s.obj init).childList }) :
      Advances s o p statusOk (.exitChild c cp)
        ((s₁.setObj c { s₁.obj c with parentpid := INIT }).goto o p (.exitRelChild cp))
  | exitRelChildWake {cp : Pid} {init : Obj} (hinit : s.pcbtable INIT = some init)
      (hflag : (s.obj init).w4child = true) :
      Advances s o p statusOk (.exitRelChild cp)
        (((s.release (.pcb cp)).setObj init { s.obj init with state := .ready }).goto o p
          .exitRelInit)
  | exitRelChild {cp : Pid} {init : Obj} (hinit : s.pcbtable INIT = some init)
      (hflag : ¬ (s.obj init).w4child = true) :
      Advances s o p statusOk (.exitRelChild cp) ((s.release (.pcb cp)).goto o p .exitRelInit)
  | exitRelInit {s' : Sys} (hloop : exitLoop (s.release (.pcb INIT)) o p = some s') :
      Advances s o p statusOk .exitRelInit s'
  | exitSelf {s' : Sys} (hfree : s.lock (.pcb p) = none)
      (hloop : exitUnblock ((s.locked o (.pcb p)).setObj o { s.obj o with state := .zombie }) o p 0
        = some s') : Advances s o p statusOk .exitSelf s'
  | exitWake {num : Nat} {w : Obj} {wp : Pid} (hfree : s.lock (.pcb wp) = none)
      (hblock : (s.obj w).state = .block) :
      Advances s o p statusOk (.exitWake num w wp)
        (((s.locked o (.pcb wp)).setObj w { s.obj w with state := .ready }).goto o p
          (.exitRelWake (num + 1) wp))
  | exitRelWake {num : Nat} {wp : Pid} {s' : Sys}
      (hloop : exitUnblock (s.release (.pcb wp)) o p num = some s') :
      Advances s o p statusOk (.exitRelWake num wp) s'
  | exitParentWake {b : Obj} {bp : Pid} (hfree : s.lock (.pcb bp) = none)
      (hparent : (s.obj o).parentpid = (s.obj b).pid) (hflag : (s.obj b).w4child = true) :
      Advances s o p statusOk (.exitParent b bp)
        (((s.locked o (.pcb bp)).setObj b { s.obj b with state := .ready }).goto o p
          (.exitRelParent bp))
  | exitParent {b : Obj} {bp : Pid} (hfree : s.lock (.pcb bp) = none)
      (hparent : (s.obj o).parentpid = (s.obj b).pid) (hflag : ¬ (s.obj b).w4child = true) :
      Advances s o p statusOk (.exitParent b bp)
        ((s.locked o (.pcb bp)).goto o p (.exitRelParent bp))
  | exitRelParent {bp : Pid} :
      Advances s o p statusOk (.exitRelParent bp) ((s.release (.pcb bp)).goto o p .exitRelWait)
  | exitRelWait : Advances s o p statusOk .exitRelWait ((s.release .wait).goto o p .exitSched)
  | exitSched : Advances s o p statusOk .exitSched
      { s.release (.pcb p) with thread := update s.thread o none }
  -- sys_wait4 with -1
  | anyBeginNone (hfree : s.lock .wait = none) (hlist : (s.obj o).childList = []) :
      Advances s o p statusOk .anyBegin ((s.locked o .wait).goto o p .anyFail)
  | anyBegin {c : Obj} {cs : List Obj} (hfree : s.lock .wait = none)
      (hlist : (s.obj o).childList = c :: cs) :
      Advances s o p statusOk .anyBegin (anyLoop (s.locked o .wait) o p (c :: cs))
  | anyFail : Advances s o p statusOk .anyFail ((s.release .wait).goto o p .user)
  | anyScanFound {c b : Obj} {cp : Pid} {cs : List Obj} (hfree : s.lock (.pcb cp) = none)
      (hparent : (s.obj c).parentpid = p) (hz : (s.obj c).state = .zombie)
      (htarget : s.pcbtable cp = some b) :
      Advances s o p statusOk (.anyScan c cp cs)
        (((s.locked o (.pcb cp)).setObj o
          { s.obj o with childList := (s.obj o).childList.erase c }).goto o p (.foundKilled cp b))
  | anyScan {c : Obj} {cp : Pid} {cs : List Obj} (hfree : s.lock (.pcb cp) = none)
      (hparent : (s.obj c).parentpid = p) (hz : ¬ (s.obj c).state = .zombie) :
      Advances s o p statusOk (.anyScan c cp cs)
        ((s.locked o (.pcb cp)).goto o p (.anyRelChild cp cs))
  | anyRelChild {cp : Pid} {cs : List Obj} :
      Advances s o p statusOk (.anyRelChild cp cs) (anyLoop (s.release (.pcb cp)) o p cs)
  | anyKilled (hfree : s.lock (.pcb p) = none) :
      Advances s o p statusOk .anyKilled ((s.locked o (.pcb p)).goto o p .anyRelKilled)
  | anyRelKilled :
      Advances s o p statusOk .anyRelKilled ((s.release (.pcb p)).goto o p .anyRelWait)
  | anyRelWait : Advances s o p statusOk .anyRelWait ((s.release .wait).goto o p .anyBlock)
  | anyBlock (hfree : s.lock (.pcb p) = none) :
      Advances s o p statusOk .anyBlock (((s.locked o (.pcb p)).setObj o
        { s.obj o with w4child := true, state := .block }).goto o p .anySched)
  | anySched : Advances s o p statusOk .anySched ((s.release (.pcb p)).goto o p .anyAsleep)
  | anyAsleep (hready : (s.obj o).state = .ready) (hfree : s.lock (.pcb p) = none) :
      Advances s o p statusOk .anyAsleep (((s.locked o (.pcb p)).setObj o
        { s.obj o with w4child := false }).goto o p .anyWoken)
  | anyWoken : Advances s o p statusOk .anyWoken ((s.release (.pcb p)).goto o p .anyBegin)
  | foundKilled {t : Pid} {b : Obj} (hfree : s.lock (.pcb p) = none) :
      Advances s o p statusOk (.foundKilled t b)
        ((s.locked o (.pcb p)).goto o p (.foundRelKilled t b))
  | foundRelKilled {t : Pid} {b : Obj} :
      Advances s o p statusOk (.foundRelKilled t b) ((s.release (.pcb p)).goto o p (.reap t b))
  -- sys_wait4 with a pid
  | pidBeginNone {t : Pid} (hfree : s.lock (.pcb t) = none) (htarget : s.pcbtable t = none) :
      Advances s o p statusOk (.pidBegin t) ((s.locked o (.pcb t)).goto o p (.pidFail t))
  | pidBegin {t : Pid} {b : Obj} (hfree : s.lock (.pcb t) = none)
      (htarget : s.pcbtable t = some b) :
      Advances s o p statusOk (.pidBegin t) (pidLoop (s.locked o (.pcb t)) o p t b)
  | pidFail {t : Pid} : Advances s o p statusOk (.pidFail t) ((s.release (.pcb t)).goto o p .user)
  | pidBlock {t : Pid} {b : Obj} {s₁ : Sys} (hfree : s.lock (.pcb p) = none)
      (hs₁ : s₁ = (s.locked o (.pcb p)).setObj b
        { s.obj b with waitList := o :: (s.obj b).waitList }) :
      Advances s o p statusOk (.pidBlock t b)
        ((s₁.setObj o { s₁.obj o with state := .block }).goto o p (.pidRelTarget t b))
  | pidRelTarget {t : Pid} {b : Obj} :
      Advances s o p statusOk (.pidRelTarget t b) ((s.release (.pcb t)).goto o p (.pidSched t b))
  | pidSched {t : Pid} {b : Obj} :
      Advances s o p statusOk (.pidSched t b) ((s.release (.pcb p)).goto o p (.pidAsleep t b))
  | pidAsleep {t : Pid} {b : Obj} (hready : (s.obj o).state = .ready)
      (hfree : s.lock (.pcb p) = none) :
      Advances s o p statusOk (.pidAsleep t b) ((s.locked o (.pcb p)).goto o p (.pidWoken t b))
  | pidWoken {t : Pid} {b : Obj} :
      Advances s o p statusOk (.pidWoken t b) ((s.release (.pcb p)).goto o p (.pidRelock t b))
  | pidRelock {t : Pid} {b : Obj} (hfree : s.lock (.pcb t) = none) :
      Advances s o p statusOk (.pidRelock t b) (pidLoop (s.locked o (.pcb t)) o p t b)
  | pidWait {t : Pid} {b : Obj} (hfree : s.lock .wait = none) :
      Advances s o p statusOk (.pidWait t b) ((s.locked o .wait).goto o p (.reap t b))
  -- the END of sys_wait4
  | reap {t : Pid} {b : Obj} {q : QueueMeta Pid} (hz : (s.obj b).state = .zombie)
      (hok : statusOk = true) (hpush : queuePush s.pidsQueue (s.obj b).pid = some q) :
      Advances s o p statusOk (.reap t b) ({ s with pidsQueue := q }.goto o p (.reapFree t b))
  | reapRefused {t : Pid} {b : Obj} (hz : (s.obj b).state = .zombie) (hok : ¬ statusOk = true) :
      Advances s o p statusOk (.reap t b) (s.goto o p (.reapRelWait t))
  | reapFree {t : Pid} {b : Obj} (huse : s.inUse b = true) :
      Advances s o p statusOk (.reapFree t b)
        ({ s with inUse := update s.inUse b false
                  pcbtable := update s.pcbtable t none }.goto o p (.reapRelWait t))
  | reapRelWait {t : Pid} :
      Advances s o p statusOk (.reapRelWait t) ((s.release .wait).goto o p (.reapRelPcb t))
  | reapRelPcb {t : Pid} :
      Advances s o p statusOk (.reapRelPcb t) ((s.release (.pcb t)).goto o p .user)

/-- A lock is taken, and the rest of the step goes on from there. -/
theorem acquire_bind {l : Lock} {k : Sys → Option Sys} (h : (s.acquire o l).bind k = some s') :
    s.lock l = none ∧ k (s.locked o l) = some s' := by
  rcases bind_eq_some_iff.mp h with ⟨s₁, hacq, h⟩
  rcases acquire_eq_some hacq with ⟨hfree, rfl⟩
  exact ⟨hfree, h⟩

/-- Every step is one of the branches. -/
theorem advance_cases {statusOk : Bool} (h : advance s o p statusOk pc = some s') :
    Advances s o p statusOk pc s' := by
  cases pc with
  | user => cases h
  | startRel | forkRelWait _ _ | forkReady _ _ | exitRelParent _ | exitRelWait | exitSched | anyFail
  | anyRelChild _ _ | anyRelKilled | anyRelWait | anySched | anyWoken | foundRelKilled _ _
  | pidFail _ | pidRelTarget _ _ | pidSched _ _ | pidWoken _ _ | reapRelWait _ | reapRelPcb _ =>
    cases h
    constructor
  | forkLock _ | exitInit _ | anyKilled | anyBlock | foundKilled _ _ | pidRelock _ _
  | pidWait _ _ =>
    rcases acquire_bind h with ⟨hfree, h⟩
    cases h
    constructor
    exact hfree
  | start | anyAsleep | pidAsleep _ _ =>
    rw [advance] at h
    split at h
    · rename_i hready
      rcases acquire_bind h with ⟨hfree, h⟩
      cases h
      constructor
      · exact hready
      · exact hfree
    · cases h
  | forkLink c ch =>
    rcases acquire_bind h with ⟨hfree, h⟩
    cases h
    exact .forkLink hfree rfl
  | exitBegin =>
    rcases acquire_bind h with ⟨hfree, h⟩
    exact .exitBegin hfree h
  | exitChild c cp =>
    rcases acquire_bind h with ⟨hfree, h⟩
    rcases bind_eq_some_iff.mp h with ⟨init, hinit, h⟩
    cases h
    exact .exitChild hfree hinit rfl
  | exitRelChild cp =>
    rcases bind_eq_some_iff.mp h with ⟨init, hinit, h⟩
    split at h
    · rename_i hflag
      cases h
      exact .exitRelChildWake hinit hflag
    · rename_i hflag
      cases h
      exact .exitRelChild hinit hflag
  | exitRelInit => exact .exitRelInit h
  | exitSelf =>
    rcases acquire_bind h with ⟨hfree, h⟩
    exact .exitSelf hfree h
  | exitWake num w wp =>
    rcases acquire_bind h with ⟨hfree, h⟩
    split at h
    · rename_i hblock
      cases h
      exact .exitWake hfree hblock
    · cases h
  | exitRelWake num wp => exact .exitRelWake h
  | exitParent b bp =>
    rcases acquire_bind h with ⟨hfree, h⟩
    split at h
    · rename_i hparent
      split at h
      · rename_i hflag
        cases h
        exact .exitParentWake hfree hparent hflag
      · rename_i hflag
        cases h
        exact .exitParent hfree hparent hflag
    · cases h
  | anyBegin =>
    rcases acquire_bind h with ⟨hfree, h⟩
    split at h
    · rename_i hlist
      cases h
      exact .anyBeginNone hfree hlist
    · rename_i c cs hlist
      cases h
      exact .anyBegin hfree hlist
  | anyScan c cp cs =>
    rcases acquire_bind h with ⟨hfree, h⟩
    split at h
    · rename_i hparent
      split at h
      · rename_i hz
        rcases bind_eq_some_iff.mp h with ⟨b, htarget, h⟩
        cases h
        exact .anyScanFound hfree hparent hz htarget
      · rename_i hz
        cases h
        exact .anyScan hfree hparent hz
    · cases h
  | pidBegin t =>
    rcases acquire_bind h with ⟨hfree, h⟩
    split at h
    · rename_i htarget
      cases h
      exact .pidBeginNone hfree htarget
    · rename_i b htarget
      cases h
      exact .pidBegin hfree htarget
  | pidBlock t b =>
    rcases acquire_bind h with ⟨hfree, h⟩
    cases h
    exact .pidBlock hfree rfl
  | reap t b =>
    rw [advance] at h
    split at h
    · rename_i hz
      split at h
      · rename_i hok
        rcases bind_eq_some_iff.mp h with ⟨q, hpush, h⟩
        cases h
        exact .reap hz hok hpush
      · rename_i hok
        cases h
        exact .reapRefused hz hok
    · cases h
  | reapFree t b =>
    rw [advance] at h
    split at h
    · rename_i huse
      cases h
      exact .reapFree huse
    · cases h

@[simp] theorem goto_thread (s : Sys) (o : Obj) (p : Pid) (pc : Pc) :
    (s.goto o p pc).thread = update s.thread o (some ⟨p, pc⟩) := rfl

/-- What is not an object, a lock or a place. -/
def Sys.tables (s : Sys) : (Obj → Bool) × (Obj → Bool) × Obj × (Pid → Option Obj) × QueueMeta Pid :=
  (s.inUse, s.intact, s.fresh, s.pcbtable, s.pidsQueue)

/-- No object changes its pid, and none becomes a zombie. -/
def Keeps (s s' : Sys) : Prop := ∀ x, (s'.obj x).pid = (s.obj x).pid ∧
  ((s'.obj x).state = .zombie → (s.obj x).state = .zombie)

theorem Keeps.of_eq (h : s'.obj = s.obj) : Keeps s s' := by
  intro x
  rw [h]
  exact ⟨Eq.refl _, id⟩

theorem Keeps.trans {s'' : Sys} (h : Keeps s s') (h' : Keeps s' s'') : Keeps s s'' :=
  fun x => ⟨(h' x).1.trans (h x).1, fun hz => (h x).2 ((h' x).2 hz)⟩

theorem Keeps.setObj {x : Obj} {pcb : Pcb} (hpid : pcb.pid = (s.obj x).pid)
    (hstate : pcb.state = .zombie → (s.obj x).state = .zombie) : Keeps s (s.setObj x pcb) := by
  intro y
  by_cases hy : y = x
  · subst hy
    simp only [Sys.setObj, update_self]
    exact ⟨hpid, hstate⟩
  · have hobj : (s.setObj x pcb).obj y = s.obj y := update_of_ne hy _ _
    rw [hobj]
    exact ⟨Eq.refl _, id⟩

/-- The process goes from one place to another where it holds the locks `held`; locks and tables
    stay. -/
structure Moves (s : Sys) (o : Obj) (p : Pid) (held : List Lock) (s' : Sys) : Prop where
  lock : s'.lock = s.lock
  tables : s'.tables = s.tables
  keeps : Keeps s s'
  thread : ∃ pc', s'.thread = update s.thread o (some ⟨p, pc'⟩) ∧ pc'.held p = held

theorem goto_moves (s : Sys) (o : Obj) (p : Pid) (pc : Pc) :
    Moves s o p (pc.held p) (s.goto o p pc) :=
  ⟨rfl, rfl, Keeps.of_eq rfl, pc, rfl, rfl⟩

theorem setObj_goto_moves {x : Obj} {pcb : Pcb} (pc : Pc) (hpid : pcb.pid = (s.obj x).pid)
    (hstate : pcb.state = .zombie → (s.obj x).state = .zombie) :
    Moves s o p (pc.held p) ((s.setObj x pcb).goto o p pc) :=
  ⟨rfl, rfl, (Keeps.setObj hpid hstate).trans (Keeps.of_eq rfl), pc, rfl, rfl⟩

theorem setObj_setObj_goto_moves {x y : Obj} {a b : Pcb} (pc : Pc) (hpid : a.pid = (s.obj x).pid)
    (hstate : a.state = .zombie → (s.obj x).state = .zombie)
    (hpid' : b.pid = ((s.setObj x a).obj y).pid)
    (hstate' : b.state = .zombie → ((s.setObj x a).obj y).state = .zombie) :
    Moves s o p (pc.held p) (((s.setObj x a).setObj y b).goto o p pc) :=
  ⟨rfl, rfl, (Keeps.setObj hpid hstate).trans ((Keeps.setObj hpid' hstate').trans
    (Keeps.of_eq rfl)), pc, rfl, rfl⟩

theorem exitLoop_moves (h : exitLoop s o p = some s') : Moves s o p [.wait] s' := by
  unfold exitLoop at h
  split at h
  · cases h
    exact goto_moves s o p .exitSelf
  · split at h
    · cases h
      exact setObj_goto_moves (.exitInit _) rfl id
    · cases h

theorem exitUnblock_moves {num : Nat} (h : exitUnblock s o p num = some s') :
    Moves s o p [.pcb p, .wait] s' := by
  unfold exitUnblock at h
  split at h
  · cases h
    exact setObj_goto_moves (.exitWake _ _ _) rfl id
  · split at h
    · split at h
      · cases h
        exact goto_moves s o p (.exitParent _ _)
      · cases h
    · cases h
      exact goto_moves s o p .exitRelWait

theorem pidLoop_moves (s : Sys) (o : Obj) (p t : Pid) (targetp : Obj) :
    Moves s o p [.pcb t] (pidLoop s o p t targetp) := by
  unfold pidLoop
  split
  · exact goto_moves s o p (.pidWait _ _)
  · exact goto_moves s o p (.pidBlock _ _)

theorem anyLoop_moves (s : Sys) (o : Obj) (p : Pid) (cs : List Obj) :
    Moves s o p [.wait] (anyLoop s o p cs) := by
  cases cs with
  | nil => exact goto_moves s o p .anyKilled
  | cons c cs => exact goto_moves s o p (.anyScan _ _ _)

/-- What a step does, up to the contents of the objects: a lock is taken or given back, a process
    is set up or leaves, a pid is put into the queue, or an object is freed. -/
inductive Effect (s : Sys) (o : Obj) (p : Pid) (pc : Pc) (s' : Sys) : Prop
  | take (l : Lock) (pc' : Pc) (hwants : pc.wants p = some l) (hfree : s.lock l = none)
      (hlock : s'.lock = update s.lock l (some o))
      (hthread : s'.thread = update s.thread o (some ⟨p, pc'⟩))
      (hheld : (pc'.held p).Perm (l :: pc.held p)) (htables : s'.tables = s.tables)
      (hpids : ∀ x, (s'.obj x).pid = (s.obj x).pid)
      (hzombie : ∀ x, (s'.obj x).state = .zombie →
        (s.obj x).state = .zombie ∨ (x = o ∧ pc = .exitSelf))
  | drop (l : Lock) (pc' : Pc) (hlock : s'.lock = update s.lock l none)
      (hthread : s'.thread = update s.thread o (some ⟨p, pc'⟩))
      (hheld : (pc.held p).Perm (l :: pc'.held p)) (htables : s'.tables = s.tables)
      (hkeeps : Keeps s s')
  | alloc (c : Pid) (hpc : pc = .forkLock c) (hfree : s.lock (.pcb c) = none)
      (hs' : s' = ({ s with lock := update s.lock (.pcb c) (some o) }.allocproc c).goto o p
        (.forkLink c s.fresh))
  | leave (hpc : pc = .exitSched) (hs' : s' = { s.release (.pcb p) with
      thread := update s.thread o none })
  | push (t : Pid) (targetp : Obj) (q : QueueMeta Pid) (hpc : pc = .reap t targetp)
      (hpush : queuePush s.pidsQueue (s.obj targetp).pid = some q)
      (hs' : s' = { s with pidsQueue := q }.goto o p (.reapFree t targetp))
  | refuse (t : Pid) (targetp : Obj) (hpc : pc = .reap t targetp)
      (hs' : s' = s.goto o p (.reapRelWait t))
  | free (t : Pid) (targetp : Obj) (hpc : pc = .reapFree t targetp)
      (huse : s.inUse targetp = true)
      (hs' : s' = { s with inUse := update s.inUse targetp false
                           pcbtable := update s.pcbtable t none }.goto o p (.reapRelWait t))

/-- A lock is taken, and the code up to the next one does not touch the locks. -/
theorem Effect.take_moves {l : Lock} {held : List Lock} (hwants : pc.wants p = some l)
    (hfree : s.lock l = none)
    (hmoves : Moves { s with lock := update s.lock l (some o) } o p held s')
    (hheld : held.Perm (l :: pc.held p)) : Effect s o p pc s' := by
  obtain ⟨hlock, htables, hkeeps, pc', hthread, rfl⟩ := hmoves
  exact .take l pc' hwants hfree hlock hthread hheld htables (fun x => (hkeeps x).1)
    fun x hz => .inl ((hkeeps x).2 hz)

/-- A lock is given back, and the code up to the next one does not touch the locks. -/
theorem Effect.drop_moves {l : Lock} {held : List Lock} (hmoves : Moves (s.release l) o p held s')
    (hheld : (pc.held p).Perm (l :: held)) : Effect s o p pc s' := by
  obtain ⟨hlock, htables, hkeeps, pc', hthread, rfl⟩ := hmoves
  exact .drop l pc' hlock hthread hheld htables hkeeps

theorem advance_effect {statusOk : Bool} (h : advance s o p statusOk pc = some s') :
    Effect s o p pc s' := by
  cases advance_cases h with
  | start _ hfree | pidAsleep _ hfree | exitInit hfree | exitParent hfree | anyBeginNone hfree
  | anyScan hfree | anyKilled hfree | foundKilled hfree | pidBeginNone hfree =>
    exact .take_moves rfl hfree (goto_moves _ o p _) (.refl _)
  | pidWait hfree => exact .take_moves rfl hfree (goto_moves _ o p _) (.swap ..)
  | anyAsleep _ hfree => exact .take_moves rfl hfree (setObj_goto_moves .anyWoken rfl id) (.refl _)
  | anyScanFound hfree =>
    exact .take_moves rfl hfree (setObj_goto_moves (.foundKilled _ _) rfl id) (.refl _)
  | exitWake hfree | exitParentWake hfree | anyBlock hfree =>
    exact .take_moves rfl hfree (setObj_goto_moves _ rfl fun hz => (nomatch hz)) (.refl _)
  | forkLink hfree hs₁ =>
    subst hs₁
    exact .take_moves rfl hfree
      (setObj_setObj_goto_moves (.forkRelWait _ _) rfl id rfl id) (.refl _)
  | exitChild hfree _ hs₁ =>
    subst hs₁
    exact .take_moves rfl hfree
      (setObj_setObj_goto_moves (.exitRelChild _) rfl id rfl id) (.refl _)
  | pidBlock hfree hs₁ =>
    subst hs₁
    exact .take_moves rfl hfree
      (setObj_setObj_goto_moves (.pidRelTarget _ _) rfl id rfl fun hz => (nomatch hz)) (.refl _)
  | exitBegin hfree hloop => exact .take_moves rfl hfree (exitLoop_moves hloop) (.refl _)
  | anyBegin hfree => exact .take_moves rfl hfree (anyLoop_moves _ _ _ _) (.refl _)
  | pidBegin hfree | pidRelock hfree =>
    exact .take_moves rfl hfree (pidLoop_moves _ _ _ _ _) (.refl _)
  | exitSelf hfree hloop =>
    obtain ⟨hlock, htables, hkeeps, pc', hthread, hheld⟩ := exitUnblock_moves hloop
    refine .take (.pcb p) pc' rfl hfree hlock hthread (hheld ▸ .refl _) htables ?_ ?_
    · intro x
      rw [(hkeeps x).1]
      by_cases hx : x = o
      · subst hx
        simp only [Sys.setObj, update_self]
      · simp only [Sys.setObj, update_of_ne hx]
    · -- it is here that a process becomes a zombie
      intro x hz
      have hz' := (hkeeps x).2 hz
      by_cases hx : x = o
      · exact .inr ⟨hx, rfl⟩
      · simp only [Sys.setObj, update_of_ne hx] at hz'
        exact .inl hz'
  | startRel | anySched | anyWoken | pidWoken | pidSched | anyRelKilled | foundRelKilled
  | forkRelWait | anyFail | anyRelWait | reapRelPcb | pidFail | exitRelParent | exitRelChild =>
    exact .drop_moves (goto_moves _ o p _) (.refl _)
  | exitRelWait | reapRelWait | pidRelTarget => exact .drop_moves (goto_moves _ o p _) (.swap ..)
  | exitRelChildWake =>
    exact .drop_moves (setObj_goto_moves .exitRelInit rfl fun hz => (nomatch hz)) (.refl _)
  | anyRelChild => exact .drop_moves (anyLoop_moves _ _ _ _) (.refl _)
  | exitRelInit hloop => exact .drop_moves (exitLoop_moves hloop) (.refl _)
  | exitRelWake hloop => exact .drop_moves (exitUnblock_moves hloop) (.refl _)
  | @forkReady c ch =>
    refine .drop (.pcb c) .user rfl rfl (.refl _) rfl ?_
    have hkeeps : Keeps s (s.setObj ch { s.obj ch with state := .ready }) :=
      Keeps.setObj rfl fun hz => nomatch hz
    exact hkeeps.trans (Keeps.of_eq rfl)
  | @forkLock c hfree => exact .alloc c rfl hfree rfl
  | exitSched => exact .leave rfl rfl
  | @reap t b q _ _ hpush => exact .push t b q rfl hpush rfl
  | @reapRefused t b => exact .refuse t b rfl rfl
  | @reapFree t b huse => exact .free t b rfl huse rfl

/-! ## Locks and places agree -/

/-- A process is in the middle of `fork`. -/
def Pc.forking : Pc → Bool
  | .forkLock _ | .forkLink _ _ | .forkRelWait _ _ | .forkReady _ _ => true
  | _ => false

/-- The locks an object holds according to its place. -/
def Sys.heldBy (s : Sys) (o : Obj) : List Lock :=
  match s.thread o with
  | some th => th.pc.held th.pid
  | none => []

theorem heldBy_eq (h : s.thread o = some ⟨p, pc⟩) : s.heldBy o = pc.held p := by
  rw [Sys.heldBy, h]

theorem heldBy_none (h : s.thread o = none) : s.heldBy o = [] := by
  rw [Sys.heldBy, h]

theorem heldBy_congr {x : Obj} (h : s'.thread x = s.thread x) : s'.heldBy x = s.heldBy x := by
  rw [Sys.heldBy, Sys.heldBy, h]

structure LocksHeld (s : Sys) : Prop where
  holder : ∀ l x, s.lock l = some x ↔ l ∈ s.heldBy x
  nodup : ∀ x, (s.heldBy x).Nodup

/-- Only the lock table and what one object holds change. -/
theorem LocksHeld.replace (h : LocksHeld s) (hoff : ∀ x, x ≠ o → s'.heldBy x = s.heldBy x)
    (hlock : ∀ l x, x ≠ o → (s'.lock l = some x ↔ s.lock l = some x))
    (hself : ∀ l, s'.lock l = some o ↔ l ∈ s'.heldBy o) (hnodup : (s'.heldBy o).Nodup) :
    LocksHeld s' := by
  refine ⟨fun l x => ?_, fun x => ?_⟩
  · by_cases hx : x = o
    · subst hx
      exact hself l
    · rw [hlock l x hx, hoff x hx]
      exact h.holder l x
  · by_cases hx : x = o
    · subst hx
      exact hnodup
    · rw [hoff x hx]
      exact h.nodup x

/-- Taking a free lock. -/
theorem LocksHeld.take (h : LocksHeld s) {l : Lock} (hfree : s.lock l = none)
    (hlock : s'.lock = update s.lock l (some o))
    (hoff : ∀ x, x ≠ o → s'.heldBy x = s.heldBy x)
    (hheld : (s'.heldBy o).Perm (l :: s.heldBy o)) : LocksHeld s' := by
  have hnot : l ∉ s.heldBy o := by
    intro hmem
    rw [← h.holder, hfree] at hmem
    cases hmem
  refine h.replace hoff (fun l' x hx => ?_) (fun l' => ?_) ?_
  · rw [hlock]
    by_cases hl : l' = l
    · subst hl
      rw [update_self, hfree]
      constructor
      · intro heq
        exact absurd (some.inj heq).symm hx
      · intro heq
        cases heq
    · rw [update_of_ne hl]
  · rw [hheld.mem_iff, List.mem_cons, hlock]
    by_cases hl : l' = l
    · subst hl
      rw [update_self]
      exact ⟨fun _ => .inl rfl, fun _ => rfl⟩
    · rw [update_of_ne hl, h.holder]
      exact ⟨.inr, fun hor => hor.resolve_left hl⟩
  · rw [hheld.nodup_iff, List.nodup_cons]
    exact ⟨hnot, h.nodup o⟩

/-- Giving back a lock that is held. -/
theorem LocksHeld.drop (h : LocksHeld s) {l : Lock}
    (hlock : s'.lock = update s.lock l none)
    (hoff : ∀ x, x ≠ o → s'.heldBy x = s.heldBy x)
    (hheld : (s.heldBy o).Perm (l :: s'.heldBy o)) : LocksHeld s' := by
  have hnodup := h.nodup o
  rw [hheld.nodup_iff, List.nodup_cons] at hnodup
  have hmine : s.lock l = some o := by
    rw [h.holder, hheld.mem_iff]
    exact List.mem_cons_self
  refine h.replace hoff (fun l' x hx => ?_) (fun l' => ?_) hnodup.2
  · rw [hlock]
    by_cases hl : l' = l
    · subst hl
      rw [update_self, hmine]
      constructor
      · intro heq
        cases heq
      · intro heq
        exact absurd (some.inj heq).symm hx
    · rw [update_of_ne hl]
  · rw [hlock]
    by_cases hl : l' = l
    · subst hl
      rw [update_self]
      exact ⟨fun heq => (nomatch heq), fun hmem => absurd hmem hnodup.1⟩
    · rw [update_of_ne hl, h.holder, hheld.mem_iff, List.mem_cons]
      exact ⟨fun hor => hor.resolve_left hl, .inr⟩

/-- The object changes its place and holds what it held. -/
theorem LocksHeld.stay (h : LocksHeld s) (hlock : s'.lock = s.lock)
    (hheld : ∀ x, s'.heldBy x = s.heldBy x) : LocksHeld s' := by
  refine ⟨fun l x => ?_, fun x => ?_⟩
  · rw [hlock, hheld]
    exact h.holder l x
  · rw [hheld]
    exact h.nodup x

theorem heldBy_update (hthread : s'.thread = update s.thread o (some ⟨p, pc⟩)) :
    s'.heldBy o = pc.held p ∧ ∀ x, x ≠ o → s'.heldBy x = s.heldBy x := by
  refine ⟨heldBy_eq ?_, fun x hx => heldBy_congr ?_⟩
  · rw [hthread, update_self]
  · rw [hthread, update_of_ne hx]

/-- The object goes to a place where it holds what it held. -/
theorem LocksHeld.move (h : LocksHeld s) {pc' : Pc} (hlock : s'.lock = s.lock)
    (hthread : s'.thread = update s.thread o (some ⟨p, pc'⟩))
    (hheld : pc'.held p = s.heldBy o) : LocksHeld s' := by
  obtain ⟨hself, hoff⟩ := heldBy_update hthread
  refine h.stay hlock fun x => ?_
  by_cases hx : x = o
  · subst hx
    exact hself.trans hheld
  · exact hoff x hx

/-- A step of an object whose number for the next process is not used yet. -/
theorem LocksHeld.effect (h : LocksHeld s) (hat : s.thread o = some ⟨p, pc⟩)
    (hfresh : pc.forking = true → s.thread s.fresh = none) (he : Effect s o p pc s') :
    LocksHeld s' := by
  have hheldo := heldBy_eq hat
  cases he with
  | take l pc' hwants hfree hlock hthread hheld =>
    obtain ⟨hself, hoff⟩ := heldBy_update hthread
    exact h.take hfree hlock hoff (hself ▸ hheldo ▸ hheld)
  | drop l pc' hlock hthread hheld =>
    obtain ⟨hself, hoff⟩ := heldBy_update hthread
    exact h.drop hlock hoff (hself ▸ hheldo ▸ hheld)
  | alloc c hpc hfree hs' =>
    have hfresh := hfresh (hpc ▸ rfl)
    have hne : s.fresh ≠ o := by
      rintro rfl
      rw [hat] at hfresh
      cases hfresh
    have hthread : s'.thread = update (update s.thread s.fresh
        (some ⟨c, .start⟩)) o (some ⟨p, .forkLink c s.fresh⟩) := by rw [hs']; rfl
    refine h.take (l := .pcb c) hfree (by rw [hs']; rfl) (fun x hx => ?_) ?_
    · by_cases hxf : x = s.fresh
      · -- the new process holds nothing
        subst hxf
        rw [heldBy_none hfresh]
        have hstart : s'.thread s.fresh = some ⟨c, .start⟩ := by
          rw [hthread, update_of_ne hx, update_self]
        exact heldBy_eq hstart
      · refine heldBy_congr ?_
        rw [hthread, update_of_ne hx, update_of_ne hxf]
    · have hself : s'.thread o = some ⟨p, .forkLink c s.fresh⟩ := by
        rw [hthread, update_self]
      rw [hheldo, hpc, heldBy_eq hself]
      exact .refl _
  | leave hpc hs' =>
    have hthread : s'.thread = update s.thread o none := by rw [hs']
    have hlock : s'.lock = update s.lock (.pcb p) none := by
      rw [hs']
      rfl
    have hself : s'.thread o = none := by rw [hthread, update_self]
    refine h.drop (o := o) hlock (fun x hx => heldBy_congr ?_) ?_
    · rw [hthread, update_of_ne hx]
    · rw [hheldo, hpc, heldBy_none hself]
      exact .refl _
  | push t targetp q hpc hpush hs' =>
    subst hpc
    have hthread : s'.thread = update s.thread o (some ⟨p, .reapFree t targetp⟩) := by
      rw [hs']
      rfl
    exact h.move (by rw [hs']; rfl) hthread hheldo.symm
  | refuse t targetp hpc hs' | free t targetp hpc huse hs' =>
    subst hpc
    have hthread : s'.thread = update s.thread o (some ⟨p, .reapRelWait t⟩) := by
      rw [hs']
      rfl
    exact h.move (by rw [hs']; rfl) hthread hheldo.symm

/-- The code in front of the first lock of a call. -/
theorem begin_effect {c : Call} (h : begin s o p c = some s') (hat : s.thread o = some ⟨p, .user⟩) :
    s'.lock = s.lock ∧ (∃ pc', s'.thread = update s.thread o (some ⟨p, pc'⟩) ∧
      pc'.held p = []) ∧ s'.obj = s.obj ∧ s'.inUse = s.inUse ∧ s'.intact = s.intact ∧
        s'.fresh = s.fresh ∧ s'.pcbtable = s.pcbtable := by
  have hsame : s.thread = update s.thread o (some ⟨p, .user⟩) := by
    rw [← hat, update_eq_self]
  cases c with
  | fork =>
    rw [begin] at h
    split at h
    · cases h
      exact ⟨rfl, ⟨.user, hsame, rfl⟩, rfl, rfl, rfl, rfl, rfl⟩
    · obtain ⟨q, -, h⟩ := bind_eq_some_iff.mp h
      cases h
      exact ⟨rfl, ⟨.forkLock _, rfl, rfl⟩, rfl, rfl, rfl, rfl, rfl⟩
  | exit =>
    rw [begin] at h
    split at h
    · cases h
      exact ⟨rfl, ⟨.exitBegin, rfl, rfl⟩, rfl, rfl, rfl, rfl, rfl⟩
    · cases h
  | waitAny =>
    cases h
    exact ⟨rfl, ⟨.anyBegin, rfl, rfl⟩, rfl, rfl, rfl, rfl, rfl⟩
  | waitPid t =>
    rw [begin] at h
    split at h
    · cases h
      exact ⟨rfl, ⟨.user, hsame, rfl⟩, rfl, rfl, rfl, rfl, rfl⟩
    · split at h
      · cases h
        exact ⟨rfl, ⟨.pidBegin t, rfl, rfl⟩, rfl, rfl, rfl, rfl, rfl⟩
      · cases h

theorem LocksHeld.begin (h : LocksHeld s) {c : Call} (hat : s.thread o = some ⟨p, .user⟩)
    (hb : WaitLock.begin s o p c = some s') : LocksHeld s' := by
  obtain ⟨hlock, ⟨pc', hthread, hheld⟩, -⟩ := begin_effect hb hat
  exact h.move hlock hthread (hheld.trans (heldBy_eq hat).symm)

/-! ## The order of the locks -/

/-- The process `x` waits for a lock that `y` holds. -/
def WaitsFor (s : Sys) (x y : Obj) : Prop :=
  x ≠ y ∧ ∃ p pc l, s.thread x = some ⟨p, pc⟩ ∧ pc.wants p = some l ∧ s.lock l = some y

/-- A process takes a lock while it holds that of the process it waits for. -/
def Pc.inside : Pc → Bool
  | .pidBlock _ _ | .pidWait _ _ => true
  | _ => false

/-- Everybody else who takes a second lock has taken `wait_lock` first. -/
theorem wait_mem_held {l : Lock} (hwants : pc.wants p = some l) (hheld : pc.held p ≠ [])
    (hinside : pc.inside = false) (hfork : pc.forking = false) : .wait ∈ pc.held p := by
  cases pc with
  | exitInit _ | exitSelf | anyScan _ _ _ | anyKilled => exact List.mem_cons_self
  | exitChild _ _ | exitWake _ _ _ | exitParent _ _ | foundKilled _ _ =>
    exact List.mem_cons_of_mem _ List.mem_cons_self
  | forkLink _ _ => cases hfork
  | pidBlock _ _ | pidWait _ _ => cases hinside
  | _ => first
    | exact absurd rfl hheld
    | cases hwants

/-- The second lock that `wait4` with a pid takes. -/
def nextLock (s : Sys) (p : Pid) (targetp : Obj) : Lock :=
  if (s.obj targetp).state = .zombie then .wait else .pcb p

/-- What is known of the place a step leads to: `wait4` with a pid goes inside with the lock it
    then takes, and nobody begins a `fork`. -/
def Plain (s : Sys) (p : Pid) (pc pc' : Pc) : Prop :=
  (pc'.inside = true → ∃ t targetp,
    ((pc = .pidBegin t ∧ s.pcbtable t = some targetp) ∨ pc = .pidRelock t targetp) ∧
      pc'.wants p = some (nextLock s p targetp)) ∧
  (pc'.forking = true → pc.forking = true)

/-- The place of an object after a step. -/
def Lands (s' : Sys) (o : Obj) (p : Pid) (P : Pc → Prop) : Prop :=
  ∀ q pc', s'.thread o = some ⟨q, pc'⟩ → q = p ∧ P pc'

theorem lands_of_thread {base : Obj → Option Thread} {pc' : Pc} {P : Pc → Prop}
    (hthread : s'.thread = update base o (some ⟨p, pc'⟩)) (hP : P pc') :
    Lands s' o p P := by
  intro q qc hq
  rw [hthread, update_self] at hq
  cases hq
  exact ⟨rfl, hP⟩

theorem lands_goto {pc' : Pc} {P : Pc → Prop} (hP : P pc') : Lands (s.goto o p pc') o p P :=
  lands_of_thread rfl hP

theorem exitLoop_lands {P : Pc → Prop} (h : exitLoop s o p = some s') (hself : P .exitSelf)
    (hinit : ∀ c, P (.exitInit c)) : Lands s' o p P := by
  unfold exitLoop at h
  split at h
  · cases h
    exact lands_goto hself
  · split at h
    · cases h
      exact lands_goto (hinit _)
    · cases h

theorem exitUnblock_lands {P : Pc → Prop} {num : Nat} (h : exitUnblock s o p num = some s')
    (hwake : ∀ n w wp, P (.exitWake n w wp)) (hparent : ∀ b bp, P (.exitParent b bp))
    (hrel : P .exitRelWait) : Lands s' o p P := by
  unfold exitUnblock at h
  split at h
  · cases h
    exact lands_goto (hwake _ _ _)
  · split at h
    · split at h
      · cases h
        exact lands_goto (hparent _ _)
      · cases h
    · cases h
      exact lands_goto hrel

theorem anyLoop_lands {P : Pc → Prop} (s : Sys) (o : Obj) (p : Pid) (cs : List Obj)
    (hkilled : P .anyKilled) (hscan : ∀ c cp rest, P (.anyScan c cp rest)) :
    Lands (anyLoop s o p cs) o p P := by
  cases cs with
  | nil => exact lands_goto hkilled
  | cons c cs => exact lands_goto (hscan _ _ _)

/-- A place that is neither inside nor in a `fork`. -/
theorem plain_of_not {pc' : Pc} (hin : pc'.inside = false) (hfork : pc'.forking = false) :
    Plain s p pc pc' := by
  constructor
  · intro htrue
    rw [hin] at htrue
    cases htrue
  · intro htrue
    rw [hfork] at htrue
    cases htrue

theorem pidLoop_lands (s₀ s : Sys) (o : Obj) (p t : Pid) (targetp : Obj)
    (hobj : s.obj = s₀.obj)
    (hpc : (pc = .pidBegin t ∧ s₀.pcbtable t = some targetp) ∨ pc = .pidRelock t targetp) :
    Lands (pidLoop s o p t targetp) o p (Plain s₀ p pc) := by
  unfold pidLoop
  split
  · rename_i hz
    refine lands_goto ⟨fun _ => ⟨t, targetp, hpc, ?_⟩, fun hfork => nomatch hfork⟩
    rw [nextLock, ← hobj, if_pos hz]
    rfl
  · rename_i hz
    refine lands_goto ⟨fun _ => ⟨t, targetp, hpc, ?_⟩, fun hfork => nomatch hfork⟩
    rw [nextLock, ← hobj, if_neg hz]
    rfl

theorem advance_plain {statusOk : Bool} (h : advance s o p statusOk pc = some s') :
    Lands s' o p (Plain s p pc) := by
  cases advance_cases h with
  | forkLock | forkLink | forkRelWait =>
    exact lands_goto ⟨fun hin => (nomatch hin), fun _ => rfl⟩
  | exitBegin _ hloop | exitRelInit hloop =>
    exact exitLoop_lands hloop (plain_of_not rfl rfl) fun _ => plain_of_not rfl rfl
  | exitSelf _ hloop | exitRelWake hloop =>
    exact exitUnblock_lands hloop (fun _ _ _ => plain_of_not rfl rfl)
      (fun _ _ => plain_of_not rfl rfl) (plain_of_not rfl rfl)
  | exitSched =>
    intro q qc hq
    have hnone : update s.thread o none o = some ⟨q, qc⟩ := hq
    rw [update_self] at hnone
    cases hnone
  | @anyRelChild _ cs =>
    exact anyLoop_lands _ o p cs (plain_of_not rfl rfl) fun _ _ _ => plain_of_not rfl rfl
  | @pidBegin t b _ htarget => exact pidLoop_lands s _ o p t b rfl (.inl ⟨rfl, htarget⟩)
  | @pidRelock t b => exact pidLoop_lands s _ o p t b rfl (.inr rfl)
  | _ => exact lands_goto (plain_of_not rfl rfl)

/-- The calls here are `exit` and `wait4`, and no memory is taken for other purposes. -/
def WaitExit (_ : Sys) : Input → Prop
  | .call _ c => c ≠ .fork
  | .run _ _ => True
  | .reuse _ => False

/-- The second lock is free when `wait4` with a pid takes the first one, and nobody takes it in
    between. -/
def Uncontended (s : Sys) : Input → Prop
  | .run o _ => ∀ p pc, s.thread o = some ⟨p, pc⟩ →
      (∀ t targetp, (pc = .pidBegin t ∧ s.pcbtable t = some targetp) ∨ pc = .pidRelock t targetp →
        s.lock (nextLock s p targetp) = none) ∧
      ∀ l, pc.wants p = some l → ∀ x q qc, x ≠ o → s.thread x = some ⟨q, qc⟩ →
        qc.inside = true → qc.wants q ≠ some l
  | _ => True

/-- A state in which all processes are in user space; the process table is any. -/
structure Quiet (s : Sys) : Prop where
  lock : ∀ l, s.lock l = none
  user : ∀ o p pc, s.thread o = some ⟨p, pc⟩ → pc = .user
  intact : ∀ o, s.intact o = true

/-- What keeps the locks in order. -/
structure Ordered (s : Sys) : Prop where
  locks : LocksHeld s
  intact : ∀ o, s.intact o = true
  forking : ∀ o p pc, s.thread o = some ⟨p, pc⟩ → pc.forking = false
  inside : ∀ o p pc l, s.thread o = some ⟨p, pc⟩ → pc.inside = true → pc.wants p = some l →
    s.lock l = none ∨ s.lock l = some o

theorem Quiet.ordered (h : Quiet s) : Ordered s := by
  have hheld : ∀ o, s.heldBy o = [] := by
    intro o
    cases hat : s.thread o with
    | none => exact heldBy_none hat
    | some th =>
      obtain ⟨p, pc⟩ := th
      rw [heldBy_eq hat, h.user o p pc hat]
      rfl
  refine ⟨⟨fun l x => ?_, fun x => ?_⟩, h.intact, fun o p pc hat => ?_, fun o p pc l hat hin => ?_⟩
  · rw [h.lock l, hheld x]
    exact ⟨fun heq => (nomatch heq), fun hmem => (nomatch hmem)⟩
  · rw [hheld x]
    exact List.nodup_nil
  · rw [h.user o p pc hat]
    rfl
  · rw [h.user o p pc hat] at hin
    cases hin

/-- A process that others wait for and that waits itself holds `wait_lock`. -/
theorem Ordered.middle (h : Ordered s) {x y z : Obj} (hxy : WaitsFor s x y)
    (hyz : WaitsFor s y z) : s.lock .wait = some y := by
  obtain ⟨-, -, -, l, -, -, hl⟩ := hxy
  obtain ⟨hne, p, pc, l', hat, hwants, hl'⟩ := hyz
  rw [h.locks.holder, heldBy_eq hat] at hl
  have hinside : pc.inside = false := by
    by_contra hin
    rw [Bool.not_eq_false] at hin
    rcases h.inside y p pc l' hat hin hwants with hfree | hown
    · rw [hl'] at hfree
      cases hfree
    · rw [hl'] at hown
      exact hne (some.inj hown).symm
  rw [h.locks.holder, heldBy_eq hat]
  exact wait_mem_held hwants (List.ne_nil_of_mem hl) hinside (h.forking y p pc hat)

theorem Ordered.begin (h : Ordered s) {c : Call} (hat : s.thread o = some ⟨p, .user⟩)
    (hc : c ≠ .fork) (hb : WaitLock.begin s o p c = some s') : Ordered s' := by
  obtain ⟨hlock, ⟨pc', hthread, -⟩, -, -, hintact, -⟩ := begin_effect hb hat
  -- a call goes to the place in front of its first lock
  have hplain : pc'.inside = false ∧ pc'.forking = false := by
    have hland : s'.thread o = some ⟨p, pc'⟩ := by rw [hthread, update_self]
    have hplace : Lands s' o p fun qc => qc.inside = false ∧ qc.forking = false := by
      cases c with
      | fork => exact absurd rfl hc
      | exit =>
        rw [WaitLock.begin] at hb
        split at hb
        · cases hb
          exact lands_goto ⟨rfl, rfl⟩
        · cases hb
      | waitAny =>
        cases hb
        exact lands_goto ⟨rfl, rfl⟩
      | waitPid t =>
        rw [WaitLock.begin] at hb
        split at hb
        · cases hb
          intro q qc hq
          rw [hat] at hq
          cases hq
          exact ⟨rfl, rfl, rfl⟩
        · split at hb
          · cases hb
            exact lands_goto ⟨rfl, rfl⟩
          · cases hb
    exact (hplace p pc' hland).2
  refine ⟨h.locks.begin hat hb, fun x => ?_, fun x q qc hx => ?_, fun x q qc l hx hin hw => ?_⟩
  · rw [hintact]
    exact h.intact x
  · rw [hthread] at hx
    by_cases hxo : x = o
    · subst hxo
      rw [update_self] at hx
      cases hx
      exact hplain.2
    · rw [update_of_ne hxo] at hx
      exact h.forking x q qc hx
  · rw [hthread] at hx
    rw [hlock]
    by_cases hxo : x = o
    · subst hxo
      rw [update_self] at hx
      cases hx
      rw [hplain.1] at hin
      cases hin
    · rw [update_of_ne hxo] at hx
      exact h.inside x q qc l hx hin hw

/-- What a step leaves alone, if nobody forks: the processes but the one that steps, and the lock
    table but for the lock that it takes or gives back. -/
theorem Effect.elsewhere (he : Effect s o p pc s') (hfork : pc.forking = false) :
    s'.intact = s.intact ∧ (∀ x, x ≠ o → s'.thread x = s.thread x) ∧
      ∀ l, s'.lock l = s.lock l ∨ s'.lock l = none ∨
        (pc.wants p = some l ∧ s'.lock l = some o) := by
  have hupdate : ∀ (l l' : Lock) (v : Option Obj), update s.lock l v l' = s.lock l' ∨
      (l' = l ∧ update s.lock l v l' = v) := by
    intro l l' v
    by_cases hl : l' = l
    · subst hl
      exact .inr ⟨rfl, update_self ..⟩
    · exact .inl (update_of_ne hl _ _)
  cases he with
  | take l pc' hwants hfree hlock hthread hheld htables =>
    refine ⟨congrArg (fun t => t.2.1) htables, fun x hx => ?_, fun l' => ?_⟩
    · rw [hthread, update_of_ne hx]
    · rw [hlock]
      rcases hupdate l l' (some o) with hsame | ⟨rfl, hown⟩
      · exact .inl hsame
      · exact .inr (.inr ⟨hwants, hown⟩)
  | drop l pc' hlock hthread hheld htables =>
    refine ⟨congrArg (fun t => t.2.1) htables, fun x hx => ?_, fun l' => ?_⟩
    · rw [hthread, update_of_ne hx]
    · rw [hlock]
      rcases hupdate l l' none with hsame | ⟨-, hfree⟩
      · exact .inl hsame
      · exact .inr (.inl hfree)
  | alloc c hpc =>
    subst hpc
    cases hfork
  | leave hpc hs' =>
    subst hs'
    refine ⟨rfl, fun x hx => update_of_ne hx _ _, fun l' => ?_⟩
    rcases hupdate (.pcb p) l' none with hsame | ⟨-, hfree⟩
    · exact .inl hsame
    · exact .inr (.inl hfree)
  | push t targetp q hpc hpush hs' | refuse t targetp hpc hs' | free t targetp hpc huse hs' =>
    subst hs'
    exact ⟨rfl, fun x hx => update_of_ne hx _ _, fun l' => .inl rfl⟩

theorem Ordered.advance (h : Ordered s) {statusOk : Bool} (hat : s.thread o = some ⟨p, pc⟩)
    (hcond : Uncontended s (.run o statusOk))
    (ha : WaitLock.advance s o p statusOk pc = some s') : Ordered s' := by
  have he := advance_effect ha
  have hfork := h.forking o p pc hat
  obtain ⟨hintact, hoff, hlock⟩ := he.elsewhere hfork
  obtain ⟨hnext, hothers⟩ := hcond p pc hat
  refine ⟨h.locks.effect hat (fun hf => ?_) he, fun x => ?_, fun x q qc hx => ?_,
    fun x q qc l hx hin hw => ?_⟩
  · rw [hfork] at hf
    cases hf
  · rw [hintact]
    exact h.intact x
  · by_cases hxo : x = o
    · subst hxo
      obtain ⟨-, -, hplain⟩ := advance_plain ha q qc hx
      by_contra hf
      rw [Bool.not_eq_false] at hf
      rw [hfork] at hplain
      exact nomatch hplain hf
    · rw [hoff x hxo] at hx
      exact h.forking x q qc hx
  · by_cases hxo : x = o
    · -- the process that steps has just taken the lock of its target
      subst hxo
      obtain ⟨rfl, hplain, -⟩ := advance_plain ha q qc hx
      obtain ⟨t, targetp, hpc, hnextLock⟩ := hplain hin
      rw [hw] at hnextLock
      have hfree := hnext t targetp hpc
      rw [← some.inj hnextLock] at hfree
      rcases hlock l with hsame | hnone | ⟨-, hown⟩
      · exact .inl (hsame.trans hfree)
      · exact .inl hnone
      · exact .inr hown
    · rw [hoff x hxo] at hx
      rcases hlock l with hsame | hnone | ⟨htaken, -⟩
      · rw [hsame]
        exact h.inside x q qc l hx hin hw
      · exact .inl hnone
      · exact absurd hw (hothers l htaken x q qc hxo hx hin)

theorem Ordered.step (h : Ordered s) {i : Input} (hcalls : WaitExit s i) (hcond : Uncontended s i)
    (hs : Step s i s') : Ordered s' := by
  cases hs with
  | call hat hb => exact h.begin hat hcalls hb
  | run hat hintact ha => exact h.advance hat hcond ha
  | wild hat hlost =>
    obtain ⟨c, -, hc⟩ := hlost
    rw [h.intact c] at hc
    cases hc
  | reuse hfree => exact hcalls.elim

/-- No process waits for itself through others. -/
theorem Ordered.acyclic (h : Ordered s) (o : Obj) : ¬ Relation.TransGen (WaitsFor s) o o := by
  intro hcycle
  obtain ⟨x, -, hxo⟩ := Relation.TransGen.tail'_iff.mp hcycle
  obtain ⟨y, hoy, hback⟩ := Relation.TransGen.head'_iff.mp hcycle
  -- both `o` and the next one are in the middle, and so the same process
  have ho := h.middle hxo hoy
  rcases Relation.ReflTransGen.cases_head hback with heq | ⟨z, hyz, -⟩
  · exact hoy.1 heq.symm
  · have hy := h.middle hoy hyz
    rw [ho] at hy
    exact hoy.1 (some.inj hy)

/-- From any state in which all processes are in user space, `exit` and `wait4` in any interleaving
    never end in a cycle of processes that wait for each other, as long as `wait4` with a pid does
    not have to wait for its second lock. -/
theorem lockOrder_ok {s₀ : Sys} (hquiet : Quiet s₀)
    (hr : Reaches Step (fun s i => WaitExit s i ∧ Uncontended s i) s₀ s) :
    ¬ ∃ o, Relation.TransGen (WaitsFor s) o o := by
  have hinv : Ordered s := by
    refine hr.invariant hquiet.ordered fun a i b ha hcond hstep => ?_
    exact ha.step hcond.1 hcond.2 hstep
  rintro ⟨o, hcycle⟩
  exact hinv.acyclic o hcycle

/-- The first process (object 0), its child with the pid 2, and a child of that one with the
    pid 3, all in user space. -/
def family : Sys :=
  { obj := fun o =>
      if o = 0 then
        { pid := 1, parentpid := 0, state := .ready, w4child := false, waitList := [],
          childList := [1] }
      else if o = 1 then
        { pid := 2, parentpid := 1, state := .ready, w4child := false, waitList := [],
          childList := [2] }
      else
        { pid := 3, parentpid := 2, state := .ready, w4child := false, waitList := [],
          childList := [] }
    inUse := fun o => o < 3
    intact := fun _ => true
    fresh := 3
    pcbtable := fun p => if p = 1 then some 0 else if p = 2 then some 1
      else if p = 3 then some 2 else none
    pidsQueue := { queueSize := 0, queueCapacity := 64, queueHead := 0, queueTail := -1,
                   queueArray := fun _ => 0 }
    lock := fun _ => none
    thread := fun o => if o = 0 then some ⟨1, .user⟩ else if o = 1 then some ⟨2, .user⟩
      else if o = 2 then some ⟨3, .user⟩ else none }

theorem family_quiet : Quiet family := by
  refine ⟨fun _ => rfl, fun o p pc hat => ?_, fun _ => rfl⟩
  simp only [family] at hat
  split at hat
  · exact (Thread.mk.inj (some.inj hat)).2.symm
  · split at hat
    · exact (Thread.mk.inj (some.inj hat)).2.symm
    · split at hat
      · exact (Thread.mk.inj (some.inj hat)).2.symm
      · cases hat

/-- The first process calls `wait4` with the pid of its child, and takes the lock of the child. -/
theorem lockOrder_ok_waiting :
    ∃ s, Step family (.call 0 (.waitPid 2)) s ∧ ∃ s', Step s (.run 0 true) s' ∧
      s'.lock (.pcb 2) = some 0 ∧ ¬ ∃ o, Relation.TransGen (WaitsFor s') o o := by
  have hcall : Step family (.call 0 (.waitPid 2)) (family.goto 0 1 (.pidBegin 2)) :=
    .call rfl rfl
  obtain ⟨s', hs', hlock⟩ : ∃ s', runStep (family.goto 0 1 (.pidBegin 2)) (.run 0 true) = some s' ∧
      s'.lock (.pcb 2) = some 0 := ⟨_, rfl, rfl⟩
  refine ⟨_, hcall, s', runStep_sound _ _ _ hs', hlock, ?_⟩
  have hfork : WaitExit family (.call 0 (.waitPid 2)) := fun heq => nomatch heq
  have hfirst : Reaches Step (fun s i => WaitExit s i ∧ Uncontended s i) family
      (family.goto 0 1 (.pidBegin 2)) := Reaches.refl.snoc ⟨hfork, trivial⟩ hcall
  have hcond : Uncontended (family.goto 0 1 (.pidBegin 2)) (.run 0 true) := by
    intro p pc hat
    refine ⟨fun t targetp _ => rfl, fun l _ x q qc hx hat' hin => ?_⟩
    -- the other processes are in user space
    rw [goto_thread, update_of_ne hx] at hat'
    rw [family_quiet.user x q qc hat'] at hin
    cases hin
  have hcalls : WaitExit (family.goto 0 1 (.pidBegin 2)) (.run 0 true) := trivial
  exact lockOrder_ok family_quiet (hfirst.snoc ⟨hcalls, hcond⟩ (runStep_sound _ _ _ hs'))

/-- A test of `WaitExit`. -/
def waitExit (_ : Sys) : Input → Bool
  | .call _ .fork | .reuse _ => false
  | _ => true

theorem waitExit_sound (s : Sys) (i : Input) (h : waitExit s i = true) : WaitExit s i := by
  cases i with
  | call o c =>
    rintro rfl
    cases h
  | run => trivial
  | reuse => cases h

/-- The child of the process with the pid 2 exits; the first process, in `wait4` for it, holds its
    lock and spins for `wait_lock`; the process with the pid 2 exits, holds `wait_lock`, and spins for
    the lock of its child in `reparent`. -/
theorem lockOrder_deadlock : Quiet family ∧ ∃ s, Reaches Step WaitExit family s ∧
    WaitsFor s 0 1 ∧ WaitsFor s 1 0 := by
  have hrun : Leads (tested waitExit runStep) family
      ([.call 2 .exit] ++ List.replicate 6 (.run 2 true) ++
        [.call 0 (.waitPid 3), .run 0 true, .call 1 .exit, .run 1 true, .run 1 true])
      fun s => s.lock .wait = some 1 ∧ s.lock (.pcb 3) = some 0 ∧
        s.thread 0 = some ⟨1, .pidWait 3 2⟩ ∧ s.thread 1 = some ⟨2, .exitChild 2 3⟩ :=
    ⟨_, rfl, rfl, rfl, rfl, rfl⟩
  obtain ⟨s, hreach, hwait, hpcb, hat0, hat1⟩ :=
    hrun.reaches Step _ (tested_step waitExit_sound runStep_sound)
  exact ⟨family_quiet, s, hreach, ⟨by decide, 1, _, .wait, hat0, rfl, hwait⟩,
    ⟨by decide, 2, _, .pcb 3, hat1, rfl, hpcb⟩⟩

end Uniks.WaitLock
