/-
  `sys_kill` of `kernel/sys/sysproc.c`, against the process table, the wait lists and the sleep queue.

  The target's entry of `pcblock` and the lock of the sleep queue are held throughout, so a call is
  one step.  `p` is `myproc()` in all that follows the test of the target: it is the caller that is
  marked, and the caller that would be woken, were it not running.

  A wait list is any of the kernel's (a mutex, a pipe, a process that is waited for, the disk, the
  terminal, the table of descriptors): `W` is the type of their names.  `sys_kill` touches none.
-/
import Uniks.SleepQueue

namespace Uniks.Kill

open Uniks.PriorityQueue
open Uniks.Proc (Pid)
open Function (update update_self update_of_ne)

/-- The source's `enum proc_state`. -/
inductive TaskState where
  | unused
  | initing
  | block
  | ready
  | running
  | zombie
  deriving DecidableEq, Repr

/-- The fields of `struct proc_t` the call can change. -/
structure Pcb where
  state : TaskState
  killed : Bool
  deriving DecidableEq, Repr

structure State (W : Type) where
  pcbtable : Pid → Option Pcb
  waitList : W → List Pid
  pqm : PriorityQueueMeta

variable {W : Type}

/-- The source's `sys_kill` by the process `p`.  `none`: `pop_v` leaves the heap's array. -/
def sysKill (s : State W) (p targetPid : Pid) : Option (State W × Int) :=
  match s.pcbtable targetPid, s.pcbtable p with
  | some _, some pcb => do
    let pqm ← priorityQueuePopV s.pqm targetPid.val
    let pcb := { pcb with killed := true }
    let pcb := if pcb.state = .block then { pcb with state := .ready } else pcb
    return ({ s with pqm := pqm, pcbtable := update s.pcbtable p (some pcb) }, 0)
  | _, _ => some (s, -1)

/-- No pair of the queue names the process. -/
def NoEntry (pqm : PriorityQueueMeta) (t : Pid) : Prop :=
  ∀ i, 1 ≤ i → i ≤ pqm.priorityQueueSize → (pqm.priorityQueueHeap i).value ≠ t.val

/-- What a kill is to do: the target is marked; if it was blocked it is ready, and nobody will wake it
    a second time; nothing happens to anybody else. -/
structure KillsOnly (s : State W) (t : Pid) (s' : State W) : Prop where
  marked : ∃ pcb, s'.pcbtable t = some pcb ∧ pcb.killed = true
  woken : ∀ pcb, s.pcbtable t = some pcb → pcb.state = .block →
    (∃ pcb', s'.pcbtable t = some pcb' ∧ pcb'.state = .ready) ∧ (∀ l, t ∉ s'.waitList l) ∧
      NoEntry s'.pqm t
  others : ∀ q, q ≠ t → s'.pcbtable q = s.pcbtable q

variable {s s' : State W} {p t : Pid} {caller target : Pcb}

/-- A call by a process that runs: it marks itself, and nobody is woken. -/
theorem sysKill_eq (hcaller : s.pcbtable p = some caller) (hrun : caller.state = .running)
    (htarget : s.pcbtable t = some target) :
    sysKill s p t = (priorityQueuePopV s.pqm t.val).map fun pqm =>
      ({ s with
          pcbtable := update s.pcbtable p (some { caller with killed := true })
          pqm := pqm }, 0) := by
  have hnot : ¬ caller.state = .block := by
    rw [hrun]
    exact fun heq => nomatch heq
  unfold sysKill
  rw [htarget, hcaller]
  dsimp only
  rw [if_neg hnot]
  cases priorityQueuePopV s.pqm t.val with
  | none => rfl
  | some pqm => rfl

theorem sysKill_spec (hcaller : s.pcbtable p = some caller) (hrun : caller.state = .running)
    (htarget : s.pcbtable t = some target) (h : sysKill s p t = some (s', 0)) :
    priorityQueuePopV s.pqm t.val = some s'.pqm ∧ s'.waitList = s.waitList ∧
      s'.pcbtable = update s.pcbtable p (some { caller with killed := true }) := by
  rw [sysKill_eq hcaller hrun htarget] at h
  obtain ⟨pqm, hpop, heq⟩ := Option.map_eq_some_iff.mp h
  cases heq
  exact ⟨hpop, rfl, rfl⟩

/-- The call is a kill of its target exactly if there is nothing left to do: the caller and the target
    have been marked before, and the target is not blocked. -/
theorem kill_law_iff (hcaller : s.pcbtable p = some caller) (hrun : caller.state = .running)
    (htarget : s.pcbtable t = some target) (hother : t ≠ p)
    (h : sysKill s p t = some (s', 0)) :
    KillsOnly s t s' ↔ caller.killed = true ∧ target.killed = true ∧ target.state ≠ .block := by
  obtain ⟨-, -, htable⟩ := sysKill_spec hcaller hrun htarget h
  have hsame : s'.pcbtable t = some target := by
    rw [htable, update_of_ne hother, htarget]
  have hmark : s'.pcbtable p = some { caller with killed := true } := by
    rw [htable, update_self]
  constructor
  · intro hkills
    refine ⟨?_, ?_, fun hblock => ?_⟩
    · have hkeep := hkills.others p (Ne.symm hother)
      rw [hmark, hcaller] at hkeep
      rw [← Option.some.inj hkeep]
    · obtain ⟨pcb, hpcb, hmarked⟩ := hkills.marked
      rw [hsame] at hpcb
      rw [Option.some.inj hpcb]
      exact hmarked
    · obtain ⟨⟨pcb, hpcb, hready⟩, -⟩ := hkills.woken target htarget hblock
      rw [hsame] at hpcb
      rw [← Option.some.inj hpcb, hblock] at hready
      cases hready
  · rintro ⟨hcallerMarked, htargetMarked, hawake⟩
    refine ⟨⟨target, hsame, htargetMarked⟩, fun pcb hpcb hblock => ?_, fun q hq => ?_⟩
    · rw [htarget] at hpcb
      rw [← Option.some.inj hpcb] at hblock
      exact absurd hblock hawake
    · rw [htable]
      by_cases hqp : q = p
      · subst hqp
        rw [update_self, hcaller, ← hcallerMarked]
      · rw [update_of_ne hqp]

/-- An empty queue, and two processes that have been marked already: the caller 1 runs, and 2 is
    ready. -/
def bothMarked : State Unit where
  pcbtable := fun q => if q = 1 then some ⟨.running, true⟩ else
    if q = 2 then some ⟨.ready, true⟩ else none
  waitList := fun _ => []
  pqm := ⟨0, 64, fun _ => ⟨0, 0⟩⟩

theorem kill_law_iff_marked : ∃ s', sysKill bothMarked 1 2 = some (s', 0) ∧
    KillsOnly bothMarked 2 s' := by
  have hpop : priorityQueuePopV bothMarked.pqm ((2 : Pid).val : Int) = some bothMarked.pqm :=
    priorityQueuePopV_eq fun i _ hlt => absurd hlt (Nat.not_lt_zero i)
  have hkill := sysKill_eq (s := bothMarked) (p := 1) (t := 2) rfl rfl rfl
  rw [hpop] at hkill
  exact ⟨_, hkill, (kill_law_iff rfl rfl rfl (by decide) hkill).mpr ⟨rfl, rfl, by decide⟩⟩

/-- The caller 1 runs, and 2 waits. -/
def waiter : State Unit where
  pcbtable := fun q => if q = 1 then some ⟨.running, false⟩ else
    if q = 2 then some ⟨.block, false⟩ else none
  waitList := fun _ => [2]
  pqm := ⟨0, 64, fun _ => ⟨0, 0⟩⟩

/-- Process 1 kills process 2, and it is process 1 that is marked: 2 waits on. -/
theorem kill_marks_caller : ∃ s', sysKill waiter 1 2 = some (s', 0) ∧
    s'.pcbtable 1 = some ⟨.running, true⟩ ∧ s'.pcbtable 2 = some ⟨.block, false⟩ ∧
    s'.waitList () = [2] ∧ ¬ KillsOnly waiter 2 s' := by
  have hpop : priorityQueuePopV waiter.pqm ((2 : Pid).val : Int) = some waiter.pqm :=
    priorityQueuePopV_eq fun i _ hlt => absurd hlt (Nat.not_lt_zero i)
  have hkill := sysKill_eq (s := waiter) (p := 1) (t := 2) rfl rfl rfl
  rw [hpop] at hkill
  refine ⟨_, hkill, rfl, rfl, rfl, fun hkills => ?_⟩
  obtain ⟨pcb, hpcb, hmarked⟩ := hkills.marked
  have htarget : some ⟨.block, false⟩ = some pcb := hpcb
  rw [← Option.some.inj htarget] at hmarked
  cases hmarked

/-! ## The sleep queue -/

/-- The same moment in the system of the sleep queue, which knows nothing of the wait lists. -/
structure Sleeps (s : State W) (q : SleepQueue.State) : Prop where
  pqm : q.pqm = s.pqm
  killed : ∀ p pcb, s.pcbtable p = some pcb → q.killed p = pcb.killed
  absent : ∀ p, q.place p = .absent ↔ s.pcbtable p = none
  asleep : ∀ p d, q.place p = .asleep d → ∃ pcb, s.pcbtable p = some pcb ∧ pcb.state = .block

/-- There the call does the same. -/
theorem Sleeps.kill {q q' : SleepQueue.State} (h : Sleeps s q)
    (hcaller : s.pcbtable p = some caller) (hrun : caller.state = .running)
    (htarget : s.pcbtable t = some target) (hkill : SleepQueue.sysKill q p t = some q') :
    ∃ s', sysKill s p t = some (s', 0) ∧ Sleeps s' q' := by
  obtain ⟨pqm, hpop, hkill⟩ := Option.bind_eq_some_iff.mp hkill
  rw [h.pqm] at hpop
  have hawake : ∀ d, q.place p ≠ .asleep d := by
    intro d hd
    obtain ⟨pcb, hpcb, hblock⟩ := h.asleep p d hd
    rw [hcaller] at hpcb
    rw [← Option.some.inj hpcb, hrun] at hblock
    cases hblock
  have hq' : q' = { q with pqm := pqm, killed := update q.killed p true } := by
    dsimp only at hkill
    split at hkill
    · rename_i d hd
      exact absurd hd (hawake d)
    · exact (Option.some.inj hkill).symm
  subst hq'
  refine ⟨_, by rw [sysKill_eq hcaller hrun htarget, hpop]; rfl, rfl, ?_, ?_, ?_⟩
  · intro r pcb hpcb
    dsimp only at hpcb ⊢
    by_cases hrp : r = p
    · subst hrp
      rw [update_self] at hpcb ⊢
      rw [← Option.some.inj hpcb]
    · rw [update_of_ne hrp] at hpcb ⊢
      exact h.killed r pcb hpcb
  · intro r
    dsimp only
    by_cases hrp : r = p
    · subst hrp
      rw [update_self, h.absent, hcaller]
      exact ⟨fun hnone => (nomatch hnone), fun hnone => (nomatch hnone)⟩
    · rw [update_of_ne hrp]
      exact h.absent r
  · intro r d hd
    dsimp only at hd ⊢
    have hrp : r ≠ p := fun heq => hawake d (heq ▸ hd)
    rw [update_of_ne hrp]
    exact h.asleep r d hd

end Uniks.Kill
