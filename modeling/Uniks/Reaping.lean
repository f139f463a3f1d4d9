/-
  Who reaps a process: the pids that are free, taken or about to be taken.

  A pid is in the queue, or in use (`pcbtable` names its process), or in the hands of a `fork` that
  has taken it from the queue and spins for its lock.  `wait4` puts the pid back before it clears the
  entry of `pcbtable`; in between it holds the lock of the pid, and the pid counts as free
  (`Clearing`).

  Two calls of `wait4` cannot be at the end for one process at once, as both hold its lock.  What
  is left is the waiter that is woken by the exit, and looks again at a process that somebody else
  has reaped in the meantime: `Rechecked` excludes it, and the memory that is used again.
-/
import Uniks.LockOrder

namespace Uniks.WaitLock

open Uniks.Queue Uniks.Runs
open Uniks.Proc (NPROC Pid INIT)
open Function (update update_self update_of_ne)
open Option (some bind_eq_some_iff)

variable {s s' : Sys} {o : Obj} {p : Pid} {pc : Pc}

/-! ## Places -/

/-- The process that a place is about, while its lock is held: its pid, and itself. -/
def Pc.target : Pc → Option (Pid × Obj)
  | .foundKilled t b | .foundRelKilled t b | .pidBlock t b | .pidWait t b | .reap t b
  | .reapFree t b => some (t, b)
  | _ => none

/-- A process is a zombie and still runs, for the end of `do_exit`. -/
def Pc.dying : Pc → Bool
  | .exitWake _ _ _ | .exitRelWake _ _ | .exitParent _ _ | .exitRelParent _ | .exitRelWait
  | .exitSched => true
  | _ => false

/-- The places whose step is about a pid or an entry of `pcbtable`, or the last one. -/
def Pc.special : Pc → Bool
  | .forkLock _ | .reap _ _ | .reapFree _ _ | .exitSched => true
  | _ => false

theorem target_held {t : Pid} {b : Obj} (h : pc.target = some (t, b)) : .pcb t ∈ pc.held p := by
  cases pc with
  | foundKilled _ _ | pidBlock _ _ | pidWait _ _ | reap _ _ | reapFree _ _ =>
    cases h
    exact List.mem_cons_self
  | foundRelKilled _ _ =>
    cases h
    exact List.mem_cons_of_mem _ List.mem_cons_self
  | _ => cases h

theorem dying_held (h : pc.dying = true) : .pcb p ∈ pc.held p := by
  cases pc with
  | exitWake _ _ _ | exitParent _ _ | exitRelWait | exitSched => exact List.mem_cons_self
  | exitRelWake _ _ | exitRelParent _ => exact List.mem_cons_of_mem _ List.mem_cons_self
  | _ => cases h

theorem target_not_dying {t : Pid} {b : Obj} (h : pc.target = some (t, b)) : pc.dying = false := by
  cases pc with
  | foundKilled _ _ | pidBlock _ _ | pidWait _ _ | reap _ _ | reapFree _ _ | foundRelKilled _ _ => rfl
  | _ => cases h

/-- What is known of the place a step leads to: no pid is taken there; it is about the process the
    last place was about, or about the one `pcbtable` names, or about the one the process has waited
    for; and a zombie goes on dying. -/
structure Follows (s : Sys) (pc pc' : Pc) : Prop where
  taking : ∀ c, pc' ≠ .forkLock c
  target : ∀ t b, pc'.target = some (t, b) →
    pc.target = some (t, b) ∨ s.pcbtable t = some b ∨ pc = .pidRelock t b
  clearing : ∀ t b, pc' = .reapFree t b → pc = .reap t b ∧ (s.obj b).state = .zombie
  dying : pc.dying = true ∨ pc = .exitSelf → pc'.dying = true

/-- Most places are about nobody. -/
theorem follows_of_none {pc' : Pc} (htaking : ∀ c, pc' ≠ .forkLock c) (htarget : pc'.target = none)
    (hdying : pc.dying = true ∨ pc = .exitSelf → pc'.dying = true) : Follows s pc pc' := by
  refine ⟨htaking, ?_, ?_, hdying⟩
  · intro t b h
    rw [htarget] at h
    cases h
  · intro t b h
    subst h
    cases htarget

/-- The places of a process that is alive. -/
theorem follows_alive {pc' : Pc} (htaking : ∀ c, pc' ≠ .forkLock c) (htarget : pc'.target = none)
    (halive : pc.dying = false) (hself : pc ≠ .exitSelf) : Follows s pc pc' := by
  apply follows_of_none htaking htarget
  rintro (hd | hd)
  · rw [halive] at hd
    cases hd
  · exact absurd hd hself

theorem follows_target {pc' : Pc} {t : Pid} {b : Obj} (htaking : ∀ c, pc' ≠ .forkLock c)
    (htarget : pc'.target = some (t, b)) (hclear : ∀ t b, pc' ≠ .reapFree t b)
    (h : pc.target = some (t, b) ∨ s.pcbtable t = some b ∨ pc = .pidRelock t b)
    (halive : pc.dying = false) (hself : pc ≠ .exitSelf) : Follows s pc pc' := by
  refine ⟨htaking, ?_, ?_, ?_⟩
  · intro t' b' h'
    rw [htarget] at h'
    cases h'
    exact h
  · intro t' b' h'
    exact absurd h' (hclear t' b')
  · rintro (hd | hd)
    · rw [halive] at hd
      cases hd
    · exact absurd hd hself

theorem pidLoop_follows (s₀ s : Sys) (o : Obj) (p t : Pid) (targetp : Obj)
    (h : s₀.pcbtable t = some targetp ∨ pc = .pidRelock t targetp) (halive : pc.dying = false)
    (hself : pc ≠ .exitSelf) : Lands (pidLoop s o p t targetp) o p (Follows s₀ pc) := by
  unfold pidLoop
  split
  · exact lands_goto (follows_target (fun _ => nofun) rfl (fun _ _ => nofun) (.inr h) halive hself)
  · exact lands_goto (follows_target (fun _ => nofun) rfl (fun _ _ => nofun) (.inr h) halive hself)

theorem exitUnblock_follows {num : Nat} (h : exitUnblock s o p num = some s') (s₀ : Sys) :
    Lands s' o p (Follows s₀ pc) := by
  refine exitUnblock_lands h ?_ ?_ ?_
  · intro n w wp
    exact follows_of_none (fun _ => nofun) rfl fun _ => rfl
  · intro b bp
    exact follows_of_none (fun _ => nofun) rfl fun _ => rfl
  · exact follows_of_none (fun _ => nofun) rfl fun _ => rfl

theorem advance_follows {statusOk : Bool} (h : advance s o p statusOk pc = some s') :
    Lands s' o p (Follows s pc) := by
  cases advance_cases h with
  | exitRelParent | exitRelWait | exitWake | exitParentWake | exitParent =>
    exact lands_goto (follows_of_none (fun _ => Pc.noConfusion) rfl fun _ => rfl)
  | foundRelKilled | foundKilled | pidWait =>
    exact lands_goto (follows_target (fun _ => Pc.noConfusion) rfl (fun _ _ => Pc.noConfusion)
      (.inl rfl) rfl Pc.noConfusion)
  | anyScanFound _ _ _ htarget =>
    exact lands_goto (follows_target (fun _ => Pc.noConfusion) rfl (fun _ _ => Pc.noConfusion)
      (.inr (.inl htarget)) rfl Pc.noConfusion)
  | exitBegin _ hloop | exitRelInit hloop =>
    refine exitLoop_lands hloop ?_ ?_
    · exact follows_alive (fun _ => Pc.noConfusion) rfl rfl Pc.noConfusion
    · intro c
      exact follows_alive (fun _ => Pc.noConfusion) rfl rfl Pc.noConfusion
  | exitSelf _ hloop | exitRelWake hloop => exact exitUnblock_follows hloop s
  | exitSched =>
    intro q qc hq
    have hnone : update s.thread o none o = some ⟨q, qc⟩ := hq
    rw [update_self] at hnone
    cases hnone
  | @anyRelChild _ cs =>
    refine anyLoop_lands _ o p cs ?_ ?_
    · exact follows_alive (fun _ => Pc.noConfusion) rfl rfl Pc.noConfusion
    · intro c cp rest
      exact follows_alive (fun _ => Pc.noConfusion) rfl rfl Pc.noConfusion
  | @pidBegin t b _ htarget =>
    exact pidLoop_follows s _ o p t b (.inl htarget) rfl Pc.noConfusion
  | @pidRelock t b => exact pidLoop_follows s _ o p t b (.inr rfl) rfl Pc.noConfusion
  | reap hz =>
    apply lands_goto
    refine ⟨fun _ => Pc.noConfusion, ?_, ?_, ?_⟩
    · intro t' b' h'
      exact .inl h'
    · intro t' b' h'
      rcases Pc.reapFree.inj h' with ⟨rfl, rfl⟩
      exact ⟨rfl, hz⟩
    · rintro (hd | hd)
      · cases hd
      · cases hd
  | _ => exact lands_goto (follows_alive (fun _ => Pc.noConfusion) rfl rfl Pc.noConfusion)

/-! ## The invariant -/

/-- A `fork` has the pid, and does not have its lock yet. -/
def SettingUp (s : Sys) (t : Pid) : Prop := ∃ o p, s.thread o = some ⟨p, .forkLock t⟩

/-- A `wait4` has put the pid back and is about to clear its entry. -/
def Clearing (s : Sys) (t : Pid) : Prop := ∃ o p b, s.thread o = some ⟨p, .reapFree t b⟩

/-- The pid is that of a process, and nobody has put it back. -/
def Occupied (s : Sys) (t : Pid) : Prop := s.pcbtable t ≠ none ∧ ¬ Clearing s t

/-- Every pid but 0 is free, taken or about to be, and only one of these. -/
structure Apart (s : Sys) (xs : List Pid) : Prop where
  queue : Holds s.pidsQueue xs
  nodup : xs.Nodup
  zero : 0 ∉ xs ∧ s.pcbtable 0 = none ∧ ¬ SettingUp s 0
  all : ∀ t, t ≠ 0 → t ∈ xs ∨ Occupied s t ∨ SettingUp s t
  free : ∀ t ∈ xs, ¬ Occupied s t ∧ ¬ SettingUp s t
  taken : ∀ t, SettingUp s t → ¬ Occupied s t
  once : ∀ o o' p p' t, s.thread o = some ⟨p, .forkLock t⟩ → s.thread o' = some ⟨p', .forkLock t⟩ →
    o = o'

structure Reaping (s : Sys) : Prop where
  locks : LocksHeld s
  fresh : ∀ x, s.fresh ≤ x → s.thread x = none ∧ s.inUse x = false
  entry : ∀ t b, s.pcbtable t = some b → s.inUse b = true ∧ (s.obj b).pid = t
  alive : ∀ o p pc, s.thread o = some ⟨p, pc⟩ →
    s.inUse o = true ∧ (s.obj o).pid = p ∧ s.pcbtable p = some o
  dying : ∀ o p pc, s.thread o = some ⟨p, pc⟩ → (s.obj o).state = .zombie → pc.dying = true
  target : ∀ o p pc t b, s.thread o = some ⟨p, pc⟩ → pc.target = some (t, b) →
    s.pcbtable t = some b
  gone : ∀ o p t b, s.thread o = some ⟨p, .reapFree t b⟩ → s.thread b = none
  apart : ∃ xs, Apart s xs

/-- Only one process holds the lock of a pid. -/
theorem Reaping.same_target (h : Reaping s) {o' : Obj} {p' : Pid} {pc' : Pc} {t : Pid} {b b' : Obj}
    (hat : s.thread o = some ⟨p, pc⟩) (hat' : s.thread o' = some ⟨p', pc'⟩)
    (ht : pc.target = some (t, b)) (ht' : pc'.target = some (t, b')) : o = o' := by
  have hlock : s.lock (.pcb t) = some o := by
    rw [h.locks.holder, heldBy_eq hat]
    exact target_held ht
  have hlock' : s.lock (.pcb t) = some o' := by
    rw [h.locks.holder, heldBy_eq hat']
    exact target_held ht'
  rw [hlock] at hlock'
  exact some.inj hlock'

/-- The places but the two of the process that steps are taken by the same processes as before. -/
theorem thread_iff {pc' qc : Pc} {x : Obj} {q : Pid} (hat : s.thread o = some ⟨p, pc⟩)
    (hthread : s'.thread = update s.thread o (some ⟨p, pc'⟩)) (hold : qc ≠ pc)
    (hnew : qc ≠ pc') : s'.thread x = some ⟨q, qc⟩ ↔ s.thread x = some ⟨q, qc⟩ := by
  rw [hthread]
  by_cases hx : x = o
  · subst hx
    rw [update_self, hat]
    constructor
    · intro h
      exact absurd (Thread.mk.inj (some.inj h)).2.symm hnew
    · intro h
      exact absurd (Thread.mk.inj (some.inj h)).2.symm hold
  · rw [update_of_ne hx]

/-- The pids stay where they are. -/
theorem Apart.congr {xs : List Pid} (h : Apart s xs) (hqueue : s'.pidsQueue = s.pidsQueue)
    (hfork : ∀ x q t, s'.thread x = some ⟨q, .forkLock t⟩ ↔ s.thread x = some ⟨q, .forkLock t⟩)
    (hzero : s.pcbtable 0 = none → s'.pcbtable 0 = none)
    (hocc : ∀ t, Occupied s' t ↔ Occupied s t) : Apart s' xs := by
  have hset : ∀ t, SettingUp s' t ↔ SettingUp s t := by
    intro t
    simp only [SettingUp, hfork]
  refine ⟨hqueue ▸ h.queue, h.nodup, ⟨h.zero.1, hzero h.zero.2.1, ?_⟩, ?_, ?_, ?_, ?_⟩
  · rw [hset]
    exact h.zero.2.2
  · intro t ht
    rw [hset, hocc]
    exact h.all t ht
  · intro t ht
    rw [hset, hocc]
    exact h.free t ht
  · intro t ht
    rw [hset] at ht
    rw [hocc]
    exact h.taken t ht
  · intro x y q q' t hx hy
    rw [hfork] at hx hy
    exact h.once x y q q' t hx hy

/-- A pid that is in use as before. -/
theorem occupied_congr {t : Pid} (htable : s'.pcbtable t = s.pcbtable t)
    (hclear : ∀ x q b, s'.thread x = some ⟨q, .reapFree t b⟩ ↔ s.thread x = some ⟨q, .reapFree t b⟩) :
    Occupied s' t ↔ Occupied s t := by
  simp only [Occupied, Clearing, htable, hclear]

/-- The other processes, after a step of one that changes only its own place. -/
theorem thread_cases {pc' : Pc} (hthread : s'.thread = update s.thread o (some ⟨p, pc'⟩))
    {x : Obj} {q : Pid} {qc : Pc} (hx : s'.thread x = some ⟨q, qc⟩) :
    (x = o ∧ q = p ∧ qc = pc') ∨ (x ≠ o ∧ s.thread x = some ⟨q, qc⟩) := by
  rw [hthread] at hx
  by_cases hxo : x = o
  · subst hxo
    rw [update_self] at hx
    cases hx
    exact .inl ⟨rfl, rfl, rfl⟩
  · rw [update_of_ne hxo] at hx
    exact .inr ⟨hxo, hx⟩

/-- The process goes from one place to another; objects are neither set up nor freed. -/
theorem Reaping.moved (h : Reaping s) (hat : s.thread o = some ⟨p, pc⟩) {pc' : Pc}
    (hthread : s'.thread = update s.thread o (some ⟨p, pc'⟩))
    (huse : s'.inUse = s.inUse) (hfresh : s'.fresh = s.fresh) (htable : s'.pcbtable = s.pcbtable)
    (hpids : ∀ x, (s'.obj x).pid = (s.obj x).pid)
    (hzombie : ∀ x, x ≠ o → (s'.obj x).state = .zombie → (s.obj x).state = .zombie)
    (hdying : (s'.obj o).state = .zombie → pc'.dying = true)
    (htarget : ∀ t b, pc'.target = some (t, b) → s.pcbtable t = some b)
    (hgone : ∀ t b, pc' = .reapFree t b → s.thread b = none)
    (hlocks : LocksHeld s') (hapart : ∃ xs, Apart s' xs) : Reaping s' := by
  have hsome : s.thread o ≠ none := by
    rw [hat]
    exact nofun
  -- a process that has left is not the one that steps
  have hnone : ∀ b, s.thread b = none → s'.thread b = none := by
    intro b hb
    rw [hthread, update_of_ne]
    · exact hb
    · rintro rfl
      exact hsome hb
  refine ⟨hlocks, ?_, ?_, ?_, ?_, ?_, ?_, hapart⟩
  · intro x hx
    rw [hfresh] at hx
    rw [huse]
    exact ⟨hnone x (h.fresh x hx).1, (h.fresh x hx).2⟩
  · intro t b hb
    rw [htable] at hb
    rw [huse, hpids]
    exact h.entry t b hb
  · intro x q qc hx
    rw [huse, hpids, htable]
    rcases thread_cases hthread hx with ⟨rfl, rfl, rfl⟩ | ⟨-, hx⟩
    · exact h.alive x q pc hat
    · exact h.alive x q qc hx
  · intro x q qc hx hz
    rcases thread_cases hthread hx with ⟨rfl, rfl, rfl⟩ | ⟨hxo, hx⟩
    · exact hdying hz
    · exact h.dying x q qc hx (hzombie x hxo hz)
  · intro x q qc t b hx ht
    rw [htable]
    rcases thread_cases hthread hx with ⟨rfl, rfl, rfl⟩ | ⟨-, hx⟩
    · exact htarget t b ht
    · exact h.target x q qc t b hx ht
  · intro x q t b hx
    apply hnone
    rcases thread_cases hthread hx with ⟨rfl, rfl, rfl⟩ | ⟨-, hx⟩
    · exact hgone t b rfl
    · exact h.gone x q t b hx

/-- A step that is about no pid. -/
theorem Reaping.plain (h : Reaping s) (hat : s.thread o = some ⟨p, pc⟩) {pc' : Pc}
    (hfollows : Follows s pc pc') (hfork : ∀ c, pc ≠ .forkLock c) (hfree : ∀ t b, pc ≠ .reapFree t b)
    (hreap : ∀ t b, pc' ≠ .reapFree t b)
    (hthread : s'.thread = update s.thread o (some ⟨p, pc'⟩))
    (htables : s'.tables = s.tables) (hpids : ∀ x, (s'.obj x).pid = (s.obj x).pid)
    (hzombie : ∀ x, (s'.obj x).state = .zombie →
      (s.obj x).state = .zombie ∨ (x = o ∧ pc = .exitSelf))
    (hrelock : ∀ t b, pc = .pidRelock t b → s.pcbtable t = some b) (hlocks : LocksHeld s') :
    Reaping s' := by
  have hqueue : s'.pidsQueue = s.pidsQueue := congrArg (fun t => t.2.2.2.2) htables
  have htable : s'.pcbtable = s.pcbtable := congrArg (fun t => t.2.2.2.1) htables
  refine h.moved hat hthread (congrArg (fun t => t.1) htables) (congrArg (fun t => t.2.2.1) htables)
    htable hpids ?_ ?_ ?_ ?_ hlocks ?_
  · intro x hx hz
    exact (hzombie x hz).resolve_right fun heq => hx heq.1
  · intro hz
    apply hfollows.dying
    rcases hzombie o hz with hold | ⟨-, hself⟩
    · exact .inl (h.dying o p pc hat hold)
    · exact .inr hself
  · intro t b ht
    rcases hfollows.target t b ht with hold | htab | hrel
    · exact h.target o p pc t b hat hold
    · exact htab
    · exact hrelock t b hrel
  · intro t b ht
    exact absurd ht (hreap t b)
  · rcases h.apart with ⟨xs, hxs⟩
    refine ⟨xs, hxs.congr hqueue ?_ ?_ ?_⟩
    · intro x q t
      exact thread_iff hat hthread (hfork t).symm (hfollows.taking t).symm
    · intro hzero
      rw [htable]
      exact hzero
    · intro t
      apply occupied_congr
      · rw [htable]
      · intro x q b
        exact thread_iff hat hthread (hfree t b).symm (hreap t b).symm

/-! ## Steps -/

/-- `allocpid` takes the pid at the front. -/
theorem Apart.fork {xs : List Pid} {c : Pid} {q : QueueMeta Pid} (h : Apart s (c :: xs))
    (hat : s.thread o = some ⟨p, .user⟩) (hpop : queueFrontPop s.pidsQueue = some q) :
    Apart ({ s with pidsQueue := q }.goto o p (.forkLock c)) xs := by
  have hset : ∀ t, SettingUp ({ s with pidsQueue := q }.goto o p (.forkLock c)) t ↔
      t = c ∨ SettingUp s t := by
    intro t
    constructor
    · rintro ⟨x, r, hx⟩
      rw [goto_thread] at hx
      by_cases hxo : x = o
      · subst hxo
        rw [update_self] at hx
        rcases Thread.mk.inj (some.inj hx) with ⟨-, hpc⟩
        exact .inl (Pc.forkLock.inj hpc).symm
      · rw [update_of_ne hxo] at hx
        exact .inr ⟨x, r, hx⟩
    · rintro (rfl | ⟨x, r, hx⟩)
      · exact ⟨o, p, update_self ..⟩
      · refine ⟨x, r, ?_⟩
        rw [goto_thread, update_of_ne]
        · exact hx
        · rintro rfl
          exact nomatch hat.symm.trans hx
  have hocc : ∀ t, Occupied ({ s with pidsQueue := q }.goto o p (.forkLock c)) t ↔
      Occupied s t := by
    intro t
    refine occupied_congr rfl ?_
    intro x r b
    exact thread_iff hat rfl nofun nofun
  have hnodup := List.nodup_cons.mp h.nodup
  refine ⟨(h.queue.frontPop hpop).1, hnodup.2, ⟨?_, h.zero.2.1, ?_⟩, ?_, ?_, ?_, ?_⟩
  · intro hmem
    exact h.zero.1 (List.mem_cons_of_mem c hmem)
  · rw [hset]
    rintro (hc | hs)
    · subst hc
      exact h.zero.1 List.mem_cons_self
    · exact h.zero.2.2 hs
  · intro t ht
    rw [hset, hocc]
    rcases h.all t ht with hmem | hrest
    · rcases List.mem_cons.mp hmem with hc | hmem
      · exact .inr (.inr (.inl hc))
      · exact .inl hmem
    · exact .inr (hrest.imp_right Or.inr)
  · intro t ht
    rw [hset, hocc]
    rcases h.free t (List.mem_cons_of_mem c ht) with ⟨hno, hns⟩
    refine ⟨hno, ?_⟩
    rintro (hc | hs)
    · subst hc
      exact hnodup.1 ht
    · exact hns hs
  · intro t ht
    rw [hocc]
    rcases (hset t).mp ht with hc | hs
    · subst hc
      exact (h.free t List.mem_cons_self).1
    · exact h.taken t hs
  · -- nobody else has the pid that was in the queue
    intro x y r r' t hx hy
    have hother : ∀ z w, z ≠ o → ({ s with pidsQueue := q }.goto o p (.forkLock c)).thread z =
        some ⟨w, .forkLock t⟩ → s.thread z = some ⟨w, .forkLock t⟩ := by
      intro z w hz hzt
      rw [goto_thread, update_of_ne hz] at hzt
      exact hzt
    have hself : ∀ w, ({ s with pidsQueue := q }.goto o p (.forkLock c)).thread o =
        some ⟨w, .forkLock t⟩ → ¬ SettingUp s t := by
      intro w hw
      rw [goto_thread, update_self] at hw
      rcases Thread.mk.inj (some.inj hw) with ⟨-, hpc⟩
      rcases Pc.forkLock.inj hpc
      exact (h.free c List.mem_cons_self).2
    by_cases hxo : x = o
    · by_cases hyo : y = o
      · rw [hxo, hyo]
      · subst hxo
        exact absurd ⟨y, r', hother y r' hyo hy⟩ (hself r hx)
    · by_cases hyo : y = o
      · subst hyo
        exact absurd ⟨x, r, hother x r hxo hx⟩ (hself r' hy)
      · exact h.once x y r r' t (hother x r hxo hx) (hother y r' hyo hy)

/-- A process in user space goes to the front of a call that is about no pid. -/
theorem Reaping.call_plain (h : Reaping s) (hat : s.thread o = some ⟨p, .user⟩) {pc' : Pc}
    (htaking : ∀ c, pc' ≠ .forkLock c) (htarget : pc'.target = none)
    (hlocks : LocksHeld (s.goto o p pc')) : Reaping (s.goto o p pc') := by
  refine h.plain hat (follows_alive htaking htarget rfl nofun) (fun _ => nofun) (fun _ _ => nofun) ?_
    rfl rfl (fun _ => rfl) (fun _ hz => .inl hz) (fun _ _ => nofun) hlocks
  intro t b heq
  subst heq
  cases htarget

theorem Reaping.begin (h : Reaping s) {c : Call} (hat : s.thread o = some ⟨p, .user⟩)
    (hb : WaitLock.begin s o p c = some s') : Reaping s' := by
  have hlocks := h.locks.begin hat hb
  cases c with
  | fork =>
    rw [WaitLock.begin] at hb
    split at hb
    · cases hb
      exact h
    · rename_i hne
      rcases bind_eq_some_iff.mp hb with ⟨q, hpop, hb⟩
      cases hb
      rcases h.apart with ⟨xs, hxs⟩
      cases xs with
      | nil => exact absurd (hxs.queue.queueEmpty_iff.mpr rfl) hne
      | cons c xs =>
        rw [hxs.queue.front] at hlocks ⊢
        refine h.moved hat rfl rfl rfl rfl (fun _ => rfl) (fun _ _ hz => hz) ?_
          (fun _ _ hb => by cases hb)
          (fun _ _ => Pc.noConfusion) hlocks ⟨xs, hxs.fork hat hpop⟩
        intro hz
        cases h.dying o p .user hat hz
  | exit =>
    rw [WaitLock.begin] at hb
    split at hb
    · cases hb
      exact h.call_plain hat (fun _ => Pc.noConfusion) rfl hlocks
    · cases hb
  | waitAny =>
    cases hb
    exact h.call_plain hat (fun _ => Pc.noConfusion) rfl hlocks
  | waitPid t =>
    rw [WaitLock.begin] at hb
    split at hb
    · cases hb
      exact h
    · split at hb
      · cases hb
        exact h.call_plain hat (fun _ => Pc.noConfusion) rfl hlocks
      · cases hb

/-- A pid whose lock is free is not on its way back. -/
theorem Reaping.not_clearing (h : Reaping s) {c : Pid} (hfree : s.lock (.pcb c) = none) :
    ¬ Clearing s c := by
  rintro ⟨x, q, b, hx⟩
  have hlock : s.lock (.pcb c) = some x := by
    rw [h.locks.holder, heldBy_eq hx]
    exact List.mem_cons_self
  rw [hfree] at hlock
  cases hlock

/-- `allocproc` has the lock of a pid that names nobody. -/
theorem Reaping.pid_unused (h : Reaping s) {c : Pid} (hat : s.thread o = some ⟨p, .forkLock c⟩)
    (hfree : s.lock (.pcb c) = none) : s.pcbtable c = none := by
  rcases h.apart with ⟨xs, hxs⟩
  by_contra hne
  exact hxs.taken c ⟨o, p, hat⟩ ⟨hne, h.not_clearing hfree⟩

/-- The pid that was taken from the queue names the new process. -/
theorem Apart.alloc {xs : List Pid} {c : Pid} {s₁ : Sys} (h : Apart s xs)
    (hat : s.thread o = some ⟨p, .forkLock c⟩) (hback : ¬ Clearing s c)
    (hfresh : s.thread s.fresh = none) (hsame : s₁.thread = s.thread) (hnew : s₁.fresh = s.fresh) (hqueue : s₁.pidsQueue = s.pidsQueue)
    (htable : s₁.pcbtable = s.pcbtable) :
    Apart ((s₁.allocproc c).goto o p (.forkLink c s.fresh)) xs := by
  have hthread : ((s₁.allocproc c).goto o p (.forkLink c s.fresh)).thread = update
      (update s.thread s.fresh (some ⟨c, .start⟩)) o (some ⟨p, .forkLink c s.fresh⟩) := by
    show update (update s₁.thread s₁.fresh _) o _ = _
    rw [hsame, hnew]
  have htab : ((s₁.allocproc c).goto o p (.forkLink c s.fresh)).pcbtable
      = update s.pcbtable c (some s.fresh) := by
    show update s₁.pcbtable c (some s₁.fresh) = _
    rw [htable, hnew]
  -- the places that matter, but for that of the process that steps
  have hplace : ∀ x q qc, (∀ d, qc ≠ .forkLink d s.fresh) → qc ≠ .start →
      (((s₁.allocproc c).goto o p (.forkLink c s.fresh)).thread x = some ⟨q, qc⟩ ↔
        x ≠ o ∧ s.thread x = some ⟨q, qc⟩) := by
    intro x q qc hlink hstart
    rw [hthread]
    by_cases hxo : x = o
    · subst hxo
      rw [update_self]
      constructor
      · intro heq
        exact absurd (Thread.mk.inj (some.inj heq)).2.symm (hlink c)
      · intro heq
        exact absurd rfl heq.1
    · rw [update_of_ne hxo]
      by_cases hxf : x = s.fresh
      · subst hxf
        rw [update_self, hfresh]
        constructor
        · intro heq
          exact absurd (Thread.mk.inj (some.inj heq)).2.symm hstart
        · intro heq
          exact nomatch heq.2
      · rw [update_of_ne hxf]
        exact ⟨fun heq => ⟨hxo, heq⟩, fun heq => heq.2⟩
  have hset : ∀ t, SettingUp ((s₁.allocproc c).goto o p (.forkLink c s.fresh)) t ↔
      t ≠ c ∧ SettingUp s t := by
    intro t
    constructor
    · rintro ⟨x, q, hx⟩
      rcases (hplace x q (.forkLock t) (fun _ => nofun) nofun).mp hx with ⟨hxo, hold⟩
      refine ⟨?_, x, q, hold⟩
      rintro rfl
      exact hxo (h.once x o q p t hold hat)
    · rintro ⟨htc, x, q, hx⟩
      refine ⟨x, q, (hplace x q (.forkLock t) (fun _ => nofun) nofun).mpr ⟨?_, hx⟩⟩
      rintro rfl
      rw [hat] at hx
      rcases Thread.mk.inj (some.inj hx) with ⟨-, hpc⟩
      exact htc (Pc.forkLock.inj hpc).symm
  have hclear : ∀ t, Clearing ((s₁.allocproc c).goto o p (.forkLink c s.fresh)) t ↔
      Clearing s t := by
    intro t
    constructor
    · rintro ⟨x, q, b, hx⟩
      exact ⟨x, q, b, ((hplace x q (.reapFree t b) (fun _ => nofun) nofun).mp hx).2⟩
    · rintro ⟨x, q, b, hx⟩
      refine ⟨x, q, b, (hplace x q (.reapFree t b) (fun _ => nofun) nofun).mpr ⟨?_, hx⟩⟩
      rintro rfl
      exact nomatch hat.symm.trans hx
  have hocc : ∀ t, t ≠ c → (Occupied ((s₁.allocproc c).goto o p (.forkLink c s.fresh)) t ↔
      Occupied s t) := by
    intro t htc
    unfold Occupied
    rw [htab, update_of_ne htc, hclear]
  have hset0 : c ≠ 0 := by
    rintro rfl
    exact h.zero.2.2 ⟨o, p, hat⟩
  have hmem : c ∉ xs := by
    intro hin
    exact (h.free c hin).2 ⟨o, p, hat⟩
  refine ⟨?_, h.nodup, ⟨h.zero.1, ?_, ?_⟩, ?_, ?_, ?_, ?_⟩
  · show Holds s₁.pidsQueue xs
    rw [hqueue]
    exact h.queue
  · rw [htab, update_of_ne hset0.symm]
    exact h.zero.2.1
  · rw [hset]
    exact fun hs => h.zero.2.2 hs.2
  · intro t ht
    by_cases htc : t = c
    · subst htc
      refine .inr (.inl ⟨?_, ?_⟩)
      · rw [htab, update_self]
        exact nofun
      · rw [hclear]
        exact hback
    · rw [hset, hocc t htc]
      rcases h.all t ht with hin | ho | hs
      · exact .inl hin
      · exact .inr (.inl ho)
      · exact .inr (.inr ⟨htc, hs⟩)
  · intro t ht
    have htc : t ≠ c := by
      rintro rfl
      exact hmem ht
    rw [hset, hocc t htc]
    exact ⟨(h.free t ht).1, fun hs => (h.free t ht).2 hs.2⟩
  · intro t ht
    rcases (hset t).mp ht with ⟨htc, hs⟩
    rw [hocc t htc]
    exact h.taken t hs
  · intro x y q q' t hx hy
    exact h.once x y q q' t ((hplace x q (.forkLock t) (fun _ => nofun) nofun).mp hx).2
      ((hplace y q' (.forkLock t) (fun _ => nofun) nofun).mp hy).2

/-- What setting up a new process changes. -/
theorem alloc_changes {c : Pid} (hs' : s' = ({ s with
      lock := update s.lock (.pcb c) (some o) }.allocproc c).goto o p (.forkLink c s.fresh)) :
    s'.inUse = update s.inUse s.fresh true ∧
      s'.intact = update s.intact s.fresh true ∧
      s'.pcbtable = update s.pcbtable c (some s.fresh) ∧
      s'.obj = update s.obj s.fresh (freshPcb c) ∧
      s'.thread = update (update s.thread s.fresh (some ⟨c, .start⟩)) o
        (some ⟨p, .forkLink c s.fresh⟩) := by
  rw [hs']
  exact ⟨rfl, rfl, rfl, rfl, rfl⟩

/-- The new process, the one that forks, and the others, after a new process is set up. -/
theorem alloc_cases {c : Pid} (hthread : s'.thread = update
      (update s.thread s.fresh (some ⟨c, .start⟩)) o (some ⟨p, .forkLink c s.fresh⟩))
    {x : Obj} {q : Pid} {qc : Pc} (hx : s'.thread x = some ⟨q, qc⟩) :
    (x = s.fresh ∧ q = c ∧ qc = .start) ∨ (x = o ∧ q = p ∧ qc = .forkLink c s.fresh) ∨
      (x ≠ s.fresh ∧ x ≠ o ∧ s.thread x = some ⟨q, qc⟩) := by
  rw [hthread] at hx
  by_cases hxo : x = o
  · subst hxo
    rw [update_self] at hx
    cases hx
    exact .inr (.inl ⟨rfl, rfl, rfl⟩)
  · rw [update_of_ne hxo] at hx
    by_cases hxf : x = s.fresh
    · subst hxf
      rw [update_self] at hx
      cases hx
      exact .inl ⟨rfl, rfl, rfl⟩
    · rw [update_of_ne hxf] at hx
      exact .inr (.inr ⟨hxf, hxo, hx⟩)

theorem Reaping.alloc (h : Reaping s) {c : Pid} (hat : s.thread o = some ⟨p, .forkLock c⟩)
    (hfree : s.lock (.pcb c) = none) (hs' : s' = ({ s with
      lock := update s.lock (.pcb c) (some o) }.allocproc c).goto o p (.forkLink c s.fresh))
    (hlocks : LocksHeld s') : Reaping s' := by
  rcases h.fresh s.fresh (Nat.le_refl _) with ⟨hfresh, hunuse⟩
  have hunused := h.pid_unused hat hfree
  have hne : o ≠ s.fresh := by
    rintro heq
    rw [← heq, hat] at hfresh
    cases hfresh
  obtain ⟨huse, -, htab, hobj, hthread⟩ := alloc_changes hs'
  have hnew : s'.fresh = s.fresh + 1 := by
    rw [hs']
    rfl
  have halive : ∀ x q qc, x ≠ s.fresh → s.thread x = some ⟨q, qc⟩ →
      s'.inUse x = true ∧ (s'.obj x).pid = q ∧ s'.pcbtable q = some x := by
    intro x q qc hxf hx
    rcases h.alive x q qc hx with ⟨hux, hpid, htx⟩
    have hqc : q ≠ c := by
      rintro rfl
      rw [hunused] at htx
      cases htx
    rw [huse, hobj, htab, update_of_ne hxf, update_of_ne hxf,
      update_of_ne hqc]
    exact ⟨hux, hpid, htx⟩
  have hnone : ∀ b, s.inUse b = true → s.thread b = none → s'.thread b = none := by
    intro b hb hbn
    rw [hthread, update_of_ne, update_of_ne]
    · exact hbn
    · rintro rfl
      rw [hunuse] at hb
      cases hb
    · rintro rfl
      rw [hat] at hbn
      cases hbn
  refine ⟨hlocks, ?_, ?_, ?_, ?_, ?_, ?_, ?_⟩
  · intro x hx
    rw [hnew] at hx
    have hle : s.fresh ≤ x := Nat.le_of_succ_le hx
    have hxf : x ≠ s.fresh := (Nat.ne_of_lt hx).symm
    have hxo : x ≠ o := by
      rintro rfl
      exact nomatch hat.symm.trans (h.fresh x hle).1
    rw [hthread, huse, update_of_ne hxo, update_of_ne hxf,
      update_of_ne hxf]
    exact h.fresh x hle
  · intro t b hb
    rw [htab] at hb
    by_cases htc : t = c
    · subst htc
      rw [update_self] at hb
      cases hb
      rw [huse, hobj, update_self, update_self]
      exact ⟨rfl, rfl⟩
    · rw [update_of_ne htc] at hb
      rcases h.entry t b hb with ⟨hub, hpid⟩
      have hbf : b ≠ s.fresh := by
        rintro rfl
        rw [hunuse] at hub
        cases hub
      rw [huse, hobj, update_of_ne hbf, update_of_ne hbf]
      exact ⟨hub, hpid⟩
  · intro x q qc hx
    rcases alloc_cases hthread hx with ⟨rfl, rfl, -⟩ | ⟨rfl, rfl, -⟩ | ⟨hxf, -, hx⟩
    · rw [huse, hobj, htab, update_self, update_self, update_self]
      exact ⟨rfl, rfl, rfl⟩
    · exact halive x q _ hne hat
    · exact halive x q qc hxf hx
  · intro x q qc hx hz
    rcases alloc_cases hthread hx with ⟨rfl, -, -⟩ | ⟨rfl, -, -⟩ | ⟨hxf, -, hx⟩
    · rw [hobj, update_self] at hz
      cases hz
    · rw [hobj, update_of_ne hne] at hz
      exact nomatch h.dying x p _ hat hz
    · rw [hobj, update_of_ne hxf] at hz
      exact h.dying x q qc hx hz
  · intro x q qc t b hx ht
    rcases alloc_cases hthread hx with ⟨-, -, rfl⟩ | ⟨-, -, rfl⟩ | ⟨-, -, hx⟩
    · cases ht
    · cases ht
    · -- whoever is there holds a lock, and that of the new pid was free
      have hold := h.target x q qc t b hx ht
      have htc : t ≠ c := by
        rintro rfl
        rw [hunused] at hold
        cases hold
      rw [htab, update_of_ne htc]
      exact hold
  · intro x q t b hx
    rcases alloc_cases hthread hx with ⟨-, -, heq⟩ | ⟨-, -, heq⟩ | ⟨-, -, hx⟩
    · cases heq
    · cases heq
    · exact hnone b (h.entry t b (h.target x q _ t b hx rfl)).1 (h.gone x q t b hx)
  · rcases h.apart with ⟨xs, hxs⟩
    rw [hs']
    exact ⟨xs, hxs.alloc hat (h.not_clearing hfree) hfresh rfl rfl rfl rfl⟩

/-- What a process that leaves changes. -/
theorem leave_changes
    (hs' : s' = { s.release (.pcb p) with thread := update s.thread o none }) :
    s'.thread = update s.thread o none ∧ s'.obj = s.obj ∧ s'.inUse = s.inUse ∧
      s'.intact = s.intact ∧ s'.pcbtable = s.pcbtable := by
  rw [hs']
  exact ⟨rfl, rfl, rfl, rfl, rfl⟩

/-- The process leaves. -/
theorem Reaping.leave (h : Reaping s) (hat : s.thread o = some ⟨p, .exitSched⟩)
    (hs' : s' = { s.release (.pcb p) with thread := update s.thread o none })
    (hlocks : LocksHeld s') : Reaping s' := by
  obtain ⟨hthread, hobj, huse, -, htab⟩ := leave_changes hs'
  have hold : ∀ x q qc, s'.thread x = some ⟨q, qc⟩ → s.thread x = some ⟨q, qc⟩ := by
    intro x q qc hx
    rw [hthread] at hx
    by_cases hxo : x = o
    · subst hxo
      rw [update_self] at hx
      cases hx
    · rw [update_of_ne hxo] at hx
      exact hx
  have hnone : ∀ b, s.thread b = none → s'.thread b = none := by
    intro b hb
    rw [hthread]
    by_cases hbo : b = o
    · subst hbo
      exact update_self ..
    · rw [update_of_ne hbo]
      exact hb
  have hiff : ∀ x q qc, qc ≠ .exitSched →
      (s'.thread x = some ⟨q, qc⟩ ↔ s.thread x = some ⟨q, qc⟩) := by
    intro x q qc hqc
    refine ⟨hold x q qc, fun hx => ?_⟩
    rw [hthread, update_of_ne]
    · exact hx
    · rintro rfl
      rw [hat] at hx
      exact hqc (Thread.mk.inj (some.inj hx)).2.symm
  refine ⟨hlocks, ?_, ?_, ?_, ?_, ?_, ?_, ?_⟩
  · intro x hx
    have hfresh : s'.fresh = s.fresh := by
      rw [hs']
      rfl
    rw [hfresh] at hx
    rw [huse]
    exact ⟨hnone x (h.fresh x hx).1, (h.fresh x hx).2⟩
  · intro t b hb
    rw [htab] at hb
    rw [huse, hobj]
    exact h.entry t b hb
  · intro x q qc hx
    rw [huse, hobj, htab]
    exact h.alive x q qc (hold x q qc hx)
  · intro x q qc hx hz
    rw [hobj] at hz
    exact h.dying x q qc (hold x q qc hx) hz
  · intro x q qc t b hx ht
    rw [htab]
    exact h.target x q qc t b (hold x q qc hx) ht
  · intro x q t b hx
    exact hnone b (h.gone x q t b (hold x q _ hx))
  · rcases h.apart with ⟨xs, hxs⟩
    refine ⟨xs, hxs.congr (by rw [hs']; rfl) ?_ ?_ ?_⟩
    · intro x q t
      exact hiff x q _ nofun
    · intro hzero
      rw [htab]
      exact hzero
    · intro t
      refine occupied_congr (by rw [htab]) ?_
      intro x q b
      exact hiff x q _ nofun

/-- The pid of a process that is reaped goes to the end of the queue. -/
theorem Apart.push {xs : List Pid} {t : Pid} {b : Obj} {q : QueueMeta Pid} (h : Apart s xs)
    (hat : s.thread o = some ⟨p, .reap t b⟩) (hocc : Occupied s t)
    (hpush : queuePush s.pidsQueue t = some q) :
    Apart ({ s with pidsQueue := q }.goto o p (.reapFree t b)) (xs ++ [t]) := by
  have hfork : ∀ x r t', ({ s with pidsQueue := q }.goto o p (.reapFree t b)).thread x =
      some ⟨r, .forkLock t'⟩ ↔ s.thread x = some ⟨r, .forkLock t'⟩ := by
    intro x r t'
    exact thread_iff hat rfl nofun nofun
  have hset : ∀ t', SettingUp ({ s with pidsQueue := q }.goto o p (.reapFree t b)) t' ↔
      SettingUp s t' := by
    intro t'
    simp only [SettingUp, hfork]
  have hnow : Clearing ({ s with pidsQueue := q }.goto o p (.reapFree t b)) t :=
    ⟨o, p, b, update_self ..⟩
  have hother : ∀ t', t' ≠ t →
      (Occupied ({ s with pidsQueue := q }.goto o p (.reapFree t b)) t' ↔ Occupied s t') := by
    intro t' ht
    refine occupied_congr rfl ?_
    intro x r b'
    refine thread_iff hat rfl nofun ?_
    intro heq
    exact ht (Pc.reapFree.inj heq).1
  have hnot : t ∉ xs := fun hmem => (h.free t hmem).1 hocc
  have h0 : t ≠ 0 := by
    rintro rfl
    exact hocc.1 h.zero.2.1
  refine ⟨(h.queue.push hpush).1, ?_, ⟨?_, h.zero.2.1, ?_⟩, ?_, ?_, ?_, ?_⟩
  · rw [List.nodup_append]
    refine ⟨h.nodup, List.nodup_cons.mpr ⟨List.not_mem_nil, List.nodup_nil⟩, ?_⟩
    intro x hx y hy hxy
    rcases List.mem_singleton.mp hy
    exact hnot (hxy ▸ hx)
  · intro hmem
    rcases List.mem_append.mp hmem with hmem | hmem
    · exact h.zero.1 hmem
    · exact h0 (List.mem_singleton.mp hmem).symm
  · rw [hset]
    exact h.zero.2.2
  · intro t' ht'
    by_cases heq : t' = t
    · subst heq
      exact .inl (List.mem_append_right xs List.mem_cons_self)
    · rw [hother t' heq, hset]
      exact (h.all t' ht').imp_left (List.mem_append_left [t])
  · intro t' hmem
    rw [hset]
    by_cases heq : t' = t
    · subst heq
      exact ⟨fun ho => ho.2 hnow, fun hs => h.taken t' hs hocc⟩
    · rw [hother t' heq]
      rcases List.mem_append.mp hmem with hmem | hmem
      · exact h.free t' hmem
      · exact absurd (List.mem_singleton.mp hmem) heq
  · intro t' hs
    rw [hset] at hs
    by_cases heq : t' = t
    · subst heq
      exact fun ho => ho.2 hnow
    · rw [hother t' heq]
      exact h.taken t' hs
  · intro x y r r' t' hx hy
    exact h.once x y r r' t' ((hfork x r t').mp hx) ((hfork y r' t').mp hy)

/-- A zombie whose lock somebody else has does not run any more. -/
theorem Reaping.dead (h : Reaping s) {t : Pid} {b : Obj} (hat : s.thread o = some ⟨p, pc⟩)
    (ht : pc.target = some (t, b)) (hz : (s.obj b).state = .zombie) : s.thread b = none := by
  cases hb : s.thread b with
  | none => rfl
  | some th =>
    rcases th with ⟨q, qc⟩
    have hdying := h.dying b q qc hb hz
    have hqt : q = t := (h.alive b q qc hb).2.1.symm.trans
      (h.entry t b (h.target o p pc t b hat ht)).2
    subst hqt
    have hown : s.lock (.pcb q) = some b := by
      rw [h.locks.holder, heldBy_eq hb]
      exact dying_held hdying
    have hreap : s.lock (.pcb q) = some o := by
      rw [h.locks.holder, heldBy_eq hat]
      exact target_held ht
    rw [hown] at hreap
    cases hreap
    rw [hat] at hb
    rcases Thread.mk.inj (some.inj hb) with ⟨-, hpc⟩
    rw [← hpc, target_not_dying ht] at hdying
    cases hdying

theorem Reaping.occupied (h : Reaping s) {t : Pid} {b : Obj}
    (hat : s.thread o = some ⟨p, .reap t b⟩) : Occupied s t := by
  constructor
  · rw [h.target o p _ t b hat rfl]
    exact nofun
  · rintro ⟨x, q, b', hx⟩
    rcases h.same_target hat hx rfl rfl
    exact nomatch hat.symm.trans hx

theorem Reaping.push (h : Reaping s) {t : Pid} {b : Obj} {q : QueueMeta Pid}
    (hat : s.thread o = some ⟨p, .reap t b⟩) (hz : (s.obj b).state = .zombie)
    (hpush : queuePush s.pidsQueue (s.obj b).pid = some q)
    (hlocks : LocksHeld ({ s with pidsQueue := q }.goto o p (.reapFree t b))) :
    Reaping ({ s with pidsQueue := q }.goto o p (.reapFree t b)) := by
  have htab := h.target o p _ t b hat rfl
  rw [(h.entry t b htab).2] at hpush
  rcases h.apart with ⟨xs, hxs⟩
  refine h.moved hat rfl rfl rfl rfl (fun _ => rfl) (fun _ _ hz => hz) ?_ ?_ ?_ hlocks
    ⟨_, hxs.push hat (h.occupied hat) hpush⟩
  · intro hzo
    exact nomatch h.dying o p _ hat hzo
  · intro t' b' ht'
    cases ht'
    exact htab
  · intro t' b' heq
    rcases Pc.reapFree.inj heq with ⟨rfl, rfl⟩
    exact h.dead hat rfl hz

/-- What freeing an object changes. -/
theorem free_changes {t : Pid} {b : Obj}
    (hs' : s' = { s with inUse := update s.inUse b false
                         pcbtable := update s.pcbtable t none }.goto o p (.reapRelWait t)) :
    s'.thread = update s.thread o (some ⟨p, .reapRelWait t⟩) ∧ s'.obj = s.obj ∧
      s'.inUse = update s.inUse b false ∧
      s'.pcbtable = update s.pcbtable t none := by
  rw [hs']
  exact ⟨rfl, rfl, rfl, rfl⟩

/-- The entry of `pcbtable` is cleared, and the object freed. -/
theorem Reaping.free (h : Reaping s) {t : Pid} {b : Obj}
    (hat : s.thread o = some ⟨p, .reapFree t b⟩)
    (hs' : s' = { s with inUse := update s.inUse b false
                         pcbtable := update s.pcbtable t none }.goto o p (.reapRelWait t))
    (hlocks : LocksHeld s') : Reaping s' := by
  obtain ⟨hthread, hobj, huse, htab⟩ := free_changes hs'
  have htb := h.target o p _ t b hat rfl
  have hpidb := (h.entry t b htb).2
  have hgone := h.gone o p t b hat
  have halive : ∀ x q qc, s.thread x = some ⟨q, qc⟩ →
      s'.inUse x = true ∧ (s'.obj x).pid = q ∧ s'.pcbtable q = some x := by
    intro x q qc hx
    rcases h.alive x q qc hx with ⟨hux, hpid, htx⟩
    have hxb : x ≠ b := by
      rintro rfl
      exact nomatch hgone.symm.trans hx
    have hqt : q ≠ t := by
      rintro rfl
      rw [htb] at htx
      exact hxb (some.inj htx).symm
    rw [huse, hobj, htab, update_of_ne hxb, update_of_ne hqt]
    exact ⟨hux, hpid, htx⟩
  have hnone : ∀ x, s.thread x = none → s'.thread x = none := by
    intro x hx
    rw [hthread, update_of_ne]
    · exact hx
    · rintro rfl
      exact nomatch hat.symm.trans hx
  refine ⟨hlocks, ?_, ?_, ?_, ?_, ?_, ?_, ?_⟩
  · intro x hx
    have hfresh : s'.fresh = s.fresh := by
      rw [hs']
      rfl
    rw [hfresh] at hx
    refine ⟨hnone x (h.fresh x hx).1, ?_⟩
    rw [huse]
    by_cases hxb : x = b
    · subst hxb
      exact update_self ..
    · rw [update_of_ne hxb]
      exact (h.fresh x hx).2
  · intro t' b' hb'
    rw [htab] at hb'
    by_cases heq : t' = t
    · subst heq
      rw [update_self] at hb'
      cases hb'
    · rw [update_of_ne heq] at hb'
      rcases h.entry t' b' hb' with ⟨hub, hpid⟩
      have hbb : b' ≠ b := by
        rintro rfl
        exact heq (hpid.symm.trans hpidb)
      rw [huse, hobj, update_of_ne hbb]
      exact ⟨hub, hpid⟩
  · intro x q qc hx
    rcases thread_cases hthread hx with ⟨rfl, rfl, -⟩ | ⟨-, hx⟩
    · exact halive x q _ hat
    · exact halive x q qc hx
  · intro x q qc hx hz
    rw [hobj] at hz
    rcases thread_cases hthread hx with ⟨rfl, rfl, -⟩ | ⟨-, hx⟩
    · exact nomatch h.dying x q _ hat hz
    · exact h.dying x q qc hx hz
  · intro x q qc t' b' hx ht'
    rcases thread_cases hthread hx with ⟨-, -, rfl⟩ | ⟨hxo, hx⟩
    · cases ht'
    · -- the others hold other locks
      have hne : t' ≠ t := by
        rintro rfl
        exact hxo (h.same_target hx hat ht' rfl)
      rw [htab, update_of_ne hne]
      exact h.target x q qc t' b' hx ht'
  · intro x q t' b' hx
    rcases thread_cases hthread hx with ⟨-, -, heq⟩ | ⟨-, hx⟩
    · cases heq
    · exact hnone b' (h.gone x q t' b' hx)
  · rcases h.apart with ⟨xs, hxs⟩
    refine ⟨xs, hxs.congr (by rw [hs']; rfl) ?_ ?_ ?_⟩
    · intro x q t'
      exact thread_iff hat hthread nofun nofun
    · intro hzero
      rw [htab]
      by_cases h0 : (0 : Pid) = t
      · rw [h0, update_self]
      · rw [update_of_ne h0]
        exact hzero
    · intro t'
      by_cases heq : t' = t
      · subst heq
        constructor
        · intro ho
          rw [Occupied, htab, update_self] at ho
          exact absurd rfl ho.1
        · intro ho
          exact absurd ⟨o, p, b, hat⟩ ho.2
      · refine occupied_congr (by rw [htab, update_of_ne heq]) ?_
        intro x q b'
        refine thread_iff hat hthread ?_ nofun
        intro hpc
        exact heq (Pc.reapFree.inj hpc).1

/-- No memory that is used for something else is followed, and a waiter that is woken finds the
    process it has waited for still in `pcbtable`. -/
def Rechecked (s : Sys) : Input → Prop
  | .run o _ => ∀ p pc, s.thread o = some ⟨p, pc⟩ →
      (∀ c ∈ touched s o pc, s.intact c = true) ∧
        ∀ t b, pc = .pidRelock t b → s.pcbtable t = some b
  | _ => True

theorem Reaping.advance (h : Reaping s) {statusOk : Bool} (hat : s.thread o = some ⟨p, pc⟩)
    (hrelock : ∀ t b, pc = .pidRelock t b → s.pcbtable t = some b)
    (ha : WaitLock.advance s o p statusOk pc = some s') : Reaping s' := by
  have he := advance_effect ha
  have hlocks := h.locks.effect hat (fun _ => (h.fresh s.fresh (Nat.le_refl _)).1) he
  by_cases hspec : pc.special = true
  · cases advance_cases ha with
    | forkLock hfree => exact h.alloc hat hfree rfl hlocks
    | exitSched => exact h.leave hat rfl hlocks
    | reap hz _ hpush => exact h.push hat hz hpush hlocks
    | @reapRefused t b =>
      have hf : Follows s (.reap t b) (.reapRelWait t) :=
        follows_alive (fun _ => Pc.noConfusion) rfl rfl Pc.noConfusion
      exact h.plain hat hf (fun _ => Pc.noConfusion) (fun _ _ => Pc.noConfusion)
        (fun _ _ => Pc.noConfusion) rfl rfl (fun _ => rfl) (fun _ hz => .inl hz)
        (fun _ _ => Pc.noConfusion) hlocks
    | reapFree => exact h.free hat rfl hlocks
    | _ => cases hspec
  · rw [Bool.not_eq_true] at hspec
    have hfollows : ∀ pc', s'.thread = update s.thread o (some ⟨p, pc'⟩) →
        Follows s pc pc' := by
      intro pc' hthread
      exact (advance_follows ha p pc' (by rw [hthread, update_self])).2
    have hfork : ∀ c, pc ≠ .forkLock c := by
      rintro c rfl
      cases hspec
    have hfree : ∀ t b, pc ≠ .reapFree t b := by
      rintro t b rfl
      cases hspec
    have hreap : ∀ pc', Follows s pc pc' → ∀ t b, pc' ≠ .reapFree t b := by
      intro pc' hf t b heq
      rcases (hf.clearing t b heq).1
      cases hspec
    cases he with
    | take l pc' hwants hlfree hlock hthread hheld htables hpids hzombie =>
      have hf := hfollows pc' hthread
      exact h.plain hat hf hfork hfree (hreap pc' hf) hthread htables hpids hzombie hrelock hlocks
    | drop l pc' hlock hthread hheld htables hkeeps =>
      have hf := hfollows pc' hthread
      exact h.plain hat hf hfork hfree (hreap pc' hf) hthread htables (fun x => (hkeeps x).1)
        (fun x hz => .inl ((hkeeps x).2 hz)) hrelock hlocks
    | alloc c hpc => exact absurd hpc (hfork c)
    | leave hpc =>
      subst hpc
      cases hspec
    | push t b q hpc =>
      subst hpc
      cases hspec
    | refuse t b hpc =>
      subst hpc
      cases hspec
    | free t b hpc => exact absurd hpc (hfree t b)

/-- The invariant does not look at memory. -/
theorem Reaping.reuse (h : Reaping s) (x : Obj) :
    Reaping { s with intact := update s.intact x false } := by
  rcases h.apart with ⟨xs, hxs⟩
  exact ⟨⟨h.locks.holder, h.locks.nodup⟩, h.fresh, h.entry, h.alive, h.dying, h.target, h.gone, xs,
    hxs.congr rfl (fun _ _ _ => Iff.rfl) id fun _ => Iff.rfl⟩

theorem Reaping.step (h : Reaping s) {i : Input} (hcond : Rechecked s i) (hs : Step s i s') :
    Reaping s' := by
  cases hs with
  | call hat hb => exact h.begin hat hb
  | run hat hintact ha => exact h.advance hat (hcond _ _ hat).2 ha
  | wild hat hlost =>
    rcases hlost with ⟨c, hmem, hc⟩
    rw [(hcond _ _ hat).1 c hmem] at hc
    cases hc
  | reuse hfree => exact h.reuse _

/-! ## Once -/

/-- The process is about to be freed, or has been. -/
def Spent (s : Sys) (b : Obj) : Prop :=
  b < s.fresh ∧ ((∃ o p t, s.thread o = some ⟨p, .reapFree t b⟩) ∨ s.inUse b = false)

/-- What a step leaves alone: the places of the others, and what has been freed. -/
theorem Effect.kept (he : Effect s o p pc s') (hnew : s.thread s.fresh = none) :
    s.fresh ≤ s'.fresh ∧ (∀ x, x ≠ o → s.thread x ≠ none → s'.thread x = s.thread x) ∧
      ∀ b, b < s.fresh → s.inUse b = false → s'.inUse b = false := by
  cases he with
  | take l pc' hwants hfree hlock hthread hheld htables | drop l pc' hlock hthread hheld htables =>
    have hfresh : s'.fresh = s.fresh := congrArg (fun t => t.2.2.1) htables
    have huse : s'.inUse = s.inUse := congrArg (fun t => t.1) htables
    refine ⟨Nat.le_of_eq hfresh.symm, ?_, ?_⟩
    · intro x hx _
      rw [hthread, update_of_ne hx]
    · intro b _ hb
      rw [huse]
      exact hb
  | alloc c hpc hfree hs' =>
    subst hs'
    refine ⟨Nat.le_succ s.fresh, ?_, ?_⟩
    · intro x hx hsome
      show update (update s.thread s.fresh _) o _ x = s.thread x
      rw [update_of_ne hx, update_of_ne]
      rintro rfl
      exact hsome hnew
    · intro b hb hfreed
      show update s.inUse s.fresh true b = false
      rw [update_of_ne (Nat.ne_of_lt hb)]
      exact hfreed
  | leave hpc hs' =>
    subst hs'
    refine ⟨Nat.le_refl _, ?_, fun b _ hb => hb⟩
    intro x hx _
    exact update_of_ne hx _ _
  | push t b q hpc hpush hs' | refuse t b hpc hs' =>
    subst hs'
    exact ⟨Nat.le_refl _, fun x hx _ => update_of_ne hx _ _, fun b _ hb => hb⟩
  | free t b hpc huse hs' =>
    subst hs'
    refine ⟨Nat.le_refl _, fun x hx _ => update_of_ne hx _ _, ?_⟩
    intro b' _ hb'
    show update s.inUse b false b' = false
    by_cases hbb : b' = b
    · subst hbb
      exact update_self ..
    · rw [update_of_ne hbb]
      exact hb'

theorem Spent.step {b : Obj} (hsp : Spent s b) (h : Reaping s) {i : Input} (hs : Step s i s')
    (hcond : Rechecked s i) : Spent s' b := by
  rcases hsp with ⟨hlt, hsp⟩
  cases hs with
  | call hat hb =>
    rename_i x q c
    rcases begin_effect hb hat with ⟨-, ⟨pc', hthread, -⟩, -, huse, -, hfresh, -⟩
    rw [Spent, huse, hfresh]
    refine ⟨hlt, hsp.imp_left ?_⟩
    rintro ⟨y, r, t, hy⟩
    refine ⟨y, r, t, ?_⟩
    rw [hthread, update_of_ne]
    · exact hy
    · rintro rfl
      cases hat.symm.trans hy
  | run hat hintact ha =>
    rename_i x q pc statusOk
    rcases (advance_effect ha).kept (h.fresh s.fresh (Nat.le_refl _)).1 with ⟨hle, hoff, hfreed⟩
    refine ⟨Nat.lt_of_lt_of_le hlt hle, ?_⟩
    rcases hsp with ⟨y, r, t, hy⟩ | hno
    · by_cases hyx : y = x
      · -- it is freed now
        subst hyx
        rw [hat] at hy
        cases hy
        rw [WaitLock.advance] at ha
        split at ha
        · cases ha
          exact .inr (update_self ..)
        · cases ha
      · refine .inl ⟨y, r, t, ?_⟩
        rw [hoff y hyx (by rw [hy]; exact Option.some_ne_none _)]
        exact hy
    · exact .inr (hfreed b hlt hno)
  | wild hat hlost =>
    rcases hlost with ⟨c, hmem, hc⟩
    rw [(hcond _ _ hat).1 c hmem] at hc
    cases hc
  | reuse hfree => exact ⟨hlt, hsp⟩

/-- Nobody reaps what is spent. -/
theorem Spent.not_reap {b : Obj} (hsp : Spent s b) (h : Reaping s) (o : Obj) (p t : Pid) :
    s.thread o ≠ some ⟨p, .reap t b⟩ := by
  intro hat
  have htab := h.target o p _ t b hat rfl
  rcases h.entry t b htab with ⟨huse, hpid⟩
  rcases hsp.2 with ⟨x, q, t', hx⟩ | hno
  · have hpid' := (h.entry t' b (h.target x q _ t' b hx rfl)).2
    rcases hpid.symm.trans hpid'
    rcases h.same_target hat hx rfl rfl
    exact nomatch hat.symm.trans hx
  · rw [huse] at hno
    cases hno

/-! ## The claim -/

/-- The place is at the end of `wait4` for a process: its pid, and itself. -/
def Pc.reaps : Pc → Option (Pid × Obj)
  | .reap t b | .reapFree t b => some (t, b)
  | _ => none

theorem target_of_reaps {t : Pid} {b : Obj} (h : pc.reaps = some (t, b)) :
    pc.target = some (t, b) := by
  cases pc with
  | reap _ _ | reapFree _ _ => exact h
  | _ => cases h

/-- The pids from 1 on are free, in use or being set up, each of them one of these and in the queue
    at most once; and whoever reaps a process is alone in doing so, and has found its object where
    `pcbtable` has it. -/
structure SingleReaping (s : Sys) : Prop where
  pids : ∃ xs, Holds s.pidsQueue xs ∧ xs.Nodup ∧
    (∀ t, t ≠ 0 ↔ t ∈ xs ∨ Occupied s t ∨ SettingUp s t) ∧
    (∀ t ∈ xs, ¬ Occupied s t ∧ ¬ SettingUp s t) ∧ ∀ t, SettingUp s t → ¬ Occupied s t
  settingUp : ∀ o o' p p' t, s.thread o = some ⟨p, .forkLock t⟩ →
    s.thread o' = some ⟨p', .forkLock t⟩ → o = o'
  alone : ∀ o o' p p' pc pc' t t' b, s.thread o = some ⟨p, pc⟩ → s.thread o' = some ⟨p', pc'⟩ →
    pc.reaps = some (t, b) → pc'.reaps = some (t', b) → o = o'
  own : ∀ o p pc t b, s.thread o = some ⟨p, pc⟩ → pc.reaps = some (t, b) →
    s.pcbtable t = some b ∧ s.inUse b = true ∧ (s.obj b).pid = t

theorem Reaping.single (h : Reaping s) : SingleReaping s := by
  have hown : ∀ o p pc t b, s.thread o = some ⟨p, pc⟩ → pc.reaps = some (t, b) →
      s.pcbtable t = some b ∧ s.inUse b = true ∧ (s.obj b).pid = t := by
    intro o p pc t b hat ht
    have htab := h.target o p pc t b hat (target_of_reaps ht)
    exact ⟨htab, h.entry t b htab⟩
  rcases h.apart with ⟨xs, hxs⟩
  refine ⟨⟨xs, hxs.queue, hxs.nodup, ?_, hxs.free, hxs.taken⟩, hxs.once, ?_, hown⟩
  · intro t
    refine ⟨hxs.all t, ?_⟩
    rintro hor rfl
    rcases hor with hmem | hocc | hset
    · exact hxs.zero.1 hmem
    · exact hocc.1 hxs.zero.2.1
    · exact hxs.zero.2.2 hset
  · intro x y q q' pc pc' t t' b hx hy ht ht'
    rcases (hown x q pc t b hx ht).2.2.symm.trans (hown y q' pc' t' b hy ht').2.2
    exact h.same_target hx hy (target_of_reaps ht) (target_of_reaps ht')

theorem Booted.reaping (h : Booted s) : Reaping s := by
  have hat : ∀ o p pc, s.thread o = some ⟨p, pc⟩ → o = 0 ∧ p = INIT ∧ pc = .user := by
    intro o p pc ho
    rw [h.thread] at ho
    by_cases h0 : o = 0
    · subst h0
      rw [update_self] at ho
      cases ho
      exact ⟨rfl, rfl, rfl⟩
    · rw [update_of_ne h0] at ho
      cases ho
  have htab : ∀ t b, s.pcbtable t = some b → t = INIT ∧ b = 0 := by
    intro t b hb
    rw [h.pcbtable] at hb
    by_cases ht : t = INIT
    · subst ht
      rw [update_self] at hb
      exact ⟨rfl, (some.inj hb).symm⟩
    · rw [update_of_ne ht] at hb
      cases hb
  have hnoset : ∀ t, ¬ SettingUp s t := by
    rintro t ⟨o, p, ho⟩
    exact nomatch (hat o p _ ho).2.2
  refine ⟨⟨?_, ?_⟩, ?_, ?_, ?_, ?_, ?_, ?_, ?_⟩
  · intro l x
    have hnone : s.heldBy x = [] := by
      cases hx : s.thread x with
      | none => exact heldBy_none hx
      | some th =>
        rw [heldBy_eq hx, (hat x th.pid th.pc hx).2.2]
        rfl
    rw [h.lock, hnone]
    exact ⟨fun heq => (nomatch heq), fun hmem => (nomatch hmem)⟩
  · intro x
    cases hx : s.thread x with
    | none =>
      rw [heldBy_none hx]
      exact List.nodup_nil
    | some th =>
      rw [heldBy_eq hx, (hat x th.pid th.pc hx).2.2]
      exact List.nodup_nil
  · intro x hx
    rw [h.fresh] at hx
    have hx0 : x ≠ 0 := Nat.ne_of_gt hx
    rw [h.thread, h.inUse, update_of_ne hx0, update_of_ne hx0]
    exact ⟨rfl, rfl⟩
  · intro t b hb
    rcases htab t b hb with ⟨rfl, rfl⟩
    rw [h.inUse, h.obj, update_self]
    exact ⟨rfl, rfl⟩
  · intro o p pc ho
    rcases hat o p pc ho with ⟨rfl, rfl, -⟩
    rw [h.inUse, h.obj, h.pcbtable, update_self, update_self]
    exact ⟨rfl, rfl, rfl⟩
  · intro o p pc ho hz
    rcases hat o p pc ho with ⟨rfl, -, -⟩
    rw [h.obj] at hz
    cases hz
  · intro o p pc t b ho ht
    rcases hat o p pc ho with ⟨-, -, rfl⟩
    cases ht
  · intro o p t b ho
    exact nomatch (hat o p _ ho).2.2
  · have hnoclear : ∀ t, ¬ Clearing s t := by
      rintro t ⟨o, p, b, ho⟩
      exact nomatch (hat o p _ ho).2.2
    have hpids : ∀ t ∈ (List.finRange NPROC).tail.tail, t ≠ 0 ∧ t ≠ INIT := by decide
    have hall : ∀ t : Pid, t ≠ 0 → t ≠ INIT → t ∈ (List.finRange NPROC).tail.tail := by decide
    have hnone : ∀ t, t ≠ INIT → s.pcbtable t = none := by
      intro t ht
      rw [h.pcbtable, update_of_ne ht]
    refine ⟨(List.finRange NPROC).tail.tail, Proc.holds_of_boot h.queue,
      (List.nodup_finRange NPROC).tail.tail, ⟨fun hmem => (hpids 0 hmem).1 rfl, hnone 0 (by decide), hnoset 0⟩, ?_, ?_, ?_, ?_⟩
    · intro t ht
      by_cases hinit : t = INIT
      · subst hinit
        refine .inr (.inl ⟨?_, hnoclear INIT⟩)
        rw [h.pcbtable, update_self]
        exact nofun
      · exact .inl (hall t ht hinit)
    · intro t ht
      exact ⟨fun hocc => hocc.1 (hnone t (hpids t ht).2), hnoset t⟩
    · intro t ht
      exact absurd ht (hnoset t)
    · intro x y p q t hx
      exact absurd ⟨x, p, hx⟩ (hnoset t)

/-- In every run from boot in which no woken waiter finds its process reaped, and no memory that is
    used again is followed, the pids are kept apart; and after a `wait4` has put back the pid of a
    process, nobody ever does so for that process again. -/
theorem reaping_ok {s₀ : Sys} (h0 : Booted s₀) (hr : Reaches Step Rechecked s₀ s) :
    SingleReaping s ∧
      ∀ o p t b, s.thread o = some ⟨p, .reap t b⟩ → Rechecked s (.run o true) →
        ∀ s', Step s (.run o true) s' → ∀ s'', Reaches Step Rechecked s' s'' →
          ∀ o' p' t', s''.thread o' ≠ some ⟨p', .reap t' b⟩ := by
  have hinv : Reaping s :=
    hr.invariant h0.reaping fun a i b ha hc hstep => ha.step hc hstep
  refine ⟨hinv.single, ?_⟩
  intro o p t b hat hcond s' hstep s'' hr'
  have hinv' := hinv.step hcond hstep
  have hspent : Spent s' b := by
    have huse := (hinv.entry t b (hinv.target o p _ t b hat rfl)).1
    have hlt : b < s.fresh := by
      by_contra hge
      rw [(hinv.fresh b (Nat.le_of_not_lt hge)).2] at huse
      cases huse
    cases hstep with
    | run hat' hintact ha =>
      rw [hat] at hat'
      cases hat'
      rw [advance] at ha
      split at ha
      · rw [if_pos rfl] at ha
        rcases bind_eq_some_iff.mp ha with ⟨q, -, ha⟩
        cases ha
        exact ⟨hlt, .inl ⟨o, p, t, update_self ..⟩⟩
      · cases ha
    | wild hat' hlost =>
      rcases hlost with ⟨c, hmem, hc⟩
      rw [(hcond _ _ hat').1 c hmem] at hc
      cases hc
  have hlast : Reaping s'' ∧ Spent s'' b := by
    refine hr'.invariant (I := fun a => Reaping a ∧ Spent a b) ⟨hinv', hspent⟩ ?_
    intro a i a' ha hc hs
    exact ⟨ha.1.step hc hs, ha.2.step ha.1 hs hc⟩
  intro o' p' t'
  exact hlast.2.not_reap hlast.1 o' p' t'

/-! ## The second waiter -/

/-- The first process in user space. -/
def bootSys : Sys :=
  { obj := fun _ => { freshPcb INIT with state := .ready }
    inUse := update (fun _ => false) 0 true
    intact := fun _ => true
    fresh := 1
    pcbtable := update (fun _ => none) INIT (some 0)
    pidsQueue := Proc.bootPids.get Proc.bootPids_isSome
    lock := fun _ => none
    thread := update (fun _ => none) 0 (some ⟨INIT, .user⟩) }

theorem bootSys_booted : Booted bootSys :=
  ⟨Proc.bootPids_queue, rfl, rfl, rfl, rfl, rfl, rfl, rfl⟩

/-- The first process forks the pids 2 and 3.  Pid 1 and pid 2 wait for pid 3, which exits and wakes
    both; pid 1 reaps it, and then pid 2 looks again. -/
def twoWaiters : List Input :=
  let run (o : Obj) (n : Nat) := List.replicate n (Input.run o true)
  [.call 0 .fork] ++ run 0 4 ++ run 1 2 ++ [.call 0 .fork] ++ run 0 4 ++ run 2 2 ++
    [.call 0 (.waitPid 3)] ++ run 0 4 ++ [.call 1 (.waitPid 3)] ++ run 1 4 ++
    [.call 2 .exit] ++ run 2 8 ++ run 0 8 ++ run 1 5

set_option maxRecDepth 10000 in
/-- The pid 3 is in the queue twice. -/
theorem reaping_twice : ∃ s₀ s, Booted s₀ ∧ Reaches Step anyInput s₀ s ∧ ¬ SingleReaping s ∧
    ∀ xs, Holds s.pidsQueue xs → ¬ xs.Nodup := by
  have hrun : Leads runStep bootSys twoWaiters fun s =>
      s.pidsQueue.queueSize = 62 ∧ s.pidsQueue.queueHead = 3 ∧ s.pidsQueue.queueCapacity = 64 ∧
        s.pidsQueue.queueArray 63 = 3 ∧ s.pidsQueue.queueArray 0 = 3 := by decide +kernel
  rcases hrun.reaches Step anyInput fun _ _ _ h => ⟨trivial, runStep_sound _ _ _ h⟩ with
    ⟨s, hreach, hsize, hhead, hcap, h63, h0⟩
  have htwice : ∀ xs, Holds s.pidsQueue xs → ¬ xs.Nodup := by
    intro xs hxs hnodup
    have hlen : xs.length = 62 := by
      have hsz := hxs.size
      rw [hsize] at hsz
      omega
    have h60 := hxs.elems 60 (by omega)
    have h61 := hxs.elems 61 (by omega)
    rw [hhead, hcap] at h60 h61
    have hw60 : wrap 64 (3 + ((60 : Nat) : Int)) = 63 := by decide
    have hw61 : wrap 64 (3 + ((61 : Nat) : Int)) = 0 := by decide
    rw [hw60, h63] at h60
    rw [hw61, h0] at h61
    have hne := List.pairwise_iff_getElem.mp hnodup 60 61 (by omega) (by omega) (by decide)
    exact hne (h60.symm.trans h61)
  refine ⟨bootSys, s, bootSys_booted, hreach, fun hone => ?_, htwice⟩
  rcases hone.pids with ⟨xs, hxs, hnodup, -⟩
  exact htwice xs hxs hnodup

/-! ## A child that is reaped once -/

/-- A test of `Rechecked`. -/
def rechecked (s : Sys) : Input → Bool
  | .run o _ =>
    (s.thread o).all fun th => (touched s o th.pc).all s.intact &&
      match th.pc with
      | .pidRelock t b => s.pcbtable t == some b
      | _ => true
  | _ => true

theorem rechecked_sound (s : Sys) (i : Input) (h : rechecked s i = true) : Rechecked s i := by
  cases i with
  | run o statusOk =>
    intro p pc hat
    have h : (s.thread o).all _ = true := h
    rw [hat, Option.all_some, Bool.and_eq_true] at h
    refine ⟨List.all_eq_true.mp h.1, ?_⟩
    rintro t b rfl
    exact beq_iff_eq.mp h.2
  | _ => trivial

/-- The first process forks pid 2 and sleeps in `wait4(2)`; the child exits and wakes it, and it has
    looked again. -/
def untilReap : List Input :=
  let run (o : Obj) (n : Nat) := List.replicate n (Input.run o true)
  [.call 0 .fork] ++ run 0 4 ++ run 1 2 ++ [.call 0 (.waitPid 2)] ++ run 0 4 ++
    [.call 1 .exit] ++ run 1 6 ++ run 0 4

/-- The object is freed, the first process forks again, and the page is used for something else. -/
def afterReap : List Input :=
  List.replicate 3 (.run 0 true) ++ [.call 0 .fork] ++ List.replicate 4 (.run 0 true) ++ [.reuse 1]

set_option maxRecDepth 10000 in
/-- A run in which a child is reaped, its pid goes back, and the next child gets pid 3. -/
theorem reaping_ok_child : ∃ s s' s'', Reaches Step Rechecked bootSys s ∧
    s.thread 0 = some ⟨INIT, .reap 2 1⟩ ∧ Step s (.run 0 true) s' ∧ Reaches Step Rechecked s' s'' ∧
    (s.pcbtable 2 = some 1 ∧ s''.pcbtable 2 = none ∧ s''.pcbtable 3 = some 2) ∧
    SingleReaping s ∧ SingleReaping s'' ∧ ∀ o p t, s''.thread o ≠ some ⟨p, .reap t 1⟩ := by
  have hrun : Leads (tested rechecked runStep) bootSys untilReap fun s =>
      s.thread 0 = some ⟨INIT, .reap 2 1⟩ ∧ rechecked s (.run 0 true) ∧
        s.pcbtable 2 = some 1 ∧ Leads runStep s [.run 0 true] fun s' =>
          Leads (tested rechecked runStep) s' afterReap fun s'' =>
            s''.pcbtable 2 = none ∧ s''.pcbtable 3 = some 2 := by
    decide +kernel
  have hsteps := tested_step rechecked_sound runStep_sound
  rcases hrun.reaches Step _ hsteps with ⟨s, huntil, hat, htest, hin, s', hreap, hlast⟩
  rcases hlast.reaches Step _ hsteps with ⟨s'', hafter, hout, hnext⟩
  rcases bind_eq_some_iff.mp hreap with ⟨a, hreap, heq⟩
  cases heq
  have hcond : Rechecked s (.run 0 true) := rechecked_sound s _ htest
  have hstep := runStep_sound _ _ _ hreap
  have hok := reaping_ok bootSys_booted huntil
  have hlast := reaping_ok bootSys_booted ((huntil.snoc hcond hstep).trans hafter)
  exact ⟨s, s', s'', huntil, hat, hstep, hafter, ⟨hin, hout, hnext⟩, hok.1, hlast.1,
    hok.2 0 INIT 2 1 hat hcond s' hstep s'' hafter⟩

end Uniks.WaitLock
