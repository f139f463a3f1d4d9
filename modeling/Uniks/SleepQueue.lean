/-
  The sleep queue: `sys_msleep`, the timer interrupt with `time_wakeup`, and `sys_kill`.

  `sys_msleep` pushes the tick to wake at together with the pid, releases `sleep_lock`, and only
  then blocks; in between it holds its entry of `pcblock`, so `time_wakeup` and a `sys_kill` that
  want the same process wait.  `time_wakeup` takes one pair after the other off the top while it is
  due.  A step is one turn of its loop, or what a system call does under the locks.

  `sys_kill` was meant to take the pair of its target out of the queue and to wake the target, but
  marks and wakes the CALLER: the target stays blocked without a pair, for good.  It does no harm
  where `pop_v` finds nothing, which is also when the pair of the target is in the last slot.  The
  key is an `int64_t`, compared as such in the heap and as a `uint64_t` with `ticks`.

  In a run without such a call of `sys_kill`, and without a sleep that ends at tick 2^63 or later,
  the queue has exactly one pair for each sleeping process, nobody is woken before the deadline,
  and `time_wakeup` leaves no pair that is due (`sleep_queue_consistent`).
-/
import Uniks.PriorityQueue
import Uniks.Lib.Runs
import Uniks.Proc
import Mathlib.Algebra.BigOperators.Group.Finset.Piecewise
import Mathlib.Algebra.Order.BigOperators.Group.Finset
import Mathlib.Algebra.Order.Group.Multiset
import Mathlib.Tactic.Abel

namespace Uniks.SleepQueue

open Uniks.Heap Uniks.PriorityQueue Uniks.Runs
open Uniks.Proc (NPROC Pid)
open Function (update update_self update_of_ne)

/-- The modulus of a 64-bit word. -/
def U64 : Nat := 2 ^ 64

/-- A word in an `int64_t`. -/
def int64 (n : Nat) : Int := Int.bmod n U64

/-- An `int64_t` in a comparison with a `uint64_t`. -/
def uint64 (k : Int) : Nat := (k % U64).toNat

/-- Where a process is.  The deadline is what `sys_msleep` asked for, as a tick since boot. -/
inductive Place where
  /-- No entry in `pcbtable`. -/
  | absent
  | awake
  /-- In `sys_msleep`, with its pair in the queue and its entry of `pcblock` held. -/
  | parking (deadline : Nat)
  /-- `TASK_BLOCK`. -/
  | asleep (deadline : Nat)
  deriving DecidableEq, Repr

def Place.deadline : Place → Option Nat
  | .parking d => some d
  | .asleep d => some d
  | _ => none

/-- `ticks` is the number of timer interrupts since boot; the code sees its last 64 bits.  While
    `waking`, a `time_wakeup` holds `sleep_lock`. -/
structure State where
  ticks : Nat
  pqm : PriorityQueueMeta
  waking : Bool
  place : Pid → Place
  killed : Pid → Bool

/-- `atomic_load(&ticks)`. -/
def State.loadTicks (s : State) : Nat := s.ticks % U64

def State.goto (s : State) (p : Pid) (pl : Place) : State :=
  { s with place := update s.place p pl }

/-- `proc_init`: an empty queue, and no process yet. -/
def boot : State :=
  ⟨0, ⟨0, NPROC, fun _ => ⟨0, 0⟩⟩, false, fun _ => .absent, fun _ => false⟩

/-- `1000 / TIMESPERSEC`. -/
def jiffy : Nat := 1

/-- `target_ticks` of `sys_msleep`. -/
def targetTicks (ms : Nat) : Nat := if ms / jiffy < 1 then 1 else ms / jiffy

/-- The process a pair names. -/
def asPid (value : Int) : Option Pid :=
  if h : 0 ≤ value ∧ value < NPROC then some ⟨value.toNat, by omega⟩ else none

inductive Input where
  /-- The rest of the kernel makes a process, or removes one that runs. -/
  | spawn (p : Pid)
  | leave (p : Pid)
  /-- A timer interrupt of the boot hart counts. -/
  | tick
  /-- `time_wakeup` takes `sleep_lock`. -/
  | wakeBegin
  /-- The head of the loop of `time_wakeup`, and its body. -/
  | wakeStep
  /-- `sys_msleep` up to the release of `sleep_lock`. -/
  | msleep (p : Pid) (ms : BitVec 64)
  /-- `p->state = TASK_BLOCK; sched()`. -/
  | park (p : Pid)
  | kill (p : Pid) (targetPid : Int)
  deriving Repr

/-- The source's `sys_msleep`: the pair goes into the queue. -/
def sysMsleep (s : State) (p : Pid) (ms : BitVec 64) : Option State := do
  let targetTicks := targetTicks ms.toNat
  let pqm ← priorityQueuePush s.pqm ⟨int64 (targetTicks + s.loadTicks), p.val⟩
  some { s.goto p (.parking (targetTicks + s.ticks)) with pqm := pqm }

/-- One turn of the loop of `time_wakeup`.  `none`: the entry of `pcblock` is held, or an assertion
    fails. -/
def timeWakeup (s : State) : Option State :=
  if priorityQueueEmpty s.pqm then some { s with waking := false }
  else
    let temppair := priorityQueueTop s.pqm
    if s.loadTicks < uint64 temppair.key then some { s with waking := false }
    else do
      let p ← asPid temppair.value
      match s.place p with
      | .asleep _ =>
        let pqm ← priorityQueuePop s.pqm
        some { s.goto p .awake with pqm := pqm }
      | _ => none

/-- The source's `sys_kill` on a target that is in `pcbtable`: `p` is the CALLER throughout. -/
def sysKill (s : State) (p : Pid) (targetPid : Pid) : Option State := do
  let pqm ← priorityQueuePopV s.pqm targetPid.val
  let s := { s with pqm := pqm, killed := update s.killed p true }
  match s.place p with
  | .asleep _ => some (s.goto p .awake)
  | _ => some s

/-- What happens under one input; `none` if the process is not at the place for it, or waits for a
    lock. -/
def next (s : State) : Input → Option State
  | .spawn p => if s.place p = .absent ∧ p ≠ 0 then some (s.goto p .awake) else none
  | .leave p => if s.place p = .awake then some (s.goto p .absent) else none
  | .tick => some { s with ticks := s.ticks + 1 }
  | .wakeBegin => if s.waking then none else some { s with waking := true }
  | .wakeStep => if s.waking then timeWakeup s else none
  | .msleep p ms => if s.waking = false ∧ s.place p = .awake then sysMsleep s p ms else none
  | .park p =>
    match s.place p with
    | .parking d => some (s.goto p (.asleep d))
    | _ => none
  | .kill p targetPid =>
    if s.place p = .awake then
      match asPid targetPid with
      | none => none
      | some t =>
        match s.place t with
        | .absent => some s
        | .parking _ => none
        | _ => if s.waking then none else sysKill s p t
    else none

/-- A pid outside `pcbtable` is read all the same, and what follows is not determined. -/
def Undetermined (s : State) : Input → Prop
  | .kill p targetPid => s.place p = .awake ∧ asPid targetPid = none
  | _ => False

def Step (s : State) (i : Input) (s' : State) : Prop := next s i = some s' ∨ Undetermined s i

/-- Slot `i` of the heap holds a pair of `p`. -/
def Slot (pq : PriorityQueueMeta) (p : Pid) (i : Nat) : Prop :=
  1 ≤ i ∧ i ≤ pq.priorityQueueSize ∧ (pq.priorityQueueHeap i).value = p.val

/-- Every blocked process has exactly one pair, and every pair belongs to a process in
    `sys_msleep`. -/
def Consistent (s : State) : Prop :=
  (∀ p d, s.place p = .asleep d → ∃! i, Slot s.pqm p i) ∧
  (∀ i, 1 ≤ i → i ≤ s.pqm.priorityQueueSize →
    ∃ p d, (s.place p).deadline = some d ∧ Slot s.pqm p i)

/-- `pop_v` is called for a pid of the table that it does not find before the last slot; the tick
    to wake at fits an `int64_t`. -/
def Harmless (s : State) : Input → Prop
  | .kill _ targetPid =>
    (0 ≤ targetPid ∧ targetPid < NPROC) ∧
    ∀ i, 1 ≤ i → i < s.pqm.priorityQueueSize → (s.pqm.priorityQueueHeap i).value ≠ targetPid
  | .msleep _ ms => targetTicks ms.toNat + s.loadTicks < 2 ^ 63
  | _ => True

variable {s s' : State} {p : Pid} {pl : Place}

@[simp] theorem goto_place (s : State) (p : Pid) (pl : Place) :
    (s.goto p pl).place = update s.place p pl := rfl

theorem asPid_eq_none {value : Int} (h : 0 ≤ value ∧ value < NPROC) : asPid value ≠ none := by
  rw [asPid, dif_pos h]
  exact Option.some_ne_none _

theorem val_of_asPid {value : Int} (h : asPid value = some p) : value = p.val := by
  unfold asPid at h
  split_ifs at h with hin
  cases h
  show value = ((value.toNat : Nat) : Int)
  omega

/-! ## The pair of a process -/

/-- The pairs a process at this place has in the queue. -/
def pairOf (p : Pid) (pl : Place) : Multiset PairT :=
  match pl.deadline with
  | some d => {⟨((d % U64 : Nat) : Int), p.val⟩}
  | none => 0

theorem pairOf_some {d : Nat} (h : pl.deadline = some d) :
    pairOf p pl = {⟨((d % U64 : Nat) : Int), p.val⟩} := by
  rw [pairOf, h]

theorem pairOf_none (h : pl.deadline = none) : pairOf p pl = 0 := by
  rw [pairOf, h]

/-- The pairs of all processes. -/
def pairs (place : Pid → Place) : Multiset PairT := ∑ p, pairOf p (place p)

theorem mem_pairs {place : Pid → Place} {x : PairT} :
    x ∈ pairs place ↔ ∃ p d, (place p).deadline = some d ∧ x = ⟨((d % U64 : Nat) : Int), p.val⟩ := by
  rw [pairs, Multiset.mem_sum]
  constructor
  · rintro ⟨p, -, hx⟩
    rcases hd : (place p).deadline with _ | d
    · rw [pairOf_none hd] at hx
      exact absurd hx (Multiset.notMem_zero x)
    · rw [pairOf_some hd, Multiset.mem_singleton] at hx
      exact ⟨p, d, hd, hx⟩
  · rintro ⟨p, d, hd, rfl⟩
    refine ⟨p, Finset.mem_univ p, ?_⟩
    rw [pairOf_some hd]
    exact Multiset.mem_singleton_self _

/-- One process goes to another place. -/
theorem pairs_update (place : Pid → Place) (p : Pid) (pl : Place) :
    pairs (update place p pl) + pairOf p (place p) = pairs place + pairOf p pl := by
  have hrest : ∑ q ∈ Finset.univ.erase p, pairOf q (update place p pl q)
      = ∑ q ∈ Finset.univ.erase p, pairOf q (place q) := by
    apply Finset.sum_congr rfl
    intro q hq
    rw [update_of_ne (Finset.ne_of_mem_erase hq)]
  have hnew := Finset.add_sum_erase Finset.univ
    (fun q => pairOf q (update place p pl q)) (Finset.mem_univ p)
  have hold := Finset.add_sum_erase Finset.univ (fun q => pairOf q (place q)) (Finset.mem_univ p)
  simp only [update_self, hrest] at hnew
  unfold pairs
  rw [← hnew, ← hold]
  abel

/-- To a place with the same deadline, or none as before. -/
theorem pairs_update_eq {place : Pid → Place} (h : pl.deadline = (place p).deadline) :
    pairs (update place p pl) = pairs place := by
  have hupd := pairs_update place p pl
  rw [show pairOf p pl = pairOf p (place p) from by unfold pairOf; rw [h]] at hupd
  exact add_right_cancel hupd

/-- How many of the pairs are those of one process. -/
theorem countP_pairs (place : Pid → Place) (p : Pid) :
    (pairs place).countP (fun x : PairT => x.value = p.val)
      = if (place p).deadline.isSome then 1 else 0 := by
  have hterm : ∀ q, (pairOf q (place q)).countP (fun x : PairT => x.value = p.val)
      = if q = p then (if (place p).deadline.isSome then 1 else 0) else 0 := by
    intro q
    rcases hd : (place q).deadline with _ | d
    · rw [pairOf_none hd, Multiset.countP_zero]
      split_ifs with hqp hsome
      · rw [← hqp, hd] at hsome
        exact (nomatch hsome)
      · rfl
      · rfl
    · rw [pairOf_some hd, ← Multiset.cons_zero]
      split_ifs with hqp hsome
      · rw [Multiset.countP_cons_of_pos _ (by rw [hqp]), Multiset.countP_zero]
      · rw [← hqp, hd] at hsome
        exact absurd rfl hsome
      · have hne : ((q.val : Nat) : Int) ≠ p.val := fun hval => hqp (Fin.ext (Int.natCast_inj.mp hval))
        exact Multiset.countP_cons_of_neg _ hne
  have hsum := map_sum (Multiset.countPAddMonoidHom fun x : PairT => x.value = p.val)
    (fun q => pairOf q (place q)) Finset.univ
  simp only [Multiset.coe_countPAddMonoidHom, hterm] at hsum
  rw [Finset.sum_ite_eq' Finset.univ p, if_pos (Finset.mem_univ p)] at hsum
  exact hsum

/-! ## The invariant -/

/-- The queue holds the pairs of the processes in `sys_msleep`, and nothing else.  A deadline lies
    in no later round of the 64-bit counter than now, and in the first half of its round. -/
structure Inv (s : State) : Prop where
  order : InOrder s.pqm
  held : entries s.pqm = pairs s.place
  round : ∀ p d, (s.place p).deadline = some d → d / U64 ≤ s.ticks / U64 ∧ d % U64 < 2 ^ 63
  capacity : s.pqm.priorityQueueCapacity = NPROC
  idle : s.place 0 = .absent

theorem boot_inv : Inv boot := by
  have hnone : pairs boot.place = 0 := Finset.sum_eq_zero fun _ _ => rfl
  refine ⟨fun i hi hle => ?_, hnone.symm, fun p d hd => (nomatch hd), rfl, rfl⟩
  have hzero : boot.pqm.priorityQueueSize = 0 := rfl
  omega

theorem Inv.consistent (h : Inv s) : Consistent s := by
  constructor
  · intro p d hp
    have hone := countP_pairs s.place p
    rw [← h.held, hp] at hone
    exact countP_contents_eq_one.mp hone
  · intro i hi hle
    have hmem : s.pqm.priorityQueueHeap i ∈ entries s.pqm := mem_contents.mpr ⟨i, hi, hle, rfl⟩
    rw [h.held] at hmem
    obtain ⟨p, d, hd, hpair⟩ := mem_pairs.mp hmem
    exact ⟨p, d, hd, hi, hle, by rw [hpair]⟩

/-- The idle loop does not sleep, so at least one slot of the array stays free. -/
theorem Inv.size_lt (h : Inv s) : s.pqm.priorityQueueSize < NPROC := by
  rw [← card_entries, h.held, pairs, Multiset.card_sum]
  have hle : ∀ p, (pairOf p (s.place p)).card ≤ if p = 0 then 0 else 1 := by
    intro p
    split_ifs with hp
    · rw [hp, h.idle]
      exact le_rfl
    · rcases hd : (s.place p).deadline with _ | d
      · rw [pairOf_none hd]
        exact Nat.zero_le _
      · rw [pairOf_some hd, Multiset.card_singleton]
  calc ∑ p, (pairOf p (s.place p)).card
      ≤ ∑ p : Pid, (if p = 0 then 0 else 1) := Finset.sum_le_sum fun p _ => hle p
    _ < NPROC := by decide

/-! ## The steps -/

/-- What a step of such a run does. -/
inductive Effect (s : State) : State → Prop
  | quiet {s' : State} (hpqm : s'.pqm = s.pqm) (hplace : s'.place = s.place)
      (hticks : s.ticks ≤ s'.ticks) (hwaking : s.waking = true → s'.waking = true) : Effect s s'
  | finished (hdone : priorityQueueEmpty s.pqm = true ∨
      s.loadTicks < uint64 (priorityQueueTop s.pqm).key) : Effect s { s with waking := false }
  | moved (p : Pid) (pl : Place) (hdeadline : pl.deadline = (s.place p).deadline)
      (hidle : s.place p = .absent → p ≠ 0) (hawake : ∀ d, s.place p ≠ .asleep d) :
      Effect s (s.goto p pl)
  | slept (p : Pid) (target : Nat) (pqm : PriorityQueueMeta) (hawake : s.place p = .awake)
      (hfits : target + s.loadTicks < 2 ^ 63)
      (hpush : priorityQueuePush s.pqm ⟨int64 (target + s.loadTicks), p.val⟩ = some pqm) :
      Effect s { s.goto p (.parking (target + s.ticks)) with pqm := pqm }
  | woken (p : Pid) (d : Nat) (pqm : PriorityQueueMeta) (hasleep : s.place p = .asleep d)
      (hdue : uint64 (priorityQueueTop s.pqm).key ≤ s.loadTicks)
      (hvalue : (priorityQueueTop s.pqm).value = p.val)
      (hpop : priorityQueuePop s.pqm = some pqm) : Effect s { s.goto p .awake with pqm := pqm }

theorem timeWakeup_effect (h : timeWakeup s = some s') : Effect s s' := by
  unfold timeWakeup at h
  by_cases hempty : priorityQueueEmpty s.pqm = true
  · rw [if_pos hempty] at h
    cases h
    exact .finished (.inl hempty)
  rw [if_neg hempty] at h
  by_cases hlate : s.loadTicks < uint64 (priorityQueueTop s.pqm).key
  · simp only [if_pos hlate] at h
    cases h
    exact .finished (.inr hlate)
  · simp only [if_neg hlate] at h
    obtain ⟨p, hp, hrest⟩ := Option.bind_eq_some_iff.mp h
    rcases hpl : s.place p with _ | _ | d | d <;> rw [hpl] at hrest
    · cases hrest
    · cases hrest
    · cases hrest
    · obtain ⟨pqm, hpop, heq⟩ := Option.bind_eq_some_iff.mp hrest
      cases heq
      exact .woken p d pqm hpl (not_lt.mp hlate) (val_of_asPid hp) hpop

theorem sysMsleep_effect {ms : BitVec 64} (h : sysMsleep s p ms = some s')
    (hawake : s.place p = .awake) (hfits : targetTicks ms.toNat + s.loadTicks < 2 ^ 63) :
    Effect s s' := by
  unfold sysMsleep at h
  obtain ⟨pqm, hpush, heq⟩ := Option.bind_eq_some_iff.mp h
  cases heq
  exact .slept p _ pqm hawake hfits hpush

/-- The caller runs, and with nothing found by `pop_v` nothing else changes. -/
theorem sysKill_effect {t : Pid} (h : sysKill s p t = some s') (hawake : s.place p = .awake)
    (hfind : ∀ i, 1 ≤ i → i < s.pqm.priorityQueueSize →
      (s.pqm.priorityQueueHeap i).value ≠ t.val) : Effect s s' := by
  unfold sysKill at h
  rw [priorityQueuePopV_eq hfind] at h
  simp only [Option.bind_eq_bind, Option.bind_some, hawake] at h
  cases h
  exact .quiet rfl rfl le_rfl id

theorem step_effect {i : Input} (hc : Harmless s i) (hs : Step s i s') : Effect s s' := by
  rcases hs with hs | hs
  · cases i with
    | spawn p =>
      simp only [next] at hs
      split_ifs at hs with hp
      cases hs
      exact .moved p .awake (by rw [hp.1]; rfl) (fun _ => hp.2) (by rw [hp.1]; exact fun _ => nofun)
    | leave p =>
      simp only [next] at hs
      split_ifs at hs with hp
      cases hs
      exact .moved p .absent (by rw [hp]; rfl) (by rw [hp]; nofun) (by rw [hp]; exact fun _ => nofun)
    | tick =>
      cases hs
      exact .quiet rfl rfl (Nat.le_succ _) id
    | wakeBegin =>
      simp only [next] at hs
      split_ifs at hs with hw
      cases hs
      exact .quiet rfl rfl le_rfl fun _ => rfl
    | wakeStep =>
      simp only [next] at hs
      split_ifs at hs
      exact timeWakeup_effect hs
    | msleep p ms =>
      simp only [next] at hs
      split_ifs at hs with hp
      exact sysMsleep_effect hs hp.2 hc
    | park p =>
      simp only [next] at hs
      rcases hp : s.place p with _ | _ | d | d <;> rw [hp] at hs
      · cases hs
      · cases hs
      · cases hs
        exact .moved p (.asleep d) (by rw [hp]; rfl) (by rw [hp]; nofun)
          (by rw [hp]; exact fun _ => nofun)
      · cases hs
    | kill p targetPid =>
      simp only [next] at hs
      by_cases hp : s.place p = .awake
      swap
      · rw [if_neg hp] at hs
        cases hs
      rw [if_pos hp] at hs
      rcases ht : asPid targetPid with _ | t <;> rw [ht] at hs
      · cases hs
      have hfind : ∀ i, 1 ≤ i → i < s.pqm.priorityQueueSize →
          (s.pqm.priorityQueueHeap i).value ≠ t.val := by
        rw [← val_of_asPid ht]
        exact hc.2
      rcases htp : s.place t with _ | _ | d | d <;> simp only [htp] at hs
      · cases hs
        exact .quiet rfl rfl le_rfl id
      · split_ifs at hs
        exact sysKill_effect hs hp hfind
      · cases hs
      · split_ifs at hs
        exact sysKill_effect hs hp hfind
  · cases i with
    | kill p targetPid => exact absurd hs.2 (asPid_eq_none hc.1)
    | _ => exact hs.elim

/-- A tick does not lead back to an earlier round. -/
theorem round_mono {d t t' : Nat} (h : d / U64 ≤ t / U64 ∧ d % U64 < 2 ^ 63) (ht : t ≤ t') :
    d / U64 ≤ t' / U64 ∧ d % U64 < 2 ^ 63 :=
  ⟨h.1.trans (Nat.div_le_div_right ht), h.2⟩

/-- The key of a deadline that fits. -/
theorem key_of_deadline {target ticks : Nat} (h : target + ticks % U64 < 2 ^ 63) :
    int64 (target + ticks % U64) = (((target + ticks) % U64 : Nat) : Int) ∧
      (target + ticks) / U64 ≤ ticks / U64 ∧ (target + ticks) % U64 < 2 ^ 63 := by
  have hU : U64 = 18446744073709551616 := by decide
  have hmod : (target + ticks) % U64 = target + ticks % U64 := by
    rw [hU] at h ⊢
    omega
  refine ⟨?_, ?_, by rw [hmod]; exact h⟩
  · rw [hmod, int64]
    apply Int.bmod_eq_of_le
    · rw [hU]
      omega
    · rw [hU] at h ⊢
      omega
  · rw [hU] at h ⊢
    omega

/-- A deadline that has come. -/
theorem le_of_due {d ticks : Nat} (h : d / U64 ≤ ticks / U64 ∧ d % U64 < 2 ^ 63)
    (hdue : uint64 ((d % U64 : Nat) : Int) ≤ ticks % U64) : d ≤ ticks := by
  have hkey : uint64 ((d % U64 : Nat) : Int) = d % U64 := by
    unfold uint64
    rw [← Int.natCast_mod, Int.toNat_natCast, Nat.mod_mod]
  rw [hkey] at hdue
  have hd := Nat.div_add_mod d U64
  have ht := Nat.div_add_mod ticks U64
  have hle := Nat.mul_le_mul_left U64 h.1
  omega

/-- The pair on top is the one of the process it names. -/
theorem Inv.top_pair {pqm : PriorityQueueMeta} {d : Nat} (h : Inv s) (hasleep : s.place p = .asleep d)
    (hvalue : (priorityQueueTop s.pqm).value = p.val) (hpop : priorityQueuePop s.pqm = some pqm) :
    priorityQueueTop s.pqm = ⟨((d % U64 : Nat) : Int), p.val⟩ := by
  have hmem : priorityQueueTop s.pqm ∈ entries s.pqm := by
    rw [(priorityQueuePop_spec hpop h.order).2.1]
    exact Multiset.mem_cons_self _ _
  rw [h.held] at hmem
  obtain ⟨q, d', hd', hpair⟩ := mem_pairs.mp hmem
  rw [hpair] at hvalue
  have hqp : q = p := Fin.ext (Int.natCast_inj.mp hvalue)
  subst hqp
  rw [hasleep] at hd'
  cases hd'
  exact hpair

theorem Inv.effect (h : Inv s) (he : Effect s s') : Inv s' := by
  cases he with
  | quiet hpqm hplace hticks hwaking =>
    refine ⟨?_, ?_, ?_, ?_, ?_⟩
    · rw [hpqm]
      exact h.order
    · rw [hpqm, hplace]
      exact h.held
    · rw [hplace]
      exact fun p d hd => round_mono (h.round p d hd) hticks
    · rw [hpqm]
      exact h.capacity
    · rw [hplace]
      exact h.idle
  | finished hdone => exact ⟨h.order, h.held, h.round, h.capacity, h.idle⟩
  | moved p pl hdeadline hidle hawake =>
    have hp : p ≠ 0 := by
      rintro rfl
      exact hidle h.idle rfl
    refine ⟨h.order, ?_, ?_, h.capacity, ?_⟩
    · rw [goto_place, pairs_update_eq hdeadline]
      exact h.held
    · intro q d hd
      rw [goto_place] at hd
      by_cases hq : q = p
      · subst hq
        rw [update_self, hdeadline] at hd
        exact h.round q d hd
      · rw [update_of_ne hq] at hd
        exact h.round q d hd
    · rw [goto_place, update_of_ne hp.symm]
      exact h.idle
  | slept p target pqm hawake hfits hpush =>
    obtain ⟨hkey, hround⟩ := key_of_deadline hfits
    obtain ⟨hord, hentries, hcap⟩ := priorityQueuePush_spec hpush h.order
    refine ⟨hord, ?_, ?_, hcap.trans h.capacity, ?_⟩
    · have hupd := pairs_update s.place p (.parking (target + s.ticks))
      have hno : pairOf p (s.place p) = 0 := pairOf_none (by rw [hawake]; rfl)
      rw [hno, add_zero, pairOf_some rfl] at hupd
      show entries pqm = pairs (update s.place p _)
      rw [hentries, hupd, h.held, State.loadTicks, hkey, ← Multiset.singleton_add, add_comm]
    · intro q d hd
      by_cases hq : q = p
      · subst hq
        simp only [goto_place, update_self] at hd
        cases hd
        exact hround
      · simp only [goto_place, update_of_ne hq] at hd
        exact h.round q d hd
    · have hp : (0 : Pid) ≠ p := by
        rintro rfl
        rw [h.idle] at hawake
        cases hawake
      show update s.place p _ 0 = _
      rw [update_of_ne hp]
      exact h.idle
  | woken p d pqm hasleep hdue hvalue hpop =>
    obtain ⟨hord, hentries, hcap⟩ := priorityQueuePop_spec hpop h.order
    refine ⟨hord, ?_, ?_, hcap.trans h.capacity, ?_⟩
    · have hupd := pairs_update s.place p .awake
      have hno : pairOf p .awake = 0 := pairOf_none rfl
      rw [hno, add_zero, hasleep, pairOf_some rfl,
        ← h.top_pair hasleep hvalue hpop, ← h.held, hentries, ← Multiset.singleton_add,
        add_comm] at hupd
      exact (add_left_cancel hupd).symm
    · intro q d' hd
      by_cases hq : q = p
      · subst hq
        simp only [goto_place, update_self] at hd
        cases hd
      · simp only [goto_place, update_of_ne hq] at hd
        exact h.round q d' hd
    · have hp : (0 : Pid) ≠ p := by
        rintro rfl
        rw [h.idle] at hasleep
        cases hasleep
      show update s.place p _ 0 = _
      rw [update_of_ne hp]
      exact h.idle

/-- A sleeping process stays asleep, or its deadline has come and it is ready. -/
theorem Inv.sleeper {d : Nat} (h : Inv s) (he : Effect s s') (hp : s.place p = .asleep d) :
    s'.place p = .asleep d ∨ s'.place p = .awake ∧ d ≤ s.ticks := by
  cases he with
  | quiet hpqm hplace hticks hwaking =>
    rw [hplace]
    exact .inl hp
  | finished hdone => exact .inl hp
  | moved q pl hdeadline hidle hawake =>
    have hne : p ≠ q := by
      rintro rfl
      exact hawake d hp
    rw [goto_place, update_of_ne hne]
    exact .inl hp
  | slept q target pqm hawake hfits hpush =>
    have hne : p ≠ q := by
      rintro rfl
      rw [hp] at hawake
      cases hawake
    show update s.place q _ p = _ ∨ _
    rw [update_of_ne hne]
    exact .inl hp
  | woken q d' pqm hasleep hdue hvalue hpop =>
    by_cases hne : p = q
    · subst hne
      rw [hp] at hasleep
      cases hasleep
      rw [h.top_pair hp hvalue hpop] at hdue
      exact .inr ⟨update_self .., le_of_due (h.round p d (by rw [hp]; rfl)) hdue⟩
    · show update s.place q _ p = _ ∨ _
      rw [update_of_ne hne]
      exact .inl hp

/-- Where `time_wakeup` leaves its loop, no pair in the queue is due. -/
theorem Inv.finish (h : Inv s) (he : Effect s s') (hw : s.waking = true) (hw' : s'.waking = false) :
    ∀ i, 1 ≤ i → i ≤ s'.pqm.priorityQueueSize →
      (s'.loadTicks : Int) < (s'.pqm.priorityQueueHeap i).key := by
  cases he with
  | quiet hpqm hplace hticks hwaking =>
    rw [hwaking hw] at hw'
    cases hw'
  | moved q pl hdeadline hidle hawake => exact absurd (hw.symm.trans hw') nofun
  | slept q target pqm hawake hfits hpush => exact absurd (hw.symm.trans hw') nofun
  | woken q d pqm hasleep hdue hvalue hpop => exact absurd (hw.symm.trans hw') nofun
  | finished hdone =>
    intro i hi hle
    have hmem : s.pqm.priorityQueueHeap i ∈ entries s.pqm := mem_contents.mpr ⟨i, hi, hle, rfl⟩
    have hfirst : priorityQueueTop s.pqm ∈ entries s.pqm :=
      mem_contents.mpr ⟨1, le_rfl, hi.trans hle, rfl⟩
    rcases hdone with hempty | hlate
    · have hzero : s.pqm.priorityQueueSize = 0 := by simpa [priorityQueueEmpty] using hempty
      have hle' : i ≤ s.pqm.priorityQueueSize := hle
      omega
    · have htop := h.order.top_le hmem
      rw [h.held] at hfirst
      obtain ⟨p, d, -, hpair⟩ := mem_pairs.mp hfirst
      rw [hpair] at hlate htop
      rw [uint64, ← Int.natCast_mod, Int.toNat_natCast, Nat.mod_mod] at hlate
      exact lt_of_lt_of_le (Int.ofNat_lt.mpr hlate) htop

/-! ## Every run -/

theorem inv_of_reaches (h : Reaches Step Harmless boot s) : Inv s :=
  h.invariant boot_inv fun _ _ _ hI hc hs => hI.effect (step_effect hc hs)

/-- A push into the sleep queue does not fail its assertion. -/
theorem sleep_queue_has_room (h : Reaches Step Harmless boot s) (x : PairT) :
    (priorityQueuePush s.pqm x).isSome := by
  have hI := inv_of_reaches h
  apply priorityQueuePush_isSome
  rw [hI.capacity]
  exact hI.size_lt

/-- In every run whose calls of `sys_kill` find no pair before the last slot, and whose deadlines
    fit the key: the queue is consistent, a blocked process leaves that state only at its deadline
    or later, and after `time_wakeup` no pair is due. -/
theorem sleep_queue_consistent (h : Reaches Step Harmless boot s) :
    Consistent s ∧
    (∀ i s' p d, Harmless s i → Step s i s' → s.place p = .asleep d →
      s'.place p = .asleep d ∨ s'.place p = .awake ∧ d ≤ s.ticks) ∧
    (∀ i s', Harmless s i → Step s i s' → s.waking = true → s'.waking = false →
      ∀ slot, 1 ≤ slot → slot ≤ s'.pqm.priorityQueueSize →
        (s'.loadTicks : Int) < (s'.pqm.priorityQueueHeap slot).key) := by
  have hI := inv_of_reaches h
  refine ⟨hI.consistent, ?_, ?_⟩
  · intro i s' p d hc hs hp
    exact hI.sleeper (step_effect hc hs) hp
  · intro i s' hc hs hw hw'
    exact hI.finish (step_effect hc hs) hw hw'

instance (s : State) : (i : Input) → Decidable (Harmless s i)
  | .kill _ _ => inferInstanceAs (Decidable ((_ ∧ _) ∧ _))
  | .msleep _ _ => inferInstanceAs (Decidable (_ < _))
  | .spawn _ => isTrue trivial
  | .leave _ => isTrue trivial
  | .tick => isTrue trivial
  | .wakeBegin => isTrue trivial
  | .wakeStep => isTrue trivial
  | .park _ => isTrue trivial

/-- Processes 1 and 2 sleep, for 200 and for 100 ticks; process 3 runs.  The pair of process 2 is on
    top, the one of process 1 in the last slot. -/
def twoSleepers : List Input :=
  [.spawn 1, .spawn 2, .spawn 3, .msleep 1 200, .park 1, .msleep 2 100, .park 2]

/-- The kill of process 1 finds no pair before the last slot; after 100 ticks `time_wakeup` wakes
    process 2, and its next turn leaves the pair of process 1. -/
def wokenAtDeadline : List Input :=
  twoSleepers ++ [.kill 3 1] ++ List.replicate 100 .tick ++ [.wakeBegin, .wakeStep]

theorem sleep_queue_consistent_woken : ∃ s s', Consistent s ∧ s.killed 3 = true ∧
    s.ticks = 100 ∧ s.place 1 = .asleep 200 ∧ s.place 2 = .awake ∧
    Step s .wakeStep s' ∧ s'.waking = false ∧ 100 < (s'.pqm.priorityQueueHeap 1).key := by
  have hrun : Leads (guarded Harmless next) boot wokenAtDeadline fun s =>
      s.killed 3 ∧ s.waking ∧ s.ticks = 100 ∧ s.place 1 = .asleep 200 ∧ s.place 2 = .awake ∧
        ∃ s' ∈ next s .wakeStep, s'.waking = false ∧ s'.ticks = 100 ∧
          s'.pqm.priorityQueueSize = 1 := by
    decide +kernel
  have hsteps : ∀ s i s', guarded Harmless next s i = some s' → Harmless s i ∧ Step s i s' :=
    fun s i s' h => (guarded_step s i s' h).imp_right .inl
  obtain ⟨s, hreach, hkilled, hwaking, hticks, hone, htwo, s', hs', hwaking', hticks', hsize⟩ :=
    hrun.reaches Step _ hsteps
  obtain ⟨hconsistent, -, hleft⟩ := sleep_queue_consistent hreach
  have hlate := hleft .wakeStep s' trivial (.inl hs') hwaking hwaking' 1 le_rfl (by omega)
  have hload : s'.loadTicks = 100 := by
    rw [State.loadTicks, hticks']
    rfl
  rw [hload] at hlate
  exact ⟨s, s', hconsistent, hkilled, hticks, hone, htwo, .inl hs', hwaking', hlate⟩

/-- The process on top is killed: its pair is gone, and it stays blocked. -/
theorem killed_sleeper_is_lost :
    ¬ ∀ s, Reaches Step anyInput boot s → Consistent s := by
  intro hall
  have hrun : Leads next boot (twoSleepers ++ [.kill 3 2]) fun s => s.place 2 = .asleep 100 ∧
      s.pqm.priorityQueueSize = 1 ∧ (s.pqm.priorityQueueHeap 1).value = 1 := by
    decide +kernel
  obtain ⟨s, hreach, hasleep, hsize, hother⟩ := hrun.reaches Step anyInput fun _ _ _ h => ⟨trivial, .inl h⟩
  obtain ⟨i, ⟨hi, hle, hvalue⟩, -⟩ := (hall s hreach).1 2 100 hasleep
  rw [hsize] at hle
  rw [show i = 1 from by omega, hother] at hvalue
  exact absurd hvalue (by decide)

end Uniks.SleepQueue
