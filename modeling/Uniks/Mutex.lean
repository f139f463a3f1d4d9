/-
  The sleep lock: `kernel/sync/mutex.c`.

  A step is what a process does while it holds the spinlock of the mutex: the whole loop of
  `mutex_acquire` up to where it returns or blocks, `mutex_holding`, and the second half of
  `mutex_release`, whose first half is a `mutex_holding` of its own.  So a state is one in which the
  spinlock is free.  A process that has been woken takes the spinlock again and competes with all
  the others.  Any number of processes use the mutex, and each releases only what it holds; a
  process may even acquire what it holds already, and then waits for itself.

  `held p` is not in the source: `p` is between the return of `mutex_acquire` and the point in
  `mutex_release` where it gives the mutex up.
-/
import Uniks.Lib.Runs
import Uniks.WaitList

namespace Uniks.Mutex

open Uniks.Runs Uniks.WaitList
open Function (update update_self update_of_ne)

abbrev Pid := Nat

/-- The C type `struct mutex_t`, without its spinlock and its name. -/
structure MutexT where
  locked : Bool
  waiters : List Pid
  pid : Pid

/-- Where a process is. -/
inductive Place where
  | outside
  /-- In `mutex_acquire`: it takes the spinlock next, unless it sleeps. -/
  | acquiring
  /-- In `mutex_release`, in front of its assertion. -/
  | releasing
  /-- In `mutex_release`, behind its assertion. -/
  | clearing
  deriving DecidableEq, Repr

/-- The mutex and its users. -/
structure State where
  m : MutexT
  blocked : Pid → Bool
  place : Pid → Place
  held : Pid → Bool

def State.goto (s : State) (p : Pid) (pl : Place) : State :=
  { s with place := update s.place p pl }

/-! ## The calls -/

/-- The source's `mutex_init`. -/
def mutexInit : MutexT where
  locked := false
  waiters := []
  pid := 0

/-- The source's `mutex_holding`, called by process `p`. -/
def mutexHolding (m : MutexT) (p : Pid) : Bool := m.locked && m.pid == p

/-- The source's `mutex_acquire`, once it has the spinlock. -/
def mutexAcquire (s : State) (p : Pid) : Option State :=
  if s.m.locked then do
    let (blocked, waiters) ← procBlock s.blocked s.m.waiters p
    return { s with m := { s.m with waiters := waiters }, blocked := blocked }
  else
    let s := { s with m := { s.m with locked := true, pid := p } }
    some ({ s with held := update s.held p true }.goto p .outside)

/-- The assertion of `mutex_release`. -/
def releaseCheck (s : State) (p : Pid) : Option State :=
  if mutexHolding s.m p then some (s.goto p .clearing) else none

/-- The rest of `mutex_release`, once it has the spinlock again. -/
def mutexRelease (s : State) (p : Pid) : Option State := do
  let m := { s.m with pid := 0, locked := false }
  let blocked ← procUnblockAll (some p) m.waiters s.blocked
  let s := { s with m := { m with waiters := [] }, blocked := blocked }
  return { s with held := update s.held p false }.goto p .outside

/-! ## The users -/

inductive Input where
  | beginAcquire (p : Pid)
  | acquire (p : Pid)
  | beginRelease (p : Pid)
  | check (p : Pid)
  | release (p : Pid)
  deriving DecidableEq, Repr

/-- A process that sleeps does nothing. -/
def Enabled (s : State) : Input → Prop
  | .beginAcquire p => s.place p = .outside
  | .acquire p => s.place p = .acquiring ∧ s.blocked p = false
  | .beginRelease p => s.place p = .outside ∧ s.held p = true
  | .check p => s.place p = .releasing
  | .release p => s.place p = .clearing

instance (s : State) (i : Input) : Decidable (Enabled s i) := by
  cases i <;> simp only [Enabled] <;> infer_instance

/-- What the process does; `none` is a failed assertion. -/
def next (s : State) : Input → Option State
  | .beginAcquire p => some (s.goto p .acquiring)
  | .acquire p => mutexAcquire s p
  | .beginRelease p => some (s.goto p .releasing)
  | .check p => releaseCheck s p
  | .release p => mutexRelease s p

def Step (s : State) (i : Input) (s' : State) : Prop := Enabled s i ∧ next s i = some s'

/-- After `mutex_init`. -/
def start : State where
  m := mutexInit
  blocked := fun _ => false
  place := fun _ => .outside
  held := fun _ => false

/-! ## The invariant -/

/-- Only those in the loop of `mutex_acquire` wait, only the holder releases, and the two fields
    say who the holder is. -/
structure Inv (s : State) : Prop where
  queued : Queued s.blocked s.m.waiters
  waiting : ∀ p, s.blocked p = true → p ∈ s.m.waiters
  trying : ∀ p ∈ s.m.waiters, s.place p = .acquiring
  holder : ∀ p, s.held p = true ↔ s.m.locked = true ∧ s.m.pid = p
  giving : ∀ p, s.place p = .releasing ∨ s.place p = .clearing → s.held p = true
  kept : s.m.waiters ≠ [] → s.m.locked = true

variable {s s' : State} {p : Pid}

theorem mutexHolding_iff (m : MutexT) (p : Pid) :
    mutexHolding m p = true ↔ m.locked = true ∧ m.pid = p := by
  rw [mutexHolding, Bool.and_eq_true, beq_iff_eq]

theorem start_inv : Inv start where
  queued := .nil _
  waiting p h := nomatch h
  trying p h := nomatch h
  holder p := ⟨fun h => (nomatch h), fun h => nomatch h.1⟩
  giving p h := by rcases h with h | h <;> cases h
  kept h := absurd rfl h

/-- A process outside or in `mutex_release` is awake. -/
theorem Inv.awake (h : Inv s) (hp : s.place p ≠ .acquiring) : s.blocked p = false := by
  cases hblocked : s.blocked p with
  | false => rfl
  | true => exact absurd (h.trying p (h.waiting p hblocked)) hp

/-- A process goes from one place to the next. -/
theorem Inv.goto (h : Inv s) {pl : Place} (hwait : s.place p = .acquiring → pl = .acquiring)
    (hgive : pl = .releasing ∨ pl = .clearing → s.held p = true) : Inv (s.goto p pl) where
  queued := h.queued
  waiting := h.waiting
  trying q hq := by
    show update s.place p pl q = .acquiring
    by_cases hqp : q = p
    · subst hqp
      rw [update_self]
      exact hwait (h.trying q hq)
    · rw [update_of_ne hqp]
      exact h.trying q hq
  holder := h.holder
  giving q hq := by
    have hq : update s.place p pl q = .releasing ∨
      update s.place p pl q = .clearing := hq
    by_cases hqp : q = p
    · subst hqp
      rw [update_self] at hq
      exact hgive hq
    · rw [update_of_ne hqp] at hq
      exact h.giving q hq
  kept := h.kept

/-- While the mutex is locked the process goes to the waiters; else it has the mutex, and there are
    no waiters. -/
theorem Inv.acquire (h : Inv s) (hp : s.place p = .acquiring) (hawake : s.blocked p = false) :
    ∃ s', mutexAcquire s p = some s' ∧ Inv s' := by
  unfold mutexAcquire
  by_cases hlocked : s.m.locked = true
  · rw [if_pos hlocked, procBlock_of_awake hawake]
    refine ⟨_, rfl, h.queued.block hawake, fun q hq => ?_, fun q hq => ?_, h.holder, h.giving,
      fun _ => hlocked⟩
    · have hq : update s.blocked p true q = true := hq
      show q ∈ p :: s.m.waiters
      by_cases hqp : q = p
      · rw [hqp]
        exact List.mem_cons_self
      · rw [update_of_ne hqp] at hq
        exact List.mem_cons_of_mem p (h.waiting q hq)
    · rcases List.mem_cons.mp hq with rfl | hq
      · exact hp
      · exact h.trying q hq
  · rw [if_neg hlocked]
    -- nobody holds the mutex, so nobody is in `mutex_release` and nobody waits
    have hnobody : ∀ q, s.held q ≠ true := fun q hq => hlocked ((h.holder q).mp hq).1
    have hempty : s.m.waiters = [] := by
      by_contra hne
      exact hlocked (h.kept hne)
    refine ⟨_, rfl, h.queued, h.waiting, fun q hq => ?_, fun q => ?_, fun q hq => ?_, fun _ => rfl⟩
    · have hq : q ∈ s.m.waiters := hq
      rw [hempty] at hq
      cases hq
    · show update s.held p true q = true ↔ true = true ∧ p = q
      by_cases hqp : q = p
      · rw [hqp, update_self]
        simp
      · rw [update_of_ne hqp]
        constructor
        · exact fun hq => absurd hq (hnobody q)
        · exact fun hq => absurd hq.2.symm hqp
    · have hq : update s.place p .outside q = .releasing ∨
        update s.place p .outside q = .clearing := hq
      by_cases hqp : q = p
      · rw [hqp, update_self] at hq
        rcases hq with hq | hq <;> cases hq
      · rw [update_of_ne hqp] at hq
        exact absurd (h.giving q hq) (hnobody q)

/-- The assertion holds for who holds the mutex. -/
theorem Inv.check (h : Inv s) (hp : s.place p = .releasing) :
    releaseCheck s p = some (s.goto p .clearing) := by
  have hheld := h.giving p (.inl hp)
  exact if_pos ((mutexHolding_iff s.m p).mpr ((h.holder p).mp hheld))

/-- The mutex is free, and all the waiters are awake. -/
theorem Inv.release (h : Inv s) (hp : s.place p = .clearing) :
    ∃ s', mutexRelease s p = some s' ∧ Inv s' := by
  have hheld := h.giving p (.inr hp)
  have hawake : s.blocked p = false := h.awake (by rw [hp]; exact nofun)
  have hwake : procUnblockAll (some p) s.m.waiters s.blocked
      = some (awaken s.m.waiters s.blocked) := by
    apply h.queued.unblockAll
    rintro q hq
    rw [← Option.some.inj hq]
    exact hawake
  unfold mutexRelease
  dsimp only
  rw [hwake]
  -- there was only one holder
  have hone : ∀ q, s.held q = true → q = p := by
    intro q hq
    rw [← ((h.holder q).mp hq).2, ((h.holder p).mp hheld).2]
  refine ⟨_, rfl, .nil _, fun q hq => ?_, fun q hq => (nomatch hq), fun q => ?_, fun q hq => ?_,
    fun hne => absurd rfl hne⟩
  · have hq : awaken s.m.waiters s.blocked q = true := hq
    by_cases hmem : q ∈ s.m.waiters
    · rw [awaken_mem hmem] at hq
      cases hq
    · rw [awaken_not_mem hmem] at hq
      exact absurd (h.waiting q hq) hmem
  · show update s.held p false q = true ↔ false = true ∧ (0 : Pid) = q
    constructor
    · intro hq
      by_cases hqp : q = p
      · rw [hqp, update_self] at hq
        cases hq
      · rw [update_of_ne hqp] at hq
        exact absurd (hone q hq) hqp
    · exact fun hq => nomatch hq.1
  · have hq : update s.place p .outside q = .releasing ∨
      update s.place p .outside q = .clearing := hq
    by_cases hqp : q = p
    · rw [hqp, update_self] at hq
      rcases hq with hq | hq <;> cases hq
    · rw [update_of_ne hqp] at hq
      exact absurd (hone q (h.giving q hq)) hqp

theorem Inv.next (h : Inv s) {i : Input} (he : Enabled s i) :
    ∃ s', Mutex.next s i = some s' ∧ Inv s' := by
  cases i with
  | beginAcquire p => exact ⟨_, rfl, h.goto (fun _ => rfl) (by rintro (h | h) <;> exact nomatch h)⟩
  | acquire p => exact h.acquire he.1 he.2
  | beginRelease p =>
    refine ⟨_, rfl, h.goto (fun hp => ?_) fun _ => he.2⟩
    rw [he.1] at hp
    cases hp
  | check p =>
    have hp : s.place p = .releasing := he
    refine ⟨_, h.check hp, h.goto (fun hp' => ?_) fun _ => h.giving p (.inl hp)⟩
    rw [hp] at hp'
    cases hp'
  | release p => exact h.release he

theorem Inv.step (h : Inv s) {i : Input} (hs : Step s i s') : Inv s' := by
  obtain ⟨t, ht, hinv⟩ := h.next hs.1
  cases hs.2.symm.trans ht
  exact hinv

/-! ## Runs -/

/-- What holds whenever the spinlock is free.  `asleep` says that who sleeps is on the list and who
    is on the list sleeps, `awake` and `released` that nobody does on a mutex that is free, and
    `running` that no call trips over an assertion. -/
structure MutexOk (s : State) : Prop where
  exclusive : ∀ p q, s.held p = true → s.held q = true → p = q
  holding : ∀ p, mutexHolding s.m p = true ↔ s.held p = true
  waiters : ∀ p ∈ s.m.waiters, s.m.locked = true
  once : s.m.waiters.Nodup
  asleep : ∀ p, s.blocked p = true ↔ p ∈ s.m.waiters
  awake : s.m.locked = false → ∀ p, s.blocked p = false
  released : ∀ p s', Step s (.release p) s' →
    s'.m.locked = false ∧ s'.m.waiters = [] ∧ ∀ q, s'.blocked q = false
  running : ∀ i, Enabled s i → next s i ≠ none

theorem Inv.asleep (h : Inv s) (p : Pid) : s.blocked p = true ↔ p ∈ s.m.waiters :=
  ⟨h.waiting p, h.queued.asleep p⟩

/-- On a free mutex nobody sleeps. -/
theorem Inv.free (h : Inv s) (hfree : s.m.locked = false) (p : Pid) : s.blocked p = false := by
  cases hblocked : s.blocked p with
  | false => rfl
  | true =>
    have hlocked := h.kept (List.ne_nil_of_mem (h.waiting p hblocked))
    rw [hfree] at hlocked
    cases hlocked

/-- What `mutex_release` leaves. -/
theorem mutexRelease_spec (h : mutexRelease s p = some s') :
    s'.m.locked = false ∧ s'.m.waiters = [] := by
  obtain ⟨blocked, -, h⟩ := Option.bind_eq_some_iff.mp h
  cases h
  exact ⟨rfl, rfl⟩

theorem Inv.ok (h : Inv s) : MutexOk s where
  exclusive p q hp hq := by rw [← ((h.holder p).mp hp).2, ((h.holder q).mp hq).2]
  holding p := (mutexHolding_iff s.m p).trans (h.holder p).symm
  waiters p hp := h.kept (List.ne_nil_of_mem hp)
  once := h.queued.nodup
  asleep := h.asleep
  awake := h.free
  released p s' hs := by
    obtain ⟨hfree, hempty⟩ := mutexRelease_spec hs.2
    exact ⟨hfree, hempty, (h.step hs).free hfree⟩
  running i he := by
    obtain ⟨t, ht, -⟩ := h.next he
    rw [ht]
    exact fun hnone => nomatch hnone

/-- In every interleaving one process at most has the mutex, `mutex_holding` is true for just that
    process, and nobody waits or sleeps for a mutex that is free. -/
theorem mutex_ok (hr : Reaches Step anyInput start s) : MutexOk s :=
  (hr.invariant start_inv fun _ _ _ h _ hs => h.step hs).ok

/-- The first process has the mutex, and two others sleep; it releases the mutex, the second process
    gets it, and the third has to wait again. -/
theorem mutex_ok_handover : ∃ s₁ s₂ : State, MutexOk s₁ ∧ MutexOk s₂ ∧
    (s₁.held 1 = true ∧ s₁.m.waiters = [3, 2] ∧ s₁.blocked 2 = true) ∧
    (s₂.held 2 = true ∧ s₂.m.waiters = [3] ∧ s₂.blocked 2 = false) := by
  let step := guarded Enabled next
  have hrun : Leads step start [.beginAcquire 1, .acquire 1, .beginAcquire 2, .acquire 2,
        .beginAcquire 3, .acquire 3] fun s₁ =>
      (s₁.held 1 = true ∧ s₁.m.waiters = [3, 2] ∧ s₁.blocked 2 = true) ∧
      Leads step s₁ [.beginRelease 1, .check 1, .release 1, .acquire 2, .acquire 3] fun s₂ =>
        s₂.held 2 = true ∧ s₂.m.waiters = [3] ∧ s₂.blocked 2 = false := by
    decide +kernel
  have hsteps : ∀ s i s', step s i = some s' → anyInput s i ∧ Step s i s' :=
    fun s i s' h => ⟨trivial, guarded_step s i s' h⟩
  obtain ⟨s₁, h₁, hlocked, hrun⟩ := hrun.reaches Step _ hsteps
  obtain ⟨s₂, h₂, hhanded⟩ := hrun.reaches Step _ hsteps
  exact ⟨s₁, s₂, mutex_ok h₁, mutex_ok (h₁.trans h₂), hlocked, hhanded⟩

end Uniks.Mutex
