/-
  Who sleeps on a pipe.

  The calls are those of `Uniks.Pipe`, made by anybody at any time: `pipeclose` does not wait for
  the last descriptor here, and a call goes on after the page of the buffer has been given back,
  since what the bytes are does not matter to who sleeps.

  A reader sleeps while the pipe is empty and a writer may come, a writer while the pipe is full and
  a reader may come (`Awaited`).  Every exit of the calls that changes the buffer wakes the other
  side, but for one: a writer that is killed in the middle of its bytes returns at once.  A reader
  that sleeps then does not hear of the bytes that have been put in before (`Abandons`).
-/
import Uniks.Pipe

namespace Uniks.Pipe

open Uniks.Queue Uniks.Runs
open Uniks.Proc (Pid)
open Option (some bind_eq_some_iff)

/-! ## Calls by anybody -/

inductive Call where
  | kill (p : Pid)
  | beginRead (p : Pid) (n : Nat)
  | beginWrite (p : Pid) (n : Nat)
  | beginClose (p : Pid) (e : End)
  | read (p : Pid)
  | write (p : Pid) (killAt : Option Nat) (addr : Nat → UInt8)
  | pipeclose (p : Pid)

/-- Whatever has become of the page of the buffer. -/
def State.unfreed (s : State) : State := { s with freed := false }

/-- A process that is in no call enters one. -/
def enter (s : State) (p : Pid) (pl : Place) : Option State :=
  if s.place p = .user then some (s.goto p pl) else none

def nextCall (s : State) : Call → Option State
  | .kill p => some { s with killed := Function.update s.killed p true }
  | .beginRead p n => enter s p (.reading n)
  | .beginWrite p n => enter s p (.writing n 0)
  | .beginClose p e => enter s p (.closing e)
  | .read p => (piperead s.unfreed p).map Prod.fst
  | .write p killAt addr => pipewrite s.unfreed p killAt addr
  | .pipeclose p => Pipe.pipeclose s p

def CallStep (s : State) (c : Call) (s' : State) : Prop := nextCall s c = some s'

/-- The writer has put bytes into the buffer since it took the lock, and there was room for the next
    one, when it is killed. -/
def Abandons (s : State) (p : Pid) (killAt : Option Nat) : Prop :=
  ∃ n i k, s.place p = .writing n i ∧ killAt = some k ∧ s.killed p = false ∧ s.readopen = true ∧
    i < k ∧ k < n ∧ s.pipe.queueSize + ((k - i : Nat) : Int) ≤ s.pipe.queueCapacity

/-- No reader sleeps while a writer abandons its call. -/
def Heard (s : State) : Call → Prop
  | .write p killAt _ => Abandons s p killAt → ∀ q n, s.place q ≠ .readWait n
  | _ => True

/-- Whoever sleeps waits for something that can still come. -/
structure Awaited (s : State) : Prop where
  readers : ∀ p n, s.place p = .readWait n → queueEmpty s.pipe = true ∧ s.writeopen = true
  writers : ∀ p n i, s.place p = .writeWait n i → queueFull s.pipe = true ∧ s.readopen = true

/-! ## How the loop of the writer ends -/

/-- A writer that is refused has been killed, unless it was refused at once. -/
theorem writeLoop_refused (readopen : Bool) (killed : Nat → Bool) (addr : Nat → UInt8)
    {left i : Nat} {q q' : QueueMeta UInt8} {bytes : List UInt8}
    (h : writeLoop readopen killed addr left i q = some (q', bytes, .refused)) :
    bytes = [] ∨ (readopen = true ∧ bytes.length < left ∧ killed i = false ∧
      killed (i + bytes.length - 1) = false ∧ killed (i + bytes.length) = true) := by
  induction left generalizing i q bytes with
  | zero => cases h
  | succ left ih =>
    rw [writeLoop] at h
    split at h
    · obtain ⟨-, htail⟩ := Prod.mk.inj (some.inj h)
      exact .inl (Prod.mk.inj htail).1.symm
    · rename_i hgo
      split at h
      · cases Prod.mk.inj (Prod.mk.inj (some.inj h)).2 |>.2
      · obtain ⟨q₁, -, h⟩ := bind_eq_some_iff.mp h
        obtain ⟨⟨q₂, rest, e⟩, hrest, h⟩ := bind_eq_some_iff.mp h
        obtain ⟨rfl, htail⟩ := Prod.mk.inj (some.inj h)
        cases htail
        rw [Bool.not_eq_true, Bool.or_eq_false_iff, Bool.not_eq_false'] at hgo
        refine .inr ⟨hgo.1, ?_⟩
        rw [List.length_cons]
        rcases ih hrest with hnil | ⟨-, hlt, hfirst, hlast, hkill⟩
        · -- refused right after the first byte
          subst hnil
          refine ⟨Nat.succ_lt_succ ?_, hgo.2, hgo.2, ?_⟩
          · cases left with
            | zero => cases hrest
            | succ left => exact Nat.succ_pos left
          · cases left with
            | zero => cases hrest
            | succ left =>
              rw [writeLoop] at hrest
              split at hrest
              · rename_i hstop
                rw [hgo.1, Bool.not_true, Bool.false_or] at hstop
                exact hstop
              · split at hrest
                · cases Prod.mk.inj (Prod.mk.inj (some.inj hrest)).2 |>.2
                · obtain ⟨q₃, -, hrest⟩ := bind_eq_some_iff.mp hrest
                  obtain ⟨⟨q₄, more, e⟩, -, hrest⟩ := bind_eq_some_iff.mp hrest
                  cases Prod.mk.inj (Prod.mk.inj (some.inj hrest)).2 |>.1
        · refine ⟨Nat.succ_lt_succ hlt, hgo.2, ?_, ?_⟩
          · have heq : i + (rest.length + 1) - 1 = i + 1 + rest.length - 1 := by omega
            rw [heq]
            exact hlast
          · have heq : i + (rest.length + 1) = i + 1 + rest.length := by omega
            rw [heq]
            exact hkill

/-- A writer that has to wait leaves a full buffer, and a reader may come. -/
theorem writeLoop_full (readopen : Bool) (killed : Nat → Bool) (addr : Nat → UInt8)
    {left i j : Nat} {q q' : QueueMeta UInt8} {bytes : List UInt8}
    (h : writeLoop readopen killed addr left i q = some (q', bytes, .full j)) :
    readopen = true ∧ queueFull q' = true := by
  induction left generalizing i q bytes with
  | zero => cases h
  | succ left ih =>
    rw [writeLoop] at h
    split at h
    · cases Prod.mk.inj (Prod.mk.inj (some.inj h)).2 |>.2
    · rename_i hgo
      rw [Bool.not_eq_true, Bool.or_eq_false_iff, Bool.not_eq_false'] at hgo
      split at h
      · rename_i hfull
        cases h
        exact ⟨hgo.1, hfull⟩
      · obtain ⟨q₁, -, h⟩ := bind_eq_some_iff.mp h
        obtain ⟨⟨q₂, rest, e⟩, hrest, h⟩ := bind_eq_some_iff.mp h
        obtain ⟨rfl, htail⟩ := Prod.mk.inj (some.inj h)
        cases htail
        exact ih hrest

/-! ## The calls keep the sleepers right -/

/-- The buffer holds something, and the sleepers are right. -/
structure Waits (s : State) : Prop extends Awaited s where
  holds : ∃ xs, Holds s.pipe xs

variable {s s' : State} {p : Pid} {pl : Place}

/-- Nobody is left on a list that has been emptied. -/
theorem unblockReaders_none (q : Pid) (n : Nat) : (unblockReaders s).place q ≠ .readWait n := by
  simp only [unblockReaders]
  split
  · exact (fun h => by cases h)
  · rename_i hnot
    exact hnot n

theorem unblockWriters_none (q : Pid) (n i : Nat) :
    (unblockWriters s).place q ≠ .writeWait n i := by
  simp only [unblockWriters]
  split
  · exact (fun h => by cases h)
  · rename_i hnot
    exact hnot n i

/-- The other list stays as it is. -/
theorem unblockReaders_writers {q : Pid} {n i : Nat}
    (h : (unblockReaders s).place q = .writeWait n i) : s.place q = .writeWait n i := by
  simp only [unblockReaders] at h
  split at h
  · cases h
  · exact h

theorem unblockWriters_readers {q : Pid} {n : Nat}
    (h : (unblockWriters s).place q = .readWait n) : s.place q = .readWait n := by
  simp only [unblockWriters] at h
  split at h
  · cases h
  · exact h

/-- A process goes where it does not sleep. -/
theorem goto_sleeper {pl pl' : Place} {q : Pid} (h : (s.goto p pl).place q = pl') (hne : pl ≠ pl') :
    s.place q = pl' := by
  have h : Function.update s.place p pl q = pl' := h
  by_cases hqp : q = p
  · rw [hqp, Function.update_self] at h
    exact absurd h hne
  · rw [Function.update_of_ne hqp] at h
    exact h

theorem Waits.enter (h : Waits s) (hr : ∀ n, pl ≠ .readWait n) (hw : ∀ n i, pl ≠ .writeWait n i) :
    Waits (s.goto p pl) where
  readers q n hq := h.readers q n (goto_sleeper hq (hr n))
  writers q n i hq := h.writers q n i (goto_sleeper hq (hw n i))
  holds := h.holds

theorem queueFull_iff {q : QueueMeta UInt8} {xs : List UInt8} (h : Holds q xs) :
    queueFull q = true ↔ (xs.length : Int) = q.queueCapacity := by
  rw [queueFull, beq_iff_eq, h.size]

theorem Waits.pipewrite (h : Waits s) {killAt : Option Nat} {addr : Nat → UInt8}
    (hheard : Heard s (.write p killAt addr))
    (hs : Pipe.pipewrite s.unfreed p killAt addr = some s') : Waits s' := by
  obtain ⟨xs, hxs⟩ := h.holds
  have hhold : Holds s.unfreed.pipe xs := hxs
  unfold Pipe.pipewrite at hs
  split at hs
  · rename_i n i hp
    have hp : s.place p = .writing n i := hp
    rw [if_neg (by exact Bool.false_ne_true)] at hs
    obtain ⟨q, bytes, e, hrun, hq, hcap⟩ := writeLoop_spec s.readopen
      (fun j => s.killed p || killAt.any fun k => decide (k ≤ j)) addr (n - i) (i := i) hhold
    have hrun' : writeLoop s.unfreed.readopen (fun j => s.unfreed.killed p ||
        killAt.any fun k => decide (k ≤ j)) addr (n - i) i s.unfreed.pipe = some (q, bytes, e) := hrun
    dsimp only at hs
    rw [hrun'] at hs
    cases e with
    | done =>
      cases hs
      refine ⟨⟨fun r m hr => ?_, fun r m j hr => ?_⟩, _, hq⟩
      · exact absurd (goto_sleeper hr nofun) (unblockReaders_none r m)
      · -- a writer asleep: the buffer was full, so nothing has been put in
        have hold := unblockReaders_writers (goto_sleeper hr nofun)
        obtain ⟨hfull, hopen⟩ := h.writers r m j hold
        have hlen := (queueFull_iff hhold).mp hfull
        have hfits := hq.fits
        rw [List.length_append] at hfits
        refine ⟨(queueFull_iff hq).mpr ?_, hopen⟩
        rw [List.length_append]
        omega
    | full j =>
      cases hs
      obtain ⟨hopen, hfull⟩ := writeLoop_full _ _ _ hrun
      refine ⟨⟨fun r m hr => ?_, fun r m j hr => ⟨hfull, hopen⟩⟩, _, hq⟩
      exact absurd (goto_sleeper hr nofun) (unblockReaders_none r m)
    | refused =>
      cases hs
      rcases writeLoop_refused _ _ _ hrun with hnil | ⟨hopen, hlt, hfirst, hlast, hkill⟩
      · -- the buffer is as it was
        subst hnil
        rw [List.append_nil] at hq
        refine ⟨⟨fun r m hr => ?_, fun r m j hr => ?_⟩, _, hq⟩
        · have hold : s.place r = .readWait m := goto_sleeper hr nofun
          obtain ⟨hempty, hwopen⟩ := h.readers r m hold
          exact ⟨hq.queueEmpty_iff.mpr (hhold.queueEmpty_iff.mp hempty), hwopen⟩
        · have hold : s.place r = .writeWait m j := goto_sleeper hr nofun
          obtain ⟨hfull, hropen⟩ := h.writers r m j hold
          have hlen := (queueFull_iff hhold).mp hfull
          exact ⟨(queueFull_iff hq).mpr (hlen.trans hcap.symm), hropen⟩
      · -- the writer has been killed in the middle of its bytes
        rw [Bool.or_eq_false_iff] at hfirst hlast
        rw [hfirst.1, Bool.false_or] at hkill
        obtain ⟨k, hk, hle⟩ := (Option.any_eq_true _ _).mp hkill
        have hle := of_decide_eq_true hle
        subst hk
        have hik : ¬ k ≤ i := of_decide_eq_false hfirst.2
        have hbefore : ¬ k ≤ i + bytes.length - 1 := of_decide_eq_false hlast.2
        have hfits := hq.fits
        rw [List.length_append, hcap] at hfits
        have hsize : s.pipe.queueSize = xs.length := hxs.size
        have habandons : Abandons s p (some k) := by
          refine ⟨n, i, k, hp, rfl, hfirst.1, hopen, by omega, by omega, ?_⟩
          have hfits : ((xs.length + bytes.length : Nat) : Int) ≤ s.pipe.queueCapacity := hfits
          rw [hsize]
          omega
        refine ⟨⟨fun r m hr => ?_, fun r m j hr => ?_⟩, _, hq⟩
        · exact absurd (goto_sleeper hr nofun) (hheard habandons r m)
        · have hold : s.place r = .writeWait m j := goto_sleeper hr nofun
          obtain ⟨hfull, hropen⟩ := h.writers r m j hold
          have hlen := (queueFull_iff hhold).mp hfull
          have hcap' : s.unfreed.pipe.queueCapacity = s.pipe.queueCapacity := rfl
          have hpos : 0 < bytes.length := by omega
          rw [hcap'] at hlen
          have hfits : ((xs.length + bytes.length : Nat) : Int) ≤ s.pipe.queueCapacity := hfits
          omega
  · cases hs

theorem Waits.piperead (h : Waits s) {r : Option (List UInt8)}
    (hs : Pipe.piperead s.unfreed p = some (s', r)) : Waits s' := by
  obtain ⟨xs, hxs⟩ := h.holds
  have hhold : Holds s.unfreed.pipe xs := hxs
  unfold Pipe.piperead at hs
  split at hs
  · rename_i n hp
    rw [if_neg (by exact Bool.false_ne_true)] at hs
    split at hs
    · rename_i hwait
      rw [Bool.and_eq_true] at hwait
      split at hs
      · cases hs
        have hback : Waits (s.goto p .user) := h.enter (fun _ => nofun) fun _ _ => nofun
        exact ⟨⟨hback.readers, hback.writers⟩, hback.holds⟩
      · cases hs
        exact ⟨⟨fun _ _ _ => hwait, fun q m j hq => h.writers q m j (goto_sleeper hq nofun)⟩,
          xs, hxs⟩
    · rename_i hgo
      obtain ⟨q, hrun, hq, hcap⟩ := readLoop_spec n hhold
      rw [hrun] at hs
      cases hs
      refine ⟨⟨fun q' m hq' => ?_, fun q' m j hq' => ?_⟩, _, hq⟩
      · -- nobody sleeps where there is something to take, or where no writer can come
        have hold := unblockWriters_readers (goto_sleeper hq' nofun)
        exact absurd (Bool.and_eq_true .. |>.mpr (h.readers q' m hold)) hgo
      · exact absurd (goto_sleeper hq' nofun) (unblockWriters_none q' m j)
  · cases hs

theorem Waits.pipeclose (h : Waits s) (hs : Pipe.pipeclose s p = some s') : Waits s' := by
  unfold Pipe.pipeclose at hs
  split at hs
  · cases hs
    refine ⟨⟨fun q m hq => ?_, fun q m j hq => ?_⟩, h.holds⟩
    · exact absurd (goto_sleeper hq nofun)
        (unblockReaders_none (s := { s with writeopen := false }) q m)
    · exact h.writers q m j (unblockReaders_writers (s := { s with writeopen := false })
        (goto_sleeper hq nofun))
  · cases hs
    refine ⟨⟨fun q m hq => ?_, fun q m j hq => ?_⟩, h.holds⟩
    · exact h.readers q m (unblockWriters_readers (s := { s with readopen := false })
        (goto_sleeper hq nofun))
    · exact absurd (goto_sleeper hq nofun)
        (unblockWriters_none (s := { s with readopen := false }) q m j)
  · cases hs

theorem enter_goto (hs : enter s p pl = some s') : s' = s.goto p pl := by
  unfold enter at hs
  split at hs
  · exact (some.inj hs).symm
  · cases hs

theorem Waits.step (h : Waits s) {c : Call} (hheard : Heard s c) (hs : CallStep s c s') :
    Waits s' := by
  cases c with
  | kill p =>
    cases hs
    exact ⟨⟨h.readers, h.writers⟩, h.holds⟩
  | beginRead p n | beginWrite p n | beginClose p e =>
    rw [enter_goto hs]
    exact h.enter (fun _ => nofun) fun _ _ => nofun
  | read p =>
    obtain ⟨⟨t, r⟩, hrun, rfl⟩ := Option.map_eq_some_iff.mp hs
    exact h.piperead hrun
  | write p killAt addr => exact h.pipewrite hheard hs
  | pipeclose p => exact h.pipeclose hs

/-! ## Runs -/

theorem start_waits {creator : Pid} {heap : Int → UInt8} {q : QueueMeta UInt8}
    (hq : queueInit PGSIZE heap = some q) : Waits (start creator q) where
  readers _ _ hp := nomatch hp
  writers _ _ _ hp := nomatch hp
  holds := ⟨[], holds_queueInit hq⟩

/-- As long as no writer is killed in the middle of its bytes while a reader sleeps, nobody sleeps
    on a pipe without a reason. -/
theorem pipe_wakeup {creator : Pid} {heap : Int → UInt8} {q : QueueMeta UInt8} {s : State}
    (hq : queueInit PGSIZE heap = some q) (hr : Reaches CallStep Heard (start creator q) s) :
    Awaited s :=
  (hr.invariant (start_waits hq) fun _ _ _ h hheard hs => h.step hheard hs).toAwaited

/-- A new pipe with an empty page. -/
def emptyPipe : State := start 0 ⟨0, PGSIZE, 0, -1, fun _ => 0⟩

/-- A test of `Heard`: nobody kills a writer. -/
def unkilled (_ : State) : Call → Bool
  | .write _ killAt _ => killAt.isNone
  | _ => true

theorem unkilled_sound (s : State) (c : Call) (h : unkilled s c = true) : Heard s c := by
  cases c with
  | write p killAt addr =>
    rintro ⟨n, i, k, -, rfl, -⟩
    cases h
  | _ => trivial

/-- A reader sleeps, a writer comes with a byte, and the reader is awake. -/
theorem pipe_wakeup_one_byte : ∃ s : State, s.written = [7] ∧ s.place 2 = .reading 1 ∧ Awaited s := by
  have hq : queueInit PGSIZE (fun _ => (0 : UInt8)) = some ⟨0, PGSIZE, 0, -1, fun _ => 0⟩ := rfl
  have hrun : Leads (tested unkilled nextCall) emptyPipe [.beginRead 2 1, .read 2, .beginWrite 1 1,
      .write 1 none fun _ => 7] fun s => s.written = [7] ∧ s.place 2 = .reading 1 := by
    decide +kernel
  obtain ⟨s, hreach, hwritten, hplace⟩ :=
    hrun.reaches CallStep _ (tested_step unkilled_sound fun _ _ _ h => h)
  exact ⟨s, hwritten, hplace, pipe_wakeup hq hreach⟩

/-- The writer is killed after its first byte, and the reader sleeps on. -/
theorem pipe_wakeup_missed : ∃ s : State, Reaches CallStep anyInput emptyPipe s ∧
    s.place 2 = .readWait 1 ∧ queueEmpty s.pipe = false := by
  have hrun : Leads nextCall emptyPipe [.beginRead 2 1, .read 2, .beginWrite 1 2,
      .write 1 (some 1) fun _ => 7] fun s => s.place 2 = .readWait 1 ∧ queueEmpty s.pipe = false := by
    decide +kernel
  exact hrun.reaches CallStep anyInput fun _ _ _ h => ⟨trivial, h⟩

end Uniks.Pipe
