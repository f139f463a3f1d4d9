/-
  One pipe: `pipewrite`, `piperead` and `pipeclose`.

  A step is what a process does while it holds the lock of the pipe: from where it takes it to where
  it returns or blocks.  A process that has been woken takes the lock again and goes on at the head
  of its loop, the writer with what it has written so far.  A process is on `read_wait` or
  `write_wait` when its place says so, and `proc_unblock_all` empties the list.

  The bytes of a writer are arbitrary, and its kill may arrive before any byte (`killAt`).  Copies
  from and to user memory succeed: the areas have been verified.  `none` stands for a failed
  assertion, and for the use of the buffer page after it has been freed.

  The ends close when the last descriptor goes: a process that is in a call keeps the one it was
  made with.  `written` and `taken` are not in the source: the bytes in the order in which they were
  put into the buffer and taken out.

  So the bytes taken, followed by those in the buffer, are the bytes written (`Inv.bytes`), and that
  is kept by both loops whatever happens between them.
-/
import Uniks.Lib.Runs
import Uniks.Lib.RefCount
import Uniks.Proc
import Uniks.Queue

namespace Uniks.Pipe

open Uniks.Queue Uniks.Runs Uniks.RefCount
open Uniks.Proc (NPROC Pid)
open Function (update update_self update_of_ne)
open Option (some)

abbrev PGSIZE : Nat := 4096

/-- The two ends; the source's `W` says which one. -/
inductive End where
  | read
  | write
  deriving DecidableEq, Repr

/-- Where a process is. -/
inductive Place where
  | user
  /-- In `piperead`, before it takes the lock. -/
  | reading (n : Nat)
  /-- On `read_wait`. -/
  | readWait (n : Nat)
  /-- In `pipewrite`, before it takes the lock, with `i` bytes written. -/
  | writing (n i : Nat)
  /-- On `write_wait`. -/
  | writeWait (n i : Nat)
  /-- In `file_close`, with the last descriptor of an end gone. -/
  | closing (e : End)
  deriving DecidableEq, Repr

/-- The source's `struct pipe_t`, the users of the pipe, and the two logs. -/
structure State where
  pipe : QueueMeta UInt8
  readopen : Bool
  writeopen : Bool
  /-- The page of the buffer has been given back. -/
  freed : Bool
  place : Pid → Place
  killed : Pid → Bool
  /-- How many descriptors of an end a process holds. -/
  fds : End → Pid → Nat
  written : List UInt8
  taken : List UInt8

def State.goto (s : State) (p : Pid) (pl : Place) : State :=
  { s with place := update s.place p pl }

def State.isOpen (s : State) : End → Bool
  | .read => s.readopen
  | .write => s.writeopen

/-- `proc_unblock_all(&pi->read_wait)`. -/
def unblockReaders (s : State) : State :=
  { s with place := fun p => match s.place p with
      | .readWait n => .reading n
      | pl => pl }

/-- `proc_unblock_all(&pi->write_wait)`. -/
def unblockWriters (s : State) : State :=
  { s with place := fun p => match s.place p with
      | .writeWait n i => .writing n i
      | pl => pl }

/-! ## The calls -/

/-- How the loop of `pipewrite` ends, with the bytes it has put into the buffer. -/
inductive WriteEnd where
  | done
  /-- No reader is left, or the writer has been killed. -/
  | refused
  /-- The buffer is full. -/
  | full (i : Nat)
  deriving DecidableEq, Repr

/-- The loop of `pipewrite`; the first argument is how many bytes are left. -/
def writeLoop (readopen : Bool) (killed : Nat → Bool) (addr : Nat → UInt8) :
    Nat → Nat → QueueMeta UInt8 → Option (QueueMeta UInt8 × List UInt8 × WriteEnd)
  | 0, _, q => some (q, [], .done)
  | left + 1, i, q =>
    if !readopen || killed i then some (q, [], .refused)
    else if queueFull q then some (q, [], .full i)
    else do
      let q ← queuePush q (addr i)
      let (q, bytes, e) ← writeLoop readopen killed addr left (i + 1) q
      return (q, addr i :: bytes, e)

/-- The source's `pipewrite`, once it has the lock; `killAt` is the byte before which the writer is
    killed, if it is. -/
def pipewrite (s : State) (p : Pid) (killAt : Option Nat) (addr : Nat → UInt8) : Option State :=
  match s.place p with
  | .writing n i =>
    if s.freed then none
    else do
      let killed := fun j => s.killed p || killAt.any fun k => decide (k ≤ j)
      let (q, bytes, e) ← writeLoop s.readopen killed addr (n - i) i s.pipe
      let s := { s with
        pipe := q
        written := s.written ++ bytes
        killed := update s.killed p (s.killed p || killAt.isSome) }
      match e with
      | .done => return (unblockReaders s).goto p .user
      | .refused => return s.goto p .user
      | .full i => return (unblockReaders s).goto p (.writeWait n i)
  | _ => none

/-- The loop of `piperead` that takes the bytes out, at most as many as the first argument says. -/
def readLoop : Nat → QueueMeta UInt8 → Option (QueueMeta UInt8 × List UInt8)
  | 0, q => some (q, [])
  | left + 1, q =>
    if queueEmpty q then some (q, [])
    else do
      let ch := queueFront q
      let q ← queueFrontPop q
      let (q, bytes) ← readLoop left q
      return (q, ch :: bytes)

/-- The source's `piperead`, once it has the lock, and the bytes it returns if it returns. -/
def piperead (s : State) (p : Pid) : Option (State × Option (List UInt8)) :=
  match s.place p with
  | .reading n =>
    if s.freed then none
    else if queueEmpty s.pipe && s.writeopen then
      if s.killed p then some (s.goto p .user, some [])
      else some (s.goto p (.readWait n), none)
    else do
      let (q, bytes) ← readLoop n s.pipe
      let s := { s with pipe := q, taken := s.taken ++ bytes }
      return ((unblockWriters s).goto p .user, some bytes)
  | _ => none

/-- The source's `pipeclose`. -/
def pipeclose (s : State) (p : Pid) : Option State :=
  match s.place p with
  | .closing .write =>
    let s := unblockReaders { s with writeopen := false }
    some ({ s with freed := s.freed || !s.readopen }.goto p .user)
  | .closing .read =>
    let s := unblockWriters { s with readopen := false }
    some ({ s with freed := s.freed || !s.writeopen }.goto p .user)
  | _ => none

/-! ## The users -/

inductive Input where
  | kill (p : Pid)
  /-- `dup`, or `fork` to another process. -/
  | dup (e : End) (p q : Pid)
  /-- `file_close`, up to the call of `pipeclose`. -/
  | close (e : End) (p : Pid)
  | pipeclose (p : Pid)
  | beginRead (p : Pid) (n : Nat)
  | beginWrite (p : Pid) (n : Nat)
  | read (p : Pid)
  | write (p : Pid) (killAt : Option Nat) (addr : Nat → UInt8)

/-- One descriptor more or less. -/
def State.setFds (s : State) (e : End) (p : Pid) (n : Nat) : State :=
  { s with fds := update s.fds e (update (s.fds e) p n) }

/-- Only a process in user mode begins a call, with a descriptor of the right end. -/
def next (s : State) : Input → Option State
  | .kill p => some { s with killed := update s.killed p true }
  | .dup e p q =>
    if s.place p = .user ∧ 0 < s.fds e p then some (s.setFds e q (s.fds e q + 1)) else none
  | .close e p =>
    if s.place p = .user ∧ 0 < s.fds e p then
      let s := s.setFds e p (s.fds e p - 1)
      some (if total (s.fds e) = 0 then s.goto p (.closing e) else s)
    else none
  | .pipeclose p => pipeclose s p
  | .beginRead p n =>
    if s.place p = .user ∧ 0 < s.fds .read p then some (s.goto p (.reading n)) else none
  | .beginWrite p n =>
    if s.place p = .user ∧ 0 < s.fds .write p then some (s.goto p (.writing n 0)) else none
  | .read p => (piperead s p).map Prod.fst
  | .write p killAt addr => pipewrite s p killAt addr

def Step (s : State) (i : Input) (s' : State) : Prop := next s i = some s'

/-- After `pipealloc` and `sys_pipe`: the process that called it holds both ends. -/
def start (creator : Pid) (q : QueueMeta UInt8) : State where
  pipe := q
  readopen := true
  writeopen := true
  freed := false
  place := fun _ => .user
  killed := fun _ => false
  fds := fun _ => update (fun _ => 0) creator 1
  written := []
  taken := []

/-! ## The loops -/

variable {q : QueueMeta UInt8} {xs : List UInt8}

/-- What the writer's loop puts in goes behind what the buffer holds. -/
theorem writeLoop_spec (readopen : Bool) (killed : Nat → Bool) (addr : Nat → UInt8) (left : Nat) :
    ∀ {i : Nat} {q : QueueMeta UInt8} {xs : List UInt8}, Holds q xs →
      ∃ q' bytes e, writeLoop readopen killed addr left i q = some (q', bytes, e) ∧
        Holds q' (xs ++ bytes) ∧ q'.queueCapacity = q.queueCapacity := by
  induction left with
  | zero =>
    intro i q xs h
    exact ⟨q, [], .done, rfl, by rw [List.append_nil]; exact h, rfl⟩
  | succ left ih =>
    intro i q xs h
    rw [writeLoop]
    split
    · exact ⟨q, [], .refused, rfl, by rw [List.append_nil]; exact h, rfl⟩
    · split
      · exact ⟨q, [], .full i, rfl, by rw [List.append_nil]; exact h, rfl⟩
      · rename_i hroom
        -- the test for a full buffer is what the assertion of the push asks
        have hne : q.queueSize ≠ q.queueCapacity := by
          simpa [queueFull] using hroom
        have hlt : (xs.length : Int) < q.queueCapacity := by
          have hsize := h.size
          have hfits := h.fits
          omega
        obtain ⟨q₁, hpush⟩ := h.push_isSome (addr i) hlt
        obtain ⟨h₁, hcap₁⟩ := h.push hpush
        obtain ⟨q', bytes, e, hrun, hholds, hcap⟩ := ih (i := i + 1) h₁
        rw [List.append_assoc] at hholds
        refine ⟨q', addr i :: bytes, e, ?_, hholds, hcap.trans hcap₁⟩
        simp [hpush, hrun]

/-- The reader's loop takes the first bytes of what the buffer holds. -/
theorem readLoop_spec (n : Nat) : ∀ {q : QueueMeta UInt8} {xs : List UInt8}, Holds q xs →
    ∃ q', readLoop n q = some (q', xs.take n) ∧ Holds q' (xs.drop n) ∧
      q'.queueCapacity = q.queueCapacity := by
  induction n with
  | zero =>
    intro q xs h
    exact ⟨q, rfl, h, rfl⟩
  | succ n ih =>
    intro q xs h
    rw [readLoop]
    cases xs with
    | nil =>
      rw [if_pos (h.queueEmpty_iff.mpr rfl)]
      exact ⟨q, rfl, h, rfl⟩
    | cons x xs =>
      have hne : ¬ queueEmpty q = true := by
        rw [h.queueEmpty_iff]
        exact List.cons_ne_nil x xs
      rw [if_neg hne]
      obtain ⟨q₁, hpop⟩ := h.frontPop_isSome
      obtain ⟨h₁, hcap₁⟩ := h.frontPop hpop
      obtain ⟨q', hrun, hholds, hcap⟩ := ih h₁
      refine ⟨q', ?_, hholds, hcap.trans hcap₁⟩
      simp [hpop, hrun, h.front]

/-! ## The invariant -/

/-- The end that a call in progress needs. -/
def Place.uses : Place → Option End
  | .reading _ => some .read
  | .readWait _ => some .read
  | .writing _ _ => some .write
  | .writeWait _ _ => some .write
  | _ => none

/-- A process in a call has a descriptor, and nobody has one of an end that is being closed. -/
def PlaceOk (fds : End → Pid → Nat) (p : Pid) (pl : Place) : Prop :=
  (∀ e, pl.uses = some e → 0 < fds e p) ∧ ∀ e, pl = .closing e → total (fds e) = 0

structure Inv (s : State) : Prop where
  bytes : ∃ xs, Holds s.pipe xs ∧ s.written = s.taken ++ xs
  capacity : s.pipe.queueCapacity = PGSIZE
  places : ∀ p, PlaceOk s.fds p (s.place p)
  gone : ∀ e, s.isOpen e = false → total (s.fds e) = 0
  freed : s.freed = true → ∀ e, s.isOpen e = false

variable {s s' : State} {p : Pid} {pl : Place} {fds : End → Pid → Nat}

theorem placeOk_user (fds : End → Pid → Nat) (p : Pid) : PlaceOk fds p .user := by
  constructor
  · simp [Place.uses]
  · simp

theorem placeOk_goto {place : Pid → Place} (h : ∀ q, PlaceOk fds q (place q))
    (hp : PlaceOk fds p pl) (q : Pid) : PlaceOk fds q (update place p pl q) := by
  by_cases hq : q = p
  · subst hq
    rw [update_self]
    exact hp
  · rw [update_of_ne hq]
    exact h q

/-- Being woken changes nothing about the end that is used. -/
theorem placeOk_unblockReaders (h : ∀ q, PlaceOk s.fds q (s.place q)) (q : Pid) :
    PlaceOk s.fds q ((unblockReaders s).place q) := by
  have hq := h q
  show PlaceOk s.fds q (match s.place q with
    | .readWait n => .reading n
    | pl => pl)
  split
  · rename_i n hwait
    rw [hwait] at hq
    exact ⟨hq.1, fun e he => nomatch he⟩
  · exact hq

theorem placeOk_unblockWriters (h : ∀ q, PlaceOk s.fds q (s.place q)) (q : Pid) :
    PlaceOk s.fds q ((unblockWriters s).place q) := by
  have hq := h q
  show PlaceOk s.fds q (match s.place q with
    | .writeWait n i => .writing n i
    | pl => pl)
  split
  · rename_i n i hwait
    rw [hwait] at hq
    exact ⟨hq.1, fun e he => nomatch he⟩
  · exact hq

/-- A call in progress keeps its end open, and so the page of the buffer. -/
theorem Inv.not_freed (h : Inv s) {e : End} (huse : (s.place p).uses = some e) :
    s.freed = false := by
  cases hfreed : s.freed with
  | false => rfl
  | true =>
    have hpos := (h.places p).1 e huse
    have hzero := total_eq_zero.mp (h.gone e (h.freed hfreed e)) p
    omega

/-- A step that leaves descriptors and ends alone. -/
theorem Inv.frame (h : Inv s) (hbytes : ∃ xs, Holds s'.pipe xs ∧ s'.written = s'.taken ++ xs)
    (hcap : s'.pipe.queueCapacity = s.pipe.queueCapacity) (hfds : s'.fds = s.fds)
    (hopen : s'.isOpen = s.isOpen) (hfreed : s'.freed = s.freed)
    (hplaces : ∀ q, PlaceOk s.fds q (s'.place q)) : Inv s' where
  bytes := hbytes
  capacity := hcap.trans h.capacity
  places := hfds ▸ hplaces
  gone e he := by
    rw [hopen] at he
    rw [hfds]
    exact h.gone e he
  freed hf e := by
    rw [hfreed] at hf
    rw [hopen]
    exact h.freed hf e

/-! ## The calls keep the invariant -/

/-- A writer with the lock never runs into an assertion. -/
theorem Inv.pipewrite (h : Inv s) {n i : Nat} (hp : s.place p = .writing n i)
    (killAt : Option Nat) (addr : Nat → UInt8) :
    ∃ s', Pipe.pipewrite s p killAt addr = some s' ∧ Inv s' := by
  obtain ⟨xs, hholds, hlog⟩ := h.bytes
  have hfreed : s.freed = false := h.not_freed (e := .write) (p := p) (by rw [hp]; rfl)
  have hself : 0 < s.fds .write p := (h.places p).1 .write (by rw [hp]; rfl)
  obtain ⟨q, bytes, e, hrun, hq, hcap⟩ := writeLoop_spec s.readopen
    (fun j => s.killed p || killAt.any fun k => decide (k ≤ j)) addr (n - i) (i := i) hholds
  have hbytes : ∃ ys, Holds q ys ∧ s.written ++ bytes = s.taken ++ ys :=
    ⟨xs ++ bytes, hq, by rw [hlog, List.append_assoc]⟩
  unfold Pipe.pipewrite
  simp only [hp, hfreed, hrun, Bool.false_eq_true, if_false, Option.bind_eq_bind, Option.bind_some]
  cases e with
  | done =>
    refine ⟨_, rfl, h.frame hbytes hcap rfl rfl hfreed.symm ?_⟩
    exact placeOk_goto (placeOk_unblockReaders h.places) (placeOk_user s.fds p)
  | refused =>
    refine ⟨_, rfl, h.frame hbytes hcap rfl rfl hfreed.symm ?_⟩
    exact placeOk_goto h.places (placeOk_user s.fds p)
  | full j =>
    refine ⟨_, rfl, h.frame hbytes hcap rfl rfl hfreed.symm ?_⟩
    refine placeOk_goto (placeOk_unblockReaders h.places) ⟨fun e he => ?_, fun e he => nomatch he⟩
    cases he
    exact hself

/-- What a reader with the lock does: it is killed, it blocks, or it takes what there is. -/
theorem Inv.piperead (h : Inv s) {n : Nat} (hp : s.place p = .reading n) :
    ∃ s' r, Pipe.piperead s p = some (s', r) ∧ Inv s' ∧
      (∀ bytes, r = some bytes → s'.taken = s.taken ++ bytes) ∧
      (r = some [] → 0 < n → s.killed p = false →
        s.taken = s.written ∧ queueEmpty s.pipe = true ∧ s.writeopen = false) := by
  obtain ⟨xs, hholds, hlog⟩ := h.bytes
  have hfreed : s.freed = false := h.not_freed (e := .read) (p := p) (by rw [hp]; rfl)
  have hself : 0 < s.fds .read p := (h.places p).1 .read (by rw [hp]; rfl)
  unfold Pipe.piperead
  simp only [hp, hfreed, Bool.false_eq_true, if_false]
  by_cases hwait : (queueEmpty s.pipe && s.writeopen) = true
  · rw [if_pos hwait]
    by_cases hkilled : s.killed p = true
    · rw [if_pos hkilled]
      refine ⟨_, _, rfl, ?_, fun bytes hr => ?_, fun _ _ halive => ?_⟩
      · refine h.frame h.bytes rfl rfl rfl rfl ?_
        exact placeOk_goto h.places (placeOk_user s.fds p)
      · cases hr
        exact (List.append_nil _).symm
      · rw [hkilled] at halive
        cases halive
    · rw [if_neg hkilled]
      refine ⟨_, _, rfl, ?_, fun bytes hr => (nomatch hr), fun hr => nomatch hr⟩
      refine h.frame h.bytes rfl rfl rfl rfl ?_
      refine placeOk_goto h.places ⟨fun e he => ?_, fun e he => nomatch he⟩
      cases he
      exact hself
  · rw [if_neg hwait]
    obtain ⟨q, hrun, hq, hcap⟩ := readLoop_spec n hholds
    simp only [hrun, Option.bind_eq_bind, Option.bind_some]
    refine ⟨_, _, rfl, ?_, fun bytes hr => ?_, fun hr hn _ => ?_⟩
    · refine h.frame ⟨xs.drop n, hq, ?_⟩ hcap rfl rfl hfreed.symm ?_
      · show s.written = (s.taken ++ xs.take n) ++ xs.drop n
        rw [List.append_assoc, List.take_append_drop]
        exact hlog
      · exact placeOk_goto (placeOk_unblockWriters h.places) (placeOk_user s.fds p)
    · cases hr
      rfl
    · -- nothing is taken although something is wanted: there is nothing
      have htake : xs.take n = [] := some.inj hr
      have hnil : xs = [] := by
        cases xs with
        | nil => rfl
        | cons x xs =>
          obtain ⟨m, rfl⟩ := Nat.exists_eq_succ_of_ne_zero (Nat.ne_of_gt hn)
          cases htake
      subst hnil
      have hempty := hholds.queueEmpty_iff.mpr rfl
      refine ⟨?_, hempty, ?_⟩
      · rw [hlog, List.append_nil]
      · rw [hempty, Bool.true_and, Bool.not_eq_true] at hwait
        exact hwait

/-- The page is given back when the second end closes. -/
theorem Inv.pipeclose (h : Inv s) (hrun : Pipe.pipeclose s p = some s') : Inv s' := by
  unfold Pipe.pipeclose at hrun
  split at hrun
  · rename_i hp
    cases hrun
    have hnone := (h.places p).2 .write hp
    refine ⟨h.bytes, h.capacity, ?_, fun e he => ?_, fun hf e => ?_⟩
    · exact placeOk_goto (placeOk_unblockReaders (s := { s with writeopen := false }) h.places)
        (placeOk_user s.fds p)
    · cases e with
      | write => exact hnone
      | read => exact h.gone .read he
    · cases e with
      | write => rfl
      | read =>
        show s.readopen = false
        rcases (Bool.or_eq_true _ _).mp hf with hold | hread
        · exact h.freed hold .read
        · exact (Bool.not_eq_true' _).mp hread
  · rename_i hp
    cases hrun
    have hnone := (h.places p).2 .read hp
    refine ⟨h.bytes, h.capacity, ?_, fun e he => ?_, fun hf e => ?_⟩
    · exact placeOk_goto (placeOk_unblockWriters (s := { s with readopen := false }) h.places)
        (placeOk_user s.fds p)
    · cases e with
      | read => exact hnone
      | write => exact h.gone .write he
    · cases e with
      | read => rfl
      | write =>
        show s.writeopen = false
        rcases (Bool.or_eq_true _ _).mp hf with hold | hwrite
        · exact h.freed hold .write
        · exact (Bool.not_eq_true' _).mp hwrite
  · cases hrun

/-! ## The users keep the invariant -/

/-- The row of descriptors of one end changes at one process. -/
theorem setFds_other {e e' : End} (hne : e' ≠ e) (p : Pid) (n : Nat) :
    (s.setFds e p n).fds e' = s.fds e' := update_of_ne hne _ _

theorem setFds_self (e : End) (p : Pid) (n : Nat) :
    (s.setFds e p n).fds e = update (s.fds e) p n := update_self ..

/-- An end that somebody holds gets one descriptor more. -/
theorem Inv.dup (h : Inv s) {e : End} {r : Pid} (hheld : 0 < s.fds e r) :
    Inv (s.setFds e p (s.fds e p + 1)) := by
  have hpos : total (s.fds e) ≠ 0 := fun hzero => by
    have hr := total_eq_zero.mp hzero r
    omega
  refine ⟨h.bytes, h.capacity, fun q => ⟨fun e' he' => ?_, fun e' he' => ?_⟩, fun e' he' => ?_,
    h.freed⟩
  · have hold := (h.places q).1 e' he'
    by_cases hee : e' = e
    · subst hee
      rw [setFds_self]
      by_cases hqp : q = p
      · subst hqp
        rw [update_self]
        omega
      · rw [update_of_ne hqp]
        exact hold
    · rw [setFds_other hee]
      exact hold
  · have hold := (h.places q).2 e' he'
    have hee : e' ≠ e := fun heq => hpos (heq ▸ hold)
    rw [setFds_other hee]
    exact hold
  · have hold := h.gone e' he'
    have hee : e' ≠ e := fun heq => hpos (heq ▸ hold)
    rw [setFds_other hee]
    exact hold

/-- A process that is in no call gives a descriptor up. -/
theorem Inv.close (h : Inv s) {e : End} (hp : s.place p = .user) (hheld : 0 < s.fds e p) :
    Inv (if total ((s.setFds e p (s.fds e p - 1)).fds e) = 0
      then (s.setFds e p (s.fds e p - 1)).goto p (.closing e) else s.setFds e p (s.fds e p - 1)) := by
  have hzero : ∀ e', total (s.fds e') = 0 → total ((s.setFds e p (s.fds e p - 1)).fds e') = 0 := by
    intro e' he'
    by_cases hee : e' = e
    · subst hee
      have hold := total_eq_zero.mp he' p
      omega
    · rw [setFds_other hee]
      exact he'
  have hplaces : ∀ q, PlaceOk (s.setFds e p (s.fds e p - 1)).fds q (s.place q) := by
    intro q
    by_cases hqp : q = p
    · subst hqp
      rw [hp]
      exact placeOk_user _ _
    · refine ⟨fun e' he' => ?_, fun e' he' => hzero e' ((h.places q).2 e' he')⟩
      have hold := (h.places q).1 e' he'
      by_cases hee : e' = e
      · subst hee
        rw [setFds_self, update_of_ne hqp]
        exact hold
      · rw [setFds_other hee]
        exact hold
  have hinv : Inv (s.setFds e p (s.fds e p - 1)) :=
    ⟨h.bytes, h.capacity, hplaces, fun e' he' => hzero e' (h.gone e' he'), h.freed⟩
  split
  · rename_i hlast
    refine hinv.frame hinv.bytes rfl rfl rfl rfl (placeOk_goto hplaces ⟨fun e' he' => ?_, ?_⟩)
    · cases he'
    · rintro e' he'
      obtain rfl := Place.closing.inj he'
      exact hlast
  · exact hinv

/-- A process with a descriptor begins a call. -/
theorem Inv.begin (h : Inv s) {e : End} (huse : pl.uses = some e) (hheld : 0 < s.fds e p) :
    Inv (s.goto p pl) := by
  refine h.frame h.bytes rfl rfl rfl rfl (placeOk_goto h.places ⟨fun e' he' => ?_, fun e' he' => ?_⟩)
  · cases huse.symm.trans he'
    exact hheld
  · rw [he'] at huse
    cases huse

theorem Inv.step (h : Inv s) {i : Input} (hs : Step s i s') : Inv s' := by
  cases i with
  | kill p =>
    obtain rfl := some.inj hs
    exact h.frame h.bytes rfl rfl rfl rfl h.places
  | dup e p q =>
    simp only [Step, next] at hs
    split at hs
    case isTrue hp =>
      obtain rfl := some.inj hs
      exact h.dup hp.2
    case isFalse => exact nomatch hs
  | close e p =>
    simp only [Step, next] at hs
    split at hs
    case isTrue hp =>
      obtain rfl := some.inj hs
      exact h.close hp.1 hp.2
    case isFalse => exact nomatch hs
  | pipeclose p => exact h.pipeclose hs
  | beginRead p n =>
    simp only [Step, next] at hs
    split at hs
    case isTrue hp =>
      obtain rfl := some.inj hs
      exact h.begin (e := .read) rfl hp.2
    case isFalse => exact nomatch hs
  | beginWrite p n =>
    simp only [Step, next] at hs
    split at hs
    case isTrue hp =>
      obtain rfl := some.inj hs
      exact h.begin (e := .write) rfl hp.2
    case isFalse => exact nomatch hs
  | read p =>
    simp only [Step, next] at hs
    obtain ⟨⟨t, r⟩, hrun, rfl⟩ := Option.map_eq_some_iff.mp hs
    cases hp : s.place p with
    | reading n =>
      obtain ⟨t', r', hrun', hinv, -, -⟩ := h.piperead hp
      obtain ⟨rfl, rfl⟩ := Prod.mk.inj (some.inj (hrun.symm.trans hrun'))
      exact hinv
    | _ => simp [Pipe.piperead, hp] at hrun
  | write p killAt addr =>
    simp only [Step, next] at hs
    cases hp : s.place p with
    | writing n i =>
      obtain ⟨t, hrun, hinv⟩ := h.pipewrite hp killAt addr
      obtain rfl := some.inj (hs.symm.trans hrun)
      exact hinv
    | _ => simp [Pipe.pipewrite, hp] at hs

/-! ## Runs -/

theorem start_inv {creator : Pid} {heap : Int → UInt8} {q : QueueMeta UInt8}
    (hq : queueInit PGSIZE heap = some q) : Inv (start creator q) := by
  refine ⟨⟨[], holds_queueInit hq, rfl⟩, ?_, fun p => placeOk_user _ p, fun e he => ?_,
    fun hf => nomatch hf⟩
  · unfold queueInit at hq
    split at hq
    · cases hq
      rfl
    · cases hq
  · cases e with
    | read => cases he
    | write => cases he

/-- What holds between the steps.  `log` says that `taken` grows by what a read returns, and
    `running` that no call trips over an assertion or uses the page after it has been freed. -/
structure PipeOk (s : State) : Prop where
  order : s.taken <+: s.written
  pending : s.written.length ≤ s.taken.length + PGSIZE
  log : ∀ p s' bytes, piperead s p = some (s', some bytes) → s'.taken = s.taken ++ bytes
  zero : ∀ p n s', s.place p = .reading n → 0 < n → piperead s p = some (s', some []) →
    s.killed p = false → s.taken = s.written ∧ queueEmpty s.pipe = true ∧ s.writeopen = false
  running : (∀ p n, s.place p = .reading n → piperead s p ≠ none) ∧
    ∀ p n i killAt addr, s.place p = .writing n i → pipewrite s p killAt addr ≠ none

theorem Inv.ok (h : Inv s) : PipeOk s := by
  obtain ⟨xs, hholds, hlog⟩ := h.bytes
  refine ⟨⟨xs, hlog.symm⟩, ?_, fun p s' bytes hrun => ?_, fun p n s' hp hn hrun halive => ?_,
    fun p n hp => ?_, fun p n i killAt addr hp => ?_⟩
  · have hfits := hholds.fits
    have hcap := h.capacity
    rw [hlog, List.length_append]
    simp only [PGSIZE] at hcap ⊢
    omega
  · cases hp : s.place p with
    | reading n =>
      obtain ⟨t, r, hrun', -, hbytes, -⟩ := h.piperead hp
      cases hrun.symm.trans hrun'
      exact hbytes bytes rfl
    | _ => simp [Pipe.piperead, hp] at hrun
  · obtain ⟨t, r, hrun', -, -, hzero⟩ := h.piperead hp
    cases hrun.symm.trans hrun'
    exact hzero rfl hn halive
  · obtain ⟨t, r, hrun, -⟩ := h.piperead hp
    rw [hrun]
    exact fun hnone => nomatch hnone
  · obtain ⟨t, hrun, -⟩ := h.pipewrite hp killAt addr
    rw [hrun]
    exact fun hnone => nomatch hnone

/-- In every interleaving of the calls on a new pipe the bytes come out in the order in which they
    went in, at most a page of them is pending, and a reader that has not been killed gets nothing
    only from an empty pipe without writers. -/
theorem pipe_fifo {creator : Pid} {heap : Int → UInt8} {q : QueueMeta UInt8} {s : State}
    (hq : queueInit PGSIZE heap = some q) (hr : Reaches Step anyInput (start creator q) s) :
    PipeOk s :=
  (hr.invariant (start_inv hq) fun _ _ _ h _ hs => h.step hs).ok

/-- A reader waits for two bytes, and then gets the first of them. -/
theorem pipe_fifo_two_bytes : ∃ s : State, s.written = [7, 9] ∧ s.taken = [7] ∧ PipeOk s := by
  have hq : queueInit PGSIZE (fun _ => (0 : UInt8)) = some ⟨0, PGSIZE, 0, -1, fun _ => 0⟩ := rfl
  have hrun : Leads next (start 1 ⟨0, PGSIZE, 0, -1, fun _ => 0⟩)
      [.dup .read 1 2, .beginRead 2 1, .read 2, .beginWrite 1 2,
        .write 1 none fun i => if i = 0 then 7 else 9, .read 2]
      fun s => s.written = [7, 9] ∧ s.taken = [7] := by
    decide +kernel
  obtain ⟨s, hreach, hwritten, htaken⟩ := hrun.reaches Step anyInput fun _ _ _ h => ⟨trivial, h⟩
  exact ⟨s, hwritten, htaken, pipe_fifo hq hreach⟩

end Uniks.Pipe
