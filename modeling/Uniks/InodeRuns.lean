/-
  The inode table under many processes: `iget`, `idup`, `iput`, `ialloc`, `pipealloc`, and the end
  of `file_close`.

  A step is what one process does under `inode_table.lock`, so the lock is free between two steps.
  `iget` and `pipealloc` either find a slot in their scan or put the process on `wait_list`; after a
  wake-up they scan again.  `iput` of the last reference to an inode without links gives the lock
  back while it frees the blocks (`freeing`), and takes it again for the decrement (`freed`); in
  between the inode number is free on disk, and another process can get it from `ialloc` and with it
  the same slot.  Which number `ialloc` finds in the bitmap is an input.

  `file_close` of a pipe decrements `i_count` under `i_mtx` only.  The mutexes of the inodes are left
  out: a process that waits for one takes no step.

  A process holds references.  Each one carries the name its slot had when it was taken, and the
  number of times the slot had been taken anew by then (`Ident`); both are there for the statements
  only.  `i_count` is the number of references as long as it does not run over, so a slot that
  somebody holds is never taken anew (`slots_unique`).

  The processes on `wait_list` are woken in one of the three places where a count can reach 0: after
  the blocks of an inode have been freed.  An ordinary last `iput`, and the close of a pipe, wake
  nobody (`no_idle_slot_while_waiting`).
-/
import Uniks.Inode
import Uniks.Proc
import Uniks.Lib.Runs
import Uniks.Lib.RefCount

namespace Uniks.InodeRuns

open Uniks.Inode Uniks.Runs Uniks.RefCount
open Uniks.Proc (Pid)
open Function (update update_self update_of_ne)
open Option (some)

/-! ## Processes and their references -/

/-- What a slot carries: `(i_dev, i_no)`, and how often the slot has been taken anew. -/
structure Ident where
  dev : Nat
  iNo : Nat
  gen : Nat
  deriving DecidableEq, Repr

/-- A pointer to a slot, with what the slot carried when the pointer was handed out. -/
structure Ref where
  slot : Slot
  ident : Ident
  deriving DecidableEq, Repr

/-- What a process asks the table for.  `ialloc` asks for a clean inode. -/
inductive Want where
  | inode (dev iNo : Nat) (clean : Bool)
  | pipe
  deriving DecidableEq, Repr

inductive Pc where
  | idle
  /-- On `inode_table.wait_list`. -/
  | blocked (w : Want)
  /-- Woken, and about to scan again. -/
  | woken (w : Want)
  /-- In `iput`, the lock given back. -/
  | freeing (r : Ref)
  /-- The blocks are free; the decrement is still to come. -/
  | freed (r : Ref)
  deriving DecidableEq, Repr

/-- The reference an `iput` under way is about to drop. -/
def Pc.refs : Pc → List Ref
  | .freeing r => [r]
  | .freed r => [r]
  | _ => []

structure Proc where
  held : List Ref
  pc : Pc
  deriving DecidableEq, Repr

/-- All references of a process, the one it is about to drop included. -/
def Proc.refs (pr : Proc) : List Ref := pr.pc.refs ++ pr.held

/-- `gen` counts how often a slot has been taken anew. -/
structure State (π : Type) where
  table : InodeTable
  gen : Slot → Nat
  procs : π → Proc

variable {π : Type}

def State.count (s : State π) (jp : Slot) : Nat := (s.table.mInodes jp).iCount

def State.ident (s : State π) (jp : Slot) : Ident :=
  ⟨(s.table.mInodes jp).iDev, (s.table.mInodes jp).iNo, s.gen jp⟩

/-- Somebody has the reference. -/
def Carried (s : State π) (r : Ref) : Prop := ∃ p, r ∈ (s.procs p).refs

/-- Somebody is on `wait_list`. -/
def Waiting (s : State π) : Prop := ∃ p w, (s.procs p).pc = .blocked w

/-- How many references of a process name a slot. -/
def slotRefs (jp : Slot) (pr : Proc) : Nat := pr.refs.countP fun r => r.slot = jp

/-- How many references to a slot there are. -/
def State.refs [Fintype π] (s : State π) (jp : Slot) : Nat :=
  total fun p => slotRefs jp (s.procs p)

/-- `inode_table_init`, on the slots of a fresh kernel. -/
def boot (π : Type) : State π where
  table := inodeTableInit ⟨fun _ => ⟨⟨0, 0, 0, 0⟩, ⟨false, false⟩, 0, 0, false, 0⟩,
    fun _ _ => ⟨0, 0, 0, 0⟩⟩
  gen := fun _ => 0
  procs := fun _ => ⟨[], .idle⟩

/-! ## Steps -/

/-- The scan, and the slot it leads to. -/
def take (t : InodeTable) : Want → Option (InodeTable × Slot)
  | .inode dev iNo clean => iget t dev iNo clean
  | .pipe => pipealloc t

/-- The scan does not share a slot that carries the name already. -/
def anew (t : InodeTable) : Want → Bool
  | .inode dev iNo _ => (igetMatch t dev iNo).isNone
  | .pipe => true

/-- `proc_unblock_all(&inode_table.wait_list)`, for one process. -/
def Pc.wake : Pc → Pc
  | .blocked w => .woken w
  | pc => pc

/-- What `iput` tests under the lock: the last reference, and no link. -/
def lastGone (m : MInode) : Bool := m.iCount == 1 && m.iValid && m.dInodeCtnt.iLinksCount == 0

/-- `ip->i_count--`. -/
def decr (t : InodeTable) (ip : Slot) : InodeTable :=
  t.set ip { t.mInodes ip with iCount := u16 ((t.mInodes ip).iCount + 65535) }

inductive Input (π : Type) where
  /-- `iget` (also as the end of `ialloc`) or `pipealloc` scans, for the first time or again. -/
  | get (p : π) (w : Want)
  /-- `idup` on a reference of its own. -/
  | dup (p : π) (r : Ref)
  /-- A reference changes hands: `fork`, or an entry of the file table. -/
  | give (p q : π) (r : Ref)
  /-- `iput`, up to the first release of the lock. -/
  | put (p : π) (r : Ref)
  /-- `ifree`, `itruncate`, `i_valid = 0`. -/
  | free (p : π)
  /-- The rest of `iput`. -/
  | putRest (p : π)
  /-- `file_close` of a pipe. -/
  | closePipe (p : π) (r : Ref)
  /-- The holder of a reference works on the inode under `i_mtx`: its record and `i_valid`. -/
  | store (p : π) (r : Ref) (d : DInode) (valid : Bool)

section Step

variable [DecidableEq π]

def State.set (s : State π) (p : π) (pr : Proc) : State π :=
  { s with procs := update s.procs p pr }

@[simp] theorem set_self (s : State π) (p : π) (pr : Proc) : (s.set p pr).procs p = pr :=
  update_self ..

theorem set_of_ne (s : State π) {p q : π} (pr : Proc) (h : q ≠ p) :
    (s.set p pr).procs q = s.procs q :=
  update_of_ne h ..

/-- What happens under one input; `none` if the process is elsewhere, does not hold the reference,
    or fails an assertion. -/
def next (s : State π) : Input π → Option (State π)
  | .get p w =>
    if (s.procs p).pc = .idle ∨ (s.procs p).pc = .woken w then
      match take s.table w with
      | some (table, ip) =>
        let gen := if anew s.table w then update s.gen ip (s.gen ip + 1) else s.gen
        let r : Ref :=
          ⟨ip, ⟨(table.mInodes ip).iDev, (table.mInodes ip).iNo, gen ip⟩⟩
        some ⟨table, gen, update s.procs p ⟨r :: (s.procs p).held, .idle⟩⟩
      | none => some (s.set p ⟨(s.procs p).held, .blocked w⟩)
    else none
  | .dup p r =>
    if (s.procs p).pc = .idle ∧ r ∈ (s.procs p).held then
      (idup s.table r.slot).map fun table =>
        { s.set p ⟨r :: (s.procs p).held, .idle⟩ with table := table }
    else none
  | .give p q r =>
    if p ≠ q ∧ r ∈ (s.procs p).held then
      some ((s.set p ⟨(s.procs p).held.erase r, (s.procs p).pc⟩).set q
        ⟨r :: (s.procs q).held, (s.procs q).pc⟩)
    else none
  | .put p r =>
    if (s.procs p).pc = .idle ∧ r ∈ (s.procs p).held then
      if lastGone (s.table.mInodes r.slot) then
        some (s.set p ⟨(s.procs p).held.erase r, .freeing r⟩)
      else
        some { s.set p ⟨(s.procs p).held.erase r, .idle⟩ with table := decr s.table r.slot }
    else none
  | .free p =>
    match (s.procs p).pc with
    | .freeing r =>
      let m := s.table.mInodes r.slot
      let m := { m with dInodeCtnt := (itruncate m.dInodeCtnt 0 0 0).1, iValid := false }
      some { s.set p ⟨(s.procs p).held, .freed r⟩ with table := s.table.set r.slot m }
    | _ => none
  | .putRest p =>
    match (s.procs p).pc with
    | .freed r =>
      some ⟨decr s.table r.slot, s.gen, fun q =>
        if q = p then ⟨(s.procs p).held, .idle⟩
        else ⟨(s.procs q).held, (s.procs q).pc.wake⟩⟩
    | _ => none
  | .closePipe p r =>
    if (s.procs p).pc = .idle ∧ r ∈ (s.procs p).held
        ∧ isFifo (s.table.mInodes r.slot).dInodeCtnt.iMode then
      some { s.set p ⟨(s.procs p).held.erase r, .idle⟩ with table := decr s.table r.slot }
    else none
  | .store p r d valid =>
    if r ∈ (s.procs p).refs then
      let m := { s.table.mInodes r.slot with dInodeCtnt := d, iValid := valid }
      some { s with table := s.table.set r.slot m }
    else none

def Step (s : State π) (i : Input π) (s' : State π) : Prop := next s i = some s'

/-- A further reference still leaves fewer than 2^16 of them to its slot. -/
def Fits [Fintype π] (s : State π) : Input π → Prop
  | .get _ w => ∀ t ip, take s.table w = some (t, ip) → s.refs ip + 1 < 65536
  | .dup _ r => s.refs r.slot + 1 < 65536
  | _ => True

/-- A last reference that is dropped without a wake-up is dropped while nobody waits. -/
def Unawaited (s : State π) : Input π → Prop
  | .put _ r =>
    s.count r.slot = 1 → lastGone (s.table.mInodes r.slot) = false → ¬ Waiting s
  | .closePipe _ r => s.count r.slot = 1 → ¬ Waiting s
  | _ => True

end Step

/-! ## Counting -/

theorem slotRefs_cons (jp : Slot) (pr pr' : Proc) (r : Ref) (h : pr'.refs.Perm (r :: pr.refs)) :
    slotRefs jp pr' = slotRefs jp pr + if r.slot = jp then 1 else 0 := by
  unfold slotRefs
  rw [h.countP_eq, List.countP_cons]
  simp

section Counts

variable [Fintype π] [DecidableEq π]

/-- One process changes what it has; the table does not matter. -/
theorem refs_update (s s' : State π) (p : π) (jp : Slot)
    (hoff : ∀ q, q ≠ p → (s'.procs q).refs = (s.procs q).refs) :
    s'.refs jp + slotRefs jp (s.procs p) = s.refs jp + slotRefs jp (s'.procs p) := by
  refine total_congr_off (fun q => slotRefs jp (s.procs q)) (fun q => slotRefs jp (s'.procs q)) p ?_
  intro q hq
  show slotRefs jp (s'.procs q) = slotRefs jp (s.procs q)
  unfold slotRefs
  rw [hoff q hq]

/-- One process has a reference more. -/
theorem refs_gain {s s' : State π} {p : π} {r : Ref} (jp : Slot)
    (hoff : ∀ q, q ≠ p → (s'.procs q).refs = (s.procs q).refs)
    (hp : (s'.procs p).refs.Perm (r :: (s.procs p).refs)) :
    s'.refs jp = s.refs jp + if r.slot = jp then 1 else 0 := by
  have hupd := refs_update s s' p jp hoff
  rw [slotRefs_cons jp _ _ r hp] at hupd
  omega

omit [DecidableEq π] in
/-- A slot somebody has a reference to. -/
theorem refs_pos_of_carried {s : State π} {r : Ref} (h : Carried s r) : 0 < s.refs r.slot := by
  obtain ⟨p, hp⟩ := h
  have hle := le_total (fun q => slotRefs r.slot (s.procs q)) p
  have hpos : 0 < slotRefs r.slot (s.procs p) :=
    List.countP_pos_iff.mpr ⟨r, hp, by simp⟩
  exact lt_of_lt_of_le hpos hle

omit [DecidableEq π] in
theorem refs_congr {s s' : State π} (h : ∀ q, (s'.procs q).refs.Perm (s.procs q).refs) (jp : Slot) :
    s'.refs jp = s.refs jp := by
  apply congrArg total
  funext q
  exact (h q).countP_eq _

end Counts

theorem carried_gain [DecidableEq π] {s s' : State π} {p : π} {r r' : Ref}
    (hoff : ∀ q, q ≠ p → (s'.procs q).refs = (s.procs q).refs)
    (hp : (s'.procs p).refs.Perm (r :: (s.procs p).refs)) (h : Carried s' r') :
    r' = r ∨ Carried s r' := by
  obtain ⟨q, hq⟩ := h
  by_cases hqp : q = p
  · subst hqp
    rcases List.mem_cons.mp (hp.mem_iff.mp hq) with heq | hold
    · exact .inl heq
    · exact .inr ⟨q, hold⟩
  · rw [hoff q hqp] at hq
    exact .inr ⟨q, hq⟩

theorem carried_congr {s s' : State π} (h : ∀ q, (s'.procs q).refs.Perm (s.procs q).refs) {r : Ref}
    (hr : Carried s' r) : Carried s r := by
  obtain ⟨q, hq⟩ := hr
  exact ⟨q, (h q).mem_iff.mp hq⟩

/-! ## The scan -/

variable {t t' : InodeTable} {w : Want} {ip : Slot}

theorem take_shared (h : take t w = some (t', ip)) (hno : anew t w = false) :
    t' = t.set ip { t.mInodes ip with iCount := u16 ((t.mInodes ip).iCount + 1) } := by
  cases w with
  | pipe => exact (nomatch hno)
  | inode dev iNo clean =>
    have h : iget t dev iNo clean = some (t', ip) := h
    unfold iget at h
    split at h
    · cases h
      rfl
    · next hm =>
      rw [anew, hm] at hno
      exact (nomatch hno)

/-- A slot that is taken anew was idle, and no other slot carries its new name. -/
theorem take_anew (h : take t w = some (t', ip)) (hyes : anew t w = true) :
    (t.mInodes ip).iCount = 0 ∧ ∃ m, t' = t.set ip m ∧ m.iCount = u16 ((t.mInodes ip).iCount + 1)
      ∧ (m.iDev = 0 ∨ ∀ jp, (t.mInodes jp).iDev = m.iDev → (t.mInodes jp).iNo ≠ m.iNo) := by
  cases w with
  | inode dev iNo clean =>
    have h : iget t dev iNo clean = some (t', ip) := h
    unfold iget at h
    split at h
    · next jp hm =>
      rw [anew, hm] at hyes
      exact (nomatch hyes)
    · next hm =>
      split at h
      · next jp hidle =>
        cases h
        exact ⟨firstIdle_some hidle, _, rfl, rfl, .inr fun jp => igetMatch_none hm jp⟩
      · exact (nomatch h)
  | pipe =>
    have h : pipealloc t = some (t', ip) := h
    unfold pipealloc at h
    split at h
    · next jp hidle =>
      cases h
      exact ⟨firstIdle_some hidle, _, rfl, rfl, .inl rfl⟩
    · exact (nomatch h)

/-- A scan that finds nothing has seen a reference to every slot. -/
theorem take_none (h : take t w = none) (jp : Slot) : (t.mInodes jp).iCount ≠ 0 := by
  cases w with
  | inode dev iNo clean =>
    have h : iget t dev iNo clean = none := h
    unfold iget at h
    split at h
    · exact (nomatch h)
    · split at h
      · exact (nomatch h)
      · next hidle => exact firstIdle_none hidle jp
  | pipe =>
    have h : pipealloc t = none := h
    unfold pipealloc at h
    split at h
    · exact (nomatch h)
    · next hidle => exact firstIdle_none hidle jp

/-! ## What a step does -/

section Effects

variable [Fintype π] [DecidableEq π]

/-- The slot is taken anew: it was idle, the others keep what they carry, and none of them carries
    the new name. -/
structure Taken (s s' : State π) (ip : Slot) : Prop where
  idle : s.count ip = 0
  kept : ∀ jp, jp ≠ ip → s'.ident jp = s.ident jp
  fresh : (s'.ident ip).dev = 0 ∨
    ∀ jp, (s.ident jp).dev = (s'.ident ip).dev → (s.ident jp).iNo ≠ (s'.ident ip).iNo

/-- What one step means for the slots, the references and the waiting processes. -/
inductive Effect (s : State π) (i : Input π) (s' : State π) : Prop
  | quiet (hident : ∀ jp, s'.ident jp = s.ident jp) (hcount : ∀ jp, s'.count jp = s.count jp)
      (hrefs : ∀ jp, s'.refs jp = s.refs jp) (hcarried : ∀ r, Carried s' r → Carried s r)
      (hwaiting : Waiting s' → Waiting s ∨ ∀ jp, s.count jp ≠ 0)
  | gained (r : Ref) (hident : (∀ jp, s'.ident jp = s.ident jp) ∨ Taken s s' r.slot)
      (hnew : Carried s r ∨ r.ident = s'.ident r.slot)
      (hcount : ∀ jp, s'.count jp = if r.slot = jp then u16 (s.count jp + 1) else s.count jp)
      (hrefs : ∀ jp, s'.refs jp = s.refs jp + if r.slot = jp then 1 else 0)
      (hcarried : ∀ r', Carried s' r' → r' = r ∨ Carried s r')
      (hfits : Fits s i → s.refs r.slot + 1 < 65536) (hwaiting : Waiting s' → Waiting s)
  | lost (r : Ref) (hheld : Carried s r) (hident : ∀ jp, s'.ident jp = s.ident jp)
      (hcount : ∀ jp, s'.count jp = if r.slot = jp then u16 (s.count jp + 65535) else s.count jp)
      (hrefs : ∀ jp, s.refs jp = s'.refs jp + if r.slot = jp then 1 else 0)
      (hcarried : ∀ r', Carried s' r' → Carried s r')
      (hwaiting : Waiting s' → Waiting s ∧ (Unawaited s i → s.count r.slot ≠ 1))

/-- The part of a step on the side of the processes: `p` has one reference more. -/
theorem Effect.gain {s s' : State π} {i : Input π} {p : π} {r : Ref}
    (hoff : ∀ q, q ≠ p → s'.procs q = s.procs q) (hidle : (s'.procs p).pc = .idle)
    (hp : (s'.procs p).refs.Perm (r :: (s.procs p).refs))
    (hident : (∀ jp, s'.ident jp = s.ident jp) ∨ Taken s s' r.slot)
    (hnew : Carried s r ∨ r.ident = s'.ident r.slot)
    (hcount : ∀ jp, s'.count jp = if r.slot = jp then u16 (s.count jp + 1) else s.count jp)
    (hfits : Fits s i → s.refs r.slot + 1 < 65536) : Effect s i s' := by
  have hoffRefs : ∀ q, q ≠ p → (s'.procs q).refs = (s.procs q).refs :=
    fun q hq => by rw [hoff q hq]
  refine .gained r hident hnew hcount (fun jp => refs_gain jp hoffRefs hp)
    (fun r' => carried_gain hoffRefs hp) hfits ?_
  rintro ⟨q, w, hq⟩
  by_cases hqp : q = p
  · rw [hqp, hidle] at hq
    cases hq
  · rw [hoff q hqp] at hq
    exact ⟨q, w, hq⟩

/-- The other side: `p` has one reference less. -/
theorem Effect.lose {s s' : State π} {i : Input π} {p : π} {r : Ref}
    (hoff : ∀ q, q ≠ p → (s'.procs q).refs = (s.procs q).refs)
    (hp : (s.procs p).refs.Perm (r :: (s'.procs p).refs))
    (hident : ∀ jp, s'.ident jp = s.ident jp)
    (hcount : ∀ jp, s'.count jp = if r.slot = jp then u16 (s.count jp + 65535) else s.count jp)
    (hwaiting : Waiting s' → Waiting s ∧ (Unawaited s i → s.count r.slot ≠ 1)) : Effect s i s' := by
  have hback : ∀ q, q ≠ p → (s.procs q).refs = (s'.procs q).refs := fun q hq => (hoff q hq).symm
  refine .lost r ⟨p, hp.mem_iff.mpr List.mem_cons_self⟩ hident hcount
    (fun jp => refs_gain jp hback hp) ?_ hwaiting
  rintro r' ⟨q, hq⟩
  by_cases hqp : q = p
  · subst hqp
    exact ⟨q, hp.mem_iff.mpr (List.mem_cons_of_mem _ hq)⟩
  · rw [hoff q hqp] at hq
    exact ⟨q, hq⟩

omit [Fintype π] [DecidableEq π]

/-- One slot is stored. -/
theorem count_set {s s' : State π} {ip : Slot} {m : MInode} (ht : s'.table = s.table.set ip m)
    (jp : Slot) : s'.count jp = if ip = jp then m.iCount else s.count jp := by
  unfold State.count
  rw [ht]
  split_ifs with h
  · rw [h, InodeTable.set_self]
  · rw [InodeTable.set_of_ne _ _ (Ne.symm h)]

theorem ident_set {s s' : State π} {ip : Slot} {m : MInode} (ht : s'.table = s.table.set ip m)
    {jp : Slot} (hg : s'.gen jp = s.gen jp)
    (hm : ip = jp → m.iDev = (s.table.mInodes ip).iDev ∧ m.iNo = (s.table.mInodes ip).iNo) :
    s'.ident jp = s.ident jp := by
  unfold State.ident
  rw [ht, hg]
  by_cases h : ip = jp
  · rw [← h, InodeTable.set_self, (hm h).1, (hm h).2]
  · rw [InodeTable.set_of_ne _ _ (Ne.symm h)]

/-- The count of a slot goes down by one. -/
theorem count_decr {s s' : State π} {ip : Slot} (ht : s'.table = decr s.table ip) (jp : Slot) :
    s'.count jp = if ip = jp then u16 (s.count jp + 65535) else s.count jp := by
  rw [count_set ht]
  split_ifs with h
  · rw [← h]
    rfl
  · rfl

theorem ident_decr {s s' : State π} {ip : Slot} (ht : s'.table = decr s.table ip)
    (hg : s'.gen = s.gen) (jp : Slot) : s'.ident jp = s.ident jp :=
  ident_set ht (congrFun hg jp) fun _ => ⟨rfl, rfl⟩

theorem Proc.refs_of_ready {pr : Proc} {w : Want} (h : pr.pc = .idle ∨ pr.pc = .woken w) :
    pr.refs = pr.held := by
  rcases h with h | h <;> rw [Proc.refs, h] <;> rfl

theorem Pc.wake_refs (pc : Pc) : pc.wake.refs = pc.refs := by
  cases pc <;> rfl

theorem Pc.wake_ne_blocked (pc : Pc) (w : Want) : pc.wake ≠ .blocked w := by
  cases pc <;> nofun

end Effects

section Steps

variable [DecidableEq π] {s s' : State π} {p q : π} {r : Ref}

/-- A scan that leads to a slot: the process has a reference to it, with what the slot carries. -/
theorem get_some {w : Want} {t : InodeTable} {ip : Slot} (h : next s (.get p w) = some s')
    (htake : take s.table w = some (t, ip)) :
    (s.procs p).refs = (s.procs p).held ∧ s'.table = t
      ∧ s'.gen = (if anew s.table w then update s.gen ip (s.gen ip + 1) else s.gen)
      ∧ s'.procs p = ⟨⟨ip, s'.ident ip⟩ :: (s.procs p).held, .idle⟩
      ∧ ∀ q, q ≠ p → s'.procs q = s.procs q := by
  by_cases hready : (s.procs p).pc = .idle ∨ (s.procs p).pc = .woken w
  · simp only [next, if_pos hready, htake] at h
    cases h
    refine ⟨Proc.refs_of_ready hready, rfl, rfl, ?_, fun q hq => update_of_ne hq _ _⟩
    exact update_self ..
  · simp only [next, if_neg hready] at h
    exact (nomatch h)

/-- A scan that finds every slot in use. -/
theorem get_none {w : Want} (h : next s (.get p w) = some s') (htake : take s.table w = none) :
    (s.procs p).refs = (s.procs p).held ∧ s' = s.set p ⟨(s.procs p).held, .blocked w⟩ := by
  by_cases hready : (s.procs p).pc = .idle ∨ (s.procs p).pc = .woken w
  · simp only [next, if_pos hready, htake] at h
    exact ⟨Proc.refs_of_ready hready, (some.inj h).symm⟩
  · simp only [next, if_neg hready] at h
    exact (nomatch h)

/-- One process is at another place with the same references. -/
theorem set_perm (s : State π) (p : π) (pr : Proc) (h : pr.refs.Perm (s.procs p).refs) (q : π) :
    ((s.set p pr).procs q).refs.Perm (s.procs q).refs := by
  by_cases hq : q = p
  · subst hq
    rw [set_self]
    exact h
  · rw [set_of_ne _ _ hq]

/-- Who waits after one process, which does not wait now, has gone to another place. -/
theorem waiting_set (p : π) (pr : Proc) (hpr : ∀ w, pr.pc ≠ .blocked w)
    (h : Waiting (s.set p pr)) : Waiting s := by
  obtain ⟨x, w, hx⟩ := h
  by_cases hxp : x = p
  · rw [hxp, set_self] at hx
    exact absurd hx (hpr w)
  · rw [set_of_ne _ _ hxp] at hx
    exact ⟨x, w, hx⟩

variable [Fintype π]

theorem get_effect {w : Want} (h : next s (.get p w) = some s') : Effect s (.get p w) s' := by
  rcases htake : take s.table w with _ | ⟨t, ip⟩
  · obtain ⟨hheld, rfl⟩ := get_none h htake
    have hrefs := set_perm s p ⟨(s.procs p).held, .blocked w⟩ (by
      rw [hheld]
      exact List.Perm.refl _)
    exact .quiet (fun _ => rfl) (fun _ => rfl) (refs_congr hrefs) (fun _ => carried_congr hrefs)
      fun _ => .inr (take_none htake)
  obtain ⟨hheld, rfl, hgen, hp, hoff⟩ := get_some h htake
  have hidle : (s'.procs p).pc = .idle := by rw [hp]
  have hperm : (s'.procs p).refs.Perm (⟨ip, s'.ident ip⟩ :: (s.procs p).refs) := by
    rw [hp, hheld]
    exact List.Perm.refl _
  have hfits : Fits s (.get p w) → s.refs ip + 1 < 65536 := fun hfits => hfits _ ip htake
  have hcount : ∀ m : MInode, m.iCount = u16 ((s.table.mInodes ip).iCount + 1) →
      s'.table = s.table.set ip m →
      ∀ jp, s'.count jp = if ip = jp then u16 (s.count jp + 1) else s.count jp := by
    intro m hm ht jp
    rw [count_set ht]
    split_ifs with hjp
    · rw [hm, ← hjp]
      rfl
    · rfl
  rcases hanew : anew s.table w with _ | _
  · have ht := take_shared htake hanew
    rw [hanew] at hgen
    have hident : ∀ jp, s'.ident jp = s.ident jp :=
      fun jp => ident_set ht (congrFun hgen jp) fun _ => ⟨rfl, rfl⟩
    exact Effect.gain hoff hidle hperm (.inl hident) (.inr rfl) (hcount _ rfl ht) hfits
  · obtain ⟨hzero, m, ht, hm, hfresh⟩ := take_anew htake hanew
    rw [hanew] at hgen
    have hothers : ∀ jp, jp ≠ ip → s'.ident jp = s.ident jp := by
      intro jp hjp
      refine ident_set ht ?_ fun heq => absurd heq.symm hjp
      rw [hgen]
      exact update_of_ne hjp _ _
    have hname : (s'.ident ip).dev = m.iDev ∧ (s'.ident ip).iNo = m.iNo := by
      unfold State.ident
      rw [ht, InodeTable.set_self]
      exact ⟨rfl, rfl⟩
    have htaken : Taken s s' ip := by
      refine ⟨hzero, hothers, ?_⟩
      rw [hname.1, hname.2]
      exact hfresh
    exact Effect.gain hoff hidle hperm (.inr htaken) (.inr rfl) (hcount m hm ht) hfits

theorem dup_effect (h : next s (.dup p r) = some s') : Effect s (.dup p r) s' := by
  simp only [next] at h
  split_ifs at h with hp
  obtain ⟨t, ht, rfl⟩ := Option.map_eq_some_iff.mp h
  have hheld : (s.procs p).refs = (s.procs p).held := Proc.refs_of_ready (w := .pipe) (.inl hp.1)
  have hset : t = s.table.set r.slot { s.table.mInodes r.slot with
      iCount := u16 ((s.table.mInodes r.slot).iCount + 1) } := by
    unfold idup at ht
    split_ifs at ht
    exact (some.inj ht).symm
  obtain ⟨s', hs'⟩ : ∃ s', s' = { s.set p ⟨r :: (s.procs p).held, .idle⟩ with table := t } := ⟨_, rfl⟩
  have htable : s'.table = _ := (congrArg State.table hs').trans hset
  rw [← hs']
  refine Effect.gain (p := p) (r := r) (fun q hq => ?_) ?_ ?_ (.inl fun jp => ?_)
    (.inl ⟨p, ?_⟩) (fun jp => ?_) fun hfits => hfits
  · rw [hs']
    exact set_of_ne s _ hq
  · rw [hs']
    exact congrArg Proc.pc (set_self s p _)
  · rw [hs']
    show ((s.set p _).procs p).refs.Perm _
    rw [set_self, hheld]
    exact List.Perm.refl _
  · refine ident_set htable (by rw [hs']; rfl) ?_
    exact fun _ => ⟨rfl, rfl⟩
  · rw [hheld]
    exact hp.2
  · rw [count_set htable]
    split_ifs with hjp
    · rw [← hjp]
      rfl
    · rfl

/-- A reference that changes hands is lost on one side and gained on the other. -/
theorem give_effect (h : next s (.give p q r) = some s') : Effect s (.give p q r) s' := by
  simp only [next] at h
  split_ifs at h with hp
  obtain ⟨hpq, hr⟩ := hp
  -- In between, nobody has it.
  obtain ⟨mid, hmid⟩ : ∃ mid, mid = s.set p ⟨(s.procs p).held.erase r, (s.procs p).pc⟩ := ⟨_, rfl⟩
  rw [← hmid] at h
  cases h
  have hoff : ∀ x, x ≠ p → mid.procs x = s.procs x := by
    intro x hx
    rw [hmid, set_of_ne _ _ hx]
  have hlost : (s.procs p).refs.Perm (r :: (mid.procs p).refs) := by
    rw [hmid, set_self]
    exact ((List.perm_cons_erase hr).append_left _).trans List.perm_middle
  have hoff' : ∀ x, x ≠ q → (mid.set q ⟨r :: (s.procs q).held, (s.procs q).pc⟩).procs x
      = mid.procs x := fun x hx => set_of_ne _ _ hx
  have hgain : ((mid.set q ⟨r :: (s.procs q).held, (s.procs q).pc⟩).procs q).refs.Perm
      (r :: (mid.procs q).refs) := by
    rw [hoff q (Ne.symm hpq), set_self]
    exact List.perm_middle
  have hrefs : ∀ x, x ≠ q → ((mid.set q ⟨r :: (s.procs q).held, (s.procs q).pc⟩).procs x).refs
      = (mid.procs x).refs := fun x hx => congrArg Proc.refs (hoff' x hx)
  have hpc : ∀ x, ((mid.set q ⟨r :: (s.procs q).held, (s.procs q).pc⟩).procs x).pc
      = (s.procs x).pc := by
    intro x
    by_cases hxq : x = q
    · rw [hxq, set_self]
    · rw [hoff' x hxq]
      by_cases hxp : x = p
      · rw [hxp, hmid, set_self]
      · rw [hoff x hxp]
  refine .quiet ?_ ?_ (fun jp => ?_) (fun r' hr' => ?_) ?_
  · intro jp
    rw [hmid]
    rfl
  · intro jp
    rw [hmid]
    rfl
  · rw [refs_gain jp hrefs hgain,
      refs_gain jp (fun x hx => congrArg Proc.refs (hoff x hx).symm) hlost]
  · rcases carried_gain hrefs hgain hr' with rfl | ⟨x, hx⟩
    · exact ⟨p, hlost.mem_iff.mpr List.mem_cons_self⟩
    · by_cases hxp : x = p
      · subst hxp
        exact ⟨x, hlost.mem_iff.mpr (List.mem_cons_of_mem _ hx)⟩
      · rw [hoff x hxp] at hx
        exact ⟨x, hx⟩
  · rintro ⟨x, w, hx⟩
    rw [hpc] at hx
    exact .inl ⟨x, w, hx⟩

/-- A reference is dropped at once, and nobody is woken. -/
theorem drop_effect {i : Input π} (hpc : (s.procs p).pc = .idle) (hr : r ∈ (s.procs p).held)
    (hquiet : Waiting s → Unawaited s i → s.count r.slot ≠ 1) :
    Effect s i { s.set p ⟨(s.procs p).held.erase r, .idle⟩ with table := decr s.table r.slot } := by
  have hheld : (s.procs p).refs = (s.procs p).held := Proc.refs_of_ready (w := .pipe) (.inl hpc)
  refine Effect.lose (p := p) (r := r) (fun x hx => congrArg Proc.refs (set_of_ne s _ hx)) ?_
    (ident_decr rfl rfl) (count_decr rfl) ?_
  · show (s.procs p).refs.Perm (r :: ((s.set p _).procs p).refs)
    rw [set_self, hheld]
    exact List.perm_cons_erase hr
  · intro hw
    have hold : Waiting s := waiting_set p ⟨_, .idle⟩ (fun _ => nofun) hw
    exact ⟨hold, hquiet hold⟩

/-- A reference is given back, at once or in two parts. -/
theorem put_effect (h : next s (.put p r) = some s') : Effect s (.put p r) s' := by
  simp only [next] at h
  by_cases hp : (s.procs p).pc = .idle ∧ r ∈ (s.procs p).held
  swap
  · rw [if_neg hp] at h
    exact (nomatch h)
  rw [if_pos hp] at h
  rcases hlast : lastGone (s.table.mInodes r.slot) with _ | _
  · rw [hlast] at h
    cases h
    exact drop_effect hp.1 hp.2 fun hw hquiet hone => hquiet hone hlast hw
  · rw [hlast] at h
    cases h
    have hrefs := set_perm s p ⟨(s.procs p).held.erase r, .freeing r⟩ (by
      rw [Proc.refs_of_ready (w := .pipe) (.inl hp.1)]
      exact (List.perm_cons_erase hp.2).symm)
    exact .quiet (fun _ => rfl) (fun _ => rfl) (refs_congr hrefs) (fun _ => carried_congr hrefs)
      fun hw => .inl (waiting_set p ⟨_, .freeing r⟩ (fun _ => nofun) hw)

theorem closePipe_effect (h : next s (.closePipe p r) = some s') : Effect s (.closePipe p r) s' := by
  simp only [next] at h
  split_ifs at h with hp
  cases h
  exact drop_effect hp.1 hp.2.1 fun hw hquiet hone => hquiet hone hw

/-- The blocks are freed: the record of the inode changes, not its name or its count. -/
theorem free_effect (h : next s (.free p) = some s') : Effect s (.free p) s' := by
  simp only [next] at h
  split at h
  · next r hpc =>
    cases h
    have hrefs := set_perm s p ⟨(s.procs p).held, .freed r⟩ (by
      unfold Proc.refs
      rw [hpc]
      exact List.Perm.refl _)
    refine .quiet (fun jp => ident_set rfl rfl ?_) (fun jp => ?_)
      (fun jp => refs_congr hrefs jp) (fun _ hr => carried_congr hrefs hr)
      fun hw => .inl (waiting_set p ⟨_, .freed r⟩ (fun _ => nofun) hw)
    · exact fun _ => ⟨rfl, rfl⟩
    · rw [count_set rfl]
      split_ifs with hjp
      · rw [← hjp]
        rfl
      · rfl
  · exact (nomatch h)

/-- The end of `iput` after the blocks have been freed wakes everybody. -/
theorem putRest_effect (h : next s (.putRest p) = some s') : Effect s (.putRest p) s' := by
  simp only [next] at h
  split at h
  · next r hpc =>
    cases h
    refine Effect.lose (p := p) (r := r) (fun q hq => ?_) ?_ (ident_decr rfl rfl) (count_decr rfl) ?_
    · show (if q = p then (⟨(s.procs p).held, .idle⟩ : Proc)
        else ⟨(s.procs q).held, (s.procs q).pc.wake⟩).refs = _
      rw [if_neg hq, Proc.refs, Pc.wake_refs]
      rfl
    · show (s.procs p).refs.Perm (r :: (if p = p then (⟨(s.procs p).held, .idle⟩ : Proc)
        else ⟨(s.procs p).held, (s.procs p).pc.wake⟩).refs)
      rw [if_pos rfl, Proc.refs, hpc]
      exact List.Perm.refl _
    · rintro ⟨x, w, hx⟩
      have hx : (if x = p then (⟨(s.procs p).held, .idle⟩ : Proc)
        else ⟨(s.procs x).held, (s.procs x).pc.wake⟩).pc = .blocked w := hx
      split_ifs at hx
      exact absurd hx (Pc.wake_ne_blocked _ w)
  · exact (nomatch h)

theorem store_effect {d : DInode} {valid : Bool} (h : next s (.store p r d valid) = some s') :
    Effect s (.store p r d valid) s' := by
  simp only [next] at h
  split_ifs at h with hr
  cases h
  refine .quiet (fun jp => ident_set rfl rfl ?_) (fun jp => ?_) (fun _ => rfl) (fun _ h => h) .inl
  · exact fun _ => ⟨rfl, rfl⟩
  · rw [count_set rfl]
    split_ifs with hjp
    · rw [← hjp]
      rfl
    · rfl

theorem step_effect {i : Input π} (h : Step s i s') : Effect s i s' := by
  cases i with
  | get p w => exact get_effect h
  | dup p r => exact dup_effect h
  | give p q r => exact give_effect h
  | put p r => exact put_effect h
  | free p => exact free_effect h
  | putRest p => exact putRest_effect h
  | closePipe p r => exact closePipe_effect h
  | store p r d valid => exact store_effect h

/-! ## Names and counts -/

/-- `i_count` is the number of references, a slot carries what its references say, and no name is
    carried twice. -/
structure Inv (s : State π) : Prop where
  count : ∀ jp, s.count jp = s.refs jp
  few : ∀ jp, s.refs jp < 65536
  ident : ∀ r, Carried s r → s.ident r.slot = r.ident
  unique : ∀ ip jp, (s.ident ip).dev ≠ 0 → (s.ident ip).dev = (s.ident jp).dev →
    (s.ident ip).iNo = (s.ident jp).iNo → ip = jp

omit [DecidableEq π] in
theorem boot_inv : Inv (boot π) := by
  have hnobody : ∀ r, ¬ Carried (boot π) r := by
    rintro r ⟨p, hp⟩
    exact absurd hp List.not_mem_nil
  have hrefs : ∀ jp, (boot π).refs jp = 0 := fun jp => total_eq_zero.mpr fun _ => rfl
  refine ⟨fun jp => (hrefs jp).symm, fun jp => ?_, fun r hr => absurd hr (hnobody r), ?_⟩
  · rw [hrefs]
    decide
  · intro ip jp hdev
    exact absurd rfl hdev

omit [DecidableEq π] in
/-- A slot somebody has a reference to is not idle. -/
theorem Inv.count_pos (h : Inv s) (hr : Carried s r) : 0 < s.count r.slot := by
  rw [h.count]
  exact refs_pos_of_carried hr

omit [DecidableEq π] in
/-- A slot that is taken anew is not the slot of a reference. -/
theorem Inv.ident_of_carried (h : Inv s) {ip : Slot}
    (hident : (∀ jp, s'.ident jp = s.ident jp) ∨ Taken s s' ip) (hr : Carried s r) :
    s'.ident r.slot = s.ident r.slot := by
  rcases hident with hkept | htaken
  · exact hkept r.slot
  · refine htaken.kept r.slot ?_
    intro heq
    have hpos := h.count_pos hr
    rw [heq, htaken.idle] at hpos
    exact Nat.lt_irrefl 0 hpos

omit [DecidableEq π] in
/-- No step takes a slot from under a reference. -/
theorem Inv.ident_step (h : Inv s) {i : Input π} (he : Effect s i s') (hr : Carried s r) :
    s'.ident r.slot = s.ident r.slot := by
  cases he with
  | quiet hident hcount hrefs hcarried hwaiting => exact hident r.slot
  | gained r' hident hnew hcount hrefs hcarried hfits hwaiting => exact h.ident_of_carried hident hr
  | lost r' hheld hident hcount hrefs hcarried hwaiting => exact hident r.slot

omit [DecidableEq π] in
theorem Inv.effect (h : Inv s) {i : Input π} (hc : Fits s i) (he : Effect s i s') : Inv s' := by
  cases he with
  | quiet hident hcount hrefs hcarried hwaiting =>
    refine ⟨fun jp => ?_, fun jp => ?_, fun r hr => ?_, fun ip jp => ?_⟩
    · rw [hcount, hrefs]
      exact h.count jp
    · rw [hrefs]
      exact h.few jp
    · rw [hident]
      exact h.ident r (hcarried r hr)
    · rw [hident, hident]
      exact h.unique ip jp
  | gained r hident hnew hcount hrefs hcarried hfits hwaiting =>
    have hroom := hfits hc
    refine ⟨fun jp => ?_, fun jp => ?_, fun r' hr' => ?_, fun ip jp hdev heq hno => ?_⟩
    · rw [hcount, hrefs, h.count]
      split_ifs with hjp
      · subst hjp
        exact Nat.mod_eq_of_lt hroom
      · rfl
    · rw [hrefs]
      split_ifs with hjp
      · subst hjp
        exact hroom
      · exact h.few jp
    · rcases hcarried r' hr' with rfl | hold
      · rcases hnew with hold | hname
        · rw [h.ident_of_carried hident hold]
          exact h.ident _ hold
        · exact hname.symm
      · rw [h.ident_of_carried hident hold]
        exact h.ident r' hold
    · rcases hident with hkept | htaken
      · rw [hkept] at hdev
        rw [hkept, hkept] at heq hno
        exact h.unique ip jp hdev heq hno
      · by_cases hip : ip = r.slot <;> by_cases hjp : jp = r.slot
        · exact hip.trans hjp.symm
        · subst hip
          rw [htaken.kept jp hjp] at heq hno
          exact ((htaken.fresh.resolve_left hdev) jp heq.symm hno.symm).elim
        · subst hjp
          rw [heq] at hdev
          rw [htaken.kept ip hip] at heq hno
          exact ((htaken.fresh.resolve_left hdev) ip heq hno).elim
        · rw [htaken.kept ip hip] at hdev
          rw [htaken.kept ip hip, htaken.kept jp hjp] at heq hno
          exact h.unique ip jp hdev heq hno
  | lost r hheld hident hcount hrefs hcarried hwaiting =>
    refine ⟨fun jp => ?_, fun jp => ?_, fun r' hr' => ?_, fun ip jp => ?_⟩
    · have hfew := h.few jp
      have hsum := hrefs jp
      rw [hcount, h.count]
      split_ifs with hjp
      · rw [if_pos hjp] at hsum
        unfold u16
        omega
      · rw [if_neg hjp] at hsum
        exact hsum
    · have hfew := h.few jp
      have hsum := hrefs jp
      omega
    · rw [hident]
      exact h.ident r' (hcarried r' hr')
    · rw [hident, hident]
      exact h.unique ip jp

theorem inv_of_reaches (h : Reaches Step Fits (boot π) s) : Inv s :=
  h.invariant boot_inv fun _ _ _ hI hc hs => hI.effect hc (step_effect hs)

/-- In every run with fewer than 2^16 references to one slot at a time: no two slots carry the same
    `(i_dev, i_no)` with `i_dev` not 0; a slot carries what each reference to it was handed out
    for; two references for the same inode name the same slot; and a step that takes a slot anew
    takes none that somebody has a reference to. -/
theorem slots_unique (h : Reaches Step Fits (boot π) s) :
    (∀ ip jp, (s.table.mInodes ip).iDev ≠ 0 →
      (s.table.mInodes ip).iDev = (s.table.mInodes jp).iDev →
      (s.table.mInodes ip).iNo = (s.table.mInodes jp).iNo → ip = jp) ∧
    (∀ r, Carried s r → s.ident r.slot = r.ident) ∧
    (∀ r r', Carried s r → Carried s r' → r.ident.dev ≠ 0 → r.ident.dev = r'.ident.dev →
      r.ident.iNo = r'.ident.iNo → r.slot = r'.slot) ∧
    (∀ i s' r, Step s i s' → Carried s r → s'.ident r.slot = s.ident r.slot) := by
  have hI := inv_of_reaches h
  refine ⟨hI.unique, hI.ident, ?_, fun i s' r hs hr => hI.ident_step (step_effect hs) hr⟩
  intro r r' hr hr' hdev heq hno
  rw [← hI.ident r hr] at hdev heq hno
  rw [← hI.ident r' hr'] at heq hno
  exact hI.unique r.slot r'.slot hdev heq hno

/-! ## Waiting for a slot -/

/-- Nobody waits while a slot is idle. -/
def NoIdleSlot (s : State π) : Prop := Waiting s → ∀ jp, 0 < s.count jp

/-- The conditions of `slots_unique`, and no last reference dropped without a wake-up while somebody
    waits. -/
def Noticed (s : State π) (i : Input π) : Prop := Fits s i ∧ Unawaited s i

omit [DecidableEq π] in
theorem NoIdleSlot.effect (hI : Inv s) (h : NoIdleSlot s) {i : Input π} (hc : Noticed s i)
    (he : Effect s i s') : NoIdleSlot s' := by
  intro hw jp
  cases he with
  | quiet hident hcount hrefs hcarried hwaiting =>
    rw [hcount]
    rcases hwaiting hw with hold | hfull
    · exact h hold jp
    · exact Nat.pos_of_ne_zero (hfull jp)
  | gained r hident hnew hcount hrefs hcarried hfits hwaiting =>
    have hold := h (hwaiting hw) jp
    have hroom := hfits hc.1
    rw [hcount]
    split_ifs with hjp
    · subst hjp
      rw [hI.count, u16, Nat.mod_eq_of_lt hroom]
      exact Nat.succ_pos _
    · exact hold
  | lost r hheld hident hcount hrefs hcarried hwaiting =>
    obtain ⟨hold, hquiet⟩ := hwaiting hw
    have hpos := h hold jp
    have hfew := hI.few jp
    rw [hcount]
    split_ifs with hjp
    · subst hjp
      have hne := hquiet hc.2
      rw [← hI.count] at hfew
      unfold u16
      omega
    · exact hpos

/-- In every run in which no last reference is dropped without a wake-up while somebody waits: while
    somebody waits, every slot is in use. -/
theorem no_idle_slot_while_waiting (h : Reaches Step Noticed (boot π) s) (hw : Waiting s) (jp : Slot) :
    0 < (s.table.mInodes jp).iCount := by
  have hboth : Inv s ∧ NoIdleSlot s := by
    refine h.invariant (I := fun s => Inv s ∧ NoIdleSlot s) ⟨boot_inv, ?_⟩ ?_
    · rintro ⟨p, w, hp⟩
      exact (nomatch hp)
    · intro a i b hI hc hs
      exact ⟨hI.1.effect hc.1 (step_effect hs), hI.2.effect hI.1 hc (step_effect hs)⟩
  exact hboth.2 hw jp

end Steps

/-! ## A full table -/

section Full

instance (s : State Pid) : (i : Input Pid) → Decidable (Fits s i)
  | .get _ w =>
    match h : take s.table w with
    | none => isTrue fun t ip ht => (nomatch h.symm.trans ht)
    | some (t, ip) =>
      decidable_of_iff (s.refs ip + 1 < 65536) ⟨fun hfew t' ip' ht => by
        cases h.symm.trans ht
        exact hfew, fun hall => hall t ip h⟩
  | .dup _ r => inferInstanceAs (Decidable (s.refs r.slot + 1 < 65536))
  | .give _ _ _ => isTrue trivial
  | .put _ _ => isTrue trivial
  | .free _ => isTrue trivial
  | .putRest _ => isTrue trivial
  | .closePipe _ _ => isTrue trivial
  | .store _ _ _ _ => isTrue trivial

/-- Two processes ask for one inode, and the first one for a pipe. -/
theorem slots_unique_shared : ∃ s : State Pid,
    Carried s ⟨0, ⟨1, 2, 1⟩⟩ ∧ s.count 0 = 2 ∧ (s.ident 0).iNo = 2 ∧ Carried s ⟨1, ⟨0, 0, 1⟩⟩ ∧
    ∀ ip, (s.table.mInodes ip).iDev ≠ 0 → (s.table.mInodes ip).iDev = (s.table.mInodes 0).iDev →
      (s.table.mInodes ip).iNo = (s.table.mInodes 0).iNo → ip = 0 := by
  have hrun : Leads (guarded Fits next) (boot Pid)
      [.get 1 (.inode 1 2 false), .get 2 (.inode 1 2 false), .get 1 .pipe] fun s =>
      s.count 0 = 2 ∧ (s.ident 0).iNo = 2 ∧ (s.procs 2).held = [⟨0, ⟨1, 2, 1⟩⟩] ∧
        (s.procs 1).held = [⟨1, ⟨0, 0, 1⟩⟩, ⟨0, ⟨1, 2, 1⟩⟩] := by
    decide +kernel
  obtain ⟨s, hreach, hcount, hno, h2, h1⟩ := hrun.reaches Step Fits guarded_step
  refine ⟨s, ⟨2, ?_⟩, hcount, hno, ⟨1, ?_⟩, fun ip => (slots_unique hreach).1 ip 0⟩
  · rw [Proc.refs, h2]
    exact List.mem_append_right _ List.mem_cons_self
  · rw [Proc.refs, h1]
    exact List.mem_append_right _ List.mem_cons_self

/-- Process 1 has taken inodes of device 1 with numbers up to `b`, one slot for each; process 2 has
    done nothing. -/
structure Filling (s : State Pid) (b : Nat) : Prop where
  reached : Reaches Step Noticed (boot Pid) s
  first : (s.procs 1).pc = .idle
  second : (s.procs 2).pc = .idle
  slots : ∀ jp, (s.count jp = 0 ∧ (s.ident jp).dev = 0) ∨
    (s.count jp = 1 ∧ (s.ident jp).iNo ≤ b ∧ (s.table.mInodes jp).iValid = false
      ∧ ∃ r ∈ (s.procs 1).held, r.slot = jp)

def idleSlots (s : State Pid) : Finset Slot := Finset.univ.filter fun jp => s.count jp = 0

variable {s s' : State Pid} {b : Nat}

/-- The next number is in no slot. -/
theorem Filling.igetMatch (h : Filling s b) : Inode.igetMatch s.table 1 (b + 1) = none := by
  refine List.find?_eq_none.mpr fun jp _ => ?_
  rw [Bool.and_eq_true, beq_iff_eq, beq_iff_eq]
  rintro ⟨hdev, hno⟩
  rcases h.slots jp with ⟨-, hzero⟩ | ⟨-, hle, -, -⟩
  · exact absurd (hdev.symm.trans hzero) (by decide)
  · have hle : (s.table.mInodes jp).iNo ≤ b := hle
    omega

/-- One more slot is taken. -/
theorem Filling.get (h : Filling s b) {ip : Slot} (hidle : firstIdle s.table = some ip) :
    ∃ s', Filling s' (b + 1) ∧ idleSlots s' = (idleSlots s).erase ip := by
  have htake : take s.table (.inode 1 (b + 1) false) = some (s.table.set ip
      { s.table.mInodes ip with iDev := 1, iNo := b + 1, iValid := false,
                                iCount := u16 ((s.table.mInodes ip).iCount + 1) }, ip) := by
    show Inode.iget s.table 1 (b + 1) false = _
    unfold Inode.iget
    rw [h.igetMatch, hidle]
  have hzero : s.count ip = 0 := firstIdle_some hidle
  obtain ⟨s', hs⟩ : ∃ s', next s (.get 1 (.inode 1 (b + 1) false)) = some s' := by
    refine Option.isSome_iff_exists.mp ?_
    simp only [next, if_pos (Or.inl h.first), htake]
    rfl
  have hI := inv_of_reaches (h.reached.invariant (I := fun s => Reaches Step Fits (boot Pid) s)
    Reaches.refl fun _ _ _ hr hc hstep => hr.snoc hc.1 hstep)
  have hfits : Fits s (.get 1 (.inode 1 (b + 1) false)) := by
    intro t jp ht
    cases htake.symm.trans ht
    rw [← hI.count, hzero]
    decide
  obtain ⟨-, htable, -, hp, hoff⟩ := get_some hs htake
  have hcount : ∀ jp, s'.count jp = if ip = jp then 1 else s.count jp := by
    intro jp
    rw [count_set htable]
    split_ifs with hjp
    · show u16 (s.count ip + 1) = 1
      rw [hzero]
      rfl
    · rfl
  refine ⟨s', ⟨h.reached.snoc ⟨hfits, trivial⟩ hs, ?_, ?_, fun jp => ?_⟩, ?_⟩
  · rw [hp]
  · rw [hoff 2 (by decide)]
    exact h.second
  · by_cases hjp : ip = jp
    · refine .inr ⟨by rw [hcount, if_pos hjp], ?_, ?_, ⟨ip, s'.ident ip⟩, ?_, hjp⟩
      · unfold State.ident
        rw [htable, ← hjp, InodeTable.set_self]
      · rw [htable, ← hjp, InodeTable.set_self]
      · rw [hp]
        exact List.mem_cons_self
    · have hsame : s'.table.mInodes jp = s.table.mInodes jp := by
        rw [htable, InodeTable.set_of_ne _ _ (Ne.symm hjp)]
      unfold State.ident State.count
      rw [hsame, hp]
      rcases h.slots jp with hold | ⟨hone, hle, hvalid, r, hr, hslot⟩
      · exact .inl hold
      · exact .inr ⟨hone, Nat.le_succ_of_le hle, hvalid, r, List.mem_cons_of_mem _ hr, hslot⟩
  · ext jp
    simp only [idleSlots, Finset.mem_filter, Finset.mem_univ, true_and, Finset.mem_erase, hcount]
    split_ifs with hjp
    · simp [hjp]
    · simp [Ne.symm hjp]

/-- All slots are taken in the end. -/
theorem Filling.full : ∀ n s b, Filling s b → (idleSlots s).card = n →
    ∃ s' b', Filling s' b' ∧ firstIdle s'.table = none := by
  intro n
  induction n with
  | zero =>
    intro s b h hn
    refine ⟨s, b, h, List.find?_eq_none.mpr fun jp _ hjp => ?_⟩
    have hmem : jp ∈ idleSlots s := Finset.mem_filter.mpr ⟨Finset.mem_univ jp, beq_iff_eq.mp hjp⟩
    rw [Finset.card_eq_zero.mp hn] at hmem
    exact Finset.notMem_empty jp hmem
  | succ n ih =>
    intro s b h hn
    rcases hidle : firstIdle s.table with _ | ip
    · exact ⟨s, b, h, hidle⟩
    · obtain ⟨s', h', herase⟩ := h.get hidle
      have hmem : ip ∈ idleSlots s := Finset.mem_filter.mpr ⟨Finset.mem_univ ip, firstIdle_some hidle⟩
      refine ih s' (b + 1) h' ?_
      rw [herase, Finset.card_erase_of_mem hmem, hn, Nat.add_sub_cancel]

/-- Process 1 has all slots, and process 2 waits for one. -/
theorem full_and_waiting : ∃ s : State Pid, Reaches Step Noticed (boot Pid) s ∧ Waiting s ∧
    (s.procs 1).pc = .idle ∧ ∃ r ∈ (s.procs 1).held,
      s.count r.slot = 1 ∧ (s.table.mInodes r.slot).iValid = false := by
  have hboot : Filling (boot Pid) 0 :=
    ⟨Reaches.refl, rfl, rfl, fun jp => .inl ⟨rfl, rfl⟩⟩
  obtain ⟨s, b, h, hfull⟩ := Filling.full _ _ _ hboot rfl
  have htake : take s.table (.inode 1 (b + 1) false) = none := by
    show Inode.iget s.table 1 (b + 1) false = none
    unfold Inode.iget
    rw [h.igetMatch, hfull]
  have hs : next s (.get 2 (.inode 1 (b + 1) false))
      = some (s.set 2 ⟨(s.procs 2).held, .blocked (.inode 1 (b + 1) false)⟩) := by
    simp only [next, if_pos (Or.inl h.second), htake]
  have hfits : Fits s (.get 2 (.inode 1 (b + 1) false)) := by
    intro t jp ht
    exact (nomatch htake.symm.trans ht)
  refine ⟨_, h.reached.snoc ⟨hfits, trivial⟩ hs, ⟨2, .inode 1 (b + 1) false, ?_⟩, ?_, ?_⟩
  · rw [set_self]
  · rw [set_of_ne _ _ (by decide)]
    exact h.first
  · rw [set_of_ne _ _ (by decide)]
    rcases h.slots 0 with ⟨hzero, -⟩ | ⟨hone, -, hvalid, r, hr, hslot⟩
    · exact absurd hzero (firstIdle_none hfull 0)
    · exact ⟨r, hr, by rw [hslot]; exact hone, by rw [hslot]; exact hvalid⟩

theorem no_idle_slot_while_waiting_full : ∃ s : State Pid, Waiting s ∧
    ∀ jp, 0 < (s.table.mInodes jp).iCount := by
  obtain ⟨s, hreach, hw, -⟩ := full_and_waiting
  exact ⟨s, hw, no_idle_slot_while_waiting hreach hw⟩

/-- Process 1 drops one of its references: the slot is idle, and process 2 waits on. -/
theorem idle_slot_while_waiting :
    ¬ ∀ s : State Pid, Reaches Step anyInput (boot Pid) s → Waiting s →
      ∀ jp, 0 < (s.table.mInodes jp).iCount := by
  intro hall
  obtain ⟨s, hreach, hw, hidle, r, hr, hone, hvalid⟩ := full_and_waiting
  have hlast : lastGone (s.table.mInodes r.slot) = false := by
    rw [lastGone, hvalid, Bool.and_false, Bool.false_and]
  have hs : next s (.put 1 r) = some
      { s.set 1 ⟨(s.procs 1).held.erase r, .idle⟩ with table := decr s.table r.slot } := by
    simp only [next, if_pos (And.intro hidle hr), hlast]
    rfl
  obtain ⟨p, w, hp⟩ := hw
  have hp1 : p ≠ 1 := by
    rintro rfl
    rw [hidle] at hp
    cases hp
  have hpos := hall _ (hreach.anyInput.snoc (i := .put 1 r) trivial hs)
    ⟨p, w, (congrArg Proc.pc (set_of_ne s _ hp1)).trans hp⟩ r.slot
  have hzero : ((decr s.table r.slot).mInodes r.slot).iCount = 0 := by
    have hone : (s.table.mInodes r.slot).iCount = 1 := hone
    rw [decr, InodeTable.set_self, hone]
    rfl
  exact absurd hpos (by rw [hzero]; exact Nat.lt_irrefl 0)

end Full

end Uniks.InodeRuns
