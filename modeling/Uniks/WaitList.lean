/-
  `proc_block` and `proc_unblock_all` of `kernel/process/proc.c`.

  `blocked p` says that the state of process `p` is `TASK_BLOCK`; the other states differ only in
  what the scheduler does.  A wait list is the list of its processes, the one that came last in
  front.  The lock of the list is held throughout: a process that blocks gives it up only when it is
  on the list and in `TASK_BLOCK`, and one that is woken takes it again.  `none` is a failed
  assertion.

  `Queued` is what both functions need: everybody on a list is there once and asleep.
-/
import Mathlib.Logic.Function.Basic
import Mathlib.Data.List.Basic

namespace Uniks.WaitList

open Function (update update_self update_of_ne)

variable {Pid : Type} [DecidableEq Pid]

/-- The source's `proc_block`, up to the switch. -/
def procBlock (blocked : Pid → Bool) (waitList : List Pid) (p : Pid) :
    Option ((Pid → Bool) × List Pid) :=
  if blocked p then none else some (update blocked p true, p :: waitList)

/-- The source's `proc_unblock_all`; the list is empty afterwards. -/
def procUnblockAll (myproc : Option Pid) : List Pid → (Pid → Bool) → Option (Pid → Bool)
  | [], blocked => some blocked
  | p :: rest, blocked =>
    if blocked p = true ∧ myproc ≠ some p then
      procUnblockAll myproc rest (update blocked p false)
    else none

/-- Everybody on the list is there once, and asleep. -/
structure Queued (blocked : Pid → Bool) (waitList : List Pid) : Prop where
  nodup : waitList.Nodup
  asleep : ∀ p ∈ waitList, blocked p = true

variable {blocked : Pid → Bool} {waitList : List Pid} {p : Pid}

omit [DecidableEq Pid] in
theorem Queued.nil (blocked : Pid → Bool) : Queued blocked [] :=
  ⟨List.nodup_nil, fun _ h => (nomatch h)⟩

theorem procBlock_of_awake (h : blocked p = false) (waitList : List Pid) :
    procBlock blocked waitList p = some (update blocked p true, p :: waitList) := by
  unfold procBlock
  rw [if_neg (by rw [h]; exact Bool.false_ne_true)]

omit [DecidableEq Pid] in
/-- Who is awake is on no list. -/
theorem Queued.not_mem (h : Queued blocked waitList) (hp : blocked p = false) : p ∉ waitList := by
  intro hmem
  have hasleep := h.asleep p hmem
  rw [hp] at hasleep
  cases hasleep

/-- A process that is awake goes to the front. -/
theorem Queued.block (h : Queued blocked waitList) (hp : blocked p = false) :
    Queued (update blocked p true) (p :: waitList) := by
  have hout := h.not_mem hp
  refine ⟨List.nodup_cons.mpr ⟨hout, h.nodup⟩, fun q hq => ?_⟩
  rcases List.mem_cons.mp hq with rfl | hq
  · exact update_self ..
  · have hne : q ≠ p := fun heq => hout (heq ▸ hq)
    rw [update_of_ne hne]
    exact h.asleep q hq

/-- A list is not touched by somebody else who blocks. -/
theorem Queued.blockOther (h : Queued blocked waitList) :
    Queued (update blocked p true) waitList := by
  refine ⟨h.nodup, fun q hq => ?_⟩
  by_cases hqp : q = p
  · rw [hqp]
    exact update_self ..
  · rw [update_of_ne hqp]
    exact h.asleep q hq

/-- Who sleeps when the list has been emptied. -/
def awaken (waitList : List Pid) (blocked : Pid → Bool) (p : Pid) : Bool :=
  if p ∈ waitList then false else blocked p

theorem awaken_mem (h : p ∈ waitList) : awaken waitList blocked p = false := if_pos h

theorem awaken_not_mem (h : p ∉ waitList) : awaken waitList blocked p = blocked p := if_neg h

theorem awaken_awake (h : blocked p = false) : awaken waitList blocked p = false := by
  unfold awaken
  split
  · rfl
  · exact h

/-- Nobody on the list is the caller, who runs: all of them wake up. -/
theorem Queued.unblockAll {myproc : Option Pid} (h : Queued blocked waitList)
    (hme : ∀ p, myproc = some p → blocked p = false) :
    procUnblockAll myproc waitList blocked = some (awaken waitList blocked) := by
  induction waitList generalizing blocked with
  | nil => rfl
  | cons p rest ih =>
    have hout := (List.nodup_cons.mp h.nodup).1
    have hasleep := h.asleep p List.mem_cons_self
    have hother : myproc ≠ some p := by
      intro heq
      have hrun := hme p heq
      rw [hasleep] at hrun
      cases hrun
    have hrest : Queued (update blocked p false) rest := by
      refine ⟨(List.nodup_cons.mp h.nodup).2, fun q hq => ?_⟩
      have hne : q ≠ p := fun heq => hout (heq ▸ hq)
      rw [update_of_ne hne]
      exact h.asleep q (List.mem_cons_of_mem p hq)
    have hme' : ∀ q, myproc = some q → update blocked p false q = false := by
      intro q hq
      have hne : q ≠ p := fun heq => hother (heq ▸ hq)
      rw [update_of_ne hne]
      exact hme q hq
    unfold procUnblockAll
    rw [if_pos ⟨hasleep, hother⟩, ih hrest hme']
    apply congrArg some
    funext q
    unfold awaken
    by_cases hqp : q = p
    · subst hqp
      rw [if_neg hout, if_pos List.mem_cons_self, update_self]
    · rw [update_of_ne hqp]
      simp only [List.mem_cons, hqp, false_or]

/-- The others sleep on when one list is emptied. -/
theorem Queued.awaken (h : Queued blocked waitList) {others : List Pid}
    (hapart : ∀ p ∈ waitList, p ∉ others) : Queued (awaken others blocked) waitList := by
  refine ⟨h.nodup, fun p hp => ?_⟩
  rw [awaken_not_mem (hapart p hp)]
  exact h.asleep p hp

end Uniks.WaitList
