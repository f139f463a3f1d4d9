/-
  The process tree stays a tree.

  Every operation is read as an operation on the VIEW of the process table: parent pid, child
  list, and whether the process is a zombie.  `Family` is the invariant of a view.  Blocking,
  waking and marking a process as killed leave the view alone (`view_store`); the four operations
  that do change it are `Family.fork`, `Family.adopt` (one round of `reparent`), `Family.bury`
  (`exit` of a process whose children are gone) and `Family.reap`.

  `wait4(pid)` reaps without `list_del`, and `wait4(-1)` does `list_del` before it knows that it
  will reap: `Orderly` keeps both away, and `procTree_dangling_child` shows the first at work.
-/
import Uniks.Proc
import Uniks.Lib.ChildLists
import Uniks.Lib.Runs

namespace Uniks.Proc

open Uniks.Queue Uniks.ChildLists Uniks.Runs
open Function (update update_self update_apply update_of_ne update_eq_self)
open Option (some bind_eq_some_iff)

/-! ## What is claimed -/

/-- The process `c` is there, and its parent is `p`. -/
def IsChild (k : Kernel) (p c : Pid) : Prop := ∃ pcb, k.pcbtable c = some pcb ∧ pcb.parentpid = p

/-- Child lists agree with the parent pids, and a zombie is on the list of a process that can
    reap it. -/
structure TreeOk (k : Kernel) : Prop where
  once : ∀ p pcb c, k.pcbtable p = some pcb → IsChild k p c → pcb.childList.count c = 1
  only : ∀ p pcb c, k.pcbtable p = some pcb → ¬ IsChild k p c → c ∉ pcb.childList
  present : ∀ p pcb c, k.pcbtable p = some pcb → c ∈ pcb.childList → (k.pcbtable c).isSome
  zombie : ∀ c child, k.pcbtable c = some child → child.state = .zombie →
    ∃ p pcb, k.pcbtable p = some pcb ∧ pcb.state ≠ .zombie ∧ c ∈ pcb.childList

/-- A `wait4(-1)` by a process with a zombie on its list goes through: the process is not killed,
    and the status address is 0 or admitted. -/
def WillReap (k : Kernel) (p : Pid) (statusOk : Bool) : Prop :=
  ∀ pcb c child, k.pcbtable p = some pcb → c ∈ pcb.childList → k.pcbtable c = some child →
    child.state = .zombie → pcb.killed = false ∧ statusOk = true

/-- A `wait4(pid)` does not reap: its target is alive, or the status address is refused. -/
def WillNotReap (k : Kernel) (target : Pid) (statusOk : Bool) : Prop :=
  ∀ targetp, k.pcbtable target = some targetp → targetp.state = .zombie → statusOk = false

/-- The steps that keep the tree. -/
def Orderly (k : Kernel) : Pid × Act → Prop
  | (p, .waitAny statusOk) => WillReap k p statusOk
  | (_, .waitPid target statusOk) => WillNotReap k target statusOk
  | (p, .resume statusOk) => ∀ pcb, k.pcbtable p = some pcb →
      match pcb.pc with
      | .waitAny => WillReap k p statusOk
      | .waitPid target => WillNotReap k target statusOk
      | .dangling => False
      | .user => True
  | _ => True

/-! ## Views -/

/-- What the tree sees of a process. -/
structure View where
  parent : Pid
  children : List Pid
  zombie : Bool

def View.node (v : View) : Node Pid := ⟨v.parent, v.children⟩

def Pcb.view (pcb : Pcb) : View := ⟨pcb.parentpid, pcb.childList, decide (pcb.state = .zombie)⟩

/-- What the tree sees of a process table. -/
def view (table : Pid → Option Pcb) (p : Pid) : Option View := (table p).map Pcb.view

theorem view_of {table : Pid → Option Pcb} {p : Pid} {pcb : Pcb} (h : table p = some pcb) :
    view table p = some pcb.view := by
  rw [view, h, Option.map_some]

theorem view_update (table : Pid → Option Pcb) (p : Pid) (pcb : Pcb) :
    view (update table p (some pcb)) = update (view table) p (some pcb.view) := by
  funext q
  by_cases hq : q = p
  · subst hq
    rw [view, update_self, update_self, Option.map_some]
  · rw [view, update_of_ne hq, update_of_ne hq, view]

/-- Storing a process that looks the same changes nothing. -/
theorem view_store {table : Pid → Option Pcb} {p : Pid} {pcb pcb' : Pcb}
    (h : table p = some pcb) (hview : pcb'.view = pcb.view) :
    view (update table p (some pcb')) = view table := by
  rw [view_update, hview, ← view_of h]
  exact update_eq_self p (view table)

/-- The parents and children of a view. -/
def tree (v : Pid → Option View) (p : Pid) : Option (Node Pid) := (v p).map View.node

theorem tree_of {v : Pid → Option View} {p : Pid} {x : View} (h : v p = some x) :
    tree v p = some x.node := by
  rw [tree, h, Option.map_some]

theorem tree_update (v : Pid → Option View) (p : Pid) (x : Option View) :
    tree (update v p x) = update (tree v) p (x.map View.node) := by
  funext q
  by_cases hq : q = p
  · subst hq
    rw [tree, update_self, update_self]
  · rw [tree, update_of_ne hq, update_of_ne hq, tree]

/-! ## The invariant of a view -/

/-- A process that is there and no zombie. -/
def Alive (v : Pid → Option View) (p : Pid) : Prop := ∃ x, v p = some x ∧ x.zombie = false

/-- Lists and parent fields agree; the first process is never a zombie; every other process has
    a parent that is no zombie, and is not its own parent. -/
structure Family (v : Pid → Option View) : Prop where
  linked : Linked (tree v)
  idle : v 0 = none
  init : ∃ x, v INIT = some x ∧ x.zombie = false ∧ x.parent = 0
  parent : ∀ c x, v c = some x → c ≠ INIT → x.parent ≠ c ∧ Alive v x.parent

variable {v v' : Pid → Option View} {p c g : Pid} {cs ccs : List Pid} {z zc : Bool}

theorem childOf_iff {q x : Pid} : ChildOf (tree v) q x ↔ ∃ y, v x = some y ∧ y.parent = q := by
  unfold ChildOf tree
  constructor
  · rintro ⟨n, hn, hq⟩
    obtain ⟨y, hy, rfl⟩ := Option.map_eq_some_iff.mp hn
    exact ⟨y, hy, hq⟩
  · rintro ⟨y, hy, hq⟩
    exact ⟨y.node, by rw [hy, Option.map_some], hq⟩

theorem Family.pos (h : Family v) {x : View} (hp : v p = some x) : p ≠ 0 := by
  rintro rfl
  rw [h.idle] at hp
  cases hp

/-- Whoever is named as a parent is alive. -/
theorem Family.alive_parent (h : Family v) (hp : p ≠ 0) (hchild : ChildOf (tree v) p c) :
    Alive v p := by
  rw [childOf_iff] at hchild
  obtain ⟨y, hy, rfl⟩ := hchild
  by_cases hc : c = INIT
  · subst hc
    obtain ⟨x, hx, -, hzero⟩ := h.init
    cases hx.symm.trans hy
    exact absurd hzero hp
  · exact (h.parent c y hy hc).2

theorem Family.mem_iff (h : Family v) {x : View} (hp : v p = some x) :
    c ∈ x.children ↔ ∃ y, v c = some y ∧ y.parent = p := by
  rw [← childOf_iff]
  exact h.linked.mem_iff (tree_of hp)

/-- A process on a child list is not its own parent, and not the first process. -/
theorem Family.child_ne (h : Family v) {x : View} (hp : v p = some x) (hmem : c ∈ x.children) :
    c ≠ p ∧ c ≠ INIT := by
  obtain ⟨y, hy, hparent⟩ := (h.mem_iff hp).mp hmem
  have hinit : c ≠ INIT := by
    rintro rfl
    obtain ⟨i, hi, -, hzero⟩ := h.init
    cases hi.symm.trans hy
    exact h.pos hp (hparent.symm.trans hzero)
  refine ⟨?_, hinit⟩
  rintro rfl
  exact (h.parent c y hy hinit).1 hparent

/-- How an operation keeps the invariant: the parents that were in use stay alive, and a process
    that is there afterwards had its parent before or gets one that is alive. -/
theorem Family.step (h : Family v) (hlinked : Linked (tree v')) (hidle : v' 0 = none)
    (hinit : ∃ x, v' INIT = some x ∧ x.zombie = false ∧ x.parent = 0)
    (hkeep : ∀ q c, ChildOf (tree v) q c → Alive v q → Alive v' q)
    (hfrom : ∀ c x', v' c = some x' →
      (∃ x, v c = some x ∧ x.parent = x'.parent) ∨ (x'.parent ≠ c ∧ Alive v' x'.parent)) :
    Family v' := by
  refine ⟨hlinked, hidle, hinit, fun c x' hc hci => ?_⟩
  rcases hfrom c x' hc with ⟨x, hx, hpar⟩ | hnew
  · obtain ⟨hself, halive⟩ := h.parent c x hx hci
    rw [← hpar]
    exact ⟨hself, hkeep _ c (childOf_iff.mpr ⟨x, hx, rfl⟩) halive⟩
  · exact hnew

/-- A new process under a process that is no zombie. -/
theorem Family.fork (h : Family v) (hp : v p = some ⟨g, cs, false⟩) (hc : v c = none)
    (hzero : c ≠ 0) :
    Family (update (update v c (some ⟨p, [], false⟩)) p
      (some ⟨g, c :: cs, false⟩)) := by
  have hne : c ≠ p := by
    rintro rfl
    rw [hp] at hc
    cases hc
  have hnochild : ∀ x, ¬ ChildOf (tree v) c x := by
    intro x hx
    obtain ⟨y, hy, -⟩ := h.alive_parent hzero hx
    rw [hc] at hy
    cases hy
  have hlook : ∀ q, update (update v c (some ⟨p, [], false⟩)) p
      (some ⟨g, c :: cs, false⟩) q
      = if q = p then some ⟨g, c :: cs, false⟩ else if q = c then some ⟨p, [], false⟩ else v q := by
    intro q
    rw [update_apply, update_apply]
  have halive : Alive (update (update v c (some ⟨p, [], false⟩)) p
      (some ⟨g, c :: cs, false⟩)) p := ⟨_, update_self .., rfl⟩
  refine h.step ?_ ?_ ?_ ?_ ?_
  · rw [tree_update, tree_update]
    refine h.linked.spawn (tree_of hp) ?_ hnochild
    rw [tree, hc, Option.map_none]
  · rw [hlook, if_neg (Ne.symm (h.pos hp)), if_neg (Ne.symm hzero)]
    exact h.idle
  · obtain ⟨i, hi, hz, hpar⟩ := h.init
    rw [hlook]
    split
    · rename_i hip
      rw [hip, hp] at hi
      cases hi
      exact ⟨_, rfl, rfl, hpar⟩
    · split
      · rename_i hic
        rw [hic, hc] at hi
        cases hi
      · exact ⟨i, hi, hz, hpar⟩
  · rintro q - - ⟨y, hy, hz⟩
    unfold Alive
    rw [hlook]
    split
    · exact ⟨_, rfl, rfl⟩
    · split
      · exact ⟨_, rfl, rfl⟩
      · exact ⟨y, hy, hz⟩
  · intro q x' hq
    rw [hlook] at hq
    split at hq
    · rename_i hqp
      cases hq
      exact .inl ⟨⟨g, cs, false⟩, hqp ▸ hp, rfl⟩
    · split at hq
      · rename_i hqc
        cases hq
        exact .inr ⟨hqc ▸ Ne.symm hne, halive⟩
      · exact .inl ⟨x', hq, rfl⟩

/-- The first child of `p` goes to the first process. -/
theorem Family.adopt (h : Family v) {is : List Pid} (hp : v p = some ⟨g, c :: cs, z⟩)
    (hi : v INIT = some ⟨0, is, false⟩) (hc : v c = some ⟨p, ccs, zc⟩) (hpi : p ≠ INIT) :
    Family (update (update (update v p (some ⟨g, cs, z⟩)) INIT
      (some ⟨0, c :: is, false⟩)) c (some ⟨INIT, ccs, zc⟩)) := by
  obtain ⟨hcp, hci⟩ := h.child_ne hp List.mem_cons_self
  have hlook : ∀ q, update (update (update v p (some ⟨g, cs, z⟩)) INIT
      (some ⟨0, c :: is, false⟩)) c (some ⟨INIT, ccs, zc⟩) q
      = if q = c then some ⟨INIT, ccs, zc⟩ else if q = INIT then some ⟨0, c :: is, false⟩
        else if q = p then some ⟨g, cs, z⟩ else v q := by
    intro q
    rw [update_apply, update_apply, update_apply]
  have hinit := hlook INIT
  rw [if_neg (Ne.symm hci), if_pos rfl] at hinit
  refine h.step ?_ ?_ ⟨_, hinit, rfl, rfl⟩ ?_ ?_
  · rw [tree_update, tree_update, tree_update]
    have hnode : tree v c = some ⟨p, ccs⟩ := tree_of hc
    exact h.linked.adopt (tree_of hp) (tree_of hi) hnode hpi hcp hci
  · rw [hlook, if_neg (Ne.symm (h.pos hc)), if_neg (Ne.symm (h.pos hi)),
      if_neg (Ne.symm (h.pos hp))]
    exact h.idle
  · rintro q - - ⟨y, hy, hz⟩
    unfold Alive
    rw [hlook]
    split
    · rename_i hqc
      rw [hqc, hc] at hy
      cases hy
      exact ⟨_, rfl, hz⟩
    · split
      · exact ⟨_, rfl, rfl⟩
      · split
        · rename_i hqp
          rw [hqp, hp] at hy
          cases hy
          exact ⟨_, rfl, hz⟩
        · exact ⟨y, hy, hz⟩
  · intro q x' hq
    rw [hlook] at hq
    split at hq
    · rename_i hqc
      cases hq
      exact .inr ⟨hqc ▸ Ne.symm hci, _, hinit, rfl⟩
    · split at hq
      · rename_i hqi
        cases hq
        exact .inl ⟨⟨0, is, false⟩, hqi ▸ hi, rfl⟩
      · split at hq
        · rename_i hqp
          cases hq
          exact .inl ⟨⟨g, c :: cs, z⟩, hqp ▸ hp, rfl⟩
        · exact .inl ⟨x', hq, rfl⟩

/-- A process without children becomes a zombie. -/
theorem Family.bury (h : Family v) (hp : v p = some ⟨g, [], z⟩) (hpi : p ≠ INIT) :
    Family (update v p (some ⟨g, [], true⟩)) := by
  have hnochild : ∀ x, ¬ ChildOf (tree v) p x := by
    intro x hx
    exact absurd ((h.linked.mem_iff (tree_of hp)).mpr hx) List.not_mem_nil
  refine h.step ?_ ?_ ?_ ?_ ?_
  · have hsame : tree (update v p (some ⟨g, [], true⟩)) = tree v := by
      rw [tree_update]
      exact (congrArg (update (tree v) p) (tree_of hp).symm).trans
        (update_eq_self p (tree v))
    rw [hsame]
    exact h.linked
  · rw [update_of_ne (Ne.symm (h.pos hp))]
    exact h.idle
  · rw [update_of_ne (Ne.symm hpi)]
    exact h.init
  · rintro q x hx ⟨y, hy, hz⟩
    have hqp : q ≠ p := by
      rintro rfl
      exact hnochild x hx
    exact ⟨y, by rw [update_of_ne hqp, hy], hz⟩
  · intro q x' hq
    by_cases hqp : q = p
    · subst hqp
      rw [update_self] at hq
      cases hq
      exact .inl ⟨_, hp, rfl⟩
    · rw [update_of_ne hqp] at hq
      exact .inl ⟨x', hq, rfl⟩

/-- A zombie leaves its parent's list and the table. -/
theorem Family.reap (h : Family v) (hp : v p = some ⟨g, cs, z⟩) (hc : v c = some ⟨p, ccs, true⟩)
    (hmem : c ∈ cs) :
    Family (update (update v p (some ⟨g, cs.erase c, z⟩)) c none) := by
  obtain ⟨hcp, hci⟩ := h.child_ne hp hmem
  have hlook : ∀ q, update (update v p (some ⟨g, cs.erase c, z⟩)) c none q
      = if q = c then none else if q = p then some ⟨g, cs.erase c, z⟩ else v q := by
    intro q
    rw [update_apply, update_apply]
  refine h.step ?_ ?_ ?_ ?_ ?_
  · rw [tree_update, tree_update]
    exact h.linked.remove (tree_of hp) (tree_of hc) (childOf_iff.mpr ⟨_, hc, rfl⟩) hcp
  · rw [hlook, if_neg (Ne.symm (h.pos hc)), if_neg (Ne.symm (h.pos hp))]
    exact h.idle
  · obtain ⟨i, hi, hz, hpar⟩ := h.init
    rw [hlook, if_neg (Ne.symm hci)]
    split
    · rename_i hip
      rw [hip, hp] at hi
      cases hi
      exact ⟨_, rfl, hz, hpar⟩
    · exact ⟨i, hi, hz, hpar⟩
  · rintro q - - ⟨y, hy, hz⟩
    have hqc : q ≠ c := by
      rintro rfl
      cases hc.symm.trans hy
      cases hz
    unfold Alive
    rw [hlook, if_neg hqc]
    split
    · rename_i hqp
      rw [hqp, hp] at hy
      cases hy
      exact ⟨_, rfl, hz⟩
    · exact ⟨y, hy, hz⟩
  · intro q x' hq
    rw [hlook] at hq
    split at hq
    · cases hq
    · split at hq
      · rename_i hqp
        cases hq
        exact .inl ⟨⟨g, cs, z⟩, hqp ▸ hp, rfl⟩
      · exact .inl ⟨x', hq, rfl⟩

/-! ## The invariant of the kernel -/

/-- The table is a family, and the queue holds pids that are not in use, each at most once. -/
structure TreeInv (k : Kernel) : Prop where
  family : Family (view k.pcbtable)
  pids : ∃ xs, Holds k.pidsQueue xs ∧ xs.Nodup ∧ ∀ x ∈ xs, view k.pcbtable x = none ∧ x ≠ 0

/-- Two states that differ in nothing the tree sees. -/
structure Same (k k' : Kernel) : Prop where
  table : view k'.pcbtable = view k.pcbtable
  queue : k'.pidsQueue = k.pidsQueue

theorem Same.refl (k : Kernel) : Same k k := ⟨rfl, rfl⟩

theorem Same.trans {k k' k'' : Kernel} (h : Same k k') (h' : Same k' k'') : Same k k'' :=
  ⟨h'.table.trans h.table, h'.queue.trans h.queue⟩

theorem Same.store {k : Kernel} {p : Pid} {pcb pcb' : Pcb} (h : k.pcbtable p = some pcb)
    (hview : pcb'.view = pcb.view) : Same k (k.set p pcb') :=
  ⟨view_store h hview, rfl⟩

theorem TreeInv.same {k k' : Kernel} (h : TreeInv k) (hs : Same k k') : TreeInv k' := by
  constructor
  · rw [hs.table]
    exact h.family
  · rw [hs.table, hs.queue]
    exact h.pids

/-- The queue stays in order when no process comes into being. -/
theorem TreeInv.retable {k k' : Kernel} (h : TreeInv k) (hf : Family (view k'.pcbtable))
    (hq : k'.pidsQueue = k.pidsQueue)
    (habs : ∀ x, view k.pcbtable x = none → view k'.pcbtable x = none) : TreeInv k' := by
  obtain ⟨xs, hholds, hnodup, hfree⟩ := h.pids
  refine ⟨hf, xs, by rw [hq]; exact hholds, hnodup, fun x hx => ?_⟩
  exact ⟨habs x (hfree x hx).1, (hfree x hx).2⟩

theorem view_some {k : Kernel} {p : Pid} {x : View} (h : view k.pcbtable p = some x) :
    ∃ pcb, k.pcbtable p = some pcb ∧ pcb.view = x := Option.map_eq_some_iff.mp h

/-- A state of a process that is not `zombie` shows as such. -/
theorem view_alive (pcb : Pcb) (h : pcb.state ≠ .zombie) :
    pcb.view = ⟨pcb.parentpid, pcb.childList, false⟩ := by
  rw [Pcb.view, decide_eq_false h]

theorem doFork_inv {k k' : Kernel} {p : Pid} (h : TreeInv k) (hrun : RunsAt k p .user)
    (hstep : doFork k p = some k') : TreeInv k' := by
  obtain ⟨pcb, hp, hready, -⟩ := hrun
  unfold doFork at hstep
  rw [hp] at hstep
  obtain ⟨xs, hholds, hnodup, hfree⟩ := h.pids
  simp only [Option.bind_eq_bind, Option.bind_some] at hstep
  split at hstep
  · cases hstep
    exact h
  · rename_i hne
    cases xs with
    | nil => exact absurd (hholds.queueEmpty_iff.mpr rfl) hne
    | cons c xs =>
      rw [hholds.front] at hstep
      obtain ⟨q, hpop, hk⟩ := bind_eq_some_iff.mp hstep
      cases hk
      obtain ⟨hholds', -⟩ := hholds.frontPop hpop
      obtain ⟨hfresh, hzero⟩ := hfree c List.mem_cons_self
      have hnot : pcb.state ≠ .zombie := by
        rw [hready]
        decide
      have hview := view_of hp
      rw [view_alive _ hnot] at hview
      have hfamily := h.family.fork hview hfresh hzero
      have hnew : view (update (update k.pcbtable c (some (freshPcb p))) p
          (some { pcb with childList := c :: pcb.childList }))
          = update (update (view k.pcbtable) c (some ⟨p, [], false⟩)) p
            (some ⟨pcb.parentpid, c :: pcb.childList, false⟩) := by
        rw [view_update, view_update, view_alive { pcb with childList := c :: pcb.childList } hnot]
        rfl
      refine ⟨?_, xs, hholds', hnodup.of_cons, fun x hx => ?_⟩
      · show Family (view (update (update k.pcbtable c (some (freshPcb p))) p _))
        rw [hnew]
        exact hfamily
      · obtain ⟨hxfree, hxzero⟩ := hfree x (List.mem_cons_of_mem c hx)
        refine ⟨?_, hxzero⟩
        show view (update (update k.pcbtable c (some (freshPcb p))) p _) x = none
        rw [hnew, update_of_ne, update_of_ne]
        · exact hxfree
        · rintro rfl
          exact (List.nodup_cons.mp hnodup).1 hx
        · rintro rfl
          rw [hview] at hxfree
          cases hxfree

/-- The loop of `reparent`, on a process whose list is the one the loop goes through. -/
theorem reparentLoop_inv {p : Pid} (hpi : p ≠ INIT) (cs : List Pid) {k k' : Kernel} {pcb : Pcb}
    (h : TreeInv k) (hp : k.pcbtable p = some pcb) (hcs : pcb.childList = cs)
    (hloop : reparentLoop p cs k = some k') :
    TreeInv k' ∧ ∃ pcb', k'.pcbtable p = some pcb' ∧ pcb'.childList = [] := by
  induction cs generalizing k pcb with
  | nil =>
    cases hloop
    exact ⟨h, pcb, hp, hcs⟩
  | cons c cs ih =>
    rw [reparentLoop, hp] at hloop
    simp only [Option.bind_eq_bind, Option.bind_some, Kernel.set_pcbtable] at hloop
    have hview := view_of hp
    rw [Pcb.view, hcs] at hview
    obtain ⟨hcp, hci⟩ := h.family.child_ne hview List.mem_cons_self
    rw [update_of_ne hcp] at hloop
    obtain ⟨child, hc, hloop⟩ := bind_eq_some_iff.mp hloop
    split at hloop
    · rename_i hparent
      rw [update_of_ne (Ne.symm hpi)] at hloop
      obtain ⟨init, hi, hloop⟩ := bind_eq_some_iff.mp hloop
      obtain ⟨x, hx, halive, hzero⟩ := h.family.init
      obtain rfl := some.inj ((view_of hi).symm.trans hx)
      have hnot : init.state ≠ .zombie := of_decide_eq_false halive
      have hiview := view_of hi
      rw [view_alive _ hnot] at hiview
      change init.parentpid = 0 at hzero
      rw [hzero] at hiview
      have hcview := view_of hc
      rw [Pcb.view, hparent] at hcview
      have hfamily := h.family.adopt hview hiview hcview hpi
      -- the table after one round, and what the tree sees of it
      have hnew : view (update (update (update k.pcbtable p
          (some { pcb with childList := cs })) INIT (some { init with
            childList := c :: init.childList
            state := if init.w4child then .ready else init.state })) c
          (some { child with parentpid := INIT }))
          = update (update (update (view k.pcbtable) p
            (some ⟨pcb.parentpid, cs, decide (pcb.state = .zombie)⟩)) INIT
            (some ⟨0, c :: init.childList, false⟩)) c
            (some ⟨INIT, child.childList, decide (child.state = .zombie)⟩) := by
        rw [view_update, view_update, view_update]
        have hstate : (if init.w4child then TaskState.ready else init.state) ≠ .zombie := by
          split
          · decide
          · exact hnot
        rw [view_alive { init with
            childList := c :: init.childList
            state := if init.w4child then .ready else init.state } hstate, hzero]
        rfl
      have hrest : update (update (update k.pcbtable p
          (some { pcb with childList := cs })) INIT (some { init with
            childList := c :: init.childList
            state := if init.w4child then .ready else init.state })) c
          (some { child with parentpid := INIT }) p = some { pcb with childList := cs } := by
        rw [update_of_ne (Ne.symm hcp), update_of_ne hpi, update_self]
      refine ih ?_ hrest rfl hloop
      · refine h.retable (by rw [← hnew] at hfamily; exact hfamily) rfl fun x hx => ?_
        show view (update (update (update k.pcbtable p _) INIT _) c _) x
          = none
        rw [hnew, update_of_ne, update_of_ne, update_of_ne]
        · exact hx
        · rintro rfl
          rw [hview] at hx
          cases hx
        · rintro rfl
          rw [hiview] at hx
          cases hx
        · rintro rfl
          rw [hcview] at hx
          cases hx
    · cases hloop

theorem unblockAll_same {ws : List Pid} {k k' : Kernel} (h : unblockAll ws k = some k') :
    Same k k' := by
  induction ws generalizing k with
  | nil =>
    obtain rfl := some.inj h
    exact Same.refl k
  | cons w ws ih =>
    rw [unblockAll] at h
    obtain ⟨pcb, hw, h⟩ := bind_eq_some_iff.mp h
    split at h
    · rename_i hblock
      have hview : ({ pcb with state := .ready } : Pcb).view = pcb.view := by
        rw [Pcb.view, Pcb.view, hblock]
        rfl
      exact (Same.store hw hview).trans (ih h)
    · cases h

/-- Whoever `exit` wakes looks the same afterwards: the parent of a process is no zombie. -/
theorem exitWake_same {k k' : Kernel} {p : Pid} (h : TreeInv k) (hpi : p ≠ INIT)
    (hwake : exitWake k p = some k') : Same k k' := by
  unfold exitWake at hwake
  obtain ⟨pcb, hp, hwake⟩ := bind_eq_some_iff.mp hwake
  obtain ⟨k₁, hunblock, hwake⟩ := bind_eq_some_iff.mp hwake
  have hstore : Same k (k.set p { pcb with waitList := [] }) := Same.store hp rfl
  have hsame := hstore.trans (unblockAll_same hunblock)
  split at hwake
  · obtain ⟨parentp, hparent, hwake⟩ := bind_eq_some_iff.mp hwake
    split at hwake
    · cases hwake
      obtain ⟨-, x, hx, halive⟩ := h.family.parent p pcb.view (view_of hp) hpi
      have hseen := view_of hparent
      rw [hsame.table] at hseen
      cases hseen.symm.trans hx
      have hnot : parentp.state ≠ .zombie := of_decide_eq_false halive
      refine hsame.trans (Same.store hparent ?_)
      rw [view_alive _ hnot]
      rfl
    · cases hwake
      exact hsame
  · cases hwake
    exact hsame

theorem doExit_inv {k k' : Kernel} {p : Pid} {status : Int} (h : TreeInv k)
    (hexit : doExit k p status = some k') : TreeInv k' := by
  unfold doExit at hexit
  split at hexit
  · rename_i hgt
    have hpi : p ≠ INIT := by
      rintro rfl
      exact absurd hgt (by decide)
    obtain ⟨k₁, hreparent, hexit⟩ := bind_eq_some_iff.mp hexit
    obtain ⟨pcb₁, hp₁, hexit⟩ := bind_eq_some_iff.mp hexit
    obtain ⟨pcb, hp, hloop⟩ := bind_eq_some_iff.mp hreparent
    obtain ⟨h₁, pcb', hp', hnil⟩ := reparentLoop_inv hpi _ h hp rfl hloop
    cases hp₁.symm.trans hp'
    have hview := view_of hp₁
    rw [Pcb.view, hnil] at hview
    have hfamily := h₁.family.bury hview hpi
    have hnew : view (update k₁.pcbtable p
        (some { pcb₁ with exitstate := status, state := .zombie }))
        = update (view k₁.pcbtable) p (some ⟨pcb₁.parentpid, [], true⟩) := by
      rw [view_update, Pcb.view, hnil]
      rfl
    have hburied : TreeInv (k₁.set p { pcb₁ with exitstate := status, state := .zombie }) := by
      refine h₁.retable (by rw [← hnew] at hfamily; exact hfamily) rfl fun x hx => ?_
      show view (update k₁.pcbtable p _) x = none
      rw [hnew, update_of_ne]
      · exact hx
      · rintro rfl
        rw [hview] at hx
        cases hx
    exact hburied.same (exitWake_same hburied hpi hexit)
  · cases hexit

/-! ## Wait -/

/-- What the scan finds is on the list, is a child, and is a zombie. -/
theorem findZombie_spec {k : Kernel} {p c : Pid} {cs : List Pid}
    (h : findZombie k p cs = some (some c)) :
    c ∈ cs ∧ ∃ child, k.pcbtable c = some child ∧ child.parentpid = p ∧ child.state = .zombie := by
  induction cs with
  | nil => cases h
  | cons x xs ih =>
    rw [findZombie] at h
    obtain ⟨child, hx, h⟩ := bind_eq_some_iff.mp h
    split at h
    · rename_i hparent
      split at h
      · rename_i hzombie
        cases some.inj h
        exact ⟨List.mem_cons_self, child, hx, hparent, hzombie⟩
      · obtain ⟨hmem, hspec⟩ := ih h
        exact ⟨List.mem_cons_of_mem x hmem, hspec⟩
    · cases h

/-- A pointer that begins to dangle is nothing the tree sees. -/
theorem dangle_view (c : Pid) (pcb : Pcb) : (dangle c pcb).view = pcb.view := by
  unfold dangle
  split
  · rfl
  · rfl

theorem view_reap (table : Pid → Option Pcb) (c : Pid) :
    view (update (fun p => (table p).map (dangle c)) c none)
      = update (view table) c none := by
  funext q
  by_cases hq : q = c
  · subst hq
    rw [view, update_self, update_self, Option.map_none]
  · rw [view, update_of_ne hq, update_of_ne hq, view, Option.map_map]
    congr 1
    funext pcb
    exact dangle_view c pcb

/-- A zombie that has left its parent's list is freed. -/
theorem reap_inv {k k' : Kernel} {p c : Pid} {pcb child pcb' : Pcb} (h : TreeInv k)
    (hp : k.pcbtable p = some pcb) (hc : k.pcbtable c = some child) (hparent : child.parentpid = p)
    (hzombie : child.state = .zombie) (hmem : c ∈ pcb.childList)
    (hview : pcb'.view = ⟨pcb.parentpid, pcb.childList.erase c, decide (pcb.state = .zombie)⟩)
    (hreap : reap (k.set p pcb') c = some k') : TreeInv k' := by
  have hpview := view_of hp
  rw [Pcb.view] at hpview
  have hcview := view_of hc
  rw [Pcb.view, hparent, hzombie, decide_eq_true rfl] at hcview
  have hfamily := h.family.reap hpview hcview hmem
  obtain ⟨-, hci⟩ := h.family.child_ne hpview hmem
  obtain ⟨q, hpush, hk⟩ := bind_eq_some_iff.mp hreap
  cases hk
  obtain ⟨xs, hholds, hnodup, hfree⟩ := h.pids
  obtain ⟨hholds', -⟩ := hholds.push hpush
  have hnew : view (update (fun p' => ((k.set p pcb').pcbtable p').map (dangle c)) c none)
      = update (update (view k.pcbtable) p
        (some ⟨pcb.parentpid, pcb.childList.erase c, decide (pcb.state = .zombie)⟩)) c none := by
    rw [view_reap, Kernel.set_pcbtable, view_update, hview]
  refine ⟨?_, xs ++ [c], hholds', ?_, fun x hx => ?_⟩
  · show Family (view (update (fun p' => ((k.set p pcb').pcbtable p').map (dangle c)) c none))
    rw [hnew]
    exact hfamily
  · -- the pid was in use, so it was not in the queue
    refine List.nodup_append.mpr ⟨hnodup, List.pairwise_singleton .., fun x hx y hy hxy => ?_⟩
    rw [hxy, List.mem_singleton.mp hy] at hx
    have hnone := (hfree c hx).1
    rw [hcview] at hnone
    cases hnone
  · show view (update (fun p' => ((k.set p pcb').pcbtable p').map (dangle c)) c none) x
      = none ∧ x ≠ 0
    rw [hnew]
    by_cases hxc : x = c
    · subst hxc
      exact ⟨update_self .., h.family.pos hcview⟩
    · have hx' : x ∈ xs := by
        rcases List.mem_append.mp hx with hx | hx
        · exact hx
        · exact absurd (List.mem_singleton.mp hx) hxc
      obtain ⟨hxfree, hxzero⟩ := hfree x hx'
      refine ⟨?_, hxzero⟩
      rw [update_of_ne hxc, update_of_ne]
      · exact hxfree
      · rintro rfl
        rw [hpview] at hxfree
        cases hxfree

theorem waitAny_inv {k k' : Kernel} {p : Pid} {statusOk : Bool} (h : TreeInv k)
    (hready : ∀ pcb, k.pcbtable p = some pcb → pcb.state = .ready)
    (hwill : WillReap k p statusOk) (hwait : waitAny k p statusOk = some k') : TreeInv k' := by
  unfold waitAny at hwait
  obtain ⟨pcb, hp, hwait⟩ := bind_eq_some_iff.mp hwait
  obtain ⟨found, hfound, hwait⟩ := bind_eq_some_iff.mp hwait
  cases found with
  | some c =>
    obtain ⟨hmem, child, hc, hparent, hzombie⟩ := findZombie_spec hfound
    obtain ⟨hkilled, hok⟩ := hwill pcb c child hp hmem hc hzombie
    simp only [hkilled, hok, Bool.false_eq_true, if_false, if_true] at hwait
    exact reap_inv h hp hc hparent hzombie hmem rfl hwait
  | none =>
    simp only at hwait
    split at hwait
    · cases hwait
      exact h.same (Same.store hp rfl)
    · cases hwait
      have hview : ({ pcb with w4child := true, state := .block, pc := .waitAny } : Pcb).view
          = pcb.view := by
        rw [Pcb.view, Pcb.view, hready pcb hp]
        rfl
      exact h.same (Same.store hp hview)

theorem waitPid_inv {k k' : Kernel} {p target : Pid} {statusOk : Bool} (h : TreeInv k)
    (hready : ∀ pcb, k.pcbtable p = some pcb → pcb.state = .ready)
    (hwill : WillNotReap k target statusOk) (hwait : waitPid k p target statusOk = some k') :
    TreeInv k' := by
  unfold waitPid at hwait
  obtain ⟨targetp, ht, hwait⟩ := bind_eq_some_iff.mp hwait
  split at hwait
  · rename_i hzombie
    obtain ⟨pcb, hp, hwait⟩ := bind_eq_some_iff.mp hwait
    rw [hwill targetp ht hzombie] at hwait
    cases hwait
    exact h.same (Same.store hp rfl)
  · have hsame : Same k (k.set target { targetp with waitList := p :: targetp.waitList }) :=
      Same.store ht rfl
    obtain ⟨pcb, hp, hwait⟩ := bind_eq_some_iff.mp hwait
    cases hwait
    refine h.same (hsame.trans (Same.store hp ?_))
    have hnot : pcb.state = .ready := by
      by_cases hpt : p = target
      · subst hpt
        rw [Kernel.set_pcbtable, update_self] at hp
        cases hp
        exact hready targetp ht
      · rw [Kernel.set_pcbtable, update_of_ne hpt] at hp
        exact hready pcb hp
    rw [Pcb.view, Pcb.view, hnot]
    rfl

theorem RunsAt.ready {k : Kernel} {p : Pid} {pc : Pc} (h : RunsAt k p pc) (pcb : Pcb)
    (hp : k.pcbtable p = some pcb) : pcb.state = .ready := by
  obtain ⟨pcb', hp', hready, -⟩ := h
  cases hp.symm.trans hp'
  exact hready

/-- One orderly step. -/
theorem TreeInv.step {k k' : Kernel} {i : Pid × Act} (h : TreeInv k) (hc : Orderly k i)
    (hs : Step k i k') : TreeInv k' := by
  cases hs with
  | fork hrun hfork => exact doFork_inv h hrun hfork
  | exit _ hexit => exact doExit_inv h hexit
  | waitAny hrun hwait => exact waitAny_inv h hrun.ready hc hwait
  | @waitPid p target statusOk _ hrun hwait =>
    unfold sysWait4 at hwait
    split at hwait
    · cases hwait
      exact h
    · split at hwait
      · cases hwait
        exact h
      · exact waitPid_inv h hrun.ready hc hwait
  | @resumeAny p statusOk _ hrun hresume =>
    obtain ⟨pcb, hp, hready, hpc⟩ := hrun
    unfold resume at hresume
    rw [hp] at hresume
    have hround : waitAny (k.set p { pcb with w4child := false }) p statusOk = some k' := by
      rw [Option.bind_eq_bind, Option.bind_some] at hresume
      split at hresume
      · exact hresume
      · rename_i hother
        exact nomatch hpc.symm.trans hother
      · cases hresume
    have hsame : Same k (k.set p { pcb with w4child := false }) := Same.store hp rfl
    have hwill : WillReap (k.set p { pcb with w4child := false }) p statusOk := by
      intro pcb' c child hp' hmem hc' hzombie
      rw [Kernel.set_pcbtable, update_self] at hp'
      cases hp'
      have hcp : c ≠ p := by
        rintro rfl
        rw [Kernel.set_pcbtable, update_self] at hc'
        cases hc'
        exact nomatch hready.symm.trans hzombie
      rw [Kernel.set_pcbtable, update_of_ne hcp] at hc'
      have horderly := hc pcb hp
      rw [hpc] at horderly
      exact horderly pcb c child hp hmem hc' hzombie
    refine waitAny_inv (h.same hsame) (fun pcb' hp' => ?_) hwill hround
    rw [Kernel.set_pcbtable, update_self] at hp'
    cases hp'
    exact hready
  | @resumePid p target statusOk _ hrun hresume =>
    obtain ⟨pcb, hp, hready, hpc⟩ := id hrun
    unfold resume at hresume
    rw [hp] at hresume
    simp only [Option.bind_eq_bind, Option.bind_some, hpc] at hresume
    have hwill := hc pcb hp
    rw [hpc] at hwill
    exact waitPid_inv h hrun.ready hwill hresume
  | resumeDangling hrun =>
    obtain ⟨pcb, hp, -, hpc⟩ := hrun
    have hno := hc pcb hp
    rw [hpc] at hno
    exact hno.elim
  | setkilled _ hkill =>
    obtain ⟨pcb, hp, hkill⟩ := bind_eq_some_iff.mp hkill
    cases hkill
    exact h.same (Same.store hp rfl)

/-! ## The state after boot -/

theorem Booted.inv {k : Kernel} (h : Booted k) : TreeInv k := by
  have hnodup : (List.finRange NPROC).tail.tail.Nodup := (List.nodup_finRange NPROC).tail.tail
  have hpids : ∀ x ∈ (List.finRange NPROC).tail.tail, x ≠ 0 ∧ x ≠ INIT := by decide
  have hview : view k.pcbtable = update (fun _ => none) INIT (some ⟨0, [], false⟩) := by
    rw [h.init, view_update]
    rfl
  have hother : ∀ p, p ≠ INIT → view k.pcbtable p = none := by
    intro p hp
    rw [hview, update_of_ne hp]
  have honly : ∀ p x, view k.pcbtable p = some x → p = INIT ∧ x = ⟨0, [], false⟩ := by
    intro p x hx
    by_cases hp : p = INIT
    · subst hp
      rw [hview, update_self] at hx
      exact ⟨rfl, (some.inj hx).symm⟩
    · rw [hother p hp] at hx
      cases hx
  refine ⟨⟨?_, ?_, ?_, ?_⟩, _, holds_of_boot h.queue, hnodup, fun x hx => ?_⟩
  · refine Linked.of_count fun p n c hp => .inr ?_
    obtain ⟨x, hx, rfl⟩ := Option.map_eq_some_iff.mp hp
    obtain ⟨rfl, rfl⟩ := honly p x hx
    refine ⟨?_, List.count_nil⟩
    rw [childOf_iff]
    rintro ⟨y, hy, hparent⟩
    obtain ⟨-, rfl⟩ := honly c y hy
    exact absurd hparent (by decide)
  · exact hother 0 (by decide)
  · exact ⟨_, by rw [hview, update_self], rfl, rfl⟩
  · intro c x hc hci
    exact absurd (honly c x hc).1 hci
  · obtain ⟨hzero, hinit⟩ := hpids x hx
    exact ⟨hother x hinit, hzero⟩

/-! ## The claim -/

theorem TreeInv.treeOk {k : Kernel} (h : TreeInv k) : TreeOk k := by
  have hmem : ∀ p pcb c, k.pcbtable p = some pcb → (c ∈ pcb.childList ↔ IsChild k p c) := by
    intro p pcb c hp
    have hiff := h.family.mem_iff (c := c) (view_of hp)
    constructor
    · intro hin
      obtain ⟨y, hy, hparent⟩ := hiff.mp hin
      obtain ⟨child, hc, rfl⟩ := view_some hy
      exact ⟨child, hc, hparent⟩
    · rintro ⟨child, hc, hparent⟩
      exact hiff.mpr ⟨_, view_of hc, hparent⟩
  constructor
  · rintro p pcb c hp ⟨child, hc, hparent⟩
    exact h.family.linked.once p _ c (tree_of (view_of hp))
      (childOf_iff.mpr ⟨_, view_of hc, hparent⟩)
  · intro p pcb c hp hnot hin
    exact hnot ((hmem p pcb c hp).mp hin)
  · intro p pcb c hp hin
    obtain ⟨child, hc, -⟩ := (hmem p pcb c hp).mp hin
    rw [hc]
    rfl
  · intro c child hc hzombie
    have hview := view_of hc
    have hci : c ≠ INIT := by
      rintro rfl
      obtain ⟨x, hx, halive, -⟩ := h.family.init
      cases hview.symm.trans hx
      rw [Pcb.view, hzombie] at halive
      cases halive
    obtain ⟨-, x, hx, halive⟩ := h.family.parent c _ hview hci
    obtain ⟨pcb, hp, rfl⟩ := view_some hx
    exact ⟨_, pcb, hp, of_decide_eq_false halive, (hmem _ pcb c hp).mpr ⟨child, hc, rfl⟩⟩

/-- In every run from boot in which no zombie is unlinked without being reaped, or reaped without
    being unlinked, and no pointer to a reaped process is followed, the child lists are right. -/
theorem procTree_ok {k k' : Kernel} (h0 : Booted k) (hr : Reaches Step Orderly k k') :
    TreeOk k' := by
  have hinv : TreeInv k' := hr.invariant h0.inv fun a i b ha hc hs => ha.step hc hs
  exact hinv.treeOk

/-! ## A child that exits -/

instance (k : Kernel) (p : Pid) (pc : Pc) : Decidable (RunsAt k p pc) :=
  decidable_of_iff ((k.pcbtable p).any fun pcb => pcb.state == .ready && pcb.pc == pc) <| by
    simp only [RunsAt, Option.any_eq_true, Bool.and_eq_true, beq_iff_eq]

/-- A call of a process in user space. -/
def call (k : Kernel) (i : Pid × Act) : Option Kernel :=
  if RunsAt k i.1 .user then
    match i.2 with
    | .fork => doFork k i.1
    | .exit status => doExit k i.1 status
    | .waitAny statusOk => waitAny k i.1 statusOk
    | .waitPid target statusOk => sysWait4 k i.1 target statusOk
    | _ => none
  else none

theorem call_sound (k : Kernel) (i : Pid × Act) (k' : Kernel) (h : call k i = some k') :
    Step k i k' := by
  obtain ⟨p, a⟩ := i
  unfold call at h
  split at h
  · rename_i hrun
    cases a with
    | fork => exact .fork hrun h
    | exit status => exact .exit hrun h
    | waitAny statusOk => exact .waitAny hrun h
    | waitPid target statusOk => exact .waitPid hrun h
    | _ => cases h
  · cases h

/-- A test of `Orderly`. -/
def orderly (k : Kernel) : Pid × Act → Bool
  | (p, .waitAny statusOk) => statusOk && (k.pcbtable p).all fun pcb => !pcb.killed
  | (_, .fork) | (_, .exit _) => true
  | _ => false

theorem orderly_sound (k : Kernel) (i : Pid × Act) (h : orderly k i = true) : Orderly k i := by
  obtain ⟨p, a⟩ := i
  cases a with
  | waitAny statusOk =>
    obtain ⟨hok, hkilled⟩ := Bool.and_eq_true_iff.mp h
    intro pcb c child hpcb _ _ _
    rw [hpcb, Option.all_some, Bool.not_eq_true'] at hkilled
    exact ⟨hkilled, hok⟩
  | fork | exit => trivial
  | _ => cases h

/-- A kernel after boot. -/
def bootKernel : Kernel :=
  { pcbtable := update (fun _ => none) INIT (some (freshPcb 0))
    pidsQueue := bootPids.get bootPids_isSome }

theorem bootKernel_booted : Booted bootKernel := ⟨bootPids_queue, rfl⟩

/-- The first process forks, the child exits, and the first process calls `wait4`. -/
def childRun (wait : Act) : List (Pid × Act) := [(INIT, .fork), (2, .exit 0), (INIT, wait)]

/-- `procTree_ok` at work: a child was forked, has exited, and was reaped by `wait4(-1)`. -/
theorem procTree_ok_reaped : ∃ k k', Booted k ∧ Reaches Step Orderly k k' ∧
    k'.pcbtable 2 = none ∧ k'.pcbtable INIT = some (freshPcb 0) ∧ TreeOk k' := by
  have hrun : Leads (tested orderly call) bootKernel (childRun (.waitAny true)) fun k =>
      k.pcbtable 2 = none ∧ k.pcbtable INIT = some (freshPcb 0) := by decide +kernel
  obtain ⟨k, hreach, hgone, hinit⟩ := hrun.reaches Step _ (tested_step orderly_sound call_sound)
  exact ⟨bootKernel, k, bootKernel_booted, hreach, hgone, hinit, procTree_ok bootKernel_booted hreach⟩

/-- A run from boot after which a child list names a process that has been reaped: `wait4` with its
    pid does not take it off the list. -/
theorem procTree_dangling_child :
    ∃ k k', Booted k ∧ Reaches Step anyInput k k' ∧ ¬ TreeOk k' := by
  have hrun : Leads call bootKernel (childRun (.waitPid 2 true)) fun k =>
      k.pcbtable 2 = none ∧ k.pcbtable INIT = some { freshPcb 0 with childList := [2] } := by
    decide +kernel
  obtain ⟨k, hreach, hgone, hinit⟩ :=
    hrun.reaches Step anyInput fun _ _ _ h => ⟨trivial, call_sound _ _ _ h⟩
  refine ⟨bootKernel, k, bootKernel_booted, hreach, fun hok => ?_⟩
  have hpresent := hok.present INIT _ 2 hinit List.mem_cons_self
  rw [hgone] at hpresent
  cases hpresent

end Uniks.Proc
