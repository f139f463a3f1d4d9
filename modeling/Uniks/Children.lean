/-
  The child lists while `fork`, `exit` and `wait4` for any child run.

  A child is on the list of its parent from the moment `fork` has linked it.  It is off every list
  in two places: in `reparent`, between the parent's list and that of `INIT`, and at the end of
  `wait4`, on its way to be freed.  All of this happens under `wait_lock`, and so a list does not
  change while somebody else walks along it; and whatever is on a list, or between two, is in use,
  so that no step follows a pointer to memory that has been freed.
-/
import Uniks.Reaping

namespace Uniks.WaitLock

open Uniks.Queue Uniks.Runs
open Uniks.Proc (NPROC Pid INIT)
open Function (update update_self update_of_ne)
open Option (some)

variable {s s' : Sys} {o : Obj} {p : Pid} {pc : Pc}

/-! ## Places -/

/-- The calls here are `fork`, `exit`, and `wait4` for any child. -/
def AnyChild (_ : Sys) : Input → Prop
  | .call _ (.waitPid _) => False
  | _ => True

/-- A place of these calls, where nobody waits on a `wait_list`. -/
def Pc.anyChild : Pc → Bool
  | .exitWake _ _ _ | .exitRelWake _ _ | .pidBegin _ | .pidFail _ | .pidBlock _ _
  | .pidRelTarget _ _ | .pidSched _ _ | .pidAsleep _ _ | .pidWoken _ _ | .pidRelock _ _
  | .pidWait _ _ => false
  | _ => true

def Pc.exiting : Pc → Bool
  | .exitBegin | .exitInit _ | .exitChild _ _ | .exitRelChild _ | .exitRelInit | .exitSelf
  | .exitParent _ _ | .exitRelParent _ | .exitRelWait | .exitSched => true
  | _ => false

/-- The process has given its children away. -/
def Pc.childless : Pc → Bool
  | .exitSelf | .exitParent _ _ | .exitRelParent _ | .exitRelWait | .exitSched => true
  | _ => false

/-- The child that is between two lists. -/
def Pc.moves : Pc → Option Obj
  | .exitInit c | .exitChild c _ => some c
  | _ => none

/-- The children that `wait4` has not looked at yet. -/
def Pc.rest : Pc → Option (List Obj)
  | .anyScan c _ cs => some (c :: cs)
  | .anyRelChild _ cs => some cs
  | .anyKilled | .anyRelKilled | .anyRelWait => some []
  | _ => none

theorem moves_held {c : Obj} (h : pc.moves = some c) : .wait ∈ pc.held p := by
  cases pc with
  | exitInit _ => exact List.mem_cons_self
  | exitChild _ _ => exact List.mem_cons_of_mem _ List.mem_cons_self
  | _ => cases h

theorem rest_held {cs : List Obj} (h : pc.rest = some cs) : .wait ∈ pc.held p := by
  cases pc with
  | anyScan _ _ _ | anyKilled | anyRelWait => exact List.mem_cons_self
  | anyRelChild _ _ | anyRelKilled => exact List.mem_cons_of_mem _ List.mem_cons_self
  | _ => cases h

theorem target_held_wait {t : Pid} {b : Obj} (h : pc.target = some (t, b))
    (hany : pc.anyChild = true) : .wait ∈ pc.held p := by
  cases pc with
  | foundKilled _ _ | reap _ _ | reapFree _ _ => exact List.mem_cons_of_mem _ List.mem_cons_self
  | foundRelKilled _ _ => exact List.mem_cons_of_mem _ (List.mem_cons_of_mem _ List.mem_cons_self)
  | pidBlock _ _ | pidWait _ _ => cases hany
  | _ => cases h

/-! ## The invariant -/

/-- What is known of a process at a place. -/
structure AtPlace (s : Sys) (o : Obj) (p : Pid) (pc : Pc) : Prop where
  any : pc.anyChild = true
  exiting : pc.exiting = true → p ≠ INIT
  childless : pc.childless = true → (s.obj o).childList = []
  moves : ∀ c, pc.moves = some c →
    s.inUse c = true ∧ (s.obj c).parentpid = p ∧ c ∉ (s.obj o).childList
  moved : ∀ c cp, pc = .exitChild c cp → cp = (s.obj c).pid
  links : ∀ c ch, pc = .forkLink c ch →
    s.inUse ch = true ∧ (s.obj ch).pid = c ∧ (s.obj ch).parentpid = 0 ∧ ch ≠ o
  parent : ∀ b bp, pc = .exitParent b bp → s.pcbtable bp = some b
  target : ∀ t b, pc.target = some (t, b) →
    (s.obj b).parentpid = p ∧ b ∉ (s.obj o).childList
  rest : ∀ cs, pc.rest = some cs → cs <:+ (s.obj o).childList
  scan : ∀ c cp cs, pc = .anyScan c cp cs → cp = (s.obj c).pid

/-- The child lists of all processes. -/
structure Children (s : Sys) : Prop where
  reaping : Reaping s
  intact : ∀ x, s.inUse x = true → s.intact x = true
  waitList : ∀ x, s.inUse x = true → (s.obj x).waitList = []
  registered : ∀ x, s.inUse x = true → s.pcbtable (s.obj x).pid = some x
  child : ∀ x c, s.inUse x = true → c ∈ (s.obj x).childList → s.inUse c = true ∧
    ∃ p pc, s.thread x = some ⟨p, pc⟩ ∧ (s.obj c).parentpid = p
  nodup : ∀ x, s.inUse x = true → (s.obj x).childList.Nodup
  init : ∃ i pc, s.thread i = some ⟨INIT, pc⟩
  places : ∀ o p pc, s.thread o = some ⟨p, pc⟩ → AtPlace s o p pc

/-- Two processes that hold `wait_lock` are one. -/
theorem Children.same_wait (h : Children s) {x y : Obj} {q r : Pid} {qc rc : Pc}
    (hx : s.thread x = some ⟨q, qc⟩) (hy : s.thread y = some ⟨r, rc⟩) (hqc : .wait ∈ qc.held q)
    (hrc : .wait ∈ rc.held r) : x = y := by
  have hlock : s.lock .wait = some x := by
    rw [h.reaping.locks.holder, heldBy_eq hx]
    exact hqc
  have hlock' : s.lock .wait = some y := by
    rw [h.reaping.locks.holder, heldBy_eq hy]
    exact hrc
  rw [hlock] at hlock'
  exact some.inj hlock'

theorem Children.not_held (h : Children s) {x : Obj} {q : Pid} {qc : Pc} {l : Lock}
    (hfree : s.lock l = none) (hx : s.thread x = some ⟨q, qc⟩) : l ∉ qc.held q := by
  intro hmem
  have hlock : s.lock l = some x := by
    rw [h.reaping.locks.holder, heldBy_eq hx]
    exact hmem
  rw [hfree] at hlock
  cases hlock

/-- No process has the pid 0. -/
theorem Children.pid_ne_zero (h : Children s) (hat : s.thread o = some ⟨p, pc⟩) : p ≠ 0 := by
  rintro rfl
  rcases h.reaping.apart with ⟨xs, hxs⟩
  have htab := (h.reaping.alive o 0 pc hat).2.2
  rw [hxs.zero.2.1] at htab
  cases htab

/-- A child is on one list only. -/
theorem Children.same_parent (h : Children s) {x c : Obj} (hat : s.thread o = some ⟨p, pc⟩)
    (hux : s.inUse x = true) (hc : c ∈ (s.obj x).childList) (hp : (s.obj c).parentpid = p) : x = o := by
  rcases (h.child x c hux hc).2 with ⟨q, qc, hx, hq⟩
  rcases hp.symm.trans hq
  have hxtab := (h.reaping.alive x p qc hx).2.2
  rw [(h.reaping.alive o p pc hat).2.2] at hxtab
  exact (some.inj hxtab).symm

/-- No step follows a pointer to an object that has been freed. -/
theorem Children.touched_intact (h : Children s) (hat : s.thread o = some ⟨p, pc⟩) :
    ∀ c ∈ touched s o pc, s.intact c = true := by
  have hplace := h.places o p pc hat
  have huo := (h.reaping.alive o p pc hat).1
  have hlist : ∀ x c, s.inUse x = true → c ∈ (s.obj x).childList → s.intact c = true := by
    intro x c hx hc
    exact h.intact c (h.child x c hx hc).1
  intro c hc
  cases pc with
  | forkLink _ _ | exitBegin | exitRelInit | anyBegin => exact hlist o c huo hc
  | exitInit c' =>
    rcases List.mem_singleton.mp hc
    exact h.intact c (hplace.moves c rfl).1
  | exitChild c' cp =>
    rcases List.mem_cons.mp hc with rfl | hc
    · exact h.intact c (hplace.moves c rfl).1
    · cases hinit : s.pcbtable INIT with
      | none =>
        rw [hinit] at hc
        cases hc
      | some init =>
        rw [hinit] at hc
        exact hlist init c (h.reaping.entry INIT init hinit).1 hc
  | exitSelf =>
    rw [touched, h.waitList o huo] at hc
    cases hc
  | exitParent b bp =>
    rcases List.mem_singleton.mp hc
    exact h.intact c (h.reaping.entry bp c (hplace.parent c bp rfl)).1
  | anyScan c' cp cs =>
    rcases List.mem_cons.mp hc with rfl | hc
    · exact hlist o c huo ((hplace.rest _ rfl).subset List.mem_cons_self)
    · exact hlist o c huo hc
  | anyRelChild cp cs => exact hlist o c huo ((hplace.rest cs rfl).subset hc)
  | reap t b | reapFree t b =>
    rcases List.mem_singleton.mp hc
    exact h.intact c (h.reaping.entry t c (h.reaping.target o p _ t c hat rfl)).1
  | exitRelWake _ _ | exitWake _ _ _ | pidBlock _ _ | pidRelock _ _ => exact nomatch hplace.any
  | _ => cases hc

/-! ## Frames -/

/-- The places about which nothing is known. -/
def Pc.idle : Pc → Bool
  | .user | .start | .startRel | .forkLock _ | .forkRelWait _ _ | .forkReady _ _ | .anyBegin | .anyFail
  | .anyBlock | .anySched | .anyAsleep | .anyWoken | .reapRelWait _ | .reapRelPcb _ => true
  | _ => false

theorem AtPlace.idle (h : pc.idle = true) : AtPlace s o p pc := by
  cases pc with
  | user | start | startRel | forkLock _ | forkRelWait _ _ | forkReady _ _ | anyBegin | anyFail
  | anyBlock | anySched | anyAsleep | anyWoken | reapRelWait _ | reapRelPcb _ =>
    exact ⟨rfl, nofun, nofun, nofun, nofun, nofun, nofun, nofun, nofun, nofun⟩
  | _ => cases h

/-- A place in `do_exit` at which no child is between two lists. -/
theorem AtPlace.exit (hany : pc.anyChild = true) (hinit : p ≠ INIT)
    (hchildless : pc.childless = true → (s.obj o).childList = []) (hmoves : pc.moves = none)
    (hlinks : ∀ c ch, pc ≠ .forkLink c ch)
    (hparent : ∀ b bp, pc = .exitParent b bp → s.pcbtable bp = some b) (htarget : pc.target = none)
    (hrest : pc.rest = none) : AtPlace s o p pc := by
  refine ⟨hany, fun _ => hinit, hchildless, ?_, ?_, ?_, hparent, ?_, ?_, ?_⟩
  · intro c hc
    rw [hmoves] at hc
    cases hc
  · rintro c cp rfl
    cases hmoves
  · intro c ch hpc
    exact absurd hpc (hlinks c ch)
  · intro t b ht
    rw [htarget] at ht
    cases ht
  · intro cs hcs
    rw [hrest] at hcs
    cases hcs
  · rintro c cp cs rfl
    cases hrest

/-- A place in the walk along the children. -/
theorem AtPlace.walk {cs : List Obj} (hrest : pc.rest = some cs) (hsuffix : cs <:+ (s.obj o).childList)
    (hscan : ∀ c cp cs, pc = .anyScan c cp cs → cp = (s.obj c).pid) : AtPlace s o p pc := by
  have hsame : ∀ cs', pc.rest = some cs' → cs' <:+ (s.obj o).childList := by
    intro cs' hcs'
    rw [hrest] at hcs'
    cases hcs'
    exact hsuffix
  cases pc with
  | anyScan _ _ _ | anyRelChild _ _ | anyKilled | anyRelKilled | anyRelWait =>
    exact ⟨rfl, nofun, nofun, nofun, nofun, nofun, nofun, nofun, hsame, hscan⟩
  | _ => cases hrest

/-- A place at the end of `wait4`. -/
theorem AtPlace.found {t : Pid} {b : Obj} (hany : pc.anyChild = true)
    (htarget : pc.target = some (t, b))
    (hchild : (s.obj b).parentpid = p ∧ b ∉ (s.obj o).childList) : AtPlace s o p pc := by
  have hsame : ∀ t' b', pc.target = some (t', b') →
      (s.obj b').parentpid = p ∧ b' ∉ (s.obj o).childList := by
    intro t' b' h'
    rw [htarget] at h'
    cases h'
    exact hchild
  cases pc with
  | foundKilled _ _ | foundRelKilled _ _ | reap _ _ | reapFree _ _ =>
    exact ⟨rfl, nofun, nofun, nofun, nofun, nofun, nofun, hsame, nofun, nofun⟩
  | pidBlock _ _ | pidWait _ _ => cases hany
  | _ => cases htarget

/-- What is known of a place stays so if nothing it is about changes. -/
theorem AtPlace.frame (h : AtPlace s o p pc)
    (huse : ∀ y, pc.moves = some y ∨ (∃ c, pc = .forkLink c y) → s'.inUse y = s.inUse y)
    (htab : ∀ b bp, pc = .exitParent b bp → s'.pcbtable bp = s.pcbtable bp)
    (hpid : ∀ y, s.inUse y = true → (s'.obj y).pid = (s.obj y).pid)
    (hlist : (s'.obj o).childList = (s.obj o).childList)
    (hscan : ∀ c cp cs, pc = .anyScan c cp cs → (s'.obj c).pid = (s.obj c).pid)
    (hparent : ∀ y, pc.moves = some y ∨ (∃ c, pc = .forkLink c y) ∨ (∃ t, pc.target = some (t, y)) →
      (s'.obj y).parentpid = (s.obj y).parentpid) : AtPlace s' o p pc := by
  refine ⟨h.any, h.exiting, ?_, ?_, ?_, ?_, ?_, ?_, ?_, ?_⟩
  · rw [hlist]
    exact h.childless
  · intro c hc
    rw [huse c (.inl hc), hparent c (.inl hc), hlist]
    exact h.moves c hc
  · intro c cp hpc
    have hc : pc.moves = some c := by rw [hpc]; rfl
    rw [hpid c (h.moves c hc).1]
    exact h.moved c cp hpc
  · intro c ch hpc
    rw [huse ch (.inr ⟨c, hpc⟩), hpid ch (h.links c ch hpc).1, hparent ch (.inr (.inl ⟨c, hpc⟩))]
    exact h.links c ch hpc
  · intro b bp hpc
    rw [htab b bp hpc]
    exact h.parent b bp hpc
  · intro t b ht
    rw [hparent b (.inr (.inr ⟨t, ht⟩)), hlist]
    exact h.target t b ht
  · rw [hlist]
    exact h.rest
  · intro c cp cs hpc
    rw [hscan c cp cs hpc]
    exact h.scan c cp cs hpc

/-- A process that does not hold `wait_lock` and is not in `do_exit`: its list may change. -/
theorem AtPlace.outside (h : AtPlace s o p pc) (hinit : p = INIT) (hwait : .wait ∉ pc.held p)
    (hlinks : ∀ c ch, pc = .forkLink c ch →
      s'.inUse ch = true ∧ (s'.obj ch).pid = c ∧ (s'.obj ch).parentpid = 0 ∧ ch ≠ o) :
    AtPlace s' o p pc := by
  have hexit : pc.exiting = false := by
    cases hpc : pc.exiting with
    | false => rfl
    | true => exact absurd hinit (h.exiting hpc)
  refine ⟨h.any, h.exiting, ?_, ?_, ?_, hlinks, ?_, ?_, ?_, ?_⟩
  · intro hc
    cases pc with
    | exitSelf | exitParent _ _ | exitRelParent _ | exitRelWait | exitSched => cases hexit
    | _ => cases hc
  · intro c hc
    exact absurd (moves_held hc) hwait
  · rintro c cp rfl
    cases hexit
  · rintro b bp rfl
    cases hexit
  · intro t b ht
    exact absurd (target_held_wait ht h.any) hwait
  · intro cs hcs
    exact absurd (rest_held hcs) hwait
  · rintro c cp cs rfl
    exact absurd List.mem_cons_self hwait

/-- Lists and parents change, objects are neither set up nor freed. -/
theorem Children.relist (h : Children s) (hreap : Reaping s') (huse : s'.inUse = s.inUse)
    (hintact : s'.intact = s.intact) (htab : s'.pcbtable = s.pcbtable)
    (hkin : ∀ x, (s'.obj x).pid = (s.obj x).pid ∧ (s'.obj x).waitList = (s.obj x).waitList)
    (hchild : ∀ x c, s.inUse x = true → c ∈ (s'.obj x).childList → s.inUse c = true ∧
      ∃ q qc, s'.thread x = some ⟨q, qc⟩ ∧ (s'.obj c).parentpid = q)
    (hnodup : ∀ x, s.inUse x = true → (s'.obj x).childList.Nodup)
    (hinit : ∃ i pc, s'.thread i = some ⟨INIT, pc⟩)
    (hplaces : ∀ x q qc, s'.thread x = some ⟨q, qc⟩ → AtPlace s' x q qc) : Children s' := by
  refine ⟨hreap, ?_, ?_, ?_, ?_, huse ▸ hnodup, hinit, hplaces⟩
  · intro x hx
    rw [huse] at hx
    rw [hintact]
    exact h.intact x hx
  · intro x hx
    rw [huse] at hx
    rw [(hkin x).2]
    exact h.waitList x hx
  · intro x hx
    rw [huse] at hx
    rw [htab, (hkin x).1]
    exact h.registered x hx
  · intro x c hx hc
    rw [huse] at hx ⊢
    exact hchild x c hx hc

/-- The lists and the parents are as before. -/
def SameKin (s s' : Sys) : Prop := ∀ x, (s'.obj x).pid = (s.obj x).pid ∧
  (s'.obj x).waitList = (s.obj x).waitList ∧ (s'.obj x).parentpid = (s.obj x).parentpid ∧
    (s'.obj x).childList = (s.obj x).childList

theorem SameKin.update {x : Obj} {pcb : Pcb} (hobj : s'.obj = update s.obj x pcb)
    (hpid : pcb.pid = (s.obj x).pid) (hwait : pcb.waitList = (s.obj x).waitList)
    (hparent : pcb.parentpid = (s.obj x).parentpid) (hlist : pcb.childList = (s.obj x).childList) :
    SameKin s s' := by
  intro y
  rw [hobj]
  by_cases hy : y = x
  · subst hy
    rw [update_self]
    exact ⟨hpid, hwait, hparent, hlist⟩
  · rw [update_of_ne hy]
    exact ⟨rfl, rfl, rfl, rfl⟩

/-- A process that has a pid keeps it. -/
theorem thread_keeps {pc' : Pc} (hat : s.thread o = some ⟨p, pc⟩)
    (hthread : s'.thread = update s.thread o (some ⟨p, pc'⟩)) {x : Obj} {q : Pid} {qc : Pc}
    (hx : s.thread x = some ⟨q, qc⟩) : ∃ qc', s'.thread x = some ⟨q, qc'⟩ := by
  rw [hthread]
  by_cases hxo : x = o
  · subst hxo
    rw [hat] at hx
    cases hx
    exact ⟨pc', update_self ..⟩
  · rw [update_of_ne hxo]
    exact ⟨qc, hx⟩

theorem Children.init_keeps (h : Children s) {pc' : Pc} (hat : s.thread o = some ⟨p, pc⟩)
    (hthread : s'.thread = update s.thread o (some ⟨p, pc'⟩)) :
    ∃ i pc, s'.thread i = some ⟨INIT, pc⟩ := by
  rcases h.init with ⟨i, ic, hi⟩
  rcases thread_keeps hat hthread hi with ⟨ic', hi'⟩
  exact ⟨i, ic', hi'⟩

/-- The process goes to another place, and no list changes. -/
theorem Children.neutral (h : Children s) (hat : s.thread o = some ⟨p, pc⟩) (hreap : Reaping s')
    {pc' : Pc} (hthread : s'.thread = update s.thread o (some ⟨p, pc'⟩))
    (huse : s'.inUse = s.inUse) (hintact : s'.intact = s.intact) (htab : s'.pcbtable = s.pcbtable)
    (hkin : SameKin s s') (hplace : AtPlace s o p pc') : Children s' := by
  have hframe : ∀ x q qc, AtPlace s x q qc → AtPlace s' x q qc := by
    intro x q qc hx
    exact hx.frame (fun y _ => by rw [huse]) (fun b bp _ => by rw [htab]) (fun y _ => (hkin y).1)
      (hkin x).2.2.2 (fun c cp cs _ => (hkin c).1) fun y _ => (hkin y).2.2.1
  refine h.relist hreap huse hintact htab (fun x => ⟨(hkin x).1, (hkin x).2.1⟩) ?_ ?_
    (h.init_keeps hat hthread) ?_
  · intro x c hux hc
    rw [(hkin x).2.2.2] at hc
    rcases h.child x c hux hc with ⟨hu, q, qc, hx, hq⟩
    rcases thread_keeps hat hthread hx with ⟨qc', hx'⟩
    exact ⟨hu, q, qc', hx', (hkin c).2.2.1.trans hq⟩
  · intro x hux
    rw [(hkin x).2.2.2]
    exact h.nodup x hux
  · intro x q qc hx
    rcases thread_cases hthread hx with ⟨rfl, rfl, rfl⟩ | ⟨-, hx⟩
    · exact hframe x q qc hplace
    · exact hframe x q qc (h.places x q qc hx)

/-! ## Steps that change a list -/

/-- The process takes children off its own list. -/
theorem Children.shrink (h : Children s) (hat : s.thread o = some ⟨p, pc⟩) (hreap : Reaping s')
    {pc' : Pc} {cs : List Obj} (hsub : cs.Sublist (s.obj o).childList)
    (hthread : s'.thread = update s.thread o (some ⟨p, pc'⟩)) (huse : s'.inUse = s.inUse)
    (hintact : s'.intact = s.intact) (htab : s'.pcbtable = s.pcbtable)
    (hobj : s'.obj = update s.obj o { s.obj o with childList := cs })
    (hplace : AtPlace s' o p pc') : Children s' := by
  have hoff : ∀ x, x ≠ o → s'.obj x = s.obj x := by
    intro x hx
    rw [hobj, update_of_ne hx]
  have hself : s'.obj o = { s.obj o with childList := cs } := by
    rw [hobj, update_self]
  have hparent : ∀ x, (s'.obj x).parentpid = (s.obj x).parentpid := by
    intro x
    by_cases hx : x = o
    · rw [hx, hself]
    · rw [hoff x hx]
  have hpid : ∀ x, (s'.obj x).pid = (s.obj x).pid := by
    intro x
    by_cases hx : x = o
    · rw [hx, hself]
    · rw [hoff x hx]
  refine h.relist hreap huse hintact htab ?_ ?_ ?_ (h.init_keeps hat hthread) ?_
  · intro x
    refine ⟨hpid x, ?_⟩
    by_cases hx : x = o
    · rw [hx, hself]
    · rw [hoff x hx]
  · intro x c hux hc
    have hold : c ∈ (s.obj x).childList := by
      by_cases hx : x = o
      · subst hx
        rw [hself] at hc
        exact hsub.subset hc
      · rw [hoff x hx] at hc
        exact hc
    rcases h.child x c hux hold with ⟨hu, q, qc, hx, hq⟩
    rcases thread_keeps hat hthread hx with ⟨qc', hx'⟩
    exact ⟨hu, q, qc', hx', (hparent c).trans hq⟩
  · intro x hux
    by_cases hx : x = o
    · subst hx
      rw [hself]
      exact hsub.nodup (h.nodup x hux)
    · rw [hoff x hx]
      exact h.nodup x hux
  · intro x q qc hx
    rcases thread_cases hthread hx with ⟨rfl, rfl, rfl⟩ | ⟨hxo, hx⟩
    · exact hplace
    · exact (h.places x q qc hx).frame (fun y _ => by rw [huse]) (fun b bp _ => by rw [htab])
        (fun y _ => hpid y) (by rw [hoff x hxo]) (fun c cp cs _ => hpid c) fun y _ => hparent y

/-- `reparent` goes on with the next child, or is through. -/
theorem Children.exitLoop (h : Children s) (hat : s.thread o = some ⟨p, pc⟩) (hinit : p ≠ INIT)
    {s₁ : Sys} (hreap : Reaping s') (hl : WaitLock.exitLoop s₁ o p = some s')
    (hthread : s₁.thread = s.thread) (huse : s₁.inUse = s.inUse) (hintact : s₁.intact = s.intact)
    (htab : s₁.pcbtable = s.pcbtable) (hobj : s₁.obj = s.obj) : Children s' := by
  unfold WaitLock.exitLoop at hl
  rw [hobj] at hl
  split at hl
  · rename_i hnil
    cases hl
    refine h.neutral hat hreap (by rw [goto_thread, hthread]) huse hintact htab ?_ ?_
    · intro x
      show (s₁.obj x).pid = _ ∧ (s₁.obj x).waitList = _ ∧ (s₁.obj x).parentpid = _ ∧
        (s₁.obj x).childList = _
      rw [hobj]
      exact ⟨rfl, rfl, rfl, rfl⟩
    · exact AtPlace.exit rfl hinit (fun _ => hnil) rfl nofun nofun rfl rfl
  · rename_i c cs hcons
    split at hl
    · rename_i hparent
      have hs' := (some.inj hl).symm
      have hsub : cs.Sublist (s.obj o).childList := by
        rw [hcons]
        exact List.sublist_cons_self c cs
      have hnot : c ∉ cs := by
        have hnodup := h.nodup o (h.reaping.alive o p pc hat).1
        rw [hcons] at hnodup
        exact (List.nodup_cons.mp hnodup).1
      have hu := (h.child o c (h.reaping.alive o p pc hat).1
        (by rw [hcons]; exact List.mem_cons_self)).1
      have hobj' : s'.obj = update s.obj o { s.obj o with childList := cs } := by
        rw [hs']
        show update s₁.obj o _ = _
        rw [hobj]
      have hthread' : s'.thread = update s.thread o (some ⟨p, .exitInit c⟩) := by
        rw [hs']
        show update s₁.thread o _ = _
        rw [hthread]
      have huse' : s'.inUse = s.inUse := by
        rw [hs']
        exact huse
      refine h.shrink hat hreap hsub hthread' huse' (by rw [hs']; exact hintact)
        (by rw [hs']; exact htab) hobj' ?_
      refine ⟨rfl, fun _ => hinit, nofun, ?_, nofun, nofun, nofun, nofun, nofun, nofun⟩
      intro c' hc'
      cases hc'
      rw [huse', hobj', update_self]
      refine ⟨hu, ?_, hnot⟩
      by_cases hco : c = o
      · subst hco
        rw [update_self]
        exact hparent
      · rw [update_of_ne hco]
        exact hparent
    · cases hl

/-- `fork` puts the new process on the list. -/
theorem Children.link (h : Children s) {c : Pid} {ch : Obj} (hat : s.thread o = some ⟨p, .forkLink c ch⟩)
    (hfree : s.lock .wait = none) (hreap : Reaping s')
    (hthread : s'.thread = update s.thread o (some ⟨p, .forkRelWait c ch⟩))
    (huse : s'.inUse = s.inUse) (hintact : s'.intact = s.intact) (htab : s'.pcbtable = s.pcbtable)
    (hobj : s'.obj = update (update s.obj ch { s.obj ch with parentpid := p }) o
      { s.obj o with childList := ch :: (s.obj o).childList }) : Children s' := by
  rcases (h.places o p _ hat).links c ch rfl with ⟨huch, hpidch, hzero, hne⟩
  have hp0 := h.pid_ne_zero hat
  have hself : s'.obj o = { s.obj o with childList := ch :: (s.obj o).childList } := by
    rw [hobj, update_self]
  have hch : s'.obj ch = { s.obj ch with parentpid := p } := by
    rw [hobj, update_of_ne hne, update_self]
  have hoff : ∀ x, x ≠ o → x ≠ ch → s'.obj x = s.obj x := by
    intro x hxo hxc
    rw [hobj, update_of_ne hxo, update_of_ne hxc]
  have hpid : ∀ x, (s'.obj x).pid = (s.obj x).pid ∧ (s'.obj x).waitList = (s.obj x).waitList := by
    intro x
    by_cases hxo : x = o
    · rw [hxo, hself]
      exact ⟨rfl, rfl⟩
    · by_cases hxc : x = ch
      · rw [hxc, hch]
        exact ⟨rfl, rfl⟩
      · rw [hoff x hxo hxc]
        exact ⟨rfl, rfl⟩
  have hparent : ∀ x, x ≠ ch → (s'.obj x).parentpid = (s.obj x).parentpid := by
    intro x hxc
    by_cases hxo : x = o
    · rw [hxo, hself]
    · rw [hoff x hxo hxc]
  have hlist : ∀ x, x ≠ o → (s'.obj x).childList = (s.obj x).childList := by
    intro x hxo
    by_cases hxc : x = ch
    · rw [hxc, hch]
    · rw [hoff x hxo hxc]
  -- the new process has had no parent, and so is on no list
  have hnone : ∀ x, s.inUse x = true → ch ∉ (s.obj x).childList := by
    intro x hux hmem
    rcases (h.child x ch hux hmem).2 with ⟨q, qc, hx, hq⟩
    rw [hzero] at hq
    exact h.pid_ne_zero hx hq.symm
  refine h.relist hreap huse hintact htab hpid ?_ ?_ (h.init_keeps hat hthread) ?_
  · intro x c' hux hc'
    have hcases : c' ∈ (s.obj x).childList ∨ (x = o ∧ c' = ch) := by
      by_cases hxo : x = o
      · subst hxo
        rw [hself] at hc'
        rcases List.mem_cons.mp hc' with heq | hmem
        · exact .inr ⟨rfl, heq⟩
        · exact .inl hmem
      · rw [hlist x hxo] at hc'
        exact .inl hc'
    rcases hcases with hmem | ⟨rfl, rfl⟩
    · rcases h.child x c' hux hmem with ⟨hu, q, qc, hx, hq⟩
      rcases thread_keeps hat hthread hx with ⟨qc', hx'⟩
      refine ⟨hu, q, qc', hx', (hparent c' ?_).trans hq⟩
      rintro rfl
      exact hnone x hux hmem
    · refine ⟨huch, p, .forkRelWait c c', ?_, ?_⟩
      · rw [hthread, update_self]
      · rw [hch]
  · intro x hux
    by_cases hxo : x = o
    · subst hxo
      rw [hself]
      exact List.nodup_cons.mpr ⟨hnone x hux, h.nodup x hux⟩
    · rw [hlist x hxo]
      exact h.nodup x hux
  · intro x q qc hx
    rcases thread_cases hthread hx with ⟨rfl, rfl, rfl⟩ | ⟨hxo, hx⟩
    · exact AtPlace.idle rfl
    · have hplace := h.places x q qc hx
      refine hplace.frame (fun y _ => by rw [huse]) (fun b bp _ => by rw [htab])
        (fun y _ => (hpid y).1) (hlist x hxo) (fun c cp cs _ => (hpid c).1) ?_
      intro y hy
      refine hparent y ?_
      rintro rfl
      rcases hy with hm | ⟨c', hpc⟩ | ⟨t, ht⟩
      · exact h.not_held hfree hx (moves_held hm)
      · -- two forks do not have the lock of one pid
        subst hpc
        have hpid' := (hplace.links c' y rfl).2.1
        rcases hpid'.symm.trans hpidch
        have hlock : s.lock (.pcb c) = some x := by
          rw [h.reaping.locks.holder, heldBy_eq hx]
          exact List.mem_cons_self
        have hlock' : s.lock (.pcb c) = some o := by
          rw [h.reaping.locks.holder, heldBy_eq hat]
          exact List.mem_cons_self
        rw [hlock] at hlock'
        exact hxo (some.inj hlock')
      · exact h.not_held hfree hx (target_held_wait ht hplace.any)

/-- `reparent` puts a child on the list of `INIT`. -/
theorem Children.adopt (h : Children s) {c init : Obj} {cp : Pid}
    (hat : s.thread o = some ⟨p, .exitChild c cp⟩) (htabInit : s.pcbtable INIT = some init)
    (hreap : Reaping s')
    (hthread : s'.thread = update s.thread o (some ⟨p, .exitRelChild cp⟩))
    (huse : s'.inUse = s.inUse) (hintact : s'.intact = s.intact) (htab : s'.pcbtable = s.pcbtable)
    (hlists : ∀ x, (s'.obj x).childList =
      if x = init then c :: (s.obj x).childList else (s.obj x).childList)
    (hparents : ∀ x, (s'.obj x).parentpid = if x = c then INIT else (s.obj x).parentpid)
    (hpid : ∀ x, (s'.obj x).pid = (s.obj x).pid ∧ (s'.obj x).waitList = (s.obj x).waitList) :
    Children s' := by
  have hplace := h.places o p _ hat
  have hinit : p ≠ INIT := hplace.exiting rfl
  rcases hplace.moves c rfl with ⟨huc, hpc, hnot⟩
  have hwait : .wait ∈ Pc.held p (.exitChild c cp) := List.mem_cons_of_mem _ List.mem_cons_self
  -- the child is on no list
  have hnone : ∀ x, s.inUse x = true → c ∉ (s.obj x).childList := by
    intro x hux hmem
    rcases h.same_parent hat hux hmem hpc
    exact hnot hmem
  rcases h.init with ⟨i, ic, hi⟩
  have hii : i = init := by
    have htabi := (h.reaping.alive i INIT ic hi).2.2
    rw [htabInit] at htabi
    exact (some.inj htabi).symm
  subst hii
  have hio : i ≠ o := by
    rintro rfl
    rw [hat] at hi
    exact hinit (Thread.mk.inj (some.inj hi)).1
  refine h.relist hreap huse hintact htab hpid ?_ ?_ (h.init_keeps hat hthread) ?_
  · intro x c' hux hc'
    have hcases : c' ∈ (s.obj x).childList ∨ (x = i ∧ c' = c) := by
      rw [hlists] at hc'
      by_cases hxi : x = i
      · rw [if_pos hxi] at hc'
        rcases List.mem_cons.mp hc' with heq | hmem
        · exact .inr ⟨hxi, heq⟩
        · exact .inl hmem
      · rw [if_neg hxi] at hc'
        exact .inl hc'
    rcases hcases with hmem | ⟨rfl, rfl⟩
    · rcases h.child x c' hux hmem with ⟨hu, q, qc, hx, hq⟩
      rcases thread_keeps hat hthread hx with ⟨qc', hx'⟩
      refine ⟨hu, q, qc', hx', ?_⟩
      rw [hparents, if_neg]
      · exact hq
      · rintro rfl
        exact hnone x hux hmem
    · refine ⟨huc, INIT, ic, ?_, ?_⟩
      · rw [hthread, update_of_ne hio]
        exact hi
      · rw [hparents, if_pos rfl]
  · intro x hux
    rw [hlists]
    by_cases hxi : x = i
    · rw [if_pos hxi]
      exact List.nodup_cons.mpr ⟨hnone x hux, h.nodup x hux⟩
    · rw [if_neg hxi]
      exact h.nodup x hux
  · intro x q qc hx
    rcases thread_cases hthread hx with ⟨rfl, rfl, rfl⟩ | ⟨hxo, hx⟩
    · exact AtPlace.exit rfl hinit nofun rfl nofun nofun rfl rfl
    · have hplacex := h.places x q qc hx
      have hno : .wait ∉ qc.held q := fun hmem => hxo (h.same_wait hx hat hmem hwait)
      have hlinks : ∀ d ch, qc = .forkLink d ch → ch ≠ c := by
        rintro d ch hqc rfl
        have hzero := (hplacex.links d ch hqc).2.2.1
        rw [hpc] at hzero
        exact h.pid_ne_zero hat hzero
      by_cases hxi : x = i
      · subst hxi
        rw [hi] at hx
        cases hx
        refine hplacex.outside rfl hno ?_
        intro d ch hqc
        rw [huse, (hpid ch).1, hparents, if_neg (hlinks d ch hqc)]
        exact hplacex.links d ch hqc
      · refine hplacex.frame (fun y _ => by rw [huse]) (fun b bp _ => by rw [htab])
          (fun y _ => (hpid y).1) (by rw [hlists, if_neg hxi]) (fun c cp cs _ => (hpid c).1) ?_
        intro y hy
        rw [hparents, if_neg]
        rintro rfl
        rcases hy with hm | ⟨d, hqc⟩ | ⟨t, ht⟩
        · exact hno (moves_held hm)
        · exact hlinks d y hqc rfl
        · exact hno (target_held_wait ht hplacex.any)

theorem Children.alloc (h : Children s) {c : Pid} (hat : s.thread o = some ⟨p, .forkLock c⟩)
    (hfree : s.lock (.pcb c) = none) (hs' : s' = ({ s with
      lock := update s.lock (.pcb c) (some o) }.allocproc c).goto o p (.forkLink c s.fresh))
    (hreap : Reaping s') : Children s' := by
  rcases h.reaping.fresh s.fresh (Nat.le_refl _) with ⟨hfresh, hunuse⟩
  have hunused := h.reaping.pid_unused hat hfree
  have hne : s.fresh ≠ o := by
    rintro heq
    rw [heq, hat] at hfresh
    cases hfresh
  have hnew : ∀ y, s.inUse y = true → y ≠ s.fresh := by
    rintro y hy rfl
    rw [hunuse] at hy
    cases hy
  obtain ⟨huse, hintact, htab, hobj, hthread⟩ := alloc_changes hs'
  have hobjOff : ∀ y, y ≠ s.fresh → s'.obj y = s.obj y := by
    intro y hy
    rw [hobj, update_of_ne hy]
  have hobjNew : s'.obj s.fresh = freshPcb c := by
    rw [hobj, update_self]
  have hcpid : ∀ y t, s.pcbtable t = some y → t ≠ c := by
    rintro y t hy rfl
    rw [hunused] at hy
    cases hy
  have hkeeps : ∀ x q qc, s.thread x = some ⟨q, qc⟩ → ∃ qc', s'.thread x = some ⟨q, qc'⟩ := by
    intro x q qc hx
    rw [hthread]
    by_cases hxo : x = o
    · subst hxo
      rw [hat] at hx
      cases hx
      exact ⟨_, update_self ..⟩
    · rw [update_of_ne hxo, update_of_ne]
      · exact ⟨qc, hx⟩
      · rintro rfl
        exact nomatch hfresh.symm.trans hx
  have hinUse : ∀ y, s.inUse y = true → s'.inUse y = s.inUse y := by
    intro y hy
    rw [huse, update_of_ne (hnew y hy)]
  refine ⟨hreap, ?_, ?_, ?_, ?_, ?_, ?_, ?_⟩
  · intro x hx
    rw [hintact]
    by_cases hxf : x = s.fresh
    · rw [hxf, update_self]
    · rw [huse, update_of_ne hxf] at hx
      rw [update_of_ne hxf]
      exact h.intact x hx
  · intro x hx
    by_cases hxf : x = s.fresh
    · rw [hxf, hobjNew]
      rfl
    · rw [huse, update_of_ne hxf] at hx
      rw [hobjOff x hxf]
      exact h.waitList x hx
  · intro x hx
    by_cases hxf : x = s.fresh
    · rw [hxf, hobjNew, htab]
      exact update_self ..
    · rw [huse, update_of_ne hxf] at hx
      have hold := h.registered x hx
      rw [hobjOff x hxf, htab, update_of_ne (hcpid x _ hold)]
      exact hold
  · intro x c' hux hc'
    by_cases hxf : x = s.fresh
    · rw [hxf, hobjNew] at hc'
      cases hc'
    · rw [huse, update_of_ne hxf] at hux
      rw [hobjOff x hxf] at hc'
      rcases h.child x c' hux hc' with ⟨hu, q, qc, hx, hq⟩
      rcases hkeeps x q qc hx with ⟨qc', hx'⟩
      refine ⟨?_, q, qc', hx', ?_⟩
      · rw [hinUse c' hu]
        exact hu
      · rw [hobjOff c' (hnew c' hu)]
        exact hq
  · intro x hux
    by_cases hxf : x = s.fresh
    · rw [hxf, hobjNew]
      exact List.nodup_nil
    · rw [huse, update_of_ne hxf] at hux
      rw [hobjOff x hxf]
      exact h.nodup x hux
  · rcases h.init with ⟨i, ic, hi⟩
    rcases hkeeps i INIT ic hi with ⟨ic', hi'⟩
    exact ⟨i, ic', hi'⟩
  · intro x q qc hx
    rcases alloc_cases hthread hx with ⟨rfl, rfl, rfl⟩ | ⟨rfl, rfl, rfl⟩ | ⟨hxf, -, hx⟩
    · exact AtPlace.idle rfl
    · refine ⟨rfl, nofun, nofun, nofun, nofun, ?_, nofun, nofun, nofun, nofun⟩
      intro d ch hpc
      rcases Pc.forkLink.inj hpc with ⟨rfl, rfl⟩
      rw [huse, hobjNew, update_self]
      exact ⟨rfl, rfl, rfl, hne⟩
    · have hplace := h.places x q qc hx
      have hin : ∀ y, qc.moves = some y ∨ (∃ d, qc = .forkLink d y) ∨
          (∃ t, qc.target = some (t, y)) → s.inUse y = true := by
        intro y hy
        rcases hy with hm | ⟨d, hqc⟩ | ⟨t, ht⟩
        · exact (hplace.moves y hm).1
        · exact (hplace.links d y hqc).1
        · exact (h.reaping.entry t y (h.reaping.target x q qc t y hx ht)).1
      refine hplace.frame ?_ ?_ ?_ (by rw [hobjOff x hxf]) ?_ ?_
      · intro y hy
        exact hinUse y (hin y (hy.imp_right Or.inl))
      · intro b bp hqc
        rw [htab, update_of_ne (hcpid b bp (hplace.parent b bp hqc))]
      · intro y hy
        rw [hobjOff y (hnew y hy)]
      · rintro d cp cs rfl
        have hd := (hplace.rest (d :: cs) rfl).subset List.mem_cons_self
        rw [hobjOff d (hnew d (h.child x d (h.reaping.alive x q _ hx).1 hd).1)]
      · intro y hy
        rw [hobjOff y (hnew y (hin y hy))]

theorem Children.free (h : Children s) {t : Pid} {b : Obj}
    (hat : s.thread o = some ⟨p, .reapFree t b⟩) (hreap : Reaping s')
    (hs' : s' = { s with inUse := update s.inUse b false
                         pcbtable := update s.pcbtable t none }.goto o p (.reapRelWait t)) :
    Children s' := by
  have hplace := h.places o p _ hat
  have htb := h.reaping.target o p _ t b hat rfl
  rcases hplace.target t b rfl with ⟨hparent, hnot⟩
  have hwait : .wait ∈ Pc.held p (.reapFree t b) := List.mem_cons_of_mem _ List.mem_cons_self
  obtain ⟨hthread, hobj, huse, htab⟩ := free_changes hs'
  have hin : ∀ x, s'.inUse x = true → x ≠ b ∧ s.inUse x = true := by
    intro x hx
    rw [huse] at hx
    by_cases hxb : x = b
    · rw [hxb, update_self] at hx
      cases hx
    · rw [update_of_ne hxb] at hx
      exact ⟨hxb, hx⟩
  refine ⟨hreap, ?_, ?_, ?_, ?_, ?_, h.init_keeps hat hthread, ?_⟩
  · intro x hx
    have hintact : s'.intact = s.intact := by
      rw [hs']
      rfl
    rw [hintact]
    exact h.intact x (hin x hx).2
  · intro x hx
    rw [hobj]
    exact h.waitList x (hin x hx).2
  · intro x hx
    rcases hin x hx with ⟨hxb, hx⟩
    have hold := h.registered x hx
    rw [hobj, htab, update_of_ne]
    · exact hold
    · intro heq
      rw [heq, htb] at hold
      exact hxb (some.inj hold).symm
  · intro x c hux hc
    have hux := (hin x hux).2
    rw [hobj] at hc ⊢
    rcases h.child x c hux hc with ⟨hu, q, qc, hx, hq⟩
    rcases thread_keeps hat hthread hx with ⟨qc', hx'⟩
    refine ⟨?_, q, qc', hx', hq⟩
    rw [huse, update_of_ne]
    · exact hu
    · -- the process that is freed is on no list
      rintro rfl
      rcases h.same_parent hat hux hc hparent
      exact hnot hc
  · intro x hux
    rw [hobj]
    exact h.nodup x (hin x hux).2
  · intro x q qc hx
    rcases thread_cases hthread hx with ⟨rfl, rfl, rfl⟩ | ⟨hxo, hx⟩
    · exact AtPlace.idle rfl
    · have hplacex := h.places x q qc hx
      have hno : .wait ∉ qc.held q := fun hmem => hxo (h.same_wait hx hat hmem hwait)
      refine hplacex.frame ?_ ?_ (fun y _ => by rw [hobj]) (by rw [hobj]) (fun c cp cs _ => by rw [hobj])
        fun y _ => by rw [hobj]
      · intro y hy
        rw [huse, update_of_ne]
        rintro rfl
        rcases hy with hm | ⟨d, hqc⟩
        · exact hno (moves_held hm)
        · -- the fork and the reaper would hold the lock of one pid
          have hpid := (hplacex.links d y hqc).2.1
          rcases hpid.symm.trans (h.reaping.entry t y htb).2
          have hlock : s.lock (.pcb t) = some x := by
            rw [h.reaping.locks.holder, heldBy_eq hx, hqc]
            exact List.mem_cons_self
          have hlock' : s.lock (.pcb t) = some o := by
            rw [h.reaping.locks.holder, heldBy_eq hat]
            exact List.mem_cons_self
          rw [hlock] at hlock'
          exact hxo (some.inj hlock')
      · rintro d bp rfl
        exact absurd (List.mem_cons_of_mem _ List.mem_cons_self) hno

/-! ## Every step -/

theorem Children.begin (h : Children s) {c : Call} (hat : s.thread o = some ⟨p, .user⟩)
    (hcall : AnyChild s (.call o c)) (hb : WaitLock.begin s o p c = some s') : Children s' := by
  have hreap := h.reaping.begin hat hb
  have hsame : ∀ s₁ : Sys, s₁.obj = s.obj → SameKin s s₁ := by
    intro s₁ hobj x
    rw [hobj]
    exact ⟨rfl, rfl, rfl, rfl⟩
  cases c with
  | fork =>
    rw [WaitLock.begin] at hb
    split at hb
    · cases hb
      exact h
    · rcases Option.bind_eq_some_iff.mp hb with ⟨q, hpop, hb⟩
      cases hb
      exact h.neutral hat hreap rfl rfl rfl rfl (hsame _ rfl) (AtPlace.idle rfl)
  | exit =>
    rw [WaitLock.begin] at hb
    split at hb
    · rename_i hp
      cases hb
      have hinit : p ≠ INIT := by
        rintro rfl
        exact absurd hp (by decide)
      refine h.neutral hat hreap rfl rfl rfl rfl (hsame _ rfl) ?_
      exact AtPlace.exit rfl hinit (fun h => by cases h) rfl (fun _ _ h => by cases h)
        (fun _ _ h => by cases h) rfl rfl
    · cases hb
  | waitAny =>
    cases hb
    exact h.neutral hat hreap rfl rfl rfl rfl (hsame _ rfl) (AtPlace.idle rfl)
  | waitPid t => exact hcall.elim

/-- A step to a place about which nothing is known, with at most one object stored. -/
theorem Children.idle (h : Children s) (hat : s.thread o = some ⟨p, pc⟩) (hreap : Reaping s')
    (pc' : Pc) (hidle : pc'.idle = true)
    (hthread : s'.thread = update s.thread o (some ⟨p, pc'⟩)) (huse : s'.inUse = s.inUse)
    (hintact : s'.intact = s.intact) (htab : s'.pcbtable = s.pcbtable) (hkin : SameKin s s') :
    Children s' :=
  h.neutral hat hreap hthread huse hintact htab hkin (AtPlace.idle hidle)

theorem SameKin.of_eq (hobj : s'.obj = s.obj) : SameKin s s' := by
  intro x
  rw [hobj]
  exact ⟨rfl, rfl, rfl, rfl⟩

/-- `do_exit` after the process has become a zombie: nobody waits for its pid, and it goes for the
    lock of its parent. -/
theorem Children.exitSelf (h : Children s) (hat : s.thread o = some ⟨p, .exitSelf⟩)
    (hreap : Reaping s') {s₁ : Sys} (hl : exitUnblock s₁ o p 0 = some s')
    (hthread : s₁.thread = s.thread) (huse : s₁.inUse = s.inUse) (hintact : s₁.intact = s.intact)
    (htab : s₁.pcbtable = s.pcbtable) (hkin : SameKin s s₁) :
    Children s' ∧ s'.obj = s₁.obj ∧ s'.inUse = s.inUse ∧ s'.pcbtable = s.pcbtable ∧
      ∃ b, s.pcbtable (s.obj o).parentpid = some b ∧
        s'.thread = update s.thread o (some ⟨p, .exitParent b (s.obj b).pid⟩) := by
  have hplace := h.places o p _ hat
  have hwaitList : (s₁.obj o).waitList = [] :=
    (hkin o).2.1.trans (h.waitList o (h.reaping.alive o p _ hat).1)
  unfold exitUnblock at hl
  rw [hwaitList, htab, (hkin o).2.2.1] at hl
  simp only [if_true] at hl
  split at hl
  · rename_i b hb
    have hs' := (some.inj hl).symm
    rw [(hkin b).1] at hs'
    have hthread' : s'.thread = update s.thread o (some ⟨p, .exitParent b (s.obj b).pid⟩) := by
      rw [hs', goto_thread, hthread]
    have hobj : s'.obj = s₁.obj := by rw [hs']; rfl
    have hkin' : SameKin s s' := by
      intro x
      rw [hobj]
      exact hkin x
    have huse' : s'.inUse = s.inUse := by rw [hs']; exact huse
    have htab' : s'.pcbtable = s.pcbtable := by rw [hs']; exact htab
    refine ⟨?_, hobj, huse', htab', b, hb, hthread'⟩
    refine h.neutral hat hreap hthread' huse' (by rw [hs']; exact hintact) htab' hkin' ?_
    refine AtPlace.exit rfl (hplace.exiting rfl) (fun _ => hplace.childless rfl) rfl nofun ?_ rfl rfl
    intro b' bp heq
    rcases Pc.exitParent.inj heq with ⟨rfl, rfl⟩
    rw [(h.reaping.entry _ b hb).2]
    exact hb
  · cases hl

/-- The walk along the children goes on. -/
theorem Children.anyLoop (h : Children s) (hat : s.thread o = some ⟨p, pc⟩) {s₁ : Sys} {cs : List Obj}
    (hreap : Reaping (WaitLock.anyLoop s₁ o p cs)) (hthread : s₁.thread = s.thread)
    (huse : s₁.inUse = s.inUse) (hintact : s₁.intact = s.intact) (htab : s₁.pcbtable = s.pcbtable)
    (hobj : s₁.obj = s.obj) (hsuffix : cs <:+ (s.obj o).childList) :
    Children (WaitLock.anyLoop s₁ o p cs) := by
  cases cs with
  | nil =>
    have hthread' : (WaitLock.anyLoop s₁ o p []).thread
        = update s.thread o (some ⟨p, .anyKilled⟩) := by
      show update s₁.thread o _ = _
      rw [hthread]
    exact h.neutral hat hreap hthread' huse hintact htab (SameKin.of_eq hobj)
      (AtPlace.walk rfl hsuffix nofun)
  | cons c cs =>
    have hthread' : (WaitLock.anyLoop s₁ o p (c :: cs)).thread
        = update s.thread o (some ⟨p, .anyScan c (s.obj c).pid cs⟩) := by
      show update s₁.thread o (some ⟨p, .anyScan c (s₁.obj c).pid cs⟩) = _
      rw [hthread, hobj]
    refine h.neutral hat hreap hthread' huse hintact htab (SameKin.of_eq hobj) ?_
    refine AtPlace.walk rfl hsuffix ?_
    intro c' cp cs' heq
    rcases Pc.anyScan.inj heq with ⟨rfl, rfl, -⟩
    rfl

/-- The process leaves; it has no children. -/
theorem Children.leave (h : Children s) (hat : s.thread o = some ⟨p, .exitSched⟩)
    (hs' : s' = { s.release (.pcb p) with thread := update s.thread o none })
    (hreap : Reaping s') : Children s' := by
  have hplace := h.places o p _ hat
  obtain ⟨hthread, hobj, huse, hintact, htab⟩ := leave_changes hs'
  have hkeeps : ∀ x, x ≠ o → s'.thread x = s.thread x := by
    intro x hx
    rw [hthread, update_of_ne hx]
  refine h.relist hreap huse hintact htab (by rw [hobj]; exact fun _ => ⟨rfl, rfl⟩) ?_
    (by rw [hobj]; exact h.nodup) ?_ ?_
  · intro x c hux hc
    rw [hobj] at hc ⊢
    rcases h.child x c hux hc with ⟨hu, q, qc, hx, hq⟩
    refine ⟨hu, q, qc, ?_, hq⟩
    rw [hkeeps x]
    · exact hx
    · rintro rfl
      rw [hplace.childless rfl] at hc
      cases hc
  · rcases h.init with ⟨i, ic, hi⟩
    refine ⟨i, ic, ?_⟩
    rw [hkeeps i]
    · exact hi
    · rintro rfl
      rw [hat] at hi
      exact hplace.exiting rfl (Thread.mk.inj (some.inj hi)).1
  · intro x q qc hx
    have hxo : x ≠ o := by
      rintro rfl
      rw [hthread, update_self] at hx
      cases hx
    rw [hkeeps x hxo] at hx
    exact (h.places x q qc hx).frame (fun y _ => by rw [huse]) (fun b bp _ => by rw [htab])
      (fun y _ => by rw [hobj]) (by rw [hobj]) (fun c cp cs _ => by rw [hobj]) fun y _ => by rw [hobj]

/-- The two objects that `fork` stores are not the same. -/
theorem forkLink_obj {s₁ : Sys} {ch : Obj} (hne : o ≠ ch)
    (hs₁ : s₁.obj = update s.obj ch { s.obj ch with parentpid := p }) :
    update s₁.obj o { s₁.obj o with childList := ch :: (s₁.obj o).childList }
      = update (update s.obj ch { s.obj ch with parentpid := p }) o
          { s.obj o with childList := ch :: (s.obj o).childList } := by
  rw [hs₁, update_of_ne hne]

/-- What the step of `exit` does to the objects that gives a child to `INIT`. -/
theorem exitChild_obj {s₁ : Sys} {c init : Obj} (hs₁ : s₁.obj = update s.obj init
      { s.obj init with childList := c :: (s.obj init).childList }) (x : Obj) :
    update s₁.obj c { s₁.obj c with parentpid := INIT } x = { s.obj x with
      childList := if x = init then c :: (s.obj x).childList else (s.obj x).childList
      parentpid := if x = c then INIT else (s.obj x).parentpid } := by
  have hlist : s₁.obj x = { s.obj x with
      childList := if x = init then c :: (s.obj x).childList else (s.obj x).childList } := by
    rw [hs₁]
    by_cases hxi : x = init
    · rw [if_pos hxi, hxi, update_self]
    · rw [if_neg hxi, update_of_ne hxi]
  by_cases hxc : x = c
  · subst hxc
    rw [if_pos rfl, update_self, hlist]
  · rw [if_neg hxc, update_of_ne hxc, hlist]

theorem Children.advance (h : Children s) {statusOk : Bool} (hat : s.thread o = some ⟨p, pc⟩)
    (ha : WaitLock.advance s o p statusOk pc = some s') : Children s' := by
  have hplace := h.places o p pc hat
  have huo := (h.reaping.alive o p pc hat).1
  have hreap : Reaping s' := by
    refine h.reaping.advance hat ?_ ha
    rintro t b rfl
    cases hplace.any
  cases advance_cases ha with
  | exitWake | exitRelWake | pidBeginNone | pidBegin | pidFail | pidBlock | pidRelTarget | pidSched
  | pidAsleep | pidWoken | pidRelock | pidWait =>
    cases hplace.any
  | start => exact h.idle hat hreap .startRel rfl rfl rfl rfl rfl (SameKin.of_eq rfl)
  | startRel => exact h.idle hat hreap .user rfl rfl rfl rfl rfl (SameKin.of_eq rfl)
  | forkLock hfree => exact h.alloc hat hfree rfl hreap
  | @forkLink c ch s₁ hfree hs₁ =>
    subst hs₁
    have hne := ((hplace.links c ch rfl).2.2.2).symm
    exact h.link hat hfree hreap rfl rfl rfl rfl (forkLink_obj hne rfl)
  | @forkRelWait c ch =>
    exact h.idle hat hreap (.forkReady c ch) rfl rfl rfl rfl rfl (SameKin.of_eq rfl)
  | forkReady =>
    exact h.idle hat hreap .user rfl rfl rfl rfl rfl (SameKin.update rfl rfl rfl rfl rfl)
  | exitBegin _ hloop | exitRelInit hloop =>
    exact h.exitLoop hat (hplace.exiting rfl) hreap hloop rfl rfl rfl rfl rfl
  | exitInit =>
    refine h.neutral hat hreap rfl rfl rfl rfl (SameKin.of_eq rfl) ?_
    refine ⟨rfl, fun _ => hplace.exiting rfl, nofun, hplace.moves, ?_, nofun, nofun, nofun, nofun,
      nofun⟩
    intro c' cp heq
    rcases Pc.exitChild.inj heq with ⟨rfl, rfl⟩
    rfl
  | @exitChild c init cp s₁ hfree hinit hs₁ =>
    have hobj := exitChild_obj (s := s)
      (show s₁.obj = update s.obj init _ from congrArg Sys.obj hs₁)
    subst hs₁
    refine h.adopt hat hinit hreap rfl rfl rfl rfl (fun x => congrArg Pcb.childList (hobj x))
      (fun x => congrArg Pcb.parentpid (hobj x)) fun x => ?_
    have hpid := congrArg Pcb.pid (hobj x)
    have hwait := congrArg Pcb.waitList (hobj x)
    exact ⟨hpid, hwait⟩
  | exitRelChildWake =>
    refine h.neutral hat hreap rfl rfl rfl rfl (SameKin.update rfl rfl rfl rfl rfl) ?_
    exact AtPlace.exit rfl (hplace.exiting rfl) nofun rfl nofun nofun rfl rfl
  | exitRelChild =>
    refine h.neutral hat hreap rfl rfl rfl rfl (SameKin.of_eq rfl) ?_
    exact AtPlace.exit rfl (hplace.exiting rfl) nofun rfl nofun nofun rfl rfl
  | exitSelf _ hloop =>
    exact (h.exitSelf hat hreap hloop rfl rfl rfl rfl (SameKin.update rfl rfl rfl rfl rfl)).1
  | exitParentWake =>
    refine h.neutral hat hreap rfl rfl rfl rfl (SameKin.update rfl rfl rfl rfl rfl) ?_
    exact AtPlace.exit rfl (hplace.exiting rfl) (fun _ => hplace.childless rfl) rfl nofun nofun rfl rfl
  | exitParent | exitRelParent | exitRelWait =>
    refine h.neutral hat hreap rfl rfl rfl rfl (SameKin.of_eq rfl) ?_
    exact AtPlace.exit rfl (hplace.exiting rfl) (fun _ => hplace.childless rfl) rfl nofun nofun rfl rfl
  | exitSched => exact h.leave hat rfl hreap
  | anyBeginNone => exact h.idle hat hreap .anyFail rfl rfl rfl rfl rfl (SameKin.of_eq rfl)
  | anyBegin _ hlist => exact h.anyLoop hat hreap rfl rfl rfl rfl rfl ⟨[], hlist.symm⟩
  | anyFail => exact h.idle hat hreap .user rfl rfl rfl rfl rfl (SameKin.of_eq rfl)
  | @anyScanFound c b cp cs _ hparent _ htarget =>
    have hmem := (hplace.rest (c :: cs) rfl).subset List.mem_cons_self
    -- the process that is found is the one on the list
    have hbc : b = c := by
      have hreg := h.registered c (h.child o c huo hmem).1
      rw [← hplace.scan c cp cs rfl] at hreg
      exact (some.inj (hreg.symm.trans htarget)).symm
    subst hbc
    refine h.shrink hat hreap List.erase_sublist rfl rfl rfl rfl rfl (AtPlace.found rfl rfl ⟨?_, ?_⟩)
    · show (update s.obj o _ b).parentpid = p
      by_cases hbo : b = o
      · subst hbo
        rw [update_self]
        exact hparent
      · rw [update_of_ne hbo]
        exact hparent
    · show b ∉ (update s.obj o _ o).childList
      rw [update_self]
      exact (h.nodup o huo).not_mem_erase
  | @anyScan c cp cs =>
    refine h.neutral hat hreap rfl rfl rfl rfl (SameKin.of_eq rfl) ?_
    exact AtPlace.walk rfl ((List.suffix_cons c cs).trans (hplace.rest (c :: cs) rfl)) nofun
  | @anyRelChild cp cs => exact h.anyLoop hat hreap rfl rfl rfl rfl rfl (hplace.rest cs rfl)
  | anyKilled | anyRelKilled =>
    refine h.neutral hat hreap rfl rfl rfl rfl (SameKin.of_eq rfl) ?_
    exact AtPlace.walk rfl List.nil_suffix nofun
  | anyRelWait => exact h.idle hat hreap .anyBlock rfl rfl rfl rfl rfl (SameKin.of_eq rfl)
  | anyBlock =>
    exact h.idle hat hreap .anySched rfl rfl rfl rfl rfl (SameKin.update rfl rfl rfl rfl rfl)
  | anySched => exact h.idle hat hreap .anyAsleep rfl rfl rfl rfl rfl (SameKin.of_eq rfl)
  | anyAsleep =>
    exact h.idle hat hreap .anyWoken rfl rfl rfl rfl rfl (SameKin.update rfl rfl rfl rfl rfl)
  | anyWoken => exact h.idle hat hreap .anyBegin rfl rfl rfl rfl rfl (SameKin.of_eq rfl)
  | @foundKilled t b | @foundRelKilled t b | @reap t b =>
    refine h.neutral hat hreap rfl rfl rfl rfl (SameKin.of_eq rfl) ?_
    exact AtPlace.found rfl rfl (hplace.target t b rfl)
  | @reapRefused t => exact h.idle hat hreap (.reapRelWait t) rfl rfl rfl rfl rfl (SameKin.of_eq rfl)
  | reapFree => exact h.free hat hreap rfl
  | @reapRelWait t => exact h.idle hat hreap (.reapRelPcb t) rfl rfl rfl rfl rfl (SameKin.of_eq rfl)
  | reapRelPcb => exact h.idle hat hreap .user rfl rfl rfl rfl rfl (SameKin.of_eq rfl)

theorem Children.step (h : Children s) {i : Input} (hcall : AnyChild s i) (hs : Step s i s') :
    Children s' := by
  cases hs with
  | call hat hb => exact h.begin hat hcall hb
  | run hat hintact ha => exact h.advance hat ha
  | wild hat hlost =>
    rcases hlost with ⟨c, hmem, hc⟩
    rw [h.touched_intact hat c hmem] at hc
    cases hc
  | reuse hfree =>
    rename_i x
    refine ⟨h.reaping.reuse x, ?_, h.waitList, h.registered, h.child, h.nodup, h.init, ?_⟩
    · intro y hy
      show update s.intact x false y = true
      rw [update_of_ne]
      · exact h.intact y hy
      · rintro rfl
        rw [hfree] at hy
        cases hy
    · intro y q qc hy
      exact (h.places y q qc hy).frame (fun _ _ => rfl) (fun _ _ _ => rfl) (fun _ _ => rfl) rfl
        (fun _ _ _ _ => rfl) fun _ _ => rfl

theorem Booted.children (h : Booted s) : Children s := by
  have honly : ∀ x, s.inUse x = true → x = 0 := by
    intro x hx
    rw [h.inUse] at hx
    by_contra hne
    rw [update_of_ne hne] at hx
    cases hx
  refine ⟨h.reaping, ?_, ?_, ?_, ?_, ?_, ⟨0, .user, ?_⟩, ?_⟩
  · intro x hx
    rw [honly x hx]
    exact h.intact
  · intro x hx
    rw [honly x hx, h.obj]
    rfl
  · intro x hx
    rw [honly x hx, h.obj, h.pcbtable]
    exact update_self ..
  · intro x c hx hc
    rw [honly x hx, h.obj] at hc
    cases hc
  · intro x hx
    rw [honly x hx, h.obj]
    exact List.nodup_nil
  · rw [h.thread, update_self]
  · intro o p pc ho
    rw [h.thread] at ho
    by_cases h0 : o = 0
    · rw [h0, update_self] at ho
      cases ho
      exact AtPlace.idle rfl
    · rw [update_of_ne h0] at ho
      cases ho

end Uniks.WaitLock
