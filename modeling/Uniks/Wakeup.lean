/-
  `wait4` for any child against `exit`: is the parent woken?

  The parent looks at its children under `wait_lock`, gives that lock back, and only then takes its
  own lock to set `w4child` and to block.  A child that exits tests `w4child` under `wait_lock` and
  the lock of the parent.  Between the two steps of the parent (`anyBlock`) the test comes too
  early: the parent has seen no zombie, the child sees no waiting parent, and the parent goes to
  sleep.  The same goes for a zombie that `reparent` hands to `INIT` there.

  In all other places the locks are in order (`Watchful`): while the parent walks along its list no
  child becomes a zombie, and when it sleeps every child that has died since has yet to make its
  test.
-/
import Uniks.Children

namespace Uniks.WaitLock

open Uniks.Queue Uniks.Runs
open Uniks.Proc (NPROC Pid INIT)
open Function (update update_self update_of_ne)
open Option (some)

variable {s s' : Sys} {o : Obj} {p : Pid} {pc : Pc}

/-! ## Lost wake-ups -/

/-- The process waits for a child to exit. -/
def Pc.sleeping : Pc → Bool
  | .anySched | .anyAsleep => true
  | _ => false

/-- The process has yet to look whether its parent waits. -/
def Pc.notifying : Pc → Bool
  | .exitWake _ _ _ | .exitRelWake _ _ | .exitParent _ _ => true
  | _ => false

/-- A zombie that has made its notification in `do_exit`. -/
def Notified (s : Sys) (c : Obj) : Prop :=
  ∀ q qc, s.thread c = some ⟨q, qc⟩ → qc.notifying = false

/-- A process in `reparent` is about to test whether `INIT` waits. -/
def InitPending (s : Sys) (o : Obj) : Prop :=
  s.pcbtable INIT = some o ∧ ∃ x q cp, s.thread x = some ⟨q, .exitRelChild cp⟩

/-- Somebody is about to wake the process. -/
def WakePending (s : Sys) (o : Obj) : Prop :=
  InitPending s o ∨ ∃ x q bp, s.thread x = some ⟨q, .exitParent o bp⟩

/-- A process is blocked in `wait4` although one of its children is a zombie, and nobody is going to
    wake it. -/
def LostWakeup (s : Sys) : Prop :=
  ∃ o c, s.inUse o = true ∧ (s.obj o).state = .block ∧ (s.obj o).w4child = true ∧
    c ∈ (s.obj o).childList ∧ (s.obj c).state = .zombie ∧ Notified s c ∧ ¬ WakePending s o

/-- Nobody tests `w4child` of a process that has looked at its children and not yet gone to sleep:
    no child in `do_exit`, and nobody who hands a zombie to `INIT`. -/
def Attentive (s : Sys) : Input → Prop
  | .run o _ => ∀ p pc, s.thread o = some ⟨p, pc⟩ →
      (∀ b bp, pc = .exitParent b bp → ∀ q, s.thread b ≠ some ⟨q, .anyBlock⟩) ∧
        ∀ c cp, pc = .exitChild c cp → (s.obj c).state = .zombie →
          ∀ i q, s.pcbtable INIT = some i → s.thread i ≠ some ⟨q, .anyBlock⟩
  | _ => True

/-! ## The invariant -/

/-- What a process in `wait4` may rely on: the children it has walked past are alive; before it
    blocks, and while it is blocked, those that have died have yet to make their test. -/
structure Watchful (s : Sys) (o : Obj) (pc : Pc) : Prop where
  asleep : pc.sleeping = true → (s.obj o).w4child = true
  seen : ∀ cs pre, pc.rest = some cs → (s.obj o).childList = pre ++ cs →
    ∀ c ∈ pre, (s.obj c).state ≠ .zombie
  blocking : pc = .anyBlock → ∀ c ∈ (s.obj o).childList, (s.obj c).state = .zombie → ¬ Notified s c
  watch : pc.sleeping = true → (s.obj o).state = .block →
    ∀ c ∈ (s.obj o).childList, (s.obj c).state = .zombie → ¬ Notified s c ∨ InitPending s o

structure Awake (s : Sys) : Prop where
  children : Children s
  awake : ∀ x, s.inUse x = true → (s.obj x).state = .block ∨ (s.obj x).w4child = true →
    ∃ p pc, s.thread x = some ⟨p, pc⟩ ∧ pc.sleeping = true
  watchful : ∀ o p pc, s.thread o = some ⟨p, pc⟩ → Watchful s o pc

/-- Most places say nothing. -/
theorem Watchful.elsewhere (hsleep : pc.sleeping = false) (hrest : pc.rest = none)
    (hblock : pc ≠ .anyBlock) : Watchful s o pc := by
  refine ⟨?_, ?_, fun heq => absurd heq hblock, ?_⟩
  · intro h
    rw [hsleep] at h
    cases h
  · intro cs pre h
    rw [hrest] at h
    cases h
  · intro h
    rw [hsleep] at h
    cases h

/-- The process is not blocked. -/
theorem Awake.not_sleeping (h : Awake s) (hat : s.thread o = some ⟨p, pc⟩)
    (hsleep : pc.sleeping = false) : (s.obj o).state ≠ .block ∧ (s.obj o).w4child = false := by
  have hnot : ¬ ((s.obj o).state = .block ∨ (s.obj o).w4child = true) := by
    intro hor
    rcases h.awake o (h.children.reaping.alive o p pc hat).1 hor with ⟨q, qc, hq, hqs⟩
    rw [hat] at hq
    cases hq
    rw [hsleep] at hqs
    cases hqs
  refine ⟨fun hb => hnot (.inl hb), ?_⟩
  cases hw : (s.obj o).w4child with
  | false => rfl
  | true => exact absurd (.inr hw) hnot

/-- What a process may rely on stays so if its list does, no child has died behind its back, and no
    child has made its test. -/
theorem Watchful.frame (h : Watchful s o pc) (hflag : (s'.obj o).w4child = (s.obj o).w4child)
    (hstate : (s'.obj o).state = .block → (s.obj o).state = .block)
    (hlist : (s'.obj o).childList = (s.obj o).childList)
    (htest : pc = .anyBlock ∨ (pc.sleeping = true ∧ (s'.obj o).state = .block) →
      ∀ c ∈ (s.obj o).childList, (s'.obj c).state = .zombie → Notified s' c →
        (s.obj c).state = .zombie ∧ Notified s c)
    (hseen : pc.rest ≠ none → ∀ c ∈ (s.obj o).childList, (s'.obj c).state = .zombie →
      (s.obj c).state = .zombie)
    (hpend : pc.sleeping = true → (s'.obj o).state = .block → InitPending s o → InitPending s' o) :
    Watchful s' o pc := by
  refine ⟨?_, ?_, ?_, ?_⟩
  · intro hs
    rw [hflag]
    exact h.asleep hs
  · intro cs pre hcs hl c hc hz
    rw [hlist] at hl
    have hmem : c ∈ (s.obj o).childList := by
      rw [hl]
      exact List.mem_append_left cs hc
    have hrest : pc.rest ≠ none := by
      rw [hcs]
      exact nofun
    exact h.seen cs pre hcs hl c hc (hseen hrest c hmem hz)
  · intro hpc c hc hz hn
    rw [hlist] at hc
    rcases htest (.inl hpc) c hc hz hn with ⟨hz', hn'⟩
    exact h.blocking hpc c hc hz' hn'
  · intro hs hb c hc hz
    rw [hlist] at hc
    by_cases hn : Notified s' c
    · rcases htest (.inr ⟨hs, hb⟩) c hc hz hn with ⟨hz', hn'⟩
      rcases h.watch hs (hstate hb) c hc hz' with hno | hp
      · exact absurd hn' hno
      · exact .inr (hpend hs hb hp)
    · exact .inl hn

/-- The process goes to another place. -/
theorem Awake.build (h : Awake s) (hkin : Children s') {pc' : Pc}
    (hthread : s'.thread = update s.thread o (some ⟨p, pc'⟩))
    (huse : ∀ x, s'.inUse x = true → s.inUse x = true)
    (hflags : ∀ x, x ≠ o → (s'.obj x).w4child = (s.obj x).w4child ∧
      ((s'.obj x).state = .block → (s.obj x).state = .block))
    (hself : (s'.obj o).state = .block ∨ (s'.obj o).w4child = true → pc'.sleeping = true)
    (hown : Watchful s' o pc')
    (hothers : ∀ x q qc, x ≠ o → s.thread x = some ⟨q, qc⟩ → Watchful s' x qc) : Awake s' := by
  refine ⟨hkin, ?_, ?_⟩
  · intro x hx hor
    by_cases hxo : x = o
    · subst hxo
      refine ⟨p, pc', ?_, hself hor⟩
      rw [hthread, update_self]
    · rcases hflags x hxo with ⟨hw, hb⟩
      rw [hw] at hor
      rw [hthread, update_of_ne hxo]
      exact h.awake x (huse x hx) (hor.imp_left hb)
  · intro x q qc hx
    rcases thread_cases hthread hx with ⟨rfl, rfl, rfl⟩ | ⟨hxo, hx⟩
    · exact hown
    · exact hothers x q qc hxo hx

/-- Whether a zombie has made its test is told from its place. -/
theorem notified_of_ne {pc' : Pc} (hthread : s'.thread = update s.thread o (some ⟨p, pc'⟩))
    {c : Obj} (hc : c ≠ o) (hn : Notified s' c) : Notified s c := by
  intro q qc hq
  refine hn q qc ?_
  rw [hthread, update_of_ne hc]
  exact hq

/-- A process that makes no test now has made it before. -/
theorem notified_back {pc' : Pc} (hat : s.thread o = some ⟨p, pc⟩)
    (hthread : s'.thread = update s.thread o (some ⟨p, pc'⟩)) (hnot : pc.notifying = false)
    {c : Obj} (hn : Notified s' c) : Notified s c := by
  by_cases hc : c = o
  · subst hc
    intro q qc hq
    rw [hat] at hq
    cases hq
    exact hnot
  · exact notified_of_ne hthread hc hn

theorem initPending_keeps {pc' : Pc} (hat : s.thread o = some ⟨p, pc⟩)
    (hthread : s'.thread = update s.thread o (some ⟨p, pc'⟩))
    (htab : ∀ x, s.pcbtable INIT = some x → s'.pcbtable INIT = some x)
    (hrel : ∀ cp, pc ≠ .exitRelChild cp) {y : Obj} (hp : InitPending s y) : InitPending s' y := by
  rcases hp with ⟨hy, x, q, cp, hx⟩
  refine ⟨htab y hy, x, q, cp, ?_⟩
  rw [hthread, update_of_ne]
  · exact hx
  · rintro rfl
    rw [hat] at hx
    exact hrel cp (Thread.mk.inj (some.inj hx)).2

/-! ## Steps -/

/-- A step that stores no object, by a process that is not about to test anything. -/
theorem Awake.quiet (h : Awake s) (hat : s.thread o = some ⟨p, pc⟩) (hkin : Children s') (pc' : Pc)
    (hthread : s'.thread = update s.thread o (some ⟨p, pc'⟩)) (hobj : s'.obj = s.obj)
    (huse : ∀ x, s'.inUse x = true → s.inUse x = true)
    (htab : ∀ x, s.pcbtable INIT = some x → s'.pcbtable INIT = some x)
    (hnot : pc.notifying = false) (hrel : ∀ cp, pc ≠ .exitRelChild cp)
    (hsleep : pc.sleeping = true → pc'.sleeping = true) (hown : Watchful s' o pc') : Awake s' := by
  refine h.build hkin hthread huse ?_ ?_ hown ?_
  · intro x hx
    rw [hobj]
    exact ⟨rfl, id⟩
  · intro hor
    apply hsleep
    rw [hobj] at hor
    rcases h.awake o (h.children.reaping.alive o p pc hat).1 hor with ⟨q, qc, hq, hqs⟩
    rw [hat] at hq
    cases hq
    exact hqs
  · intro x q qc hx hqc
    refine (h.watchful x q qc hqc).frame (by rw [hobj]) (by rw [hobj]; exact id) (by rw [hobj]) ?_ ?_ ?_
    · intro _ c hc hz hn
      rw [hobj] at hz
      exact ⟨hz, notified_back hat hthread hnot hn⟩
    · intro _ c hc hz
      rw [hobj] at hz
      exact hz
    · intro _ _ hp
      exact initPending_keeps hat hthread htab hrel hp

/-- A quiet step to a place that says nothing. -/
theorem Awake.quietly (h : Awake s) (hat : s.thread o = some ⟨p, pc⟩) (hkin : Children s') (pc' : Pc)
    (hthread : s'.thread = update s.thread o (some ⟨p, pc'⟩)) (hobj : s'.obj = s.obj)
    (huse : s'.inUse = s.inUse) (htab : s'.pcbtable = s.pcbtable) (hnot : pc.notifying = false)
    (hrel : ∀ cp, pc ≠ .exitRelChild cp) (hasleep : pc.sleeping = false)
    (hsleep : pc'.sleeping = false) (hrest : pc'.rest = none) (hblock : pc' ≠ .anyBlock) :
    Awake s' := by
  refine h.quiet hat hkin pc' hthread hobj (by rw [huse]; exact fun _ => id)
    (by rw [htab]; exact fun _ => id) hnot hrel ?_ (Watchful.elsewhere hsleep hrest hblock)
  intro hs
  rw [hasleep] at hs
  cases hs

/-- The process changes its own list, or the parent of a new process, and goes to a place that says
    nothing. -/
theorem Awake.listed (h : Awake s) (hat : s.thread o = some ⟨p, pc⟩) (hkin : Children s') {pc' : Pc}
    (hthread : s'.thread = update s.thread o (some ⟨p, pc'⟩)) (huse : s'.inUse = s.inUse)
    (htab : s'.pcbtable = s.pcbtable)
    (hobj : ∀ x, (s'.obj x).w4child = (s.obj x).w4child ∧ (s'.obj x).state = (s.obj x).state ∧
      (x ≠ o → (s'.obj x).childList = (s.obj x).childList))
    (hnot : pc.notifying = false) (hrel : ∀ cp, pc ≠ .exitRelChild cp)
    (hasleep : pc.sleeping = false) (hsleep : pc'.sleeping = false) (hrest : pc'.rest = none)
    (hblock : pc' ≠ .anyBlock) : Awake s' := by
  refine h.build hkin hthread (by rw [huse]; exact fun _ => id) ?_ ?_
    (Watchful.elsewhere hsleep hrest hblock) ?_
  · intro x _
    rw [(hobj x).2.1]
    exact ⟨(hobj x).1, id⟩
  · rw [(hobj o).1, (hobj o).2.1]
    rcases h.not_sleeping hat hasleep with ⟨hb, hw⟩
    rintro (hb' | hw')
    · exact absurd hb' hb
    · rw [hw] at hw'
      cases hw'
  · intro x q qc hx hqc
    refine (h.watchful x q qc hqc).frame (hobj x).1 (by rw [(hobj x).2.1]; exact id)
      ((hobj x).2.2 hx) ?_ ?_ ?_
    · intro _ c hc hz hn
      rw [(hobj c).2.1] at hz
      exact ⟨hz, notified_back hat hthread hnot hn⟩
    · intro _ c hc hz
      rw [(hobj c).2.1] at hz
      exact hz
    · intro _ _ hp
      exact initPending_keeps hat hthread (by rw [htab]; exact fun _ => id) hrel hp

/-- A process is woken: nobody becomes a zombie, and nobody blocks. -/
theorem Awake.woken (h : Awake s) (hat : s.thread o = some ⟨p, pc⟩) (hkin : Children s') {pc' : Pc}
    {b : Obj} (hthread : s'.thread = update s.thread o (some ⟨p, pc'⟩))
    (huse : s'.inUse = s.inUse)
    (hobj : s'.obj = update s.obj b { s.obj b with state := .ready }) (hasleep : pc.sleeping = false)
    (hsleep : pc'.sleeping = false) (hrest : pc'.rest = none) (hblock : pc' ≠ .anyBlock)
    (htest : ∀ x q qc, x ≠ o → s.thread x = some ⟨q, qc⟩ →
      qc = .anyBlock ∨ (qc.sleeping = true ∧ x ≠ b) → ∀ c ∈ (s.obj x).childList,
        (s.obj c).state = .zombie → Notified s' c → Notified s c)
    (hpend : ∀ x q qc, x ≠ o → s.thread x = some ⟨q, qc⟩ → qc.sleeping = true → x ≠ b →
      InitPending s x → InitPending s' x) : Awake s' := by
  have hfields : ∀ x, (s'.obj x).w4child = (s.obj x).w4child ∧
      (s'.obj x).childList = (s.obj x).childList ∧
        ((s'.obj x).state = .block → x ≠ b ∧ (s.obj x).state = .block) ∧
          ((s'.obj x).state = .zombie → (s.obj x).state = .zombie) := by
    intro x
    rw [hobj]
    by_cases hx : x = b
    · subst hx
      rw [update_self]
      exact ⟨rfl, rfl, nofun, nofun⟩
    · rw [update_of_ne hx]
      exact ⟨rfl, rfl, fun hb => ⟨hx, hb⟩, id⟩
  refine h.build hkin hthread (by rw [huse]; exact fun _ => id) ?_ ?_
    (Watchful.elsewhere hsleep hrest hblock) ?_
  · intro x _
    exact ⟨(hfields x).1, fun hb => ((hfields x).2.2.1 hb).2⟩
  · rw [(hfields o).1]
    rcases h.not_sleeping hat hasleep with ⟨hb, hw⟩
    rintro (hb' | hw')
    · exact absurd ((hfields o).2.2.1 hb').2 hb
    · rw [hw] at hw'
      cases hw'
  · intro x q qc hx hqc
    refine (h.watchful x q qc hqc).frame (hfields x).1 (fun hb => ((hfields x).2.2.1 hb).2)
      (hfields x).2.1 ?_ ?_ ?_
    · intro hwhere c hc hz hn
      have hz' := (hfields c).2.2.2 hz
      refine ⟨hz', htest x q qc hx hqc ?_ c hc hz' hn⟩
      exact hwhere.imp_right fun hs => ⟨hs.1, ((hfields x).2.2.1 hs.2).1⟩
    · intro _ c hc hz
      exact (hfields c).2.2.2 hz
    · intro hs hb hp
      exact hpend x q qc hx hqc hs ((hfields x).2.2.1 hb).1 hp

/-- `reparent` goes on with the next child, or is through. -/
theorem Awake.exitLoop (h : Awake s) (hat : s.thread o = some ⟨p, pc⟩) (hkin : Children s') {s₁ : Sys}
    (hl : WaitLock.exitLoop s₁ o p = some s') (hthread : s₁.thread = s.thread)
    (huse : s₁.inUse = s.inUse) (htab : s₁.pcbtable = s.pcbtable) (hobj : s₁.obj = s.obj)
    (hnot : pc.notifying = false) (hrel : ∀ cp, pc ≠ .exitRelChild cp)
    (hasleep : pc.sleeping = false) : Awake s' := by
  unfold WaitLock.exitLoop at hl
  rw [hobj] at hl
  split at hl
  · have hs' := (some.inj hl).symm
    exact h.quietly hat hkin .exitSelf (by rw [hs', goto_thread, hthread])
      (by rw [hs']; exact hobj) (by rw [hs']; exact huse) (by rw [hs']; exact htab) hnot hrel hasleep
      rfl rfl nofun
  · rename_i c cs hcons
    split at hl
    · have hs' := (some.inj hl).symm
      have hobj' : s'.obj = update s.obj o { s.obj o with childList := cs } := by
        rw [hs']
        show update s₁.obj o _ = _
        rw [hobj]
      have hthread' : s'.thread = update s.thread o (some ⟨p, .exitInit c⟩) := by
        rw [hs']
        show update s₁.thread o _ = _
        rw [hthread]
      refine h.listed hat hkin hthread' (by rw [hs']; exact huse) (by rw [hs']; exact htab) ?_ hnot
        hrel hasleep rfl rfl nofun
      intro x
      rw [hobj']
      by_cases hx : x = o
      · subst hx
        rw [update_self]
        exact ⟨rfl, rfl, fun hne => absurd rfl hne⟩
      · rw [update_of_ne hx]
        exact ⟨rfl, rfl, fun _ => rfl⟩
    · cases hl

/-- `fork` puts the new process on the list. -/
theorem Awake.link (h : Awake s) {c : Pid} {ch : Obj} (hat : s.thread o = some ⟨p, .forkLink c ch⟩)
    (hkin : Children s')
    (hthread : s'.thread = update s.thread o (some ⟨p, .forkRelWait c ch⟩))
    (huse : s'.inUse = s.inUse) (htab : s'.pcbtable = s.pcbtable)
    (hobj : s'.obj = update (update s.obj ch { s.obj ch with parentpid := p }) o
      { s.obj o with childList := ch :: (s.obj o).childList }) : Awake s' := by
  refine h.listed hat hkin hthread huse htab ?_ rfl nofun rfl rfl rfl nofun
  intro x
  rw [hobj]
  by_cases hx : x = o
  · subst hx
    rw [update_self]
    exact ⟨rfl, rfl, fun hne => absurd rfl hne⟩
  · rw [update_of_ne hx]
    by_cases hxc : x = ch
    · subst hxc
      rw [update_self]
      exact ⟨rfl, rfl, fun _ => rfl⟩
    · rw [update_of_ne hxc]
      exact ⟨rfl, rfl, fun _ => rfl⟩

/-- `reparent` hands a child to `INIT`, and will test whether `INIT` waits. -/
theorem Awake.adopt (h : Awake s) {c init : Obj} {cp : Pid}
    (hat : s.thread o = some ⟨p, .exitChild c cp⟩) (hinit : s.pcbtable INIT = some init)
    (hcond : (s.obj c).state = .zombie → ∀ q, s.thread init ≠ some ⟨q, .anyBlock⟩)
    (hkin : Children s')
    (hthread : s'.thread = update s.thread o (some ⟨p, .exitRelChild cp⟩))
    (huse : s'.inUse = s.inUse) (htab : s'.pcbtable = s.pcbtable)
    (hobj : ∀ x, (s'.obj x).w4child = (s.obj x).w4child ∧ (s'.obj x).state = (s.obj x).state ∧
      (s'.obj x).childList = if x = init then c :: (s.obj x).childList else (s.obj x).childList) :
    Awake s' := by
  have hpend : InitPending s' init := by
    refine ⟨by rw [htab]; exact hinit, o, p, cp, ?_⟩
    rw [hthread, update_self]
  have hwait : .wait ∈ Pc.held p (.exitChild c cp) := List.mem_cons_of_mem _ List.mem_cons_self
  refine h.build hkin hthread (by rw [huse]; exact fun _ => id) ?_ ?_
    (Watchful.elsewhere rfl rfl nofun) ?_
  · intro x _
    rw [(hobj x).2.1]
    exact ⟨(hobj x).1, id⟩
  · rw [(hobj o).1, (hobj o).2.1]
    rcases h.not_sleeping hat rfl with ⟨hb, hw⟩
    rintro (hb' | hw')
    · exact absurd hb' hb
    · rw [hw] at hw'
      cases hw'
  · intro x q qc hxo hqc
    have hx := h.watchful x q qc hqc
    by_cases hxi : x = init
    · subst hxi
      refine ⟨?_, ?_, ?_, fun _ _ _ _ _ => .inr hpend⟩
      · rw [(hobj x).1]
        exact hx.asleep
      · intro cs pre hcs
        exact absurd (h.children.same_wait hqc hat (rest_held hcs) hwait) hxo
      · intro hpc c' hc' hz
        rw [(hobj x).2.2, if_pos rfl] at hc'
        rw [(hobj c').2.1] at hz
        intro hn
        rcases List.mem_cons.mp hc' with heq | hmem
        · rw [heq] at hz
          rw [hpc] at hqc
          exact hcond hz q hqc
        · exact hx.blocking hpc c' hmem hz (notified_back hat hthread rfl hn)
    · refine hx.frame (hobj x).1 (by rw [(hobj x).2.1]; exact id)
        (by rw [(hobj x).2.2, if_neg hxi]) ?_ ?_ ?_
      · intro _ c' hc' hz hn
        rw [(hobj c').2.1] at hz
        exact ⟨hz, notified_back hat hthread rfl hn⟩
      · intro _ c' hc' hz
        rw [(hobj c').2.1] at hz
        exact hz
      · intro _ _ hp
        exact initPending_keeps hat hthread (by rw [htab]; exact fun _ => id) nofun hp

/-- The process becomes a zombie; it has yet to make its test. -/
theorem Awake.exitSelf (h : Awake s) (hat : s.thread o = some ⟨p, .exitSelf⟩) (hkin : Children s')
    {b : Obj} {bp : Pid}
    (hthread : s'.thread = update s.thread o (some ⟨p, .exitParent b bp⟩))
    (huse : s'.inUse = s.inUse) (htab : s'.pcbtable = s.pcbtable)
    (hobj : s'.obj = update s.obj o { s.obj o with state := .zombie }) : Awake s' := by
  have hself : s'.obj o = { s.obj o with state := .zombie } := by
    rw [hobj, update_self]
  have hoff : ∀ x, x ≠ o → s'.obj x = s.obj x := by
    intro x hx
    rw [hobj, update_of_ne hx]
  have hnot : ¬ Notified s' o := by
    intro hn
    have htrue := hn p (.exitParent b bp) (by rw [hthread, update_self])
    cases htrue
  refine h.build hkin hthread (by rw [huse]; exact fun _ => id) ?_ ?_
    (Watchful.elsewhere rfl rfl nofun) ?_
  · intro x hx
    rw [hoff x hx]
    exact ⟨rfl, id⟩
  · rw [hself]
    rcases h.not_sleeping hat rfl with ⟨-, hw⟩
    rintro (hb' | hw')
    · cases hb'
    · rw [hw] at hw'
      cases hw'
  · intro x q qc hxo hqc
    refine (h.watchful x q qc hqc).frame (by rw [hoff x hxo]) (by rw [hoff x hxo]; exact id)
      (by rw [hoff x hxo]) ?_ ?_ ?_
    · intro _ c hc hz hn
      have hco : c ≠ o := by
        rintro rfl
        exact hnot hn
      rw [hoff c hco] at hz
      exact ⟨hz, notified_of_ne hthread hco hn⟩
    · -- whoever walks along its children has the lock that `do_exit` has here
      intro hrest c hc hz
      cases hr : qc.rest with
      | none => exact absurd hr hrest
      | some cs =>
        exact absurd (h.children.same_wait hqc hat (rest_held hr) List.mem_cons_self) hxo
    · intro _ _ hp
      exact initPending_keeps hat hthread (by rw [htab]; exact fun _ => id) nofun hp

/-- A process tests `w4child` of another one, and wakes it if it waits. -/
theorem Awake.tested (h : Awake s) (hat : s.thread o = some ⟨p, pc⟩) (hkin : Children s') {pc' : Pc}
    {b : Obj} (hthread : s'.thread = update s.thread o (some ⟨p, pc'⟩))
    (huse : s'.inUse = s.inUse)
    (hobj : s'.obj = if (s.obj b).w4child = true
      then update s.obj b { s.obj b with state := .ready } else s.obj)
    (hasleep : pc.sleeping = false) (hsleep : pc'.sleeping = false) (hrest : pc'.rest = none)
    (hblock : pc' ≠ .anyBlock)
    (htest : ∀ x q qc, x ≠ o → s.thread x = some ⟨q, qc⟩ →
      qc = .anyBlock ∨ (qc.sleeping = true ∧ x ≠ b) → ∀ c ∈ (s.obj x).childList,
        (s.obj c).state = .zombie → Notified s' c → Notified s c)
    (hpend : ∀ x q qc, x ≠ o → s.thread x = some ⟨q, qc⟩ → qc.sleeping = true → x ≠ b →
      InitPending s x → InitPending s' x) : Awake s' := by
  split at hobj
  · exact h.woken hat hkin hthread huse hobj hasleep hsleep hrest hblock htest hpend
  · rename_i hflag
    refine h.build hkin hthread (by rw [huse]; exact fun _ => id) ?_ ?_
      (Watchful.elsewhere hsleep hrest hblock) ?_
    · intro x _
      rw [hobj]
      exact ⟨rfl, id⟩
    · rw [hobj]
      rcases h.not_sleeping hat hasleep with ⟨hb, hw⟩
      rintro (hb' | hw')
      · exact absurd hb' hb
      · rw [hw] at hw'
        cases hw'
    · intro x q qc hxo hqc
      have hx := h.watchful x q qc hqc
      -- a process that sleeps has its flag set
      have hne : qc.sleeping = true → x ≠ b := by
        rintro hs rfl
        exact hflag (hx.asleep hs)
      refine hx.frame (by rw [hobj]) (by rw [hobj]; exact id) (by rw [hobj]) ?_ ?_ ?_
      · intro hwhere c hc hz hn
        rw [hobj] at hz
        refine ⟨hz, htest x q qc hxo hqc ?_ c hc hz hn⟩
        exact hwhere.imp_right fun hs => ⟨hs.1, hne hs.1⟩
      · intro _ c hc hz
        rw [hobj] at hz
        exact hz
      · intro hs _ hp
        exact hpend x q qc hxo hqc hs (hne hs) hp

/-- The process tests `w4child` of its parent. -/
theorem Awake.exitParent (h : Awake s) {b : Obj} {bp : Pid}
    (hat : s.thread o = some ⟨p, .exitParent b bp⟩)
    (hcond : ∀ q, s.thread b ≠ some ⟨q, .anyBlock⟩)
    (hparent : (s.obj o).parentpid = (s.obj b).pid) (hkin : Children s')
    (hthread : s'.thread = update s.thread o (some ⟨p, .exitRelParent bp⟩))
    (huse : s'.inUse = s.inUse) (htab : s'.pcbtable = s.pcbtable)
    (hobj : s'.obj = if (s.obj b).w4child = true
      then update s.obj b { s.obj b with state := .ready } else s.obj) : Awake s' := by
  have hbtab := (h.children.places o p _ hat).parent b bp rfl
  have hbpid := (h.children.reaping.entry bp b hbtab).2
  -- whoever has the process on its list is the parent it looks at
  have hown : ∀ x q qc, s.thread x = some ⟨q, qc⟩ → o ∈ (s.obj x).childList → x = b := by
    intro x q qc hx hmem
    have halive := h.children.reaping.alive x q qc hx
    rcases (h.children.child x o halive.1 hmem).2 with ⟨q', qc', hx', hq'⟩
    rw [hx] at hx'
    cases hx'
    rw [hparent, hbpid] at hq'
    subst hq'
    rw [halive.2.2] at hbtab
    exact some.inj hbtab
  refine h.tested hat hkin hthread huse hobj rfl rfl rfl nofun ?_ ?_
  · intro x q qc hxo hqc hwhere c hc hz hn
    refine notified_of_ne hthread ?_ hn
    rintro rfl
    rcases hown x q qc hqc hc
    rcases hwhere with rfl | ⟨-, hne⟩
    · exact hcond q hqc
    · exact hne rfl
  · intro x _ _ _ _ _ _ hp
    exact initPending_keeps hat hthread (by rw [htab]; exact fun _ => id) nofun hp

/-- `reparent` tests `w4child` of `INIT`. -/
theorem Awake.exitRelChild (h : Awake s) {cp : Pid} {init : Obj}
    (hat : s.thread o = some ⟨p, .exitRelChild cp⟩) (hinit : s.pcbtable INIT = some init)
    (hkin : Children s')
    (hthread : s'.thread = update s.thread o (some ⟨p, .exitRelInit⟩))
    (huse : s'.inUse = s.inUse)
    (hobj : s'.obj = if (s.obj init).w4child = true
      then update s.obj init { s.obj init with state := .ready } else s.obj) : Awake s' := by
  refine h.tested hat hkin hthread huse hobj rfl rfl rfl nofun ?_ ?_
  · intro x q qc _ _ _ c _ _ hn
    exact notified_back hat hthread rfl hn
  · -- only `INIT` has been waiting for this test
    intro x _ _ _ _ _ hne hp
    rw [InitPending, hinit] at hp
    exact absurd (some.inj hp.1).symm hne

/-- The process blocks; it has seen no zombie, and none has made its test since. -/
theorem Awake.anyBlock (h : Awake s) (hat : s.thread o = some ⟨p, .anyBlock⟩) (hkin : Children s')
    (hthread : s'.thread = update s.thread o (some ⟨p, .anySched⟩))
    (huse : s'.inUse = s.inUse) (htab : s'.pcbtable = s.pcbtable)
    (hobj : s'.obj = update s.obj o { s.obj o with w4child := true, state := .block }) :
    Awake s' := by
  have hself : s'.obj o = { s.obj o with w4child := true, state := .block } := by
    rw [hobj, update_self]
  have hoff : ∀ x, x ≠ o → s'.obj x = s.obj x := by
    intro x hx
    rw [hobj, update_of_ne hx]
  have hzombie : ∀ c, (s'.obj c).state = .zombie → (s.obj c).state = .zombie := by
    intro c hz
    by_cases hco : c = o
    · rw [hco, hself] at hz
      cases hz
    · rw [hoff c hco] at hz
      exact hz
  refine h.build hkin hthread (by rw [huse]; exact fun _ => id) ?_ (fun _ => rfl) ?_ ?_
  · intro x hx
    rw [hoff x hx]
    exact ⟨rfl, id⟩
  · refine ⟨fun _ => by rw [hself], nofun, nofun, ?_⟩
    intro _ _ c hc hz
    rw [hself] at hc
    refine .inl fun hn => ?_
    exact (h.watchful o p _ hat).blocking rfl c hc (hzombie c hz) (notified_back hat hthread rfl hn)
  · intro x q qc hxo hqc
    refine (h.watchful x q qc hqc).frame (by rw [hoff x hxo]) (by rw [hoff x hxo]; exact id)
      (by rw [hoff x hxo]) ?_ ?_ ?_
    · intro _ c _ hz hn
      exact ⟨hzombie c hz, notified_back hat hthread rfl hn⟩
    · intro _ c _ hz
      exact hzombie c hz
    · intro _ _ hp
      exact initPending_keeps hat hthread (by rw [htab]; exact fun _ => id) nofun hp

/-- The process is resumed. -/
theorem Awake.anyAsleep (h : Awake s) (hat : s.thread o = some ⟨p, .anyAsleep⟩) (hkin : Children s')
    (hready : (s.obj o).state = .ready)
    (hthread : s'.thread = update s.thread o (some ⟨p, .anyWoken⟩))
    (huse : s'.inUse = s.inUse) (htab : s'.pcbtable = s.pcbtable)
    (hobj : s'.obj = update s.obj o { s.obj o with w4child := false }) : Awake s' := by
  have hself : s'.obj o = { s.obj o with w4child := false } := by
    rw [hobj, update_self]
  have hoff : ∀ x, x ≠ o → s'.obj x = s.obj x := by
    intro x hx
    rw [hobj, update_of_ne hx]
  have hstate : ∀ c, (s'.obj c).state = (s.obj c).state := by
    intro c
    by_cases hco : c = o
    · rw [hco, hself]
    · rw [hoff c hco]
  refine h.build hkin hthread (by rw [huse]; exact fun _ => id) ?_ ?_
    (Watchful.elsewhere rfl rfl nofun) ?_
  · intro x hx
    rw [hoff x hx]
    exact ⟨rfl, id⟩
  · rw [hself]
    rintro (hb | hw)
    · rw [hready] at hb
      cases hb
    · cases hw
  · intro x q qc hxo hqc
    refine (h.watchful x q qc hqc).frame (by rw [hoff x hxo]) (by rw [hoff x hxo]; exact id)
      (by rw [hoff x hxo]) ?_ ?_ ?_
    · intro _ c _ hz hn
      rw [hstate] at hz
      exact ⟨hz, notified_back hat hthread rfl hn⟩
    · intro _ c _ hz
      rw [hstate] at hz
      exact hz
    · intro _ _ hp
      exact initPending_keeps hat hthread (by rw [htab]; exact fun _ => id) nofun hp

/-- The process leaves. -/
theorem Awake.leave (h : Awake s) (hat : s.thread o = some ⟨p, .exitSched⟩) (hkin : Children s')
    (hs' : s' = { s.release (.pcb p) with thread := update s.thread o none }) : Awake s' := by
  obtain ⟨hthread, hobj, -, -, -⟩ := leave_changes hs'
  have hnotified : ∀ c, Notified s' c → Notified s c := by
    intro c hn
    by_cases hco : c = o
    · subst hco
      intro q qc hq
      rw [hat] at hq
      cases hq
      rfl
    · intro q qc hq
      refine hn q qc ?_
      rw [hthread, update_of_ne hco]
      exact hq
  refine ⟨hkin, ?_, ?_⟩
  · intro x hx hor
    have hux : s.inUse x = true := by
      rw [hs'] at hx
      exact hx
    rw [hobj] at hor
    rcases h.awake x hux hor with ⟨q, qc, hq, hqs⟩
    refine ⟨q, qc, ?_, hqs⟩
    rw [hthread, update_of_ne]
    · exact hq
    · rintro rfl
      rw [hat] at hq
      cases hq
      cases hqs
  · intro x q qc hx
    have hxo : x ≠ o := by
      rintro rfl
      rw [hthread, update_self] at hx
      cases hx
    rw [hthread, update_of_ne hxo] at hx
    refine (h.watchful x q qc hx).frame (by rw [hobj]) (by rw [hobj]; exact id) (by rw [hobj]) ?_ ?_ ?_
    · intro _ c _ hz hn
      rw [hobj] at hz
      exact ⟨hz, hnotified c hn⟩
    · intro _ c _ hz
      rw [hobj] at hz
      exact hz
    · rintro _ _ ⟨hinit, y, r, cp, hy⟩
      refine ⟨by rw [hs']; exact hinit, y, r, cp, ?_⟩
      rw [hthread, update_of_ne]
      · exact hy
      · rintro rfl
        exact nomatch hat.symm.trans hy

/-- A new process is set up. -/
theorem Awake.alloc (h : Awake s) {c : Pid} (hat : s.thread o = some ⟨p, .forkLock c⟩)
    (hfree : s.lock (.pcb c) = none) (hs' : s' = ({ s with
      lock := update s.lock (.pcb c) (some o) }.allocproc c).goto o p (.forkLink c s.fresh))
    (hkin : Children s') : Awake s' := by
  rcases h.children.reaping.fresh s.fresh (Nat.le_refl _) with ⟨hfresh, hunuse⟩
  have hunused := h.children.reaping.pid_unused hat hfree
  obtain ⟨huse, -, htab, hobj, hthread⟩ := alloc_changes hs'
  have hoff : ∀ x, x ≠ s.fresh → s'.obj x = s.obj x := by
    intro x hx
    rw [hobj, update_of_ne hx]
  have hother : ∀ x, x ≠ o → x ≠ s.fresh → s'.thread x = s.thread x := by
    intro x hxo hxf
    rw [hthread, update_of_ne hxo, update_of_ne hxf]
  have hnew : ∀ x q qc, s.thread x = some ⟨q, qc⟩ → x ≠ s.fresh := by
    rintro x q qc hx rfl
    exact nomatch hfresh.symm.trans hx
  have hnotified : ∀ y, y ≠ s.fresh → Notified s' y → Notified s y := by
    intro y hyf hn
    by_cases hyo : y = o
    · subst hyo
      intro q qc hq
      rw [hat] at hq
      cases hq
      rfl
    · intro q qc hq
      exact hn q qc ((hother y hyo hyf).trans hq)
  refine ⟨hkin, ?_, ?_⟩
  · intro x hx hor
    by_cases hxf : x = s.fresh
    · rw [hxf, hobj, update_self] at hor
      rcases hor with hb | hw
      · cases hb
      · cases hw
    · rw [huse, update_of_ne hxf] at hx
      rw [hoff x hxf] at hor
      rcases h.awake x hx hor with ⟨q, qc, hq, hqs⟩
      refine ⟨q, qc, ?_, hqs⟩
      rw [hother x ?_ hxf]
      · exact hq
      · rintro rfl
        rw [hat] at hq
        cases hq
        cases hqs
  · intro x q qc hx
    rcases alloc_cases hthread hx with ⟨rfl, rfl, rfl⟩ | ⟨rfl, rfl, rfl⟩ | ⟨hxf, -, hx⟩
    · exact Watchful.elsewhere rfl rfl nofun
    · exact Watchful.elsewhere rfl rfl nofun
    · -- a child that is on a list is not the new process
      have hchild : ∀ y ∈ (s.obj x).childList, y ≠ s.fresh := by
        rintro y hy rfl
        have hu := (h.children.child x s.fresh (h.children.reaping.alive x q qc hx).1 hy).1
        rw [hunuse] at hu
        cases hu
      refine (h.watchful x q qc hx).frame (by rw [hoff x hxf]) (by rw [hoff x hxf]; exact id)
        (by rw [hoff x hxf]) ?_ ?_ ?_
      · intro _ y hy hz hn
        rw [hoff y (hchild y hy)] at hz
        exact ⟨hz, hnotified y (hchild y hy) hn⟩
      · intro _ y hy hz
        rw [hoff y (hchild y hy)] at hz
        exact hz
      · rintro _ _ ⟨hinit, y, r, cp, hy⟩
        refine ⟨?_, y, r, cp, ?_⟩
        · rw [htab, update_of_ne]
          · exact hinit
          · rintro rfl
            rw [hunused] at hinit
            cases hinit
        · rw [hother y ?_ (hnew y r _ hy)]
          · exact hy
          · rintro rfl
            exact nomatch hat.symm.trans hy

/-! ## Every step -/

/-- A place in the walk along the children. -/
theorem Watchful.walk {cs : List Obj} (hrest : pc.rest = some cs)
    (hseen : ∀ pre, (s.obj o).childList = pre ++ cs → ∀ c ∈ pre, (s.obj c).state ≠ .zombie) :
    Watchful s o pc := by
  have hsame : ∀ cs' pre, pc.rest = some cs' → (s.obj o).childList = pre ++ cs' →
      ∀ c ∈ pre, (s.obj c).state ≠ .zombie := by
    intro cs' pre hcs'
    rw [hrest] at hcs'
    cases hcs'
    exact hseen pre
  cases pc with
  | anyScan _ _ _ | anyRelChild _ _ | anyKilled | anyRelKilled | anyRelWait =>
    exact ⟨nofun, hsame, nofun, nofun⟩
  | _ => cases hrest

/-- The walk along the children goes on. -/
theorem Awake.anyLoop (h : Awake s) (hat : s.thread o = some ⟨p, pc⟩) {s₁ : Sys} {cs : List Obj}
    (hkin : Children (WaitLock.anyLoop s₁ o p cs)) (hthread : s₁.thread = s.thread)
    (huse : s₁.inUse = s.inUse) (htab : s₁.pcbtable = s.pcbtable) (hobj : s₁.obj = s.obj)
    (hnot : pc.notifying = false) (hrel : ∀ cp, pc ≠ .exitRelChild cp)
    (hasleep : pc.sleeping = false)
    (hseen : ∀ pre, (s.obj o).childList = pre ++ cs → ∀ c ∈ pre, (s.obj c).state ≠ .zombie) :
    Awake (WaitLock.anyLoop s₁ o p cs) := by
  have hobj' : (WaitLock.anyLoop s₁ o p cs).obj = s.obj := by
    cases cs with
    | nil => exact hobj
    | cons c cs => exact hobj
  have hplace : ∃ pc', (WaitLock.anyLoop s₁ o p cs).thread
      = update s.thread o (some ⟨p, pc'⟩) ∧ pc'.rest = some cs := by
    rw [← hthread]
    cases cs with
    | nil => exact ⟨.anyKilled, rfl, rfl⟩
    | cons c cs => exact ⟨.anyScan c (s₁.obj c).pid cs, rfl, rfl⟩
  have huse' : (WaitLock.anyLoop s₁ o p cs).inUse = s.inUse := by
    cases cs with
    | nil => exact huse
    | cons c cs => exact huse
  have htab' : (WaitLock.anyLoop s₁ o p cs).pcbtable = s.pcbtable := by
    cases cs with
    | nil => exact htab
    | cons c cs => exact htab
  rcases hplace with ⟨pc', hthread', hrest⟩
  refine h.quiet hat hkin pc' hthread' hobj' (by rw [huse']; exact fun _ => id)
    (by rw [htab']; exact fun _ => id) hnot hrel ?_ (Watchful.walk hrest ?_)
  · intro hs
    rw [hasleep] at hs
    cases hs
  · rw [hobj']
    exact hseen

theorem Awake.begin (h : Awake s) {c : Call} (hat : s.thread o = some ⟨p, .user⟩)
    (hkin : Children s') (hcall : AnyChild s (.call o c)) (hb : WaitLock.begin s o p c = some s') :
    Awake s' := by
  cases c with
  | fork =>
    rw [WaitLock.begin] at hb
    split at hb
    · cases hb
      exact h
    · rcases Option.bind_eq_some_iff.mp hb with ⟨q, hpop, hb⟩
      cases hb
      exact h.quietly hat hkin (.forkLock _) rfl rfl rfl rfl rfl (fun _ h => by cases h) rfl rfl rfl
        fun h => by cases h
  | exit =>
    rw [WaitLock.begin] at hb
    split at hb
    · cases hb
      exact h.quietly hat hkin .exitBegin rfl rfl rfl rfl rfl (fun _ h => by cases h) rfl rfl rfl
        fun h => by cases h
    · cases hb
  | waitAny =>
    cases hb
    exact h.quietly hat hkin .anyBegin rfl rfl rfl rfl rfl (fun _ h => by cases h) rfl rfl rfl
        fun h => by cases h
  | waitPid t => exact hcall.elim

/-- `INIT` is not reaped. -/
theorem Awake.init_stays (h : Awake s) {t : Pid} {b : Obj}
    (hat : s.thread o = some ⟨p, .reapFree t b⟩) : t ≠ INIT := by
  rintro rfl
  have htab := h.children.reaping.target o p _ INIT b hat rfl
  have hgone := h.children.reaping.gone o p INIT b hat
  rcases h.children.init with ⟨i, ic, hi⟩
  rw [(h.children.reaping.alive i INIT ic hi).2.2] at htab
  cases htab
  exact nomatch hgone.symm.trans hi

theorem Awake.advance (h : Awake s) {statusOk : Bool} (hat : s.thread o = some ⟨p, pc⟩)
    (hcond : Attentive s (.run o statusOk))
    (ha : WaitLock.advance s o p statusOk pc = some s') : Awake s' := by
  have hplace := h.children.places o p pc hat
  have hkin : Children s' := h.children.advance hat ha
  have hw := h.watchful o p pc hat
  cases advance_cases ha with
  | exitWake | exitRelWake | pidBeginNone | pidBegin | pidFail | pidBlock | pidRelTarget | pidSched
  | pidAsleep | pidWoken | pidRelock | pidWait =>
    cases hplace.any
  | start | startRel | forkRelWait | exitInit | exitRelParent | exitRelWait | anyBeginNone | anyFail
  | anyWoken | foundKilled | foundRelKilled | reap | reapRefused | reapRelWait | reapRelPcb =>
    exact h.quietly hat hkin _ rfl rfl rfl rfl rfl nofun rfl rfl rfl nofun
  | forkLock hfree => exact h.alloc hat hfree rfl hkin
  | @forkLink c ch s₁ hfree hs₁ =>
    subst hs₁
    have hne := ((hplace.links c ch rfl).2.2.2).symm
    exact h.link hat hkin rfl rfl rfl (forkLink_obj hne rfl)
  | @forkReady c ch =>
    have hthread : (((s.setObj ch { s.obj ch with state := .ready }).release (.pcb c)).goto o p
        .user).thread = update s.thread o (some ⟨p, .user⟩) := rfl
    refine h.woken hat hkin hthread rfl rfl rfl rfl rfl nofun ?_ ?_
    · intro x q qc _ _ _ y _ _ hn
      exact notified_back hat hthread rfl hn
    · intro x _ _ _ _ _ _ hp
      exact initPending_keeps hat hthread (fun _ => id) nofun hp
  | exitBegin _ hloop | exitRelInit hloop =>
    exact h.exitLoop hat hkin hloop rfl rfl rfl rfl rfl nofun rfl
  | @exitChild c init cp s₁ hfree hinit hs₁ =>
    have hobj := exitChild_obj (s := s)
      (show s₁.obj = update s.obj init _ from congrArg Sys.obj hs₁)
    subst hs₁
    have hzombie : (s.obj c).state = .zombie → ∀ q, s.thread init ≠ some ⟨q, .anyBlock⟩ :=
      fun hz q => (hcond p _ hat).2 c cp rfl hz init q hinit
    refine h.adopt hat hinit hzombie hkin rfl rfl rfl fun x => ?_
    have hflag := congrArg Pcb.w4child (hobj x)
    have hstate := congrArg Pcb.state (hobj x)
    exact ⟨hflag, hstate, congrArg Pcb.childList (hobj x)⟩
  | exitRelChildWake hinit hflag =>
    refine h.exitRelChild hat hinit hkin rfl rfl ?_
    rw [if_pos hflag]
    rfl
  | exitRelChild hinit hflag =>
    refine h.exitRelChild hat hinit hkin rfl rfl ?_
    rw [if_neg hflag]
    rfl
  | exitSelf _ hloop =>
    rcases h.children.exitSelf hat hkin.reaping hloop rfl rfl rfl rfl
      (SameKin.update rfl rfl rfl rfl rfl) with ⟨-, hobj, huse, htab, b, -, hthread⟩
    exact h.exitSelf hat hkin hthread huse htab hobj
  | @exitParentWake b bp _ hparent hflag =>
    refine h.exitParent hat ((hcond p _ hat).1 b bp rfl) hparent hkin rfl rfl rfl ?_
    rw [if_pos hflag]
    rfl
  | @exitParent b bp _ hparent hflag =>
    refine h.exitParent hat ((hcond p _ hat).1 b bp rfl) hparent hkin rfl rfl rfl ?_
    rw [if_neg hflag]
    rfl
  | exitSched => exact h.leave hat hkin rfl
  | @anyBegin c cs _ hlist =>
    refine h.anyLoop hat hkin rfl rfl rfl rfl rfl nofun rfl ?_
    intro pre hpre x hx
    -- nobody has been walked past
    have hlist : c :: cs = pre ++ (c :: cs) := hlist.symm.trans hpre
    have hnil : pre = [] := List.append_cancel_right (hlist.symm.trans (List.nil_append _).symm)
    rw [hnil] at hx
    cases hx
  | anyScanFound =>
    refine h.listed hat hkin rfl rfl rfl ?_ rfl nofun rfl rfl rfl nofun
    intro x
    show (update s.obj o _ x).w4child = _ ∧ (update s.obj o _ x).state = _ ∧
      (x ≠ o → (update s.obj o _ x).childList = _)
    by_cases hx : x = o
    · subst hx
      rw [update_self]
      exact ⟨rfl, rfl, fun hne => absurd rfl hne⟩
    · rw [update_of_ne hx]
      exact ⟨rfl, rfl, fun _ => rfl⟩
  | @anyScan c cp cs _ _ hz =>
    refine h.quiet hat hkin (.anyRelChild cp cs) rfl rfl (fun _ => id) (fun _ => id) rfl nofun
      nofun (Watchful.walk rfl ?_)
    -- the child that has been looked at is not a zombie
    intro pre hpre x hx
    rcases hplace.rest (c :: cs) rfl with ⟨pre', hpre'⟩
    have hsplit : pre = pre' ++ [c] := by
      have heq : pre ++ cs = pre' ++ [c] ++ cs := by
        rw [List.append_assoc]
        exact hpre.symm.trans hpre'.symm
      exact List.append_cancel_right heq
    rw [hsplit] at hx
    rcases List.mem_append.mp hx with hx | hx
    · exact hw.seen (c :: cs) pre' rfl hpre'.symm x hx
    · rcases List.mem_singleton.mp hx
      exact hz
  | @anyRelChild cp cs =>
    exact h.anyLoop hat hkin rfl rfl rfl rfl rfl nofun rfl fun pre => hw.seen cs pre rfl
  | anyKilled | anyRelKilled =>
    exact h.quiet hat hkin _ rfl rfl (fun _ => id) (fun _ => id) rfl nofun nofun
      (Watchful.walk rfl fun pre => hw.seen [] pre rfl)
  | anyRelWait =>
    refine h.quiet hat hkin .anyBlock rfl rfl (fun _ => id) (fun _ => id) rfl nofun nofun ?_
    refine ⟨nofun, nofun, ?_, nofun⟩
    intro _ c hc hz
    exact absurd hz (hw.seen [] _ rfl (List.append_nil _).symm c hc)
  | anyBlock => exact h.anyBlock hat hkin rfl rfl rfl rfl
  | anySched =>
    have hthread : ((s.release (.pcb p)).goto o p .anyAsleep).thread =
        update s.thread o (some ⟨p, .anyAsleep⟩) := rfl
    refine h.quiet hat hkin .anyAsleep hthread rfl (fun _ => id) (fun _ => id) rfl nofun (fun _ => rfl) ?_
    refine ⟨fun _ => hw.asleep rfl, nofun, nofun, ?_⟩
    intro _ hb c hc hz
    rcases hw.watch rfl hb c hc hz with hno | hp
    · exact .inl fun hn => hno (notified_back hat hthread rfl hn)
    · exact .inr (initPending_keeps hat hthread (fun _ => id) nofun hp)
  | anyAsleep hready => exact h.anyAsleep hat hkin hready rfl rfl rfl rfl
  | @reapFree t b =>
    refine h.quiet hat hkin (.reapRelWait t) rfl rfl ?_ ?_ rfl nofun nofun
      (Watchful.elsewhere rfl rfl nofun)
    · intro x hx
      have hx : update s.inUse b false x = true := hx
      by_cases hxb : x = b
      · rw [hxb, update_self] at hx
        cases hx
      · rw [update_of_ne hxb] at hx
        exact hx
    · intro x hx
      show update s.pcbtable t none INIT = some x
      rw [update_of_ne (h.init_stays hat).symm]
      exact hx

theorem Awake.step (h : Awake s) {i : Input} (hcond : AnyChild s i ∧ Attentive s i)
    (hs : Step s i s') : Awake s' := by
  have hkin := h.children.step hcond.1 hs
  cases hs with
  | call hat hb => exact h.begin hat hkin hcond.1 hb
  | run hat hintact ha => exact h.advance hat hcond.2 ha
  | wild hat hlost =>
    rcases hlost with ⟨c, hmem, hc⟩
    rw [h.children.touched_intact hat c hmem] at hc
    cases hc
  | reuse hfree =>
    refine ⟨hkin, h.awake, ?_⟩
    intro y q qc hy
    have hw := h.watchful y q qc hy
    exact ⟨hw.asleep, hw.seen, hw.blocking, hw.watch⟩

theorem Booted.awake (h : Booted s) : Awake s := by
  refine ⟨h.children, ?_, ?_⟩
  · intro x hx hor
    -- only the first process is there, and it is awake
    have hx0 : x = 0 := by
      by_contra hne
      rw [h.inUse, update_of_ne hne] at hx
      cases hx
    rw [hx0, h.obj] at hor
    rcases hor with hb | hw
    · cases hb
    · cases hw
  · intro o p pc ho
    rw [h.thread] at ho
    by_cases h0 : o = 0
    · rw [h0, update_self] at ho
      cases ho
      exact Watchful.elsewhere rfl rfl nofun
    · rw [update_of_ne h0] at ho
      cases ho

/-- No wake-up is lost as long as nobody is looked at between its own look at its children and its
    going to sleep. -/
theorem Awake.not_lost (h : Awake s) : ¬ LostWakeup s := by
  rintro ⟨o, c, huse, hblock, -, hmem, hz, hn, hno⟩
  rcases h.awake o huse (.inl hblock) with ⟨p, pc, hat, hsleep⟩
  rcases (h.watchful o p pc hat).watch hsleep hblock c hmem hz with hnot | hp
  · exact hnot hn
  · exact hno (.inl hp)

/-- In every run from boot in which processes wait for any child, and no child tests `w4child` of a
    parent (nor hands `INIT` a zombie) that has looked at its children and not yet gone to sleep, no
    wake-up is lost. -/
theorem wakeup_ok {s₀ : Sys} (h0 : Booted s₀)
    (hr : Reaches Step (fun s i => AnyChild s i ∧ Attentive s i) s₀ s) : ¬ LostWakeup s := by
  have hinv : Awake s := hr.invariant h0.awake fun a i b ha hc hstep => ha.step hc hstep
  exact hinv.not_lost

/-! ## A child that wakes its parent -/

/-- A test of `AnyChild`. -/
def anyChild (_ : Sys) : Input → Bool
  | .call _ (.waitPid _) => false
  | _ => true

theorem anyChild_sound (s : Sys) (i : Input) (h : anyChild s i = true) : AnyChild s i := by
  cases i with
  | call o c =>
    cases c with
    | waitPid t => cases h
    | _ => trivial
  | _ => trivial

/-- A test of both conditions. -/
def attentive (s : Sys) : Input → Bool
  | .run o _ =>
    let blocks (b : Obj) := (s.thread b).any fun th => th.pc == .anyBlock
    (s.thread o).all fun th =>
      match th.pc with
      | .exitParent b _ => !blocks b
      | .exitChild _ _ => (s.pcbtable INIT).all fun i => !blocks i
      | _ => true
  | i => anyChild s i

theorem attentive_sound (s : Sys) (i : Input) (h : attentive s i = true) :
    AnyChild s i ∧ Attentive s i := by
  cases i with
  | call o c => exact ⟨anyChild_sound s _ h, trivial⟩
  | reuse o => exact ⟨trivial, trivial⟩
  | run o statusOk =>
    refine ⟨trivial, fun p pc hat => ?_⟩
    have h : (s.thread o).all _ = true := h
    rw [hat, Option.all_some] at h
    have hno : ∀ b, (!(s.thread b).any fun th => th.pc == .anyBlock) = true →
        ∀ q, s.thread b ≠ some ⟨q, .anyBlock⟩ := by
      intro b hb q hq
      rw [hq] at hb
      cases hb
    constructor
    · rintro b bp rfl
      exact hno b h
    · rintro c cp rfl - i q hi
      have h : (s.pcbtable INIT).all _ = true := h
      rw [hi, Option.all_some] at h
      exact hno i h q

/-- The first process forks a child, finds it alive, and goes to sleep in `wait4(-1)`. -/
def goToSleep : List Input :=
  [.call 0 .fork] ++ List.replicate 4 (.run 0 true) ++ List.replicate 2 (.run 1 true) ++
    [.call 0 .waitAny] ++ List.replicate 8 (.run 0 true)

/-- The child exits. -/
def childExits : List Input := .call 1 .exit :: List.replicate 6 (.run 1 true)

/-- The first process resumes, looks again, and reaps the child. -/
def lookAgain : List Input := List.replicate 10 (.run 0 true)

set_option maxRecDepth 10000 in
/-- A run in which a child that exits finds its parent blocked and wakes it, which then reaps it. -/
theorem wakeup_ok_child :
    ∃ s₁ s₂ s₃, Reaches Step (fun s i => AnyChild s i ∧ Attentive s i) bootSys s₁ ∧
      Reaches Step (fun s i => AnyChild s i ∧ Attentive s i) s₁ s₂ ∧
      Reaches Step (fun s i => AnyChild s i ∧ Attentive s i) s₂ s₃ ∧
      ((s₁.obj 0).state = .block ∧ (s₁.obj 0).w4child = true ∧ (s₁.obj 0).childList = [1]) ∧
      ((s₂.obj 0).state = .ready ∧ (s₂.obj 1).state = .zombie ∧ s₂.thread 1 = none) ∧
      ((s₃.obj 0).childList = [] ∧ s₃.inUse 1 = false) ∧
      ¬ LostWakeup s₁ ∧ ¬ LostWakeup s₂ ∧ ¬ LostWakeup s₃ := by
  let step := tested attentive runStep
  have hrun : Leads step bootSys goToSleep fun s₁ =>
      ((s₁.obj 0).state = .block ∧ (s₁.obj 0).w4child = true ∧ (s₁.obj 0).childList = [1]) ∧
      Leads step s₁ childExits fun s₂ =>
        ((s₂.obj 0).state = .ready ∧ (s₂.obj 1).state = .zombie ∧ (s₂.thread 1).isNone) ∧
        Leads step s₂ lookAgain fun s₃ => (s₃.obj 0).childList = [] ∧ s₃.inUse 1 = false := by
    decide +kernel
  have hsteps := tested_step attentive_sound runStep_sound
  rcases hrun.reaches Step _ hsteps with ⟨s₁, h₁, hsleeps, hrun⟩
  rcases hrun.reaches Step _ hsteps with ⟨s₂, h₂, ⟨hwoken, hzombie, hgone⟩, hrun⟩
  rcases hrun.reaches Step _ hsteps with ⟨s₃, h₃, hreaped⟩
  exact ⟨s₁, s₂, s₃, h₁, h₂, h₃, hsleeps, ⟨hwoken, hzombie, Option.isNone_iff_eq_none.mp hgone⟩,
    hreaped, wakeup_ok bootSys_booted h₁, wakeup_ok bootSys_booted (h₁.trans h₂),
    wakeup_ok bootSys_booted ((h₁.trans h₂).trans h₃)⟩

/-! ## The test in between -/

/-- The first process forks a child and waits for any child; the child exits between the look of the
    first process at its children and its going to sleep. -/
def earlyTest : List Input :=
  [.call 0 .fork] ++ List.replicate 4 (.run 0 true) ++
    [.call 0 .waitAny] ++ List.replicate 6 (.run 0 true) ++
    List.replicate 2 (.run 1 true) ++ [.call 1 .exit] ++ List.replicate 6 (.run 1 true) ++
    [.run 0 true]

set_option maxRecDepth 10000 in
/-- The first process sleeps, its only child is a zombie and gone, and nobody else is there. -/
theorem wakeup_lost : ∃ s₀ s, Booted s₀ ∧ Reaches Step AnyChild s₀ s ∧ LostWakeup s := by
  have hrun : Leads (tested anyChild runStep) bootSys earlyTest fun s =>
      s.inUse 0 ∧ (s.obj 0).state = .block ∧ (s.obj 0).w4child ∧ 1 ∈ (s.obj 0).childList ∧
        (s.obj 1).state = .zombie ∧ s.fresh = 2 ∧ (s.thread 0).any (fun th => th.pc.sleeping) ∧
        (s.thread 1).isNone := by
    decide +kernel
  rcases hrun.reaches Step _ (tested_step anyChild_sound runStep_sound) with
    ⟨s, hr, huse, hblock, hflag, hlist, hzombie, hfresh, h0, h1⟩
  have hkin : Children s :=
    hr.invariant bootSys_booted.children fun a i b ha hc hstep => ha.step hc hstep
  have hgone : s.thread 1 = none := Option.isNone_iff_eq_none.mp h1
  -- whoever is there is the first process, asleep
  have honly : ∀ x q pc, s.thread x = some ⟨q, pc⟩ → pc.sleeping = true := by
    intro x q pc hx
    have hlt : x < 2 := by
      by_contra hge
      rw [(hkin.reaping.fresh x (by rw [hfresh]; exact Nat.le_of_not_lt hge)).1] at hx
      cases hx
    match x, hlt with
    | 0, _ =>
      rw [hx] at h0
      exact h0
    | 1, _ => exact nomatch hgone.symm.trans hx
  refine ⟨bootSys, s, bootSys_booted, hr, 0, 1, huse, hblock, hflag, hlist, hzombie, ?_, ?_⟩
  · intro q qc hq
    exact nomatch hgone.symm.trans hq
  · rintro (⟨-, x, q, cp, hx⟩ | ⟨x, q, bp, hx⟩)
    · exact nomatch honly x q _ hx
    · exact nomatch honly x q _ hx

end Uniks.WaitLock
