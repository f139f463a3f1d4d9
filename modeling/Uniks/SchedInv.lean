/-
  What holds between any two steps of the harts.

  Each hart has a context that its statements fit (`HartOk`).  A lock is held by the hart in whose
  context it is (`LocksOk`).  A process runs on one hart, which then agrees with its entry, or it
  is at rest with a context to go on from (`ProcsOk`).  `Bed` says where a process that is, or is
  about to be, in `TASK_BLOCK` waits for somebody to wake it: each has one, but for those that a
  kill may have taken out of the sleep queue (`lost`), and a wait list and the hands of a hart have
  nobody else in them (`BedsOk`).
-/
import Uniks.SchedCtx

namespace Uniks.Sched

open Function (update update_self update_of_ne update_eq_self)
open Option (some)

variable {s s' : State} {Γ Γ' : Ctx} {lk : Lock} {p q : Pid} {i : Pid} {wl : WaitList}
  {k : List Stmt} {st : Stmt} {x y : Hart} {c c' : Cpu} {r r' : Regs} {m : Me} {pr pr' : Proc}
  {lock : Lock → Spinlock} {held : Hart → List Lock} {half : Hart → Option Lock}
  {tbl : Pid → Option Proc} {me : Hart → Me} {queue : WaitList → List Pid} {task : Hart → Task}
  {lost : Pid → Prop}

/-! ## Contexts that make sense -/

structure Ctx.Good (Γ : Ctx) : Prop where
  own : ¬ Γ.Locked → Γ.me.Plain
  calm : Γ.held = [] → Γ.extra = 0 → Γ.Calm
  sleep : Γ.task ≠ .none → (∀ p, Γ.task ≠ .hand p) → Lock.sleep ∈ Γ.held

theorem Ctx.Next.who (h : Γ.Next st Γ') : Γ'.me.who = Γ.me.who := by
  cases h <;> rfl

theorem Ctx.Locked.erase (h : Γ.Locked) (hne : ∀ p, Γ.me.who = .proc p → lk ≠ .pcb p) :
    ∃ p, Γ.me.who = .proc p ∧ Lock.pcb p ∈ Γ.held.erase lk := by
  obtain ⟨p, hp, hin⟩ := h
  exact ⟨p, hp, (List.mem_erase_of_ne (hne p hp).symm).mpr hin⟩

/-- A statement that keeps what is held and what is going on. -/
theorem Ctx.Good.same (h : Γ.Good) (hme : Γ'.me = Γ.me) (hheld : Γ'.held = Γ.held)
    (hhalf : Γ'.half = Γ.half) (htask : Γ'.task = Γ.task) (hextra : Γ'.extra = Γ.extra) :
    Γ'.Good := by
  refine ⟨fun hno => ?_, fun h0 h1 => ?_, ?_⟩
  · rw [hme]
    refine h.own fun ⟨p, hp, hin⟩ => hno ⟨p, ?_, ?_⟩
    · rw [hme]
      exact hp
    · rw [hheld]
      exact hin
  · rw [hheld] at h0
    rw [hextra] at h1
    exact ⟨hhalf.trans (h.calm h0 h1).half, htask.trans (h.calm h0 h1).task⟩
  · rw [htask, hheld]
    exact h.sleep

/-- A change of the process under its own lock. -/
theorem Ctx.Good.locked (h : Γ.Good) (hin : Lock.pcb p ∈ Γ.held)
    (hm : m.who = .proc p) : Ctx.Good { Γ with me := m } := by
  refine ⟨fun hno => absurd ⟨p, hm, hin⟩ hno, fun h0 _ => ?_, h.sleep⟩
  have hempty : Γ.held = [] := h0
  rw [hempty] at hin
  exact absurd hin List.not_mem_nil

theorem Ctx.Next.good (h : Γ.Next st Γ') (hgood : Γ.Good) : Γ'.Good := by
  cases h with
  | pushOff => exact ⟨hgood.own, fun _ h1 => absurd h1 (Nat.succ_ne_zero _), hgood.sleep⟩
  | popOff hpos hcalm =>
    refine ⟨hgood.own, fun h0 h1 => ?_, hgood.sleep⟩
    have hone : Γ.extra = 1 := by
      have hsub : Γ.extra - 1 = 0 := h1
      omega
    exact ⟨(hcalm h0 hone).half, (hcalm h0 hone).task⟩
  | testAndSet hpos hhalf =>
    exact ⟨hgood.own, fun _ h1 => absurd h1 (Nat.ne_of_gt hpos), hgood.sleep⟩
  | setCpu hpos hhalf =>
    refine ⟨fun hno => hgood.own fun ⟨p, hp, hin⟩ => hno ⟨p, hp, List.mem_cons_of_mem _ hin⟩,
      fun h0 _ => (nomatch h0), fun h0 h1 => List.mem_cons_of_mem _ (hgood.sleep h0 h1)⟩
  | @clearCpu lk hin hhalf hown hsleep =>
    refine ⟨fun hno => ?_, fun _ h1 => absurd h1 (Nat.succ_ne_zero _), fun h0 h1 => ?_⟩
    · by_cases hmine : ∃ p, Γ.me.who = .proc p ∧ lk = .pcb p
      · obtain ⟨p, hp, hlk⟩ := hmine
        exact hown p hp hlk
      · refine hgood.own fun hlocked => hno (hlocked.erase fun p hp heq => hmine ⟨p, hp, heq⟩)
    · have hne : lk ≠ .sleep := fun heq => h0 (hsleep heq)
      exact (List.mem_erase_of_ne hne.symm).mpr (hgood.sleep h0 h1)
  | unlock hhalf =>
    refine ⟨hgood.own, fun h0 h1 => ?_, hgood.sleep⟩
    exact ⟨rfl, (hgood.calm h0 h1).task⟩
  | toReady hwho hin hplain => exact hgood.locked hin hwho
  | toBlock hwho hin hparked => exact hgood.locked hin hwho
  | awaitChild hwho hin hplain => exact hgood.locked hin hwho
  | childCame hwho hin hparked => exact hgood.locked hin hwho
  | enqueue hwho hin hlk hplain htask => exact hgood.locked hin hwho
  | sched hwho hheld hextra hcalm hie hleaves =>
    exact hgood.locked (hheld ▸ List.mem_cons_self) hwho
  | wakeHand htask hin hne =>
    refine ⟨hgood.own, fun h0 h1 => ⟨(hgood.calm h0 h1).half, rfl⟩, fun h0 => absurd rfl h0⟩
  | wakeDue htask hin hne hsleep =>
    refine ⟨hgood.own, fun h0 _ => ?_, fun _ _ => hsleep⟩
    have hempty : Γ.held = [] := h0
    rw [hempty] at hin
    exact absurd hin List.not_mem_nil
  | pqPop htask hsleep =>
    refine ⟨hgood.own, fun h0 h1 => ⟨(hgood.calm h0 h1).half, rfl⟩, fun h0 => absurd rfl h0⟩
  | pick hwho hcalm hheld hextra hie hi =>
    refine ⟨fun _ => hgood.own ?_, fun _ _ => ⟨hcalm.half, hcalm.task⟩,
      fun h0 => absurd hcalm.task h0⟩
    rintro ⟨p, hp, -⟩
    rw [hwho] at hp
    cases hp
  | irqBody hcalm hextra hplain hie =>
    exact ⟨fun _ => hplain, fun _ _ => ⟨hcalm.half, hcalm.task⟩, fun h0 => absurd hcalm.task h0⟩
  | notHolding | isHolding | interruptOff | interruptOn | assertRunning | setPreintstat | bug
  | unblockAll | timeLoop | popV | unblockSelf | scan | idle | sret | user =>
    exact hgood.same rfl rfl rfl rfl rfl

/-! ## Harts -/

/-- A hart, the entry of `cpus` that is its own, and the context it runs in. -/
structure HartOk (h : Hart) (c : Cpu) (r : Regs) (Γ : Ctx) : Prop where
  fits : Fits Γ r.code
  good : Γ.Good
  hart : ∀ c, Γ.me.who = .idle c → c = h
  scratch : r.sscratch = h
  count : c.repeat_ = Γ.held.length + Γ.extra
  off : c.repeat_ ≠ 0 → r.sie = false ∧ c.preintstat = Γ.ie
  on : c.repeat_ = 0 → r.sie = Γ.ie
  -- `c->proc` is set back right after `switch_to`
  proc : (∀ k, r.code ≠ .idle h :: k) → c.proc = Γ.me.who.pid
  back : ∀ p, Γ.me.who = .proc p →
    ∃ k, c.ctxt = .idle h :: k ∧ Fits (idleCtx h [.pcb p]) (.idle h :: k)

/-- The hart goes on with other statements, in another context. -/
theorem HartOk.change (h : HartOk x c r Γ) (hproc : c.proc = Γ.me.who.pid) (hgood : Γ'.Good)
    (hk : Fits Γ' k) (hwho : Γ'.me.who = Γ.me.who)
    (hcount : Γ'.held.length + Γ'.extra = Γ.held.length + Γ.extra) (hie : Γ'.ie = Γ.ie) :
    HartOk x c { r with code := k } Γ' := by
  refine ⟨hk, hgood, ?_, h.scratch, h.count.trans hcount.symm, ?_, ?_, fun _ => ?_, ?_⟩
  · rw [hwho]
    exact h.hart
  · rw [hie]
    exact h.off
  · rw [hie]
    exact h.on
  · rw [hwho]
    exact hproc
  · rw [hwho]
    exact h.back

theorem HartOk.pushOff (h : HartOk x c r Γ) (hproc : c.proc = Γ.me.who.pid)
    (hk : Fits { Γ with extra := Γ.extra + 1 } k) :
    HartOk x { c with
        preintstat := if c.repeat_ = 0 then r.sie else c.preintstat
        repeat_ := c.repeat_ + 1 }
      { r with sie := false, code := k } { Γ with extra := Γ.extra + 1 } := by
  refine ⟨hk, Ctx.Next.pushOff.good h.good, h.hart, h.scratch, congrArg (· + 1) h.count,
    fun _ => ⟨rfl, ?_⟩, fun h0 => absurd h0 (Nat.succ_ne_zero _), fun _ => hproc, h.back⟩
  by_cases hzero : c.repeat_ = 0
  · show (if c.repeat_ = 0 then r.sie else c.preintstat) = Γ.ie
    rw [if_pos hzero]
    exact h.on hzero
  · show (if c.repeat_ = 0 then r.sie else c.preintstat) = Γ.ie
    rw [if_neg hzero]
    exact (h.off hzero).2

theorem HartOk.popOff (h : HartOk x c r Γ) (hproc : c.proc = Γ.me.who.pid) (hpos : 0 < Γ.extra)
    (hcalm : Γ.held = [] → Γ.extra = 1 → Γ.Calm) (hk : Fits { Γ with extra := Γ.extra - 1 } k) :
    (r.sie = false ∧ 1 ≤ c.repeat_) ∧
    HartOk x { c with repeat_ := c.repeat_ - 1 }
      { r with sie := c.repeat_ - 1 = 0 && c.preintstat, code := k }
      { Γ with extra := Γ.extra - 1 } := by
  have hcount := h.count
  have hne : c.repeat_ ≠ 0 := by omega
  obtain ⟨hsie, hpre⟩ := h.off hne
  refine ⟨⟨hsie, Nat.one_le_iff_ne_zero.mpr hne⟩, hk, (Ctx.Next.popOff hpos hcalm).good h.good,
    h.hart, h.scratch, ?_, fun hmore => ⟨?_, hpre⟩, fun hlast => ?_, fun _ => hproc, h.back⟩
  · show c.repeat_ - 1 = Γ.held.length + (Γ.extra - 1)
    omega
  · have hno : c.repeat_ - 1 ≠ 0 := hmore
    show (decide (c.repeat_ - 1 = 0) && c.preintstat) = false
    rw [decide_eq_false hno, Bool.false_and]
  · have hyes : c.repeat_ - 1 = 0 := hlast
    show (decide (c.repeat_ - 1 = 0) && c.preintstat) = Γ.ie
    rw [decide_eq_true hyes, Bool.true_and]
    exact hpre

/-- The interrupts are turned on or off outside of all locks. -/
theorem HartOk.setSie (h : HartOk x c r Γ) (hproc : c.proc = Γ.me.who.pid) (hbare : Γ.Bare)
    {b : Bool} (hk : Fits { Γ with ie := b } k) :
    HartOk x c { r with sie := b, code := k } { Γ with ie := b } := by
  have hzero : c.repeat_ = 0 := by
    rw [h.count, hbare.held, hbare.extra]
    rfl
  exact ⟨hk, h.good.same rfl rfl rfl rfl rfl, h.hart, h.scratch, h.count,
    fun hne => absurd hzero hne, fun _ => rfl, fun _ => hproc, h.back⟩

theorem HartOk.setPreintstat (h : HartOk x c r Γ) (hproc : c.proc = Γ.me.who.pid)
    (hheld : Γ.held ≠ []) {b : Bool} (hk : Fits { Γ with ie := b } k) :
    HartOk x { c with preintstat := b } { r with code := k } { Γ with ie := b } := by
  have hne : c.repeat_ ≠ 0 := by
    rw [h.count]
    have hlen := List.length_pos_iff.mpr hheld
    omega
  exact ⟨hk, h.good.same rfl rfl rfl rfl rfl, h.hart, h.scratch, h.count,
    fun _ => ⟨(h.off hne).1, rfl⟩, fun h0 => absurd h0 hne, fun _ => hproc, h.back⟩

/-! ## Locks -/

structure LocksOk (lock : Lock → Spinlock) (held : Hart → List Lock) (half : Hart → Option Lock) :
    Prop where
  holds : ∀ h lk, lk ∈ held h ↔ (lock lk).cpu = some h
  nodup : ∀ h, (held h).Nodup
  locked : ∀ h lk, lk ∈ held h → (lock lk).locked = true
  between : ∀ h lk, half h = some lk → lock lk = ⟨true, none⟩
  one : ∀ h h' lk, half h = some lk → half h' = some lk → h = h'

theorem LocksOk.apart (h : LocksOk lock held half) (hx : lk ∈ held x) (hy : lk ∈ held y) : x = y :=
  some.inj (((h.holds x lk).mp hx).symm.trans ((h.holds y lk).mp hy))

/-- One lock changes, at the hands of one hart. -/
theorem LocksOk.change {v : Spinlock} {L : List Lock} {o : Option Lock} (h : LocksOk lock held half)
    (hnodup : L.Nodup) (hL : ∀ lk', lk' ≠ lk → (lk' ∈ L ↔ lk' ∈ held x))
    (ho : ∀ lk', lk' ≠ lk → o = some lk' → half x = some lk')
    (hholds : ∀ y, lk ∈ update held x L y ↔ v.cpu = some y)
    (hlocked : ∀ y, v.cpu = some y → v.locked = true)
    (hhalf : ∀ y, update half x o y = some lk → y = x ∧ v = ⟨true, none⟩) :
    LocksOk (update lock lk v) (update held x L) (update half x o) := by
  have hheld : ∀ y lk', lk' ≠ lk → (lk' ∈ update held x L y ↔ lk' ∈ held y) := by
    intro y lk' hlk
    by_cases hyx : y = x
    · rw [hyx, update_self]
      exact hL lk' hlk
    · rw [update_of_ne hyx]
  have hold : ∀ y lk', lk' ≠ lk → update half x o y = some lk' → half y = some lk' := by
    intro y lk' hlk hy
    by_cases hyx : y = x
    · rw [hyx, update_self] at hy
      exact hyx ▸ ho lk' hlk hy
    · rwa [update_of_ne hyx] at hy
  refine ⟨fun y lk' => ?_, fun y => ?_, fun y lk' hin => ?_, fun y lk' hy => ?_,
    fun y z lk' hy hz => ?_⟩
  · by_cases hlk : lk' = lk
    · rw [hlk, update_self]
      exact hholds y
    · rw [update_of_ne hlk, hheld y lk' hlk]
      exact h.holds y lk'
  · by_cases hyx : y = x
    · rw [hyx, update_self]
      exact hnodup
    · rw [update_of_ne hyx]
      exact h.nodup y
  · by_cases hlk : lk' = lk
    · rw [hlk, update_self]
      exact hlocked y ((hholds y).mp (hlk ▸ hin))
    · rw [update_of_ne hlk]
      exact h.locked y lk' ((hheld y lk' hlk).mp hin)
  · by_cases hlk : lk' = lk
    · rw [hlk, update_self]
      exact (hhalf y (hlk ▸ hy)).2
    · rw [update_of_ne hlk]
      exact h.between y lk' (hold y lk' hlk hy)
  · by_cases hlk : lk' = lk
    · exact (hhalf y (hlk ▸ hy)).1.trans (hhalf z (hlk ▸ hz)).1.symm
    · exact h.one y z lk' (hold y lk' hlk hy) (hold z lk' hlk hz)

/-- Who finds the lock free has it, but for `lk->cpu`. -/
theorem LocksOk.take (h : LocksOk lock held half) (hfree : (lock lk).locked = false) :
    LocksOk (update lock lk { lock lk with locked := true }) held
      (update half x (some lk)) := by
  have hnone : (lock lk).cpu = none := by
    cases hcpu : (lock lk).cpu with
    | none => rfl
    | some y =>
      rw [h.locked y lk ((h.holds y lk).mpr hcpu)] at hfree
      cases hfree
  have hchange : LocksOk (update lock lk { lock lk with locked := true })
      (update held x (held x)) (update half x (some lk)) := by
    refine h.change (h.nodup x) (fun _ _ => Iff.rfl)
      (fun lk' hlk heq => absurd (some.inj heq).symm hlk) (fun y => ?_) (fun _ _ => rfl)
      fun y hy => ?_
    · rw [update_eq_self]
      exact h.holds y lk
    · by_cases hyx : y = x
      · exact ⟨hyx, congrArg (Spinlock.mk true) hnone⟩
      · rw [update_of_ne hyx] at hy
        rw [h.between y lk hy] at hfree
        cases hfree
  rwa [update_eq_self] at hchange

/-- Between the two stores the lock is nobody else's. -/
theorem LocksOk.alone (h : LocksOk lock held half) (hhalf : half x = some lk) :
    (∀ y, lk ∉ held y) ∧ ∀ y, update half x none y ≠ some lk := by
  refine ⟨fun y hin => ?_, fun y hy => ?_⟩
  · have hcpu := (h.holds y lk).mp hin
    rw [h.between x lk hhalf] at hcpu
    cases hcpu
  · by_cases hyx : y = x
    · rw [hyx, update_self] at hy
      cases hy
    · rw [update_of_ne hyx] at hy
      exact hyx (h.one y x lk hy hhalf)

/-- `lk->cpu = cpuid()`. -/
theorem LocksOk.own (h : LocksOk lock held half) (hhalf : half x = some lk) :
    LocksOk (update lock lk { lock lk with cpu := some x })
      (update held x (lk :: held x)) (update half x none) := by
  obtain ⟨hout, hnohalf⟩ := h.alone hhalf
  refine h.change (List.nodup_cons.mpr ⟨hout x, h.nodup x⟩)
    (fun lk' hlk => by rw [List.mem_cons, or_iff_right hlk]) nofun (fun y => ?_)
    (fun _ _ => congrArg Spinlock.locked (h.between x lk hhalf)) fun y hy => absurd hy (hnohalf y)
  by_cases hyx : y = x
  · rw [hyx, update_self]
    exact ⟨fun _ => rfl, fun _ => List.mem_cons_self⟩
  · rw [update_of_ne hyx]
    exact ⟨fun hin => absurd hin (hout y), fun heq => absurd (some.inj heq).symm hyx⟩

/-- `lk->cpu = -1`. -/
theorem LocksOk.disown (h : LocksOk lock held half) (hin : lk ∈ held x) :
    LocksOk (update lock lk { lock lk with cpu := none })
      (update held x ((held x).erase lk)) (update half x (some lk)) := by
  refine h.change ((h.nodup x).erase lk) (fun lk' hlk => List.mem_erase_of_ne hlk)
    (fun lk' hlk heq => absurd (some.inj heq).symm hlk) (fun y => ?_) nofun fun y hy => ?_
  · by_cases hyx : y = x
    · rw [hyx, update_self]
      exact ⟨fun hmem => absurd hmem (h.nodup x).not_mem_erase, fun heq => nomatch heq⟩
    · rw [update_of_ne hyx]
      exact ⟨fun hmem => absurd (h.apart hmem hin) hyx, fun heq => nomatch heq⟩
  · by_cases hyx : y = x
    · exact ⟨hyx, congrArg (Spinlock.mk · none) (h.locked x lk hin)⟩
    · rw [update_of_ne hyx] at hy
      have hcpu := (h.holds x lk).mp hin
      rw [h.between y lk hy] at hcpu
      cases hcpu

/-- `__sync_lock_release`. -/
theorem LocksOk.give (h : LocksOk lock held half) (hhalf : half x = some lk) :
    LocksOk (update lock lk { lock lk with locked := false }) held
      (update half x none) := by
  obtain ⟨hout, hnohalf⟩ := h.alone hhalf
  have hchange : LocksOk (update lock lk { lock lk with locked := false })
      (update held x (held x)) (update half x none) := by
    refine h.change (h.nodup x) (fun _ _ => Iff.rfl) nofun (fun y => ?_) (fun y hy => ?_)
      fun y hy => absurd hy (hnohalf y)
    · rw [update_eq_self]
      exact h.holds y lk
    · exact absurd ((h.holds y lk).mpr hy) (hout y)
  rwa [update_eq_self] at hchange

/-! ## Processes -/

/-- Where a process waits: on a wait list or in the sleep queue, taken off it by a hart that is
    about to wake it, or for a child. -/
inductive Bed where
  | list (wl : WaitList)
  | hand (h : Hart)
  | child
  deriving DecidableEq

variable {b : Option Bed} {bed : Pid → Option Bed}

/-- The entry of a process that runs. -/
structure Runs (h : Hart) (m : Me) (pr : Proc) (b : Option Bed) : Prop where
  state : pr.state = m.st
  w4child : pr.w4child = m.w4child
  host : pr.host = h
  parked : b.isSome = m.parked
  child : b = some .child ↔ m.parked = true ∧ m.w4child = true
  used : m.st ≠ .unused

/-- The entry of a process that does not run: a context to go on from, unless it is a zombie. -/
structure AtRest (lost : Pid → Prop) (p : Pid) (pr : Proc) (b : Option Bed) : Prop where
  state : pr.state ≠ .running
  fits : pr.state = .zombie ∨ Fits (startCtx p pr.w4child) pr.ctxt
  waits : pr.w4child = true → pr.state = .block ∨ pr.state = .ready
  block : b.isSome = true → pr.state = .block
  found : pr.state = .block → b.isSome = true ∨ lost p
  child : b = some .child ↔ pr.state = .block ∧ pr.w4child = true

structure ProcsOk (lost : Pid → Prop) (tbl : Pid → Option Proc) (me : Hart → Me)
    (bed : Pid → Option Bed) : Prop where
  runs : ∀ h p, (me h).who = .proc p → ∃ pr, tbl p = some pr ∧ Runs h (me h) pr (bed p)
  rests : ∀ p pr, tbl p = some pr → (∀ h, (me h).who ≠ .proc p) → AtRest lost p pr (bed p)
  absent : ∀ p, tbl p = none → bed p = none
  first : tbl FIRST_PROC = none
  one : ∀ h h' p, (me h).who = .proc p → (me h').who = .proc p → h = h'

theorem ProcsOk.real (h : ProcsOk lost tbl me bed) (hwho : (me x).who = .proc p) : FIRST_PROC ≠ p := by
  rintro rfl
  obtain ⟨pr, hpr, -⟩ := h.runs x FIRST_PROC hwho
  exact nomatch h.first.symm.trans hpr

theorem of_update_none (hq : update tbl p (some pr) q = none) : q ≠ p ∧ tbl q = none := by
  by_cases hqp : q = p
  · rw [hqp, update_self] at hq
    cases hq
  · rw [update_of_ne hqp] at hq
    exact ⟨hqp, hq⟩

/-- A change of the running process. -/
theorem ProcsOk.own (h : ProcsOk lost tbl me bed) (hwho : (me x).who = .proc p) (hm : m.who = .proc p)
    (hruns : Runs x m pr b) : ProcsOk lost (update tbl p (some pr)) (update me x m)
      (update bed p b) := by
  have hsame : ∀ y, (update me x m y).who = (me y).who := by
    intro y
    by_cases hyx : y = x
    · rw [hyx, update_self, hm, hwho]
    · rw [update_of_ne hyx]
  have hreal := h.real hwho
  refine ⟨fun y q hy => ?_, fun q pr' hq hrest => ?_, fun q hq => ?_, ?_, fun y z q hy hz => ?_⟩
  · rw [hsame] at hy
    by_cases hyx : y = x
    · obtain rfl := hyx
      obtain rfl : p = q := Who.proc.inj (hwho.symm.trans hy)
      rw [update_self, update_self, update_self]
      exact ⟨pr, rfl, hruns⟩
    · have hqp : q ≠ p := fun heq => hyx (h.one y x p (heq ▸ hy) hwho)
      rw [update_of_ne hyx, update_of_ne hqp, update_of_ne hqp]
      exact h.runs y q hy
  · have hqp : q ≠ p := fun heq => hrest x ((hsame x).trans (heq ▸ hwho))
    rw [update_of_ne hqp] at hq ⊢
    exact h.rests q pr' hq fun y => hsame y ▸ hrest y
  · obtain ⟨hqp, hq⟩ := of_update_none hq
    rw [update_of_ne hqp]
    exact h.absent q hq
  · rw [update_of_ne hreal]
    exact h.first
  · rw [hsame] at hy hz
    exact h.one y z q hy hz

/-- A change of a process that does not run, new ones included. -/
theorem ProcsOk.other (h : ProcsOk lost tbl me bed) (hreal : FIRST_PROC ≠ p)
    (hrest : ∀ y, (me y).who ≠ .proc p) (hat : AtRest lost p pr b) :
    ProcsOk lost (update tbl p (some pr)) me (update bed p b) := by
  refine ⟨fun y q hy => ?_, fun q pr' hq hno => ?_, fun q hq => ?_,
    (update_of_ne hreal ..).trans h.first, h.one⟩
  · have hqp : q ≠ p := fun heq => hrest y (heq ▸ hy)
    rw [update_of_ne hqp, update_of_ne hqp]
    exact h.runs y q hy
  · by_cases hqp : q = p
    · obtain rfl := hqp
      rw [update_self] at hq ⊢
      cases hq
      exact hat
    · rw [update_of_ne hqp] at hq ⊢
      exact h.rests q pr' hq hno
  · obtain ⟨hqp, hq⟩ := of_update_none hq
    rw [update_of_ne hqp]
    exact h.absent q hq

theorem ProcsOk.remove (h : ProcsOk lost tbl me bed) (hrest : ∀ y, (me y).who ≠ .proc p)
    (hbed : bed p = none) : ProcsOk lost (update tbl p none) me bed := by
  refine ⟨fun y q hy => ?_, fun q pr' hq hno => ?_, fun q hq => ?_, ?_, h.one⟩
  · have hqp : q ≠ p := fun heq => hrest y (heq ▸ hy)
    rw [update_of_ne hqp]
    exact h.runs y q hy
  · have hqp : q ≠ p := by
      intro heq
      rw [heq, update_self] at hq
      cases hq
    rw [update_of_ne hqp] at hq
    exact h.rests q pr' hq hno
  · by_cases hqp : q = p
    · rw [hqp]
      exact hbed
    · rw [update_of_ne hqp] at hq
      exact h.absent q hq
  · by_cases heq : FIRST_PROC = p
    · rw [heq, update_self]
    · rw [update_of_ne heq]
      exact h.first

/-- A process moves from one bed to another. -/
theorem ProcsOk.rebed (h : ProcsOk lost tbl me bed) {b₀ b₁ : Bed} (hbed : bed p = some b₀)
    (h0 : b₀ ≠ .child) (h1 : b₁ ≠ .child) : ProcsOk lost tbl me (update bed p (some b₁)) := by
  have hnew : ∀ b : Bed, b ≠ .child → some b ≠ some .child :=
    fun b hb heq => hb (some.inj heq)
  refine ⟨fun y q hy => ?_, fun q pr hq hno => ?_, fun q hq => ?_, h.first, h.one⟩
  · obtain ⟨pr, hpr, hruns⟩ := h.runs y q hy
    by_cases hqp : q = p
    · obtain rfl := hqp
      rw [update_self]
      have hparked := hruns.parked
      have hchild := hruns.child
      rw [hbed] at hparked hchild
      exact ⟨pr, hpr, hruns.state, hruns.w4child, hruns.host, hparked,
        ⟨fun heq => absurd heq (hnew b₁ h1), fun hm => absurd (hchild.mpr hm) (hnew b₀ h0)⟩,
        hruns.used⟩
    · rw [update_of_ne hqp]
      exact ⟨pr, hpr, hruns⟩
  · have hat := h.rests q pr hq hno
    by_cases hqp : q = p
    · obtain rfl := hqp
      rw [update_self]
      have hblock := hat.block
      have hchild := hat.child
      rw [hbed] at hblock hchild
      exact ⟨hat.state, hat.fits, hat.waits, hblock, fun _ => .inl rfl,
        ⟨fun heq => absurd heq (hnew b₁ h1), fun hm => absurd (hchild.mpr hm) (hnew b₀ h0)⟩⟩
    · rw [update_of_ne hqp]
      exact hat
  · have hqp : q ≠ p := by
      rintro rfl
      exact nomatch (h.absent q hq).symm.trans hbed
    rw [update_of_ne hqp]
    exact h.absent q hq

/-- A kill takes a process that does not run out of the sleep queue. -/
theorem ProcsOk.unbed (h : ProcsOk lost tbl me bed) {b₀ : Bed} (hbed : bed p = some b₀)
    (h0 : b₀ ≠ .child) (hrest : ∀ y, (me y).who ≠ .proc p) (hlost : lost p) :
    ProcsOk lost tbl me (update bed p none) := by
  refine ⟨fun y q hy => ?_, fun q pr hq hno => ?_, fun q hq => ?_, h.first, h.one⟩
  · have hqp : q ≠ p := fun heq => hrest y (heq ▸ hy)
    rw [update_of_ne hqp]
    exact h.runs y q hy
  · have hat := h.rests q pr hq hno
    by_cases hqp : q = p
    · obtain rfl := hqp
      rw [update_self]
      have hchild := hat.child
      rw [hbed] at hchild
      exact ⟨hat.state, hat.fits, hat.waits, nofun, fun _ => .inr hlost,
        ⟨nofun, fun hm => absurd (some.inj (hchild.mpr hm)) h0⟩⟩
    · rw [update_of_ne hqp]
      exact hat
  · by_cases hqp : q = p
    · rw [hqp, update_self]
    · rw [update_of_ne hqp]
      exact h.absent q hq

/-- The scheduler of hart `x` starts a process. -/
theorem ProcsOk.begin (h : ProcsOk lost tbl me bed) (hreal : FIRST_PROC ≠ p)
    (hidle : ∀ q, (me x).who ≠ .proc q) (hrest : ∀ y, (me y).who ≠ .proc p) (hm : m.who = .proc p)
    (hruns : Runs x m pr (bed p)) :
    ProcsOk lost (update tbl p (some pr)) (update me x m) bed := by
  have hwho : ∀ y q, (update me x m y).who = .proc q →
      y = x ∧ q = p ∨ y ≠ x ∧ q ≠ p ∧ (me y).who = .proc q := by
    intro y q hy
    by_cases hyx : y = x
    · rw [hyx, update_self, hm] at hy
      exact .inl ⟨hyx, (Who.proc.inj hy).symm⟩
    · rw [update_of_ne hyx] at hy
      exact .inr ⟨hyx, fun heq => hrest y (heq ▸ hy), hy⟩
  refine ⟨fun y q hy => ?_, fun q pr' hq hno => ?_, fun q hq => ?_,
    (update_of_ne hreal ..).trans h.first, fun y z q hy hz => ?_⟩
  · rcases hwho y q hy with ⟨rfl, rfl⟩ | ⟨hyx, hqp, hy⟩
    · rw [update_self, update_self]
      exact ⟨pr, rfl, hruns⟩
    · rw [update_of_ne hyx, update_of_ne hqp]
      exact h.runs y q hy
  · have hqp : q ≠ p := by
      intro heq
      refine hno x ?_
      rw [update_self, hm, heq]
    rw [update_of_ne hqp] at hq
    refine h.rests q pr' hq fun y => ?_
    by_cases hyx : y = x
    · rw [hyx]
      exact hidle q
    · have hy := hno y
      rwa [update_of_ne hyx] at hy
  · exact h.absent q (of_update_none hq).2
  · rcases hwho y q hy with ⟨rfl, rfl⟩ | ⟨hyx, hqp, hy⟩
    · rcases hwho z q hz with ⟨rfl, -⟩ | ⟨-, hne, -⟩
      · rfl
      · exact absurd rfl hne
    · rcases hwho z q hz with ⟨-, rfl⟩ | ⟨-, -, hz⟩
      · exact absurd rfl hqp
      · exact h.one y z q hy hz

/-- The process of hart `x` gives it up. -/
theorem ProcsOk.leave (h : ProcsOk lost tbl me bed) (hwho : (me x).who = .proc p)
    (hm : ∀ q, m.who ≠ .proc q) (hat : AtRest lost p pr (bed p)) :
    ProcsOk lost (update tbl p (some pr)) (update me x m) bed := by
  have hreal := h.real hwho
  have hstill : ∀ y q, (update me x m y).who = .proc q →
      y ≠ x ∧ q ≠ p ∧ (me y).who = .proc q := by
    intro y q hy
    by_cases hyx : y = x
    · rw [hyx, update_self] at hy
      exact absurd hy (hm q)
    · rw [update_of_ne hyx] at hy
      exact ⟨hyx, fun heq => hyx (h.one y x p (heq ▸ hy) hwho), hy⟩
  refine ⟨fun y q hy => ?_, fun q pr' hq hno => ?_, fun q hq => ?_,
    (update_of_ne hreal ..).trans h.first, fun y z q hy hz => ?_⟩
  · obtain ⟨hyx, hqp, hy⟩ := hstill y q hy
    rw [update_of_ne hyx, update_of_ne hqp]
    exact h.runs y q hy
  · by_cases hqp : q = p
    · obtain rfl := hqp
      rw [update_self] at hq
      cases hq
      exact hat
    · rw [update_of_ne hqp] at hq
      refine h.rests q pr' hq fun y hy => ?_
      have hyx : y ≠ x := fun heq => hqp (Who.proc.inj (hy.symm.trans (heq ▸ hwho)))
      refine hno y ?_
      rw [update_of_ne hyx]
      exact hy
  · exact h.absent q (of_update_none hq).2
  · exact h.one y z q (hstill y q hy).2.2 (hstill z q hz).2.2

/-! ## Beds -/

/-- Where a process is found by who may wake it, children apart. -/
def Lies (queue : WaitList → List Pid) (task : Hart → Task) (p : Pid) : Bed → Prop
  | .list wl => p ∈ queue wl ∧ ¬ (wl = sleepQueue ∧ ∃ h, task h = .woken p)
  | .hand h => task h = .hand p
  | .child => False

/-- The beds are where the lists and the hands of the harts say. -/
structure BedsOk (queue : WaitList → List Pid) (task : Hart → Task) (bed : Pid → Option Bed) :
    Prop where
  nodup : ∀ wl, (queue wl).Nodup
  lies : ∀ p b, b ≠ .child → (bed p = some b ↔ Lies queue task p b)
  due : ∀ h p, task h = .due p → bed p = some (.list sleepQueue)

variable {queue' : WaitList → List Pid} {task' : Hart → Task}

/-- One process gets another bed. -/
theorem BedsOk.move (h : BedsOk queue task bed) (hnodup : ∀ wl, (queue' wl).Nodup)
    (hother : ∀ q, q ≠ p → ∀ b, Lies queue' task' q b ↔ Lies queue task q b)
    (hnew : ∀ b', b' ≠ .child → (b = some b' ↔ Lies queue' task' p b'))
    (hdue : ∀ y q, task' y = .due q → q ≠ p ∧ task y = .due q) :
    BedsOk queue' task' (update bed p b) := by
  refine ⟨hnodup, fun q b' hb' => ?_, fun y q hy => ?_⟩
  · by_cases hqp : q = p
    · rw [hqp, update_self]
      exact hnew b' hb'
    · rw [update_of_ne hqp, hother q hqp b']
      exact h.lies q b' hb'
  · obtain ⟨hqp, hold⟩ := hdue y q hy
    rw [update_of_ne hqp]
    exact h.due y q hold

/-- A task that is not looked for comes or goes. -/
theorem update_task (t u : Task) (hold : task x ≠ u) (hnew : t ≠ u) (y : Hart) :
    update task x t y = u ↔ task y = u := by
  by_cases hyx : y = x
  · rw [hyx, update_self]
    exact ⟨fun heq => absurd heq hnew, fun heq => absurd heq hold⟩
  · rw [update_of_ne hyx]

theorem lies_task (t : Task) (hwoken : task x ≠ .woken p) (hwoken' : t ≠ .woken p)
    (hhand : task x ≠ .hand p) (hhand' : t ≠ .hand p) (b : Bed) :
    Lies queue (update task x t) p b ↔ Lies queue task p b := by
  cases b with
  | list wl =>
    unfold Lies
    rw [exists_congr (update_task t (.woken p) hwoken hwoken')]
  | hand y => exact update_task t (.hand p) hhand hhand' y
  | child => exact Iff.rfl

theorem lies_queue {l : List Pid} (hin : p ∈ l ↔ p ∈ queue wl) (b : Bed) :
    Lies (update queue wl l) task p b ↔ Lies queue task p b := by
  cases b with
  | list wl' =>
    refine and_congr_left fun _ => ?_
    by_cases hwl : wl' = wl
    · rw [hwl, update_self]
      exact hin
    · rw [update_of_ne hwl]
  | hand y => exact Iff.rfl
  | child => exact Iff.rfl

theorem nodup_update {l : List Pid} (h : ∀ wl, (queue wl).Nodup) (hl : l.Nodup)
    (wl wl' : WaitList) : (update queue wl l wl').Nodup := by
  by_cases hwl : wl' = wl
  · rw [hwl, update_self]
    exact hl
  · rw [update_of_ne hwl]
    exact h wl'

theorem BedsOk.nowhere (h : BedsOk queue task bed) (hbed : bed p = none) {b : Bed}
    (hb : b ≠ .child) : ¬ Lies queue task p b := by
  intro hlies
  have hsome := (h.lies p b hb).mpr hlies
  rw [hbed] at hsome
  cases hsome

/-- Nobody lies in two beds. -/
theorem BedsOk.single (h : BedsOk queue task bed) {b b' : Bed} (hbed : bed p = some b')
    (hb : b ≠ .child) (hlies : Lies queue task p b) : b = b' :=
  some.inj (((h.lies p b hb).mpr hlies).symm.trans hbed)

/-- A process goes onto a list, or into the sleep queue. -/
theorem BedsOk.enqueue (h : BedsOk queue task bed) (hbed : bed p = none)
    (hwoken : wl = sleepQueue → ∀ y, task y ≠ .woken p) :
    BedsOk (update queue wl (p :: queue wl)) task
      (update bed p (some (.list wl))) := by
  have hno : ¬ (wl = sleepQueue ∧ ∃ y, task y = .woken p) := fun ⟨hwl, y, hy⟩ => hwoken hwl y hy
  have hout : p ∉ queue wl := fun hin => h.nowhere hbed (b := .list wl) nofun ⟨hin, hno⟩
  refine h.move (nodup_update h.nodup (List.nodup_cons.mpr ⟨hout, h.nodup wl⟩) wl) ?_ ?_ ?_
  · intro q hqp b
    refine lies_queue ?_ b
    rw [List.mem_cons, or_iff_right hqp]
  · intro b' hb'
    constructor
    · intro heq
      cases heq
      refine ⟨?_, hno⟩
      rw [update_self]
      exact List.mem_cons_self
    · intro hlies
      cases b' with
      | list wl' =>
        by_cases hwl : wl' = wl
        · rw [hwl]
        · obtain ⟨hin, hother⟩ := hlies
          rw [update_of_ne hwl] at hin
          have hlies : Lies queue task p (.list wl') := ⟨hin, hother⟩
          exact absurd hlies (h.nowhere hbed nofun)
      | hand y => exact absurd hlies (h.nowhere hbed (b := .hand y) nofun)
      | child => exact absurd rfl hb'
  · intro y q hy
    refine ⟨fun heq => ?_, hy⟩
    have hdue := h.due y q hy
    rw [heq, hbed] at hdue
    cases hdue

/-- A hart takes the first process off a wait list. -/
theorem BedsOk.pop (h : BedsOk queue task bed) (hwl : wl ≠ sleepQueue) {rest : List Pid}
    (hlist : queue wl = p :: rest) (hfree : task x = .none) :
    bed p = some (.list wl) ∧ BedsOk (update queue wl rest)
      (update task x (.hand p)) (update bed p (some (.hand x))) := by
  have hnodup := h.nodup wl
  rw [hlist] at hnodup
  obtain ⟨hout, hrest⟩ := List.nodup_cons.mp hnodup
  have hbed : bed p = some (.list wl) := by
    refine (h.lies p (.list wl) nofun).mpr ⟨?_, fun heq => hwl heq.1⟩
    rw [hlist]
    exact List.mem_cons_self
  have hnone : ∀ u, u ≠ .none → task x ≠ u := fun u hu heq => hu (heq.symm.trans hfree)
  refine ⟨hbed, h.move (nodup_update h.nodup hrest wl) ?_ ?_ ?_⟩
  · intro q hqp b
    refine (lies_task (.hand p) (hnone (.woken q) nofun) nofun (hnone (.hand q) nofun) ?_ b).trans
      (lies_queue ?_ b)
    · exact fun heq => hqp (Task.hand.inj heq).symm
    · rw [hlist, List.mem_cons, or_iff_right hqp]
  · intro b' hb'
    constructor
    · intro heq
      cases heq
      exact update_self ..
    · intro hlies
      cases b' with
      | list wl' =>
        obtain ⟨hin, hno⟩ := hlies
        by_cases hwl' : wl' = wl
        · rw [hwl', update_self] at hin
          exact absurd hin hout
        · rw [update_of_ne hwl'] at hin
          rw [exists_congr (update_task (.hand p) (.woken p) (hnone (.woken p) nofun) nofun)] at hno
          exact absurd (Bed.list.inj (h.single hbed (b := .list wl') nofun ⟨hin, hno⟩)) hwl'
      | hand y =>
        by_cases hyx : y = x
        · rw [hyx]
        · have hy : update task x (.hand p) y = .hand p := hlies
          rw [update_of_ne hyx] at hy
          exact nomatch h.single hbed (b := .hand y) nofun hy
      | child => exact absurd rfl hb'
  · intro y q hy
    have hold : task y = .due q :=
      (update_task (.hand p) (.due q) (hnone (.due q) nofun) nofun y).mp hy
    refine ⟨fun heq => ?_, hold⟩
    have hdue := h.due y q hold
    rw [heq, hbed] at hdue
    exact hwl (Bed.list.inj (some.inj hdue))

/-- A process that was taken off a list has been woken. -/
theorem BedsOk.wakeHand (h : BedsOk queue task bed) (hhand : task x = .hand p) :
    BedsOk queue (update task x .none) (update bed p none) := by
  have hbed : bed p = some (.hand x) := (h.lies p (.hand x) nofun).mpr hhand
  have hold : ∀ u, u ≠ .hand p → task x ≠ u := fun u hu heq => hu (heq.symm.trans hhand)
  refine h.move h.nodup ?_ ?_ ?_
  · intro q hqp b
    refine lies_task .none (hold (.woken q) nofun) nofun (hold (.hand q) ?_) nofun b
    exact fun heq => hqp (Task.hand.inj heq)
  · intro b' hb'
    refine ⟨nofun, fun hlies => ?_⟩
    cases b' with
    | list wl =>
      obtain ⟨hin, hno⟩ := hlies
      rw [exists_congr (update_task .none (.woken p) (hold (.woken p) nofun) nofun)] at hno
      exact nomatch h.single hbed (b := .list wl) nofun ⟨hin, hno⟩
    | hand y =>
      have hy : update task x .none y = .hand p := hlies
      by_cases hyx : y = x
      · rw [hyx, update_self] at hy
        cases hy
      · rw [update_of_ne hyx] at hy
        exact absurd (Bed.hand.inj (h.single hbed (b := .hand y) nofun hy)) hyx
    | child => exact absurd rfl hb'
  · intro y q hy
    have hdue : task y = .due q := (update_task .none (.due q) (hold (.due q) nofun) nofun y).mp hy
    refine ⟨fun heq => ?_, hdue⟩
    have hlist := h.due y q hdue
    rw [heq, hbed] at hlist
    cases hlist

/-- `time_wakeup` has woken the process of the entry that is due. -/
theorem BedsOk.wakeDue (h : BedsOk queue task bed) (hdue : task x = .due p)
    (hone : ∀ y, task y = .due p → y = x) :
    BedsOk queue (update task x (.woken p)) (update bed p none) := by
  have hbed := h.due x p hdue
  have hold : ∀ u, u ≠ .due p → task x ≠ u := fun u hu heq => hu (heq.symm.trans hdue)
  refine h.move h.nodup ?_ ?_ ?_
  · intro q hqp b
    refine lies_task (.woken p) (hold (.woken q) nofun) ?_ (hold (.hand q) nofun) nofun b
    exact fun heq => hqp (Task.woken.inj heq).symm
  · intro b' hb'
    refine ⟨nofun, fun hlies => ?_⟩
    cases b' with
    | list wl =>
      obtain ⟨hin, hno⟩ := hlies
      by_cases hwl : wl = sleepQueue
      · exact absurd ⟨hwl, x, update_self ..⟩ hno
      · exact absurd (Bed.list.inj (h.single hbed (b := .list wl) nofun
          ⟨hin, fun heq => hwl heq.1⟩)) hwl
    | hand y =>
      have hy : task y = .hand p :=
        (update_task (.woken p) (.hand p) (hold (.hand p) nofun) nofun y).mp hlies
      exact nomatch h.single hbed (b := .hand y) nofun hy
    | child => exact absurd rfl hb'
  · intro y q hy
    have hyx : y ≠ x := by
      intro heq
      rw [heq, update_self] at hy
      cases hy
    rw [update_of_ne hyx] at hy
    exact ⟨fun heq => hyx (hone y (heq ▸ hy)), hy⟩

/-- Its entry leaves the sleep queue. -/
theorem BedsOk.pqPop (h : BedsOk queue task bed) (hwoken : task x = .woken p) :
    BedsOk (update queue sleepQueue ((queue sleepQueue).erase p))
      (update task x .none) bed := by
  have hold : ∀ u, u ≠ .woken p → task x ≠ u := fun u hu heq => hu (heq.symm.trans hwoken)
  refine ⟨nodup_update h.nodup ((h.nodup sleepQueue).erase p) sleepQueue, fun q b hb => ?_,
    fun y q hy => ?_⟩
  · rw [h.lies q b hb]
    by_cases hqp : q = p
    · rw [hqp]
      cases b with
      | list wl =>
        constructor
        · rintro ⟨hin, hno⟩
          have hwl : wl ≠ sleepQueue := fun hwl => hno ⟨hwl, x, hwoken⟩
          refine ⟨?_, fun heq => hwl heq.1⟩
          rw [update_of_ne hwl]
          exact hin
        · rintro ⟨hin, -⟩
          have hwl : wl ≠ sleepQueue := by
            intro hwl
            rw [hwl, update_self] at hin
            exact absurd hin (h.nodup sleepQueue).not_mem_erase
          rw [update_of_ne hwl] at hin
          exact ⟨hin, fun heq => hwl heq.1⟩
      | hand y => exact (update_task .none (.hand p) (hold (.hand p) nofun) nofun y).symm
      | child => exact Iff.rfl
    · refine ((lies_task .none (hold (.woken q) ?_) nofun (hold (.hand q) nofun) nofun b).trans
        (lies_queue ?_ b)).symm
      · exact fun heq => hqp (Task.woken.inj heq)
      · exact List.mem_erase_of_ne hqp
  · exact h.due y q ((update_task .none (.due q) (hold (.due q) nofun) nofun y).mp hy)

/-- A kill takes a process out of the sleep queue. -/
theorem BedsOk.popped (h : BedsOk queue task bed) (hbed : bed p = some (.list sleepQueue))
    (hdue : ∀ y, task y ≠ .due p) :
    BedsOk (update queue sleepQueue ((queue sleepQueue).erase p)) task
      (update bed p none) := by
  refine h.move (nodup_update h.nodup ((h.nodup sleepQueue).erase p) sleepQueue) ?_ ?_ ?_
  · exact fun q hqp b => lies_queue (List.mem_erase_of_ne hqp) b
  · intro b' hb'
    refine ⟨nofun, fun hlies => ?_⟩
    cases b' with
    | list wl =>
      obtain ⟨hin, hno⟩ := hlies
      by_cases hwl : wl = sleepQueue
      · rw [hwl, update_self] at hin
        exact absurd hin (h.nodup sleepQueue).not_mem_erase
      · rw [update_of_ne hwl] at hin
        exact absurd (Bed.list.inj (h.single hbed (b := .list wl) nofun ⟨hin, hno⟩)) hwl
    | hand y => exact nomatch h.single hbed (b := .hand y) nofun hlies
    | child => exact absurd rfl hb'
  · intro y q hy
    exact ⟨fun heq => hdue y (heq ▸ hy), hy⟩

/-- `time_wakeup` finds an entry that is due. -/
theorem BedsOk.takeDue (h : BedsOk queue task bed) (hfree : task x = .none)
    (hbed : bed p = some (.list sleepQueue)) :
    BedsOk queue (update task x (.due p)) bed := by
  have hnone : ∀ u, u ≠ .none → task x ≠ u := fun u hu heq => hu (heq.symm.trans hfree)
  refine ⟨h.nodup, fun q b hb => ?_, fun y q hy => ?_⟩
  · rw [h.lies q b hb]
    exact (lies_task (.due p) (hnone (.woken q) nofun) nofun (hnone (.hand q) nofun) nofun b).symm
  · by_cases hyx : y = x
    · rw [hyx, update_self] at hy
      rw [← Task.due.inj hy]
      exact hbed
    · rw [update_of_ne hyx] at hy
      exact h.due y q hy

/-- A process begins to wait for a child, or a child has come. -/
theorem BedsOk.child (h : BedsOk queue task bed) (hno : ∀ b, b ≠ .child → ¬ Lies queue task p b)
    (hb : b = none ∨ b = some .child) : BedsOk queue task (update bed p b) := by
  refine h.move h.nodup (fun q _ b => Iff.rfl) (fun b' hb' => ?_) (fun y q hy => ⟨?_, hy⟩)
  · refine ⟨fun heq => ?_, fun hlies => absurd hlies (hno b' hb')⟩
    rcases hb with rfl | rfl
    · cases heq
    · exact absurd (some.inj heq).symm hb'
  · intro heq
    have hlist := (h.lies q (.list sleepQueue) nofun).mp (h.due y q hy)
    rw [heq] at hlist
    exact hno (.list sleepQueue) nofun hlist

end Uniks.Sched
