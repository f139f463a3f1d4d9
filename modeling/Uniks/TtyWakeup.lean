/-
  Who is woken when a line has been typed: a whole call of `copy_to_cooked` of `kernel/device/tty.c`,
  which empties the receive queue of the uart.

  The lock of the terminal's queue is held from the first character to the last, so the call is the
  handler's steps of the terminal with nothing in between.  Whether the processes on the wait list are
  woken is decided behind the loop, by the character that came last.

  `left` is not in the source: what the queue holds afterwards, where each character carries a mark,
  true if this call has pushed it.
-/
import Uniks.Tty

namespace Uniks.Tty

open Uniks.Runs Uniks.WaitList Uniks.Queue
open Option (some bind_eq_some_iff)

/-! ## The code -/

/-- The source's `uart_read` of one character; `none` is a call that returns 0.  The pop comes behind
    the test it asserts. -/
def uartRead (rx : QueueMeta Key) : Option (Key × QueueMeta Key) :=
  if queueEmpty rx then none else (queueFrontPop rx).map fun rx' => (queueFront rx, rx')

/-- The loop of `copy_to_cooked`; each turn takes one character out of the uart's queue. -/
def copyLoop : Nat → QueueMeta Key → State → Option (QueueMeta Key × State)
  | 0, _, _ => none
  | fuel + 1, rx, s =>
    match uartRead rx with
    | none => some (rx, s)
    | some (key, rx) => (next s (.key key)).bind (copyLoop fuel rx)

/-- The source's `copy_to_cooked`, on top of the process `me`, if there is one. -/
def copyToCooked (rx : QueueMeta Key) (me : Option Pid) (s : State) :
    Option (QueueMeta Key × State) := do
  let s ← next s (.interrupt me)
  let (rx, s) ← copyLoop (rx.queueSize.toNat + 1) rx s
  let s ← next s .interruptEnd
  return (rx, s)

/-! ## What is left in the queue -/

/-- What a character does to what the queue holds; without room the oldest one goes. -/
def edit {α : Type} (back : α → Bool) (capacity : Nat) (xs : List α) (x : α) : List α :=
  if back x then xs.dropLast else (if xs.length = capacity then xs.tail else xs) ++ [x]

/-- A character, and whether this call has pushed it. -/
abbrev Mark := Key × Bool

/-- A turn of the loop, on what the queue holds. -/
def mark (marks : List Mark) (key : Key) : List Mark :=
  if key = TAB then marks else edit (fun m => m.1 == BACKSPACE) 1024 marks (cook key, true)

/-- What the queue holds after a batch. -/
def left (unread keys : List Key) : List Mark := keys.foldl mark (unread.map fun ch => (ch, false))

/-- The batch leaves the end of a line it has put there. -/
def LeavesEnd (s : State) (keys : List Key) : Prop :=
  ∃ m ∈ left s.unread keys, m.2 = true ∧ isEnd m.1 = true

/-- The last character of the batch is the end of a line. -/
def EndsLine (keys : List Key) : Prop := ∃ key, keys.getLast? = some key ∧ isEnd (cook key) = true

/-- What the code relies on: the queue is one, and who is on the wait list sleeps. -/
structure Sound (s : State) : Prop where
  holds : Holds s.secondaryQ.qm s.unread
  capacity : s.secondaryQ.qm.queueCapacity = TTY_BUF_SIZE
  queued : Queued s.blocked s.secondaryQ.waitList
  awake : ∀ h p, s.handler = some h → h.me = some p → s.blocked p = false

variable {α β : Type} {s s' : State} {rx q : QueueMeta Key} {me : Option Pid} {xs keys : List Key}
  {ch : Key}

/-- The marks play no part in it. -/
theorem edit_map (f : α → β) (back : β → Bool) (capacity : Nat) (xs : List α) (x : α) :
    (edit (fun x => back (f x)) capacity xs x).map f = edit back capacity (xs.map f) (f x) := by
  unfold edit
  rw [List.length_map]
  split
  · exact List.map_dropLast
  · rw [List.map_append]
    split
    · rw [List.map_tail]
      rfl
    · rfl

/-- `keyQueue` never fails, and edits what the queue holds. -/
theorem keyQueue_spec (h : Holds q xs) (hcap : q.queueCapacity = TTY_BUF_SIZE) (ch : Key) :
    ∃ q', keyQueue q ch = some q' ∧ Holds q' (edit (fun c => c == BACKSPACE) 1024 xs ch) ∧
      q'.queueCapacity = TTY_BUF_SIZE := by
  have hfits := h.fits
  rw [hcap] at hfits
  unfold edit
  by_cases hback : ch = BACKSPACE
  · rw [keyQueue, if_pos hback, if_pos (beq_iff_eq.mpr hback)]
    rcases List.eq_nil_or_concat xs with rfl | ⟨ys, c, rfl⟩
    · rw [if_pos (h.queueEmpty_iff.mpr rfl)]
      exact ⟨q, rfl, h, hcap⟩
    · rw [List.concat_eq_append] at h ⊢
      have hempty : ¬ queueEmpty q = true := by
        rw [h.queueEmpty_iff]
        exact List.append_ne_nil_of_right_ne_nil ys (List.cons_ne_nil c [])
      obtain ⟨q', hpop, hholds, hcap'⟩ := h.backPop
      rw [if_neg hempty, List.dropLast_concat]
      exact ⟨q', hpop, hholds, hcap'.trans hcap⟩
  · rw [if_neg (fun heq => hback (beq_iff_eq.mp heq))]
    have hkey : keyQueue q ch = (if queueFull q then queueFrontPop q else some q).bind
        fun q => if queueFull q then none else queuePush q ch := by
      rw [keyQueue, if_neg hback]
      split
      · rfl
      · rfl
    have hfull : queueFull q = true ↔ xs.length = 1024 := by
      rw [queueFull, beq_iff_eq, h.size, hcap]
      show (xs.length : Int) = 1024 ↔ _
      omega
    -- the oldest one makes room
    obtain ⟨q₁, hroom, hholds₁, hcap₁, hlt⟩ : ∃ q₁,
        (if queueFull q then queueFrontPop q else some q) = some q₁ ∧
        Holds q₁ (if xs.length = 1024 then xs.tail else xs) ∧ q₁.queueCapacity = TTY_BUF_SIZE ∧
        (if xs.length = 1024 then xs.tail else xs).length < 1024 := by
      by_cases hlen : xs.length = 1024
      · obtain ⟨x, xs, rfl⟩ := List.exists_cons_of_length_pos (by omega : 0 < xs.length)
        obtain ⟨q₁, hpop⟩ := h.frontPop_isSome
        obtain ⟨hholds, hcap'⟩ := h.frontPop hpop
        rw [if_pos (hfull.mpr hlen), if_pos hlen]
        rw [List.length_cons] at hlen
        exact ⟨q₁, hpop, hholds, hcap'.trans hcap, by rw [List.tail_cons]; omega⟩
      · rw [if_neg fun hf => hlen (hfull.mp hf), if_neg hlen]
        have hle : (xs.length : Int) ≤ 1024 := hfits
        exact ⟨q, rfl, h, hcap, by omega⟩
    have hnot : ¬ queueFull q₁ = true := by
      rw [queueFull, beq_iff_eq, hholds₁.size, hcap₁]
      show ¬ (_ : Int) = 1024
      omega
    obtain ⟨q', hpush⟩ := hholds₁.push_isSome ch (by
      rw [hcap₁]
      show (_ : Int) < 1024
      omega)
    obtain ⟨hholds, hcap'⟩ := hholds₁.push hpush
    refine ⟨q', ?_, hholds, hcap'.trans hcap₁⟩
    rw [hkey, hroom, Option.bind_some, if_neg hnot, hpush]

/-! ## A batch -/

/-- The state in the middle of a batch, from `s₀` on. -/
structure Amid (s₀ : State) (me : Option Pid) (marks : List Mark) (ch : Key) (s : State) : Prop where
  holds : Holds s.secondaryQ.qm (marks.map Prod.fst)
  capacity : s.secondaryQ.qm.queueCapacity = TTY_BUF_SIZE
  handler : s.handler = some ⟨me, ch⟩
  waitList : s.secondaryQ.waitList = s₀.secondaryQ.waitList
  blocked : s.blocked = s₀.blocked

theorem Sound.amid (h : Sound s) (hhd : s.handler = some ⟨me, ch⟩) :
    Amid s me (left s.unread []) ch s where
  holds := by
    have hback : (left s.unread []).map Prod.fst = s.unread := by
      show (s.unread.map fun ch => (ch, false)).map Prod.fst = s.unread
      rw [List.map_map]
      exact List.map_id _
    rw [hback]
    exact h.holds
  capacity := h.capacity
  handler := hhd
  waitList := rfl
  blocked := rfl

theorem Amid.sound {s₀ : State} {marks : List Mark} (h : Amid s₀ me marks ch s) (h₀ : Sound s₀)
    (hme : ∀ p, me = some p → s₀.blocked p = false) : Sound s where
  holds := h.holds.self
  capacity := h.capacity
  queued := by
    rw [h.blocked, h.waitList]
    exact h₀.queued
  awake hd p hhd hp := by
    rw [h.handler] at hhd
    rw [← some.inj hhd] at hp
    rw [h.blocked]
    exact hme p hp

theorem Sound.interrupt (h : Sound s) (he : Enabled s (.interrupt me)) :
    Sound { s with handler := some ⟨me, 0⟩ } where
  holds := h.holds
  capacity := h.capacity
  queued := h.queued
  awake hd p hhd hp := by
    rw [← some.inj hhd] at hp
    exact he.2 p hp

/-- A turn of the loop: the queue is edited, and the character is remembered. -/
theorem Amid.key {s₀ : State} {marks : List Mark} (h : Amid s₀ me marks ch s) (key : Key) :
    ∃ s', next s (.key key) = some s' ∧ Amid s₀ me (mark marks key) (cook key) s' := by
  show ∃ s', (s.handler.bind fun hd => copyTurn s hd key) = some s' ∧ _
  rw [h.handler, Option.bind_some]
  unfold copyTurn mark
  by_cases htab : key = TAB
  · subst htab
    exact ⟨_, rfl, h.holds, h.capacity, rfl, h.waitList, h.blocked⟩
  · obtain ⟨qm, hqueue, hholds, hcap⟩ := keyQueue_spec h.holds h.capacity (cook key)
    dsimp only
    rw [if_neg htab, if_neg htab, hqueue]
    have hmap := edit_map Prod.fst (fun c => c == BACKSPACE) 1024 marks (cook key, true)
    refine ⟨_, rfl, ?_, hcap, rfl, h.waitList, h.blocked⟩
    rw [hmap]
    exact hholds

/-- The loop takes all that is in the uart's queue. -/
theorem Amid.loop {s₀ : State} {marks : List Mark} (h : Amid s₀ me marks ch s) (hrx : Holds rx keys)
    {fuel : Nat} (hfuel : keys.length < fuel) :
    ∃ rx' s', copyLoop fuel rx s = some (rx', s') ∧ Holds rx' [] ∧
      Amid s₀ me (keys.foldl mark marks) ((keys.getLast?.map cook).getD ch) s' := by
  induction keys generalizing fuel rx s marks ch with
  | nil =>
    obtain ⟨fuel, rfl⟩ := Nat.exists_eq_add_one_of_ne_zero (Nat.ne_of_gt hfuel)
    refine ⟨rx, s, ?_, hrx, h⟩
    rw [copyLoop, uartRead, if_pos (hrx.queueEmpty_iff.mpr rfl)]
  | cons key keys ih =>
    obtain ⟨fuel, rfl⟩ := Nat.exists_eq_add_one_of_ne_zero (Nat.ne_zero_of_lt hfuel)
    have hempty : ¬ queueEmpty rx = true := by
      rw [hrx.queueEmpty_iff]
      exact List.cons_ne_nil key keys
    obtain ⟨rx₁, hpop⟩ := hrx.frontPop_isSome
    obtain ⟨s₁, hturn, hamid⟩ := h.key key
    obtain ⟨rx', s', hloop, hrx', hamid'⟩ :=
      ih hamid (hrx.frontPop hpop).1 (Nat.lt_of_succ_lt_succ hfuel)
    refine ⟨rx', s', ?_, hrx', ?_⟩
    · rw [copyLoop, uartRead, if_neg hempty, hpop, Option.map_some, hrx.front]
      dsimp only
      rw [hturn, Option.bind_some, hloop]
    · have hlast : ((key :: keys).getLast?.map cook).getD ch
          = (keys.getLast?.map cook).getD (cook key) := by
        rw [List.getLast?_cons]
        cases keys.getLast? with
        | none => rfl
        | some _ => rfl
      rw [hlast]
      exact hamid'

theorem endsLine_iff : EndsLine keys ↔ isEnd ((keys.getLast?.map cook).getD 0) = true := by
  unfold EndsLine
  cases keys.getLast? with
  | none =>
    refine ⟨fun ⟨_, hkey, _⟩ => (nomatch hkey), fun hend => ?_⟩
    exact absurd hend (by decide)
  | some key =>
    refine ⟨fun ⟨_, hkey, hend⟩ => ?_, fun hend => ⟨key, rfl, hend⟩⟩
    rw [some.inj hkey]
    exact hend

/-- A whole call: the uart's queue is empty, the terminal's holds what the batch leaves, and the wait
    list is emptied if the batch ends with the end of a line. -/
theorem copyToCooked_spec (h : Sound s) (he : Enabled s (.interrupt me)) (hrx : Holds rx keys) :
    ∃ rx' s', copyToCooked rx me s = some (rx', s') ∧ Holds rx' [] ∧
      Holds s'.secondaryQ.qm ((left s.unread keys).map Prod.fst) ∧
      (EndsLine keys → s'.secondaryQ.waitList = [] ∧
        s'.blocked = awaken s.secondaryQ.waitList s.blocked) ∧
      (¬ EndsLine keys → s'.secondaryQ.waitList = s.secondaryQ.waitList ∧
        s'.blocked = s.blocked) := by
  have hfuel : keys.length < rx.queueSize.toNat + 1 := by
    rw [hrx.size, Int.toNat_natCast]
    exact Nat.lt_succ_self _
  obtain ⟨rx', s₁, hloop, hrx', hamid⟩ := ((h.interrupt he).amid rfl).loop hrx hfuel
  have hrun : copyToCooked rx me s
      = (next s₁ .interruptEnd).bind fun s' => some (rx', s') := by
    show ((copyLoop (rx.queueSize.toNat + 1) rx { s with handler := some ⟨me, 0⟩ }).bind _) = _
    rw [hloop]
    rfl
  rw [hrun]
  show ∃ _ _, ((s₁.handler.bind fun hd => copyEnd s₁ hd).bind _) = _ ∧ _
  rw [hamid.handler, Option.bind_some]
  unfold copyEnd
  by_cases hend : EndsLine keys
  · have hqueued : Queued s₁.blocked s₁.secondaryQ.waitList := by
      rw [hamid.blocked, hamid.waitList]
      exact h.queued
    have hme : ∀ p, me = some p → s₁.blocked p = false := by
      rw [hamid.blocked]
      exact he.2
    rw [if_pos (endsLine_iff.mp hend), hqueued.unblockAll hme]
    refine ⟨rx', _, rfl, hrx', hamid.holds, fun _ => ⟨rfl, ?_⟩, fun hnot => absurd hend hnot⟩
    show awaken s₁.secondaryQ.waitList s₁.blocked = _
    rw [hamid.blocked, hamid.waitList]
  · rw [if_neg fun hd => hend (endsLine_iff.mpr hd)]
    exact ⟨rx', _, rfl, hrx', hamid.holds, fun hyes => absurd hyes hend,
      fun _ => ⟨hamid.waitList, hamid.blocked⟩⟩

/-! ## Runs -/

/-- The reader takes characters from the front, as many as there are and as it has room for. -/
theorem readLoop_holds (room : Nat) (h : Holds q xs) (buffer : List Key) :
    ∃ q' ys buffer' e, readLoop room q buffer = some (q', buffer', e) ∧ Holds q' ys ∧
      q'.queueCapacity = q.queueCapacity := by
  induction room generalizing q xs buffer with
  | zero => exact ⟨q, xs, buffer, .done, rfl, h, rfl⟩
  | succ room ih =>
    cases xs with
    | nil =>
      refine ⟨q, [], buffer, .empty, ?_, h, rfl⟩
      rw [readLoop, if_pos (h.queueEmpty_iff.mpr rfl)]
    | cons ch xs =>
      have hempty : ¬ queueEmpty q = true := by
        rw [h.queueEmpty_iff]
        exact List.cons_ne_nil ch xs
      obtain ⟨q₁, hpop⟩ := h.frontPop_isSome
      obtain ⟨hrest, hcap⟩ := h.frontPop hpop
      rw [readLoop, if_neg hempty, h.front, hpop]
      dsimp only [Option.bind_eq_bind, Option.bind_some]
      by_cases heot : ch = EOT
      · rw [if_pos heot]
        exact ⟨q₁, xs, _, _, rfl, hrest, hcap⟩
      · rw [if_neg heot]
        by_cases hnew : ch = NEWLINE
        · rw [if_pos hnew]
          exact ⟨q₁, xs, _, _, rfl, hrest, hcap⟩
        · rw [if_neg hnew]
          obtain ⟨q', ys, buffer', e, hrun, hholds, hcap'⟩ := ih hrest (buffer ++ [ch])
          exact ⟨q', ys, buffer', e, hrun, hholds, hcap'.trans hcap⟩

theorem Sound.read (h : Sound s) {r : Reader} (hawake : s.blocked r.pid = false)
    (hlock : s.handler = none) : ∃ s', ttyRead s r = some s' ∧ Sound s' := by
  obtain ⟨q', ys, buffer', e, hrun, hholds, hcap⟩ :=
    readLoop_holds (r.cnt - r.buffer.length) h.holds r.buffer
  have hnobody : ∀ hd p, s.handler = some hd → ¬ hd.me = some p := by
    intro hd p hhd
    rw [hlock] at hhd
    cases hhd
  unfold ttyRead
  rw [hrun]
  dsimp only [Option.bind_eq_bind, Option.bind_some]
  cases e with
  | done => exact ⟨_, rfl, hholds.self, hcap.trans h.capacity, h.queued, h.awake⟩
  | empty =>
    dsimp only
    by_cases hkilled : s.killed r.pid = true
    · rw [if_pos hkilled]
      exact ⟨_, rfl, hholds.self, hcap.trans h.capacity, h.queued, h.awake⟩
    · rw [if_neg hkilled, procBlock_of_awake hawake]
      exact ⟨_, rfl, hholds.self, hcap.trans h.capacity, h.queued.block hawake,
        fun hd p hhd hp => absurd hp (hnobody hd p hhd)⟩

theorem Sound.interruptEnd (h : Sound s) {hd : Handler} (hhd : s.handler = some hd) :
    ∃ s', copyEnd s hd = some s' ∧ Sound s' := by
  unfold copyEnd
  split
  · rw [h.queued.unblockAll fun p hp => h.awake hd p hhd hp]
    exact ⟨_, rfl, h.holds, h.capacity, .nil _, fun _ _ hh => (nomatch hh)⟩
  · exact ⟨_, rfl, h.holds, h.capacity, h.queued, fun _ _ hh => (nomatch hh)⟩

theorem Sound.step (h : Sound s) {i : Input} (hstep : Step s i s') : Sound s' := by
  obtain ⟨he, hnext⟩ := hstep
  cases i with
  | interrupt me =>
    cases hnext
    exact h.interrupt he
  | key key =>
    obtain ⟨hd, hhd⟩ := Option.ne_none_iff_exists'.mp he
    obtain ⟨s₁, hturn, hamid⟩ := (h.amid hhd).key key
    rw [hnext] at hturn
    rw [some.inj hturn]
    exact hamid.sound h fun p hp => h.awake hd p hhd hp
  | interruptEnd =>
    obtain ⟨hd, hhd⟩ := Option.ne_none_iff_exists'.mp he
    obtain ⟨s₁, hend, hsound⟩ := h.interruptEnd hhd
    rw [next, hhd, Option.bind_some, hend] at hnext
    rw [← some.inj hnext]
    exact hsound
  | call p cnt =>
    rw [next] at hnext
    split at hnext
    · cases hnext
      exact ⟨h.holds, h.capacity, h.queued, h.awake⟩
    · cases hnext
  | read p =>
    obtain ⟨hlock, hmap, hawake⟩ := he
    obtain ⟨r, hr, rfl⟩ := Option.map_eq_some_iff.mp hmap
    obtain ⟨s₁, hread, hsound⟩ := h.read hawake hlock
    rw [next, hr, Option.bind_some, hread] at hnext
    rw [← some.inj hnext]
    exact hsound

/-- What the code relies on holds in every state of every run. -/
theorem reaches_sound (h : Reaches Step anyInput start s) : Sound s := by
  refine h.invariant ⟨start_inv.holds, rfl, .nil _, fun _ _ hh => (nomatch hh)⟩ ?_
  exact fun _ _ _ hsound _ hstep => hsound.step hstep

/-- The call is a run of the handler. -/
theorem copyLoop_reaches {fuel : Nat} {rx' : QueueMeta Key}
    (h : copyLoop fuel rx s = some (rx', s')) (hhd : s.handler ≠ none) :
    Reaches Step anyInput s s' ∧ s'.handler ≠ none := by
  induction fuel generalizing rx s with
  | zero => cases h
  | succ fuel ih =>
    unfold copyLoop at h
    split at h
    · cases h
      exact ⟨.refl, hhd⟩
    · rename_i key rx₁ _
      obtain ⟨s₁, hkey, hloop⟩ := bind_eq_some_iff.mp h
      have hhd₁ : s₁.handler ≠ none := by
        obtain ⟨hd, hturn⟩ := bind_eq_some_iff.mp hkey
        obtain ⟨-, hturn⟩ := hturn
        unfold copyTurn at hturn
        dsimp only at hturn
        split at hturn
        · cases hturn
          exact Option.some_ne_none _
        · obtain ⟨qm, -, hturn⟩ := bind_eq_some_iff.mp hturn
          cases hturn
          exact Option.some_ne_none _
      obtain ⟨hrun, hhd'⟩ := ih hloop hhd₁
      have hstep : Step s (.key key) s₁ := ⟨hhd, hkey⟩
      have hfirst : Reaches Step anyInput s s₁ := Reaches.refl.snoc trivial hstep
      exact ⟨hfirst.trans hrun, hhd'⟩

theorem copyToCooked_reaches {rx' : QueueMeta Key} (he : Enabled s (.interrupt me))
    (h : copyToCooked rx me s = some (rx', s')) : Reaches Step anyInput s s' := by
  obtain ⟨⟨rx₁, s₁⟩, hloop, h⟩ := bind_eq_some_iff.mp h
  obtain ⟨s₂, hend, h⟩ := bind_eq_some_iff.mp h
  obtain ⟨-, rfl⟩ := Prod.mk.inj (some.inj h)
  have hbegin : Step s (.interrupt me) { s with handler := some ⟨me, 0⟩ } := ⟨he, rfl⟩
  obtain ⟨hrun, hhd⟩ := copyLoop_reaches hloop (Option.some_ne_none _)
  have hstep : Step s₁ .interruptEnd s₂ := ⟨hhd, hend⟩
  have hfirst : Reaches Step anyInput s { s with handler := some ⟨me, 0⟩ } :=
    Reaches.refl.snoc trivial hbegin
  exact (hfirst.trans hrun).snoc trivial hstep

/-! ## Who is woken -/

/-- If a batch leaves the end of a line, those who wait for it are ready when the lock is released
    exactly if the end of a line is also its last character, or nobody waits. -/
theorem completed_lines_wake (h : Sound s) (he : Enabled s (.interrupt me)) (hrx : Holds rx keys)
    (_hleft : LeavesEnd s keys) :
    ∃ rx' s', copyToCooked rx me s = some (rx', s') ∧
      ((∀ p ∈ s.secondaryQ.waitList, s'.blocked p = false) ↔
        EndsLine keys ∨ s.secondaryQ.waitList = []) := by
  obtain ⟨rx', s', hrun, -, -, hwake, hsleep⟩ := copyToCooked_spec h he hrx
  refine ⟨rx', s', hrun, fun hall => ?_, fun hcond p hp => ?_⟩
  · by_cases hend : EndsLine keys
    · exact .inl hend
    · refine .inr (List.eq_nil_iff_forall_not_mem.mpr fun p hp => ?_)
      have hready := hall p hp
      rw [(hsleep hend).2, h.queued.asleep p hp] at hready
      cases hready
  · rcases hcond with hend | hnil
    · rw [(hwake hend).2]
      exact awaken_mem hp
    · rw [hnil] at hp
      cases hp

/-- Process 1 has called `tty_read`, and sleeps. -/
def waiting : State :=
  { start with
    secondaryQ := { waitList := [1], qm := start.secondaryQ.qm }
    blocked := Function.update (fun _ => false) 1 true
    reader := some ⟨1, 1024, []⟩ }

theorem waiting_reached : Reaches Step anyInput start waiting := by
  have hcall : Step start (.call 1 1024) { start with reader := some ⟨1, 1024, []⟩ } :=
    ⟨⟨rfl, rfl⟩, rfl⟩
  have hread : Step { start with reader := some ⟨1, 1024, []⟩ } (.read 1) waiting :=
    ⟨⟨rfl, rfl, rfl⟩, rfl⟩
  exact (Reaches.refl.snoc trivial hcall).snoc trivial hread

instance (s : State) (keys : List Key) : Decidable (LeavesEnd s keys) :=
  inferInstanceAs (Decidable (∃ m ∈ left s.unread keys, _))

/-- A line on its own. -/
theorem completed_lines_wake_line : ∃ rx rx' s',
    Holds rx [97, RETURN] ∧ copyToCooked rx none waiting = some (rx', s') ∧
      ((∀ p ∈ waiting.secondaryQ.waitList, s'.blocked p = false) ↔
        EndsLine [97, RETURN] ∨ waiting.secondaryQ.waitList = []) := by
  obtain ⟨-, rx, -, -, hrx, -⟩ :=
    holds_init_pushAll (fun _ => (0 : Key)) (by decide : (0 : Int) < 1024)
      (by decide : (([97, RETURN] : List Key).length : Int) ≤ 1024)
  have he : Enabled waiting (.interrupt none) := ⟨rfl, fun _ hp => (nomatch hp)⟩
  obtain ⟨rx', s', hcall⟩ :=
    completed_lines_wake (reaches_sound waiting_reached) he hrx (by decide)
  exact ⟨rx, rx', s', hrx, hcall⟩

/-- A line and the first character of the next: the line is there, and the reader sleeps on. -/
theorem reader_sleeps_on : ∃ s rx rx' s',
    Reaches Step anyInput start s ∧ Enabled s (.interrupt none) ∧ Holds rx [97, NEWLINE, 98] ∧
      LeavesEnd s [97, NEWLINE, 98] ∧ copyToCooked rx none s = some (rx', s') ∧
      s'.unread = [97, NEWLINE, 98] ∧ 1 ∈ s.secondaryQ.waitList ∧ s'.blocked 1 = true := by
  obtain ⟨-, rx, -, -, hrx, -⟩ :=
    holds_init_pushAll (fun _ => (0 : Key)) (by decide : (0 : Int) < 1024)
      (by decide : (([97, NEWLINE, 98] : List Key).length : Int) ≤ 1024)
  have he : Enabled waiting (.interrupt none) := ⟨rfl, fun _ hp => (nomatch hp)⟩
  obtain ⟨rx', s', hrun, -, hholds, -, hsleep⟩ :=
    copyToCooked_spec (reaches_sound waiting_reached) he hrx
  have hends : ¬ EndsLine [97, NEWLINE, 98] := by
    rw [endsLine_iff]
    decide
  refine ⟨waiting, rx, rx', s', waiting_reached, he, hrx, by decide, hrun, ?_,
    List.mem_singleton_self 1, ?_⟩
  · exact hholds.contents_eq
  · rw [(hsleep hends).2]
    rfl

end Uniks.Tty
