/-
  The terminal: `copy_to_cooked` and `tty_read` of `kernel/device/tty.c`.

  Interrupts put what is typed into the secondary queue; BACKSPACE takes the last character out of
  it again.  The reader takes characters out of the queue up to the end of a line, and blocks when it
  is empty.  Both hold the lock of the queue: a step of the reader is what it does from where it has
  the lock to where it blocks or returns; a batch of the handler is a sequence of steps, one for each
  key and one for its end, and the reader makes no step in between.

  `file_read` holds the lock of the terminal's inode, so there is one reader at a time.  Its buffer
  has been checked by `verify_area`.  `typed` and `delivered` are not in the source: the keys so far,
  and what the calls of `tty_read` that have returned have copied out.

  A reader that has come early holds the beginning of a line in its own buffer, out of reach of
  BACKSPACE; one that comes late finds a finished line at the back of the queue, which BACKSPACE then
  takes apart.  `Calm` excludes both, and keys behind the end of a line while the reader sleeps.
-/
import Uniks.Lib.Runs
import Uniks.WaitList
import Uniks.Queue
import Mathlib.Data.FinEnum

namespace Uniks.Tty

open Uniks.Runs Uniks.WaitList Uniks.Queue

abbrev Pid := Nat
/-- The C type `char`. -/
abbrev Key := UInt8

abbrev EOT : Key := 4
abbrev TAB : Key := 9
abbrev NEWLINE : Key := 10
abbrev RETURN : Key := 13
abbrev SPACE : Key := 32
abbrev BACKSPACE : Key := 0x7f
abbrev TTY_BUF_SIZE : Int := 1024
abbrev LINE_MAXN : Nat := 1024

/-- The C type `struct tty_queue_t`, without its lock. -/
structure TtyQueue where
  waitList : List Pid
  qm : QueueMeta Key

/-- A call of `tty_read`: what it has taken so far is `buffer`. -/
structure Reader where
  pid : Pid
  cnt : Nat
  buffer : List Key
  deriving DecidableEq, Repr

/-- The interrupt handler: the process it runs on top of, if any, and its local variable `ch`. -/
structure Handler where
  me : Option Pid
  ch : Key
  deriving DecidableEq, Repr

structure State where
  secondaryQ : TtyQueue
  blocked : Pid → Bool
  killed : Pid → Bool
  reader : Option Reader
  handler : Option Handler
  /-- What has been written to the uart. -/
  echo : List Key
  typed : List Key
  delivered : List (List Key)

/-- The end of a line. -/
def isEnd (ch : Key) : Bool := ch == NEWLINE || ch == EOT

/-! ## The code -/

/-- `if (ch == '\\r') ch = '\\n'`. -/
def cook (ch : Key) : Key := if ch = RETURN then NEWLINE else ch

/-- What is echoed. -/
def echoOf (q : QueueMeta Key) (ch : Key) : List Key :=
  if ch = BACKSPACE then
    if queueEmpty q then [] else [8, SPACE, 8]
  else if ch ≠ EOT then [ch] else []

/-- What a key does to the queue; `none` is the failed assertion. -/
def keyQueue (q : QueueMeta Key) (ch : Key) : Option (QueueMeta Key) :=
  if ch = BACKSPACE then
    if queueEmpty q then some q else queueBackPop q
  else do
    let q ← if queueFull q then queueFrontPop q else some q
    if queueFull q then none else queuePush q ch

/-- A turn of the loop of `copy_to_cooked`. -/
def copyTurn (s : State) (h : Handler) (key : Key) : Option State :=
  let s := { s with typed := s.typed ++ [key] }
  if key = TAB then some { s with handler := some { h with ch := key } }
  else do
    let ch := cook key
    let qm ← keyQueue s.secondaryQ.qm ch
    return { s with
      handler := some { h with ch := ch }
      echo := s.echo ++ echoOf s.secondaryQ.qm ch
      secondaryQ := { s.secondaryQ with qm := qm } }

/-- The end of `copy_to_cooked`. -/
def copyEnd (s : State) (h : Handler) : Option State :=
  if isEnd h.ch then do
    let blocked ← procUnblockAll h.me s.secondaryQ.waitList s.blocked
    return { s with
      handler := none, blocked := blocked, secondaryQ := { s.secondaryQ with waitList := [] } }
  else some { s with handler := none }

/-- How the loop of `tty_read` ends. -/
inductive ReadEnd where
  | done
  /-- The queue is empty. -/
  | empty
  deriving DecidableEq, Repr

/-- The loop of `tty_read`, with the room that is left in the buffer. -/
def readLoop : Nat → QueueMeta Key → List Key → Option (QueueMeta Key × List Key × ReadEnd)
  | 0, q, buffer => some (q, buffer, .done)
  | left + 1, q, buffer =>
    if queueEmpty q then some (q, buffer, .empty)
    else do
      let ch := queueFront q
      let q ← queueFrontPop q
      if ch = EOT then some (q, buffer, .done)
      else if ch = NEWLINE then some (q, buffer ++ [ch], .done)
      else readLoop left q (buffer ++ [ch])

/-- The source's `tty_read`, from where it has the lock to where it blocks or returns. -/
def ttyRead (s : State) (r : Reader) : Option State := do
  let (qm, buffer, e) ← readLoop (r.cnt - r.buffer.length) s.secondaryQ.qm r.buffer
  let s := { s with secondaryQ := { s.secondaryQ with qm := qm } }
  match e with
  | .done => return { s with reader := none, delivered := s.delivered ++ [buffer] }
  | .empty =>
    if s.killed r.pid then return { s with reader := none }
    else
      let (blocked, waitList) ← procBlock s.blocked s.secondaryQ.waitList r.pid
      return { s with
        blocked := blocked
        secondaryQ := { s.secondaryQ with waitList := waitList }
        reader := some { r with buffer := buffer } }

/-! ## Steps -/

inductive Input where
  | interrupt (me : Option Pid)
  | key (ch : Key)
  | interruptEnd
  | call (p : Pid) (cnt : Nat)
  | read (p : Pid)
  deriving DecidableEq, Repr

def Enabled (s : State) : Input → Prop
  | .interrupt me => s.handler = none ∧ ∀ p, me = some p → s.blocked p = false
  | .key _ => s.handler ≠ none
  | .interruptEnd => s.handler ≠ none
  | .call p _ => s.reader = none ∧ s.blocked p = false
  | .read p => s.handler = none ∧ s.reader.map Reader.pid = some p ∧ s.blocked p = false

/-- What happens; `none` is a failed assertion. -/
def next (s : State) : Input → Option State
  | .interrupt me => some { s with handler := some ⟨me, 0⟩ }
  | .key ch => s.handler.bind fun h => copyTurn s h ch
  | .interruptEnd => s.handler.bind fun h => copyEnd s h
  | .call p cnt => if cnt ≤ LINE_MAXN then some { s with reader := some ⟨p, cnt, []⟩ } else none
  | .read _ => s.reader.bind fun r => ttyRead s r

def Step (s : State) (i : Input) (s' : State) : Prop := Enabled s i ∧ next s i = some s'

/-- After `tty_init`; nobody who uses the terminal is killed. -/
def start : State where
  secondaryQ := { waitList := [], qm := ⟨0, TTY_BUF_SIZE, 0, -1, fun _ => 0⟩ }
  blocked := fun _ => false
  killed := fun _ => false
  reader := none
  handler := none
  echo := []
  typed := []
  delivered := []

/-! ## Canonical editing -/

/-- The finished lines, as they are to be delivered, and the line that is being typed. -/
structure Lines where
  finished : List (List Key)
  current : List Key
  deriving DecidableEq, Repr

/-- A character that is not edited any more. -/
def Lines.put (l : Lines) (ch : Key) : Lines :=
  if ch = EOT then ⟨l.finished ++ [l.current], []⟩
  else if ch = NEWLINE then ⟨l.finished ++ [l.current ++ [ch]], []⟩
  else ⟨l.finished, l.current ++ [ch]⟩

/-- Tabs are dropped, `'\r'` is `'\n'`, and BACKSPACE erases the last character of the current line,
    if there is one. -/
def Lines.key (l : Lines) (ch : Key) : Lines :=
  if ch = TAB then l
  else if cook ch = BACKSPACE then ⟨l.finished, l.current.dropLast⟩
  else l.put (cook ch)

def canonical (typed : List Key) : Lines := typed.foldl Lines.key ⟨[], []⟩

variable {s s' : State} {l : Lines} {ch : Key} {xs ys : List Key}

theorem canonical_snoc (typed : List Key) (ch : Key) :
    canonical (typed ++ [ch]) = (canonical typed).key ch := by
  rw [canonical, List.foldl_append]
  rfl

theorem put_plain (l : Lines) (h : isEnd ch = false) :
    l.put ch = ⟨l.finished, l.current ++ [ch]⟩ := by
  rw [isEnd, Bool.or_eq_false_iff, beq_eq_false_iff_ne, beq_eq_false_iff_ne] at h
  rw [Lines.put, if_neg h.2, if_neg h.1]

theorem puts_plain (l : Lines) (h : ∀ ch ∈ xs, isEnd ch = false) :
    xs.foldl Lines.put l = ⟨l.finished, l.current ++ xs⟩ := by
  induction xs generalizing l with
  | nil => rw [List.foldl_nil, List.append_nil]
  | cons ch xs ih =>
    rw [List.foldl_cons, put_plain l (h ch List.mem_cons_self),
      ih _ fun c hc => h c (List.mem_cons_of_mem ch hc), List.append_assoc]
    rfl

theorem put_finished (l : Lines) (ch : Key) : l.finished <+: (l.put ch).finished := by
  unfold Lines.put
  split
  · exact List.prefix_append _ _
  · split
    · exact List.prefix_append _ _
    · exact List.prefix_refl _

/-- A finished line stays. -/
theorem puts_finished (l : Lines) (xs : List Key) :
    l.finished <+: (xs.foldl Lines.put l).finished := by
  induction xs generalizing l with
  | nil => exact List.prefix_refl _
  | cons ch xs ih => exact (put_finished l ch).trans (ih (l.put ch))

/-! ## The condition and the invariant -/

/-- What the reader has taken of the current line. -/
def State.held (s : State) : List Key := (s.reader.map Reader.buffer).getD []

/-- What is in the queue. -/
def State.unread (s : State) : List Key := contents s.secondaryQ.qm

/-- The character at the back of the queue is one of the current line; or there is none, neither in
    the queue nor with the reader. -/
def Erasable (s : State) : Prop :=
  match s.unread.getLast? with
  | some ch => isEnd ch = false
  | none => s.held = []

/-- Before the end of the line the buffer of the reader is not full. -/
def Fits (s : State) (r : Reader) : Prop :=
  ((r.buffer ++ s.unread).takeWhile fun ch => !isEnd ch).length < r.cnt

/-- The steps that timing does no harm to: there is room in the queue, BACKSPACE finds what it is to
    erase, a batch with the end of a line also ends with one if the reader sleeps, and a call has room
    for its line. -/
def Calm (s : State) : Input → Prop
  | .key ch => if ch = TAB then True else if ch = BACKSPACE then Erasable s
      else s.unread.length + 1 < 1024
  | .interruptEnd => (∀ h, s.handler = some h → isEnd h.ch = true) ∨
      s.secondaryQ.waitList = [] ∨ ∀ ch ∈ s.unread, isEnd ch = false
  | .call _ cnt => cnt ≤ LINE_MAXN
  | .read _ => ∀ r, s.reader = some r → Fits s r
  | _ => True

/-- What the reader and the queue hold are the lines that have not been delivered yet. -/
structure Inv (s : State) : Prop where
  holds : Holds s.secondaryQ.qm s.unread
  capacity : s.secondaryQ.qm.queueCapacity = TTY_BUF_SIZE
  room : s.unread.length < 1024
  lines : (s.held ++ s.unread).foldl Lines.put ⟨s.delivered, []⟩ = canonical s.typed
  held : ∀ ch ∈ s.held, isEnd ch = false
  queued : Queued s.blocked s.secondaryQ.waitList
  sleeper : ∀ p, s.blocked p = true →
    p ∈ s.secondaryQ.waitList ∧ s.reader.map Reader.pid = some p
  asleep : s.handler = none → s.secondaryQ.waitList ≠ [] → ∀ ch ∈ s.unread, isEnd ch = false
  awake : ∀ h p, s.handler = some h → h.me = some p → s.blocked p = false
  alive : ∀ p, s.killed p = false

theorem start_inv : Inv start where
  holds := by
    have hinit : queueInit TTY_BUF_SIZE (fun _ => (0 : Key)) = some start.secondaryQ.qm := rfl
    exact (holds_queueInit hinit).self
  capacity := rfl
  room := by decide
  lines := rfl
  held _ h := nomatch h
  queued := .nil _
  sleeper _ h := nomatch h
  asleep _ h := absurd rfl h
  awake _ _ h := nomatch h
  alive _ := rfl

/-! ## The handler -/

theorem Inv.interrupt (h : Inv s) {me : Option Pid} (hme : ∀ p, me = some p → s.blocked p = false) :
    Inv { s with handler := some ⟨me, 0⟩ } where
  holds := h.holds
  capacity := h.capacity
  room := h.room
  lines := h.lines
  held := h.held
  queued := h.queued
  sleeper := h.sleeper
  asleep h := nomatch h
  awake _ p hh hp := hme p (by rw [← Option.some.inj hh] at hp; exact hp)
  alive := h.alive

/-- The state after a key: the queue and the last character. -/
def State.keyed (s : State) (h : Handler) (key ch : Key) (qm : QueueMeta Key) (out : List Key) :
    State :=
  { s with
    handler := some { h with ch := ch }
    typed := s.typed ++ [key]
    echo := s.echo ++ out
    secondaryQ := { s.secondaryQ with qm := qm } }

theorem Inv.keyed (h : Inv s) {hd : Handler} {qm : QueueMeta Key} (hhd : s.handler = some hd)
    (hholds : Holds qm xs) (hcap : qm.queueCapacity = TTY_BUF_SIZE) (hroom : xs.length < 1024)
    (key ch : Key) (hlines : (s.held ++ xs).foldl Lines.put ⟨s.delivered, []⟩
      = (canonical s.typed).key key) (out : List Key) : Inv (s.keyed hd key ch qm out) := by
  have hunread : (s.keyed hd key ch qm out).unread = xs := hholds.contents_eq
  refine ⟨hholds.self, hcap, hunread ▸ hroom, ?_, h.held, h.queued, h.sleeper,
    fun hh => (nomatch hh), fun h' p hh hp => ?_, h.alive⟩
  · rw [hunread]
    exact hlines.trans (canonical_snoc s.typed key).symm
  · rw [← Option.some.inj hh] at hp
    exact h.awake hd p hhd hp

theorem cook_eq_backspace : cook ch = BACKSPACE ↔ ch = BACKSPACE := by
  unfold cook
  split
  next h =>
    subst h
    decide
  next => rfl

theorem Inv.not_full (h : Inv s) : queueFull s.secondaryQ.qm = false := by
  have hsize := h.holds.size
  have hroom := h.room
  have hcap := h.capacity
  rw [queueFull, beq_eq_false_iff_ne, hsize, hcap]
  show ((s.unread.length : Int)) ≠ 1024
  omega

/-- A key under the condition does to the queue what it does to the current line. -/
theorem Inv.key (h : Inv s) {hd : Handler} (hhd : s.handler = some hd) (hcalm : Calm s (.key ch)) :
    ∃ s', copyTurn s hd ch = some s' ∧ Inv s' := by
  have hcalm : if ch = TAB then True else if ch = BACKSPACE then Erasable s
      else s.unread.length + 1 < 1024 := hcalm
  unfold copyTurn
  dsimp only
  by_cases htab : ch = TAB
  · rw [if_pos htab]
    refine ⟨_, rfl, ?_⟩
    have hlines : (s.held ++ s.unread).foldl Lines.put ⟨s.delivered, []⟩
        = (canonical s.typed).key ch := by
      rw [Lines.key, if_pos htab]
      exact h.lines
    have hkeyed := h.keyed hhd h.holds h.capacity h.room ch ch hlines []
    unfold State.keyed at hkeyed
    rw [List.append_nil] at hkeyed
    exact hkeyed
  · rw [if_neg htab] at hcalm ⊢
    by_cases hback : ch = BACKSPACE
    · rw [if_pos hback] at hcalm
      have hkey : (canonical s.typed).key ch
          = ⟨(canonical s.typed).finished, (canonical s.typed).current.dropLast⟩ := by
        rw [Lines.key, if_neg htab, if_pos (cook_eq_backspace.mpr hback)]
      rcases List.eq_nil_or_concat s.unread with hnil | ⟨ys, c, hlast⟩
      · -- nothing is left of the current line
        unfold Erasable at hcalm
        rw [hnil] at hcalm
        have hheld : s.held = [] := hcalm
        have hempty := (h.holds.queueEmpty_iff).mpr hnil
        have hqueue : keyQueue s.secondaryQ.qm (cook ch) = some s.secondaryQ.qm := by
          rw [keyQueue, if_pos (cook_eq_backspace.mpr hback), if_pos hempty]
        rw [hqueue]
        refine ⟨_, rfl, h.keyed hhd h.holds h.capacity h.room ch _ ?_ _⟩
        have hlines := h.lines
        rw [hkey, ← hlines, hheld, hnil]
        rfl
      · rw [List.concat_eq_append] at hlast
        unfold Erasable at hcalm
        rw [hlast, List.getLast?_append] at hcalm
        have hplain : isEnd c = false := hcalm
        have hholds := h.holds
        rw [hlast] at hholds
        obtain ⟨qm, hpop, hrest, hcap⟩ := hholds.backPop
        have hempty : ¬ queueEmpty s.secondaryQ.qm = true := by
          rw [hholds.queueEmpty_iff]
          exact List.append_ne_nil_of_right_ne_nil ys (List.cons_ne_nil c [])
        have hqueue : keyQueue s.secondaryQ.qm (cook ch) = some qm := by
          rw [keyQueue, if_pos (cook_eq_backspace.mpr hback), if_neg hempty, hpop]
        have hroom := h.room
        rw [hlast, List.length_append, List.length_singleton] at hroom
        rw [hqueue]
        refine ⟨_, rfl, h.keyed hhd hrest (hcap.trans h.capacity) (by omega) ch _ ?_ _⟩
        have hlines := h.lines
        rw [hlast, ← List.append_assoc, List.foldl_append, List.foldl_cons, List.foldl_nil,
          put_plain _ hplain] at hlines
        rw [hkey, ← hlines, List.dropLast_concat]
    · rw [if_neg hback] at hcalm
      have hnot : ¬ cook ch = BACKSPACE := fun heq => hback (cook_eq_backspace.mp heq)
      have hfull : ¬ queueFull s.secondaryQ.qm = true := by
        rw [h.not_full]
        exact Bool.false_ne_true
      have hcap := h.capacity
      obtain ⟨qm, hpush⟩ := h.holds.push_isSome (cook ch) (by
        rw [hcap]
        have hroom := h.room
        show ((s.unread.length : Int)) < 1024
        omega)
      obtain ⟨hholds, hcap'⟩ := h.holds.push hpush
      have hqueue : keyQueue s.secondaryQ.qm (cook ch) = some qm := by
        rw [keyQueue, if_neg hnot, if_neg hfull, Option.bind_eq_bind, Option.bind_some]
        dsimp only
        rw [if_neg hfull, hpush]
      rw [hqueue]
      refine ⟨_, rfl, h.keyed hhd hholds (hcap'.trans hcap) ?_ ch _ ?_ _⟩
      · rw [List.length_append, List.length_singleton]
        exact hcalm
      · rw [Lines.key, if_neg htab, if_neg hnot, ← List.append_assoc, List.foldl_append, h.lines]
        rfl

theorem Inv.interruptEnd (h : Inv s) {hd : Handler} (hhd : s.handler = some hd)
    (hcalm : Calm s .interruptEnd) : ∃ s', copyEnd s hd = some s' ∧ Inv s' := by
  unfold copyEnd
  by_cases hend : isEnd hd.ch = true
  · have hblocked := h.queued.unblockAll fun p hp => h.awake hd p hhd hp
    rw [if_pos hend, hblocked]
    refine ⟨_, rfl, h.holds, h.capacity, h.room, h.lines, h.held, .nil _, fun p hp => ?_,
      fun _ hne => absurd rfl hne, fun _ _ hh => (nomatch hh), h.alive⟩
    -- the only one who can sleep is on the list
    have hp : awaken s.secondaryQ.waitList s.blocked p = true := hp
    by_cases hmem : p ∈ s.secondaryQ.waitList
    · rw [awaken_mem hmem] at hp
      cases hp
    · rw [awaken_not_mem hmem] at hp
      exact absurd (h.sleeper p hp).1 hmem
  · rw [if_neg hend]
    refine ⟨_, rfl, h.holds, h.capacity, h.room, h.lines, h.held, h.queued, h.sleeper,
      fun _ hne => ?_, fun _ _ hh => (nomatch hh), h.alive⟩
    rcases hcalm with hlast | hnil | hplain
    · exact absurd (hlast hd hhd) hend
    · exact absurd hnil hne
    · exact hplain

/-! ## The reader -/

theorem Inv.call (h : Inv s) {p : Pid} {cnt : Nat} (hfree : s.reader = none) :
    Inv { s with reader := some ⟨p, cnt, []⟩ } := by
  have hheld : s.held = [] := by rw [State.held, hfree]; rfl
  have hnone : ∀ q, ¬ s.blocked q = true := by
    intro q hq
    have hreader := (h.sleeper q hq).2
    rw [hfree] at hreader
    cases hreader
  refine ⟨h.holds, h.capacity, h.room, ?_, fun _ hc => (nomatch hc), h.queued,
    fun q hq => absurd hq (hnone q), h.asleep, h.awake, h.alive⟩
  have hlines := h.lines
  rw [hheld] at hlines
  exact hlines

/-- The loop of `tty_read` takes the rest of the line, or all there is. -/
theorem readLoop_spec {left : Nat} {q : QueueMeta Key} (h : Holds q xs) (buffer : List Key)
    (hfits : (xs.takeWhile fun ch => !isEnd ch).length < left) :
    (∃ line e ys q', xs = line ++ e :: ys ∧ (∀ ch ∈ line, isEnd ch = false) ∧ isEnd e = true ∧
      readLoop left q buffer
        = some (q', buffer ++ line ++ (if e = NEWLINE then [e] else []), .done) ∧
      Holds q' ys ∧ q'.queueCapacity = q.queueCapacity) ∨
    (∀ ch ∈ xs, isEnd ch = false) ∧ ∃ q', readLoop left q buffer = some (q', buffer ++ xs, .empty) ∧
      Holds q' [] ∧ q'.queueCapacity = q.queueCapacity := by
  induction xs generalizing left q buffer with
  | nil =>
    obtain ⟨left, rfl⟩ := Nat.exists_eq_add_one_of_ne_zero (Nat.ne_of_gt hfits)
    have hempty := (h.queueEmpty_iff).mpr rfl
    refine .inr ⟨fun _ hc => (nomatch hc), q, ?_, h, rfl⟩
    rw [readLoop, if_pos hempty, List.append_nil]
  | cons ch xs ih =>
    obtain ⟨left, rfl⟩ := Nat.exists_eq_add_one_of_ne_zero (Nat.ne_zero_of_lt hfits)
    have hempty : ¬ queueEmpty q = true := by
      rw [h.queueEmpty_iff]
      exact List.cons_ne_nil ch xs
    obtain ⟨q₁, hpop⟩ := h.frontPop_isSome
    obtain ⟨hrest, hcap⟩ := h.frontPop hpop
    rw [readLoop, if_neg hempty, h.front, hpop]
    dsimp only [Option.bind_eq_bind, Option.bind_some]
    by_cases heot : ch = EOT
    · subst heot
      refine .inl ⟨[], EOT, xs, q₁, rfl, fun _ hc => (nomatch hc), rfl, ?_, hrest, hcap⟩
      rw [if_pos rfl, List.append_nil, if_neg (by decide), List.append_nil]
    · rw [if_neg heot]
      by_cases hnew : ch = NEWLINE
      · subst hnew
        refine .inl ⟨[], NEWLINE, xs, q₁, rfl, fun _ hc => (nomatch hc), rfl, ?_, hrest, hcap⟩
        rw [if_pos rfl, List.append_nil, if_pos rfl]
      · rw [if_neg hnew]
        have hplain : isEnd ch = false := by
          rw [isEnd, Bool.or_eq_false_iff, beq_eq_false_iff_ne, beq_eq_false_iff_ne]
          exact ⟨hnew, heot⟩
        rw [List.takeWhile_cons, hplain] at hfits
        rcases ih hrest (buffer ++ [ch]) (Nat.lt_of_succ_lt_succ hfits) with
          ⟨line, e, ys, q', rfl, hline, hend, hrun, hq', hcap'⟩ | ⟨hall, q', hrun, hq', hcap'⟩
        · refine .inl ⟨ch :: line, e, ys, q', rfl, ?_, hend, ?_, hq', hcap'.trans hcap⟩
          · rintro c hc
            rcases List.mem_cons.mp hc with rfl | hc
            · exact hplain
            · exact hline c hc
          · rw [hrun, List.append_assoc buffer]
            rfl
        · refine .inr ⟨?_, q', ?_, hq', hcap'.trans hcap⟩
          · rintro c hc
            rcases List.mem_cons.mp hc with rfl | hc
            · exact hplain
            · exact hall c hc
          · rw [hrun, List.append_assoc buffer]
            rfl

/-- A line that is delivered. -/
theorem put_end (d : List (List Key)) (line : List Key) {e : Key} (h : isEnd e = true) :
    Lines.put ⟨d, line⟩ e = ⟨d ++ [line ++ (if e = NEWLINE then [e] else [])], []⟩ := by
  rw [isEnd, Bool.or_eq_true, beq_iff_eq, beq_iff_eq] at h
  unfold Lines.put
  by_cases hnew : e = NEWLINE
  · have hnot : ¬ e = EOT := by
      rw [hnew]
      decide
    rw [if_neg hnot, if_pos hnew, if_pos hnew]
  · rw [if_pos (h.resolve_left hnew), if_neg hnew, List.append_nil]

theorem Inv.read (h : Inv s) {r : Reader} (hr : s.reader = some r) (hawake : s.blocked r.pid = false)
    (hlock : s.handler = none) (hfits : Fits s r) : ∃ s', ttyRead s r = some s' ∧ Inv s' := by
  have hheld : s.held = r.buffer := by rw [State.held, hr]; rfl
  have hplain := h.held
  rw [hheld] at hplain
  -- the reader is the only one who could sleep
  have hnone : ∀ q, ¬ s.blocked q = true := by
    intro q hq
    have hreader := (h.sleeper q hq).2
    rw [hr] at hreader
    rw [← Option.some.inj hreader, hawake] at hq
    cases hq
  have hlist : s.secondaryQ.waitList = [] := by
    rw [List.eq_nil_iff_forall_not_mem]
    exact fun q hq => hnone q (h.queued.asleep q hq)
  have hlines := h.lines
  rw [hheld] at hlines
  unfold Fits at hfits
  have hall : ∀ ch ∈ r.buffer, (!isEnd ch) = true := fun ch hc => by rw [hplain ch hc]; rfl
  rw [List.takeWhile_append_of_pos hall, List.length_append] at hfits
  have hleft : (s.unread.takeWhile fun ch => !isEnd ch).length < r.cnt - r.buffer.length := by omega
  unfold ttyRead
  rcases readLoop_spec h.holds r.buffer hleft with
    ⟨line, e, ys, q', hxs, hline, hend, hrun, hq', hcap⟩ | ⟨hrest, q', hrun, hq', hcap⟩
  · rw [hrun]
    refine ⟨_, rfl, ?_⟩
    have hroom := h.room
    rw [hxs, List.length_append, List.length_cons] at hroom
    refine ⟨hq'.self, hcap.trans h.capacity, ?_, ?_, fun _ hc => (nomatch hc), h.queued,
      fun q hq => absurd hq (hnone q), fun _ hne => absurd hlist hne, h.awake, h.alive⟩
    · show (contents q').length < 1024
      rw [hq'.contents_eq]
      omega
    · show (contents q').foldl Lines.put _ = _
      rw [hq'.contents_eq, ← put_end _ _ hend]
      have hbefore : ∀ ch ∈ r.buffer ++ line, isEnd ch = false := by
        intro ch hc
        rcases List.mem_append.mp hc with hc | hc
        · exact hplain ch hc
        · exact hline ch hc
      rw [hxs, ← List.append_assoc, List.foldl_append, puts_plain _ hbefore, List.foldl_cons] at hlines
      exact hlines
  · have halive : ¬ s.killed r.pid = true := by
      rw [h.alive]
      exact Bool.false_ne_true
    rw [hrun]
    dsimp only [Option.bind_eq_bind, Option.bind_some]
    rw [if_neg halive, procBlock_of_awake hawake]
    refine ⟨_, rfl, ?_⟩
    refine ⟨hq'.self, hcap.trans h.capacity, ?_, ?_, ?_, h.queued.block hawake, ?_, ?_, ?_,
      h.alive⟩
    · show (contents q').length < 1024
      rw [hq'.contents_eq]
      exact Nat.zero_lt_succ _
    · show (r.buffer ++ s.unread ++ contents q').foldl Lines.put _ = _
      rw [hq'.contents_eq, List.append_nil]
      exact hlines
    · intro ch hc
      rcases List.mem_append.mp hc with hc | hc
      · exact hplain ch hc
      · exact hrest ch hc
    · intro q hq
      have hq : Function.update s.blocked r.pid true q = true := hq
      by_cases hqr : q = r.pid
      · subst hqr
        exact ⟨List.mem_cons_self, rfl⟩
      · rw [Function.update_of_ne hqr] at hq
        exact absurd hq (hnone q)
    · intro _ _ ch hc
      have hc : ch ∈ contents q' := hc
      rw [hq'.contents_eq] at hc
      cases hc
    · intro hd p hh
      have hh : s.handler = some hd := hh
      rw [hlock] at hh
      cases hh

/-! ## Runs -/

/-- What the calls have delivered are the first of the lines, and while the reader sleeps there is
    none that it has not got. -/
structure Delivers (s : State) : Prop where
  lines : s.delivered <+: (canonical s.typed).finished
  all : ∀ r, s.reader = some r → s.blocked r.pid = true → s.handler = none →
    s.delivered = (canonical s.typed).finished

theorem Inv.delivers (h : Inv s) : Delivers s where
  lines := by
    have hprefix := puts_finished ⟨s.delivered, []⟩ (s.held ++ s.unread)
    rw [h.lines] at hprefix
    exact hprefix
  all r hr hsleep hlock := by
    have hne : s.secondaryQ.waitList ≠ [] := List.ne_nil_of_mem (h.sleeper r.pid hsleep).1
    have hplain : ∀ ch ∈ s.held ++ s.unread, isEnd ch = false := by
      intro ch hc
      rcases List.mem_append.mp hc with hc | hc
      · exact h.held ch hc
      · exact h.asleep hlock hne ch hc
    rw [← h.lines, puts_plain _ hplain]

theorem step_spec (h : Inv s) {i : Input} (hcalm : Calm s i) (he : Enabled s i) :
    ∃ s', next s i = some s' ∧ Inv s' := by
  cases i with
  | interrupt me => exact ⟨_, rfl, h.interrupt he.2⟩
  | key ch =>
    obtain ⟨hd, hhd⟩ := Option.ne_none_iff_exists'.mp he
    obtain ⟨s', hrun, hinv⟩ := h.key hhd hcalm
    exact ⟨s', by rw [next, hhd, Option.bind_some, hrun], hinv⟩
  | interruptEnd =>
    obtain ⟨hd, hhd⟩ := Option.ne_none_iff_exists'.mp he
    obtain ⟨s', hrun, hinv⟩ := h.interruptEnd hhd hcalm
    exact ⟨s', by rw [next, hhd, Option.bind_some, hrun], hinv⟩
  | call p cnt =>
    have hcnt : cnt ≤ LINE_MAXN := hcalm
    exact ⟨_, if_pos hcnt, h.call he.1⟩
  | read p =>
    obtain ⟨hlock, hmap, hawake⟩ := he
    obtain ⟨r, hr, rfl⟩ := Option.map_eq_some_iff.mp hmap
    obtain ⟨s', hrun, hinv⟩ := h.read hr hawake hlock (hcalm r hr)
    exact ⟨s', by rw [next, hr, Option.bind_some, hrun], hinv⟩

theorem reaches_inv (h : Reaches Step Calm start s) : Inv s := by
  refine h.invariant start_inv fun a i b ha hcalm hstep => ?_
  obtain ⟨he, hnext⟩ := hstep
  obtain ⟨b', hnext', hinv⟩ := step_spec ha hcalm he
  rw [hnext] at hnext'
  rw [Option.some.inj hnext']
  exact hinv

/-- In a run of such steps the lines are those of canonical editing, and no assertion fails. -/
theorem tty_lines (h : Reaches Step Calm start s) :
    Delivers s ∧ ∀ i, Calm s i → Enabled s i → ∃ s', next s i = some s' := by
  have hinv := reaches_inv h
  refine ⟨hinv.delivers, fun i hcalm he => ?_⟩
  obtain ⟨s', hnext, -⟩ := step_spec hinv hcalm he
  exact ⟨s', hnext⟩

instance (s : State) (i : Input) : Decidable (Enabled s i) := by
  cases i <;> unfold Enabled <;> infer_instance

instance (s : State) : Decidable (Erasable s) := by
  unfold Erasable
  split <;> infer_instance

instance (s : State) (r : Reader) : Decidable (Fits s r) := inferInstanceAs (Decidable (_ < _))

instance (s : State) (i : Input) : Decidable (Calm s i) := by
  cases i <;> unfold Calm <;> infer_instance

/-- A batch of keys. -/
def batch (keys : List Key) : List Input :=
  .interrupt none :: keys.map .key ++ [.interruptEnd]

/-- Typing `abBACKSPACE` before the reader comes, and the end of the line after it has. -/
theorem tty_lines_late : ∃ s : State, s.delivered = [[97, NEWLINE]] ∧ Delivers s ∧
    ∀ i, Calm s i → Enabled s i → ∃ s', next s i = some s' := by
  have hrun : Leads (guarded Calm (guarded Enabled next)) start (batch [97, 98] ++
      batch [BACKSPACE] ++ [.call 1 1024, .read 1] ++ batch [RETURN] ++ [.read 1])
      fun s => s.delivered = [[97, NEWLINE]] := by
    decide +kernel
  obtain ⟨s, hreach, hdel⟩ := hrun.reaches Step Calm
    fun s i s' h => (guarded_step s i s' h).imp_right (guarded_step s i s')
  exact ⟨s, hdel, tty_lines hreach⟩

/-- The state after a run, and what it has delivered. -/
theorem run_delivered (inputs : List Input) {d : List (List Key)} {typed : List Key}
    (h : Leads (guarded Enabled next) start inputs fun s => s.delivered = d ∧ s.typed = typed)
    (hnot : ¬ d <+: (canonical typed).finished) :
    ∃ s, Reaches Step anyInput start s ∧ s.typed = typed ∧ s.delivered = d ∧ ¬ Delivers s := by
  obtain ⟨s, hreach, hdel, htyped⟩ :=
    h.reaches Step anyInput fun s i s' h => ⟨trivial, guarded_step s i s' h⟩
  refine ⟨s, hreach, htyped, hdel, fun hd => hnot ?_⟩
  rw [← hdel, ← htyped]
  exact hd.lines

/-- The reader comes before the BACKSPACE, and the character is not erased; BACKSPACE comes before the
    reader, and the end of a finished line is erased; a key behind the end of a line, and the reader
    sleeps on. -/
theorem tty_timing :
    (∃ s, Reaches Step anyInput start s ∧ s.typed = [97, 98, BACKSPACE, NEWLINE] ∧
      s.delivered = [[97, 98, NEWLINE]] ∧ ¬ Delivers s) ∧
    (∃ s, Reaches Step anyInput start s ∧ s.typed = [97, NEWLINE, BACKSPACE, 98, NEWLINE] ∧
      s.delivered = [[97, 98, NEWLINE]] ∧ ¬ Delivers s) ∧
    ∃ s, Reaches Step anyInput start s ∧ s.typed = [97, NEWLINE, 98] ∧ s.delivered = [] ∧
      ¬ Delivers s := by
  refine ⟨?_, ?_, ?_⟩
  · exact run_delivered (batch [97, 98] ++ [.call 1 1024, .read 1] ++ batch [BACKSPACE] ++
      batch [NEWLINE] ++ [.read 1]) (by decide +kernel) (by decide)
  · exact run_delivered (batch [97, NEWLINE] ++ batch [BACKSPACE] ++ batch [98, NEWLINE] ++
      [.call 1 1024, .read 1]) (by decide +kernel) (by decide)
  · have hrun : Leads (guarded Enabled next) start
        ([.call 1 1024, .read 1] ++ batch [97, NEWLINE, 98]) fun s =>
        s.delivered = [] ∧ s.typed = [97, NEWLINE, 98] ∧ s.blocked 1 = true ∧ s.handler = none ∧
          s.reader.map Reader.pid = some 1 := by
      decide +kernel
    obtain ⟨s, hreach, hdel, htyped, hsleep, hlock, hreader⟩ :=
      hrun.reaches Step anyInput fun s i s' h => ⟨trivial, guarded_step s i s' h⟩
    refine ⟨s, hreach, htyped, hdel, fun hd => ?_⟩
    obtain ⟨r, hr, hpid⟩ := Option.map_eq_some_iff.mp hreader
    have hall := hd.all r hr (by rw [hpid]; exact hsleep) hlock
    rw [hdel, htyped] at hall
    exact absurd hall (by decide)

end Uniks.Tty
