/-
  `syncing` and `rw_operating`: the handshake of `blk_sync_all` with the data transfers.

  `readi`, `writei`, `blkdev_read` and `blkdev_write` begin with the same two atomic operations
  (`rwi_common`, `blkdev_rw_common1`): they load `syncing` and return `-EBUSY` unless it is 0, then
  they add 1 to `rw_operating`.  `blk_sync_all` adds 1 to `syncing` and spins until `rw_operating`
  is 0.  Each side writes its own counter and reads the other one, but a transfer reads FIRST: a
  sync that begins between the load and the addition still finds `rw_operating` at 0, goes past its
  wait loop, and the transfer begins all the same.  `rw_operating` can also run over: a transfer
  that returns on an error leaves without giving its 1 back.

  A step is one operation on one of the two counters, of any process.  If no sync leaves its wait
  loop while a transfer is between its load and its addition, and the addition does not run over,
  the two exclude each other in every state (`transfer_excluded`).  That is so when no sync begins
  there (`unovertaken_of_notBegun`).
-/
import Uniks.Lib.Runs
import Uniks.Lib.RefCount
import Uniks.Proc

namespace Uniks.Syncing

open Uniks.Runs Uniks.RefCount
open Uniks.Proc (NPROC Pid)
open Function (update update_self update_of_ne)
open Option (some)

/-- `atomic_uint_least32_t` counts modulo this. -/
def U32 : Nat := 2 ^ 32

/-- Where a process is in one of these calls.  `blk_sync_all(1)` keeps its 1 in `syncing`. -/
inductive Place where
  | idle
  /-- `syncing` was 0 when it looked. -/
  | checked
  /-- Between the increment and the decrement of `rw_operating`. -/
  | inside
  | waiting (stillBlock : Bool)
  /-- Past the wait loop, at the buffers. -/
  | past (stillBlock : Bool)
  /-- `blk_sync_all(1)` has returned to `sys_shutdown`. -/
  | halted
  deriving DecidableEq, Repr

structure State where
  syncing : Nat
  rwOperating : Nat
  place : Pid → Place

def State.goto (s : State) (p : Pid) (pl : Place) : State :=
  { s with place := update s.place p pl }

/-- `ATOMIC_VAR_INIT(0)`, twice. -/
def boot : State := ⟨0, 0, fun _ => .idle⟩

inductive Input where
  /-- A transfer begins: `atomic_load(&syncing) > 0`. -/
  | check (p : Pid)
  /-- `atomic_fetch_add(&rw_operating, 1)`. -/
  | enter (p : Pid)
  /-- A return from the middle of the call: a bad offset, or a block that cannot be read. -/
  | giveUp (p : Pid)
  /-- `atomic_fetch_sub(&rw_operating, 1)`. -/
  | leave (p : Pid)
  /-- `blk_sync_all` begins: `atomic_fetch_add(&syncing, 1)`. -/
  | sync (p : Pid) (stillBlock : Bool)
  /-- `atomic_load(&rw_operating) > 0`, once around the wait loop. -/
  | look (p : Pid)
  /-- The end of `blk_sync_all`. -/
  | finish (p : Pid)
  deriving Repr

/-- The process that does it is at the place where the operation stands, or nothing happens. -/
def next (s : State) : Input → Option State
  | .check p =>
    match s.place p with
    | .idle => if s.syncing > 0 then some s else some (s.goto p .checked)
    | _ => none
  | .enter p =>
    match s.place p with
    | .checked => some { s.goto p .inside with rwOperating := (s.rwOperating + 1) % U32 }
    | _ => none
  | .giveUp p =>
    match s.place p with
    | .inside => some (s.goto p .idle)
    | _ => none
  | .leave p =>
    match s.place p with
    | .inside => some { s.goto p .idle with rwOperating := (s.rwOperating + (U32 - 1)) % U32 }
    | _ => none
  | .sync p stillBlock =>
    match s.place p with
    | .idle => some { s.goto p (.waiting stillBlock) with syncing := (s.syncing + 1) % U32 }
    | _ => none
  | .look p =>
    match s.place p with
    | .waiting stillBlock =>
      if s.rwOperating > 0 then some s else some (s.goto p (.past stillBlock))
    | _ => none
  | .finish p =>
    match s.place p with
    | .past true => some (s.goto p .halted)
    | .past false => some { s.goto p .idle with syncing := (s.syncing + (U32 - 1)) % U32 }
    | _ => none

def Step (s : State) (i : Input) (s' : State) : Prop := next s i = some s'

/-! ## Who is between which two operations -/

/-- The two kinds of calls, while they own a 1 of their counter. -/
inductive Side where
  | transfer
  | sync
  deriving DecidableEq

def Place.side : Place → Option Side
  | .idle => none
  | .checked => none
  | .inside => some .transfer
  | .waiting _ => some .sync
  | .past _ => some .sync
  | .halted => some .sync

/-- Past the wait loop, the 1 of `syncing` not given back. -/
def Place.pastLoop : Place → Bool
  | .past _ => true
  | .halted => true
  | _ => false

/-- How many processes are on one side. -/
def count (place : Pid → Place) (k : Side) : Nat := refs (fun p => (place p).side) k

/-- No transfer is between its increment and its decrement while a sync is past its loop. -/
def Excluded (s : State) : Prop :=
  ∀ p q, s.place p = .inside → (s.place q).pastLoop = false

/-- Some transfer has found `syncing` at 0 and not yet added its 1. -/
def Checking (s : State) : Prop := ∃ p, s.place p = .checked

/-- No sync leaves its wait loop while a transfer is between its check and its addition, which does
    not run over. -/
def NotOvertaken (s : State) : Input → Prop
  | .look _ => s.rwOperating = 0 → ¬ Checking s
  | .enter _ => s.rwOperating + 1 < U32
  | _ => True

/-- No sync begins while a transfer is between its check and its addition. -/
def NotBegun (s : State) : Input → Prop
  | .sync _ _ => ¬ Checking s
  | .enter _ => s.rwOperating + 1 < U32
  | _ => True

variable {s s' : State} {p : Pid} {pl : Place}

@[simp] theorem goto_place (s : State) (p : Pid) (pl : Place) :
    (s.goto p pl).place = update s.place p pl := rfl

@[simp] theorem goto_syncing (s : State) (p : Pid) (pl : Place) :
    (s.goto p pl).syncing = s.syncing := rfl

@[simp] theorem goto_rwOperating (s : State) (p : Pid) (pl : Place) :
    (s.goto p pl).rwOperating = s.rwOperating := rfl

/-- One process goes to another place. -/
theorem count_update (place : Pid → Place) (p : Pid) (pl : Place) (k : Side) :
    count (update place p pl) k + (if (place p).side = some k then 1 else 0)
      = count place k + (if pl.side = some k then 1 else 0) := by
  have hrow : (fun q => (update place p pl q).side)
      = update (fun q => (place q).side) p pl.side := by
    funext q
    by_cases hq : q = p
    · subst hq
      rw [update_self, update_self]
    · rw [update_of_ne hq, update_of_ne hq]
  show refs (fun q => (update place p pl q).side) k + _ = _
  rw [hrow]
  exact refs_update _ p pl.side k

theorem count_le (place : Pid → Place) (k : Side) : count place k ≤ NPROC := by
  have hle := refs_le_card (fun p => (place p).side) k
  rw [Fintype.card_fin] at hle
  exact hle

theorem count_pos {place : Pid → Place} {k : Side} (h : (place p).side = some k) :
    0 < count place k :=
  refs_pos.mpr ⟨p, h⟩

/-- Every process on a side has a 1 in the counter of that side; in `rw_operating` more may have
    been left behind.  While a sync is past its loop there is no transfer, and none is on its way. -/
structure Inv (s : State) : Prop where
  syncing : s.syncing = count s.place .sync
  transfers : count s.place .transfer ≤ s.rwOperating
  bound : s.rwOperating < U32
  past : ∀ q, (s.place q).pastLoop = true → count s.place .transfer = 0 ∧ ¬ Checking s

theorem Inv.excluded (h : Inv s) : Excluded s := by
  intro p q hp
  rcases hq : (s.place q).pastLoop with _ | _
  · rfl
  · have hzero := (h.past q hq).1
    have hpos : 0 < count s.place .transfer := count_pos (p := p) (by rw [hp]; rfl)
    omega

/-- A process past the loop is on the side of the syncs. -/
theorem side_of_past (h : pl.pastLoop = true) : pl.side = some .sync := by
  cases pl with
  | past _ | halted => rfl
  | _ => cases h

theorem boot_inv : Inv boot := by
  have hnone : ∀ k, count boot.place k = 0 := fun k => refs_none k
  refine ⟨(hnone _).symm, ?_, ?_, fun _ hq => nomatch hq⟩
  · rw [hnone]
    exact Nat.zero_le _
  · show 0 < U32
    decide

/-! ## The steps -/

/-- Only `look` leads past the wait loop. -/
theorem past_update {place : Pid → Place} (hpl : pl.pastLoop = false) {q : Pid}
    (hq : (update place p pl q).pastLoop = true) : (place q).pastLoop = true := by
  by_cases hqp : q = p
  · subst hqp
    rw [update_self, hpl] at hq
    cases hq
  · rw [update_of_ne hqp] at hq
    exact hq

/-- Only `check` leads to where a transfer is about to add its 1. -/
theorem checking_update {place : Pid → Place} (hpl : pl ≠ .checked)
    (h : ∃ q, update place p pl q = .checked) : ∃ q, place q = .checked := by
  obtain ⟨q, hq⟩ := h
  by_cases hqp : q = p
  · rw [hqp, update_self] at hq
    exact absurd hq hpl
  · rw [update_of_ne hqp] at hq
    exact ⟨q, hq⟩

/-- A process goes to a place that is neither past the loop nor between check and addition. -/
theorem Inv.past_aside (h : Inv s) (hpl : pl ≠ .checked) (hpast : pl.pastLoop = false)
    (hcount : count (update s.place p pl) .transfer ≤ count s.place .transfer) (q : Pid)
    (hq : (update s.place p pl q).pastLoop = true) :
    count (update s.place p pl) .transfer = 0 ∧
      ¬ ∃ r, update s.place p pl r = .checked := by
  obtain ⟨hzero, hno⟩ := h.past q (past_update hpast hq)
  exact ⟨by omega, fun hsome => hno (checking_update hpl hsome)⟩

theorem Inv.check (h : Inv s) (hp : s.place p = .idle) (hzero : s.syncing = 0) :
    Inv (s.goto p .checked) := by
  have hs := count_update s.place p .checked .sync
  have ht := count_update s.place p .checked .transfer
  rw [hp] at hs ht
  simp only [Place.side, reduceCtorEq, if_false, add_zero] at hs ht
  refine ⟨h.syncing.trans hs.symm, ht.le.trans h.transfers, h.bound, fun q hq => ?_⟩
  -- the 1 of a sync past its loop would have been seen
  have hsync := count_pos (side_of_past (past_update (by exact rfl) hq))
  have hnone := h.syncing
  omega

theorem Inv.enter (h : Inv s) (hp : s.place p = .checked) (hroom : s.rwOperating + 1 < U32) :
    Inv { s.goto p .inside with rwOperating := (s.rwOperating + 1) % U32 } := by
  have hs := count_update s.place p .inside .sync
  have ht := count_update s.place p .inside .transfer
  rw [hp] at hs ht
  simp only [Place.side, reduceCtorEq, if_false, if_true, add_zero, Option.some.injEq] at hs ht
  have hle := h.transfers
  have hsum : (s.rwOperating + 1) % U32 = s.rwOperating + 1 := Nat.mod_eq_of_lt hroom
  refine ⟨h.syncing.trans hs.symm, ?_, ?_, ?_⟩
  · show count (update s.place p .inside) .transfer ≤ (s.rwOperating + 1) % U32
    omega
  · show (s.rwOperating + 1) % U32 < U32
    omega
  · intro q hq
    -- nobody is past the loop while this process is where it is
    exact absurd ⟨p, hp⟩ (h.past q (past_update (by exact rfl) hq)).2

theorem Inv.giveUp (h : Inv s) (hp : s.place p = .inside) : Inv (s.goto p .idle) := by
  have hs := count_update s.place p .idle .sync
  have ht := count_update s.place p .idle .transfer
  rw [hp] at hs ht
  simp only [Place.side, reduceCtorEq, if_false, if_true, add_zero, Option.some.injEq] at hs ht
  have hle := h.transfers
  refine ⟨h.syncing.trans hs.symm, ?_, h.bound, ?_⟩
  · show count (update s.place p .idle) .transfer ≤ s.rwOperating
    omega
  · exact h.past_aside (fun hc => nomatch hc) rfl (by omega)

theorem Inv.leave (h : Inv s) (hp : s.place p = .inside) :
    Inv { s.goto p .idle with rwOperating := (s.rwOperating + (U32 - 1)) % U32 } := by
  have hs := count_update s.place p .idle .sync
  have ht := count_update s.place p .idle .transfer
  rw [hp] at hs ht
  simp only [Place.side, reduceCtorEq, if_false, if_true, add_zero, Option.some.injEq] at hs ht
  have hle := h.transfers
  have hbound := h.bound
  -- the leaving process is one of those counted, so the subtraction does not run under 0
  have hsub : (s.rwOperating + (U32 - 1)) % U32 = s.rwOperating - 1 := by
    unfold U32 at hbound ⊢
    omega
  refine ⟨h.syncing.trans hs.symm, ?_, ?_, ?_⟩
  · show count (update s.place p .idle) .transfer ≤ (s.rwOperating + (U32 - 1)) % U32
    omega
  · show (s.rwOperating + (U32 - 1)) % U32 < U32
    omega
  · exact h.past_aside (fun hc => nomatch hc) rfl (by omega)

theorem Inv.sync (h : Inv s) (hp : s.place p = .idle) (stillBlock : Bool) :
    Inv { s.goto p (.waiting stillBlock) with syncing := (s.syncing + 1) % U32 } := by
  have hs := count_update s.place p (.waiting stillBlock) .sync
  have ht := count_update s.place p (.waiting stillBlock) .transfer
  rw [hp] at hs ht
  simp only [Place.side, reduceCtorEq, if_false, if_true, add_zero, Option.some.injEq] at hs ht
  have hle := count_le s.place .sync
  simp only [NPROC] at hle
  refine ⟨?_, ht.le.trans h.transfers, h.bound, ?_⟩
  · show (s.syncing + 1) % U32 = count (update s.place p (.waiting stillBlock)) .sync
    rw [hs, h.syncing]
    unfold U32
    omega
  · exact h.past_aside (fun hc => nomatch hc) rfl ht.le

theorem Inv.look (h : Inv s) {stillBlock : Bool} (hp : s.place p = .waiting stillBlock)
    (hzero : s.rwOperating = 0) (hno : ¬ Checking s) : Inv (s.goto p (.past stillBlock)) := by
  have hs := count_update s.place p (.past stillBlock) .sync
  have ht := count_update s.place p (.past stillBlock) .transfer
  rw [hp] at hs ht
  simp only [Place.side, reduceCtorEq, if_false, if_true, add_zero, Option.some.injEq] at hs ht
  have hle := h.transfers
  refine ⟨h.syncing.trans (Nat.add_right_cancel hs).symm, ht.le.trans hle, h.bound, fun q _ => ?_⟩
  have haway : Place.past stillBlock ≠ .checked := nofun
  refine ⟨?_, fun hsome => hno (checking_update haway hsome)⟩
  show count (update s.place p (.past stillBlock)) .transfer = 0
  omega

theorem Inv.finish (h : Inv s) (hp : s.place p = .past false) :
    Inv { s.goto p .idle with syncing := (s.syncing + (U32 - 1)) % U32 } := by
  have hs := count_update s.place p .idle .sync
  have ht := count_update s.place p .idle .transfer
  rw [hp] at hs ht
  simp only [Place.side, reduceCtorEq, if_false, if_true, add_zero, Option.some.injEq] at hs ht
  have hle := count_le s.place .sync
  simp only [NPROC] at hle
  refine ⟨?_, ht.le.trans h.transfers, h.bound, ?_⟩
  · show (s.syncing + (U32 - 1)) % U32 = count (update s.place p .idle) .sync
    rw [h.syncing]
    unfold U32
    omega
  · exact h.past_aside (fun hc => nomatch hc) rfl ht.le

theorem Inv.halt (h : Inv s) (hp : s.place p = .past true) : Inv (s.goto p .halted) := by
  have hs := count_update s.place p .halted .sync
  have ht := count_update s.place p .halted .transfer
  rw [hp] at hs ht
  simp only [Place.side, reduceCtorEq, if_false, if_true, add_zero, Option.some.injEq] at hs ht
  refine ⟨h.syncing.trans (Nat.add_right_cancel hs).symm, ht.le.trans h.transfers, h.bound,
    fun q _ => ?_⟩
  obtain ⟨hzero, hno⟩ := h.past p (by rw [hp]; rfl)
  have haway : Place.halted ≠ .checked := nofun
  exact ⟨ht.trans hzero, fun hsome => hno (checking_update haway hsome)⟩

/-- One operation on a counter keeps the invariant, if it does not let a sync overtake. -/
theorem Inv.step (h : Inv s) {i : Input} (hc : NotOvertaken s i) (hs : Step s i s') : Inv s' := by
  cases i with
  | check p =>
    simp only [Step, next] at hs
    split at hs
    case h_1 hp =>
      split at hs
      · cases hs
        exact h
      · rename_i hnot
        cases hs
        exact h.check hp (Nat.eq_zero_of_not_pos hnot)
    case h_2 => cases hs
  | enter p =>
    simp only [Step, next] at hs
    split at hs
    case h_1 hp =>
      cases hs
      exact h.enter hp hc
    case h_2 => cases hs
  | giveUp p =>
    simp only [Step, next] at hs
    split at hs
    case h_1 hp =>
      cases hs
      exact h.giveUp hp
    case h_2 => cases hs
  | leave p =>
    simp only [Step, next] at hs
    split at hs
    case h_1 hp =>
      cases hs
      exact h.leave hp
    case h_2 => cases hs
  | sync p stillBlock =>
    simp only [Step, next] at hs
    split at hs
    case h_1 hp =>
      cases hs
      exact h.sync hp stillBlock
    case h_2 => cases hs
  | look p =>
    simp only [Step, next] at hs
    split at hs
    case h_1 stillBlock hp =>
      split at hs
      · cases hs
        exact h
      · rename_i hnot
        cases hs
        have hzero := Nat.eq_zero_of_not_pos hnot
        exact h.look hp hzero (hc hzero)
    case h_2 => cases hs
  | finish p =>
    simp only [Step, next] at hs
    split at hs
    case h_1 hp =>
      cases hs
      exact h.halt hp
    case h_2 hp =>
      obtain rfl := some.inj hs
      exact h.finish hp
    case h_3 => cases hs

/-- In every run in which no sync leaves its wait loop while a transfer is between its check and
    its addition, a sync past its loop and a transfer exclude each other. -/
theorem transfer_excluded (h : Reaches Step NotOvertaken boot s) : Excluded s :=
  (h.invariant boot_inv fun _ _ _ hinv hc hs => hinv.step hc hs).excluded

/-! ## Syncs that do not begin in between -/

/-- While a transfer is between its check and its addition, nobody is in `blk_sync_all`. -/
def Apart (s : State) : Prop := Checking s → count s.place .sync = 0

/-- What `check` has found stays true as long as no sync begins. -/
theorem Apart.step (h : Apart s) (hinv : Inv s) {i : Input} (hc : NotBegun s i) (hs : Step s i s') :
    Apart s' := by
  -- nobody comes to the side of the syncs
  have hmove : ∀ {p : Pid} {pl : Place} {rw syncing : Nat}, pl ≠ .checked → pl.side ≠ some .sync →
      Apart ⟨syncing, rw, update s.place p pl⟩ := by
    intro p pl _ _ hpl hnew hsome
    have hs := count_update s.place p pl .sync
    rw [if_neg hnew, h (checking_update hpl hsome)] at hs
    show count (update s.place p pl) .sync = 0
    omega
  -- while somebody is there, nobody is in front of his addition
  have hsync : ∀ {p : Pid} {pl : Place} {rw syncing : Nat}, (s.place p).side = some .sync →
      pl ≠ .checked → Apart ⟨syncing, rw, update s.place p pl⟩ := by
    intro p pl _ _ hold hpl hsome
    have hpos := count_pos hold
    rw [h (checking_update hpl hsome)] at hpos
    exact absurd hpos (Nat.lt_irrefl 0)
  cases i with
  | check p =>
    simp only [Step, next] at hs
    split at hs
    case h_1 hp =>
      split at hs
      · cases hs
        exact h
      · rename_i hnot
        cases hs
        intro _
        have hcount := count_update s.place p .checked .sync
        rw [hp, if_neg (fun hc => nomatch hc), if_neg (fun hc => nomatch hc)] at hcount
        show count (update s.place p .checked) .sync = 0
        have hnone := hinv.syncing
        omega
    case h_2 => cases hs
  | enter p | giveUp p | leave p =>
    simp only [Step, next] at hs
    split at hs
    case h_1 hp =>
      cases hs
      exact hmove (fun hc => nomatch hc) (fun hc => nomatch hc)
    case h_2 => cases hs
  | sync p stillBlock =>
    simp only [Step, next] at hs
    split at hs
    case h_1 hp =>
      cases hs
      have haway : Place.waiting stillBlock ≠ .checked := nofun
      exact fun hsome => absurd (checking_update haway hsome) hc
    case h_2 => cases hs
  | look p =>
    simp only [Step, next] at hs
    split at hs
    case h_1 stillBlock hp =>
      split at hs
      · cases hs
        exact h
      · cases hs
        exact hsync (by rw [hp]; rfl) fun hc => nomatch hc
    case h_2 => cases hs
  | finish p =>
    simp only [Step, next] at hs
    split at hs
    case h_1 hp =>
      cases hs
      exact hsync (by rw [hp]; rfl) fun hc => nomatch hc
    case h_2 hp =>
      obtain rfl := some.inj hs
      exact hsync (by rw [hp]; rfl) fun hc => nomatch hc
    case h_3 => cases hs

/-- A sync that is in its wait loop has not begun in between, and so overtakes nobody. -/
theorem NotBegun.notOvertaken {i : Input} (hc : NotBegun s i) (h : Apart s) (hs : Step s i s') :
    NotOvertaken s i := by
  cases i with
  | look p =>
    intro _ hsome
    simp only [Step, next] at hs
    split at hs
    case h_1 stillBlock hp =>
      have hpos : 0 < count s.place .sync := count_pos (p := p) (by rw [hp]; rfl)
      rw [h hsome] at hpos
      exact absurd hpos (Nat.lt_irrefl 0)
    case h_2 => cases hs
  | enter p => exact hc
  | _ => trivial

/-- Where no sync begins between the check and the addition of a transfer, none overtakes it. -/
theorem unovertaken_of_notBegun (h : Reaches Step NotBegun boot s) :
    Reaches Step NotOvertaken boot s := by
  have hrun : Reaches Step NotOvertaken boot s ∧ Inv s ∧ Apart s := by
    refine h.invariant (I := fun a => Reaches Step NotOvertaken boot a ∧ Inv a ∧ Apart a) ?_ ?_
    · exact ⟨Reaches.refl, boot_inv, fun ⟨_, hp⟩ => nomatch hp⟩
    · rintro a i b ⟨hr, hinv, hapart⟩ hc hs
      have hno := hc.notOvertaken hapart hs
      exact ⟨hr.snoc hno hs, hinv.step hno hs, hapart.step hinv hc hs⟩
  exact hrun.1

/-! ## Runs -/

/-- A test of `NotOvertaken`. -/
def notOvertaken (s : State) : Input → Bool
  | .look _ => s.rwOperating != 0 || (List.finRange NPROC).all fun p => s.place p != .checked
  | .enter _ => s.rwOperating + 1 < U32
  | _ => true

theorem notOvertaken_sound (s : State) (i : Input) (h : notOvertaken s i = true) :
    NotOvertaken s i := by
  cases i with
  | look q =>
    rintro hzero ⟨p, hp⟩
    rw [notOvertaken, hzero] at h
    have hall : ((List.finRange NPROC).all fun p => s.place p != .checked) = true := h
    have hne := List.all_eq_true.mp hall p (List.mem_finRange p)
    rw [hp] at hne
    cases hne
  | enter p =>
    show s.rwOperating + 1 < U32
    exact of_decide_eq_true h
  | _ => trivial

/-- Two transfers check, and one begins.  A sync begins, and has to wait for both. -/
def syncWaits : List Input :=
  [.check 0, .check 2, .enter 0, .sync 1 false, .look 1, .enter 2, .look 1, .leave 0, .leave 2]

/-- The sync goes past its loop; a transfer that checks meanwhile is turned away. -/
def syncPasses : List Input := [.look 1, .check 0, .finish 1, .check 0, .enter 0]

/-- A run in which a sync begins between the two operations of a transfer, waits for it, and is past
    its loop when nobody is inside. -/
theorem transfer_excluded_waits : ∃ s s', Reaches Step NotOvertaken boot s ∧
    Reaches Step NotOvertaken s s' ∧ s.place 1 = .waiting false ∧ s.rwOperating = 0 ∧
    s'.place 0 = .inside ∧ s'.place 1 = .idle ∧ Excluded s ∧ Excluded s' := by
  let step := tested notOvertaken next
  have hrun : Leads step boot syncWaits fun s => s.place 1 = .waiting false ∧ s.rwOperating = 0 ∧
      Leads step s syncPasses fun s' => s'.place 0 = .inside ∧ s'.place 1 = .idle := by
    decide +kernel
  have hsteps : ∀ s i s', step s i = some s' → NotOvertaken s i ∧ Step s i s' :=
    tested_step notOvertaken_sound fun _ _ _ h => h
  obtain ⟨s, h₁, hwait, hzero, hrun⟩ := hrun.reaches Step _ hsteps
  obtain ⟨s', h₂, hin, hidle⟩ := hrun.reaches Step _ hsteps
  exact ⟨s, s', h₁, h₂, hwait, hzero, hin, hidle, transfer_excluded h₁,
    transfer_excluded (h₁.trans h₂)⟩

/-- The sync begins, and finds no transfer, between the two operations of one. -/
def overtaken : List Input := [.check 0, .sync 1 false, .look 1, .enter 0]

theorem overtaken_not_excluded : ¬ ∀ s, Reaches Step anyInput boot s → Excluded s := by
  intro hall
  have hrun : Leads next boot overtaken fun s => s.place 0 = .inside ∧ (s.place 1).pastLoop := by
    decide
  obtain ⟨s, hreach, hin, hpast⟩ := hrun.reaches Step anyInput fun _ _ _ h => ⟨trivial, h⟩
  have hclear := hall s hreach 0 1 hin
  rw [hclear] at hpast
  cases hpast

end Uniks.Syncing
