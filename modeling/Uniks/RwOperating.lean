/-
  Who gives the 1 of `rw_operating` back.

  `Uniks.Syncing` has the operations on the two counters; here the four calls that make them are
  followed down to their returns.  All four add 1 before they look at their arguments.  `readi` and
  `writei` then test the offset, and return 0 or -1 from the test itself, in front of the
  `atomic_fetch_sub` at their end; their loops leave by `break` and pass it.  The loops of
  `blkdev_read` and `blkdev_write` return from the middle when a block cannot be read, and leave
  the 1 behind as well.  `-EBUSY` is returned before the addition.

  A call is `Balanced` when its arguments, and the blocks it will get, keep it away from these
  returns.  One call alone leaves the counter as it was exactly then (`alone_balanced`); in a run of
  balanced calls, in any interleaving, the counter is the number of processes in a transfer.
-/
import Uniks.Syncing

namespace Uniks.RwOperating

open Uniks.Runs Uniks.RefCount Uniks.Syncing
open Uniks.Proc (NPROC Pid)
open Function (update update_self update_of_ne)
open Option (some bind_eq_some_iff)

abbrev BLKSIZE : Nat := 4096

def EXT2_MAX_FBLKS : Nat := 12 + 1024 + 1024 * 1024 + 1024 * 1024 * 1024

def EIO : Int := 5

def EBUSY : Int := 16

/-! ## The calls -/

/-- What a round of one of the loops gets. -/
inductive Fetch where
  /-- The block, and the copy succeeds. -/
  | ready
  /-- `bmap` gives 0, or `blk_read` or `getblk` gives `NULL`. -/
  | missing
  /-- The assertion on the copy fails. -/
  | fault
  deriving DecidableEq, Repr

/-- How a call ends: what it returns, and whether it has passed its `atomic_fetch_sub`. -/
structure Exit where
  ret : Int
  subtracts : Bool
  deriving DecidableEq, Repr

/-- The loop of `readi` and of `writei`, which advance `off` by what `tot` has grown: the bytes
    moved. -/
def transferLoop (fetch : Nat → Fetch) (round off n tot : Nat) : Option Nat :=
  if tot < n then
    match fetch round with
    | .missing => some tot
    | .fault => none
    | .ready =>
      transferLoop fetch (round + 1) off n
        (tot + min (n - tot) (BLKSIZE - (off + tot) % BLKSIZE))
  else some tot
termination_by n - tot
decreasing_by
  have hlt : (off + tot) % BLKSIZE < BLKSIZE := Nat.mod_lt _ (by decide)
  omega

/-- The source's `readi` behind `rwi_common`. -/
def readi (iSize : UInt32) (off n : UInt64) (fetch : Nat → Fetch) : Option Exit :=
  if off > iSize.toUInt64 ∨ off + n < off then some ⟨0, false⟩
  else
    let n := if off + n > iSize.toUInt64 then iSize.toUInt64 - off else n
    (transferLoop fetch 0 off.toNat n.toNat 0).map fun tot : Nat => ⟨tot, true⟩

/-- The source's `writei` behind `rwi_common`. -/
def writei (iSize : UInt32) (off n : UInt64) (fetch : Nat → Fetch) : Option Exit :=
  if off > iSize.toUInt64 ∨ off + n < off then some ⟨-1, false⟩
  else if (off + n).toNat > EXT2_MAX_FBLKS * BLKSIZE then some ⟨-1, false⟩
  else
    (transferLoop fetch 0 off.toNat n.toNat 0).map fun tot : Nat =>
      ⟨if tot ≠ 0 then tot else - EIO, true⟩

/-- The loop of `blkdev_read` and of `blkdev_write`; `count` is the source's `n`. -/
def blkdevLoop (fetch : Nat → Fetch) (round : Nat) (offset : Fin BLKSIZE) (count cnt : Nat) :
    Option Exit :=
  if 0 < cnt then
    match fetch round with
    | .missing => some ⟨if count ≠ 0 then count else - EIO, false⟩
    | .fault => none
    | .ready =>
      let bytes := min (BLKSIZE - offset) cnt
      blkdevLoop fetch (round + 1) 0 (count + bytes) (cnt - bytes)
  else some ⟨count, true⟩
termination_by cnt
decreasing_by
  have hlt := offset.isLt
  omega

/-- `OFFSETPAGE(pos)`; `pos` is signed. -/
def offsetPage (pos : Int) : Fin BLKSIZE := Fin.ofNat BLKSIZE (pos % BLKSIZE).toNat

/-- The source's `blkdev_read` behind `blkdev_rw_common1`. -/
def blkdevRead (pos : Int) (cnt : Nat) (fetch : Nat → Fetch) : Option Exit :=
  blkdevLoop fetch 0 (offsetPage pos) 0 cnt

/-- The source's `blkdev_write` behind `blkdev_rw_common1`; a block that is written as a whole comes
    from `getblk`. -/
def blkdevWrite (pos : Int) (cnt : Nat) (fetch : Nat → Fetch) : Option Exit :=
  blkdevLoop fetch 0 (offsetPage pos) 0 cnt

/-- A call with its arguments, and what its rounds will get. -/
inductive Call where
  | readi (iSize : UInt32) (off n : UInt64) (fetch : Nat → Fetch)
  | writei (iSize : UInt32) (off n : UInt64) (fetch : Nat → Fetch)
  | blkdevRead (pos : Int) (cnt : Nat) (fetch : Nat → Fetch)
  | blkdevWrite (pos : Int) (cnt : Nat) (fetch : Nat → Fetch)

/-- What a call does behind its addition; `none` is a failed assertion. -/
def Call.body : Call → Option Exit
  | .readi iSize off n fetch => RwOperating.readi iSize off n fetch
  | .writei iSize off n fetch => RwOperating.writei iSize off n fetch
  | .blkdevRead pos cnt fetch => RwOperating.blkdevRead pos cnt fetch
  | .blkdevWrite pos cnt fetch => RwOperating.blkdevWrite pos cnt fetch

/-- How many blocks `cnt` bytes from an offset in a block touch. -/
def blocks (offset : Fin BLKSIZE) (cnt : Nat) : Nat :=
  if cnt = 0 then 0 else (offset + cnt - 1) / BLKSIZE + 1

/-- The offset of a `readi` or `writei` lies in the file, and the end of the range fits into its
    type (and, of a `writei`, into a file); every block of a `blkdev_read` or `blkdev_write` can be
    had. -/
def Call.Balanced : Call → Prop
  | .readi iSize off n _ => off.toNat ≤ iSize.toNat ∧ off.toNat + n.toNat < 2 ^ 64
  | .writei iSize off n _ =>
    off.toNat ≤ iSize.toNat ∧ off.toNat + n.toNat ≤ EXT2_MAX_FBLKS * BLKSIZE
  | .blkdevRead pos cnt fetch => ∀ round, round < blocks (offsetPage pos) cnt → fetch round = .ready
  | .blkdevWrite pos cnt fetch => ∀ round, round < blocks (offsetPage pos) cnt → fetch round = .ready

/-! ## The calls of many processes -/

/-- The two counters, where the processes are, and the call each of them is in. -/
structure State where
  counters : Syncing.State
  call : Pid → Option Call

/-- Nothing has been called yet. -/
def boot : State := ⟨Syncing.boot, fun _ => none⟩

inductive Input where
  /-- A call begins: `atomic_load(&syncing) > 0`. -/
  | begin (p : Pid) (c : Call)
  /-- `atomic_fetch_add(&rw_operating, 1)`. -/
  | enter (p : Pid)
  /-- The rest of the call, with its `atomic_fetch_sub` if it passes it. -/
  | ret (p : Pid)
  | sync (p : Pid) (stillBlock : Bool)
  | look (p : Pid)
  | finish (p : Pid)

def State.to (s : State) (counters : Option Syncing.State) : Option State :=
  counters.map fun t => { s with counters := t }

/-- The operation on the counters with which a call ends. -/
def Exit.input (e : Exit) (p : Pid) : Syncing.Input := if e.subtracts then .leave p else .giveUp p

def next (s : State) : Input → Option State
  | .begin p c =>
    (Syncing.next s.counters (.check p)).map fun t => ⟨t, update s.call p (some c)⟩
  | .enter p => s.to (Syncing.next s.counters (.enter p))
  | .ret p => do
    let c ← s.call p
    let e ← c.body
    s.to (Syncing.next s.counters (e.input p))
  | .sync p stillBlock => s.to (Syncing.next s.counters (.sync p stillBlock))
  | .look p => s.to (Syncing.next s.counters (.look p))
  | .finish p => s.to (Syncing.next s.counters (.finish p))

def Step (s : State) (i : Input) (s' : State) : Prop := next s i = some s'

/-- One call without interruption, and what it returns. -/
def alone (s : State) (p : Pid) (c : Call) : Option (State × Int) := do
  let s₁ ← next s (.begin p c)
  if s₁.counters.place p = .checked then
    let s₂ ← next s₁ (.enter p)
    let e ← c.body
    let s₃ ← next s₂ (.ret p)
    return (s₃, e.ret)
  else return (s₁, -EBUSY)

/-- A call begins only if it will give its 1 back, or not take one. -/
def Balances (s : State) : Input → Prop
  | .begin _ c => s.counters.syncing > 0 ∨ c.Balanced
  | _ => True

variable {s s' : State} {p : Pid} {c : Call} {e : Exit} {fetch : Nat → Fetch}

/-! ## Where a call leaves -/

/-- The first block of `cnt` bytes takes what is left of it; the others begin at offset 0. -/
theorem blocks_round {offset : Fin BLKSIZE} {cnt : Nat} (h : 0 < cnt) :
    blocks offset cnt = blocks 0 (cnt - min (BLKSIZE - offset) cnt) + 1 := by
  have hlt := offset.isLt
  have hzero : ((0 : Fin BLKSIZE) : Nat) = 0 := rfl
  simp only [blocks, hzero, BLKSIZE] at hlt ⊢
  split
  · omega
  · split
    · omega
    · omega

theorem blkdevLoop_subtracts {round count cnt : Nat} {offset : Fin BLKSIZE}
    (h : blkdevLoop fetch round offset count cnt = some e) :
    e.subtracts = true ↔ ∀ k, k < blocks offset cnt → fetch (round + k) = .ready := by
  induction round, offset, count, cnt using blkdevLoop.induct fetch with
  | case1 round offset count cnt hpos hmissing =>
    rw [blkdevLoop, if_pos hpos, hmissing] at h
    cases h
    constructor
    · exact fun hsub => nomatch hsub
    · intro hall
      have hfirst := hall 0 (by rw [blocks_round hpos]; omega)
      rw [Nat.add_zero, hmissing] at hfirst
      cases hfirst
  | case2 round offset count cnt hpos hfault =>
    rw [blkdevLoop, if_pos hpos, hfault] at h
    cases h
  | case3 round offset count cnt hpos hready bytes ih =>
    rw [blkdevLoop, if_pos hpos, hready] at h
    have hround : blocks offset cnt = blocks 0 (cnt - bytes) + 1 := blocks_round hpos
    rw [ih h, hround]
    constructor
    · intro hrest k hk
      cases k with
      | zero => exact hready
      | succ k =>
        have hnext := hrest k (by omega)
        rw [Nat.add_right_comm] at hnext
        exact hnext
    · intro hall k hk
      have hnext := hall (k + 1) (by omega)
      rw [← Nat.add_assoc, Nat.add_right_comm] at hnext
      exact hnext
  | case4 round offset count cnt hdone =>
    rw [blkdevLoop, if_neg hdone] at h
    cases h
    constructor
    · intro _ k hk
      rw [blocks, if_pos (by omega)] at hk
      omega
    · exact fun _ => rfl

theorem wraps_iff (off n : UInt64) : off + n < off ↔ 2 ^ 64 ≤ off.toNat + n.toNat := by
  have hoff := off.toNat_lt
  have hn := n.toNat_lt
  rw [UInt64.lt_iff_toNat_lt, UInt64.toNat_add]
  omega

theorem size_lt_iff (iSize : UInt32) (off : UInt64) :
    off > iSize.toUInt64 ↔ iSize.toNat < off.toNat := by
  show iSize.toUInt64 < off ↔ _
  rw [UInt64.lt_iff_toNat_lt, UInt32.toNat_toUInt64]

theorem readi_subtracts {iSize : UInt32} {off n : UInt64} (h : readi iSize off n fetch = some e) :
    e.subtracts = true ↔ off.toNat ≤ iSize.toNat ∧ off.toNat + n.toNat < 2 ^ 64 := by
  simp only [readi, size_lt_iff, wraps_iff] at h
  split at h
  case isTrue hbad =>
    cases h
    constructor
    · exact fun hsub => nomatch hsub
    · omega
  case isFalse hgood =>
    obtain ⟨tot, -, rfl⟩ := Option.map_eq_some_iff.mp h
    constructor
    · omega
    · exact fun _ => rfl

theorem writei_subtracts {iSize : UInt32} {off n : UInt64}
    (h : writei iSize off n fetch = some e) : e.subtracts = true ↔
      off.toNat ≤ iSize.toNat ∧ off.toNat + n.toNat ≤ EXT2_MAX_FBLKS * BLKSIZE := by
  have hmax : EXT2_MAX_FBLKS * BLKSIZE < 2 ^ 64 := by decide
  simp only [writei, size_lt_iff, wraps_iff, UInt64.toNat_add] at h
  split at h
  case isTrue hbad =>
    cases h
    constructor
    · exact fun hsub => nomatch hsub
    · omega
  case isFalse hgood =>
    split at h
    case isTrue hlarge =>
      cases h
      constructor
      · exact fun hsub => nomatch hsub
      · omega
    case isFalse hfits =>
      obtain ⟨tot, -, rfl⟩ := Option.map_eq_some_iff.mp h
      constructor
      · omega
      · exact fun _ => rfl

/-- A call passes its `atomic_fetch_sub` exactly if it is balanced. -/
theorem Call.subtracts_iff (h : c.body = some e) : e.subtracts = true ↔ c.Balanced := by
  cases c with
  | readi iSize off n fetch => exact readi_subtracts h
  | writei iSize off n fetch => exact writei_subtracts h
  | blkdevRead pos cnt fetch =>
    rw [blkdevLoop_subtracts h]
    simp [Call.Balanced]
  | blkdevWrite pos cnt fetch =>
    rw [blkdevLoop_subtracts h]
    simp [Call.Balanced]

/-! ## One call alone -/

theorem next_check {s : Syncing.State} (hidle : s.place p = .idle) :
    Syncing.next s (.check p) = if s.syncing > 0 then some s else some (s.goto p .checked) := by
  simp [Syncing.next, hidle]

theorem idle_of_check {s t : Syncing.State} (h : Syncing.next s (.check p) = some t) :
    s.place p = .idle := by
  simp only [Syncing.next] at h
  split at h
  · assumption
  · cases h

theorem inside_of_exit {s t : Syncing.State} (h : Syncing.next s (e.input p) = some t) :
    s.place p = .inside := by
  cases hsub : e.subtracts <;>
    simp only [Exit.input, hsub, Bool.false_eq_true, if_false, if_true, Syncing.next] at h
  · split at h
    · assumption
    · cases h
  · split at h
    · assumption
    · cases h

theorem next_enter {s : Syncing.State} (hchecked : s.place p = .checked) :
    Syncing.next s (.enter p) =
      some { s.goto p .inside with rwOperating := (s.rwOperating + 1) % U32 } := by
  simp [Syncing.next, hchecked]

/-- The last operation of a call, with or without its subtraction. -/
theorem next_exit {s : Syncing.State} (hinside : s.place p = .inside) (e : Exit) :
    Syncing.next s (e.input p) = some { s.goto p .idle with
      rwOperating := if e.subtracts then (s.rwOperating + (U32 - 1)) % U32 else s.rwOperating } := by
  cases hsub : e.subtracts with
  | true => simp [Syncing.next, Exit.input, hsub, hinside]
  | false =>
    simp [Syncing.next, Exit.input, hsub, hinside]
    rfl

/-- The counters after a call that is let in: its body decides whether the addition is taken
    back. -/
def after (s : Syncing.State) (p : Pid) (e : Exit) : Syncing.State :=
  { ((s.goto p .checked).goto p .inside).goto p .idle with
    rwOperating := if e.subtracts then ((s.rwOperating + 1) % U32 + (U32 - 1)) % U32
      else (s.rwOperating + 1) % U32 }

theorem alone_admitted (hidle : s.counters.place p = .idle) (hsync : ¬ s.counters.syncing > 0)
    (hbody : c.body = some e) :
    alone s p c = some (⟨after s.counters p e, update s.call p (some c)⟩, e.ret) := by
  have hcheck := next_check hidle
  rw [if_neg hsync] at hcheck
  have hchecked : (s.counters.goto p .checked).place p = .checked := by simp
  have hexit := next_exit (s := { (s.counters.goto p .checked).goto p .inside with
    rwOperating := (s.counters.rwOperating + 1) % U32 }) (p := p) (by simp) e
  simp only [alone, next, hcheck, Option.map_some, Option.bind_eq_bind, Option.bind_some,
    hchecked, if_pos, State.to, next_enter hchecked, hbody, update_self,
    goto_rwOperating, hexit]
  rfl

theorem alone_busy (hidle : s.counters.place p = .idle) (hsync : s.counters.syncing > 0) :
    alone s p c = some (⟨s.counters, update s.call p (some c)⟩, -EBUSY) := by
  have hcheck := next_check hidle
  rw [if_pos hsync] at hcheck
  simp [alone, next, hcheck, hidle]

/-- A call that does not return stops the kernel. -/
theorem alone_body {r : State × Int} (hidle : s.counters.place p = .idle)
    (hsync : ¬ s.counters.syncing > 0) (h : alone s p c = some r) : ∃ e, c.body = some e := by
  have hcheck := next_check hidle
  rw [if_neg hsync] at hcheck
  cases hbody : c.body with
  | none => simp [alone, next, hcheck, hbody] at h
  | some e => exact ⟨e, rfl⟩

/-- One call leaves the counter as it was exactly if it is refused or balanced. -/
theorem alone_balanced {ret : Int} (hidle : s.counters.place p = .idle)
    (hbound : s.counters.rwOperating < U32) (h : alone s p c = some (s', ret)) :
    s'.counters.rwOperating = s.counters.rwOperating ↔
      s.counters.syncing > 0 ∨ c.Balanced := by
  by_cases hsync : s.counters.syncing > 0
  · obtain ⟨rfl, rfl⟩ := Prod.mk.inj (some.inj ((alone_busy hidle hsync).symm.trans h))
    exact ⟨fun _ => .inl hsync, fun _ => rfl⟩
  · obtain ⟨e, hbody⟩ := alone_body hidle hsync h
    obtain ⟨rfl, rfl⟩ :=
      Prod.mk.inj (some.inj ((alone_admitted hidle hsync hbody).symm.trans h))
    rw [← Call.subtracts_iff hbody]
    simp only [after, U32] at hbound ⊢
    cases hsub : e.subtracts with
    | true =>
      constructor
      · exact fun _ => .inr rfl
      · intro _
        rw [if_pos rfl]
        omega
    | false =>
      constructor
      · intro hsame
        rw [if_neg Bool.false_ne_true] at hsame
        omega
      · rintro (hbusy | hsub)
        · exact absurd hbusy hsync
        · cases hsub

/-- One call is three steps of a run, or one. -/
theorem alone_reaches {cond : State → Input → Prop} {s₀ : State} {r : State × Int}
    (hr : Reaches Step cond s₀ s) (hbegin : cond s (.begin p c))
    (hrest : ∀ s, cond s (.enter p) ∧ cond s (.ret p)) (h : alone s p c = some r) :
    Reaches Step cond s₀ r.1 := by
  obtain ⟨s₁, h₁, h⟩ := bind_eq_some_iff.mp h
  have hr₁ := hr.snoc hbegin h₁
  split at h
  · obtain ⟨s₂, h₂, h⟩ := bind_eq_some_iff.mp h
    obtain ⟨e, -, h⟩ := bind_eq_some_iff.mp h
    obtain ⟨s₃, h₃, h⟩ := bind_eq_some_iff.mp h
    cases h
    exact (hr₁.snoc (hrest s₁).1 h₂).snoc (hrest s₂).2 h₃
  · cases h
    exact hr₁

/-! ## Runs -/

/-- The counter is the number of processes in a transfer, and every one of them is in a balanced
    call. -/
structure Inv (s : State) : Prop where
  exact_count : s.counters.rwOperating = count s.counters.place .transfer
  balanced : ∀ p, s.counters.place p = .checked ∨ s.counters.place p = .inside →
    ∃ c, s.call p = some c ∧ c.Balanced

theorem boot_inv : Inv boot where
  exact_count := (refs_none _).symm
  balanced p hp := by
    rcases hp with hp | hp <;> cases hp

/-- A process that moves and stays on its side, or keeps the books itself. -/
theorem Inv.move (h : Inv s) {t : Syncing.State} {pl : Place}
    (hplace : t.place = update s.counters.place p pl)
    (hcount : t.rwOperating = count t.place .transfer) (hpl : pl ≠ .checked)
    (hin : pl = .inside → s.counters.place p = .checked) : Inv { s with counters := t } where
  exact_count := hcount
  balanced q hq := by
    have hq' : t.place q = .checked ∨ t.place q = .inside := hq
    rw [hplace] at hq'
    by_cases hqp : q = p
    · subst hqp
      rw [update_self] at hq'
      rcases hq' with hchecked | hinside
      · exact absurd hchecked hpl
      · exact h.balanced q (.inl (hin hinside))
    · rw [update_of_ne hqp] at hq'
      exact h.balanced q hq'

/-- A process at a sync moves on: the counter of the transfers does not change. -/
theorem Inv.aside (h : Inv s) {t : Syncing.State} {pl : Place}
    (hplace : t.place = update s.counters.place p pl)
    (hsame : t.rwOperating = s.counters.rwOperating)
    (hfrom : (s.counters.place p).side ≠ some .transfer) (hto : pl.side ≠ some .transfer)
    (hpl : pl ≠ .checked) : Inv { s with counters := t } := by
  have hcount := count_update s.counters.place p pl .transfer
  rw [if_neg hfrom, if_neg hto] at hcount
  refine h.move hplace ?_ hpl fun hin => ?_
  · rw [hsame, hplace, h.exact_count]
    exact hcount.symm
  · subst hin
    exact absurd rfl hto

theorem to_eq {s s' : State} {o : Option Syncing.State} (h : s.to o = some s') :
    ∃ t, o = some t ∧ s' = { s with counters := t } := by
  obtain ⟨t, ht, rfl⟩ := Option.map_eq_some_iff.mp h
  exact ⟨t, ht, rfl⟩

theorem Inv.begin (h : Inv s) (hc : s.counters.syncing > 0 ∨ c.Balanced)
    (hs : next s (.begin p c) = some s') : Inv s' := by
  obtain ⟨t, ht, rfl⟩ := Option.map_eq_some_iff.mp hs
  have hidle := idle_of_check ht
  rw [next_check hidle] at ht
  -- whoever is in another call keeps it
  have hothers : ∀ q, q ≠ p →
      s.counters.place q = .checked ∨ s.counters.place q = .inside →
      ∃ d, update s.call p (some c) q = some d ∧ d.Balanced := by
    intro q hqp hq
    rw [update_of_ne hqp]
    exact h.balanced q hq
  split at ht
  case isTrue hbusy =>
    cases ht
    refine ⟨h.exact_count, fun q hq => hothers q ?_ hq⟩
    rintro rfl
    simp [hidle] at hq
  case isFalse hfree =>
    cases ht
    have hcount := count_update s.counters.place p .checked .transfer
    rw [hidle] at hcount
    refine ⟨h.exact_count.trans hcount.symm, fun q hq => ?_⟩
    by_cases hqp : q = p
    · subst hqp
      exact ⟨c, update_self .., hc.resolve_left hfree⟩
    · refine hothers q hqp ?_
      simp only [goto_place, update_of_ne hqp] at hq
      exact hq

theorem Inv.enter (h : Inv s) (hs : next s (.enter p) = some s') : Inv s' := by
  obtain ⟨t, ht, rfl⟩ := to_eq hs
  simp only [Syncing.next] at ht
  split at ht
  case h_1 hp =>
    cases ht
    have hcount := count_update s.counters.place p .inside .transfer
    simp only [hp, Place.side, reduceCtorEq, if_false, if_true] at hcount
    have hle := count_le (update s.counters.place p .inside) .transfer
    have hexact := h.exact_count
    refine h.move rfl ?_ (by simp) fun _ => hp
    show (s.counters.rwOperating + 1) % U32 = count (update _ p .inside) .transfer
    simp only [NPROC, U32] at hle ⊢
    omega
  case h_2 => cases ht

/-- A call that ends is balanced, so it subtracts what it has added. -/
theorem Inv.ret (h : Inv s) (hs : next s (.ret p) = some s') : Inv s' := by
  obtain ⟨c, hcall, hs⟩ := bind_eq_some_iff.mp hs
  obtain ⟨e, hbody, hs⟩ := bind_eq_some_iff.mp hs
  obtain ⟨t, ht, rfl⟩ := to_eq hs
  have hin := inside_of_exit ht
  rw [next_exit hin] at ht
  cases ht
  obtain ⟨c', hcall', hbal⟩ := h.balanced p (.inr hin)
  cases hcall.symm.trans hcall'
  have hsub := (Call.subtracts_iff hbody).mpr hbal
  have hcount := count_update s.counters.place p .idle .transfer
  simp only [hin, Place.side, reduceCtorEq, if_false, if_true] at hcount
  have hle := count_le s.counters.place .transfer
  have hexact := h.exact_count
  refine h.move rfl ?_ (by simp) (by simp)
  show (if e.subtracts then _ else _) = count (update _ p .idle) .transfer
  rw [if_pos hsub]
  simp only [NPROC, U32] at hle ⊢
  omega

theorem Inv.step (h : Inv s) {i : Input} (hc : Balances s i) (hs : Step s i s') : Inv s' := by
  cases i with
  | begin p c => exact h.begin hc hs
  | enter p => exact h.enter hs
  | ret p => exact h.ret hs
  | sync p stillBlock =>
    obtain ⟨t, ht, rfl⟩ := to_eq hs
    simp only [Syncing.next] at ht
    split at ht
    case h_1 hp =>
      cases ht
      exact h.aside rfl rfl (by simp [hp, Place.side]) (by simp [Place.side]) (by simp)
    case h_2 => cases ht
  | look p =>
    obtain ⟨t, ht, rfl⟩ := to_eq hs
    simp only [Syncing.next] at ht
    split at ht
    case h_1 stillBlock hp =>
      split at ht
      · cases ht
        exact h
      · cases ht
        exact h.aside rfl rfl (by simp [hp, Place.side]) (by simp [Place.side]) (by simp)
    case h_2 => cases ht
  | finish p =>
    obtain ⟨t, ht, rfl⟩ := to_eq hs
    simp only [Syncing.next] at ht
    split at ht
    case h_1 hp =>
      cases ht
      exact h.aside rfl rfl (by simp [hp, Place.side]) (by simp [Place.side]) (by simp)
    case h_2 hp =>
      obtain rfl := some.inj ht
      exact h.aside rfl rfl (by simp [hp, Place.side]) (by simp [Place.side]) (by simp)
    case h_3 => cases ht

/-- From any state, one call alone leaves `rw_operating` as it was exactly if it is refused or
    balanced; and in a state of a run in which only such calls begin, `rw_operating` is 0 whenever
    no call is between its two operations, and a sync that looks then goes past its wait loop. -/
theorem rw_operating_balanced (s : State) :
    (∀ (s' : State) (p : Pid) (c : Call) (ret : Int), s.counters.place p = .idle →
      s.counters.rwOperating < U32 → alone s p c = some (s', ret) →
      (s'.counters.rwOperating = s.counters.rwOperating ↔
        s.counters.syncing > 0 ∨ c.Balanced)) ∧
    (Reaches Step Balances boot s → (∀ p, s.counters.place p ≠ .inside) →
      s.counters.rwOperating = 0 ∧ ∀ p stillBlock, s.counters.place p = .waiting stillBlock →
        ∃ s', next s (.look p) = some s' ∧ s'.counters.place p = .past stillBlock) := by
  refine ⟨fun s' p c ret hidle hbound h => alone_balanced hidle hbound h, fun hr hnone => ?_⟩
  have hinv := hr.invariant boot_inv fun _ _ _ ha hc hs => ha.step hc hs
  have hzero : s.counters.rwOperating = 0 := by
    rw [hinv.exact_count]
    refine refs_eq_zero.mpr fun p hp => hnone p ?_
    cases hpl : s.counters.place p <;> simp [hpl, Place.side] at hp ⊢
  refine ⟨hzero, fun p stillBlock hwait => ?_⟩
  refine ⟨{ s with counters := s.counters.goto p (.past stillBlock) }, ?_, by simp⟩
  simp [next, Syncing.next, hwait, hzero, State.to]

/-- With every block served, the loop moves what it is asked for. -/
theorem transferLoop_ready {round off n tot : Nat} (hready : ∀ k, fetch k = .ready)
    (htot : tot ≤ n) : transferLoop fetch round off n tot = some n := by
  induction round, tot using transferLoop.induct fetch off n with
  | case1 round tot _ hmissing => simp [hready] at hmissing
  | case2 round tot _ hfault => simp [hready] at hfault
  | case3 round tot hlt hrd ih =>
    rw [transferLoop, if_pos hlt, hrd]
    exact ih (by omega)
  | case4 round tot hdone =>
    rw [transferLoop, if_neg hdone]
    congr 1
    omega

theorem after_not_inside (p q : Pid) (e : Exit) : (after Syncing.boot p e).place q ≠ .inside := by
  by_cases hqp : q = p
  · subst hqp
    simp [after]
  · simp [after, Syncing.boot]

/-- Ten bytes of a file of ten bytes are read: the counter is back at 0. -/
theorem rw_operating_balanced_read : ∃ s, alone boot 0 (.readi 10 0 10 fun _ => .ready) =
    some (s, 10) ∧ s.counters.rwOperating = 0 := by
  have hbal : (Call.readi 10 0 10 fun _ => .ready).Balanced := by
    constructor <;> decide
  have hbody : (Call.readi 10 0 10 fun _ => .ready).body = some ⟨10, true⟩ := by
    rw [Call.body, readi, if_neg (by decide)]
    show (transferLoop _ 0 _ _ 0).map _ = _
    rw [transferLoop_ready (fun _ => rfl) (Nat.zero_le _)]
    rfl
  have hrun := alone_admitted (s := boot) (p := 0) rfl (by decide) hbody
  have hreach : Reaches Step Balances boot _ :=
    alone_reaches Reaches.refl (.inr hbal) (fun _ => ⟨trivial, trivial⟩) hrun
  exact ⟨_, hrun, ((rw_operating_balanced _).2 hreach fun q => after_not_inside 0 q _).1⟩

/-- An empty file is read from offset 1: `readi` returns 0, and the counter stays at 1. -/
theorem read_past_end_leaks :
    ¬ ((∀ (s s' : State) (p : Pid) (c : Call) (ret : Int), s.counters.place p = .idle →
        s.counters.rwOperating < U32 → alone s p c = some (s', ret) →
        s'.counters.rwOperating = s.counters.rwOperating) ∧
      ∀ s, Reaches Step anyInput boot s → (∀ p, s.counters.place p ≠ .inside) →
        s.counters.rwOperating = 0 ∧ ∀ p stillBlock, s.counters.place p = .waiting stillBlock →
          ∃ s', next s (.look p) = some s' ∧ s'.counters.place p = .past stillBlock) := by
  rintro ⟨-, hall⟩
  have hbody : (Call.readi 0 1 1 fun _ => .ready).body = some ⟨0, false⟩ := rfl
  have hrun := alone_admitted (s := boot) (p := 0) rfl (by decide) hbody
  have hreach : Reaches Step anyInput boot _ :=
    alone_reaches Reaches.refl trivial (fun _ => ⟨trivial, trivial⟩) hrun
  have hzero := (hall _ hreach fun q => after_not_inside 0 q _).1
  exact absurd hzero (by decide)

end Uniks.RwOperating
