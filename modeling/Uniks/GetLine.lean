/-
  `getchar` and `getline` of `user/libs/ustdio.c`: a stream of bytes without NUL that comes in
  chunks, cut into lines.

  The stream may be endless.  `chunk d k` is how much `read` delivers when `d` bytes have been
  delivered and `k` are asked for: at least one byte and no more than are asked for, and nothing
  only at the end of the stream.
-/
import Uniks.Lib.ByteMem

namespace Uniks.GetLine

open Uniks.ByteMem
open Function (update update_self update_of_ne)

abbrev BUFSIZE : Nat := 1024
abbrev LINE_MAX : Nat := 1000

def newline : UInt8 := 10

/-- Whether the stream has a byte at a position, if this is where it ends. -/
def More (stop : Option Nat) (d : Nat) : Prop := ∀ e, stop = some e → d < e

/-- What is read from. -/
structure Stdin where
  byte : Nat → UInt8
  stop : Option Nat
  chunk : Nat → Nat → Nat
  byte_ne : ∀ d, More stop d → byte d ≠ 0
  chunk_pos : ∀ d k, More stop d → 0 < k → 0 < chunk d k
  chunk_le : ∀ d k, chunk d k ≤ k
  chunk_stop : ∀ d k e, stop = some e → d ≤ e → d + chunk d k ≤ e

/-! ## The code -/

/-- `ibuffer`, and how many bytes `read` has delivered. -/
structure IBuffer where
  buf : Bytes
  front : Nat
  tail : Nat
  pos : Nat

/-- The source's `ibuffer_init`. -/
def ibufferInit : IBuffer := ⟨fun _ => 0, 0, 0, 0⟩

/-- The source's `getchar`. -/
def getchar (inp : Stdin) (ib : IBuffer) : UInt8 × IBuffer :=
  if ib.front = ib.tail then
    let ib := if ib.front = BUFSIZE then { ib with front := 0, tail := 0 } else ib
    let cnt := inp.chunk ib.pos (BUFSIZE - ib.tail)
    -- The end of the stream looks like a NUL in it.
    if cnt = 0 then (0, ib)
    else
      let buf := splice ib.buf ib.tail cnt fun k => inp.byte (ib.pos + k)
      (buf ib.front, ⟨buf, ib.front + 1, ib.tail + cnt, ib.pos + cnt⟩)
  else (ib.buf ib.front, { ib with front := ib.front + 1 })

/-- What `getline` returns, the memory at `s`, and `ibuffer`. -/
structure Result where
  ret : Nat
  s : Bytes
  ib : IBuffer

/-- The loop of `getline`, with `room` for `n - i`. -/
def getlineLoop (inp : Stdin) : (room state i : Nat) → Bytes → IBuffer → Result
  | 0, _, i, s, ib => ⟨i, s, ib⟩
  | room + 1, state, i, s, ib =>
    let r := getchar inp ib
    if r.1 = 0 then ⟨i, s, r.2⟩
    else
      let s := update s i r.1
      if state = 0 then
        if r.1 ≠ newline then getlineLoop inp room 1 (i + 1) s r.2 else ⟨i + 1, s, r.2⟩
      else
        if r.1 = newline then ⟨i + 1, s, r.2⟩ else getlineLoop inp room state (i + 1) s r.2

/-- The source's `getline`. -/
def getline (inp : Stdin) (s : Bytes) (n : Nat) (ib : IBuffer) : Result :=
  let r := getlineLoop inp n 0 0 s ib
  -- The loop may have taken `n` bytes; then this is `s[n]`.
  ⟨r.ret, update r.s r.ret 0, r.ib⟩

/-- The memory at `s` and `ibuffer` before call `k` of `getline(s, n)`. -/
def run (inp : Stdin) (n : Nat) (s : Bytes) : Nat → Bytes × IBuffer
  | 0 => (s, ibufferInit)
  | k + 1 =>
    let r := getline inp (run inp n s k).1 n (run inp n s k).2
    (r.s, r.ib)

/-- The result of call `k`. -/
def call (inp : Stdin) (n : Nat) (s : Bytes) (k : Nat) : Result :=
  getline inp (run inp n s k).1 n (run inp n s k).2

/-! ## What the calls should do -/

/-- The piece from `d` on, of `len` bytes, goes to its first newline, or fills all of `s` but the
    NUL, or goes to the end of the stream. -/
structure Piece (inp : Stdin) (n d len : Nat) : Prop where
  more : ∀ j, j < len → More inp.stop (d + j)
  first : ∀ j, j + 1 < len → inp.byte (d + j) ≠ newline
  ends : (∃ j, j + 1 = len ∧ inp.byte (d + j) = newline) ∨ len + 1 = n ∨ ¬ More inp.stop (d + len)

/-- From a memory, the calls return consecutive pieces of the stream, until all of it is there, and
    write no further than to `s[n - 1]`. -/
def Splits (inp : Stdin) (n : Nat) (s : Bytes) : Prop :=
  ∃ start : Nat → Nat, start 0 = 0 ∧
    (∀ k, start (k + 1) = start k + (call inp n s k).ret) ∧
    (∀ k, Piece inp n (start k) (call inp n s k).ret) ∧
    (∀ k j, j < (call inp n s k).ret → (call inp n s k).s j = inp.byte (start k + j)) ∧
    (∀ k, (call inp n s k).s (call inp n s k).ret = 0) ∧
    (∀ d, More inp.stop d → ∃ k, start k ≤ d ∧ d < start (k + 1)) ∧
    ∀ k j, n ≤ j → (call inp n s k).s j = (run inp n s k).1 j

/-- The input is lossless and bounded, whatever is in the memory at first. -/
def Lossless (inp : Stdin) (n : Nat) : Prop := ∀ s, Splits inp n s

/-- A line begins here. -/
def LineStart (inp : Stdin) (d : Nat) : Prop :=
  More inp.stop d ∧ ∀ d', d' + 1 = d → inp.byte d' = newline

/-- The line that begins here has fewer than `n` bytes, its newline included. -/
def ShortLine (inp : Stdin) (n d : Nat) : Prop :=
  (∃ j, j + 1 < n ∧ More inp.stop (d + j) ∧ inp.byte (d + j) = newline) ∨
    ¬ More inp.stop (d + (n - 1))

/-! ## One character -/

section Calls

variable {inp : Stdin} {ib : IBuffer} {n d : Nat} {s : Bytes}

/-- `ibuffer` holds the stream from position `d` on, as far as it has been read. -/
structure Holds (inp : Stdin) (ib : IBuffer) (d : Nat) : Prop where
  front_le : ib.front ≤ ib.tail
  tail_le : ib.tail ≤ BUFSIZE
  pos_eq : ib.pos + ib.front = d + ib.tail
  bytes : ∀ k, ib.front + k < ib.tail → ib.buf (ib.front + k) = inp.byte (d + k)
  pos_le : ∀ e, inp.stop = some e → ib.pos ≤ e

theorem holds_init (inp : Stdin) : Holds inp ibufferInit 0 where
  front_le := Nat.le_refl 0
  tail_le := Nat.zero_le _
  pos_eq := rfl
  bytes := by
    intro k hk
    cases hk
  pos_le := fun e _ => Nat.zero_le e

theorem more_of_le {stop : Option Nat} {d d' : Nat} (h : More stop d') (hle : d ≤ d') :
    More stop d := by
  intro e he
  exact Nat.lt_of_le_of_lt hle (h e he)

theorem Holds.taken (h : Holds inp ib d) (hne : ib.front < ib.tail) :
    Holds inp { ib with front := ib.front + 1 } (d + 1) where
  front_le := hne
  tail_le := h.tail_le
  pos_eq := by
    have hpos := h.pos_eq
    show ib.pos + (ib.front + 1) = d + 1 + ib.tail
    omega
  bytes := by
    intro k hk
    have hbytes := h.bytes (k + 1) (by
      show ib.front + (k + 1) < ib.tail
      have hk : ib.front + 1 + k < ib.tail := hk
      omega)
    show ib.buf (ib.front + 1 + k) = inp.byte (d + 1 + k)
    rw [Nat.add_right_comm, Nat.add_right_comm d]
    exact hbytes
  pos_le := h.pos_le

theorem Holds.filled (h : Holds inp ib d) (hempty : ib.front = ib.tail) {cnt : Nat}
    (hroom : cnt ≤ BUFSIZE - ib.tail) (hstop : ∀ e, inp.stop = some e → ib.pos + cnt ≤ e) :
    Holds inp ⟨splice ib.buf ib.tail cnt fun k => inp.byte (ib.pos + k), ib.front, ib.tail + cnt,
      ib.pos + cnt⟩ d where
  front_le := Nat.le_trans h.front_le (Nat.le_add_right _ _)
  tail_le := by
    have htail := h.tail_le
    show ib.tail + cnt ≤ BUFSIZE
    omega
  pos_eq := by
    have hpos := h.pos_eq
    show ib.pos + cnt + ib.front = d + (ib.tail + cnt)
    omega
  bytes := by
    intro k hk
    have hk : ib.front + k < ib.tail + cnt := hk
    have hpos : ib.pos = d := by
      have hpos := h.pos_eq
      omega
    show splice ib.buf ib.tail cnt (fun k => inp.byte (ib.pos + k)) (ib.front + k)
      = inp.byte (d + k)
    rw [hempty, splice_add (by omega), hpos]
  pos_le := hstop

/-- An empty buffer that has been read to its end starts again at the front. -/
theorem Holds.reset (h : Holds inp ib d) (hempty : ib.front = ib.tail) :
    ∃ ib', (if ib.front = BUFSIZE then { ib with front := 0, tail := 0 } else ib) = ib' ∧
      Holds inp ib' d ∧ ib'.front = ib'.tail ∧ ib'.tail < BUFSIZE := by
  have hpos := h.pos_eq
  by_cases hfull : ib.front = BUFSIZE
  · rw [if_pos hfull]
    refine ⟨_, rfl, ⟨Nat.le_refl 0, Nat.zero_le _, ?_, ?_, h.pos_le⟩, rfl, ?_⟩
    · show ib.pos + 0 = d + 0
      omega
    · intro k hk
      cases hk
    · show 0 < BUFSIZE
      decide
  · rw [if_neg hfull]
    have htail := h.tail_le
    exact ⟨ib, rfl, h, hempty, by omega⟩

/-- The next character is the next byte of the stream, if there is one. -/
theorem getchar_spec (h : Holds inp ib d) :
    (More inp.stop d → ∃ ib', getchar inp ib = (inp.byte d, ib') ∧ Holds inp ib' (d + 1)) ∧
    (¬ More inp.stop d → ∃ ib', getchar inp ib = (0, ib') ∧ Holds inp ib' d) := by
  by_cases hempty : ib.front = ib.tail
  · obtain ⟨ib', hib', h', hempty', hroom⟩ := h.reset hempty
    have hpos : ib'.pos = d := by
      have hpos := h'.pos_eq
      omega
    have hle := inp.chunk_le d (BUFSIZE - ib'.tail)
    unfold getchar
    simp only [if_pos hempty, hib', hpos]
    constructor
    · -- There is room for a chunk, so at least one byte comes.
      intro hmore
      have hcnt := inp.chunk_pos d (BUFSIZE - ib'.tail) hmore (by omega)
      have hfilled := h'.filled hempty' hle (fun e he => by
        rw [hpos]
        exact inp.chunk_stop d _ e he (Nat.le_of_lt (hmore e he)))
      rw [hpos] at hfilled
      have hfirst := hfilled.bytes 0 (by
        show ib'.front + 0 < ib'.tail + _
        omega)
      rw [if_neg (by omega)]
      refine ⟨_, Prod.ext hfirst rfl, hfilled.taken ?_⟩
      show ib'.front < ib'.tail + _
      omega
    · intro hend
      have hcnt : inp.chunk d (BUFSIZE - ib'.tail) = 0 := by
        by_contra hne
        apply hend
        intro e he
        have hle := h'.pos_le e he
        have hstop := inp.chunk_stop d (BUFSIZE - ib'.tail) e he (by omega)
        omega
      rw [if_pos hcnt]
      exact ⟨ib', rfl, h'⟩
  · -- What is in the buffer has been delivered, so the stream is not at its end.
    have hlt : ib.front < ib.tail := Nat.lt_of_le_of_ne h.front_le hempty
    have hmore : More inp.stop d := by
      intro e he
      have hle := h.pos_le e he
      have hpos := h.pos_eq
      omega
    refine ⟨fun _ => ?_, fun hend => absurd hmore hend⟩
    rw [getchar, if_neg hempty]
    exact ⟨_, Prod.ext (h.bytes 0 hlt) rfl, h.taken hlt⟩

/-! ## One line -/

/-- What the loop does with `room` places from `s[i]` on, the stream being at `d`: it takes `len`
    bytes, up to a newline, or all there is room for, or all there are. -/
structure Takes (inp : Stdin) (room d i : Nat) (s : Bytes) (r : Result) (len : Nat) : Prop where
  ret : r.ret = i + len
  le : len ≤ room
  holds : Holds inp r.ib (d + len)
  more : ∀ j, j < len → More inp.stop (d + j)
  first : ∀ j, j + 1 < len → inp.byte (d + j) ≠ newline
  ends : (∃ j, j + 1 = len ∧ inp.byte (d + j) = newline) ∨ len = room ∨ ¬ More inp.stop (d + len)
  bytes : ∀ j, j < len → r.s (i + j) = inp.byte (d + j)
  frame : ∀ k, k < i ∨ i + len ≤ k → r.s k = s k

/-- Nothing is taken. -/
theorem Takes.none (h : Holds inp ib d) {room i : Nat} (s : Bytes)
    (hends : room = 0 ∨ ¬ More inp.stop d) : Takes inp room d i s ⟨i, s, ib⟩ 0 where
  ret := rfl
  le := Nat.zero_le room
  holds := h
  more := by
    intro j hj
    cases hj
  first := by
    intro j hj
    cases hj
  ends := .inr (hends.imp Eq.symm id)
  bytes := by
    intro j hj
    cases hj
  frame := fun _ _ => rfl

/-- One byte is taken and then the rest. -/
theorem Takes.cons {room i len : Nat} {r : Result} (hmore : More inp.stop d)
    (hne : inp.byte d ≠ newline)
    (h : Takes inp room (d + 1) (i + 1) (update s i (inp.byte d)) r len) :
    Takes inp (room + 1) d i s r (len + 1) where
  ret := by
    rw [h.ret]
    omega
  le := Nat.succ_le_succ h.le
  holds := by
    have hholds := h.holds
    rw [Nat.succ_add_eq_add_succ] at hholds
    exact hholds
  more := by
    intro j hj
    cases j with
    | zero => exact hmore
    | succ j =>
      have hj := h.more j (Nat.lt_of_succ_lt_succ hj)
      rw [Nat.succ_add_eq_add_succ] at hj
      exact hj
  first := by
    intro j hj
    cases j with
    | zero => exact hne
    | succ j =>
      have hj := h.first j (Nat.lt_of_succ_lt_succ hj)
      rw [Nat.succ_add_eq_add_succ] at hj
      exact hj
  ends := by
    rcases h.ends with ⟨j, hj, hnl⟩ | hfull | hend
    · refine .inl ⟨j + 1, by omega, ?_⟩
      rw [Nat.succ_add_eq_add_succ] at hnl
      exact hnl
    · exact .inr (.inl (congrArg Nat.succ hfull))
    · rw [Nat.succ_add_eq_add_succ] at hend
      exact .inr (.inr hend)
  bytes := by
    intro j hj
    cases j with
    | zero =>
      rw [Nat.add_zero, Nat.add_zero, h.frame i (.inl (Nat.lt_succ_self i)), update_self]
    | succ j =>
      have hj := h.bytes j (Nat.lt_of_succ_lt_succ hj)
      rw [Nat.succ_add_eq_add_succ, Nat.succ_add_eq_add_succ] at hj
      exact hj
  frame := by
    intro k hk
    rw [h.frame k (by omega), update_of_ne (by omega)]

/-- A newline is taken, and nothing more. -/
theorem Takes.newline {room i : Nat} (h : Holds inp ib (d + 1)) (hmore : More inp.stop d)
    (hnl : inp.byte d = newline) (s : Bytes) :
    Takes inp (room + 1) d i s ⟨i + 1, update s i (inp.byte d), ib⟩ 1 where
  ret := rfl
  le := Nat.succ_le_succ (Nat.zero_le room)
  holds := h
  more := by
    intro j hj
    rw [Nat.lt_one_iff.mp hj]
    exact hmore
  first := by
    intro j hj
    omega
  ends := .inl ⟨0, rfl, hnl⟩
  bytes := by
    intro j hj
    rw [Nat.lt_one_iff.mp hj]
    exact update_self ..
  frame := by
    intro k hk
    exact update_of_ne (by omega) _ _

/-- The two states of the loop do the same. -/
theorem getlineLoop_succ (inp : Stdin) (room state i : Nat) (s : Bytes) (ib : IBuffer) :
    ∃ state', getlineLoop inp (room + 1) state i s ib =
      if (getchar inp ib).1 = 0 then ⟨i, s, (getchar inp ib).2⟩
      else if (getchar inp ib).1 = newline then
        ⟨i + 1, update s i (getchar inp ib).1, (getchar inp ib).2⟩
      else getlineLoop inp room state' (i + 1) (update s i (getchar inp ib).1)
        (getchar inp ib).2 := by
  by_cases hstate : state = 0
  · refine ⟨1, ?_⟩
    simp only [getlineLoop, if_pos hstate]
    rw [ite_not]
  · refine ⟨state, ?_⟩
    simp only [getlineLoop, if_neg hstate]

theorem getlineLoop_spec (h : Holds inp ib d) (room state i : Nat) (s : Bytes) :
    ∃ len, Takes inp room d i s (getlineLoop inp room state i s ib) len := by
  induction room generalizing state i s ib d with
  | zero => exact ⟨0, Takes.none h s (.inl rfl)⟩
  | succ room ih =>
    obtain ⟨state', hloop⟩ := getlineLoop_succ inp room state i s ib
    rw [hloop]
    by_cases hmore : More inp.stop d
    · obtain ⟨ib', hget, h'⟩ := (getchar_spec h).1 hmore
      simp only [hget, if_neg (inp.byte_ne d hmore)]
      by_cases hnl : inp.byte d = newline
      · rw [if_pos hnl]
        exact ⟨1, Takes.newline h' hmore hnl s⟩
      · rw [if_neg hnl]
        obtain ⟨len, hlen⟩ := ih h' state' (i + 1) (update s i (inp.byte d))
        exact ⟨len + 1, Takes.cons hmore hnl hlen⟩
    · obtain ⟨ib', hget, h'⟩ := (getchar_spec h).2 hmore
      rw [hget]
      exact ⟨0, Takes.none h' s (.inr hmore)⟩

/-- What a call does: a piece of the stream, of `n` bytes at most, and a NUL behind it. -/
structure Line (inp : Stdin) (n d : Nat) (s : Bytes) (r : Result) : Prop where
  le : r.ret ≤ n
  holds : Holds inp r.ib (d + r.ret)
  more : ∀ j, j < r.ret → More inp.stop (d + j)
  first : ∀ j, j + 1 < r.ret → inp.byte (d + j) ≠ newline
  ends : (∃ j, j + 1 = r.ret ∧ inp.byte (d + j) = newline) ∨ r.ret = n ∨
    ¬ More inp.stop (d + r.ret)
  bytes : ∀ j, j < r.ret → r.s j = inp.byte (d + j)
  nul : r.s r.ret = 0
  frame : ∀ k, r.ret < k → r.s k = s k

theorem getline_spec (h : Holds inp ib d) (n : Nat) (s : Bytes) :
    Line inp n d s (getline inp s n ib) := by
  obtain ⟨len, hlen⟩ := getlineLoop_spec h n 0 0 s
  have hret : (getlineLoop inp n 0 0 s ib).ret = len := by
    rw [hlen.ret, Nat.zero_add]
  simp only [getline, hret]
  refine ⟨hlen.le, hlen.holds, hlen.more, hlen.first, hlen.ends, ?_, ?_, ?_⟩
  · intro j hj
    have hj : j < len := hj
    have hbyte := hlen.bytes j hj
    rw [Nat.zero_add] at hbyte
    show update _ len 0 j = _
    rw [update_of_ne (by omega), hbyte]
  · exact update_self ..
  · intro k hk
    have hk : len < k := hk
    show update _ len 0 k = _
    rw [update_of_ne (by omega), hlen.frame k (by omega)]

/-! ## One call after the other -/

/-- Where the stream is before call `k`. -/
def start (inp : Stdin) (n : Nat) (s : Bytes) : Nat → Nat
  | 0 => 0
  | k + 1 => start inp n s k + (call inp n s k).ret

theorem run_holds (inp : Stdin) (n : Nat) (s : Bytes) (k : Nat) :
    Holds inp (run inp n s k).2 (start inp n s k) := by
  induction k with
  | zero => exact holds_init inp
  | succ k ih => exact (getline_spec ih n _).holds

theorem call_line (inp : Stdin) (n : Nat) (s : Bytes) (k : Nat) :
    Line inp n (start inp n s k) (run inp n s k).1 (call inp n s k) :=
  getline_spec (run_holds inp n s k) n _

/-- A short line is taken with its end. -/
theorem Line.short {r : Result} (h : Line inp n d s r) (hn : 0 < n)
    (hshort : More inp.stop d → ShortLine inp n d) : r.ret < n := by
  by_cases hmore : More inp.stop d
  · rcases hshort hmore with ⟨j, hj, -, hnl⟩ | hend
    · by_contra hlong
      exact h.first j (by omega) hnl
    · by_contra hlong
      exact hend (h.more (n - 1) (by omega))
  · by_contra hlong
    exact hmore (h.more 0 (by omega))

/-- What follows a line that has been taken with its end is the start of another. -/
theorem Line.next {r : Result} (h : Line inp n d s r) (hlt : r.ret < n)
    (hmore : More inp.stop (d + r.ret)) : LineStart inp (d + r.ret) := by
  refine ⟨hmore, fun d' hd' => ?_⟩
  rcases h.ends with ⟨j, hj, hnl⟩ | hfull | hend
  · have hpos : d' = d + j := by omega
    rw [hpos]
    exact hnl
  · omega
  · exact absurd hmore hend

/-- If all lines are short, every call begins at the start of a line. -/
theorem start_line (hn : 0 < n) (hshort : ∀ d, LineStart inp d → ShortLine inp n d) (s : Bytes)
    (k : Nat) : More inp.stop (start inp n s k) → LineStart inp (start inp n s k) := by
  induction k with
  | zero =>
    intro hmore
    refine ⟨hmore, fun d' hd' => ?_⟩
    cases hd'
  | succ k ih =>
    have hline := call_line inp n s k
    exact hline.next (hline.short hn fun hmore => hshort _ (ih hmore))

/-- All bytes are taken sooner or later. -/
theorem start_covers (hstep : ∀ k, More inp.stop (start inp n s k) → 0 < (call inp n s k).ret)
    (hmore : More inp.stop d) : ∃ k, start inp n s k ≤ d ∧ d < start inp n s (k + 1) := by
  -- Otherwise every call would begin at `d` or before, and each begins behind the one before it.
  by_contra hnone
  have hle : ∀ k, k ≤ start inp n s k ∧ start inp n s k ≤ d := by
    intro k
    induction k with
    | zero => exact ⟨Nat.zero_le _, Nat.zero_le _⟩
    | succ k ih =>
      have hpos := hstep k (more_of_le hmore ih.2)
      have hstart : start inp n s (k + 1) = start inp n s k + (call inp n s k).ret := rfl
      refine ⟨by omega, ?_⟩
      by_contra hlt
      exact hnone ⟨k, ih.2, Nat.lt_of_not_le hlt⟩
  have hfar := hle (d + 1)
  omega

theorem splits_of_short (hn : 0 < n) (hshort : ∀ d, LineStart inp d → ShortLine inp n d)
    (s : Bytes) : Splits inp n s := by
  have hlt : ∀ k, (call inp n s k).ret < n := fun k =>
    (call_line inp n s k).short hn fun hmore => hshort _ (start_line hn hshort s k hmore)
  refine ⟨start inp n s, rfl, fun _ => rfl, fun k => ?_, fun k => (call_line inp n s k).bytes,
    fun k => (call_line inp n s k).nul, fun d hmore => start_covers (fun k hk => ?_) hmore,
    fun k j hj => (call_line inp n s k).frame j (Nat.lt_of_lt_of_le (hlt k) hj)⟩
  · have hline := call_line inp n s k
    refine ⟨hline.more, hline.first, ?_⟩
    rcases hline.ends with hnl | hfull | hend
    · exact .inl hnl
    · exact absurd hfull (Nat.ne_of_lt (hlt k))
    · exact .inr (.inr hend)
  · rcases (call_line inp n s k).ends with ⟨j, hj, -⟩ | hfull | hend
    · omega
    · exact absurd hfull (Nat.ne_of_lt (hlt k))
    · by_contra hzero
      have hret : (call inp n s k).ret = 0 := by omega
      rw [hret] at hend
      exact hend hk

/-- A call that writes no further than to `s[n - 1]` returns less than `n`. -/
theorem ret_lt_of_splits {s : Bytes} (hs : s n ≠ 0) (h : Splits inp n s) (k : Nat) :
    (call inp n s k).ret < n := by
  obtain ⟨_, -, -, -, -, -, -, hframe⟩ := h
  have hkept : ∀ k, (run inp n s k).1 n = s n := by
    intro k
    induction k with
    | zero => rfl
    | succ k ih => exact (hframe k n (Nat.le_refl n)).trans ih
  have hline := call_line inp n s k
  apply Nat.lt_of_le_of_ne hline.le
  intro hret
  have hnul := hline.nul
  rw [hret, hframe k n (Nat.le_refl n), hkept k] at hnul
  exact hs hnul

theorem short_of_splits {s : Bytes} (hs : s n ≠ 0) (h : Splits inp n s) (hline : LineStart inp d) :
    ShortLine inp n d := by
  have hlt := ret_lt_of_splits hs h
  obtain ⟨pos, hzero, hsucc, -, -, -, hcovers, -⟩ := h
  have hpos : ∀ k, pos k = start inp n s k := by
    intro k
    induction k with
    | zero => exact hzero
    | succ k ih => rw [hsucc, ih, start]
  obtain ⟨k, hle, hbefore⟩ := hcovers d hline.1
  rw [hpos] at hle
  rw [hsucc, hpos] at hbefore
  have hcall := call_line inp n s k
  -- No piece goes on behind the end of a line, so this one begins where the line does.
  obtain rfl : d = start inp n s k := by
    by_contra hne
    obtain ⟨j, hj⟩ : ∃ j, start inp n s k + j + 1 = d := ⟨d - 1 - start inp n s k, by omega⟩
    exact hcall.first j (by omega) (hline.2 _ hj)
  rcases hcall.ends with ⟨j, hj, hnl⟩ | hfull | hend
  · have hret := hlt k
    exact .inl ⟨j, by omega, hcall.more j (by omega), hnl⟩
  · exact absurd hfull (Nat.ne_of_lt (hlt k))
  · have hret := hlt k
    exact .inr fun hmore => hend (more_of_le hmore (by omega))

end Calls

/-- The input is lossless and bounded if and only if every line of the stream, with its newline, has
    fewer than `n` bytes. -/
theorem getline_lossless (inp : Stdin) {n : Nat} (hn : 0 < n) :
    Lossless inp n ↔ ∀ d, LineStart inp d → ShortLine inp n d := by
  constructor
  · intro h d hline
    have hs : (fun _ => 1 : Bytes) n ≠ 0 := by
      show (1 : UInt8) ≠ 0
      decide
    exact short_of_splits hs (h fun _ => 1) hline
  · intro hshort s
    exact splits_of_short hn hshort s

/-- Lines of `len` letters for ever; `read` delivers all that it is asked for. -/
def letters (len : Nat) : Stdin where
  byte := fun d => if d % (len + 1) = len then newline else 97
  stop := none
  chunk := fun _ k => k
  byte_ne := by
    intro d _
    split <;> decide
  chunk_pos := fun _ _ _ hk => hk
  chunk_le := fun _ k => Nat.le_refl k
  chunk_stop := by
    intro d k e he
    cases he

theorem letters_byte (len d : Nat) :
    (letters len).byte d = newline ↔ d % (len + 1) = len := by
  show (if _ then newline else (97 : UInt8)) = newline ↔ _
  split
  · next h => exact iff_of_true rfl h
  · next h => exact iff_of_false (by decide) h

theorem getline_lossless_letters : Lossless (letters 1) LINE_MAX := by
  refine (getline_lossless (letters 1) (by decide)).mpr fun d _ => .inl ?_
  have hmore : ∀ d, More (letters 1).stop d := by
    intro d e he
    cases he
  rcases Nat.mod_two_eq_zero_or_one d with hd | hd
  · exact ⟨1, by decide, hmore _, (letters_byte 1 _).mpr (by omega)⟩
  · exact ⟨0, by decide, hmore _, (letters_byte 1 _).mpr hd⟩

/-- The line of `ksh`: 999 letters and a newline fill `cmdbuf`, and the NUL goes behind it. -/
theorem getline_writes_behind : ¬ ∀ (inp : Stdin) (n : Nat), 0 < n → Lossless inp n := by
  intro h
  have hmore : ∀ d, More (letters 999).stop d := by
    intro d e he
    cases he
  have hline : LineStart (letters 999) 0 := by
    refine ⟨hmore 0, fun d' hd' => ?_⟩
    cases hd'
  have hs : (fun _ => 1 : Bytes) LINE_MAX ≠ 0 := by
    show (1 : UInt8) ≠ 0
    decide
  have hsplits := h (letters 999) LINE_MAX (by decide) fun _ => 1
  rcases short_of_splits hs hsplits hline with ⟨j, hj, -, hnl⟩ | hend
  · have hj : j + 1 < 1000 := hj
    have hmod := (letters_byte 999 _).mp hnl
    omega
  · exact hend (hmore _)

end Uniks.GetLine
