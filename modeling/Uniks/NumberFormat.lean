/-
  `number` of `user/libs/ustdio.c` and the conversions of `vsprintf` that call it.

  A `long` is a `BitVec 64` and an `int` a `BitVec 32`, whose arithmetic wraps around.  The flags
  are a record instead of a mask.  `number` returns what it has written behind `str`, `none` being
  `NULL`.  The digits are kept in `tmp`, which has room for 36; an index into the table of digits
  that is negative is a read in front of it.
-/
import Mathlib.Data.List.Basic
import Mathlib.Tactic.Ring
import Mathlib.Data.BitVec

namespace Uniks.NumberFormat

inductive Stop where
  | overrun
  | wildRead
  deriving DecidableEq

structure Flags where
  zeropad : Bool := false
  sign : Bool := false
  plus : Bool := false
  space : Bool := false
  left : Bool := false
  special : Bool := false
  small : Bool := false
  deriving DecidableEq

abbrev Text := List Char

/-! ## The code -/

/-- The table of digits. -/
def digits (flags : Flags) : Text :=
  if flags.small then "0123456789abcdefghijklmnopqrstuvwxyz".toList
  else "0123456789ABCDEFGHIJKLMNOPQRSTUVWXYZ".toList

/-- The loop `while (num != 0)`: what it puts into `tmp`, where there are `room` places left. -/
def digitsLoop (table : Text) (base : Int) : Nat → Int → Except Stop Text
  | 0, num => if num = 0 then .ok [] else .error .overrun
  | room + 1, num =>
    if num = 0 then .ok []
    -- The remainder has the sign of `num`, and it is the index.
    else if num.tmod base < 0 then .error .wildRead
    else
      match digitsLoop table base room (num.tdiv base) with
      | .ok tmp => .ok (table.getD (num.tmod base).toNat '0' :: tmp)
      | .error e => .error e

/-- The loop `while (size-- > 0) *str++ = c`: what it writes, and `size` afterwards. -/
def fill (c : Char) (size : BitVec 32) : Text × BitVec 32 :=
  if size.toInt > 0 then (List.replicate size.toInt.toNat c, -1) else ([], size - 1)

/-- The character in front of the digits, if there is one. -/
def signOf (negative : Bool) (flags : Flags) : Option Char :=
  if negative then some '-'
  else if flags.plus then some '+'
  else if flags.space then some ' '
  else none

/-- What `SPECIAL` puts behind the sign. -/
def leader (base : Int) (flags : Flags) : Text :=
  if flags.special then
    if base = 8 then ['0']
    else if base = 16 then ['0', (digits flags).getD 33 '0']
    else []
  else []

/-- What is in `tmp` when the digits are done. -/
def tmpOf (table : Text) (base num : Int) : Except Stop Text :=
  if num = 0 then .ok ['0'] else digitsLoop table base 36 num

/-- The second half of `number`: all that it writes, once the digits are in `tmp`. -/
def printed (base : Int) (size precision : BitVec 32) (flags : Flags) (negative : Bool)
    (tmp : Text) : Text :=
  let pad := if flags.zeropad then '0' else ' '
  let sign := signOf negative flags
  let size := if sign.isSome then size - 1 else size
  let size := if flags.special then
      if base = 16 then size - 2 else if base = 8 then size - 1 else size
    else size
  let precision := if tmp.length > precision.toInt then BitVec.ofNat 32 tmp.length else precision
  let size := size - precision
  let front := if !(flags.zeropad || flags.left) then fill ' ' size else ([], size)
  let pads := if !flags.left then fill pad front.2 else ([], front.2)
  let zeros := List.replicate (precision.toInt - tmp.length).toNat '0'
  -- Where the padding has been written, `size` is negative.
  let back := fill ' ' pads.2
  front.1 ++ sign.toList ++ leader base flags ++ pads.1 ++ zeros ++ tmp.reverse ++ back.1

/-- The source's `number`. -/
def number (num : BitVec 64) (base : Int) (size precision : BitVec 32) (flags : Flags) :
    Except Stop (Option Text) :=
  let flags := if flags.left then { flags with zeropad := false } else flags
  if base < 2 ∨ base > 36 then .ok none
  else
    let negative := flags.sign && decide (num.toInt < 0)
    -- The least `long` stays as it is.
    let num := if negative then -num else num
    match tmpOf (digits flags) base num.toInt with
    | .error e => .error e
    | .ok tmp => .ok (some (printed base size precision flags negative tmp))

/-- The conversions of `vsprintf` that print a number. -/
def convert (fmt : Char) (num : BitVec 64) (fieldWidth precision : BitVec 32) (flags : Flags) :
    Option (Except Stop (Option Text)) :=
  match fmt with
  | 'o' => some (number num 8 fieldWidth precision flags)
  | 'p' =>
    let flags := { flags with special := true, small := true }
    if fieldWidth = -1 then some (number num 16 16 precision { flags with zeropad := true })
    else some (number num 16 fieldWidth precision flags)
  | 'x' => some (number num 16 fieldWidth precision { flags with small := true })
  | 'X' => some (number num 16 fieldWidth precision flags)
  | 'd' => some (number num 10 fieldWidth precision { flags with sign := true })
  | 'i' => some (number num 10 fieldWidth precision { flags with sign := true })
  | 'u' => some (number num 10 fieldWidth precision flags)
  | 'b' => some (number num 2 fieldWidth precision flags)
  | _ => none

/-! ## What a text denotes -/

def digitValue (c : Char) : Option Nat :=
  if '0' ≤ c ∧ c ≤ '9' then some (c.toNat - '0'.toNat)
  else if 'A' ≤ c ∧ c ≤ 'Z' then some (c.toNat - 'A'.toNat + 10)
  else if 'a' ≤ c ∧ c ≤ 'z' then some (c.toNat - 'a'.toNat + 10)
  else none

/-- One digit more behind a number. -/
def shift (base : Nat) (v : Option Nat) (c : Char) : Option Nat :=
  match v, digitValue c with
  | some v, some d => if d < base then some (v * base + d) else none
  | _, _ => none

/-- The number that digits denote in a base. -/
def valueOf (base : Nat) (l : Text) : Option Nat := l.foldl (shift base) (some 0)

/-- A text without its padding. -/
def unpadded (l : Text) : Text := l.filter (· ≠ ' ')

/-- Take off a sign: whether it is a minus, and the rest. -/
def takeSign : Text → Bool × Text
  | [] => (false, [])
  | c :: l => if c = '-' then (true, l) else if c = '+' then (false, l) else (false, c :: l)

/-- The number of characters that `SPECIAL` puts in front of the digits. -/
def leaderLength (base : Nat) (flags : Flags) : Nat :=
  if flags.special then if base = 8 then 1 else if base = 16 then 2 else 0 else 0

/-- What the digits denote, after the padding, the sign and the characters of `SPECIAL`. -/
def denoted (base : Nat) (flags : Flags) (out : Text) : Option Int :=
  let signed := takeSign (unpadded out)
  let l := signed.2.drop (leaderLength base flags)
  match valueOf base l with
  | some v => if l = [] then none else some (if signed.1 then -(v : Int) else v)
  | none => none

/-- The value of the argument: signed with `SIGN`, unsigned without. -/
def argument (flags : Flags) (num : BitVec 64) : Int :=
  if flags.sign then num.toInt else num.toNat

/-- The number that is printed is the argument, and `tmp` has room for its digits. -/
def Formats (num : BitVec 64) (base : Int) (size precision : BitVec 32) (flags : Flags) : Prop :=
  ∃ out, number num base size precision flags = .ok (some out) ∧
    denoted base.toNat flags out = some (argument flags num)

/-! ## The digits -/

section Digits

variable {b : Nat} {flags : Flags}

/-- A character that is neither padding nor a sign. -/
def Plain (c : Char) : Prop := c ≠ ' ' ∧ c ≠ '-' ∧ c ≠ '+'

theorem plain_zero : Plain '0' := by
  refine ⟨?_, ?_, ?_⟩ <;> decide

theorem digitValue_digits (flags : Flags) {k : Nat} (hk : k < 36) :
    digitValue ((digits flags).getD k '0') = some k := by
  unfold digits
  split
  · have htable : ∀ k : Fin 36, digitValue
        ("0123456789abcdefghijklmnopqrstuvwxyz".toList.getD k '0') = some k.val := by
      decide
    exact htable ⟨k, hk⟩
  · have htable : ∀ k : Fin 36, digitValue
        ("0123456789ABCDEFGHIJKLMNOPQRSTUVWXYZ".toList.getD k '0') = some k.val := by
      decide
    exact htable ⟨k, hk⟩

theorem plain_digits (flags : Flags) {k : Nat} (hk : k < 36) :
    Plain ((digits flags).getD k '0') := by
  have hvalue := digitValue_digits flags hk
  refine ⟨?_, ?_, ?_⟩
  all_goals
    intro hc
    rw [hc] at hvalue
    cases hvalue

theorem valueOf_append (b : Nat) (l : Text) (c : Char) :
    valueOf b (l ++ [c]) = shift b (valueOf b l) c := by
  show (l ++ [c]).foldl _ _ = _
  rw [List.foldl_append]
  rfl

/-- Zeros in front do not count. -/
theorem valueOf_zeros (hb : 2 ≤ b) (n : Nat) (l : Text) :
    valueOf b (List.replicate n '0' ++ l) = valueOf b l := by
  have hzero : shift b (some 0) '0' = some 0 := by
    show (if 0 < b then some (0 * b + 0) else none) = some 0
    rw [if_pos (by omega), Nat.zero_mul]
  induction n with
  | zero => rfl
  | succ n ih =>
    show (List.replicate n '0' ++ l).foldl (shift b) (shift b (some 0) '0') = _
    rw [hzero]
    exact ih

/-- What is in `tmp`: the digits of a number, the lowest first. -/
structure DigitsOf (b : Nat) (n : Nat) (tmp : Text) : Prop where
  value : valueOf b tmp.reverse = some n
  plain : ∀ c ∈ tmp, Plain c

theorem DigitsOf.cons (hb : b ≤ 36) (hbpos : 2 ≤ b) {n : Nat} {tmp : Text}
    (h : DigitsOf b (n / b) tmp) (flags : Flags) :
    DigitsOf b n ((digits flags).getD (n % b) '0' :: tmp) := by
  have hdigit : n % b < b := Nat.mod_lt n (by omega)
  constructor
  · have hshift : shift b (some (n / b)) ((digits flags).getD (n % b) '0')
        = some (n / b * b + n % b) := by
      unfold shift
      rw [digitValue_digits flags (Nat.lt_of_lt_of_le hdigit hb)]
      exact if_pos hdigit
    rw [List.reverse_cons, valueOf_append, h.value, hshift, Nat.div_add_mod']
  · intro c hc
    rcases List.mem_cons.mp hc with rfl | hc
    · exact plain_digits flags (Nat.lt_of_lt_of_le hdigit hb)
    · exact h.plain c hc

theorem digitsLoop_step {table : Text} {room n : Nat} (hn : n ≠ 0) :
    digitsLoop table b (room + 1) n = match digitsLoop table b room (n / b : Nat) with
      | .ok tmp => .ok (table.getD (n % b) '0' :: tmp)
      | .error e => .error e := by
  have hmod : (n : Int).tmod b = (n % b : Nat) := rfl
  have hdiv : (n : Int).tdiv b = (n / b : Nat) := rfl
  rw [digitsLoop, if_neg (by omega), hmod, hdiv, if_neg (by omega), Int.toNat_natCast]

/-- The loop puts the digits of a number into `tmp`, or finds no room for them. -/
theorem digitsLoop_spec (hb : b ≤ 36) (hbpos : 2 ≤ b) (flags : Flags) (room n : Nat) :
    (n < b ^ room → ∃ tmp, digitsLoop (digits flags) b room n = .ok tmp ∧ DigitsOf b n tmp ∧
      (n ≠ 0 → tmp ≠ [])) ∧
    (b ^ room ≤ n → digitsLoop (digits flags) b room n = .error .overrun) := by
  have hempty : DigitsOf b 0 [] := ⟨rfl, by intro c hc; cases hc⟩
  induction room generalizing n with
  | zero =>
    constructor
    · intro hn
      obtain rfl : n = 0 := by
        rw [Nat.pow_zero] at hn
        omega
      exact ⟨[], rfl, hempty, fun h => absurd rfl h⟩
    · intro hn
      rw [Nat.pow_zero] at hn
      rw [digitsLoop, if_neg (by omega)]
  | succ room ih =>
    obtain ⟨ihok, iherror⟩ := ih (n / b)
    by_cases hzero : n = 0
    · subst hzero
      refine ⟨fun _ => ⟨[], rfl, hempty, fun h => absurd rfl h⟩, fun h => ?_⟩
      have hpos : 0 < b ^ (room + 1) := Nat.pow_pos (by omega)
      omega
    · rw [digitsLoop_step hzero, Nat.pow_succ]
      constructor
      · intro hn
        obtain ⟨tmp, hloop, htmp, -⟩ := ihok (Nat.div_lt_of_lt_mul (by
          rw [Nat.mul_comm]
          exact hn))
        rw [hloop]
        exact ⟨_, rfl, htmp.cons hb hbpos flags, fun _ => List.cons_ne_nil _ _⟩
      · intro hn
        rw [iherror ((Nat.le_div_iff_mul_le (by omega)).mpr hn)]

/-- The digits of a negative number are negative. -/
theorem digitsLoop_negative {table : Text} {base : Int} (hbase : 2 ≤ base) (room : Nat) {num : Int}
    (hnum : num < 0) : ∃ e, digitsLoop table base room num = .error e := by
  induction room generalizing num with
  | zero => exact ⟨.overrun, by rw [digitsLoop, if_neg (by omega)]⟩
  | succ room ih =>
    rw [digitsLoop, if_neg (by omega)]
    by_cases hindex : num.tmod base < 0
    · exact ⟨.wildRead, if_pos hindex⟩
    · -- The last digit is zero, so there is something left of the number.
      have hdivide : base * num.tdiv base + num.tmod base = num := Int.mul_tdiv_add_tmod num base
      have hmod : 0 ≤ (-num).tmod base := Int.tmod_nonneg base (by omega)
      rw [Int.neg_tmod] at hmod
      have hquotient : num.tdiv base < 0 := by
        by_contra hge
        have hprod : 0 ≤ base * num.tdiv base := Int.mul_nonneg (by omega) (by omega)
        omega
      obtain ⟨e, he⟩ := ih hquotient
      rw [if_neg hindex, he]
      exact ⟨e, rfl⟩

end Digits

/-! ## The text -/

section Printed

variable {b : Nat} {flags : Flags}

theorem unpadded_plain {l : Text} (h : ∀ c ∈ l, Plain c) : unpadded l = l := by
  apply List.filter_eq_self.mpr
  intro c hc
  exact decide_eq_true (h c hc).1

theorem unpadded_spaces (n : Nat) : unpadded (List.replicate n ' ') = [] := by
  apply List.filter_eq_nil_iff.mpr
  intro c hc
  rw [List.eq_of_mem_replicate hc]
  decide

theorem plain_zeros (n : Nat) : ∀ c ∈ List.replicate n '0', Plain c := by
  intro c hc
  rw [List.eq_of_mem_replicate hc]
  exact plain_zero

theorem unpadded_fill (size : BitVec 32) : unpadded (fill ' ' size).1 = [] := by
  unfold fill
  split
  · exact unpadded_spaces _
  · rfl

/-- In front of the digits the padding is spaces, which do not count, or zeros. -/
theorem unpadded_pad (zeropad : Bool) (size : BitVec 32) :
    ∃ n, unpadded (fill (if zeropad then '0' else ' ') size).1 = List.replicate n '0' := by
  cases zeropad with
  | false => exact ⟨0, unpadded_fill size⟩
  | true =>
    by_cases hsize : size.toInt > 0
    · refine ⟨size.toInt.toNat, ?_⟩
      show unpadded (fill '0' size).1 = _
      rw [fill, if_pos hsize]
      exact unpadded_plain (plain_zeros _)
    · refine ⟨0, ?_⟩
      show unpadded (fill '0' size).1 = _
      rw [fill, if_neg hsize]
      rfl

theorem plain_leader (base : Int) (flags : Flags) : ∀ c ∈ leader base flags, Plain c := by
  have hx : Plain ((digits flags).getD 33 '0') := plain_digits flags (by decide)
  intro c hc
  unfold leader at hc
  split at hc
  · split at hc
    · rw [List.mem_singleton.mp hc]
      exact plain_zero
    · split at hc
      · rcases List.mem_cons.mp hc with rfl | hc
        · exact plain_zero
        · rw [List.mem_singleton.mp hc]
          exact hx
      · cases hc
  · cases hc

theorem leader_length (b : Nat) (flags : Flags) :
    (leader b flags).length = leaderLength b flags := by
  unfold leader leaderLength
  split
  · by_cases h8 : b = 8
    · subst h8
      rfl
    · rw [if_neg (by omega), if_neg h8]
      by_cases h16 : b = 16
      · subst h16
        rfl
      · rw [if_neg (by omega), if_neg h16]
        rfl
  · rfl

theorem takeSign_plain {l : Text} (h : ∀ c ∈ l, Plain c) : takeSign l = (false, l) := by
  cases l with
  | nil => rfl
  | cons c l =>
    obtain ⟨-, hminus, hplus⟩ := h c List.mem_cons_self
    rw [takeSign, if_neg hminus, if_neg hplus]

/-- The sign is a minus or does not count. -/
theorem takeSign_signOf (negative : Bool) (flags : Flags) {l : Text} (h : ∀ c ∈ l, Plain c) :
    takeSign (unpadded (signOf negative flags).toList ++ l) = (negative, l) := by
  cases negative with
  | true => rfl
  | false =>
    cases hplus : flags.plus with
    | true =>
      have hsign : signOf false flags = some '+' := by simp [signOf, hplus]
      rw [hsign]
      rfl
    | false =>
      cases hspace : flags.space with
      | true =>
        have hsign : signOf false flags = some ' ' := by simp [signOf, hplus, hspace]
        rw [hsign]
        exact takeSign_plain h
      | false =>
        have hsign : signOf false flags = none := by simp [signOf, hplus, hspace]
        rw [hsign]
        exact takeSign_plain h

/-- What a text of this form denotes. -/
theorem denoted_eq (flags : Flags) {out : Text} {negative : Bool} {zeros n : Nat} {tmp : Text}
    (hbpos : 2 ≤ b)
    (hout : unpadded out = unpadded (signOf negative flags).toList ++
      (leader b flags ++ (List.replicate zeros '0' ++ tmp.reverse)))
    (htmp : DigitsOf b n tmp) (hne : tmp ≠ []) :
    denoted b flags out = some (if negative then -(n : Int) else n) := by
  have hplain : ∀ c ∈ leader b flags ++ (List.replicate zeros '0' ++ tmp.reverse), Plain c := by
    intro c hc
    rcases List.mem_append.mp hc with hc | hc
    · exact plain_leader b flags c hc
    · rcases List.mem_append.mp hc with hc | hc
      · exact plain_zeros zeros c hc
      · exact htmp.plain c (List.mem_reverse.mp hc)
  have hsign := takeSign_signOf negative flags hplain
  have hdrop : (leader b flags ++ (List.replicate zeros '0' ++ tmp.reverse)).drop
      (leaderLength b flags) = List.replicate zeros '0' ++ tmp.reverse := by
    rw [← leader_length]
    exact List.drop_left
  have hnil : List.replicate zeros '0' ++ tmp.reverse ≠ [] := by
    intro h
    exact hne (List.reverse_eq_nil_iff.mp (List.append_eq_nil_iff.mp h).2)
  rw [denoted, hout, hsign]
  simp only [hdrop, valueOf_zeros hbpos, htmp.value, if_neg hnil]

/-- Without its padding a text has the sign, the characters of `SPECIAL` and the digits, with zeros
    in front of them. -/
theorem unpadded_printed (base : Int) (size precision : BitVec 32) (flags : Flags)
    (negative : Bool) {tmp : Text} (htmp : ∀ c ∈ tmp, Plain c) :
    ∃ zeros, unpadded (printed base size precision flags negative tmp) =
      unpadded (signOf negative flags).toList ++
        (leader base flags ++ (List.replicate zeros '0' ++ tmp.reverse)) := by
  have hfront : ∀ (c : Bool) size, unpadded (if c then fill ' ' size else ([], size)).1 = [] := by
    intro c size
    cases c with
    | false => rfl
    | true => exact unpadded_fill size
  have hpads : ∀ (c : Bool) size, ∃ n,
      unpadded (if c then fill (if flags.zeropad then '0' else ' ') size else ([], size)).1
        = List.replicate n '0' := by
    intro c size
    cases c with
    | false => exact ⟨0, rfl⟩
    | true => exact unpadded_pad flags.zeropad size
  have happend : ∀ l l' : Text, unpadded (l ++ l') = unpadded l ++ unpadded l' :=
    fun l l' => List.filter_append l l'
  have hdigits : unpadded tmp.reverse = tmp.reverse := by
    apply unpadded_plain
    intro c hc
    exact htmp c (List.mem_reverse.mp hc)
  have hmerge : ∀ n k, List.replicate n '0' ++ (List.replicate k '0' ++ tmp.reverse)
      = List.replicate (n + k) '0' ++ tmp.reverse := by
    intro n k
    rw [← List.append_assoc, List.replicate_append_replicate]
  unfold printed
  simp only [happend, hfront, unpadded_fill, hdigits, unpadded_plain (plain_leader base flags),
    unpadded_plain (plain_zeros _)]
  obtain ⟨n, hn⟩ := hpads _ _
  rw [hn]
  simp only [List.nil_append, List.append_nil, List.append_assoc, hmerge]
  exact ⟨_, rfl⟩

end Printed

/-! ## What is printed -/

section Formatting

variable {base : Int}

/-- The number whose digits are printed. -/
def magnitude (flags : Flags) (num : BitVec 64) : BitVec 64 :=
  if flags.sign && decide (num.toInt < 0) then -num else num

/-- The digits come from the loop, or are one zero. -/
theorem tmpOf_spec {b : Nat} (hb : b ≤ 36) (hbpos : 2 ≤ b) (flags : Flags) (num : Int) :
    (0 ≤ num → num < (b : Int) ^ 36 → ∃ tmp, tmpOf (digits flags) b num = .ok tmp ∧
      DigitsOf b num.toNat tmp ∧ tmp ≠ []) ∧
    (num < 0 ∨ (b : Int) ^ 36 ≤ num → ∃ e, tmpOf (digits flags) b num = .error e) := by
  have hpow : (b : Int) ^ 36 = (b ^ 36 : Nat) := by
    push_cast
    rfl
  have hpos : 0 < b ^ 36 := Nat.pow_pos (by omega)
  rw [hpow]
  constructor
  · intro hnum hlt
    obtain ⟨n, rfl⟩ := Int.eq_ofNat_of_zero_le hnum
    by_cases hzero : n = 0
    · subst hzero
      refine ⟨['0'], rfl, ⟨?_, ?_⟩, by decide⟩
      · show valueOf b (List.replicate 1 '0' ++ []) = _
        rw [valueOf_zeros hbpos]
        rfl
      · exact plain_zeros 1
    · obtain ⟨tmp, hloop, htmp, hne⟩ :=
        (digitsLoop_spec hb hbpos flags 36 n).1 (by omega)
      rw [tmpOf, if_neg (by omega)]
      exact ⟨tmp, hloop, htmp, hne hzero⟩
  · rintro (hneg | hlarge)
    · rw [tmpOf, if_neg (by omega)]
      exact digitsLoop_negative (by omega) 36 hneg
    · obtain ⟨n, rfl⟩ := Int.eq_ofNat_of_zero_le (by omega : 0 ≤ num)
      rw [tmpOf, if_neg (by omega)]
      exact ⟨_, (digitsLoop_spec hb hbpos flags 36 n).2 (by omega)⟩

/-- `ZEROPAD` makes no difference to the digits. -/
theorem number_eq (num : BitVec 64) (hbase : 2 ≤ base) (hbase' : base ≤ 36)
    (size precision : BitVec 32) (flags : Flags) :
    ∃ zeropad, number num base size precision flags =
      match tmpOf (digits flags) base (magnitude flags num).toInt with
      | .error e => .error e
      | .ok tmp => .ok (some (printed base size precision { flags with zeropad := zeropad }
          (flags.sign && decide (num.toInt < 0)) tmp)) := by
  obtain ⟨zeropad, hflags⟩ : ∃ zeropad,
      (if flags.left then { flags with zeropad := false } else flags)
        = { flags with zeropad := zeropad } := by
    split
    · exact ⟨false, rfl⟩
    · exact ⟨flags.zeropad, rfl⟩
  refine ⟨zeropad, ?_⟩
  have hnot : ¬ (base < 2 ∨ base > 36) := by omega
  simp only [number, hflags, if_neg hnot]
  rfl

/-- The argument in terms of the number that is printed, which is negative if the argument is the
    least `long` or is unsigned and does not fit into a `long`. -/
theorem argument_magnitude (flags : Flags) (num : BitVec 64) :
    (0 ≤ (magnitude flags num).toInt ∧ argument flags num =
        (if flags.sign && decide (num.toInt < 0) then -(magnitude flags num).toInt
          else (magnitude flags num).toInt) ∧
      |argument flags num| = (magnitude flags num).toInt ∧ |argument flags num| < 2 ^ 63) ∨
    ((magnitude flags num).toInt < 0 ∧ 2 ^ 63 ≤ |argument flags num|) := by
  have hlt := num.isLt
  have hint := BitVec.toInt_eq_toNat_cond num
  have hneg := BitVec.toInt_eq_toNat_cond (-num)
  have hnegNat : (-num).toNat = (2 ^ 64 - num.toNat) % 2 ^ 64 := BitVec.toNat_neg num
  unfold magnitude argument
  cases hsign : flags.sign with
  | false =>
    simp only [Bool.false_and, Bool.false_eq_true, if_false]
    rw [abs_of_nonneg (Int.natCast_nonneg num.toNat)]
    by_cases hbit : 2 * num.toNat < 2 ^ 64
    · rw [if_pos hbit] at hint
      exact .inl ⟨by omega, by omega, by omega, by omega⟩
    · rw [if_neg hbit] at hint
      exact .inr ⟨by omega, by omega⟩
  | true =>
    by_cases hnum : num.toInt < 0
    · simp only [Bool.true_and, decide_eq_true hnum, if_true]
      rw [abs_of_neg hnum]
      by_cases hleast : num.toNat = 2 ^ 63
      · -- The least `long` is its own negative.
        exact .inr ⟨by omega, by omega⟩
      · exact .inl ⟨by omega, by omega, by omega, by omega⟩
    · simp only [Bool.true_and, decide_eq_false hnum, Bool.false_eq_true, if_false, if_true]
      rw [abs_of_nonneg (by omega)]
      exact .inl ⟨by omega, trivial, rfl, by omega⟩

/-- The digits that are printed denote the argument if and only if it fits into a `long` without its
    sign, and its digits fit into `tmp`. -/
theorem number_formats (num : BitVec 64) (hbase : 2 ≤ base) (hbase' : base ≤ 36)
    (size precision : BitVec 32) (flags : Flags) :
    Formats num base size precision flags ↔
      |argument flags num| < 2 ^ 63 ∧ |argument flags num| < base ^ 36 := by
  obtain ⟨b, rfl⟩ := Int.eq_ofNat_of_zero_le (by omega : 0 ≤ base)
  obtain ⟨zeropad, hnumber⟩ := number_eq num hbase hbase' size precision flags
  have hspec := tmpOf_spec (b := b) (by omega) (by omega) flags (magnitude flags num).toInt
  unfold Formats
  rw [hnumber]
  rcases argument_magnitude flags num with ⟨hnonneg, harg, habs, hlong⟩ | ⟨hneg, hlong⟩
  · by_cases hfits : (magnitude flags num).toInt < (b : Int) ^ 36
    · obtain ⟨tmp, htmp, hdigits, hne⟩ := hspec.1 hnonneg hfits
      -- `ZEROPAD` is not looked at by what reads the text back.
      obtain ⟨zeros, hout⟩ := unpadded_printed b size precision { flags with zeropad := zeropad }
        (flags.sign && decide (num.toInt < 0)) hdigits.plain
      apply iff_of_true _ ⟨hlong, by omega⟩
      rw [htmp]
      refine ⟨_, rfl, ?_⟩
      have hdenoted := denoted_eq flags (by omega) hout hdigits hne
      rw [Int.toNat_of_nonneg hnonneg] at hdenoted
      rw [harg]
      exact hdenoted
    · obtain ⟨e, he⟩ := hspec.2 (.inr (by omega))
      apply iff_of_false
      · rintro ⟨out, hout, -⟩
        rw [he] at hout
        cases hout
      · rintro ⟨-, hpow⟩
        omega
  · obtain ⟨e, he⟩ := hspec.2 (.inl hneg)
    apply iff_of_false
    · rintro ⟨out, hout, -⟩
      rw [he] at hout
      cases hout
    · rintro ⟨hlt, -⟩
      omega

/-- `printf("%5d", -255)`. -/
theorem number_formats_decimal :
    number (-255) 10 5 (-1) { sign := true } = .ok (some " -255".toList) ∧
      Formats (-255) 10 5 (-1) { sign := true } := by
  refine ⟨rfl, (number_formats (-255) (by decide) (by decide) 5 (-1) { sign := true }).mpr ?_⟩
  decide

/-- `%b` of a number with 37 binary digits, `%d` of the least `long`, and `%x` of an unsigned number
    that does not fit into a `long`. -/
theorem number_goes_wrong :
    convert 'b' (2 ^ 36) (-1) (-1) {} = some (.error .overrun) ∧
    convert 'd' (2 ^ 63) (-1) (-1) {} = some (.error .wildRead) ∧
    convert 'x' (2 ^ 63 + 1) (-1) (-1) {} = some (.error .wildRead) ∧
    ¬ ∀ num base size precision flags, 2 ≤ base → base ≤ 36 →
      Formats num base size precision flags := by
  have hbinary : number (2 ^ 36) 2 (-1) (-1) {} = .error .overrun := rfl
  refine ⟨congrArg some hbinary, rfl, rfl, fun h => ?_⟩
  obtain ⟨out, hout, -⟩ := h (2 ^ 36) 2 (-1) (-1) {} (by decide) (by decide)
  rw [hbinary] at hout
  cases hout

end Formatting

end Uniks.NumberFormat
