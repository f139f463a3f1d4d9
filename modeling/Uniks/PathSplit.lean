/-
  `skipelem` on pointers: a path in memory with the NUL behind it, and the buffer for the names.

  A pointer into the path is a position.  The length of an element is an `int32_t`, which goes to
  `memcpy` as a `size_t`: a negative one is more than any buffer holds.  The callers' buffers have
  `EXT2_NAME_LEN + 1` bytes.
-/
import Uniks.PathResolve
import Uniks.UserCopy

namespace Uniks.PathSplit

open Uniks.ByteMem
open Uniks.PathCalls (Str slash EXT2_NAME_LEN components pieces pieces_dropWhile pieces_append
  pieces_cons dropWhile_slash_head)
open Uniks.PageWalk (int32 int32_of_lt)

/-- The call writes behind the buffer. -/
inductive Stop where
  | overrun
  deriving DecidableEq

/-! ## The code -/

/-- The byte a pointer into the path points at; behind the last one is the NUL. -/
def deref (path : Str) (p : Nat) : UInt8 := path.getD p 0

theorem deref_ne_zero {path : Str} {p : Nat} (h : deref path p ≠ 0) : p < path.length := by
  apply Nat.lt_of_not_le
  intro hp
  exact h (List.getD_eq_default path 0 hp)

/-- The loop `while (*path == '/') path++`. -/
def skipSlashes (path : Str) (p : Nat) : Nat :=
  if _h : deref path p = slash then skipSlashes path (p + 1) else p
termination_by path.length - p
decreasing_by
  have hp : p < path.length := deref_ne_zero (by rw [_h]; decide)
  omega

/-- The loop `while (*path != '/' and *path != 0) path++`. -/
def skipName (path : Str) (p : Nat) : Nat :=
  if _h : deref path p ≠ slash ∧ deref path p ≠ 0 then skipName path (p + 1) else p
termination_by path.length - p
decreasing_by
  have hp : p < path.length := deref_ne_zero _h.2
  omega

/-- `len` bytes from `s`, and a NUL behind them. -/
def copied (path : Str) (s len : Nat) (name : Bytes) : Bytes :=
  Function.update (splice name 0 len fun k => deref path (s + k)) len 0

/-- The source's `skipelem`; `none` is `NULL`. -/
def skipelem (path : Str) (p : Nat) (name : Bytes) : Except Stop (Option Nat × Bytes) :=
  let s := skipSlashes path p
  if deref path s = 0 then .ok (none, name)
  else
    let q := skipName path s
    let len := int32 (q - s)
    if len ≥ EXT2_NAME_LEN then .ok (some (skipSlashes path q), copied path s EXT2_NAME_LEN name)
    -- A negative `len` is a `size_t` beyond every buffer.
    else if len < 0 then .error .overrun
    else .ok (some (skipSlashes path q), copied path s len.toNat name)

/-! ## What one call does -/

section Scan

variable {path : Str} {p : Nat}

theorem deref_add (path : Str) (p k : Nat) : deref path (p + k) = (path.drop p).getD k 0 := by
  rw [deref, List.getD_eq_getElem?_getD, List.getD_eq_getElem?_getD, List.getElem?_drop]

theorem deref_eq_getD (path : Str) (p : Nat) : deref path p = (path.drop p).getD 0 0 :=
  deref_add path p 0

theorem deref_of_drop {c : UInt8} {cs : Str} (h : path.drop p = c :: cs) : deref path p = c := by
  rw [deref_eq_getD, h]
  rfl

theorem deref_of_drop_nil (h : path.drop p = []) : deref path p = 0 := by
  rw [deref_eq_getD, h]
  rfl

theorem drop_succ {c : UInt8} {cs : Str} (h : path.drop p = c :: cs) : path.drop (p + 1) = cs := by
  rw [← List.drop_drop, h]
  rfl

theorem deref_eq_zero_iff (hnul : 0 ∉ path) : deref path p = 0 ↔ path.drop p = [] := by
  constructor
  · intro hzero
    cases hdrop : path.drop p with
    | nil => rfl
    | cons c cs =>
      have hc : c = 0 := (deref_of_drop hdrop).symm.trans hzero
      have hmem : c ∈ path.drop p := by
        rw [hdrop]
        exact List.mem_cons_self
      exact absurd (hc ▸ List.mem_of_mem_drop hmem) hnul
  · exact deref_of_drop_nil

theorem drop_skipSlashes (path : Str) (p : Nat) :
    path.drop (skipSlashes path p) = (path.drop p).dropWhile (· == slash) := by
  fun_induction skipSlashes path p with
  | case1 p hslash ih =>
    cases hdrop : path.drop p with
    | nil =>
      rw [deref_of_drop_nil hdrop] at hslash
      cases hslash
    | cons c cs =>
      rw [deref_of_drop hdrop] at hslash
      rw [ih, drop_succ hdrop,
        List.dropWhile_cons_of_pos (p := (· == slash)) (beq_iff_eq.mpr hslash)]
  | case2 p hslash =>
    cases hdrop : path.drop p with
    | nil => rfl
    | cons c cs =>
      rw [deref_of_drop hdrop] at hslash
      rw [List.dropWhile_cons_of_neg (p := (· == slash)) (by rw [beq_iff_eq]; exact hslash)]

theorem deref_skipSlashes (path : Str) (p : Nat) : deref path (skipSlashes path p) ≠ slash := by
  fun_induction skipSlashes path p with
  | case1 p hslash ih => exact ih
  | case2 p hslash => exact hslash

theorem skipSlashes_le (hp : p ≤ path.length) : skipSlashes path p ≤ path.length := by
  fun_induction skipSlashes path p with
  | case1 p hslash ih =>
    apply ih
    exact deref_ne_zero (by rw [hslash]; decide)
  | case2 p hslash => exact hp

/-- The second loop runs over what is left of the piece. -/
theorem skipName_eq (hnul : 0 ∉ path) (p : Nat) :
    skipName path p = p + ((path.drop p).takeWhile (· != slash)).length := by
  fun_induction skipName path p with
  | case1 p hname ih =>
    cases hdrop : path.drop p with
    | nil => exact absurd (deref_of_drop_nil hdrop) hname.2
    | cons c cs =>
      have hc : c ≠ slash := by
        rw [← deref_of_drop hdrop]
        exact hname.1
      rw [ih, drop_succ hdrop, List.takeWhile_cons_of_pos (p := (· != slash)) (bne_iff_ne.mpr hc),
        List.length_cons]
      omega
  | case2 p hname =>
    cases hdrop : path.drop p with
    | nil => rfl
    | cons c cs =>
      have hc : c = slash := by
        by_contra hc
        apply hname
        refine ⟨by rw [deref_of_drop hdrop]; exact hc, fun hzero => ?_⟩
        rw [(deref_eq_zero_iff hnul).mp hzero] at hdrop
        cases hdrop
      rw [List.takeWhile_cons_of_neg (p := (· != slash)) (by rw [bne_iff_ne, not_not]; exact hc)]
      rfl

/-- The element that is next at a pointer, and where its bytes are. -/
structure Element (path : Str) (p : Nat) (elem : Str) : Prop where
  bytes : ∀ k, k < elem.length → deref path (skipSlashes path p + k) = elem.getD k 0
  ends : skipName path (skipSlashes path p) = skipSlashes path p + elem.length
  le : skipSlashes path p + elem.length ≤ path.length
  found : deref path (skipSlashes path p) ≠ 0
  noNul : 0 ∉ elem
  pieces_eq : pieces (path.drop p) =
    elem :: pieces (path.drop (skipSlashes path (skipSlashes path p + elem.length)))

/-- Either only slashes are left, or there is an element. -/
theorem next_element (hnul : 0 ∉ path) (p : Nat) :
    (deref path (skipSlashes path p) = 0 ∧ pieces (path.drop p) = []) ∨
      ∃ elem, Element path p elem := by
  have hskip := drop_skipSlashes path p
  cases hdrop : path.drop (skipSlashes path p) with
  | nil =>
    refine .inl ⟨deref_of_drop_nil hdrop, ?_⟩
    rw [← pieces_dropWhile, ← hskip, hdrop]
    rfl
  | cons c cs =>
    have hc : c ≠ slash := dropWhile_slash_head (hskip.symm.trans hdrop)
    have happ : (c :: cs).takeWhile (· != slash) ++ (c :: cs).dropWhile (· != slash) = c :: cs :=
      List.takeWhile_append_dropWhile
    obtain ⟨elem, helem⟩ : ∃ elem, elem = (c :: cs).takeWhile (· != slash) := ⟨_, rfl⟩
    have hrest :
        path.drop (skipSlashes path p + elem.length) = (c :: cs).dropWhile (· != slash) := by
      rw [← List.drop_drop, hdrop, helem]
      nth_rewrite 2 [← happ]
      exact List.drop_left
    refine .inr ⟨elem, ⟨fun k hk => ?_, ?_, ?_, ?_, ?_, ?_⟩⟩
    · rw [deref_add, hdrop, ← happ, ← helem]
      exact List.getD_append elem _ 0 k hk
    · rw [skipName_eq hnul, hdrop, helem]
    · have hlen := congrArg List.length (hdrop.trans happ.symm)
      rw [List.length_drop, List.length_append, ← helem] at hlen
      have hpos : 0 < path.length - skipSlashes path p := by
        rw [← List.length_drop, hdrop]
        exact Nat.succ_pos _
      omega
    · rw [Ne, deref_eq_zero_iff hnul, hdrop]
      exact List.cons_ne_nil c cs
    · intro hzero
      have hmem : 0 ∈ path.drop (skipSlashes path p) := by
        rw [hdrop, ← happ, ← helem]
        exact List.mem_append_left _ hzero
      exact hnul (List.mem_of_mem_drop hmem)
    · rw [drop_skipSlashes, pieces_dropWhile, hrest, ← pieces_dropWhile, ← hskip, hdrop,
        pieces_cons hc, helem]

end Scan

/-! ## The split -/

/-- The calls one after the other, each with the pointer and the buffer that the one before left,
    until there is no element: what the buffer holds and where the pointer is after each. -/
inductive Walk (path : Str) : Nat → Bytes → List (Bytes × Nat) → Prop
  | stop {p name name'} : skipelem path p name = .ok (none, name') → Walk path p name []
  | step {p name q name' ys} : skipelem path p name = .ok (some q, name') → Walk path q name' ys →
      Walk path p name ((name', q) :: ys)

/-- A call leaves an element in the buffer, and points behind it and its slashes: at the NUL if
    nothing comes after. -/
def Yields (path : Str) (y : Bytes × Nat) (elem : Str) : Prop :=
  HoldsAt y.1 0 (elem ++ [0]) ∧ y.2 ≤ path.length ∧ deref path y.2 ≠ slash

/-- From this pointer on the calls come to an end and yield these elements, and only the last
    pointer is at the NUL. -/
def SplitsFrom (path : Str) (p : Nat) (name : Bytes) (elems : List Str) : Prop :=
  ∃ ys, Walk path p name ys ∧ List.Forall₂ (Yields path) ys elems ∧
    ∀ k y, ys[k]? = some y → (y.2 = path.length ↔ k + 1 = ys.length)

/-- The calls split a path into its components, whatever is in the buffer at first. -/
def Splits (path : Str) : Prop := ∀ name, SplitsFrom path 0 name (components path)

/-- An element whose length is cut to `EXT2_NAME_LEN` by the test of the source. -/
def Counted (elem : Str) : Prop := elem.length < EXT2_NAME_LEN ∨ int32 elem.length ≥ EXT2_NAME_LEN

theorem counted_of_lt {elem : Str} (h : elem.length < 2 ^ 31) : Counted elem := by
  by_cases hlen : elem.length < EXT2_NAME_LEN
  · exact .inl hlen
  · apply Or.inr
    rw [int32_of_lt h]
    show (255 : Int) ≤ elem.length
    have hle : 255 ≤ elem.length := Nat.le_of_not_lt hlen
    omega

/-! ## The calls one after the other -/

section Calls

variable {path : Str} {p : Nat} {elem : Str} {name : Bytes}

theorem Element.skipelem_eq (h : Element path p elem) (name : Bytes) :
    skipelem path p name =
      if int32 elem.length ≥ EXT2_NAME_LEN then
        .ok (some (skipSlashes path (skipSlashes path p + elem.length)),
          copied path (skipSlashes path p) EXT2_NAME_LEN name)
      else if int32 elem.length < 0 then .error .overrun
      else .ok (some (skipSlashes path (skipSlashes path p + elem.length)),
        copied path (skipSlashes path p) (int32 elem.length).toNat name) := by
  simp only [skipelem, if_neg h.found, h.ends, Nat.add_sub_cancel_left]

theorem Element.holds_copied (h : Element path p elem) (name : Bytes) {len : Nat}
    (hlen : len ≤ elem.length) :
    HoldsAt (copied path (skipSlashes path p) len name) 0 (elem.take len ++ [0]) := by
  intro k hk
  have htake : (elem.take len).length = len := by
    rw [List.length_take]
    omega
  rw [List.length_append, htake, List.length_singleton] at hk
  rw [Nat.zero_add]
  by_cases hklen : k = len
  · subst hklen
    rw [List.getElem_append_right (by omega)]
    show Function.update _ k 0 k = _
    rw [Function.update_self]
    simp
  · have hlt : k < len := by omega
    have hsplice : splice name 0 len (fun k => deref path (skipSlashes path p + k)) (0 + k)
        = deref path (skipSlashes path p + k) := splice_add hlt
    rw [Nat.zero_add] at hsplice
    show Function.update _ len 0 k = _
    rw [Function.update_of_ne hklen, hsplice, h.bytes k (by omega),
      List.getElem_append_left (by omega), List.getElem_take]
    exact List.getD_eq_getElem _ _ (by omega)

/-- A counted element is in the buffer after the call. -/
theorem Element.skipelem_counted (h : Element path p elem) (hcount : Counted elem) (name : Bytes) :
    ∃ name', skipelem path p name =
        .ok (some (skipSlashes path (skipSlashes path p + elem.length)), name') ∧
      HoldsAt name' 0 (elem.take EXT2_NAME_LEN ++ [0]) := by
  rw [h.skipelem_eq name]
  rcases hcount with hlen | hlen
  · have hint : int32 elem.length = elem.length :=
      int32_of_lt (Nat.lt_trans hlen (by decide))
    have hnot : ¬ (elem.length : Int) ≥ (EXT2_NAME_LEN : Nat) := by omega
    rw [hint, if_neg hnot, if_neg (by omega), Int.toNat_natCast,
      List.take_of_length_le (Nat.le_of_lt hlen)]
    have hholds := h.holds_copied name (Nat.le_refl elem.length)
    rw [List.take_length] at hholds
    exact ⟨_, rfl, hholds⟩
  · rw [if_pos hlen]
    refine ⟨_, rfl, h.holds_copied name ?_⟩
    by_contra hshort
    have hlt : elem.length < 255 := Nat.lt_of_not_le hshort
    rw [int32_of_lt (Nat.lt_trans hlt (by decide))] at hlen
    have hlen : (255 : Int) ≤ elem.length := hlen
    omega

/-- Only a counted element is in the buffer after the call. -/
theorem Element.counted (h : Element path p elem) {name' : Bytes} {q : Nat}
    (hskip : skipelem path p name = .ok (some q, name'))
    (hholds : HoldsAt name' 0 (elem.take EXT2_NAME_LEN ++ [0])) :
    Counted elem ∧ q = skipSlashes path (skipSlashes path p + elem.length) := by
  rw [h.skipelem_eq name] at hskip
  split at hskip
  · next hlen =>
    cases hskip
    exact ⟨.inr hlen, rfl⟩
  · split at hskip
    · cases hskip
    · next hlen hneg =>
      cases hskip
      refine ⟨.inl ?_, rfl⟩
      -- A length that wraps around leaves its NUL in the middle of the name.
      by_contra hlong
      have hlong : 255 ≤ elem.length := Nat.le_of_not_lt hlong
      have hlen : ¬ int32 elem.length ≥ (255 : Int) := hlen
      have hlt : (int32 elem.length).toNat < 255 := by omega
      have htake : (elem.take EXT2_NAME_LEN).length = 255 := by
        rw [List.length_take]
        show min 255 elem.length = 255
        omega
      have hbyte := hholds (int32 elem.length).toNat (by rw [List.length_append, htake]; omega)
      rw [Nat.zero_add, copied, Function.update_self, List.getElem_append_left (by omega),
        List.getElem_take] at hbyte
      apply h.noNul
      rw [hbyte]
      exact List.getElem_mem _

/-- A pointer that is at no slash is at the NUL if and only if there is no piece left. -/
theorem at_nul_iff {q : Nat} (hq : q ≤ path.length) (hslash : deref path q ≠ slash) :
    q = path.length ↔ pieces (path.drop q) = [] := by
  constructor
  · rintro rfl
    rw [List.drop_length]
    rfl
  · intro hpieces
    cases hdrop : path.drop q with
    | nil =>
      rw [List.drop_eq_nil_iff] at hdrop
      omega
    | cons c cs =>
      rw [deref_of_drop hdrop] at hslash
      rw [hdrop, pieces_cons hslash] at hpieces
      cases hpieces

/-- Only the last pointer is at the NUL: the first one, and those after it. -/
theorem last_cons {y : Bytes × Nat} {ys : List (Bytes × Nat)} {n : Nat} :
    (∀ k z, (y :: ys)[k]? = some z → (z.2 = n ↔ k + 1 = (y :: ys).length)) ↔
      (y.2 = n ↔ ys = []) ∧ ∀ k z, ys[k]? = some z → (z.2 = n ↔ k + 1 = ys.length) := by
  constructor
  · intro h
    refine ⟨?_, fun k z hz => ?_⟩
    · rw [h 0 y rfl, List.length_cons, ← List.length_eq_zero_iff]
      omega
    · rw [h (k + 1) z hz, List.length_cons]
      omega
  · rintro ⟨hfirst, hrest⟩ k z hz
    cases k with
    | zero =>
      cases hz
      rw [hfirst, List.length_cons, ← List.length_eq_zero_iff]
      omega
    | succ k =>
      rw [hrest k z hz, List.length_cons]
      omega

/-- The calls from a pointer on, by induction on the pieces that are left. -/
theorem splitsFrom_iff (hnul : 0 ∉ path) {ps : List Str} (hp : p ≤ path.length)
    (hps : pieces (path.drop p) = ps) (name : Bytes) :
    SplitsFrom path p name (ps.map (·.take EXT2_NAME_LEN)) ↔ ∀ elem ∈ ps, Counted elem := by
  induction ps generalizing p name with
  | nil =>
    rcases next_element hnul p with ⟨hend, -⟩ | ⟨elem, helem⟩
    · apply iff_of_true
      · have hskip : skipelem path p name = .ok (none, name) := by
          rw [skipelem, if_pos hend]
        refine ⟨[], Walk.stop hskip, List.Forall₂.nil, ?_⟩
        intro k y hy
        cases hy
      · intro elem helem
        cases helem
    · cases helem.pieces_eq.symm.trans hps
  | cons elem ps ih =>
    obtain ⟨elem', helem⟩ : ∃ elem', Element path p elem' := by
      rcases next_element hnul p with ⟨-, hnil⟩ | hsome
      · cases hnil.symm.trans hps
      · exact hsome
    obtain ⟨rfl, hrest⟩ := List.cons.inj (helem.pieces_eq.symm.trans hps)
    have hq := skipSlashes_le helem.le
    have hslash := deref_skipSlashes path (skipSlashes path p + elem'.length)
    constructor
    · rintro ⟨ys, hwalk, hyields, hlast⟩
      cases hyields with
      | cons hy hyields =>
        cases hwalk with
        | step hskip hwalk =>
          obtain ⟨hcount, rfl⟩ := helem.counted hskip hy.1
          have hcounts := (ih hq hrest _).mp ⟨_, hwalk, hyields, (last_cons.mp hlast).2⟩
          exact List.forall_mem_cons.mpr ⟨hcount, hcounts⟩
    · intro hcount
      obtain ⟨hfirst, hcounts⟩ := List.forall_mem_cons.mp hcount
      obtain ⟨name', hskip, hholds⟩ := helem.skipelem_counted hfirst name
      obtain ⟨ys, hwalk, hyields, hlast⟩ := (ih hq hrest name').mpr hcounts
      refine ⟨_, Walk.step hskip hwalk, List.Forall₂.cons ⟨hholds, hq, hslash⟩ hyields, ?_⟩
      -- The pointer is at the NUL if no piece is left, and then no call follows.
      refine last_cons.mpr ⟨?_, hlast⟩
      have hlen := hyields.length_eq
      rw [List.length_map] at hlen
      rw [at_nul_iff hq hslash, hrest, ← List.length_eq_zero_iff, ← List.length_eq_zero_iff, hlen]

end Calls

/-- Looking for its pieces leaves an element out only if it is empty. -/
theorem forall_pieces_iff (path : Str) :
    (∀ elem ∈ pieces path, Counted elem) ↔ ∀ elem ∈ path.splitOn slash, Counted elem := by
  constructor
  · intro h elem hmem
    by_cases hnil : elem = []
    · subst hnil
      exact .inl (by decide)
    · exact h elem (List.mem_filter.mpr ⟨hmem, decide_eq_true hnil⟩)
  · intro h elem hmem
    exact h elem (List.mem_filter.mp hmem).1

/-- A path is split into its components, as long as the length of an element that is cut is not
    mistaken for a shorter one: `counted_of_lt`, which covers every path that memory has room for. -/
theorem skipelem_splits {path : Str} (hnul : 0 ∉ path) :
    Splits path ↔ ∀ elem ∈ path.splitOn slash, Counted elem := by
  rw [← forall_pieces_iff]
  constructor
  · intro h
    exact (splitsFrom_iff hnul (Nat.zero_le _) rfl fun _ => 0).mp (h _)
  · intro h name
    exact (splitsFrom_iff hnul (Nat.zero_le _) rfl name).mpr h

/-- `/a//b/`. -/
theorem skipelem_splits_slashes : components [47, 97, 47, 47, 98, 47] = [[97], [98]] ∧
    Splits [47, 97, 47, 47, 98, 47] := by
  refine ⟨by decide, (skipelem_splits (by simp)).mpr fun elem helem => ?_⟩
  have hsplit : ([47, 97, 47, 47, 98, 47] : Str).splitOn slash = [[], [97], [], [98], []] := by
    decide
  rw [hsplit] at helem
  apply counted_of_lt
  have hlen : elem.length ≤ 1 := by
    simp only [List.mem_cons, List.not_mem_nil, or_false] at helem
    rcases helem with rfl | rfl | rfl | rfl | rfl <;> simp
  omega

end Uniks.PathSplit
