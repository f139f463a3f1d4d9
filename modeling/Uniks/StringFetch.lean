/-
  `argstrfetch` of `kernel/sys/ksyscall.c`: strings of a process, fetched page by page.

  Each round takes the piece of the string that is in one page, has `verify_area` admit it and
  `copyin_string` copy it.  The piece is as long as `max` allows, so its end may be far behind the
  end of the string, and `verify_area` wants all of it in one area.  `copyin_string` answers -1
  both when the piece has no NUL and when it fails; the loop takes either for the first.  It does
  not count the bytes of such a piece, so the next one is copied over it.

  What is used of the memory of a process is its areas and what `walkaddr` finds once `verify_area`
  has admitted a range (`UserMem`); that this is enough is `verifyArea_of_vm`.  The loop is run
  round by round (`step`), so that a loop without an end is one that has no last round.  `max` is
  an `int32_t` and `len` never exceeds it; both are numbers here.
-/
import Uniks.VerifyArea
import Uniks.Lib.ByteMem
import Mathlib.Data.Nat.Find
import Mathlib.Logic.Function.Iterate

namespace Uniks.StringFetch

open Uniks.Vm Uniks.ByteMem
open Function (update update_self update_of_ne)
open Option (some)

/-- The flags that a string wants of its areas. -/
def readPerm : Perm := PTE_R ||| PTE_U

/-- The memory of a process: `page` is what `walkaddr` finds at the address of a page, and it finds
    every page that has a byte in a readable area. -/
structure UserMem where
  areas : List Vma
  page : Nat → Option Bytes
  wf : AreasWf areas
  served : ∀ vma ∈ areas, grants vma.vmFlags readPerm = true → ∀ a, vma.vmStart ≤ a →
    a < vma.vmEnd → (page (pgRoundDown a)).isSome = true

/-- The byte at an address. -/
def UserMem.byte (um : UserMem) (a : Nat) : UInt8 :=
  match um.page (pgRoundDown a) with
  | some page => page (a % PGSIZE)
  | none => 0

/-- The answer of `verify_area`. -/
def verifyArea (um : UserMem) (vaddr size : Nat) : Int :=
  match searchVmareas um.areas vaddr size with
  | none => -1
  | some vma => if grants vma.vmFlags readPerm then 0 else -1

/-- The source's `walkaddr`; `none` is the assertion of `walk`. -/
def walkaddr (um : UserMem) (va : Nat) : Option (Option Bytes) :=
  if va < MAXVA then some (um.page va) else none

/-! ## The code -/

/-- The inner loop of `copyin_string`: the buffer, where the copy has stopped, and whether there
    was a NUL. -/
def copyChars (page : Bytes) : Nat → Nat → Nat → Bytes → Bytes × Nat × Bool
  | 0, _, dst, buf => (buf, dst, false)
  | n + 1, p, dst, buf =>
    if page p = 0 then (update buf dst 0, dst, true)
    else copyChars page n (p + 1) (dst + 1) (update buf dst (page p))

/-- The outer loop of `copyin_string`: the buffer, and where the string ends in it. -/
def copyinLoop (um : UserMem) (srcva dst max : Nat) (buf : Bytes) : Option (Bytes × Option Nat) :=
  if 0 < max then
    let va0 := pgRoundDown srcva
    match walkaddr um va0 with
    | none => none
    | some none => some (buf, none)
    | some (some page) =>
      let n := min (PGSIZE - (srcva - va0)) max
      match copyChars page n (srcva - va0) dst buf with
      | (buf, dst, true) => some (buf, some dst)
      | (buf, dst, false) => copyinLoop um (va0 + PGSIZE) dst (max - n) buf
  else some (buf, none)
termination_by max
decreasing_by
  have hlt := lt_pgRoundDown_add srcva
  have hpage : PGSIZE = 4096 := rfl
  omega

/-- The source's `copyin_string` to the position `dst` of a buffer; `none` is a failed
    assertion. -/
def copyinString (um : UserMem) (buf : Bytes) (dst srcva max : Nat) : Option (Bytes × Int) :=
  match copyinLoop um srcva dst max buf with
  | none => none
  | some (buf, some last) => some (buf, ((last - dst : Nat) : Int))
  | some (buf, none) => some (buf, -1)

/-- The variables of `argstrfetch`, and the buffer. -/
structure Fetch where
  gotNull : Int
  len : Nat
  offset : Nat
  max : Nat
  vaddr : Nat
  buf : Bytes

/-- How far a call has come. -/
inductive Run where
  | looping (f : Fetch)
  | returned (ret : Int) (buf : Bytes)
  | panicked

/-- The body of the loop of `argstrfetch`. -/
def round (um : UserMem) (f : Fetch) : Run :=
  let bytes := min (PGSIZE - f.offset) f.max
  if verifyArea um f.vaddr bytes < 0 then .returned (-1) f.buf
  else
    match copyinString um f.buf f.len f.vaddr bytes with
    | none => .panicked
    | some (buf, gotNull) =>
      .looping
        { gotNull := gotNull
          len := if gotNull > 0 then f.len + gotNull.toNat else f.len
          offset := 0
          max := f.max - bytes
          vaddr := (f.vaddr + bytes) % ADDRS
          buf := buf }

/-- The test of the loop, and then its body or the return behind it. -/
def step (um : UserMem) : Run → Run
  | .looping f => if f.gotNull = -1 then round um f else .returned f.len f.buf
  | r => r

/-- The variables before the first round. -/
def start (vaddr max : Nat) (buf : Bytes) : Fetch :=
  { gotNull := -1, len := 0, offset := vaddr % PGSIZE, max := max, vaddr := vaddr, buf := buf }

/-- The source's `argstrfetch` after a number of rounds. -/
def argstrfetch (um : UserMem) (vaddr max : Nat) (buf : Bytes) (rounds : Nat) : Run :=
  (step um)^[rounds] (.looping (start vaddr max buf))

/-- The call comes back. -/
def Returns (um : UserMem) (vaddr max : Nat) (buf : Bytes) (ret : Int) (buf' : Bytes) : Prop :=
  ∃ rounds, argstrfetch um vaddr max buf rounds = .returned ret buf'

/-- The buffer of a call. -/
def Run.buf : Run → Option Bytes
  | .looping f => some f.buf
  | .returned _ buf => some buf
  | .panicked => none

/-! ## What is asked of it -/

/-- The bytes from `vaddr` on reach a NUL after `k` bytes, in readable areas. -/
structure StringAt (um : UserMem) (vaddr max k : Nat) : Prop where
  within : k < max
  chars : ∀ i, i < k → um.byte (vaddr + i) ≠ 0
  nul : um.byte (vaddr + k) = 0
  readable : Covered um.areas vaddr (k + 1) readPerm

/-- Strings are fetched whole, anything else is answered by -1, and only the buffer is written. -/
def FetchesStrings (um : UserMem) (vaddr max : Nat) : Prop :=
  ∀ buf,
    (∀ k, StringAt um vaddr max k →
      ∃ buf', Returns um vaddr max buf k buf' ∧ ∀ i, i ≤ k → buf' i = um.byte (vaddr + i)) ∧
    ((∀ k, ¬ StringAt um vaddr max k) → ∃ buf', Returns um vaddr max buf (-1) buf') ∧
    ∀ rounds buf', (argstrfetch um vaddr max buf rounds).buf = some buf' →
      ∀ i, max ≤ i → buf' i = buf i

/-- The length of the first piece: up to the end of the page, but no more than `max`. -/
def pieceLen (vaddr max : Nat) : Nat := min (PGSIZE - vaddr % PGSIZE) max

/-- The part of `lo .. hi` that is in the page of `a` lies in one readable area. -/
def PieceReadable (um : UserMem) (lo hi a : Nat) : Prop :=
  ∃ vma ∈ um.areas, grants vma.vmFlags readPerm = true ∧
    vma.vmStart ≤ max lo (pgRoundDown a) ∧ min (pgRoundDown a + PGSIZE) hi ≤ vma.vmEnd

/-- The first `max` bytes have no NUL, and each piece of them lies in one readable area. -/
def Endless (um : UserMem) (vaddr max : Nat) : Prop :=
  ∀ a, vaddr ≤ a → a < vaddr + max →
    um.byte a ≠ 0 ∧ PieceReadable um vaddr (vaddr + max) a

/-- The first piece reaches the end of the address space, and `verify_area` admits it. -/
def Wraps (um : UserMem) (vaddr max : Nat) : Prop :=
  ADDRS ≤ vaddr + pieceLen vaddr max ∧ verifyArea um vaddr (pieceLen vaddr max) = 0

/-- A string is in its first piece, and the piece is readable to its end; where there is no string,
    the loop comes back. -/
def FitsPiece (um : UserMem) (vaddr max : Nat) : Prop :=
  (∀ k, StringAt um vaddr max k →
    k < pieceLen vaddr max ∧ PieceReadable um vaddr (vaddr + max) vaddr) ∧
  ((∀ k, ¬ StringAt um vaddr max k) → ¬ Endless um vaddr max ∧ ¬ Wraps um vaddr max)

variable {um : UserMem} {vaddr max k : Nat} {buf buf' : Bytes} {ret : Int}

/-! ## `copyin_string` on one piece -/

/-- The first character of a run. -/
theorem update_eq_splice (buf : Bytes) (dst : Nat) (src : Bytes) :
    update buf dst (src 0) = splice buf dst 1 src := by
  funext i
  by_cases hi : i = dst
  · subst hi
    rw [update_self, splice_of_mem (Nat.le_refl i) (Nat.lt_succ_self i), Nat.sub_self]
  · rw [update_of_ne hi, splice_of_not_mem (by omega)]

/-- A character, and the run behind it. -/
theorem splice_cons (buf : Bytes) (dst n p : Nat) (page : Bytes) :
    splice (update buf dst (page p)) (dst + 1) n (fun t => page (p + 1 + t)) =
      splice buf dst (n + 1) fun t => page (p + t) := by
  have hfirst := update_eq_splice buf dst fun t => page (p + t)
  have hrun := splice_splice_add buf dst 1 n fun t => page (p + t)
  rw [← hfirst, Nat.add_comm 1 n] at hrun
  rw [← hrun]
  simp only [Nat.add_zero, Nat.add_assoc]

/-- A piece without a NUL is copied whole. -/
theorem copyChars_full (page : Bytes) {n p dst : Nat} (h : ∀ t, t < n → page (p + t) ≠ 0) :
    copyChars page n p dst buf = (splice buf dst n fun t => page (p + t), dst + n, false) := by
  induction n generalizing p dst buf with
  | zero => simp [copyChars]
  | succ n ih =>
    have hfirst : page p ≠ 0 := h 0 (Nat.succ_pos n)
    have hrest : ∀ t, t < n → page (p + 1 + t) ≠ 0 := fun t ht => by
      rw [Nat.add_assoc, Nat.add_comm 1 t]
      exact h (t + 1) (Nat.succ_lt_succ ht)
    rw [copyChars, if_neg hfirst, ih hrest, splice_cons, Nat.add_assoc, Nat.add_comm 1 n]

/-- With a NUL the copy stops there. -/
theorem copyChars_nul (page : Bytes) {n p dst j : Nat} (hj : j < n) (hnul : page (p + j) = 0)
    (h : ∀ t, t < j → page (p + t) ≠ 0) :
    copyChars page n p dst buf =
      (splice buf dst (j + 1) fun t => page (p + t), dst + j, true) := by
  induction j generalizing n p dst buf with
  | zero =>
    obtain ⟨n, rfl⟩ := Nat.exists_eq_succ_of_ne_zero (Nat.ne_of_gt hj)
    have hnul : page p = 0 := hnul
    rw [copyChars, if_pos hnul, ← hnul, ← update_eq_splice]
    rfl
  | succ j ih =>
    obtain ⟨n, rfl⟩ := Nat.exists_eq_succ_of_ne_zero (Nat.ne_zero_of_lt hj)
    have hfirst : page p ≠ 0 := h 0 (Nat.succ_pos j)
    have hshift : ∀ t, page (p + 1 + t) = page (p + (t + 1)) := fun t => by
      rw [Nat.add_assoc, Nat.add_comm 1 t]
    have hrest : copyChars page n (p + 1) (dst + 1) (update buf dst (page p)) = _ :=
      ih (Nat.lt_of_succ_lt_succ hj) ((hshift j).trans hnul)
        fun t ht => (hshift t).symm ▸ h (t + 1) (Nat.succ_lt_succ ht)
    rw [copyChars, if_neg hfirst, hrest, splice_cons, Nat.add_right_comm dst 1 j]
    rfl

theorem sub_pgRoundDown (a : Nat) : a - pgRoundDown a = a % PGSIZE := by
  have hpage : PGSIZE = 4096 := rfl
  rw [pgRoundDown, hpage]
  omega

/-- The bytes of one page. -/
theorem byte_eq {page : Bytes} (hpage : um.page (pgRoundDown vaddr) = some page) {t : Nat}
    (ht : vaddr % PGSIZE + t < PGSIZE) : um.byte (vaddr + t) = page (vaddr % PGSIZE + t) := by
  simp only [PGSIZE] at ht
  have hround : pgRoundDown (vaddr + t) = pgRoundDown vaddr := by
    simp only [pgRoundDown, PGSIZE]
    omega
  have hoff : (vaddr + t) % PGSIZE = vaddr % PGSIZE + t := by
    simp only [PGSIZE]
    omega
  rw [UserMem.byte, hround, hpage, hoff]

/-- A piece without a NUL: all of it is copied, and the answer is -1. -/
theorem copyinString_full {page : Bytes} {n dst : Nat}
    (hpage : um.page (pgRoundDown vaddr) = some page) (hva : vaddr < MAXVA)
    (hpiece : vaddr % PGSIZE + n ≤ PGSIZE) (hn : 0 < n) (h : ∀ t, t < n → um.byte (vaddr + t) ≠ 0) :
    copyinString um buf dst vaddr n =
      some (splice buf dst n fun t => um.byte (vaddr + t), -1) := by
  have hlow : pgRoundDown vaddr < MAXVA := Nat.lt_of_le_of_lt (pgRoundDown_le vaddr) hva
  have hbyte : ∀ t, t < n → um.byte (vaddr + t) = page (vaddr % PGSIZE + t) := fun t ht =>
    byte_eq hpage (by omega)
  have hcopy : copyChars page n (vaddr % PGSIZE) dst buf = _ :=
    copyChars_full page fun t ht => hbyte t ht ▸ h t ht
  have hmin : min (PGSIZE - vaddr % PGSIZE) n = n := by omega
  rw [copyinString, copyinLoop, if_pos hn]
  simp only [walkaddr, if_pos hlow, hpage, sub_pgRoundDown, hmin, hcopy]
  rw [copyinLoop, if_neg (by omega), splice_congr (fun t ht => (hbyte t ht).symm) fun _ _ => rfl]

/-- A piece with a NUL: it is copied up to there, and the answer is the length. -/
theorem copyinString_nul {page : Bytes} {n dst j : Nat}
    (hpage : um.page (pgRoundDown vaddr) = some page) (hva : vaddr < MAXVA)
    (hpiece : vaddr % PGSIZE + n ≤ PGSIZE) (hj : j < n) (hnul : um.byte (vaddr + j) = 0)
    (h : ∀ t, t < j → um.byte (vaddr + t) ≠ 0) :
    copyinString um buf dst vaddr n =
      some (splice buf dst (j + 1) fun t => um.byte (vaddr + t), (j : Int)) := by
  have hlow : pgRoundDown vaddr < MAXVA := Nat.lt_of_le_of_lt (pgRoundDown_le vaddr) hva
  have hbyte : ∀ t, t < n → um.byte (vaddr + t) = page (vaddr % PGSIZE + t) := fun t ht =>
    byte_eq hpage (by omega)
  have hcopy : copyChars page n (vaddr % PGSIZE) dst buf = _ :=
    copyChars_nul page hj (hbyte j hj ▸ hnul) fun t ht => hbyte t (by omega) ▸ h t ht
  have hmin : min (PGSIZE - vaddr % PGSIZE) n = n := by omega
  rw [copyinString, copyinLoop, if_pos (by omega)]
  simp only [walkaddr, if_pos hlow, hpage, sub_pgRoundDown, hmin, hcopy, Nat.add_sub_cancel_left]
  rw [splice_congr (fun t ht => (hbyte t (by omega)).symm) fun _ _ => rfl]

/-! ## `verify_area` on one piece -/

theorem verifyArea_cases (um : UserMem) (vaddr size : Nat) :
    verifyArea um vaddr size = 0 ∨ verifyArea um vaddr size = -1 := by
  unfold verifyArea
  split
  · exact .inr rfl
  · split
    · exact .inl rfl
    · exact .inr rfl

theorem verifyArea_eq_zero {size : Nat} : verifyArea um vaddr size = 0 ↔
    ∃ vma, searchVmareas um.areas vaddr size = some vma ∧ grants vma.vmFlags readPerm = true := by
  unfold verifyArea
  cases searchVmareas um.areas vaddr size with
  | none => simp
  | some vma => by_cases hgrants : grants vma.vmFlags readPerm = true <;> simp [hgrants]

/-- Whatever the page tables are, `verify_area` gives this answer when it gives one. -/
theorem verifyArea_of_vm {m m' : Mem} {pt pt' : PageTable} {size : Nat} {fill : Nat → Page}
    (h : Vm.verifyArea m um.areas pt vaddr size readPerm fill = .ok (m', pt', ret)) :
    ret = verifyArea um vaddr size := by
  unfold Vm.verifyArea at h
  unfold verifyArea
  cases hsearch : searchVmareas um.areas vaddr size with
  | none =>
    rw [hsearch] at h
    exact (congrArg (fun r => r.2.2) (Except.ok.inj h)).symm
  | some vma =>
    simp only [hsearch] at h ⊢
    by_cases hgrants : grants vma.vmFlags readPerm = true
    · rw [if_pos hgrants] at h ⊢
      cases hloop : verifyLoop ((vaddr + size) % ADDRS) readPerm fill (pgRoundDown vaddr) m pt with
      | error e =>
        rw [hloop] at h
        cases h
      | ok r =>
        rw [hloop] at h
        exact (congrArg (fun r => r.2.2) (Except.ok.inj h)).symm
    · rw [if_neg hgrants] at h ⊢
      exact (congrArg (fun r => r.2.2) (Except.ok.inj h)).symm

theorem pieceLen_pos (vaddr : Nat) (h : 0 < max) : 0 < pieceLen vaddr max := by
  simp only [pieceLen, PGSIZE]
  omega

theorem pieceLen_le (vaddr max : Nat) : pieceLen vaddr max ≤ max := Nat.min_le_right _ _

/-- A piece is in one page. -/
theorem pieceLen_page (vaddr max : Nat) : vaddr % PGSIZE + pieceLen vaddr max ≤ PGSIZE := by
  simp only [pieceLen, PGSIZE]
  omega

theorem pieceEnd (vaddr max : Nat) :
    min (pgRoundDown vaddr + PGSIZE) (vaddr + max) = vaddr + pieceLen vaddr max := by
  simp only [pieceLen, pgRoundDown, PGSIZE]
  omega

/-- The first piece of a range that does not wrap is admitted exactly if it is readable. -/
theorem verifyArea_piece (hmax : 0 < max) (hwrap : vaddr + pieceLen vaddr max < ADDRS) :
    verifyArea um vaddr (pieceLen vaddr max) = 0 ↔
      PieceReadable um vaddr (vaddr + max) vaddr := by
  rw [verifyArea_eq_zero, PieceReadable, pieceEnd, Nat.max_eq_left (pgRoundDown_le vaddr)]
  simp only [searchVmareas_eq_some um.wf (pieceLen_pos vaddr hmax) hwrap]
  constructor
  · rintro ⟨vma, ⟨hmem, hlo, hhi⟩, hgrants⟩
    exact ⟨vma, hmem, hgrants, hlo, hhi⟩
  · rintro ⟨vma, hmem, hgrants, hlo, hhi⟩
    exact ⟨vma, ⟨hmem, hlo, hhi⟩, hgrants⟩

/-- A readable piece is in memory, below `MAXVA`. -/
theorem PieceReadable.present {lo hi a : Nat} (h : PieceReadable um lo hi a) (hlo : lo ≤ a)
    (hhi : a < hi) : (∃ page, um.page (pgRoundDown a) = some page) ∧
      ∃ vma ∈ um.areas, vma.vmStart ≤ a ∧ a < vma.vmEnd ∧
        grants vma.vmFlags readPerm = true := by
  obtain ⟨vma, hmem, hgrants, hstart, hend⟩ := h
  have hdown := pgRoundDown_le a
  have hup := lt_pgRoundDown_add a
  have hin : vma.vmStart ≤ a ∧ a < vma.vmEnd := by omega
  have hpage := um.served vma hmem hgrants a hin.1 hin.2
  exact ⟨Option.isSome_iff_exists.mp hpage, vma, hmem, hin.1, hin.2, hgrants⟩

theorem PieceReadable.end_le (h : PieceReadable um vaddr (vaddr + max) vaddr) :
    vaddr + pieceLen vaddr max ≤ MAXVA := by
  obtain ⟨vma, hmem, -, -, hend⟩ := h
  rw [pieceEnd] at hend
  exact hend.trans (um.wf.below vma hmem)

/-- Behind a readable piece, the empty range is admitted. -/
theorem verifyArea_empty (h : PieceReadable um vaddr (vaddr + max) vaddr) (hmax : 0 < max) :
    verifyArea um (vaddr + pieceLen vaddr max) 0 = 0 := by
  have hlow := h.end_le
  have htop : MAXVA < ADDRS := by decide
  have hpos := pieceLen_pos vaddr hmax
  obtain ⟨vma, hmem, hgrants, hstart, hend⟩ := h
  rw [pieceEnd] at hend
  rw [Nat.max_eq_left (pgRoundDown_le vaddr)] at hstart
  refine verifyArea_eq_zero.mpr ⟨vma, ?_, hgrants⟩
  obtain ⟨front, back, hareas⟩ := List.append_of_mem hmem
  have hdisjoint := um.wf.disjoint
  rw [hareas, List.pairwise_append] at hdisjoint
  rw [searchVmareas, List.find?_eq_some_iff_append]
  refine ⟨?_, front, back, hareas, fun other hother => ?_⟩
  · rw [Bool.and_eq_true, decide_eq_true_iff, decide_eq_true_iff, Nat.mod_eq_of_lt (by omega)]
    omega
  · -- the areas in front end before the piece begins
    have hbefore := hdisjoint.2.2 other hother vma List.mem_cons_self
    rw [Bool.not_eq_true', Bool.and_eq_false_iff, decide_eq_false_iff_not, decide_eq_false_iff_not,
      Nat.mod_eq_of_lt (by omega)]
    omega

/-! ## One round -/

theorem step_refused (h : verifyArea um vaddr (pieceLen vaddr max) ≠ 0) :
    step um (.looping (start vaddr max buf)) = .returned (-1) buf := by
  have hneg := (verifyArea_cases um vaddr (pieceLen vaddr max)).resolve_left h
  show (if verifyArea um vaddr (pieceLen vaddr max) < 0 then _ else _) = _
  rw [hneg]
  exact if_pos (by decide)

/-- What a round does with an admitted piece. -/
theorem step_admitted (h : verifyArea um vaddr (pieceLen vaddr max) = 0) :
    step um (.looping (start vaddr max buf)) =
      match copyinString um buf 0 vaddr (pieceLen vaddr max) with
      | none => .panicked
      | some (buf, gotNull) =>
        .looping ⟨gotNull, if gotNull > 0 then 0 + gotNull.toNat else 0, 0,
          max - pieceLen vaddr max, (vaddr + pieceLen vaddr max) % ADDRS, buf⟩ := by
  show (if verifyArea um vaddr (pieceLen vaddr max) < 0 then _ else _) = _
  rw [h]
  exact if_neg (by decide)

theorem step_full (hmax : 0 < max) (hread : PieceReadable um vaddr (vaddr + max) vaddr)
    (h : ∀ t, t < pieceLen vaddr max → um.byte (vaddr + t) ≠ 0) :
    step um (.looping (start vaddr max buf)) =
      .looping ⟨-1, 0, 0, max - pieceLen vaddr max, vaddr + pieceLen vaddr max,
        splice buf 0 (pieceLen vaddr max) fun t => um.byte (vaddr + t)⟩ := by
  have hlow := hread.end_le
  have htop : MAXVA < ADDRS := by decide
  have hpos := pieceLen_pos vaddr hmax
  obtain ⟨⟨page, hpage⟩, -⟩ := hread.present (Nat.le_refl vaddr) (by omega)
  rw [step_admitted ((verifyArea_piece hmax (by omega)).mpr hread),
    copyinString_full hpage (by omega) (pieceLen_page vaddr max) hpos h,
    Nat.mod_eq_of_lt (show vaddr + pieceLen vaddr max < ADDRS by omega)]
  rfl

theorem step_nul {j : Nat} (hmax : 0 < max) (hread : PieceReadable um vaddr (vaddr + max) vaddr)
    (hj : j < pieceLen vaddr max) (hnul : um.byte (vaddr + j) = 0)
    (h : ∀ t, t < j → um.byte (vaddr + t) ≠ 0) :
    (step um)^[2] (.looping (start vaddr max buf)) =
      .returned j (splice buf 0 (j + 1) fun t => um.byte (vaddr + t)) := by
  have hlow := hread.end_le
  have htop : MAXVA < ADDRS := by decide
  obtain ⟨⟨page, hpage⟩, -⟩ := hread.present (Nat.le_refl vaddr) (by omega)
  have hlen : (if (j : Int) > 0 then 0 + (j : Int).toNat else 0) = j := by
    split
    · omega
    · omega
  rw [Function.iterate_succ_apply, step_admitted ((verifyArea_piece hmax (by omega)).mpr hread),
    copyinString_nul hpage (by omega) (pieceLen_page vaddr max) hj hnul h]
  simp only [hlen]
  rfl

/-- A string that ends in its first piece is fetched whole. -/
theorem returns_nul {j : Nat} (buf : Bytes) (hmax : 0 < max)
    (hread : PieceReadable um vaddr (vaddr + max) vaddr) (hj : j < pieceLen vaddr max)
    (hnul : um.byte (vaddr + j) = 0) (h : ∀ t, t < j → um.byte (vaddr + t) ≠ 0) :
    ∃ buf', Returns um vaddr max buf j buf' ∧ ∀ i, i ≤ j → buf' i = um.byte (vaddr + i) := by
  refine ⟨_, ⟨2, step_nul hmax hread hj hnul h⟩, fun i hi => ?_⟩
  rw [splice_of_mem (Nat.zero_le i) (by omega), Nat.sub_zero]

/-- At the end of the address space there is no page, and `walk` fails. -/
theorem step_wraps (hmax : 0 < max) (h : Wraps um vaddr max) :
    step um (.looping (start vaddr max buf)) = .panicked := by
  obtain ⟨hwrap, hadmitted⟩ := h
  have hpage := pieceLen_page vaddr max
  have hup := lt_pgRoundDown_add vaddr
  have htop : MAXVA + 2 * PGSIZE ≤ ADDRS := by decide
  have hhigh : ¬ pgRoundDown vaddr < MAXVA := by
    simp only [PGSIZE] at *
    omega
  rw [step_admitted hadmitted, copyinString, copyinLoop, if_pos (pieceLen_pos vaddr hmax)]
  simp only [walkaddr, if_neg hhigh]

/-! ## From piece to piece -/

theorem pieceReadable_first {a : Nat} (hlo : vaddr ≤ a) (hhi : a < vaddr + pieceLen vaddr max) :
    PieceReadable um vaddr (vaddr + max) a ↔ PieceReadable um vaddr (vaddr + max) vaddr := by
  have hpage := pieceLen_page vaddr max
  have hsame : pgRoundDown a = pgRoundDown vaddr := by
    simp only [pgRoundDown, PGSIZE] at *
    omega
  unfold PieceReadable
  rw [hsame]

/-- The piece behind a full one begins a page. -/
theorem pieceLen_aligned (h : pieceLen vaddr max < max) :
    (vaddr + pieceLen vaddr max) % PGSIZE = 0 := by
  simp only [pieceLen, PGSIZE] at *
  omega

theorem pieceReadable_next {a : Nat} (h : pieceLen vaddr max < max)
    (hlo : vaddr + pieceLen vaddr max ≤ a) :
    PieceReadable um (vaddr + pieceLen vaddr max)
        (vaddr + pieceLen vaddr max + (max - pieceLen vaddr max)) a ↔
      PieceReadable um vaddr (vaddr + max) a := by
  have haligned := pieceLen_aligned h
  have hround : vaddr + pieceLen vaddr max ≤ pgRoundDown a := by
    simp only [pgRoundDown, PGSIZE] at *
    omega
  have hend : vaddr + pieceLen vaddr max + (max - pieceLen vaddr max) = vaddr + max := by omega
  unfold PieceReadable
  rw [hend, Nat.max_eq_right hround, Nat.max_eq_right (by omega)]

/-- After a full piece the loop is where it begins, further on. -/
theorem step_next (hread : PieceReadable um vaddr (vaddr + max) vaddr)
    (h : ∀ t, t < pieceLen vaddr max → um.byte (vaddr + t) ≠ 0) (hlt : pieceLen vaddr max < max) :
    step um (.looping (start vaddr max buf)) =
      .looping (start (vaddr + pieceLen vaddr max) (max - pieceLen vaddr max)
        (splice buf 0 (pieceLen vaddr max) fun t => um.byte (vaddr + t))) := by
  rw [step_full (by omega) hread h, start, pieceLen_aligned hlt]

theorem Returns.of_next (hread : PieceReadable um vaddr (vaddr + max) vaddr)
    (h : ∀ t, t < pieceLen vaddr max → um.byte (vaddr + t) ≠ 0) (hlt : pieceLen vaddr max < max)
    (hret : Returns um (vaddr + pieceLen vaddr max) (max - pieceLen vaddr max)
      (splice buf 0 (pieceLen vaddr max) fun t => um.byte (vaddr + t)) ret buf') :
    Returns um vaddr max buf ret buf' := by
  obtain ⟨n, hn⟩ := hret
  refine ⟨n + 1, ?_⟩
  rw [argstrfetch, Function.iterate_succ_apply, step_next hread h hlt]
  exact hn

/-- The range is endless exactly if its first piece is readable without a NUL, and the rest is
    endless. -/
theorem endless_iff (hmax : 0 < max) : Endless um vaddr max ↔
    (PieceReadable um vaddr (vaddr + max) vaddr ∧
      ∀ t, t < pieceLen vaddr max → um.byte (vaddr + t) ≠ 0) ∧
    (pieceLen vaddr max < max →
      Endless um (vaddr + pieceLen vaddr max) (max - pieceLen vaddr max)) := by
  have hle := pieceLen_le vaddr max
  constructor
  · intro h
    refine ⟨⟨(h vaddr (by omega) (by omega)).2, fun t ht => (h (vaddr + t) (by omega) (by omega)).1⟩,
      fun hlt a hlo hhi => ?_⟩
    obtain ⟨hchar, hread⟩ := h a (by omega) (by omega)
    exact ⟨hchar, (pieceReadable_next hlt hlo).mpr hread⟩
  · rintro ⟨⟨hread, hchars⟩, hrest⟩ a hlo hhi
    by_cases hin : a < vaddr + pieceLen vaddr max
    · refine ⟨?_, (pieceReadable_first hlo hin).mpr hread⟩
      have hchar := hchars (a - vaddr) (by omega)
      rwa [Nat.add_sub_cancel' hlo] at hchar
    · have hlt : pieceLen vaddr max < max := by omega
      obtain ⟨hchar, hread⟩ := hrest hlt a (by omega) (by omega)
      exact ⟨hchar, (pieceReadable_next hlt (by omega)).mp hread⟩

/-- A NUL that the loop gets to. -/
structure Reached (um : UserMem) (vaddr max k : Nat) : Prop where
  within : k < max
  chars : ∀ i, i < k → um.byte (vaddr + i) ≠ 0
  nul : um.byte (vaddr + k) = 0
  pieces : ∀ a, vaddr ≤ a → a ≤ vaddr + k → PieceReadable um vaddr (vaddr + max) a

theorem Reached.stringAt (h : Reached um vaddr max k) : StringAt um vaddr max k where
  within := h.within
  chars := h.chars
  nul := h.nul
  readable := by
    have hk := h.within
    intro a hlo hhi
    exact ((h.pieces a hlo (by omega)).present hlo (by omega)).2

theorem reached_next (hread : PieceReadable um vaddr (vaddr + max) vaddr)
    (h : ∀ t, t < pieceLen vaddr max → um.byte (vaddr + t) ≠ 0) (hlt : pieceLen vaddr max < max)
    (hnext : Reached um (vaddr + pieceLen vaddr max) (max - pieceLen vaddr max) k) :
    Reached um vaddr max (pieceLen vaddr max + k) where
  within := by
    have hk := hnext.within
    omega
  chars := by
    intro i hi
    by_cases hin : i < pieceLen vaddr max
    · exact h i hin
    · have hchar := hnext.chars (i - pieceLen vaddr max) (by omega)
      rwa [Nat.add_assoc, Nat.add_sub_cancel' (by omega)] at hchar
  nul := Nat.add_assoc .. ▸ hnext.nul
  pieces := by
    intro a hlo hhi
    by_cases hin : a < vaddr + pieceLen vaddr max
    · exact (pieceReadable_first hlo hin).mpr hread
    · exact (pieceReadable_next hlt (by omega)).mp (hnext.pieces a (by omega) (by omega))

/-! ## Whole calls -/

/-- A loop that is not endless comes back, with -1 or with the length of a part of a string. -/
theorem returns_of_not_endless (hmax : 0 < max) (hwrap : vaddr + pieceLen vaddr max < ADDRS)
    (hend : ¬ Endless um vaddr max) :
    ∃ ret buf', Returns um vaddr max buf ret buf' ∧
      (ret = -1 ∨ ∃ k, Reached um vaddr max k ∧ 0 ≤ ret ∧ ret ≤ k) := by
  induction max using Nat.strong_induction_on generalizing vaddr buf with
  | _ max ih =>
    have hle := pieceLen_le vaddr max
    by_cases hread : PieceReadable um vaddr (vaddr + max) vaddr
    · by_cases hnul : ∃ j, j < pieceLen vaddr max ∧ um.byte (vaddr + j) = 0
      · -- the first NUL of the piece ends the string
        classical
        obtain ⟨hj, hzero⟩ := Nat.find_spec hnul
        have hchars : ∀ t, t < Nat.find hnul → um.byte (vaddr + t) ≠ 0 := fun t ht hchar =>
          Nat.find_min hnul ht ⟨by omega, hchar⟩
        obtain ⟨buf', hret, -⟩ := returns_nul buf hmax hread hj hzero hchars
        have hreached : Reached um vaddr max (Nat.find hnul) :=
          ⟨by omega, hchars, hzero, fun a hlo hhi =>
            (pieceReadable_first hlo (by omega)).mpr hread⟩
        exact ⟨_, buf', hret, .inr ⟨_, hreached, by omega, Int.le_refl _⟩⟩
      · have hchars : ∀ t, t < pieceLen vaddr max → um.byte (vaddr + t) ≠ 0 := fun t ht hchar =>
          hnul ⟨t, ht, hchar⟩
        have hrest := mt (endless_iff hmax).mpr hend
        simp only [not_and, Classical.not_imp] at hrest
        obtain ⟨hlt, hrest⟩ := hrest ⟨hread, hchars⟩
        have hpos := pieceLen_pos vaddr hmax
        have hlow := hread.end_le
        have htop : MAXVA + PGSIZE < ADDRS := by decide
        have hpage := pieceLen_page (vaddr + pieceLen vaddr max) (max - pieceLen vaddr max)
        obtain ⟨ret, buf', hrun, hret⟩ := ih (max - pieceLen vaddr max) (by omega) (by omega)
          (by omega) hrest
        refine ⟨ret, buf', hrun.of_next hread hchars hlt, hret.imp_right ?_⟩
        rintro ⟨k, hk, hnonneg, hle⟩
        exact ⟨_, reached_next hread hchars hlt hk, hnonneg, by omega⟩
    · exact ⟨-1, buf, ⟨1, step_refused (mt (verifyArea_piece hmax hwrap).mp hread)⟩, .inl rfl⟩

/-- What stays true of a loop that does not end: it is in an endless range, or `max` is used up
    where the empty range is admitted. -/
def Stuck (um : UserMem) : Run → Prop
  | .looping f => f.gotNull = -1 ∧ f.len = 0 ∧ f.vaddr < ADDRS ∧
      (f.max = 0 ∧ verifyArea um f.vaddr 0 = 0 ∨
        0 < f.max ∧ f.offset = f.vaddr % PGSIZE ∧ Endless um f.vaddr f.max)
  | _ => False

theorem step_stuck {r : Run} (h : Stuck um r) : Stuck um (step um r) := by
  match r, h with
  | .looping ⟨gotNull, len, offset, max, vaddr, buf⟩, h =>
    simp only [Stuck] at h
    obtain ⟨rfl, rfl, hva, ⟨rfl, hempty⟩ | ⟨hmax, rfl, hend⟩⟩ := h
    · -- nothing is left to fetch, and nothing changes
      have hsame : step um (.looping ⟨-1, 0, offset, 0, vaddr, buf⟩) =
          .looping ⟨-1, 0, 0, 0, vaddr, buf⟩ := by
        show (if verifyArea um vaddr (min (PGSIZE - offset) 0) < 0 then _ else _) = _
        rw [Nat.min_zero, hempty, if_neg (by decide), copyinString, copyinLoop, if_neg (by decide)]
        simp [Nat.mod_eq_of_lt hva]
      rw [hsame]
      exact ⟨rfl, rfl, hva, .inl ⟨rfl, hempty⟩⟩
    · obtain ⟨⟨hread, hchars⟩, hrest⟩ := (endless_iff hmax).mp hend
      have hlow := hread.end_le
      have htop : MAXVA < ADDRS := by decide
      have hstep : step um (.looping (start vaddr max buf)) = _ := step_full hmax hread hchars
      rw [start] at hstep
      rw [hstep]
      refine ⟨rfl, rfl, by show vaddr + pieceLen vaddr max < ADDRS; omega, ?_⟩
      by_cases hlt : pieceLen vaddr max < max
      · exact .inr ⟨Nat.sub_pos_of_lt hlt, (pieceLen_aligned hlt).symm, hrest hlt⟩
      · exact .inl ⟨Nat.sub_eq_zero_of_le (by omega), verifyArea_empty hread hmax⟩

theorem endless_stuck (hva : vaddr < ADDRS) (hmax : 0 < max) (h : Endless um vaddr max)
    (buf : Bytes) (n : Nat) : Stuck um (argstrfetch um vaddr max buf n) := by
  have hstart : Stuck um (.looping (start vaddr max buf)) :=
    ⟨rfl, rfl, hva, .inr ⟨hmax, rfl, h⟩⟩
  exact Function.Iterate.rec (Stuck um) hstart (fun _ => step_stuck) n

/-- A call comes back once. -/
theorem Returns.unique {ret' : Int} {buf'' : Bytes} (h : Returns um vaddr max buf ret buf')
    (h' : Returns um vaddr max buf ret' buf'') : ret = ret' ∧ buf' = buf'' := by
  obtain ⟨n, hn⟩ := h
  obtain ⟨n', hn'⟩ := h'
  have hstays : ∀ m r b, (step um)^[m] (.returned r b) = .returned r b := fun m r b =>
    Function.iterate_fixed rfl m
  unfold argstrfetch at hn hn'
  have hsum := Function.iterate_add_apply (step um) n n' (.looping (start vaddr max buf))
  have hsum' := Function.iterate_add_apply (step um) n' n (.looping (start vaddr max buf))
  rw [hn', hstays] at hsum
  rw [hn, hstays, Nat.add_comm, hsum] at hsum'
  exact Run.returned.inj hsum'.symm

theorem not_returns_of_endless (hva : vaddr < ADDRS) (hmax : 0 < max) (h : Endless um vaddr max) :
    ¬ Returns um vaddr max buf ret buf' := by
  rintro ⟨n, hn⟩
  have hstuck := endless_stuck hva hmax h buf n
  rw [hn] at hstuck
  exact hstuck

theorem not_returns_of_wraps (hmax : 0 < max) (h : Wraps um vaddr max) :
    ¬ Returns um vaddr max buf ret buf' := by
  rintro ⟨n, hn⟩
  unfold argstrfetch at hn
  cases n with
  | zero => cases hn
  | succ n =>
    rw [Function.iterate_succ_apply, step_wraps hmax h, Function.iterate_fixed rfl] at hn
    cases hn

/-- Otherwise it comes back, with -1 or with the length of a part of a string. -/
theorem returns_or (hmax : 0 < max) (hend : ¬ Endless um vaddr max)
    (hwraps : ¬ Wraps um vaddr max) (buf : Bytes) : ∃ ret buf', Returns um vaddr max buf ret buf' ∧
      (ret = -1 ∨ ∃ k, Reached um vaddr max k ∧ 0 ≤ ret ∧ ret ≤ k) := by
  by_cases hwrap : vaddr + pieceLen vaddr max < ADDRS
  · exact returns_of_not_endless hmax hwrap hend
  · have hrefused : verifyArea um vaddr (pieceLen vaddr max) ≠ 0 := fun hadmitted =>
      hwraps ⟨by omega, hadmitted⟩
    exact ⟨-1, buf, ⟨1, step_refused hrefused⟩, .inl rfl⟩

/-! ## The buffer -/

/-- The copy stays in the piece. -/
theorem copyChars_frame (page : Bytes) (n p dst : Nat) (buf : Bytes) :
    dst ≤ (copyChars page n p dst buf).2.1 ∧ (copyChars page n p dst buf).2.1 ≤ dst + n ∧
      ∀ i, ¬ (dst ≤ i ∧ i < dst + n) → (copyChars page n p dst buf).1 i = buf i := by
  induction n generalizing p dst buf with
  | zero => exact ⟨Nat.le_refl _, Nat.le_refl _, fun _ _ => rfl⟩
  | succ n ih =>
    rw [copyChars]
    split
    · refine ⟨Nat.le_refl _, Nat.le_add_right _ _, fun i hi => update_of_ne ?_ _ _⟩
      omega
    · obtain ⟨hfirst, hlast, hframe⟩ := ih (p + 1) (dst + 1) (update buf dst (page p))
      refine ⟨by omega, by omega, fun i hi => ?_⟩
      rw [hframe i (by omega), update_of_ne (by omega)]

theorem copyinLoop_frame {srcva dst : Nat} {last : Option Nat}
    (h : copyinLoop um srcva dst max buf = some (buf', last)) {i : Nat}
    (hi : ¬ (dst ≤ i ∧ i < dst + max)) : buf' i = buf i := by
  induction max using Nat.strong_induction_on generalizing srcva dst buf with
  | _ max ih =>
    rw [copyinLoop] at h
    split at h
    · simp only at h
      split at h
      · cases h
      · cases h
        rfl
      · rename_i page hpage
        have hframe := copyChars_frame page (min (PGSIZE - (srcva - pgRoundDown srcva)) max)
          (srcva - pgRoundDown srcva) dst buf
        have hup := lt_pgRoundDown_add srcva
        simp only [PGSIZE] at *
        split at h
        · rename_i hcopy
          rw [hcopy] at hframe
          cases h
          exact hframe.2.2 i (by omega)
        · rename_i buf1 dst1 hcopy
          rw [hcopy] at hframe
          obtain ⟨hfirst, hlast, hrest⟩ := hframe
          have hfirst : dst ≤ dst1 := hfirst
          have hlast : dst1 ≤ _ := hlast
          rw [ih _ (by omega) h (by omega)]
          exact hrest i (by omega)
    · cases h
      rfl

theorem copyinString_frame {srcva dst : Nat} {got : Int}
    (h : copyinString um buf dst srcva max = some (buf', got)) {i : Nat}
    (hi : ¬ (dst ≤ i ∧ i < dst + max)) : buf' i = buf i := by
  unfold copyinString at h
  split at h
  · cases h
  · rename_i hloop
    cases h
    exact copyinLoop_frame hloop hi
  · rename_i hloop
    cases h
    exact copyinLoop_frame hloop hi

/-- What is left of the budget fits behind what is fetched, and the rest of the memory is as it
    was. -/
def InBuffer (size : Nat) (buf : Bytes) (r : Run) : Prop :=
  (∀ f, r = .looping f → f.gotNull = -1 → f.len + f.max ≤ size) ∧
    ∀ buf', r.buf = some buf' → ∀ i, size ≤ i → buf' i = buf i

theorem round_inBuffer {f : Fetch} {size : Nat} (hfits : f.len + f.max ≤ size)
    (h : ∀ i, size ≤ i → f.buf i = buf i) : InBuffer size buf (round um f) := by
  unfold round
  simp only
  split
  · refine ⟨fun _ hf => (nomatch hf), fun buf' hbuf => ?_⟩
    cases hbuf
    exact h
  · split
    · exact ⟨fun _ hf => (nomatch hf), fun _ hbuf => nomatch hbuf⟩
    · rename_i buf1 got hcopy
      constructor
      · intro f' hf' hgot
        obtain rfl := Run.looping.inj hf'
        have hgot : got = -1 := hgot
        subst hgot
        show (if (-1 : Int) > 0 then f.len + (-1 : Int).toNat else f.len) +
          (f.max - min (PGSIZE - f.offset) f.max) ≤ size
        rw [if_neg (by decide)]
        omega
      · intro buf' hbuf i hi
        cases hbuf
        rw [← h i hi]
        exact copyinString_frame hcopy (by omega)

theorem step_inBuffer {r : Run} {size : Nat} (h : InBuffer size buf r) :
    InBuffer size buf (step um r) := by
  match r, h with
  | .looping f, h =>
    rw [step]
    split
    · rename_i hgot
      exact round_inBuffer (h.1 f rfl hgot) (h.2 f.buf rfl)
    · refine ⟨fun _ hf => (nomatch hf), fun buf' hbuf => ?_⟩
      cases hbuf
      exact h.2 f.buf rfl
  | .returned _ _, h => exact h
  | .panicked, h => exact h

/-- Nothing is written outside the buffer. -/
theorem argstrfetch_inBuffer (um : UserMem) (vaddr max : Nat) (buf : Bytes) (n : Nat) :
    InBuffer max buf (argstrfetch um vaddr max buf n) := by
  have hstart : InBuffer max buf (.looping (start vaddr max buf)) := by
    constructor
    · intro f hf _
      obtain rfl := Run.looping.inj hf
      show 0 + max ≤ max
      omega
    · intro buf' hbuf i _
      cases hbuf
      rfl
  exact Function.Iterate.rec (InBuffer max buf) hstart (fun _ => step_inBuffer) n

/-! ## The end of the loop -/

/-- `argstrfetch` comes back if and only if the first `max` bytes are not readable pieces without
    a NUL, and the first piece does not reach the end of the address space. -/
theorem argstrfetch_ends (um : UserMem) (buf : Bytes) (hva : vaddr < ADDRS) (hmax : 0 < max) :
    (∃ ret buf', Returns um vaddr max buf ret buf') ↔
      ¬ Endless um vaddr max ∧ ¬ Wraps um vaddr max := by
  constructor
  · rintro ⟨ret, buf', hret⟩
    constructor
    · exact fun hend => not_returns_of_endless hva hmax hend hret
    · exact fun hwraps => not_returns_of_wraps hmax hwraps hret
  · rintro ⟨hend, hwraps⟩
    obtain ⟨ret, buf', hret, -⟩ := returns_or hmax hend hwraps buf
    exact ⟨ret, buf', hret⟩

/-- One readable area of two pages. -/
def oneArea (content : Bytes) : UserMem where
  areas := [⟨0x1000, 0x3000, readPerm, 0, 0, none⟩]
  page va := some fun k => content (va + k)
  wf := ⟨List.pairwise_singleton _ _, fun vma hvma => by
    obtain rfl := List.mem_singleton.mp hvma
    decide⟩
  served := fun _ _ _ _ _ _ => rfl

theorem byte_oneArea (content : Bytes) (a : Nat) : (oneArea content).byte a = content a := by
  show content (pgRoundDown a + a % PGSIZE) = content a
  rw [pgRoundDown, Nat.sub_add_cancel (Nat.mod_le a PGSIZE)]

theorem oneArea_readable (content : Bytes) {lo hi a : Nat} (hlo : 0x1000 ≤ lo) (hhi : hi ≤ 0x3000) :
    PieceReadable (oneArea content) lo hi a :=
  ⟨_, List.mem_cons_self, by decide, by simp only; omega, by simp only; omega⟩

/-- The string "ls" at the start of the area. -/
def lsName : Bytes := fun a => if a = 0x1000 then 108 else if a = 0x1001 then 115 else 0

theorem argstrfetch_ends_ls :
    ∃ ret buf', Returns (oneArea lsName) 0x1000 16 (fun _ => 1) ret buf' := by
  refine (argstrfetch_ends _ _ (by decide) (by decide)).mpr ⟨fun hend => ?_, fun hwraps => ?_⟩
  · exact (hend 0x1002 (by decide) (by decide)).1 (byte_oneArea _ _)
  · exact absurd hwraps.1 (by decide)

/-- Four readable bytes without a NUL, and no more wanted. -/
theorem argstrfetch_endless : ¬ ∀ um vaddr max buf, vaddr < ADDRS → 0 < max →
    ∃ ret buf', Returns um vaddr max buf ret buf' := by
  intro hall
  obtain ⟨ret, buf', hret⟩ := hall (oneArea fun _ => 97) 0x1000 4 (fun _ => 0) (by decide)
    (by decide)
  refine not_returns_of_endless (by decide) (by decide) (fun a _ _ => ⟨?_, ?_⟩) hret
  · rw [byte_oneArea]
    decide
  · exact oneArea_readable _ (by decide) (by decide)

/-! ## Strings -/

/-- A string that does not end in its first piece comes back without that piece. -/
theorem StringAt.first_piece (h : StringAt um vaddr max k)
    (hret : Returns um vaddr max buf k buf') :
    k < pieceLen vaddr max ∧ PieceReadable um vaddr (vaddr + max) vaddr := by
  have hk := h.within
  have hmax : 0 < max := by omega
  obtain ⟨vma, hmem, -, hend, -⟩ := h.readable vaddr (by omega) (by omega)
  have hbelow := um.wf.below vma hmem
  have htop : MAXVA + 2 * PGSIZE ≤ ADDRS := by decide
  have hpage := pieceLen_page vaddr max
  have hread : PieceReadable um vaddr (vaddr + max) vaddr := by
    by_contra hno
    have hminus : Returns um vaddr max buf (-1) buf :=
      ⟨1, step_refused (mt (verifyArea_piece hmax (by omega)).mp hno)⟩
    have heq := (hret.unique hminus).1
    omega
  refine ⟨?_, hread⟩
  by_contra hlong
  have hpos := pieceLen_pos vaddr hmax
  have hlow := hread.end_le
  have hchars : ∀ t, t < pieceLen vaddr max → um.byte (vaddr + t) ≠ 0 := fun t ht =>
    h.chars t (by omega)
  have hnul : um.byte (vaddr + pieceLen vaddr max + (k - pieceLen vaddr max)) = 0 := by
    rw [Nat.add_assoc, Nat.add_sub_cancel' (by omega)]
    exact h.nul
  have hrest : ¬ Endless um (vaddr + pieceLen vaddr max) (max - pieceLen vaddr max) := fun hend =>
    (hend _ (Nat.le_add_right _ _) (by omega)).1 hnul
  have hpage' := pieceLen_page (vaddr + pieceLen vaddr max) (max - pieceLen vaddr max)
  obtain ⟨ret, buf1, hnext, hpart⟩ := returns_or (by omega) hrest
    (fun hwraps => absurd hwraps.1 (by omega))
    (splice buf 0 (pieceLen vaddr max) fun t => um.byte (vaddr + t))
  have heq := (hret.unique (hnext.of_next hread hchars (by omega))).1
  rcases hpart with hminus | ⟨k', hk', -, hle⟩
  · omega
  · -- the NUL that is found is the one of the string
    have hshort : k' ≤ k - pieceLen vaddr max := by
      by_contra hbeyond
      exact hk'.chars _ (by omega) hnul
    omega

/-- Strings are fetched whole if and only if they end in their first piece, and the loop comes back
    where there is none. -/
theorem argstrfetch_whole (um : UserMem) (hva : vaddr < ADDRS) (hmax : 0 < max) :
    FetchesStrings um vaddr max ↔ FitsPiece um vaddr max := by
  constructor
  · intro h
    obtain ⟨hstring, hnone, -⟩ := h fun _ => 0
    refine ⟨fun k hk => ?_, fun hno => ?_⟩
    · obtain ⟨buf', hret, -⟩ := hstring k hk
      exact hk.first_piece hret
    · obtain ⟨buf', hret⟩ := hnone hno
      exact ⟨fun hend => not_returns_of_endless hva hmax hend hret,
        fun hwraps => not_returns_of_wraps hmax hwraps hret⟩
  · rintro ⟨hstring, hnone⟩ buf
    refine ⟨fun k hk => ?_, fun hno => ?_, fun n buf' hbuf i hi => ?_⟩
    · obtain ⟨hfirst, hread⟩ := hstring k hk
      exact returns_nul buf hmax hread hfirst hk.nul hk.chars
    · obtain ⟨hend, hwraps⟩ := hnone hno
      obtain ⟨ret, buf', hret, rfl | ⟨k, hk, -⟩⟩ := returns_or hmax hend hwraps buf
      · exact ⟨buf', hret⟩
      · exact absurd hk.stringAt (hno k)
    · exact (argstrfetch_inBuffer um vaddr max buf n).2 buf' hbuf i hi

theorem oneArea_stringAt {content : Bytes} (hchars : ∀ i, i < k → content (vaddr + i) ≠ 0)
    (hnul : content (vaddr + k) = 0) (hmax : k < max) (hlo : 0x1000 ≤ vaddr)
    (hhi : vaddr + k < 0x3000) : StringAt (oneArea content) vaddr max k where
  within := hmax
  chars := fun i hi => byte_oneArea content _ ▸ hchars i hi
  nul := byte_oneArea content _ ▸ hnul
  readable := fun a _ _ =>
    ⟨_, List.mem_cons_self, by simp only; omega, by simp only; omega, by decide⟩

/-- A name of two letters is fetched whole. -/
theorem argstrfetch_whole_ls : FetchesStrings (oneArea lsName) 0x1000 16 ∧
    ∃ buf', Returns (oneArea lsName) 0x1000 16 (fun _ => 1) 2 buf' := by
  have hstring : StringAt (oneArea lsName) 0x1000 16 2 := by
    apply oneArea_stringAt
    · intro i hi
      have hcase : i = 0 ∨ i = 1 := by omega
      rcases hcase with rfl | rfl <;> decide
    · decide
    · decide
    · decide
    · decide
  have hfits : FitsPiece (oneArea lsName) 0x1000 16 := by
    constructor
    · intro k hk
      refine ⟨?_, oneArea_readable _ (by decide) (by decide)⟩
      by_contra hlong
      have hpiece : pieceLen 0x1000 16 = 16 := by decide
      exact hk.chars 2 (by omega) (byte_oneArea _ _)
    · exact fun hno => absurd hstring (hno 2)
  have hfetch := (argstrfetch_whole (oneArea lsName) (by decide) (by decide)).mpr hfits
  obtain ⟨hreturns, -⟩ := hfetch fun _ => 1
  obtain ⟨buf', hret, -⟩ := hreturns 2 hstring
  exact ⟨hfetch, buf', hret⟩

/-- Two letters, one at the end of a page and one at the beginning of the next. -/
def acrossPages : Bytes := fun a => if a < 0x2001 then 97 else 0

/-- Of a string across two pages the second part comes back. -/
theorem argstrfetch_across_pages : StringAt (oneArea acrossPages) 0x1FFF 8 2 ∧
    (∃ buf', Returns (oneArea acrossPages) 0x1FFF 8 (fun _ => 0) 1 buf') ∧
    ¬ ∀ um vaddr max, vaddr < ADDRS → 0 < max → FetchesStrings um vaddr max := by
  have hstring : StringAt (oneArea acrossPages) 0x1FFF 8 2 := by
    refine oneArea_stringAt (fun i hi => ?_) (by decide) (by decide) (by decide) (by decide)
    rw [acrossPages, if_pos (by omega)]
    decide
  have hret : ∃ buf', Returns (oneArea acrossPages) 0x1FFF 8 (fun _ => 0) 1 buf' := by
    have hfirst : ∀ t, t < pieceLen 0x1FFF 8 → (oneArea acrossPages).byte (0x1FFF + t) ≠ 0 :=
      fun t ht => hstring.chars t (Nat.lt_trans ht (by decide))
    have hsecond := fun buf => returns_nul buf (show 0 < 8 - pieceLen 0x1FFF 8 by decide)
      (oneArea_readable acrossPages (by decide) (by decide)) (show 1 < _ by decide) hstring.nul
      fun t ht => by
        obtain rfl : t = 0 := by omega
        exact hstring.chars 1 (by decide)
    choose buf' hret using hsecond
    exact ⟨_, Returns.of_next (oneArea_readable _ (by decide) (by decide)) hfirst (by decide)
      (hret _).1⟩
  refine ⟨hstring, hret, fun hall => ?_⟩
  obtain ⟨buf', hone⟩ := hret
  obtain ⟨buf'', htwo, -⟩ := (hall (oneArea acrossPages) 0x1FFF 8 (by decide) (by decide)
    fun _ => 0).1 2 hstring
  exact absurd (hone.unique htwo).1 (by decide)

end Uniks.StringFetch
