/-
  `do_no_page` and `true_load_segment` of `kernel/mm/vm.c`, down to the bytes of the page.

  `Uniks.Vm` leaves open what a page contains that is mapped on a fault; here it is computed.  A
  file is what `readi` sees of it: its size, and for each block the bytes that `bmap` and
  `blk_read` give, or nothing where one of them fails.  Whether a sync is running is part of the
  surroundings, so `readi` may refuse, read less than it is asked for, or read everything.

  The question is which bytes of the allocated page are still those of whoever had it before.
  `readi_prefix` says that `readi` fills a prefix of what it is asked for, and stops at a byte the
  file cannot deliver; everything else is the arithmetic of `true_load_segment`.
-/
import Uniks.VerifyArea
import Uniks.Lib.ByteMem

namespace Uniks.LoadPage

open Uniks.Vm Uniks.Hoare Uniks.ByteMem

abbrev BLKSIZE : Nat := 4096

def EBUSY : Int := 16

/-- The values of 32 bits. -/
abbrev WORDS : Nat := 2 ^ 32

/-! ## Reading a file -/

/-- A file as `readi` sees it. -/
structure Inode where
  iSize : UInt32
  block : Nat → Option Bytes

/-- The byte at a position of a file, where the file can deliver it. -/
def Inode.byte (ip : Inode) (pos : Nat) : Option UInt8 :=
  if pos < ip.iSize.toNat then (ip.block (pos / BLKSIZE)).map fun data => data (pos % BLKSIZE) else none

/-- The loop of `readi`; the source advances `off` and `dst` by what `tot` has grown. -/
def readiLoop (ip : Inode) (off n tot : Nat) (dst : Bytes) : Bytes × Nat :=
  if tot < n then
    match ip.block ((off + tot) / BLKSIZE) with
    | none => (dst, tot)
    | some data =>
      let m := min (n - tot) (BLKSIZE - (off + tot) % BLKSIZE)
      readiLoop ip off n (tot + m) (splice dst tot m fun k => data ((off + tot) % BLKSIZE + k))
  else (dst, tot)
termination_by n - tot
decreasing_by
  have hlt : (off + tot) % BLKSIZE < BLKSIZE := Nat.mod_lt _ (by decide)
  omega

/-- The source's `readi` into a kernel buffer; `off` and `n` have 64 bits. -/
def readi (syncing : Nat) (ip : Inode) (dst : Bytes) (off n : Nat) : Bytes × Int :=
  if syncing > 0 then (dst, -EBUSY)
  else if off > ip.iSize.toNat ∨ (off + n) % ADDRS < off then (dst, 0)
  else
    let n := if (off + n) % ADDRS > ip.iSize.toNat then ip.iSize.toNat - off else n
    let (dst, tot) := readiLoop ip off n 0 dst
    (dst, tot)

/-! ## Filling a page -/

/-- What the contents of a page depend on besides the page. -/
structure Env where
  syncing : Nat
  inode : Nat → Inode

/-- The 32-bit variable `segoff` of `true_load_segment`. -/
def segoff (vma : Vma) (vaddr : Nat) : Nat := (vaddr + ADDRS - vma.vmStart) % WORDS

/-- The variable `pgoff`: the macro `MAX` takes both its arguments with the type of the first. -/
def pgoff (vma : Vma) (vaddr : Nat) : Nat :=
  min (max (segoff vma vaddr) (vma.filesz % WORDS) - segoff vma vaddr) PGSIZE

/-- Where in the file the page begins. -/
def fileOff (vma : Vma) (vaddr : Nat) : Nat := (vma.vmPgoff + segoff vma vaddr) % ADDRS

/-- The length of an area, as the test for a `.bss` section computes it. -/
def areaSize (vma : Vma) : Nat := (vma.vmEnd + ADDRS - vma.vmStart) % ADDRS

/-- The part of `true_load_segment` that reads the file. -/
def readSegment (env : Env) (vma : Vma) (ip : Inode) (vaddr : Nat) (page : Bytes) : Bytes :=
  if segoff vma vaddr < vma.filesz then
    (readi env.syncing ip page (fileOff vma vaddr) (pgoff vma vaddr)).1
  else page

/-- The part of `true_load_segment` that clears the rest, where there is a `.bss` section. -/
def clearRest (vma : Vma) (vaddr : Nat) (page : Bytes) : Bytes :=
  if vma.filesz ≠ areaSize vma then
    splice page (pgoff vma vaddr) (PGSIZE - pgoff vma vaddr) fun _ => 0
  else page

/-- The source's `true_load_segment`. -/
def trueLoadSegment (env : Env) (vma : Vma) (ip : Inode) (vaddr : Nat) (page : Bytes) :
    Except Fault Bytes :=
  if vaddr % PGSIZE = 0 then .ok (clearRest vma vaddr (readSegment env vma ip vaddr page))
  else .error .check

def ofPage (page : Page) : Bytes := fun k => if h : k < PGSIZE then page ⟨k, h⟩ else 0

def toPage (bytes : Bytes) : Page := fun k => bytes k

theorem toPage_apply (bytes : Bytes) (k : Fin PGSIZE) : toPage bytes k = bytes k := rfl

theorem ofPage_apply (page : Page) {k : Nat} (hk : k < PGSIZE) : ofPage page k = page ⟨k, hk⟩ :=
  dif_pos hk

/-- The source's `do_no_page`. -/
def doNoPage (env : Env) (m : Mem) (pt : PageTable) (vma : Vma) (vaddr : Nat) (targetperm : Perm) :
    Except Fault (Mem × PageTable) := do
  let (s, pageStart) ← pagesAlloc m.phys 1
  let (s, pt) ← mappages s pt vaddr PGSIZE (.page pageStart) targetperm
  let bytes ← (match vma.vmInode with
    | some ip => trueLoadSegment env vma (env.inode ip) vaddr (ofPage (m.data pageStart))
    | none => .ok (ofPage (m.data pageStart)))
  return ({ phys := s, data := Function.update m.data pageStart (toPage bytes) }, pt)

variable {env : Env} {ip : Inode} {vma : Vma} {vaddr off n : Nat} {dst page : Bytes}

/-! ## What `readi` leaves alone -/

/-- The loop fills a prefix and stops at the end or at a byte it cannot get. -/
theorem readiLoop_prefix (ip : Inode) (off n tot : Nat) (dst : Bytes) (htot : tot ≤ n)
    (hin : off + n ≤ ip.iSize.toNat) :
    ∃ t, (readiLoop ip off n tot dst).2 = t ∧ tot ≤ t ∧ t ≤ n ∧
      (t < n → ip.byte (off + t) = none) ∧
      ∀ k, if tot ≤ k ∧ k < t then ip.byte (off + k) = some ((readiLoop ip off n tot dst).1 k)
        else (readiLoop ip off n tot dst).1 k = dst k := by
  fun_induction readiLoop ip off n tot dst with
  | case1 tot dst hlt hblock =>
    refine ⟨tot, rfl, Nat.le_refl _, htot, fun _ => ?_, fun k => ?_⟩
    · rw [Inode.byte, if_pos (by omega), hblock, Option.map_none]
    · rw [if_neg (by omega)]
  | case2 tot dst hlt data hblock m ih =>
    have hm : m = min (n - tot) (BLKSIZE - (off + tot) % BLKSIZE) := rfl
    have hmod : (off + tot) % BLKSIZE < BLKSIZE := Nat.mod_lt _ (by decide)
    obtain ⟨t, hres, hlow, hhigh, hstop, hbytes⟩ := ih (by omega)
    refine ⟨t, hres, by omega, hhigh, hstop, fun k => ?_⟩
    have hk := hbytes k
    by_cases hround : tot ≤ k ∧ k < tot + m
    · -- a byte of this round, which later rounds leave alone
      have hdiv : (off + k) / BLKSIZE = (off + tot) / BLKSIZE := by
        unfold BLKSIZE at hm hmod ⊢
        omega
      have hbyte : (off + k) % BLKSIZE = (off + tot) % BLKSIZE + (k - tot) := by
        unfold BLKSIZE at hm hmod ⊢
        omega
      rw [if_neg (by omega), splice_of_mem hround.1 hround.2] at hk
      rw [if_pos (by omega), hk, Inode.byte, if_pos (by omega), hdiv, hblock, Option.map_some, hbyte]
    · rw [splice_of_not_mem hround] at hk
      by_cases hlater : tot + m ≤ k ∧ k < t
      · rw [if_pos hlater] at hk
        rw [if_pos (by omega)]
        exact hk
      · rw [if_neg hlater] at hk
        rw [if_neg (by omega)]
        exact hk
  | case3 tot dst hlt => exact ⟨tot, rfl, Nat.le_refl _, htot, fun _ => by omega, fun k => by
      rw [if_neg (by omega)]⟩

/-- `readi` fills a prefix of what it is asked for, and returns its length if it is not turned away.
    It stops short of the end only when a sync is running or at a byte the file cannot deliver. -/
theorem readi_prefix (syncing : Nat) (ip : Inode) (dst : Bytes) (off n : Nat)
    (hn : off + n < ADDRS ∨ ip.iSize.toNat < off) :
    ∃ t, (readi syncing ip dst off n).2.toNat = t ∧ t ≤ n ∧
      (t < n → syncing > 0 ∨ ip.byte (off + t) = none) ∧
      ∀ k, if k < t then ip.byte (off + k) = some ((readi syncing ip dst off n).1 k)
        else (readi syncing ip dst off n).1 k = dst k := by
  unfold readi
  by_cases hsync : syncing > 0
  · rw [if_pos hsync]
    refine ⟨0, rfl, Nat.zero_le _, fun _ => .inl hsync, fun k => ?_⟩
    rw [if_neg (Nat.not_lt_zero k)]
  · rw [if_neg hsync]
    by_cases hpast : off > ip.iSize.toNat ∨ (off + n) % ADDRS < off
    · rw [if_pos hpast]
      have hout : ip.iSize.toNat < off := by
        rcases hpast with h | h
        · exact h
        · rcases hn with hn | hn
          · rw [Nat.mod_eq_of_lt hn] at h
            omega
          · exact hn
      refine ⟨0, rfl, Nat.zero_le _, fun _ => .inr ?_, fun k => ?_⟩
      · rw [Inode.byte, if_neg (by omega)]
      · rw [if_neg (Nat.not_lt_zero k)]
    · rw [if_neg hpast]
      rw [not_or] at hpast
      have hsum : (off + n) % ADDRS = off + n := by
        rcases hn with hn | hn
        · exact Nat.mod_eq_of_lt hn
        · omega
      rw [hsum]
      obtain ⟨n', hn'⟩ : ∃ n', n' = if off + n > ip.iSize.toNat then ip.iSize.toNat - off else n := ⟨_, rfl⟩
      rw [← hn']
      have hle : n' ≤ n ∧ off + n' ≤ ip.iSize.toNat ∧ (n' < n → off + n' = ip.iSize.toNat) := by
        rw [hn']
        split <;> omega
      obtain ⟨t, hres, -, ht, hstop, hbytes⟩ :=
        readiLoop_prefix ip off n' 0 dst (Nat.zero_le _) hle.2.1
      refine ⟨t, hres, by omega, fun hlt => .inr ?_, fun k => ?_⟩
      · by_cases hcut : t < n'
        · exact hstop hcut
        · rw [Inode.byte, if_neg (by omega)]
      · have hk := hbytes k
        by_cases hkt : k < t
        · rw [if_pos ⟨Nat.zero_le k, hkt⟩] at hk
          rw [if_pos hkt]
          exact hk
        · rw [if_neg fun h => hkt h.2] at hk
          rw [if_neg hkt]
          exact hk

/-- What `readi` leaves of the old page: the bytes it is not asked for, and those the file cannot
    deliver. -/
theorem readi_stale (env : Env) (page : Bytes) {j : Nat} (hn : n ≤ PGSIZE)
    (hbad : n ≤ j ∨ env.syncing > 0 ∨ ip.byte (off + j) = none) :
    (readi env.syncing ip page off n).1 j = page j := by
  rcases Nat.eq_zero_or_pos env.syncing with hsync | hsync
  · have hfits : off + n < ADDRS ∨ ip.iSize.toNat < off := by
      have := ip.iSize.toNat_lt
      unfold PGSIZE at hn
      unfold ADDRS
      omega
    obtain ⟨t, -, ht, -, hbytes⟩ := readi_prefix env.syncing ip page off n hfits
    have hj := hbytes j
    by_cases hjt : j < t
    · -- a byte that was filled is one the file had
      rw [if_pos hjt] at hj
      rcases hbad with h | h | h
      · omega
      · omega
      · rw [h] at hj
        cases hj
    · rw [if_neg hjt] at hj
      exact hj
  · rw [readi, if_pos hsync]

theorem readi_filled (page : Bytes) {j : Nat} (hn : n ≤ PGSIZE) (hsync : env.syncing = 0)
    (hall : ∀ k, k < n → (ip.byte (off + k)).isSome = true) (hj : j < n) :
    ip.byte (off + j) = some ((readi env.syncing ip page off n).1 j) := by
  have hfits : off + n < ADDRS ∨ ip.iSize.toNat < off := by
    have := ip.iSize.toNat_lt
    unfold PGSIZE at hn
    unfold ADDRS
    omega
  obtain ⟨t, -, ht, hstop, hbytes⟩ := readi_prefix env.syncing ip page off n hfits
  have hend : t = n := by
    by_contra hne
    rcases hstop (by omega) with h | h
    · omega
    · have hsome := hall t (by omega)
      rw [h] at hsome
      cases hsome
  have hbyte := hbytes j
  rw [if_pos (by omega)] at hbyte
  exact hbyte

/-! ## What `true_load_segment` leaves alone -/

theorem pgoff_le (vma : Vma) (vaddr : Nat) : pgoff vma vaddr ≤ PGSIZE := Nat.min_le_right _ _

/-- Past the end of the file's part nothing is read. -/
theorem pgoff_eq_zero (h : ¬ segoff vma vaddr < vma.filesz) : pgoff vma vaddr = 0 := by
  have hlt : segoff vma vaddr < WORDS := Nat.mod_lt _ (by decide)
  have hmod : vma.filesz % WORDS = vma.filesz := Nat.mod_eq_of_lt (by omega)
  unfold pgoff
  rw [hmod]
  omega

/-- The page is filled from the file and with zeros, and nothing of it is left as it was. -/
structure Filled (env : Env) (vma : Vma) (vaddr : Nat) : Prop where
  file : ∃ i, vma.vmInode = some i ∧ (segoff vma vaddr < vma.filesz → ∀ j, j < pgoff vma vaddr →
    env.syncing = 0 ∧ ((env.inode i).byte (fileOff vma vaddr + j)).isSome = true)
  rest : vma.filesz ≠ areaSize vma ∨ pgoff vma vaddr = PGSIZE

/-- What such a page contains. -/
def content (ip : Inode) (vma : Vma) (vaddr : Nat) : Bytes :=
  fun k => if k < pgoff vma vaddr then (ip.byte (fileOff vma vaddr + k)).getD 0 else 0

/-- What `do_no_page` puts in the page that contained `old`. -/
def loadPage (env : Env) (vma : Vma) (vaddr : Nat) (old : Bytes) : Except Fault Bytes :=
  match vma.vmInode with
  | some ip => trueLoadSegment env vma (env.inode ip) vaddr old
  | none => .ok old

theorem loadPage_eq {i : Nat} (hva : vaddr % PGSIZE = 0) (hi : vma.vmInode = some i) (old : Bytes) :
    loadPage env vma vaddr old =
      .ok (clearRest vma vaddr (readSegment env vma (env.inode i) vaddr old)) := by
  rw [loadPage, hi]
  exact if_pos hva

theorem loadPage_filled (hva : vaddr % PGSIZE = 0) (h : Filled env vma vaddr) :
    ∃ i, vma.vmInode = some i ∧ ∀ old, ∃ bytes, loadPage env vma vaddr old = .ok bytes ∧
      ∀ k, k < PGSIZE → bytes k = content (env.inode i) vma vaddr k := by
  obtain ⟨i, hi, hfile⟩ := h.file
  refine ⟨i, hi, fun old => ⟨_, loadPage_eq hva hi old, fun k hk => ?_⟩⟩
  have hpart : k < pgoff vma vaddr →
      readSegment env vma (env.inode i) vaddr old k = content (env.inode i) vma vaddr k := by
    intro hkp
    have hseg : segoff vma vaddr < vma.filesz := by
      by_contra hseg
      rw [pgoff_eq_zero hseg] at hkp
      exact Nat.not_lt_zero k hkp
    have hbyte := readi_filled old (pgoff_le vma vaddr)
      (hfile hseg k hkp).1 (fun j hj => (hfile hseg j hj).2) hkp
    rw [readSegment, if_pos hseg, content, if_pos hkp, hbyte, Option.getD_some]
  unfold clearRest
  by_cases hbss : vma.filesz ≠ areaSize vma
  · rw [if_pos hbss]
    by_cases hkp : k < pgoff vma vaddr
    · rw [splice_of_not_mem (by omega)]
      exact hpart hkp
    · rw [splice_of_mem (by omega) (by omega), content, if_neg hkp]
  · rw [if_neg hbss]
    apply hpart
    rw [h.rest.resolve_left hbss]
    exact hk

/-- A byte that is not read stays until the rest is cleared. -/
theorem readSegment_stale (env : Env) (vma : Vma) (ip : Inode) (vaddr : Nat) (old : Bytes) {j : Nat}
    (hbad : pgoff vma vaddr ≤ j ∨ env.syncing > 0 ∨ ip.byte (fileOff vma vaddr + j) = none) :
    readSegment env vma ip vaddr old j = old j := by
  unfold readSegment
  split
  · exact readi_stale env old (pgoff_le vma vaddr) hbad
  · rfl

/-- A page that is not filled keeps one of its bytes. -/
theorem loadPage_stale (hva : vaddr % PGSIZE = 0) (h : ¬ Filled env vma vaddr) :
    ∃ k, k < PGSIZE ∧ ∀ old, ∃ bytes, loadPage env vma vaddr old = .ok bytes ∧ bytes k = old k := by
  have hle := pgoff_le vma vaddr
  cases hi : vma.vmInode with
  | none =>
    refine ⟨0, by decide, fun old => ⟨old, ?_, rfl⟩⟩
    rw [loadPage, hi]
  | some i =>
    by_cases hrest : vma.filesz ≠ areaSize vma ∨ pgoff vma vaddr = PGSIZE
    · -- some byte below `pgoff` is not read
      obtain ⟨j, hj, hbad⟩ : ∃ j, j < pgoff vma vaddr ∧
          (env.syncing > 0 ∨ (env.inode i).byte (fileOff vma vaddr + j) = none) := by
        by_contra hno
        refine h ⟨⟨i, hi, fun _ j hj => ?_⟩, hrest⟩
        have hgood : ¬ (env.syncing > 0 ∨ (env.inode i).byte (fileOff vma vaddr + j) = none) :=
          fun hbad => hno ⟨j, hj, hbad⟩
        rw [not_or] at hgood
        exact ⟨by omega, Option.isSome_iff_ne_none.mpr hgood.2⟩
      refine ⟨j, by omega, fun old => ⟨_, loadPage_eq hva hi old, ?_⟩⟩
      unfold clearRest
      split
      · rw [splice_of_not_mem (by omega)]
        exact readSegment_stale env vma _ vaddr old (.inr hbad)
      · exact readSegment_stale env vma _ vaddr old (.inr hbad)
    · -- the bytes from `pgoff` on are neither read nor cleared
      rw [not_or, not_not] at hrest
      refine ⟨pgoff vma vaddr, by omega, fun old => ⟨_, loadPage_eq hva hi old, ?_⟩⟩
      rw [clearRest, if_neg (not_not.mpr hrest.1)]
      exact readSegment_stale env vma _ vaddr old (.inl (Nat.le_refl _))

theorem loadPage_ok (env : Env) (vma : Vma) (hva : vaddr % PGSIZE = 0) (old : Bytes) :
    ∃ bytes, loadPage env vma vaddr old = .ok bytes := by
  cases hi : vma.vmInode with
  | none =>
    refine ⟨old, ?_⟩
    rw [loadPage, hi]
  | some i => exact ⟨_, loadPage_eq hva hi old⟩

/-! ## What `do_no_page` makes accessible -/

variable {s : Phys.Buddy} {pt : PageTable} {targetperm : Perm}

theorem doNoPage_eq (env : Env) (m : Mem) (pt : PageTable) (vma : Vma) (vaddr : Nat)
    (targetperm : Perm) : doNoPage env m pt vma vaddr targetperm = (do
      let r ← pagesAlloc m.phys 1
      let q ← mappages r.1 pt vaddr PGSIZE (.page r.2) targetperm
      let bytes ← loadPage env vma vaddr (ofPage (m.data r.2))
      return ({ phys := q.1, data := Function.update m.data r.2 (toPage bytes) }, q.2)) := rfl

/-- The memory it leaves is that of `Uniks.Vm.doNoPage` with these contents for the page. -/
theorem doNoPage_fill (m : Mem) (hva : vaddr % PGSIZE = 0) :
    ∃ fill, doNoPage env m pt vma vaddr targetperm = Vm.doNoPage m pt vaddr targetperm fill := by
  rw [doNoPage_eq]
  unfold Vm.doNoPage
  cases pagesAlloc m.phys 1 with
  | error e =>
    refine ⟨fun _ _ => 0, ?_⟩
    rw [error_bind, error_bind]
  | ok r =>
    obtain ⟨bytes, hok⟩ := loadPage_ok env vma hva (ofPage (m.data r.2))
    refine ⟨fun _ => toPage bytes, ?_⟩
    rw [ok_bind, ok_bind, hok]
    simp only [ok_bind]

/-- A call that returns has taken a page, mapped it at `vaddr`, and loaded it; none of this depends
    on what the pages contain. -/
theorem doNoPage_returns (hva : vaddr % PGSIZE = 0)
    (h : ∃ data r, doNoPage env ⟨s, data⟩ pt vma vaddr targetperm = .ok r) :
    ∃ no, ∀ data bytes, loadPage env vma vaddr (ofPage (data no)) = .ok bytes →
      ∃ r, doNoPage env ⟨s, data⟩ pt vma vaddr targetperm = .ok r ∧
        (r.2.pte (vpn vaddr)).paddr = .page no ∧ r.1.data no = toPage bytes := by
  obtain ⟨data₀, r₀, hr₀⟩ := h
  rw [doNoPage_eq] at hr₀
  cases halloc : pagesAlloc s 1 with
  | error e =>
    rw [halloc, error_bind] at hr₀
    cases hr₀
  | ok r =>
    rw [halloc, ok_bind] at hr₀
    cases hmap : mappages r.1 pt vaddr PGSIZE (.page r.2) targetperm with
    | error e =>
      rw [hmap, error_bind] at hr₀
      cases hr₀
    | ok q =>
      obtain ⟨-, hpte⟩ := (mappages_page r.1 pt (.page r.2) targetperm hva).of_ok hmap
      refine ⟨r.2, fun data bytes hok => ?_⟩
      refine ⟨({ phys := q.1, data := Function.update data r.2 (toPage bytes) }, q.2), ?_, ?_, ?_⟩
      · rw [doNoPage_eq, halloc, ok_bind, hmap, ok_bind, hok, ok_bind]
        rfl
      · show (q.2.pte (vpn vaddr)).paddr = _
        rw [hpte, Function.update_self]
      · exact Function.update_self ..

/-- The bytes made accessible are those of the backing file at this page, and zeros, whatever the
    pages contained before. -/
def Untainted (env : Env) (s : Phys.Buddy) (pt : PageTable) (vma : Vma) (vaddr : Nat)
    (targetperm : Perm) : Prop :=
  ∃ bytes : Bytes,
    (∀ k, k < PGSIZE → bytes k = 0 ∨ ∃ i, vma.vmInode = some i ∧
      (env.inode i).byte (fileOff vma vaddr + k) = some (bytes k)) ∧
    ∀ data r no, doNoPage env ⟨s, data⟩ pt vma vaddr targetperm = .ok r →
      (r.2.pte (vpn vaddr)).paddr = .page no → r.1.data no = toPage bytes

/-- Two runs that differ only in what the pages contained give the user the same bytes. -/
def SameBytes (env : Env) (s : Phys.Buddy) (pt : PageTable) (vma : Vma) (vaddr : Nat)
    (targetperm : Perm) : Prop :=
  ∀ data data' r r' no, doNoPage env ⟨s, data⟩ pt vma vaddr targetperm = .ok r →
    doNoPage env ⟨s, data'⟩ pt vma vaddr targetperm = .ok r' →
    (r.2.pte (vpn vaddr)).paddr = .page no → r.1.data no = r'.1.data no

theorem untainted_of_filled (hva : vaddr % PGSIZE = 0) (hf : Filled env vma vaddr)
    (h : ∃ data r, doNoPage env ⟨s, data⟩ pt vma vaddr targetperm = .ok r) :
    Untainted env s pt vma vaddr targetperm := by
  obtain ⟨no, hcall⟩ := doNoPage_returns hva h
  obtain ⟨i, hi, hload⟩ := loadPage_filled hva hf
  refine ⟨content (env.inode i) vma vaddr, fun k _ => ?_, fun data r no' hr hno => ?_⟩
  · unfold content
    by_cases hk : k < pgoff vma vaddr
    · rw [if_pos hk]
      cases hbyte : (env.inode i).byte (fileOff vma vaddr + k) with
      | none =>
        rw [Option.getD_none]
        exact .inl rfl
      | some b =>
        rw [Option.getD_some]
        exact .inr ⟨i, hi, hbyte⟩
    · rw [if_neg hk]
      exact .inl rfl
  · obtain ⟨bytes, hok, hbytes⟩ := hload (ofPage (data no))
    obtain ⟨r₁, hr₁, hno₁, hdata⟩ := hcall data bytes hok
    rw [hr] at hr₁
    cases hr₁
    rw [hno] at hno₁
    obtain rfl := Frame.page.inj hno₁
    rw [hdata]
    funext k
    rw [toPage_apply, toPage_apply]
    exact hbytes k k.isLt

theorem filled_of_sameBytes (hva : vaddr % PGSIZE = 0)
    (h : ∃ data r, doNoPage env ⟨s, data⟩ pt vma vaddr targetperm = .ok r)
    (hsame : SameBytes env s pt vma vaddr targetperm) : Filled env vma vaddr := by
  by_contra hf
  obtain ⟨no, hcall⟩ := doNoPage_returns hva h
  obtain ⟨k, hk, hload⟩ := loadPage_stale hva hf
  -- two memories that differ in the byte that stays
  have hbyte : ∀ b : UInt8, ∃ r, doNoPage env ⟨s, fun _ _ => b⟩ pt vma vaddr targetperm = .ok r ∧
      (r.2.pte (vpn vaddr)).paddr = .page no ∧ r.1.data no ⟨k, hk⟩ = b := by
    intro b
    obtain ⟨bytes, hok, hkeep⟩ := hload (ofPage fun _ => b)
    obtain ⟨r, hr, hno, hdata⟩ := hcall (fun _ _ => b) bytes hok
    refine ⟨r, hr, hno, ?_⟩
    rw [hdata, toPage_apply, hkeep, ofPage_apply _ hk]
  obtain ⟨r, hr, hno, hdata⟩ := hbyte 0
  obtain ⟨r', hr', -, hdata'⟩ := hbyte 1
  have heq := congrFun (hsame _ _ r r' no hr hr' hno) ⟨k, hk⟩
  rw [hdata, hdata'] at heq
  exact absurd heq (by decide)

theorem sameBytes_of_untainted (hva : vaddr % PGSIZE = 0)
    (h : ∃ data r, doNoPage env ⟨s, data⟩ pt vma vaddr targetperm = .ok r)
    (hclean : Untainted env s pt vma vaddr targetperm) :
    SameBytes env s pt vma vaddr targetperm := by
  intro data data' r r' no hr hr' hno
  obtain ⟨no₁, hcall⟩ := doNoPage_returns hva h
  -- both runs have mapped the same page
  have hpage : ∀ d q, doNoPage env ⟨s, d⟩ pt vma vaddr targetperm = .ok q →
      (q.2.pte (vpn vaddr)).paddr = .page no₁ := by
    intro d q hq
    obtain ⟨bytes, hok⟩ := loadPage_ok env vma hva (ofPage (d no₁))
    obtain ⟨q', hq', hno', -⟩ := hcall d bytes hok
    rw [hq] at hq'
    cases hq'
    exact hno'
  have heq : no = no₁ := Frame.page.inj (hno.symm.trans (hpage data r hr))
  obtain ⟨bytes, -, hbytes⟩ := hclean
  rw [hbytes data r no hr hno, heq, hbytes data' r' no₁ hr' (hpage data' r' hr')]

/-- A page that `do_no_page` has mapped shows nothing of its former contents exactly when it is
    filled from the file and with zeros. -/
theorem doNoPage_exact (hva : vaddr % PGSIZE = 0)
    (h : ∃ data r, doNoPage env ⟨s, data⟩ pt vma vaddr targetperm = .ok r) :
    (SameBytes env s pt vma vaddr targetperm ↔ Filled env vma vaddr) ∧
      (Untainted env s pt vma vaddr targetperm ↔ Filled env vma vaddr) := by
  have hclean := fun hf => untainted_of_filled hva hf h
  have hsame := sameBytes_of_untainted hva h
  have hfilled := filled_of_sameBytes hva h
  exact ⟨⟨hfilled, fun hf => hsame (hclean hf)⟩, ⟨fun hu => hfilled (hsame hu), hclean⟩⟩

/-! ## Two pages -/

/-- A region in which one page is free. -/
def lastPage : Phys.Buddy := ⟨8, fun order => if order = 0 then [5] else [], fun _ => ⟨0, 0⟩⟩

/-- A page table that has all its tables and no entry. -/
def emptyTable : PageTable := ⟨0, fun _ => some 1, fun _ _ => some 2, fun _ => Pte.zero⟩

theorem lastPage_alloc : ∃ r, pagesAlloc lastPage 1 = .ok r := by
  have horder : Phys.getPower2 1 = some 0 := by
    rw [Phys.getPower2, List.range_succ_eq_map]
    exact List.find?_cons_of_pos (by decide)
  obtain ⟨r, hr⟩ : ∃ r, Phys.pagesAlloc lastPage 1 = some r := by
    rw [Phys.pagesAlloc, if_pos (by decide), horder]
    exact ⟨_, rfl⟩
  exact ⟨r, by rw [pagesAlloc, hr]⟩

theorem emptyTable_mappages (s : Phys.Buddy) (pa : Frame) (perm : Perm) :
    ∃ q, mappages s emptyTable 0x10000 PGSIZE pa perm = .ok q := by
  have hva : 0x10000 % PGSIZE = 0 := by decide
  unfold mappages
  rw [if_neg (by decide)]
  simp only [pgRoundDown_of_aligned hva, pgRoundUp_page hva]
  rw [mappagesLoop, walk, if_pos (by decide), enterMid, emptyTable]
  simp only [ok_bind, enterLow]
  rw [if_neg (by decide), mappagesLoop]
  exact ⟨_, rfl⟩

theorem lastPage_returns (env : Env) (vma : Vma) (perm : Perm) :
    ∃ data r, doNoPage env ⟨lastPage, data⟩ emptyTable vma 0x10000 perm = .ok r := by
  obtain ⟨r, hr⟩ := lastPage_alloc
  obtain ⟨q, hq⟩ := emptyTable_mappages r.1 (.page r.2) perm
  obtain ⟨bytes, hok⟩ := loadPage_ok env vma (show 0x10000 % PGSIZE = 0 by decide)
    (ofPage fun _ => 0)
  refine ⟨fun _ _ => 0, (⟨q.1, Function.update (fun _ _ => 0) r.2 (toPage bytes)⟩, q.2), ?_⟩
  rw [doNoPage_eq, hr, ok_bind, hq, ok_bind, hok, ok_bind]
  rfl

/-- A file of half a page, and the segment that ends with it in the middle of its page. -/
def halfPage : Inode := ⟨0x800, fun _ => some fun _ => 7⟩

def dataArea : Vma := ⟨0x10000, 0x11000, PTE_R ||| PTE_W ||| PTE_U, 0x800, 0, some 0⟩

/-- A heap of one page. -/
def heapArea : Vma := ⟨0x10000, 0x11000, PTE_R ||| PTE_W ||| PTE_U, 0, 0, none⟩

/-- Half of the page comes from the file, and the other half is cleared. -/
theorem doNoPage_exact_half :
    Untainted ⟨0, fun _ => halfPage⟩ lastPage emptyTable dataArea 0x10000 (PTE_R ||| PTE_U) := by
  have hpart : pgoff dataArea 0x10000 = 0x800 := by decide
  have hoff : fileOff dataArea 0x10000 = 0 := by decide
  have hfilled : Filled ⟨0, fun _ => halfPage⟩ dataArea 0x10000 := by
    refine ⟨⟨0, rfl, fun _ j hj => ⟨rfl, ?_⟩⟩, .inl (by decide)⟩
    rw [hpart] at hj
    have hsize : j < halfPage.iSize.toNat := hj
    rw [hoff, Nat.zero_add]
    show (halfPage.byte j).isSome = true
    rw [Inode.byte, if_pos hsize]
    rfl
  have hva : 0x10000 % PGSIZE = 0 := by decide
  exact (doNoPage_exact hva (lastPage_returns _ _ _)).2.mpr hfilled

/-- A page of the heap is handed over as it is, and so is one of a file while a sync is running. -/
theorem doNoPage_leaks :
    ¬ SameBytes ⟨0, fun _ => halfPage⟩ lastPage emptyTable heapArea 0x10000 (PTE_R ||| PTE_U) ∧
      ¬ SameBytes ⟨1, fun _ => halfPage⟩ lastPage emptyTable dataArea 0x10000 (PTE_R ||| PTE_U) := by
  have hva : 0x10000 % PGSIZE = 0 := by decide
  constructor
  · intro hsame
    obtain ⟨i, hi, -⟩ := (filled_of_sameBytes hva (lastPage_returns _ _ _) hsame).file
    cases hi
  · intro hsame
    obtain ⟨i, -, hfile⟩ := (filled_of_sameBytes hva (lastPage_returns _ _ _) hsame).file
    exact absurd (hfile (by decide) 0 (by decide)).1 (by decide)

end Uniks.LoadPage
