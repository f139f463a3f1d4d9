/-
  `kernel/mm/vm.c` with a `pages_alloc` that returns NULL.

  Every caller of `pages_alloc` and `pages_zalloc` tests for NULL, and the comment in the body says
  that it comes when no block is left; only the assertion in front of the `return` is against it.
  Here the pointer is that of the label `out`, without the assertion, and the callers keep the
  branches that `Uniks.Vm` leaves out.  As long as there are pages they do what they do there.

  `freePages` counts the pages on the order lists: one page is handed out, and one page less is left.
  Since nothing is given back within a call, a request that comes after one that failed fails too.

  A page has a lock, which `pages_undup` takes and `release_pglock` gives back.
-/
import Uniks.PagesAlloc
import Uniks.PageTables

namespace Uniks.Oom

open Uniks.Phys Uniks.Vm Uniks.Hoare
open Function (update update_self update_of_ne update_eq_self_iff)

/-! ## The code -/

/-- The source's `pages_alloc` and `pages_zalloc` of one page; `none` is NULL. -/
def allocPage (s : Buddy) : Except Fault (Buddy × Option Nat) :=
  match allocOut s 1 with
  | some r => .ok r
  | none => .error .check

/-- The table of the middle level; `false` is the return of NULL by `walk`. -/
def enterMid (s : Buddy) (pt : PageTable) (i : Idx) : Except Fault (Buddy × PageTable × Bool) :=
  match pt.mid i with
  | some _ => .ok (s, pt, true)
  | none => do
    let (s, ptr) ← allocPage s
    match ptr with
    | none => return (s, pt, false)
    | some page => return (s, pt.addMid i page, true)

/-- The table of the lowest level. -/
def enterLow (s : Buddy) (pt : PageTable) (i j : Idx) : Except Fault (Buddy × PageTable × Bool) :=
  match pt.low i j with
  | some _ => .ok (s, pt, true)
  | none => do
    let (s, ptr) ← allocPage s
    match ptr with
    | none => return (s, pt, false)
    | some page => return (s, pt.addLow i j page, true)

/-- The source's `walk` that may allocate; `false` is NULL. -/
def walk (s : Buddy) (pt : PageTable) (va : Nat) : Except Fault (Buddy × PageTable × Bool) :=
  if va < MAXVA then do
    let (s, pt, found) ← enterMid s pt (px 2 va)
    if found then enterLow s pt (px 2 va) (px 1 va) else return (s, pt, false)
  else .error .check

/-- The loop of `mappages`. -/
def mappagesLoop (va : Nat) (perm : Perm) :
    Nat → Buddy → PageTable → Nat → Frame → Except Fault (Buddy × PageTable × Int)
  | 0, s, pt, _, _ => .ok (s, pt, 0)
  | n + 1, s, pt, a, pa => do
    let (s, pt, found) ← walk s pt a
    if !found then return (s, pt, -1)
    else if (pt.pte (vpn a)).valid then .error .check
    else
      let perm' := if va ≥ TRAMPOLINE then perm ||| PTE_G else perm
      let pte := { perm := perm' ||| PTE_V, unrelease := decide (va ≥ TRAPFRAME), paddr := pa }
      mappagesLoop va perm n s (pt.setPte (vpn a) pte) (a + PGSIZE) pa.next

/-- The source's `mappages`. -/
def mappages (s : Buddy) (pt : PageTable) (va size : Nat) (pa : Frame) (perm : Perm) :
    Except Fault (Buddy × PageTable × Int) :=
  if size = 0 then .error .check
  else
    let a := pgRoundDown va
    let last := pgRoundUp (a + size - 1)
    mappagesLoop va perm ((last - a) / PGSIZE) s pt a pa

/-- The physical memory, with the locks of the pages. -/
structure PhysMem where
  phys : Buddy
  data : Nat → Page
  pglock : Nat → Bool

/-- The memory without the locks. -/
def PhysMem.mem (m : PhysMem) : Mem := ⟨m.phys, m.data⟩

/-- The source's `pages_undup`, which returns with the lock held. -/
def pagesUndup (m : PhysMem) : Frame → Except Fault (PhysMem × Nat)
  | .page no =>
    if m.pglock no then .error .check
    else do
      let (s, ret) ← Vm.pagesUndup m.phys (.page no)
      return ({ m with phys := s, pglock := update m.pglock no true }, ret)
  | _ => .error .count

/-- The source's `release_pglock`. -/
def releasePglock (m : PhysMem) : Frame → Except Fault PhysMem
  | .page no =>
    if m.pglock no then do
      let _ ← Vm.releasePglock m.phys (.page no)
      return { m with pglock := update m.pglock no false }
    else .error .check
  | _ => .error .count

/-- The source's `do_no_page`, which does not look at what `mappages` returns. -/
def doNoPage (m : PhysMem) (pt : PageTable) (vaddr : Nat) (targetperm : Perm) (fill : Nat → Page) :
    Except Fault (PhysMem × PageTable × Int) := do
  let (s, ptr) ← allocPage m.phys
  match ptr with
  | none => return ({ m with phys := s }, pt, -1)
  | some page =>
    let (s, pt, _) ← mappages s pt vaddr PGSIZE (.page page) targetperm
    return ({ m with phys := s, data := update m.data page (fill vaddr) }, pt, 0)

/-- The source's `do_wp_page`, on the entry at `v`. -/
def doWpPage (m : PhysMem) (pt : PageTable) (v : Vpn) (targetperm : Perm) :
    Except Fault (PhysMem × PageTable × Int) := do
  let pte := pt.pte v
  let (m, ret) ← pagesUndup m pte.paddr
  if ret = 1 then
    let m ← releasePglock m pte.paddr
    return (m, pt.setPte v { pte with perm := pte.perm ||| targetperm }, 0)
  else
    let (s, ptr) ← allocPage m.phys
    let m := { m with phys := s }
    match ptr with
    | none =>
      let m ← releasePglock m pte.paddr
      return (m, pt, -1)
    | some newPage =>
      let old ← frameData m.data pte.paddr
      let m ← releasePglock { m with data := update m.data newPage old } pte.paddr
      return (m, pt.setPte v
        { perm := targetperm ||| pte.perm, unrelease := false, paddr := .page newPage }, 0)

/-- A result in a `uint32_t`, as `verify_area` keeps it. -/
def uint32 (res : Int) : Nat := (res % 2 ^ 32).toNat

/-- A round of the loop of `verify_area` behind its `walk`; `true` is its `return -2`. -/
def verifyEntry (m : PhysMem) (pt : PageTable) (va : Nat) (targetperm : Perm) (fill : Nat → Page) :
    Except Fault (PhysMem × PageTable × Bool) := do
  let pte := pt.pte (vpn va)
  if grants pte.perm targetperm then return (m, pt, false)
  else
    let (m, pt, ret) ← if pte.valid then doWpPage m pt (vpn va) targetperm
      else doNoPage m pt va targetperm fill
    let res := uint32 ret
    if res < 0 then return (m, pt, true) else return (m, pt, false)

/-- A round of the loop. -/
def verifyPage (m : PhysMem) (pt : PageTable) (va : Nat) (targetperm : Perm) (fill : Nat → Page) :
    Except Fault (PhysMem × PageTable × Bool) := do
  let (s, pt, found) ← walk m.phys pt va
  let m := { m with phys := s }
  if !found then return (m, pt, true) else verifyEntry m pt va targetperm fill

/-- The loop of `verify_area`. -/
def verifyLoop (endVaddr : Nat) (targetperm : Perm) (fill : Nat → Page) (va : Nat) (m : PhysMem)
    (pt : PageTable) : Except Fault (PhysMem × PageTable × Int) :=
  if va < endVaddr then do
    let (m, pt, stop) ← verifyPage m pt va targetperm fill
    if stop then return (m, pt, -2) else verifyLoop endVaddr targetperm fill (va + PGSIZE) m pt
  else .ok (m, pt, 0)
termination_by endVaddr - va
decreasing_by
  have hpos : 0 < PGSIZE := by decide
  omega

/-- The source's `verify_area`. -/
def verifyArea (m : PhysMem) (areas : List Vma) (pt : PageTable) (vaddr size : Nat)
    (targetperm : Perm) (fill : Nat → Page) : Except Fault (PhysMem × PageTable × Int) :=
  match searchVmareas areas vaddr size with
  | none => .ok (m, pt, -1)
  | some vma =>
    if grants vma.vmFlags targetperm then
      verifyLoop ((vaddr + size) % ADDRS) targetperm fill (pgRoundDown vaddr) m pt
    else .ok (m, pt, -1)

/-! ## The pages that are left -/

/-- The pages on the order lists. -/
def freePages (s : Buddy) : Nat := ∑ k ∈ Finset.range 11, 2 ^ k * (s.orderarray k).length

variable {s s' : Buddy} {live : Live} {uses keeps rest : Nat → Nat} {pinned : Nat → Prop}
  {tail : Nat → Nat → Prop} {pt pt' : PageTable} {page j : Nat}

theorem freePages_eq_zero : freePages s = 0 ↔ ∀ k, k ≤ 10 → s.orderarray k = [] := by
  unfold freePages
  rw [Finset.sum_eq_zero_iff]
  constructor
  · intro h k hk
    have hzero := h k (Finset.mem_range.mpr (by omega))
    have hpow := Nat.two_pow_pos k
    exact List.length_eq_zero_iff.mp ((Nat.mul_eq_zero.mp hzero).resolve_left (by omega))
  · intro h k hk
    rw [h k (by have := Finset.mem_range.mp hk; omega), List.length_nil, Nat.mul_zero]

theorem freePages_congr (h : s'.orderarray = s.orderarray) : freePages s' = freePages s := by
  unfold freePages
  rw [h]

/-- The lists below the order a block is taken from grow to one page less than that block. -/
theorem Takes.freePages_below (h : Takes s 0 j page s') {n : Nat} (hn : n ≤ j) :
    ∑ k ∈ Finset.range n, 2 ^ k * (s'.orderarray k).length + 1
      = ∑ k ∈ Finset.range n, 2 ^ k * (s.orderarray k).length + 2 ^ n := by
  induction n with
  | zero => rfl
  | succ n ih =>
    have hlen : (s'.orderarray n).length = (s.orderarray n).length + 1 := by
      rw [h.added n (Nat.zero_le n) hn, List.length_cons]
    rw [Finset.sum_range_succ, Finset.sum_range_succ, hlen, Nat.mul_add, Nat.pow_succ]
    have := ih (by omega)
    omega

/-- One page less is left. -/
theorem Takes.freePages (h : Takes s 0 j page s') (hj : j ≤ 10) :
    Oom.freePages s' + 1 = Oom.freePages s := by
  have hall : ∀ n, j < n → ∑ k ∈ Finset.range n, 2 ^ k * (s'.orderarray k).length + 1
      = ∑ k ∈ Finset.range n, 2 ^ k * (s.orderarray k).length := by
    intro n
    induction n with
    | zero => exact fun hlt => absurd hlt (Nat.not_lt_zero j)
    | succ n ih =>
      intro hlt
      rw [Finset.sum_range_succ, Finset.sum_range_succ]
      by_cases heq : n = j
      · subst heq
        have hbelow := Takes.freePages_below h (Nat.le_refl n)
        rw [h.removed, List.length_cons, Nat.mul_add]
        omega
      · rw [h.others n (.inr (by omega))]
        have := ih (by omega)
        omega
  exact hall 11 (by omega)

theorem leastOrder_one : LeastOrder 1 0 := ⟨Nat.le_refl 1, fun j hj => absurd hj (Nat.not_lt_zero j)⟩

theorem getPower2_one : getPower2 1 = some 0 := getPower2_least leastOrder_one (Nat.zero_le _)

/-- Without pages the pointer is NULL. -/
theorem allocPage_none (h : freePages s = 0) : allocPage s = .ok (s, none) := by
  have hlists := freePages_eq_zero.mp h
  have hempty : (s.orderarray 0).isEmpty = true := by rw [hlists 0 (Nat.zero_le _)]; rfl
  have hlarger : largerOrder s 0 = none := largerOrder_none fun j _ hj => hlists j hj
  have hout : allocOut s 1 = some (s, none) := by
    unfold allocOut
    rw [getPower2_one, Option.bind_eq_bind, Option.bind_some, if_pos hempty, hlarger]
    rfl
  unfold allocPage
  rw [hout]

/-- A block of a sound system is where the pages that are left come from. -/
theorem allocPage_some (h : BuddyInv s live none) (hfree : 0 < freePages s) :
    ∃ s' page, Vm.pagesAlloc s 1 = .ok (s', page) ∧ allocPage s = .ok (s', some page) ∧
      freePages s' + 1 = freePages s := by
  have hsome : ∃ j, 0 ≤ j ∧ j ≤ 10 ∧ s.orderarray j ≠ [] := by
    by_contra hnone
    refine hfree.ne' (freePages_eq_zero.mpr fun k hk => ?_)
    by_contra hne
    exact hnone ⟨k, Nat.zero_le k, hk, hne⟩
  obtain ⟨j, hj⟩ := exists_smallestList hsome
  have h10 : BuddyInvTo 10 s live none :=
    { h with small := fun a => (h.small a).trans (by decide) }
  obtain ⟨page, s', hrun, htakes⟩ :=
    h10.takes leastOrder_one (Nat.le_refl 1) (by omega) hj
  have hptr := pagesAllocPtr_eq s 1
  rw [hrun, Option.map_some] at hptr
  rw [pagesAllocPtr, Option.bind_eq_bind] at hptr
  obtain ⟨⟨s₁, ptr⟩, hout, hret⟩ := Option.bind_eq_some_iff.mp hptr
  have hsame : (s₁, ptr) = (s', some page) := by
    dsimp only at hret
    split at hret
    · exact Option.some.inj hret
    · cases hret
  refine ⟨s', page, ?_, ?_, Takes.freePages htakes hj.2.1⟩
  · unfold Vm.pagesAlloc
    rw [hrun]
  · unfold allocPage
    rw [hout, hsame]

theorem Books.allocPage (h : Books s uses keeps pinned tail) (hfree : 0 < freePages s) :
    ∃ s' page, Vm.pagesAlloc s 1 = .ok (s', page) ∧ Oom.allocPage s = .ok (s', some page) ∧
      freePages s' + 1 = freePages s := by
  obtain ⟨live, hinv, -⟩ := h
  exact allocPage_some hinv hfree

/-! ## Looking for an entry -/

/-- One table of the middle level is there; the others are as before. -/
def HasMid (pt pt' : PageTable) (i : Idx) : Prop :=
  pt'.low = pt.low ∧
    (fun k => (pt'.mid k).isSome) = update (fun k => (pt.mid k).isSome) i true

/-- One table of the lowest level is there. -/
def HasLow (pt pt' : PageTable) (i j : Idx) : Prop :=
  pt'.mid = pt.mid ∧ (fun k l => (pt'.low k l).isSome) = update
    (fun k l => (pt.low k l).isSome) i (update (fun l => (pt.low i l).isSome) j true)

/-- How many pages a table asks for that may be there. -/
def lacking (there : Bool) : Nat := if there then 0 else 1

theorem enterMid_spec (h : Books s uses keeps pinned tail) (pt : PageTable) (i : Idx) :
    (lacking (pt.mid i).isSome ≤ freePages s → ∃ s' pt',
      enterMid s pt i = .ok (s', pt', true) ∧ Vm.enterMid s pt i = .ok (s', pt') ∧
        freePages s' + lacking (pt.mid i).isSome = freePages s ∧ HasMid pt pt' i) ∧
    (freePages s < lacking (pt.mid i).isSome → enterMid s pt i = .ok (s, pt, false) ∧
      freePages s = 0) := by
  unfold enterMid Vm.enterMid
  cases hmid : pt.mid i with
  | some old =>
    refine ⟨fun _ => ⟨s, pt, rfl, rfl, rfl, rfl, ?_⟩, fun hlt => absurd hlt (Nat.not_lt_zero _)⟩
    refine (update_eq_self_iff.mpr ?_).symm
    rw [hmid]
    rfl
  | none =>
    refine ⟨fun hle => ?_, fun hlt => ?_⟩
    · obtain ⟨s', page, hold, hnew, hfree⟩ := Books.allocPage h hle
      rw [hold, hnew]
      refine ⟨s', pt.addMid i page, rfl, rfl, hfree, rfl, ?_⟩
      funext k
      show (update pt.mid i (some page) k).isSome = _
      by_cases hk : k = i
      · rw [hk, update_self, update_self]
        rfl
      · rw [update_of_ne hk, update_of_ne hk]
    · have hzero : freePages s = 0 := Nat.lt_one_iff.mp hlt
      rw [allocPage_none hzero]
      exact ⟨rfl, hzero⟩

theorem enterLow_spec (h : Books s uses keeps pinned tail) (pt : PageTable) (i j : Idx) :
    (lacking (pt.low i j).isSome ≤ freePages s → ∃ s' pt',
      enterLow s pt i j = .ok (s', pt', true) ∧ Vm.enterLow s pt i j = .ok (s', pt') ∧
        freePages s' + lacking (pt.low i j).isSome = freePages s ∧ HasLow pt pt' i j) ∧
    (freePages s < lacking (pt.low i j).isSome → enterLow s pt i j = .ok (s, pt, false) ∧
      freePages s = 0) := by
  unfold enterLow Vm.enterLow
  cases hlow : pt.low i j with
  | some old =>
    refine ⟨fun _ => ⟨s, pt, rfl, rfl, rfl, rfl, ?_⟩, fun hlt => absurd hlt (Nat.not_lt_zero _)⟩
    refine (update_eq_self_iff.mpr ?_).symm
    refine update_eq_self_iff.mpr ?_
    rw [hlow]
    rfl
  | none =>
    refine ⟨fun hle => ?_, fun hlt => ?_⟩
    · obtain ⟨s', page, hold, hnew, hfree⟩ := Books.allocPage h hle
      rw [hold, hnew]
      refine ⟨s', pt.addLow i j page, rfl, rfl, hfree, rfl, ?_⟩
      funext k l
      show (update pt.low i (update (pt.low i) j (some page)) k l).isSome = _
      by_cases hk : k = i
      · rw [hk, update_self, update_self]
        by_cases hl : l = j
        · rw [hl, update_self, update_self]
          rfl
        · rw [update_of_ne hl, update_of_ne hl]
      · rw [update_of_ne hk, update_of_ne hk]
    · have hzero : freePages s = 0 := Nat.lt_one_iff.mp hlt
      rw [allocPage_none hzero]
      exact ⟨rfl, hzero⟩

/-- How many pages `walk` asks for. -/
def lackingAt (pt : PageTable) (v : Vpn) : Nat :=
  lacking (pt.mid v.1).isSome + lacking (pt.low v.1 v.2.1).isSome

/-- The tables of an entry are there; the others are as before. -/
structure Entered (pt pt' : PageTable) (v : Vpn) : Prop where
  mid : (fun k => (pt'.mid k).isSome) = update (fun k => (pt.mid k).isSome) v.1 true
  low : (fun k l => (pt'.low k l).isSome) = update (fun k l => (pt.low k l).isSome) v.1
    (update (fun l => (pt.low v.1 l).isSome) v.2.1 true)

/-- `walk` where there are pages enough for the tables. -/
theorem walk_found (h : Books.With s uses keeps pinned tail pt) {va : Nat} (hva : va < MAXVA)
    (hfree : lackingAt pt (vpn va) ≤ freePages s) :
    ∃ s' pt', walk s pt va = .ok (s', pt', true) ∧ Vm.walk s pt va = .ok (s', pt') ∧
      freePages s' + lackingAt pt (vpn va) = freePages s ∧ Entered pt pt' (vpn va) := by
  have hsplit : lackingAt pt (vpn va) = lacking (pt.mid (px 2 va)).isSome +
      lacking (pt.low (px 2 va) (px 1 va)).isSome := rfl
  obtain ⟨s₁, pt₁, hnew₁, hold₁, hfree₁, hlow₁, hmid₁⟩ :=
    (enterMid_spec h pt (px 2 va)).1 (by omega)
  have h₁ : Books.With s₁ uses keeps pinned tail pt₁ :=
    ((enterMid_books (c := True) h (px 2 va)).of_ok hold₁).1
  have hsame : lacking (pt₁.low (px 2 va) (px 1 va)).isSome
      = lacking (pt.low (px 2 va) (px 1 va)).isSome := by rw [hlow₁]
  obtain ⟨s₂, pt₂, hnew₂, hold₂, hfree₂, hmid₂, hlow₂⟩ :=
    (enterLow_spec h₁ pt₁ (px 2 va) (px 1 va)).1 (by omega)
  refine ⟨s₂, pt₂, ?_, ?_, by omega, ⟨?_, ?_⟩⟩
  · rw [walk, if_pos hva, hnew₁]
    exact hnew₂
  · rw [Vm.walk, if_pos hva, hold₁]
    exact hold₂
  · rw [hmid₂]
    exact hmid₁
  · rw [hlow₂, hlow₁]
    rfl

/-- `walk` where there are not: what it has added is sound. -/
theorem walk_null (h : Books.With s uses keeps pinned tail pt) {va : Nat} (hva : va < MAXVA)
    (hfree : freePages s < lackingAt pt (vpn va)) :
    ∃ s' pt', walk s pt va = .ok (s', pt', false) ∧ freePages s' = 0 ∧
      Books.With s' uses keeps pinned tail pt' ∧ Walked pt pt' := by
  have hsplit : lackingAt pt (vpn va) = lacking (pt.mid (px 2 va)).isSome +
      lacking (pt.low (px 2 va) (px 1 va)).isSome := rfl
  by_cases hmid : lacking (pt.mid (px 2 va)).isSome ≤ freePages s
  · obtain ⟨s₁, pt₁, hnew₁, hold₁, hfree₁, hlow₁, -⟩ := (enterMid_spec h pt (px 2 va)).1 hmid
    obtain ⟨hbooks, hwalked, -⟩ : Books.With s₁ uses keeps pinned tail pt₁ ∧ Walked pt pt₁ ∧ _ :=
      (enterMid_books (c := True) h (px 2 va)).of_ok hold₁
    have hsame : lacking (pt₁.low (px 2 va) (px 1 va)).isSome
        = lacking (pt.low (px 2 va) (px 1 va)).isSome := by rw [hlow₁]
    obtain ⟨hnull, hzero⟩ := (enterLow_spec hbooks pt₁ (px 2 va) (px 1 va)).2 (by omega)
    refine ⟨s₁, pt₁, ?_, hzero, hbooks, hwalked⟩
    rw [walk, if_pos hva, hnew₁]
    exact hnull
  · obtain ⟨hnull, hzero⟩ := (enterMid_spec h pt (px 2 va)).2 (by omega)
    refine ⟨s, pt, ?_, hzero, h, .refl pt⟩
    rw [walk, if_pos hva, hnull]
    rfl

/-- Where the tables are there, `walk` finds the entry. -/
theorem walk_present {va : Nat} (hva : va < MAXVA) (h : pt.Present (vpn va)) :
    walk s pt va = .ok (s, pt, true) ∧ Vm.walk s pt va = .ok (s, pt) := by
  obtain ⟨mid, hmid⟩ := Option.isSome_iff_exists.mp h.1
  obtain ⟨low, hlow⟩ := Option.isSome_iff_exists.mp h.2
  have hmid : pt.mid (px 2 va) = some mid := hmid
  have hlow : pt.low (px 2 va) (px 1 va) = some low := hlow
  constructor
  · rw [walk, if_pos hva, enterMid, hmid]
    show enterLow s pt (px 2 va) (px 1 va) = _
    rw [enterLow, hlow]
  · rw [Vm.walk, if_pos hva, Vm.enterMid, hmid]
    show Vm.enterLow s pt (px 2 va) (px 1 va) = _
    rw [Vm.enterLow, hlow]

end Uniks.Oom
