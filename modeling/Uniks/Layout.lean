/-
  How an address space is laid out.

  The areas of a process are in order, apart, aligned, and below `TRAPFRAME`; every entry of its
  page table that is valid lies in one of them and grants no more than it, but for the trapframe
  and the trampoline, which are not the user's (`Layout`).  `add_vm_area` asserts most of this, so
  what has to be asked of an executable is only that it ends in time.  `sys_brk` asserts nothing:
  it takes the third area for the heap, stores any end into it, and leaves the pages mapped.
  `Admitted` says of its argument what it does not check.
-/
import Uniks.Mm
import Uniks.VerifyArea
import Uniks.Lib.Runs

namespace Uniks.Vm

open Uniks.Hoare Uniks.Runs
open Function (update update_self update_of_ne)

/-! ## Where an entry lies -/

/-- The address that the entry `v` maps. -/
def pageAddr (v : Vpn) : Nat := ((v.1.val * PTENUM + v.2.1.val) * PTENUM + v.2.2.val) * PGSIZE

theorem pageAddr_vpn {a : Nat} (ha : a < MAXVA) : pageAddr (vpn a) = pgRoundDown a := by
  have h2 : (2 : Nat) ^ (12 + 9 * 2) = 1073741824 := by decide
  have h1 : (2 : Nat) ^ (12 + 9 * 1) = 2097152 := by decide
  have h0 : (2 : Nat) ^ (12 + 9 * 0) = 4096 := by decide
  have hmax : MAXVA = 274877906944 := by decide
  rw [hmax] at ha
  show ((a / 2 ^ (12 + 9 * 2) % 512 * 512 + a / 2 ^ (12 + 9 * 1) % 512) * 512
    + a / 2 ^ (12 + 9 * 0) % 512) * 4096 = pgRoundDown a
  rw [h2, h1, h0]
  simp only [pgRoundDown, PGSIZE]
  omega

/-- The entry of a page that is aligned. -/
theorem pageAddr_page {a : Nat} (ha : a < MAXVA) (hal : a % PGSIZE = 0) : pageAddr (vpn a) = a := by
  rw [pageAddr_vpn ha, pgRoundDown_of_aligned hal]

/-- The page of the entry is part of the area. -/
def Vma.Has (vma : Vma) (v : Vpn) : Prop :=
  vma.vmStart ≤ pageAddr v ∧ pageAddr v + PGSIZE ≤ vma.vmEnd

/-! ## Areas in order -/

/-- The areas follow one another, below `TRAPFRAME`. -/
structure InOrder (areas : List Vma) : Prop where
  apart : areas.Pairwise fun a b => a.vmEnd ≤ b.vmStart
  whole : ∀ vma ∈ areas, vma.vmStart ≤ vma.vmEnd ∧ vma.vmEnd ≤ TRAPFRAME
  aligned : ∀ vma ∈ areas, vma.vmStart % PGSIZE = 0 ∧ vma.vmEnd % PGSIZE = 0

variable {areas areas' : List Vma} {pt pt' : PageTable} {mm mm' : Mm}

theorem InOrder.nil : InOrder [] := ⟨List.Pairwise.nil, nofun, nofun⟩

theorem InOrder.wf (h : InOrder areas) : AreasWf areas := by
  refine ⟨h.apart, ?_⟩
  intro vma hmem
  have hend := (h.whole vma hmem).2
  have htop : TRAPFRAME ≤ MAXVA := by decide
  omega

theorem InOrder.sorted (h : InOrder areas) : areas.Pairwise fun a b => a.vmStart ≤ b.vmStart := by
  apply h.apart.imp_of_mem
  intro a b ha _ hab
  have hwhole := (h.whole a ha).1
  omega

/-- No two areas have an entry in common. -/
theorem InOrder.unique (h : InOrder areas) {a b : Vma} {v : Vpn} (ha : a ∈ areas) (hb : b ∈ areas)
    (hav : a.Has v) (hbv : b.Has v) : a = b := by
  have hpos : 0 < PGSIZE := by decide
  apply h.wf.unique ha hb (b := pageAddr v)
  · exact ⟨hav.1, by have := hav.2; omega⟩
  · exact ⟨hbv.1, by have := hbv.2; omega⟩

/-- The insertion keeps the order. -/
theorem insertArea_inOrder {new : Vma} (h : InOrder areas)
    (hwhole : new.vmStart ≤ new.vmEnd ∧ new.vmEnd ≤ TRAPFRAME)
    (hal : new.vmStart % PGSIZE = 0 ∧ new.vmEnd % PGSIZE = 0) :
    Meets (fun _ => True) (insertArea new areas) fun r =>
      InOrder r ∧ ∀ vma, vma ∈ r ↔ vma = new ∨ vma ∈ areas := by
  induction areas with
  | nil =>
    refine .ok ⟨⟨List.pairwise_singleton _ _, ?_, ?_⟩, ?_⟩
    · intro vma hmem
      rw [List.mem_singleton.mp hmem]
      exact hwhole
    · intro vma hmem
      rw [List.mem_singleton.mp hmem]
      exact hal
    · intro vma
      rw [List.mem_singleton]
      simp only [List.not_mem_nil, or_false]
  | cons vma rest ih =>
    have hpair := List.pairwise_cons.mp h.apart
    have hvma := h.whole vma List.mem_cons_self
    unfold insertArea
    refine .ite (fun hoff => ?_) fun _ => .error trivial
    refine .ite (fun hfront => ?_) fun hnot => ?_
    · refine .ok ⟨⟨?_, ?_, ?_⟩, ?_⟩
      · refine List.pairwise_cons.mpr ⟨?_, h.apart⟩
        intro b hb
        rcases List.mem_cons.mp hb with rfl | hb
        · exact hfront
        · have hnext := hpair.1 b hb
          omega
      · intro b hb
        rcases List.mem_cons.mp hb with rfl | hb
        · exact hwhole
        · exact h.whole b hb
      · intro b hb
        rcases List.mem_cons.mp hb with rfl | hb
        · exact hal
        · exact h.aligned b hb
      · intro b
        exact List.mem_cons
    · have hrest : InOrder rest :=
        ⟨hpair.2, fun b hb => h.whole b (List.mem_cons_of_mem vma hb),
          fun b hb => h.aligned b (List.mem_cons_of_mem vma hb)⟩
      refine (ih hrest).bind fun r hr => .pure ⟨⟨?_, ?_, ?_⟩, ?_⟩
      · refine List.pairwise_cons.mpr ⟨?_, hr.1.apart⟩
        intro b hb
        rcases (hr.2 b).mp hb with rfl | hb
        · -- the new area does not begin before this one, so it begins behind it
          omega
        · exact hpair.1 b hb
      · intro b hb
        rcases List.mem_cons.mp hb with rfl | hb
        · exact hvma
        · exact hr.1.whole b hb
      · intro b hb
        rcases List.mem_cons.mp hb with rfl | hb
        · exact h.aligned b List.mem_cons_self
        · exact hr.1.aligned b hb
      · intro b
        rw [List.mem_cons, List.mem_cons, hr.2 b]
        tauto

/-! ## Entries in their areas -/

/-- The entry is that of an area, and grants no more. -/
def Granted (areas : List Vma) (v : Vpn) (pte : Pte) : Prop :=
  ∃ vma ∈ areas, vma.Has v ∧ grants (vma.vmFlags ||| PTE_V) pte.perm = true

/-- An entry that is valid is that of an area, or one above the user's memory. -/
def EntryOk (areas : List Vma) (v : Vpn) (pte : Pte) : Prop :=
  pte.valid = true → (pte.user = false ∧ TRAPFRAME ≤ pageAddr v) ∨ Granted areas v pte

def Mapped (areas : List Vma) (pt : PageTable) : Prop := ∀ v, EntryOk areas v (pt.pte v)

/-- What an address space keeps. -/
structure Layout (mm : Mm) : Prop where
  inOrder : InOrder mm.areas
  mapped : Mapped mm.areas mm.pagetable

theorem Granted.mono {v : Vpn} {pte : Pte} (h : Granted areas v pte)
    (hsub : ∀ vma ∈ areas, vma ∈ areas') : Granted areas' v pte := by
  rcases h with ⟨vma, hmem, hhas, hgrants⟩
  exact ⟨vma, hsub vma hmem, hhas, hgrants⟩

theorem Mapped.mono (h : Mapped areas pt) (hsub : ∀ vma ∈ areas, vma ∈ areas') :
    Mapped areas' pt := by
  intro v hvalid
  rcases h v hvalid with htop | hgranted
  · exact .inl htop
  · exact .inr (hgranted.mono hsub)

/-- An entry loses flags. -/
theorem EntryOk.weaken {v : Vpn} {pte pte' : Pte} (h : EntryOk areas v pte)
    (hsub : grants pte.perm pte'.perm = true) : EntryOk areas v pte' := by
  intro hvalid
  have hvalid' : pte.valid = true := grants_trans hsub hvalid
  rcases h hvalid' with ⟨huser, htop⟩ | ⟨vma, hmem, hhas, hgrants⟩
  · refine .inl ⟨?_, htop⟩
    by_contra hnot
    rw [Bool.not_eq_false] at hnot
    have huser' : pte.user = true := grants_trans hsub hnot
    rw [huser] at huser'
    cases huser'
  · exact .inr ⟨vma, hmem, hhas, grants_trans hgrants hsub⟩

theorem Mapped.zeroed (areas : List Vma) (root : Nat) : Mapped areas (PageTable.zeroed root) := by
  intro v hvalid
  have hnot : (Pte.zero).valid = false := by decide
  have hvalid : (Pte.zero).valid = true := hvalid
  rw [hnot] at hvalid
  cases hvalid

/-! ## Mapping -/

/-- A page may be mapped at `a` with the flags `perm`. -/
def Allows (areas : List Vma) (perm : Perm) (a : Nat) : Prop :=
  (grants perm PTE_U = false ∧ TRAPFRAME ≤ a) ∨
    ∃ vma ∈ areas, vma.vmStart ≤ a ∧ a + PGSIZE ≤ vma.vmEnd ∧ vma.vmEnd ≤ TRAPFRAME ∧
      grants vma.vmFlags perm = true

theorem grants_or {flags a b : Perm} (ha : grants flags a = true) (hb : grants flags b = true) :
    grants flags (a ||| b) = true := by
  rw [grants_iff] at ha hb ⊢
  intro i hi
  rw [BitVec.getLsbD_or, Bool.or_eq_true] at hi
  rcases hi with hi | hi
  · exact ha i hi
  · exact hb i hi

/-- The flags `V` and `G` are not the user's. -/
theorem user_mapped (perm : Perm) (c : Prop) [Decidable c] :
    grants ((if c then perm ||| PTE_G else perm) ||| PTE_V) PTE_U = grants perm PTE_U := by
  have hv : grants PTE_V PTE_U = false := by decide
  have hg : grants PTE_G PTE_U = false := by decide
  rw [grants_U_or, hv, Bool.or_false]
  split
  · rw [grants_U_or, hg, Bool.or_false]
  · rfl

/-- One entry is stored. -/
theorem Mapped.set (h : Mapped areas pt) {v : Vpn}
    (hv : EntryOk areas v (pt'.pte v))
    (hothers : ∀ w, w ≠ v → pt'.pte w = pt.pte w) : Mapped areas pt' := by
  intro w
  by_cases hw : w = v
  · rw [hw]
    exact hv
  · rw [hothers w hw]
    exact h w

/-- The entry that a page is mapped with. -/
theorem mapped_entry {va a : Nat} {perm : Perm} {unrelease : Bool} {pa : Frame}
    (ha : a < MAXVA) (hal : a % PGSIZE = 0) (hva : va ≤ a) (hallows : Allows areas perm a) :
    let pte : Pte := ⟨(if va ≥ TRAMPOLINE then perm ||| PTE_G else perm) ||| PTE_V, unrelease, pa⟩
    (pte.user = false ∧ TRAPFRAME ≤ pageAddr (vpn a)) ∨ Granted areas (vpn a) pte := by
  intro pte
  have haddr := pageAddr_page ha hal
  rcases hallows with ⟨huser, htop⟩ | ⟨vma, hmem, hstart, hend, hbelow, hgrants⟩
  · refine .inl ⟨?_, ?_⟩
    · show grants _ PTE_U = false
      rw [user_mapped]
      exact huser
    · rw [haddr]
      exact htop
  · refine .inr ⟨vma, hmem, ⟨?_, ?_⟩, ?_⟩
    · rw [haddr]
      exact hstart
    · rw [haddr]
      exact hend
    · have htop : ¬ va ≥ TRAMPOLINE := by
        have hlt : TRAPFRAME < TRAMPOLINE := by decide
        omega
      show grants _ ((if _ then _ else _) ||| PTE_V) = true
      rw [if_neg htop]
      exact grants_or (grants_trans (grants_or_left _ _) hgrants) (grants_or_right _ _)

/-- Looking for an entry that is to be stored. -/
theorem walk_below (s : Phys.Buddy) (pt : PageTable) (va : Nat) :
    Meets (fun _ => True) (walk s pt va) fun r => r.2.pte = pt.pte ∧ va < MAXVA := by
  refine .partial_intro fun r hr => ⟨(walk_pte s pt va).of_ok hr, ?_⟩
  by_contra hge
  unfold walk at hr
  rw [if_neg hge] at hr
  cases hr

theorem mappagesLoop_mapped {va : Nat} {perm : Perm} (n : Nat) (s : Phys.Buddy) (pt : PageTable)
    (a : Nat) (pa : Frame) (h : Mapped areas pt) (hal : a % PGSIZE = 0) (hva : va ≤ a)
    (hallows : ∀ i < n, Allows areas perm (a + i * PGSIZE)) :
    Meets (fun _ => True) (mappagesLoop va perm n s pt a pa) fun r => Mapped areas r.2 := by
  induction n generalizing s pt a pa with
  | zero => exact .ok h
  | succ n ih =>
    unfold mappagesLoop
    refine (walk_below s pt a).bind fun r hr => ?_
    rcases hr with ⟨hpte, hlt⟩
    refine .ite (fun _ => .error trivial) fun _ => ?_
    have hfirst := hallows 0 (Nat.succ_pos n)
    rw [Nat.zero_mul, Nat.add_zero] at hfirst
    refine ih r.1 _ (a + PGSIZE) pa.next ?_ ?_ (by omega) ?_
    · apply h.set (v := vpn a)
      · intro _
        rw [PageTable.setPte_pte, update_self]
        exact mapped_entry hlt hal hva hfirst
      · intro w hw
        rw [PageTable.setPte_pte, update_of_ne hw, hpte]
    · rw [Nat.add_mod_right]
      exact hal
    · intro i hi
      have hnext := hallows (i + 1) (Nat.succ_lt_succ hi)
      rw [Nat.succ_mul, Nat.add_comm (i * PGSIZE), ← Nat.add_assoc] at hnext
      exact hnext

/-- Whole pages are mapped where that is allowed. -/
theorem mappages_mapped {va n : Nat} {perm : Perm} (s : Phys.Buddy) (pt : PageTable) (pa : Frame)
    (h : Mapped areas pt) (hal : va % PGSIZE = 0)
    (hallows : ∀ i < n, Allows areas perm (va + i * PGSIZE)) :
    Meets (fun _ => True) (mappages s pt va (PGSIZE * n) pa perm) fun r => Mapped areas r.2 := by
  unfold mappages
  refine .ite (fun _ => .error trivial) fun hsize => ?_
  dsimp only
  have hcount : (pgRoundUp (pgRoundDown va + PGSIZE * n - 1) - pgRoundDown va) / PGSIZE = n := by
    simp only [pgRoundUp, pgRoundDown, PGSIZE] at hal hsize ⊢
    omega
  rw [hcount, pgRoundDown_of_aligned hal]
  exact mappagesLoop_mapped n s pt va pa h hal (Nat.le_refl va) hallows

/-- The two pages above the user's memory. -/
theorem userBasicPagetable_mapped (s : Phys.Buddy) (pt : PageTable) (tf : Nat)
    (h : Mapped areas pt) :
    Meets (fun _ => True) (userBasicPagetable s pt tf) fun r => Mapped areas r.2 := by
  unfold userBasicPagetable
  have htop : ∀ a perm, grants perm PTE_U = false → TRAPFRAME ≤ a →
      ∀ i < 1, Allows areas perm (a + i * PGSIZE) := by
    intro a perm hperm ha i _
    exact .inl ⟨hperm, Nat.le_trans ha (Nat.le_add_right a _)⟩
  refine (mappages_mapped (n := 1) s pt _ h (by decide) ?_).bind fun r hr => ?_
  · exact htop TRAMPOLINE _ (by decide) (by decide)
  · exact mappages_mapped (n := 1) r.1 r.2 _ hr (by decide) (htop TRAPFRAME _ (by decide) (by decide))

/-! ## Page faults -/

/-- A page of an area, with flags that the area has. -/
structure Inside (areas : List Vma) (targetperm : Perm) (va : Nat) : Prop where
  aligned : va % PGSIZE = 0
  area : ∃ vma ∈ areas, vma.vmStart ≤ va ∧ va + PGSIZE ≤ vma.vmEnd ∧ vma.vmEnd ≤ TRAPFRAME ∧
    grants vma.vmFlags targetperm = true

theorem Inside.lt {targetperm : Perm} {va : Nat} (h : Inside areas targetperm va) :
    va + PGSIZE ≤ TRAPFRAME := by
  rcases h.area with ⟨vma, -, -, hend, hbelow, -⟩
  omega

theorem Inside.addr {targetperm : Perm} {va : Nat} (h : Inside areas targetperm va) :
    pageAddr (vpn va) = va := by
  have hlt := h.lt
  have htop : TRAPFRAME ≤ MAXVA := by decide
  have hpos : 0 < PGSIZE := by decide
  exact pageAddr_page (by omega) h.aligned

/-- A valid entry that gets more flags of its area. -/
theorem Granted.add (h : InOrder areas) {targetperm : Perm} {va : Nat} {old new : Pte}
    (hin : Inside areas targetperm va) (hold : Granted areas (vpn va) old)
    (hnew : new.perm = old.perm ||| targetperm) : Granted areas (vpn va) new := by
  rcases hold with ⟨vma, hmem, hhas, hgrants⟩
  have haddr := hin.addr
  rcases hin.area with ⟨vma', hmem', hstart, hend, -, htarget⟩
  have hhas' : vma'.Has (vpn va) := by
    unfold Vma.Has
    rw [haddr]
    exact ⟨hstart, hend⟩
  rcases h.unique hmem hmem' hhas hhas'
  refine ⟨vma, hmem, hhas, ?_⟩
  rw [hnew]
  exact grants_or hgrants (grants_trans (grants_or_left _ _) htarget)

theorem verifyPage_mapped (h : InOrder areas) (m : Mem) (pt : PageTable) {va : Nat}
    {targetperm : Perm} (fill : Nat → Page) (hm : Mapped areas pt)
    (hin : Inside areas targetperm va) :
    Meets (fun _ => True) (verifyPage m pt va targetperm fill) fun r => Mapped areas r.2 := by
  unfold verifyPage
  refine (walk_pte m.phys pt va).bind fun r hr => ?_
  simp only [hr]
  -- a page fault on a valid entry: the entry is in the same area
  have hadd : ∀ new : Pte, (pt.pte (vpn va)).valid = true →
      new.perm = (pt.pte (vpn va)).perm ||| targetperm → Granted areas (vpn va) new := by
    intro new hvalid hnew
    rcases hm (vpn va) hvalid with ⟨-, htop⟩ | hgranted
    · have hlt := hin.lt
      rw [hin.addr] at htop
      have hpos : 0 < PGSIZE := by decide
      omega
    · exact hgranted.add h hin hnew
  refine .ite (fun _ => ?_) fun _ => .ite (fun hvalid => ?_) fun _ => ?_
  · refine .pure ?_
    unfold Mapped
    rw [hr]
    exact hm
  · unfold doWpPage
    rw [hr]
    refine .after fun u => ?_
    refine .ite (fun _ => ?_) fun _ => ?_
    · refine .after fun _ => .pure ?_
      apply hm.set (v := vpn va)
      · intro _
        rw [PageTable.setPte_pte, update_self]
        exact .inr (hadd _ hvalid rfl)
      · intro w hw
        rw [PageTable.setPte_pte, update_of_ne hw, hr]
    · refine .after fun w => ?_
      refine .after fun old => ?_
      refine .after fun _ => .pure ?_
      apply hm.set (v := vpn va)
      · intro _
        rw [PageTable.setPte_pte, update_self]
        exact .inr (hadd _ hvalid (BitVec.or_comm _ _))
      · intro w hw
        rw [PageTable.setPte_pte, update_of_ne hw, hr]
  · unfold doNoPage
    refine .after fun u => ?_
    have hm' : Mapped areas r.2 := by
      unfold Mapped
      rw [hr]
      exact hm
    refine (mappages_mapped (n := 1) u.1 r.2 _ hm' hin.aligned ?_).bind fun w hw => .pure hw
    intro i hi
    have hzero : i = 0 := by omega
    rw [hzero, Nat.zero_mul, Nat.add_zero]
    exact .inr hin.area

theorem verifyLoop_mapped (h : InOrder areas) {vma : Vma} {endVaddr : Nat} {targetperm : Perm}
    (fill : Nat → Page) (hmem : vma ∈ areas) (hend : endVaddr ≤ vma.vmEnd)
    (hflags : grants vma.vmFlags targetperm = true) (va : Nat) (m : Mem) (pt : PageTable)
    (hva : va % PGSIZE = 0) (hstart : vma.vmStart ≤ va) (hm : Mapped areas pt) :
    Meets (fun _ => True) (verifyLoop endVaddr targetperm fill va m pt) fun r =>
      Mapped areas r.2 := by
  fun_induction verifyLoop endVaddr targetperm fill va m pt with
  | case1 va m pt hlt ih =>
    have hin : Inside areas targetperm va := by
      refine ⟨hva, vma, hmem, hstart, ?_, (h.whole vma hmem).2, hflags⟩
      -- the area ends at a page boundary behind `va`
      have hal := (h.aligned vma hmem).2
      simp only [PGSIZE] at hva hal ⊢
      omega
    refine (verifyPage_mapped h m pt fill hm hin).bind fun r hr => ?_
    apply ih r.1 r.2 ?_ (by omega) hr
    rw [Nat.add_mod_right]
    exact hva
  | case2 va m pt hge => exact .ok hm

theorem verifyArea_mapped (h : InOrder areas) (m : Mem) (pt : PageTable) (vaddr size : Nat)
    (targetperm : Perm) (fill : Nat → Page) (hm : Mapped areas pt) :
    Meets (fun _ => True) (verifyArea m areas pt vaddr size targetperm fill) fun r =>
      Mapped areas r.2.1 := by
  unfold verifyArea
  split
  · exact .ok hm
  · rename_i vma hfound
    have hmem : vma ∈ areas := List.mem_of_find?_eq_some hfound
    have hp := List.find?_some hfound
    simp only [Bool.and_eq_true, decide_eq_true_eq] at hp
    refine .ite (fun hflags => ?_) fun _ => .ok hm
    have hstart : vma.vmStart ≤ pgRoundDown vaddr := by
      have hal := (h.aligned vma hmem).1
      have hle := hp.1
      simp only [pgRoundDown, PGSIZE] at hal ⊢
      omega
    exact (verifyLoop_mapped h fill hmem hp.2 hflags _ m pt (pgRoundDown_mod vaddr) hstart hm).bind
      fun r hr => .pure hr

/-! ## Forking -/

/-- What the loops of `copy_pgtable` keep: no entry gets a flag that the old one did not have. -/
structure Copied (c₀ c : Copy) : Prop where
  old : ∀ v, grants (c₀.old.pte v).perm (c.old.pte v).perm = true
  new : ∀ v, grants (c₀.new.pte v).perm (c.new.pte v).perm = true ∨
    grants (c₀.old.pte v).perm (c.new.pte v).perm = true

theorem grants_and (a b : Perm) : grants a (a &&& b) = true := by
  rw [grants_iff]
  intro i hi
  rw [BitVec.getLsbD_and, Bool.and_eq_true] at hi
  exact hi.1

theorem Copied.refl (c : Copy) : Copied c c :=
  ⟨fun _ => grants_refl _, fun _ => .inl (grants_refl _)⟩

/-- The tables of the new address space are entered; no entry changes. -/
theorem Copied.enter {c₀ c c' : Copy} (h : Copied c₀ c) (hold : c'.old = c.old)
    (hnew : c'.new.pte = c.new.pte) : Copied c₀ c' := by
  refine ⟨?_, ?_⟩
  · rw [hold]
    exact h.old
  · rw [hnew]
    exact h.new

theorem copyEntry_copied {c₀ c : Copy} (perm : Perm) (v : Vpn) (h : Copied c₀ c) :
    Meets (fun _ => True) (copyEntry perm v c) (Copied c₀) := by
  unfold copyEntry
  refine .ite (fun _ => .ok h) fun _ => .ite (fun _ => ?_) fun _ => .ok h
  refine .after fun s => .pure ⟨?_, ?_⟩
  · intro w
    show grants _ (update c.old.pte v _ w).perm = true
    by_cases hw : w = v
    · rw [hw, update_self]
      exact grants_trans (h.old v) (grants_and _ _)
    · rw [update_of_ne hw]
      exact h.old w
  · intro w
    show _ ∨ grants _ (update c.new.pte v _ w).perm = true
    by_cases hw : w = v
    · right
      rw [hw, update_self]
      exact grants_trans (h.old v) (grants_and _ _)
    · rcases h.new w with hn | ho
      · left
        show grants _ (update c.new.pte v _ w).perm = true
        rw [update_of_ne hw]
        exact hn
      · right
        rw [update_of_ne hw]
        exact ho

theorem copyLow_copied {c₀ c : Copy} (perm : Perm) (i j : Idx) (h : Copied c₀ c) :
    Meets (fun _ => True) (copyLow perm i j c) (Copied c₀) := by
  unfold copyLow
  apply Meets.foldlM (fun _ c => Copied c₀ c) h
  intro _ k _ c _ hc
  exact copyEntry_copied perm (i, j, k) hc

theorem copyMid_copied {c₀ c : Copy} (perm : Perm) (i : Idx) (h : Copied c₀ c) :
    Meets (fun _ => True) (copyMid perm i c) (Copied c₀) := by
  unfold copyMid
  apply Meets.foldlM (fun _ c => Copied c₀ c) h
  intro _ j _ c _ hc
  refine .ite (fun _ => ?_) fun _ => .ok hc
  refine (enterLow_pte c.phys c.new i j).bind fun r hr => ?_
  exact copyLow_copied perm i j (hc.enter rfl hr)

theorem copyPgtable_copied (perm : Perm) (c : Copy) :
    Meets (fun _ => True) (copyPgtable perm c) (Copied c) := by
  unfold copyPgtable
  apply Meets.foldlM (fun _ c' => Copied c c') (Copied.refl c)
  intro _ i _ c' _ hc
  refine .ite (fun _ => ?_) fun _ => .ok hc
  refine (enterMid_pte c'.phys c'.new i).bind fun r hr => ?_
  exact copyMid_copied perm i (hc.enter rfl hr)

theorem copyAreas_eq (old new : List Vma) : copyAreas old new.length new = new ++ old := by
  induction old generalizing new with
  | nil => exact (List.append_nil new).symm
  | cons vma rest ih =>
    have hlen : (new ++ [vma]).length = new.length + 1 := List.length_append
    show copyAreas rest (new.length + 1) (new.insertIdx new.length vma) = new ++ vma :: rest
    rw [List.insertIdx_length_self, ← hlen, ih, List.append_assoc, List.singleton_append]

/-- Both address spaces of a fork: the child has the areas of the parent. -/
theorem uvmSpaceCopy_layout (s : Phys.Buddy) {new old : Mm} (h : Layout old)
    (hnew : Mapped [] new.pagetable) (hareas : new.areas = []) :
    Meets (fun _ => True) (uvmSpaceCopy s new old) fun r => Layout r.2.1 ∧ Layout r.2.2 := by
  unfold uvmSpaceCopy
  have hcopy : copyAreas old.areas 0 new.areas = old.areas := by
    rw [hareas]
    exact copyAreas_eq old.areas []
  refine (copyPgtable_copied PTE_W _).bind fun c hc => .pure ⟨⟨?_, ?_⟩, ⟨h.inOrder, ?_⟩⟩
  · show InOrder (copyAreas old.areas 0 new.areas)
    rw [hcopy]
    exact h.inOrder
  · show Mapped (copyAreas old.areas 0 new.areas) c.new
    rw [hcopy]
    intro v
    rcases hc.new v with hn | ho
    · exact (hnew.mono (fun vma hmem => nomatch hmem) v).weaken hn
    · exact (h.mapped v).weaken ho
  · intro v
    exact (h.mapped v).weaken (hc.old v)

/-! ## New address spaces -/

/-- One area more. -/
theorem addVmArea_layout {new : Vma} (h : InOrder mm.areas) (hm : Mapped (new :: mm.areas) mm.pagetable)
    (hwhole : new.vmStart ≤ new.vmEnd ∧ new.vmEnd ≤ TRAPFRAME) :
    Meets (fun _ => True) (addVmArea mm new) fun r =>
      Layout r ∧ r.pagetable = mm.pagetable ∧ r.stackMaxsize = mm.stackMaxsize := by
  unfold addVmArea
  refine .ite (fun hal => ?_) fun _ => .error trivial
  refine (insertArea_inOrder h hwhole hal).bind fun r hr => .pure ⟨⟨hr.1, ?_⟩, rfl, rfl⟩
  apply hm.mono
  intro vma hmem
  exact (hr.2 vma).mpr (List.mem_cons.mp hmem)

theorem newMmStruct_layout (s : Phys.Buddy) (stale : Mm) :
    Meets (fun _ => True) (newMmStruct s stale) fun r =>
      r.2.areas = [] ∧ (∃ root, r.2.pagetable = PageTable.zeroed root) ∧
        r.2.stackMaxsize = MAXSTACK := by
  unfold newMmStruct
  have hcreate : Meets (fun _ => True) (uvmcreate s) fun r =>
      ∃ root, r.2 = PageTable.zeroed root := by
    unfold uvmcreate
    exact .after fun u => .pure ⟨_, rfl⟩
  refine hcreate.bind ?_
  rintro r ⟨root, hroot⟩
  exact .pure ⟨rfl, ⟨root, hroot⟩, rfl⟩

theorem allocproc_layout (s : Phys.Buddy) (stale : Mm) :
    Meets (fun _ => True) (allocproc s stale) fun r =>
      r.2.2.areas = [] ∧ Mapped [] r.2.2.pagetable := by
  unfold allocproc
  refine .after fun u => ?_
  refine (newMmStruct_layout u.1 stale).bind fun r hr => ?_
  rcases hr with ⟨hareas, ⟨root, hroot⟩, -⟩
  have hm : Mapped [] r.2.pagetable := by
    rw [hroot]
    exact Mapped.zeroed [] root
  refine (userBasicPagetable_mapped r.1 r.2.pagetable u.2 hm).bind fun w hw => ?_
  exact .pure ⟨hareas, hw⟩

/-- The first process has one area, and its page. -/
theorem userInit_layout (m : Mem) (initpage : Page) (stale : Mm) :
    Meets (fun _ => True) (userInit m initpage stale) fun r => Layout r.2.2 := by
  unfold userInit
  refine (allocproc_layout m.phys stale).bind fun r hr => ?_
  rcases hr with ⟨hareas, hm⟩
  refine .after fun u => ?_
  let vma : Vma := ⟨INITSTART, INITSTART + PGSIZE, PTE_X ||| PTE_R ||| PTE_U, 0, 0, none⟩
  have hpage : Mapped (vma :: r.2.2.areas) r.2.2.pagetable := by
    rw [hareas]
    exact hm.mono fun _ hmem => nomatch hmem
  have hallows : ∀ i < 1, Allows (vma :: r.2.2.areas) (PTE_X ||| PTE_R ||| PTE_U)
      (INITSTART + i * PGSIZE) := by
    intro i hi
    have hzero : i = 0 := by omega
    rw [hzero]
    exact .inr ⟨vma, List.mem_cons_self, by decide, by decide, by decide, by decide⟩
  refine (mappages_mapped (n := 1) u.1 _ _ hpage (by decide) hallows).bind fun w hw => ?_
  refine .bind (addVmArea_layout ?_ hw (by decide)) fun v hv => .pure hv.1
  show InOrder r.2.2.areas
  rw [hareas]
  exact InOrder.nil

theorem doFork_layout (s : Phys.Buddy) {parent : Mm} (stale : Mm) (h : Layout parent) :
    Meets (fun _ => True) (doFork s parent stale) fun r => Layout r.2.2.1 ∧ Layout r.2.2.2 := by
  unfold doFork
  refine (allocproc_layout s stale).bind fun r hr => ?_
  exact (uvmSpaceCopy_layout r.1 h hr.2 hr.1).bind fun c hc => .pure hc

/-! ## Executables -/

/-- The program header that the variable of `load_elf` contains at the end. -/
def lastHeader : List (Option Phdr) → Phdr → Phdr
  | [], last => last
  | none :: _, last => last
  | some h :: rest, _ => lastHeader rest h

/-- The segments of an executable end below `TRAPFRAME`, and so does what the last header spans. -/
structure Fits (image : Image) : Prop where
  segments : ∀ h, some h ∈ image.headers → h.pType = PT_LOAD → h.pVaddr + h.pMemsz ≤ TRAPFRAME
  heap : segmentEnd (lastHeader image.headers image.stale) ≤ TRAPFRAME

theorem segmentEnd_eq {h : Phdr} (hend : h.pVaddr + h.pMemsz ≤ TRAPFRAME) :
    h.pVaddr ≤ segmentEnd h ∧ segmentEnd h ≤ TRAPFRAME := by
  have htop : TRAPFRAME = 274877898752 := by decide
  have haddrs : ADDRS = 18446744073709551616 := by decide
  rw [htop] at hend ⊢
  unfold segmentEnd
  rw [haddrs]
  simp only [pgRoundUp, pgRoundDown, PGSIZE]
  omega

theorem segmentEnd_aligned (h : Phdr) : segmentEnd h % PGSIZE = 0 := by
  have haddrs : ADDRS = 18446744073709551616 := by decide
  unfold segmentEnd
  rw [haddrs]
  simp only [pgRoundUp, pgRoundDown, PGSIZE]
  omega

/-- Nothing is mapped yet. -/
structure Blank (mm : Mm) : Prop where
  inOrder : InOrder mm.areas
  pagetable : ∃ root, mm.pagetable = PageTable.zeroed root
  stackMaxsize : mm.stackMaxsize = MAXSTACK

theorem Blank.mapped (h : Blank mm) (areas : List Vma) : Mapped areas mm.pagetable := by
  rcases h.pagetable with ⟨root, hroot⟩
  rw [hroot]
  exact Mapped.zeroed areas root

theorem Blank.add {new : Vma} (h : Blank mm)
    (hwhole : new.vmStart ≤ new.vmEnd ∧ new.vmEnd ≤ TRAPFRAME) :
    Meets (fun _ => True) (addVmArea mm new) Blank := by
  refine (addVmArea_layout h.inOrder (h.mapped _) hwhole).mono fun r hr => ?_
  rcases hr with ⟨hlayout, hpt, hmax⟩
  refine ⟨hlayout.inOrder, ?_, hmax.trans h.stackMaxsize⟩
  rw [hpt]
  exact h.pagetable

theorem loadHeaders_blank {inode : Nat} {headers : List (Option Phdr)} {last : Phdr} (h : Blank mm)
    (hfits : ∀ h, some h ∈ headers → h.pType = PT_LOAD → h.pVaddr + h.pMemsz ≤ TRAPFRAME) :
    Meets (fun _ => True) (loadHeaders inode headers last mm) fun r =>
      ∀ mm' last', r = some (mm', last') → Blank mm' ∧ last' = lastHeader headers last := by
  induction headers generalizing last mm with
  | nil =>
    refine .ok fun mm' last' heq => ?_
    cases heq
    exact ⟨h, rfl⟩
  | cons header rest ih =>
    have hrest : ∀ h, some h ∈ rest → h.pType = PT_LOAD → h.pVaddr + h.pMemsz ≤ TRAPFRAME :=
      fun h hmem => hfits h (List.mem_cons_of_mem header hmem)
    cases header with
    | none => exact .ok fun mm' last' heq => nomatch heq
    | some header =>
      unfold loadHeaders
      refine .ite (fun hload => ?_) fun _ => ih h hrest
      have hload' : Meets (fun _ => True) (preLoadSegment mm inode header) Blank := by
        unfold preLoadSegment
        refine .ite (fun _ => ?_) fun _ => .error trivial
        exact h.add (segmentEnd_eq (hfits header List.mem_cons_self hload))
      exact hload'.bind fun mm' hmm' => ih hmm' hrest

/-- A new address space with the segments and the heap. -/
theorem loadElf_blank {image : Image} (h : Blank mm) (hfits : Fits image) :
    Meets (fun _ => True) (loadElf mm image) fun r => ∀ mm', r = some mm' → Blank mm' := by
  unfold loadElf
  refine .ite (fun _ => ?_) fun _ => .ok fun mm' heq => nomatch heq
  refine (loadHeaders_blank h hfits.segments).bind fun r hr => ?_
  cases r with
  | none => exact .pure fun mm' heq => nomatch heq
  | some pair =>
    rcases pair with ⟨mm₁, last⟩
    rcases hr mm₁ last rfl with ⟨hblank, hlast⟩
    have hheap : Blank { mm₁ with startBrk := segmentEnd last, brk := segmentEnd last } :=
      ⟨hblank.inOrder, hblank.pagetable, hblank.stackMaxsize⟩
    refine (hheap.add ⟨Nat.le_refl _, ?_⟩).bind fun mm₂ hmm₂ => .pure fun mm' heq => ?_
    · show segmentEnd last ≤ TRAPFRAME
      rw [hlast]
      exact hfits.heap
    · split at heq
      · cases heq
      · cases heq
        exact hmm₂

/-! ## Replacing an address space -/

/-- The argument block fits the stack. -/
theorem pageNum_le (a : ExecArgs) : a.pageNum ≤ MAXSTACK := by
  have hvec : ∀ v : ArgVec, v.length ≤ 4616 := by
    intro v
    have hsum : ∀ strs : List (List UInt8), (∀ str ∈ strs, str.length ≤ MAXARGLEN) →
        (strs.map fun str => str.length + 8).sum ≤ 72 * strs.length := by
      intro strs hshort
      induction strs with
      | nil => exact Nat.le_refl 0
      | cons str rest ih =>
        have hstr : str.length ≤ 64 := hshort str List.mem_cons_self
        have hrest := ih fun s hs => hshort s (List.mem_cons_of_mem str hs)
        rw [List.map_cons, List.sum_cons, List.length_cons]
        omega
    have hle := hsum v.strs v.short
    have hfew : v.strs.length ≤ 64 := v.few
    unfold ArgVec.length
    omega
  have henvp := hvec a.envp
  have hargv := hvec a.argv
  show (a.envp.length + a.argv.length + (4096 - 1)) / 4096 ≤ 32
  omega

theorem mapUserStack_layout (s : Phys.Buddy) {pageNum : Nat} (ustack : Nat)
    (h : InOrder mm.areas) (hm : Mapped mm.areas mm.pagetable) (hmax : mm.stackMaxsize = MAXSTACK)
    (hfew : pageNum ≤ MAXSTACK) :
    Meets (fun _ => True) (mapUserStack s mm pageNum ustack) fun r => Layout r.2 := by
  unfold mapUserStack
  let stack : Vma := ⟨USER_STACK_TOP - PGSIZE * MAXSTACK, USER_STACK_TOP, PTE_R ||| PTE_W ||| PTE_U,
    0, 0, none⟩
  have hstack : Mapped (stack :: mm.areas) mm.pagetable :=
    hm.mono fun vma hmem => List.mem_cons_of_mem stack hmem
  have hfew : pageNum ≤ 32 := hfew
  have htop : USER_STACK_TOP = 274877898752 := by decide
  have hallows : ∀ i < pageNum, Allows (stack :: mm.areas) (PTE_W ||| PTE_R ||| PTE_U)
      (USER_STACK_TOP - PGSIZE * pageNum + i * PGSIZE) := by
    intro i hi
    refine .inr ⟨stack, List.mem_cons_self, ?_, ?_, Nat.le_refl _, by decide⟩
    · show USER_STACK_TOP - 4096 * 32 ≤ USER_STACK_TOP - 4096 * pageNum + i * 4096
      omega
    · show USER_STACK_TOP - 4096 * pageNum + i * 4096 + 4096 ≤ USER_STACK_TOP
      rw [htop]
      omega
  have hal : (USER_STACK_TOP - PGSIZE * pageNum) % PGSIZE = 0 := by
    rw [htop]
    show (274877898752 - 4096 * pageNum) % 4096 = 0
    omega
  refine (mappages_mapped s mm.pagetable _ hstack hal hallows).bind fun r hr => ?_
  rw [hmax]
  exact .bind (addVmArea_layout h hr (by decide)) fun v hv => .pure hv.1

theorem fetchArgs_layout (fetches : List Fetch) (m : Mem) (h : Layout mm) :
    Meets (fun _ => True) (fetchArgs fetches m mm) fun r => Layout r.2.1 := by
  induction fetches generalizing m mm with
  | nil => exact .ok h
  | cons f rest ih =>
    unfold fetchArgs
    refine (verifyArea_mapped h.inOrder m mm.pagetable _ _ _ _ h.mapped).bind fun r hr => ?_
    have hnext : Layout { mm with pagetable := r.2.1 } := ⟨h.inOrder, hr⟩
    exact .ite (fun _ => .pure hnext) fun _ => ih r.1 hnext

theorem replaceMm_layout (m : Mem) (old : Mm) {new : Mm} (tf : Nat) (a : ExecArgs) (h : Blank new) :
    Meets (fun _ => True) (replaceMm m old new tf a) fun r => Layout r.2 := by
  unfold replaceMm
  refine .after fun u => .after fun s => ?_
  refine (userBasicPagetable_mapped s new.pagetable tf (h.mapped new.areas)).bind fun r hr => ?_
  refine .bind (mapUserStack_layout r.1 u.2 h.inOrder hr h.stackMaxsize (pageNum_le a)) ?_
  intro w hw
  exact .after fun data => .pure hw

theorem doExecve_layout (m : Mem) (tf : Nat) (a : ExecArgs) (h : Layout mm) (hfits : Fits a.image) :
    Meets (fun _ => True) (doExecve m mm tf a) fun r => Layout r.2 := by
  unfold doExecve
  refine (newMmStruct_layout m.phys a.stale).bind fun r hr => ?_
  rcases hr with ⟨hareas, hroot, hmax⟩
  have hblank : Blank r.2 := by
    refine ⟨?_, hroot, hmax⟩
    rw [hareas]
    exact InOrder.nil
  refine (loadElf_blank hblank hfits).bind fun loaded hloaded => ?_
  cases loaded with
  | none => exact .pure h
  | some new =>
    refine (fetchArgs_layout a.fetches _ h).bind fun w hw => ?_
    refine .ite (fun _ => ?_) fun _ => .pure hw
    exact replaceMm_layout w.1 w.2.1 tf a (hloaded new rfl)

/-! ## The heap -/

/-- Where the heap is among the areas: the first one without a file that begins at `start_brk`. -/
def heapIdx (mm : Mm) : Option Nat :=
  mm.areas.findIdx? fun vma => vma.vmStart == mm.startBrk && vma.vmInode.isNone

/-- What `sys_brk` does not check. -/
structure BrkOk (mm : Mm) (vaddr : Nat) : Prop where
  third : heapIdx mm = some 2
  aligned : vaddr % PGSIZE = 0
  room : ∀ i vma, 2 < i → mm.areas[i]? = some vma → vaddr ≤ vma.vmStart
  below : vaddr ≤ TRAPFRAME
  /-- No page of the heap is mapped from `vaddr` on. -/
  unmapped : ∀ heap, mm.areas[2]? = some heap → ∀ v, (mm.pagetable.pte v).valid = true →
    heap.vmStart ≤ pageAddr v → pageAddr v < heap.vmEnd → pageAddr v < vaddr

/-- No other area changes. -/
structure HeapOnly (mm mm' : Mm) : Prop where
  length : mm'.areas.length = mm.areas.length
  others : ∀ i, heapIdx mm ≠ some i → mm'.areas[i]? = mm.areas[i]?

theorem HeapOnly.refl (mm : Mm) : HeapOnly mm mm := ⟨rfl, fun _ _ => rfl⟩

theorem pageAddr_aligned (v : Vpn) : pageAddr v % PGSIZE = 0 := Nat.mul_mod_left _ _

/-- The third of the areas, with those around it. -/
theorem BrkOk.split {vaddr : Nat} (h : BrkOk mm vaddr) :
    ∃ a b heap rest, mm.areas = a :: b :: heap :: rest ∧ heap.vmStart = mm.startBrk := by
  rcases List.findIdx?_eq_some_iff_getElem.mp h.third with ⟨hlen, hheap, -⟩
  rw [Bool.and_eq_true, beq_iff_eq] at hheap
  rcases hareas : mm.areas with _ | ⟨a, _ | ⟨b, _ | ⟨heap, rest⟩⟩⟩
  · rw [hareas] at hlen
    exact absurd hlen (by decide)
  · rw [hareas] at hlen
    exact absurd hlen (by simp)
  · rw [hareas] at hlen
    exact absurd hlen (by simp)
  · refine ⟨a, b, heap, rest, rfl, ?_⟩
    have hthird : mm.areas[2] = heap := by
      simp only [hareas, List.getElem_cons_succ, List.getElem_cons_zero]
    rw [← hthird]
    exact hheap.1

/-- The heap gets another end. -/
theorem InOrder.setEnd {a b heap : Vma} {rest : List Vma} {vaddr : Nat}
    (h : InOrder (a :: b :: heap :: rest)) (hal : vaddr % PGSIZE = 0) (hbelow : vaddr ≤ TRAPFRAME)
    (hstart : heap.vmStart ≤ vaddr) (hroom : ∀ vma ∈ rest, vaddr ≤ vma.vmStart) :
    InOrder (a :: b :: { heap with vmEnd := vaddr } :: rest) := by
  have hb := List.pairwise_cons.mp h.apart
  have hheap := List.pairwise_cons.mp hb.2
  have hrest := List.pairwise_cons.mp hheap.2
  have hmem : heap ∈ a :: b :: heap :: rest := by simp
  -- an area of the new list is the heap, or one of the old list
  have hcases : ∀ vma ∈ a :: b :: { heap with vmEnd := vaddr } :: rest,
      vma = { heap with vmEnd := vaddr } ∨ vma ∈ a :: b :: heap :: rest := by
    intro vma hvma
    simp only [List.mem_cons] at hvma ⊢
    tauto
  refine ⟨?_, ?_, ?_⟩
  · refine List.pairwise_cons.mpr ⟨?_, List.pairwise_cons.mpr ⟨?_, List.pairwise_cons.mpr ⟨?_, ?_⟩⟩⟩
    · intro c hc
      rcases List.mem_cons.mp hc with rfl | hc
      · exact hb.1 c List.mem_cons_self
      · rcases List.mem_cons.mp hc with rfl | hc
        · exact hb.1 heap (by simp)
        · exact hb.1 c (by simp [hc])
    · intro c hc
      rcases List.mem_cons.mp hc with rfl | hc
      · exact hheap.1 heap List.mem_cons_self
      · exact hheap.1 c (List.mem_cons_of_mem heap hc)
    · exact hroom
    · exact hrest.2
  · intro vma hvma
    rcases hcases vma hvma with rfl | hold
    · exact ⟨hstart, hbelow⟩
    · exact h.whole vma hold
  · intro vma hvma
    rcases hcases vma hvma with rfl | hold
    · exact ⟨(h.aligned heap hmem).1, hal⟩
    · exact h.aligned vma hold

/-- The call changes the heap alone, and the layout stays. -/
theorem sysBrk_layout {vaddr : Nat} (h : Layout mm) (hok : vaddr ≤ mm.startBrk ∨ BrkOk mm vaddr) :
    Meets (fun _ => True) (sysBrk mm vaddr) fun r => Layout r ∧ HeapOnly mm r := by
  unfold sysBrk
  refine .ite (fun _ => .ok ⟨h, .refl mm⟩) fun hlt => ?_
  refine .ite (fun _ => ?_) fun _ => .error trivial
  have hbrk := hok.resolve_left hlt
  rcases hbrk.split with ⟨a, b, heap, rest, hareas, hstart⟩
  have hthird : mm.areas[2]? = some heap := by
    rw [hareas]
    rfl
  have hmodify : mm.areas.modify 2 (fun vma => { vma with vmEnd := vaddr })
      = a :: b :: { heap with vmEnd := vaddr } :: rest := by
    rw [hareas]
    rfl
  refine .ok ⟨⟨?_, ?_⟩, ⟨List.length_modify .., ?_⟩⟩
  · show InOrder (mm.areas.modify 2 _)
    rw [hmodify]
    have hold := h.inOrder
    rw [hareas] at hold
    refine hold.setEnd hbrk.aligned hbrk.below (by omega) ?_
    intro vma hmem
    rcases List.getElem?_of_mem hmem with ⟨i, hi⟩
    apply hbrk.room (i + 3) vma (by omega)
    rw [hareas]
    exact hi
  · show Mapped (mm.areas.modify 2 _) mm.pagetable
    rw [hmodify]
    intro v hvalid
    rcases h.mapped v hvalid with htop | ⟨vma, hmem, hhas, hgrants⟩
    · exact .inl htop
    · right
      rw [hareas] at hmem
      by_cases hheap : vma = heap
      · -- the page is below the new end
        refine ⟨{ heap with vmEnd := vaddr }, by simp, ⟨?_, ?_⟩, ?_⟩
        · rw [← hheap]
          exact hhas.1
        · rw [hheap] at hhas
          have hpos : 0 < PGSIZE := by decide
          have hlow := hbrk.unmapped heap hthird v hvalid hhas.1 (by have := hhas.2; omega)
          have hpage := pageAddr_aligned v
          have hal := hbrk.aligned
          show pageAddr v + PGSIZE ≤ vaddr
          simp only [PGSIZE] at hpage hal ⊢
          omega
        · rw [hheap] at hgrants
          exact hgrants
      · refine ⟨vma, ?_, hhas, hgrants⟩
        simp only [List.mem_cons] at hmem ⊢
        tauto
  · intro i hi
    have hne : 2 ≠ i := by
      rintro rfl
      exact hi hbrk.third
    exact List.getElem?_modify_ne _ _ hne

/-! ## Runs -/

/-- An executable that fits, and an argument of `brk` that keeps the heap the third area. -/
def Admitted (st : State) : Op → Prop
  | .brk p vaddr => ∀ tf mm, st.pcbtable p = some ⟨tf, some mm⟩ → vaddr ≤ mm.startBrk ∨ BrkOk mm vaddr
  | .execve _ args => Fits args.image
  | _ => True

/-- Every address space is laid out well. -/
def Tidy (st : State) : Prop := ∀ p tf mm, st.pcbtable p = some ⟨tf, some mm⟩ → Layout mm

variable {st st' : State}

theorem Tidy.put (h : Tidy st) {m : Mem} {p : Pid} {o : Option Proc}
    (ho : ∀ tf mm, o = some ⟨tf, some mm⟩ → Layout mm) : Tidy (st.put m p o) := by
  intro q tf mm hq
  have hq : update st.pcbtable p o q = some ⟨tf, some mm⟩ := hq
  by_cases hqp : q = p
  · rw [hqp, update_self] at hq
    exact ho tf mm hq
  · rw [update_of_ne hqp] at hq
    exact h q tf mm hq

theorem Tidy.putMm (h : Tidy st) (m : Mem) (p : Pid) (tf : Nat) (hmm : Layout mm) :
    Tidy (st.put m p (some ⟨tf, some mm⟩)) := by
  apply h.put
  intro tf' mm' heq
  cases heq
  exact hmm

theorem meets_withMm {allowed : Fault → Prop} {post : State → Prop} {p : Pid}
    {f : Nat → Mm → Except Fault State} (hcheck : allowed .check)
    (hf : ∀ tf mm, st.pcbtable p = some ⟨tf, some mm⟩ → Meets allowed (f tf mm) post) :
    Meets allowed (withMm st p f) post := by
  unfold withMm
  split
  · rename_i tf mm hp
    exact hf tf mm hp
  · exact .error hcheck

theorem withMm_ok {p : Pid} {f : Nat → Mm → Except Fault State} (h : withMm st p f = .ok st') :
    ∃ tf mm, st.pcbtable p = some ⟨tf, some mm⟩ ∧ f tf mm = .ok st' := by
  unfold withMm at h
  split at h
  · exact ⟨_, _, by assumption, h⟩
  · cases h

theorem Tidy.withMm (h : Tidy st) {p : Pid} {f : Nat → Mm → Except Fault State}
    (hf : ∀ tf mm, st.pcbtable p = some ⟨tf, some mm⟩ → Layout mm →
      Meets (fun _ => True) (f tf mm) Tidy) :
    Meets (fun _ => True) (withMm st p f) Tidy :=
  meets_withMm trivial fun tf mm hp => hf tf mm hp (h p tf mm hp)

/-- One call keeps every layout. -/
theorem Tidy.call (h : Tidy st) (op : Op) (hop : Admitted st op) :
    Meets (fun _ => True) (call st op) Tidy := by
  cases op with
  | userInit p initpage stale =>
    simp only [Vm.call]
    split
    · exact .error trivial
    · refine (userInit_layout st.mem initpage stale).bind fun r hr => .pure ?_
      exact h.putMm r.1 p r.2.1 hr
  | fork p c stale =>
    apply h.withMm
    intro tf mm hp hmm
    split
    · exact .ok h
    · refine (doFork_layout st.mem.phys stale hmm).bind fun r hr => .pure ?_
      exact (h.putMm _ p tf hr.2).putMm _ c r.2.1 hr.1
  | access p vaddr size targetperm fill =>
    apply h.withMm
    intro tf mm hp hmm
    refine (verifyArea_mapped hmm.inOrder st.mem mm.pagetable vaddr size targetperm fill
      hmm.mapped).bind fun r hr => .pure ?_
    exact h.putMm r.1 p tf ⟨hmm.inOrder, hr⟩
  | store p vaddr byte =>
    apply h.withMm
    intro tf mm hp hmm
    exact .ok h
  | copyout p dst src =>
    apply h.withMm
    intro tf mm hp hmm
    exact .after fun r => .pure h
  | brk p vaddr =>
    apply h.withMm
    intro tf mm hp hmm
    refine (sysBrk_layout hmm (hop tf mm hp)).bind fun r hr => .pure ?_
    exact h.putMm st.mem p tf hr.1
  | execve p args =>
    apply h.withMm
    intro tf mm hp hmm
    refine (doExecve_layout st.mem tf args hmm hop).bind fun r hr => .pure ?_
    exact h.putMm r.1 p tf hr
  | exit p =>
    apply h.withMm
    intro tf mm hp hmm
    refine .ite (fun _ => .error trivial) fun _ => ?_
    refine .after fun s => .pure ?_
    apply h.put
    intro tf' mm' heq
    exact nomatch (Proc.mk.inj (Option.some.inj heq)).2
  | reap c =>
    simp only [Vm.call]
    split
    · refine .after fun s => .pure ?_
      apply h.put
      intro tf' mm' heq
      cases heq
    · exact .error trivial
  | kernelAlloc => exact .after fun r => .pure h
  | kernelFree page =>
    simp only [Vm.call]
    exact .ite (fun _ => .after fun s => .pure h) fun _ => .error trivial

theorem tidy_boot (memEnd : Nat) (data : Nat → Page) : Tidy (boot memEnd data) :=
  fun _ _ _ hp => nomatch hp

/-- The layout of an address space, as it is meant. -/
structure LayoutOk (mm : Mm) : Prop where
  sorted : mm.areas.Pairwise fun a b => a.vmStart ≤ b.vmStart
  disjoint : mm.areas.Pairwise fun a b => ∀ addr,
    ¬ (a.vmStart ≤ addr ∧ addr < a.vmEnd ∧ b.vmStart ≤ addr ∧ addr < b.vmEnd)
  aligned : ∀ vma ∈ mm.areas, vma.vmStart % PGSIZE = 0 ∧ vma.vmEnd % PGSIZE = 0
  below : ∀ vma ∈ mm.areas, vma.vmStart ≤ vma.vmEnd ∧ vma.vmEnd ≤ TRAPFRAME
  mapped : ∀ v, (mm.pagetable.pte v).valid = true → (mm.pagetable.pte v).user = true →
    ∃ vma ∈ mm.areas, vma.Has v ∧ grants (vma.vmFlags ||| PTE_V) (mm.pagetable.pte v).perm = true ∧
      ∀ vma' ∈ mm.areas, vma'.Has v → vma' = vma

theorem Layout.ok (h : Layout mm) : LayoutOk mm := by
  refine ⟨h.inOrder.sorted, ?_, h.inOrder.aligned, h.inOrder.whole, ?_⟩
  · apply h.inOrder.apart.imp
    rintro a b hab addr ⟨-, hend, hstart, -⟩
    omega
  · intro v hvalid huser
    rcases h.mapped v hvalid with ⟨hnot, -⟩ | ⟨vma, hmem, hhas, hgrants⟩
    · rw [huser] at hnot
      cases hnot
    · refine ⟨vma, hmem, hhas, hgrants, ?_⟩
      intro vma' hmem' hhas'
      exact h.inOrder.unique hmem' hmem hhas' hhas

/-- In every run from boot whose steps are all admitted, every address space is laid out well, and
    a `brk` that is admitted changes the heap alone. -/
theorem layout_ok {memEnd : Nat} {data : Nat → Page}
    (hr : Reaches Step Admitted (boot memEnd data) st) :
    (∀ p tf mm, st.pcbtable p = some ⟨tf, some mm⟩ → LayoutOk mm) ∧
      ∀ p vaddr st', Admitted st (.brk p vaddr) → Step st (.brk p vaddr) st' →
        ∀ tf mm, st.pcbtable p = some ⟨tf, some mm⟩ →
          ∃ mm', st'.pcbtable p = some ⟨tf, some mm'⟩ ∧ HeapOnly mm mm' := by
  have htidy : Tidy st :=
    hr.invariant (tidy_boot memEnd data) fun a op b ha hop hs => (ha.call op hop).of_ok hs
  refine ⟨fun p tf mm hp => (htidy p tf mm hp).ok, ?_⟩
  intro p vaddr st' hop hstep tf mm hp
  have hbrk := sysBrk_layout (htidy p tf mm hp) (hop tf mm hp)
  simp only [Step, call, withMm, hp] at hstep
  cases hcall : sysBrk mm vaddr with
  | error e =>
    rw [hcall] at hstep
    cases hstep
  | ok mm' =>
    rw [hcall] at hstep
    cases hstep
    refine ⟨mm', ?_, (hbrk.of_ok hcall).2⟩
    exact update_self ..

/-! ## A run of three calls -/

/-- The state after a call that comes back. -/
def nextCall (st : State) (op : Op) : Option State := (call st op).toOption

theorem nextCall_step (st : State) (op : Op) (st' : State) (h : nextCall st op = some st') :
    Step st op st' := Hoare.ok_of_toOption h

def blankMm : Mm := ⟨PageTable.zeroed 0, [], 0, 0, 0, 0, 0, 0⟩

/-- A page of code and a page of data. -/
def twoSegments : Image :=
  { inode := 5, valid := true
    headers := [some ⟨PT_LOAD, 5#32, 0, 0x10000, 0x1000, 0x1000, PGSIZE⟩,
      some ⟨PT_LOAD, 6#32, 0x1000, 0x11000, 0x1000, 0x1000, PGSIZE⟩]
    stale := ⟨0, 0#32, 0, 0, 0, 0, 0⟩
    entry := 0x10000 }

theorem twoSegments_fits : Fits twoSegments := by
  refine ⟨?_, by decide⟩
  intro h hmem _
  simp only [twoSegments, List.mem_cons, Option.some.injEq, List.not_mem_nil, or_false] at hmem
  rcases hmem with rfl | rfl
  · show (0x11000 : Nat) ≤ TRAPFRAME
    decide
  · show (0x12000 : Nat) ≤ TRAPFRAME
    decide

def noStrings : ArgVec := ⟨[], by decide, nofun⟩

def firstExec : List Op :=
  [.userInit 1 (fun _ => 0) blankMm,
   .execve 1 ⟨twoSegments, [], noStrings, noStrings, blankMm, fun _ _ => 0⟩]

/-- A region of sixteen pages, whose contents are zero. -/
def smallBoot : State := boot 16 fun _ _ => 0

set_option maxRecDepth 100000 in
/-- The heap ends inside a page. -/
theorem layout_unaligned : ∃ st tf mm, Reaches Step anyInput smallBoot st ∧
    st.pcbtable 1 = some ⟨tf, some mm⟩ ∧ ¬ LayoutOk mm := by
  have hrun : Leads nextCall smallBoot (firstExec ++ [.brk 1 0x12001]) fun st =>
      ∃ pr ∈ st.pcbtable 1, ∃ mm ∈ pr.mm, ∃ vma ∈ mm.areas, vma.vmEnd % PGSIZE ≠ 0 := by
    decide +kernel
  rcases hrun.reaches_of_mem Step anyInput (fun _ _ _ => trivial) nextCall_step with
    ⟨st, hreach, ⟨tf, o⟩, hp, mm, hmm, vma, hmem, hend⟩
  rcases (hmm : o = some mm)
  exact ⟨st, tf, mm, hreach, hp, fun hok => hend (hok.aligned vma hmem).2⟩

/-- The areas in front of the `brk`. -/
def fourAreas : List Vma :=
  [⟨0x10000, 0x11000, PTE_U ||| PTE_X ||| PTE_R, 0x1000, 0, some 5⟩,
   ⟨0x11000, 0x12000, PTE_U ||| PTE_R ||| PTE_W, 0x1000, 0x1000, some 5⟩,
   ⟨0x12000, 0x12000, PTE_R ||| PTE_W ||| PTE_U, 0, 0, none⟩,
   ⟨USER_STACK_TOP - PGSIZE * MAXSTACK, USER_STACK_TOP, PTE_R ||| PTE_W ||| PTE_U, 0, 0, none⟩]

theorem fourAreas_brkOk (hareas : mm.areas = fourAreas) (hstart : mm.startBrk = 0x12000) :
    BrkOk mm 0x13000 := by
  refine ⟨?_, by decide, ?_, by decide, ?_⟩
  · unfold heapIdx
    rw [hareas, hstart]
    decide
  · intro i vma hi hvma
    rw [hareas] at hvma
    rcases i with _ | _ | _ | _ | i
    · omega
    · omega
    · omega
    · cases hvma
      decide
    · cases hvma
  · intro heap hheap v _ hlow hhigh
    rw [hareas] at hheap
    cases hheap
    exact absurd (Nat.lt_of_le_of_lt hlow hhigh) (Nat.lt_irrefl _)

set_option maxRecDepth 100000 in
/-- A program is loaded, and its heap may grow by a page. -/
theorem layout_ok_exec : ∃ st tf mm, Reaches Step Admitted smallBoot st ∧
    st.pcbtable 1 = some ⟨tf, some mm⟩ ∧ LayoutOk mm ∧ Admitted st (.brk 1 0x13000) ∧
      ∀ st', Step st (.brk 1 0x13000) st' → ∃ mm', st'.pcbtable 1 = some ⟨tf, some mm'⟩ ∧
        HeapOnly mm mm' := by
  have hrun : Leads nextCall smallBoot firstExec fun st => ∃ pr ∈ st.pcbtable 1, ∃ mm ∈ pr.mm,
      mm.areas = fourAreas ∧ mm.startBrk = 0x12000 := by
    decide +kernel
  have hadmitted : ∀ op ∈ firstExec, ∀ st, Admitted st op := by
    intro op hop st
    simp only [firstExec, List.mem_cons, List.not_mem_nil, or_false] at hop
    rcases hop with rfl | rfl
    · trivial
    · exact twoSegments_fits
  rcases hrun.reaches_of_mem Step Admitted hadmitted nextCall_step with
    ⟨st, hreach, ⟨tf, o⟩, hp, mm, hmm, hareas, hbrk⟩
  rcases (hmm : o = some mm)
  have hadmit : Admitted st (.brk 1 0x13000) := by
    intro tf' mm' hp'
    have heq : mm = mm' := Option.some.inj (Proc.mk.inj (Option.some.inj (hp.symm.trans hp'))).2
    subst heq
    exact .inr (fourAreas_brkOk hareas hbrk)
  rcases layout_ok hreach with ⟨hlayout, hlocal⟩
  exact ⟨st, tf, mm, hreach, hp, hlayout 1 tf mm hp, hadmit,
    fun st' hstep => hlocal 1 _ st' hadmit hstep tf mm hp⟩

end Uniks.Vm
