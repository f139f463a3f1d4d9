/-
  What `verify_area` decides, and what it leaves behind.

  The flags of an entry only grow while `verify_area` serves it (`Served`), and serving one page
  leaves the entries of all other pages alone; the loop is then one induction.  The answer itself
  is that of `search_vmareas`: the first area that begins at or before the address and ends at or
  after the END, which is computed in 64 bits and may wrap.
-/
import Uniks.Vm
import Uniks.Lib.Hoare

namespace Uniks.Vm

open Uniks.Phys Uniks.Hoare

/-! ## Flags -/

theorem grants_iff {flags perm : Perm} :
    grants flags perm = true ↔ ∀ i, perm.getLsbD i = true → flags.getLsbD i = true := by
  rw [grants, beq_iff_eq]
  constructor
  · intro h i hi
    rw [← h, BitVec.getLsbD_and, Bool.and_eq_true] at hi
    exact hi.1
  · intro h
    refine BitVec.eq_of_getLsbD_eq fun i _ => ?_
    rw [BitVec.getLsbD_and]
    cases hp : perm.getLsbD i with
    | false => exact Bool.and_false _
    | true => rw [h i hp, Bool.true_and]

theorem grants_refl (a : Perm) : grants a a = true := grants_iff.mpr fun _ hi => hi

theorem grants_trans {a b c : Perm} (hab : grants a b = true) (hbc : grants b c = true) :
    grants a c = true := by
  rw [grants_iff] at hab hbc ⊢
  exact fun i hi => hab i (hbc i hi)

theorem grants_or_right (a b : Perm) : grants (a ||| b) b = true := by
  rw [grants_iff]
  intro i hi
  rw [BitVec.getLsbD_or, hi, Bool.or_true]

theorem grants_or_left (a b : Perm) : grants (a ||| b) a = true := by
  rw [BitVec.or_comm]
  exact grants_or_right b a

theorem grants_V (a : Perm) : grants a PTE_V = a.getLsbD 0 := by
  revert a
  decide

theorem grants_U (a : Perm) : grants a PTE_U = a.getLsbD 4 := by
  revert a
  decide

theorem grants_W (a : Perm) : grants a PTE_W = a.getLsbD 2 := by
  revert a
  decide

theorem grants_U_or (a b : Perm) :
    grants (a ||| b) PTE_U = (grants a PTE_U || grants b PTE_U) := by
  rw [grants_U, grants_U, grants_U, BitVec.getLsbD_or]

/-! ## Addresses -/

theorem pgRoundDown_le (a : Nat) : pgRoundDown a ≤ a := Nat.sub_le _ _

theorem pgRoundDown_mod (a : Nat) : pgRoundDown a % PGSIZE = 0 := by
  simp only [pgRoundDown, PGSIZE]
  omega

theorem pgRoundDown_of_aligned {a : Nat} (h : a % PGSIZE = 0) : pgRoundDown a = a := by
  rw [pgRoundDown, h, Nat.sub_zero]

theorem lt_pgRoundDown_add (a : Nat) : a < pgRoundDown a + PGSIZE := by
  have hlt : a % PGSIZE < PGSIZE := Nat.mod_lt _ (by decide)
  unfold pgRoundDown
  omega

/-- One call of `mappages` for one page goes round once. -/
theorem pgRoundUp_page {a : Nat} (h : a % PGSIZE = 0) :
    (pgRoundUp (a + PGSIZE - 1) - a) / PGSIZE = 1 := by
  simp only [pgRoundUp, pgRoundDown, PGSIZE] at h ⊢
  omega

theorem vpn_eq_iff {a b : Nat} (ha : a < MAXVA) (hb : b < MAXVA) :
    vpn a = vpn b ↔ pgRoundDown a = pgRoundDown b := by
  have hidx : ∀ level, px level a = px level b ↔
      a / 2 ^ (12 + 9 * level) % 512 = b / 2 ^ (12 + 9 * level) % 512 :=
    fun level => Fin.mk.injEq .. ▸ Iff.rfl
  have h2 : (2 : Nat) ^ (12 + 9 * 2) = 1073741824 := by decide
  have h1 : (2 : Nat) ^ (12 + 9 * 1) = 2097152 := by decide
  have h0 : (2 : Nat) ^ (12 + 9 * 0) = 4096 := by decide
  have hmax : MAXVA = 274877906944 := by decide
  rw [hmax] at ha hb
  rw [vpn, vpn, Prod.mk.injEq, Prod.mk.injEq, hidx, hidx, hidx, h2, h1, h0]
  simp only [pgRoundDown, PGSIZE]
  constructor
  · rintro ⟨ha2, ha1, ha0⟩
    omega
  · intro heq
    omega

/-- The entry of an address is that of its page. -/
theorem vpn_pgRoundDown {a : Nat} (ha : a < MAXVA) : vpn (pgRoundDown a) = vpn a := by
  have hle := pgRoundDown_le a
  rw [vpn_eq_iff (by omega) ha, pgRoundDown_of_aligned (pgRoundDown_mod a)]

/-! ## Serving one page -/

/-- A valid entry for the user with all the flags asked for. -/
def Usable (targetperm : Perm) (pte : Pte) : Prop :=
  pte.valid = true ∧ pte.user = true ∧ grants pte.perm targetperm = true

/-- The entries that `verify_area` makes usable: those of valid user pages, and, if the user flag
    is asked for, all others but one that carries the flags without being valid. -/
def Servable (targetperm : Perm) (pte : Pte) : Prop :=
  (pte.valid = true ∧ pte.user = true) ∨
    (grants targetperm PTE_U = true ∧ (grants pte.perm targetperm = true → pte.valid = true))

theorem usable_of_granted {targetperm : Perm} {pte : Pte}
    (hgrants : grants pte.perm targetperm = true) :
    Usable targetperm pte ↔ Servable targetperm pte := by
  constructor
  · rintro ⟨hvalid, huser, -⟩
    exact .inl ⟨hvalid, huser⟩
  · rintro (⟨hvalid, huser⟩ | ⟨hasked, hvalid⟩)
    · exact ⟨hvalid, huser, hgrants⟩
    · exact ⟨hvalid hgrants, grants_trans hgrants hasked, hgrants⟩

/-- The flags asked for are added to an entry that is valid. -/
theorem usable_of_added {targetperm : Perm} {old new : Pte} (hold : old.valid = true)
    (hnew : new.perm = old.perm ||| targetperm) :
    Usable targetperm new ↔ Servable targetperm old := by
  have hvalid : new.valid = true := by
    rw [Pte.valid, hnew]
    exact grants_trans (grants_or_left _ _) hold
  have hgrants : grants new.perm targetperm = true := by
    rw [hnew]
    exact grants_or_right _ _
  have huser : new.user = true ↔ old.user = true ∨ grants targetperm PTE_U = true := by
    rw [Pte.user, Pte.user, hnew, grants_U_or, Bool.or_eq_true]
  constructor
  · rintro ⟨-, hnewUser, -⟩
    rcases huser.mp hnewUser with holdUser | hasked
    · exact .inl ⟨hold, holdUser⟩
    · exact .inr ⟨hasked, fun _ => hold⟩
  · rintro (⟨-, holdUser⟩ | ⟨hasked, -⟩)
    · exact ⟨hvalid, huser.mpr (.inl holdUser), hgrants⟩
    · exact ⟨hvalid, huser.mpr (.inr hasked), hgrants⟩

/-- A page is mapped with the flags asked for. -/
theorem usable_of_mapped {targetperm : Perm} {old new : Pte} (extra : Perm)
    (hold : old.valid = false) (hno : ¬ grants old.perm targetperm = true)
    (hextra : grants extra PTE_U = false)
    (hnew : new.perm = (targetperm ||| extra) ||| PTE_V) :
    Usable targetperm new ↔ Servable targetperm old := by
  have hvalid : new.valid = true := by
    rw [Pte.valid, hnew]
    exact grants_or_right _ _
  have hgrants : grants new.perm targetperm = true := by
    rw [hnew]
    exact grants_trans (grants_or_left _ _) (grants_or_left _ _)
  have huser : new.user = grants targetperm PTE_U := by
    rw [Pte.user, hnew, grants_U_or, grants_U_or, hextra,
      show grants PTE_V PTE_U = false by decide, Bool.or_false, Bool.or_false]
  constructor
  · rintro ⟨-, hnewUser, -⟩
    exact .inr ⟨huser ▸ hnewUser, fun hgranted => absurd hgranted hno⟩
  · rintro (⟨holdValid, -⟩ | ⟨hasked, -⟩)
    · rw [hold] at holdValid
      cases holdValid
    · exact ⟨hvalid, huser.trans hasked, hgrants⟩

theorem enterMid_pte (s : Buddy) (pt : PageTable) (i : Idx) :
    Meets (fun _ => True) (enterMid s pt i) fun r => r.2.pte = pt.pte := by
  unfold enterMid
  split
  · exact .ok rfl
  · refine .after fun r => .pure ?_
    rw [PageTable.addMid_pte]

theorem enterLow_pte (s : Buddy) (pt : PageTable) (i j : Idx) :
    Meets (fun _ => True) (enterLow s pt i j) fun r => r.2.pte = pt.pte := by
  unfold enterLow
  split
  · exact .ok rfl
  · refine .after fun r => .pure ?_
    rw [PageTable.addLow_pte]

/-- Looking for an entry changes none. -/
theorem walk_pte (s : Buddy) (pt : PageTable) (va : Nat) :
    Meets (fun _ => True) (walk s pt va) fun r => r.2.pte = pt.pte := by
  unfold walk
  refine .ite (fun _ => ?_) fun _ => .error trivial
  refine .bind (enterMid_pte s pt _) fun r hr => ?_
  exact (enterLow_pte r.1 r.2 _ _).mono fun r' hr' => hr'.trans hr

/-- One page is mapped: only its entry changes. -/
theorem mappages_page (s : Buddy) (pt : PageTable) {va : Nat} (pa : Frame) (perm : Perm)
    (hva : va % PGSIZE = 0) :
    Meets (fun _ => True) (mappages s pt va PGSIZE pa perm) fun r =>
      (pt.pte (vpn va)).valid = false ∧ r.2.pte = Function.update pt.pte (vpn va)
        { perm := (if va ≥ TRAMPOLINE then perm ||| PTE_G else perm) ||| PTE_V,
          unrelease := decide (va ≥ TRAPFRAME), paddr := pa } := by
  unfold mappages
  refine .ite (fun hsize => absurd hsize (by decide)) fun _ => ?_
  simp only [pgRoundDown_of_aligned hva, pgRoundUp_page hva]
  rw [mappagesLoop]
  refine .bind (walk_pte s pt va) fun r hr => ?_
  refine .ite (fun _ => .error trivial) fun hvalid => ?_
  rw [mappagesLoop]
  rw [Bool.not_eq_true, hr] at hvalid
  refine .ok ⟨hvalid, ?_⟩
  rw [PageTable.setPte_pte, hr]

/-- One round: the entry of the page is served, and the other entries stay. -/
theorem verifyPage_served (m : Mem) (pt : PageTable) {va : Nat} (targetperm : Perm)
    (fill : Nat → Page) (hva : va % PGSIZE = 0) :
    Meets (fun _ => True) (verifyPage m pt va targetperm fill) fun r =>
      (Usable targetperm (r.2.pte (vpn va)) ↔ Servable targetperm (pt.pte (vpn va))) ∧
        ∀ v, v ≠ vpn va → r.2.pte v = pt.pte v := by
  unfold verifyPage
  refine .bind (walk_pte m.phys pt va) fun r hr => ?_
  simp only [hr]
  refine .ite (fun hgrants => ?_) fun hno => .ite (fun hvalid => ?_) fun hvalid => ?_
  · refine .pure ⟨?_, fun v _ => congrFun hr v⟩
    rw [hr]
    exact usable_of_granted hgrants
  · unfold doWpPage
    rw [hr]
    refine .after fun u => ?_
    refine .ite (fun _ => ?_) fun _ => ?_
    · refine .after fun _ => .pure ⟨?_, ?_⟩
      · rw [PageTable.setPte_pte, Function.update_self]
        exact usable_of_added hvalid rfl
      · intro v hv
        rw [PageTable.setPte_pte, Function.update_of_ne hv, hr]
    · refine .after fun w => ?_
      refine .after fun old => ?_
      refine .after fun _ => .pure ⟨?_, ?_⟩
      · rw [PageTable.setPte_pte, Function.update_self]
        exact usable_of_added hvalid (BitVec.or_comm _ _)
      · intro v hv
        rw [PageTable.setPte_pte, Function.update_of_ne hv, hr]
  · unfold doNoPage
    refine .after fun u => ?_
    refine .bind (mappages_page u.1 r.2 _ targetperm hva) fun w hw => .pure ⟨?_, ?_⟩
    · rw [hw.2, Function.update_self]
      rw [Bool.not_eq_true] at hvalid
      by_cases htop : va ≥ TRAMPOLINE
      · exact usable_of_mapped PTE_G hvalid hno (by decide) (by rw [if_pos htop])
      · exact usable_of_mapped 0#8 hvalid hno (by decide) (by rw [if_neg htop, BitVec.or_zero])
    · intro v hv
      rw [hw.2, Function.update_of_ne hv, hr]

/-! ## The whole call -/

/-- The loop serves every page of its range once, and leaves the entries of all others alone. -/
theorem verifyLoop_served {endVaddr : Nat} (targetperm : Perm) (fill : Nat → Page)
    (hend : endVaddr ≤ MAXVA) (va : Nat) (m : Mem) (pt : PageTable) (hva : va % PGSIZE = 0) :
    Meets (fun _ => True) (verifyLoop endVaddr targetperm fill va m pt) fun r =>
      ∀ a < MAXVA,
        (va ≤ a → pgRoundDown a < endVaddr →
          (Usable targetperm (r.2.pte (vpn a)) ↔ Servable targetperm (pt.pte (vpn a)))) ∧
        (a < va → r.2.pte (vpn a) = pt.pte (vpn a)) := by
  fun_induction verifyLoop endVaddr targetperm fill va m pt with
  | case1 va m pt hlt ih =>
    refine .bind (verifyPage_served m pt targetperm fill hva) fun r hr => ?_
    have hnext : (va + PGSIZE) % PGSIZE = 0 := by
      rw [Nat.add_mod_right]
      exact hva
    refine (ih r.1 r.2 hnext).mono fun r' hr' a ha => ?_
    have hround : pgRoundDown va = va := pgRoundDown_of_aligned hva
    have hvpn : vpn a = vpn va ↔ pgRoundDown a = va := by
      rw [vpn_eq_iff ha (by omega), hround]
    constructor
    · intro hle hpage
      by_cases hsame : pgRoundDown a = va
      · -- the page of this round: the later rounds begin above it
        have hlo : a < va + PGSIZE := hsame ▸ lt_pgRoundDown_add a
        rw [(hr' a ha).2 hlo, hvpn.mpr hsame]
        exact hr.1
      · have hhi : va + PGSIZE ≤ a := by
          have hmod := pgRoundDown_mod a
          have hlt' := lt_pgRoundDown_add a
          simp only [pgRoundDown, PGSIZE] at *
          omega
        rw [(hr' a ha).1 hhi hpage, hr.2 _ fun heq => hsame (hvpn.mp heq)]
    · intro hlo
      have hne : vpn a ≠ vpn va := by
        intro heq
        have hle := pgRoundDown_le a
        have := hvpn.mp heq
        omega
      rw [(hr' a ha).2 (by omega), hr.2 _ hne]
  | case2 va m pt hge =>
    refine .ok fun a ha => ⟨fun hle hpage => ?_, fun _ => rfl⟩
    have hround := pgRoundDown_le a
    have hmod := pgRoundDown_mod a
    have hlt' := lt_pgRoundDown_add a
    simp only [pgRoundDown, PGSIZE] at *
    omega

/-- A list of areas as `add_vm_area` builds it: sorted, disjoint and below `MAXVA`. -/
structure AreasWf (areas : List Vma) : Prop where
  disjoint : areas.Pairwise fun a b => a.vmEnd ≤ b.vmStart
  below : ∀ vma ∈ areas, vma.vmEnd ≤ MAXVA

/-- Every byte of the mathematical range lies in an area with the flags asked for. -/
def Covered (areas : List Vma) (vaddr size : Nat) (targetperm : Perm) : Prop :=
  ∀ b, vaddr ≤ b → b < vaddr + size →
    ∃ vma ∈ areas, vma.vmStart ≤ b ∧ b < vma.vmEnd ∧ grants vma.vmFlags targetperm = true

/-- Two areas of the list with a common byte are the same. -/
theorem AreasWf.unique {areas : List Vma} (hwf : AreasWf areas) {vma vma' : Vma} {b : Nat}
    (hmem : vma ∈ areas) (hmem' : vma' ∈ areas) (hb : vma.vmStart ≤ b ∧ b < vma.vmEnd)
    (hb' : vma'.vmStart ≤ b ∧ b < vma'.vmEnd) : vma = vma' := by
  have hpair := hwf.disjoint
  clear hwf
  induction areas with
  | nil => cases hmem
  | cons first rest ih =>
    rw [List.pairwise_cons] at hpair
    rw [List.mem_cons] at hmem hmem'
    rcases hmem with rfl | hmem
    · rcases hmem' with rfl | hmem'
      · rfl
      · have := hpair.1 _ hmem'
        omega
    · rcases hmem' with rfl | hmem'
      · have := hpair.1 _ hmem
        omega
      · exact ih hmem hmem' hpair.2

/-- A range that does not wrap is found in an area exactly if the area contains it. -/
theorem searchVmareas_eq_some {areas : List Vma} (hwf : AreasWf areas) {vaddr size : Nat}
    (hsize : 0 < size) (hwrap : vaddr + size < ADDRS) {vma : Vma} :
    searchVmareas areas vaddr size = some vma ↔
      vma ∈ areas ∧ vma.vmStart ≤ vaddr ∧ vaddr + size ≤ vma.vmEnd := by
  have hfits : ∀ a : Vma, (decide (vaddr ≥ a.vmStart) &&
      decide ((vaddr + size) % ADDRS ≤ a.vmEnd)) = true ↔
        a.vmStart ≤ vaddr ∧ vaddr + size ≤ a.vmEnd := by
    intro a
    rw [Bool.and_eq_true, decide_eq_true_iff, decide_eq_true_iff, Nat.mod_eq_of_lt hwrap]
  have hsome : ∀ {a : Vma}, searchVmareas areas vaddr size = some a →
      a ∈ areas ∧ a.vmStart ≤ vaddr ∧ vaddr + size ≤ a.vmEnd := by
    intro a ha
    have hp := List.find?_some ha
    exact ⟨List.mem_of_find?_eq_some ha, (hfits a).mp hp⟩
  constructor
  · exact hsome
  · rintro ⟨hmem, hstart, hend⟩
    obtain ⟨found, hfound⟩ : ∃ found, searchVmareas areas vaddr size = some found := by
      rw [← Option.isSome_iff_exists, searchVmareas, List.find?_isSome]
      exact ⟨vma, hmem, (hfits vma).mpr ⟨hstart, hend⟩⟩
    obtain ⟨hmem', hstart', hend'⟩ := hsome hfound
    rw [hfound, hwf.unique (b := vaddr) hmem' hmem (by omega) (by omega)]

/-- A range that reaches the end of the address space is not covered. -/
theorem not_covered_of_wrap {areas : List Vma} (hwf : AreasWf areas) {vaddr size : Nat}
    (targetperm : Perm) (hva : vaddr < ADDRS) (hwrap : ADDRS ≤ vaddr + size) :
    ¬ Covered areas vaddr size targetperm := by
  intro hcov
  have hmax : MAXVA < ADDRS := by decide
  obtain ⟨vma, hmem, -, hend, -⟩ := hcov (ADDRS - 1) (by omega) (by omega)
  have := hwf.below vma hmem
  omega

/-- `verify_area` answers -1 exactly if the area found does not grant the flags, or none is. -/
theorem verifyArea_refuses (m : Mem) (areas : List Vma) (pt : PageTable) (vaddr size : Nat)
    (targetperm : Perm) (fill : Nat → Page) :
    (∃ m' pt', verifyArea m areas pt vaddr size targetperm fill = .ok (m', pt', -1)) ↔
      ∀ vma, searchVmareas areas vaddr size = some vma →
        grants vma.vmFlags targetperm = false := by
  unfold verifyArea
  cases hsearch : searchVmareas areas vaddr size with
  | none => exact ⟨fun _ _ h => (nomatch h), fun _ => ⟨m, pt, rfl⟩⟩
  | some vma =>
    simp only [Option.some.injEq, forall_eq']
    by_cases hgrants : grants vma.vmFlags targetperm = true
    · rw [if_pos hgrants, hgrants]
      refine ⟨?_, fun h => nomatch h⟩
      rintro ⟨m', pt', h⟩
      cases hloop : verifyLoop ((vaddr + size) % ADDRS) targetperm fill (pgRoundDown vaddr) m pt with
      | error e =>
        rw [hloop] at h
        cases h
      | ok r =>
        rw [hloop] at h
        have hret : (0 : Int) = -1 := congrArg (fun r => r.2.2) (Except.ok.inj h)
        exact absurd hret (by decide)
    · rw [if_neg hgrants]
      exact ⟨fun _ => Bool.not_eq_true _ ▸ hgrants, fun _ => ⟨m, pt, rfl⟩⟩

/-- What a call that answers 0 has found and done. -/
theorem verifyArea_served {m : Mem} {areas : List Vma} {pt : PageTable} {vaddr size : Nat}
    {targetperm : Perm} {fill : Nat → Page} {m' : Mem} {pt' : PageTable}
    (hwf : AreasWf areas)
    (h : verifyArea m areas pt vaddr size targetperm fill = .ok (m', pt', 0)) :
    ∃ vma ∈ areas, (vaddr + size) % ADDRS ≤ vma.vmEnd ∧ ∀ a < MAXVA,
      pgRoundDown vaddr ≤ a → pgRoundDown a < (vaddr + size) % ADDRS →
        (Usable targetperm (pt'.pte (vpn a)) ↔ Servable targetperm (pt.pte (vpn a))) := by
  unfold verifyArea at h
  cases hsearch : searchVmareas areas vaddr size with
  | none =>
    rw [hsearch] at h
    have hret : (-1 : Int) = 0 := congrArg (fun r => r.2.2) (Except.ok.inj h)
    exact absurd hret (by decide)
  | some vma =>
    simp only [hsearch] at h
    have hmem := List.mem_of_find?_eq_some hsearch
    have hfits := List.find?_some hsearch
    rw [Bool.and_eq_true, decide_eq_true_iff, decide_eq_true_iff] at hfits
    refine ⟨vma, hmem, hfits.2, ?_⟩
    by_cases hgrants : grants vma.vmFlags targetperm = true
    · rw [if_pos hgrants] at h
      have hend := hfits.2.trans (hwf.below vma hmem)
      cases hloop : verifyLoop ((vaddr + size) % ADDRS) targetperm fill (pgRoundDown vaddr) m pt with
      | error e =>
        rw [hloop] at h
        cases h
      | ok r =>
        rw [hloop] at h
        have hpt : r.2 = pt' := congrArg (fun r => r.2.1) (Except.ok.inj h)
        have hserved := (verifyLoop_served targetperm fill hend _ m pt
          (pgRoundDown_mod vaddr)).of_ok hloop
        intro a ha
        exact hpt ▸ (hserved a ha).1
    · rw [if_neg hgrants] at h
      have hret : (-1 : Int) = 0 := congrArg (fun r => r.2.2) (Except.ok.inj h)
      exact absurd hret (by decide)

/-- When `verify_area` is exact.  Its answer -1 means that the range is not covered as long as no
    range is covered by several areas together, and no range that wraps is taken for the one in
    front of its END; after an answer 0 the pages of the range are usable as long as they were
    servable. -/
theorem verifyArea_exact (m : Mem) {areas : List Vma} (pt : PageTable) (vaddr size : Nat)
    (targetperm : Perm) (fill : Nat → Page) (hwf : AreasWf areas) (hva : vaddr < ADDRS)
    (hsize : 0 < size) :
    (((∃ m' pt', verifyArea m areas pt vaddr size targetperm fill = .ok (m', pt', -1)) ↔
        ¬ Covered areas vaddr size targetperm) ↔
      (Covered areas vaddr size targetperm →
        ∃ vma ∈ areas, vma.vmStart ≤ vaddr ∧ vaddr + size ≤ vma.vmEnd) ∧
      (ADDRS ≤ vaddr + size → ∀ vma, searchVmareas areas vaddr size = some vma →
        grants vma.vmFlags targetperm = false)) ∧
    (∀ m' pt', verifyArea m areas pt vaddr size targetperm fill = .ok (m', pt', 0) →
      ((∀ b, vaddr ≤ b → b < vaddr + size →
          b < MAXVA ∧ Usable targetperm (pt'.pte (vpn b))) ↔
        vaddr + size < ADDRS ∧ ∀ b, vaddr ≤ b → b < vaddr + size →
          Servable targetperm (pt.pte (vpn b)))) := by
  rw [verifyArea_refuses]
  refine ⟨?_, fun m' pt' h => ?_⟩
  · by_cases hwrap : vaddr + size < ADDRS
    · simp only [searchVmareas_eq_some hwf hsize hwrap]
      constructor
      · intro hexact
        refine ⟨fun hcov => ?_, fun hno => absurd hwrap (by omega)⟩
        by_contra hnone
        refine hexact.mp (fun vma hvma => ?_) hcov
        exact absurd ⟨vma, hvma⟩ hnone
      · rintro ⟨hone, -⟩
        constructor
        · intro hrefuses hcov
          obtain ⟨vma, hmem, hin⟩ := hone hcov
          -- the area of the first byte is the one that contains the range
          obtain ⟨vma', hmem', hstart', hend', hgrants'⟩ := hcov vaddr (by omega) (by omega)
          rw [hwf.unique (b := vaddr) hmem' hmem (by omega) (by omega),
            hrefuses vma ⟨hmem, hin⟩] at hgrants'
          cases hgrants'
        · rintro hnot vma ⟨hmem, hstart, hend⟩
          by_contra hgrants
          rw [Bool.not_eq_false] at hgrants
          exact hnot fun b hlo hhi => ⟨vma, hmem, by omega, by omega, hgrants⟩
    · have hle : ADDRS ≤ vaddr + size := by omega
      have hnot := not_covered_of_wrap hwf targetperm hva hle
      constructor
      · intro hexact
        exact ⟨fun hcov => absurd hcov hnot, fun _ => hexact.mpr hnot⟩
      · rintro ⟨-, hrefuses⟩
        exact ⟨fun _ => hnot, fun _ => hrefuses hle⟩
  · obtain ⟨vma, hmem, hend, hserved⟩ := verifyArea_served hwf h
    have hbelow := hend.trans (hwf.below vma hmem)
    constructor
    · intro husable
      have hwrap : vaddr + size < ADDRS := by
        by_contra hge
        have hmax : MAXVA < ADDRS := by decide
        have := (husable (ADDRS - 1) (by omega) (by omega)).1
        omega
      rw [Nat.mod_eq_of_lt hwrap] at hserved hbelow
      refine ⟨hwrap, fun b hlo hhi => ?_⟩
      obtain ⟨hb, huse⟩ := husable b hlo hhi
      have h1 := pgRoundDown_le vaddr
      have h2 := pgRoundDown_le b
      exact (hserved b hb (by omega) (by omega)).mp huse
    · rintro ⟨hwrap, hservable⟩ b hlo hhi
      rw [Nat.mod_eq_of_lt hwrap] at hserved hbelow
      have hb : b < MAXVA := by omega
      have h1 := pgRoundDown_le vaddr
      have h2 := pgRoundDown_le b
      exact ⟨hb, (hserved b hb (by omega) (by omega)).mpr (hservable b hlo hhi)⟩

/-- The flags of a read into user memory. -/
def readFlags : Perm := PTE_R ||| PTE_W ||| PTE_U

/-- Two areas side by side, as those of `.data` and of the heap are. -/
def sideBySide : List Vma :=
  [⟨0x1000, 0x2000, readFlags, 0, 0, none⟩, ⟨0x2000, 0x3000, readFlags, 0, 0, none⟩]

/-- One page of memory, handed out as the top table. -/
def onePage : Mem := ⟨buddySystemInit 1, fun _ _ => 0⟩

theorem sideBySide_wf : AreasWf sideBySide := by
  refine ⟨?_, ?_⟩
  · exact List.pairwise_pair.mpr (by decide)
  · intro vma hvma
    simp only [sideBySide, List.mem_cons, List.not_mem_nil, or_false] at hvma
    rcases hvma with rfl | rfl
    · decide
    · decide

/-- The first page of sixteen is the top table, and the others are free. -/
def tabled : Mem :=
  let phys := Phys.buddySystemInit 16
  ⟨((Phys.pagesAlloc phys 1).map Prod.fst).getD phys, fun _ _ => 0⟩

set_option maxRecDepth 100000 in
/-- A range inside one area gets a page that can be read, and a range that ends behind the areas is
    refused. -/
theorem verifyArea_exact_sideBySide :
    (∃ m' pt', verifyArea tabled sideBySide (PageTable.zeroed 0) 0x1100 16 readFlags
        (fun _ _ => 0) = .ok (m', pt', 0) ∧
      ∀ b, 0x1100 ≤ b → b < 0x1100 + 16 → b < MAXVA ∧ Usable readFlags (pt'.pte (vpn b))) ∧
    ∃ m' pt', verifyArea tabled sideBySide (PageTable.zeroed 0) 0x2FF8 16 readFlags
      (fun _ _ => 0) = .ok (m', pt', -1) := by
  have hexact := fun vaddr hva => verifyArea_exact tabled (PageTable.zeroed 0) vaddr 16 readFlags
    (fun _ _ => 0) sideBySide_wf hva (by decide)
  constructor
  · have hrun : ∃ r, verifyArea tabled sideBySide (PageTable.zeroed 0) 0x1100 16 readFlags
        (fun _ _ => 0) = .ok r ∧ r.2.2 = 0 := by decide +kernel
    obtain ⟨⟨m', pt', r⟩, hcall, rfl⟩ := hrun
    refine ⟨m', pt', hcall, ((hexact 0x1100 (by decide)).2 m' pt' hcall).mpr ⟨by decide, ?_⟩⟩
    -- the table has no entry, so each page is served
    have hzero : ¬ grants Pte.zero.perm readFlags = true := by decide
    exact fun b _ _ => .inr ⟨by decide, fun hgranted => absurd hgranted hzero⟩
  · have hnot : ¬ Covered sideBySide 0x2FF8 16 readFlags := by
      intro hcov
      obtain ⟨vma, hmem, -, hend, -⟩ := hcov 0x3000 (by decide) (by decide)
      simp only [sideBySide, List.mem_cons, List.not_mem_nil, or_false] at hmem
      rcases hmem with rfl | rfl
      · exact absurd hend (by decide)
      · exact absurd hend (by decide)
    have hanswer := (hexact 0x2FF8 (by decide)).1.mpr
      ⟨fun hcov => absurd hcov hnot, fun hwrap => absurd hwrap (by decide)⟩
    exact hanswer.mpr hnot

/-- A range that straddles two areas is refused though they cover it, and a range that wraps round
    to the middle of the first area is admitted. -/
theorem verifyArea_straddled :
    AreasWf sideBySide ∧
      (Covered sideBySide 0x1FF8 16 readFlags ∧
        verifyArea onePage sideBySide (PageTable.zeroed 0) 0x1FF8 16 readFlags (fun _ _ => 0) =
          .ok (onePage, PageTable.zeroed 0, -1)) ∧
      ¬ Covered sideBySide 0x1800 (ADDRS - 0x800) readFlags ∧
        verifyArea onePage sideBySide (PageTable.zeroed 0) 0x1800 (ADDRS - 0x800) readFlags
          (fun _ _ => 0) = .ok (onePage, PageTable.zeroed 0, 0) := by
  refine ⟨sideBySide_wf, ⟨fun b hlo hhi => ?_, ?_⟩, ?_, ?_⟩
  · by_cases hb : b < 0x2000
    · exact ⟨_, List.mem_cons_self, by simp only; omega, hb, by decide⟩
    · refine ⟨_, List.mem_cons_of_mem _ List.mem_cons_self, ?_, ?_, by decide⟩
      · simp only
        omega
      · simp only
        omega
  · have hnone : searchVmareas sideBySide 0x1FF8 16 = none := by decide
    rw [verifyArea, hnone]
  · exact not_covered_of_wrap sideBySide_wf _ (by decide) (by decide)
  · have hsome : searchVmareas sideBySide 0x1800 (ADDRS - 0x800) =
        some ⟨0x1000, 0x2000, readFlags, 0, 0, none⟩ := by decide
    rw [verifyArea, hsome]
    simp only [show grants readFlags readFlags = true by decide, if_true]
    rw [verifyLoop, if_neg (by decide)]
    rfl

end Uniks.Vm
