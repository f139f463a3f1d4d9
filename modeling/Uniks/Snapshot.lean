/-
  Fork and copy-on-write.

  After `fork` the child sees what its parent sees, and whatever happens later, a byte that one of
  them stores is seen by it alone: a page that a process may write to is mapped by no other table
  (`Accounts.alone`).  The kernel stores into user memory without looking at that flag, so it has
  to ask `verify_area` first; a process may be written to where that has admitted it since it last
  changed its address space (`Kernel`).  The user's memory ends at `TRAPFRAME`.
-/
import Uniks.PageCount

namespace Uniks.Vm

open Uniks.Phys Uniks.Hoare Uniks.RefCount Uniks.Runs
open Function (update update_self update_of_ne)

/-! ## What a process sees -/

/-- A byte of user memory, where the table maps the address for the user. -/
def viewByte (data : Nat → Page) (pt : PageTable) (va : Nat) : Option UInt8 :=
  if va < MAXVA then
    let pte := pt.pte (vpn va)
    if pte.valid && pte.user then
      match pte.paddr with
      | .page no => some (data no ⟨va % PGSIZE, mod_lt_pgsize va⟩)
      | _ => none
    else none
  else none

def State.view (st : State) (p : Pid) (va : Nat) : Option UInt8 :=
  match st.pcbtable p with
  | some ⟨_, some mm⟩ => viewByte st.mem.data mm.pagetable va
  | _ => none

/-- The entry lets the user write to a page. -/
def Pte.Writable (pte : Pte) : Prop := pte.valid = true ∧ grants pte.perm PTE_W = true

/-- The view of an address depends on the entry and on one byte. -/
theorem viewByte_congr {data data' : Nat → Page} {pt pt' : PageTable} {va : Nat}
    (hvalid : va < MAXVA → (pt'.pte (vpn va)).valid = (pt.pte (vpn va)).valid)
    (huser : va < MAXVA → (pt.pte (vpn va)).valid = true →
      (pt'.pte (vpn va)).user = (pt.pte (vpn va)).user ∧
        (pt'.pte (vpn va)).paddr = (pt.pte (vpn va)).paddr)
    (hdata : ∀ no, va < MAXVA → (pt.pte (vpn va)).valid = true → (pt.pte (vpn va)).paddr = .page no →
      ∀ k : Fin PGSIZE, va % PGSIZE = k.val → data' no k = data no k) :
    viewByte data' pt' va = viewByte data pt va := by
  unfold viewByte
  by_cases hva : va < MAXVA
  · rw [if_pos hva, if_pos hva]
    dsimp only
    rw [hvalid hva]
    by_cases hv : (pt.pte (vpn va)).valid = true
    · obtain ⟨hu, hpaddr⟩ := huser hva hv
      rw [hu, hpaddr]
      split
      · split
        · rename_i no hno
          rw [hdata no hva hv hno _ rfl]
        · rfl
      · rfl
    · rw [Bool.not_eq_true] at hv
      rw [hv]
      rfl
  · rw [if_neg hva, if_neg hva]

/-! ## A page that may be written to is mapped once -/

variable {c : Prop} {extra : Nat → Prop} {tail : Nat → Nat → Prop} {st st' : State} {p q : Pid}
  {tf tf' : Nat} {mm mm' : Mm}

/-- The page of a process is not used. -/
theorem Accounts.tf_unused (h : Accounts extra tail st) (hp : st.pcbtable p = some ⟨tf, some mm⟩)
    (q : Pid) : procMaps (st.pcbtable q) tf = 0 := by
  obtain ⟨live, -, hl⟩ := h.books
  have hzero : st.mappings tf = 0 := (hl.kept tf (h.account hp).tf).2.1
  exact total_eq_zero.mp hzero q

/-- Two processes have different pages. -/
theorem Accounts.tf_inj (h : Accounts extra tail st) (hp : st.pcbtable p = some ⟨tf, some mm⟩)
    (hq : st.pcbtable q = some ⟨tf, some mm'⟩) : q = p := by
  obtain ⟨live, -, hl⟩ := h.books
  have hone : st.keeps tf = 1 := (hl.kept tf (h.account hp).tf).1
  by_contra hne
  have hself : ∀ {r : Pid} {m : Mm}, st.pcbtable r = some ⟨tf, some m⟩ →
      0 < procKeeps (st.pcbtable r) tf := by
    intro r m hr
    rw [hr, procKeeps_some, one_self]
    exact Nat.one_pos
  have htwo := two_le_total (w := fun r => procKeeps (st.pcbtable r) tf) hne (hself hq) (hself hp)
  unfold State.keeps at hone
  omega

/-- A page that a process may write to is not mapped by another process, nor a second time. -/
theorem Accounts.alone (h : Accounts extra tail st) (hp : st.pcbtable p = some ⟨tf, some mm⟩)
    (hq : st.pcbtable q = some ⟨tf', some mm'⟩) {v w : Vpn} (hv : (mm.pagetable.pte v).Writable)
    (hw : (mm'.pagetable.pte w).valid = true)
    (hsame : (mm'.pagetable.pte w).paddr = (mm.pagetable.pte v).paddr) : q = p ∧ w = v := by
  have hs := (h.space p tf mm hp).1
  have hs' := (h.space q tf' mm' hq).1
  have hmaps : ∀ {r : Pid} {t : Nat} {m : Mm} {u : Vpn} {no : Nat},
      st.pcbtable r = some ⟨t, some m⟩ → (m.pagetable.pte u).leaf = some no →
      0 < procMaps (st.pcbtable r) no := by
    intro r t m u no hr hu
    rw [hr, procMaps_some]
    exact PageTable.maps_pos.mpr ⟨u, hu⟩
  cases hmine : (mm.pagetable.pte v).unrelease with
  | false =>
    obtain ⟨no, hno⟩ := hs.page v hv.1 hmine
    have hleaf : (mm.pagetable.pte v).leaf = some no := Pte.leaf_eq_some.mpr ⟨hv.1, hmine, hno⟩
    cases hmine' : (mm'.pagetable.pte w).unrelease with
    | false =>
      have hleaf' : (mm'.pagetable.pte w).leaf = some no :=
        Pte.leaf_eq_some.mpr ⟨hw, hmine', hsame.trans hno⟩
      have hqp : q = p := by
        by_contra hne
        have hzero := allBut_eq_zero.mp (hs.sole v no hleaf hv.2) q hne
        have hpos := hmaps hq hleaf'
        omega
      subst hqp
      have hmm : mm' = mm :=
        Option.some.inj (Proc.mk.inj (Option.some.inj (hq.symm.trans hp))).2
      subst hmm
      exact ⟨rfl, mm'.pagetable.leaf_inj (hs.single no) hleaf' hleaf⟩
    | true =>
      -- the other is above the user's memory: its page is not used
      rcases hs'.top w hmine' with ⟨htramp, -⟩ | ⟨hframe, -⟩
      · exact nomatch (htramp.symm.trans hsame).trans hno
      · have hno' : no = tf' := Frame.page.inj (hno.symm.trans (hsame.symm.trans hframe))
        have hzero := h.tf_unused hq p
        have hpos := hmaps hp hleaf
        rw [hno'] at hpos
        omega
  | true =>
    rcases hs.top v hmine with ⟨-, -, hnot⟩ | ⟨hframe, hvtop⟩
    · exact nomatch hv.2.symm.trans hnot
    · cases hmine' : (mm'.pagetable.pte w).unrelease with
      | false =>
        have hleaf' : (mm'.pagetable.pte w).leaf = some tf :=
          Pte.leaf_eq_some.mpr ⟨hw, hmine', hsame.trans hframe⟩
        have hzero := h.tf_unused hp q
        have hpos := hmaps hq hleaf'
        omega
      | true =>
        rcases hs'.top w hmine' with ⟨htramp, -⟩ | ⟨hframe', hwtop⟩
        · exact nomatch (htramp.symm.trans hsame).trans hframe
        · have htf : tf' = tf := Frame.page.inj (hframe'.symm.trans (hsame.trans hframe))
          subst htf
          exact ⟨h.tf_inj hp hq, hwtop.trans hvtop.symm⟩

/-! ## Right after a fork -/

theorem user_shared (pte : Pte) : (pte.shared PTE_W).user = pte.user := by
  have hbit : (~~~PTE_W).getLsbD 4 = true := by decide
  show grants (pte.perm &&& ~~~PTE_W) PTE_U = grants pte.perm PTE_U
  rw [grants_U, grants_U, BitVec.getLsbD_and, hbit, Bool.and_true]

/-- The entries above the user's memory are none of the user's. -/
theorem vpn_ne_top {va a : Nat} (hva : va < USER_STACK_TOP) (ha : USER_STACK_TOP ≤ a)
    (hmax : a < MAXVA) (hal : a % PGSIZE = 0) : vpn va ≠ vpn a := by
  have hle : USER_STACK_TOP < MAXVA := by decide
  intro heq
  rw [vpn_eq_iff (by omega) hmax, pgRoundDown_of_aligned hal] at heq
  have := pgRoundDown_le va
  omega

theorem Space.below {rest : Nat → Nat} {pt : PageTable} (h : Space rest tf pt) {va : Nat}
    (hva : va < USER_STACK_TOP) : (pt.pte (vpn va)).unrelease = false := by
  rw [← Bool.not_eq_true]
  intro hu
  rcases h.top _ hu with ⟨-, heq, -⟩ | ⟨-, heq⟩
  · exact vpn_ne_top hva (by decide) (by decide) (by decide) heq
  · exact vpn_ne_top hva (by decide) (by decide) (by decide) heq

/-- A new table maps nothing below. -/
theorem Bare.below {rest : Nat → Nat} {pt : PageTable} (h : Bare rest tf pt) {va : Nat}
    (hva : va < USER_STACK_TOP) : (pt.pte (vpn va)).valid = false := by
  rw [← Bool.not_eq_true]
  intro hv
  have hmine := h.space.below hva
  obtain ⟨no, hno⟩ := h.space.page _ hv hmine
  have hleaf := h.leaf (vpn va)
  rw [Pte.leaf_eq_some.mpr ⟨hv, hmine, hno⟩] at hleaf
  cases hleaf

section Fork

variable {rest : Nat → Nat} {data : Nat → Page} {old new old' new' : PageTable} {va : Nat}

/-- An entry of the old table, as both have it afterwards. -/
theorem viewByte_shared {pt : PageTable}
    (hpte : pt.pte (vpn va) = (old.pte (vpn va)).shared PTE_W ∨ pt.pte (vpn va) = old.pte (vpn va)) :
    viewByte data pt va = viewByte data old va := by
  have hkeep : (pt.pte (vpn va)).valid = (old.pte (vpn va)).valid ∧
      (pt.pte (vpn va)).user = (old.pte (vpn va)).user ∧
        (pt.pte (vpn va)).paddr = (old.pte (vpn va)).paddr := by
    rcases hpte with heq | heq
    · rw [heq]
      exact ⟨valid_shared _, user_shared _, rfl⟩
    · rw [heq]
      exact ⟨rfl, rfl, rfl⟩
  exact viewByte_congr (fun _ => hkeep.1) (fun _ _ => hkeep.2) fun _ _ _ _ _ _ => rfl

/-- The parent sees what it saw. -/
theorem Shared.view_parent (h : Shared old new old' new') :
    viewByte data old' va = viewByte data old va := by
  refine viewByte_shared ?_
  rw [h.parent]
  split
  · exact .inl rfl
  · exact .inr rfl

/-- The child sees what the parent saw. -/
theorem Shared.view_child (h : Shared old new old' new') (hs : Space rest tf old)
    (hb : Bare rest tf' new) (hva : va < USER_STACK_TOP) :
    viewByte data new' va = viewByte data old va := by
  by_cases hmine : (old.pte (vpn va)).Mine
  · refine viewByte_shared (.inl ?_)
    rw [h.child, if_pos hmine]
  · -- the parent has no page there, and neither has a new table
    have hold : (old.pte (vpn va)).valid = false := by
      rw [← Bool.not_eq_true]
      exact fun hv => hmine ⟨hv, hs.below hva⟩
    have hnew : (new'.pte (vpn va)).valid = false := by
      rw [h.child, if_neg hmine]
      exact hb.below hva
    refine viewByte_congr (fun _ => hnew.trans hold.symm) ?_ fun _ _ _ _ _ _ => rfl
    intro _ hv
    exact nomatch hold.symm.trans hv

end Fork

theorem doFork_areas (s : Buddy) (parent stale : Mm) :
    Meets (fun _ => True) (doFork s parent stale) fun r =>
      r.2.2.1.areas = parent.areas ∧ r.2.2.2.areas = parent.areas := by
  have hproc : Meets (fun _ => True) (allocproc s stale) fun r => r.2.2.areas = [] := by
    unfold allocproc
    refine .after fun r => ?_
    have hnew : Meets (fun _ => True) (newMmStruct r.1 stale) fun r => r.2.areas = [] := by
      unfold newMmStruct
      exact .after fun _ => .pure rfl
    exact hnew.bind fun r' hr' => .after fun _ => .pure hr'
  unfold doFork
  refine hproc.bind fun r hr => ?_
  have hcopy : Meets (fun _ => True) (uvmSpaceCopy r.1 r.2.2 parent) fun r' =>
      r'.2.1.areas = parent.areas ∧ r'.2.2.areas = parent.areas := by
    unfold uvmSpaceCopy
    refine .after fun c => .pure ⟨?_, rfl⟩
    show copyAreas parent.areas 0 r.2.2.areas = parent.areas
    rw [hr]
    exact copyAreas_eq parent.areas []
  exact hcopy.bind fun r' hr' => .pure hr'

/-! ## Stores -/

/-- Only bytes that the table maps for the user at an address in the range have changed. -/
def WithinRange (data data' : Nat → Page) (pt : PageTable) (lo hi : Nat) : Prop :=
  ∀ no k, data' no k ≠ data no k → ∃ a, lo ≤ a ∧ a < hi ∧ a < MAXVA ∧
    (pt.pte (vpn a)).valid = true ∧ (pt.pte (vpn a)).paddr = .page no ∧ a % PGSIZE = k.val

theorem WithinRange.refl (data : Nat → Page) (pt : PageTable) (lo hi : Nat) :
    WithinRange data data pt lo hi := fun _ _ hne => absurd rfl hne

theorem WithinRange.mono {data data' : Nat → Page} {pt : PageTable} {lo hi lo' hi' : Nat}
    (h : WithinRange data data' pt lo' hi') (hlo : lo ≤ lo') (hhi : lo' < hi' → hi' ≤ hi) :
    WithinRange data data' pt lo hi := by
  intro no k hne
  obtain ⟨a, hlo', hhi', hrest⟩ := h no k hne
  have hle := hhi (Nat.lt_of_le_of_lt hlo' hhi')
  exact ⟨a, by omega, by omega, hrest⟩

theorem WithinRange.trans {data data' data'' : Nat → Page} {pt : PageTable} {lo hi : Nat}
    (h : WithinRange data data' pt lo hi) (h' : WithinRange data' data'' pt lo hi) :
    WithinRange data data'' pt lo hi := by
  intro no k hne
  by_cases hsame : data' no k = data no k
  · rw [← hsame] at hne
    exact h' no k hne
  · exact h no k hsame

/-- Bytes are stored in the page that the address lies in. -/
theorem within_writePage {data : Nat → Page} {pt : PageTable} {dst no : Nat} {src : List UInt8}
    (hva : dst < MAXVA) (hvalid : (pt.pte (vpn dst)).valid = true)
    (hpaddr : (pt.pte (vpn dst)).paddr = .page no) :
    WithinRange data (update data no (writePage (data no) (dst % PGSIZE) src)) pt dst
      (dst + src.length) := by
  intro x k hne
  have hx : x = no := by
    by_contra hx
    rw [update_of_ne hx] at hne
    exact hne rfl
  subst hx
  rw [update_self] at hne
  unfold writePage at hne
  split at hne
  · rename_i hoff
    have hlen : k.val - dst % PGSIZE < src.length := by
      by_contra hge
      rw [List.getD_eq_default _ _ (Nat.not_lt.mp hge)] at hne
      exact hne rfl
    -- the byte's address lies in the same page
    have hk := k.isLt
    have hround := pgRoundDown_le dst
    have hmax : MAXVA = 274877906944 := by decide
    rw [hmax] at hva ⊢
    have ha : pgRoundDown dst + k.val < 274877906944 := by
      simp only [pgRoundDown, PGSIZE] at hk ⊢
      omega
    have hpage : vpn (pgRoundDown dst + k.val) = vpn dst := by
      rw [vpn_eq_iff (hmax ▸ ha) (hmax ▸ hva)]
      simp only [pgRoundDown, PGSIZE] at hk ⊢
      omega
    rw [← hpage] at hvalid hpaddr
    refine ⟨pgRoundDown dst + k.val, ?_, ?_, ha, hvalid, hpaddr, ?_⟩
    · simp only [pgRoundDown, PGSIZE] at hoff ⊢
      omega
    · simp only [pgRoundDown, PGSIZE] at hoff hlen ⊢
      omega
    · simp only [pgRoundDown, PGSIZE] at hk ⊢
      omega
  · exact absurd rfl hne

theorem walkaddr_page {pt : PageTable} {va no : Nat} (h : walkaddr pt va = .ok (some (.page no))) :
    va < MAXVA ∧ (pt.pte (vpn va)).valid = true ∧ (pt.pte (vpn va)).paddr = .page no := by
  unfold walkaddr at h
  split at h
  · rename_i hva
    dsimp only at h
    split at h
    · rename_i huser
      rw [Bool.and_eq_true] at huser
      exact ⟨hva, huser.1, Option.some.inj (Except.ok.inj h)⟩
    · exact nomatch Except.ok.inj h
  · cases h

/-- `copyout` stores where it is told to, through the table. -/
theorem copyout_within (data : Nat → Page) (pt : PageTable) (dst : Nat) (src : List UInt8) :
    Meets (fun _ => True) (copyout data pt dst src) fun r =>
      WithinRange data r.1 pt dst (dst + src.length) := by
  fun_induction copyout data pt dst src with
  | case1 => exact .ok (WithinRange.refl _ pt _ _)
  | case2 => exact .error trivial
  | case3 => exact .ok (WithinRange.refl _ pt _ _)
  | case4 data dst src _ no hwalk off n ih =>
    obtain ⟨hva, hvalid, hpaddr⟩ := walkaddr_page hwalk
    have hmax : MAXVA = 274877906944 := by decide
    have hdst : dst < MAXVA := by
      rw [hmax] at hva ⊢
      simp only [pgRoundDown, PGSIZE] at hva
      omega
    rw [vpn_pgRoundDown hdst] at hvalid hpaddr
    have hoff : off < PGSIZE := Nat.mod_lt _ (by decide)
    have hround : pgRoundDown dst + off = dst := Nat.sub_add_cancel (Nat.mod_le _ _)
    have hfirst : WithinRange data
        (update data no (writePage (data no) off (src.take n))) pt dst
          (dst + src.length) := by
      refine (within_writePage hdst hvalid hpaddr).mono (Nat.le_refl _) fun _ => ?_
      have hle := List.length_take_le' n src
      omega
    -- what is left goes to the next page
    refine ih.mono fun r hr => hfirst.trans (hr.mono (by omega) fun hlt => ?_)
    rw [List.length_drop] at hlt ⊢
    omega
  | case5 => exact .error trivial

/-! ## What `verify_area` has cleared for writing -/

section Clear

variable {rest keeps : Nat → Nat} {pinned : Nat → Prop} {pt : PageTable} {m : Mem}
  {targetperm : Perm}

/-- The page of a round is one the user may write to. -/
theorem verifyPage_writable (hblank : ∀ v, (pt.pte v).valid = false → (pt.pte v).perm = 0#8)
    (m : Mem) {va : Nat} (hva : va % PGSIZE = 0) (hw : grants targetperm PTE_W = true)
    (fill : Nat → Page) :
    Meets (fun _ => True) (verifyPage m pt va targetperm fill) fun r =>
      va < MAXVA ∧ (r.2.pte (vpn va)).Writable := by
  unfold verifyPage
  refine (walk_below m.phys pt va).bind ?_
  rintro ⟨s, pt₁⟩ ⟨hpte, hlt⟩
  simp only at hpte ⊢
  refine .ite (fun hgrants => ?_) fun _ => .ite (fun hvalid => ?_) fun _ => ?_
  · have hwrite := grants_trans hgrants hw
    refine .pure ⟨hlt, ?_, hwrite⟩
    rw [← Bool.not_eq_false]
    intro hinvalid
    rw [hpte] at hinvalid hwrite
    rw [hblank _ hinvalid] at hwrite
    exact absurd hwrite (by decide)
  · unfold doWpPage
    refine .after fun u => .ite (fun _ => ?_) fun _ => ?_
    · refine .after fun _ => .pure ⟨hlt, ?_⟩
      rw [PageTable.setPte_pte, update_self]
      exact ⟨grants_trans (grants_or_left _ _) hvalid, grants_trans (grants_or_right _ _) hw⟩
    · refine .after fun w => .after fun old => .after fun _ => .pure ⟨hlt, ?_⟩
      rw [PageTable.setPte_pte, update_self]
      exact ⟨grants_trans (grants_or_right _ _) hvalid, grants_trans (grants_or_left _ _) hw⟩
  · unfold doNoPage
    refine .after fun u => ?_
    refine (mappages_page u.1 pt₁ _ targetperm hva).bind fun w hnew => .pure ⟨hlt, ?_⟩
    rw [hnew.2, update_self]
    refine ⟨grants_or_right _ _, grants_trans (grants_or_left _ _) ?_⟩
    split
    · exact grants_trans (grants_or_left _ _) hw
    · exact hw

theorem Kept.writable {pt' : PageTable} (h : Kept tail rest pt pt') {v : Vpn}
    (hv : (pt.pte v).Writable) : (pt'.pte v).Writable :=
  ⟨h.valid hv.1, grants_trans (h.grow v hv.1) hv.2⟩

/-- All pages of the loop are. -/
theorem verifyLoop_writable {endVaddr : Nat} (hw : grants targetperm PTE_W = true)
    (fill : Nat → Page) (va : Nat) (m : Mem) (pt : PageTable) (hva : va % PGSIZE = 0)
    (h : Account m.phys rest keeps pinned tail tf pt) :
    Meets (fun _ => True) (verifyLoop endVaddr targetperm fill va m pt) fun r =>
      ∀ a, va ≤ a → pgRoundDown a < endVaddr → a < MAXVA ∧ (r.2.pte (vpn a)).Writable := by
  fun_induction verifyLoop endVaddr targetperm fill va m pt with
  | case1 va m pt hlt ih =>
    have hc : (∃ hd t, tail hd t) → True := fun _ => trivial
    have hpage := (verifyPage_books h hc hva (fun _ => trivial) targetperm fill).and
      (verifyPage_writable h.space.blank m hva hw fill)
    refine hpage.lax.bind ?_
    rintro ⟨m₁, pt₁⟩ ⟨⟨h₁, -⟩, hlt, hwrite⟩
    have hnext : (va + PGSIZE) % PGSIZE = 0 := by
      rw [Nat.add_mod_right]
      exact hva
    have hloop := (verifyLoop_books targetperm fill hc (fun _ => trivial) (va + PGSIZE) m₁ pt₁ hnext
      h₁).and (ih m₁ pt₁ hnext h₁)
    refine hloop.lax.mono fun r hr a hle hend => ?_
    by_cases hpage : va + PGSIZE ≤ a
    · exact hr.2 a hpage hend
    · -- the page of this round, which the later ones keep
      have hround : pgRoundDown a = va := by
        simp only [pgRoundDown, PGSIZE] at hva hpage ⊢
        omega
      have ha : a < MAXVA := by
        have hmax : MAXVA = 274877906944 := by decide
        rw [hmax] at hlt ⊢
        simp only [PGSIZE] at hva hpage
        omega
      rw [← vpn_pgRoundDown ha, hround]
      exact ⟨ha, hr.1.2.writable hwrite⟩
  | case2 va m pt hge =>
    refine .ok fun a hle hend => ?_
    simp only [pgRoundDown, PGSIZE] at hva hend
    omega

/-- A range that `verify_area` grants for writing, unless it wraps. -/
theorem verifyArea_writable (h : Account m.phys rest keeps pinned tail tf pt) (areas : List Vma)
    {vaddr size : Nat} (hw : grants targetperm PTE_W = true) (hwrap : vaddr + size < ADDRS)
    (fill : Nat → Page) :
    Meets (fun _ => True) (verifyArea m areas pt vaddr size targetperm fill) fun r =>
      r.2.2 = 0 → ∀ a, vaddr ≤ a → a < vaddr + size → a < MAXVA ∧ (r.2.1.pte (vpn a)).Writable := by
  unfold verifyArea
  split
  · exact .ok nofun
  · refine .ite (fun _ => ?_) fun _ => .ok nofun
    refine (verifyLoop_writable hw fill _ m pt (pgRoundDown_mod vaddr) h).bind fun r hr => ?_
    refine .pure fun _ a hlo hhi => hr a ?_ ?_
    · exact Nat.le_trans (pgRoundDown_le vaddr) hlo
    · rw [Nat.mod_eq_of_lt hwrap]
      exact Nat.lt_of_le_of_lt (pgRoundDown_le a) hhi

end Clear

/-! ## A fault changes what nobody sees -/

theorem viewByte_eq_some {data : Nat → Page} {pt : PageTable} {va : Nat} {b : UInt8} :
    viewByte data pt va = some b ↔ va < MAXVA ∧ (pt.pte (vpn va)).valid = true ∧
      (pt.pte (vpn va)).user = true ∧ ∃ no, (pt.pte (vpn va)).paddr = .page no ∧
        data no ⟨va % PGSIZE, mod_lt_pgsize va⟩ = b := by
  unfold viewByte
  constructor
  · intro h
    split at h
    · rename_i hva
      dsimp only at h
      split at h
      · rename_i hflags
        rw [Bool.and_eq_true] at hflags
        split at h
        · rename_i no hno
          exact ⟨hva, hflags.1, hflags.2, no, hno, Option.some.inj h⟩
        · cases h
      · cases h
    · cases h
  · rintro ⟨hva, hv, hu, no, hno, hb⟩
    rw [if_pos hva]
    simp only [hv, hu, hno, hb, Bool.and_self, if_true]

/-- Pages used elsewhere or kept stay as they are, and the process still sees all it saw. -/
structure Calm (rest keeps : Nat → Nat) (m : Mem) (pt : PageTable) (m' : Mem) (pt' : PageTable) :
    Prop where
  others : ∀ no, 0 < rest no ∨ 0 < keeps no → m'.data no = m.data no
  own : ∀ a b, viewByte m.data pt a = some b → viewByte m'.data pt' a = some b

section Calm

variable {rest keeps : Nat → Nat} {pinned : Nat → Prop} {pt pt' : PageTable} {m : Mem}
  {targetperm : Perm}

theorem Calm.refl (m : Mem) (pt : PageTable) : Calm rest keeps m pt m pt :=
  ⟨fun _ _ => rfl, fun _ _ h => h⟩

theorem Calm.trans {m' m'' : Mem} {pt'' : PageTable} (h : Calm rest keeps m pt m' pt')
    (h' : Calm rest keeps m' pt' m'' pt'') : Calm rest keeps m pt m'' pt'' :=
  ⟨fun no hno => (h'.others no hno).trans (h.others no hno),
    fun a b hb => h'.own a b (h.own a b hb)⟩

/-- The page of a valid entry is used or kept. -/
theorem Account.page_taken {s : Buddy} (h : Account s rest keeps pinned tail tf pt) {v : Vpn}
    {no : Nat} (hv : (pt.pte v).valid = true) (hno : (pt.pte v).paddr = .page no) :
    0 < pt.maps no ∨ 0 < keeps no := by
  cases hmine : (pt.pte v).unrelease with
  | false => exact .inl (PageTable.maps_pos.mpr ⟨v, Pte.leaf_eq_some.mpr ⟨hv, hmine, hno⟩⟩)
  | true =>
    rcases h.space.top v hmine with ⟨htramp, -⟩ | ⟨hframe, -⟩
    · exact nomatch htramp.symm.trans hno
    · rw [Frame.page.inj (hno.symm.trans hframe)]
      exact .inr h.tf

/-- A page nobody had is written; the entries lead where they led, or to a copy on it. -/
theorem Account.calm {s : Buddy} (h : Account s rest keeps pinned tail tf pt) {page : Nat}
    {p : Page} (huses : rest page + pt.maps page = 0) (hkeeps : keeps page = 0) {s' : Buddy}
    {data : Nat → Page} (hk : Kept tail rest pt pt')
    (hpaddr : ∀ v, (pt.pte v).valid = true → (pt'.pte v).paddr = (pt.pte v).paddr ∨
      ((pt'.pte v).paddr = .page page ∧ frameData data (pt.pte v).paddr = .ok p)) :
    Calm rest keeps ⟨s, data⟩ pt ⟨s', update data page p⟩ pt' := by
  refine ⟨fun no hno => ?_, fun a b hb => ?_⟩
  · have hne : no ≠ page := by
      rintro rfl
      omega
    exact update_of_ne hne ..
  · obtain ⟨hva, hv, hu, no, hno, hbyte⟩ := viewByte_eq_some.mp hb
    have htaken := h.page_taken hv hno
    have hne : no ≠ page := by
      rintro rfl
      omega
    refine viewByte_eq_some.mpr ⟨hva, hk.valid hv, grants_trans (hk.grow _ hv) hu, ?_⟩
    rcases hpaddr _ hv with hsame | ⟨hcopy, hold⟩
    · refine ⟨no, hsame.trans hno, ?_⟩
      show update data page p no _ = b
      rw [update_of_ne hne]
      exact hbyte
    · rw [hno] at hold
      refine ⟨page, hcopy, ?_⟩
      show update data page p page _ = b
      rw [update_self, ← Except.ok.inj hold]
      exact hbyte

theorem doNoPage_calm (h : Account m.phys rest keeps pinned tail tf pt) {va : Nat}
    (hva : va % PGSIZE = 0) (targetperm : Perm) (fill : Nat → Page) :
    Meets (fun _ => True) (doNoPage m pt va targetperm fill) fun r =>
      Kept tail rest pt r.2 → Calm rest keeps m pt r.1 r.2 := by
  unfold doNoPage
  refine (h.books.allocOne (c := True)).lax.bind ?_
  rintro ⟨s, page⟩ ⟨-, hfresh⟩
  refine (mappages_page s pt (.page page) targetperm hva).bind ?_
  rintro ⟨s', pt'⟩ ⟨hinvalid, hpte⟩
  refine .pure fun hk => h.calm hfresh.uses hfresh.keeps hk fun v hv => .inl ?_
  have hne : v ≠ vpn va := by
    rintro rfl
    exact nomatch hinvalid.symm.trans hv
  rw [hpte, update_of_ne hne]

/-- What `pages_undup` answers where a page is shared. -/
theorem Account.undup_shared {s : Buddy} (h : Account s rest keeps pinned tail tf pt) {v : Vpn}
    (hvalid : (pt.pte v).valid = true) :
    Meets (fun _ => True) (Vm.pagesUndup s (pt.pte v).paddr) fun r => r.2 ≠ 1 →
      ∃ others, Books.With r.1 others keeps pinned tail pt ∧
        ∀ x, others x = 0 → rest x + pt.maps x = 0 := by
  cases hmine : (pt.pte v).unrelease with
  | true =>
    rcases h.space.top v hmine with ⟨hpaddr, -⟩ | ⟨hpaddr, -⟩
    · rw [hpaddr]
      exact .error trivial
    · rw [hpaddr, (h.books.undupKept h.tf).1]
      exact .ok fun hne => absurd rfl hne
  | false =>
    obtain ⟨no, others, hpaddr, -, hsplit, -⟩ := h.usedAt hvalid hmine
    have hundup := (Books.congr h.books hsplit fun _ => rfl).undup fun _ => trivial
    rw [hpaddr]
    refine hundup.lax.mono ?_
    rintro ⟨s', ret⟩ ⟨rfl, -, -, hbooks⟩ hmany
    have hpos : others no ≠ 0 := fun hzero => hmany (by rw [hzero])
    simp only [if_neg hpos, Nat.add_zero] at hbooks
    refine ⟨others, hbooks, fun x hx => ?_⟩
    have hne : x ≠ no := by
      rintro rfl
      exact hpos hx
    rw [← hsplit, hx, one_of_ne hne]

theorem doWpPage_calm (h : Account m.phys rest keeps pinned tail tf pt) {v : Vpn}
    (hvalid : (pt.pte v).valid = true) (targetperm : Perm) :
    Meets (fun _ => True) (doWpPage m pt v targetperm) fun r =>
      Kept tail rest pt r.2 → Calm rest keeps m pt r.1 r.2 := by
  unfold doWpPage
  refine (h.undup_shared hvalid).bind fun r hr => ?_
  refine .ite (fun _ => .after fun _ => .pure fun hk => ?_) fun hmany => ?_
  · refine ⟨fun _ _ => rfl, fun a b hb => ?_⟩
    obtain ⟨hva, hv, hu, no, hno, hbyte⟩ := viewByte_eq_some.mp hb
    refine viewByte_eq_some.mpr ⟨hva, hk.valid hv, grants_trans (hk.grow _ hv) hu, no, ?_, hbyte⟩
    rw [PageTable.setPte_pte]
    by_cases hav : vpn a = v
    · rw [hav] at hno ⊢
      rw [update_self]
      exact hno
    · rw [update_of_ne hav]
      exact hno
  · -- the copy is on a page that nobody had
    obtain ⟨others, hbooks, hfree⟩ := hr hmany
    refine (hbooks.allocOne (c := True)).lax.bind ?_
    rintro ⟨s', page⟩ ⟨-, hfresh⟩
    have hold : Meets (fun _ => True) (frameData m.data (pt.pte v).paddr) fun p =>
        frameData m.data (pt.pte v).paddr = .ok p := Meets.partial_intro fun p hp => hp
    refine hold.bind fun p hp => .after fun _ => .pure fun hk => ?_
    refine h.calm (hfree page hfresh.uses) hfresh.keeps hk fun w hw => ?_
    rw [PageTable.setPte_pte]
    by_cases hwv : w = v
    · rw [hwv, update_self]
      exact .inr ⟨rfl, hp⟩
    · rw [update_of_ne hwv]
      exact .inl rfl

theorem Calm.walked {s : Buddy} (h : Walked pt pt') (m : Mem) :
    Calm rest keeps m pt { m with phys := s } pt' := by
  refine ⟨fun _ _ => rfl, fun a b hb => ?_⟩
  unfold viewByte at hb ⊢
  rw [h.pte]
  exact hb

/-- One page of a range. -/
theorem verifyPage_calm (h : Account m.phys rest keeps pinned tail tf pt) {va : Nat}
    (hva : va % PGSIZE = 0) (targetperm : Perm) (fill : Nat → Page) :
    Meets (fun _ => True) (verifyPage m pt va targetperm fill) fun r =>
      Account r.1.phys rest keeps pinned tail tf r.2 ∧ Calm rest keeps m pt r.1 r.2 := by
  have hc : (∃ hd t, tail hd t) → True := fun _ => trivial
  unfold verifyPage
  refine (walk_account (c := True) h va).lax.bind ?_
  rintro ⟨s, pt₁⟩ ⟨h₁, hwalked, -⟩
  have hcalm₁ : Calm rest keeps m pt ⟨s, m.data⟩ pt₁ := .walked hwalked m
  refine .ite (fun _ => .pure ⟨h₁, hcalm₁⟩) fun _ => .ite (fun hvalid => ?_) fun _ => ?_
  · have hbooks := doWpPage_books (m := ⟨s, m.data⟩) h₁ hc hvalid (fun _ => trivial) targetperm
    refine (hbooks.lax.and (doWpPage_calm (m := ⟨s, m.data⟩) h₁ hvalid targetperm)).mono fun r hr => ?_
    exact ⟨hr.1.1, hcalm₁.trans (hr.2 hr.1.2)⟩
  · have hbooks := doNoPage_books (c := True) (m := ⟨s, m.data⟩) h₁ hva targetperm fill
    refine (hbooks.lax.and (doNoPage_calm (m := ⟨s, m.data⟩) h₁ hva targetperm fill)).mono fun r hr => ?_
    exact ⟨hr.1.1, hcalm₁.trans (hr.2 hr.1.2)⟩

theorem verifyLoop_calm (endVaddr : Nat) (targetperm : Perm) (fill : Nat → Page) (va : Nat) (m : Mem)
    (pt : PageTable) (hva : va % PGSIZE = 0) (h : Account m.phys rest keeps pinned tail tf pt) :
    Meets (fun _ => True) (verifyLoop endVaddr targetperm fill va m pt) fun r =>
      Calm rest keeps m pt r.1 r.2 := by
  fun_induction verifyLoop endVaddr targetperm fill va m pt with
  | case1 va m pt hlt ih =>
    refine (verifyPage_calm h hva targetperm fill).bind fun r hr => ?_
    have hnext : (va + PGSIZE) % PGSIZE = 0 := by
      rw [Nat.add_mod_right]
      exact hva
    exact (ih r.1 r.2 hnext hr.1).mono fun r' hr' => hr.2.trans hr'
  | case2 va m pt hge => exact .ok (.refl m pt)

/-- A fault, or a call of `verify_area`, whatever it answers. -/
theorem verifyArea_calm (h : Account m.phys rest keeps pinned tail tf pt) (areas : List Vma)
    (vaddr size : Nat) (targetperm : Perm) (fill : Nat → Page) :
    Meets (fun _ => True) (verifyArea m areas pt vaddr size targetperm fill) fun r =>
      Calm rest keeps m pt r.1 r.2.1 := by
  unfold verifyArea
  split
  · exact .ok (.refl m pt)
  · refine .ite (fun _ => ?_) fun _ => .ok (.refl m pt)
    exact (verifyLoop_calm _ targetperm fill _ m pt (pgRoundDown_mod vaddr) h).bind
      fun r hr => .pure hr

end Calm

/-! ## Runs -/

/-- Only `p` sees another byte than before, and only at the addresses `changed`. -/
def OnlySees (st st' : State) (p : Pid) (changed : Nat → Prop) : Prop :=
  ∀ q a, ¬ (q = p ∧ changed a) → st'.view q a = st.view q a

/-- A store through the table of a process, where it may be written to, is seen by it alone. -/
theorem Accounts.onlySees (h : Accounts extra tail st) (hp : st.pcbtable p = some ⟨tf, some mm⟩)
    {data : Nat → Page} {lo hi : Nat} (hdata : WithinRange st.mem.data data mm.pagetable lo hi)
    (hw : ∀ a, lo ≤ a → a < hi → (mm.pagetable.pte (vpn a)).Writable) :
    OnlySees st { st with mem := { st.mem with data := data } } p fun a => lo ≤ a ∧ a < hi := by
  intro q a hnot
  unfold State.view
  rcases hq : st.pcbtable q with _ | ⟨tf', _ | mm'⟩
  · rfl
  · rfl
  · refine viewByte_congr (fun _ => rfl) (fun _ _ => ⟨rfl, rfl⟩) fun no hva hv hno k hk => ?_
    by_contra hne
    obtain ⟨a', hlo, hhi, hva', -, hno', hk'⟩ := hdata no k hne
    obtain ⟨rfl, hvpn⟩ := h.alone hp hq (hw a' hlo hhi) hv (hno.trans hno'.symm)
    rw [vpn_eq_iff hva hva'] at hvpn
    have ha : a = a' := by
      simp only [pgRoundDown, PGSIZE] at hvpn hk hk'
      omega
    exact hnot ⟨rfl, ha ▸ ⟨hlo, hhi⟩⟩

/-- A store of the user program goes where the entry lets it. -/
theorem userStore_cases (data : Nat → Page) (pt : PageTable) (va : Nat) (byte : UInt8) :
    userStore data pt va byte = data ∨ ((pt.pte (vpn va)).Writable ∧
      WithinRange data (userStore data pt va byte) pt va (va + 1)) := by
  unfold userStore
  dsimp only
  split
  · rename_i hstore
    obtain ⟨hva, hv, -, hw⟩ := hstore
    split
    · rename_i no hno
      exact .inr ⟨⟨hv, hw⟩, within_writePage hva hv hno⟩
    · exact .inl rfl
  · exact .inl rfl

/-- The processes that a call gives another address space, or other flags. -/
def Op.remakes : Op → List Pid
  | .userInit p _ _ | .execve p _ | .exit p | .reap p => [p]
  | .fork p c _ => [p, c]
  | _ => []

/-- A process whose address space is not remade keeps it, and its flags grow. -/
theorem Accounts.kept (h : Accounts extra tail st) (hp : st.pcbtable p = some ⟨tf, some mm⟩)
    (op : Op) (hop : p ∉ op.remakes) :
    Meets (fun _ => True) (Vm.call st op) fun st' => ∃ mm', st'.pcbtable p = some ⟨tf, some mm'⟩ ∧
      Kept tail (st.rest p) mm.pagetable mm'.pagetable := by
  have hsame : ∀ {st' : State}, st'.pcbtable p = st.pcbtable p →
      ∃ mm', st'.pcbtable p = some ⟨tf, some mm'⟩ ∧
        Kept tail (st.rest p) mm.pagetable mm'.pagetable :=
    fun heq => ⟨mm, heq.trans hp, .refl _⟩
  have hother : ∀ {st' : State} {q : Pid} (m : Mem) (o : Option Proc), p ∉ [q] →
      st'.pcbtable p = st.pcbtable p →
        ∃ mm', (st'.put m q o).pcbtable p = some ⟨tf, some mm'⟩ ∧
          Kept tail (st.rest p) mm.pagetable mm'.pagetable := by
    intro st' q m o hne heq
    rw [List.mem_singleton] at hne
    exact hsame ((st'.put_of_ne m o hne).trans heq)
  cases op with
  | userInit q initpage stale =>
    simp only [Vm.call]
    split
    · exact .error trivial
    · exact .after fun r => .pure (hother _ _ hop rfl)
  | fork q c stale =>
    refine meets_withMm trivial fun _ _ _ => ?_
    split
    · exact .ok (hsame rfl)
    · have hop : p ∉ [q, c] := hop
      rw [List.mem_cons, not_or] at hop
      refine .after fun r => .pure (hother _ _ hop.2 ?_)
      exact st.put_of_ne _ _ hop.1
  | access q vaddr size targetperm fill =>
    refine meets_withMm trivial fun tf' mm' hq => ?_
    by_cases hpq : p = q
    · subst hpq
      cases hp.symm.trans hq
      have htramp : TRAMPOLINE < (vaddr + size) % ADDRS → True := fun _ => trivial
      have hbooks := verifyArea_books (h.account hp) (fun _ => trivial) mm.areas htramp targetperm fill
      exact hbooks.lax.bind fun r hr => .pure ⟨_, st.put_self .., hr.2⟩
    · refine .after fun r => .pure (hother _ _ ?_ rfl)
      rwa [List.mem_singleton]
  | store q vaddr byte => exact meets_withMm trivial fun _ _ _ => .ok (hsame rfl)
  | copyout q dst src =>
    exact meets_withMm trivial fun _ _ _ => .after fun r => .pure (hsame rfl)
  | brk q vaddr =>
    refine meets_withMm trivial fun tf' mm' hq => ?_
    by_cases hpq : p = q
    · subst hpq
      cases hp.symm.trans hq
      refine (sysBrk_pagetable (c := True) mm vaddr).lax.bind fun r hr => .pure ⟨r, st.put_self .., ?_⟩
      rw [hr]
      exact .refl _
    · refine .after fun r => .pure (hother _ _ ?_ rfl)
      rwa [List.mem_singleton]
  | execve q args =>
    exact meets_withMm trivial fun _ _ _ => .after fun r => .pure (hother _ _ hop rfl)
  | exit q =>
    refine meets_withMm trivial fun _ _ _ => .ite (fun _ => .error trivial) fun _ => ?_
    exact .after fun r => .pure (hother _ _ hop rfl)
  | reap q =>
    simp only [Vm.call]
    split
    · exact .after fun r => .pure (hother _ _ hop rfl)
    · exact .error trivial
  | kernelAlloc => exact .after fun r => .pure (hsame rfl)
  | kernelFree page =>
    simp only [Vm.call]
    exact .ite (fun _ => .after fun _ => .pure (hsame rfl)) fun _ =>
      Meets.error trivial

/-- The system, with the ranges that `verify_area` has cleared for writing since the address space
    of the process was last remade. -/
structure Kernel where
  st : State
  cleared : Pid → List (Nat × Nat)

/-- `verify_area` grants a range that does not wrap, for writing. -/
def clears (st : State) (p : Pid) (vaddr size : Nat) (targetperm : Perm) (fill : Nat → Page) : Bool :=
  match st.pcbtable p with
  | some ⟨_, some mm⟩ =>
    match verifyArea st.mem mm.areas mm.pagetable vaddr size targetperm fill with
    | .ok (_, _, res) => res == 0 && grants targetperm PTE_W && decide (vaddr + size < ADDRS)
    | .error _ => false
  | _ => false

def Kernel.clear (k : Kernel) (op : Op) : Pid → List (Nat × Nat) := fun p =>
  if p ∈ op.remakes then []
  else match op with
    | .access q vaddr size targetperm fill =>
      if q = p ∧ clears k.st q vaddr size targetperm fill then (vaddr, vaddr + size) :: k.cleared p
      else k.cleared p
    | _ => k.cleared p

/-- The kernel stores into user memory only where it has asked. -/
def Kernel.Asked (k : Kernel) : Op → Prop
  | .copyout p dst src => ∃ r ∈ k.cleared p, r.1 ≤ dst ∧ dst + src.length ≤ r.2
  | _ => True

def Kernel.Step (k : Kernel) (op : Op) (k' : Kernel) : Prop :=
  Vm.Step k.st op k'.st ∧ k'.cleared = k.clear op

/-- The process may be written to all over the range. -/
def WritableAt (st : State) (p : Pid) (lo hi : Nat) : Prop :=
  ∃ tf mm, st.pcbtable p = some ⟨tf, some mm⟩ ∧
    ∀ a, lo ≤ a → a < hi → a < MAXVA ∧ (mm.pagetable.pte (vpn a)).Writable

/-- The invariant. -/
structure Kernel.Guarded (k : Kernel) : Prop where
  accounts : ∃ tail, Accounts (fun _ => False) tail k.st
  writable : ∀ p, ∀ r ∈ k.cleared p, WritableAt k.st p r.1 r.2

/-- What has been cleared can be written to right away. -/
theorem Accounts.cleared (h : Accounts extra tail st) {vaddr size : Nat} {targetperm : Perm}
    {fill : Nat → Page} (hs : Vm.Step st (.access p vaddr size targetperm fill) st')
    (hclears : clears st p vaddr size targetperm fill = true) :
    WritableAt st' p vaddr (vaddr + size) := by
  have hcall : withMm st p _ = .ok st' := hs
  obtain ⟨tf, mm, hp, hcall⟩ := withMm_ok hcall
  unfold clears at hclears
  simp only [hp] at hclears
  cases hv : verifyArea st.mem mm.areas mm.pagetable vaddr size targetperm fill with
  | error e =>
    rw [hv] at hclears
    cases hclears
  | ok r =>
    rw [hv] at hcall hclears
    rw [Bool.and_eq_true, Bool.and_eq_true, beq_iff_eq, decide_eq_true_iff] at hclears
    obtain ⟨⟨hret, hw⟩, hwrap⟩ := hclears
    cases hcall
    refine ⟨tf, { mm with pagetable := r.2.1 }, st.put_self .., ?_⟩
    exact (verifyArea_writable (h.account hp) mm.areas hw hwrap fill).of_ok hv hret

theorem Kernel.Guarded.step {k k' : Kernel} {op : Op} (h : k.Guarded) (hs : k.Step op k') :
    k'.Guarded := by
  obtain ⟨hstep, hcleared⟩ := hs
  obtain ⟨tail, hacc⟩ := h.accounts
  obtain ⟨tail', -, hacc'⟩ := (hacc.call (c := True) (fun _ => trivial) op fun _ => trivial).of_ok hstep
  refine ⟨⟨tail', hacc'⟩, fun p r hr => ?_⟩
  rw [hcleared] at hr
  unfold Kernel.clear at hr
  split at hr
  · cases hr
  · rename_i hremakes
    -- what was cleared before stays, since the flags grow
    have hold : r ∈ k.cleared p → WritableAt k'.st p r.1 r.2 := by
      intro hr
      obtain ⟨tf, mm, hp, hw⟩ := h.writable p r hr
      obtain ⟨mm', hp', hk⟩ := (hacc.kept hp op hremakes).of_ok hstep
      exact ⟨tf, mm', hp', fun a hlo hhi => ⟨(hw a hlo hhi).1, hk.writable (hw a hlo hhi).2⟩⟩
    split at hr
    · split at hr
      · rename_i hclears
        obtain ⟨rfl, hclears⟩ := hclears
        rw [List.mem_cons] at hr
        rcases hr with rfl | hr
        · exact hacc.cleared hstep hclears
        · exact hold hr
      · exact hold hr
    · exact hold hr

def State.areas (st : State) (p : Pid) : List Vma :=
  match st.pcbtable p with
  | some ⟨_, some mm⟩ => mm.areas
  | _ => []

/-- Parent and child see what the parent saw, and have its areas. -/
structure Forks (st st' : State) (p c : Pid) : Prop where
  parent : ∀ va < USER_STACK_TOP, st'.view p va = st.view p va
  child : ∀ va < USER_STACK_TOP, st'.view c va = st.view p va
  areas : st'.areas p = st.areas p ∧ st'.areas c = st.areas p

theorem Accounts.forks (h : Accounts extra tail st) {child : Pid} {stale : Mm}
    (hc : st.pcbtable child = none) (hs : Vm.Step st (.fork p child stale) st') :
    Forks st st' p child := by
  have hcall : withMm st p _ = .ok st' := hs
  obtain ⟨tf, mm, hp, hcall⟩ := withMm_ok hcall
  simp only [hc] at hcall
  cases hfork : doFork st.mem.phys mm stale with
  | error e =>
    rw [hfork] at hcall
    cases hcall
  | ok r =>
    rw [hfork] at hcall
    cases hcall
    obtain ⟨new, hbare, hforked⟩ := (h.fork (c := True) hp (fun _ => trivial) stale).of_ok hfork
    obtain ⟨hchild, hparent⟩ := (doFork_areas st.mem.phys mm stale).of_ok hfork
    have hne : p ≠ child := by
      rintro rfl
      exact nomatch hp.symm.trans hc
    let st₁ := st.put { st.mem with phys := r.1 } p (some ⟨tf, some r.2.2.2⟩)
    let st₂ := st₁.put { st.mem with phys := r.1 } child (some ⟨r.2.1, some r.2.2.1⟩)
    have hp₂ : st₂.pcbtable p = some ⟨tf, some r.2.2.2⟩ :=
      (st₁.put_of_ne _ _ hne).trans (st.put_self ..)
    have hc₂ : st₂.pcbtable child = some ⟨r.2.1, some r.2.2.1⟩ := st₁.put_self ..
    show Forks st st₂ p child
    refine ⟨fun va _ => ?_, fun va hva => ?_, ?_, ?_⟩
    · unfold State.view
      rw [hp₂, hp]
      exact hforked.shared.view_parent
    · unfold State.view
      rw [hc₂, hp]
      exact hforked.shared.view_child (h.space p tf mm hp).1 hbare hva
    · unfold State.areas
      rw [hp₂, hp]
      exact hparent
    · unfold State.areas
      rw [hc₂, hp]
      exact hchild

/-- A fault of `p` changes what no other process sees, and takes nothing from what `p` sees. -/
structure Faults (st st' : State) (p : Pid) : Prop where
  others : ∀ q a, q ≠ p → st'.view q a = st.view q a
  own : ∀ a b, st.view p a = some b → st'.view p a = some b

theorem Accounts.faults (h : Accounts extra tail st) {vaddr size : Nat} {targetperm : Perm}
    {fill : Nat → Page} (hs : Vm.Step st (.access p vaddr size targetperm fill) st') :
    Faults st st' p := by
  have hcall : withMm st p _ = .ok st' := hs
  obtain ⟨tf, mm, hp, hcall⟩ := withMm_ok hcall
  cases hv : verifyArea st.mem mm.areas mm.pagetable vaddr size targetperm fill with
  | error e =>
    rw [hv] at hcall
    cases hcall
  | ok r =>
    rw [hv] at hcall
    cases hcall
    have hcalm := (verifyArea_calm (h.account hp) mm.areas vaddr size targetperm fill).of_ok hv
    refine ⟨fun q a hqp => ?_, fun a b hb => ?_⟩
    · unfold State.view
      rw [st.put_of_ne _ _ hqp]
      rcases hq : st.pcbtable q with _ | ⟨tf', _ | mm'⟩
      · rfl
      · rfl
      · refine viewByte_congr (fun _ => rfl) (fun _ _ => ⟨rfl, rfl⟩) fun no _ hvalid hno k _ => ?_
        refine congrFun (hcalm.others no ?_) k
        -- another process maps the page, or it is the page of that process
        rcases (h.account hq).page_taken hvalid hno with hmaps | hkeeps
        · refine .inl (Nat.lt_of_lt_of_le ?_
            (le_allBut (fun q => procMaps (st.pcbtable q) no) hqp))
          show 0 < procMaps (st.pcbtable q) no
          rw [hq]
          exact hmaps
        · exact .inr hkeeps
    · unfold State.view at hb ⊢
      rw [hp] at hb
      rw [st.put_self]
      exact hcalm.own a b hb

theorem Accounts.stores (h : Accounts extra tail st) {va : Nat} {byte : UInt8}
    (hs : Vm.Step st (.store p va byte) st') : OnlySees st st' p fun a => a = va := by
  have hcall : withMm st p _ = .ok st' := hs
  obtain ⟨tf, mm, hp, hcall⟩ := withMm_ok hcall
  cases hcall
  rcases userStore_cases st.mem.data mm.pagetable va byte with hsame | ⟨hw, hdata⟩
  · rw [hsame]
    exact fun _ _ _ => rfl
  · have hone : ∀ a, va ≤ a → a < va + 1 → (mm.pagetable.pte (vpn a)).Writable := by
      intro a hlo hhi
      have ha : a = va := by omega
      exact ha ▸ hw
    intro q a hnot
    refine h.onlySees hp hdata hone q a fun hin => hnot ⟨hin.1, ?_⟩
    omega

theorem Kernel.Guarded.copies {k k' : Kernel} (h : k.Guarded) {dst : Nat} {src : List UInt8}
    (hask : k.Asked (.copyout p dst src)) (hs : k.Step (.copyout p dst src) k') :
    OnlySees k.st k'.st p fun a => dst ≤ a ∧ a < dst + src.length := by
  obtain ⟨tail, hacc⟩ := h.accounts
  obtain ⟨r, hr, hlo, hhi⟩ := hask
  obtain ⟨tf, mm, hp, hw⟩ := h.writable p r hr
  have hcall : withMm k.st p _ = .ok k'.st := hs.1
  obtain ⟨tf', mm', hp', hcall⟩ := withMm_ok hcall
  cases hp.symm.trans hp'
  cases hcopy : copyout k.st.mem.data mm.pagetable dst src with
  | error e =>
    rw [hcopy] at hcall
    cases hcall
  | ok r =>
    rw [hcopy] at hcall
    have hdata := (copyout_within k.st.mem.data mm.pagetable dst src).of_ok hcopy
    rw [← Except.ok.inj hcall]
    exact hacc.onlySees hp hdata fun a ha ha' => (hw a (by omega) (by omega)).2

/-- No page that a process may write to is mapped by another. -/
def NoneShared (st : State) : Prop :=
  ∀ p q tf tf' mm mm' v w, st.pcbtable p = some ⟨tf, some mm⟩ →
    st.pcbtable q = some ⟨tf', some mm'⟩ → (mm.pagetable.pte v).Writable →
      (mm'.pagetable.pte w).valid = true →
        (mm'.pagetable.pte w).paddr = (mm.pagetable.pte v).paddr → q = p

/-- In every run in which the kernel asks before it stores, a fork leaves parent and child with the
    same memory and the same areas, and from then on each sees only its own stores. -/
theorem fork_isolation {memEnd : Nat} {data : Nat → Page} {k : Kernel}
    (hr : Reaches Kernel.Step Kernel.Asked ⟨boot memEnd data, fun _ => []⟩ k) :
    NoneShared k.st ∧
      (∀ p c stale k', k.Step (.fork p c stale) k' → k.st.pcbtable c = none →
        Forks k.st k'.st p c) ∧
      (∀ p vaddr size targetperm fill k', k.Step (.access p vaddr size targetperm fill) k' →
        Faults k.st k'.st p) ∧
      (∀ p va byte k', k.Step (.store p va byte) k' → OnlySees k.st k'.st p fun a => a = va) ∧
      ∀ p dst src k', k.Asked (.copyout p dst src) → k.Step (.copyout p dst src) k' →
        OnlySees k.st k'.st p fun a => dst ≤ a ∧ a < dst + src.length := by
  have h0 : Kernel.Guarded ⟨boot memEnd data, fun _ => []⟩ :=
    ⟨⟨_, accounts_boot memEnd data⟩, fun _ _ hr => nomatch hr⟩
  have h : k.Guarded := hr.invariant h0 fun _ _ _ hg _ hs => hg.step hs
  obtain ⟨tail, hacc⟩ := h.accounts
  refine ⟨?_, ?_, ?_, ?_, ?_⟩
  · intro p q tf tf' mm mm' v w hp hq hv hw hsame
    exact (hacc.alone hp hq hv hw hsame).1
  · intro p c stale k' hs hc
    exact hacc.forks hc hs.1
  · intro p vaddr size targetperm fill k' hs
    exact hacc.faults hs.1
  · intro p va byte k' hs
    exact hacc.stores hs.1
  · intro p dst src k' hask hs
    exact h.copies hask hs

/-- The kernel after a call that comes back. -/
def Kernel.next (k : Kernel) (op : Op) : Option Kernel :=
  (nextCall k.st op).map fun st => ⟨st, k.clear op⟩

theorem Kernel.next_step (k : Kernel) (op : Op) (k' : Kernel) (h : k.next op = some k') :
    k.Step op k' := by
  obtain ⟨st, hcall, rfl⟩ := Option.map_eq_some_iff.mp h
  exact ⟨nextCall_step k.st op st hcall, rfl⟩

set_option maxRecDepth 100000 in
/-- The first process forks.  Parent and child map the first page, and neither sees what the other
    tries to store. -/
theorem fork_isolation_two : ∃ k, Reaches Kernel.Step Kernel.Asked ⟨smallBoot, fun _ => []⟩ k ∧
    (pteAt k.st 1 INITSTART).leaf = some 4 ∧ (pteAt k.st 2 INITSTART).leaf = some 4 ∧
      NoneShared k.st ∧ ∀ va byte k', k.Step (.store 2 va byte) k' →
        ∀ a, k'.st.view 1 a = k.st.view 1 a := by
  let calls : List Op := [.userInit 1 (fun _ => 0) blankMm, .fork 1 2 blankMm]
  have hrun : Leads Kernel.next ⟨smallBoot, fun _ => []⟩ calls fun k =>
      (pteAt k.st 1 INITSTART).leaf = some 4 ∧ (pteAt k.st 2 INITSTART).leaf = some 4 := by
    decide +kernel
  have hasked : ∀ op ∈ calls, ∀ k : Kernel, k.Asked op := by
    intro op hop k
    simp only [calls, List.mem_cons, List.not_mem_nil, or_false] at hop
    rcases hop with rfl | rfl <;> trivial
  obtain ⟨k, hreach, hparent, hchild⟩ :=
    hrun.reaches_of_mem Kernel.Step Kernel.Asked hasked Kernel.next_step
  obtain ⟨hnone, -, -, hstore, -⟩ := fork_isolation hreach
  refine ⟨k, hreach, hparent, hchild, hnone, fun va byte k' hs a => ?_⟩
  exact hstore 2 va byte k' hs 1 a fun hin => absurd hin.1 (by decide)

end Uniks.Vm
