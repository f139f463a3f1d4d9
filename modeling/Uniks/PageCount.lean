/-
  The counts of the pages.

  `Accounts` is the invariant of whole runs: the buddy system agrees with what all processes and the
  rest of the kernel hold, and every page table is a `Space` beside the others.  Each call keeps it
  (`Accounts.call`), because each is made of steps that do.  What it says of a count is exact but
  for the tails of user stacks of several pages, which only `execve` with a long argument block
  makes; without them, the assertions on counts never fail.
-/
import Uniks.PageSharing
import Uniks.Layout
import Uniks.Lib.Runs

namespace Uniks.Vm

open Uniks.Phys Uniks.Hoare Uniks.RefCount Uniks.Runs

/-! ## What the processes hold -/

/-- How many entries of a process map a page. -/
def procMaps : Option Proc → Nat → Nat
  | some ⟨_, some mm⟩, no => mm.pagetable.maps no
  | _, _ => 0

@[simp] theorem procMaps_none (no : Nat) : procMaps none no = 0 := rfl

@[simp] theorem procMaps_some (tf : Nat) (mm : Mm) (no : Nat) :
    procMaps (some ⟨tf, some mm⟩) no = mm.pagetable.maps no := rfl

@[simp] theorem procMaps_exited (tf no : Nat) : procMaps (some ⟨tf, none⟩) no = 0 := rfl

/-- The pages of the tables of a process. -/
def procHolds : Option Proc → Nat → Prop
  | some ⟨_, some mm⟩, no => mm.pagetable.Holds no
  | _, _ => False

/-- The page of a process. -/
def procKeeps : Option Proc → Nat → Nat
  | some ⟨tf, _⟩, no => one tf no
  | none, _ => 0

@[simp] theorem procKeeps_none (no : Nat) : procKeeps none no = 0 := rfl

@[simp] theorem procKeeps_some (proc : Proc) (no : Nat) : procKeeps (some proc) no = one proc.tf no :=
  rfl

/-- The number of entries of user page tables, but for the trampoline and the trapframe, that map
    a page. -/
def State.mappings (st : State) (no : Nat) : Nat := RefCount.total fun p => procMaps (st.pcbtable p) no

/-- What the kernel keeps: the pages of the processes, and those of other subsystems. -/
def State.keeps (st : State) (no : Nat) : Nat :=
  RefCount.total (fun p => procKeeps (st.pcbtable p) no) + st.others.count no

/-- The mappings of all processes but one. -/
def State.rest (st : State) (p : Pid) (no : Nat) : Nat :=
  allBut (fun q => procMaps (st.pcbtable q) no) p

/-- What the kernel keeps besides the page of one process. -/
def State.keepsBut (st : State) (p : Pid) (no : Nat) : Nat :=
  allBut (fun q => procKeeps (st.pcbtable q) no) p + st.others.count no

/-- The pages of the tables of all processes but one, and of some tables more. -/
def State.heldBut (st : State) (extra : Nat → Prop) (p : Pid) (no : Nat) : Prop :=
  extra no ∨ ∃ q, q ≠ p ∧ procHolds (st.pcbtable q) no

/-- The invariant.  `extra` are pages of tables that no process has any more. -/
structure Accounts (extra : Nat → Prop) (tail : Nat → Nat → Prop) (st : State) : Prop where
  books : Books st.mem.phys st.mappings st.keeps
    (fun no => extra no ∨ ∃ p, procHolds (st.pcbtable p) no) tail
  space : ∀ p tf mm, st.pcbtable p = some ⟨tf, some mm⟩ →
    Space (st.rest p) tf mm.pagetable ∧ Complete mm.pagetable
  heads : ∀ hd t, tail hd t → ∀ p, 0 < procMaps (st.pcbtable p) hd → 0 < procMaps (st.pcbtable p) t

variable {c : Prop} {extra : Nat → Prop} {tail tail' : Nat → Nat → Prop} {st st' : State} {p : Pid}
  {tf : Nat} {mm : Mm}

theorem State.rest_add (st : State) (p : Pid) (no : Nat) :
    st.rest p no + procMaps (st.pcbtable p) no = st.mappings no :=
  allBut_add (fun q => procMaps (st.pcbtable q) no) p

theorem State.keepsBut_add (st : State) (p : Pid) (no : Nat) :
    st.keepsBut p no + procKeeps (st.pcbtable p) no = st.keeps no := by
  have hsum := allBut_add (fun q => procKeeps (st.pcbtable q) no) p
  unfold State.keepsBut State.keeps
  omega

/-- One process beside the rest. -/
theorem Accounts.account (h : Accounts extra tail st) (hp : st.pcbtable p = some ⟨tf, some mm⟩) :
    Account st.mem.phys (st.rest p) st.keeps (st.heldBut extra p) tail tf mm.pagetable := by
  obtain ⟨hs, hc⟩ := h.space p tf mm hp
  refine ⟨?_, hs, hc, ?_⟩
  · refine Books.congr (h.books.unpin ?_) (fun x => ?_) fun _ => rfl
    · rintro no ((hx | ⟨q, -, hq⟩) | hno)
      · exact .inl hx
      · exact .inr ⟨q, hq⟩
      · exact .inr ⟨p, by rw [hp]; exact hno⟩
    · rw [← st.rest_add p x, hp]
      rfl
  · rw [← st.keepsBut_add p tf, hp]
    show 0 < _ + one tf tf
    rw [one_self]
    omega

/-- Another process that maps a page alone still does after a step of `p`. -/
theorem rest_stays {w w' : Pid → Nat} {p q : Pid} (hqp : q ≠ p) (hq : 0 < w q)
    (hrest : allBut w q = 0)
    (hgain : ∀ r, 0 < w' r → 0 < w r ∨ 0 < w p ∨ allBut w p = 0) : allBut w' q = 0 := by
  rw [allBut_eq_zero] at hrest ⊢
  intro r hr
  by_contra hpos
  rcases hgain r (Nat.pos_of_ne_zero hpos) with hmaps | hmaps | hzero
  · rw [hrest r hr] at hmaps
    exact Nat.lt_irrefl 0 hmaps
  · rw [hrest p (Ne.symm hqp)] at hmaps
    exact Nat.lt_irrefl 0 hmaps
  · rw [allBut_eq_zero.mp hzero q hqp] at hq
    exact Nat.lt_irrefl 0 hq

/-- The invariant after a step of `p`. -/
theorem Accounts.step (h : Accounts extra tail st) (p : Pid)
    (hbooks : Books st'.mem.phys st'.mappings st'.keeps
      (fun no => extra no ∨ ∃ p, procHolds (st'.pcbtable p) no) tail')
    (hspace : ∀ q tf mm, st'.pcbtable q = some ⟨tf, some mm⟩ →
      (q ≠ p ∧ st.pcbtable q = st'.pcbtable q) ∨
        (Space (st'.rest q) tf mm.pagetable ∧ Complete mm.pagetable))
    (hgain : ∀ r no, 0 < procMaps (st'.pcbtable r) no →
      0 < procMaps (st.pcbtable r) no ∨ 0 < procMaps (st.pcbtable p) no ∨ st.rest p no = 0)
    (hheads : ∀ hd t, tail' hd t → ∀ q, 0 < procMaps (st'.pcbtable q) hd →
      0 < procMaps (st'.pcbtable q) t) : Accounts extra tail' st' := by
  refine ⟨hbooks, fun q tf mm hq => ?_, hheads⟩
  rcases hspace q tf mm hq with ⟨hqp, hsame⟩ | hnew
  · obtain ⟨hs, hc⟩ := h.space q tf mm (hsame.trans hq)
    refine ⟨⟨hs.page, hs.top, hs.blank, hs.present, hs.single, fun v no hleaf hw => ?_⟩, hc⟩
    have hmaps : 0 < procMaps (st.pcbtable q) no := by
      rw [hsame, hq]
      exact PageTable.maps_pos.mpr ⟨v, hleaf⟩
    exact rest_stays hqp hmaps (hs.sole v no hleaf hw) fun r hr => hgain r no hr
  · exact hnew

/-- The invariant after a call that changes one entry of `pcbtable`. -/
theorem Accounts.put (h : Accounts extra tail st) (p : Pid) (o : Option Proc) (m : Mem)
    (hbooks : Books m.phys (fun no => st.rest p no + procMaps o no)
      (fun no => st.keepsBut p no + procKeeps o no)
      (fun no => st.heldBut extra p no ∨ procHolds o no) tail')
    (hspace : ∀ tf mm, o = some ⟨tf, some mm⟩ →
      Space (st.rest p) tf mm.pagetable ∧ Complete mm.pagetable)
    (hgain : ∀ no, 0 < procMaps o no → 0 < procMaps (st.pcbtable p) no ∨ st.rest p no = 0)
    (hheads : ∀ hd t, tail' hd t → 0 < procMaps o hd → 0 < procMaps o t)
    (hothers : ∀ hd t, tail' hd t → tail hd t ∨ st.rest p hd = 0) :
    Accounts extra tail' (st.put m p o) := by
  have hself : (st.put m p o).pcbtable p = o := Function.update_self ..
  have hne : ∀ q, q ≠ p → (st.put m p o).pcbtable q = st.pcbtable q :=
    fun q hq => Function.update_of_ne hq ..
  have hrest : ∀ no, (st.put m p o).rest p no = st.rest p no := fun no =>
    allBut_congr fun q hq => by rw [hne q hq]
  refine h.step p ?_ ?_ ?_ ?_
  · refine Books.congr (hbooks.unpin ?_) (fun x => ?_) fun x => ?_
    · rintro no (hx | ⟨q, hq⟩)
      · exact .inl (.inl hx)
      · by_cases hqp : q = p
        · rw [hqp, hself] at hq
          exact .inr hq
        · rw [hne q hqp] at hq
          exact .inl (.inr ⟨q, hqp, hq⟩)
    · rw [← (st.put m p o).rest_add p x, hrest, hself]
    · rw [← (st.put m p o).keepsBut_add p x, hself]
      refine congrArg (· + procKeeps o x) (congrArg (· + st.others.count x) ?_)
      exact allBut_congr fun q hq => by rw [hne q hq]
  · intro q tf mm hq
    by_cases hqp : q = p
    · right
      rw [hqp, hself] at hq
      rw [hqp, funext hrest]
      exact hspace tf mm hq
    · exact .inl ⟨hqp, (hne q hqp).symm⟩
  · intro r no hr
    by_cases hrp : r = p
    · rw [hrp, hself] at hr
      exact .inr (hgain no hr)
    · rw [hne r hrp] at hr
      exact .inl hr
  · intro hd t ht q hq
    by_cases hqp : q = p
    · rw [hqp, hself] at hq ⊢
      exact hheads hd t ht hq
    · rw [hne q hqp] at hq ⊢
      rcases hothers hd t ht with hold | hzero
      · exact h.heads hd t hold q hq
      · have hle := le_allBut (fun q => procMaps (st.pcbtable q) hd) hqp
        have hzero : allBut (fun q => procMaps (st.pcbtable q) hd) p = 0 := hzero
        omega

/-- A call of a process leaves it with the table `pt'` in place of `pt`. -/
structure Left (rest keeps : Nat → Nat) (pinned : Nat → Prop) (tail tail' : Nat → Nat → Prop)
    (tf : Nat) (pt : PageTable) (s : Buddy) (pt' : PageTable) : Prop where
  account : Account s rest keeps pinned tail' tf pt'
  gain : ∀ no, 0 < pt'.maps no → 0 < pt.maps no ∨ rest no = 0
  heads : ∀ hd t, tail' hd t → 0 < pt'.maps hd → 0 < pt'.maps t
  elsewhere : ∀ hd t, tail' hd t → tail hd t ∨ rest hd = 0

/-- A table that is kept. -/
theorem Account.left {s s' : Buddy} {rest keeps : Nat → Nat} {pinned pinned' : Nat → Prop}
    {pt pt' : PageTable} (h : Account s rest keeps pinned' tail tf pt)
    (hheads : ∀ hd t, tail hd t → 0 < pt.maps hd → 0 < pt.maps t)
    (ha : Account s' rest keeps pinned tail tf pt') (hk : Kept tail rest pt pt') :
    Left rest keeps pinned tail tail tf pt s' pt' := by
  refine ⟨ha, hk.gain, fun hd t ht hhd => ?_, fun _ _ ht => .inl ht⟩
  refine hk.tails hd t ht (hheads hd t ht ?_)
  rcases hk.gain hd hhd with hmaps | hzero
  · exact hmaps
  · -- a head is used, and by nobody else
    obtain ⟨live, -, hl⟩ := h.books
    have hused : 0 < rest hd + pt.maps hd := (hl.tails hd t ht).2.1
    omega

theorem Accounts.leave (h : Accounts extra tail st) (hp : st.pcbtable p = some ⟨tf, some mm⟩)
    {m : Mem} {mm' : Mm} (hl : Left (st.rest p) st.keeps (st.heldBut extra p) tail tail' tf
      mm.pagetable m.phys mm'.pagetable) :
    Accounts extra tail' (st.put m p (some ⟨tf, some mm'⟩)) := by
  refine h.put p _ m ?_ ?_ ?_ hl.heads hl.elsewhere
  · refine Books.congr hl.account.books (fun _ => rfl) fun x => ?_
    rw [← st.keepsBut_add p x, hp]
    rfl
  · intro tf' mm'' heq
    cases heq
    exact ⟨hl.account.space, hl.account.complete⟩
  · intro no hno
    rw [hp]
    exact hl.gain no hno

/-- A process goes on with a table that is kept. -/
theorem Accounts.putMm (h : Accounts extra tail st) (hp : st.pcbtable p = some ⟨tf, some mm⟩)
    {m : Mem} {mm' : Mm}
    (ha : Account m.phys (st.rest p) st.keeps (st.heldBut extra p) tail tf mm'.pagetable)
    (hk : Kept tail (st.rest p) mm.pagetable mm'.pagetable) :
    Accounts extra tail (st.put m p (some ⟨tf, some mm'⟩)) := by
  refine h.leave hp ((h.account hp).left (fun hd t ht => ?_) ha hk)
  have hheads := h.heads hd t ht p
  rw [hp] at hheads
  exact hheads

/-! ## New address spaces -/

section Spaces

variable {s : Buddy} {uses keeps rest : Nat → Nat} {pinned : Nat → Prop} {pt : PageTable}

/-- A table that maps nothing but the trampoline and the trapframe. -/
structure Bare (rest : Nat → Nat) (tf : Nat) (pt : PageTable) : Prop where
  space : Space rest tf pt
  leaf : ∀ v, (pt.pte v).leaf = none

theorem Bare.maps (h : Bare rest tf pt) (x : Nat) : pt.maps x = 0 := by
  by_contra hpos
  obtain ⟨v, hv⟩ := PageTable.maps_pos.mp (Nat.pos_of_ne_zero hpos)
  rw [h.leaf v] at hv
  cases hv

theorem Bare.zeroed (rest : Nat → Nat) (tf root : Nat) : Bare rest tf (PageTable.zeroed root) :=
  ⟨.zeroed rest tf root, fun _ => Pte.leaf_zero⟩

/-- A page above the user's memory is mapped. -/
theorem mappages_top (h : Books.With s uses keeps pinned tail pt) (hb : Bare rest tf pt) {va : Nat}
    (hva : va % PGSIZE = 0) (htop : TRAPFRAME ≤ va) {pa : Frame} (perm : Perm)
    (hpa : (pa = .trampoline ∧ va = TRAMPOLINE ∧ grants (perm ||| PTE_G ||| PTE_V) PTE_W = false) ∨
      (pa = .page tf ∧ va = TRAPFRAME)) :
    Meets (Unless c) (mappages s pt va PGSIZE pa perm) fun r =>
      Books.With r.1 uses keeps pinned tail r.2 ∧ Bare rest tf r.2 ∧
        (r.2.pte (vpn va)).valid = true ∧ (r.2.pte (vpn va)).unrelease = true ∧
          ∀ v, (pt.pte v).valid = true ∧ (pt.pte v).unrelease = true →
            (r.2.pte v).valid = true ∧ (r.2.pte v).unrelease = true := by
  refine (mappages_books h pa perm hva).mono ?_
  rintro ⟨s', pt'⟩ ⟨hbooks, -, hvalid, pt₁, hw, hpresent, rfl⟩
  have hmine : decide (va ≥ TRAPFRAME) = true := decide_eq_true htop
  simp only [hmine] at hbooks ⊢
  let pte : Pte := ⟨(if va ≥ TRAMPOLINE then perm ||| PTE_G else perm) ||| PTE_V, true, pa⟩
  have hnone : pte.leaf = none := Pte.leaf_unrelease rfl
  have hset : ∀ w, (pt₁.setPte (vpn va) pte).pte w = if w = vpn va then pte else pt.pte w := by
    intro w
    rw [PageTable.setPte_pte, hw.pte]
    by_cases hwv : w = vpn va
    · rw [hwv, Function.update_self, if_pos rfl]
    · rw [Function.update_of_ne hwv, if_neg hwv]
  refine ⟨hbooks, ⟨?_, fun w => ?_⟩, ?_, ?_, fun w hold => ?_⟩
  · refine (hb.space.walked hw).set (grants_or_right _ _) (fun hu => nomatch hu) (fun _ => ?_)
      hpresent ?_ ?_
    · rcases hpa with ⟨hpa, rfl, hperm⟩ | ⟨hpa, rfl⟩
      · exact .inl ⟨hpa, rfl, hperm⟩
      · exact .inr ⟨hpa, rfl⟩
    · intro no hno
      exact nomatch hnone.symm.trans hno
    · intro no hno
      exact nomatch hnone.symm.trans hno
  · rw [hset]
    split
    · exact hnone
    · exact hb.leaf w
  · rw [hset, if_pos rfl]
    exact grants_or_right _ _
  · rw [hset, if_pos rfl]
  · rw [hset]
    split
    · exact ⟨grants_or_right _ _, rfl⟩
    · exact hold

theorem userBasicPagetable_books (h : Books.With s uses keeps pinned tail pt) (hb : Bare rest tf pt) :
    Meets (Unless c) (userBasicPagetable s pt tf) fun r =>
      Books.With r.1 uses keeps pinned tail r.2 ∧ Bare rest tf r.2 ∧ Complete r.2 := by
  unfold userBasicPagetable
  refine (mappages_top h hb (by decide) (by decide) _ (.inl ⟨rfl, rfl, by decide⟩)).bind ?_
  rintro ⟨s₁, pt₁⟩ ⟨hbooks₁, hb₁, hv₁, hu₁, -⟩
  refine (mappages_top hbooks₁ hb₁ (by decide) (by decide) _ (.inr ⟨rfl, rfl⟩)).mono ?_
  rintro ⟨s₂, pt₂⟩ ⟨hbooks₂, hb₂, hv₂, hu₂, hkeep⟩
  refine ⟨hbooks₂, hb₂, fun a hlo hhi => ?_⟩
  have hframe : TRAPFRAME = 274877898752 := by decide
  have htramp : TRAMPOLINE = 274877902848 := by decide
  have hmax : MAXVA = 274877906944 := by decide
  have hpage : vpn a = vpn TRAPFRAME ∨ vpn a = vpn TRAMPOLINE := by
    rw [vpn_eq_iff hhi (by decide), vpn_eq_iff hhi (by decide),
      pgRoundDown_of_aligned (a := TRAPFRAME) (by decide),
      pgRoundDown_of_aligned (a := TRAMPOLINE) (by decide), hframe, htramp]
    rw [hmax] at hhi
    rw [hframe] at hlo
    simp only [pgRoundDown, PGSIZE]
    omega
  rcases hpage with heq | heq <;> rw [heq]
  · exact ⟨hv₂, hu₂⟩
  · exact hkeep _ ⟨hv₁, hu₁⟩

theorem newMmStruct_books (h : Books s uses keeps pinned tail) (stale : Mm) :
    Meets (Unless c) (newMmStruct s stale) fun r =>
      Books.With r.1 uses keeps pinned tail r.2.pagetable ∧
        ∃ root, r.2.pagetable = PageTable.zeroed root := by
  have hcreate : Meets (Unless c) (uvmcreate s) fun r =>
      Books.With r.1 uses keeps pinned tail r.2 ∧ ∃ root, r.2 = PageTable.zeroed root := by
    unfold uvmcreate
    refine h.allocPin.bind fun r hr => .pure ⟨hr.1.unpin ?_, r.2, rfl⟩
    rintro no (hno | hno)
    · exact .inl hno
    · exact .inr (PageTable.holds_zeroed hno)
  unfold newMmStruct
  exact hcreate.bind fun r hr => .pure hr

/-- An address space of a process without areas. -/
theorem allocproc_books (h : Books s uses keeps pinned tail) (rest : Nat → Nat) (stale : Mm) :
    Meets (Unless c) (allocproc s stale) fun r =>
      Books.With r.1 uses (fun x => keeps x + one r.2.1 x) pinned tail r.2.2.pagetable ∧
        Bare rest r.2.1 r.2.2.pagetable ∧ Complete r.2.2.pagetable := by
  unfold allocproc
  refine h.allocKeep.bind ?_
  rintro ⟨s₁, tf⟩ ⟨hbooks₁, -⟩
  refine (newMmStruct_books hbooks₁ stale).bind ?_
  rintro ⟨s₂, mm⟩ ⟨hbooks₂, root, hroot⟩
  have hbare : Bare rest tf mm.pagetable := by
    have hroot : mm.pagetable = PageTable.zeroed root := hroot
    rw [hroot]
    exact .zeroed rest tf root
  exact (userBasicPagetable_books hbooks₂ hbare).bind fun r hr => .pure hr

theorem insertArea_fails (new : Vma) (areas : List Vma) :
    Meets (Unless c) (insertArea new areas) fun _ => True := by
  induction areas with
  | nil => exact .ok trivial
  | cons vma rest ih =>
    unfold insertArea
    refine .ite (fun _ => ?_) fun _ => .error unless_check
    exact .ite (fun _ => .ok trivial) fun _ => ih.bind fun _ _ => .pure trivial

theorem addVmArea_pagetable (mm : Mm) (vma : Vma) :
    Meets (Unless c) (addVmArea mm vma) fun r => r.pagetable = mm.pagetable := by
  unfold addVmArea
  refine .ite (fun _ => ?_) fun _ => .error unless_check
  exact (insertArea_fails vma mm.areas).bind fun _ _ => .pure rfl

/-- The first process has a page of its own. -/
theorem userInit_books {m : Mem} (h : Books m.phys uses keeps pinned tail) (initpage : Page)
    (stale : Mm) :
    Meets (Unless c) (userInit m initpage stale) fun r =>
      Books.With r.1.phys (fun x => uses x + r.2.2.pagetable.maps x)
        (fun x => keeps x + one r.2.1 x) pinned tail r.2.2.pagetable ∧
      Space uses r.2.1 r.2.2.pagetable ∧ Complete r.2.2.pagetable ∧
      ∀ x, 0 < r.2.2.pagetable.maps x → uses x = 0 ∧ ∀ t, ¬ tail x t := by
  unfold userInit
  refine (allocproc_books h uses stale).bind ?_
  rintro ⟨s₁, tf, mm⟩ ⟨hbooks₁, hbare, hc⟩
  refine hbooks₁.allocOne.bind ?_
  rintro ⟨s₂, page⟩ ⟨hbooks₂, hfresh⟩
  refine (mappages_books hbooks₂ (.page page) _ (by decide)).bind ?_
  rintro ⟨s₃, pt⟩ ⟨hbooks₃, -, hvalid, pt₁, hw, hpresent, rfl⟩
  have hlow : ¬ INITSTART ≥ TRAMPOLINE := by decide
  have hmine : decide (INITSTART ≥ TRAPFRAME) = false := by decide
  simp only [if_neg hlow, hmine] at hbooks₃ ⊢
  have hbare₁ : Bare uses tf pt₁ :=
    ⟨hbare.space.walked hw, fun v => by rw [hw.pte]; exact hbare.leaf v⟩
  rw [← hw.pte] at hvalid
  obtain ⟨hs, hmaps, hkept⟩ : _ ∧ _ ∧ Kept tail _ _ _ :=
    hbare₁.space.map (PTE_X ||| PTE_R ||| PTE_U) hpresent hvalid (hbare₁.maps page) hfresh.uses
  have hmaps' : ∀ x, (pt₁.setPte (vpn INITSTART) ⟨PTE_X ||| PTE_R ||| PTE_U ||| PTE_V, false,
      .page page⟩).maps x = one page x := by
    intro x
    rw [hmaps, hbare₁.maps, Nat.zero_add]
  have hkept₁ : Kept tail uses mm.pagetable pt₁ := .walked hw
  refine (addVmArea_pagetable _ _).bind fun mm' hmm' => .pure ?_
  simp only [hmm']
  refine ⟨Books.congr hbooks₃ (fun x => by rw [hmaps']) fun _ => rfl, hs,
    (hkept₁.trans hkept).complete hc, fun x hx => ?_⟩
  rw [hmaps'] at hx
  have hxp : x = page := by
    by_contra hne
    rw [one_of_ne hne] at hx
    exact Nat.lt_irrefl 0 hx
  rw [hxp]
  exact ⟨hfresh.uses, hfresh.head⟩

/-- `uvm_space_copy` is `copy_pgtable` on the tables. -/
theorem uvmSpaceCopy_books {old new : Mm} {tf' : Nat}
    (h : Books.With s (fun x => rest x + old.pagetable.maps x) keeps
      (fun no => pinned no ∨ old.pagetable.Holds no) tail new.pagetable)
    (hs : Space rest tf old.pagetable) (hcold : Complete old.pagetable)
    (hb : Bare rest tf' new.pagetable) (hcnew : Complete new.pagetable)
    (hfew : ∀ x, rest x + 3 < 65536) (hc : (∃ hd t, tail hd t) → c) :
    Meets (Unless c) (uvmSpaceCopy s new old) fun r =>
      Forked r.1 rest keeps pinned tail tf tf' old.pagetable new.pagetable r.2.2.pagetable
        r.2.1.pagetable := by
  unfold uvmSpaceCopy
  refine (copyPgtable_books h hs hb.space hcold hcnew hb.leaf hfew hc).bind fun cp hcp => ?_
  exact .pure hcp

/-! ## Executables -/

theorem loadHeaders_pagetable (inode : Nat) (headers : List (Option Phdr)) (last : Phdr) (mm : Mm) :
    Meets (Unless c) (loadHeaders inode headers last mm) fun r =>
      ∀ mm' last', r = some (mm', last') → mm'.pagetable = mm.pagetable := by
  induction headers generalizing last mm with
  | nil =>
    refine .ok fun mm' last' heq => ?_
    cases heq
    rfl
  | cons header rest ih =>
    cases header with
    | none => exact .ok fun mm' last' heq => nomatch heq
    | some header =>
      unfold loadHeaders
      refine .ite (fun _ => ?_) fun _ => ih header mm
      have hload : Meets (Unless c) (preLoadSegment mm inode header) fun r =>
          r.pagetable = mm.pagetable := by
        unfold preLoadSegment
        exact .ite (fun _ => addVmArea_pagetable mm _) fun _ => .error unless_check
      refine hload.bind fun mm₁ hmm₁ => (ih header mm₁).mono fun r hr mm' last' heq => ?_
      exact (hr mm' last' heq).trans hmm₁

/-- Loading an executable maps nothing. -/
theorem loadElf_pagetable (mm : Mm) (image : Image) :
    Meets (Unless c) (loadElf mm image) fun r => ∀ mm', r = some mm' → mm'.pagetable = mm.pagetable := by
  unfold loadElf
  refine .ite (fun _ => ?_) fun _ => .ok fun mm' heq => nomatch heq
  refine (loadHeaders_pagetable image.inode image.headers image.stale mm).bind fun r hr => ?_
  cases r with
  | none => exact .pure fun mm' heq => nomatch heq
  | some pair =>
    rcases pair with ⟨mm₁, last⟩
    refine (addVmArea_pagetable _ _).bind fun mm₂ hmm₂ => .pure fun mm' heq => ?_
    split at heq
    · cases heq
    · cases heq
      exact hmm₂.trans (hr mm₁ last rfl)

/-- The ranges that `do_execve` fetches from do not reach the trampoline. -/
def FetchesBelow (fetches : List Fetch) : Prop :=
  ∀ f ∈ fetches, (f.vaddr + f.size) % ADDRS ≤ TRAMPOLINE

theorem fetchArgs_books (hc : (∃ hd t, tail hd t) → c) (fetches : List Fetch) (m : Mem) (mm : Mm)
    (htramp : ¬ FetchesBelow fetches → c) (h : Account m.phys rest keeps pinned tail tf mm.pagetable) :
    Meets (Unless c) (fetchArgs fetches m mm) fun r =>
      Account r.1.phys rest keeps pinned tail tf r.2.1.pagetable ∧
        Kept tail rest mm.pagetable r.2.1.pagetable := by
  induction fetches generalizing m mm with
  | nil => exact .ok ⟨h, .refl _⟩
  | cons f fs ih =>
    unfold fetchArgs
    have hf : TRAMPOLINE < (f.vaddr + f.size) % ADDRS → c := by
      intro hlt
      refine htramp fun hbelow => ?_
      have hle := hbelow f List.mem_cons_self
      omega
    have hfs : ¬ FetchesBelow fs → c := by
      intro hnot
      exact htramp fun hbelow => hnot fun g hg => hbelow g (List.mem_cons_of_mem f hg)
    refine (verifyArea_books h hc mm.areas hf (PTE_R ||| PTE_U) f.fill).bind ?_
    rintro ⟨m', pt', res⟩ ⟨h', hkept⟩
    refine .ite (fun _ => .pure ⟨h', hkept⟩) fun _ => ?_
    exact (ih m' { mm with pagetable := pt' } hfs h').mono fun r hr => ⟨hr.1, hkept.trans hr.2⟩

theorem copyout_fails (data : Nat → Page) (pt : PageTable) (dst : Nat) (src : List UInt8) :
    Meets (Unless c) (copyout data pt dst src) fun _ => True := by
  fun_induction copyout data pt dst src with
  | case1 => exact .ok trivial
  | case2 data dst src _ e he =>
    unfold walkaddr at he
    split at he
    · dsimp only at he
      split at he
      · cases he
      · cases he
    · rcases Except.error.inj he
      exact .error unless_check
  | case3 => exact .ok trivial
  | case4 data dst src _ no _ off n ih => exact ih
  | case5 => exact .error unless_check

theorem copyoutStrings_fails (pt : PageTable) (strs : List (List UInt8)) (data : Nat → Page)
    (ustack sp : Nat) : Meets (Unless c) (copyoutStrings pt strs data ustack sp) fun _ => True := by
  induction strs generalizing data ustack sp with
  | nil => exact .ok trivial
  | cons str rest ih =>
    unfold copyoutStrings
    refine (copyout_fails data pt sp str).bind fun r _ => ?_
    exact .ite (fun _ => .error unless_check) fun _ => ih _ _ _

theorem copyoutArgvEnvp_fails (data : Nat → Page) (pt : PageTable) (argv envp : List (List UInt8))
    (ustack sp : Nat) :
    Meets (Unless c) (copyoutArgvEnvp data pt argv envp ustack sp) fun _ => True := by
  unfold copyoutArgvEnvp
  refine (copyoutStrings_fails pt argv data ustack sp).bind fun r _ => ?_
  exact (copyoutStrings_fails pt envp _ _ _).bind fun _ _ => .pure trivial

/-- The stack is mapped: each page of the block once. -/
theorem mapUserStack_books (mm : Mm) {n ustack : Nat}
    (h : Books.With s uses keeps pinned tail mm.pagetable) (hb : Bare rest tf mm.pagetable)
    (hfree : ∀ x, spread ustack n x = 1 → rest x = 0) (hfew : n ≤ MAXSTACK) :
    Meets (Unless c) (mapUserStack s mm n ustack) fun r =>
      Books.With r.1 uses keeps pinned tail r.2.pagetable ∧ Space rest tf r.2.pagetable ∧
        (∀ x, r.2.pagetable.maps x = spread ustack n x) ∧
          Kept tail rest mm.pagetable r.2.pagetable := by
  have htop : USER_STACK_TOP = 274877898752 := by decide
  have hfew : n ≤ 32 := hfew
  have hmap : Meets (Unless c) (mappages s mm.pagetable (USER_STACK_TOP - PGSIZE * n) (PGSIZE * n)
      (.page ustack) (PTE_W ||| PTE_R ||| PTE_U)) fun r =>
        Books.With r.1 uses keeps pinned tail r.2 ∧ Space rest tf r.2 ∧
          (∀ x, r.2.maps x = mm.pagetable.maps x + spread ustack n x) ∧
            Kept tail rest mm.pagetable r.2 := by
    unfold mappages
    refine .ite (fun _ => .error unless_check) fun hsize => ?_
    dsimp only
    have hal : (USER_STACK_TOP - PGSIZE * n) % PGSIZE = 0 := by
      rw [htop]
      show (274877898752 - 4096 * n) % 4096 = 0
      omega
    have hbelow : USER_STACK_TOP - PGSIZE * n < TRAPFRAME := by
      have hpos : PGSIZE * n ≠ 0 := hsize
      show USER_STACK_TOP - PGSIZE * n < USER_STACK_TOP
      rw [htop]
      omega
    have hcount : (pgRoundUp (pgRoundDown (USER_STACK_TOP - PGSIZE * n) + PGSIZE * n - 1)
        - pgRoundDown (USER_STACK_TOP - PGSIZE * n)) / PGSIZE = n := by
      rw [pgRoundDown_of_aligned hal]
      rw [htop] at hal ⊢
      simp only [pgRoundUp, pgRoundDown, PGSIZE] at hal hsize ⊢
      omega
    rw [hcount, pgRoundDown_of_aligned hal]
    exact mappagesLoop_books hbelow n s mm.pagetable _ ustack h hb.space
      fun x hx => ⟨hb.maps x, hfree x hx⟩
  unfold mapUserStack
  refine hmap.bind ?_
  rintro ⟨s', pt'⟩ ⟨hbooks, hs, hmaps, hkept⟩
  refine (addVmArea_pagetable _ _).bind fun mm' hmm' => .pure ?_
  simp only [hmm']
  refine ⟨hbooks, hs, fun x => ?_, hkept⟩
  rw [hmaps, hb.maps, Nat.zero_add]

/-- `do_execve` replaces the address space. -/
theorem replaceMm_books {m : Mem} {old new : Mm} {a : ExecArgs} {root : Nat}
    (h : Account m.phys rest keeps (fun no => pinned no ∨ no = root) tail tf old.pagetable)
    (hheads : ∀ hd t, tail hd t → 0 < old.pagetable.maps hd → 0 < old.pagetable.maps t)
    (hnew : new.pagetable = PageTable.zeroed root) (hc : (∃ hd t, tail hd t) → c)
    (hblock : a.pageNum ≠ 1 → c) :
    Meets (Unless c) (replaceMm m old new tf a) fun r => ∃ tail', (a.pageNum = 1 → tail' = tail) ∧
      Left rest keeps pinned tail tail' tf old.pagetable r.1.phys r.2.pagetable := by
  have hfew := pageNum_le a
  have hfew' : a.pageNum ≤ 512 := Nat.le_trans hfew (by decide)
  unfold replaceMm
  refine (h.books.allocUse hfew').bind ?_
  rintro ⟨s₁, ustack⟩ ⟨hbooks₁, hfresh⟩
  simp only at hbooks₁ hfresh ⊢
  -- the block is new, so the old table does not map its pages
  have huses : ∀ x, spread ustack a.pageNum x = 1 → rest x = 0 ∧ old.pagetable.maps x = 0 := by
    intro x hx
    have hzero : rest x + old.pagetable.maps x = 0 := (hfresh x hx).uses
    omega
  have hcases : ∀ x, spread ustack a.pageNum x = 0 ∨ spread ustack a.pageNum x = 1 := by
    intro x
    unfold spread
    split
    · exact .inr rfl
    · exact .inl rfl
  have hc' : (∃ hd t, withBlock tail ustack a.pageNum hd t) → c := by
    rintro ⟨hd, t, ht | ⟨-, hlo, hhi⟩⟩
    · exact hc ⟨hd, t, ht⟩
    · exact hblock (by omega)
  have hacc : Account s₁ (fun x => rest x + spread ustack a.pageNum x) keeps
      (fun no => pinned no ∨ no = root) (withBlock tail ustack a.pageNum) tf old.pagetable := by
    obtain ⟨hpage, htop, hblank, hpresent, hsingle, hsole⟩ := h.space
    refine ⟨Books.congr hbooks₁ (fun x => by omega) fun _ => rfl,
      ⟨hpage, htop, hblank, hpresent, hsingle, fun v no hleaf hw => ?_⟩, h.complete, h.tf⟩
    have hmaps := PageTable.maps_pos.mpr ⟨v, hleaf⟩
    rcases hcases no with h0 | h1
    · rw [hsole v no hleaf hw, h0]
    · have hzero := (huses no h1).2
      omega
  have hheads' : ∀ hd t, withBlock tail ustack a.pageNum hd t → 0 < old.pagetable.maps hd →
      0 < old.pagetable.maps t := by
    rintro hd t (ht | ⟨rfl, hlo, hhi⟩) hmaps
    · exact hheads hd t ht hmaps
    · have hself : spread hd a.pageNum hd = 1 := if_pos ⟨Nat.le_refl hd, by omega⟩
      have hzero := (huses hd hself).2
      omega
  refine (freePgtable_books hacc hc' hheads').bind ?_
  rintro s₂ ⟨hbooks₂, -⟩
  have hbare : Bare rest tf new.pagetable := by
    rw [hnew]
    exact .zeroed rest tf root
  have hbooks₂' : Books.With s₂ (fun x => rest x + spread ustack a.pageNum x) keeps pinned
      (withBlock tail ustack a.pageNum) new.pagetable := by
    refine hbooks₂.unpin ?_
    rintro no (hno | hno)
    · exact .inl hno
    · rw [hnew] at hno
      exact .inr (PageTable.holds_zeroed hno)
  refine (userBasicPagetable_books hbooks₂' hbare).bind ?_
  rintro ⟨s₃, pt₃⟩ ⟨hbooks₃, hbare₃, hcomplete₃⟩
  refine (mapUserStack_books { new with pagetable := pt₃ } hbooks₃ hbare₃
    (fun x hx => (huses x hx).1) hfew).bind ?_
  rintro ⟨s₄, mm'⟩ ⟨hbooks₄, hs₄, hmaps₄, hkept₄⟩
  refine (copyoutArgvEnvp_fails _ _ _ _ _ _).bind fun data _ => .pure ?_
  refine ⟨withBlock tail ustack a.pageNum, fun hone => ?_, ⟨?_, hs₄, ?_, h.tf⟩, ?_, ?_, ?_⟩
  · rw [hone]
    exact withBlock_one tail ustack
  · exact Books.congr hbooks₄ (fun x => by rw [hmaps₄]) fun _ => rfl
  · exact hkept₄.complete hcomplete₃
  · intro no hno
    rw [hmaps₄] at hno
    rcases hcases no with h0 | h1
    · omega
    · exact .inr (huses no h1).1
  · rintro hd t (ht | ⟨rfl, hlo, hhi⟩) hhd
    · rw [hmaps₄] at hhd
      rcases hcases hd with h0 | h1
      · omega
      · exact absurd ht ((hfresh hd h1).head t)
    · rw [hmaps₄]
      unfold spread
      rw [if_pos ⟨by omega, hhi⟩]
      exact Nat.one_pos
  · rintro hd t (ht | ⟨rfl, hlo, hhi⟩)
    · exact .inl ht
    · exact .inr (huses hd (if_pos ⟨Nat.le_refl hd, by omega⟩)).1

/-- `do_execve`, whether it gets to its END or not. -/
theorem doExecve_books {m : Mem} {a : ExecArgs}
    (h : Account m.phys rest keeps pinned tail tf mm.pagetable)
    (hheads : ∀ hd t, tail hd t → 0 < mm.pagetable.maps hd → 0 < mm.pagetable.maps t)
    (hc : (∃ hd t, tail hd t) → c) (hblock : a.pageNum ≠ 1 → c)
    (htramp : ¬ FetchesBelow a.fetches → c) :
    Meets (Unless c) (doExecve m mm tf a) fun r => ∃ tail', (a.pageNum = 1 → tail' = tail) ∧
      Left rest keeps pinned tail tail' tf mm.pagetable r.1.phys r.2.pagetable := by
  -- an account with more pages pinned is an account
  have hleft : ∀ {pinned' : Nat → Prop} {s : Buddy} {pt' : PageTable},
      (∀ no, pinned no → pinned' no) → Account s rest keeps pinned' tail tf pt' →
      Kept tail rest mm.pagetable pt' → Left rest keeps pinned tail tail tf mm.pagetable s pt' := by
    intro pinned' s pt' hsub ha hk
    refine h.left hheads ⟨ha.books.unpin ?_, ha.space, ha.complete, ha.tf⟩ hk
    exact fun no hno => hno.imp_left (hsub no)
  unfold doExecve
  refine (newMmStruct_books h.books a.stale).bind ?_
  rintro ⟨s₁, new⟩ ⟨hbooks₁, root, hroot⟩
  have hroot : new.pagetable = PageTable.zeroed root := hroot
  have h₁ : Account s₁ rest keeps (fun no => pinned no ∨ no = root) tail tf mm.pagetable := by
    refine ⟨hbooks₁.unpin ?_, h.space, h.complete, h.tf⟩
    rintro no ((hno | rfl) | hno)
    · exact .inl (.inl hno)
    · refine .inr ?_
      show new.pagetable.Holds no
      rw [hroot]
      exact .inl rfl
    · exact .inl (.inr hno)
  refine (loadElf_pagetable new a.image).bind fun o ho => ?_
  cases o with
  | none => exact .pure ⟨tail, fun _ => rfl, hleft (fun _ => .inl) h₁ (.refl _)⟩
  | some new' =>
    refine (fetchArgs_books hc a.fetches ⟨s₁, m.data⟩ mm htramp h₁).bind ?_
    rintro ⟨m₂, mm₂, fetched⟩ ⟨h₂, hkept₂⟩
    have hl₂ := h₁.left hheads h₂ hkept₂
    refine .ite (fun _ => ?_) fun _ => ?_
    · refine (replaceMm_books h₂ hl₂.heads ((ho new' rfl).trans hroot) hc hblock).mono ?_
      rintro r ⟨tail', hone, hl⟩
      refine ⟨tail', hone, hl.account, fun no hno => ?_, hl.heads, hl.elsewhere⟩
      rcases hl.gain no hno with hmid | hzero
      · exact hkept₂.gain no hmid
      · exact .inr hzero
    · exact .pure ⟨tail, fun _ => rfl, hleft (fun _ => .inl) h₂ hkept₂⟩

end Spaces

/-! ## Calls -/

theorem State.put_self (st : State) (m : Mem) (p : Pid) (o : Option Proc) :
    (st.put m p o).pcbtable p = o := Function.update_self ..

theorem State.put_of_ne (st : State) (m : Mem) {p q : Pid} (o : Option Proc) (h : q ≠ p) :
    (st.put m p o).pcbtable q = st.pcbtable q := Function.update_of_ne h ..

theorem State.put_rest (st : State) (m : Mem) (p : Pid) (o : Option Proc) (no : Nat) :
    (st.put m p o).rest p no = st.rest p no :=
  allBut_congr fun q hq => by rw [st.put_of_ne m o hq]

theorem State.put_keepsBut (st : State) (m : Mem) (p : Pid) (o : Option Proc) (no : Nat) :
    (st.put m p o).keepsBut p no = st.keepsBut p no :=
  congrArg (· + st.others.count no) (allBut_congr fun q hq => by rw [st.put_of_ne m o hq])

/-- The bound that keeps a count from wrapping. -/
theorem Accounts.few (h : Accounts extra tail st) (no : Nat) : st.mappings no ≤ NPROC := by
  have hone : ∀ p, procMaps (st.pcbtable p) no ≤ 1 := by
    intro p
    rcases hp : st.pcbtable p with _ | ⟨tf, _ | mm⟩
    · exact Nat.zero_le 1
    · exact Nat.zero_le 1
    · exact (h.space p tf mm hp).1.single no
  have hsum := total_le (fun p => procMaps (st.pcbtable p) no) hone
  rw [Fintype.card_fin, Nat.mul_one] at hsum
  exact hsum

theorem State.put_mappings (st : State) (m : Mem) (p : Pid) (o : Option Proc) (no : Nat) :
    (st.put m p o).mappings no = st.rest p no + procMaps o no := by
  rw [← (st.put m p o).rest_add p no, st.put_rest, st.put_self]

theorem State.put_keeps (st : State) (m : Mem) (p : Pid) (o : Option Proc) (no : Nat) :
    (st.put m p o).keeps no = st.keepsBut p no + procKeeps o no := by
  rw [← (st.put m p o).keepsBut_add p no, st.put_keepsBut, st.put_self]

/-- Parent and child after a fork. -/
theorem Accounts.forked (h : Accounts extra tail st) {q : Pid} {m : Mem} {tf' : Nat}
    {new : PageTable} {parent child : Mm} (hp : st.pcbtable p = some ⟨tf, some mm⟩)
    (hq : st.pcbtable q = none)
    (hf : Forked m.phys (st.rest p) (fun x => st.keeps x + one tf' x) (st.heldBut extra p) tail tf tf'
      mm.pagetable new parent.pagetable child.pagetable) :
    Accounts extra tail
      ((st.put m p (some ⟨tf, some parent⟩)).put m q (some ⟨tf', some child⟩)) := by
  have hqp : q ≠ p := by
    rintro rfl
    rw [hp] at hq
    cases hq
  let st₁ := st.put m p (some ⟨tf, some parent⟩)
  let st₂ := st₁.put m q (some ⟨tf', some child⟩)
  have hq₁ : st₁.pcbtable q = none := (st.put_of_ne m _ hqp).trans hq
  have hp₂ : st₂.pcbtable p = some ⟨tf, some parent⟩ :=
    (st₁.put_of_ne m _ (Ne.symm hqp)).trans (st.put_self ..)
  have hq₂ : st₂.pcbtable q = some ⟨tf', some child⟩ := st₁.put_self ..
  have hne₂ : ∀ r, r ≠ p → r ≠ q → st₂.pcbtable r = st.pcbtable r := by
    intro r hrp hrq
    exact (st₁.put_of_ne m _ hrq).trans (st.put_of_ne m _ hrp)
  -- the child was not there, so the rest beside it is all there was, with the parent as it is now
  have hrest₁ : ∀ x, st₁.rest q x = st.rest p x + parent.pagetable.maps x := by
    intro x
    have hsum := st₁.rest_add q x
    rw [hq₁, procMaps_none, Nat.add_zero, st.put_mappings, procMaps_some] at hsum
    exact hsum
  have hkeeps₁ : ∀ x, st₁.keepsBut q x = st.keeps x := by
    intro x
    have hsum := st₁.keepsBut_add q x
    rw [hq₁, procKeeps_none, Nat.add_zero, st.put_keeps, procKeeps_some] at hsum
    rw [hsum, ← st.keepsBut_add p x, hp, procKeeps_some]
  have hmappings : ∀ x, st₂.mappings x
      = st.rest p x + parent.pagetable.maps x + child.pagetable.maps x := by
    intro x
    show (st₁.put m q _).mappings x = _
    rw [st₁.put_mappings, hrest₁, procMaps_some]
  have hrestp : ∀ x, st₂.rest p x = st.rest p x + child.pagetable.maps x := by
    intro x
    have hsum := st₂.rest_add p x
    rw [hmappings, hp₂, procMaps_some] at hsum
    omega
  have hrestq : ∀ x, st₂.rest q x = st.rest p x + parent.pagetable.maps x := fun x =>
    (st₁.put_rest m q _ x).trans (hrest₁ x)
  show Accounts extra tail st₂
  refine h.step p ?_ ?_ ?_ ?_
  · refine Books.congr (hf.books.unpin ?_) hmappings fun x => ?_
    · rintro no (hx | ⟨r, hr⟩)
      · exact .inl (.inl (.inl hx))
      · by_cases hrp : r = p
        · rw [hrp, hp₂] at hr
          exact .inl (.inr hr)
        · by_cases hrq : r = q
          · rw [hrq, hq₂] at hr
            exact .inr hr
          · rw [hne₂ r hrp hrq] at hr
            exact .inl (.inl (.inr ⟨r, hrp, hr⟩))
    · show (st₁.put m q _).keeps x = _
      rw [st₁.put_keeps, hkeeps₁, procKeeps_some]
  · intro r tf'' mm' hr
    by_cases hrp : r = p
    · right
      rw [hrp, hp₂] at hr
      cases hr
      rw [hrp, funext hrestp]
      exact ⟨hf.old_space, hf.old_complete⟩
    · by_cases hrq : r = q
      · right
        rw [hrq, hq₂] at hr
        cases hr
        rw [hrq, funext hrestq]
        exact ⟨hf.new_space, hf.new_complete⟩
      · exact .inl ⟨hrp, (hne₂ r hrp hrq).symm⟩
  · intro r no hr
    by_cases hrp : r = p
    · rw [hrp, hp₂, procMaps_some, hf.old_maps] at hr
      right; left
      rw [hp]
      exact hr
    · by_cases hrq : r = q
      · rw [hrq, hq₂, procMaps_some, hf.new_maps] at hr
        right; left
        rw [hp]
        exact hr
      · rw [hne₂ r hrp hrq] at hr
        exact .inl hr
  · -- neither of the two maps a tail, so neither maps its head
    have hclear : ∀ hd t, tail hd t → mm.pagetable.maps hd = 0 := by
      intro hd t ht
      by_contra hpos
      have hheads := h.heads hd t ht p
      rw [hp] at hheads
      have hmaps : 0 < mm.pagetable.maps t := hheads (Nat.pos_of_ne_zero hpos)
      rw [hf.clear hd t ht] at hmaps
      exact Nat.lt_irrefl 0 hmaps
    intro hd t ht r hr
    by_cases hrp : r = p
    · rw [hrp, hp₂] at hr
      have hr : 0 < parent.pagetable.maps hd := hr
      rw [hf.old_maps, hclear hd t ht] at hr
      exact absurd hr (Nat.lt_irrefl 0)
    · by_cases hrq : r = q
      · rw [hrq, hq₂] at hr
        have hr : 0 < child.pagetable.maps hd := hr
        rw [hf.new_maps, hclear hd t ht] at hr
        exact absurd hr (Nat.lt_irrefl 0)
      · rw [hne₂ r hrp hrq] at hr ⊢
        exact h.heads hd t ht r hr

theorem Accounts.fork (h : Accounts extra tail st) (hp : st.pcbtable p = some ⟨tf, some mm⟩)
    (hc : (∃ hd t, tail hd t) → c) (stale : Mm) :
    Meets (Unless c) (doFork st.mem.phys mm stale) fun r => ∃ new, Bare (st.rest p) r.2.1 new ∧
      Forked r.1 (st.rest p) (fun x => st.keeps x + one r.2.1 x) (st.heldBut extra p) tail tf r.2.1
        mm.pagetable new r.2.2.2.pagetable r.2.2.1.pagetable := by
  have ha := h.account hp
  have hfew : ∀ x, st.rest p x + 3 < 65536 := by
    intro x
    have hle : st.mappings x ≤ 64 := h.few x
    have hsum := st.rest_add p x
    omega
  unfold doFork
  refine (allocproc_books ha.books (st.rest p) stale).bind ?_
  rintro ⟨s₁, tf', child⟩ ⟨hbooks₁, hbare, hcomplete⟩
  refine (uvmSpaceCopy_books hbooks₁ ha.space ha.complete hbare hcomplete hfew hc).bind ?_
  exact fun r hr => .pure ⟨child.pagetable, hbare, hr⟩

/-- Only what the pages contain has changed. -/
theorem Accounts.data (h : Accounts extra tail st) (data : Nat → Page) :
    Accounts extra tail { st with mem := { st.mem with data := data } } :=
  ⟨h.books, h.space, h.heads⟩

/-- What other subsystems hold has changed. -/
theorem Accounts.kernel (h : Accounts extra tail st) {s : Buddy} (held : List Nat)
    (hbooks : Books s st.mappings (State.keeps { st with others := held })
      (fun no => extra no ∨ ∃ p, procHolds (st.pcbtable p) no) tail) :
    Accounts extra tail { st with mem := { st.mem with phys := s }, others := held } :=
  ⟨hbooks, h.space, h.heads⟩

theorem State.keeps_cons (st : State) (page no : Nat) :
    State.keeps { st with others := page :: st.others } no = st.keeps no + one page no := by
  have hcount : (page :: st.others).count no = st.others.count no + one page no := by
    unfold one
    by_cases hno : no = page
    · rw [hno, List.count_cons_self, if_pos rfl]
    · rw [List.count_cons_of_ne (Ne.symm hno), if_neg hno, Nat.add_zero]
  unfold State.keeps
  rw [hcount, Nat.add_assoc]

theorem State.keeps_erase (st : State) {page : Nat} (h : page ∈ st.others) (no : Nat) :
    State.keeps { st with others := st.others.erase page } no + one page no = st.keeps no := by
  have hcount : (st.others.erase page).count no + one page no = st.others.count no := by
    by_cases hno : no = page
    · have hpos := List.count_pos_iff.mpr h
      rw [hno, List.count_erase_self, one_self]
      omega
    · rw [List.count_erase_of_ne hno, one_of_ne hno, Nat.add_zero]
  unfold State.keeps
  rw [Nat.add_assoc, hcount]

theorem sysBrk_pagetable (mm : Mm) (vaddr : Nat) :
    Meets (Unless c) (sysBrk mm vaddr) fun r => r.pagetable = mm.pagetable := by
  unfold sysBrk
  refine .ite (fun _ => .ok rfl) fun _ => ?_
  exact .ite (fun _ => .ok rfl) fun _ => .error unless_check

/-- A call that takes no more than one page for a stack, and reaches no trampoline. -/
def Modest : Op → Prop
  | .access _ vaddr size _ _ => (vaddr + size) % ADDRS ≤ TRAMPOLINE
  | .execve _ args => args.pageNum = 1 ∧ FetchesBelow args.fetches
  | _ => True

/-- One call keeps the accounts.  Only `execve` makes tails, for a stack of several pages. -/
theorem Accounts.call (h : Accounts extra tail st) (hc : (∃ hd t, tail hd t) → c) (op : Op)
    (hop : ¬ Modest op → c) :
    Meets (Unless c) (call st op) fun st' =>
      ∃ tail', (Modest op → tail' = tail) ∧ Accounts extra tail' st' := by
  have hsame : ∀ {st'}, Accounts extra tail st' →
      ∃ tail', (Modest op → tail' = tail) ∧ Accounts extra tail' st' :=
    fun h' => ⟨tail, fun _ => rfl, h'⟩
  cases op with
  | userInit p initpage stale =>
    simp only [Vm.call]
    split
    · exact .error unless_check
    · rename_i hp
      refine (userInit_books h.books initpage stale).bind ?_
      rintro ⟨m, tf, mm⟩ ⟨hbooks, hs, hcomplete, hnew⟩
      have hrest : ∀ x, st.rest p x = st.mappings x := by
        intro x
        have hsum := st.rest_add p x
        rw [hp, procMaps_none, Nat.add_zero] at hsum
        exact hsum
      have hkeeps : ∀ x, st.keepsBut p x = st.keeps x := by
        intro x
        have hsum := st.keepsBut_add p x
        rw [hp, procKeeps_none, Nat.add_zero] at hsum
        exact hsum
      refine .pure (hsame (h.put p _ m ?_ ?_ ?_ ?_ fun _ _ ht => .inl ht))
      · refine Books.congr (hbooks.unpin ?_) (fun x => ?_) fun x => ?_
        · rintro no ((hx | ⟨q, -, hq⟩) | hno)
          · exact .inl (.inl hx)
          · exact .inl (.inr ⟨q, hq⟩)
          · exact .inr hno
        · rw [hrest, procMaps_some]
        · rw [hkeeps, procKeeps_some]
      · intro tf' mm' heq
        cases heq
        rw [funext hrest]
        exact ⟨hs, hcomplete⟩
      · intro no hno
        exact .inr ((hrest no).trans (hnew no hno).1)
      · intro hd t ht hhd
        exact absurd ht ((hnew hd hhd).2 t)
  | fork p q stale =>
    refine meets_withMm unless_check fun tf mm hp => ?_
    split
    · exact .ok (hsame h)
    · rename_i hq
      refine (h.fork hp hc stale).bind ?_
      rintro r ⟨new, -, hf⟩
      exact .pure (hsame (h.forked (m := { st.mem with phys := r.1 }) hp hq hf))
  | access p vaddr size targetperm fill =>
    refine meets_withMm unless_check fun tf mm hp => ?_
    have htramp : TRAMPOLINE < (vaddr + size) % ADDRS → c := by
      intro hlt
      exact hop fun hle => absurd hle (Nat.not_le.mpr hlt)
    refine (verifyArea_books (h.account hp) hc mm.areas htramp targetperm fill).bind ?_
    rintro ⟨m, pt, res⟩ ⟨ha, hk⟩
    exact .pure (hsame (h.putMm hp ha hk))
  | store p vaddr byte =>
    refine meets_withMm unless_check fun tf mm _ => ?_
    exact .ok (hsame (h.data _))
  | copyout p dst src =>
    refine meets_withMm unless_check fun tf mm _ => ?_
    exact (copyout_fails _ _ dst src).bind fun r _ => .pure (hsame (h.data _))
  | brk p vaddr =>
    refine meets_withMm unless_check fun tf mm hp => ?_
    refine (sysBrk_pagetable mm vaddr).bind fun mm' hmm' => .pure (hsame (h.putMm hp ?_ ?_))
    · rw [hmm']
      exact h.account hp
    · rw [hmm']
      exact .refl _
  | execve p args =>
    refine meets_withMm unless_check fun tf mm hp => ?_
    have hheads : ∀ hd t, tail hd t → 0 < mm.pagetable.maps hd → 0 < mm.pagetable.maps t := by
      intro hd t ht
      have hheads := h.heads hd t ht p
      rw [hp] at hheads
      exact hheads
    refine (doExecve_books (h.account hp) hheads hc (fun hne => hop fun hm => hne hm.1)
      fun hne => hop fun hm => hne hm.2).bind ?_
    rintro r ⟨tail', hone, hl⟩
    exact .pure ⟨tail', fun hm => hone hm.1, h.leave hp hl⟩
  | exit p =>
    refine meets_withMm unless_check fun tf mm hp => ?_
    refine .ite (fun _ => .error unless_check) fun _ => ?_
    have hheads : ∀ hd t, tail hd t → 0 < mm.pagetable.maps hd → 0 < mm.pagetable.maps t := by
      intro hd t ht
      have hheads := h.heads hd t ht p
      rw [hp] at hheads
      exact hheads
    refine (freePgtable_books (h.account hp) hc hheads).bind ?_
    rintro s ⟨hbooks, -⟩
    refine .pure (hsame (h.put p _ { st.mem with phys := s } ?_ ?_ ?_ ?_ fun _ _ ht => .inl ht))
    · refine Books.congr (hbooks.unpin ?_) (fun x => ?_) fun x => ?_
      · rintro no (hno | hno)
        · exact hno
        · exact hno.elim
      · rw [procMaps_exited, Nat.add_zero]
      · rw [← st.keepsBut_add p x, hp, procKeeps_some, procKeeps_some]
    · intro tf mm heq
      cases (Proc.mk.inj (Option.some.inj heq)).2
    · intro no hno
      rw [procMaps_exited] at hno
      exact absurd hno (Nat.lt_irrefl 0)
    · intro hd t _ hhd
      rw [procMaps_exited] at hhd
      exact absurd hhd (Nat.lt_irrefl 0)
  | reap q =>
    simp only [Vm.call]
    split
    · rename_i tf hq
      have hkeeps : ∀ x, st.keepsBut q x + one tf x = st.keeps x := by
        intro x
        have hsum := st.keepsBut_add q x
        rw [hq, procKeeps_some] at hsum
        exact hsum
      refine (Books.free (Books.congr h.books (fun _ => rfl) hkeeps)).bind fun s hs => ?_
      refine .pure (hsame (h.put q _ { st.mem with phys := s } ?_ ?_ ?_ ?_
        fun _ _ ht => .inl ht))
      · refine Books.congr (hs.unpin ?_) (fun x => ?_) fun x => ?_
        · rintro no ((hx | ⟨r, -, hr⟩) | hno)
          · exact .inl hx
          · exact .inr ⟨r, hr⟩
          · exact hno.elim
        · rw [← st.rest_add q x, hq, procMaps_exited, procMaps_none]
        · rw [procKeeps_none, Nat.add_zero]
      · intro tf mm heq
        cases heq
      · intro no hno
        rw [procMaps_none] at hno
        exact absurd hno (Nat.lt_irrefl 0)
      · intro hd t _ hhd
        rw [procMaps_none] at hhd
        exact absurd hhd (Nat.lt_irrefl 0)
    · exact .error unless_check
  | kernelAlloc =>
    simp only [Vm.call]
    refine h.books.allocKeep.bind ?_
    rintro ⟨s, page⟩ ⟨hbooks, -⟩
    refine .pure (hsame (h.kernel (page :: st.others) ?_))
    exact Books.congr hbooks (fun _ => rfl) (st.keeps_cons page)
  | kernelFree page =>
    simp only [Vm.call]
    refine .ite (fun hmem => ?_) fun _ => .error unless_check
    have hbooks := Books.congr h.books (fun _ => rfl) (st.keeps_erase hmem)
    exact hbooks.free.bind fun s hs => .pure (hsame (h.kernel (st.others.erase page) hs))

/-! ## Runs -/

theorem accounts_boot (memEnd : Nat) (data : Nat → Page) :
    Accounts (fun _ => False) (fun _ _ => False) (boot memEnd data) := by
  have hempty : ∀ w : Option Proc → Nat → Nat, (∀ no, w none no = 0) → ∀ no,
      (RefCount.total fun p => w ((boot memEnd data).pcbtable p) no) = 0 := by
    intro w hw no
    rw [total_eq_zero]
    exact fun p => hw no
  have hmappings : ∀ no, (boot memEnd data).mappings no = 0 := hempty procMaps procMaps_none
  have hkeeps : ∀ no, (boot memEnd data).keeps no = 0 := by
    intro no
    unfold State.keeps
    rw [hempty procKeeps procKeeps_none no]
    show 0 + List.count no [] = 0
    rfl
  refine ⟨⟨fun _ => none, (buddySystemInit_inv memEnd).1, ?_, ?_, ?_, ?_⟩, ?_, ?_⟩
  · intro no hno
    rw [hmappings] at hno
    exact absurd hno (Nat.lt_irrefl 0)
  · intro no hno
    rw [hkeeps] at hno
    exact absurd hno (Nat.lt_irrefl 0)
  · rintro no (hf | ⟨p, hp⟩)
    · exact hf.elim
    · exact False.elim hp
  · exact fun _ _ hf => hf.elim
  · exact fun _ _ _ hp => nomatch hp
  · exact fun _ _ hf => hf.elim

/-- Without tails the invariant holds in every run of modest calls. -/
theorem accounts_reaches {memEnd : Nat} {data : Nat → Page}
    (hr : Reaches Step (fun _ => Modest) (boot memEnd data) st) :
    Accounts (fun _ => False) (fun _ _ => False) st := by
  refine hr.invariant (accounts_boot memEnd data) fun a op b ha hop hs => ?_
  have hnone : (∃ hd t : Nat, (fun _ _ : Nat => False) hd t) → False := fun ⟨_, _, hf⟩ => hf
  obtain ⟨tail', hsame, hb⟩ := (ha.call hnone op fun hnot => hnot hop).of_ok hs
  rw [hsame hop] at hb
  exact hb

/-- In every run of modest calls, the count of each page that user page tables map is the number of
    the entries that map it, and no modest call fails an assertion on a count. -/
theorem pageCounts_ok {memEnd : Nat} {data : Nat → Page}
    (hr : Reaches Step (fun _ => Modest) (boot memEnd data) st) :
    (∀ no, 0 < st.mappings no → (st.mem.phys.record no).count = st.mappings no) ∧
      ∀ op, Modest op → call st op ≠ .error .count := by
  have h := accounts_reaches hr
  refine ⟨fun no hno => h.books.count hno fun _ hf => hf, fun op hop hfail => ?_⟩
  have hnone : (∃ hd t : Nat, (fun _ _ : Nat => False) hd t) → False := fun ⟨_, _, hf⟩ => hf
  exact (h.call hnone op fun hnot => hnot hop).of_error hfail rfl

/-- The first process executes `sh` and forks. -/
def execFork : List Op :=
  [.userInit 1 (fun _ => 0) blankMm,
   .execve 1 ⟨twoSegments, [], ⟨[[115, 104, 0]], by decide, by decide⟩, noStrings, blankMm,
     fun _ _ => 0⟩,
   .fork 1 2 blankMm]

/-- The entry of a process at an address. -/
def pteAt (st : State) (p : Pid) (va : Nat) : Pte :=
  match st.pcbtable p with
  | some ⟨_, some mm⟩ => mm.pagetable.pte (vpn va)
  | _ => Pte.zero

theorem mappings_pos {no va : Nat} (h : (pteAt st p va).leaf = some no) : 0 < st.mappings no := by
  have hmaps : 0 < procMaps (st.pcbtable p) no := by
    unfold pteAt at h
    rcases hp : st.pcbtable p with _ | ⟨tf, _ | mm⟩ <;> rw [hp] at h
    · exact nomatch Pte.leaf_zero.symm.trans h
    · exact nomatch Pte.leaf_zero.symm.trans h
    · exact PageTable.maps_pos.mpr ⟨_, h⟩
  exact Nat.lt_of_lt_of_le hmaps (le_total (fun p => procMaps (st.pcbtable p) no) p)

set_option maxRecDepth 100000 in
/-- Parent and child share the stack of the program. -/
theorem pageCounts_ok_execFork : ∃ st, Reaches Step (fun _ => Modest) smallBoot st ∧
    st.mappings 8 = 2 ∧ ∀ op, Modest op → call st op ≠ .error .count := by
  have hrun : Leads nextCall smallBoot execFork fun st =>
      (pteAt st 2 (USER_STACK_TOP - PGSIZE)).leaf = some 8 ∧ (st.mem.phys.record 8).count = 2 := by
    decide +kernel
  have hmodest : ∀ op ∈ execFork, ∀ _ : State, Modest op := by
    intro op hop _
    simp only [execFork, List.mem_cons, List.not_mem_nil, or_false] at hop
    rcases hop with rfl | rfl | rfl
    · trivial
    · -- one argument takes one page, and nothing is fetched
      exact ⟨by decide, nofun⟩
    · trivial
  obtain ⟨st, hreach, hleaf, hcount⟩ :=
    hrun.reaches_of_mem Step (fun _ => Modest) hmodest nextCall_step
  obtain ⟨hcounts, hasserts⟩ := pageCounts_ok hreach
  exact ⟨st, hreach, (hcounts 8 (mappings_pos hleaf)).symm.trans hcount, hasserts⟩

/-- Sixty arguments, each as long as can be. -/
def longArgv : ArgVec := by
  refine ⟨List.replicate 60 (List.replicate 64 97), by decide, fun str hstr => ?_⟩
  rw [List.eq_of_mem_replicate hstr]
  decide

def longExec : List Op :=
  [.userInit 1 (fun _ => 0) blankMm,
   .execve 1 ⟨twoSegments, [], longArgv, noStrings, blankMm, fun _ _ => 0⟩]

set_option maxRecDepth 100000 in
/-- The stack takes two pages, and the second has no count: the next fork fails. -/
theorem pageCounts_long : ∃ st, Reaches Step anyInput smallBoot st ∧
    (∃ no, 0 < st.mappings no ∧ (st.mem.phys.record no).count ≠ st.mappings no) ∧
      call st (.fork 1 2 blankMm) = .error .count := by
  have hrun : Leads nextCall smallBoot longExec fun st =>
      (pteAt st 1 (USER_STACK_TOP - PGSIZE)).leaf = some 9 ∧ (st.mem.phys.record 9).count = 0 ∧
        (match call st (.fork 1 2 blankMm) with
          | .error .count => true
          | _ => false) = true := by
    decide +kernel
  obtain ⟨st, hreach, hleaf, hcount, hfork⟩ :=
    hrun.reaches_of_mem Step anyInput (fun _ _ _ => trivial) nextCall_step
  have hpos := mappings_pos hleaf
  refine ⟨st, hreach, ⟨9, hpos, by omega⟩, ?_⟩
  split at hfork
  · assumption
  · cases hfork

end Uniks.Vm
