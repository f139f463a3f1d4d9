/-
  What a process does not give back.

  `free_pgtable` says that it frees the pages of the table after those of the user, and frees only
  the latter.  So the page of the top table that `fork` takes for the child, which was free before
  (`doFork_root`), stays handed out in every later state: `Accounts` lets a table belong to nobody
  (`extra`), and no call gives such a page back (`root_stays`).
-/
import Uniks.PageCount

namespace Uniks.Vm

open Uniks.Phys Uniks.Dyadic Uniks.Hoare Uniks.RefCount Uniks.Runs

/-! ## Free pages -/

/-- The page lies in a block on one of the order lists. -/
def Free (s : Buddy) (no : Nat) : Prop := ∃ k, k < 11 ∧ ∃ a ∈ s.orderarray k, Covers a k no

instance (a k no : Nat) : Decidable (Covers a k no) := inferInstanceAs (Decidable (_ ∧ _))

instance (s : Buddy) (no : Nat) : Decidable (Free s no) :=
  inferInstanceAs (Decidable (∃ k, k < 11 ∧ ∃ a ∈ s.orderarray k, Covers a k no))

variable {s s' : Buddy} {live : Live} {page no : Nat}

/-- A page is free if it is there and in no block handed out. -/
theorem free_iff (h : BuddyInv s live none) :
    Free s no ↔ no < s.memEnd ∧ ∀ a b, live a = some b → ¬ Covers a b.order no := by
  constructor
  · rintro ⟨k, -, a, ha, hcov⟩
    have hfits := h.tiling.fits a k (Tile.ofFree ha)
    refine ⟨Nat.lt_of_lt_of_le hcov.2 hfits, fun a' b hb hcov' => ?_⟩
    have hsame := h.tiling.apart a k a' b.order no (Tile.ofFree ha) (Tile.ofLive hb) hcov hcov'
    rw [← hsame.1, h.free_not_live a k ha] at hb
    cases hb
  · rintro ⟨hlt, hnone⟩
    rcases h.tiling.cover no hlt with ⟨a, k, hfree | ⟨refs, hlive⟩ | hhand, hcov⟩
    · have hk := h.orders a k hfree
      exact ⟨k, by omega, a, hfree, hcov⟩
    · exact absurd hcov (hnone a ⟨k, refs⟩ hlive)
    · cases hhand

/-- The page that `pages_alloc` hands out was free, and all that are free after it were. -/
theorem pagesAlloc_free (h : BuddyInv s live none) (ha : pagesAlloc s 1 = .ok (s', page)) :
    Free s page ∧ (∀ x, Free s' x → Free s x) ∧ ∃ live', BuddyInv s' live' none := by
  have ha' : Phys.pagesAlloc s 1 = some (s', page) := by
    unfold Vm.pagesAlloc at ha
    split at ha
    case h_1 r hr =>
      rw [hr]
      exact congrArg some (Except.ok.inj ha)
    case h_2 => cases ha
  rcases h.pagesAlloc (Nat.le_refl 9) (fun order ho => getPower2_le ho (by decide)) ha' with
    ⟨order, -, hnone, hend, h'⟩
  have hkept : ∀ a b, live a = some b →
      Function.update live page (some ⟨order, 1⟩) a = some b := by
    intro a b hb
    have hne : a ≠ page := by
      rintro rfl
      rw [hnone] at hb
      cases hb
    rw [Function.update_of_ne hne]
    exact hb
  have hpage : Function.update live page (some ⟨order, 1⟩) page = some ⟨order, 1⟩ :=
    Function.update_self ..
  refine ⟨(free_iff h).mpr ⟨?_, fun a b hb hcov => ?_⟩, fun x hx => ?_, _, h'⟩
  · have hfits := h'.tiling.fits page order (Tile.ofLive hpage)
    have hpos := Nat.two_pow_pos order
    omega
  · have hsame := h'.tiling.apart a b.order page order page (Tile.ofLive (hkept a b hb))
      (Tile.ofLive hpage) hcov (covers_self page order)
    rw [hsame.1, hnone] at hb
    cases hb
  · rcases (free_iff h').mp hx with ⟨hlt, hclear⟩
    exact (free_iff h).mpr ⟨hend ▸ hlt, fun a b hb => hclear a b (hkept a b hb)⟩

/-! ## The top table of a child -/

theorem enterMid_root (s : Buddy) (pt : PageTable) (i : Idx) :
    Meets (fun _ => True) (enterMid s pt i) fun r => r.2.root = pt.root := by
  unfold enterMid
  split
  · exact .ok rfl
  · exact .after fun r => .pure rfl

theorem enterLow_root (s : Buddy) (pt : PageTable) (i j : Idx) :
    Meets (fun _ => True) (enterLow s pt i j) fun r => r.2.root = pt.root := by
  unfold enterLow
  split
  · exact .ok rfl
  · exact .after fun r => .pure rfl

theorem walk_root (s : Buddy) (pt : PageTable) (va : Nat) :
    Meets (fun _ => True) (walk s pt va) fun r => r.2.root = pt.root := by
  unfold walk
  refine .ite (fun _ => ?_) fun _ => .error trivial
  refine (enterMid_root s pt _).bind fun r hr => ?_
  exact (enterLow_root r.1 r.2 _ _).mono fun r' hr' => hr'.trans hr

theorem mappagesLoop_root (va : Nat) (perm : Perm) (n : Nat) (s : Buddy) (pt : PageTable) (a : Nat)
    (pa : Frame) :
    Meets (fun _ => True) (mappagesLoop va perm n s pt a pa) fun r => r.2.root = pt.root := by
  induction n generalizing s pt a pa with
  | zero => exact .ok rfl
  | succ n ih =>
    unfold mappagesLoop
    refine (walk_root s pt a).bind fun r hr => ?_
    refine .ite (fun _ => .error trivial) fun _ => ?_
    exact (ih r.1 _ (a + PGSIZE) pa.next).mono fun r' hr' => hr'.trans hr

theorem mappages_root (s : Buddy) (pt : PageTable) (va size : Nat) (pa : Frame) (perm : Perm) :
    Meets (fun _ => True) (mappages s pt va size pa perm) fun r => r.2.root = pt.root := by
  unfold mappages
  exact .ite (fun _ => .error trivial) fun _ => mappagesLoop_root ..

theorem userBasicPagetable_root (s : Buddy) (pt : PageTable) (tf : Nat) :
    Meets (fun _ => True) (userBasicPagetable s pt tf) fun r => r.2.root = pt.root := by
  unfold userBasicPagetable
  refine (mappages_root s pt _ _ _ _).bind fun r hr => ?_
  exact (mappages_root r.1 r.2 _ _ _ _).mono fun r' hr' => hr'.trans hr

theorem copyLow_root (perm : Perm) (i j : Idx) (c : Copy) :
    Meets (fun _ => True) (copyLow perm i j c) fun r => r.new.root = c.new.root := by
  unfold copyLow
  refine .foldlM (fun _ (cp : Copy) => cp.new.root = c.new.root) rfl fun _ k _ cp _ hcp => ?_
  unfold copyEntry
  refine .ite (fun _ => .ok hcp) fun _ => ?_
  exact .ite (fun _ => .after fun r => .pure hcp) fun _ => .ok hcp

theorem copyMid_root (perm : Perm) (i : Idx) (c : Copy) :
    Meets (fun _ => True) (copyMid perm i c) fun r => r.new.root = c.new.root := by
  unfold copyMid
  refine .foldlM (fun _ (cp : Copy) => cp.new.root = c.new.root) rfl fun _ j _ cp _ hcp => ?_
  refine .ite (fun _ => ?_) fun _ => .ok hcp
  refine (enterLow_root cp.phys cp.new i j).bind fun r hr => ?_
  exact (copyLow_root perm i j _).mono fun r' hr' => hr'.trans (hr.trans hcp)

theorem copyPgtable_root (perm : Perm) (c : Copy) :
    Meets (fun _ => True) (copyPgtable perm c) fun r => r.new.root = c.new.root := by
  unfold copyPgtable
  refine .foldlM (fun _ (cp : Copy) => cp.new.root = c.new.root) rfl fun _ i _ cp _ hcp => ?_
  refine .ite (fun _ => ?_) fun _ => .ok hcp
  refine (enterMid_root cp.phys cp.new i).bind fun r hr => ?_
  exact (copyMid_root perm i _).mono fun r' hr' => hr'.trans (hr.trans hcp)

/-- The top table of the child lies in a page that was free. -/
theorem doFork_root (h : BuddyInv s live none) (parent stale : Mm) :
    Meets (fun _ => True) (doFork s parent stale) fun r => Free s r.2.2.1.pagetable.root := by
  have halloc : ∀ {s : Buddy} {live : Live}, BuddyInv s live none →
      Meets (fun _ => True) (pagesAlloc s 1) fun r =>
        Free s r.2 ∧ (∀ x, Free r.1 x → Free s x) ∧ ∃ live', BuddyInv r.1 live' none :=
    fun h => .partial_intro fun r hr => pagesAlloc_free h hr
  have hproc : Meets (fun _ => True) (allocproc s stale) fun r => Free s r.2.2.pagetable.root := by
    unfold allocproc
    refine (halloc h).bind ?_
    rintro ⟨s₁, tf⟩ ⟨-, hback, live₁, h₁⟩
    have hnew : Meets (fun _ => True) (newMmStruct s₁ stale) fun r =>
        Free s₁ r.2.pagetable.root := by
      have hcreate : Meets (fun _ => True) (uvmcreate s₁) fun r => Free s₁ r.2.root := by
        unfold uvmcreate
        exact (halloc h₁).bind fun r hr => .pure hr.1
      unfold newMmStruct
      exact hcreate.bind fun r hr => .pure hr
    refine hnew.bind fun r hr => ?_
    refine (userBasicPagetable_root r.1 r.2.pagetable tf).bind fun r' hr' => .pure ?_
    show Free s r'.2.root
    rw [hr']
    exact hback _ hr
  have hcopy : ∀ (s : Buddy) (new : Mm), Meets (fun _ => True) (uvmSpaceCopy s new parent) fun r =>
      r.2.1.pagetable.root = new.pagetable.root := by
    intro s new
    unfold uvmSpaceCopy
    exact (copyPgtable_root PTE_W _).bind fun c hc => .pure hc
  unfold doFork
  refine hproc.bind fun r hr => ?_
  refine (hcopy r.1 r.2.2).bind fun r' hr' => .pure ?_
  show Free s r'.2.1.pagetable.root
  rw [hr']
  exact hr

/-! ## Runs -/

variable {extra : Nat → Prop} {tail : Nat → Nat → Prop} {st st₁ st' : State} {c : Pid} {root : Nat}

/-- What belongs to a table is not free. -/
theorem Accounts.not_free (h : Accounts extra tail st) (hno : extra no) :
    ¬ Free st.mem.phys no := by
  rcases h.books with ⟨live, hinv, hl⟩
  rcases (hl.pins no (.inl hno)).2.2 with ⟨k, hk⟩
  intro hfree
  exact ((free_iff hinv).mp hfree).2 no ⟨k, 1⟩ hk (covers_self no k)

/-- A page of a table stays one when its process does not have it any more. -/
theorem Accounts.leak (h : Accounts extra tail st) (hno : procHolds (st.pcbtable c) root) :
    Accounts (fun no => no = root) tail st := by
  refine ⟨h.books.unpin ?_, h.space, h.heads⟩
  rintro no (rfl | hp)
  · exact .inr ⟨c, hno⟩
  · exact .inr hp

/-- Every state has its accounts; there may be tails. -/
theorem accounts_run (h : Accounts extra tail st) (hr : Reaches Step anyInput st st') :
    ∃ tail', Accounts extra tail' st' := by
  refine hr.invariant (I := fun s => ∃ t, Accounts extra t s) ⟨tail, h⟩ fun a op b ha _ hs => ?_
  rcases ha with ⟨t, ha⟩
  rcases (ha.call (c := True) (fun _ => trivial) op fun _ => trivial).of_ok hs with ⟨t', -, hb⟩
  exact ⟨t', hb⟩

/-- The page of the top table of a process is never free again. -/
theorem root_stays (h : Accounts extra tail st) (hno : procHolds (st.pcbtable c) root)
    (hr : Reaches Step anyInput st st') : ¬ Free st'.mem.phys root := by
  rcases accounts_run (h.leak hno) hr with ⟨tail', h'⟩
  exact h'.not_free rfl

/-- What a process has: the page of its kernel stack, the pages of its tables, and those it maps. -/
def HasPage : Option Proc → Nat → Prop := fun proc no =>
  0 < procKeeps proc no ∨ procHolds proc no ∨ 0 < procMaps proc no

/-- The life of a process, from its fork to its reaping; meanwhile it and the others do anything. -/
structure Life (c : Pid) (st st₁ st' : State) : Prop where
  unborn : st.pcbtable c = none
  born : ∃ p stale, Step st (.fork p c stale) st₁
  lives : ∃ st₂, Reaches Step anyInput st₁ st₂ ∧ Step st₂ (.reap c) st'

/-- What the process had at first is free after its life if and only if it was free before. -/
def Conserved (c : Pid) (st st₁ st' : State) : Prop :=
  ∀ no, HasPage (st₁.pcbtable c) no → (Free st'.mem.phys no ↔ Free st.mem.phys no)

/-- The child of a fork has a top table, in a page that was free. -/
theorem fork_root (h : Accounts extra tail st) {p : Pid} {stale : Mm} (hc : st.pcbtable c = none)
    (hs : Step st (.fork p c stale) st₁) :
    ∃ root, procHolds (st₁.pcbtable c) root ∧ Free st.mem.phys root := by
  rcases h.books with ⟨live, hinv, -⟩
  have hcall : withMm st p _ = .ok st₁ := hs
  rcases withMm_ok hcall with ⟨tf, mm, hp, hcall⟩
  rw [hc] at hcall
  dsimp only at hcall
  cases hfork : doFork st.mem.phys mm stale with
  | error e =>
    rw [hfork] at hcall
    cases hcall
  | ok r =>
    rw [hfork, ok_bind] at hcall
    cases hcall
    refine ⟨r.2.2.1.pagetable.root, ?_, (doFork_root hinv mm stale).of_ok hfork⟩
    rw [State.put_self]
    exact .inl rfl

theorem Life.not_conserved (hlife : Life c st st₁ st') (h : Accounts extra tail st) :
    ¬ Conserved c st st₁ st' := by
  rcases hlife with ⟨hc, ⟨p, stale, hfork⟩, st₂, hrun, hreap⟩
  rcases fork_root h hc hfork with ⟨root, hroot, hfree⟩
  rcases (h.call (c := True) (fun _ => trivial) _ fun _ => trivial).of_ok hfork with ⟨tail₁, -, h₁⟩
  intro hcons
  have hrun' : Reaches Step anyInput st₁ st' := hrun.snoc trivial hreap
  exact root_stays h₁ hroot hrun' ((hcons root (.inr (.inl hroot))).mpr hfree)

/-- No process that is forked, exits and is reaped gives back all it has taken. -/
theorem page_conservation {memEnd : Nat} {data : Nat → Page}
    (hr : Reaches Step anyInput (boot memEnd data) st) (hlife : Life c st st₁ st') :
    ¬ Conserved c st st₁ st' := by
  rcases accounts_run (accounts_boot memEnd data) hr with ⟨tail, h⟩
  exact hlife.not_conserved h

/-! ## A short life -/

set_option maxRecDepth 100000 in
/-- The first process forks, and its child exits. -/
theorem short_life : ∃ st st₁ st', Reaches Step anyInput smallBoot st ∧ Life 2 st st₁ st' := by
  have hrun : Leads nextCall smallBoot [.userInit 1 (fun _ => 0) blankMm] fun st =>
      (st.pcbtable 2).isNone ∧ ∃ st₁ ∈ nextCall st (.fork 1 2 blankMm),
        ∃ st₂ ∈ nextCall st₁ (.exit 2), ∃ st' ∈ nextCall st₂ (.reap 2), True := by
    decide +kernel
  rcases hrun.reaches_of_mem Step anyInput (fun _ _ _ => trivial) nextCall_step with
    ⟨st, hreach, hnone, st₁, hfork, st₂, hexit, st', hreap, -⟩
  exact ⟨st, st₁, st', hreach, Option.isNone_iff_eq_none.mp hnone,
    ⟨1, blankMm, nextCall_step _ _ _ hfork⟩,
    ⟨st₂, Reaches.refl.snoc trivial (nextCall_step _ _ _ hexit), nextCall_step _ _ _ hreap⟩⟩

theorem page_conservation_short : ∃ st st₁ st', Reaches Step anyInput smallBoot st ∧
    Life 2 st st₁ st' ∧ ¬ Conserved 2 st st₁ st' := by
  rcases short_life with ⟨st, st₁, st', hr, hlife⟩
  exact ⟨st, st₁, st', hr, hlife, page_conservation hr hlife⟩

/-- So it is not true that every process gives back what it has taken. -/
theorem pages_lost : ¬ ∀ st st₁ st' c, Reaches Step anyInput smallBoot st →
    Life c st st₁ st' → Conserved c st st₁ st' := by
  intro h
  rcases short_life with ⟨st, st₁, st', hr, hlife⟩
  rcases accounts_run (accounts_boot 16 _) hr with ⟨tail, hacc⟩
  exact hlife.not_conserved hacc (h st st₁ st' 2 hr hlife)

end Uniks.Vm
