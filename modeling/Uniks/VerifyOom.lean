/-
  `verify_area` when the memory runs out.

  The result of `do_no_page` and `do_wp_page` goes into a `uint32_t`, which is never negative: that
  they found no page is not noticed, and the loop goes on.  Only NULL from `walk` makes the call
  answer -2.  And `do_wp_page` takes a reference away before it asks for the page of the copy, so a
  copy that fails leaves a count that is too low.

  `needs` is what a call asks for, in order, as long as it is served.  It can be told from the state
  before the call: a page is mapped once in a table, so serving one entry changes nothing for
  another, and the tables of one page are there for the next.
-/
import Uniks.Exhaustion
import Uniks.PageCount

namespace Uniks.Oom

open Uniks.Phys Uniks.Vm Uniks.Hoare Uniks.Runs
open Function (update update_idem update_self update_of_ne update_eq_self)

/-! ## What a call asks for -/

inductive Need where
  /-- A page of a page table, in `walk`. -/
  | table
  /-- The page in `do_no_page`. -/
  | page
  /-- The copy in `do_wp_page`. -/
  | copy
  deriving DecidableEq, Repr

/-- A page with more than one reference. -/
def shared (s : Buddy) : Frame → Bool
  | .page no => decide (1 < (s.record no).count)
  | _ => false

/-- What an entry asks for. -/
def entryNeeds (s : Buddy) (pt : PageTable) (targetperm : Perm) (v : Vpn) : List Need :=
  if grants (pt.pte v).perm targetperm then []
  else if (pt.pte v).valid then
    if shared s (pt.pte v).paddr then [.copy] else []
  else [.page]

/-- What `pages_undup` asserts of its page: it has a record, and is in use. -/
def undups (s : Buddy) : Frame → Bool
  | .page no => decide (1 ≤ (s.record no).count)
  | _ => false

/-- An entry at which no assertion stops the call. -/
def passes (s : Buddy) (pt : PageTable) (targetperm : Perm) (v : Vpn) : Bool :=
  grants (pt.pte v).perm targetperm || (!(pt.pte v).valid || undups s (pt.pte v).paddr)

/-- What a table asks for that may be there. -/
def tableNeeds (there : Bool) : List Need := if there then [] else [.table]

/-- What the loop asks for, up to an assertion that fails; `mid` and `low` say which tables are
    there. -/
def needs (entry : Vpn → List Need) (pass : Vpn → Bool) (endVaddr va : Nat) (mid : Idx → Bool)
    (low : Idx → Idx → Bool) : List Need :=
  if va < endVaddr then
    let v := vpn va
    tableNeeds (mid v.1) ++ tableNeeds (low v.1 v.2.1) ++ entry v ++
      if pass v then
        needs entry pass endVaddr (va + PGSIZE) (update mid v.1 true)
          (update low v.1 (update (low v.1) v.2.1 true))
      else []
  else []
termination_by endVaddr - va
decreasing_by
  have hpos : 0 < PGSIZE := by decide
  omega

/-- What a call of `verify_area` asks for. -/
def callNeeds (s : Buddy) (pt : PageTable) (vaddr size : Nat) (targetperm : Perm) : List Need :=
  needs (entryNeeds s pt targetperm) (passes s pt targetperm)
    (min ((vaddr + size) % ADDRS) MAXVA) (pgRoundDown vaddr)
    (fun i => (pt.mid i).isSome) fun i j => (pt.low i j).isSome

/-- A page of a table is asked for, and no copy before it. -/
def tableFirst : List Need → Bool
  | [] => false
  | .table :: _ => true
  | .page :: rest => tableFirst rest
  | .copy :: _ => false

/-- The answer is -2, no entry maps the physical page 0, no lock is held, the pages that were in use
    have their contents, and the counts are those of the mappings. -/
structure FailsCleanly (rest : Nat → Nat) (tail : Nat → Nat → Prop) (m : PhysMem) (pt : PageTable)
    (m' : PhysMem) (pt' : PageTable) (ret : Int) : Prop where
  ret : ret = -2
  null : ∀ v, (pt'.pte v).valid = true → (pt'.pte v).paddr ≠ .null
  locks : ∀ no, m'.pglock no = false
  content : ∀ no, 0 < rest no + pt.maps no → m'.data no = m.data no
  count : ∀ no, 0 < rest no + pt'.maps no → (∀ hd, ¬ tail hd no) →
    (m'.phys.record no).count = rest no + pt'.maps no

variable {s s' : Buddy} {keeps rest : Nat → Nat} {pinned : Nat → Prop} {tail : Nat → Nat → Prop}
  {tf : Nat} {m m' m'' : PhysMem} {pt pt' pt'' : PageTable} {v : Vpn} {targetperm : Perm}
  {fill : Nat → Page}

theorem tableNeeds_length (there : Bool) : (tableNeeds there).length = lacking there := by
  cases there <;> rfl

theorem entryNeeds_length (s : Buddy) (pt : PageTable) (targetperm : Perm) (v : Vpn) :
    (entryNeeds s pt targetperm v).length ≤ 1 := by
  unfold entryNeeds
  split
  · exact Nat.zero_le 1
  · split
    · split
      · exact Nat.le_refl 1
      · exact Nat.zero_le 1
    · exact Nat.le_refl 1

/-- A page that several entries use, and that is not the inside of a block. -/
theorem shared_iff (h : Account s rest keeps pinned tail tf pt) (hvalid : (pt.pte v).valid = true) :
    shared s (pt.pte v).paddr = true ↔
      ∃ no, (pt.pte v).leaf = some no ∧ (∀ hd, ¬ tail hd no) ∧ 0 < rest no := by
  cases hmine : (pt.pte v).unrelease with
  | true =>
    have hnone := Pte.leaf_unrelease hmine
    constructor
    · intro hshared
      -- the trampoline has no record, and the trapframe is the process's own
      rcases h.space.top v hmine with ⟨hpaddr, -⟩ | ⟨hpaddr, -⟩
      · rw [hpaddr] at hshared
        cases hshared
      · obtain ⟨live, hinv, hl⟩ := h.books
        obtain ⟨-, -, k, hk⟩ := hl.kept tf h.tf
        rw [hpaddr, shared, hinv.live_record tf _ hk] at hshared
        exact absurd (of_decide_eq_true hshared) (Nat.lt_irrefl 1)
    · rintro ⟨no, hleaf, -⟩
      rw [hnone] at hleaf
      cases hleaf
  | false =>
    obtain ⟨no, others, hpaddr, hleaf, hsplit, hrest⟩ := h.usedAt hvalid hmine
    have hpos : 0 < rest no + pt.maps no := by
      have := hsplit no
      rw [one_self] at this
      omega
    rw [hpaddr, shared, decide_eq_true_iff]
    constructor
    · intro hmany
      have htail : ∀ hd, ¬ tail hd no := by
        intro hd ht
        rw [h.books.tail_count ht] at hmany
        exact absurd hmany (Nat.not_lt_zero 1)
      rw [h.books.count hpos htail] at hmany
      have hone := h.space.single no
      exact ⟨no, hleaf, htail, by omega⟩
    · rintro ⟨no', hleaf', htail, hrest'⟩
      rw [hleaf] at hleaf'
      cases hleaf'
      rw [h.books.count hpos htail]
      have := hsplit no
      rw [one_self] at this
      omega

/-- What an entry asks for depends on the entry, and not on what has been served. -/
theorem entryNeeds_congr (h : Account s rest keeps pinned tail tf pt)
    (h' : Account s' rest keeps pinned tail tf pt') (hpte : pt'.pte v = pt.pte v) :
    entryNeeds s' pt' targetperm v = entryNeeds s pt targetperm v := by
  unfold entryNeeds
  rw [hpte]
  split
  · rfl
  · split
    · rename_i hvalid
      have hvalid' : (pt'.pte v).valid = true := by
        rw [hpte]
        exact hvalid
      have hsame : shared s' (pt.pte v).paddr = shared s (pt.pte v).paddr := by
        rw [← hpte, Bool.eq_iff_iff, shared_iff h' hvalid', hpte, shared_iff h hvalid]
      rw [hsame]
    · rfl

theorem undups_used (h : Account s rest keeps pinned tail tf pt) {no : Nat}
    (hno : 0 < rest no + pt.maps no) : undups s (.page no) = true ↔ ∀ hd, ¬ tail hd no := by
  rw [undups, decide_eq_true_iff]
  constructor
  · intro hpos hd ht
    rw [h.books.tail_count ht] at hpos
    exact absurd hpos (Nat.not_succ_le_zero 0)
  · intro htail
    rw [h.books.count hno htail]
    exact hno

theorem undups_congr (h : Account s rest keeps pinned tail tf pt)
    (h' : Account s' rest keeps pinned tail tf pt') (hpte : pt'.pte v = pt.pte v)
    (hvalid : (pt.pte v).valid = true) :
    undups s' (pt.pte v).paddr = undups s (pt.pte v).paddr := by
  have htf : ∀ {s pt}, Account s rest keeps pinned tail tf pt → undups s (.page tf) = true := by
    intro s pt h
    obtain ⟨live, hinv, hl⟩ := h.books
    obtain ⟨-, -, k, hk⟩ := hl.kept tf h.tf
    rw [undups, hinv.live_record tf _ hk]
    rfl
  cases hmine : (pt.pte v).unrelease with
  | true =>
    rcases h.space.top v hmine with ⟨hpaddr, -⟩ | ⟨hpaddr, -⟩
    · rw [hpaddr]
      rfl
    · rw [hpaddr, htf h, htf h']
  | false =>
    obtain ⟨no, -, hpaddr, hleaf, -, -⟩ := h.usedAt hvalid hmine
    have hmaps : 0 < pt.maps no := PageTable.maps_pos.mpr ⟨v, hleaf⟩
    have hmaps' : 0 < pt'.maps no := PageTable.maps_pos.mpr ⟨v, by rw [hpte]; exact hleaf⟩
    rw [hpaddr, Bool.eq_iff_iff, undups_used h (Nat.add_pos_right _ hmaps),
      undups_used h' (Nat.add_pos_right _ hmaps')]

theorem passes_congr (h : Account s rest keeps pinned tail tf pt)
    (h' : Account s' rest keeps pinned tail tf pt') (hpte : pt'.pte v = pt.pte v) :
    passes s' pt' targetperm v = passes s pt targetperm v := by
  unfold passes
  rw [hpte]
  cases hvalid : (pt.pte v).valid with
  | false => rfl
  | true => rw [undups_congr h h' hpte hvalid]

/-! ## A round -/

/-- What serving a page leaves alone: the locks, the pages that are in use, and their contents. -/
structure Goes (rest : Nat → Nat) (m : PhysMem) (pt : PageTable) (m' : PhysMem) (pt' : PageTable) :
    Prop where
  locks : m'.pglock = m.pglock
  used : ∀ no, 0 < rest no + pt.maps no → 0 < rest no + pt'.maps no
  content : ∀ no, 0 < rest no + pt.maps no → m'.data no = m.data no

theorem Goes.refl (m : PhysMem) (pt : PageTable) : Goes rest m pt m pt :=
  ⟨rfl, fun _ h => h, fun _ _ => rfl⟩

theorem Goes.trans (h : Goes rest m pt m' pt') (h' : Goes rest m' pt' m'' pt'') :
    Goes rest m pt m'' pt'' where
  locks := h'.locks.trans h.locks
  used no hno := h'.used no (h.used no hno)
  content no hno := (h'.content no (h.used no hno)).trans (h.content no hno)

theorem Goes.walked (h : Walked pt pt') (s : Buddy) : Goes rest m pt { m with phys := s } pt' where
  locks := rfl
  used no hno := by
    rw [PageTable.maps_congr h.pte]
    exact hno
  content _ _ := rfl

/-- A page that is mapped is missing a reference. -/
structure Broken (rest : Nat → Nat) (tail : Nat → Nat → Prop) (s : Buddy) (pt : PageTable)
    (no : Nat) : Prop where
  mapped : ∃ v, (pt.pte v).leaf = some no
  head : ∀ hd, ¬ tail hd no
  low : (s.record no).count ≤ rest no

/-! ## Page faults -/

/-- One reference less, unless it is the last. -/
def dropRef (s : Buddy) (no : Nat) : Buddy :=
  if (s.record no).count > 1 then
    s.setRecord no { s.record no with count := (s.record no).count - 1 }
  else s

theorem dropRef_orderarray (s : Buddy) (no : Nat) : (dropRef s no).orderarray = s.orderarray := by
  unfold dropRef
  split
  · rfl
  · rfl

theorem dropRef_count_le (s : Buddy) (no x : Nat) :
    ((dropRef s no).record x).count ≤ (s.record x).count := by
  unfold dropRef
  split
  · rw [Buddy.setRecord_record]
    by_cases hx : x = no
    · rw [hx, update_self]
      exact Nat.sub_le _ 1
    · rw [update_of_ne hx]
  · exact Nat.le_refl _

theorem dropRef_count_pos {no : Nat} (h : 1 ≤ (s.record no).count) :
    1 ≤ ((dropRef s no).record no).count := by
  unfold dropRef
  split
  · rw [Buddy.setRecord_record, update_self]
    dsimp only
    omega
  · exact h

theorem pagesUndup_old {no : Nat} (h : 1 ≤ (s.record no).count) :
    Vm.pagesUndup s (.page no) = .ok (dropRef s no, (s.record no).count) := by
  simp only [Vm.pagesUndup, Phys.pagesUndup, if_pos h]
  rfl

/-- `pages_undup` of a page whose lock is free. -/
theorem pagesUndup_page {no : Nat} (hlock : m.pglock no = false)
    (h : 1 ≤ (m.phys.record no).count) :
    pagesUndup m (.page no) = .ok ({ m with
      phys := dropRef m.phys no
      pglock := update m.pglock no true }, (m.phys.record no).count) := by
  simp only [pagesUndup, hlock, pagesUndup_old h, Bool.false_eq_true, if_false, ok_bind]
  rfl

theorem pagesUndup_fails {no : Nat} (h : ¬ 1 ≤ (m.phys.record no).count)
    {r : PhysMem × Nat} : pagesUndup m (.page no) ≠ .ok r := by
  simp only [pagesUndup, Vm.pagesUndup, Phys.pagesUndup, if_neg h]
  split
  · simp
  · simp

/-- The lock that `pages_undup` has taken is given back. -/
theorem releasePglock_page {no : Nat} {data : Nat → Page} {lock : Nat → Bool}
    (hlock : lock no = false) (h : 1 ≤ (s.record no).count) :
    releasePglock ⟨s, data, update lock no true⟩ (.page no) = .ok ⟨s, data, lock⟩ := by
  have hback : update (update lock no true) no false = lock := by
    rw [update_idem, ← hlock, update_eq_self]
  simp only [releasePglock, update_self, if_true, Vm.releasePglock, if_pos h, ok_bind,
    hback]
  rfl

/-- More flags on a valid entry: it maps the same page. -/
theorem leaf_grown {pte : Pte} (hvalid : pte.valid = true) (perm : Perm) :
    ({ pte with perm := pte.perm ||| perm } : Pte).leaf = pte.leaf := by
  have hvalid' : ({ pte with perm := pte.perm ||| perm } : Pte).valid = true :=
    grants_trans (grants_or_left _ _) hvalid
  unfold Pte.leaf
  rw [hvalid, hvalid']

/-- A page stays in use when an entry that does not map it, or goes on to, is stored. -/
theorem used_set (v : Vpn) {pte : Pte} {no : Nat}
    (h : (pt.pte v).leaf = some no → pte.leaf = some no) (hno : 0 < rest no + pt.maps no) :
    0 < rest no + (pt.setPte v pte).maps no := by
  have hset := pt.maps_set v pte no
  by_cases hold : (pt.pte v).leaf = some no
  · rw [if_pos hold, if_pos (h hold)] at hset
    omega
  · rw [if_neg hold] at hset
    omega

/-- The entry of a page that is used alone. -/
theorem doWpPage_alone {no : Nat} (hlock : m.pglock no = false) (hpaddr : (pt.pte v).paddr = .page no)
    (hone : (m.phys.record no).count = 1) (targetperm : Perm) :
    doWpPage m pt v targetperm = .ok (m, pt.setPte v
        { pt.pte v with perm := (pt.pte v).perm ||| targetperm }, 0) ∧
      Vm.doWpPage m.mem pt v targetperm = .ok (m.mem, pt.setPte v
        { pt.pte v with perm := (pt.pte v).perm ||| targetperm }) := by
  have hpos : 1 ≤ (m.phys.record no).count := Nat.le_of_eq hone.symm
  have hkeep : dropRef m.phys no = m.phys := by
    rw [dropRef, if_neg (by omega)]
  have hrelease : Vm.releasePglock m.phys (.page no) = .ok () := if_pos hpos
  constructor
  · unfold doWpPage
    simp only [hpaddr, pagesUndup_page hlock hpos, ok_bind, hone, if_true, hkeep,
      releasePglock_page hlock hpos]
    rfl
  · unfold Vm.doWpPage
    have hold := pagesUndup_old hpos
    rw [hone, hkeep] at hold
    have hold : Vm.pagesUndup m.mem.phys (.page no) = .ok (m.phys, 1) := hold
    simp only [hpaddr, hold, ok_bind, if_true, hrelease]
    rfl

/-- The entry of a page that others use, and there is a page for the copy. -/
theorem doWpPage_copied {no new : Nat} {s₁ : Buddy} (hlock : m.pglock no = false)
    (hpaddr : (pt.pte v).paddr = .page no) (hmany : 1 < (m.phys.record no).count)
    (hold : Vm.pagesAlloc (dropRef m.phys no) 1 = .ok (s₁, new))
    (hnew : allocPage (dropRef m.phys no) = .ok (s₁, some new))
    (hcount : 1 ≤ (s₁.record no).count) (targetperm : Perm) :
    let pt' := pt.setPte v
      { perm := targetperm ||| (pt.pte v).perm, unrelease := false, paddr := .page new }
    let data := update m.data new (m.data no)
    doWpPage m pt v targetperm = .ok ({ m with phys := s₁, data := data }, pt', 0) ∧
      Vm.doWpPage m.mem pt v targetperm = .ok (⟨s₁, data⟩, pt') := by
  intro pt' data
  have hpos : 1 ≤ (m.phys.record no).count := Nat.le_of_lt hmany
  have hone : ¬ (m.phys.record no).count = 1 := by omega
  have hrelease : Vm.releasePglock s₁ (.page no) = .ok () := if_pos hcount
  constructor
  · unfold doWpPage
    simp only [hpaddr, pagesUndup_page hlock hpos, ok_bind, if_neg hone, hnew, frameData,
      releasePglock_page hlock hcount]
    rfl
  · unfold Vm.doWpPage
    have hundup : Vm.pagesUndup m.mem.phys (.page no)
        = .ok (dropRef m.phys no, (m.phys.record no).count) := pagesUndup_old hpos
    simp only [hpaddr, hundup, ok_bind, if_neg hone, hold, frameData, hrelease]
    rfl

/-- The entry of a page that others use, and there is no page. -/
theorem doWpPage_null {no : Nat} (hlock : m.pglock no = false)
    (hpaddr : (pt.pte v).paddr = .page no) (hmany : 1 < (m.phys.record no).count)
    (hzero : freePages m.phys = 0) :
    doWpPage m pt v targetperm = .ok ({ m with phys := dropRef m.phys no }, pt, -1) := by
  have hpos : 1 ≤ (m.phys.record no).count := Nat.le_of_lt hmany
  have hone : ¬ (m.phys.record no).count = 1 := by omega
  have hnull : allocPage (dropRef m.phys no) = .ok (dropRef m.phys no, none) :=
    allocPage_none ((freePages_congr (dropRef_orderarray _ _)).trans hzero)
  unfold doWpPage
  simp only [hpaddr, pagesUndup_page hlock hpos, ok_bind, if_neg hone, hnull,
    releasePglock_page hlock (dropRef_count_pos hpos)]
  rfl

/-- An entry has been served, with `n` pages. -/
structure Served (rest keeps : Nat → Nat) (pinned : Nat → Prop) (tail : Nat → Nat → Prop) (tf : Nat)
    (m : PhysMem) (pt : PageTable) (v : Vpn) (n : Nat) (m' : PhysMem) (pt' : PageTable) : Prop where
  account : Account m'.phys rest keeps pinned tail tf pt'
  goes : Goes rest m pt m' pt'
  free : freePages m'.phys + n = freePages m.phys
  others : ∀ w, w ≠ v → pt'.pte w = pt.pte w
  mid : pt'.mid = pt.mid
  low : pt'.low = pt.low

theorem setPte_others (pt : PageTable) (v : Vpn) (pte : Pte) (w : Vpn) (hw : w ≠ v) :
    (pt.setPte v pte).pte w = pt.pte w := update_of_ne hw _ _

/-- `do_wp_page` where a page that is shared finds one for its copy. -/
theorem doWpPage_served (h : Account m.phys rest keeps pinned tail tf pt)
    (hlock : ∀ no, m.pglock no = false) (hvalid : (pt.pte v).valid = true)
    (hundups : undups m.phys (pt.pte v).paddr = true) (targetperm : Perm)
    (hfree : (if shared m.phys (pt.pte v).paddr then 1 else 0) ≤ freePages m.phys) :
    ∃ m' pt', doWpPage m pt v targetperm = .ok (m', pt', 0) ∧
      Served rest keeps pinned tail tf m pt v
        (if shared m.phys (pt.pte v).paddr then 1 else 0) m' pt' := by
  have haccount : ∀ {r}, Vm.doWpPage m.mem pt v targetperm = .ok r →
      Account r.1.phys rest keeps pinned tail tf r.2 := fun hr =>
    ((doWpPage_books (m := m.mem) (c := True) h (fun _ => trivial) hvalid (fun _ => trivial)
      targetperm).of_ok hr).1
  cases hpaddr : (pt.pte v).paddr with
  | null =>
    rw [hpaddr] at hundups
    exact absurd hundups Bool.false_ne_true
  | trampoline =>
    rw [hpaddr] at hundups
    exact absurd hundups Bool.false_ne_true
  | page no =>
    rw [hpaddr] at hundups
    have hpos : 1 ≤ (m.phys.record no).count := of_decide_eq_true hundups
    by_cases hone : (m.phys.record no).count = 1
    · obtain ⟨hnew, hold⟩ := doWpPage_alone (hlock no) hpaddr hone targetperm
      have hnot : shared m.phys (.page no) = false := by
        rw [shared, hone]
        rfl
      rw [hnot]
      refine ⟨_, _, hnew, haccount hold, ⟨rfl, fun x hx => used_set v ?_ hx, fun _ _ => rfl⟩, rfl,
        setPte_others pt v _, rfl, rfl⟩
      rw [leaf_grown hvalid]
      exact id
    · have hmany : 1 < (m.phys.record no).count := by omega
      have hshared : shared m.phys (pt.pte v).paddr = true := by
        rw [hpaddr, shared]
        exact decide_eq_true hmany
      obtain ⟨no', hleaf, htail, hrest⟩ := (shared_iff h hvalid).mp hshared
      obtain rfl : no' = no := by
        have heq := (Pte.leaf_eq_some.mp hleaf).2.2
        rw [hpaddr] at heq
        exact (Frame.page.inj heq).symm
      rw [hpaddr] at hshared
      rw [hpaddr, hshared] at hfree
      rw [hshared]
      obtain ⟨hvalid', hmine, -⟩ := Pte.leaf_eq_some.mp hleaf
      obtain ⟨no, others, hpage, -, hsplit, hothers⟩ := h.usedAt hvalid' hmine
      obtain rfl : no' = no := by
        rw [hpaddr] at hpage
        exact Frame.page.inj hpage
      -- the books without this reference
      obtain ⟨-, -, -, hbooks⟩ := ((Books.congr h.books hsplit fun _ => rfl).undup (c := True)
        fun _ => trivial).of_ok (pagesUndup_old hpos)
      have hne : ¬ others no' = 0 := by omega
      simp only [if_neg hne, Nat.add_zero] at hbooks
      have hfree₁ : freePages (dropRef m.phys no') = freePages m.phys :=
        freePages_congr (dropRef_orderarray _ _)
      obtain ⟨s₁, new, hold, hnew, hleft⟩ := Books.allocPage hbooks (by rw [hfree₁]; exact hfree)
      obtain ⟨hbooks₁, hfresh⟩ := (hbooks.allocOne (c := True)).of_ok hold
      have hused : 0 < others no' + one new no' := by omega
      have hcount : 1 ≤ (s₁.record no').count := by
        have hcount' : (s₁.record no').count = others no' + one new no' :=
          hbooks₁.count hused htail
        omega
      obtain ⟨hdo, hdoOld⟩ := doWpPage_copied (hlock no') hpaddr hmany hold hnew hcount targetperm
      -- the new page was not in use
      have hunused : ∀ x, 0 < rest x + pt.maps x → x ≠ new := by
        rintro x hx rfl
        have hx' := hsplit x
        have hzero : others x = 0 := hfresh.uses
        by_cases hxno : x = no'
        · rw [hxno] at hzero
          exact hne hzero
        · rw [one_of_ne hxno] at hx'
          omega
      refine ⟨_, _, hdo, haccount hdoOld, ⟨rfl, fun x hx => ?_, fun x hx => ?_⟩, ?_,
        setPte_others pt v _, rfl, rfl⟩
      · by_cases hxno : x = no'
        · rw [hxno]
          exact Nat.add_pos_left hrest _
        · refine used_set v (fun heq => ?_) hx
          rw [hleaf] at heq
          exact absurd (Option.some.inj heq).symm hxno
      · exact update_of_ne (hunused x hx) _ _
      · rw [← hfree₁]
        exact hleft

/-- `do_wp_page` where a page that is shared finds none: the reference is gone, and the entry stays. -/
theorem doWpPage_broken (h : Account m.phys rest keeps pinned tail tf pt)
    (hlock : ∀ no, m.pglock no = false) (hvalid : (pt.pte v).valid = true)
    (hshared : shared m.phys (pt.pte v).paddr = true) (hzero : freePages m.phys = 0)
    (targetperm : Perm) :
    ∃ no, doWpPage m pt v targetperm = .ok ({ m with phys := dropRef m.phys no }, pt, -1) ∧
      Broken rest tail (dropRef m.phys no) pt no := by
  obtain ⟨no, hleaf, htail, hrest⟩ := (shared_iff h hvalid).mp hshared
  have hpaddr := (Pte.leaf_eq_some.mp hleaf).2.2
  rw [hpaddr] at hshared
  have hmany : 1 < (m.phys.record no).count := of_decide_eq_true hshared
  refine ⟨no, doWpPage_null (hlock no) hpaddr hmany hzero, ⟨v, hleaf⟩, htail, ?_⟩
  have hcount : (m.phys.record no).count = rest no + pt.maps no :=
    h.books.count (Nat.add_pos_left hrest _) htail
  have hone := h.space.single no
  rw [dropRef, if_pos hmany, Buddy.setRecord_record, update_self]
  dsimp only
  omega

/-- One page is mapped where the tables are there. -/
theorem mappages_present {va : Nat} (hva : va % PGSIZE = 0) (hlt : va < MAXVA)
    (hpresent : pt.Present (vpn va)) (hinvalid : (pt.pte (vpn va)).valid = false) (pa : Frame)
    (perm : Perm) :
    let pt' := pt.setPte (vpn va) { perm := (if va ≥ TRAMPOLINE then perm ||| PTE_G else perm) ||| PTE_V,
                                    unrelease := decide (va ≥ TRAPFRAME), paddr := pa }
    mappages s pt va PGSIZE pa perm = .ok (s, pt', 0) ∧
      Vm.mappages s pt va PGSIZE pa perm = .ok (s, pt') := by
  intro pt'
  have hsize : ¬ PGSIZE = 0 := by decide
  have hnot : ¬ (pt.pte (vpn va)).valid = true := by
    rw [hinvalid]
    exact Bool.false_ne_true
  obtain ⟨hnew, hold⟩ := walk_present (s := s) hlt hpresent
  constructor
  · unfold mappages
    rw [if_neg hsize]
    simp only [pgRoundDown_of_aligned hva, pgRoundUp_page hva]
    rw [mappagesLoop, hnew, ok_bind]
    dsimp only
    rw [if_neg (by decide), if_neg hnot, mappagesLoop]
  · unfold Vm.mappages
    rw [if_neg hsize]
    simp only [pgRoundDown_of_aligned hva, pgRoundUp_page hva]
    rw [Vm.mappagesLoop, hold, ok_bind]
    dsimp only
    rw [if_neg hnot, Vm.mappagesLoop]

/-- `do_no_page` where there is a page. -/
theorem doNoPage_served (h : Account m.phys rest keeps pinned tail tf pt) {va : Nat}
    (hva : va % PGSIZE = 0) (hlt : va < MAXVA) (hpresent : pt.Present (vpn va))
    (hinvalid : (pt.pte (vpn va)).valid = false) (targetperm : Perm) (fill : Nat → Page)
    (hfree : 0 < freePages m.phys) :
    ∃ m' pt', doNoPage m pt va targetperm fill = .ok (m', pt', 0) ∧
      Served rest keeps pinned tail tf m pt (vpn va) 1 m' pt' := by
  obtain ⟨s₁, page, hold, hnew, hleft⟩ := Books.allocPage h.books hfree
  obtain ⟨pte, hmap, hmapOld⟩ : ∃ pte,
      mappages s₁ pt va PGSIZE (.page page) targetperm = .ok (s₁, pt.setPte (vpn va) pte, 0) ∧
      Vm.mappages s₁ pt va PGSIZE (.page page) targetperm = .ok (s₁, pt.setPte (vpn va) pte) :=
    ⟨_, mappages_present hva hlt hpresent hinvalid (.page page) targetperm⟩
  let data := update m.data page (fill va)
  have hfresh := ((h.books.allocOne (c := True)).of_ok hold).2
  have hrun : doNoPage m pt va targetperm fill
      = .ok ({ m with phys := s₁, data := data }, pt.setPte (vpn va) pte, 0) := by
    unfold doNoPage
    rw [hnew, ok_bind]
    dsimp only
    rw [hmap]
    rfl
  have hrunOld : Vm.doNoPage m.mem pt va targetperm fill
      = .ok (⟨s₁, data⟩, pt.setPte (vpn va) pte) := by
    unfold Vm.doNoPage
    have hold : Vm.pagesAlloc m.mem.phys 1 = .ok (s₁, page) := hold
    rw [hold, ok_bind]
    dsimp only
    rw [hmapOld]
    rfl
  have haccount := ((doNoPage_books (m := m.mem) (c := True) h hva targetperm fill).of_ok hrunOld).1
  refine ⟨_, _, hrun, haccount, ⟨rfl, fun x hx => used_set _ (fun heq => ?_) hx, fun x hx => ?_⟩,
    hleft, setPte_others pt _ pte, rfl, rfl⟩
  · have hnot := (Pte.leaf_eq_some.mp heq).1
    rw [hinvalid] at hnot
    cases hnot
  · refine update_of_ne ?_ _ _
    rintro rfl
    have hzero : rest x + pt.maps x = 0 := hfresh.uses
    omega

theorem doNoPage_null (hzero : freePages m.phys = 0) (pt : PageTable) (va : Nat) (targetperm : Perm)
    (fill : Nat → Page) : doNoPage m pt va targetperm fill = .ok (m, pt, -1) := by
  unfold doNoPage
  rw [allocPage_none hzero]
  rfl

/-- The result of a page fault is not looked at. -/
theorem verifyEntry_fault {va : Nat} (ret : Int)
    (hno : ¬ grants (pt.pte (vpn va)).perm targetperm = true)
    (h : (if (pt.pte (vpn va)).valid then doWpPage m pt (vpn va) targetperm
      else doNoPage m pt va targetperm fill) = .ok (m', pt', ret)) :
    verifyEntry m pt va targetperm fill = .ok (m', pt', false) := by
  unfold verifyEntry
  dsimp only
  rw [if_neg hno]
  by_cases hvalid : (pt.pte (vpn va)).valid = true
  · rw [if_pos hvalid] at h ⊢
    rw [h, ok_bind, if_neg (Nat.not_lt_zero _)]
    rfl
  · rw [if_neg hvalid] at h ⊢
    rw [h, ok_bind, if_neg (Nat.not_lt_zero _)]
    rfl

theorem undups_of_passes (h : passes s pt targetperm v = true)
    (hno : ¬ grants (pt.pte v).perm targetperm = true) (hvalid : (pt.pte v).valid = true) :
    undups s (pt.pte v).paddr = true := by
  rw [passes, Bool.or_eq_true, Bool.or_eq_true, hvalid] at h
  exact (h.resolve_left hno).resolve_left Bool.false_ne_true

theorem verifyEntry_served (h : Account m.phys rest keeps pinned tail tf pt)
    (hlock : ∀ no, m.pglock no = false) {va : Nat} (hva : va % PGSIZE = 0) (hlt : va < MAXVA)
    (hpresent : pt.Present (vpn va)) (fill : Nat → Page)
    (hpass : passes m.phys pt targetperm (vpn va) = true)
    (hfree : (entryNeeds m.phys pt targetperm (vpn va)).length ≤ freePages m.phys) :
    ∃ m' pt', verifyEntry m pt va targetperm fill = .ok (m', pt', false) ∧
      Served rest keeps pinned tail tf m pt (vpn va)
        (entryNeeds m.phys pt targetperm (vpn va)).length m' pt' := by
  unfold entryNeeds at hfree ⊢
  by_cases hgrants : grants (pt.pte (vpn va)).perm targetperm = true
  · rw [if_pos hgrants]
    have hrun : verifyEntry m pt va targetperm fill = .ok (m, pt, false) := by
      unfold verifyEntry
      exact if_pos hgrants
    exact ⟨m, pt, hrun, h, .refl m pt, rfl, fun _ _ => rfl, rfl, rfl⟩
  · rw [if_neg hgrants] at hfree ⊢
    by_cases hvalid : (pt.pte (vpn va)).valid = true
    · rw [if_pos hvalid] at hfree ⊢
      have hlen : (if shared m.phys (pt.pte (vpn va)).paddr then [Need.copy] else []).length
          = if shared m.phys (pt.pte (vpn va)).paddr then 1 else 0 := by
        split
        · rfl
        · rfl
      rw [hlen] at hfree ⊢
      obtain ⟨m₁, pt₁, hwp, hserved⟩ := doWpPage_served h hlock hvalid
        (undups_of_passes hpass hgrants hvalid) targetperm hfree
      exact ⟨m₁, pt₁, verifyEntry_fault 0 hgrants ((if_pos hvalid).trans hwp), hserved⟩
    · rw [if_neg hvalid] at hfree ⊢
      have hinvalid : (pt.pte (vpn va)).valid = false := Bool.not_eq_true _ ▸ hvalid
      obtain ⟨m₁, pt₁, hno, hserved⟩ := doNoPage_served h hva hlt hpresent hinvalid targetperm fill
        hfree
      exact ⟨m₁, pt₁, verifyEntry_fault 0 hgrants ((if_neg hvalid).trans hno), hserved⟩

/-- An entry at which an assertion fails asks for nothing. -/
theorem verifyEntry_stuck {va : Nat} (hpass : passes m.phys pt targetperm (vpn va) = false)
    (fill : Nat → Page) : entryNeeds m.phys pt targetperm (vpn va) = [] ∧
      ∃ e, verifyEntry m pt va targetperm fill = .error e := by
  rw [passes, Bool.or_eq_false_iff, Bool.or_eq_false_iff, Bool.not_eq_false'] at hpass
  obtain ⟨hgrants, hvalid, hundups⟩ := hpass
  have hno : ¬ grants (pt.pte (vpn va)).perm targetperm = true := by
    rw [hgrants]
    exact Bool.false_ne_true
  have hundup : ∃ e, pagesUndup m (pt.pte (vpn va)).paddr = .error e := by
    cases hpaddr : (pt.pte (vpn va)).paddr with
    | null => exact ⟨_, rfl⟩
    | trampoline => exact ⟨_, rfl⟩
    | page no =>
      rw [hpaddr] at hundups
      cases hrun : pagesUndup m (.page no) with
      | error e => exact ⟨e, rfl⟩
      | ok r => exact absurd hrun (pagesUndup_fails (of_decide_eq_false hundups))
  have hshared : shared m.phys (pt.pte (vpn va)).paddr = false := by
    cases hpaddr : (pt.pte (vpn va)).paddr with
    | null => rfl
    | trampoline => rfl
    | page no =>
      rw [hpaddr] at hundups
      have hzero := of_decide_eq_false hundups
      exact decide_eq_false (by omega)
  constructor
  · unfold entryNeeds
    rw [if_neg hno, if_pos hvalid, hshared]
    rfl
  · obtain ⟨e, he⟩ := hundup
    refine ⟨e, ?_⟩
    unfold verifyEntry
    dsimp only
    rw [if_neg hno, if_pos hvalid, doWpPage, he]
    rfl

/-- An entry without a page: nothing happens, and the loop goes on. -/
theorem verifyEntry_page {va : Nat} (fill : Nat → Page)
    (hneeds : entryNeeds m.phys pt targetperm (vpn va) = [.page]) (hzero : freePages m.phys = 0) :
    verifyEntry m pt va targetperm fill = .ok (m, pt, false) := by
  unfold entryNeeds at hneeds
  split at hneeds
  · cases hneeds
  · rename_i hgrants
    split at hneeds
    · split at hneeds
      · cases hneeds
      · cases hneeds
    · rename_i hvalid
      refine verifyEntry_fault (-1) hgrants ?_
      rw [if_neg hvalid]
      exact doNoPage_null hzero pt va targetperm fill

/-- An entry whose copy fails: the loop goes on. -/
theorem verifyEntry_copy (h : Account m.phys rest keeps pinned tail tf pt)
    (hlock : ∀ no, m.pglock no = false) {va : Nat} (fill : Nat → Page)
    (hneeds : entryNeeds m.phys pt targetperm (vpn va) = [.copy]) (hzero : freePages m.phys = 0) :
    ∃ no, verifyEntry m pt va targetperm fill
        = .ok ({ m with phys := dropRef m.phys no }, pt, false) ∧
      Broken rest tail (dropRef m.phys no) pt no := by
  unfold entryNeeds at hneeds
  split at hneeds
  · cases hneeds
  · rename_i hgrants
    split at hneeds
    · rename_i hvalid
      split at hneeds
      · rename_i hshared
        obtain ⟨no, hwp, hbroken⟩ := doWpPage_broken h hlock hvalid hshared hzero targetperm
        refine ⟨no, verifyEntry_fault (-1) hgrants ?_, hbroken⟩
        rw [if_pos hvalid, hwp]
      · cases hneeds
    · cases hneeds

/-! ## Without pages -/

/-- What the loop can do without pages: counts go down, and entries get flags. -/
structure Starves (m : PhysMem) (pt : PageTable) (m' : PhysMem) (pt' : PageTable) : Prop where
  free : freePages m'.phys = freePages m.phys
  count : ∀ no, (m'.phys.record no).count ≤ (m.phys.record no).count
  leaf : ∀ v, (pt'.pte v).leaf = (pt.pte v).leaf

theorem Starves.refl (m : PhysMem) (pt : PageTable) : Starves m pt m pt :=
  ⟨rfl, fun _ => Nat.le_refl _, fun _ => rfl⟩

theorem Starves.trans (h : Starves m pt m' pt') (h' : Starves m' pt' m'' pt'') :
    Starves m pt m'' pt'' :=
  ⟨h'.free.trans h.free, fun no => (h'.count no).trans (h.count no),
    fun v => (h'.leaf v).trans (h.leaf v)⟩

theorem Broken.starves {no : Nat} (h : Broken rest tail m.phys pt no) (hs : Starves m pt m' pt') :
    Broken rest tail m'.phys pt' no := by
  obtain ⟨v, hv⟩ := h.mapped
  exact ⟨⟨v, (hs.leaf v).trans hv⟩, h.head, (hs.count no).trans h.low⟩

theorem walk_starved (hzero : freePages s = 0) (pt : PageTable) (va : Nat) :
    Meets (fun _ => True) (walk s pt va) fun r => r.1 = s ∧ r.2.1 = pt := by
  have hlow : ∀ i j, Meets (fun _ => True) (enterLow s pt i j) fun r => r.1 = s ∧ r.2.1 = pt := by
    intro i j
    unfold enterLow
    split
    · exact .ok ⟨rfl, rfl⟩
    · rw [allocPage_none hzero]
      exact .pure ⟨rfl, rfl⟩
  unfold walk enterMid
  refine .ite (fun _ => ?_) fun _ => .error trivial
  split
  · exact hlow _ _
  · rw [allocPage_none hzero]
    exact .pure ⟨rfl, rfl⟩

theorem pagesUndup_starves (m : PhysMem) (pt : PageTable) (f : Frame) :
    Meets (fun _ => True) (pagesUndup m f) fun r => Starves m pt r.1 pt := by
  refine .partial_intro fun r hr => ?_
  cases f with
  | null => cases hr
  | trampoline => cases hr
  | page no =>
    by_cases hpos : 1 ≤ (m.phys.record no).count
    · cases hlock : m.pglock no with
      | true =>
        simp only [pagesUndup, hlock, if_true] at hr
        cases hr
      | false =>
        rw [pagesUndup_page hlock hpos] at hr
        rw [← Except.ok.inj hr]
        exact ⟨freePages_congr (dropRef_orderarray _ _), dropRef_count_le _ _, fun _ => rfl⟩
    · exact absurd hr (pagesUndup_fails hpos)

theorem releasePglock_starves (m : PhysMem) (pt : PageTable) (f : Frame) :
    Meets (fun _ => True) (releasePglock m f) fun m' => Starves m pt m' pt := by
  unfold releasePglock
  split
  · refine .ite (fun _ => .after fun _ => .pure ?_) fun _ => .error trivial
    exact ⟨rfl, fun _ => Nat.le_refl _, fun _ => rfl⟩
  · exact .error trivial

theorem doWpPage_starves (hzero : freePages m.phys = 0) (hvalid : (pt.pte v).valid = true)
    (targetperm : Perm) :
    Meets (fun _ => True) (doWpPage m pt v targetperm) fun r => Starves m pt r.1 r.2.1 := by
  unfold doWpPage
  refine (pagesUndup_starves m pt _).bind fun r hr => .ite (fun _ => ?_) fun _ => ?_
  · refine (releasePglock_starves r.1 pt _).bind fun m₁ hm₁ => .pure ?_
    refine (hr.trans hm₁).trans ⟨rfl, fun _ => Nat.le_refl _, fun w => ?_⟩
    rw [PageTable.setPte_pte]
    by_cases hw : w = v
    · rw [hw, update_self]
      exact leaf_grown hvalid targetperm
    · rw [update_of_ne hw]
  · rw [allocPage_none (hr.free.trans hzero)]
    exact (releasePglock_starves r.1 pt _).bind fun m₁ hm₁ => .pure (hr.trans hm₁)

theorem verifyPage_starves (hzero : freePages m.phys = 0) (pt : PageTable) (va : Nat)
    (targetperm : Perm) (fill : Nat → Page) :
    Meets (fun _ => True) (verifyPage m pt va targetperm fill) fun r => Starves m pt r.1 r.2.1 := by
  unfold verifyPage
  refine (walk_starved hzero pt va).bind ?_
  rintro ⟨s₁, pt₁, found⟩ ⟨rfl, rfl⟩
  refine .ite (fun _ => .pure (Starves.refl m pt₁)) fun _ => ?_
  unfold verifyEntry
  refine .ite (fun _ => .pure (Starves.refl m pt₁)) fun _ => .ite (fun hvalid => ?_) fun _ => ?_
  · refine (doWpPage_starves hzero hvalid targetperm).bind fun r hr => ?_
    exact .ite (fun _ => .pure hr) fun _ => .pure hr
  · rw [doNoPage_null hzero, ok_bind]
    exact .ite (fun _ => .pure (Starves.refl m pt₁)) fun _ => .pure (Starves.refl m pt₁)

theorem verifyLoop_starves {endVaddr : Nat} (targetperm : Perm) (fill : Nat → Page) (va : Nat)
    (m : PhysMem) (pt : PageTable) (hzero : freePages m.phys = 0) :
    Meets (fun _ => True) (verifyLoop endVaddr targetperm fill va m pt) fun r =>
      Starves m pt r.1 r.2.1 := by
  fun_induction verifyLoop endVaddr targetperm fill va m pt with
  | case1 va m pt hlt ih =>
    refine (verifyPage_starves hzero pt va targetperm fill).bind ?_
    rintro ⟨m₁, pt₁, stop⟩ hround
    refine .ite (fun _ => .pure hround) fun _ => ?_
    exact (ih m₁ pt₁ (hround.free.trans hzero)).mono fun r hr => hround.trans hr
  | case2 va m pt hge => exact .ok (.refl m pt)

/-! ## The loop -/

/-- Behind the pages that are there for them, tables are asked for first. -/
theorem tableFirst_tables {a b : Bool} {n : Nat} (h : n < lacking a + lacking b)
    (rest : List Need) : tableFirst ((tableNeeds a ++ tableNeeds b ++ rest).drop n) = true := by
  cases a with
  | true =>
    cases b with
    | true => exact absurd h (Nat.not_lt_zero n)
    | false =>
      obtain rfl := Nat.lt_one_iff.mp h
      rfl
  | false =>
    cases b with
    | true =>
      obtain rfl := Nat.lt_one_iff.mp h
      rfl
    | false =>
      cases n with
      | zero => rfl
      | succ n =>
        obtain rfl : n = 0 := Nat.lt_one_iff.mp (Nat.lt_of_succ_lt_succ h)
        rfl

/-- An entry that has one request more than there are pages asks for a page or a copy. -/
theorem entryNeeds_short (s : Buddy) (pt : PageTable) (targetperm : Perm) (v : Vpn) {n : Nat}
    (h : n < (entryNeeds s pt targetperm v).length) : n = 0 ∧
      (entryNeeds s pt targetperm v = [.page] ∨ entryNeeds s pt targetperm v = [.copy]) := by
  have hle := entryNeeds_length s pt targetperm v
  refine ⟨by omega, ?_⟩
  unfold entryNeeds at h ⊢
  split at h
  · exact absurd h (Nat.not_lt_zero n)
  · rename_i hgrants
    rw [if_neg hgrants]
    split at h
    · rename_i hvalid
      rw [if_pos hvalid]
      split at h
      · rename_i hshared
        exact .inr (if_pos hshared)
      · exact absurd h (Nat.not_lt_zero n)
    · rename_i hvalid
      rw [if_neg hvalid]
      exact .inl rfl

theorem Entered.present (h : Entered pt pt' v) : pt'.Present v := by
  have hmid := congrFun h.mid v.1
  have hlow := congrFun (congrFun h.low v.1) v.2.1
  rw [update_self] at hmid
  rw [update_self, update_self] at hlow
  exact ⟨hmid, hlow⟩

/-- A round behind its `walk`. -/
theorem verifyPage_found {va : Nat} {s₁ : Buddy} {pt₁ : PageTable}
    (hwalk : walk m.phys pt va = .ok (s₁, pt₁, true)) :
    verifyPage m pt va targetperm fill = verifyEntry { m with phys := s₁ } pt₁ va targetperm fill := by
  unfold verifyPage
  rw [hwalk, ok_bind]
  rfl

theorem verifyPage_null {va : Nat} {s₁ : Buddy} {pt₁ : PageTable}
    (hwalk : walk m.phys pt va = .ok (s₁, pt₁, false)) :
    verifyPage m pt va targetperm fill = .ok ({ m with phys := s₁ }, pt₁, true) := by
  unfold verifyPage
  rw [hwalk, ok_bind]
  rfl

/-- What a round can do. -/
inductive Round (rest keeps : Nat → Nat) (pinned : Nat → Prop) (tail : Nat → Nat → Prop) (tf : Nat)
    (m : PhysMem) (pt : PageTable) (targetperm : Perm) (v : Vpn) : PhysMem → PageTable → Bool → Prop
  /-- There is no page for a table. -/
  | null {m₁ : PhysMem} {pt₁ : PageTable} (hfree : freePages m.phys < lackingAt pt v)
      (h' : Account m₁.phys rest keeps pinned tail tf pt₁) (hgoes : Goes rest m pt m₁ pt₁) :
      Round rest keeps pinned tail tf m pt targetperm v m₁ pt₁ true
  /-- All is there. -/
  | served {m₁ : PhysMem} {pt₁ : PageTable}
      (hfree : freePages m₁.phys + (lackingAt pt v + (entryNeeds m.phys pt targetperm v).length)
        = freePages m.phys)
      (h' : Account m₁.phys rest keeps pinned tail tf pt₁) (hgoes : Goes rest m pt m₁ pt₁)
      (hentered : Entered pt pt₁ v) (hothers : ∀ w, w ≠ v → pt₁.pte w = pt.pte w) :
      Round rest keeps pinned tail tf m pt targetperm v m₁ pt₁ false
  /-- There is no page for `do_no_page`. -/
  | page {m₁ : PhysMem} {pt₁ : PageTable} (hneeds : entryNeeds m.phys pt targetperm v = [.page])
      (hfree : freePages m.phys = lackingAt pt v) (hzero : freePages m₁.phys = 0)
      (h' : Account m₁.phys rest keeps pinned tail tf pt₁) (hgoes : Goes rest m pt m₁ pt₁)
      (hentered : Entered pt pt₁ v) (hothers : ∀ w, w ≠ v → pt₁.pte w = pt.pte w) :
      Round rest keeps pinned tail tf m pt targetperm v m₁ pt₁ false
  /-- There is no page for the copy. -/
  | copy {m₁ : PhysMem} {pt₁ : PageTable} {no : Nat} (hneeds : entryNeeds m.phys pt targetperm v = [.copy])
      (hfree : freePages m.phys = lackingAt pt v) (hzero : freePages m₁.phys = 0)
      (hbroken : Broken rest tail m₁.phys pt₁ no) :
      Round rest keeps pinned tail tf m pt targetperm v m₁ pt₁ false

theorem verifyPage_round (h : Account m.phys rest keeps pinned tail tf pt)
    (hlock : ∀ no, m.pglock no = false) {va : Nat} (hva : va % PGSIZE = 0) (hmax : va < MAXVA)
    (fill : Nat → Page) (hpass : lackingAt pt (vpn va) ≤ freePages m.phys →
      passes m.phys pt targetperm (vpn va) = true) :
    ∃ m' pt' stop, verifyPage m pt va targetperm fill = .ok (m', pt', stop) ∧
      Round rest keeps pinned tail tf m pt targetperm (vpn va) m' pt' stop := by
  by_cases hfree : lackingAt pt (vpn va) ≤ freePages m.phys
  · obtain ⟨s₀, pt₀, hwalk, hwalkOld, hleft, hentered⟩ := walk_found h.books hmax hfree
    obtain ⟨h₀, hwalked, -⟩ := (walk_account (c := True) h va).of_ok hwalkOld
    have hgoes₀ : Goes rest m pt { m with phys := s₀ } pt₀ := .walked hwalked s₀
    have hsame : pt₀.pte (vpn va) = pt.pte (vpn va) := congrFun hwalked.pte _
    have hasks : entryNeeds s₀ pt₀ targetperm (vpn va) = entryNeeds m.phys pt targetperm (vpn va) :=
      entryNeeds_congr h h₀ hsame
    have hpass₀ : passes s₀ pt₀ targetperm (vpn va) = true := by
      rw [passes_congr h h₀ hsame]
      exact hpass hfree
    rw [verifyPage_found hwalk]
    by_cases hserved : (entryNeeds s₀ pt₀ targetperm (vpn va)).length ≤ freePages s₀
    · obtain ⟨m₁, pt₁, hrun, hs⟩ := verifyEntry_served (m := { m with phys := s₀ }) h₀ hlock hva
        hmax hentered.present fill hpass₀ hserved
      have hfree₁ : freePages m₁.phys + (entryNeeds s₀ pt₀ targetperm (vpn va)).length
          = freePages s₀ := hs.free
      rw [hasks] at hfree₁
      refine ⟨m₁, pt₁, false, hrun,
        .served (by omega) hs.account (hgoes₀.trans hs.goes) ⟨?_, ?_⟩ fun w hw => ?_⟩
      · rw [hs.mid]
        exact hentered.mid
      · rw [hs.low]
        exact hentered.low
      · rw [hs.others w hw, hwalked.pte]
    · obtain ⟨hzero, hone⟩ := entryNeeds_short s₀ pt₀ targetperm (vpn va) (Nat.lt_of_not_le hserved)
      have hspent : freePages m.phys = lackingAt pt (vpn va) := by omega
      rcases hone with hpage | hcopy
      · have hrun := verifyEntry_page (m := { m with phys := s₀ }) fill hpage hzero
        exact ⟨_, _, _, hrun, .page (hasks.symm.trans hpage) hspent hzero h₀ hgoes₀ hentered
          fun w _ => congrFun hwalked.pte w⟩
      · obtain ⟨no, hrun, hbroken⟩ :=
          verifyEntry_copy (m := { m with phys := s₀ }) h₀ hlock fill hcopy hzero
        exact ⟨_, _, _, hrun, .copy (hasks.symm.trans hcopy) hspent
          ((freePages_congr (dropRef_orderarray s₀ no)).trans hzero) hbroken⟩
  · obtain ⟨s₀, pt₀, hwalk, -, hbooks, hwalked⟩ := walk_null h.books hmax (by omega)
    exact ⟨_, _, _, verifyPage_null hwalk,
      .null (by omega) (h.walked hbooks hwalked) (.walked hwalked s₀)⟩

/-- A round in which an assertion fails. -/
theorem verifyPage_stuck (h : Account m.phys rest keeps pinned tail tf pt) {va : Nat}
    (hmax : va < MAXVA) (fill : Nat → Page) (hfree : lackingAt pt (vpn va) ≤ freePages m.phys)
    (hpass : passes m.phys pt targetperm (vpn va) = false) :
    entryNeeds m.phys pt targetperm (vpn va) = [] ∧
      ∃ e, verifyPage m pt va targetperm fill = .error e := by
  obtain ⟨s₀, pt₀, hwalk, hwalkOld, -⟩ := walk_found h.books hmax hfree
  obtain ⟨h₀, hwalked, -⟩ := (walk_account (c := True) h va).of_ok hwalkOld
  have hsame : pt₀.pte (vpn va) = pt.pte (vpn va) := congrFun hwalked.pte _
  rw [← passes_congr h h₀ hsame] at hpass
  obtain ⟨hneeds, herror⟩ := verifyEntry_stuck (m := { m with phys := s₀ }) hpass fill
  rw [verifyPage_found hwalk]
  exact ⟨(entryNeeds_congr h h₀ hsame).symm.trans hneeds, herror⟩

/-- How the loop ends, from what is left to ask for when the pages are used up. -/
structure Ends (rest keeps : Nat → Nat) (pinned : Nat → Prop) (tail : Nat → Nat → Prop) (tf : Nat)
    (m : PhysMem) (pt : PageTable) (left : List Need) (r : PhysMem × PageTable × Int) : Prop where
  table : tableFirst left = true →
    r.2.2 = -2 ∧ Account r.1.phys rest keeps pinned tail tf r.2.1 ∧ Goes rest m pt r.1 r.2.1
  other : tableFirst left = false → r.2.2 = 0 ∨ ∃ no, Broken rest tail r.1.phys r.2.1 no

theorem Ends.after {left : List Need} {r : PhysMem × PageTable × Int} (hg : Goes rest m pt m' pt')
    (h : Ends rest keeps pinned tail tf m' pt' left r) : Ends rest keeps pinned tail tf m pt left r where
  table ht := ⟨(h.table ht).1, (h.table ht).2.1, hg.trans (h.table ht).2.2⟩
  other := h.other

theorem drop_served {l rest : List Need} {n k : Nat} (h : n = k + l.length) :
    (l ++ rest).drop n = rest.drop k := by
  rw [List.drop_append, List.drop_eq_nil_of_le (by omega), List.nil_append, h, Nat.add_sub_cancel]

/-- What the loop asks for from here on. -/
def loopNeeds (entry : Vpn → List Need) (pass : Vpn → Bool) (endVaddr va : Nat) (pt : PageTable) :
    List Need :=
  needs entry pass (min endVaddr MAXVA) va (fun i => (pt.mid i).isSome)
    fun i j => (pt.low i j).isSome

theorem tables_length (pt : PageTable) (v : Vpn) :
    (tableNeeds (pt.mid v.1).isSome ++ tableNeeds (pt.low v.1 v.2.1).isSome).length
      = lackingAt pt v := by
  rw [List.length_append, tableNeeds_length, tableNeeds_length]
  rfl

/-- The pages are used up by the tables. -/
theorem tables_spent {n : Nat} (h : n = lackingAt pt v) :
    n = 0 + (tableNeeds (pt.mid v.1).isSome ++ tableNeeds (pt.low v.1 v.2.1).isSome).length := by
  rw [tables_length, h, Nat.zero_add]

/-- There are pages for the tables, and nothing else is asked for. -/
theorem tables_left {n : Nat} (h : lackingAt pt v ≤ n) {l : List Need} (hl : l = []) :
    (tableNeeds (pt.mid v.1).isSome ++ tableNeeds (pt.low v.1 v.2.1).isSome ++ l).drop n = [] := by
  rw [hl, List.append_nil]
  refine List.drop_eq_nil_of_le ?_
  rw [tables_length]
  exact h

theorem verifyPage_beyond {va : Nat} (hmax : ¬ va < MAXVA) (m : PhysMem) (pt : PageTable)
    (targetperm : Perm) (fill : Nat → Page) :
    verifyPage m pt va targetperm fill = .error .check := by
  rw [verifyPage, walk, if_neg hmax]
  rfl

variable {entry : Vpn → List Need} {pass : Vpn → Bool} {endVaddr va : Nat}

theorem needs_end (h : ¬ va < endVaddr) (mid : Idx → Bool) (low : Idx → Idx → Bool) :
    needs entry pass endVaddr va mid low = [] := by
  rw [needs, if_neg h]

theorem loopNeeds_end (h : ¬ va < min endVaddr MAXVA) (pt : PageTable) :
    loopNeeds entry pass endVaddr va pt = [] := needs_end h _ _

/-- One round asks for tables, and for what its entry needs. -/
theorem loopNeeds_round (entry : Vpn → List Need) (pass : Vpn → Bool) {endVaddr : Nat}
    (h : va < min endVaddr MAXVA) (pt : PageTable) :
    ∃ after, loopNeeds entry pass endVaddr va pt =
      tableNeeds (pt.mid (vpn va).1).isSome ++ tableNeeds (pt.low (vpn va).1 (vpn va).2.1).isSome ++
        (entry (vpn va) ++ if pass (vpn va) then after else []) ∧
      ∀ pt', Entered pt pt' (vpn va) →
        loopNeeds entry pass endVaddr (va + PGSIZE) pt' = after := by
  refine ⟨needs entry pass (min endVaddr MAXVA) (va + PGSIZE)
    (update (fun i => (pt.mid i).isSome) (vpn va).1 true)
    (update (fun i j => (pt.low i j).isSome) (vpn va).1
      (update (fun j => (pt.low (vpn va).1 j).isSome) (vpn va).2.1 true)),
    ?_, fun pt' hentered => ?_⟩
  · rw [loopNeeds, needs, if_pos h, List.append_assoc _ (entry (vpn va))]
  · rw [loopNeeds, hentered.mid, hentered.low]

/-- The pages of the entries that are ahead differ from that of this round. -/
theorem vpn_ahead {a : Nat} (hle : va + PGSIZE ≤ a) (ha : a % PGSIZE = 0) (hamax : a < MAXVA)
    (hva : va % PGSIZE = 0) : vpn a ≠ vpn va := by
  intro heq
  have hpos : 0 < PGSIZE := by decide
  rw [vpn_eq_iff hamax (by omega), pgRoundDown_of_aligned ha, pgRoundDown_of_aligned hva] at heq
  omega

/-- From `va` on, the requests are those of this state. -/
def Foretold (entry : Vpn → List Need) (pass : Vpn → Bool) (targetperm : Perm) (va : Nat)
    (s : Buddy) (pt : PageTable) : Prop :=
  ∀ a, va ≤ a → a % PGSIZE = 0 → a < MAXVA →
    entry (vpn a) = entryNeeds s pt targetperm (vpn a) ∧ pass (vpn a) = passes s pt targetperm (vpn a)

/-- A round changes only its own entry. -/
theorem Foretold.next (hall : Foretold entry pass targetperm va s pt)
    (h : Account s rest keeps pinned tail tf pt) (h' : Account s' rest keeps pinned tail tf pt')
    (hva : va % PGSIZE = 0) (hothers : ∀ w, w ≠ vpn va → pt'.pte w = pt.pte w) :
    Foretold entry pass targetperm (va + PGSIZE) s' pt' := by
  intro a hle ha hamax
  have hsame := hothers _ (vpn_ahead hle ha hamax hva)
  obtain ⟨hasks, hpass⟩ := hall a (by omega) ha hamax
  exact ⟨hasks.trans (entryNeeds_congr h h' hsame).symm,
    hpass.trans (passes_congr h h' hsame).symm⟩

/-- The loop: by the first request that finds no page, and those behind it. -/
theorem verifyLoop_spec (endVaddr : Nat) (targetperm : Perm) (fill : Nat → Page) (va : Nat) (m : PhysMem)
    (pt : PageTable) (hva : va % PGSIZE = 0)
    (h : Account m.phys rest keeps pinned tail tf pt) (hlock : ∀ no, m.pglock no = false)
    (hall : Foretold entry pass targetperm va m.phys pt) :
    let left := (loopNeeds entry pass endVaddr va pt).drop (freePages m.phys)
    Meets (fun _ => tableFirst left = false) (verifyLoop endVaddr targetperm fill va m pt)
      (Ends rest keeps pinned tail tf m pt left) := by
  fun_induction verifyLoop endVaddr targetperm fill va m pt with
  | case2 va m pt hge =>
    rw [loopNeeds_end (fun hlt => hge (by omega)), List.drop_nil]
    exact .ok ⟨fun ht => absurd ht Bool.false_ne_true, fun _ => .inl rfl⟩
  | case1 va m pt hlt ih =>
    by_cases hmax : va < MAXVA
    · obtain ⟨hentry₀, hpass₀⟩ := hall va (Nat.le_refl va) hva hmax
      obtain ⟨after, hlist, hafter⟩ := loopNeeds_round entry pass (Nat.lt_min.mpr ⟨hlt, hmax⟩) pt
      rw [hlist]
      by_cases hstuck : lackingAt pt (vpn va) ≤ freePages m.phys ∧
          passes m.phys pt targetperm (vpn va) = false
      · obtain ⟨hnone, e, he⟩ := verifyPage_stuck h hmax fill hstuck.1 hstuck.2
        have hnothing : (entry (vpn va) ++ if pass (vpn va) then after else []) = [] := by
          rw [hentry₀, hnone, hpass₀, hstuck.2]
          rfl
        rw [he, tables_left hstuck.1 hnothing]
        exact .error rfl
      · have hgo : lackingAt pt (vpn va) ≤ freePages m.phys →
            passes m.phys pt targetperm (vpn va) = true := fun hfree =>
          Bool.of_not_eq_false fun hpass => hstuck ⟨hfree, hpass⟩
        obtain ⟨m₁, pt₁, stop, hrun, hround⟩ := verifyPage_round h hlock hva hmax fill hgo
        -- the rest of the loop, from a state in which only this entry may have changed
        have hnext : Account m₁.phys rest keeps pinned tail tf pt₁ → Goes rest m pt m₁ pt₁ →
            (∀ w, w ≠ vpn va → pt₁.pte w = pt.pte w) → Entered pt pt₁ (vpn va) →
            Meets (fun _ => tableFirst (after.drop (freePages m₁.phys)) = false)
              (verifyLoop endVaddr targetperm fill (va + PGSIZE) m₁ pt₁)
              (Ends rest keeps pinned tail tf m pt (after.drop (freePages m₁.phys))) := by
          intro h₁ hgoes hothers hentered
          have hlock₁ : ∀ no, m₁.pglock no = false := fun no => by rw [hgoes.locks]; exact hlock no
          have hva₁ : (va + PGSIZE) % PGSIZE = 0 := by
            rw [Nat.add_mod_right]
            exact hva
          rw [← hafter pt₁ hentered]
          exact (ih m₁ pt₁ hva₁ h₁ hlock₁ (hall.next h h₁ hva hothers)).mono fun r hr => hr.after hgoes
        rw [hrun, ok_bind]
        cases hround with
        | null hfree h₁ hgoes =>
          have htable := tableFirst_tables (a := (pt.mid (vpn va).1).isSome)
            (b := (pt.low (vpn va).1 (vpn va).2.1).isSome) hfree
            (entry (vpn va) ++ if pass (vpn va) then after else [])
          refine .ite (fun _ => .pure ⟨fun _ => ⟨rfl, h₁, hgoes⟩, fun hnot => ?_⟩)
            fun hnot => absurd rfl hnot
          exact Bool.noConfusion (htable.symm.trans hnot)
        | served hfree h₁ hgoes hentered hothers =>
          have hspent : freePages m.phys = freePages m₁.phys + (entry (vpn va)).length +
              (tableNeeds (pt.mid (vpn va).1).isSome ++
                tableNeeds (pt.low (vpn va).1 (vpn va).2.1).isSome).length := by
            rw [tables_length, hentry₀]
            omega
          rw [drop_served hspent, drop_served rfl, hpass₀, if_pos (hgo (by omega))]
          refine .ite (fun hstop => absurd hstop Bool.false_ne_true) fun _ => ?_
          exact hnext h₁ hgoes hothers hentered
        | page hneeds hfree hzero h₁ hgoes hentered hothers =>
          rw [drop_served (tables_spent hfree), hentry₀, hneeds, hpass₀, if_pos (hgo (by omega))]
          have hrest := hnext h₁ hgoes hothers hentered
          rw [hzero, List.drop_zero] at hrest
          refine .ite (fun hstop => absurd hstop Bool.false_ne_true) fun _ => ?_
          exact hrest.mono fun r hr => ⟨hr.table, hr.other⟩
        | copy hneeds hfree hzero hbroken =>
          rw [drop_served (tables_spent hfree), hentry₀, hneeds]
          refine .ite (fun hstop => absurd hstop Bool.false_ne_true) fun _ => ?_
          refine ((verifyLoop_starves targetperm fill _ m₁ pt₁ hzero).mono fun r hr => ?_).weaken
            fun _ _ => rfl
          exact ⟨fun ht => absurd ht Bool.false_ne_true, fun _ => .inr ⟨_, hbroken.starves hr⟩⟩
    · have hend : ¬ va < min endVaddr MAXVA := fun hlt => hmax (Nat.lt_min.mp hlt).2
      rw [loopNeeds_end hend, List.drop_nil, verifyPage_beyond hmax]
      exact .error rfl

/-! ## The call -/

/-- No entry of an address space maps the physical page 0. -/
theorem Account.not_null (h : Account s rest keeps pinned tail tf pt)
    (hvalid : (pt.pte v).valid = true) : (pt.pte v).paddr ≠ .null := by
  intro hnull
  cases hmine : (pt.pte v).unrelease with
  | true =>
    rcases h.space.top v hmine with ⟨hpaddr, -⟩ | ⟨hpaddr, -⟩
    · exact nomatch hnull.symm.trans hpaddr
    · exact nomatch hnull.symm.trans hpaddr
  | false =>
    obtain ⟨no, hpaddr⟩ := h.space.page v hvalid hmine
    exact nomatch hnull.symm.trans hpaddr

/-- `verify_area` tells its caller that the memory has run out, and leaves all in order, if and only
    if of the requests that find no page one for a table comes before any for a copy. -/
theorem verify_area_oom_iff {areas : List Vma} {vma : Vma} {vaddr size : Nat}
    (h : Account m.phys rest keeps pinned tail tf pt) (hlock : ∀ no, m.pglock no = false)
    (hsearch : searchVmareas areas vaddr size = some vma)
    (hgrants : grants vma.vmFlags targetperm = true) (fill : Nat → Page) :
    (∃ m' pt' ret, verifyArea m areas pt vaddr size targetperm fill = .ok (m', pt', ret) ∧
        FailsCleanly rest tail m pt m' pt' ret) ↔
      tableFirst ((callNeeds m.phys pt vaddr size targetperm).drop (freePages m.phys)) = true := by
  have hspec := verifyLoop_spec ((vaddr + size) % ADDRS) targetperm fill (pgRoundDown vaddr) m pt
    (pgRoundDown_mod vaddr) h hlock fun a _ _ _ => ⟨rfl, rfl⟩
  have hsame : verifyArea m areas pt vaddr size targetperm fill =
      verifyLoop ((vaddr + size) % ADDRS) targetperm fill (pgRoundDown vaddr) m pt := by
    unfold verifyArea
    rw [hsearch]
    exact if_pos hgrants
  rw [hsame]
  constructor
  · rintro ⟨m', pt', ret, hrun, hclean⟩
    by_contra htable
    rcases (hspec.of_ok hrun).other (Bool.of_not_eq_true htable) with hret | ⟨no, hbroken⟩
    · exact absurd (hclean.ret.symm.trans hret) (by decide)
    · have hmaps := PageTable.maps_pos.mpr hbroken.mapped
      have hcount := hclean.count no (Nat.add_pos_right _ hmaps) hbroken.head
      have hlow : (m'.phys.record no).count ≤ rest no := hbroken.low
      have hmaps : 0 < pt'.maps no := hmaps
      omega
  · intro htable
    cases hrun : verifyLoop ((vaddr + size) % ADDRS) targetperm fill (pgRoundDown vaddr) m pt with
    | error e => exact Bool.noConfusion ((hspec.of_error hrun).symm.trans htable)
    | ok r =>
      obtain ⟨hret, h', hgoes⟩ := (hspec.of_ok hrun).table htable
      refine ⟨r.1, r.2.1, r.2.2, rfl, hret, fun v => Account.not_null h', fun no => ?_, hgoes.content,
        fun no hno htail => h'.books.count hno htail⟩
      rw [hgoes.locks]
      exact hlock no

/-- The memory while no page is locked. -/
def unlocked (m : Mem) : PhysMem := ⟨m.phys, m.data, fun _ => false⟩

theorem firstExec_modest : ∀ op ∈ firstExec, Modest op := by
  intro op hop
  simp only [firstExec, List.mem_cons, List.not_mem_nil, or_false] at hop
  rcases hop with rfl | rfl
  · trivial
  · refine ⟨by decide, fun _ hf => ?_⟩
    cases hf

/-- A heap of a gigabyte, and one page is left. -/
def bigHeap : List Vm.Op :=
  firstExec ++ [.brk 1 0x40001000, .kernelAlloc, .kernelAlloc, .kernelAlloc, .kernelAlloc, .kernelAlloc]

set_option maxRecDepth 100000 in
/-- The page that is left goes into the first table, and there is none for the second. -/
theorem verify_area_oom_iff_heap : ∃ st tf mm m' pt' ret,
    Reaches Vm.Step (fun _ => Modest) smallBoot st ∧
      st.pcbtable 1 = some ⟨tf, some mm⟩ ∧ freePages st.mem.phys = 1 ∧
      verifyArea (unlocked st.mem) mm.areas mm.pagetable 0x40000000 1 PTE_W (fun _ _ => 0)
        = .ok (m', pt', ret) ∧
      FailsCleanly (st.rest 1) (fun _ _ => False) (unlocked st.mem) mm.pagetable m' pt' ret := by
  have hrun : Leads nextCall smallBoot bigHeap fun st => freePages st.mem.phys = 1 ∧
      ∃ pr ∈ st.pcbtable 1, ∃ mm ∈ pr.mm,
        (∃ vma ∈ searchVmareas mm.areas 0x40000000 1, grants vma.vmFlags PTE_W = true) ∧
          tableFirst ((callNeeds st.mem.phys mm.pagetable 0x40000000 1 PTE_W).drop
            (freePages st.mem.phys)) = true := by
    decide +kernel
  rcases hrun.reaches_of_mem Vm.Step (fun _ => Modest) (fun op hop _ => by
    rcases List.mem_append.mp hop with hop | hop
    · exact firstExec_modest op hop
    · simp only [List.mem_cons, List.not_mem_nil, or_false] at hop
      rcases hop with rfl | rfl | rfl | rfl | rfl | rfl <;> trivial) nextCall_step with
    ⟨st, hreach, hone, ⟨tf, o⟩, hp, mm, hmm, ⟨vma, hsearch, hgrants⟩, htable⟩
  rcases (hmm : o = some mm)
  obtain ⟨m', pt', ret, hcall, hclean⟩ := (verify_area_oom_iff (m := unlocked st.mem)
    ((accounts_reaches hreach).account hp) (fun _ => rfl) hsearch hgrants fun _ _ => 0).mpr htable
  exact ⟨st, tf, mm, m', pt', ret, hreach, hp, hone, hcall, hclean⟩

/-- Parent and child share the page of the stack, and no page is left. -/
def sharedStack : List Vm.Op := firstExec ++ [.fork 1 2 blankMm, .kernelAlloc, .kernelAlloc]

set_option maxRecDepth 100000 in
/-- The copy fails, the call returns 0, and the count of the page is below the mappings. -/
theorem copy_fails_unnoticed : ∃ st tf mm vma m' pt',
    Reaches Vm.Step (fun _ => Modest) smallBoot st ∧
      st.pcbtable 2 = some ⟨tf, some mm⟩ ∧
      searchVmareas mm.areas (USER_STACK_TOP - PGSIZE) 1 = some vma ∧
      grants vma.vmFlags PTE_W = true ∧ freePages st.mem.phys = 0 ∧
      verifyArea (unlocked st.mem) mm.areas mm.pagetable (USER_STACK_TOP - PGSIZE) 1 PTE_W
        (fun _ _ => 0) = .ok (m', pt', 0) ∧
      0 < pt'.maps 8 ∧ (m'.phys.record 8).count < st.rest 2 8 + pt'.maps 8 := by
  have hrun : Leads nextCall smallBoot sharedStack fun st => freePages st.mem.phys = 0 ∧
      ∃ pr ∈ st.pcbtable 2, ∃ mm ∈ pr.mm,
        let va := USER_STACK_TOP - PGSIZE
        (∃ vma ∈ searchVmareas mm.areas va 1, grants vma.vmFlags PTE_W = true) ∧
          (mm.pagetable.pte (vpn va)).leaf = some 8 ∧ (st.mem.phys.record 8).count = 2 ∧
          ∃ r, verifyArea (unlocked st.mem) mm.areas mm.pagetable va 1 PTE_W (fun _ _ => 0) = .ok r ∧
            r.2.2 = 0 ∧ (r.1.phys.record 8).count = 1 ∧ (r.2.1.pte (vpn va)).leaf = some 8 := by
    decide +kernel
  rcases hrun.reaches_of_mem Vm.Step (fun _ => Modest) (fun op hop _ => by
    rcases List.mem_append.mp hop with hop | hop
    · exact firstExec_modest op hop
    · simp only [List.mem_cons, List.not_mem_nil, or_false] at hop
      rcases hop with rfl | rfl | rfl <;> trivial) nextCall_step with
    ⟨st, hreach, hzero, ⟨tf, o⟩, hp, mm, hmm, ⟨vma, hsearch, hgrants⟩, hold, htwo, ⟨m', pt', ret⟩,
      hcall, hret, hone, hnew⟩
  rcases (hmm : o = some mm)
  rcases (hret : ret = 0)
  have haccount := (accounts_reaches hreach).account hp
  have hmaps : 0 < mm.pagetable.maps 8 := PageTable.maps_pos.mpr ⟨_, hold⟩
  have hmaps' : 0 < pt'.maps 8 := PageTable.maps_pos.mpr ⟨_, hnew⟩
  have hcount : (st.mem.phys.record 8).count = st.rest 2 8 + mm.pagetable.maps 8 :=
    haccount.books.count (Nat.add_pos_right _ hmaps) fun _ hf => hf
  have hsingle := haccount.space.single 8
  have hone : (m'.phys.record 8).count = 1 := hone
  exact ⟨st, tf, mm, vma, m', pt', hreach, hp, hsearch, hgrants, hzero, hcall, hmaps', by omega⟩

end Uniks.Oom
