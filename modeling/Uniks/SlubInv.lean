/-
  The invariant of `kmalloc` and `kfree`.

  Every free or live object is a slot: it begins a multiple of its size behind the header and ends
  inside the page.  So two objects of one page overlap only if they are the same one, and the page
  of an object, which `kfree` finds by rounding down, has the header with the size.  A page with a
  header is on the list its free objects say; taking the last free object and giving the first one
  back are where it moves, and `Relisted` says what the lists are after such a step.

  Pages with a header stay handed out (`held`), which keeps the buddy system from giving them to
  anybody else.
-/
import Uniks.PhysInv
import Uniks.Slub

namespace Uniks.Slub

open Uniks.Runs
open Uniks.Phys (BuddyInv)
open Function (update update_self update_of_ne)
open Option (some)

/-! ## The class of a request -/

/-- The halving loop keeps smaller entries on its left and no smaller ones on its right. -/
theorem binarySearchGe_spec {array : Nat → Nat} {n : Nat} (target : Nat)
    (hmono : ∀ i j, i < j → j < n → array i < array j) (l r : Nat) (hlr : l ≤ r) (hr : r ≤ n)
    (hlow : ∀ j, j < l → array j < target) (hhigh : ∀ j, r ≤ j → j < n → target ≤ array j) :
    (∀ j, j < binarySearchGe array target l r → array j < target) ∧
      ∀ j, binarySearchGe array target l r ≤ j → j < n → target ≤ array j := by
  induction l, r using binarySearchGe.induct array target with
  | case1 l r hlt mid hgt ih =>
    rw [binarySearchGe, if_pos hlt, if_pos hgt]
    refine ih (by omega) (by omega) hlow fun j hj hjn => ?_
    rcases Nat.lt_or_eq_of_le hj with hlt' | rfl
    · have hinc := hmono mid j hlt' hjn
      omega
    · exact Nat.le_of_lt hgt
  | case2 l r hlt mid hgt heq =>
    have hmid : mid < n := by omega
    rw [binarySearchGe, if_pos hlt, if_neg hgt, if_pos heq]
    constructor
    · intro j hj
      exact heq ▸ hmono j mid hj hmid
    · intro j hj hjn
      rcases Nat.lt_or_eq_of_le hj with hlt' | hjm
      · exact heq ▸ Nat.le_of_lt (hmono mid j hlt' hjn)
      · exact hjm ▸ Nat.le_of_eq heq.symm
  | case3 l r hlt mid hgt hne ih =>
    have hmid : mid < n := by omega
    rw [binarySearchGe, if_pos hlt, if_neg hgt, if_neg hne]
    refine ih (by omega) hr (fun j hj => ?_) hhigh
    have hsmall : array mid < target := by omega
    rcases Nat.lt_or_eq_of_le (show j ≤ mid from by omega) with hlt' | rfl
    · exact Nat.lt_trans (hmono j mid hlt' hmid) hsmall
    · exact hsmall
  | case4 l r hge =>
    rw [binarySearchGe, if_neg hge]
    obtain rfl : l = r := by omega
    exact ⟨hlow, hhigh⟩

/-- The smallest class that fits. -/
def Fits (idx : Cache) (size : Nat) : Prop := size ≤ objSize idx ∧ ∀ j, j < idx → objSize j < size

theorem objSize_mono : ∀ i j : Cache, i < j → objSize i < objSize j := by decide

theorem slubSize_getD {i : Nat} (h : i < SLUBNUM) : slubSize.getD i 0 = objSize ⟨i, h⟩ := by
  show slubSize.getD i 0 = slubSize.get ⟨i, h⟩
  rw [List.getD_eq_getElem _ _ h]
  rfl

theorem cacheIdx_fits {size : Nat} (hmax : size ≤ 1536) :
    ∃ h : cacheIdx size < SLUBNUM, Fits ⟨cacheIdx size, h⟩ size := by
  have hmono : ∀ i j, i < j → j < SLUBNUM → slubSize.getD i 0 < slubSize.getD j 0 := by
    intro i j hij hj
    rw [slubSize_getD hj, slubSize_getD (Nat.lt_trans hij hj)]
    exact objSize_mono _ _ hij
  obtain ⟨hlow, hhigh⟩ := binarySearchGe_spec size hmono 0 SLUBNUM (Nat.zero_le _)
    (Nat.le_refl _) (fun j hj => absurd hj (Nat.not_lt_zero j)) fun j hj hjn => absurd hj (by omega)
  have hin : cacheIdx size < SLUBNUM := by
    by_contra hge
    -- past the last class the last one would be too small
    have hlast : slubSize.getD 12 0 < size := hlow 12 (by
      show 12 < cacheIdx size
      have htop : SLUBNUM = 13 := rfl
      omega)
    have htop : slubSize.getD 12 0 = 1536 := rfl
    omega
  refine ⟨hin, ?_, fun j hj => ?_⟩
  · rw [← slubSize_getD hin]
    exact hhigh _ (Nat.le_refl _) hin
  · have hsmall := hlow j.val hj
    rw [slubSize_getD j.isLt] at hsmall
    exact hsmall

/-! ## Slots -/

/-- A place for an object: a multiple of the size behind the header, and inside the page. -/
def Slot (idx : Cache) (page o : Nat) : Prop :=
  ∃ i, o = page * PGSIZE + HEADER + i * objSize idx ∧ o + objSize idx < (page + 1) * PGSIZE

variable {idx : Cache} {page o o' size ptr : Nat}

theorem Slot.above_header (h : Slot idx page o) : page * PGSIZE + HEADER ≤ o := by
  obtain ⟨i, rfl, -⟩ := h
  omega

/-- Rounding down finds the page. -/
theorem Slot.div_page (h : Slot idx page o) : o / PGSIZE = page := by
  have hlow := h.above_header
  obtain ⟨i, -, hfit⟩ := h
  simp only [PGSIZE, HEADER] at hlow hfit ⊢
  omega

/-- Two objects of one page do not overlap. -/
theorem Slot.apart (h : Slot idx page o) (h' : Slot idx page o') (hlt : o < o') :
    o + objSize idx ≤ o' := by
  obtain ⟨i, rfl, -⟩ := h
  obtain ⟨j, rfl, -⟩ := h'
  have hij : i < j := by
    by_contra hge
    have hle := Nat.mul_le_mul_right (objSize idx) (Nat.le_of_not_lt hge)
    omega
  have hstep : (i + 1) * objSize idx ≤ j * objSize idx := Nat.mul_le_mul_right _ hij
  rw [Nat.add_mul, Nat.one_mul] at hstep
  omega

/-- What the carving loop leaves: slots, each one once. -/
theorem carve_spec {off : Nat} {freelist : List Nat} (hoff : ∃ i, off = HEADER + i * objSize idx)
    (hslots : ∀ o ∈ freelist, Slot idx page o ∧ o < page * PGSIZE + off) (hnodup : freelist.Nodup) :
    (∀ o ∈ carve idx page off freelist, Slot idx page o) ∧
      (carve idx page off freelist).Nodup := by
  induction off, freelist using carve.induct idx page with
  | case1 off freelist hroom ih =>
    rw [carve, if_pos hroom]
    have hpos := objSize_pos idx
    obtain ⟨i, rfl⟩ := hoff
    refine ih ⟨i + 1, by ring⟩ ?_ ?_
    · intro o ho
      rcases List.mem_cons.mp ho with rfl | hold
      · refine ⟨⟨i, by ring, ?_⟩, by omega⟩
        rw [show (page + 1) * PGSIZE = page * PGSIZE + PGSIZE from by ring]
        omega
      · obtain ⟨hslot, hlt⟩ := hslots o hold
        exact ⟨hslot, by omega⟩
    · refine List.nodup_cons.mpr ⟨fun hmem => ?_, hnodup⟩
      have hlt := (hslots _ hmem).2
      omega
  | case2 off freelist hfull =>
    rw [carve, if_neg hfull]
    exact ⟨fun o ho => (hslots o ho).1, hnodup⟩

theorem carve_ne_nil {off : Nat} {freelist : List Nat} (h : freelist ≠ []) :
    carve idx page off freelist ≠ [] := by
  induction off, freelist using carve.induct idx page with
  | case1 off freelist hroom ih =>
    rw [carve, if_pos hroom]
    exact ih (List.cons_ne_nil _ _)
  | case2 off freelist hfull =>
    rw [carve, if_neg hfull]
    exact h

/-- An object of every size fits behind the header. -/
theorem header_fits : ∀ idx : Cache, HEADER + objSize idx < PGSIZE := by decide

theorem carve_header_ne_nil : carve idx page HEADER [] ≠ [] := by
  rw [carve, if_pos (header_fits idx)]
  exact carve_ne_nil (List.cons_ne_nil _ _)

theorem carve_header (idx : Cache) (page : Nat) :
    (∀ o ∈ carve idx page HEADER [], Slot idx page o) ∧ (carve idx page HEADER []).Nodup := by
  refine carve_spec ⟨0, ?_⟩ (fun o ho => absurd ho List.not_mem_nil) List.nodup_nil
  rw [Nat.zero_mul, Nat.add_zero]

/-! ## The lists -/

/-- A page with a header is on the list that its free objects say, and only such pages are. -/
structure ListsOk (s : Caches) : Prop where
  onPartial : ∀ idx page, page ∈ s.partiallist idx ↔
    ∃ n, s.node page = some n ∧ n.kmemCacheLinked = idx ∧ n.objFreelist ≠ []
  onFull : ∀ idx page, page ∈ s.fulllist idx ↔
    ∃ n, s.node page = some n ∧ n.kmemCacheLinked = idx ∧ n.objFreelist = []
  nodupPartial : ∀ idx, (s.partiallist idx).Nodup
  nodupFull : ∀ idx, (s.fulllist idx).Nodup

/-- The lists of `s'` are those of `s` without the page. -/
structure Unlisted (s s' : Caches) (page : Nat) : Prop where
  partialOther : ∀ idx q, q ≠ page → (q ∈ s'.partiallist idx ↔ q ∈ s.partiallist idx)
  fullOther : ∀ idx q, q ≠ page → (q ∈ s'.fulllist idx ↔ q ∈ s.fulllist idx)
  partialSelf : ∀ idx, page ∉ s'.partiallist idx
  fullSelf : ∀ idx, page ∉ s'.fulllist idx
  nodupPartial : ∀ idx, (s'.partiallist idx).Nodup
  nodupFull : ∀ idx, (s'.fulllist idx).Nodup

/-- The header of the page has changed to `n`, and the page is where `n` says. -/
structure Relisted (s s' : Caches) (page : Nat) (n : SlubPagesNode) : Prop where
  node : s'.node = update s.node page (some n)
  partialOther : ∀ idx q, q ≠ page → (q ∈ s'.partiallist idx ↔ q ∈ s.partiallist idx)
  fullOther : ∀ idx q, q ≠ page → (q ∈ s'.fulllist idx ↔ q ∈ s.fulllist idx)
  partialSelf : ∀ idx, page ∈ s'.partiallist idx ↔ n.kmemCacheLinked = idx ∧ n.objFreelist ≠ []
  fullSelf : ∀ idx, page ∈ s'.fulllist idx ↔ n.kmemCacheLinked = idx ∧ n.objFreelist = []
  nodupPartial : ∀ idx, (s'.partiallist idx).Nodup
  nodupFull : ∀ idx, (s'.fulllist idx).Nodup

variable {s s' s₁ : Caches} {n n' : SlubPagesNode} {objs : Nat → Option Nat}

theorem ListsOk.relist (h : ListsOk s) (hr : Relisted s s' page n) : ListsOk s' := by
  refine ⟨fun idx q => ?_, fun idx q => ?_, hr.nodupPartial, hr.nodupFull⟩
  · rw [hr.node]
    by_cases hq : q = page
    · subst hq
      rw [hr.partialSelf, update_self]
      simp
    · rw [hr.partialOther idx q hq, update_of_ne hq]
      exact h.onPartial idx q
  · rw [hr.node]
    by_cases hq : q = page
    · subst hq
      rw [hr.fullSelf, update_self]
      simp
    · rw [hr.fullOther idx q hq, update_of_ne hq]
      exact h.onFull idx q

/-- `list_del` takes the page off. -/
theorem ListsOk.listDel (h : ListsOk s) (page : Nat) : Unlisted s (s.listDel page) page where
  partialOther idx q hq := by
    show q ∈ (s.partiallist idx).erase page ↔ _
    rw [(h.nodupPartial idx).mem_erase_iff]
    simp [hq]
  fullOther idx q hq := by
    show q ∈ (s.fulllist idx).erase page ↔ _
    rw [(h.nodupFull idx).mem_erase_iff]
    simp [hq]
  partialSelf idx hmem := by
    have hne := (h.nodupPartial idx).mem_erase_iff.mp hmem
    exact hne.1 rfl
  fullSelf idx hmem := by
    have hne := (h.nodupFull idx).mem_erase_iff.mp hmem
    exact hne.1 rfl
  nodupPartial idx := (h.nodupPartial idx).erase page
  nodupFull idx := (h.nodupFull idx).erase page

/-- A page without a header is on no list. -/
theorem ListsOk.unlisted (h : ListsOk s) (hnone : s.node page = none) : Unlisted s s page where
  partialOther _ _ _ := Iff.rfl
  fullOther _ _ _ := Iff.rfl
  partialSelf idx hmem := by
    obtain ⟨n, hn, -⟩ := (h.onPartial idx page).mp hmem
    rw [hnone] at hn
    cases hn
  fullSelf idx hmem := by
    obtain ⟨n, hn, -⟩ := (h.onFull idx page).mp hmem
    rw [hnone] at hn
    cases hn
  nodupPartial := h.nodupPartial
  nodupFull := h.nodupFull

theorem mem_addFront {lists : Cache → List Nat} {q : Nat} {k : Cache} :
    q ∈ update lists idx (page :: lists idx) k ↔ q ∈ lists k ∨ (q = page ∧ k = idx) := by
  by_cases hk : k = idx
  · subst hk
    rw [update_self, List.mem_cons]
    simp [or_comm]
  · rw [update_of_ne hk]
    simp [hk]

theorem nodup_addFront {lists : Cache → List Nat} (h : ∀ k, (lists k).Nodup)
    (hnot : page ∉ lists idx) (k : Cache) :
    (update lists idx (page :: lists idx) k).Nodup := by
  by_cases hk : k = idx
  · subst hk
    rw [update_self]
    exact List.nodup_cons.mpr ⟨hnot, h k⟩
  · rw [update_of_ne hk]
    exact h k

/-- A page that has just been taken off is put on the `partiallist`. -/
theorem Unlisted.addPartial (h : Unlisted s s₁ page) (hlink : n.kmemCacheLinked = idx)
    (hfree : n.objFreelist ≠ []) (hnode : s'.node = update s.node page (some n))
    (hpart : s'.partiallist = (s₁.addPartial idx page).partiallist)
    (hfull : s'.fulllist = s₁.fulllist) : Relisted s s' page n where
  node := hnode
  partialOther k q hq := by
    rw [hpart, ← h.partialOther k q hq]
    exact mem_addFront.trans (by simp [hq])
  fullOther k q hq := by
    rw [hfull]
    exact h.fullOther k q hq
  partialSelf k := by
    rw [hpart]
    exact mem_addFront.trans (by simp [h.partialSelf k, hfree, ← hlink, eq_comm])
  fullSelf k := by
    rw [hfull]
    simp [h.fullSelf k, hfree]
  nodupPartial k := hpart ▸ nodup_addFront h.nodupPartial (h.partialSelf idx) k
  nodupFull k := hfull ▸ h.nodupFull k

/-- A page that has just been taken off is put on the `fulllist`. -/
theorem Unlisted.addFull (h : Unlisted s s₁ page) (hlink : n.kmemCacheLinked = idx)
    (hfree : n.objFreelist = []) (hnode : s'.node = update s.node page (some n))
    (hpart : s'.partiallist = s₁.partiallist)
    (hfull : s'.fulllist = (s₁.addFull idx page).fulllist) : Relisted s s' page n where
  node := hnode
  partialOther k q hq := by
    rw [hpart]
    exact h.partialOther k q hq
  fullOther k q hq := by
    rw [hfull, ← h.fullOther k q hq]
    exact mem_addFront.trans (by simp [hq])
  partialSelf k := by
    rw [hpart]
    simp [h.partialSelf k, hfree]
  fullSelf k := by
    rw [hfull]
    exact mem_addFront.trans (by simp [h.fullSelf k, hfree, ← hlink, eq_comm])
  nodupPartial k := hpart ▸ h.nodupPartial k
  nodupFull k := hfull ▸ nodup_addFront h.nodupFull (h.fullSelf idx) k

/-- A page with free objects before and after stays where it is. -/
theorem ListsOk.stay (h : ListsOk s) (n' : SlubPagesNode) (hold : s.node page = some n)
    (hfree : n.objFreelist ≠ []) (hlink : n'.kmemCacheLinked = n.kmemCacheLinked)
    (hfree' : n'.objFreelist ≠ []) : Relisted s (s.setNode page n') page n' where
  node := rfl
  partialOther _ _ _ := Iff.rfl
  fullOther _ _ _ := Iff.rfl
  partialSelf k := by
    show page ∈ s.partiallist k ↔ _
    rw [h.onPartial, hold]
    simp [hfree, hfree', hlink]
  fullSelf k := by
    show page ∈ s.fulllist k ↔ _
    rw [h.onFull, hold]
    simp [hfree, hfree']
  nodupPartial := h.nodupPartial
  nodupFull := h.nodupFull

/-! ## The invariant -/

/-- The free objects of a page. -/
structure NodeOk (objs : Nat → Option Nat) (page : Nat) (n : SlubPagesNode) : Prop where
  slots : ∀ o ∈ n.objFreelist, Slot n.kmemCacheLinked page o
  nodup : n.objFreelist.Nodup
  notLive : ∀ o ∈ n.objFreelist, objs o = none

/-- The lists agree with the headers, pages with a header stay handed out, and objects are slots of
    the class that fits. -/
structure SlubInv (s : Caches) (objs : Nat → Option Nat) : Prop where
  lists : ListsOk s
  buddy : BuddyInv s.mem.phys s.mem.live none
  held : ∀ page n, s.node page = some n → s.mem.live page = some ⟨0, 1⟩
  node : ∀ page n, s.node page = some n → NodeOk objs page n
  live : ∀ o size, objs o = some size → ∃ n, s.node (o / PGSIZE) = some n ∧
    Slot n.kmemCacheLinked (o / PGSIZE) o ∧ Fits n.kmemCacheLinked size

/-- The free and the live objects of one page change, and with them the lists. -/
theorem SlubInv.change {objs' : Nat → Option Nat} (h : SlubInv s objs)
    (hold : s.node page = some n) (hr : Relisted s s' page n') (hmem : s'.mem = s.mem)
    (hlink : n'.kmemCacheLinked = n.kmemCacheLinked) (hnode : NodeOk objs' page n')
    (hother : ∀ o, o / PGSIZE ≠ page → objs' o = objs o)
    (hlive : ∀ o size, o / PGSIZE = page → objs' o = some size →
      Slot n.kmemCacheLinked page o ∧ Fits n.kmemCacheLinked size) : SlubInv s' objs' := by
  refine ⟨h.lists.relist hr, hmem ▸ h.buddy, fun q m hm => ?_, fun q m hm => ?_,
    fun o size ho => ?_⟩
  · rw [hmem]
    rw [hr.node] at hm
    by_cases hq : q = page
    · subst hq
      exact h.held q n hold
    · rw [update_of_ne hq] at hm
      exact h.held q m hm
  · rw [hr.node] at hm
    by_cases hq : q = page
    · subst hq
      rw [update_self] at hm
      exact some.inj hm ▸ hnode
    · rw [update_of_ne hq] at hm
      have hm' := h.node q m hm
      refine ⟨hm'.slots, hm'.nodup, fun o ho => ?_⟩
      have hpage := (hm'.slots o ho).div_page
      rw [hother o (by rw [hpage]; exact hq)]
      exact hm'.notLive o ho
  · rw [hr.node]
    by_cases hq : o / PGSIZE = page
    · obtain ⟨hslot, hfits⟩ := hlive o size hq ho
      refine ⟨n', ?_, ?_, ?_⟩
      · rw [hq, update_self]
      · rw [hq, hlink]
        exact hslot
      · rw [hlink]
        exact hfits
    · rw [hother o hq] at ho
      obtain ⟨m, hm, hslot, hfits⟩ := h.live o size ho
      exact ⟨m, by rw [update_of_ne hq]; exact hm, hslot, hfits⟩

/-! ## `kmalloc` -/

/-- A page that the buddy system hands out, and the invariant it keeps. -/
theorem SlubInv.onePage (h : SlubInv s objs) {phys : Phys.Buddy}
    (ha : Phys.pagesAlloc s.mem.phys 1 = some (phys, page)) :
    s.node page = none ∧ BuddyInv phys (update s.mem.live page (some ⟨0, 1⟩)) none := by
  obtain ⟨order, horder, hnone, -, hinv⟩ :=
    h.buddy.pagesAlloc (Nat.le_refl 9) (fun _ ho => Phys.getPower2_le ho (by decide)) ha
  obtain rfl : order = 0 := by
    by_contra hne
    exact (Phys.getPower2_spec horder).2 0 (by omega) (Nat.le_refl 1)
  refine ⟨?_, hinv⟩
  cases hn : s.node page with
  | none => rfl
  | some n =>
    rw [h.held page n hn] at hnone
    cases hnone

/-- `new_slub_pages_node`, and the new page on its `partiallist`. -/
theorem SlubInv.newNode (h : SlubInv s objs) (hnew : newSlubPagesNode s idx = some (s₁, page)) :
    SlubInv (s₁.addPartial idx page) objs := by
  unfold newSlubPagesNode at hnew
  obtain ⟨⟨phys, p⟩, ha, hrest⟩ := Option.bind_eq_some_iff.mp hnew
  obtain ⟨rfl, rfl⟩ := Prod.mk.inj (some.inj hrest)
  obtain ⟨hnone, hbuddy⟩ := h.onePage ha
  have hr : Relisted s ((({ s with
      mem := ⟨phys, update s.mem.live p (some ⟨0, 1⟩)⟩ }).setNode p
        ⟨idx, carve idx p HEADER []⟩).addPartial idx p) p ⟨idx, carve idx p HEADER []⟩ :=
    (h.lists.unlisted hnone).addPartial rfl carve_header_ne_nil rfl rfl rfl
  obtain ⟨hslots, hnodup⟩ := carve_header idx p
  refine ⟨h.lists.relist hr, hbuddy, fun q m hm => ?_, fun q m hm => ?_, fun o size ho => ?_⟩
  · rw [hr.node] at hm
    show update s.mem.live p (some ⟨0, 1⟩) q = _
    by_cases hq : q = p
    · subst hq
      rw [update_self]
    · rw [update_of_ne hq] at hm ⊢
      exact h.held q m hm
  · rw [hr.node] at hm
    by_cases hq : q = p
    · subst hq
      rw [update_self] at hm
      obtain rfl := some.inj hm
      refine ⟨hslots, hnodup, fun o ho => ?_⟩
      -- a live object would be in a page that has a header already
      cases hobj : objs o with
      | none => rfl
      | some size =>
        obtain ⟨m, hm, -⟩ := h.live o size hobj
        rw [(hslots o ho).div_page, hnone] at hm
        exact nomatch hm
    · rw [update_of_ne hq] at hm
      exact h.node q m hm
  · obtain ⟨m, hm, hslot, hfits⟩ := h.live o size ho
    have hq : o / PGSIZE ≠ p := fun heq => by
      rw [heq, hnone] at hm
      exact nomatch hm
    refine ⟨m, ?_, hslot, hfits⟩
    rw [hr.node, update_of_ne hq]
    exact hm

/-- After the refill there is a page with a free object, unless the buddy system has failed. -/
theorem SlubInv.refill (h : SlubInv s objs) (idx : Cache) :
    (Slub.refill s idx = none →
      s.partiallist idx = [] ∧ Phys.pagesAlloc s.mem.phys 1 = none) ∧
      ∀ s', Slub.refill s idx = some s' → SlubInv s' objs ∧ s'.partiallist idx ≠ [] := by
  unfold Slub.refill
  by_cases hempty : s.partiallist idx = []
  · rw [if_pos (List.isEmpty_iff.mpr hempty)]
    cases hnew : newSlubPagesNode s idx with
    | none =>
      refine ⟨fun _ => ⟨hempty, ?_⟩, fun _ hs' => nomatch hs'⟩
      unfold newSlubPagesNode at hnew
      cases ha : Phys.pagesAlloc s.mem.phys 1 with
      | none => rfl
      | some r =>
        rw [ha] at hnew
        cases hnew
    | some r =>
      obtain ⟨s₁, p⟩ := r
      refine ⟨fun hnone => (nomatch hnone), fun s' hs' => ?_⟩
      cases hs'
      refine ⟨h.newNode hnew, ?_⟩
      show update s₁.partiallist idx (p :: s₁.partiallist idx) idx ≠ []
      rw [update_self]
      exact List.cons_ne_nil _ _
  · rw [if_neg (by simp [hempty])]
    refine ⟨fun hnone => (nomatch hnone), fun s' hs' => ?_⟩
    cases hs'
    exact ⟨h, hempty⟩

/-- The first page of the `partiallist` has a free object, which becomes live. -/
theorem SlubInv.takeObj (h : SlubInv s objs) (hfits : Fits idx size)
    (hne : s.partiallist idx ≠ []) :
    ∃ s' ptr, Slub.takeObj s idx = some (s', ptr) ∧
      SlubInv s' (update objs ptr (some size)) := by
  obtain ⟨page, pages, hlist⟩ := List.exists_cons_of_ne_nil hne
  have hmem : page ∈ s.partiallist idx := by
    rw [hlist]
    exact List.mem_cons_self
  obtain ⟨n, hn, hlink, hfree⟩ := (h.lists.onPartial idx page).mp hmem
  obtain ⟨ptr, rest, hobjs⟩ := List.exists_cons_of_ne_nil hfree
  have hnode := h.node page n hn
  have hslot := hnode.slots ptr (hobjs ▸ List.mem_cons_self)
  have hnodup := hnode.nodup
  rw [hobjs, List.nodup_cons] at hnodup
  -- the header without the object, and the object among the live ones
  have hnode' : NodeOk (update objs ptr (some size)) page
      { n with objFreelist := rest } := by
    refine ⟨fun o ho => ?_, hnodup.2, fun o ho => ?_⟩
    · exact hnode.slots o (hobjs ▸ List.mem_cons_of_mem ptr ho)
    · have hne' : o ≠ ptr := fun heq => hnodup.1 (heq ▸ ho)
      rw [update_of_ne hne']
      exact hnode.notLive o (hobjs ▸ List.mem_cons_of_mem ptr ho)
  have hother : ∀ o, o / PGSIZE ≠ page → update objs ptr (some size) o = objs o := by
    intro o ho
    refine update_of_ne ?_ _ _
    rintro rfl
    exact ho hslot.div_page
  have hlive : ∀ o sz, o / PGSIZE = page → update objs ptr (some size) o = some sz →
      Slot n.kmemCacheLinked page o ∧ Fits n.kmemCacheLinked sz := by
    intro o sz hpage ho
    by_cases heq : o = ptr
    · subst heq
      rw [update_self] at ho
      cases ho
      exact ⟨hslot, hlink ▸ hfits⟩
    · rw [update_of_ne heq] at ho
      obtain ⟨m, hm, hslot', hfits'⟩ := h.live o sz ho
      rw [hpage] at hm hslot'
      cases hn.symm.trans hm
      exact ⟨hslot', hfits'⟩
  unfold Slub.takeObj
  simp only [hlist, hn, hobjs, Option.bind_eq_bind, Option.bind_some]
  by_cases hrest : rest = []
  · have hr : Relisted s (((s.setNode page { n with objFreelist := rest }).listDel page).addFull
        n.kmemCacheLinked page) page { n with objFreelist := rest } :=
      (h.lists.listDel page).addFull rfl hrest rfl rfl rfl
    refine ⟨_, ptr, rfl, ?_⟩
    rw [if_pos (List.isEmpty_iff.mpr hrest)]
    exact h.change hn hr rfl rfl hnode' hother hlive
  · have hr := h.lists.stay { n with objFreelist := rest } hn hfree rfl hrest
    refine ⟨_, ptr, rfl, ?_⟩
    rw [if_neg (by simp [hrest])]
    exact h.change hn hr rfl rfl hnode' hother hlive

/-- `kmalloc` succeeds and keeps the invariant, unless it needs a page and there is none. -/
theorem SlubInv.kmalloc (h : SlubInv s objs) (hmin : 1 ≤ size) (hmax : size ≤ 1536) :
    (∀ hidx : cacheIdx size < SLUBNUM, Slub.kmalloc s size = none →
      s.partiallist ⟨cacheIdx size, hidx⟩ = [] ∧ Phys.pagesAlloc s.mem.phys 1 = none) ∧
      ∀ s' ptr, Slub.kmalloc s size = some (s', ptr) →
        SlubInv s' (update objs ptr (some size)) := by
  obtain ⟨hidx, hfits⟩ := cacheIdx_fits hmax
  have hsize : 0 < size ∧ size ≤ slubSize.getD (SLUBNUM - 1) 0 := ⟨hmin, hmax⟩
  unfold Slub.kmalloc
  rw [if_pos hsize, dif_pos hidx]
  obtain ⟨hfail, hgood⟩ := h.refill ⟨cacheIdx size, hidx⟩
  cases hre : Slub.refill s ⟨cacheIdx size, hidx⟩ with
  | none => exact ⟨fun _ _ => hfail hre, fun s' ptr hrun => nomatch hrun⟩
  | some s₁ =>
    obtain ⟨hinv, hne⟩ := hgood s₁ hre
    obtain ⟨s₂, ptr₂, htake, hinv₂⟩ := hinv.takeObj hfits hne
    rw [Option.bind_some, htake]
    refine ⟨fun _ hnone => (nomatch hnone), fun s' ptr hrun => ?_⟩
    cases hrun
    exact hinv₂

/-! ## `kfree` -/

/-- `kfree` of a live object finds its header and gives the object back. -/
theorem SlubInv.kfree (h : SlubInv s objs) (hobj : objs ptr = some size) :
    ∃ s', Slub.kfree s (some ptr) = some s' ∧ SlubInv s' (update objs ptr none) := by
  obtain ⟨n, hn, hslot, hfits⟩ := h.live ptr size hobj
  have hnode := h.node _ n hn
  have hnot : ptr ∉ n.objFreelist := fun hmem => by
    rw [hnode.notLive ptr hmem] at hobj
    cases hobj
  have hnode' : NodeOk (update objs ptr none) (ptr / PGSIZE)
      { n with objFreelist := ptr :: n.objFreelist } := by
    refine ⟨fun o ho => ?_, List.nodup_cons.mpr ⟨hnot, hnode.nodup⟩, fun o ho => ?_⟩
    · rcases List.mem_cons.mp ho with rfl | hold
      · exact hslot
      · exact hnode.slots o hold
    · by_cases heq : o = ptr
      · subst heq
        rw [update_self]
      · rw [update_of_ne heq]
        exact hnode.notLive o ((List.mem_cons.mp ho).resolve_left heq)
  have hother : ∀ o, o / PGSIZE ≠ ptr / PGSIZE → update objs ptr none o = objs o := by
    intro o ho
    refine update_of_ne ?_ _ _
    rintro rfl
    exact ho rfl
  have hlive : ∀ o sz, o / PGSIZE = ptr / PGSIZE → update objs ptr none o = some sz →
      Slot n.kmemCacheLinked (ptr / PGSIZE) o ∧ Fits n.kmemCacheLinked sz := by
    intro o sz hpage ho
    have hne : o ≠ ptr := fun heq => by
      rw [heq, update_self] at ho
      cases ho
    rw [update_of_ne hne] at ho
    obtain ⟨m, hm, hslot', hfits'⟩ := h.live o sz ho
    rw [hpage] at hm hslot'
    cases hn.symm.trans hm
    exact ⟨hslot', hfits'⟩
  unfold Slub.kfree
  simp only [hn, Option.bind_eq_bind, Option.bind_some]
  refine ⟨_, rfl, ?_⟩
  by_cases hempty : n.objFreelist = []
  · rw [if_pos (List.isEmpty_iff.mpr hempty)]
    have hr : Relisted s (((s.listDel (ptr / PGSIZE)).addPartial n.kmemCacheLinked
        (ptr / PGSIZE)).setNode (ptr / PGSIZE) { n with objFreelist := ptr :: n.objFreelist })
        (ptr / PGSIZE) { n with objFreelist := ptr :: n.objFreelist } :=
      (h.lists.listDel _).addPartial rfl (List.cons_ne_nil _ _) rfl rfl rfl
    exact h.change hn hr rfl rfl hnode' hother hlive
  · rw [if_neg (by simp [hempty])]
    have hr := h.lists.stay { n with objFreelist := ptr :: n.objFreelist } hn hempty rfl
      (List.cons_ne_nil _ _)
    exact h.change hn hr rfl rfl hnode' hother hlive

/-! ## The other users of the buddy system -/

theorem SlubInv.pages (h : SlubInv s objs) {op : Phys.Op} {mem : Phys.State}
    (hother : ∀ page, target op = some page → s.node page = none)
    (hrun : Phys.Step s.mem op mem) : SlubInv { s with mem := mem } objs := by
  have hbuddy := (h.buddy.step hrun).1
  refine ⟨⟨h.lists.onPartial, h.lists.onFull, h.lists.nodupPartial, h.lists.nodupFull⟩, hbuddy,
    fun page n hn => ?_, h.node, h.live⟩
  have hheld := h.held page n hn
  show mem.live page = some ⟨0, 1⟩
  -- the block that changes is another one: it is new, or it has no header
  have hne : ∀ q, target op = some q → page ≠ q := by
    rintro q hq rfl
    rw [hother page hq] at hn
    cases hn
  obtain ⟨m, caches⟩ := s
  cases hrun with
  | alloc hmin hmax horder hrun =>
    obtain ⟨-, -, hnone, -, -⟩ :=
      h.buddy.pagesAlloc (Nat.le_refl 9) (fun _ ho => Phys.getPower2_le ho hmax) hrun
    have hpq : page ≠ _ := fun heq => by
      rw [heq] at hheld
      exact nomatch hnone.symm.trans hheld
    exact (update_of_ne hpq _ _).trans hheld
  | @dup _ _ q _ _ hlive hfew hrun =>
    exact (update_of_ne (hne q rfl) _ _).trans hheld
  | @undup _ _ q _ b _ hlive hrun =>
    show (if b.refs > 1 then update _ q _ else _) page = _
    split
    · exact (update_of_ne (hne q rfl) _ _).trans hheld
    · exact hheld
  | @free _ _ q _ _ hlive hrun =>
    exact (update_of_ne (hne q rfl) _ _).trans hheld

/-! ## Runs -/

/-- What holds between calls.  `freeApart` is what lets a free object keep its links in its own
    bytes: nobody else owns them. -/
structure SlubOk (st : State) : Prop where
  object : ∀ o size, st.objs o = some size → ∃ n, st.slub.node (o / PGSIZE) = some n ∧
    Fits n.kmemCacheLinked size ∧ o / PGSIZE * PGSIZE + HEADER ≤ o ∧
      o + objSize n.kmemCacheLinked ≤ (o / PGSIZE + 1) * PGSIZE
  apart : ∀ o o' size size' n, st.objs o = some size → st.objs o' = some size' → o < o' →
    st.slub.node (o / PGSIZE) = some n → o + objSize n.kmemCacheLinked ≤ o'
  notFree : ∀ o size page n, st.objs o = some size → st.slub.node page = some n →
    o ∉ n.objFreelist
  freeApart : ∀ o size n page f m, st.objs o = some size → st.slub.node (o / PGSIZE) = some n →
    st.slub.node page = some m → f ∈ m.objFreelist →
      o + objSize n.kmemCacheLinked ≤ f ∨ f + objSize m.kmemCacheLinked ≤ o
  lists : ListsOk st.slub
  notBoth : ∀ idx k page, page ∈ st.slub.fulllist idx → page ∉ st.slub.partiallist k
  kmalloc : ∀ size, 1 ≤ size → size ≤ 1536 → ∃ h : cacheIdx size < SLUBNUM,
    kmalloc st.slub size = none →
      st.slub.partiallist ⟨cacheIdx size, h⟩ = [] ∧ Phys.pagesAlloc st.slub.mem.phys 1 = none
  kfree : ∀ o size, st.objs o = some size → kfree st.slub (some o) ≠ none

/-- Slots of one page, or of two: the one in front ends before the other begins. -/
theorem slots_apart {k : Cache} {q : Nat} (h : Slot idx page o) (h' : Slot k q o')
    (hsame : page = q → idx = k) (hlt : o < o') : o + objSize idx ≤ o' := by
  by_cases hpage : page = q
  · subst hpage
    obtain rfl := hsame rfl
    exact h.apart h' hlt
  · have hdiv := h.div_page
    have hdiv' := h'.div_page
    have hlow := h'.above_header
    obtain ⟨i, -, hfit⟩ := h
    have hle : page ≤ q := by
      rw [← hdiv, ← hdiv']
      exact Nat.div_le_div_right (Nat.le_of_lt hlt)
    have hnext : (page + 1) * PGSIZE ≤ q * PGSIZE := Nat.mul_le_mul_right _ (by omega)
    omega

theorem SlubInv.ok {st : State} (h : SlubInv st.slub st.objs) : SlubOk st := by
  have hsame : ∀ {page q n m}, st.slub.node page = some n → st.slub.node q = some m → page = q →
      n.kmemCacheLinked = m.kmemCacheLinked := by
    rintro page q n m hn hm rfl
    rw [some.inj (hn.symm.trans hm)]
  refine ⟨fun o size ho => ?_, fun o o' size size' n ho ho' hlt hn => ?_,
    fun o size page n ho hn hmem => ?_, fun o size n page f m ho hn hm hf => ?_, h.lists,
    fun idx k page hfull hpart => ?_, fun size hmin hmax => ?_, fun o size ho => ?_⟩
  · obtain ⟨n, hn, hslot, hfits⟩ := h.live o size ho
    refine ⟨n, hn, hfits, hslot.above_header, ?_⟩
    obtain ⟨i, -, hfit⟩ := hslot
    exact Nat.le_of_lt hfit
  · obtain ⟨a, ha, hslot, -⟩ := h.live o size ho
    obtain ⟨b, hb, hslot', -⟩ := h.live o' size' ho'
    cases ha.symm.trans hn
    exact slots_apart hslot hslot' (hsame ha hb) hlt
  · rw [(h.node page n hn).notLive o hmem] at ho
    cases ho
  · obtain ⟨a, ha, hslot, -⟩ := h.live o size ho
    cases ha.symm.trans hn
    have hslot' := (h.node page m hm).slots f hf
    rcases Nat.lt_trichotomy o f with hlt | rfl | hgt
    · exact .inl (slots_apart hslot hslot' (hsame ha hm) hlt)
    · rw [(h.node page m hm).notLive o hf] at ho
      cases ho
    · exact .inr (slots_apart hslot' hslot (hsame hm ha) hgt)
  · obtain ⟨n, hn, -, hempty⟩ := (h.lists.onFull idx page).mp hfull
    obtain ⟨m, hm, -, hfree⟩ := (h.lists.onPartial k page).mp hpart
    cases hn.symm.trans hm
    exact hfree hempty
  · obtain ⟨hidx, -⟩ := cacheIdx_fits hmax
    exact ⟨hidx, (h.kmalloc hmin hmax).1 hidx⟩
  · obtain ⟨s', hrun, -⟩ := h.kfree ho
    rw [hrun]
    exact fun hnone => nomatch hnone

theorem SlubInv.step {st st' : State} {op : Op} (h : SlubInv st.slub st.objs)
    (hs : Step st op st') : SlubInv st'.slub st'.objs := by
  cases hs with
  | kmalloc hmin hmax hrun => exact (h.kmalloc hmin hmax).2 _ _ hrun
  | kfree hlive hrun =>
    obtain ⟨s', hrun', hinv⟩ := h.kfree hlive
    cases hrun.symm.trans hrun'
    exact hinv
  | pages hother hrun => exact h.pages hother hrun

theorem start_inv (memEnd : Nat) : SlubInv (start memEnd).slub (start memEnd).objs := by
  have hlists : ListsOk (start memEnd).slub := by
    refine ⟨fun idx page => ?_, fun idx page => ?_, fun _ => List.nodup_nil,
      fun _ => List.nodup_nil⟩
    · simp [start, kmemCacheInit]
    · simp [start, kmemCacheInit]
  exact ⟨hlists, (Phys.buddySystemInit_inv memEnd).1, fun _ _ hn => (nomatch hn),
    fun _ _ hn => (nomatch hn), fun _ _ ho => (nomatch ho)⟩

theorem inv_of_reaches {memEnd : Nat} {st : State}
    (hr : Reaches Step anyInput (start memEnd) st) : SlubInv st.slub st.objs :=
  hr.invariant (I := fun st => SlubInv st.slub st.objs) (start_inv memEnd)
    fun _ _ _ h _ hs => h.step hs

/-- In every state that `kmalloc`, `kfree` and the other users of the pages lead to, the objects and
    the lists are as they should be, and `kmalloc` fails only for want of a page. -/
theorem slub_safe {memEnd : Nat} {st : State} (hr : Reaches Step anyInput (start memEnd) st) :
    SlubOk st :=
  (inv_of_reaches hr).ok

/-- A request, if its caller keeps the rules. -/
def serve (st : State) : Op → Option State
  | .kmalloc size =>
    if 1 ≤ size ∧ size ≤ 1536 then
      (kmalloc st.slub size).map fun r => ⟨r.1, update st.objs r.2 (some size)⟩
    else none
  | .kfree ptr =>
    if (st.objs ptr).isSome then
      (kfree st.slub (some ptr)).map fun s => ⟨s, update st.objs ptr none⟩
    else none
  | .pages op =>
    if Phys.small op && (target op).all fun page => (st.slub.node page).isNone then
      (Phys.serve st.slub.mem op).map fun mem => ⟨{ st.slub with mem := mem }, st.objs⟩
    else none

theorem serve_step (st : State) (op : Op) (st' : State) (h : serve st op = some st') :
    Step st op st' := by
  obtain ⟨s, objs⟩ := st
  cases op with
  | kmalloc size =>
    simp only [serve] at h
    split at h
    case isTrue hsize =>
      obtain ⟨⟨s', ptr⟩, hrun, rfl⟩ := Option.map_eq_some_iff.mp h
      exact Step.kmalloc hsize.1 hsize.2 hrun
    case isFalse => cases h
  | kfree ptr =>
    simp only [serve] at h
    split at h
    case isTrue hlive =>
      obtain ⟨s', hrun, rfl⟩ := Option.map_eq_some_iff.mp h
      obtain ⟨size, hsize⟩ := Option.isSome_iff_exists.mp hlive
      exact Step.kfree hsize hrun
    case isFalse => cases h
  | pages op =>
    simp only [serve, Bool.and_eq_true] at h
    split at h
    case isTrue hrules =>
      obtain ⟨hsmall, hother⟩ := hrules
      obtain ⟨mem, hrun, rfl⟩ := Option.map_eq_some_iff.mp h
      refine Step.pages (fun page hpage => ?_) (Phys.serve_step hsmall hrun)
      rw [hpage, Option.all_some] at hother
      exact Option.isNone_iff_eq_none.mp hother
    case isFalse => cases h

/-- Two objects fill a page, which goes to the full list and comes back when one of them is freed;
    somebody else has a page in between. -/
theorem slub_safe_two_objects : ∃ st, Reaches Step anyInput (start 4) st ∧
    st.objs 1576 = none ∧ st.objs 40 = some 1536 ∧ st.slub.partiallist 12 = [0] ∧
      st.slub.mem.live 1 = some ⟨0, 1⟩ ∧ SlubOk st := by
  have hrun : Leads serve (start 4) [.kmalloc 1536, .pages (.alloc 1), .kmalloc 1536, .kfree 1576]
      fun st => st.objs 1576 = none ∧ st.objs 40 = some 1536 ∧ st.slub.partiallist 12 = [0] ∧
        st.slub.mem.live 1 = some ⟨0, 1⟩ := by
    decide +kernel
  obtain ⟨st, hreach, hfreed, hlive, hlist, hpage⟩ :=
    hrun.reaches Step anyInput fun s op s' h => ⟨trivial, serve_step s op s' h⟩
  exact ⟨st, hreach, hfreed, hlive, hlist, hpage, slub_safe hreach⟩

end Uniks.Slub
