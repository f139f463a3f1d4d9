/-
  The page table in memory: `walk`, `walkaddr` and `vaddr2paddr` of `kernel/mm/vm.c`.

  Here a table is a page of the physical memory with 512 entries of 64 bits, and the tables of all
  page tables lie side by side: a store into one of them is kept from the others by nothing but the
  page numbers in the entries.  What keeps it is that the tables of a page table form a tree, which
  no entry leads into twice (`InOrder`); `Uniks.EntryTree` says what a store does then.

  A table is given by the number of its page, its physical address in pages.  An entry has 44 bits
  for it, but gcc computes the address in the 44 bits of the field, so that only the pages below
  2^32 are reached through an entry.  `fresh` lists the pages that `pages_zalloc` will hand out,
  `NULL` after the last.
-/
import Uniks.Lib.Slots
import Uniks.VerifyArea
import Uniks.Lib.EntryTree

namespace Uniks.PageWalk

open Uniks.Vm EntryTree
open Function (update update_self update_of_ne)
open Option (some)

/-! ## Entries -/

abbrev Word := BitVec 64

/-- The bit field `perm` of `struct pgtable_entry_t`. -/
def perm (pte : Word) : Perm := pte.extractLsb' 0 8

def valid (pte : Word) : Bool := pte.getLsbD 0

def user (pte : Word) : Bool := pte.getLsbD 4

/-- The bit field `paddr`, a page number. -/
def paddr (pte : Word) : Nat := (pte.extractLsb' 10 44).toNat

/-- The page numbers that fit into an entry. -/
abbrev PAGES : Nat := 2 ^ 44

/-- The macro `PA2PTE`. -/
def pa2pte (pa : Nat) : Word := BitVec.ofNat 64 pa >>> 12 <<< 10

/-- The macro `PNO2PA` on the field `paddr`: the shift is one of the 44 bits of the field. -/
def pno2pa (no : Nat) : Nat := no * PGSIZE % 2 ^ 44

/-- The pages whose addresses fit into these bits; the machine has no others. -/
abbrev MEMPAGES : Nat := 2 ^ 32

/-- The page at the address that an entry gives. -/
def target (pte : Word) : Nat := pno2pa (paddr pte) / PGSIZE

/-- An entry that is stored: an address and flags. -/
def mkPte (pa : Nat) (flags : Perm) : Word := pa2pte pa ||| flags.setWidth 64 ||| 1#64

theorem getLsbD_pa2pte_low {k : Nat} (pa : Nat) (hk : k < 10) :
    (pa2pte pa).getLsbD k = false := by
  unfold pa2pte
  rw [BitVec.getLsbD_shiftLeft]
  simp [hk]

theorem getLsbD_one (k : Nat) : (1#64).getLsbD k = decide (k = 0) := by
  rw [BitVec.getLsbD_one]
  simp

theorem valid_mkPte (pa : Nat) (flags : Perm) : valid (mkPte pa flags) = true := by
  unfold valid mkPte
  rw [BitVec.getLsbD_or, getLsbD_one]
  simp

theorem perm_mkPte (pa : Nat) (flags : Perm) : perm (mkPte pa flags) = flags ||| PTE_V := by
  apply BitVec.eq_of_getLsbD_eq
  intro k hk
  have hlow : (pa2pte pa).getLsbD k = false := getLsbD_pa2pte_low pa (by omega)
  have hone : PTE_V.getLsbD k = decide (k = 0) := by
    rw [PTE_V, BitVec.getLsbD_one]
    simp
  have hk64 : k < 64 := by omega
  simp only [perm, mkPte, BitVec.getLsbD_extractLsb', BitVec.getLsbD_or, BitVec.getLsbD_setWidth,
    getLsbD_one, hone, Nat.zero_add, hlow]
  simp [hk, hk64]

/-- An address goes through an entry as its page number. -/
theorem paddr_mkPte (pa : Nat) (flags : Perm) :
    paddr (mkPte pa flags) = pa / PGSIZE % PAGES := by
  have hbits : (mkPte pa flags).extractLsb' 10 44 = BitVec.ofNat 44 (pa / PGSIZE) := by
    apply BitVec.eq_of_getLsbD_eq
    intro k hk
    have hflags : flags.getLsbD (10 + k) = false := BitVec.getLsbD_of_ge _ _ (by omega)
    have hone : (1#64).getLsbD (10 + k) = false := by
      rw [getLsbD_one, decide_eq_false_iff_not]
      omega
    have hshift : (pa / PGSIZE).testBit k = pa.testBit (12 + k) := by
      rw [show PGSIZE = 2 ^ 12 from rfl, Nat.testBit_div_two_pow, Nat.add_comm]
    simp only [mkPte, pa2pte, BitVec.getLsbD_extractLsb', BitVec.getLsbD_or,
      BitVec.getLsbD_shiftLeft, BitVec.getLsbD_ushiftRight, BitVec.getLsbD_setWidth, hflags, hone]
    rw [BitVec.getLsbD_ofNat, BitVec.getLsbD_ofNat, hshift]
    have hk12 : 12 + k < 64 := by omega
    have hk10 : 10 + k < 64 := by omega
    simp [hk, hk12, hk10]
  rw [paddr, hbits, BitVec.toNat_ofNat]

theorem pno2pa_eq (no : Nat) : pno2pa no = no % MEMPAGES * PGSIZE := by
  unfold pno2pa
  simp only [PGSIZE, MEMPAGES]
  omega

theorem target_eq (pte : Word) : target pte = paddr pte % MEMPAGES := by
  rw [target, pno2pa_eq, Nat.mul_div_cancel _ (by decide)]

theorem pno2pa_target (pte : Word) : pno2pa (paddr pte) = target pte * PGSIZE := by
  rw [pno2pa_eq, target_eq]

theorem target_mkPte {page : Nat} (flags : Perm) (hpage : page < MEMPAGES) :
    target (mkPte (page * PGSIZE) flags) = page := by
  have hfits : page < PAGES := Nat.lt_trans hpage (by decide)
  rw [target_eq, paddr_mkPte, Nat.mul_div_cancel _ (by decide), Nat.mod_eq_of_lt hfits,
    Nat.mod_eq_of_lt hpage]

/-! ## Tables -/

/-- The entries of every page, and the pages that `pages_zalloc` will hand out. -/
structure St where
  mem : Nat → Idx → Word
  fresh : List Nat

/-- Store one entry. -/
def St.store (s : St) (page : Nat) (i : Idx) (pte : Word) : St :=
  { s with mem := update s.mem page (update (s.mem page) i pte) }

@[simp] theorem St.store_self (s : St) (page : Nat) (i : Idx) (pte : Word) :
    (s.store page i pte).mem page i = pte := by
  simp only [St.store, update_self]

theorem St.store_of_ne (s : St) {page p : Nat} {i j : Idx} (pte : Word) (h : (p, j) ≠ (page, i)) :
    (s.store page i pte).mem p j = s.mem p j := by
  simp only [St.store]
  by_cases hp : p = page
  · subst hp
    have hj : j ≠ i := fun heq => h (by rw [heq])
    rw [update_self, update_of_ne hj]
  · rw [update_of_ne hp]

/-- The source's `pages_zalloc`, for one page. -/
def pagesZalloc (s : St) : St × Option Nat :=
  match s.fresh with
  | [] => (s, none)
  | page :: fresh =>
    ({ mem := update s.mem page fun _ => 0#64, fresh := fresh }, some page)

/-- The source's `uvmcreate`. -/
def uvmcreate (s : St) : St × Option Nat := pagesZalloc s

/-- One round of the loop of `walk`: the table that an entry leads to. -/
def enter (s : St) (pagetable : Nat) (i : Idx) (alloc : Bool) : St × Option Nat :=
  let pte := s.mem pagetable i
  if valid pte then (s, some (target pte))
  else if alloc then
    match pagesZalloc s with
    | (s, none) => (s, none)
    | (s, some page) => (s.store pagetable i (mkPte (page * PGSIZE) 0#8), some page)
  else (s, none)

/-- The loop of `walk`, down from a level. -/
def walkLoop (va : Nat) (alloc : Bool) : Nat → St → Nat → St × Option Nat
  | 0, s, pagetable => (s, some pagetable)
  | level + 1, s, pagetable =>
    match enter s pagetable (px (level + 1) va) alloc with
    | (s, none) => (s, none)
    | (s, some pagetable) => walkLoop va alloc level s pagetable

/-- Where an entry is stored: a page and an index. -/
abbrev Slot := Nat × Idx

/-- The source's `walk`. -/
def walk (s : St) (pagetable va : Nat) (alloc : Bool) : Except Fault (St × Option Slot) :=
  if va < MAXVA then
    match walkLoop va alloc 2 s pagetable with
    | (s, none) => .ok (s, none)
    | (s, some pagetable) => .ok (s, some (pagetable, px 0 va))
  else .error .check

/-- The source's `walkaddr`, 0 for what is not mapped. -/
def walkaddr (s : St) (pagetable va : Nat) : Except Fault Nat :=
  match walk s pagetable va false with
  | .error e => .error e
  | .ok (_, none) => .ok 0
  | .ok (s, some (page, i)) =>
    let pte := s.mem page i
    if !valid pte then .ok 0
    else if !user pte then .ok 0
    else .ok (pno2pa (paddr pte))

/-- The source's `vaddr2paddr`. -/
def vaddr2paddr (s : St) (pagetable va : Nat) : Except Fault Nat := do
  let pgstart ← walkaddr s pagetable va
  if pgstart = 0 then return 0
  else return va % PGSIZE + pgstart

/-! ## The tree -/

/-- What an entry refers to: a page and one, or 0 for none. -/
def number (pte : Word) : Nat := if valid pte then target pte + 1 else 0

/-- The node of a page. -/
def node (root page : Nat) : Node := if page = root then none else some (page + 1)

/-- The tree of a page table.  Its root is the page of the top table, to which no entry may lead. -/
def refs (mem : Nat → Idx → Word) (root : Nat) (n : Node) (i : Nat) : Nat :=
  if hi : i < PTENUM then
    match n with
    | none => number (mem root ⟨i, hi⟩)
    | some m => if m = 0 ∨ m = root + 1 then 0 else number (mem (m - 1) ⟨i, hi⟩)
  else 0

/-- The paths to the tables: none to the top one, one entry or two to those below. -/
def IsPath (q : List Nat) : Prop := q.length ≤ 2

theorem isPath_closed : Closed IsPath := by
  intro p q hpre hq
  exact Nat.le_trans hpre.length_le hq

/-- The tables form a tree, no page of which will be handed out. -/
structure InOrder (s : St) (root : Nat) : Prop where
  once : Once IsPath (refs s.mem root)
  rootApart : Unused IsPath (refs s.mem root) (root + 1)
  freshApart : ∀ page ∈ s.fresh, page ≠ root ∧ Unused IsPath (refs s.mem root) (page + 1)
  freshFits : ∀ page ∈ s.fresh, page < MEMPAGES
  freshNodup : s.fresh.Nodup

/-- A path leads to a table. -/
def At (s : St) (root : Nat) (q : List Nat) (page : Nat) : Prop :=
  EntryTree.walk (refs s.mem root) none q = some (node root page)

section

variable {s s' s'' : St} {root page page' c : Nat} {i j : Idx} {q : List Nat} {pte : Word}

theorem number_eq_zero : number pte = 0 ↔ valid pte = false := by
  unfold number
  split <;> simp_all

theorem number_of_valid (h : valid pte = true) : number pte = target pte + 1 := if_pos h

@[simp] theorem number_zero : number 0#64 = 0 := number_eq_zero.mpr rfl

theorem number_mkPte {flags : Perm} (hpage : page < MEMPAGES) :
    number (mkPte (page * PGSIZE) flags) = page + 1 := by
  rw [number_of_valid (valid_mkPte _ _), target_mkPte flags hpage]

theorem node_self (root : Nat) : node root root = none := if_pos rfl

theorem node_of_ne (h : page ≠ root) : node root page = some (page + 1) := if_neg h

theorem node_inj (h : node root page = node root page') : page = page' := by
  unfold node at h
  split at h <;> split at h
  · rename_i h₁ h₂
    rw [h₁, h₂]
  · cases h
  · cases h
  · exact Nat.succ.inj (some.inj h)

/-- The tree has the entries of the memory. -/
theorem refs_node (mem : Nat → Idx → Word) (root page : Nat) (i : Idx) :
    refs mem root (node root page) i = number (mem page i) := by
  unfold refs node
  rw [dif_pos i.isLt]
  by_cases hroot : page = root
  · rw [if_pos hroot, hroot]
  · rw [if_neg hroot]
    have hother : ¬ (page + 1 = 0 ∨ page + 1 = root + 1) := by omega
    simp only [if_neg hother, Nat.add_sub_cancel]

/-- A store into a table is one into the tree. -/
theorem refs_store (s : St) (root page : Nat) (i : Idx) (pte : Word) :
    refs (s.store page i pte).mem root
      = EntryTree.store (refs s.mem root) (node root page) i (number pte) := by
  funext n k
  by_cases hn : n = node root page ∧ k = i
  · obtain ⟨rfl, rfl⟩ := hn
    rw [EntryTree.store_self, refs_node, St.store_self]
  · have hne : (n, k) ≠ (node root page, (i : Nat)) := by
      intro heq
      exact hn (Prod.mk.inj heq)
    rw [EntryTree.store_of_ne _ _ hne]
    unfold refs
    split
    · rename_i hk
      -- another entry of the same page, or another page
      have hsame : ∀ p, node root p = n → (s.store page i pte).mem p ⟨k, hk⟩ = s.mem p ⟨k, hk⟩ := by
        intro p hp
        apply St.store_of_ne
        rintro heq
        cases heq
        exact hn ⟨hp.symm, rfl⟩
      cases n with
      | none => exact congrArg number (hsame root (node_self root))
      | some m =>
        simp only
        split
        · rfl
        · rename_i hm
          have hpage : node root (m - 1) = some m := by
            rw [node_of_ne (by omega), Nat.sub_add_cancel (by omega)]
          exact congrArg number (hsame (m - 1) hpage)
    · rfl

/-- What the whole tree has outside of a page is there when the page is cleared. -/
theorem refs_clear (mem : Nat → Idx → Word) (hc : c ≠ root) {n : Node} (hn : n ≠ some (c + 1))
    (k : Nat) : refs (update mem c fun _ => 0#64) root n k = refs mem root n k := by
  unfold refs
  split
  · cases n with
    | none => simp only [update_of_ne hc.symm]
    | some m =>
      simp only
      split
      · rfl
      · rename_i hm
        have hother : m - 1 ≠ c := by
          rintro rfl
          exact hn (by rw [Nat.sub_add_cancel (by omega)])
        rw [update_of_ne hother]
  · rfl

/-- A cleared page leads nowhere. -/
theorem refs_cleared (mem : Nat → Idx → Word) (root c k : Nat) :
    refs (update mem c fun _ => 0#64) root (some (c + 1)) k = 0 := by
  unfold refs
  split
  · simp only
    split
    · rfl
    · rw [Nat.add_sub_cancel, update_self, number_zero]
  · rfl

/-- A table that is reached is a page. -/
theorem InOrder.exists_page (h : InOrder s root) (hq : IsPath q) {n : Node}
    (hn : EntryTree.walk (refs s.mem root) none q = some n) : ∃ page, n = node root page := by
  cases n with
  | none => exact ⟨root, (node_self root).symm⟩
  | some m =>
    have hpos := walk_ne_zero hn
    have hapart : m ≠ root + 1 := by
      rintro rfl
      exact h.rootApart q hq hn
    refine ⟨m - 1, ?_⟩
    rw [node_of_ne (by omega), Nat.sub_add_cancel (by omega)]

theorem At.unique (h : At s root q page) (h' : At s root q page') : page = page' := by
  unfold At at h h'
  rw [h] at h'
  exact node_inj (some.inj h')

/-- Two tables on two paths are two pages. -/
theorem InOrder.path_unique (h : InOrder s root) {p : List Nat} (hp : IsPath p) (hq : IsPath q)
    (hatp : At s root p page) (hatq : At s root q page) : p = q := h.once p q _ hp hq hatp hatq

/-- What walking may do: tables stay where they are, the entries of the lowest ones stay as they
    are, and the new ones among these are blank. -/
structure Extends (root : Nat) (s s' : St) : Prop where
  stays : ∀ q page, IsPath q → At s root q page → At s' root q page
  entries : ∀ q page, q.length = 2 → At s root q page → ∀ i, s'.mem page i = s.mem page i
  blank : ∀ q page, q.length = 2 → At s' root q page →
    EntryTree.walk (refs s.mem root) none q = none → ∀ i, s'.mem page i = 0#64

theorem Extends.refl (root : Nat) (s : St) : Extends root s s where
  stays _ _ _ hat := hat
  entries _ _ _ _ _ := rfl
  blank q page _ hat hnone := by
    unfold At at hat
    rw [hnone] at hat
    cases hat

theorem Extends.trans (hord : InOrder s' root) (h : Extends root s s') (h' : Extends root s' s'') :
    Extends root s s'' where
  stays q page hq hat := h'.stays q page hq (h.stays q page hq hat)
  entries q page hq hat i := by
    rw [h'.entries q page hq (h.stays q page hq.le hat), h.entries q page hq hat]
  blank q page hq hat hnone i := by
    cases hmid : EntryTree.walk (refs s'.mem root) none q with
    | none => exact h'.blank q page hq hat hmid i
    | some n =>
      obtain ⟨page', rfl⟩ := hord.exists_page hq.le hmid
      obtain rfl := At.unique hat (h'.stays q page' hq.le hmid)
      rw [h'.entries q page hq hmid, h.blank q page hq hmid hnone]

/-- A table without entries is a tree. -/
theorem uvmcreate_inOrder (hnodup : s.fresh.Nodup) (hfits : ∀ page ∈ s.fresh, page < MEMPAGES)
    (he : uvmcreate s = (s', some root)) : InOrder s' root := by
  unfold uvmcreate pagesZalloc at he
  split at he
  · exact nomatch he
  · rename_i root' fresh hfresh
    obtain ⟨rfl, hr⟩ := Prod.mk.inj he
    obtain rfl := some.inj hr
    rw [hfresh] at hnodup hfits
    have hblank : ∀ k, refs (update s.mem root' fun _ => 0#64) root' none k = 0 := by
      intro k
      unfold refs
      split
      · simp only [update_self, number_zero]
      · rfl
    have honly : ∀ q n, EntryTree.walk (refs (update s.mem root' fun _ => 0#64) root')
        none q = some n → q = [] ∧ n = none := by
      intro q n hq
      cases q with
      | nil => exact ⟨rfl, (some.inj hq).symm⟩
      | cons k q =>
        rw [walk_cons, if_pos (hblank k)] at hq
        exact nomatch hq
    have hunused : ∀ b, Unused IsPath (refs (update s.mem root' fun _ => 0#64) root') b :=
      fun b q _ hq => nomatch (honly q _ hq).2
    refine ⟨?_, hunused _, fun page hpage => ⟨?_, hunused _⟩, ?_, hnodup.of_cons⟩
    · intro p q n _ _ hp hq
      rw [(honly p n hp).1, (honly q n hq).1]
    · rintro rfl
      exact (List.nodup_cons.mp hnodup).1 hpage
    · exact fun page hpage => hfits page (List.mem_cons_of_mem root' hpage)

/-! ### One page is handed out -/

/-- Clearing a page that is handed out touches no table. -/
theorem InOrder.walk_clear (h : InOrder s root) (hc : c ∈ s.fresh) (hq : IsPath q) :
    EntryTree.walk (refs (update s.mem c fun _ => 0#64) root) none q
      = EntryTree.walk (refs s.mem root) none q := by
  obtain ⟨hroot, hunused⟩ := h.freshApart c hc
  apply walk_congr
  intro q₁ k q₂ heq m hm
  apply refs_clear s.mem hroot
  rintro rfl
  exact hunused q₁ (isPath_closed q₁ q ⟨k :: q₂, heq.symm⟩ hq) hm

/-- What holds when a page has been handed out for a table. -/
structure HandedOut (root : Nat) (s : St) (c : Nat) : Prop where
  order : InOrder s root
  apart : c ≠ root
  unused : Unused IsPath (refs s.mem root) (c + 1)
  fits : c < MEMPAGES
  gone : c ∉ s.fresh
  cleared : ∀ i, s.mem c i = 0#64
  noEntry : ∀ k, refs s.mem root (some (c + 1)) k = 0

theorem pagesZalloc_spec (h : InOrder s root) (he : pagesZalloc s = (s', some c)) :
    HandedOut root s' c ∧ Extends root s s' ∧
      ∀ q page, IsPath q → At s root q page → ∀ i, s'.mem page i = s.mem page i := by
  unfold pagesZalloc at he
  split at he
  · cases he
  · rename_i c' fresh hfresh
    obtain ⟨rfl, hc⟩ := Prod.mk.inj he
    obtain rfl := some.inj hc
    have hmem : c' ∈ s.fresh := hfresh ▸ List.mem_cons_self
    have hnodup : (c' :: fresh).Nodup := hfresh ▸ h.freshNodup
    have hsub : ∀ p ∈ fresh, p ∈ s.fresh := fun p hp => hfresh ▸ List.mem_cons_of_mem c' hp
    have hwalk := fun {r : List Nat} (hr : IsPath r) => h.walk_clear hmem hr
    have hunused : ∀ b, Unused IsPath (refs s.mem root) b →
        Unused IsPath (refs (update s.mem c' fun _ => 0#64) root) b := by
      intro b hb r hr hrb
      exact hb r hr (hwalk hr ▸ hrb)
    have hkeeps : ∀ r page, IsPath r → At s root r page → ∀ i,
        update s.mem c' (fun _ => 0#64) page i = s.mem page i := by
      intro r page hr hat i
      have hother : page ≠ c' := by
        rintro rfl
        obtain ⟨hroot, hfree⟩ := h.freshApart page hmem
        exact hfree r hr (hat.trans (congrArg some (node_of_ne hroot)))
      rw [update_of_ne hother]
    refine ⟨⟨⟨?_, hunused _ h.rootApart, ?_, fun p hp => h.freshFits p (hsub p hp),
      hnodup.of_cons⟩, (h.freshApart c' hmem).1, hunused _ (h.freshApart c' hmem).2,
      h.freshFits c' hmem, (List.nodup_cons.mp hnodup).1, fun i => ?_,
      refs_cleared s.mem root c'⟩,
      ⟨?_, fun r page hr => hkeeps r page hr.le, ?_⟩, hkeeps⟩
    · intro p r n hp hr hpn hrn
      exact h.once p r n hp hr (hwalk hp ▸ hpn) (hwalk hr ▸ hrn)
    · intro p hp
      obtain ⟨hroot, hfree⟩ := h.freshApart p (hsub p hp)
      exact ⟨hroot, hunused _ hfree⟩
    · simp only [update_self]
    · intro r page hr hat
      exact (hwalk hr).trans hat
    · intro r page hr hat hnone
      have hsome := (hwalk hr.le).symm.trans hat
      rw [hnone] at hsome
      cases hsome

/-- The cleared page becomes a table. -/
theorem HandedOut.link (h : HandedOut root s c) (hq : q.length < 2) (hat : At s root q page)
    (hempty : valid (s.mem page i) = false) :
    InOrder (s.store page i (mkPte (c * PGSIZE) 0#8)) root ∧
      Extends root s (s.store page i (mkPte (c * PGSIZE) 0#8)) ∧
      At (s.store page i (mkPte (c * PGSIZE) 0#8)) root (q ++ [(i : Nat)]) c := by
  obtain ⟨hord, hroot, hunused, hfits, hgone, hclear, hblank⟩ := h
  have hpath : IsPath (q ++ [(i : Nat)]) := by
    rw [IsPath, List.length_append, List.length_singleton]
    omega
  have hzero : refs s.mem root (node root page) i = 0 := by
    rw [refs_node, number_eq_zero]
    exact hempty
  have hq' : IsPath q := hq.le
  have hnone : EntryTree.walk (refs s.mem root) none (q ++ [(i : Nat)]) = none := by
    rw [walk_snoc hat, if_pos hzero]
  have hrefs : refs (s.store page i (mkPte (c * PGSIZE) 0#8)).mem root
      = EntryTree.store (refs s.mem root) (node root page) i (c + 1) := by
    rw [refs_store, number_mkPte hfits]
  have hwalk := fun {r : List Nat} (hr : IsPath r) =>
    hord.once.walk_grow isPath_closed hq' hat hzero (Nat.succ_ne_zero c) hunused
      (fun k _ _ => hblank k) hr
  have hstays : ∀ b, Unused IsPath (refs s.mem root) b → b ≠ c + 1 → Unused IsPath
      (EntryTree.store (refs s.mem root) (node root page) i (c + 1)) b := by
    intro b hb hne r hr hrb
    rw [hwalk hr] at hrb
    split at hrb
    · exact hne (some.inj (some.inj hrb)).symm
    · exact hb r hr hrb
  refine ⟨⟨?_, ?_, ?_, hord.freshFits, hord.freshNodup⟩, ⟨?_, ?_, ?_⟩, ?_⟩
  · rw [hrefs]
    exact hord.once.grow isPath_closed hq' hat hzero (Nat.succ_ne_zero c) hunused
      fun k _ _ => hblank k
  · rw [hrefs]
    exact hstays _ hord.rootApart (by omega)
  · intro p hp
    obtain ⟨hproot, hfree⟩ := hord.freshApart p hp
    have hpc : p ≠ c := by
      rintro rfl
      exact hgone hp
    rw [hrefs]
    exact ⟨hproot, hstays _ hfree (by omega)⟩
  · intro r page' hr hr'
    unfold At
    rw [hrefs, hwalk hr, if_neg]
    · exact hr'
    · rintro rfl
      exact nomatch hnone.symm.trans hr'
  · intro r page' hr hr' k
    apply St.store_of_ne
    intro heq
    cases heq
    have hsame := hord.path_unique hq' hr.le hat hr'
    rw [hsame] at hq
    omega
  · intro r page' hr hr' hno k
    unfold At at hr'
    rw [hrefs, hwalk hr.le] at hr'
    split at hr'
    · have hc : c = page' := node_inj ((node_of_ne hroot).trans (some.inj hr'))
      subst hc
      rw [St.store_of_ne, hclear]
      intro heq
      cases heq
      exact hunused q hq' (hat.trans (congrArg some (node_of_ne hroot)))
    · exact nomatch hno.symm.trans hr'
  · unfold At
    rw [hrefs, hwalk hpath, if_pos rfl, node_of_ne hroot]

/-! ### The loop -/

/-- An entry that is valid leads to a table. -/
theorem InOrder.at_valid (h : InOrder s root) (hq : q.length < 2) (hat : At s root q page)
    (hvalid : valid (s.mem page i) = true) :
    At s root (q ++ [(i : Nat)]) (target (s.mem page i)) := by
  have hnum : refs s.mem root (node root page) i = target (s.mem page i) + 1 := by
    rw [refs_node, number_of_valid hvalid]
  have hwalk : EntryTree.walk (refs s.mem root) none (q ++ [(i : Nat)])
      = some (some (target (s.mem page i) + 1)) := by
    rw [walk_snoc hat, hnum, if_neg (Nat.succ_ne_zero _)]
  have hpath : IsPath (q ++ [(i : Nat)]) := by
    rw [IsPath, List.length_append, List.length_singleton]
    omega
  have hapart : target (s.mem page i) ≠ root := by
    intro heq
    rw [heq] at hwalk
    exact h.rootApart _ hpath hwalk
  unfold At
  rw [hwalk, node_of_ne hapart]

theorem enter_spec {alloc : Bool} {r : Option Nat} (h : InOrder s root) (hq : q.length < 2)
    (hat : At s root q page) (he : enter s page i alloc = (s', r)) :
    InOrder s' root ∧ Extends root s s' ∧ ∀ c, r = some c → At s' root (q ++ [(i : Nat)]) c := by
  unfold enter at he
  cases hvalid : valid (s.mem page i) with
  | true =>
    simp only [hvalid, if_true] at he
    cases he
    refine ⟨h, Extends.refl root s, ?_⟩
    rintro c ⟨⟩
    exact h.at_valid hq hat hvalid
  | false =>
    simp only [hvalid, Bool.false_eq_true, if_false] at he
    cases alloc with
    | false =>
      cases he
      exact ⟨h, Extends.refl root s, nofun⟩
    | true =>
      simp only [if_true] at he
      split at he
      · rename_i s₁ hnull
        obtain ⟨rfl, rfl⟩ := Prod.mk.inj he
        -- nothing is left to hand out
        have hsame : s₁ = s := by
          unfold pagesZalloc at hnull
          split at hnull
          · exact (Prod.mk.inj hnull).1.symm
          · cases hnull
        rw [hsame]
        exact ⟨h, Extends.refl root s, nofun⟩
      · rename_i s₁ c hpage
        cases he
        obtain ⟨hout, hext, hkeeps⟩ := pagesZalloc_spec h hpage
        have hempty : valid (s₁.mem page i) = false := by
          rw [hkeeps q page hq.le hat i]
          exact hvalid
        obtain ⟨hord, hlink, hnew⟩ := hout.link hq (hext.stays q page hq.le hat) hempty
        refine ⟨hord, Extends.trans hout.order hext hlink, ?_⟩
        rintro c' ⟨⟩
        exact hnew

/-- The entries that the loop passes from a level down. -/
def below (va : Nat) : Nat → List Nat
  | 0 => []
  | level + 1 => px (level + 1) va :: below va level

theorem walkLoop_spec {va : Nat} {alloc : Bool} {r : Option Nat} (level : Nat)
    (h : InOrder s root) (hq : q.length + level = 2) (hat : At s root q page)
    (hw : walkLoop va alloc level s page = (s', r)) :
    InOrder s' root ∧ Extends root s s' ∧
      ∀ c, r = some c → At s' root (q ++ below va level) c := by
  induction level generalizing s page q with
  | zero =>
    obtain ⟨rfl, rfl⟩ := Prod.mk.inj hw
    refine ⟨h, Extends.refl root s, ?_⟩
    rintro c ⟨⟩
    rwa [below, List.append_nil]
  | succ level ih =>
    rw [walkLoop] at hw
    split at hw
    · rename_i s₁ henter
      cases hw
      obtain ⟨hord, hext, -⟩ := enter_spec h (by omega) hat henter
      exact ⟨hord, hext, nofun⟩
    · rename_i s₁ page₁ henter
      obtain ⟨hord, hext, hnext⟩ := enter_spec h (by omega) hat henter
      have hlen : (q ++ [(px (level + 1) va : Nat)]).length + level = 2 := by
        rw [List.length_append, List.length_singleton]
        omega
      obtain ⟨hord', hext', hlast⟩ := ih hord hlen (hnext page₁ rfl) hw
      refine ⟨hord', Extends.trans hord hext hext', ?_⟩
      intro c hc
      have hc' := hlast c hc
      rwa [List.append_assoc] at hc'

/-- The loop that does not allocate finds the table that is there. -/
theorem walkLoop_look {va : Nat} (level : Nat) (h : InOrder s root) (hq : q.length + level = 2)
    (hat : At s root q page) (c : Nat) :
    (walkLoop va false level s page).2 = some c ↔ At s root (q ++ below va level) c := by
  induction level generalizing page q with
  | zero =>
    rw [below, List.append_nil]
    constructor
    · rintro ⟨⟩
      exact hat
    · intro hc
      rw [At.unique hc hat]
      rfl
  | succ level ih =>
    rw [walkLoop, enter]
    cases hvalid : valid (s.mem page (px (level + 1) va)) with
    | true =>
      have hnext := h.at_valid (by omega) hat hvalid
      have hlen : (q ++ [(px (level + 1) va : Nat)]).length + level = 2 := by
        rw [List.length_append, List.length_singleton]
        omega
      have hrest := ih hlen hnext
      rwa [List.append_assoc] at hrest
    | false =>
      refine ⟨nofun, fun hc => ?_⟩
      -- nothing lies behind an entry that is not valid
      have hnum : refs s.mem root (node root page) (px (level + 1) va) = 0 := by
        rw [refs_node, number_eq_zero]
        exact hvalid
      have hnone : EntryTree.walk (refs s.mem root) none (q ++ [(px (level + 1) va : Nat)])
          = none := by
        rw [walk_snoc hat, if_pos hnum]
      have hbehind := walk_none_behind hnone (q := q ++ below va (level + 1))
        ⟨below va level, List.append_assoc _ _ _⟩
      exact nomatch hbehind.symm.trans hc

/-! ## The map -/

/-- The entries that `walk` passes on the way to the lowest table. -/
def path (va : Nat) : List Nat := below va 2

/-- The lowest table that an address belongs to, if it is there. -/
def table (s : St) (root va : Nat) : Option Nat := (walkLoop va false 2 s root).2

/-- The entry of an address; where its table is missing it reads as zero. -/
def entry (s : St) (root va : Nat) : Word :=
  match table s root va with
  | some page => s.mem page (px 0 va)
  | none => 0#64

variable {va va' : Nat}

theorem isPath_path (va : Nat) : IsPath (path va) := Nat.le_refl 2

theorem at_root (s : St) (root : Nat) : At s root [] root := by
  unfold At
  rw [node_self]
  rfl

theorem InOrder.table_iff (h : InOrder s root) (va : Nat) :
    table s root va = some c ↔ At s root (path va) c :=
  walkLoop_look 2 h rfl (at_root s root) c

theorem InOrder.table_of_none (h : InOrder s root) (hnone : table s root va = none) :
    EntryTree.walk (refs s.mem root) none (path va) = none := by
  cases hw : EntryTree.walk (refs s.mem root) none (path va) with
  | none => rfl
  | some n =>
    obtain ⟨page, rfl⟩ := h.exists_page (isPath_path va) hw
    have hsome := (h.table_iff va).mpr hw
    rw [hnone] at hsome
    cases hsome

/-- Without allocation the tables are only read. -/
theorem walkLoop_false (va level : Nat) (s : St) (page : Nat) :
    (walkLoop va false level s page).1 = s := by
  induction level generalizing page with
  | zero => rfl
  | succ level ih =>
    rw [walkLoop, enter]
    cases valid (s.mem page (px (level + 1) va)) with
    | true => exact ih _
    | false => rfl

theorem walk_look (s : St) (root : Nat) (hva : va < MAXVA) :
    walk s root va false = .ok (s, (table s root va).map fun page => (page, px 0 va)) := by
  have hsame := walkLoop_false va 2 s root
  unfold walk table
  rw [if_pos hva]
  split
  · rename_i s₁ hw
    rw [hw] at hsame ⊢
    simp only [Option.map_none]
    rw [← hsame]
  · rename_i s₁ page hw
    rw [hw] at hsame ⊢
    simp only [Option.map_some]
    rw [← hsame]

theorem walkaddr_eq (s : St) (root : Nat) (hva : va < MAXVA) :
    walkaddr s root va = .ok (if valid (entry s root va) && user (entry s root va)
      then pno2pa (paddr (entry s root va)) else 0) := by
  unfold walkaddr entry
  rw [walk_look s root hva]
  cases table s root va with
  | none =>
    have hzero : valid 0#64 = false := rfl
    simp only [Option.map_none, hzero, Bool.false_and, Bool.false_eq_true, if_false]
  | some page =>
    simp only [Option.map_some]
    cases valid (s.mem page (px 0 va)) <;> cases user (s.mem page (px 0 va)) <;> simp

/-- What is no address is refused. -/
theorem walkaddr_of_ge (s : St) (root : Nat) (hva : ¬ va < MAXVA) :
    walkaddr s root va = .error .check := by
  unfold walkaddr walk
  rw [if_neg hva]

theorem vaddr2paddr_congr (heq : entry s' root va = entry s root va) :
    vaddr2paddr s' root va = vaddr2paddr s root va := by
  have hwalk : walkaddr s' root va = walkaddr s root va := by
    by_cases hva : va < MAXVA
    · rw [walkaddr_eq s root hva, walkaddr_eq s' root hva, heq]
    · rw [walkaddr_of_ge s root hva, walkaddr_of_ge s' root hva]
  unfold vaddr2paddr
  rw [hwalk]

theorem Extends.entry_eq (h : InOrder s root) (h' : InOrder s' root) (hext : Extends root s s')
    (va : Nat) : entry s' root va = entry s root va := by
  unfold entry
  cases hs : table s root va with
  | some page =>
    have hat := (h.table_iff va).mp hs
    rw [(h'.table_iff va).mpr (hext.stays _ page (isPath_path va) hat)]
    exact hext.entries _ page rfl hat _
  | none =>
    cases hs' : table s' root va with
    | none => rfl
    | some page =>
      exact hext.blank _ page rfl ((h'.table_iff va).mp hs') (h.table_of_none hs) _

/-- Walking is never refused below `MAXVA`; it extends the tree and leads to the entry. -/
theorem walk_spec (h : InOrder s root) (hva : va < MAXVA) (alloc : Bool) :
    ∃ s' r, walk s root va alloc = .ok (s', r) ∧ InOrder s' root ∧ Extends root s s' ∧
      ∀ slot, r = some slot → At s' root (path va) slot.1 ∧ slot.2 = px 0 va := by
  unfold walk
  rw [if_pos hva]
  split
  · rename_i s₁ hw
    obtain ⟨hord, hext, -⟩ := walkLoop_spec 2 h rfl (at_root s root) hw
    exact ⟨s₁, none, rfl, hord, hext, nofun⟩
  · rename_i s₁ page hw
    obtain ⟨hord, hext, hat⟩ := walkLoop_spec 2 h rfl (at_root s root) hw
    refine ⟨s₁, _, rfl, hord, hext, ?_⟩
    rintro slot ⟨⟩
    exact ⟨hat page rfl, rfl⟩

/-- The entries on the way and the last index make up the page number. -/
theorem path_eq_iff (hva : va < MAXVA) (hva' : va' < MAXVA) :
    path va = path va' ∧ px 0 va = px 0 va' ↔ va / PGSIZE = va' / PGSIZE := by
  have hround : pgRoundDown va = pgRoundDown va' ↔ va / PGSIZE = va' / PGSIZE := by
    simp only [pgRoundDown, PGSIZE]
    omega
  rw [← hround, ← vpn_eq_iff hva hva', vpn, vpn, Prod.mk.injEq, Prod.mk.injEq]
  constructor
  · rintro ⟨hpath, hlow⟩
    injection hpath with h2 hrest
    injection hrest with h1
    exact ⟨Fin.ext h2, Fin.ext h1, hlow⟩
  · rintro ⟨h2, h1, h0⟩
    refine ⟨?_, h0⟩
    simp only [path, below, h2, h1]

/-- Two addresses of a page have one entry. -/
theorem entry_page (s : St) (root : Nat) (hva : va < MAXVA) (hva' : va' < MAXVA)
    (hpage : va / PGSIZE = va' / PGSIZE) : entry s root va = entry s root va' := by
  obtain ⟨hpath, hlow⟩ := (path_eq_iff hva hva').mpr hpage
  have htable : table s root va = table s root va' := by
    injection hpath with h2 hrest
    injection hrest with h1
    simp only [table, walkLoop, Fin.ext h2, Fin.ext h1]
  unfold entry
  rw [htable, hlow]

/-- The entries of two pages lie in two places. -/
theorem InOrder.slot_ne (h : InOrder s root) (hva : va < MAXVA) (hva' : va' < MAXVA)
    (hat : At s root (path va) page) (hat' : At s root (path va') page')
    (hpage : va' / PGSIZE ≠ va / PGSIZE) : (page', px 0 va') ≠ (page, px 0 va) := by
  intro heq
  obtain ⟨rfl, hlow⟩ := Prod.mk.inj heq
  have hpath := h.path_unique (isPath_path va') (isPath_path va) hat' hat
  exact hpage ((path_eq_iff hva' hva).mp ⟨hpath, hlow⟩)

/-! ### An entry is stored -/

/-- The lowest tables refer to no tables, so that the tree stays as it is. -/
theorem InOrder.walk_store (h : InOrder s root) (hat : At s root (path va) page) (i : Idx)
    (pte : Word) (hq : IsPath q) :
    EntryTree.walk (refs (s.store page i pte).mem root) none q
      = EntryTree.walk (refs s.mem root) none q := by
  rw [refs_store]
  apply h.once.walk_store isPath_closed (isPath_path va) hat _ hq
  intro hpre
  have hlen := hpre.length_le
  rw [List.length_append, List.length_singleton] at hlen
  exact Nat.not_succ_le_self 2 (Nat.le_trans hlen hq)

theorem InOrder.store (h : InOrder s root) (hat : At s root (path va) page) (i : Idx)
    (pte : Word) : InOrder (s.store page i pte) root := by
  have hwalk := fun {r : List Nat} (hr : IsPath r) => h.walk_store hat i pte hr
  have hunused : ∀ b, Unused IsPath (refs s.mem root) b →
      Unused IsPath (refs (s.store page i pte).mem root) b := by
    intro b hb r hr hrb
    exact hb r hr (hwalk hr ▸ hrb)
  refine ⟨?_, hunused _ h.rootApart, ?_, h.freshFits, h.freshNodup⟩
  · intro p r n hp hr hpn hrn
    exact h.once p r n hp hr (hwalk hp ▸ hpn) (hwalk hr ▸ hrn)
  · intro p hp
    obtain ⟨hroot, hfree⟩ := h.freshApart p hp
    exact ⟨hroot, hunused _ hfree⟩

theorem InOrder.at_store (h : InOrder s root) (hat : At s root (path va) page) (i : Idx)
    (pte : Word) (hq : IsPath q) : At (s.store page i pte) root q c ↔ At s root q c := by
  unfold At
  rw [h.walk_store hat i pte hq]

/-- Storing an entry changes that of its page and no other. -/
theorem InOrder.entry_store (h : InOrder s root) (hva : va < MAXVA) (hva' : va' < MAXVA)
    (hat : At s root (path va) page) (pte : Word) :
    entry (s.store page (px 0 va) pte) root va'
      = if va' / PGSIZE = va / PGSIZE then pte else entry s root va' := by
  have hord := h.store hat (px 0 va) pte
  have htable : table (s.store page (px 0 va) pte) root va' = table s root va' := by
    apply Option.ext
    intro c
    rw [hord.table_iff, h.table_iff, h.at_store hat _ _ (isPath_path va')]
  unfold entry
  rw [htable]
  by_cases heq : va' / PGSIZE = va / PGSIZE
  · obtain ⟨hpath, hlow⟩ := (path_eq_iff hva' hva).mpr heq
    have hsome : table s root va' = some page := by
      rw [h.table_iff, hpath]
      exact hat
    rw [if_pos heq, hsome, hlow]
    exact St.store_self s page _ pte
  · rw [if_neg heq]
    cases hs : table s root va' with
    | none => rfl
    | some page' =>
      exact St.store_of_ne s pte (h.slot_ne hva hva' hat ((h.table_iff va').mp hs) heq)

/-! ### Runs -/

/-- What happens to a page table: `walk` makes room for an entry, or the entry that `walk` finds
    is written. -/
inductive Op where
  | room (va : Nat)
  | write (va : Nat) (pte : Word)

def step (root : Nat) (s : St) : Op → Except Fault St
  | .room va =>
    match walk s root va true with
    | .error e => .error e
    | .ok (s, _) => .ok s
  | .write va pte =>
    match walk s root va false with
    | .error e => .error e
    | .ok (s, none) => .ok s
    | .ok (s, some (page, i)) => .ok (s.store page i pte)

def run (root : Nat) : List Op → St → Except Fault St
  | [], s => .ok s
  | op :: ops, s =>
    match step root s op with
    | .error e => .error e
    | .ok s => run root ops s

/-- Tables stay where they are. -/
def Stays (root : Nat) (s s' : St) : Prop :=
  ∀ q page, IsPath q → At s root q page → At s' root q page

theorem step_spec {op : Op} (h : InOrder s root) (hs : step root s op = .ok s') :
    InOrder s' root ∧ Stays root s s' := by
  cases op with
  | room va =>
    simp only [step] at hs
    by_cases hva : va < MAXVA
    · obtain ⟨s₁, r, hw, hord, hext, -⟩ := walk_spec h hva true
      simp only [hw] at hs
      cases hs
      exact ⟨hord, hext.stays⟩
    · simp only [walk, if_neg hva] at hs
      cases hs
  | write va pte =>
    simp only [step] at hs
    by_cases hva : va < MAXVA
    · simp only [walk_look s root hva] at hs
      cases ht : table s root va with
      | none =>
        simp only [ht, Option.map_none] at hs
        cases hs
        exact ⟨h, fun _ _ _ hat => hat⟩
      | some page =>
        simp only [ht, Option.map_some] at hs
        cases hs
        have hat := (h.table_iff va).mp ht
        exact ⟨h.store hat _ pte, fun q c hq hc => (h.at_store hat _ pte hq).mpr hc⟩
    · simp only [walk, if_neg hva] at hs
      cases hs

theorem run_spec {ops : List Op} (h : InOrder s root) (hr : run root ops s = .ok s') :
    InOrder s' root ∧ Stays root s s' := by
  induction ops generalizing s with
  | nil =>
    cases hr
    exact ⟨h, fun _ _ _ hat => hat⟩
  | cons op ops ih =>
    rw [run] at hr
    split at hr
    · cases hr
    · rename_i s₁ hs
      obtain ⟨hord, hstays⟩ := step_spec h hs
      obtain ⟨hord', hstays'⟩ := ih hord hr
      exact ⟨hord', fun q page hq hat => hstays' q page hq (hstays q page hq hat)⟩

/-- A page table is a map from pages to entries.  Making room for an entry changes no translation;
    from then on, whatever is walked and written, the entry of the address is found in that place,
    those of other pages are elsewhere, and writing it changes the translation of its page alone. -/
theorem walk_map (h : InOrder s root) (hva : va < MAXVA) :
    ∃ s' r, walk s root va true = .ok (s', r) ∧ InOrder s' root ∧
      (∀ va', entry s' root va' = entry s root va' ∧
        vaddr2paddr s' root va' = vaddr2paddr s root va') ∧
      ∀ slot, r = some slot → ∀ ops t, run root ops s' = .ok t →
        walk t root va false = .ok (t, some slot) ∧
        (∀ va' alloc u slot', va' / PGSIZE ≠ va / PGSIZE →
          walk t root va' alloc = .ok (u, some slot') → slot' ≠ slot) ∧
        ∀ pte, InOrder (t.store slot.1 slot.2 pte) root ∧
          (∀ va', va' / PGSIZE = va / PGSIZE →
            entry (t.store slot.1 slot.2 pte) root va' = pte) ∧
          ∀ va', va' / PGSIZE ≠ va / PGSIZE →
            vaddr2paddr (t.store slot.1 slot.2 pte) root va' = vaddr2paddr t root va' := by
  obtain ⟨s', r, hw, hord, hext, hslot⟩ := walk_spec h hva true
  have hentry := hext.entry_eq h hord
  refine ⟨s', r, hw, hord, fun va' => ⟨hentry va', vaddr2paddr_congr (hentry va')⟩, ?_⟩
  rintro ⟨page, i⟩ hr ops t hrun
  obtain ⟨hat, rfl⟩ := hslot _ hr
  obtain ⟨hordt, hstays⟩ := run_spec hord hrun
  have hatt : At t root (path va) page := hstays _ page (isPath_path va) hat
  have hstore := fun pte => hordt.store hatt (px 0 va) pte
  refine ⟨?_, ?_, fun pte => ⟨hstore pte, ?_, ?_⟩⟩
  · rw [walk_look t root hva, (hordt.table_iff va).mpr hatt]
    rfl
  · rintro va' alloc u ⟨page', i'⟩ hpage hw'
    by_cases hva' : va' < MAXVA
    · obtain ⟨u', r', hspec, hordu, hextu, hslot'⟩ := walk_spec hordt hva' alloc
      rw [hspec] at hw'
      obtain ⟨rfl, hr'⟩ := Prod.mk.inj (Except.ok.inj hw')
      obtain ⟨hat', rfl⟩ := hslot' _ hr'
      exact hordu.slot_ne hva hva' (hextu.stays _ page (isPath_path va) hatt) hat' hpage
    · unfold walk at hw'
      rw [if_neg hva'] at hw'
      cases hw'
  · intro va' hpage
    have hva' : va' < MAXVA := by
      simp only [PGSIZE, MAXVA] at hpage hva ⊢
      omega
    rw [hordt.entry_store hva hva' hatt pte, if_pos hpage]
  · intro va' hpage
    by_cases hva' : va' < MAXVA
    · apply vaddr2paddr_congr
      rw [hordt.entry_store hva hva' hatt pte, if_neg hpage]
    · simp only [vaddr2paddr, walkaddr_of_ge _ root hva']

end

/-- A table on page 5, with two pages left. -/
def newTable : St := (uvmcreate { mem := fun _ _ => 0#64, fresh := [5, 6, 7] }).1

theorem newTable_inOrder : InOrder newTable 5 :=
  uvmcreate_inOrder (s := { mem := fun _ _ => 0#64, fresh := [5, 6, 7] }) (by decide) (by decide)
    rfl

/-- The entry of the second page is made in the table on page 7 and found there. -/
theorem walk_map_newTable : ∃ s', walk newTable 5 4096 true = .ok (s', some (7, 1)) ∧
    walk s' 5 4096 false = .ok (s', some (7, 1)) := by
  obtain ⟨s', r, hw, -, -, hslot⟩ := walk_map newTable_inOrder (show 4096 < MAXVA by decide)
  have hr : r = some (7, 1) := by
    have hcomp : (walk newTable 5 4096 true).toOption.map Prod.snd = some (some (7, 1)) := by
      decide
    rw [hw] at hcomp
    exact some.inj hcomp
  subst hr
  exact ⟨s', hw, (hslot _ rfl [] s' rfl).1⟩

end Uniks.PageWalk
