/-
  The pages that a page table maps.

  `PageTable.maps` counts the entries that map a page for the user; the pages of the tables are
  pinned.  `Space` is what a table keeps, beside the other tables, which use a page `rest` times:
  no page twice, and no page that is writable and used elsewhere.  Each function on tables has one
  lemma that says it keeps the books and the space, and what may have changed.
-/
import Uniks.PageLedger
import Uniks.VerifyArea

namespace Uniks.Vm

open Uniks.Phys Uniks.Hoare Uniks.RefCount
open Function (update update_self update_of_ne)

/-- The page that an entry maps for the user, and that is given back with it. -/
def Pte.leaf (pte : Pte) : Option Nat :=
  if pte.valid && !pte.unrelease then
    match pte.paddr with
    | .page no => some no
    | _ => none
  else none

theorem Pte.leaf_eq_some {pte : Pte} {no : Nat} :
    pte.leaf = some no ↔ pte.valid = true ∧ pte.unrelease = false ∧ pte.paddr = .page no := by
  unfold Pte.leaf
  cases hv : pte.valid <;> cases hu : pte.unrelease <;> cases hp : pte.paddr <;> simp

/-- The slot of a page counts for it. -/
theorem ite_some_eq_one (no x : Nat) : (if some no = some x then 1 else 0) = one no x := by
  unfold one
  by_cases hx : x = no
  · rw [if_pos hx, if_pos (congrArg some hx.symm)]
  · rw [if_neg hx, if_neg fun heq => hx (Option.some.inj heq).symm]

@[simp] theorem Pte.leaf_zero : Pte.zero.leaf = none := by decide

theorem Pte.leaf_unrelease {pte : Pte} (h : pte.unrelease = true) : pte.leaf = none := by
  simp [Pte.leaf, h]

/-- How many entries map a page. -/
@[irreducible] def PageTable.maps (pt : PageTable) (no : Nat) : Nat := refs (fun v => (pt.pte v).leaf) no

/-- The pages of the tables. -/
def PageTable.Holds (pt : PageTable) (no : Nat) : Prop :=
  no = pt.root ∨ (∃ i, pt.mid i = some no) ∨ ∃ i j, pt.low i j = some no

/-- The table of the lowest level that the entry is in is there. -/
def PageTable.Present (pt : PageTable) (v : Vpn) : Prop :=
  (pt.mid v.1).isSome = true ∧ (pt.low v.1 v.2.1).isSome = true

theorem PageTable.maps_pos {pt : PageTable} {no : Nat} :
    0 < pt.maps no ↔ ∃ v, (pt.pte v).leaf = some no := by
  unfold PageTable.maps
  exact refs_pos

/-- A page that is mapped once has one entry. -/
theorem PageTable.leaf_inj (pt : PageTable) {no : Nat} (h : pt.maps no ≤ 1) {v w : Vpn}
    (hv : (pt.pte v).leaf = some no) (hw : (pt.pte w).leaf = some no) : v = w := by
  have hone : pt.maps no = 1 := Nat.le_antisymm h (PageTable.maps_pos.mpr ⟨v, hv⟩)
  unfold PageTable.maps at hone
  exact eq_of_refs_eq_one hone hv hw

theorem PageTable.maps_set (pt : PageTable) (v : Vpn) (pte : Pte) (no : Nat) :
    (pt.setPte v pte).maps no + (if (pt.pte v).leaf = some no then 1 else 0)
      = pt.maps no + (if pte.leaf = some no then 1 else 0) := by
  have hset : (fun w => ((pt.setPte v pte).pte w).leaf)
      = update (fun w => (pt.pte w).leaf) v pte.leaf := by
    funext w
    rw [PageTable.setPte_pte]
    by_cases hw : w = v
    · rw [hw, update_self, update_self]
    · rw [update_of_ne hw, update_of_ne hw]
  unfold PageTable.maps
  rw [hset]
  exact refs_update _ v pte.leaf no

@[simp] theorem PageTable.maps_zeroed (root no : Nat) : (PageTable.zeroed root).maps no = 0 := by
  have hnone : (fun v => ((PageTable.zeroed root).pte v).leaf) = fun _ => none := by
    funext v
    exact Pte.leaf_zero
  unfold PageTable.maps
  rw [hnone]
  exact refs_none no

theorem PageTable.maps_congr {pt pt' : PageTable} (h : pt'.pte = pt.pte) (no : Nat) :
    pt'.maps no = pt.maps no := by
  unfold PageTable.maps
  rw [h]

/-- A table that maps no more than another. -/
theorem PageTable.maps_le {pt pt' : PageTable} {no : Nat}
    (h : ∀ v, (pt'.pte v).leaf = some no → (pt.pte v).leaf = some no) : pt'.maps no ≤ pt.maps no := by
  unfold PageTable.maps
  exact refs_mono h

theorem PageTable.holds_zeroed {root no : Nat} (h : (PageTable.zeroed root).Holds no) : no = root := by
  rcases h with h | ⟨i, hi⟩ | ⟨i, j, hij⟩
  · exact h
  · cases hi
  · cases hij

theorem PageTable.holds_addMid {pt : PageTable} {i : Idx} {page no : Nat}
    (h : (pt.addMid i page).Holds no) : pt.Holds no ∨ no = page := by
  rcases h with h | ⟨i', hi⟩ | hlow
  · exact .inl (.inl h)
  · have hi : update pt.mid i (some page) i' = some no := hi
    by_cases hii : i' = i
    · rw [hii, update_self] at hi
      exact .inr (Option.some.inj hi).symm
    · rw [update_of_ne hii] at hi
      exact .inl (.inr (.inl ⟨i', hi⟩))
  · exact .inl (.inr (.inr hlow))

theorem PageTable.holds_addLow {pt : PageTable} {i j : Idx} {page no : Nat}
    (h : (pt.addLow i j page).Holds no) : pt.Holds no ∨ no = page := by
  rcases h with h | hmid | ⟨i', j', hij⟩
  · exact .inl (.inl h)
  · exact .inl (.inr (.inl hmid))
  · have hij : update pt.low i (update (pt.low i) j (some page)) i' j' = some no :=
      hij
    by_cases hii : i' = i
    · rw [hii, update_self] at hij
      by_cases hjj : j' = j
      · rw [hjj, update_self] at hij
        exact .inr (Option.some.inj hij).symm
      · rw [update_of_ne hjj] at hij
        exact .inl (.inr (.inr ⟨i, j', hij⟩))
    · rw [update_of_ne hii] at hij
      exact .inl (.inr (.inr ⟨i', j', hij⟩))

/-! ## Looking for an entry -/

/-- Tables are added, and the entries stay. -/
structure Walked (pt pt' : PageTable) : Prop where
  pte : pt'.pte = pt.pte
  present : ∀ v, pt.Present v → pt'.Present v

variable {c : Prop} {s : Buddy} {pt pt' : PageTable} {uses keeps rest : Nat → Nat}
  {pinned : Nat → Prop} {tail : Nat → Nat → Prop}

theorem Walked.refl (pt : PageTable) : Walked pt pt := ⟨rfl, fun _ h => h⟩

theorem Walked.trans {pt'' : PageTable} (h : Walked pt pt') (h' : Walked pt' pt'') :
    Walked pt pt'' :=
  ⟨h'.pte.trans h.pte, fun v hv => h'.present v (h.present v hv)⟩

/-- The books of a process, with the pages of its table. -/
abbrev Books.With (s : Buddy) (uses keeps : Nat → Nat) (pinned : Nat → Prop)
    (tail : Nat → Nat → Prop) (pt : PageTable) : Prop :=
  Books s uses keeps (fun no => pinned no ∨ pt.Holds no) tail

theorem enterMid_books (h : Books.With s uses keeps pinned tail pt) (i : Idx) :
    Meets (Unless c) (enterMid s pt i) fun r => Books.With r.1 uses keeps pinned tail r.2 ∧
      Walked pt r.2 ∧ (r.2.mid i).isSome = true := by
  unfold enterMid
  split
  · rename_i page hpage
    refine .ok ⟨h, .refl pt, ?_⟩
    rw [hpage]
    rfl
  · refine h.allocPin.bind fun r hr => .pure ⟨?_, ⟨rfl, ?_⟩, ?_⟩
    · refine hr.1.unpin ?_
      rintro no (hno | hno)
      · exact .inl (.inl hno)
      · exact (PageTable.holds_addMid hno).imp_left Or.inr
    · rintro v ⟨hmid, hlow⟩
      refine ⟨?_, hlow⟩
      show (update pt.mid i (some r.2) v.1).isSome = true
      by_cases hvi : v.1 = i
      · rw [hvi, update_self]
        rfl
      · rw [update_of_ne hvi]
        exact hmid
    · show (update pt.mid i (some r.2) i).isSome = true
      rw [update_self]
      rfl

theorem enterLow_books (h : Books.With s uses keeps pinned tail pt) (i j : Idx) :
    Meets (Unless c) (enterLow s pt i j) fun r => Books.With r.1 uses keeps pinned tail r.2 ∧
      Walked pt r.2 ∧ r.2.mid = pt.mid ∧ (r.2.low i j).isSome = true := by
  unfold enterLow
  split
  · rename_i page hpage
    refine .ok ⟨h, .refl pt, rfl, ?_⟩
    rw [hpage]
    rfl
  · refine h.allocPin.bind fun r hr => .pure ⟨?_, ⟨rfl, ?_⟩, rfl, ?_⟩
    · refine hr.1.unpin ?_
      rintro no (hno | hno)
      · exact .inl (.inl hno)
      · exact (PageTable.holds_addLow hno).imp_left Or.inr
    · rintro ⟨i', j', k'⟩ ⟨hmid, hlow⟩
      refine ⟨hmid, ?_⟩
      show (update pt.low i (update (pt.low i) j (some r.2)) i' j').isSome = true
      by_cases hii : i' = i
      · rw [hii, update_self]
        by_cases hjj : j' = j
        · rw [hjj, update_self]
          rfl
        · rw [update_of_ne hjj]
          exact hii ▸ hlow
      · rw [update_of_ne hii]
        exact hlow
    · show (update pt.low i (update (pt.low i) j (some r.2)) i j).isSome = true
      rw [update_self, update_self]
      rfl

theorem walk_books (h : Books.With s uses keeps pinned tail pt) (va : Nat) :
    Meets (Unless c) (walk s pt va) fun r => Books.With r.1 uses keeps pinned tail r.2 ∧
      Walked pt r.2 ∧ r.2.Present (vpn va) ∧ va < MAXVA := by
  unfold walk
  refine .ite (fun hva => ?_) fun _ => .error unless_check
  refine (enterMid_books h (px 2 va)).bind fun r hr => ?_
  refine (enterLow_books hr.1 (px 2 va) (px 1 va)).mono fun r' hr' => ?_
  refine ⟨hr'.1, hr.2.1.trans hr'.2.1, ⟨?_, hr'.2.2.2⟩, hva⟩
  show (r'.2.mid (px 2 va)).isSome = true
  rw [hr'.2.2.1]
  exact hr.2.2

/-! ## What a table keeps -/

/-- An entry above the user's memory: of the trampoline, or of the trapframe. -/
def TopEntry (tf : Nat) (v : Vpn) (pte : Pte) : Prop :=
  (pte.paddr = .trampoline ∧ v = vpn TRAMPOLINE ∧ grants pte.perm PTE_W = false) ∨
    (pte.paddr = .page tf ∧ v = vpn TRAPFRAME)

/-- A page table of the process whose page is `tf`; the other tables map a page `rest` times. -/
structure Space (rest : Nat → Nat) (tf : Nat) (pt : PageTable) : Prop where
  page : ∀ v, (pt.pte v).valid = true → (pt.pte v).unrelease = false →
    ∃ no, (pt.pte v).paddr = .page no
  top : ∀ v, (pt.pte v).unrelease = true → TopEntry tf v (pt.pte v)
  blank : ∀ v, (pt.pte v).valid = false → (pt.pte v).perm = 0#8
  present : ∀ v, (pt.pte v).valid = true → pt.Present v
  single : ∀ no, pt.maps no ≤ 1
  sole : ∀ v no, (pt.pte v).leaf = some no → grants (pt.pte v).perm PTE_W = true → rest no = 0

theorem Space.zeroed (rest : Nat → Nat) (tf root : Nat) : Space rest tf (PageTable.zeroed root) := by
  have hinvalid : Pte.zero.valid = false := by decide
  refine ⟨fun v hv => ?_, fun v hv => (nomatch hv), fun _ _ => rfl, fun v hv => ?_, fun no => ?_,
    fun v no hv => ?_⟩
  · have hv : Pte.zero.valid = true := hv
    rw [hinvalid] at hv
    cases hv
  · have hv : Pte.zero.valid = true := hv
    rw [hinvalid] at hv
    cases hv
  · rw [PageTable.maps_zeroed]
    exact Nat.zero_le 1
  · have hv : Pte.zero.leaf = some no := hv
    rw [Pte.leaf_zero] at hv
    cases hv

theorem Space.walked {tf : Nat} (h : Space rest tf pt) (hw : Walked pt pt') : Space rest tf pt' := by
  refine ⟨?_, ?_, ?_, ?_, ?_, ?_⟩
  · rw [hw.pte]
    exact h.page
  · rw [hw.pte]
    exact h.top
  · rw [hw.pte]
    exact h.blank
  · rw [hw.pte]
    exact fun v hv => hw.present v (h.present v hv)
  · intro no
    rw [PageTable.maps_congr hw.pte]
    exact h.single no
  · rw [hw.pte]
    exact h.sole

/-- One entry is stored. -/
theorem Space.set {tf : Nat} (h : Space rest tf pt) {v : Vpn} {pte : Pte}
    (hvalid : pte.valid = true)
    (hpage : pte.unrelease = false → ∃ no, pte.paddr = .page no)
    (htop : pte.unrelease = true → TopEntry tf v pte)
    (hpresent : pt.Present v)
    (hsingle : ∀ no, pte.leaf = some no → (pt.pte v).leaf = some no ∨ pt.maps no = 0)
    (hsole : ∀ no, pte.leaf = some no → grants pte.perm PTE_W = true → rest no = 0) :
    Space rest tf (pt.setPte v pte) := by
  have hset : ∀ {motive : Vpn → Pte → Prop}, motive v pte → (∀ w, motive w (pt.pte w)) →
      ∀ w, motive w ((pt.setPte v pte).pte w) := by
    intro motive hv hw w
    rw [PageTable.setPte_pte]
    by_cases hwv : w = v
    · rw [hwv, update_self]
      exact hv
    · rw [update_of_ne hwv]
      exact hw w
  refine ⟨?_, ?_, ?_, ?_, ?_, ?_⟩
  · exact hset (motive := fun _ e => e.valid = true → e.unrelease = false → ∃ no, e.paddr = .page no)
      (fun _ => hpage) h.page
  · exact hset (motive := fun w e => e.unrelease = true → TopEntry tf w e) htop h.top
  · exact hset (motive := fun _ e => e.valid = false → e.perm = 0#8)
      (fun hnot => nomatch hvalid.symm.trans hnot) h.blank
  · exact hset (motive := fun w e => e.valid = true → pt.Present w) (fun _ => hpresent) h.present
  · intro no
    have hmaps := pt.maps_set v pte no
    have hone := h.single no
    by_cases hnew : pte.leaf = some no
    · rw [if_pos hnew] at hmaps
      rcases hsingle no hnew with hold | hzero
      · rw [if_pos hold] at hmaps
        omega
      · omega
    · rw [if_neg hnew] at hmaps
      omega
  · exact hset (motive := fun _ e => ∀ no, e.leaf = some no → grants e.perm PTE_W = true → rest no = 0)
      hsole h.sole

/-- What a call may do to a table that is kept: a page that is new in it was not used elsewhere,
    tails stay, entries that are valid lose no flags, and those above the user's memory stay there. -/
structure Kept (tail : Nat → Nat → Prop) (rest : Nat → Nat) (pt pt' : PageTable) : Prop where
  gain : ∀ no, 0 < pt'.maps no → 0 < pt.maps no ∨ rest no = 0
  tails : ∀ hd t, tail hd t → 0 < pt.maps t → 0 < pt'.maps t
  grow : ∀ v, (pt.pte v).valid = true → grants (pt'.pte v).perm (pt.pte v).perm = true
  top : ∀ v, (pt.pte v).valid = true → (pt.pte v).unrelease = true →
    (pt'.pte v).unrelease = true

theorem Kept.valid (h : Kept tail rest pt pt') {v : Vpn} (hv : (pt.pte v).valid = true) :
    (pt'.pte v).valid = true :=
  grants_trans (h.grow v hv) hv

theorem Kept.refl (pt : PageTable) : Kept tail rest pt pt :=
  ⟨fun _ h => .inl h, fun _ _ _ h => h, fun _ _ => grants_refl _, fun _ _ hu => hu⟩

theorem Kept.trans {pt'' : PageTable} (h : Kept tail rest pt pt') (h' : Kept tail rest pt' pt'') :
    Kept tail rest pt pt'' := by
  refine ⟨fun no hno => ?_, fun hd t ht hmaps => ?_, fun v hv => ?_, fun v hv hu => ?_⟩
  · rcases h'.gain no hno with hmid | hzero
    · exact h.gain no hmid
    · exact .inr hzero
  · exact h'.tails hd t ht (h.tails hd t ht hmaps)
  · exact grants_trans (h'.grow v (h.valid hv)) (h.grow v hv)
  · exact h'.top v (h.valid hv) (h.top v hv hu)

theorem Kept.walked (h : Walked pt pt') : Kept tail rest pt pt' := by
  refine ⟨fun no hno => ?_, fun hd t _ hmaps => ?_, fun v _ => ?_, fun v _ hu => ?_⟩
  · rw [PageTable.maps_congr h.pte] at hno
    exact .inl hno
  · rw [PageTable.maps_congr h.pte]
    exact hmaps
  · rw [h.pte]
    exact grants_refl _
  · rw [h.pte]
    exact hu

/-- The trampoline and the trapframe are mapped. -/
def Complete (pt : PageTable) : Prop := ∀ a, TRAPFRAME ≤ a → a < MAXVA →
  (pt.pte (vpn a)).valid = true ∧ (pt.pte (vpn a)).unrelease = true

theorem Kept.complete (h : Kept tail rest pt pt') (hc : Complete pt) : Complete pt' := by
  intro a hlo hhi
  obtain ⟨hv, hu⟩ := hc a hlo hhi
  exact ⟨h.valid hv, h.top _ hv hu⟩

/-- A process with its table, beside the rest of the system. -/
structure Account (s : Buddy) (rest keeps : Nat → Nat) (pinned : Nat → Prop)
    (tail : Nat → Nat → Prop) (tf : Nat) (pt : PageTable) : Prop where
  books : Books.With s (fun x => rest x + pt.maps x) keeps pinned tail pt
  space : Space rest tf pt
  complete : Complete pt
  tf : 0 < keeps tf

/-! ## Mapping -/

/-- One page is mapped. -/
theorem mappages_books (h : Books.With s uses keeps pinned tail pt) {va : Nat} (pa : Frame)
    (perm : Perm) (hva : va % PGSIZE = 0) :
    Meets (Unless c) (mappages s pt va PGSIZE pa perm) fun r =>
      Books.With r.1 uses keeps pinned tail r.2 ∧ va < MAXVA ∧ (pt.pte (vpn va)).valid = false ∧
        ∃ pt₁, Walked pt pt₁ ∧ pt₁.Present (vpn va) ∧ r.2 = pt₁.setPte (vpn va)
          { perm := (if va ≥ TRAMPOLINE then perm ||| PTE_G else perm) ||| PTE_V,
            unrelease := decide (va ≥ TRAPFRAME), paddr := pa } := by
  unfold mappages
  refine .ite (fun hsize => absurd hsize (by decide)) fun _ => ?_
  simp only [pgRoundDown_of_aligned hva, pgRoundUp_page hva]
  rw [mappagesLoop]
  refine (walk_books h va).bind fun r hr => ?_
  refine .ite (fun _ => .error unless_check) fun hvalid => ?_
  rw [mappagesLoop]
  rw [Bool.not_eq_true, hr.2.1.pte] at hvalid
  exact .ok ⟨hr.1, hr.2.2.2, hvalid, r.2, hr.2.1, hr.2.2.1, rfl⟩

/-- An entry that was not valid gets a page that nobody uses. -/
theorem Space.map {tf : Nat} (h : Space rest tf pt) {v : Vpn} (perm : Perm) {no : Nat}
    (hpresent : pt.Present v) (hvalid : (pt.pte v).valid = false) (hmaps : pt.maps no = 0)
    (hrest : rest no = 0) :
    let pt' := pt.setPte v ⟨perm ||| PTE_V, false, .page no⟩
    Space rest tf pt' ∧ (∀ x, pt'.maps x = pt.maps x + one no x) ∧ Kept tail rest pt pt' := by
  intro pt'
  have hleaf : (⟨perm ||| PTE_V, false, .page no⟩ : Pte).leaf = some no :=
    Pte.leaf_eq_some.mpr ⟨grants_or_right _ _, rfl, rfl⟩
  have hnone : (pt.pte v).leaf = none := by
    simp [Pte.leaf, hvalid]
  have hcount : ∀ x, pt'.maps x = pt.maps x + one no x := by
    intro x
    have hset := pt.maps_set v ⟨perm ||| PTE_V, false, .page no⟩ x
    rw [hleaf, hnone, if_neg (fun heq => nomatch heq), Nat.add_zero, ite_some_eq_one] at hset
    exact hset
  have hset : ∀ w, (pt.pte w).valid = true → pt'.pte w = pt.pte w := by
    intro w hw
    have hwv : w ≠ v := by
      rintro rfl
      rw [hvalid] at hw
      cases hw
    show update pt.pte v _ w = pt.pte w
    rw [update_of_ne hwv]
  refine ⟨h.set (grants_or_right _ _) ?_ ?_ hpresent ?_ ?_, hcount, ?_, ?_, ?_, ?_⟩
  · exact fun _ => ⟨no, rfl⟩
  · exact fun hu => nomatch hu
  · intro x hx
    rw [hleaf] at hx
    exact .inr (Option.some.inj hx ▸ hmaps)
  · intro x hx _
    rw [hleaf] at hx
    exact Option.some.inj hx ▸ hrest
  · intro x hx
    rw [hcount] at hx
    by_cases hxn : x = no
    · exact .inr (hxn ▸ hrest)
    · rw [one_of_ne hxn, Nat.add_zero] at hx
      exact .inl hx
  · intro hd t _ ht
    rw [hcount]
    omega
  · intro w hw
    rw [hset w hw]
    exact grants_refl _
  · intro w hw hu
    rw [hset w hw]
    exact hu

/-- The loop of `mappages` on the pages of a block that is used nowhere else. -/
theorem mappagesLoop_books {va tf : Nat} {perm : Perm} (hva : va < TRAPFRAME) (n : Nat) (s : Buddy)
    (pt : PageTable) (a no : Nat) (h : Books.With s uses keeps pinned tail pt)
    (hs : Space rest tf pt) (hfree : ∀ x, spread no n x = 1 → pt.maps x = 0 ∧ rest x = 0) :
    Meets (Unless c) (mappagesLoop va perm n s pt a (.page no)) fun r =>
      Books.With r.1 uses keeps pinned tail r.2 ∧ Space rest tf r.2 ∧
        (∀ x, r.2.maps x = pt.maps x + spread no n x) ∧ Kept tail rest pt r.2 := by
  induction n generalizing s pt a no with
  | zero =>
    refine .ok ⟨h, hs, fun x => ?_, .refl pt⟩
    unfold spread
    rw [if_neg (by omega), Nat.add_zero]
  | succ n ih =>
    unfold mappagesLoop
    refine (walk_books h a).bind fun r hr => ?_
    obtain ⟨hbooks, hwalked, hpresent, -⟩ := hr
    refine .ite (fun _ => .error unless_check) fun hvalid => ?_
    rw [Bool.not_eq_true] at hvalid
    have hlow : ¬ va ≥ TRAMPOLINE := by
      have hlt : TRAPFRAME < TRAMPOLINE := by decide
      omega
    have hmine : decide (va ≥ TRAPFRAME) = false := decide_eq_false (by omega)
    simp only [if_neg hlow, hmine]
    have hfirst := hfree no (if_pos ⟨Nat.le_refl no, by omega⟩)
    rw [← PageTable.maps_congr hwalked.pte] at hfirst
    obtain ⟨hs', hmaps', hkept'⟩ := (hs.walked hwalked).map perm hpresent hvalid hfirst.1 hfirst.2
    have hstep : ∀ x, spread no (n + 1) x = one no x + spread (no + 1) n x := by
      intro x
      unfold spread one
      by_cases hx : x = no
      · rw [if_pos hx, if_pos (by omega), if_neg (by omega)]
      · rw [if_neg hx, Nat.zero_add]
        by_cases hin : no + 1 ≤ x ∧ x < no + 1 + n
        · rw [if_pos hin, if_pos (by omega)]
        · rw [if_neg hin, if_neg (by omega)]
    let pt' := r.2.setPte (vpn a) ⟨perm ||| PTE_V, false, .page no⟩
    refine (ih r.1 pt' (a + PGSIZE) (no + 1) hbooks hs' ?_).mono fun w hw => ?_
    · intro x hx
      have hzero : one no x = 0 := by
        refine one_of_ne ?_
        rintro rfl
        unfold spread at hx
        rw [if_neg (by omega)] at hx
        cases hx
      rw [hmaps', hzero, PageTable.maps_congr hwalked.pte]
      refine hfree x ?_
      rw [hstep, hzero, hx]
    · obtain ⟨hbooks'', hs'', hmaps'', hkept''⟩ := hw
      refine ⟨hbooks'', hs'', fun x => ?_, ((Kept.walked hwalked).trans hkept').trans hkept''⟩
      rw [hmaps'', hmaps', hstep, PageTable.maps_congr hwalked.pte]
      omega

/-! ## Page faults -/

section Fault

variable {m : Mem} {tf : Nat}

/-- A page is read in. -/
theorem doNoPage_books (h : Account m.phys rest keeps pinned tail tf pt) {va : Nat}
    (hva : va % PGSIZE = 0) (targetperm : Perm) (fill : Nat → Page) :
    Meets (Unless c) (doNoPage m pt va targetperm fill) fun r =>
      Account r.1.phys rest keeps pinned tail tf r.2 ∧ Kept tail rest pt r.2 := by
  unfold doNoPage
  refine h.books.allocOne.bind ?_
  rintro ⟨s, page⟩ ⟨hbooks, hfresh⟩
  refine (mappages_books hbooks (.page page) targetperm hva).bind ?_
  rintro ⟨s', pt'⟩ ⟨hbooks', hlt, hvalid, pt₁, hwalked, hpresent, rfl⟩
  -- the entries above the user's memory are valid, so this one is below
  have hlow : va < TRAPFRAME := by
    by_contra hge
    have htop := (h.complete va (by omega) hlt).1
    rw [hvalid] at htop
    cases htop
  have hnotramp : ¬ va ≥ TRAMPOLINE := by
    have hle : TRAPFRAME < TRAMPOLINE := by decide
    omega
  have hmine : decide (va ≥ TRAPFRAME) = false := decide_eq_false (by omega)
  simp only [if_neg hnotramp, hmine] at hbooks' ⊢
  have hzero : rest page + pt.maps page = 0 := hfresh.uses
  have hmaps₁ : ∀ x, pt₁.maps x = pt.maps x := PageTable.maps_congr hwalked.pte
  have hpage : pt₁.maps page = 0 := by
    rw [hmaps₁]
    omega
  rw [← hwalked.pte] at hvalid
  obtain ⟨hs, hmaps, hkept⟩ :=
    (h.space.walked hwalked).map targetperm hpresent hvalid hpage (by omega)
  have hkept' := (Kept.walked hwalked).trans hkept
  refine .pure ⟨⟨?_, hs, hkept'.complete h.complete, h.tf⟩, hkept'⟩
  refine Books.congr hbooks' (fun x => ?_) fun _ => rfl
  rw [hmaps, hmaps₁]
  omega

/-- The flags of an entry grow. -/
theorem Space.grow (h : Space rest tf pt) {v : Vpn} (hvalid : (pt.pte v).valid = true)
    (targetperm : Perm) (hsole : ∀ no, (pt.pte v).leaf = some no → rest no = 0)
    (hne : (pt.pte v).paddr ≠ .trampoline) :
    let pt' := pt.setPte v { pt.pte v with perm := (pt.pte v).perm ||| targetperm }
    Space rest tf pt' ∧ (∀ x, pt'.maps x = pt.maps x) ∧ Kept tail rest pt pt' := by
  intro pt'
  have hvalid' : ({ pt.pte v with perm := (pt.pte v).perm ||| targetperm } : Pte).valid = true :=
    grants_trans (grants_or_left _ _) hvalid
  have hleaf : ({ pt.pte v with perm := (pt.pte v).perm ||| targetperm } : Pte).leaf
      = (pt.pte v).leaf := by
    unfold Pte.leaf
    rw [hvalid, hvalid']
  have hcount : ∀ x, pt'.maps x = pt.maps x := by
    intro x
    have hset := pt.maps_set v { pt.pte v with perm := (pt.pte v).perm ||| targetperm } x
    rw [hleaf] at hset
    exact Nat.add_right_cancel hset
  refine ⟨h.set hvalid' ?_ ?_ (h.present v hvalid) ?_ ?_, hcount, ?_, ?_, ?_, ?_⟩
  · exact fun hu => h.page v hvalid hu
  · exact fun hu => .inr ((h.top v hu).resolve_left fun htramp => hne htramp.1)
  · exact fun no hno => .inl (hleaf ▸ hno)
  · exact fun no hno _ => hsole no (hleaf ▸ hno)
  · intro x hx
    rw [hcount] at hx
    exact .inl hx
  · intro hd t _ ht
    rw [hcount]
    exact ht
  · intro w _
    show grants (update pt.pte v _ w).perm (pt.pte w).perm = true
    by_cases hwv : w = v
    · rw [hwv, update_self]
      exact grants_or_left _ _
    · rw [update_of_ne hwv]
      exact grants_refl _
  · intro w _ hu
    show (update pt.pte v _ w).unrelease = true
    by_cases hwv : w = v
    · rw [hwv, update_self]
      exact hwv ▸ hu
    · rw [update_of_ne hwv]
      exact hu

/-- An entry gets a page of its own in place of one that others use. -/
theorem Space.replace (h : Space rest tf pt) {v : Vpn} {no new : Nat} {perm : Perm}
    (hno : (pt.pte v).leaf = some no) (hperm : grants perm (pt.pte v).perm = true)
    (hnew : pt.maps new = 0)
    (hrest : rest new = 0) (hno' : ∀ hd, ¬ tail hd no) :
    let pt' := pt.setPte v ⟨perm, false, .page new⟩
    Space rest tf pt' ∧ (∀ x, pt'.maps x + one no x = pt.maps x + one new x) ∧
      Kept tail rest pt pt' := by
  intro pt'
  obtain ⟨hvalid, hmine, -⟩ := Pte.leaf_eq_some.mp hno
  have hvalid' : (⟨perm, false, .page new⟩ : Pte).valid = true := grants_trans hperm hvalid
  have hleaf : (⟨perm, false, .page new⟩ : Pte).leaf = some new :=
    Pte.leaf_eq_some.mpr ⟨hvalid', rfl, rfl⟩
  have hcount : ∀ x, pt'.maps x + one no x = pt.maps x + one new x := by
    intro x
    have hset := pt.maps_set v ⟨perm, false, .page new⟩ x
    rw [hleaf, hno, ite_some_eq_one, ite_some_eq_one] at hset
    exact hset
  refine ⟨h.set hvalid' ?_ ?_ (h.present v hvalid) ?_ ?_, hcount, ?_, ?_, ?_, ?_⟩
  · exact fun _ => ⟨new, rfl⟩
  · exact fun hu => nomatch hu
  · intro x hx
    rw [hleaf] at hx
    exact .inr (Option.some.inj hx ▸ hnew)
  · intro x hx _
    rw [hleaf] at hx
    exact Option.some.inj hx ▸ hrest
  · intro x hx
    have hx' := hcount x
    by_cases hxn : x = new
    · exact .inr (hxn ▸ hrest)
    · rw [one_of_ne hxn] at hx'
      exact .inl (by omega)
  · intro hd t ht hpos
    have htno : t ≠ no := by
      rintro rfl
      exact hno' hd ht
    have ht' := hcount t
    rw [one_of_ne htno] at ht'
    omega
  · intro w _
    show grants (update pt.pte v _ w).perm (pt.pte w).perm = true
    by_cases hwv : w = v
    · rw [hwv, update_self]
      exact hperm
    · rw [update_of_ne hwv]
      exact grants_refl _
  · intro w _ hu
    have hwv : w ≠ v := by
      rintro rfl
      rw [hmine] at hu
      cases hu
    show (update pt.pte v _ w).unrelease = true
    rw [update_of_ne hwv]
    exact hu

/-- The page of an entry, and who uses pages besides that entry. -/
theorem Account.usedAt {s : Buddy} (h : Account s rest keeps pinned tail tf pt) {v : Vpn}
    (hvalid : (pt.pte v).valid = true) (hmine : (pt.pte v).unrelease = false) :
    ∃ (no : Nat) (others : Nat → Nat), (pt.pte v).paddr = .page no ∧ (pt.pte v).leaf = some no ∧
      (∀ x, others x + one no x = rest x + pt.maps x) ∧ others no = rest no := by
  obtain ⟨no, hpaddr⟩ := h.space.page v hvalid hmine
  have hleaf : (pt.pte v).leaf = some no := Pte.leaf_eq_some.mpr ⟨hvalid, hmine, hpaddr⟩
  have hone : pt.maps no = 1 :=
    Nat.le_antisymm (h.space.single no) (PageTable.maps_pos.mpr ⟨v, hleaf⟩)
  let others : Nat → Nat := fun x => rest x + pt.maps x - one no x
  have hsplit : ∀ x, others x + one no x = rest x + pt.maps x := by
    intro x
    show rest x + pt.maps x - one no x + one no x = _
    by_cases hx : x = no
    · rw [hx, hone, one_self]
      omega
    · rw [one_of_ne hx]
      omega
  have hrestno : others no = rest no := by
    show rest no + pt.maps no - one no no = rest no
    rw [hone, one_self]
    omega
  exact ⟨no, others, hpaddr, hleaf, hsplit, hrestno⟩

/-- A page is copied, or becomes writable where it is used alone. -/
theorem doWpPage_books (h : Account m.phys rest keeps pinned tail tf pt)
    (hc : (∃ hd t, tail hd t) → c) {v : Vpn} (hvalid : (pt.pte v).valid = true)
    (htramp : v = vpn TRAMPOLINE → c) (targetperm : Perm) :
    Meets (Unless c) (doWpPage m pt v targetperm) fun r =>
      Account r.1.phys rest keeps pinned tail tf r.2 ∧ Kept tail rest pt r.2 := by
  have hgrow : (∀ no, (pt.pte v).leaf = some no → rest no = 0) →
      (pt.pte v).paddr ≠ .trampoline → ∀ s,
      Books.With s (fun x => rest x + pt.maps x) keeps pinned tail pt →
      let pt' := pt.setPte v { pt.pte v with perm := (pt.pte v).perm ||| targetperm }
      Account s rest keeps pinned tail tf pt' ∧ Kept tail rest pt pt' := by
    intro hsole hne s hbooks pt'
    obtain ⟨hs, hmaps, hkept⟩ : _ ∧ _ ∧ Kept tail _ _ _ :=
      h.space.grow hvalid targetperm hsole hne
    refine ⟨⟨?_, hs, hkept.complete h.complete, h.tf⟩, hkept⟩
    exact Books.congr hbooks (fun x => by rw [hmaps]) fun _ => rfl
  unfold doWpPage
  cases hmine : (pt.pte v).unrelease with
  | true =>
    -- above the user's memory: the trapframe is the process's own, the trampoline has no record
    rcases h.space.top v hmine with ⟨hpaddr, hv, -⟩ | ⟨hpaddr, -⟩
    · have hundup : Vm.pagesUndup m.phys (pt.pte v).paddr = .error .count := by
        rw [hpaddr]
        rfl
      simp only [hundup, error_bind]
      exact .error fun _ => htramp hv
    · obtain ⟨hundup, hlock⟩ := h.books.undupKept h.tf
      rw [← hpaddr] at hundup hlock
      simp only [hundup, hlock, ok_bind, if_pos]
      have hnone := Pte.leaf_unrelease hmine
      have hne : (pt.pte v).paddr ≠ .trampoline := fun heq => nomatch hpaddr.symm.trans heq
      exact .pure (hgrow (fun no hno => nomatch hnone.symm.trans hno) hne _ h.books)
  | false =>
    obtain ⟨no, others, hpaddr, hleaf, hsplit, hrestno⟩ := h.usedAt hvalid hmine
    have hundup := (Books.congr h.books hsplit fun _ => rfl).undup hc
    rw [← hpaddr] at hundup
    refine hundup.bind ?_
    rintro ⟨s, ret⟩ ⟨rfl, hno, hlock, hbooks'⟩
    simp only at hlock hbooks' ⊢
    refine .ite (fun hlast => ?_) fun hmany => ?_
    · have hzero : others no = 0 := by omega
      simp only [hlock, ok_bind]
      simp only [hzero, if_pos] at hbooks'
      have hne : (pt.pte v).paddr ≠ .trampoline := fun heq => nomatch hpaddr.symm.trans heq
      refine .pure
        (hgrow ?_ hne s (Books.congr hbooks' (fun x => (hsplit x).symm) fun _ => rfl))
      intro x hx
      rw [hleaf] at hx
      rw [← Option.some.inj hx, ← hrestno]
      exact hzero
    · have hpos : others no ≠ 0 := by omega
      simp only [if_neg hpos, Nat.add_zero] at hbooks'
      refine hbooks'.allocOne.bind ?_
      rintro ⟨s', new⟩ ⟨hbooks'', hfresh⟩
      have hnew : new ≠ no := by
        rintro rfl
        exact hpos hfresh.uses
      have hzero := hsplit new
      rw [hfresh.uses, one_of_ne hnew] at hzero
      have hmapsnew : pt.maps new = 0 := by omega
      have hrestnew : rest new = 0 := by omega
      -- the old page is still used by others
      have hcount : 1 ≤ (s'.record no).count := by
        have hused : 0 < others no + one new no := by omega
        rw [hbooks''.count hused hno]
        exact hused
      have hlock' : releasePglock s' (pt.pte v).paddr = .ok () := by
        rw [hpaddr]
        exact if_pos hcount
      have hdata : frameData m.data (pt.pte v).paddr = .ok (m.data no) := by
        rw [hpaddr]
        rfl
      simp only [hdata, hlock', ok_bind]
      have hperm : grants (targetperm ||| (pt.pte v).perm) (pt.pte v).perm = true :=
        grants_or_right _ _
      obtain ⟨hs, hmaps, hkept⟩ := h.space.replace hleaf hperm hmapsnew hrestnew hno
      refine .pure ⟨⟨?_, hs, hkept.complete h.complete, h.tf⟩, hkept⟩
      refine Books.congr hbooks'' (fun x => ?_) fun _ => rfl
      have hx := hmaps x
      have hx' := hsplit x
      dsimp only
      omega

/-- The account of a table that `walk` has added to. -/
theorem Account.walked {s s' : Buddy}
    (h : Account s rest keeps pinned tail tf pt)
    (hbooks : Books.With s' (fun x => rest x + pt.maps x) keeps pinned tail pt')
    (hwalked : Walked pt pt') : Account s' rest keeps pinned tail tf pt' := by
  have hkept : Kept tail rest pt pt' := .walked hwalked
  refine ⟨Books.congr hbooks (fun x => ?_) fun _ => rfl, h.space.walked hwalked,
    hkept.complete h.complete, h.tf⟩
  rw [PageTable.maps_congr hwalked.pte]

/-- Looking for an entry. -/
theorem walk_account {s : Buddy} (h : Account s rest keeps pinned tail tf pt) (va : Nat) :
    Meets (Unless c) (walk s pt va) fun r =>
      Account r.1 rest keeps pinned tail tf r.2 ∧ Walked pt r.2 ∧ va < MAXVA := by
  refine (walk_books h.books va).mono ?_
  rintro ⟨s', pt₁⟩ ⟨hbooks, hwalked, -, hlt⟩
  exact ⟨h.walked hbooks hwalked, hwalked, hlt⟩

/-- One page of a range. -/
theorem verifyPage_books (h : Account m.phys rest keeps pinned tail tf pt)
    (hc : (∃ hd t, tail hd t) → c) {va : Nat} (hva : va % PGSIZE = 0) (htramp : TRAMPOLINE ≤ va → c)
    (targetperm : Perm) (fill : Nat → Page) :
    Meets (Unless c) (verifyPage m pt va targetperm fill) fun r =>
      Account r.1.phys rest keeps pinned tail tf r.2 ∧ Kept tail rest pt r.2 := by
  unfold verifyPage
  refine (walk_account h va).bind ?_
  rintro ⟨s, pt₁⟩ ⟨h₁, hwalked, hlt⟩
  have hkept₁ : Kept tail rest pt pt₁ := .walked hwalked
  have htramp' : vpn va = vpn TRAMPOLINE → c := by
    intro heq
    rw [vpn_eq_iff hlt (by decide), pgRoundDown_of_aligned hva] at heq
    exact htramp (Nat.le_of_eq (heq.trans (by decide)).symm)
  refine .ite (fun _ => .pure ⟨h₁, hkept₁⟩) fun _ => .ite (fun hvalid => ?_) fun _ => ?_
  · refine (doWpPage_books (m := ⟨s, m.data⟩) h₁ hc hvalid htramp' targetperm).mono fun r hr => ?_
    exact ⟨hr.1, hkept₁.trans hr.2⟩
  · refine (doNoPage_books (m := ⟨s, m.data⟩) h₁ hva targetperm fill).mono fun r hr => ?_
    exact ⟨hr.1, hkept₁.trans hr.2⟩

theorem verifyLoop_books {endVaddr : Nat} (targetperm : Perm) (fill : Nat → Page)
    (hc : (∃ hd t, tail hd t) → c) (htramp : TRAMPOLINE < endVaddr → c) (va : Nat) (m : Mem)
    (pt : PageTable) (hva : va % PGSIZE = 0) (h : Account m.phys rest keeps pinned tail tf pt) :
    Meets (Unless c) (verifyLoop endVaddr targetperm fill va m pt) fun r =>
      Account r.1.phys rest keeps pinned tail tf r.2 ∧ Kept tail rest pt r.2 := by
  fun_induction verifyLoop endVaddr targetperm fill va m pt with
  | case1 va m pt hlt ih =>
    have htop : TRAMPOLINE ≤ va → c := fun hle => htramp (by omega)
    refine (verifyPage_books h hc hva htop targetperm fill).bind fun r hr => ?_
    have hnext : (va + PGSIZE) % PGSIZE = 0 := by
      rw [Nat.add_mod_right]
      exact hva
    exact (ih r.1 r.2 hnext hr.1).mono fun w hw => ⟨hw.1, hr.2.trans hw.2⟩
  | case2 va m pt hge => exact .ok ⟨h, .refl pt⟩

/-- `verify_area`, for a range that does not reach the trampoline. -/
theorem verifyArea_books (h : Account m.phys rest keeps pinned tail tf pt)
    (hc : (∃ hd t, tail hd t) → c) (areas : List Vma) {vaddr size : Nat}
    (htramp : TRAMPOLINE < (vaddr + size) % ADDRS → c) (targetperm : Perm) (fill : Nat → Page) :
    Meets (Unless c) (verifyArea m areas pt vaddr size targetperm fill) fun r =>
      Account r.1.phys rest keeps pinned tail tf r.2.1 ∧ Kept tail rest pt r.2.1 := by
  unfold verifyArea
  split
  · exact .ok ⟨h, .refl pt⟩
  · refine .ite (fun _ => ?_) fun _ => .ok ⟨h, .refl pt⟩
    refine (verifyLoop_books targetperm fill hc htramp _ m pt (pgRoundDown_mod vaddr) h).bind ?_
    exact fun r hr => .pure hr

end Fault

end Uniks.Vm
