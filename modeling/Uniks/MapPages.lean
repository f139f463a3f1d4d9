/-
  `mappages` of `kernel/mm/vm.c`, on the page table in memory.

  The loop maps the pages from the one of `va` up to `last`, which is computed from the start
  rounded down and from `size - 1`.  Both cost a page: of a size that is one more than a multiple
  of the page size the last byte is lost, and an unaligned start loses what the rounding moved
  beyond the end (`mappages_covers`).
-/
import Uniks.PageWalk

namespace Uniks.PageWalk

open Uniks.Vm EntryTree

/-- The bit field `unrelease` is set. -/
def setUnrelease (pte : Word) : Word := pte ||| BitVec.twoPow 64 8

/-- The flags that the loop stores, and goes on with. -/
def setGlobal (va : Nat) (flags : Perm) : Perm :=
  if va ≥ TRAMPOLINE then flags ||| PTE_G else flags

/-- The entry that the loop stores. -/
def newPte (va pa : Nat) (flags : Perm) : Word :=
  if va ≥ TRAPFRAME then setUnrelease (mkPte pa flags) else mkPte pa flags

/-- The loop of `mappages`, for the call with the address `va`; -1 if `walk` finds no entry. -/
def mappagesLoop (pagetable va last : Nat) (flags : Perm) (a pa : Nat) (s : St) :
    Except Fault (St × Int) :=
  if a < last then
    match walk s pagetable a true with
    | .error e => .error e
    | .ok (s, none) => .ok (s, -1)
    | .ok (s, some (page, i)) =>
      if valid (s.mem page i) then .error .check
      else
        let flags := setGlobal va flags
        mappagesLoop pagetable va last flags (a + PGSIZE) ((pa + PGSIZE) % ADDRS)
          (s.store page i (newPte va pa flags))
  else .ok (s, 0)
termination_by last - a
decreasing_by
  have hpos : 0 < PGSIZE := by decide
  omega

/-- The source's `mappages`. -/
def mappages (s : St) (pagetable va size pa : Nat) (flags : Perm) : Except Fault (St × Int) :=
  if size = 0 then .error .check
  else
    let a := pgRoundDown va
    let last := pgRoundUp ((a + size - 1) % ADDRS) % ADDRS
    mappagesLoop pagetable va last flags a pa s

/-- An entry maps `va'` as a range from `va` to `pa` should: with the flags asked for (the
    trampoline is global), to the page as far behind that of `pa`. -/
structure Mapped (va pa : Nat) (flags : Perm) (va' : Nat) (pte : Word) : Prop where
  isValid : valid pte = true
  hasPerm : perm pte = setGlobal va flags ||| PTE_V
  hasPage : paddr pte = (pa / PGSIZE + (va' / PGSIZE - va / PGSIZE)) % PAGES

section

variable {s s' : St} {root va va' size pa a last : Nat} {flags : Perm}

theorem setGlobal_idem (va : Nat) (flags : Perm) :
    setGlobal va (setGlobal va flags) = setGlobal va flags := by
  unfold setGlobal
  split
  · rw [BitVec.or_assoc, BitVec.or_self]
  · rfl

/-- The bits that the hardware reads are those of the entry without the mark. -/
theorem perm_setUnrelease (pte : Word) : perm (setUnrelease pte) = perm pte := by
  apply BitVec.eq_of_getLsbD_eq
  intro k hk
  have hne : ¬ 8 = 0 + k := by omega
  simp only [perm, setUnrelease, BitVec.getLsbD_extractLsb', BitVec.getLsbD_or,
    BitVec.getLsbD_twoPow, hne, decide_false, Bool.and_false, Bool.or_false]

theorem paddr_setUnrelease (pte : Word) : paddr (setUnrelease pte) = paddr pte := by
  unfold paddr
  apply congrArg
  apply BitVec.eq_of_getLsbD_eq
  intro k hk
  have hne : ¬ 8 = 10 + k := by omega
  simp only [setUnrelease, BitVec.getLsbD_extractLsb', BitVec.getLsbD_or, BitVec.getLsbD_twoPow,
    hne, decide_false, Bool.and_false, Bool.or_false]

theorem perm_newPte (va pa : Nat) (flags : Perm) : perm (newPte va pa flags) = flags ||| PTE_V := by
  unfold newPte
  split
  · rw [perm_setUnrelease, perm_mkPte]
  · rw [perm_mkPte]

theorem paddr_newPte (va pa : Nat) (flags : Perm) :
    paddr (newPte va pa flags) = pa / PGSIZE % PAGES := by
  unfold newPte
  split
  · rw [paddr_setUnrelease, paddr_mkPte]
  · rw [paddr_mkPte]

theorem valid_newPte (va pa : Nat) (flags : Perm) : valid (newPte va pa flags) = true := by
  unfold newPte
  split
  · have hmark := valid_mkPte pa flags
    unfold valid at hmark
    rw [valid, setUnrelease, BitVec.getLsbD_or, hmark, Bool.true_or]
  · exact valid_mkPte pa flags

/-- What the loop does to every entry: those from `a` up to `last` are stored, if no page is
    missing for a table, and no other is touched. -/
theorem mappagesLoop_spec (h : InOrder s root) (ha : a % PGSIZE = 0) (hl : last % PGSIZE = 0)
    (hlast : last ≤ MAXVA)
    (hempty : ∀ va', a ≤ va' → va' < last → valid (entry s root va') = false) :
    ∃ s' r, mappagesLoop root va last flags a pa s = .ok (s', r) ∧ InOrder s' root ∧
      (r = 0 ∨ r = -1) ∧
      (∀ va', va' < a ∨ last ≤ va' → va' < MAXVA → entry s' root va' = entry s root va') ∧
      (r = 0 → ∀ va', a ≤ va' → va' < last → ∃ pa', entry s' root va'
          = newPte va pa' (setGlobal va flags) ∧
        pa' / PGSIZE % PAGES = (pa / PGSIZE + (va' / PGSIZE - a / PGSIZE)) % PAGES) := by
  induction hn : (last - a) / PGSIZE generalizing s a pa flags with
  | zero =>
    have hdone : ¬ a < last := by
      simp only [PGSIZE] at ha hl hn
      omega
    rw [mappagesLoop, if_neg hdone]
    exact ⟨s, 0, rfl, h, .inl rfl, fun _ _ _ => rfl, fun _ va' hle hlt => absurd hlt (by omega)⟩
  | succ n ih =>
    have hmore : a < last := by
      simp only [PGSIZE] at hn
      omega
    have hva : a < MAXVA := Nat.lt_of_lt_of_le hmore hlast
    obtain ⟨s₁, r, hw, hord, hext, hslot⟩ := walk_spec h hva true
    have hsame := hext.entry_eq h hord
    rw [mappagesLoop, if_pos hmore, hw]
    cases r with
    | none =>
      exact ⟨s₁, -1, rfl, hord, .inr rfl, fun va' _ _ => hsame va', nofun⟩
    | some slot =>
      obtain ⟨page, i⟩ := slot
      obtain ⟨hat, rfl⟩ := hslot _ rfl
      have hread : s₁.mem page (px 0 a) = entry s root a := by
        rw [← hsame a, entry, (hord.table_iff a).mpr hat]
      have hfree : valid (s₁.mem page (px 0 a)) = false := by
        rw [hread]
        exact hempty a (Nat.le_refl a) hmore
      simp only [hfree, Bool.false_eq_true, if_false]
      have hstore := fun {va' : Nat} (hva' : va' < MAXVA) =>
        hord.entry_store hva hva' hat (newPte va pa (setGlobal va flags))
      have hfit : a + PGSIZE ≤ last := by
        simp only [PGSIZE] at ha hl ⊢
        omega
      have hone : ∀ va', va' / PGSIZE = a / PGSIZE ↔ a ≤ va' ∧ va' < a + PGSIZE := by
        intro va'
        simp only [PGSIZE] at ha ⊢
        omega
      obtain ⟨s', r, hloop, hord', hr, hout, hin⟩ :=
        @ih (s₁.store page (px 0 a) (newPte va pa (setGlobal va flags))) ((pa + PGSIZE) % ADDRS)
          (a + PGSIZE) (setGlobal va flags) (hord.store hat _ _)
          (by simp only [PGSIZE] at ha ⊢; omega)
          (by
            intro va' hle hlt
            rw [hstore (by omega), if_neg, hsame va']
            · exact hempty va' (by omega) hlt
            · rw [hone]
              omega)
          (by simp only [PGSIZE] at hn ⊢; omega)
      rw [setGlobal_idem] at hin
      refine ⟨s', r, hloop, hord', hr, ?_, ?_⟩
      · intro va' hva' hmax
        rw [hout va' (by omega) hmax, hstore hmax, if_neg, hsame va']
        rw [hone]
        omega
      · intro hr0 va' hle hlt
        by_cases hfirst : va' < a + PGSIZE
        · have hpage := (hone va').mpr ⟨hle, hfirst⟩
          refine ⟨pa, ?_, ?_⟩
          · rw [hout va' (.inl hfirst) (by omega), hstore (by omega), if_pos hpage]
          · rw [hpage, Nat.sub_self, Nat.add_zero]
        · obtain ⟨pa', hentry, hpa'⟩ := hin hr0 va' (by omega) hlt
          refine ⟨pa', hentry, ?_⟩
          rw [hpa']
          simp only [PGSIZE, ADDRS, PAGES] at hfirst ⊢
          omega

/-! ## The range -/

/-- Where the loop of `mappages` ends. -/
theorem last_eq (hsize : 0 < size) (hend : va + size ≤ MAXVA) :
    pgRoundUp ((pgRoundDown va + size - 1) % ADDRS) % ADDRS
      = pgRoundUp (pgRoundDown va + (size - 1)) := by
  simp only [pgRoundUp, pgRoundDown, PGSIZE, ADDRS, MAXVA] at hend ⊢
  omega

/-- What `mappages` does where nothing is mapped: it maps the pages from that of `va` up to the
    end it computes, or runs out of pages for tables. -/
theorem mappages_spec (h : InOrder s root) (hsize : 0 < size) (hend : va + size ≤ MAXVA)
    (hempty : ∀ va', va ≤ va' → va' < va + size → valid (entry s root va') = false) :
    ∃ s' r, mappages s root va size pa flags = .ok (s', r) ∧ InOrder s' root ∧
      (r = 0 ∨ r = -1) ∧
      (∀ va', va' < pgRoundDown va ∨ pgRoundUp (pgRoundDown va + (size - 1)) ≤ va' →
        va' < MAXVA → entry s' root va' = entry s root va') ∧
      (r = 0 → ∀ va', pgRoundDown va ≤ va' → va' < pgRoundUp (pgRoundDown va + (size - 1)) →
        Mapped va pa flags va' (entry s' root va')) := by
  have hpage : pgRoundDown va / PGSIZE = va / PGSIZE := by
    simp only [pgRoundDown, PGSIZE]
    omega
  have hmax : pgRoundUp (pgRoundDown va + (size - 1)) ≤ MAXVA := by
    simp only [pgRoundUp, pgRoundDown, PGSIZE, MAXVA] at hend ⊢
    omega
  have hnone : ∀ va', pgRoundDown va ≤ va' →
      va' < pgRoundUp (pgRoundDown va + (size - 1)) → valid (entry s root va') = false := by
    intro va' hle hlt
    -- the page has an address of the range
    have hrange : va' / PGSIZE = max va (pgRoundDown va') / PGSIZE ∧
        max va (pgRoundDown va') < va + size := by
      simp only [pgRoundUp, pgRoundDown, PGSIZE] at hle hlt ⊢
      omega
    rw [entry_page s root (by omega) (by omega) hrange.1]
    exact hempty _ (Nat.le_max_left _ _) hrange.2
  obtain ⟨s', r, hloop, hord, hr, hout, hin⟩ :=
    @mappagesLoop_spec s root va pa (pgRoundDown va)
      (pgRoundUp (pgRoundDown va + (size - 1))) flags h (pgRoundDown_mod va) (pgRoundDown_mod _)
      hmax hnone
  have hcall : mappages s root va size pa flags = .ok (s', r) := by
    unfold mappages
    rw [if_neg (by omega)]
    show mappagesLoop root va (pgRoundUp ((pgRoundDown va + size - 1) % ADDRS) % ADDRS) flags
      (pgRoundDown va) pa s = .ok (s', r)
    rw [last_eq hsize hend, hloop]
  refine ⟨s', r, hcall, hord, hr, hout, ?_⟩
  intro hr0 va' hle hlt
  obtain ⟨pa', hentry, hpa'⟩ := hin hr0 va' hle hlt
  rw [hentry]
  refine ⟨valid_newPte _ _ _, perm_newPte _ _ _, ?_⟩
  rw [paddr_newPte, hpa', hpage]

/-- What a call with this range is for: every address of the range is mapped, and the pages
    without an address of the range are translated as before. -/
def Covers (s s' : St) (root va size pa : Nat) (flags : Perm) : Prop :=
  (∀ va', va ≤ va' → va' < va + size → Mapped va pa flags va' (entry s' root va')) ∧
    ∀ va', va' < pgRoundDown va ∨ pgRoundUp (va + size) ≤ va' →
      vaddr2paddr s' root va' = vaddr2paddr s root va'

/-- A call that returns 0 has mapped its range exactly if its size is not one more than a multiple
    of the page size and the start does not push the last byte over the end of a page. -/
theorem mappages_covers (h : InOrder s root) (hsize : 0 < size) (hend : va + size ≤ MAXVA)
    (hempty : ∀ va', va ≤ va' → va' < va + size → valid (entry s root va') = false)
    (hret : mappages s root va size pa flags = .ok (s', 0)) :
    Covers s s' root va size pa flags ↔
      size % PGSIZE ≠ 1 ∧ va % PGSIZE + (size - 1) % PGSIZE < PGSIZE := by
  obtain ⟨s₁, r, hcall, hord, -, hout, hin⟩ :=
    @mappages_spec s root va size pa flags h hsize hend hempty
  rw [hret] at hcall
  cases hcall
  have hcond : (size % PGSIZE ≠ 1 ∧ va % PGSIZE + (size - 1) % PGSIZE < PGSIZE) ↔
      va + size ≤ pgRoundUp (pgRoundDown va + (size - 1)) := by
    simp only [pgRoundUp, pgRoundDown, PGSIZE]
    omega
  rw [hcond]
  constructor
  · rintro ⟨hcover, -⟩
    by_contra hshort
    -- the last byte is behind the end
    have hlast := (hcover (va + size - 1) (by omega) (by omega)).isValid
    rw [hout _ (.inr (by omega)) (by omega), hempty _ (by omega) (by omega)] at hlast
    cases hlast
  · intro hlong
    refine ⟨?_, ?_⟩
    · intro va' hle hlt
      exact hin rfl va' (Nat.le_trans (pgRoundDown_le va) hle) (Nat.lt_of_lt_of_le hlt hlong)
    · intro va' hva'
      by_cases hmax : va' < MAXVA
      · apply vaddr2paddr_congr
        apply hout va' _ hmax
        have hle : pgRoundUp (pgRoundDown va + (size - 1)) ≤ pgRoundUp (va + size) := by
          simp only [pgRoundUp, pgRoundDown, PGSIZE]
          omega
        omega
      · simp only [vaddr2paddr, walkaddr_of_ge _ root hmax]

end

/-- A call for one byte maps nothing. -/
theorem mappages_misses : ¬ ∀ (s s' : St) (root va size pa : Nat) (flags : Perm), InOrder s root →
    0 < size → va + size ≤ MAXVA →
    (∀ va', va ≤ va' → va' < va + size → valid (entry s root va') = false) →
    mappages s root va size pa flags = .ok (s', 0) → Covers s s' root va size pa flags := by
  intro hclaim
  have hblank : valid (entry newTable 5 0) = false := by decide
  have hcall : mappages newTable 5 0 1 0x80000000 PTE_R = .ok (newTable, 0) := by
    unfold mappages
    rw [if_neg (by decide), mappagesLoop, if_neg (by decide)]
  have hcovers := hclaim newTable newTable 5 0 1 0x80000000 PTE_R newTable_inOrder (by decide)
    (by decide)
    (by
      intro va' _ hlt
      obtain rfl : va' = 0 := by omega
      exact hblank)
    hcall
  have hvalid := (hcovers.1 0 (Nat.le_refl 0) (by decide)).isValid
  rw [hblank] at hvalid
  cases hvalid

/-- A page of the machine's memory is mapped to the first page. -/
theorem mappages_covers_newTable : ∃ s', mappages newTable 5 0 4096 0x80000000 PTE_R = .ok (s', 0) ∧
    Covers newTable s' 5 0 4096 0x80000000 PTE_R := by
  have hblank : ∀ va', 0 ≤ va' → va' < 0 + 4096 → valid (entry newTable 5 va') = false := by
    intro va' _ hlt
    have hfirst : va' / PGSIZE = 0 / PGSIZE := by
      simp only [PGSIZE]
      omega
    have hmax : va' < MAXVA := Nat.lt_trans hlt (by decide)
    rw [entry_page newTable 5 hmax (by decide) hfirst]
    decide
  have hcall : ∃ s', mappages newTable 5 0 4096 0x80000000 PTE_R = .ok (s', 0) := by
    have hwalk : walk newTable 5 0 true = .ok ((walkLoop 0 true 2 newTable 5).1, some (7, 0)) := rfl
    have hfree : valid ((walkLoop 0 true 2 newTable 5).1.mem 7 0) = false := by decide
    refine ⟨(walkLoop 0 true 2 newTable 5).1.store 7 0 (newPte 0 0x80000000 (setGlobal 0 PTE_R)),
      ?_⟩
    unfold mappages
    rw [if_neg (by decide), mappagesLoop, if_pos (by decide)]
    have hround : pgRoundDown 0 = 0 := rfl
    simp only [hround, hwalk, hfree, Bool.false_eq_true, if_false]
    rw [mappagesLoop, if_neg (by decide)]
  obtain ⟨s', hret⟩ := hcall
  refine ⟨s', hret, ?_⟩
  apply (mappages_covers newTable_inOrder (by decide) (by decide) hblank hret).mpr
  decide

end Uniks.PageWalk
