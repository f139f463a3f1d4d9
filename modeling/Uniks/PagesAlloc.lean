/-
  What one `pages_alloc` does, and what it does when no block is left.

  The body comes to its label `out` with a pointer or with NULL (`allocOut`); its comment says that
  it "will return NULL" then, and every caller tests for it.  But between the label and the `return`
  stands `assert(ptr != NULL)`, so the call never returns NULL: an exhausted allocator stops the
  kernel.

  Where a list of the order asked for or of a larger one is not empty, the call keeps to its
  contract (`Takes`).  `SplitOff` is the effect of the loop of `split_pages`, by induction on the
  order it has come down to: a round puts the right half on its list, and the rounds together leave
  the blocks `page + 2^i` of the orders in between.
-/
import Uniks.Coalescing

namespace Uniks.Phys

open Uniks.Dyadic Uniks.Runs
open Function (update update_self update_of_ne)

/-- `pages_alloc` up to its label `out`: the pointer, `none` for NULL. -/
def allocOut (s : Buddy) (npages : Nat) : Option (Buddy × Option Nat) :=
  if 0 < npages ∧ npages ≤ 2 ^ 10 then do
    let order ← getPower2 npages
    if (s.orderarray order).isEmpty then
      match largerOrder s order with
      | none => return (s, none)
      | some i =>
        let (s, page) ← s.nextThenDel i
        let s ← splitPages page order i s
        let s ← doRecord s page order
        return (s, some page)
    else
      let (s, page) ← s.nextThenDel order
      let s ← doRecord s page order
      return (s, some page)
  else none

/-- The source's `pages_alloc` with the pointer it returns: behind the label stands
    `assert(ptr != NULL)`. -/
def pagesAllocPtr (s : Buddy) (npages : Nat) : Option (Buddy × Option Nat) := do
  let (s, ptr) ← allocOut s npages
  if ptr.isSome then return (s, ptr) else none

/-- `k` is the least order such that `npages ≤ 2^k`. -/
def LeastOrder (npages k : Nat) : Prop := npages ≤ 2 ^ k ∧ ∀ j, j < k → 2 ^ j < npages

/-- `j` is the smallest order from `k` on whose list is not empty. -/
def SmallestList (s : Buddy) (k j : Nat) : Prop :=
  k ≤ j ∧ j ≤ 10 ∧ s.orderarray j ≠ [] ∧ ∀ i, k ≤ i → i < j → s.orderarray i = []

/-- The block `page` of order `j` leaves its list and its lowest `2^k` pages are handed out: one
    free block of each order from `k` to `j - 1` is added, and these tile the rest of it. -/
structure Takes (s : Buddy) (k j page : Nat) (s' : Buddy) : Prop where
  removed : s.orderarray j = page :: s'.orderarray j
  added : ∀ i, k ≤ i → i < j → s'.orderarray i = (page + 2 ^ i) :: s.orderarray i
  others : ∀ i, i < k ∨ j < i → s'.orderarray i = s.orderarray i
  aligned : ∀ i, k ≤ i → i < j → 2 ^ i ∣ page + 2 ^ i
  rest : ∀ x, (page + 2 ^ k ≤ x ∧ x < page + 2 ^ j) ↔
    ∃! i, (k ≤ i ∧ i < j) ∧ Covers (page + 2 ^ i) i x
  taken : s'.record page = { order := k, count := 1 }
  halves : ∀ i, k ≤ i → i < j → s'.record (page + 2 ^ i) = { order := i, count := 0 }
  frame : ∀ a, a ≠ page → (∀ i, k ≤ i → i < j → a ≠ page + 2 ^ i) → s'.record a = s.record a
  memEnd : s'.memEnd = s.memEnd

/-- The contract of `pages_alloc` for `npages` pages, of order `k`. -/
def AllocatesPages (s : Buddy) (npages k : Nat) : Prop :=
  (∀ j, SmallestList s k j → ∃ page s', pagesAllocPtr s npages = some (s', some page) ∧
    Takes s k j page s') ∧
  ((∀ j, k ≤ j → j ≤ 10 → s.orderarray j = []) → pagesAllocPtr s npages = some (s, none))

variable {s s' : Buddy} {live : Live} {page k j npages : Nat}

/-! ## The order asked for -/

theorem getPower2_least (h : LeastOrder npages k) (hk : k ≤ 10) : getPower2 npages = some k := by
  refine List.find?_range_eq_some.mpr ⟨decide_eq_true h.1, List.mem_range.mpr (by omega), ?_⟩
  intro i hi
  have hlt := h.2 i hi
  simp only [Bool.not_eq_true', decide_eq_false_iff_not]
  omega

theorem LeastOrder.le_ten (h : LeastOrder npages k) (hmax : npages ≤ 1024) : k ≤ 10 := by
  by_contra hgt
  have hlt := h.2 10 (by omega)
  omega

/-- The search finds the smallest list. -/
theorem largerOrder_smallest (h : SmallestList s k j) (hne : k ≠ j) :
    largerOrder s k = some j := by
  obtain ⟨hkj, hj, hsome, hbelow⟩ := h
  refine List.find?_range_eq_some.mpr ⟨?_, List.mem_range.mpr (by omega), ?_⟩
  · have hlt : k < j := by omega
    simp [hlt, hsome]
  · intro i hi
    by_cases hki : k < i
    · have hempty := hbelow i (by omega) hi
      simp [hempty]
    · simp [hki]

theorem largerOrder_none (h : ∀ j, k ≤ j → j ≤ 10 → s.orderarray j = []) :
    largerOrder s k = none := by
  refine List.find?_eq_none.mpr fun i hi => ?_
  have hi' := List.mem_range.mp hi
  by_cases hki : k < i
  · simp [h i (by omega) (by omega)]
  · simp [hki]

/-! ## The loop of `split_pages` -/

/-- What splitting the block at `page` from order `this` down to `target` leaves. -/
structure SplitOff (page target this : Nat) (s s' : Buddy) : Prop where
  added : ∀ i, target ≤ i → i < this → s'.orderarray i = (page + 2 ^ i) :: s.orderarray i
  others : ∀ i, i < target ∨ this ≤ i → s'.orderarray i = s.orderarray i
  halves : ∀ i, target ≤ i → i < this → s'.record (page + 2 ^ i) = { order := i, count := 0 }
  frame : ∀ a, (∀ i, target ≤ i → i < this → a ≠ page + 2 ^ i) → s'.record a = s.record a
  memEnd : s'.memEnd = s.memEnd

theorem SplitOff.nothing (page target : Nat) (s : Buddy) : SplitOff page target target s s where
  added i hi hlt := by omega
  others _ _ := rfl
  halves i hi hlt := by omega
  frame _ _ := rfl
  memEnd := rfl

/-- One more round, the first one. -/
theorem SplitOff.round {target this : Nat} (hle : target ≤ this)
    (hcount : (s.record (page + 2 ^ this)).count = 0)
    (h : SplitOff page target this ((s.addFront this (page + 2 ^ this)).setRecord
      (page + 2 ^ this) { s.record (page + 2 ^ this) with order := this }) s') :
    SplitOff page target (this + 1) s s' := by
  have hlist : ∀ i, i ≠ this → (s.addFront this (page + 2 ^ this)).orderarray i = s.orderarray i :=
    fun i hi => update_of_ne hi ..
  have hself : (s.addFront this (page + 2 ^ this)).orderarray this =
      (page + 2 ^ this) :: s.orderarray this := update_self ..
  refine
    { added := fun i hi hlt => ?_
      others := fun i hi => ?_
      halves := fun i hi hlt => ?_
      frame := fun a ha => ?_
      memEnd := h.memEnd }
  · by_cases heq : i = this
    · subst heq
      rw [h.others i (.inr (Nat.le_refl i))]
      exact hself
    · rw [h.added i hi (by omega)]
      show _ :: (s.addFront this (page + 2 ^ this)).orderarray i = _
      rw [hlist i heq]
  · rw [h.others i (by omega)]
    exact hlist i (by omega)
  · by_cases heq : i = this
    · subst heq
      -- the later rounds write the records of smaller right halves
      rw [h.frame _ fun l _ hl heq => ?_]
      · simp [hcount]
      · have hpow := Nat.pow_lt_pow_right (Nat.one_lt_two) hl
        omega
    · exact h.halves i hi (by omega)
  · rw [h.frame a fun i hi hlt => ha i hi (by omega)]
    have hne := ha this hle (Nat.lt_succ_self this)
    simp [Buddy.addFront, hne]

theorem splitPages_effect {target this : Nat} (hle : target ≤ this)
    (hrun : splitPages page target this s = some s') : SplitOff page target this s s' := by
  induction this generalizing s with
  | zero =>
    obtain rfl := Nat.le_zero.mp hle
    obtain rfl := Option.some.inj hrun
    exact SplitOff.nothing page 0 s
  | succ this ih =>
    rw [splitPages] at hrun
    by_cases heq : this + 1 = target
    · subst heq
      rw [if_pos rfl] at hrun
      obtain rfl := Option.some.inj hrun
      exact SplitOff.nothing page _ s
    · rw [if_neg heq] at hrun
      by_cases hcount : (s.record (page + 2 ^ this)).count = 0
      · exact SplitOff.round (by omega) hcount (ih (by omega) ((if_pos hcount).symm.trans hrun))
      · have hnone : none = some s' := (if_neg hcount).symm.trans hrun
        cases hnone

/-- The loop together with the front of the list before it and the record after it. -/
theorem SplitOff.takes {s₁ s₂ : Buddy} (hkj : k ≤ j) (hal : 2 ^ j ∣ page)
    (hlist : s.orderarray j = page :: s₁.orderarray j)
    (hlists : ∀ i, i ≠ j → s₁.orderarray i = s.orderarray i) (hrecord : s₁.record = s.record)
    (hend : s₁.memEnd = s.memEnd) (h : SplitOff page k j s₁ s₂) :
    Takes s k j page (s₂.setRecord page { order := k, count := 1 }) where
  removed := by
    show _ = page :: s₂.orderarray j
    rw [hlist, h.others j (.inr (Nat.le_refl j))]
  added i hi hlt := by
    show s₂.orderarray i = _
    rw [h.added i hi hlt, hlists i (by omega)]
  others i hi := by
    show s₂.orderarray i = _
    rw [h.others i (by omega), hlists i (by omega)]
  aligned i _ hlt :=
    Nat.dvd_add ((Nat.pow_dvd_pow 2 (Nat.le_of_lt hlt)).trans hal) (Nat.dvd_refl _)
  rest := covers_rest k j page
  taken := by simp
  halves i hi hlt := by
    simp [h.halves i hi hlt]
  frame a hne ha := by
    simp [hne, h.frame a ha, hrecord]
  memEnd := h.memEnd.trans hend

/-! ## The call -/

/-- The pointer that `pages_alloc` returns is the page `pagesAlloc` gives. -/
theorem pagesAllocPtr_eq (s : Buddy) (npages : Nat) :
    pagesAllocPtr s npages = (pagesAlloc s npages).map fun r => (r.1, some r.2) := by
  simp only [pagesAllocPtr, allocOut, pagesAlloc]
  split
  · cases getPower2 npages with
    | none => rfl
    | some order =>
      simp only [Option.bind_eq_bind, Option.bind_some]
      split
      · cases largerOrder s order with
        | none => rfl
        | some i =>
          simp only [Option.bind_some]
          cases s.nextThenDel i with
          | none => rfl
          | some r =>
            simp only [Option.bind_some]
            cases splitPages r.2 order i r.1 with
            | none => rfl
            | some t =>
              simp only [Option.bind_some]
              cases doRecord t r.2 order <;> rfl
      · cases s.nextThenDel order with
        | none => rfl
        | some r =>
          simp only [Option.bind_some]
          cases doRecord r.1 r.2 order <;> rfl
  · rfl

theorem nextThenDel_cons {pages : List Nat} (h : s.orderarray j = page :: pages) :
    s.nextThenDel j =
      some ({ s with orderarray := update s.orderarray j pages }, page) := by
  simp [Buddy.nextThenDel, h]

theorem pagesAlloc_exact (hk : LeastOrder npages k) (hmin : 1 ≤ npages) (hmax : npages ≤ 1024)
    (hlist : s.orderarray k ≠ []) :
    pagesAlloc s npages = (s.nextThenDel k).bind fun r =>
      (doRecord r.1 r.2 k).bind fun s' => some (s', r.2) := by
  have hn : 0 < npages ∧ npages ≤ 2 ^ 10 := ⟨hmin, hmax⟩
  have hne : ¬ (s.orderarray k).isEmpty = true := by simpa using hlist
  rw [pagesAlloc, if_pos hn, getPower2_least hk (hk.le_ten hmax)]
  simp only [Option.bind_eq_bind, Option.bind_some, if_neg hne]
  rfl

theorem pagesAlloc_larger (hk : LeastOrder npages k) (hmin : 1 ≤ npages) (hmax : npages ≤ 1024)
    (hlist : s.orderarray k = []) :
    pagesAlloc s npages = (largerOrder s k).bind fun i => (s.nextThenDel i).bind fun r =>
      (splitPages r.2 k i r.1).bind fun t => (doRecord t r.2 k).bind fun s' => some (s', r.2) := by
  have hn : 0 < npages ∧ npages ≤ 2 ^ 10 := ⟨hmin, hmax⟩
  have hempty : (s.orderarray k).isEmpty = true := by simp [hlist]
  rw [pagesAlloc, if_pos hn, getPower2_least hk (hk.le_ten hmax)]
  simp only [Option.bind_eq_bind, Option.bind_some, if_pos hempty]
  rfl

/-- The contract where a block is large enough. -/
theorem BuddyInvTo.takes (h : BuddyInvTo 10 s live none) (hk : LeastOrder npages k)
    (hmin : 1 ≤ npages) (hmax : npages ≤ 1024) (hj : SmallestList s k j) :
    ∃ page s', Phys.pagesAlloc s npages = some (s', page) ∧ Takes s k j page s' := by
  obtain ⟨hkj, hj10, hsome, hbelow⟩ := hj
  obtain ⟨page, pages, hlist⟩ := List.exists_cons_of_ne_nil hsome
  have hnext := nextThenDel_cons hlist
  obtain ⟨h₁, hmem, hrecord, hend⟩ := h.nextThenDel hnext
  have hal : 2 ^ j ∣ page := h.tiling.aligned page j (Tile.ofFree hmem)
  -- the loop has nothing to do when the list is the one asked for
  obtain ⟨t, hsplit, -, h₂⟩ := h₁.splitPages hkj hj10 (by decide)
  have hcount := h₂.idle_count page (h₂.hand_not_live page k rfl)
  have hdone : Phys.doRecord t page k = some (t.setRecord page { order := k, count := 1 }) :=
    if_pos hcount
  refine ⟨page, t.setRecord page { order := k, count := 1 }, ?_, ?_⟩
  · by_cases heq : k = j
    · subst heq
      rw [pagesAlloc_exact hk hmin hmax hsome, hnext]
      have hsame : Phys.splitPages page k k { s with
          orderarray := update s.orderarray k pages } = some { s with
          orderarray := update s.orderarray k pages } := by
        cases k <;> simp [Phys.splitPages]
      rw [hsame] at hsplit
      cases hsplit
      show ((Phys.doRecord _ page k).bind _ : Option _) = _
      rw [hdone]
      rfl
    · rw [pagesAlloc_larger hk hmin hmax (hbelow k (Nat.le_refl k) (by omega)),
        largerOrder_smallest ⟨hkj, hj10, hsome, hbelow⟩ heq]
      show ((s.nextThenDel j).bind _ : Option _) = _
      rw [hnext]
      show ((Phys.splitPages page k j _).bind _ : Option _) = _
      rw [hsplit]
      show ((Phys.doRecord t page k).bind _ : Option _) = _
      rw [hdone]
      rfl
  · refine SplitOff.takes hkj hal ?_ (fun i hi => ?_) hrecord hend (splitPages_effect hkj hsplit)
    · show _ = page :: update s.orderarray j pages j
      rw [update_self, hlist]
    · exact update_of_ne hi ..

/-- Where every list is empty the last assertion fails. -/
theorem pagesAlloc_exhausted (hk : LeastOrder npages k) (hmin : 1 ≤ npages)
    (hmax : npages ≤ 1024) (h : ∀ j, k ≤ j → j ≤ 10 → s.orderarray j = []) :
    pagesAlloc s npages = none := by
  rw [pagesAlloc_larger hk hmin hmax (h k (Nat.le_refl k) (hk.le_ten hmax)), largerOrder_none h]
  rfl

/-- Where some list is not empty there is a smallest one: one of the two cases always applies. -/
theorem exists_smallestList (h : ∃ j, k ≤ j ∧ j ≤ 10 ∧ s.orderarray j ≠ []) :
    ∃ j, SmallestList s k j := by
  classical
  obtain ⟨hkj, hj, hsome⟩ := Nat.find_spec h
  refine ⟨Nat.find h, hkj, hj, hsome, fun i hki hi => ?_⟩
  by_contra hne
  exact Nat.find_min h hi ⟨hki, by omega, hne⟩

/-! ## Runs -/

/-- What every run of the allocator keeps. -/
theorem reaches_inv {memEnd : Nat} {st : State}
    (hr : Reaches Request anyInput (start memEnd) st) :
    BuddyInvTo 10 st.phys st.live none ∧ st.phys.memEnd = memEnd := by
  obtain ⟨hinit, hend⟩ := buddySystemInit_inv memEnd
  refine hr.invariant (I := fun st => BuddyInvTo 10 st.phys st.live none ∧
    st.phys.memEnd = memEnd) ⟨{ hinit with small := fun a => (hinit.small a).trans (by decide) },
      hend⟩ fun a op b ha _ hs => ?_
  obtain ⟨h', hend'⟩ := ha.1.request hs
  exact ⟨h', hend'.trans ha.2⟩

/-- In every reachable state `pages_alloc` keeps to its contract exactly when some list from the
    order asked for up is not empty. -/
theorem pages_alloc_contract {memEnd : Nat} {st : State} {npages k : Nat}
    (hr : Reaches Request anyInput (start memEnd) st) (hmin : 1 ≤ npages) (hmax : npages ≤ 1024)
    (hk : LeastOrder npages k) :
    AllocatesPages st.phys npages k ↔ ∃ j, k ≤ j ∧ j ≤ 10 ∧ st.phys.orderarray j ≠ [] := by
  obtain ⟨hinv, -⟩ := reaches_inv hr
  constructor
  · rintro ⟨-, hempty⟩
    by_contra hnone
    push Not at hnone
    have hnull := hempty hnone
    rw [pagesAllocPtr_eq, pagesAlloc_exhausted hk hmin hmax hnone] at hnull
    cases hnull
  · intro hsome
    constructor
    · intro j hj
      obtain ⟨page, s', hrun, htakes⟩ := hinv.takes hk hmin hmax hj
      refine ⟨page, s', ?_, htakes⟩
      rw [pagesAllocPtr_eq, hrun]
      rfl
    · intro hempty
      obtain ⟨j, hkj, hj, hne⟩ := hsome
      exact absurd (hempty j hkj hj) hne

/-- Of four pages the first is handed out: two pages are there for a request, four are not. -/
theorem pages_alloc_contract_four : ∃ st : State, st.live 0 = some ⟨0, 1⟩ ∧
    AllocatesPages st.phys 2 1 ∧ ¬ AllocatesPages st.phys 4 2 := by
  have hrun : ∃ st ∈ serve (start 4) (.alloc 1), st.live 0 = some ⟨0, 1⟩ ∧
      st.phys.orderarray 1 = [2] ∧ ∀ j < 11, 2 ≤ j → st.phys.orderarray j = [] := by
    decide +kernel
  obtain ⟨st, hst, hlive, hpair, hempty⟩ := hrun
  have hreach : Reaches Request anyInput (start 4) st :=
    Reaches.refl.snoc (i := Op.alloc 1) trivial (serve_request hst)
  have htwo : LeastOrder 2 1 := ⟨by decide, fun j hj => Nat.pow_lt_pow_right (by decide) hj⟩
  have hfour : LeastOrder 4 2 := ⟨by decide, fun j hj => Nat.pow_lt_pow_right (by decide) hj⟩
  refine ⟨st, hlive, ?_, fun hall => ?_⟩
  · exact (pages_alloc_contract hreach (by decide) (by decide) htwo).mpr
      ⟨1, Nat.le_refl 1, by decide, by rw [hpair]; exact List.cons_ne_nil 2 []⟩
  · obtain ⟨j, hj, hle, hne⟩ :=
      (pages_alloc_contract hreach (by decide) (by decide) hfour).mp hall
    exact hne (hempty j (by omega) (by omega))

/-- A region of one page, and two requests of one page: the second stops at the assertion. -/
theorem pages_alloc_exhausted_asserts :
    ¬ ∀ memEnd st npages k, Reaches Request anyInput (start memEnd) st → 1 ≤ npages →
      npages ≤ 1024 → LeastOrder npages k → AllocatesPages st.phys npages k := by
  intro hall
  have hrun : ∃ st ∈ serve (start 1) (.alloc 1), ∀ j < 11, st.phys.orderarray j = [] := by
    decide +kernel
  obtain ⟨st, hst, hempty⟩ := hrun
  have hleast : LeastOrder 1 0 := ⟨by decide, fun _ h => absurd h (Nat.not_lt_zero _)⟩
  have hlists : ∀ j, 0 ≤ j → j ≤ 10 → st.phys.orderarray j = [] := fun j _ hj => hempty j (by omega)
  have hreach : Reaches Request anyInput (start 1) st :=
    Reaches.refl.snoc (i := Op.alloc 1) trivial (serve_request hst)
  have hnull := (hall 1 st 1 0 hreach (by decide) (by decide) hleast).2 hlists
  rw [pagesAllocPtr_eq, pagesAlloc_exhausted hleast (by decide) (by decide) hlists] at hnull
  cases hnull

end Uniks.Phys
