/-
  The indices of the buddy system.

  The kernel hands `[KERNEL_END_LIMIT, PHYSTOP)` to `buddy_system_init`: 31 · 1024 pages, that is 31
  blocks of order 10, and a record for each page.  The loop of `pages_free` has no bound of its own.
  Below order 10 the buddy always lies in the region, since the region is a number of whole
  blocks of order 10.  At order 10 the last of them has no buddy: its "buddy" is page 31 · 1024, one
  record behind the array.  And where the buddy is a free block whose record shows order 10, the
  loop goes on to order 11 and puts the block on a list that does not exist.

  The uses that a call makes of the two arrays are written down in the order in which it makes them.
  `Fits` looks at the state before a free: does the loop reach order 10 (`MergesUp`), and what does
  it find there?
-/
import Uniks.PagesAlloc

namespace Uniks.Phys

open Uniks.Dyadic Uniks.Runs

/-- `PHYMEM_AVAILABLE >> PGSHIFT`. -/
def KERNEL_PAGES : Nat := (0x88000000 - 0x80400000) / 4096

/-- A use of `physical_page_record` or of `orderarray`, with its index. -/
inductive Use where
  | record (index : Nat)
  | orderlist (order : Nat)
  deriving DecidableEq, Repr

/-- The index lies in the array. -/
def Use.InBounds : Use → Prop
  | .record index => index < KERNEL_PAGES
  | .orderlist order => order ≤ 10

/-- What the loop of `pages_free` uses, and the state it leaves; the first argument bounds the
    rounds. -/
def mergeUses : Nat → Buddy → Nat → Nat → List Use × Option Buddy
  | 0, _, _, _ => ([], none)
  | rounds + 1, s, page, order =>
    match whoisBuddy page order with
    | none => ([], none)
    | some buddy =>
      if buddyFree s buddy order then
        match s.listDel buddy with
        | none => ([.record buddy], none)
        | some s =>
          let (uses, s) := mergeUses rounds s (min page buddy) (order + 1)
          (.record buddy :: uses, s)
      else ([.record buddy, .orderlist order], some (s.addFront order page))

/-- What `pages_free` uses.  The loop may come to order 11, so it has a round for it. -/
def freeUses (s : Buddy) (page : Nat) : List Use × Option Buddy :=
  let r := s.record page
  if r.count > 0 then
    let s := s.setRecord page { r with count := r.count - 1 }
    if r.count - 1 = 0 then
      let (uses, s) := mergeUses (12 - r.order) s page r.order
      (.record page :: uses, s)
    else ([.record page], some s)
  else ([.record page], none)

/-- What the loop of `split_pages` uses. -/
def splitUses (page targetOrder : Nat) : Nat → List Use
  | 0 => []
  | order + 1 =>
    if order + 1 = targetOrder then []
    else .orderlist order :: .record (page + 2 ^ order) :: splitUses page targetOrder order

/-- What `pages_alloc` uses from the list where it has found a block: none is left over to be split
    when it is the list of the order asked for. -/
def takeUses (s : Buddy) (i order : Nat) : List Use :=
  match s.orderarray i with
  | [] => []
  | page :: _ => .orderlist i :: (splitUses page order i ++ [.record page])

/-- What `pages_alloc` uses, once it has the order. -/
def orderUses (s : Buddy) (order : Nat) : List Use :=
  .orderlist order ::
    if (s.orderarray order).isEmpty then
      match largerOrder s order with
      | none => (List.range' (order + 1) (10 - order)).map .orderlist
      | some i => (List.range' (order + 1) (i - order)).map .orderlist ++ takeUses s i order
    else takeUses s order order

/-- What `pages_alloc` uses. -/
def allocUses (s : Buddy) (npages : Nat) : List Use := (getPower2 npages).elim [] (orderUses s)

/-- The block of order `k` that contains a page. -/
def blockAt (page k : Nat) : Nat := page / 2 ^ k * 2 ^ k

/-- The other half of its parent. -/
def sibling (page k : Nat) : Nat := (page / 2 ^ k ^^^ 1) * 2 ^ k

/-- From `order` up to order 9 every buddy on the way is a free block whose record shows its
    order. -/
def MergesUp (s : Buddy) (page order : Nat) : Prop :=
  ∀ k, order ≤ k → k < 10 → buddyFree s (sibling page k) k = true

/-- What the last `pages_free` of a block must find, if it merges the block up to order 10: the
    buddy lies in the region, and is not a free block whose record shows order 10. -/
def Fits (st : State) : Op → Prop
  | .free page =>
    (st.phys.record page).count = 1 → MergesUp st.phys page (st.phys.record page).order →
      sibling page 10 < st.phys.memEnd ∧ buddyFree st.phys (sibling page 10) 10 = false
  | _ => True

variable {s s' : Buddy} {live : Live} {page order top k : Nat}

/-! ## The blocks on the way up -/

theorem whoisBuddy_mul (m k : Nat) : whoisBuddy (m * 2 ^ k) k = some ((m ^^^ 1) * 2 ^ k) := by
  have hdouble : 2 ^ (k + 1) = 2 ^ k + 2 ^ k := by ring
  rcases Nat.even_or_odd' m with ⟨q, rfl | rfl⟩
  · have hdvd : 2 ^ (k + 1) ∣ 2 * q * 2 ^ k := ⟨q, by ring⟩
    rw [whoisBuddy_left hdvd, Nat.xor_one_of_even (by simp)]
    congr 1
    ring
  · have hdvd : 2 ^ (k + 1) ∣ 2 * q * 2 ^ k := ⟨q, by ring⟩
    have hodd : (2 * q + 1) * 2 ^ k = 2 * q * 2 ^ k + 2 ^ k := by ring
    rw [hodd, whoisBuddy_right hdvd, Nat.xor_one_of_odd (by simp)]
    simp

/-- `whois_buddy` of the block that contains a page. -/
theorem whoisBuddy_blockAt (page k : Nat) : whoisBuddy (blockAt page k) k = some (sibling page k) :=
  whoisBuddy_mul (page / 2 ^ k) k

/-- The lower one of a block and its sibling is the block of the next order. -/
theorem min_sibling (page k : Nat) :
    min (blockAt page k) (sibling page k) = blockAt page (k + 1) := by
  have hhalf : page / 2 ^ (k + 1) = page / 2 ^ k / 2 := by
    rw [pow_succ, Nat.div_div_eq_div_mul]
  have hmul : blockAt page (k + 1) = (2 * (page / 2 ^ k / 2)) * 2 ^ k := by
    rw [blockAt, hhalf]
    ring
  rw [hmul, blockAt, sibling, Nat.mul_min_mul_right]
  congr 1
  rcases Nat.even_or_odd' (page / 2 ^ k) with ⟨q, hq | hq⟩
  · rw [hq, Nat.xor_one_of_even (by simp)]
    omega
  · rw [hq, Nat.xor_one_of_odd (by simp)]
    omega

theorem blockAt_of_dvd (h : 2 ^ k ∣ page) : blockAt page k = page := Nat.div_mul_cancel h

/-- The block and its sibling are the halves of the block of the next order. -/
theorem sibling_sides (page k : Nat) :
    (blockAt page k = blockAt page (k + 1) ∧ sibling page k = blockAt page (k + 1) + 2 ^ k) ∨
      (blockAt page k = blockAt page (k + 1) + 2 ^ k ∧ sibling page k = blockAt page (k + 1)) := by
  have hal : 2 ^ k ∣ blockAt page k := ⟨page / 2 ^ k, Nat.mul_comm _ _⟩
  obtain ⟨b, p, hwho, hp, hsides⟩ := whoisBuddy_spec hal
  obtain rfl := Option.some.inj ((whoisBuddy_blockAt page k).symm.trans hwho)
  have hpos := Nat.two_pow_pos k
  have hmin := min_sibling page k
  rcases hsides with ⟨hl, hr⟩ | ⟨hl, hr⟩
  · left
    omega
  · right
    omega

/-- A page lies in its own block, so not in the sibling. -/
theorem sibling_ne (page k : Nat) : sibling page k ≠ page := by
  have hpos := Nat.two_pow_pos k
  have hlow : blockAt page k ≤ page := Nat.div_mul_le_self page (2 ^ k)
  have hhigh : page < blockAt page k + 2 ^ k := Nat.lt_div_mul_add hpos
  have hsides := sibling_sides page k
  omega

/-! ## The loop of `pages_free` -/

/-- The uses are those of the loop: where `mergePages` ends, the walk ends in the same state. -/
theorem mergeUses_state {left rounds : Nat} (hrounds : left ≤ rounds)
    (hrun : mergePages left s page order = some s') :
    (mergeUses rounds s page order).2 = some s' := by
  induction left generalizing s page order rounds with
  | zero => cases hrun
  | succ left ih =>
    obtain ⟨rounds, rfl⟩ := Nat.exists_eq_add_of_le' (show 1 ≤ rounds by omega)
    rw [mergePages] at hrun
    obtain ⟨buddy, hwho, hrun⟩ := Option.bind_eq_some_iff.mp hrun
    simp only [mergeUses, hwho]
    split at hrun
    case isTrue hfree =>
      obtain ⟨t, hdel, hrun⟩ := Option.bind_eq_some_iff.mp hrun
      simp only [if_pos hfree, hdel]
      exact ih (by omega) hrun
    case isFalse hfree =>
      rw [if_neg hfree]
      exact hrun

theorem freeUses_state (hrun : pagesFree s page = some s') : (freeUses s page).2 = some s' := by
  simp only [pagesFree] at hrun
  simp only [freeUses]
  split at hrun
  case isTrue hheld =>
    rw [if_pos hheld]
    split at hrun
    case isTrue hlast =>
      rw [if_pos hlast]
      exact mergeUses_state (by omega) hrun
    case isFalse hmore =>
      rw [if_neg hmore]
      exact hrun
  case isFalse => cases hrun

theorem record_inBounds (hend : s.memEnd = KERNEL_PAGES) :
    (Use.record page).InBounds ↔ page < s.memEnd := by
  rw [hend]
  rfl

theorem buddyFree_congr {b : Nat} (hend : s'.memEnd = s.memEnd) (hrec : s'.record b = s.record b) :
    buddyFree s' b order = buddyFree s b order := by
  simp only [buddyFree, hend, hrec]

/-- Below order 10 the sibling of a block lies in the region. -/
theorem sibling_lt (hend : s.memEnd = KERNEL_PAGES) (hk : k < 10)
    (hin : blockAt page k < KERNEL_PAGES) : sibling page k < s.memEnd := by
  -- both lie in the block of the next order, and the region is a number of such blocks
  have hpow : 2 ^ (k + 1) ∣ 1024 := Nat.pow_dvd_pow 2 (show k + 1 ≤ 10 by omega)
  have hregion : 2 ^ (k + 1) ∣ KERNEL_PAGES := hpow.trans ⟨31, by decide⟩
  have hal : 2 ^ (k + 1) ∣ blockAt page (k + 1) := ⟨page / 2 ^ (k + 1), Nat.mul_comm _ _⟩
  have hdouble : 2 ^ (k + 1) = 2 ^ k + 2 ^ k := by ring
  have hpos := Nat.two_pow_pos k
  have hsides := sibling_sides page k
  have hfit := add_le_of_dvd_of_lt hal hregion (by omega)
  omega

/-- A round at order 11 puts the block on a list that does not exist. -/
theorem mergeUses_eleven (h : BuddyInvTo 10 s live (some (page, 11))) :
    Use.orderlist 11 ∈ (mergeUses 1 s page 11).1 := by
  obtain ⟨b, -, hwho, -, -⟩ := whoisBuddy_spec (h.tiling.aligned page 11 Tile.ofHand)
  have hfree : buddyFree s b 11 = false := by
    have hsmall := h.small b
    simp only [buddyFree, Bool.and_eq_false_iff, beq_eq_false_iff_ne]
    right
    omega
  simp [mergeUses, hwho, hfree]

/-- A round that finds the buddy free: it leaves its list and the loop goes on one order higher. -/
theorem BuddyInvTo.mergeUses_free (rounds : Nat)
    (h : BuddyInvTo 10 s live (some (blockAt page order, order))) (horder : order ≤ 10)
    (hfree : buddyFree s (sibling page order) order = true) :
    ∃ s₁, (mergeUses (rounds + 1) s (blockAt page order) order).1 = .record (sibling page order) ::
        (mergeUses rounds s₁ (blockAt page (order + 1)) (order + 1)).1 ∧
      BuddyInvTo 10 s₁ live (some (blockAt page (order + 1), order + 1)) ∧
      s₁.memEnd = s.memEnd ∧ s₁.record = s.record := by
  have hwho := whoisBuddy_blockAt page order
  obtain ⟨b, p, hwho', hp, hsides⟩ := whoisBuddy_spec (h.tiling.aligned _ order Tile.ofHand)
  cases hwho.symm.trans hwho'
  have hmem := h.buddy_mem hp hsides hfree
  obtain rfl : p = blockAt page (order + 1) := by
    rw [← min_sibling]
    omega
  refine ⟨_, ?_, h.mergeOnce hp hsides hmem, rfl, rfl⟩
  simp only [mergeUses, hwho, if_pos hfree, listDel_eq horder hmem, min_sibling]

/-- A round that does not ends the loop. -/
theorem mergeUses_busy (rounds : Nat) (hbusy : ¬ buddyFree s (sibling page order) order = true) :
    (mergeUses (rounds + 1) s (blockAt page order) order).1 =
      [.record (sibling page order), .orderlist order] := by
  simp only [mergeUses, whoisBuddy_blockAt, if_neg hbusy]

/-- The loop stays inside the arrays exactly if it does not come to order 10, or finds there a buddy
    in the region that is not free. -/
theorem BuddyInvTo.mergeUses_inBounds {rounds : Nat}
    (h : BuddyInvTo 10 s live (some (blockAt page order, order))) (hend : s.memEnd = KERNEL_PAGES)
    (horder : order ≤ 10) (hrounds : rounds + order = 12) :
    (∀ u ∈ (mergeUses rounds s (blockAt page order) order).1, u.InBounds) ↔
      (MergesUp s page order →
        sibling page 10 < s.memEnd ∧ buddyFree s (sibling page 10) 10 = false) := by
  induction rounds generalizing s order with
  | zero => omega
  | succ rounds ih =>
    have hfits := h.tiling.fits _ order Tile.ofHand
    have hpos := Nat.two_pow_pos order
    have hin : blockAt page order < KERNEL_PAGES := by omega
    by_cases hfree : buddyFree s (sibling page order) order = true
    · obtain ⟨s₁, huses, h₁, hend₁, hrec₁⟩ := h.mergeUses_free rounds horder hfree
      have hbuddy : Use.InBounds (.record (sibling page order)) := by
        simp only [buddyFree, Bool.and_eq_true, decide_eq_true_eq] at hfree
        exact (record_inBounds hend).mpr hfree.1.1
      rw [huses, List.forall_mem_cons]
      rcases Nat.lt_or_eq_of_le horder with hlt | rfl
      · have hsame : ∀ k, buddyFree s₁ (sibling page k) k = buddyFree s (sibling page k) k :=
          fun k => buddyFree_congr hend₁ (by rw [hrec₁])
        rw [ih h₁ (hend₁.trans hend) (by omega) (by omega), hend₁, hsame]
        constructor
        · rintro ⟨-, hrest⟩ hup
          exact hrest fun k hk hk10 => (hsame k).trans (hup k (by omega) hk10)
        · intro hcond
          refine ⟨hbuddy, fun hup => hcond fun k hk hk10 => ?_⟩
          rcases Nat.lt_or_eq_of_le hk with hgt | rfl
          · exact (hsame k).symm.trans (hup k (by omega) hk10)
          · exact hfree
      · -- order 11 is next
        obtain rfl : rounds = 1 := by omega
        constructor
        · rintro ⟨-, hrest⟩
          exact absurd (hrest _ (mergeUses_eleven h₁)) (by show ¬ 11 ≤ 10; decide)
        · intro hcond
          have hnot := (hcond fun k hk hk10 => by omega).2
          rw [hnot] at hfree
          cases hfree
    · rw [mergeUses_busy rounds hfree, List.forall_mem_cons, List.forall_mem_singleton]
      rcases Nat.lt_or_eq_of_le horder with hlt | rfl
      · constructor
        · intro _ hup
          exact absurd (hup order (Nat.le_refl order) hlt) hfree
        · intro _
          exact ⟨(record_inBounds hend).mpr (sibling_lt hend hlt hin), horder⟩
      · rw [Bool.not_eq_true] at hfree
        constructor
        · rintro ⟨hbuddy, -⟩ _
          exact ⟨(record_inBounds hend).mp hbuddy, hfree⟩
        · intro hcond
          exact ⟨(record_inBounds hend).mpr (hcond fun k hk hk10 => by omega).1, horder⟩

/-- `pages_free` of a block that is held. -/
theorem BuddyInvTo.freeUses_inBounds {b : LiveBlock} (h : BuddyInvTo 10 s live none)
    (hend : s.memEnd = KERNEL_PAGES) (hb : live page = some b) :
    (∀ u ∈ (freeUses s page).1, u.InBounds) ↔ Fits ⟨s, live⟩ (.free page) := by
  have hrec := h.live_record page b hb
  obtain ⟨hpos, -⟩ := h.live_bounds page b hb
  have hheld : b.refs > 0 := hpos
  have hsmall : b.order ≤ 10 := by
    have hle := h.small page
    rw [hrec] at hle
    exact hle
  have hfits := h.tiling.fits page b.order (Tile.ofLive hb)
  have hsize := Nat.two_pow_pos b.order
  have hpage : Use.InBounds (.record page) := (record_inBounds hend).mpr (by omega)
  have hFits : Fits ⟨s, live⟩ (.free page) ↔ (b.refs = 1 → MergesUp s page b.order →
      sibling page 10 < s.memEnd ∧ buddyFree s (sibling page 10) 10 = false) := by
    simp only [Fits, hrec]
  rw [hFits]
  simp only [freeUses, hrec, if_pos hheld]
  by_cases hlast : b.refs - 1 = 0
  · have hone : b.refs = 1 := by omega
    have hhand := h.drop hb
    have hblock : blockAt page b.order = page :=
      blockAt_of_dvd (h.tiling.aligned page b.order (Tile.ofLive hb))
    rw [← hblock] at hhand
    have hrounds : 12 - b.order + b.order = 12 := by omega
    have hloop := hhand.mergeUses_inBounds hend hsmall hrounds
    rw [hblock] at hloop
    -- only the record of the page itself has changed, and the page is no sibling of its own
    have hsame : ∀ k, buddyFree (s.setRecord page { order := b.order, count := 0 })
        (sibling page k) k = buddyFree s (sibling page k) k :=
      fun k => buddyFree_congr rfl (by simp [sibling_ne page k])
    simp only [MergesUp, hsame, Buddy.setRecord_memEnd] at hloop
    rw [if_pos hlast, List.forall_mem_cons, hlast, hloop]
    constructor
    · rintro ⟨-, hrest⟩ -
      exact hrest
    · exact fun hcond => ⟨hpage, hcond hone⟩
  · rw [if_neg hlast, List.forall_mem_singleton]
    exact ⟨fun _ hone => by omega, fun _ => hpage⟩

/-! ## The search and the loop of `split_pages` -/

/-- The right halves of a block in the region lie in the region. -/
theorem splitUses_inBounds {target this : Nat} (hthis : this ≤ 10)
    (hfits : page + 2 ^ this ≤ KERNEL_PAGES) : ∀ u ∈ splitUses page target this, u.InBounds := by
  induction this with
  | zero => simp [splitUses]
  | succ this ih =>
    have hdouble : 2 ^ (this + 1) = 2 ^ this + 2 ^ this := by ring
    have hpos := Nat.two_pow_pos this
    rw [splitUses]
    split
    case isTrue => simp
    case isFalse =>
      rw [List.forall_mem_cons, List.forall_mem_cons]
      refine ⟨?_, ?_, ih (by omega) (by omega)⟩
      · show this ≤ 10
        omega
      · show page + 2 ^ this < KERNEL_PAGES
        omega

/-- The lists from one order up to another. -/
theorem searched_inBounds {n : Nat} (h : order + n ≤ 10) :
    ∀ u ∈ (List.range' (order + 1) n).map Use.orderlist, u.InBounds := by
  intro u hu
  obtain ⟨i, hi, rfl⟩ := List.mem_map.mp hu
  obtain ⟨hlow, hhigh⟩ := List.mem_range'_1.mp hi
  show i ≤ 10
  omega

/-- A free block lies in the region with all its pages. -/
theorem BuddyInvTo.takeUses_inBounds {i : Nat} (h : BuddyInvTo top s live none)
    (hend : s.memEnd = KERNEL_PAGES) (hi : i ≤ 10) : ∀ u ∈ takeUses s i order, u.InBounds := by
  rw [takeUses]
  cases hlist : s.orderarray i with
  | nil => simp
  | cons page pages =>
    have hmem : page ∈ s.orderarray i := by simp [hlist]
    have hfits := h.tiling.fits page i (Tile.ofFree hmem)
    have hpos := Nat.two_pow_pos i
    rw [hend] at hfits
    rw [List.forall_mem_cons, List.forall_mem_append, List.forall_mem_singleton]
    refine ⟨hi, splitUses_inBounds hi hfits, ?_⟩
    show page < KERNEL_PAGES
    omega

theorem BuddyInvTo.orderUses_inBounds (h : BuddyInvTo 10 s live none)
    (hend : s.memEnd = KERNEL_PAGES) (hle : order ≤ 10) : ∀ u ∈ orderUses s order, u.InBounds := by
  rw [orderUses, List.forall_mem_cons]
  refine ⟨hle, ?_⟩
  split
  case isTrue =>
    cases hlarger : largerOrder s order with
    | none => exact searched_inBounds (by omega)
    | some i =>
      obtain ⟨-, hrange, -⟩ := List.find?_range_eq_some.mp hlarger
      have hi := List.mem_range.mp hrange
      show ∀ u ∈ _ ++ _, _
      rw [List.forall_mem_append]
      exact ⟨searched_inBounds (by omega), h.takeUses_inBounds hend (by omega)⟩
  case isFalse => exact h.takeUses_inBounds hend hle

theorem BuddyInvTo.allocUses_inBounds {npages : Nat} (h : BuddyInvTo 10 s live none)
    (hend : s.memEnd = KERNEL_PAGES) (hmax : npages ≤ 1024) :
    ∀ u ∈ allocUses s npages, u.InBounds := by
  rw [allocUses]
  cases horder : getPower2 npages with
  | none => exact List.forall_mem_nil _
  | some order => exact h.orderUses_inBounds hend (getPower2_le_ten horder hmax)

/-! ## Runs -/

/-- In every run whose frees find a fitting buddy, whatever is requested next: an allocation stays
    inside both arrays, and a free does exactly if it finds a fitting buddy as well. -/
theorem buddy_bounds {st : State} (hr : Reaches Request Fits (start KERNEL_PAGES) st) :
    (∀ npages, 1 ≤ npages → npages ≤ 1024 → ∀ u ∈ allocUses st.phys npages, u.InBounds) ∧
    ∀ page b, st.live page = some b →
      ((∀ u ∈ (freeUses st.phys page).1, u.InBounds) ↔ Fits st (.free page)) := by
  obtain ⟨hinv, hend⟩ := reaches_inv hr.anyInput
  constructor
  · intro npages _ hmax
    exact hinv.allocUses_inBounds hend hmax
  · intro page b hb
    exact hinv.freeUses_inBounds hend hb

/-- The kernel's region: 31 blocks of order 10, the last one in front. -/
theorem buddySystemInit_kernel :
    buddySystemInit KERNEL_PAGES = ⟨KERNEL_PAGES, Function.update (fun _ => []) 10
      ((List.range 31).reverse.map (· * 1024)), fun _ => ⟨0, 0⟩⟩ := by
  have hpages : KERNEL_PAGES = 31744 := by decide
  simp [hpages, buddySystemInit, mountOrderlist, mountLoop, Buddy.addFront]
  rfl

/-- A block of order 10 and a single page are handed out: the page is freed inside the arrays. -/
theorem buddy_bounds_page : ∃ st : State, st.live 29696 = some ⟨0, 1⟩ ∧
    ∀ u ∈ (freeUses st.phys 29696).1, u.InBounds := by
  have hrun : (serve (start KERNEL_PAGES) (.alloc 1024)).any (fun st =>
      (serve st (.alloc 1)).any fun st' => st'.live 29696 == some ⟨0, 1⟩ &&
        decide (sibling 29696 10 < st'.phys.memEnd) &&
          !buddyFree st'.phys (sibling 29696 10) 10) = true := by
    simp only [start, buddySystemInit_kernel]
    decide +kernel
  obtain ⟨st, hst, hrun⟩ := (Option.any_eq_true _ _).mp hrun
  obtain ⟨st', hst', hfacts⟩ := (Option.any_eq_true _ _).mp hrun
  simp only [Bool.and_eq_true, beq_iff_eq, decide_eq_true_eq, Bool.not_eq_true'] at hfacts
  obtain ⟨⟨hlive, hin⟩, hbusy⟩ := hfacts
  have hreach : Reaches Request Fits (start KERNEL_PAGES) st' :=
    (Reaches.refl.snoc (i := Op.alloc 1024) trivial (serve_request hst)).snoc (i := Op.alloc 1)
      trivial (serve_request hst')
  exact ⟨st', hlive, ((buddy_bounds hreach).2 29696 _ hlive).mpr fun _ _ => ⟨hin, hbusy⟩⟩

/-- One page is handed out and freed: `pages_free` reads the record of page 31744. -/
theorem buddy_out_of_bounds :
    ¬ ∀ st : State, Reaches Request anyInput (start KERNEL_PAGES) st → ∀ page b, st.live page = some b →
      ∀ u ∈ (freeUses st.phys page).1, u.InBounds := by
  intro hall
  have hrun : (serve (start KERNEL_PAGES) (.alloc 1)).any (fun st =>
      st.live 30720 == some ⟨0, 1⟩ &&
        (freeUses st.phys 30720).1.contains (.record 31744)) = true := by
    simp only [start, buddySystemInit_kernel]
    decide +kernel
  obtain ⟨st, hst, hfacts⟩ := (Option.any_eq_true _ _).mp hrun
  rw [Bool.and_eq_true, beq_iff_eq, List.contains_iff_mem] at hfacts
  have hreach : Reaches Request anyInput (start KERNEL_PAGES) st :=
    Reaches.refl.snoc (i := Op.alloc 1) trivial (serve_request hst)
  have hin : 31744 < KERNEL_PAGES := hall st hreach 30720 _ hfacts.1 _ hfacts.2
  exact absurd hin (by decide)

end Uniks.Phys
