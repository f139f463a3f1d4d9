/-
  Coalescing: when two free halves of one block are merged.

  `pages_free` merges a block with its buddy when the record of the buddy's head shows count 0 and
  the SAME order.  Splitting, allocating and freeing a block on its own leave the true order in the
  record; the merge loop and the initialisation do not write one.  A block that has been merged
  keeps the order its left half had, so when its own buddy is freed later the test fails and the two
  stay apart: of four single pages freed in the order 2, 3, 1, 0 the last merge is missed.

  What decides is the state before the step: `recordsShow` walks up from the page that is freed and
  asks, as long as the buddy is free, that its record shows the order of its list.
  `BuddyInvTo.mergePages_run` says that a free block finds everything merged again if and only if
  this holds.  The loop has no bound of its own either: it believes whatever lies behind the records
  of the region, and goes on from order 10 to a list that is not there.  `staysInside` is when it
  does not (`BuddyInvTo.mergePagesIn_strays`); after a free that strays anything may be (`Serves`).

  Both together give the run theorem.  Once nothing is handed out, the free blocks are a tiling
  without buddies, and there is only one (`Dyadic.Tiling.unique`): the one `buddy_system_init`
  mounts.
-/
import Uniks.PhysInv

namespace Uniks.Phys

open Uniks.Dyadic Uniks.Runs
open Function (update update_self update_of_ne)
open Option (some bind_eq_some_iff)

/-- The free blocks. -/
def Free (s : Buddy) (a k : Nat) : Prop := a ∈ s.orderarray k

/-- No two free blocks of an order below 10 are buddies: their offsets do not differ in bit `k`
    alone. -/
def Coalesced (s : Buddy) : Prop :=
  ∀ k, k < 10 → ∀ a b, a ∈ s.orderarray k → b ∈ s.orderarray k → a ^^^ b ≠ 2 ^ k

/-- Every free buddy that the loop of `pages_free` meets on the way up from `page` has its order in
    its record.  The first argument counts the orders up to 10. -/
def recordsShow : Nat → Buddy → Nat → Nat → Bool
  | 0, _, _, _ => true
  | left + 1, s, page, order =>
    match whoisBuddy page order with
    | none => true
    | some buddy =>
      !(s.orderarray order).contains buddy ||
        ((s.record buddy).order == order && recordsShow left s (min page buddy) (order + 1))

/-- `Step`, and requests of more than 512 pages, which the assertion of `pages_alloc` lets pass. -/
inductive Request : State → Op → State → Prop
  | step {st st' : State} {op : Op} (h : Step st op st') : Request st op st'
  | allocLarge {s : Buddy} {live : Nat → Option LiveBlock} {npages order page : Nat} {s' : Buddy}
      (hmin : 512 < npages) (hmax : npages ≤ 2 ^ 10) (horder : getPower2 npages = some order)
      (hrun : pagesAlloc s npages = some (s', page)) :
      Request ⟨s, live⟩ (.alloc npages) ⟨s', update live page (some ⟨order, 1⟩)⟩

/-- The loop of `pages_free` goes on to free blocks of the region only, and not beyond order 10.  The
    first argument counts the orders up to 10. -/
def staysInside (behind : Nat → PageRecord) : Nat → Buddy → Nat → Nat → Bool
  | left, s, page, order =>
    match whoisBuddy page order with
    | none => true
    | some buddy =>
      if buddy < s.memEnd then
        if (s.orderarray order).contains buddy && (s.record buddy).order == order then
          match left with
          | 0 => false
          | left + 1 => staysInside behind left s (min page buddy) (order + 1)
        else true
      else behind buddy != ⟨order, 0⟩

/-- A request, and what lies behind the records of the region when it is made. -/
structure Call where
  op : Op
  behind : Nat → PageRecord

/-- The requests with `pages_free` as it stands: when it strays, nothing is known of the state it
    leaves. -/
inductive Serves : State → Call → State → Prop
  | request {st st' : State} {c : Call} (hother : ∀ page, c.op ≠ .free page)
      (h : Request st c.op st') : Serves st c st'
  | frees {s s' : Buddy} {live : Nat → Option LiveBlock} {page : Nat} {b : LiveBlock}
      {behind : Nat → PageRecord} (hlive : live page = some b)
      (hrun : pagesFreeIn behind s page = .frees s') :
      Serves ⟨s, live⟩ ⟨.free page, behind⟩
        ⟨s', update live page
          (if b.refs - 1 = 0 then none else some ⟨b.order, b.refs - 1⟩)⟩
  | strays {s : Buddy} {live : Nat → Option LiveBlock} {page : Nat} {b : LiveBlock}
      {behind : Nat → PageRecord} {st' : State} (hlive : live page = some b)
      (hrun : pagesFreeIn behind s page = .strays) : Serves ⟨s, live⟩ ⟨.free page, behind⟩ st'

/-- The last `pages_free` of a block finds the orders in the records. -/
def FreesShown (st : State) : Op → Prop
  | .free page =>
    let r := st.phys.record page
    r.count = 1 → recordsShow (10 - r.order) st.phys page r.order = true
  | _ => True

/-- The last `pages_free` of a block does not stray. -/
def KeepsInside (st : State) (c : Call) : Prop :=
  match c.op with
  | .free page =>
    let r := st.phys.record page
    r.count = 1 → staysInside c.behind (10 - r.order) st.phys page r.order = true
  | _ => True

/-- What a call must find. -/
def Merges (st : State) (c : Call) : Prop := FreesShown st c.op ∧ KeepsInside st c

variable {s s' : Buddy} {live : Live} {page order top : Nat}

/-! ## Buddies -/

theorem whoisBuddy_left {a k : Nat} (h : 2 ^ (k + 1) ∣ a) : whoisBuddy a k = some (a + 2 ^ k) := by
  rw [whoisBuddy, Nat.and_two_pow_sub_one_eq_mod, if_pos (Nat.mod_eq_zero_of_dvd h)]

theorem whoisBuddy_right {a k : Nat} (h : 2 ^ (k + 1) ∣ a) : whoisBuddy (a + 2 ^ k) k = some a := by
  have hpos := Nat.two_pow_pos k
  have hlt : 2 ^ k < 2 ^ (k + 1) := Nat.pow_lt_pow_right (by decide) (Nat.lt_succ_self k)
  obtain ⟨m, rfl⟩ := h
  have hmod : (2 ^ (k + 1) * m + 2 ^ k) % 2 ^ (k + 1) = 2 ^ k := by
    rw [Nat.mul_add_mod, Nat.mod_eq_of_lt hlt]
  rw [whoisBuddy, Nat.and_two_pow_sub_one_eq_mod, hmod, if_neg (by omega), if_pos rfl]
  congr 1
  omega

/-- The claim in bits is the claim in halves. -/
theorem coalesced_iff (hal : ∀ a k, a ∈ s.orderarray k → 2 ^ k ∣ a) :
    Coalesced s ↔ NoBuddies 10 (Free s) := by
  constructor
  · intro h k hk p hp hl hr
    refine h k hk p (p + 2 ^ k) hl hr ?_
    -- the two differ in bit `k`, which is clear in a multiple of `2^(k+1)`
    obtain ⟨m, rfl⟩ := hp
    have hlt : 2 ^ k < 2 ^ (k + 1) := Nat.pow_lt_pow_right (by decide) (Nat.lt_succ_self k)
    rw [Nat.two_pow_add_eq_or_of_lt hlt m]
    apply Nat.eq_of_testBit_eq
    intro i
    have hclear : (2 ^ (k + 1) * m).testBit k = false := by
      rw [Nat.testBit_two_pow_mul]
      simp
    rw [Nat.testBit_xor, Nat.testBit_or]
    by_cases hi : k = i
    · subst hi
      rw [hclear]
      simp
    · rw [Nat.testBit_two_pow_of_ne hi]
      simp
  · intro h k hk a b ha hb hxor
    obtain ⟨p, hp, ⟨rfl, rfl⟩ | ⟨rfl, rfl⟩⟩ := halves_of_xor (hal a k ha) (hal b k hb) hxor
    · exact h k hk a hp ha hb
    · exact h k hk b hp hb ha

theorem noBuddies_of_lists (hlists : s'.orderarray = s.orderarray) (hn : NoBuddies 10 (Free s)) :
    NoBuddies 10 (Free s') := by
  show NoBuddies 10 fun a k => a ∈ s'.orderarray k
  rw [hlists]
  exact hn

/-! ## Allocation keeps the free blocks apart -/

theorem nextThenDel_free (hd : s.nextThenDel order = some (s', page)) {a k : Nat}
    (ha : a ∈ s'.orderarray k) : a ∈ s.orderarray k := by
  unfold Buddy.nextThenDel at hd
  split at hd
  · cases hd
  · rename_i p pages hlist
    obtain ⟨rfl, rfl⟩ := Prod.mk.inj (some.inj hd)
    have hnew : a ∈ update s.orderarray order pages k := ha
    by_cases hk : k = order
    · subst hk
      rw [update_self] at hnew
      rw [hlist]
      exact List.mem_cons_of_mem p hnew
    · rw [update_of_ne hk] at hnew
      exact hnew

/-- The right half goes to its list while the left half is in hand. -/
theorem BuddyInvTo.split_noBuddies (h : BuddyInvTo top s live (some (page, order + 1)))
    (hn : NoBuddies 10 (Free s)) : NoBuddies 10 (Free (s.addFront order (page + 2 ^ order))) := by
  have hpos := Nat.two_pow_pos order
  have hal : 2 ^ (order + 1) ∣ page := h.tiling.aligned page (order + 1) Tile.ofHand
  intro k hk q hq hl hr
  rcases mem_addFront.mp hl with hlold | ⟨rfl, rfl⟩
  · rcases mem_addFront.mp hr with hrold | ⟨heq, rfl⟩
    · exact hn k hk q hq hlold hrold
    · obtain rfl : q = page := by omega
      exact h.free_not_hand q k _ hlold rfl
  · have hown := whoisBuddy_right hal
    rw [whoisBuddy_left hq] at hown
    have heq := some.inj hown
    omega

theorem BuddyInvTo.splitPages_noBuddies {target this : Nat}
    (h : BuddyInvTo top s live (some (page, this))) (hthis : this ≤ 10) (htop : 9 ≤ top)
    (hn : NoBuddies 10 (Free s)) (hrun : Phys.splitPages page target this s = some s') :
    NoBuddies 10 (Free s') := by
  induction this generalizing s with
  | zero =>
    rw [Phys.splitPages] at hrun
    split at hrun
    · exact some.inj hrun ▸ hn
    · cases hrun
  | succ this ih =>
    rw [Phys.splitPages] at hrun
    by_cases heq : this + 1 = target
    · rw [if_pos heq] at hrun
      exact some.inj hrun ▸ hn
    · rw [if_neg heq] at hrun
      obtain ⟨hcount, h'⟩ := h.splitOnce (by omega) htop rfl
      exact ih h' (by omega) (h.split_noBuddies hn) ((if_pos hcount).symm.trans hrun)

/-- `pages_alloc` never makes two free blocks buddies. -/
theorem BuddyInvTo.pagesAlloc_noBuddies {npages : Nat} (h : BuddyInvTo top s live none)
    (htop : 9 ≤ top) (hmax : ∀ order, getPower2 npages = some order → order ≤ top)
    (hn : NoBuddies 10 (Free s)) (ha : Phys.pagesAlloc s npages = some (s', page)) :
    NoBuddies 10 (Free s') := by
  obtain ⟨order, i, s₁, s₂, horder, hle, hnext, hsplit, hrec⟩ := pagesAlloc_cases ha
  obtain ⟨h₁, hmem, -, -⟩ := h.nextThenDel hnext
  have hi10 := h.orders page i hmem
  have hn₁ : NoBuddies 10 (Free s₁) := hn.mono fun a k => nextThenDel_free hnext
  have hn₂ := h₁.splitPages_noBuddies hi10 htop hn₁ hsplit
  obtain ⟨s₂', hsplit', -, h₂⟩ := h₁.splitPages hle hi10 htop
  cases hsplit.symm.trans hsplit'
  obtain ⟨s₃, hrec', -, hlists, -⟩ := h₂.doRecord (hmax order horder)
  cases hrec.symm.trans hrec'
  exact noBuddies_of_lists hlists hn₂

/-! ## Freeing -/

/-- Only the lists from `order` up and the orders of the records matter. -/
theorem recordsShow_congr {left : Nat}
    (hlists : ∀ k, order ≤ k → ∀ a, a ∈ s'.orderarray k ↔ a ∈ s.orderarray k)
    (hrec : ∀ a, (s'.record a).order = (s.record a).order) :
    recordsShow left s' page order = recordsShow left s page order := by
  induction left generalizing page order with
  | zero => rfl
  | succ left ih =>
    simp only [recordsShow]
    cases whoisBuddy page order with
    | none => rfl
    | some b =>
      have hcontains : (s'.orderarray order).contains b = (s.orderarray order).contains b := by
        rw [Bool.eq_iff_iff, List.contains_iff_mem, List.contains_iff_mem]
        exact hlists order (Nat.le_refl order) b
      show (!(s'.orderarray order).contains b || _) = (!(s.orderarray order).contains b || _)
      rw [hcontains, hrec, ih fun k hk => hlists k (by omega)]

/-- A free block of the order its record shows passes the test of `pages_free`. -/
theorem BuddyInvTo.buddyFree_of_shown {hand : Option (Nat × Nat)} (h : BuddyInvTo top s live hand)
    {b : Nat} (hmem : b ∈ s.orderarray order) (hshown : (s.record b).order = order) :
    buddyFree s b order = true := by
  have hpos := Nat.two_pow_pos order
  have hfits := h.tiling.fits b order (Tile.ofFree hmem)
  have hcount := h.idle_count b (h.free_not_live b order hmem)
  have hin : b < s.memEnd := by omega
  simp [buddyFree, hin, hcount, hshown]

/-- The block in hand goes to its list: that makes no buddies exactly if its own is not free. -/
theorem addFront_noBuddies {b : Nat} (hwho : whoisBuddy page order = some b)
    (hn : NoBuddies 10 (Free s)) (hb : b ∉ s.orderarray order) :
    NoBuddies 10 (Free (s.addFront order page)) := by
  intro k hk q hq hl hr
  rcases mem_addFront.mp hl with hlold | ⟨rfl, rfl⟩
  · rcases mem_addFront.mp hr with hrold | ⟨rfl, rfl⟩
    · exact hn k hk q hq hlold hrold
    · rw [whoisBuddy_right hq] at hwho
      exact hb (some.inj hwho ▸ hlold)
  · rcases mem_addFront.mp hr with hrold | ⟨heq, -⟩
    · rw [whoisBuddy_left hq] at hwho
      exact hb (some.inj hwho ▸ hrold)
    · have hpos := Nat.two_pow_pos k
      omega

theorem addFront_buddies {b p : Nat} (horder : order < 10) (hp : 2 ^ (order + 1) ∣ p)
    (hsides : (page = p ∧ b = p + 2 ^ order) ∨ (page = p + 2 ^ order ∧ b = p))
    (hb : b ∈ s.orderarray order) : ¬ NoBuddies 10 (Free (s.addFront order page)) := by
  intro hn
  have hpage : page ∈ (s.addFront order page).orderarray order :=
    mem_addFront.mpr (.inr ⟨rfl, rfl⟩)
  have hbuddy : b ∈ (s.addFront order page).orderarray order := mem_addFront.mpr (.inl hb)
  rcases hsides with ⟨rfl, rfl⟩ | ⟨rfl, rfl⟩
  · exact hn order horder page hp hpage hbuddy
  · exact hn order horder b hp hbuddy hpage

/-- The lists above the one that the buddy is taken off are as they were. -/
theorem BuddyInvTo.mem_erase_above {hand : Option (Nat × Nat)} (h : BuddyInvTo top s live hand)
    {b k : Nat} (hmem : b ∈ s.orderarray order) (hk : order < k) (a : Nat) :
    a ∈ (s.orderarray k).erase b ↔ a ∈ s.orderarray k := by
  rw [(h.nodup k).mem_erase_iff]
  constructor
  · exact fun ha => ha.2
  · intro ha
    refine ⟨?_, ha⟩
    rintro rfl
    have hsame := h.free_unique ha hmem
    omega

/-- A run of the merge loop keeps the invariant, and leaves no buddies behind exactly if the records
    on its way show the orders. -/
theorem BuddyInvTo.mergePages_run {left : Nat} (h : BuddyInvTo top s live (some (page, order)))
    (hrec : (s.record page).order ≤ order) (hleft : left + order = 11) (horder : order ≤ 10)
    (hrun : Phys.mergePages left s page order = some s') :
    s'.memEnd = s.memEnd ∧ BuddyInvTo top s' live none ∧
      (NoBuddies 10 (Free s) →
        (NoBuddies 10 (Free s') ↔ recordsShow (left - 1) s page order = true)) := by
  induction left generalizing s page order with
  | zero => omega
  | succ left ih =>
    have hal := h.tiling.aligned page order Tile.ofHand
    obtain ⟨b, p, hwho, hp, hsides⟩ := whoisBuddy_spec hal
    rw [Phys.mergePages, hwho] at hrun
    by_cases hfree : buddyFree s b order = true
    · have hmem := h.buddy_mem hp hsides hfree
      have hmerged := h.mergeOnce hp hsides hmem
      have hmin : min page b = p := min_of_sides hsides
      have hshown : (s.record b).order = order := order_of_buddyFree hfree
      have hrec' : (s.record p).order ≤ order + 1 := by
        rcases hsides with ⟨rfl, -⟩ | ⟨-, rfl⟩
        · omega
        · omega
      simp only [Option.bind_eq_bind, Option.bind_some, if_pos hfree, listDel_eq horder hmem,
        hmin] at hrun
      cases left with
      | zero => cases hrun
      | succ left =>
        obtain ⟨hend, hinv, hiff⟩ := ih hmerged hrec' (by omega) (by omega) hrun
        refine ⟨hend, hinv, fun hn => ?_⟩
        have hn₁ : NoBuddies 10 (Free { s with orderarray := fun k => (s.orderarray k).erase b }) :=
          hn.mono fun a k ha => List.mem_of_mem_erase ha
        rw [hiff hn₁]
        -- the buddy was on the list of `order`, so the lists above are as they were
        have hsame : recordsShow left { s with orderarray := fun k => (s.orderarray k).erase b } p
            (order + 1) = recordsShow left s p (order + 1) := by
          exact recordsShow_congr (fun k hk a => h.mem_erase_above hmem hk a) fun a => rfl
        simp only [Nat.add_sub_cancel, recordsShow, hwho, hmin, hshown,
          List.contains_iff_mem.mpr hmem, beq_self_eq_true, Bool.not_true, Bool.false_or,
          Bool.true_and]
        rw [hsame]
    · simp only [Option.bind_eq_bind, Option.bind_some, if_neg hfree] at hrun
      cases hrun
      refine ⟨rfl, h.addFront horder hrec, fun hn => ?_⟩
      by_cases hmem : b ∈ s.orderarray order
      · -- the test has missed a free buddy
        have hstale : (s.record b).order ≠ order := fun hshown =>
          hfree (h.buddyFree_of_shown hmem hshown)
        cases left with
        | zero =>
          obtain rfl : order = 10 := by omega
          refine ⟨fun _ => rfl, fun _ => ?_⟩
          intro k hk q hq hl hr
          rcases mem_addFront.mp hl with hlold | ⟨-, rfl⟩
          · rcases mem_addFront.mp hr with hrold | ⟨-, rfl⟩
            · exact hn k hk q hq hlold hrold
            · omega
          · omega
        | succ left =>
          have hbad := addFront_buddies (by omega) hp hsides hmem
          refine ⟨fun hgood => absurd hgood hbad, fun hshow => ?_⟩
          simp [recordsShow, hwho, hmem, hstale] at hshow
      · refine ⟨fun _ => ?_, fun _ => addFront_noBuddies hwho hn hmem⟩
        cases left with
        | zero => rfl
        | succ left => simp [recordsShow, hwho, hmem]

/-! ## Where the loop goes -/

/-- The test on a record of the region. -/
theorem readRecord_free_iff {behind : Nat → PageRecord} {b : Nat} (hin : b < s.memEnd) :
    ((readRecord s behind b).count = 0 ∧ (readRecord s behind b).order = order) ↔
      buddyFree s b order = true := by
  simp [readRecord, buddyFree, hin]

/-- Where the loop comes to an end inside, it is the one that keeps to the region. -/
theorem mergePages_of_frees {behind : Nat → PageRecord} {left : Nat}
    (hrun : mergePagesIn behind left s page order = .frees s') :
    Phys.mergePages left s page order = some s' := by
  induction left generalizing s page order with
  | zero => cases hrun
  | succ left ih =>
    rw [mergePagesIn] at hrun
    rw [Phys.mergePages]
    cases hwho : whoisBuddy page order with
    | none =>
      rw [hwho] at hrun
      cases hrun
    | some b =>
      simp only [hwho] at hrun
      show (if buddyFree s b order = true then _ else _) = _
      by_cases hin : b < s.memEnd
      · by_cases hfree : buddyFree s b order = true
        · rw [if_pos ((readRecord_free_iff hin).mpr hfree), if_pos hin] at hrun
          rw [if_pos hfree]
          cases hdel : s.listDel b with
          | none =>
            rw [hdel] at hrun
            cases hrun
          | some s₁ =>
            rw [hdel] at hrun
            exact ih hrun
        · rw [if_neg (mt (readRecord_free_iff hin).mp hfree)] at hrun
          rw [if_neg hfree, Ending.frees.inj hrun]
          rfl
      · have hfree : ¬ buddyFree s b order = true := by simp [buddyFree, hin]
        rw [if_neg hin] at hrun
        split at hrun
        case isTrue => cases hrun
        case isFalse =>
          rw [if_neg hfree, Ending.frees.inj hrun]
          rfl

theorem pagesFree_of_frees {behind : Nat → PageRecord}
    (hrun : pagesFreeIn behind s page = .frees s') : Phys.pagesFree s page = some s' := by
  simp only [pagesFreeIn] at hrun
  simp only [Phys.pagesFree]
  split at hrun
  case isTrue hheld =>
    rw [if_pos hheld]
    split at hrun
    case isTrue hlast =>
      rw [if_pos hlast]
      exact mergePages_of_frees hrun
    case isFalse hmore => rw [if_neg hmore, Ending.frees.inj hrun]
  case isFalse => cases hrun

/-- As `recordsShow_congr`. -/
theorem staysInside_congr {behind : Nat → PageRecord} {left : Nat} (hend : s'.memEnd = s.memEnd)
    (hlists : ∀ k, order ≤ k → ∀ a, a ∈ s'.orderarray k ↔ a ∈ s.orderarray k)
    (hrec : ∀ a, (s'.record a).order = (s.record a).order) :
    staysInside behind left s' page order = staysInside behind left s page order := by
  have hcontains : ∀ b, (s'.orderarray order).contains b = (s.orderarray order).contains b := by
    intro b
    rw [Bool.eq_iff_iff, List.contains_iff_mem, List.contains_iff_mem]
    exact hlists order (Nat.le_refl order) b
  induction left generalizing page order with
  | zero =>
    unfold staysInside
    simp only [hend, hrec, hcontains]
  | succ left ih =>
    unfold staysInside
    simp only [hend, hrec, hcontains]
    cases whoisBuddy page order with
    | none => rfl
    | some b =>
      have hup : staysInside behind left s' (min page b) (order + 1)
          = staysInside behind left s (min page b) (order + 1) := by
        apply ih (fun k hk => hlists k (by omega))
        intro a
        rw [Bool.eq_iff_iff, List.contains_iff_mem, List.contains_iff_mem]
        exact hlists (order + 1) (Nat.le_succ order) a
      simp only [hup]

/-- A round of the loop: it goes on to a free block of the region, or ends at a block that is not
    free, or looks behind the region. -/
theorem BuddyInvTo.mergePagesIn_round (h : BuddyInvTo top s live (some (page, order)))
    (horder : order ≤ 10) (behind : Nat → PageRecord) (left : Nat) :
    ∃ b, whoisBuddy page order = some b ∧
      ((b < s.memEnd ∧ b ∈ s.orderarray order ∧ (s.record b).order = order ∧
          BuddyInvTo top { s with orderarray := fun k => (s.orderarray k).erase b } live
            (some (min page b, order + 1)) ∧
          mergePagesIn behind (left + 1) s page order =
            mergePagesIn behind left { s with orderarray := fun k => (s.orderarray k).erase b }
              (min page b) (order + 1)) ∨
        (b < s.memEnd ∧ ¬ (b ∈ s.orderarray order ∧ (s.record b).order = order) ∧
          mergePagesIn behind (left + 1) s page order = .frees (s.addFront order page)) ∨
        (s.memEnd ≤ b ∧ mergePagesIn behind (left + 1) s page order =
          if behind b = ⟨order, 0⟩ then .strays else .frees (s.addFront order page))) := by
  obtain ⟨b, p, hwho, hp, hsides⟩ := whoisBuddy_spec (h.tiling.aligned page order Tile.ofHand)
  refine ⟨b, hwho, ?_⟩
  by_cases hin : b < s.memEnd
  · by_cases hfree : buddyFree s b order = true
    · left
      have hmem := h.buddy_mem hp hsides hfree
      have hmerged := h.mergeOnce hp hsides hmem
      rw [← min_of_sides hsides] at hmerged
      refine ⟨hin, hmem, order_of_buddyFree hfree, hmerged, ?_⟩
      rw [mergePagesIn, hwho]
      simp only [(readRecord_free_iff hin).mpr hfree, and_self, if_true, if_pos hin,
        listDel_eq horder hmem]
    · right; left
      refine ⟨hin, fun hshown => hfree (h.buddyFree_of_shown hshown.1 hshown.2), ?_⟩
      rw [mergePagesIn, hwho]
      exact if_neg (mt (readRecord_free_iff hin).mp hfree)
  · right; right
    refine ⟨Nat.le_of_not_lt hin, ?_⟩
    have hread : readRecord s behind b = behind b := if_neg hin
    rw [mergePagesIn, hwho]
    simp only [hread, if_neg hin]
    by_cases hshow : behind b = ⟨order, 0⟩
    · rw [if_pos hshow, if_pos (by rw [hshow]; exact ⟨rfl, rfl⟩)]
    · rw [if_neg hshow, if_neg]
      rintro ⟨hcount, hord⟩
      exact hshow (by rw [← hcount, ← hord])

/-- The loop strays exactly if the state it begins in does not keep it inside. -/
theorem BuddyInvTo.mergePagesIn_strays {behind : Nat → PageRecord} {left : Nat}
    (h : BuddyInvTo top s live (some (page, order))) (hleft : left + order = 10) :
    mergePagesIn behind (left + 1) s page order = .strays ↔
      staysInside behind left s page order = false := by
  induction left generalizing s page order with
  | zero =>
    obtain ⟨b, hwho, hround⟩ := h.mergePagesIn_round (by omega) behind 0
    unfold staysInside
    rw [hwho]
    rcases hround with ⟨hin, hmem, hshown, -, hrun⟩ | ⟨hin, hbusy, hrun⟩ | ⟨hout, hrun⟩
    · -- order 10 is merged: there is no list for what comes of it
      rw [hrun]
      simp [mergePagesIn, hin, hmem, hshown]
    · rw [hrun]
      simp [hin, hbusy]
    · rw [hrun]
      by_cases hshow : behind b = ⟨order, 0⟩ <;> simp [Nat.not_lt.mpr hout, hshow]
  | succ left ih =>
    obtain ⟨b, hwho, hround⟩ := h.mergePagesIn_round (by omega) behind (left + 1)
    unfold staysInside
    rw [hwho]
    rcases hround with ⟨hin, hmem, hshown, hmerged, hrun⟩ | ⟨hin, hbusy, hrun⟩ | ⟨hout, hrun⟩
    · rw [hrun, ih hmerged (by omega)]
      have hsame : staysInside behind left
          { s with orderarray := fun k => (s.orderarray k).erase b } (min page b) (order + 1)
          = staysInside behind left s (min page b) (order + 1) :=
        staysInside_congr rfl (fun k hk a => h.mem_erase_above hmem hk a) fun _ => rfl
      simp [hin, hmem, hshown, hsame]
    · rw [hrun]
      simp [hin, hbusy]
    · rw [hrun]
      by_cases hshow : behind b = ⟨order, 0⟩ <;> simp [Nat.not_lt.mpr hout, hshow]

/-- `pages_free` on a block that is held, with records of any order. -/
theorem BuddyInvTo.pagesFree_run (h : BuddyInvTo top s live none) (htop : top ≤ 10) {b : LiveBlock}
    (hb : live page = some b) (hrun : Phys.pagesFree s page = some s') :
    s'.memEnd = s.memEnd ∧
      BuddyInvTo top s' (update live page
        (if b.refs - 1 = 0 then none else some ⟨b.order, b.refs - 1⟩)) none ∧
      (b.refs ≠ 1 → s'.orderarray = s.orderarray) ∧
      (b.refs = 1 → NoBuddies 10 (Free s) →
        (NoBuddies 10 (Free s') ↔ recordsShow (10 - b.order) s page b.order = true)) := by
  have hrec := h.live_record page b hb
  obtain ⟨hpos, hfew⟩ := h.live_bounds page b hb
  have horder : b.order ≤ 10 := (h.live_block hb).2.trans htop
  unfold Phys.pagesFree at hrun
  have hheld : b.refs > 0 := hpos
  simp only [hrec] at hrun
  rw [if_pos hheld] at hrun
  by_cases hlast : b.refs - 1 = 0
  · rw [if_pos hlast, hlast] at hrun
    rw [if_pos hlast]
    have hhand := h.drop hb
    have hshown : ((s.setRecord page { order := b.order, count := 0 }).record page).order
        ≤ b.order := by
      rw [Buddy.setRecord_record, update_self]
    obtain ⟨hend, hinv, hiff⟩ := hhand.mergePages_run hshown (by omega) horder hrun
    refine ⟨hend, hinv, fun hne => absurd (by omega) hne, fun _ hn => ?_⟩
    rw [hiff hn, show 11 - b.order - 1 = 10 - b.order from by omega]
    -- the record that is written keeps its order
    have hsame : recordsShow (10 - b.order) (s.setRecord page { order := b.order, count := 0 })
        page b.order = recordsShow (10 - b.order) s page b.order := by
      refine recordsShow_congr (fun k _ a => Iff.rfl) fun a => ?_
      rw [Buddy.setRecord_record]
      by_cases hap : a = page
      · subst hap
        rw [update_self, hrec]
      · rw [update_of_ne hap]
    rw [hsame]
  · rw [if_neg hlast] at hrun
    rw [if_neg hlast]
    cases hrun
    exact ⟨rfl, h.recount hb (by omega) (by omega), fun _ => rfl,
      fun hone => absurd (by omega) hlast⟩

/-- `pages_free` strays exactly if it drops the last reference and its loop strays. -/
theorem BuddyInvTo.pagesFreeIn_strays {behind : Nat → PageRecord} (h : BuddyInvTo top s live none)
    (htop : top ≤ 10) {b : LiveBlock} (hb : live page = some b) :
    pagesFreeIn behind s page = .strays ↔
      b.refs = 1 ∧ staysInside behind (10 - b.order) s page b.order = false := by
  have hrec := h.live_record page b hb
  have hheld : b.refs > 0 := (h.live_bounds page b hb).1
  have horder : b.order ≤ 10 := (h.live_block hb).2.trans htop
  unfold pagesFreeIn
  simp only [hrec, if_pos hheld]
  by_cases hlast : b.refs - 1 = 0
  · have hone : b.refs = 1 := by omega
    rw [if_pos hlast, hlast, show 11 - b.order = 10 - b.order + 1 from by omega,
      (h.drop hb).mergePagesIn_strays (by omega)]
    -- the record that is written keeps its order
    have hsame : staysInside behind (10 - b.order)
        (s.setRecord page { order := b.order, count := 0 }) page b.order
        = staysInside behind (10 - b.order) s page b.order := by
      refine staysInside_congr rfl (fun k _ a => Iff.rfl) fun a => ?_
      rw [Buddy.setRecord_record]
      by_cases hap : a = page
      · subst hap
        rw [update_self, hrec]
      · rw [update_of_ne hap]
    rw [hsame]
    exact (and_iff_right hone).symm
  · rw [if_neg hlast]
    constructor
    · exact nofun
    · rintro ⟨hone, -⟩
      omega

/-! ## Initialisation -/

/-- The loop of `mount_orderlist` touches the list of its own order only. -/
theorem mountLoop_other {current k : Nat} (hk : k ≠ order) :
    (Phys.mountLoop order current s).2.orderarray k = s.orderarray k := by
  induction current, s using Phys.mountLoop.induct order with
  | case1 current s hroom ih =>
    rw [Phys.mountLoop, if_pos hroom, ih]
    show update s.orderarray order (current :: s.orderarray order) k = s.orderarray k
    rw [update_of_ne hk]
  | case2 current s hfull =>
    rw [Phys.mountLoop, if_neg hfull]

/-- Where less than two blocks fit, at most one is mounted. -/
theorem mountLoop_once {current : Nat} (hroom : s.memEnd < current + 2 ^ (order + 1))
    (hempty : s.orderarray order = []) :
    ((Phys.mountLoop order current s).2.orderarray order).length ≤ 1 := by
  have hpow : 2 ^ (order + 1) = 2 ^ order + 2 ^ order := by ring
  rw [Phys.mountLoop]
  by_cases hfit : current + 2 ^ order ≤ s.memEnd
  · rw [if_pos hfit, Phys.mountLoop,
      if_neg (show ¬ current + 2 ^ order + 2 ^ order ≤ (s.addFront order current).memEnd from by
        show ¬ current + 2 ^ order + 2 ^ order ≤ s.memEnd
        omega)]
    show (update s.orderarray order (current :: s.orderarray order) order).length ≤ 1
    rw [update_self, hempty]
    simp
  · rw [if_neg hfit, hempty]
    simp

/-- Below order 10 no list has more than one block. -/
def Sparse (s : Buddy) : Prop := ∀ k, k < 10 → (s.orderarray k).length ≤ 1

theorem Sparse.mountOrderlist {current : Nat} (hsparse : Sparse s) (hm : Mounted current s)
    (hal : 2 ^ order ∣ current) (hcur : current ≤ s.memEnd) (horder : order ≤ 10)
    (hempty : ∀ k, k ≤ order → s.orderarray k = [])
    (hroom : order < 10 → s.memEnd < current + 2 ^ (order + 1)) :
    Sparse (Phys.mountOrderlist order current s) := by
  have hloop : ∀ (s : Buddy) (order current : Nat), Sparse s → s.orderarray order = [] →
      (order < 10 → s.memEnd < current + 2 ^ (order + 1)) →
      Sparse (Phys.mountLoop order current s).2 := by
    intro s order current hs he hr k hk
    by_cases hko : k = order
    · subst hko
      exact mountLoop_once (hr hk) he
    · rw [mountLoop_other hko]
      exact hs k hk
  induction order generalizing current s with
  | zero => exact hloop s 0 current hsparse (hempty 0 (Nat.le_refl 0)) hroom
  | succ order ih =>
    have hs' := hloop s (order + 1) current hsparse (hempty _ (Nat.le_refl _)) hroom
    obtain ⟨hm', hal', hle, hlt, hend⟩ := hm.mountLoop hal hcur horder
    rw [Phys.mountOrderlist]
    by_cases hdone : (Phys.mountLoop (order + 1) current s).1
        ≠ (Phys.mountLoop (order + 1) current s).2.memEnd
    · simp only [if_pos hdone]
      refine ih hs' hm' ?_ (by omega) (by omega) (fun k hk => ?_) fun _ => by omega
      · exact Nat.dvd_trans (Nat.pow_dvd_pow 2 (Nat.le_succ order)) hal'
      · rw [mountLoop_other (by omega)]
        exact hempty k (by omega)
    · simp only [if_neg hdone]
      exact hs'

/-- What `buddy_system_init` mounts has no buddies. -/
theorem buddySystemInit_noBuddies (memEnd : Nat) :
    NoBuddies 10 (Free (buddySystemInit memEnd)) := by
  have hstart : Mounted 0 (⟨memEnd, fun _ => [], fun _ => ⟨0, 0⟩⟩ : Buddy) :=
    ⟨Tiling.empty.congr fun a k => ⟨List.not_mem_nil, False.elim⟩,
      fun _ _ h => absurd h List.not_mem_nil, fun _ => List.nodup_nil, fun _ => rfl⟩
  have hsparse : Sparse (buddySystemInit memEnd) :=
    Sparse.mountOrderlist (fun _ _ => Nat.zero_le 1) hstart (Nat.dvd_zero _) (Nat.zero_le memEnd)
      (Nat.le_refl 10) (fun _ _ => rfl) fun hlt => absurd hlt (by decide)
  intro k hk p _ hl hr
  have hone := hsparse k hk
  have hpos := Nat.two_pow_pos k
  match hlist : (buddySystemInit memEnd).orderarray k, hone with
  | [], _ =>
    have hl' : p ∈ (buddySystemInit memEnd).orderarray k := hl
    rw [hlist] at hl'
    cases hl'
  | [a], _ =>
    have hl' : p ∈ (buddySystemInit memEnd).orderarray k := hl
    have hr' : p + 2 ^ k ∈ (buddySystemInit memEnd).orderarray k := hr
    rw [hlist, List.mem_singleton] at hl' hr'
    omega

/-! ## Runs -/

theorem getPower2_le_ten {n : Nat} (h : getPower2 n = some order) (hn : n ≤ 2 ^ 10) :
    order ≤ 10 := by
  by_contra hgt
  exact (getPower2_spec h).2 10 (by omega) hn

/-- Without a condition: what the requests keep. -/
theorem BuddyInvTo.request {st st' : State} {op : Op} (h : BuddyInvTo 10 st.phys st.live none)
    (hs : Request st op st') :
    BuddyInvTo 10 st'.phys st'.live none ∧ st'.phys.memEnd = st.phys.memEnd := by
  cases hs with
  | step hs =>
    cases hs with
    | alloc hmin hmax horder hrun =>
      obtain ⟨order, horder', -, hend, hinv⟩ := h.pagesAlloc (by decide)
        (fun _ ho => getPower2_le_ten ho (hmax.trans (by decide))) hrun
      cases horder.symm.trans horder'
      exact ⟨hinv, hend⟩
    | dup hlive hfew hrun =>
      obtain ⟨s', hrun', hend, -, hinv⟩ := h.pagesDup hlive hfew
      cases hrun.symm.trans hrun'
      exact ⟨hinv, hend⟩
    | undup hlive hrun =>
      obtain ⟨s', hrun', hend, -, hinv⟩ := h.pagesUndup hlive
      cases hrun.symm.trans hrun'
      exact ⟨hinv, hend⟩
    | free hlive hrun =>
      obtain ⟨hend, hinv, -, -⟩ := h.pagesFree_run (Nat.le_refl 10) hlive hrun
      exact ⟨hinv, hend⟩
  | allocLarge hmin hmax horder hrun =>
    obtain ⟨order, horder', -, hend, hinv⟩ := h.pagesAlloc (by decide)
      (fun _ ho => getPower2_le_ten ho hmax) hrun
    cases horder.symm.trans horder'
    exact ⟨hinv, hend⟩

/-- A request that frees nothing makes no buddies. -/
theorem BuddyInvTo.request_noBuddies {st st' : State} {op : Op}
    (h : BuddyInvTo 10 st.phys st.live none) (hn : NoBuddies 10 (Free st.phys))
    (hother : ∀ page, op ≠ .free page) (hs : Request st op st') :
    NoBuddies 10 (Free st'.phys) := by
  cases hs with
  | step hs =>
    cases hs with
    | alloc hmin hmax horder hrun =>
      exact h.pagesAlloc_noBuddies (by decide)
        (fun _ ho => getPower2_le_ten ho (hmax.trans (by decide))) hn hrun
    | dup hlive hfew hrun =>
      obtain ⟨s', hrun', -, hlists, -⟩ := h.pagesDup hlive hfew
      cases hrun.symm.trans hrun'
      exact noBuddies_of_lists hlists hn
    | undup hlive hrun =>
      obtain ⟨s', hrun', -, hlists, -⟩ := h.pagesUndup hlive
      cases hrun.symm.trans hrun'
      exact noBuddies_of_lists hlists hn
    | free hlive hrun => exact absurd rfl (hother _)
  | allocLarge hmin hmax horder hrun =>
    exact h.pagesAlloc_noBuddies (by decide) (fun _ ho => getPower2_le_ten ho hmax) hn hrun

/-- What holds between the calls of a run: the invariant, the region, and no buddies. -/
structure Apart (memEnd : Nat) (st : State) : Prop where
  inv : BuddyInvTo 10 st.phys st.live none
  memEnd_eq : st.phys.memEnd = memEnd
  noBuddies : NoBuddies 10 (Free st.phys)

theorem apart_start (memEnd : Nat) : Apart memEnd (start memEnd) := by
  obtain ⟨hinit, hinitEnd⟩ := buddySystemInit_inv memEnd
  exact ⟨{ hinit with small := fun a => (hinit.small a).trans (by decide) }, hinitEnd,
    buddySystemInit_noBuddies memEnd⟩

/-- A call that finds what it must. -/
theorem Apart.serves {memEnd : Nat} {st st' : State} {c : Call} (ha : Apart memEnd st)
    (hc : Merges st c) (hs : Serves st c st') : Apart memEnd st' := by
  obtain ⟨hshown, hinside⟩ := hc
  cases hs with
  | request hother hreq =>
    obtain ⟨h', hend'⟩ := ha.inv.request hreq
    exact ⟨h', hend'.trans ha.memEnd_eq, ha.inv.request_noBuddies ha.noBuddies hother hreq⟩
  | @frees s s' live page b behind hlive hrun =>
    obtain ⟨hend', h', hmany, hone⟩ :=
      ha.inv.pagesFree_run (Nat.le_refl 10) hlive (pagesFree_of_frees hrun)
    refine ⟨h', hend'.trans ha.memEnd_eq, ?_⟩
    by_cases hlast : b.refs = 1
    · have hshow : (s.record page).count = 1 →
          recordsShow (10 - (s.record page).order) s page (s.record page).order = true := hshown
      rw [ha.inv.live_record page b hlive] at hshow
      exact (hone hlast ha.noBuddies).mpr (hshow hlast)
    · exact noBuddies_of_lists (hmany hlast) ha.noBuddies
  | @strays s live page b behind st' hlive hrun =>
    obtain ⟨hlast, hout⟩ := (ha.inv.pagesFreeIn_strays (Nat.le_refl 10) hlive).mp hrun
    have hin : (s.record page).count = 1 →
        staysInside behind (10 - (s.record page).order) s page (s.record page).order = true :=
      hinside
    rw [ha.inv.live_record page b hlive] at hin
    rw [hin hlast] at hout
    cases hout

/-- What every run keeps whose frees meet the condition. -/
theorem apart_of_reaches {memEnd : Nat} {st : State}
    (hr : Reaches Serves Merges (start memEnd) st) : Apart memEnd st :=
  hr.invariant (apart_start memEnd) fun _ _ _ ha hc hs => ha.serves hc hs

/-- A block of a tiling by free blocks. -/
theorem BuddyInvTo.free_tiling (h : BuddyInvTo top s live none) (hnone : ∀ a, live a = none) :
    Tiling s.memEnd (Free s) := by
  refine h.tiling.congr fun a k => ?_
  constructor
  · exact fun ha => .inl ha
  · rintro (ha | ⟨r, ha⟩ | ha)
    · exact ha
    · rw [hnone a] at ha
      cases ha
    · cases ha

/-- In every run whose frees find the orders in the records and keep inside, no two free blocks of an
    order below 10 are buddies, and when nothing is handed out the free blocks are those that
    `buddy_system_init` has mounted. -/
theorem free_blocks_coalesced {memEnd : Nat} {st : State}
    (hr : Reaches Serves Merges (start memEnd) st) :
    Coalesced st.phys ∧ ((∀ a, st.live a = none) →
      ∀ a k, a ∈ st.phys.orderarray k ↔ a ∈ (buddySystemInit memEnd).orderarray k) := by
  have hinit := apart_start memEnd
  have hend := apart_of_reaches hr
  constructor
  · show Coalesced st.phys
    exact (coalesced_iff fun a k ha => hend.inv.tiling.aligned a k (Tile.ofFree ha)).mpr
      hend.noBuddies
  · intro hnone a k
    have htiling := hend.memEnd_eq ▸ hend.inv.free_tiling hnone
    have htiling₀ := hinit.memEnd_eq ▸ hinit.inv.free_tiling fun _ => rfl
    constructor
    · exact fun ha =>
        htiling.unique htiling₀ hend.inv.orders hinit.inv.orders hend.noBuddies hinit.noBuddies ha
    · exact fun ha =>
        htiling₀.unique htiling hinit.inv.orders hend.inv.orders hinit.noBuddies hend.noBuddies ha

theorem serve_request {st st' : State} {op : Op} (h : serve st op = some st') :
    Request st op st' := by
  by_cases hsmall : small op = true
  · exact Request.step (serve_step hsmall h)
  · cases op with
    | alloc npages =>
      have hlarge : 512 < npages := by simpa [small] using hsmall
      simp only [serve] at h
      split at h
      case isTrue hn =>
        obtain ⟨order, horder, h⟩ := bind_eq_some_iff.mp h
        obtain ⟨⟨s, page⟩, hrun, h⟩ := bind_eq_some_iff.mp h
        cases h
        exact Request.allocLarge hlarge hn.2 horder hrun
      case isFalse => cases h
    | dup page => exact absurd rfl hsmall
    | undup page => exact absurd rfl hsmall
    | free page => exact absurd rfl hsmall

/-- The calls one by one, as far as they succeed and keep inside. -/
def serveIn (st : State) (c : Call) : Option State :=
  match c.op with
  | .free page => do
    let b ← st.live page
    match pagesFreeIn c.behind st.phys page with
    | .frees s =>
      return ⟨s, update st.live page
        (if b.refs - 1 = 0 then none else some ⟨b.order, b.refs - 1⟩)⟩
    | _ => none
  | op => serve st op

theorem serveIn_serves (st : State) (c : Call) (st' : State) (h : serveIn st c = some st') :
    Serves st c st' := by
  obtain ⟨op, behind⟩ := c
  cases op with
  | free page =>
    simp only [serveIn] at h
    obtain ⟨b, hb, h⟩ := bind_eq_some_iff.mp h
    cases hrun : pagesFreeIn behind st.phys page with
    | frees s =>
      rw [hrun] at h
      cases h
      exact Serves.frees hb hrun
    | fails =>
      rw [hrun] at h
      cases h
    | strays =>
      rw [hrun] at h
      cases h
  | alloc npages => exact Serves.request (fun _ => nofun) (serve_request h)
  | dup page => exact Serves.request (fun _ => nofun) (serve_request h)
  | undup page => exact Serves.request (fun _ => nofun) (serve_request h)

instance (st : State) (c : Call) : Decidable (KeepsInside st c) := by
  obtain ⟨op, behind⟩ := c
  cases op <;> unfold KeepsInside <;> infer_instance

instance (st : State) (c : Call) : Decidable (Merges st c) := by
  obtain ⟨op, behind⟩ := c
  cases op <;> unfold Merges FreesShown <;> infer_instance

/-- Behind the records of the region there is one that shows a block in use. -/
def inUse (op : Op) : Call := ⟨op, fun _ => ⟨0, 1⟩⟩

/-- Page 2 is handed out, then the block of two is split for page 0.  Page 0 is merged with page 1
    again; page 2 has its buddy behind the region. -/
theorem free_blocks_coalesced_three : ∃ st : State, (∀ a, st.live a = none) ∧
    Coalesced st.phys ∧ 0 ∈ st.phys.orderarray 1 ∧ 2 ∈ st.phys.orderarray 0 := by
  have hrun : Leads (guarded Merges serveIn) (start 3) [inUse (.alloc 1), inUse (.alloc 1),
      inUse (.free 0), inUse (.free 2)] fun st => ∀ a < 3, st.live a = none := by
    decide +kernel
  obtain ⟨st, hr, hdropped⟩ := hrun.reaches Serves Merges fun s c s' h =>
    (guarded_step s c s' h).imp_right (serveIn_serves s c s')
  have hnone : ∀ a, st.live a = none := by
    intro a
    by_contra hlive
    obtain ⟨b, hb⟩ := Option.ne_none_iff_exists'.mp hlive
    -- a block that is held lies in the region
    have hapart := apart_of_reaches hr
    have hfits := hapart.inv.tiling.fits a b.order (Tile.ofLive hb)
    have hpos := Nat.two_pow_pos b.order
    rw [hapart.memEnd_eq] at hfits
    exact hlive (hdropped a (by omega))
  obtain ⟨hapart, hback⟩ := free_blocks_coalesced hr
  exact ⟨st, hnone, hapart, (hback hnone 0 1).mpr (by decide +kernel),
    (hback hnone 2 0).mpr (by decide +kernel)⟩

/-- Four single pages, freed in the order 2, 3, 1, 0. -/
def missedMerge : List Op :=
  [.alloc 1, .alloc 1, .alloc 1, .alloc 1, .free 2, .free 3, .free 1, .free 0]

/-- Pages 0, 1 and pages 2, 3 stay apart; nothing is handed out, but the block of four is gone.  The
    loop never strays. -/
theorem missedMerge_not_coalesced :
    ¬ ∀ memEnd st, Reaches Serves KeepsInside (start memEnd) st → Coalesced st.phys ∧
      ((∀ a, st.live a = none) →
        ∀ a k, a ∈ st.phys.orderarray k ↔ a ∈ (buddySystemInit memEnd).orderarray k) := by
  intro hall
  have hrun : Leads (guarded KeepsInside serveIn) (start 4) (missedMerge.map inUse) fun st =>
      0 ∈ st.phys.orderarray 1 ∧ 2 ∈ st.phys.orderarray 1 := by
    decide +kernel
  obtain ⟨st, hr, hleft, hright⟩ := hrun.reaches Serves KeepsInside fun s c s' h =>
    (guarded_step s c s' h).imp_right (serveIn_serves s c s')
  exact (hall 4 st hr).1 1 (by decide) 0 2 hleft hright (by decide)

end Uniks.Phys
