/-
  The invariant of the buddy system.

  The free blocks, the blocks handed out, and, in the middle of a call, the one block in hand tile
  the region (`Dyadic.Tiling`).  What ties the tiling to the records is weak on purpose: a block
  handed out has its own order and count in the record of its head, every other record has count
  zero, and the record of a free head shows an order that is AT MOST the true one (`head_order`).
  Merging and the initialisation leave such a record behind.  It is enough: the buddy of a block of
  order `k` starts a tile of order at most `k`, so if its record shows `k` that is the true order.
-/
import Uniks.Lib.Dyadic
import Uniks.Lib.Runs
import Uniks.Phys

namespace Uniks.Phys

open Uniks.Dyadic Uniks.Runs
open Function (update update_self update_of_ne)
open Option (some bind_eq_some_iff)

abbrev Live := Nat → Option LiveBlock

/-- The blocks: free, handed out, or in hand. -/
def Tile (s : Buddy) (live : Live) (hand : Option (Nat × Nat)) (a k : Nat) : Prop :=
  a ∈ s.orderarray k ∨ (∃ r, live a = some ⟨k, r⟩) ∨ hand = some (a, k)

/-- The invariant, with the block a call has in hand; no record shows an order above `top`. -/
structure BuddyInvTo (top : Nat) (s : Buddy) (live : Live) (hand : Option (Nat × Nat)) : Prop where
  tiling : Tiling s.memEnd (Tile s live hand)
  orders : ∀ a k, a ∈ s.orderarray k → k ≤ 10
  nodup : ∀ k, (s.orderarray k).Nodup
  free_not_live : ∀ a k, a ∈ s.orderarray k → live a = none
  free_not_hand : ∀ a k j, a ∈ s.orderarray k → hand ≠ some (a, j)
  hand_not_live : ∀ a k, hand = some (a, k) → live a = none
  live_record : ∀ a b, live a = some b → s.record a = ⟨b.order, b.refs⟩
  live_bounds : ∀ a b, live a = some b → 1 ≤ b.refs ∧ b.refs < 65536
  idle_count : ∀ a, live a = none → (s.record a).count = 0
  head_order : ∀ a k, a ∈ s.orderarray k → (s.record a).order ≤ k
  small : ∀ a, (s.record a).order ≤ top

/-- Under the kernel's own requests no record shows order 10. -/
abbrev BuddyInv := BuddyInvTo 9

variable {s s' : Buddy} {live live' : Live} {page order top : Nat}

theorem Tile.ofFree {hand : Option (Nat × Nat)} {a k : Nat} (h : a ∈ s.orderarray k) :
    Tile s live hand a k := .inl h

theorem Tile.ofLive {hand : Option (Nat × Nat)} {a : Nat} {b : LiveBlock} (h : live a = some b) :
    Tile s live hand a b.order := .inr (.inl ⟨b.refs, h⟩)

theorem Tile.ofHand {a k : Nat} : Tile s live (some (a, k)) a k := .inr (.inr rfl)

/-- A head is on one list only. -/
theorem BuddyInvTo.free_unique {hand : Option (Nat × Nat)} (h : BuddyInvTo top s live hand)
    {a k j : Nat}
    (hk : a ∈ s.orderarray k) (hj : a ∈ s.orderarray j) : k = j :=
  h.tiling.order_unique (Tile.ofFree hk) (Tile.ofFree hj)

/-! ## Taking a block off a list and putting it back -/

theorem mem_addFront {a k : Nat} :
    a ∈ (s.addFront order page).orderarray k ↔ a ∈ s.orderarray k ∨ (a = page ∧ k = order) := by
  show a ∈ update s.orderarray order (page :: s.orderarray order) k ↔ _
  by_cases hk : k = order
  · subst hk
    rw [update_self, List.mem_cons]
    constructor
    · rintro (rfl | hmem)
      · exact .inr ⟨rfl, rfl⟩
      · exact .inl hmem
    · rintro (hmem | ⟨rfl, -⟩)
      · exact .inr hmem
      · exact .inl rfl
  · rw [update_of_ne hk]
    constructor
    · intro hmem
      exact .inl hmem
    · rintro (hmem | ⟨-, rfl⟩)
      · exact hmem
      · exact absurd rfl hk

/-- The front of a list becomes the block in hand. -/
theorem BuddyInvTo.nextThenDel (h : BuddyInvTo top s live none)
    (hd : s.nextThenDel order = some (s', page)) :
    BuddyInvTo top s' live (some (page, order)) ∧ page ∈ s.orderarray order ∧
      s'.record = s.record ∧ s'.memEnd = s.memEnd := by
  unfold Buddy.nextThenDel at hd
  split at hd
  · cases hd
  · rename_i p pages hlist
    obtain ⟨rfl, rfl⟩ := Prod.mk.inj (some.inj hd)
    have hmem : p ∈ s.orderarray order := by rw [hlist]; exact List.mem_cons_self
    have hnodup := h.nodup order
    rw [hlist, List.nodup_cons] at hnodup
    -- the new lists hold what the old ones held, but for the block taken
    have hlists : ∀ a k, a ∈ update s.orderarray order pages k ↔
        a ∈ s.orderarray k ∧ a ≠ p := by
      intro a k
      by_cases hk : k = order
      · subst hk
        rw [update_self, hlist, List.mem_cons]
        constructor
        · intro ha
          exact ⟨.inr ha, fun heq => hnodup.1 (heq ▸ ha)⟩
        · rintro ⟨rfl | ha, hne⟩
          · exact absurd rfl hne
          · exact ha
      · rw [update_of_ne hk]
        constructor
        · intro ha
          exact ⟨ha, fun heq => hk (h.free_unique (heq ▸ ha) hmem)⟩
        · exact fun ha => ha.1
    have hback : ∀ a k, a ∈ update s.orderarray order pages k → a ∈ s.orderarray k :=
      fun a k ha => ((hlists a k).mp ha).1
    refine ⟨?_, hmem, rfl, rfl⟩
    refine
      { tiling := h.tiling.congr fun a k => ?_
        orders := fun a k ha => h.orders a k (hback a k ha)
        nodup := fun k => ?_
        free_not_live := fun a k ha => h.free_not_live a k (hback a k ha)
        free_not_hand := fun a k j ha heq => ?_
        hand_not_live := fun a k heq => ?_
        live_record := h.live_record
        live_bounds := h.live_bounds
        idle_count := h.idle_count
        head_order := fun a k ha => h.head_order a k (hback a k ha)
        small := h.small }
    · constructor
      · rintro (ha | ha | ha)
        · exact .inl (hback a k ha)
        · exact .inr (.inl ha)
        · cases ha
          exact Or.inl hmem
      · rintro (ha | ha | ha)
        · by_cases hap : a = p
          · subst hap
            obtain rfl := h.free_unique ha hmem
            exact Tile.ofHand
          · exact .inl ((hlists a k).mpr ⟨ha, hap⟩)
        · exact .inr (.inl ha)
        · cases ha
    · by_cases hk : k = order
      · subst hk
        show (update s.orderarray k pages k).Nodup
        rw [update_self]
        exact hnodup.2
      · show (update s.orderarray order pages k).Nodup
        rw [update_of_ne hk]
        exact h.nodup k
    · cases heq
      exact ((hlists _ k).mp ha).2 rfl
    · cases heq
      exact h.free_not_live _ order hmem

/-- The block in hand goes to the front of its list. -/
theorem BuddyInvTo.addFront (h : BuddyInvTo top s live (some (page, order))) (horder : order ≤ 10)
    (hrec : (s.record page).order ≤ order) : BuddyInvTo top (s.addFront order page) live none := by
  have hnot : ∀ k, page ∉ s.orderarray k := fun k hmem => h.free_not_hand page k order hmem rfl
  refine
    { tiling := h.tiling.congr fun a k => ?_
      orders := fun a k ha => ?_
      nodup := fun k => ?_
      free_not_live := fun a k ha => ?_
      free_not_hand := fun _ _ _ _ heq => nomatch heq
      hand_not_live := fun _ _ heq => nomatch heq
      live_record := h.live_record
      live_bounds := h.live_bounds
      idle_count := h.idle_count
      head_order := fun a k ha => ?_
      small := h.small }
  · constructor
    · rintro (ha | ha | ha)
      · rcases mem_addFront.mp ha with hold | ⟨rfl, rfl⟩
        · exact .inl hold
        · exact Tile.ofHand
      · exact .inr (.inl ha)
      · cases ha
    · rintro (ha | ha | ha)
      · exact .inl (mem_addFront.mpr (.inl ha))
      · exact .inr (.inl ha)
      · cases ha
        exact .inl (mem_addFront.mpr (.inr ⟨rfl, rfl⟩))
  · rcases mem_addFront.mp ha with hold | ⟨-, rfl⟩
    · exact h.orders a k hold
    · exact horder
  · show (update s.orderarray order (page :: s.orderarray order) k).Nodup
    by_cases hk : k = order
    · subst hk
      rw [update_self]
      exact List.nodup_cons.mpr ⟨hnot k, h.nodup k⟩
    · rw [update_of_ne hk]
      exact h.nodup k
  · rcases mem_addFront.mp ha with hold | ⟨rfl, -⟩
    · exact h.free_not_live a k hold
    · exact h.hand_not_live a order rfl
  · rcases mem_addFront.mp ha with hold | ⟨rfl, rfl⟩
    · exact h.head_order a k hold
    · exact hrec

/-! ## Handing out -/

/-- A block changes hands: `page` is on no list, and its record says what it is now. -/
theorem BuddyInvTo.setBlock {hand hand' : Option (Nat × Nat)} {o : Option LiveBlock} {r : PageRecord}
    (h : BuddyInvTo top s live hand) (hnot : ∀ k, page ∉ s.orderarray k)
    (hhand : ∀ a k, hand = some (a, k) → a = page)
    (hhand' : ∀ a k, hand' = some (a, k) → a = page ∧ o = none)
    (htile : ∀ k, (∃ refs, o = some ⟨k, refs⟩) ∨ hand' = some (page, k) ↔
      (∃ refs, live page = some ⟨k, refs⟩) ∨ hand = some (page, k))
    (hrec : ∀ b, o = some b → r = ⟨b.order, b.refs⟩ ∧ 1 ≤ b.refs ∧ b.refs < 65536)
    (hidle : o = none → r.count = 0) (horder : r.order ≤ top) :
    BuddyInvTo top (s.setRecord page r) (update live page o) hand' := by
  have hne : ∀ {a k}, a ∈ s.orderarray k → a ≠ page := fun ha heq => hnot _ (heq ▸ ha)
  refine
    { tiling := h.tiling.congr fun a k => ?_
      orders := h.orders
      nodup := h.nodup
      free_not_live := fun a k ha => ?_
      free_not_hand := fun a k j ha heq => hne ha (hhand' a j heq).1
      hand_not_live := fun a k heq => ?_
      live_record := fun a b hb => ?_
      live_bounds := fun a b hb => ?_
      idle_count := fun a ha => ?_
      head_order := fun a k ha => ?_
      small := fun a => ?_ }
  · by_cases hap : a = page
    · subst hap
      unfold Tile
      rw [update_self]
      exact or_congr_right (htile k)
    · have hoff : ∀ {x : Option (Nat × Nat)}, (∀ b j, x = some (b, j) → b = page) →
          ¬ x = some (a, k) := fun hx heq => hap (hx a k heq)
      unfold Tile
      rw [update_of_ne hap]
      simp only [hoff hhand, hoff fun b j heq => (hhand' b j heq).1]
      rfl
  · rw [update_of_ne (hne ha)]
    exact h.free_not_live a k ha
  · obtain ⟨rfl, hnone⟩ := hhand' a k heq
    rw [update_self, hnone]
  · rw [Buddy.setRecord_record]
    by_cases hap : a = page
    · subst hap
      rw [update_self] at hb ⊢
      exact (hrec b hb).1
    · rw [update_of_ne hap] at hb ⊢
      exact h.live_record a b hb
  · by_cases hap : a = page
    · subst hap
      rw [update_self] at hb
      exact (hrec b hb).2
    · rw [update_of_ne hap] at hb
      exact h.live_bounds a b hb
  · rw [Buddy.setRecord_record]
    by_cases hap : a = page
    · subst hap
      rw [update_self] at ha ⊢
      exact hidle ha
    · rw [update_of_ne hap] at ha ⊢
      exact h.idle_count a ha
  · rw [Buddy.setRecord_record, update_of_ne (hne ha)]
    exact h.head_order a k ha
  · rw [Buddy.setRecord_record]
    by_cases hap : a = page
    · rw [hap, update_self]
      exact horder
    · rw [update_of_ne hap]
      exact h.small a

/-- `do_record` hands out the block in hand. -/
theorem BuddyInvTo.doRecord (h : BuddyInvTo top s live (some (page, order)))
    (horder : order ≤ top) :
    ∃ s', Phys.doRecord s page order = some s' ∧ s'.memEnd = s.memEnd ∧
      s'.orderarray = s.orderarray ∧
      BuddyInvTo top s' (update live page (some ⟨order, 1⟩)) none := by
  have hnone := h.hand_not_live page order rfl
  refine ⟨s.setRecord page { order := order, count := 1 }, ?_, rfl, rfl, ?_⟩
  · rw [Phys.doRecord, if_pos (h.idle_count page hnone)]
  refine h.setBlock (fun k hmem => h.free_not_hand page k order hmem rfl) (fun a k heq => ?_)
    (fun _ _ heq => nomatch heq) (fun k => by simp [hnone]) (fun b hb => ?_) (fun heq => nomatch heq)
    horder
  · exact (Prod.mk.inj (some.inj heq)).1.symm
  · cases hb
    exact ⟨rfl, Nat.le_refl 1, by show 1 < 65536; decide⟩

/-- One round of `split_pages`: the right half goes to its list, the left one stays in hand. -/
theorem BuddyInvTo.splitOnce (h : BuddyInvTo top s live (some (page, order + 1)))
    (horder : order ≤ 9) (htop : 9 ≤ top)
    (hs' : s' = (s.addFront order (page + 2 ^ order)).setRecord (page + 2 ^ order)
      { s.record (page + 2 ^ order) with order := order }) :
    (s.record (page + 2 ^ order)).count = 0 ∧ BuddyInvTo top s' live (some (page, order)) := by
  have hpos := Nat.two_pow_pos order
  have hpow : 2 ^ (order + 1) = 2 ^ order + 2 ^ order := by ring
  -- no tile starts at the right half, which lies inside the block in hand
  have hinside : ∀ k, ¬ Tile s live (some (page, order + 1)) (page + 2 ^ order) k := by
    intro k hk
    have hcov : Covers page (order + 1) (page + 2 ^ order) := ⟨by omega, by omega⟩
    have hsame := h.tiling.apart _ _ _ _ _ hk Tile.ofHand (covers_self _ k) hcov
    omega
  have hidle : live (page + 2 ^ order) = none := by
    cases hlive : live (page + 2 ^ order) with
    | none => rfl
    | some b => exact absurd (Tile.ofLive hlive) (hinside b.order)
  have hnotfree : ∀ k, page + 2 ^ order ∉ s.orderarray k := fun k hmem =>
    hinside k (Tile.ofFree hmem)
  have hcount := h.idle_count _ hidle
  refine ⟨hcount, ?_⟩
  subst hs'
  have hlists : ∀ a k, a ∈ ((s.addFront order (page + 2 ^ order)).setRecord (page + 2 ^ order)
        { s.record (page + 2 ^ order) with order := order }).orderarray k ↔
      a ∈ s.orderarray k ∨ (a = page + 2 ^ order ∧ k = order) := fun a k => mem_addFront
  refine
    { tiling := h.tiling.split (a := page) (k := order) Tile.ofHand fun a k => ?_
      orders := fun a k ha => ?_
      nodup := fun k => ?_
      free_not_live := fun a k ha => ?_
      free_not_hand := fun a k j ha heq => ?_
      hand_not_live := fun a k heq => ?_
      live_record := fun a b hb => ?_
      live_bounds := h.live_bounds
      idle_count := fun a ha => ?_
      head_order := fun a k ha => ?_
      small := fun a => ?_ }
  · constructor
    · rintro (ha | ⟨r, ha⟩ | ha)
      · rcases (hlists a k).mp ha with hold | ⟨rfl, rfl⟩
        · refine .inl ⟨.inl hold, ?_⟩
          rintro ⟨rfl, -⟩
          exact h.free_not_hand a k _ hold rfl
        · exact .inr ⟨rfl, .inr rfl⟩
      · refine .inl ⟨.inr (.inl ⟨r, ha⟩), ?_⟩
        rintro ⟨rfl, -⟩
        rw [h.hand_not_live a _ rfl] at ha
        cases ha
      · cases ha
        exact .inr ⟨rfl, .inl rfl⟩
    · rintro (⟨ha | ⟨r, ha⟩ | ha, hne⟩ | ⟨rfl, rfl | rfl⟩)
      · exact .inl ((hlists a k).mpr (.inl ha))
      · exact .inr (.inl ⟨r, ha⟩)
      · cases ha
        exact absurd ⟨rfl, rfl⟩ hne
      · exact Tile.ofHand
      · exact .inl ((hlists _ k).mpr (.inr ⟨rfl, rfl⟩))
  · rcases (hlists a k).mp ha with hold | ⟨-, rfl⟩
    · exact h.orders a k hold
    · omega
  · show (update s.orderarray order _ k).Nodup
    by_cases hk : k = order
    · subst hk
      rw [update_self]
      exact List.nodup_cons.mpr ⟨hnotfree k, h.nodup k⟩
    · rw [update_of_ne hk]
      exact h.nodup k
  · rcases (hlists a k).mp ha with hold | ⟨rfl, -⟩
    · exact h.free_not_live a k hold
    · exact hidle
  · cases heq
    rcases (hlists _ k).mp ha with hold | ⟨hself, -⟩
    · exact h.free_not_hand page k _ hold rfl
    · omega
  · cases heq
    exact h.hand_not_live page _ rfl
  · have hne : a ≠ page + 2 ^ order := fun heq => by rw [heq, hidle] at hb; cases hb
    rw [Buddy.setRecord_record, update_of_ne hne]
    exact h.live_record a b hb
  · rw [Buddy.setRecord_record]
    by_cases hap : a = page + 2 ^ order
    · subst hap
      rw [update_self]
      exact hcount
    · rw [update_of_ne hap]
      exact h.idle_count a ha
  · rw [Buddy.setRecord_record]
    rcases (hlists a k).mp ha with hold | ⟨rfl, rfl⟩
    · have hne : a ≠ page + 2 ^ order := fun heq => hnotfree k (heq ▸ hold)
      rw [update_of_ne hne]
      exact h.head_order a k hold
    · rw [update_self]
  · rw [Buddy.setRecord_record]
    by_cases hap : a = page + 2 ^ order
    · subst hap
      rw [update_self]
      exact horder.trans htop
    · rw [update_of_ne hap]
      exact h.small a

/-- The loop of `split_pages` leaves a block of the order asked for. -/
theorem BuddyInvTo.splitPages {target this : Nat} (h : BuddyInvTo top s live (some (page, this)))
    (hle : target ≤ this) (hthis : this ≤ 10) (htop : 9 ≤ top) :
    ∃ s', Phys.splitPages page target this s = some s' ∧ s'.memEnd = s.memEnd ∧
      BuddyInvTo top s' live (some (page, target)) := by
  induction this generalizing s with
  | zero =>
    obtain rfl := Nat.le_zero.mp hle
    exact ⟨s, rfl, rfl, h⟩
  | succ this ih =>
    rw [Phys.splitPages]
    by_cases heq : this + 1 = target
    · subst heq
      rw [if_pos rfl]
      exact ⟨s, rfl, rfl, h⟩
    · rw [if_neg heq]
      obtain ⟨hcount, h'⟩ := h.splitOnce (by omega) htop rfl
      obtain ⟨s', hrun, hmem, hinv⟩ := ih h' (by omega) (by omega)
      refine ⟨s', ?_, hmem, hinv⟩
      exact (if_pos hcount).trans hrun

theorem getPower2_spec {n : Nat} (h : getPower2 n = some order) :
    n ≤ 2 ^ order ∧ ∀ j, j < order → ¬ n ≤ 2 ^ j := by
  obtain ⟨hle, -, hmin⟩ := List.find?_range_eq_some.mp h
  refine ⟨of_decide_eq_true hle, fun j hj hn => ?_⟩
  have hfalse := hmin j hj
  rw [decide_eq_true hn] at hfalse
  cases hfalse

/-- The kernel's requests need at most order 9. -/
theorem getPower2_le {n : Nat} (h : getPower2 n = some order) (hn : n ≤ 512) : order ≤ 9 := by
  by_contra hgt
  exact (getPower2_spec h).2 9 (by omega) hn

theorem splitPages_self (page order : Nat) (s : Buddy) :
    Phys.splitPages page order order s = some s := by
  cases order with
  | zero => exact if_pos rfl
  | succ order => exact if_pos rfl

/-- `pages_alloc` takes a block off a list, splits it down to the order asked for, if it is larger, and
    records it. -/
theorem pagesAlloc_cases {npages : Nat} (ha : Phys.pagesAlloc s npages = some (s', page)) :
    ∃ order i s₁ s₂, getPower2 npages = some order ∧ order ≤ i ∧ s.nextThenDel i = some (s₁, page) ∧
      Phys.splitPages page order i s₁ = some s₂ ∧ Phys.doRecord s₂ page order = some s' := by
  unfold Phys.pagesAlloc at ha
  split at ha
  · obtain ⟨order, horder, ha⟩ := bind_eq_some_iff.mp ha
    split at ha
    · obtain ⟨i, hi, ha⟩ := bind_eq_some_iff.mp ha
      obtain ⟨⟨s₁, p⟩, hnext, ha⟩ := bind_eq_some_iff.mp ha
      obtain ⟨s₂, hsplit, ha⟩ := bind_eq_some_iff.mp ha
      obtain ⟨s₃, hrec, ha⟩ := bind_eq_some_iff.mp ha
      cases ha
      have hlarger := List.find?_some hi
      rw [Bool.and_eq_true, decide_eq_true_eq] at hlarger
      exact ⟨order, i, s₁, s₂, horder, Nat.le_of_lt hlarger.1, hnext, hsplit, hrec⟩
    · obtain ⟨⟨s₁, p⟩, hnext, ha⟩ := bind_eq_some_iff.mp ha
      obtain ⟨s₂, hrec, ha⟩ := bind_eq_some_iff.mp ha
      obtain ⟨rfl, rfl⟩ := Prod.mk.inj (some.inj ha)
      exact ⟨order, order, s₁, s₁, horder, Nat.le_refl order, hnext, splitPages_self p order s₁, hrec⟩
  · cases ha

/-- What `pages_alloc` hands out was not handed out before, and is large enough. -/
theorem BuddyInvTo.pagesAlloc {npages : Nat} (h : BuddyInvTo top s live none) (htop : 9 ≤ top)
    (hmax : ∀ order, getPower2 npages = some order → order ≤ top)
    (ha : Phys.pagesAlloc s npages = some (s', page)) :
    ∃ order, getPower2 npages = some order ∧ live page = none ∧ s'.memEnd = s.memEnd ∧
      BuddyInvTo top s' (update live page (some ⟨order, 1⟩)) none := by
  obtain ⟨order, i, s₁, s₂, horder, hle, hnext, hsplit, hrec⟩ := pagesAlloc_cases ha
  obtain ⟨h₁, hmem, -, hend₁⟩ := h.nextThenDel hnext
  obtain ⟨s₂', hsplit', hend₂, h₂⟩ := h₁.splitPages hle (h.orders page i hmem) htop
  cases hsplit.symm.trans hsplit'
  obtain ⟨s₃, hrec', hend₃, -, h₃⟩ := h₂.doRecord (hmax order horder)
  cases hrec.symm.trans hrec'
  exact ⟨order, horder, h.free_not_live page i hmem, hend₃.trans (hend₂.trans hend₁), h₃⟩

/-! ## References -/

/-- A block that is handed out is on no list, and its record shows no order above the highest. -/
theorem BuddyInvTo.live_block {hand : Option (Nat × Nat)} (h : BuddyInvTo top s live hand)
    {b : LiveBlock} (hb : live page = some b) :
    (∀ k, page ∉ s.orderarray k) ∧ b.order ≤ top := by
  refine ⟨fun k hmem => ?_, ?_⟩
  · have hnone := h.free_not_live page k hmem
    rw [hb] at hnone
    cases hnone
  · have hsmall := h.small page
    rw [h.live_record page b hb] at hsmall
    exact hsmall

/-- The count of a block that stays handed out changes. -/
theorem BuddyInvTo.recount (h : BuddyInvTo top s live none) {b : LiveBlock} {refs : Nat}
    (hb : live page = some b) (hpos : 1 ≤ refs) (hfew : refs < 65536) :
    BuddyInvTo top (s.setRecord page { order := b.order, count := refs })
      (update live page (some ⟨b.order, refs⟩)) none := by
  obtain ⟨hnot, horder⟩ := h.live_block hb
  refine h.setBlock hnot (fun _ _ heq => nomatch heq) (fun _ _ heq => nomatch heq) (fun k => ?_)
    (fun c hc => ?_) (fun heq => nomatch heq) horder
  · obtain ⟨j, refs'⟩ := b
    simp [hb]
  · cases hc
    exact ⟨rfl, hpos, hfew⟩

/-- `pages_dup` on a block that is held succeeds and counts one reference more. -/
theorem BuddyInvTo.pagesDup (h : BuddyInvTo top s live none) {b : LiveBlock}
    (hb : live page = some b) (hfew : b.refs + 1 < 65536) :
    ∃ s', Phys.pagesDup s page = some s' ∧ s'.memEnd = s.memEnd ∧ s'.orderarray = s.orderarray ∧
      BuddyInvTo top s' (update live page (some ⟨b.order, b.refs + 1⟩)) none := by
  have hrec := h.live_record page b hb
  have hpos := (h.live_bounds page b hb).1
  refine ⟨s.setRecord page { order := b.order, count := b.refs + 1 }, ?_, rfl, rfl,
    h.recount hb (by omega) hfew⟩
  simp only [Phys.pagesDup, hrec, if_pos hpos, u16, Nat.mod_eq_of_lt hfew]

/-- `pages_undup` on a block that is held tells how many references there were, and takes one
    away unless it is the last. -/
theorem BuddyInvTo.pagesUndup (h : BuddyInvTo top s live none) {b : LiveBlock}
    (hb : live page = some b) :
    ∃ s', Phys.pagesUndup s page = some (s', b.refs) ∧ s'.memEnd = s.memEnd ∧
      s'.orderarray = s.orderarray ∧ BuddyInvTo top s'
        (if b.refs > 1 then update live page (some ⟨b.order, b.refs - 1⟩) else live)
        none := by
  have hrec := h.live_record page b hb
  obtain ⟨hpos, hfew⟩ := h.live_bounds page b hb
  by_cases hmany : b.refs > 1
  · refine ⟨s.setRecord page { order := b.order, count := b.refs - 1 }, ?_, rfl, rfl, ?_⟩
    · simp only [Phys.pagesUndup, hrec, if_pos hpos, if_pos hmany]
    · rw [if_pos hmany]
      exact h.recount hb (by omega) (by omega)
  · refine ⟨s, ?_, rfl, rfl, ?_⟩
    · simp only [Phys.pagesUndup, hrec, if_pos hpos, if_neg hmany]
    · rw [if_neg hmany]
      exact h

/-! ## Freeing -/

/-- `whois_buddy` finds the other half of the parent. -/
theorem whoisBuddy_spec (h : 2 ^ order ∣ page) :
    ∃ b p, whoisBuddy page order = some b ∧ 2 ^ (order + 1) ∣ p ∧
      ((page = p ∧ b = p + 2 ^ order) ∨ (page = p + 2 ^ order ∧ b = p)) := by
  have hpos := Nat.two_pow_pos order
  rcases parent_cases h with ⟨hmod, hp⟩ | ⟨hmod, hp⟩
  · refine ⟨page + 2 ^ order, page, ?_, hp ▸ parent_aligned page order, .inl ⟨rfl, rfl⟩⟩
    rw [whoisBuddy, Nat.and_two_pow_sub_one_eq_mod, if_pos hmod]
  · refine ⟨page - 2 ^ order, parent page order, ?_, parent_aligned page order,
      Or.inr ⟨hp, by omega⟩⟩
    rw [whoisBuddy, Nat.and_two_pow_sub_one_eq_mod, hmod, if_neg (by omega), if_pos rfl]

/-- The last reference is gone: the block is in hand again. -/
theorem BuddyInvTo.drop (h : BuddyInvTo top s live none) {b : LiveBlock} (hb : live page = some b) :
    BuddyInvTo top (s.setRecord page { order := b.order, count := 0 })
      (update live page none) (some (page, b.order)) := by
  obtain ⟨hnot, horder⟩ := h.live_block hb
  refine h.setBlock hnot (fun _ _ heq => nomatch heq) (fun a k heq => ?_) (fun k => ?_)
    (fun _ hc => nomatch hc) (fun _ => rfl) horder
  · exact ⟨(Prod.mk.inj (some.inj heq)).1.symm, rfl⟩
  · obtain ⟨j, refs⟩ := b
    simp [hb]

theorem order_of_buddyFree {b : Nat} (hfree : buddyFree s b order = true) :
    (s.record b).order = order := by
  unfold buddyFree at hfree
  rw [Bool.and_eq_true, beq_iff_eq] at hfree
  exact hfree.2

/-- The merged block begins at the lower of its halves. -/
theorem min_of_sides {b p : Nat}
    (hsides : (page = p ∧ b = p + 2 ^ order) ∨ (page = p + 2 ^ order ∧ b = p)) :
    min page b = p := by
  rcases hsides with ⟨rfl, rfl⟩ | ⟨rfl, rfl⟩
  · exact Nat.min_eq_left (Nat.le_add_right _ _)
  · exact Nat.min_eq_right (Nat.le_add_right _ _)

/-- The test of `pages_free` is never fooled by a stale record: a buddy that passes it is a free
    block of that order. -/
theorem BuddyInvTo.buddy_mem (h : BuddyInvTo top s live (some (page, order))) {b p : Nat}
    (hp : 2 ^ (order + 1) ∣ p)
    (hsides : (page = p ∧ b = p + 2 ^ order) ∨ (page = p + 2 ^ order ∧ b = p))
    (hfree : buddyFree s b order = true) : b ∈ s.orderarray order := by
  unfold buddyFree at hfree
  rw [Bool.and_eq_true, Bool.and_eq_true, decide_eq_true_eq, beq_iff_eq, beq_iff_eq] at hfree
  obtain ⟨⟨hin, hcount⟩, hrec⟩ := hfree
  have hpos := Nat.two_pow_pos order
  have hne : b ≠ page := by
    rcases hsides with ⟨rfl, rfl⟩ | ⟨rfl, rfl⟩ <;> omega
  have hpage : page = p ∨ page = p + 2 ^ order := by
    rcases hsides with ⟨hl, -⟩ | ⟨hr, -⟩
    · exact .inl hl
    · exact .inr hr
  have hbuddy : b = p ∨ b = p + 2 ^ order := by
    rcases hsides with ⟨-, hr⟩ | ⟨-, hl⟩
    · exact .inr hr
    · exact .inl hl
  obtain ⟨j, hj, htile⟩ := h.tiling.buddy Tile.ofHand hp hpage hbuddy hne hin
  rcases htile with hmem | ⟨r, hlive⟩ | hhand
  · -- a free head of order `j ≤ order` whose record shows `order`
    have hle := h.head_order b j hmem
    obtain rfl : j = order := by omega
    exact hmem
  · have hlrec := h.live_record b _ hlive
    have hbounds := (h.live_bounds b _ hlive).1
    rw [hlrec] at hcount
    simp only at hcount hbounds
    omega
  · obtain ⟨heq, -⟩ := Prod.mk.inj (some.inj hhand)
    exact absurd heq.symm hne

theorem listDel_eq {k : Nat} (hk : k ≤ 10) (hmem : page ∈ s.orderarray k) :
    s.listDel page = some { s with orderarray := fun k => (s.orderarray k).erase page } := by
  refine if_pos (List.any_eq_true.mpr ⟨k, List.mem_range.mpr (by omega), ?_⟩)
  exact List.contains_iff_mem.mpr hmem

/-- One round of the merge loop. -/
theorem BuddyInvTo.mergeOnce (h : BuddyInvTo top s live (some (page, order))) {b p : Nat}
    (hp : 2 ^ (order + 1) ∣ p)
    (hsides : (page = p ∧ b = p + 2 ^ order) ∨ (page = p + 2 ^ order ∧ b = p))
    (hmem : b ∈ s.orderarray order) :
    BuddyInvTo top { s with orderarray := fun k => (s.orderarray k).erase b } live
      (some (p, order + 1)) := by
  have hpos := Nat.two_pow_pos order
  have hne : b ≠ page := by
    rcases hsides with ⟨rfl, rfl⟩ | ⟨rfl, rfl⟩ <;> omega
  have hlists : ∀ a k, a ∈ (s.orderarray k).erase b ↔ a ∈ s.orderarray k ∧ a ≠ b := by
    intro a k
    rw [(h.nodup k).mem_erase_iff, and_comm]
  have hidle : live p = none := by
    rcases hsides with ⟨rfl, -⟩ | ⟨-, rfl⟩
    · exact h.hand_not_live _ _ rfl
    · exact h.free_not_live _ _ hmem
  have hhalves : ∀ a, Halves p order a order ↔ a = page ∨ a = b := by
    intro a
    rcases hsides with ⟨rfl, rfl⟩ | ⟨rfl, rfl⟩
    · exact ⟨fun hc => hc.2, fun hc => ⟨rfl, hc⟩⟩
    · exact ⟨fun hc => hc.2.symm, fun hc => ⟨rfl, hc.symm⟩⟩
  have htiles : ∀ a, a = page ∨ a = b → Tile s live (some (page, order)) a order := by
    rintro a (rfl | rfl)
    · exact Tile.ofHand
    · exact Tile.ofFree hmem
  refine
    { tiling := ?_
      orders := fun a k ha => h.orders a k ((hlists a k).mp ha).1
      nodup := fun k => (h.nodup k).erase b
      free_not_live := fun a k ha => h.free_not_live a k ((hlists a k).mp ha).1
      free_not_hand := fun a k j ha heq => ?_
      hand_not_live := fun a k heq => ?_
      live_record := h.live_record
      live_bounds := h.live_bounds
      idle_count := h.idle_count
      head_order := fun a k ha => h.head_order a k ((hlists a k).mp ha).1
      small := h.small }
  · refine h.tiling.merge hp (htiles p ((hhalves p).mp ⟨rfl, .inl rfl⟩))
      (htiles _ ((hhalves _).mp ⟨rfl, .inr rfl⟩)) fun a k => ?_
    constructor
    · rintro (ha | ⟨r, ha⟩ | ha)
      · obtain ⟨hold, hab⟩ := (hlists a k).mp ha
        refine .inl ⟨.inl hold, ?_⟩
        rintro ⟨rfl, hhalf⟩
        rcases (hhalves a).mp ⟨rfl, hhalf⟩ with rfl | rfl
        · exact h.free_not_hand _ _ _ hold rfl
        · exact hab rfl
      · refine .inl ⟨.inr (.inl ⟨r, ha⟩), ?_⟩
        rintro ⟨rfl, hhalf⟩
        rcases (hhalves a).mp ⟨rfl, hhalf⟩ with rfl | rfl
        · rw [h.hand_not_live _ _ rfl] at ha
          cases ha
        · rw [h.free_not_live _ _ hmem] at ha
          cases ha
      · cases ha
        exact .inr ⟨rfl, rfl⟩
    · rintro (⟨ha | ⟨r, ha⟩ | ha, hnot⟩ | ⟨rfl, rfl⟩)
      · refine .inl ((hlists a k).mpr ⟨ha, ?_⟩)
        rintro rfl
        obtain rfl := h.free_unique ha hmem
        exact hnot ((hhalves a).mpr (.inr rfl))
      · exact .inr (.inl ⟨r, ha⟩)
      · cases ha
        exact absurd ((hhalves page).mpr (.inl rfl)) hnot
      · exact Tile.ofHand
  · cases heq
    obtain ⟨hold, hab⟩ := (hlists _ k).mp ha
    rcases hsides with ⟨rfl, -⟩ | ⟨-, rfl⟩
    · exact h.free_not_hand _ _ _ hold rfl
    · exact hab rfl
  · cases heq
    exact hidle

/-- The merge loop ends: no record shows order 10, so it never looks for a list beyond it. -/
theorem BuddyInv.mergePages {left : Nat} (h : BuddyInv s live (some (page, order)))
    (hrec : (s.record page).order ≤ order) (hleft : left + order = 11) (horder : order ≤ 10) :
    ∃ s', Phys.mergePages left s page order = some s' ∧ s'.memEnd = s.memEnd ∧
      BuddyInv s' live none := by
  induction left generalizing s page order with
  | zero => omega
  | succ left ih =>
    have hal := h.tiling.aligned page order Tile.ofHand
    obtain ⟨b, p, hwho, hp, hsides⟩ := whoisBuddy_spec hal
    rw [Phys.mergePages, hwho]
    by_cases hfree : buddyFree s b order = true
    · have hmem := h.buddy_mem hp hsides hfree
      have hmerged := h.mergeOnce hp hsides hmem
      have hmin : min page b = p := min_of_sides hsides
      have hshown : (s.record b).order = order := order_of_buddyFree hfree
      have hnine : order ≤ 9 := hshown ▸ h.small b
      have hrec' : (s.record p).order ≤ order + 1 := by
        rcases hsides with ⟨rfl, -⟩ | ⟨-, rfl⟩
        · omega
        · omega
      obtain ⟨s', hrun, hend, hinv⟩ := ih hmerged hrec' (by omega) (by omega)
      refine ⟨s', ?_, hend, hinv⟩
      simp only [Option.bind_eq_bind, Option.bind_some, if_pos hfree,
        listDel_eq horder hmem, hmin]
      exact hrun
    · refine ⟨s.addFront order page, ?_, rfl, h.addFront horder hrec⟩
      simp only [Option.bind_eq_bind, Option.bind_some, if_neg hfree]
      rfl

/-- `pages_free` on a block that is held succeeds; the lists change exactly with the last
    reference. -/
theorem BuddyInv.pagesFree (h : BuddyInv s live none) {b : LiveBlock} (hb : live page = some b) :
    ∃ s', Phys.pagesFree s page = some s' ∧ s'.memEnd = s.memEnd ∧
      (b.refs ≠ 1 → s'.orderarray = s.orderarray) ∧
      BuddyInv s' (update live page
        (if b.refs - 1 = 0 then none else some ⟨b.order, b.refs - 1⟩)) none := by
  have hrec := h.live_record page b hb
  obtain ⟨hpos, hfew⟩ := h.live_bounds page b hb
  have horder : b.order ≤ 9 := (h.live_block hb).2
  unfold Phys.pagesFree
  have hheld : b.refs > 0 := hpos
  simp only [hrec]
  rw [if_pos hheld]
  by_cases hlast : b.refs - 1 = 0
  · rw [if_pos hlast, if_pos hlast, hlast]
    have hhand : BuddyInv _ _ _ := h.drop hb
    have hshown : ((s.setRecord page { order := b.order, count := 0 }).record page).order
        ≤ b.order := by
      rw [Buddy.setRecord_record, update_self]
    have hleft : 11 - b.order + b.order = 11 := by omega
    obtain ⟨s', hrun, hend, hinv⟩ := hhand.mergePages hshown hleft (by omega)
    exact ⟨s', hrun, hend, fun hne => absurd (by omega) hne, hinv⟩
  · rw [if_neg hlast, if_neg hlast]
    exact ⟨_, rfl, rfl, fun _ => rfl, h.recount hb (by omega) (by omega)⟩

/-! ## Initialisation -/

/-- The blocks mounted so far tile the region up to `current`, and the records are clear. -/
structure Mounted (current : Nat) (s : Buddy) : Prop where
  tiling : Tiling current fun a k => a ∈ s.orderarray k
  orders : ∀ a k, a ∈ s.orderarray k → k ≤ 10
  nodup : ∀ k, (s.orderarray k).Nodup
  record : ∀ a, s.record a = ⟨0, 0⟩

theorem Mounted.addFront {current : Nat} (h : Mounted current s) (hal : 2 ^ order ∣ current)
    (horder : order ≤ 10) : Mounted (current + 2 ^ order) (s.addFront order current) := by
  have hnew : ∀ k, current ∉ s.orderarray k := by
    intro k hmem
    have hfit := h.tiling.fits current k hmem
    have hpos := Nat.two_pow_pos k
    omega
  refine ⟨h.tiling.snoc hal fun a k => mem_addFront, fun a k ha => ?_, fun k => ?_, h.record⟩
  · rcases mem_addFront.mp ha with hold | ⟨-, rfl⟩
    · exact h.orders a k hold
    · exact horder
  · show (update s.orderarray order (current :: s.orderarray order) k).Nodup
    by_cases hk : k = order
    · subst hk
      rw [update_self]
      exact List.nodup_cons.mpr ⟨hnew k, h.nodup k⟩
    · rw [update_of_ne hk]
      exact h.nodup k

/-- The loop stops when no block of its order fits any more. -/
theorem Mounted.mountLoop {current : Nat} (h : Mounted current s) (hal : 2 ^ order ∣ current)
    (hcur : current ≤ s.memEnd) (horder : order ≤ 10) :
    Mounted (Phys.mountLoop order current s).1 (Phys.mountLoop order current s).2 ∧
      2 ^ order ∣ (Phys.mountLoop order current s).1 ∧
      (Phys.mountLoop order current s).1 ≤ s.memEnd ∧
      s.memEnd < (Phys.mountLoop order current s).1 + 2 ^ order ∧
      (Phys.mountLoop order current s).2.memEnd = s.memEnd := by
  induction current, s using Phys.mountLoop.induct order with
  | case1 current s hroom ih =>
    rw [Phys.mountLoop, if_pos hroom]
    exact ih (h.addFront hal horder) (Nat.dvd_add hal (Nat.dvd_refl _)) hroom
  | case2 current s hfull =>
    rw [Phys.mountLoop, if_neg hfull]
    exact ⟨h, hal, hcur, Nat.lt_of_not_le hfull, rfl⟩

/-- Going down to order 0 leaves no page out. -/
theorem Mounted.mountOrderlist {current : Nat} (h : Mounted current s) (hal : 2 ^ order ∣ current)
    (hcur : current ≤ s.memEnd) (horder : order ≤ 10) :
    Mounted s.memEnd (Phys.mountOrderlist order current s) ∧
      (Phys.mountOrderlist order current s).memEnd = s.memEnd := by
  induction order generalizing current s with
  | zero =>
    obtain ⟨hm, -, hle, hlt, hend⟩ := h.mountLoop hal hcur horder
    have hall : (Phys.mountLoop 0 current s).1 = s.memEnd := by
      rw [Nat.pow_zero] at hlt
      omega
    rw [hall] at hm
    exact ⟨hm, hend⟩
  | succ order ih =>
    obtain ⟨hm, hal', hle, hlt, hend⟩ := h.mountLoop hal hcur horder
    rw [Phys.mountOrderlist]
    by_cases hdone : (Phys.mountLoop (order + 1) current s).1
        ≠ (Phys.mountLoop (order + 1) current s).2.memEnd
    · have hhalf : 2 ^ order ∣ (Phys.mountLoop (order + 1) current s).1 :=
        Nat.dvd_trans (Nat.pow_dvd_pow 2 (Nat.le_succ order)) hal'
      have hrest := ih hm hhalf (by omega) (by omega)
      simp only [if_pos hdone]
      rw [hend] at hrest
      exact hrest
    · simp only [if_neg hdone]
      rw [ne_eq, not_not] at hdone
      rw [hdone, hend] at hm
      exact ⟨hm, hend⟩

/-- `buddy_system_init` on a region of any number of pages. -/
theorem buddySystemInit_inv (memEnd : Nat) :
    BuddyInv (buddySystemInit memEnd) (fun _ => none) none ∧
      (buddySystemInit memEnd).memEnd = memEnd := by
  have hstart : Mounted 0 (⟨memEnd, fun _ => [], fun _ => ⟨0, 0⟩⟩ : Buddy) :=
    ⟨Tiling.empty.congr fun a k => ⟨List.not_mem_nil, False.elim⟩,
      fun _ _ h => absurd h List.not_mem_nil, fun _ => List.nodup_nil, fun _ => rfl⟩
  obtain ⟨hm, hend⟩ := hstart.mountOrderlist (Nat.dvd_zero (2 ^ 10)) (Nat.zero_le memEnd)
    (Nat.le_refl 10)
  have hrecord : ∀ a, (buddySystemInit memEnd).record a = ⟨0, 0⟩ := hm.record
  refine ⟨?_, hend⟩
  refine
    { tiling := ?_
      orders := hm.orders
      nodup := hm.nodup
      free_not_live := fun _ _ _ => rfl
      free_not_hand := fun _ _ _ _ heq => nomatch heq
      hand_not_live := fun _ _ heq => nomatch heq
      live_record := fun _ _ hb => nomatch hb
      live_bounds := fun _ _ hb => nomatch hb
      idle_count := fun a _ => by rw [hrecord]
      head_order := fun a k _ => by rw [hrecord]; exact Nat.zero_le k
      small := fun a => by rw [hrecord]; exact Nat.zero_le 9 }
  have htiling : Tiling (buddySystemInit memEnd).memEnd
      fun a k => a ∈ (buddySystemInit memEnd).orderarray k := hend.symm ▸ hm.tiling
  refine htiling.congr fun a k => ?_
  constructor
  · rintro (ha | ⟨r, ha⟩ | ha)
    · exact ha
    · cases ha
    · cases ha
  · exact fun ha => .inl ha

/-! ## Runs -/

/-- Every request keeps the invariant. -/
theorem BuddyInv.step {st st' : State} {op : Op} (h : BuddyInv st.phys st.live none)
    (hs : Step st op st') :
    BuddyInv st'.phys st'.live none ∧ st'.phys.memEnd = st.phys.memEnd := by
  cases hs with
  | alloc hmin hmax horder hrun =>
    obtain ⟨order, horder', -, hend, hinv⟩ :=
      h.pagesAlloc (Nat.le_refl 9) (fun _ ho => getPower2_le ho hmax) hrun
    cases horder.symm.trans horder'
    exact ⟨hinv, hend⟩
  | dup hlive hfew hrun =>
    obtain ⟨s', hrun', hend, -, hinv⟩ := h.pagesDup hlive hfew
    cases hrun.symm.trans hrun'
    exact ⟨hinv, hend⟩
  | undup hlive hrun =>
    obtain ⟨s', hrun', hend, -, hinv⟩ := h.pagesUndup hlive
    cases hrun.symm.trans hrun'
    exact ⟨hinv, hend⟩
  | free hlive hrun =>
    obtain ⟨s', hrun', hend, -, hinv⟩ := h.pagesFree hlive
    cases hrun.symm.trans hrun'
    exact ⟨hinv, hend⟩

theorem BuddyInv.reaches {memEnd : Nat} {st : State} (hr : Reaches Step anyInput (start memEnd) st) :
    BuddyInv st.phys st.live none ∧ st.phys.memEnd = memEnd := by
  refine hr.invariant (I := fun st => BuddyInv st.phys st.live none ∧ st.phys.memEnd = memEnd)
    (buddySystemInit_inv memEnd) fun a op b ha _ hs => ?_
  obtain ⟨hinv, hend⟩ := ha.1.step hs
  exact ⟨hinv, hend.trans ha.2⟩

/-! ## The partition -/

/-- The two kinds of block between calls. -/
inductive Kind where
  | free
  | live
  deriving DecidableEq

/-- The blocks on the order lists, and the blocks handed out. -/
def IsBlock (st : State) : Kind → Nat → Nat → Prop
  | .free, a, k => a ∈ st.phys.orderarray k
  | .live, a, k => ∃ refs, st.live a = some ⟨k, refs⟩

/-- The blocks partition the region of `memEnd` pages: every page lies in exactly one block, each
    free block is on its list once, and a block of order `k` starts at a multiple of `2^k`. -/
structure Partition (memEnd : Nat) (st : State) : Prop where
  pages : ∀ x, x < memEnd →
    ∃! b : Kind × Nat × Nat, IsBlock st b.1 b.2.1 b.2.2 ∧ Covers b.2.1 b.2.2 x
  once : ∀ k, (st.phys.orderarray k).Nodup
  aligned : ∀ kind a k, IsBlock st kind a k → 2 ^ k ∣ a ∧ a + 2 ^ k ≤ memEnd

theorem BuddyInv.partition {st : State} (h : BuddyInv st.phys st.live none) :
    Partition st.phys.memEnd st := by
  have htile : ∀ kind a k, IsBlock st kind a k → Tile st.phys st.live none a k := by
    intro kind a k hb
    cases kind with
    | free => exact .inl hb
    | live => exact .inr (.inl hb)
  have hkind : ∀ kind kind' a k, IsBlock st kind a k → IsBlock st kind' a k → kind = kind' := by
    intro kind kind' a k hb hb'
    cases kind with
    | free =>
      cases kind' with
      | free => rfl
      | live =>
        obtain ⟨r, hr⟩ := hb'
        rw [h.free_not_live a k hb] at hr
        cases hr
    | live =>
      cases kind' with
      | live => rfl
      | free =>
        obtain ⟨r, hr⟩ := hb
        rw [h.free_not_live a k hb'] at hr
        cases hr
  refine ⟨fun x hx => ?_, h.nodup, fun kind a k hb => ?_⟩
  · obtain ⟨a, k, ht, hcov⟩ := h.tiling.cover x hx
    obtain ⟨kind, hb⟩ : ∃ kind, IsBlock st kind a k := by
      rcases ht with hfree | hlive | hhand
      · exact ⟨.free, hfree⟩
      · exact ⟨.live, hlive⟩
      · cases hhand
    refine ⟨(kind, a, k), ⟨hb, hcov⟩, ?_⟩
    rintro ⟨kind', a', k'⟩ ⟨hb', hcov'⟩
    obtain ⟨rfl, rfl⟩ := h.tiling.apart a' k' a k x (htile _ _ _ hb') (htile _ _ _ hb) hcov' hcov
    rw [hkind kind' kind a' k' hb' hb]
  · exact ⟨h.tiling.aligned a k (htile _ _ _ hb), h.tiling.fits a k (htile _ _ _ hb)⟩

/-- What the requests do from `st`: an allocation hands out a block that is large enough and was
    free, taking a reference leaves the lists alone, and giving one back puts the block on the
    lists if and only if it was the last. -/
structure Served (st : State) : Prop where
  alloc : ∀ n s' page, 1 ≤ n → n ≤ 512 → pagesAlloc st.phys n = some (s', page) →
    st.live page = none ∧ ∃ order, n ≤ 2 ^ order ∧ s'.record page = ⟨order, 1⟩ ∧
      Step st (.alloc n) ⟨s', update st.live page (some ⟨order, 1⟩)⟩
  count : ∀ page b, st.live page = some b → (st.phys.record page).count = b.refs
  dup : ∀ page b, st.live page = some b → b.refs + 1 < 65536 →
    ∃ s', pagesDup st.phys page = some s' ∧ s'.orderarray = st.phys.orderarray
  undup : ∀ page b, st.live page = some b →
    ∃ s', pagesUndup st.phys page = some (s', b.refs) ∧ s'.orderarray = st.phys.orderarray
  free : ∀ page b, st.live page = some b → ∃ s', pagesFree st.phys page = some s' ∧
    ((∃ a k, a ∈ s'.orderarray k ∧ Covers a k page) ↔ b.refs = 1)

theorem BuddyInv.served {st : State} (h : BuddyInv st.phys st.live none) : Served st := by
  refine ⟨fun n s' page hmin hmax hrun => ?_, fun page b hb => ?_, fun page b hb hfew => ?_,
    fun page b hb => ?_, fun page b hb => ?_⟩
  · obtain ⟨order, horder, hnone, -, hinv⟩ :=
      h.pagesAlloc (Nat.le_refl 9) (fun _ ho => getPower2_le ho hmax) hrun
    exact ⟨hnone, order, (getPower2_spec horder).1,
      hinv.live_record page _ (update_self ..), Step.alloc hmin hmax horder hrun⟩
  · rw [h.live_record page b hb]
  · obtain ⟨s', hrun, -, hlists, -⟩ := h.pagesDup hb hfew
    exact ⟨s', hrun, hlists⟩
  · obtain ⟨s', hrun, -, hlists, -⟩ := h.pagesUndup hb
    exact ⟨s', hrun, hlists⟩
  · obtain ⟨s', hrun, hend, -, hinv⟩ := h.pagesFree hb
    obtain ⟨hpos, -⟩ := h.live_bounds page b hb
    refine ⟨s', hrun, ?_⟩
    constructor
    · rintro ⟨a, k, hmem, hcov⟩
      by_contra hmany
      -- the block is still handed out, so its page lies in no free block
      have hstill := update_self page
        (if b.refs - 1 = 0 then none else some ⟨b.order, b.refs - 1⟩) st.live
      rw [if_neg (by omega : ¬ b.refs - 1 = 0)] at hstill
      rw [if_neg (by omega : ¬ b.refs - 1 = 0)] at hinv
      obtain ⟨rfl, -⟩ := hinv.tiling.apart _ _ _ _ page (Tile.ofFree hmem) (Tile.ofLive hstill)
        hcov (covers_self page _)
      have hnone := hinv.free_not_live a k hmem
      rw [hstill] at hnone
      cases hnone
    · intro hone
      have hfits := h.tiling.fits page b.order (Tile.ofLive hb)
      have hpow := Nat.two_pow_pos b.order
      obtain ⟨a, k, htile, hcov⟩ := hinv.tiling.cover page (by omega)
      rw [if_pos (by omega : b.refs - 1 = 0)] at htile
      rcases htile with hmem | ⟨r, hlive⟩ | hhand
      · exact ⟨a, k, hmem, hcov⟩
      · -- a block still handed out lies apart from the one freed
        have hne : a ≠ page := fun heq => by
          rw [heq, update_self] at hlive
          cases hlive
        rw [update_of_ne hne] at hlive
        have hsame := h.tiling.apart _ _ _ _ page (Tile.ofLive hlive) (Tile.ofLive hb) hcov
          (covers_self page _)
        exact absurd hsame.1 hne
      · cases hhand

/-- In every state the requests lead to from `buddy_system_init` on a region of any size, the free
    blocks and the blocks handed out partition the region, and the requests behave as they
    should. -/
theorem buddy_partition {memEnd : Nat} {st : State}
    (hr : Reaches Step anyInput (start memEnd) st) : Partition memEnd st ∧ Served st := by
  obtain ⟨hinv, hend⟩ := BuddyInv.reaches hr
  exact ⟨hend ▸ hinv.partition, hinv.served⟩

/-- The requests one by one, as far as they succeed. -/
def serve (st : State) : Op → Option State
  | .alloc npages =>
    if 1 ≤ npages ∧ npages ≤ 2 ^ 10 then do
      let order ← getPower2 npages
      let (s, page) ← Phys.pagesAlloc st.phys npages
      return ⟨s, update st.live page (some ⟨order, 1⟩)⟩
    else none
  | .dup page => do
    let b ← st.live page
    if b.refs + 1 < 65536 then
      let s ← Phys.pagesDup st.phys page
      return ⟨s, update st.live page (some ⟨b.order, b.refs + 1⟩)⟩
    else none
  | .undup page => do
    let b ← st.live page
    let (s, _) ← Phys.pagesUndup st.phys page
    return ⟨s, if b.refs > 1 then update st.live page (some ⟨b.order, b.refs - 1⟩)
      else st.live⟩
  | .free page => do
    let b ← st.live page
    let s ← Phys.pagesFree st.phys page
    return ⟨s, update st.live page
      (if b.refs - 1 = 0 then none else some ⟨b.order, b.refs - 1⟩)⟩

/-- The kernel's own requests. -/
def small : Op → Bool
  | .alloc npages => npages ≤ 512
  | _ => true

theorem serve_step {st st' : State} {op : Op} (hsmall : small op = true)
    (h : serve st op = some st') : Step st op st' := by
  cases op with
  | alloc npages =>
    simp only [serve] at h
    split at h
    case isTrue hn =>
      obtain ⟨order, horder, h⟩ := bind_eq_some_iff.mp h
      obtain ⟨⟨s, page⟩, hrun, h⟩ := bind_eq_some_iff.mp h
      cases h
      exact Step.alloc hn.1 (of_decide_eq_true hsmall) horder hrun
    case isFalse => cases h
  | dup page =>
    obtain ⟨b, hb, h⟩ := bind_eq_some_iff.mp h
    split at h
    case isTrue hfew =>
      obtain ⟨s, hrun, h⟩ := bind_eq_some_iff.mp h
      cases h
      exact Step.dup hb hfew hrun
    case isFalse => cases h
  | undup page =>
    obtain ⟨b, hb, h⟩ := bind_eq_some_iff.mp h
    obtain ⟨⟨s, ret⟩, hrun, h⟩ := bind_eq_some_iff.mp h
    cases h
    exact Step.undup hb hrun
  | free page =>
    obtain ⟨b, hb, h⟩ := bind_eq_some_iff.mp h
    obtain ⟨s, hrun, h⟩ := bind_eq_some_iff.mp h
    cases h
    exact Step.free hb hrun

/-- The block of four is split twice for page 0, and its right half handed out.  Page 0 is dropped
    for good with the second reference, and merged with page 1. -/
theorem buddy_partition_merged : ∃ st : State, 0 ∈ st.phys.orderarray 1 ∧ st.live 0 = none ∧
    st.live 2 = some ⟨1, 1⟩ ∧ Partition 4 st ∧ Served st := by
  have hrun : Leads (tested (fun _ op => small op) serve) (start 4)
      [.alloc 1, .alloc 2, .dup 0, .free 0, .free 0] fun st =>
      0 ∈ st.phys.orderarray 1 ∧ st.live 0 = none ∧ st.live 2 = some ⟨1, 1⟩ := by
    decide +kernel
  obtain ⟨st, hr, hfree, hgone, hheld⟩ := hrun.reaches Step anyInput fun s op s' h =>
    ⟨trivial, serve_step (guarded_step s op s' h).1 (guarded_step s op s' h).2⟩
  obtain ⟨hparts, hserved⟩ := buddy_partition hr
  exact ⟨st, hfree, hgone, hheld, hparts, hserved⟩

end Uniks.Phys
