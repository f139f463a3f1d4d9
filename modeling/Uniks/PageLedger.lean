/-
  What the pages handed out are held for.

  A page is used by the entries of page tables that map it for a user, kept by the kernel (the page
  of a process, a page of another subsystem), or pinned, which is what becomes of the page of a
  table: nobody gives it back.  The count in the record of a page is the number of its users.  The
  exception are the pages of a user stack of several pages: the block is recorded at its head, and
  the others, its tails, have the count 0 as long as the head is used.
-/
import Uniks.Mm
import Uniks.PhysInv
import Uniks.Lib.Hoare
import Uniks.Lib.RefCount

namespace Uniks.Vm

open Uniks.Phys Uniks.Dyadic Uniks.Hoare
open Function (update update_self update_of_ne)

/-- Who holds the pages that are handed out. -/
structure Ledger (live : Live) (uses keeps : Nat → Nat) (pinned : Nat → Prop)
    (tail : Nat → Nat → Prop) : Prop where
  used : ∀ no, 0 < uses no → (∃ k, live no = some ⟨k, uses no⟩) ∨ ∃ h, tail h no
  kept : ∀ no, 0 < keeps no → keeps no = 1 ∧ uses no = 0 ∧ ∃ k, live no = some ⟨k, 1⟩
  pins : ∀ no, pinned no → keeps no = 0 ∧ uses no = 0 ∧ ∃ k, live no = some ⟨k, 1⟩
  tails : ∀ h t, tail h t → h ≠ t ∧ 0 < uses h ∧ ∃ k, live h = some ⟨k, uses h⟩ ∧ Covers h k t

/-- The buddy system agrees with the ledger. -/
def Books (s : Buddy) (uses keeps : Nat → Nat) (pinned : Nat → Prop) (tail : Nat → Nat → Prop) :
    Prop :=
  ∃ live, BuddyInv s live none ∧ Ledger live uses keeps pinned tail

/-- Nothing is known to be held at `no`. -/
structure Fresh (uses keeps : Nat → Nat) (pinned : Nat → Prop) (tail : Nat → Nat → Prop) (no : Nat) :
    Prop where
  uses : uses no = 0
  keeps : keeps no = 0
  pinned : ¬ pinned no
  head : ∀ t, ¬ tail no t
  tail : ∀ h, ¬ tail h no

/-- One user of each of the `n` pages from `no` on. -/
def spread (no n : Nat) : Nat → Nat := fun x => if no ≤ x ∧ x < no + n then 1 else 0

/-- One user of the page `no`. -/
def one (no : Nat) : Nat → Nat := fun x => if x = no then 1 else 0

@[simp] theorem one_self (no : Nat) : one no no = 1 := if_pos rfl

theorem one_of_ne {no x : Nat} (h : x ≠ no) : one no x = 0 := if_neg h

theorem spread_one (no : Nat) : spread no 1 = one no := by
  funext x
  unfold spread one
  by_cases h : x = no
  · rw [if_pos h, if_pos (by omega)]
  · rw [if_neg h, if_neg (by omega)]

/-- The failures of a call in which the assertions on counts fail only if `c`. -/
def Unless (c : Prop) (e : Fault) : Prop := e = .count → c

variable {c : Prop} {s s' : Buddy} {live : Live} {uses keeps : Nat → Nat} {pinned : Nat → Prop}
  {tail : Nat → Nat → Prop} {no : Nat}

theorem unless_alloc : Unless c .alloc := fun h => nomatch h

theorem unless_check : Unless c .check := fun h => nomatch h

/-! ## Blocks that are held -/

/-- A page inside a block that is held is not the head of another. -/
theorem live_eq_none_of_covers (h : BuddyInv s live none) {a x : Nat} {b : LiveBlock}
    (ha : live a = some b) (hx : Covers a b.order x) (hne : a ≠ x) : live x = none := by
  cases hlive : live x with
  | none => rfl
  | some b' =>
    have htile := h.tiling.apart a b.order x b'.order x (.ofLive ha) (.ofLive hlive) hx
      (covers_self x _)
    exact absurd htile.1 hne

/-- The head of a block has no count as a tail. -/
theorem Ledger.live_tail (h : Ledger live uses keeps pinned tail) (hinv : BuddyInv s live none)
    {hd t : Nat} (ht : tail hd t) : live t = none := by
  obtain ⟨hne, -, k, hlive, hcovers⟩ := h.tails hd t ht
  exact live_eq_none_of_covers hinv hlive hcovers hne

/-- The count of a page that is used, unless it is a tail. -/
theorem Books.count (h : Books s uses keeps pinned tail) (huse : 0 < uses no)
    (hno : ∀ hd, ¬ tail hd no) : (s.record no).count = uses no := by
  obtain ⟨live, hinv, hl⟩ := h
  rcases hl.used no huse with ⟨k, hk⟩ | ⟨hd, ht⟩
  · rw [hinv.live_record no _ hk]
  · exact absurd ht (hno hd)

theorem Books.tail_count (h : Books s uses keeps pinned tail) {hd t : Nat} (ht : tail hd t) :
    (s.record t).count = 0 := by
  obtain ⟨live, hinv, hl⟩ := h
  exact hinv.idle_count t (hl.live_tail hinv ht)

/-- Less may be pinned. -/
theorem Books.unpin (h : Books s uses keeps pinned tail) {pinned' : Nat → Prop}
    (hsub : ∀ no, pinned' no → pinned no) : Books s uses keeps pinned' tail := by
  obtain ⟨live, hinv, hl⟩ := h
  exact ⟨live, hinv, hl.used, hl.kept, fun no hp => hl.pins no (hsub no hp), hl.tails⟩

theorem Books.congr (h : Books s uses keeps pinned tail) {uses' keeps' : Nat → Nat}
    (huses : ∀ x, uses' x = uses x) (hkeeps : ∀ x, keeps' x = keeps x) :
    Books s uses' keeps' pinned tail := by
  rw [funext huses, funext hkeeps]
  exact h

/-! ## Handing out -/

/-- What `pages_alloc` hands out is held by nobody. -/
theorem Books.alloc {n : Nat} (h : Books s uses keeps pinned tail) (hn : n ≤ 512) :
    Meets (Unless c) (Vm.pagesAlloc s n) fun r => ∃ live k, BuddyInv r.1 live none ∧
      Ledger live uses keeps pinned tail ∧ live r.2 = some ⟨k, 1⟩ ∧ n ≤ 2 ^ k ∧
        ∀ x, Covers r.2 k x → Fresh uses keeps pinned tail x := by
  obtain ⟨live, hinv, hl⟩ := h
  unfold Vm.pagesAlloc
  split
  · rename_i r hrun
    refine .ok ?_
    obtain ⟨k, hk, hnone, -, hinv'⟩ :=
      hinv.pagesAlloc (Nat.le_refl 9) (fun _ ho => getPower2_le ho hn) hrun
    have hkeep : ∀ a b, live a = some b → update live r.2 (some ⟨k, 1⟩) a = some b := by
      intro a b ha
      have hne : a ≠ r.2 := by
        rintro rfl
        rw [hnone] at ha
        cases ha
      rw [update_of_ne hne]
      exact ha
    have hself : update live r.2 (some ⟨k, 1⟩) r.2 = some ⟨k, 1⟩ := update_self ..
    refine ⟨update live r.2 (some ⟨k, 1⟩), k, hinv', ?_, hself, (getPower2_spec hk).1, ?_⟩
    · refine ⟨fun no huse => ?_, fun no hkept => ?_, fun no hpin => ?_, fun hd t ht => ?_⟩
      · exact (hl.used no huse).imp_left fun ⟨j, hj⟩ => ⟨j, hkeep no _ hj⟩
      · obtain ⟨hone, hzero, j, hj⟩ := hl.kept no hkept
        exact ⟨hone, hzero, j, hkeep no _ hj⟩
      · obtain ⟨hkeeps, hzero, j, hj⟩ := hl.pins no hpin
        exact ⟨hkeeps, hzero, j, hkeep no _ hj⟩
      · obtain ⟨hne, hpos, j, hj, hcovers⟩ := hl.tails hd t ht
        exact ⟨hne, hpos, j, hkeep hd _ hj, hcovers⟩
    · intro x hx
      -- a block held before does not meet the new one
      have hoff : ∀ a b, live a = some b → ¬ Covers a b.order x := by
        intro a b ha hcovers
        have htile := hinv'.tiling.apart a b.order r.2 k x (.ofLive (hkeep a b ha)) (.ofLive hself)
          hcovers hx
        rw [htile.1, hnone] at ha
        cases ha
      have hx' : ∀ b, live x ≠ some b := fun b hb => hoff x b hb (covers_self x _)
      have htail : ∀ hd, ¬ tail hd x := by
        intro hd ht
        obtain ⟨-, -, j, hj, hcovers⟩ := hl.tails hd x ht
        exact hoff hd _ hj hcovers
      refine ⟨?_, ?_, ?_, ?_, htail⟩
      · by_contra hpos
        rcases hl.used x (Nat.pos_of_ne_zero hpos) with ⟨j, hj⟩ | ⟨hd, ht⟩
        · exact hx' _ hj
        · exact htail hd ht
      · by_contra hpos
        obtain ⟨-, -, j, hj⟩ := hl.kept x (Nat.pos_of_ne_zero hpos)
        exact hx' _ hj
      · intro hpin
        obtain ⟨-, -, j, hj⟩ := hl.pins x hpin
        exact hx' _ hj
      · intro t ht
        obtain ⟨-, -, j, hj, -⟩ := hl.tails x t ht
        exact hx' _ hj
  · exact .error unless_alloc

/-- The pages of a block that is used in the first `n` of its pages. -/
def withBlock (tail : Nat → Nat → Prop) (no n : Nat) : Nat → Nat → Prop := fun h t =>
  tail h t ∨ (h = no ∧ no < t ∧ t < no + n)

theorem withBlock_one (tail : Nat → Nat → Prop) (no : Nat) : withBlock tail no 1 = tail := by
  funext h t
  refine propext ⟨?_, .inl⟩
  rintro (ht | ⟨-, hlo, hhi⟩)
  · exact ht
  · omega

/-- A block is handed out for a user. -/
theorem Books.allocUse {n : Nat} (h : Books s uses keeps pinned tail) (hn : n ≤ 512) :
    Meets (Unless c) (Vm.pagesAlloc s n) fun r =>
      Books r.1 (fun x => uses x + spread r.2 n x) keeps pinned (withBlock tail r.2 n) ∧
        ∀ x, spread r.2 n x = 1 → Fresh uses keeps pinned tail x := by
  refine (h.alloc hn).mono ?_
  rintro ⟨s', no⟩ ⟨live, k, hinv, hl, hlive, hroom, hfresh⟩
  have hcovers : ∀ x, no ≤ x → x < no + n → Covers no k x := fun x hlo hhi => ⟨hlo, by omega⟩
  have hspread : ∀ x, spread no n x = 0 ∨ spread no n x = 1 ∧ Fresh uses keeps pinned tail x := by
    intro x
    unfold spread
    by_cases hx : no ≤ x ∧ x < no + n
    · rw [if_pos hx]
      exact .inr ⟨rfl, hfresh x (hcovers x hx.1 hx.2)⟩
    · rw [if_neg hx]
      exact .inl rfl
  refine ⟨⟨live, hinv, fun x hx => ?_, fun x hx => ?_, fun x hx => ?_, fun hd t ht => ?_⟩, ?_⟩
  · show (∃ k, live x = some ⟨k, uses x + spread no n x⟩) ∨ _
    rcases hspread x with hzero | ⟨hone, hf⟩
    · have hx : 0 < uses x := by
        simp only [hzero] at hx
        exact hx
      rw [hzero, Nat.add_zero]
      exact (hl.used x hx).imp_right fun ⟨hd, ht⟩ => ⟨hd, .inl ht⟩
    · by_cases hhead : x = no
      · subst hhead
        refine .inl ⟨k, ?_⟩
        rw [hone, hf.uses]
        exact hlive
      · refine .inr ⟨no, .inr ⟨rfl, ?_⟩⟩
        unfold spread at hone
        split at hone
        · rename_i hin
          omega
        · cases hone
  · obtain ⟨hone, hzero, j, hj⟩ := hl.kept x hx
    refine ⟨hone, ?_, j, hj⟩
    rcases hspread x with h0 | ⟨-, hf⟩
    · show uses x + spread no n x = 0
      omega
    · have := hf.keeps
      omega
  · obtain ⟨hkeeps, hzero, j, hj⟩ := hl.pins x hx
    refine ⟨hkeeps, ?_, j, hj⟩
    rcases hspread x with h0 | ⟨-, hf⟩
    · show uses x + spread no n x = 0
      omega
    · exact absurd hx hf.pinned
  · rcases ht with ht | ⟨rfl, hlo, hhi⟩
    · obtain ⟨hne, hused, j, hj, hcov⟩ := hl.tails hd t ht
      rcases hspread hd with h0 | ⟨-, hf⟩
      · refine ⟨hne, ?_, j, ?_, hcov⟩
        · show 0 < uses hd + spread no n hd
          omega
        · show live hd = some ⟨j, uses hd + spread no n hd⟩
          rw [h0]
          exact hj
      · exact absurd ht (hf.head t)
    · have hself : spread hd n hd = 1 := if_pos ⟨Nat.le_refl hd, by omega⟩
      have hzero := (hfresh hd (covers_self hd k)).uses
      refine ⟨by omega, ?_, k, ?_, hcovers t (by omega) hhi⟩
      · show 0 < uses hd + spread hd n hd
        omega
      · show live hd = some ⟨k, uses hd + spread hd n hd⟩
        rw [hself, hzero]
        exact hlive
  · intro x hone
    rcases hspread x with h0 | ⟨-, hf⟩
    · rw [h0] at hone
      cases hone
    · exact hf

/-- A page is handed out for a user. -/
theorem Books.allocOne (h : Books s uses keeps pinned tail) :
    Meets (Unless c) (Vm.pagesAlloc s 1) fun r =>
      Books r.1 (fun x => uses x + one r.2 x) keeps pinned tail ∧
        Fresh uses keeps pinned tail r.2 := by
  refine (h.allocUse (by decide)).mono fun r hr => ?_
  rw [spread_one, withBlock_one] at hr
  exact ⟨hr.1, hr.2 r.2 (one_self r.2)⟩

/-- A page is handed out to the kernel. -/
theorem Books.allocKeep (h : Books s uses keeps pinned tail) :
    Meets (Unless c) (Vm.pagesAlloc s 1) fun r =>
      Books r.1 uses (fun x => keeps x + one r.2 x) pinned tail ∧
        Fresh uses keeps pinned tail r.2 := by
  refine (h.alloc (by decide)).mono ?_
  rintro ⟨s', no⟩ ⟨live, k, hinv, hl, hlive, -, hfresh⟩
  have hf := hfresh no (covers_self no k)
  refine ⟨⟨live, hinv, hl.used, fun x hx => ?_, fun x hx => ?_, hl.tails⟩, hf⟩
  · show keeps x + one no x = 1 ∧ _
    by_cases hxn : x = no
    · subst hxn
      have hzero := hf.keeps
      rw [one_self, hzero]
      exact ⟨rfl, hf.uses, k, hlive⟩
    · rw [one_of_ne hxn, Nat.add_zero]
      refine hl.kept x ?_
      simp only [one_of_ne hxn, Nat.add_zero] at hx
      exact hx
  · obtain ⟨hkeeps, hzero, j, hj⟩ := hl.pins x hx
    refine ⟨?_, hzero, j, hj⟩
    have hxn : x ≠ no := by
      rintro rfl
      exact hf.pinned hx
    show keeps x + one no x = 0
    rw [one_of_ne hxn, hkeeps]

/-- A page is handed out for a table. -/
theorem Books.allocPin (h : Books s uses keeps pinned tail) :
    Meets (Unless c) (Vm.pagesAlloc s 1) fun r =>
      Books r.1 uses keeps (fun no => pinned no ∨ no = r.2) tail ∧
        Fresh uses keeps pinned tail r.2 := by
  refine (h.alloc (by decide)).mono ?_
  rintro ⟨s', no⟩ ⟨live, k, hinv, hl, hlive, -, hfresh⟩
  have hf := hfresh no (covers_self no k)
  refine ⟨⟨live, hinv, hl.used, hl.kept, fun x hx => ?_, hl.tails⟩, hf⟩
  rcases hx with hx | rfl
  · exact hl.pins x hx
  · exact ⟨hf.keeps, hf.uses, k, hlive⟩

/-! ## One user more, and one less -/

/-- The entry of a page that is used, unless it is a tail. -/
theorem Ledger.live_used (h : Ledger live uses keeps pinned tail) (huse : 0 < uses no)
    (hno : ∀ hd, ¬ tail hd no) : ∃ k, live no = some ⟨k, uses no⟩ := by
  rcases h.used no huse with hlive | ⟨hd, ht⟩
  · exact hlive
  · exact absurd ht (hno hd)

/-- The number of users of one page that is recorded changes. -/
theorem Ledger.recount (h : Ledger live uses keeps pinned tail) (uses' : Nat → Nat) {k : Nat}
    (hlive : live no = some ⟨k, uses no⟩) (huse : 0 < uses no) (huse' : 0 < uses' no)
    (hothers : ∀ x, x ≠ no → uses' x = uses x) :
    Ledger (update live no (some ⟨k, uses' no⟩)) uses' keeps pinned tail := by
  have hkeep : ∀ {x b}, x ≠ no → live x = some b →
      update live no (some ⟨k, uses' no⟩) x = some b := by
    intro x b hx hb
    rw [update_of_ne hx]
    exact hb
  refine ⟨fun x hx => ?_, fun x hx => ?_, fun x hx => ?_, fun hd t ht => ?_⟩
  · by_cases hxn : x = no
    · subst hxn
      exact .inl ⟨k, update_self ..⟩
    · rw [hothers x hxn] at hx ⊢
      exact (h.used x hx).imp_left fun ⟨j, hj⟩ => ⟨j, hkeep hxn hj⟩
  · obtain ⟨hone, hzero, j, hj⟩ := h.kept x hx
    have hxn : x ≠ no := by
      rintro rfl
      omega
    exact ⟨hone, (hothers x hxn).trans hzero, j, hkeep hxn hj⟩
  · obtain ⟨hkeeps, hzero, j, hj⟩ := h.pins x hx
    have hxn : x ≠ no := by
      rintro rfl
      omega
    exact ⟨hkeeps, (hothers x hxn).trans hzero, j, hkeep hxn hj⟩
  · obtain ⟨hne, hpos, j, hj, hcovers⟩ := h.tails hd t ht
    by_cases hxn : hd = no
    · subst hxn
      have hjk : j = k := (LiveBlock.mk.inj (Option.some.inj (hj.symm.trans hlive))).1
      exact ⟨hne, huse', k, update_self .., hjk ▸ hcovers⟩
    · rw [hothers hd hxn]
      exact ⟨hne, hpos, j, hkeep hxn hj, hcovers⟩

/-- The last holder of a page that is no head leaves. -/
theorem Ledger.drop (h : Ledger live uses keeps pinned tail) {uses' keeps' : Nat → Nat}
    (hzero : uses' no = 0 ∧ keeps' no = 0) (hpin : ¬ pinned no) (hhead : ∀ t, ¬ tail no t)
    (hothers : ∀ x, x ≠ no → uses' x = uses x ∧ keeps' x = keeps x) :
    Ledger (update live no none) uses' keeps' pinned tail := by
  have hkeep : ∀ {x b}, x ≠ no → live x = some b → update live no none x = some b := by
    intro x b hx hb
    rw [update_of_ne hx]
    exact hb
  refine ⟨fun x hx => ?_, fun x hx => ?_, fun x hx => ?_, fun hd t ht => ?_⟩
  · have hxn : x ≠ no := by
      rintro rfl
      omega
    rw [(hothers x hxn).1] at hx ⊢
    exact (h.used x hx).imp_left fun ⟨j, hj⟩ => ⟨j, hkeep hxn hj⟩
  · have hxn : x ≠ no := by
      rintro rfl
      omega
    rw [(hothers x hxn).1, (hothers x hxn).2] at *
    obtain ⟨hone, hnone, j, hj⟩ := h.kept x hx
    exact ⟨hone, hnone, j, hkeep hxn hj⟩
  · have hxn : x ≠ no := by
      rintro rfl
      exact hpin hx
    rw [(hothers x hxn).1, (hothers x hxn).2]
    obtain ⟨hkeeps, hnone, j, hj⟩ := h.pins x hx
    exact ⟨hkeeps, hnone, j, hkeep hxn hj⟩
  · have hxn : hd ≠ no := by
      rintro rfl
      exact hhead t ht
    rw [(hothers hd hxn).1]
    obtain ⟨hne, hpos, j, hj, hcovers⟩ := h.tails hd t ht
    exact ⟨hne, hpos, j, hkeep hxn hj, hcovers⟩

/-- `pages_dup` counts a user more; on a tail its assertion fails. -/
theorem Books.dup (h : Books s uses keeps pinned tail) (hc : (∃ hd t, tail hd t) → c)
    (huse : 0 < uses no) (hfew : uses no + 1 < 65536) :
    Meets (Unless c) (Vm.pagesDup s (.page no)) fun s' =>
      Books s' (fun x => uses x + one no x) keeps pinned tail ∧ ∀ hd, ¬ tail hd no := by
  obtain ⟨live, hinv, hl⟩ := h
  by_cases ht : ∃ hd, tail hd no
  · obtain ⟨hd, ht⟩ := ht
    have hzero := hinv.idle_count no (hl.live_tail hinv ht)
    have hrun : Vm.pagesDup s (.page no) = .error .count := by
      simp [Vm.pagesDup, Phys.pagesDup, hzero]
    rw [hrun]
    exact .error fun _ => hc ⟨hd, no, ht⟩
  · have hno : ∀ hd, ¬ tail hd no := fun hd ht' => ht ⟨hd, ht'⟩
    obtain ⟨k, hk⟩ := hl.live_used huse hno
    obtain ⟨s', hrun, -, -, hinv'⟩ := hinv.pagesDup hk hfew
    have hcall : Vm.pagesDup s (.page no) = .ok s' := by
      simp only [Vm.pagesDup, hrun]
    rw [hcall]
    have hrec := hl.recount (fun x => uses x + one no x) hk huse (Nat.add_pos_left huse _)
      fun x hx => by rw [one_of_ne hx, Nat.add_zero]
    rw [one_self] at hrec
    exact .ok ⟨⟨_, hinv', hrec⟩, hno⟩

/-- What `pages_undup` leaves of the books: a user less, but for the last. -/
theorem Books.undup (h : Books s (fun x => uses x + one no x) keeps pinned tail)
    (hc : (∃ hd t, tail hd t) → c) :
    Meets (Unless c) (Vm.pagesUndup s (.page no)) fun r => r.2 = uses no + 1 ∧
      (∀ hd, ¬ tail hd no) ∧ releasePglock r.1 (.page no) = .ok () ∧
        Books r.1 (fun x => uses x + if uses no = 0 then one no x else 0) keeps pinned tail := by
  obtain ⟨live, hinv, hl⟩ := h
  have huse : 0 < uses no + one no no := by
    rw [one_self]
    omega
  by_cases ht : ∃ hd, tail hd no
  · obtain ⟨hd, ht⟩ := ht
    have hzero := hinv.idle_count no (hl.live_tail hinv ht)
    have hrun : Vm.pagesUndup s (.page no) = .error .count := by
      simp [Vm.pagesUndup, Phys.pagesUndup, hzero]
    rw [hrun]
    exact .error fun _ => hc ⟨hd, no, ht⟩
  · have hno : ∀ hd, ¬ tail hd no := fun hd ht' => ht ⟨hd, ht'⟩
    obtain ⟨k, hk⟩ := hl.live_used huse hno
    rw [one_self] at hk
    obtain ⟨s', hrun, -, -, hinv'⟩ := hinv.pagesUndup hk
    have hcall : Vm.pagesUndup s (.page no) = .ok (s', uses no + 1) := by
      simp only [Vm.pagesUndup, hrun]
    rw [hcall]
    refine .ok ⟨rfl, hno, ?_, ?_⟩
    · -- the page stays handed out
      have hlock : 1 ≤ (s'.record no).count := by
        by_cases hmany : uses no + 1 > 1
        · rw [if_pos hmany] at hinv'
          rw [hinv'.live_record no _ (update_self ..)]
          show 1 ≤ uses no + 1 - 1
          omega
        · rw [if_neg hmany] at hinv'
          rw [hinv'.live_record no _ hk]
          exact Nat.le_add_left 1 _
      exact if_pos hlock
    · by_cases hlast : uses no = 0
      · have hone : ¬ uses no + 1 > 1 := by omega
        rw [if_neg hone] at hinv'
        simp only [if_pos hlast]
        exact ⟨live, hinv', hl⟩
      · have hmany : uses no + 1 > 1 := by omega
        rw [if_pos hmany] at hinv'
        simp only [if_neg hlast, Nat.add_zero]
        have hpos := Nat.pos_of_ne_zero hlast
        have hk' : live no = some ⟨k, uses no + one no no⟩ := by
          rw [one_self]
          exact hk
        have hrec := hl.recount uses hk' huse hpos fun x hx => by
          rw [one_of_ne hx, Nat.add_zero]
        exact ⟨_, hinv', hrec⟩

/-- A page the kernel keeps has one reference, and keeps it. -/
theorem Books.undupKept (h : Books s uses keeps pinned tail) (hkept : 0 < keeps no) :
    Vm.pagesUndup s (.page no) = .ok (s, 1) ∧ releasePglock s (.page no) = .ok () := by
  obtain ⟨live, hinv, hl⟩ := h
  obtain ⟨-, -, k, hk⟩ := hl.kept no hkept
  have hrec := hinv.live_record no _ hk
  constructor
  · simp [Vm.pagesUndup, Phys.pagesUndup, hrec]
  · simp [releasePglock, hrec]

/-- `release_phypg` takes a user away, and with the last one the page goes back. -/
theorem Books.release (h : Books s (fun x => uses x + one no x) keeps pinned tail)
    (hc : (∃ hd t, tail hd t) → c) (hhead : ∀ t, tail no t → 0 < uses no) :
    Meets (Unless c) (releasePhypg s (.page no)) fun s' => Books s' uses keeps pinned tail := by
  unfold releasePhypg
  refine (h.undup hc).bind ?_
  rintro ⟨s', ret⟩ ⟨rfl, hno, hlock, hbooks⟩
  have hlock : releasePglock s' (.page no) = .ok () := hlock
  simp only [hlock, ok_bind]
  by_cases hlast : uses no = 0
  · rw [if_pos (by omega)]
    simp only [if_pos hlast] at hbooks
    obtain ⟨live, hinv, hl⟩ := hbooks
    have hone : uses no + one no no = 1 := by rw [hlast, one_self]
    have hused : 0 < uses no + one no no := by omega
    obtain ⟨k, hk⟩ := hl.live_used hused hno
    rw [hone] at hk
    obtain ⟨s'', hrun, -, -, hinv'⟩ := hinv.pagesFree hk
    have hcall : Vm.pagesFree s' (.page no) = .ok s'' := by
      simp only [Vm.pagesFree, hrun]
    rw [hcall]
    refine .ok ⟨_, hinv', hl.drop ⟨hlast, ?_⟩ ?_ ?_ ?_⟩
    · by_contra hkept
      have hzero := (hl.kept no (Nat.pos_of_ne_zero hkept)).2.1
      omega
    · intro hpin
      have hzero := (hl.pins no hpin).2.1
      omega
    · intro t ht
      have hpos := hhead t ht
      omega
    · intro x hx
      exact ⟨by rw [one_of_ne hx, Nat.add_zero], rfl⟩
  · rw [if_neg (by omega)]
    simp only [if_neg hlast, Nat.add_zero] at hbooks
    exact .pure hbooks

/-- The kernel gives a page back. -/
theorem Books.free (h : Books s uses (fun x => keeps x + one no x) pinned tail) :
    Meets (Unless c) (Vm.pagesFree s (.page no)) fun s' => Books s' uses keeps pinned tail := by
  obtain ⟨live, hinv, hl⟩ := h
  have hkept : 0 < keeps no + one no no := by
    rw [one_self]
    omega
  obtain ⟨hone, hzero, k, hk⟩ := hl.kept no hkept
  rw [one_self] at hone
  obtain ⟨s', hrun, -, -, hinv'⟩ := hinv.pagesFree hk
  have hcall : Vm.pagesFree s (.page no) = .ok s' := by
    simp only [Vm.pagesFree, hrun]
  rw [hcall]
  refine .ok ⟨_, hinv', hl.drop ⟨hzero, by omega⟩ ?_ ?_ ?_⟩
  · intro hpin
    have hkeeps := (hl.pins no hpin).1
    omega
  · intro t ht
    have hpos := (hl.tails no t ht).2.1
    omega
  · intro x hx
    exact ⟨rfl, by rw [one_of_ne hx, Nat.add_zero]⟩

end Uniks.Vm
