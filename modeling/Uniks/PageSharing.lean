/-
  Giving the pages of a table back, and sharing them.

  `free_pgtable` and `copy_pgtable` go through the tables of three levels and come to every entry
  once.  What they have done is told by the set of the entries they have come to (`visitTop`,
  `visitMid`, `visitLow`): the pages of the others are still used, or not yet shared.
-/
import Uniks.PageTables

namespace Uniks.Vm

open Uniks.Phys Uniks.Hoare Uniks.RefCount
open Function (update update_self update_of_ne)

/-! ## Going through the tables -/

section Visit

variable {σ : Type} {allowed : Fault → Prop} {st : σ} {n : Nat}

/-- A loop over all indices, with the set of those that are done. -/
theorem visit (f : σ → Fin n → Except Fault σ) (inv : (Fin n → Prop) → σ → Prop)
    (h0 : inv (fun _ => False) st)
    (hstep : ∀ (D : Fin n → Prop) k st, ¬ D k → inv D st →
      Meets allowed (f st k) (inv fun x => D x ∨ x = k)) :
    Meets allowed ((List.finRange n).foldlM f st) (inv fun _ => True) := by
  have hnil : (fun x : Fin n => x ∈ ([] : List (Fin n))) = fun _ => False := by
    funext x
    exact propext ⟨fun h => (nomatch h), False.elim⟩
  have hall : (fun x : Fin n => x ∈ List.finRange n) = fun _ => True := by
    funext x
    exact propext ⟨fun _ => trivial, fun _ => List.mem_finRange x⟩
  rw [← hall]
  refine .foldlM (fun done st => inv (fun x => x ∈ done) st) (hnil ▸ h0) ?_
  intro done k rest st hl hinv
  have hnot : k ∉ done := by
    intro hmem
    have hnodup := List.nodup_finRange n
    rw [hl] at hnodup
    exact (List.nodup_append.mp hnodup).2.2 k hmem k List.mem_cons_self rfl
  have hnext : (fun x => x ∈ done ++ [k]) = fun x => x ∈ done ∨ x = k := by
    funext x
    rw [List.mem_append, List.mem_singleton]
  rw [hnext]
  exact hstep _ k st hnot hinv

variable (inv : (Vpn → Prop) → σ → Prop) {D : Vpn → Prop}

theorem visitLow (f : σ → Idx → Except Fault σ) (i j : Idx) (h : inv D st)
    (hnew : ∀ k, ¬ D (i, j, k))
    (hstep : ∀ (D : Vpn → Prop) k st, ¬ D (i, j, k) → inv D st →
      Meets allowed (f st k) (inv fun v => D v ∨ v = (i, j, k))) :
    Meets allowed ((List.finRange PTENUM).foldlM f st)
      (inv fun v => D v ∨ (v.1 = i ∧ v.2.1 = j)) := by
  have hend : (fun v : Vpn => D v ∨ (v.1 = i ∧ v.2.1 = j))
      = fun v => D v ∨ (v.1 = i ∧ v.2.1 = j ∧ True) := by
    simp only [and_true]
  rw [hend]
  refine visit f (fun Dk st => inv (fun v => D v ∨ (v.1 = i ∧ v.2.1 = j ∧ Dk v.2.2)) st) ?_ ?_
  · simp only [and_false, or_false]
    exact h
  · intro Dk k st hk hinv
    have hnext : (fun v : Vpn => D v ∨ (v.1 = i ∧ v.2.1 = j ∧ (Dk v.2.2 ∨ v.2.2 = k)))
        = fun v => (D v ∨ (v.1 = i ∧ v.2.1 = j ∧ Dk v.2.2)) ∨ v = (i, j, k) := by
      funext ⟨a, b, c⟩
      simp only [Prod.mk.injEq, eq_iff_iff]
      tauto
    rw [hnext]
    refine hstep _ k st ?_ hinv
    rintro (hD | ⟨-, -, hDk⟩)
    · exact hnew k hD
    · exact hk hDk

theorem visitMid (f : σ → Idx → Except Fault σ) (i : Idx) (h : inv D st)
    (hnew : ∀ j k, ¬ D (i, j, k))
    (hstep : ∀ (D : Vpn → Prop) j st, (∀ k, ¬ D (i, j, k)) → inv D st →
      Meets allowed (f st j) (inv fun v => D v ∨ (v.1 = i ∧ v.2.1 = j))) :
    Meets allowed ((List.finRange PTENUM).foldlM f st) (inv fun v => D v ∨ v.1 = i) := by
  have hend : (fun v : Vpn => D v ∨ v.1 = i) = fun v => D v ∨ (v.1 = i ∧ True) := by
    simp only [and_true]
  rw [hend]
  refine visit f (fun Dj st => inv (fun v => D v ∨ (v.1 = i ∧ Dj v.2.1)) st) ?_ ?_
  · simp only [and_false, or_false]
    exact h
  · intro Dj j st hj hinv
    have hnext : (fun v : Vpn => D v ∨ (v.1 = i ∧ (Dj v.2.1 ∨ v.2.1 = j)))
        = fun v => (D v ∨ (v.1 = i ∧ Dj v.2.1)) ∨ (v.1 = i ∧ v.2.1 = j) := by
      funext v
      simp only [eq_iff_iff]
      tauto
    rw [hnext]
    refine hstep _ j st ?_ hinv
    rintro k (hD | ⟨-, hDj⟩)
    · exact hnew j k hD
    · exact hj hDj

theorem visitTop (f : σ → Idx → Except Fault σ) (h : inv (fun _ => False) st)
    (hstep : ∀ (D : Vpn → Prop) i st, (∀ j k, ¬ D (i, j, k)) → inv D st →
      Meets allowed (f st i) (inv fun v => D v ∨ v.1 = i)) :
    Meets allowed ((List.finRange PTENUM).foldlM f st) (inv fun _ => True) := by
  refine visit f (fun Di st => inv (fun v => Di v.1) st) h ?_
  intro Di i st hi hinv
  exact hstep _ i st (fun _ _ hD => hi hD) hinv

end Visit

/-! ## Giving back -/

variable {c : Prop} {s : Buddy} {pt : PageTable} {keeps rest : Nat → Nat} {pinned : Nat → Prop}
  {tail : Nat → Nat → Prop} {tf : Nat}

open scoped Classical in
/-- The pages of the entries that the loops have still to come to. -/
noncomputable def todo (pt : PageTable) (D : Vpn → Prop) (v : Vpn) : Option Nat :=
  if D v then none else (pt.pte v).leaf

/-- One entry is done. -/
theorem refs_todo (pt : PageTable) {D : Vpn → Prop} {v : Vpn} (hv : ¬ D v) (x : Nat) :
    refs (todo pt D) x = refs (todo pt fun w => D w ∨ w = v) x
      + (if (pt.pte v).leaf = some x then 1 else 0) := by
  have hnext : (todo pt fun w => D w ∨ w = v) = update (todo pt D) v none := by
    funext w
    unfold todo
    by_cases hw : w = v
    · rw [hw, update_self, if_pos (.inr rfl)]
    · rw [update_of_ne hw]
      by_cases hD : D w
      · rw [if_pos hD, if_pos (.inl hD)]
      · rw [if_neg hD, if_neg (not_or.mpr ⟨hD, hw⟩)]
  have hsum := refs_update (todo pt D) v none x
  have hold : todo pt D v = (pt.pte v).leaf := if_neg hv
  have hnone : ¬ (none : Option Nat) = some x := nofun
  rw [hold, if_neg hnone, Nat.add_zero] at hsum
  rw [hnext]
  exact hsum.symm

/-- Entries that map nothing are passed over. -/
theorem todo_skip (pt : PageTable) {D E : Vpn → Prop} (h : ∀ v, E v → (pt.pte v).leaf = none) :
    (todo pt fun v => D v ∨ E v) = todo pt D := by
  funext v
  unfold todo
  by_cases hD : D v
  · rw [if_pos hD, if_pos (.inl hD)]
  · rw [if_neg hD]
    by_cases hE : E v
    · rw [if_pos (.inr hE), h v hE]
    · rw [if_neg (not_or.mpr ⟨hD, hE⟩)]

theorem leaf_of_absent (h : Space rest tf pt) {v : Vpn} (hv : ¬ pt.Present v) :
    (pt.pte v).leaf = none := by
  cases hleaf : (pt.pte v).leaf with
  | none => rfl
  | some no => exact absurd (h.present v (Pte.leaf_eq_some.mp hleaf).1) hv

/-- What the loops of `free_pgtable` keep. -/
def Freeing (pt : PageTable) (rest keeps : Nat → Nat) (pinned : Nat → Prop)
    (tail : Nat → Nat → Prop) (D : Vpn → Prop) (s : Buddy) : Prop :=
  Books s (fun x => rest x + refs (todo pt D) x) keeps pinned tail

theorem Freeing.skip {D E : Vpn → Prop} (h : Freeing pt rest keeps pinned tail D s)
    (hE : ∀ v, E v → (pt.pte v).leaf = none) :
    Freeing pt rest keeps pinned tail (fun v => D v ∨ E v) s := by
  unfold Freeing
  rw [todo_skip pt hE]
  exact h

theorem freeEntry_freeing (hs : Space rest tf pt) (hc : (∃ hd t, tail hd t) → c)
    (hheads : ∀ hd t, tail hd t → pt.maps hd = 0) {D : Vpn → Prop} {v : Vpn} (hv : ¬ D v)
    (h : Freeing pt rest keeps pinned tail D s) :
    Meets (Unless c) (freeEntry pt v s)
      (Freeing pt rest keeps pinned tail fun w => D w ∨ w = v) := by
  unfold freeEntry
  refine .ite (fun hmine => ?_) fun hmine => .ite (fun hvalid => ?_) fun hvalid => ?_
  · exact .ok (h.skip fun w hw => hw ▸ Pte.leaf_unrelease hmine)
  · rw [Bool.not_eq_true] at hmine
    obtain ⟨no, hpaddr⟩ := hs.page v hvalid hmine
    have hleaf : (pt.pte v).leaf = some no := Pte.leaf_eq_some.mpr ⟨hvalid, hmine, hpaddr⟩
    have hmaps : 0 < pt.maps no := PageTable.maps_pos.mpr ⟨v, hleaf⟩
    rw [hpaddr]
    refine Books.release (Books.congr h (fun x => ?_) fun _ => rfl) hc fun t ht => ?_
    · show rest x + refs (todo pt fun w => D w ∨ w = v) x + one no x = rest x + refs (todo pt D) x
      rw [refs_todo pt hv x, hleaf, ite_some_eq_one, Nat.add_assoc]
    · rw [hheads no t ht] at hmaps
      exact absurd hmaps (Nat.lt_irrefl 0)
  · refine .ok (h.skip fun w hw => ?_)
    rw [Bool.not_eq_true] at hvalid
    rw [hw]
    simp [Pte.leaf, hvalid]

theorem freePgtable_freeing (hs : Space rest tf pt) (hc : (∃ hd t, tail hd t) → c)
    (hheads : ∀ hd t, tail hd t → pt.maps hd = 0)
    (h : Books s (fun x => rest x + pt.maps x) keeps pinned tail) :
    Meets (Unless c) (freePgtable pt s) fun s' => Books s' rest keeps pinned tail := by
  have hstart : Freeing pt rest keeps pinned tail (fun _ => False) s := by
    refine Books.congr h (fun x => ?_) fun _ => rfl
    have htodo : todo pt (fun _ => False) = fun v => (pt.pte v).leaf := by
      funext v
      exact if_neg fun hf => hf
    unfold PageTable.maps
    rw [htodo]
  have hall : Meets (Unless c) (freePgtable pt s)
      (Freeing pt rest keeps pinned tail fun _ => True) := by
    unfold freePgtable
    refine visitTop (Freeing pt rest keeps pinned tail) _ hstart fun D i s hi hinv => ?_
    refine .ite (fun _ => ?_) fun hmid => .ok (hinv.skip fun v hv => ?_)
    · unfold freeMid
      refine visitMid (Freeing pt rest keeps pinned tail) _ i hinv hi fun D j s hj hinv => ?_
      refine .ite (fun _ => ?_) fun hlow => .ok (hinv.skip fun v hv => ?_)
      · unfold freeLow
        exact visitLow (Freeing pt rest keeps pinned tail) _ i j hinv hj fun D k s hk hinv =>
          freeEntry_freeing hs hc hheads hk hinv
      · exact leaf_of_absent hs fun hp => hlow (hv.1 ▸ hv.2 ▸ hp.2)
    · exact leaf_of_absent hs fun hp => hmid (hv ▸ hp.1)
  refine hall.mono fun s' hs' => Books.congr hs' (fun x => ?_) fun _ => rfl
  have hnone : todo pt (fun _ => True) = fun _ => none := by
    funext v
    exact if_pos trivial
  rw [hnone, refs_none, Nat.add_zero]

/-! ## A stack of several pages is not given back -/

theorem mergePages_record {left page order : Nat} {s s' : Buddy}
    (h : mergePages left s page order = some s') : s'.record = s.record := by
  induction left generalizing s page order with
  | zero => cases h
  | succ left ih =>
    unfold mergePages at h
    obtain ⟨buddy, -, h⟩ := Option.bind_eq_some_iff.mp h
    split at h
    · obtain ⟨s₁, hdel, h⟩ := Option.bind_eq_some_iff.mp h
      unfold Buddy.listDel at hdel
      split at hdel
      · cases hdel
        have hrest := ih h
        exact hrest
      · cases hdel
    · cases h
      rfl

/-- A page without a count stays so when another is given back. -/
theorem pagesFree_idle {page t : Nat} {s s' : Buddy} (h : Phys.pagesFree s page = some s')
    (ht : (s.record t).count = 0) : (s'.record t).count = 0 := by
  unfold Phys.pagesFree at h
  dsimp only at h
  split at h
  · rename_i hpos
    have hne : t ≠ page := by
      rintro rfl
      omega
    split at h
    · rw [mergePages_record h, Buddy.setRecord_record, update_of_ne hne]
      exact ht
    · cases h
      rw [Buddy.setRecord_record, update_of_ne hne]
      exact ht
  · cases h

theorem pagesUndup_idle {page t ret : Nat} {s s' : Buddy}
    (h : Phys.pagesUndup s page = some (s', ret)) (ht : (s.record t).count = 0) :
    (s'.record t).count = 0 := by
  unfold Phys.pagesUndup at h
  dsimp only at h
  split at h
  · cases h
    split
    · rename_i hmany
      have hne : t ≠ page := by
        rintro rfl
        omega
      rw [Buddy.setRecord_record, update_of_ne hne]
      exact ht
    · exact ht
  · cases h

theorem releasePhypg_idle {t : Nat} (ht : (s.record t).count = 0) (f : Frame) :
    Meets (fun _ => True) (releasePhypg s f) fun s' => (s'.record t).count = 0 := by
  have hundup : Meets (fun _ => True) (Vm.pagesUndup s f) fun r => (r.1.record t).count = 0 := by
    refine .partial_intro fun r hr => ?_
    unfold Vm.pagesUndup at hr
    split at hr
    · split at hr
      · rename_i hrun
        cases hr
        exact pagesUndup_idle hrun ht
      · cases hr
    · cases hr
  unfold releasePhypg
  refine hundup.bind fun r hr => .after fun _ => ?_
  refine .ite (fun _ => .partial_intro fun s' hs' => ?_) fun _ => .pure hr
  unfold Vm.pagesFree at hs'
  split at hs'
  · split at hs'
    · rename_i hrun
      cases hs'
      exact pagesFree_idle hrun hr
    · cases hs'
  · cases hs'

/-- A table with an entry for a page without a count is not given back. -/
theorem freePgtable_stuck {v : Vpn} {t : Nat} (hs : Space rest tf pt)
    (hleaf : (pt.pte v).leaf = some t) (ht : (s.record t).count = 0) :
    Meets (fun _ => True) (freePgtable pt s) fun _ => False := by
  obtain ⟨hvalid, hmine, hpaddr⟩ := Pte.leaf_eq_some.mp hleaf
  obtain ⟨hmid, hlow⟩ := hs.present v hvalid
  let inv : (Vpn → Prop) → Buddy → Prop := fun D s => (s.record t).count = 0 ∧ ¬ D v
  -- the loops do not get past the entry
  have hentry : ∀ (D : Vpn → Prop) (w : Vpn) s, inv D s →
      Meets (fun _ => True) (freeEntry pt w s) (inv fun u => D u ∨ u = w) := by
    rintro D w s ⟨ht, hD⟩
    by_cases hw : v = w
    · subst hw
      have hundup : Vm.pagesUndup s (.page t) = .error .count := by
        simp [Vm.pagesUndup, Phys.pagesUndup, ht]
      have hrun : freeEntry pt v s = .error .count := by
        simp [freeEntry, hmine, hvalid, hpaddr, releasePhypg, hundup]
      rw [hrun]
      exact .error trivial
    · have hD' : ¬ (D v ∨ v = w) := not_or.mpr ⟨hD, hw⟩
      unfold freeEntry
      refine .ite (fun _ => .ok ⟨ht, hD'⟩) fun _ => ?_
      refine .ite (fun _ => ?_) fun _ => .ok ⟨ht, hD'⟩
      exact (releasePhypg_idle ht _).mono fun s' hs' => ⟨hs', hD'⟩
  have hall : Meets (fun _ => True) (freePgtable pt s) (inv fun _ => True) := by
    unfold freePgtable
    refine visitTop inv _ ⟨ht, fun hf => hf⟩ fun D i s hi hinv => ?_
    refine .ite (fun _ => ?_) fun hmid' => .ok ⟨hinv.1, not_or.mpr ⟨hinv.2, ?_⟩⟩
    · unfold freeMid
      refine visitMid inv _ i hinv hi fun D j s hj hinv => ?_
      refine .ite (fun _ => ?_) fun hlow' => .ok ⟨hinv.1, not_or.mpr ⟨hinv.2, ?_⟩⟩
      · unfold freeLow
        exact visitLow inv _ i j hinv hj fun D k s hk hinv => hentry D (i, j, k) s hinv
      · rintro ⟨rfl, rfl⟩
        exact hlow' hlow
    · rintro rfl
      exact hmid' hmid
  exact hall.mono fun s' hs' => hs'.2 trivial

/-- The pages of a process are given back; if one is a tail, an assertion fails before that. -/
theorem freePgtable_books (h : Account s rest keeps pinned tail tf pt)
    (hc : (∃ hd t, tail hd t) → c) (hheads : ∀ hd t, tail hd t → 0 < pt.maps hd → 0 < pt.maps t) :
    Meets (Unless c) (freePgtable pt s) fun s' => Books s' rest keeps pinned tail ∧
      ∀ hd t, tail hd t → pt.maps t = 0 := by
  by_cases hstuck : ∃ hd t, tail hd t ∧ 0 < pt.maps t
  · obtain ⟨hd, t, ht, hmaps⟩ := hstuck
    obtain ⟨v, hleaf⟩ := PageTable.maps_pos.mp hmaps
    refine .weaken ((freePgtable_stuck h.space hleaf (h.books.tail_count ht)).mono ?_) ?_
    · exact fun _ hf => hf.elim
    · exact fun _ _ _ => hc ⟨hd, t, ht⟩
  · have hclear : ∀ hd t, tail hd t → pt.maps t = 0 := by
      intro hd t ht
      by_contra hpos
      exact hstuck ⟨hd, t, ht, Nat.pos_of_ne_zero hpos⟩
    have hheads' : ∀ hd t, tail hd t → pt.maps hd = 0 := by
      intro hd t ht
      by_contra hpos
      have := hheads hd t ht (Nat.pos_of_ne_zero hpos)
      rw [hclear hd t ht] at this
      exact Nat.lt_irrefl 0 this
    refine (freePgtable_freeing h.space hc hheads' h.books).mono fun s' hs' => ⟨?_, hclear⟩
    exact hs'.unpin fun no hp => .inl hp

/-! ## Sharing -/

/-- The entry as `copy_pgtable` leaves it in both tables. -/
def Pte.shared (perm : Perm) (pte : Pte) : Pte := { pte with perm := pte.perm &&& ~~~perm }

theorem valid_shared (pte : Pte) : (pte.shared PTE_W).valid = pte.valid := by
  have hbit : (~~~PTE_W).getLsbD 0 = true := by decide
  show grants (pte.perm &&& ~~~PTE_W) PTE_V = grants pte.perm PTE_V
  rw [grants_V, grants_V, BitVec.getLsbD_and, hbit, Bool.and_true]

theorem not_writable_shared (pte : Pte) : grants (pte.shared PTE_W).perm PTE_W = false := by
  have hbit : (~~~PTE_W).getLsbD 2 = false := by decide
  show grants (pte.perm &&& ~~~PTE_W) PTE_W = false
  rw [grants_W, BitVec.getLsbD_and, hbit, Bool.and_false]

@[simp] theorem leaf_shared (pte : Pte) : (pte.shared PTE_W).leaf = pte.leaf := by
  have hvalid := valid_shared pte
  unfold Pte.leaf
  rw [hvalid]
  rfl

/-- An entry that `copy_pgtable` shares. -/
def Pte.Mine (pte : Pte) : Prop := pte.valid = true ∧ pte.unrelease = false

instance (pte : Pte) : Decidable pte.Mine := inferInstanceAs (Decidable (_ ∧ _))

theorem Pte.leaf_eq_none {pte : Pte} (h : ¬ pte.Mine) : pte.leaf = none := by
  cases hleaf : pte.leaf with
  | none => rfl
  | some no =>
    obtain ⟨hvalid, hmine, -⟩ := Pte.leaf_eq_some.mp hleaf
    exact absurd ⟨hvalid, hmine⟩ h

/-- What the loops of `copy_pgtable` keep. -/
structure Sharing (rest keeps : Nat → Nat) (pinned : Nat → Prop) (tail : Nat → Nat → Prop)
    (c₀ : Copy) (D : Vpn → Prop) (c : Copy) : Prop where
  books : Books.With c.phys (fun x => rest x + c.old.maps x + c.new.maps x) keeps
    (fun no => pinned no ∨ c₀.old.Holds no) tail c.new
  root : c.old.root = c₀.old.root
  mid : c.old.mid = c₀.old.mid
  low : c.old.low = c₀.old.low
  done : ∀ v, D v → (c₀.old.pte v).Mine → c.old.pte v = (c₀.old.pte v).shared PTE_W ∧
    c.new.pte v = (c₀.old.pte v).shared PTE_W ∧ ∀ hd no, (c₀.old.pte v).leaf = some no → ¬ tail hd no
  same : ∀ v, ¬ (D v ∧ (c₀.old.pte v).Mine) →
    c.old.pte v = c₀.old.pte v ∧ c.new.pte v = c₀.new.pte v
  present : ∀ v, (c.new.pte v).valid = true → c.new.Present v

section Sharing

variable {c₀ cp : Copy} {D : Vpn → Prop} {tf' : Nat}

/-- Entries that are not shared are passed over. -/
theorem Sharing.skip {E : Vpn → Prop} (h : Sharing rest keeps pinned tail c₀ D cp)
    (hE : ∀ v, E v → ¬ (c₀.old.pte v).Mine) :
    Sharing rest keeps pinned tail c₀ (fun v => D v ∨ E v) cp := by
  refine ⟨h.books, h.root, h.mid, h.low, ?_, ?_, h.present⟩
  · rintro v (hD | hv) hmine
    · exact h.done v hD hmine
    · exact absurd hmine (hE v hv)
  · intro v hv
    exact h.same v fun hD => hv ⟨.inl hD.1, hD.2⟩

/-- A table of the child is entered. -/
theorem Sharing.enter (h : Sharing rest keeps pinned tail c₀ D cp) {s : Buddy} {new : PageTable}
    (hbooks : Books.With s (fun x => rest x + cp.old.maps x + cp.new.maps x) keeps
      (fun no => pinned no ∨ c₀.old.Holds no) tail new) (hw : Walked cp.new new) :
    Sharing rest keeps pinned tail c₀ D { cp with phys := s, new := new } := by
  refine ⟨?_, h.root, h.mid, h.low, ?_, ?_, ?_⟩
  · refine Books.congr hbooks (fun x => ?_) fun _ => rfl
    rw [PageTable.maps_congr hw.pte]
  · intro v hD hmine
    have hdone := h.done v hD hmine
    rw [← hw.pte] at hdone
    exact hdone
  · intro v hv
    have hsame := h.same v hv
    rw [← hw.pte] at hsame
    exact hsame
  · intro v hv
    rw [hw.pte] at hv
    exact hw.present v (h.present v hv)

theorem Sharing.old_leaf (h : Sharing rest keeps pinned tail c₀ D cp) (v : Vpn) :
    (cp.old.pte v).leaf = (c₀.old.pte v).leaf := by
  by_cases hv : D v ∧ (c₀.old.pte v).Mine
  · rw [(h.done v hv.1 hv.2).1, leaf_shared]
  · rw [(h.same v hv).1]

theorem Sharing.old_maps (h : Sharing rest keeps pinned tail c₀ D cp) (x : Nat) :
    cp.old.maps x = c₀.old.maps x :=
  Nat.le_antisymm (PageTable.maps_le fun v hv => h.old_leaf v ▸ hv)
    (PageTable.maps_le fun v hv => (h.old_leaf v).trans hv)

theorem Sharing.new_leaf (h : Sharing rest keeps pinned tail c₀ D cp)
    (hnew : ∀ v, (c₀.new.pte v).leaf = none) {v : Vpn} {x : Nat}
    (hv : (cp.new.pte v).leaf = some x) : D v ∧ (c₀.old.pte v).leaf = some x := by
  by_cases hD : D v ∧ (c₀.old.pte v).Mine
  · rw [(h.done v hD.1 hD.2).2.1, leaf_shared] at hv
    exact ⟨hD.1, hv⟩
  · rw [(h.same v hD).2, hnew v] at hv
    cases hv

theorem copyEntry_sharing (hold : Space rest tf c₀.old) (hnew : ∀ v, (c₀.new.pte v).leaf = none)
    (hfew : ∀ x, rest x + 3 < 65536) (hc : (∃ hd t, tail hd t) → c) {v : Vpn} (hv : ¬ D v)
    (h : Sharing rest keeps pinned tail c₀ D cp) (hpresent : cp.new.Present v) :
    Meets (Unless c) (copyEntry PTE_W v cp) fun cp' =>
      Sharing rest keeps pinned tail c₀ (fun w => D w ∨ w = v) cp' ∧
        cp'.new.mid = cp.new.mid ∧ cp'.new.low = cp.new.low := by
  have hthis := h.same v fun hD => hv hD.1
  unfold copyEntry
  simp only [hthis.1]
  refine .ite (fun hmine => ?_) fun hmine => .ite (fun hvalid => ?_) fun hvalid => ?_
  · refine .ok ⟨h.skip ?_, rfl, rfl⟩
    rintro w rfl ⟨-, hnot⟩
    rw [hmine] at hnot
    cases hnot
  · rw [Bool.not_eq_true] at hmine
    obtain ⟨no, hpaddr⟩ := hold.page v hvalid hmine
    have hleaf : (c₀.old.pte v).leaf = some no := Pte.leaf_eq_some.mpr ⟨hvalid, hmine, hpaddr⟩
    have hold₁ : cp.old.maps no = 1 := by
      rw [h.old_maps]
      exact Nat.le_antisymm (hold.single no) (PageTable.maps_pos.mpr ⟨v, hleaf⟩)
    have hnew₁ : cp.new.maps no ≤ 1 := by
      refine Nat.le_trans (PageTable.maps_le fun w hw => ?_) (hold.single no)
      exact (h.new_leaf hnew hw).2
    have hroom := hfew no
    rw [hpaddr]
    have hdup := Books.dup h.books hc (show 0 < rest no + cp.old.maps no + cp.new.maps no by omega)
      (by omega)
    refine hdup.bind ?_
    rintro s ⟨hbooks, hno⟩
    -- the entry is stored in both tables
    let pte := (c₀.old.pte v).shared PTE_W
    have hpte : ({ c₀.old.pte v with perm := (c₀.old.pte v).perm &&& ~~~PTE_W } : Pte) = pte := rfl
    have hpteLeaf : pte.leaf = some no := (leaf_shared _).trans hleaf
    have holdMaps : ∀ x, (cp.old.setPte v pte).maps x = cp.old.maps x := by
      intro x
      have hset := cp.old.maps_set v pte x
      rw [hthis.1, hleaf, hpteLeaf] at hset
      exact Nat.add_right_cancel hset
    have hnewMaps : ∀ x, (cp.new.setPte v pte).maps x = cp.new.maps x + one no x := by
      intro x
      have hset := cp.new.maps_set v pte x
      have hnone : ¬ (none : Option Nat) = some x := nofun
      rw [hthis.2, hnew v, hpteLeaf, if_neg hnone, Nat.add_zero, ite_some_eq_one] at hset
      exact hset
    rw [← hpaddr, hpte]
    refine .pure ⟨⟨?_, h.root, h.mid, h.low, ?_, ?_, ?_⟩, rfl, rfl⟩
    · refine Books.congr hbooks (fun x => ?_) fun _ => rfl
      show rest x + (cp.old.setPte v pte).maps x + (cp.new.setPte v pte).maps x = _
      rw [holdMaps, hnewMaps, Nat.add_assoc (rest x + _)]
    · intro w hD hw
      show update cp.old.pte v pte w = _ ∧ update cp.new.pte v pte w = _ ∧ _
      by_cases hwv : w = v
      · subst hwv
        rw [update_self, update_self]
        refine ⟨rfl, rfl, fun hd x hx => ?_⟩
        rw [hleaf] at hx
        exact Option.some.inj hx ▸ hno hd
      · rw [update_of_ne hwv, update_of_ne hwv]
        exact h.done w (hD.resolve_right hwv) hw
    · intro w hw
      show update cp.old.pte v pte w = _ ∧ update cp.new.pte v pte w = _
      have hwv : w ≠ v := by
        rintro rfl
        exact hw ⟨.inr rfl, hvalid, hmine⟩
      rw [update_of_ne hwv, update_of_ne hwv]
      exact h.same w fun hD => hw ⟨.inl hD.1, hD.2⟩
    · intro w hw
      have hw : (update cp.new.pte v pte w).valid = true := hw
      by_cases hwv : w = v
      · rw [hwv]
        exact hpresent
      · rw [update_of_ne hwv] at hw
        exact h.present w hw
  · refine .ok ⟨h.skip ?_, rfl, rfl⟩
    rintro w rfl ⟨hnot, -⟩
    exact hvalid hnot

/-- Where a table of the old address space is missing, nothing is shared. -/
theorem not_mine_of_absent (hold : Space rest tf c₀.old) {v : Vpn} (hv : ¬ c₀.old.Present v) :
    ¬ (c₀.old.pte v).Mine :=
  fun hmine => hv (hold.present v hmine.1)

theorem copyLow_sharing (hold : Space rest tf c₀.old) (hnew : ∀ v, (c₀.new.pte v).leaf = none)
    (hfew : ∀ x, rest x + 3 < 65536) (hc : (∃ hd t, tail hd t) → c) {i j : Idx}
    (hD : ∀ k, ¬ D (i, j, k)) (h : Sharing rest keeps pinned tail c₀ D cp)
    (hmid : (cp.new.mid i).isSome = true) (hlow : (cp.new.low i j).isSome = true) :
    Meets (Unless c) (copyLow PTE_W i j cp) fun cp' =>
      Sharing rest keeps pinned tail c₀ (fun v => D v ∨ (v.1 = i ∧ v.2.1 = j)) cp' ∧
        (cp'.new.mid i).isSome = true ∧ (cp'.new.low i j).isSome = true := by
  unfold copyLow
  refine visitLow (fun D cp => Sharing rest keeps pinned tail c₀ D cp ∧
    (cp.new.mid i).isSome = true ∧ (cp.new.low i j).isSome = true) _ i j ⟨h, hmid, hlow⟩ hD ?_
  rintro D k cp hk ⟨hinv, hmid, hlow⟩
  refine (copyEntry_sharing hold hnew hfew hc hk hinv ⟨hmid, hlow⟩).mono ?_
  rintro cp' ⟨hinv', hmid', hlow'⟩
  rw [hmid', hlow']
  exact ⟨hinv', hmid, hlow⟩

theorem copyMid_sharing (hold : Space rest tf c₀.old) (hnew : ∀ v, (c₀.new.pte v).leaf = none)
    (hfew : ∀ x, rest x + 3 < 65536) (hc : (∃ hd t, tail hd t) → c) {i : Idx}
    (hD : ∀ j k, ¬ D (i, j, k)) (h : Sharing rest keeps pinned tail c₀ D cp)
    (hmid : (cp.new.mid i).isSome = true) :
    Meets (Unless c) (copyMid PTE_W i cp) fun cp' =>
      Sharing rest keeps pinned tail c₀ (fun v => D v ∨ v.1 = i) cp' ∧
        (cp'.new.mid i).isSome = true := by
  unfold copyMid
  refine visitMid (fun D cp => Sharing rest keeps pinned tail c₀ D cp ∧
    (cp.new.mid i).isSome = true) _ i ⟨h, hmid⟩ hD ?_
  rintro D j cp hj ⟨hinv, hmid⟩
  refine .ite (fun _ => ?_) fun hlow => .ok ⟨hinv.skip ?_, hmid⟩
  · refine (enterLow_books hinv.books i j).bind ?_
    rintro ⟨s, new⟩ ⟨hbooks, hw, hmid', hlow'⟩
    have hmid' : (new.mid i).isSome = true := by
      rw [show new.mid = cp.new.mid from hmid']
      exact hmid
    refine (copyLow_sharing hold hnew hfew hc hj (hinv.enter hbooks hw) hmid' hlow').mono ?_
    exact fun cp' hcp' => ⟨hcp'.1, hcp'.2.1⟩
  · rintro v ⟨rfl, rfl⟩
    rw [hinv.low] at hlow
    exact not_mine_of_absent hold fun hp => hlow hp.2

theorem copyPgtable_sharing (hold : Space rest tf c₀.old) (hnew : ∀ v, (c₀.new.pte v).leaf = none)
    (hfew : ∀ x, rest x + 3 < 65536) (hc : (∃ hd t, tail hd t) → c)
    (h : Sharing rest keeps pinned tail c₀ (fun _ => False) c₀) :
    Meets (Unless c) (copyPgtable PTE_W c₀)
      (Sharing rest keeps pinned tail c₀ fun _ => True) := by
  unfold copyPgtable
  refine visitTop (Sharing rest keeps pinned tail c₀) _ h fun D i cp hi hinv => ?_
  refine .ite (fun _ => ?_) fun hmid => .ok (hinv.skip ?_)
  · refine (enterMid_books hinv.books i).bind ?_
    rintro ⟨s, new⟩ ⟨hbooks, hw, hmid'⟩
    refine (copyMid_sharing hold hnew hfew hc hi (hinv.enter hbooks hw) hmid').mono ?_
    exact fun cp' hcp' => hcp'.1
  · rintro v rfl
    rw [hinv.mid] at hmid
    exact not_mine_of_absent hold fun hp => hmid hp.1

end Sharing

section Shared

variable {old new old' new' : PageTable} {tf' : Nat}

/-- What `copy_pgtable` has done when it returns: the tables share every page of the user, and
    neither lets the user write to one. -/
structure Shared (old new old' new' : PageTable) : Prop where
  root : old'.root = old.root
  mid : old'.mid = old.mid
  low : old'.low = old.low
  parent : ∀ v, old'.pte v = if (old.pte v).Mine then (old.pte v).shared PTE_W else old.pte v
  child : ∀ v, new'.pte v = if (old.pte v).Mine then (old.pte v).shared PTE_W else new.pte v

theorem Shared.old_leaf (h : Shared old new old' new') (v : Vpn) :
    (old'.pte v).leaf = (old.pte v).leaf := by
  rw [h.parent]
  split
  · rw [leaf_shared]
  · rfl

theorem Shared.new_leaf (h : Shared old new old' new') (hnew : ∀ v, (new.pte v).leaf = none)
    (v : Vpn) : (new'.pte v).leaf = (old.pte v).leaf := by
  rw [h.child]
  split
  · rw [leaf_shared]
  · rename_i hmine
    rw [hnew, Pte.leaf_eq_none hmine]

theorem maps_of_leaf {pt pt' : PageTable} (h : ∀ v, (pt'.pte v).leaf = (pt.pte v).leaf) (x : Nat) :
    pt'.maps x = pt.maps x :=
  Nat.le_antisymm (PageTable.maps_le fun v hv => h v ▸ hv)
    (PageTable.maps_le fun v hv => (h v).trans hv)

theorem Shared.old_space (h : Shared old new old' new') (hs : Space rest tf old)
    (rest' : Nat → Nat) : Space rest' tf old' := by
  have hkeep : ∀ v, (old'.pte v).valid = (old.pte v).valid ∧
      (old'.pte v).unrelease = (old.pte v).unrelease ∧ (old'.pte v).paddr = (old.pte v).paddr := by
    intro v
    rw [h.parent]
    split
    · exact ⟨valid_shared _, rfl, rfl⟩
    · exact ⟨rfl, rfl, rfl⟩
  refine ⟨fun v hv hu => ?_, fun v hu => ?_, fun v hv => ?_, fun v hv => ?_, fun no => ?_,
    fun v no hv hw => ?_⟩
  · rw [(hkeep v).1] at hv
    rw [(hkeep v).2.1] at hu
    rw [(hkeep v).2.2]
    exact hs.page v hv hu
  · rw [(hkeep v).2.1] at hu
    have hmine : ¬ (old.pte v).Mine := fun hmine => nomatch hmine.2.symm.trans hu
    rw [h.parent, if_neg hmine]
    exact hs.top v hu
  · rw [(hkeep v).1] at hv
    have hmine : ¬ (old.pte v).Mine := fun hmine => nomatch hmine.1.symm.trans hv
    rw [h.parent, if_neg hmine]
    exact hs.blank v hv
  · rw [(hkeep v).1] at hv
    unfold PageTable.Present
    rw [h.mid, h.low]
    exact hs.present v hv
  · rw [maps_of_leaf h.old_leaf]
    exact hs.single no
  · rw [h.old_leaf] at hv
    obtain ⟨hvalid, hmine, -⟩ := Pte.leaf_eq_some.mp hv
    rw [h.parent, if_pos ⟨hvalid, hmine⟩, not_writable_shared] at hw
    cases hw

theorem Shared.new_space (h : Shared old new old' new') (hs : Space rest tf old)
    (hs' : Space rest tf' new) (hnew : ∀ v, (new.pte v).leaf = none)
    (hpresent : ∀ v, (new'.pte v).valid = true → new'.Present v) (rest' : Nat → Nat) :
    Space rest' tf' new' := by
  refine ⟨fun v hv hu => ?_, fun v hu => ?_, fun v hv => ?_, hpresent, fun no => ?_,
    fun v no hv hw => ?_⟩
  · rw [h.child] at hv hu ⊢
    split at hv
    · rename_i hmine
      rw [if_pos hmine]
      exact hs.page v hmine.1 hmine.2
    · rename_i hmine
      rw [if_neg hmine] at hu ⊢
      exact hs'.page v hv hu
  · rw [h.child] at hu ⊢
    split at hu
    · rename_i hmine
      have hu : (old.pte v).unrelease = true := hu
      rw [hmine.2] at hu
      cases hu
    · rename_i hmine
      rw [if_neg hmine]
      exact hs'.top v hu
  · rw [h.child] at hv ⊢
    split at hv
    · rename_i hmine
      rw [valid_shared, hmine.1] at hv
      cases hv
    · rename_i hmine
      rw [if_neg hmine]
      exact hs'.blank v hv
  · rw [maps_of_leaf (h.new_leaf hnew)]
    exact hs.single no
  · rw [h.new_leaf hnew] at hv
    obtain ⟨hvalid, hmine, -⟩ := Pte.leaf_eq_some.mp hv
    rw [h.child, if_pos ⟨hvalid, hmine⟩, not_writable_shared] at hw
    cases hw

theorem Shared.complete (h : Shared old new old' new') (hc : Complete old) (hc' : Complete new) :
    Complete old' ∧ Complete new' := by
  have hnot : ∀ a, TRAPFRAME ≤ a → a < MAXVA → ¬ (old.pte (vpn a)).Mine := by
    intro a hlo hhi hmine
    have htop := (hc a hlo hhi).2
    rw [hmine.2] at htop
    cases htop
  constructor
  · intro a hlo hhi
    rw [h.parent, if_neg (hnot a hlo hhi)]
    exact hc a hlo hhi
  · intro a hlo hhi
    rw [h.child, if_neg (hnot a hlo hhi)]
    exact hc' a hlo hhi

/-- The address space of a process and a new one without pages, after `copy_pgtable`. -/
structure Forked (s : Buddy) (rest keeps : Nat → Nat) (pinned : Nat → Prop)
    (tail : Nat → Nat → Prop) (tf tf' : Nat) (old new old' new' : PageTable) : Prop where
  shared : Shared old new old' new'
  books : Books s (fun x => rest x + old'.maps x + new'.maps x) keeps
    (fun no => (pinned no ∨ old'.Holds no) ∨ new'.Holds no) tail
  old_maps : ∀ x, old'.maps x = old.maps x
  new_maps : ∀ x, new'.maps x = old.maps x
  old_space : Space (fun x => rest x + new'.maps x) tf old'
  new_space : Space (fun x => rest x + old'.maps x) tf' new'
  old_complete : Complete old'
  new_complete : Complete new'
  clear : ∀ hd t, tail hd t → old.maps t = 0

theorem copyPgtable_books
    (h : Books.With s (fun x => rest x + old.maps x) keeps (fun no => pinned no ∨ old.Holds no) tail
      new) (hs : Space rest tf old) (hs' : Space rest tf' new) (hcold : Complete old)
    (hcnew : Complete new) (hnew : ∀ v, (new.pte v).leaf = none) (hfew : ∀ x, rest x + 3 < 65536)
    (hc : (∃ hd t, tail hd t) → c) :
    Meets (Unless c) (copyPgtable PTE_W ⟨s, new, old⟩) fun cp =>
      Forked cp.phys rest keeps pinned tail tf tf' old new cp.old cp.new := by
  have hzero : ∀ x, new.maps x = 0 := by
    intro x
    by_contra hpos
    obtain ⟨v, hv⟩ := PageTable.maps_pos.mp (Nat.pos_of_ne_zero hpos)
    rw [hnew v] at hv
    cases hv
  have hstart : Sharing rest keeps pinned tail ⟨s, new, old⟩ (fun _ => False) ⟨s, new, old⟩ := by
    refine ⟨?_, rfl, rfl, rfl, fun _ hf => hf.elim, fun _ _ => ⟨rfl, rfl⟩, hs'.present⟩
    refine Books.congr h (fun x => ?_) fun _ => rfl
    show rest x + old.maps x + new.maps x = _
    rw [hzero, Nat.add_zero]
  refine (copyPgtable_sharing hs hnew hfew hc hstart).mono fun cp hcp => ?_
  have hshared : Shared old new cp.old cp.new := by
    refine ⟨hcp.root, hcp.mid, hcp.low, fun v => ?_, fun v => ?_⟩
    · by_cases hmine : (old.pte v).Mine
      · rw [if_pos hmine]
        exact (hcp.done v trivial hmine).1
      · rw [if_neg hmine]
        exact (hcp.same v fun hD => hmine hD.2).1
    · by_cases hmine : (old.pte v).Mine
      · rw [if_pos hmine]
        exact (hcp.done v trivial hmine).2.1
      · rw [if_neg hmine]
        exact (hcp.same v fun hD => hmine hD.2).2
  have hcomplete := hshared.complete hcold hcnew
  have hholds : ∀ no, cp.old.Holds no → old.Holds no := by
    intro no hno
    unfold PageTable.Holds at hno
    rw [hcp.root, hcp.mid, hcp.low] at hno
    exact hno
  refine ⟨hshared, ?_, maps_of_leaf hshared.old_leaf, maps_of_leaf (hshared.new_leaf hnew),
    hshared.old_space hs _, hshared.new_space hs hs' hnew hcp.present _, hcomplete.1, hcomplete.2, ?_⟩
  · refine hcp.books.unpin ?_
    rintro no ((hp | hno) | hno)
    · exact .inl (.inl hp)
    · exact .inl (.inr (hholds no hno))
    · exact .inr hno
  · intro hd t ht
    by_contra hpos
    obtain ⟨v, hv⟩ := PageTable.maps_pos.mp (Nat.pos_of_ne_zero hpos)
    obtain ⟨hvalid, hmine, -⟩ := Pte.leaf_eq_some.mp hv
    exact (hcp.done v trivial ⟨hvalid, hmine⟩).2.2 hd t hv ht

end Shared

end Uniks.Vm
