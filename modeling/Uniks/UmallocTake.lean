/-
  Taking a block: `malloc` and `morecore` of `user/libs/umalloc.c`.

  `malloc` looks from where the last call stopped, finds the first block that is large enough and
  takes it whole or cuts its tail off; if there is none it gets more memory, which `morecore` lays
  behind the last block and gives back to the ring.
-/
import Uniks.Mm
import Uniks.UmallocFree

namespace Uniks.Umalloc

open Uniks.Rings Uniks.Runs Uniks.Tiles

variable {base turns x y a p q : Nat} {s s' : Heap} {b c : Block}
  {bs l r pre mid mid' post : List Block} {before : List Nat}

/-! ## Taking a block -/

/-- What `malloc` leaves behind when it has found a block. -/
structure Taken (base : Nat) (s : Heap) (bs : List Block) (nbytes : UInt32) (s' : Heap) (ap : Nat)
    (bs' : List Block) : Prop where
  laid : Laid base s' bs'
  lives : ∃ held held', lives s.startBrk bs = held ++ held' ∧
    lives s.startBrk bs' = held ++ (ap, nbytes) :: held'
  brk : s'.brk = s.brk
  startBrk : s'.startBrk = s.startBrk
  spares : Spares s.mem s'.mem (Umalloc.lives s.startBrk bs')

theorem unitsFor_bytes (n : UInt32) : n.toNat + UNIT ≤ UNIT * unitsFor n := by
  show n.toNat + 16 ≤ 16 * ((n.toNat + 16 - 1) / 16 + 1)
  omega

theorem unitsFor_pos (n : UInt32) : 0 < unitsFor n := Nat.succ_pos _

/-- A block that is free and large enough is found behind `q`. -/
theorem Laid.found (h : Laid base s bs) (hq : q ∈ base :: frees s.startBrk bs)
    (hy : (s.mem q).ptr = y) (hsize : 0 < (s.mem y).size) :
    ∃ pre post before, bs = pre ++ ⟨(s.mem y).size, none⟩ :: post ∧
      y = s.startBrk + width Block.bytes pre ∧ base :: frees s.startBrk pre = before ++ [q] := by
  obtain ⟨before, xs, hsplit⟩ := List.append_of_mem hq
  have hnext : (s.mem q).ptr = xs.headD base := h.ring.next_eq _ hsplit
  cases xs with
  | nil =>
    rw [hy, List.headD_nil] at hnext
    rw [hnext, h.baseSize] at hsize
    exact absurd hsize (Nat.lt_irrefl 0)
  | cons z xs =>
    rw [hy, List.headD_cons] at hnext
    subst hnext
    have hyin : y ∈ frees s.startBrk bs := by
      have hcons : y ∈ base :: frees s.startBrk bs := by
        rw [hsplit]
        simp
      rcases List.mem_cons.mp hcons with rfl | hin
      · rw [h.baseSize] at hsize
        exact absurd hsize (Nat.lt_irrefl 0)
      · exact hin
    obtain ⟨b, hb, hfree⟩ := mem_frees_iff.mp hyin
    have hbsize := h.sizes y b hb
    obtain ⟨pre, post, rfl, haddr⟩ := mem_place_iff.mp hb
    refine ⟨pre, post, before, ?_, haddr, ?_⟩
    · rw [hbsize, ← hfree]
    · -- both sides are what comes before `y`
      have hnodup : (base :: frees s.startBrk (pre ++ b :: post)).Nodup :=
        h.sorted.imp Nat.ne_of_lt
      have hall : base :: frees s.startBrk (pre ++ b :: post) =
          (base :: frees s.startBrk pre) ++ y :: frees (y + b.bytes) post := by
        rw [frees_append, ← haddr, frees_cons_free hfree]
        rfl
      have hsplit' : base :: frees s.startBrk (pre ++ b :: post) = (before ++ [q]) ++ y :: xs := by
        rw [hsplit]
        simp
      have hleft : y ∉ base :: frees s.startBrk pre := by
        rw [hall] at hnodup
        exact fun hin => (List.nodup_append.mp hnodup).2.2 y hin y List.mem_cons_self rfl
      have hright : y ∉ frees (y + b.bytes) post := by
        rw [hall] at hnodup
        exact (List.nodup_cons.mp (List.nodup_append.mp hnodup).2.1).1
      exact ((List.append_cons_inj_of_notMem hleft hright).mp (hall.symm.trans hsplit')).1

theorem setSize_mem (s : Heap) (a v x : Nat) :
    (s.setSize a v).mem x = if x = a then ⟨(s.mem a).ptr, v⟩ else s.mem x :=
  Function.update_apply ..

theorem setPtr_mem (s : Heap) (a v x : Nat) :
    (s.setPtr a v).mem x = if x = a then ⟨v, (s.mem a).size⟩ else s.mem x :=
  Function.update_apply ..

theorem unjoined_live (hpre : Unjoined pre) (hpost : Unjoined post) (hc : c.owner.isSome) :
    Unjoined (pre ++ [c] ++ post) := by
  refine List.IsChain.append (List.IsChain.append hpre (List.IsChain.singleton c) ?_) hpost ?_
  · intro _ _ y hy
    cases hy
    exact .inr hc
  · intro x hx _ _
    rw [List.getLast?_concat] at hx
    cases hx
    exact .inl hc

/-- A free block of the right size is taken off the ring. -/
theorem Laid.take_whole {n : UInt32} (h : Laid base s (pre ++ ⟨unitsFor n, none⟩ :: post))
    (hy : y = s.startBrk + width Block.bytes pre)
    (hq : base :: frees s.startBrk pre = before ++ [q])
    (hmem : ∀ a, s'.mem a = if a = q then ⟨(s.mem y).ptr, (s.mem q).size⟩ else s.mem a)
    (hfreep : s'.freep = q) (hbrk : s'.brk = s.brk) (hstart : s'.startBrk = s.startBrk)
    (hlast : s'.lastBrk = s.lastBrk) :
    Taken base s (pre ++ ⟨unitsFor n, none⟩ :: post) n s' (y + UNIT)
      (pre ++ [⟨unitsFor n, some n⟩] ++ post) := by
  have hlist : pre ++ ⟨unitsFor n, none⟩ :: post = pre ++ [⟨unitsFor n, none⟩] ++ post := by simp
  have hone := unit_pos
  have hqy : q < y :=
    hy ▸ h.before_lt (hq ▸ List.mem_append_right before List.mem_cons_self)
  have hptr : (s.mem y).ptr = (frees (y + UNIT * unitsFor n) post).headD base := by
    refine h.ring.next_eq (base :: frees s.startBrk pre) ?_
    rw [frees_append, ← hy, frees_cons_free rfl]
    rfl
  have hend : s.startBrk + width Block.bytes (pre ++ [⟨unitsFor n, none⟩]) =
      y + UNIT * unitsFor n := by
    rw [width_append, ← Nat.add_assoc, ← hy]
    rfl
  have hfits : ∀ c ∈ [(⟨unitsFor n, some n⟩ : Block)], ∀ k, c.owner = some k →
      k.toNat + UNIT ≤ c.bytes := by
    intro c hc k hk
    rw [List.mem_singleton.mp hc] at hk ⊢
    cases hk
    exact unitsFor_bytes n
  have hchain := List.isChain_append.mp h.apart
  have hlaid : Laid base s' (pre ++ [⟨unitsFor n, some n⟩] ++ post) := by
    have hsplit : Laid base s (pre ++ [⟨unitsFor n, none⟩] ++ post) := hlist ▸ h
    refine hsplit.exchange hq rfl ?_ hfits (unjoined_live hchain.1 hchain.2.1.tail rfl)
      ?_ ?_ ?_ ?_ ?_ hbrk hstart hlast
    · intro c hc
      rw [List.mem_singleton.mp hc]
      exact unitsFor_pos n
    · intro a c hac
      rw [← hy] at hac
      cases List.mem_singleton.mp hac
      rw [hmem, if_neg (Nat.ne_of_gt hqy), hy]
      exact h.size_block
    · rw [hend, frees_cons_live rfl, frees_nil]
      refine linked_cons_cons.mpr ⟨?_, List.IsChain.singleton _⟩
      rw [hmem, if_pos rfl, hptr]
    · intro a _ hne
      rw [hmem, if_neg hne]
    · rw [hmem, if_pos rfl]
    · rw [hfreep, frees_append, frees_append, ← List.cons_append, ← List.cons_append, hq]
      simp
  refine ⟨hlaid, ⟨lives s.startBrk pre, lives (y + UNIT * unitsFor n) post, ?_, ?_⟩,
    hbrk, hstart, ?_⟩
  · rw [lives_append, lives_cons_free rfl, ← hy]
    rfl
  · rw [List.append_assoc, lives_append, ← hy]
    rfl
  · intro a ha x hx
    have haq : a = q := by
      by_contra hne
      rw [hmem, if_neg hne] at ha
      exact ha rfl
    subst haq
    rw [← hstart] at hx
    refine hlaid.member_apart ?_ hx
    rw [hstart, frees_append, frees_append, ← List.cons_append, ← List.cons_append, hq]
    simp

/-- The tail of a free block that is larger is cut off. -/
theorem Laid.take_tail {n : UInt32} {u : Nat} (h : Laid base s (pre ++ ⟨u, none⟩ :: post))
    (hu : unitsFor n < u)
    (hy : y = s.startBrk + width Block.bytes pre)
    (hq : base :: frees s.startBrk pre = before ++ [q])
    (hmem : ∀ a, s'.mem a = if a = y + UNIT * (u - unitsFor n) then ⟨(s.mem a).ptr, unitsFor n⟩
      else if a = y then ⟨(s.mem y).ptr, u - unitsFor n⟩ else s.mem a)
    (hfreep : s'.freep = q) (hbrk : s'.brk = s.brk) (hstart : s'.startBrk = s.startBrk)
    (hlast : s'.lastBrk = s.lastBrk) :
    Taken base s (pre ++ ⟨u, none⟩ :: post) n s' (y + UNIT * (u - unitsFor n) + UNIT)
      (pre ++ [⟨u - unitsFor n, none⟩, ⟨unitsFor n, some n⟩] ++ post) := by
  have hlist : pre ++ ⟨u, none⟩ :: post = pre ++ [⟨u, none⟩] ++ post := by simp
  have hone := unit_pos
  have hsum : UNIT * (u - unitsFor n) + UNIT * unitsFor n = UNIT * u := by
    rw [← Nat.mul_add, Nat.sub_add_cancel (Nat.le_of_lt hu)]
  have hfront : 0 < UNIT * (u - unitsFor n) := Nat.mul_pos hone (Nat.sub_pos_of_lt hu)
  have htail : 0 < UNIT * unitsFor n := Nat.mul_pos hone (unitsFor_pos n)
  have hqy : q < y :=
    hy ▸ h.before_lt (hq ▸ List.mem_append_right before List.mem_cons_self)
  have hnext : (s.mem q).ptr = y := by
    have hall : base :: frees s.startBrk (pre ++ ⟨u, none⟩ :: post) =
        before ++ q :: y :: frees (y + UNIT * u) post := by
      rw [frees_append, ← List.cons_append, hq, ← hy, frees_cons_free rfl, List.append_assoc]
      rfl
    exact h.ring.next_eq _ hall
  have hptr : (s.mem y).ptr = (frees (y + UNIT * u) post).headD base := by
    refine h.ring.next_eq (base :: frees s.startBrk pre) ?_
    rw [frees_append, ← hy, frees_cons_free rfl]
    rfl
  have hend : s.startBrk + width Block.bytes (pre ++ [⟨u, none⟩]) = y + UNIT * u := by
    rw [width_append, ← Nat.add_assoc, ← hy]
    rfl
  have hmemq : s'.mem q = s.mem q := by
    rw [hmem, if_neg (by omega), if_neg (Nat.ne_of_lt hqy)]
  have hmemy : s'.mem y = ⟨(s.mem y).ptr, u - unitsFor n⟩ := by
    rw [hmem, if_neg (by omega), if_pos rfl]
  have hchain := List.isChain_append.mp h.apart
  have hplace : place Block.bytes y [⟨u - unitsFor n, none⟩, ⟨unitsFor n, some n⟩] =
      [(y, ⟨u - unitsFor n, none⟩), (y + UNIT * (u - unitsFor n), ⟨unitsFor n, some n⟩)] := rfl
  have hlaid : Laid base s' (pre ++ [⟨u - unitsFor n, none⟩, ⟨unitsFor n, some n⟩] ++ post) := by
    refine Laid.exchange (hlist ▸ h) hq ?_ ?_ ?_ ?_ ?_ ?_ ?_ ?_ ?_ hbrk hstart hlast
    · exact hsum
    · intro c hc
      rcases List.mem_cons.mp hc with rfl | hc
      · exact Nat.sub_pos_of_lt hu
      · rw [List.mem_singleton.mp hc]
        exact unitsFor_pos n
    · intro c hc k hk
      rcases List.mem_cons.mp hc with rfl | hc
      · cases hk
      · rw [List.mem_singleton.mp hc] at hk ⊢
        cases hk
        exact unitsFor_bytes n
    · have hleft : Unjoined (pre ++ [⟨u - unitsFor n, none⟩] ++ []) :=
        unjoined_free hchain.1 List.IsChain.nil
          (fun c hc => (hchain.2.2 c hc _ rfl).resolve_right nofun) nofun _
      rw [List.append_nil] at hleft
      have hboth := unjoined_live (c := ⟨unitsFor n, some n⟩) hleft hchain.2.1.tail rfl
      simpa using hboth
    · intro a c hac
      rw [← hy, hplace] at hac
      rcases List.mem_cons.mp hac with hac | hac
      · cases hac
        exact congrArg Header.size hmemy
      · cases List.mem_singleton.mp hac
        rw [hmem, if_pos rfl]
    · rw [hend, ← hy, frees_cons_free rfl, frees_cons_live rfl, frees_nil]
      refine linked_cons_cons.mpr ⟨(congrArg Header.ptr hmemq).trans hnext, ?_⟩
      refine linked_cons_cons.mpr ⟨?_, List.IsChain.singleton _⟩
      rw [hmemy, hptr]
    · intro a ha hne
      rw [hend, ← hy] at ha
      rw [hmem, if_neg (by omega), if_neg (by omega)]
    · rw [hmemq]
    · rw [hfreep, frees_append, frees_append, ← List.cons_append, ← List.cons_append, hq]
      simp
  refine ⟨hlaid, ⟨lives s.startBrk pre, lives (y + UNIT * u) post, ?_, ?_⟩, hbrk, hstart, ?_⟩
  · rw [lives_append, lives_cons_free rfl, ← hy]
    rfl
  · rw [List.append_assoc, lives_append, ← hy]
    show lives s.startBrk pre ++
      lives y (⟨u - unitsFor n, none⟩ :: ⟨unitsFor n, some n⟩ :: post) = _
    rw [lives_cons_free rfl, lives_cons_live rfl]
    show _ ++ _ :: lives (y + UNIT * (u - unitsFor n) + UNIT * unitsFor n) post = _
    have htailend : y + UNIT * (u - unitsFor n) + UNIT * unitsFor n = y + UNIT * u := by omega
    rw [htailend]
    rfl
  · intro a ha x hx
    rw [← hstart] at hx
    have hay : a = y + UNIT * (u - unitsFor n) ∨ a = y := by
      by_contra hne
      rw [not_or] at hne
      rw [hmem, if_neg hne.1, if_neg hne.2] at ha
      exact ha rfl
    have hstarts : ∀ c, (a, c) ∈ place Block.bytes y
        [⟨u - unitsFor n, none⟩, ⟨unitsFor n, some n⟩] → a + UNIT ≤ x.1 ∨ x.1 + x.2.toNat ≤ a := by
      intro c hc
      refine start_apart hlaid.pos hlaid.fits (c := c) ?_ hx
      rw [place_append, place_append, hstart, ← hy]
      exact List.mem_append_left _ (List.mem_append_right _ hc)
    rw [hplace] at hstarts
    rcases hay with rfl | rfl
    · exact hstarts _ (List.mem_cons_of_mem _ List.mem_cons_self)
    · exact hstarts _ List.mem_cons_self

/-- A block is taken. -/
theorem Laid.take {n : UInt32} (h : Laid base s bs) (hq : q ∈ base :: frees s.startBrk bs)
    (hy : (s.mem q).ptr = y) (hsize : unitsFor n ≤ (s.mem y).size) :
    ∃ s' ap bs', take s (unitsFor n) q y = (s', ap) ∧ ap ≠ 0 ∧ Taken base s bs n s' ap bs' := by
  have hpos := unitsFor_pos n
  have hone := unit_pos
  obtain ⟨pre, post, before, rfl, hyaddr, hbefore⟩ := h.found hq hy (hpos.trans_le hsize)
  have hsplit := h.size_block
  have hend := h.block_end
  have hbound := h.bound
  rw [← hyaddr] at hsplit hend
  obtain ⟨u, hu⟩ : ∃ u, u = (s.mem y).size := ⟨_, rfl⟩
  rw [← hu] at h hsize hsplit hend
  have hunits : UNIT * unitsFor n ≤ UNIT * u := Nat.mul_le_mul_left UNIT hsize
  have hbytes : (⟨u, none⟩ : Block).bytes = UNIT * u := rfl
  have hone' : UNIT * 1 ≤ UNIT * unitsFor n := Nat.mul_le_mul_left UNIT hpos
  unfold Umalloc.take
  rw [← hu]
  by_cases hwhole : u = unitsFor n
  · subst hwhole
    rw [if_pos rfl, after_eq (by omega)]
    refine ⟨_, _, _, rfl, by omega, h.take_whole hyaddr hbefore (fun a => ?_) rfl rfl rfl rfl⟩
    exact setPtr_mem s q _ a
  · have hlt : unitsFor n < u := Nat.lt_of_le_of_ne hsize (Ne.symm hwhole)
    have hsum : UNIT * (u - unitsFor n) + UNIT * unitsFor n = UNIT * u := by
      rw [← Nat.mul_add, Nat.sub_add_cancel hsize]
    have hsub : ((s.setSize y (u - unitsFor n)).mem y).size = u - unitsFor n := by
      rw [setSize_mem, if_pos rfl]
    rw [if_neg hwhole]
    dsimp only
    rw [hsub, after_eq (by omega), after_eq (by omega)]
    refine ⟨_, _, _, rfl, by omega, h.take_tail hlt hyaddr hbefore (fun a => ?_) rfl rfl rfl rfl⟩
    show ((s.setSize y (u - unitsFor n)).setSize _ _).mem a = _
    have hfront : 0 < UNIT * (u - unitsFor n) := Nat.mul_pos hone (Nat.sub_pos_of_lt hlt)
    by_cases ha : a = y + UNIT * (u - unitsFor n)
    · rw [setSize_mem, if_pos ha, if_pos ha, setSize_mem, if_neg (by omega), ha]
    · rw [setSize_mem, if_neg ha, if_neg ha, setSize_mem]

/-! ## Looking for a block -/

variable {nunits k : Nat} {xs : List Nat}

/-- The loop of `malloc` finds the first block that is large enough. -/
theorem mallocLoop_found {prevp : Nat}
    (h : Linked (fun a => (s.mem a).ptr) (prevp :: xs ++ [s.freep]))
    (hne : ∀ x ∈ xs, x ≠ s.freep) (hex : ∃ y ∈ xs ++ [s.freep], nunits ≤ (s.mem y).size)
    (hk : xs.length < k) :
    ∃ q ∈ prevp :: xs, nunits ≤ (s.mem (s.mem q).ptr).size ∧
      mallocLoop nunits k s prevp (s.mem prevp).ptr = some (take s nunits q (s.mem q).ptr) := by
  obtain ⟨k, rfl⟩ := Nat.exists_eq_succ_of_ne_zero (Nat.ne_zero_of_lt hk)
  induction xs generalizing prevp k with
  | nil =>
    obtain ⟨y, hy, hsize⟩ := hex
    obtain rfl := List.mem_singleton.mp hy
    have hnext : (s.mem prevp).ptr = s.freep := (linked_cons_cons.mp h).1
    rw [← hnext] at hsize
    exact ⟨prevp, List.mem_cons_self, hsize, if_pos hsize⟩
  | cons x xs ih =>
    have hnext : (s.mem prevp).ptr = x := (linked_cons_cons.mp h).1
    by_cases hsize : nunits ≤ (s.mem x).size
    · rw [← hnext] at hsize
      exact ⟨prevp, List.mem_cons_self, hsize, if_pos hsize⟩
    · have hrest : ∃ y ∈ xs ++ [s.freep], nunits ≤ (s.mem y).size := by
        obtain ⟨y, hy, hfit⟩ := hex
        rcases List.mem_cons.mp hy with rfl | hy
        · exact absurd hfit hsize
        · exact ⟨y, hy, hfit⟩
      obtain ⟨k, rfl⟩ := Nat.exists_eq_succ_of_ne_zero
        (Nat.ne_zero_of_lt (Nat.lt_of_succ_lt_succ hk))
      obtain ⟨q, hq, hfit, hrun⟩ := ih (linked_cons_cons.mp h).2
        (fun y hy => hne y (List.mem_cons_of_mem x hy)) hrest k (Nat.lt_of_succ_lt_succ hk)
      refine ⟨q, List.mem_cons_of_mem prevp hq, hfit, ?_⟩
      rw [hnext, mallocLoop, if_neg hsize, if_neg (hne x List.mem_cons_self)]
      exact hrun

/-- If there is none it comes back to where it began, and gets more memory. -/
theorem mallocLoop_more {prevp : Nat}
    (h : Linked (fun a => (s.mem a).ptr) (prevp :: xs ++ [s.freep]))
    (hne : ∀ x ∈ xs, x ≠ s.freep) (hnone : ∀ y ∈ xs ++ [s.freep], (s.mem y).size < nunits) :
    mallocLoop nunits (xs.length + 1 + k) s prevp (s.mem prevp).ptr = (do
      let (s, p) ← morecore k s nunits
      if p = 0 then return (s, 0)
      mallocLoop nunits k s p (s.mem p).ptr) := by
  induction xs generalizing prevp with
  | nil =>
    have hnext : (s.mem prevp).ptr = s.freep := (linked_cons_cons.mp h).1
    have hsize := hnone s.freep List.mem_cons_self
    rw [List.length_nil, Nat.zero_add, Nat.add_comm, mallocLoop, hnext,
      if_neg (Nat.not_le.mpr hsize), if_pos rfl]
  | cons x xs ih =>
    have hnext : (s.mem prevp).ptr = x := (linked_cons_cons.mp h).1
    have hsize := hnone x List.mem_cons_self
    have hturns : (x :: xs).length + 1 + k = xs.length + 1 + k + 1 := by
      rw [List.length_cons]
      omega
    rw [hturns, mallocLoop, hnext, if_neg (Nat.not_le.mpr hsize),
      if_neg (hne x List.mem_cons_self)]
    exact ih (linked_cons_cons.mp h).2 (fun y hy => hne y (List.mem_cons_of_mem x hy))
      fun y hy => hnone y (List.mem_cons_of_mem x hy)

/-- The ring, entered where the next search begins. -/
theorem Laid.from_freep (h : Laid base s bs) : ∃ xs,
    Linked (fun a => (s.mem a).ptr) (s.freep :: xs ++ [s.freep]) ∧ (∀ x ∈ xs, x ≠ s.freep) ∧
      (s.freep :: xs).Perm (base :: frees s.startBrk bs) := by
  obtain ⟨xs, hring, hperm⟩ := h.ring.enter h.freep
  have hnodup : (s.freep :: xs).Nodup := hperm.nodup_iff.mpr (h.sorted.imp Nat.ne_of_lt)
  refine ⟨xs, hring, fun x hx heq => ?_, hperm⟩
  exact (List.nodup_cons.mp hnodup).1 (heq ▸ hx)

/-! ## More memory -/

/-- The end of the heap is kept by the kernel, which does the same with it. -/
theorem brk_sysBrk {mm : Vm.Mm} {addr : Nat} (hcount : 4 ≤ mm.mapCount)
    (hstart : mm.startBrk = s.startBrk) (hbrk : mm.brk = s.brk) :
    ∃ mm', Vm.sysBrk mm addr = .ok mm' ∧ mm'.startBrk = (brk s addr).1.startBrk ∧
      mm'.brk = (brk s addr).1.brk ∧ mm'.brk = (brk s addr).2 := by
  unfold Vm.sysBrk brk
  by_cases hle : addr ≤ s.startBrk
  · rw [if_pos hle, if_pos (hstart ▸ hle)]
    exact ⟨mm, rfl, hstart, hbrk, hbrk⟩
  · rw [if_neg hle, if_neg (hstart ▸ hle), if_pos hcount]
    exact ⟨_, rfl, hstart, rfl, rfl⟩

/-- `sbrk` as long as no address wraps around: the memory behind the end of the heap. -/
theorem sbrk_eq {inc : Nat} (hlast : s.lastBrk = s.brk ∨ s.lastBrk = 0)
    (hstart : s.startBrk ≤ s.brk) (hinc : 0 < inc) (hsmall : s.brk + inc < 2 ^ 64) :
    sbrk s inc = ({ s with brk := s.brk + inc, lastBrk := s.brk + inc }, s.brk) := by
  have hbrk : ∀ t : Heap, t.startBrk = s.startBrk →
      brk t (s.brk + inc) = ({ t with brk := s.brk + inc }, s.brk + inc) := by
    intro t ht
    rw [brk, if_neg (by omega)]
  unfold sbrk
  by_cases hzero : s.lastBrk = 0
  · rw [if_pos hzero, brk, if_pos (Nat.zero_le _)]
    dsimp only
    rw [Nat.mod_eq_of_lt hsmall, hbrk { s with lastBrk := s.brk } rfl]
    dsimp only
    rw [if_neg (Nat.lt_irrefl _)]
  · have heq : s.lastBrk = s.brk := hlast.resolve_right hzero
    rw [if_neg hzero]
    dsimp only
    rw [heq, Nat.mod_eq_of_lt hsmall, hbrk s rfl]
    dsimp only
    rw [if_neg (Nat.lt_irrefl _)]

/-- How much `morecore` asks for. -/
def moreUnits (nu : Nat) : Nat := if nu < PGSIZE then PGSIZE else nu

theorem moreUnits_pos (nu : Nat) : 0 < moreUnits nu := by
  unfold moreUnits
  split
  · decide
  · rename_i h
    exact Nat.lt_of_lt_of_le (by decide) (Nat.not_lt.mp h)

theorem le_moreUnits (nu : Nat) : nu ≤ moreUnits nu := by
  unfold moreUnits
  split
  · rename_i h
    exact Nat.le_of_lt h
  · exact Nat.le_refl _

theorem morecore_eq (turns : Nat) (s : Heap) (nu : Nat) : morecore turns s nu =
    if (sbrk s (moreUnits nu * UNIT)).2 = 2 ^ 64 - 1 then
      some ((sbrk s (moreUnits nu * UNIT)).1, 0)
    else (free turns ((sbrk s (moreUnits nu * UNIT)).1.setSize (sbrk s (moreUnits nu * UNIT)).2
      (moreUnits nu)) (after (sbrk s (moreUnits nu * UNIT)).2 1)).bind fun t => some (t, t.freep) :=
  rfl

/-- There is room for what `morecore` asks for. -/
def Room (s : Heap) (nu : Nat) : Prop :=
  s.brk + UNIT * moreUnits nu < 2 ^ 64 ∧ s.brk + UNIT * moreUnits nu < s.startBrk + UNIT * 2 ^ 32

instance (s : Heap) (nu : Nat) : Decidable (Room s nu) := inferInstanceAs (Decidable (_ ∧ _))

/-- A block is laid behind the last. -/
theorem Laid.extend {nu : Nat} (h : Laid base s bs) (hroom : Room s nu)
    (hmem : ∀ a, s'.mem a = if a = s.brk then ⟨(s.mem s.brk).ptr, moreUnits nu⟩ else s.mem a)
    (hfreep : s'.freep = s.freep) (hbrk : s'.brk = s.brk + UNIT * moreUnits nu)
    (hstart : s'.startBrk = s.startBrk) (hlast : s'.lastBrk = s'.brk) :
    Laid base s' (bs ++ [⟨moreUnits nu, some 0⟩]) := by
  have hone := unit_pos
  have htop := h.top
  have hpos := moreUnits_pos nu
  have hfrees : frees s.startBrk (bs ++ [⟨moreUnits nu, some 0⟩]) = frees s.startBrk bs := by
    rw [frees_append, frees_cons_live rfl, frees_nil, List.append_nil]
  have hin : ∀ x ∈ base :: frees s.startBrk bs, x < s.brk := by
    intro x hx
    rw [htop]
    exact Laid.before_lt (r := []) ((List.append_nil bs).symm ▸ h) hx
  have hsame : ∀ x ∈ base :: frees s.startBrk bs, s'.mem x = s.mem x := fun x hx =>
    (hmem x).trans (if_neg (Nat.ne_of_lt (hin x hx)))
  refine ⟨?_, ?_, ?_, ?_, ?_, ?_, ?_, ?_, .inl hlast, h.basePos, ?_, ?_, ?_⟩
  · intro a b hab
    rw [hstart, place_append, ← htop] at hab
    rcases List.mem_append.mp hab with hab | hab
    · have hle := (place_bounds hab).2
      have hunit := bytes_pos h.pos (mem_of_place hab)
      rw [hmem, if_neg (by omega)]
      exact h.sizes a b hab
    · cases List.mem_singleton.mp hab
      rw [hmem, if_pos rfl]
  · intro b hb
    rcases List.mem_append.mp hb with hb | hb
    · exact h.pos b hb
    · rw [List.mem_singleton.mp hb]
      exact hpos
  · intro b hb n hn
    rcases List.mem_append.mp hb with hb | hb
    · exact h.fits b hb n hn
    · rw [List.mem_singleton.mp hb] at hn ⊢
      cases hn
      show 0 + UNIT ≤ UNIT * moreUnits nu
      have hle : UNIT * 1 ≤ UNIT * moreUnits nu := Nat.mul_le_mul_left UNIT hpos
      omega
  · have hlive := unjoined_live (c := ⟨moreUnits nu, some 0⟩) h.apart List.IsChain.nil rfl
    rwa [List.append_nil] at hlive
  · rw [hstart, hfrees]
    exact h.ring.congr fun x hx => congrArg Header.ptr (hsame x hx)
  · rw [hsame base List.mem_cons_self]
    exact h.baseSize
  · rw [hfreep, hstart, hfrees]
    exact h.freep
  · rw [hbrk, htop, hstart, width_append, ← Nat.add_assoc]
    rfl
  · rw [hstart]
    exact h.baseEnd
  · rw [hbrk]
    exact hroom.1
  · rw [hbrk, hstart]
    exact hroom.2

theorem Spares.trans {m₁ m₂ m₃ : Nat → Header} {held : List (Nat × UInt32)}
    (h₁ : Spares m₁ m₂ held) (h₂ : Spares m₂ m₃ held) : Spares m₁ m₃ held := by
  intro a ha x hx
  by_cases hsame : m₂ a = m₁ a
  · exact h₂ a (fun heq => ha (heq.trans hsame)) x hx
  · exact h₁ a hsame x hx

/-- `morecore` adds a free block that is large enough. -/
theorem Laid.morecore {nu : Nat} (h : Laid base s bs) (hroom : Room s nu)
    (hturns : (frees s.startBrk bs).length < turns) :
    ∃ s' bs', morecore turns s nu = some (s', s'.freep) ∧ Laid base s' bs' ∧
      lives s.startBrk bs' = lives s.startBrk bs ∧ s'.startBrk = s.startBrk ∧
      s'.brk = s.brk + UNIT * moreUnits nu ∧
      Spares s.mem s'.mem (lives s.startBrk bs) ∧
      ∃ y ∈ frees s.startBrk bs', nu ≤ (s'.mem y).size := by
  have hone := unit_pos
  have hpos := moreUnits_pos nu
  have htop := h.top
  have hinc : 0 < moreUnits nu * UNIT := Nat.mul_pos hpos hone
  have hcomm : moreUnits nu * UNIT = UNIT * moreUnits nu := Nat.mul_comm ..
  have hsbrk := sbrk_eq h.last (by omega) hinc (by rw [hcomm]; exact hroom.1)
  obtain ⟨s₁, hs₁⟩ : ∃ s₁, s₁ = ({ s with
      brk := s.brk + moreUnits nu * UNIT, lastBrk := s.brk + moreUnits nu * UNIT } : Heap).setSize
      s.brk (moreUnits nu) := ⟨_, rfl⟩
  have hmem : ∀ a, s₁.mem a =
      if a = s.brk then ⟨(s.mem s.brk).ptr, moreUnits nu⟩ else s.mem a := by
    intro a
    rw [hs₁, setSize_mem]
  have hfields : s₁.startBrk = s.startBrk ∧ s₁.freep = s.freep ∧
      s₁.brk = s.brk + UNIT * moreUnits nu ∧ s₁.lastBrk = s₁.brk := by
    rw [hs₁, ← hcomm]
    exact ⟨rfl, rfl, rfl, rfl⟩
  obtain ⟨hstart, hfreep, hbrk, hlast⟩ := hfields
  have hlaid := h.extend hroom hmem hfreep hbrk hstart hlast
  have hlen : (frees s₁.startBrk (bs ++ [⟨moreUnits nu, some 0⟩])).length < turns := by
    rw [hstart, frees_append, frees_cons_live rfl, frees_nil, List.append_nil]
    exact hturns
  obtain ⟨s', bs', hfree, hfreed⟩ := hlaid.free rfl hlen
  have hlives := hfreed.lives
  rw [hstart] at hlives
  have hnil : ∀ a, lives a [] = [] := fun _ => rfl
  rw [hnil, List.append_nil] at hlives
  have hafter : after s.brk 1 = s.brk + UNIT := by
    have hle : UNIT * 1 ≤ UNIT * moreUnits nu := Nat.mul_le_mul_left UNIT hpos
    have hbound := hroom.1
    exact after_eq (by omega)
  rw [hstart, ← htop] at hfree
  refine ⟨s', bs', ?_, hfreed.laid, hlives, hfreed.startBrk.trans hstart,
    hfreed.brk.trans hbrk, ?_, ?_⟩
  · have hne : s.brk ≠ 2 ^ 64 - 1 := by
      have hbound := hroom.1
      have hle : UNIT * 1 ≤ UNIT * moreUnits nu := Nat.mul_le_mul_left UNIT hpos
      omega
    rw [morecore_eq, hsbrk, if_neg hne, ← hs₁, hafter, hfree]
    rfl
  · rw [← hlives]
    refine Spares.trans ?_ (hstart ▸ hfreed.spares)
    intro a ha x hx
    rw [hlives] at hx
    have heq : a = s.brk := by
      by_contra hne
      rw [hmem, if_neg hne] at ha
      exact ha rfl
    obtain ⟨z, b, hz, hn, hxz⟩ := mem_lives_iff.mp hx
    have hle := (place_bounds hz).2
    have hfit := h.fits b (mem_of_place hz) x.2 hn
    omega
  · obtain ⟨c, hc, hnone, hle⟩ := hfreed.large
    obtain ⟨pre, post, hsplit⟩ := List.append_of_mem hc
    have hplace : (s.startBrk + width Block.bytes pre, c) ∈ place Block.bytes s.startBrk bs' :=
      mem_place_iff.mpr ⟨pre, post, hsplit, rfl⟩
    refine ⟨_, mem_frees_iff.mpr ⟨c, hplace, hnone⟩, ?_⟩
    rw [hfreed.laid.sizes _ c ((hfreed.startBrk.trans hstart).symm ▸ hplace)]
    exact (le_moreUnits nu).trans hle

end Uniks.Umalloc
