/-
  Giving a block back: `free` of `user/libs/umalloc.c`.

  The loop stops at the last member of the ring in front of the block (`Laid.stop`).  The block is
  then joined with the one behind it, with the one in front of it, with both, or with none; each
  time a few blocks of the heap are exchanged for one (`Laid.exchange`).
-/
import Uniks.Umalloc

namespace Uniks.Umalloc

open Uniks.Rings Uniks.Runs Uniks.Tiles
open Function (update update_idem update_self update_of_ne)

variable {base turns x y a p q : Nat} {s s' : Heap} {b c : Block}
  {bs l r pre mid mid' post : List Block} {before : List Nat}

/-! ## Giving a block back -/

theorem after_eq {p n : Nat} (h : p + UNIT * n < 2 ^ 64) : after p n = p + UNIT * n :=
  Nat.mod_eq_of_lt h

/-- What `free` stores in the header of the block. -/
theorem joinUpper_mem (s : Heap) (bp p : Nat) : (joinUpper s bp p).mem = update s.mem bp
    (if after bp (s.mem bp).size = (s.mem p).ptr then
      ⟨(s.mem (s.mem p).ptr).ptr, ((s.mem bp).size + (s.mem (s.mem p).ptr).size) % 2 ^ 32⟩
    else ⟨(s.mem p).ptr, (s.mem bp).size⟩) := by
  have hptr : ∀ a v x, ((s.setSize a v).mem x).ptr = (s.mem x).ptr := by
    intro a v x
    by_cases hx : x = a
    · subst hx
      show (update s.mem x _ x).ptr = _
      rw [update_self]
    · exact congrArg Header.ptr (update_of_ne hx ..)
  unfold joinUpper
  split
  · dsimp only
    rw [hptr, hptr]
    show update (update s.mem bp _) bp _ = _
    rw [update_idem]
    show update s.mem bp { update s.mem bp _ bp with ptr := _ } = _
    rw [update_self]
  · rfl

/-- And in that of the member of the ring in front of it. -/
theorem joinLower_mem (s : Heap) {bp p : Nat} (hne : bp ≠ p) :
    (joinLower s bp p).mem = update s.mem p
      (if after p (s.mem p).size = bp then
        ⟨(s.mem bp).ptr, ((s.mem p).size + (s.mem bp).size) % 2 ^ 32⟩
      else ⟨bp, (s.mem p).size⟩) := by
  unfold joinLower
  split
  · dsimp only
    have hptr : ∀ v, ((s.setSize p v).mem bp).ptr = (s.mem bp).ptr := fun v =>
      congrArg Header.ptr (update_of_ne hne ..)
    rw [hptr]
    show update (update s.mem p _) p _ = _
    rw [update_idem]
    show update s.mem p { update s.mem p _ p with ptr := _ } = _
    rw [update_self]
  · rfl

/-- Where a block of the heap ends. -/
theorem Laid.block_end (h : Laid base s (l ++ b :: r)) :
    s.startBrk + width Block.bytes l + b.bytes ≤ s.brk := by
  have htop := h.top
  simp only [width_append, width_cons] at htop
  omega

theorem Laid.after_block (h : Laid base s (l ++ b :: r)) :
    after (s.startBrk + width Block.bytes l) b.units
      = s.startBrk + width Block.bytes l + b.bytes := by
  have hend := h.block_end
  exact after_eq (Nat.lt_of_le_of_lt hend h.bound)

theorem Laid.size_block (h : Laid base s (l ++ b :: r)) :
    (s.mem (s.startBrk + width Block.bytes l)).size = b.units :=
  h.sizes _ b (mem_place_iff.mpr ⟨l, r, rfl, rfl⟩)

/-- A live block joined with what follows it, if that is free. -/
theorem Laid.upper {bp next : Nat} (h : Laid base s (l ++ b :: r))
    (hbp : bp = s.startBrk + width Block.bytes l)
    (hnext : next = (frees (bp + b.bytes) r).headD base) :
    ∃ mid r' n, r = mid ++ r' ∧ UNIT * n = b.bytes + width Block.bytes mid ∧ b.units ≤ n ∧
      (∀ c ∈ r'.head?, c.owner.isSome) ∧
      lives (bp + b.bytes) r = lives (bp + UNIT * n) r' ∧
      (if after bp (s.mem bp).size = next then
        (⟨(s.mem next).ptr, ((s.mem bp).size + (s.mem next).size) % 2 ^ 32⟩ : Header)
      else ⟨next, (s.mem bp).size⟩) = ⟨(frees (bp + UNIT * n) r').headD base, n⟩ := by
  have hsize : (s.mem bp).size = b.units := hbp ▸ h.size_block
  have hafter : after bp b.units = bp + b.bytes := hbp ▸ h.after_block
  have hend := h.baseEnd
  have hone := unit_pos
  rw [hsize, hafter]
  cases r with
  | nil =>
    have hne : bp + b.bytes ≠ next := by
      rw [hnext, frees_nil, List.headD_nil]
      omega
    refine ⟨[], [], b.units, rfl, rfl, Nat.le_refl _, nofun, rfl, ?_⟩
    rw [if_neg hne, hnext]
    rfl
  | cons c r =>
    cases hc : c.owner with
    | none =>
      have heq : next = bp + b.bytes := by
        rw [hnext, frees_cons_free hc, List.headD_cons]
      have hlist : l ++ b :: c :: r = (l ++ [b]) ++ c :: r := by simp
      have haddr : s.startBrk + width Block.bytes (l ++ [b]) = next := by
        rw [heq, hbp, width_append, width_cons, width_nil]
        omega
      have hsizec : (s.mem next).size = c.units := haddr ▸ (hlist ▸ h).size_block
      have hptr : (s.mem next).ptr = (frees (next + c.bytes) r).headD base := by
        refine h.ring.next_eq (base :: frees s.startBrk (l ++ [b])) ?_
        rw [hlist, frees_append, haddr, frees_cons_free hc]
        rfl
      have hsum : UNIT * (b.units + c.units) = b.bytes + c.bytes := Nat.mul_add _ _ _
      have hsmall : b.units + c.units < 2 ^ 32 := by
        have htop := h.top
        have hunits := h.units
        simp only [width_append, width_cons] at htop
        have hlt : UNIT * (b.units + c.units) < UNIT * 2 ^ 32 := by omega
        exact Nat.lt_of_mul_lt_mul_left hlt
      have hlive : ∀ d ∈ r.head?, d.owner.isSome := by
        intro d hd
        have hchain := (List.isChain_append.mp (hlist ▸ h.apart)).2.1
        have hcd := hchain.rel_head? hd
        rw [hc] at hcd
        exact hcd.resolve_left nofun
      have hnexts : next + c.bytes = bp + UNIT * (b.units + c.units) := by
        rw [hsum, heq, Nat.add_assoc]
      refine ⟨[c], r, b.units + c.units, rfl, ?_, Nat.le_add_right _ _, hlive, ?_, ?_⟩
      · rw [hsum, width_cons, width_nil, Nat.add_zero]
      · rw [lives_cons_free hc, ← hnexts, heq]
      · rw [if_pos heq.symm, hptr, hsizec, Nat.mod_eq_of_lt hsmall, hnexts]
    | some m =>
      have hsome : c.owner.isSome := hc ▸ rfl
      have hne : bp + b.bytes ≠ next := by
        have hunit := bytes_pos (b := c) h.pos (by simp)
        rw [hnext, frees_cons_live hsome]
        cases hf : frees (bp + b.bytes + c.bytes) r with
        | nil =>
          rw [List.headD_nil]
          omega
        | cons x xs =>
          have hx : x ∈ frees (bp + b.bytes + c.bytes) r := hf ▸ List.mem_cons_self
          have hle := (frees_bounds (fun d hd => h.pos d (by simp [hd])) hx).1
          rw [List.headD_cons]
          omega
      refine ⟨[], c :: r, b.units, rfl, rfl, Nat.le_refl _, ?_, rfl, ?_⟩
      · intro d hd
        cases hd
        exact hsome
      · rw [if_neg hne, hnext]
        rfl

/-- No free neighbours. -/
abbrev Unjoined (bs : List Block) : Prop := bs.IsChain fun b c => b.owner.isSome ∨ c.owner.isSome

theorem unjoined_free (hpre : Unjoined pre) (hpost : Unjoined post)
    (hlast : ∀ c ∈ pre.getLast?, c.owner.isSome) (hhead : ∀ c ∈ post.head?, c.owner.isSome)
    (d : Block) : Unjoined (pre ++ [d] ++ post) := by
  refine List.IsChain.append (List.IsChain.append hpre (List.IsChain.singleton d) ?_) hpost ?_
  · intro x hx _ _
    exact .inl (hlast x hx)
  · intro _ _ y hy
    exact .inr (hhead y hy)

/-- What a call stores does not touch what the program holds. -/
def Spares (mem mem' : Nat → Header) (held : List (Nat × UInt32)) : Prop :=
  ∀ a, mem' a ≠ mem a → ∀ x ∈ held, a + UNIT ≤ x.1 ∨ x.1 + x.2.toNat ≤ a

/-- The header of a member of the ring is not touched by what the program stores. -/
theorem Laid.member_apart (h : Laid base s bs) (hx : x ∈ base :: frees s.startBrk bs) {n : UInt32}
    (hy : (y, n) ∈ lives s.startBrk bs) : x + UNIT ≤ y ∨ y + n.toNat ≤ x := by
  rcases List.mem_cons.mp hx with rfl | hx
  · obtain ⟨z, b, hz, -, rfl⟩ := mem_lives_iff.mp hy
    have hlow := (place_bounds hz).1
    have hend := h.baseEnd
    omega
  · obtain ⟨b, hb, -⟩ := mem_frees_iff.mp hx
    exact start_apart h.pos h.fits hb hy

/-- The member of the ring in front of a block that follows no free one does not reach it. -/
theorem Laid.lower_ne {bp : Nat} (h : Laid base s (l ++ b :: r))
    (hbp : bp = s.startBrk + width Block.bytes l) (hlive : ∀ c ∈ l.getLast?, c.owner.isSome)
    (hp : base :: frees s.startBrk l = before ++ [p]) : after p (s.mem p).size ≠ bp := by
  have hin : p ∈ base :: frees s.startBrk l := hp ▸ List.mem_append_right _ List.mem_cons_self
  have hend := h.baseEnd
  have hbound := h.block_end
  have htop := h.bound
  have hone := unit_pos
  rcases List.mem_cons.mp hin with rfl | hin
  · rw [h.baseSize, after_eq (by omega)]
    omega
  · rcases List.eq_nil_or_concat l with rfl | ⟨l', c, rfl⟩
    · cases hin
    · have hc : c.owner.isSome := hlive c (by simp)
      rw [List.concat_eq_append] at hin hbp hbound h
      rw [frees_append, frees_cons_live hc, frees_nil, List.append_nil] at hin
      obtain ⟨d, hd, -⟩ := mem_frees_iff.mp hin
      have hdend := (place_bounds hd).2
      have hsize : (s.mem p).size = d.units := by
        refine h.sizes p d ?_
        rw [place_append, place_append]
        exact List.mem_append_left _ (List.mem_append_left _ hd)
      have hunit := bytes_pos (b := c) h.pos (by simp)
      have hbytes : d.bytes = UNIT * d.units := rfl
      rw [width_append, width_cons, width_nil] at hbp hbound
      rw [hsize, after_eq (by omega)]
      omega

/-- The two headers that `free` stores. -/
theorem free_mem (s : Heap) {bp p : Nat} (hne : bp ≠ p) {head : Header}
    (hhead : (if after bp (s.mem bp).size = (s.mem p).ptr then
      (⟨(s.mem (s.mem p).ptr).ptr,
        ((s.mem bp).size + (s.mem (s.mem p).ptr).size) % 2 ^ 32⟩ : Header)
      else ⟨(s.mem p).ptr, (s.mem bp).size⟩) = head) :
    (joinLower (joinUpper s bp p) bp p).mem = update (update s.mem bp head) p
      (if after p (s.mem p).size = bp then ⟨head.ptr, ((s.mem p).size + head.size) % 2 ^ 32⟩
      else ⟨bp, (s.mem p).size⟩) := by
  rw [joinLower_mem _ hne, joinUpper_mem, hhead, update_of_ne hne.symm,
    update_self]

theorem joinUpper_brk (s : Heap) (bp p : Nat) : (joinUpper s bp p).brk = s.brk ∧
    (joinUpper s bp p).startBrk = s.startBrk ∧ (joinUpper s bp p).lastBrk = s.lastBrk := by
  unfold joinUpper
  split <;> exact ⟨rfl, rfl, rfl⟩

theorem joinLower_brk (s : Heap) (bp p : Nat) : (joinLower s bp p).brk = s.brk ∧
    (joinLower s bp p).startBrk = s.startBrk ∧ (joinLower s bp p).lastBrk = s.lastBrk := by
  unfold joinLower
  split <;> exact ⟨rfl, rfl, rfl⟩

/-- What `free` leaves behind. -/
structure Freed (base : Nat) (s : Heap) (l : List Block) (b : Block) (r : List Block) (s' : Heap)
    (bs' : List Block) : Prop where
  laid : Laid base s' bs'
  lives : lives s.startBrk bs' = lives s.startBrk l ++
    lives (s.startBrk + width Block.bytes l + b.bytes) r
  large : ∃ c ∈ bs', c.owner = none ∧ b.units ≤ c.units
  brk : s'.brk = s.brk
  startBrk : s'.startBrk = s.startBrk
  spares : Spares s.mem s'.mem (Umalloc.lives s.startBrk bs')

/-- The loop of `free` stops at the last member in front of the block. -/
theorem Laid.stop {bp : Nat} (h : Laid base s (l ++ b :: r)) (hb : b.owner.isSome)
    (hbp : bp = s.startBrk + width Block.bytes l)
    (hp : base :: frees s.startBrk l = before ++ [p])
    (hturns : (frees s.startBrk (l ++ b :: r)).length < turns) :
    freeLoop s.mem bp turns s.freep = some p ∧ p < bp ∧
      (s.mem p).ptr = (frees (bp + b.bytes) r).headD base := by
  have hone := unit_pos
  have hpos := h.pos
  have hunit := bytes_pos (b := b) hpos (by simp)
  have hfrees : frees bp (b :: r) = frees (bp + b.bytes) r := frees_cons_live hb bp r
  have hbehind : ∀ y ∈ frees bp (b :: r), bp < y := by
    intro y hy
    rw [hfrees] at hy
    have hle := (frees_bounds (fun c hc => hpos c (by simp [hc])) hy).1
    omega
  have hpin : p ∈ base :: frees s.startBrk l := hp ▸ List.mem_append_right _ List.mem_cons_self
  have hpring : p ∈ base :: frees s.startBrk (l ++ b :: r) := by
    rw [frees_append, ← List.cons_append]
    exact List.mem_append_left _ hpin
  refine ⟨?_, ?_, ?_⟩
  · have hiff := fun x hx => between_iff (x := x) h hbp hbehind hp hx
    rw [freeLoop_eq_find]
    have hex : ∃ x ∈ base :: frees s.startBrk (l ++ b :: r), Between s.mem bp x :=
      ⟨p, hpring, (hiff p hpring).mpr rfl⟩
    obtain ⟨x, hx, hfind, htest⟩ := find_ring h.ring h.freep hex hturns
    rwa [(hiff x hx).mp htest] at hfind
  · exact hbp ▸ h.before_lt hpin
  · refine h.ring.next_eq before ?_
    rw [frees_append, ← List.cons_append, hp, ← hbp, hfrees, List.append_assoc]
    rfl

/-- The block and what follows it, joined with what comes before if that is free. -/
theorem Laid.join {bp n : Nat} (h : Laid base s (l ++ b :: (mid ++ r)))
    (hbp : bp = s.startBrk + width Block.bytes l)
    (hp : base :: frees s.startBrk l = before ++ [p]) (hpbp : p < bp)
    (hn : UNIT * n = b.bytes + width Block.bytes mid) (hbn : b.units ≤ n)
    (hr : ∀ c ∈ r.head?, c.owner.isSome)
    (hmem : s'.mem = update
      (update s.mem bp ⟨(frees (bp + UNIT * n) r).headD base, n⟩) p
      (if after p (s.mem p).size = bp then
        ⟨(frees (bp + UNIT * n) r).headD base, ((s.mem p).size + n) % 2 ^ 32⟩
      else ⟨bp, (s.mem p).size⟩))
    (hfreep : s'.freep = p) (hbrk : s'.brk = s.brk) (hstart : s'.startBrk = s.startBrk)
    (hlast : s'.lastBrk = s.lastBrk) :
    ∃ bs', Laid base s' bs' ∧
      lives s.startBrk bs' = lives s.startBrk l ++ lives (bp + UNIT * n) r ∧
      ∃ c ∈ bs', c.owner = none ∧ b.units ≤ c.units := by
  have hone := unit_pos
  have hwhole := h.top
  simp only [width_append, width_cons] at hwhole
  have hbound := h.bound
  have hunits := h.units
  have hpos : 0 < b.units := h.pos b (by simp)
  have hroom : 0 < UNIT * n := Nat.mul_pos hone (hpos.trans_le hbn)
  have hpost := (List.isChain_append.mp (List.isChain_append.mp h.apart).2.1.tail).2.1
  by_cases hfree : ∃ l' m, l = l' ++ [⟨m, none⟩]
  · obtain ⟨l', m, rfl⟩ := hfree
    have hstop := hbp
    simp only [width_append, width_cons, width_nil, Nat.add_zero] at hstop hwhole
    have hm : (⟨m, none⟩ : Block).bytes = UNIT * m := rfl
    -- `p` is the free block in front
    obtain ⟨before', q, hq⟩ : ∃ before' q, base :: frees s.startBrk l' = before' ++ [q] :=
      ⟨_, _, (List.dropLast_append_getLast (List.cons_ne_nil base _)).symm⟩
    have hfrees : frees s.startBrk (l' ++ [⟨m, none⟩])
        = frees s.startBrk l' ++ [s.startBrk + width Block.bytes l'] := by
      rw [frees_append, frees_cons_free rfl, frees_nil]
    have hsplit : before' ++ [q] ++ [s.startBrk + width Block.bytes l'] = before ++ [p] := by
      rw [← hp, hfrees, ← hq]
      rfl
    obtain ⟨rfl, heq⟩ := List.append_inj' hsplit rfl
    obtain rfl := List.head_eq_of_cons_eq heq
    have hlist : l' ++ [⟨m, none⟩] ++ b :: (mid ++ r) =
        l' ++ (⟨m, none⟩ :: b :: mid) ++ r := by simp
    have hsize : (s.mem (s.startBrk + width Block.bytes l')).size = m :=
      h.sizes _ ⟨m, none⟩ (mem_place_iff.mpr ⟨l', b :: (mid ++ r), by simp, rfl⟩)
    have hafter : after (s.startBrk + width Block.bytes l') m = bp := by
      rw [after_eq (by omega), hstop, ← hm]
      omega
    have hsum : UNIT * (m + n) = UNIT * m + UNIT * n := Nat.mul_add _ _ _
    have hsmall : m + n < 2 ^ 32 := Nat.lt_of_mul_lt_mul_left (a := UNIT) (by omega)
    have hend : s.startBrk + width Block.bytes (l' ++ (⟨m, none⟩ :: b :: mid)) = bp + UNIT * n := by
      simp only [width_append, width_cons]
      omega
    rw [hsize, if_pos hafter, Nat.mod_eq_of_lt hsmall] at hmem
    have hmemp : s'.mem (s.startBrk + width Block.bytes l')
        = ⟨(frees (bp + UNIT * n) r).headD base, m + n⟩ := by
      rw [hmem, update_self]
    have hqp : q < s.startBrk + width Block.bytes l' :=
      Laid.before_lt (List.append_assoc l' _ _ ▸ h)
        (hq ▸ List.mem_append_right before' List.mem_cons_self)
    have hmemq : s'.mem q = s.mem q := by
      rw [hmem, update_of_ne (Nat.ne_of_lt hqp), update_of_ne (by omega)]
    have hnextq : (s.mem q).ptr = s.startBrk + width Block.bytes l' := by
      have hall : base :: frees s.startBrk (l' ++ [⟨m, none⟩] ++ b :: (mid ++ r)) = before' ++
          q :: (s.startBrk + width Block.bytes l') :: frees bp (b :: (mid ++ r)) := by
        rw [frees_append, ← List.cons_append, hp, ← hbp]
        simp
      exact h.ring.next_eq _ hall
    have hunjoined := List.isChain_append.mp (List.isChain_append.mp h.apart).1
    refine ⟨l' ++ [⟨m + n, none⟩] ++ r, Laid.exchange (hlist ▸ h) hq ?_ ?_ ?_ ?_ ?_ ?_ ?_ ?_ ?_ hbrk
      hstart hlast, ?_, ⟨m + n, none⟩, by simp, rfl, Nat.le_add_left_of_le hbn⟩
    · simp only [width_cons, width_nil, Nat.add_zero]
      rw [← hn, hm]
      exact hsum
    · intro c hc
      rw [List.mem_singleton.mp hc]
      show 0 < m + n
      omega
    · intro c hc k hk
      rw [List.mem_singleton.mp hc] at hk
      cases hk
    · refine unjoined_free hunjoined.1 hpost (fun c hc => ?_) hr _
      exact (hunjoined.2.2 c hc _ rfl).resolve_right nofun
    · intro a c hac
      cases List.mem_singleton.mp hac
      exact congrArg Header.size hmemp
    · rw [hend, frees_cons_free rfl, frees_nil]
      refine linked_cons_cons.mpr ⟨(congrArg Header.ptr hmemq).trans hnextq, ?_⟩
      exact linked_cons_cons.mpr ⟨congrArg Header.ptr hmemp, List.IsChain.singleton _⟩
    · intro a ha hne
      rw [hend] at ha
      rw [hmem, update_of_ne (by omega), update_of_ne (by omega)]
    · rw [hmemq]
    · rw [hfreep, frees_append, frees_append, frees_cons_free rfl]
      simp
    · have hbehind : s.startBrk + width Block.bytes (l' ++ [⟨m + n, none⟩]) = bp + UNIT * n := by
        simp only [width_append, width_cons, width_nil, Nat.add_zero]
        show s.startBrk + (width Block.bytes l' + UNIT * (m + n)) = bp + UNIT * n
        omega
      rw [lives_append, hbehind, lives_append, lives_append, lives_cons_free rfl,
        lives_cons_free rfl]
      rfl
  · have hlive : ∀ c ∈ l.getLast?, c.owner.isSome := by
      intro c hc
      obtain ⟨l', rfl⟩ := List.getLast?_eq_some_iff.mp hc
      by_contra hnone
      rw [Bool.not_eq_true, Option.isSome_eq_false_iff, Option.isNone_iff_eq_none] at hnone
      exact hfree ⟨l', c.units, by rw [← hnone]⟩
    have hlist : l ++ b :: (mid ++ r) = l ++ (b :: mid) ++ r := by simp
    have hsmall : n < 2 ^ 32 := Nat.lt_of_mul_lt_mul_left (a := UNIT) (by omega)
    have hend : s.startBrk + width Block.bytes (l ++ (b :: mid)) = bp + UNIT * n := by
      simp only [width_append, width_cons]
      omega
    rw [if_neg (h.lower_ne hbp hlive hp)] at hmem
    have hmemp : s'.mem p = ⟨bp, (s.mem p).size⟩ := by
      rw [hmem, update_self]
    have hmembp : s'.mem bp = ⟨(frees (bp + UNIT * n) r).headD base, n⟩ := by
      rw [hmem, update_of_ne (Nat.ne_of_gt hpbp), update_self]
    refine ⟨l ++ [⟨n, none⟩] ++ r, Laid.exchange (hlist ▸ h) hp ?_ ?_ ?_ ?_ ?_ ?_ ?_ ?_ ?_ hbrk
      hstart hlast, ?_, ⟨n, none⟩, by simp, rfl, hbn⟩
    · simp only [width_cons, width_nil, Nat.add_zero]
      exact hn
    · intro c hc
      rw [List.mem_singleton.mp hc]
      exact Nat.lt_of_lt_of_le hpos hbn
    · intro c hc k hk
      rw [List.mem_singleton.mp hc] at hk
      cases hk
    · exact unjoined_free (List.isChain_append.mp h.apart).1 hpost hlive hr _
    · intro a c hac
      rw [← hbp] at hac
      cases List.mem_singleton.mp hac
      exact congrArg Header.size hmembp
    · rw [hend, ← hbp, frees_cons_free rfl, frees_nil]
      refine linked_cons_cons.mpr ⟨congrArg Header.ptr hmemp, ?_⟩
      exact linked_cons_cons.mpr ⟨congrArg Header.ptr hmembp, List.IsChain.singleton _⟩
    · intro a ha hne
      rw [hend, ← hbp] at ha
      rw [hmem, update_of_ne hne, update_of_ne (by omega)]
    · rw [hmemp]
    · rw [hfreep, frees_append, frees_append, ← List.cons_append, ← List.cons_append, hp]
      simp
    · have hbehind : s.startBrk + width Block.bytes (l ++ [⟨n, none⟩]) = bp + UNIT * n := by
        simp only [width_append, width_cons, width_nil, Nat.add_zero]
        rw [← Nat.add_assoc, ← hbp]
        rfl
      rw [lives_append, hbehind, lives_append, lives_cons_free rfl]
      rw [show lives _ [] = [] from rfl, List.append_nil]

/-- A block becomes free. -/
theorem Laid.free (h : Laid base s (l ++ b :: r)) (hb : b.owner.isSome)
    (hturns : (frees s.startBrk (l ++ b :: r)).length < turns) :
    ∃ s' bs', free turns s (s.startBrk + width Block.bytes l + UNIT) = some s' ∧
      Freed base s l b r s' bs' := by
  obtain ⟨bp, hbp⟩ : ∃ bp, bp = s.startBrk + width Block.bytes l := ⟨_, rfl⟩
  obtain ⟨before, p, hp⟩ : ∃ before p, base :: frees s.startBrk l = before ++ [p] :=
    ⟨_, _, (List.dropLast_append_getLast (List.cons_ne_nil base _)).symm⟩
  obtain ⟨hloop, hpbp, hnext⟩ := h.stop hb hbp hp hturns
  obtain ⟨mid, r', n, rfl, hn, hbn, hr, hrlives, hhead⟩ := h.upper hbp hnext
  obtain ⟨s', hs'⟩ : ∃ s', s' = { joinLower (joinUpper s bp p) bp p with freep := p } := ⟨_, rfl⟩
  have hmem := (congrArg Heap.mem hs').trans (free_mem s (Nat.ne_of_gt hpbp) hhead)
  obtain ⟨hbrk, hstart, hlast⟩ : s'.brk = s.brk ∧ s'.startBrk = s.startBrk ∧
      s'.lastBrk = s.lastBrk := by
    obtain ⟨hl₁, hl₂, hl₃⟩ := joinLower_brk (joinUpper s bp p) bp p
    obtain ⟨hu₁, hu₂, hu₃⟩ := joinUpper_brk s bp p
    rw [hs']
    exact ⟨hl₁.trans hu₁, hl₂.trans hu₂, hl₃.trans hu₃⟩
  have hrun : Umalloc.free turns s (bp + UNIT) = some s' := by
    simp only [Umalloc.free, Nat.add_sub_cancel, hloop, hs']
    rfl
  obtain ⟨bs', hlaid, hlives, hlarge⟩ := h.join hbp hp hpbp hn hbn hr hmem
    (congrArg Heap.freep hs') hbrk hstart hlast
  rw [← hrlives] at hlives
  rw [← hbp]
  refine ⟨s', bs', hrun, hlaid, hbp ▸ hlives, hlarge, hbrk, hstart, ?_⟩
  -- only the headers of `p` and of the block are stored
  intro a ha x hx
  have hold : x ∈ lives s.startBrk (l ++ b :: (mid ++ r')) := by
    obtain ⟨m, hm⟩ := Option.isSome_iff_exists.mp hb
    rw [lives_append, ← hbp, lives_cons_live hm]
    rw [hlives] at hx
    rcases List.mem_append.mp hx with hx | hx
    · exact List.mem_append_left _ hx
    · exact List.mem_append_right _ (List.mem_cons_of_mem _ hx)
  have hax : a = p ∨ a = bp := by
    by_contra hne
    rw [not_or] at hne
    rw [hmem, update_of_ne hne.1, update_of_ne hne.2] at ha
    exact ha rfl
  rcases hax with rfl | rfl
  · refine h.member_apart ?_ hold
    rw [frees_append, ← List.cons_append, hp]
    simp
  · exact start_apart h.pos h.fits (mem_place_iff.mpr ⟨l, _, rfl, hbp⟩) hold

end Uniks.Umalloc
