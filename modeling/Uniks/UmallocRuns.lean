/-
  Runs of `malloc` and `free` (`user/libs/umalloc.c`), with whatever the program stores in the
  blocks that it has.

  Every state of a run consists of blocks (`Inv`): those that the process has do not overlap, no
  call touches a block that the process keeps, and nothing of the heap is lost.
-/
import Uniks.UmallocTake

namespace Uniks.Umalloc

open Uniks.Rings Uniks.Runs Uniks.Tiles

variable {base turns x y a p q : Nat} {s s' : Heap} {b c : Block}
  {bs l r pre mid mid' post : List Block} {before : List Nat}
  {nunits k : Nat} {xs : List Nat}

/-! ## More turns -/

theorem freeLoop_mono {mem : Nat → Header} {bp k' : Nat} (h : freeLoop mem bp k p = some q)
    (hk : k ≤ k') : freeLoop mem bp k' p = some q := by
  induction k generalizing p k' with
  | zero => cases h
  | succ k ih =>
    obtain ⟨k', rfl⟩ := Nat.exists_eq_succ_of_ne_zero (Nat.ne_zero_of_lt hk)
    rw [freeLoop] at h ⊢
    split
    case isTrue hstop => rwa [if_pos hstop] at h
    case isFalse hgo =>
      rw [if_neg hgo] at h
      exact ih h (Nat.le_of_succ_le_succ hk)

theorem free_mono {ap k' : Nat} (h : free k s ap = some s') (hk : k ≤ k') :
    free k' s ap = some s' := by
  obtain ⟨q, hq, hrest⟩ := Option.bind_eq_some_iff.mp h
  exact Option.bind_eq_some_iff.mpr ⟨q, freeLoop_mono hq hk, hrest⟩

theorem morecore_mono {nu k' : Nat} {r : Heap × Nat} (h : morecore k s nu = some r) (hk : k ≤ k') :
    morecore k' s nu = some r := by
  rw [morecore_eq] at h ⊢
  by_cases hfail : (sbrk s (moreUnits nu * UNIT)).2 = 2 ^ 64 - 1
  · rw [if_pos hfail] at h ⊢
    exact h
  · rw [if_neg hfail] at h ⊢
    obtain ⟨t, ht, hrest⟩ := Option.bind_eq_some_iff.mp h
    exact Option.bind_eq_some_iff.mpr ⟨t, free_mono ht hk, hrest⟩

theorem mallocLoop_mono {prevp k' : Nat} {r : Heap × Nat}
    (h : mallocLoop nunits k s prevp p = some r) (hk : k ≤ k') :
    mallocLoop nunits k' s prevp p = some r := by
  induction k generalizing s prevp p k' with
  | zero => cases h
  | succ k ih =>
    obtain ⟨k', rfl⟩ := Nat.exists_eq_succ_of_ne_zero (Nat.ne_zero_of_lt hk)
    have hle := Nat.le_of_succ_le_succ hk
    rw [mallocLoop] at h ⊢
    split
    case isTrue hfit => rwa [if_pos hfit] at h
    case isFalse hsmall =>
      rw [if_neg hsmall] at h
      split
      case isTrue hround =>
        rw [if_pos hround] at h
        obtain ⟨⟨t, p'⟩, ht, hrest⟩ := Option.bind_eq_some_iff.mp h
        refine Option.bind_eq_some_iff.mpr ⟨(t, p'), morecore_mono ht hle, ?_⟩
        dsimp only at hrest ⊢
        split
        case isTrue hzero => rwa [if_pos hzero] at hrest
        case isFalse hgot =>
          rw [if_neg hgot] at hrest
          exact ih hrest hle
      case isFalse hon =>
        rw [if_neg hon] at h
        exact ih h hle

/-! ## The calls -/

/-- What a call of `malloc` leaves behind. -/
structure Allocated (base : Nat) (s : Heap) (bs : List Block) (nbytes : UInt32) (s' : Heap)
    (ap : Nat) (bs' : List Block) : Prop where
  laid : Laid base s' bs'
  lives : ∃ held held', lives s.startBrk bs = held ++ held' ∧
    lives s.startBrk bs' = held ++ (ap, nbytes) :: held'
  nonzero : ap ≠ 0
  startBrk : s'.startBrk = s.startBrk
  spares : Spares s.mem s'.mem (Umalloc.lives s.startBrk bs)

/-- A search that finds a block. -/
theorem Laid.allocate {n : UInt32} (h : Laid base s bs)
    (hex : ∃ y ∈ frees s.startBrk bs, unitsFor n ≤ (s.mem y).size)
    (hturns : (frees s.startBrk bs).length < turns) :
    ∃ s' ap bs', mallocLoop (unitsFor n) turns s s.freep (s.mem s.freep).ptr = some (s', ap) ∧
      Allocated base s bs n s' ap bs' := by
  obtain ⟨xs, hlinked, hne, hperm⟩ := h.from_freep
  have hrot : (xs ++ [s.freep]).Perm (base :: frees s.startBrk bs) :=
    List.perm_append_comm.trans hperm
  obtain ⟨y, hy, hsize⟩ := hex
  have hin : y ∈ xs ++ [s.freep] := hrot.symm.subset (List.mem_cons_of_mem base hy)
  have hlen : xs.length < turns := by
    have heq := hperm.length_eq
    rw [List.length_cons, List.length_cons] at heq
    omega
  obtain ⟨q, hq, hfit, hrun⟩ := mallocLoop_found hlinked hne ⟨y, hin, hsize⟩ hlen
  obtain ⟨s', ap, bs', htake, hap, htaken⟩ := h.take (hperm.subset hq) rfl hfit
  refine ⟨s', ap, bs', hrun.trans (congrArg some htake), htaken.laid, htaken.lives, hap,
    htaken.startBrk, fun a ha x hx => htaken.spares a ha x ?_⟩
  obtain ⟨held, held', hold, hnew⟩ := htaken.lives
  rw [hold] at hx
  rw [hnew]
  rcases List.mem_append.mp hx with hx | hx
  · exact List.mem_append_left _ hx
  · exact List.mem_append_right _ (List.mem_cons_of_mem _ hx)

/-- `malloc` returns a block, as long as there is room. -/
theorem Laid.malloc {n : UInt32} (h : Laid base s bs) (hroom : Room s (unitsFor n)) :
    ∃ turns s' ap bs', mallocLoop (unitsFor n) turns s s.freep (s.mem s.freep).ptr = some (s', ap) ∧
      Allocated base s bs n s' ap bs' := by
  by_cases hex : ∃ y ∈ frees s.startBrk bs, unitsFor n ≤ (s.mem y).size
  · exact ⟨_, h.allocate hex (Nat.lt_succ_self _)⟩
  · obtain ⟨xs, hlinked, hne, hperm⟩ := h.from_freep
    have hrot : (xs ++ [s.freep]).Perm (base :: frees s.startBrk bs) :=
      List.perm_append_comm.trans hperm
    have hnone : ∀ y ∈ xs ++ [s.freep], (s.mem y).size < unitsFor n := by
      intro y hy
      rcases List.mem_cons.mp (hrot.subset hy) with rfl | hy
      · rw [h.baseSize]
        exact unitsFor_pos n
      · exact Nat.lt_of_not_le fun hle => hex ⟨y, hy, hle⟩
    obtain ⟨s₁, bs₁, hmore, hlaid, hlives, hstart, -, hspares, hlarge⟩ :=
      h.morecore hroom (Nat.lt_succ_self _)
    rw [← hstart] at hlarge
    obtain ⟨s', ap, bs', hrun, hdone⟩ := hlaid.allocate hlarge (Nat.lt_succ_self _)
    -- enough turns for `morecore`, and for the search after it
    have hturns := mallocLoop_more hlinked hne hnone (k := max ((frees s.startBrk bs).length + 1)
      ((frees s₁.startBrk bs₁).length + 1))
    refine ⟨_, s', ap, bs', hturns.trans ?_, hdone.laid, ?_, hdone.nonzero,
      hdone.startBrk.trans hstart, ?_⟩
    · refine Option.bind_eq_some_iff.mpr ⟨_, morecore_mono hmore (Nat.le_max_left _ _), ?_⟩
      have hfreep : s₁.freep ≠ 0 := by
        have hpos := hlaid.basePos
        rcases List.mem_cons.mp hlaid.freep with heq | hin
        · omega
        · have hlt := hlaid.base_lt hin
          omega
      dsimp only
      rw [if_neg hfreep]
      exact mallocLoop_mono hrun (Nat.le_max_right _ _)
    · obtain ⟨held, held', hold, hnew⟩ := hdone.lives
      rw [hstart] at hold hnew
      exact ⟨held, held', hlives.symm.trans hold, hnew⟩
    · refine hspares.trans ?_
      rw [← hlives, ← hstart]
      exact hdone.spares

/-- The first call finds the ring of `base` alone. -/
structure Fresh (base : Nat) (s : Heap) : Prop where
  freep : s.freep = 0
  lastBrk : s.lastBrk = 0
  brk : s.brk = s.startBrk
  basePos : 0 < base
  baseEnd : base + UNIT ≤ s.startBrk
  bound : s.startBrk < 2 ^ 64

theorem Fresh.laid (h : Fresh base s) : Laid base (initRing s base) [] := by
  have hne : s.freep = 0 := h.freep
  have hmem : (initRing s base).mem base = ⟨base, 0⟩ := by
    rw [initRing, if_pos hne]
    show ((s.setPtr base base).setSize base 0).mem base = _
    rw [setSize_mem, if_pos rfl, setPtr_mem, if_pos rfl]
  have hfields : (initRing s base).freep = base ∧ (initRing s base).brk = s.startBrk ∧
      (initRing s base).startBrk = s.startBrk ∧ (initRing s base).lastBrk = 0 := by
    rw [initRing, if_pos hne]
    exact ⟨rfl, h.brk, rfl, h.lastBrk⟩
  obtain ⟨hfreep, hbrk, hstart, hlast⟩ := hfields
  refine ⟨nofun, nofun, nofun, List.IsChain.nil, ?_, ?_, ?_, ?_, .inr hlast, h.basePos,
    ?_, ?_, ?_⟩
  · exact linked_cons_cons.mpr ⟨congrArg Header.ptr hmem, List.IsChain.singleton _⟩
  · rw [hmem]
  · rw [hfreep]
    exact List.mem_cons_self
  · rw [hbrk, hstart]
    rfl
  · rw [hstart]
    exact h.baseEnd
  · rw [hbrk]
    exact h.bound
  · rw [hbrk, hstart]
    have hone := unit_pos
    omega

theorem initRing_of_ne (h : s.freep ≠ 0) (base : Nat) : initRing s base = s := if_neg h

theorem Laid.freep_ne (h : Laid base s bs) : s.freep ≠ 0 := by
  have hpos := h.basePos
  rcases List.mem_cons.mp h.freep with heq | hin
  · omega
  · have hlt := h.base_lt hin
    omega

/-! ## Runs -/

/-- A process, and the blocks it has. -/
structure Process where
  heap : Heap
  held : List (Nat × UInt32)

inductive Call where
  | malloc (nbytes : UInt32)
  | free (ap : Nat)
  | store (mem : Nat → Header)

/-- What a process does: it calls `malloc`, and `free` for a block that it has, and stores in the
    blocks that it has. -/
def Step (base : Nat) (s : Process) : Call → Process → Prop
  | .malloc nbytes, s' => ∃ turns ap, malloc base turns s.heap nbytes = some (s'.heap, ap) ∧
      s'.held = if ap = 0 then s.held else (ap, nbytes) :: s.held
  | .free ap, s' => ∃ turns nbytes, (ap, nbytes) ∈ s.held ∧ free turns s.heap ap = some s'.heap ∧
      s'.held = s.held.erase (ap, nbytes)
  | .store mem, s' =>
      (∀ a, mem a ≠ s.heap.mem a → ∃ x ∈ s.held, a < x.1 + x.2.toNat ∧ x.1 < a + UNIT) ∧
      s' = { s with heap := { s.heap with mem := mem } }

/-- The heap stays below 64 GiB and does not wrap around. -/
def HasRoom (s : Process) : Call → Prop
  | .malloc nbytes => Room s.heap (unitsFor nbytes)
  | _ => True

/-- The invariant: nothing was called yet, or the heap consists of blocks and the process has those
    that are not free. -/
def Inv (base : Nat) (s : Process) : Prop :=
  Fresh base s.heap ∧ s.held = [] ∨
    ∃ bs, Laid base s.heap bs ∧ s.held.Perm (lives s.heap.startBrk bs)

variable {P P' P₀ : Process} {n : UInt32} {call : Call}

/-- What `malloc` begins with. -/
theorem Inv.init (h : Inv base P) : ∃ bs, Laid base (initRing P.heap base) bs ∧
    P.held.Perm (lives P.heap.startBrk bs) ∧ (initRing P.heap base).startBrk = P.heap.startBrk ∧
    (initRing P.heap base).brk = P.heap.brk ∧
    Spares P.heap.mem (initRing P.heap base).mem P.held := by
  rcases h with ⟨hfresh, hheld⟩ | ⟨bs, hlaid, hperm⟩
  · rw [hheld, initRing, if_pos hfresh.freep]
    refine ⟨[], ?_, List.Perm.refl _, rfl, rfl, fun a _ x hx => nomatch hx⟩
    have hlaid := hfresh.laid
    rwa [initRing, if_pos hfresh.freep] at hlaid
  · rw [initRing_of_ne hlaid.freep_ne]
    exact ⟨bs, hlaid, hperm, rfl, rfl, fun a ha => absurd rfl ha⟩

theorem Spares.of_perm {mem mem' : Nat → Header} {held held' : List (Nat × UInt32)}
    (h : Spares mem mem' held) (hperm : held'.Perm held) : Spares mem mem' held' :=
  fun a ha x hx => h a ha x (hperm.subset hx)

theorem Inv.malloc (h : Inv base P) (hroom : Room P.heap (unitsFor n)) :
    ∃ turns s' ap, malloc base turns P.heap n = some (s', ap) ∧ ap ≠ 0 ∧
      Inv base ⟨s', (ap, n) :: P.held⟩ ∧ Spares P.heap.mem s'.mem P.held := by
  obtain ⟨bs, hlaid, hperm, hstart, hbrk, hinit⟩ := h.init
  have hroom' : Room (initRing P.heap base) (unitsFor n) := by
    unfold Room
    rw [hstart, hbrk]
    exact hroom
  obtain ⟨turns, s', ap, bs', hrun, hdone⟩ := hlaid.malloc hroom'
  obtain ⟨held, held', hold, hnew⟩ := hdone.lives
  have hspares := hdone.spares
  rw [hstart] at hold hnew hspares
  refine ⟨turns, s', ap, hrun, hdone.nonzero, .inr ⟨bs', hdone.laid, ?_⟩,
    hinit.trans (hspares.of_perm hperm)⟩
  show ((ap, n) :: P.held).Perm (lives s'.startBrk bs')
  rw [hdone.startBrk, hstart, hnew]
  rw [hold] at hperm
  exact (hperm.cons _).trans List.perm_middle.symm

theorem Inv.free {ap : Nat} (h : Inv base P) (hap : (ap, n) ∈ P.held) :
    ∃ turns s', free turns P.heap ap = some s' ∧ Inv base ⟨s', P.held.erase (ap, n)⟩ ∧
      Spares P.heap.mem s'.mem (P.held.erase (ap, n)) := by
  rcases h with ⟨-, hheld⟩ | ⟨bs, hlaid, hperm⟩
  · rw [hheld] at hap
    cases hap
  · obtain ⟨y, b, hy, hn, rfl⟩ := mem_lives_iff.mp (hperm.subset hap)
    obtain ⟨l, r, rfl, rfl⟩ := mem_place_iff.mp hy
    obtain ⟨s', bs', hrun, hfreed⟩ := hlaid.free (hn ▸ rfl) (Nat.lt_succ_self _)
    have herase : (P.held.erase (P.heap.startBrk + width Block.bytes l + UNIT, n)).Perm
        (lives P.heap.startBrk bs') := by
      refine (hperm.erase _).trans ?_
      rw [lives_append, lives_cons_live hn, hfreed.lives]
      refine (List.perm_middle.erase _).trans ?_
      rw [List.erase_cons_head]
    refine ⟨_, s', hrun, .inr ⟨bs', hfreed.laid, ?_⟩, hfreed.spares.of_perm herase⟩
    show (P.held.erase _).Perm (lives s'.startBrk bs')
    rw [hfreed.startBrk]
    exact herase

theorem Inv.store {mem : Nat → Header} (h : Inv base P)
    (hmem : ∀ a, mem a ≠ P.heap.mem a → ∃ x ∈ P.held, a < x.1 + x.2.toNat ∧ x.1 < a + UNIT) :
    Inv base { P with heap := { P.heap with mem := mem } } := by
  rcases h with ⟨hfresh, hheld⟩ | ⟨bs, hlaid, hperm⟩
  · exact .inl ⟨⟨hfresh.freep, hfresh.lastBrk, hfresh.brk, hfresh.basePos, hfresh.baseEnd,
      hfresh.bound⟩, hheld⟩
  · have hkeeps : ∀ a, (∀ x ∈ lives P.heap.startBrk bs, a + UNIT ≤ x.1 ∨ x.1 + x.2.toNat ≤ a) →
        mem a = P.heap.mem a := by
      intro a ha
      by_contra hne
      obtain ⟨x, hx, hlow, hhigh⟩ := hmem a hne
      rcases ha x (hperm.subset hx) with hle | hle
      · omega
      · omega
    have hring : ∀ a ∈ base :: frees P.heap.startBrk bs, mem a = P.heap.mem a := fun a ha =>
      hkeeps a fun x hx => hlaid.member_apart ha hx
    refine .inr ⟨bs, ⟨?_, hlaid.pos, hlaid.fits, hlaid.apart, ?_, ?_, hlaid.freep, hlaid.top,
      hlaid.last, hlaid.basePos, hlaid.baseEnd, hlaid.bound, hlaid.units⟩, hperm⟩
    · intro a b hab
      show (mem a).size = b.units
      rw [hkeeps a fun x hx => start_apart hlaid.pos hlaid.fits hab hx]
      exact hlaid.sizes a b hab
    · exact hlaid.ring.congr fun a ha => congrArg Header.ptr (hring a ha)
    · show (mem base).size = 0
      rw [hring base List.mem_cons_self]
      exact hlaid.baseSize

theorem malloc_unique {turns' ap ap' : Nat} {s'' : Heap} (h : malloc base turns s n = some (s', ap))
    (h' : malloc base turns' s n = some (s'', ap')) : s'' = s' ∧ ap' = ap := by
  have hmax := mallocLoop_mono h (Nat.le_max_left turns turns')
  have hmax' := mallocLoop_mono h' (Nat.le_max_right turns turns')
  exact Prod.mk.inj (Option.some.inj (hmax'.symm.trans hmax))

theorem free_unique {turns' ap : Nat} {s'' : Heap} (h : free turns s ap = some s')
    (h' : free turns' s ap = some s'') : s'' = s' :=
  Option.some.inj ((free_mono h' (Nat.le_max_right turns turns')).symm.trans
    (free_mono h (Nat.le_max_left turns turns')))

/-- What one step preserves, and what it does not touch. -/
theorem Inv.step (h : Inv base P) (hroom : HasRoom P call) (hstep : Step base P call P') :
    Inv base P' ∧ ((∀ mem, call ≠ .store mem) →
      Spares P.heap.mem P'.heap.mem (P.held.filter (· ∈ P'.held))) := by
  cases call with
  | malloc nbytes =>
    obtain ⟨turns, ap, hrun, hheld⟩ := hstep
    obtain ⟨turns', s', ap', hrun', hne, hinv, hspares⟩ := h.malloc hroom
    obtain ⟨rfl, rfl⟩ := malloc_unique hrun hrun'
    rw [if_neg hne] at hheld
    refine ⟨?_, fun _ a ha x hx => hspares a ha x (List.mem_of_mem_filter hx)⟩
    rw [← hheld] at hinv
    exact hinv
  | free ap =>
    obtain ⟨turns, nbytes, hap, hrun, hheld⟩ := hstep
    obtain ⟨turns', s', hrun', hinv, hspares⟩ := h.free hap
    obtain rfl := free_unique hrun hrun'
    rw [← hheld] at hinv hspares
    refine ⟨hinv, fun _ a ha x hx => hspares a ha x ?_⟩
    exact of_decide_eq_true (List.mem_filter.mp hx).2
  | store mem =>
    obtain ⟨hmem, rfl⟩ := hstep
    exact ⟨h.store hmem, fun hno => absurd rfl (hno mem)⟩

theorem inv_of_run (hfresh : Fresh base P₀.heap) (hheld : P₀.held = [])
    (hrun : Reaches (Step base) HasRoom P₀ P) : Inv base P :=
  hrun.invariant (.inl ⟨hfresh, hheld⟩) fun _ _ _ hinv hroom hstep => (hinv.step hroom hstep).1

/-- The blocks that a process has, apart from each other and from the headers. -/
structure BlocksApart (P : Process) : Prop where
  apart : P.held.Pairwise fun x y =>
    x.1 + x.2.toNat + UNIT ≤ y.1 ∨ y.1 + y.2.toNat + UNIT ≤ x.1
  within : ∀ x ∈ P.held, P.heap.startBrk + UNIT ≤ x.1 ∧ x.1 + x.2.toNat ≤ P.heap.brk
  aligned : ∀ x ∈ P.held, UNIT ∣ x.1 - P.heap.startBrk

theorem width_dvd (bs : List Block) : UNIT ∣ width Block.bytes bs := by
  induction bs with
  | nil => exact Nat.dvd_zero UNIT
  | cons b bs ih => exact Nat.dvd_add (Nat.dvd_mul_right UNIT b.units) ih

theorem Inv.apart (h : Inv base P) : BlocksApart P := by
  rcases h with ⟨-, hheld⟩ | ⟨bs, hlaid, hperm⟩
  · refine ⟨?_, ?_, ?_⟩
    · rw [hheld]
      exact List.Pairwise.nil
    · intro x hx
      rw [hheld] at hx
      cases hx
    · intro x hx
      rw [hheld] at hx
      cases hx
  · have hblock : ∀ x ∈ P.held, ∃ y b, (y, b) ∈ place Block.bytes P.heap.startBrk bs ∧
        x.1 = y + UNIT ∧ x.2.toNat + UNIT ≤ b.bytes := by
      intro x hx
      obtain ⟨y, b, hy, hn, hxy⟩ := mem_lives_iff.mp (hperm.subset hx)
      exact ⟨y, b, hy, hxy, hlaid.fits b (mem_of_place hy) x.2 hn⟩
    refine ⟨?_, ?_, ?_⟩
    · refine (hperm.symm.pairwise ?_ fun hxy => hxy.symm)
      have hplaced := place_pairwise Block.bytes P.heap.startBrk bs
      refine List.Pairwise.filterMap _ ?_ (hplaced.imp_of_mem
        (S := fun p q => p.1 + p.2.bytes ≤ q.1 ∧ ∀ n, p.2.owner = some n →
          n.toNat + UNIT ≤ p.2.bytes) ?_)
      · rintro p q ⟨hle, hfit⟩ x hx y hy
        obtain ⟨n, hn, rfl⟩ := Option.map_eq_some_iff.mp hx
        obtain ⟨m, -, rfl⟩ := Option.map_eq_some_iff.mp hy
        have hn := hfit n hn
        refine .inl ?_
        show p.1 + UNIT + n.toNat + UNIT ≤ q.1 + UNIT
        omega
      · rintro ⟨x, b⟩ q hx - hle
        exact ⟨hle, hlaid.fits b (mem_of_place hx)⟩
    · intro x hx
      obtain ⟨y, b, hy, hxy, hfit⟩ := hblock x hx
      have hle := place_bounds hy
      have htop := hlaid.top
      omega
    · intro x hx
      obtain ⟨y, b, hy, hxy, -⟩ := hblock x hx
      obtain ⟨l, r, -, rfl⟩ := mem_place_iff.mp hy
      rw [hxy, Nat.add_assoc, Nat.add_sub_cancel_left]
      exact Nat.dvd_add (width_dvd l) (Nat.dvd_refl UNIT)

/-- A process whose heap is empty and begins at 4096. -/
def emptyProcess : Process := ⟨⟨fun _ => ⟨0, 0⟩, 0, 0, 4096, 4096⟩, []⟩

theorem fresh_emptyProcess : Fresh 16 emptyProcess.heap := by
  refine ⟨rfl, rfl, rfl, ?_, ?_, ?_⟩ <;> decide

/-- What a call does in a process with `base` at 16.  What the process stores is left to
    `Process.write`. -/
def nextCall (P : Process) : Call → Option Process
  | .malloc n =>
    if Room P.heap (unitsFor n) then
      (malloc 16 5 P.heap n).map fun r => ⟨r.1, if r.2 = 0 then P.held else (r.2, n) :: P.held⟩
    else none
  | .free ap => (P.held.find? (·.1 == ap)).bind fun x =>
    (free 5 P.heap ap).map fun s => ⟨s, P.held.erase x⟩
  | .store _ => none

theorem nextCall_step (P : Process) (call : Call) (P' : Process) (h : nextCall P call = some P') :
    HasRoom P call ∧ Step 16 P call P' := by
  cases call with
  | malloc n =>
    obtain ⟨hroom, hcall⟩ := Option.ite_none_right_eq_some.mp h
    obtain ⟨⟨s, ap⟩, hrun, rfl⟩ := Option.map_eq_some_iff.mp hcall
    exact ⟨hroom, 5, ap, hrun, rfl⟩
  | free ap =>
    obtain ⟨⟨x, n⟩, hfind, hcall⟩ := Option.bind_eq_some_iff.mp h
    obtain ⟨s, hrun, rfl⟩ := Option.map_eq_some_iff.mp hcall
    have hfound := List.find?_some hfind
    obtain rfl : x = ap := beq_iff_eq.mp hfound
    exact ⟨trivial, 5, n, List.mem_of_find?_eq_some hfind, hrun, rfl⟩
  | store mem => cases h

/-- The process stores 16 bytes at `a`. -/
def Process.write (P : Process) (a : Nat) (bytes : Header) : Process :=
  { P with heap := { P.heap with mem := Function.update P.heap.mem a bytes } }

theorem write_step {bytes : Header} (hx : (x, n) ∈ P.held) (hlow : x ≤ a)
    (hhigh : a < x + n.toNat) :
    Step base P (.store (Function.update P.heap.mem a bytes)) (P.write a bytes) := by
  refine ⟨fun b hne => ⟨(x, n), hx, ?_⟩, rfl⟩
  obtain rfl : b = a := by
    by_contra hother
    exact hne (Function.update_of_ne hother _ _)
  have hunit : UNIT = 16 := rfl
  exact ⟨hhigh, by omega⟩

/-- A process gets 100, 200 and 300 bytes, stores in the first of the three blocks, gives the middle
    one back, and then the others. -/
theorem exists_used : ∃ P P' P'', Reaches (Step 16) HasRoom emptyProcess P ∧
    P.held = [(68976, 300), (69296, 200), (69520, 100)] ∧ P.heap.mem 69520 = ⟨7, 7⟩ ∧
    HasRoom P (.malloc 5) ∧ Step 16 P (.free 69296) P' ∧
    P'.held = [(68976, 300), (69520, 100)] ∧ P'.heap.freep ≠ 0 ∧
    Reaches (Step 16) HasRoom P' P'' ∧ P''.held = [] ∧ P''.heap.startBrk = 4096 ∧
    P''.heap.brk = 69632 := by
  have hrun : Leads nextCall emptyProcess [.malloc 100, .malloc 200, .malloc 300] fun P =>
      P.held = [(68976, 300), (69296, 200), (69520, 100)] ∧ Room P.heap (unitsFor 5) ∧
      ∃ P' ∈ nextCall (P.write 69520 ⟨7, 7⟩) (.free 69296),
        (P'.held = [(68976, 300), (69520, 100)] ∧ P'.heap.freep ≠ 0) ∧
        Leads nextCall P' [.free 68976, .free 69520] fun P'' =>
          P''.held = [] ∧ P''.heap.startBrk = 4096 ∧ P''.heap.brk = 69632 := by
    decide +kernel
  obtain ⟨P, hreach, hheld, hroom, P', hfree, hfacts', hrun⟩ := hrun.reaches _ _ nextCall_step
  obtain ⟨P'', hreach'', hfacts''⟩ := hrun.reaches _ _ nextCall_step
  have hstore : Step 16 P (.store (Function.update P.heap.mem 69520 ⟨7, 7⟩))
      (P.write 69520 ⟨7, 7⟩) :=
    write_step (show ((69520 : Nat), (100 : UInt32)) ∈ P.held by simp [hheld]) le_rfl (by decide)
  have hanyRoom : HasRoom P (.store (Function.update P.heap.mem 69520 ⟨7, 7⟩)) := trivial
  have hstored : (P.write 69520 ⟨7, 7⟩).heap.mem 69520 = ⟨7, 7⟩ := by
    show Function.update P.heap.mem 69520 ⟨7, 7⟩ 69520 = _
    rw [Function.update_self]
  exact ⟨P.write 69520 ⟨7, 7⟩, P', P'', hreach.snoc hanyRoom hstore, hheld, hstored, hroom,
    (nextCall_step _ _ _ hfree).2, hfacts'.1, hfacts'.2, hreach'', hfacts''⟩

/-- In every state of a run the blocks are apart, and no call touches a block that the process
    keeps. -/
theorem blocks_apart (hfresh : Fresh base P₀.heap) (hheld : P₀.held = [])
    (hrun : Reaches (Step base) HasRoom P₀ P) :
    BlocksApart P ∧ ∀ call P', HasRoom P call → Step base P call P' → (∀ mem, call ≠ .store mem) →
      Spares P.heap.mem P'.heap.mem (P.held.filter (· ∈ P'.held)) := by
  have hinv := inv_of_run hfresh hheld hrun
  exact ⟨hinv.apart, fun call P' hroom hstep => (hinv.step hroom hstep).2⟩

/-- What was stored in a block that is kept is still there when the one beside it is freed. -/
theorem blocks_apart_three : ∃ P P', BlocksApart P ∧
    P.held = [(68976, 300), (69296, 200), (69520, 100)] ∧ P.heap.mem 69520 = ⟨7, 7⟩ ∧
    Step 16 P (.free 69296) P' ∧ P'.held = [(68976, 300), (69520, 100)] ∧
    P'.heap.mem 69520 = ⟨7, 7⟩ := by
  obtain ⟨P, P', -, hrun, hheld, hstored, -, hfree, hheld', -⟩ := exists_used
  obtain ⟨hapart, hspares⟩ := blocks_apart fresh_emptyProcess rfl hrun
  refine ⟨P, P', hapart, hheld, hstored, hfree, hheld', ?_⟩
  by_contra hne
  have hkept : ((69520 : Nat), (100 : UInt32)) ∈ P.held.filter (· ∈ P'.held) := by
    rw [hheld, hheld']
    decide
  have hspared := hspares (.free 69296) P' trivial hfree nofun 69520
    (fun heq => hne (heq.trans hstored)) _ hkept
  exact absurd hspared (by decide)

/-- `malloc` always returns a block, and `free` returns. -/
theorem calls_return (hfresh : Fresh base P₀.heap) (hheld : P₀.held = [])
    (hrun : Reaches (Step base) HasRoom P₀ P) :
    (∀ n, HasRoom P (.malloc n) → ∃ ap P', ap ≠ 0 ∧ Step base P (.malloc n) P' ∧
      P'.held = (ap, n) :: P.held) ∧
    ∀ ap n, (ap, n) ∈ P.held →
      ∃ P', Step base P (.free ap) P' ∧ P'.held = P.held.erase (ap, n) := by
  have hinv := inv_of_run hfresh hheld hrun
  constructor
  · intro n hroom
    obtain ⟨turns, s', ap, hcall, hne, -, -⟩ := hinv.malloc hroom
    exact ⟨ap, ⟨s', (ap, n) :: P.held⟩, hne, ⟨turns, ap, hcall, (if_neg hne).symm⟩, rfl⟩
  · intro ap n hap
    obtain ⟨turns, s', hcall, -, -⟩ := hinv.free hap
    exact ⟨⟨s', P.held.erase (ap, n)⟩, ⟨turns, n, hap, hcall, rfl⟩, rfl⟩

/-- The block between two others can be given back, and there is more to get. -/
theorem calls_return_three : ∃ P, P.held = [(68976, 300), (69296, 200), (69520, 100)] ∧
    (∃ P', Step 16 P (.free 69296) P' ∧ P'.held = [(68976, 300), (69520, 100)]) ∧
    ∃ ap P', ap ≠ 0 ∧ Step 16 P (.malloc 5) P' ∧ P'.held = (ap, 5) :: P.held := by
  obtain ⟨P, -, -, hrun, hheld, -, hroom, -⟩ := exists_used
  obtain ⟨hmalloc, hfree⟩ := calls_return fresh_emptyProcess rfl hrun
  obtain ⟨P', hstep, hleft⟩ := hfree 69296 200 (by simp [hheld])
  refine ⟨P, hheld, ⟨P', hstep, ?_⟩, hmalloc 5 hroom⟩
  rw [hleft, hheld]
  rfl

/-! ## Nothing is lost -/

/-- What the free blocks and the live blocks take is the whole heap. -/
theorem Laid.conserved (h : Laid base s bs) :
    ((frees s.startBrk bs).map fun a => UNIT * (s.mem a).size).sum +
      ((lives s.startBrk bs).map fun x => UNIT * (s.mem (x.1 - UNIT)).size).sum
        = s.brk - s.startBrk := by
  have hsum : ∀ a bs, (∀ x b, (x, b) ∈ place Block.bytes a bs → (s.mem x).size = b.units) →
      ((frees a bs).map fun a => UNIT * (s.mem a).size).sum +
        ((lives a bs).map fun x => UNIT * (s.mem (x.1 - UNIT)).size).sum =
          width Block.bytes bs := by
    intro a bs hsizes
    induction bs generalizing a with
    | nil => rfl
    | cons b bs ih =>
      have hrest := ih (a + b.bytes) fun x c hx => hsizes x c (List.mem_cons_of_mem _ hx)
      have hb : UNIT * (s.mem a).size = b.bytes :=
        congrArg (UNIT * ·) (hsizes a b List.mem_cons_self)
      cases hown : b.owner with
      | none =>
        rw [frees_cons_free hown, lives_cons_free hown, List.map_cons, List.sum_cons, hb,
          width_cons]
        omega
      | some n =>
        rw [frees_cons_live (hown ▸ rfl), lives_cons_live hown, List.map_cons, List.sum_cons,
          Nat.add_sub_cancel, hb, width_cons]
        omega
  rw [hsum _ _ h.sizes, h.top, Nat.add_sub_cancel_left]

/-- A free block ends before the next one begins: what lies between them is in use. -/
theorem frees_gap (hpos : ∀ b ∈ bs, 0 < b.units) (hjoined : Unjoined bs)
    (hsizes : ∀ x b, (x, b) ∈ place Block.bytes a bs → (s.mem x).size = b.units) :
    (frees a bs).Pairwise fun x y => x + UNIT * (s.mem x).size < y := by
  induction bs generalizing a with
  | nil => exact List.Pairwise.nil
  | cons b bs ih =>
    have hrest := ih (fun c hc => hpos c (List.mem_cons_of_mem b hc)) hjoined.tail
      (a := a + b.bytes) fun x c hx => hsizes x c (List.mem_cons_of_mem _ hx)
    cases hown : b.owner with
    | some n => rwa [frees_cons_live (hown ▸ rfl)]
    | none =>
      rw [frees_cons_free hown]
      refine List.pairwise_cons.mpr ⟨fun y hy => ?_, hrest⟩
      have hb : UNIT * (s.mem a).size = b.bytes :=
        congrArg (UNIT * ·) (hsizes a b List.mem_cons_self)
      rw [hb]
      cases bs with
      | nil => cases hy
      | cons c bs =>
        have hlive : c.owner.isSome := by
          have hpair := (List.isChain_cons_cons.mp hjoined).1
          rw [hown] at hpair
          exact hpair.resolve_left nofun
        rw [frees_cons_live hlive] at hy
        have hle := (frees_bounds (fun d hd => hpos d (by simp [hd])) hy).1
        have hunit := bytes_pos (b := c) hpos (by simp)
        have hone := unit_pos
        omega

/-- The ring and the blocks of the process make up the heap. -/
structure Accounted (base : Nat) (P : Process) (free : List Nat) : Prop where
  ring : Ring (fun a => (P.heap.mem a).ptr) base free
  gaps : (base :: free).Pairwise fun x y => x + UNIT * (P.heap.mem x).size < y
  within : ∀ x ∈ free, P.heap.startBrk ≤ x ∧ x + UNIT * (P.heap.mem x).size ≤ P.heap.brk
  -- what the process has lies with its header between the free blocks
  fits : ∀ y ∈ P.held, y.2.toNat + UNIT ≤ UNIT * (P.heap.mem (y.1 - UNIT)).size
  apart : ∀ x ∈ free, ∀ y ∈ P.held, x + UNIT * (P.heap.mem x).size ≤ y.1 - UNIT ∨
    y.1 - UNIT + UNIT * (P.heap.mem (y.1 - UNIT)).size ≤ x
  whole : (free.map fun a => UNIT * (P.heap.mem a).size).sum +
    (P.held.map fun x => UNIT * (P.heap.mem (x.1 - UNIT)).size).sum
      = P.heap.brk - P.heap.startBrk

theorem Laid.accounted (h : Laid base P.heap bs) (hperm : P.held.Perm (lives P.heap.startBrk bs)) :
    Accounted base P (frees P.heap.startBrk bs) := by
  have hfree : ∀ x ∈ frees P.heap.startBrk bs, ∃ b, (x, b) ∈ place Block.bytes P.heap.startBrk bs ∧
      b.owner = none ∧ UNIT * (P.heap.mem x).size = b.bytes := by
    intro x hx
    obtain ⟨b, hb, hnone⟩ := mem_frees_iff.mp hx
    exact ⟨b, hb, hnone, congrArg (UNIT * ·) (h.sizes x b hb)⟩
  have hlive : ∀ y ∈ P.held, ∃ c, (y.1 - UNIT, c) ∈ place Block.bytes P.heap.startBrk bs ∧
      c.owner = some y.2 ∧ UNIT * (P.heap.mem (y.1 - UNIT)).size = c.bytes := by
    rintro ⟨y, n⟩ hy
    obtain ⟨z, c, hc, hn, rfl⟩ := mem_lives_iff.mp (hperm.subset hy)
    rw [Nat.add_sub_cancel]
    exact ⟨c, hc, hn, congrArg (UNIT * ·) (h.sizes z c hc)⟩
  refine ⟨h.ring, List.pairwise_cons.mpr ⟨fun x hx => ?_, frees_gap h.pos h.apart h.sizes⟩, ?_, ?_,
    ?_, ?_⟩
  · rw [h.baseSize]
    exact h.base_lt hx
  · intro x hx
    obtain ⟨b, hb, -, hsize⟩ := hfree x hx
    rw [hsize, h.top]
    exact place_bounds hb
  · intro y hy
    obtain ⟨c, hc, hn, hsize⟩ := hlive y hy
    rw [hsize]
    exact h.fits c (mem_of_place hc) _ hn
  · intro x hx y hy
    obtain ⟨b, hb, hnone, hsize⟩ := hfree x hx
    obtain ⟨c, hc, hn, hsize'⟩ := hlive y hy
    rw [hsize, hsize']
    refine (place_apart hb hc).resolve_left fun heq => ?_
    rw [(Prod.mk.inj heq).2, hn] at hnone
    cases hnone
  · rw [(hperm.map _).sum_eq]
    exact h.conserved

/-- Once the process has given everything back, the heap is one free block again. -/
theorem Laid.whole (h : Laid base s bs) (hempty : lives s.startBrk bs = []) :
    s.brk = s.startBrk ∨ (s.mem base).ptr = s.startBrk ∧ (s.mem s.startBrk).ptr = base ∧
      UNIT * (s.mem s.startBrk).size = s.brk - s.startBrk := by
  have hfree : ∀ b ∈ bs, b.owner = none := by
    intro b hb
    cases hown : b.owner with
    | none => rfl
    | some n =>
      obtain ⟨l, r, hsplit⟩ := List.append_of_mem hb
      have hin : (s.startBrk + width Block.bytes l + UNIT, n) ∈ lives s.startBrk bs :=
        mem_lives_iff.mpr ⟨_, b, mem_place_iff.mpr ⟨l, r, hsplit, rfl⟩, hown, rfl⟩
      rw [hempty] at hin
      cases hin
  have htop := h.top
  rcases bs with _ | ⟨b, _ | ⟨c, bs⟩⟩
  · exact .inl htop
  · have hring := h.ring
    have hsize := h.sizes _ b List.mem_cons_self
    rw [frees_cons_free (hfree b List.mem_cons_self), frees_nil] at hring
    obtain ⟨hfirst, hrest⟩ := linked_cons_cons.mp hring
    refine .inr ⟨hfirst, (linked_cons_cons.mp hrest).1, ?_⟩
    rw [hsize, htop, Nat.add_sub_cancel_left]
    rfl
  · -- two free neighbours would have been joined
    have hpair := (List.isChain_cons_cons.mp h.apart).1
    rw [hfree b (by simp), hfree c (by simp)] at hpair
    rcases hpair with hsome | hsome
    · cases hsome
    · cases hsome

/-- In every state of a run the ring and the blocks of the process make up the heap, and if the
    process has none, the heap is a single free block. -/
theorem heap_accounted (hfresh : Fresh base P₀.heap) (hheld : P₀.held = [])
    (hrun : Reaches (Step base) HasRoom P₀ P) :
    (P.heap.freep = 0 ∧ P.heap.brk = P.heap.startBrk ∨ ∃ free, Accounted base P free) ∧
    (P.held = [] → P.heap.brk = P.heap.startBrk ∨ (P.heap.mem base).ptr = P.heap.startBrk ∧
      (P.heap.mem P.heap.startBrk).ptr = base ∧
      UNIT * (P.heap.mem P.heap.startBrk).size = P.heap.brk - P.heap.startBrk) := by
  rcases inv_of_run hfresh hheld hrun with ⟨hstill, -⟩ | ⟨bs, hlaid, hperm⟩
  · exact ⟨.inl ⟨hstill.freep, hstill.brk⟩, fun _ => .inl hstill.brk⟩
  · refine ⟨.inr ⟨_, hlaid.accounted hperm⟩, fun hnone => hlaid.whole ?_⟩
    rw [hnone] at hperm
    exact List.nil_perm.mp hperm

/-- Two blocks are held and the one between them is free; then all is given back, and 64 KiB are one
    block again. -/
theorem heap_accounted_three :
    (∃ P free, P.held = [(68976, 300), (69520, 100)] ∧ Accounted 16 P free) ∧
    ∃ P : Process, P.held = [] ∧ (P.heap.mem 16).ptr = 4096 ∧ UNIT * (P.heap.mem 4096).size = 65536 := by
  obtain ⟨P, P', P'', hrun, -, -, -, hfree, hheld', hfreep, hrun', hheld'', hstart, hbrk⟩ :=
    exists_used
  have hanyRoom : HasRoom P (.free 69296) := trivial
  have hafter := hrun.snoc hanyRoom hfree
  obtain ⟨haccount, -⟩ := heap_accounted fresh_emptyProcess rfl hafter
  obtain ⟨-, hwhole⟩ := heap_accounted fresh_emptyProcess rfl (hafter.trans hrun')
  constructor
  · obtain ⟨free, hfree⟩ := haccount.resolve_left fun hnone => hfreep hnone.1
    exact ⟨P', free, hheld', hfree⟩
  · obtain ⟨hfirst, -, hsize⟩ := (hwhole hheld'').resolve_left (by omega)
    rw [hstart] at hfirst hsize
    rw [hbrk] at hsize
    exact ⟨P'', hheld'', hfirst, hsize⟩

end Uniks.Umalloc
