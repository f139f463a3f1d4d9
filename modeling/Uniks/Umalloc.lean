/-
  The allocator of the user library: `user/libs/umalloc.c`, and `sbrk` of `user/libs/ulib.c`.

  It is that of Kernighan and Ritchie.  The memory that `sbrk` has returned is cut into blocks that
  lie end to end (`Uniks.Lib.Tiles`), each with a header in front; the free ones are linked into a
  ring in the order of their addresses, which begins at the static `base`
  (`Uniks.Lib.Rings`).  `malloc` cuts the tail off the first block that is large enough, looking
  from where the last call stopped, and `free` joins a block with the neighbours that are free.

  The memory is seen through headers: `mem a` is what the 16 bytes from `a` on hold.  Between the
  calls the program may store what it likes in the blocks it has, which changes all the headers
  that a byte of such a block lies in (`Uniks.UmallocRuns`).  A loop gets a number of turns, and has
  no result if it needs more; there is always a number that suffices.

  This module has the code, the blocks and the ring; giving a block back is in `Uniks.UmallocFree`,
  looking for one and taking it in `Uniks.UmallocTake`.
-/
import Uniks.Lib.Rings
import Uniks.Lib.Runs
import Uniks.Lib.Tiles
import Mathlib.Algebra.Order.BigOperators.Group.List
import Mathlib.Logic.Function.Basic

namespace Uniks.Umalloc

open Uniks.Rings Uniks.Runs Uniks.Tiles

abbrev PGSIZE : Nat := 4096

/-- The size of a `union header_t`. -/
abbrev UNIT : Nat := 16

/-- The source's `union header_t`. -/
structure Header where
  ptr : Nat
  size : Nat

/-- The memory of a process, the variables of `umalloc.c` and `ulib.c`, and the end of the heap in
    its `mm_struct`. -/
structure Heap where
  mem : Nat → Header
  freep : Nat
  lastBrk : Nat
  startBrk : Nat
  brk : Nat

def Heap.setPtr (s : Heap) (a v : Nat) : Heap :=
  { s with mem := Function.update s.mem a { s.mem a with ptr := v } }

def Heap.setSize (s : Heap) (a v : Nat) : Heap :=
  { s with mem := Function.update s.mem a { s.mem a with size := v } }

/-! ## The code -/

/-- What `sys_brk` does with the end of the heap. -/
def brk (s : Heap) (addr : Nat) : Heap × Nat :=
  if addr ≤ s.startBrk then (s, s.brk) else ({ s with brk := addr }, addr)

/-- The source's `sbrk`. -/
def sbrk (s : Heap) (inc : Nat) : Heap × Nat :=
  let s := if s.lastBrk = 0 then
      let (s, end0) := brk s 0
      { s with lastBrk := end0 }
    else s
  let p := s.lastBrk
  let (s, end1) := brk s ((p + inc) % 2 ^ 64)
  let s := { s with lastBrk := end1 }
  if s.lastBrk < (p + inc) % 2 ^ 64 then (s, 0) else (s, p)

/-- The header `n` units behind another one. -/
def after (p n : Nat) : Nat := (p + UNIT * n) % 2 ^ 64

/-- Where the loop of `free` stops. -/
def Between (mem : Nat → Header) (bp p : Nat) : Prop :=
  p < bp ∧ bp < (mem p).ptr ∨ (mem p).ptr ≤ p ∧ (p < bp ∨ bp < (mem p).ptr)

instance (mem : Nat → Header) (bp p : Nat) : Decidable (Between mem bp p) :=
  inferInstanceAs (Decidable (_ ∨ _))

/-- The loop of `free`. -/
def freeLoop (mem : Nat → Header) (bp : Nat) : Nat → Nat → Option Nat
  | 0, _ => none
  | k + 1, p => if Between mem bp p then some p else freeLoop mem bp k (mem p).ptr

/-- `free` links the block to what follows, or joins it with that. -/
def joinUpper (s : Heap) (bp p : Nat) : Heap :=
  if after bp (s.mem bp).size = (s.mem p).ptr then
    let s := s.setSize bp (((s.mem bp).size + (s.mem (s.mem p).ptr).size) % 2 ^ 32)
    s.setPtr bp (s.mem (s.mem p).ptr).ptr
  else s.setPtr bp (s.mem p).ptr

/-- And what comes before to the block, or joins it with that. -/
def joinLower (s : Heap) (bp p : Nat) : Heap :=
  if after p (s.mem p).size = bp then
    let s := s.setSize p (((s.mem p).size + (s.mem bp).size) % 2 ^ 32)
    s.setPtr p (s.mem bp).ptr
  else s.setPtr p bp

/-- The source's `free`. -/
def free (turns : Nat) (s : Heap) (ap : Nat) : Option Heap := do
  let bp := ap - UNIT
  let p ← freeLoop s.mem bp turns s.freep
  return { joinLower (joinUpper s bp p) bp p with freep := p }

/-- The source's `morecore`; 0 is `NULL`. -/
def morecore (turns : Nat) (s : Heap) (nu : Nat) : Option (Heap × Nat) := do
  let nu := if nu < PGSIZE then PGSIZE else nu
  let (s, p) := sbrk s (nu * UNIT)
  if p = 2 ^ 64 - 1 then return (s, 0)
  let s := s.setSize p nu
  let s ← free turns s (after p 1)
  return (s, s.freep)

/-- A block that is large enough is taken off the ring, or its tail is cut off. -/
def take (s : Heap) (nunits prevp p : Nat) : Heap × Nat :=
  if (s.mem p).size = nunits then
    let s := s.setPtr prevp (s.mem p).ptr
    ({ s with freep := prevp }, after p 1)
  else
    let s := s.setSize p ((s.mem p).size - nunits)
    let p := after p (s.mem p).size
    let s := s.setSize p nunits
    ({ s with freep := prevp }, after p 1)

/-- The loop of `malloc`. -/
def mallocLoop (nunits : Nat) : Nat → Heap → Nat → Nat → Option (Heap × Nat)
  | 0, _, _, _ => none
  | turns + 1, s, prevp, p =>
    if nunits ≤ (s.mem p).size then some (take s nunits prevp p)
    else if p = s.freep then do
      let (s, p) ← morecore turns s nunits
      if p = 0 then return (s, 0)
      mallocLoop nunits turns s p (s.mem p).ptr
    else mallocLoop nunits turns s p (s.mem p).ptr

/-- How many units a request takes, with its header. -/
def unitsFor (nbytes : UInt32) : Nat := (nbytes.toNat + UNIT - 1) / UNIT + 1

/-- The first call makes a ring of `base` alone. -/
def initRing (s : Heap) (base : Nat) : Heap :=
  if s.freep = 0 then { (s.setPtr base base).setSize base 0 with freep := base } else s

/-- The source's `malloc`. -/
def malloc (base turns : Nat) (s : Heap) (nbytes : UInt32) : Option (Heap × Nat) :=
  let s := initRing s base
  mallocLoop (unitsFor nbytes) turns s s.freep (s.mem s.freep).ptr

/-! ## The blocks -/

/-- A block with its header: free, or with the number of bytes that were asked for. -/
structure Block where
  units : Nat
  owner : Option UInt32

def Block.bytes (b : Block) : Nat := UNIT * b.units

/-- The addresses of the free blocks. -/
def frees (a : Nat) (bs : List Block) : List Nat :=
  (place Block.bytes a bs).filterMap fun p => if p.2.owner.isNone then some p.1 else none

/-- What the program has: the pointers it got, and the numbers of bytes. -/
def lives (a : Nat) (bs : List Block) : List (Nat × UInt32) :=
  (place Block.bytes a bs).filterMap fun p => p.2.owner.map fun n => (p.1 + UNIT, n)

/-- The heap consists of these blocks. -/
structure Laid (base : Nat) (s : Heap) (bs : List Block) : Prop where
  sizes : ∀ a b, (a, b) ∈ place Block.bytes s.startBrk bs → (s.mem a).size = b.units
  pos : ∀ b ∈ bs, 0 < b.units
  fits : ∀ b ∈ bs, ∀ n, b.owner = some n → n.toNat + UNIT ≤ b.bytes
  -- free neighbours have been joined
  apart : bs.IsChain fun b c => b.owner.isSome ∨ c.owner.isSome
  ring : Ring (fun a => (s.mem a).ptr) base (frees s.startBrk bs)
  baseSize : (s.mem base).size = 0
  freep : s.freep ∈ base :: frees s.startBrk bs
  top : s.brk = s.startBrk + width Block.bytes bs
  last : s.lastBrk = s.brk ∨ s.lastBrk = 0
  basePos : 0 < base
  baseEnd : base + UNIT ≤ s.startBrk
  bound : s.brk < 2 ^ 64
  units : s.brk < s.startBrk + UNIT * 2 ^ 32

variable {base turns x y a p q : Nat} {s s' : Heap} {b c : Block}
  {bs l r pre mid mid' post : List Block} {before : List Nat}

@[simp] theorem frees_nil (a : Nat) : frees a [] = [] := rfl

theorem frees_append (a : Nat) (l r : List Block) :
    frees a (l ++ r) = frees a l ++ frees (a + width Block.bytes l) r := by
  rw [frees, place_append, List.filterMap_append]
  rfl

theorem frees_cons_free (h : b.owner = none) (a : Nat) (bs : List Block) :
    frees a (b :: bs) = a :: frees (a + b.bytes) bs := by
  simp [frees, place, h]

theorem frees_cons_live (h : b.owner.isSome) (a : Nat) (bs : List Block) :
    frees a (b :: bs) = frees (a + b.bytes) bs := by
  simp [frees, place, Option.isSome_iff_ne_none.mp h]

theorem lives_append (a : Nat) (l r : List Block) :
    lives a (l ++ r) = lives a l ++ lives (a + width Block.bytes l) r := by
  rw [lives, place_append, List.filterMap_append]
  rfl

theorem lives_cons_free (h : b.owner = none) (a : Nat) (bs : List Block) :
    lives a (b :: bs) = lives (a + b.bytes) bs := by
  simp [lives, place, h]

theorem lives_cons_live {n : UInt32} (h : b.owner = some n) (a : Nat) (bs : List Block) :
    lives a (b :: bs) = (a + UNIT, n) :: lives (a + b.bytes) bs := by
  simp [lives, place, h]

theorem mem_frees_iff : x ∈ frees a bs ↔ ∃ b, (x, b) ∈ place Block.bytes a bs ∧ b.owner = none := by
  simp only [frees, List.mem_filterMap, Option.ite_none_right_eq_some, Option.some.injEq,
    Option.isNone_iff_eq_none]
  constructor
  · rintro ⟨⟨y, b⟩, hmem, hfree, rfl⟩
    exact ⟨b, hmem, hfree⟩
  · rintro ⟨b, hmem, hfree⟩
    exact ⟨(x, b), hmem, hfree, rfl⟩

theorem mem_lives_iff {n : UInt32} :
    (x, n) ∈ lives a bs ↔
      ∃ y b, (y, b) ∈ place Block.bytes a bs ∧ b.owner = some n ∧ x = y + UNIT := by
  simp only [lives, List.mem_filterMap, Option.map_eq_some_iff, Prod.mk.injEq]
  constructor
  · rintro ⟨⟨y, b⟩, hmem, n, hn, rfl, rfl⟩
    exact ⟨y, b, hmem, hn, rfl⟩
  · rintro ⟨y, b, hmem, hn, rfl⟩
    exact ⟨(y, b), hmem, n, hn, rfl, rfl⟩

theorem mem_of_place (h : (x, b) ∈ place Block.bytes a bs) : b ∈ bs := by
  obtain ⟨pre, post, rfl, -⟩ := mem_place_iff.mp h
  exact List.mem_append_right _ List.mem_cons_self

theorem unit_pos : 0 < UNIT := by decide

theorem bytes_pos (hpos : ∀ b ∈ bs, 0 < b.units) (h : b ∈ bs) : UNIT ≤ b.bytes := by
  have hb := hpos b h
  show 16 ≤ 16 * b.units
  omega

/-- Where a free block may lie. -/
theorem frees_bounds (hpos : ∀ b ∈ bs, 0 < b.units) (h : x ∈ frees a bs) :
    a ≤ x ∧ x + UNIT ≤ a + width Block.bytes bs := by
  obtain ⟨b, hb, -⟩ := mem_frees_iff.mp h
  have hlow := place_bounds hb
  have hunit := bytes_pos hpos (mem_of_place hb)
  omega

/-- The free blocks are in the order of their addresses. -/
theorem frees_sorted (hpos : ∀ b ∈ bs, 0 < b.units) (a : Nat) : (frees a bs).Pairwise (· < ·) := by
  refine List.Pairwise.filterMap _ ?_ ((place_pairwise Block.bytes a bs).imp_of_mem
    (S := fun p q => p.1 < q.1) ?_)
  · intro p q hpq x hx y hy
    simp only [Option.ite_none_right_eq_some, Option.some.injEq] at hx hy
    rw [← hx.2, ← hy.2]
    exact hpq
  · rintro ⟨x, b⟩ ⟨y, c⟩ hx - hle
    have hunit := bytes_pos hpos (mem_of_place hx)
    exact Nat.lt_of_lt_of_le (Nat.lt_add_of_pos_right (unit_pos.trans_le hunit)) hle

/-- A header in front of a block does not lie in a block that the program has. -/
theorem start_apart (hpos : ∀ b ∈ bs, 0 < b.units)
    (hfits : ∀ b ∈ bs, ∀ n, b.owner = some n → n.toNat + UNIT ≤ b.bytes)
    (hx : (x, c) ∈ place Block.bytes a bs) {n : UInt32} (hy : (y, n) ∈ lives a bs) :
    x + UNIT ≤ y ∨ y + n.toNat ≤ x := by
  obtain ⟨z, b, hz, hn, rfl⟩ := mem_lives_iff.mp hy
  have hfit := hfits b (mem_of_place hz) n hn
  have hunit := bytes_pos hpos (mem_of_place hx)
  rcases place_apart hx hz with heq | hle | hle
  · cases heq
    exact .inl (Nat.le_refl _)
  · omega
  · omega

/-! ## Where a block belongs in the ring -/

theorem Laid.base_lt (h : Laid base s bs) (hx : x ∈ frees s.startBrk bs) : base < x := by
  have hlow := (frees_bounds h.pos hx).1
  have hend := h.baseEnd
  have hunit := unit_pos
  omega

/-- The ring in the order of the addresses. -/
theorem Laid.sorted (h : Laid base s bs) : (base :: frees s.startBrk bs).Pairwise (· < ·) :=
  List.pairwise_cons.mpr ⟨fun _ hx => h.base_lt hx, frees_sorted h.pos _⟩

/-- The member of the ring in front of some blocks lies before them. -/
theorem Laid.before_lt (h : Laid base s (l ++ r)) (hx : x ∈ base :: frees s.startBrk l) :
    x < s.startBrk + width Block.bytes l := by
  have hone := unit_pos
  rcases List.mem_cons.mp hx with rfl | hx
  · have hend := h.baseEnd
    omega
  · have hle := (frees_bounds (fun b hb => h.pos b (List.mem_append_left r hb)) hx).2
    omega

/-- The loop stops at the last member in front of the block. -/
theorem between_iff {bp : Nat} (h : Laid base s (l ++ r))
    (hbp : bp = s.startBrk + width Block.bytes l)
    (hr : ∀ y ∈ frees bp r, bp < y) (hp : base :: frees s.startBrk l = before ++ [p])
    (hx : x ∈ base :: frees s.startBrk (l ++ r)) : Between s.mem bp x ↔ x = p := by
  have hsorted := h.sorted
  have hring := h.ring
  have hall : base :: frees s.startBrk (l ++ r) = before ++ p :: frees bp r := by
    rw [frees_append, ← hbp, ← List.cons_append, hp, List.append_assoc]
    rfl
  have hlow : ∀ y ∈ base :: frees s.startBrk l, y < bp := fun y hy => hbp ▸ h.before_lt hy
  have hbase : base < bp := hlow base List.mem_cons_self
  obtain ⟨pre, post, hsplit⟩ := List.append_of_mem hx
  have hnext : (s.mem x).ptr = post.headD base := hring.next_eq _ hsplit
  have hbehind : ∀ y ∈ post, x < y := by
    rw [hsplit] at hsorted
    exact (List.pairwise_cons.mp (List.pairwise_append.mp hsorted).2.1).1
  -- between means in front of the block, with no other member between
  have hbetween : Between s.mem bp x ↔ x < bp ∧ ∀ y ∈ post.head?, bp < y := by
    unfold Between
    rw [hnext]
    cases post with
    | nil =>
      have hxbase : base ≤ x := by
        rcases List.mem_cons.mp hx with rfl | hx
        · exact Nat.le_refl _
        · exact Nat.le_of_lt (h.base_lt hx)
      have hnone : ∀ y ∈ ([] : List Nat).head?, bp < y := nofun
      rw [List.headD_nil, and_iff_left hnone]
      omega
    | cons y post =>
      have hxy := hbehind y List.mem_cons_self
      simp only [List.headD_cons, List.head?_cons, Option.mem_def, Option.some.injEq,
        forall_eq']
      omega
  rw [hbetween]
  constructor
  · rintro ⟨hlt, hhead⟩
    have hbehindbp : ∀ y ∈ post, bp < y := by
      rw [hsplit] at hsorted
      intro y hy
      cases post with
      | nil => cases hy
      | cons z post =>
        have hz := hhead z rfl
        rcases List.mem_cons.mp hy with rfl | hy
        · exact hz
        · have hzy := (List.pairwise_cons.mp
            (List.pairwise_cons.mp (List.pairwise_append.mp hsorted).2.1).2).1 y hy
          omega
    have hxp : x ∈ before ++ p :: frees bp r := hall ▸ hx
    have hpx : p ∈ pre ++ x :: post := by
      rw [← hsplit, hall]
      exact List.mem_append_right _ List.mem_cons_self
    have hsortedp := hall ▸ hsorted
    have hpbp : p < bp := hlow p (by rw [hp]; exact List.mem_append_right _ List.mem_cons_self)
    have hle : x ≤ p := by
      rcases List.mem_append.mp hxp with hxp | hxp
      · exact Nat.le_of_lt ((List.pairwise_append.mp hsortedp).2.2 x hxp p List.mem_cons_self)
      · rcases List.mem_cons.mp hxp with rfl | hxp
        · exact Nat.le_refl _
        · have hgt := hr x hxp
          omega
    rcases List.mem_append.mp hpx with hpx | hpx
    · rw [hsplit] at hsorted
      have hlt := (List.pairwise_append.mp hsorted).2.2 p hpx x List.mem_cons_self
      omega
    · rcases List.mem_cons.mp hpx with rfl | hpx
      · rfl
      · have hgt := hbehindbp p hpx
        omega
  · rintro rfl
    have hpbp : x < bp := hlow x (by rw [hp]; exact List.mem_append_right _ List.mem_cons_self)
    refine ⟨hpbp, fun y hy => ?_⟩
    have hsame : post = frees bp r := by
      have hnodup : (base :: frees s.startBrk (l ++ r)).Nodup := hsorted.imp Nat.ne_of_lt
      have hpre : x ∉ pre := by
        rw [hsplit] at hnodup
        exact fun hin => (List.nodup_append.mp hnodup).2.2 x hin x List.mem_cons_self rfl
      have hpost : x ∉ post := fun hin => Nat.lt_irrefl x (hbehind x hin)
      exact ((List.append_cons_inj_of_notMem hpre hpost).mp (hsplit.symm.trans hall)).2.2
    rw [hsame] at hy
    exact hr y (List.mem_of_mem_head? hy)

theorem freeLoop_eq_find (mem : Nat → Header) (bp k p : Nat) :
    freeLoop mem bp k p = find (fun a => (mem a).ptr) (Between mem bp) k p := by
  induction k generalizing p with
  | zero => rfl
  | succ k ih =>
    rw [freeLoop, find, ih]

/-! ## Exchanging blocks -/

/-- Some blocks are exchanged for others that take the same room. -/
theorem Laid.exchange (h : Laid base s (pre ++ mid ++ post))
    (hlast : base :: frees s.startBrk pre = before ++ [p])
    (hwidth : width Block.bytes mid' = width Block.bytes mid)
    (hpos : ∀ b ∈ mid', 0 < b.units)
    (hfits : ∀ b ∈ mid', ∀ n, b.owner = some n → n.toNat + UNIT ≤ b.bytes)
    (hchain : (pre ++ mid' ++ post).IsChain fun b c => b.owner.isSome ∨ c.owner.isSome)
    (hsizes : ∀ a b, (a, b) ∈ place Block.bytes (s.startBrk + width Block.bytes pre) mid' →
      (s'.mem a).size = b.units)
    (hlinks : Linked (fun a => (s'.mem a).ptr)
      (p :: frees (s.startBrk + width Block.bytes pre) mid' ++
        [(frees (s.startBrk + width Block.bytes (pre ++ mid)) post).headD base]))
    (hmem : ∀ a, a < s.startBrk + width Block.bytes pre ∨
      s.startBrk + width Block.bytes (pre ++ mid) ≤ a → a ≠ p → s'.mem a = s.mem a)
    (hp : (s'.mem p).size = (s.mem p).size)
    (hfreep : s'.freep ∈ base :: frees s.startBrk (pre ++ mid' ++ post))
    (hbrk : s'.brk = s.brk) (hstart : s'.startBrk = s.startBrk)
    (hlastBrk : s'.lastBrk = s.lastBrk) :
    Laid base s' (pre ++ mid' ++ post) := by
  have hbefore : ∀ b ∈ pre, b ∈ pre ++ mid ++ post := fun b hb =>
    List.mem_append_left post (List.mem_append_left mid hb)
  have hafter : ∀ b ∈ post, b ∈ pre ++ mid ++ post := fun b hb => List.mem_append_right _ hb
  have hwidths : width Block.bytes (pre ++ mid') = width Block.bytes (pre ++ mid) := by
    rw [width_append, width_append, hwidth]
  have hsame : ∀ a, a < s.startBrk + width Block.bytes pre ∨
      s.startBrk + width Block.bytes (pre ++ mid) ≤ a → (s'.mem a).size = (s.mem a).size := by
    intro a ha
    by_cases hap : a = p
    · rw [hap, hp]
    · rw [hmem a ha hap]
  refine ⟨?_, ?_, ?_, hchain, ?_, ?_, ?_, ?_, ?_, h.basePos, ?_, ?_, ?_⟩
  · intro a b hab
    have hold := h.sizes a b
    rw [hstart] at hab
    rw [place_append, place_append] at hab hold
    rw [hwidths] at hab
    rcases List.mem_append.mp hab with hab | hpost
    · rcases List.mem_append.mp hab with hpre | hmid
      · have hle := place_bounds hpre
        have hunit := bytes_pos (fun b hb => h.pos b (hbefore b hb)) (mem_of_place hpre)
        have hone := unit_pos
        rw [hsame a (.inl (by omega))]
        exact hold (List.mem_append_left _ (List.mem_append_left _ hpre))
      · exact hsizes a b hmid
    · rw [hsame a (.inr (place_bounds hpost).1)]
      exact hold (List.mem_append_right _ hpost)
  · intro b hb
    rcases List.mem_append.mp hb with hb | hb
    · rcases List.mem_append.mp hb with hb | hb
      · exact h.pos b (hbefore b hb)
      · exact hpos b hb
    · exact h.pos b (hafter b hb)
  · intro b hb
    rcases List.mem_append.mp hb with hb | hb
    · rcases List.mem_append.mp hb with hb | hb
      · exact h.fits b (hbefore b hb)
      · exact hfits b hb
    · exact h.fits b (hafter b hb)
  · have hring := h.ring
    have hsorted := h.sorted
    rw [frees_append, frees_append] at hring hsorted
    rw [hstart, frees_append, frees_append, hwidths]
    have hlow : ∀ x ∈ base :: frees s.startBrk pre, x < s.startBrk + width Block.bytes pre :=
      fun x hx => (List.append_assoc pre mid post ▸ h).before_lt hx
    have hsplit : base :: (frees s.startBrk pre ++ frees (s.startBrk + width Block.bytes pre) mid ++
        frees (s.startBrk + width Block.bytes (pre ++ mid)) post) = before ++ (p ::
        (frees (s.startBrk + width Block.bytes pre) mid ++
        frees (s.startBrk + width Block.bytes (pre ++ mid)) post)) := by
      rw [List.append_assoc, ← List.cons_append, hlast, List.append_assoc]
      rfl
    have hpsorted := hsplit ▸ hsorted
    refine hring.splice hlast hlinks (fun x hx => ?_) fun x hx => ?_
    · have hxp := (List.pairwise_append.mp hpsorted).2.2 x hx p List.mem_cons_self
      have hin : x ∈ base :: frees s.startBrk pre := hlast ▸ List.mem_append_left _ hx
      show (s'.mem x).ptr = (s.mem x).ptr
      rw [hmem x (.inl (hlow x hin)) (Nat.ne_of_lt hxp)]
    · have hxp := (List.pairwise_cons.mp (List.pairwise_append.mp hpsorted).2.1).1 x
        (List.mem_append_right _ hx)
      have hle := (frees_bounds (fun b hb => h.pos b (hafter b hb)) hx).1
      show (s'.mem x).ptr = (s.mem x).ptr
      rw [hmem x (.inr hle) (Nat.ne_of_gt hxp)]
  · have hend := h.baseEnd
    have hone := unit_pos
    rw [hsame base (.inl (by omega))]
    exact h.baseSize
  · rw [hstart]
    exact hfreep
  · rw [hbrk, hstart, h.top]
    simp only [width_append, hwidth]
  · rw [hlastBrk, hbrk]
    exact h.last
  · rw [hstart]
    exact h.baseEnd
  · rw [hbrk]
    exact h.bound
  · rw [hbrk, hstart]
    exact h.units

end Uniks.Umalloc
