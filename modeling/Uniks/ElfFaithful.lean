/-
  What `load_elf` makes of an executable.

  An executable asks for an area for each of its segments and for a heap behind the highest of them.
  The areas are right whatever other headers there are.  The heap begins where the last header read
  ends, whatever that header is for, and the entry passes through a signed 32-bit variable; so the
  files that are loaded as they ask are those whose last header ends with the highest segment and
  whose entry has 31 bits (`elf_faithful`).
-/
import Uniks.ElfLoad

namespace Uniks.ElfLoad

open Uniks.ByteMem Uniks.Hoare Uniks.Spans
open Uniks.Inode (Slot)
open Uniks.Execve (signExtend)
open Uniks.Vm (Vma Phdr Fault ADDRS PGSIZE PTE_R PTE_W PTE_X PTE_U USER_STACK_TOP pgRoundUp
  pgRoundDown segmentPerm segmentEnd)

/-! ## What a file asks for -/

/-- Where a segment ends in memory, rounded up to pages. -/
def roundedEnd (h : Phdr) : Nat := pgRoundUp (h.pVaddr + h.pMemsz)

/-- The END of the highest segment. -/
def highest (hs : List Phdr) : Nat := (hs.map roundedEnd).foldr max 0

/-- An executable: all headers are there, and the segments are aligned, apart from each other and
    within the addresses of a user. -/
structure Executable (size : Nat) (d : Disk) : Prop where
  accepted : Accepted size d
  whole : complete (fileHeaders size d) = true
  nonempty : segments (fileHeaders size d) ≠ []
  aligned : ∀ h ∈ segments (fileHeaders size d), Aligned h
  inside : ∀ h ∈ segments (fileHeaders size d), h.pVaddr + h.pMemsz ≤ USER_STACK_TOP
  apart : (segments (fileHeaders size d)).Pairwise
    (Apart Phdr.pVaddr fun h => h.pVaddr + h.pMemsz)

/-- The area of a segment: its pages, its part of the file, and the flags R, W and X that the header
    has in the bits 2, 1 and 0. -/
structure IsSegment (ip : Slot) (h : Phdr) (vma : Vma) : Prop where
  start : vma.vmStart = h.pVaddr
  stop : vma.vmEnd = roundedEnd h
  inode : vma.vmInode = some ip.val
  offset : vma.vmPgoff = h.pOffset
  filesz : vma.filesz = h.pFilesz
  flags : vma.vmFlags = PTE_U ||| (if h.pFlags.getLsbD 2 then PTE_R else 0#8)
    ||| (if h.pFlags.getLsbD 1 then PTE_W else 0#8) ||| (if h.pFlags.getLsbD 0 then PTE_X else 0#8)

/-- The empty area of a heap. -/
def emptyHeap (b : Nat) : Vma := ⟨b, b, PTE_R ||| PTE_W ||| PTE_U, 0, 0, none⟩

/-- The file is loaded as it asks: the answer is its entry, and the areas are those of its segments
    and an empty heap behind the highest. -/
def Faithful (ip : Slot) (size : Nat) (d : Disk) (x : Except Fault (Loader × Nat)) : Prop :=
  ∃ k vmas, x = .ok (k, (fileEhdr d).eEntry) ∧
    List.Forall₂ (IsSegment ip) (segments (fileHeaders size d)) vmas ∧
    k.mm.areas.Perm (emptyHeap (highest (segments (fileHeaders size d))) :: vmas) ∧
    k.mm.startBrk = highest (segments (fileHeaders size d)) ∧
    k.mm.brk = highest (segments (fileHeaders size d))

/-- What the code needs of an executable besides, `count` being the references to the file: there is
    room in the count, the last header ends with the highest segment, and the entry has 31 bits. -/
structure Ordinary (count size : Nat) (d : Disk) (stale : Bytes) : Prop where
  few : count + (segments (fileHeaders size d)).length < 65536
  last : segmentEnd (Vm.lastHeader (fileHeaders size d) (phdr stale))
    = highest (segments (fileHeaders size d))
  entry : (fileEhdr d).eEntry < 2 ^ 31 ∨ 2 ^ 64 - 2 ^ 31 ≤ (fileEhdr d).eEntry

/-! ## Segments -/

variable {d : Disk} {stale : Bytes} {k k' : Loader} {ip : Slot} {h : Phdr} {hs : List Phdr}
  {size res : Nat}

theorem le_highest (hmem : h ∈ hs) : roundedEnd h ≤ highest hs := by
  unfold highest
  induction hs with
  | nil => cases hmem
  | cons g hs ih =>
    rw [List.map_cons, List.foldr_cons]
    rcases List.mem_cons.mp hmem with rfl | hmem
    · exact Nat.le_max_left _ _
    · exact Nat.le_trans (ih hmem) (Nat.le_max_right _ _)

theorem segmentPerm_eq (f : BitVec 32) : segmentPerm f
    = PTE_U ||| (if f.getLsbD 2 then PTE_R else 0#8) ||| (if f.getLsbD 1 then PTE_W else 0#8)
      ||| (if f.getLsbD 0 then PTE_X else 0#8) := by
  unfold segmentPerm
  cases f.getLsbD 0 <;> cases f.getLsbD 1 <;> cases f.getLsbD 2 <;> decide

/-- In the addresses of a user nothing wraps around. -/
theorem segmentEnd_inside (hin : h.pVaddr + h.pMemsz ≤ USER_STACK_TOP) :
    segmentEnd h = roundedEnd h := by
  have htop : USER_STACK_TOP = 274877898752 := by decide
  rw [htop] at hin
  unfold segmentEnd roundedEnd
  apply Nat.mod_eq_of_lt
  simp only [pgRoundUp, pgRoundDown, PGSIZE, ADDRS]
  omega

theorem isSegment_segmentArea (hin : h.pVaddr + h.pMemsz ≤ USER_STACK_TOP) :
    IsSegment ip h (segmentArea ip h) where
  start := rfl
  stop := segmentEnd_inside hin
  inode := rfl
  offset := rfl
  filesz := rfl
  flags := segmentPerm_eq h.pFlags

/-- The areas of the segments. -/
theorem isSegment_map (hin : ∀ h ∈ hs, h.pVaddr + h.pMemsz ≤ USER_STACK_TOP) :
    List.Forall₂ (IsSegment ip) hs (hs.map (segmentArea ip)) := by
  induction hs with
  | nil => exact List.Forall₂.nil
  | cons h hs ih =>
    have hfirst : IsSegment ip h (segmentArea ip h) :=
      isSegment_segmentArea (hin h List.mem_cons_self)
    exact List.Forall₂.cons hfirst (ih fun g hg => hin g (List.mem_cons_of_mem h hg))

/-- Segments that are apart have areas that are apart. -/
theorem clashfree_segments (hal : ∀ h ∈ hs, Aligned h)
    (hin : ∀ h ∈ hs, h.pVaddr + h.pMemsz ≤ USER_STACK_TOP)
    (hapart : hs.Pairwise (Apart Phdr.pVaddr fun h => h.pVaddr + h.pMemsz)) :
    Clashfree Vma.vmStart Vma.vmEnd [] (hs.map (segmentArea ip)) := by
  have hround : ∀ a : Nat, a ≤ pgRoundUp a := by
    intro a
    simp only [pgRoundUp, pgRoundDown, PGSIZE]
    omega
  have hfits : ∀ a b : Nat, b % PGSIZE = 0 → a ≤ b → pgRoundUp a ≤ b := by
    intro a b hb hle
    simp only [pgRoundUp, pgRoundDown, PGSIZE] at hb ⊢
    omega
  have hproper : ∀ vma ∈ hs.map (segmentArea ip), vma.vmStart ≤ vma.vmEnd := by
    intro vma hvma
    obtain ⟨h, hmem, rfl⟩ := List.mem_map.mp hvma
    show h.pVaddr ≤ segmentEnd h
    rw [segmentEnd_inside (hin h hmem)]
    exact Nat.le_trans (Nat.le_add_right _ _) (hround _)
  rw [clashfree_iff List.Pairwise.nil (List.forall_mem_nil _) hproper]
  refine ⟨List.pairwise_map.mpr ?_, fun _ _ => List.forall_mem_nil _⟩
  refine hapart.imp_of_mem ?_
  intro a b ha hb hab
  show segmentEnd a ≤ b.pVaddr ∨ segmentEnd b ≤ a.pVaddr
  rw [segmentEnd_inside (hin a ha), segmentEnd_inside (hin b hb)]
  rcases hab with hab | hab
  · exact .inl (hfits _ _ (hal b hb).2 hab)
  · exact .inr (hfits _ _ (hal a ha).2 hab)

/-! ## The run -/

theorem ret_eq (hlocked : k.locked = true) (hcount : 1 ≤ k.iCount ip) (res : Nat) :
    ∃ k', ret k ip res = .ok (k', res) ∧ k'.mm = k.mm := by
  have hcount' : (k.inodes.mInodes ip).iCount ≥ 1 := hcount
  unfold ret iunlock Inode.iunlock
  rw [if_pos hcount']
  dsimp only
  rw [if_pos hlocked]
  exact ⟨_, rfl, rfl⟩

/-- What a file with whole headers has to have for the run to finish. -/
def Finishes (ip : Slot) (count size : Nat) (d : Disk) (stale : Bytes) : Prop :=
  (∀ h ∈ segments (fileHeaders size d), Aligned h) ∧
    Clashfree Vma.vmStart Vma.vmEnd [] ((segments (fileHeaders size d)).map (segmentArea ip)) ∧
    count + (segments (fileHeaders size d)).length < 65536 ∧
    Clear Vma.vmStart Vma.vmEnd (heapArea (Vm.lastHeader (fileHeaders size d) (phdr stale)))
      (placeAll Vma.vmStart Vma.vmEnd [] ((segments (fileHeaders size d)).map (segmentArea ip)))

/-- How the run of a file with whole headers ends: at an assertion, or with the areas of all
    segments and a heap behind the last header. -/
theorem loadElf_whole (hfresh : k.mm.areas = []) (hcount : 1 ≤ k.iCount ip)
    (hwidth : k.iCount ip < 65536) (hacc : Accepted (fileSize k.inodes ip) d)
    (hwhole : complete (fileHeaders (fileSize k.inodes ip) d) = true) :
    (¬ Finishes ip (k.iCount ip) (fileSize k.inodes ip) d stale →
        ∃ e, loadElf d stale k ip = .error e) ∧
      (Finishes ip (k.iCount ip) (fileSize k.inodes ip) d stale → ∃ k',
        loadElf d stale k ip = .ok (k', signExtend (fileEhdr d).eEntry) ∧
        k'.mm.areas = place Vma.vmStart Vma.vmEnd
          (heapArea (Vm.lastHeader (fileHeaders (fileSize k.inodes ip) d) (phdr stale)))
          (placeAll Vma.vmStart Vma.vmEnd []
            ((segments (fileHeaders (fileSize k.inodes ip) d)).map (segmentArea ip))) ∧
        k'.mm.startBrk
          = segmentEnd (Vm.lastHeader (fileHeaders (fileSize k.inodes ip) d) (phdr stale)) ∧
        k'.mm.brk
          = segmentEnd (Vm.lastHeader (fileHeaders (fileSize k.inodes ip) d) (phdr stale))) := by
  rcases loadElf_accepted stale hcount hacc with ⟨k₁, hmm, hlocked, hcount₁, hsize, hrun⟩
  have hloop := loadHeaders_spec d ip (fileEhdr d).ePhoff (fileEhdr d).ePhnum 0 stale k₁
  rw [hsize] at hloop
  rw [hrun]
  unfold Finishes
  generalize hhs : fileHeaders (fileSize k.inodes ip) d = hs at hwhole
  have hread : headers (fileSize k.inodes ip) d (fileEhdr d).ePhoff 0 (fileEhdr d).ePhnum = hs :=
    hhs
  rw [hread] at hloop
  rcases hloop with ⟨hfail, hok⟩
  have hloads : LoadsAll ip k₁ (segments hs) ∧ 1 ≤ (k₁.loadAll ip (segments hs)).iCount ip ↔ _ :=
    loadsAll_iff (by rw [hcount₁]; exact hwidth)
  rw [hcount₁, hmm, hfresh] at hloads
  have hareas : (k₁.loadAll ip (segments hs)).mm.areas
      = placeAll Vma.vmStart Vma.vmEnd [] ((segments hs).map (segmentArea ip)) := by
    rw [loadAll_areas, hmm, hfresh]
  have hlocked' : (k₁.loadAll ip (segments hs)).locked = true := by
    rw [loadAll_locked, hlocked]
  by_cases hall : LoadsAll ip k₁ (segments hs)
  · rcases hok hall with ⟨last, hloaded, hlast⟩
    rw [hwhole, if_pos rfl] at hlast
    rcases Option.map_eq_some_iff.mp hlast with ⟨buf, rfl, hbuf⟩
    rw [hloaded, ok_bind, ← hbuf]
    dsimp only
    rw [setHeap_eq, hareas]
    by_cases hclear : Clear Vma.vmStart Vma.vmEnd (heapArea (phdr buf))
      (placeAll Vma.vmStart Vma.vmEnd [] ((segments hs).map (segmentArea ip)))
    · rw [if_pos hclear]
      by_cases hone : 1 ≤ (k₁.loadAll ip (segments hs)).iCount ip
      · obtain ⟨hal, hclash, -, hfew⟩ := hloads.mp ⟨hall, hone⟩
        refine ⟨fun hnot => absurd ⟨hal, hclash, hfew, hclear⟩ hnot, fun _ => ?_⟩
        obtain ⟨k', hret, hmm'⟩ := ret_eq (k := (k₁.loadAll ip (segments hs)).addHeap (phdr buf))
          hlocked' hone (signExtend (fileEhdr d).eEntry)
        refine ⟨k', hret, ?_, ?_, ?_⟩
        · rw [hmm', ← hareas]
          rfl
        · rw [hmm']
          rfl
        · rw [hmm']
          rfl
      · refine ⟨fun _ => ?_, fun hfin => ?_⟩
        · have hzero :
              ¬ (((k₁.loadAll ip (segments hs)).addHeap (phdr buf)).inodes.mInodes ip).iCount ≥ 1 :=
            hone
          refine ⟨.check, ?_⟩
          unfold ret iunlock Inode.iunlock
          rw [if_neg hzero]
          rfl
        · exact absurd (hloads.mpr ⟨hfin.1, hfin.2.1, hcount, hfin.2.2.1⟩).2 hone
    · rw [if_neg hclear]
      exact ⟨fun _ => ⟨.check, rfl⟩, fun hfin => absurd hfin.2.2.2 hclear⟩
  · rw [hfail hall]
    refine ⟨fun _ => ⟨.check, rfl⟩, fun hfin => ?_⟩
    exact absurd (hloads.mpr ⟨hfin.1, hfin.2.1, hcount, hfin.2.2.1⟩).1 hall

/-! ## Files that are loaded as they ask -/

theorem signExtend_eq_self (hres : res < ADDRS) :
    signExtend res = res ↔ res < 2 ^ 31 ∨ 2 ^ 64 - 2 ^ 31 ≤ res := by
  simp only [ADDRS] at hres
  unfold signExtend
  split <;> omega

theorem eEntry_lt (d : Disk) : (fileEhdr d).eEntry < ADDRS := getLE_lt _ _ _

/-- A file that is loaded as it asks is an ordinary one. -/
theorem Faithful.ordinary (hfresh : k.mm.areas = []) (hcount : 1 ≤ k.iCount ip)
    (hwidth : k.iCount ip < 65536) (hfile : Executable (fileSize k.inodes ip) d)
    (hload : Faithful ip (fileSize k.inodes ip) d (loadElf d stale k ip)) :
    Ordinary (k.iCount ip) (fileSize k.inodes ip) d stale := by
  obtain ⟨hstop, hgo⟩ := @loadElf_whole d stale k ip hfresh hcount hwidth hfile.accepted hfile.whole
  obtain ⟨k', vmas, hrun, -, -, hbrk, -⟩ := hload
  have hfin : Finishes ip (k.iCount ip) (fileSize k.inodes ip) d stale := by
    by_contra hnot
    obtain ⟨e, herr⟩ := hstop hnot
    exact nomatch hrun.symm.trans herr
  obtain ⟨k'', hrun', -, hbrk', -⟩ := hgo hfin
  obtain ⟨rfl, hentry⟩ := Prod.mk.inj (Except.ok.inj (hrun.symm.trans hrun'))
  exact ⟨hfin.2.2.1, hbrk'.symm.trans hbrk, (signExtend_eq_self (eEntry_lt d)).mp hentry.symm⟩

/-- An executable is loaded as it asks if and only if it is an ordinary one. -/
theorem elf_faithful (hfresh : k.mm.areas = []) (hcount : 1 ≤ k.iCount ip)
    (hwidth : k.iCount ip < 65536) (hfile : Executable (fileSize k.inodes ip) d) :
    Faithful ip (fileSize k.inodes ip) d (loadElf d stale k ip) ↔
      Ordinary (k.iCount ip) (fileSize k.inodes ip) d stale := by
  obtain ⟨-, hgo⟩ := @loadElf_whole d stale k ip hfresh hcount hwidth hfile.accepted hfile.whole
  constructor
  · exact Faithful.ordinary hfresh hcount hwidth hfile
  · rintro ⟨hfew, hlast, hentry⟩
    have hclear : Clear Vma.vmStart Vma.vmEnd
        (heapArea (Vm.lastHeader (fileHeaders (fileSize k.inodes ip) d) (phdr stale)))
        (placeAll Vma.vmStart Vma.vmEnd []
          ((segments (fileHeaders (fileSize k.inodes ip) d)).map (segmentArea ip))) := by
      apply clear_of_apart
      intro vma hvma
      have hmem := (placeAll_perm [] _).mem_iff.mp hvma
      rw [List.append_nil] at hmem
      obtain ⟨h, hh, rfl⟩ := List.mem_map.mp hmem
      -- no segment ends behind the heap
      right
      show segmentEnd h ≤ segmentEnd _
      rw [hlast, segmentEnd_inside (hfile.inside h hh)]
      exact le_highest hh
    obtain ⟨k', hrun, hareas, hbrk, hbrk'⟩ := hgo ⟨hfile.aligned,
      clashfree_segments hfile.aligned hfile.inside hfile.apart, hfew, hclear⟩
    rw [(signExtend_eq_self (eEntry_lt d)).mpr hentry] at hrun
    refine ⟨k', _, hrun, isSegment_map hfile.inside, ?_, hbrk.trans hlast, hbrk'.trans hlast⟩
    have hheap : heapArea (Vm.lastHeader (fileHeaders (fileSize k.inodes ip) d) (phdr stale))
        = emptyHeap (highest (segments (fileHeaders (fileSize k.inodes ip) d))) := by
      rw [← hlast]
      rfl
    rw [hareas, hheap]
    refine (place_perm _ _).trans (List.Perm.cons _ ?_)
    have hperm : (placeAll Vma.vmStart Vma.vmEnd []
        ((segments (fileHeaders (fileSize k.inodes ip) d)).map (segmentArea ip))).Perm
        ((segments (fileHeaders (fileSize k.inodes ip) d)).map (segmentArea ip) ++ []) :=
      placeAll_perm [] _
    rwa [List.append_nil] at hperm

/-- Two segments, the higher one behind the other. -/
theorem elf_faithful_two :
    Faithful 0 (executable [(0x10000, 0x1800, 4096), (0x20000, 10, 4096)]).length
      (oneBlock (executable [(0x10000, 0x1800, 4096), (0x20000, 10, 4096)]))
      (loadFile [(0x10000, 0x1800, 4096), (0x20000, 10, 4096)] 0) := by
  refine (elf_faithful rfl (by decide) (by decide) ?_).mpr ?_
  · refine ⟨?_, ?_, ?_, ?_, ?_, ?_⟩
    all_goals decide +kernel
  · refine ⟨?_, ?_, ?_⟩
    all_goals decide +kernel

/-- With the higher segment in front the heap begins below it. -/
theorem elf_unfaithful :
    Executable (executable [(0x20000, 10, 4096), (0x10000, 10, 4096)]).length
        (oneBlock (executable [(0x20000, 10, 4096), (0x10000, 10, 4096)])) ∧
      ¬ Faithful 0 (executable [(0x20000, 10, 4096), (0x10000, 10, 4096)]).length
        (oneBlock (executable [(0x20000, 10, 4096), (0x10000, 10, 4096)]))
        (loadFile [(0x20000, 10, 4096), (0x10000, 10, 4096)] 0) := by
  have hfile : Executable (executable [(0x20000, 10, 4096), (0x10000, 10, 4096)]).length
      (oneBlock (executable [(0x20000, 10, 4096), (0x10000, 10, 4096)])) := by
    refine ⟨?_, ?_, ?_, ?_, ?_, ?_⟩
    all_goals decide +kernel
  refine ⟨hfile, fun hload => ?_⟩
  have hord := Faithful.ordinary
    (k := opened (executable [(0x20000, 10, 4096), (0x10000, 10, 4096)]).length) rfl (by decide)
    (by decide) hfile hload
  have hlast := hord.last
  revert hlast
  decide +kernel

end Uniks.ElfLoad
