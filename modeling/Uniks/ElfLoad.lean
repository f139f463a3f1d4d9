/-
  `kernel/loader/elfloader.c`: an executable is read, and its segments become areas.

  The file enters as `Disk`: the contents of its blocks, where there are any (`bmap` may find none,
  and `blk_read` may have no buffer), and whether a `sync` turns a reading away.  How long it is
  stands in its slot of the inode table, and with it the 16-bit count of references, to which each
  segment adds one.  Memory for the areas is always there.  A failed assertion is a `Fault`.
-/
import Uniks.Execve
import Uniks.Layout
import Uniks.Lib.ByteMem
import Uniks.Lib.Spans
import Mathlib.Data.UInt

namespace Uniks.ElfLoad

open Uniks.ByteMem Uniks.Hoare Uniks.Spans
open Uniks.Inode (Slot InodeTable BLKSIZE)
open Uniks.Execve (signExtend)
open Uniks.Vm (Mm Vma Phdr Fault ADDRS PGSIZE PTE_R PTE_W PTE_U MAXSTACK USER_STACK_TOP PT_LOAD
  insertArea segmentPerm segmentEnd)

/-! ## Reading -/

/-- What there is to read: block `k` of the file, and whether `syncing` is up at the `k`-th call. -/
structure Disk where
  block : Nat → Option Bytes
  syncing : Nat → Bool

def EBUSY : Int := 16

/-- The loop of `readi`: what has been read and the buffer. -/
def readiLoop (d : Disk) (off n tot : Nat) (dst : Bytes) : Nat × Bytes :=
  if tot < n then
    match d.block (off / BLKSIZE) with
    | none => (tot, dst)
    | some bData =>
      let m := min (n - tot) (BLKSIZE - off % BLKSIZE)
      readiLoop d (off + m) n (tot + m) (splice dst tot m fun k => bData (off % BLKSIZE + k))
  else (tot, dst)
termination_by n - tot
decreasing_by
  have hmod : off % BLKSIZE < BLKSIZE := Nat.mod_lt off (by decide)
  omega

/-- The source's `readi` into a kernel buffer; `no` counts the calls. -/
def readi (iSize : Nat) (d : Disk) (no : Nat) (dst : Bytes) (off n : Nat) : Int × Bytes :=
  if d.syncing no then (-EBUSY, dst)
  else if off > iSize ∨ (off + n) % ADDRS < off then (0, dst)
  else
    let n := if off + n > iSize then iSize - off else n
    let (tot, dst) := readiLoop d off n 0 dst
    (tot, dst)

/-! ## Headers -/

/-- The C type `struct Elf64_Ehdr_t`, as far as it is read. -/
structure Ehdr where
  magic : List Nat
  eiClass : Nat
  eiData : Nat
  eiVersion : Nat
  eType : Nat
  eMachine : Nat
  eVersion : Nat
  eEntry : Nat
  ePhoff : Nat
  ePhentsize : Nat
  ePhnum : Nat
  deriving DecidableEq

abbrev EHDR_SIZE : Nat := 64

abbrev PHDR_SIZE : Nat := 56

def ehdr (b : Bytes) : Ehdr where
  magic := [getLE b 0 1, getLE b 1 1, getLE b 2 1, getLE b 3 1]
  eiClass := getLE b 4 1
  eiData := getLE b 5 1
  eiVersion := getLE b 6 1
  eType := getLE b 16 2
  eMachine := getLE b 18 2
  eVersion := getLE b 20 4
  eEntry := getLE b 24 8
  ePhoff := getLE b 32 8
  ePhentsize := getLE b 54 2
  ePhnum := getLE b 56 2

def phdr (b : Bytes) : Phdr where
  pType := getLE b 0 4
  pFlags := BitVec.ofNat 32 (getLE b 4 4)
  pOffset := getLE b 8 8
  pVaddr := getLE b 16 8
  pFilesz := getLE b 32 8
  pMemsz := getLE b 40 8
  pAlign := getLE b 48 8

/-- The characters of `ELFMAGIC`. -/
def ELFMAGIC : List Nat := [0x7f, 0x45, 0x4c, 0x46]

def ELFCLASS64 : Nat := 2
def ELFDATA2LSB : Nat := 1
def EV_CURRENT : Nat := 1
def ET_EXEC : Nat := 2
def EM_RISCV : Nat := 243

/-- The source's `elf_validate`. -/
def elfValidate (h : Ehdr) : Int :=
  if h.magic ≠ ELFMAGIC then -1
  else if h.eiClass ≠ ELFCLASS64 then -1
  else if h.eiData ≠ ELFDATA2LSB then -1
  else if h.eiVersion ≠ EV_CURRENT then -1
  else if h.eType ≠ ET_EXEC then -1
  else if h.eMachine ≠ EM_RISCV then -1
  else if h.eVersion ≠ EV_CURRENT then -1
  else if h.ePhentsize ≠ PHDR_SIZE then -1
  else 0

/-! ## The loader -/

/-- The new address space, the inode table, and whether the caller holds `i_mtx` of the file. -/
structure Loader where
  mm : Mm
  inodes : InodeTable
  locked : Bool

/-- The source's `ilock`, once the mutex is free. -/
def ilock (k : Loader) (ip : Slot) : Except Fault Loader :=
  match Inode.ilock k.inodes ip with
  | some t => .ok { k with inodes := t, locked := true }
  | none => .error .check

/-- The source's `iunlock`. -/
def iunlock (k : Loader) (ip : Slot) : Except Fault Loader :=
  match Inode.iunlock k.inodes ip with
  | some t => if k.locked then .ok { k with inodes := t, locked := false } else .error .check
  | none => .error .check

/-- The source's `idup`, on the file or on `NULL`. -/
def idup (t : InodeTable) : Option Slot → Except Fault InodeTable
  | none => .ok t
  | some ip =>
    match Inode.idup t ip with
    | some t => .ok t
    | none => .error .check

/-- The source's `add_vm_area`; `new_vmarea_struct` takes the reference. -/
def addVmArea (k : Loader) (vaStart vaEnd : Nat) (flags : Vm.Perm) (pgoff : Nat)
    (inode : Option Slot) (filesz : Nat) : Except Fault Loader := do
  let mm ← Vm.addVmArea k.mm ⟨vaStart, vaEnd, flags, filesz, pgoff, inode.map (·.val)⟩
  let t ← idup k.inodes inode
  return { k with mm := mm, inodes := t }

/-- The source's `pre_load_segment`. -/
def preLoadSegment (k : Loader) (ip : Slot) (h : Phdr) : Except Fault Loader :=
  if h.pAlign = PGSIZE ∧ h.pVaddr % PGSIZE = 0 then
    addVmArea k h.pVaddr (segmentEnd h) (segmentPerm h.pFlags) h.pOffset (some ip) h.pFilesz
  else .error .check

/-- The loop of `load_elf`, for `n` more headers from number `i` on; `buf` is `prgm_header`.  The
    answer contains it unless a reading was cut short. -/
def loadHeaders (d : Disk) (ip : Slot) (ePhoff : Nat) :
    Nat → Nat → Bytes → Loader → Except Fault (Loader × Option Bytes)
  | 0, _, buf, k => .ok (k, some buf)
  | n + 1, i, buf, k =>
    let (res, buf) := readi (k.inodes.mInodes ip).dInodeCtnt.iSize d (i + 1) buf
      ((ePhoff + i * PHDR_SIZE) % ADDRS) PHDR_SIZE
    if res ≠ PHDR_SIZE then .ok (k, none)
    else if (phdr buf).pType = PT_LOAD then do
      let k ← preLoadSegment k ip (phdr buf)
      loadHeaders d ip ePhoff n (i + 1) buf k
    else loadHeaders d ip ePhoff n (i + 1) buf k

/-- The value -1 of a `uint64_t`. -/
def FAILED : Nat := ADDRS - 1

/-- The label `ret` of `load_elf`. -/
def ret (k : Loader) (ip : Slot) (res : Nat) : Except Fault (Loader × Nat) := do
  let k ← iunlock k ip
  return (k, res)

/-- The rest of `load_elf`: the heap behind the last header, unless a header was cut short.  The
    entry passes through a signed 32-bit variable. -/
def setHeap (ip : Slot) (eEntry : Nat) (k : Loader) : Option Bytes → Except Fault (Loader × Nat)
  | none => ret k ip FAILED
  | some last => do
    let brk := segmentEnd (phdr last)
    let mm := { k.mm with startBrk := brk, brk := brk }
    let k ← addVmArea { k with mm := mm } brk brk (PTE_R ||| PTE_W ||| PTE_U) 0 none 0
    ret k ip (signExtend eEntry)

/-- The source's `load_elf`; `stale` is what its variables contain at first. -/
def loadElf (d : Disk) (stale : Bytes) (k : Loader) (ip : Slot) : Except Fault (Loader × Nat) := do
  let k ← ilock k ip
  let (res, buf) := readi (k.inodes.mInodes ip).dInodeCtnt.iSize d 0 stale 0 EHDR_SIZE
  if res ≠ EHDR_SIZE then ret k ip FAILED
  else if elfValidate (ehdr buf) ≠ 0 then ret k ip FAILED
  else
    let e := ehdr buf
    let (k, last) ← loadHeaders d ip e.ePhoff e.ePhnum 0 stale k
    setHeap ip e.eEntry k last

/-! ## What is read -/

/-- A byte of the file. -/
def byteAt (d : Disk) (a : Nat) : UInt8 :=
  match d.block (a / BLKSIZE) with
  | some bData => bData (a % BLKSIZE)
  | none => 0

/-- The `no`-th call of `readi` delivers all of the `n` bytes at `off`. -/
def Readable (iSize : Nat) (d : Disk) (no off n : Nat) : Prop :=
  d.syncing no = false ∧ off + n < ADDRS ∧ off + n ≤ iSize ∧
    ∀ j < n, (d.block ((off + j) / BLKSIZE)).isSome

instance (iSize : Nat) (d : Disk) (no off n : Nat) : Decidable (Readable iSize d no off n) :=
  inferInstanceAs (Decidable (_ ∧ _ ∧ _ ∧ _))

variable {d : Disk} {size no off n tot i : Nat} {dst buf stale : Bytes}

/-- Bytes of one block. -/
theorem block_of_lt {j : Nat} (hj : j < BLKSIZE - off % BLKSIZE) :
    (off + j) / BLKSIZE = off / BLKSIZE ∧ (off + j) % BLKSIZE = off % BLKSIZE + j := by
  simp only [BLKSIZE] at hj ⊢
  omega

theorem readiLoop_spec (d : Disk) (off n tot : Nat) (dst : Bytes) (htot : tot ≤ n) :
    ((readiLoop d off n tot dst).1 = n ↔ ∀ j < n - tot, (d.block ((off + j) / BLKSIZE)).isSome) ∧
      ((readiLoop d off n tot dst).1 = n → ∀ j < n, (readiLoop d off n tot dst).2 j
        = if j < tot then dst j else byteAt d (off + (j - tot))) ∧
      (readiLoop d off n tot dst).1 ≤ n := by
  fun_induction readiLoop d off n tot dst with
  | case1 off tot dst hlt hblock =>
    refine ⟨⟨fun h => by omega, fun h => ?_⟩, fun h => by omega, htot⟩
    have hfirst := h 0 (by omega)
    rw [Nat.add_zero, hblock] at hfirst
    cases hfirst
  | case2 off tot dst hlt bData hblock m ih =>
    have hm : m = min (n - tot) (BLKSIZE - off % BLKSIZE) := rfl
    rcases ih (by omega) with ⟨hiff, hbytes, hle⟩
    refine ⟨hiff.trans ⟨fun h j hj => ?_, fun h j hj => ?_⟩, fun h j hj => ?_, hle⟩
    · by_cases hchunk : j < m
      · rw [(block_of_lt (by omega)).1, hblock]
        rfl
      · have hnext := h (j - m) (by omega)
        have hoff : off + m + (j - m) = off + j := by omega
        rwa [hoff] at hnext
    · rw [Nat.add_assoc]
      exact h (m + j) (by omega)
    · rw [hbytes h j hj]
      by_cases hold : j < tot
      · rw [if_pos hold, if_pos (by omega), splice_of_not_mem (by omega)]
      · rw [if_neg hold]
        by_cases hchunk : j < tot + m
        · have hin : j - tot < BLKSIZE - off % BLKSIZE := by omega
          have hblk := block_of_lt hin
          rw [if_pos hchunk, splice_of_mem (by omega) hchunk, byteAt, hblk.1, hblk.2, hblock]
        · have hoff : off + m + (j - (tot + m)) = off + (j - tot) := by omega
          rw [if_neg hchunk, hoff]
  | case3 off tot dst hge =>
    have heq : tot = n := by omega
    refine ⟨⟨fun _ j hj => by omega, fun _ => heq⟩, fun _ j hj => ?_, htot⟩
    rw [if_pos (by omega)]

/-- All of it is read if and only if all of it is there. -/
theorem readi_iff (hn : 0 < n) (hoff : off < ADDRS) (hwidth : n < ADDRS) :
    (readi size d no dst off n).1 = n ↔ Readable size d no off n := by
  unfold readi Readable
  have haddrs : ADDRS = 18446744073709551616 := by decide
  rw [haddrs] at hoff hwidth ⊢
  cases hsync : d.syncing no with
  | true =>
    constructor
    · intro h
      simp only [EBUSY, if_true] at h
      omega
    · intro h
      exact nomatch h.1
  | false =>
    simp only [Bool.false_eq_true, if_false, true_and]
    split
    case isTrue hout =>
      constructor
      · intro h
        omega
      · rintro ⟨hlt, hle, -⟩
        omega
    case isFalse hin =>
      simp only [not_or, not_lt] at hin
      have hlt : off + n < 18446744073709551616 := by omega
      by_cases hcut : off + n > size
      · have hspec := readiLoop_spec d off (size - off) 0 dst (Nat.zero_le _)
        simp only [if_pos hcut]
        constructor
        · intro h
          have hle := hspec.2.2
          omega
        · rintro ⟨-, hle, -⟩
          omega
      · have hspec := readiLoop_spec d off n 0 dst (Nat.zero_le _)
        simp only [if_neg hcut]
        rw [Int.natCast_inj, hspec.1, Nat.sub_zero]
        constructor
        · intro h
          exact ⟨hlt, by omega, h⟩
        · intro h
          exact h.2.2

/-- And then the buffer begins with it. -/
theorem readi_bytes (h : Readable size d no off n) :
    ∀ j < n, (readi size d no dst off n).2 j = byteAt d (off + j) := by
  rcases h with ⟨hsync, hlt, hle, hblocks⟩
  have hin : ¬ (off > size ∨ (off + n) % ADDRS < off) := by
    rw [Nat.mod_eq_of_lt hlt]
    omega
  have hspec := readiLoop_spec d off n 0 dst (Nat.zero_le _)
  have hnotsync : ¬ d.syncing no = true := by
    rw [hsync]
    exact Bool.false_ne_true
  intro j hj
  unfold readi
  rw [if_neg hnotsync, if_neg hin, if_neg (by omega)]
  have hbyte := hspec.2.1 (hspec.1.mpr hblocks) j hj
  rw [if_neg (Nat.not_lt_zero j), Nat.sub_zero] at hbyte
  exact hbyte

theorem ehdr_congr {b b' : Bytes} (h : ∀ j < EHDR_SIZE, b j = b' j) : ehdr b = ehdr b' := by
  have hfield : ∀ p w, p + w ≤ EHDR_SIZE → getLE b p w = getLE b' p w := by
    intro p w hle
    exact getLE_congr fun k hk => h (p + k) (by omega)
  unfold ehdr
  rw [hfield 0 1, hfield 1 1, hfield 2 1, hfield 3 1, hfield 4 1, hfield 5 1, hfield 6 1,
    hfield 16 2, hfield 18 2, hfield 20 4, hfield 24 8, hfield 32 8, hfield 54 2, hfield 56 2]
  all_goals decide

theorem phdr_congr {b b' : Bytes} (h : ∀ j < PHDR_SIZE, b j = b' j) : phdr b = phdr b' := by
  have hfield : ∀ p w, p + w ≤ PHDR_SIZE → getLE b p w = getLE b' p w := by
    intro p w hle
    exact getLE_congr fun k hk => h (p + k) (by omega)
  unfold phdr
  rw [hfield 0 4, hfield 4 4, hfield 8 8, hfield 16 8, hfield 32 8, hfield 40 8, hfield 48 8]
  all_goals decide

/-! ## The headers of a file -/

/-- The program header number `i`, if all of it is there. -/
def header (iSize : Nat) (d : Disk) (ePhoff i : Nat) : Option Phdr :=
  let off := (ePhoff + i * PHDR_SIZE) % ADDRS
  if Readable iSize d (i + 1) off PHDR_SIZE then some (phdr fun j => byteAt d (off + j)) else none

def headers (iSize : Nat) (d : Disk) (ePhoff i n : Nat) : List (Option Phdr) :=
  (List.range' i n).map (header iSize d ePhoff)

theorem headers_succ (iSize : Nat) (d : Disk) (ePhoff i n : Nat) :
    headers iSize d ePhoff i (n + 1)
      = header iSize d ePhoff i :: headers iSize d ePhoff (i + 1) n := rfl

/-- The segments in front of the first header that is cut short. -/
def segments : List (Option Phdr) → List Phdr
  | [] => []
  | none :: _ => []
  | some h :: rest => if h.pType = PT_LOAD then h :: segments rest else segments rest

/-- No header is cut short. -/
def complete (hs : List (Option Phdr)) : Bool := hs.all (·.isSome)

def segmentArea (ip : Slot) (h : Phdr) : Vma :=
  ⟨h.pVaddr, segmentEnd h, segmentPerm h.pFlags, h.pFilesz, h.pOffset, some ip.val⟩

/-- The area of the heap, which begins where the last header ends. -/
def heapArea (last : Phdr) : Vma :=
  ⟨segmentEnd last, segmentEnd last, PTE_R ||| PTE_W ||| PTE_U, 0, 0, none⟩

/-- The areas that the headers ask for, in their order. -/
def areas (ip : Slot) (hs : List (Option Phdr)) (last : Phdr) : List Vma :=
  (segments hs).map (segmentArea ip)
    ++ if complete hs then [heapArea (Vm.lastHeader hs last)] else []

/-! ## Adding a segment -/

variable {k k' : Loader} {ip : Slot} {h : Phdr}

def Loader.iCount (k : Loader) (ip : Slot) : Nat := (k.inodes.mInodes ip).iCount

def Loader.iSize (k : Loader) (ip : Slot) : Nat := (k.inodes.mInodes ip).dInodeCtnt.iSize

theorem insertArea_eq (new : Vma) (l : List Vma) :
    insertArea new l = if Clear Vma.vmStart Vma.vmEnd new l
      then .ok (place Vma.vmStart Vma.vmEnd new l) else .error .check := by
  induction l with
  | nil => rfl
  | cons v rest ih =>
    rw [insertArea, place, ih]
    by_cases hbefore : new.vmEnd ≤ v.vmStart
    · have hpass : Clear Vma.vmStart Vma.vmEnd new (v :: rest) := .inl hbefore
      rw [if_pos (.inl hbefore), if_pos hbefore, if_pos hpass, if_pos hbefore]
    · rw [if_neg hbefore, if_neg (show ¬ v.vmStart ≥ new.vmEnd from hbefore)]
      by_cases hbehind : v.vmEnd ≤ new.vmStart
      · rw [if_pos (.inr hbehind)]
        by_cases hclear : Clear Vma.vmStart Vma.vmEnd new rest
        · have hpass : Clear Vma.vmStart Vma.vmEnd new (v :: rest) := .inr ⟨hbehind, hclear⟩
          rw [if_pos hclear, if_pos hpass]
          rfl
        · have hstuck : ¬ Clear Vma.vmStart Vma.vmEnd new (v :: rest) :=
            not_or.mpr ⟨hbefore, fun hboth => hclear hboth.2⟩
          rw [if_neg hclear, if_neg hstuck]
          rfl
      · have hstuck : ¬ Clear Vma.vmStart Vma.vmEnd new (v :: rest) :=
          not_or.mpr ⟨hbefore, fun hboth => hbehind hboth.1⟩
        rw [if_neg (not_or.mpr ⟨hbefore, hbehind⟩), if_neg hstuck]

/-- The address space with one more area. -/
def placed (mm : Mm) (vma : Vma) : Mm :=
  { mm with areas := place Vma.vmStart Vma.vmEnd vma mm.areas, mapCount := mm.mapCount + 1 }

theorem vmAddVmArea_eq (mm : Mm) {vma : Vma} (hstart : vma.vmStart % PGSIZE = 0)
    (hend : vma.vmEnd % PGSIZE = 0) :
    Vm.addVmArea mm vma = if Clear Vma.vmStart Vma.vmEnd vma mm.areas
      then .ok (placed mm vma) else .error .check := by
  rw [Vm.addVmArea, if_pos ⟨hstart, hend⟩, insertArea_eq]
  split <;> rfl

/-- What `pre_load_segment` asserts of a header. -/
def Aligned (h : Phdr) : Prop := h.pAlign = PGSIZE ∧ h.pVaddr % PGSIZE = 0

instance (h : Phdr) : Decidable (Aligned h) := inferInstanceAs (Decidable (_ ∧ _))

/-- The loader with one more segment. -/
def Loader.load (k : Loader) (ip : Slot) (h : Phdr) : Loader :=
  let m := k.inodes.mInodes ip
  { k with mm := placed k.mm (segmentArea ip h)
           inodes := k.inodes.set ip { m with iCount := Inode.u16 (m.iCount + 1) } }

/-- Everything that is asserted while a segment is added. -/
def Loads (k : Loader) (ip : Slot) (h : Phdr) : Prop :=
  Aligned h ∧ Clear Vma.vmStart Vma.vmEnd (segmentArea ip h) k.mm.areas ∧ 1 ≤ k.iCount ip

instance (k : Loader) (ip : Slot) (h : Phdr) : Decidable (Loads k ip h) :=
  inferInstanceAs (Decidable (_ ∧ _ ∧ _))

theorem preLoadSegment_eq (k : Loader) (ip : Slot) (h : Phdr) :
    preLoadSegment k ip h = if Loads k ip h then .ok (k.load ip h) else .error .check := by
  unfold preLoadSegment
  by_cases hal : h.pAlign = PGSIZE ∧ h.pVaddr % PGSIZE = 0
  · have hstart : (segmentArea ip h).vmStart % PGSIZE = 0 := hal.2
    have hadd := vmAddVmArea_eq k.mm hstart (Vm.segmentEnd_aligned h)
    have harea : (⟨h.pVaddr, segmentEnd h, segmentPerm h.pFlags, h.pFilesz, h.pOffset,
      (some ip).map (·.val)⟩ : Vma) = segmentArea ip h := rfl
    rw [if_pos hal, addVmArea, harea, hadd]
    by_cases hclear : Clear Vma.vmStart Vma.vmEnd (segmentArea ip h) k.mm.areas
    · rw [if_pos hclear, ok_bind, idup, Inode.idup]
      by_cases hcount : (k.inodes.mInodes ip).iCount ≥ 1
      · have hloads : Loads k ip h := ⟨hal, hclear, hcount⟩
        rw [if_pos hloads, if_pos hcount]
        rfl
      · have hnot : ¬ Loads k ip h := fun hloads => hcount hloads.2.2
        rw [if_neg hnot, if_neg hcount]
        rfl
    · have hnot : ¬ Loads k ip h := fun hloads => hclear hloads.2.1
      rw [if_neg hclear, if_neg hnot]
      rfl
  · have hnot : ¬ Loads k ip h := fun hloads => hal hloads.1
    rw [if_neg hal, if_neg hnot]

@[simp] theorem load_areas (k : Loader) (ip : Slot) (h : Phdr) : (k.load ip h).mm.areas
    = place Vma.vmStart Vma.vmEnd (segmentArea ip h) k.mm.areas := rfl

@[simp] theorem load_locked (k : Loader) (ip : Slot) (h : Phdr) :
    (k.load ip h).locked = k.locked := rfl

@[simp] theorem load_iCount (k : Loader) (ip : Slot) (h : Phdr) :
    (k.load ip h).iCount ip = Inode.u16 (k.iCount ip + 1) := by
  unfold Loader.iCount Loader.load
  rw [InodeTable.set_self]

@[simp] theorem load_iSize (k : Loader) (ip : Slot) (h : Phdr) :
    (k.load ip h).iSize ip = k.iSize ip := by
  unfold Loader.iSize Loader.load
  rw [InodeTable.set_self]

/-! ## Adding all of them -/

/-- The loader with more segments. -/
def Loader.loadAll (k : Loader) (ip : Slot) (hs : List Phdr) : Loader :=
  hs.foldl (fun k h => k.load ip h) k

/-- One segment after the other can be added. -/
def LoadsAll (ip : Slot) : Loader → List Phdr → Prop
  | _, [] => True
  | k, h :: rest => Loads k ip h ∧ LoadsAll ip (k.load ip h) rest

theorem loadAll_cons (k : Loader) (ip : Slot) (h : Phdr) (rest : List Phdr) :
    k.loadAll ip (h :: rest) = (k.load ip h).loadAll ip rest := rfl

theorem loadAll_areas (k : Loader) (ip : Slot) (hs : List Phdr) : (k.loadAll ip hs).mm.areas
    = placeAll Vma.vmStart Vma.vmEnd k.mm.areas (hs.map (segmentArea ip)) := by
  induction hs generalizing k with
  | nil => rfl
  | cons h rest ih =>
    rw [loadAll_cons, ih, load_areas]
    rfl

theorem loadAll_locked (k : Loader) (ip : Slot) (hs : List Phdr) :
    (k.loadAll ip hs).locked = k.locked := by
  induction hs generalizing k with
  | nil => rfl
  | cons h rest ih => rw [loadAll_cons, ih, load_locked]

/-- When all of them can be added, and the file has a reference after that. -/
theorem loadsAll_iff {hs : List Phdr} (hwidth : k.iCount ip < 65536) :
    LoadsAll ip k hs ∧ 1 ≤ (k.loadAll ip hs).iCount ip ↔
      (∀ h ∈ hs, Aligned h) ∧
        Clashfree Vma.vmStart Vma.vmEnd k.mm.areas (hs.map (segmentArea ip)) ∧
        1 ≤ k.iCount ip ∧ k.iCount ip + hs.length < 65536 := by
  induction hs generalizing k with
  | nil =>
    constructor
    · rintro ⟨-, hcount⟩
      exact ⟨nofun, trivial, hcount, hwidth⟩
    · rintro ⟨-, -, hcount, -⟩
      exact ⟨trivial, hcount⟩
  | cons h rest ih =>
    have hnext : (k.load ip h).iCount ip = (k.iCount ip + 1) % 65536 := load_iCount k ip h
    have hlt : (k.load ip h).iCount ip < 65536 := by
      rw [hnext]
      exact Nat.mod_lt _ (by decide)
    rw [LoadsAll, loadAll_cons, and_assoc, ih hlt, hnext, load_areas, List.map_cons, Clashfree,
      List.length_cons, List.forall_mem_cons]
    constructor
    · rintro ⟨⟨hal, hclear, hcount⟩, hrest, hclash, hone, hfew⟩
      exact ⟨⟨hal, hrest⟩, ⟨hclear, hclash⟩, hcount, by omega⟩
    · rintro ⟨⟨hal, hrest⟩, ⟨hclear, hclash⟩, hcount, hfew⟩
      exact ⟨⟨hal, hclear, hcount⟩, hrest, hclash, by omega, by omega⟩

/-- The loop of `load_elf` adds the segments, or stops at an assertion. -/
theorem loadHeaders_spec (d : Disk) (ip : Slot) (ePhoff n i : Nat) (buf : Bytes) (k : Loader) :
    let hs := headers (k.iSize ip) d ePhoff i n
    (¬ LoadsAll ip k (segments hs) → loadHeaders d ip ePhoff n i buf k = .error .check) ∧
      (LoadsAll ip k (segments hs) → ∃ last,
        loadHeaders d ip ePhoff n i buf k = .ok (k.loadAll ip (segments hs), last) ∧
          last.map phdr
            = if complete hs then some (Vm.lastHeader hs (phdr buf)) else none) := by
  induction n generalizing i buf k with
  | zero => exact ⟨fun hnot => absurd trivial hnot, fun _ => ⟨some buf, rfl, rfl⟩⟩
  | succ n ih =>
    rw [headers_succ, loadHeaders]
    have hoff : (ePhoff + i * PHDR_SIZE) % ADDRS < ADDRS := Nat.mod_lt _ (by decide)
    generalize hat : (ePhoff + i * PHDR_SIZE) % ADDRS = off at hoff
    have hread : (readi (k.iSize ip) d (i + 1) buf off PHDR_SIZE).1 = PHDR_SIZE
        ↔ Readable (k.iSize ip) d (i + 1) off PHDR_SIZE := readi_iff (by decide) hoff (by decide)
    have hheader : header (k.iSize ip) d ePhoff i
        = if Readable (k.iSize ip) d (i + 1) off PHDR_SIZE
          then some (phdr fun j => byteAt d (off + j)) else none := by
      rw [header, hat]
    by_cases hr : Readable (k.iSize ip) d (i + 1) off PHDR_SIZE
    · have hbuf : phdr (readi (k.iSize ip) d (i + 1) buf off PHDR_SIZE).2
          = phdr fun j => byteAt d (off + j) := phdr_congr (readi_bytes hr)
      rw [if_pos hr] at hheader
      rw [hheader]
      dsimp only
      generalize hres : readi (k.inodes.mInodes ip).dInodeCtnt.iSize d (i + 1) buf off PHDR_SIZE = r
      have hres' : readi (k.iSize ip) d (i + 1) buf off PHDR_SIZE = r := hres
      rw [hres'] at hread hbuf
      rw [if_neg (not_not.mpr (hread.mpr hr)), segments, ← hbuf]
      by_cases hload : (phdr r.2).pType = PT_LOAD
      · rw [if_pos hload, if_pos hload, preLoadSegment_eq]
        have hnext := ih (i + 1) r.2 (k.load ip (phdr r.2))
        rw [load_iSize] at hnext
        rcases hnext with ⟨hfail, hok⟩
        by_cases hloads : Loads k ip (phdr r.2)
        · rw [if_pos hloads, ok_bind]
          exact ⟨fun hnot => hfail fun hall => hnot ⟨hloads, hall⟩, fun hall => hok hall.2⟩
        · rw [if_neg hloads]
          exact ⟨fun _ => rfl, fun hall => absurd hall.1 hloads⟩
      · rw [if_neg hload, if_neg hload]
        exact ih (i + 1) r.2 k
    · rw [if_neg hr] at hheader
      rw [hheader]
      dsimp only
      have hshort : ¬ (readi (k.iSize ip) d (i + 1) buf off PHDR_SIZE).1 = PHDR_SIZE :=
        fun heq => hr (hread.mp heq)
      have hshort' : (readi (k.inodes.mInodes ip).dInodeCtnt.iSize d (i + 1) buf off PHDR_SIZE).1
        ≠ PHDR_SIZE := hshort
      rw [if_pos hshort']
      exact ⟨fun hnot => absurd trivial hnot, fun _ => ⟨none, rfl, rfl⟩⟩

/-! ## What is asked of a file -/

/-- The `i_size` that `ilock` leaves in the slot. -/
def fileSize (t : InodeTable) (ip : Slot) : Nat :=
  let m := t.mInodes ip
  if m.iValid then m.dInodeCtnt.iSize else (t.diskInode m.iDev m.iNo).iSize

def fileEhdr (d : Disk) : Ehdr := ehdr fun j => byteAt d (0 + j)

def fileHeaders (size : Nat) (d : Disk) : List (Option Phdr) :=
  headers size d (fileEhdr d).ePhoff 0 (fileEhdr d).ePhnum

/-- The file header is there and is that of an executable. -/
def Accepted (size : Nat) (d : Disk) : Prop :=
  Readable size d 0 0 EHDR_SIZE ∧ elfValidate (fileEhdr d) = 0

instance (size : Nat) (d : Disk) : Decidable (Accepted size d) :=
  inferInstanceAs (Decidable (_ ∧ _))

/-- Where the area of the user stack begins. -/
def USER_STACK_BOTTOM : Nat := USER_STACK_TOP - MAXSTACK * PGSIZE

/-- What the program headers of an executable have to be, `count` being the references to the file:
    the segments fit the assertions on the way, one by one and in what order they stand; they leave
    room in the count; and if the answer is going to be an entry, no area wraps around or reaches
    the user stack. -/
structure Loadable (ip : Slot) (count size : Nat) (d : Disk) (stale : Bytes) : Prop where
  aligned : ∀ h ∈ segments (fileHeaders size d), Aligned h
  few : count + (segments (fileHeaders size d)).length < 65536
  clashfree : Clashfree Vma.vmStart Vma.vmEnd [] (areas ip (fileHeaders size d) (phdr stale))
  inside : complete (fileHeaders size d) → signExtend (fileEhdr d).eEntry ≠ FAILED →
    ∀ vma ∈ areas ip (fileHeaders size d) (phdr stale),
      vma.vmStart ≤ vma.vmEnd ∧ vma.vmEnd ≤ USER_STACK_BOTTOM

/-- What the areas of a new address space have to be. -/
structure Tidy (l : List Vma) : Prop where
  aligned : ∀ vma ∈ l, vma.vmStart % PGSIZE = 0 ∧ vma.vmEnd % PGSIZE = 0
  inside : ∀ vma ∈ l, vma.vmStart ≤ vma.vmEnd ∧ vma.vmEnd ≤ USER_STACK_BOTTOM
  apart : l.Pairwise (Apart Vma.vmStart Vma.vmEnd)

/-- No assertion fails, the lock is released, and the answer is -1 unless the areas are right. -/
def Returns (x : Except Fault (Loader × Nat)) : Prop :=
  ∃ k res, x = .ok (k, res) ∧ k.locked = false ∧ (res = FAILED ∨ Tidy k.mm.areas)

/-! ## How a run finishes -/

theorem not_returns_error (e : Fault) : ¬ Returns (.error e) := by
  rintro ⟨k, res, heq, -⟩
  cases heq

theorem returns_ret (hlocked : k.locked = true) (res : Nat) :
    Returns (ret k ip res) ↔ 1 ≤ k.iCount ip ∧ (res = FAILED ∨ Tidy k.mm.areas) := by
  unfold ret iunlock Inode.iunlock
  by_cases hcount : (k.inodes.mInodes ip).iCount ≥ 1
  · rw [if_pos hcount]
    dsimp only
    rw [if_pos hlocked, ok_bind]
    constructor
    · rintro ⟨k', res', heq, -, hres⟩
      cases heq
      exact ⟨hcount, hres⟩
    · rintro ⟨-, hres⟩
      exact ⟨_, _, rfl, rfl, hres⟩
  · rw [if_neg hcount]
    constructor
    · intro h
      exact absurd h (not_returns_error _)
    · intro h
      exact absurd h.1 hcount

theorem ilock_spec (hcount : 1 ≤ k.iCount ip) :
    ∃ k', ilock k ip = .ok k' ∧ k'.mm = k.mm ∧ k'.locked = true ∧ k'.iCount ip = k.iCount ip ∧
      k'.iSize ip = fileSize k.inodes ip := by
  have hcount' : (k.inodes.mInodes ip).iCount ≥ 1 := hcount
  unfold ilock Inode.ilock fileSize
  rw [if_pos hcount']
  by_cases hvalid : (k.inodes.mInodes ip).iValid = true
  · rw [if_pos hvalid]
    exact ⟨_, rfl, rfl, rfl, rfl, (if_pos hvalid).symm⟩
  · rw [if_neg hvalid]
    refine ⟨_, rfl, rfl, rfl, ?_, ?_⟩
    · unfold Loader.iCount
      rw [InodeTable.set_self]
    · unfold Loader.iSize
      rw [InodeTable.set_self]
      exact (if_neg hvalid).symm

/-- The loader with the heap. -/
def Loader.addHeap (k : Loader) (last : Phdr) : Loader :=
  let mm := { k.mm with startBrk := segmentEnd last, brk := segmentEnd last }
  { k with mm := placed mm (heapArea last) }

theorem setHeap_eq (ip : Slot) (eEntry : Nat) (k : Loader) (last : Bytes) :
    setHeap ip eEntry k (some last)
      = if Clear Vma.vmStart Vma.vmEnd (heapArea (phdr last)) k.mm.areas
        then ret (k.addHeap (phdr last)) ip (signExtend eEntry) else .error .check := by
  have hal := Vm.segmentEnd_aligned (phdr last)
  have hstart : (heapArea (phdr last)).vmStart % PGSIZE = 0 := hal
  have hadd := vmAddVmArea_eq
    { k.mm with startBrk := segmentEnd (phdr last), brk := segmentEnd (phdr last) } hstart hal
  have harea : (⟨segmentEnd (phdr last), segmentEnd (phdr last), PTE_R ||| PTE_W ||| PTE_U, 0, 0,
    (none : Option Slot).map (·.val)⟩ : Vma) = heapArea (phdr last) := rfl
  unfold setHeap addVmArea
  dsimp only
  rw [harea, hadd]
  dsimp only
  by_cases hclear : Clear Vma.vmStart Vma.vmEnd (heapArea (phdr last)) k.mm.areas
  · rw [if_pos hclear, if_pos hclear]
    rfl
  · rw [if_neg hclear, if_neg hclear]
    rfl

theorem returns_setHeap {eEntry : Nat} {last : Bytes} (hlocked : k.locked = true) :
    Returns (setHeap ip eEntry k (some last)) ↔
      Clear Vma.vmStart Vma.vmEnd (heapArea (phdr last)) k.mm.areas ∧ 1 ≤ k.iCount ip ∧
        (signExtend eEntry = FAILED ∨
          Tidy (place Vma.vmStart Vma.vmEnd (heapArea (phdr last)) k.mm.areas)) := by
  rw [setHeap_eq]
  by_cases hclear : Clear Vma.vmStart Vma.vmEnd (heapArea (phdr last)) k.mm.areas
  · rw [if_pos hclear]
    have hlocked' : (k.addHeap (phdr last)).locked = true := hlocked
    exact (returns_ret hlocked' (signExtend eEntry)).trans ⟨fun h => ⟨hclear, h⟩, fun h => h.2⟩
  · rw [if_neg hclear]
    constructor
    · intro h
      exact absurd h (not_returns_error _)
    · intro h
      exact absurd h.1 hclear

theorem areas_aligned {hs : List (Option Phdr)} {last : Phdr} (h : ∀ h ∈ segments hs, Aligned h) :
    ∀ vma ∈ areas ip hs last, vma.vmStart % PGSIZE = 0 ∧ vma.vmEnd % PGSIZE = 0 := by
  intro vma hmem
  unfold areas at hmem
  rcases List.mem_append.mp hmem with hseg | hheap
  · rcases List.mem_map.mp hseg with ⟨h', hmem', rfl⟩
    exact ⟨(h h' hmem').2, Vm.segmentEnd_aligned h'⟩
  · split at hheap
    · rw [List.mem_singleton.mp hheap]
      exact ⟨Vm.segmentEnd_aligned _, Vm.segmentEnd_aligned _⟩
    · cases hheap

/-- Areas that were added without an assertion are right as soon as none wraps around or reaches
    the user stack. -/
theorem tidy_iff {l : List Vma} (hclash : Clashfree Vma.vmStart Vma.vmEnd [] l)
    (hal : ∀ vma ∈ l, vma.vmStart % PGSIZE = 0 ∧ vma.vmEnd % PGSIZE = 0) :
    Tidy (placeAll Vma.vmStart Vma.vmEnd [] l) ↔
      ∀ vma ∈ l, vma.vmStart ≤ vma.vmEnd ∧ vma.vmEnd ≤ USER_STACK_BOTTOM := by
  have hmem : ∀ vma, vma ∈ placeAll Vma.vmStart Vma.vmEnd [] l ↔ vma ∈ l := by
    intro vma
    rw [(placeAll_perm [] l).mem_iff, List.append_nil]
  constructor
  · intro h vma hvma
    exact h.inside vma ((hmem vma).mpr hvma)
  · intro h
    have hord := placeAll_ordered hclash List.Pairwise.nil nofun fun vma hvma => (h vma hvma).1
    refine ⟨fun vma hvma => ?_, fun vma hvma => ?_, hord.imp Or.inl⟩
    · exact hal vma ((hmem vma).mp hvma)
    · exact h vma ((hmem vma).mp hvma)

/-! ## The whole run -/

/-- A file that is not an executable is refused. -/
theorem loadElf_refused (stale : Bytes) (hcount : 1 ≤ k.iCount ip)
    (hnot : ¬ Accepted (fileSize k.inodes ip) d) :
    ∃ k₁, k₁.locked = true ∧ k₁.iCount ip = k.iCount ip ∧
      loadElf d stale k ip = ret k₁ ip FAILED := by
  rcases ilock_spec hcount with ⟨k₁, hlock, -, hlocked, hcount₁, hsize⟩
  refine ⟨k₁, hlocked, hcount₁, ?_⟩
  have hsize' : (k₁.inodes.mInodes ip).dInodeCtnt.iSize = fileSize k.inodes ip := hsize
  have hread : (readi (fileSize k.inodes ip) d 0 stale 0 EHDR_SIZE).1 = EHDR_SIZE
      ↔ Readable (fileSize k.inodes ip) d 0 0 EHDR_SIZE :=
    readi_iff (by decide) (by decide) (by decide)
  rw [loadElf, hlock, ok_bind]
  dsimp only
  rw [hsize']
  by_cases hr : Readable (fileSize k.inodes ip) d 0 0 EHDR_SIZE
  · have hbuf : ehdr (readi (fileSize k.inodes ip) d 0 stale 0 EHDR_SIZE).2 = fileEhdr d :=
      ehdr_congr (readi_bytes hr)
    rw [if_neg (not_not.mpr (hread.mpr hr)), hbuf, if_pos fun hzero => hnot ⟨hr, hzero⟩]
  · rw [if_pos fun heq => hr (hread.mp heq)]

/-- Of the others the program headers are read. -/
theorem loadElf_accepted (stale : Bytes) (hcount : 1 ≤ k.iCount ip)
    (hacc : Accepted (fileSize k.inodes ip) d) :
    ∃ k₁, k₁.mm = k.mm ∧ k₁.locked = true ∧ k₁.iCount ip = k.iCount ip ∧
      k₁.iSize ip = fileSize k.inodes ip ∧
      loadElf d stale k ip
        = loadHeaders d ip (fileEhdr d).ePhoff (fileEhdr d).ePhnum 0 stale k₁ >>= fun r =>
          setHeap ip (fileEhdr d).eEntry r.1 r.2 := by
  rcases ilock_spec hcount with ⟨k₁, hlock, hmm, hlocked, hcount₁, hsize⟩
  rcases hacc with ⟨hr, hvalid⟩
  refine ⟨k₁, hmm, hlocked, hcount₁, hsize, ?_⟩
  have hsize' : (k₁.inodes.mInodes ip).dInodeCtnt.iSize = fileSize k.inodes ip := hsize
  have hread : (readi (fileSize k.inodes ip) d 0 stale 0 EHDR_SIZE).1 = EHDR_SIZE :=
    (readi_iff (by decide) (by decide) (by decide)).mpr hr
  have hbuf : ehdr (readi (fileSize k.inodes ip) d 0 stale 0 EHDR_SIZE).2 = fileEhdr d :=
    ehdr_congr (readi_bytes hr)
  rw [loadElf, hlock, ok_bind]
  dsimp only
  rw [hsize', if_neg (not_not.mpr hread), hbuf, if_neg (not_not.mpr hvalid)]

/-- They are loaded if and only if their program headers are what is asked of them. -/
theorem returns_iff (hfresh : k.mm.areas = []) (hcount : 1 ≤ k.iCount ip)
    (hwidth : k.iCount ip < 65536) (hacc : Accepted (fileSize k.inodes ip) d) :
    Returns (loadElf d stale k ip) ↔
      Loadable ip (k.iCount ip) (fileSize k.inodes ip) d stale := by
  rcases loadElf_accepted stale hcount hacc with ⟨k₁, hmm, hlocked, hcount₁, hsize, hrun⟩
  have hloop := loadHeaders_spec d ip (fileEhdr d).ePhoff (fileEhdr d).ePhnum 0 stale k₁
  rw [hsize] at hloop
  rw [hrun]
  generalize hhs : headers (fileSize k.inodes ip) d (fileEhdr d).ePhoff 0 (fileEhdr d).ePhnum = hs
    at hloop
  have hfile : fileHeaders (fileSize k.inodes ip) d = hs := hhs
  have hloads : LoadsAll ip k₁ (segments hs) ∧ 1 ≤ (k₁.loadAll ip (segments hs)).iCount ip ↔ _ :=
    loadsAll_iff (by rw [hcount₁]; exact hwidth)
  rw [hcount₁, hmm, hfresh] at hloads
  have hareas : (k₁.loadAll ip (segments hs)).mm.areas
      = placeAll Vma.vmStart Vma.vmEnd [] ((segments hs).map (segmentArea ip)) := by
    rw [loadAll_areas, hmm, hfresh]
  have hlocked' : (k₁.loadAll ip (segments hs)).locked = true := by
    rw [loadAll_locked, hlocked]
  -- a file that is loaded gets through the loop
  have hneeds : Loadable ip (k.iCount ip) (fileSize k.inodes ip) d stale →
      LoadsAll ip k₁ (segments hs) ∧ 1 ≤ (k₁.loadAll ip (segments hs)).iCount ip := by
    rintro ⟨hal, hfew, hclash, -⟩
    rw [hfile] at hal hfew hclash
    exact hloads.mpr ⟨hal, (clashfree_append.mp hclash).1, hcount, hfew⟩
  rcases hloop with ⟨hfail, hok⟩
  by_cases hall : LoadsAll ip k₁ (segments hs)
  · rcases hok hall with ⟨last, hloaded, hlast⟩
    rw [hloaded, ok_bind]
    cases hcomplete : complete hs with
    | false =>
      rw [hcomplete] at hlast
      rcases Option.map_eq_none_iff.mp hlast
      have hnoheap : areas ip hs (phdr stale) = (segments hs).map (segmentArea ip) := by
        rw [areas, hcomplete]
        exact List.append_nil _
      refine (returns_ret hlocked' FAILED).trans ⟨fun h => ?_, fun h => ⟨(hneeds h).2, .inl rfl⟩⟩
      rcases hloads.mp ⟨hall, h.1⟩ with ⟨hal, hclash, -, hfew⟩
      refine ⟨?_, ?_, ?_, ?_⟩ <;> rw [hfile]
      · exact hal
      · exact hfew
      · rw [hnoheap]
        exact hclash
      · rw [hcomplete]
        exact fun hfull => nomatch hfull
    | true =>
      rw [hcomplete] at hlast
      rcases Option.map_eq_some_iff.mp hlast with ⟨buf, rfl, hbuf⟩
      have hheap : areas ip hs (phdr stale)
          = (segments hs).map (segmentArea ip) ++ [heapArea (phdr buf)] := by
        rw [areas, hcomplete, hbuf]
        rfl
      have hplaced : placeAll Vma.vmStart Vma.vmEnd [] (areas ip hs (phdr stale))
          = place Vma.vmStart Vma.vmEnd (heapArea (phdr buf))
            (k₁.loadAll ip (segments hs)).mm.areas := by
        rw [hheap, placeAll_append, hareas]
        rfl
      refine (returns_setHeap hlocked').trans ⟨?_, fun h => ?_⟩
      · rintro ⟨hclear, hone, hres⟩
        rcases hloads.mp ⟨hall, hone⟩ with ⟨hal, hclash, -, hfew⟩
        have hclash' : Clashfree Vma.vmStart Vma.vmEnd [] (areas ip hs (phdr stale)) := by
          rw [hheap]
          exact clashfree_append.mpr ⟨hclash, hareas ▸ hclear, trivial⟩
        refine ⟨?_, ?_, ?_, ?_⟩ <;> rw [hfile]
        · exact hal
        · exact hfew
        · exact hclash'
        · intro _ hentry
          have htidy := hres.resolve_left hentry
          rw [← hplaced] at htidy
          exact (tidy_iff hclash' (areas_aligned hal)).mp htidy
      · have hpass := hneeds h
        rcases h with ⟨hal, -, hclash, hinside⟩
        rw [hfile] at hal hclash hinside
        have hclear : Clear Vma.vmStart Vma.vmEnd (heapArea (phdr buf))
            (k₁.loadAll ip (segments hs)).mm.areas := by
          rw [hheap] at hclash
          rw [hareas]
          exact (clashfree_append.mp hclash).2.1
        refine ⟨hclear, hpass.2, ?_⟩
        by_cases hentry : signExtend (fileEhdr d).eEntry = FAILED
        · exact .inl hentry
        · right
          rw [← hplaced]
          exact (tidy_iff hclash (areas_aligned hal)).mpr (hinside hcomplete hentry)
  · rw [hfail hall]
    constructor
    · intro h
      exact absurd h (not_returns_error _)
    · intro h
      exact absurd (hneeds h).1 hall

/-! ## The address space by itself -/

/-- A file as `Vm.loadElf` sees it. -/
def image (size : Nat) (d : Disk) (ip : Slot) (stale : Bytes) : Vm.Image where
  inode := ip.val
  valid := decide (Accepted size d)
  headers := fileHeaders size d
  stale := phdr stale
  entry := (fileEhdr d).eEntry

theorem vmLoadHeaders_eq (ip : Slot) (hs : List (Option Phdr)) (last : Phdr) (k : Loader)
    (h : LoadsAll ip k (segments hs)) :
    Vm.loadHeaders ip.val hs last k.mm = .ok (if complete hs
      then some ((k.loadAll ip (segments hs)).mm, Vm.lastHeader hs last) else none) := by
  induction hs generalizing k last with
  | nil => rfl
  | cons hdr rest ih =>
    cases hdr with
    | none => rfl
    | some hdr =>
      have hcomplete : complete (some hdr :: rest) = complete rest := rfl
      rw [hcomplete, Vm.lastHeader, Vm.loadHeaders]
      by_cases hload : hdr.pType = PT_LOAD
      · rw [segments, if_pos hload] at h ⊢
        rcases h with ⟨⟨hal, hclear, -⟩, hrest⟩
        have hstart : (segmentArea ip hdr).vmStart % PGSIZE = 0 := hal.2
        have hadd := vmAddVmArea_eq k.mm hstart (Vm.segmentEnd_aligned hdr)
        rw [if_pos hclear] at hadd
        have hpre : Vm.preLoadSegment k.mm ip.val hdr = .ok (k.load ip hdr).mm := by
          rw [Vm.preLoadSegment, if_pos ⟨hal.1, hal.2⟩]
          exact hadd
        rw [if_pos hload, hpre, ok_bind]
        exact ih hdr (k.load ip hdr) hrest
      · rw [segments, if_neg hload] at h ⊢
        rw [if_neg hload]
        exact ih hdr k h

theorem signExtend_eq_failed (n : Nat) : signExtend n = FAILED ↔ n % 2 ^ 32 = 2 ^ 32 - 1 := by
  unfold signExtend FAILED
  have haddrs : ADDRS = 18446744073709551616 := by decide
  rw [haddrs]
  split <;> omega

theorem ret_ok {res res' : Nat} (h : ret k ip res = .ok (k', res')) : k'.mm = k.mm ∧ res' = res := by
  unfold ret iunlock Inode.iunlock at h
  split at h
  case h_1 t ht =>
    split at h
    · cases h
      exact ⟨rfl, rfl⟩
    · cases h
  case h_2 => cases h

/-- A run that finishes is one of `Vm.loadElf`. -/
theorem loadElf_vm {res : Nat} (hcount : 1 ≤ k.iCount ip)
    (h : loadElf d stale k ip = .ok (k', res)) :
    Vm.loadElf k.mm (image (fileSize k.inodes ip) d ip stale)
      = .ok (if res = FAILED then none else some k'.mm) := by
  unfold Vm.loadElf image
  dsimp only
  by_cases hacc : Accepted (fileSize k.inodes ip) d
  · rcases loadElf_accepted stale hcount hacc with ⟨k₁, hmm, -, -, hsize, hrun⟩
    rw [hrun] at h
    rw [if_pos (decide_eq_true hacc), ← hmm]
    have hloop := loadHeaders_spec d ip (fileEhdr d).ePhoff (fileEhdr d).ePhnum 0 stale k₁
    rw [hsize] at hloop
    generalize hhs : headers (fileSize k.inodes ip) d (fileEhdr d).ePhoff 0 (fileEhdr d).ePhnum = hs
      at hloop
    have hfile : fileHeaders (fileSize k.inodes ip) d = hs := hhs
    rw [hfile]
    rcases hloop with ⟨hfail, hok⟩
    by_cases hall : LoadsAll ip k₁ (segments hs)
    · rcases hok hall with ⟨last, hloaded, hlast⟩
      rw [hloaded, ok_bind] at h
      rw [vmLoadHeaders_eq ip hs (phdr stale) k₁ hall, ok_bind]
      cases hcomplete : complete hs with
      | false =>
        rw [hcomplete] at hlast
        rcases Option.map_eq_none_iff.mp hlast
        rw [if_pos (ret_ok h).2]
        rfl
      | true =>
        rw [hcomplete] at hlast
        rcases Option.map_eq_some_iff.mp hlast with ⟨buf, rfl, hbuf⟩
        dsimp only at h
        rw [setHeap_eq] at h
        split at h
        case isTrue hclear =>
          have hret := ret_ok h
          rw [hret.2]
          have hstart : (heapArea (phdr buf)).vmStart % PGSIZE = 0 := Vm.segmentEnd_aligned _
          have hadd := vmAddVmArea_eq { (k₁.loadAll ip (segments hs)).mm with
            startBrk := segmentEnd (phdr buf), brk := segmentEnd (phdr buf) } hstart hstart
          rw [if_pos hclear] at hadd
          rw [if_pos rfl, ← hbuf]
          change (Vm.addVmArea _ (heapArea (phdr buf)) >>= _) = _
          rw [hadd, ok_bind]
          have hext := signExtend_eq_failed (fileEhdr d).eEntry
          by_cases hentry : signExtend (fileEhdr d).eEntry = FAILED
          · rw [if_pos hentry, if_pos (hext.mp hentry)]
            rfl
          · rw [if_neg hentry, if_neg fun heq => hentry (hext.mpr heq), hret.1]
            rfl
        case isFalse => cases h
    · rw [hfail hall] at h
      cases h
  · rcases loadElf_refused stale hcount hacc with ⟨k₁, -, -, hrun⟩
    rw [hrun] at h
    rw [if_neg (fun htrue => hacc (of_decide_eq_true htrue)), if_pos (ret_ok h).2]

/-- As long as no area wraps around, no insertion clashes if and only if no two of them overlap. -/
theorem clashfree_areas {hs : List (Option Phdr)} {last : Phdr}
    (hproper : ∀ vma ∈ areas ip hs last, vma.vmStart ≤ vma.vmEnd) :
    Clashfree Vma.vmStart Vma.vmEnd [] (areas ip hs last) ↔
      (areas ip hs last).Pairwise (Apart Vma.vmStart Vma.vmEnd) := by
  rw [clashfree_iff List.Pairwise.nil nofun hproper]
  constructor
  · intro h
    exact h.1
  · intro h
    exact ⟨h, fun _ _ => nofun⟩

/-- Executables of any contents and length: `load_elf` does what it should if and only if the file
    is refused by its file header, or its program headers are what is asked of them. -/
theorem elf_loading (d : Disk) (stale : Bytes) (k : Loader) (ip : Slot) (hfresh : k.mm.areas = [])
    (hcount : 1 ≤ k.iCount ip) (hwidth : k.iCount ip < 65536) :
    Returns (loadElf d stale k ip) ↔
      (Accepted (fileSize k.inodes ip) d →
        Loadable ip (k.iCount ip) (fileSize k.inodes ip) d stale) := by
  by_cases hacc : Accepted (fileSize k.inodes ip) d
  · rw [returns_iff hfresh hcount hwidth hacc]
    exact ⟨fun h _ => h, fun h => h hacc⟩
  · rcases loadElf_refused stale hcount hacc with ⟨k₁, hlocked, hcount₁, hrun⟩
    rw [hrun]
    refine ⟨fun _ h => absurd h hacc, fun _ => (returns_ret hlocked FAILED).mpr ⟨?_, .inl rfl⟩⟩
    rw [hcount₁]
    exact hcount

/-! ## Files -/

/-- Fields of given widths, one behind the other. -/
def fieldBytes (fields : List (Nat × Nat)) : List UInt8 :=
  fields.flatMap fun f => (List.range f.1).map (leBytes f.2)

/-- An executable with the segments `(p_vaddr, p_memsz, p_align)`. -/
def executable (phdrs : List (Nat × Nat × Nat)) : List UInt8 :=
  fieldBytes [(1, 0x7f), (1, 0x45), (1, 0x4c), (1, 0x46), (1, 2), (1, 1), (10, 1), (2, 2), (2, 243),
      (4, 1), (8, 0x10000), (8, 64), (8, 0), (4, 0), (2, 64), (2, 56), (2, phdrs.length), (6, 0)]
    ++ phdrs.flatMap fun h =>
      fieldBytes [(4, 1), (4, 7), (8, 0), (8, h.1), (8, h.1), (8, 0), (8, h.2.1), (8, h.2.2)]

/-- A file of one block. -/
def oneBlock (bytes : List UInt8) : Disk := ⟨fun _ => some fun j => bytes.getD j 0, fun _ => false⟩

/-- A new address space, and the file in slot 0 with the reference of the caller. -/
def opened (iSize : Nat) : Loader where
  mm := ⟨Vm.PageTable.zeroed 0, [], 0, MAXSTACK, 0, 0, 0, 0⟩
  inodes := ⟨fun _ => ⟨⟨0x8000, iSize, 1, 8⟩, ⟨false, false⟩, 1, 12, true, 1⟩, fun _ _ => ⟨0, 0, 0, 0⟩⟩
  locked := false

def loadFile (phdrs : List (Nat × Nat × Nat)) (stale : Bytes) : Except Fault (Loader × Nat) :=
  loadElf (oneBlock (executable phdrs)) stale (opened (executable phdrs).length) 0

theorem elf_loading_two :
    Accepted (executable [(0x10000, 0x1800, 4096), (0x20000, 10, 4096)]).length
        (oneBlock (executable [(0x10000, 0x1800, 4096), (0x20000, 10, 4096)])) ∧
      Returns (loadFile [(0x10000, 0x1800, 4096), (0x20000, 10, 4096)] 0) := by
  refine ⟨by decide +kernel, (elf_loading _ _ _ _ rfl (by decide) (by decide)).mpr fun _ => ?_⟩
  refine ⟨?_, ?_, ?_, ?_⟩
  · decide +kernel
  · decide +kernel
  · decide +kernel
  · decide +kernel

/-- A segment that asks for pages of 64 KiB fails the first assertion; one in the last page of the
    address space wraps around and is taken; and without headers the heap is where the stack of the
    kernel happens to say. -/
theorem elf_breaks :
    ¬ Returns (loadFile [(0x10000, 10, 0x10000)] 0) ∧
      ¬ Returns (loadFile [(0xfffffffffffff000, 0x1000, 4096)] 0) ∧
      ¬ Returns (loadFile [] fun _ => 0x7f) := by
  have hneeds : ∀ phdrs stale,
      Accepted (executable phdrs).length (oneBlock (executable phdrs)) →
      Returns (loadFile phdrs stale) →
        Loadable 0 1 (executable phdrs).length (oneBlock (executable phdrs)) stale := by
    intro phdrs stale hacc hret
    have hone : (opened (executable phdrs).length).iCount 0 = 1 := rfl
    have hsize : fileSize (opened (executable phdrs).length).inodes 0 = (executable phdrs).length :=
      rfl
    rw [← hsize] at hacc ⊢
    exact (returns_iff rfl (by rw [hone]) (by rw [hone]; decide) hacc).mp hret
  refine ⟨fun h => ?_, fun h => ?_, fun h => ?_⟩
  · have hal := (hneeds _ _ (by decide +kernel) h).aligned
    revert hal
    decide +kernel
  · have hin := (hneeds _ _ (by decide +kernel) h).inside
    revert hin
    decide +kernel
  · have hin := (hneeds _ _ (by decide +kernel) h).inside
    revert hin
    decide +kernel

end Uniks.ElfLoad
