/-
  Virtual memory: page tables, lazy loading and copy-on-write of `kernel/mm/vm.c`.

  A page table is kept as the tree it is: which page holds the top table, which pages hold the
  tables of the two levels below (a table that is there is a valid entry of the level above), and
  the entries of the lowest level; where a table is missing its entries read as zero.  The tables
  are pages of the buddy system that nobody else writes.  A page is given by its index from
  `mem_start`, as in `Uniks.Phys`; the trampoline lies in the kernel image and has no record there.

  A failed assertion is a `Fault`: `alloc` is the one at the end of `pages_alloc`, `count` one of
  those on the reference count of a page, `check` any other.  `pages_alloc` never returns `NULL`,
  and the branches for that case are left out.
-/
import Uniks.Phys
import Mathlib.Data.Fin.Basic

namespace Uniks.Vm

open Uniks.Phys
open Function (update)

abbrev PGSIZE : Nat := 4096
abbrev PTENUM : Nat := 512
abbrev MAXVA : Nat := 2 ^ 38
abbrev TRAMPOLINE : Nat := MAXVA - PGSIZE
abbrev TRAPFRAME : Nat := TRAMPOLINE - PGSIZE
abbrev USER_STACK_TOP : Nat := TRAPFRAME

/-- The addresses of 64 bits. -/
abbrev ADDRS : Nat := 2 ^ 64

inductive Fault where
  | alloc
  | count
  | check
  deriving DecidableEq, Repr

theorem mod_lt_pgsize (a : Nat) : a % PGSIZE < PGSIZE := Nat.mod_lt a (by decide)

/-- The macro `PGROUNDDOWN`. -/
def pgRoundDown (a : Nat) : Nat := a - a % PGSIZE

/-- The macro `PGROUNDUP`. -/
def pgRoundUp (a : Nat) : Nat := pgRoundDown (a + (PGSIZE - 1))

/-! ## The buddy system, with its failures named -/

def pagesAlloc (s : Buddy) (npages : Nat) : Except Fault (Buddy × Nat) :=
  match Phys.pagesAlloc s npages with
  | some r => .ok r
  | none => .error .alloc

/-- What a physical address points to. -/
inductive Frame where
  | null
  | trampoline
  | page (no : Nat)
  deriving DecidableEq, Repr

def Frame.next : Frame → Frame
  | .page no => .page (no + 1)
  | f => f

/-- The source's `pages_dup`; a record outside the array has no count to rely on. -/
def pagesDup (s : Buddy) : Frame → Except Fault Buddy
  | .page no =>
    match Phys.pagesDup s no with
    | some s => .ok s
    | none => .error .count
  | _ => .error .count

def pagesUndup (s : Buddy) : Frame → Except Fault (Buddy × Nat)
  | .page no =>
    match Phys.pagesUndup s no with
    | some r => .ok r
    | none => .error .count
  | _ => .error .count

def releasePglock (s : Buddy) : Frame → Except Fault Unit
  | .page no => if (s.record no).count ≥ 1 then .ok () else .error .count
  | _ => .error .count

def pagesFree (s : Buddy) : Frame → Except Fault Buddy
  | .page no =>
    match Phys.pagesFree s no with
    | some s => .ok s
    | none => .error .check
  | _ => .error .check

/-! ## Page tables -/

/-- The flags [D|A|G|U|X|W|R|V] of an entry or an area. -/
abbrev Perm := BitVec 8

def PTE_V : Perm := 0x01#8
def PTE_R : Perm := 0x02#8
def PTE_W : Perm := 0x04#8
def PTE_X : Perm := 0x08#8
def PTE_U : Perm := 0x10#8
def PTE_G : Perm := 0x20#8

/-- All of the flags `perm` are among `flags`. -/
def grants (flags perm : Perm) : Bool := flags &&& perm == perm

/-- The C type `struct pgtable_entry_t`. -/
structure Pte where
  perm : Perm
  unrelease : Bool
  paddr : Frame
  deriving DecidableEq, Repr

def Pte.zero : Pte := ⟨0#8, false, .null⟩

def Pte.valid (pte : Pte) : Bool := grants pte.perm PTE_V

def Pte.user (pte : Pte) : Bool := grants pte.perm PTE_U

/-- An index into a table. -/
abbrev Idx := Fin PTENUM

/-- The page number of a virtual address: an index for each level. -/
abbrev Vpn := Idx × Idx × Idx

/-- The macro `PX`. -/
def px (level va : Nat) : Idx := ⟨va / 2 ^ (12 + 9 * level) % PTENUM, Nat.mod_lt _ (by decide)⟩

def vpn (va : Nat) : Vpn := (px 2 va, px 1 va, px 0 va)

/-- A page table: the pages of its tables, and the entries of the lowest level. -/
structure PageTable where
  root : Nat
  mid : Idx → Option Nat
  low : Idx → Idx → Option Nat
  pte : Vpn → Pte

/-- The table without entries on a zeroed page. -/
def PageTable.zeroed (root : Nat) : PageTable :=
  { root := root, mid := fun _ => none, low := fun _ _ => none, pte := fun _ => Pte.zero }

/-- Store one entry of the lowest level. -/
def PageTable.setPte (pt : PageTable) (v : Vpn) (pte : Pte) : PageTable :=
  { pt with pte := update pt.pte v pte }

/-- A zeroed page becomes a table of the level in the middle. -/
def PageTable.addMid (pt : PageTable) (i : Idx) (page : Nat) : PageTable :=
  { pt with mid := update pt.mid i (some page) }

/-- A zeroed page becomes a table of the lowest level. -/
def PageTable.addLow (pt : PageTable) (i j : Idx) (page : Nat) : PageTable :=
  { pt with low := update pt.low i (update (pt.low i) j (some page)) }

@[simp] theorem PageTable.setPte_pte (pt : PageTable) (v : Vpn) (pte : Pte) :
    (pt.setPte v pte).pte = update pt.pte v pte := rfl

@[simp] theorem PageTable.addMid_pte (pt : PageTable) (i : Idx) (page : Nat) :
    (pt.addMid i page).pte = pt.pte := rfl

@[simp] theorem PageTable.addLow_pte (pt : PageTable) (i j : Idx) (page : Nat) :
    (pt.addLow i j page).pte = pt.pte := rfl

/-- The source's `uvmcreate`. -/
def uvmcreate (s : Buddy) : Except Fault (Buddy × PageTable) := do
  let (s, root) ← pagesAlloc s 1
  return (s, PageTable.zeroed root)

/-- The table of the middle level that an index leads to, allocated if it is missing. -/
def enterMid (s : Buddy) (pt : PageTable) (i : Idx) : Except Fault (Buddy × PageTable) :=
  match pt.mid i with
  | some _ => .ok (s, pt)
  | none => do
    let (s, page) ← pagesAlloc s 1
    return (s, pt.addMid i page)

/-- The table of the lowest level that two indices lead to, allocated if it is missing. -/
def enterLow (s : Buddy) (pt : PageTable) (i j : Idx) : Except Fault (Buddy × PageTable) :=
  match pt.low i j with
  | some _ => .ok (s, pt)
  | none => do
    let (s, page) ← pagesAlloc s 1
    return (s, pt.addLow i j page)

/-- The source's `walk` that may allocate; the entry it leads to is the one at `vpn va`. -/
def walk (s : Buddy) (pt : PageTable) (va : Nat) : Except Fault (Buddy × PageTable) := do
  if va < MAXVA then
    let (s, pt) ← enterMid s pt (px 2 va)
    enterLow s pt (px 2 va) (px 1 va)
  else .error .check

/-- The source's `walkaddr`. -/
def walkaddr (pt : PageTable) (va : Nat) : Except Fault (Option Frame) :=
  if va < MAXVA then
    let pte := pt.pte (vpn va)
    if pte.valid && pte.user then .ok (some pte.paddr) else .ok none
  else .error .check

/-- The loop of `mappages`, for the call with the address `va`. -/
def mappagesLoop (va : Nat) (perm : Perm) :
    Nat → Buddy → PageTable → Nat → Frame → Except Fault (Buddy × PageTable)
  | 0, s, pt, _, _ => .ok (s, pt)
  | n + 1, s, pt, a, pa => do
    let (s, pt) ← walk s pt a
    if (pt.pte (vpn a)).valid then .error .check
    else
      let perm' := if va ≥ TRAMPOLINE then perm ||| PTE_G else perm
      let pte := { perm := perm' ||| PTE_V, unrelease := decide (va ≥ TRAPFRAME), paddr := pa }
      mappagesLoop va perm n s (pt.setPte (vpn a) pte) (a + PGSIZE) pa.next

/-- The source's `mappages`. -/
def mappages (s : Buddy) (pt : PageTable) (va size : Nat) (pa : Frame) (perm : Perm) :
    Except Fault (Buddy × PageTable) :=
  if size = 0 then .error .check
  else
    let a := pgRoundDown va
    let last := pgRoundUp (a + size - 1)
    mappagesLoop va perm ((last - a) / PGSIZE) s pt a pa

/-! ## Areas -/

/-- The C type `struct vm_area_struct`. -/
structure Vma where
  vmStart : Nat
  vmEnd : Nat
  vmFlags : Perm
  filesz : Nat
  vmPgoff : Nat
  vmInode : Option Nat
  deriving DecidableEq, Repr

/-- The source's `search_vmareas`; the end of the range is computed in 64 bits. -/
def searchVmareas (areas : List Vma) (targetVaddr size : Nat) : Option Vma :=
  let endVaddr := (targetVaddr + size) % ADDRS
  areas.find? fun vma => targetVaddr ≥ vma.vmStart && endVaddr ≤ vma.vmEnd

/-! ## Faults -/

/-- The contents of a page. -/
abbrev Page := Fin PGSIZE → UInt8

/-- What a copy from a physical address reads. -/
def frameData (data : Nat → Page) : Frame → Except Fault Page
  | .page no => .ok (data no)
  | _ => .error .check

/-- The physical memory: the buddy system, and what the pages contain. -/
structure Mem where
  phys : Buddy
  data : Nat → Page

/-- The source's `do_no_page`.  `fill` is what the page contains when it has been read in, or, in
    an area without a file, what the allocated page happens to contain. -/
def doNoPage (m : Mem) (pt : PageTable) (vaddr : Nat) (targetperm : Perm) (fill : Nat → Page) :
    Except Fault (Mem × PageTable) := do
  let (s, page) ← pagesAlloc m.phys 1
  let (s, pt) ← mappages s pt vaddr PGSIZE (.page page) targetperm
  return ({ phys := s, data := update m.data page (fill vaddr) }, pt)

/-- The source's `do_wp_page`, on the entry at `v`. -/
def doWpPage (m : Mem) (pt : PageTable) (v : Vpn) (targetperm : Perm) :
    Except Fault (Mem × PageTable) := do
  let pte := pt.pte v
  let (s, ret) ← pagesUndup m.phys pte.paddr
  if ret = 1 then
    let _ ← releasePglock s pte.paddr
    return ({ m with phys := s }, pt.setPte v { pte with perm := pte.perm ||| targetperm })
  else
    let (s, newPage) ← pagesAlloc s 1
    let old ← frameData m.data pte.paddr
    let _ ← releasePglock s pte.paddr
    return ({ phys := s, data := update m.data newPage old },
      pt.setPte v { perm := targetperm ||| pte.perm, unrelease := false, paddr := .page newPage })

/-- One round of the loop of `verify_area`. -/
def verifyPage (m : Mem) (pt : PageTable) (va : Nat) (targetperm : Perm) (fill : Nat → Page) :
    Except Fault (Mem × PageTable) := do
  let (s, pt) ← walk m.phys pt va
  let m := { m with phys := s }
  let pte := pt.pte (vpn va)
  if grants pte.perm targetperm then return (m, pt)
  else if pte.valid then doWpPage m pt (vpn va) targetperm
  else doNoPage m pt va targetperm fill

/-- The loop of `verify_area`. -/
def verifyLoop (endVaddr : Nat) (targetperm : Perm) (fill : Nat → Page) (va : Nat) (m : Mem)
    (pt : PageTable) : Except Fault (Mem × PageTable) :=
  if va < endVaddr then do
    let (m, pt) ← verifyPage m pt va targetperm fill
    verifyLoop endVaddr targetperm fill (va + PGSIZE) m pt
  else .ok (m, pt)
termination_by endVaddr - va
decreasing_by
  have hpos : 0 < PGSIZE := by decide
  omega

/-- The source's `verify_area`. -/
def verifyArea (m : Mem) (areas : List Vma) (pt : PageTable) (vaddr size : Nat) (targetperm : Perm)
    (fill : Nat → Page) : Except Fault (Mem × PageTable × Int) :=
  match searchVmareas areas vaddr size with
  | none => .ok (m, pt, -1)
  | some vma =>
    if grants vma.vmFlags targetperm then do
      let endVaddr := (vaddr + size) % ADDRS
      let (m, pt) ← verifyLoop endVaddr targetperm fill (pgRoundDown vaddr) m pt
      return (m, pt, 0)
    else .ok (m, pt, -1)

/-! ## Copying to user space -/

/-- The bytes of a page after `memcpy` of `src` to the offset `off`. -/
def writePage (page : Page) (off : Nat) (src : List UInt8) : Page := fun k =>
  if off ≤ k then src.getD (k - off) (page k) else page k

/-- The source's `copyout`. -/
def copyout (data : Nat → Page) (pt : PageTable) (dst : Nat) (src : List UInt8) :
    Except Fault ((Nat → Page) × Int) :=
  if _hsrc : src = [] then .ok (data, 0)
  else
    match walkaddr pt (pgRoundDown dst) with
    | .error e => .error e
    | .ok none => .ok (data, -1)
    | .ok (some (.page no)) =>
      let off := dst % PGSIZE
      let n := PGSIZE - off
      copyout (update data no (writePage (data no) off (src.take n))) pt
        (pgRoundDown dst + PGSIZE) (src.drop n)
    | .ok (some _) => .error .check
termination_by src.length
decreasing_by
  have hpos := List.length_pos_iff.mpr _hsrc
  have hoff : dst % PGSIZE < PGSIZE := Nat.mod_lt _ (by decide)
  rw [List.length_drop]
  omega

end Uniks.Vm
