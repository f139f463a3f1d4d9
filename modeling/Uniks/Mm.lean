/-
  Address spaces: the rest of `kernel/mm/vm.c`, and what `kernel/process/proc.c`, `execve.c`,
  `kernel/loader/elfloader.c` and `wait4` do with the memory of a process.

  The state is the physical memory, `pcbtable`, and the pages other parts of the kernel hold (slub,
  pipes, the block buffers, the kernel page table).  A process that has exited keeps its kernel
  stack page until it is reaped.  Each call is one step; two calls meet only in the buddy system
  and in the counts of shared pages, which have locks of their own.

  Left open is what is read: the bytes a page is loaded with, the headers of an executable, and
  the argument strings are inputs of the calls.  The contents of page tables and kernel stacks are
  not part of `data`; that no user page is one of them is part of the invariant.
-/
import Uniks.Lib.Slots
import Uniks.Vm
import Mathlib.Data.List.FinRange

namespace Uniks.Vm

open Uniks.Phys

abbrev NPROC : Nat := 64
abbrev MAXARG : Nat := 64
abbrev MAXARGLEN : Nat := 64
abbrev MAXSTACK : Nat := 32

abbrev Pid := Fin NPROC

/-- The C type `struct mm_struct`. -/
structure Mm where
  pagetable : PageTable
  areas : List Vma
  mapCount : Nat
  stackMaxsize : Nat
  startUstack : Nat
  mmapBase : Nat
  startBrk : Nat
  brk : Nat

/-! ## Giving the pages of a table back -/

/-- The source's `release_phypg`. -/
def releasePhypg (s : Buddy) (phypg : Frame) : Except Fault Buddy := do
  let (s, ret) ← pagesUndup s phypg
  let _ ← releasePglock s phypg
  if ret = 1 then pagesFree s phypg else return s

/-- One entry of the lowest level in `free_pgtable`. -/
def freeEntry (pt : PageTable) (v : Vpn) (s : Buddy) : Except Fault Buddy :=
  let pte := pt.pte v
  if pte.unrelease then .ok s
  else if pte.valid then releasePhypg s pte.paddr
  else .ok s

/-- The source's `free_pgtable` on a table of the lowest level. -/
def freeLow (pt : PageTable) (i j : Idx) (s : Buddy) : Except Fault Buddy :=
  (List.finRange PTENUM).foldlM (fun s k => freeEntry pt (i, j, k) s) s

/-- The source's `free_pgtable` on a table of the middle level. -/
def freeMid (pt : PageTable) (i : Idx) (s : Buddy) : Except Fault Buddy :=
  (List.finRange PTENUM).foldlM
    (fun s j => if (pt.low i j).isSome then freeLow pt i j s else .ok s) s

/-- The source's `free_pgtable` on the top table.  The pages of the tables are not given back. -/
def freePgtable (pt : PageTable) (s : Buddy) : Except Fault Buddy :=
  (List.finRange PTENUM).foldlM
    (fun s i => if (pt.mid i).isSome then freeMid pt i s else .ok s) s

/-! ## Sharing the pages of a table -/

/-- What the loops of `copy_pgtable` carry: the buddy system, the new and the old table. -/
structure Copy where
  phys : Buddy
  new : PageTable
  old : PageTable

/-- One entry of the lowest level in `copy_pgtable`. -/
def copyEntry (perm : Perm) (v : Vpn) (c : Copy) : Except Fault Copy :=
  let oldPte := c.old.pte v
  if oldPte.unrelease then .ok c
  else if oldPte.valid then do
    let pte := { oldPte with perm := oldPte.perm &&& ~~~perm }
    let s ← pagesDup c.phys oldPte.paddr
    return { phys := s, new := c.new.setPte v pte, old := c.old.setPte v pte }
  else .ok c

/-- The source's `copy_pgtable` on tables of the lowest level. -/
def copyLow (perm : Perm) (i j : Idx) (c : Copy) : Except Fault Copy :=
  (List.finRange PTENUM).foldlM (fun c k => copyEntry perm (i, j, k) c) c

/-- The source's `copy_pgtable` on tables of the middle level. -/
def copyMid (perm : Perm) (i : Idx) (c : Copy) : Except Fault Copy :=
  (List.finRange PTENUM).foldlM (fun c j =>
    if (c.old.low i j).isSome then do
      let (s, new) ← enterLow c.phys c.new i j
      copyLow perm i j { c with phys := s, new := new }
    else .ok c) c

/-- The source's `copy_pgtable` on the top tables. -/
def copyPgtable (perm : Perm) (c : Copy) : Except Fault Copy :=
  (List.finRange PTENUM).foldlM (fun c i =>
    if (c.old.mid i).isSome then do
      let (s, new) ← enterMid c.phys c.new i
      copyMid perm i { c with phys := s, new := new }
    else .ok c) c

/-- The loop of `uvm_space_copy` over the areas: a copy of each goes behind the node the cursor
    stands on, which is the `node`-th (the head for 0). -/
def copyAreas : List Vma → Nat → List Vma → List Vma
  | [], _, new => new
  | old :: rest, node, new =>
    let vma := { vmStart := old.vmStart, vmEnd := old.vmEnd, vmFlags := old.vmFlags,
                 filesz := old.filesz, vmPgoff := old.vmPgoff, vmInode := old.vmInode }
    copyAreas rest (node + 1) (new.insertIdx node vma)

/-- The source's `uvm_space_copy`: the new address space and the old one after it. -/
def uvmSpaceCopy (s : Buddy) (new old : Mm) : Except Fault (Buddy × Mm × Mm) := do
  let c ← copyPgtable PTE_W { phys := s, new := new.pagetable, old := old.pagetable }
  return (c.phys,
    { pagetable := c.new
      areas := copyAreas old.areas 0 new.areas
      mapCount := old.mapCount
      stackMaxsize := old.stackMaxsize
      startUstack := old.startUstack
      mmapBase := old.mmapBase
      startBrk := old.startBrk
      brk := old.brk },
    { old with pagetable := c.old })

/-! ## Areas -/

/-- The source's `new_mm_struct`; `stale` is what the fields that it does not set contain. -/
def newMmStruct (s : Buddy) (stale : Mm) : Except Fault (Buddy × Mm) := do
  let (s, pt) ← uvmcreate s
  return (s, { stale with pagetable := pt, areas := [], mapCount := 0, stackMaxsize := MAXSTACK })

/-- The insertion of `add_vm_area`, in front of the first area that begins behind the new one. -/
def insertArea (new : Vma) : List Vma → Except Fault (List Vma)
  | [] => .ok [new]
  | vma :: rest =>
    if new.vmEnd ≤ vma.vmStart ∨ new.vmStart ≥ vma.vmEnd then
      if vma.vmStart ≥ new.vmEnd then .ok (new :: vma :: rest)
      else do
        let rest ← insertArea new rest
        return vma :: rest
    else .error .check

/-- The source's `add_vm_area`. -/
def addVmArea (mm : Mm) (vma : Vma) : Except Fault Mm :=
  if vma.vmStart % PGSIZE = 0 ∧ vma.vmEnd % PGSIZE = 0 then do
    let areas ← insertArea vma mm.areas
    return { mm with areas := areas, mapCount := mm.mapCount + 1 }
  else .error .check

/-- The source's `sys_brk`; the heap is taken to be the third area. -/
def sysBrk (mm : Mm) (vaddr : Nat) : Except Fault Mm :=
  if vaddr ≤ mm.startBrk then .ok mm
  else if mm.mapCount ≥ 4 then
    .ok { mm with
      areas := mm.areas.modify 2 fun vma => { vma with vmEnd := vaddr }
      brk := vaddr }
  else .error .check

/-! ## New processes -/

/-- The source's `user_basic_pagetable`. -/
def userBasicPagetable (s : Buddy) (pt : PageTable) (tf : Nat) :
    Except Fault (Buddy × PageTable) := do
  let (s, pt) ← mappages s pt TRAMPOLINE PGSIZE .trampoline (PTE_R ||| PTE_X)
  mappages s pt TRAPFRAME PGSIZE (.page tf) (PTE_R ||| PTE_W)

/-- The memory of the source's `allocproc`: the page of the kernel stack and the trapframe, and
    an address space without areas. -/
def allocproc (s : Buddy) (stale : Mm) : Except Fault (Buddy × Nat × Mm) := do
  let (s, tf) ← pagesAlloc s 1
  let (s, mm) ← newMmStruct s stale
  let (s, pt) ← userBasicPagetable s mm.pagetable tf
  return (s, tf, { mm with pagetable := pt })

def INITSTART : Nat := 0x1000

/-- The source's `user_init`; `initpage` is the page with `initcode` in front. -/
def userInit (m : Mem) (initpage : Page) (stale : Mm) : Except Fault (Mem × Nat × Mm) := do
  let (s, tf, mm) ← allocproc m.phys stale
  let (s, page) ← pagesAlloc s 1
  let perm := PTE_X ||| PTE_R ||| PTE_U
  let (s, pt) ← mappages s mm.pagetable INITSTART PGSIZE (.page page) perm
  let mm ← addVmArea { mm with pagetable := pt } ⟨INITSTART, INITSTART + PGSIZE, perm, 0, 0, none⟩
  return (⟨s, Function.update m.data page initpage⟩, tf, mm)

/-- The memory of the source's `do_fork`: the page of the child, its address space, and that of
    the parent after it. -/
def doFork (s : Buddy) (parent stale : Mm) : Except Fault (Buddy × Nat × Mm × Mm) := do
  let (s, tf, child) ← allocproc s stale
  let (s, child, parent) ← uvmSpaceCopy s child parent
  return (s, tf, child, parent)

/-! ## Executables -/

/-- The C type `struct Elf64_Phdr_t`. -/
structure Phdr where
  pType : Nat
  pFlags : BitVec 32
  pOffset : Nat
  pVaddr : Nat
  pFilesz : Nat
  pMemsz : Nat
  pAlign : Nat

abbrev PT_LOAD : Nat := 1

/-- What `load_elf` reads: whether the file header passes, the program headers (`none`: cut short),
    what the variable for them contains at first, and the entry. -/
structure Image where
  inode : Nat
  valid : Bool
  headers : List (Option Phdr)
  stale : Phdr
  entry : Nat

/-- The flags of the area of a segment. -/
def segmentPerm (pFlags : BitVec 32) : Perm :=
  let perm := PTE_U
  let perm := if pFlags.getLsbD 0 then perm ||| PTE_X else perm
  let perm := if pFlags.getLsbD 2 then perm ||| PTE_R else perm
  if pFlags.getLsbD 1 then perm ||| PTE_W else perm

/-- The END of a segment, rounded up in 64 bits. -/
def segmentEnd (h : Phdr) : Nat := pgRoundUp (h.pVaddr + h.pMemsz) % ADDRS

/-- The source's `pre_load_segment`. -/
def preLoadSegment (mm : Mm) (inode : Nat) (h : Phdr) : Except Fault Mm :=
  if h.pAlign = PGSIZE ∧ h.pVaddr % PGSIZE = 0 then
    addVmArea mm ⟨h.pVaddr, segmentEnd h, segmentPerm h.pFlags, h.pFilesz, h.pOffset, some inode⟩
  else .error .check

/-- The loop of `load_elf`; it answers the last header read. -/
def loadHeaders (inode : Nat) : List (Option Phdr) → Phdr → Mm → Except Fault (Option (Mm × Phdr))
  | [], last, mm => .ok (some (mm, last))
  | none :: _, _, _ => .ok none
  | some h :: rest, _, mm =>
    if h.pType = PT_LOAD then do
      let mm ← preLoadSegment mm inode h
      loadHeaders inode rest h mm
    else loadHeaders inode rest h mm

/-- The source's `load_elf`; the entry passes through a signed 32-bit variable. -/
def loadElf (mm : Mm) (image : Image) : Except Fault (Option Mm) :=
  if image.valid then do
    match ← loadHeaders image.inode image.headers image.stale mm with
    | none => return none
    | some (mm, last) =>
      let brk := segmentEnd last
      let mm ← addVmArea { mm with startBrk := brk, brk := brk }
        ⟨brk, brk, PTE_R ||| PTE_W ||| PTE_U, 0, 0, none⟩
      return if image.entry % 2 ^ 32 = 2 ^ 32 - 1 then none else some mm
  else .ok none

/-! ## Replacing an address space -/

/-- The bytes of a word. -/
def wordBytes (w : Nat) : List UInt8 := (List.range 8).map fun i => UInt8.ofNat (w / 256 ^ i)

/-- A word is stored at a physical address, counted from `mem_start`. -/
def storeWord (data : Nat → Page) (pa w : Nat) : Nat → Page :=
  let no := pa / PGSIZE
  Function.update data no (writePage (data no) (pa % PGSIZE) (wordBytes w))

/-- A loop of `copyout_argv_envp`: the memory, and where the next word and the next string go. -/
def copyoutStrings (pt : PageTable) :
    List (List UInt8) → (Nat → Page) → Nat → Nat → Except Fault ((Nat → Page) × Nat × Nat)
  | [], data, ustack, sp => .ok (data, ustack, sp)
  | str :: rest, data, ustack, sp => do
    let (data, res) ← copyout data pt sp str
    if res < 0 then .error .check
    else copyoutStrings pt rest (storeWord data ustack sp) (ustack + 8) (sp + str.length)

/-- The source's `copyout_argv_envp`, with the assertion on its result. -/
def copyoutArgvEnvp (data : Nat → Page) (pt : PageTable) (argv envp : List (List UInt8))
    (ustack sp : Nat) : Except Fault (Nat → Page) := do
  let (data, ustack, sp) ← copyoutStrings pt argv data ustack sp
  let data := storeWord data ustack 0
  let (data, ustack, _) ← copyoutStrings pt envp data (ustack + 8) sp
  return storeWord data ustack 0

/-- The source's `map_user_stack`. -/
def mapUserStack (s : Buddy) (mm : Mm) (pageNum ustack : Nat) : Except Fault (Buddy × Mm) := do
  let perm := PTE_W ||| PTE_R ||| PTE_U
  let (s, pt) ← mappages s mm.pagetable (USER_STACK_TOP - PGSIZE * pageNum) (PGSIZE * pageNum)
    (.page ustack) perm
  let mm ← addVmArea { mm with pagetable := pt, startUstack := USER_STACK_TOP }
    ⟨USER_STACK_TOP - PGSIZE * mm.stackMaxsize, USER_STACK_TOP, PTE_R ||| PTE_W ||| PTE_U, 0, 0,
      none⟩
  return (s, mm)

/-- A range of user memory that `do_execve` fetches a pointer or a string from. -/
structure Fetch where
  vaddr : Nat
  size : Nat
  fill : Nat → Page

/-- The calls of `verify_area` in front of the fetches; the first one refused ends them. -/
def fetchArgs : List Fetch → Mem → Mm → Except Fault (Mem × Mm × Bool)
  | [], m, mm => .ok (m, mm, true)
  | f :: rest, m, mm => do
    let (m, pt, res) ← verifyArea m mm.areas mm.pagetable f.vaddr f.size (PTE_R ||| PTE_U) f.fill
    if res < 0 then return (m, { mm with pagetable := pt }, false)
    else fetchArgs rest m { mm with pagetable := pt }

/-- The strings fetched from an argument vector, each with its final zero: the loops stop at
    `MAXARG` strings, and `argstrfetch` at `MAXARGLEN` bytes. -/
structure ArgVec where
  strs : List (List UInt8)
  few : strs.length ≤ MAXARG
  short : ∀ str ∈ strs, str.length ≤ MAXARGLEN

/-- What `execve` is called with: the executable, where its argument vectors lie, and the strings
    fetched from there; and what the memory allocated happens to contain. -/
structure ExecArgs where
  image : Image
  fetches : List Fetch
  argv : ArgVec
  envp : ArgVec
  stale : Mm
  block : Nat → Page

/-- The length of a vector in the argument block: for each string its bytes and a word, and the
    word that ends the vector. -/
def ArgVec.length (v : ArgVec) : Nat := (v.strs.map fun str => str.length + 8).sum + 8

/-- The variable `totalen` of `do_execve`, in bytes and in pages. -/
def ExecArgs.totalen (a : ExecArgs) : Nat := a.envp.length + a.argv.length

def ExecArgs.pageNum (a : ExecArgs) : Nat := (a.totalen + (PGSIZE - 1)) / PGSIZE

/-- What the pages of a block handed out contain. -/
def blockData (data : Nat → Page) (page pageNum : Nat) (block : Nat → Page) : Nat → Page :=
  fun no => if page ≤ no ∧ no < page + pageNum then block (no - page) else data no

/-- The END of `do_execve`, when everything has been fetched. -/
def replaceMm (m : Mem) (old new : Mm) (tf : Nat) (a : ExecArgs) : Except Fault (Mem × Mm) := do
  let (s, ustack) ← pagesAlloc m.phys a.pageNum
  let s ← freePgtable old.pagetable s
  let (s, pt) ← userBasicPagetable s new.pagetable tf
  let (s, new) ← mapUserStack s { new with pagetable := pt } a.pageNum ustack
  let sp := USER_STACK_TOP - PGSIZE * a.pageNum +
    (a.envp.strs.length + 1 + (a.argv.strs.length + 1)) * 8
  let data := blockData m.data ustack a.pageNum a.block
  let data ← copyoutArgvEnvp data new.pagetable a.argv.strs a.envp.strs (ustack * PGSIZE) sp
  return (⟨s, data⟩, new)

/-- The source's `do_execve`, from `new_mm_struct` on. -/
def doExecve (m : Mem) (mm : Mm) (tf : Nat) (a : ExecArgs) : Except Fault (Mem × Mm) := do
  let (s, new) ← newMmStruct m.phys a.stale
  match ← loadElf new a.image with
  | none => return ({ m with phys := s }, mm)
  | some new =>
    let (m, mm, fetched) ← fetchArgs a.fetches { m with phys := s } mm
    if fetched then replaceMm m mm new tf a else return (m, mm)

/-! ## The system -/

/-- An entry of `pcbtable`: the page of the kernel stack and the trapframe, and the address space
    unless the process has exited. -/
structure Proc where
  tf : Nat
  mm : Option Mm

structure State where
  mem : Mem
  pcbtable : Pid → Option Proc
  others : List Nat

/-- The system after the boot, before anything is allocated. -/
def boot (memEnd : Nat) (data : Nat → Page) : State :=
  ⟨⟨buddySystemInit memEnd, data⟩, fun _ => none, []⟩

inductive Op where
  | userInit (p : Pid) (initpage : Page) (stale : Mm)
  | fork (p c : Pid) (stale : Mm)
  | access (p : Pid) (vaddr size : Nat) (targetperm : Perm) (fill : Nat → Page)
  | store (p : Pid) (vaddr : Nat) (byte : UInt8)
  | copyout (p : Pid) (dst : Nat) (src : List UInt8)
  | brk (p : Pid) (vaddr : Nat)
  | execve (p : Pid) (args : ExecArgs)
  | exit (p : Pid)
  | reap (c : Pid)
  | kernelAlloc
  | kernelFree (page : Nat)

/-- Store one entry of `pcbtable`. -/
def State.put (st : State) (m : Mem) (p : Pid) (proc : Option Proc) : State :=
  { st with mem := m, pcbtable := Function.update st.pcbtable p proc }

/-- A call of a process that is there. -/
def withMm (st : State) (p : Pid) (f : Nat → Mm → Except Fault State) : Except Fault State :=
  match st.pcbtable p with
  | some ⟨tf, some mm⟩ => f tf mm
  | _ => .error .check

/-- A store of the user program: the hardware lets it through if the entry is valid, for the user
    and writable; otherwise it traps, and nothing is stored. -/
def userStore (data : Nat → Page) (pt : PageTable) (vaddr : Nat) (byte : UInt8) : Nat → Page :=
  let pte := pt.pte (vpn vaddr)
  if vaddr < MAXVA ∧ pte.valid ∧ pte.user ∧ grants pte.perm PTE_W then
    match pte.paddr with
    | .page no => Function.update data no (writePage (data no) (vaddr % PGSIZE) [byte])
    | _ => data
  else data

/-- One call. -/
def call (st : State) : Op → Except Fault State
  | .userInit p initpage stale =>
    match st.pcbtable p with
    | some _ => .error .check
    | none => do
      let (m, tf, mm) ← userInit st.mem initpage stale
      return st.put m p (some ⟨tf, some mm⟩)
  | .fork p c stale => withMm st p fun tf mm =>
    match st.pcbtable c with
    | some _ => .ok st
    | none => do
      let (s, childTf, child, parent) ← doFork st.mem.phys mm stale
      return (st.put { st.mem with phys := s } p (some ⟨tf, some parent⟩)).put
        { st.mem with phys := s } c (some ⟨childTf, some child⟩)
  | .access p vaddr size targetperm fill => withMm st p fun tf mm => do
    let (m, pt, _) ← verifyArea st.mem mm.areas mm.pagetable vaddr size targetperm fill
    return st.put m p (some ⟨tf, some { mm with pagetable := pt }⟩)
  | .store p vaddr byte => withMm st p fun _ mm =>
    .ok { st with mem := { st.mem with data := userStore st.mem.data mm.pagetable vaddr byte } }
  | .copyout p dst src => withMm st p fun _ mm => do
    let (data, _) ← copyout st.mem.data mm.pagetable dst src
    return { st with mem := { st.mem with data := data } }
  | .brk p vaddr => withMm st p fun tf mm => do
    let mm ← sysBrk mm vaddr
    return st.put st.mem p (some ⟨tf, some mm⟩)
  | .execve p args => withMm st p fun tf mm => do
    let (m, mm) ← doExecve st.mem mm tf args
    return st.put m p (some ⟨tf, some mm⟩)
  | .exit p => withMm st p fun tf mm =>
    if p.val ≤ 1 then .error .check
    else do
      let s ← freePgtable mm.pagetable st.mem.phys
      return st.put { st.mem with phys := s } p (some ⟨tf, none⟩)
  | .reap c =>
    match st.pcbtable c with
    | some ⟨tf, none⟩ => do
      let s ← pagesFree st.mem.phys (.page tf)
      return st.put { st.mem with phys := s } c none
    | _ => .error .check
  | .kernelAlloc => do
    let (s, page) ← pagesAlloc st.mem.phys 1
    return { st with mem := { st.mem with phys := s }, others := page :: st.others }
  | .kernelFree page =>
    if page ∈ st.others then do
      let s ← pagesFree st.mem.phys (.page page)
      return { st with mem := { st.mem with phys := s }, others := st.others.erase page }
    else .error .check

/-- One step of the system: a call that returns. -/
def Step (st : State) (op : Op) (st' : State) : Prop := call st op = .ok st'

end Uniks.Vm
