/-
  `do_execve` and what it takes: kernel objects, a page, memory areas, inode references.

  The state keeps for `kmalloc` and `pages_alloc` what is in use and what they are going to answer
  (an answer that is in use, or an object at `NULL`, is none they can give), and writes down what
  the call takes and what it gives to `kfree`.  The memory of the caller enters through `UserView`:
  what `verify_area`, `copyin` and `argstrfetch` say at each address; a page they bring in is the
  same memory to the process.  How the inode table is changed is computed by `Uniks.Inode`, how the
  areas are by `Uniks.Vm`.  Pages below the root of a table are not counted here.

  A function returns `none` where the source does not return: a failed assertion, a string that
  `argstrfetch` does not get to the end of, or a `kfree` of what is no object.
-/
import Uniks.Mm
import Uniks.InodeRefs
import Uniks.Sysfile

namespace Uniks.Execve

open Uniks.Inode (Slot NINODE InodeTable Walk namei ilock iunlock idup iput)
open Uniks.Vm (Vma Phdr Image PageTable Perm ADDRS PGSIZE PTE_R PTE_W PTE_U MAXARG MAXSTACK
  USER_STACK_TOP PT_LOAD segmentEnd)
open Uniks.Sysfile (Fd FcbNo ENOENT ENOEXEC EFAULT EINVAL)
open Option (some bind_eq_some_iff)

/-! ## State -/

/-- An address in the kernel; 0 is `NULL`. -/
abbrev Ptr := Nat

abbrev NULL : Ptr := 0

def ENOMEM : Int := 12

/-- The registers of a trapframe that `do_execve` stores. -/
structure Trapframe where
  epc : Nat
  sp : Nat
  a1 : Nat
  a2 : Nat
  deriving DecidableEq

/-- A `struct mm_struct` with the objects it is made of: its own, and one for each area. -/
structure Space where
  ptr : Ptr
  mm : Vm.Mm
  areaPtrs : List Ptr

/-- The caller: its address space, trapframe, name, working directory and open files. -/
structure Proc where
  space : Space
  tf : Trapframe
  name : Ptr
  icwd : Slot
  fdtable : Fd → Option FcbNo

structure Kernel where
  proc : Proc
  inodes : InodeTable
  objs : Ptr → Bool
  pages : Nat → Bool
  /-- The answers of `kmalloc` and of `pages_alloc` to come. -/
  freshObjs : List Ptr
  freshPages : List (Option Nat)
  /-- What the call has been given, and what it has called `kfree` for. -/
  taken : List Ptr
  takenPages : List Nat
  freed : List Ptr

/-! ## Taking and giving back -/

/-- The source's `kmalloc`. -/
def kmalloc (k : Kernel) : Option (Kernel × Ptr) :=
  match k.freshObjs with
  | [] => none
  | ptr :: rest =>
    if ptr ≠ NULL ∧ k.objs ptr = false then
      some ({ k with objs := Function.update k.objs ptr true, freshObjs := rest,
                     taken := ptr :: k.taken }, ptr)
    else none

/-- The source's `kfree`.  It finds the slab by the head of the page that the pointer is in: where
    no object is, there is no page mapped, or no such head. -/
def kfree (k : Kernel) (ptr : Ptr) : Option Kernel :=
  if ptr = NULL then some k
  else if k.objs ptr then
    some { k with objs := Function.update k.objs ptr false, freed := ptr :: k.freed }
  else none

/-- The source's `pages_alloc`: the first of the pages, or `NULL`. -/
def pagesAlloc (k : Kernel) (npages : Nat) : Option (Kernel × Option Nat) :=
  match k.freshPages with
  | [] => none
  | none :: rest => some ({ k with freshPages := rest }, none)
  | some no :: rest =>
    if ∀ i < npages, k.pages (no + i) = false then
      some ({ k with
        pages := fun page => if no ≤ page ∧ page < no + npages then true else k.pages page
        freshPages := rest
        takenPages := (List.range npages).map (no + ·) ++ k.takenPages }, some no)
    else none

/-- The source's `iput` on the pointer of an area. -/
def iputArea (k : Kernel) : Option Nat → Kernel
  | none => k
  | some no => if h : no < NINODE then { k with inodes := iput k.inodes ⟨no, h⟩ } else k

/-- The source's `idup` on the pointer of an area. -/
def idupArea (k : Kernel) : Option Nat → Option Kernel
  | none => some k
  | some no =>
    if h : no < NINODE then (idup k.inodes ⟨no, h⟩).map fun t => { k with inodes := t } else none

def kfreeAll : List Ptr → Kernel → Option Kernel
  | [], k => some k
  | ptr :: rest, k => do
    let k ← kfree k ptr
    kfreeAll rest k

/-- The source's `new_mm_struct`; `stale` is what the fields that it does not set contain. -/
def newMmStruct (k : Kernel) (stale : Vm.Mm) : Option (Kernel × Option Space) := do
  let (k, ptr) ← kmalloc k
  let (k, page) ← pagesAlloc k 1
  match page with
  | none => return (k, none)
  | some root =>
    return (k, some ⟨ptr, { stale with pagetable := PageTable.zeroed root, areas := [], mapCount := 0,
                                       stackMaxsize := MAXSTACK }, []⟩)

/-- The source's `free_mm_struct`. -/
def freeMmStruct (k : Kernel) (space : Space) : Option Kernel := do
  let k := space.mm.areas.foldl (fun k vma => iputArea k vma.vmInode) k
  let k ← kfreeAll space.areaPtrs k
  kfree k space.ptr

/-- The object of a new area and its reference to the file; `mm` is the space with the area. -/
def newVmareaStruct (k : Kernel) (space : Space) (mm : Vm.Mm) (inode : Option Nat) :
    Option (Kernel × Space) := do
  let (k, ptr) ← kmalloc k
  let k ← idupArea k inode
  return (k, { space with mm := mm, areaPtrs := ptr :: space.areaPtrs })

/-- The source's `add_vm_area`. -/
def addVmArea (k : Kernel) (space : Space) (vma : Vma) : Option (Kernel × Space) := do
  let mm ← (Vm.addVmArea space.mm vma).toOption
  newVmareaStruct k space mm vma.vmInode

/-! ## The executable -/

/-- The source's `pre_load_segment`. -/
def preLoadSegment (k : Kernel) (space : Space) (ip : Slot) (h : Phdr) : Option (Kernel × Space) := do
  let mm ← (Vm.preLoadSegment space.mm ip h).toOption
  newVmareaStruct k space mm (some ip)

/-- The loop of `load_elf`; it answers the last header, or `none` if one is cut short. -/
def loadHeaders (ip : Slot) :
    List (Option Phdr) → Phdr → Kernel → Space → Option (Kernel × Space × Option Phdr)
  | [], last, k, space => some (k, space, some last)
  | none :: _, _, k, space => some (k, space, none)
  | some h :: rest, _, k, space =>
    if h.pType = PT_LOAD then do
      let (k, space) ← preLoadSegment k space ip h
      loadHeaders ip rest h k space
    else loadHeaders ip rest h k space

/-- The value of a signed 32-bit variable, as `uint64_t`. -/
def signExtend (n : Nat) : Nat :=
  if n % 2 ^ 32 < 2 ^ 31 then n % 2 ^ 32 else n % 2 ^ 32 + (2 ^ 64 - 2 ^ 32)

/-- The source's `load_elf`; the answer `none` is -1. -/
def loadElf (k : Kernel) (space : Space) (ip : Slot) (image : Image) :
    Option (Kernel × Space × Option Nat) := do
  let t ← ilock k.inodes ip
  let k := { k with inodes := t }
  if image.valid then
    let (k, space, last) ← loadHeaders ip image.headers image.stale k space
    match last with
    | none =>
      let t ← iunlock k.inodes ip
      return ({ k with inodes := t }, space, none)
    | some last =>
      let brk := segmentEnd last
      let (k, space) ← addVmArea k { space with mm := { space.mm with startBrk := brk, brk := brk } }
        ⟨brk, brk, PTE_R ||| PTE_W ||| PTE_U, 0, 0, none⟩
      let t ← iunlock k.inodes ip
      let entry := signExtend image.entry
      return ({ k with inodes := t }, space, if entry = 2 ^ 64 - 1 then none else some entry)
  else
    let t ← iunlock k.inodes ip
    return ({ k with inodes := t }, space, none)

/-! ## The argument vectors -/

/-- The caller's memory: whether `verify_area` admits a pointer at an address, the pointer `copyin`
    finds there, and what `argstrfetch` answers for a string (`none`: it does not return). -/
structure UserView where
  readable : Nat → Bool
  word : Nat → Ptr
  fetch : Nat → Option Int

/-- The address of an entry of a vector. -/
def entryAddr (vec i : Nat) : Nat := (vec + 8 * i) % ADDRS

/-- The array of a copy loop with its counters.  Entries that are not listed are 0. -/
structure StrVec where
  ptrs : List Ptr
  count : Nat
  totalen : Nat

/-- One of the two copy loops of `do_execve`, from entry `i` on, at most `n` more strings: 0, or
    the error.  The entry first holds the user's pointer, and then the copy. -/
def copyStrings (view : UserView) (vec : Nat) :
    Nat → Nat → Kernel → StrVec → Option (Kernel × StrVec × Int)
  | 0, _, k, arr => some (k, arr, 0)
  | n + 1, i, k, arr =>
    if view.readable (entryAddr vec i) then
      let uptr := view.word (entryAddr vec i)
      if uptr = NULL then some (k, arr, 0)
      else do
        let (k, va) ← kmalloc k
        let len ← view.fetch uptr
        if len < 0 then return (k, { arr with ptrs := arr.ptrs ++ [uptr] }, -EINVAL)
        else
          copyStrings view vec n (i + 1) k
            { ptrs := arr.ptrs ++ [va], count := arr.count + 1,
              totalen := arr.totalen + (len.toNat + 1) + 8 }
    else some (k, arr, -EFAULT)

/-- The loops that free the strings of a vector, up to the first `NULL`. -/
def kfreeStrings : List Ptr → Kernel → Option Kernel
  | [], k => some k
  | ptr :: rest, k =>
    if ptr = NULL then some k
    else do
      let k ← kfree k ptr
      kfreeStrings rest k

/-! ## The call -/

/-- The arguments of the call, what is read on the way, and what fresh memory contains. -/
structure Args where
  path : Ptr
  walk : Walk
  argv : Nat
  envp : Nat
  view : UserView
  image : Image
  stale : Vm.Mm

/-- The label `ret3`. -/
def ret3 (k : Kernel) (ip : Slot) (res : Int) : Kernel × Int :=
  ({ k with inodes := iput k.inodes ip }, res)

/-- The label `ret2`. -/
def ret2 (k : Kernel) (ip : Slot) (envpLen : Ptr) (tmpEnvp : StrVec) (res : Int) :
    Option (Kernel × Int) := do
  let k ← kfree k envpLen
  let k ← kfreeStrings tmpEnvp.ptrs k
  return ret3 k ip res

/-- The label `ret1`. -/
def ret1 (k : Kernel) (ip : Slot) (argvLen : Ptr) (tmpArgv : StrVec) (envpLen : Ptr)
    (tmpEnvp : StrVec) (res : Int) : Option (Kernel × Int) := do
  let k ← kfree k argvLen
  let k ← kfreeStrings tmpArgv.ptrs k
  ret2 k ip envpLen tmpEnvp res

/-- The source's `map_user_stack`, as far as areas go. -/
def mapUserStack (k : Kernel) (space : Space) : Option (Kernel × Space) :=
  addVmArea k { space with mm := { space.mm with startUstack := USER_STACK_TOP } }
    ⟨USER_STACK_TOP - PGSIZE * space.mm.stackMaxsize, USER_STACK_TOP, PTE_R ||| PTE_W ||| PTE_U, 0, 0,
      none⟩

/-- The new address space takes the place of the old one. -/
def replaceSpace (k : Kernel) (new : Space) (args : Args) (entry argc npages : Nat) :
    Option (Kernel × Int) := do
  let base := USER_STACK_TOP - PGSIZE * npages
  let k ← freeMmStruct k k.proc.space
  let (k, new) ← mapUserStack k new
  let tf : Trapframe := { epc := entry, sp := base, a1 := base, a2 := base + argc * 8 }
  return ({ k with proc := { k.proc with space := new, tf := tf, name := args.path } },
    (argc : Int) - 1)

/-- `do_execve` from the copy loops on. -/
def copyArgs (k : Kernel) (ip : Slot) (new : Space) (args : Args) (entry : Nat) :
    Option (Kernel × Int) := do
  let (k, _) ← kmalloc k
  let (k, envpLen) ← kmalloc k
  let (k, tmpEnvp, res) ← copyStrings args.view args.envp MAXARG 0 k ⟨[], 0, 0⟩
  if res < 0 then ret2 k ip envpLen tmpEnvp res
  else do
    let (k, _) ← kmalloc k
    let (k, argvLen) ← kmalloc k
    let (k, tmpArgv, res) ← copyStrings args.view args.argv MAXARG 0 k ⟨[], 0, tmpEnvp.totalen + 8⟩
    if res < 0 then ret1 k ip argvLen tmpArgv envpLen tmpEnvp res
    else do
      let argc := tmpArgv.count + 1
      let npages := (tmpArgv.totalen + 8 + (PGSIZE - 1)) / PGSIZE
      let (k, ustack) ← pagesAlloc k npages
      match ustack with
      | none => ret1 k ip argvLen tmpArgv envpLen tmpEnvp (-ENOMEM)
      | some _ =>
        let (k, res) ← replaceSpace k new args entry argc npages
        ret1 k ip argvLen tmpArgv envpLen tmpEnvp res

/-- The source's `do_execve`. -/
def doExecve (k : Kernel) (args : Args) : Option (Kernel × Int) := do
  let k := { k with taken := [], takenPages := [], freed := [] }
  let (t, inode) ← namei k.inodes k.proc.icwd args.walk
  let k := { k with inodes := t }
  match inode with
  | none => return (k, -ENOENT)
  | some ip =>
    let (k, new) ← newMmStruct k args.stale
    match new with
    | none => return ret3 k ip (-ENOMEM)
    | some new =>
      let (k, new, entry) ← loadElf k new ip args.image
      match entry with
      | none =>
        let k ← freeMmStruct k new
        return ret3 k ip (-ENOEXEC)
      | some entry => copyArgs k ip new args entry

variable {k k' k'' : Kernel}

/-! ## Pages -/

/-- Nothing happens to pages. -/
structure SamePages (k k' : Kernel) : Prop where
  pages : k'.pages = k.pages
  takenPages : k'.takenPages = k.takenPages
  freshPages : k'.freshPages = k.freshPages

theorem SamePages.refl (k : Kernel) : SamePages k k := ⟨rfl, rfl, rfl⟩

theorem SamePages.trans (h : SamePages k k') (h' : SamePages k' k'') : SamePages k k'' :=
  ⟨h'.pages.trans h.pages, h'.takenPages.trans h.takenPages, h'.freshPages.trans h.freshPages⟩

theorem kmalloc_pages {ptr : Ptr} (h : kmalloc k = some (k', ptr)) : SamePages k k' := by
  unfold kmalloc at h
  split at h
  · cases h
  · split at h
    · cases h
      exact ⟨rfl, rfl, rfl⟩
    · cases h

theorem kfree_pages {ptr : Ptr} (h : kfree k ptr = some k') : SamePages k k' := by
  unfold kfree at h
  split at h
  · cases h
    exact .refl k
  · split at h
    · cases h
      exact ⟨rfl, rfl, rfl⟩
    · cases h

theorem kfreeAll_pages {ptrs : List Ptr} (h : kfreeAll ptrs k = some k') : SamePages k k' := by
  induction ptrs generalizing k with
  | nil =>
    cases h
    exact .refl _
  | cons ptr rest ih =>
    rcases bind_eq_some_iff.mp h with ⟨k₁, hfree, h⟩
    exact (kfree_pages hfree).trans (ih h)

theorem kfreeStrings_pages {ptrs : List Ptr} (h : kfreeStrings ptrs k = some k') :
    SamePages k k' := by
  induction ptrs generalizing k with
  | nil =>
    cases h
    exact .refl _
  | cons ptr rest ih =>
    rw [kfreeStrings] at h
    split at h
    · cases h
      exact .refl _
    · rcases bind_eq_some_iff.mp h with ⟨k₁, hfree, h⟩
      exact (kfree_pages hfree).trans (ih h)

theorem iputArea_pages (k : Kernel) (inode : Option Nat) : SamePages k (iputArea k inode) := by
  cases inode with
  | none => exact .refl k
  | some no =>
    rw [iputArea]
    split
    · exact ⟨rfl, rfl, rfl⟩
    · exact .refl k

theorem idupArea_pages {inode : Option Nat} (h : idupArea k inode = some k') : SamePages k k' := by
  cases inode with
  | none =>
    cases h
    exact .refl k
  | some no =>
    rw [idupArea] at h
    split at h
    · rcases Option.map_eq_some_iff.mp h with ⟨t, -, rfl⟩
      exact ⟨rfl, rfl, rfl⟩
    · cases h

theorem freeMmStruct_pages {space : Space} (h : freeMmStruct k space = some k') :
    SamePages k k' := by
  have hareas : ∀ (areas : List Vma) (k : Kernel),
      SamePages k (areas.foldl (fun k vma => iputArea k vma.vmInode) k) := by
    intro areas
    induction areas with
    | nil => exact .refl
    | cons vma rest ih => exact fun k => (iputArea_pages k vma.vmInode).trans (ih _)
  rcases bind_eq_some_iff.mp h with ⟨k₁, hall, h⟩
  exact ((hareas space.mm.areas k).trans (kfreeAll_pages hall)).trans (kfree_pages h)

theorem newVmareaStruct_pages {space space' : Space} {mm : Vm.Mm} {inode : Option Nat}
    (h : newVmareaStruct k space mm inode = some (k', space')) : SamePages k k' := by
  rcases bind_eq_some_iff.mp h with ⟨⟨k₁, ptr⟩, hmalloc, h⟩
  rcases bind_eq_some_iff.mp h with ⟨k₂, hdup, h⟩
  cases h
  exact (kmalloc_pages hmalloc).trans (idupArea_pages hdup)

theorem addVmArea_pages {space space' : Space} {vma : Vma}
    (h : addVmArea k space vma = some (k', space')) : SamePages k k' := by
  rcases bind_eq_some_iff.mp h with ⟨mm, -, h⟩
  exact newVmareaStruct_pages h

theorem preLoadSegment_pages {space space' : Space} {ip : Slot} {hdr : Phdr}
    (h : preLoadSegment k space ip hdr = some (k', space')) : SamePages k k' := by
  rcases bind_eq_some_iff.mp h with ⟨mm, -, h⟩
  exact newVmareaStruct_pages h

theorem loadHeaders_pages {ip : Slot} {headers : List (Option Phdr)} {last : Phdr}
    {space space' : Space} {r : Option Phdr}
    (h : loadHeaders ip headers last k space = some (k', space', r)) : SamePages k k' := by
  induction headers generalizing last k space with
  | nil =>
    rcases Prod.mk.inj (some.inj h) with ⟨rfl, -⟩
    exact .refl k
  | cons hdr rest ih =>
    cases hdr with
    | none =>
      rcases Prod.mk.inj (some.inj h) with ⟨rfl, -⟩
      exact .refl k
    | some hdr =>
      rw [loadHeaders] at h
      split at h
      · rcases bind_eq_some_iff.mp h with ⟨⟨k₁, space₁⟩, hload, h⟩
        exact (preLoadSegment_pages hload).trans (ih h)
      · exact ih h

/-! ## The executable -/

/-- The file header passes, no program header is cut short, and the entry is not the one that reads
    as -1. -/
def Loadable (image : Image) : Prop :=
  image.valid = true ∧ none ∉ image.headers ∧ image.entry % 2 ^ 32 ≠ 2 ^ 32 - 1

theorem signExtend_eq (n : Nat) : signExtend n = 2 ^ 64 - 1 ↔ n % 2 ^ 32 = 2 ^ 32 - 1 := by
  unfold signExtend
  split <;> omega

theorem loadHeaders_last {ip : Slot} {headers : List (Option Phdr)} {last : Phdr}
    {space space' : Space} {r : Option Phdr}
    (h : loadHeaders ip headers last k space = some (k', space', r)) :
    r = none ↔ none ∈ headers := by
  induction headers generalizing last k space with
  | nil =>
    rcases Prod.mk.inj (Prod.mk.inj (some.inj h)).2 with ⟨-, rfl⟩
    exact ⟨nofun, nofun⟩
  | cons hdr rest ih =>
    cases hdr with
    | none =>
      rcases Prod.mk.inj (Prod.mk.inj (some.inj h)).2 with ⟨-, rfl⟩
      exact ⟨fun _ => List.mem_cons_self, fun _ => rfl⟩
    | some hdr =>
      have hrest : none ∈ some hdr :: rest ↔ none ∈ rest := by
        rw [List.mem_cons]
        exact ⟨fun hor => hor.resolve_left nofun, .inr⟩
      rw [hrest]
      rw [loadHeaders] at h
      split at h
      · rcases bind_eq_some_iff.mp h with ⟨⟨k₁, space₁⟩, -, h⟩
        exact ih h
      · exact ih h

/-- What `load_elf` answers, and that it has no business with pages. -/
theorem loadElf_spec {space space' : Space} {ip : Slot} {image : Image} {entry : Option Nat}
    (h : loadElf k space ip image = some (k', space', entry)) :
    SamePages k k' ∧ (entry = none ↔ ¬ Loadable image) := by
  rcases bind_eq_some_iff.mp h with ⟨t, -, h⟩
  have hread : SamePages k { k with inodes := t } := ⟨rfl, rfl, rfl⟩
  split at h
  · rename_i hvalid
    rcases bind_eq_some_iff.mp h with ⟨⟨k₁, space₁, last⟩, hload, h⟩
    have hpages := hread.trans (loadHeaders_pages hload)
    have hlast := loadHeaders_last hload
    cases last with
    | none =>
      rcases bind_eq_some_iff.mp h with ⟨t', -, h⟩
      rcases Prod.mk.inj (some.inj h) with ⟨rfl, hrest⟩
      cases hrest
      refine ⟨hpages.trans ⟨rfl, rfl, rfl⟩, fun _ hok => ?_, fun _ => rfl⟩
      exact hok.2.1 (hlast.mp rfl)
    | some last =>
      rcases bind_eq_some_iff.mp h with ⟨⟨k₂, space₂⟩, hadd, h⟩
      rcases bind_eq_some_iff.mp h with ⟨t', -, h⟩
      rcases Prod.mk.inj (some.inj h) with ⟨rfl, hrest⟩
      cases hrest
      refine ⟨(hpages.trans (addVmArea_pages hadd)).trans ⟨rfl, rfl, rfl⟩, ?_⟩
      have hheaders : none ∉ image.headers := fun hmem => nomatch hlast.mpr hmem
      by_cases hentry : signExtend image.entry = 2 ^ 64 - 1
      · rw [if_pos hentry]
        exact ⟨fun _ hok => hok.2.2 ((signExtend_eq _).mp hentry), fun _ => rfl⟩
      · rw [if_neg hentry]
        refine ⟨nofun, fun hno => absurd ⟨hvalid, hheaders, ?_⟩ hno⟩
        exact fun heq => hentry ((signExtend_eq _).mpr heq)
  · rename_i hvalid
    rcases bind_eq_some_iff.mp h with ⟨t', -, h⟩
    rcases Prod.mk.inj (some.inj h) with ⟨rfl, hrest⟩
    cases hrest
    exact ⟨hread.trans ⟨rfl, rfl, rfl⟩, fun _ hok => hvalid hok.1, fun _ => rfl⟩

theorem toOption_eq_some {ε α : Type} {x : Except ε α} {a : α} (h : x.toOption = some a) :
    x = .ok a := by
  cases x with
  | error e => cases h
  | ok b =>
    cases h
    rfl

theorem newVmareaStruct_mm {space space' : Space} {mm : Vm.Mm} {inode : Option Nat}
    (h : newVmareaStruct k space mm inode = some (k', space')) : space'.mm = mm := by
  rcases bind_eq_some_iff.mp h with ⟨⟨k₁, ptr⟩, -, h⟩
  rcases bind_eq_some_iff.mp h with ⟨k₂, -, h⟩
  cases h
  rfl

theorem loadHeaders_mm {ip : Slot} {headers : List (Option Phdr)} {last : Phdr}
    {space space' : Space} {r : Option Phdr}
    (h : loadHeaders ip headers last k space = some (k', space', r)) :
    Vm.loadHeaders ip headers last space.mm = .ok (r.map fun last => (space'.mm, last)) := by
  induction headers generalizing last k space with
  | nil =>
    rcases Prod.mk.inj (some.inj h) with ⟨-, hrest⟩
    cases hrest
    rfl
  | cons hdr rest ih =>
    cases hdr with
    | none =>
      rcases Prod.mk.inj (some.inj h) with ⟨-, hrest⟩
      cases hrest
      rfl
    | some hdr =>
      rw [loadHeaders] at h
      rw [Vm.loadHeaders]
      split at h
      · rename_i htype
        rcases bind_eq_some_iff.mp h with ⟨⟨k₁, space₁⟩, hload, h⟩
        rcases bind_eq_some_iff.mp hload with ⟨mm, hmm, hnew⟩
        rw [if_pos htype, toOption_eq_some hmm, ← newVmareaStruct_mm hnew]
        exact ih h
      · rename_i htype
        rw [if_neg htype]
        exact ih h

/-- The areas come out as in `Uniks.Vm`. -/
theorem loadElf_mm {space space' : Space} {ip : Slot} {image : Image} {entry : Option Nat}
    (h : loadElf k space ip image = some (k', space', entry)) :
    Vm.loadElf space.mm { image with inode := ip } = .ok (entry.map fun _ => space'.mm) := by
  rcases bind_eq_some_iff.mp h with ⟨t, -, h⟩
  rw [Vm.loadElf]
  split at h
  · rename_i hvalid
    rcases bind_eq_some_iff.mp h with ⟨⟨k₁, space₁, last⟩, hload, h⟩
    rw [if_pos hvalid, loadHeaders_mm hload]
    cases last with
    | none =>
      rcases bind_eq_some_iff.mp h with ⟨t', -, h⟩
      rcases Prod.mk.inj (Prod.mk.inj (some.inj h)).2 with ⟨-, rfl⟩
      rfl
    | some last =>
      rcases bind_eq_some_iff.mp h with ⟨⟨k₂, space₂⟩, hadd, h⟩
      rcases bind_eq_some_iff.mp h with ⟨t', -, h⟩
      rcases Prod.mk.inj (some.inj h) with ⟨-, hrest⟩
      rcases Prod.mk.inj hrest with ⟨hspace, hentry⟩
      rw [← hspace, ← hentry]
      rw [addVmArea] at hadd
      rcases bind_eq_some_iff.mp hadd with ⟨mm, hmm, hnew⟩
      have hvm := toOption_eq_some hmm
      rw [newVmareaStruct_mm hnew]
      simp only [Option.map_some, bind, Except.bind, hvm, pure, Except.pure]
      by_cases heq : image.entry % 2 ^ 32 = 2 ^ 32 - 1
      · rw [if_pos heq, if_pos ((signExtend_eq _).mpr heq)]
        rfl
      · rw [if_neg heq, if_neg fun hs => heq ((signExtend_eq _).mp hs)]
        rfl
  · rename_i hvalid
    rcases bind_eq_some_iff.mp h with ⟨t', -, h⟩
    rcases Prod.mk.inj (Prod.mk.inj (some.inj h)).2 with ⟨-, rfl⟩
    rw [if_neg hvalid]
    rfl

/-! ## The argument vectors -/

/-- Every entry of the vector up to its end, or up to `MAXARG` entries, can be read, and every
    string can be fetched. -/
def Fetchable (view : UserView) (vec : Nat) : Prop :=
  ∀ i < MAXARG, (∀ j < i, view.word (entryAddr vec j) ≠ NULL) →
    view.readable (entryAddr vec i) = true ∧ (view.word (entryAddr vec i) ≠ NULL →
      ∃ len, view.fetch (view.word (entryAddr vec i)) = some len ∧ 0 ≤ len)

/-- A copy loop that has come to entry `i` ends well if the entries from there on are in order. -/
theorem copyStrings_spec {view : UserView} {vec n i : Nat} {arr arr' : StrVec} {res : Int}
    (h : copyStrings view vec n i k arr = some (k', arr', res)) (hn : i + n = MAXARG)
    (hbefore : ∀ j < i, view.word (entryAddr vec j) ≠ NULL ∧ view.readable (entryAddr vec j) = true ∧
      ∃ len, view.fetch (view.word (entryAddr vec j)) = some len ∧ 0 ≤ len) :
    SamePages k k' ∧ (res = 0 ∧ Fetchable view vec ∨ res < 0 ∧ ¬ Fetchable view vec) := by
  induction n generalizing i k arr with
  | zero =>
    rcases Prod.mk.inj (some.inj h) with ⟨rfl, hrest⟩
    cases hrest
    refine ⟨.refl k, .inl ⟨rfl, ?_⟩⟩
    intro m hm _
    have hlt : m < i := by omega
    exact ⟨(hbefore m hlt).2.1, fun _ => (hbefore m hlt).2.2⟩
  | succ n ih =>
    have hi : i < MAXARG := by omega
    have hnon : ∀ j < i, view.word (entryAddr vec j) ≠ NULL := fun j hj => (hbefore j hj).1
    rw [copyStrings] at h
    split at h
    · rename_i hread
      dsimp only at h
      split at h
      · -- the end of the vector
        rename_i hend
        rcases Prod.mk.inj (some.inj h) with ⟨rfl, hrest⟩
        cases hrest
        refine ⟨.refl k, .inl ⟨rfl, ?_⟩⟩
        intro m hm hfull
        rcases Nat.lt_trichotomy m i with hlt | heq | hgt
        · exact ⟨(hbefore m hlt).2.1, fun _ => (hbefore m hlt).2.2⟩
        · rw [heq]
          exact ⟨hread, fun hno => absurd hend hno⟩
        · exact absurd hend (hfull i hgt)
      · rename_i hword
        rcases bind_eq_some_iff.mp h with ⟨⟨k₁, va⟩, hmalloc, h⟩
        rcases bind_eq_some_iff.mp h with ⟨len, hfetch, h⟩
        split at h
        · -- the string cannot be fetched
          rename_i hlen
          rcases Prod.mk.inj (some.inj h) with ⟨rfl, hrest⟩
          cases hrest
          refine ⟨kmalloc_pages hmalloc, .inr ⟨by decide, ?_⟩⟩
          intro hok
          rcases (hok i hi hnon).2 hword with ⟨len', hfetch', hpos⟩
          cases hfetch.symm.trans hfetch'
          exact absurd hlen (Int.not_lt.mpr hpos)
        · rename_i hlen
          have hnext : ∀ j < i + 1, view.word (entryAddr vec j) ≠ NULL ∧
              view.readable (entryAddr vec j) = true ∧
                ∃ len, view.fetch (view.word (entryAddr vec j)) = some len ∧ 0 ≤ len := by
            intro j hj
            rcases Nat.lt_or_eq_of_le (Nat.le_of_lt_succ hj) with hlt | rfl
            · exact hbefore j hlt
            · exact ⟨hword, hread, len, hfetch, Int.not_lt.mp hlen⟩
          rcases ih h (by omega) hnext with ⟨hpages, hres⟩
          exact ⟨(kmalloc_pages hmalloc).trans hpages, hres⟩
    · rename_i hread
      rcases Prod.mk.inj (some.inj h) with ⟨rfl, hrest⟩
      cases hrest
      refine ⟨.refl k, .inr ⟨by decide, ?_⟩⟩
      intro hok
      exact hread (hok i hi hnon).1

theorem copyStrings_start {view : UserView} {vec : Nat} {arr arr' : StrVec} {res : Int}
    (h : copyStrings view vec MAXARG 0 k arr = some (k', arr', res)) :
    SamePages k k' ∧ (res = 0 ∧ Fetchable view vec ∨ res < 0 ∧ ¬ Fetchable view vec) :=
  copyStrings_spec h (Nat.zero_add MAXARG) nofun

/-! ## What a failed call leaves -/

/-- The call has changed nothing, has given back what it took, and has given back nothing else. -/
structure Atomic (k k' : Kernel) : Prop where
  proc : k'.proc = k.proc
  objs : ∀ ptr ∈ k'.taken, k'.objs ptr = false
  pages : ∀ no ∈ k'.takenPages, k'.pages no = false
  inodes : ∀ ip, (k'.inodes.mInodes ip).iCount % 65536 = (k.inodes.mInodes ip).iCount % 65536
  freed : ∀ ptr ∈ k'.freed, ptr ∈ k'.taken

/-- The path names no file. -/
def Unresolved (k : Kernel) (args : Args) : Prop :=
  ∃ t, namei k.inodes k.proc.icwd args.walk = some (t, none)

/-- The program can be loaded, the strings can be fetched, and there are pages for the root of the
    new table and for the strings. -/
structure Completes (k : Kernel) (args : Args) : Prop where
  image : Loadable args.image
  envp : Fetchable args.view args.envp
  argv : Fetchable args.view args.argv
  pages : none ∉ k.freshPages.take 2

/-- A page that has been taken and is still in use. -/
def Holds (k : Kernel) (no : Nat) : Prop := no ∈ k.takenPages ∧ k.pages no = true

theorem Holds.same {no : Nat} (h : Holds k no) (hs : SamePages k k') : Holds k' no := by
  unfold Holds
  rw [hs.takenPages, hs.pages]
  exact h

theorem Holds.not_atomic {no : Nat} (h : Holds k' no) : ¬ Atomic k k' := by
  intro ha
  have hfree := ha.pages no h.1
  rw [h.2] at hfree
  cases hfree

theorem kmalloc_taken {ptr : Ptr} (h : kmalloc k = some (k', ptr)) :
    ptr ∈ k'.taken ∧ k'.objs ptr = true := by
  unfold kmalloc at h
  split at h
  · cases h
  · split at h
    · cases h
      exact ⟨List.mem_cons_self, Function.update_self ..⟩
    · cases h

theorem pagesAlloc_none {npages : Nat} (h : pagesAlloc k npages = some (k', none)) :
    k.freshPages = none :: k'.freshPages ∧ k'.takenPages = k.takenPages ∧ k'.pages = k.pages ∧
      k'.taken = k.taken ∧ k'.objs = k.objs := by
  unfold pagesAlloc at h
  split at h
  · cases h
  · rename_i rest hfresh
    cases h
    exact ⟨hfresh, rfl, rfl, rfl, rfl⟩
  · split at h
    · exact nomatch (Prod.mk.inj (some.inj h)).2
    · cases h

theorem pagesAlloc_some {npages no : Nat} (h : pagesAlloc k npages = some (k', some no)) :
    k.freshPages = some no :: k'.freshPages ∧ ∀ i < npages, Holds k' (no + i) := by
  unfold pagesAlloc at h
  split at h
  · cases h
  · exact nomatch (Prod.mk.inj (some.inj h)).2
  · rename_i page rest hfresh
    split at h
    · rcases Prod.mk.inj (some.inj h) with ⟨rfl, hno⟩
      cases hno
      refine ⟨hfresh, ?_⟩
      intro i hi
      constructor
      · exact List.mem_append_left _ (List.mem_map.mpr ⟨i, List.mem_range.mpr hi, rfl⟩)
      · exact if_pos ⟨Nat.le_add_right no i, Nat.add_lt_add_left hi no⟩
    · cases h

theorem newMmStruct_none {stale : Vm.Mm} (h : newMmStruct k stale = some (k', none)) :
    none ∈ k.freshPages.take 2 ∧ ∃ ptr ∈ k'.taken, k'.objs ptr = true := by
  rcases bind_eq_some_iff.mp h with ⟨⟨k₁, ptr⟩, hmalloc, h⟩
  rcases bind_eq_some_iff.mp h with ⟨⟨k₂, page⟩, hpage, h⟩
  cases page with
  | some root => exact nomatch (Prod.mk.inj (some.inj h)).2
  | none =>
    cases h
    rcases pagesAlloc_none hpage with ⟨hfresh, -, -, htaken, hobjs⟩
    rw [(kmalloc_pages hmalloc).freshPages] at hfresh
    rw [hfresh, htaken, hobjs]
    exact ⟨List.mem_cons_self, ptr, (kmalloc_taken hmalloc).1, (kmalloc_taken hmalloc).2⟩

theorem newMmStruct_some {stale : Vm.Mm} {space : Space}
    (h : newMmStruct k stale = some (k', some space)) :
    ∃ root, k.freshPages = some root :: k'.freshPages ∧ Holds k' root := by
  rcases bind_eq_some_iff.mp h with ⟨⟨k₁, ptr⟩, hmalloc, h⟩
  rcases bind_eq_some_iff.mp h with ⟨⟨k₂, page⟩, hpage, h⟩
  cases page with
  | none => exact nomatch (Prod.mk.inj (some.inj h)).2
  | some root =>
    cases h
    rcases pagesAlloc_some hpage with ⟨hfresh, hholds⟩
    rw [(kmalloc_pages hmalloc).freshPages] at hfresh
    exact ⟨root, hfresh, hholds 0 Nat.one_pos⟩

/-- The labels free objects, and hand the result on. -/
theorem ret2_spec {ip : Slot} {envpLen : Ptr} {tmpEnvp : StrVec} {res res' : Int}
    (h : ret2 k ip envpLen tmpEnvp res = some (k', res')) : SamePages k k' ∧ res' = res := by
  rcases bind_eq_some_iff.mp h with ⟨k₁, hlen, h⟩
  rcases bind_eq_some_iff.mp h with ⟨k₂, hstrings, h⟩
  cases h
  have hfree := (kfree_pages hlen).trans (kfreeStrings_pages hstrings)
  exact ⟨hfree.trans ⟨rfl, rfl, rfl⟩, rfl⟩

theorem ret1_spec {ip : Slot} {argvLen envpLen : Ptr} {tmpArgv tmpEnvp : StrVec} {res res' : Int}
    (h : ret1 k ip argvLen tmpArgv envpLen tmpEnvp res = some (k', res')) :
    SamePages k k' ∧ res' = res := by
  rcases bind_eq_some_iff.mp h with ⟨k₁, hlen, h⟩
  rcases bind_eq_some_iff.mp h with ⟨k₂, hstrings, h⟩
  rcases ret2_spec h with ⟨hpages, rfl⟩
  exact ⟨((kfree_pages hlen).trans (kfreeStrings_pages hstrings)).trans hpages, rfl⟩

theorem replaceSpace_res {new : Space} {args : Args} {entry argc npages : Nat} {res : Int}
    (h : replaceSpace k new args entry argc npages = some (k', res)) : res = (argc : Int) - 1 := by
  rcases bind_eq_some_iff.mp h with ⟨k₀, -, h⟩
  rcases bind_eq_some_iff.mp h with ⟨⟨k₁, space⟩, -, h⟩
  exact (Prod.mk.inj (some.inj h)).2.symm

/-- From the copy loops on: either everything is in order, or the page of the new table stays. -/
theorem copyArgs_spec {ip : Slot} {new : Space} {args : Args} {entry root : Nat} {res : Int}
    (h : copyArgs k ip new args entry = some (k', res)) (hroot : Holds k root) :
    (0 ≤ res ∧ Fetchable args.view args.envp ∧ Fetchable args.view args.argv ∧
        k.freshPages.head? ≠ some none) ∨
      res < 0 ∧ Holds k' root ∧ ¬ (Fetchable args.view args.envp ∧ Fetchable args.view args.argv ∧
        k.freshPages.head? ≠ some none) := by
  rcases bind_eq_some_iff.mp h with ⟨⟨k₁, _⟩, hmalloc₁, h⟩
  rcases bind_eq_some_iff.mp h with ⟨⟨k₂, envpLen⟩, hmalloc₂, h⟩
  rcases bind_eq_some_iff.mp h with ⟨⟨k₃, tmpEnvp, res₁⟩, henvp, h⟩
  rcases copyStrings_start henvp with ⟨hpages₁, hres₁⟩
  have hpages₃ := ((kmalloc_pages hmalloc₁).trans (kmalloc_pages hmalloc₂)).trans hpages₁
  rcases hres₁ with ⟨rfl, hok₁⟩ | ⟨hneg, hbad⟩
  · dsimp only at h
    rw [if_neg (Int.lt_irrefl 0)] at h
    rcases bind_eq_some_iff.mp h with ⟨⟨k₄, _⟩, hmalloc₃, h⟩
    rcases bind_eq_some_iff.mp h with ⟨⟨k₅, argvLen⟩, hmalloc₄, h⟩
    rcases bind_eq_some_iff.mp h with ⟨⟨k₆, tmpArgv, res₂⟩, hargv, h⟩
    rcases copyStrings_start hargv with ⟨hpages₂, hres₂⟩
    have hpages₆ := (hpages₃.trans ((kmalloc_pages hmalloc₃).trans (kmalloc_pages hmalloc₄))).trans
      hpages₂
    rcases hres₂ with ⟨rfl, hok₂⟩ | ⟨hneg, hbad⟩
    · dsimp only at h
      rw [if_neg (Int.lt_irrefl 0)] at h
      rcases bind_eq_some_iff.mp h with ⟨⟨k₇, ustack⟩, hstack, h⟩
      cases ustack with
      | none =>
        -- no pages for the strings
        rcases pagesAlloc_none hstack with ⟨hfresh, htaken, hpages, -, -⟩
        rcases ret1_spec h with ⟨hret, rfl⟩
        refine .inr ⟨by decide, ?_, ?_⟩
        · refine Holds.same ?_ hret
          unfold Holds
          rw [htaken, hpages]
          exact hroot.same hpages₆
        · intro hall
          refine hall.2.2 ?_
          rw [← hpages₆.freshPages, hfresh]
          rfl
      | some page =>
        rcases pagesAlloc_some hstack with ⟨hfresh, -⟩
        rcases bind_eq_some_iff.mp h with ⟨⟨k₈, res₃⟩, hrepl, h⟩
        rcases ret1_spec h with ⟨-, rfl⟩
        have hval := replaceSpace_res hrepl
        have hpos : (0 : Int) ≤ res := by
          rw [hval]
          omega
        refine .inl ⟨hpos, hok₁, hok₂, ?_⟩
        rw [← hpages₆.freshPages, hfresh]
        exact nofun
    · dsimp only at h
      rw [if_pos hneg] at h
      rcases ret1_spec h with ⟨hret, rfl⟩
      exact .inr ⟨hneg, (hroot.same hpages₆).same hret, fun hall => hbad hall.2.1⟩
  · dsimp only at h
    rw [if_pos hneg] at h
    rcases ret2_spec h with ⟨hret, rfl⟩
    exact .inr ⟨hneg, (hroot.same hpages₃).same hret, fun hall => hbad hall.1⟩

/-- A path that names no file: only the inode table has been looked at. -/
theorem doExecve_unresolved {args : Args} {t : InodeTable} {res : Int}
    (hpath : namei k.inodes k.proc.icwd args.walk = some (t, none))
    (h : doExecve k args = some (k', res)) : Atomic k k' := by
  rcases bind_eq_some_iff.mp h with ⟨r, hr, h⟩
  cases hpath.symm.trans hr
  cases h
  refine ⟨rfl, nofun, nofun, ?_, nofun⟩
  intro ip
  have hcount := (Inode.namei_adjust hpath).change ip
  rw [Inode.held_none, Pi.zero_apply, Int.add_zero] at hcount
  exact_mod_cast hcount

/-- A path that names a file: the call completes, or it fails and leaves something behind. -/
theorem doExecve_resolved {args : Args} {t : InodeTable} {ip : Slot} {res : Int}
    (hpath : namei k.inodes k.proc.icwd args.walk = some (t, some ip))
    (h : doExecve k args = some (k', res)) :
    0 ≤ res ∧ Completes k args ∨ res < 0 ∧ ¬ Atomic k k' ∧ ¬ Completes k args := by
  rcases bind_eq_some_iff.mp h with ⟨r, hr, h⟩
  cases hpath.symm.trans hr
  rcases bind_eq_some_iff.mp h with ⟨⟨k₁, new⟩, hnew, h⟩
  cases new with
  | none =>
    -- no root page: the object of the new space stays
    rcases newMmStruct_none hnew with ⟨hfresh, ptr, htaken, hobj⟩
    cases h
    refine .inr ⟨by decide, ?_, fun hc => hc.pages hfresh⟩
    intro ha
    have hfree : k₁.objs ptr = false := ha.objs ptr htaken
    rw [hobj] at hfree
    cases hfree
  | some new =>
    rcases newMmStruct_some hnew with ⟨root, hfresh, hroot⟩
    have hfresh : k.freshPages = some root :: k₁.freshPages := hfresh
    rcases bind_eq_some_iff.mp h with ⟨⟨k₂, new', entry⟩, hload, h⟩
    rcases loadElf_spec hload with ⟨hpages, hentry⟩
    cases entry with
    | none =>
      rcases bind_eq_some_iff.mp h with ⟨k₃, hfree, h⟩
      cases h
      refine .inr ⟨by decide, ?_, fun hc => hentry.mp rfl hc.image⟩
      have hput : SamePages k₃ (ret3 k₃ ip (-ENOEXEC)).1 := ⟨rfl, rfl, rfl⟩
      exact ((hroot.same (hpages.trans (freeMmStruct_pages hfree))).same hput).not_atomic
    | some entry =>
      have himage : Loadable args.image := by
        by_contra hno
        exact nomatch hentry.mpr hno
      -- the second page answer is the one for the strings
      have htwo : none ∉ k.freshPages.take 2 ↔ k₂.freshPages.head? ≠ some none := by
        rw [hfresh, hpages.freshPages]
        cases k₁.freshPages with
        | nil => simp
        | cons page rest => simp [eq_comm]
      rcases copyArgs_spec h (hroot.same hpages) with ⟨hpos, henvp, hargv, hhead⟩ | ⟨hneg, hholds, hbad⟩
      · exact .inl ⟨hpos, himage, henvp, hargv, htwo.mpr hhead⟩
      · refine .inr ⟨hneg, hholds.not_atomic, ?_⟩
        intro hc
        exact hbad ⟨hc.envp, hc.argv, htwo.mp hc.pages⟩

/-- A call that fails changes nothing and keeps nothing exactly if the path names no file; a call
    that cannot fail is the other case in which there is nothing to say. -/
theorem doExecve_exact {args : Args} {res : Int} (h : doExecve k args = some (k', res)) :
    (res < 0 → Atomic k k') ↔ Unresolved k args ∨ Completes k args := by
  have hpath : ∃ r, namei k.inodes k.proc.icwd args.walk = some r := by
    rcases bind_eq_some_iff.mp h with ⟨r, hr, -⟩
    exact ⟨r, hr⟩
  rcases hpath with ⟨⟨t, inode⟩, hpath⟩
  cases inode with
  | none =>
    refine ⟨fun _ => .inl ⟨t, hpath⟩, fun _ _ => ?_⟩
    exact doExecve_unresolved hpath h
  | some ip =>
    have hresolved : ¬ Unresolved k args := by
      rintro ⟨t', ht'⟩
      exact nomatch (Prod.mk.inj (some.inj (hpath.symm.trans ht'))).2
    rcases doExecve_resolved hpath h with ⟨hpos, hc⟩ | ⟨hneg, hno, hc⟩
    · refine ⟨fun _ => .inr hc, fun _ hneg => ?_⟩
      exact absurd hneg (Int.not_lt.mpr hpos)
    · refine ⟨fun hall => absurd (hall hneg) hno, fun hor => ?_⟩
      rcases hor with hun | hcomp
      · exact absurd hun hresolved
      · exact absurd hcomp hc

/-! ## A vector that cannot be read -/

/-- The root directory is in use as a working directory; every other slot is idle. -/
def oneDir : InodeTable :=
  let idle : Inode.MInode := ⟨⟨0, 0, 0, 0⟩, ⟨false, false⟩, 0, 0, false, 0⟩
  { mInodes := Function.update (fun _ => idle) 0
      { idle with dInodeCtnt := ⟨0x41ed, 4096, 2, 8⟩, iDev := 1, iNo := 2, iValid := true, iCount := 1 }
    diskInode := fun _ _ => ⟨0x81ed, 8192, 1, 16⟩ }

def emptyMm : Vm.Mm := ⟨PageTable.zeroed 0, [], 0, 0, 0, 0, 0, 0⟩

/-- A process in the root directory. -/
def caller : Kernel :=
  { proc := ⟨⟨100, emptyMm, []⟩, ⟨0, 0, 0, 0⟩, 101, 0, fun _ => none⟩
    inodes := oneDir
    objs := fun ptr => ptr == 100 || ptr == 101
    pages := fun no => no == 0
    freshObjs := (List.range 200).map (· + 1000)
    freshPages := [some 1, some 2]
    taken := [], takenPages := [], freed := [] }

/-- `execve` of a file with one segment; nothing is mapped where `envp` points. -/
def badVector (walk : Walk) : Args :=
  { path := 102, walk := walk, argv := 0x40000, envp := 0x50000
    view := { readable := fun addr => addr != 0x50000, word := fun _ => NULL, fetch := fun _ => some 0 }
    image := ⟨0, true, [some ⟨PT_LOAD, 5#32, 0, 0x10000, 0x2000, 0x2000, 4096⟩], ⟨0, 0#32, 0, 0, 0, 0, 0⟩,
      0x10000⟩
    stale := emptyMm }

/-- The call fails, and keeps the object and the page of the new address space, the object of its
    area, and one reference to the file. -/
theorem doExecve_keeps_space : ∃ k',
    doExecve caller (badVector ⟨true, [some 5]⟩) = some (k', -EFAULT) ∧
      (1000 ∈ k'.taken ∧ k'.objs 1000 = true) ∧ (1 ∈ k'.takenPages ∧ k'.pages 1 = true) ∧
      (k'.inodes.mInodes 1).iCount = 1 ∧ ¬ Atomic caller k' := by
  have hrun : (doExecve caller (badVector ⟨true, [some 5]⟩)).any (fun r => r.2 == -EFAULT &&
      decide (1000 ∈ r.1.taken) && r.1.objs 1000 && decide (1 ∈ r.1.takenPages) && r.1.pages 1 &&
      (r.1.inodes.mInodes 1).iCount == 1) = true := by decide +kernel
  rcases (Option.any_eq_true _ _).mp hrun with ⟨⟨k', res⟩, hcall, hfacts⟩
  simp only [Bool.and_eq_true, beq_iff_eq, decide_eq_true_eq] at hfacts
  rcases hfacts with ⟨⟨⟨⟨⟨rfl, htaken⟩, hobj⟩, hpages⟩, hpage⟩, hcount⟩
  refine ⟨k', hcall, ⟨htaken, hobj⟩, ⟨hpages, hpage⟩, hcount, fun ha => ?_⟩
  have hfree := ha.objs 1000 htaken
  rw [hobj] at hfree
  cases hfree

/-- The file is not there. -/
theorem doExecve_exact_missing : ∃ k',
    doExecve caller (badVector ⟨true, [none]⟩) = some (k', -ENOENT) ∧ Atomic caller k' := by
  have hpath : (namei caller.inodes caller.proc.icwd ⟨true, [none]⟩).any (fun r => r.2.isNone)
      = true := by decide +kernel
  rcases (Option.any_eq_true _ _).mp hpath with ⟨⟨t, inode⟩, hpath, hnone⟩
  rcases Option.isNone_iff_eq_none.mp hnone
  have hrun : (doExecve caller (badVector ⟨true, [none]⟩)).any (fun r => r.2 == -ENOENT) = true := by
    decide +kernel
  rcases (Option.any_eq_true _ _).mp hrun with ⟨⟨k', res⟩, hcall, hres⟩
  rcases beq_iff_eq.mp hres
  exact ⟨k', hcall, (doExecve_exact hcall).mpr (.inl ⟨t, hpath⟩) (by decide)⟩

end Uniks.Execve
