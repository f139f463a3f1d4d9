/-
  `fork` when the memory runs out.

  `allocproc` asks for the page of the trapframe, the object of the `mm_struct`, the top page table
  and the tables below it; `uvm_space_copy` for an object for each area and for the tables of the
  parent; `do_fork` for the buffers of two strings.  Only the first of these requests is undone: the
  pid goes back, and nothing else has been taken.  Behind it `pcbtable` points to the new process;
  `new_mm_struct` forgets its object when there is no page table, and `allocproc` the tables when
  there is no entry for its two pages; the result of `copy_pgtable` is not looked at, and no pointer
  from `kmalloc` is tested.

  The locks are left out, and the context, which only the scheduler reads.
-/
import Uniks.Exhaustion
import Uniks.SlubInv
import Uniks.Queue

namespace Uniks.Fork

open Uniks.Phys Uniks.Vm Uniks.Hoare Uniks.Queue Uniks.Oom
open Uniks.Slub (Caches Cache carve cacheIdx slubSize SLUBNUM HEADER takeObj)
open Function (update update_self update_of_ne)
open Option (some bind_eq_some_iff)

abbrev NFD : Nat := 64
abbrev PATH_MAX : Nat := 1024
abbrev EXT2_NAME_LEN : Nat := 255
def UNIKS_MAGIC : Nat := 0x19890604

/-- `sizeof(struct mm_struct)`. -/
abbrev MM_SIZE : Nat := 96

/-- `sizeof(struct vm_area_struct)`. -/
abbrev VMA_SIZE : Nat := 72

/-! ## The data -/

/-- The C type `enum proc_state`. -/
inductive ProcState where
  | unused
  | initing
  | block
  | ready
  | running
  | zombie
  deriving DecidableEq, Repr

/-- The C type `struct trapframe_t`; the registers that nothing here stores are in `others`. -/
structure Trapframe where
  ra : Nat
  a0 : Nat
  others : Nat → Nat

/-- The C type `struct proc_t`.  A process lies behind the trapframe in the page of its kernel stack,
    and pointers to it are the number of that page; so are those to trapframes. -/
structure Proc where
  pid : Pid
  parentpid : Pid
  state : ProcState
  killed : Nat
  w4child : Nat
  priority : Nat
  ticks : Nat
  jiffies : Nat
  childList : List Nat
  cwd : Nat
  icwd : Option Nat
  fdtable : Fin NFD → Option Nat
  mm : Option Nat
  tf : Nat
  name : Nat
  magic : Nat

/-- The state of the kernel.  An `mm_struct` and a string are found by the address of their object,
    and an inode by a number. -/
structure Kernel where
  pidsQueue : QueueMeta Pid
  pcbtable : Pid → Option Nat
  proc : Nat → Proc
  trapframe : Nat → Trapframe
  slub : Caches
  mm : Nat → Mm
  str : Nat → List UInt8
  iCount : Nat → Nat
  fCount : Nat → Nat

/-- The buddy system below `kmalloc`; its ledger of blocks is not kept here. -/
def setPhys (s : Caches) (phys : Buddy) : Caches := { s with mem := { s.mem with phys := phys } }

def Kernel.phys (k : Kernel) : Buddy := k.slub.mem.phys

def Kernel.setPhys (k : Kernel) (phys : Buddy) : Kernel :=
  { k with slub := Fork.setPhys k.slub phys }

def Kernel.setProc (k : Kernel) (p : Nat) (proc : Proc) : Kernel :=
  { k with proc := update k.proc p proc }

def Kernel.setMm (k : Kernel) (ptr : Nat) (mm : Mm) : Kernel :=
  { k with mm := update k.mm ptr mm }

/-- What an assertion that fails leaves, and a store through NULL: the kernel stops. -/
def stopped {α : Type} : Except Fault α := .error .check

/-! ## Objects -/

/-- The source's `new_slub_pages_node`. -/
def newSlubPagesNode (s : Caches) (idx : Cache) : Except Fault (Caches × Option Nat) := do
  let (phys, ptr) ← allocPage s.mem.phys
  let s := setPhys s phys
  match ptr with
  | none => return (s, none)
  | some page => return (s.setNode page ⟨idx, carve idx page HEADER []⟩, some page)

/-- `kmalloc` up to its second assertion; `false` where there is no page. -/
def refill (s : Caches) (idx : Cache) : Except Fault (Caches × Bool) :=
  if (s.partiallist idx).isEmpty then do
    let (s, ptr) ← newSlubPagesNode s idx
    match ptr with
    | none => return (s, false)
    | some page => return (s.addPartial idx page, true)
  else .ok (s, true)

/-- The source's `kmalloc`. -/
def kmalloc (s : Caches) (size : Nat) : Except Fault (Caches × Option Nat) :=
  if 0 < size ∧ size ≤ slubSize.getD (SLUBNUM - 1) 0 then
    if h : cacheIdx size < SLUBNUM then do
      let (s, there) ← refill s ⟨cacheIdx size, h⟩
      if there then
        match takeObj s ⟨cacheIdx size, h⟩ with
        | some (s, ptr) => return (s, some ptr)
        | none => stopped
      else return (s, none)
    else stopped
  else stopped

/-- The source's `kfree` of an object. -/
def kfree (s : Caches) (ptr : Nat) : Except Fault Caches :=
  match Slub.kfree s (some ptr) with
  | some s => .ok s
  | none => stopped

/-! ## Pids, inodes and files -/

/-- The source's `allocpid`; `none` is -1. -/
def allocpid (k : Kernel) : Except Fault (Kernel × Option Pid) :=
  if queueEmpty k.pidsQueue then .ok (k, none)
  else
    let pid := queueFront k.pidsQueue
    match queueFrontPop k.pidsQueue with
    | some q => .ok ({ k with pidsQueue := q }, some pid)
    | none => stopped

/-- The source's `freepid`. -/
def freepid (k : Kernel) (pid : Pid) : Except Fault Kernel :=
  match queuePush k.pidsQueue pid with
  | some q => .ok { k with pidsQueue := q }
  | none => stopped

/-- The source's `idup`. -/
def idup (k : Kernel) : Option Nat → Except Fault Kernel
  | none => .ok k
  | some ip =>
    if k.iCount ip ≥ 1 then
      .ok { k with iCount := update k.iCount ip (u16 (k.iCount ip + 1)) }
    else stopped

/-- The source's `file_dup`. -/
def fileDup (k : Kernel) : Option Nat → Except Fault Kernel
  | none => .ok k
  | some fcbNo =>
    if k.fCount fcbNo ≥ 1 then
      .ok { k with fCount := update k.fCount fcbNo ((k.fCount fcbNo + 1) % 2 ^ 32) }
    else stopped

/-! ## A new process -/

/-- The source's `uvmcreate`. -/
def uvmcreate (s : Buddy) : Except Fault (Buddy × Option PageTable) := do
  let (s, ptr) ← allocPage s
  match ptr with
  | none => return (s, none)
  | some root => return (s, some (PageTable.zeroed root))

/-- The source's `new_mm_struct`.  The page table is asked for before the object is written to. -/
def newMmStruct (k : Kernel) : Except Fault (Kernel × Option Nat) := do
  let (slub, ptr) ← kmalloc k.slub MM_SIZE
  let (phys, pagetable) ← uvmcreate slub.mem.phys
  let k := { k with slub := setPhys slub phys }
  match ptr, pagetable with
  | none, _ => stopped
  | some _, none => return (k, none)
  | some mm, some pagetable =>
    return (k.setMm mm { k.mm mm with
      pagetable := pagetable, areas := [], mapCount := 0, stackMaxsize := MAXSTACK }, some mm)

/-- The source's `user_basic_pagetable`. -/
def userBasicPagetable (k : Kernel) (mm tf : Nat) : Except Fault (Kernel × Int) := do
  let (s, pt, res) ← Oom.mappages k.phys (k.mm mm).pagetable TRAMPOLINE PGSIZE .trampoline (PTE_R ||| PTE_X)
  let k := (k.setPhys s).setMm mm { k.mm mm with pagetable := pt }
  if res = -1 then return (k, -1)
  else
    let (s, pt, res) ← Oom.mappages k.phys (k.mm mm).pagetable TRAPFRAME PGSIZE (.page tf) (PTE_R ||| PTE_W)
    let k := (k.setPhys s).setMm mm { k.mm mm with pagetable := pt }
    if res = -1 then return (k, -1) else return (k, 0)

/-- The source's `allocproc` from the page of the trapframe on. -/
def setupProc (k : Kernel) (newpid : Pid) (tf : Nat) : Except Fault (Kernel × Option Nat) := do
  let k := { k with pcbtable := update k.pcbtable newpid (some tf) }
  let k := k.setProc tf { k.proc tf with pid := newpid }
  let (k, mm) ← newMmStruct k
  let k := k.setProc tf { k.proc tf with mm := mm }
  match mm with
  | none =>
    let s ← Vm.pagesFree k.phys (.page tf)
    let k ← freepid (k.setPhys s) newpid
    return (k, none)
  | some mm =>
    let k := { k with trapframe := update k.trapframe tf { k.trapframe tf with ra := 0 } }
    let k := k.setProc tf { k.proc tf with tf := tf }
    let (k, res) ← userBasicPagetable k mm tf
    if res = -1 then
      let s ← Vm.pagesFree k.phys (.page tf)
      let k := k.setPhys s
      -- `free_mm_struct` finds no areas
      let slub ← kfree k.slub mm
      let k ← freepid { k with slub := slub } newpid
      return (k, none)
    else
      let k := k.setProc tf { k.proc tf with
        state := .initing, killed := 0, w4child := 0, magic := UNIKS_MAGIC, childList := [] }
      return (k, some tf)

/-- The source's `allocproc`; `none` is NULL. -/
def allocproc (k : Kernel) : Except Fault (Kernel × Option Nat) := do
  let (k, pid) ← allocpid k
  match pid with
  | none => return (k, none)
  | some newpid =>
    let (s, ptr) ← allocPage k.phys
    let k := k.setPhys s
    match ptr with
    | none =>
      let k ← freepid k newpid
      return (k, none)
    | some tf => setupProc k newpid tf

/-! ## The copy of the address space -/

/-- The source's `copy_pgtable` on tables of the middle level; `false` is -1. -/
def copyMid (perm : Perm) (i : Idx) : List Idx → Copy → Except Fault (Copy × Bool)
  | [], c => .ok (c, true)
  | j :: js, c =>
    if (c.old.low i j).isSome then do
      let (s, new, found) ← Oom.enterLow c.phys c.new i j
      let c := { c with phys := s, new := new }
      if !found then return (c, false)
      else
        let c ← copyLow perm i j c
        copyMid perm i js c
    else copyMid perm i js c

/-- The source's `copy_pgtable` on the top tables. -/
def copyTop (perm : Perm) : List Idx → Copy → Except Fault (Copy × Bool)
  | [], c => .ok (c, true)
  | i :: is, c =>
    if (c.old.mid i).isSome then do
      let (s, new, found) ← Oom.enterMid c.phys c.new i
      let c := { c with phys := s, new := new }
      if !found then return (c, false)
      else
        let (c, copied) ← copyMid perm i (List.finRange PTENUM) c
        if copied then copyTop perm is c else return (c, false)
    else copyTop perm is c

/-- The source's `new_vmarea_struct`, which does not look at the pointer it gets. -/
def newVmareaStruct (k : Kernel) (vma : Vma) : Except Fault Kernel := do
  let (slub, ptr) ← kmalloc k.slub VMA_SIZE
  match ptr with
  | none => stopped
  | some _ => idup { k with slub := slub } vma.vmInode

/-- The loop of `uvm_space_copy` over the areas: the copy goes behind the `node`-th node. -/
def copyAreas (new : Nat) : List Vma → Nat → Kernel → Except Fault Kernel
  | [], _, k => .ok k
  | vma :: rest, node, k => do
    let k ← newVmareaStruct k vma
    copyAreas new rest (node + 1)
      (k.setMm new { k.mm new with areas := (k.mm new).areas.insertIdx node vma })

/-- The source's `uvm_space_copy`; it returns 0 whatever `copy_pgtable` returns. -/
def uvmSpaceCopy (k : Kernel) (new old : Nat) : Except Fault (Kernel × Int) := do
  let k := k.setMm new { k.mm new with
    mapCount := (k.mm old).mapCount, stackMaxsize := (k.mm old).stackMaxsize,
    startUstack := (k.mm old).startUstack, mmapBase := (k.mm old).mmapBase,
    startBrk := (k.mm old).startBrk, brk := (k.mm old).brk }
  let k ← copyAreas new (k.mm old).areas 0 k
  let (c, _) ← copyTop PTE_W (List.finRange PTENUM)
    { phys := k.phys, new := (k.mm new).pagetable, old := (k.mm old).pagetable }
  let k := k.setPhys c.phys
  let k := k.setMm new { k.mm new with pagetable := c.new }
  return (k.setMm old { k.mm old with pagetable := c.old }, 0)

/-! ## The call -/

/-- The loop of `do_fork` over the descriptors. -/
def dupFiles (parent child : Nat) : List (Fin NFD) → Kernel → Except Fault Kernel
  | [], k => .ok k
  | i :: rest, k => do
    let fd := (k.proc parent).fdtable i
    let k ← fileDup k fd
    dupFiles parent child rest
      (k.setProc child { k.proc child with fdtable := update (k.proc child).fdtable i fd })

/-- `strcpy` to a buffer from `kmalloc`. -/
def strcpy (k : Kernel) (dst : Option Nat) (src : Nat) : Except Fault (Kernel × Nat) :=
  match dst with
  | none => stopped
  | some dst => .ok ({ k with str := update k.str dst (k.str src) }, dst)

/-- The source's `do_fork` from the child's page on. -/
def fillChild (k : Kernel) (parent child : Nat) : Except Fault (Kernel × Int) :=
  match (k.proc child).mm, (k.proc parent).mm with
  | some new, some old => do
    let (k, _) ← uvmSpaceCopy k new old
    let tf := k.trapframe (k.proc parent).tf
    let k := { k with trapframe := update k.trapframe (k.proc child).tf { tf with a0 := 0 } }
    let k ← dupFiles parent child (List.finRange NFD) k
    let k ← idup k (k.proc parent).icwd
    let k := k.setProc child { k.proc child with icwd := (k.proc parent).icwd }
    let (slub, ptr) ← kmalloc k.slub PATH_MAX
    let (k, cwd) ← strcpy { k with slub := slub } ptr (k.proc parent).cwd
    let k := k.setProc child { k.proc child with cwd := cwd, parentpid := (k.proc parent).pid }
    let k := k.setProc parent { k.proc parent with childList := child :: (k.proc parent).childList }
    let k := k.setProc child { k.proc child with
      state := .ready, jiffies := (k.proc parent).jiffies, ticks := (k.proc parent).ticks,
      priority := (k.proc parent).priority }
    let (slub, ptr) ← kmalloc k.slub EXT2_NAME_LEN
    let (k, name) ← strcpy { k with slub := slub } ptr (k.proc parent).name
    let k := k.setProc child { k.proc child with name := name }
    if (k.proc parent).magic = UNIKS_MAGIC ∧ (k.proc child).magic = UNIKS_MAGIC then
      return (k, ((k.proc child).pid.val : Int))
    else stopped
  | _, _ => stopped

/-- The source's `do_fork`. -/
def doFork (k : Kernel) (parent : Nat) : Except Fault (Kernel × Int) := do
  let (k, child) ← allocproc k
  match child with
  | none => return (k, -1)
  | some child => fillChild k parent child

/-! ## Clean failure -/

/-- The objects of a page that are free; a page that is no page of objects could have all. -/
def freeObjs (s : Caches) (page : Nat) (idx : Cache) : List Nat :=
  match s.node page with
  | some n => n.objFreelist
  | none => carve idx page HEADER []

/-- All that was taken has been given back, and no process has become ready.  A page that has become
    a page of objects stays one, with all its objects free. -/
structure Restored (k k' : Kernel) : Prop where
  pcbtable : k'.pcbtable = k.pcbtable
  pids : ∀ xs, Holds k.pidsQueue xs → ∃ ys, Holds k'.pidsQueue ys ∧ ys.Perm xs
  pages : ∀ no, (k.slub.node no = none → k'.slub.node no = none) →
    (k'.phys.record no).count = (k.phys.record no).count
  objects : ∀ page n, k'.slub.node page = some n →
    n.objFreelist.Perm (freeObjs k.slub page n.kmemCacheLinked)
  inodes : k'.iCount = k.iCount
  files : k'.fCount = k.fCount
  ready : ∀ p page, k'.pcbtable p = some page → (k'.proc page).state = .ready →
    k.pcbtable p = some page ∧ (k.proc page).state = .ready

variable {k k' : Kernel} {s s' : Buddy} {c c' : Caches} {page ptr tf : Nat}

/-! ## Pages -/

/-- A page is handed out: it had no references, and has one. -/
structure Handed (s s' : Buddy) (page : Nat) : Prop where
  before : (s.record page).count = 0
  after : (s'.record page).count = 1
  others : ∀ x, x ≠ page → (s'.record x).count = (s.record x).count

/-- No page loses references. -/
def Grows (s s' : Buddy) : Prop := ∀ x, (s.record x).count ≤ (s'.record x).count

theorem Grows.refl (s : Buddy) : Grows s s := fun _ => Nat.le_refl _

theorem Grows.trans {s'' : Buddy} (h : Grows s s') (h' : Grows s' s'') : Grows s s'' :=
  fun x => (h x).trans (h' x)

theorem Handed.grows (h : Handed s s' page) : Grows s s' := by
  intro x
  by_cases hx : x = page
  · rw [hx, h.before]
    exact Nat.zero_le _
  · rw [h.others x hx]

theorem splitPages_count {targetOrder : Nat} : ∀ {order : Nat} {s s' : Buddy},
    splitPages page targetOrder order s = some s' → ∀ x, (s'.record x).count = (s.record x).count := by
  intro order
  induction order with
  | zero =>
    intro s s' h x
    rw [splitPages] at h
    split at h
    · rw [some.inj h]
    · cases h
  | succ order ih =>
    intro s s' h x
    rw [splitPages] at h
    split at h
    · rw [some.inj h]
    · dsimp only at h
      split at h
      · rw [ih h x, Buddy.setRecord_record]
        by_cases hx : x = page + 2 ^ order
        · rw [hx, update_self]
          rfl
        · rw [update_of_ne hx]
          rfl
      · cases h

theorem doRecord_handed {order : Nat} (h : doRecord s page order = some s') : Handed s s' page := by
  unfold doRecord at h
  split at h
  · rename_i hzero
    rw [← some.inj h]
    refine ⟨hzero, ?_, fun x hx => ?_⟩
    · rw [Buddy.setRecord_record, update_self]
    · rw [Buddy.setRecord_record, update_of_ne hx]
  · cases h

theorem nextThenDel_record {order : Nat} {r : Buddy × Nat} (h : s.nextThenDel order = some r) :
    r.1.record = s.record := by
  unfold Buddy.nextThenDel at h
  split at h
  · cases h
  · rw [← some.inj h]

/-- What a call for one page does. -/
theorem allocPage_ok {r : Buddy × Option Nat} (h : allocPage s = .ok r) :
    (r = (s, none) ∧ freePages s = 0) ∨
      (freePages s ≠ 0 ∧ ∃ page, r.2 = some page ∧ Handed s r.1 page) := by
  by_cases hzero : freePages s = 0
  · rw [allocPage_none hzero] at h
    exact .inl ⟨(Except.ok.inj h).symm, hzero⟩
  · refine .inr ⟨hzero, ?_⟩
    have hout : allocOut s 1 = some r := by
      unfold allocPage at h
      split at h
      · rename_i hout
        rw [hout, Except.ok.inj h]
      · cases h
    unfold allocOut at hout
    rw [if_pos ⟨Nat.one_pos, Nat.one_le_two_pow⟩, getPower2_one, Option.bind_eq_bind,
      Option.bind_some] at hout
    split at hout
    · rename_i hempty
      split at hout
      · rename_i hlarger
        -- no list has a page
        refine absurd (freePages_eq_zero.mpr fun i hi => ?_) hzero
        rcases Nat.eq_zero_or_pos i with rfl | hpos
        · exact List.isEmpty_iff.mp hempty
        · have hnot := List.find?_eq_none.mp hlarger i (List.mem_range.mpr (by omega))
          rw [Bool.and_eq_true, not_and, decide_eq_true_iff, Bool.not_eq_true'] at hnot
          exact List.isEmpty_iff.mp (Bool.of_not_eq_false (hnot hpos))
      · obtain ⟨r₁, hnext, hout⟩ := bind_eq_some_iff.mp hout
        obtain ⟨s₂, hsplit, hout⟩ := bind_eq_some_iff.mp hout
        obtain ⟨s₃, hrecord, hout⟩ := bind_eq_some_iff.mp hout
        cases hout
        have hhanded := doRecord_handed hrecord
        have hsame : ∀ x, (s₂.record x).count = (s.record x).count := fun x => by
          rw [splitPages_count hsplit x, nextThenDel_record hnext]
        exact ⟨_, rfl, (hsame _).symm.trans hhanded.before, hhanded.after,
          fun x hx => (hhanded.others x hx).trans (hsame x)⟩
    · obtain ⟨r₁, hnext, hout⟩ := bind_eq_some_iff.mp hout
      obtain ⟨s₃, hrecord, hout⟩ := bind_eq_some_iff.mp hout
      cases hout
      have hhanded := doRecord_handed hrecord
      exact ⟨_, rfl, by rw [← nextThenDel_record hnext]; exact hhanded.before, hhanded.after,
        fun x hx => by rw [← nextThenDel_record hnext]; exact hhanded.others x hx⟩

theorem allocPage_grows (s : Buddy) : Meets (fun _ => True) (allocPage s) fun r => Grows s r.1 := by
  refine .partial_intro fun r hr => ?_
  rcases allocPage_ok hr with ⟨rfl, -⟩ | ⟨-, page, -, h⟩
  · exact .refl s
  · exact h.grows

theorem enterMid_grows (s : Buddy) (pt : PageTable) (i : Idx) :
    Meets (fun _ => True) (Oom.enterMid s pt i) fun r => Grows s r.1 := by
  unfold Oom.enterMid
  split
  · exact .ok (.refl s)
  · refine (allocPage_grows s).bind ?_
    rintro ⟨s₁, ptr⟩ h
    cases ptr with
    | none => exact .pure h
    | some page => exact .pure h

theorem enterLow_grows (s : Buddy) (pt : PageTable) (i j : Idx) :
    Meets (fun _ => True) (Oom.enterLow s pt i j) fun r => Grows s r.1 := by
  unfold Oom.enterLow
  split
  · exact .ok (.refl s)
  · refine (allocPage_grows s).bind ?_
    rintro ⟨s₁, ptr⟩ h
    cases ptr with
    | none => exact .pure h
    | some page => exact .pure h

theorem walk_grows (s : Buddy) (pt : PageTable) (va : Nat) :
    Meets (fun _ => True) (Oom.walk s pt va) fun r => Grows s r.1 := by
  unfold Oom.walk
  refine .ite (fun _ => ?_) fun _ => .error trivial
  refine (enterMid_grows s pt _).bind ?_
  rintro ⟨s₁, pt₁, found⟩ h
  refine .ite (fun _ => ?_) fun _ => .pure h
  exact (enterLow_grows s₁ pt₁ _ _).mono fun r hr => Grows.trans h hr

theorem mappages_grows (s : Buddy) (pt : PageTable) (va size : Nat) (pa : Frame) (perm : Perm) :
    Meets (fun _ => True) (Oom.mappages s pt va size pa perm) fun r => Grows s r.1 := by
  have hloop : ∀ n s pt a pa, Meets (fun _ => True) (Oom.mappagesLoop va perm n s pt a pa)
      fun r => Grows s r.1 := by
    intro n
    induction n with
    | zero =>
      intro s pt a pa
      exact .ok (.refl s)
    | succ n ih =>
      intro s pt a pa
      rw [Oom.mappagesLoop]
      refine (walk_grows s pt a).bind ?_
      rintro ⟨s₁, pt₁, found⟩ h
      refine .ite (fun _ => .pure h) fun _ => ?_
      refine .ite (fun _ => .error trivial) fun _ => ?_
      exact (ih s₁ _ _ _).mono fun r hr => Grows.trans h hr
  unfold Oom.mappages
  exact .ite (fun _ => .error trivial) fun _ => hloop _ _ _ _ _

/-- The lists change in a merge, and no record. -/
theorem mergePages_record : ∀ {left : Nat} {s s' : Buddy} {page order : Nat},
    mergePages left s page order = some s' → s'.record = s.record := by
  intro left
  induction left with
  | zero =>
    intro s s' page order h
    cases h
  | succ left ih =>
    intro s s' page order h
    rw [mergePages] at h
    obtain ⟨buddy, -, h⟩ := bind_eq_some_iff.mp h
    split at h
    · obtain ⟨s₁, hdel, h⟩ := bind_eq_some_iff.mp h
      rw [ih h]
      unfold Buddy.listDel at hdel
      split at hdel
      · rw [← some.inj hdel]
      · cases hdel
    · rw [← some.inj h]
      rfl

/-- Only the page given back loses a reference. -/
theorem pagesFree_others (h : Vm.pagesFree s (.page page) = .ok s') (x : Nat) (hx : x ≠ page) :
    (s'.record x).count = (s.record x).count := by
  have hfree : Phys.pagesFree s page = some s' := by
    rw [Vm.pagesFree] at h
    split at h
    · rename_i hfree
      rw [hfree, Except.ok.inj h]
    · cases h
  unfold Phys.pagesFree at hfree
  dsimp only at hfree
  split at hfree
  · split at hfree
    · rw [mergePages_record hfree, Buddy.setRecord_record, update_of_ne hx]
    · rw [← some.inj hfree, Buddy.setRecord_record, update_of_ne hx]
  · cases hfree

/-! ## Objects -/

/-- The pages of objects are in use. -/
def InUse (s : Caches) : Prop :=
  ∀ page n, s.node page = some n → 0 < (s.mem.phys.record page).count

theorem inUse_of_inv {objs : Nat → Option Nat} (h : Slub.SlubInv c objs) : InUse c := by
  intro page n hn
  rw [h.buddy.live_record page _ (h.held page n hn)]
  exact Nat.one_pos

/-- One object of a page is no longer free. -/
def Took (c c' : Caches) : Prop := ∃ page n, c'.node page = some n ∧
  n.objFreelist.length + 1 = (freeObjs c page n.kmemCacheLinked).length

/-- A page that has no header gets none as long as nobody has it. -/
def Headers (c c' : Caches) : Prop := ∀ page, c.node page = none →
  c'.node page = none ∨ 0 < (c'.mem.phys.record page).count

theorem takeObj_ok {idx : Cache} (h : takeObj c idx = some (c', ptr)) :
    ∃ page pages n rest, c.partiallist idx = page :: pages ∧ c.node page = some n ∧
      n.objFreelist = ptr :: rest ∧ c'.mem = c.mem ∧
      c'.node = update c.node page (some { n with objFreelist := rest }) := by
  unfold takeObj at h
  split at h
  · cases h
  · rename_i page pages hlist
    obtain ⟨n, hn, h⟩ := bind_eq_some_iff.mp h
    split at h
    · cases h
    · rename_i ptr' rest hfree
      have heq := some.inj h
      obtain ⟨rfl, rfl⟩ : _ = c' ∧ ptr' = ptr := Prod.mk.inj heq
      refine ⟨page, pages, n, rest, hlist, hn, hfree, ?_, ?_⟩
      · split <;> rfl
      · split <;> rfl

theorem refill_ok {idx : Cache} {r : Caches × Bool} (h : refill c idx = .ok r) :
    (r = (c, true) ∧ c.partiallist idx ≠ []) ∨ (r = (c, false) ∧ freePages c.mem.phys = 0) ∨
      ∃ phys page, Handed c.mem.phys phys page ∧ r = (((setPhys c phys).setNode page
        ⟨idx, carve idx page HEADER []⟩).addPartial idx page, true) := by
  unfold refill at h
  split at h
  · rename_i hempty
    unfold newSlubPagesNode at h
    cases hrun : allocPage c.mem.phys with
    | error e =>
      rw [hrun] at h
      cases h
    | ok q =>
      obtain ⟨phys, o⟩ := q
      rw [hrun] at h
      rcases allocPage_ok hrun with ⟨heq, hzero⟩ | ⟨-, page, hpage, hhanded⟩
      · cases heq
        exact .inr (.inl ⟨(Except.ok.inj h).symm, hzero⟩)
      · obtain rfl : o = some page := hpage
        exact .inr (.inr ⟨phys, page, hhanded, (Except.ok.inj h).symm⟩)
  · rename_i hsome
    refine .inl ⟨(Except.ok.inj h).symm, fun hnil => hsome ?_⟩
    rw [hnil]
    rfl

theorem addPartial_self (c : Caches) (idx : Cache) (page : Nat) :
    (c.addPartial idx page).partiallist idx = page :: c.partiallist idx := update_self ..

theorem addPartial_node (c : Caches) (idx : Cache) (page q : Nat) (n : Slub.SlubPagesNode) :
    ((c.setNode page n).addPartial idx q).node page = some n := update_self ..

/-- An object is taken off a page that has been in the cache, or has come in. -/
theorem kmalloc_some (hin : InUse c) {size : Nat} (h : kmalloc c size = .ok (c', some ptr)) :
    Took c c' ∧ Grows c.mem.phys c'.mem.phys ∧ Headers c c' := by
  unfold kmalloc at h
  split at h
  · split at h
    · obtain ⟨⟨c₁, there⟩, hrefill, h⟩ := ok_of_bind h
      dsimp only at h
      split at h
      · split at h
        · rename_i c₂ ptr₂ htake
          obtain ⟨rfl, hptr⟩ : c₂ = c' ∧ some ptr₂ = some ptr := Prod.mk.inj (Except.ok.inj h)
          cases hptr
          obtain ⟨page, pages, n, rest, hlist, hn, hfree, hmem, hnode⟩ := takeObj_ok htake
          have hself : c₂.node page = some { n with objFreelist := rest } := by
            rw [hnode, update_self]
          have hother : ∀ x, x ≠ page → c₂.node x = c₁.node x := fun x hx => by
            rw [hnode, update_of_ne hx]
          rcases refill_ok hrefill with ⟨heq, -⟩ | ⟨heq, -⟩ | ⟨phys, new, hhanded, heq⟩
          · cases heq
            refine ⟨⟨page, _, hself, ?_⟩, ?_, fun x hx => .inl ?_⟩
            · rw [freeObjs, hn]
              show rest.length + 1 = n.objFreelist.length
              rw [hfree, List.length_cons]
            · rw [hmem]
              exact .refl _
            · have hne : x ≠ page := by
                rintro rfl
                exact nomatch hx.symm.trans hn
              rw [hother x hne, hx]
          · cases heq
            rename_i htrue
            exact absurd htrue Bool.false_ne_true
          · cases heq
            -- the new page is the first on the list
            rw [addPartial_self] at hlist
            obtain ⟨rfl, -⟩ := List.cons.inj hlist
            rw [addPartial_node] at hn
            cases hn
            have hnone : c.node new = none := by
              cases hc : c.node new with
              | none => rfl
              | some old => exact absurd hhanded.before (hin new old hc).ne'
            have hphys : c₂.mem.phys = phys := by
              rw [hmem]
              rfl
            refine ⟨⟨new, _, hself, ?_⟩, ?_, fun x hx => ?_⟩
            · rw [freeObjs, hnone]
              show rest.length + 1 = (carve _ new HEADER []).length
              rw [← List.length_cons, ← hfree]
            · rw [hphys]
              exact hhanded.grows
            · by_cases hxn : x = new
              · rw [hphys, hxn, hhanded.after]
                exact .inr Nat.one_pos
              · refine .inl ((hother x hxn).trans ?_)
                rw [← hx]
                exact update_of_ne hxn _ _
        · cases h
      · cases h
    · cases h
  · cases h

theorem kfree_headers (h : kfree c ptr = .ok c') (hnone : c.node page = none) :
    c'.node page = none ∧ c'.mem = c.mem := by
  unfold kfree at h
  split at h
  · rename_i c₁ hfree
    cases h
    unfold Slub.kfree at hfree
    obtain ⟨n, hn, hfree⟩ := bind_eq_some_iff.mp hfree
    have hne : page ≠ ptr / Slub.PGSIZE := by
      rintro rfl
      exact nomatch hnone.symm.trans hn
    rw [← some.inj hfree]
    constructor
    · refine (update_of_ne hne _ _).trans (Eq.trans ?_ hnone)
      split <;> rfl
    · show (if n.objFreelist.isEmpty then _ else c).mem = c.mem
      split <;> rfl
  · cases h

/-! ## What is forgotten -/

/-- An object is taken and not given back, or a page that no object has come from. -/
def Leaks (k k' : Kernel) : Prop := Took k.slub k'.slub ∨ ∃ root,
  (k.phys.record root).count = 0 ∧ 0 < (k'.phys.record root).count ∧
    (k.slub.node root = none → k'.slub.node root = none)

theorem Leaks.not_restored (h : Leaks k k') : ¬ Restored k k' := by
  intro hr
  rcases h with ⟨page, n, hn, hlen⟩ | ⟨root, hbefore, hafter, hnode⟩
  · have hsame := (hr.objects page n hn).length_eq
    omega
  · have hsame := hr.pages root hnode
    omega

/-- What `new_mm_struct` leaves behind. -/
theorem newMmStruct_ok (hin : InUse k.slub) {mm : Option Nat} (h : newMmStruct k = .ok (k', mm)) :
    Grows k.phys k'.phys ∧ (mm = none → Took k.slub k'.slub) ∧
      (mm ≠ none → ∃ root, (k.phys.record root).count = 0 ∧ (k'.phys.record root).count = 1 ∧
        (k.slub.node root = none → k'.slub.node root = none)) := by
  unfold newMmStruct at h
  obtain ⟨⟨slub, ptr⟩, hkmalloc, h⟩ := ok_of_bind h
  obtain ⟨⟨phys, pagetable⟩, hcreate, h⟩ := ok_of_bind h
  cases ptr with
  | none => cases h
  | some ptr =>
    obtain ⟨htook, hgrows, hheaders⟩ := kmalloc_some hin hkmalloc
    unfold uvmcreate at hcreate
    obtain ⟨⟨s₁, o⟩, halloc, hcreate⟩ := ok_of_bind hcreate
    rcases allocPage_ok halloc with ⟨heq, -⟩ | ⟨-, root, hroot, hhanded⟩
    · cases heq
      obtain ⟨rfl, rfl⟩ : slub.mem.phys = phys ∧ none = pagetable := Prod.mk.inj (Except.ok.inj hcreate)
      obtain ⟨rfl, rfl⟩ : _ = k' ∧ none = mm := Prod.mk.inj (Except.ok.inj h)
      exact ⟨hgrows, fun _ => htook, fun hnot => absurd rfl hnot⟩
    · obtain rfl : o = some root := hroot
      obtain ⟨rfl, rfl⟩ : s₁ = phys ∧ some (PageTable.zeroed root) = pagetable :=
        Prod.mk.inj (Except.ok.inj hcreate)
      obtain ⟨rfl, rfl⟩ : _ = k' ∧ some ptr = mm := Prod.mk.inj (Except.ok.inj h)
      refine ⟨hgrows.trans hhanded.grows, fun hnot => (nomatch hnot), fun _ => ⟨root, ?_, ?_, ?_⟩⟩
      · have hle := hgrows root
        have hzero : (slub.mem.phys.record root).count = 0 := hhanded.before
        exact Nat.le_zero.mp (hzero ▸ hle)
      · exact hhanded.after
      · intro hnone
        refine (hheaders root hnone).resolve_right ?_
        rw [hhanded.before]
        exact Nat.lt_irrefl 0

theorem userBasicPagetable_ok {mm : Nat} {res : Int} (h : userBasicPagetable k mm tf = .ok (k', res)) :
    Grows k.phys k'.phys ∧ k'.slub.node = k.slub.node := by
  unfold userBasicPagetable at h
  obtain ⟨⟨s₁, pt₁, res₁⟩, hmap₁, h⟩ := ok_of_bind h
  have hgrows₁ : Grows k.phys s₁ := (mappages_grows _ _ _ _ _ _).of_ok hmap₁
  dsimp only at h
  split at h
  · obtain ⟨rfl, -⟩ : _ = k' ∧ (-1 : Int) = res := Prod.mk.inj (Except.ok.inj h)
    exact ⟨hgrows₁, rfl⟩
  · obtain ⟨⟨s₂, pt₂, res₂⟩, hmap₂, h⟩ := ok_of_bind h
    have hgrows₂ : Grows s₁ s₂ := (mappages_grows _ _ _ _ _ _).of_ok hmap₂
    have hboth := hgrows₁.trans hgrows₂
    dsimp only at h
    split at h
    · obtain ⟨rfl, -⟩ : _ = k' ∧ (-1 : Int) = res := Prod.mk.inj (Except.ok.inj h)
      exact ⟨hboth, rfl⟩
    · obtain ⟨rfl, -⟩ : _ = k' ∧ (0 : Int) = res := Prod.mk.inj (Except.ok.inj h)
      exact ⟨hboth, rfl⟩

theorem freepid_slub {pid : Pid} (h : freepid k pid = .ok k') : k'.slub = k.slub := by
  unfold freepid at h
  split at h
  · rw [← Except.ok.inj h]
  · cases h

/-- Behind the first request NULL always comes with a leak. -/
theorem setupProc_leaks (hin : InUse k.slub) (htf : 0 < (k.phys.record tf).count) {pid : Pid}
    (h : setupProc k pid tf = .ok (k', none)) : Leaks k k' := by
  unfold setupProc at h
  obtain ⟨⟨k₁, mm⟩, hmm, h⟩ := ok_of_bind h
  obtain ⟨hgrows, hnull, hroot⟩ := newMmStruct_ok (k := ({ k with pcbtable := _ } : Kernel).setProc tf _)
    hin hmm
  cases mm with
  | none =>
    obtain ⟨s, hfree, h⟩ := ok_of_bind h
    obtain ⟨k₂, hpid, h⟩ := ok_of_bind h
    cases h
    refine .inl ?_
    rw [freepid_slub hpid]
    exact hnull rfl
  | some mm =>
    obtain ⟨⟨k₂, res⟩, hbasic, h⟩ := ok_of_bind h
    obtain ⟨hgrows₂, hnode⟩ := userBasicPagetable_ok hbasic
    obtain ⟨root, hbefore, hafter, hheader⟩ := hroot (fun hnot => nomatch hnot)
    dsimp only at h
    split at h
    · obtain ⟨s, hfree, h⟩ := ok_of_bind h
      obtain ⟨slub, hkfree, h⟩ := ok_of_bind h
      obtain ⟨k₃, hpid, h⟩ := ok_of_bind h
      obtain ⟨rfl, -⟩ := Prod.mk.inj (Except.ok.inj h)
      have hslub : k₃.slub = slub := freepid_slub hpid
      -- the top page table is neither the page of the trapframe nor a page of objects
      have hne : root ≠ tf := by
        rintro rfl
        exact htf.ne' hbefore
      have hkept : 0 < (s.record root).count := by
        rw [pagesFree_others hfree root hne]
        exact Nat.lt_of_lt_of_le (hafter ▸ Nat.one_pos) (hgrows₂ root)
      have hnone : k.slub.node root = none := by
        cases hroot : k.slub.node root with
        | none => rfl
        | some n => exact absurd hbefore (hin root n hroot).ne'
      have hnone₂ : (k₂.setPhys s).slub.node root = none := (congrFun hnode root).trans (hheader hnone)
      obtain ⟨hend, hmem⟩ := kfree_headers hkfree hnone₂
      refine Or.inr ⟨root, hbefore, ?_, fun _ => ?_⟩
      · show 0 < (k₃.slub.mem.phys.record root).count
        rw [hslub, hmem]
        exact hkept
      · rw [hslub]
        exact hend
    · exact nomatch (Prod.mk.inj (Except.ok.inj h)).2

/-- With a child's page `do_fork` never returns -1. -/
theorem fillChild_ret (k : Kernel) (parent child : Nat) :
    Meets (fun _ => True) (fillChild k parent child) fun r => r.2 ≠ -1 := by
  unfold fillChild
  split
  · refine .after fun r₁ => .after fun k₁ => .after fun k₂ => .after fun r₂ => ?_
    refine .after fun r₃ => .after fun r₄ => .after fun r₅ => ?_
    refine .ite (fun _ => .pure ?_) fun _ => .error trivial
    exact fun heq => nomatch heq
  · exact .error trivial

theorem allocpid_front {pid : Pid} {xs : List Pid} (hq : Holds k.pidsQueue (pid :: xs)) :
    ∃ q, Holds q xs ∧ q.queueCapacity = k.pidsQueue.queueCapacity ∧
      allocpid k = .ok ({ k with pidsQueue := q }, some pid) := by
  obtain ⟨q, hpop⟩ := hq.frontPop_isSome
  obtain ⟨hholds, hcap⟩ := hq.frontPop hpop
  have hsome : ¬ queueEmpty k.pidsQueue = true := fun hempty =>
    List.cons_ne_nil pid xs (hq.queueEmpty_iff.mp hempty)
  refine ⟨q, hholds, hcap, ?_⟩
  unfold allocpid
  rw [if_neg hsome, hpop, hq.front]

/-- With a page for the trapframe, a call that finds no memory later on leaves something behind. -/
theorem doFork_leaks (hin : InUse k.slub) {pid : Pid} {xs : List Pid}
    (hq : Holds k.pidsQueue (pid :: xs)) (hfree : freePages k.phys ≠ 0) {parent : Nat}
    (h : doFork k parent = .ok (k', -1)) : Leaks k k' := by
  unfold doFork at h
  obtain ⟨⟨k₁, child⟩, halloc, h⟩ := ok_of_bind h
  cases child with
  | some child => exact absurd rfl ((fillChild_ret k₁ parent child).of_ok h)
  | none =>
    cases h
    obtain ⟨q, -, -, hpid⟩ := allocpid_front hq
    unfold allocproc at halloc
    rw [hpid, ok_bind] at halloc
    obtain ⟨⟨s, ptr⟩, hpage, halloc⟩ := ok_of_bind halloc
    rcases allocPage_ok hpage with ⟨-, hzero⟩ | ⟨-, tf, htf, hhanded⟩
    · exact absurd hzero hfree
    · obtain rfl : ptr = some tf := htf
      have hin₀ : InUse (({ k with pidsQueue := q } : Kernel).setPhys s).slub := fun page n hn =>
        Nat.lt_of_lt_of_le (hin page n hn) (hhanded.grows page)
      have hone : 0 < (s.record tf).count := hhanded.after ▸ Nat.one_pos
      rcases setupProc_leaks hin₀ hone halloc with htook | ⟨root, hbefore, hafter, hnode⟩
      · exact .inl htook
      · refine .inr ⟨root, ?_, hafter, hnode⟩
        have hne : root ≠ tf := by
          rintro rfl
          exact hone.ne' hbefore
        exact (hhanded.others root hne).symm.trans hbefore

/-- `fork` fails cleanly if and only if its first request finds no page. -/
theorem fork_clean_iff {objs : Nat → Option Nat} (hslub : Slub.SlubInv k.slub objs) {pid : Pid}
    {xs : List Pid} (hq : Holds k.pidsQueue (pid :: xs)) (parent : Nat) :
    (∃ k', doFork k parent = .ok (k', -1) ∧ Restored k k') ↔ freePages k.phys = 0 := by
  constructor
  · rintro ⟨k', hrun, hrestored⟩
    by_contra hfree
    exact (doFork_leaks (inUse_of_inv hslub) hq hfree hrun).not_restored hrestored
  · intro hzero
    obtain ⟨q, hholds, hcap, hpid⟩ := allocpid_front hq
    have hfits := hq.fits
    rw [List.length_cons] at hfits
    obtain ⟨q', hpush⟩ := hholds.push_isSome pid (by omega)
    obtain ⟨hback, -⟩ := hholds.push hpush
    have hrun : doFork k parent = .ok ({ k with pidsQueue := q' }, -1) := by
      unfold doFork allocproc
      rw [hpid, ok_bind]
      have hnull : allocPage ({ k with pidsQueue := q } : Kernel).phys = .ok (k.phys, none) :=
        allocPage_none hzero
      dsimp only
      rw [hnull, ok_bind]
      dsimp only
      have hgive : freepid (({ k with pidsQueue := q } : Kernel).setPhys k.phys) pid
          = .ok { k with pidsQueue := q' } := by
        unfold freepid
        have hpush : queuePush (({ k with pidsQueue := q } : Kernel).setPhys k.phys).pidsQueue pid
            = some q' := hpush
        rw [hpush]
        rfl
      rw [hgive, ok_bind]
      rfl
    refine ⟨_, hrun, rfl, fun ys hys => ⟨xs ++ [pid], hback, ?_⟩, fun _ _ => rfl, fun page n hn => ?_,
      rfl, rfl, fun p page hp hready => ⟨hp, hready⟩⟩
    · rw [← hys.contents_eq, hq.contents_eq]
      exact (List.perm_append_singleton pid xs)
    · have hn : k.slub.node page = some n := hn
      rw [freeObjs, hn]

/-- The kernel after `proc_init`, without processes. -/
def noProcs (q : QueueMeta Pid) (slub : Caches) : Kernel where
  pidsQueue := q
  pcbtable := fun _ => none
  proc := fun _ => ⟨0, 0, .unused, 0, 0, 0, 0, 0, [], 0, none, fun _ => none, none, 0, 0, 0⟩
  trapframe := fun _ => ⟨0, 0, fun _ => 0⟩
  slub := slub
  mm := fun _ => ⟨PageTable.zeroed 0, [], 0, 0, 0, 0, 0, 0⟩
  str := fun _ => []
  iCount := fun _ => 1
  fCount := fun _ => 0

/-- The first process in page 0, with its table in page 2, its `mm_struct` at 8072 and its working
    directory at 14376. -/
def oneProc (q : QueueMeta Pid) (slub : Caches) : Kernel :=
  { noProcs q slub with
    pcbtable := update (fun _ => none) 1 (some 0)
    proc := fun _ => ⟨1, 0, .running, 0, 0, 10, 10, 0, [], 14376, some 1, fun _ => none, some 8072, 0,
      0, UNIKS_MAGIC⟩
    mm := fun _ => ⟨PageTable.zeroed 2, [], 0, 0, 0, 0, 0, 0⟩
    str := fun _ => [47] }

/-- Four pages are all in use when the first process forks. -/
theorem fork_clean_iff_oneProc : ∃ (q : QueueMeta Pid) (st : Slub.State) (k' : Kernel),
    q.queueSize = 2 ∧ st.objs 8072 = some MM_SIZE ∧ st.objs 14376 = some PATH_MAX ∧
      freePages st.slub.mem.phys = 0 ∧ doFork (oneProc q st.slub) 0 = .ok (k', -1) ∧
      Restored (oneProc q st.slub) k' := by
  have hrun : Runs.Leads Slub.serve (Slub.start 4)
      [.pages (.alloc 1), .kmalloc MM_SIZE, .pages (.alloc 1), .kmalloc PATH_MAX] fun st =>
      freePages st.slub.mem.phys = 0 ∧ st.objs 8072 = some MM_SIZE ∧
        st.objs 14376 = some PATH_MAX := by
    decide +kernel
  obtain ⟨st, hreach, hzero, hmm, hcwd⟩ :=
    hrun.reaches Slub.Step Runs.anyInput fun s op s' h => ⟨trivial, Slub.serve_step s op s' h⟩
  obtain ⟨q, q', -, -, hholds, -⟩ := holds_init_pushAll (fun _ => (0 : Pid))
    (show (0 : Int) < 64 by decide) (show (([2, 3] : List Pid).length : Int) ≤ 64 by decide)
  have hslub : Slub.SlubInv (oneProc q' st.slub).slub st.objs :=
    Slub.inv_of_reaches hreach
  obtain ⟨k', hfork, hrestored⟩ := (fork_clean_iff hslub hholds 0).mpr hzero
  exact ⟨q', st, k', hholds.size, hmm, hcwd, hzero, hfork, hrestored⟩

/-! ## A half-built child -/

/-- `user_init`, and the working directory that the first `forkret` gives the process. -/
def firstProc (k : Kernel) (root : Nat) : Except Fault (Kernel × Nat) := do
  let (k, p) ← allocproc k
  match p with
  | none => stopped
  | some p =>
    match (k.proc p).mm with
    | none => stopped
    | some mm =>
      let (s, initpage) ← allocPage k.phys
      match initpage with
      | none => stopped
      | some initpage =>
        let perm := PTE_X ||| PTE_R ||| PTE_U
        let (s, pt, _) ← Oom.mappages s (k.mm mm).pagetable INITSTART PGSIZE (.page initpage) perm
        let k := k.setPhys s
        let vma : Vma := ⟨INITSTART, INITSTART + PGSIZE, perm, 0, 0, none⟩
        let k ← newVmareaStruct k vma
        let k := k.setMm mm { k.mm mm with pagetable := pt, areas := [vma], mapCount := 1 }
        let (slub, ptr) ← kmalloc k.slub PATH_MAX
        match ptr with
        | none => stopped
        | some cwd =>
          let k := { k with slub := slub, str := update k.str cwd [47] }
          return (k.setProc p { k.proc p with
            state := .running, fdtable := fun _ => none, icwd := some root, cwd := cwd }, p)

/-- Somebody else takes pages. -/
def takePages : Nat → Kernel → Except Fault Kernel
  | 0, k => .ok k
  | n + 1, k => do
    let (s, _) ← allocPage k.phys
    takePages n (k.setPhys s)

def thirtyTwo : Buddy where
  memEnd := 32
  orderarray := update (fun _ => []) 5 [0]
  record := fun _ => ⟨0, 0⟩

/-- The kernel after `proc_init` on thirty-two pages. -/
def procInit : Except Fault Kernel :=
  match (queueInit 64 fun _ => 0).bind (pushAll (List.finRange NPROC).tail) with
  | some q => .ok (noProcs q (Slub.kmemCacheInit ⟨thirtyTwo, fun _ => none⟩))
  | none => stopped

/-- The first process has forked once, and five pages are left. -/
def shortOfPages : Except Fault (Kernel × Nat) := do
  let k ← procInit
  let (k, parent) ← firstProc k 0
  let (k, _) ← doFork k parent
  let k ← takePages 11 k
  return (k, parent)

/-- The first page of the program is there. -/
def mapped (k : Kernel) (mm : Nat) : Bool := ((k.mm mm).pagetable.pte (vpn INITSTART)).valid

set_option maxRecDepth 100000 in
/-- The next fork runs out of pages in `copy_pgtable`, and the child becomes ready without its
    program. -/
theorem half_built_child_ready : ∃ k parent k' child new old,
    shortOfPages = .ok (k, parent) ∧ doFork k parent = .ok (k', 3) ∧
      k'.pcbtable 3 = some child ∧ (k'.proc child).state = .ready ∧
      (k'.proc parent).mm = some old ∧ mapped k' old = true ∧
      (k'.proc child).mm = some new ∧ mapped k' new = false := by
  have hrun : (match shortOfPages with
      | .ok (k, parent) => match doFork k parent with
        | .ok (k', ret) => ret == 3 && (k'.pcbtable 3).any fun child =>
          (k'.proc child).state == .ready && (k'.proc child).mm.any fun new =>
            (k'.proc parent).mm.any fun old => mapped k' old && !mapped k' new
        | .error _ => false
      | .error _ => false) = true := by decide +kernel
  split at hrun
  · rename_i k parent hshort
    split at hrun
    · rename_i k' ret hfork
      rw [Bool.and_eq_true, beq_iff_eq] at hrun
      obtain ⟨rfl, hrun⟩ := hrun
      obtain ⟨child, hchild, hrun⟩ := (Option.any_eq_true _ _).mp hrun
      rw [Bool.and_eq_true, beq_iff_eq] at hrun
      obtain ⟨hready, hrun⟩ := hrun
      obtain ⟨new, hnew, hrun⟩ := (Option.any_eq_true _ _).mp hrun
      obtain ⟨old, hold, hrun⟩ := (Option.any_eq_true _ _).mp hrun
      rw [Bool.and_eq_true, Bool.not_eq_true'] at hrun
      exact ⟨k, parent, k', child, new, old, hshort, hfork, hchild, hready, hold, hrun.1, hnew, hrun.2⟩
    · cases hrun
  · cases hrun

end Uniks.Fork
