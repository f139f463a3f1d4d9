/-
  `kmalloc` and `kfree` of `kernel/mm/phys.c`.

  Objects of thirteen sizes are carved out of single pages.  A page begins with a header
  (`struct slub_pages_node_t`), the objects of one size follow, and the free ones are linked through
  their own first bytes; the page itself is linked, through its header, to the `fulllist` or the
  `partiallist` of its size.  A list is given by the addresses of its nodes, front first.  An
  address counts from `mem_start`, which is the start of a page; `none` stands for a failed
  assertion.

  The pages come from the buddy system (`Uniks.Phys`), which the rest of the kernel uses as well.
  `mem` is its state with what it has handed out.
-/
import Uniks.Phys

namespace Uniks.Slub

open Uniks.Phys (Buddy LiveBlock)

abbrev PGSIZE : Nat := 4096

/-- `sizeof(struct slub_pages_node_t)`: a pointer and two list nodes. -/
abbrev HEADER : Nat := 40

/-- The source's `slub_size`. -/
def slubSize : List Nat := [16, 32, 48, 64, 96, 128, 192, 256, 384, 512, 768, 1024, 1536]

abbrev SLUBNUM : Nat := 13

/-- A position in `kmem_cache_array`. -/
abbrev Cache := Fin SLUBNUM

/-- The source's `obj_size`, as `kmem_cache_init` copies it from `slub_size`. -/
def objSize (idx : Cache) : Nat := slubSize.get idx

/-- The source's `struct slub_pages_node_t`, without the links of the page. -/
structure SlubPagesNode where
  kmemCacheLinked : Cache
  objFreelist : List Nat
  deriving DecidableEq, Repr

/-- The lists of every cache, and the header of every page that has one. -/
structure Caches where
  mem : Phys.State
  fulllist : Cache → List Nat
  partiallist : Cache → List Nat
  node : Nat → Option SlubPagesNode

/-- The source's `kmem_cache_init`. -/
def kmemCacheInit (mem : Phys.State) : Caches := ⟨mem, fun _ => [], fun _ => [], fun _ => none⟩

/-! ## The lists -/

def Caches.setNode (s : Caches) (page : Nat) (n : SlubPagesNode) : Caches :=
  { s with node := Function.update s.node page (some n) }

/-- `list_del(&slub_node_list)`: the page leaves the list it is on. -/
def Caches.listDel (s : Caches) (page : Nat) : Caches :=
  { s with
    fulllist := fun idx => (s.fulllist idx).erase page
    partiallist := fun idx => (s.partiallist idx).erase page }

/-- `list_add_front` on a `fulllist`. -/
def Caches.addFull (s : Caches) (idx : Cache) (page : Nat) : Caches :=
  { s with fulllist := Function.update s.fulllist idx (page :: s.fulllist idx) }

/-- `list_add_front` on a `partiallist`. -/
def Caches.addPartial (s : Caches) (idx : Cache) (page : Nat) : Caches :=
  { s with partiallist := Function.update s.partiallist idx (page :: s.partiallist idx) }

/-! ## A new page -/

theorem objSize_pos (idx : Cache) : 0 < objSize idx := by
  revert idx
  decide

/-- The carving loop of `new_slub_pages_node`, from the offset `off` on. -/
def carve (idx : Cache) (page off : Nat) (freelist : List Nat) : List Nat :=
  if off + objSize idx < PGSIZE then
    carve idx page (off + objSize idx) ((page * PGSIZE + off) :: freelist)
  else freelist
termination_by PGSIZE - off
decreasing_by
  have hpos := objSize_pos idx
  omega

/-- The source's `new_slub_pages_node`. -/
def newSlubPagesNode (s : Caches) (idx : Cache) : Option (Caches × Nat) := do
  let (phys, page) ← Phys.pagesAlloc s.mem.phys 1
  let mem : Phys.State := ⟨phys, Function.update s.mem.live page (some ⟨0, 1⟩)⟩
  return ({ s with mem := mem }.setNode page ⟨idx, carve idx page HEADER []⟩, page)

/-! ## Allocation -/

/-- The loop of `binary_search_ge`. -/
def binarySearchGe (array : Nat → Nat) (target l r : Nat) : Nat :=
  if l < r then
    let mid := (l + r) / 2
    if array mid > target then binarySearchGe array target l mid
    else if array mid = target then mid
    else binarySearchGe array target (mid + 1) r
  else l
termination_by r - l
decreasing_by all_goals omega

/-- The class of a request. -/
def cacheIdx (size : Nat) : Nat := binarySearchGe (fun i => slubSize.getD i 0) size 0 SLUBNUM

/-- `kmalloc` makes sure that there is a page with a free object. -/
def refill (s : Caches) (idx : Cache) : Option Caches :=
  if (s.partiallist idx).isEmpty then
    (newSlubPagesNode s idx).map fun (s, page) => s.addPartial idx page
  else some s

/-- An object is taken off the first page of the `partiallist`. -/
def takeObj (s : Caches) (idx : Cache) : Option (Caches × Nat) :=
  match s.partiallist idx with
  | [] => none
  | page :: _ => do
    let n ← s.node page
    match n.objFreelist with
    | [] => none
    | ptr :: rest =>
      let s := s.setNode page { n with objFreelist := rest }
      return (if rest.isEmpty then (s.listDel page).addFull n.kmemCacheLinked page else s, ptr)

/-- The source's `kmalloc`. -/
def kmalloc (s : Caches) (size : Nat) : Option (Caches × Nat) :=
  if 0 < size ∧ size ≤ slubSize.getD (SLUBNUM - 1) 0 then
    if h : cacheIdx size < SLUBNUM then
      (refill s ⟨cacheIdx size, h⟩).bind fun s => takeObj s ⟨cacheIdx size, h⟩
    else none
  else none

/-! ## Freeing -/

/-- The source's `kfree`; a `NULL` pointer is `none`. -/
def kfree (s : Caches) : Option Nat → Option Caches
  | none => some s
  | some ptr => do
    let page := ptr / PGSIZE
    let n ← s.node page
    let s := if n.objFreelist.isEmpty then (s.listDel page).addPartial n.kmemCacheLinked page else s
    return s.setNode page { n with objFreelist := ptr :: n.objFreelist }

/-! ## The allocator with its users -/

/-- `objs` are the live objects, with the size that was asked for. -/
structure State where
  slub : Caches
  objs : Nat → Option Nat

inductive Op where
  | kmalloc (size : Nat)
  | kfree (ptr : Nat)
  /-- Somebody else allocates, shares or frees pages. -/
  | pages (op : Phys.Op)

/-- The block a request to the buddy system is about. -/
def target : Phys.Op → Option Nat
  | .alloc _ => none
  | .dup page => some page
  | .undup page => some page
  | .free page => some page

/-- Requests of 1 to 1536 bytes, frees of live objects, and the other users of the buddy system, who
    only touch blocks that have been handed out to them. -/
inductive Step : State → Op → State → Prop
  | kmalloc {s s' : Caches} {objs : Nat → Option Nat} {size ptr : Nat} (hmin : 1 ≤ size)
      (hmax : size ≤ 1536) (hrun : kmalloc s size = some (s', ptr)) :
      Step ⟨s, objs⟩ (.kmalloc size) ⟨s', Function.update objs ptr (some size)⟩
  | kfree {s s' : Caches} {objs : Nat → Option Nat} {size ptr : Nat} (hlive : objs ptr = some size)
      (hrun : kfree s (some ptr) = some s') :
      Step ⟨s, objs⟩ (.kfree ptr) ⟨s', Function.update objs ptr none⟩
  | pages {s : Caches} {objs : Nat → Option Nat} {op : Phys.Op} {mem : Phys.State}
      (hother : ∀ page, target op = some page → s.node page = none)
      (hrun : Phys.Step s.mem op mem) :
      Step ⟨s, objs⟩ (.pages op) ⟨{ s with mem := mem }, objs⟩

/-- After `buddy_system_init` on a region of `memEnd` pages, and `kmem_cache_init`. -/
def start (memEnd : Nat) : State := ⟨kmemCacheInit (Phys.start memEnd), fun _ => none⟩

end Uniks.Slub
