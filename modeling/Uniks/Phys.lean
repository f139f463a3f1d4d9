/-
  The buddy system of `kernel/mm/phys.c`.

  A page is given by its index from `mem_start` (the macro `ADDR2ARRAYINDEX`); the region has
  `memEnd` pages.  `orderarray k` lists the heads of the free blocks of order `k`, front first, and
  `record` is `physical_page_record`.  `none` stands for a failed assertion (or `BUG()`); the last
  assertion of `pages_alloc` fails when no block is large enough.
-/
import Mathlib.Data.List.Basic
import Mathlib.Logic.Function.Basic
import Mathlib.Algebra.Order.Ring.Nat

namespace Uniks.Phys

open Function (update)

/-- The C type `struct phys_page_record_t`. -/
structure PageRecord where
  order : Nat
  count : Nat
  deriving DecidableEq, Repr

/-- The state of the buddy system. -/
structure Buddy where
  memEnd : Nat
  orderarray : Nat → List Nat
  record : Nat → PageRecord

/-- The value a `uint16_t` field takes when `n` is stored in it. -/
def u16 (n : Nat) : Nat := n % 65536

/-- Store one record. -/
def Buddy.setRecord (s : Buddy) (page : Nat) (r : PageRecord) : Buddy :=
  { s with record := update s.record page r }

@[simp] theorem Buddy.setRecord_memEnd (s : Buddy) (page : Nat) (r : PageRecord) :
    (s.setRecord page r).memEnd = s.memEnd := rfl

@[simp] theorem Buddy.setRecord_orderarray (s : Buddy) (page : Nat) (r : PageRecord) :
    (s.setRecord page r).orderarray = s.orderarray := rfl

@[simp] theorem Buddy.setRecord_record (s : Buddy) (page : Nat) (r : PageRecord) :
    (s.setRecord page r).record = update s.record page r := rfl

/-- The source's `list_add_front` on one of the order lists. -/
def Buddy.addFront (s : Buddy) (order page : Nat) : Buddy :=
  { s with orderarray := update s.orderarray order (page :: s.orderarray order) }

/-- The source's `list_del`: the node leaves the list it is on. -/
def Buddy.listDel (s : Buddy) (page : Nat) : Option Buddy :=
  if (List.range 11).any fun k => s.orderarray k |>.contains page then
    some { s with orderarray := fun k => (s.orderarray k).erase page }
  else none

/-- The source's `list_next_then_del` on one of the order lists. -/
def Buddy.nextThenDel (s : Buddy) (order : Nat) : Option (Buddy × Nat) :=
  match s.orderarray order with
  | [] => none
  | page :: pages =>
    some ({ s with orderarray := update s.orderarray order pages }, page)

/-! ## Initialisation -/

/-- The loop of `mount_orderlist`: the lists after it, and where it stops. -/
def mountLoop (order : Nat) (current : Nat) (s : Buddy) : Nat × Buddy :=
  if current + 2 ^ order ≤ s.memEnd then
    mountLoop order (current + 2 ^ order) (s.addFront order current)
  else (current, s)
termination_by s.memEnd - current
decreasing_by
  have hpos := Nat.two_pow_pos order
  simp only [Buddy.addFront]
  omega

/-- The source's `mount_orderlist`. -/
def mountOrderlist : Nat → Nat → Buddy → Buddy
  | 0, current, s => (mountLoop 0 current s).2
  | order + 1, current, s =>
    let (current, s) := mountLoop (order + 1) current s
    if current ≠ s.memEnd then mountOrderlist order current s else s

/-- The source's `buddy_system_init` on a region of `memEnd` pages. -/
def buddySystemInit (memEnd : Nat) : Buddy :=
  mountOrderlist 10 0
    { memEnd := memEnd, orderarray := fun _ => [], record := fun _ => { order := 0, count := 0 } }

/-! ## Allocation -/

/-- The source's `get_power2`. -/
def getPower2 (n : Nat) : Option Nat := (List.range 1025).find? fun i => n ≤ 2 ^ i

/-- The source's `split_pages`, on the order it has come down to. -/
def splitPages (page targetOrder : Nat) : Nat → Buddy → Option Buddy
  | 0, s => if 0 = targetOrder then some s else none
  | order + 1, s =>
    if order + 1 = targetOrder then some s
    else
      let rightHalf := page + 2 ^ order
      let s := s.addFront order rightHalf
      if (s.record rightHalf).count = 0 then
        splitPages page targetOrder order
          (s.setRecord rightHalf { s.record rightHalf with order := order })
      else none

/-- The source's `do_record`. -/
def doRecord (s : Buddy) (page order : Nat) : Option Buddy :=
  if (s.record page).count = 0 then some (s.setRecord page { order := order, count := 1 }) else none

/-- The search of `pages_alloc` for a larger block. -/
def largerOrder (s : Buddy) (order : Nat) : Option Nat :=
  (List.range 11).find? fun i => order < i && !(s.orderarray i).isEmpty

/-- The source's `pages_alloc`. -/
def pagesAlloc (s : Buddy) (npages : Nat) : Option (Buddy × Nat) := do
  if 0 < npages ∧ npages ≤ 2 ^ 10 then
    let order ← getPower2 npages
    if (s.orderarray order).isEmpty then
      let i ← largerOrder s order
      let (s, page) ← s.nextThenDel i
      let s ← splitPages page order i s
      let s ← doRecord s page order
      return (s, page)
    else
      let (s, page) ← s.nextThenDel order
      let s ← doRecord s page order
      return (s, page)
  else none

/-! ## References -/

/-- The source's `pages_dup`. -/
def pagesDup (s : Buddy) (page : Nat) : Option Buddy :=
  let r := s.record page
  if r.count ≥ 1 then some (s.setRecord page { r with count := u16 (r.count + 1) }) else none

/-- The source's `pages_undup`: the count before, and one reference less unless it is the last. -/
def pagesUndup (s : Buddy) (page : Nat) : Option (Buddy × Nat) :=
  let r := s.record page
  if r.count ≥ 1 then
    some (if r.count > 1 then s.setRecord page { r with count := r.count - 1 } else s, r.count)
  else none

/-! ## Freeing -/

/-- The source's `whois_buddy`. -/
def whoisBuddy (page order : Nat) : Option Nat :=
  if page &&& (2 ^ (order + 1) - 1) = 0 then some (page + 2 ^ order)
  else if page &&& (2 ^ (order + 1) - 1) = 2 ^ order then some (page - 2 ^ order)
  else none

/-- The test of `pages_free` whether the buddy is a free block of that order; a record outside the
    region counts as not free. -/
def buddyFree (s : Buddy) (buddy order : Nat) : Bool :=
  decide (buddy < s.memEnd) && (s.record buddy).count == 0 && (s.record buddy).order == order

/-- The loop of `pages_free` as long as it keeps to the region and to the lists: the first argument
    is how many orders are left, and a block that is to be merged beyond order 10 has no result.
    `mergePagesIn` is the loop with what happens there. -/
def mergePages : Nat → Buddy → Nat → Nat → Option Buddy
  | 0, _, _, _ => none
  | left + 1, s, page, order => do
    let buddy ← whoisBuddy page order
    if buddyFree s buddy order then
      let s ← s.listDel buddy
      mergePages left s (min page buddy) (order + 1)
    else return s.addFront order page

/-- The source's `pages_free`, with that loop. -/
def pagesFree (s : Buddy) (page : Nat) : Option Buddy :=
  let r := s.record page
  if r.count > 0 then
    let s := s.setRecord page { r with count := r.count - 1 }
    if r.count - 1 = 0 then mergePages (11 - r.order) s page r.order else some s
  else none

/-- How a `pages_free` ends: with the lists and records it leaves, in a failed assertion, or with a
    node written that is not of the buddy system. -/
inductive Ending where
  | frees (s : Buddy)
  | fails
  | strays

/-- The record that is read at an index; `behind` is what lies behind those of the region. -/
def readRecord (s : Buddy) (behind : Nat → PageRecord) (index : Nat) : PageRecord :=
  if index < s.memEnd then s.record index else behind index

/-- The loop of `pages_free` with no bound but its own test.  The first argument is how many orders
    are left up to 10. -/
def mergePagesIn (behind : Nat → PageRecord) : Nat → Buddy → Nat → Nat → Ending
  -- a block of order 11 is put on a list behind `orderarray`, or merged on
  | 0, _, _, _ => .strays
  | left + 1, s, page, order =>
    match whoisBuddy page order with
    | none => .fails
    | some buddy =>
      let r := readRecord s behind buddy
      if r.count = 0 ∧ r.order = order then
        -- what lies behind the region is the node of no list
        if buddy < s.memEnd then
          match s.listDel buddy with
          | none => .strays
          | some s => mergePagesIn behind left s (min page buddy) (order + 1)
        else .strays
      else .frees (s.addFront order page)

/-- The source's `pages_free`. -/
def pagesFreeIn (behind : Nat → PageRecord) (s : Buddy) (page : Nat) : Ending :=
  let r := s.record page
  if r.count > 0 then
    let s := s.setRecord page { r with count := r.count - 1 }
    if r.count - 1 = 0 then mergePagesIn behind (11 - r.order) s page r.order else .frees s
  else .fails

/-! ## The component with its users -/

/-- A block handed out: its order, and how many references its users hold. -/
structure LiveBlock where
  order : Nat
  refs : Nat
  deriving DecidableEq, Repr

/-- The buddy system together with what its users hold. -/
structure State where
  phys : Buddy
  live : Nat → Option LiveBlock

/-- The requests. -/
inductive Op where
  | alloc (npages : Nat)
  | dup (page : Nat)
  | undup (page : Nat)
  | free (page : Nat)

/-- The kernel's use of the buddy system: requests of at most 512 pages, and references taken and
    dropped on blocks that are held, fewer than 2^16 on each. -/
inductive Step : State → Op → State → Prop
  | alloc {s : Buddy} {live : Nat → Option LiveBlock} {npages order page : Nat} {s' : Buddy}
      (hmin : 1 ≤ npages) (hmax : npages ≤ 512) (horder : getPower2 npages = some order)
      (hrun : pagesAlloc s npages = some (s', page)) :
      Step ⟨s, live⟩ (.alloc npages) ⟨s', update live page (some ⟨order, 1⟩)⟩
  | dup {s : Buddy} {live : Nat → Option LiveBlock} {page : Nat} {b : LiveBlock} {s' : Buddy}
      (hlive : live page = some b) (hfew : b.refs + 1 < 65536) (hrun : pagesDup s page = some s') :
      Step ⟨s, live⟩ (.dup page) ⟨s', update live page (some ⟨b.order, b.refs + 1⟩)⟩
  | undup {s : Buddy} {live : Nat → Option LiveBlock} {page ret : Nat} {b : LiveBlock} {s' : Buddy}
      (hlive : live page = some b) (hrun : pagesUndup s page = some (s', ret)) :
      Step ⟨s, live⟩ (.undup page)
        ⟨s', if b.refs > 1 then update live page (some ⟨b.order, b.refs - 1⟩) else live⟩
  | free {s : Buddy} {live : Nat → Option LiveBlock} {page : Nat} {b : LiveBlock} {s' : Buddy}
      (hlive : live page = some b) (hrun : pagesFree s page = some s') :
      Step ⟨s, live⟩ (.free page)
        ⟨s', update live page
          (if b.refs - 1 = 0 then none else some ⟨b.order, b.refs - 1⟩)⟩

/-- The state after `buddy_system_init`: nothing is handed out. -/
def start (memEnd : Nat) : State := ⟨buddySystemInit memEnd, fun _ => none⟩

end Uniks.Phys
