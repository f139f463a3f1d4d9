/-
  `copyin`, `copyin_string` and `copyout` of `kernel/mm/vm.c`: bytes between a buffer of the kernel
  and the memory of a user.

  The memory is the physical one, on which the kernel runs, and the page tables lie in it: an entry
  is eight bytes of its table (`tables`), and each round of the loops looks up its page in the
  memory as the rounds before have left it.  The meaning is that of the single byte, each at the
  address that `vaddr2paddr` gives it before the call (`user_copies`).  For this the bytes that are
  written must be none of the entries that are looked up (`Clear`): a copy over the tables of its
  own range loses its way.  `walkaddr` answers 0 for a page that is not mapped, so that the page of
  physical address 0 is never a user page.
-/
import Uniks.PageWalk
import Uniks.Lib.ByteMem
import Uniks.Lib.Hoare
import Uniks.Lib.Transfer

namespace Uniks.PageWalk

open Uniks.Vm Uniks.ByteMem Uniks.Transfer

/-! ## The code -/

/-- Where an entry of a table lies. -/
def entryAt (page : Nat) (i : Idx) : Nat := page * PGSIZE + 8 * i

/-- The tables that lie in the memory. -/
def tables (mem : Bytes) : St where
  mem page i := BitVec.ofNat 64 (getLE mem (entryAt page i) 8)
  fresh := []

/-- The source's `memcpy`. -/
def memcpy : Bytes → Nat → Nat → Nat → Bytes
  | mem, _, _, 0 => mem
  | mem, dst, src, n + 1 => memcpy (Function.update mem dst (mem src)) (dst + 1) (src + 1) n

/-- The loop of `copyin` and `copyout`: between the buffer and what is left of the range. -/
def copyLoop (toUser : Bool) (pagetable : Nat) (mem : Bytes) (buf vaddr len : Nat) :
    Except Fault (Bytes × Int) :=
  if 0 < len then
    let va0 := pgRoundDown vaddr
    match walkaddr (tables mem) pagetable va0 with
    | .error e => .error e
    | .ok pa0 =>
      if pa0 = 0 then .ok (mem, -1)
      else
        let n := min (PGSIZE - (vaddr - va0)) len
        let mem := if toUser then memcpy mem (pa0 + (vaddr - va0)) buf n
          else memcpy mem buf (pa0 + (vaddr - va0)) n
        copyLoop toUser pagetable mem (buf + n) (va0 + PGSIZE) (len - n)
  else .ok (mem, 0)
termination_by len
decreasing_by
  have hlt := lt_pgRoundDown_add vaddr
  have hpage : PGSIZE = 4096 := rfl
  omega

/-- The source's `copyin`. -/
def copyin (pagetable : Nat) (mem : Bytes) (dst srcva len : Nat) : Except Fault (Bytes × Int) :=
  copyLoop false pagetable mem dst srcva len

/-- The source's `copyout`. -/
def copyout (pagetable : Nat) (mem : Bytes) (dstva src len : Nat) : Except Fault (Bytes × Int) :=
  copyLoop true pagetable mem src dstva len

/-- The inner loop of `copyin_string`: the memory, where the copy has stopped, and whether there
    was a NUL. -/
def copyChars : Nat → Bytes → Nat → Nat → Bytes × Nat × Bool
  | 0, mem, _, dst => (mem, dst, false)
  | n + 1, mem, p, dst =>
    if mem p = 0 then (Function.update mem dst 0, dst, true)
    else copyChars n (Function.update mem dst (mem p)) (p + 1) (dst + 1)

/-- The outer loop of `copyin_string`: the memory, and where the string ends in the buffer. -/
def stringLoop (pagetable : Nat) (mem : Bytes) (dst srcva max : Nat) :
    Except Fault (Bytes × Option Nat) :=
  if 0 < max then
    let va0 := pgRoundDown srcva
    match walkaddr (tables mem) pagetable va0 with
    | .error e => .error e
    | .ok pa0 =>
      if pa0 = 0 then .ok (mem, none)
      else
        let n := min (PGSIZE - (srcva - va0)) max
        match copyChars n mem (pa0 + (srcva - va0)) dst with
        | (mem, dst, true) => .ok (mem, some dst)
        | (mem, dst, false) => stringLoop pagetable mem dst (va0 + PGSIZE) (max - n)
  else .ok (mem, none)
termination_by max
decreasing_by
  have hlt := lt_pgRoundDown_add srcva
  have hpage : PGSIZE = 4096 := rfl
  omega

/-- A number as an `int32_t`. -/
def int32 (k : Nat) : Int := (BitVec.ofNat 32 k).toInt

/-- The source's `copyin_string`. -/
def copyinString (pagetable : Nat) (mem : Bytes) (dst srcva max : Nat) :
    Except Fault (Bytes × Int) :=
  match stringLoop pagetable mem dst srcva max with
  | .error e => .error e
  | .ok (mem, some last) => .ok (mem, int32 (last - dst))
  | .ok (mem, none) => .ok (mem, -1)

/-! ## What a lookup reads -/

/-- The entries that the lookup of an address reads, from a level down. -/
def lookups (s : St) (va : Nat) : Nat → Nat → List Slot
  | 0, page => [(page, px 0 va)]
  | level + 1, page =>
    (page, px (level + 1) va) ::
      if valid (s.mem page (px (level + 1) va)) then
        lookups s va level (target (s.mem page (px (level + 1) va)))
      else []

/-- A byte is one of the entries that the lookup of an address reads. -/
def Reads (mem : Bytes) (root va p : Nat) : Prop :=
  ∃ slot ∈ lookups (tables mem) va 2 root,
    entryAt slot.1 slot.2 ≤ p ∧ p < entryAt slot.1 slot.2 + 8

instance (mem : Bytes) (root va p : Nat) : Decidable (Reads mem root va p) :=
  inferInstanceAs (Decidable (∃ slot ∈ _, _))

section

variable {s s' : St} {mem mem' : Bytes} {root va page c : Nat}

theorem lookups_congr {level : Nat}
    (h : ∀ slot ∈ lookups s va level page, s'.mem slot.1 slot.2 = s.mem slot.1 slot.2) :
    lookups s' va level page = lookups s va level page ∧
      (walkLoop va false level s' page).2 = (walkLoop va false level s page).2 := by
  induction level generalizing page with
  | zero => exact ⟨rfl, rfl⟩
  | succ level ih =>
    have hfirst := h (page, px (level + 1) va) List.mem_cons_self
    simp only at hfirst
    simp only [lookups, walkLoop, enter, hfirst]
    cases hvalid : valid (s.mem page (px (level + 1) va)) with
    | false => exact ⟨rfl, rfl⟩
    | true =>
      have hrest : ∀ slot ∈ lookups s va level (target (s.mem page (px (level + 1) va))),
          s'.mem slot.1 slot.2 = s.mem slot.1 slot.2 := by
        intro slot hslot
        apply h
        rw [lookups, if_pos hvalid]
        exact List.mem_cons_of_mem _ hslot
      obtain ⟨hslots, hpage⟩ := ih hrest
      simp only [if_true]
      exact ⟨congrArg _ hslots, hpage⟩

/-- The last of these entries is the one looked for. -/
theorem mem_lookups {level : Nat} (h : (walkLoop va false level s page).2 = some c) :
    (c, px 0 va) ∈ lookups s va level page := by
  induction level generalizing page with
  | zero =>
    cases h
    exact List.mem_singleton_self _
  | succ level ih =>
    rw [walkLoop, enter] at h
    rw [lookups]
    cases hvalid : valid (s.mem page (px (level + 1) va)) with
    | false =>
      simp only [hvalid, Bool.false_eq_true, if_false] at h
      cases h
    | true =>
      simp only [hvalid, if_true] at h ⊢
      exact List.mem_cons_of_mem _ (ih h)

/-- Memories that agree on what a lookup reads have the same entries there. -/
theorem tables_congr (h : ∀ p, Reads mem root va p → mem' p = mem p) {i : Idx}
    (hslot : (page, i) ∈ lookups (tables mem) va 2 root) :
    (tables mem').mem page i = (tables mem).mem page i := by
  show BitVec.ofNat 64 (getLE mem' (entryAt page i) 8) = BitVec.ofNat 64 _
  apply congrArg
  apply getLE_congr
  intro k hk
  exact h _ ⟨(page, i), hslot, Nat.le_add_right _ k, Nat.add_lt_add_left hk _⟩

theorem entry_congr (h : ∀ p, Reads mem root va p → mem' p = mem p) :
    entry (tables mem') root va = entry (tables mem) root va := by
  have htable := (lookups_congr fun slot hslot => tables_congr h hslot).2
  unfold entry table
  rw [htable]
  cases hlow : (walkLoop va false 2 (tables mem) root).2 with
  | none => rfl
  | some page =>
    show (tables mem').mem page (px 0 va) = (tables mem).mem page (px 0 va)
    exact tables_congr h (mem_lookups hlow)

theorem reads_congr (h : ∀ p, Reads mem root va p → mem' p = mem p) (p : Nat) :
    Reads mem' root va p ↔ Reads mem root va p := by
  unfold Reads
  rw [(lookups_congr fun slot hslot => tables_congr h hslot).1]

end

/-! ## The bytes of a user -/

/-- An address in a page that the user has, other than the page of physical address 0. -/
def UserPage (s : St) (root a : Nat) : Prop :=
  valid (entry s root a) = true ∧ user (entry s root a) = true ∧ target (entry s root a) ≠ 0

instance (s : St) (root a : Nat) : Decidable (UserPage s root a) :=
  inferInstanceAs (Decidable (_ ∧ _ ∧ _))

/-- The physical address that `vaddr2paddr` gives, 0 for none. -/
def pa (s : St) (root a : Nat) : Nat := (vaddr2paddr s root a).toOption.getD 0

section

variable {s : St} {root a b va len n k : Nat} {mem : Bytes}

theorem walkaddr_user (h : UserPage s root a) (ha : a < MAXVA) :
    walkaddr s root a = .ok (pno2pa (paddr (entry s root a))) := by
  obtain ⟨hvalid, huser, -⟩ := h
  rw [walkaddr_eq s root ha, hvalid, huser]
  rfl

theorem walkaddr_not_user (h : ¬ UserPage s root a) (ha : a < MAXVA) :
    walkaddr s root a = .ok 0 := by
  rw [walkaddr_eq s root ha]
  cases hvalid : valid (entry s root a) with
  | false => rfl
  | true =>
    cases huser : user (entry s root a) with
    | false => rfl
    | true =>
      have hzero : target (entry s root a) = 0 := by
        by_contra hne
        exact h ⟨hvalid, huser, hne⟩
      rw [pno2pa_target, hzero, Nat.zero_mul, ite_self]

theorem pno2pa_ne_zero (h : UserPage s root a) : pno2pa (paddr (entry s root a)) ≠ 0 := by
  rw [pno2pa_target]
  exact Nat.mul_ne_zero h.2.2 (by decide)

theorem pa_eq (h : UserPage s root a) (ha : a < MAXVA) :
    pa s root a = a % PGSIZE + pno2pa (paddr (entry s root a)) := by
  have hcalc : vaddr2paddr s root a
      = .ok (a % PGSIZE + pno2pa (paddr (entry s root a))) := by
    unfold vaddr2paddr
    rw [walkaddr_user h ha]
    show (if pno2pa (paddr (entry s root a)) = 0 then _ else _) = _
    rw [if_neg (pno2pa_ne_zero h)]
    rfl
  unfold pa
  rw [hcalc]
  rfl

/-- The bytes of a range that are in its first page. -/
def piece (va len : Nat) : Nat := min (PGSIZE - (va - pgRoundDown va)) len

theorem piece_le (va len : Nat) : piece va len ≤ len := Nat.min_le_right _ _

theorem piece_pos (va : Nat) (h : 0 < len) : 0 < piece va len := by
  have hlt := lt_pgRoundDown_add va
  have hle := pgRoundDown_le va
  unfold piece
  omega

theorem piece_page {i : Nat} (hi : i < piece va len) : (va + i) / PGSIZE = va / PGSIZE := by
  simp only [piece, pgRoundDown, PGSIZE] at hi ⊢
  omega

/-- Behind a piece that is not the last the next page begins. -/
theorem next_page (h : piece va len < len) : pgRoundDown va + PGSIZE = va + piece va len := by
  have hlt := lt_pgRoundDown_add va
  have hle := pgRoundDown_le va
  unfold piece at h ⊢
  omega

theorem userPage_congr (ha : a < MAXVA) (hb : b < MAXVA) (hpage : a / PGSIZE = b / PGSIZE) :
    UserPage s root a ↔ UserPage s root b := by
  unfold UserPage
  rw [entry_page s root ha hb hpage]

/-- Within a page the physical addresses go along with the virtual ones. -/
theorem pa_piece {i : Nat} (h : UserPage s root va) (hend : va + len ≤ MAXVA)
    (hi : i < piece va len) : pa s root (va + i)
      = pno2pa (paddr (entry s root va)) + (va - pgRoundDown va) + i := by
  have hle := piece_le va len
  have hpage := piece_page hi
  have hentry := entry_page s root (show va + i < MAXVA by omega) (by omega) hpage
  have huser : UserPage s root (va + i) := (userPage_congr (by omega) (by omega) hpage).mpr h
  rw [pa_eq huser (by omega), hentry]
  simp only [pgRoundDown, PGSIZE] at hpage ⊢
  omega

theorem walkaddr_piece (h : UserPage s root va) (hend : va < MAXVA) :
    walkaddr s root (pgRoundDown va) = .ok (pno2pa (paddr (entry s root va))) := by
  have hle := pgRoundDown_le va
  have hpage : pgRoundDown va / PGSIZE = va / PGSIZE := by
    simp only [pgRoundDown, PGSIZE]
    omega
  have huser : UserPage s root (pgRoundDown va) :=
    (userPage_congr (by omega) hend hpage).mpr h
  rw [walkaddr_user huser (by omega), entry_page s root (by omega) hend hpage]

theorem walkaddr_no_piece (h : ¬ UserPage s root va) (hend : va < MAXVA) :
    walkaddr s root (pgRoundDown va) = .ok 0 := by
  have hle := pgRoundDown_le va
  have hpage : pgRoundDown va / PGSIZE = va / PGSIZE := by
    simp only [pgRoundDown, PGSIZE]
    omega
  apply walkaddr_not_user _ (by omega)
  intro huser
  exact h ((userPage_congr (by omega) hend hpage).mp huser)

/-! ## What a copy moves -/

/-- A run of bytes is moved by its first byte and the rest. -/
theorem transfer_run (mem : Bytes) (src dst n : Nat) :
    transfer mem (fun i => src + i) (fun i => dst + i) (n + 1)
      = transfer (Function.update mem dst (mem src)) (fun i => src + 1 + i)
        (fun i => dst + 1 + i) n := by
  rw [Nat.add_comm n 1, transfer_add]
  apply transfer_congr <;> intro i _ <;> exact (Nat.add_assoc _ _ _).symm

theorem memcpy_eq (mem : Bytes) (dst src n : Nat) :
    memcpy mem dst src n = transfer mem (fun i => src + i) (fun i => dst + i) n := by
  induction n generalizing mem dst src with
  | zero => rfl
  | succ n ih => rw [memcpy, ih, transfer_run]

/-- Where a byte of a copy comes from. -/
def source (toUser : Bool) (s : St) (root buf va i : Nat) : Nat :=
  if toUser then buf + i else pa s root (va + i)

/-- Where a byte of a copy goes to. -/
def dest (toUser : Bool) (s : St) (root buf va i : Nat) : Nat :=
  if toUser then pa s root (va + i) else buf + i

/-- The bytes of a range are moved one after another. -/
def moved (toUser : Bool) (s : St) (root : Nat) (mem : Bytes) (buf va len : Nat) : Bytes :=
  transfer mem (source toUser s root buf va) (dest toUser s root buf va) len

variable {toUser : Bool} {mem' : Bytes} {buf m : Nat}

theorem dest_false (s : St) (root buf va i : Nat) : dest false s root buf va i = buf + i := rfl

theorem source_rest (toUser : Bool) (s : St) (root buf va m i : Nat) :
    source toUser s root (buf + m) (va + m) i = source toUser s root buf va (m + i) := by
  simp only [source, Nat.add_assoc]

theorem dest_rest (toUser : Bool) (s : St) (root buf va m i : Nat) :
    dest toUser s root (buf + m) (va + m) i = dest toUser s root buf va (m + i) := by
  simp only [dest, Nat.add_assoc]

theorem moved_add (toUser : Bool) (s : St) (root : Nat) (mem : Bytes) (buf va m n : Nat) :
    moved toUser s root mem buf va (m + n)
      = moved toUser s root (moved toUser s root mem buf va m) (buf + m) (va + m) n := by
  unfold moved
  rw [transfer_add]
  apply transfer_congr
  · exact fun i _ => (source_rest toUser s root buf va m i).symm
  · exact fun i _ => (dest_rest toUser s root buf va m i).symm

/-- No byte of a range that the user has is one of the buffer. -/
def Apart (s : St) (root buf va len : Nat) : Prop :=
  ∀ i, i < len → UserPage s root (va + i) → ∀ j, j < len → pa s root (va + i) ≠ buf + j

/-- No byte that a copy writes is one that the lookups in its range read. -/
def Clear (toUser : Bool) (mem : Bytes) (root buf va len : Nat) : Prop :=
  ∀ i, i < len → UserPage (tables mem) root (va + i) → ∀ j, j < len →
    ¬ Reads mem root (va + j) (dest toUser (tables mem) root buf va i)

instance (s : St) (root buf va len : Nat) : Decidable (Apart s root buf va len) :=
  inferInstanceAs (Decidable (∀ i, i < len → _ → ∀ j, j < len → _))

instance (toUser : Bool) (mem : Bytes) (root buf va len : Nat) :
    Decidable (Clear toUser mem root buf va len) :=
  inferInstanceAs (Decidable (∀ i, i < len → _ → ∀ j, j < len → _))

/-- What the lookups in a range read is as it was. -/
def SameTables (mem mem' : Bytes) (root va len : Nat) : Prop :=
  ∀ i, i < len → ∀ p, Reads mem root (va + i) p → mem' p = mem p

theorem Apart.rest (h : Apart s root buf va len) (hm : m ≤ len) :
    Apart s root (buf + m) (va + m) (len - m) := by
  intro i hi huser j hj
  rw [Nat.add_assoc] at huser ⊢
  rw [Nat.add_assoc]
  exact h _ (by omega) huser _ (by omega)

theorem Clear.rest (h : Clear toUser mem root buf va len) (hm : m ≤ len) :
    Clear toUser mem root (buf + m) (va + m) (len - m) := by
  intro i hi huser j hj
  rw [Nat.add_assoc] at huser ⊢
  rw [dest_rest]
  exact h _ (by omega) huser _ (by omega)

theorem SameTables.refl (mem : Bytes) (root va len : Nat) : SameTables mem mem root va len :=
  fun _ _ _ _ => rfl

theorem SameTables.rest (h : SameTables mem mem' root va len) (m : Nat) :
    SameTables mem mem' root (va + m) (len - m) := by
  intro i hi p hp
  rw [Nat.add_assoc] at hp
  exact h _ (by omega) p hp

/-- What is moved leaves the tables alone. -/
theorem SameTables.moved (h : SameTables mem mem' root va len)
    (hclear : Clear toUser mem root buf va len) (hm : m ≤ len)
    (hpages : ∀ i, i < m → UserPage (tables mem) root (va + i)) :
    SameTables mem (moved toUser (tables mem) root mem' buf va m) root va len := by
  intro j hj p hp
  rw [← h j hj p hp]
  apply transfer_frame
  rintro i hi rfl
  exact hclear i (by omega) (hpages i hi) j hj hp

theorem SameTables.entry_eq (h : SameTables mem mem' root va len) {i : Nat} (hi : i < len) :
    entry (tables mem') root (va + i) = entry (tables mem) root (va + i) :=
  entry_congr fun p hp => h i hi p hp

theorem SameTables.userPage_iff (h : SameTables mem mem' root va len) {i : Nat} (hi : i < len) :
    UserPage (tables mem') root (va + i) ↔ UserPage (tables mem) root (va + i) := by
  unfold UserPage
  rw [h.entry_eq hi]

theorem SameTables.pa_eq (h : SameTables mem mem' root va len) {i : Nat} (hi : i < len) :
    pa (tables mem') root (va + i) = pa (tables mem) root (va + i) := by
  unfold pa
  rw [vaddr2paddr_congr (h.entry_eq hi)]

/-- The lookup of a round finds the page that the range has before the call. -/
theorem SameTables.walkaddr_user (h : SameTables mem mem' root va len) (hlen : 0 < len)
    (hend : va < MAXVA) (huser : UserPage (tables mem) root va) :
    walkaddr (tables mem') root (pgRoundDown va)
      = .ok (pno2pa (paddr (entry (tables mem) root va))) := by
  have hentry : entry (tables mem') root va = entry (tables mem) root va :=
    h.entry_eq (i := 0) hlen
  rw [← hentry]
  exact walkaddr_piece ((h.userPage_iff (i := 0) hlen).mpr huser) hend

theorem SameTables.walkaddr_not_user (h : SameTables mem mem' root va len) (hlen : 0 < len)
    (hend : va < MAXVA) (huser : ¬ UserPage (tables mem) root va) :
    walkaddr (tables mem') root (pgRoundDown va) = .ok 0 :=
  walkaddr_no_piece (mt (h.userPage_iff (i := 0) hlen).mp huser) hend

/-! ## The loop of `copyin` and `copyout` -/

theorem copyLoop_done (toUser : Bool) (root : Nat) (mem : Bytes) (buf va : Nat) :
    copyLoop toUser root mem buf va 0 = .ok (mem, 0) := by
  rw [copyLoop, if_neg (Nat.lt_irrefl 0)]

/-- A round of the loop in a page of the user moves the bytes of the piece. -/
theorem copyLoop_user (toUser : Bool) (buf : Nat) (hsame : SameTables mem mem' root va len)
    (h : UserPage (tables mem) root va) (hlen : 0 < len) (hend : va + len ≤ MAXVA) :
    copyLoop toUser root mem' buf va len
      = copyLoop toUser root (moved toUser (tables mem) root mem' buf va (piece va len))
        (buf + piece va len) (va + piece va len) (len - piece va len) := by
  have hmem : (if toUser then memcpy mem' (pno2pa (paddr (entry (tables mem) root va))
          + (va - pgRoundDown va)) buf (piece va len)
      else memcpy mem' buf (pno2pa (paddr (entry (tables mem) root va)) + (va - pgRoundDown va))
        (piece va len)) = moved toUser (tables mem) root mem' buf va (piece va len) := by
    unfold moved
    rw [memcpy_eq, memcpy_eq]
    cases toUser with
    | false => exact transfer_congr (fun i hi => (pa_piece h hend hi).symm) fun _ _ => rfl
    | true => exact transfer_congr (fun _ _ => rfl) fun i hi => (pa_piece h hend hi).symm
  have hpage := hsame.walkaddr_user hlen (by omega) h
  rw [copyLoop, if_pos hlen]
  simp only [hpage, if_neg (pno2pa_ne_zero h)]
  show copyLoop toUser root (if toUser then memcpy mem' (pno2pa (paddr (entry (tables mem) root va))
        + (va - pgRoundDown va)) buf (piece va len)
      else memcpy mem' buf (pno2pa (paddr (entry (tables mem) root va)) + (va - pgRoundDown va))
        (piece va len))
    (buf + piece va len) (pgRoundDown va + PGSIZE) (len - piece va len) = _
  rw [hmem]
  by_cases hmore : piece va len < len
  · rw [next_page hmore]
  · have hall : len - piece va len = 0 := Nat.sub_eq_zero_of_le (Nat.le_of_not_lt hmore)
    rw [hall, copyLoop_done, copyLoop_done]

theorem copyLoop_not_user (toUser : Bool) (buf : Nat) (hsame : SameTables mem mem' root va len)
    (h : ¬ UserPage (tables mem) root va) (hlen : 0 < len) (hend : va + len ≤ MAXVA) :
    copyLoop toUser root mem' buf va len = .ok (mem', -1) := by
  have hpage := hsame.walkaddr_not_user hlen (by omega) h
  rw [copyLoop, if_pos hlen]
  simp only [hpage, if_true]

/-- A page of the user that the range begins in is one for the whole piece. -/
theorem userPage_piece {i : Nat} (h : UserPage s root va) (hend : va + len ≤ MAXVA)
    (hi : i < piece va len) : UserPage s root (va + i) := by
  have hle := piece_le va len
  exact (userPage_congr (by omega) (by omega) (piece_page hi)).mpr h

/-- The loop moves all bytes of a range in pages of the user, and fails on any other. -/
theorem copyLoop_spec (buf : Nat) (hend : va + len ≤ MAXVA)
    (hclear : Clear toUser mem root buf va len) (hsame : SameTables mem mem' root va len) :
    (∀ i, i < len → UserPage (tables mem) root (va + i)) ∧
        copyLoop toUser root mem' buf va len
          = .ok (moved toUser (tables mem) root mem' buf va len, 0) ∨
      (¬ ∀ i, i < len → UserPage (tables mem) root (va + i)) ∧
        ∃ mem'', copyLoop toUser root mem' buf va len = .ok (mem'', -1) := by
  induction len using Nat.strongRecOn generalizing mem' buf va with
  | ind len ih =>
    by_cases hlen : 0 < len
    · by_cases huser : UserPage (tables mem) root va
      · have hpos := piece_pos va hlen
        have hle := piece_le va len
        have hwhole : piece va len + (len - piece va len) = len := Nat.add_sub_cancel' hle
        have hpages : (∀ i, i < len → UserPage (tables mem) root (va + i)) ↔
            ∀ i, i < len - piece va len →
              UserPage (tables mem) root (va + piece va len + i) := by
          constructor
          · intro hall i hi
            rw [Nat.add_assoc]
            exact hall _ (by omega)
          · intro hall i hi
            by_cases hfirst : i < piece va len
            · exact userPage_piece huser hend hfirst
            · have hrest := hall (i - piece va len) (by omega)
              rwa [Nat.add_assoc, Nat.add_sub_cancel' (by omega)] at hrest
        -- the tables are those of before the call in the next round, too
        have hkept := (hsame.moved hclear hle fun i hi => userPage_piece huser hend hi).rest
          (piece va len)
        rw [copyLoop_user toUser buf hsame huser hlen hend, hpages]
        have hnext := ih (len - piece va len) (by omega) (buf + piece va len)
          (show va + piece va len + (len - piece va len) ≤ MAXVA by omega) (hclear.rest hle) hkept
        rwa [← moved_add, hwhole] at hnext
      · right
        refine ⟨fun hall => huser (hall 0 hlen), mem', ?_⟩
        exact copyLoop_not_user toUser buf hsame huser hlen hend
    · obtain rfl : len = 0 := by omega
      left
      refine ⟨fun i hi => absurd hi (Nat.not_lt_zero i), ?_⟩
      rw [copyLoop_done]
      rfl

/-! ## The loops of `copyin_string` -/

/-- The inner loop moves the bytes up to the first NUL, or all. -/
theorem copyChars_spec (mem : Bytes) (p dst : Nat)
    (hapart : ∀ i, i < n → ∀ j, j < n → p + i ≠ dst + j) :
    (∃ k, k < n ∧ mem (p + k) = 0 ∧ (∀ i, i < k → mem (p + i) ≠ 0) ∧ copyChars n mem p dst
        = (transfer mem (fun i => p + i) (fun i => dst + i) (k + 1), dst + k, true)) ∨
      (∀ i, i < n → mem (p + i) ≠ 0) ∧ copyChars n mem p dst
        = (transfer mem (fun i => p + i) (fun i => dst + i) n, dst + n, false) := by
  induction n generalizing mem p dst with
  | zero => exact .inr ⟨fun i hi => absurd hi (Nat.not_lt_zero i), rfl⟩
  | succ n ih =>
    rw [copyChars]
    by_cases hnul : mem p = 0
    · left
      refine ⟨0, Nat.succ_pos n, hnul, fun i hi => absurd hi (Nat.not_lt_zero i), ?_⟩
      rw [if_pos hnul, transfer_run, transfer_zero, hnul]
      rfl
    · rw [if_neg hnul]
      have hkeeps : ∀ i, i < n →
          Function.update mem dst (mem p) (p + 1 + i) = mem (p + (i + 1)) := by
        intro i hi
        have hne := hapart (i + 1) (by omega) 0 (Nat.succ_pos n)
        have hother : p + 1 + i ≠ dst := by omega
        rw [Function.update_of_ne hother, Nat.add_assoc, Nat.add_comm 1 i]
      have hrest : ∀ i, i < n → ∀ j, j < n → p + 1 + i ≠ dst + 1 + j := by
        intro i hi j hj
        have hne := hapart (i + 1) (by omega) (j + 1) (by omega)
        omega
      rcases ih (Function.update mem dst (mem p)) (p + 1) (dst + 1) hrest with
        ⟨k, hk, hzero, hchars, hcopy⟩ | ⟨hchars, hcopy⟩
      · left
        refine ⟨k + 1, Nat.succ_lt_succ hk, hkeeps k hk ▸ hzero, ?_, ?_⟩
        · intro i hi
          cases i with
          | zero => exact hnul
          | succ i =>
            rw [← hkeeps i (by omega)]
            exact hchars i (by omega)
        · rw [hcopy, transfer_run mem p dst (k + 1), Nat.add_assoc dst, Nat.add_comm 1 k]
      · right
        refine ⟨?_, ?_⟩
        · intro i hi
          cases i with
          | zero => exact hnul
          | succ i =>
            rw [← hkeeps i (by omega)]
            exact hchars i (by omega)
        · rw [hcopy, transfer_run mem p dst n, Nat.add_assoc dst, Nat.add_comm 1 n]

/-- The first NUL of a user's string, in pages that the user has. -/
structure StringAt (s : St) (root : Nat) (mem : Bytes) (va max k : Nat) : Prop where
  inside : k < max
  pages : ∀ i, i ≤ k → UserPage s root (va + i)
  nul : mem (pa s root (va + k)) = 0
  chars : ∀ i, i < k → mem (pa s root (va + i)) ≠ 0

theorem StringAt.unique {max k' : Nat} (h : StringAt s root mem va max k)
    (h' : StringAt s root mem va max k') : k = k' := by
  rcases Nat.lt_trichotomy k k' with hlt | heq | hlt
  · exact absurd h.nul (h'.chars k hlt)
  · exact heq
  · exact absurd h'.nul (h.chars k' hlt)

theorem stringLoop_done (root : Nat) (mem : Bytes) (dst va : Nat) :
    stringLoop root mem dst va 0 = .ok (mem, none) := by
  rw [stringLoop, if_neg (Nat.lt_irrefl 0)]

/-- A round in a page of the user. -/
theorem stringLoop_user (dst : Nat) (hsame : SameTables mem mem' root va len)
    (h : UserPage (tables mem) root va) (hlen : 0 < len) (hend : va + len ≤ MAXVA)
    (hapart : Apart (tables mem) root dst va len) :
    (∃ k, k < piece va len ∧ mem' (pa (tables mem) root (va + k)) = 0 ∧
        (∀ i, i < k → mem' (pa (tables mem) root (va + i)) ≠ 0) ∧
        stringLoop root mem' dst va len
          = .ok (moved false (tables mem) root mem' dst va (k + 1), some (dst + k))) ∨
      (∀ i, i < piece va len → mem' (pa (tables mem) root (va + i)) ≠ 0) ∧
        stringLoop root mem' dst va len
          = stringLoop root (moved false (tables mem) root mem' dst va (piece va len))
            (dst + piece va len) (va + piece va len) (len - piece va len) := by
  have hle := piece_le va len
  have hpa := fun {i : Nat} (hi : i < piece va len) => pa_piece h hend hi
  have hapart' : ∀ i, i < piece va len → ∀ j, j < piece va len →
      pno2pa (paddr (entry (tables mem) root va)) + (va - pgRoundDown va) + i ≠ dst + j := by
    intro i hi j hj
    rw [← hpa hi]
    exact hapart i (by omega) (userPage_piece h hend hi) j (by omega)
  have hmoved : ∀ m, m ≤ piece va len → transfer mem' (fun i => pno2pa (paddr (entry (tables mem)
        root va)) + (va - pgRoundDown va) + i) (fun i => dst + i) m
      = moved false (tables mem) root mem' dst va m := fun m hm =>
    transfer_congr (fun i hi => (hpa (Nat.lt_of_lt_of_le hi hm)).symm) fun _ _ => rfl
  have hpage := hsame.walkaddr_user hlen (by omega) h
  have hround : stringLoop root mem' dst va len
      = match copyChars (piece va len) mem'
          (pno2pa (paddr (entry (tables mem) root va)) + (va - pgRoundDown va)) dst with
        | (mem, dst, true) => .ok (mem, some dst)
        | (mem, dst, false) =>
          stringLoop root mem dst (pgRoundDown va + PGSIZE) (len - piece va len) := by
    rw [stringLoop, if_pos hlen]
    simp only [hpage, if_neg (pno2pa_ne_zero h)]
    rfl
  rw [hround]
  rcases copyChars_spec mem' _ dst hapart' with ⟨k, hk, hzero, hchars, hcopy⟩ | ⟨hchars, hcopy⟩
  · left
    refine ⟨k, hk, hpa hk ▸ hzero, fun i hi => hpa (Nat.lt_trans hi hk) ▸ hchars i hi, ?_⟩
    rw [hcopy, hmoved (k + 1) hk]
  · right
    refine ⟨fun i hi => hpa hi ▸ hchars i hi, ?_⟩
    rw [hcopy, hmoved _ (Nat.le_refl _)]
    show stringLoop root _ (dst + piece va len) (pgRoundDown va + PGSIZE) _ = _
    by_cases hmore : piece va len < len
    · rw [next_page hmore]
    · have hall : len - piece va len = 0 := Nat.sub_eq_zero_of_le (Nat.le_of_not_lt hmore)
      rw [hall, stringLoop_done, stringLoop_done]

/-- Behind a piece without a NUL the string goes on as before. -/
theorem stringAt_rest (mem : Bytes) (dst : Nat) (h : UserPage s root va) (hend : va + len ≤ MAXVA)
    (hapart : Apart s root dst va len)
    (hchars : ∀ i, i < piece va len → mem (pa s root (va + i)) ≠ 0) (k : Nat) :
    StringAt s root (moved false s root mem dst va (piece va len)) (va + piece va len)
        (len - piece va len) k ↔ StringAt s root mem va len (piece va len + k) := by
  have hle := piece_le va len
  have hkeeps : ∀ i, piece va len + i < len → UserPage s root (va + (piece va len + i)) →
      moved false s root mem dst va (piece va len) (pa s root (va + piece va len + i))
        = mem (pa s root (va + (piece va len + i))) := by
    intro i hi huser
    rw [Nat.add_assoc]
    exact transfer_frame fun j hj => hapart _ hi huser j (by omega)
  constructor
  · rintro ⟨hin, hpages, hnul, hmore⟩
    have hpages' : ∀ i, i ≤ k → UserPage s root (va + (piece va len + i)) := by
      intro i hi
      rw [← Nat.add_assoc]
      exact hpages i hi
    refine ⟨by omega, ?_, ?_, ?_⟩
    · intro i hi
      by_cases hfirst : i < piece va len
      · exact userPage_piece h hend hfirst
      · have hrest := hpages' (i - piece va len) (by omega)
        rwa [Nat.add_sub_cancel' (by omega)] at hrest
    · rw [← hkeeps k (by omega) (hpages' k (Nat.le_refl k))]
      exact hnul
    · intro i hi
      by_cases hfirst : i < piece va len
      · exact hchars i hfirst
      · have hrest := hmore (i - piece va len) (by omega)
        rwa [hkeeps _ (by omega) (hpages' _ (by omega)), Nat.add_sub_cancel' (by omega)] at hrest
  · rintro ⟨hin, hpages, hnul, hmore⟩
    refine ⟨by omega, ?_, ?_, ?_⟩
    · intro i hi
      rw [Nat.add_assoc]
      exact hpages _ (by omega)
    · rw [hkeeps k hin (hpages _ (Nat.le_refl _))]
      exact hnul
    · intro i hi
      rw [hkeeps i (by omega) (hpages _ (by omega))]
      exact hmore _ (by omega)

/-- The loop moves the string with its NUL, or finds that there is none. -/
theorem stringLoop_spec (dst : Nat) (hend : va + len ≤ MAXVA)
    (hapart : Apart (tables mem) root dst va len) (hclear : Clear false mem root dst va len)
    (hsame : SameTables mem mem' root va len) :
    (∃ k, StringAt (tables mem) root mem' va len k ∧ stringLoop root mem' dst va len
        = .ok (moved false (tables mem) root mem' dst va (k + 1), some (dst + k))) ∨
      (∀ k, ¬ StringAt (tables mem) root mem' va len k) ∧
        ∃ mem'', stringLoop root mem' dst va len = .ok (mem'', none) := by
  induction len using Nat.strongRecOn generalizing mem' dst va with
  | ind len ih =>
    by_cases hlen : 0 < len
    · by_cases huser : UserPage (tables mem) root va
      · have hpos := piece_pos va hlen
        have hle := piece_le va len
        rcases stringLoop_user dst hsame huser hlen hend hapart with
          ⟨k, hk, hnul, hchars, hloop⟩ | ⟨hchars, hloop⟩
        · left
          refine ⟨k, ⟨by omega, ?_, hnul, hchars⟩, hloop⟩
          intro i hi
          exact userPage_piece huser hend (Nat.lt_of_le_of_lt hi hk)
        · have hrest := stringAt_rest mem' dst huser hend hapart hchars
          have hkept := (hsame.moved hclear hle fun i hi => userPage_piece huser hend hi).rest
            (piece va len)
          rw [hloop]
          rcases ih (len - piece va len) (by omega) (dst + piece va len) (by omega)
            (hapart.rest hle) (hclear.rest hle) hkept with ⟨k, hat, hnext⟩ | ⟨hnone, hnext⟩
          · left
            refine ⟨piece va len + k, (hrest k).mp hat, ?_⟩
            rw [hnext, ← moved_add, Nat.add_assoc, Nat.add_assoc]
          · right
            refine ⟨?_, hnext⟩
            intro k hat
            by_cases hfirst : k < piece va len
            · exact hchars k hfirst hat.nul
            · apply hnone (k - piece va len)
              rw [hrest, Nat.add_sub_cancel' (by omega)]
              exact hat
      · right
        refine ⟨fun k hat => huser (hat.pages 0 (Nat.zero_le k)), mem', ?_⟩
        have hpage := hsame.walkaddr_not_user hlen (by omega) huser
        rw [stringLoop, if_pos hlen]
        simp only [hpage, if_true]
    · obtain rfl : len = 0 := by omega
      right
      refine ⟨fun k hat => absurd hat.inside (Nat.not_lt_zero k), mem', ?_⟩
      exact stringLoop_done root mem' dst va

/-! ## Byte by byte -/

/-- A buffer in the memory of the machine, from `RAMSTART` to `PHYSTOP`. -/
def InRam (buf len : Nat) : Prop := 0x80000000 ≤ buf ∧ buf + len ≤ 0x88000000

/-- `copyin` answers 0 if all pages are the user's, and moves each byte from its address. -/
def CopiesIn (root : Nat) (mem : Bytes) (buf va len : Nat) : Prop :=
  ∃ mem' r, copyin root mem buf va len = .ok (mem', r) ∧ (r = 0 ∨ r = -1) ∧
    (r = 0 ↔ ∀ i, i < len → UserPage (tables mem) root (va + i)) ∧
    (r = 0 → (∀ i, i < len → mem' (buf + i) = mem (pa (tables mem) root (va + i))) ∧
      ∀ p, (∀ i, i < len → p ≠ buf + i) → mem' p = mem p)

/-- `copyout` answers 0 if all pages are the user's, and moves each byte to its address; of two
    bytes of the range with one address the later stays. -/
def CopiesOut (root : Nat) (mem : Bytes) (buf va len : Nat) : Prop :=
  ∃ mem' r, copyout root mem va buf len = .ok (mem', r) ∧ (r = 0 ∨ r = -1) ∧
    (r = 0 ↔ ∀ i, i < len → UserPage (tables mem) root (va + i)) ∧
    (r = 0 → (∀ i, i < len → (∀ j, j < len → i < j →
          pa (tables mem) root (va + j) ≠ pa (tables mem) root (va + i)) →
        mem' (pa (tables mem) root (va + i)) = mem (buf + i)) ∧
      ∀ p, (∀ i, i < len → p ≠ pa (tables mem) root (va + i)) → mem' p = mem p)

/-- `copyin_string` answers the length of the string and moves it with its NUL; it answers -1 if
    there is no string. -/
def FetchesString (root : Nat) (mem : Bytes) (buf va max : Nat) : Prop :=
  ∃ mem' r, copyinString root mem buf va max = .ok (mem', r) ∧
    (∀ k : Nat, r = k ↔ StringAt (tables mem) root mem va max k) ∧
    ((∀ k, ¬ StringAt (tables mem) root mem va max k) → r = -1) ∧
    ∀ k, StringAt (tables mem) root mem va max k →
      (∀ i, i ≤ k → mem' (buf + i) = mem (pa (tables mem) root (va + i))) ∧
        ∀ p, (∀ i, i ≤ k → p ≠ buf + i) → mem' p = mem p

/-- `copyin` gives back what `copyout` has moved to pages of the user. -/
def GivesBack (root : Nat) (mem : Bytes) (buf buf' va len : Nat) : Prop :=
  ∃ mem' mem'', copyout root mem va buf len = .ok (mem', 0) ∧
    copyin root mem' buf' va len = .ok (mem'', 0) ∧
    ∀ i, i < len → mem'' (buf' + i) = mem (buf + i)

theorem int32_of_lt (h : k < 2 ^ 31) : int32 k = k := by
  have hnat : (BitVec.ofNat 32 k).toNat = k := by
    rw [BitVec.toNat_ofNat]
    omega
  unfold int32
  rw [BitVec.toInt_eq_toNat_of_lt (by omega), hnat]

theorem copyin_bytewise (hend : va + len ≤ MAXVA) (hapart : Apart (tables mem) root buf va len)
    (hclear : Clear false mem root buf va len) : CopiesIn root mem buf va len := by
  rcases copyLoop_spec buf hend hclear (SameTables.refl mem root va len) with
    ⟨hpages, hcopy⟩ | ⟨hpages, mem', hcopy⟩
  · refine ⟨_, 0, hcopy, .inl rfl, iff_of_true rfl hpages, fun _ => ⟨?_, ?_⟩⟩
    · intro i hi
      exact transfer_self mem (fun i => pa (tables mem) root (va + i)) (fun i => buf + i)
        (fun i hi j hj => hapart i hi (hpages i hi) j hj)
        (fun i _ j _ heq => Nat.add_left_cancel heq) hi
    · exact fun p hp => transfer_frame hp
  · refine ⟨mem', -1, hcopy, .inr rfl, iff_of_false (by decide) hpages, ?_⟩
    exact fun hr => absurd hr (by decide)

theorem copyout_bytewise (hend : va + len ≤ MAXVA) (hapart : Apart (tables mem) root buf va len)
    (hclear : Clear true mem root buf va len) : CopiesOut root mem buf va len := by
  rcases copyLoop_spec buf hend hclear (SameTables.refl mem root va len) with
    ⟨hpages, hcopy⟩ | ⟨hpages, mem', hcopy⟩
  · refine ⟨_, 0, hcopy, .inl rfl, iff_of_true rfl hpages, fun _ => ⟨?_, ?_⟩⟩
    · intro i hi hlast
      exact transfer_last mem (fun i => buf + i) (fun i => pa (tables mem) root (va + i))
        (fun i hi j hj => (hapart j hj (hpages j hj) i hi).symm) hi hlast
    · exact fun p hp => transfer_frame hp
  · refine ⟨mem', -1, hcopy, .inr rfl, iff_of_false (by decide) hpages, ?_⟩
    exact fun hr => absurd hr (by decide)

theorem copyinString_bytewise (hend : va + len ≤ MAXVA) (hram : InRam buf len)
    (hapart : Apart (tables mem) root buf va len) (hclear : Clear false mem root buf va len) :
    FetchesString root mem buf va len := by
  rcases stringLoop_spec buf hend hapart hclear (SameTables.refl mem root va len) with
    ⟨k, hat, hloop⟩ | ⟨hnone, mem', hloop⟩
  · have hin := hat.inside
    -- no buffer of the machine is long enough for a length that is negative
    have hshort : k < 2 ^ 31 := by
      obtain ⟨hlow, hhigh⟩ := hram
      omega
    have hcall : copyinString root mem buf va len
        = .ok (moved false (tables mem) root mem buf va (k + 1), k) := by
      unfold copyinString
      rw [hloop]
      show Except.ok (_, int32 (buf + k - buf)) = _
      rw [Nat.add_sub_cancel_left, int32_of_lt hshort]
    refine ⟨_, _, hcall, ?_, fun hnone => absurd hat (hnone k), ?_⟩
    · intro k'
      constructor
      · intro heq
        rwa [← Int.ofNat.inj heq]
      · intro hat'
        rw [hat.unique hat']
    · intro k' hat'
      obtain rfl := hat'.unique hat
      refine ⟨?_, ?_⟩
      · intro i hi
        exact transfer_self mem (fun i => pa (tables mem) root (va + i)) (fun i => buf + i)
          (fun i hi j hj => hapart i (by omega) (hat.pages i (by omega)) j (by omega))
          (fun i _ j _ heq => Nat.add_left_cancel heq) (Nat.lt_succ_of_le hi)
      · exact fun p hp => transfer_frame fun i hi => hp i (Nat.le_of_lt_succ hi)
  · have hcall : copyinString root mem buf va len = .ok (mem', -1) := by
      unfold copyinString
      rw [hloop]
    refine ⟨mem', -1, hcall, ?_, fun _ => rfl, fun k hat => absurd hat (hnone k)⟩
    intro k
    exact ⟨fun heq => absurd heq (by omega), fun hat => absurd hat (hnone k)⟩

theorem SameTables.apart (h : SameTables mem mem' root va len)
    (hapart : Apart (tables mem) root buf va len) : Apart (tables mem') root buf va len := by
  intro i hi huser j hj
  rw [h.pa_eq hi]
  exact hapart i hi ((h.userPage_iff hi).mp huser) j hj

theorem SameTables.clear (h : SameTables mem mem' root va len)
    (hclear : Clear false mem root buf va len) : Clear false mem' root buf va len := by
  intro i hi huser j hj
  have hold := hclear i hi ((h.userPage_iff hi).mp huser) j hj
  rw [dest_false] at hold ⊢
  exact fun hreads => hold ((reads_congr (fun p hp => h j hj p hp) (buf + i)).mp hreads)

/-- The round trip through pages of the user. -/
theorem copyout_copyin {buf' : Nat} (hend : va + len ≤ MAXVA)
    (hpages : ∀ i, i < len → UserPage (tables mem) root (va + i))
    (hinj : ∀ i, i < len → ∀ j, j < len →
      pa (tables mem) root (va + i) = pa (tables mem) root (va + j) → i = j)
    (hapart : Apart (tables mem) root buf va len) (hclear : Clear true mem root buf va len)
    (hapart' : Apart (tables mem) root buf' va len) (hclear' : Clear false mem root buf' va len) :
    GivesBack root mem buf buf' va len := by
  obtain ⟨mem', r, hout, -, hr, hmem⟩ := copyout_bytewise hend hapart hclear
  obtain rfl := hr.mpr hpages
  obtain ⟨hbytes, hframe⟩ := hmem rfl
  have hsame : SameTables mem mem' root va len := by
    intro j hj p hp
    apply hframe
    rintro i hi rfl
    exact hclear i hi (hpages i hi) j hj hp
  obtain ⟨mem'', r', hin, -, hr', hmem'⟩ :=
    copyin_bytewise hend (hsame.apart hapart') (hsame.clear hclear')
  obtain rfl := hr'.mpr fun i hi => (hsame.userPage_iff hi).mpr (hpages i hi)
  refine ⟨mem', mem'', hout, hin, ?_⟩
  intro i hi
  rw [(hmem' rfl).1 i hi, hsame.pa_eq hi]
  apply hbytes i hi
  intro j hj hlt heq
  have hsame := hinj j hj i hi heq
  omega

/-- User copies are copies of single bytes, each at the address that `vaddr2paddr` gives it before
    the call, if the buffer is apart from the range and the copy writes none of the entries that
    translate the range. -/
theorem user_copies (root : Nat) (mem : Bytes) (buf va len : Nat) (hend : va + len ≤ MAXVA)
    (hram : InRam buf len) (hapart : Apart (tables mem) root buf va len) :
    (Clear false mem root buf va len →
      CopiesIn root mem buf va len ∧ FetchesString root mem buf va len) ∧
    (Clear true mem root buf va len → CopiesOut root mem buf va len ∧
      ∀ buf', Apart (tables mem) root buf' va len → Clear false mem root buf' va len →
        (∀ i, i < len → UserPage (tables mem) root (va + i)) →
        (∀ i, i < len → ∀ j, j < len →
          pa (tables mem) root (va + i) = pa (tables mem) root (va + j) → i = j) →
        GivesBack root mem buf buf' va len) := by
  constructor
  · intro hclear
    exact ⟨copyin_bytewise hend hapart hclear, copyinString_bytewise hend hram hapart hclear⟩
  · intro hclear
    refine ⟨copyout_bytewise hend hapart hclear, ?_⟩
    intro buf' hapart' hclear' hpages hinj
    exact copyout_copyin hend hpages hinj hapart hclear hapart' hclear'

end

/-! ## A page table in the memory -/

/-- A memory with tables in some of its pages. -/
def withTables (table : Nat → Option (Idx → Word)) (data : Bytes) : Bytes := fun p =>
  match table (p / PGSIZE) with
  | some entries =>
    leBytes (entries ⟨p % PGSIZE / 8, Nat.div_lt_of_lt_mul (Nat.mod_lt p (by decide))⟩).toNat (p % 8)
  | none => data p

/-- The tables of a user with two pages, the last ones below 2 MiB: the top table is page 0x80401,
    from which one entry each leads to pages 0x80402 and 0x80403. -/
def twoTables (low high : Word) (page : Nat) : Option (Idx → Word) :=
  if page = 0x80401 then some fun i => if i = 0 then mkPte (0x80402 * PGSIZE) 0#8 else 0#64
  else if page = 0x80402 then some fun i => if i = 0 then mkPte (0x80403 * PGSIZE) 0#8 else 0#64
  else if page = 0x80403 then some fun i => if i = 510 then low else if i = 511 then high else 0#64
  else none

/-- A memory with these tables, in which the user has two pages. -/
def userPages (c d : Nat) (data : Bytes) : Bytes :=
  withTables (twoTables (mkPte (c * PGSIZE) PTE_U) (mkPte (d * PGSIZE) PTE_U)) data

/-- The string "hi". -/
def greeting (start : Nat) : Bytes := fun p =>
  if p = start then 104 else if p = start + 1 then 105 else 0

/-- The user has pages 0x80404 and 0x80405, and the string ends in the second. -/
def twoPages : Bytes := userPages 0x80404 0x80405 (greeting 0x80404ffe)

/-- Four bytes go to the end of one page and the start of the next and come back, and the string
    there is fetched. -/
theorem user_copies_twoPages : CopiesOut 0x80401 twoPages 0x80406000 0x1feffe 4 ∧
    GivesBack 0x80401 twoPages 0x80406000 0x80407000 0x1feffe 4 ∧
    CopiesIn 0x80401 twoPages 0x80407000 0x1feffe 4 ∧
    ∃ mem', copyinString 0x80401 twoPages 0x80407000 0x1feffe 4 = .ok (mem', 2) := by
  have hpages : ∀ i, i < 4 → UserPage (tables twoPages) 0x80401 (0x1feffe + i) := by
    decide +kernel
  have hinj : ∀ i, i < 4 → ∀ j, j < 4 → pa (tables twoPages) 0x80401 (0x1feffe + i)
      = pa (tables twoPages) 0x80401 (0x1feffe + j) → i = j := by
    decide +kernel
  have hapart : Apart (tables twoPages) 0x80401 0x80406000 0x1feffe 4 := by decide +kernel
  have hapart' : Apart (tables twoPages) 0x80401 0x80407000 0x1feffe 4 := by decide +kernel
  have hin : Clear false twoPages 0x80401 0x80407000 0x1feffe 4 := by decide +kernel
  have hout : Clear true twoPages 0x80401 0x80406000 0x1feffe 4 := by decide +kernel
  obtain ⟨-, hto⟩ := user_copies 0x80401 twoPages 0x80406000 0x1feffe 4 (by decide)
    ⟨by decide, by decide⟩ hapart
  obtain ⟨hfrom, -⟩ := user_copies 0x80401 twoPages 0x80407000 0x1feffe 4 (by decide)
    ⟨by decide, by decide⟩ hapart'
  obtain ⟨hcopyout, hback⟩ := hto hout
  obtain ⟨hcopyin, mem', r, hcall, hlength, -, -⟩ := hfrom hin
  have hstring : StringAt (tables twoPages) 0x80401 twoPages 0x1feffe 4 2 := by
    constructor <;> decide +kernel
  obtain rfl := (hlength 2).mpr hstring
  exact ⟨hcopyout, hback 0x80407000 hapart' hin hpages hinj, hcopyin, mem', hcall⟩

/-! ## Where a copy is not one of its bytes -/

/-- The first page of the user is the table of its own pages. -/
def overTable : Bytes := userPages 0x80403 0x80405 fun _ => 0

/-- The first page of the user is that of physical address 0. -/
def nullPage : Bytes := userPages 0 0x80405 fun _ => 0

/-- The string is in one page. -/
def onePage : Bytes := userPages 0x80404 0x80405 (greeting 0x80404000)

/-- Where the copies are not those of the bytes: a buffer or a page of the user that is a table of
    the range loses the pages behind, a string that is copied over its own NUL is not found, and a
    user page at physical address 0 is taken for none. -/
theorem user_copies_limits :
    ((∀ i, i < 9 → UserPage (tables twoPages) 0x80401 (0x1feff8 + i)) ∧
      ∃ r, copyin 0x80401 twoPages 0x80403ff8 0x1feff8 9 = .ok r ∧ r.2 = -1) ∧
    ((∀ i, i < 9 → UserPage (tables overTable) 0x80401 (0x1feff8 + i)) ∧
      ∃ r, copyout 0x80401 overTable 0x1feff8 0x80406000 9 = .ok r ∧ r.2 = -1) ∧
    (StringAt (tables onePage) 0x80401 onePage 0x1fe000 3 2 ∧
      ∃ r, copyinString 0x80401 onePage 0x80404001 0x1fe000 3 = .ok r ∧ r.2 = -1) ∧
    valid (entry (tables nullPage) 0x80401 0x1fe000) = true ∧
      user (entry (tables nullPage) 0x80401 0x1fe000) = true ∧
      copyin 0x80401 nullPage 0x80406000 0x1fe000 1 = .ok (nullPage, -1) := by
  have hnull : ¬ UserPage (tables nullPage) 0x80401 0x1fe000 := by decide +kernel
  refine ⟨⟨by decide +kernel, by decide +kernel⟩, ⟨by decide +kernel, by decide +kernel⟩,
    ⟨by constructor <;> decide +kernel, by decide +kernel⟩, by decide +kernel, by decide +kernel, ?_⟩
  exact copyLoop_not_user false 0x80406000 (SameTables.refl nullPage 0x80401 0x1fe000 1) hnull
    (by decide) (by decide)

end Uniks.PageWalk
