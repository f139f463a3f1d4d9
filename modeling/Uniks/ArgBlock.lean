/-
  How `execve` hands its arguments over: the block at the top of the new stack.

  One pass fetches the strings and adds up `totalen`, the bytes of the strings and of the two
  arrays; so many pages are mapped below `USER_STACK_TOP`.  A second pass fills them: the pointers
  are stored at the bottom of the block through its physical address, the strings are copied behind
  the arrays through the new page table.  Both meet in the same bytes because the block is mapped
  in one piece (`Window`): a virtual address in it and its physical one have the same distance from
  the two starts.

  So the whole second pass is a run of stores into one byte memory (`physBytes`), the words growing
  from its start and the strings from where the words end.  `execve_delivers` reads the result back
  through the page table.
-/
import Uniks.Layout
import Uniks.Lib.ByteMem

namespace Uniks.Vm

open Uniks.Phys Uniks.Hoare Uniks.ByteMem
open Function (update update_self update_of_ne)

/-! ## Physical memory as bytes -/

/-- The bytes of physical memory, counted from `mem_start`. -/
def physBytes (data : Nat → Page) : Bytes := fun pa =>
  data (pa / PGSIZE) ⟨pa % PGSIZE, Nat.mod_lt _ (by decide)⟩

/-- A copy into one page is a copy into physical memory. -/
theorem physBytes_writePage (data : Nat → Page) (no off : Nat) (src : List UInt8)
    (hoff : off + src.length ≤ PGSIZE) :
    physBytes (update data no (writePage (data no) off src))
      = splice (physBytes data) (no * PGSIZE + off) src.length fun k => src.getD k 0 := by
  funext pa
  have hpa := (Nat.div_add_mod' pa PGSIZE).symm
  have hlt : pa % PGSIZE < PGSIZE := Nat.mod_lt _ (by decide)
  by_cases hno : pa / PGSIZE = no
  · have hsame : physBytes (update data no (writePage (data no) off src)) pa
        = writePage (data no) off src ⟨pa % PGSIZE, hlt⟩ := by
      unfold physBytes
      rw [hno, update_self]
    rw [hsame]
    unfold writePage
    rw [hno] at hpa
    by_cases hle : off ≤ pa % PGSIZE
    · rw [if_pos hle]
      by_cases hin : pa % PGSIZE - off < src.length
      · rw [splice_of_mem (by omega) (by omega),
          show pa - (no * PGSIZE + off) = pa % PGSIZE - off from by omega,
          List.getD_eq_getElem _ _ hin, List.getD_eq_getElem _ _ hin]
      · rw [splice_of_not_mem (by omega), List.getD_eq_default _ _ (not_lt.mp hin)]
        unfold physBytes
        rw [hno]
    · rw [if_neg hle, splice_of_not_mem (by omega)]
      unfold physBytes
      rw [hno]
  · have hsame : physBytes (update data no (writePage (data no) off src)) pa
        = physBytes data pa := by
      unfold physBytes
      rw [update_of_ne hno]
    rw [hsame, splice_of_not_mem]
    intro hin
    apply hno
    have hlow : no * PGSIZE ≤ pa := by omega
    have hhigh : pa < (no + 1) * PGSIZE := by
      rw [Nat.succ_mul]
      omega
    have hle : pa / PGSIZE < no + 1 := by
      rw [Nat.mul_comm] at hhigh
      exact Nat.div_lt_of_lt_mul hhigh
    exact Nat.le_antisymm (Nat.le_of_lt_succ hle) ((Nat.le_div_iff_mul_le (by decide)).mpr hlow)

/-- A word at an address that is a multiple of 8. -/
theorem physBytes_storeWord (data : Nat → Page) (pa w : Nat) (hpa : pa % 8 = 0) :
    physBytes (storeWord data pa w) = setLE (physBytes data) pa 8 w := by
  have hroom : pa % PGSIZE + (wordBytes w).length ≤ PGSIZE := by
    have hlen : (wordBytes w).length = 8 := by simp [wordBytes]
    have hlt : pa % PGSIZE < PGSIZE := Nat.mod_lt _ (by decide)
    have hmul : pa % PGSIZE % 8 = 0 := by
      rw [Nat.mod_mod_of_dvd _ (by decide)]
      exact hpa
    simp only [PGSIZE] at hlt hmul ⊢
    omega
  rw [storeWord, physBytes_writePage data _ _ _ hroom, Nat.div_add_mod']
  have hlen : (wordBytes w).length = 8 := by simp [wordBytes]
  rw [hlen, setLE]
  refine splice_congr (fun k hk => ?_) fun _ _ => rfl
  rw [List.getD_eq_getElem _ _ (by rw [hlen]; exact hk)]
  simp [wordBytes, leBytes]

/-! ## A range of pages mapped in one piece -/

/-- The user may read and write `n` pages from `base` on, and they are the pages from `no` on. -/
def Window (pt : PageTable) (base no n : Nat) : Prop :=
  ∀ i < n, grants (pt.pte (vpn (base + i * PGSIZE))).perm (PTE_V ||| PTE_R ||| PTE_W ||| PTE_U) = true
    ∧ (pt.pte (vpn (base + i * PGSIZE))).paddr = .page (no + i)

theorem page_mod {a : Nat} (hal : a % PGSIZE = 0) (i : Nat) : (a + i * PGSIZE) % PGSIZE = 0 := by
  rw [Nat.add_mul_mod_self_right]
  exact hal

/-- Different pages have different entries. -/
theorem vpn_page_ne {a i j : Nat} (hal : a % PGSIZE = 0) (hi : a + i * PGSIZE < MAXVA)
    (hj : a + j * PGSIZE < MAXVA) (hne : i ≠ j) : vpn (a + i * PGSIZE) ≠ vpn (a + j * PGSIZE) := by
  rw [Ne, vpn_eq_iff hi hj, pgRoundDown_of_aligned (page_mod hal i),
    pgRoundDown_of_aligned (page_mod hal j), Nat.add_left_cancel_iff]
  intro heq
  exact hne (Nat.eq_of_mul_eq_mul_right (by decide) heq)

theorem mappagesLoop_entries {va : Nat} {perm : Perm} (n : Nat) (s : Buddy) (pt : PageTable)
    (a no : Nat) (hal : a % PGSIZE = 0) (hfits : a + n * PGSIZE ≤ MAXVA) :
    Meets (fun _ => True) (mappagesLoop va perm n s pt a (.page no)) fun r =>
      (∀ i < n, r.2.pte (vpn (a + i * PGSIZE)) =
        { perm := (if va ≥ TRAMPOLINE then perm ||| PTE_G else perm) ||| PTE_V,
          unrelease := decide (va ≥ TRAPFRAME), paddr := .page (no + i) }) ∧
      ∀ v, (∀ i < n, v ≠ vpn (a + i * PGSIZE)) → r.2.pte v = pt.pte v := by
  induction n generalizing s pt a no with
  | zero => exact .ok ⟨fun i hi => absurd hi (Nat.not_lt_zero i), fun _ _ => rfl⟩
  | succ n ih =>
    have hstep : ∀ i, a + PGSIZE + i * PGSIZE = a + (i + 1) * PGSIZE := by
      intro i
      rw [Nat.succ_mul, Nat.add_assoc, Nat.add_comm PGSIZE]
    unfold mappagesLoop
    refine (walk_pte s pt a).bind fun r hr => ?_
    refine .ite (fun _ => .error trivial) fun _ => ?_
    refine (ih r.1 _ (a + PGSIZE) (no + 1) ?_ ?_).mono fun w hw => ⟨fun i hi => ?_, fun v hv => ?_⟩
    · rw [Nat.add_mod_right]
      exact hal
    · rw [hstep n]
      exact hfits
    · rcases i with _ | i
      · -- The first page, which the rest of the loop leaves alone.
        rw [Nat.zero_mul, Nat.add_zero, Nat.add_zero, hw.2, PageTable.setPte_pte, update_self]
        intro j hj
        have hne := vpn_page_ne (i := 0) (j := j + 1) hal (by simp only [PGSIZE] at *; omega)
          (by simp only [PGSIZE] at *; omega) (Nat.succ_ne_zero j).symm
        rw [Nat.zero_mul, Nat.add_zero] at hne
        rw [hstep j]
        exact hne
      · have hrest := hw.1 i (Nat.lt_of_succ_lt_succ hi)
        rw [hstep i] at hrest
        rw [hrest, show no + 1 + i = no + (i + 1) from by omega]
    · rw [hw.2 v ?_, PageTable.setPte_pte, update_of_ne ?_, hr]
      · have hfirst := hv 0 (Nat.succ_pos n)
        rw [Nat.zero_mul, Nat.add_zero] at hfirst
        exact hfirst
      · intro i hi
        rw [hstep i]
        exact hv (i + 1) (Nat.succ_lt_succ hi)

/-- Pages below the stack top are a window after they have been mapped for the user. -/
theorem mappages_window (s : Buddy) (pt : PageTable) {pageNum : Nat} (ustack : Nat)
    (hfew : pageNum ≤ MAXSTACK) :
    Meets (fun _ => True) (mappages s pt (USER_STACK_TOP - PGSIZE * pageNum) (PGSIZE * pageNum)
        (.page ustack) (PTE_W ||| PTE_R ||| PTE_U)) fun r =>
      Window r.2 (USER_STACK_TOP - PGSIZE * pageNum) ustack pageNum := by
  have htop : USER_STACK_TOP = 274877898752 := by decide
  have hmax : MAXVA = 274877906944 := by decide
  have hfew : pageNum ≤ 32 := hfew
  have hal : (USER_STACK_TOP - PGSIZE * pageNum) % PGSIZE = 0 := by
    simp only [PGSIZE]
    omega
  unfold mappages
  refine .ite (fun _ => .error trivial) fun hsize => ?_
  dsimp only
  have hcount : (pgRoundUp (pgRoundDown (USER_STACK_TOP - PGSIZE * pageNum) + PGSIZE * pageNum - 1)
      - pgRoundDown (USER_STACK_TOP - PGSIZE * pageNum)) / PGSIZE = pageNum := by
    simp only [pgRoundUp, pgRoundDown, PGSIZE] at hal hsize ⊢
    omega
  rw [hcount, pgRoundDown_of_aligned hal]
  refine (mappagesLoop_entries pageNum s pt _ ustack hal ?_).mono fun r hr i hi => ?_
  · simp only [PGSIZE]
    omega
  · rw [hr.1 i hi]
    refine ⟨?_, rfl⟩
    have hbelow : ¬ USER_STACK_TOP - PGSIZE * pageNum ≥ TRAMPOLINE := by
      have htramp : TRAMPOLINE = 274877902848 := by decide
      rw [htramp, htop]
      omega
    have hperm : grants (PTE_W ||| PTE_R ||| PTE_U ||| PTE_V)
        (PTE_V ||| PTE_R ||| PTE_W ||| PTE_U) = true := by decide
    rw [if_neg hbelow]
    exact hperm

/-- What `map_user_stack` maps. -/
theorem mapUserStack_window (s : Buddy) (mm : Mm) {pageNum : Nat} (ustack : Nat)
    (hfew : pageNum ≤ MAXSTACK) :
    Meets (fun _ => True) (mapUserStack s mm pageNum ustack) fun r =>
      Window r.2.pagetable (USER_STACK_TOP - PGSIZE * pageNum) ustack pageNum := by
  unfold mapUserStack
  refine (mappages_window s mm.pagetable ustack hfew).bind fun r hr => ?_
  have harea : ∀ (mm : Mm) (vma : Vma), Meets (fun _ => True) (addVmArea mm vma) fun mm' =>
      mm'.pagetable = mm.pagetable := by
    intro mm vma
    unfold addVmArea
    exact .ite (fun _ => .after fun _ => .pure rfl) fun _ => .error trivial
  refine (harea _ _).bind fun mm' hmm => .pure ?_
  rw [hmm]
  exact hr

/-! ## Copying into the block -/

theorem grants_window {flags : Perm}
    (h : grants flags (PTE_V ||| PTE_R ||| PTE_W ||| PTE_U) = true) :
    grants flags PTE_V = true ∧ grants flags PTE_R = true ∧ grants flags PTE_U = true :=
  ⟨grants_trans h (by decide), grants_trans h (by decide), grants_trans h (by decide)⟩

section Block

variable {pt : PageTable} {base no n : Nat}

/-- The page of an address in the block. -/
theorem Window.page (h : Window pt base no n) (hal : base % PGSIZE = 0) {va : Nat} (hlo : base ≤ va)
    (hhi : va < base + n * PGSIZE) :
    pgRoundDown va = base + (va - base) / PGSIZE * PGSIZE ∧ va % PGSIZE = (va - base) % PGSIZE
      ∧ grants (pt.pte (vpn (pgRoundDown va))).perm (PTE_V ||| PTE_R ||| PTE_W ||| PTE_U) = true
      ∧ (pt.pte (vpn (pgRoundDown va))).paddr = .page (no + (va - base) / PGSIZE) := by
  have hdown : pgRoundDown va = base + (va - base) / PGSIZE * PGSIZE := by
    simp only [pgRoundDown, PGSIZE] at *
    omega
  have hlt : (va - base) / PGSIZE < n := by
    refine Nat.div_lt_of_lt_mul ?_
    rw [Nat.mul_comm]
    omega
  obtain ⟨hgrants, hpaddr⟩ := h _ hlt
  rw [← hdown] at hgrants hpaddr
  refine ⟨hdown, ?_, hgrants, hpaddr⟩
  simp only [PGSIZE] at *
  omega

theorem Window.walkaddr (h : Window pt base no n) (hal : base % PGSIZE = 0)
    (hfits : base + n * PGSIZE ≤ MAXVA) {va : Nat} (hlo : base ≤ va) (hhi : va < base + n * PGSIZE) :
    Vm.walkaddr pt (pgRoundDown va) = .ok (some (.page (no + (va - base) / PGSIZE))) := by
  obtain ⟨-, -, hgrants, hpaddr⟩ := h.page hal hlo hhi
  obtain ⟨hvalid, -, huser⟩ := grants_window hgrants
  have hbelow : pgRoundDown va < MAXVA := by
    have hle := pgRoundDown_le va
    omega
  unfold Vm.walkaddr
  rw [if_pos hbelow]
  dsimp only
  rw [Pte.valid, Pte.user, hvalid, huser, hpaddr]
  rfl

/-- A copy to the block is a copy into physical memory, page by page. -/
theorem copyout_window (h : Window pt base no n) (hal : base % PGSIZE = 0)
    (hfits : base + n * PGSIZE ≤ MAXVA) :
    ∀ len (src : List UInt8), src.length = len → ∀ data dst, base ≤ dst →
      dst + src.length ≤ base + n * PGSIZE →
      ∃ data', copyout data pt dst src = .ok (data', 0) ∧ physBytes data'
        = splice (physBytes data) (no * PGSIZE + (dst - base)) src.length fun k => src.getD k 0 := by
  intro len
  induction len using Nat.strong_induction_on with
  | _ len ih =>
    intro src hlen data dst hlo hhi
    by_cases hsrc : src = []
    · refine ⟨data, by rw [copyout, dif_pos hsrc], ?_⟩
      rw [hsrc, List.length_nil, splice_zero]
    have hpos := List.length_pos_iff.mpr hsrc
    obtain ⟨hdown, hoff, -, -⟩ := h.page hal hlo (by omega)
    have hmod : dst % PGSIZE < PGSIZE := Nat.mod_lt _ (by decide)
    have hfirst : dst % PGSIZE + (src.take (PGSIZE - dst % PGSIZE)).length ≤ PGSIZE := by
      rw [List.length_take]
      omega
    have hpage := physBytes_writePage data (no + (dst - base) / PGSIZE) (dst % PGSIZE)
      (src.take (PGSIZE - dst % PGSIZE)) hfirst
    have hwhere : (no + (dst - base) / PGSIZE) * PGSIZE + dst % PGSIZE
        = no * PGSIZE + (dst - base) := by
      rw [Nat.add_mul, hoff, Nat.add_assoc, Nat.div_add_mod']
    rw [hwhere] at hpage
    have hdrop : (src.drop (PGSIZE - dst % PGSIZE)).length < len := by
      rw [List.length_drop]
      omega
    have hdist := Nat.div_add_mod' (dst - base) PGSIZE
    obtain ⟨data', hcopy, hbytes⟩ := ih _ hdrop (src.drop (PGSIZE - dst % PGSIZE)) rfl
      (update data (no + (dst - base) / PGSIZE)
        (writePage (data (no + (dst - base) / PGSIZE)) (dst % PGSIZE)
          (src.take (PGSIZE - dst % PGSIZE))))
      (pgRoundDown dst + PGSIZE) (by omega) (by
        have hn : (dst - base) / PGSIZE + 1 ≤ n := by
          refine Nat.div_lt_of_lt_mul ?_
          rw [Nat.mul_comm]
          omega
        have hle := Nat.mul_le_mul_right PGSIZE hn
        rw [List.length_drop]
        rw [Nat.succ_mul] at hle
        omega)
    refine ⟨data', ?_, ?_⟩
    · rw [copyout, dif_neg hsrc, h.walkaddr hal hfits hlo (by omega)]
      exact hcopy
    · rw [hbytes, hpage]
      by_cases hshort : src.length ≤ PGSIZE - dst % PGSIZE
      · rw [List.drop_eq_nil_of_le hshort, List.take_of_length_le hshort, List.length_nil,
          splice_zero]
      · have htake : (src.take (PGSIZE - dst % PGSIZE)).length = PGSIZE - dst % PGSIZE := by
          rw [List.length_take]
          omega
        have hnext : no * PGSIZE + (pgRoundDown dst + PGSIZE - base)
            = no * PGSIZE + (dst - base) + (PGSIZE - dst % PGSIZE) := by
          have hback : pgRoundDown dst + PGSIZE = dst + (PGSIZE - dst % PGSIZE) := by
            have hle := Nat.mod_le dst PGSIZE
            unfold pgRoundDown
            omega
          rw [hback, Nat.sub_add_comm hlo, Nat.add_assoc]
        have hsum : PGSIZE - dst % PGSIZE + (src.drop (PGSIZE - dst % PGSIZE)).length = src.length := by
          rw [List.length_drop]
          omega
        rw [htake, hnext]
        conv_rhs => rw [← hsum]
        rw [← splice_splice_add]
        have hfront : ∀ k, k < PGSIZE - dst % PGSIZE →
            (src.take (PGSIZE - dst % PGSIZE)).getD k 0 = src.getD k 0 := by
          intro k hk
          rw [List.getD_eq_getElem?_getD, List.getD_eq_getElem?_getD, List.getElem?_take, if_pos hk]
        have hrest : ∀ k, (src.drop (PGSIZE - dst % PGSIZE)).getD k 0
            = src.getD (PGSIZE - dst % PGSIZE + k) 0 := by
          intro k
          rw [List.getD_eq_getElem?_getD, List.getD_eq_getElem?_getD, List.getElem?_drop]
        rw [splice_congr hfront fun _ _ => rfl]
        exact splice_congr (fun k _ => hrest k) fun _ _ => rfl

/-- How far behind the first string the `i`-th one lies. -/
def offset (strs : List (List UInt8)) (i : Nat) : Nat := ((strs.take i).map List.length).sum

/-- The bytes of all strings. -/
def total (strs : List (List UInt8)) : Nat := (strs.map List.length).sum

@[simp] theorem offset_zero (strs : List (List UInt8)) : offset strs 0 = 0 := rfl

@[simp] theorem offset_succ (str : List UInt8) (strs : List (List UInt8)) (i : Nat) :
    offset (str :: strs) (i + 1) = str.length + offset strs i := rfl

@[simp] theorem total_cons (str : List UInt8) (strs : List (List UInt8)) :
    total (str :: strs) = str.length + total strs := rfl

/-- A string ends where the next one begins, and none behind the last byte. -/
theorem offset_add_length_le : ∀ (strs : List (List UInt8)) {i j : Nat} (hi : i < strs.length),
    i < j → offset strs i + strs[i].length ≤ offset strs j
  | [], _, _, hi, _ => absurd hi (Nat.not_lt_zero _)
  | str :: strs, i, j + 1, hi, hij => by
    rw [offset_succ]
    rcases i with _ | i
    · rw [offset_zero, List.getElem_cons_zero]
      omega
    · have hrest := offset_add_length_le strs (Nat.lt_of_succ_lt_succ hi) (Nat.lt_of_succ_lt_succ hij)
      rw [offset_succ, List.getElem_cons_succ]
      omega

theorem offset_length (strs : List (List UInt8)) : offset strs strs.length = total strs := by
  rw [offset, List.take_length, total]

theorem offset_append (xs ys : List (List UInt8)) (i : Nat) :
    offset (xs ++ ys) (xs.length + i) = total xs + offset ys i := by
  rw [offset, List.take_length_add_append, List.map_append, List.sum_append]
  rfl

theorem offset_append_left {xs : List (List UInt8)} (ys : List (List UInt8)) {i : Nat}
    (hi : i ≤ xs.length) : offset (xs ++ ys) i = offset xs i := by
  rw [offset, List.take_append_of_le_length hi]
  rfl

/-- The loop stores the pointers from `w` on and the strings from `sp` on, and nothing else. -/
theorem copyoutStrings_window (h : Window pt base no n) (hal : base % PGSIZE = 0)
    (hfits : base + n * PGSIZE ≤ MAXVA) (strs : List (List UInt8)) (data : Nat → Page)
    (w sp q : Nat) (hw : w % 8 = 0) (hlo : base ≤ sp) (hhi : sp + total strs ≤ base + n * PGSIZE)
    (hq : q = no * PGSIZE + (sp - base)) (hapart : w + 8 * strs.length ≤ q) :
    ∃ data', copyoutStrings pt strs data w sp = .ok (data', w + 8 * strs.length, sp + total strs)
      ∧ (∀ i (hi : i < strs.length),
          getLE (physBytes data') (w + 8 * i) 8 = sp + offset strs i
            ∧ HoldsAt (physBytes data') (q + offset strs i) strs[i])
      ∧ ∀ x, (x < w ∨ w + 8 * strs.length ≤ x) → (x < q ∨ q + total strs ≤ x) →
          physBytes data' x = physBytes data x := by
  induction strs generalizing data w sp q with
  | nil => exact ⟨data, rfl, fun i hi => absurd hi (Nat.not_lt_zero i), fun _ _ _ => rfl⟩
  | cons str rest ih =>
    rw [total_cons] at hhi
    rw [List.length_cons] at hapart
    obtain ⟨data₁, hcopy, hbytes⟩ := copyout_window h hal hfits _ str rfl data sp hlo (by omega)
    rw [← hq] at hbytes
    have hword := physBytes_storeWord data₁ w sp hw
    rw [hbytes] at hword
    obtain ⟨data', hloop, heach, hkept⟩ := ih (storeWord data₁ w sp) (w + 8) (sp + str.length)
      (q + str.length) (by omega) (by omega) (by omega) (by omega) (by omega)
    have hlow : ∀ x, x < w + 8 → x < q → physBytes data' x = physBytes (storeWord data₁ w sp) x :=
      fun x hx hxq => hkept x (.inl hx) (.inl (by omega))
    refine ⟨data', ?_, fun i hi => ?_, fun x hxw hxq => ?_⟩
    · rw [copyoutStrings, hcopy, ok_bind]
      show (if (0 : Int) < 0 then _ else _) = _
      rw [if_neg (Int.lt_irrefl 0), hloop, List.length_cons, total_cons]
      have hend : w + 8 + 8 * rest.length = w + 8 * (rest.length + 1) := by omega
      rw [hend, Nat.add_assoc sp]
    · rcases i with _ | i
      · rw [offset_zero, Nat.mul_zero, Nat.add_zero, Nat.add_zero, Nat.add_zero,
          List.getElem_cons_zero]
        constructor
        · have hsame : getLE (physBytes data') w 8 = getLE (physBytes (storeWord data₁ w sp)) w 8 :=
            getLE_congr fun k hk => hlow (w + k) (by omega) (by omega)
          have hsmall : sp < 256 ^ 8 := by
            have hmax : MAXVA = 274877906944 := by decide
            omega
          rw [hsame, hword, getLE_setLE_self, Nat.mod_eq_of_lt hsmall]
        · refine (HoldsAt.splice (physBytes data) q str).congr fun k hk => ?_
          rw [hkept (q + k) (.inr (by omega)) (.inl (by omega)), hword, setLE,
            splice_of_not_mem (by omega)]
      · obtain ⟨hptr, hstr⟩ := heach i (Nat.lt_of_succ_lt_succ hi)
        rw [offset_succ, List.getElem_cons_succ]
        rw [show w + 8 + 8 * i = w + 8 * (i + 1) from by omega] at hptr
        rw [Nat.add_assoc] at hptr hstr
        exact ⟨hptr, hstr⟩
    · rw [List.length_cons] at hxw
      rw [total_cons] at hxq
      rw [hkept x (by omega) (by omega), hword, setLE, splice_of_not_mem (by omega),
        splice_of_not_mem (by omega)]

/-- Both loops, with the words that end the arrays. -/
theorem copyoutArgvEnvp_window (h : Window pt base no n) (hal : base % PGSIZE = 0)
    (hfits : base + n * PGSIZE ≤ MAXVA) (data : Nat → Page) (argv envp : List (List UInt8))
    (sp start : Nat) (hstart : start = no * PGSIZE)
    (hsp : sp = base + 8 * (argv.length + 1 + (envp.length + 1)))
    (hhi : sp + total argv + total envp ≤ base + n * PGSIZE) :
    ∃ data', copyoutArgvEnvp data pt argv envp start sp = .ok data' ∧
      (∀ i (hi : i < argv.length),
        getLE (physBytes data') (start + 8 * i) 8 = sp + offset argv i
          ∧ HoldsAt (physBytes data') (start + (sp - base) + offset argv i) argv[i]) ∧
      getLE (physBytes data') (start + 8 * argv.length) 8 = 0 ∧
      (∀ i (hi : i < envp.length),
        getLE (physBytes data') (start + 8 * (argv.length + 1) + 8 * i) 8
            = sp + total argv + offset envp i
          ∧ HoldsAt (physBytes data') (start + (sp - base) + total argv + offset envp i)
              envp[i]) ∧
      getLE (physBytes data') (start + 8 * (argv.length + 1) + 8 * envp.length) 8 = 0 := by
  have hmul : start % 8 = 0 := by
    rw [hstart]
    simp only [PGSIZE]
    omega
  have hq : start + (sp - base) = no * PGSIZE + (sp - base) := by rw [hstart]
  have hq' : start + (sp - base) + total argv = no * PGSIZE + (sp + total argv - base) := by
    rw [hstart, Nat.add_assoc]
    congr 1
    omega
  obtain ⟨data₁, hargv, hargs, hkept₁⟩ := copyoutStrings_window h hal hfits argv data start sp
    _ hmul (by omega) (by omega) hq (by omega)
  have hend := physBytes_storeWord data₁ (start + 8 * argv.length) 0 (by omega)
  obtain ⟨data₂, henvp, henvs, hkept₂⟩ := copyoutStrings_window h hal hfits envp
    (storeWord data₁ (start + 8 * argv.length) 0) (start + 8 * argv.length + 8)
    (sp + total argv) (start + (sp - base) + total argv) (by omega) (by omega) (by omega)
    hq' (by omega)
  have hend' := physBytes_storeWord data₂
    (start + 8 * argv.length + 8 + 8 * envp.length) 0 (by omega)
  have harray : start + 8 * argv.length + 8 = start + 8 * (argv.length + 1) := by omega
  refine ⟨storeWord data₂ (start + 8 * argv.length + 8 + 8 * envp.length) 0, ?_, ?_, ?_, ?_, ?_⟩
  · unfold copyoutArgvEnvp
    rw [hargv, ok_bind]
    dsimp only
    rw [henvp, ok_bind]
    rfl
  · -- The second loop and the last words leave the first array and its strings alone.
    intro i hi
    obtain ⟨hptr, hstr⟩ := hargs i hi
    have hlast := offset_add_length_le argv hi (Nat.lt_of_lt_of_le hi (Nat.le_refl _))
    rw [offset_length] at hlast
    have hsame : ∀ x, (start ≤ x ∧ x < start + 8 * argv.length) ∨
        (start + (sp - base) ≤ x ∧ x < start + (sp - base) + total argv) →
        physBytes (storeWord data₂ (start + 8 * argv.length + 8 + 8 * envp.length) 0) x
          = physBytes data₁ x := by
      intro x hx
      rw [hend', setLE, splice_of_not_mem (by omega), hkept₂ x (by omega) (by omega), hend, setLE,
        splice_of_not_mem (by omega)]
    constructor
    · rw [← hptr]
      exact getLE_congr fun k hk => hsame _ (.inl (by omega))
    · exact hstr.congr fun k hk => hsame _ (.inr (by omega))
  · rw [hend', getLE_setLE_of_disjoint _ _ (by omega)]
    have hsame : getLE (physBytes data₂) (start + 8 * argv.length) 8
        = getLE (physBytes (storeWord data₁ (start + 8 * argv.length) 0))
            (start + 8 * argv.length) 8 :=
      getLE_congr fun k hk => hkept₂ _ (.inl (by omega)) (.inl (by omega))
    rw [hsame, hend, getLE_setLE_self, Nat.zero_mod]
  · intro i hi
    obtain ⟨hptr, hstr⟩ := henvs i hi
    have hlast := offset_add_length_le envp hi (Nat.lt_of_lt_of_le hi (Nat.le_refl _))
    rw [offset_length] at hlast
    rw [← harray]
    constructor
    · rw [hend', getLE_setLE_of_disjoint _ _ (by omega)]
      exact hptr
    · refine hstr.congr fun k hk => ?_
      rw [hend', setLE, splice_of_not_mem (by omega)]
  · rw [← harray, hend', getLE_setLE_self, Nat.zero_mod]

end Block

/-! ## What the process sees -/

/-- A byte of user memory, read through the page table. -/
def userByte (data : Nat → Page) (pt : PageTable) (va : Nat) : Option UInt8 :=
  if va < MAXVA then
    let pte := pt.pte (vpn va)
    if grants pte.perm (PTE_V ||| PTE_R ||| PTE_U) then
      match pte.paddr with
      | .page no => some (data no ⟨va % PGSIZE, Nat.mod_lt _ (by decide)⟩)
      | _ => none
    else none
  else none

/-- User memory as bytes; what cannot be read counts as 0. -/
def userView (data : Nat → Page) (pt : PageTable) : Bytes := fun va => (userByte data pt va).getD 0

/-- Through the page table the block is the physical block. -/
theorem Window.userByte {pt : PageTable} {base no n : Nat} (h : Window pt base no n)
    (hal : base % PGSIZE = 0) (hfits : base + n * PGSIZE ≤ MAXVA) (data : Nat → Page) {va : Nat}
    (hlo : base ≤ va) (hhi : va < base + n * PGSIZE) :
    Vm.userByte data pt va = some (physBytes data (no * PGSIZE + (va - base))) := by
  have hbelow : va < MAXVA := by omega
  obtain ⟨-, hoff, hgrants, hpaddr⟩ := h.page hal hlo hhi
  rw [vpn_pgRoundDown hbelow] at hgrants hpaddr
  have hread : grants (pt.pte (vpn va)).perm (PTE_V ||| PTE_R ||| PTE_U) = true :=
    grants_trans hgrants (by decide)
  have hno : (no * PGSIZE + (va - base)) / PGSIZE = no + (va - base) / PGSIZE := by
    rw [Nat.mul_comm, Nat.mul_add_div (by decide)]
  have hmod : (no * PGSIZE + (va - base)) % PGSIZE = va % PGSIZE := by
    rw [Nat.mul_comm, Nat.mul_add_mod, hoff]
  unfold Vm.userByte physBytes
  rw [if_pos hbelow]
  dsimp only
  rw [if_pos hread, hpaddr]
  simp only [hno, hmod]

/-- The registers `do_execve` sets in the trapframe. -/
structure UserRegs where
  sp : Nat
  a1 : Nat
  a2 : Nat
  deriving DecidableEq, Repr

/-- `sp` and `a1` are the start of the block; `a2` is behind the pointers of `argv`. -/
def ExecArgs.regs (a : ExecArgs) : UserRegs :=
  let a1 := USER_STACK_TOP - PGSIZE * a.pageNum
  ⟨a1, a1, a1 + (a.argv.strs.length + 1) * 8⟩

/-- `do_execve` with the registers and the result of a call that gets to its END. -/
def execve (m : Mem) (mm : Mm) (tf : Nat) (a : ExecArgs) :
    Except Fault (Mem × Mm × Option (UserRegs × Int)) := do
  let (s, new) ← newMmStruct m.phys a.stale
  match ← loadElf new a.image with
  | none => return ({ m with phys := s }, mm, none)
  | some new =>
    let (m, mm, fetched) ← fetchArgs a.fetches { m with phys := s } mm
    if fetched then do
      let (m, mm) ← replaceMm m mm new tf a
      return (m, mm, some (a.regs, (a.argv.strs.length : Int)))
    else return (m, mm, none)

/-- The memory is the one of `doExecve`. -/
theorem execve_doExecve (m : Mem) (mm : Mm) (tf : Nat) (a : ExecArgs) :
    (execve m mm tf a).map (fun r => (r.1, r.2.1)) = doExecve m mm tf a := by
  unfold execve doExecve
  rcases hnew : newMmStruct m.phys a.stale with e | ⟨s, new⟩
  · rfl
  simp only [ok_bind]
  rcases hload : loadElf new a.image with e | o
  · rfl
  simp only [ok_bind]
  rcases o with _ | new'
  · rfl
  simp only
  rcases hfetch : fetchArgs a.fetches { m with phys := s } mm with e | ⟨m', mm', fetched⟩
  · rfl
  simp only [ok_bind]
  rcases fetched with _ | _
  · rfl
  simp only [if_true]
  rcases hreplace : replaceMm m' mm' new' tf a with e | ⟨m'', mm''⟩
  · rfl
  · rfl

/-- The strings of both vectors, in the order in which they are copied. -/
def ExecArgs.strs (a : ExecArgs) : List (List UInt8) := a.argv.strs ++ a.envp.strs

/-- Where the `i`-th string lies: behind both arrays and the strings before it. -/
def ExecArgs.strPtr (a : ExecArgs) (i : Nat) : Nat :=
  a.regs.a2 + 8 * (a.envp.strs.length + 1) + offset a.strs i

/-- The arguments are where the registers say. -/
structure Delivered (data : Nat → Page) (pt : PageTable) (a : ExecArgs) (r : UserRegs) : Prop where
  readable : ∀ va, USER_STACK_TOP - PGSIZE * a.pageNum ≤ va → va < USER_STACK_TOP →
    (userByte data pt va).isSome
  argv : ∀ i < a.argv.strs.length, getLE (userView data pt) (r.a1 + 8 * i) 8 = a.strPtr i
  argvEnd : getLE (userView data pt) (r.a1 + 8 * a.argv.strs.length) 8 = 0
  envp : ∀ i < a.envp.strs.length,
    getLE (userView data pt) (r.a2 + 8 * i) 8 = a.strPtr (a.argv.strs.length + i)
  envpEnd : getLE (userView data pt) (r.a2 + 8 * a.envp.strs.length) 8 = 0
  strings : ∀ i (hi : i < a.strs.length), HoldsAt (userView data pt) (a.strPtr i) a.strs[i]
  terminated : ∀ i (hi : i < a.strs.length) (s : List UInt8), a.strs[i] = s ++ [0] →
    userView data pt (a.strPtr i + s.length) = 0
  start : USER_STACK_TOP - PGSIZE * a.pageNum ≤ r.a1
  arrays : r.a1 + 8 * (a.argv.strs.length + 1) ≤ r.a2
  behind : ∀ i, r.a2 + 8 * (a.envp.strs.length + 1) ≤ a.strPtr i
  apart : ∀ i j (hi : i < a.strs.length), i < j → a.strPtr i + a.strs[i].length ≤ a.strPtr j
  top : a.strPtr a.strs.length ≤ USER_STACK_TOP
  sp : r.sp ≤ r.a1

theorem ArgVec.length_eq (v : ArgVec) : v.length = total v.strs + 8 * v.strs.length + 8 := by
  have hsum : ∀ strs : List (List UInt8),
      (strs.map fun str => str.length + 8).sum = total strs + 8 * strs.length := by
    intro strs
    induction strs with
    | nil => rfl
    | cons str rest ih =>
      rw [List.map_cons, List.sum_cons, ih, total_cons, List.length_cons]
      omega
  rw [ArgVec.length, hsum]

/-- Both passes agree: what the second one writes fits what the first one has counted. -/
theorem ExecArgs.block_fits (a : ExecArgs) :
    8 * (a.argv.strs.length + 1 + (a.envp.strs.length + 1)) + total a.argv.strs + total a.envp.strs
      ≤ a.pageNum * PGSIZE := by
  have htotal : a.totalen ≤ a.pageNum * PGSIZE := by
    unfold ExecArgs.pageNum
    simp only [PGSIZE]
    omega
  have hsum : a.totalen = a.envp.length + a.argv.length := rfl
  rw [a.envp.length_eq, a.argv.length_eq] at hsum
  omega

/-- The END of `do_execve` delivers the arguments, whatever was there before. -/
theorem replaceMm_delivers (m : Mem) (old new : Mm) (tf : Nat) (a : ExecArgs) :
    Meets (fun _ => True) (replaceMm m old new tf a) fun r =>
      Delivered r.1.data r.2.pagetable a a.regs := by
  have htop : USER_STACK_TOP = 274877898752 := by decide
  have hmax : MAXVA = 274877906944 := by decide
  have hpages : a.pageNum ≤ 32 := pageNum_le a
  have hroom := a.block_fits
  have hsize : a.pageNum * PGSIZE = PGSIZE * a.pageNum := Nat.mul_comm _ _
  obtain ⟨base, hbase⟩ : ∃ base, base = USER_STACK_TOP - PGSIZE * a.pageNum := ⟨_, rfl⟩
  have hal : base % PGSIZE = 0 := by
    rw [hbase, htop]
    simp only [PGSIZE]
    omega
  have hend : base + a.pageNum * PGSIZE = USER_STACK_TOP := by
    rw [hbase, hsize, htop]
    simp only [PGSIZE]
    omega
  have hfits : base + a.pageNum * PGSIZE ≤ MAXVA := by
    rw [hend, htop, hmax]
    decide
  unfold replaceMm
  refine .after fun u => .after fun s => .after fun t => ?_
  refine (mapUserStack_window t.1 _ u.2 (pageNum_le a)).bind fun w hw => ?_
  rw [← hbase] at hw
  obtain ⟨sp, hsp⟩ : ∃ sp, sp = base + 8 * (a.argv.strs.length + 1 + (a.envp.strs.length + 1)) :=
    ⟨_, rfl⟩
  have hsource : USER_STACK_TOP - PGSIZE * a.pageNum
      + (a.envp.strs.length + 1 + (a.argv.strs.length + 1)) * 8 = sp := by
    rw [hsp, hbase]
    omega
  obtain ⟨data', hcopy, hargv, hargvEnd, henvp, henvpEnd⟩ := copyoutArgvEnvp_window hw hal hfits
    (blockData m.data u.2 a.pageNum a.block) a.argv.strs a.envp.strs sp (u.2 * PGSIZE) rfl hsp
    (by omega)
  dsimp only
  rw [hsource, hcopy, ok_bind]
  refine .pure ?_
  have hview : ∀ x, x < a.pageNum * PGSIZE →
      userView data' w.2.pagetable (base + x) = physBytes data' (u.2 * PGSIZE + x) := by
    intro x hx
    unfold userView
    rw [hw.userByte hal hfits data' (Nat.le_add_right base x) (by omega), Nat.add_sub_cancel_left]
    rfl
  have hword : ∀ x, x + 8 ≤ a.pageNum * PGSIZE →
      getLE (userView data' w.2.pagetable) (base + x) 8
        = getLE (physBytes data') (u.2 * PGSIZE + x) 8 := by
    intro x hx
    refine getLE_congr fun k hk => ?_
    rw [Nat.add_assoc, Nat.add_assoc]
    exact hview (x + k) (by omega)
  have hstr : ∀ x str, x + str.length ≤ a.pageNum * PGSIZE →
      HoldsAt (physBytes data') (u.2 * PGSIZE + x) str →
      HoldsAt (userView data' w.2.pagetable) (base + x) str := by
    intro x str hx hold
    refine hold.congr fun k hk => ?_
    rw [Nat.add_assoc, Nat.add_assoc]
    exact hview (x + k) (by omega)
  have ha1 : a.regs.a1 = base := hbase.symm
  have ha2 : a.regs.a2 = base + 8 * (a.argv.strs.length + 1) := by
    rw [hbase, Nat.mul_comm 8]
    rfl
  have hptr : ∀ i, a.strPtr i = sp + offset a.strs i := by
    intro i
    rw [ExecArgs.strPtr, ha2, hsp]
    omega
  have htotal : total a.strs = total a.argv.strs + total a.envp.strs := by
    rw [total, ExecArgs.strs, List.map_append, List.sum_append]
    rfl
  have hlen : a.strs.length = a.argv.strs.length + a.envp.strs.length := List.length_append
  have hstrings : ∀ i (hi : i < a.strs.length),
      HoldsAt (userView data' w.2.pagetable) (a.strPtr i) a.strs[i] := by
    intro i hi
    have hlast := offset_add_length_le a.strs hi hi
    rw [offset_length, htotal] at hlast
    have hplace : a.strPtr i = base + (sp - base + offset a.strs i) := by
      rw [hptr]
      omega
    rw [hplace]
    refine hstr _ _ (by omega) ?_
    rw [← Nat.add_assoc]
    by_cases hsplit : i < a.argv.strs.length
    · have hold := (hargv i hsplit).2
      rw [← offset_append_left a.envp.strs (Nat.le_of_lt hsplit)] at hold
      have hget : a.strs[i] = a.argv.strs[i] := List.getElem_append_left hsplit
      rw [hget]
      exact hold
    · obtain ⟨j, rfl⟩ := Nat.exists_eq_add_of_le (not_lt.mp hsplit)
      have hj : j < a.envp.strs.length := by omega
      have hold := (henvp j hj).2
      rw [Nat.add_assoc, ← offset_append] at hold
      have hget : a.strs[a.argv.strs.length + j] = a.envp.strs[j] := by simp [ExecArgs.strs]
      rw [hget]
      exact hold
  refine ⟨?_, ?_, ?_, ?_, ?_, hstrings, ?_, ?_, ?_, ?_, ?_, ?_, ?_⟩
  · intro va hlo hhi
    rw [hw.userByte hal hfits data' (by omega) (by omega)]
    rfl
  · intro i hi
    rw [ha1, hword _ (by omega), (hargv i hi).1, hptr, ExecArgs.strs,
      offset_append_left _ (Nat.le_of_lt hi)]
  · rw [ha1, hword _ (by omega)]
    exact hargvEnd
  · intro i hi
    rw [ha2, Nat.add_assoc, hword _ (by omega), ← Nat.add_assoc, (henvp i hi).1, hptr, ExecArgs.strs,
      offset_append, Nat.add_assoc]
  · rw [ha2, Nat.add_assoc, hword _ (by omega), ← Nat.add_assoc]
    exact henvpEnd
  · intro i hi s hs
    have hlt : s.length < a.strs[i].length := by
      rw [hs, List.length_append]
      exact Nat.lt_succ_self _
    rw [hstrings i hi s.length hlt]
    simp only [hs, List.getElem_concat_length]
  · rw [ha1, hbase]
  · rw [ha1, ha2]
  · intro i
    exact Nat.le_add_right _ _
  · intro i j hi hij
    have hle := offset_add_length_le a.strs hi hij
    rw [hptr, hptr]
    omega
  · rw [hptr, offset_length, htotal]
    omega
  · exact Nat.le_refl _

/-- Whenever `do_execve` returns a result that is not an error, the result is the number of argument
    strings, and the new address space has the arguments where the registers say. -/
theorem execve_delivers {m m' : Mem} {mm mm' : Mm} {tf : Nat} {a : ExecArgs} {r : UserRegs}
    {argc : Int} (h : execve m mm tf a = .ok (m', mm', some (r, argc))) :
    argc = a.argv.strs.length ∧ Delivered m'.data mm'.pagetable a r := by
  have hmeets : Meets (fun _ => True) (execve m mm tf a) fun w => ∀ r argc, w.2.2 = some (r, argc) →
      argc = a.argv.strs.length ∧ Delivered w.1.data w.2.1.pagetable a r := by
    unfold execve
    refine .after fun u => .after fun loaded => ?_
    rcases loaded with _ | new
    · exact .pure fun r argc hr => (nomatch hr)
    · refine .after fun w => .ite (fun _ => ?_) fun _ => ?_
      · refine (replaceMm_delivers w.1 w.2.1 new tf a).bind fun v hv => .pure ?_
        intro r argc hr
        cases hr
        exact ⟨rfl, hv⟩
      · exact .pure fun r argc hr => (nomatch hr)
  exact hmeets.of_ok h r argc rfl

/-- `ls` with one variable in its environment. -/
def lsArgs : ExecArgs where
  image := twoSegments
  fetches := []
  argv := ⟨[[108, 115, 0]], by decide, by decide⟩
  envp := ⟨[[65, 61, 49, 0]], by decide, by decide⟩
  stale := blankMm
  block := fun _ _ => 255

set_option maxRecDepth 100000 in
theorem execve_delivers_ls : ∃ m' mm' r,
    execve smallBoot.mem blankMm 15 lsArgs = .ok (m', mm', some (r, 1)) ∧
      Delivered m'.data mm'.pagetable lsArgs r := by
  have hrun : ∃ w, execve smallBoot.mem blankMm 15 lsArgs = .ok w ∧ ∃ x ∈ w.2.2, x.2 = 1 := by
    decide +kernel
  obtain ⟨⟨m', mm', o⟩, hok, ⟨r, argc⟩, ho, rfl⟩ := hrun
  obtain rfl : o = some (r, 1) := ho
  exact ⟨m', mm', r, hok, (execve_delivers hok).2⟩

end Uniks.Vm
