/-
  The open-file table: reference counts, descriptors and the queue of idle entries.

  For every file number three structures have to agree: the descriptors that name it, the field
  `f_count`, and the idle queue.  `FcbOk` states the agreement against an arbitrary demand
  `r : FcbNo → Nat` (how many descriptors name each entry), so that it can also be said in the
  middle of a call, where an entry has been taken from the queue but no descriptor names it yet.

  The calls keep a weaker fact than one would like.  `sys_pipe` installs its two descriptors before
  it looks at the user buffer and gives up without taking them back; such descriptors name an
  entry that does not count them.  `dead` is how many of those each entry has; it stays zero in
  every run in which no `pipe` gets that far with a buffer that is refused.
-/
import Uniks.Lib.Slots
import Uniks.Lib.RefCount
import Uniks.Lib.Runs
import Uniks.SysfileCases

namespace Uniks.Sysfile

open Uniks.Inode Uniks.Queue Uniks.RefCount Uniks.Runs
open Function (update update_idem update_self update_of_ne update_eq_self)
open Option (some bind_eq_some_iff)

/-! ## Descriptors that name an entry -/

/-- The number of descriptors of one process that name `no`. -/
def procRefs (no : FcbNo) : Option Proc → Nat
  | none => 0
  | some pr => refs pr.fdtable no

/-- The number of (process, descriptor) pairs that name `no`. -/
def fdRefs (procs : Pid → Option Proc) (no : FcbNo) : Nat := total fun p => procRefs no (procs p)

/-- One process changes. -/
theorem fdRefs_update (procs : Pid → Option Proc) (p : Pid) (pr : Option Proc) (no : FcbNo) :
    fdRefs (update procs p pr) no + procRefs no (procs p)
      = fdRefs procs no + procRefs no pr := by
  have hoff := total_congr_off (fun q => procRefs no (procs q))
    (fun q => procRefs no (update procs p pr q)) p
    fun q hq => by rw [update_of_ne hq]
  rw [update_self] at hoff
  exact hoff

/-- One descriptor of one process changes. -/
theorem fdRefs_setFd {procs : Pid → Option Proc} {p : Pid} {pr : Proc} (hpr : procs p = some pr)
    (fd : Fd) (v : Option FcbNo) (no : FcbNo) :
    fdRefs (update procs p (some (pr.setFd fd v))) no
        + (if pr.fdtable fd = some no then 1 else 0)
      = fdRefs procs no + (if v = some no then 1 else 0) := by
  have hprocs := fdRefs_update procs p (some (pr.setFd fd v)) no
  have hrow : procRefs no (some (pr.setFd fd v)) + (if pr.fdtable fd = some no then 1 else 0)
      = procRefs no (some pr) + (if v = some no then 1 else 0) := refs_update pr.fdtable fd v no
  rw [hpr] at hprocs
  omega

/-- There are no more references than descriptors in the whole system. -/
theorem fdRefs_le (procs : Pid → Option Proc) (no : FcbNo) : fdRefs procs no ≤ 4096 := by
  have hrow : ∀ p, procRefs no (procs p) ≤ NFD := by
    intro p
    cases hp : procs p with
    | none => exact Nat.zero_le _
    | some pr =>
      have hcard := refs_le_card pr.fdtable no
      rw [Fintype.card_fin] at hcard
      exact hcard
  have hsum := total_le (fun p => procRefs no (procs p)) hrow
  rw [Fintype.card_fin] at hsum
  exact hsum

theorem u32_of_lt {n : Nat} (h : n < 4294967296) : u32 n = n := Nat.mod_eq_of_lt h

/-! ## The table against a demand -/

/-- The table serves the demand `r`, but for `dead no` references to `no` that it does not count;
    `taken` lists the entries that have left the idle queue and that no descriptor names yet. -/
structure FcbOk (fcb : FcbTable) (r dead : FcbNo → Nat) (taken : List FcbNo) : Prop where
  capacity : fcb.qm.queueCapacity = NFILE
  count : ∀ no, (fcb.files no).fCount + dead no = r no
  uncounted : ∀ no, 0 < dead no → (fcb.files no).fCount = 0
  idle : ∃ xs, Holds fcb.qm xs ∧ ∀ no, xs.count no = if r no = 0 ∧ no ∉ taken then 1 else 0

variable {fcb fcb' : FcbTable} {r r' dead : FcbNo → Nat} {taken : List FcbNo} {no : FcbNo}

/-- Only which entries are taken matters, not their order. -/
theorem FcbOk.swap {a b : FcbNo} (h : FcbOk fcb r dead [a, b]) : FcbOk fcb r dead [b, a] := by
  obtain ⟨xs, hholds, hcount⟩ := h.idle
  refine ⟨h.capacity, h.count, h.uncounted, xs, hholds, fun m => ?_⟩
  have hmem : m ∈ [a, b] ↔ m ∈ [b, a] := by
    simp only [List.mem_cons, List.not_mem_nil, or_false]
    exact or_comm
  simp only [hcount m, hmem]

/-- An entry that leaves the queue has no references, and was not out already. -/
theorem FcbOk.alloc (h : FcbOk fcb r dead taken) (ha : fileAlloc fcb = some (fcb', no)) :
    FcbOk fcb' r dead (no :: taken) ∧ r no = 0 ∧ no ∉ taken := by
  obtain ⟨qm, hpop, ha⟩ := bind_eq_some_iff.mp ha
  split at ha
  · cases ha
    obtain ⟨xs, hholds, hcount⟩ := h.idle
    cases xs with
    | nil =>
      -- an empty queue fails the assertion of the pop
      rw [queueFrontPop, if_pos (hholds.queueEmpty_iff.mpr rfl)] at hpop
      cases hpop
    | cons x xs =>
      obtain ⟨hholds', hcap⟩ := hholds.frontPop hpop
      rw [hholds.front]
      have hx := hcount x
      rw [List.count_cons_self] at hx
      have hidle : r x = 0 ∧ x ∉ taken := by
        by_contra hnot
        rw [if_neg hnot] at hx
        omega
      refine ⟨⟨hcap.trans h.capacity, h.count, h.uncounted, xs, hholds', fun m => ?_⟩, hidle⟩
      by_cases hm : m = x
      · subst hm
        rw [if_pos hidle] at hx
        rw [if_neg fun hc => hc.2 List.mem_cons_self]
        omega
      · have hold := hcount m
        rw [List.count_cons_of_ne (Ne.symm hm)] at hold
        rw [hold]
        simp only [List.mem_cons, hm, false_or]
  · cases ha

/-- An entry nobody got round to using goes back into the queue. -/
theorem FcbOk.giveBack (h : FcbOk fcb r dead (no :: taken)) (hr : r no = 0) (hno : no ∉ taken)
    (hf : fcbnoFree fcb no = some fcb') : FcbOk fcb' r dead taken := by
  obtain ⟨qm, hpush, rfl⟩ := Option.map_eq_some_iff.mp hf
  obtain ⟨xs, hholds, hcount⟩ := h.idle
  obtain ⟨hholds', hcap⟩ := hholds.push hpush
  refine ⟨hcap.trans h.capacity, h.count, h.uncounted, xs ++ [no], hholds', fun m => ?_⟩
  have hold := hcount m
  rw [List.count_append]
  by_cases hm : m = no
  · subst hm
    rw [if_neg fun hc => hc.2 List.mem_cons_self] at hold
    rw [if_pos ⟨hr, hno⟩, List.count_singleton_self, hold]
  · rw [List.count_singleton, if_neg (fun hb => hm (beq_iff_eq.mp hb).symm), hold]
    simp only [List.mem_cons, hm, false_or, Nat.add_zero]

/-- One entry is stored anew: its count must fit the new demand for it, the demand for the others
    stays, and an entry is idle after exactly if it was idle before. -/
theorem FcbOk.store {f : FileT} {dead' : FcbNo → Nat} {taken' : List FcbNo}
    (h : FcbOk fcb r dead taken) (hno : f.fCount + dead' no = r' no)
    (huncounted : 0 < dead' no → f.fCount = 0)
    (hoff : ∀ m, m ≠ no → r' m = r m ∧ dead' m = dead m)
    (hidle : ∀ m, r' m = 0 ∧ m ∉ taken' ↔ r m = 0 ∧ m ∉ taken) :
    FcbOk (fcb.set no f) r' dead' taken' := by
  refine ⟨h.capacity, fun m => ?_, fun m => ?_, ?_⟩
  · by_cases hm : m = no
    · subst hm
      rw [FcbTable.set_files, update_self]
      exact hno
    · rw [FcbTable.set_files, update_of_ne hm, (hoff m hm).1, (hoff m hm).2]
      exact h.count m
  · by_cases hm : m = no
    · subst hm
      rw [FcbTable.set_files, update_self]
      exact huncounted
    · rw [FcbTable.set_files, update_of_ne hm, (hoff m hm).2]
      exact h.uncounted m
  · obtain ⟨xs, hholds, hcount⟩ := h.idle
    refine ⟨xs, hholds, fun m => ?_⟩
    simp only [hcount m, hidle m]

/-- The demand rises by one descriptor for an entry that was taken from the queue; whether the
    entry counts it (`fCount = 1`) or not (`dead' no = 1`) makes no difference to the queue. -/
theorem FcbOk.name (h : FcbOk fcb r dead (no :: taken)) (hr : r no = 0)
    (hr' : ∀ m, r' m = r m + if no = m then 1 else 0) {f : FileT} {dead' : FcbNo → Nat}
    (hf : f.fCount + dead' no = 1) (hdead : ∀ m, m ≠ no → dead' m = dead m) :
    FcbOk (fcb.set no f) r' dead' taken := by
  refine h.store ?_ ?_ ?_ ?_
  · rw [hr' no, if_pos rfl, hr, hf]
  · intro hpos
    omega
  · intro m hm
    rw [hr' m, if_neg (Ne.symm hm)]
    exact ⟨rfl, hdead m hm⟩
  · intro m
    rw [hr' m]
    by_cases hm : no = m
    · subst hm
      simp only [if_true, Nat.add_eq_zero_iff, Nat.one_ne_zero, and_false, false_and,
        List.mem_cons_self, not_true_eq_false]
    · simp only [if_neg hm, Nat.add_zero, List.mem_cons, Ne.symm hm, false_or]

/-- An entry that counts a descriptor is not one of the dead ones. -/
theorem FcbOk.not_dead (h : FcbOk fcb r dead taken) (hpos : 1 ≤ (fcb.files no).fCount) :
    dead no = 0 := by
  by_contra hne
  have hzero := h.uncounted no (Nat.pos_of_ne_zero hne)
  omega

/-- One more descriptor names an entry that counts. -/
theorem FcbOk.dup (h : FcbOk fcb r dead taken) (hd : fileDup fcb (some no) = some fcb')
    (hlt : r no + 1 < 4294967296) (hr' : ∀ m, r' m = r m + if no = m then 1 else 0) :
    FcbOk fcb' r' dead taken := by
  unfold fileDup at hd
  simp only at hd
  split at hd
  · rename_i hpos
    cases hd
    have hno := h.count no
    have hzero := h.not_dead hpos
    have hrno := hr' no
    rw [if_pos rfl] at hrno
    refine h.store ?_ ?_ ?_ ?_
    · show u32 ((fcb.files no).fCount + 1) + dead no = r' no
      rw [u32_of_lt (by omega)]
      omega
    · intro hdead
      omega
    · intro m hm
      rw [hr' m, if_neg (Ne.symm hm)]
      exact ⟨rfl, rfl⟩
    · intro m
      have hm := hr' m
      by_cases hno : no = m
      · subst hno
        constructor
        · intro hc
          omega
        · intro hc
          omega
      · rw [hm, if_neg hno, Nat.add_zero]
  · cases hd

/-- A descriptor that names nothing can be copied without any effect on the table. -/
theorem fileDup_none (h : fileDup fcb none = some fcb') : fcb' = fcb := (some.inj h).symm

/-- One descriptor less names an entry; the last one sends the entry back into the queue. -/
theorem FcbOk.close {t t' : InodeTable} (h : FcbOk fcb r dead [])
    (hc : fileClose t fcb no = some (t', fcb'))
    (hr' : ∀ m, r' m + (if no = m then 1 else 0) = r m) : FcbOk fcb' r' dead [] := by
  have hno := h.count no
  have hrno := hr' no
  rw [if_pos rfl] at hrno
  have hoff : ∀ m, m ≠ no → r' m = r m ∧ dead m = dead m := by
    intro m hm
    have hm' := hr' m
    rw [if_neg (Ne.symm hm)] at hm'
    exact ⟨hm', rfl⟩
  obtain ⟨f, hf, -, hcases⟩ := fileClose_cases hc
  have hcounts : 1 ≤ (fcb.files no).fCount := by omega
  have hzero := h.not_dead hcounts
  rcases hcases with ⟨hmany, -, rfl⟩ | ⟨hlast, ip, flags, -, -, hfree⟩
  · -- other descriptors still name the entry
    refine h.store (by omega) ?_ hoff ?_
    · intro hdead
      omega
    · intro m
      by_cases hm : m = no
      · subst hm
        constructor
        · intro hcond
          omega
        · intro hcond
          omega
      · rw [(hoff m hm).1]
  · have hidle : FcbOk (fcb.set no f) r' dead [no] := by
      refine h.store (by omega) (fun _ => hlast) hoff ?_
      intro m
      by_cases hm : m = no
      · subst hm
        constructor
        · intro hcond
          exact absurd List.mem_cons_self hcond.2
        · intro hcond
          omega
      · rw [(hoff m hm).1]
        simp only [List.mem_singleton, hm, not_false_eq_true, List.not_mem_nil]
    exact hidle.giveBack (by omega) List.not_mem_nil hfree

/-! ## The calls -/

/-- The table serves the descriptors of all processes, but for the `dead` ones. -/
def Counted (k : Kernel) (dead : FcbNo → Nat) : Prop := FcbOk k.fcb (fdRefs k.procs) dead []

variable {k k' : Kernel} {p : Pid} {pr pr' : Proc} {res : Int}

/-- A process that changes without touching its descriptors. -/
theorem Counted.sameFds (h : Counted k dead) (pr' : Proc) (hpr : k.procs p = some pr)
    (hfds : pr'.fdtable = pr.fdtable) (t : InodeTable) :
    Counted ({ k with inodes := t }.setProc p (some pr')) dead := by
  have hsame : fdRefs (update k.procs p (some pr')) = fdRefs k.procs := by
    funext no
    have hprocs := fdRefs_update k.procs p (some pr') no
    rw [hpr] at hprocs
    have hrow : procRefs no (some pr') = procRefs no (some pr) := by
      show refs pr'.fdtable no = refs pr.fdtable no
      rw [hfds]
    omega
  show FcbOk k.fcb (fdRefs (update k.procs p (some pr'))) dead []
  rw [hsame]
  exact h

/-- Naming the entry `no` at an idle descriptor raises the demand for it. -/
theorem fdRefs_setFd_some {procs : Pid → Option Proc} {fd : Fd} (hpr : procs p = some pr)
    (hidle : pr.fdtable fd = none) (m : FcbNo) :
    fdRefs (update procs p (some (pr.setFd fd (some no)))) m
      = fdRefs procs m + if no = m then 1 else 0 := by
  have hsum := fdRefs_setFd hpr fd (some no) m
  simp only [hidle, Option.some.injEq, reduceCtorEq, if_false, Nat.add_zero] at hsum
  exact hsum

theorem counted_doClose {fd : Fd} (h : Counted k dead) (hpr : k.procs p = some pr)
    (hc : doClose k p pr fd = some (k', pr')) :
    Counted k' dead ∧ k'.procs p = some pr' := by
  obtain ⟨no, t, fcb', hno, hclose, rfl, rfl⟩ := doClose_cases hc
  constructor
  · refine FcbOk.close h hclose fun m => ?_
    have hsum := fdRefs_setFd hpr fd none m
    simp only [hno, Option.some.injEq, reduceCtorEq, if_false, Nat.add_zero] at hsum
    exact hsum
  · rw [Kernel.setProc_procs, update_self]

theorem counted_doDupfd {fd arg : Nat} (h : Counted k dead) (hpr : k.procs p = some pr)
    (hd : doDupfd k p pr fd arg = some (k', res)) : Counted k' dead := by
  rcases doDupfd_cases hd with rfl | ⟨i, j, fcb', hidle, hdup, rfl⟩
  · exact h
  · cases hj : pr.fdtable j with
    | none =>
      -- the source descriptor is closed: `-1` is copied onto `-1`
      rw [hj] at hdup
      obtain rfl := fileDup_none hdup
      refine h.sameFds _ hpr ?_ k.inodes
      show update pr.fdtable i none = pr.fdtable
      rw [← hidle, update_eq_self]
    | some no =>
      rw [hj] at hdup
      have hle := fdRefs_le k.procs no
      exact FcbOk.dup h hdup (by omega) (fdRefs_setFd_some hpr hidle)

/-- A process that has room for the two ends of a pipe. -/
def TwoIdle (pr : Proc) : Prop := ∃ i j, i ≠ j ∧ pr.fdtable i = none ∧ pr.fdtable j = none

theorem counted_sysPipe {areaOk : Bool} (h : Counted k dead)
    (hp : sysPipe k p areaOk = some (k', res)) :
    ∃ dead', Counted k' dead' ∧
      (areaOk = true ∨ (∀ pr, k.procs p = some pr → ¬ TwoIdle pr) → dead' = dead) := by
  obtain ⟨pr, hpr, hcases⟩ := sysPipe_cases hp
  rcases hcases with ⟨rfl, -⟩ | ⟨fd₁, fcb₁, no₁, hidle₁, halloc₁, hcases⟩
  · exact ⟨dead, h, fun _ => rfl⟩
  · obtain ⟨h₁, hr₁, -⟩ := FcbOk.alloc h halloc₁
    rcases hcases with ⟨fcb₂, hfree, -, rfl⟩ | ⟨fd₂, fcb₂, no₂, k₁, hidle₂, halloc₂, rfl, -, hend⟩
    · -- no second descriptor: the entry and the first descriptor are given back
      have h₂ : Counted { k with fcb := fcb₂ } dead :=
        FcbOk.giveBack h₁ hr₁ List.not_mem_nil hfree
      refine ⟨dead, h₂.sameFds _ hpr ?_ k.inodes, fun _ => rfl⟩
      show update (update pr.fdtable fd₁ (some no₁)) fd₁ none = pr.fdtable
      rw [update_idem, ← hidle₁, update_eq_self]
    · obtain ⟨h₂, hr₂, hno₂⟩ := FcbOk.alloc h₁ halloc₂
      have hne : no₁ ≠ no₂ := fun hc => hno₂ (hc ▸ List.mem_cons_self)
      have hfd : fd₂ ≠ fd₁ := by
        rintro rfl
        rw [Proc.setFd_fdtable, update_self] at hidle₂
        cases hidle₂
      have htwo : TwoIdle pr := by
        rw [Proc.setFd_fdtable, update_of_ne hfd] at hidle₂
        exact ⟨fd₂, fd₁, hfd, hidle₂, hidle₁⟩
      -- the demand after each of the two descriptors
      obtain ⟨procs₁, hprocs₁⟩ : ∃ procs₁, procs₁
        = update k.procs p (some (pr.setFd fd₁ (some no₁))) := ⟨_, rfl⟩
      have hpr₁ : procs₁ p = some (pr.setFd fd₁ (some no₁)) := by
        rw [hprocs₁, update_self]
      have hdemand₁ : ∀ m, fdRefs procs₁ m = fdRefs k.procs m + if no₁ = m then 1 else 0 := by
        rw [hprocs₁]
        exact fdRefs_setFd_some hpr hidle₁
      have hdemand₂ : ∀ m, fdRefs (update procs₁ p (some ((pr.setFd fd₁ (some no₁)).setFd fd₂
          (some no₂)))) m = fdRefs procs₁ m + if no₂ = m then 1 else 0 :=
        fdRefs_setFd_some hpr₁ hidle₂
      rw [hprocs₁, update_idem, ← hprocs₁] at hdemand₂
      have hr₂' : fdRefs procs₁ no₂ = 0 := by
        rw [hdemand₁, hr₂, if_neg hne]
      have hswap := h₂.swap
      cases areaOk with
      | true =>
        rw [if_pos rfl] at hend
        obtain ⟨ip, t, f₁, f₂, rfl, hf₁, -, hf₂, -, -⟩ := pipeFill_cases hend
        refine ⟨dead, ?_, fun _ => rfl⟩
        have hzero₁ := hswap.count no₁
        have hzero₂ := hswap.count no₂
        have hcount₁ : f₁.fCount + dead no₁ = 1 := by
          rw [hf₁]
          show u32 ((fcb₂.files no₁).fCount + 1) + dead no₁ = 1
          rw [u32_of_lt (by omega)]
          omega
        have h₃ := hswap.name hr₁ hdemand₁ hcount₁ fun _ _ => rfl
        have hcount₂ : f₂.fCount + dead no₂ = 1 := by
          rw [hf₂]
          show u32 ((update fcb₂.files no₁ f₁ no₂).fCount + 1) + dead no₂ = 1
          rw [update_of_ne (Ne.symm hne), u32_of_lt (by omega)]
          omega
        exact h₃.name hr₂' hdemand₂ hcount₂ fun _ _ => rfl
      | false =>
        rw [if_neg (fun hc => nomatch hc)] at hend
        subst hend
        -- both descriptors name an entry that does not count them
        have hfcb₁ : FcbOk (fcb₂.set no₁ (fcb₂.files no₁)) (fdRefs procs₁)
            (update dead no₁ 1) [no₂] := by
          refine hswap.name hr₁ hdemand₁ ?_ fun m hm => update_of_ne hm ..
          have hzero := hswap.count no₁
          rw [update_self]
          omega
        have hset : ∀ no, fcb₂.set no (fcb₂.files no) = fcb₂ := fun no => by
          rw [FcbTable.set, update_eq_self]
        rw [hset] at hfcb₁
        have hdead₂ : (fcb₂.files no₂).fCount
            + update (update dead no₁ 1) no₂ 1 no₂ = 1 := by
          have hzero := hswap.count no₂
          rw [update_self]
          omega
        have hfcb₂ := hfcb₁.name hr₂' hdemand₂ hdead₂ fun m hm => update_of_ne hm ..
        rw [hset] at hfcb₂
        refine ⟨_, hfcb₂, fun hcond => ?_⟩
        rcases hcond with hc | hc
        · cases hc
        · exact absurd htwo (hc pr hpr)

theorem counted_openInstall {fd : Fd} {ip : Slot} {flags : Nat} (h : Counted k dead)
    (hpr : k.procs p = some pr) (hidle : pr.fdtable fd = none)
    (ho : openInstall k p pr fd ip flags = some (k', res)) : Counted k' dead := by
  obtain ⟨fcb', no, f, t, halloc, rfl, hf, -, -⟩ := openInstall_cases ho
  obtain ⟨h₁, hr, -⟩ := FcbOk.alloc h halloc
  have hzero := h₁.count no
  refine h₁.name hr (fdRefs_setFd_some hpr hidle) ?_ fun _ _ => rfl
  rw [hf, u32_of_lt (by omega)]
  omega

theorem counted_sysOpen {path : Option OpenEnv} {flags mode : Nat} (h : Counted k dead)
    (ho : sysOpen k p path flags mode = some (k', res)) : Counted k' dead := by
  obtain ⟨pr, hpr, hcases⟩ := sysOpen_cases ho
  rcases hcases with ⟨rfl, -⟩ | ⟨t, r, -, ⟨-, -, rfl⟩ | ⟨fd, ip, -, hidle, hinstall⟩⟩
  · exact h
  · exact h
  · have ht : Counted { k with inodes := t } dead := h
    exact counted_openInstall ht hpr hidle hinstall

/-! ## Fork and exit -/

/-- The demand of the descriptors `fds` of a process. -/
def fdsDemand (pr : Proc) (fds : List Fd) (no : FcbNo) : Nat :=
  fds.countP fun fd => pr.fdtable fd = some no

theorem fdsDemand_cons (pr : Proc) (fd : Fd) (fds : List Fd) (no : FcbNo) :
    fdsDemand pr (fd :: fds) no
      = fdsDemand pr fds no + if pr.fdtable fd = some no then 1 else 0 := by
  rw [fdsDemand, List.countP_cons]
  simp only [decide_eq_true_eq]
  rfl

theorem fdsDemand_all (pr : Proc) (no : FcbNo) :
    fdsDemand pr (List.finRange NFD) no = procRefs no (some pr) :=
  (refs_eq_countP pr.fdtable no).symm

/-- The loop of `do_fork` adds the demand of the descriptors it goes over. -/
theorem FcbOk.dupAll {fds : List Fd} (h : FcbOk fcb r dead [])
    (hd : Sysfile.dupAll pr fds fcb = some fcb')
    (hlt : ∀ no, r no + fds.length < 4294967296) :
    FcbOk fcb' (fun no => r no + fdsDemand pr fds no) dead [] := by
  induction fds generalizing fcb r with
  | nil =>
    cases hd
    exact h
  | cons fd fds ih =>
    obtain ⟨fcb₁, hdup, hrest⟩ := bind_eq_some_iff.mp hd
    have hlen : ∀ no, r no + fds.length + 1 < 4294967296 := fun no => by
      have := hlt no
      rw [List.length_cons] at this
      omega
    cases hfd : pr.fdtable fd with
    | none =>
      rw [hfd] at hdup
      obtain rfl := fileDup_none hdup
      have h' := ih h hrest fun no => by have := hlen no; omega
      have hsame : ∀ no, fdsDemand pr (fd :: fds) no = fdsDemand pr fds no := fun no => by
        simp only [fdsDemand_cons, hfd, reduceCtorEq, if_false, Nat.add_zero]
      simp only [hsame]
      exact h'
    | some no₀ =>
      rw [hfd] at hdup
      have h₁ : FcbOk fcb₁ (fun no => r no + if no₀ = no then 1 else 0) dead [] :=
        h.dup hdup (by have := hlen no₀; omega) fun _ => rfl
      have h' := ih h₁ hrest fun no => by
        have := hlen no
        show r no + (if no₀ = no then 1 else 0) + fds.length < 4294967296
        split <;> omega
      have hsum : ∀ no, r no + fdsDemand pr (fd :: fds) no
          = r no + (if no₀ = no then 1 else 0) + fdsDemand pr fds no := fun no => by
        rw [fdsDemand_cons, hfd]
        simp only [Option.some.injEq]
        omega
      simp only [hsum]
      exact h'

/-- The loop of `freeproc` takes the demand of the descriptors it goes over away. -/
theorem FcbOk.closeAll {fds : List Fd} {t t' : InodeTable} (h : FcbOk fcb r dead [])
    (hc : Sysfile.closeAll pr fds (t, fcb) = some (t', fcb'))
    (hr : ∀ no, r no = r' no + fdsDemand pr fds no) : FcbOk fcb' r' dead [] := by
  induction fds generalizing t fcb r with
  | nil =>
    cases hc
    have hsame : r = r' := funext hr
    rw [← hsame]
    exact h
  | cons fd fds ih =>
    simp only [fdsDemand_cons] at hr
    rw [Sysfile.closeAll] at hc
    cases hfd : pr.fdtable fd with
    | none =>
      rw [hfd] at hc
      refine ih h hc fun no => ?_
      simp only [hr no, hfd, reduceCtorEq, if_false, Nat.add_zero]
    | some no₀ =>
      rw [hfd] at hc
      obtain ⟨⟨t₁, fcb₁⟩, hclose, hc⟩ := bind_eq_some_iff.mp hc
      refine ih (h.close hclose fun no => ?_) hc fun _ => rfl
      rw [hr no, hfd]
      simp only [Option.some.injEq]
      omega

theorem counted_doFork {child : Option Pid} (h : Counted k dead)
    (hf : doFork k p child = some (k', res)) : Counted k' dead := by
  obtain ⟨pr, hpr, ⟨rfl, -⟩ | ⟨c, t, fcb', -, hfree, hdups, -, rfl, -⟩⟩ := doFork_cases hf
  · exact h
  · have h' := FcbOk.dupAll h hdups fun no => by
      have hle := fdRefs_le k.procs no
      show fdRefs k.procs no + 64 < 4294967296
      omega
    have hdemand : (fun no => fdRefs k.procs no + fdsDemand pr (List.finRange NFD) no)
        = fdRefs (update k.procs c (some pr)) := by
      funext no
      have hsum := fdRefs_update k.procs c (some pr) no
      have hnone : procRefs no (k.procs c) = 0 := by rw [hfree]; rfl
      rw [fdsDemand_all]
      omega
    rw [hdemand] at h'
    exact h'

theorem counted_doExit (h : Counted k dead) (he : doExit k p = some (k', res)) :
    Counted k' dead := by
  obtain ⟨pr, t₁, t₂, fcb', hpr, hclose, -, rfl⟩ := doExit_cases he
  refine FcbOk.closeAll h hclose fun no => ?_
  have hsum := fdRefs_update k.procs p none no
  have hnone : procRefs no none = 0 := rfl
  rw [hpr] at hsum
  rw [fdsDemand_all]
  show fdRefs k.procs no = fdRefs (update k.procs p none) no + procRefs no (some pr)
  omega

/-! ## Runs -/

/-- The calls that keep clear of the early exit of `sys_pipe` and of the unchecked index of
    `sys_dup2`. -/
def PipeAdmitted (k : Kernel) (i : Pid × Call) : Prop :=
  match i.2 with
  | .pipe areaOk => areaOk = true ∨ ∀ pr, k.procs i.1 = some pr → ¬ TwoIdle pr
  | .dup2 oldfd _ => oldfd < NFD
  | _ => True

/-- One call: the table keeps serving the descriptors, and no descriptor goes dead unless a
    `pipe` with a refused buffer finds room for both its ends. -/
theorem counted_step {i : Pid × Call} (h : Counted k dead) (hs : Step k i k') :
    ∃ dead', Counted k' dead' ∧ (PipeAdmitted k i → dead' = dead) := by
  obtain ⟨p, call⟩ := i
  obtain ⟨res, hexec⟩ := hs
  cases call with
  | openPath path flags mode => exact ⟨dead, counted_sysOpen h hexec, fun _ => rfl⟩
  | creat path mode | mkdir path mode =>
    obtain ⟨pr, t, -, rfl, -⟩ := sysCreate_cases hexec
    exact ⟨dead, h, fun _ => rfl⟩
  | chmod path mode =>
    obtain ⟨pr, t, -, rfl, -⟩ := sysChmod_cases hexec
    exact ⟨dead, h, fun _ => rfl⟩
  | stat path areaOk =>
    obtain ⟨pr, t, -, rfl, -⟩ := sysStat_cases hexec
    exact ⟨dead, h, fun _ => rfl⟩
  | fstat fd areaOk =>
    obtain ⟨t, rfl, -⟩ := sysFstat_cases hexec
    exact ⟨dead, h, fun _ => rfl⟩
  | chdir path =>
    obtain ⟨pr, t, hpr, ⟨rfl, -⟩ | ⟨walk, t₁, ip, -, -, ⟨rfl, -⟩ | ⟨rfl, -⟩⟩⟩ :=
      sysChdir_cases hexec
    · exact ⟨dead, h, fun _ => rfl⟩
    · exact ⟨dead, h, fun _ => rfl⟩
    · exact ⟨dead, h.sameFds { pr with icwd := ip } hpr rfl t, fun _ => rfl⟩
  | truncate path length env =>
    obtain ⟨t, rfl, -⟩ := sysTruncate_cases hexec
    exact ⟨dead, h, fun _ => rfl⟩
  | link paths junk =>
    obtain ⟨t, rfl, -⟩ := sysLink_cases hexec
    exact ⟨dead, h, fun _ => rfl⟩
  | close fd =>
    obtain ⟨pr, hpr, ⟨rfl, -⟩ | ⟨i, no, pr', -, hclose, -⟩⟩ := sysClose_cases hexec
    · exact ⟨dead, h, fun _ => rfl⟩
    · exact ⟨dead, (counted_doClose h hpr hclose).1, fun _ => rfl⟩
  | dup oldfd =>
    obtain ⟨pr, hpr, ⟨rfl, -⟩ | ⟨-, hdup⟩⟩ := sysDup_cases hexec
    · exact ⟨dead, h, fun _ => rfl⟩
    · exact ⟨dead, counted_doDupfd h hpr hdup, fun _ => rfl⟩
  | dup2 oldfd newfd =>
    obtain ⟨pr, hpr, ⟨rfl, -⟩ | hdup | ⟨i, k₁, pr₁, -, hclose, hdup⟩⟩ := sysDup2_cases hexec
    · exact ⟨dead, h, fun _ => rfl⟩
    · exact ⟨dead, counted_doDupfd h hpr hdup, fun _ => rfl⟩
    · obtain ⟨h₁, hpr₁⟩ := counted_doClose h hpr hclose
      exact ⟨dead, counted_doDupfd h₁ hpr₁ hdup, fun _ => rfl⟩
  | pipe areaOk => exact counted_sysPipe h hexec
  | fork child => exact ⟨dead, counted_doFork h hexec, fun _ => rfl⟩
  | execve path =>
    obtain ⟨pr, t, hpr, ⟨rfl, -⟩ | ⟨env, ip, -, ⟨-, -, rfl, -⟩ | ⟨rfl, -⟩⟩⟩ :=
      doExecve_cases hexec
    · exact ⟨dead, h, fun _ => rfl⟩
    · exact ⟨dead, h, fun _ => rfl⟩
    · exact ⟨dead, h.sameFds { pr with vmInodes := List.replicate env.segs ip } hpr rfl t,
        fun _ => rfl⟩
  | exit => exact ⟨dead, counted_doExit h hexec, fun _ => rfl⟩

/-! ## The state after boot -/

/-- `sys_ftable_init` puts every entry into the idle queue, in order. -/
theorem sysFtableInit_spec (fcb : FcbTable) :
    ∃ fcb', sysFtableInit fcb = some fcb' ∧ Holds fcb'.qm (List.finRange NFILE) ∧
      fcb'.qm.queueCapacity = NFILE ∧ ∀ no, (fcb'.files no).fCount = 0 := by
  have hroom : ((List.finRange NFILE).length : Int) ≤ NFILE := by rw [List.length_finRange]
  obtain ⟨qm, qm', hinit, hall, hholds, hcap⟩ :=
    holds_init_pushAll fcb.qm.queueArray (by decide) hroom
  refine ⟨{ files := fun no => { fcb.files no with fCount := 0 }, qm := qm' }, ?_, hholds, hcap,
    fun _ => rfl⟩
  simp only [sysFtableInit, hinit, hall, Option.bind_eq_bind, Option.bind_some, Option.pure_def]

/-- After boot no descriptor is open, and every entry is idle. -/
theorem Booted.counted (h : Booted k) : Counted k (fun _ => 0) := by
  obtain ⟨fcb, hfcb⟩ := h.fcb
  obtain ⟨t, root, -, hprocs⟩ := h.init
  obtain ⟨fcb', hspec, hholds, hcap, hzero⟩ := sysFtableInit_spec fcb
  obtain rfl : fcb' = k.fcb := some.inj (hspec.symm.trans hfcb)
  have hdemand : ∀ no, fdRefs k.procs no = 0 := by
    intro no
    rw [hprocs]
    refine total_eq_zero.mpr fun p => ?_
    by_cases hp : p = 1
    · rw [hp, update_self]
      exact refs_none no
    · rw [update_of_ne hp]
      rfl
  refine ⟨hcap, fun no => ?_, fun no hno => absurd hno (Nat.lt_irrefl 0), _, hholds, fun no => ?_⟩
  · rw [hzero, hdemand]
  · rw [if_pos ⟨hdemand no, List.not_mem_nil⟩]
    exact List.count_eq_one_of_mem (List.nodup_finRange NFILE) (List.mem_finRange no)

/-! ## The file table along runs -/

/-- The file table agrees with the descriptors and with the idle queue. -/
def FileTableOk (k : Kernel) : Prop :=
  ∃ xs, Holds k.fcb.qm xs ∧ ∀ no,
    (k.fcb.files no).fCount = fdRefs k.procs no ∧
    xs.count no = if (k.fcb.files no).fCount = 0 then 1 else 0

theorem Counted.fileTableOk (h : Counted k (fun _ => 0)) : FileTableOk k := by
  obtain ⟨xs, hholds, hcount⟩ := h.idle
  refine ⟨xs, hholds, fun no => ?_⟩
  have hno : (k.fcb.files no).fCount = fdRefs k.procs no := h.count no
  refine ⟨hno, ?_⟩
  rw [hcount no, hno]
  simp only [List.not_mem_nil, not_false_eq_true, and_true]

/-- No descriptor goes dead in a run of such calls. -/
theorem counted_run (h0 : Booted k) (hr : Reaches Step PipeAdmitted k k') :
    Counted k' (fun _ => 0) := by
  refine hr.invariant (I := fun k => Counted k fun _ => 0) h0.counted fun a i b ha hc hs => ?_
  obtain ⟨dead', hb, hdead⟩ := counted_step ha hs
  rw [hdead hc] at hb
  exact hb

/-- In every run from boot in which every `pipe` that has room for two descriptors gets a buffer
    that is admitted, the file table agrees with the descriptors after every call. -/
theorem fileTable_ok (h0 : Booted k) (hr : Reaches Step PipeAdmitted k k') : FileTableOk k' :=
  (counted_run h0 hr).fileTableOk

/-! ## Runs by their calls -/

/-- The kernel after a call; `none` if the call does not return. -/
def afterCall (k : Kernel) (i : Pid × Call) : Option Kernel := (exec k i.1 i.2).map Prod.fst

theorem afterCall_step (k : Kernel) (i : Pid × Call) (k' : Kernel) (h : afterCall k i = some k') :
    Step k i k' := by
  obtain ⟨⟨k₁, res⟩, hexec, rfl⟩ := Option.map_eq_some_iff.mp h
  exact ⟨res, hexec⟩

def blankFcb : FcbTable := { files := fun _ => ⟨0, 0, 0, none⟩, qm := ⟨0, 0, 0, 0, fun _ => 0⟩ }

/-- Inode 5 is a file on disk, the others are directories. -/
def blankTable : InodeTable :=
  { mInodes := fun _ => ⟨⟨0, 0, 0, 0⟩, ⟨false, false⟩, 0, 0, false, 0⟩
    diskInode := fun _ iNo => freshInode (if iNo = 5 then EXT2_S_IFREG else EXT2_S_IFDIR) }

/-- Boot from tables that are zero. -/
def boot : Option Kernel := do
  let fcb ← sysFtableInit blankFcb
  let (t, r) ← namei (inodeTableInit blankTable) 0 ⟨true, []⟩
  let root ← r
  return ⟨t, fcb, update (fun _ => none) 1 (some (initProc root))⟩

set_option maxRecDepth 10000 in
theorem boot_isSome : boot.isSome := by decide +kernel

def bootKernel : Kernel := boot.get boot_isSome

theorem bootKernel_booted : Booted bootKernel := by
  have h : boot = some bootKernel := (Option.some_get _).symm
  unfold boot at h
  obtain ⟨fcb, hfcb, h⟩ := bind_eq_some_iff.mp h
  obtain ⟨⟨t, r⟩, hwalk, h⟩ := bind_eq_some_iff.mp h
  obtain ⟨root, hroot, h⟩ := bind_eq_some_iff.mp h
  have hroot : r = some root := hroot
  rw [hroot] at hwalk
  rw [← some.inj h]
  exact ⟨⟨blankFcb, hfcb⟩, blankTable, root, hwalk, rfl⟩

set_option maxRecDepth 10000 in
/-- The agreement fails in a run of one call: `pipe` with a buffer that is refused gets as far as
    installing both descriptors. -/
theorem fileTable_dead_descriptor :
    ∃ k k', Booted k ∧ Reaches Step anyInput k k' ∧ Step k (1, .pipe false) k' ∧
      ¬ FileTableOk k' := by
  have hrun : ∃ k' ∈ afterCall bootKernel (1, .pipe false), (k'.fcb.files 1).fCount = 0 ∧
      ∃ pr ∈ k'.procs 1, pr.fdtable 1 = some 1 := by decide +kernel
  obtain ⟨k', hcall, hcount, pr, hpr, hfd⟩ := hrun
  have hstep := afterCall_step _ _ _ hcall
  refine ⟨bootKernel, k', bootKernel_booted, Reaches.snoc Reaches.refl trivial hstep, hstep, ?_⟩
  rintro ⟨xs, -, hok⟩
  have hzero : fdRefs k'.procs 1 = 0 := (hok 1).1.symm.trans hcount
  have hrow := total_eq_zero.mp hzero 1
  rw [hpr] at hrow
  exact refs_eq_zero.mp hrow 1 hfd

/-- A test of `PipeAdmitted`: only the admitted buffer is looked for. -/
def pipeAdmitted (_ : Kernel) (i : Pid × Call) : Bool :=
  match i.2 with
  | .pipe areaOk => areaOk
  | .dup2 oldfd _ => oldfd < NFD
  | _ => true

theorem pipeAdmitted_sound (k : Kernel) (i : Pid × Call) (h : pipeAdmitted k i = true) :
    PipeAdmitted k i := by
  obtain ⟨p, call⟩ := i
  cases call with
  | pipe areaOk => exact .inl h
  | dup2 oldfd newfd =>
    show oldfd < NFD
    exact of_decide_eq_true h
  | _ => trivial

/-- A pipe whose reading end is copied, and a child that shares both ends. -/
def sharePipe : List (Pid × Call) := [(1, .pipe true), (1, .dup2 0 5), (1, .fork (some 2))]

/-- Both processes let go of the pipe, the child by its exit. -/
def leavePipe : List (Pid × Call) :=
  [(1, .close 0), (2, .close 1), (1, .close 5), (2, .exit), (1, .close 1)]

set_option maxRecDepth 10000 in
/-- A run of eight calls in which the reading end has up to four descriptors, and at the end both
    entries are idle again, behind all others. -/
theorem fileTable_ok_shared : ∃ k k₁ k₂, Booted k ∧ Reaches Step PipeAdmitted k k₁ ∧
    Reaches Step PipeAdmitted k₁ k₂ ∧
    ((k₁.fcb.files 0).fCount = 4 ∧ (k₁.fcb.files 1).fCount = 2 ∧ queueFront k₁.fcb.qm = 2) ∧
    ((k₂.fcb.files 0).fCount = 0 ∧ (k₂.fcb.files 1).fCount = 0 ∧ queueFront k₂.fcb.qm = 2) ∧
    FileTableOk k₁ ∧ FileTableOk k₂ := by
  let call := tested pipeAdmitted afterCall
  have hrun : Leads call bootKernel sharePipe fun k₁ =>
      ((k₁.fcb.files 0).fCount = 4 ∧ (k₁.fcb.files 1).fCount = 2 ∧ queueFront k₁.fcb.qm = 2) ∧
      Leads call k₁ leavePipe fun k₂ =>
        (k₂.fcb.files 0).fCount = 0 ∧ (k₂.fcb.files 1).fCount = 0 ∧ queueFront k₂.fcb.qm = 2 := by
    decide +kernel
  have hsteps := tested_step pipeAdmitted_sound afterCall_step
  obtain ⟨k₁, hshared, hopen, hrun⟩ := hrun.reaches Step _ hsteps
  obtain ⟨k₂, hleft, hidle⟩ := hrun.reaches Step _ hsteps
  exact ⟨bootKernel, k₁, k₂, bootKernel_booted, hshared, hleft, hopen, hidle,
    fileTable_ok bootKernel_booted hshared, fileTable_ok bootKernel_booted (hshared.trans hleft)⟩

end Uniks.Sysfile
