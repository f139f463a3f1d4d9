/-
  When `sys_dup2` does what its name promises.

  The call closes the new descriptor first and then copies the old one, whatever that holds by now.
  Two equal descriptors are closed; an old descriptor that is closed is copied as it is, and the
  call succeeds.  Otherwise the file entry behind the old descriptor gains one reference, and the
  one behind the new descriptor loses one (`Dup2Law`).
-/
import Uniks.FileTable

namespace Uniks.Sysfile

open Uniks.Inode Uniks.Queue Uniks.RefCount
open Function (update update_idem update_self update_of_ne)
open Option (some bind_eq_some_iff)

/-- What `dup2` is to do for a process: copy an open descriptor, or refuse. -/
structure Dup2Law (k : Kernel) (p : Pid) (pr : Proc) (oldfd newfd : Nat) : Prop where
  copies : ∀ (i j : Fd) (no : FcbNo), (i : Nat) = oldfd → (j : Nat) = newfd →
    pr.fdtable i = some no → ∃ k', sysDup2 k p oldfd newfd = some (k', (newfd : Int)) ∧
      k'.procs = update k.procs p (some (pr.setFd j (some no))) ∧
      (∀ m, (k'.fcb.files m).fCount + (if pr.fdtable j = some m then 1 else 0)
        = (k.fcb.files m).fCount + (if no = m then 1 else 0)) ∧
      (i = j → k' = k)
  refuses : (¬ ∃ (i j : Fd) (no : FcbNo), (i : Nat) = oldfd ∧ (j : Nat) = newfd ∧
    pr.fdtable i = some no) → ∃ k', sysDup2 k p oldfd newfd = some (k', -EBADF) ∧
      k'.procs = k.procs ∧ ∀ m, (k'.fcb.files m).fCount = (k.fcb.files m).fCount

/-- The file entry that a descriptor names counts it. -/
def Counts (k : Kernel) (fd : Option FcbNo) : Prop :=
  ∀ no, fd = some no → 1 ≤ (k.fcb.files no).fCount

/-- The new descriptor is out of range, or the old one is open and another one, and the entries
    they name count them. -/
def Dup2Safe (k : Kernel) (pr : Proc) (oldfd newfd : Nat) : Prop :=
  NFD ≤ newfd ∨ ∃ (i j : Fd) (no : FcbNo), (i : Nat) = oldfd ∧ (j : Nat) = newfd ∧ i ≠ j ∧
    pr.fdtable i = some no ∧ Counts k (some no) ∧ Counts k (pr.fdtable j)

/-- An entry that is in use belongs to an inode. -/
def Named (k : Kernel) : Prop := ∀ no, 1 ≤ (k.fcb.files no).fCount → (k.fcb.files no).fInode ≠ none

variable {k k' : Kernel} {p : Pid} {pr pr' : Proc} {dead : FcbNo → Nat} {no : FcbNo} {i j : Fd}
  {oldfd newfd : Nat}

/-! ## Closing and copying -/

/-- There is room in the queue for an entry that is in use. -/
theorem FcbOk.free_isSome {fcb : FcbTable} {r : FcbNo → Nat} (h : FcbOk fcb r dead [])
    (hr : r no ≠ 0) (f : FileT) : ∃ fcb', fcbnoFree (fcb.set no f) no = some fcb' := by
  obtain ⟨xs, hholds, hcount⟩ := h.idle
  have hno : no ∉ xs := by
    rw [← List.count_eq_zero, hcount no, if_neg fun hc => hr hc.1]
  have hnodup : xs.Nodup := by
    rw [List.nodup_iff_count_le_one]
    intro m
    rw [hcount m]
    split
    · exact Nat.le_refl 1
    · exact Nat.zero_le 1
  have hlen : (no :: xs).length ≤ Fintype.card FcbNo :=
    (List.nodup_cons.mpr ⟨hno, hnodup⟩).length_le_card
  rw [Fintype.card_fin, List.length_cons] at hlen
  have hroom : (xs.length : Int) < fcb.qm.queueCapacity := by
    rw [h.capacity]
    omega
  obtain ⟨qm, hpush⟩ := hholds.push_isSome no hroom
  exact ⟨{ fcb.set no f with qm := qm }, by rw [fcbnoFree, FcbTable.set_qm, hpush]; rfl⟩

/-- An open descriptor whose entry counts it can be closed. -/
theorem doClose_isSome (h : Counted k dead) (hnamed : Named k)
    (hj : pr.fdtable j = some no) (hcount : 1 ≤ (k.fcb.files no).fCount) :
    ∃ k', doClose k p pr j = some (k', pr.setFd j none) := by
  have hclose : ∃ r, fileClose k.inodes k.fcb no = some r := by
    unfold fileClose
    dsimp only
    rw [if_pos hcount]
    by_cases hmany : (k.fcb.files no).fCount - 1 > 0
    · exact ⟨_, if_pos hmany⟩
    · rw [if_neg hmany]
      obtain ⟨ip, hip⟩ := Option.ne_none_iff_exists'.mp (hnamed no hcount)
      have hdemand : fdRefs k.procs no ≠ 0 := by
        have hno := h.count no
        omega
      obtain ⟨fcb', hfree⟩ := h.free_isSome hdemand ⟨(k.fcb.files no).fCount - 1,
        (k.fcb.files no).fFlags, (k.fcb.files no).fPos, some ip⟩
      rw [hip]
      dsimp only
      rw [hfree]
      exact ⟨_, rfl⟩
  obtain ⟨⟨t, fcb⟩, hclose⟩ := hclose
  exact ⟨_, by rw [doClose, hj]; simp only [Option.bind_eq_bind, Option.bind_some, hclose]; rfl⟩

/-- The first idle descriptor from an idle one on is that one. -/
theorem idleFd_self (hj : pr.fdtable j = none) : idleFd pr j = some j := by
  unfold idleFd
  rw [List.find?_eq_some_iff_append]
  refine ⟨by simp [hj], ?_⟩
  obtain ⟨as, bs, hsplit⟩ := List.append_of_mem (List.mem_finRange j)
  refine ⟨as, bs, hsplit, fun a ha => ?_⟩
  have hsorted := List.pairwise_lt_finRange NFD
  rw [hsplit, List.pairwise_append] at hsorted
  have hlt := hsorted.2.2 a ha j List.mem_cons_self
  have hlt : (a : Nat) < j := hlt
  simp only [Bool.not_eq_true', Bool.and_eq_false_iff, decide_eq_false_iff_not]
  omega

/-- An open descriptor is copied to an idle one. -/
theorem doDupfd_open (hi : pr.fdtable i = some no) (hj : pr.fdtable j = none) :
    doDupfd k p pr i j = (fileDup k.fcb (some no)).map fun fcb =>
      ({ k with fcb := fcb }.setProc p (some (pr.setFd j (some no))), ((j : Nat) : Int)) := by
  have hlt := j.isLt
  have hi' : pr.fdtable ⟨i, i.isLt⟩ = some no := hi
  rw [doDupfd, if_neg (by omega), idleFd_self hj]
  dsimp only
  rw [dif_pos i.isLt, hi']
  cases fileDup k.fcb (some no) <;> rfl

/-- A closed descriptor is copied as it is. -/
theorem doDupfd_closed (hi : pr.fdtable i = none) (hj : pr.fdtable j = none) :
    doDupfd k p pr i j = some (k.setProc p (some (pr.setFd j none)), ((j : Nat) : Int)) := by
  have hlt := j.isLt
  have hi' : pr.fdtable ⟨i, i.isLt⟩ = none := hi
  rw [doDupfd, if_neg (by omega), idleFd_self hj]
  dsimp only
  rw [dif_pos i.isLt, hi']
  rfl

/-- What the copy of a closed descriptor, or of one that is out of range, comes to. -/
theorem doDupfd_res {fd : Nat} {res : Int} (h : doDupfd k p pr fd j = some (k', res)) :
    res ≠ -EBADF := by
  have hlt := j.isLt
  unfold doDupfd at h
  rw [if_neg (by omega)] at h
  split at h
  · cases h
    decide
  · split at h
    · obtain ⟨fcb, -, h⟩ := bind_eq_some_iff.mp h
      cases h
      have hbad : EBADF = 9 := rfl
      omega
    · cases h

/-! ## The call -/

theorem sysDup2_out (hpr : k.procs p = some pr) (hnew : NFD ≤ newfd) :
    sysDup2 k p oldfd newfd = some (k, -EBADF) := by
  rw [sysDup2, hpr]
  exact dif_neg (by omega)

/-- With a new descriptor that is idle, the call is that of `do_dupfd`. -/
theorem sysDup2_idle (hpr : k.procs p = some pr) (hj : pr.fdtable j = none) :
    sysDup2 k p oldfd j = doDupfd k p pr oldfd j := by
  rw [sysDup2, hpr]
  have hj' : pr.fdtable ⟨j, j.isLt⟩ = none := hj
  simp only [Option.bind_eq_bind, Option.bind_some, dif_pos j.isLt, hj']

/-- Otherwise the new descriptor is closed first. -/
theorem sysDup2_open (hpr : k.procs p = some pr) (hj : pr.fdtable j = some no) :
    sysDup2 k p oldfd j = (doClose k p pr j).bind fun r => doDupfd r.1 p r.2 oldfd j := by
  rw [sysDup2, hpr]
  have hj' : pr.fdtable ⟨j, j.isLt⟩ = some no := hj
  simp only [Option.bind_eq_bind, Option.bind_some, dif_pos j.isLt, hj']

/-- The counts after a copy, when everything is counted before and after. -/
theorem counts_copied (h : Counted k dead) (h' : Counted k' dead) (hpr : k.procs p = some pr)
    (hprocs : k'.procs = update k.procs p (some (pr.setFd j (some no)))) (m : FcbNo) :
    (k'.fcb.files m).fCount + (if pr.fdtable j = some m then 1 else 0)
      = (k.fcb.files m).fCount + (if no = m then 1 else 0) := by
  have hbefore := h.count m
  have hafter := h'.count m
  have hrefs := fdRefs_setFd hpr j (some no) m
  simp only [Option.some.injEq] at hrefs
  rw [hprocs] at hafter
  omega

/-- An open descriptor that counts is copied to an idle one. -/
theorem dup_copies (hi : pr.fdtable i = some no)
    (hj : pr.fdtable j = none) (hcount : 1 ≤ (k.fcb.files no).fCount) :
    ∃ k', doDupfd k p pr i j = some (k', ((j : Nat) : Int)) ∧
      k'.procs = update k.procs p (some (pr.setFd j (some no))) := by
  have hdup : fileDup k.fcb (some no) = some (k.fcb.set no
      { k.fcb.files no with fCount := u32 ((k.fcb.files no).fCount + 1) }) := if_pos hcount
  rw [doDupfd_open hi hj, hdup]
  exact ⟨_, rfl, rfl⟩

/-- The descriptor is copied where nothing stands in the way. -/
theorem dup2_copies (h : Counted k dead) (hnamed : Named k) (hpr : k.procs p = some pr)
    (hne : i ≠ j) (hi : pr.fdtable i = some no) (hcounts : Counts k (some no))
    (hcounts' : Counts k (pr.fdtable j)) :
    ∃ k', sysDup2 k p i j = some (k', ((j : Nat) : Int)) ∧ Counted k' dead ∧
      k'.procs = update k.procs p (some (pr.setFd j (some no))) := by
  have hcount := hcounts no rfl
  cases hj : pr.fdtable j with
  | none =>
    obtain ⟨k', hrun, hprocs⟩ := dup_copies hi hj hcount
    exact ⟨k', by rw [sysDup2_idle hpr hj, hrun], counted_doDupfd h hpr hrun, hprocs⟩
  | some prev =>
    rw [hj] at hcounts'
    obtain ⟨k₁, hclose⟩ := doClose_isSome h hnamed hj (hcounts' prev rfl)
    obtain ⟨h₁, hpr₁⟩ := counted_doClose h hpr hclose
    obtain ⟨no', t, fcb, -, -, -, hk₁⟩ := doClose_cases hclose
    have hi₁ : (pr.setFd j none).fdtable i = some no := by
      rw [Proc.setFd_fdtable, update_of_ne hne, hi]
    have hj₁ : (pr.setFd j none).fdtable j = none := by
      rw [Proc.setFd_fdtable, update_self]
    -- the old descriptor still names the entry, and so its count has not come down to 0
    have hcount₁ : 1 ≤ (k₁.fcb.files no).fCount := by
      have hno := h₁.count no
      have hdead := h.not_dead hcount
      have hrow : 0 < procRefs no (k₁.procs p) := by
        rw [hpr₁]
        exact refs_pos.mpr ⟨i, hi₁⟩
      have hle := le_total (fun q => procRefs no (k₁.procs q)) p
      have htotal : fdRefs k₁.procs no = total fun q => procRefs no (k₁.procs q) := rfl
      omega
    obtain ⟨k', hrun, hprocs⟩ := dup_copies hi₁ hj₁ hcount₁
    refine ⟨k', ?_, counted_doDupfd h₁ hpr₁ hrun, ?_⟩
    · rw [sysDup2_open hpr hj, hclose, Option.bind_some, hrun]
    · have hprocs₁ : k₁.procs = update k.procs p (some (pr.setFd j none)) := by
        rw [hk₁]
        rfl
      have hset : (pr.setFd j none).setFd j (some no) = pr.setFd j (some no) := by
        unfold Proc.setFd
        dsimp only
        rw [update_idem]
      rw [hprocs, hprocs₁, update_idem, hset]

/-- An entry that does not count its descriptors is not copied. -/
theorem dup2_uncounted (hpr : k.procs p = some pr) (hi : pr.fdtable i = some no) (hne : i ≠ j)
    (hzero : (k.fcb.files no).fCount = 0) : sysDup2 k p i j = none := by
  have hdup : ∀ {k₁ : Kernel} {pr₁ : Proc}, pr₁.fdtable i = some no → pr₁.fdtable j = none →
      (k₁.fcb.files no).fCount = 0 → doDupfd k₁ p pr₁ i j = none := by
    intro k₁ pr₁ hi₁ hj₁ hzero₁
    have hnone : fileDup k₁.fcb (some no) = none := if_neg (by omega)
    rw [doDupfd_open hi₁ hj₁, hnone]
    rfl
  cases hj : pr.fdtable j with
  | none => rw [sysDup2_idle hpr hj, hdup hi hj hzero]
  | some prev =>
    rw [sysDup2_open hpr hj]
    cases hclose : doClose k p pr j with
    | none => rfl
    | some r =>
      obtain ⟨k₁, pr₁⟩ := r
      obtain ⟨no', t, fcb, hno', hfile, rfl, rfl⟩ := doClose_cases hclose
      obtain ⟨f, hf, -, hend⟩ := fileClose_cases hfile
      rw [Option.bind_some]
      refine hdup (by rw [Proc.setFd_fdtable, update_of_ne hne, hi])
        (by rw [Proc.setFd_fdtable, update_self]) ?_
      show (fcb.files no).fCount = 0
      have hother : no ≠ no' := by
        rintro rfl
        omega
      rcases hend with ⟨-, -, rfl⟩ | ⟨-, ip, flags, -, -, hfree⟩
      · rw [FcbTable.set_files, update_of_ne hother, hzero]
      · obtain ⟨qm, -, rfl⟩ := Option.map_eq_some_iff.mp hfree
        show ((k.fcb.set no' f).files no).fCount = 0
        rw [FcbTable.set_files, update_of_ne hother, hzero]

/-- A new descriptor whose entry does not count it cannot be closed. -/
theorem dup2_close_uncounted (hpr : k.procs p = some pr) (hj : pr.fdtable j = some no)
    (hzero : (k.fcb.files no).fCount = 0) : sysDup2 k p oldfd j = none := by
  have hclose : fileClose k.inodes k.fcb no = none := if_neg (by omega)
  rw [sysDup2_open hpr hj, doClose, hj]
  simp only [Option.bind_eq_bind, Option.bind_some, hclose, Option.bind_none]

/-- Within the table the call never answers with `EBADF`. -/
theorem sysDup2_res {res : Int} (hpr : k.procs p = some pr)
    (h : sysDup2 k p oldfd j = some (k', res)) : res ≠ -EBADF := by
  cases hj : pr.fdtable j with
  | none =>
    rw [sysDup2_idle hpr hj] at h
    exact doDupfd_res h
  | some no =>
    rw [sysDup2_open hpr hj] at h
    obtain ⟨⟨k₁, pr₁⟩, -, h⟩ := bind_eq_some_iff.mp h
    exact doDupfd_res h

/-- Two equal descriptors: the call leaves them closed. -/
theorem dup2_self_closes (hpr : k.procs p = some pr) (hj : pr.fdtable j = some no) {res : Int}
    (h : sysDup2 k p j j = some (k', res)) : k' ≠ k := by
  rintro rfl
  rw [sysDup2_open hpr hj] at h
  obtain ⟨⟨k₁, pr₁⟩, hclose, h⟩ := bind_eq_some_iff.mp h
  obtain ⟨no', t, fcb, -, -, rfl, rfl⟩ := doClose_cases hclose
  have hj₁ : (pr.setFd j none).fdtable j = none := by
    rw [Proc.setFd_fdtable, update_self]
  rw [doDupfd_closed hj₁ hj₁] at h
  have hprocs := congrArg (fun k : Kernel => k.procs p) (Prod.mk.inj (some.inj h)).1
  rw [Kernel.setProc_procs, update_self, hpr] at hprocs
  have hfd := congrArg (fun pr : Proc => pr.fdtable j) (some.inj hprocs)
  rw [Proc.setFd_fdtable, update_self, hj] at hfd
  cases hfd

/-- The law holds of a call exactly when it is safe, in every state in which the file table counts
    its descriptors and the entries in use belong to inodes. -/
theorem dup2_law_iff (h : Counted k dead) (hnamed : Named k) (hpr : k.procs p = some pr) :
    Dup2Law k p pr oldfd newfd ↔ Dup2Safe k pr oldfd newfd := by
  constructor
  · intro hlaw
    by_cases hnew : NFD ≤ newfd
    · exact .inl hnew
    · right
      obtain ⟨j, rfl⟩ : ∃ j : Fd, (j : Nat) = newfd := ⟨⟨newfd, by omega⟩, rfl⟩
      by_cases hopen : ∃ (i : Fd) (no : FcbNo), (i : Nat) = oldfd ∧ pr.fdtable i = some no
      · obtain ⟨i, no, rfl, hi⟩ := hopen
        obtain ⟨k', hrun, -, -, hself⟩ := hlaw.copies i j no rfl rfl hi
        have hne : i ≠ j := by
          rintro rfl
          exact dup2_self_closes hpr hi hrun (hself rfl)
        refine ⟨i, j, no, rfl, rfl, hne, hi, ?_, ?_⟩
        · intro no' heq
          cases heq
          by_contra hzero
          rw [dup2_uncounted hpr hi hne (by omega)] at hrun
          cases hrun
        · intro no' hj
          by_contra hzero
          rw [dup2_close_uncounted hpr hj (by omega)] at hrun
          cases hrun
      · have hclosed : ¬ ∃ (i j' : Fd) (no : FcbNo), (i : Nat) = oldfd ∧ (j' : Nat) = j ∧
            pr.fdtable i = some no := fun ⟨i, _, no, hi, _, hno⟩ => hopen ⟨i, no, hi, hno⟩
        obtain ⟨k', hrun, -⟩ := hlaw.refuses hclosed
        exact absurd rfl (sysDup2_res hpr hrun)
  · rintro (hnew | ⟨i, j, no, rfl, rfl, hne, hi, hcounts, hcounts'⟩)
    · refine ⟨fun i j no _ hj _ => ?_, fun _ => ⟨k, sysDup2_out hpr hnew, rfl, fun _ => rfl⟩⟩
      have hlt := j.isLt
      omega
    · obtain ⟨k', hrun, hcounted, hprocs⟩ := dup2_copies h hnamed hpr hne hi hcounts hcounts'
      constructor
      · intro i' j' no' hi' hj' hno
        obtain rfl := Fin.ext hi'
        obtain rfl := Fin.ext hj'
        rw [hi] at hno
        cases hno
        exact ⟨k', hrun, hprocs, counts_copied h hcounted hpr hprocs, fun heq => absurd heq hne⟩
      · intro hrefused
        exact absurd ⟨i, j, no, rfl, rfl, hi⟩ hrefused

instance (k : Kernel) : Decidable (Named k) :=
  inferInstanceAs (Decidable (∀ _, _ → _))

set_option maxRecDepth 10000 in
/-- The first process has made a pipe. -/
theorem exists_piped : ∃ k pr, Counted k (fun _ => 0) ∧ Named k ∧ k.procs 1 = some pr ∧
    (pr.fdtable 0 = some 0 ∧ pr.fdtable 1 = some 1) ∧
    (k.fcb.files 0).fCount = 1 ∧ (k.fcb.files 1).fCount = 1 := by
  have hrun : ∃ k ∈ afterCall bootKernel (1, .pipe true), Named k ∧
      (k.fcb.files 0).fCount = 1 ∧ (k.fcb.files 1).fCount = 1 ∧
      ∃ pr ∈ k.procs 1, pr.fdtable 0 = some 0 ∧ pr.fdtable 1 = some 1 := by decide +kernel
  obtain ⟨k, hcall, hnamed, hread, hwrite, pr, hpr, hfds⟩ := hrun
  have hadmitted : PipeAdmitted bootKernel (1, .pipe true) := .inl rfl
  have hcounted := counted_run bootKernel_booted
    (Runs.Reaches.refl.snoc hadmitted (afterCall_step _ _ _ hcall))
  exact ⟨k, pr, hcounted, hnamed, hpr, hfds, hread, hwrite⟩

/-- Then `dup2(0, 1)` closes the writing end and copies the other, as the law says. -/
theorem dup2_law_iff_piped : ∃ k pr, k.procs 1 = some pr ∧ pr.fdtable 0 = some 0 ∧
    pr.fdtable 1 = some 1 ∧ Dup2Law k 1 pr 0 1 := by
  obtain ⟨k, pr, hcounted, hnamed, hpr, ⟨h0, h1⟩, hread, hwrite⟩ := exists_piped
  have hsafe : Dup2Safe k pr 0 1 := by
    right
    refine ⟨0, 1, 0, rfl, rfl, by decide, h0, fun no hno => ?_, fun no hno => ?_⟩
    · cases hno
      exact hread.ge
    · cases h1.symm.trans hno
      exact hwrite.ge
  exact ⟨k, pr, hpr, h0, h1, (dup2_law_iff hcounted hnamed hpr).mpr hsafe⟩

/-- `dup2(0, 0)` closes the descriptor. -/
theorem dup2_law_fails : ¬ ∀ k dead p pr oldfd newfd, Counted k dead → Named k →
    k.procs p = some pr → Dup2Law k p pr oldfd newfd := by
  intro hall
  obtain ⟨k, pr, hcounted, hnamed, hpr, ⟨h0, -⟩, -, -⟩ := exists_piped
  obtain ⟨k', hrun, -, -, hself⟩ :=
    (hall k _ 1 pr 0 0 hcounted hnamed hpr).copies 0 0 0 rfl rfl h0
  exact dup2_self_closes hpr h0 hrun (hself rfl)

end Uniks.Sysfile
