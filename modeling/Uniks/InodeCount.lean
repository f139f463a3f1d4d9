/-
  Inode reference accounting over runs of system calls.

  `inodeRefs k ip` counts who names a slot: file entries in use, working directories, and memory
  areas.  `Moves k k' d` pairs the two sides of one call: the counts move by `d` (`Adjust`), and so
  does the number of references.  A call that moves both alike keeps `i_count` right; a call that
  leaks moves the counts alone, and `Drops` lists exactly the situations in which that happens.
-/
import Uniks.FileTable

namespace Uniks.Sysfile

open Uniks.Inode Uniks.Queue Uniks.RefCount Uniks.Runs
open Function (update update_self update_of_ne)
open Option (some bind_eq_some_iff)

/-! ## Who names an inode -/

/-- The inode a file entry in use names. -/
def fileInode (fcb : FcbTable) (no : FcbNo) : Option Slot :=
  if (fcb.files no).fCount = 0 then none else (fcb.files no).fInode

/-- The file entries in use that name `ip`. -/
def fileRefs (fcb : FcbTable) (ip : Slot) : Nat := refs (fileInode fcb) ip

/-- The live processes whose working directory is `ip`. -/
def cwdRefs (procs : Pid → Option Proc) (ip : Slot) : Nat :=
  refs (fun p => (procs p).map Proc.icwd) ip

/-- The memory areas of one process that map `ip`. -/
def procAreas (ip : Slot) : Option Proc → Nat
  | none => 0
  | some pr => pr.vmInodes.count ip

/-- The memory areas of all processes that map `ip`. -/
def areaRefs (procs : Pid → Option Proc) (ip : Slot) : Nat := total fun p => procAreas ip (procs p)

/-- All references to `ip`. -/
def inodeRefs (k : Kernel) (ip : Slot) : Nat :=
  fileRefs k.fcb ip + cwdRefs k.procs ip + areaRefs k.procs ip

/-- The working directory and the memory areas of a process, as references. -/
def ownRefs : Option Proc → Slot → Int
  | none => 0
  | some pr => one pr.icwd + allOf pr.vmInodes

/-- One process changes: what the old one held is lost, what the new one holds is gained. -/
theorem procRefs_update (procs : Pid → Option Proc) (p : Pid) (pr : Option Proc) (ip : Slot) :
    ((cwdRefs (update procs p pr) ip + areaRefs (update procs p pr) ip : Nat) : Int)
      = (cwdRefs procs ip + areaRefs procs ip : Nat) + (ownRefs pr ip - ownRefs (procs p) ip) := by
  have hcwd := refs_update (fun q => (procs q).map Proc.icwd) p (pr.map Proc.icwd) ip
  have harea := total_congr_off (fun q => procAreas ip (procs q))
    (fun q => procAreas ip (update procs p pr q)) p
    fun q hq => by rw [update_of_ne hq]
  have hmap : update (fun q => (procs q).map Proc.icwd) p (pr.map Proc.icwd)
      = fun q => (update procs p pr q).map Proc.icwd := by
    funext q
    by_cases hq : q = p
    · subst hq; rw [update_self, update_self]
    · rw [update_of_ne hq, update_of_ne hq]
  rw [hmap] at hcwd
  rw [update_self] at harea
  have hown : ∀ o : Option Proc, ownRefs o ip
      = (((if o.map Proc.icwd = some ip then 1 else 0) + procAreas ip o : Nat) : Int) := by
    intro o
    cases o with
    | none => rfl
    | some pr =>
      have hcwd : Option.map Proc.icwd (some pr) = some pr.icwd := rfl
      have harea : procAreas ip (some pr) = pr.vmInodes.count ip := rfl
      show (if ip = pr.icwd then (1 : Int) else 0) + (pr.vmInodes.count ip : Int) = _
      rw [hcwd, harea]
      by_cases hip : pr.icwd = ip
      · rw [if_pos hip.symm, if_pos (congrArg some hip)]
        omega
      · rw [if_neg (Ne.symm hip), if_neg fun hc => hip (some.inj hc)]
        omega
  rw [hown pr, hown (procs p)]
  show ((cwdRefs _ ip + total _ : Nat) : Int) = (cwdRefs procs ip + total _ : Nat) + _
  unfold cwdRefs
  omega

/-- Storing one file entry. -/
theorem fileRefs_set (fcb : FcbTable) (no : FcbNo) (f : FileT) (ip : Slot) :
    fileRefs (fcb.set no f) ip + (if fileInode fcb no = some ip then 1 else 0)
      = fileRefs fcb ip + (if (if f.fCount = 0 then none else f.fInode) = some ip then 1 else 0) := by
  have hset : fileInode (fcb.set no f)
      = update (fileInode fcb) no (if f.fCount = 0 then none else f.fInode) := by
    funext m
    rw [fileInode, FcbTable.set_files]
    by_cases hm : m = no
    · subst hm
      rw [update_self, update_self]
    · rw [update_of_ne hm, update_of_ne hm]
      rfl
  rw [fileRefs, hset]
  exact refs_update (fileInode fcb) no _ ip

/-- A new entry for `ip` in the place of an idle one. -/
theorem fileRefs_install {fcb : FcbTable} {no : FcbNo} {f : FileT} {ip : Slot}
    (hidle : (fcb.files no).fCount = 0) (hf : f.fCount ≠ 0) (hip : f.fInode = some ip) (jp : Slot) :
    (fileRefs (fcb.set no f) jp : Int) = fileRefs fcb jp + one ip jp := by
  have hset := fileRefs_set fcb no f jp
  rw [fileInode, if_pos hidle, if_neg hf, hip] at hset
  simp only [reduceCtorEq, if_false, Nat.add_zero, Option.some.injEq] at hset
  rw [hset, one]
  by_cases hjp : ip = jp
  · rw [if_pos hjp, if_pos hjp.symm]; rfl
  · rw [if_neg hjp, if_neg (Ne.symm hjp)]; rfl

/-- An entry that stays in use and keeps its inode. -/
theorem fileRefs_set_same {fcb : FcbTable} {no : FcbNo} {f : FileT}
    (hold : (fcb.files no).fCount ≠ 0) (hf : f.fCount ≠ 0) (hip : f.fInode = (fcb.files no).fInode) :
    fileRefs (fcb.set no f) = fileRefs fcb := by
  funext ip
  have hset := fileRefs_set fcb no f ip
  rw [fileInode, if_neg hold, if_neg hf, hip] at hset
  exact Nat.add_right_cancel hset

/-- The entries are what counts, not the queue. -/
theorem fileRefs_congr {fcb fcb' : FcbTable} (h : fcb'.files = fcb.files) :
    fileRefs fcb' = fileRefs fcb := by
  have hsame : fileInode fcb' = fileInode fcb := by
    funext no
    rw [fileInode, fileInode, h]
  funext ip
  rw [fileRefs, fileRefs, hsame]

/-! ## The file table -/

theorem fileAlloc_files {fcb fcb' : FcbTable} {no : FcbNo}
    (h : fileAlloc fcb = some (fcb', no)) :
    fcb'.files = fcb.files ∧ (fcb.files no).fCount = 0 := by
  obtain ⟨qm, -, h⟩ := bind_eq_some_iff.mp h
  split at h
  · rename_i hzero
    cases h
    exact ⟨rfl, hzero⟩
  · cases h

theorem fcbnoFree_files {fcb fcb' : FcbTable} {no : FcbNo} (h : fcbnoFree fcb no = some fcb') :
    fcb'.files = fcb.files := by
  obtain ⟨qm, -, rfl⟩ := Option.map_eq_some_iff.mp h
  rfl

/-- A descriptor more does not make an entry name another inode. -/
theorem fileDup_refs {fcb fcb' : FcbTable} {v : Option FcbNo} (h : fileDup fcb v = some fcb')
    (hlt : ∀ no, (fcb.files no).fCount + 1 < 4294967296) : fileRefs fcb' = fileRefs fcb := by
  cases v with
  | none => rw [fileDup_none h]
  | some no =>
    unfold fileDup at h
    simp only at h
    split at h
    · rename_i hpos
      cases h
      refine fileRefs_set_same (by omega) ?_ rfl
      show u32 ((fcb.files no).fCount + 1) ≠ 0
      rw [u32_of_lt (hlt no)]
      exact Nat.succ_ne_zero _
    · cases h

/-- The types of inode whose reference `file_close` gives back. -/
def droppable (t : InodeTable) (ip : Slot) : Bool :=
  let mode := (t.mInodes ip).dInodeCtnt.iMode
  isChr mode || isBlk mode || isReg mode || isDir mode || isFifo mode

theorem fileRelease_adjust {t : InodeTable} {ip : Slot} {flags : Nat}
    (h : droppable t ip = true) : Adjust t (fileRelease t ip flags) (-one ip) := by
  unfold droppable at h
  unfold fileRelease
  simp only at h ⊢
  split
  · exact iput_adjust t ip
  · rename_i hother
    rw [Bool.eq_false_iff.mpr hother, Bool.false_or] at h
    rw [if_pos h]
    exact Adjust.set_neg_one rfl

theorem iputFree_iMode (m : MInode) : (iputFree m).dInodeCtnt.iMode = m.dInodeCtnt.iMode := by
  unfold iputFree
  split
  · unfold itruncate
    rw [if_neg (Nat.not_lt_zero _)]
    split <;> rfl
  · rfl

/-- Closing a file leaves the type of every inode as it is. -/
theorem fileRelease_droppable (t : InodeTable) (ip : Slot) (flags : Nat) (jp : Slot) :
    droppable (fileRelease t ip flags) jp = droppable t jp := by
  have hset : ∀ m : MInode, m.dInodeCtnt.iMode = (t.mInodes ip).dInodeCtnt.iMode →
      droppable (t.set ip m) jp = droppable t jp := by
    intro m hm
    unfold droppable
    by_cases hjp : jp = ip
    · subst hjp
      rw [InodeTable.set_self, hm]
    · rw [InodeTable.set_of_ne t m hjp]
  unfold fileRelease
  simp only
  split
  · rw [iput]
    refine hset _ ?_
    simp only [iputFree_iMode]
  · split
    · exact hset _ rfl
    · rfl


/-! ## One call moves counts and references alike -/

/-- From `k` to `k'` the counts and the references both change by `d`. -/
structure Moves (k k' : Kernel) (d : Slot → Int) : Prop where
  counts : Adjust k.inodes k'.inodes d
  refs : ∀ ip, (inodeRefs k' ip : Int) = inodeRefs k ip + d ip

variable {k k' : Kernel} {p : Pid} {pr : Proc} {res : Int} {t : InodeTable}

theorem Moves.trans {k₁ : Kernel} {d e : Slot → Int} (h : Moves k k₁ d) (h' : Moves k₁ k' e) :
    Moves k k' (d + e) := by
  refine ⟨h.counts.trans h'.counts, fun ip => ?_⟩
  have h1 := h.refs ip
  have h2 := h'.refs ip
  rw [Pi.add_apply]
  omega

/-- A call that leaves files and processes alone and keeps no reference. -/
theorem Moves.inodes (h : Adjust k.inodes t 0) : Moves k { k with inodes := t } 0 :=
  ⟨h, fun _ => (Int.add_zero _).symm⟩

theorem Moves.refl (k : Kernel) : Moves k k 0 := Moves.inodes (Adjust.refl k.inodes)

/-- A call that changes the file table by `d` and one process. -/
theorem Moves.files (fcb : FcbTable) {o : Option Proc} {d : Slot → Int}
    (hfiles : ∀ ip, (fileRefs fcb ip : Int) = fileRefs k.fcb ip + d ip)
    (hadj : Adjust k.inodes t (d + (ownRefs o - ownRefs (k.procs p)))) :
    Moves k ({ k with inodes := t, fcb := fcb }.setProc p o)
      (d + (ownRefs o - ownRefs (k.procs p))) := by
  refine ⟨hadj, fun ip => ?_⟩
  have hprocs := procRefs_update k.procs p o ip
  have hf := hfiles ip
  show ((fileRefs fcb ip + cwdRefs (update k.procs p o) ip
      + areaRefs (update k.procs p o) ip : Nat) : Int)
    = (fileRefs k.fcb ip + cwdRefs k.procs ip + areaRefs k.procs ip : Nat)
      + (d ip + (ownRefs o ip - ownRefs (k.procs p) ip))
  omega

/-- A call that changes the file table by `d`, and of one process only the descriptors. -/
theorem Moves.filesOnly {fcb : FcbTable} {pr' : Proc} {d : Slot → Int} (hpr : k.procs p = some pr)
    (hown : ownRefs (some pr') = ownRefs (some pr))
    (hfiles : ∀ ip, (fileRefs fcb ip : Int) = fileRefs k.fcb ip + d ip)
    (hadj : Adjust k.inodes t d) :
    Moves k ({ k with inodes := t, fcb := fcb }.setProc p (some pr')) d := by
  have hzero : d + (ownRefs (some pr') - ownRefs (k.procs p)) = d := by
    rw [hpr, hown, sub_self, add_zero]
  have hmoves := Moves.files (p := p) (o := some pr') _ hfiles (hzero.symm ▸ hadj)
  rw [hzero] at hmoves
  exact hmoves

/-! ## Closing -/

/-- What closing the descriptors `fds` has to find: the inode of every entry that loses its last
    descriptor is of a type that `file_close` gives back. -/
def LastKnown (t : InodeTable) (fcb : FcbTable) (pr : Proc) (fds : List Fd) : Prop :=
  ∀ no ip, 0 < fdsDemand pr fds no → (fcb.files no).fCount ≤ fdsDemand pr fds no →
    (fcb.files no).fInode = some ip → droppable t ip = true

theorem fileClose_refs {fcb fcb' : FcbTable} {no : FcbNo} {t' : InodeTable}
    (h : fileClose t fcb no = some (t', fcb'))
    (hknown : (fcb.files no).fCount = 1 → ∀ ip, (fcb.files no).fInode = some ip →
      droppable t ip = true) :
    ∃ d, Adjust t t' d ∧ (∀ ip, (fileRefs fcb' ip : Int) = fileRefs fcb ip + d ip) ∧
      ∀ ip, d ip ≤ 0 := by
  obtain ⟨f, hf, hinode, hcases⟩ := fileClose_cases h
  rcases hcases with ⟨hmany, rfl, rfl⟩ | ⟨hlast, ip, flags, hip, rfl, hfree⟩
  · have hsame : fileRefs (fcb.set no f) = fileRefs fcb :=
      fileRefs_set_same (by omega) (by omega) hinode
    refine ⟨0, Adjust.refl t', fun jp => ?_, fun _ => Int.le_refl 0⟩
    rw [hsame, Pi.zero_apply, Int.add_zero]
  · have hold : (fcb.files no).fInode = some ip := hinode.symm.trans hip
    have hdrop := hknown (by omega) ip hold
    refine ⟨-one ip, fileRelease_adjust hdrop, fun jp => ?_, fun jp => ?_⟩
    · rw [fileRefs_congr (fcbnoFree_files hfree)]
      have hset := fileRefs_set fcb no f jp
      rw [if_pos hlast, fileInode, ← hf, if_neg (Nat.succ_ne_zero _), hold] at hset
      simp only [reduceCtorEq, if_false, Nat.add_zero, Option.some.injEq] at hset
      rw [Pi.neg_apply, one]
      by_cases hjp : ip = jp
      · rw [if_pos hjp] at hset
        rw [if_pos hjp.symm]
        omega
      · rw [if_neg hjp] at hset
        rw [if_neg (Ne.symm hjp)]
        omega
    · rw [Pi.neg_apply, one]
      split <;> omega

/-- What the next descriptor finds after one was closed. -/
theorem LastKnown.tail {fcb fcb' : FcbTable} {no : FcbNo} {t' : InodeTable} {fd : Fd}
    {fds : List Fd} (h : LastKnown t fcb pr (fd :: fds)) (hfd : pr.fdtable fd = some no)
    (hc : fileClose t fcb no = some (t', fcb')) : LastKnown t' fcb' pr fds := by
  intro m ip hpos hle hip
  have hdemand : fdsDemand pr (fd :: fds) m
      = fdsDemand pr fds m + if no = m then 1 else 0 := by
    rw [fdsDemand_cons, hfd]
    simp only [Option.some.injEq]
  obtain ⟨f, hf, hinode, hcases⟩ := fileClose_cases hc
  have hfiles : fcb'.files = update fcb.files no f := by
    rcases hcases with ⟨-, -, rfl⟩ | ⟨-, jp, flags, -, -, hfree⟩
    · rfl
    · exact fcbnoFree_files hfree
  have hdrop : droppable t' ip = droppable t ip := by
    rcases hcases with ⟨-, rfl, -⟩ | ⟨-, jp, flags, -, rfl, -⟩
    · rfl
    · exact fileRelease_droppable t jp flags ip
  rw [hdrop]
  rw [hfiles] at hle hip
  by_cases hm : m = no
  · subst hm
    rw [update_self] at hle hip
    rw [if_pos rfl] at hdemand
    exact h m ip (by omega) (by omega) (hinode.symm.trans hip)
  · rw [update_of_ne hm] at hle hip
    rw [if_neg (Ne.symm hm), Nat.add_zero] at hdemand
    exact h m ip (by omega) (by omega) hip

theorem closeAll_refs {fcb fcb' : FcbTable} {t' : InodeTable} {fds : List Fd}
    (h : closeAll pr fds (t, fcb) = some (t', fcb')) (hknown : LastKnown t fcb pr fds) :
    ∃ d, Adjust t t' d ∧ (∀ ip, (fileRefs fcb' ip : Int) = fileRefs fcb ip + d ip) ∧
      ∀ ip, d ip ≤ 0 := by
  induction fds generalizing t fcb with
  | nil =>
    obtain ⟨rfl, rfl⟩ := Prod.mk.inj (some.inj h)
    exact ⟨0, Adjust.refl t, fun ip => (Int.add_zero _).symm, fun _ => Int.le_refl 0⟩
  | cons fd fds ih =>
    rw [closeAll] at h
    cases hfd : pr.fdtable fd with
    | none =>
      rw [hfd] at h
      refine ih h fun no ip => ?_
      have hno := hknown no ip
      simp only [fdsDemand_cons, hfd, reduceCtorEq, if_false, Nat.add_zero] at hno
      exact hno
    | some no =>
      rw [hfd] at h
      obtain ⟨⟨t₁, fcb₁⟩, hfirst, h⟩ := bind_eq_some_iff.mp h
      have hclose : fileClose t fcb no = some (t₁, fcb₁) := hfirst
      have hlast : (fcb.files no).fCount = 1 → ∀ ip, (fcb.files no).fInode = some ip →
          droppable t ip = true := by
        intro hone ip hip
        have hdemand : 1 ≤ fdsDemand pr (fd :: fds) no := by
          rw [fdsDemand_cons, if_pos hfd]
          omega
        exact hknown no ip hdemand (by omega) hip
      obtain ⟨d₁, hadj₁, hrefs₁, hle₁⟩ := fileClose_refs hclose hlast
      obtain ⟨d₂, hadj₂, hrefs₂, hle₂⟩ := ih h (hknown.tail hfd hclose)
      refine ⟨d₁ + d₂, hadj₁.trans hadj₂, fun ip => ?_, fun ip => ?_⟩
      · have h1 := hrefs₁ ip
        have h2 := hrefs₂ ip
        rw [Pi.add_apply]
        omega
      · have h1 := hle₁ ip
        have h2 := hle₂ ip
        rw [Pi.add_apply]
        omega

/-! ## The calls -/

theorem Counted.fCount_le {dead : FcbNo → Nat} (h : Counted k dead) (no : FcbNo) :
    (k.fcb.files no).fCount ≤ 4096 := by
  have hcount := h.count no
  have hle := fdRefs_le k.procs no
  omega

theorem fileDup_fCount_le {fcb fcb' : FcbTable} {v : Option FcbNo} (h : fileDup fcb v = some fcb')
    (no : FcbNo) : (fcb'.files no).fCount ≤ (fcb.files no).fCount + 1 := by
  cases v with
  | none =>
    rw [fileDup_none h]
    omega
  | some m =>
    unfold fileDup at h
    simp only at h
    split at h
    · cases h
      rw [FcbTable.set_files]
      by_cases hm : no = m
      · subst hm
        rw [update_self]
        exact Nat.mod_le _ _
      · rw [update_of_ne hm]
        omega
    · cases h

theorem dupAll_refs {fcb fcb' : FcbTable} {fds : List Fd} (h : dupAll pr fds fcb = some fcb')
    (hlt : ∀ no, (fcb.files no).fCount + fds.length < 4294967296) :
    fileRefs fcb' = fileRefs fcb := by
  induction fds generalizing fcb with
  | nil => rw [some.inj h]
  | cons fd fds ih =>
    obtain ⟨fcb₁, hdup, hrest⟩ := bind_eq_some_iff.mp h
    simp only [List.length_cons] at hlt
    have hfirst := fileDup_refs hdup fun no => by have := hlt no; omega
    have htail := ih hrest fun no => by
      have h1 := hlt no
      have h2 := fileDup_fCount_le hdup no
      omega
    exact htail.trans hfirst

theorem moves_doClose {fd : Fd} {pr' : Proc} (hpr : k.procs p = some pr)
    (hknown : LastKnown k.inodes k.fcb pr [fd]) (h : doClose k p pr fd = some (k', pr')) :
    ∃ d, Moves k k' d ∧ ∀ ip, d ip ≤ 0 := by
  obtain ⟨no, t, fcb, hno, hclose, -, rfl⟩ := doClose_cases h
  have hdemand : fdsDemand pr [fd] no = 1 := by
    rw [fdsDemand_cons, if_pos hno]
    rfl
  obtain ⟨d, hadj, hrefs, hle⟩ := fileClose_refs hclose fun hone ip hip =>
    hknown no ip (by omega) (by omega) hip
  exact ⟨d, Moves.filesOnly hpr rfl hrefs hadj, hle⟩

theorem moves_doDupfd {dead : FcbNo → Nat} {fd arg : Nat} (hc : Counted k dead)
    (hpr : k.procs p = some pr) (h : doDupfd k p pr fd arg = some (k', res)) : Moves k k' 0 := by
  rcases doDupfd_cases h with rfl | ⟨i, j, fcb, -, hdup, rfl⟩
  · exact Moves.refl k'
  · have hsame := fileDup_refs hdup fun no => by have := hc.fCount_le no; omega
    refine Moves.filesOnly hpr rfl (fun ip => ?_) (Adjust.refl _)
    rw [hsame, Pi.zero_apply, Int.add_zero]

theorem moves_sysPipe {dead : FcbNo → Nat} {areaOk : Bool} (hc : Counted k dead)
    (h : sysPipe k p areaOk = some (k', res)) : ∃ d, Moves k k' d ∧ ∀ ip, d ip ≤ 2 := by
  obtain ⟨pr, hpr, hcases⟩ := sysPipe_cases h
  have hnone : ∀ jp : Slot, (0 : Slot → Int) jp ≤ 2 := fun _ => by show (0 : Int) ≤ 2; decide
  rcases hcases with ⟨rfl, -⟩ | ⟨fd₁, fcb₁, no₁, -, halloc₁, hcases⟩
  · exact ⟨0, Moves.refl k', hnone⟩
  · obtain ⟨hfiles₁, hzero₁⟩ := fileAlloc_files halloc₁
    rcases hcases with ⟨fcb₂, hfree, -, rfl⟩ | ⟨fd₂, fcb₂, no₂, k₁, -, halloc₂, rfl, -, hend⟩
    · refine ⟨0, Moves.filesOnly hpr rfl (fun ip => ?_) (Adjust.refl _), hnone⟩
      rw [fileRefs_congr ((fcbnoFree_files hfree).trans hfiles₁), Pi.zero_apply, Int.add_zero]
    · obtain ⟨hfiles₂, hzero₂⟩ := fileAlloc_files halloc₂
      have hfiles : fcb₂.files = k.fcb.files := hfiles₂.trans hfiles₁
      cases areaOk with
      | false =>
        rw [if_neg Bool.false_ne_true] at hend
        subst hend
        refine ⟨0, Moves.filesOnly hpr rfl (fun ip => ?_) (Adjust.refl _), hnone⟩
        rw [fileRefs_congr hfiles, Pi.zero_apply, Int.add_zero]
      | true =>
        rw [if_pos rfl] at hend
        obtain ⟨ip, t, f₁, f₂, rfl, hf₁, hip₁, hf₂, hip₂, hadj⟩ := pipeFill_cases hend
        -- the two entries differ, so the second is idle when it is filled
        obtain ⟨hok₁, -, -⟩ := FcbOk.alloc hc halloc₁
        obtain ⟨-, -, hne⟩ := hok₁.alloc halloc₂
        have hfirst : (fcb₂.files no₁).fCount = 0 := by rw [hfiles]; exact hzero₁
        have hsecond : ((fcb₂.set no₁ f₁).files no₂).fCount = 0 := by
          rw [FcbTable.set_files, update_of_ne fun heq => hne (List.mem_singleton.mpr heq),
            hfiles₂]
          exact hzero₂
        have hpos₁ : f₁.fCount ≠ 0 := by
          rw [hf₁]
          show u32 ((fcb₂.files no₁).fCount + 1) ≠ 0
          rw [hfirst]
          decide
        have hpos₂ : f₂.fCount ≠ 0 := by
          rw [hf₂]
          show u32 (((fcb₂.set no₁ f₁).files no₂).fCount + 1) ≠ 0
          rw [hsecond]
          decide
        refine ⟨one ip + one ip, Moves.filesOnly hpr rfl (fun jp => ?_) hadj, fun jp => ?_⟩
        · have h₁ := fileRefs_install hfirst hpos₁ hip₁ jp
          have h₂ := fileRefs_install hsecond hpos₂ hip₂ jp
          rw [fileRefs_congr hfiles] at h₁
          show (fileRefs ((fcb₂.set no₁ f₁).set no₂ f₂) jp : Int) = _
          rw [Pi.add_apply]
          omega
        · rw [Pi.add_apply, one]
          split <;> omega

theorem moves_sysOpen {path : Option OpenEnv} {flags mode : Nat}
    (h : sysOpen k p path flags mode = some (k', res)) : ∃ d, Moves k k' d ∧ ∀ ip, d ip ≤ 1 := by
  obtain ⟨pr, hpr, hcases⟩ := sysOpen_cases h
  have hnone : ∀ jp : Slot, (0 : Slot → Int) jp ≤ 1 := fun _ => by show (0 : Int) ≤ 1; decide
  rcases hcases with ⟨rfl, -⟩ | ⟨t, r, hadj, ⟨rfl, -, rfl⟩ | ⟨fd, ip, rfl, -, hinstall⟩⟩
  · exact ⟨0, Moves.refl k', hnone⟩
  · exact ⟨0, Moves.inodes hadj, hnone⟩
  · obtain ⟨fcb, no, f, t₂, halloc, rfl, hf, hip, hadj₂, -⟩ := openInstall_cases hinstall
    obtain ⟨hfiles, hzero⟩ := fileAlloc_files halloc
    have hidle : (fcb.files no).fCount = 0 := by rw [hfiles]; exact hzero
    have hpos : f.fCount ≠ 0 := by
      rw [hf, hidle]
      decide
    have hmoved : Adjust k.inodes t₂ (one ip) := (hadj.trans hadj₂).congr (add_zero _)
    refine ⟨one ip, Moves.filesOnly hpr rfl (fun jp => ?_) hmoved, fun jp => ?_⟩
    · have hinst := fileRefs_install hidle hpos hip jp
      rw [fileRefs_congr hfiles] at hinst
      exact hinst
    · rw [one]
      split <;> omega

theorem moves_doFork {dead : FcbNo → Nat} {child : Option Pid} (hc : Counted k dead)
    (h : doFork k p child = some (k', res)) :
    ∃ pr d, k.procs p = some pr ∧ Moves k k' d ∧ ∀ ip, d ip ≤ (pr.vmInodes.count ip : Int) + 1 := by
  obtain ⟨pr, hpr, ⟨rfl, -⟩ | ⟨c, t, fcb, -, hfree, hdups, hadj, rfl, -⟩⟩ := doFork_cases h
  · refine ⟨pr, 0, hpr, Moves.refl k', fun ip => ?_⟩
    rw [Pi.zero_apply]
    omega
  · have hsame := dupAll_refs hdups fun no => by
      have := hc.fCount_le no
      show (k.fcb.files no).fCount + 64 < 4294967296
      omega
    have hown : (0 : Slot → Int) + (ownRefs (some pr) - ownRefs (k.procs c))
        = allOf pr.vmInodes + one pr.icwd := by
      rw [hfree]
      show 0 + (one pr.icwd + allOf pr.vmInodes - 0) = _
      abel
    refine ⟨pr, _, hpr, Moves.files (d := 0) _ (fun ip => ?_) (hown ▸ hadj), fun ip => ?_⟩
    · rw [hsame, Pi.zero_apply, Int.add_zero]
    · rw [hown, Pi.add_apply, one]
      show (pr.vmInodes.count ip : Int) + _ ≤ _
      split <;> omega

theorem moves_doExit (hknown : ∀ pr, k.procs p = some pr →
      LastKnown k.inodes k.fcb pr (List.finRange NFD))
    (h : doExit k p = some (k', res)) : ∃ d, Moves k k' d ∧ ∀ ip, d ip ≤ 0 := by
  obtain ⟨pr, t₁, t₂, fcb, hpr, hclose, hadj, rfl⟩ := doExit_cases h
  obtain ⟨d, hadj₁, hrefs, hle⟩ := closeAll_refs hclose (hknown pr hpr)
  have hown : d + (ownRefs none - ownRefs (k.procs p)) = d + (-one pr.icwd - allOf pr.vmInodes) := by
    rw [hpr]
    show d + (0 - (one pr.icwd + allOf pr.vmInodes)) = _
    abel
  refine ⟨_, Moves.files _ hrefs (hown ▸ hadj₁.trans hadj), fun ip => ?_⟩
  have hd := hle ip
  rw [hown]
  show d ip + (-(if ip = pr.icwd then (1 : Int) else 0) - (pr.vmInodes.count ip : Int)) ≤ 0
  split <;> omega

/-! ## Runs -/

/-- The calls that give back every reference they take.  The others are the exits of `sys_creat`,
    `sys_mkdir`, `sys_chmod`, `sys_stat` and `sys_chdir` that forget to drop the inode they found,
    the exit of `do_execve` that forgets the new memory areas, a `file_close` on an inode of a
    type it does not know, the exit of `sys_truncate` that drops an unset pointer, and the index of
    `sys_dup2` that is not checked. -/
def GivesBack (k : Kernel) (pr : Proc) : Call → Prop
  | .creat path mode => ∀ env, path = some env → ∀ t ip,
      create k.inodes pr.icwd .regfile (u16 mode ||| EXT2_S_IFREG) env ≠ some (t, some ip)
  | .mkdir path mode => ∀ env, path = some env → ∀ t ip,
      create k.inodes pr.icwd .dir (u16 mode ||| EXT2_S_IFDIR) env ≠ some (t, some ip)
  | .chmod path _ => ∀ walk, path = some walk → ∀ t ip,
      namei k.inodes pr.icwd walk ≠ some (t, some ip)
  | .stat path _ => ∀ walk, path = some walk → ∀ t ip,
      namei k.inodes pr.icwd walk ≠ some (t, some ip)
  | .chdir path => ∀ walk, path = some walk → ∀ t ip,
      namei k.inodes pr.icwd walk = some (t, some ip) →
        ip ≠ pr.icwd ∧ ∀ t', ilock t ip = some t' → isDir (t'.mInodes ip).dInodeCtnt.iMode
  | .truncate path _ _ => path ≠ none
  | .close fd => ∀ i no, openFd pr fd = some (i, no) → LastKnown k.inodes k.fcb pr [i]
  | .dup2 oldfd newfd => oldfd < NFD ∧ ∀ i : Fd, (i : Nat) = newfd → LastKnown k.inodes k.fcb pr [i]
  | .execve path => ∀ env, path = some env → env.loaded = true → env.argsOk = true ∨ env.segs = 0
  | .exit => LastKnown k.inodes k.fcb pr (List.finRange NFD)
  | _ => True

/-- How many references to one inode a call may add. -/
def gains (pr : Proc) (ip : Slot) : Call → Nat
  | .openPath _ _ _ => 1
  | .chdir _ => 1
  | .pipe _ => 2
  | .fork _ => pr.vmInodes.count ip + 1
  | .execve (some env) => env.segs
  | _ => 0

/-- The call gives back what it takes, and what it keeps fits the 16-bit field. -/
def Accountable (k : Kernel) (i : Pid × Call) : Prop :=
  ∀ pr, k.procs i.1 = some pr →
    GivesBack k pr i.2 ∧ ∀ ip, inodeRefs k ip + gains pr ip i.2 < 65536

theorem moves_sysChdir {path : Option Walk} (h : sysChdir k p path = some (k', res))
    (hback : ∀ pr, k.procs p = some pr → GivesBack k pr (.chdir path)) :
    ∃ d, Moves k k' d ∧ ∀ ip, d ip ≤ 1 := by
  obtain ⟨pr, t, hpr, hcases⟩ := sysChdir_cases h
  rcases hcases with ⟨rfl, hadj⟩ | ⟨walk, t₁, ip, rfl, hwalk, hleak | ⟨rfl, hadj⟩⟩
  · exact ⟨0, Moves.inodes hadj, fun _ => by show (0 : Int) ≤ 1; decide⟩
  · obtain ⟨-, -, hwhy⟩ := hleak
    obtain ⟨hother, hdir⟩ := hback pr hpr walk rfl t₁ ip hwalk
    rcases hwhy with hsame | ⟨t₂, hlock, hnotdir⟩
    · exact absurd hsame hother
    · exact absurd (hdir t₂ hlock) hnotdir
  · have hown : (0 : Slot → Int) + (ownRefs (some { pr with icwd := ip }) - ownRefs (k.procs p))
        = one ip - one pr.icwd := by
      rw [hpr]
      show 0 + (one ip + allOf pr.vmInodes - (one pr.icwd + allOf pr.vmInodes)) = _
      abel
    refine ⟨_, Moves.files (d := 0) k.fcb (fun jp => (Int.add_zero _).symm) (hown ▸ hadj),
      fun jp => ?_⟩
    rw [hown, Pi.sub_apply, one, one]
    split <;> split <;> omega

theorem moves_doExecve {path : Option ExecEnv} (h : doExecve k p path = some (k', res))
    (hback : ∀ pr, k.procs p = some pr → GivesBack k pr (.execve path)) :
    ∃ d, Moves k k' d ∧ ∀ pr ip, d ip ≤ (gains pr ip (.execve path) : Int) := by
  obtain ⟨pr, t, hpr, hcases⟩ := doExecve_cases h
  rcases hcases with ⟨rfl, hadj⟩ | ⟨env, ip, rfl, ⟨hloaded, hargs, rfl, hadj⟩ | ⟨rfl, hadj⟩⟩
  · exact ⟨0, Moves.inodes hadj, fun _ _ => Int.natCast_nonneg _⟩
  · rcases hback pr hpr env rfl hloaded with hok | hsegs
    · rw [hargs] at hok
      cases hok
    · rw [hsegs] at hadj
      exact ⟨0, Moves.inodes hadj, fun _ _ => Int.natCast_nonneg _⟩
  · have hown : (0 : Slot → Int)
          + (ownRefs (some { pr with vmInodes := List.replicate env.segs ip }) - ownRefs (k.procs p))
        = allOf (List.replicate env.segs ip) - allOf pr.vmInodes := by
      rw [hpr]
      show 0 + (one pr.icwd + allOf (List.replicate env.segs ip)
        - (one pr.icwd + allOf pr.vmInodes)) = _
      abel
    refine ⟨_, Moves.files (d := 0) k.fcb (fun jp => (Int.add_zero _).symm) (hown ▸ hadj),
      fun pr' jp => ?_⟩
    rw [hown]
    have hcount := List.count_le_length (a := jp) (l := List.replicate env.segs ip)
    rw [List.length_replicate] at hcount
    show ((List.replicate env.segs ip).count jp : Int) - (pr.vmInodes.count jp : Int) ≤ env.segs
    omega

/-- One call that gives back what it takes moves counts and references alike. -/
theorem moves_step {dead : FcbNo → Nat} {call : Call} (hc : Counted k dead)
    (hback : ∀ pr, k.procs p = some pr → GivesBack k pr call) (hs : Step k (p, call) k') :
    ∃ pr d, k.procs p = some pr ∧ Moves k k' d ∧ ∀ ip, d ip ≤ (gains pr ip call : Int) := by
  obtain ⟨res, hexec⟩ := hs
  have hpr : ∃ pr, k.procs p = some pr := by
    cases hpr : k.procs p with
    | some pr => exact ⟨pr, rfl⟩
    | none =>
      cases call
      all_goals
        simp only [exec, sysOpen, sysCreat, sysMkdir, sysCreate, sysChmod, sysStat, sysFstat,
          sysChdir, sysTruncate, sysLink, sysClose, sysDup, sysDup2, sysPipe, doFork, doExecve,
          doExit, hpr, Option.bind_eq_bind, Option.bind_none, reduceCtorEq] at hexec
  obtain ⟨pr, hpr⟩ := hpr
  have hzero : ∀ (n : Nat) (ip : Slot), (0 : Slot → Int) ip ≤ (n : Int) := fun n _ =>
    Int.natCast_nonneg n
  cases call with
  | openPath path flags mode =>
    obtain ⟨d, hmoves, hle⟩ := moves_sysOpen hexec
    exact ⟨pr, d, hpr, hmoves, hle⟩
  | creat path mode | mkdir path mode =>
    obtain ⟨pr', t, hpr', rfl, rfl | ⟨env, r, rfl, hcreate⟩⟩ := sysCreate_cases hexec
    · exact ⟨pr, 0, hpr, Moves.refl k, hzero _⟩
    · have hadj := create_adjust hcreate
      cases r with
      | none => exact ⟨pr, 0, hpr, Moves.inodes hadj, hzero _⟩
      | some ip => exact absurd hcreate (hback pr' hpr' env rfl t ip)
  | chmod path mode =>
    obtain ⟨pr', t, hpr', rfl, rfl | ⟨walk, t₁, r, rfl, hwalk, hadj⟩⟩ := sysChmod_cases hexec
    · exact ⟨pr, 0, hpr, Moves.refl k, hzero _⟩
    · cases r with
      | none => exact ⟨pr, 0, hpr, Moves.inodes ((namei_adjust hwalk).trans hadj), hzero _⟩
      | some ip => exact absurd hwalk (hback pr' hpr' walk rfl t₁ ip)
  | stat path areaOk =>
    obtain ⟨pr', t, hpr', rfl, rfl | ⟨walk, t₁, r, rfl, hwalk, hadj⟩⟩ := sysStat_cases hexec
    · exact ⟨pr, 0, hpr, Moves.refl k, hzero _⟩
    · cases r with
      | none => exact ⟨pr, 0, hpr, Moves.inodes ((namei_adjust hwalk).trans hadj), hzero _⟩
      | some ip => exact absurd hwalk (hback pr' hpr' walk rfl t₁ ip)
  | fstat fd areaOk =>
    obtain ⟨t, rfl, hadj⟩ := sysFstat_cases hexec
    exact ⟨pr, 0, hpr, Moves.inodes hadj, hzero _⟩
  | chdir path =>
    obtain ⟨d, hmoves, hle⟩ := moves_sysChdir hexec hback
    exact ⟨pr, d, hpr, hmoves, hle⟩
  | truncate path length env =>
    obtain ⟨t, rfl, hadj⟩ := sysTruncate_cases hexec
    exact ⟨pr, 0, hpr, Moves.inodes hadj, hzero _⟩
  | link paths junk =>
    obtain ⟨t, rfl, hadj⟩ := sysLink_cases hexec
    exact ⟨pr, 0, hpr, Moves.inodes hadj, hzero _⟩
  | close fd =>
    obtain ⟨pr', hpr', ⟨rfl, -⟩ | ⟨i, no, pr₁, hopen, hclose, -⟩⟩ := sysClose_cases hexec
    · exact ⟨pr, 0, hpr, Moves.refl k', hzero _⟩
    · obtain ⟨d, hmoves, hle⟩ := moves_doClose hpr' (hback pr' hpr' i no hopen) hclose
      exact ⟨pr, d, hpr, hmoves, hle⟩
  | dup oldfd =>
    obtain ⟨pr', hpr', ⟨rfl, -⟩ | ⟨-, hdup⟩⟩ := sysDup_cases hexec
    · exact ⟨pr, 0, hpr, Moves.refl k', hzero _⟩
    · exact ⟨pr, 0, hpr, moves_doDupfd hc hpr' hdup, hzero _⟩
  | dup2 oldfd newfd =>
    obtain ⟨pr', hpr', ⟨rfl, -⟩ | hdup | ⟨i, k₁, pr₁, hi, hclose, hdup⟩⟩ := sysDup2_cases hexec
    · exact ⟨pr, 0, hpr, Moves.refl k', hzero _⟩
    · exact ⟨pr, 0, hpr, moves_doDupfd hc hpr' hdup, hzero _⟩
    · obtain ⟨d, hmoves, hle⟩ := moves_doClose hpr' ((hback pr' hpr').2 i hi) hclose
      obtain ⟨hc₁, hpr₁⟩ := counted_doClose hc hpr' hclose
      have hboth := hmoves.trans (moves_doDupfd hc₁ hpr₁ hdup)
      rw [add_zero] at hboth
      exact ⟨pr, d, hpr, hboth, hle⟩
  | pipe areaOk =>
    obtain ⟨d, hmoves, hle⟩ := moves_sysPipe hc hexec
    exact ⟨pr, d, hpr, hmoves, hle⟩
  | fork child =>
    obtain ⟨pr', d, hpr', hmoves, hle⟩ := moves_doFork hc hexec
    exact ⟨pr', d, hpr', hmoves, hle⟩
  | execve path =>
    obtain ⟨d, hmoves, hle⟩ := moves_doExecve hexec hback
    exact ⟨pr, d, hpr, hmoves, hle pr⟩
  | exit =>
    obtain ⟨d, hmoves, hle⟩ := moves_doExit hback hexec
    exact ⟨pr, d, hpr, hmoves, hle⟩

/-- There are few references: one for each file entry, one for each process and those of its
    areas. -/
theorem inodeRefs_le {n : Nat} (hareas : ∀ q pr, k.procs q = some pr → pr.vmInodes.length ≤ n)
    (ip : Slot) : inodeRefs k ip ≤ 320 + 64 * n := by
  have hfiles := refs_le_card (fileInode k.fcb) ip
  have hcwd := refs_le_card (fun q => (k.procs q).map Proc.icwd) ip
  have harea : areaRefs k.procs ip ≤ Fintype.card Pid * n := by
    refine total_le _ fun q => ?_
    show procAreas ip (k.procs q) ≤ n
    cases hq : k.procs q with
    | none => exact Nat.zero_le n
    | some pr => exact Nat.le_trans List.count_le_length (hareas q pr hq)
  rw [Fintype.card_fin] at hfiles hcwd harea
  show fileRefs k.fcb ip + cwdRefs k.procs ip + areaRefs k.procs ip ≤ _
  have hf : fileRefs k.fcb ip ≤ 256 := hfiles
  have hc : cwdRefs k.procs ip ≤ 64 := hcwd
  have ha : areaRefs k.procs ip ≤ 64 * n := harea
  omega

/-- Every slot counts exactly the references to it. -/
def InodeCountOk (k : Kernel) : Prop := ∀ ip, (k.inodes.mInodes ip).iCount = inodeRefs k ip

/-- What a run keeps: the file table is counted, and so are the inodes, within their field. -/
structure Balanced (k : Kernel) : Prop where
  counted : ∃ dead, Counted k dead
  fits : ∀ ip, (k.inodes.mInodes ip).iCount < 65536
  few : ∀ ip, inodeRefs k ip < 65536
  count : InodeCountOk k

theorem Balanced.step {i : Pid × Call} (h : Balanced k) (hc : Accountable k i) (hs : Step k i k') :
    Balanced k' := by
  obtain ⟨p, call⟩ := i
  obtain ⟨dead, hcounted⟩ := h.counted
  have hback : ∀ pr, k.procs p = some pr → GivesBack k pr call := fun pr hpr => (hc pr hpr).1
  obtain ⟨pr, d, hpr, hmoves, hle⟩ := moves_step hcounted hback hs
  obtain ⟨dead', hcounted', -⟩ := counted_step hcounted hs
  have hfits := hmoves.counts.fits h.fits
  have hfew : ∀ ip, inodeRefs k' ip < 65536 := by
    intro ip
    have hroom : inodeRefs k ip + gains pr ip call < 65536 := (hc pr hpr).2 ip
    have hrefs := hmoves.refs ip
    have hgain := hle ip
    omega
  refine ⟨⟨dead', hcounted'⟩, hfits, hfew, fun ip => ?_⟩
  have hchange := hmoves.counts.change ip
  have hrefs := hmoves.refs ip
  have hold := h.count ip
  have hfit := hfits ip
  have hfew' := hfew ip
  omega

/-- What `iget` makes of a table without references. -/
theorem iget_inodeTableInit_counts {t t' : InodeTable} {dev iNo : Nat} {clean : Bool} {root : Slot}
    (h : iget (inodeTableInit t) dev iNo clean = some (t', root)) (ip : Slot) :
    (t'.mInodes ip).iCount = if ip = root then 1 else 0 := by
  have hadj := iget_adjust h
  have hzero : ((inodeTableInit t).mInodes ip).iCount = 0 := rfl
  have hchange := hadj.change ip
  have hfit := hadj.fits (fun _ => by show 0 < 65536; decide) ip
  rw [hzero, one] at hchange
  split
  · rename_i hip
    rw [if_pos hip] at hchange
    omega
  · rename_i hip
    rw [if_neg hip] at hchange
    omega

/-- The first process gets its working directory by one `iget`. -/
theorem Booted.iget_root (h : Booted k) :
    ∃ t root, iget (inodeTableInit t) sbDev EXT2_ROOT_INO false = some (k.inodes, root) ∧
      k.procs = update (fun _ => none) 1 (some (initProc root)) := by
  obtain ⟨t, root, hroot, hprocs⟩ := h.init
  unfold namei namex at hroot
  rw [if_pos rfl] at hroot
  obtain ⟨⟨t₁, ip⟩, hget, hroot⟩ := bind_eq_some_iff.mp hroot
  obtain ⟨rfl, hip⟩ := Prod.mk.inj (some.inj hroot)
  obtain rfl := some.inj hip
  exact ⟨t, ip, hget, hprocs⟩

/-- After boot the only reference is the working directory of the first process. -/
theorem Booted.balanced (h : Booted k) : Balanced k := by
  have hcounted := h.counted
  obtain ⟨t, root, hget, hprocs⟩ := h.iget_root
  have hcount := iget_inodeTableInit_counts hget
  have hrefs : ∀ ip, inodeRefs k ip = if ip = root then 1 else 0 := by
    intro ip
    have hfiles : fileRefs k.fcb ip = 0 := by
      refine refs_eq_zero.mpr fun no hno => ?_
      have hzero : (k.fcb.files no).fCount = 0 := by
        have h1 := hcounted.count no
        have h2 : fdRefs k.procs no = 0 := by
          rw [hprocs]
          refine total_eq_zero.mpr fun p => ?_
          by_cases hp : p = 1
          · rw [hp, update_self]
            exact refs_none no
          · rw [update_of_ne hp]
            rfl
        omega
      rw [fileInode, if_pos hzero] at hno
      cases hno
    have hown := procRefs_update (fun _ => none) 1 (some (initProc root)) ip
    have hnocwd : cwdRefs (fun _ => none) ip = 0 := refs_none ip
    have hnoarea : areaRefs (fun _ => none) ip = 0 := total_eq_zero.mpr fun _ => rfl
    rw [hnocwd, hnoarea] at hown
    have hinit : ownRefs (some (initProc root)) ip = if ip = root then 1 else 0 := by
      show (if ip = root then (1 : Int) else 0) + 0 = _
      rw [Int.add_zero]
    have hnone : ownRefs none ip = 0 := rfl
    rw [hinit, hnone] at hown
    rw [inodeRefs, hfiles, hprocs]
    split
    · rename_i hip
      rw [if_pos hip] at hown
      omega
    · rename_i hip
      rw [if_neg hip] at hown
      omega
  refine ⟨⟨_, hcounted⟩, fun ip => ?_, fun ip => ?_, fun ip => ?_⟩
  · rw [hcount ip]
    split <;> decide
  · rw [hrefs ip]
    split <;> decide
  · rw [hcount ip, hrefs ip]

/-- In every run from boot whose calls give back what they take, every inode counts exactly the
    file entries, working directories and memory areas that name it, after every call. -/
theorem inodeCount_ok (h0 : Booted k) (hr : Reaches Step Accountable k k') : InodeCountOk k' := by
  have hbalanced : Balanced k' :=
    hr.invariant h0.balanced fun a i b ha hc hs => ha.step hc hs
  exact hbalanced.count

set_option maxRecDepth 10000 in
/-- The accounting fails in a run of one call: `stat("/")` keeps the reference it found. -/
theorem inodeCount_leak :
    ∃ k k', Booted k ∧ Reaches Step anyInput k k' ∧ Step k (1, .stat (some ⟨true, []⟩) true) k' ∧
      ¬ InodeCountOk k' := by
  have hrun : (bootKernel.inodes.mInodes 0).iCount = 1 ∧
      ∃ k' ∈ afterCall bootKernel (1, .stat (some ⟨true, []⟩) true),
        (k'.inodes.mInodes 0).iCount = 2 := by decide +kernel
  obtain ⟨hbefore, k', hcall, hafter⟩ := hrun
  have hstep := afterCall_step _ _ _ hcall
  refine ⟨bootKernel, k', bootKernel_booted, Reaches.snoc Reaches.refl trivial hstep, hstep, ?_⟩
  intro hok
  obtain ⟨res, hexec⟩ := hstep
  have hstat : sysStat bootKernel 1 (some ⟨true, []⟩) true = some (k', res) := hexec
  obtain ⟨pr, t, -, rfl, -⟩ := sysStat_cases hstat
  have hrefs : inodeRefs { bootKernel with inodes := t } 0 = inodeRefs bootKernel 0 := rfl
  have hbalanced := bootKernel_booted.balanced.count 0
  rw [hok 0, hrefs, ← hbalanced, hbefore] at hafter
  cases hafter

/-! ## A run in which references come and go -/

/-- A test of `LastKnown`: all the descriptors name inodes whose type is known. -/
def lastKnown (k : Kernel) (pr : Proc) (fds : List Fd) : Bool :=
  fds.all fun fd => (pr.fdtable fd).all fun no => (k.fcb.files no).fInode.all (droppable k.inodes)

theorem lastKnown_sound {fds : List Fd} (h : lastKnown k pr fds = true) :
    LastKnown k.inodes k.fcb pr fds := by
  intro no ip hpos _ hip
  obtain ⟨fd, hfd, hno⟩ := List.countP_pos_iff.mp hpos
  have hfd := List.all_eq_true.mp h fd hfd
  rw [of_decide_eq_true hno, Option.all_some, hip, Option.all_some] at hfd
  exact hfd

/-- A test of `GivesBack`, for the calls of the run below. -/
def givesBack (k : Kernel) (pr : Proc) : Call → Bool
  | .openPath _ _ _ | .pipe _ | .fork _ => true
  | .chdir (some walk) =>
    (namei k.inodes pr.icwd walk).all fun r => r.2.all fun ip =>
      ip != pr.icwd && (ilock r.1 ip).all fun t => isDir (t.mInodes ip).dInodeCtnt.iMode
  | .close fd => (openFd pr fd).all fun r => lastKnown k pr [r.1]
  | .execve (some env) => env.argsOk
  | .exit => lastKnown k pr (List.finRange NFD)
  | _ => false

theorem givesBack_sound {call : Call} (h : givesBack k pr call = true) : GivesBack k pr call := by
  cases call with
  | openPath _ _ _ | pipe _ | fork _ => trivial
  | chdir path =>
    cases path with
    | none => cases h
    | some walk =>
      intro walk' heq t ip hwalk
      cases heq
      have h : (namei k.inodes pr.icwd walk).all _ = true := h
      rw [hwalk, Option.all_some, Option.all_some, Bool.and_eq_true] at h
      refine ⟨bne_iff_ne.mp h.1, fun t' hlock => ?_⟩
      have hdir := h.2
      rw [hlock, Option.all_some] at hdir
      exact hdir
  | close fd =>
    intro i no hopen
    have h : (openFd pr fd).all _ = true := h
    rw [hopen, Option.all_some] at h
    exact lastKnown_sound h
  | execve path =>
    cases path with
    | none => cases h
    | some env =>
      intro env' heq _
      cases heq
      exact .inl h
  | exit => exact lastKnown_sound h
  | _ => cases h

/-- No process, and no program that is started, maps more than a hundred areas. -/
def fewAreas (k : Kernel) (call : Call) : Bool :=
  ((List.finRange NPROC).all fun q => (k.procs q).all fun pr => pr.vmInodes.length ≤ 100) &&
    match call with
    | .execve (some env) => env.segs ≤ 100
    | _ => true

theorem fewAreas_gains {call : Call} (h : fewAreas k call = true) (hpr : k.procs p = some pr)
    (ip : Slot) : inodeRefs k ip + gains pr ip call < 65536 := by
  unfold fewAreas at h
  rw [Bool.and_eq_true] at h
  obtain ⟨hall, hsegs⟩ := h
  have hareas : ∀ q pr, k.procs q = some pr → pr.vmInodes.length ≤ 100 := by
    intro q pr hq
    have hq' := List.all_eq_true.mp hall q (List.mem_finRange q)
    rw [hq, Option.all_some] at hq'
    exact of_decide_eq_true hq'
  have hrefs := inodeRefs_le hareas ip
  have hown := Nat.le_trans (List.count_le_length (a := ip)) (hareas p pr hpr)
  have hgains : gains pr ip call ≤ 101 := by
    cases call with
    | openPath _ _ _ => show 1 ≤ 101; decide
    | chdir _ => show 1 ≤ 101; decide
    | pipe _ => show 2 ≤ 101; decide
    | fork _ => exact Nat.succ_le_succ hown
    | execve path =>
      cases path with
      | none => exact Nat.zero_le 101
      | some env =>
        have hle : env.segs ≤ 100 := of_decide_eq_true hsegs
        exact Nat.le_trans hle (by decide)
    | _ => exact Nat.zero_le 101
  omega

/-- A test of `Accountable`. -/
def accountable (k : Kernel) (i : Pid × Call) : Bool :=
  (k.procs i.1).all fun pr => givesBack k pr i.2 && fewAreas k i.2

theorem accountable_sound (k : Kernel) (i : Pid × Call) (h : accountable k i = true) :
    Accountable k i := by
  intro pr hpr
  unfold accountable at h
  rw [hpr, Option.all_some, Bool.and_eq_true] at h
  exact ⟨givesBack_sound h.1, fewAreas_gains h.2 hpr⟩

/-- Process 1 opens inode 5, moves to the directory of inode 3, starts a program of two areas from
    inode 5, and forks. -/
def takeInodes : List (Pid × Call) :=
  [(1, .openPath (some ⟨⟨true, [some 5]⟩, ⟨⟨true, []⟩, none, none, ⟨none, true⟩, ⟨none, true⟩,
      ⟨none, true⟩⟩⟩) 0 0),
    (1, .chdir (some ⟨true, [some 3]⟩)), (1, .execve (some ⟨⟨true, [some 5]⟩, 2, true, true, 0⟩)),
    (1, .fork (some 2))]

/-- Both processes close the file, the child exits, and the parent moves back to the root. -/
def dropInodes : List (Pid × Call) :=
  [(2, .close 0), (1, .close 0), (2, .exit), (1, .chdir (some ⟨true, []⟩))]

set_option maxRecDepth 10000 in
/-- A run of eight calls: the file in slot 1 gets up to five references, one by the descriptors and
    four by areas, and keeps two; the directory in slot 2 gets two and loses them. -/
theorem inodeCount_ok_program : ∃ k k₁ k₂, Booted k ∧ Reaches Step Accountable k k₁ ∧
    Reaches Step Accountable k₁ k₂ ∧
    ((k₁.inodes.mInodes 1).iCount = 5 ∧ (k₁.inodes.mInodes 2).iCount = 2) ∧
    ((k₂.inodes.mInodes 1).iCount = 2 ∧ (k₂.inodes.mInodes 2).iCount = 0) ∧
    InodeCountOk k₁ ∧ InodeCountOk k₂ := by
  let call := tested accountable afterCall
  have hrun : Leads call bootKernel takeInodes fun k₁ =>
      ((k₁.inodes.mInodes 1).iCount = 5 ∧ (k₁.inodes.mInodes 2).iCount = 2) ∧
      Leads call k₁ dropInodes fun k₂ =>
        (k₂.inodes.mInodes 1).iCount = 2 ∧ (k₂.inodes.mInodes 2).iCount = 0 := by
    decide +kernel
  have hsteps := tested_step accountable_sound afterCall_step
  obtain ⟨k₁, htaken, hused, hrun⟩ := hrun.reaches Step _ hsteps
  obtain ⟨k₂, hdropped, hleft⟩ := hrun.reaches Step _ hsteps
  exact ⟨bootKernel, k₁, k₂, bootKernel_booted, htaken, hdropped, hused, hleft,
    inodeCount_ok bootKernel_booted htaken, inodeCount_ok bootKernel_booted (htaken.trans hdropped)⟩

end Uniks.Sysfile
