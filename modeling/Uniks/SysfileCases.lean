/-
  What a system call can do, said once for each call.

  Each lemma here takes a call that returned apart: which table changed, through which primitive,
  and by how much the inode counts moved (`Adjust`).  The invariants of the file table and of the
  inode counts are both read off these lemmas, and neither looks at the bodies of the calls again.
-/
import Uniks.InodeRefs
import Uniks.Sysfile

namespace Uniks.Sysfile

open Uniks.Inode
open Option (some bind_eq_some_iff)

variable {k k' : Kernel} {p : Pid} {res : Int}

/-! ## Calls that touch inodes only -/

theorem sysCreate_cases {kind : FileKind} {bits mode : Nat} {path : Option CreateEnv}
    (h : sysCreate k p kind bits path mode = some (k', res)) :
    ∃ pr t, k.procs p = some pr ∧ k' = { k with inodes := t } ∧
      (t = k.inodes ∨ ∃ env r, path = some env ∧
        create k.inodes pr.icwd kind (u16 mode ||| bits) env = some (t, r)) := by
  obtain ⟨pr, hpr, h⟩ := bind_eq_some_iff.mp h
  cases path with
  | none =>
    cases h
    exact ⟨pr, k.inodes, hpr, rfl, .inl rfl⟩
  | some env =>
    obtain ⟨⟨t, r⟩, hcreate, h⟩ := bind_eq_some_iff.mp h
    refine ⟨pr, t, hpr, ?_, .inr ⟨env, r, rfl, hcreate⟩⟩
    cases r with
    | none =>
      cases h
      rfl
    | some ip =>
      cases h
      rfl

theorem sysChmod_cases {path : Option Walk} {mode : Nat}
    (h : sysChmod k p path mode = some (k', res)) :
    ∃ pr t, k.procs p = some pr ∧ k' = { k with inodes := t } ∧
      (t = k.inodes ∨ ∃ walk t₁ r, path = some walk ∧
        namei k.inodes pr.icwd walk = some (t₁, r) ∧ Adjust t₁ t 0) := by
  obtain ⟨pr, hpr, h⟩ := bind_eq_some_iff.mp h
  cases path with
  | none =>
    cases h
    exact ⟨pr, k.inodes, hpr, rfl, .inl rfl⟩
  | some walk =>
    obtain ⟨⟨t₁, r⟩, hwalk, h⟩ := bind_eq_some_iff.mp h
    cases r with
    | none =>
      cases h
      exact ⟨pr, t₁, hpr, rfl, .inr ⟨walk, t₁, none, rfl, hwalk, Adjust.refl t₁⟩⟩
    | some ip =>
      obtain ⟨t₂, hup, h⟩ := bind_eq_some_iff.mp h
      cases h
      have hwritten := iupdate_adjust hup
      have h₂ := (Adjust.trans (Adjust.set_zero (by rfl)) hwritten).congr (add_zero 0)
      exact ⟨pr, t₂, hpr, rfl, .inr ⟨walk, t₁, some ip, rfl, hwalk, h₂⟩⟩

theorem doStat_adjust {t t' : InodeTable} {ip : Slot} {areaOk : Bool}
    (h : doStat t ip areaOk = some (t', res)) : Adjust t t' 0 := by
  unfold doStat at h
  split at h
  · obtain ⟨t₁, hlock, h⟩ := bind_eq_some_iff.mp h
    obtain ⟨t₂, hun, h⟩ := bind_eq_some_iff.mp h
    cases h
    exact ((ilock_adjust hlock).trans (iunlock_adjust hun)).congr (add_zero 0)
  · cases h
    exact Adjust.refl t

theorem sysStat_cases {path : Option Walk} {areaOk : Bool}
    (h : sysStat k p path areaOk = some (k', res)) :
    ∃ pr t, k.procs p = some pr ∧ k' = { k with inodes := t } ∧
      (t = k.inodes ∨ ∃ walk t₁ r, path = some walk ∧
        namei k.inodes pr.icwd walk = some (t₁, r) ∧ Adjust t₁ t 0) := by
  obtain ⟨pr, hpr, h⟩ := bind_eq_some_iff.mp h
  cases path with
  | none =>
    cases h
    exact ⟨pr, k.inodes, hpr, rfl, .inl rfl⟩
  | some walk =>
    obtain ⟨⟨t₁, r⟩, hwalk, h⟩ := bind_eq_some_iff.mp h
    cases r with
    | none =>
      cases h
      exact ⟨pr, t₁, hpr, rfl, .inr ⟨walk, t₁, none, rfl, hwalk, Adjust.refl t₁⟩⟩
    | some ip =>
      obtain ⟨⟨t₂, res'⟩, hstat, h⟩ := bind_eq_some_iff.mp h
      cases h
      exact ⟨pr, t₂, hpr, rfl, .inr ⟨walk, t₁, some ip, rfl, hwalk, doStat_adjust hstat⟩⟩

theorem sysFstat_cases {fd : Int} {areaOk : Bool} (h : sysFstat k p fd areaOk = some (k', res)) :
    ∃ t, k' = { k with inodes := t } ∧ Adjust k.inodes t 0 := by
  obtain ⟨pr, hpr, h⟩ := bind_eq_some_iff.mp h
  split at h
  · cases h
    exact ⟨k.inodes, rfl, Adjust.refl _⟩
  · obtain ⟨ip, hip, h⟩ := bind_eq_some_iff.mp h
    obtain ⟨⟨t, res'⟩, hstat, h⟩ := bind_eq_some_iff.mp h
    cases h
    exact ⟨t, rfl, doStat_adjust hstat⟩

theorem sysTruncate_cases {path : Option Walk} {length : Nat} {env : TruncEnv}
    (h : sysTruncate k p path length env = some (k', res)) :
    ∃ t, k' = { k with inodes := t } ∧ Adjust k.inodes t 0 := by
  obtain ⟨pr, hpr, h⟩ := bind_eq_some_iff.mp h
  cases path with
  | none => cases h
  | some walk =>
    obtain ⟨⟨t₁, r⟩, hwalk, h⟩ := bind_eq_some_iff.mp h
    cases r with
    | none => cases h
    | some ip =>
      obtain ⟨t₂, hlock, h⟩ := bind_eq_some_iff.mp h
      have h₂ := (namei_adjust hwalk).trans (ilock_adjust hlock)
      rw [held_some] at h₂
      split at h
      · obtain ⟨⟨t₃, res'⟩, htrunc, h⟩ := bind_eq_some_iff.mp h
        obtain ⟨t₄, hput, h⟩ := bind_eq_some_iff.mp h
        cases h
        have h₄ := (h₂.trans (itruncateSlot_adjust htrunc)).trans (iunlockput_adjust hput)
        exact ⟨t₄, rfl, h₄.congr (by abel)⟩
      · obtain ⟨t₄, hput, h⟩ := bind_eq_some_iff.mp h
        cases h
        exact ⟨t₄, rfl, (h₂.trans (iunlockput_adjust hput)).congr (by abel)⟩

theorem linkFail_adjust {t t' : InodeTable} {ip : Slot} (h : linkFail t ip = some t') :
    Adjust t t' (-one ip) := by
  obtain ⟨t₁, hlock, h⟩ := bind_eq_some_iff.mp h
  obtain ⟨t₂, hup, h⟩ := bind_eq_some_iff.mp h
  have hwritten := iupdate_adjust hup
  have h₂ := (ilock_adjust hlock).trans (Adjust.trans (Adjust.set_zero (by rfl)) hwritten)
  exact (h₂.trans (iunlockput_adjust h)).congr (by abel)

theorem linkEntry_adjust {t t' : InodeTable} {icwd : Slot} {env : LinkPaths}
    (h : linkEntry t icwd env = some (t', res)) : Adjust t t' 0 := by
  obtain ⟨⟨t₁, dp⟩, hparent, h⟩ := bind_eq_some_iff.mp h
  have h₁ := nameiparent_adjust hparent
  cases dp with
  | none =>
    cases h
    exact h₁
  | some dp =>
    obtain ⟨t₂, hlock, h⟩ := bind_eq_some_iff.mp h
    obtain ⟨⟨t₃, res'⟩, hlink, h⟩ := bind_eq_some_iff.mp h
    obtain ⟨t₄, hput, h⟩ := bind_eq_some_iff.mp h
    cases h
    have h₄ := ((h₁.trans (ilock_adjust hlock)).trans (dirlink_adjust hlink)).trans
      (iunlockput_adjust hput)
    exact h₄.congr (by rw [held_some]; abel)

theorem sysLink_cases {paths : Option LinkPaths} {junk : Int}
    (h : sysLink k p paths junk = some (k', res)) :
    ∃ t, k' = { k with inodes := t } ∧ Adjust k.inodes t 0 := by
  obtain ⟨pr, hpr, h⟩ := bind_eq_some_iff.mp h
  cases paths with
  | none =>
    cases h
    exact ⟨k.inodes, rfl, Adjust.refl _⟩
  | some env =>
    obtain ⟨⟨t₁, r⟩, hwalk, h⟩ := bind_eq_some_iff.mp h
    have h₁ := namei_adjust hwalk
    cases r with
    | none =>
      cases h
      exact ⟨t₁, rfl, h₁⟩
    | some ip =>
      obtain ⟨t₂, hlock, h⟩ := bind_eq_some_iff.mp h
      have h₂ := h₁.trans (ilock_adjust hlock)
      rw [held_some] at h₂
      split at h
      · obtain ⟨t₃, hput, h⟩ := bind_eq_some_iff.mp h
        cases h
        exact ⟨t₃, rfl, (h₂.trans (iunlockput_adjust hput)).congr (by abel)⟩
      · obtain ⟨t₃, hup, h⟩ := bind_eq_some_iff.mp h
        obtain ⟨t₄, hun, h⟩ := bind_eq_some_iff.mp h
        obtain ⟨⟨t₅, res'⟩, hentry, h⟩ := bind_eq_some_iff.mp h
        have hwritten := iupdate_adjust hup
        have h₅ := ((h₂.trans (Adjust.trans (Adjust.set_zero (by rfl)) hwritten)).trans
          (iunlock_adjust hun)).trans (linkEntry_adjust hentry)
        simp only at h
        split at h
        · obtain ⟨t₆, hfail, h⟩ := bind_eq_some_iff.mp h
          cases h
          exact ⟨t₆, rfl, (h₅.trans (linkFail_adjust hfail)).congr (by abel)⟩
        · cases h
          exact ⟨_, rfl, (h₅.trans (iput_adjust t₅ ip)).congr (by abel)⟩

/-- A `chdir` that goes somewhere else hands the reference it found to the process; the others
    leave the process as it was. -/
theorem sysChdir_cases {path : Option Walk} (h : sysChdir k p path = some (k', res)) :
    ∃ pr t, k.procs p = some pr ∧
      ((k' = { k with inodes := t } ∧ Adjust k.inodes t 0) ∨
       ∃ walk t₁ ip, path = some walk ∧ namei k.inodes pr.icwd walk = some (t₁, some ip) ∧
        ((k' = { k with inodes := t } ∧ Adjust k.inodes t (one ip) ∧
            (ip = pr.icwd ∨
              ∃ t₂, ilock t₁ ip = some t₂ ∧ ¬ isDir (t₂.mInodes ip).dInodeCtnt.iMode)) ∨
         (k' = { k with inodes := t }.setProc p (some { pr with icwd := ip }) ∧
            Adjust k.inodes t (one ip - one pr.icwd)))) := by
  obtain ⟨pr, hpr, h⟩ := bind_eq_some_iff.mp h
  cases path with
  | none =>
    cases h
    exact ⟨pr, k.inodes, hpr, .inl ⟨rfl, Adjust.refl _⟩⟩
  | some walk =>
    obtain ⟨⟨t₁, r⟩, hwalk, h⟩ := bind_eq_some_iff.mp h
    have h₁ := namei_adjust hwalk
    cases r with
    | none =>
      cases h
      exact ⟨pr, t₁, hpr, .inl ⟨rfl, h₁⟩⟩
    | some ip =>
      rw [held_some] at h₁
      simp only at h
      split at h
      · rename_i hsame
        cases h
        exact ⟨pr, t₁, hpr, .inr ⟨walk, t₁, ip, rfl, hwalk, .inl ⟨rfl, h₁, .inl hsame⟩⟩⟩
      · obtain ⟨t₂, hlock, h⟩ := bind_eq_some_iff.mp h
        have h₂ := h₁.trans (ilock_adjust hlock)
        split at h
        · obtain ⟨t₃, hun, h⟩ := bind_eq_some_iff.mp h
          cases h
          have h₃ := (h₂.trans (iput_adjust t₂ pr.icwd)).trans (iunlock_adjust hun)
          exact ⟨pr, t₃, hpr, .inr ⟨walk, t₁, ip, rfl, hwalk,
            Or.inr ⟨rfl, h₃.congr (by abel)⟩⟩⟩
        · rename_i hdir
          obtain ⟨t₃, hun, h⟩ := bind_eq_some_iff.mp h
          cases h
          have h₃ := (h₂.trans (iunlock_adjust hun)).congr (e := one ip) (by abel)
          exact ⟨pr, t₃, hpr, .inr ⟨walk, t₁, ip, rfl, hwalk,
            Or.inl ⟨rfl, h₃, .inr ⟨t₂, hlock, hdir⟩⟩⟩⟩

/-! ## References of whole lists -/

/-- One reference for each occurrence in a list. -/
def allOf (ips : List Slot) : Slot → Int := fun jp => (ips.count jp : Int)

@[simp] theorem allOf_nil : allOf [] = 0 := rfl

theorem allOf_cons (ip : Slot) (ips : List Slot) : allOf (ip :: ips) = one ip + allOf ips := by
  funext jp
  rw [Pi.add_apply, allOf, allOf, one, List.count_cons, Int.natCast_add]
  by_cases hjp : jp = ip
  · subst hjp
    rw [if_pos (beq_self_eq_true jp), if_pos rfl]
    omega
  · rw [if_neg (fun hb => hjp (beq_iff_eq.mp hb).symm), if_neg hjp]
    omega

theorem idupAll_adjust {ips : List Slot} {t t' : InodeTable} (h : idupAll ips t = some t') :
    Adjust t t' (allOf ips) := by
  induction ips generalizing t with
  | nil =>
    obtain rfl := some.inj h
    exact Adjust.refl t
  | cons ip ips ih =>
    obtain ⟨t₁, hdup, h⟩ := bind_eq_some_iff.mp h
    rw [allOf_cons]
    exact (idup_adjust hdup).trans (ih h)

theorem iputAll_adjust (ips : List Slot) (t : InodeTable) :
    Adjust t (iputAll ips t) (-allOf ips) := by
  induction ips generalizing t with
  | nil => exact (Adjust.refl t).congr (by rw [allOf_nil, neg_zero])
  | cons ip ips ih =>
    rw [allOf_cons]
    exact ((iput_adjust t ip).trans (ih (iput t ip))).congr (by abel)

/-! ## Descriptors -/

theorem idleFd_none {pr : Proc} {arg : Nat} {fd : Fd} (h : idleFd pr arg = some fd) :
    pr.fdtable fd = none := by
  have hfound := List.find?_some h
  rw [Bool.and_eq_true] at hfound
  exact Option.isNone_iff_eq_none.mp hfound.2

/-- A file that is closed loses one descriptor; with the last one its inode is released and its
    entry becomes idle. -/
theorem fileClose_cases {t t' : InodeTable} {fcb fcb' : FcbTable} {no : FcbNo}
    (h : fileClose t fcb no = some (t', fcb')) :
    ∃ f : FileT, f.fCount + 1 = (fcb.files no).fCount ∧ f.fInode = (fcb.files no).fInode ∧
      ((0 < f.fCount ∧ t' = t ∧ fcb' = fcb.set no f) ∨
       (f.fCount = 0 ∧ ∃ ip flags, f.fInode = some ip ∧ t' = fileRelease t ip flags ∧
          fcbnoFree (fcb.set no f) no = some fcb')) := by
  unfold fileClose at h
  simp only at h
  split at h
  · refine ⟨{ fcb.files no with fCount := (fcb.files no).fCount - 1 }, ?_, rfl, ?_⟩
    · show (fcb.files no).fCount - 1 + 1 = (fcb.files no).fCount
      omega
    · split at h
      · rename_i hmany
        cases h
        exact .inl ⟨hmany, rfl, rfl⟩
      · rename_i hlast
        split at h
        · cases h
        · rename_i ip hip
          obtain ⟨fcb₁, hfree, heq⟩ := Option.map_eq_some_iff.mp h
          cases heq
          exact .inr ⟨Nat.eq_zero_of_not_pos hlast, ip, _, hip, rfl, hfree⟩
  · cases h

theorem doClose_cases {pr pr' : Proc} {fd : Fd} (h : doClose k p pr fd = some (k', pr')) :
    ∃ no t fcb, pr.fdtable fd = some no ∧ fileClose k.inodes k.fcb no = some (t, fcb) ∧
      pr' = pr.setFd fd none ∧
      k' = { k with inodes := t, fcb := fcb }.setProc p (some (pr.setFd fd none)) := by
  obtain ⟨no, hno, h⟩ := bind_eq_some_iff.mp h
  obtain ⟨⟨t, fcb⟩, hclose, h⟩ := bind_eq_some_iff.mp h
  cases h
  exact ⟨no, t, fcb, hno, hclose, rfl, rfl⟩

theorem sysClose_cases {fd : Int} (h : sysClose k p fd = some (k', res)) :
    ∃ pr, k.procs p = some pr ∧ ((k' = k ∧ res < 0) ∨ ∃ i no pr', openFd pr fd = some (i, no) ∧
      doClose k p pr i = some (k', pr') ∧ res = 0) := by
  obtain ⟨pr, hpr, h⟩ := bind_eq_some_iff.mp h
  refine ⟨pr, hpr, ?_⟩
  split at h
  · cases h
    exact .inl ⟨rfl, by decide⟩
  · rename_i i no hopen
    obtain ⟨⟨k₁, pr'⟩, hclose, h⟩ := bind_eq_some_iff.mp h
    cases h
    exact .inr ⟨i, no, pr', hopen, hclose, rfl⟩

theorem doDupfd_cases {pr : Proc} {fd arg : Nat} (h : doDupfd k p pr fd arg = some (k', res)) :
    k' = k ∨ ∃ i j fcb, pr.fdtable i = none ∧ fileDup k.fcb (pr.fdtable j) = some fcb ∧
      k' = { k with fcb := fcb }.setProc p (some (pr.setFd i (pr.fdtable j))) := by
  unfold doDupfd at h
  split at h
  · cases h
    exact .inl rfl
  · split at h
    · cases h
      exact .inl rfl
    · rename_i i hidle
      split at h
      · rename_i hfd
        obtain ⟨fcb, hdup, h⟩ := bind_eq_some_iff.mp h
        cases h
        exact .inr ⟨i, ⟨fd, hfd⟩, fcb, idleFd_none hidle, hdup, rfl⟩
      · cases h

theorem sysDup_cases {oldfd : Nat} (h : sysDup k p oldfd = some (k', res)) :
    ∃ pr, k.procs p = some pr ∧ ((k' = k ∧ res < 0) ∨
      openFd pr oldfd ≠ none ∧ doDupfd k p pr oldfd 0 = some (k', res)) := by
  obtain ⟨pr, hpr, h⟩ := bind_eq_some_iff.mp h
  refine ⟨pr, hpr, ?_⟩
  split at h
  · cases h
    exact .inl ⟨rfl, by decide⟩
  · rename_i hopen
    exact .inr ⟨by rw [hopen]; exact Option.some_ne_none _, h⟩

theorem sysDup2_cases {oldfd newfd : Nat} (h : sysDup2 k p oldfd newfd = some (k', res)) :
    ∃ pr, k.procs p = some pr ∧ ((k' = k ∧ res < 0) ∨ doDupfd k p pr oldfd newfd = some (k', res) ∨
      ∃ (i : Fd) (k₁ : Kernel) (pr₁ : Proc), (i : Nat) = newfd ∧ doClose k p pr i = some (k₁, pr₁) ∧
        doDupfd k₁ p pr₁ oldfd newfd = some (k', res)) := by
  obtain ⟨pr, hpr, h⟩ := bind_eq_some_iff.mp h
  refine ⟨pr, hpr, ?_⟩
  split at h
  · rename_i hnew
    split at h
    · exact .inr (.inl h)
    · obtain ⟨⟨k₁, pr₁⟩, hclose, h⟩ := bind_eq_some_iff.mp h
      exact .inr (.inr ⟨⟨newfd, hnew⟩, k₁, pr₁, rfl, hclose, h⟩)
  · cases h
    exact .inl ⟨rfl, by decide⟩

/-- The successful end of `sys_pipe` makes both entries name the new pipe. -/
theorem pipeFill_cases {no₁ no₂ : FcbNo} (h : pipeFill k no₁ no₂ = some k') :
    ∃ ip t f₁ f₂, k' = { k with inodes := t, fcb := (k.fcb.set no₁ f₁).set no₂ f₂ } ∧
      f₁.fCount = u32 ((k.fcb.files no₁).fCount + 1) ∧ f₁.fInode = some ip ∧
      f₂.fCount = u32 (((k.fcb.set no₁ f₁).files no₂).fCount + 1) ∧ f₂.fInode = some ip ∧
      Adjust k.inodes t (one ip + one ip) := by
  unfold pipeFill at h
  obtain ⟨⟨t₁, ip⟩, halloc, h⟩ := bind_eq_some_iff.mp h
  obtain ⟨t₂, hdup, h⟩ := bind_eq_some_iff.mp h
  cases h
  exact ⟨ip, t₂, _, _, rfl, rfl, rfl, rfl, rfl,
    (pipealloc_adjust halloc).trans (idup_adjust hdup)⟩

/-- `sys_pipe` either gives everything back, or installs two descriptors; it fills the entries
    behind them only when the user buffer is admitted. -/
theorem sysPipe_cases {areaOk : Bool} (h : sysPipe k p areaOk = some (k', res)) :
    ∃ pr, k.procs p = some pr ∧ ((k' = k ∧ res < 0) ∨ ∃ fd₁ fcb₁ no₁, pr.fdtable fd₁ = none ∧
      fileAlloc k.fcb = some (fcb₁, no₁) ∧
      ((∃ fcb₂, fcbnoFree fcb₁ no₁ = some fcb₂ ∧ res < 0 ∧
          k' = { k with fcb := fcb₂ }.setProc p (some ((pr.setFd fd₁ (some no₁)).setFd fd₁ none))) ∨
       ∃ fd₂ fcb₂ no₂ k₁, (pr.setFd fd₁ (some no₁)).fdtable fd₂ = none ∧
          fileAlloc fcb₁ = some (fcb₂, no₂) ∧
          k₁ = { k with fcb := fcb₂ }.setProc p
            (some ((pr.setFd fd₁ (some no₁)).setFd fd₂ (some no₂))) ∧
          (res = if areaOk then 0 else -EFAULT) ∧
          if areaOk then pipeFill k₁ no₁ no₂ = some k' else k' = k₁)) := by
  obtain ⟨pr, hpr, h⟩ := bind_eq_some_iff.mp h
  refine ⟨pr, hpr, ?_⟩
  split at h
  · cases h
    exact .inl ⟨rfl, by decide⟩
  · rename_i fd₁ hidle₁
    obtain ⟨⟨fcb₁, no₁⟩, halloc₁, h⟩ := bind_eq_some_iff.mp h
    refine .inr ⟨fd₁, fcb₁, no₁, idleFd_none hidle₁, halloc₁, ?_⟩
    simp only at h
    split at h
    · obtain ⟨fcb₂, hfree, h⟩ := bind_eq_some_iff.mp h
      cases h
      exact .inl ⟨fcb₂, hfree, by decide, rfl⟩
    · rename_i fd₂ hidle₂
      obtain ⟨⟨fcb₂, no₂⟩, halloc₂, h⟩ := bind_eq_some_iff.mp h
      refine .inr ⟨fd₂, fcb₂, no₂, _, idleFd_none hidle₂, halloc₂, rfl, ?_⟩
      cases areaOk with
      | true =>
        rw [if_pos rfl] at h
        obtain ⟨k₂, hfill, h⟩ := bind_eq_some_iff.mp h
        cases h
        exact ⟨rfl, hfill⟩
      | false =>
        cases h
        exact ⟨rfl, rfl⟩

/-! ## Opening -/

theorem openInode_cases {t t' : InodeTable} {icwd : Slot} {env : OpenEnv} {flags mode : Nat}
    {r : Int ⊕ Slot} (h : openInode t icwd env flags mode = some (t', r)) :
    Adjust t t' (held r.getRight?) := by
  unfold openInode at h
  split at h
  · obtain ⟨⟨t₁, ip⟩, hcreate, h⟩ := bind_eq_some_iff.mp h
    have h₁ := create_adjust hcreate
    cases ip with
    | none =>
      cases h
      exact h₁
    | some ip =>
      cases h
      exact h₁
  · obtain ⟨⟨t₁, ip⟩, hwalk, h⟩ := bind_eq_some_iff.mp h
    have h₁ := namei_adjust hwalk
    cases ip with
    | none =>
      cases h
      exact h₁
    | some ip =>
      cases h
      exact h₁

/-- When there is no inode, the call fails. -/
theorem openInode_fails {t t' : InodeTable} {icwd : Slot} {env : OpenEnv} {flags mode : Nat}
    {err : Int} (h : openInode t icwd env flags mode = some (t', .inl err)) : err < 0 := by
  unfold openInode at h
  split at h
  · obtain ⟨⟨t₁, ip⟩, -, h⟩ := bind_eq_some_iff.mp h
    cases ip with
    | none =>
      obtain ⟨-, herr⟩ := Prod.mk.inj (some.inj h)
      obtain rfl := Sum.inl.inj herr
      decide
    | some ip => exact nomatch (Prod.mk.inj (some.inj h)).2
  · obtain ⟨⟨t₁, ip⟩, -, h⟩ := bind_eq_some_iff.mp h
    cases ip with
    | none =>
      obtain ⟨-, herr⟩ := Prod.mk.inj (some.inj h)
      obtain rfl := Sum.inl.inj herr
      decide
    | some ip => exact nomatch (Prod.mk.inj (some.inj h)).2

/-- Cutting a file to nothing never fails. -/
theorem itruncateSlot_to_zero {t t' : InodeTable} {ip : Slot} {blocks grown : Nat}
    (h : itruncateSlot t ip 0 blocks grown = some (t', res)) : res = 0 := by
  have hzero : ∀ d : DInode, (itruncate d 0 blocks grown).2 = 0 := by
    intro d
    unfold itruncate
    rw [if_neg (Nat.not_lt_zero d.iSize)]
    split <;> rfl
  unfold itruncateSlot at h
  simp only at h
  split at h
  · cases h
    exact hzero _
  · obtain ⟨t₁, -, heq⟩ := Option.map_eq_some_iff.mp h
    cases heq
    exact hzero _

theorem openInstall_cases {pr : Proc} {fd : Fd} {ip : Slot} {flags : Nat}
    (h : openInstall k p pr fd ip flags = some (k', res)) :
    ∃ fcb no f t, fileAlloc k.fcb = some (fcb, no) ∧
      k' = { k with inodes := t, fcb := fcb.set no f }.setProc p
        (some (pr.setFd fd (some no))) ∧
      f.fCount = u32 ((fcb.files no).fCount + 1) ∧ f.fInode = some ip ∧ Adjust k.inodes t 0 ∧
      res = (fd : Nat) := by
  obtain ⟨⟨fcb, no⟩, halloc, h⟩ := bind_eq_some_iff.mp h
  simp only at h
  split at h
  · obtain ⟨t₁, hlock, h⟩ := bind_eq_some_iff.mp h
    obtain ⟨t₂, hun, h⟩ := bind_eq_some_iff.mp h
    cases h
    have h₂ := (ilock_adjust hlock).trans (iunlock_adjust hun)
    exact ⟨fcb, no, _, t₂, halloc, rfl, rfl, rfl, h₂.congr (add_zero 0), rfl⟩
  · split at h
    · obtain ⟨t₁, hlock, h⟩ := bind_eq_some_iff.mp h
      obtain ⟨⟨t₂, res'⟩, htrunc, h⟩ := bind_eq_some_iff.mp h
      obtain rfl := itruncateSlot_to_zero htrunc
      obtain ⟨t₃, hun, h⟩ := bind_eq_some_iff.mp h
      cases h
      have h₃ := ((ilock_adjust hlock).trans (itruncateSlot_adjust htrunc)).trans
        (iunlock_adjust hun)
      exact ⟨fcb, no, _, t₃, halloc, rfl, rfl, rfl, h₃.congr (by abel), rfl⟩
    · cases h
      exact ⟨fcb, no, _, k.inodes, halloc, rfl, rfl, rfl, Adjust.refl _, rfl⟩

theorem sysOpen_cases {path : Option OpenEnv} {flags mode : Nat}
    (h : sysOpen k p path flags mode = some (k', res)) :
    ∃ pr, k.procs p = some pr ∧ ((k' = k ∧ res < 0) ∨ ∃ t r, Adjust k.inodes t (held r) ∧
      ((r = none ∧ res < 0 ∧ k' = { k with inodes := t }) ∨
       ∃ fd ip, r = some ip ∧ pr.fdtable fd = none ∧
         openInstall { k with inodes := t } p pr fd ip flags = some (k', res))) := by
  obtain ⟨pr, hpr, h⟩ := bind_eq_some_iff.mp h
  refine ⟨pr, hpr, ?_⟩
  split at h
  · cases h
    exact .inl ⟨rfl, by decide⟩
  · rename_i fd hidle
    cases path with
    | none =>
      cases h
      exact .inl ⟨rfl, by decide⟩
    | some env =>
      obtain ⟨⟨t, r⟩, hopen, h⟩ := bind_eq_some_iff.mp h
      refine .inr ⟨t, r.getRight?, openInode_cases hopen, ?_⟩
      cases r with
      | inl err =>
        cases h
        exact .inl ⟨rfl, openInode_fails hopen, rfl⟩
      | inr ip => exact .inr ⟨fd, ip, rfl, idleFd_none hidle, h⟩

/-! ## Whole processes -/

theorem doFork_cases {child : Option Pid} (h : doFork k p child = some (k', res)) :
    ∃ pr, k.procs p = some pr ∧ ((k' = k ∧ res < 0) ∨ ∃ c t fcb, child = some c ∧ k.procs c = none ∧
      dupAll pr (List.finRange NFD) k.fcb = some fcb ∧
      Adjust k.inodes t (allOf pr.vmInodes + one pr.icwd) ∧
      k' = { k with inodes := t, fcb := fcb }.setProc c (some pr) ∧ res = (c : Nat)) := by
  obtain ⟨pr, hpr, h⟩ := bind_eq_some_iff.mp h
  refine ⟨pr, hpr, ?_⟩
  cases child with
  | none =>
    cases h
    exact .inl ⟨rfl, by decide⟩
  | some c =>
    simp only at h
    split at h
    · rename_i hfree
      obtain ⟨t₁, hdups, h⟩ := bind_eq_some_iff.mp h
      obtain ⟨fcb, hfiles, h⟩ := bind_eq_some_iff.mp h
      obtain ⟨t₂, hdup, h⟩ := bind_eq_some_iff.mp h
      cases h
      exact .inr ⟨c, t₂, fcb, rfl, Option.isNone_iff_eq_none.mp hfree, hfiles,
        (idupAll_adjust hdups).trans (idup_adjust hdup), rfl, rfl⟩
    · cases h

/-- `do_execve` swaps the mapped files of the process, or fails and gives back what it took; one
    failure leaves the mapped files of the new program behind. -/
theorem doExecve_cases {path : Option ExecEnv} (h : doExecve k p path = some (k', res)) :
    ∃ pr t, k.procs p = some pr ∧
      ((k' = { k with inodes := t } ∧ Adjust k.inodes t 0) ∨
       ∃ env ip, path = some env ∧
        ((env.loaded = true ∧ env.argsOk = false ∧ k' = { k with inodes := t } ∧
            Adjust k.inodes t (allOf (List.replicate env.segs ip))) ∨
         (k' = { k with inodes := t }.setProc p
              (some { pr with vmInodes := List.replicate env.segs ip }) ∧
            Adjust k.inodes t (allOf (List.replicate env.segs ip) - allOf pr.vmInodes)))) := by
  obtain ⟨pr, hpr, h⟩ := bind_eq_some_iff.mp h
  cases path with
  | none =>
    cases h
    exact ⟨pr, k.inodes, hpr, .inl ⟨rfl, Adjust.refl _⟩⟩
  | some env =>
    obtain ⟨⟨t₁, r⟩, hwalk, h⟩ := bind_eq_some_iff.mp h
    have h₁ := namei_adjust hwalk
    cases r with
    | none =>
      cases h
      exact ⟨pr, t₁, hpr, .inl ⟨rfl, h₁⟩⟩
    | some ip =>
      rw [held_some] at h₁
      obtain ⟨t₂, hlock, h⟩ := bind_eq_some_iff.mp h
      obtain ⟨t₃, hsegs, h⟩ := bind_eq_some_iff.mp h
      obtain ⟨t₄, hun, h⟩ := bind_eq_some_iff.mp h
      have h₄ := ((h₁.trans (ilock_adjust hlock)).trans (idupAll_adjust hsegs)).trans
        (iunlock_adjust hun)
      split at h
      · rename_i hloaded
        split at h
        · cases h
          have h₅ := (h₄.trans (iputAll_adjust pr.vmInodes t₄)).trans (iput_adjust _ ip)
          exact ⟨pr, _, hpr, .inr ⟨env, ip, rfl, .inr ⟨rfl, h₅.congr (by abel)⟩⟩⟩
        · rename_i hargs
          cases h
          exact ⟨pr, _, hpr, .inr ⟨env, ip, rfl, .inl ⟨hloaded, Bool.not_eq_true _ ▸ hargs,
            rfl, (h₄.trans (iput_adjust t₄ ip)).congr (by abel)⟩⟩⟩
      · cases h
        have h₅ := (h₄.trans (iputAll_adjust (List.replicate env.segs ip) t₄)).trans
          (iput_adjust _ ip)
        exact ⟨pr, _, hpr, .inl ⟨rfl, h₅.congr (by abel)⟩⟩

theorem doExit_cases (h : doExit k p = some (k', res)) :
    ∃ pr t₁ t₂ fcb, k.procs p = some pr ∧
      closeAll pr (List.finRange NFD) (k.inodes, k.fcb) = some (t₁, fcb) ∧
      Adjust t₁ t₂ (-one pr.icwd - allOf pr.vmInodes) ∧
      k' = { k with inodes := t₂, fcb := fcb }.setProc p none := by
  obtain ⟨pr, hpr, h⟩ := bind_eq_some_iff.mp h
  split at h
  · obtain ⟨⟨t₁, fcb⟩, hclose, h⟩ := bind_eq_some_iff.mp h
    cases h
    have h₂ := (iput_adjust t₁ pr.icwd).trans (iputAll_adjust pr.vmInodes _)
    exact ⟨pr, t₁, _, fcb, hpr, hclose, h₂.congr (by abel), rfl⟩
  · cases h

end Uniks.Sysfile
