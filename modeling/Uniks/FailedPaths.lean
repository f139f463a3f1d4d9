/-
  What is left behind by a call whose path fails.

  `Fails` is the kind of call this is about: the path cannot be fetched or does not lead anywhere,
  the file at its end has the wrong type or may not be written, or the new name of `link` is taken.
  `Settled` is the condition under which such a call gives its references, its mutexes and its
  result back as it should; each of its cases excludes one of these exits:
  `argstrfetch` never gets to the end of a string of `PATH_MAX` bytes, and fails the assertion of
  `walk` on an address from `MAXVA` on that `verify_area` has let through; `namex` asserts that what
  it looks a name up in is a directory, and `dirlookup` stays at an entry of length zero;
  `sys_truncate` has one exit for all, which drops an inode it may not have; `sys_chdir` unlocks a
  file that is no directory but keeps the reference; and the `fail:` exit of `sys_link` leaves
  `res` unset.
-/
import Uniks.PathWalk

namespace Uniks.PathCalls

open Uniks.Inode Uniks.Sysfile Uniks.Hoare

/-! ## Failing calls -/

/-- What a path of the user comes to: the device and the end of the walk, if it can be fetched. -/
def pathEnd (env : Env) (s : Fs) (icwd : Slot) (parent : Bool) (uaddr : Nat) :
    Except Stop (Option (Nat × Lead)) :=
  (argstrfetch env.user uaddr PATH_MAX).map fun path =>
    path.map fun path => ((startOf s icwd path).1, pathLeads env s icwd parent path)

/-- The path is not fetched, leads nowhere, or to something `wrong`. -/
def PathFails (wrong : Nat → Nat → Str → Prop) : Except Stop (Option (Nat × Lead)) → Prop
  | .ok (some (dev, .found iNo name)) => wrong dev iNo name
  | _ => True

/-- What `create` finds under the last name of its path. -/
def entry (env : Env) (s : Fs) (dev iNo : Nat) (name : Str) : Option (Option Nat) :=
  diskLookup s dev iNo name (env.lookupStack [name])

/-- The path comes to an end that the call has a proper exit for: `onFault` for a path that cannot
    be fetched, `onMissing` for one that leads nowhere, `onFound` for one that leads somewhere. -/
def PathSettled (onFault onMissing : Prop) (onFound : Nat → Nat → Str → Prop) :
    Except Stop (Option (Nat × Lead)) → Prop
  | .error _ => False
  | .ok none => onFault
  | .ok (some (dev, .found iNo name)) => onFound dev iNo name
  | .ok (some (_, .missing)) => onMissing
  | .ok (some (_, .stuck)) => False

/-- The error numbers of these calls. -/
def errnos : List Int := [EPERM, ENOENT, Sysfile.EIO, EACCES, EFAULT, EMFILE]

/-- The call has changed nothing that can be seen. -/
structure Untouched (s s' : Sys) : Prop where
  procs : s'.procs = s.procs
  cwd : s'.cwd = s.cwd
  fcb : s'.fcb = s.fcb
  counts : ∀ ip, (s'.fs.inodes.mInodes ip).iCount = (s.fs.inodes.mInodes ip).iCount
  names : ∀ ip, 1 ≤ (s.fs.inodes.mInodes ip).iCount →
    SameName (s.fs.inodes.mInodes ip) (s'.fs.inodes.mInodes ip)
  records : ∀ ip, 1 ≤ (s.fs.inodes.mInodes ip).iCount →
    (s.fs.inodes.mInodes ip).iValid = true → record s'.fs ip = record s.fs ip
  disk : SameDisk s.fs s'.fs
  mutexes : s'.fs.iMtx = fun _ => none

/-- The call has returned a negative error number, and nothing else has happened. -/
def Refused (s : Sys) (r : Sys × Option Int) : Prop :=
  (∃ e ∈ errnos, r.2 = some (-e)) ∧ Untouched s r.1

variable {p : Pid} {env : Env} {s : Sys} {pr : Proc} {path : Str} {fs : Fs}

theorem Untouched.refused {s' : Sys} (h : Untouched s s') {e : Int} (he : e ∈ errnos) :
    Refused s (s', some (-e)) :=
  ⟨⟨e, he, rfl⟩, h⟩

/-! ## Walks by their end -/

variable {icwd : Slot} {f : Fs} {iNo : Nat} {name : Str}

theorem AtHome.namex_found (h : AtHome env f icwd) {parent : Bool}
    (hlead : pathLeads env f icwd parent path = .found iNo name) :
    Meets (Lacks f) (PathCalls.namex p env f icwd path parent) fun r =>
      ∃ jp, r.2 = some (jp, name) ∧ Amid p f r.1 [jp] none ∧
        Named r.1 jp (startOf f icwd path).1 iNo := by
  have hwalk := h.namex p path parent
  rw [hlead] at hwalk
  exact hwalk.weaken fun e he => he.resolve_right nofun

theorem AtHome.namex_missing (h : AtHome env f icwd) {parent : Bool}
    (hlead : pathLeads env f icwd parent path = .missing) :
    Meets (Lacks f) (PathCalls.namex p env f icwd path parent) fun r =>
      r.2 = none ∧ Amid p f r.1 [] none := by
  have hwalk := h.namex p path parent
  rw [hlead] at hwalk
  exact hwalk.weaken fun e he => he.resolve_right nofun

theorem AtHome.namex_stuck (h : AtHome env f icwd) {parent : Bool}
    (hlead : pathLeads env f icwd parent path = .stuck) :
    Meets (fun _ => True) (PathCalls.namex p env f icwd path parent) fun _ => False := by
  have hwalk := h.namex p path parent
  rw [hlead] at hwalk
  exact hwalk.weaken fun _ _ => trivial

/-- The branch of `create` for a name that is taken: a file is handed out, and all else given
    back. -/
theorem create_taken {fs₀ : Fs} {dp ip : Slot} {dev target : Nat} {kind : FileKind}
    (h : Amid p fs₀ fs [ip, dp] (some dp)) (hroom : Room fs₀.inodes) (hdp : Named fs dp dev iNo)
    (hip : Named fs ip dev target) (hparent : SafeDrop env fs₀ dev iNo)
    (htarget : SafeDrop env fs₀ dev target) :
    Meets (fun _ => False) (do
      let s ← iunlockput p env fs dp
      let s ← ilock p s ip
      if fits kind (record s ip).iMode then
        let s ← iunlock p s ip
        return (s, some ip)
      else
        let s ← iunlockput p env s ip
        return (s, none)) fun r =>
      (r.2 = none ↔ fits kind (fs₀.inodes.diskInode dev target).iMode = false) ∧
        (r.2 = none → Amid p fs₀ r.1 [] none) := by
  have h' := h.perm (List.Perm.swap dp ip [])
  refine (h'.iunlockput hroom (Nat.le_add_left 1 3) hdp hparent).bind fun s₁ hs₁ => ?_
  have hip₁ : Named s₁ ip dev target :=
    ⟨(hs₁.2 ip).1.trans hip.1, (hs₁.2 ip).2.trans hip.2⟩
  refine (hs₁.1.ilock List.mem_cons_self hip₁).bind fun s₂ hs₂ => ?_
  rcases hs₂ with ⟨h₂, hip₂, hrecord⟩
  rw [hrecord]
  cases hfits : fits kind (fs₀.inodes.diskInode dev target).iMode with
  | true =>
    rw [if_pos rfl]
    refine (h₂.iunlock List.mem_cons_self).bind fun s₃ _ => .pure ?_
    exact ⟨⟨nofun, nofun⟩, nofun⟩
  | false =>
    rw [if_neg Bool.false_ne_true]
    refine (h₂.iunlockput hroom (Nat.zero_le 4) hip₂ htarget).bind fun s₃ hs₃ => .pure ?_
    exact ⟨⟨fun _ => rfl, fun _ => rfl⟩, fun _ => hs₃.1⟩

section Rules

variable {parent : Bool} {uaddr : Nat} {onFault onMissing : Prop}
  {onFound : Nat → Nat → Str → Prop} {wrong : Nat → Nat → Str → Prop}
  {body : Option Str → Except Stop (Sys × Option Int)}

/-- A call with a proper exit for the end its path comes to. -/
theorem PathSettled.meets (h : PathSettled onFault onMissing onFound
      (pathEnd env s.fs icwd parent uaddr))
    (hfail : PathFails wrong (pathEnd env s.fs icwd parent uaddr))
    (hfault : onFault → Meets (Lacks s.fs) (body none) (Refused s))
    (hmissing : onMissing → ∀ path, pathLeads env s.fs icwd parent path = .missing →
      Meets (Lacks s.fs) (body (some path)) (Refused s))
    (hfound : ∀ path iNo name, pathLeads env s.fs icwd parent path = .found iNo name →
      onFound (startOf s.fs icwd path).1 iNo name → wrong (startOf s.fs icwd path).1 iNo name →
        Meets (Lacks s.fs) (body (some path)) (Refused s)) :
    Meets (Lacks s.fs) (argstrfetch env.user uaddr PATH_MAX >>= body) (Refused s) := by
  unfold pathEnd at h hfail
  cases hfetch : argstrfetch env.user uaddr PATH_MAX with
  | error e =>
    rw [hfetch] at h
    exact False.elim h
  | ok fetched =>
    rw [hfetch] at h hfail
    cases fetched with
    | none => exact hfault h
    | some path =>
      simp only [Except.map, Option.map_some] at h hfail
      cases hlead : pathLeads env s.fs icwd parent path with
      | found iNo name =>
        rw [hlead] at h hfail
        exact hfound path iNo name hlead h hfail
      | missing =>
        rw [hlead] at h
        exact hmissing h path hlead
      | stuck =>
        rw [hlead] at h
        exact False.elim h

end Rules

section Calls

variable {uaddr : Nat}

end Calls

/-! ## All calls -/

/-- One page is mapped, with "g" at its beginning. -/
def smallEnv : Env where
  user :=
    { verify := fun vaddr _ => .ok (vaddr / PGSIZE == 1)
      page := fun no => if no = 1 then some fun k => if k = 0 then 103 else 0 else none }
  sInodesPerGroup := 128
  fresh := none
  roomDot := true
  roomDotdot := true
  roomEntry := true
  truncation := fun _ _ _ => ⟨true, 0, 0⟩
  abspath := fun cwd _ => cwd
  lookupStack := fun _ _ => 0
  linkStack := ⟨fun _ => 0, fun _ => 0, fun _ => 0⟩

/-- A root directory in the first slot, and nothing else in use; every other inode is a file. -/
def rootDisk (d : DInode) (_ iNo : Nat) : DInode :=
  if iNo = 2 then d else ⟨0x81a4, 0, 1, 0⟩

def rootSlots (d : DInode) (ip : Slot) : MInode :=
  if ip = 0 then ⟨d, ⟨false, false⟩, 1, 2, true, 1⟩ else ⟨d, ⟨false, false⟩, 0, 0, false, 0⟩

def rootFs (d : DInode) (data : Nat → Nat → ByteMem.Bytes) : Fs where
  inodes := ⟨rootSlots d, rootDisk d⟩
  iMtx := fun _ => none
  used := fun _ _ => false
  data := data

theorem rootSlots_of_device {d : DInode} {ip : Slot} (h : (rootSlots d ip).iDev ≠ 0) : ip = 0 := by
  by_contra hip
  rw [rootSlots, if_neg hip] at h
  exact h rfl

theorem rootDisk_links {d : DInode} (hd : d.iLinksCount ≠ 0) (dev iNo : Nat) :
    (rootDisk d dev iNo).iLinksCount ≠ 0 := by
  unfold rootDisk
  split
  · exact hd
  · exact Nat.one_ne_zero

theorem rootFs_atHome {d : DInode} (hd : d.iLinksCount ≠ 0) (data : Nat → Nat → ByteMem.Bytes) :
    AtHome env (rootFs d data) 0 := by
  have hlinks : ∀ iNo, (rootDisk d 1 iNo).iLinksCount ≠ 0 := fun iNo => rootDisk_links hd 1 iNo
  have hloaded : ∀ ip, (rootSlots d ip).iDev ≠ 0 →
      (rootSlots d ip).dInodeCtnt = rootDisk d (rootSlots d ip).iDev (rootSlots d ip).iNo := by
    intro ip hdev
    rw [rootSlots_of_device hdev]
    rfl
  refine ⟨⟨⟨?_, ?_, ?_⟩, fun ip hdev _ => hloaded ip hdev, ?_, rfl, .inr (.inl (hlinks 2)), ?_⟩,
    Nat.le_refl 1, Nat.one_ne_zero⟩
  · intro ip jp hdev hsame
    have hdev' : (rootSlots d jp).iDev ≠ 0 := fun hzero => hdev (hsame.1.symm.trans hzero)
    rw [rootSlots_of_device hdev, rootSlots_of_device hdev']
  · intro ip _ hdev _
    exact congrArg DInode.iMode (hloaded ip hdev)
  · intro ip hused hzero
    by_cases hip : ip = 0
    · rw [hip] at hzero
      cases hzero
    · have hidle : (rootSlots d ip).iCount = 0 := by rw [rootSlots, if_neg hip]
      have hused : 1 ≤ (rootSlots d ip).iCount := hused
      omega
  · intro ip
    have hcount : (rootSlots d ip).iCount ≤ 1 := by
      unfold rootSlots
      split <;> simp
    show (rootSlots d ip).iCount + 8 < 65536
    omega
  · intro dev iNo name tmpDe next _ _
    exact .inr (.inl (hlinks next))

theorem rootFs_spare (d : DInode) (data : Nat → Nat → ByteMem.Bytes) : Spare (rootFs d data) := by
  refine ⟨[1, 2, 3], by decide, by decide, ?_⟩
  intro ip hip
  have hne : ip ≠ 0 := by
    rintro rfl
    exact absurd hip (by decide)
  show (rootSlots d ip).iCount = 0
  rw [rootSlots, if_neg hne]

end Uniks.PathCalls
