/-
  Where a path leads, and what walking along it does.

  `leads` reads the answer off the disk.  `Amid p s₀ s own locked` is a point of a call of process
  `p` that began in the quiet state `s₀`, holds the references `own` and the mutex of `locked`, and
  has changed nothing else: the disk is as it was, and so are the records in the slots that were in
  use.  The loop of `namex` keeps it, wherever the path leads (`Amid.namexLoop`); the one thing that
  could break it is an `iput` that frees an inode, hence `SafeDrop`.
-/
import Uniks.PathCalls
import Uniks.InodeNames
import Uniks.Lib.Hoare

namespace Uniks.PathCalls

open Uniks.Inode Uniks.Sysfile Uniks.Hoare Uniks.ByteMem
open Function (update update_idem update_self update_eq_self)

/-! ## Where a path leads -/

/-- The end of a walk: an inode (with the last name, if it is the parent that was asked for), a
    name that is not there, or something to get stuck at: an element looked for in what is no
    directory, or in a directory whose entries lead nowhere. -/
inductive Lead where
  | found (iNo : Nat) (name : Str)
  | missing
  | stuck
  deriving DecidableEq

/-- The inode number a directory on disk has under a name. -/
def diskLookup (s : Fs) (dev iNo : Nat) (name : Str) (tmpDe : Bytes) : Option (Option Nat) :=
  lookup (s.inodes.diskInode dev iNo) (s.data dev iNo) name tmpDe

/-- The walk of `namex` on the disk. -/
def leads (env : Env) (s : Fs) (parent : Bool) (dev : Nat) : Nat → List Str → Str → Lead
  | iNo, [], name => if parent then .missing else .found iNo name
  | iNo, elem :: rest, _ =>
    if isDir (s.inodes.diskInode dev iNo).iMode then
      if parent && rest.isEmpty then .found iNo elem
      else
        match diskLookup s dev iNo elem (env.lookupStack (elem :: rest)) with
        | none => .stuck
        | some none => .missing
        | some (some next) => leads env s parent dev next rest elem
    else .stuck

/-- Device and number of the inode a path starts from. -/
def startOf (s : Fs) (icwd : Slot) (path : Str) : Nat × Nat :=
  if isAbsolute path then (sbDev, EXT2_ROOT_INO)
  else ((s.inodes.mInodes icwd).iDev, (s.inodes.mInodes icwd).iNo)

/-- Where a path leads, and the end of the walk. -/
def pathLeads (env : Env) (s : Fs) (icwd : Slot) (parent : Bool) (path : Str) : Lead :=
  leads env s parent (startOf s icwd path).1 (startOf s icwd path).2 (elements path) []

/-! ## What a call may leave behind -/

/-- The disk is the same. -/
structure SameDisk (s₀ s : Fs) : Prop where
  records : s.inodes.diskInode = s₀.inodes.diskInode
  used : s.used = s₀.used
  data : s.data = s₀.data

/-- Dropping the last reference to the inode changes nothing on disk: somebody else refers to it,
    it has links, or it has been freed before. -/
def SafeDrop (env : Env) (s : Fs) (dev iNo : Nat) : Prop :=
  (∃ jp, 1 ≤ (s.inodes.mInodes jp).iCount ∧ (s.inodes.mInodes jp).iDev = dev ∧
    (s.inodes.mInodes jp).iNo = iNo) ∨
  (s.inodes.diskInode dev iNo).iLinksCount ≠ 0 ∨
  ((s.inodes.diskInode dev iNo).iSize = 0 ∧ s.used dev (ifreeNo env iNo) = false)

/-- A state between two calls: no mutex is held, a slot that has been read has the record on disk,
    the counts have room, and what the directories name is in use, has links or has been freed. -/
structure Quiet (env : Env) (s : Fs) : Prop where
  sound : Sound s.inodes none
  loaded : ∀ ip, (s.inodes.mInodes ip).iDev ≠ 0 → (s.inodes.mInodes ip).iValid = true →
    record s ip = s.inodes.diskInode (s.inodes.mInodes ip).iDev (s.inodes.mInodes ip).iNo
  room : Room s.inodes
  free : s.iMtx = fun _ => none
  root : SafeDrop env s sbDev EXT2_ROOT_INO
  linked : ∀ dev iNo name tmpDe next, isDir (s.inodes.diskInode dev iNo).iMode = true →
    diskLookup s dev iNo name tmpDe = some (some next) → SafeDrop env s dev next

/-- The mutexes, when one is held at most. -/
def holding (p : Pid) : Option Slot → Slot → Option Pid
  | none => fun _ => none
  | some ip => update (fun _ => none) ip (some p)

/-- A point in the middle of a call. -/
structure Amid (p : Pid) (s₀ s : Fs) (own : List Slot) (locked : Option Slot) : Prop where
  within : Within s₀.inodes s.inodes own none
  loaded : ∀ ip, (s.inodes.mInodes ip).iDev ≠ 0 → (s.inodes.mInodes ip).iValid = true →
    record s ip = s.inodes.diskInode (s.inodes.mInodes ip).iDev (s.inodes.mInodes ip).iNo
  kept : ∀ ip, 1 ≤ (s₀.inodes.mInodes ip).iCount → (s₀.inodes.mInodes ip).iValid = true →
    (s.inodes.mInodes ip).iValid = true ∧ record s ip = record s₀ ip
  disk : SameDisk s₀ s
  mutexes : s.iMtx = holding p locked

/-- Three slots nobody refers to: more than a call needs at a time. -/
def Spare (s : Fs) : Prop :=
  ∃ ips : List Slot, ips.Nodup ∧ 2 < ips.length ∧ ∀ ip ∈ ips, (s.inodes.mInodes ip).iCount = 0

/-- The call sleeps because slots are short. -/
def Lacks (s : Fs) (e : Stop) : Prop := e = .waits ∧ ¬ Spare s

variable {p : Pid} {env : Env} {s₀ s : Fs} {own : List Slot} {locked : Option Slot} {ip : Slot}
  {allowed : Stop → Prop}

theorem Quiet.amid (h : Quiet env s) : Amid p s s [] none := by
  refine ⟨.refl h.sound, h.loaded, fun ip _ hvalid => ⟨hvalid, rfl⟩, ⟨rfl, rfl, rfl⟩, h.free⟩

theorem Amid.perm {own' : List Slot} (h : Amid p s₀ s own locked) (hp : own.Perm own') :
    Amid p s₀ s own' locked :=
  ⟨h.within.perm hp, h.loaded, h.kept, h.disk, h.mutexes⟩

/-- The name of a slot. -/
def Named (s : Fs) (ip : Slot) (dev iNo : Nat) : Prop :=
  (s.inodes.mInodes ip).iDev = dev ∧ (s.inodes.mInodes ip).iNo = iNo

/-- A slot the call refers to has a device. -/
theorem Amid.device (h : Amid p s₀ s own locked) (hip : ip ∈ own) :
    (s.inodes.mInodes ip).iDev ≠ 0 := h.within.disk ip hip

/-- With spare slots, there is an idle one as long as the call holds two references at most. -/
theorem Amid.spare (h : Amid p s₀ s own locked) (hown : own.length ≤ 2) (hspare : Spare s₀) :
    ∃ jp, firstIdle s.inodes = some jp := by
  cases hidle : firstIdle s.inodes with
  | some jp => exact ⟨jp, rfl⟩
  | none =>
    obtain ⟨ips, hnodup, hlong, hzero⟩ := hspare
    -- every spare slot would be one of those the call refers to
    have hsub : ips ⊆ own := by
      intro jp hjp
      have hused := firstIdle_none hidle jp
      rw [h.within.count jp, hzero jp hjp, Nat.zero_add] at hused
      exact List.count_pos_iff.mp (Nat.pos_of_ne_zero hused)
    have hle := (List.subperm_of_subset hnodup hsub).length_le
    omega

/-- One slot is stored, and the mutexes change. -/
theorem Amid.store (h : Amid p s₀ s own locked) {m : MInode} {own' : List Slot}
    (locked' : Option Slot) (hwithin : Within s₀.inodes (s.inodes.set ip m) own' none)
    (hloaded : m.iDev ≠ 0 → m.iValid = true →
      m.dInodeCtnt = s.inodes.diskInode m.iDev m.iNo)
    (hkept : 1 ≤ (s₀.inodes.mInodes ip).iCount → (s₀.inodes.mInodes ip).iValid = true →
      m.iValid = true ∧ m.dInodeCtnt = record s₀ ip) :
    Amid p s₀ { s with inodes := s.inodes.set ip m, iMtx := holding p locked' } own' locked' := by
  refine ⟨hwithin, fun jp => ?_, fun jp => ?_, ⟨h.disk.records, h.disk.used, h.disk.data⟩, rfl⟩
  · show _ → _ → ((s.inodes.set ip m).mInodes jp).dInodeCtnt = _
    by_cases hjp : jp = ip
    · rw [hjp, InodeTable.set_self]
      exact hloaded
    · rw [InodeTable.set_of_ne _ m hjp]
      exact h.loaded jp
  · show _ → _ → _ ∧ ((s.inodes.set ip m).mInodes jp).dInodeCtnt = _
    by_cases hjp : jp = ip
    · rw [hjp, InodeTable.set_self]
      exact hkept
    · rw [InodeTable.set_of_ne _ m hjp]
      exact h.kept jp

/-! ## Single steps -/

/-- The slot is stored with another count. -/
theorem Amid.recount (h : Amid p s₀ s own locked) {n : Nat} {own' : List Slot}
    (hwithin : Within s₀.inodes (s.inodes.set ip { s.inodes.mInodes ip with iCount := n }) own'
      none) :
    Amid p s₀ { s with inodes := s.inodes.set ip { s.inodes.mInodes ip with iCount := n } } own'
      locked := by
  have hstore := h.store locked hwithin (h.loaded ip) (h.kept ip)
  rw [← h.mutexes] at hstore
  exact hstore

/-- A slot in use keeps its name when another one is handed out. -/
theorem iget_names {t t' : InodeTable} {dev iNo : Nat} {clean : Bool} {jp : Slot}
    (hget : Inode.iget t dev iNo clean = some (t', jp)) (hused : 1 ≤ (t.mInodes ip).iCount) :
    SameName (t.mInodes ip) (t'.mInodes ip) := by
  unfold Inode.iget at hget
  split at hget
  · rename_i kp hmatch
    rcases Prod.mk.inj (Option.some.inj hget) with ⟨rfl, rfl⟩
    by_cases hip : ip = kp
    · rw [hip, InodeTable.set_self]
      exact ⟨rfl, rfl⟩
    · rw [InodeTable.set_of_ne _ _ hip]
      exact .refl _
  · split at hget
    · rename_i kp hidle
      rcases Prod.mk.inj (Option.some.inj hget) with ⟨rfl, rfl⟩
      have hzero := firstIdle_some hidle
      have hip : ip ≠ kp := by
        rintro rfl
        omega
      rw [InodeTable.set_of_ne _ _ hip]
      exact .refl _
    · cases hget

theorem Amid.iget (h : Amid p s₀ s own locked) (hroom : Room s₀.inodes) (hown : own.length ≤ 2)
    {dev iNo : Nat} (hdev : dev ≠ 0) :
    Meets (Lacks s₀) (PathCalls.iget s dev iNo false) fun r =>
      Amid p s₀ r.1 (r.2 :: own) locked ∧ Named r.1 r.2 dev iNo ∧
        ∀ jp ∈ own, SameName (s.inodes.mInodes jp) (r.1.inodes.mInodes jp) := by
  unfold PathCalls.iget
  split
  · rename_i t jp hget
    rcases h.within.iget hroom (by omega) hdev rfl hget with ⟨hwithin, hname⟩
    refine .ok ⟨?_, hname, fun kp hkp => iget_names hget (h.within.in_use hkp)⟩
    unfold Inode.iget at hget
    split at hget
    · cases hget
      exact h.recount hwithin
    · split at hget
      · rename_i kp hidle
        rcases Prod.mk.inj (Option.some.inj hget) with ⟨rfl, rfl⟩
        -- the slot taken was idle, so it is none of those in use before
        have hzero := h.within.count kp
        rw [firstIdle_some hidle] at hzero
        have hstore := h.store locked hwithin (fun _ h => by cases h)
          (fun hused => absurd hused (by omega))
        rw [← h.mutexes] at hstore
        exact hstore
      · cases hget
  · rename_i hget
    refine .error ⟨rfl, fun hspare => ?_⟩
    obtain ⟨jp, hidle⟩ := h.spare hown hspare
    unfold Inode.iget at hget
    split at hget
    · cases hget
    · rw [hidle] at hget
      cases hget

theorem Amid.idup (h : Amid p s₀ s own none) (hroom : Room s₀.inodes) (hown : own.length ≤ 2)
    (hused : 1 ≤ (s.inodes.mInodes ip).iCount) (hdev : (s.inodes.mInodes ip).iDev ≠ 0) :
    Meets allowed (PathCalls.idup s ip) fun s' =>
      Amid p s₀ s' (ip :: own) none ∧
        Named s' ip (s.inodes.mInodes ip).iDev (s.inodes.mInodes ip).iNo := by
  have hdup : Inode.idup s.inodes ip = some (s.inodes.set ip
      { s.inodes.mInodes ip with iCount := u16 ((s.inodes.mInodes ip).iCount + 1) }) := if_pos hused
  have hwithin := h.within.idup hroom (by omega) hdev hdup
  unfold PathCalls.idup
  rw [hdup]
  refine .ok ⟨h.recount hwithin, ?_⟩
  show ((s.inodes.set ip _).mInodes ip).iDev = _ ∧ ((s.inodes.set ip _).mInodes ip).iNo = _
  rw [InodeTable.set_self]
  exact ⟨rfl, rfl⟩

/-- Locking gives the record on disk. -/
theorem Amid.ilock (h : Amid p s₀ s own none) (hip : ip ∈ own) {dev iNo : Nat}
    (hname : Named s ip dev iNo) :
    Meets allowed (PathCalls.ilock p s ip) fun s' =>
      Amid p s₀ s' own (some ip) ∧ Named s' ip dev iNo ∧
        record s' ip = s₀.inodes.diskInode dev iNo := by
  have hused := h.within.in_use hip
  have hdev := h.device hip
  have hfree : ¬ (s.iMtx ip).isSome := by
    rw [h.mutexes]
    exact nofun
  have hlocked : update s.iMtx ip (some p) = holding p (some ip) := by rw [h.mutexes]; rfl
  rcases hname with ⟨rfl, rfl⟩
  unfold PathCalls.ilock
  by_cases hvalid : (s.inodes.mInodes ip).iValid = true
  · have hlock : Inode.ilock s.inodes ip = some s.inodes := by
      rw [Inode.ilock, if_pos hused, if_pos hvalid]
    rw [hlock]
    dsimp only
    rw [if_neg hfree, hlocked]
    refine .ok ⟨⟨h.within, h.loaded, h.kept, ⟨h.disk.records, h.disk.used, h.disk.data⟩, rfl⟩,
      ⟨rfl, rfl⟩, ?_⟩
    rw [← h.disk.records]
    exact h.loaded ip hdev hvalid
  · have hlock : Inode.ilock s.inodes ip = some (s.inodes.set ip { s.inodes.mInodes ip with
        dInodeCtnt := s.inodes.diskInode (s.inodes.mInodes ip).iDev (s.inodes.mInodes ip).iNo,
        iValid := true }) := by
      rw [Inode.ilock, if_pos hused, if_neg hvalid]
    have hwithin := (h.within.ilock hdev hlock).1
    rw [hlock]
    dsimp only
    rw [if_neg hfree, hlocked]
    refine .ok ⟨h.store (some ip) hwithin (fun _ _ => rfl) ?_, ?_, ?_⟩
    · intro hused₀ hvalid₀
      exact absurd (h.kept ip hused₀ hvalid₀).1 hvalid
    · show ((s.inodes.set ip _).mInodes ip).iDev = _ ∧ ((s.inodes.set ip _).mInodes ip).iNo = _
      rw [InodeTable.set_self]
      exact ⟨rfl, rfl⟩
    · show ((s.inodes.set ip _).mInodes ip).dInodeCtnt = _
      rw [InodeTable.set_self, ← h.disk.records]

theorem update_holding (p : Pid) (ip : Slot) :
    update (holding p (some ip)) ip none = holding p none := by
  have hone : holding p (some ip) = update (holding p none) ip (some p) := rfl
  rw [hone, update_idem]
  have hself : update (holding p none) ip (holding p none ip) = holding p none :=
    update_eq_self ip _
  exact hself

theorem Amid.iunlock (h : Amid p s₀ s own (some ip)) (hip : ip ∈ own) :
    Meets allowed (PathCalls.iunlock p s ip) fun s' =>
      Amid p s₀ s' own none ∧ s'.inodes = s.inodes := by
  have hunlock : Inode.iunlock s.inodes ip = some s.inodes := if_pos (h.within.in_use hip)
  have hmine : s.iMtx ip = some p := by
    rw [h.mutexes]
    have hself : update (holding p none) ip (some p) ip = some p := update_self ..
    exact hself
  have hfree : update s.iMtx ip none = holding p none := by
    rw [h.mutexes]
    exact update_holding p ip
  unfold PathCalls.iunlock
  rw [hunlock]
  dsimp only
  rw [if_pos hmine, hfree]
  exact .ok ⟨⟨h.within, h.loaded, h.kept, ⟨h.disk.records, h.disk.used, h.disk.data⟩, rfl⟩, rfl⟩

theorem setFile_self {α : Type} {f : Nat → Nat → α} {dev iNo : Nat} {v : α} (h : f dev iNo = v) :
    setFile f dev iNo v = f := by
  funext d n
  unfold setFile
  split
  · rename_i heq
    rw [heq.1, heq.2, h]
  · rfl

/-- There is nothing to take away from an empty file. -/
theorem itruncateSlot_zero {t : InodeTable} {blocks grown : Nat}
    (hsize : (t.mInodes ip).dInodeCtnt.iSize = 0) :
    itruncateSlot t ip 0 blocks grown = some (t, 0) := by
  have hkeep : Inode.itruncate (t.mInodes ip).dInodeCtnt 0 blocks grown
      = ((t.mInodes ip).dInodeCtnt, 0) := by
    rw [Inode.itruncate, if_neg (by omega), if_neg (by omega)]
  unfold itruncateSlot
  dsimp only
  rw [hkeep]
  dsimp only
  rw [if_pos hsize.symm]

/-- An inode that is freed once more, with nothing left to be freed. -/
theorem iput_of_freed (hone : (s.inodes.mInodes ip).iCount = 1 ∧ (s.inodes.mInodes ip).iValid ∧
      (s.inodes.mInodes ip).dInodeCtnt.iLinksCount = 0) (hmtx : s.iMtx = holding p none)
    (hsize : (s.inodes.mInodes ip).dInodeCtnt.iSize = 0)
    (hused : s.used (s.inodes.mInodes ip).iDev (ifreeNo env (s.inodes.mInodes ip).iNo) = false) :
    PathCalls.iput p env s ip
      = .ok { s with inodes := Inode.iput s.inodes ip, iMtx := holding p none } := by
  have hfree : ¬ (s.iMtx ip).isSome := by
    rw [hmtx]
    exact nofun
  have hifree : ifree env { s with iMtx := update s.iMtx ip (some p) }
      (s.inodes.mInodes ip).iDev (s.inodes.mInodes ip).iNo
        = { s with iMtx := update s.iMtx ip (some p) } := by
    rw [ifree]
    dsimp only
    rw [setFile_self hused]
  have htrunc : PathCalls.itruncate p env { s with iMtx := update s.iMtx ip (some p) } ip 0
      = .ok ({ s with iMtx := update s.iMtx ip (some p) }, 0) := by
    have hmine : ¬ update s.iMtx ip (some p) ip ≠ some p :=
      not_not_intro (update_self ..)
    have hkeep : ¬ 0 < (s.inodes.mInodes ip).dInodeCtnt.iSize := by omega
    unfold PathCalls.itruncate
    dsimp only
    rw [if_neg hmine, if_neg (fun hlt => hkeep hlt.1), itruncateSlot_zero hsize]
    dsimp only
    rw [Nat.zero_sub, splice_zero, setFile_self rfl]
  unfold PathCalls.iput
  dsimp only
  rw [if_pos hone, if_neg hfree, hifree, htrunc, hmtx]
  show Except.ok _ = Except.ok _
  rw [Except.ok.injEq]
  have hmtx' : update (update (holding p none) ip (some p)) ip none
      = holding p none := update_holding p ip
  rw [hmtx']

theorem iput_names (t : InodeTable) (ip jp : Slot) :
    SameName (t.mInodes jp) ((Inode.iput t ip).mInodes jp) := by
  rcases iputFree_fields (t.mInodes ip) with ⟨hdev, hno, -, -⟩
  rw [Inode.iput]
  by_cases hjp : jp = ip
  · rw [hjp, InodeTable.set_self]
    exact ⟨hdev, hno⟩
  · rw [InodeTable.set_of_ne _ _ hjp]
    exact .refl _

/-- A reference is dropped without a trace on disk. -/
theorem Amid.iput (h : Amid p s₀ s (ip :: own) none) (hroom : Room s₀.inodes)
    (hown : own.length ≤ 4) {dev iNo : Nat} (hname : Named s ip dev iNo)
    (hsafe : SafeDrop env s₀ dev iNo) :
    Meets allowed (PathCalls.iput p env s ip) fun s' =>
      Amid p s₀ s' own none ∧ ∀ jp, SameName (s.inodes.mInodes jp) (s'.inodes.mInodes jp) := by
  have hwithin := h.within.iput hroom hown
  have hdev : (s.inodes.mInodes ip).iDev ≠ 0 := h.device List.mem_cons_self
  rcases hname with ⟨rfl, rfl⟩
  by_cases hone : (s.inodes.mInodes ip).iCount = 1 ∧ (s.inodes.mInodes ip).iValid ∧
      (s.inodes.mInodes ip).dInodeCtnt.iLinksCount = 0
  · -- the only reference is that of the call
    have hcount := h.within.count ip
    rw [hone.1, List.count_cons_self] at hcount
    have hrecord := h.loaded ip hdev hone.2.1
    rw [h.disk.records] at hrecord
    rcases hsafe with ⟨jp, hused, hjdev, hjno⟩ | hlinks | ⟨hsize, hused⟩
    · have hnames := h.within.names jp hused
      have hjp := h.within.sound.unique ip jp hdev
        ⟨hnames.1.trans hjdev, hnames.2.trans hjno⟩
      rw [← hjp] at hused
      omega
    · rw [← hrecord] at hlinks
      exact absurd hone.2.2 hlinks
    · rw [← hrecord] at hsize
      rw [← h.disk.used] at hused
      rw [iput_of_freed hone h.mutexes hsize hused]
      refine .ok ⟨h.store none hwithin ?_ ?_, iput_names s.inodes ip⟩
      · intro _ hvalid
        have hvalid : (iputFree (s.inodes.mInodes ip)).iValid = true := hvalid
        rw [iputFree, if_pos hone] at hvalid
        cases hvalid
      · intro hused₀
        omega
  · have hput : Inode.iput s.inodes ip = s.inodes.set ip { s.inodes.mInodes ip with
        iCount := u16 ((s.inodes.mInodes ip).iCount + 65535) } := by
      rw [Inode.iput, iputFree, if_neg hone]
    unfold PathCalls.iput
    dsimp only
    rw [if_neg hone, hput]
    have hnames := iput_names s.inodes ip
    rw [hput] at hwithin hnames
    exact .ok ⟨h.recount hwithin, hnames⟩

theorem Amid.iunlockput (h : Amid p s₀ s (ip :: own) (some ip)) (hroom : Room s₀.inodes)
    (hown : own.length ≤ 4) {dev iNo : Nat} (hname : Named s ip dev iNo)
    (hsafe : SafeDrop env s₀ dev iNo) :
    Meets allowed (PathCalls.iunlockput p env s ip) fun s' =>
      Amid p s₀ s' own none ∧ ∀ jp, SameName (s.inodes.mInodes jp) (s'.inodes.mInodes jp) := by
  refine (h.iunlock List.mem_cons_self).bind fun s' hs' => ?_
  rcases hs' with ⟨h', heq⟩
  rw [Named, ← heq] at hname
  rw [← heq]
  exact h'.iput hroom hown hname hsafe

/-! ## Walking -/

/-- The entry a directory has under a name, and a reference to what it names. -/
theorem Amid.dirlookup (h : Amid p s₀ s own locked) (hroom : Room s₀.inodes) (hown : own.length ≤ 2)
    (hip : ip ∈ own) {dev iNo : Nat} (hname : Named s ip dev iNo)
    (hrecord : record s ip = s₀.inodes.diskInode dev iNo) {name : Str}
    (hshort : name.length ≤ EXT2_NAME_LEN)
    (hdir : isDir (s₀.inodes.diskInode dev iNo).iMode = true) (tmpDe : Bytes) :
    Meets (fun e => Lacks s₀ e ∨ diskLookup s₀ dev iNo name tmpDe = none)
      (PathCalls.dirlookup s ip name tmpDe) fun r =>
        match diskLookup s₀ dev iNo name tmpDe with
        | none => False
        | some none => r.2 = none ∧ Amid p s₀ r.1 own locked ∧ Named r.1 ip dev iNo
        | some (some next) => ∃ jp, r.2 = some jp ∧ Amid p s₀ r.1 (jp :: own) locked ∧
            Named r.1 ip dev iNo ∧ Named r.1 jp dev next := by
  have hdev := h.device hip
  rcases hname with ⟨rfl, rfl⟩
  have hrecord : (s.inodes.mInodes ip).dInodeCtnt = _ := hrecord
  unfold PathCalls.dirlookup
  dsimp only
  rw [hrecord, if_pos ⟨hshort, hdir⟩, h.disk.data]
  show Meets _ (match diskLookup s₀ _ _ name tmpDe with
    | none => _
    | some none => _
    | some (some iNo) => _) _
  cases diskLookup s₀ (s.inodes.mInodes ip).iDev (s.inodes.mInodes ip).iNo name tmpDe with
  | none => exact .error (.inr rfl)
  | some found =>
    cases found with
    | none => exact .ok ⟨rfl, h, rfl, rfl⟩
    | some next =>
      refine ((h.iget hroom hown hdev).weaken fun e he => .inl he).bind fun r hr => .pure ?_
      exact ⟨r.2, rfl, hr.1, hr.2.2 ip hip, hr.2.1⟩

/-- What the walk is at in the end. -/
def Arrived (p : Pid) (s₀ : Fs) (own : List Slot) (dev : Nat) (lead : Lead)
    (r : Fs × Option (Slot × Str)) : Prop :=
  match lead with
  | .found iNo name =>
    ∃ jp, r.2 = some (jp, name) ∧ Amid p s₀ r.1 (jp :: own) none ∧ Named r.1 jp dev iNo
  | .missing => r.2 = none ∧ Amid p s₀ r.1 own none
  | .stuck => False

/-- The walk fails an assertion, or goes on for ever, only where it gets stuck. -/
def Strays (s : Fs) (lead : Lead) (e : Stop) : Prop := Lacks s e ∨ lead = .stuck

/-- The loop of `namex` gets to where the elements lead, and changes nothing on its way. -/
theorem Amid.namexLoop (hq : Quiet env s₀) {parent : Bool} {dev iNo : Nat} {elems : List Str}
    {name : Str} (h : Amid p s₀ s (ip :: own) none) (hown : own.length ≤ 1)
    (hshort : ∀ elem ∈ elems, elem.length ≤ EXT2_NAME_LEN) (hname : Named s ip dev iNo)
    (hsafe : SafeDrop env s₀ dev iNo) :
    Meets (Strays s₀ (leads env s₀ parent dev iNo elems name))
      (PathCalls.namexLoop p env parent s ip elems name)
      (Arrived p s₀ own dev (leads env s₀ parent dev iNo elems name)) := by
  induction elems generalizing s ip iNo name with
  | nil =>
    unfold PathCalls.namexLoop leads
    cases parent with
    | true =>
      exact (h.iput hq.room (by omega) hname hsafe).bind fun s' hs' => .pure ⟨rfl, hs'.1⟩
    | false => exact .ok ⟨ip, rfl, h, hname⟩
  | cons elem rest ih =>
    have helem := hshort elem List.mem_cons_self
    unfold PathCalls.namexLoop leads
    refine (h.ilock List.mem_cons_self hname).bind fun s₁ hs₁ => ?_
    rcases hs₁ with ⟨h₁, hname₁, hrecord⟩
    rw [hrecord]
    by_cases hdir : isDir (s₀.inodes.diskInode dev iNo).iMode = true
    · rw [if_pos hdir, if_pos hdir]
      by_cases hlast : (parent && rest.isEmpty) = true
      · rw [if_pos hlast, if_pos hlast]
        refine (h₁.iunlock List.mem_cons_self).bind fun s₂ hs₂ => .pure ?_
        refine ⟨ip, rfl, hs₂.1, ?_⟩
        rw [Named, hs₂.2]
        exact hname₁
      · rw [if_neg hlast, if_neg hlast]
        have hlen : (ip :: own).length ≤ 2 := by
          rw [List.length_cons]
          omega
        have hlook := h₁.dirlookup hq.room hlen List.mem_cons_self hname₁ hrecord helem hdir
          (env.lookupStack (elem :: rest))
        cases hnext : diskLookup s₀ dev iNo elem (env.lookupStack (elem :: rest)) with
        | none =>
          rw [hnext] at hlook
          exact (hlook.weaken fun e _ => .inr rfl).bind fun _ hfalse => hfalse.elim
        | some found =>
          rw [hnext] at hlook
          refine (hlook.weaken fun e he => .inl (he.resolve_right nofun)).bind fun r hr => ?_
          cases found with
          | none =>
            rcases hr with ⟨hnone, h₂, hname₂⟩
            refine (h₂.iunlockput hq.room (by omega) hname₂ hsafe).bind fun s₃ hs₃ => ?_
            rw [hnone]
            exact .pure ⟨rfl, hs₃.1⟩
          | some next =>
            rcases hr with ⟨jp, hsome, h₂, hname₂, hnamed⟩
            have h₂' := h₂.perm (List.Perm.swap ip jp own)
            have hlen' : (jp :: own).length ≤ 4 := by
              rw [List.length_cons]
              omega
            refine (h₂'.iunlockput hq.room hlen' hname₂ hsafe).bind fun s₃ hs₃ => ?_
            rw [hsome]
            have hnamed' : Named s₃ jp dev next :=
              ⟨(hs₃.2 jp).1.trans hnamed.1, (hs₃.2 jp).2.trans hnamed.2⟩
            exact ih hs₃.1 (fun e he => hshort e (List.mem_cons_of_mem elem he)) hnamed'
              (hq.linked dev iNo elem _ next hdir hnext)
    · rw [if_neg hdir, if_neg hdir]
      exact .error (.inr rfl)

theorem skipelem_short {path elem rest : Str} (h : skipelem path = some (elem, rest)) :
    elem.length ≤ EXT2_NAME_LEN := by
  unfold skipelem at h
  split at h
  · cases h
  · cases h
    exact List.length_take_le _ _

theorem elements_short {path elem : Str} (h : elem ∈ elements path) :
    elem.length ≤ EXT2_NAME_LEN := by
  induction path using elements.induct with
  | case1 path hskip =>
    rw [elements] at h
    split at h
    · cases h
    · rename_i hskip'
      rw [hskip] at hskip'
      cases hskip'
  | case2 path first rest hskip ih =>
    rw [elements] at h
    split at h
    · cases h
    · rename_i hskip'
      rw [hskip] at hskip'
      cases hskip'
      rcases List.mem_cons.mp h with rfl | h
      · exact skipelem_short hskip
      · exact ih h

/-- A walk ends at an inode that may be dropped. -/
theorem leads_safe (hq : Quiet env s) {parent : Bool} {dev iNo target : Nat} {elems : List Str}
    {name last : Str} (hsafe : SafeDrop env s dev iNo)
    (h : leads env s parent dev iNo elems name = .found target last) : SafeDrop env s dev target := by
  induction elems generalizing iNo name with
  | nil =>
    unfold leads at h
    split at h
    · cases h
    · injection h with hno _
      exact hno ▸ hsafe
  | cons elem rest ih =>
    unfold leads at h
    split at h
    · rename_i hdir
      split at h
      · injection h with hno _
        exact hno ▸ hsafe
      · split at h
        · cases h
        · cases h
        · rename_i next hnext
          exact ih (hq.linked dev iNo elem _ next hdir hnext) h
    · cases h

/-- The name that the walk to a parent leaves over fits into a directory, and what it was found
    under is a directory. -/
theorem leads_parent {dev iNo target : Nat} {elems : List Str} {name last : Str}
    (hshort : ∀ elem ∈ elems, elem.length ≤ EXT2_NAME_LEN)
    (h : leads env s true dev iNo elems name = .found target last) :
    last.length ≤ EXT2_NAME_LEN ∧ isDir (s.inodes.diskInode dev target).iMode = true := by
  induction elems generalizing iNo name with
  | nil => cases h
  | cons elem rest ih =>
    unfold leads at h
    split at h
    · rename_i hdir
      split at h
      · injection h with hno hlast
        rw [← hno, ← hlast]
        exact ⟨hshort elem List.mem_cons_self, hdir⟩
      · split at h
        · cases h
        · cases h
        · exact ih (fun e he => hshort e (List.mem_cons_of_mem elem he)) h
    · cases h

/-- A process has a working directory. -/
structure AtHome (env : Env) (s : Fs) (icwd : Slot) : Prop extends Quiet env s where
  cwdUsed : 1 ≤ (s.inodes.mInodes icwd).iCount
  cwdDev : (s.inodes.mInodes icwd).iDev ≠ 0

variable {icwd : Slot} {path : Str}

/-- The inode a path starts from may be dropped. -/
theorem AtHome.startOf_safe (h : AtHome env s icwd) (path : Str) :
    SafeDrop env s (startOf s icwd path).1 (startOf s icwd path).2 := by
  unfold startOf
  split
  · exact h.root
  · exact .inl ⟨icwd, h.cwdUsed, rfl, rfl⟩

theorem AtHome.namex (h : AtHome env s icwd) (p : Pid) (path : Str) (parent : Bool) :
    Meets (Strays s (pathLeads env s icwd parent path)) (PathCalls.namex p env s icwd path parent)
      (Arrived p s [] (startOf s icwd path).1 (pathLeads env s icwd parent path)) := by
  have hsafe := h.startOf_safe path
  have hbegin : Amid p s s [] none := h.toQuiet.amid
  have hnone : ([] : List Slot).length ≤ 1 := Nat.zero_le 1
  have hdev : sbDev ≠ 0 := Nat.one_ne_zero
  unfold PathCalls.namex pathLeads
  unfold startOf at hsafe ⊢
  by_cases habs : isAbsolute path = true
  · rw [if_pos habs] at hsafe
    rw [if_pos habs, if_pos habs]
    refine ((hbegin.iget h.room (Nat.zero_le 2) hdev).weaken fun e he => .inl he).bind
      fun r hr => ?_
    exact hr.1.namexLoop h.toQuiet hnone (fun elem => elements_short) hr.2.1 hsafe
  · rw [if_neg habs] at hsafe
    rw [if_neg habs, if_neg habs]
    refine (hbegin.idup h.room (Nat.zero_le 2) h.cwdUsed h.cwdDev).bind fun s₁ hs₁ => ?_
    exact hs₁.1.namexLoop h.toQuiet hnone (fun elem => elements_short) hs₁.2 hsafe

end Uniks.PathCalls
