/-
  Which file a slot of the inode table stands for.

  A slot somebody refers to keeps its device and number: `iget` and `pipealloc` rename only slots
  that are idle.  No two slots carry the name of one file, and the type recorded in a slot that has
  been read is the one on disk (`Sound`).  A slot that has not been read records what its last user
  left there.

  A call takes and drops references on the way.  `Within t₀ t own hole` is a point in the middle of
  a call that began at `t₀` and now holds the references `own`; `hole` is the slot of a new inode
  whose record has not been written yet.
-/
import Uniks.InodeRefs

namespace Uniks.Inode

open Option (some bind_eq_some_iff)

/-- Device and number, under which the disk has the record. -/
def SameName (m m' : MInode) : Prop := m'.iDev = m.iDev ∧ m'.iNo = m.iNo

theorem SameName.refl (m : MInode) : SameName m m := ⟨rfl, rfl⟩

theorem SameName.trans {m m' m'' : MInode} (h : SameName m m') (h' : SameName m' m'') :
    SameName m m'' :=
  ⟨h'.1.trans h.1, h'.2.trans h.2⟩

/-- What a table keeps.  The device of a pipe is 0. -/
structure Sound (t : InodeTable) (hole : Option Slot) : Prop where
  unique : ∀ ip jp, (t.mInodes ip).iDev ≠ 0 → SameName (t.mInodes ip) (t.mInodes jp) → ip = jp
  loaded : ∀ ip, some ip ≠ hole → (t.mInodes ip).iDev ≠ 0 → (t.mInodes ip).iValid = true →
    (t.mInodes ip).dInodeCtnt.iMode
      = (t.diskInode (t.mInodes ip).iDev (t.mInodes ip).iNo).iMode
  pipes : ∀ ip, 1 ≤ (t.mInodes ip).iCount → (t.mInodes ip).iDev = 0 →
    isFifo (t.mInodes ip).dInodeCtnt.iMode = true

/-- A point in the middle of a call. -/
structure Within (t₀ t : InodeTable) (own : List Slot) (hole : Option Slot) : Prop where
  count : ∀ ip, (t.mInodes ip).iCount = (t₀.mInodes ip).iCount + own.count ip
  names : ∀ ip, 1 ≤ (t₀.mInodes ip).iCount → SameName (t₀.mInodes ip) (t.mInodes ip)
  disk : ∀ ip ∈ own, (t.mInodes ip).iDev ≠ 0
  sound : Sound t hole

/-- The counts leave room for the few references a call takes. -/
def Room (t : InodeTable) : Prop := ∀ ip, (t.mInodes ip).iCount + 8 < 65536

variable {t₀ t t' : InodeTable} {own own' : List Slot} {hole : Option Slot} {ip : Slot}

theorem Within.refl (h : Sound t none) : Within t t [] none := by
  refine ⟨fun ip => ?_, fun ip _ => .refl _, nofun, h⟩
  rw [List.count_nil, Nat.add_zero]

theorem Within.perm (h : Within t₀ t own hole) (hp : own.Perm own') : Within t₀ t own' hole := by
  refine ⟨fun ip => ?_, h.names, fun ip hip => h.disk ip (hp.mem_iff.mpr hip), h.sound⟩
  rw [h.count ip, hp.count_eq]

/-- A reference held by the call keeps the slot in use. -/
theorem Within.in_use (h : Within t₀ t own hole) (hip : ip ∈ own) : 1 ≤ (t.mInodes ip).iCount := by
  rw [h.count ip]
  have hpos := List.count_pos_iff.mpr hip
  omega

/-! ## Storing one slot -/

/-- A slot that is stored with its name and its type is as sound as before. -/
theorem Sound.store (h : Sound t hole) {m : MInode} (hname : SameName (t.mInodes ip) m)
    (hmode : m.dInodeCtnt.iMode = (t.mInodes ip).dInodeCtnt.iMode)
    (hvalid : m.iValid = true → (t.mInodes ip).iValid = true)
    (hcount : 1 ≤ m.iCount → 1 ≤ (t.mInodes ip).iCount) :
    Sound (t.set ip m) hole ∧ ∀ jp, SameName (t.mInodes jp) ((t.set ip m).mInodes jp) := by
  have hnamed : ∀ jp, SameName (t.mInodes jp) ((t.set ip m).mInodes jp) := by
    intro jp
    by_cases hjp : jp = ip
    · rw [hjp, InodeTable.set_self]
      exact hname
    · rw [InodeTable.set_of_ne t m hjp]
      exact .refl _
  refine ⟨⟨?_, ?_, ?_⟩, hnamed⟩
  · intro jp kp hdev hsame
    have hj := hnamed jp
    have hk := hnamed kp
    rw [hj.1] at hdev
    apply h.unique jp kp hdev
    exact ⟨hk.1.symm.trans (hsame.1.trans hj.1), hk.2.symm.trans (hsame.2.trans hj.2)⟩
  · intro jp hjhole hdev hv
    by_cases hjp : jp = ip
    · subst hjp
      rw [InodeTable.set_self] at hdev hv ⊢
      rw [hname.1] at hdev
      rw [hmode, hname.1, hname.2]
      exact h.loaded jp hjhole hdev (hvalid hv)
    · rw [InodeTable.set_of_ne t m hjp] at hdev hv ⊢
      exact h.loaded jp hjhole hdev hv
  · intro jp hused hzero
    by_cases hjp : jp = ip
    · subst hjp
      rw [InodeTable.set_self] at hused hzero ⊢
      rw [hname.1] at hzero
      rw [hmode]
      exact h.pipes jp (hcount hused) hzero
    · rw [InodeTable.set_of_ne t m hjp] at hused hzero ⊢
      exact h.pipes jp hused hzero

/-- One slot is stored under its own name, with the references the call holds now. -/
theorem Within.store (h : Within t₀ t own hole) {m : MInode} {hole' : Option Slot}
    (hname : SameName (t.mInodes ip) m)
    (hcount : m.iCount = (t₀.mInodes ip).iCount + own'.count ip)
    (hothers : ∀ jp, jp ≠ ip → own'.count jp = own.count jp)
    (hdisk : ip ∈ own' → m.iDev ≠ 0)
    (hloaded : some ip ≠ hole' → m.iDev ≠ 0 → m.iValid = true →
      m.dInodeCtnt.iMode = (t.diskInode m.iDev m.iNo).iMode)
    (hhole : ∀ jp, jp ≠ ip → some jp ≠ hole' → some jp ≠ hole)
    (hpipe : 1 ≤ m.iCount → m.iDev = 0 → isFifo m.dInodeCtnt.iMode = true) :
    Within t₀ (t.set ip m) own' hole' := by
  have hnamed : ∀ jp, SameName (t.mInodes jp) ((t.set ip m).mInodes jp) := by
    intro jp
    by_cases hjp : jp = ip
    · rw [hjp, InodeTable.set_self]
      exact hname
    · rw [InodeTable.set_of_ne t m hjp]
      exact .refl _
  refine ⟨?_, ?_, ?_, ?_, ?_, ?_⟩
  · intro jp
    by_cases hjp : jp = ip
    · rw [hjp, InodeTable.set_self, hcount]
    · rw [InodeTable.set_of_ne t m hjp, h.count jp, hothers jp hjp]
  · intro jp hjp
    exact (h.names jp hjp).trans (hnamed jp)
  · intro jp hmem
    by_cases hjp : jp = ip
    · rw [hjp, InodeTable.set_self]
      rw [hjp] at hmem
      exact hdisk hmem
    · rw [InodeTable.set_of_ne t m hjp]
      apply h.disk jp
      have hpos := List.count_pos_iff.mpr hmem
      rw [hothers jp hjp] at hpos
      exact List.count_pos_iff.mp hpos
  · intro jp kp hdev hsame
    have hj := hnamed jp
    have hk := hnamed kp
    rw [hj.1] at hdev
    apply h.sound.unique jp kp hdev
    exact ⟨hk.1.symm.trans (hsame.1.trans hj.1), hk.2.symm.trans (hsame.2.trans hj.2)⟩
  · intro jp hjhole
    by_cases hjp : jp = ip
    · rw [hjp, InodeTable.set_self]
      rw [hjp] at hjhole
      exact hloaded hjhole
    · rw [InodeTable.set_of_ne t m hjp]
      exact h.sound.loaded jp (hhole jp hjp hjhole)
  · intro jp
    by_cases hjp : jp = ip
    · rw [hjp, InodeTable.set_self]
      exact hpipe
    · rw [InodeTable.set_of_ne t m hjp]
      exact h.sound.pipes jp

/-! ## References -/

/-- An idle slot takes the name of a file that no slot has. -/
theorem Within.rename (h : Within t₀ t own hole) {dev iNo : Nat} {m : MInode} {hole' : Option Slot}
    (hidle : (t.mInodes ip).iCount = 0) (hdev : dev ≠ 0)
    (hnew : ∀ jp, (t.mInodes jp).iDev = dev → (t.mInodes jp).iNo ≠ iNo)
    (hmdev : m.iDev = dev) (hmno : m.iNo = iNo) (hcount : m.iCount = 1)
    (hloaded : m.iValid = true → hole' = some ip)
    (hhole : ∀ jp, jp ≠ ip → some jp ≠ hole' → some jp ≠ hole) :
    Within t₀ (t.set ip m) (ip :: own) hole' := by
  have hzero := h.count ip
  rw [hidle] at hzero
  have hnot : ip ∉ own := by
    intro hmem
    have hpos := h.in_use hmem
    omega
  refine ⟨?_, ?_, ?_, ?_, ?_, ?_⟩
  · intro jp
    by_cases hjp : jp = ip
    · rw [hjp, InodeTable.set_self, List.count_cons_self, hcount]
      omega
    · rw [InodeTable.set_of_ne t m hjp, h.count jp, List.count_cons_of_ne (Ne.symm hjp)]
  · intro jp hjp
    have hne : jp ≠ ip := by
      rintro rfl
      omega
    rw [InodeTable.set_of_ne t m hne]
    exact h.names jp hjp
  · intro jp hmem
    by_cases hjp : jp = ip
    · rw [hjp, InodeTable.set_self, hmdev]
      exact hdev
    · rw [InodeTable.set_of_ne t m hjp]
      exact h.disk jp ((List.mem_cons.mp hmem).resolve_left hjp)
  · intro jp kp hjdev hsame
    by_cases hjp : jp = ip
    · by_cases hkp : kp = ip
      · rw [hjp, hkp]
      · rw [hjp, InodeTable.set_self, InodeTable.set_of_ne t m hkp] at hsame
        exact absurd (hsame.2.trans hmno) (hnew kp (hsame.1.trans hmdev))
    · by_cases hkp : kp = ip
      · rw [hkp, InodeTable.set_self, InodeTable.set_of_ne t m hjp] at hsame
        exact absurd (hsame.2.symm.trans hmno) (hnew jp (hsame.1.symm.trans hmdev))
      · rw [InodeTable.set_of_ne t m hjp, InodeTable.set_of_ne t m hkp] at hsame
        rw [InodeTable.set_of_ne t m hjp] at hjdev
        exact h.sound.unique jp kp hjdev hsame
  · intro jp hjhole
    by_cases hjp : jp = ip
    · rw [hjp, InodeTable.set_self]
      intro _ hvalid
      rw [hjp] at hjhole
      exact absurd (hloaded hvalid).symm hjhole
    · rw [InodeTable.set_of_ne t m hjp]
      exact h.sound.loaded jp (hhole jp hjp hjhole)
  · intro jp
    by_cases hjp : jp = ip
    · rw [hjp, InodeTable.set_self, hmdev]
      intro _ hzero
      exact absurd hzero hdev
    · rw [InodeTable.set_of_ne t m hjp]
      exact h.sound.pipes jp

/-- The reference is one more. -/
theorem Within.incr (h : Within t₀ t own hole) (hroom : Room t₀) (hown : own.length ≤ 4)
    (hdev : (t.mInodes ip).iDev ≠ 0) :
    Within t₀ (t.set ip { t.mInodes ip with iCount := u16 ((t.mInodes ip).iCount + 1) }) (ip :: own)
      hole := by
  have hfew := hroom ip
  have hle := List.count_le_length (a := ip) (l := own)
  have hcount := h.count ip
  refine h.store ⟨rfl, rfl⟩ ?_ ?_ (fun _ => hdev) (h.sound.loaded ip) (fun _ _ => id) ?_
  · show u16 ((t.mInodes ip).iCount + 1) = _
    rw [List.count_cons_self, hcount, u16, Nat.mod_eq_of_lt (by omega)]
    omega
  · intro jp hjp
    rw [List.count_cons_of_ne (Ne.symm hjp)]
  · intro _ hzero
    exact absurd hzero hdev

/-- The slot that `iget` hands out has the name asked for, and is read before it is relied on,
    unless it is taken to be clean. -/
theorem Within.iget (h : Within t₀ t own hole) (hroom : Room t₀) (hown : own.length ≤ 4)
    {dev iNo : Nat} {clean : Bool} (hdev : dev ≠ 0) (hhole : hole = none)
    (hget : Inode.iget t dev iNo clean = some (t', ip)) :
    Within t₀ t' (ip :: own) (if clean then some ip else none) ∧
      (t'.mInodes ip).iDev = dev ∧ (t'.mInodes ip).iNo = iNo := by
  rw [hhole] at h
  unfold Inode.iget at hget
  split at hget
  · rename_i jp hmatch
    cases hget
    rcases igetMatch_some hmatch with ⟨hd, hn⟩
    have hincr := h.incr hroom hown (by rw [hd]; exact hdev)
    refine ⟨?_, ?_⟩
    · refine ⟨hincr.count, hincr.names, hincr.disk, hincr.sound.unique, ?_, hincr.sound.pipes⟩
      intro kp _
      exact hincr.sound.loaded kp nofun
    · rw [InodeTable.set_self]
      exact ⟨hd, hn⟩
  · rename_i hmatch
    split at hget
    · rename_i jp hidle
      rcases Prod.mk.inj (some.inj hget) with ⟨rfl, rfl⟩
      have hzero := firstIdle_some hidle
      refine ⟨?_, ?_⟩
      · refine h.rename hzero hdev (igetMatch_none hmatch) rfl rfl ?_ ?_ (fun _ _ _ => nofun)
        · show u16 ((t.mInodes jp).iCount + 1) = 1
          rw [hzero]
          rfl
        · intro hclean
          have hclean : clean = true := hclean
          rw [if_pos hclean]
      · rw [InodeTable.set_self]
        exact ⟨rfl, rfl⟩
    · cases hget

theorem Within.idup (h : Within t₀ t own hole) (hroom : Room t₀) (hown : own.length ≤ 4)
    (hdev : (t.mInodes ip).iDev ≠ 0) (hdup : Inode.idup t ip = some t') :
    Within t₀ t' (ip :: own) hole := by
  unfold Inode.idup at hdup
  split at hdup
  · cases hdup
    exact h.incr hroom hown hdev
  · cases hdup

theorem iputFree_fields (m : MInode) : (iputFree m).iDev = m.iDev ∧ (iputFree m).iNo = m.iNo ∧
    (iputFree m).dInodeCtnt.iMode = m.dInodeCtnt.iMode ∧
      ((iputFree m).iValid = true → m.iValid = true) := by
  unfold iputFree
  split
  · refine ⟨rfl, rfl, ?_, nofun⟩
    show (itruncate m.dInodeCtnt 0 0 0).1.iMode = _
    unfold itruncate
    rw [if_neg (Nat.not_lt_zero _)]
    split <;> rfl
  · exact ⟨rfl, rfl, rfl, id⟩

theorem Within.iput (h : Within t₀ t (ip :: own) hole) (hroom : Room t₀) (hown : own.length ≤ 4) :
    Within t₀ (Inode.iput t ip) own hole := by
  rcases iputFree_fields (t.mInodes ip) with ⟨hd, hn, hmode, hvalid⟩
  have hcount := h.count ip
  rw [List.count_cons_self] at hcount
  have hfew := hroom ip
  have hle := List.count_le_length (a := ip) (l := own)
  have hdev := h.disk ip List.mem_cons_self
  rw [Inode.iput]
  refine h.store ⟨hd, hn⟩ ?_ ?_ ?_ ?_ (fun _ _ => id) ?_
  · show u16 ((iputFree (t.mInodes ip)).iCount + 65535) = _
    rw [iputFree_iCount, hcount, u16]
    omega
  · intro jp hjp
    rw [List.count_cons_of_ne (Ne.symm hjp)]
  · intro _
    show (iputFree (t.mInodes ip)).iDev ≠ 0
    rw [hd]
    exact hdev
  · intro hjhole _ hv
    show (iputFree (t.mInodes ip)).dInodeCtnt.iMode
      = (t.diskInode (iputFree (t.mInodes ip)).iDev (iputFree (t.mInodes ip)).iNo).iMode
    rw [hmode, hd, hn]
    exact h.sound.loaded ip hjhole hdev (hvalid hv)
  · intro _ hzero
    have hzero : (iputFree (t.mInodes ip)).iDev = 0 := hzero
    rw [hd] at hzero
    exact absurd hzero hdev

theorem Within.iunlockput (h : Within t₀ t (ip :: own) hole) (hroom : Room t₀)
    (hown : own.length ≤ 4) (hput : Inode.iunlockput t ip = some t') : Within t₀ t' own hole := by
  rcases Option.map_eq_some_iff.mp hput with ⟨t₁, hun, rfl⟩
  rw [iunlock_eq hun]
  exact h.iput hroom hown

/-! ## Records -/

/-- Locking reads the record, if that has not been done. -/
theorem Within.ilock (h : Within t₀ t own hole) (hdev : (t.mInodes ip).iDev ≠ 0)
    (hlock : Inode.ilock t ip = some t') :
    Within t₀ t' own hole ∧ (t'.mInodes ip).iDev ≠ 0 ∧ (t'.mInodes ip).iValid = true := by
  unfold Inode.ilock at hlock
  split at hlock
  · split at hlock
    · rename_i hvalid
      cases hlock
      exact ⟨h, hdev, hvalid⟩
    · cases hlock
      refine ⟨?_, ?_, ?_⟩
      · exact h.store ⟨rfl, rfl⟩ (h.count ip) (fun _ _ => rfl) (fun _ => hdev) (fun _ _ _ => rfl)
          (fun _ _ => id) (fun _ hzero => absurd hzero hdev)
      · rw [InodeTable.set_self]
        exact hdev
      · rw [InodeTable.set_self]
  · cases hlock

/-- A record that is changed and written back: slot and disk agree on it again. -/
theorem Within.write (h : Within t₀ t own hole) {d : DInode} (hdev : (t.mInodes ip).iDev ≠ 0)
    (hhole : hole = none ∨ hole = some ip)
    (hup : iupdate (t.set ip { t.mInodes ip with dInodeCtnt := d }) ip = some t') :
    Within t₀ t' own none ∧ SameName (t.mInodes ip) (t'.mInodes ip) := by
  unfold iupdate at hup
  split at hup
  · cases hup
    -- the slots, before the disk is written
    have hslot : Within t₀ (t.set ip { t.mInodes ip with dInodeCtnt := d }) own (some ip) := by
      refine h.store ⟨rfl, rfl⟩ (h.count ip) (fun _ _ => rfl) (fun _ => hdev)
        (fun hne => absurd rfl hne) ?_ (fun _ hzero => absurd hzero hdev)
      intro jp hjp _
      rcases hhole with hnone | hsome
      · rw [hnone]
        exact nofun
      · rw [hsome]
        exact fun heq => hjp (some.inj heq)
    have hself : (t.set ip { t.mInodes ip with dInodeCtnt := d }).mInodes ip
        = { t.mInodes ip with dInodeCtnt := d } := InodeTable.set_self ..
    refine ⟨⟨hslot.count, hslot.names, hslot.disk, hslot.sound.unique, ?_, hslot.sound.pipes⟩, ?_⟩
    · intro jp _ hjdev hvalid
      show _ = (if _ then _ else _ : DInode).iMode
      by_cases hjp : jp = ip
      · rw [hjp, if_pos ⟨rfl, rfl⟩]
      · rw [if_neg, hslot.sound.loaded jp (fun heq => hjp (some.inj heq)) hjdev hvalid]
        rintro ⟨hd, hn⟩
        exact hjp (hslot.sound.unique jp ip hjdev ⟨hd.symm, hn.symm⟩)
    · show SameName _ ((t.set ip _).mInodes ip)
      rw [hself]
      exact ⟨rfl, rfl⟩
  · cases hup

/-! ## Paths -/

/-- The loop of `namex` trades the reference it is given for the one it hands back. -/
theorem Within.namexLoop {parent : Bool} {cs : List (Option Nat)} {r : Option Slot}
    (h : Within t₀ t (ip :: own) none) (hroom : Room t₀) (hown : own.length ≤ 2)
    (hloop : Inode.namexLoop parent cs t ip = some (t', r)) : Within t₀ t' (r.toList ++ own) none := by
  induction cs generalizing t ip with
  | nil =>
    unfold Inode.namexLoop at hloop
    cases parent with
    | true =>
      cases hloop
      exact h.iput hroom (by omega)
    | false =>
      cases hloop
      exact h
  | cons c cs ih =>
    unfold Inode.namexLoop at hloop
    rcases bind_eq_some_iff.mp hloop with ⟨t₁, hlock, hloop⟩
    rcases h.ilock (h.disk ip List.mem_cons_self) hlock with ⟨h₁, hdev, -⟩
    split at hloop
    · split at hloop
      · rcases bind_eq_some_iff.mp hloop with ⟨t₂, hun, hloop⟩
        cases hloop
        rw [iunlock_eq hun]
        exact h₁
      · cases c with
        | none =>
          rcases bind_eq_some_iff.mp hloop with ⟨t₂, hput, hloop⟩
          cases hloop
          exact h₁.iunlockput hroom (by omega) hput
        | some iNo =>
          rcases bind_eq_some_iff.mp hloop with ⟨⟨t₂, next⟩, hget, hloop⟩
          rcases bind_eq_some_iff.mp hloop with ⟨t₃, hput, hloop⟩
          have hlen : (ip :: own).length ≤ 4 := by
            rw [List.length_cons]
            omega
          have h₂ := (h₁.iget hroom hlen hdev rfl hget).1
          have hlen' : (next :: own).length ≤ 4 := hlen
          have h₃ := (h₂.perm (List.Perm.swap ip next own)).iunlockput hroom hlen' hput
          exact ih h₃ hloop
    · cases hloop

theorem Within.namex {parent : Bool} {path : Walk} {icwd : Slot} {r : Option Slot}
    (h : Within t₀ t own none) (hroom : Room t₀) (hown : own.length ≤ 2)
    (hcwd : (t.mInodes icwd).iDev ≠ 0) (hwalk : Inode.namex t icwd path parent = some (t', r)) :
    Within t₀ t' (r.toList ++ own) none := by
  unfold Inode.namex at hwalk
  split at hwalk
  · rcases bind_eq_some_iff.mp hwalk with ⟨⟨t₁, ip⟩, hget, hwalk⟩
    have h₁ := (h.iget hroom (by omega) (Nat.succ_ne_zero 0) rfl hget).1
    exact h₁.namexLoop hroom hown hwalk
  · rcases bind_eq_some_iff.mp hwalk with ⟨t₁, hdup, hwalk⟩
    exact (h.idup hroom (by omega) hcwd hdup).namexLoop hroom hown hwalk

/-! ## Creating files -/

theorem Within.dirlink {dp : Slot} {env : LinkEnv} {res : Int} (h : Within t₀ t own none)
    (hroom : Room t₀) (hown : own.length ≤ 4) (hdp : dp ∈ own)
    (hlink : Inode.dirlink t dp env = some (t', res)) : Within t₀ t' own none := by
  unfold Inode.dirlink at hlink
  split at hlink
  · split at hlink
    · rcases bind_eq_some_iff.mp hlink with ⟨⟨t₁, ip⟩, hget, hlink⟩
      cases hlink
      exact (h.iget hroom hown (h.disk dp hdp) rfl hget).1.iput hroom hown
    · split at hlink
      · rcases bind_eq_some_iff.mp hlink with ⟨t₁, hup, hlink⟩
        cases hlink
        exact (h.write (h.disk dp hdp) (.inl rfl) hup).1
      · cases hlink
        exact h
  · cases hlink

theorem Within.createFail {dp : Slot} {r : Option Slot} (h : Within t₀ t (ip :: dp :: own) none)
    (hroom : Room t₀) (hown : own.length ≤ 2) (hfail : Inode.createFail t ip dp = some (t', r)) :
    Within t₀ t' (r.toList ++ own) none := by
  rcases bind_eq_some_iff.mp hfail with ⟨t₁, hup, hfail⟩
  rcases bind_eq_some_iff.mp hfail with ⟨t₂, hput, hfail⟩
  rcases bind_eq_some_iff.mp hfail with ⟨t₃, hput', hfail⟩
  cases hfail
  have h₁ := (h.write (h.disk ip List.mem_cons_self) (.inl rfl) hup).1
  have hlen : (dp :: own).length ≤ 4 := by
    rw [List.length_cons]
    omega
  exact (h₁.iunlockput hroom hlen hput).iunlockput hroom (by omega) hput'

theorem Within.createEntry {dp : Slot} {kind : FileKind} {entry : LinkEnv} {r : Option Slot}
    (h : Within t₀ t (ip :: dp :: own) none) (hroom : Room t₀) (hown : own.length ≤ 2)
    (hentry : Inode.createEntry t ip dp kind entry = some (t', r)) :
    Within t₀ t' (r.toList ++ own) none := by
  have hlen : (ip :: dp :: own).length ≤ 4 := by
    rw [List.length_cons, List.length_cons]
    omega
  have hdp : dp ∈ ip :: dp :: own := List.mem_cons_of_mem ip List.mem_cons_self
  rcases bind_eq_some_iff.mp hentry with ⟨⟨t₁, res⟩, hlink, hentry⟩
  have h₁ := h.dirlink hroom hlen hdp hlink
  dsimp only at hentry
  split at hentry
  · exact h₁.createFail hroom hown hentry
  · rcases bind_eq_some_iff.mp hentry with ⟨t₂, hlinks, hentry⟩
    rcases bind_eq_some_iff.mp hentry with ⟨t₃, hun, hentry⟩
    rcases bind_eq_some_iff.mp hentry with ⟨t₄, hput, hentry⟩
    cases hentry
    have h₂ : Within t₀ t₂ (ip :: dp :: own) none := by
      split at hlinks
      · exact (h₁.write (h₁.disk dp hdp) (.inl rfl) hlinks).1
      · cases hlinks
        exact h₁
    rcases iunlock_eq hun
    have hlen' : (ip :: own).length ≤ 4 := by
      rw [List.length_cons]
      omega
    exact (h₂.perm (List.Perm.swap dp ip own)).iunlockput hroom hlen' hput

theorem Within.createFresh {dp : Slot} {iNo : Nat} {kind : FileKind} {mode : Nat} {env : CreateEnv}
    {r : Option Slot} (h : Within t₀ t (dp :: own) none) (hroom : Room t₀) (hown : own.length ≤ 2)
    (hfresh : Inode.createFresh t dp iNo kind mode env = some (t', r)) :
    Within t₀ t' (r.toList ++ own) none := by
  have hlen : (dp :: own).length ≤ 4 := by
    rw [List.length_cons]
    omega
  unfold Inode.createFresh at hfresh
  rcases bind_eq_some_iff.mp hfresh with ⟨⟨t₁, ip⟩, hget, hfresh⟩
  rcases bind_eq_some_iff.mp hfresh with ⟨t₂, hlock, hfresh⟩
  rcases bind_eq_some_iff.mp hfresh with ⟨t₃, hup, hfresh⟩
  have h₁ := (h.iget hroom hlen (h.disk dp List.mem_cons_self) rfl hget).1
  rcases h₁.ilock (h₁.disk ip List.mem_cons_self) hlock with ⟨h₂, hdev, -⟩
  -- the new record closes the hole
  have h₃ := (h₂.write hdev (.inr (if_pos rfl)) hup).1
  have hlen' : (ip :: dp :: own).length ≤ 4 := by
    rw [List.length_cons, List.length_cons]
    omega
  split at hfresh
  · rcases bind_eq_some_iff.mp hfresh with ⟨⟨t₄, res⟩, hdot, hfresh⟩
    have h₄ := h₃.dirlink hroom hlen' List.mem_cons_self hdot
    dsimp only at hfresh
    split at hfresh
    · exact h₄.createFail hroom hown hfresh
    · rcases bind_eq_some_iff.mp hfresh with ⟨⟨t₅, res'⟩, hdotdot, hfresh⟩
      have h₅ := h₄.dirlink hroom hlen' List.mem_cons_self hdotdot
      dsimp only at hfresh
      split at hfresh
      · exact h₅.createFail hroom hown hfresh
      · exact h₅.createEntry hroom hown hfresh
  · exact h₃.createEntry hroom hown hfresh

theorem Within.createFound {dp : Slot} {iNo : Nat} {kind : FileKind} {r : Option Slot}
    (h : Within t₀ t (dp :: own) none) (hroom : Room t₀) (hown : own.length ≤ 2)
    (hfound : Inode.createFound t dp iNo kind = some (t', r)) : Within t₀ t' (r.toList ++ own) none := by
  have hlen : (dp :: own).length ≤ 4 := by
    rw [List.length_cons]
    omega
  unfold Inode.createFound at hfound
  rcases bind_eq_some_iff.mp hfound with ⟨⟨t₁, ip⟩, hget, hfound⟩
  rcases bind_eq_some_iff.mp hfound with ⟨t₂, hput, hfound⟩
  rcases bind_eq_some_iff.mp hfound with ⟨t₃, hlock, hfound⟩
  have h₁ := (h.iget hroom hlen (h.disk dp List.mem_cons_self) rfl hget).1
  have hlen' : (ip :: own).length ≤ 4 := hlen
  have h₂ := (h₁.perm (List.Perm.swap dp ip own)).iunlockput hroom hlen' hput
  have h₃ := (h₂.ilock (h₂.disk ip List.mem_cons_self) hlock).1
  dsimp only at hfound
  split at hfound
  · rcases bind_eq_some_iff.mp hfound with ⟨t₄, hun, hfound⟩
    cases hfound
    rw [iunlock_eq hun]
    exact h₃
  · rcases bind_eq_some_iff.mp hfound with ⟨t₄, hput', hfound⟩
    cases hfound
    exact h₃.iunlockput hroom (by omega) hput'

theorem Within.create {icwd : Slot} {kind : FileKind} {mode : Nat} {env : CreateEnv}
    {r : Option Slot} (h : Within t₀ t own none) (hroom : Room t₀) (hown : own.length ≤ 2)
    (hcwd : (t.mInodes icwd).iDev ≠ 0) (hcreate : Inode.create t icwd kind mode env = some (t', r)) :
    Within t₀ t' (r.toList ++ own) none := by
  rcases bind_eq_some_iff.mp hcreate with ⟨⟨t₁, dp⟩, hparent, hcreate⟩
  have h₁ := h.namex hroom hown hcwd hparent
  cases dp with
  | none =>
    cases hcreate
    exact h₁
  | some dp =>
    rcases bind_eq_some_iff.mp hcreate with ⟨t₂, hlock, hcreate⟩
    have h₁ : Within t₀ t₁ (dp :: own) none := h₁
    have h₂ := (h₁.ilock (h₁.disk dp List.mem_cons_self) hlock).1
    split at hcreate
    · split at hcreate
      · exact h₂.createFound hroom hown hcreate
      · split at hcreate
        · rcases bind_eq_some_iff.mp hcreate with ⟨t₃, hput, hcreate⟩
          cases hcreate
          exact h₂.iunlockput hroom (by omega) hput
        · exact h₂.createFresh hroom hown hcreate
    · cases hcreate

/-! ## Truncation -/

theorem Within.itruncateSlot {length blocks grown : Nat} {res : Int} (h : Within t₀ t own none)
    (hdev : (t.mInodes ip).iDev ≠ 0)
    (htrunc : Inode.itruncateSlot t ip length blocks grown = some (t', res)) :
    Within t₀ t' own none ∧ SameName (t.mInodes ip) (t'.mInodes ip) := by
  unfold Inode.itruncateSlot at htrunc
  dsimp only at htrunc
  split at htrunc
  · cases htrunc
    exact ⟨h, .refl _⟩
  · rcases Option.map_eq_some_iff.mp htrunc with ⟨t₁, hup, heq⟩
    cases heq
    exact h.write hdev (.inl rfl) hup

/-! ## Pipes -/

/-- The slot of a new pipe was idle. -/
theorem pipealloc_sound (h : Sound t none) (hp : pipealloc t = some (t', ip)) :
    Sound t' none ∧ (t'.mInodes ip).iDev = 0 ∧
      ∀ jp, 1 ≤ (t.mInodes jp).iCount → SameName (t.mInodes jp) (t'.mInodes jp) := by
  unfold pipealloc at hp
  split at hp
  · rename_i jp hidle
    rcases Prod.mk.inj (some.inj hp) with ⟨rfl, rfl⟩
    have hzero := firstIdle_some hidle
    have hne : ∀ kp, 1 ≤ (t.mInodes kp).iCount → kp ≠ jp := by
      rintro kp hused rfl
      omega
    refine ⟨⟨?_, ?_, ?_⟩, ?_, ?_⟩
    · intro kp lp hdev hsame
      by_cases hkp : kp = jp
      · rw [hkp, InodeTable.set_self] at hdev
        exact absurd rfl hdev
      · rw [InodeTable.set_of_ne t _ hkp] at hdev hsame
        by_cases hlp : lp = jp
        · rw [hlp, InodeTable.set_self] at hsame
          exact absurd hsame.1.symm hdev
        · rw [InodeTable.set_of_ne t _ hlp] at hsame
          exact h.unique kp lp hdev hsame
    · intro kp hhole hdev hvalid
      by_cases hkp : kp = jp
      · rw [hkp, InodeTable.set_self] at hdev
        exact absurd rfl hdev
      · rw [InodeTable.set_of_ne t _ hkp] at hdev hvalid ⊢
        exact h.loaded kp hhole hdev hvalid
    · intro kp hused hdev
      by_cases hkp : kp = jp
      · rw [hkp, InodeTable.set_self]
        show isFifo EXT2_S_IFIFO = true
        decide
      · rw [InodeTable.set_of_ne t _ hkp] at hused hdev ⊢
        exact h.pipes kp hused hdev
    · rw [InodeTable.set_self]
    · intro kp hused
      rw [InodeTable.set_of_ne t _ (hne kp hused)]
      exact .refl _
  · cases hp

end Uniks.Inode
