/-
  What each function of the inode table does to the reference counts.

  `i_count` is a 16-bit field, so all that can be said of one call is a difference modulo 2^16.
  `Adjust t t' d` is that statement for a whole table, one difference for each slot; it composes
  by addition, and every function of `Uniks.Inode` gets one lemma that names its difference:
  `iget` and `idup` add `one ip`, `iput` takes it away, locking changes nothing, and the walks
  along a path add exactly the reference they hand back.
-/
import Uniks.Inode
import Mathlib.Algebra.Group.Pi.Basic
import Mathlib.Tactic.Abel

namespace Uniks.Inode

open Option (some bind_eq_some_iff)

/-! ## Differences of tables -/

/-- From `t` to `t'` the count of slot `jp` changes by `d jp`, modulo the width of the field. -/
structure Adjust (t t' : InodeTable) (d : Slot → Int) : Prop where
  change : ∀ jp, ((t'.mInodes jp).iCount : Int) % 65536 = ((t.mInodes jp).iCount + d jp) % 65536
  fits : (∀ jp, (t.mInodes jp).iCount < 65536) → ∀ jp, (t'.mInodes jp).iCount < 65536

/-- One reference to `ip`. -/
def one (ip : Slot) : Slot → Int := fun jp => if jp = ip then 1 else 0

/-- The reference a function hands back, if it hands one back. -/
def held : Option Slot → Slot → Int
  | none => 0
  | some ip => one ip

@[simp] theorem held_none : held none = 0 := rfl
@[simp] theorem held_some (ip : Slot) : held (some ip) = one ip := rfl

theorem Adjust.refl (t : InodeTable) : Adjust t t 0 :=
  ⟨fun jp => by rw [Pi.zero_apply, Int.add_zero], fun h => h⟩

theorem Adjust.trans {t t' t'' : InodeTable} {d e : Slot → Int} (h : Adjust t t' d)
    (h' : Adjust t' t'' e) : Adjust t t'' (d + e) := by
  refine ⟨fun jp => ?_, fun hfit => h'.fits (h.fits hfit)⟩
  have h1 := h.change jp
  have h2 := h'.change jp
  rw [Pi.add_apply]
  omega

theorem Adjust.congr {t t' : InodeTable} {d e : Slot → Int} (h : Adjust t t' d) (hde : d = e) :
    Adjust t t' e :=
  hde ▸ h

/-- A table with the same slots is no change, whatever lies on disk. -/
theorem Adjust.of_eq {t t' : InodeTable} (h : t'.mInodes = t.mInodes) : Adjust t t' 0 := by
  refine ⟨fun jp => ?_, fun hfit jp => ?_⟩
  · rw [h, Pi.zero_apply, Int.add_zero]
  · rw [h]; exact hfit jp

/-- Storing one slot changes that slot's count only. -/
theorem Adjust.set {t : InodeTable} {ip : Slot} {m : MInode} {d : Slot → Int}
    (hd : ∀ jp, jp ≠ ip → d jp = 0)
    (hm : (m.iCount : Int) % 65536 = ((t.mInodes ip).iCount + d ip) % 65536)
    (hfit : (t.mInodes ip).iCount < 65536 → m.iCount < 65536) : Adjust t (t.set ip m) d := by
  refine ⟨fun jp => ?_, fun h jp => ?_⟩
  · by_cases hjp : jp = ip
    · subst hjp
      rw [InodeTable.set_self]
      exact hm
    · rw [InodeTable.set_of_ne t m hjp, hd jp hjp, Int.add_zero]
  · by_cases hjp : jp = ip
    · subst hjp
      rw [InodeTable.set_self]
      exact hfit (h jp)
    · rw [InodeTable.set_of_ne t m hjp]
      exact h jp

/-- A slot stored with its old count. -/
theorem Adjust.set_zero {t : InodeTable} {ip : Slot} {m : MInode}
    (hm : m.iCount = (t.mInodes ip).iCount) : Adjust t (t.set ip m) 0 := by
  refine Adjust.set (fun _ _ => rfl) ?_ ?_
  · rw [hm, Pi.zero_apply, Int.add_zero]
  · intro h
    rw [hm]
    exact h

/-- A slot stored with one reference more. -/
theorem Adjust.set_one {t : InodeTable} {ip : Slot} {m : MInode}
    (hm : m.iCount = u16 ((t.mInodes ip).iCount + 1)) : Adjust t (t.set ip m) (one ip) := by
  unfold u16 at hm
  refine Adjust.set (fun jp hjp => if_neg hjp) ?_ ?_
  · rw [one, if_pos rfl]
    omega
  · omega

/-- A slot stored with one reference less. -/
theorem Adjust.set_neg_one {t : InodeTable} {ip : Slot} {m : MInode}
    (hm : m.iCount = u16 ((t.mInodes ip).iCount + 65535)) : Adjust t (t.set ip m) (-one ip) := by
  unfold u16 at hm
  refine Adjust.set (fun jp hjp => ?_) ?_ ?_
  · rw [Pi.neg_apply, one, if_neg hjp, Int.neg_zero]
  · rw [Pi.neg_apply, one, if_pos rfl]
    omega
  · omega

/-! ## The primitives -/

theorem iget_adjust {t t' : InodeTable} {dev iNo : Nat} {clean : Bool} {ip : Slot}
    (h : iget t dev iNo clean = some (t', ip)) : Adjust t t' (one ip) := by
  unfold iget at h
  split at h
  · cases h
    exact Adjust.set_one rfl
  · split at h
    · cases h
      exact Adjust.set_one rfl
    · cases h

theorem idup_adjust {t t' : InodeTable} {ip : Slot} (h : idup t ip = some t') :
    Adjust t t' (one ip) := by
  unfold idup at h
  split at h
  · cases h
    exact Adjust.set_one rfl
  · cases h

theorem ilock_adjust {t t' : InodeTable} {ip : Slot} (h : ilock t ip = some t') :
    Adjust t t' 0 := by
  unfold ilock at h
  split at h
  · split at h
    · cases h
      exact Adjust.refl t
    · cases h
      exact Adjust.set_zero rfl
  · cases h

theorem iunlock_eq {t t' : InodeTable} {ip : Slot} (h : iunlock t ip = some t') : t' = t := by
  unfold iunlock at h
  split at h
  · exact (some.inj h).symm
  · cases h

theorem iunlock_adjust {t t' : InodeTable} {ip : Slot} (h : iunlock t ip = some t') :
    Adjust t t' 0 :=
  iunlock_eq h ▸ Adjust.refl t

theorem iupdate_adjust {t t' : InodeTable} {ip : Slot} (h : iupdate t ip = some t') :
    Adjust t t' 0 := by
  unfold iupdate at h
  split at h
  · cases h
    exact Adjust.of_eq rfl
  · cases h

theorem itruncateSlot_adjust {t t' : InodeTable} {ip : Slot} {length blocks grown : Nat} {res : Int}
    (h : itruncateSlot t ip length blocks grown = some (t', res)) : Adjust t t' 0 := by
  unfold itruncateSlot at h
  simp only at h
  split at h
  · cases h
    exact Adjust.refl t
  · obtain ⟨t₁, hup, heq⟩ := Option.map_eq_some_iff.mp h
    cases heq
    have hwritten := iupdate_adjust hup
    exact (Adjust.trans (Adjust.set_zero (by rfl)) hwritten).congr (add_zero 0)

theorem iputFree_iCount (m : MInode) : (iputFree m).iCount = m.iCount := by
  unfold iputFree
  split <;> rfl

theorem iput_adjust (t : InodeTable) (ip : Slot) : Adjust t (iput t ip) (-one ip) := by
  unfold iput
  refine Adjust.set_neg_one ?_
  rw [iputFree_iCount]

theorem iunlockput_adjust {t t' : InodeTable} {ip : Slot} (h : iunlockput t ip = some t') :
    Adjust t t' (-one ip) := by
  obtain ⟨t₁, hun, rfl⟩ := Option.map_eq_some_iff.mp h
  rw [iunlock_eq hun]
  exact iput_adjust t ip

theorem pipealloc_adjust {t t' : InodeTable} {ip : Slot} (h : pipealloc t = some (t', ip)) :
    Adjust t t' (one ip) := by
  unfold pipealloc at h
  split at h
  · cases h
    exact Adjust.set_one rfl
  · cases h

/-! ## Walking along a path -/

/-- The loop trades the reference it is given for the one it hands back. -/
theorem namexLoop_adjust {parent : Bool} {cs : List (Option Nat)} {t t' : InodeTable} {ip : Slot}
    {r : Option Slot} (h : namexLoop parent cs t ip = some (t', r)) :
    Adjust t t' (held r - one ip) := by
  induction cs generalizing t ip with
  | nil =>
    unfold namexLoop at h
    cases parent with
    | true =>
      cases h
      exact (iput_adjust t ip).congr (by rw [held_none, zero_sub])
    | false =>
      obtain ⟨rfl, rfl⟩ := Prod.mk.inj (some.inj h)
      exact (Adjust.refl t).congr (by rw [held_some, sub_self])
  | cons c cs ih =>
    unfold namexLoop at h
    obtain ⟨t₁, hlock, h⟩ := bind_eq_some_iff.mp h
    have h₁ := ilock_adjust hlock
    split at h
    · split at h
      · obtain ⟨t₂, hun, h⟩ := bind_eq_some_iff.mp h
        cases h
        exact (h₁.trans (iunlock_adjust hun)).congr (by rw [held_some]; abel)
      · cases c with
        | none =>
          obtain ⟨t₂, hput, h⟩ := bind_eq_some_iff.mp h
          cases h
          exact (h₁.trans (iunlockput_adjust hput)).congr (by rw [held_none]; abel)
        | some iNo =>
          obtain ⟨⟨t₂, next⟩, hget, h⟩ := bind_eq_some_iff.mp h
          obtain ⟨t₃, hput, h⟩ := bind_eq_some_iff.mp h
          have h₃ := (h₁.trans (iget_adjust hget)).trans (iunlockput_adjust hput)
          exact (h₃.trans (ih h)).congr (by abel)
    · cases h

theorem namex_adjust {t t' : InodeTable} {icwd : Slot} {path : Walk} {parent : Bool}
    {r : Option Slot} (h : namex t icwd path parent = some (t', r)) : Adjust t t' (held r) := by
  unfold namex at h
  split at h
  · obtain ⟨⟨t₁, ip⟩, hget, h⟩ := bind_eq_some_iff.mp h
    exact ((iget_adjust hget).trans (namexLoop_adjust h)).congr (by abel)
  · obtain ⟨t₁, hdup, h⟩ := bind_eq_some_iff.mp h
    exact ((idup_adjust hdup).trans (namexLoop_adjust h)).congr (by abel)

theorem namei_adjust {t t' : InodeTable} {icwd : Slot} {path : Walk} {r : Option Slot}
    (h : namei t icwd path = some (t', r)) : Adjust t t' (held r) :=
  namex_adjust h

theorem nameiparent_adjust {t t' : InodeTable} {icwd : Slot} {path : Walk} {r : Option Slot}
    (h : nameiparent t icwd path = some (t', r)) : Adjust t t' (held r) :=
  namex_adjust h

/-! ## Creating files -/

/-- Entering a name into a directory keeps no reference. -/
theorem dirlink_adjust {t t' : InodeTable} {dp : Slot} {env : LinkEnv} {res : Int}
    (h : dirlink t dp env = some (t', res)) : Adjust t t' 0 := by
  unfold dirlink at h
  split at h
  · split at h
    · obtain ⟨⟨t₁, ip⟩, hget, h⟩ := bind_eq_some_iff.mp h
      cases h
      exact ((iget_adjust hget).trans (iput_adjust t₁ ip)).congr (by abel)
    · split at h
      · obtain ⟨t₁, hup, h⟩ := bind_eq_some_iff.mp h
        cases h
        have hwritten := iupdate_adjust hup
        exact (Adjust.trans (Adjust.set_zero (by rfl)) hwritten).congr (add_zero 0)
      · cases h
        exact Adjust.refl t
  · cases h

/-- The failing exit drops the new inode and the directory. -/
theorem createFail_adjust {t t' : InodeTable} {ip dp : Slot} {r : Option Slot}
    (h : createFail t ip dp = some (t', r)) : r = none ∧ Adjust t t' (-one ip - one dp) := by
  unfold createFail at h
  obtain ⟨t₁, hup, h⟩ := bind_eq_some_iff.mp h
  obtain ⟨t₂, hput, h⟩ := bind_eq_some_iff.mp h
  obtain ⟨t₃, hput', h⟩ := bind_eq_some_iff.mp h
  cases h
  have h₁ := iupdate_adjust hup
  have h₃ := ((Adjust.trans (Adjust.set_zero (by rfl)) h₁).trans (iunlockput_adjust hput)).trans
    (iunlockput_adjust hput')
  exact ⟨rfl, h₃.congr (by abel)⟩

/-- Both ends of `create` give the directory back, and hand on the new inode or drop it. -/
theorem createEntry_adjust {t t' : InodeTable} {ip dp : Slot} {kind : FileKind} {entry : LinkEnv}
    {r : Option Slot} (h : createEntry t ip dp kind entry = some (t', r)) :
    Adjust t t' (held r - one ip - one dp) := by
  unfold createEntry at h
  obtain ⟨⟨t₁, res⟩, hlink, h⟩ := bind_eq_some_iff.mp h
  have h₁ := dirlink_adjust hlink
  simp only at h
  split at h
  · obtain ⟨rfl, h₂⟩ := createFail_adjust h
    exact (h₁.trans h₂).congr (by rw [held_none]; abel)
  · obtain ⟨t₂, hlinks, h⟩ := bind_eq_some_iff.mp h
    obtain ⟨t₃, hun, h⟩ := bind_eq_some_iff.mp h
    obtain ⟨t₄, hput, h⟩ := bind_eq_some_iff.mp h
    cases h
    have h₂ : Adjust t₁ t₂ 0 := by
      split at hlinks
      · have hup := iupdate_adjust hlinks
        exact (Adjust.trans (Adjust.set_zero (by rfl)) hup).congr (add_zero 0)
      · cases hlinks
        exact Adjust.refl t₁
    have h₄ := ((h₁.trans h₂).trans (iunlock_adjust hun)).trans (iunlockput_adjust hput)
    exact h₄.congr (by rw [held_some]; abel)

theorem createFresh_adjust {t t' : InodeTable} {dp : Slot} {iNo : Nat} {kind : FileKind}
    {mode : Nat} {env : CreateEnv} {r : Option Slot}
    (h : createFresh t dp iNo kind mode env = some (t', r)) : Adjust t t' (held r - one dp) := by
  unfold createFresh at h
  obtain ⟨⟨t₁, ip⟩, hget, h⟩ := bind_eq_some_iff.mp h
  obtain ⟨t₂, hlock, h⟩ := bind_eq_some_iff.mp h
  obtain ⟨t₃, hup, h⟩ := bind_eq_some_iff.mp h
  have hwritten := iupdate_adjust hup
  have h₃ := ((iget_adjust hget).trans (ilock_adjust hlock)).trans
    (Adjust.trans (Adjust.set_zero (by rfl)) hwritten)
  split at h
  · obtain ⟨⟨t₄, res⟩, hdot, h⟩ := bind_eq_some_iff.mp h
    have h₄ := h₃.trans (dirlink_adjust hdot)
    simp only at h
    split at h
    · obtain ⟨rfl, hfail⟩ := createFail_adjust h
      exact (h₄.trans hfail).congr (by rw [held_none]; abel)
    · obtain ⟨⟨t₅, res'⟩, hdotdot, h⟩ := bind_eq_some_iff.mp h
      have h₅ := h₄.trans (dirlink_adjust hdotdot)
      simp only at h
      split at h
      · obtain ⟨rfl, hfail⟩ := createFail_adjust h
        exact (h₅.trans hfail).congr (by rw [held_none]; abel)
      · exact (h₅.trans (createEntry_adjust h)).congr (by abel)
  · exact (h₃.trans (createEntry_adjust h)).congr (by abel)

theorem createFound_adjust {t t' : InodeTable} {dp : Slot} {iNo : Nat} {kind : FileKind}
    {r : Option Slot} (h : createFound t dp iNo kind = some (t', r)) :
    Adjust t t' (held r - one dp) := by
  unfold createFound at h
  obtain ⟨⟨t₁, ip⟩, hget, h⟩ := bind_eq_some_iff.mp h
  obtain ⟨t₂, hput, h⟩ := bind_eq_some_iff.mp h
  obtain ⟨t₃, hlock, h⟩ := bind_eq_some_iff.mp h
  have h₃ := ((iget_adjust hget).trans (iunlockput_adjust hput)).trans (ilock_adjust hlock)
  simp only at h
  split at h
  · obtain ⟨t₄, hun, h⟩ := bind_eq_some_iff.mp h
    cases h
    exact (h₃.trans (iunlock_adjust hun)).congr (by rw [held_some]; abel)
  · obtain ⟨t₄, hput', h⟩ := bind_eq_some_iff.mp h
    cases h
    exact (h₃.trans (iunlockput_adjust hput')).congr (by rw [held_none]; abel)

/-- The function `create` adds the reference it hands back and no other. -/
theorem create_adjust {t t' : InodeTable} {icwd : Slot} {kind : FileKind} {mode : Nat}
    {env : CreateEnv} {r : Option Slot} (h : create t icwd kind mode env = some (t', r)) :
    Adjust t t' (held r) := by
  unfold create at h
  obtain ⟨⟨t₁, dp⟩, hparent, h⟩ := bind_eq_some_iff.mp h
  have h₁ := nameiparent_adjust hparent
  cases dp with
  | none =>
    cases h
    exact h₁
  | some dp =>
    obtain ⟨t₂, hlock, h⟩ := bind_eq_some_iff.mp h
    have h₂ := h₁.trans (ilock_adjust hlock)
    rw [held_some] at h₂
    split at h
    · split at h
      · exact (h₂.trans (createFound_adjust h)).congr (by abel)
      · split at h
        · obtain ⟨t₃, hput, h⟩ := bind_eq_some_iff.mp h
          cases h
          exact (h₂.trans (iunlockput_adjust hput)).congr (by rw [held_none]; abel)
        · exact (h₂.trans (createFresh_adjust h)).congr (by abel)
    · cases h

end Uniks.Inode
