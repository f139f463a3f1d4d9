/-
  What `dirlookup` finds.

  The name that is looked for ends with a NUL, the names that are stored do not, so the comparison
  is `strncmp` with the larger one of the two lengths.  Where the stored name is the longer one the
  NUL stops it.  Where the stored name is the shorter one nothing does: the comparison goes on
  behind the stored name, over the padding of the entry, the inode number of the next one, or,
  at the end of the directory, over what the buffer held before.  A stored name that begins the
  name looked for passes for it if these bytes happen to go on with it (`RunsOn`).

  `passes_iff` says which entries pass the test.  `dirlookup` is exact if and only if no entry in
  front of the exact one passes for it (`Unconfused`).
-/
import Uniks.DirLinkFormat

namespace Uniks.DirLink

open Uniks.ByteMem

/-- The loop of `dirlookup` with what it stores in `*poff`: the inode number found, and where. -/
def lookupLoop (d : Dir) (name : Name) (off : Nat) (tmpDe : Bytes) : Option (Option (Nat × Nat)) :=
  if off < d.iSize then
    let de := readi d tmpDe off EXT2_DIRENTRY_MAXSIZE
    if matchesName name de then some (some (deInode de, off))
    else if deRecLen de = 0 then none
    else lookupLoop d name (off + deRecLen de) de
  else some none
termination_by d.iSize - off
decreasing_by exact Nat.sub_lt_sub_left ‹_› (Nat.lt_add_of_pos_right (Nat.pos_of_ne_zero ‹_›))

/-- The source's `dirlookup` with `poff`. -/
def dirlookupOff (d : Dir) (name : Name) (tmpDe : Bytes) : Option (Option (Nat × Nat)) :=
  if name.chars.length ≤ EXT2_NAME_LEN then lookupLoop d name 0 tmpDe else none

/-- The first live entry whose stored name is the name: its inode number, and where it is. -/
def firstExact (name : Name) : Nat → List DirEntry → Option (Nat × Nat)
  | _, [] => none
  | off, e :: es =>
    if e.inode ≠ 0 ∧ e.name = name.chars then some (e.inode, off)
    else firstExact name (off + e.recLen) es

/-- `dirlookup` finds exact names only. -/
def FindsExact (d : Dir) (es : List DirEntry) (name : Name) (tmpDe : Bytes) : Prop :=
  (∀ i o, dirlookupOff d name tmpDe = some (some (i, o)) ↔ firstExact name 0 es = some (i, o)) ∧
  (dirlookupOff d name tmpDe = some none ↔ firstExact name 0 es = none)

/-- The stored name begins the name, and the bytes behind it in the buffer go on with it. -/
structure RunsOn (name : Name) (e : DirEntry) (de : Bytes) : Prop where
  begins : e.name <+: name.chars
  shorter : e.name.length < name.chars.length
  behind : ∀ k, e.name.length ≤ k → k < name.chars.length → deName de k = name.cstr k

/-- A stored name that is not the name passes for it: it runs on, or it is the name with a NUL
    behind it and more. -/
def PassesFor (name : Name) (e : DirEntry) (de : Bytes) : Prop :=
  RunsOn name e de ∨ name.chars ++ [0] <+: e.name

/-- Up to the exact entry, or to the end where there is none, no live entry passes for the name.
    The buffer still holds what the last `readi` did not overwrite. -/
def Unconfused (d : Dir) (name : Name) : Nat → Bytes → List DirEntry → Prop
  | _, _, [] => True
  | off, tmpDe, e :: es =>
    let de := readi d tmpDe off EXT2_DIRENTRY_MAXSIZE
    (e.inode ≠ 0 ∧ e.name = name.chars) ∨
      (e.inode ≠ 0 → ¬ PassesFor name e de) ∧ Unconfused d name (off + e.recLen) de es

variable {d : Dir} {off : Nat} {e : DirEntry} {es : List DirEntry} {de tmpDe : Bytes} {name : Name}

/-! ## `strncmp` -/

/-- `strncmp` compares up to the first NUL of its first argument. -/
theorem strncmpEq_iff (s1 s2 : Bytes) (i n : Nat) :
    strncmpEq s1 s2 i n = true ↔
      ∀ k, k < n → (∀ j, j < k → s1 (i + j) ≠ 0) → s1 (i + k) = s2 (i + k) := by
  induction n generalizing i with
  | zero => simp [strncmpEq]
  | succ n ih =>
    rw [strncmpEq]
    split
    case isTrue hgo =>
      rw [ih (i + 1)]
      constructor
      · intro h k hk hnz
        cases k with
        | zero => exact hgo.2
        | succ k =>
          have hstep := h k (by omega) fun j hj => by
            have hj' := hnz (j + 1) (by omega)
            rw [show i + (j + 1) = i + 1 + j from by omega] at hj'
            exact hj'
          rw [show i + 1 + k = i + (k + 1) from by omega] at hstep
          exact hstep
      · intro h k hk hnz
        have hstep := h (k + 1) (by omega) fun j hj => by
          cases j with
          | zero => exact hgo.1
          | succ j =>
            have hj' := hnz j (by omega)
            rw [show i + 1 + j = i + (j + 1) from by omega] at hj'
            exact hj'
        rw [show i + (k + 1) = i + 1 + k from by omega] at hstep
        exact hstep
    case isFalse hstop =>
      rw [beq_iff_eq]
      constructor
      · intro heq k hk hnz
        cases k with
        | zero => exact heq
        | succ k => exact absurd ⟨hnz 0 (by omega), heq⟩ hstop
      · intro h
        exact h 0 (by omega) fun j hj => by omega

theorem Name.cstr_eq {k : Nat} (hk : k < name.chars.length) : name.cstr k = name.chars[k] := by
  simp [Name.cstr, List.getD, hk]

theorem Name.cstr_ne_zero {k : Nat} (hk : k < name.chars.length) : name.cstr k ≠ 0 := by
  rw [Name.cstr_eq hk]
  intro h0
  exact name.nul (h0 ▸ List.getElem_mem hk)

@[simp] theorem Name.cstr_length : name.cstr name.chars.length = 0 := by
  simp [Name.cstr]

/-- The name with its NUL is compared, as far as the count goes. -/
theorem strncmpEq_cstr (s2 : Bytes) (n : Nat) :
    strncmpEq name.cstr s2 0 n = true ↔
      ∀ k, k < n → k ≤ name.chars.length → name.cstr k = s2 k := by
  rw [strncmpEq_iff]
  simp only [Nat.zero_add]
  constructor
  · intro h k hk hle
    exact h k hk fun j hj => name.cstr_ne_zero (by omega)
  · intro h k hk hnz
    refine h k hk ?_
    by_contra hgt
    exact hnz name.chars.length (by omega) name.cstr_length

/-! ## The test of `dirlookup` -/

theorem deName_of_entryAt (he : entryAt de 0 = e) {k : Nat} (hk : k < e.name.length) :
    deName de k = e.name[k] := by
  subst he
  simp [entryAt, deName]

/-- The entries that pass the test: live ones with the name, and live ones that pass for it. -/
theorem passes_iff (name : Name) (he : entryAt de 0 = e) :
    matchesName name de = true ↔ e.inode ≠ 0 ∧ (e.name = name.chars ∨ PassesFor name e de) := by
  rw [matchesName, deInode_of_entryAt he, deNameLen_of_entryAt he, Bool.and_eq_true, bne_iff_ne,
    strncmpEq_cstr]
  refine and_congr_right fun _ => ?_
  have hstored := fun k (hk : k < e.name.length) => deName_of_entryAt he hk
  have hname := fun k (hk : k < name.chars.length) => name.cstr_eq hk
  constructor
  · intro h
    rcases Nat.lt_trichotomy e.name.length name.chars.length with hlt | heq | hgt
    · -- the count is that of the name
      refine .inr (.inl ⟨List.prefix_iff_getElem.mpr ⟨hlt.le, fun k hk => ?_⟩, hlt, ?_⟩)
      · rw [← hstored k hk, ← hname k (by omega)]
        exact (h k (by omega) (by omega)).symm
      · intro k _ hk
        exact (h k (by omega) (by omega)).symm
    · refine .inl (List.ext_getElem heq fun k hk hk' => ?_)
      rw [← hstored k hk, ← hname k hk']
      exact (h k (by omega) (by omega)).symm
    · -- the NUL of the name is compared with a byte of the stored one
      refine .inr (.inr (List.prefix_iff_getElem.mpr ⟨by simp; omega, fun k hk => ?_⟩))
      simp only [List.length_append, List.length_singleton] at hk
      rw [← hstored k (by omega), ← h k (by omega) (by omega), List.getElem_append]
      split
      case isTrue hin => exact (hname k hin).symm
      case isFalse hend =>
        obtain rfl : k = name.chars.length := by omega
        simp
  · rintro (heq | ⟨hbegin, hlt, hbehind⟩ | hnul) k hk hle
    · have hlen : e.name.length = name.chars.length := congrArg List.length heq
      have hk' : k < name.chars.length := by omega
      rw [hname k hk', hstored k (by omega)]
      simp [heq]
    · by_cases hin : k < e.name.length
      · rw [hname k (by omega), hstored k hin]
        exact ((List.prefix_iff_getElem.mp hbegin).2 k hin).symm
      · exact (hbehind k (by omega) (by omega)).symm
    · obtain ⟨hlen, hget⟩ := List.prefix_iff_getElem.mp hnul
      simp only [List.length_append, List.length_singleton] at hlen hget
      rw [hstored k (by omega), ← hget k (by omega), List.getElem_append]
      split
      case isTrue hin => exact hname k hin
      case isFalse hend =>
        obtain rfl : k = name.chars.length := by omega
        simp

/-! ## The loop -/

/-- The walk with the offset is the walk of `dirlookup`. -/
theorem dirlookupLoop_eq (d : Dir) (name : Name) (off : Nat) (tmpDe : Bytes) :
    dirlookupLoop d name off tmpDe = (lookupLoop d name off tmpDe).map (Option.map Prod.fst) := by
  induction off, tmpDe using lookupLoop.induct d name with
  | case1 off tmpDe hin de hm => simp [dirlookupLoop, lookupLoop, hin, hm, de]
  | case2 off tmpDe hin de hm hzero => simp [dirlookupLoop, lookupLoop, hin, hm, hzero, de]
  | case3 off tmpDe hin de hm hpos ih =>
    rw [dirlookupLoop, lookupLoop]
    simp only [if_pos hin, de, hm, hpos, if_false, Bool.false_eq_true]
    exact ih
  | case4 off tmpDe hend => simp [dirlookupLoop, lookupLoop, hend]

theorem dirlookup_eq (d : Dir) (name : Name) (tmpDe : Bytes) :
    dirlookup d name tmpDe = (dirlookupOff d name tmpDe).map (Option.map Prod.fst) := by
  rw [dirlookup, dirlookupOff]
  split
  · exact dirlookupLoop_eq d name 0 tmpDe
  · rfl

theorem firstExact_ge {p : Nat × Nat} (h : firstExact name off es = some p) : off ≤ p.2 := by
  induction es generalizing off with
  | nil => cases h
  | cons e es ih =>
    rw [firstExact] at h
    split at h
    · exact (Option.some.inj h) ▸ Nat.le_refl off
    · have hrest := ih h
      omega

/-- One entry of the walk. -/
theorem lookupLoop_cons (he : entryAt d.data off = e) (hok : EntryOk off e)
    (hend : off + e.recLen ≤ d.iSize) :
    lookupLoop d name off tmpDe =
      if matchesName name (readi d tmpDe off EXT2_DIRENTRY_MAXSIZE) then some (some (e.inode, off))
      else lookupLoop d name (off + e.recLen) (readi d tmpDe off EXT2_DIRENTRY_MAXSIZE) := by
  have hroom := hok.room
  have hde : sizeofDe = 8 := rfl
  have hread := entryAt_readi tmpDe he hok hend
  rw [lookupLoop, if_pos (by omega)]
  simp only [deInode_of_entryAt hread, deRecLen_of_entryAt hread]
  rw [if_neg (show ¬ e.recLen = 0 by omega)]

/-- Without an entry that passes for the name, the walk ends at the exact one. -/
theorem lookupLoop_unconfused (h : Tiles d.data off es d.iSize)
    (hun : Unconfused d name off tmpDe es) :
    lookupLoop d name off tmpDe = some (firstExact name off es) := by
  induction es generalizing off tmpDe with
  | nil =>
    have hoff : off = d.iSize := h
    rw [lookupLoop, if_neg (by omega), firstExact]
  | cons e es ih =>
    obtain ⟨he, hok, hes⟩ := h
    have hread := entryAt_readi tmpDe he hok hes.le
    rw [lookupLoop_cons he hok hes.le, firstExact]
    by_cases hexact : e.inode ≠ 0 ∧ e.name = name.chars
    · rw [if_pos hexact, if_pos ((passes_iff name hread).mpr ⟨hexact.1, .inl hexact.2⟩)]
    · obtain ⟨hnot, hrest⟩ := hun.resolve_left hexact
      have hm : ¬ matchesName name (readi d tmpDe off EXT2_DIRENTRY_MAXSIZE) = true := by
        rw [passes_iff name hread]
        rintro ⟨hlive, hsame | hpass⟩
        · exact hexact ⟨hlive, hsame⟩
        · exact hnot hlive hpass
      rw [if_neg hexact, if_neg hm]
      exact ih hes hrest

/-- With one, it ends there: in front of the exact one. -/
theorem lookupLoop_confused (h : Tiles d.data off es d.iSize)
    (hun : ¬ Unconfused d name off tmpDe es) :
    ∃ p, lookupLoop d name off tmpDe = some (some p) ∧ firstExact name off es ≠ some p := by
  induction es generalizing off tmpDe with
  | nil => exact absurd trivial hun
  | cons e es ih =>
    obtain ⟨he, hok, hes⟩ := h
    have hread := entryAt_readi tmpDe he hok hes.le
    have hroom := hok.room
    have hde : sizeofDe = 8 := rfl
    rw [lookupLoop_cons he hok hes.le, firstExact]
    by_cases hexact : e.inode ≠ 0 ∧ e.name = name.chars
    · exact absurd (.inl hexact) hun
    · rw [if_neg hexact]
      by_cases hm : matchesName name (readi d tmpDe off EXT2_DIRENTRY_MAXSIZE) = true
      · rw [if_pos hm]
        refine ⟨_, rfl, fun hfirst => ?_⟩
        have hge : off + e.recLen ≤ off := firstExact_ge hfirst
        omega
      · rw [if_neg hm]
        refine ih hes fun hrest => hun (.inr ⟨fun hlive hpass => hm ?_, hrest⟩)
        exact (passes_iff name hread).mpr ⟨hlive, .inr hpass⟩

/-- In every well-formed directory `dirlookup` finds exact names only, exactly if no live entry in
    front of the exact one passes for it. -/
theorem dirlookup_exact (hwf : WellFormed d es) (hname : name.chars.length ≤ EXT2_NAME_LEN) :
    FindsExact d es name tmpDe ↔ Unconfused d name 0 tmpDe es := by
  rw [FindsExact, dirlookupOff, if_pos hname]
  constructor
  · rintro ⟨hfound, -⟩
    by_contra hun
    obtain ⟨p, hp, hne⟩ := lookupLoop_confused hwf hun
    exact hne ((hfound p.1 p.2).mp hp)
  · intro hun
    rw [lookupLoop_unconfused hwf hun]
    simp

/-- Two names, `aaaa` with inode 12 and `zz` with inode 98: the entries lie one behind the other. -/
def neighbours : Dir where
  iSize := 24
  data := splice (entryBytes ⟨12, 12, [97, 97, 97, 97]⟩) 12 12 (entryBytes ⟨98, 12, [122, 122]⟩)
  small := by decide

theorem neighbours_wellFormed :
    WellFormed neighbours [⟨12, 12, [97, 97, 97, 97]⟩, ⟨98, 12, [122, 122]⟩] := by
  refine ⟨by rfl, ⟨by decide, by decide, by decide, by decide⟩, by rfl,
    ⟨by decide, by decide, by decide, by decide⟩, rfl⟩

/-- The name `zz` is found. -/
theorem dirlookup_exact_neighbours :
    FindsExact neighbours [⟨12, 12, [97, 97, 97, 97]⟩, ⟨98, 12, [122, 122]⟩]
      ⟨[122, 122], by decide⟩ (fun _ => 0) := by
  refine (dirlookup_exact neighbours_wellFormed (by decide)).mpr (.inr ⟨fun _ => ?_, .inl ?_⟩)
  · rintro (⟨hbegin, hshort, -⟩ | hnul)
    · exact absurd hshort (by decide)
    · exact absurd hnul (by decide)
  · exact ⟨by decide, rfl⟩

/-- The name `aaaab` is not there, but `aaaa` passes for it: behind it stands the number 98, which
    is the letter `b`. -/
theorem dirlookup_prefix_found :
    ¬ ∀ d es name tmpDe, WellFormed d es → 1 ≤ name.chars.length →
      name.chars.length ≤ EXT2_NAME_LEN → 47 ∉ name.chars → FindsExact d es name tmpDe := by
  intro hall
  have hfinds := hall neighbours _ ⟨[97, 97, 97, 97, 98], by decide⟩ (fun _ => 0)
    neighbours_wellFormed (by decide) (by decide) (by decide)
  have hloop : lookupLoop neighbours ⟨[97, 97, 97, 97, 98], by decide⟩ 0 (fun _ => 0) =
      some (some (12, 0)) := by
    rw [lookupLoop_cons neighbours_wellFormed.1 neighbours_wellFormed.2.1 (by decide)]
    exact if_pos (by decide)
  have hfound := (hfinds.1 12 0).mp hloop
  exact absurd hfound (by decide)

end Uniks.DirLink
