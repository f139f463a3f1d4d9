/-
  How far a directory grows.

  `create` links `.` and `..` into an empty directory: the first call takes a whole block for one
  entry, every later one splits an entry, and the entry that is split keeps no slack but the
  rounding.  So only the last entry ever has room (`Listing`), and a directory grows by giving
  the end of its last entry away.  When that end is too short for the next name the loop of
  `dirlink` runs to the end of the file, and the new entry is written one entry BEHIND it; `writei`
  refuses that, whether there are blocks left or not.  No call ever appends a block.

  There is one way around.  The test counts the names as they are, the entries are rounded up, and
  when the rounding is short of four bytes the new entry ends four bytes behind the block and the
  file becomes longer.  The next test then runs under zero and succeeds, and the entry written next
  gets the length 65532.  The directory goes on, over the borders of blocks, until that is used up.
  In all three shapes `Holds` keeps the entries in their places, and a walk sees them.
-/
import Uniks.DirLookup

namespace Uniks.DirLink

open Uniks.ByteMem

/-- The blocks of the disk: `DISKSIZE` MiB. -/
def DISK_BLOCKS : Nat := 256 * 1024 * 1024 / BLKSIZE

/-- The disk has a block that the directory does not have yet. -/
def BlocksFree (d : Dir) : Prop := blocksEnd d + BLKSIZE ≤ DISK_BLOCKS * BLKSIZE

/-- The entries of a directory: all but the last one have no slack. -/
structure Listing where
  packed : List DirEntry
  last : DirEntry

def Listing.entries (l : Listing) : List DirEntry := l.packed ++ [l.last]

/-- A name takes the end of the last entry; `rec_len` has 16 bits. -/
def Listing.add (l : Listing) (name : List UInt8) (iNo : Nat) : Listing :=
  { packed := l.packed ++ [keptPart l.last]
    last :=
      { inode := iNo
        recLen := (l.last.recLen + 2 ^ 64 - (keptPart l.last).recLen) % 2 ^ 16
        name := name } }

/-- The last entry has room for a name, or is shorter than itself. -/
def LastRoom (e : DirEntry) (namelen : Nat) : Prop :=
  e.recLen < sizeofDe + e.name.length ∨
    sizeofDe + e.name.length + (sizeofDe + namelen) ≤ e.recLen

instance (e : DirEntry) (namelen : Nat) : Decidable (LastRoom e namelen) :=
  inferInstanceAs (Decidable (_ ∨ _))

/-- A live entry has the name or passes for it. -/
def Taken (d : Dir) (name : Name) : Nat → Bytes → List DirEntry → Prop
  | _, _, [] => False
  | off, tmpDe, e :: es =>
    let de := readi d tmpDe off EXT2_DIRENTRY_MAXSIZE
    (e.inode ≠ 0 ∧ (e.name = name.chars ∨ PassesFor name e de)) ∨
      Taken d name (off + e.recLen) de es

/-- The first live entry that has the name or passes for it does not have it, and has not the inode
    number `iNo` either. -/
def Misled (d : Dir) (name : Name) (iNo : Nat) : Nat → Bytes → List DirEntry → Prop
  | _, _, [] => False
  | off, tmpDe, e :: es =>
    let de := readi d tmpDe off EXT2_DIRENTRY_MAXSIZE
    ¬ (e.inode ≠ 0 ∧ e.name = name.chars) ∧
      ((e.inode ≠ 0 ∧ PassesFor name e de ∧ e.inode ≠ iNo) ∨
        (¬ (e.inode ≠ 0 ∧ PassesFor name e de) ∧ Misled d name iNo (off + e.recLen) de es))

/-- One call of `dirlink`, with what its stack holds. -/
structure Link where
  name : Name
  iNo : Nat
  stack : Stack

/-- The directory after a call. -/
def afterLink (d : Dir) (l : Link) : Dir :=
  match dirlink d l.name l.iNo true l.stack with
  | some (d', _) => d'
  | none => d

/-- Every call returns 0. -/
def AllLinked : Dir → List Link → Prop
  | _, [] => True
  | d, l :: ls =>
    (∃ d', dirlink d l.name l.iNo true l.stack = some (d', 0)) ∧ AllLinked (afterLink d l) ls

/-- Before each call the disk has a free block. -/
def BlocksRemain : Dir → List Link → Prop
  | _, [] => True
  | d, l :: ls => BlocksFree d ∧ BlocksRemain (afterLink d l) ls

/-- The calls all return 0, and afterwards `dirlookup` finds each name with its inode number. -/
def Grows (d : Dir) (ls : List Link) : Prop :=
  AllLinked d ls ∧ ∀ l ∈ ls, ∀ tmpDe,
    dirlookup (ls.foldl afterLink d) l.name tmpDe = some (some l.iNo)

/-- Before each call, no entry has the name or passes for it, and the last one has room. -/
def AllFit : Dir → Listing → List Link → Prop
  | _, _, [] => True
  | d, lst, l :: ls =>
    ¬ Taken d l.name 0 l.stack.lookupDe lst.entries ∧ LastRoom lst.last l.name.chars.length ∧
      AllFit (afterLink d l) (lst.add l.name.chars l.iNo) ls

/-- The entries after the calls. -/
def listed (lst : Listing) (ls : List Link) : Listing :=
  ls.foldl (fun lst l => lst.add l.name.chars l.iNo) lst

/-- An entry stored at `off`, inside the file. -/
structure Stored (d : Dir) (off : Nat) (e : DirEntry) : Prop where
  at_off : entryAt d.data off = e
  live : e.inode ≠ 0
  short : e.name.length ≤ EXT2_NAME_LEN
  inside : off + (keptPart e).recLen ≤ d.iSize

/-- Entries one behind the other, without slack. -/
def Packed (d : Dir) : Nat → List DirEntry → Nat → Prop
  | lo, [], hi => lo = hi
  | lo, e :: es, hi =>
    Stored d lo e ∧ e.recLen = (keptPart e).recLen ∧ Packed d (lo + e.recLen) es hi

/-- A directory holds a listing, the last entry at `off`: the file ends with it, or four bytes
    behind the length that it is said to have. -/
structure Holds (d : Dir) (lst : Listing) (off : Nat) : Prop where
  packed : Packed d 0 lst.packed off
  stored : Stored d off lst.last
  aligned : 4 ∣ lst.last.recLen
  ends : ((keptPart lst.last).recLen ≤ lst.last.recLen ∧ d.iSize ≤ off + lst.last.recLen) ∨
    (lst.last.recLen + 4 = (keptPart lst.last).recLen ∧ d.iSize = off + (keptPart lst.last).recLen)

variable {d d' : Dir} {lst : Listing} {off namelen iNo : Nat} {e : DirEntry} {es : List DirEntry}
  {de tmpDe : Bytes} {name : Name} {st : Stack}

/-! ## Stored entries -/

theorem Stored.recLen_lt (h : Stored d off e) : e.recLen < 2 ^ 16 :=
  h.at_off ▸ recLen_entryAt_lt d.data off

/-- `readi` puts the whole entry into the buffer. -/
theorem Stored.readi (h : Stored d off e) (tmpDe : Bytes) :
    entryAt (readi d tmpDe off EXT2_DIRENTRY_MAXSIZE) 0 = e := by
  have hkept := kept_bounds e
  have hinside := h.inside
  exact entryAt_readi_short tmpDe h.at_off h.short (by omega)

/-- The entry is in bytes that have not changed. -/
theorem Stored.congr (h : Stored d off e) (hsize : d.iSize ≤ d'.iSize)
    (hdata : ∀ k, off ≤ k → k < off + (keptPart e).recLen → d'.data k = d.data k) :
    Stored d' off e where
  at_off := by
    have hkept := kept_bounds e
    have hlen : (entryAt d.data off).name.length = e.name.length := by rw [h.at_off]
    rw [← h.at_off]
    refine entryAt_congr fun k hk => hdata (off + k) (by omega) ?_
    omega
  live := h.live
  short := h.short
  inside := h.inside.trans hsize

theorem Packed.le {lo hi : Nat} (h : Packed d lo es hi) : lo ≤ hi := by
  induction es generalizing lo with
  | nil => exact Nat.le_of_eq h
  | cons e es ih => exact Nat.le_trans (Nat.le_add_right lo e.recLen) (ih h.2.2)

theorem Packed.congr {lo hi : Nat} (h : Packed d lo es hi) (hsize : d.iSize ≤ d'.iSize)
    (hdata : ∀ k, k < hi → d'.data k = d.data k) : Packed d' lo es hi := by
  induction es generalizing lo with
  | nil => exact h
  | cons e es ih =>
    obtain ⟨hst, hrec, hes⟩ := h
    have hle := hes.le
    exact ⟨hst.congr hsize fun k _ hk => hdata k (by omega), hrec, ih hes⟩

theorem packed_snoc {lo hi : Nat} : Packed d lo (es ++ [e]) hi ↔
    ∃ mid, Packed d lo es mid ∧ Stored d mid e ∧ e.recLen = (keptPart e).recLen ∧
      mid + e.recLen = hi := by
  induction es generalizing lo with
  | nil =>
    constructor
    · rintro ⟨hst, hrec, hend⟩
      exact ⟨lo, rfl, hst, hrec, hend⟩
    · rintro ⟨mid, rfl, hst, hrec, hend⟩
      exact ⟨hst, hrec, hend⟩
  | cons x es ih =>
    constructor
    · rintro ⟨hst, hrec, hes⟩
      obtain ⟨mid, hes, hlast⟩ := ih.mp hes
      exact ⟨mid, ⟨hst, hrec, hes⟩, hlast⟩
    · rintro ⟨mid, ⟨hst, hrec, hes⟩, hlast⟩
      exact ⟨hst, hrec, ih.mpr ⟨mid, hes, hlast⟩⟩

/-! ## The walk of `dirlookup` -/

/-- What a walk over the entries finds. -/
def firstHit (d : Dir) (name : Name) : Nat → Bytes → List DirEntry → Option Nat
  | _, _, [] => none
  | off, tmpDe, e :: es =>
    let de := DirLink.readi d tmpDe off EXT2_DIRENTRY_MAXSIZE
    if matchesName name de then some e.inode else firstHit d name (off + e.recLen) de es

theorem dirlookupLoop_stored (h : Stored d off e) (hrec : 0 < e.recLen) :
    dirlookupLoop d name off tmpDe =
      if matchesName name (readi d tmpDe off EXT2_DIRENTRY_MAXSIZE) then some (some e.inode)
      else dirlookupLoop d name (off + e.recLen) (readi d tmpDe off EXT2_DIRENTRY_MAXSIZE) := by
  have hkept := kept_bounds e
  have hinside := h.inside
  have hde : sizeofDe = 8 := rfl
  have hread := h.readi tmpDe
  rw [dirlookupLoop, if_pos (by omega)]
  simp only [deInode_of_entryAt hread, deRecLen_of_entryAt hread]
  rw [if_neg (show ¬ e.recLen = 0 by omega)]

/-- Four bytes behind the last entry: the walk reads them over the number of the entry it has in its
    buffer, so what it sees there has the name that did not match. -/
theorem dirlookupLoop_behind (he : entryAt de 0 = e) (hlive : e.inode ≠ 0)
    (hm : ¬ matchesName name de = true) (hrec : 4 ≤ e.recLen) (hend : d.iSize = off + 4) :
    dirlookupLoop d name off de = some none := by
  have hmax : EXT2_DIRENTRY_MAXSIZE = 263 := rfl
  have hread : readi d de off EXT2_DIRENTRY_MAXSIZE = splice de 0 4 fun k => d.data (off + k) := by
    rw [DirLink.readi, if_neg (by omega), show min EXT2_DIRENTRY_MAXSIZE (d.iSize - off) = 4 by omega]
  have hsame : ∀ k, 4 ≤ k → readi d de off EXT2_DIRENTRY_MAXSIZE k = de k := by
    intro k hk
    rw [hread]
    exact splice_of_not_mem (by omega)
  have hfield : ∀ p w, 4 ≤ p →
      getLE (readi d de off EXT2_DIRENTRY_MAXSIZE) p w = getLE de p w := fun p w hp =>
    getLE_congr fun k _ => hsame (p + k) (by omega)
  have hname : deName (readi d de off EXT2_DIRENTRY_MAXSIZE) = deName de := by
    funext k
    exact hsame (sizeofDe + k) (by have hde : sizeofDe = 8 := rfl; omega)
  have hreclen : deRecLen (readi d de off EXT2_DIRENTRY_MAXSIZE) = e.recLen :=
    (hfield 4 2 (by omega)).trans (deRecLen_of_entryAt he)
  have hlen : deNameLen (readi d de off EXT2_DIRENTRY_MAXSIZE) = deNameLen de :=
    hfield 6 2 (by omega)
  have hnot : ¬ matchesName name (readi d de off EXT2_DIRENTRY_MAXSIZE) = true := by
    rw [matchesName, Bool.and_eq_true, bne_iff_ne, deInode_of_entryAt he] at hm
    rw [matchesName, Bool.and_eq_true, hname, hlen]
    rintro ⟨-, hcmp⟩
    exact hm ⟨hlive, hcmp⟩
  rw [dirlookupLoop, if_pos (by omega)]
  simp only [if_neg hnot, hreclen]
  rw [if_neg (by omega), dirlookupLoop, if_neg (by omega)]

/-- Entries that are all stored. -/
def AllStored (d : Dir) : Nat → List DirEntry → Prop
  | _, [] => True
  | off, e :: es => Stored d off e ∧ AllStored d (off + e.recLen) es

theorem Packed.allStored {lo hi : Nat} (h : Packed d lo es hi) (hlast : Stored d hi e) :
    AllStored d lo (es ++ [e]) := by
  induction es generalizing lo with
  | nil =>
    have hlo : lo = hi := h
    subst hlo
    exact ⟨hlast, trivial⟩
  | cons x es ih => exact ⟨h.1, ih h.2.2⟩

theorem Holds.allStored (h : Holds d lst off) : AllStored d 0 lst.entries :=
  h.packed.allStored h.stored

/-- Nothing is found exactly if no entry has the name or passes for it. -/
theorem firstHit_eq_none (h : AllStored d off es) :
    firstHit d name off tmpDe es = none ↔ ¬ Taken d name off tmpDe es := by
  induction es generalizing off tmpDe with
  | nil => simp [firstHit, Taken]
  | cons e es ih =>
    obtain ⟨hst, hes⟩ := h
    have hpass := passes_iff name (hst.readi tmpDe)
    simp only [firstHit, Taken]
    by_cases hm : matchesName name (readi d tmpDe off EXT2_DIRENTRY_MAXSIZE) = true
    · simp [hm, hpass.mp hm]
    · rw [if_neg hm, ih hes]
      simp [mt hpass.mpr hm]

/-- The names of a directory with their inode numbers. -/
def named (es : List DirEntry) : List (List UInt8 × Nat) := es.map fun e => (e.name, e.inode)

/-- The number that is wanted is found exactly if no other entry is found instead. -/
theorem firstHit_own (h : AllStored d off es) (hown : (named es).lookup name.chars = some iNo) :
    firstHit d name off tmpDe es = some iNo ↔ ¬ Misled d name iNo off tmpDe es := by
  induction es generalizing off tmpDe with
  | nil => cases hown
  | cons e es ih =>
    obtain ⟨hst, hes⟩ := h
    have hpass := passes_iff name (hst.readi tmpDe)
    have hlive := hst.live
    simp only [named, List.map_cons, List.lookup_cons] at hown
    simp only [firstHit, Misled]
    by_cases hsame : e.name = name.chars
    · rw [if_pos (hpass.mpr ⟨hlive, .inl hsame⟩)]
      simp only [hsame, beq_self_eq_true, Option.some.injEq] at hown
      rw [hown]
      constructor
      · rintro - ⟨hnot, -⟩
        exact hnot ⟨hown ▸ hlive, hsame⟩
      · exact fun _ => rfl
    · have hne : (name.chars == e.name) = false := by
        rw [beq_eq_false_iff_ne]
        exact fun heq => hsame heq.symm
      rw [hne] at hown
      have hrest : firstHit d name (off + e.recLen) (readi d tmpDe off EXT2_DIRENTRY_MAXSIZE) es =
          some iNo ↔ _ := ih hes hown
      by_cases hm : matchesName name (readi d tmpDe off EXT2_DIRENTRY_MAXSIZE) = true
      · have hp := (hpass.mp hm).2.resolve_left hsame
        simp [hm, hsame, hlive, hp]
      · have hp : ¬ PassesFor name e (readi d tmpDe off EXT2_DIRENTRY_MAXSIZE) := fun hp =>
          hm (hpass.mpr ⟨hlive, .inr hp⟩)
        rw [if_neg hm, hrest]
        simp [hsame, hp]

/-- The name is in no entry that is in front of one that is not taken. -/
theorem lookup_of_not_taken (h : AllStored d off es) (hnot : ¬ Taken d name off tmpDe es) :
    (named es).lookup name.chars = none := by
  induction es generalizing off tmpDe with
  | nil => rfl
  | cons e es ih =>
    obtain ⟨hst, hes⟩ := h
    simp only [Taken, not_or] at hnot
    have hne : (name.chars == e.name) = false := by
      rw [beq_eq_false_iff_ne]
      exact fun heq => hnot.1 ⟨hst.live, .inl heq.symm⟩
    simp only [named, List.map_cons, List.lookup_cons, hne]
    exact ih hes hnot.2

/-! ## The walks over a listing -/

theorem dirlookupLoop_packed (name : Name) (tmpDe : Bytes) (e : DirEntry) {lo hi : Nat}
    (h : Packed d lo es hi) :
    ∃ de, dirlookupLoop d name lo tmpDe = (match firstHit d name lo tmpDe es with
        | some i => some (some i)
        | none => dirlookupLoop d name hi de) ∧
      firstHit d name lo tmpDe (es ++ [e]) = (match firstHit d name lo tmpDe es with
        | some i => some i
        | none => firstHit d name hi de [e]) := by
  induction es generalizing lo tmpDe with
  | nil =>
    have hlo : lo = hi := h
    subst hlo
    exact ⟨tmpDe, rfl, rfl⟩
  | cons x es ih =>
    obtain ⟨hst, hrec, hes⟩ := h
    have hkept := kept_bounds x
    have hde : sizeofDe = 8 := rfl
    rw [dirlookupLoop_stored hst (by omega), List.cons_append]
    simp only [firstHit]
    by_cases hm : matchesName name (readi d tmpDe lo EXT2_DIRENTRY_MAXSIZE) = true
    · exact ⟨tmpDe, by simp [hm], by simp [hm]⟩
    · simp only [if_neg hm]
      exact ih _ hes

/-- `dirlookup` finds what a walk over the entries finds, also when the file ends four bytes behind
    the last one. -/
theorem Holds.dirlookup (h : Holds d lst off) (hname : name.chars.length ≤ EXT2_NAME_LEN)
    (tmpDe : Bytes) :
    DirLink.dirlookup d name tmpDe = some (firstHit d name 0 tmpDe lst.entries) := by
  obtain ⟨de, hloop, hhit⟩ := dirlookupLoop_packed name tmpDe lst.last h.packed
  rw [DirLink.dirlookup, if_pos hname, hloop, Listing.entries, hhit]
  cases firstHit d name 0 tmpDe lst.packed with
  | some i => rfl
  | none =>
    have hkept := kept_bounds lst.last
    have halign := h.aligned
    have hde : sizeofDe = 8 := rfl
    have hpos : 4 ≤ lst.last.recLen := by
      rcases h.ends with ⟨hle, -⟩ | ⟨hle, -⟩ <;> omega
    simp only [firstHit]
    rw [dirlookupLoop_stored h.stored (by omega)]
    by_cases hm : matchesName name (DirLink.readi d de off EXT2_DIRENTRY_MAXSIZE) = true
    · rw [if_pos hm, if_pos hm]
    · rw [if_neg hm, if_neg hm]
      rcases h.ends with ⟨-, hend⟩ | ⟨hlong, hend⟩
      · rw [dirlookupLoop, if_neg (by omega)]
      · exact dirlookupLoop_behind (h.stored.readi de) h.stored.live hm hpos (by omega)

/-- The test of `dirlink`, with its wrap-around. -/
theorem hasRoom_eq (he : entryAt de 0 = e) (hlive : e.inode ≠ 0)
    (hshort : e.name.length ≤ EXT2_NAME_LEN) (hname : namelen ≤ EXT2_NAME_LEN) :
    hasRoom namelen de = true ↔ LastRoom e namelen := by
  have hde : sizeofDe = 8 := rfl
  have hnl : EXT2_NAME_LEN = 255 := rfl
  have hlt : e.recLen < 2 ^ 16 := he ▸ recLen_entryAt_lt de 0
  rw [hasRoom, deInode_of_entryAt he, deRecLen_of_entryAt he, deNameLen_of_entryAt he,
    Bool.and_eq_true, bne_iff_ne, decide_eq_true_eq, LastRoom]
  constructor
  · rintro ⟨-, hroom⟩
    omega
  · intro hroom
    exact ⟨hlive, by omega⟩

/-- The loop of `dirlink` passes the entries without slack. -/
theorem roomLoop_packed (tmpDe : Bytes) {lo hi : Nat} (h : Packed d lo es hi)
    (hname : namelen ≤ EXT2_NAME_LEN) :
    ∃ de, roomLoop d namelen lo tmpDe = roomLoop d namelen hi de := by
  induction es generalizing lo tmpDe with
  | nil =>
    have hlo : lo = hi := h
    subst hlo
    exact ⟨tmpDe, rfl⟩
  | cons x es ih =>
    obtain ⟨hst, hrec, hes⟩ := h
    have hkept := kept_bounds x
    have hinside := hst.inside
    have hde : sizeofDe = 8 := rfl
    have hread := hst.readi tmpDe
    have hno : ¬ hasRoom namelen (readi d tmpDe lo EXT2_DIRENTRY_MAXSIZE) = true := by
      rw [hasRoom_eq hread hst.live hst.short hname, LastRoom]
      omega
    rw [roomLoop, if_pos (by omega)]
    simp only [if_neg hno, deRecLen_of_entryAt hread]
    rw [if_neg (by omega)]
    exact ih _ hes

/-- It stops at the last one if that has room, and otherwise behind the file. -/
theorem Holds.roomLoop (h : Holds d lst off) (hname : namelen ≤ EXT2_NAME_LEN) (tmpDe : Bytes) :
    (LastRoom lst.last namelen →
      ∃ de1, DirLink.roomLoop d namelen 0 tmpDe = some (off, de1) ∧ entryAt de1 0 = lst.last) ∧
    (¬ LastRoom lst.last namelen →
      ∃ de1 off', DirLink.roomLoop d namelen 0 tmpDe = some (off', de1) ∧ d.iSize ≤ off') := by
  obtain ⟨de, hloop⟩ := roomLoop_packed tmpDe h.packed hname
  have hkept := kept_bounds lst.last
  have hinside := h.stored.inside
  have hde : sizeofDe = 8 := rfl
  have hread := h.stored.readi de
  have hroom := hasRoom_eq hread h.stored.live h.stored.short hname
  rw [hloop, DirLink.roomLoop, if_pos (by omega)]
  simp only [deRecLen_of_entryAt hread]
  constructor
  · intro hlast
    rw [if_pos (hroom.mpr hlast)]
    exact ⟨_, rfl, hread⟩
  · intro hfull
    -- an entry that is too short for itself has room, so this one covers the rest of the file
    obtain ⟨hle, hend⟩ : (keptPart lst.last).recLen ≤ lst.last.recLen ∧
        d.iSize ≤ off + lst.last.recLen := by
      rcases h.ends with hends | ⟨hshort, -⟩
      · exact hends
      · exact absurd (.inl (by omega)) hfull
    rw [if_neg (mt hroom.mp hfull), if_neg (by omega), DirLink.roomLoop, if_neg (by omega)]
    exact ⟨_, _, rfl, hend⟩

/-! ## The writes of `dirlink` -/

/-- A write that has the blocks it needs. -/
theorem writei_room (src : Bytes) {n : Nat} (hn : 0 < n) (hoff : off ≤ d.iSize)
    (hend : off + n < 2 ^ 32) :
    ∃ d', writei d true src off n = (d', (n : Int)) ∧ d'.iSize = max d.iSize (off + n) ∧
      d'.data = splice d.data off n src := by
  by_cases hin : off + n ≤ d.iSize
  · exact ⟨_, writei_inside true src hn hin, by simp; omega, rfl⟩
  · refine ⟨_, writei_beyond true src hoff (by omega) (by omega) (.inl rfl), ?_, rfl⟩
    show (off + n) % 2 ^ 32 = _
    omega

/-- A directory is no larger than the disk. -/
theorem BlocksFree.size (h : BlocksFree d) : d.iSize + BLKSIZE ≤ 2 ^ 28 := by
  have hle := le_blocksEnd d
  have hdisk : DISK_BLOCKS * BLKSIZE = 2 ^ 28 := by decide
  rw [BlocksFree, hdisk] at h
  omega

/-- With room, the last entry is split, and the directory holds the listing with the new name. -/
theorem Holds.insertDe (h : Holds d lst off) (hfree : BlocksFree d) (hpos : 0 < iNo)
    (hiNo : iNo < 2 ^ 32) (hname : name.chars.length ≤ EXT2_NAME_LEN) {de1 : Bytes}
    (he : entryAt de1 0 = lst.last) (hroom : LastRoom lst.last name.chars.length) (de2 : Bytes) :
    ∃ d', DirLink.insertDe d true off de1 (fillDe de2 name iNo) = (d', 0) ∧
      Holds d' (lst.add name.chars iNo) (off + (keptPart lst.last).recLen) := by
  have hkept := kept_bounds lst.last
  have hinside := h.stored.inside
  have hshort := h.stored.short
  have hsize := hfree.size
  have halign := h.aligned
  have hrecLt := h.stored.recLen_lt
  have hde : sizeofDe = 8 := rfl
  have hnl : EXT2_NAME_LEN = 255 := rfl
  have hblk : BLKSIZE = 4096 := rfl
  have hlen : alignaddrUp (sizeofDe + deNameLen (fillDe de2 name iNo)) 4
      = (sizeofDe + name.chars.length + 3) / 4 * 4 := by
    rw [deNameLen_fillDe de2 name iNo hname]
    exact alignaddrUp_four _
  obtain ⟨d1, hw1, hsize1, hdata1⟩ := writei_room (d := d)
    (setRecLen (fillDe de2 name iNo) (lst.last.recLen + 2 ^ 64 - (keptPart lst.last).recLen))
    (n := (sizeofDe + name.chars.length + 3) / 4 * 4) (by omega) hinside (by omega)
  obtain ⟨d2, hw2, hsize2, hdata2⟩ := writei_room (d := d1)
    (setRecLen de1 (keptPart lst.last).recLen) (n := (keptPart lst.last).recLen) (by omega)
    (show off ≤ d1.iSize by omega) (by omega)
  obtain ⟨hat1, hat2, hrest⟩ := inserted_entries d.data
    (lst.last.recLen + 2 ^ 64 - (keptPart lst.last).recLen) de2 hiNo hname he hshort
    (show sizeofDe + name.chars.length ≤ (sizeofDe + name.chars.length + 3) / 4 * 4 by omega)
  have hdata : d2.data = inserted d.data off (keptPart lst.last).recLen
      ((sizeofDe + name.chars.length + 3) / 4 * 4) (setRecLen de1 (keptPart lst.last).recLen)
      (setRecLen (fillDe de2 name iNo)
        (lst.last.recLen + 2 ^ 64 - (keptPart lst.last).recLen)) := by
    rw [hdata2, hdata1]
    rfl
  rw [← hdata] at hat1 hat2 hrest
  refine ⟨d2, insertDe_of_written he hlen hw1 hw2, ?_⟩
  have hnew := kept_bounds (lst.add name.chars iNo).last
  have hnewRec := kept_recLen (lst.add name.chars iNo).last
  have hnewName : (lst.add name.chars iNo).last.name = name.chars := rfl
  rw [hnewName] at hnewRec
  refine { packed := packed_snoc.mpr ⟨off, ?_, ?_, rfl, rfl⟩, stored := ?_, aligned := ?_, ends := ?_ }
  · exact h.packed.congr (by omega) fun k hk => hrest k (by omega)
  · exact ⟨hat1, h.stored.live, hshort, by show off + (keptPart lst.last).recLen ≤ _; omega⟩
  · refine ⟨hat2, Nat.ne_of_gt hpos, hname, ?_⟩
    omega
  · show 4 ∣ (lst.last.recLen + 2 ^ 64 - (keptPart lst.last).recLen) % 2 ^ 16
    omega
  · have hrec : (lst.add name.chars iNo).last.recLen =
      (lst.last.recLen + 2 ^ 64 - (keptPart lst.last).recLen) % 2 ^ 16 := rfl
    rcases h.ends with ⟨hle, hend⟩ | ⟨hlong, hend⟩
    · -- the entry has room by itself, perhaps not after the rounding
      rw [LastRoom] at hroom
      by_cases hover : (sizeofDe + name.chars.length + 3) / 4 * 4 ≤
          lst.last.recLen - (keptPart lst.last).recLen
      · left
        omega
      · right
        omega
    · -- it is four bytes too long: the new length runs under zero
      left
      omega

/-! ## One call -/

theorem Holds.size_ne_zero (h : Holds d lst off) : d.iSize ≠ 0 := by
  have hkept := kept_bounds lst.last
  have hinside := h.stored.inside
  have hde : sizeofDe = 8 := rfl
  omega

theorem Holds.link_fits (h : Holds d lst off) (hfree : BlocksFree d) (hpos : 0 < iNo)
    (hiNo : iNo < 2 ^ 32) (hname : name.chars.length ≤ EXT2_NAME_LEN)
    (hnot : ¬ Taken d name 0 st.lookupDe lst.entries)
    (hroom : LastRoom lst.last name.chars.length) :
    ∃ d', dirlink d name iNo true st = some (d', 0) ∧
      Holds d' (lst.add name.chars iNo) (off + (keptPart lst.last).recLen) := by
  have hfound := h.dirlookup hname st.lookupDe
  rw [(firstHit_eq_none h.allStored).mpr hnot] at hfound
  obtain ⟨de1, hloop, he⟩ := (h.roomLoop hname st.tmpDe).1 hroom
  obtain ⟨d', hins, hholds⟩ := h.insertDe hfree hpos hiNo hname he hroom st.newDe
  refine ⟨d', ?_, hholds⟩
  rw [dirlink_insert name iNo true hfound hloop h.size_ne_zero, hins]

theorem Holds.link_taken (h : Holds d lst off) (hname : name.chars.length ≤ EXT2_NAME_LEN)
    (htaken : Taken d name 0 st.lookupDe lst.entries) :
    dirlink d name iNo true st = some (d, -1) := by
  have hfound := h.dirlookup hname st.lookupDe
  have hhit := mt (firstHit_eq_none h.allStored).mp (not_not.mpr htaken)
  obtain ⟨i, hi⟩ := Option.ne_none_iff_exists'.mp hhit
  rw [hi] at hfound
  simp [dirlink, hfound]

/-- Without room the new entry would stand behind the file, and is not written. -/
theorem Holds.link_full (h : Holds d lst off) (hname : name.chars.length ≤ EXT2_NAME_LEN)
    (hnot : ¬ Taken d name 0 st.lookupDe lst.entries)
    (hfull : ¬ LastRoom lst.last name.chars.length) :
    dirlink d name iNo true st = some (d, -1) := by
  have hfound := h.dirlookup hname st.lookupDe
  rw [(firstHit_eq_none h.allStored).mpr hnot] at hfound
  obtain ⟨de1, off', hloop, hend⟩ := (h.roomLoop hname st.tmpDe).2 hfull
  have hlong := le_alignaddrUp_four (sizeofDe + deNameLen de1)
  have hde : sizeofDe = 8 := rfl
  rw [dirlink_insert name iNo true hfound hloop h.size_ne_zero, DirLink.insertDe]
  simp only
  rw [writei_behind true _ (by omega)]
  have hres : ∀ n : Nat, (-1 : Int) ≠ n := by omega
  simp only [if_pos (hres _)]

/-- What can be linked: the name is short enough, and the inode number is one. -/
def Link.Ok (l : Link) : Prop :=
  l.name.chars.length ≤ EXT2_NAME_LEN ∧ 0 < l.iNo ∧ l.iNo < 2 ^ 32

/-- A call returns 0 exactly if its name is not taken and the last entry has room. -/
theorem Holds.link_iff {l : Link} (h : Holds d lst off) (hfree : BlocksFree d) (hok : l.Ok) :
    (∃ d', dirlink d l.name l.iNo true l.stack = some (d', 0)) ↔
      ¬ Taken d l.name 0 l.stack.lookupDe lst.entries ∧
        LastRoom lst.last l.name.chars.length := by
  have hneg : ∀ d', ¬ some (d, (-1 : Int)) = some (d', 0) := by simp
  constructor
  · rintro ⟨d', hrun⟩
    by_cases htaken : Taken d l.name 0 l.stack.lookupDe lst.entries
    · rw [h.link_taken hok.1 htaken] at hrun
      exact absurd hrun (hneg d')
    · refine ⟨htaken, ?_⟩
      by_contra hfull
      rw [h.link_full hok.1 htaken hfull] at hrun
      exact absurd hrun (hneg d')
  · rintro ⟨hnot, hroom⟩
    obtain ⟨d', hrun, -⟩ := h.link_fits hfree hok.2.1 hok.2.2 hok.1 hnot hroom
    exact ⟨d', hrun⟩

/-- The state after a call that returns 0. -/
theorem Holds.afterLink {l : Link} (h : Holds d lst off) (hfree : BlocksFree d) (hok : l.Ok)
    (hnot : ¬ Taken d l.name 0 l.stack.lookupDe lst.entries)
    (hroom : LastRoom lst.last l.name.chars.length) :
    Holds (DirLink.afterLink d l) (lst.add l.name.chars l.iNo)
      (off + (keptPart lst.last).recLen) := by
  obtain ⟨d', hrun, hholds⟩ := h.link_fits hfree hok.2.1 hok.2.2 hok.1 hnot hroom
  rw [DirLink.afterLink, hrun]
  exact hholds

/-! ## Many calls -/

variable {l : Link} {ls : List Link}

theorem Holds.allLinked_iff (h : Holds d lst off) (hblocks : BlocksRemain d ls)
    (hok : ∀ l ∈ ls, l.Ok) : AllLinked d ls ↔ AllFit d lst ls := by
  induction ls generalizing d lst off with
  | nil => exact Iff.rfl
  | cons l ls ih =>
    obtain ⟨hfree, hblocks⟩ := hblocks
    have hokl := hok l List.mem_cons_self
    have hrest := fun l' hl' => hok l' (List.mem_cons_of_mem l hl')
    simp only [AllLinked, AllFit, h.link_iff hfree hokl, and_assoc]
    refine and_congr_right fun hnot => and_congr_right fun hroom => ?_
    exact ih (h.afterLink hfree hokl hnot hroom) hblocks hrest

/-- The calls that fit leave a directory that holds all their names. -/
theorem Holds.afterLinks (h : Holds d lst off) (hblocks : BlocksRemain d ls)
    (hok : ∀ l ∈ ls, l.Ok) (hfit : AllFit d lst ls) :
    ∃ off', Holds (ls.foldl DirLink.afterLink d) (listed lst ls) off' := by
  induction ls generalizing d lst off with
  | nil => exact ⟨off, h⟩
  | cons l ls ih =>
    obtain ⟨hfree, hblocks⟩ := hblocks
    obtain ⟨hnot, hroom, hfit⟩ := hfit
    exact ih (h.afterLink hfree (hok l List.mem_cons_self) hnot hroom) hblocks
      (fun l' hl' => hok l' (List.mem_cons_of_mem l hl')) hfit

theorem named_add (lst : Listing) (chars : List UInt8) (iNo : Nat) :
    named (lst.add chars iNo).entries = named lst.entries ++ [(chars, iNo)] := by
  simp [named, Listing.add, Listing.entries, keptPart]

/-- A name that is there stays there, with the same number. -/
theorem lookup_listed (ls : List Link) {chars : List UInt8}
    (h : (named lst.entries).lookup chars = some iNo) :
    (named (listed lst ls).entries).lookup chars = some iNo := by
  induction ls generalizing lst with
  | nil => exact h
  | cons l ls ih =>
    refine ih ?_
    rw [named_add, List.lookup_append, h]
    rfl

theorem Holds.own (h : Holds d lst off) (hblocks : BlocksRemain d ls) (hok : ∀ l ∈ ls, l.Ok)
    (hfit : AllFit d lst ls) (hl : l ∈ ls) :
    (named (listed lst ls).entries).lookup l.name.chars = some l.iNo := by
  induction ls generalizing d lst off with
  | nil => cases hl
  | cons x ls ih =>
    obtain ⟨hfree, hblocks⟩ := hblocks
    obtain ⟨hnot, hroom, hfit⟩ := hfit
    rcases List.mem_cons.mp hl with rfl | hl
    · have hadded : (named (lst.add l.name.chars l.iNo).entries).lookup l.name.chars =
          some l.iNo := by
        rw [named_add, List.lookup_append, lookup_of_not_taken h.allStored hnot]
        simp
      exact lookup_listed ls hadded
    · exact ih (h.afterLink hfree (hok x List.mem_cons_self) hnot hroom) hblocks
        (fun l' hl' => hok l' (List.mem_cons_of_mem x hl')) hfit hl

/-- From any listing: the calls are right exactly if each fits, and no name is misled at the end. -/
theorem Holds.grows_iff (h : Holds d lst off) (hblocks : BlocksRemain d ls)
    (hok : ∀ l ∈ ls, l.Ok) :
    Grows d ls ↔ AllFit d lst ls ∧ ∀ l ∈ ls, ∀ tmpDe,
      ¬ Misled (ls.foldl DirLink.afterLink d) l.name l.iNo 0 tmpDe (listed lst ls).entries := by
  rw [Grows, h.allLinked_iff hblocks hok]
  refine and_congr_right fun hfit => ?_
  obtain ⟨off', hend⟩ := h.afterLinks hblocks hok hfit
  refine forall₂_congr fun l hl => forall_congr' fun tmpDe => ?_
  rw [hend.dirlookup (hok l hl).1, Option.some.injEq,
    firstHit_own hend.allStored (h.own hblocks hok hfit hl)]

/-! ## A directory of `create` -/

def dot : Name := ⟨[46], by decide⟩

def dotdot : Name := ⟨[46, 46], by decide⟩

/-- What `create` leaves in a new directory: an inode of size 0, with `.` and `..` linked. -/
def MadeByCreate (iNo dpNo : Nat) (d : Dir) : Prop :=
  ∃ data st1 st2 d1,
    dirlink ⟨0, data, by decide⟩ dot iNo true st1 = some (d1, 0) ∧
      dirlink d1 dotdot dpNo true st2 = some (d, 0)

/-- The entries of a new directory. -/
def created (iNo dpNo : Nat) : Listing :=
  { packed := [⟨iNo, 12, dot.chars⟩], last := ⟨dpNo, BLKSIZE - 12, dotdot.chars⟩ }

variable {dpNo : Nat}

/-- The first entry of an empty directory takes a whole block. -/
theorem link_empty (data : Bytes) (name : Name) (st : Stack) (hpos : 0 < iNo) (hiNo : iNo < 2 ^ 32)
    (hname : name.chars.length ≤ EXT2_NAME_LEN) :
    ∃ d', dirlink ⟨0, data, by decide⟩ name iNo true st = some (d', 0) ∧
      Holds d' ⟨[], ⟨iNo, BLKSIZE, name.chars⟩⟩ 0 ∧ d'.iSize = BLKSIZE := by
  have hde : sizeofDe = 8 := rfl
  have hnl : EXT2_NAME_LEN = 255 := rfl
  have hblk : BLKSIZE = 4096 := rfl
  have hlookup : dirlookup ⟨0, data, by decide⟩ name st.lookupDe = some none := by
    rw [dirlookup, if_pos hname, dirlookupLoop, if_neg (by simp)]
  have hloop : roomLoop ⟨0, data, by decide⟩ name.chars.length 0 st.tmpDe = some (0, st.tmpDe) := by
    rw [roomLoop, if_neg (by simp)]
  obtain ⟨d', hw, hsize, hdata⟩ := writei_room (d := ⟨0, data, by decide⟩)
    (setRecLen (fillDe st.newDe name iNo) BLKSIZE) (n := BLKSIZE) (by decide) (Nat.le_refl 0)
    (by decide)
  have hsize : d'.iSize = BLKSIZE := hsize
  refine ⟨d', ?_, ?_, hsize⟩
  · simp [dirlink, hlookup, hloop, hw]
  · have hat : entryAt d'.data 0 = ⟨iNo, BLKSIZE, name.chars⟩ := by
      rw [hdata]
      exact entryAt_splice (entryAt_fillDe st.newDe BLKSIZE hiNo hname)
        (by show sizeofDe + name.chars.length ≤ BLKSIZE; omega)
    have hkept := kept_bounds ⟨iNo, BLKSIZE, name.chars⟩
    have hsmall : (keptPart ⟨iNo, BLKSIZE, name.chars⟩).recLen ≤ BLKSIZE := by
      have hlen : (⟨iNo, BLKSIZE, name.chars⟩ : DirEntry).name = name.chars := rfl
      rw [hlen] at hkept
      omega
    exact
      { packed := rfl
        stored := ⟨hat, Nat.ne_of_gt hpos, hname, by rw [Nat.zero_add, hsize]; exact hsmall⟩
        aligned := by show 4 ∣ BLKSIZE; decide
        ends := .inl ⟨hsmall, by rw [hsize, Nat.zero_add]⟩ }

theorem blocksFree_of_block (h : d.iSize = BLKSIZE) : BlocksFree d := by
  rw [BlocksFree, blocksEnd, h]
  decide

theorem keptPart_dot (iNo : Nat) :
    keptPart ⟨iNo, BLKSIZE, dot.chars⟩ = ⟨iNo, 12, dot.chars⟩ := by
  have hlen : alignaddrUp (sizeofDe + dot.chars.length) 4 = 12 := by decide
  rw [keptPart, hlen]

theorem add_dotdot (iNo dpNo : Nat) :
    Listing.add ⟨[], ⟨iNo, BLKSIZE, dot.chars⟩⟩ dotdot.chars dpNo = created iNo dpNo := by
  simp only [Listing.add, keptPart_dot]
  rfl

theorem dotdot_short : dotdot.chars.length ≤ EXT2_NAME_LEN := by decide

/-- A directory of `create` holds `.` and `..`. -/
theorem MadeByCreate.holds (h : MadeByCreate iNo dpNo d) (hpos : 0 < iNo) (hiNo : iNo < 2 ^ 32)
    (hdpos : 0 < dpNo) (hdpNo : dpNo < 2 ^ 32) : Holds d (created iNo dpNo) 12 := by
  obtain ⟨data, st1, st2, d1, hdot, hdotdot⟩ := h
  obtain ⟨d1', hrun, hholds, hsize⟩ := link_empty data dot st1 hpos hiNo (by decide)
  cases hdot.symm.trans hrun
  have hok : Link.Ok ⟨dotdot, dpNo, st2⟩ := ⟨dotdot_short, hdpos, hdpNo⟩
  have hfree := blocksFree_of_block hsize
  obtain ⟨hnot, hroom⟩ := (hholds.link_iff hfree hok).mp ⟨d, hdotdot⟩
  obtain ⟨d', hrun', hlinked⟩ := hholds.link_fits hfree hdpos hdpNo dotdot_short hnot hroom
  cases hdotdot.symm.trans hrun'
  rw [add_dotdot, keptPart_dot] at hlinked
  exact hlinked

/-- Only names of which one begins the other pass for each other. -/
theorem PassesFor.begins (h : PassesFor name e de) : e.name <+: name.chars ∨ name.chars <+: e.name := by
  rcases h with hruns | hlong
  · exact .inl hruns.begins
  · exact .inr ((List.prefix_append name.chars [0]).trans hlong)

theorem not_taken (h : ∀ e ∈ es, ¬ e.name <+: name.chars ∧ ¬ name.chars <+: e.name) :
    ¬ Taken d name off tmpDe es := by
  induction es generalizing off tmpDe with
  | nil => exact fun hnone => hnone
  | cons e es ih =>
    obtain ⟨hno, hno'⟩ := h e List.mem_cons_self
    rintro (⟨-, hsame | hpass⟩ | hrest)
    · exact hno (hsame ▸ List.prefix_rfl)
    · exact hpass.begins.elim hno hno'
    · exact ih (fun e' he' => h e' (List.mem_cons_of_mem e he')) hrest

theorem not_misled (h : ∀ e ∈ es, e.name = name.chars ∧ e.inode ≠ 0 ∨
    ¬ e.name <+: name.chars ∧ ¬ name.chars <+: e.name) : ¬ Misled d name iNo off tmpDe es := by
  induction es generalizing off tmpDe with
  | nil => exact fun hnone => hnone
  | cons e es ih =>
    rintro ⟨hnot, hpass | ⟨-, hrest⟩⟩
    · rcases h e List.mem_cons_self with ⟨hsame, hlive⟩ | ⟨hno, hno'⟩
      · exact hnot ⟨hlive, hsame⟩
      · exact hpass.2.1.begins.elim hno hno'
    · exact ih (fun e' he' => h e' (List.mem_cons_of_mem e he')) hrest

/-- Buffers that are all zero. -/
def blank : Stack := ⟨fun _ => 0, fun _ => 0, fun _ => 0⟩

instance (d : Dir) (l : Link) : Decidable (∃ d', dirlink d l.name l.iNo true l.stack = some (d', 0)) :=
  decidable_of_iff (∃ r ∈ dirlink d l.name l.iNo true l.stack, r.2 = 0) (by
    simp only [Prod.exists, Option.mem_def, exists_eq_right])

instance decidableAllLinked : (ls : List Link) → (d : Dir) → Decidable (AllLinked d ls)
  | [], _ => isTrue trivial
  | l :: ls, d =>
    have := decidableAllLinked ls (afterLink d l)
    inferInstanceAs (Decidable (_ ∧ _))

instance decidableBlocksRemain : (ls : List Link) → (d : Dir) → Decidable (BlocksRemain d ls)
  | [], _ => isTrue trivial
  | l :: ls, d =>
    have := decidableBlocksRemain ls (afterLink d l)
    inferInstanceAs (Decidable ((_ : Nat) ≤ _ ∧ _))

/-- A directory of `create`, in blank memory. -/
theorem exists_made {p : Dir → Prop} (h : ∃ r ∈ dirlink ⟨0, fun _ => 0, by decide⟩ dot 11 true blank,
    r.2 = 0 ∧ ∃ r' ∈ dirlink r.1 dotdot 2 true blank, r'.2 = 0 ∧ p r'.1) :
    ∃ d, MadeByCreate 11 2 d ∧ p d := by
  obtain ⟨⟨d1, -⟩, hdot, rfl, ⟨d, -⟩, hdotdot, rfl, hp⟩ := h
  exact ⟨d, ⟨_, _, _, d1, hdot, hdotdot⟩, hp⟩

/-- In a directory of `create`, calls of `dirlink` return 0 and their names are found with their
    inode numbers if and only if each name is not taken when it is linked, the last entry has room
    for it, and no entry passes for it in the end. -/
theorem dirlink_grows (hmade : MadeByCreate iNo dpNo d) (hpos : 0 < iNo) (hiNo : iNo < 2 ^ 32)
    (hdpos : 0 < dpNo) (hdpNo : dpNo < 2 ^ 32) (hblocks : BlocksRemain d ls)
    (hok : ∀ l ∈ ls, l.Ok) :
    Grows d ls ↔ AllFit d (created iNo dpNo) ls ∧ ∀ l ∈ ls, ∀ tmpDe,
      ¬ Misled (ls.foldl DirLink.afterLink d) l.name l.iNo 0 tmpDe
        (listed (created iNo dpNo) ls).entries :=
  (hmade.holds hpos hiNo hdpos hdpNo).grows_iff hblocks hok

/-- Three names, none of which another one begins. -/
def threeLinks : List Link :=
  [⟨⟨[98, 105, 110], by decide⟩, 12, blank⟩, ⟨⟨[100, 101, 118], by decide⟩, 13, blank⟩,
    ⟨⟨[101, 116, 99], by decide⟩, 14, blank⟩]

theorem dirlink_grows_three : ∃ d, MadeByCreate 11 2 d ∧ Grows d threeLinks := by
  obtain ⟨d, hmade, hblocks⟩ := exists_made (p := fun d => BlocksRemain d threeLinks)
    (by decide +kernel)
  have hok : ∀ l ∈ threeLinks, l.Ok := by
    simp only [threeLinks, List.forall_mem_cons, Link.Ok]
    decide
  refine ⟨d, hmade, (dirlink_grows hmade (by decide) (by decide) (by decide) (by decide) hblocks
    hok).mpr ⟨⟨not_taken ?_, .inr ?_, not_taken ?_, .inr ?_, not_taken ?_, .inr ?_, trivial⟩, ?_⟩⟩
  iterate 6 decide
  · intro l hl tmpDe
    refine not_misled ?_
    revert l hl
    decide

/-! ## Sixteen names -/

/-- A name of 255 times the same letter. -/
def longName (i : Nat) : Name where
  chars := List.replicate EXT2_NAME_LEN (UInt8.ofNat (97 + i % 26))
  nul := by
    intro hmem
    have hzero := congrArg UInt8.toNat (List.eq_of_mem_replicate hmem)
    simp at hzero
    omega

def longLinks (n : Nat) : List Link := (List.range n).map fun i => ⟨longName i, 12 + i, blank⟩

/-- Sixteen names of 255 letters do not go into a new directory, however empty the disk is. -/
theorem dirlink_stops_at_block : ¬ ∀ d iNo dpNo ls, MadeByCreate iNo dpNo d →
    0 < iNo → iNo < 2 ^ 32 → 0 < dpNo → dpNo < 2 ^ 32 → BlocksRemain d ls → (∀ l ∈ ls, l.Ok) →
    (ls.map fun l => l.name.chars).Nodup →
    (∀ l ∈ ls, l.name.chars ≠ dot.chars ∧ l.name.chars ≠ dotdot.chars) → Grows d ls := by
  intro hall
  -- the fifteenth entry keeps 376 bytes, and two names of 255 letters want 526
  obtain ⟨d, hmade, hblocks, hstops⟩ := exists_made
    (p := fun d => BlocksRemain d (longLinks 16) ∧ ¬ AllLinked d (longLinks 16)) (by decide +kernel)
  have hgrows := hall d 11 2 (longLinks 16) hmade (by decide) (by decide) (by decide) (by decide)
    hblocks (by unfold Link.Ok; decide +kernel) (by decide +kernel) (by decide +kernel)
  exact hstops hgrows.1

end Uniks.DirLink
