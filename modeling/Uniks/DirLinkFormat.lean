/-
  What `dirlink` does to the format of a directory.

  The loops of `dirlookup` and `dirlink` walk the entries of a well-formed directory one by one, so
  the place `dirlink` stops at is the first entry whose unused end is long enough (`firstFit`).  The
  test there counts the bytes of the two names as they are; the entries that are then written are
  rounded up to a multiple of four.  Where both entries still fit, the directory is as it should
  be.  Where they do not, the new entry takes four bytes of what follows it.
-/
import Uniks.DirLink

namespace Uniks.DirLink

open Uniks.ByteMem
open Option (some)

variable {d : Dir} {off : Nat} {e : DirEntry} {es : List DirEntry} {de : Bytes}

/-! ## The loops -/

theorem deInode_of_entryAt (h : entryAt de 0 = e) : deInode de = e.inode :=
  congrArg DirEntry.inode h

theorem deRecLen_of_entryAt (h : entryAt de 0 = e) : deRecLen de = e.recLen :=
  congrArg DirEntry.recLen h

theorem deNameLen_of_entryAt (h : entryAt de 0 = e) : deNameLen de = e.name.length := by
  rw [← h, length_entryAt, Nat.zero_add, deNameLen]

theorem recLen_entryAt_lt (data : Bytes) (off : Nat) : (entryAt data off).recLen < 2 ^ 16 :=
  getLE_lt data (off + 4) 2

/-- `readi` puts a whole entry into a buffer: its name is no longer than the buffer holds. -/
theorem entryAt_readi_short (dst : Bytes) (he : entryAt d.data off = e)
    (hshort : e.name.length ≤ EXT2_NAME_LEN) (hend : off + (sizeofDe + e.name.length) ≤ d.iSize) :
    entryAt (readi d dst off EXT2_DIRENTRY_MAXSIZE) 0 = e := by
  have hde : sizeofDe = 8 := rfl
  have hmax : EXT2_DIRENTRY_MAXSIZE = 263 := rfl
  have hnl : EXT2_NAME_LEN = 255 := rfl
  have hsrc : entryAt (fun k => d.data (off + k)) 0 = e := by
    rw [← he]
    refine entryAt_congr fun k _ => ?_
    rw [Nat.zero_add]
  unfold readi
  rw [if_neg (by omega)]
  exact entryAt_splice hsrc (by omega)

/-- What `readi` puts into a buffer for one entry of a well-formed directory. -/
theorem entryAt_readi (dst : Bytes) (he : entryAt d.data off = e) (hok : EntryOk off e)
    (hend : off + e.recLen ≤ d.iSize) :
    entryAt (readi d dst off EXT2_DIRENTRY_MAXSIZE) 0 = e := by
  have hroom := hok.room
  exact entryAt_readi_short dst he hok.short (by omega)

/-- The test of `dirlink`, without the wrap-around of its subtraction. -/
theorem hasRoom_iff (namelen : Nat) (he : entryAt de 0 = e) (hok : EntryOk off e) :
    hasRoom namelen de = true ↔
      e.inode ≠ 0 ∧ sizeofDe + e.name.length + (sizeofDe + namelen) ≤ e.recLen := by
  have hroom := hok.room
  have hlt : e.recLen < 2 ^ 16 := he ▸ recLen_entryAt_lt de 0
  have hsub : (e.recLen + 2 ^ 64 - (sizeofDe + e.name.length)) % 2 ^ 64
      = e.recLen - (sizeofDe + e.name.length) := by omega
  rw [hasRoom, deInode_of_entryAt he, deRecLen_of_entryAt he, deNameLen_of_entryAt he, hsub,
    Bool.and_eq_true, bne_iff_ne, decide_eq_true_eq]
  omega

/-- `dirlookup` gets to the end of a well-formed directory. -/
theorem dirlookupLoop_ends (name : Name) (tmpDe : Bytes) (h : Tiles d.data off es d.iSize) :
    ∃ found, dirlookupLoop d name off tmpDe = some found := by
  induction es generalizing off tmpDe with
  | nil =>
    have hoff : off = d.iSize := h
    rw [dirlookupLoop, if_neg (by omega)]
    exact ⟨none, rfl⟩
  | cons e es ih =>
    obtain ⟨he, hok, hes⟩ := h
    have hroom := hok.room
    have hde : sizeofDe = 8 := rfl
    have hle := hes.le
    have hread := entryAt_readi tmpDe he hok hle
    have hrec := deRecLen_of_entryAt hread
    rw [dirlookupLoop, if_pos (by omega)]
    simp only
    by_cases hm : matchesName name (readi d tmpDe off EXT2_DIRENTRY_MAXSIZE)
    · rw [if_pos hm]
      exact ⟨_, rfl⟩
    · rw [if_neg hm, if_neg (by omega), hrec]
      exact ih _ hes

/-- Where no entry has room, the loop of `dirlink` goes to the end. -/
theorem roomLoop_of_none {namelen : Nat} (tmpDe : Bytes) (h : Tiles d.data off es d.iSize)
    (hfit : firstFit namelen off es = none) :
    ∃ de1, roomLoop d namelen off tmpDe = some (d.iSize, de1) := by
  induction es generalizing off tmpDe with
  | nil =>
    have hoff : off = d.iSize := h
    subst hoff
    rw [roomLoop, if_neg (by omega)]
    exact ⟨tmpDe, rfl⟩
  | cons e es ih =>
    obtain ⟨he, hok, hes⟩ := h
    have hroom := hok.room
    have hde : sizeofDe = 8 := rfl
    have hle := hes.le
    have hread := entryAt_readi tmpDe he hok hle
    have hrec := deRecLen_of_entryAt hread
    rw [firstFit] at hfit
    split at hfit
    · exact (nomatch hfit)
    · rename_i hno
      rw [roomLoop, if_pos (by omega)]
      simp only
      rw [if_neg (mt (hasRoom_iff namelen hread hok).mp hno), if_neg (by omega), hrec]
      exact ih _ hes hfit

/-- Otherwise it stops at the first that has, with that entry in its buffer. -/
theorem roomLoop_of_some {namelen off' : Nat} (tmpDe : Bytes) (h : Tiles d.data off es d.iSize)
    (hfit : firstFit namelen off es = some (off', e)) :
    ∃ de1, roomLoop d namelen off tmpDe = some (off', de1) ∧ entryAt de1 0 = e := by
  induction es generalizing off tmpDe with
  | nil => exact (nomatch hfit)
  | cons x es ih =>
    obtain ⟨he, hok, hes⟩ := h
    have hroom := hok.room
    have hde : sizeofDe = 8 := rfl
    have hle := hes.le
    have hread := entryAt_readi tmpDe he hok hle
    have hrec := deRecLen_of_entryAt hread
    rw [roomLoop, if_pos (by omega)]
    simp only
    rw [firstFit] at hfit
    split at hfit
    · rename_i hyes
      rw [if_pos ((hasRoom_iff namelen hread hok).mpr hyes)]
      cases hfit
      exact ⟨_, rfl, hread⟩
    · rename_i hno
      rw [if_neg (mt (hasRoom_iff namelen hread hok).mp hno), if_neg (by omega), hrec]
      exact ih _ hes hfit

/-- The entry with room divides the directory. -/
theorem firstFit_split {data : Bytes} {namelen lo hi : Nat} (h : Tiles data lo es hi)
    (hfit : firstFit namelen lo es = some (off, e)) :
    ∃ pre post, es = pre ++ e :: post ∧ Tiles data lo pre off ∧ Tiles data off (e :: post) hi ∧
      e.inode ≠ 0 ∧ sizeofDe + e.name.length + (sizeofDe + namelen) ≤ e.recLen := by
  induction es generalizing lo with
  | nil => exact (nomatch hfit)
  | cons x es ih =>
    rw [firstFit] at hfit
    split at hfit
    · rename_i hyes
      cases hfit
      exact ⟨[], es, rfl, rfl, h, hyes⟩
    · obtain ⟨pre, post, hes, hpre, hpost, hyes⟩ := ih h.2.2 hfit
      exact ⟨x :: pre, post, congrArg _ hes, ⟨h.1, h.2.1, hpre⟩, hpost, hyes⟩

/-! ## The writes -/

theorem le_alignaddrUp_four (n : Nat) : n ≤ alignaddrUp n 4 := by
  rw [alignaddrUp_four]
  omega

theorem blocksEnd_eq (d : Dir) :
    blocksEnd d = d.iSize + (BLKSIZE - 1) - (d.iSize + (BLKSIZE - 1)) % BLKSIZE := by
  unfold blocksEnd alignaddrUp
  exact if_pos (by decide)

theorem le_blocksEnd (d : Dir) : d.iSize ≤ blocksEnd d := by
  have hblk : BLKSIZE = 4096 := rfl
  rw [blocksEnd_eq, hblk]
  omega

theorem blocksEnd_of_dvd (h : d.iSize % BLKSIZE = 0) : blocksEnd d = d.iSize := by
  have hblk : BLKSIZE = 4096 := rfl
  rw [hblk] at h
  rw [blocksEnd_eq, hblk]
  omega

/-- A started block has room for four more bytes. -/
theorem lt_blocksEnd (h : d.iSize % BLKSIZE ≠ 0) (h4 : 4 ∣ d.iSize) :
    d.iSize + 4 ≤ blocksEnd d := by
  have hblk : BLKSIZE = 4096 := rfl
  rw [hblk] at h
  rw [blocksEnd_eq, hblk]
  omega

theorem maxSize_le : 2 ^ 33 ≤ EXT2_MAX_FBLKS * BLKSIZE := by decide

/-- A write within the file. -/
theorem writei_inside (room : Bool) (src : Bytes) {n : Nat} (hn : 0 < n)
    (hend : off + n ≤ d.iSize) :
    writei d room src off n = ({ d with data := splice d.data off n src }, (n : Int)) := by
  have hsmall := d.small
  have hmax := maxSize_le
  have htot : written d room off n = n := by
    have hblk := le_blocksEnd d
    unfold written
    split
    · rfl
    · omega
  unfold writei
  rw [if_neg (by omega)]
  simp only [htot]
  rw [if_neg (by omega), if_neg (by omega)]

/-- A write that goes beyond the end. -/
theorem writei_beyond (room : Bool) (src : Bytes) {n : Nat} (hoff : off ≤ d.iSize)
    (hend : d.iSize < off + n) (hn : n ≤ 2 ^ 32) (hroom : room = true ∨ off + n ≤ blocksEnd d) :
    writei d room src off n = (⟨(off + n) % 2 ^ 32, splice d.data off n src,
      Nat.mod_lt _ (by decide)⟩, (n : Int)) := by
  have hsmall := d.small
  have hmax := maxSize_le
  have htot : written d room off n = n := by
    unfold written
    split
    · rfl
    · rename_i hno
      have hblk := hroom.resolve_left hno
      omega
  unfold writei
  rw [if_neg (by omega)]
  simp only [htot]
  rw [if_pos hend, if_neg (by omega)]

/-- A write that stops at the end of the last block, for want of another one. -/
theorem writei_stopped (src : Bytes) {n : Nat} (hoff : off ≤ d.iSize) (hend : d.iSize < off + n)
    (hn : n ≤ 2 ^ 32) (hblk : d.iSize % BLKSIZE = 0) :
    writei d false src off n = ({ d with data := splice d.data off (d.iSize - off) src },
      if d.iSize - off = 0 then - EIO else ((d.iSize - off : Nat) : Int)) := by
  have hsmall := d.small
  have hmax := maxSize_le
  have htot : written d false off n = d.iSize - off := by
    unfold written
    rw [if_neg Bool.false_ne_true, blocksEnd_of_dvd hblk]
    omega
  unfold writei
  rw [if_neg (by omega)]
  simp only [htot]
  rw [if_neg (by omega)]

/-- A write that starts behind the end. -/
theorem writei_behind (room : Bool) (src : Bytes) {n : Nat} (hoff : d.iSize < off) :
    writei d room src off n = (d, -1) := if_pos (.inl hoff)

/-! ## The new entries -/

/-- The entry that keeps its name and gives up the rest. -/
def keptPart (e : DirEntry) : DirEntry :=
  { e with recLen := alignaddrUp (sizeofDe + e.name.length) 4 }

/-- The entry that takes what the other gives up. -/
def newPart (e : DirEntry) (name : Name) (iNo : Nat) : DirEntry :=
  { inode := iNo, recLen := e.recLen - alignaddrUp (sizeofDe + e.name.length) 4,
    name := name.chars }

theorem kept_recLen (e : DirEntry) :
    (keptPart e).recLen = (sizeofDe + e.name.length + 3) / 4 * 4 := alignaddrUp_four _

/-- The size of an entry without slack: what its name needs, rounded up. -/
theorem kept_bounds (e : DirEntry) : 4 ∣ (keptPart e).recLen ∧
    sizeofDe + e.name.length ≤ (keptPart e).recLen ∧
      (keptPart e).recLen < sizeofDe + e.name.length + 4 := by
  rw [kept_recLen]
  omega

/-- The kept part fits into what was there. -/
theorem recLen_keptPart_le (hok : EntryOk off e) : (keptPart e).recLen ≤ e.recLen := by
  have hroom := hok.room
  have h4 := hok.aligned
  rw [kept_recLen]
  omega

theorem entryAt_setRecLen {v : Nat} (h : entryAt de 0 = e) :
    entryAt (setRecLen de v) 0 = { e with recLen := v % 2 ^ 16 } := by
  have hhead : ∀ p w, p + w ≤ 4 ∨ 6 ≤ p → getLE (setRecLen de v) p w = getLE de p w := by
    intro p w hp
    exact getLE_setLE_of_disjoint de v (by omega)
  have hname : ∀ k, setRecLen de v (sizeofDe + k) = de (sizeofDe + k) := by
    intro k
    have hde : sizeofDe = 8 := rfl
    exact splice_of_not_mem (by omega)
  have hrec : getLE (setRecLen de v) 4 2 = v % 2 ^ 16 := getLE_setLE_self de 4 2 v
  subst h
  unfold entryAt
  simp only [Nat.zero_add]
  simp only [hname]
  rw [hhead 0 4 (by decide), hhead 6 2 (by decide), hrec]

/-- The first entry `dirlink` writes, byte by byte. -/
theorem newPart_bytes (de2 : Bytes) (name : Name) (iNo : Nat) {v r k : Nat}
    (hv : v % 2 ^ 16 = r % 2 ^ 16) (hk : k < sizeofDe + name.chars.length) :
    setRecLen (fillDe de2 name iNo) v k = entryBytes ⟨iNo, r, name.chars⟩ k := by
  have hde : sizeofDe = 8 := rfl
  have hlen : setRecLen (fillDe de2 name iNo) v = setRecLen (fillDe de2 name iNo) r := by
    have hv : v % 256 ^ 2 = r % 256 ^ 2 := hv
    rw [setRecLen, setRecLen, ← setLE_mod, hv, setLE_mod]
  rw [hlen]
  show setLE (splice (setLE (setLE de2 0 4 iNo) 6 2 _) sizeofDe _ _) 4 2 r k =
    splice (setLE (setLE (setLE _ 0 4 iNo) 6 2 _) 4 2 r) sizeofDe _ _ k
  by_cases hname : sizeofDe ≤ k
  · rw [setLE, splice_of_not_mem (by omega), splice_of_mem hname hk, splice_of_mem hname hk]
    rfl
  · rw [splice_of_not_mem (m := setLE (setLE _ 6 2 _) 4 2 r) (by omega)]
    unfold setLE
    by_cases hrec : 4 ≤ k ∧ k < 4 + 2
    · rw [splice_of_mem hrec.1 hrec.2, splice_of_mem hrec.1 hrec.2]
    · rw [splice_of_not_mem hrec, splice_of_not_mem hrec,
        splice_of_not_mem (m := splice _ 6 2 _) (by omega)]
      by_cases hnl : 6 ≤ k ∧ k < 6 + 2
      · rw [splice_of_mem hnl.1 hnl.2, splice_of_mem hnl.1 hnl.2]
      · rw [splice_of_not_mem hnl, splice_of_not_mem hnl,
          splice_of_mem (by omega) (by omega), splice_of_mem (by omega) (by omega)]

/-- The buffer of the new entry holds that entry, with its length cut to 16 bits. -/
theorem entryAt_fillDe (de2 : Bytes) {name : Name} {iNo : Nat} (v : Nat) (hiNo : iNo < 2 ^ 32)
    (hname : name.chars.length ≤ EXT2_NAME_LEN) :
    entryAt (setRecLen (fillDe de2 name iNo) v) 0 = ⟨iNo, v % 2 ^ 16, name.chars⟩ := by
  have hnl : EXT2_NAME_LEN = 255 := rfl
  have hcodec : entryAt (entryBytes ⟨iNo, v % 2 ^ 16, name.chars⟩) 0 =
      ⟨iNo, v % 2 ^ 16, name.chars⟩ :=
    entryAt_entryBytes hiNo (Nat.mod_lt _ (by decide))
      (by show name.chars.length < 2 ^ 16; omega)
  rw [← hcodec]
  refine entryAt_congr fun k hk => ?_
  rw [hcodec] at hk
  rw [Nat.zero_add]
  exact newPart_bytes de2 name iNo (Nat.mod_mod v _).symm hk

/-- The bytes after both writes of `dirlink`. -/
def inserted (data : Bytes) (off k n : Nat) (de1 de2 : Bytes) : Bytes :=
  splice (splice data (off + k) n de2) off k de1

/-- What the two writes leave: the entry that is split, the new one, and the rest as it was. -/
theorem inserted_entries (data : Bytes) {de1 : Bytes} {name : Name} {iNo n : Nat} (v : Nat)
    (de2 : Bytes) (hiNo : iNo < 2 ^ 32) (hname : name.chars.length ≤ EXT2_NAME_LEN)
    (he : entryAt de1 0 = e) (hshort : e.name.length ≤ EXT2_NAME_LEN)
    (hn : sizeofDe + name.chars.length ≤ n) :
    let data' := inserted data off (keptPart e).recLen n (setRecLen de1 (keptPart e).recLen)
      (setRecLen (fillDe de2 name iNo) v)
    entryAt data' off = keptPart e ∧
      entryAt data' (off + (keptPart e).recLen) = ⟨iNo, v % 2 ^ 16, name.chars⟩ ∧
      ∀ k, ¬ (off ≤ k ∧ k < off + (keptPart e).recLen + n) → data' k = data k := by
  intro data'
  have hkept := kept_bounds e
  have hde : sizeofDe = 8 := rfl
  have hnl : EXT2_NAME_LEN = 255 := rfl
  have hkeptLt : (keptPart e).recLen < 2 ^ 16 := by omega
  refine ⟨?_, ?_, ?_⟩
  · refine entryAt_splice ?_ hkept.2.1
    rw [entryAt_setRecLen he, Nat.mod_eq_of_lt hkeptLt]
    rfl
  · have hbuf := entryAt_fillDe de2 v hiNo hname
    rw [← hbuf]
    refine entryAt_congr fun k hk => ?_
    rw [hbuf] at hk
    have hk : k < sizeofDe + name.chars.length := hk
    show splice _ off _ _ _ = _
    rw [splice_of_not_mem (by omega), splice_add (by omega), Nat.zero_add]
  · intro k hk
    show splice _ off _ _ k = _
    rw [splice_of_not_mem (by omega), splice_of_not_mem (by omega)]

/-- In a well-formed directory the two writes share out what the split entry had. -/
theorem inserted_spec (data : Bytes) {de1 : Bytes} {name : Name} {iNo n v : Nat} (de2 : Bytes)
    (hiNo : iNo < 2 ^ 32) (hname : name.chars.length ≤ EXT2_NAME_LEN) (he : entryAt de1 0 = e)
    (hok : EntryOk off e) (hn : sizeofDe + name.chars.length ≤ n)
    (hv : v % 2 ^ 16 = (newPart e name iNo).recLen % 2 ^ 16) :
    let data' := inserted data off (keptPart e).recLen n (setRecLen de1 (keptPart e).recLen)
      (setRecLen (fillDe de2 name iNo) v)
    entryAt data' off = keptPart e ∧
      entryAt data' (off + (keptPart e).recLen) = newPart e name iNo ∧
      ∀ k, ¬ (off ≤ k ∧ k < off + (keptPart e).recLen + n) → data' k = data k := by
  have hlt : e.recLen < 2 ^ 16 := he ▸ recLen_entryAt_lt de1 0
  have hnewLt : (newPart e name iNo).recLen < 2 ^ 16 :=
    Nat.lt_of_le_of_lt (Nat.sub_le _ _) hlt
  have hnew : (⟨iNo, v % 2 ^ 16, name.chars⟩ : DirEntry) = newPart e name iNo := by
    rw [hv, Nat.mod_eq_of_lt hnewLt]
    rfl
  rw [← hnew]
  exact inserted_entries data v de2 hiNo hname he hok.short hn

theorem deNameLen_fillDe (de2 : Bytes) (name : Name) (iNo : Nat)
    (hname : name.chars.length ≤ EXT2_NAME_LEN) :
    deNameLen (fillDe de2 name iNo) = name.chars.length := by
  have hnl : EXT2_NAME_LEN = 255 := rfl
  have hde : sizeofDe = 8 := rfl
  have hfield : getLE (fillDe de2 name iNo) 6 2
      = getLE (setLE (setLE de2 0 4 iNo) 6 2 name.chars.length) 6 2 := by
    refine getLE_congr fun k hk => ?_
    exact splice_of_not_mem (by omega)
  rw [deNameLen, hfield, getLE_setLE_self]
  exact Nat.mod_eq_of_lt (by omega)

/-- The length `dirlink` gives to the new entry, as it is stored. -/
theorem newLen_mod (name : Name) (iNo : Nat) (hok : EntryOk off e) :
    (e.recLen + 2 ^ 64 - (keptPart e).recLen) % 2 ^ 16 = (newPart e name iNo).recLen % 2 ^ 16 := by
  have hkept := recLen_keptPart_le hok
  have hnew : (newPart e name iNo).recLen = e.recLen - (keptPart e).recLen := rfl
  rw [hnew]
  omega

/-- Both writes succeed. -/
theorem insertDe_of_written {room : Bool} {de1 de2 : Bytes} {d1 d2 : Dir} {n : Nat}
    (he : entryAt de1 0 = e) (hn : alignaddrUp (sizeofDe + deNameLen de2) 4 = n)
    (h1 : writei d room (setRecLen de2 (e.recLen + 2 ^ 64 - (keptPart e).recLen))
      (off + (keptPart e).recLen) n = (d1, (n : Int)))
    (h2 : writei d1 room (setRecLen de1 (keptPart e).recLen) off (keptPart e).recLen
      = (d2, ((keptPart e).recLen : Int))) :
    insertDe d room off de1 de2 = (d2, 0) := by
  have hk : alignaddrUp (sizeofDe + deNameLen de1) 4 = (keptPart e).recLen := by
    rw [deNameLen_of_entryAt he]
    rfl
  unfold insertDe
  simp only [hk, hn, deRecLen_of_entryAt he, h1, h2, ne_eq, not_true, if_false]

/-- The first write stops short. -/
theorem insertDe_of_short {room : Bool} {de1 de2 : Bytes} {d1 : Dir} {n : Nat} {res : Int}
    (he : entryAt de1 0 = e) (hn : alignaddrUp (sizeofDe + deNameLen de2) 4 = n)
    (h1 : writei d room (setRecLen de2 (e.recLen + 2 ^ 64 - (keptPart e).recLen))
      (off + (keptPart e).recLen) n = (d1, res)) (hres : res ≠ n) :
    insertDe d room off de1 de2 = (d1, -1) := by
  have hk : alignaddrUp (sizeofDe + deNameLen de1) 4 = (keptPart e).recLen := by
    rw [deNameLen_of_entryAt he]
    rfl
  unfold insertDe
  simp only [hk, hn, deRecLen_of_entryAt he, h1]
  exact if_pos hres

/-- The second one does. -/
theorem insertDe_of_short_second {room : Bool} {de1 de2 : Bytes} {d1 d2 : Dir} {n : Nat}
    {res : Int} (he : entryAt de1 0 = e) (hn : alignaddrUp (sizeofDe + deNameLen de2) 4 = n)
    (h1 : writei d room (setRecLen de2 (e.recLen + 2 ^ 64 - (keptPart e).recLen))
      (off + (keptPart e).recLen) n = (d1, (n : Int)))
    (h2 : writei d1 room (setRecLen de1 (keptPart e).recLen) off (keptPart e).recLen = (d2, res))
    (hres : res ≠ (keptPart e).recLen) : insertDe d room off de1 de2 = (d2, -1) := by
  have hk : alignaddrUp (sizeofDe + deNameLen de1) 4 = (keptPart e).recLen := by
    rw [deNameLen_of_entryAt he]
    rfl
  unfold insertDe
  simp only [hk, hn, deRecLen_of_entryAt he, h1, h2, ne_eq, not_true, if_false]
  exact if_pos hres

/-! ## `dirlink` -/

section Link

variable {name : Name} {iNo : Nat} {room : Bool} {st : Stack}

/-- What is wanted of a call of `dirlink`: after 0 the directory is well formed and the live entries
    are the old ones and the new one; after -1 it is unchanged. -/
def LinkOk (d : Dir) (es : List DirEntry) (name : Name) (iNo : Nat) (room : Bool) (st : Stack) :
    Prop :=
  ∃ d' res, dirlink d name iNo room st = some (d', res) ∧
    (res = 0 ∧ (∃ es', WellFormed d' es' ∧ (live es').Perm ((name.chars, iNo) :: live es)) ∨
      res = -1 ∧ d' = d)

/-- The entry `dirlink` stops at has room for both entries also after the rounding, or it ends the
    last block, there is no other block to be had, and all that gets written is there already. -/
def RoundedFit (d : Dir) (es : List DirEntry) (name : Name) (iNo : Nat) (room : Bool) : Prop :=
  ∀ off e, firstFit name.chars.length 0 es = some (off, e) →
    (keptPart e).recLen + (sizeofDe + name.chars.length) ≤ e.recLen ∨
      room = false ∧ off + e.recLen = d.iSize ∧ d.iSize % BLKSIZE = 0 ∧
        ∀ k, k < (newPart e name iNo).recLen →
          d.data (off + (keptPart e).recLen + k) = entryBytes (newPart e name iNo) k

theorem live_append (es es' : List DirEntry) : live (es ++ es') = live es ++ live es' := by
  simp [live]

theorem live_cons_of_ne (h : e.inode ≠ 0) (es : List DirEntry) :
    live (e :: es) = (e.name, e.inode) :: live es := by
  simp [live, h]

theorem Tiles.dvd {data : Bytes} {lo hi : Nat} (h : Tiles data lo es hi) (hlo : 4 ∣ lo) :
    4 ∣ hi := by
  induction es generalizing lo with
  | nil =>
    have hend : lo = hi := h
    exact hend ▸ hlo
  | cons e es ih => exact ih h.2.2 (Nat.dvd_add hlo h.2.1.aligned)

/-- An entry of that name, or one that passes for it. -/
theorem linkOk_of_found {i : Nat} (h : dirlookup d name st.lookupDe = some (some i)) :
    LinkOk d es name iNo room st := by
  refine ⟨d, -1, ?_, .inr ⟨rfl, rfl⟩⟩
  simp [dirlink, h]

/-- What `dirlink` does when there are entries, none of that name. -/
theorem dirlink_insert (name : Name) (iNo : Nat) (room : Bool) {de1 : Bytes}
    (h : dirlookup d name st.lookupDe = some none)
    (hroom : roomLoop d name.chars.length 0 st.tmpDe = some (off, de1)) (hsize : d.iSize ≠ 0) :
    dirlink d name iNo room st = some (insertDe d room off de1 (fillDe st.newDe name iNo)) := by
  simp [dirlink, h, hroom, hsize]

/-- The first entry of an empty directory takes a whole block. -/
theorem linkOk_of_empty (h : dirlookup d name st.lookupDe = some none) (hwf : WellFormed d es)
    (hsize : d.iSize = 0) (hiNo : iNo < 2 ^ 32) (hpos : 0 < iNo)
    (hname : name.chars.length ≤ EXT2_NAME_LEN) : LinkOk d es name iNo room st := by
  have hde : sizeofDe = 8 := rfl
  have hnl : EXT2_NAME_LEN = 255 := rfl
  have hblk : BLKSIZE = 4096 := rfl
  have hloop : roomLoop d name.chars.length 0 st.tmpDe = some (0, st.tmpDe) := by
    rw [roomLoop, if_neg (by omega)]
  have hes : es = [] := by
    match es, hwf with
    | [], _ => rfl
    | x :: _, hx =>
      have hle := hx.2.2.le
      have hx := hx.2.1.room
      omega
  subst hes
  cases room with
  | false =>
    have hw : writei d false (setRecLen (fillDe st.newDe name iNo) BLKSIZE) 0 BLKSIZE
        = (d, - EIO) := by
      have hnone : d.iSize - 0 = 0 := hsize
      have hmod : d.iSize % BLKSIZE = 0 := by rw [hsize, Nat.zero_mod]
      rw [writei_stopped _ (Nat.zero_le _) (by omega) (by decide) hmod, if_pos hnone]
      simp only [hnone, splice_zero]
    refine ⟨d, -1, ?_, .inr ⟨rfl, rfl⟩⟩
    have hres : ¬ (- EIO = 4096) := by decide
    simp [dirlink, h, hloop, hsize, hw, hres]
  | true =>
    have hw := writei_beyond true (setRecLen (fillDe st.newDe name iNo) BLKSIZE)
      (Nat.zero_le d.iSize) (show d.iSize < 0 + BLKSIZE by omega) (by decide) (.inl rfl)
    have hrun : dirlink d name iNo true st
        = some ((writei d true (setRecLen (fillDe st.newDe name iNo) BLKSIZE) 0 BLKSIZE).1, 0) := by
      simp [dirlink, h, hloop, hsize, hw]
    rw [hw] at hrun
    refine ⟨_, 0, hrun, .inl ⟨rfl, [⟨iNo, BLKSIZE, name.chars⟩], ⟨?_, ?_, rfl⟩, ?_⟩⟩
    · exact entryAt_splice (entryAt_fillDe st.newDe BLKSIZE hiNo hname)
        (by show sizeofDe + name.chars.length ≤ BLKSIZE; omega)
    · refine ⟨?_, ?_, hname, ?_⟩
      · show 4 ∣ BLKSIZE
        decide
      · show sizeofDe + name.chars.length ≤ BLKSIZE
        omega
      · show 0 / BLKSIZE = (0 + BLKSIZE - 1) / BLKSIZE
        decide
    · have hno : iNo ≠ 0 := Nat.ne_of_gt hpos
      rw [live_cons_of_ne hno]

/-- A directory that is full is left alone. -/
theorem linkOk_of_full (h : dirlookup d name st.lookupDe = some none) (hwf : WellFormed d es)
    (hsize : d.iSize ≠ 0) (hfit : firstFit name.chars.length 0 es = none) :
    LinkOk d es name iNo room st := by
  obtain ⟨de1, hloop⟩ := roomLoop_of_none st.tmpDe hwf hfit
  refine ⟨d, -1, ?_, .inr ⟨rfl, rfl⟩⟩
  rw [dirlink_insert name iNo room h hloop hsize]
  have hde : sizeofDe = 8 := rfl
  have hk := le_alignaddrUp_four (sizeofDe + deNameLen de1)
  have hres : ∀ n : Nat, (-1 : Int) ≠ n := by omega
  unfold insertDe
  simp only
  rw [writei_behind room _ (by omega)]
  simp only
  rw [if_pos (hres _)]

/-- Where both entries fit, the directory is split there. -/
theorem linkOk_of_fits (h : dirlookup d name st.lookupDe = some none) (hwf : WellFormed d es)
    (hiNo : iNo < 2 ^ 32) (hpos : 0 < iNo) (hname : name.chars.length ≤ EXT2_NAME_LEN)
    (hfit : firstFit name.chars.length 0 es = some (off, e))
    (hround : (keptPart e).recLen + (sizeofDe + name.chars.length) ≤ e.recLen) :
    LinkOk d es name iNo room st := by
  obtain ⟨de1, hloop, he⟩ := roomLoop_of_some st.tmpDe hwf hfit
  obtain ⟨pre, post, rfl, hpre, hpost, hinode, -⟩ := firstFit_split hwf hfit
  obtain ⟨hat, hok, htail⟩ := hpost
  have hend := htail.le
  have hde : sizeofDe = 8 := rfl
  have hroom := hok.room
  have h4 := hok.aligned
  have hblock := hok.block
  have hkeptLe := le_alignaddrUp_four (sizeofDe + e.name.length)
  have hkept : (keptPart e).recLen = (sizeofDe + e.name.length + 3) / 4 * 4 := alignaddrUp_four _
  have hnewRec : (newPart e name iNo).recLen = e.recLen - (keptPart e).recLen := rfl
  have hn : alignaddrUp (sizeofDe + name.chars.length) 4
      = (sizeofDe + name.chars.length + 3) / 4 * 4 := alignaddrUp_four _
  have hnewFits : (keptPart e).recLen + alignaddrUp (sizeofDe + name.chars.length) 4 ≤ e.recLen := by
    omega
  have hwrite := writei_inside (d := d) room
    (setRecLen (fillDe st.newDe name iNo) (e.recLen + 2 ^ 64 - (keptPart e).recLen))
    (n := alignaddrUp (sizeofDe + name.chars.length) 4) (by omega)
    (show off + (keptPart e).recLen + _ ≤ d.iSize by omega)
  have hins := insertDe_of_written he
    (congrArg (fun len => alignaddrUp (sizeofDe + len) 4) (deNameLen_fillDe st.newDe name iNo hname)) hwrite
    (writei_inside room _ (by omega) (show off + (keptPart e).recLen ≤ d.iSize by omega))
  obtain ⟨hat1, hat2, hrest⟩ := inserted_spec d.data st.newDe hiNo hname he hok
    (le_alignaddrUp_four (sizeofDe + name.chars.length)) (newLen_mod name iNo hok)
  refine ⟨_, 0, (dirlink_insert name iNo room h hloop (by omega)).trans (congrArg some hins),
    Or.inl ⟨rfl, pre ++ keptPart e :: newPart e name iNo :: post, ?_, ?_⟩⟩
  · refine tiles_append.mpr ⟨off, ?_, hat1, ?_, hat2, ?_, ?_⟩
    · exact hpre.congr fun k _ hk => hrest k (by omega)
    · refine ⟨?_, hkeptLe, hok.short, ?_⟩
      · omega
      · have hB : BLKSIZE = 4096 := rfl
        rw [hB] at hblock ⊢
        omega
    · refine ⟨?_, ?_, hname, ?_⟩
      · rw [hnewRec]
        omega
      · show sizeofDe + name.chars.length ≤ e.recLen - (keptPart e).recLen
        omega
      · have hB : BLKSIZE = 4096 := rfl
        rw [hB] at hblock ⊢
        rw [hnewRec]
        omega
    · have hsplit : off + (keptPart e).recLen + (newPart e name iNo).recLen = off + e.recLen := by
        omega
      rw [hsplit]
      exact htail.congr fun k hk _ => hrest k (by omega)
  · have hno : iNo ≠ 0 := Nat.ne_of_gt hpos
    rw [live_append, live_append, live_cons_of_ne (e := keptPart e) hinode,
      live_cons_of_ne (e := newPart e name iNo) hno, live_cons_of_ne hinode]
    have hmid : ((live pre ++ [(e.name, e.inode)]) ++ (name.chars, iNo) :: live post).Perm
        ((name.chars, iNo) :: ((live pre ++ [(e.name, e.inode)]) ++ live post)) := List.perm_middle
    rw [List.append_assoc, List.append_assoc] at hmid
    exact hmid

/-- The rounding is short of four bytes when it is short at all. -/
theorem alignaddrUp_of_overflow (hok : EntryOk off e)
    (hfit : sizeofDe + e.name.length + (sizeofDe + name.chars.length) ≤ e.recLen)
    (hover : ¬ (keptPart e).recLen + (sizeofDe + name.chars.length) ≤ e.recLen) :
    (keptPart e).recLen + alignaddrUp (sizeofDe + name.chars.length) 4 = e.recLen + 4 := by
  have h4 := hok.aligned
  have hkept : (keptPart e).recLen = (sizeofDe + e.name.length + 3) / 4 * 4 := alignaddrUp_four _
  rw [alignaddrUp_four]
  omega

/-- An entry that ends behind its room is in no well-formed directory. -/
theorem not_linkOk_of_written {d2 : Dir} {pre : List DirEntry}
    (hrun : dirlink d name iNo room st = some (d2, 0)) (hpre : Tiles d.data 0 pre off)
    (hat1 : entryAt d2.data off = keptPart e)
    (hat2 : entryAt d2.data (off + (keptPart e).recLen) = newPart e name iNo)
    (hrest : ∀ k, k < off → d2.data k = d.data k)
    (hover : ¬ (keptPart e).recLen + (sizeofDe + name.chars.length) ≤ e.recLen)
    (hend : off + (keptPart e).recLen < d2.iSize) : ¬ LinkOk d es name iNo room st := by
  rintro ⟨d', res, hrun', ⟨-, es', hwf, -⟩ | ⟨hres, -⟩⟩
  · cases hrun.symm.trans hrun'
    refine not_tiles_of_malformed hpre (fun k _ hk => hrest k hk) hat1 hat2 ?_ hend hwf
    intro hok
    have hroom : sizeofDe + name.chars.length ≤ e.recLen - (keptPart e).recLen := hok.room
    have hde : sizeofDe = 8 := rfl
    omega
  · obtain ⟨-, hzero⟩ := Prod.mk.inj (some.inj (hrun.symm.trans hrun'))
    subst hres
    exact absurd hzero (by decide)

/-- Where both entries do not fit and the write can go on, the new entry takes four bytes of what
    follows. -/
theorem not_linkOk_of_overflow (h : dirlookup d name st.lookupDe = some none)
    (hwf : WellFormed d es) (hiNo : iNo < 2 ^ 32) (hname : name.chars.length ≤ EXT2_NAME_LEN)
    (hfit : firstFit name.chars.length 0 es = some (off, e))
    (hover : ¬ (keptPart e).recLen + (sizeofDe + name.chars.length) ≤ e.recLen)
    (hroom : ¬ (room = false ∧ off + e.recLen = d.iSize ∧ d.iSize % BLKSIZE = 0)) :
    ¬ LinkOk d es name iNo room st := by
  obtain ⟨de1, hloop, he⟩ := roomLoop_of_some st.tmpDe hwf hfit
  obtain ⟨pre, post, rfl, hpre, hpost, -, hfits⟩ := firstFit_split hwf hfit
  obtain ⟨-, hok, htail⟩ := hpost
  have hend := htail.le
  have hde : sizeofDe = 8 := rfl
  have hnl : EXT2_NAME_LEN = 255 := rfl
  have hsmall := d.small
  have hkeptLe := recLen_keptPart_le hok
  have hkeptPos : sizeofDe + e.name.length ≤ (keptPart e).recLen := le_alignaddrUp_four _
  have hsum := alignaddrUp_of_overflow hok hfits hover
  have hlt : e.recLen < 2 ^ 16 := he ▸ recLen_entryAt_lt de1 0
  have hN := congrArg (fun len => alignaddrUp (sizeofDe + len) 4)
    (deNameLen_fillDe st.newDe name iNo hname)
  obtain ⟨hat1, hat2, hrest⟩ := inserted_spec d.data st.newDe hiNo hname he hok
    (le_alignaddrUp_four (sizeofDe + name.chars.length)) (newLen_mod name iNo hok)
  have hbelow := fun k (hk : k < off) => hrest k (by omega)
  have hlink := dirlink_insert name iNo room h hloop (by omega)
  by_cases hin : off + e.recLen + 4 ≤ d.iSize
  · -- the four bytes belong to the next entry
    have hwrite := writei_inside (d := d) room
      (setRecLen (fillDe st.newDe name iNo) (e.recLen + 2 ^ 64 - (keptPart e).recLen))
      (n := alignaddrUp (sizeofDe + name.chars.length) 4) (by omega)
      (show off + (keptPart e).recLen + _ ≤ d.iSize by omega)
    have hins := insertDe_of_written he hN hwrite
      (writei_inside room _ (by omega) (show off + (keptPart e).recLen ≤ d.iSize by omega))
    exact not_linkOk_of_written (hlink.trans (congrArg some hins)) hpre hat1 hat2 hbelow hover
      (show off + (keptPart e).recLen < d.iSize by omega)
  · -- there is no next entry, and the directory becomes longer
    have hlast : off + e.recLen = d.iSize := by
      match post, htail with
      | [], hlast => exact hlast
      | x :: _, hx =>
        have hx' := hx.2.1.room
        have hxs := hx.2.2.le
        omega
    have h4 : 4 ∣ d.iSize := Tiles.dvd hwf (Nat.dvd_zero 4)
    have hblk : room = true ∨
        off + (keptPart e).recLen + alignaddrUp (sizeofDe + name.chars.length) 4 ≤ blocksEnd d := by
      cases room with
      | true => exact .inl rfl
      | false =>
        have hlong := lt_blocksEnd (fun hmod => hroom ⟨rfl, hlast, hmod⟩) h4
        exact .inr (by omega)
    have hwrite := writei_beyond (d := d) room
      (setRecLen (fillDe st.newDe name iNo) (e.recLen + 2 ^ 64 - (keptPart e).recLen))
      (n := alignaddrUp (sizeofDe + name.chars.length) 4)
      (show off + (keptPart e).recLen ≤ d.iSize by omega) (by omega) (by omega) hblk
    have hnewEnd : off + (keptPart e).recLen + alignaddrUp (sizeofDe + name.chars.length) 4
        = d.iSize + 4 := by omega
    by_cases hwrap : d.iSize + 4 < 2 ^ 32
    · have hsize : (off + (keptPart e).recLen + alignaddrUp (sizeofDe + name.chars.length) 4)
          % 2 ^ 32 = d.iSize + 4 := by
        rw [hnewEnd, Nat.mod_eq_of_lt hwrap]
      have hins := insertDe_of_written he hN hwrite (writei_inside room _ (by omega)
        (Nat.le_trans (show off + (keptPart e).recLen ≤ d.iSize + 4 by omega)
          (Nat.le_of_eq hsize.symm)))
      exact not_linkOk_of_written (hlink.trans (congrArg some hins)) hpre hat1 hat2 hbelow hover
        (Nat.lt_of_lt_of_eq (show off + (keptPart e).recLen < d.iSize + 4 by omega) hsize.symm)
    · -- the new size does not fit into 32 bits: it is 0
      have hsize : (off + (keptPart e).recLen + alignaddrUp (sizeofDe + name.chars.length) 4)
          % 2 ^ 32 = 0 := by
        rw [hnewEnd]
        omega
      have hins := insertDe_of_short_second he hN hwrite
        (writei_behind room _ (Nat.lt_of_le_of_lt (Nat.le_of_eq hsize) (show 0 < off by omega)))
        (by omega)
      rintro ⟨d', res, hrun, ⟨hres, -⟩ | ⟨-, hsame⟩⟩
      · obtain ⟨-, hminus⟩ := Prod.mk.inj
          (some.inj ((hlink.trans (congrArg some hins)).symm.trans hrun))
        subst hres
        exact absurd hminus (by decide)
      · obtain ⟨hd, -⟩ := Prod.mk.inj
          (some.inj ((hlink.trans (congrArg some hins)).symm.trans hrun))
        rw [hsame] at hd
        have hzero := hsize.symm.trans (congrArg Dir.iSize hd)
        omega

/-- Where the write stops at the end of the last block, the bytes before it have changed unless they
    were what is written. -/
theorem linkOk_of_stopped (h : dirlookup d name st.lookupDe = some none) (hwf : WellFormed d es)
    (hname : name.chars.length ≤ EXT2_NAME_LEN)
    (hfit : firstFit name.chars.length 0 es = some (off, e))
    (hover : ¬ (keptPart e).recLen + (sizeofDe + name.chars.length) ≤ e.recLen)
    (hlast : off + e.recLen = d.iSize) (hblk : d.iSize % BLKSIZE = 0) :
    LinkOk d es name iNo false st ↔ ∀ k, k < (newPart e name iNo).recLen →
      d.data (off + (keptPart e).recLen + k) = entryBytes (newPart e name iNo) k := by
  obtain ⟨de1, hloop, he⟩ := roomLoop_of_some st.tmpDe hwf hfit
  obtain ⟨pre, post, rfl, hpre, hpost, -, hfits⟩ := firstFit_split hwf hfit
  obtain ⟨-, hok, htail⟩ := hpost
  have hde : sizeofDe = 8 := rfl
  have hnl : EXT2_NAME_LEN = 255 := rfl
  have hkeptLe := recLen_keptPart_le hok
  have hsum := alignaddrUp_of_overflow hok hfits hover
  have hN := congrArg (fun len => alignaddrUp (sizeofDe + len) 4)
    (deNameLen_fillDe st.newDe name iNo hname)
  have hnLe : alignaddrUp (sizeofDe + name.chars.length) 4 < sizeofDe + name.chars.length + 4 := by
    rw [alignaddrUp_four]
    omega
  have hnGe := le_alignaddrUp_four (sizeofDe + name.chars.length)
  have hnewRec : d.iSize - (off + (keptPart e).recLen) = (newPart e name iNo).recLen := by
    show _ = e.recLen - (keptPart e).recLen
    omega
  have hlink := dirlink_insert name iNo false h hloop (by omega)
  have hwrite := writei_stopped (d := d)
    (setRecLen (fillDe st.newDe name iNo) (e.recLen + 2 ^ 64 - (keptPart e).recLen))
    (n := alignaddrUp (sizeofDe + name.chars.length) 4)
    (show off + (keptPart e).recLen ≤ d.iSize by omega) (by omega) (by omega) hblk
  have hins := insertDe_of_short he hN hwrite (by
    rw [if_neg (by omega)]
    omega)
  have hrun := hlink.trans (congrArg some hins)
  have hbytes : ∀ k, k < (newPart e name iNo).recLen →
      setRecLen (fillDe st.newDe name iNo) (e.recLen + 2 ^ 64 - (keptPart e).recLen) k
        = entryBytes (newPart e name iNo) k := fun k hk =>
    newPart_bytes st.newDe name iNo (newLen_mod name iNo hok) (by
      have hrec : (newPart e name iNo).recLen = e.recLen - (keptPart e).recLen := rfl
      omega)
  constructor
  · rintro ⟨d', res, hrun', ⟨hres, -⟩ | ⟨-, hsame⟩⟩ k hk
    · obtain ⟨-, hminus⟩ := Prod.mk.inj (some.inj (hrun.symm.trans hrun'))
      subst hres
      exact absurd hminus (by decide)
    · obtain ⟨hd, -⟩ := Prod.mk.inj (some.inj (hrun.symm.trans hrun'))
      rw [hsame] at hd
      have hdata := congrFun (congrArg Dir.data hd) (off + (keptPart e).recLen + k)
      rw [← hdata, ← hbytes k hk]
      exact splice_add (Nat.lt_of_lt_of_eq hk hnewRec.symm)
  · intro hsame
    refine ⟨_, -1, hrun, .inr ⟨rfl, ?_⟩⟩
    have hdata : splice d.data (off + (keptPart e).recLen) (d.iSize - (off + (keptPart e).recLen))
        (setRecLen (fillDe st.newDe name iNo) (e.recLen + 2 ^ 64 - (keptPart e).recLen))
        = d.data := by
      funext k
      by_cases hk : off + (keptPart e).recLen ≤ k ∧ k < off + (keptPart e).recLen
          + (d.iSize - (off + (keptPart e).recLen))
      · obtain ⟨j, rfl⟩ := Nat.exists_eq_add_of_le hk.1
        have hj : j < (newPart e name iNo).recLen := by omega
        rw [splice_of_mem hk.1 hk.2, Nat.add_sub_cancel_left, hbytes j hj, hsame j hj]
      · exact splice_of_not_mem hk
    rw [hdata]

/-- `dirlink` keeps the format exactly if it finds the name, or no room, or room for both entries
    after they have been rounded. -/
theorem dirlink_exact (hwf : WellFormed d es) (hname : name.chars.length ≤ EXT2_NAME_LEN)
    (hpos : 0 < iNo) (hiNo : iNo < 2 ^ 32) :
    LinkOk d es name iNo room st ↔
      dirlookup d name st.lookupDe ≠ some none ∨ RoundedFit d es name iNo room := by
  obtain ⟨found, hfound⟩ : ∃ found, dirlookup d name st.lookupDe = some found := by
    unfold dirlookup
    rw [if_pos hname]
    exact dirlookupLoop_ends name st.lookupDe hwf
  cases found with
  | some i =>
    refine ⟨fun _ => .inl ?_, fun _ => linkOk_of_found hfound⟩
    rw [hfound]
    exact fun heq => (nomatch heq)
  | none =>
    have hnot : ¬ dirlookup d name st.lookupDe ≠ some none := fun hne => hne hfound
    constructor
    · intro hok
      refine .inr fun off e hfit => ?_
      by_cases hround : (keptPart e).recLen + (sizeofDe + name.chars.length) ≤ e.recLen
      · exact .inl hround
      · by_cases hroom : room = false ∧ off + e.recLen = d.iSize ∧ d.iSize % BLKSIZE = 0
        · obtain ⟨rfl, hlast, hblk⟩ := hroom
          exact .inr ⟨rfl, hlast, hblk,
            (linkOk_of_stopped hfound hwf hname hfit hround hlast hblk).mp hok⟩
        · exact absurd hok (not_linkOk_of_overflow hfound hwf hiNo hname hfit hround hroom)
    · intro hcond
      have hcond := hcond.resolve_left hnot
      by_cases hsize : d.iSize = 0
      · exact linkOk_of_empty hfound hwf hsize hiNo hpos hname
      · cases hfit : firstFit name.chars.length 0 es with
        | none => exact linkOk_of_full hfound hwf hsize hfit
        | some fit =>
          by_cases hround : (keptPart fit.2).recLen + (sizeofDe + name.chars.length) ≤ fit.2.recLen
          · exact linkOk_of_fits hfound hwf hiNo hpos hname hfit hround
          · obtain ⟨rfl, hlast, hblk, hsame⟩ := (hcond fit.1 fit.2 hfit).resolve_left hround
            exact (linkOk_of_stopped hfound hwf hname hfit hround hlast hblk).mpr hsame

end Link

/-- Two entries, `a` with eleven bytes to spare, and `b`. -/
def entryA : DirEntry := ⟨2, 20, [97]⟩
def entryB : DirEntry := ⟨3, 4076, [98]⟩

def twoEntries : Dir where
  iSize := 4096
  data := fun k => if k < 20 then entryBytes entryA k else entryBytes entryB (k - 20)
  small := by decide

def nameXyz : Name := ⟨[120, 121, 122], by decide⟩
def nameWxyz : Name := ⟨[119, 120, 121, 122], by decide⟩

/-- Buffers on a stack that has not been used. -/
def zeroStack : Stack := ⟨fun _ => 0, fun _ => 0, fun _ => 0⟩

theorem twoEntries_wellFormed : WellFormed twoEntries [entryA, entryB] := by
  have hA : entryAt (entryBytes entryA) 0 = entryA :=
    entryAt_entryBytes (by decide) (by decide) (by decide)
  have hB : entryAt (entryBytes entryB) 0 = entryB :=
    entryAt_entryBytes (by decide) (by decide) (by decide)
  refine ⟨?_, ⟨by decide, by decide, by decide, by decide⟩, ?_, ⟨by decide, by decide, by decide,
    by decide⟩, rfl⟩
  · rw [← hA]
    refine entryAt_congr fun k hk => ?_
    rw [hA] at hk
    have hk : k < 9 := hk
    show (if 0 + k < 20 then _ else _) = _
    rw [if_pos (by omega), Nat.zero_add]
  · rw [← hB]
    refine entryAt_congr fun k _ => ?_
    show (if 20 + k < 20 then _ else entryBytes entryB (20 + k - 20)) = _
    rw [if_neg (by omega), Nat.add_sub_cancel_left, Nat.zero_add]

theorem twoEntries_lookup : dirlookup twoEntries nameXyz zeroStack.lookupDe = some none := by
  have hreadA : entryAt (readi twoEntries zeroStack.lookupDe 0 EXT2_DIRENTRY_MAXSIZE) 0 = entryA :=
    entryAt_readi _ twoEntries_wellFormed.1 twoEntries_wellFormed.2.1 (by decide)
  have hreadB : entryAt (readi twoEntries (readi twoEntries zeroStack.lookupDe 0
      EXT2_DIRENTRY_MAXSIZE) 20 EXT2_DIRENTRY_MAXSIZE) 0 = entryB :=
    entryAt_readi _ twoEntries_wellFormed.2.2.1 twoEntries_wellFormed.2.2.2.1 (by decide)
  have hrecA : deRecLen _ = 20 := deRecLen_of_entryAt hreadA
  have hrecB : deRecLen _ = 4076 := deRecLen_of_entryAt hreadB
  have hshort : nameXyz.chars.length ≤ EXT2_NAME_LEN := by decide
  have hA : matchesName nameXyz (readi twoEntries zeroStack.lookupDe 0 EXT2_DIRENTRY_MAXSIZE)
      = false := by decide
  have hB : matchesName nameXyz (readi twoEntries (readi twoEntries zeroStack.lookupDe 0
      EXT2_DIRENTRY_MAXSIZE) 20 EXT2_DIRENTRY_MAXSIZE) = false := by decide
  rw [dirlookup, if_pos hshort, dirlookupLoop, if_pos (by decide)]
  simp only [hA, hrecA]
  rw [if_neg Bool.false_ne_true, if_neg (by decide), dirlookupLoop, if_pos (by decide)]
  simp only [hB, hrecB]
  rw [if_neg Bool.false_ne_true, if_neg (by decide), dirlookupLoop, if_neg (by decide)]

/-- The entry for `xyz` needs twelve of the eight bytes `a` can give up, and the inode number of `b`
    is overwritten. -/
theorem dirlink_overwrites : ¬ LinkOk twoEntries [entryA, entryB] nameXyz 5 true zeroStack :=
  not_linkOk_of_overflow twoEntries_lookup twoEntries_wellFormed (by decide) (by decide)
    (show firstFit 3 0 [entryA, entryB] = some (0, entryA) from rfl) (by decide) (by decide)

/-- The eleven bytes behind `a` do not take `wxyz`; it goes behind `b`. -/
theorem dirlink_exact_room : LinkOk twoEntries [entryA, entryB] nameWxyz 5 true zeroStack := by
  refine (dirlink_exact twoEntries_wellFormed (by decide) (by decide) (by decide)).mpr (.inr ?_)
  intro off e hfit
  have hfirst : firstFit nameWxyz.chars.length 0 [entryA, entryB] = some (20, entryB) := rfl
  rw [hfirst] at hfit
  cases hfit
  left
  show 12 + (8 + 4) ≤ 4076
  decide

end Uniks.DirLink
