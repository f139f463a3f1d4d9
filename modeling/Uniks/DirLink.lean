/-
  `dirlookup` and `dirlink` of `fs/ext2fs.c`: the entries of a directory.

  A directory is a size and bytes; its blocks are all there, no sync is running, and the device
  serves every request, so `readi` delivers what lies below `i_size` and `writei` stops short only
  where a block past the end of the file would have to be allocated and none is left (`room`).
  What the buffers on the stack contain before they are filled is an argument (`Stack`): a buffer
  ends after 263 bytes, but the writes may take more from it, which is then whatever follows.

  `Tiles` is the format: the entries follow each other without gaps, each one has room for its
  name, a length that is a multiple of four, and lies in one block.
-/
import Uniks.Lib.ByteMem

namespace Uniks.DirLink

open Uniks.ByteMem

abbrev BLKSIZE : Nat := 4096
abbrev EXT2_NAME_LEN : Nat := 255

/-- The C expression `sizeof(struct ext2_dir_entry_t)`. -/
abbrev sizeofDe : Nat := 8

abbrev EXT2_DIRENTRY_MAXSIZE : Nat := sizeofDe + EXT2_NAME_LEN

def EXT2_MAX_FBLKS : Nat := 12 + 1024 + 1024 * 1024 + 1024 * 1024 * 1024

def EIO : Int := 5

/-- The source's `alignaddr_up`. -/
def alignaddrUp (addr alignment : Nat) : Nat :=
  if alignment &&& (alignment - 1) = 0 then
    addr + (alignment - 1) - (addr + (alignment - 1)) % alignment
  else addr

/-! ## The file that holds a directory -/

/-- The contents of a directory; `i_size` has 32 bits. -/
structure Dir where
  iSize : Nat
  data : Bytes
  small : iSize < 2 ^ 32

/-- The source's `readi` into a kernel buffer. -/
def readi (d : Dir) (dst : Bytes) (off n : Nat) : Bytes :=
  if off > d.iSize then dst
  else splice dst 0 (min n (d.iSize - off)) fun k => d.data (off + k)

/-- The end of the last block of a file. -/
def blocksEnd (d : Dir) : Nat := alignaddrUp d.iSize BLKSIZE

/-- How many bytes the loop of `writei` gets to write. -/
def written (d : Dir) (room : Bool) (off n : Nat) : Nat :=
  if room then n else min n (blocksEnd d - off)

/-- The source's `writei` from a kernel buffer. -/
def writei (d : Dir) (room : Bool) (src : Bytes) (off n : Nat) : Dir × Int :=
  if off > d.iSize ∨ off + n > EXT2_MAX_FBLKS * BLKSIZE then (d, -1)
  else
    let tot := written d room off n
    let data := splice d.data off tot src
    let d : Dir :=
      if off + tot > d.iSize then ⟨(off + tot) % 2 ^ 32, data, Nat.mod_lt _ (by decide)⟩
      else { d with data := data }
    (d, if tot = 0 then - EIO else tot)

/-! ## Entries -/

/-- The fields of the C type `struct ext2_dir_entry_t` in a buffer. -/
def deInode (de : Bytes) : Nat := getLE de 0 4
def deRecLen (de : Bytes) : Nat := getLE de 4 2
def deNameLen (de : Bytes) : Nat := getLE de 6 2

def setRecLen (de : Bytes) (v : Nat) : Bytes := setLE de 4 2 v

/-- A name as `strlen` and `strncpy` see it. -/
structure Name where
  chars : List UInt8
  nul : 0 ∉ chars

/-- The bytes of a name with the end of the string behind them. -/
def Name.cstr (name : Name) : Bytes := fun k => name.chars.getD k 0

/-- The test `strncmp(s1, s2, n) == 0`, from position `i` on. -/
def strncmpEq (s1 s2 : Bytes) (i : Nat) : Nat → Bool
  | 0 => true
  | n + 1 => if s1 i ≠ 0 ∧ s1 i = s2 i then strncmpEq s1 s2 (i + 1) n else s1 i == s2 i

/-- The name in a buffer. -/
def deName (de : Bytes) : Bytes := fun k => de (sizeofDe + k)

/-- The test of `dirlookup` on the entry it has read. -/
def matchesName (name : Name) (de : Bytes) : Bool :=
  deInode de != 0 &&
    strncmpEq name.cstr (deName de) 0 (max name.chars.length (deNameLen de))

/-- The loop of `dirlookup`: the inode number found.  An entry of length zero that does not match
    is looked at for ever (`none`). -/
def dirlookupLoop (d : Dir) (name : Name) (off : Nat) (tmpDe : Bytes) : Option (Option Nat) :=
  if off < d.iSize then
    let de := readi d tmpDe off EXT2_DIRENTRY_MAXSIZE
    if matchesName name de then some (some (deInode de))
    else if deRecLen de = 0 then none
    else dirlookupLoop d name (off + deRecLen de) de
  else some none
termination_by d.iSize - off
decreasing_by exact Nat.sub_lt_sub_left ‹_› (Nat.lt_add_of_pos_right (Nat.pos_of_ne_zero ‹_›))

/-- The source's `dirlookup`. -/
def dirlookup (d : Dir) (name : Name) (tmpDe : Bytes) : Option (Option Nat) :=
  if name.chars.length ≤ EXT2_NAME_LEN then dirlookupLoop d name 0 tmpDe else none

/-- The test of `dirlink` whether there is room behind an entry, in 64 bits. -/
def hasRoom (namelen : Nat) (de : Bytes) : Bool :=
  deInode de != 0 &&
    decide ((deRecLen de + 2 ^ 64 - (sizeofDe + deNameLen de)) % 2 ^ 64 ≥ sizeofDe + namelen)

/-- The loop of `dirlink`: where it stops, and the entry it has read last. -/
def roomLoop (d : Dir) (namelen off : Nat) (tmpDe : Bytes) : Option (Nat × Bytes) :=
  if off < d.iSize then
    let de1 := readi d tmpDe off EXT2_DIRENTRY_MAXSIZE
    if hasRoom namelen de1 then some (off, de1)
    else if deRecLen de1 = 0 then none
    else roomLoop d namelen (off + deRecLen de1) de1
  else some (off, tmpDe)
termination_by d.iSize - off
decreasing_by exact Nat.sub_lt_sub_left ‹_› (Nat.lt_add_of_pos_right (Nat.pos_of_ne_zero ‹_›))

/-- What the buffers on the stack contain to begin with: that of `dirlookup`, and those of
    `dirlink`. -/
structure Stack where
  lookupDe : Bytes
  tmpDe : Bytes
  newDe : Bytes

/-- The new entry, but for its length. -/
def fillDe (de2 : Bytes) (name : Name) (iNo : Nat) : Bytes :=
  splice (setLE (setLE de2 0 4 iNo) 6 2 name.chars.length) sizeofDe name.chars.length name.cstr

/-- The end of `dirlink`: the new entry takes the room behind the one at `off`. -/
def insertDe (d : Dir) (room : Bool) (off : Nat) (de1 de2 : Bytes) : Dir × Int :=
  let de1Len := alignaddrUp (sizeofDe + deNameLen de1) 4
  let de2Len := alignaddrUp (sizeofDe + deNameLen de2) 4
  let de2 := setRecLen de2 (deRecLen de1 + 2 ^ 64 - de1Len)
  let (d, res) := writei d room de2 (off + de1Len) de2Len
  if res ≠ de2Len then (d, -1)
  else
    let de1 := setRecLen de1 de1Len
    let (d, res) := writei d room de1 off de1Len
    if res ≠ de1Len then (d, -1) else (d, 0)

/-- The source's `dirlink`. -/
def dirlink (d : Dir) (name : Name) (iNo : Nat) (room : Bool) (st : Stack) : Option (Dir × Int) :=
  do
    let found ← dirlookup d name st.lookupDe
    if found.isSome then return (d, -1)
    else
      let (off, de1) ← roomLoop d name.chars.length 0 st.tmpDe
      let de2 := fillDe st.newDe name iNo
      if d.iSize = 0 then
        let de2 := setRecLen de2 BLKSIZE
        let (d, res) := writei d room de2 off BLKSIZE
        if res ≠ BLKSIZE then return (d, -1) else return (d, 0)
      else return insertDe d room off de1 de2

/-! ## The format -/

/-- An entry of a directory. -/
structure DirEntry where
  inode : Nat
  recLen : Nat
  name : List UInt8

/-- The entry stored at a position. -/
def entryAt (data : Bytes) (off : Nat) : DirEntry :=
  { inode := getLE data off 4, recLen := getLE data (off + 4) 2,
    name := (List.range (getLE data (off + 6) 2)).map fun k => data (off + (sizeofDe + k)) }

/-- The bytes of an entry, up to the end of its name. -/
def entryBytes (e : DirEntry) : Bytes :=
  splice (setLE (setLE (setLE (fun _ => 0) 0 4 e.inode) 6 2 e.name.length) 4 2 e.recLen)
    sizeofDe e.name.length fun k => e.name.getD k 0

/-- An entry at `off` that is as the format wants it. -/
structure EntryOk (off : Nat) (e : DirEntry) : Prop where
  aligned : 4 ∣ e.recLen
  room : sizeofDe + e.name.length ≤ e.recLen
  short : e.name.length ≤ EXT2_NAME_LEN
  block : off / BLKSIZE = (off + e.recLen - 1) / BLKSIZE

/-- The entries lie one behind the other from `lo` to `hi`. -/
def Tiles (data : Bytes) : Nat → List DirEntry → Nat → Prop
  | lo, [], hi => lo = hi
  | lo, e :: es, hi => entryAt data lo = e ∧ EntryOk lo e ∧ Tiles data (lo + e.recLen) es hi

/-- A well-formed directory and its entries. -/
def WellFormed (d : Dir) (es : List DirEntry) : Prop := Tiles d.data 0 es d.iSize

/-- The names that are in use, with their inode numbers. -/
def live (es : List DirEntry) : List (List UInt8 × Nat) :=
  (es.filter fun e => e.inode ≠ 0).map fun e => (e.name, e.inode)

/-- The entry whose unused end is long enough for a name, and where it is. -/
def firstFit (namelen : Nat) : Nat → List DirEntry → Option (Nat × DirEntry)
  | _, [] => none
  | off, e :: es =>
    if e.inode ≠ 0 ∧ sizeofDe + e.name.length + (sizeofDe + namelen) ≤ e.recLen then some (off, e)
    else firstFit namelen (off + e.recLen) es

/-! ## Stored entries -/

theorem alignaddrUp_four (n : Nat) : alignaddrUp n 4 = (n + 3) / 4 * 4 := by
  show (if 4 &&& 3 = 0 then n + 3 - (n + 3) % 4 else n) = _
  rw [if_pos (by decide)]
  omega

theorem length_entryAt (data : Bytes) (off : Nat) :
    (entryAt data off).name.length = getLE data (off + 6) 2 := by
  rw [entryAt, List.length_map, List.length_range]

/-- An entry is in the bytes of its header and of its name. -/
theorem entryAt_congr {data data' : Bytes} {off off' : Nat}
    (h : ∀ k, k < sizeofDe + (entryAt data off).name.length → data' (off' + k) = data (off + k)) :
    entryAt data' off' = entryAt data off := by
  rw [length_entryAt] at h
  have hde : sizeofDe = 8 := rfl
  have hfield : ∀ p w, p + w ≤ 8 → getLE data' (off' + p) w = getLE data (off + p) w := by
    intro p w hp
    refine getLE_congr fun k hk => ?_
    rw [Nat.add_assoc, Nat.add_assoc]
    exact h (p + k) (by omega)
  have hinode : getLE data' off' 4 = getLE data off 4 := hfield 0 4 (by decide)
  unfold entryAt
  rw [hinode, hfield 4 2 (by decide), hfield 6 2 (by decide)]
  congr 1
  refine List.map_congr_left fun k hk => ?_
  exact h (sizeofDe + k) (Nat.add_lt_add_left (List.mem_range.mp hk) _)

/-- What the format can store is read back as it was. -/
theorem entryAt_entryBytes {e : DirEntry} (hinode : e.inode < 2 ^ 32) (hrec : e.recLen < 2 ^ 16)
    (hname : e.name.length < 2 ^ 16) : entryAt (entryBytes e) 0 = e := by
  have hhead : ∀ p w, p + w ≤ 8 → getLE (entryBytes e) p w = getLE (setLE (setLE (setLE (fun _ => 0)
      0 4 e.inode) 6 2 e.name.length) 4 2 e.recLen) p w := by
    intro p w hp
    refine getLE_congr fun k hk => ?_
    have hde : sizeofDe = 8 := rfl
    exact splice_of_not_mem (by omega)
  have hno : getLE (entryBytes e) 0 4 = e.inode := by
    rw [hhead 0 4 (by decide), getLE_setLE_of_disjoint _ _ (by omega),
      getLE_setLE_of_disjoint _ _ (by omega), getLE_setLE_self]
    exact Nat.mod_eq_of_lt hinode
  have hlen : getLE (entryBytes e) 4 2 = e.recLen := by
    rw [hhead 4 2 (by decide), getLE_setLE_self]
    exact Nat.mod_eq_of_lt hrec
  have hnl : getLE (entryBytes e) 6 2 = e.name.length := by
    rw [hhead 6 2 (by decide), getLE_setLE_of_disjoint _ _ (by omega), getLE_setLE_self]
    exact Nat.mod_eq_of_lt hname
  unfold entryAt
  rw [hno, hlen, hnl]
  congr 1
  refine List.ext_getElem (by rw [List.length_map, List.length_range]) fun i hi hi' => ?_
  rw [List.getElem_map, List.getElem_range, Nat.zero_add]
  show splice _ sizeofDe e.name.length _ (sizeofDe + i) = _
  rw [splice_add hi', List.getD_eq_getElem?_getD, List.getElem?_eq_getElem hi', Option.getD_some]

/-- An entry copied from a buffer. -/
theorem entryAt_splice {data src : Bytes} {off n : Nat} {e : DirEntry} (h : entryAt src 0 = e)
    (hn : sizeofDe + e.name.length ≤ n) : entryAt (splice data off n src) off = e := by
  subst h
  refine entryAt_congr fun k hk => ?_
  rw [splice_add (Nat.lt_of_lt_of_le hk hn), Nat.zero_add]

/-! ## Tilings -/

theorem Tiles.le {data : Bytes} {lo hi : Nat} {es : List DirEntry} (h : Tiles data lo es hi) :
    lo ≤ hi := by
  induction es generalizing lo with
  | nil => exact Nat.le_of_eq h
  | cons e es ih => exact Nat.le_trans (Nat.le_add_right lo e.recLen) (ih h.2.2)

theorem tiles_append {data : Bytes} {lo hi : Nat} {es es' : List DirEntry} :
    Tiles data lo (es ++ es') hi ↔ ∃ mid, Tiles data lo es mid ∧ Tiles data mid es' hi := by
  induction es generalizing lo with
  | nil =>
    constructor
    · intro h
      exact ⟨lo, rfl, h⟩
    · rintro ⟨mid, rfl, h⟩
      exact h
  | cons e es ih =>
    constructor
    · rintro ⟨he, hok, h⟩
      obtain ⟨mid, hes, hes'⟩ := ih.mp h
      exact ⟨mid, ⟨he, hok, hes⟩, hes'⟩
    · rintro ⟨mid, ⟨he, hok, hes⟩, hes'⟩
      exact ⟨he, hok, ih.mpr ⟨mid, hes, hes'⟩⟩

theorem Tiles.congr {data data' : Bytes} {lo hi : Nat} {es : List DirEntry}
    (h : Tiles data lo es hi) (heq : ∀ k, lo ≤ k → k < hi → data' k = data k) :
    Tiles data' lo es hi := by
  induction es generalizing lo with
  | nil => exact h
  | cons e es ih =>
    obtain ⟨he, hok, hes⟩ := h
    have hroom := hok.room
    refine ⟨?_, hok, ih hes fun k hlo hhi => heq k (by omega) hhi⟩
    rw [← he]
    refine entryAt_congr fun k hk => heq (lo + k) (by omega) ?_
    rw [he] at hk
    exact Nat.lt_of_lt_of_le (Nat.add_lt_add_left (Nat.lt_of_lt_of_le hk hroom) lo) hes.le

/-- A directory whose entries begin like a tiling cannot go on with a malformed one. -/
theorem not_tiles_of_malformed {data data' : Bytes} {lo off hi : Nat} {pre es : List DirEntry}
    {e e' : DirEntry} (h : Tiles data lo pre off) (heq : ∀ k, lo ≤ k → k < off → data' k = data k)
    (he : entryAt data' off = e) (he' : entryAt data' (off + e.recLen) = e')
    (hbad : ¬ EntryOk (off + e.recLen) e') (hhi : off + e.recLen < hi) :
    ¬ Tiles data' lo es hi := by
  intro hes
  induction pre generalizing lo es with
  | nil =>
    have hlo : lo = off := h
    subst hlo
    match es, hes with
    | [], hend =>
      have hend : lo = hi := hend
      omega
    | [x], hx =>
      have hx' := hx.1.symm.trans he
      subst hx'
      have hend : lo + x.recLen = hi := hx.2.2
      omega
    | x :: y :: _, hx =>
      have hx' := hx.1.symm.trans he
      subst hx'
      have hy := hx.2.2.1.symm.trans he'
      subst hy
      exact hbad hx.2.2.2.1
  | cons p pre ih =>
    have hle := h.2.2.le
    have hroom := h.2.1.room
    match es, hes with
    | [], hend =>
      have hend : lo = hi := hend
      omega
    | x :: _, hx =>
      have hx' : p = x := by
        rw [← hx.1, ← h.1]
        refine (entryAt_congr fun k hk => heq (lo + k) (by omega) ?_).symm
        rw [h.1] at hk
        omega
      subst hx'
      exact ih h.2.2 (fun k hlo hk => heq k (by omega) hk) hx.2.2

end Uniks.DirLink
