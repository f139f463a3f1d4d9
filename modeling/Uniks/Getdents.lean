/-
  `sys_getdents`: a directory as records in a buffer of the user.

  A record is an entry with a NUL behind its name, and its `rec_len` is the length of the record,
  which may be more or less than that of the entry.  The loop asks whether there is room before it
  knows the next record, so the last record may end behind the buffer, and what is there is written
  over wherever the area of the buffer goes on.  The number of bytes is an `int32_t`.

  The directory is as in `Uniks.DirLink`, and no sync is running.  There are pages for what is
  written, so that `verify_area` says what the areas say.  The buffer is below `MAXVA`, and no
  address wraps around.  `writes` is what `copyout` has written: where, and how many bytes.
-/
import Uniks.DirLinkFormat
import Uniks.Vm

namespace Uniks.Getdents

open Uniks.ByteMem Uniks.DirLink
open Uniks.Vm (Vma Perm searchVmareas grants PTE_R PTE_W PTE_U MAXVA)

def EBADF : Int := 9

/-- A number in an `int32_t`. -/
def int32 (x : Int) : Int := (x + 2 ^ 31) % 2 ^ 32 - 2 ^ 31

/-- An `int32_t` where a `size_t` is wanted. -/
def sizeT (x : Int) : Nat := (x % 2 ^ 64).toNat

/-! ## The code -/

/-- The answer of `verify_area`: whether it is 0. -/
def verifyArea (areas : List Vma) (vaddr size : Nat) (targetperm : Perm) : Bool :=
  match searchVmareas areas vaddr size with
  | some vma => grants vma.vmFlags targetperm
  | none => false

/-- What `readi` returns. -/
def readiRes (d : Dir) (off n : Nat) : Nat := if off > d.iSize then 0 else min n (d.iSize - off)

/-- An open file: whether its inode is a directory, the directory, and `f_pos`. -/
structure File where
  isDir : Bool
  inode : Dir
  fPos : Nat

/-- The arguments of a call, and what it finds: the areas of the process, its memory, and what the
    buffer on the stack contains. -/
structure Call where
  buf : Nat
  nbytes : Nat
  areas : List Vma
  mem : Bytes
  tmpDe : Bytes

/-- The variables of the loop. -/
structure Vars where
  res : Int
  buf : Nat
  fPos : Nat
  tmpDe : Bytes
  mem : Bytes
  writes : List (Nat × Nat)

/-- A round of the loop; `none` is its `break`. -/
def getdentsRound (d : Dir) (areas : List Vma) (s : Vars) : Option Vars :=
  if readiRes d s.fPos EXT2_DIRENTRY_MAXSIZE = 0 then none
  else
    let de := readi d s.tmpDe s.fPos EXT2_DIRENTRY_MAXSIZE
    let entrylen := alignaddrUp (sizeofDe + deNameLen de + 1) 4
    if verifyArea areas s.buf entrylen (PTE_R ||| PTE_W ||| PTE_U) then
      let de := splice de (sizeofDe + deNameLen de) 1 fun _ => 0
      let fPos := s.fPos + deRecLen de
      let de := setRecLen de entrylen
      some { res := int32 (s.res + entrylen), buf := s.buf + entrylen, fPos := fPos, tmpDe := de,
             mem := splice s.mem s.buf entrylen de, writes := s.writes ++ [(s.buf, entrylen)] }
    else none

/-- The loop; the first argument is how many times it may go round (`none`: too few). -/
def getdentsLoop (d : Dir) (areas : List Vma) (nbytes : Nat) : Nat → Vars → Option Vars
  | 0, _ => none
  | rounds + 1, s =>
    if sizeT s.res < nbytes then
      match getdentsRound d areas s with
      | some s => getdentsLoop d areas nbytes rounds s
      | none => some s
    else some s

/-- What a call leaves: its answer, the position in the file, the memory, and what was written. -/
structure Out where
  ret : Int
  fPos : Nat
  mem : Bytes
  writes : List (Nat × Nat)

/-- The source's `sys_getdents`; `none` for the file is a descriptor that is not open. -/
def sysGetdents (rounds : Nat) (file : Option File) (c : Call) : Option Out :=
  match file with
  | none => some ⟨- EBADF, 0, c.mem, []⟩
  | some f =>
    if f.isDir then
      (getdentsLoop f.inode c.areas c.nbytes rounds ⟨0, c.buf, f.fPos, c.tmpDe, c.mem, []⟩).map
        fun s => ⟨s.res, s.fPos, s.mem, s.writes⟩
    else some ⟨- EBADF, f.fPos, c.mem, []⟩

/-! ## Records -/

/-- The length of the record of an entry. -/
def recordLen (e : DirEntry) : Nat := alignaddrUp (sizeofDe + e.name.length + 1) 4

/-- The record of an entry: the entry with another length, and a NUL behind its name. -/
def RecordAt (mem : Bytes) (a : Nat) (e : DirEntry) : Prop :=
  entryAt mem a = { e with recLen := recordLen e } ∧ mem (a + sizeofDe + e.name.length) = 0

/-- The records of a list of entries, each one where the `rec_len` of the one before leads to. -/
def Records (mem : Bytes) : Nat → List DirEntry → Prop
  | _, [] => True
  | a, e :: es => RecordAt mem a e ∧ Records mem (a + recordLen e) es

/-- Where the records are, and their lengths. -/
def ranges : Nat → List DirEntry → List (Nat × Nat)
  | _, [] => []
  | a, e :: es => (a, recordLen e) :: ranges (a + recordLen e) es

/-- The bytes of the records. -/
def total (es : List DirEntry) : Nat := (es.map recordLen).sum

/-- The bytes of the entries. -/
def span (es : List DirEntry) : Nat := (es.map DirEntry.recLen).sum

/-! ## What is claimed -/

/-- What a call is to do that takes the entries `now`, at `pos`. -/
structure CallLaw (c : Call) (pos : Nat) (now : List DirEntry) (o : Out) : Prop where
  inside : ∀ w ∈ o.writes, c.buf ≤ w.1 ∧ w.1 + w.2 ≤ c.buf + c.nbytes
  frame : ∀ a, (∀ w ∈ o.writes, ¬ (w.1 ≤ a ∧ a < w.1 + w.2)) → o.mem a = c.mem a
  ret : o.ret = ((o.writes.map Prod.snd).sum : Nat)
  writes : o.writes = ranges c.buf now
  records : Records o.mem c.buf now
  fPos : o.fPos = pos + span now

/-- The buffer is in an area for reading and writing. -/
structure Usable (c : Call) : Prop where
  below : c.buf + c.nbytes ≤ MAXVA
  verified : ∀ a n, c.buf ≤ a → a + n ≤ c.buf + c.nbytes →
    verifyArea c.areas a n (PTE_R ||| PTE_W ||| PTE_U) = true

/-- The call returns `o`, however often the loop may go round from some number on. -/
def Returns (d : Dir) (pos : Nat) (c : Call) (o : Out) : Prop :=
  ∃ n, ∀ rounds, n ≤ rounds → sysGetdents rounds (some ⟨true, d, pos⟩) c = some o

/-- The calls, one after the other: what they return, and which entries each one takes.  A buffer
    for the largest record gets one entry at least. -/
def CallsLaw (d : Dir) : List DirEntry → Nat → List Call → List Out → List (List DirEntry) → Prop
  | rest, pos, c :: cs, o :: os, now :: nows =>
    Returns d pos c o ∧ CallLaw c pos now o ∧ ∃ later, rest = now ++ later ∧
      ((∀ e ∈ rest, recordLen e ≤ c.nbytes) → rest ≠ [] → now ≠ []) ∧
        CallsLaw d later o.fPos cs os nows
  | _, _, [], [], [] => True
  | _, _, _, _, _ => False

/-- Each call does what it is to do, and together they report every live entry once, in order, and
    end with 0. -/
def Enumerates (d : Dir) (rest : List DirEntry) (pos : Nat) (calls : List Call) : Prop :=
  ∃ outs nows, CallsLaw d rest pos calls outs nows ∧
    ((∀ c ∈ calls, ∀ e ∈ rest, recordLen e ≤ c.nbytes) → rest.length < calls.length →
      live nows.flatten = live rest ∧ ∃ o, outs.getLast? = some o ∧ o.ret = 0)

/-! ## When it is so -/

/-- The records of `now` fit into the buffer and into an `int32_t`; and they fill the buffer, or the
    next one, which ends behind it, is not in an area, or there is no next one. -/
structure Snug (c : Call) (now later : List DirEntry) : Prop where
  fits : total now ≤ c.nbytes
  small : total now < 2 ^ 31
  stops : ∀ e es, later = e :: es → total now = c.nbytes ∨ (c.nbytes < total now + recordLen e ∧
    verifyArea c.areas (c.buf + total now) (recordLen e) (PTE_R ||| PTE_W ||| PTE_U) = false)

/-- The entries that the loop takes when `res` bytes are written. -/
def taken (c : Call) : Nat → List DirEntry → List DirEntry
  | res, e :: es =>
    if (res < c.nbytes ∧ res < 2 ^ 31) ∧
        verifyArea c.areas (c.buf + res) (recordLen e) (PTE_R ||| PTE_W ||| PTE_U) = true then
      e :: taken c (res + recordLen e) es
    else []
  | _, [] => []

/-- So it is for each call, from where the one before stopped. -/
def Fits : List DirEntry → List Call → Prop
  | _, [] => True
  | rest, c :: cs => ∃ now later, rest = now ++ later ∧ Snug c now later ∧ Fits later cs

variable {d : Dir} {areas : List Vma} {s s' s'' : Vars} {c : Call} {e : DirEntry}
  {es now later rest : List DirEntry} {pos res : Nat}

/-! ## Records -/

theorem recordLen_bounds (e : DirEntry) :
    sizeofDe + e.name.length + 1 ≤ recordLen e ∧ recordLen e ≤ sizeofDe + e.name.length + 4 := by
  unfold recordLen
  rw [alignaddrUp_four]
  omega

theorem recordLen_pos (e : DirEntry) : 0 < recordLen e := by
  have hle := (recordLen_bounds e).1
  omega

theorem total_cons (e : DirEntry) (es : List DirEntry) : total (e :: es) = recordLen e + total es := by
  rw [total, List.map_cons, List.sum_cons]
  rfl

theorem span_cons (e : DirEntry) (es : List DirEntry) : span (e :: es) = e.recLen + span es := by
  rw [span, List.map_cons, List.sum_cons]
  rfl

theorem ranges_sum (a : Nat) (es : List DirEntry) : ((ranges a es).map Prod.snd).sum = total es := by
  induction es generalizing a with
  | nil => rfl
  | cons e es ih => rw [ranges, List.map_cons, List.sum_cons, ih, total_cons]

theorem ranges_length (a : Nat) (es : List DirEntry) : (ranges a es).length = es.length := by
  induction es generalizing a with
  | nil => rfl
  | cons e es ih => rw [ranges, List.length_cons, ih, List.length_cons]

/-- The records lie between the start of the first and the end of the last. -/
theorem ranges_within {a : Nat} {w : Nat × Nat} (hw : w ∈ ranges a es) :
    a ≤ w.1 ∧ w.1 + w.2 ≤ a + total es := by
  induction es generalizing a with
  | nil => cases hw
  | cons e es ih =>
    rw [total_cons]
    rcases List.mem_cons.mp hw with rfl | hw
    · dsimp only
      omega
    · have hin := ih hw
      omega

theorem ranges_end (a : Nat) (hne : es ≠ []) : ∃ w ∈ ranges a es, w.1 + w.2 = a + total es := by
  induction es generalizing a with
  | nil => exact absurd rfl hne
  | cons e es ih =>
    rw [total_cons]
    cases es with
    | nil => exact ⟨_, List.mem_cons_self, rfl⟩
    | cons e' es =>
      obtain ⟨w, hw, hend⟩ := ih (a + recordLen e) (List.cons_ne_nil e' es)
      exact ⟨w, List.mem_cons_of_mem _ hw, by omega⟩

/-- There are no gaps between the records. -/
theorem ranges_cover {a k : Nat} (hlo : a ≤ k) (hhi : k < a + total es) :
    ∃ w ∈ ranges a es, w.1 ≤ k ∧ k < w.1 + w.2 := by
  induction es generalizing a with
  | nil => exact absurd hhi (Nat.not_lt.mpr hlo)
  | cons e es ih =>
    rw [total_cons] at hhi
    by_cases hin : k < a + recordLen e
    · exact ⟨_, List.mem_cons_self, hlo, hin⟩
    · obtain ⟨w, hw, hcov⟩ := ih (Nat.not_lt.mp hin) (by omega)
      exact ⟨w, List.mem_cons_of_mem _ hw, hcov⟩

theorem RecordAt.congr {mem mem' : Bytes} {a : Nat} (h : RecordAt mem a e)
    (hsame : ∀ k, k < recordLen e → mem' (a + k) = mem (a + k)) : RecordAt mem' a e := by
  obtain ⟨hentry, hnul⟩ := h
  have hlen := (recordLen_bounds e).1
  constructor
  · rw [← hentry]
    refine entryAt_congr fun k hk => hsame k ?_
    rw [hentry] at hk
    have hk : k < sizeofDe + e.name.length := hk
    omega
  · have hlast := hsame (sizeofDe + e.name.length) (by omega)
    rw [← Nat.add_assoc] at hlast
    rw [hlast]
    exact hnul

/-! ## A round -/

/-- What rounds do that write the records of `now`, but for `res`. -/
structure Wrote (s : Vars) (now : List DirEntry) (s' : Vars) : Prop where
  buf : s'.buf = s.buf + total now
  fPos : s'.fPos = s.fPos + span now
  writes : s'.writes = s.writes ++ ranges s.buf now
  records : Records s'.mem s.buf now
  frame : ∀ a, ¬ (s.buf ≤ a ∧ a < s.buf + total now) → s'.mem a = s.mem a

theorem Wrote.refl (s : Vars) : Wrote s [] s :=
  ⟨rfl, rfl, (List.append_nil _).symm, trivial, fun _ _ => rfl⟩

theorem Wrote.cons (h : Wrote s [e] s') (h' : Wrote s' now s'') : Wrote s (e :: now) s'' := by
  have hone : total [e] = recordLen e := total_cons e []
  have hbuf : s'.buf = s.buf + recordLen e := by rw [h.buf, hone]
  refine ⟨?_, ?_, ?_, ⟨h.records.1.congr fun k hk => ?_, ?_⟩, fun a ha => ?_⟩
  · rw [h'.buf, hbuf, total_cons, Nat.add_assoc]
  · have hspan : span [e] = e.recLen := span_cons e []
    rw [h'.fPos, h.fPos, hspan, span_cons, Nat.add_assoc]
  · rw [h'.writes, h.writes, hbuf, List.append_assoc]
    rfl
  · exact h'.frame _ (by omega)
  · have hrecords := h'.records
    rw [hbuf] at hrecords
    exact hrecords
  · rw [total_cons] at ha
    rw [h'.frame a (by omega), h.frame a (by omega)]

/-- A round at the end of the directory. -/
theorem getdentsRound_end (hend : s.fPos = d.iSize) : getdentsRound d areas s = none := by
  have hzero : readiRes d s.fPos EXT2_DIRENTRY_MAXSIZE = 0 := by
    rw [readiRes, hend, if_neg (Nat.lt_irrefl _), Nat.sub_self, Nat.min_zero]
  rw [getdentsRound, if_pos hzero]

/-- The NUL behind the name is not part of the entry. -/
theorem entryAt_nul {de : Bytes} (h : entryAt de 0 = e) :
    entryAt (splice de (sizeofDe + e.name.length) 1 fun _ => 0) 0 = e := by
  subst h
  refine entryAt_congr fun k hk => ?_
  rw [Nat.zero_add]
  exact splice_of_not_mem (by omega)

/-- What `sys_getdents` makes of an entry in its buffer. -/
theorem record_bytes {de : Bytes} (h : entryAt de 0 = e) (hshort : e.name.length ≤ EXT2_NAME_LEN) :
    let de' := setRecLen (splice de (sizeofDe + e.name.length) 1 fun _ => 0) (recordLen e)
    entryAt de' 0 = { e with recLen := recordLen e } ∧ de' (sizeofDe + e.name.length) = 0 := by
  intro de'
  have hde : sizeofDe = 8 := rfl
  have hnl : EXT2_NAME_LEN = 255 := rfl
  have hmod : recordLen e % 2 ^ 16 = recordLen e := by
    have hle := (recordLen_bounds e).2
    omega
  constructor
  · have hset := entryAt_setRecLen (v := recordLen e) (entryAt_nul h)
    rw [hmod] at hset
    exact hset
  · have hself : splice de (sizeofDe + e.name.length) 1 (fun _ => 0) (sizeofDe + e.name.length) = 0 :=
      splice_of_mem (Nat.le_refl _) (Nat.lt_succ_self _)
    rw [← hself]
    exact splice_of_not_mem (by omega)

/-- A round on an entry. -/
theorem getdentsRound_entry (areas : List Vma) (h : Tiles d.data s.fPos (e :: es) d.iSize) :
    (verifyArea areas s.buf (recordLen e) (PTE_R ||| PTE_W ||| PTE_U) = false →
      getdentsRound d areas s = none) ∧
    (verifyArea areas s.buf (recordLen e) (PTE_R ||| PTE_W ||| PTE_U) = true →
      ∃ s', getdentsRound d areas s = some s' ∧ s'.res = int32 (s.res + recordLen e) ∧
        Wrote s [e] s') := by
  obtain ⟨he, hok, hes⟩ := h
  have hle := hes.le
  have hroom := hok.room
  have hshort := hok.short
  have hde : sizeofDe = 8 := rfl
  have hmax : EXT2_DIRENTRY_MAXSIZE = 263 := rfl
  have hnl : EXT2_NAME_LEN = 255 := rfl
  have hread := entryAt_readi s.tmpDe he hok hle
  have hlen := deNameLen_of_entryAt hread
  have hrecord : alignaddrUp (sizeofDe + e.name.length + 1) 4 = recordLen e := rfl
  have hfit := (recordLen_bounds e).1
  have hsome : ¬ readiRes d s.fPos EXT2_DIRENTRY_MAXSIZE = 0 := by
    rw [readiRes, if_neg (by omega)]
    omega
  rw [getdentsRound, if_neg hsome]
  dsimp only
  rw [hlen, hrecord]
  refine ⟨fun hv => if_neg (fun hv' => Bool.false_ne_true (hv.symm.trans hv')), fun hv => ?_⟩
  obtain ⟨hfields, hnul⟩ := record_bytes hread hshort
  refine ⟨_, if_pos hv, rfl, ?_⟩
  have hone : total [e] = recordLen e := total_cons e []
  refine ⟨by rw [hone], ?_, rfl, ⟨⟨?_, ?_⟩, trivial⟩, fun a ha => ?_⟩
  · have hrec := deRecLen_of_entryAt (entryAt_nul hread)
    dsimp only
    rw [hrec]
    rfl
  · have hlast : sizeofDe + e.name.length ≤ recordLen e := by omega
    exact entryAt_splice hfields hlast
  · have hlast : sizeofDe + e.name.length < recordLen e := by omega
    dsimp only
    rw [Nat.add_assoc, splice_add hlast]
    exact hnul
  · rw [hone] at ha
    exact splice_of_not_mem ha

/-! ## The loop -/

theorem int32_add (x : Int) (n : Nat) : int32 (int32 x + n) = int32 (x + n) := by
  rw [int32, int32, int32]
  omega

theorem int32_small (h : res < 2 ^ 31) : int32 res = res := by
  rw [int32]
  omega

theorem int32_lt (x : Int) : int32 x < 2 ^ 31 := by
  rw [int32]
  omega

/-- From 2^31 on the number of bytes is negative, and as a `size_t` above every buffer. -/
theorem sizeT_int32 {nbytes : Nat} (hn : nbytes ≤ MAXVA) (hres : res < 2 ^ 32) :
    sizeT (int32 res) < nbytes ↔ res < nbytes ∧ res < 2 ^ 31 := by
  have hmax : MAXVA = 2 ^ 38 := rfl
  rw [sizeT, int32]
  omega

/-- The loop takes the entries of `taken`. -/
theorem getdentsLoop_taken (hn : c.nbytes ≤ MAXVA) (hlt : res < 2 ^ 32)
    (hbuf : s.buf = c.buf + res) (hres : s.res = int32 res)
    (hfile : Tiles d.data s.fPos rest d.iSize) :
    ∃ s', (∀ rounds, rest.length < rounds → getdentsLoop d c.areas c.nbytes rounds s = some s') ∧
      s'.res = int32 ((res + total (taken c res rest) : Nat)) ∧ Wrote s (taken c res rest) s' := by
  induction rest generalizing s res with
  | nil =>
    refine ⟨s, fun rounds hrounds => ?_, hres, Wrote.refl s⟩
    obtain ⟨n, rfl⟩ := Nat.exists_eq_succ_of_ne_zero (Nat.ne_of_gt hrounds)
    rw [getdentsLoop, getdentsRound_end hfile]
    exact ite_self _
  | cons e es ih =>
    have hloop := sizeT_int32 hn hlt
    rw [← hres] at hloop
    obtain ⟨hstop, hgo⟩ := getdentsRound_entry c.areas hfile
    rw [hbuf] at hstop hgo
    rw [taken]
    split
    next hyes =>
      -- the entry is taken, and the loop goes on behind it
      obtain ⟨s₁, hround, hres₁, hwrote⟩ := hgo hyes.2
      have hone : total [e] = recordLen e := total_cons e []
      have hle := (recordLen_bounds e).2
      have hshort := hfile.2.1.short
      have hnl : EXT2_NAME_LEN = 255 := rfl
      have hde : sizeofDe = 8 := rfl
      have hres₁ : s₁.res = int32 ((res + recordLen e : Nat)) := by
        rw [hres₁, hres, int32_add, Int.natCast_add]
      have hbuf₁ : s₁.buf = c.buf + (res + recordLen e) := by
        rw [hwrote.buf, hone, hbuf, Nat.add_assoc]
      have hfile₁ : Tiles d.data s₁.fPos es d.iSize := by
        rw [hwrote.fPos]
        exact hfile.2.2
      obtain ⟨s', hruns, hres', hwrote'⟩ := ih (by omega) hbuf₁ hres₁ hfile₁
      refine ⟨s', fun rounds hrounds => ?_, ?_, hwrote.cons hwrote'⟩
      · obtain ⟨n, rfl⟩ := Nat.exists_eq_succ_of_ne_zero (Nat.ne_of_gt (Nat.zero_lt_of_lt hrounds))
        rw [getdentsLoop, if_pos (hloop.mpr hyes.1), hround]
        exact hruns n (Nat.lt_of_succ_lt_succ hrounds)
      · rw [hres', total_cons, Nat.add_assoc]
    next hno =>
      refine ⟨s, fun rounds hrounds => ?_, hres, Wrote.refl s⟩
      obtain ⟨n, rfl⟩ := Nat.exists_eq_succ_of_ne_zero (Nat.ne_of_gt (Nat.zero_lt_of_lt hrounds))
      rw [getdentsLoop]
      by_cases hroom : sizeT s.res < c.nbytes
      · have hv := Bool.eq_false_iff.mpr fun hv => hno ⟨hloop.mp hroom, hv⟩
        rw [if_pos hroom, hstop hv]
      · rw [if_neg hroom]

/-- A call, from what the loop takes. -/
theorem sysGetdents_taken (hn : c.nbytes ≤ MAXVA) (hfile : Tiles d.data pos rest d.iSize) :
    ∃ s', Returns d pos c ⟨s'.res, s'.fPos, s'.mem, s'.writes⟩ ∧
      s'.res = int32 (total (taken c 0 rest) : Nat) ∧
      Wrote ⟨0, c.buf, pos, c.tmpDe, c.mem, []⟩ (taken c 0 rest) s' := by
  obtain ⟨s', hruns, hres, hwrote⟩ := getdentsLoop_taken (c := c)
    (s := ⟨0, c.buf, pos, c.tmpDe, c.mem, []⟩) hn (show 0 < 2 ^ 32 by decide) rfl rfl hfile
  refine ⟨s', ⟨rest.length + 1, fun rounds hrounds => ?_⟩, ?_, hwrote⟩
  · rw [sysGetdents]
    dsimp only
    rw [if_pos rfl, hruns rounds hrounds]
    rfl
  · rw [hres, Nat.zero_add]

theorem Returns.unique {o o' : Out} (h : Returns d pos c o) (h' : Returns d pos c o') : o = o' := by
  obtain ⟨n, hn⟩ := h
  obtain ⟨n', hn'⟩ := h'
  have heq := hn (max n n') (Nat.le_max_left n n')
  rw [hn' (max n n') (Nat.le_max_right n n')] at heq
  exact (Option.some.inj heq).symm

/-! ## What the loop takes -/

theorem taken_prefix (c : Call) (res : Nat) (rest : List DirEntry) :
    ∃ later, rest = taken c res rest ++ later := by
  induction rest generalizing res with
  | nil => exact ⟨[], rfl⟩
  | cons e es ih =>
    rw [taken]
    split
    · obtain ⟨later, hlater⟩ := ih (res + recordLen e)
      exact ⟨later, congrArg (e :: ·) hlater⟩
    · exact ⟨e :: es, rfl⟩

/-- What fits into the buffer is taken. -/
theorem taken_append (hu : Usable c) (hfits : res + total now ≤ c.nbytes)
    (hsmall : res + total now < 2 ^ 31) :
    taken c res (now ++ later) = now ++ taken c (res + total now) later := by
  induction now generalizing res with
  | nil => rfl
  | cons e es ih =>
    rw [total_cons] at hfits hsmall
    have hpos := recordLen_pos e
    have hv := hu.verified (c.buf + res) (recordLen e) (Nat.le_add_right _ _) (by omega)
    rw [List.cons_append, taken, if_pos ⟨⟨by omega, by omega⟩, hv⟩, ih (by omega) (by omega),
      total_cons, Nat.add_assoc]
    rfl

theorem Snug.taken (hu : Usable c) (h : Snug c now later) : taken c 0 (now ++ later) = now := by
  have hfits := h.fits
  have hsmall := h.small
  rw [taken_append hu (by omega) (by omega), Nat.zero_add]
  cases hlater : later with
  | nil => exact List.append_nil now
  | cons e es =>
    have hno : ¬ ((total now < c.nbytes ∧ total now < 2 ^ 31) ∧ verifyArea c.areas
        (c.buf + total now) (recordLen e) (PTE_R ||| PTE_W ||| PTE_U) = true) := by
      rintro ⟨hroom, hv⟩
      rcases h.stops e es hlater with hfull | ⟨-, hv'⟩
      · omega
      · exact Bool.false_ne_true (hv'.symm.trans hv)
    rw [Getdents.taken, if_neg hno, List.append_nil]

theorem snug_of_taken (hu : Usable c) (htaken : taken c 0 (now ++ later) = now)
    (hfits : total now ≤ c.nbytes) (hsmall : total now < 2 ^ 31) : Snug c now later := by
  refine ⟨hfits, hsmall, fun e es hlater => ?_⟩
  rw [taken_append hu (by omega) (by omega), Nat.zero_add, hlater] at htaken
  have hnil := List.append_right_eq_self.mp htaken
  rw [taken] at hnil
  split at hnil
  next => cases hnil
  next hno =>
    by_cases hfull : total now = c.nbytes
    · exact .inl hfull
    · have hv := Bool.eq_false_iff.mpr fun hv => hno ⟨⟨by omega, hsmall⟩, hv⟩
      refine .inr ⟨?_, hv⟩
      -- a record inside the buffer would have been taken
      by_contra hin
      rw [hu.verified _ _ (Nat.le_add_right _ _) (by omega)] at hv
      exact Bool.noConfusion hv

/-! ## A call -/

theorem CallLaw.within {o : Out} (h : CallLaw c pos now o) : total now ≤ c.nbytes := by
  by_cases hne : now = []
  · subst hne
    exact Nat.zero_le _
  · obtain ⟨w, hw, hend⟩ := ranges_end c.buf hne
    have hin := h.inside w (h.writes ▸ hw)
    omega

/-- A call that does what it is to do takes what the loop takes, and that is snug. -/
theorem CallLaw.snug {o : Out} (hu : Usable c) (hret : Returns d pos c o) (h : CallLaw c pos now o)
    (hfile : Tiles d.data pos (now ++ later) d.iSize) : Snug c now later := by
  have hn : c.nbytes ≤ MAXVA := Nat.le_trans (Nat.le_add_left _ _) hu.below
  obtain ⟨s', hret', hres, hwrote⟩ := sysGetdents_taken hn hfile
  obtain rfl := hret.unique hret'
  have hwrites : ranges c.buf (taken c 0 (now ++ later)) = ranges c.buf now := by
    rw [← h.writes]
    exact hwrote.writes.symm
  have hlen := congrArg List.length hwrites
  rw [ranges_length, ranges_length] at hlen
  obtain ⟨later', hlater'⟩ := taken_prefix c 0 (now ++ later)
  have htaken := (List.append_inj hlater' hlen.symm).1.symm
  rw [htaken] at hres
  have hsum := h.ret
  rw [h.writes, ranges_sum] at hsum
  have hlt := int32_lt (total now : Nat)
  have hsum : s'.res = (total now : Nat) := hsum
  rw [← hres, hsum] at hlt
  exact snug_of_taken hu htaken h.within (by omega)

/-- The other way around: a snug call does what it is to do. -/
theorem Snug.callLaw (hu : Usable c) (h : Snug c now later)
    (hfile : Tiles d.data pos (now ++ later) d.iSize) :
    ∃ o, Returns d pos c o ∧ CallLaw c pos now o := by
  have hn : c.nbytes ≤ MAXVA := Nat.le_trans (Nat.le_add_left _ _) hu.below
  obtain ⟨s', hret, hres, hwrote⟩ := sysGetdents_taken hn hfile
  rw [h.taken hu] at hres hwrote
  have hfits := h.fits
  have hwrites : s'.writes = ranges c.buf now := hwrote.writes
  refine ⟨_, hret, ?_, fun a ha => ?_, ?_, hwrites, hwrote.records, hwrote.fPos⟩
  · intro w hw
    have hin := ranges_within (hwrites ▸ hw)
    omega
  · refine hwrote.frame a fun hin => ?_
    obtain ⟨w, hw, hcov⟩ := ranges_cover hin.1 hin.2
    exact ha w (hwrites.symm ▸ hw) hcov
  · show s'.res = ((s'.writes.map Prod.snd).sum : Nat)
    rw [hwrites, ranges_sum, hres, int32_small h.small]

/-! ## Calls one after the other -/

theorem tiles_end {data : Bytes} {lo hi : Nat} (h : Tiles data lo es hi) : hi = lo + span es := by
  induction es generalizing lo with
  | nil => exact Eq.symm h
  | cons e es ih => rw [ih h.2.2, span_cons, Nat.add_assoc]

theorem tiles_drop {data : Bytes} {lo hi : Nat} (h : Tiles data lo (now ++ later) hi) :
    Tiles data (lo + span now) later hi := by
  obtain ⟨mid, hnow, hlater⟩ := tiles_append.mp h
  rw [← tiles_end hnow]
  exact hlater

/-- Enough calls with large buffers come to the end of the directory. -/
theorem CallsLaw.complete {calls : List Call} {outs : List Out} {nows : List (List DirEntry)}
    (h : CallsLaw d rest pos calls outs nows)
    (hbig : ∀ c ∈ calls, ∀ e ∈ rest, recordLen e ≤ c.nbytes) (hmany : rest.length < calls.length) :
    nows.flatten = rest ∧ ∃ o, outs.getLast? = some o ∧ o.ret = 0 := by
  induction calls generalizing rest pos outs nows with
  | nil => exact absurd hmany (Nat.not_lt_zero _)
  | cons c cs ih =>
    match outs, nows, h with
    | o :: os, now :: nows, ⟨hret, hlaw, later, hrest, hsome, hnext⟩ =>
      have hsome := hsome (hbig c List.mem_cons_self)
      have hlen := congrArg List.length hrest
      rw [List.length_append] at hlen
      rw [List.length_cons] at hmany
      by_cases hcs : cs = []
      · -- the last call, with nothing left
        subst hcs
        have hnil : rest = [] := List.eq_nil_of_length_eq_zero (Nat.lt_one_iff.mp hmany)
        subst hnil
        obtain ⟨rfl, rfl⟩ := List.append_eq_nil_iff.mp hrest.symm
        match os, nows, hnext with
        | [], [], _ =>
          refine ⟨rfl, o, rfl, ?_⟩
          rw [hlaw.ret, hlaw.writes]
          rfl
      · have hlater : later.length < cs.length := by
          have hcslen := List.length_pos_iff.mpr hcs
          by_cases hne : rest = []
          · rw [hne, List.length_nil] at hlen
            omega
          · have hnow := List.length_pos_iff.mpr (hsome hne)
            omega
        obtain ⟨hall, o', hlast, hzero⟩ := ih hnext
          (fun c' hc' e he => hbig c' (List.mem_cons_of_mem _ hc') e
            (hrest ▸ List.mem_append_right now he)) hlater
        refine ⟨?_, o', ?_, hzero⟩
        · rw [List.flatten_cons, hall, hrest]
        · rw [List.getLast?_cons, hlast]
          rfl

/-- A buffer for the largest record gets an entry, if it is snug. -/
theorem Snug.nonempty (h : Snug c now later)
    (hbig : ∀ e ∈ now ++ later, recordLen e ≤ c.nbytes) (hne : now ++ later ≠ []) : now ≠ [] := by
  rintro rfl
  obtain ⟨e, es, rfl⟩ := List.exists_cons_of_ne_nil hne
  have hle := hbig e List.mem_cons_self
  have hpos := recordLen_pos e
  have hnil : total [] = 0 := rfl
  have hstops := h.stops e es rfl
  omega

theorem CallsLaw.fits {calls : List Call} {outs : List Out} {nows : List (List DirEntry)}
    (h : CallsLaw d rest pos calls outs nows) (hu : ∀ c ∈ calls, Usable c)
    (hfile : Tiles d.data pos rest d.iSize) : Fits rest calls := by
  induction calls generalizing rest pos outs nows with
  | nil => trivial
  | cons c cs ih =>
    match outs, nows, h with
    | o :: os, now :: nows, ⟨hret, hlaw, later, hrest, _, hnext⟩ =>
      rw [hrest] at hfile
      refine ⟨now, later, hrest, hlaw.snug (hu c List.mem_cons_self) hret hfile, ?_⟩
      refine ih hnext (fun c' hc' => hu c' (List.mem_cons_of_mem _ hc')) ?_
      rw [hlaw.fPos]
      exact tiles_drop hfile

theorem Fits.callsLaw {calls : List Call} (h : Fits rest calls) (hu : ∀ c ∈ calls, Usable c)
    (hfile : Tiles d.data pos rest d.iSize) : ∃ outs nows, CallsLaw d rest pos calls outs nows := by
  induction calls generalizing rest pos with
  | nil => exact ⟨[], [], trivial⟩
  | cons c cs ih =>
    obtain ⟨now, later, rfl, hsnug, hnext⟩ := h
    have huc := hu c List.mem_cons_self
    obtain ⟨o, hret, hlaw⟩ := hsnug.callLaw huc hfile
    have hfile' := tiles_drop hfile
    rw [← hlaw.fPos] at hfile'
    obtain ⟨outs, nows, hcalls⟩ := ih hnext (fun c' hc' => hu c' (List.mem_cons_of_mem _ hc')) hfile'
    exact ⟨o :: outs, now :: nows, hret, hlaw, later, rfl, hsnug.nonempty, hcalls⟩

/-- From an entry boundary of a well-formed directory the calls enumerate what is left if and only
    if each one stops at the end of its buffer. -/
theorem getdents_enumerates_iff {done : List DirEntry} {calls : List Call}
    (hd : WellFormed d (done ++ rest)) (hu : ∀ c ∈ calls, Usable c) :
    Enumerates d rest (span done) calls ↔ Fits rest calls := by
  have hfile : Tiles d.data (span done) rest d.iSize := by
    have hdrop := tiles_drop hd
    rw [Nat.zero_add] at hdrop
    exact hdrop
  constructor
  · rintro ⟨outs, nows, hcalls, -⟩
    exact hcalls.fits hu hfile
  · intro hfits
    obtain ⟨outs, nows, hcalls⟩ := hfits.callsLaw hu hfile
    refine ⟨outs, nows, hcalls, fun hbig hmany => ?_⟩
    obtain ⟨hall, hzero⟩ := hcalls.complete hbig hmany
    exact ⟨congrArg live hall, hzero⟩

/-! ## Two entries of twelve bytes each -/

/-- A buffer at the start of a page of a stack. -/
def callWith (nbytes : Nat) : Call where
  buf := 0x1000
  nbytes := nbytes
  areas := [⟨0x1000, 0x2000, PTE_R ||| PTE_W ||| PTE_U, 0, 0, none⟩]
  mem := fun _ => 0
  tmpDe := fun _ => 0

theorem callWith_usable {nbytes : Nat} (hn : nbytes ≤ 0x1000) : Usable (callWith nbytes) := by
  have hmax : MAXVA = 2 ^ 38 := rfl
  have haddrs : Vm.ADDRS = 2 ^ 64 := rfl
  refine ⟨?_, fun a n hlo hhi => ?_⟩
  · show 0x1000 + nbytes ≤ MAXVA
    omega
  · have hlo : 0x1000 ≤ a := hlo
    have hhi : a + n ≤ 0x1000 + nbytes := hhi
    have hmod : (a + n) % Vm.ADDRS = a + n := Nat.mod_eq_of_lt (by omega)
    have hend : a + n ≤ 0x2000 := by omega
    have hfound : searchVmareas (callWith nbytes).areas a n =
        some ⟨0x1000, 0x2000, PTE_R ||| PTE_W ||| PTE_U, 0, 0, none⟩ := by
      rw [searchVmareas, hmod]
      refine List.find?_cons_of_pos ?_
      rw [Bool.and_eq_true, decide_eq_true_eq, decide_eq_true_eq]
      exact ⟨hlo, hend⟩
    rw [verifyArea, hfound]
    rfl

theorem twoEntries_fits :
    Fits [entryA, entryB] [callWith 24, callWith 24, callWith 24] := by
  have hnone : Snug (callWith 24) [] [] :=
    ⟨Nat.zero_le _, by decide, fun e es h => nomatch (h : [] = e :: es)⟩
  refine ⟨[entryA, entryB], [], rfl, ⟨by decide, by decide, fun e es h => nomatch (h : [] = e :: es)⟩, ?_⟩
  exact ⟨[], [], rfl, hnone, [], [], rfl, hnone, trivial⟩

theorem getdents_enumerates_iff_twoEntries :
    Enumerates twoEntries [entryA, entryB] 0 [callWith 24, callWith 24, callWith 24] := by
  have hd : WellFormed twoEntries ([] ++ [entryA, entryB]) := twoEntries_wellFormed
  refine (getdents_enumerates_iff hd fun c hc => ?_).mpr twoEntries_fits
  have hc : c = callWith 24 := by
    simp only [List.mem_cons, List.not_mem_nil, or_false, or_self] at hc
    exact hc
  rw [hc]
  exact callWith_usable (by decide)

/-- A buffer of sixteen bytes has room for either record, and both are written. -/
theorem getdents_overflows :
    WellFormed twoEntries [entryA, entryB] ∧ Usable (callWith 16) ∧
      (∃ o, Returns twoEntries 0 (callWith 16) o ∧ o.writes = [(0x1000, 12), (0x100c, 12)]) ∧
      ¬ Enumerates twoEntries [entryA, entryB] 0 [callWith 16] := by
  obtain ⟨s', hret, -, hwrote⟩ := sysGetdents_taken (c := callWith 16) (by decide)
    twoEntries_wellFormed
  have hwrites : s'.writes = [(0x1000, 12), (0x100c, 12)] := hwrote.writes
  refine ⟨twoEntries_wellFormed, callWith_usable (by decide), ⟨_, hret, hwrites⟩, ?_⟩
  rintro ⟨outs, nows, hcalls, -⟩
  match outs, nows, hcalls with
  | o :: os, now :: nows, ⟨hret', hlaw, _⟩ =>
    obtain rfl := hret.unique hret'
    have hmem : (0x100c, 12) ∈ s'.writes := by
      rw [hwrites]
      decide
    have hin := (hlaw.inside (0x100c, 12) hmem).2
    exact absurd hin (by decide)

end Uniks.Getdents
