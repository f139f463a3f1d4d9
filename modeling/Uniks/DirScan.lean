/-
  The loops of `dirlookup` and `dirlink`, whatever the directory contains and whatever `readi` makes
  of each call.

  Both loops go from entry to entry by the length they find in the buffer, and neither looks at what
  `readi` has returned.  `Loop` is what they share: a test that ends the loop, and how much of the
  buffer the body looks at.  Left to themselves they follow the lengths in the directory (`chain`);
  they do so as long as each call delivers what is looked at, and end if no length on the way is
  zero (`Loop.goes_well_iff`).
-/
import Uniks.DirLink
import Uniks.LoadPage

namespace Uniks.DirScan

open Uniks.ByteMem Uniks.DirLink

/-! ## Reading entries -/

/-- A directory, and for each call of `readi` in the loop whether a sync is running and which blocks
    can be had. -/
structure Env where
  iSize : UInt32
  data : Bytes
  syncing : Nat → Nat
  served : Nat → Nat → Bool

/-- The directory as the call with number `no` sees it. -/
def Env.inode (e : Env) (no : Nat) : LoadPage.Inode where
  iSize := e.iSize
  block := fun m => if e.served no m then some fun k => e.data (m * BLKSIZE + k) else none

/-- The call of `readi` that both loops make. -/
def Env.read (e : Env) (no : Nat) (dst : Bytes) (off : Nat) : Bytes × Int :=
  LoadPage.readi (e.syncing no) (e.inode no) dst off EXT2_DIRENTRY_MAXSIZE

/-- The calls after the first `n` ones. -/
def Env.later (e : Env) (n : Nat) : Env :=
  { e with syncing := fun no => e.syncing (n + no), served := fun no => e.served (n + no) }

/-- How many bytes a call delivers; what was in the buffer before does not matter. -/
def Env.got (e : Env) (no off : Nat) : Nat := (e.read no (fun _ => 0) off).2.toNat

/-- The bytes of the directory from an offset on. -/
def Env.at (e : Env) (off : Nat) : Bytes := fun k => e.data (off + k)

variable {e : Env} {no off n : Nat} {dst : Bytes} {name : Name}

theorem Env.inode_byte (e : Env) (no pos : Nat) {x : UInt8} (h : (e.inode no).byte pos = some x) :
    x = e.data pos := by
  unfold LoadPage.Inode.byte Env.inode at h
  split at h
  · by_cases hserved : e.served no (pos / LoadPage.BLKSIZE) = true
    · dsimp only at h
      rw [if_pos hserved] at h
      have hpos : pos / LoadPage.BLKSIZE * BLKSIZE + pos % LoadPage.BLKSIZE = pos :=
        Nat.div_add_mod' pos 4096
      have hx := (Option.some.inj h).symm
      rw [hx]
      show e.data (pos / LoadPage.BLKSIZE * BLKSIZE + pos % LoadPage.BLKSIZE) = _
      rw [hpos]
    · dsimp only at h
      rw [if_neg hserved] at h
      cases h
  · cases h

theorem fits_addrs (e : Env) (no : Nat) (hoff : off < e.iSize.toNat) :
    off + EXT2_DIRENTRY_MAXSIZE < Vm.ADDRS ∨ (e.inode no).iSize.toNat < off := by
  have hlt := e.iSize.toNat_lt
  have hmax : EXT2_DIRENTRY_MAXSIZE = 263 := rfl
  unfold Vm.ADDRS
  omega

/-- A call fills the buffer from the directory, as far as it says. -/
theorem Env.read_spec (e : Env) (no : Nat) (dst : Bytes) (hoff : off < e.iSize.toNat) :
    (e.read no dst off).2.toNat = e.got no off ∧
      ∀ k < e.got no off, (e.read no dst off).1 k = e.at off k := by
  have hfits := fits_addrs e no hoff
  obtain ⟨t, ht, htn, hstop, hbytes⟩ :=
    LoadPage.readi_prefix (e.syncing no) (e.inode no) dst off EXT2_DIRENTRY_MAXSIZE hfits
  obtain ⟨u, hu, hun, hstop', hbytes'⟩ :=
    LoadPage.readi_prefix (e.syncing no) (e.inode no) (fun _ => 0) off EXT2_DIRENTRY_MAXSIZE hfits
  have hgot : e.got no off = u := hu
  have hsame : t = u := by
    by_cases hsync : e.syncing no > 0
    · have hzero : ∀ dst, (LoadPage.readi (e.syncing no) (e.inode no) dst off
          EXT2_DIRENTRY_MAXSIZE).2.toNat = 0 := by
        intro dst
        rw [LoadPage.readi, if_pos hsync]
        rfl
      rw [← ht, ← hu, hzero, hzero]
    · rcases Nat.lt_trichotomy t u with hlt | heq | hgt
      · have hnone := (hstop (by omega)).resolve_left hsync
        have hsome := hbytes' t
        rw [if_pos hlt, hnone] at hsome
        cases hsome
      · exact heq
      · have hnone := (hstop' (by omega)).resolve_left hsync
        have hsome := hbytes u
        rw [if_pos hgt, hnone] at hsome
        cases hsome
  rw [hgot]
  refine ⟨ht.trans hsame, fun k hk => ?_⟩
  have hbyte := hbytes k
  rw [if_pos (hsame ▸ hk)] at hbyte
  exact Env.inode_byte e no (off + k) hbyte

/-! ## The loops -/

/-- The body of a loop over the entries: when it leaves the loop, and how many bytes of the buffer
    it looks at, its step included.  The bytes it looks at decide both. -/
structure Loop where
  stops : Bytes → Bool
  looks : Bytes → Nat
  header : ∀ de, 6 ≤ looks de
  local_looks : ∀ de de', (∀ k < looks de, de' k = de k) → looks de' = looks de
  local_stops : ∀ de de', (∀ k < looks de, de' k = de k) → stops de' = stops de

/-- The offset and the buffer before round `n`; `none` if there is no such round.  The source's
    `continue` takes the same step as the end of the body. -/
def Loop.before (l : Loop) (e : Env) (tmpDe : Bytes) : Nat → Option (Nat × Bytes)
  | 0 => some (0, tmpDe)
  | n + 1 => do
    let (off, tmpDe) ← l.before e tmpDe n
    if off < e.iSize.toNat then
      let de := (e.read n tmpDe off).1
      if l.stops de then none else some (off + deRecLen de, de)
    else none

/-- The loop comes to an end. -/
def Loop.Ends (l : Loop) (e : Env) (tmpDe : Bytes) : Prop := ∃ n, l.before e tmpDe n = none

/-- No round looks at a byte that its call of `readi` has not delivered. -/
def Loop.Delivered (l : Loop) (e : Env) (tmpDe : Bytes) : Prop :=
  ∀ n off de, l.before e tmpDe n = some (off, de) → off < e.iSize.toNat →
    (l.looks (e.read n de off).1 : Int) ≤ (e.read n de off).2

/-- The offsets that the lengths in the directory lead to. -/
def chain (e : Env) : Nat → Nat
  | 0 => 0
  | n + 1 => chain e n + deRecLen (e.at (chain e n))

/-- The entries before number `n` lie in the directory, and none of them stops the loop. -/
def Loop.Comes (l : Loop) (e : Env) (n : Nat) : Prop :=
  ∀ m < n, chain e m < e.iSize.toNat ∧ l.stops (e.at (chain e m)) = false

/-- Every entry that the loop comes to is delivered as far as it is looked at, and has a length, or
    stops the loop. -/
def Loop.GoesWell (l : Loop) (e : Env) : Prop :=
  ∀ n, l.Comes e n → chain e n < e.iSize.toNat →
    l.looks (e.at (chain e n)) ≤ e.got n (chain e n) ∧
      (l.stops (e.at (chain e n)) = true ∨ deRecLen (e.at (chain e n)) ≠ 0)

variable {l : Loop} {tmpDe : Bytes}

/-- A buffer that has what is looked at is as good as the directory. -/
theorem Loop.looks_eq (l : Loop) (hoff : off < e.iSize.toNat) :
    ((l.looks (e.read no dst off).1 : Int) ≤ (e.read no dst off).2 ↔
      l.looks (e.at off) ≤ e.got no off) := by
  obtain ⟨hgot, hbytes⟩ := e.read_spec no dst hoff
  have hheader := l.header (e.read no dst off).1
  constructor
  · intro hle
    have hle : l.looks (e.read no dst off).1 ≤ e.got no off := by omega
    rw [l.local_looks (e.read no dst off).1 (e.at off) fun k hk =>
      (hbytes k (by omega)).symm]
    exact hle
  · intro hle
    have hheader := l.header (e.at off)
    rw [l.local_looks (e.at off) (e.read no dst off).1 fun k hk => hbytes k (by omega)]
    omega

/-- It gives the same answer, and the same step. -/
theorem Loop.delivered_eq (l : Loop) (dst : Bytes) (hoff : off < e.iSize.toNat)
    (h : l.looks (e.at off) ≤ e.got no off) :
    l.stops (e.read no dst off).1 = l.stops (e.at off) ∧
      deRecLen (e.read no dst off).1 = deRecLen (e.at off) := by
  obtain ⟨hgot, hbytes⟩ := e.read_spec no dst hoff
  have hheader := l.header (e.at off)
  refine ⟨l.local_stops _ _ fun k hk => hbytes k (by omega), ?_⟩
  exact getLE_congr fun k hk => hbytes (4 + k) (by omega)

/-- A round that is delivered takes the loop to the next offset. -/
theorem Loop.before_succ (hbefore : l.before e tmpDe n = some (chain e n, dst))
    (hoff : chain e n < e.iSize.toNat)
    (hlooks : l.looks (e.at (chain e n)) ≤ e.got n (chain e n)) :
    l.before e tmpDe (n + 1) = if l.stops (e.at (chain e n)) then none
      else some (chain e (n + 1), (e.read n dst (chain e n)).1) := by
  obtain ⟨hstops, hstep⟩ := l.delivered_eq dst hoff hlooks
  rw [Loop.before, hbefore]
  show (if _ then _ else _) = _
  rw [if_pos hoff, hstops, hstep]
  rfl

/-- The loop follows the lengths in the directory. -/
theorem Loop.before_chain (tmpDe : Bytes)
    (hdelivered : ∀ m < n, l.looks (e.at (chain e m)) ≤ e.got m (chain e m))
    (hcomes : l.Comes e n) : ∃ de, l.before e tmpDe n = some (chain e n, de) := by
  induction n with
  | zero => exact ⟨tmpDe, rfl⟩
  | succ n ih =>
    obtain ⟨de, hbefore⟩ := ih (fun m hm => hdelivered m (by omega))
      (fun m hm => hcomes m (by omega))
    obtain ⟨hoff, hstops⟩ := hcomes n (Nat.lt_succ_self n)
    have hnext := Loop.before_succ hbefore hoff (hdelivered n (Nat.lt_succ_self n))
    rw [hstops] at hnext
    exact ⟨_, hnext⟩

/-- What is delivered to the loop is delivered along the chain. -/
theorem Loop.Delivered.along (h : l.Delivered e tmpDe) (hcomes : l.Comes e n) :
    ∀ m < n, l.looks (e.at (chain e m)) ≤ e.got m (chain e m) := by
  intro m
  induction m using Nat.strong_induction_on with
  | _ m ih =>
    intro hm
    obtain ⟨de, hbefore⟩ := Loop.before_chain tmpDe (fun k hk => ih k hk (by omega))
      (fun k hk => hcomes k (by omega))
    have hoff := (hcomes m hm).1
    exact (l.looks_eq hoff).mp (h m _ de hbefore hoff)

theorem Loop.Delivered.here (h : l.Delivered e tmpDe) (hcomes : l.Comes e n)
    (hoff : chain e n < e.iSize.toNat) :
    l.looks (e.at (chain e n)) ≤ e.got n (chain e n) := by
  obtain ⟨de, hbefore⟩ := Loop.before_chain tmpDe (h.along hcomes) hcomes
  exact (l.looks_eq hoff).mp (h n _ de hbefore hoff)

/-- An entry without a length that does not stop the loop is looked at for ever. -/
theorem comes_forever (hcomes : l.Comes e n) (hoff : chain e n < e.iSize.toNat)
    (hstops : l.stops (e.at (chain e n)) = false) (hzero : deRecLen (e.at (chain e n)) = 0)
    (m : Nat) : chain e (n + m) = chain e n ∧ l.Comes e (n + m) := by
  induction m with
  | zero => exact ⟨rfl, hcomes⟩
  | succ m ih =>
    obtain ⟨hsame, hcomes'⟩ := ih
    refine ⟨?_, fun k hk => ?_⟩
    · show chain e (n + m) + deRecLen (e.at (chain e (n + m))) = _
      rw [hsame, hzero, Nat.add_zero]
    · rcases Nat.lt_or_eq_of_le (Nat.le_of_lt_succ hk) with hold | rfl
      · exact hcomes' k hold
      · show chain e (n + m) < _ ∧ l.stops (e.at (chain e (n + m))) = false
        rw [hsame]
        exact ⟨hoff, hstops⟩

/-- Where the loop goes well, it comes to the entries of the chain only. -/
theorem Loop.GoesWell.before (h : l.GoesWell e) (hbefore : l.before e tmpDe n = some (off, dst)) :
    off = chain e n ∧ l.Comes e n := by
  induction n generalizing off dst with
  | zero =>
    cases hbefore
    exact ⟨rfl, fun m hm => absurd hm (Nat.not_lt_zero m)⟩
  | succ n ih =>
    cases hprev : l.before e tmpDe n with
    | none =>
      rw [Loop.before, hprev] at hbefore
      cases hbefore
    | some prev =>
      obtain ⟨off₀, de₀⟩ := prev
      obtain ⟨rfl, hcomes⟩ := ih hprev
      by_cases hoff : chain e n < e.iSize.toNat
      · have hwell := (h n hcomes hoff).1
        rw [Loop.before_succ hprev hoff hwell] at hbefore
        split at hbefore
        · cases hbefore
        · rename_i hstops
          cases hbefore
          refine ⟨rfl, fun m hm => ?_⟩
          rcases Nat.lt_or_eq_of_le (Nat.le_of_lt_succ hm) with hold | rfl
          · exact hcomes m hold
          · exact ⟨hoff, (Bool.not_eq_true _).mp hstops⟩
      · rw [Loop.before, hprev] at hbefore
        have hbefore : (if chain e n < e.iSize.toNat then _ else none) = some (off, dst) := hbefore
        rw [if_neg hoff] at hbefore
        cases hbefore

/-- The chain moves on as long as the loop goes well. -/
theorem Loop.GoesWell.le_chain (h : l.GoesWell e) (hcomes : l.Comes e n) : n ≤ chain e n := by
  induction n with
  | zero => exact Nat.zero_le _
  | succ n ih =>
    have hbefore := ih fun m hm => hcomes m (by omega)
    obtain ⟨hoff, hstops⟩ := hcomes n (Nat.lt_succ_self n)
    obtain ⟨-, hstep⟩ := h n (fun m hm => hcomes m (by omega)) hoff
    rw [hstops] at hstep
    have hpos := hstep.resolve_left (by decide)
    show n + 1 ≤ chain e n + deRecLen (e.at (chain e n))
    omega

/-- The loop ends and looks at nothing that has not been delivered exactly if it goes well. -/
theorem Loop.goes_well_iff (l : Loop) (e : Env) (tmpDe : Bytes) :
    l.Ends e tmpDe ∧ l.Delivered e tmpDe ↔ l.GoesWell e := by
  constructor
  · rintro ⟨⟨last, hlast⟩, hdelivered⟩ n hcomes hoff
    refine ⟨hdelivered.here hcomes hoff, ?_⟩
    by_contra hstuck
    obtain ⟨hstops, hzero⟩ := not_or.mp hstuck
    obtain ⟨-, hcomes'⟩ := comes_forever hcomes hoff ((Bool.not_eq_true _).mp hstops)
      (not_not.mp hzero) last
    have hcomes'' : l.Comes e last := fun m hm => hcomes' m (by omega)
    obtain ⟨de, hbefore⟩ := Loop.before_chain tmpDe (hdelivered.along hcomes'') hcomes''
    exact nomatch hlast.symm.trans hbefore
  · intro h
    refine ⟨⟨e.iSize.toNat + 1, ?_⟩, fun n off de hbefore hoff => ?_⟩
    · by_contra hsome
      obtain ⟨⟨off, de⟩, hbefore⟩ := Option.ne_none_iff_exists'.mp hsome
      obtain ⟨-, hcomes⟩ := h.before hbefore
      have hle := h.le_chain (n := e.iSize.toNat) fun m hm => hcomes m (by omega)
      have hlt := (hcomes e.iSize.toNat (Nat.lt_succ_self _)).1
      omega
    · obtain ⟨rfl, hcomes⟩ := h.before hbefore
      exact (l.looks_eq hoff).mpr (h n hcomes hoff).1

/-! ## `dirlookup` and `dirlink` -/

/-- How many bytes of its second argument `strncmp` reads. -/
def strncmpReads (s1 s2 : Bytes) (i : Nat) : Nat → Nat
  | 0 => 0
  | n + 1 => if s1 i ≠ 0 ∧ s1 i = s2 i then strncmpReads s1 s2 (i + 1) n + 1 else 1

theorem strncmp_local {s1 s2 s2' : Bytes} (i n : Nat)
    (h : ∀ k, i ≤ k → k < i + strncmpReads s1 s2 i n → s2' k = s2 k) :
    strncmpReads s1 s2' i n = strncmpReads s1 s2 i n ∧
      strncmpEq s1 s2' i n = strncmpEq s1 s2 i n := by
  induction n generalizing i with
  | zero => exact ⟨rfl, rfl⟩
  | succ n ih =>
    have hfirst : s2' i = s2 i := by
      refine h i (Nat.le_refl i) ?_
      unfold strncmpReads
      split <;> omega
    unfold strncmpReads strncmpEq
    rw [hfirst]
    by_cases hgo : s1 i ≠ 0 ∧ s1 i = s2 i
    · obtain ⟨hreads, heq⟩ := ih (i + 1) fun k hk hlt => h k (by omega) (by
        rw [strncmpReads, if_pos hgo]
        omega)
      simp only [if_pos hgo, hreads, heq, and_self]
    · simp only [if_neg hgo, and_self]

/-- What the body of `dirlookup` looks at: of an entry without an inode its length, of another one
    the header and as much of the name as `strncmp` compares. -/
def lookupLooks (name : Name) (de : Bytes) : Nat :=
  if deInode de = 0 then 6
  else sizeofDe + strncmpReads name.cstr (deName de) 0 (max name.chars.length (deNameLen de))

theorem lookupLooks_ge (name : Name) (de : Bytes) : 6 ≤ lookupLooks name de := by
  unfold lookupLooks
  split
  · exact Nat.le_refl 6
  · exact Nat.le_trans (by decide) (Nat.le_add_right sizeofDe _)

theorem lookup_local (name : Name) {de de' : Bytes}
    (h : ∀ k < lookupLooks name de, de' k = de k) :
    lookupLooks name de' = lookupLooks name de ∧ matchesName name de' = matchesName name de := by
  have hheader := lookupLooks_ge name de
  have hinode : deInode de' = deInode de := getLE_congr fun k hk => h (0 + k) (by omega)
  by_cases hzero : deInode de = 0
  · unfold lookupLooks matchesName
    rw [hinode, if_pos hzero, if_pos hzero, hzero]
    exact ⟨rfl, rfl⟩
  · have hlooks : lookupLooks name de = sizeofDe + strncmpReads name.cstr (deName de) 0
        (max name.chars.length (deNameLen de)) := if_neg hzero
    have hde : sizeofDe = 8 := rfl
    have hlen : deNameLen de' = deNameLen de := getLE_congr fun k hk => h (6 + k) (by omega)
    have hname : ∀ k, 0 ≤ k → k < 0 + strncmpReads name.cstr (deName de) 0
        (max name.chars.length (deNameLen de)) → deName de' k = deName de k :=
      fun k _ hk => h (sizeofDe + k) (by omega)
    obtain ⟨hreads, heq⟩ := strncmp_local 0 (max name.chars.length (deNameLen de)) hname
    unfold lookupLooks matchesName
    rw [hinode, hlen, if_neg hzero, if_neg hzero, hreads, heq]
    exact ⟨rfl, rfl⟩

/-- The body of the loop of `dirlookup`. -/
def lookupLoop (name : Name) : Loop where
  stops := matchesName name
  looks := lookupLooks name
  header := lookupLooks_ge name
  local_looks := fun _ _ h => (lookup_local name h).1
  local_stops := fun _ _ h => (lookup_local name h).2

def roomLooks (de : Bytes) : Nat := if deInode de = 0 then 6 else sizeofDe

theorem room_local (namelen : Nat) {de de' : Bytes} (h : ∀ k < roomLooks de, de' k = de k) :
    roomLooks de' = roomLooks de ∧ hasRoom namelen de' = hasRoom namelen de := by
  unfold roomLooks at h ⊢
  have hde : sizeofDe = 8 := rfl
  by_cases hzero : deInode de = 0
  · rw [if_pos hzero] at h
    have hinode : deInode de' = deInode de := getLE_congr fun k hk => h (0 + k) (by omega)
    have hnone : ∀ b : Bool, ((0 : Nat) != 0 && b) = false := fun _ => rfl
    unfold hasRoom
    rw [hinode, hzero, hnone, hnone]
    exact ⟨rfl, rfl⟩
  · rw [if_neg hzero] at h
    have hinode : deInode de' = deInode de := getLE_congr fun k hk => h (0 + k) (by omega)
    have hlen : deNameLen de' = deNameLen de := getLE_congr fun k hk => h (6 + k) (by omega)
    have hrec : deRecLen de' = deRecLen de := getLE_congr fun k hk => h (4 + k) (by omega)
    unfold hasRoom
    rw [hinode, hlen, hrec]
    exact ⟨rfl, rfl⟩

/-- The body of the second loop of `dirlink`. -/
def roomLoop (namelen : Nat) : Loop where
  stops := hasRoom namelen
  looks := roomLooks
  header := by
    intro de
    unfold roomLooks
    split <;> decide
  local_looks := fun _ _ h => (room_local namelen h).1
  local_stops := fun _ _ h => (room_local namelen h).2

/-- The loop of `dirlookup` ends, and looks at nothing that was not delivered. -/
def LookupSound (e : Env) (name : Name) (tmpDe : Bytes) : Prop :=
  (lookupLoop name).Ends e tmpDe ∧ (lookupLoop name).Delivered e tmpDe

/-- So do the loops of `dirlink`: the one of `dirlookup`, and if that one has gone to the end in `n`
    rounds, the second one. -/
def LinkSound (e : Env) (name : Name) (st : Stack) : Prop :=
  LookupSound e name st.lookupDe ∧ ∀ n off de,
    (lookupLoop name).before e st.lookupDe n = some (off, de) → e.iSize.toNat ≤ off →
      (roomLoop name.chars.length).Ends (e.later n) st.tmpDe ∧
        (roomLoop name.chars.length).Delivered (e.later n) st.tmpDe

/-- The condition for `dirlink`. -/
def LinkGoesWell (e : Env) (name : Name) : Prop :=
  (lookupLoop name).GoesWell e ∧ ∀ n, (lookupLoop name).Comes e n → e.iSize.toNat ≤ chain e n →
    (roomLoop name.chars.length).GoesWell (e.later n)

/-- The scans are sound exactly where every entry on the way is delivered as far as it is looked at,
    and has a length or ends the scan. -/
theorem scans_exact (e : Env) (name : Name) (st : Stack) :
    (LookupSound e name st.lookupDe ↔ (lookupLoop name).GoesWell e) ∧
      (LinkSound e name st ↔ LinkGoesWell e name) := by
  have hlookup : LookupSound e name st.lookupDe ↔ (lookupLoop name).GoesWell e :=
    Loop.goes_well_iff _ e st.lookupDe
  refine ⟨hlookup, ⟨fun ⟨hsound, hroom⟩ => ?_, fun ⟨hwell, hroom⟩ => ?_⟩⟩
  · refine ⟨hlookup.mp hsound, fun n hcomes hend => ?_⟩
    obtain ⟨de, hbefore⟩ := Loop.before_chain st.lookupDe (hsound.2.along hcomes) hcomes
    exact (Loop.goes_well_iff _ _ st.tmpDe).mp (hroom n _ de hbefore hend)
  · refine ⟨hlookup.mpr hwell, fun n off de hbefore hend => ?_⟩
    obtain ⟨rfl, hcomes⟩ := hwell.before hbefore
    exact (Loop.goes_well_iff _ _ st.tmpDe).mpr (hroom n hcomes hend)

/-- A directory whose first block is cleared. -/
def cleared : Env where
  iSize := 4096
  data := fun _ => 0
  syncing := fun _ => 0
  served := fun _ _ => true

/-- Its first entry has no length, and neither loop ends. -/
theorem scan_of_cleared : ¬ ∀ (e : Env) (name : Name) (st : Stack),
    name.chars.length ≤ EXT2_NAME_LEN → LookupSound e name st.lookupDe ∧ LinkSound e name st := by
  intro hall
  obtain ⟨⟨hends, hdelivered⟩, -⟩ := hall cleared ⟨[100], by decide⟩ ⟨fun _ => 0, fun _ => 0,
    fun _ => 0⟩ (by decide)
  have hwell := (Loop.goes_well_iff _ cleared (fun _ => 0)).mp ⟨hends, hdelivered⟩
  obtain ⟨-, hstep⟩ := hwell 0 (fun m hm => absurd hm (Nat.not_lt_zero m)) (by decide)
  rcases hstep with hstops | hne
  · exact absurd hstops (by decide)
  · exact hne (getLE_zero _ _)

end Uniks.DirScan
