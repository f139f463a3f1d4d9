/-
  `sys_chdir`: the string of the working directory.

  `abspath` edits the string in the buffer where it stands, with a cursor behind what is right so
  far.  `..` writes a NUL and so does the last component, but a component inside the path does not:
  where it is the last thing pushed, the string goes on with what an older and longer string has
  left there.  The separators are those of `tok`, a slash and a backslash, where `namex` has the
  slash only, and skips empty components, and cuts the long ones.

  What `namei` finds is what `resolve` says (see `Uniks.PathResolve`); the file system may be another
  one at each call.  `none` is a call that reads or writes behind the buffer.
-/
import Uniks.PathResolve

namespace Uniks.WorkingDir

open Uniks.ByteMem
open Uniks.PathCalls (Str slash isAbsolute elements components resolve PATH_MAX EXT2_NAME_LEN
  elements_eq components_piece components_dropWhile)
open Uniks.Sysfile (EFAULT ENOENT EPERM)
open Option (some)

def backslash : UInt8 := 92

/-- The components `.` and `..`. -/
def dot : Str := [46]
def dotdot : Str := [46, 46]

/-! ## Strings -/

/-- The source's `is_separator`. -/
def isSeparator (c : UInt8) (tok : Str) : Bool := tok.any (· == c)

/-- The source's `strsep`: how far it is to the first separator. -/
def strsep (str tok : Str) : Option Nat := str.findIdx? fun c => isSeparator c tok

/-- The loop of `strrsep`, with `n` bytes left in the buffer. -/
def strrsepLoop (str : Bytes) (tok : Str) : Nat → Nat → Option Nat → Option (Option Nat)
  | 0, _, _ => none
  | n + 1, ptr, last =>
    let last := if isSeparator (str ptr) tok then some ptr else last
    if str ptr = 0 then some last else strrsepLoop str tok n (ptr + 1) last

/-- The source's `strrsep`: where the last separator is. -/
def strrsep (str : Bytes) (tok : Str) : Option (Option Nat) := strrsepLoop str tok PATH_MAX 0 none

/-- Whether `memcmp` answers 0; behind the string is its NUL. -/
def memcmp (v1 v2 : Str) (n : Nat) : Bool := v1.take n == v2.take n

/-- Bytes written into the buffer. -/
def write (pwd : Bytes) (ptr : Nat) (chars : Str) : Option Bytes :=
  if ptr + chars.length ≤ PATH_MAX then some (splice pwd ptr chars.length fun k => chars.getD k 0)
  else none

/-- The source's `strncpy`. -/
def strncpy (pwd : Bytes) (dst : Nat) (src : Str) (len : Nat) : Option Bytes :=
  write pwd dst (src.take len ++ List.replicate (len - src.length) 0)

/-- The source's `strcpy`. -/
def strcpy (pwd : Bytes) (dst : Nat) (src : Str) : Option Bytes := write pwd dst (src ++ [0])

/-! ## `abspath` -/

def tok : Str := [slash, backslash]

/-- The buffer, and the cursor in it. -/
structure Cursor where
  pwd : Bytes
  cur : Nat

/-- `cur = strrsep(pwd, tok) + 1; *cur = 0;` -/
def afterLast (pwd : Bytes) : Option Cursor :=
  match strrsep pwd tok with
  | some (some last) => (write pwd (last + 1) [0]).map fun pwd => ⟨pwd, last + 1⟩
  | _ => none

/-- What is done for `..`. -/
def popLast (s : Cursor) : Option Cursor :=
  if s.cur - 1 ≠ 0 then (write s.pwd (s.cur - 1) [0]).bind afterLast else some s

/-- The start of `abspath`: the cursor, and the path from there. -/
def abspathStart (pwd : Bytes) (pathname : Str) : Option (Cursor × Str) :=
  if pathname.head?.any (isSeparator · tok) then
    (write pwd 1 [0]).map fun pwd => (⟨pwd, 1⟩, pathname.tail)
  else (afterLast pwd).map fun s => (s, pathname)

/-- A component with `len` characters, the slash behind it included. -/
def abspathRound (s : Cursor) (pathname : Str) (len : Nat) : Option Cursor :=
  if memcmp pathname (dot ++ [slash]) 2 then some s
  else if memcmp pathname (dotdot ++ [slash]) 3 then popLast s
  else (strncpy s.pwd s.cur pathname len).map fun pwd => ⟨pwd, s.cur + len⟩

/-- The loop of `abspath`. -/
def abspathLoop (s : Cursor) (pathname : Str) : Option (Cursor × Str) :=
  if _hne : pathname = [] then some (s, pathname)
  else
    match strsep pathname tok with
    | none => some (s, pathname)
    | some ptr =>
      (abspathRound s (pathname.set ptr slash) (ptr + 1)).bind fun s =>
        abspathLoop s (pathname.drop (ptr + 1))
termination_by pathname.length
decreasing_by
  have hpos := List.length_pos_iff.mpr _hne
  rw [List.length_drop]
  omega

/-- The end of `abspath`: the last component, with nothing behind it. -/
def abspathEnd (s : Cursor) (pathname : Str) : Option Bytes :=
  if pathname = [] then some s.pwd
  else if pathname = dot then some s.pwd
  else if pathname ≠ dotdot then do
    let pwd ← strcpy s.pwd s.cur pathname
    let cur := s.cur + pathname.length
    let pwd ← write pwd cur [slash]
    write pwd (cur + 1) [0]
  else (popLast s).map Cursor.pwd

/-- The source's `abspath`. -/
def abspath (pwd : Bytes) (pathname : Str) : Option Bytes := do
  let (s, pathname) ← abspathStart pwd pathname
  let (s, pathname) ← abspathLoop s pathname
  abspathEnd s pathname

/-! ## `sys_chdir` -/

/-- The directories, by their inodes. -/
structure FileSystem where
  isDirectory : Nat → Bool
  entry : Nat → Str → Option Nat
  root : Nat

/-- What the source's `namei` finds. -/
def namei (fs : FileSystem) (icwd : Nat) (path : Str) : Option Nat :=
  resolve fs.isDirectory fs.entry (if isAbsolute path then fs.root else icwd) (elements path)

/-- The working directory of a process: the buffer for its string, and its inode. -/
structure Proc where
  cwd : Bytes
  icwd : Nat

/-- A path that has been fetched. -/
structure Path where
  chars : Str
  noNul : 0 ∉ chars

/-- The source's `sys_chdir`; `none` for the path is one that cannot be fetched. -/
def sysChdir (fs : FileSystem) (pr : Proc) (path : Option Path) : Option (Proc × Int) :=
  match path with
  | none => some (pr, - EFAULT)
  | some path =>
    match namei fs pr.icwd path.chars with
    | none => some (pr, - ENOENT)
    | some inode =>
      if inode = pr.icwd then some (pr, 0)
      else if fs.isDirectory inode then
        (abspath pr.cwd path.chars).map fun cwd => (⟨cwd, inode⟩, 0)
      else some (pr, - EPERM)

/-! ## What is claimed -/

/-- What a component does to the list of directories from the root. -/
def push (dirs : List Str) (p : Str) : List Str :=
  if p = dot then dirs else if p = dotdot then dirs.dropLast else dirs ++ [p]

/-- The list a path leads to, with the components of `namex`. -/
def canon (dirs : List Str) (path : Str) : List Str :=
  (components path).foldl push (if isAbsolute path then [] else dirs)

/-- The canonical string of a list. -/
def cwdString (dirs : List Str) : Str := slash :: dirs.flatMap fun p => p ++ [slash]

/-- A component without separators or a NUL. -/
def Clean (p : Str) : Prop := ∀ c ∈ p, c ≠ 0 ∧ isSeparator c tok = false

/-- The buffer contains the canonical string, whatever is behind its NUL. -/
structure CwdIs (pwd : Bytes) (dirs : List Str) : Prop where
  string : HoldsAt pwd 0 (cwdString dirs ++ [0])
  below : (cwdString dirs).length < PATH_MAX
  clean : ∀ p ∈ dirs, Clean p

/-- A call: the file system it meets, and its argument. -/
structure Call where
  fs : FileSystem
  path : Option Path

/-- The list after a call with this answer. -/
def listAfter (dirs : List Str) (path : Option Path) (res : Int) : List Str :=
  match path with
  | some path => if res = 0 then canon dirs path.chars else dirs
  | none => dirs

/-- In every state the string is the canonical one. -/
def Canonical : Proc → List Str → List Call → Prop
  | pr, dirs, [] => CwdIs pr.cwd dirs
  | pr, dirs, c :: cs => CwdIs pr.cwd dirs ∧ ∃ pr' res, sysChdir c.fs pr c.path = some (pr', res) ∧
      Canonical pr' (listAfter dirs c.path res) cs

/-! ## When it is so -/

/-- Whether there is a NUL at the cursor after a component, `nul` being whether there was one. -/
def endsAfter (nul : Bool) (p : Str) : Bool := if p = dot then nul else p == dotdot

/-- A name that `namex` and `abspath` delimit in the same way. -/
def IsName (p : Str) : Prop := p.length ≤ EXT2_NAME_LEN ∧ ∀ c ∈ p, isSeparator c tok = false

/-- A path that `abspath` gets right: the components `inner`, each with a slash behind it, and then
    `last`. -/
structure Plain (dirs : List Str) (path : Str) (inner : List Str) (last : Str) : Prop where
  spelled : (if isAbsolute path then path.tail else path) = inner.flatMap (· ++ [slash]) ++ last
  innerNames : ∀ p ∈ inner, p ≠ [] ∧ IsName p
  lastName : IsName last
  ends : last = [] ∨ last = dot → inner.foldl endsAfter true = true
  room : ∀ before, before <+: inner →
    (cwdString (before.foldl push (if isAbsolute path then [] else dirs))).length ≤ PATH_MAX
  below : (cwdString (canon dirs path)).length < PATH_MAX

/-- So it is in a call that gets to `abspath`; in one that finds the current directory again, the
    path leads to the same list. -/
def Regular (icwd : Nat) (dirs : List Str) (c : Call) : Prop :=
  ∀ path inode, c.path = some path → namei c.fs icwd path.chars = some inode →
    (inode = icwd → canon dirs path.chars = dirs) ∧
    (inode ≠ icwd → c.fs.isDirectory inode = true →
      ∃ inner last, Plain dirs path.chars inner last)

/-- So it is in every call of a run. -/
def AllRegular : Proc → List Str → List Call → Prop
  | _, _, [] => True
  | pr, dirs, c :: cs => Regular pr.icwd dirs c ∧ ∀ pr' res, sysChdir c.fs pr c.path = some (pr', res) →
      AllRegular pr' (listAfter dirs c.path res) cs

variable {pwd str : Bytes} {s s' : Cursor} {dirs inner : List Str} {p q chars tail path last rest : Str}
  {ptr n : Nat}

/-! ## The buffer -/

/-- Characters written behind a string that is right so far. -/
theorem write_holds (chars : Str) (hpwd : HoldsAt pwd 0 q) (hptr : ptr = q.length)
    (hroom : ptr + chars.length ≤ PATH_MAX) :
    ∃ pwd', write pwd ptr chars = some pwd' ∧ HoldsAt pwd' 0 (q ++ chars) := by
  refine ⟨_, if_pos hroom, holdsAt_append.mpr ⟨?_, ?_⟩⟩
  · refine HoldsAt.congr hpwd fun k hk => ?_
    exact splice_of_not_mem (by omega)
  · rw [Nat.zero_add, ← hptr]
    exact HoldsAt.splice pwd ptr chars

/-! ## Separators -/

theorem isSeparator_iff {c : UInt8} : isSeparator c tok = true ↔ c = slash ∨ c = backslash := by
  rw [isSeparator, List.any_eq_true]
  constructor
  · rintro ⟨x, hx, heq⟩
    rw [← eq_of_beq heq]
    rcases List.mem_cons.mp hx with hx | hx
    · exact .inl hx
    · exact .inr (List.mem_singleton.mp hx)
  · rintro (rfl | rfl)
    · exact ⟨slash, List.mem_cons_self, beq_self_eq_true slash⟩
    · exact ⟨backslash, List.mem_cons_of_mem _ (List.mem_singleton_self backslash),
        beq_self_eq_true backslash⟩

theorem IsName.slash_not_mem (h : IsName p) : slash ∉ p := by
  intro hmem
  have hsep := h.2 slash hmem
  rw [isSeparator_iff.mpr (.inl rfl)] at hsep
  exact Bool.noConfusion hsep

/-- The loop goes over the characters before the NUL. -/
theorem strrsepLoop_append (h : HoldsAt str ptr q) (hnul : 0 ∉ q) (n : Nat) (last : Option Nat) :
    ∃ last', strrsepLoop str tok (q.length + n) ptr last
        = strrsepLoop str tok n (ptr + q.length) last' ∧
      ((∀ c ∈ q, isSeparator c tok = false) → last' = last) := by
  induction q generalizing ptr last with
  | nil => exact ⟨last, by rw [List.length_nil, Nat.zero_add, Nat.add_zero], fun _ => rfl⟩
  | cons c cs ih =>
    have hc : str ptr = c := h 0 (Nat.succ_pos _)
    have hne : ¬ c = 0 := fun hzero => hnul (hzero ▸ List.mem_cons_self)
    have hcs : HoldsAt str (ptr + 1) cs := by
      have hsplit : HoldsAt str ptr ([c] ++ cs) := h
      exact (holdsAt_append.mp hsplit).2
    obtain ⟨last', hrun, hlast'⟩ := ih hcs (fun hmem => hnul (List.mem_cons_of_mem c hmem))
      (if isSeparator c tok then some ptr else last)
    refine ⟨last', ?_, fun hsep => ?_⟩
    · rw [List.length_cons, Nat.add_right_comm, strrsepLoop, hc, if_neg hne, hrun]
      congr 1
      omega
    · rw [hlast' fun x hx => hsep x (List.mem_cons_of_mem c hx), hsep c List.mem_cons_self]
      rfl

/-- `strrsep` finds the slash with no separator behind it. -/
theorem strrsep_eq (h : HoldsAt str 0 (q ++ [slash] ++ tail ++ [0])) (hq : 0 ∉ q) (htail : Clean tail)
    (hroom : q.length + 1 + tail.length < PATH_MAX) : strrsep str tok = some (some q.length) := by
  have hslash : isSeparator slash tok = true := isSeparator_iff.mpr (.inl rfl)
  obtain ⟨h, hend⟩ := holdsAt_append.mp h
  obtain ⟨h, hrest⟩ := holdsAt_append.mp h
  obtain ⟨hfront, hsep⟩ := holdsAt_append.mp h
  have hsep := holdsAt_singleton.mp hsep
  have hend := holdsAt_singleton.mp hend
  simp only [List.length_append, List.length_singleton, Nat.zero_add] at hsep hrest hend
  obtain ⟨m, hm⟩ := Nat.exists_eq_add_of_lt hroom
  have hmax : PATH_MAX = q.length + (tail.length + (m + 1) + 1) := by omega
  -- up to the slash, at the slash, and up to the NUL
  obtain ⟨last, hrun, -⟩ := strrsepLoop_append hfront hq (tail.length + (m + 1) + 1) none
  obtain ⟨last', hrun', hlast'⟩ := strrsepLoop_append hrest (fun hmem => (htail 0 hmem).1 rfl)
    (m + 1) (some q.length)
  have hlast' := hlast' fun c hc => (htail c hc).2
  rw [strrsep, hmax, hrun, Nat.zero_add, strrsepLoop, hsep, if_pos hslash,
    if_neg (show ¬ slash = 0 by decide), hrun', hlast', strrsepLoop, hend]
  rfl

/-! ## The canonical string -/

theorem cwdString_append (dirs : List Str) (p : Str) :
    cwdString (dirs ++ [p]) = cwdString dirs ++ (p ++ [slash]) := by
  rw [cwdString, List.flatMap_append, List.flatMap_singleton]
  rfl

/-- The string ends with a slash. -/
theorem cwdString_slash (hclean : ∀ p ∈ dirs, Clean p) :
    ∃ front, cwdString dirs = front ++ [slash] ∧ 0 ∉ front := by
  induction dirs using List.reverseRecOn with
  | nil => exact ⟨[], rfl, List.not_mem_nil⟩
  | append_singleton dirs p ih =>
    obtain ⟨front, hfront, hnul⟩ := ih fun p hp => hclean p (List.mem_append_left _ hp)
    refine ⟨cwdString dirs ++ p, by rw [cwdString_append, List.append_assoc], fun hmem => ?_⟩
    rw [hfront, List.append_assoc] at hmem
    rcases List.mem_append.mp hmem with hmem | hmem
    · exact hnul hmem
    rcases List.mem_cons.mp hmem with hzero | hmem
    · exact absurd hzero (by decide)
    · exact (hclean p (List.mem_append_right _ (List.mem_singleton_self p)) 0 hmem).1 rfl

/-! ## The cursor -/

/-- The buffer contains the string of a list up to the cursor. -/
structure At (s : Cursor) (dirs : List Str) : Prop where
  cur : s.cur = (cwdString dirs).length
  holds : HoldsAt s.pwd 0 (cwdString dirs)
  room : s.cur ≤ PATH_MAX
  root : dirs = [] → s.pwd s.cur = 0
  clean : ∀ p ∈ dirs, Clean p

/-- The cursor goes behind the last slash. -/
theorem afterLast_at (h : HoldsAt pwd 0 (cwdString dirs ++ tail ++ [0])) (hclean : ∀ p ∈ dirs, Clean p)
    (htail : Clean tail) (hroom : (cwdString dirs).length + tail.length < PATH_MAX) :
    ∃ s, afterLast pwd = some s ∧ At s dirs ∧ s.pwd s.cur = 0 := by
  obtain ⟨front, hfront, hnul⟩ := cwdString_slash hclean
  have hlen : (cwdString dirs).length = front.length + 1 := by
    rw [hfront, List.length_append, List.length_singleton]
  have hlast := strrsep_eq (q := front) (hfront ▸ h) hnul htail (by omega)
  have hdirs := (holdsAt_append.mp (holdsAt_append.mp h).1).1
  obtain ⟨pwd', hwrite, hholds⟩ := write_holds [0] hdirs hlen.symm
    (by rw [List.length_singleton]; omega)
  obtain ⟨hdirs', hzero⟩ := holdsAt_append.mp hholds
  rw [Nat.zero_add, hlen] at hzero
  have hzero := holdsAt_singleton.mp hzero
  refine ⟨⟨pwd', front.length + 1⟩, ?_, ⟨hlen.symm, hdirs', ?_, fun _ => hzero, hclean⟩, hzero⟩
  · rw [afterLast, hlast]
    dsimp only
    rw [hwrite]
    rfl
  · show front.length + 1 ≤ PATH_MAX
    omega

/-- `..` takes the last component off. -/
theorem popLast_at (h : At s dirs) :
    ∃ s', popLast s = some s' ∧ At s' dirs.dropLast ∧ s'.pwd s'.cur = 0 := by
  have hcur := h.cur
  have hroom := h.room
  rcases List.eq_nil_or_concat dirs with rfl | ⟨init, p, hdirs⟩
  · have hone : s.cur = 1 := hcur
    exact ⟨s, if_neg (fun hne => hne (by rw [hone])), h, h.root rfl⟩
  · rw [List.concat_eq_append] at hdirs
    subst hdirs
    have hlen : s.cur = (cwdString init).length + p.length + 1 := by
      rw [hcur, cwdString_append, List.length_append, List.length_append, List.length_singleton]
      rfl
    have hpos : 0 < (cwdString init).length := Nat.succ_pos _
    have hclean : ∀ q ∈ init, Clean q := fun q hq => h.clean q (List.mem_append_left _ hq)
    have hp : Clean p := h.clean p (List.mem_append_right _ (List.mem_singleton_self p))
    have hholds := h.holds
    rw [cwdString_append, ← List.append_assoc] at hholds
    obtain ⟨pwd', hwrite, hholds'⟩ := write_holds [0] (holdsAt_append.mp hholds).1
      (show s.cur - 1 = _ by rw [List.length_append]; omega) (by rw [List.length_singleton]; omega)
    obtain ⟨s', hafter, hat, hzero⟩ := afterLast_at hholds' hclean hp (by omega)
    refine ⟨s', ?_, ?_, hzero⟩
    · rw [popLast, if_pos (by omega), hwrite]
      exact hafter
    · rw [List.dropLast_concat]
      exact hat

/-- Any other component is copied. -/
theorem At.write (h : At s dirs) (hp : Clean p) (hroom : s.cur + (p.length + 1) ≤ PATH_MAX) :
    ∃ pwd', WorkingDir.write s.pwd s.cur (p ++ [slash]) = some pwd' ∧
      At ⟨pwd', s.cur + (p.length + 1)⟩ (dirs ++ [p]) := by
  have hlen : (p ++ [slash]).length = p.length + 1 := by
    rw [List.length_append, List.length_singleton]
  obtain ⟨pwd', hwrite, hholds⟩ := write_holds (p ++ [slash]) h.holds h.cur
    (by rw [hlen]; exact hroom)
  refine ⟨pwd', hwrite, ?_, ?_, hroom, fun hnil => ?_, fun q hq => ?_⟩
  · show s.cur + (p.length + 1) = _
    rw [cwdString_append, List.length_append, hlen, h.cur]
  · rw [cwdString_append]
    exact hholds
  · exact absurd hnil (List.append_ne_nil_of_right_ne_nil dirs (List.cons_ne_nil p []))
  · rcases List.mem_append.mp hq with hq | hq
    · exact h.clean q hq
    · rw [List.mem_singleton.mp hq]
      exact hp

/-! ## The loop -/

/-- A component is compared with its slash. -/
theorem take_slash (hp : slash ∉ p) (hq : slash ∉ q) :
    memcmp (p ++ slash :: rest) (q ++ [slash]) (q.length + 1) = true ↔ p = q := by
  rw [memcmp, beq_iff_eq, List.take_of_length_le
    (by rw [List.length_append, List.length_singleton] : (q ++ [slash]).length ≤ q.length + 1)]
  induction q generalizing p with
  | nil =>
    cases p with
    | nil => exact ⟨fun _ => rfl, fun _ => rfl⟩
    | cons a p =>
      refine ⟨fun heq => ?_, fun heq => nomatch heq⟩
      have ha : a = slash := (List.cons.inj heq).1
      exact absurd (ha ▸ List.mem_cons_self) hp
  | cons b q ih =>
    cases p with
    | nil =>
      refine ⟨fun heq => ?_, fun heq => nomatch heq⟩
      have hb : slash = b := (List.cons.inj heq).1
      exact absurd (hb ▸ List.mem_cons_self) hq
    | cons a p =>
      have hrec := ih (fun h => hp (List.mem_cons_of_mem a h)) fun h => hq (List.mem_cons_of_mem b h)
      constructor
      · intro heq
        obtain ⟨hab, htake⟩ := List.cons.inj heq
        rw [hab, hrec.mp htake]
      · intro heq
        obtain ⟨hab, hpq⟩ := List.cons.inj heq
        exact List.cons_eq_cons.mpr ⟨hab, hrec.mpr hpq⟩

/-- What a component does to the list, and to the NUL. -/
theorem abspathRound_at (rest : Str) (h : At s dirs) (hp : IsName p) (hnul : 0 ∉ p)
    (hroom : (cwdString (push dirs p)).length ≤ PATH_MAX) {nul : Bool}
    (hzero : nul = true → s.pwd s.cur = 0) :
    ∃ s', abspathRound s (p ++ slash :: rest) (p.length + 1) = some s' ∧ At s' (push dirs p) ∧
      (endsAfter nul p = true → s'.pwd s'.cur = 0) := by
  have hslash := hp.slash_not_mem
  have hdot : memcmp (p ++ slash :: rest) (dot ++ [slash]) 2 = true ↔ p = dot :=
    take_slash hslash (by decide)
  have hdotdot : memcmp (p ++ slash :: rest) (dotdot ++ [slash]) 3 = true ↔ p = dotdot :=
    take_slash hslash (by decide)
  rw [push] at hroom ⊢
  rw [abspathRound, endsAfter]
  by_cases hpdot : p = dot
  · rw [if_pos (hdot.mpr hpdot), if_pos hpdot, if_pos hpdot]
    exact ⟨s, rfl, h, hzero⟩
  rw [if_neg (fun heq => hpdot (hdot.mp heq)), if_neg hpdot, if_neg hpdot]
  rw [if_neg hpdot] at hroom
  by_cases hpdotdot : p = dotdot
  · rw [if_pos (hdotdot.mpr hpdotdot), if_pos hpdotdot]
    obtain ⟨s', hpop, hat, hzero'⟩ := popLast_at h
    exact ⟨s', hpop, hat, fun _ => hzero'⟩
  rw [if_neg (fun heq => hpdotdot (hdotdot.mp heq)), if_neg hpdotdot]
  rw [if_neg hpdotdot, cwdString_append, List.length_append, List.length_append,
    List.length_singleton, ← h.cur] at hroom
  have hclean : Clean p := fun c hc => ⟨fun hz => hnul (hz ▸ hc), hp.2 c hc⟩
  obtain ⟨pwd', hwrite, hat⟩ := h.write hclean hroom
  refine ⟨_, ?_, hat, fun heq => absurd (eq_of_beq heq) hpdotdot⟩
  have hcopy : (p ++ slash :: rest).take (p.length + 1) = p ++ [slash] := by
    rw [List.take_append, List.take_of_length_le (Nat.le_succ _), Nat.add_sub_cancel_left]
    rfl
  have hfull : p.length + 1 - (p ++ slash :: rest).length = 0 := by
    rw [List.length_append, List.length_cons]
    omega
  rw [strncpy, hcopy, hfull, List.replicate_zero, List.append_nil, hwrite]
  rfl

theorem strsep_none (hp : IsName p) : strsep p tok = none := by
  rw [strsep, List.findIdx?_eq_none_iff]
  exact hp.2

theorem strsep_slash (hp : IsName p) (rest : Str) : strsep (p ++ slash :: rest) tok = some p.length := by
  have hslash : isSeparator slash tok = true := isSeparator_iff.mpr (.inl rfl)
  have hnone : p.findIdx? (fun c => isSeparator c tok) = none := strsep_none hp
  rw [strsep, List.findIdx?_append, hnone, List.findIdx?_cons, hslash]
  simp

/-- The loop goes over the components with a slash behind them. -/
theorem abspathLoop_at (h : At s dirs) (hinner : ∀ p ∈ inner, p ≠ [] ∧ IsName p) (hlast : IsName last)
    (hnul : ∀ p ∈ inner, 0 ∉ p)
    (hroom : ∀ before, before <+: inner → (cwdString (before.foldl push dirs)).length ≤ PATH_MAX)
    {nul : Bool} (hzero : nul = true → s.pwd s.cur = 0) :
    ∃ s', abspathLoop s (inner.flatMap (· ++ [slash]) ++ last) = some (s', last) ∧
      At s' (inner.foldl push dirs) ∧ (inner.foldl endsAfter nul = true → s'.pwd s'.cur = 0) := by
  induction inner generalizing s dirs nul with
  | nil =>
    refine ⟨s, ?_, h, hzero⟩
    rw [List.flatMap_nil, List.nil_append, abspathLoop, strsep_none hlast]
    split <;> rfl
  | cons p inner ih =>
    obtain ⟨hne, hp⟩ := hinner p List.mem_cons_self
    have hfirst := hroom [p] ⟨inner, rfl⟩
    obtain ⟨s₁, hround, hat, hzero₁⟩ := abspathRound_at
      (inner.flatMap (· ++ [slash]) ++ last) h hp (hnul p List.mem_cons_self) hfirst hzero
    obtain ⟨s', hloop, hat', hzero'⟩ := ih hat (fun q hq => hinner q (List.mem_cons_of_mem p hq))
      (fun q hq => hnul q (List.mem_cons_of_mem p hq))
      (fun before hbefore => hroom (p :: before) (List.prefix_cons_inj p |>.mpr hbefore)) hzero₁
    refine ⟨s', ?_, hat', hzero'⟩
    have hpath : (p :: inner).flatMap (· ++ [slash]) ++ last
        = p ++ slash :: (inner.flatMap (· ++ [slash]) ++ last) := by
      rw [List.flatMap_cons, List.append_assoc, List.append_assoc]
      rfl
    have hset : (p ++ slash :: (inner.flatMap (· ++ [slash]) ++ last)).set p.length slash
        = p ++ slash :: (inner.flatMap (· ++ [slash]) ++ last) := by
      rw [List.set_append_right _ _ (Nat.le_refl _), Nat.sub_self]
      rfl
    have hdrop : (p ++ slash :: (inner.flatMap (· ++ [slash]) ++ last)).drop (p.length + 1)
        = inner.flatMap (· ++ [slash]) ++ last := by
      rw [List.drop_append, List.drop_eq_nil_of_le (Nat.le_succ _), Nat.add_sub_cancel_left]
      rfl
    rw [hpath, abspathLoop, dif_neg (List.append_ne_nil_of_left_ne_nil hne _), strsep_slash hp]
    dsimp only
    rw [hset, hround, hdrop]
    exact hloop

/-! ## The start and the end -/

theorem At.cwdIs (h : At s dirs) (hzero : s.pwd s.cur = 0)
    (hbelow : (cwdString dirs).length < PATH_MAX) : CwdIs s.pwd dirs := by
  refine ⟨holdsAt_append.mpr ⟨h.holds, ?_⟩, hbelow, h.clean⟩
  rw [Nat.zero_add, ← h.cur]
  exact holdsAt_singleton.mpr hzero

/-- The last component. -/
theorem abspathEnd_at (h : At s dirs) (hlast : IsName last) (hnul : 0 ∉ last)
    (hzero : last = [] ∨ last = dot → s.pwd s.cur = 0)
    (hbelow : (cwdString (if last = [] then dirs else push dirs last)).length < PATH_MAX) :
    ∃ pwd', abspathEnd s last = some pwd' ∧ CwdIs pwd' (if last = [] then dirs else push dirs last) := by
  rw [push] at hbelow ⊢
  rw [abspathEnd]
  by_cases hnil : last = []
  · rw [if_pos hnil] at hbelow ⊢
    rw [if_pos hnil]
    exact ⟨s.pwd, rfl, h.cwdIs (hzero (.inl hnil)) hbelow⟩
  rw [if_neg hnil] at hbelow ⊢
  rw [if_neg hnil]
  by_cases hdot : last = dot
  · rw [if_pos hdot] at hbelow ⊢
    rw [if_pos hdot]
    exact ⟨s.pwd, rfl, h.cwdIs (hzero (.inr hdot)) hbelow⟩
  rw [if_neg hdot] at hbelow ⊢
  rw [if_neg hdot]
  by_cases hdotdot : last = dotdot
  · rw [if_pos hdotdot] at hbelow ⊢
    rw [if_neg (fun hne => hne hdotdot)]
    obtain ⟨s', hpop, hat, hzero'⟩ := popLast_at h
    exact ⟨s'.pwd, by rw [hpop]; rfl, hat.cwdIs hzero' hbelow⟩
  rw [if_neg hdotdot] at hbelow ⊢
  rw [if_pos hdotdot]
  -- the component and a NUL, a slash over the NUL, and another NUL
  have hlen : (cwdString (dirs ++ [last])).length = s.cur + last.length + 1 := by
    rw [cwdString_append, List.length_append, List.length_append, List.length_singleton, h.cur]
    rfl
  rw [hlen] at hbelow
  obtain ⟨pwd₁, hwrite₁, hholds₁⟩ := write_holds (last ++ [0]) h.holds h.cur
    (by rw [List.length_append, List.length_singleton]; omega)
  rw [← List.append_assoc] at hholds₁
  have hcur : s.cur + last.length = (cwdString dirs ++ last).length := by
    rw [List.length_append, h.cur]
  obtain ⟨pwd₂, hwrite₂, hholds₂⟩ := write_holds [slash] (holdsAt_append.mp hholds₁).1 hcur
    (by rw [List.length_singleton]; omega)
  have hcur' : s.cur + last.length + 1 = (cwdString dirs ++ last ++ [slash]).length := by
    rw [List.length_append, ← hcur, List.length_singleton]
  obtain ⟨pwd₃, hwrite₃, hholds₃⟩ := write_holds [0] hholds₂ hcur'
    (by rw [List.length_singleton]; omega)
  refine ⟨pwd₃, ?_, ?_, by rw [hlen]; exact hbelow, ?_⟩
  · rw [strcpy, hwrite₁]
    show (WorkingDir.write pwd₁ (s.cur + last.length) [slash]).bind _ = _
    rw [hwrite₂]
    exact hwrite₃
  · rw [cwdString_append, ← List.append_assoc]
    exact hholds₃
  · intro q hq
    rcases List.mem_append.mp hq with hq | hq
    · exact h.clean q hq
    · rw [List.mem_singleton.mp hq]
      exact fun c hc => ⟨fun hz => hnul (hz ▸ hc), hlast.2 c hc⟩

theorem head_spelled (hinner : ∀ p ∈ inner, p ≠ [] ∧ IsName p) (hlast : IsName last) :
    (inner.flatMap (· ++ [slash]) ++ last).head?.any (isSeparator · tok) = false := by
  have hfirst : ∀ c, (inner.flatMap (· ++ [slash]) ++ last).head? = some c →
      isSeparator c tok = false := by
    intro c hc
    cases inner with
    | nil => exact hlast.2 c (List.mem_of_mem_head? hc)
    | cons p inner =>
      obtain ⟨hne, hp⟩ := hinner p List.mem_cons_self
      obtain ⟨a, p, rfl⟩ := List.exists_cons_of_ne_nil hne
      have hac : a = c := some.inj hc
      rw [← hac]
      exact hp.2 a List.mem_cons_self
  cases hhead : (inner.flatMap (· ++ [slash]) ++ last).head? with
  | none => rfl
  | some c => exact hfirst c hhead

/-- Where the cursor starts, and what is left of the path. -/
theorem abspathStart_at (h : CwdIs pwd dirs) (hp : Plain dirs path inner last) :
    ∃ s, abspathStart pwd path = some (s, inner.flatMap (· ++ [slash]) ++ last) ∧
      At s (if isAbsolute path then [] else dirs) ∧ s.pwd s.cur = 0 := by
  have hspelled := hp.spelled
  rw [abspathStart]
  by_cases habs : isAbsolute path = true
  · rw [if_pos habs] at hspelled ⊢
    have hhead : path.head? = some slash := eq_of_beq habs
    have hsep : path.head?.any (isSeparator · tok) = true := by
      rw [hhead]
      exact isSeparator_iff.mpr (.inl rfl)
    have hroot : HoldsAt pwd 0 [slash] := by
      have hstring : HoldsAt pwd 0 ([slash] ++ (dirs.flatMap (fun p => p ++ [slash]) ++ [0])) := h.string
      exact (holdsAt_append.mp hstring).1
    have hone : 1 ≤ PATH_MAX := by decide
    obtain ⟨pwd', hwrite, hholds⟩ := write_holds [0] hroot (show 1 = _ from rfl) (by decide)
    obtain ⟨hslash, hzero⟩ := holdsAt_append.mp hholds
    have hzero : pwd' 1 = 0 := holdsAt_singleton.mp hzero
    refine ⟨⟨pwd', 1⟩, ?_, ⟨rfl, hslash, hone, fun _ => hzero, fun p hp => nomatch hp⟩, hzero⟩
    rw [if_pos hsep, hwrite, ← hspelled]
    rfl
  · rw [if_neg habs] at hspelled ⊢
    have hsep := head_spelled hp.innerNames hp.lastName
    rw [← hspelled] at hsep
    have hstring := h.string
    have hbelow := h.below
    have hempty : HoldsAt pwd 0 (cwdString dirs ++ [] ++ [0]) := by
      rw [List.append_nil]
      exact hstring
    obtain ⟨s, hafter, hat, hzero⟩ := afterLast_at hempty h.clean (fun c hc => nomatch hc) hbelow
    refine ⟨s, ?_, hat, hzero⟩
    rw [if_neg (by rw [hsep]; exact Bool.false_ne_true), hafter, ← hspelled]
    rfl

/-! ## The components of `namex` -/

theorem components_slash (cs : Str) : components (slash :: cs) = components cs := by
  rw [← components_dropWhile, List.dropWhile_cons_of_pos (p := (· == slash)) (beq_self_eq_true slash),
    components_dropWhile]

theorem components_spelled (hinner : ∀ p ∈ inner, p ≠ [] ∧ IsName p) (hlast : IsName last) :
    components (inner.flatMap (· ++ [slash]) ++ last) = inner ++ if last = [] then [] else [last] := by
  have hchars : ∀ {p : Str}, IsName p → ∀ c ∈ p, c ≠ slash := fun hp c hc heq =>
    hp.slash_not_mem (heq ▸ hc)
  induction inner with
  | nil =>
    rw [List.flatMap_nil, List.nil_append, List.nil_append]
    by_cases hnil : last = []
    · rw [hnil, if_pos rfl]
      rfl
    · have hpiece := components_piece hnil (hchars hlast) (.inl (Eq.refl []))
      rw [List.append_nil, List.take_of_length_le hlast.1] at hpiece
      rw [hpiece, if_neg hnil]
      rfl
  | cons p inner ih =>
    obtain ⟨hne, hp⟩ := hinner p List.mem_cons_self
    have hpiece := components_piece hne (hchars hp)
      (.inr ⟨inner.flatMap (· ++ [slash]) ++ last, rfl⟩)
    rw [List.take_of_length_le hp.1, components_slash,
      ih fun q hq => hinner q (List.mem_cons_of_mem p hq)] at hpiece
    rw [List.flatMap_cons, List.append_assoc, List.append_assoc]
    exact hpiece

theorem Plain.canon (hp : Plain dirs path inner last) :
    WorkingDir.canon dirs path
      = (if last = [] then inner.foldl push (if isAbsolute path then [] else dirs)
        else push (inner.foldl push (if isAbsolute path then [] else dirs)) last) := by
  have hcomponents : components path = inner ++ if last = [] then [] else [last] := by
    rw [← components_spelled hp.innerNames hp.lastName, ← hp.spelled]
    split
    next habs =>
      have hhead : path.head? = some slash := eq_of_beq habs
      have hpath : path = slash :: path.tail := List.eq_cons_of_mem_head? hhead
      rw [hpath, components_slash]
      rfl
    next => rfl
  rw [WorkingDir.canon, hcomponents, List.foldl_append]
  by_cases hnil : last = []
  · rw [if_pos hnil, if_pos hnil]
    rfl
  · rw [if_neg hnil, if_neg hnil]
    rfl

/-- A plain path: the string is the canonical one, whatever is behind the old one. -/
theorem abspath_canon (h : CwdIs pwd dirs) (hnul : 0 ∉ path) (hp : Plain dirs path inner last) :
    ∃ pwd', abspath pwd path = some pwd' ∧ CwdIs pwd' (canon dirs path) := by
  have hbody : 0 ∉ inner.flatMap (· ++ [slash]) ++ last := by
    rw [← hp.spelled]
    split
    · exact fun hmem => hnul (List.mem_of_mem_tail hmem)
    · exact hnul
  have hinnerNul : ∀ p ∈ inner, 0 ∉ p := fun p hmem hz => hbody (List.mem_append_left _
    (List.mem_flatMap.mpr ⟨p, hmem, List.mem_append_left _ hz⟩))
  have hlastNul : 0 ∉ last := fun hz => hbody (List.mem_append_right _ hz)
  obtain ⟨s, hstart, hat, hzero⟩ := abspathStart_at h hp
  obtain ⟨s', hloop, hat', hzero'⟩ := abspathLoop_at hat hp.innerNames hp.lastName hinnerNul hp.room
    (fun _ : true = true => hzero)
  have hbelow := hp.below
  rw [hp.canon] at hbelow ⊢
  obtain ⟨pwd', hend, hcwd⟩ := abspathEnd_at hat' hp.lastName hlastNul
    (fun hlast => hzero' (hp.ends hlast)) hbelow
  refine ⟨pwd', ?_, hcwd⟩
  rw [abspath, hstart]
  show (abspathLoop s (inner.flatMap (· ++ [slash]) ++ last)).bind _ = _
  rw [hloop]
  exact hend

/-! ## Runs -/

/-- One call. -/
theorem sysChdir_canon {pr : Proc} {c : Call} (h : CwdIs pr.cwd dirs) (hc : Regular pr.icwd dirs c) :
    ∃ pr' res, sysChdir c.fs pr c.path = some (pr', res) ∧
      CwdIs pr'.cwd (listAfter dirs c.path res) := by
  obtain ⟨fs, none | path⟩ := c
  · exact ⟨pr, _, rfl, h⟩
  rw [sysChdir]
  cases hnamei : namei fs pr.icwd path.chars with
  | none => exact ⟨pr, _, rfl, h⟩
  | some inode =>
    obtain ⟨hsame, hother⟩ := hc path inode rfl hnamei
    dsimp only
    by_cases heq : inode = pr.icwd
    · rw [if_pos heq]
      refine ⟨pr, 0, rfl, ?_⟩
      rw [listAfter, if_pos rfl, hsame heq]
      exact h
    rw [if_neg heq]
    by_cases hdir : fs.isDirectory inode = true
    · obtain ⟨inner, last, hp⟩ := hother heq hdir
      obtain ⟨pwd', habspath, hcwd⟩ := abspath_canon h path.noNul hp
      rw [if_pos hdir, habspath]
      exact ⟨⟨pwd', inode⟩, 0, rfl, hcwd⟩
    · rw [if_neg hdir]
      exact ⟨pr, _, rfl, h⟩

/-- In a run whose calls are all regular, the string is the canonical one in every state. -/
theorem chdirs_canonical {pr : Proc} {calls : List Call} (h : CwdIs pr.cwd dirs)
    (hcalls : AllRegular pr dirs calls) : Canonical pr dirs calls := by
  induction calls generalizing pr dirs with
  | nil => exact h
  | cons c cs ih =>
    obtain ⟨hc, hcs⟩ := hcalls
    obtain ⟨pr', res, hrun, hcwd⟩ := sysChdir_canon h hc
    exact ⟨h, pr', res, hrun, ih hcwd (hcs pr' res hrun)⟩

/-! ## A tree -/

/-- Each directory has its place, and the entries are as the places say. -/
structure Placed (fs : FileSystem) (place : Nat → List Str) : Prop where
  root : place fs.root = []
  entry : ∀ n p m, fs.isDirectory n = true → fs.entry n p = some m → fs.isDirectory m = true →
    place m = push (place n) p

theorem resolve_place {fs : FileSystem} {place : Nat → List Str} (h : Placed fs place) {n m : Nat}
    {ps : List Str} (hresolve : resolve fs.isDirectory fs.entry n ps = some m)
    (hm : fs.isDirectory m = true) : place m = ps.foldl push (place n) := by
  induction ps generalizing n with
  | nil => rw [some.inj hresolve, List.foldl_nil]
  | cons p ps ih =>
    rw [resolve] at hresolve
    split at hresolve
    next hn =>
      obtain ⟨next, hentry, hresolve⟩ := Option.bind_eq_some_iff.mp hresolve
      have hnext : fs.isDirectory next = true := by
        cases ps with
        | nil => rw [some.inj hresolve, hm]
        | cons q qs =>
          rw [resolve] at hresolve
          split at hresolve
          next hnext => exact hnext
          next => cases hresolve
      rw [ih hresolve, h.entry n p next hn hentry hnext, List.foldl_cons]
    next => cases hresolve

/-- In a tree the directory that `namei` finds is the one at the end of the canonical list, so that
    the current directory is found again by paths to its own list only. -/
theorem namei_place {fs : FileSystem} {place : Nat → List Str} (h : Placed fs place) {icwd inode : Nat}
    (hicwd : place icwd = dirs) (hnamei : namei fs icwd path = some inode)
    (hdir : fs.isDirectory inode = true) : place inode = canon dirs path := by
  rw [namei, elements_eq] at hnamei
  rw [resolve_place h hnamei hdir, canon]
  split
  · rw [h.root]
  · rw [hicwd]

/-- A call in a tree is regular if its path is plain. -/
theorem Placed.regular {c : Call} {place : Nat → List Str} (h : Placed c.fs place) {icwd : Nat}
    (hicwd : place icwd = dirs) (hdir : c.fs.isDirectory icwd = true)
    (hplain : ∀ path, c.path = some path → ∃ inner last, Plain dirs path.chars inner last) :
    Regular icwd dirs c := by
  intro path inode hpath hnamei
  refine ⟨fun heq => ?_, fun _ _ => hplain path hpath⟩
  subst heq
  rw [← namei_place h hicwd hnamei hdir, hicwd]

/-! ## A longer string, and then a shorter one -/

/-- A root with two directories, `abcdef` and `b`. -/
def letters : FileSystem where
  isDirectory := fun n => n == 2 || n == 12 || n == 13
  entry := fun n p =>
    if p = dot then some n
    else if p = dotdot then some 2
    else if n = 2 ∧ p = [97, 98, 99, 100, 101, 102] then some 12
    else if n = 2 ∧ p = [98] then some 13
    else none
  root := 2

/-- The buffer of a process that has not called `sys_chdir` yet. -/
def rootCwd : Bytes := splice (fun _ => 42) 0 2 fun k => [slash, 0].getD k 0

theorem rootCwd_is : CwdIs rootCwd [] := ⟨by decide, by decide, fun p hp => nomatch hp⟩

def abcdefPath : Path := ⟨[47, 97, 98, 99, 100, 101, 102], by decide⟩
def bSlashPath : Path := ⟨[47, 98, 47], by decide⟩

def upPath : Path := ⟨[46, 46, 47, 98], by decide⟩

theorem abcdef_regular : Regular 2 [] ⟨letters, some abcdefPath⟩ := by
  intro path inode hpath hnamei
  cases hpath
  have habcdef : namei letters 2 abcdefPath.chars = some 12 := by decide +kernel
  cases habcdef.symm.trans hnamei
  refine ⟨fun heq => absurd heq (by decide), fun _ _ => ⟨[], [97, 98, 99, 100, 101, 102], ?_⟩⟩
  refine ⟨rfl, fun p hp => (nomatch hp), ⟨by decide, by simp [isSeparator, tok, slash, backslash]⟩,
    by decide, fun before hbefore => ?_, by decide⟩
  rw [List.prefix_nil.mp hbefore]
  decide

theorem up_regular : Regular 12 [[97, 98, 99, 100, 101, 102]] ⟨letters, some upPath⟩ := by
  intro path inode hpath hnamei
  cases hpath
  have hup : namei letters 12 upPath.chars = some 13 := by decide +kernel
  cases hup.symm.trans hnamei
  refine ⟨fun heq => absurd heq (by decide), fun _ _ => ⟨[dotdot], [98], ?_⟩⟩
  have hinner : ∀ p ∈ [dotdot], p ≠ [] ∧ IsName p := by
    intro p hp
    rw [List.mem_singleton.mp hp]
    exact ⟨by decide, by decide, by simp [isSeparator, tok, slash, backslash, dotdot]⟩
  have hroom : ∀ before ∈ [dotdot].inits, (cwdString (before.foldl push
      (if isAbsolute upPath.chars then [] else [[97, 98, 99, 100, 101, 102]]))).length ≤ PATH_MAX := by
    decide
  exact ⟨rfl, hinner, ⟨by decide, by simp [isSeparator, tok, slash, backslash]⟩, by decide,
    fun before hbefore => hroom before ((List.mem_inits before _).mpr hbefore), by decide⟩

theorem letters_regular :
    AllRegular ⟨rootCwd, 2⟩ [] [⟨letters, some abcdefPath⟩, ⟨letters, some upPath⟩] := by
  have hfirst : ∃ r ∈ sysChdir letters ⟨rootCwd, 2⟩ (some abcdefPath), r.1.icwd = 12 ∧ r.2 = 0 := by
    decide +kernel
  refine ⟨abcdef_regular, fun pr' res hrun => ?_⟩
  obtain ⟨r, hrun', hicwd, hres⟩ := hfirst
  obtain rfl : (pr', res) = r := Option.mem_unique hrun hrun'
  obtain rfl : res = 0 := hres
  rw [AllRegular, show pr'.icwd = 12 from hicwd]
  exact ⟨up_regular, fun _ _ _ => trivial⟩

theorem chdirs_canonical_letters :
    Canonical ⟨rootCwd, 2⟩ [] [⟨letters, some abcdefPath⟩, ⟨letters, some upPath⟩] :=
  chdirs_canonical rootCwd_is letters_regular

/-- The string is then `/b/cdef/`. -/
theorem chdir_leaves_tail : ∃ pr₁ pr₂,
    sysChdir letters ⟨rootCwd, 2⟩ (some abcdefPath) = some (pr₁, 0) ∧
    HoldsAt pr₁.cwd 0 [47, 97, 98, 99, 100, 101, 102, 47, 0] ∧
    sysChdir letters pr₁ (some bSlashPath) = some (pr₂, 0) ∧
    HoldsAt pr₂.cwd 0 [47, 98, 47, 99, 100, 101, 102, 47, 0] ∧
    ¬ Canonical ⟨rootCwd, 2⟩ [] [⟨letters, some abcdefPath⟩, ⟨letters, some bSlashPath⟩] := by
  -- the second call writes three bytes, and what is behind them stays
  have hcalls : ∃ r ∈ sysChdir letters ⟨rootCwd, 2⟩ (some abcdefPath), r.2 = 0 ∧
      HoldsAt r.1.cwd 0 [47, 97, 98, 99, 100, 101, 102, 47, 0] ∧
      ∃ r' ∈ sysChdir letters r.1 (some bSlashPath), r'.2 = 0 ∧
        HoldsAt r'.1.cwd 0 [47, 98, 47, 99, 100, 101, 102, 47, 0] := by
    decide +kernel
  obtain ⟨⟨pr₁, _⟩, hrun₁, rfl, hstring, ⟨pr₂, _⟩, hrun₂, rfl, htail⟩ := hcalls
  refine ⟨pr₁, pr₂, hrun₁, hstring, hrun₂, htail, ?_⟩
  rintro ⟨-, pr₁', res, hrun₁', -, pr₂, res', hrun₂', hcwd₂⟩
  cases hrun₁.symm.trans hrun₁'
  cases hrun₂.symm.trans hrun₂'
  have hcanon : HoldsAt _ 0 [47, 98, 47, 0] := hcwd₂.string
  have hbyte := (hcanon 3 (by decide)).symm.trans (htail 3 (by decide))
  exact absurd hbyte (by decide)

end Uniks.WorkingDir
