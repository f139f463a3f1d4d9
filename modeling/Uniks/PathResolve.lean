/-
  Path resolution.

  What `skipelem` takes off a path one by one are its components: the pieces between the slashes,
  without the empty ones, each cut to `EXT2_NAME_LEN` bytes (`elements_eq`).  If `dirlookup` answers
  what the directories say, the walk of `namex` resolves them in order (`leads_resolve`,
  `leads_resolveParent`), as long as no component is looked for in something that is no directory:
  there the assertion in the loop of `namex` fails (`leads_stuck`), where resolution has no answer.
-/
import Uniks.FailedPaths
import Uniks.DirLinkFormat

namespace Uniks.PathCalls

open Uniks.Inode Uniks.Sysfile Uniks.Hoare Uniks.ByteMem

/-! ## Resolution -/

section Resolution

variable {Node Name : Type} (isDirectory : Node → Bool) (entry : Node → Name → Option Node)

/-- The node that names lead to, one after the other. -/
def resolve : Node → List Name → Option Node
  | n, [] => some n
  | n, c :: cs => if isDirectory n then (entry n c).bind fun next => resolve next cs else none

/-- The directory that has the last name, and that name. -/
def resolveParent (n : Node) (cs : List Name) : Option (Node × Name) :=
  match cs.getLast? with
  | none => none
  | some last =>
    (resolve isDirectory entry n cs.dropLast).bind fun d =>
      if isDirectory d then some (d, last) else none

/-- No name is looked for in something that is no directory. -/
def Passable : Node → List Name → Prop
  | _, [] => True
  | n, c :: cs => isDirectory n = true ∧ ∀ next, entry n c = some next → Passable next cs

variable {isDirectory entry}

theorem resolveParent_cons {n : Node} (hn : isDirectory n = true) (c b : Name) (cs : List Name) :
    resolveParent isDirectory entry n (c :: b :: cs)
      = (entry n c).bind fun next => resolveParent isDirectory entry next (b :: cs) := by
  have hlast : (c :: b :: cs).getLast? = (b :: cs).getLast? := List.getLast?_cons_cons
  have hsome : ∃ last, (b :: cs).getLast? = some last :=
    ⟨_, List.getLast?_eq_some_getLast (List.cons_ne_nil b cs)⟩
  obtain ⟨last, hb⟩ := hsome
  unfold resolveParent
  rw [hlast, hb, List.dropLast_cons_cons, resolve, if_pos hn]
  cases entry n c <;> rfl

end Resolution

/-! ## Components -/

/-- The components of a path. -/
def components (path : Str) : List Str :=
  ((path.splitOn slash).filter (· ≠ [])).map (·.take EXT2_NAME_LEN)

/-- The maximal substrings without a slash. -/
def pieces (path : Str) : List Str := (path.splitOn slash).filter (· ≠ [])

theorem components_eq_map (path : Str) :
    components path = (pieces path).map (·.take EXT2_NAME_LEN) := rfl

/-- Leading slashes do not matter. -/
theorem pieces_dropWhile (path : Str) : pieces (path.dropWhile (· == slash)) = pieces path := by
  induction path with
  | nil => rfl
  | cons c cs ih =>
    by_cases hc : (c == slash) = true
    · rw [List.dropWhile_cons_of_pos (p := (· == slash)) hc, ih]
      have hsplit : (c :: cs).splitOn slash = [] :: cs.splitOn slash := by
        show (c :: cs).splitOnP _ = _
        rw [List.splitOnP_cons_eq_if_modifyHead, if_pos hc]
        rfl
      rw [pieces, pieces, hsplit, List.filter_cons_of_neg (by simp)]
    · rw [List.dropWhile_cons_of_neg (p := (· == slash)) hc]

theorem components_dropWhile (path : Str) :
    components (path.dropWhile (· == slash)) = components path := by
  rw [components_eq_map, pieces_dropWhile, components_eq_map]

/-- The first piece of a path without leading slashes. -/
theorem pieces_append {piece rest : Str} (hne : piece ≠ []) (hpiece : ∀ c ∈ piece, c ≠ slash)
    (hrest : rest = [] ∨ ∃ cs, rest = slash :: cs) :
    pieces (piece ++ rest) = piece :: pieces rest := by
  have hno : ∀ c ∈ piece, (c == slash) = false := fun c hc =>
    beq_eq_false_iff_ne.mpr (hpiece c hc)
  have hkeep : decide (piece ≠ []) = true := decide_eq_true hne
  rcases hrest with rfl | ⟨cs, rfl⟩
  · have hsplit : (piece ++ []).splitOn slash = [piece] := by
      rw [List.append_nil]
      exact List.splitOnP_eq_singleton hno
    rw [pieces, hsplit, List.filter_cons_of_pos (p := fun q : Str => q ≠ []) hkeep]
    rfl
  · have hsplit : (piece ++ slash :: cs).splitOn slash = piece :: cs.splitOn slash :=
      List.splitOnP_append_cons_of_forall_mem hno slash (beq_self_eq_true slash) cs
    have hrest : pieces (slash :: cs) = pieces cs := by
      rw [← pieces_dropWhile,
        List.dropWhile_cons_of_pos (p := (· == slash)) (beq_self_eq_true slash), pieces_dropWhile]
    rw [hrest, pieces, hsplit, List.filter_cons_of_pos (p := fun q : Str => q ≠ []) hkeep]
    rfl

theorem components_piece {piece rest : Str} (hne : piece ≠ []) (hpiece : ∀ c ∈ piece, c ≠ slash)
    (hrest : rest = [] ∨ ∃ cs, rest = slash :: cs) :
    components (piece ++ rest) = piece.take EXT2_NAME_LEN :: components rest := by
  rw [components_eq_map, pieces_append hne hpiece hrest]
  rfl

/-- A path without leading slashes begins with its first piece. -/
theorem pieces_cons {c : UInt8} {cs : Str} (hc : c ≠ slash) :
    pieces (c :: cs) =
      (c :: cs).takeWhile (· != slash) :: pieces ((c :: cs).dropWhile (· != slash)) := by
  have hc : (c != slash) = true := bne_iff_ne.mpr hc
  have hne : (c :: cs).takeWhile (· != slash) ≠ [] := by
    rw [List.takeWhile_cons_of_pos (p := (· != slash)) hc]
    exact List.cons_ne_nil _ _
  have hpiece : ∀ x ∈ (c :: cs).takeWhile (· != slash), x ≠ slash := fun x hx =>
    bne_iff_ne.mp (List.all_eq_true.mp List.all_takeWhile x hx)
  have hrest : (c :: cs).dropWhile (· != slash) = [] ∨
      ∃ ds, (c :: cs).dropWhile (· != slash) = slash :: ds := by
    cases hdrop : (c :: cs).dropWhile (· != slash) with
    | nil => exact .inl rfl
    | cons d ds =>
      have hhead := List.head?_dropWhile_not (fun x : UInt8 => x != slash) (c :: cs)
      rw [hdrop] at hhead
      have hd : (d != slash) = false := hhead
      rw [bne_eq_false_iff_eq] at hd
      exact .inr ⟨ds, by rw [hd]⟩
  rw [← pieces_append hne hpiece hrest, List.takeWhile_append_dropWhile]

/-- Where skipping stops is no slash. -/
theorem dropWhile_slash_head {path cs : Str} {c : UInt8}
    (h : path.dropWhile (· == slash) = c :: cs) : c ≠ slash := by
  have hhead := List.head?_dropWhile_not (fun x : UInt8 => x == slash) path
  rw [h] at hhead
  exact beq_eq_false_iff_ne.mp hhead

/-- What `skipelem` takes off is the first component. -/
theorem skipelem_components (path : Str) :
    (skipelem path = none → components path = []) ∧
      ∀ elem rest, skipelem path = some (elem, rest) →
        components path = elem :: components rest := by
  unfold skipelem
  cases hpath : path.dropWhile (· == slash) with
  | nil =>
    refine ⟨fun _ => ?_, fun _ _ h => nomatch h⟩
    rw [← components_dropWhile, hpath]
    rfl
  | cons c cs =>
    refine ⟨fun h => (nomatch h), fun elem rest h => ?_⟩
    cases h
    rw [components_dropWhile, ← components_dropWhile path, hpath, components_eq_map,
      pieces_cons (dropWhile_slash_head hpath)]
    rfl

theorem elements_eq (path : Str) : elements path = components path := by
  induction path using elements.induct with
  | case1 path hskip =>
    rw [(skipelem_components path).1 hskip, elements]
    split
    · rfl
    · rename_i hskip'
      rw [hskip] at hskip'
      cases hskip'
  | case2 path elem rest hskip ih =>
    rw [(skipelem_components path).2 elem rest hskip, elements]
    split
    · rename_i hskip'
      rw [hskip] at hskip'
      cases hskip'
    · rename_i hskip'
      rw [hskip] at hskip'
      cases hskip'
      rw [ih]

/-! ## The walk of `namex` -/

/-- A name as a component of a path can be. -/
def ShortName (name : Str) : Prop := name.length ≤ EXT2_NAME_LEN ∧ 0 ∉ name

/-- `dirlookup` answers what the directories of the device say. -/
def Exact (s : Fs) (dev : Nat) (entry : Nat → Str → Option Nat) : Prop :=
  ∀ iNo name tmpDe, isDir (s.inodes.diskInode dev iNo).iMode = true → ShortName name →
    diskLookup s dev iNo name tmpDe = some (entry iNo name)

def directory (s : Fs) (dev iNo : Nat) : Bool := isDir (s.inodes.diskInode dev iNo).iMode

theorem components_short {path name : Str} (hnul : 0 ∉ path) (h : name ∈ components path) :
    ShortName name := by
  rw [← elements_eq] at h
  refine ⟨elements_short h, fun hzero => hnul ?_⟩
  rw [elements_eq, components, List.mem_map] at h
  obtain ⟨piece, hpiece, rfl⟩ := h
  have hmem : piece ∈ path.splitOn slash := (List.mem_filter.mp hpiece).1
  have hsub : ∀ (l : Str) (piece : Str), piece ∈ l.splitOn slash → ∀ c ∈ piece, c ∈ l := by
    intro l
    induction l with
    | nil =>
      intro piece hmem c hc
      rw [List.splitOn_nil, List.mem_singleton] at hmem
      rw [hmem] at hc
      exact hc
    | cons d ds ih =>
      intro piece hmem c hc
      have hmem : piece ∈ (d :: ds).splitOnP (· == slash) := hmem
      rw [List.splitOnP_cons_eq_if_modifyHead] at hmem
      split at hmem
      · rcases List.mem_cons.mp hmem with rfl | hmem
        · cases hc
        · exact List.mem_cons_of_mem d (ih piece hmem c hc)
      · cases hds : ds.splitOnP (· == slash) with
        | nil => exact absurd hds (List.splitOnP_ne_nil _ ds)
        | cons first others =>
          have hfirst : ∀ piece ∈ first :: others, ∀ c ∈ piece, c ∈ ds := by
            intro piece hp
            rw [← hds] at hp
            exact ih piece hp
          rw [hds, List.modifyHead_cons] at hmem
          rcases List.mem_cons.mp hmem with rfl | hmem
          · rcases List.mem_cons.mp hc with rfl | hc
            · exact List.mem_cons_self
            · exact List.mem_cons_of_mem d (hfirst first List.mem_cons_self c hc)
          · exact List.mem_cons_of_mem d (hfirst piece (List.mem_cons_of_mem first hmem) c hc)
  exact hsub path piece hmem 0 (List.mem_of_mem_take hzero)

variable {env : Env} {s s' : Fs} {dev iNo : Nat} {entry : Nat → Str → Option Nat} {elems : List Str}
  {name : Str} {icwd : Slot} {path : Str}

theorem leads_resolve (hexact : Exact s dev entry) (hshort : ∀ elem ∈ elems, ShortName elem)
    (hpass : Passable (directory s dev) entry iNo elems) :
    leads env s false dev iNo elems name = match resolve (directory s dev) entry iNo elems with
      | some target => .found target (elems.getLast?.getD name)
      | none => .missing := by
  induction elems generalizing iNo name with
  | nil => rfl
  | cons elem rest ih =>
    obtain ⟨hdir, hnext⟩ := hpass
    have hdir' : isDir (s.inodes.diskInode dev iNo).iMode = true := hdir
    have hlook := hexact iNo elem (env.lookupStack (elem :: rest)) hdir'
      (hshort elem List.mem_cons_self)
    rw [leads, if_pos hdir', if_neg (by simp), hlook, resolve, if_pos hdir]
    cases hentry : entry iNo elem with
    | none => rfl
    | some next =>
      have hrest : leads env s false dev next rest elem = _ :=
        ih (fun e he => hshort e (List.mem_cons_of_mem elem he)) (hnext next hentry)
      show leads env s false dev next rest elem = _
      rw [hrest, Option.bind_some, List.getLast?_cons, Option.getD_some]

theorem leads_resolveParent (hexact : Exact s dev entry) (hshort : ∀ elem ∈ elems, ShortName elem)
    (hpass : Passable (directory s dev) entry iNo elems) :
    leads env s true dev iNo elems name
      = match resolveParent (directory s dev) entry iNo elems with
      | some (d, last) => .found d last
      | none => .missing := by
  induction elems generalizing iNo name with
  | nil => rfl
  | cons elem rest ih =>
    obtain ⟨hdir, hnext⟩ := hpass
    have hdir' : isDir (s.inodes.diskInode dev iNo).iMode = true := hdir
    rw [leads, if_pos hdir']
    cases rest with
    | nil =>
      have hparent : resolveParent (directory s dev) entry iNo [elem] = some (iNo, elem) := by
        show (if directory s dev iNo then some (iNo, elem) else none) = _
        rw [if_pos hdir]
      have hlast : (true && ([] : List Str).isEmpty) = true := rfl
      rw [hparent, if_pos hlast]
    | cons b rest =>
      have hlook := hexact iNo elem (env.lookupStack (elem :: b :: rest)) hdir'
        (hshort elem List.mem_cons_self)
      rw [if_neg (by simp), hlook, resolveParent_cons hdir]
      cases hentry : entry iNo elem with
      | none => rfl
      | some next =>
        exact ih (fun e he => hshort e (List.mem_cons_of_mem elem he))
          (hnext next hentry)

/-- A component in a file that is no directory fails the assertion. -/
theorem leads_stuck (hexact : Exact s dev entry) (hshort : ∀ elem ∈ elems, ShortName elem)
    (hpass : ¬ Passable (directory s dev) entry iNo elems) (parent : Bool) :
    leads env s parent dev iNo elems name = .stuck := by
  induction elems generalizing iNo name with
  | nil => exact absurd trivial hpass
  | cons elem rest ih =>
    rw [leads]
    by_cases hdir : isDir (s.inodes.diskInode dev iNo).iMode = true
    · have hnext : ∃ next, entry iNo elem = some next ∧
          ¬ Passable (directory s dev) entry next rest := by
        by_contra hno
        refine hpass ⟨hdir, fun next hentry => ?_⟩
        by_contra hrest
        exact hno ⟨next, hentry, hrest⟩
      obtain ⟨next, hentry, hrest⟩ := hnext
      have hnil : rest ≠ [] := by
        rintro rfl
        exact hrest trivial
      have hlast : ¬ (parent && rest.isEmpty) = true := by
        rw [Bool.and_eq_true, List.isEmpty_iff]
        exact fun hand => hnil hand.2
      have hlook := hexact iNo elem (env.lookupStack (elem :: rest)) hdir
        (hshort elem List.mem_cons_self)
      rw [if_pos hdir, if_neg hlast, hlook, hentry]
      exact ih (fun e he => hshort e (List.mem_cons_of_mem elem he)) hrest
    · rw [if_neg hdir]

/-! ## The calls -/

/-- What a call leaves behind: one reference more to each of these slots, and nothing else. -/
structure Balanced (s s' : Fs) (own : List Slot) : Prop where
  counts : ∀ ip, (s'.inodes.mInodes ip).iCount = (s.inodes.mInodes ip).iCount + own.count ip
  names : ∀ ip, 1 ≤ (s.inodes.mInodes ip).iCount →
    SameName (s.inodes.mInodes ip) (s'.inodes.mInodes ip)
  disk : SameDisk s s'
  unlocked : s'.iMtx = fun _ => none

theorem Amid.balanced {p : Pid} {own : List Slot} (h : Amid p s s' own none) : Balanced s s' own :=
  ⟨h.within.count, h.within.names, h.disk, h.mutexes⟩

/-- `namei` has found this inode, or nothing; it may sleep for want of an idle slot. -/
def NameiOk (s : Fs) (dev : Nat) (target : Option Nat) : Except Stop (Fs × Option Slot) → Prop
  | .ok (s', none) => target = none ∧ Balanced s s' []
  | .ok (s', some ip) => ∃ iNo, target = some iNo ∧ Named s' ip dev iNo ∧ Balanced s s' [ip]
  | .error e => Lacks s e

/-- The same of `nameiparent`, with the last name. -/
def NameiparentOk (s : Fs) (dev : Nat) (target : Option (Nat × Str)) :
    Except Stop (Fs × Option (Slot × Str)) → Prop
  | .ok (s', none) => target = none ∧ Balanced s s' []
  | .ok (s', some (ip, name)) =>
    ∃ iNo, target = some (iNo, name) ∧ Named s' ip dev iNo ∧ Balanced s s' [ip]
  | .error e => Lacks s e

/-- Where the walk is not stuck, the call ends where it leads. -/
theorem AtHome.namex_ok (h : AtHome env s icwd) (p : Pid) {parent : Bool}
    {target : Option (Nat × Str)}
    (hleads : pathLeads env s icwd parent path = match target with
      | some (iNo, name) => .found iNo name
      | none => .missing) :
    NameiparentOk s (startOf s icwd path).1 target (PathCalls.namex p env s icwd path parent) := by
  have hmeets := h.namex p path parent
  rw [hleads] at hmeets
  cases hrun : PathCalls.namex p env s icwd path parent with
  | error e =>
    refine (hmeets.of_error hrun).resolve_right ?_
    cases target <;> exact fun heq => nomatch heq
  | ok r =>
    obtain ⟨s', found⟩ := r
    have harrived := hmeets.of_ok hrun
    cases target with
    | none =>
      obtain ⟨rfl, hamid⟩ := harrived
      exact ⟨rfl, hamid.balanced⟩
    | some end_ =>
      obtain ⟨jp, rfl, hamid, hnamed⟩ := harrived
      exact ⟨end_.1, rfl, hnamed, hamid.balanced⟩

/-- Where it is stuck, the call fails. -/
theorem AtHome.namex_panics (h : AtHome env s icwd) (p : Pid) {parent : Bool}
    (hleads : pathLeads env s icwd parent path = .stuck) :
    ∃ e, PathCalls.namex p env s icwd path parent = .error e := by
  have hmeets := h.namex p path parent
  rw [hleads] at hmeets
  cases hrun : PathCalls.namex p env s icwd path parent with
  | error e => exact ⟨e, rfl⟩
  | ok r => exact (hmeets.of_ok hrun).elim

/-- `namei` is `namex` without the name. -/
theorem NameiparentOk.namei {p : Pid} {target : Option (Nat × Str)}
    (h : NameiparentOk s dev target (PathCalls.namex p env s icwd path false)) :
    NameiOk s dev (target.map Prod.fst) (PathCalls.namei p env s icwd path) := by
  unfold PathCalls.namei
  cases hrun : PathCalls.namex p env s icwd path false with
  | error e =>
    rw [hrun] at h
    exact h
  | ok r =>
    rw [hrun] at h
    obtain ⟨s', found⟩ := r
    cases found with
    | none =>
      obtain ⟨rfl, hbalanced⟩ := h
      exact ⟨rfl, hbalanced⟩
    | some end_ =>
      obtain ⟨iNo, rfl, hnamed, hbalanced⟩ := h
      exact ⟨iNo, rfl, hnamed, hbalanced⟩

/-- The inode number that a path leads to. -/
def pathTarget (s : Fs) (entry : Nat → Str → Option Nat) (icwd : Slot) (path : Str) : Option Nat :=
  resolve (directory s (startOf s icwd path).1) entry (startOf s icwd path).2 (components path)

/-- The directory of the last component, and that component. -/
def parentTarget (s : Fs) (entry : Nat → Str → Option Nat) (icwd : Slot) (path : Str) :
    Option (Nat × Str) :=
  resolveParent (directory s (startOf s icwd path).1) entry (startOf s icwd path).2
    (components path)

/-- No component is looked for in something that is no directory. -/
def PathPassable (s : Fs) (entry : Nat → Str → Option Nat) (icwd : Slot) (path : Str) : Prop :=
  Passable (directory s (startOf s icwd path).1) entry (startOf s icwd path).2 (components path)

theorem AtHome.namei_passable (h : AtHome env s icwd) (hnul : 0 ∉ path)
    (hexact : Exact s (startOf s icwd path).1 entry) (hpass : PathPassable s entry icwd path)
    (p : Pid) :
    NameiOk s (startOf s icwd path).1 (pathTarget s entry icwd path)
      (PathCalls.namei p env s icwd path) := by
  have hleads : pathLeads env s icwd false path = match (pathTarget s entry icwd path).map
      fun iNo => (iNo, (components path).getLast?.getD []) with
      | some (iNo, name) => .found iNo name
      | none => .missing := by
    rw [pathLeads, elements_eq, leads_resolve hexact (fun _ => components_short hnul) hpass]
    unfold pathTarget
    cases resolve (directory s (startOf s icwd path).1) entry (startOf s icwd path).2
      (components path) <;> rfl
  have hok := (h.namex_ok p hleads).namei
  rw [Option.map_map] at hok
  have hid : (pathTarget s entry icwd path).map (Prod.fst ∘ fun iNo =>
      (iNo, (components path).getLast?.getD [])) = pathTarget s entry icwd path := Option.map_id'
  rw [hid] at hok
  exact hok

theorem AtHome.nameiparent_passable (h : AtHome env s icwd) (hnul : 0 ∉ path)
    (hexact : Exact s (startOf s icwd path).1 entry) (hpass : PathPassable s entry icwd path)
    (p : Pid) :
    NameiparentOk s (startOf s icwd path).1 (parentTarget s entry icwd path)
      (PathCalls.nameiparent p env s icwd path) := by
  refine h.namex_ok p ?_
  rw [pathLeads, elements_eq, leads_resolveParent hexact (fun _ => components_short hnul) hpass]
  rfl

/-- With a component in a file that is no directory, neither call comes to its end. -/
theorem AtHome.impassable (h : AtHome env s icwd) (hnul : 0 ∉ path)
    (hexact : Exact s (startOf s icwd path).1 entry) (hpass : ¬ PathPassable s entry icwd path)
    (p : Pid) :
    (∃ e, PathCalls.namei p env s icwd path = .error e) ∧
      ∃ e, PathCalls.nameiparent p env s icwd path = .error e := by
  have hstuck : ∀ parent, pathLeads env s icwd parent path = .stuck := by
    intro parent
    rw [pathLeads, elements_eq]
    exact leads_stuck hexact (fun _ => components_short hnul) hpass parent
  obtain ⟨e, hrun⟩ := h.namex_panics p (hstuck false)
  refine ⟨⟨e, ?_⟩, h.namex_panics p (hstuck true)⟩
  rw [PathCalls.namei, hrun]
  rfl

/-- The calls resolve a path if no component is looked for in something that is no directory, and
    only then (with idle slots enough, so that they do not sleep before they get there). -/
theorem path_resolution (h : AtHome env s icwd) (hnul : 0 ∉ path)
    (hexact : Exact s (startOf s icwd path).1 entry) (p : Pid) :
    (PathPassable s entry icwd path →
      NameiOk s (startOf s icwd path).1 (pathTarget s entry icwd path)
          (PathCalls.namei p env s icwd path) ∧
        NameiparentOk s (startOf s icwd path).1 (parentTarget s entry icwd path)
          (PathCalls.nameiparent p env s icwd path)) ∧
    (Spare s → ¬ PathPassable s entry icwd path →
      ¬ NameiOk s (startOf s icwd path).1 (pathTarget s entry icwd path)
          (PathCalls.namei p env s icwd path) ∧
        ¬ NameiparentOk s (startOf s icwd path).1 (parentTarget s entry icwd path)
          (PathCalls.nameiparent p env s icwd path)) := by
  refine ⟨fun hpass => ⟨h.namei_passable hnul hexact hpass p,
    h.nameiparent_passable hnul hexact hpass p⟩, fun hspare hpass => ?_⟩
  obtain ⟨⟨e, hrun⟩, e', hrun'⟩ := h.impassable hnul hexact hpass p
  rw [hrun, hrun']
  exact ⟨fun hlacks => hlacks.2 hspare, fun hlacks => hlacks.2 hspare⟩

/-! ## A root directory with a file -/

/-- The entry of the file `f`, inode 12. -/
def fileEntry : DirLink.DirEntry := ⟨12, 4096, [102]⟩

def fileRoot : DInode := ⟨0x41ed, 4096, 2, 8⟩

def fileFs : Fs := rootFs fileRoot fun _ _ => DirLink.entryBytes fileEntry

def fileNames (iNo : Nat) (name : Str) : Option Nat :=
  if iNo = 2 ∧ DirLink.matchesName (nameOf name) (DirLink.entryBytes fileEntry) = true then some 12
  else none

theorem strncmpEq_congr (s1 : Bytes) {s2 s2' : Bytes} {i n : Nat}
    (h : ∀ k < i + n, s2 k = s2' k) : DirLink.strncmpEq s1 s2 i n = DirLink.strncmpEq s1 s2' i n := by
  induction n generalizing i with
  | zero => rfl
  | succ n ih =>
    rw [DirLink.strncmpEq, DirLink.strncmpEq, h i (by omega), ih fun k hk => h k (by omega)]

/-- The test of an entry only reads the bytes that `dirlookup` has read. -/
theorem matchesName_congr {n : DirLink.Name} {de de' : Bytes} {e : DirLink.DirEntry}
    (he : DirLink.entryAt de 0 = e) (he' : DirLink.entryAt de' 0 = e)
    (hname : n.chars.length ≤ DirLink.EXT2_NAME_LEN) (hlen : e.name.length ≤ DirLink.EXT2_NAME_LEN)
    (h : ∀ k < DirLink.EXT2_DIRENTRY_MAXSIZE, de k = de' k) :
    DirLink.matchesName n de = DirLink.matchesName n de' := by
  have hmax : DirLink.EXT2_DIRENTRY_MAXSIZE = 263 := rfl
  have hnl : DirLink.EXT2_NAME_LEN = 255 := rfl
  rw [DirLink.matchesName, DirLink.matchesName, DirLink.deInode_of_entryAt he,
    DirLink.deInode_of_entryAt he', DirLink.deNameLen_of_entryAt he,
    DirLink.deNameLen_of_entryAt he']
  rw [strncmpEq_congr n.cstr fun k hk => ?_]
  show de (8 + k) = de' (8 + k)
  exact h (8 + k) (by omega)

/-- The lookup in a directory of one entry. -/
theorem fileFs_exact (dev : Nat) : Exact fileFs dev fileNames := by
  intro iNo name tmpDe hdir hshort
  have hroot : iNo = 2 := by
    by_contra hne
    have hdisk : fileFs.inodes.diskInode dev iNo = ⟨0x81a4, 0, 1, 0⟩ := if_neg hne
    rw [hdisk] at hdir
    exact absurd hdir (by decide)
  subst hroot
  have hentry : DirLink.entryAt (DirLink.entryBytes fileEntry) 0 = fileEntry :=
    DirLink.entryAt_entryBytes (by decide) (by decide) (by decide)
  have hok : DirLink.EntryOk 0 fileEntry := ⟨by decide, by decide, by decide, by decide⟩
  have hname : (nameOf name).chars.length ≤ DirLink.EXT2_NAME_LEN :=
    Nat.le_trans (List.takeWhile_prefix _).length_le hshort.1
  have hread := DirLink.entryAt_readi (d := dirOf fileRoot (DirLink.entryBytes fileEntry)) tmpDe hentry
    hok (Nat.le_refl 4096)
  have hbytes : ∀ k < DirLink.EXT2_DIRENTRY_MAXSIZE, DirLink.readi (dirOf fileRoot
      (DirLink.entryBytes fileEntry)) tmpDe 0 DirLink.EXT2_DIRENTRY_MAXSIZE k
        = DirLink.entryBytes fileEntry k := by
    intro k hk
    have hk : k < 263 := hk
    show (if 0 ≤ k ∧ k < 0 + 263 then DirLink.entryBytes fileEntry (0 + (k - 0)) else tmpDe k) = _
    rw [if_pos ⟨Nat.zero_le k, by omega⟩, Nat.zero_add, Nat.sub_zero]
  have hmatch := matchesName_congr hread hentry hname (by decide) hbytes
  show DirLink.dirlookup (dirOf fileRoot (DirLink.entryBytes fileEntry)) (nameOf name) tmpDe = _
  rw [DirLink.dirlookup, if_pos hname, DirLink.dirlookupLoop, if_pos (by decide)]
  simp only [hmatch, DirLink.deInode_of_entryAt hread, DirLink.deRecLen_of_entryAt hread]
  unfold fileNames
  by_cases hfound : DirLink.matchesName (nameOf name) (DirLink.entryBytes fileEntry) = true
  · rw [if_pos hfound, if_pos ⟨rfl, hfound⟩]
    rfl
  · rw [if_neg hfound, if_neg (by decide), if_neg (fun hand => hfound hand.2),
      DirLink.dirlookupLoop, if_neg (by decide)]

theorem fileFs_atHome : AtHome smallEnv fileFs 0 := rootFs_atHome (by decide) _

/-- The file, and the directory it is in. -/
theorem path_resolution_file :
    NameiOk fileFs 1 (some 12) (PathCalls.namei 1 smallEnv fileFs 0 [slash, slash, 102]) ∧
      NameiparentOk fileFs 1 (some (2, [102]))
        (PathCalls.nameiparent 1 smallEnv fileFs 0 [slash, slash, 102]) := by
  have hcomp : components [slash, slash, 102] = [[102]] := by decide +kernel
  have hdev : (startOf fileFs 0 [slash, slash, 102]).1 = 1 := by decide
  have hpass : PathPassable fileFs fileNames 0 [slash, slash, 102] := by
    rw [PathPassable, hcomp]
    exact ⟨by decide, fun _ _ => trivial⟩
  have htarget : pathTarget fileFs fileNames 0 [slash, slash, 102] = some 12 := by
    rw [pathTarget, hcomp]
    decide
  have hparent : parentTarget fileFs fileNames 0 [slash, slash, 102] = some (2, [102]) := by
    rw [parentTarget, hcomp]
    decide
  have hexact : Exact fileFs (startOf fileFs 0 [slash, slash, 102]).1 fileNames := by
    rw [hdev]
    exact fileFs_exact 1
  have hok := (path_resolution fileFs_atHome (by decide) hexact 1).1 hpass
  rw [hdev, htarget, hparent] at hok
  exact hok

/-- `f/x`, where `f` is a file, brings the kernel down; resolution has no answer there. -/
theorem path_through_file : AtHome smallEnv fileFs 0 ∧ Exact fileFs 1 fileNames ∧ Spare fileFs ∧
    pathTarget fileFs fileNames 0 [102, slash, 120] = none ∧
    ¬ NameiOk fileFs 1 none (PathCalls.namei 1 smallEnv fileFs 0 [102, slash, 120]) := by
  have hcomp : components [102, slash, 120] = [[102], [120]] := by decide +kernel
  have hspare : Spare fileFs := rootFs_spare _ _
  have hentry : fileNames 2 [102] = some 12 := by decide
  have hblocked : ¬ PathPassable fileFs fileNames 0 [102, slash, 120] := by
    rw [PathPassable, hcomp]
    intro hpass
    have hfile := (hpass.2 12 hentry).1
    exact absurd hfile (by decide)
  refine ⟨fileFs_atHome, fileFs_exact 1, hspare, ?_, ?_⟩
  · rw [pathTarget, hcomp]
    decide
  · obtain ⟨⟨e, hrun⟩, -⟩ := fileFs_atHome.impassable (by decide) (fileFs_exact 1) hblocked 1
    rw [hrun]
    exact fun hlacks => hlacks.2 hspare

end Uniks.PathCalls
