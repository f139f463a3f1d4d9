/-
  Descriptors and the open files behind them.

  A descriptor names an entry of the file table, and the entries are used again and again.  A
  program knows nothing of entries: to it an open file is what one `open` has opened, or one end of
  a pipe, and its descriptors come from there by `dup`, `dup2` and `fork`.  `Files` is this view,
  with the open files counted as they are opened, and `Does` is what the calls do to it.  The kernel
  follows it in every run: whatever entries it takes, two descriptors name the same one if and only
  if the open file behind them is the same.
-/
import Uniks.FileTable

namespace Uniks.OpenFiles

open Uniks.Sysfile Uniks.Runs Uniks.RefCount
open Function (update update_idem update_self update_of_ne update_eq_self)
open Option (some bind_eq_some_iff)

/-! ## What the calls are for -/

/-- The descriptors of a process, each with the number of its open file. -/
abbrev Table := Fd → Option Nat

structure Files where
  tables : Pid → Option Table
  opened : Nat

def Files.put (s : Files) (p : Pid) (T : Option Table) : Files :=
  { s with tables := update s.tables p T }

theorem Files.put_put (s : Files) (p : Pid) (T U : Option Table) :
    (s.put p T).put p U = s.put p U := by
  rw [Files.put, Files.put, Files.put, update_idem]

/-- A file is opened, which gets a number that no file had before. -/
def Files.openAt (s : Files) (p : Pid) (T : Table) (i : Fd) : Files :=
  { s.put p (some (update T i (some s.opened))) with opened := s.opened + 1 }

/-- The calls that have nothing to do with descriptors. -/
def Apart : Call → Prop
  | .creat _ _ | .mkdir _ _ | .chmod _ _ | .stat _ _ | .fstat _ _ | .chdir _ | .truncate _ _ _
  | .link _ _ | .execve _ => True
  | _ => False

/-- What a call of a process does to the descriptors, by the value it returns.  A call that fails
    does nothing to them, but for a `pipe` whose buffer is refused. -/
inductive Does (s : Files) (p : Pid) : Call → Int → Files → Prop
  | fails {call res} (hres : res < 0) : Does s p call res s
  | apart {call res} (hcall : Apart call) : Does s p call res s
  | openPath {T i path flags mode} (hT : s.tables p = some T) (hidle : T i = none) :
      Does s p (.openPath path flags mode) (i : Nat) (s.openAt p T i)
  | pipe {T U i j areaOk} (hT : s.tables p = some T) (hi : T i = none)
      (hU : U = update T i (some s.opened)) (hj : U j = none) :
      Does s p (.pipe areaOk) (if areaOk then 0 else -EFAULT) ((s.openAt p T i).openAt p U j)
  | close {T} {i : Fd} (hT : s.tables p = some T) (hopen : T i ≠ none) :
      Does s p (.close (i : Nat)) 0 (s.put p (some (update T i none)))
  | dup {T} {i j : Fd} (hT : s.tables p = some T) (hi : T i = none) (hj : T j ≠ none) :
      Does s p (.dup j) (i : Nat) (s.put p (some (update T i (T j))))
  | dup2 {T U newfd} {i j : Fd} (hT : s.tables p = some T)
      (hU : U = T ∨ ∃ n : Fd, (n : Nat) = newfd ∧ U = update T n none)
      (hi : U i = none) (hnew : newfd ≤ i) :
      Does s p (.dup2 j newfd) (i : Nat) (s.put p (some (update U i (U j))))
  | fork {T} {c : Pid} (hT : s.tables p = some T) (hc : s.tables c = none) :
      Does s p (.fork (some c)) (c : Nat) (s.put c (some T))
  | exit : Does s p .exit 0 (s.put p none)

/-- The first process, which has no file open. -/
def started : Files := ⟨update (fun _ => none) 1 (some fun _ => none), 0⟩

/-! ## The entries behind the descriptors -/

/-- Some descriptor names the entry. -/
def Names (procs : Pid → Option Proc) (no : FcbNo) : Prop :=
  ∃ p pr i, procs p = some pr ∧ pr.fdtable i = some no

/-- The descriptors of a process, when the entries stand for open files like this. -/
def seen (label : FcbNo → Nat) (pr : Proc) : Table := Option.map label ∘ pr.fdtable

/-- Every entry that has a name stands for one open file. -/
structure Shows (procs : Pid → Option Proc) (s : Files) (label : FcbNo → Nat) : Prop where
  tables : ∀ p, s.tables p = (procs p).map (seen label)
  once : ∀ a b, Names procs a → Names procs b → label a = label b → a = b
  past : ∀ a, Names procs a → label a < s.opened

variable {procs : Pid → Option Proc} {s : Files} {label : FcbNo → Nat} {p : Pid} {pr pr' : Proc}
  {no a : FcbNo} {i : Fd} {k k' : Kernel} {dead : FcbNo → Nat} {res : Int}

theorem seen_setFd (label : FcbNo → Nat) (pr : Proc) (i : Fd) (v : Option FcbNo) :
    seen label (pr.setFd i v) = update (seen label pr) i (v.map label) :=
  Function.comp_update ..

theorem seen_none : seen label pr i = none ↔ pr.fdtable i = none := Option.map_eq_none_iff

theorem Names.of_update {v : Option Proc} (h : Names (update procs p v) a) :
    (∃ pr i, v = some pr ∧ pr.fdtable i = some a) ∨ Names procs a := by
  obtain ⟨q, pr', i, hq, hi⟩ := h
  by_cases hqp : q = p
  · rw [hqp, update_self] at hq
    exact .inl ⟨pr', i, hq, hi⟩
  · rw [update_of_ne hqp] at hq
    exact .inr ⟨q, pr', i, hq, hi⟩

/-- A descriptor is set: what has a name now had one before, or is what the descriptor names. -/
theorem Names.of_setFd {v : Option FcbNo} (hpr : procs p = some pr)
    (h : Names (update procs p (some (pr.setFd i v))) a) : v = some a ∨ Names procs a := by
  rcases h.of_update with ⟨_, j, ⟨⟩, hj⟩ | hold
  · by_cases hji : j = i
    · rw [hji, Proc.setFd_fdtable, update_self] at hj
      exact .inl hj
    · rw [Proc.setFd_fdtable, update_of_ne hji] at hj
      exact .inr ⟨p, pr, j, hpr, hj⟩
  · exact .inr hold

theorem not_names (h : fdRefs procs no = 0) : ¬ Names procs no := by
  rintro ⟨p, pr, i, hp, hi⟩
  have hrow := total_eq_zero.mp h p
  rw [hp] at hrow
  exact refs_eq_zero.mp hrow i hi

/-! ## Steps -/

theorem Shows.table (h : Shows procs s label) (hpr : procs p = some pr) :
    s.tables p = some (seen label pr) := by
  rw [h.tables p, hpr]
  rfl

/-- One process changes, and no entry gets a name. -/
theorem Shows.put (h : Shows procs s label) (v : Option Proc)
    (hnames : ∀ a, Names (update procs p v) a → Names procs a) :
    Shows (update procs p v) (s.put p (v.map (seen label))) label := by
  refine ⟨fun q => ?_, fun a b ha hb => h.once a b (hnames a ha) (hnames b hb),
    fun a ha => h.past a (hnames a ha)⟩
  show update s.tables p (v.map (seen label)) q = _
  by_cases hq : q = p
  · rw [hq, update_self, update_self]
  · rw [update_of_ne hq, update_of_ne hq, h.tables q]

/-- A process changes, and its descriptors stay. -/
theorem Shows.same (h : Shows procs s label) (hpr : procs p = some pr)
    (hfds : pr'.fdtable = pr.fdtable) : Shows (update procs p (some pr')) s label := by
  have hput := h.put (p := p) (some pr') fun a ha => by
    rcases ha.of_update with ⟨_, i, ⟨⟩, hi⟩ | hold
    · exact ⟨p, pr, i, hpr, hfds ▸ hi⟩
    · exact hold
  have hs : s.put p ((some pr').map (seen label)) = s := by
    have hseen : seen label pr' = seen label pr := congrArg (Option.map label ∘ ·) hfds
    rw [Option.map_some, hseen, ← h.table hpr, Files.put, update_eq_self]
  rw [hs] at hput
  exact hput

/-- A descriptor is set to what some descriptor of the process names, or to nothing. -/
theorem Shows.setFd (h : Shows procs s label) (hpr : procs p = some pr) {v : Option FcbNo}
    (hv : v = none ∨ ∃ j, v = pr.fdtable j) :
    Shows (update procs p (some (pr.setFd i v)))
      (s.put p (some (update (seen label pr) i (v.map label)))) label := by
  have hput := h.put (p := p) (some (pr.setFd i v)) fun a ha => by
    rcases Names.of_setFd hpr ha with rfl | hold
    · rcases hv with hv | ⟨j, hj⟩
      · cases hv
      · exact ⟨p, pr, j, hpr, hj.symm⟩
    · exact hold
  rw [Option.map_some, seen_setFd] at hput
  exact hput

/-- A descriptor is set to an entry without a name: it stands for a new open file from now on. -/
theorem Shows.openAt (h : Shows procs s label) (hpr : procs p = some pr) (hno : ¬ Names procs no) :
    Shows (update procs p (some (pr.setFd i (some no))))
      (s.openAt p (seen label pr) i) (update label no s.opened) := by
  -- only an entry without a name gets another number
  have hkeep : ∀ b, Names procs b → update label no s.opened b = label b := fun b hb =>
    update_of_ne (fun heq : b = no => hno (heq ▸ hb)) ..
  have hseen : ∀ q pr', procs q = some pr' →
      seen (update label no s.opened) pr' = seen label pr' := by
    intro q pr' hq
    exact funext fun j => Option.map_congr fun b hb => hkeep b ⟨q, pr', j, hq, hb⟩
  refine ⟨fun q => ?_, fun b c hb hc heq => ?_, fun b hb => ?_⟩
  · by_cases hq : q = p
    · rw [hq, update_self, Option.map_some, seen_setFd, hseen p pr hpr, Option.map_some,
        update_self]
      exact update_self ..
    · rw [update_of_ne hq]
      refine (update_of_ne hq ..).trans ((h.tables q).trans ?_)
      cases hprq : procs q with
      | none => rfl
      | some pr' => exact congrArg some (hseen q pr' hprq).symm
  · rcases Names.of_setFd hpr hb with hb | hb <;> rcases Names.of_setFd hpr hc with hc | hc
    · exact some.inj (hb.symm.trans hc)
    · cases hb
      rw [update_self, hkeep c hc] at heq
      exact absurd heq.symm (Nat.ne_of_lt (h.past c hc))
    · cases hc
      rw [update_self, hkeep b hb] at heq
      exact absurd heq (Nat.ne_of_lt (h.past b hb))
    · rw [hkeep b hb, hkeep c hc] at heq
      exact h.once b c hb hc heq
  · rcases Names.of_setFd hpr hb with hb | hb
    · cases hb
      rw [update_self]
      exact Nat.lt_succ_self _
    · rw [hkeep b hb]
      exact Nat.lt_succ_of_lt (h.past b hb)

/-! ## The calls -/

/-- `do_dupfd` copies the descriptor it is given to an idle one, not below `arg`, if there is one. -/
theorem Shows.dup {fd arg : Nat} (h : Shows k.procs s label) (hpr : k.procs p = some pr)
    (hd : doDupfd k p pr fd arg = some (k', res)) :
    (k' = k ∧ res < 0 ∧ ∀ n : Fd, arg ≤ n → pr.fdtable n ≠ none) ∨
      ∃ i j : Fd, (j : Nat) = fd ∧ arg ≤ i ∧ res = (i : Nat) ∧ seen label pr i = none ∧
        Shows k'.procs (s.put p (some (update (seen label pr) i (seen label pr j)))) label := by
  unfold doDupfd at hd
  split at hd
  · rename_i hbig
    cases hd
    exact .inl ⟨rfl, by decide, fun n hn => absurd n.isLt (Nat.not_lt.mpr (hbig.trans hn))⟩
  · split at hd
    · rename_i hfull
      cases hd
      refine .inl ⟨rfl, by decide, fun n hn hnone => ?_⟩
      have hno := List.find?_eq_none.mp hfull n (List.mem_finRange n)
      rw [hnone, Bool.and_eq_true] at hno
      exact hno ⟨decide_eq_true hn, rfl⟩
    · rename_i i hidle
      split at hd
      · rename_i hfd
        obtain ⟨fcb, -, hd⟩ := bind_eq_some_iff.mp hd
        cases hd
        have hfound := List.find?_some hidle
        rw [Bool.and_eq_true] at hfound
        exact .inr ⟨i, ⟨fd, hfd⟩, rfl, of_decide_eq_true hfound.1, rfl,
          seen_none.mpr (idleFd_none hidle), h.setFd hpr (.inr ⟨_, rfl⟩)⟩
      · cases hd

theorem openFd_index {fd : Int} (h : openFd pr fd = some (i, no)) :
    fd = (i : Nat) ∧ pr.fdtable i = some no := by
  unfold openFd at h
  split at h
  · rename_i hrange
    obtain ⟨m, hm, heq⟩ := Option.map_eq_some_iff.mp h
    cases heq
    exact ⟨(Int.toNat_of_nonneg hrange.1).symm, hm⟩
  · cases h

theorem doExit_res (h : doExit k p = some (k', res)) : res = 0 := by
  obtain ⟨pr, -, h⟩ := bind_eq_some_iff.mp h
  split at h
  · obtain ⟨⟨t, fcb⟩, -, h⟩ := bind_eq_some_iff.mp h
    exact (Prod.mk.inj (some.inj h)).2.symm
  · cases h

theorem Shows.close (h : Shows k.procs s label) (hpr : k.procs p = some pr)
    (hc : doClose k p pr i = some (k', pr')) :
    pr' = pr.setFd i none ∧ k'.procs p = some pr' ∧
      Shows k'.procs (s.put p (some (update (seen label pr) i none))) label := by
  obtain ⟨m, t, fcb, -, -, rfl, rfl⟩ := doClose_cases hc
  refine ⟨rfl, update_self .., ?_⟩
  exact h.setFd hpr (v := none) (.inl rfl)

/-- A call that returns does to the open files what it is for. -/
theorem Shows.step {call : Call} (h : Shows k.procs s label) (hc : Counted k dead)
    (hexec : exec k p call = some (k', res)) :
    ∃ s' label', Does s p call res s' ∧ Shows k'.procs s' label' := by
  have hfail : res < 0 → Shows k'.procs s label →
      ∃ s' label', Does s p call res s' ∧ Shows k'.procs s' label' :=
    fun hres h' => ⟨s, label, .fails hres, h'⟩
  have hapart : Apart call → Shows k'.procs s label →
      ∃ s' label', Does s p call res s' ∧ Shows k'.procs s' label' :=
    fun hcall h' => ⟨s, label, .apart hcall, h'⟩
  cases call with
  | openPath path flags mode =>
    obtain ⟨pr, hpr, ⟨rfl, hres⟩ | ⟨t, r, -, ⟨-, hres, rfl⟩ | ⟨i, ip, -, hidle, hinstall⟩⟩⟩ :=
      sysOpen_cases hexec
    · exact hfail hres h
    · exact hfail hres h
    · obtain ⟨fcb, no, f, t', halloc, rfl, -, -, -, rfl⟩ := openInstall_cases hinstall
      obtain ⟨-, hr, -⟩ := FcbOk.alloc hc halloc
      exact ⟨_, _, .openPath (h.table hpr) (seen_none.mpr hidle), h.openAt hpr (not_names hr)⟩
  | creat path mode | mkdir path mode =>
    obtain ⟨pr, t, -, rfl, -⟩ := sysCreate_cases hexec
    exact hapart trivial h
  | chmod path mode =>
    obtain ⟨pr, t, -, rfl, -⟩ := sysChmod_cases hexec
    exact hapart trivial h
  | stat path areaOk =>
    obtain ⟨pr, t, -, rfl, -⟩ := sysStat_cases hexec
    exact hapart trivial h
  | fstat fd areaOk =>
    obtain ⟨t, rfl, -⟩ := sysFstat_cases hexec
    exact hapart trivial h
  | chdir path =>
    obtain ⟨pr, t, hpr, ⟨rfl, -⟩ | ⟨walk, t₁, ip, -, -, ⟨rfl, -⟩ | ⟨rfl, -⟩⟩⟩ :=
      sysChdir_cases hexec
    · exact hapart trivial h
    · exact hapart trivial h
    · exact hapart trivial (h.same hpr rfl)
  | truncate path length env =>
    obtain ⟨t, rfl, -⟩ := sysTruncate_cases hexec
    exact hapart trivial h
  | link paths junk =>
    obtain ⟨t, rfl, -⟩ := sysLink_cases hexec
    exact hapart trivial h
  | close fd =>
    obtain ⟨pr, hpr, ⟨rfl, hres⟩ | ⟨i, no, pr', hopen, hclose, rfl⟩⟩ := sysClose_cases hexec
    · exact hfail hres h
    · obtain ⟨rfl, hno⟩ := openFd_index hopen
      refine ⟨_, label, .close (h.table hpr) fun hnone => ?_, (h.close hpr hclose).2.2⟩
      exact nomatch hno.symm.trans (seen_none.mp hnone)
  | dup oldfd =>
    obtain ⟨pr, hpr, ⟨rfl, hres⟩ | ⟨hopen, hdup⟩⟩ := sysDup_cases hexec
    · exact hfail hres h
    · rcases h.dup hpr hdup with ⟨rfl, hres, -⟩ | ⟨i, j, rfl, -, rfl, hidle, h'⟩
      · exact hfail hres h
      · refine ⟨_, label, .dup (h.table hpr) hidle fun hnone => hopen ?_, h'⟩
        -- the descriptor that is copied was found open
        cases hfound : openFd pr (j : Nat) with
        | none => rfl
        | some r =>
          obtain ⟨hij, hno⟩ := openFd_index hfound
          obtain rfl : j = r.1 := Fin.ext (Int.ofNat_inj.mp hij)
          exact nomatch hno.symm.trans (seen_none.mp hnone)
  | dup2 oldfd newfd =>
    obtain ⟨pr, hpr, ⟨rfl, hres⟩ | hdup | ⟨n, k₁, pr₁, hn, hclose, hdup⟩⟩ := sysDup2_cases hexec
    · exact hfail hres h
    · rcases h.dup hpr hdup with ⟨rfl, hres, -⟩ | ⟨i, j, rfl, hnew, rfl, hidle, h'⟩
      · exact hfail hres h
      · exact ⟨_, label, .dup2 (h.table hpr) (.inl rfl) hidle hnew, h'⟩
    · obtain ⟨rfl, hpr₁, h₁⟩ := h.close hpr hclose
      rcases h₁.dup hpr₁ hdup with ⟨-, -, hfull⟩ | ⟨i, j, rfl, hnew, rfl, hidle, h'⟩
      · exact absurd (update_self ..) (hfull n hn.ge)
      · rw [Files.put_put] at h'
        exact ⟨_, label, .dup2 (h.table hpr) (.inr ⟨n, hn, seen_setFd ..⟩) hidle hnew, h'⟩
  | pipe areaOk =>
    obtain ⟨pr, hpr, ⟨rfl, hres⟩ | ⟨i, fcb₁, no₁, hi, halloc₁, hcases⟩⟩ := sysPipe_cases hexec
    · exact hfail hres h
    obtain ⟨hc₁, hr₁, -⟩ := FcbOk.alloc hc halloc₁
    rcases hcases with ⟨fcb₂, -, hres, rfl⟩ | ⟨j, fcb₂, no₂, k₁, hj, halloc₂, rfl, rfl, hend⟩
    · -- no second entry: the first descriptor is set back
      refine hfail hres (h.same hpr ?_)
      show update (update pr.fdtable i (some no₁)) i none = pr.fdtable
      rw [update_idem, ← hi, update_eq_self]
    · obtain ⟨-, hr₂, hno₂⟩ := FcbOk.alloc hc₁ halloc₂
      have h₁ := h.openAt (i := i) hpr (not_names hr₁)
      have hpr₁ := update_self p (some (pr.setFd i (some no₁))) k.procs
      have h₂ := h₁.openAt (i := j) hpr₁ fun hnames => by
        rcases Names.of_setFd hpr hnames with heq | hold
        · exact hno₂ (List.mem_singleton.mpr (some.inj heq).symm)
        · exact not_names hr₂ hold
      rw [update_idem] at h₂
      have hU := (h₁.table hpr₁).symm.trans (update_self ..)
      have hprocs : k'.procs = update k.procs p
          (some ((pr.setFd i (some no₁)).setFd j (some no₂))) := by
        split at hend
        · obtain ⟨ip, t, f₁, f₂, rfl, -⟩ := pipeFill_cases hend
          rfl
        · rw [hend]
          rfl
      rw [hprocs]
      exact ⟨_, _, .pipe (h.table hpr) (seen_none.mpr hi) (some.inj hU)
        (seen_none.mpr hj), h₂⟩
  | fork child =>
    obtain ⟨pr, hpr, ⟨rfl, hres⟩ | ⟨c, t, fcb, rfl, hfree, -, -, rfl, rfl⟩⟩ := doFork_cases hexec
    · exact hfail hres h
    · refine ⟨_, label, .fork (c := c) (h.table hpr) ?_, h.put (p := c) (some pr) fun a ha => ?_⟩
      · rw [h.tables c, hfree]
        rfl
      · rcases ha.of_update with ⟨_, i, ⟨⟩, hi⟩ | hold
        · exact ⟨p, pr, i, hpr, hi⟩
        · exact hold
  | execve path =>
    obtain ⟨pr, t, hpr, ⟨rfl, -⟩ | ⟨env, ip, -, ⟨-, -, rfl, -⟩ | ⟨rfl, -⟩⟩⟩ := doExecve_cases hexec
    · exact hapart trivial h
    · exact hapart trivial h
    · exact hapart trivial (h.same hpr rfl)
  | exit =>
    obtain rfl := doExit_res hexec
    obtain ⟨pr, t₁, t₂, fcb, hpr, -, -, rfl⟩ := doExit_cases hexec
    refine ⟨_, label, .exit, h.put (p := p) none fun a ha => ?_⟩
    rcases ha.of_update with ⟨_, _, ⟨⟩, -⟩ | hold
    exact hold

/-! ## Runs -/

/-- The call does not use an index behind the descriptors: `sys_dup2` does not check the first of
    its two, and what it reads there is not known. -/
def InTable (_ : Kernel) (i : Pid × Call) : Prop :=
  match i.2 with
  | .dup2 oldfd _ => oldfd < NFD
  | _ => True

/-- A step of the kernel with what it does to the open files, which it shows afterwards. -/
def Both (a : Kernel × Files) (i : Pid × Call) (b : Kernel × Files) : Prop :=
  ∃ res, exec a.1 i.1 i.2 = some (b.1, res) ∧ Does a.2 i.1 i.2 res b.2 ∧
    ∃ label, Shows b.1.procs b.2 label

theorem shows_started (h0 : Booted k) : Shows k.procs started fun _ => 0 := by
  obtain ⟨t, root, -, hprocs⟩ := h0.init
  have hnames : ∀ a, ¬ Names k.procs a := by
    intro a ha
    rw [hprocs] at ha
    rcases ha.of_update with ⟨_, i, ⟨⟩, hi⟩ | ⟨p, pr, i, hp, -⟩
    · cases hi
    · cases hp
  refine ⟨fun p => ?_, fun a _ ha => absurd ha (hnames a), fun a ha => absurd ha (hnames a)⟩
  rw [hprocs]
  show update (fun _ => none) 1 (some fun _ => none) p = _
  by_cases hp : p = 1
  · rw [hp, update_self, update_self]
    rfl
  · rw [update_of_ne hp, update_of_ne hp]
    rfl

/-- Whatever processes call in whatever order, the kernel goes on like the open files: in every
    state two descriptors name the same entry exactly if their open file is the same. -/
theorem open_files (h0 : Booted k) (hr : Reaches Step InTable k k') :
    ∃ s label, Reaches Both anyInput (k, started) (k', s) ∧ Shows k'.procs s label := by
  have hinv : ∃ s label dead, Reaches Both anyInput (k, started) (k', s) ∧
      Shows k'.procs s label ∧ Counted k' dead := by
    induction hr with
    | refl => exact ⟨_, _, _, .refl, shows_started h0, h0.counted⟩
    | tail _ hlast ih =>
      obtain ⟨s, label, dead, hrun, h, hc⟩ := ih
      obtain ⟨⟨p, call⟩, -, hs⟩ := hlast
      obtain ⟨dead', hc', -⟩ := counted_step hc hs
      obtain ⟨res, hexec⟩ := hs
      obtain ⟨s', label', hdoes, h'⟩ := h.step hc hexec
      have hboth : Both (_, s) (p, call) (_, s') := ⟨res, hexec, hdoes, label', h'⟩
      exact ⟨s', label', dead', hrun.snoc trivial hboth, h', hc'⟩
  obtain ⟨s, label, dead, hrun, h, -⟩ := hinv
  exact ⟨s, label, hrun, h⟩

/-- A pipe whose reading end is copied and inherited, and moves; then a file takes the descriptor
    that has become idle. -/
def movedPipe : List (Pid × Call) :=
  sharePipe ++ [(1, .close 0), (2, .openPath (some ⟨⟨true, [some 5]⟩, ⟨⟨true, []⟩, none, none,
    ⟨none, true⟩, ⟨none, true⟩, ⟨none, true⟩⟩⟩) 0 0)]

set_option maxRecDepth 10000 in
/-- A run of five calls, after which descriptor 5 of the parent and 0 of the child are one open
    file, and the descriptor 2 that the child has opened is another. -/
theorem open_files_moved : ∃ k k' s label pr pr', Booted k ∧
    Reaches Both anyInput (k, started) (k', s) ∧ Shows k'.procs s label ∧
    (k'.procs 1 = some pr ∧ pr.fdtable 0 = none ∧ pr.fdtable 5 = some 0) ∧
    (k'.procs 2 = some pr' ∧ pr'.fdtable 0 = some 0 ∧ pr'.fdtable 2 = some 2) ∧
    seen label pr 5 = seen label pr' 0 ∧ seen label pr' 2 ≠ seen label pr' 0 := by
  have hrun : Leads (tested pipeAdmitted afterCall) bootKernel movedPipe fun k' =>
      (∃ pr ∈ k'.procs 1, pr.fdtable 0 = none ∧ pr.fdtable 5 = some 0) ∧
        ∃ pr' ∈ k'.procs 2, pr'.fdtable 0 = some 0 ∧ pr'.fdtable 2 = some 2 := by
    decide +kernel
  have htest : ∀ k i, pipeAdmitted k i = true → InTable k i := by
    rintro k ⟨p, call⟩ hpass
    cases call with
    | dup2 oldfd newfd =>
      show oldfd < NFD
      exact of_decide_eq_true hpass
    | _ => trivial
  obtain ⟨k', hreach, ⟨pr, hpr, h0, h5⟩, pr', hpr', h0', h2'⟩ :=
    hrun.reaches Step _ (tested_step htest afterCall_step)
  obtain ⟨s, label, hboth, hshows⟩ := open_files bootKernel_booted hreach
  refine ⟨bootKernel, k', s, label, pr, pr', bootKernel_booted, hboth, hshows, ⟨hpr, h0, h5⟩,
    ⟨hpr', h0', h2'⟩, ?_, ?_⟩
  · show (pr.fdtable 5).map label = (pr'.fdtable 0).map label
    rw [h5, h0']
  · intro hsame
    have hlabel : (pr'.fdtable 2).map label = (pr'.fdtable 0).map label := hsame
    rw [h2', h0'] at hlabel
    have heq : (2 : FcbNo) = 0 :=
      hshows.once 2 0 ⟨2, pr', 2, hpr', h2'⟩ ⟨2, pr', 0, hpr', h0'⟩ (some.inj hlabel)
    exact absurd heq (by decide)

end Uniks.OpenFiles
