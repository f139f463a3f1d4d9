/-
  `runcmd` and `main` of `user/src/ksh.c`: the processes that carry out a command, their
  descriptors and what they wait for.

  A process of the shell is the list of the calls it has left (`Act`).  `runcmd` never returns, so
  what stands behind a call of it is never reached, and a list ends there.  The processes run side
  by side, one call at a time and in any order (`Step`); `fork`, `pipe`, `open` and `execve` may
  fail, a program does with its descriptors what it likes, and everybody may be killed.  On a line
  with a word that does not fit its buffer (`Line.Fits`) the parser writes past it, and what comes
  of that may be anything.

  What a command line means is said apart from the processes, by recursion over the tree
  (`wiring`): which programs it starts, and with what behind the descriptors of each.
-/
import Uniks.ShellExact
import Uniks.Sysfile
import Uniks.Lib.Runs
import Mathlib.Algebra.Order.Group.Multiset
import Mathlib.Algebra.BigOperators.Group.Finset.Basic

namespace Uniks.ShellRun

open Uniks.Shell Uniks.Runs
open Uniks.Sysfile (NFD NPROC Fd Pid)

/-! ## Descriptors -/

/-- The descriptors of a process, over whatever stands for an open file. -/
abbrev Fds (α : Type) := Fd → Option α

section Fds

variable {α : Type}

def get (t : Fds α) (fd : Nat) : Option α := if h : fd < NFD then t ⟨fd, h⟩ else none

def put (t : Fds α) (fd : Nat) (v : Option α) : Fds α := fun i => if i.val = fd then v else t i

/-- The first idle descriptor. -/
def idle (t : Fds α) : Option Fd := (List.finRange NFD).find? fun fd => (t fd).isNone

def install (t : Fds α) (f : α) : Option (Fd × Fds α) :=
  (idle t).map fun i => (i, put t i (some f))

/-- The call `pipe(p)`: `p[0]` and `p[1]`, and the table with them. -/
def pipeFds (t : Fds α) (r w : α) : Option (Fd × Fd × Fds α) := do
  let (i, t) ← install t r
  let (j, t) ← install t w
  return (i, j, t)

/-- The calls on descriptors whose result `runcmd` does not look at. -/
inductive FdCall where
  | close (fd : Nat)
  | dup (fd : Nat)
  deriving DecidableEq, Repr

def FdCall.run (t : Fds α) : FdCall → Fds α
  | .close fd => put t fd none
  | .dup fd =>
    match get t fd, idle t with
    | some f, some i => put t i (some f)
    | _, _ => t

end Fds

/-! ## The tree and the open files -/

/-- The steps from a command to one inside it.  A session is like a `listcmd`: its first line, and
    then the rest. -/
inductive Branch where
  | redir
  | left
  | right
  | first
  | second
  | back
  deriving DecidableEq, Repr

/-- A place in a session, from the top. -/
abbrev Site := List Branch

/-- An open file: one the shell was started with, the file of a `redircmd`, an end of the pipe of a
    `pipecmd`, or one that a program has opened. -/
inductive File where
  | given (fd : Nat)
  | named (site : Site) (file : Word) (mode : Nat)
  | pipe (site : Site) (write : Bool)
  | own (n : Nat)
  deriving DecidableEq, Repr

/-- The side of a `pipecmd` that an end of its pipe is for. -/
def side (write : Bool) : Branch := if write then .left else .right

/-- A program is started: the `execcmd` it is from, its arguments, and its descriptors. -/
structure Start where
  site : Site
  argv : List Word
  fds : Fds File

/-- What a command is for: the programs it starts, when it is run at a place of the session with a
    table of descriptors. -/
def wiring (site : Site) : Cmd → Fds File → Multiset Start
  | .exec [], _ => 0
  | .exec argv, t => {⟨site, argv, t⟩}
  | .redir cmd file mode fd, t =>
    wiring (site ++ [.redir]) cmd (put t fd (some (.named site file mode)))
  | .pipe left right, t =>
    wiring (site ++ [.left]) left (put t 1 (some (.pipe site true))) +
      wiring (site ++ [.right]) right (put t 0 (some (.pipe site false)))
  | .list left right, t =>
    wiring (site ++ [.first]) left t + wiring (site ++ [.second]) right t
  | .back cmd, t => wiring (site ++ [.back]) cmd t

/-- A line that `getcmd` has trimmed. -/
structure Line where
  text : Text

def Line.cmd (l : Line) : Option Cmd := (parsecmd (enough .line l.text) l.text).toOption

/-- The parser does not write past one of its buffers. -/
def Line.Fits (l : Line) : Prop := parsecmd (enough .line l.text) l.text ≠ .error .overrun

instance (l : Line) : Decidable l.Fits :=
  inferInstanceAs (Decidable (parsecmd (enough .line l.text) l.text ≠ .error .overrun))

/-- The lines that `main` carries out itself, and goes on: `cd` and `clear`, and an empty one. -/
def Line.inside (l : Line) : Bool :=
  l.text.isEmpty || l.text == ['c', 'd'] || ['c', 'd', ' '].isPrefixOf l.text ||
    ['c', 'l', 'e', 'a', 'r'].isPrefixOf l.text

def Line.isExit (l : Line) : Bool := ['e', 'x', 'i', 't'].isPrefixOf l.text

/-- What a session is for: the programs of its lines, up to an `exit`. -/
def session (site : Site) : List Line → Fds File → Multiset Start
  | [], _ => 0
  | l :: ls, t =>
    if l.inside then session (site ++ [.second]) ls t
    else if l.isExit then 0
    else (l.cmd.elim 0 fun cmd => wiring (site ++ [.first]) cmd t) +
      session (site ++ [.second]) ls t

/-! ## The code of the shell -/

/-- A call that a process of the shell has left.  `fork` is `if (fork1() == 0)` with what the child
    does, which ends in `runcmd`, for no command (`NULL`, or a line that does not parse) in
    `_exit(-1)`.  `getcmd` is a turn of the loop of `main`, with the lines still to come. -/
inductive Act where
  | getcmd (site : Site) (lines : List Line)
  | fd (call : FdCall)
  | openFile (site : Site) (file : Word) (mode : Nat)
  | pipe (site : Site) (left right : Cmd)
  | fork (calls : List FdCall) (site : Site) (cmd : Option Cmd)
  | wait
  | run (site : Site) (cmd : Cmd)
  | exec (site : Site) (argv : List Word)
  | exit

def childActs (calls : List FdCall) (site : Site) : Option Cmd → List Act
  | none => calls.map .fd ++ [.exit]
  | some cmd => calls.map .fd ++ [.run site cmd]

def runcmd (site : Site) : Cmd → List Act
  | .exec [] => [.exit]
  | .exec argv => [.exec site argv, .exit]
  | .redir cmd file mode fd =>
    [.fd (.close fd), .openFile site file mode, .run (site ++ [.redir]) cmd]
  | .list left right =>
    [.fork [] (site ++ [.first]) (some left), .wait, .run (site ++ [.second]) right]
  | .pipe left right => [.pipe site left right]
  | .back cmd => [.fork [] (site ++ [.back]) (some cmd), .exit]

/-- The `case PIPE` of `runcmd` behind `pipe(p)`. -/
def pipeActs (site : Site) (left right : Cmd) (p0 p1 : Nat) : List Act :=
  [.fork [.close 1, .dup p1, .close p0, .close p1] (site ++ [.left]) (some left),
    .fork [.close 0, .dup p0, .close p0, .close p1] (site ++ [.right]) (some right),
    .fd (.close p0), .fd (.close p1), .wait, .wait, .exit]

/-- What `main` does with the next line. -/
def mainActs (site : Site) : List Line → List Act
  | [] => [.exit]
  | l :: ls =>
    if l.inside then [.getcmd (site ++ [.second]) ls]
    else if l.isExit then [.exit]
    else [.fork [] (site ++ [.first]) l.cmd, .wait, .getcmd (site ++ [.second]) ls]

/-- The names `execve` is tried with; `env` is the text of `PATH` with its `/`. -/
def tries (env : Option Text) (argv : List Word) : List Text :=
  match argv with
  | [] => []
  | w :: _ =>
    match w.text.head? with
    | some '.' | some '/' => [w.text]
    | _ => w.text :: (env.map (· ++ w.text)).toList

/-! ## Processes -/

/-- What a process runs: calls of the shell, a program that the shell has started, or one that a
    program has forked; or it has exited. -/
inductive Code where
  | shell (acts : List Act)
  | program
  | offspring
  | zombie

/-- A process, with the command it was forked for and the one it is at. -/
structure Process where
  parent : Option Pid
  origin : Site
  site : Site
  fds : Fds File
  code : Code

/-- The processes, and the programs that have been started, the last one first. -/
structure Sys where
  procs : Pid → Option Process
  log : List Start

def Sys.set (s : Sys) (p : Pid) (P : Process) : Sys :=
  { s with procs := Function.update s.procs p (some P) }

def Sys.remove (s : Sys) (p : Pid) : Sys := { s with procs := Function.update s.procs p none }

def Process.orphan (p : Pid) (P : Process) : Process :=
  if P.parent = some p then { P with parent := none } else P

/-- The children go to the init process, which is not part of the model (`none`). -/
def Sys.reparent (s : Sys) (p : Pid) : Sys :=
  { s with procs := fun q => (s.procs q).map (Process.orphan p) }

def Sys.exit (s : Sys) (p : Pid) (P : Process) : Sys :=
  (s.reparent p).set p { P with fds := fun _ => none, code := .zombie }

section Sys

variable (s : Sys) (p : Pid) (P : Process) {q : Pid}

@[simp] theorem Sys.set_self : (s.set p P).procs p = some P := Function.update_self ..
@[simp] theorem Sys.remove_self : (s.remove p).procs p = none := Function.update_self ..

@[simp] theorem Sys.exit_self :
    (s.exit p P).procs p = some { P with fds := fun _ => none, code := .zombie } :=
  Sys.set_self ..

theorem Sys.set_off (h : q ≠ p) : (s.set p P).procs q = s.procs q := Function.update_of_ne h ..
theorem Sys.remove_off (h : q ≠ p) : (s.remove p).procs q = s.procs q := Function.update_of_ne h ..

theorem Sys.exit_off (h : q ≠ p) : (s.exit p P).procs q = (s.procs q).map (Process.orphan p) :=
  Sys.set_off _ _ _ h

end Sys

/-- The calls that end the process when they fail. -/
def Act.mayPanic : Act → Bool
  | .openFile .. | .pipe .. | .fork .. => true
  | _ => false

inductive Event where
  | act (p : Pid)
  | fail (p : Pid)
  | exec (p : Pid) (path : Text)
  | fork (p c : Pid)
  | reap (p c : Pid)
  | exit (p : Pid)
  | kill (p : Pid)
  | table (p : Pid)
  | adopt (c : Pid)

/-- One call of one process. -/
inductive Step (env : Option Text) (s : Sys) : Event → Sys → Prop
  | getcmd {p P site lines acts} (hp : s.procs p = some P)
      (hcode : P.code = .shell (.getcmd site lines :: acts)) :
      Step env s (.act p) (s.set p { P with site := site, code := .shell (mainActs site lines) })
  -- nothing is known of who has written past a buffer
  | overrun {p P site l ls acts s'} (hp : s.procs p = some P)
      (hcode : P.code = .shell (.getcmd site (l :: ls) :: acts)) (hover : ¬ l.Fits) :
      Step env s (.act p) s'
  | fd {p P call acts} (hp : s.procs p = some P) (hcode : P.code = .shell (.fd call :: acts)) :
      Step env s (.act p) (s.set p { P with fds := call.run P.fds, code := .shell acts })
  | openFile {p P site file mode acts i t} (hp : s.procs p = some P)
      (hcode : P.code = .shell (.openFile site file mode :: acts))
      (hopen : install P.fds (.named site file mode) = some (i, t)) :
      Step env s (.act p) (s.set p { P with fds := t, code := .shell acts })
  | pipe {p P site left right acts i j t} (hp : s.procs p = some P)
      (hcode : P.code = .shell (.pipe site left right :: acts))
      (hpipe : pipeFds P.fds (.pipe site false) (.pipe site true) = some (i, j, t)) :
      Step env s (.act p)
        (s.set p { P with fds := t, code := .shell (pipeActs site left right i j) })
  | run {p P site cmd acts} (hp : s.procs p = some P)
      (hcode : P.code = .shell (.run site cmd :: acts)) :
      Step env s (.act p) (s.set p { P with site := site, code := .shell (runcmd site cmd) })
  | fork {p P c calls site cmd acts} (hp : s.procs p = some P)
      (hcode : P.code = .shell (.fork calls site cmd :: acts)) (hc : s.procs c = none) :
      Step env s (.fork p c) ((s.set p { P with code := .shell acts }).set c
        ⟨some p, site, site, P.fds, .shell (childActs calls site cmd)⟩)
  | panic {p P a acts} (hp : s.procs p = some P) (hcode : P.code = .shell (a :: acts))
      (ha : a.mayPanic) : Step env s (.fail p) (s.exit p P)
  | exec {p P site argv acts path} (hp : s.procs p = some P)
      (hcode : P.code = .shell (.exec site argv :: acts)) (hpath : path ∈ tries env argv) :
      Step env s (.exec p path)
        { s.set p { P with code := .program } with log := ⟨site, argv, P.fds⟩ :: s.log }
  | execFail {p P site argv acts} (hp : s.procs p = some P)
      (hcode : P.code = .shell (.exec site argv :: acts)) :
      Step env s (.fail p) (s.set p { P with code := .shell acts })
  | wait {p P c C acts} (hp : s.procs p = some P) (hcode : P.code = .shell (.wait :: acts))
      (hc : s.procs c = some C) (hchild : C.parent = some p) (hdead : C.code = .zombie) :
      Step env s (.reap p c) ((s.set p { P with code := .shell acts }).remove c)
  | waitNone {p P acts} (hp : s.procs p = some P) (hcode : P.code = .shell (.wait :: acts))
      (hno : ∀ c C, s.procs c = some C → C.parent ≠ some p) :
      Step env s (.act p) (s.set p { P with code := .shell acts })
  | exit {p P acts} (hp : s.procs p = some P) (hcode : P.code = .shell (.exit :: acts)) :
      Step env s (.exit p) (s.exit p P)
  | table {p P t} (hp : s.procs p = some P) (hcode : P.code = .program ∨ P.code = .offspring)
      (ht : ∀ i f, t i = some f → (∃ j, P.fds j = some f) ∨ ∃ n, f = .own n) :
      Step env s (.table p) (s.set p { P with fds := t })
  | progFork {p P c} (hp : s.procs p = some P) (hcode : P.code = .program ∨ P.code = .offspring)
      (hc : s.procs c = none) :
      Step env s (.fork p c) (s.set c ⟨some p, P.origin, P.site, P.fds, .offspring⟩)
  | progReap {p P c C} (hp : s.procs p = some P) (hcode : P.code = .program ∨ P.code = .offspring)
      (hc : s.procs c = some C) (hchild : C.parent = some p) (hdead : C.code = .zombie) :
      Step env s (.reap p c) (s.remove c)
  | progExit {p P} (hp : s.procs p = some P) (hcode : P.code = .program ∨ P.code = .offspring) :
      Step env s (.exit p) (s.exit p P)
  | kill {p P} (hp : s.procs p = some P) (hlive : P.code ≠ .zombie) :
      Step env s (.kill p) (s.exit p P)
  | adopt {c C} (hc : s.procs c = some C) (horphan : C.parent = none) (hdead : C.code = .zombie) :
      Step env s (.adopt c) (s.remove c)

/-- The descriptors that the shell is started with. -/
def givenFds : Fds File := fun i => if i.val < 3 then some (.given i) else none

/-- The shell begins: it is the second child of the init process. -/
def boot (lines : List Line) : Sys :=
  Sys.set ⟨fun _ => none, []⟩ 2 ⟨none, [], [], givenFds, .shell [.getcmd [] lines]⟩

end Uniks.ShellRun
