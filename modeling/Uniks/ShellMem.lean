/-
  The parser of the shell on memory: the words of a tree are pointers, into `cmdbuf` or into a
  buffer that `handle_quotmark` has allocated, and `nulterminate` writes the zeros behind them.

  While it is parsed the line does not change, so a cursor is the text that is left of it, as in
  `Uniks.Shell`, and its position is the length of the line less that of the text.  `start` is where
  in `cmdbuf` the line begins.  Nobody else has a pointer to a buffer of `handle_quotmark`: the tree
  holds the buffer itself.  `fresh` is what `malloc` leaves in it, which may differ from word to
  word.  `overrun` is a byte written behind `cmdbuf` or behind such a buffer.
-/
import Uniks.Shell
import Mathlib.Logic.Function.Basic

namespace Uniks.ShellMem

open Uniks.Shell (Text Parse Stop MAXARGS MAXARGLEN O_RDONLY O_WRONLY O_CREAT O_TRUNC O_APPEND
  quotmark skip scan peek)

abbrev LINE_MAX : Nat := 1000

/-- The bytes of an object in memory. -/
abbrev Chars := Nat → Char

/-- `argv[i]` and `eargv[i]`, or `file` and `efile`. -/
inductive Str where
  | line (q eq : Nat)
  | buf (bytes : Chars) (n : Nat)

/-- The source's `struct cmd` and the five that begin like it. -/
inductive Cmd where
  | exec (argv : List Str)
  | redir (cmd : Cmd) (file : Str) (mode fd : Nat)
  | pipe (left right : Cmd)
  | list (left right : Cmd)
  | back (cmd : Cmd)

/-- `ret`, `*q`, `*eq` and `*ps`. -/
def gettoken (s : Text) : Parse (Char × Text × Text × Text) :=
  match skip s with
  | [] => .ok ('\x00', [], [], [])
  | c :: s =>
    if c ∈ ['|', '(', ')', ';', '&', '<'] then .ok (c, c :: s, s, skip s)
    else if c = '>' then
      if s.head? = some '>' then .ok ('+', c :: s, s.tail, skip s.tail)
      else .ok ('>', c :: s, s, skip s)
    else
      let r := scan false 'a' (c :: s)
      if r.isOpen then .error (.panic "syntax error - missing '\x22'")
      else .ok (r.ret, c :: s, r.rest, skip r.rest)

/-- The loop of `handle_quotmark`, from `*q` to `*eq`. -/
def copyLoop : Text → Chars → Nat → Parse Str
  | [], buf, n => .ok (.buf buf n)
  | c :: q, buf, n =>
    if c = quotmark then copyLoop q buf n
    -- The source does not look whether there is room.
    else if n < MAXARGLEN then copyLoop q (Function.update buf n c) (n + 1)
    else .error .overrun

section Parsing

variable (fresh : Text → Chars) (len : Nat)

/-- The source's `handle_quotmark`. -/
def handleQuotmark (q eq : Text) : Parse Str :=
  copyLoop (q.take (q.length - eq.length)) (fresh q) 0

/-- What `parseredirs` and `parseexec` do with a token that has to be a word. -/
def wordOf (msg : String) (tok : Char) (q eq : Text) : Parse Str :=
  if tok ≠ 'a' ∧ tok ≠ 'b' then .error (.panic msg)
  else if tok = 'b' then handleQuotmark fresh q eq
  else .ok (.line (len - q.length) (len - eq.length))

/-- The `switch (tok1)` of `parseredirs`. -/
def redirect (tok : Char) (cmd : Cmd) (w : Str) : Cmd :=
  if tok = '<' then .redir cmd w O_RDONLY 0
  else if tok = '>' then .redir cmd w (O_WRONLY ||| O_CREAT ||| O_TRUNC) 1
  else if tok = '+' then .redir cmd w (O_WRONLY ||| O_CREAT ||| O_APPEND) 1
  else cmd

/-- `cmd->argv[argc] = q`, where `cmd` is the `execcmd` at the bottom of `ret`. -/
def pushArg : Cmd → Str → Cmd
  | .exec argv, w => .exec (argv ++ [w])
  | .redir cmd file mode fd, w => .redir (pushArg cmd w) file mode fd
  | cmd, _ => cmd

def parseredirs : Nat → Cmd → Text → Parse (Cmd × Text)
  | 0, _, _ => .error .fuel
  | n + 1, cmd, s =>
    if peek s ['<', '>'] then do
      let (tok1, _, _, s) ← gettoken (skip s)
      let (tok2, q, eq, s) ← gettoken s
      let w ← wordOf fresh len "missing file for redirection" tok2 q eq
      parseredirs n (redirect tok1 cmd w) s
    else .ok (cmd, skip s)

/-- The `while` loop of `parseexec`. -/
def parseargs : Nat → Nat → Cmd → Text → Parse (Cmd × Text)
  | 0, _, _, _ => .error .fuel
  | n + 1, argc, ret, s =>
    if peek s ['|', ')', '&', ';'] then .ok (ret, skip s)
    else do
      let (tok, q, eq, s) ← gettoken (skip s)
      if tok = '\x00' then .ok (ret, s)
      else
        let w ← wordOf fresh len "syntax error" tok q eq
        if argc + 1 ≥ MAXARGS then .error (.panic "too many args")
        else
          let (ret, s) ← parseredirs fresh len n (pushArg ret w) s
          parseargs n (argc + 1) ret s

/-- The `while` loop of `parseline`. -/
def parsebacks : Nat → Cmd → Text → Parse (Cmd × Text)
  | 0, _, _ => .error .fuel
  | n + 1, cmd, s =>
    if peek s ['&'] then do
      let (_, _, _, s) ← gettoken (skip s)
      parsebacks n (.back cmd) s
    else .ok (cmd, skip s)

mutual

def parseline : Nat → Text → Parse (Cmd × Text)
  | 0, _ => .error .fuel
  | n + 1, s => do
    let (cmd, s) ← parsepipe n s
    let (cmd, s) ← parsebacks n cmd s
    if peek s [';'] then
      let (_, _, _, s) ← gettoken (skip s)
      let (right, s) ← parseline n s
      .ok (.list cmd right, s)
    else .ok (cmd, skip s)

def parsepipe : Nat → Text → Parse (Cmd × Text)
  | 0, _ => .error .fuel
  | n + 1, s => do
    let (cmd, s) ← parseexec n s
    if peek s ['|'] then
      let (_, _, _, s) ← gettoken (skip s)
      let (right, s) ← parsepipe n s
      .ok (.pipe cmd right, s)
    else .ok (cmd, skip s)

def parseexec : Nat → Text → Parse (Cmd × Text)
  | 0, _ => .error .fuel
  | n + 1, s =>
    if peek s ['('] then parseblock n (skip s)
    else do
      let (ret, s) ← parseredirs fresh len n (.exec []) (skip s)
      parseargs fresh len n 0 ret s

def parseblock : Nat → Text → Parse (Cmd × Text)
  | 0, _ => .error .fuel
  | n + 1, s =>
    if ¬ peek s ['('] then .error (.panic "parseblock")
    else do
      let (_, _, _, s) ← gettoken (skip s)
      let (cmd, s) ← parseline n s
      if ¬ peek s [')'] then .error (.panic "syntax error - missing ')'")
      else
        let (_, _, _, s) ← gettoken (skip s)
        parseredirs fresh len n cmd s

end

end Parsing

/-! ## The zeros behind the words -/

section Ending

variable (start : Nat)

/-- `*eargv[i] = 0` or `*efile = 0`. -/
def endStr (cmdbuf : Chars) : Str → Parse (Chars × Str)
  | .line q eq =>
    -- What ended the word is written over, at the end of the line its own zero.
    if start + eq < LINE_MAX then .ok (Function.update cmdbuf (start + eq) '\x00', .line q eq)
    else .error .overrun
  | .buf bytes n =>
    if n < MAXARGLEN then .ok (cmdbuf, .buf (Function.update bytes n '\x00') n)
    else .error .overrun

/-- The loop over `argv`. -/
def endStrs : Chars → List Str → Parse (Chars × List Str)
  | cmdbuf, [] => .ok (cmdbuf, [])
  | cmdbuf, w :: ws => do
    let (cmdbuf, w) ← endStr start cmdbuf w
    let (cmdbuf, ws) ← endStrs cmdbuf ws
    .ok (cmdbuf, w :: ws)

def nulterminate : Chars → Cmd → Parse (Chars × Cmd)
  | cmdbuf, .exec argv => do
    let (cmdbuf, argv) ← endStrs start cmdbuf argv
    .ok (cmdbuf, .exec argv)
  | cmdbuf, .redir cmd file mode fd => do
    let (cmdbuf, cmd) ← nulterminate cmdbuf cmd
    let (cmdbuf, file) ← endStr start cmdbuf file
    .ok (cmdbuf, .redir cmd file mode fd)
  | cmdbuf, .pipe left right => do
    let (cmdbuf, left) ← nulterminate cmdbuf left
    let (cmdbuf, right) ← nulterminate cmdbuf right
    .ok (cmdbuf, .pipe left right)
  | cmdbuf, .list left right => do
    let (cmdbuf, left) ← nulterminate cmdbuf left
    let (cmdbuf, right) ← nulterminate cmdbuf right
    .ok (cmdbuf, .list left right)
  | cmdbuf, .back cmd => do
    let (cmdbuf, cmd) ← nulterminate cmdbuf cmd
    .ok (cmdbuf, .back cmd)

end Ending

/-- The source's `parsecmd`, on the line `s` at `start`: `cmdbuf` afterwards, and the tree. -/
def parsecmd (fresh : Text → Chars) (n start : Nat) (cmdbuf : Chars) (s : Text) :
    Parse (Chars × Cmd) := do
  let (cmd, s') ← parseline fresh s.length n s
  if skip s' ≠ [] then .error (.panic "syntax error")
  else nulterminate start cmdbuf cmd

end Uniks.ShellMem
