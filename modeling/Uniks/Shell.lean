/-
  The parser of the shell: `gettoken`, `peek`, the `parse...` routines and `nulterminate`.

  A text is what lies between the cursor `*ps` and the zero that ends the line, so that `s < es` is
  "the text is not empty", and a cursor that has been moved is the text that is left.  A word is
  known by its characters and by where they are: in the line, or, if it had quotation marks, in a
  buffer that `handle_quotmark` has allocated.  A tree holds the words instead of pointers to them;
  the words of `execcmd` are added to it below the redirections that have been put around it.

  `panic` ends the process with its message.  `overrun` is a byte written behind the end of a
  buffer; nothing is said of what happens then.  The routines are given the number of calls that
  they may nest, and stop with `fuel` where that is not enough.  `malloc` finds memory.
-/
import Uniks.Lib.Hoare

namespace Uniks.Shell

abbrev MAXARGS : Nat := 64
abbrev MAXARGLEN : Nat := 64

abbrev O_RDONLY : Nat := 0
abbrev O_WRONLY : Nat := 1
abbrev O_CREAT : Nat := 0x40
abbrev O_TRUNC : Nat := 0x200
abbrev O_APPEND : Nat := 0x400

abbrev Text := List Char

abbrev quotmark : Char := '\x22'

def whitespace : Text := [' ', '\t', '\r', '\n', '\x0b']

def symbols : Text := ['<', '|', '>', '&', ';', '(', ')']

/-- How a run ends that returns no tree. -/
inductive Stop where
  | panic (msg : String)
  | overrun
  | fuel
  deriving DecidableEq, Repr

abbrev Parse := Except Stop

structure Word where
  text : Text
  /-- The word is in a buffer of its own, not in the line. -/
  inBuf : Bool
  deriving DecidableEq, Repr

/-- The source's `struct cmd` and the five that begin like it. -/
inductive Cmd where
  | exec (argv : List Word)
  | redir (cmd : Cmd) (file : Word) (mode fd : Nat)
  | pipe (left right : Cmd)
  | list (left right : Cmd)
  | back (cmd : Cmd)
  deriving DecidableEq, Repr

/-- `while (s < es and strchr(whitespace, *s)) s++;` -/
def skip (s : Text) : Text := s.dropWhile (whitespace.contains ·)

/-- What the loop of `gettoken` over a word leaves: `ret`, the word, the text behind it and
`state == 1`. -/
structure Scan where
  ret : Char
  word : Text
  rest : Text
  isOpen : Bool

def Scan.push (c : Char) (r : Scan) : Scan := { r with word := c :: r.word }

def scan : Bool → Char → Text → Scan
  | state, ret, [] => ⟨ret, [], [], state⟩
  | false, ret, c :: s =>
    if c ∈ whitespace ∨ c ∈ symbols then ⟨ret, [], c :: s, false⟩
    else (scan (c = quotmark) ret s).push c
  | true, _, c :: s => (scan (c ≠ quotmark) 'b' s).push c

/-- `ret`, the text from `*q` to `*eq`, and the text that is left. -/
def gettoken (s : Text) : Parse (Char × Text × Text) :=
  match skip s with
  | [] => .ok ('\x00', [], [])
  | c :: s =>
    if c ∈ ['|', '(', ')', ';', '&', '<'] then .ok (c, [c], skip s)
    else if c = '>' then
      if s.head? = some '>' then .ok ('+', ['>', '>'], skip s.tail) else .ok ('>', ['>'], skip s)
    else
      let r := scan false 'a' (c :: s)
      if r.isOpen then .error (.panic "syntax error - missing '\x22'")
      else .ok (r.ret, r.word, skip r.rest)

/-- What `peek` returns; the cursor it leaves is `skip s`. -/
def peek (s : Text) (toks : Text) : Bool :=
  match skip s with
  | [] => false
  | c :: _ => toks.contains c

def unquote (q : Text) : Text := q.filter (· ≠ quotmark)

/-- The loop writes as many bytes as the word has besides its quotation marks. -/
def handleQuotmark (q : Text) : Parse Word :=
  if MAXARGLEN < (unquote q).length then .error .overrun else .ok ⟨unquote q, true⟩

/-- What `parseredirs` and `parseexec` do with a token that has to be a word. -/
def wordOf (msg : String) (tok : Char) (q : Text) : Parse Word :=
  if tok ≠ 'a' ∧ tok ≠ 'b' then .error (.panic msg)
  else if tok = 'b' then handleQuotmark q
  else .ok ⟨q, false⟩

/-- The `switch (tok1)` of `parseredirs`. -/
def redirect (tok : Char) (cmd : Cmd) (w : Word) : Cmd :=
  if tok = '<' then .redir cmd w O_RDONLY 0
  else if tok = '>' then .redir cmd w (O_WRONLY ||| O_CREAT ||| O_TRUNC) 1
  else if tok = '+' then .redir cmd w (O_WRONLY ||| O_CREAT ||| O_APPEND) 1
  else cmd

/-- `cmd->argv[argc] = q`, where `cmd` is the `execcmd` at the bottom of `ret`. -/
def pushArg : Cmd → Word → Cmd
  | .exec argv, w => .exec (argv ++ [w])
  | .redir cmd file mode fd, w => .redir (pushArg cmd w) file mode fd
  | cmd, _ => cmd

def parseredirs : Nat → Cmd → Text → Parse (Cmd × Text)
  | 0, _, _ => .error .fuel
  | n + 1, cmd, s =>
    if peek s ['<', '>'] then do
      let (tok1, _, s) ← gettoken (skip s)
      let (tok2, q, s) ← gettoken s
      let w ← wordOf "missing file for redirection" tok2 q
      parseredirs n (redirect tok1 cmd w) s
    else .ok (cmd, skip s)

/-- The `while` loop of `parseexec`. -/
def parseargs : Nat → Nat → Cmd → Text → Parse (Cmd × Text)
  | 0, _, _, _ => .error .fuel
  | n + 1, argc, ret, s =>
    if peek s ['|', ')', '&', ';'] then .ok (ret, skip s)
    else do
      let (tok, q, s) ← gettoken (skip s)
      if tok = '\x00' then .ok (ret, s)
      else
        let w ← wordOf "syntax error" tok q
        if argc + 1 ≥ MAXARGS then .error (.panic "too many args")
        else
          let (ret, s) ← parseredirs n (pushArg ret w) s
          parseargs n (argc + 1) ret s

/-- The `while` loop of `parseline`. -/
def parsebacks : Nat → Cmd → Text → Parse (Cmd × Text)
  | 0, _, _ => .error .fuel
  | n + 1, cmd, s =>
    if peek s ['&'] then do
      let (_, _, s) ← gettoken (skip s)
      parsebacks n (.back cmd) s
    else .ok (cmd, skip s)

mutual

def parseline : Nat → Text → Parse (Cmd × Text)
  | 0, _ => .error .fuel
  | n + 1, s => do
    let (cmd, s) ← parsepipe n s
    let (cmd, s) ← parsebacks n cmd s
    if peek s [';'] then
      let (_, _, s) ← gettoken (skip s)
      let (right, s) ← parseline n s
      .ok (.list cmd right, s)
    else .ok (cmd, skip s)

def parsepipe : Nat → Text → Parse (Cmd × Text)
  | 0, _ => .error .fuel
  | n + 1, s => do
    let (cmd, s) ← parseexec n s
    if peek s ['|'] then
      let (_, _, s) ← gettoken (skip s)
      let (right, s) ← parsepipe n s
      .ok (.pipe cmd right, s)
    else .ok (cmd, skip s)

def parseexec : Nat → Text → Parse (Cmd × Text)
  | 0, _ => .error .fuel
  | n + 1, s =>
    if peek s ['('] then parseblock n (skip s)
    else do
      let (ret, s) ← parseredirs n (.exec []) (skip s)
      parseargs n 0 ret s

def parseblock : Nat → Text → Parse (Cmd × Text)
  | 0, _ => .error .fuel
  | n + 1, s =>
    if ¬ peek s ['('] then .error (.panic "parseblock")
    else do
      let (_, _, s) ← gettoken (skip s)
      let (cmd, s) ← parseline n s
      if ¬ peek s [')'] then .error (.panic "syntax error - missing ')'")
      else
        let (_, _, s) ← gettoken (skip s)
        parseredirs n cmd s

end

/-- `*eargv = 0` for one word.  In the line there is room for the zero, since what ends a word is
still there; in a buffer there is room while the word does not fill it. -/
def endWord (w : Word) : Parse Unit :=
  if w.inBuf ∧ MAXARGLEN ≤ w.text.length then .error .overrun else .ok ()

def nulterminate : Cmd → Parse Unit
  | .exec argv => argv.forM endWord
  | .redir cmd file _ _ => do
    nulterminate cmd
    endWord file
  | .pipe left right => do
    nulterminate left
    nulterminate right
  | .list left right => do
    nulterminate left
    nulterminate right
  | .back cmd => nulterminate cmd

def parsecmd (n : Nat) (s : Text) : Parse Cmd := do
  let (cmd, s) ← parseline n s
  if skip s ≠ [] then .error (.panic "syntax error")
  else
    nulterminate cmd
    .ok cmd

end Uniks.Shell
