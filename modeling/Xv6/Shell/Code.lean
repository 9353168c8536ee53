import Xv6.Lib.Command

/-!
# The parser of `sh.c`

A pointer into the line is an offset, `es` is the length of the line, and the state of
the parser is `*ps`.  The functions that call each other take a bound on the depth of the
calls and the rounds of the loops.  `parseexec` fills in the arguments of its `execcmd`
after it has wrapped redirections around it; here it collects both and builds the command
at the end.
-/

namespace Xv6.Shell

abbrev Str := List UInt8

/-- A string from `q` up to `eq`. -/
structure Span where
  start : Nat
  stop : Nat
  deriving DecidableEq, Repr

abbrev MAXARGS : Nat := 10

inductive Cmd
  | exec (argv : List Span)
  | redir (cmd : Cmd) (file : Span) (mode fd : Nat)
  | pipe (left right : Cmd)
  | list (left right : Cmd)
  | back (cmd : Cmd)
  deriving DecidableEq, Repr

/-- Why the parser does not return. -/
inductive Fail
  | panic (message : String)
  | bound
  deriving DecidableEq, Repr

def whitespace : Str := [32, 9, 13, 10, 11]

/-- `<|>&;()` -/
def symbols : Str := [60, 124, 62, 38, 59, 40, 41]

def isBlank (c : UInt8) : Bool := whitespace.contains c

def isWord (c : UInt8) : Bool := !whitespace.contains c && !symbols.contains c

/-- `while(s < es && p(*s)) s++` -/
def skipWhile (p : UInt8 → Bool) (line : Str) (s : Nat) : Nat := s + (line.drop s).findIdx (fun c => !p c)

/-- `*s`, with the NUL at the end of the line. -/
def charAt (line : Str) (s : Nat) : UInt8 := line.getD s 0

/-- What `gettoken` returns for the token at `s`, and its end. -/
def tokenAt (line : Str) (s : Nat) : UInt8 × Nat :=
  let c := charAt line s
  if c = 0 then (0, s)
  else if c ∈ [124, 40, 41, 59, 38, 60] then (c, s + 1)
  else if c = 62 then if charAt line (s + 1) = 62 then (43, s + 2) else (62, s + 1)
  else (97, skipWhile isWord line s)

/-- The parser, whose state is `*ps`. -/
abbrev Parser := Lib.Cmd Fail Nat

/-- `gettoken`: what it returns, with `q` and `eq`. -/
def gettoken (line : Str) : Parser (UInt8 × Span) := do
  let q := skipWhile isBlank line (← get)
  let t := tokenAt line q
  set (skipWhile isBlank line t.2)
  return (t.1, { start := q, stop := t.2 })

def peek (line toks : Str) : Parser Bool := do
  let s := skipWhile isBlank line (← get)
  set s
  return charAt line s != 0 && toks.contains (charAt line s)

structure Redir where
  file : Span
  mode : Nat
  fd : Nat
  deriving DecidableEq, Repr

/-- The redirections around a command, the last one outermost. -/
def wrap (cmd : Cmd) (rs : List Redir) : Cmd := rs.foldl (fun c r => .redir c r.file r.mode r.fd) cmd

abbrev O_RDONLY : Nat := 0x000
abbrev O_WRONLY : Nat := 0x001
abbrev O_CREATE : Nat := 0x200
abbrev O_TRUNC : Nat := 0x400

/-- The `switch` of `parseredirs`. -/
def redirOf (tok : UInt8) (file : Span) : List Redir :=
  if tok = 60 then [{ file := file, mode := O_RDONLY, fd := 0 }]
  else if tok = 62 then [{ file := file, mode := O_WRONLY ||| O_CREATE ||| O_TRUNC, fd := 1 }]
  else if tok = 43 then [{ file := file, mode := O_WRONLY ||| O_CREATE, fd := 1 }]
  else []

def parseredirs (line : Str) : Nat → Parser (List Redir)
  | 0 => throw .bound
  | n + 1 => do
      if ← peek line [60, 62] then
        let tok ← gettoken line
        let file ← gettoken line
        if file.1 ≠ 97 then throw (.panic "missing file for redirection")
        else
          let rs ← parseredirs line n
          return redirOf tok.1 file.2 ++ rs
      else return []

/-- The loop of `parseexec`: the arguments and the redirections. -/
def parseargs (line : Str) : Nat → Nat → Parser (List Span × List Redir)
  | 0, _ => throw .bound
  | n + 1, argc => do
      if ← peek line [124, 41, 38, 59] then return ([], [])
      else
        let tok ← gettoken line
        if tok.1 = 0 then return ([], [])
        else if tok.1 ≠ 97 then throw (.panic "syntax")
        else if MAXARGS ≤ argc + 1 then throw (.panic "too many args")
        else
          let rs ← parseredirs line n
          let a ← parseargs line n (argc + 1)
          return (tok.2 :: a.1, rs ++ a.2)

/-- The loop of `parseline`. -/
def parseback (line : Str) : Nat → Cmd → Parser Cmd
  | 0, _ => throw .bound
  | n + 1, cmd => do
      if ← peek line [38] then
        let _ ← gettoken line
        parseback line n (.back cmd)
      else return cmd

mutual

def parseline (line : Str) : Nat → Parser Cmd
  | 0 => throw .bound
  | n + 1 => do
      let cmd ← parsepipe line n
      let cmd ← parseback line n cmd
      if ← peek line [59] then
        let _ ← gettoken line
        let right ← parseline line n
        return .list cmd right
      else return cmd

def parsepipe (line : Str) : Nat → Parser Cmd
  | 0 => throw .bound
  | n + 1 => do
      let cmd ← parseexec line n
      if ← peek line [124] then
        let _ ← gettoken line
        let right ← parsepipe line n
        return .pipe cmd right
      else return cmd

def parseexec (line : Str) : Nat → Parser Cmd
  | 0 => throw .bound
  | n + 1 => do
      if ← peek line [40] then parseblock line n
      else
        let rs ← parseredirs line n
        let a ← parseargs line n 0
        return wrap (.exec a.1) (rs ++ a.2)

def parseblock (line : Str) : Nat → Parser Cmd
  | 0 => throw .bound
  | n + 1 => do
      if ← peek line [40] then
        let _ ← gettoken line
        let cmd ← parseline line n
        if ← peek line [41] then
          let _ ← gettoken line
          let rs ← parseredirs line n
          return wrap cmd rs
        else throw (.panic "syntax - missing )")
      else throw (.panic "parseblock")

end

/-- The buffer with NULs behind the strings of the command. -/
def nulterminate : Cmd → Str → Str
  | .exec argv, buf => argv.foldl (fun b w => b.set w.stop 0) buf
  | .redir cmd file _ _, buf => (nulterminate cmd buf).set file.stop 0
  | .pipe left right, buf => nulterminate right (nulterminate left buf)
  | .list left right, buf => nulterminate right (nulterminate left buf)
  | .back cmd, buf => nulterminate cmd buf

/-- The line in a buffer, up to its NUL. -/
def lineOf (buf : Str) : Str := buf.takeWhile (· != 0)

/-- What is done with the whole line. -/
def parseall (line : Str) (n : Nat) : Parser Cmd := do
  let cmd ← parseline line n
  let _ ← peek line []
  if (← get) ≠ line.length then throw (.panic "syntax")
  else return cmd

/-- `parsecmd`: the command, and the buffer with the ends of its strings. -/
def parsecmd (n : Nat) (buf : Str) : Except Fail (Cmd × Str) := do
  let (cmd, _) ← parseall (lineOf buf) n 0
  return (cmd, nulterminate cmd buf)

end Xv6.Shell
