import Mathlib.Data.List.Basic
import Qwin.Lib.Outcome
import Qwin.Sys.Call

/-!
# The parser of the shell

`sh.c`. A pointer into the line is what is left of the line from there on, without the NUL
behind it: `*s` is the NUL when nothing is left. A word is given by the pointers `q` and `eq`
to its first byte and to the byte behind its last one, until `nulterminate` puts a NUL there.

The functions are given fuel for their recursion and their loops. `malloc` does not fail.
-/

namespace Qwin.Shell

open Sys (O_RDONLY O_WRONLY O_CREAT)

abbrev Ptr := List UInt8

abbrev byte (c : Char) : UInt8 := c.toNat.toUInt8

def whitespace : List UInt8 := [byte ' ', byte '\t', byte '\r', byte '\n', 11]

def symbols : List UInt8 :=
  [byte '<', byte '|', byte '>', byte '&', byte ';', byte '(', byte ')']

abbrev MAXARGS : ℕ := 10

/-- A command, with words of type `α`. -/
inductive Cmd (α : Type) where
  | exec (argv : List α)
  | redir (cmd : Cmd α) (file : α) (mode : BitVec 32) (fd : ℕ)
  | pipe (left right : Cmd α)
  | list (left right : Cmd α)
  | back (cmd : Cmd α)
  deriving DecidableEq

structure Word where
  q : Ptr
  eq : Ptr

inductive Panic where
  -- with what is left over
  | leftovers (s : Ptr)
  | badToken
  | missingFile
  | missingParen
  | parseblock
  | tooManyArgs
  deriving DecidableEq

def Panic.text : Panic → String
  | leftovers _ => "syntax"
  | badToken => "syntax"
  | missingFile => "missing file for redirection"
  | missingParen => "syntax - missing )"
  | Panic.parseblock => "parseblock"
  | tooManyArgs => "too many args"

def skip (s : Ptr) : Ptr := s.dropWhile (· ∈ whitespace)

def plain (c : UInt8) : Bool := c ∉ whitespace ∧ c ∉ symbols

structure Got where
  ret : UInt8
  q : Ptr
  eq : Ptr
  s : Ptr

/-- The `switch` of `gettoken`: the kind of the token and its end. -/
def scan : Ptr → UInt8 × Ptr
  | [] => (0, [])
  | c :: s =>
    if c ∈ [byte '|', byte '(', byte ')', byte ';', byte '&', byte '<'] then (c, s)
    else if c = byte '>' then
      if s.head? = some (byte '>') then (byte '+', s.tail) else (c, s)
    else (byte 'a', (c :: s).dropWhile plain)

def gettoken (s : Ptr) : Got :=
  let q := skip s
  let (ret, eq) := scan q
  ⟨ret, q, eq, skip eq⟩

/-- `peek`, and where it leaves the pointer -/
def peek (s : Ptr) (toks : List UInt8) : Bool × Ptr :=
  match skip s with
  | [] => (false, [])
  | c :: s => (c ∈ toks, c :: s)

def parseredirs : ℕ → Cmd Word → Ptr → Outcome Panic (Cmd Word × Ptr)
  | 0, _, _ => .hang
  | fuel + 1, cmd, s =>
    match peek s [byte '<', byte '>'] with
    | (false, s) => .ok (cmd, s)
    | (true, s) =>
      let tok := gettoken s
      let file := gettoken tok.s
      if file.ret ≠ byte 'a' then .fail .missingFile
      else
        let cmd :=
          if tok.ret = byte '<' then .redir cmd ⟨file.q, file.eq⟩ O_RDONLY 0
          else if tok.ret = byte '>' then .redir cmd ⟨file.q, file.eq⟩ (O_WRONLY ||| O_CREAT) 1
          else if tok.ret = byte '+' then .redir cmd ⟨file.q, file.eq⟩ (O_WRONLY ||| O_CREAT) 1
          else cmd
        parseredirs fuel cmd file.s

/-- `cmd->argv[argc] = q`: the `EXEC` node lies below the redirections so far. -/
def Cmd.addArg {α : Type} (w : α) : Cmd α → Cmd α
  | exec argv => exec (argv ++ [w])
  | redir cmd file mode fd => redir (cmd.addArg w) file mode fd
  | cmd => cmd

/-- The loop of `parseexec` over the arguments. -/
def parseargs : ℕ → Cmd Word → ℕ → Ptr → Outcome Panic (Cmd Word × Ptr)
  | 0, _, _, _ => .hang
  | fuel + 1, ret, argc, s =>
    match peek s [byte '|', byte ')', byte '&', byte ';'] with
    | (true, s) => .ok (ret, s)
    | (false, s) =>
      let tok := gettoken s
      if tok.ret = 0 then .ok (ret, tok.s)
      else if tok.ret ≠ byte 'a' then .fail .badToken
      else if MAXARGS ≤ argc + 1 then .fail .tooManyArgs
      else do
        let (ret, s) ← parseredirs fuel (ret.addArg ⟨tok.q, tok.eq⟩) tok.s
        parseargs fuel ret (argc + 1) s

/-- The loop of `parseline` over the ampersands. -/
def parsebacks : ℕ → Cmd Word → Ptr → Outcome Panic (Cmd Word × Ptr)
  | 0, _, _ => .hang
  | fuel + 1, cmd, s =>
    match peek s [byte '&'] with
    | (true, s) => parsebacks fuel (.back cmd) (gettoken s).s
    | (false, s) => .ok (cmd, s)

mutual

def parseline : ℕ → Ptr → Outcome Panic (Cmd Word × Ptr)
  | 0, _ => .hang
  | fuel + 1, s => do
      let (cmd, s) ← parsepipe fuel s
      let (cmd, s) ← parsebacks fuel cmd s
      match peek s [byte ';'] with
      | (true, s) =>
        let (right, s) ← parseline fuel (gettoken s).s
        pure (.list cmd right, s)
      | (false, s) => pure (cmd, s)

def parsepipe : ℕ → Ptr → Outcome Panic (Cmd Word × Ptr)
  | 0, _ => .hang
  | fuel + 1, s => do
      let (cmd, s) ← parseexec fuel s
      match peek s [byte '|'] with
      | (true, s) =>
        let (right, s) ← parsepipe fuel (gettoken s).s
        pure (.pipe cmd right, s)
      | (false, s) => pure (cmd, s)

def parseexec : ℕ → Ptr → Outcome Panic (Cmd Word × Ptr)
  | 0, _ => .hang
  | fuel + 1, s =>
    match peek s [byte '('] with
    | (true, s) => parseblock fuel s
    | (false, s) => do
        let (ret, s) ← parseredirs fuel (.exec []) s
        parseargs fuel ret 0 s

def parseblock : ℕ → Ptr → Outcome Panic (Cmd Word × Ptr)
  | 0, _ => .hang
  | fuel + 1, s =>
    match peek s [byte '('] with
    | (false, _) => .fail .parseblock
    | (true, s) => do
        let (cmd, s) ← parseline fuel (gettoken s).s
        match peek s [byte ')'] with
        | (false, _) => .fail .missingParen
        | (true, s) => parseredirs fuel cmd (gettoken s).s

end

/-- `nulterminate`: what it makes of a buffer with a line of `len` bytes -/
def nulterminate (len : ℕ) : Cmd Word → List UInt8 → List UInt8
  | .exec argv, buf => argv.foldl (fun buf w => buf.set (len - w.eq.length) 0) buf
  | .redir cmd file _ _, buf => (nulterminate len cmd buf).set (len - file.eq.length) 0
  | .pipe left right, buf => nulterminate len right (nulterminate len left buf)
  | .list left right, buf => nulterminate len right (nulterminate len left buf)
  | .back cmd, buf => nulterminate len cmd buf

def cstring (buf : List UInt8) : List UInt8 := buf.takeWhile (· ≠ 0)

def enough (s : Ptr) : ℕ := 4 * s.length + 4

/-- `parsecmd`: the command, and the line that its words lie in -/
def parsecmd (buf : List UInt8) : Outcome Panic (Cmd Word × List UInt8) :=
  let line := cstring buf
  do
    let (cmd, s) ← parseline (enough line) line
    let (_, s) := peek s []
    if s ≠ [] then .fail (.leftovers s)
    else pure (cmd, nulterminate line.length cmd (line ++ [0]))

namespace Cmd

variable {α β : Type}

def map (f : α → β) : Cmd α → Cmd β
  | exec argv => exec (argv.map f)
  | redir cmd file mode fd => redir (cmd.map f) (f file) mode fd
  | pipe left right => pipe (left.map f) (right.map f)
  | list left right => list (left.map f) (right.map f)
  | back cmd => back (cmd.map f)

def words : Cmd α → List α
  | exec argv => argv
  | redir cmd file _ _ => cmd.words ++ [file]
  | pipe left right => left.words ++ right.words
  | list left right => left.words ++ right.words
  | back cmd => cmd.words

end Cmd

/-- The string that a pointer to a word points to, in a buffer with a line of `len` bytes. -/
def Word.read (len : ℕ) (buf : List UInt8) (w : Word) : List UInt8 :=
  cstring (buf.drop (len - w.q.length))

end Qwin.Shell
