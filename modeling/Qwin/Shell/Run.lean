import Qwin.Lib.Pool
import Qwin.Lib.Prog
import Qwin.Shell.Print

/-!
# Running a command

`runcmd` of `sh.c` over the system calls it makes. A process has a table of descriptors;
`open`, `dup` and `pipe` take the lowest free one, `fork` copies the table. The pipe that the
shell makes for a `PIPE` node is named after the node, that is, after the pointer `cmd`.
`fork` does not fail, and `open` fails only if no descriptor is free.
-/

namespace Qwin.Shell

open Prog

/-- The way from the root of a command to a node. -/
inductive Side where
  | sub
  | left
  | right
  deriving DecidableEq

abbrev Node := List Side

inductive Obj where
  -- something from before the command
  | old (n : ℕ)
  | file (name : Text) (mode : BitVec 32)
  | read (node : Node)
  | write (node : Node)
  deriving DecidableEq

abbrev Table := ℕ → Option Obj

namespace Table

def fdalloc (t : Table) (x : Obj) : Option (ℕ × Table) :=
  match (List.range NOFILE).find? fun fd => t fd = none with
  | some fd => some (fd, Function.update t fd (some x))
  | none => none

def close (t : Table) (fd : ℕ) : Table := if fd < NOFILE then Function.update t fd none else t

def dup (t : Table) (fd : ℕ) : Option ℕ × Table :=
  match if fd < NOFILE then t fd else none with
  | none => (none, t)
  | some x =>
    match t.fdalloc x with
    | some (fd, t) => (some fd, t)
    | none => (none, t)

def openFile (t : Table) (name : Text) (mode : BitVec 32) : Option ℕ × Table :=
  match t.fdalloc (.file name mode) with
  | some (fd, t) => (some fd, t)
  | none => (none, t)

def pipe (t : Table) (node : Node) : Option (ℕ × ℕ) × Table :=
  match t.fdalloc (.read node) with
  | none => (none, t)
  | some (fd0, t0) =>
    match t0.fdalloc (.write node) with
    | none => (none, Function.update t0 fd0 none)
    | some (fd1, t1) => (some (fd0, fd1), t1)

end Table

inductive Call : Type → Type
  | close (fd : ℕ) : Call Unit
  | openFile (name : Text) (mode : BitVec 32) : Call (Option ℕ)
  | dup (fd : ℕ) : Call (Option ℕ)
  | pipe (node : Node) : Call (Option (ℕ × ℕ))
  -- `true` in the child
  | fork : Call Bool
  | wait (node : Node) : Call Unit
  -- returns if it fails
  | execv (node : Node) (file : Text) (argv : List Text) : Call Unit
  | exit : Call Empty

/-- The processes as which a process goes on after a call. `found` tells the files that can be
executed. -/
def Call.outcomes (found : Text → Bool) {β : Type} (a : Call β) (t : Table) : List (β × Table) :=
  match a with
  | .close fd => [((), t.close fd)]
  | .openFile name mode => [t.openFile name mode]
  | .dup fd => [t.dup fd]
  | .pipe node => [t.pipe node]
  | .fork => [(false, t), (true, t)]
  | .wait _ => [((), t)]
  | .execv _ file _ => if found file then [] else [((), t)]
  | .exit => []

abbrev call {β : Type} (a : Call β) : Prog Call β := perform a

/-- The loop of `runcmd` over the search path. -/
def execAll (node : Node) (name : Text) (argv : List Text) : List Text → Prog Call Unit
  | [] => pure ()
  | path :: paths => do
      call (.execv node (path ++ name) argv)
      execAll node name argv paths

def runcmd (paths : List Text) (node : Node) : Cmd Text → Prog Call Empty
  | .exec argv =>
    match argv with
    | [] => call .exit
    | name :: _ => do
        execAll node name argv paths
        call .exit
  | .redir cmd file mode fd => do
      call (.close fd)
      let r ← call (.openFile file mode)
      match r with
      | none => call .exit
      | some _ => runcmd paths (node ++ [.sub]) cmd
  | .list left right => do
      let child ← call .fork
      if child then runcmd paths (node ++ [.left]) left
      else do
        call (.wait node)
        runcmd paths (node ++ [.right]) right
  | .pipe left right => do
      let p ← call (.pipe node)
      match p with
      | none => call .exit
      | some (p0, p1) => do
          let child ← call .fork
          if child then do
            call (.close 1)
            let _ ← call (.dup p1)
            call (.close p0)
            call (.close p1)
            runcmd paths (node ++ [.left]) left
          else do
            let child ← call .fork
            if child then do
              call (.close 0)
              let _ ← call (.dup p0)
              call (.close p0)
              call (.close p1)
              runcmd paths (node ++ [.right]) right
            else do
              call (.close p0)
              call (.close p1)
              call (.wait node)
              call (.wait node)
              call .exit
  | .back cmd => do
      let child ← call .fork
      if child then runcmd paths (node ++ [.sub]) cmd else call .exit

/-- A process: what it still does, and its descriptors. -/
structure Proc where
  prog : Prog Call Empty
  table : Table

inductive Proc.Next (found : Text → Bool) : Proc → List Proc → Prop
  | call {β : Type} (a : Call β) (k : β → Prog Call Empty) (t : Table) :
      Next found ⟨.act a k, t⟩ ((a.outcomes found t).map fun r => ⟨k r.1, r.2⟩)

/-! ## What the descriptors should be -/

/-- An `EXEC` node with the objects of its standard input and output. -/
structure Wire where
  node : Node
  argv : List Text
  stdin : Obj
  stdout : Obj

/-- The commands of a tree, with the input and output that the innermost node around them
determines. -/
def wiring (node : Node) (i o : Obj) : Cmd Text → List Wire
  | .exec argv => if argv = [] then [] else [⟨node, argv, i, o⟩]
  | .redir cmd file mode fd =>
    if fd = 0 then wiring (node ++ [.sub]) (.file file mode) o cmd
    else wiring (node ++ [.sub]) i (.file file mode) cmd
  | .pipe left right =>
    wiring (node ++ [.left]) i (.write node) left ++ wiring (node ++ [.right]) (.read node) o right
  | .list left right =>
    wiring (node ++ [.left]) i o left ++ wiring (node ++ [.right]) i o right
  | .back cmd => wiring (node ++ [.sub]) i o cmd

abbrev Cmd.Redirs (t : Cmd Text) : Prop := t.Built fun _ => True

/-- The standard descriptors are open. -/
def threeOpen : Table := fun fd => if fd < 3 then some (.old fd) else none

end Qwin.Shell
