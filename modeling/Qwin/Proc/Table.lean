import Mathlib.Logic.Function.Basic
import Qwin.Kernel.Param

/-!
# The process table

`struct proc` and the functions of `proc.c` that work on the process table. A slot
keeps whatever a function does not assign: `allocproc` writes only the state and
the pid, `wait` resets only the fields named there, and everything else in a slot
survives from its last owner. Page tables, kernel stacks and names are left out;
whether `kalloc` and `copyuvm` find memory is an argument of `fork`.
-/

namespace Qwin

inductive ProcState
  | unused | embryo | sleeping | runnable | running | zombie
  deriving DecidableEq, Repr

/-- A process that the scheduler may run, or that waits for something. -/
def ProcState.Live (s : ProcState) : Prop := s = .sleeping ∨ s = .runnable ∨ s = .running

instance (s : ProcState) : Decidable (ProcState.Live s) :=
  inferInstanceAs (Decidable (_ ∨ _ ∨ _))

/-- `struct proc`. Parents, open files and the current directory are indices into
the process table, the file table and the inode cache. -/
structure Proc where
  state : ProcState
  pid : ℤ
  parent : Option ℕ
  killed : Bool
  ofile : ℕ → Option ℕ
  cwd : Option ℕ
  uid : ℤ

def Proc.zero : Proc := ⟨.unused, 0, none, false, fun _ => none, none, 0⟩

structure Ptable where
  proc : ℕ → Proc
  initproc : ℕ
  nextpid : ℤ

namespace Ptable

def modify (t : Ptable) (i : ℕ) (f : Proc → Proc) : Ptable :=
  { t with proc := Function.update t.proc i (f (t.proc i)) }

@[simp] theorem modify_proc_self (t : Ptable) (i : ℕ) (f : Proc → Proc) :
    (t.modify i f).proc i = f (t.proc i) := by
  simp [modify]

theorem modify_proc (t : Ptable) (i : ℕ) (f : Proc → Proc) (j : ℕ) :
    (t.modify i f).proc j = if j = i then f (t.proc i) else t.proc j := by
  simp [modify, Function.update_apply]

/-- The slot `allocproc` takes: the first one that is `UNUSED`. -/
def unusedSlot (t : Ptable) : Option ℕ :=
  (List.range NPROC).find? fun i => (t.proc i).state = .unused

/-- `allocproc`, told whether `kalloc` finds a page for the kernel stack. -/
def allocproc (t : Ptable) (kalloc : Bool) : Option ℕ × Ptable :=
  match t.unusedSlot with
  | none => (none, t)
  | some np =>
    let t' := t.modify np fun p => { p with state := .embryo, pid := t.nextpid }
    let t' := { t' with nextpid := t.nextpid + 1 }
    if kalloc then (some np, t')
    else (none, t'.modify np fun p => { p with state := .unused })

/-- What `fork` copies from the parent once it has memory. A descriptor the parent
does not have leaves the slot's own entry alone. -/
def forkCopy (t : Ptable) (cur np : ℕ) : Ptable :=
  t.modify np fun p =>
    { p with
      parent := some cur
      ofile := fun i => ((t.proc cur).ofile i).orElse fun _ => p.ofile i
      cwd := (t.proc cur).cwd
      state := .runnable }

/-- `fork` called by `cur`: the slot of the child, or `none` for `-1`. -/
def fork (t : Ptable) (cur : ℕ) (kalloc copyuvm : Bool) : Option ℕ × Ptable :=
  match t.allocproc kalloc with
  | (none, t') => (none, t')
  | (some np, t') =>
    if copyuvm then (some np, t'.forkCopy cur np)
    else (none, t'.modify np fun p => { p with state := .unused })

/-- `exit` called by `cur`: open files and the current directory are given up, the
children go to `initproc`, and the slot becomes a zombie. -/
def exit (t : Ptable) (cur : ℕ) : Except Stop Ptable :=
  if cur = t.initproc then .error (.panic .initExiting)
  else .ok { t with proc := fun i =>
    let p := if i = cur then { t.proc i with ofile := fun _ => none, cwd := none }
      else t.proc i
    let p := if p.parent = some cur then { p with parent := some t.initproc } else p
    if i = cur then { p with state := .zombie } else p }

def zombieChild (t : Ptable) (cur : ℕ) : Option ℕ :=
  (List.range NPROC).find? fun i =>
    (t.proc i).parent = some cur ∧ (t.proc i).state = .zombie

def haveKids (t : Ptable) (cur : ℕ) : Bool :=
  (List.range NPROC).any fun i => (t.proc i).parent = some cur

/-- One pass of `wait` over the table: the slot it collects is free again. -/
def wait (t : Ptable) (cur : ℕ) : Option ℕ × Ptable :=
  match t.zombieChild cur with
  | none => (none, t)
  | some i => (some i, t.modify i fun p =>
    { p with state := .unused, pid := 0, parent := none, killed := false })

/-- `kill`: the first slot with this pid is marked, whatever its state. -/
def kill (t : Ptable) (pid : ℤ) : Ptable :=
  match (List.range NPROC).find? fun i => (t.proc i).pid = pid with
  | none => t
  | some i => t.modify i fun p =>
    { p with
      killed := true
      state := if p.state = .sleeping then .runnable else p.state }

def setuid (t : Ptable) (cur : ℕ) (n : ℤ) : Ptable :=
  t.modify cur fun p => { p with uid := n }

/-- The table after `userinit`: the first slot holds `init`. -/
def boot : Ptable where
  proc := Function.update (fun _ => Proc.zero) 0
    { Proc.zero with state := .runnable, pid := 1, cwd := some 0 }
  initproc := 0
  nextpid := 2

/-- What a running process, or the scheduler, does to the table next. -/
inductive Event
  | fork (cur : ℕ) (kalloc copyuvm : Bool)
  | exit (cur : ℕ)
  | wait (cur : ℕ)
  -- `execv` replaces the memory image and touches nothing kept here
  | execv (cur : ℕ)
  | kill (cur : ℕ) (pid : ℤ)
  | setuid (cur : ℕ) (n : ℤ)
  -- the scheduler, `sleep`, `wakeup` and `yield`
  | resched (i : ℕ) (s : ProcState)

/-- The table after an event, if the event can happen. -/
def step (t : Ptable) : Event → Option Ptable
  | .fork cur kalloc copyuvm =>
    if (t.proc cur).state = .running then some (t.fork cur kalloc copyuvm).2 else none
  | .exit cur =>
    if (t.proc cur).state = .running then (t.exit cur).toOption else none
  | .wait cur => if (t.proc cur).state = .running then some (t.wait cur).2 else none
  | .execv cur => if (t.proc cur).state = .running then some t else none
  | .kill cur pid => if (t.proc cur).state = .running then some (t.kill pid) else none
  | .setuid cur n => if (t.proc cur).state = .running then some (t.setuid cur n) else none
  | .resched i s =>
    if ProcState.Live (t.proc i).state ∧ ProcState.Live s then
      some (t.modify i fun p => { p with state := s })
    else none

def run (t : Ptable) : List Event → Option Ptable
  | [] => some t
  | e :: es => (t.step e).bind fun t' => t'.run es

end Ptable

end Qwin
