import Qwin.Fs.Plain
import Qwin.Lib.Tokens
import Qwin.Sys.Machine

/-!
# Processes over their whole life

The kernel of `Qwin.Sys.Machine` with the remaining calls on files, and with the end of a
process: one that has given everything back is never scheduled again, its slot is
collected by `wait`, and `fork` may use it for another process.
-/

namespace Qwin.Sys

open Prog Fs

inductive Task
  | call (c : Call)
  | dup (fd : ℤ)
  | pipe
  | wait
  | fstat (u : User)
  | lseek (fd : ℤ) (offset : ℕ) (base : ℤ)
  | getcwd (u : User) (depth : ℕ)

def Task.prog : Task → IProg Unit
  | .call c => c.prog
  | .dup fd => Call.prog.discard (sysDup fd)
  | .pipe => Call.prog.discard sysPipe
  | .wait => Call.prog.discard sysWait
  | .fstat u => Call.prog.discard u.sysFstat
  | .lseek fd offset base => Call.prog.discard (sysLseek fd offset base)
  | .getcwd u depth => Call.prog.discard (u.sysGetcwd depth)

def mayRun (p : ℕ) (st : BState) (c : BProg Unit) : Prop :=
  (st.core.pt.proc p).state.Live ∧ ∃ task : Task, c = task.prog.blocks

def Halts : (β : Type) → Plus CoreAct BlockAct β → Prop
  | _, .left .halt => True
  | _, _ => False

/-- What the processes reach from boot, if every step is one that `G` allows. -/
abbrev Reached (G : (β : Type) → ℕ → Plus CoreAct BlockAct β → BState → Prop) (d : ℕ → Block)
    (oracle : ℕ → ℤ) (m : Machine) : Prop :=
  Threads.Reached blockSem mayRun G Halts (bootOn d oracle) m

/-- The process is in no system call: it has finished the last one, or it is over. -/
def Rests {σ : Type} (m : Threads ℕ (Plus CoreAct BlockAct) σ) (p : ℕ) : Prop :=
  ∀ c, m.prog p = some c → ∃ k, c = .act (.left .halt) k

/-- A process enters a task, as a move of a schedule. -/
def enter : ℕ → Task → BState → Option (BProg Unit) := enterBy Task.prog

theorem mayRun_of_enter (p : ℕ) (task : Task) (st : BState) (c : BProg Unit)
    (h : enter p task st = some c) : mayRun p st c := by
  obtain ⟨hlive, rfl⟩ := enterBy_eq_some.1 h
  exact ⟨hlive, task, rfl⟩

end Qwin.Sys
