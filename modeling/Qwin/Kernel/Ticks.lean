import Qwin.Lib.Monitor

/-!
# The clock

`ticks` under `tickslock`: `sys_sleep` and `sys_uptime` of `sysproc.c` and the timer interrupt
of `trap.c`. The argument of `sys_sleep` is there when the model begins. The numbers are those
of 32 bits; the `int` `n` is compared with the `uint` difference as a `uint`.
-/

namespace Qwin.Ticks

open Prog Monitor

/-- `ticks`, and what the calls returned. -/
structure Clock where
  ticks : BitVec 32
  returned : List (BitVec 32)

inductive Op : Type → Type where
  | ticks : Op (BitVec 32)
  -- `ticks++`
  | tick : Op Unit
  | ret (r : BitVec 32) : Op Unit

def run (β : Type) (o : Op β) (c : Clock) : β × Clock :=
  match o with
  | .ticks => (c.ticks, c)
  | .tick => ((), { c with ticks := c.ticks + 1 })
  | .ret r => ((), { c with returned := c.returned ++ [r] })

/-- A `sys_sleep` that began at `ticks0` and is to last `n` ticks. -/
structure Job where
  ticks0 : BitVec 32
  n : BitVec 32

abbrev Act := Plus Op (Sync Unit Job)

def finish (r : BitVec 32) : Prog Act Unit := do
  op (.ret r)
  sync .release

/-- The loop of `sys_sleep`, up to a `sleep`. -/
def sleepLoop (j : Job) : Prog Act Unit := do
  let ticks ← op .ticks
  if ticks - j.ticks0 < j.n then do
    let killed ← sync .killed
    if killed then finish (-1) else sleep () j
  else finish 0

def sysSleep (n : BitVec 32) : Prog Act Unit := do
  sync .acquire
  let ticks0 ← op .ticks
  sleepLoop ⟨ticks0, n * 100⟩

def sysUptime : Prog Act Unit := do
  sync .acquire
  let xticks ← op .ticks
  finish xticks

def timer : Prog Act Unit := do
  sync .acquire
  op .tick
  wakeup ()
  sync .release

inductive Call where
  -- go on after a sleep
  | awaken
  | sleep (n : BitVec 32)
  | uptime
  | timer
  | kill (q : ℕ)

/-- The program of a thread that is awake: the rest of the call it slept in, a new call, or an
interrupt. -/
def enter (p : ℕ) (k : Call) (s : State Clock Unit Job) : Option (Prog Act Unit) :=
  match s.status p, s.job p, k with
  | .awake, some j, .awaken => some (awaken (sleepLoop j))
  | .awake, none, .sleep n => some (sysSleep n)
  | .awake, none, .uptime => some sysUptime
  | .awake, none, .timer => some timer
  | .awake, none, .kill q => some (kill q)
  | _, _, _ => none

def Starts (p : ℕ) (s : State Clock Unit Job) (c : Prog Act Unit) : Prop := ∃ k, enter p k s = some c

def initial (killed : ℕ → Bool) : State Clock Unit Job := State.start ⟨0, []⟩ killed

end Qwin.Ticks
