import Qwin.Lib.Chars
import Qwin.Lib.Monitor
import Qwin.Lib.Ring

/-!
# The terminal

The input side of `tty.c`: `ttyintr` and `ttyread` over the line buffer `input`, which is the
resource of a monitor. Every step on `input` is what the code does for one character, or one
test, while it holds `input.lock`. What `consputc` and `procdump` print is left out, and so
are the `iunlock` and `ilock` of the inode around `ttyread`.

`log` is a record of the characters that `ttyintr` was given, of those that `ttyread` took, and
of what `ttyread` returned.
-/

namespace Qwin.Tty

open Prog Monitor
open Chars (ch)

abbrev INPUT_BUF : ℕ := 128

/-- `C(x)` -/
def ctrl (x : Char) : UInt8 := ch x - ch '@'

inductive Event where
  | key (c : UInt8)
  | took (c : UInt8)
  -- a `ttyread` of `n` bytes returns `k`
  | ret (n : ℕ) (k : ℤ)
  deriving DecidableEq

/-- `input`: `r` and `e` are the counters of the ring -/
structure Input where
  ring : Ring UInt8 32
  w : BitVec 32
  log : List Event

namespace Input

def Edited (i : Input) : Prop := i.ring.wr ≠ i.w

instance (i : Input) : Decidable i.Edited := inferInstanceAs (Decidable (_ ≠ _))

def backspace (i : Input) : Input := if i.Edited then { i with ring := i.ring.unpush } else i

def killLine (i : Input) : Input :=
  if i.Edited ∧ i.ring.back INPUT_BUF ≠ ch '\n' then killLine { i with ring := i.ring.unpush }
  else i
termination_by (i.ring.wr - i.w).toNat
decreasing_by
  have hne : i.ring.wr ≠ i.w := And.left ‹_›
  simp only [Ring.unpush]
  bv_omega

/-- The default branch of the `switch`, for a character that is stored. Returns if the line is
complete. -/
def store (i : Input) (c : UInt8) : Bool × Input :=
  let c := if c = ch '\r' then ch '\n' else c
  let i := { i with ring := i.ring.push INPUT_BUF c }
  if c = ch '\n' ∨ c = ctrl 'C' ∨ i.ring.wr = i.ring.rd + BitVec.ofNat 32 INPUT_BUF then
    (true, { i with w := i.ring.wr })
  else (false, i)

/-- The `switch` of `ttyintr`, up to the `wakeup` and the `killcur`. -/
def key (i : Input) (c : UInt8) : Bool × Input :=
  if c = ctrl 'P' then (false, i)
  else if c = ctrl 'W' then (false, i.killLine)
  else if c = ctrl 'H' ∨ c = 0x7f then (false, i.backspace)
  else if c = ctrl 'C' then (false, i)
  else if c ≠ 0 ∧ (i.ring.wr - i.ring.rd).toNat < INPUT_BUF then i.store c
  else (false, i)

def record (i : Input) (e : Event) : Input := { i with log := i.log ++ [e] }

end Input

inductive Op : Type → Type where
  | key (c : UInt8) : Op Bool
  -- `input.r == input.w`
  | empty : Op Bool
  -- `input.buf[input.r++ % INPUT_BUF]`; is it the first one of the call?
  | take (first : Bool) : Op UInt8
  -- the result of `ttyread`
  | ret (n : ℕ) (k : ℤ) : Op Unit

def run (β : Type) (o : Op β) (i : Input) : β × Input :=
  match o with
  | .key c => ((i.key c).1, (i.key c).2.record (.key c))
  | .empty => (decide (i.ring.rd = i.w), i)
  | .take _ => (i.ring.front INPUT_BUF,
      { i with ring := i.ring.pop }.record (.took (i.ring.front INPUT_BUF)))
  | .ret n k => ((), i.record (.ret n k))

/-- A `ttyread` of `n` bytes sleeps when `rest` bytes are left. -/
structure Job where
  n : ℕ
  rest : ℕ
  le : rest ≤ n

abbrev Act := Plus Op (Sync Unit Job)

/-- `killcur`, which finds the process in slot `q` or none -/
def killcur : Option ℕ → Prog Act Unit
  | some q => kill q
  | none => do
      sync .acquireTable
      sync .releaseTable

/-- The loop of `ttyintr` over the characters that `getc` returns. With a character comes the
process that `killcur` would find. -/
def intrLoop : List (UInt8 × Option ℕ) → Prog Act Unit
  | [] => sync .release
  | (c, q) :: cs => do
      let complete ← op (.key c)
      if c = ctrl 'C' then do
        killcur q
        intrLoop cs
      else if complete then do
        wakeup ()
        intrLoop cs
      else intrLoop cs

def ttyintr (cs : List (UInt8 × Option ℕ)) : Prog Act Unit := do
  sync .acquire
  intrLoop cs

def finish (n : ℕ) (k : ℤ) : Prog Act Unit := do
  op (.ret n k)
  sync .release

/-- The loop of `ttyread` when `rest` of `n` bytes are left. -/
def readLoop (n : ℕ) : (rest : ℕ) → rest ≤ n → Prog Act Unit
  | 0, _ => finish n n
  | rest + 1, h => do
      let empty ← op .empty
      if empty then do
        let killed ← sync .killed
        if killed then finish n (-1) else sleep () ⟨n, rest + 1, h⟩
      else do
        let c ← op (.take (rest + 1 = n))
        if c = ctrl 'D' then finish n (n - (rest + 1 : ℕ))
        else if c = ch '\n' then finish n (n - rest)
        else readLoop n rest (Nat.le_of_succ_le h)

def ttyread (n : ℤ) : Prog Act Unit := do
  sync .acquire
  readLoop n.toNat n.toNat le_rfl

inductive Call where
  -- go on after a sleep
  | awaken
  | read (n : ℤ)
  | intr (cs : List (UInt8 × Option ℕ))
  | kill (q : ℕ)

/-- The program of a thread that is awake: the rest of the call it slept in, a new call, or an
interrupt. -/
def enter (p : ℕ) (k : Call) (s : State Input Unit Job) : Option (Prog Act Unit) :=
  match s.status p, s.job p, k with
  | .awake, some j, .awaken => some (awaken (readLoop j.n j.rest j.le))
  | .awake, none, .read n => some (ttyread n)
  | .awake, none, .intr cs => some (ttyintr cs)
  | .awake, none, .kill q => some (kill q)
  | _, _, _ => none

def Starts (p : ℕ) (s : State Input Unit Job) (c : Prog Act Unit) : Prop := ∃ k, enter p k s = some c

def Input.start (bytes : ℕ → UInt8) : Input := ⟨⟨bytes, 0, 0⟩, 0, []⟩

abbrev Machine := Threads ℕ Act (State Input Unit Job)

/-- A configuration that is reached by steps that `U` allows. -/
abbrev Runs (U : Rules Op Input Unit) (bytes : ℕ → UInt8) (killed : ℕ → Bool) (m : Machine) : Prop :=
  Threads.Reachable (sem run) Starts (Allowed U) (State.start (Input.start bytes) killed) m

section

variable (U : Rules Op Input Unit)
  [∀ β p (a : Act β) (s : State Input Unit Job), Decidable (Allowed U β p a s)]

/-- A schedule that can be taken to its end, where a test succeeds. -/
def played (moves : List (Threads.Move ℕ Call)) (test : Machine → Bool) : Bool :=
  (Threads.play (sem run) (Allowed U) enter moves
    ⟨State.start (Input.start fun _ => 0) fun _ => false, fun _ => none⟩).any test

variable {U}

theorem exists_run {moves : List (Threads.Move ℕ Call)} {test : Machine → Bool}
    (h : played U moves test = true) :
    ∃ m, Runs U (fun _ => 0) (fun _ => false) m ∧ test m = true :=
  Threads.exists_of_play (fun _ k _ _ hc => ⟨k, hc⟩) h

end

end Qwin.Tty
