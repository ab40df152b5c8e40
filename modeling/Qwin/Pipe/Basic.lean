import Qwin.Kernel.Param
import Qwin.Lib.Monitor
import Qwin.Lib.Ring

/-!
# Pipes

`pipe.c` as a monitor: the fields of `struct pipe` are its resource, `p->lock` is its lock and
`ptable.lock` the lock of the table. Every step is one that the code takes under a lock: a test
or an assignment under the lock of the pipe, and one critical section of `ptable.lock`. A
process that goes to sleep ends its program and remembers in its job where it was; when it is
awake again it goes on from there. `kfree` disposes of the pipe.

`stored` and `taken` are a record of the bytes that went through the pipe.
-/

namespace Qwin.Pipe

open Prog Monitor

abbrev PIPESIZE : ℕ := 512

/-- The channels that are slept on: `&p->nread` and `&p->nwrite`. -/
inductive Chan
  | nread | nwrite
  deriving DecidableEq

/-- The call in which a process sleeps, with what is left of it. -/
inductive Job
  | write (rest : List UInt8) (n : ℤ)
  | read (n : ℤ)

/-- What a call returns when it releases the lock for the last time. -/
inductive Return
  | wrote (n : ℤ)
  -- `pipewrite` returned `-1` from its loop
  | gaveUp
  -- `piperead` of `n` bytes returned `i`
  | read (n i : ℤ)
  | closed

structure Buffer where
  -- `data`, `nread` and `nwrite`
  ring : Ring UInt8 32
  readopen : Bool
  writeopen : Bool
  stored : List UInt8
  taken : List UInt8

structure View where
  nread : BitVec 32
  nwrite : BitVec 32
  readopen : Bool
  writeopen : Bool

def Buffer.view (b : Buffer) : View := ⟨b.ring.rd, b.ring.wr, b.readopen, b.writeopen⟩

def View.Empty (v : View) : Prop := v.nread = v.nwrite

def View.Full (v : View) : Prop := v.nwrite = v.nread + BitVec.ofNat 32 PIPESIZE

instance (v : View) : Decidable v.Empty := inferInstanceAs (Decidable (_ = _))

instance (v : View) : Decidable v.Full := inferInstanceAs (Decidable (_ = _))

inductive Op : Type → Type
  | look : Op View
  -- `p->data[p->nwrite++ % PIPESIZE] = c`
  | put (c : UInt8) : Op Unit
  -- `p->data[p->nread++ % PIPESIZE]`
  | take : Op UInt8
  -- `p->writeopen = 0` or `p->readopen = 0`
  | close (writable : Bool) : Op Unit
  -- what the call returns, before its last `release`
  | ret (r : Return) : Op Unit

def run (β : Type) (o : Op β) (b : Buffer) : β × Buffer :=
  match o with
  | .look => (b.view, b)
  | .put c => ((), { b with ring := b.ring.push PIPESIZE c, stored := b.stored ++ [c] })
  | .take => (b.ring.front PIPESIZE,
      { b with ring := b.ring.pop, taken := b.taken ++ [b.ring.front PIPESIZE] })
  | .close true => ((), { b with writeopen := false })
  | .close false => ((), { b with readopen := false })
  | .ret _ => ((), b)

abbrev Act := Plus Op (Sync Chan Job)

/-! ## The code -/

def finish (r : Return) : Prog Act Unit := do
  op (.ret r)
  sync .release

def givesUp (v : View) : Prog Act Bool := if v.readopen then sync .killed else pure true

/-- The loop of `pipewrite` with the bytes that are left of `n`. -/
def writeLoop (n : ℤ) : List UInt8 → Prog Act Unit
  | [] => do
      wakeup .nread
      finish (.wrote n)
  | c :: rest => do
      let v ← op .look
      if v.Full then do
        let stop ← givesUp v
        if stop then finish .gaveUp
        else do
          wakeup .nread
          sleep .nwrite (.write (c :: rest) n)
      else do
        op (.put c)
        writeLoop n rest

def pipewrite (addr : ℕ → UInt8) (n : ℤ) : Prog Act Unit := do
  sync .acquire
  writeLoop n ((List.range n.toNat).map addr)

/-- The second loop of `piperead` when `i` bytes of `n` have been copied. -/
def copyLoop (n : ℤ) : ℕ → ℤ → Prog Act Unit
  | 0, i => do
      wakeup .nwrite
      finish (.read n i)
  | m + 1, i => do
      let v ← op .look
      if v.Empty then do
        wakeup .nwrite
        finish (.read n i)
      else do
        let _ ← op .take
        copyLoop n m (i + 1)

def readLoop (n : ℤ) : Prog Act Unit := do
  let v ← op .look
  if v.Empty ∧ v.writeopen = true then do
    let stop ← sync .killed
    if stop then finish (.read n (-1))
    else sleep .nread (.read n)
  else copyLoop n n.toNat 0

def piperead (n : ℤ) : Prog Act Unit := do
  sync .acquire
  readLoop n

def pipeclose (writable : Bool) : Prog Act Unit := do
  sync .acquire
  op (.close writable)
  wakeup (if writable then .nread else .nwrite)
  let v ← op .look
  if v.readopen = false ∧ v.writeopen = false then do
    finish .closed
    sync .dispose
  else finish .closed

/-- The rest of a call in which a process slept. -/
def Job.rest : Job → Prog Act Unit
  | .write rest n => writeLoop n rest
  | .read n => readLoop n

inductive Call
  -- go on after a sleep
  | awaken
  | write (addr : ℕ → UInt8) (n : ℤ)
  | read (n : ℤ)
  | close (writable : Bool)
  | kill (q : ℕ)

/-- The program of a process that is awake: it goes on with the call it slept in, or enters
one. -/
def enter (p : ℕ) (k : Call) (s : State Buffer Chan Job) : Option (Prog Act Unit) :=
  match s.status p, s.job p, k with
  | .awake, some j, .awaken => some (awaken j.rest)
  | .awake, none, .write addr n => some (pipewrite addr n)
  | .awake, none, .read n => some (piperead n)
  | .awake, none, .close w => some (pipeclose w)
  | .awake, none, .kill q => some (kill q)
  | _, _, _ => none

def Starts (p : ℕ) (s : State Buffer Chan Job) (c : Prog Act Unit) : Prop :=
  ∃ k, enter p k s = some c

/-- The pipe as `pipealloc` makes it, and processes that have not used it. The bytes of
the page are whatever they are, and so is who has been killed. -/
def initial (bytes : ℕ → UInt8) (killed : ℕ → Bool) : State Buffer Chan Job :=
  State.start ⟨⟨bytes, 0, 0⟩, true, true, [], []⟩ killed

abbrev Machine := Threads ℕ Act (State Buffer Chan Job)

/-- A configuration that processes in pipe calls reach, when `G` allows all their steps. -/
abbrev Runs (G : (β : Type) → ℕ → Act β → State Buffer Chan Job → Prop) (bytes : ℕ → UInt8)
    (killed : ℕ → Bool) (m : Machine) : Prop :=
  Threads.Reachable (sem run) Starts G (initial bytes killed) m

section

variable (G : (β : Type) → ℕ → Act β → State Buffer Chan Job → Prop)
  [∀ β p (a : Act β) s, Decidable (G β p a s)]

/-- A schedule that can be taken to its end, where a test succeeds. -/
def played (moves : List (Threads.Move ℕ Call)) (test : Machine → Bool) : Bool :=
  (Threads.play (sem run) G enter moves
    ⟨initial (fun _ => 0) fun _ => false, fun _ => none⟩).any test

variable {G}

theorem exists_run {moves : List (Threads.Move ℕ Call)} {test : Machine → Bool}
    (h : played G moves test = true) :
    ∃ m, Runs G (fun _ => 0) (fun _ => false) m ∧ test m = true :=
  Threads.exists_of_play (fun _ k _ _ hc => ⟨k, hc⟩) h

end

end Qwin.Pipe
