import Qwin.Lib.Threads
import Qwin.Proc.Table

/-!
# Processors, sleeping and the life of a process

The process table together with the processors that run its processes. An event is what
one processor does, or an interrupt, while it holds `ptable.lock`; `fork` gives the lock
up after `allocproc` has taken a slot and goes on without it, so it is several events. A
process that does not run remembers in `context` where its kernel stack goes on when the
scheduler picks it: `scheduler` then still holds the lock, and `wait` keeps it for its next
pass over the table.

`forker` is a record of who made a process.
-/

namespace Qwin.Sched

open Function (update)

/-- What processes sleep on: a `struct proc`, or something else. -/
inductive Chan
  | proc (i : ℕ)
  | other (n : ℕ)
  deriving DecidableEq

/-- Where a process goes on after `swtch`: in user space, in `sleep`, or in the `sleep` of
`wait`. -/
inductive Context
  | user | sleep | wait
  deriving DecidableEq

structure State where
  table : Ptable
  -- `p->chan`
  chan : ℕ → Option Chan
  context : ℕ → Context
  -- the slot that a process in `fork` has taken, and whether it is its parent already
  forking : ℕ → Option (ℕ × Bool)
  -- `cpus[c].proc`
  cpu : ℕ → Option ℕ
  -- `current_proc`
  current : Option ℕ
  forker : ℕ → Option ℕ

namespace State

abbrev proc (s : State) (i : ℕ) : Proc := s.table.proc i

abbrev initproc (s : State) : ℕ := s.table.initproc

def modify (s : State) (i : ℕ) (f : Proc → Proc) : State :=
  { s with table := s.table.modify i f }

def setState (s : State) (i : ℕ) (x : ProcState) : State :=
  s.modify i fun p => { p with state := x }

/-- `sched` on processor `c`: back in `scheduler`, the processor has no process. -/
def sched (s : State) (c : ℕ) : State := { s with cpu := update s.cpu c none }

def sleep (s : State) (c p : ℕ) (ch : Chan) (k : Context) : State :=
  sched { s.setState p .sleeping with
    chan := update s.chan p (some ch)
    context := update s.context p k } c

def woken (s : State) (ch : Option Chan) (i : ℕ) : Proc :=
  if (s.proc i).state = .sleeping ∧ s.chan i = ch then { s.proc i with state := .runnable }
  else s.proc i

def wakeup1 (s : State) (ch : Option Chan) : State :=
  { s with table := { s.table with proc := s.woken ch } }

def killTarget (s : State) (pid : ℤ) : Option ℕ :=
  (List.range NPROC).find? fun i => (s.proc i).pid = pid

def kill (s : State) (pid : ℤ) : ℤ × State :=
  (if (s.killTarget pid).isSome then 0 else -1, { s with table := s.table.kill pid })

/-- The passes of `wait` over the table, up to the one after which it sleeps or returns. -/
def waitLoop (s : State) (c p : ℕ) : Option ℤ × State :=
  match s.table.zombieChild p with
  | some i => (some (s.proc i).pid, { s with
      table := (s.table.wait p).2
      context := update s.context p .user })
  | none =>
    if s.table.haveKids p = false ∨ (s.proc p).killed = true then
      (some (-1), { s with context := update s.context p .user })
    else (none, s.sleep c p (.proc p) .wait)

/-- `scheduler` on processor `c` runs process `i`, which goes on until it releases
`ptable.lock`. -/
def pick (s : State) (c i : ℕ) : Option ℤ × State :=
  let s := { s.setState i .running with
    cpu := update s.cpu c (some i)
    current := some i }
  match s.context i with
  | .user => (none, s)
  | .sleep => (none, { s with
      chan := update s.chan i none
      context := update s.context i .user })
  | .wait => { s with chan := update s.chan i none }.waitLoop c i

/-- `allocproc` of process `p`, up to the release of `ptable.lock` -/
def fork (s : State) (p : ℕ) : State :=
  match s.table.allocproc true with
  | (none, _) => s
  | (some np, t) => { s with
      table := t
      forking := update s.forking p (some (np, false)) }

/-- `kalloc` or `copyuvm` failed -/
def forkFail (s : State) (p np : ℕ) : State :=
  { s.setState np .unused with forking := update s.forking p none }

def forkLink (s : State) (p np : ℕ) : State :=
  { s.modify np (fun q => { q with parent := some p }) with
    context := update s.context np .user
    forking := update s.forking p (some (np, true))
    forker := update s.forker np (some p) }

/-- The rest of `fork`, with `np->state = RUNNABLE` -/
def forkDone (s : State) (p np : ℕ) : State :=
  { s with
    table := s.table.forkCopy p np
    forking := update s.forking p none }

/-- Whether `exit` finds a child that is a zombie. -/
def zombieKid (s : State) (p : ℕ) : Bool :=
  (List.range NPROC).any fun i => (s.proc i).parent = some p ∧ (s.proc i).state = .zombie

def exitWakeups (s : State) (p : ℕ) : State :=
  let s1 := s.wakeup1 ((s.proc p).parent.map .proc)
  if s.zombieKid p then s1.wakeup1 (some (.proc s.initproc)) else s1

/-- `exit` after it gave up its files; `none` if it panics -/
def exit (s : State) (c p : ℕ) : Option State :=
  match (s.exitWakeups p).table.exit p with
  | .error _ => none
  | .ok t => some ({ s.exitWakeups p with table := t }.sched c)

end State

/-- What a processor does next, or an interrupt. -/
inductive Event
  | pick (c i : ℕ)
  | yield (c : ℕ)
  | sleep (c n : ℕ)
  | wakeup (ch : Chan)
  | kill (pid : ℤ)
  | killcur
  | fork (c : ℕ)
  | forkFail (c : ℕ)
  | forkLink (c : ℕ)
  | forkDone (c : ℕ)
  | exit (c : ℕ)
  | wait (c : ℕ)

/-- The state after an event, with what `wait` or `kill` returned, if the event can
happen. The process of a processor that is inside `fork` does nothing else. -/
def step (s : State) : Event → Option (Option ℤ × State)
  | .pick c i =>
    if s.cpu c = none ∧ i < NPROC ∧ (s.proc i).state = .runnable then some (s.pick c i)
    else none
  | .yield c => (s.cpu c).map fun p => (none, (s.setState p .runnable).sched c)
  | .sleep c n =>
    match s.cpu c with
    | none => none
    | some p => if s.forking p = none then some (none, s.sleep c p (.other n) .sleep) else none
  | .wakeup ch => some (none, s.wakeup1 (some ch))
  | .kill pid => some (some (s.kill pid).1, (s.kill pid).2)
  | .killcur => s.current.map fun i =>
    (some (s.kill (s.proc i).pid).1, (s.kill (s.proc i).pid).2)
  | .fork c =>
    match s.cpu c with
    | none => none
    | some p => if s.forking p = none then some (none, s.fork p) else none
  | .forkFail c =>
    match s.cpu c with
    | none => none
    | some p =>
      match s.forking p with
      | some (np, false) => some (none, s.forkFail p np)
      | _ => none
  | .forkLink c =>
    match s.cpu c with
    | none => none
    | some p =>
      match s.forking p with
      | some (np, false) => some (none, s.forkLink p np)
      | _ => none
  | .forkDone c =>
    match s.cpu c with
    | none => none
    | some p =>
      match s.forking p with
      | some (np, true) => some (none, s.forkDone p np)
      | _ => none
  | .exit c =>
    match s.cpu c with
    | none => none
    | some p => if s.forking p = none then (s.exit c p).map fun s' => (none, s') else none
  | .wait c =>
    match s.cpu c with
    | none => none
    | some p => if s.forking p = none then some (s.waitLoop c p) else none

/-- What an event can do. -/
inductive Took (s : State) : Event → Option ℤ → State → Prop
  | pick {c i : ℕ} {r : Option ℤ} {s' : State} (hc : s.cpu c = none)
      (hi : (s.proc i).state = .runnable) (hp : s.pick c i = (r, s')) : Took s (.pick c i) r s'
  | yield {c p : ℕ} (hc : s.cpu c = some p) :
      Took s (.yield c) none ((s.setState p .runnable).sched c)
  | sleep {c p n : ℕ} (hc : s.cpu c = some p) :
      Took s (.sleep c n) none (s.sleep c p (.other n) .sleep)
  | wakeup {ch : Chan} : Took s (.wakeup ch) none (s.wakeup1 (some ch))
  | kill {pid : ℤ} : Took s (.kill pid) (some (s.kill pid).1) (s.kill pid).2
  | killcur {i : ℕ} (hi : s.current = some i) :
      Took s .killcur (some (s.kill (s.proc i).pid).1) (s.kill (s.proc i).pid).2
  | fork {c p : ℕ} (hc : s.cpu c = some p) : Took s (.fork c) none (s.fork p)
  | forkFail {c p np : ℕ} (hf : s.forking p = some (np, false)) :
      Took s (.forkFail c) none (s.forkFail p np)
  | forkLink {c p np : ℕ} (hf : s.forking p = some (np, false)) :
      Took s (.forkLink c) none (s.forkLink p np)
  | forkDone {c p np : ℕ} (hf : s.forking p = some (np, true)) :
      Took s (.forkDone c) none (s.forkDone p np)
  | exit {c p : ℕ} {s' : State} (hc : s.cpu c = some p) (hf : s.forking p = none)
      (hx : s.exit c p = some s') : Took s (.exit c) none s'
  | wait {c p : ℕ} {r : Option ℤ} {s' : State} (hc : s.cpu c = some p)
      (hw : s.waitLoop c p = (r, s')) : Took s (.wait c) r s'

theorem took_of_step {s s' : State} {e : Event} {r : Option ℤ} (hs : step s e = some (r, s')) :
    Took s e r s' := by
  cases e <;> simp only [step, Option.map_eq_some_iff] at hs <;> (repeat' split at hs) <;>
    try cases hs
  case pick.isTrue hg => exact .pick hg.1 hg.2.2 (Option.some.inj hs)
  case yield.intro hp =>
    cases hp.2
    exact .yield hp.1
  case killcur.intro hp =>
    cases hp.2
    exact .killcur hp.1
  any_goals constructor <;> assumption
  next hc hf =>
    rw [Option.map_eq_some_iff] at hs
    obtain ⟨s1, hx, hp⟩ := hs
    cases hp
    exact .exit hc hf hx
  next hc _ => exact .wait hc (Option.some.inj hs)

/-- After `userinit`, before the processors enter `scheduler`. -/
def boot : State where
  table := Ptable.boot
  chan _ := none
  context _ := .user
  forking _ := none
  cpu _ := none
  current := none
  forker _ := none

/-- One event that `G` admits. -/
def Next (G : State → Event → Prop) (s s' : State) : Prop :=
  ∃ e r, G s e ∧ step s e = some (r, s')

/-- A state that events lead to, when `G` admits every one of them. -/
abbrev Reachable (G : State → Event → Prop) (s : State) : Prop :=
  Relation.ReflTransGen (Next G) boot s

variable (G : State → Event → Prop) [∀ s e, Decidable (G s e)]

def next (s : State) (e : Event) : Option State :=
  if G s e then (step s e).map Prod.snd else none

/-- The state that a list of events leads to, if they can happen and `G` admits them. -/
def play (es : List Event) (s : State) : Option State := es.foldlM (next G) s

variable {G}

theorem exists_of_play {es : List Event} {test : State → Bool}
    (h : (play G es boot).any test = true) : ∃ s, Reachable G s ∧ test s = true := by
  refine exists_of_foldlM (fun s e s' hnext => ?_) h
  rw [next] at hnext
  split at hnext
  next hG =>
    obtain ⟨⟨r, _⟩, hs, rfl⟩ := Option.map_eq_some_iff.1 hnext
    exact .single ⟨e, r, hG, hs⟩
  · cases hnext

end Qwin.Sched
