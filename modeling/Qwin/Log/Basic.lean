import Qwin.Kernel.Param
import Qwin.Lib.Prog

/-!
# The redo log of `log.c`

The log sits on top of the buffer cache of `bio.c`. The disk is a function from
sectors to blocks and a write of one sector is atomic; the cache, the in-memory
log header and `log.busy` are volatile. Each function of `log.c` is a program over
the buffer operations, so that a power failure can fall between any two of them.

The cache may recycle a buffer that is neither busy nor dirty whenever a sector is
not cached. Which ones go is not the log's business, so the semantics takes the
choice as a parameter: at time `t` the buffers `k` with `recycle t k` are given up.
-/

namespace Qwin.Log


/-- `struct buf`, as far as the cache contents go. A cached buffer is `B_VALID`. -/
structure Buf where
  data : Block
  busy : Bool
  dirty : Bool

/-- The disk and the volatile state above it. `lh` holds the first `n` sector
numbers of the in-memory header and `tick` counts the actions performed. -/
structure State where
  disk : ℕ → Block
  cache : ℕ → Option Buf
  lh : List ℕ
  busy : Bool
  tick : ℕ

/-- Where `initlog` puts the log: `log.start` and `log.size`. -/
structure Geometry where
  start : ℕ
  size : ℕ
  size_pos : 0 < size

inductive Act : Type → Type
  -- `bread`: the buffer of a sector, locked.
  | bread (s : ℕ) : Act Block
  -- The holder of a buffer changes its data.
  | store (s : ℕ) (data : Block) : Act Unit
  -- `bwrite`: one atomic write of a sector.
  | bwrite (s : ℕ) : Act Unit
  -- `brelse`
  | brelse (s : ℕ) : Act Unit
  -- `b->flags |= B_DIRTY`
  | setDirty (s : ℕ) : Act Unit
  -- Read `log.lh`.
  | getLh : Act (List ℕ)
  -- Change `log.lh`.
  | setLh (l : List ℕ) : Act Unit
  -- Read `log.busy`.
  | getBusy : Act Bool
  -- The critical section of `begin_trans`.
  | takeBusy : Act Unit
  -- The critical section of `commit_trans`.
  | dropBusy : Act Unit
  -- A call of `panic`.
  | panic (p : Panic) : Act Unit

/-- The cache after buffers that are neither busy nor dirty were given up. -/
def recycled (recycle : ℕ → Bool) (c : ℕ → Option Buf) : ℕ → Option Buf := fun k =>
  match c k with
  | none => none
  | some b => if !b.busy && !b.dirty && recycle k then none else some b

/-- One step of the log code on the disk and the cache. -/
def exec (recycle : ℕ → ℕ → Bool) {β : Type} (a : Act β) (st : State) :
    Except Stop (β × State) :=
  match a with
  | .bread s =>
    match st.cache s with
    | some b =>
      if b.busy then .error .sleep
      else .ok (b.data, { st with
        cache := Function.update st.cache s (some { b with busy := true })
        tick := st.tick + 1 })
    | none =>
      .ok (st.disk s, { st with
        cache := Function.update (recycled (recycle st.tick) st.cache) s
          (some ⟨st.disk s, true, false⟩)
        tick := st.tick + 1 })
  | .store s data =>
    match st.cache s with
    | some b => .ok ((), { st with
        cache := Function.update st.cache s (some { b with data := data })
        tick := st.tick + 1 })
    | none => .error (.panic .bwrite)
  | .bwrite s =>
    match st.cache s with
    | some b =>
      if b.busy then .ok ((), { st with
        disk := Function.update st.disk s b.data
        cache := Function.update st.cache s (some { b with dirty := false })
        tick := st.tick + 1 })
      else .error (.panic .bwrite)
    | none => .error (.panic .bwrite)
  | .brelse s =>
    match st.cache s with
    | some b =>
      if b.busy then .ok ((), { st with
        cache := Function.update st.cache s (some { b with busy := false })
        tick := st.tick + 1 })
      else .error (.panic .brelse)
    | none => .error (.panic .brelse)
  | .setDirty s =>
    match st.cache s with
    | some b => .ok ((), { st with
        cache := Function.update st.cache s (some { b with dirty := true })
        tick := st.tick + 1 })
    | none => .error (.panic .bwrite)
  | .getLh => .ok (st.lh, { st with tick := st.tick + 1 })
  | .setLh l => .ok ((), { st with lh := l, tick := st.tick + 1 })
  | .getBusy => .ok (st.busy, { st with tick := st.tick + 1 })
  | .takeBusy =>
    if st.busy then .error .sleep
    else .ok ((), { st with busy := true, tick := st.tick + 1 })
  | .dropBusy => .ok ((), { st with busy := false, tick := st.tick + 1 })
  | .panic p => .error (.panic p)

def sem (recycle : ℕ → ℕ → Bool) : Sem Act State Stop where
  exec := exec recycle

/-! ## The header block -/

/-- `lh->n` of a header block, as a loop bound: a negative `int` runs no loop. -/
def headerN (b : Block) : ℕ :=
  if b.le 0 4 < 2 ^ 31 then b.le 0 4 else 0

def headerSectors (b : Block) : List ℕ :=
  (List.range (headerN b)).map fun i => b.le (4 * (i + 1)) 4

/-- `hb->sector[i] = ...` for the given sectors from index `i` on. -/
def putSectors (b : Block) : ℕ → List ℕ → Block
  | _, [] => b
  | i, s :: l => putSectors (b.putLe (4 * (i + 1)) 4 s) (i + 1) l

/-- The header block `write_head` makes out of the old one. -/
def putHeader (b : Block) (l : List ℕ) : Block :=
  putSectors (b.putLe 0 4 l.length) 0 l

/-! ## The functions of `log.c` -/

open Prog

variable (g : Geometry)

/-- The loop of `install_trans` from index `tail` on. -/
def installFrom : ℕ → List ℕ → Prog Act Unit
  | _, [] => pure ()
  | tail, s :: l => do
      let lbuf ← perform (.bread (g.start + tail + 1))
      let _ ← perform (.bread s)
      perform (.store s lbuf)
      perform (.bwrite s)
      perform (.brelse (g.start + tail + 1))
      perform (.brelse s)
      installFrom (tail + 1) l

/-- `install_trans`: copy committed blocks from the log to their home location. -/
def installTrans : Prog Act Unit := do
  let l ← perform .getLh
  installFrom g 0 l

/-- `read_head`: read the log header from disk into the in-memory log header. -/
def readHead : Prog Act Unit := do
  let buf ← perform (.bread g.start)
  perform (.setLh (headerSectors buf))
  perform (.brelse g.start)

/-- `write_head`: write the in-memory log header to disk. -/
def writeHead : Prog Act Unit := do
  let buf ← perform (.bread g.start)
  let l ← perform .getLh
  perform (.store g.start (putHeader buf l))
  perform (.bwrite g.start)
  perform (.brelse g.start)

def recoverFromLog : Prog Act Unit := do
  readHead g
  installTrans g
  perform (.setLh [])
  writeHead g

def beginTrans : Prog Act Unit := perform .takeBusy

/-- The part of `commit_trans` that writes: the header, which is the real commit, the
blocks at home, and the empty header. -/
def commitRecord : Prog Act Unit := do
  writeHead g
  installTrans g
  perform (.setLh [])
  writeHead g

def commitTrans : Prog Act Unit := do
  let l ← perform .getLh
  if 0 < l.length then commitRecord g else pure ()
  perform .dropBusy

/-- The part of `log_write` after its two checks: the block goes to the slot `i` of
its sector in the header `l`, or to the next free slot. -/
def logAppend (s : ℕ) (data : Block) (l : List ℕ) (i : ℕ) : Prog Act Unit := do
  let _ ← perform (.bread (g.start + i + 1))
  perform (.store (g.start + i + 1) data)
  perform (.bwrite (g.start + i + 1))
  perform (.brelse (g.start + i + 1))
  perform (.setLh (if i = l.length then l ++ [s] else l))
  perform (.setDirty s)

/-- `log_write` of the buffer of sector `s`, whose data the caller has changed to
`data`. -/
def logWrite (s : ℕ) (data : Block) : Prog Act Unit := do
  let l ← perform .getLh
  if LOGSIZE ≤ l.length ∨ g.size - 1 ≤ l.length then
    perform (.panic .tooBigTransaction)
  else do
    let busy ← perform .getBusy
    if busy then logAppend g s data l (l.idxOf s)
    else perform (.panic .writeOutsideTrans)

/-- The use of `log_write` its comment gives: read the sector, change the data, log
it, release it. -/
def update (s : ℕ) (data : Block) : Prog Act Unit := do
  let _ ← perform (.bread s)
  perform (.store s data)
  logWrite g s data
  perform (.brelse s)

abbrev Trans := List (ℕ × Block)

def updates : Trans → Prog Act Unit
  | [] => pure ()
  | w :: t => do
      update g w.1 w.2
      updates t

def transaction (t : Trans) : Prog Act Unit := do
  beginTrans
  updates g t
  commitTrans g

def transactions : List Trans → Prog Act Unit
  | [] => pure ()
  | t :: ts => do
      transaction g t
      transactions ts

/-- The state after a restart: the disk survives, everything else is fresh. -/
def restart (disk : ℕ → Block) : State where
  disk := disk
  cache := fun _ => none
  lh := []
  busy := false
  tick := 0

end Qwin.Log
