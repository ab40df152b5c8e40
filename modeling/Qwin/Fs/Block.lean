import Qwin.Fs.Core
import Qwin.Fs.Layout

/-!
# Blocks and inodes of `fs.c`

The functions of `fs.c` that work on disk blocks, as programs over the steps of the
kernel tables and of the buffer layer. The disk here is what the file system sees
through the buffer cache: a block changed by `log_write` reads back as changed, and
the log of `Qwin.Log` makes it so on the real disk when the transaction commits.

A buffer in use cannot be recycled, nor can one that `log_write` has marked dirty, and
there are `NBUF` of them. The bytes changed through `bp->data` before a `log_write`
are an argument of that step.
-/

namespace Qwin.Fs

open Prog

/-- The size and the block addresses of a `struct inode`. -/
@[ext] structure Extent where
  size : ℕ
  addrs : Fin 13 → ℕ

/-- The kernel tables, the disk and the buffer layer. -/
structure BState where
  core : Core
  disk : ℕ → Block
  -- `log.lh.sector`
  logged : List ℕ
  -- the buffers with `B_BUSY`
  held : List ℕ
  -- `log.size`
  logsize : ℕ
  -- the rest of the inode cache
  extent : ℕ → Extent

/-- The number of buffers that cannot be recycled. -/
def BState.pinned (st : BState) : ℕ := (st.held ++ st.logged).dedup.length

def bootOn (d : ℕ → Block) (oracle : ℕ → ℤ) : BState where
  core := bootCore oracle
  disk := d
  logged := []
  held := []
  logsize := (Superblock.get (d 1)).nlog
  extent _ := ⟨0, fun _ => 0⟩

inductive BlockAct : Type → Type
  | bread (s : ℕ) : BlockAct Block
  -- `log_write` of the buffer of block `s`, whose bytes are now `data`
  | logWrite (s : ℕ) (data : Block) : BlockAct Unit
  | brelse (s : ℕ) : BlockAct Unit
  -- Read `ip->size` and `ip->addrs`.
  | getExtent (ip : ℕ) : BlockAct Extent
  -- Assign them.
  | setExtent (ip : ℕ) (e : Extent) : BlockAct Unit
  -- The moment `bmap` finds a block missing and calls `balloc`.
  | callBalloc : BlockAct Unit

/-- How a program on a whole state ends without returning. -/
inductive End (σ : Type)
  | stop (e : Stop)
  | exited (s : σ)
  -- An assumption under which a run is studied does not hold. No step ends like this.
  | assumed

def End.of {σ : Type} (s : σ) : Stop → End σ
  | .exit => .exited s
  | e => .stop e

def execBlock {β : Type} (a : BlockAct β) (st : BState) :
    Except (End BState) (β × BState) :=
  match a with
  | .bread s =>
    if s ∈ st.held then .error (.stop .sleep)
    else if s ∉ st.logged ∧ NBUF ≤ st.pinned then .error (.stop (.panic .bgetNoBuffers))
    else .ok (st.disk s, { st with held := s :: st.held })
  | .logWrite s data =>
    if LOGSIZE ≤ st.logged.length ∨ st.logsize - 1 ≤ st.logged.length then
      .error (.stop (.panic .tooBigTransaction))
    else if st.core.owner = none then .error (.stop (.panic .writeOutsideTrans))
    -- `log_write` reads the log slot through a buffer of its own
    else if NBUF ≤ st.pinned then .error (.stop (.panic .bgetNoBuffers))
    else .ok ((), { st with
      disk := Function.update st.disk s data
      logged := if s ∈ st.logged then st.logged else st.logged ++ [s] })
  | .brelse s => .ok ((), { st with held := st.held.erase s })
  | .getExtent ip => .ok (st.extent ip, st)
  | .setExtent ip e => .ok ((), { st with extent := Function.update st.extent ip e })
  | .callBalloc => .ok ((), st)

/-- The logged blocks after a step on the kernel tables: a commit empties the log. -/
def CoreAct.logged {β : Type} : CoreAct β → List ℕ → List ℕ
  | .commitTrans, _ => []
  | _, l => l

def execCore (p : ℕ) {β : Type} (a : CoreAct β) (st : BState) :
    Except (End BState) (β × BState) :=
  match st.core.exec p a with
  | .error e => .error (.of st e)
  | .ok (r, c) => .ok (r, { st with core := c, logged := a.logged st.logged })

def blockSem (p : ℕ) : Sem (Plus CoreAct BlockAct) BState (End BState) where
  exec a st :=
    match a with
    | .left a => execCore p a st
    | .right a => execBlock a st

abbrev BProg (α : Type) := Prog (Plus CoreAct BlockAct) α

section Steps

variable {β : Type}

def onCore (a : CoreAct β) : BProg β := perform (.left a)

def bread (s : ℕ) : BProg Block := perform (.right (.bread s))
def logWrite (s : ℕ) (data : Block) : BProg Unit := perform (.right (.logWrite s data))
def brelse (s : ℕ) : BProg Unit := perform (.right (.brelse s))
def getExtent (ip : ℕ) : BProg Extent := perform (.right (.getExtent ip))
def setExtent (ip : ℕ) (e : Extent) : BProg Unit := perform (.right (.setExtent ip e))

end Steps

def readsb : BProg Superblock := do
  let b ← bread 1
  brelse 1
  pure (Superblock.get b)

def bzero (bno : ℕ) : BProg Unit := do
  let _ ← bread bno
  logWrite bno (Bytes.zero 512)
  brelse bno

/-- The inner loop of `balloc`: the first clear bit among the first `n`. -/
def freeBit (b : Block) (n : ℕ) : Option ℕ := (List.range n).find? fun bi => !b.bit bi

def ballocLoop (sb : Superblock) : ℕ → ℕ → BProg ℕ
  | 0, _ => abort (.left (.panic .ballocOutOfBlocks))
  | n + 1, b =>
    if b < sb.size then do
      let bp ← bread (bblock b sb.ninodes)
      match freeBit bp (min BPB (sb.size - b)) with
      | some bi => do
          logWrite (bblock b sb.ninodes) (bp.setBit bi)
          brelse (bblock b sb.ninodes)
          bzero (b + bi)
          pure (b + bi)
      | none => do
          brelse (bblock b sb.ninodes)
          ballocLoop sb n (b + BPB)
    else abort (.left (.panic .ballocOutOfBlocks))

def balloc : BProg ℕ := do
  perform (.right .callBalloc)
  let sb ← readsb
  ballocLoop sb (sb.size / BPB + 1) 0

def bfree (b : ℕ) : BProg Unit := do
  let sb ← readsb
  let bp ← bread (bblock b sb.ninodes)
  if bp.bit (b % BPB) then do
    logWrite (bblock b sb.ninodes) (bp.clearBit (b % BPB))
    brelse (bblock b sb.ninodes)
  else abort (.left (.panic .freeingFreeBlock))

def dinodeOf (i : Inode) (e : Extent) : Dinode where
  type := i.type
  major := i.major
  minor := i.minor
  nlink := i.nlink
  size := e.size
  addrs := e.addrs

def iupdate (ip : ℕ) : BProg Unit := do
  let i ← onCore (.getInode ip)
  let e ← getExtent ip
  let bp ← bread (iblock i.inum)
  logWrite (iblock i.inum) (Dinode.put bp (i.inum % IPB) (dinodeOf i e))
  brelse (iblock i.inum)

/-- The part of `ilock` that reads the inode from the disk. -/
def loadInode (ip : ℕ) : BProg Unit := do
  let i ← onCore (.getInode ip)
  let bp ← bread (iblock i.inum)
  let d := Dinode.get bp (i.inum % IPB)
  onCore (.assign ip (.type d.type))
  onCore (.assign ip (.major d.major))
  onCore (.assign ip (.minor d.minor))
  onCore (.assign ip (.nlink d.nlink))
  setExtent ip ⟨d.size, d.addrs⟩
  brelse (iblock i.inum)

/-- The loop of `ialloc` over the inode numbers from `inum` on. -/
def iallocLoop (type : Short) : ℕ → ℕ → BProg ℕ
  | 0, _ => abort (.left (.panic .iallocNoInodes))
  | n + 1, inum => do
      let bp ← bread (iblock inum)
      if (Dinode.get bp (inum % IPB)).type = 0 then do
        logWrite (iblock inum)
          (Dinode.put bp (inum % IPB) ⟨type, 0, 0, 0, 0, fun _ => 0⟩)
        brelse (iblock inum)
        pure inum
      else do
        brelse (iblock inum)
        iallocLoop type n (inum + 1)

/-- `ialloc` up to its final `iget`. -/
def iallocInum (type : Short) : BProg ℕ := do
  let sb ← readsb
  iallocLoop type (sb.ninodes - 1) 1

def setAddr (ip : ℕ) (e : Extent) (k : Fin 13) (addr : ℕ) : BProg Unit :=
  setExtent ip { e with addrs := Function.update e.addrs k addr }

/-- `ip->addrs[k]`, allocated if it is zero. -/
def bmapAddr (ip : ℕ) (k : Fin 13) : BProg ℕ := do
  let e ← getExtent ip
  if e.addrs k = 0 then do
    let addr ← balloc
    setAddr ip e k addr
    pure addr
  else pure (e.addrs k)

/-- The entry `j` of the indirect block, allocated if it is zero. -/
def bmapEntry (ind j : ℕ) : BProg ℕ := do
  let bp ← bread ind
  if bp.le (4 * j) 4 = 0 then do
    let addr ← balloc
    logWrite ind (bp.putLe (4 * j) 4 addr)
    brelse ind
    pure addr
  else do
    brelse ind
    pure (bp.le (4 * j) 4)

def bmap (ip bn : ℕ) : BProg ℕ :=
  if h : bn < NDIRECT then bmapAddr ip ⟨bn, Nat.lt_succ_of_lt h⟩
  else if bn - NDIRECT < NINDIRECT then do
    let ind ← bmapAddr ip 12
    bmapEntry ind (bn - NDIRECT)
  else abort (.left (.panic .bmapOutOfRange))

/-- The loop of `itrunc` over the direct blocks from `i` on. -/
def truncDirect (ip : ℕ) : ℕ → ℕ → BProg Unit
  | 0, _ => pure ()
  | n + 1, i => do
      let e ← getExtent ip
      if e.addrs (Fin.ofNat 13 i) = 0 then truncDirect ip n (i + 1)
      else do
        bfree (e.addrs (Fin.ofNat 13 i))
        setAddr ip e (Fin.ofNat 13 i) 0
        truncDirect ip n (i + 1)

/-- The loop of `itrunc` over the entries of the indirect block from `j` on. -/
def truncEntries (a : Block) : ℕ → ℕ → BProg Unit
  | 0, _ => pure ()
  | n + 1, j =>
    if a.le (4 * j) 4 = 0 then truncEntries a n (j + 1)
    else do
      bfree (a.le (4 * j) 4)
      truncEntries a n (j + 1)

/-- The part of `itrunc` that frees the indirect block. -/
def truncIndirect (ip : ℕ) : BProg Unit := do
  let e ← getExtent ip
  if e.addrs 12 = 0 then pure ()
  else do
    let bp ← bread (e.addrs 12)
    truncEntries bp NINDIRECT 0
    brelse (e.addrs 12)
    bfree (e.addrs 12)
    setAddr ip e 12 0

def itrunc (ip : ℕ) : BProg Unit := do
  truncDirect ip NDIRECT 0
  truncIndirect ip
  let e ← getExtent ip
  setExtent ip { e with size := 0 }
  iupdate ip

/-- The loop of `readi`: `n` bytes from `off` on. Every pass copies at least one byte,
so `n` passes are enough. -/
def readLoop (ip : ℕ) : ℕ → ℕ → ℕ → BProg (List UInt8)
  | 0, _, _ => pure []
  | fuel + 1, n, off =>
    if n = 0 then pure []
    else do
      let addr ← bmap ip (off / BSIZE)
      let bp ← bread addr
      let m := min n (BSIZE - off % BSIZE)
      brelse addr
      let rest ← readLoop ip fuel (n - m) (off + m)
      pure (bp.slice (off % BSIZE) m ++ rest)

/-- `readi` on a file or a directory: the bytes read, or `none` for `-1`. -/
def readi (ip off n : ℕ) : BProg (Option (List UInt8)) := do
  let e ← getExtent ip
  if e.size < off ∨ (off + n) % 2 ^ 32 < off then pure none
  else do
    let n := if e.size < (off + n) % 2 ^ 32 then e.size - off else n
    let data ← readLoop ip n n off
    pure (some data)

/-- The loop of `writei`, which returns the offset it ends at. -/
def writeLoop (ip : ℕ) : ℕ → List UInt8 → ℕ → BProg ℕ
  | 0, _, off => pure off
  | fuel + 1, src, off =>
    if src = [] then pure off
    else do
      let addr ← bmap ip (off / BSIZE)
      let bp ← bread addr
      let m := min src.length (BSIZE - off % BSIZE)
      logWrite addr (bp.put (off % BSIZE) (src.take m))
      brelse addr
      writeLoop ip fuel (src.drop m) (off + m)

/-- `writei` on a file or a directory: the number of bytes, or `none` for `-1`. -/
def writei (ip off : ℕ) (src : List UInt8) : BProg (Option ℕ) := do
  let e ← getExtent ip
  if e.size < off ∨ (off + src.length) % 2 ^ 32 < off then pure none
  else if MAXFILE * BSIZE < (off + src.length) % 2 ^ 32 then pure none
  else do
    let off' ← writeLoop ip src.length src off
    let e ← getExtent ip
    if 0 < src.length ∧ e.size < off' then do
      setExtent ip { e with size := off' }
      iupdate ip
      pure (some src.length)
    else pure (some src.length)

end Qwin.Fs
