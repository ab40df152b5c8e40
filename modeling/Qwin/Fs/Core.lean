import Qwin.Lib.Prog
import Qwin.Proc.Table

/-!
# Kernel tables of the file system

The tables in memory that the file-system calls share: the inode cache of `fs.c`, the
file table of `file.c`, the process table, and the owner of the transaction of
`log.c`. `CoreAct` lists the atomic steps on them, most of them the body of one
critical section. An inode, a file, a pipe and a process are named by their index.

`log.busy` is a flag; the model keeps who set it. What depends on memory, on devices
or on pipes is answered by an oracle that is part of the state.
-/

namespace Qwin.Fs

open Function (update update_of_ne update_self update_idem)

/-- `struct inode` without its size and block addresses. -/
structure Inode where
  dev : ℕ
  inum : ℕ
  ref : ℤ
  -- `flags & I_BUSY`
  busy : Bool
  -- `flags & I_VALID`
  valid : Bool
  uid : ℤ
  type : Short
  major : Short
  minor : Short
  nlink : Short

/-- An assignment to one field of a locked inode. -/
inductive Assign
  | type (v : Short)
  | major (v : Short)
  | minor (v : Short)
  | nlink (v : Short)
  | uid (v : ℤ)

def Inode.assign (i : Inode) : Assign → Inode
  | .type v => { i with type := v }
  | .major v => { i with major := v }
  | .minor v => { i with minor := v }
  | .nlink v => { i with nlink := v }
  | .uid v => { i with uid := v }

inductive FdType
  | none | pipe | inode
  deriving DecidableEq

/-- `struct file`, where `ip` is an index into the inode cache and `pipe` the number of a
pipe. -/
structure File where
  type : FdType
  ref : ℤ
  readable : Bool
  writable : Bool
  pipe : ℕ
  ip : ℕ
  off : ℕ

/-- What `pipealloc` and `pipeclose` touch of a pipe, and how often its page was given to
`kfree`. -/
structure PipeEnds where
  readopen : Bool
  writeopen : Bool
  frees : ℕ

def PipeEnds.close (x : PipeEnds) : Bool → PipeEnds
  | true => { x with writeopen := false }
  | false => { x with readopen := false }

def PipeEnds.closed (x : PipeEnds) : Bool := !x.readopen && !x.writeopen

structure Core where
  inode : ℕ → Inode
  file : ℕ → File
  -- the pipes in the order in which they were made, and how many there are
  pipe : ℕ → PipeEnds
  npipe : ℕ
  pt : Ptable
  -- the process that set `log.busy`
  owner : Option ℕ
  oracle : ℕ → ℤ
  tick : ℕ

namespace Core

def setInode (c : Core) (ip : ℕ) (i : Inode) : Core :=
  { c with inode := update c.inode ip i }

@[simp] theorem setInode_inode_self (c : Core) (ip : ℕ) (x : Inode) :
    (c.setInode ip x).inode ip = x := update_self _ _ _

theorem setInode_inode_of_ne {c : Core} {ip q : ℕ} (h : q ≠ ip) (x : Inode) :
    (c.setInode ip x).inode q = c.inode q := update_of_ne h _ _

@[simp] theorem setInode_setInode (c : Core) (ip : ℕ) (x y : Inode) :
    (c.setInode ip x).setInode ip y = c.setInode ip y := by
  simp [setInode, update_idem]

def setFile (c : Core) (f : ℕ) (x : File) : Core :=
  { c with file := update c.file f x }

@[simp] theorem setFile_file_self (c : Core) (f : ℕ) (x : File) :
    (c.setFile f x).file f = x := update_self _ _ _

theorem setFile_file_of_ne {c : Core} {f g : ℕ} (h : g ≠ f) (x : File) :
    (c.setFile f x).file g = c.file g := update_of_ne h _ _

def setPipe (c : Core) (i : ℕ) (x : PipeEnds) : Core :=
  { c with pipe := update c.pipe i x }

/-- The entry `iget` finds for an inode that is cached. -/
def cachedSlot (c : Core) (dev inum : ℕ) : Option ℕ :=
  (List.range NINODE).find? fun i =>
    0 < (c.inode i).ref ∧ (c.inode i).dev = dev ∧ (c.inode i).inum = inum

/-- The entry `iget` recycles for an inode that is not. -/
def emptySlot (c : Core) : Option ℕ :=
  (List.range NINODE).find? fun i => (c.inode i).ref = 0

def freeFile (c : Core) : Option ℕ :=
  (List.range NFILE).find? fun f => (c.file f).ref = 0

end Core

inductive CoreAct : Type → Type
  -- `iget`
  | iget (dev inum : ℕ) : CoreAct ℕ
  -- `idup`
  | idup (ip : ℕ) : CoreAct Unit
  -- `ilock` up to the point where the caller has set `I_BUSY`
  | lockInode (ip : ℕ) : CoreAct Unit
  -- `ip->flags |= I_VALID`
  | setValid (ip : ℕ) : CoreAct Unit
  -- `iunlock`
  | iunlock (ip : ℕ) : CoreAct Unit
  -- The first critical section of `iput`: whether the inode is to be freed.
  | iputBegin (ip : ℕ) : CoreAct Bool
  -- The last critical section of `iput` when the inode was freed.
  | iputEnd (ip : ℕ) : CoreAct Unit
  -- Read the fields of an inode.
  | getInode (ip : ℕ) : CoreAct Inode
  -- Assign a field of an inode.
  | assign (ip : ℕ) (a : Assign) : CoreAct Unit
  -- `begin_trans`
  | beginTrans : CoreAct Unit
  -- `commit_trans`
  | commitTrans : CoreAct Unit
  -- Read `*proc`.
  | getProc : CoreAct Proc
  -- `proc->cwd = ip`
  | setCwd (ip : Option ℕ) : CoreAct Unit
  -- `proc->ofile[fd] = f`
  | setOfile (fd : ℕ) (f : Option ℕ) : CoreAct Unit
  -- `filealloc`
  | filealloc : CoreAct (Option ℕ)
  -- `filedup`
  | filedup (f : ℕ) : CoreAct Unit
  -- The critical section of `fileclose`: the file as it was if this was the last
  -- reference.
  | fileDrop (f : ℕ) : CoreAct (Option File)
  -- Read `*f`.
  | getFile (f : ℕ) : CoreAct File
  -- `sys_open` fills in the file it allocated.
  | openFile (f ip : ℕ) (readable writable : Bool) : CoreAct Unit
  -- `f->writable = 0`
  | dropWrite (f : ℕ) : CoreAct Unit
  -- `f->off += r`
  | advance (f : ℕ) (r : ℕ) : CoreAct Unit
  -- `f->off = off`
  | setOff (f off : ℕ) : CoreAct Unit
  -- `device_t[major].enabled`, asked for by `readi` or `writei` of an inode
  | deviceEnabled (ip major : ℕ) : CoreAct Bool
  -- `pipealloc` gets a page, if there is one, and makes it a pipe.
  | pipeKalloc : CoreAct (Option ℕ)
  -- `pipealloc` fills in the file for one end.
  | openPipe (f i : ℕ) (writable : Bool) : CoreAct Unit
  -- The critical section of `pipeclose`: whether both ends are closed.
  | pipeclose (i : ℕ) (writable : Bool) : CoreAct Bool
  -- `kfree` of the page of a pipe
  | pipeKfree (i : ℕ) : CoreAct Unit
  -- `wait`: the slot of the child it collected
  | wait : CoreAct (Option ℕ)
  -- `allocproc`, told by the oracle whether there is memory
  | allocproc : CoreAct (Option ℕ)
  -- `fork` gives the slot back when `copyuvm` fails.
  | forkFail (np : ℕ) : CoreAct Unit
  -- `fork` fills in the slot of the child.
  | forkCopy (np : ℕ) : CoreAct Unit
  -- The end of `exit`, after the files and the current directory are gone.
  | exitProc : CoreAct Unit
  -- Something outside the model: memory, a device, a pipe.
  | ask : CoreAct ℤ
  -- `proc == initproc`
  | isInit : CoreAct Bool
  -- A call of `panic`.
  | panic (p : Panic) : CoreAct Empty
  -- The process is never scheduled again.
  | halt : CoreAct Empty
  -- A null pointer is followed.
  | fault : CoreAct Empty

namespace Core

variable (p : ℕ)

def exec {β : Type} (a : CoreAct β) (c : Core) : Except Stop (β × Core) :=
  match a with
  | .iget dev inum =>
    match c.cachedSlot dev inum with
    | some ip =>
      .ok (ip, c.setInode ip { c.inode ip with ref := (c.inode ip).ref + 1 })
    | none =>
      match c.emptySlot with
      | some ip => .ok (ip, c.setInode ip { c.inode ip with
          dev := dev, inum := inum, ref := 1, busy := false, valid := false })
      | none => .error (.panic .igetNoInodes)
  | .idup ip => .ok ((), c.setInode ip { c.inode ip with ref := (c.inode ip).ref + 1 })
  | .lockInode ip =>
    if (c.inode ip).ref < 1 then .error (.panic .ilock)
    else if (c.inode ip).busy then .error .sleep
    else .ok ((), c.setInode ip { c.inode ip with busy := true })
  | .setValid ip => .ok ((), c.setInode ip { c.inode ip with valid := true })
  | .iunlock ip =>
    if (c.inode ip).busy = false ∨ (c.inode ip).ref < 1 then .error (.panic .iunlock)
    else .ok ((), c.setInode ip { c.inode ip with busy := false })
  | .iputBegin ip =>
    if (c.inode ip).ref = 1 ∧ (c.inode ip).valid = true ∧ (c.inode ip).nlink = 0 then
      if (c.inode ip).busy then .error (.panic .iputBusy)
      else .ok (true, c.setInode ip { c.inode ip with busy := true })
    else .ok (false, c.setInode ip { c.inode ip with ref := (c.inode ip).ref - 1 })
  | .iputEnd ip =>
    .ok ((), c.setInode ip { c.inode ip with
      busy := false, valid := false, ref := (c.inode ip).ref - 1 })
  | .getInode ip => .ok (c.inode ip, c)
  | .assign ip a => .ok ((), c.setInode ip ((c.inode ip).assign a))
  | .beginTrans =>
    match c.owner with
    | some _ => .error .sleep
    | none => .ok ((), { c with owner := some p })
  | .commitTrans => .ok ((), { c with owner := none })
  | .getProc => .ok (c.pt.proc p, c)
  | .setCwd ip => .ok ((), { c with pt := c.pt.modify p fun x => { x with cwd := ip } })
  | .setOfile fd f =>
    .ok ((), { c with pt := c.pt.modify p fun x =>
      { x with ofile := update x.ofile fd f } })
  | .filealloc =>
    match c.freeFile with
    | some f => .ok (some f, c.setFile f { c.file f with ref := 1 })
    | none => .ok (none, c)
  | .filedup f =>
    if (c.file f).ref < 1 then .error (.panic .filedup)
    else .ok ((), c.setFile f { c.file f with ref := (c.file f).ref + 1 })
  | .fileDrop f =>
    if (c.file f).ref < 1 then .error (.panic .fileclose)
    else if 0 < (c.file f).ref - 1 then
      .ok (none, c.setFile f { c.file f with ref := (c.file f).ref - 1 })
    else .ok (some (c.file f), c.setFile f { c.file f with ref := 0, type := .none })
  | .getFile f => .ok (c.file f, c)
  | .openFile f ip readable writable =>
    .ok ((), c.setFile f { c.file f with
      type := .inode, ip := ip, off := 0, readable := readable, writable := writable })
  | .dropWrite f => .ok ((), c.setFile f { c.file f with writable := false })
  | .advance f r =>
    .ok ((), c.setFile f { c.file f with off := ((c.file f).off + r) % 2 ^ 32 })
  | .setOff f off => .ok ((), c.setFile f { c.file f with off := off })
  -- the devices that `main` enables are the terminal, `null` and `zero`
  | .deviceEnabled _ major => .ok (decide (major = 1 ∨ major = 2 ∨ major = 3), c)
  | .pipeKalloc =>
    if c.oracle c.tick ≠ 0 then
      .ok (some c.npipe, { c with
        pipe := update c.pipe c.npipe ⟨true, true, 0⟩
        npipe := c.npipe + 1
        tick := c.tick + 1 })
    else .ok (none, { c with tick := c.tick + 1 })
  | .openPipe f i writable =>
    .ok ((), c.setFile f { c.file f with
      type := .pipe, pipe := i, readable := !writable, writable := writable })
  | .pipeclose i writable =>
    .ok (((c.pipe i).close writable).closed, c.setPipe i ((c.pipe i).close writable))
  | .pipeKfree i => .ok ((), c.setPipe i { c.pipe i with frees := (c.pipe i).frees + 1 })
  | .wait =>
    if (c.pt.zombieChild p).isSome then
      .ok ((c.pt.wait p).1, { c with pt := (c.pt.wait p).2 })
    else if c.pt.haveKids p ∧ (c.pt.proc p).killed = false then .error .sleep
    else .ok (none, c)
  | .allocproc =>
    .ok ((c.pt.allocproc (c.oracle c.tick ≠ 0)).1,
      { c with pt := (c.pt.allocproc (c.oracle c.tick ≠ 0)).2, tick := c.tick + 1 })
  | .forkFail np =>
    .ok ((), { c with pt := c.pt.modify np fun x => { x with state := .unused } })
  | .forkCopy np => .ok ((), { c with pt := c.pt.forkCopy p np })
  | .exitProc =>
    match c.pt.exit p with
    | .ok pt => .ok ((), { c with pt := pt })
    | .error e => .error e
  | .ask => .ok (c.oracle c.tick, { c with tick := c.tick + 1 })
  | .isInit => .ok (decide (p = c.pt.initproc), c)
  | .panic q => .error (.panic q)
  | .halt => .error .exit
  | .fault => .error .fault

end Core

def zeroInode : Inode := ⟨0, 0, 0, false, false, 0, 0, 0, 0, 0⟩

/-- The kernel after `userinit`: one process, whose current directory is the root. -/
def bootCore (oracle : ℕ → ℤ) : Core where
  inode ip := if ip = 0 then { zeroInode with dev := ROOTDEV, inum := ROOTINO, ref := 1 }
    else zeroInode
  file _ := ⟨.none, 0, false, false, 0, 0, 0⟩
  pipe _ := ⟨false, false, 0⟩
  npipe := 0
  pt := ⟨fun i => if i = 0 then { Proc.zero with state := .runnable, pid := 1, cwd := some 0 }
    else Proc.zero, 0, 2⟩
  owner := none
  oracle := oracle
  tick := 0

end Qwin.Fs
