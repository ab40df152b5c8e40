import Qwin.Sys.File

/-!
# The file system calls

The system calls of `sysfile.c`, with `fork` of `proc.c`. The arguments are those the
checks of `syscall.c` let through; a path is `none` when `argstr` rejects it. The calls that
store through a pointer of the process take its memory, with the arguments on its stack, and
return the bytes they stored, each with its address.
-/

namespace Qwin.Sys

open Prog Fs

/-- A path as `argstr` fetches it. -/
abbrev Arg := Option (List UInt8)

def argfd (fd : ℤ) : IProg (Option ℕ) := do
  let x ← core .getProc
  if fd < 0 ∨ NOFILE ≤ fd then pure none else pure (x.ofile fd.toNat)

def fdalloc (f : ℕ) : IProg (Option ℕ) := do
  let x ← core .getProc
  match (List.range NOFILE).find? fun fd => x.ofile fd = none with
  | none => pure none
  | some fd => do
      core (.setOfile fd (some f))
      pure (some fd)

def sysWrite (fd : ℤ) (src : List UInt8) : IProg ℤ := do
  let f ← argfd fd
  match f with
  | none => pure (-1)
  | some f => filewrite f src

def sysClose (fd : ℤ) : IProg ℤ := do
  let f ← argfd fd
  match f with
  | none => pure (-1)
  | some f => do
      core (.setOfile fd.toNat none)
      fileclose f
      pure 0

/-- Assign one field of an inode and write it to the disk. -/
def setNlink (ip : ℕ) (f : Short → Short) : IProg Unit := do
  let i ← core (.getInode ip)
  core (.assign ip (.nlink (f i.nlink)))
  disk (.iupdate ip)

def linkBad (ip : ℕ) : IProg ℤ := do
  ilock ip
  setNlink ip (· - 1)
  iunlockput ip
  core .commitTrans
  pure (-1)

/-- The part of `sys_link` after the directory was found. -/
def linkIn (ip dp : ℕ) (name : List UInt8) : IProg ℤ := do
  ilock dp
  let d ← core (.getInode dp)
  let i ← core (.getInode ip)
  if d.dev ≠ i.dev then do
    iunlockput dp
    linkBad ip
  else do
    let ok ← dirlink dp name i.inum
    if ok then do
      iunlockput dp
      iput ip
      core .commitTrans
      pure 0
    else do
      iunlockput dp
      linkBad ip

def sysLink (old new : Arg) : IProg ℤ :=
  match old, new with
  | some old, some new => do
      let r ← namei (cstring old)
      match r with
      | none => pure (-1)
      | some ip => do
          core .beginTrans
          ilock ip
          let i ← core (.getInode ip)
          if i.type = T_DIR then do
            iunlockput ip
            core .commitTrans
            pure (-1)
          else do
            setNlink ip (· + 1)
            iunlock ip
            let r ← nameiparent (cstring new)
            match r with
            | none => linkBad ip
            | some (dp, name) => linkIn ip dp name
  | _, _ => pure (-1)

def isdiremptyLoop (dp size : ℕ) : ℕ → ℕ → IProg Bool
  | 0, _ => pure true
  | fuel + 1, off =>
    if off < size then do
      let de ← readDirent dp off .isdiremptyReadi
      if de.inum ≠ 0 then pure false else isdiremptyLoop dp size fuel (off + DESIZE)
    else pure true

def isdirempty (dp : ℕ) : IProg Bool := do
  let size ← disk (.size dp)
  isdiremptyLoop dp size (size / DESIZE + 1) (2 * DESIZE)

def unlinkBad (dp : ℕ) : IProg ℤ := do
  iunlockput dp
  core .commitTrans
  pure (-1)

/-- The part of `sys_unlink` that removes the entry at `off` and the link. -/
def unlinkEntry (dp ip off : ℕ) : IProg ℤ := do
  let w ← disk (.writei dp off (List.replicate DESIZE 0))
  if w ≠ some DESIZE then panic .unlinkWritei
  else do
    let i ← core (.getInode ip)
    (if i.type = T_DIR then setNlink dp (· - 1) else pure ())
    iunlockput dp
    setNlink ip (· - 1)
    iunlockput ip
    core .commitTrans
    pure 0

def nonemptyDir (ip : ℕ) : IProg Bool := do
  let i ← core (.getInode ip)
  if i.type = T_DIR then do
    let empty ← isdirempty ip
    pure (!empty)
  else pure false

/-- The part of `sys_unlink` after the entry was found. -/
def unlinkFound (dp ip off : ℕ) : IProg ℤ := do
  ilock ip
  let i ← core (.getInode ip)
  if i.nlink.toInt < 1 then panic .unlinkNlink
  else do
    let full ← nonemptyDir ip
    if full then do
      iunlockput ip
      unlinkBad dp
    else do
      let x ← core .getProc
      let i ← core (.getInode ip)
      if x.uid ≠ 0 ∧ i.uid ≠ x.uid then do
        iunlockput ip
        unlinkBad dp
      else unlinkEntry dp ip off

def sysUnlink : Arg → IProg ℤ
  | none => pure (-1)
  | some path => do
      let r ← nameiparent (cstring path)
      match r with
      | none => pure (-1)
      | some (dp, name) => do
          core .beginTrans
          ilock dp
          if namecmp name dot = 0 ∨ namecmp name dotdot = 0 then unlinkBad dp
          else do
            let r ← dirlookup dp name
            match r with
            | none => unlinkBad dp
            | some (ip, off) => unlinkFound dp ip off

def createDots (dp ip : ℕ) : IProg Unit := do
  setNlink dp (· + 1)
  let i ← core (.getInode ip)
  let ok ← dirlink ip dot i.inum
  if ok then do
    let d ← core (.getInode dp)
    let ok ← dirlink ip dotdot d.inum
    if ok then pure () else panic .createDots
  else panic .createDots

/-- The part of `create` that makes a new inode in the locked directory `dp`. -/
def createNew (dp : ℕ) (name : List UInt8) (type major minor : Short) : IProg (Option ℕ) := do
  let d ← core (.getInode dp)
  let ip ← ialloc d.dev type
  ilock ip
  core (.assign ip (.major major))
  core (.assign ip (.minor minor))
  core (.assign ip (.nlink 1))
  let x ← core .getProc
  core (.assign ip (.uid x.uid))
  disk (.iupdate ip)
  (if type = T_DIR then createDots dp ip else pure ())
  let i ← core (.getInode ip)
  let ok ← dirlink dp name i.inum
  if ok then do
    iunlockput dp
    pure (some ip)
  else panic .createDirlink

def create (path : List UInt8) (type major minor : Short) : IProg (Option ℕ) := do
  let r ← nameiparent path
  match r with
  | none => pure none
  | some (dp, name) => do
      ilock dp
      let r ← dirlookup dp name
      match r with
      | some (ip, _) => do
          iunlockput dp
          ilock ip
          let i ← core (.getInode ip)
          if type = T_FILE ∧ i.type = T_FILE then pure (some ip)
          else do
            iunlockput ip
            pure none
      | none => createNew dp name type major minor

abbrev O_RDONLY : BitVec 32 := 0x000#32
abbrev O_WRONLY : BitVec 32 := 0x001#32
abbrev O_RDWR : BitVec 32 := 0x002#32
abbrev O_CREAT : BitVec 32 := 0x100#32

/-- The first part of `sys_open`: a device is not created. -/
def openMode (path : List UInt8) (omode : BitVec 32) : IProg (BitVec 32) := do
  let r ← namei path
  match r with
  | none => pure omode
  | some ip => do
      ilock ip
      let i ← core (.getInode ip)
      iunlockput ip
      if i.type = T_DEV then pure (omode &&& ~~~O_CREAT) else pure omode

/-- The second part of `sys_open`: the inode, locked. -/
def openInode (path : List UInt8) (omode : BitVec 32) : IProg (Option ℕ) :=
  if omode &&& O_CREAT ≠ 0 then do
    core .beginTrans
    let ip ← create path T_FILE 0 0
    core .commitTrans
    pure ip
  else do
    let r ← namei path
    match r with
    | none => pure none
    | some ip => do
        ilock ip
        let i ← core (.getInode ip)
        if i.type = T_DIR ∧ omode ≠ 0 then do
          iunlockput ip
          pure none
        else pure (some ip)

/-- The last part of `sys_open`: a descriptor for the locked inode. -/
def openFile (ip : ℕ) (omode : BitVec 32) : IProg ℤ := do
  let f ← core .filealloc
  match f with
  | none => do
      iunlockput ip
      pure (-1)
  | some f => do
      let fd ← fdalloc f
      match fd with
      | none => do
          fileclose f
          iunlockput ip
          pure (-1)
      | some fd => do
          iunlock ip
          core (.openFile f ip (omode &&& O_WRONLY = 0)
            (omode &&& O_WRONLY ≠ 0 ∨ omode &&& O_RDWR ≠ 0))
          let x ← core .getProc
          let i ← core (.getInode ip)
          (if x.uid ≠ 0 ∧ i.uid ≠ x.uid then core (.dropWrite f) else pure ())
          pure fd

def sysOpen (path : Arg) (omode : BitVec 32) : IProg ℤ :=
  match path with
  | none => pure (-1)
  | some path => do
      let omode ← openMode (cstring path) omode
      let r ← openInode (cstring path) omode
      match r with
      | none => pure (-1)
      | some ip => openFile ip omode

/-- The body of `sys_mkdir`, `sys_mknod` and `sys_touch`, which differ in what they
create. -/
def sysMake (path : Arg) (type major minor : Short) : IProg ℤ := do
  core .beginTrans
  match path with
  | none => do
      core .commitTrans
      pure (-1)
  | some path => do
      let r ← create (cstring path) type major minor
      match r with
      | none => do
          core .commitTrans
          pure (-1)
      | some ip => do
          iunlockput ip
          core .commitTrans
          pure 0

def sysMkdir (path : Arg) : IProg ℤ := sysMake path T_DIR 0 0

def sysMknod (path : Arg) (major minor : Short) : IProg ℤ := sysMake path T_DEV major minor

def sysTouch (path : Arg) : IProg ℤ := sysMake path T_FILE 0 0

def sysChdir : Arg → IProg ℤ
  | none => pure (-1)
  | some path => do
      let r ← namei (cstring path)
      match r with
      | none => pure (-1)
      | some ip => do
          ilock ip
          let i ← core (.getInode ip)
          if i.type ≠ T_DIR then do
            iunlockput ip
            pure (-1)
          else do
            iunlock ip
            iputCwd
            core (.setCwd (some ip))
            pure 0

/-- The loop of `fork` over the descriptors from `fd` on. -/
def dupFiles : ℕ → ℕ → IProg Unit
  | 0, _ => pure ()
  | n + 1, fd => do
      let x ← core .getProc
      match x.ofile fd with
      | none => dupFiles n (fd + 1)
      | some f => do
          core (.filedup f)
          dupFiles n (fd + 1)

/-- `fork`: the slot of the child. The oracle says whether `copyuvm` finds memory. -/
def fork : IProg (Option ℕ) := do
  let r ← core .allocproc
  match r with
  | none => pure none
  | some np => do
      let copied ← core .ask
      if copied = 0 then do
        core (.forkFail np)
        pure none
      else do
        dupFiles NOFILE 0
        let x ← core .getProc
        match x.cwd with
        | none => abort (.left .fault)
        | some ip => do
            idup ip
            core (.forkCopy np)
            pure (some np)

def sysDup (fd : ℤ) : IProg ℤ := do
  let f ← argfd fd
  match f with
  | none => pure (-1)
  | some f => do
      let r ← fdalloc f
      match r with
      | none => pure (-1)
      | some fd => do
          core (.filedup f)
          pure fd

/-- `pipealloc`: the files for reading and for writing. -/
def pipealloc : IProg (Option (ℕ × ℕ)) := do
  let r ← core .filealloc
  match r with
  | none => pure none
  | some f0 => do
      let r ← core .filealloc
      match r with
      | none => do
          fileclose f0
          pure none
      | some f1 => do
          let r ← core .pipeKalloc
          match r with
          | none => do
              fileclose f0
              fileclose f1
              pure none
          | some i => do
              core (.openPipe f0 i false)
              core (.openPipe f1 i true)
              pure (some (f0, f1))

def sysPipe : IProg (Option (ℕ × ℕ)) := do
  let r ← pipealloc
  match r with
  | none => pure none
  | some (rf, wf) => do
      let r0 ← fdalloc rf
      match r0 with
      | none => do
          fileclose rf
          fileclose wf
          pure none
      | some fd0 => do
          let r1 ← fdalloc wf
          match r1 with
          | none => do
              core (.setOfile fd0 none)
              fileclose rf
              fileclose wf
              pure none
          | some fd1 => pure (some (fd0, fd1))

/-- `sys_lseek`, with the offset as an unsigned number. -/
def sysLseek (fd : ℤ) (offset : ℕ) (base : ℤ) : IProg ℤ := do
  let f ← argfd fd
  match f with
  | none => pure (-1)
  | some f => do
      (if base = 0 then core (.setOff f offset) else pure ())
      (if base = 1 then core (.advance f offset) else pure ())
      pure 0

/-- The loop of `name_of_inode` from `off` on: the name under which the directory has an
inode. The directory is not locked, so its size is looked at again in every pass; `off` is
a 32-bit number, so there are at most `fuel` passes. -/
def nameOfInode (inum parent : ℕ) : ℕ → ℕ → IProg (Option (List UInt8))
  | 0, _ => abort (.left .fault)
  | fuel + 1, off => do
      let size ← disk (.size parent)
      if off < size then do
        let r ← readi parent off DESIZE
        match r with
        | .ok l =>
          if l.length ≠ DESIZE then panic .cantReadDirectory
          else if (Dirent.get l).inum = inum then
            pure (some ((cstring (Dirent.get l).name).take (DIRSIZ - 1)))
          else nameOfInode inum parent fuel (off + DESIZE)
        | .error _ => panic .cantReadDirectory
      else pure none

/-- `safestrcpy`: the bytes it stores when it copies the string `t`. The loop has gone past
the terminating zero when it ends there. -/
def safestrcpy : ℕ → List UInt8 → List UInt8
  | 0, _ => []
  | 1, _ => [0]
  | n + 2, t => if t.headD 0 = 0 then [0, 0] else t.headD 0 :: safestrcpy (n + 1) t.tail

/-- `name_for_inode`, which writes to `buf`: the length of the path and the bytes. It calls
itself for the parent, as often as the kernel stack allows. -/
def nameForInode (buf : BitVec 32) (n : ℤ) : ℕ → ℕ → IProg (ℤ × Stores)
  | 0, _ => abort (.left .fault)
  | depth + 1, ip => do
      let root ← namei [slash]
      match root with
      | none => abort (.left .fault)
      | some root => do
          let i ← core (.getInode ip)
          let r ← core (.getInode root)
          if i.inum = r.inum then pure (1, storesAt buf [slash])
          else if i.type = T_DIR then do
            let parent ← dirlookup ip dotdot
            match parent with
            | none => abort (.left .fault)
            | some (parent, _) => do
                let name ← nameOfInode i.inum parent (2 ^ 28) 0
                match name with
                | none => panic .nameOfInode
                | some name => do
                    let x ← nameForInode buf n depth parent
                    let path := x.2 ++ storesAt (buf + BitVec.ofInt 32 x.1)
                      (safestrcpy (n - x.1).toNat name)
                    let off := x.1 + name.length
                    if off = n - 1 then pure (n, path ++ storesAt (buf + BitVec.ofInt 32 off) [0])
                    else do
                      iput parent
                      pure (off + 1, path ++ storesAt (buf + BitVec.ofInt 32 off) [slash])
          else if i.type = T_DEV ∨ i.type = T_FILE then panic .cwdNotDir
          else panic .unknownType

def sysWait : IProg (Option ℕ) := core .wait

/-! ## The arguments of a process -/

/-- The memory of a process, its size, and the stack pointer of the trap frame. -/
structure User where
  mem : BitVec 32 → UInt8
  sz : BitVec 32
  esp : BitVec 32

namespace User

variable (u : User)

def word (a : BitVec 32) : BitVec 32 :=
  BitVec.ofNat 32 ((u.mem a).toNat + 256 * (u.mem (a + 1)).toNat +
    65536 * (u.mem (a + 2)).toNat + 16777216 * (u.mem (a + 3)).toNat)

def fetchint (addr : BitVec 32) : Option (BitVec 32) :=
  if u.sz ≤ addr ∨ u.sz < addr + 4 then none else some (u.word addr)

/-- `fetchstr`: the pointer, if it is set, and the result. -/
def fetchstr (addr : BitVec 32) : Option (BitVec 32) × ℤ :=
  if u.sz ≤ addr then (none, -1)
  else
    match (List.range (u.sz - addr).toNat).find? fun i => u.mem (addr + BitVec.ofNat 32 i) = 0 with
    | some i => (some addr, i)
    | none => (some addr, -1)

def argint (n : ℕ) : Option (BitVec 32) := u.fetchint (u.esp + 4 + 4 * BitVec.ofNat 32 n)

def argptr (n : ℕ) (size : BitVec 32) : Option (BitVec 32) :=
  match u.argint n with
  | none => none
  | some i => if u.sz ≤ i ∨ u.sz < i + size then none else some i

def argstr (n : ℕ) : Option (BitVec 32) × ℤ :=
  match u.argint n with
  | none => (none, -1)
  | some addr => u.fetchstr addr

end User

/-- The fields that `stati` assigns, at their offsets in `struct stat`. -/
def statiTo (addr : BitVec 32) (i : Inode) (size : ℕ) : Stores :=
  storesAt addr ((bytes32 i.type.toNat).take 2) ++
    storesAt (addr + 4) (bytes32 i.dev ++ bytes32 i.inum ++ (bytes32 i.nlink.toNat).take 2) ++
    storesAt (addr + 16) (bytes32 size)

def filestat (f : ℕ) (addr : BitVec 32) : IProg (ℤ × Stores) := do
  let x ← core (.getFile f)
  match x.type with
  | .inode => do
      ilock x.ip
      let i ← core (.getInode x.ip)
      let size ← disk (.size x.ip)
      iunlock x.ip
      pure (0, statiTo addr i size)
  | _ => pure (-1, [])

namespace User

variable (u : User)

def argfd (n : ℕ) : IProg (Option ℕ) :=
  match u.argint n with
  | none => pure none
  | some fd => Sys.argfd fd.toInt

def sysRead : IProg (ℤ × Stores) := do
  let f ← u.argfd 0
  match f, u.argint 2 with
  | some f, some n =>
    match u.argptr 1 n with
    | some p => fileread f p n
    | none => pure (-1, [])
  | _, _ => pure (-1, [])

abbrev STATSIZE : ℕ := 20

def sysFstat : IProg (ℤ × Stores) := do
  let f ← u.argfd 0
  match f, u.argptr 1 (BitVec.ofNat 32 STATSIZE) with
  | some f, some st => filestat f st
  | _, _ => pure (-1, [])

/-- The buffer and its length, if the checks let them through. -/
def getcwdArgs : Option (BitVec 32 × BitVec 32) :=
  match u.argint 1 with
  | none => none
  | some n =>
    match u.argptr 0 n with
    | none => none
    | some buf => some (buf, n)

/-- `sys_getcwd`, with a kernel stack for `depth` calls of `name_for_inode` -/
def sysGetcwd (depth : ℕ) : IProg (ℤ × Stores) :=
  match u.getcwdArgs with
  | none => pure (-1, [])
  | some (buf, n) => do
      let x ← core .getProc
      match x.cwd with
      | none => abort (.left .fault)
      | some ip => nameForInode buf n.toInt depth ip

end User

end Qwin.Sys
