import Qwin.Fs.Node

/-!
# Inodes, directories and paths

The rest of `fs.c`: locking and releasing inodes, directory entries, and the walk along
a path. A C string is the list of its bytes before the terminating zero.
-/

namespace Qwin.Fs

open Prog

variable {α β : Type}

def core (a : CoreAct β) : IProg β := perform (.left a)

def disk (a : DiskAct β) : IProg β := perform (.right a)

def panic (q : Panic) : IProg α := abort (.left (.panic q))

/-! ## Inodes -/

def iget (dev inum : ℕ) : IProg ℕ := core (.iget dev inum)

def idup (ip : ℕ) : IProg Unit := core (.idup ip)

def ilock (ip : ℕ) : IProg Unit := do
  core (.lockInode ip)
  let i ← core (.getInode ip)
  if i.valid then pure ()
  else do
    disk (.load ip)
    let i ← core (.getInode ip)
    if i.type = 0 then panic .ilockNoType else pure ()

def iunlock (ip : ℕ) : IProg Unit := core (.iunlock ip)

def iput (ip : ℕ) : IProg Unit := do
  let free ← core (.iputBegin ip)
  if free then do
    disk (.free ip)
    core (.iputEnd ip)
  else pure ()

def iunlockput (ip : ℕ) : IProg Unit := do
  iunlock ip
  iput ip

def ialloc (dev : ℕ) (type : Short) : IProg ℕ := do
  let inum ← disk (.ialloc type)
  iget dev inum

/-! ## Strings -/

def strncmp : List UInt8 → List UInt8 → ℕ → ℤ
  | _, _, 0 => 0
  | p, q, n + 1 =>
    if p.headD 0 ≠ 0 ∧ p.headD 0 = q.headD 0 then strncmp p.tail q.tail n
    else ((p.headD 0).toNat : ℤ) - (q.headD 0).toNat

def namecmp (s t : List UInt8) : ℤ := strncmp s t DIRSIZ

/-- The bytes of a string before its terminating zero. -/
def cstring (s : List UInt8) : List UInt8 := s.takeWhile (· ≠ 0)

/-- `strncpy`: the `n` bytes it stores. -/
def strncpy (t : List UInt8) (n : ℕ) : List UInt8 :=
  (cstring t).take n ++ List.replicate (n - (cstring t).length) 0

def dot : List UInt8 := [46]

def dotdot : List UInt8 := [46, 46]

/-! ## Directory entries -/

structure Dirent where
  inum : ℕ
  name : List UInt8

/-- The entry that 16 bytes of a directory hold. -/
def Dirent.get (l : List UInt8) : Dirent where
  inum := (l.getD 0 0).toNat + 256 * (l.getD 1 0).toNat
  name := l.drop 2

def Dirent.bytes (inum : ℕ) (name : List UInt8) : List UInt8 :=
  UInt8.ofNat inum :: UInt8.ofNat (inum / 256) :: strncpy name DIRSIZ

/-- `sizeof(struct dirent)` -/
abbrev DESIZE : ℕ := 16

/-- Read the entry at `off`; a short read is the panic `q`. -/
def readDirent (dp off : ℕ) (q : Panic) : IProg Dirent := do
  let r ← disk (.readi dp off DESIZE)
  match r with
  | some l => if l.length = DESIZE then pure (Dirent.get l) else panic q
  | none => panic q

/-- The loop of `dirlookup` from `off` on: the offset and the inode number of the entry
with this name. -/
def lookupLoop (dp : ℕ) (name : List UInt8) (size : ℕ) : ℕ → ℕ → IProg (Option (ℕ × ℕ))
  | 0, _ => pure none
  | fuel + 1, off =>
    if off < size then do
      let de ← readDirent dp off .dirlinkRead
      if de.inum = 0 then lookupLoop dp name size fuel (off + DESIZE)
      else if namecmp name de.name = 0 then pure (some (off, de.inum))
      else lookupLoop dp name size fuel (off + DESIZE)
    else pure none

/-- `dirlookup`: the inode and the offset of its entry. -/
def dirlookup (dp : ℕ) (name : List UInt8) : IProg (Option (ℕ × ℕ)) := do
  let d ← core (.getInode dp)
  if d.type ≠ T_DIR then panic .dirlookupNotDir
  else do
    let size ← disk (.size dp)
    let r ← lookupLoop dp name size (size / DESIZE + 1) 0
    match r with
    | none => pure none
    | some (off, inum) => do
        let ip ← iget d.dev inum
        pure (some (ip, off))

/-- The loop of `dirlink` from `off` on: the offset of the first free entry, or the end
of the directory. -/
def emptyLoop (dp size : ℕ) : ℕ → ℕ → IProg ℕ
  | 0, off => pure off
  | fuel + 1, off =>
    if off < size then do
      let de ← readDirent dp off .dirlinkRead
      if de.inum = 0 then pure off
      else emptyLoop dp size fuel (off + DESIZE)
    else pure off

/-- `dirlink`: whether the entry was written. -/
def dirlink (dp : ℕ) (name : List UInt8) (inum : ℕ) : IProg Bool := do
  let r ← dirlookup dp name
  match r with
  | some (ip, _) => do
      iput ip
      pure false
  | none => do
      let size ← disk (.size dp)
      let off ← emptyLoop dp size (size / DESIZE + 1) 0
      let w ← disk (.writei dp off (Dirent.bytes inum name))
      if w = some DESIZE then pure true else panic .dirlink

/-! ## Paths -/

abbrev slash : UInt8 := 47

/-- `skipelem`: the next element of a path and what follows it. -/
def skipelem (path : List UInt8) : Option (List UInt8 × List UInt8) :=
  let path := path.dropWhile (· = slash)
  if path = [] then none
  else some ((path.takeWhile (· ≠ slash)).take DIRSIZ,
    (path.dropWhile (· ≠ slash)).dropWhile (· = slash))

/-- The elements `skipelem` takes off a path one after the other. Each is at least one
byte long, so the length of the path is enough fuel. -/
def elements : ℕ → List UInt8 → List (List UInt8)
  | 0, _ => []
  | fuel + 1, path =>
    match skipelem path with
    | none => []
    | some (name, path) => name :: elements fuel path

/-- The loop of `namex`: the inode and the last element looked at. -/
def namexLoop (nameiparent : Bool) : List (List UInt8) → ℕ → IProg (Option (ℕ × List UInt8))
  | [], ip =>
    if nameiparent then do
      iput ip
      pure none
    else pure (some (ip, []))
  | name :: path, ip => do
      ilock ip
      let i ← core (.getInode ip)
      if i.type ≠ T_DIR then do
        iunlockput ip
        pure none
      else if nameiparent ∧ path = [] then do
        iunlock ip
        pure (some (ip, name))
      else do
        let next ← dirlookup ip name
        match next with
        | none => do
            iunlockput ip
            pure none
        | some (next, _) => do
            iunlockput ip
            namexLoop nameiparent path next

def startOf (path : List UInt8) : IProg ℕ :=
  if path.head? = some slash then iget ROOTDEV ROOTINO
  else do
    let x ← core .getProc
    match x.cwd with
    | some ip => do
        idup ip
        pure ip
    | none => abort (.left .fault)

def namex (path : List UInt8) (nameiparent : Bool) : IProg (Option (ℕ × List UInt8)) := do
  let ip ← startOf path
  namexLoop nameiparent (elements path.length path) ip

def namei (path : List UInt8) : IProg (Option ℕ) := do
  let r ← namex path false
  pure (r.map Prod.fst)

def nameiparent (path : List UInt8) : IProg (Option (ℕ × List UInt8)) := namex path true

end Qwin.Fs
