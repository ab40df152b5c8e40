import Qwin.Fs.Dir

/-!
# `mkfs`

The program that makes the disk image: `mkfs.c` over the sectors of the image file and the
counters it keeps. A sector is read only if the file has it, and writing a sector makes
the file at least as long. The program ends early when an `assert` or a read fails.

An input file is its name on the command line and what the calls of `read` return for it.
-/

namespace Qwin.Mkfs

open Prog Fs

abbrev nblocks : ℕ := 1970
abbrev nlog : ℕ := LOGSIZE
abbrev ninodes : ℕ := 200
abbrev size : ℕ := 2009
abbrev bitblocks : ℕ := size / (512 * 8) + 1

/-- How the program ends before it is done. -/
inductive Exit
  | assert
  | read

/-- The image file and the counters of the program. -/
structure Image where
  sect : ℕ → Block
  nsect : ℕ
  freeblock : ℕ
  usedblocks : ℕ
  freeinode : ℕ

inductive Act : Type → Type
  | rsect (sec : ℕ) : Act Block
  | wsect (sec : ℕ) (buf : Block) : Act Unit
  -- `usedblocks = n; freeblock = usedblocks`
  | layout (n : ℕ) : Act Unit
  -- `freeblock++` and `usedblocks++`
  | nextBlock : Act ℕ
  -- `freeinode++`
  | nextInode : Act ℕ
  -- Read `usedblocks`.
  | used : Act ℕ
  | assert (b : Bool) : Act Unit

def exec {β : Type} (a : Act β) (s : Image) : Except Exit (β × Image) :=
  match a with
  | .rsect sec => if sec < s.nsect then .ok (s.sect sec, s) else .error .read
  | .wsect sec buf => .ok ((), { s with
      sect := Function.update s.sect sec buf, nsect := max s.nsect (sec + 1) })
  | .layout n => .ok ((), { s with usedblocks := n, freeblock := n })
  | .nextBlock => .ok (s.freeblock, { s with
      freeblock := s.freeblock + 1, usedblocks := s.usedblocks + 1 })
  | .nextInode => .ok (s.freeinode, { s with freeinode := s.freeinode + 1 })
  | .used => .ok (s.usedblocks, s)
  | .assert b => if b then .ok ((), s) else .error .assert

def sem : Sem Act Image Exit where
  exec := exec

abbrev MProg (α : Type) := Prog Act α

def rsect (sec : ℕ) : MProg Block := perform (.rsect sec)
def wsect (sec : ℕ) (buf : Block) : MProg Unit := perform (.wsect sec buf)
def assert (b : Bool) : MProg Unit := perform (.assert b)

/-! ## Inodes -/

def i2b (inum : ℕ) : ℕ := inum / IPB + 2

def winode (inum : ℕ) (ip : Dinode) : MProg Unit := do
  let buf ← rsect (i2b inum)
  wsect (i2b inum) (Dinode.put buf (inum % IPB) ip)

def rinode (inum : ℕ) : MProg Dinode := do
  let buf ← rsect (i2b inum)
  pure (Dinode.get buf (inum % IPB))

def ialloc (type : Short) : MProg ℕ := do
  let inum ← perform .nextInode
  winode inum ⟨type, 0, 0, 1, 0, fun _ => 0⟩
  pure inum

/-! ## Files -/

/-- Store the next free block as address `k` of an inode. -/
def newAddr (din : Dinode) (k : Fin 13) : MProg Dinode := do
  let b ← perform .nextBlock
  pure { din with addrs := Function.update din.addrs k b }

theorem lt_naddrs {n : ℕ} (h : n < NDIRECT) : n < 13 := Nat.lt_succ_of_lt h

/-- The part of `iappend` that finds block `fbn` of a file, or adds it. -/
def fileSector (din : Dinode) (fbn : ℕ) : MProg (Dinode × ℕ) :=
  if h : fbn < NDIRECT then do
    let din ←
      if din.addrs ⟨fbn, lt_naddrs h⟩ = 0 then newAddr din ⟨fbn, lt_naddrs h⟩
      else pure din
    pure (din, din.addrs ⟨fbn, lt_naddrs h⟩)
  else do
    let din ← if din.addrs 12 = 0 then newAddr din 12 else pure din
    let indirect ← rsect (din.addrs 12)
    if indirect.le (4 * (fbn - NDIRECT)) 4 = 0 then do
      let b ← perform .nextBlock
      wsect (din.addrs 12) (indirect.putLe (4 * (fbn - NDIRECT)) 4 b)
      pure (din, b)
    else pure (din, indirect.le (4 * (fbn - NDIRECT)) 4)

/-- The loop of `iappend`, with the bytes that are left. Every pass takes at least one of
them, so their number is enough fuel. -/
def appendLoop : ℕ → Dinode → ℕ → List UInt8 → MProg (Dinode × ℕ)
  | 0, din, off, _ => pure (din, off)
  | fuel + 1, din, off, p =>
    if p = [] then pure (din, off)
    else do
      assert (off / BSIZE < MAXFILE)
      let (din, x) ← fileSector din (off / BSIZE)
      let n1 := min p.length ((off / BSIZE + 1) * BSIZE - off)
      let buf ← rsect x
      wsect x (buf.put (off - off / BSIZE * BSIZE) (p.take n1))
      appendLoop fuel din (off + n1) (p.drop n1)

def iappend (inum : ℕ) (p : List UInt8) : MProg Unit := do
  let din ← rinode inum
  let (din, off) ← appendLoop p.length din din.size p
  winode inum { din with size := off }

/-! ## The bitmap -/

def bitmap (used : ℕ) : Block := (List.range used).foldl Bytes.setBit (Bytes.zero 512)

def balloc (used : ℕ) : MProg Unit := do
  assert (used < 512 * 8)
  wsect (ninodes / IPB + 3) (bitmap used)

/-! ## The program -/

def str (s : String) : List UInt8 := s.toList.map fun c => UInt8.ofNat c.toNat

def superblock : Block :=
  (Bytes.zero 512).putAll 0 [(4, size), (4, nblocks), (4, ninodes), (4, nlog)]

def zeroes : ℕ → MProg Unit
  | 0 => pure ()
  | n + 1 => do
      zeroes n
      wsect n (Bytes.zero 512)

def adddir (name : List UInt8) (parino : ℕ) : MProg ℕ := do
  let inum ← ialloc T_DIR
  iappend parino (Dirent.bytes inum name)
  iappend inum (Dirent.bytes inum dot)
  iappend inum (Dirent.bytes parino dotdot)
  pure inum

/-- An input file: its name on the command line, and the bytes of one `read` after the
other. -/
structure Input where
  name : List UInt8
  reads : List (List UInt8)
  reads_ne : ∀ c ∈ reads, c ≠ []
  reads_le : ∀ c ∈ reads, c.length ≤ 512

def Input.bytes (f : Input) : List UInt8 := f.reads.flatten

structure Dirs where
  bin : ℕ
  etc : ℕ
  home : ℕ
  sbin : ℕ

/-- The directory a file goes to, and its name there: a leading `_`, `!` or `.` is taken
off. -/
def Dirs.place (d : Dirs) (name : List UInt8) : ℕ × List UInt8 :=
  if name.headD 0 = 95 then (d.bin, name.tail)
  else if name.headD 0 = 33 then (d.sbin, name.tail)
  else if name.headD 0 = 46 then (d.home, name.tail)
  else (d.etc, name)

def copy (inum : ℕ) : List (List UInt8) → MProg Unit
  | [] => pure ()
  | buf :: reads => do
      iappend inum buf
      copy inum reads

def addFiles (d : Dirs) : List Input → MProg Unit
  | [] => pure ()
  | f :: files => do
      let inum ← ialloc T_FILE
      iappend (d.place f.name).1 (Dirent.bytes inum (d.place f.name).2)
      copy inum f.reads
      addFiles d files

def addDirs (rootino : ℕ) : MProg Dirs := do
  let binino ← adddir (str "bin") rootino
  let _ ← adddir (str "dev") rootino
  let etcino ← adddir (str "etc") rootino
  let homeino ← adddir (str "root") rootino
  let _ ← adddir (str "proc") rootino
  let sbinino ← adddir (str "sbin") rootino
  let usrino ← adddir (str "usr") rootino
  let _ ← adddir (str "bin") usrino
  let _ ← adddir (str "share") usrino
  let localino ← adddir (str "local") usrino
  let _ ← adddir (str "bin") localino
  let _ ← adddir (str "sbin") usrino
  let _ ← adddir (str "sbin") localino
  pure ⟨binino, etcino, homeino, sbinino⟩

/-- Make the size of the root directory a number of whole blocks. -/
def roundRoot (rootino : ℕ) : MProg Unit := do
  let din ← rinode rootino
  winode rootino { din with size := (din.size / BSIZE + 1) * BSIZE }

def prepare : MProg Unit := do
  perform (.layout (ninodes / IPB + 3 + bitblocks))
  let usedblocks ← perform .used
  assert (nblocks + usedblocks + nlog = size)
  zeroes (nblocks + usedblocks + nlog)
  wsect 1 superblock

/-- The part of `main` that makes the root directory. -/
def makeRoot : MProg ℕ := do
  let rootino ← ialloc T_DIR
  assert (rootino = ROOTINO)
  iappend rootino (Dirent.bytes rootino dot)
  iappend rootino (Dirent.bytes rootino dotdot)
  pure rootino

def main (files : List Input) : MProg Unit := do
  prepare
  let rootino ← makeRoot
  let dirs ← addDirs rootino
  addFiles dirs files
  roundRoot rootino
  let usedblocks ← perform .used
  balloc usedblocks

def start : Image := ⟨fun _ => Bytes.zero 512, 0, 0, 0, 1⟩

/-- `mkfs` on a list of input files: the finished image, or how it ended early. -/
def mkfs (files : List Input) : Except Exit Image := ((main files).run sem start).map Prod.snd

end Qwin.Mkfs
