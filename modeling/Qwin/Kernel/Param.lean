import Qwin.Lib.Bytes

/-!
# Kernel parameters

The constants of `param.h`, `fs.h`, `stat.h` and `mmu.h`, the type of a disk block, and the
ways a kernel path ends without returning: one of the kernel's own `panic` calls, a
sleep that nobody in the run ends, or the end of the calling process.
-/

namespace Qwin

abbrev BSIZE : ℕ := 512
abbrev LOGSIZE : ℕ := 10
abbrev NBUF : ℕ := 10
abbrev NINODE : ℕ := 50
abbrev NFILE : ℕ := 100
abbrev NOFILE : ℕ := 16
abbrev NDEV : ℕ := 10
abbrev NPROC : ℕ := 64
abbrev NDIRECT : ℕ := 12
abbrev NINDIRECT : ℕ := 128
abbrev MAXFILE : ℕ := 140
abbrev IPB : ℕ := 8
abbrev BPB : ℕ := 4096
abbrev DIRSIZ : ℕ := 14
abbrev ROOTDEV : ℕ := 1
abbrev ROOTINO : ℕ := 1
abbrev PGSIZE : ℕ := 4096

abbrev KERNBASE : ℕ := 0x80000000

def pgRoundUp (sz : ℕ) : ℕ := (sz + (PGSIZE - 1)) % 2 ^ 32 / PGSIZE * PGSIZE

abbrev Short := BitVec 16

abbrev T_DIR : Short := 1#16
abbrev T_FILE : Short := 2#16
abbrev T_DEV : Short := 3#16

abbrev Block := Bytes 512

/-- The kernel's `panic` calls, named after their messages. -/
inductive Panic
  | tooBigTransaction  -- `"too big a transaction"`
  | writeOutsideTrans  -- `"write outside of trans"`
  | bwrite  -- `"bwrite"`
  | brelse  -- `"brelse"`
  | bgetNoBuffers  -- `"bget: no buffers"`
  | ballocOutOfBlocks  -- `"balloc: out of blocks"`
  | freeingFreeBlock  -- `"freeing free block"`
  | iallocNoInodes  -- `"ialloc: no inodes"`
  | igetNoInodes  -- `"iget: no inodes"`
  | ilock  -- `"ilock"`
  | ilockNoType  -- `"ilock: no type"`
  | iunlock  -- `"iunlock"`
  | iputBusy  -- `"iput busy"`
  | bmapOutOfRange  -- `"bmap: out of range"`
  | dirlookupNotDir  -- `"dirlookup not DIR"`
  | dirlinkRead  -- `"dirlink read"`
  | dirlink  -- `"dirlink"`
  | isdiremptyReadi  -- `"isdirempty: readi"`
  | unlinkNlink  -- `"unlink: nlink < 1"`
  | unlinkWritei  -- `"unlink: writei"`
  | createDots  -- `"create dots"`
  | createDirlink  -- `"create: dirlink"`
  | filedup  -- `"filedup"`
  | fileclose  -- `"fileclose"`
  | fileread  -- `"fileread"`
  | filewrite  -- `"filewrite"`
  | shortFilewrite  -- `"short filewrite"`
  | initExiting  -- `"init exiting"`
  | remap  -- `"remap"`
  | loaduvmAligned  -- `"loaduvm: addr must be page aligned"`
  | loaduvmExist  -- `"loaduvm: address should exist"`
  | clearpteu  -- `"clearpteu"`
  | kfree  -- `"kfree"`
  | copyuvmPte  -- `"copyuvm: pte should exist"`
  | copyuvmPresent  -- `"copyuvm: page not present"`
  | cantReadDirectory  -- `"can't read directory"`
  | nameOfInode  -- `"could not find name of inode"`
  | cwdNotDir  -- `"process cwd is not a directory"`
  | unknownType  -- `"unknown inode type"`
  deriving DecidableEq, Repr

inductive Stop
  | panic (p : Panic)
  -- the caller sleeps and nothing in the run wakes it
  | sleep
  -- the calling process is a zombie and is never scheduled again
  | exit
  -- the kernel follows a null pointer
  | fault
  deriving DecidableEq, Repr

end Qwin
