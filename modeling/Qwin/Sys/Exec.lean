import Qwin.Sys.Call

/-!
# `exec`

`exec.c` and `loaduvm` of `vm.c`, over the file system and the steps that `exec` takes
on the page directory it builds. Addresses and sizes are 32-bit numbers; where the C
code adds two of them, the sum is taken modulo `2 ^ 32`.
-/

namespace Qwin

abbrev MAXARG : ℕ := 32
abbrev ELF_MAGIC : ℕ := 0x464C457F
abbrev ELF_PROG_LOAD : ℕ := 1

namespace Sys

open Prog Fs

/-- The steps on the page directory that `exec` builds. -/
inductive VmAct : Type → Type
  -- `setupkvm`: whether there was memory
  | setupkvm : VmAct Bool
  -- `allocuvm`: the new size, or 0
  | allocuvm (oldsz newsz : ℕ) : VmAct ℕ
  -- `walkpgdir` without allocation, and `PTE_ADDR` of the entry
  | walk (va : ℕ) : VmAct (Option ℕ)
  -- `readi` puts bytes of the file at the physical address it was given.
  | store (pa : ℕ) (bytes : List UInt8) : VmAct Unit
  -- `clearpteu`: whether there is an entry
  | clearpteu (va : ℕ) : VmAct Bool
  -- `copyout`: whether it succeeded
  | copyout (va : ℕ) (bytes : List UInt8) : VmAct Bool
  -- `freevm`
  | freevm : VmAct Unit
  -- The process gets the page directory, and the old one is freed.
  | commit (sz entry sp : ℕ) : VmAct Unit

/-- Programs over the file system and a page directory. -/
abbrev EProg (α : Type) := Prog (Plus (Plus CoreAct DiskAct) VmAct) α

def fs {α : Type} (c : IProg α) : EProg α := c.handle fun _ a => perform (.left a)

def vm {β : Type} (a : VmAct β) : EProg β := perform (.right a)

/-- The number in the `n` bytes at `o`, least significant byte first. -/
def leAt (l : List UInt8) (o : ℕ) : ℕ → ℕ
  | 0 => 0
  | n + 1 => (l.getD o 0).toNat + 256 * leAt l (o + 1) n

/-- The fields of `struct elfhdr` that `exec` reads. -/
structure Elfhdr where
  magic : ℕ
  entry : ℕ
  phoff : ℕ
  phnum : ℕ

/-- `sizeof(struct elfhdr)` and `sizeof(struct proghdr)` -/
abbrev ELFSIZE : ℕ := 52
abbrev PHSIZE : ℕ := 32

def Elfhdr.get (l : List UInt8) : Elfhdr := ⟨leAt l 0 4, leAt l 24 4, leAt l 28 4, leAt l 44 2⟩

/-- The fields of `struct proghdr` that `exec` reads. -/
structure Proghdr where
  type : ℕ
  off : ℕ
  vaddr : ℕ
  filesz : ℕ
  memsz : ℕ

def Proghdr.get (l : List UInt8) : Proghdr :=
  ⟨leAt l 0 4, leAt l 4 4, leAt l 8 4, leAt l 16 4, leAt l 20 4⟩

/-- The loop of `loaduvm` from `i` on: whether everything was read. -/
def loadPages (ip vaddr offset sz : ℕ) : ℕ → ℕ → EProg Bool
  | 0, _ => pure true
  | fuel + 1, i =>
    if i < sz then do
      let pte ← vm (.walk ((vaddr + i) % 2 ^ 32))
      match pte with
      | none => fs (panic .loaduvmExist)
      | some pa => do
          let r ← fs (readi ip ((offset + i) % 2 ^ 32) (min (sz - i) PGSIZE))
          match r with
          | .error _ => pure false
          | .ok l => do
              vm (.store pa l)
              if l.length = min (sz - i) PGSIZE then
                loadPages ip vaddr offset sz fuel (i + PGSIZE)
              else pure false
    else pure true

def loaduvm (ip vaddr offset sz : ℕ) : EProg Bool :=
  if vaddr % PGSIZE ≠ 0 then fs (panic .loaduvmAligned)
  else loadPages ip vaddr offset sz (sz / PGSIZE + 1) 0

/-- The loop of `exec` over `n` program headers from `off` on: the size of the image. -/
def loadSegments (ip : ℕ) : ℕ → ℕ → ℕ → EProg (Option ℕ)
  | 0, _, sz => pure (some sz)
  | n + 1, off, sz => do
      let r ← fs (readi ip (off % 2 ^ 32) PHSIZE)
      if readResult r ≠ PHSIZE then pure none
      else do
        let ph := Proghdr.get (r.toOption.getD [])
        if ph.type ≠ ELF_PROG_LOAD then loadSegments ip n (off + PHSIZE) sz
        else if ph.memsz < ph.filesz then pure none
        else do
          let sz ← vm (.allocuvm sz ((ph.vaddr + ph.memsz) % 2 ^ 32))
          if sz = 0 then pure none
          else do
            let ok ← loaduvm ip ph.vaddr ph.off ph.filesz
            if ok then loadSegments ip n (off + PHSIZE) sz else pure none

/-- The loop of `exec` over the arguments: the stack pointer and the addresses of the
strings. -/
def pushArgs : List (List UInt8) → ℕ → ℕ → EProg (Option (ℕ × List ℕ))
  | [], _, sp => pure (some (sp, []))
  | arg :: argv, argc, sp =>
    if MAXARG ≤ argc then pure none
    else do
      let sp := (sp + 2 ^ 32 - (arg.length + 1)) % 2 ^ 32 / 4 * 4
      let ok ← vm (.copyout sp (arg ++ [0]))
      if ok then do
        let r ← pushArgs argv (argc + 1) sp
        pure (r.map fun x => (x.1, sp :: x.2))
      else pure none

/-- `ustack` as `exec` fills it, for `argc` arguments. -/
def ustack (argc sp : ℕ) (argv : List ℕ) : List UInt8 :=
  ((0xffffffff :: argc :: (sp + 2 ^ 32 - (argc + 1) * 4) % 2 ^ 32 :: argv) ++ [0]).flatMap bytes32

/-- The part of `exec` after the segments are loaded and the inode is released. -/
def execStack (entry sz : ℕ) (argv : List (List UInt8)) : EProg ℤ := do
  let sz ← vm (.allocuvm (pgRoundUp sz) ((pgRoundUp sz + 2 * PGSIZE) % 2 ^ 32))
  if sz = 0 then do
    vm .freevm
    pure (-1)
  else do
    let found ← vm (.clearpteu (sz - 2 * PGSIZE))
    if found then do
      let r ← pushArgs argv 0 sz
      match r with
      | none => do
          vm .freevm
          pure (-1)
      | some (sp, addrs) => do
          let sp' := (sp + 2 ^ 32 - (3 + argv.length + 1) * 4) % 2 ^ 32
          let ok ← vm (.copyout sp' (ustack argv.length sp addrs))
          if ok then do
            vm (.commit sz entry sp')
            pure 0
          else do
            vm .freevm
            pure (-1)
    else fs (panic .clearpteu)

/-- The part of `exec` after the header was read. -/
def execImage (ip : ℕ) (elf : Elfhdr) (argv : List (List UInt8)) : EProg ℤ :=
  if elf.magic ≠ ELF_MAGIC then do
    fs (iunlockput ip)
    pure (-1)
  else do
    let ok ← vm .setupkvm
    if ok then do
      let r ← loadSegments ip elf.phnum elf.phoff 0
      match r with
      | none => do
          vm .freevm
          fs (iunlockput ip)
          pure (-1)
      | some sz => do
          fs (iunlockput ip)
          execStack elf.entry sz argv
    else do
      fs (iunlockput ip)
      pure (-1)

def exec (path : List UInt8) (argv : List (List UInt8)) : EProg ℤ := do
  let r ← fs (namei path)
  match r with
  | none => pure (-1)
  | some ip => do
      fs (ilock ip)
      let hdr ← fs (readi ip 0 ELFSIZE)
      match hdr with
      | .ok l =>
        if l.length < ELFSIZE then do
          fs (iunlockput ip)
          pure (-1)
        else execImage ip (Elfhdr.get l) argv
      | .error _ => do
          -- `-1 < sizeof(elf)` compares unsigned numbers, so `elf` is used as it is
          let l ← fs (askBytes ELFSIZE)
          execImage ip (Elfhdr.get l) argv

end Sys

end Qwin
