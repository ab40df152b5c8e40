import Qwin.Fs.Dir

/-!
# Open files, `exit` and the devices

`file.c`, the part of `proc.c` that gives files up, and the dispatch of `readi` and
`writei` to the devices. The terminal, and the bytes in a pipe, answer through the oracle.
-/

namespace Qwin.Sys

open Prog Fs

variable {α : Type}

def pipeclose (i : ℕ) (writable : Bool) : IProg Unit := do
  let last ← core (.pipeclose i writable)
  if last then core (.pipeKfree i) else pure ()

def fileclose (f : ℕ) : IProg Unit := do
  let last ← core (.fileDrop f)
  match last with
  | none => pure ()
  | some ff =>
    match ff.type with
    | .pipe => pipeclose ff.pipe ff.writable
    | .inode => do
        core .beginTrans
        iput ff.ip
        core .commitTrans
    | .none => pure ()

/-- The loop of `exit` over the descriptors from `fd` on. -/
def closeFiles : ℕ → ℕ → IProg Unit
  | 0, _ => pure ()
  | n + 1, fd => do
      let x ← core .getProc
      match x.ofile fd with
      | none => closeFiles n (fd + 1)
      | some f => do
          fileclose f
          core (.setOfile fd none)
          closeFiles n (fd + 1)

def iputCwd : IProg Unit := do
  let x ← core .getProc
  match x.cwd with
  | some ip => iput ip
  | none => abort (.left .fault)

def exit : IProg α := do
  let init ← core .isInit
  if init then panic .initExiting
  else do
    closeFiles NOFILE 0
    iputCwd
    core (.setCwd none)
    core .exitProc
    abort (.left .halt)

/-! ## Devices -/

inductive Device
  | tty | null | zero

def Device.ofMajor : ℕ → Device
  | 1 => .tty
  | 2 => .null
  | _ => .zero

/-- `device_get`: a device that is not enabled ends the process. -/
def deviceGet (ip major : ℕ) : IProg Device := do
  let enabled ← core (.deviceEnabled ip major)
  if enabled then pure (Device.ofMajor major) else exit

/-- `n` bytes from outside the model. -/
def askBytes : ℕ → IProg (List UInt8)
  | 0 => pure []
  | n + 1 => do
      let x ← core .ask
      let l ← askBytes n
      pure (UInt8.ofNat x.toNat :: l)

/-- `ttyread`, `nullread` and `zeroread`, whose `n` is an `int`. -/
def deviceRead (ip n : ℕ) : Device → IProg (Except ℤ (List UInt8))
  | .tty => do
      iunlock ip
      let r ← core .ask
      let l ← askBytes (if n < 2 ^ 31 then min r.toNat n else 0)
      ilock ip
      if r < 0 ∧ 0 < n ∧ n < 2 ^ 31 then pure (.error (-1)) else pure (.ok l)
  | .null => pure (.ok [])
  | .zero =>
    if n < 2 ^ 31 then pure (.ok (List.replicate n 0)) else pure (.error ((n : ℤ) - 2 ^ 32))

/-- `ttywrite`, `nullwrite` and `zerowrite`. -/
def deviceWrite (ip n : ℕ) : Device → IProg ℤ
  | .tty => do
      iunlock ip
      ilock ip
      pure n
  | .null => pure n
  | .zero => pure n

/-- `readi`: the bytes read, or a negative result. -/
def readi (ip off n : ℕ) : IProg (Except ℤ (List UInt8)) := do
  let i ← core (.getInode ip)
  if i.type = T_DEV then
    if i.major.toInt < 0 ∨ NDEV ≤ i.major.toInt then pure (.error (-1))
    else do
      let d ← deviceGet ip i.major.toNat
      deviceRead ip n d
  else do
    let r ← disk (.readi ip off n)
    match r with
    | some l => pure (.ok l)
    | none => pure (.error (-1))

/-- `writei`: the number of bytes, or `-1`. -/
def writei (ip off : ℕ) (src : List UInt8) : IProg ℤ := do
  let i ← core (.getInode ip)
  if i.type = T_DEV then
    if i.major.toInt < 0 ∨ NDEV ≤ i.major.toInt then pure (-1)
    else do
      let d ← deviceGet ip i.major.toNat
      deviceWrite ip src.length d
  else do
    let r ← disk (.writei ip off src)
    match r with
    | some n => pure n
    | none => pure (-1)

/-! ## Reading and writing -/

/-- `f->off += r`, if `r > 0` -/
def advance (f : ℕ) (r : ℤ) : IProg Unit :=
  if 0 < r then core (.advance f r.toNat) else pure ()

def readResult : Except ℤ (List UInt8) → ℤ
  | .ok l => l.length
  | .error e => e

def bytes32 (x : ℕ) : List UInt8 :=
  [UInt8.ofNat x, UInt8.ofNat (x / 256), UInt8.ofNat (x / 65536), UInt8.ofNat (x / 16777216)]

/-- The bytes that a call stored, with their addresses. -/
abbrev Stores := List (BitVec 32 × UInt8)

/-- `memmove(p, l, …)` -/
def storesAt (p : BitVec 32) (l : List UInt8) : Stores :=
  l.mapIdx fun i b => (p + BitVec.ofNat 32 i, b)

def fileread (f : ℕ) (addr n : BitVec 32) : IProg (ℤ × Stores) := do
  let x ← core (.getFile f)
  if x.readable = false then pure (-1, [])
  else
    match x.type with
    | .pipe => do
        -- what `piperead` returns, and as many bytes
        let r ← core .ask
        let l ← askBytes (min r.toNat n.toInt.toNat)
        pure (r, storesAt addr l)
    | .inode => do
        ilock x.ip
        let y ← core (.getFile f)
        let r ← readi x.ip y.off n.toNat
        advance f (readResult r)
        iunlock x.ip
        pure (readResult r, storesAt addr (r.toOption.getD []))
    | .none => panic .fileread

/-- The loop of `filewrite`: whether every byte was written. Every pass takes at least
one byte, so the length is enough fuel. -/
def filewriteLoop (f ip : ℕ) : ℕ → List UInt8 → IProg Bool
  | 0, _ => pure true
  | fuel + 1, src =>
    if src = [] then pure true
    else do
      core .beginTrans
      ilock ip
      let y ← core (.getFile f)
      let r ← writei ip y.off (src.take 1536)
      advance f r
      iunlock ip
      core .commitTrans
      if r < 0 then pure false
      else if r ≠ min src.length 1536 then panic .shortFilewrite
      else filewriteLoop f ip fuel (src.drop 1536)

def filewrite (f : ℕ) (src : List UInt8) : IProg ℤ := do
  let x ← core (.getFile f)
  if x.writable = false then pure (-1)
  else
    match x.type with
    | .pipe => core .ask
    | .inode => do
        let all ← filewriteLoop f x.ip src.length src
        pure (if all then src.length else -1)
    | .none => panic .filewrite

end Qwin.Sys
