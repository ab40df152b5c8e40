import Qwin.Fs.Block

/-!
# The inode level

What the functions of `fs.c` that read and write inodes are for: a table of nodes, each
with its attributes and the bytes of its file. The directory layer and the system calls
are programs over this signature and the kernel tables. `onBlocks` says which function
of the block level carries out a step.

A step is only meant for an entry of the inode cache that is referenced and has been
read from the disk. Outside that domain a run ends with `assumed`.
-/

namespace Qwin.Fs

open Prog List

/-- The fields of an inode that its disk copy shares with the cache. -/
@[ext] structure Attrs where
  type : Short
  major : Short
  minor : Short
  nlink : Short
  deriving DecidableEq

def Dinode.attrs (d : Dinode) : Attrs := ⟨d.type, d.major, d.minor, d.nlink⟩

def Inode.attrs (x : Inode) : Attrs := ⟨x.type, x.major, x.minor, x.nlink⟩

def Inode.setAttrs (x : Inode) (a : Attrs) : Inode :=
  { x with type := a.type, major := a.major, minor := a.minor, nlink := a.nlink }

@[ext] structure Node where
  attrs : Attrs
  data : List UInt8

structure IState where
  core : Core
  node : ℕ → Node
  ninodes : ℕ

namespace IState

def setNode (s : IState) (i : ℕ) (x : Node) : IState :=
  { s with node := Function.update s.node i x }

def setInode (s : IState) (ip : ℕ) (x : Inode) : IState :=
  { s with core := s.core.setInode ip x }

/-- The number of the inode in an entry of the cache. -/
def inum (s : IState) (ip : ℕ) : ℕ := (s.core.inode ip).inum

/-- An entry that is referenced and stands for an inode of the disk. -/
def Cached (s : IState) (ip : ℕ) : Prop :=
  0 < (s.core.inode ip).ref ∧ s.inum ip < s.ninodes

/-- An entry that has been read from an inode in use. -/
def Loaded (s : IState) (ip : ℕ) : Prop :=
  s.Cached ip ∧ (s.core.inode ip).valid = true ∧ (s.node (s.inum ip)).attrs.type ≠ 0

instance (s : IState) (ip : ℕ) : Decidable (s.Cached ip) := by
  unfold Cached
  infer_instance

instance (s : IState) (ip : ℕ) : Decidable (s.Loaded ip) := by
  unfold Loaded
  infer_instance

def freeNode (s : IState) : Option ℕ :=
  (List.range' 1 (s.ninodes - 1)).find? fun i => (s.node i).attrs.type = 0

/-- Some entry of the cache holds inode `i`. -/
def InUse (s : IState) (i : ℕ) : Prop :=
  ∃ ip < NINODE, 0 < (s.core.inode ip).ref ∧ (s.core.inode ip).valid = true ∧ s.inum ip = i

instance (s : IState) (i : ℕ) : Decidable (s.InUse i) := by
  unfold InUse
  infer_instance

end IState

/-- The bytes of a file after `src` was written at `off`. -/
def splice (old : List UInt8) (off : ℕ) (src : List UInt8) : List UInt8 :=
  old.take off ++ src ++ old.drop (off + src.length)

section Splice

variable {data src : List UInt8} {off : ℕ}

theorem length_splice (h : off ≤ data.length) :
    (splice data off src).length = max data.length (off + src.length) := by
  simp only [splice, length_append, length_take, length_drop]
  omega

theorem getElem?_splice_before {o : ℕ} (ho : o < off) (h : off ≤ data.length) :
    (splice data off src)[o]? = data[o]? := by
  rw [splice, append_assoc, List.getElem?_append_left (by rw [length_take]; omega),
    List.getElem?_take, if_pos ho]

theorem getElem?_splice_inside {o : ℕ} (ho : off ≤ o) (ho' : o < off + src.length)
    (h : off ≤ data.length) : (splice data off src)[o]? = src[o - off]? := by
  have hlen : (data.take off).length = off := by
    rw [length_take]
    omega
  rw [splice, append_assoc, List.getElem?_append_right (by omega), hlen,
    List.getElem?_append_left (by omega)]

theorem getElem?_splice_after {o : ℕ} (ho : off + src.length ≤ o) (h : off ≤ data.length) :
    (splice data off src)[o]? = data[o]? := by
  have hlen : (data.take off ++ src).length = off + src.length := by
    rw [length_append, length_take]
    omega
  rw [splice, List.getElem?_append_right (by omega), hlen, List.getElem?_drop,
    show off + src.length + (o - (off + src.length)) = o by omega]

theorem splice_nil (data : List UInt8) (off : ℕ) : splice data off [] = data := by
  rw [splice, append_nil, length_nil, Nat.add_zero, take_append_drop]

theorem splice_splice {src' : List UInt8} (h : off ≤ data.length) :
    splice (splice data off src) (off + src.length) src' = splice data off (src ++ src') := by
  have hlen : (data.take off ++ src).length = off + src.length := by
    rw [length_append, length_take, min_eq_left h]
  have htake : (splice data off src).take (off + src.length) = data.take off ++ src := by
    rw [splice, ← hlen, take_left]
  have hdrop : (splice data off src).drop (off + src.length + src'.length) =
      data.drop (off + (src ++ src').length) := by
    rw [splice, drop_append, hlen, drop_eq_nil_of_le (by omega), nil_append,
      drop_drop, length_append]
    congr 1
    omega
  rw [splice, htake, hdrop, splice, append_assoc (data.take off)]

end Splice

inductive DiskAct : Type → Type
  -- `ilock` reads the inode and sets `I_VALID`.
  | load (ip : ℕ) : DiskAct Unit
  -- `iupdate`
  | iupdate (ip : ℕ) : DiskAct Unit
  -- `iput` frees the inode: `itrunc`, `ip->type = 0`, `iupdate`.
  | free (ip : ℕ) : DiskAct Unit
  -- `ialloc` up to its final `iget`
  | ialloc (type : Short) : DiskAct ℕ
  -- `ip->size`
  | size (ip : ℕ) : DiskAct ℕ
  -- `readi` and `writei` on a file or a directory
  | readi (ip off n : ℕ) : DiskAct (Option (List UInt8))
  | writei (ip off : ℕ) (src : List UInt8) : DiskAct (Option ℕ)

def execDisk {β : Type} (a : DiskAct β) (s : IState) : Except (End IState) (β × IState) :=
  match a with
  | .load ip =>
    if s.Cached ip then
      .ok ((), s.setInode ip
        { (s.core.inode ip).setAttrs (s.node (s.inum ip)).attrs with valid := true })
    else .error .assumed
  | .iupdate ip =>
    if s.Loaded ip ∧ (s.core.inode ip).type ≠ 0 then
      .ok ((), s.setNode (s.inum ip)
        { s.node (s.inum ip) with attrs := (s.core.inode ip).attrs })
    else .error .assumed
  | .free ip =>
    if s.Loaded ip then
      .ok ((), (s.setNode (s.inum ip)
        ⟨{ (s.core.inode ip).attrs with type := 0 }, []⟩).setInode ip
          { s.core.inode ip with type := 0 })
    else .error .assumed
  | .ialloc type =>
    match s.freeNode with
    | none => .error (.stop (.panic .iallocNoInodes))
    | some i =>
      if s.InUse i ∨ type = 0 then .error .assumed
      else .ok (i, s.setNode i ⟨⟨type, 0, 0, 0⟩, []⟩)
  | .size ip =>
    if s.Loaded ip then .ok ((s.node (s.inum ip)).data.length, s) else .error .assumed
  | .readi ip off n =>
    if s.Loaded ip ∧ off < 2 ^ 32 ∧ n < 2 ^ 32 then
      if (s.node (s.inum ip)).data.length < off ∨ (off + n) % 2 ^ 32 < off then .ok (none, s)
      else .ok (some (((s.node (s.inum ip)).data.drop off).take n), s)
    else .error .assumed
  | .writei ip off src =>
    -- `writei` flushes the whole inode when the file grows
    if s.Loaded ip ∧ (s.core.inode ip).attrs = (s.node (s.inum ip)).attrs ∧
        off < 2 ^ 32 ∧ src.length < 2 ^ 32 then
      if (s.node (s.inum ip)).data.length < off ∨ (off + src.length) % 2 ^ 32 < off ∨
          MAXFILE * BSIZE < (off + src.length) % 2 ^ 32 then .ok (none, s)
      else .ok (some src.length, s.setNode (s.inum ip)
        { s.node (s.inum ip) with data := splice (s.node (s.inum ip)).data off src })
    else .error .assumed

/-- The steps on the kernel tables that the inode level is meant for: `iget` of the one
disk there is, and a further reference only to an entry that has one. `I_VALID` is
set by `load`. -/
def CoreAct.Meant (c : Core) {β : Type} : CoreAct β → Prop
  | .iget dev _ => dev = ROOTDEV
  | .idup ip => 0 < (c.inode ip).ref
  | .setValid _ => False
  | _ => True

instance (c : Core) {β : Type} (a : CoreAct β) : Decidable (a.Meant c) := by
  cases a <;> unfold CoreAct.Meant <;> infer_instance

def inodeSem (p : ℕ) : Sem (Plus CoreAct DiskAct) IState (End IState) where
  exec a s :=
    match a with
    | .left a =>
      if a.Meant s.core then
        match s.core.exec p a with
        | .error e => .error (.of s e)
        | .ok (r, c) => .ok (r, { s with core := c })
      else .error .assumed
    | .right a => execDisk a s

abbrev IProg (α : Type) := Prog (Plus CoreAct DiskAct) α

/-- The function of the block level that carries out a step of the inode level. -/
def onBlocks : (β : Type) → Plus CoreAct DiskAct β → BProg β
  | _, .left a => onCore a
  | _, .right (.load ip) => do
      loadInode ip
      onCore (.setValid ip)
  | _, .right (.iupdate ip) => iupdate ip
  | _, .right (.free ip) => do
      itrunc ip
      onCore (.assign ip (.type 0))
      iupdate ip
  | _, .right (.ialloc type) => iallocInum type
  | _, .right (.size ip) => do
      let e ← getExtent ip
      pure e.size
  | _, .right (.readi ip off n) => readi ip off n
  | _, .right (.writei ip off src) => writei ip off src

def IProg.blocks {α : Type} (c : IProg α) : BProg α := c.handle onBlocks

end Qwin.Fs
