import Qwin.Sys.Exec

/-!
# Arguments of system calls and what is stored through them

The checks of `syscall.c` on the arguments that a process leaves on its stack, for the
calls that store into the memory of the process: `sys_read`, `sys_fstat`, `sys_pipe` and
`sys_gethostname`.

`argptr` adds the length to the pointer as 32-bit numbers, and `readi` takes the length as
an unsigned number. A negative length that brings the sum below the size of the process
passes the check and then stands for more bytes than any file has.
-/

namespace Qwin.Sys

open Prog Fs List

namespace User

variable (u : User)

def sysPipe : IProg (ℤ × Stores) :=
  match u.argptr 0 8 with
  | none => pure (-1, [])
  | some fd => do
      let r ← Sys.sysPipe
      match r with
      | none => pure (-1, [])
      | some (fd0, fd1) => pure (0, storesAt fd (bytes32 fd0 ++ bytes32 fd1))

/-- `sys_gethostname`, when the name with its terminating zero is `hostname`. The result of
`argstr` is not looked at: `buf` keeps what it held if the pointer was not set. -/
def sysGethostname (hostname : List UInt8) (buf : BitVec 32) : ℤ × Stores :=
  (hostname.length, storesAt ((u.argstr 0).1.getD buf) hostname)

end User

/-! ## Where the stores go -/

theorem length_storesAt (p : BitVec 32) (l : List UInt8) : (storesAt p l).length = l.length := by
  rw [storesAt, length_mapIdx]

theorem exists_of_mem_storesAt {p : BitVec 32} {l : List UInt8} {x : BitVec 32 × UInt8}
    (h : x ∈ storesAt p l) : ∃ i, i < l.length ∧ x.1 = p + BitVec.ofNat 32 i := by
  rw [storesAt, mem_mapIdx] at h
  obtain ⟨i, hi, rfl⟩ := h
  exact ⟨i, hi, rfl⟩

section Inside

variable {u : User} {p : BitVec 32} {l : List UInt8}

/-- A range of memory that ends where the process ends, or before. -/
theorem storesAt_inside (h : p.toNat + l.length ≤ u.sz.toNat) (x : BitVec 32 × UInt8)
    (hx : x ∈ storesAt p l) : x.1 < u.sz := by
  obtain ⟨i, hi, hxi⟩ := exists_of_mem_storesAt hx
  have hsz := u.sz.isLt
  rw [hxi, BitVec.lt_def, BitVec.toNat_add, BitVec.toNat_ofNat]
  omega

theorem statiTo_inside {i : Inode} {size : ℕ} (h : p.toNat + User.STATSIZE ≤ u.sz.toNat)
    (x : BitVec 32 × UInt8) (hx : x ∈ statiTo p i size) : x.1 < u.sz := by
  have hsz := u.sz.isLt
  have h20 : p.toNat + 20 ≤ u.sz.toNat := h
  have h4 : (p + 4).toNat = p.toNat + 4 := by
    rw [BitVec.toNat_add, show (4 : BitVec 32).toNat = 4 from rfl]
    omega
  have h16 : (p + 16).toNat = p.toNat + 16 := by
    rw [BitVec.toNat_add, show (16 : BitVec 32).toNat = 16 from rfl]
    omega
  rw [statiTo, mem_append, mem_append] at hx
  rcases hx with (hx | hx) | hx
  · refine storesAt_inside ?_ x hx
    simp [bytes32]
    omega
  · refine storesAt_inside ?_ x hx
    rw [h4]
    simp [bytes32]
    omega
  · refine storesAt_inside ?_ x hx
    rw [h16]
    simp [bytes32]
    omega

end Inside

namespace User

variable {u : User} {k : ℕ} {size p : BitVec 32}

theorem argptr_eq_some : u.argptr k size = some p ↔
    u.argint k = some p ∧ p < u.sz ∧ p + size ≤ u.sz := by
  unfold argptr
  cases u.argint k with
  | none => simp
  | some i =>
    dsimp only
    split
    next h =>
      constructor
      · intro he
        cases he
      · rintro ⟨he, h1, h2⟩
        cases he
        exact absurd h (not_or.2 ⟨BitVec.not_le.2 h1, BitVec.not_lt.2 h2⟩)
    next h =>
      rw [not_or, BitVec.not_le, BitVec.not_lt] at h
      constructor
      · intro he
        cases he
        exact ⟨rfl, h⟩
      · rintro ⟨he, -⟩
        exact he

variable (hsz : u.sz.toNat < KERNBASE)
include hsz

/-- For a length that is not negative the check is the one it is meant to be. -/
theorem argptr_of_nonneg (hsize : size.toNat < 2 ^ 31) :
    u.argptr k size = some p ↔
      u.argint k = some p ∧ p.toNat < u.sz.toNat ∧ p.toNat + size.toNat ≤ u.sz.toNat := by
  rw [argptr_eq_some, BitVec.lt_def, BitVec.le_def, BitVec.toNat_add]
  have hbase : KERNBASE = 2 ^ 31 := rfl
  exact and_congr_right fun _ => and_congr_right fun hp => by omega

/-- For a negative length the check is that it does not lead below address zero. -/
theorem argptr_of_neg (hsize : 2 ^ 31 ≤ size.toNat) :
    u.argptr k size = some p ↔
      u.argint k = some p ∧ p.toNat < u.sz.toNat ∧ 2 ^ 32 ≤ p.toNat + size.toNat := by
  rw [argptr_eq_some, BitVec.lt_def, BitVec.le_def, BitVec.toNat_add]
  have hbase : KERNBASE = 2 ^ 31 := rfl
  have hlt := size.isLt
  exact and_congr_right fun _ => and_congr_right fun hp => by omega

end User

/-! ## Runs of the calls -/

section Runs

variable {p ip f : ℕ} {s s' s1 : IState}

/-- The type of the inode of an entry, once `ilock` has read it. -/
def typeOf (s : IState) (ip : ℕ) : Short :=
  if (s.core.inode ip).valid then (s.core.inode ip).type else (s.node (s.inum ip)).attrs.type

theorem run_core {β : Type} {a : CoreAct β} {r : β}
    (h : (core a).run (inodeSem p) s = .ok (r, s')) :
    ∃ c, s.core.exec p a = .ok (r, c) ∧ s' = { s with core := c } := by
  rw [core, run_perform] at h
  dsimp only [inodeSem] at h
  split at h
  · split at h
    · cases h
    next r' c hx =>
      cases h
      exact ⟨c, hx, rfl⟩
  · cases h

theorem run_getFile {x : File} (h : (core (.getFile f)).run (inodeSem p) s = .ok (x, s')) :
    x = s.core.file f ∧ s = s' := by
  cases h
  exact ⟨rfl, rfl⟩

theorem run_getInode {x : Inode} (h : (core (.getInode ip)).run (inodeSem p) s = .ok (x, s')) :
    x = s.core.inode ip ∧ s = s' := by
  cases h
  exact ⟨rfl, rfl⟩

theorem run_lockInode (h : (core (.lockInode ip)).run (inodeSem p) s = .ok ((), s')) :
    s' = s.setInode ip { s.core.inode ip with busy := true } := by
  obtain ⟨c, hx, rfl⟩ := run_core h
  dsimp only [Core.exec] at hx
  split at hx
  · cases hx
  · split at hx
    · cases hx
    · cases hx
      rfl

theorem run_load (h : (disk (.load ip)).run (inodeSem p) s = .ok ((), s')) :
    s' = s.setInode ip
      { (s.core.inode ip).setAttrs (s.node (s.inum ip)).attrs with valid := true } := by
  rw [disk, run_perform] at h
  dsimp only [inodeSem, execDisk] at h
  split at h
  · cases h
    rfl
  · cases h

/-- What `ilock` leaves: the files and nodes as they were, and the inode read. -/
theorem run_ilock (h : (ilock ip).run (inodeSem p) s = .ok ((), s1)) :
    s1.node = s.node ∧ s1.core.file = s.core.file ∧ s1.inum ip = s.inum ip ∧
      (s1.core.inode ip).type = typeOf s ip := by
  unfold ilock at h
  rw [run_bind_eq_ok] at h
  obtain ⟨⟨⟩, s2, hlock, h⟩ := h
  obtain rfl := run_lockInode hlock
  rw [run_bind_eq_ok] at h
  obtain ⟨i, s3, hget, h⟩ := h
  obtain ⟨rfl, rfl⟩ := run_getInode hget
  have hinode : ((s.setInode ip { s.core.inode ip with busy := true }).core.inode ip) =
      { s.core.inode ip with busy := true } := Core.setInode_inode_self _ _ _
  rw [hinode] at h
  split at h
  next hv =>
    cases h
    refine ⟨rfl, rfl, ?_, ?_⟩
    · rw [IState.inum, hinode]
      rfl
    · rw [hinode, typeOf, if_pos hv]
  next hv =>
    rw [run_bind_eq_ok] at h
    obtain ⟨⟨⟩, s4, hload, h⟩ := h
    obtain rfl := run_load hload
    rw [run_bind_eq_ok] at h
    obtain ⟨j, s5, hget, h⟩ := h
    obtain ⟨rfl, rfl⟩ := run_getInode hget
    split at h
    · cases h
    · cases h
      refine ⟨rfl, rfl, ?_, ?_⟩
      · rw [IState.inum, IState.setInode, Core.setInode_inode_self, Inode.setAttrs]
        dsimp only
        rw [hinode]
        rfl
      · rw [IState.setInode, Core.setInode_inode_self, typeOf, if_neg hv, Inode.setAttrs]
        dsimp only
        rw [IState.inum, hinode]
        rfl

theorem run_readi {off n : ℕ} {r : Except ℤ (List UInt8)}
    (h : (readi ip off n).run (inodeSem p) s = .ok (r, s'))
    (ht : (s.core.inode ip).type ≠ T_DEV) :
    r = if (s.node (s.inum ip)).data.length < off ∨ 2 ^ 32 ≤ off + n then .error (-1)
      else .ok (((s.node (s.inum ip)).data.drop off).take n) := by
  unfold readi at h
  rw [run_bind_eq_ok] at h
  obtain ⟨i, s2, hget, h⟩ := h
  obtain ⟨rfl, rfl⟩ := run_getInode hget
  rw [if_neg ht, run_bind_eq_ok] at h
  obtain ⟨x, s3, hread, h⟩ := h
  rw [disk, run_perform] at hread
  dsimp only [inodeSem, execDisk] at hread
  split at hread
  next hmeant =>
    have hwrap : (off + n) % 2 ^ 32 < off ↔ 2 ^ 32 ≤ off + n := by omega
    split at hread
    next hout =>
      rw [hwrap] at hout
      cases hread
      cases h
      exact (if_pos hout).symm
    next hout =>
      rw [hwrap] at hout
      cases hread
      cases h
      exact (if_neg hout).symm
  · cases hread

/-- A file that is open on an inode that is not a device. -/
def Regular (s : IState) (f : ℕ) : Prop :=
  (s.core.file f).type = .inode ∧ typeOf s (s.core.file f).ip ≠ T_DEV

def fileData (s : IState) (f : ℕ) : List UInt8 := (s.node (s.inum (s.core.file f).ip)).data

/-- What a read of `n` bytes from `off` on returns and stores. -/
def readOutcome (data : List UInt8) (off : ℕ) (addr n : BitVec 32) : ℤ × Stores :=
  if data.length < off ∨ 2 ^ 32 ≤ off + n.toNat then (-1, [])
  else (((data.drop off).take n.toNat).length, storesAt addr ((data.drop off).take n.toNat))

theorem run_fileread {addr n : BitVec 32} {o : ℤ × Stores} (hreg : Regular s f)
    (h : (fileread f addr n).run (inodeSem p) s = .ok (o, s')) :
    o = if (s.core.file f).readable then
        readOutcome (fileData s f) (s.core.file f).off addr n
      else (-1, []) := by
  unfold fileread at h
  rw [run_bind_eq_ok] at h
  obtain ⟨x, s1, hget, h⟩ := h
  obtain ⟨rfl, rfl⟩ := run_getFile hget
  cases hr : (s.core.file f).readable with
  | false =>
    rw [if_pos hr] at h
    cases h
    rfl
  | true =>
    rw [if_neg (by rw [hr]; decide), hreg.1] at h
    dsimp only at h
    rw [run_bind_eq_ok] at h
    obtain ⟨⟨⟩, s2, hlock, h⟩ := h
    obtain ⟨hnode, hfile, hinum, htype⟩ := run_ilock hlock
    rw [run_bind_eq_ok] at h
    obtain ⟨y, s3, hget, h⟩ := h
    obtain ⟨rfl, rfl⟩ := run_getFile hget
    rw [run_bind_eq_ok] at h
    obtain ⟨r, s4, hread, h⟩ := h
    have hres := run_readi hread (by rw [htype]; exact hreg.2)
    rw [run_bind_eq_ok] at h
    obtain ⟨⟨⟩, s5, -, h⟩ := h
    rw [run_bind_eq_ok] at h
    obtain ⟨⟨⟩, s6, -, h⟩ := h
    cases h
    rw [hres, hinum, hnode, hfile, if_pos rfl, readOutcome, fileData]
    split
    · rfl
    · rfl

end Runs

/-! ## The contract -/

namespace User

variable (u : User)

/-- The arguments name a range of the memory of the process. -/
def Describes (range : Option (BitVec 32 × ℕ)) : Prop :=
  ∃ p n, range = some (p, n) ∧ p.toNat < u.sz.toNat ∧ p.toNat + n ≤ u.sz.toNat

/-- A call that was given this range keeps to the memory of the process, and fails without
a store if the range is not in it. -/
structure Confined (range : Option (BitVec 32 × ℕ)) (o : ℤ × Stores) : Prop where
  inside : ∀ x ∈ o.2, x.1 < u.sz
  refused : ¬ u.Describes range → o = (-1, [])

/-- A pointer argument and the length that goes with it. -/
def range (k n : ℕ) : Option (BitVec 32 × ℕ) := (u.argint k).map fun p => (p, n)

/-- The range that `sys_read` is given; a negative length stands for no bytes. -/
def readRange : Option (BitVec 32 × ℕ) :=
  match u.argint 1, u.argint 2 with
  | some p, some n => some (p, n.toInt.toNat)
  | _, _ => none

/-- `sys_read` also stores at the pointer and no more than the length. -/
structure ReadConfined (o : ℤ × Stores) : Prop extends Confined u u.readRange o where
  atMost : ∀ p n, u.readRange = some (p, n) → ∃ l, o.2 = storesAt p l ∧ l.length ≤ n

def file (x : Proc) : Option ℕ :=
  match u.argint 0 with
  | none => none
  | some fd => if fd.toInt < 0 ∨ NOFILE ≤ fd.toInt then none else x.ofile fd.toInt.toNat

/-- A negative length leads back to an address that is not below zero, and past the
position in the file, and there is something left to read. -/
def Overrun (data : List UInt8) (off : ℕ) : Prop :=
  ∃ p n : BitVec 32, u.argint 1 = some p ∧ u.argint 2 = some n ∧ n.toInt < 0 ∧
    p.toNat < u.sz.toNat ∧ -n.toInt ≤ p.toNat ∧ off < -n.toInt ∧ off < data.length

variable {u}

theorem confined_refused {range : Option (BitVec 32 × ℕ)} : u.Confined range (-1, []) :=
  ⟨by simp, fun _ => rfl⟩

theorem readConfined_refused : u.ReadConfined (-1, []) :=
  ⟨confined_refused, fun _ _ _ => ⟨[], rfl, Nat.zero_le _⟩⟩

variable {s s' : IState} {p : ℕ}

theorem run_argfd :
    (u.argfd 0).run (inodeSem p) s = .ok (u.file (s.core.pt.proc p), s) := by
  unfold argfd file
  cases u.argint 0 with
  | none => rfl
  | some fd =>
    change (if fd.toInt < 0 ∨ NOFILE ≤ fd.toInt then pure none
      else pure ((s.core.pt.proc p).ofile fd.toInt.toNat) : IProg (Option ℕ)).run (inodeSem p) s = _
    dsimp only
    split <;> rfl

theorem toInt_neg_iff (n : BitVec 32) : n.toInt < 0 ↔ 2 ^ 31 ≤ n.toNat := by
  rw [BitVec.toInt_eq_toNat_cond]
  have := n.isLt
  split <;> omega

variable {n : BitVec 32}

theorem toInt_of_neg (h : n.toInt < 0) : n.toInt = n.toNat - 2 ^ 32 := by
  rw [toInt_neg_iff] at h
  rw [BitVec.toInt_eq_toNat_cond, if_neg (by omega)]
  rfl

theorem toInt_of_nonneg (h : ¬ n.toInt < 0) : n.toInt = n.toNat := by
  rw [toInt_neg_iff] at h
  rw [BitVec.toInt_eq_toNat_cond, if_pos (by omega)]

/-- The read of a range that passed the check keeps to it, unless the length is negative
and something is read. -/
theorem readOutcome_confined (hsz : u.sz.toNat < KERNBASE) {p : BitVec 32}
    (hn : u.argint 2 = some n) (hptr : u.argptr 1 n = some p) (data : List UInt8) (off : ℕ) :
    u.ReadConfined (readOutcome data off p n) ↔ ¬ u.Overrun data off := by
  have hp := (argptr_eq_some.1 hptr).1
  have hrange : u.readRange = some (p, n.toInt.toNat) := by
    rw [readRange, hp, hn]
  by_cases hneg : n.toInt < 0
  · have hval := toInt_of_neg hneg
    obtain ⟨-, hlt, hback⟩ := (argptr_of_neg hsz ((toInt_neg_iff n).1 hneg)).1 hptr
    have hzero : n.toInt.toNat = 0 := by omega
    constructor
    · -- nothing may be stored, so nothing is left to read or the offset wraps
      rintro hc ⟨p', n', hp', hn', -, -, -, hoff, hlen⟩
      rw [hp] at hp'
      cases hp'
      rw [hn] at hn'
      cases hn'
      obtain ⟨l, hl, hle⟩ := hc.atMost p _ hrange
      rw [hzero] at hle
      have hlen0 : (readOutcome data off p n).2.length = 0 := by
        rw [hl, length_storesAt]
        omega
      have hin : ¬ (data.length < off ∨ 2 ^ 32 ≤ off + n.toNat) := by omega
      rw [readOutcome, if_neg hin, length_storesAt, length_take, length_drop] at hlen0
      have := n.isLt
      omega
    · intro hno
      rw [readOutcome]
      split
      · exact readConfined_refused
      next hin =>
        have hend : ¬ off < data.length := fun hlen =>
          hno ⟨p, n, hp, hn, hneg, hlt, by omega, by omega, hlen⟩
        have hnil : (data.drop off).take n.toNat = [] := by
          rw [drop_eq_nil_of_le (by omega), take_nil]
        rw [hnil]
        refine ⟨⟨by simp [storesAt], fun hd => absurd ?_ hd⟩, fun q m _ => ⟨[], rfl, by simp⟩⟩
        exact ⟨p, _, hrange, hlt, by omega⟩
  · have hval := toInt_of_nonneg hneg
    rw [toInt_neg_iff] at hneg
    obtain ⟨-, hlt, hend⟩ := (argptr_of_nonneg hsz (by omega)).1 hptr
    have hlen : n.toInt.toNat = n.toNat := by omega
    have hno : ¬ u.Overrun data off := by
      rintro ⟨p', n', -, hn', hneg', -⟩
      rw [hn] at hn'
      cases hn'
      exact hneg ((toInt_neg_iff n).1 hneg')
    refine ⟨fun _ => hno, fun _ => ?_⟩
    rw [readOutcome]
    split
    · exact readConfined_refused
    · have hle : ((data.drop off).take n.toNat).length ≤ n.toNat := by
        rw [length_take]
        omega
      refine ⟨⟨storesAt_inside (by omega), fun hd => absurd ?_ hd⟩, fun q m hq => ?_⟩
      · exact ⟨p, _, hrange, hlt, by omega⟩
      · rw [hrange] at hq
        cases hq
        exact ⟨_, rfl, by omega⟩

variable {o : ℤ × Stores}

theorem sysRead_confined (hsz : u.sz.toNat < KERNBASE)
    (hreg : ∀ f, u.file (s.core.pt.proc p) = some f → Regular s f)
    (h : u.sysRead.run (inodeSem p) s = .ok (o, s')) :
    u.ReadConfined o ↔
      ∀ f, u.file (s.core.pt.proc p) = some f → (s.core.file f).readable = true →
        ¬ u.Overrun (fileData s f) (s.core.file f).off := by
  unfold sysRead at h
  rw [run_bind_eq_ok] at h
  obtain ⟨r, s1, hfd, h⟩ := h
  rw [run_argfd] at hfd
  obtain ⟨rfl, rfl⟩ := Prod.mk.inj (Except.ok.inj hfd)
  cases hf : u.file (s.core.pt.proc p) with
  | none =>
    rw [hf] at h
    cases h
    exact ⟨fun _ f hf => (nomatch hf), fun _ => readConfined_refused⟩
  | some f =>
    rw [hf] at h
    cases hn : u.argint 2 with
    | none =>
      rw [hn] at h
      cases h
      refine ⟨fun _ f' _ _ ⟨_, n, _, hn', _⟩ => ?_, fun _ => readConfined_refused⟩
      rw [hn] at hn'
      cases hn'
    | some n =>
      rw [hn] at h
      dsimp only at h
      cases hptr : u.argptr 1 n with
      | none =>
        rw [hptr] at h
        cases h
        refine ⟨fun _ f' _ _ ⟨q, n', hq, hn', hneg, hlt, hback, _⟩ => ?_,
          fun _ => readConfined_refused⟩
        rw [hn] at hn'
        cases hn'
        have hval := toInt_of_neg hneg
        have hsome := (argptr_of_neg hsz ((toInt_neg_iff n).1 hneg)).2 ⟨hq, hlt, by omega⟩
        rw [hptr] at hsome
        cases hsome
      | some q =>
        rw [hptr] at h
        have ho := run_fileread (hreg f hf) h
        cases hread : (s.core.file f).readable with
        | false =>
          rw [ho, hread]
          refine ⟨fun _ f' hf' hread' => ?_, fun _ => readConfined_refused⟩
          cases hf'
          rw [hread] at hread'
          cases hread'
        | true =>
          rw [ho, if_pos hread, readOutcome_confined hsz hn hptr]
          constructor
          · rintro hno f' hf' -
            cases hf'
            exact hno
          · intro hno
            exact hno f rfl hread

/-- A length that is not negative, of a range that is not in the memory of the process, is
refused before the file is looked at. -/
theorem sysRead_refused (hsz : u.sz.toNat < KERNBASE)
    (hlen : ∀ n, u.argint 2 = some n → 0 ≤ n.toInt) (hno : ¬ u.Describes u.readRange) :
    u.sysRead.run (inodeSem p) s = .ok ((-1, []), s) := by
  unfold sysRead
  rw [run_bind, run_argfd]
  dsimp only
  split
  next f n _ hn =>
    have hptr : u.argptr 1 n = none := by
      rw [Option.eq_none_iff_forall_ne_some]
      intro q hq
      have hval := toInt_of_nonneg (not_lt.2 (hlen n hn))
      have hlt : n.toNat < 2 ^ 31 := by
        have := (toInt_neg_iff n).not.1 (not_lt.2 (hlen n hn))
        omega
      obtain ⟨hint, hin, hend⟩ := (argptr_of_nonneg hsz hlt).1 hq
      refine hno ⟨q, n.toInt.toNat, by rw [readRange, hint, hn], hin, ?_⟩
      omega
    rw [hptr]
    rfl
  · rfl

/-- For the calls with a fixed length, the check of `argptr` is the contract. -/
theorem describes_range (hsz : u.sz.toNat < KERNBASE) {k n : ℕ} (hn : n < 2 ^ 31) :
    u.Describes (u.range k n) ↔ ∃ p, u.argptr k (BitVec.ofNat 32 n) = some p := by
  have hval : (BitVec.ofNat 32 n).toNat = n := by
    rw [BitVec.toNat_ofNat]
    omega
  constructor
  · rintro ⟨p, m, hr, hlt, hend⟩
    rw [range, Option.map_eq_some_iff] at hr
    obtain ⟨q, hq, he⟩ := hr
    obtain ⟨rfl, rfl⟩ := Prod.mk.inj he
    refine ⟨q, (argptr_of_nonneg hsz (by omega)).2 ⟨hq, hlt, ?_⟩⟩
    rw [hval]
    exact hend
  · rintro ⟨p, hp⟩
    obtain ⟨hint, hlt, hend⟩ := (argptr_of_nonneg hsz (by omega)).1 hp
    rw [hval] at hend
    exact ⟨p, n, by rw [range, hint]; rfl, hlt, hend⟩

theorem run_filestat {f : ℕ} {addr : BitVec 32}
    (h : (filestat f addr).run (inodeSem p) s = .ok (o, s')) :
    o = (-1, []) ∨ ∃ i size, o = (0, statiTo addr i size) := by
  unfold filestat at h
  rw [run_bind_eq_ok] at h
  obtain ⟨x, s1, -, h⟩ := h
  split at h
  · rw [run_bind_eq_ok] at h
    obtain ⟨⟨⟩, s2, -, h⟩ := h
    rw [run_bind_eq_ok] at h
    obtain ⟨i, s3, -, h⟩ := h
    rw [run_bind_eq_ok] at h
    obtain ⟨size, s4, -, h⟩ := h
    rw [run_bind_eq_ok] at h
    obtain ⟨⟨⟩, s5, -, h⟩ := h
    cases h
    exact Or.inr ⟨i, size, rfl⟩
  · cases h
    exact Or.inl rfl

theorem sysFstat_confined (hsz : u.sz.toNat < KERNBASE)
    (h : u.sysFstat.run (inodeSem p) s = .ok (o, s')) : u.Confined (u.range 1 STATSIZE) o := by
  unfold sysFstat at h
  rw [run_bind_eq_ok] at h
  obtain ⟨r, s1, -, h⟩ := h
  split at h
  next f st hst =>
    have hd := (describes_range hsz (k := 1) (n := STATSIZE) (by decide)).2 ⟨st, hst⟩
    have hend := (argptr_of_nonneg hsz (by decide)).1 hst
    rcases run_filestat h with rfl | ⟨i, size, rfl⟩
    · exact confined_refused
    · exact ⟨statiTo_inside hend.2.2, fun hno => absurd hd hno⟩
  · cases h
    exact confined_refused

theorem sysFstat_refused (hsz : u.sz.toNat < KERNBASE)
    (hno : ¬ u.Describes (u.range 1 STATSIZE)) :
    u.sysFstat.run (inodeSem p) s = .ok ((-1, []), s) := by
  unfold sysFstat
  rw [run_bind, run_argfd]
  dsimp only
  split
  next hst => exact absurd ((describes_range hsz (by decide)).2 ⟨_, hst⟩) hno
  · rfl

theorem sysPipe_refused (hsz : u.sz.toNat < KERNBASE) (hno : ¬ u.Describes (u.range 0 8)) :
    u.sysPipe.run (inodeSem p) s = .ok ((-1, []), s) := by
  unfold sysPipe
  split
  · rfl
  next fd hfd => exact absurd ((describes_range hsz (by decide)).2 ⟨fd, hfd⟩) hno

theorem sysPipe_confined (hsz : u.sz.toNat < KERNBASE)
    (h : u.sysPipe.run (inodeSem p) s = .ok (o, s')) : u.Confined (u.range 0 8) o := by
  unfold sysPipe at h
  split at h
  · cases h
    exact confined_refused
  next fd hfd =>
    have hd := (describes_range hsz (k := 0) (n := 8) (by decide)).2 ⟨fd, hfd⟩
    have hend := (argptr_of_nonneg hsz (by decide)).1 hfd
    rw [run_bind_eq_ok] at h
    obtain ⟨r, s1, -, h⟩ := h
    split at h
    · cases h
      exact confined_refused
    · cases h
      refine ⟨storesAt_inside ?_, fun hno => absurd hd hno⟩
      exact hend.2.2

theorem sysGethostname_confined {hostname : List UInt8} {buf : BitVec 32} :
    u.Confined (u.range 0 hostname.length) (u.sysGethostname hostname buf) ↔
      u.Describes (u.range 0 hostname.length) := by
  constructor
  · intro hc
    by_contra hno
    have hret := congrArg Prod.fst (hc.refused hno)
    rw [sysGethostname] at hret
    dsimp only at hret
    omega
  · intro hd
    refine ⟨?_, fun hno => absurd hd hno⟩
    obtain ⟨p, n, hr, hlt, hend⟩ := hd
    rw [range, Option.map_eq_some_iff] at hr
    obtain ⟨q, hq, he⟩ := hr
    obtain ⟨rfl, rfl⟩ := Prod.mk.inj he
    have hbuf : (u.argstr 0).1 = some q := by
      have hle : ¬ u.sz ≤ q := by
        rw [BitVec.le_def]
        omega
      rw [argstr, hq]
      dsimp only
      rw [fetchstr, if_neg hle]
      split <;> rfl
    rw [sysGethostname, hbuf]
    exact storesAt_inside hend

end User

/-- What the calls store through a user pointer. `sys_fstat` and `sys_pipe` keep to the
range they are given; `sys_read` does on a regular file unless the length is negative and
leads neither below address zero nor below the position in the file, where something is
left to read; `sys_gethostname` does when the range is in the memory of the process, and
does not find out when it is not. The others return `-1` at once when the range is not in the
memory of the process and its length not negative. -/
theorem user_stores (u : User) (hsz : u.sz.toNat < KERNBASE) (p : ℕ) (s : IState) :
    ((∀ f, u.file (s.core.pt.proc p) = some f → Regular s f) →
      ∀ o s', u.sysRead.run (inodeSem p) s = .ok (o, s') →
        (u.ReadConfined o ↔
          ∀ f, u.file (s.core.pt.proc p) = some f → (s.core.file f).readable = true →
            ¬ u.Overrun (fileData s f) (s.core.file f).off)) ∧
    ((∀ n, u.argint 2 = some n → 0 ≤ n.toInt) → ¬ u.Describes u.readRange →
      u.sysRead.run (inodeSem p) s = .ok ((-1, []), s)) ∧
    (∀ o s', u.sysFstat.run (inodeSem p) s = .ok (o, s') →
      u.Confined (u.range 1 User.STATSIZE) o) ∧
    (¬ u.Describes (u.range 1 User.STATSIZE) →
      u.sysFstat.run (inodeSem p) s = .ok ((-1, []), s)) ∧
    (∀ o s', u.sysPipe.run (inodeSem p) s = .ok (o, s') → u.Confined (u.range 0 8) o) ∧
    (¬ u.Describes (u.range 0 8) → u.sysPipe.run (inodeSem p) s = .ok ((-1, []), s)) ∧
    ∀ hostname buf, u.Confined (u.range 0 hostname.length) (u.sysGethostname hostname buf) ↔
      u.Describes (u.range 0 hostname.length) :=
  ⟨fun hreg _ _ h => User.sysRead_confined hsz hreg h, User.sysRead_refused hsz,
    fun _ _ h => User.sysFstat_confined hsz h, User.sysFstat_refused hsz,
    fun _ _ h => User.sysPipe_confined hsz h, User.sysPipe_refused hsz,
    fun _ _ => User.sysGethostname_confined⟩

/-! ## Runs on fixed arguments -/

/-- A process of 64 bytes with three arguments on its stack. -/
def userOf (a b c : ℕ) : User where
  mem x := (bytes32 a ++ bytes32 b ++ bytes32 c).getD (x.toNat - 4) 0
  sz := 64
  esp := 0

def openState : IState where
  core := { bootCore (fun _ => 1) with
    inode := fun _ => ⟨ROOTDEV, 2, 1, false, true, 0, T_FILE, 0, 0, 1⟩
    file := fun _ => ⟨.inode, 1, true, false, 0, 0, 0⟩
    pt := Ptable.boot.modify 0 fun x => { x with ofile := fun _ => some 0 } }
  node _ := ⟨⟨T_FILE, 0, 0, 1⟩, List.replicate 40 1⟩
  ninodes := 10

theorem openState_regular (f : ℕ) : Regular openState f := by
  refine ⟨rfl, ?_⟩
  change T_FILE ≠ T_DEV
  decide

/-- The bytes that a call stored, if it returned. -/
def stored (c : IProg (ℤ × Stores)) : Option Stores :=
  match c.run (inodeSem 0) openState with
  | .ok (o, _) => some o.2
  | .error _ => none

theorem exists_of_stored {c : IProg (ℤ × Stores)} {test : Stores → Bool}
    (h : (stored c).any test = true) :
    ∃ o s', c.run (inodeSem 0) openState = .ok (o, s') ∧ test o.2 = true := by
  unfold stored at h
  split at h
  next o s' hrun => exact ⟨o, s', hrun, h⟩
  · cases h

theorem user_stores_read :
    ∃ o s', (userOf 0 32 16).sysRead.run (inodeSem 0) openState = .ok (o, s') ∧
      o.2.length = 16 ∧ (userOf 0 32 16).ReadConfined o := by
  have htest : (stored (userOf 0 32 16).sysRead).any (fun l => l.length == 16) = true := by
    decide +kernel
  obtain ⟨o, s', hrun, hlen⟩ := exists_of_stored htest
  refine ⟨o, s', hrun, by simpa using hlen, ?_⟩
  refine (((user_stores (userOf 0 32 16) (by decide) 0 openState).1
    (fun f _ => openState_regular f)) o s' hrun).2 ?_
  rintro f - - ⟨q, n, -, hn, hneg, -⟩
  have harg : (userOf 0 32 16).argint 2 = some 16 := by decide +kernel
  rw [harg] at hn
  cases hn
  exact absurd hneg (by decide)

/-- A read of `-16` bytes to address 32 stores the 40 bytes of the file, past the end of the
process; and `sys_gethostname` with a pointer outside the process stores to an address that
no argument names. -/
theorem stores_outside_process :
    (∃ o s', (userOf 0 32 (2 ^ 32 - 16)).sysRead.run (inodeSem 0) openState = .ok (o, s') ∧
      ∃ x ∈ o.2, ¬ x.1 < (userOf 0 32 (2 ^ 32 - 16)).sz) ∧
    ∃ x ∈ ((userOf 64 0 0).sysGethostname [104, 0] 0x80000000).2,
      ¬ x.1 < (userOf 64 0 0).sz := by
  constructor
  · have htest : (stored (userOf 0 32 (2 ^ 32 - 16)).sysRead).any
        (fun l => l.any fun x => !decide (x.1 < 64)) = true := by decide +kernel
    obtain ⟨o, s', hrun, hany⟩ := exists_of_stored htest
    rw [any_eq_true] at hany
    obtain ⟨x, hx, hout⟩ := hany
    refine ⟨o, s', hrun, x, hx, ?_⟩
    change ¬ x.1 < 64
    simpa using hout
  · exact ⟨(0x80000000, 104), by decide +kernel, by decide⟩

end Qwin.Sys
