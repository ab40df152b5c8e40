import Qwin.Fs.Dir
import Qwin.Lib.Threads

/-!
# Who may write to the log

The token of the protocol is whether the process owns the transaction. A `log_write` and
a `commit_trans` require it, `begin_trans` gives it. The protocol assumes two things of
the answers: `iput` decides to free an inode only for the owner, and `bmap` calls `balloc`
only for the owner. Everything else is proved of the code of `fs.c`, first on the block
level, where `log_write` is a step, and from there on by the steps of the inode level.
-/

namespace Qwin.Fs

open Prog

def blockDiscipline : Protocol (Plus CoreAct BlockAct) Bool where
  pre
    | _, .left .commitTrans, own => own = true
    | _, .right (.logWrite _ _), own => own = true
    | _, _, _ => True
  next
    | _, .left .beginTrans, own, _, own' => own = false ∧ own' = true
    | _, .left .commitTrans, _, _, own' => own' = false
    | _, .left (.iputBegin _), own, free, own' => own' = own ∧ (free = true → own = true)
    | _, .right .callBalloc, own, _, own' => own' = own ∧ own = true
    | _, _, own, _, own' => own' = own

def discipline : Protocol (Plus CoreAct DiskAct) Bool where
  pre
    | _, .left .commitTrans, own => own = true
    | _, .right (.iupdate _), own => own = true
    | _, .right (.free _), own => own = true
    | _, .right (.ialloc _), own => own = true
    | _, .right (.writei _ _ _), own => own = true
    | _, _, _ => True
  next
    | _, .left .beginTrans, own, _, own' => own = false ∧ own' = true
    | _, .left .commitTrans, _, _, own' => own' = false
    | _, .left (.iputBegin _), own, free, own' => own' = own ∧ (free = true → own = true)
    | _, _, own, _, own' => own' = own

variable {α γ : Type} {own : Bool}

/-! ## The block level -/

/-- A block-level program that keeps to the protocol and ends with the token it starts
with. -/
abbrev KeepsB (own : Bool) (c : BProg α) : Prop := Takes blockDiscipline own own c

namespace KeepsB

variable {s : ℕ}

theorem bread : KeepsB own (bread s) := .perform trivial fun _ _ h => h

theorem brelse : KeepsB own (brelse s) := .perform trivial fun _ _ h => h

variable {ip : ℕ}

theorem getExtent : KeepsB own (getExtent ip) :=
  .perform trivial fun _ _ h => h

theorem setExtent {e : Extent} : KeepsB own (setExtent ip e) :=
  .perform trivial fun _ _ h => h

theorem getInode : KeepsB own (onCore (.getInode ip)) :=
  .perform trivial fun _ _ h => h

theorem assign {a : Assign} : KeepsB own (onCore (.assign ip a)) :=
  .perform trivial fun _ _ h => h

theorem panic {q : Panic} : KeepsB own (abort (.left (.panic q)) : BProg α) :=
  .abort trivial

theorem logWrite {data : Block} : KeepsB true (logWrite s data) :=
  .perform rfl fun _ _ h => h

theorem readsb : KeepsB own readsb := .bind bread fun _ => .bind brelse fun _ => .pure

theorem bzero {bno : ℕ} : KeepsB true (bzero bno) :=
  .bind bread fun _ => .bind logWrite fun _ => brelse

theorem ballocLoop {sb : Superblock} (n b : ℕ) : KeepsB true (ballocLoop sb n b) := by
  induction n generalizing b with
  | zero =>
    rw [Fs.ballocLoop]
    exact panic
  | succ n ih =>
    rw [Fs.ballocLoop]
    refine .ite (.bind bread fun bp => ?_) panic
    split
    · exact .bind logWrite fun _ => .bind brelse fun _ => .bind bzero fun _ => .pure
    · exact .bind brelse fun _ => ih (b + BPB)

theorem bfree {b : ℕ} : KeepsB true (bfree b) :=
  .bind readsb fun _ => .bind bread fun _ => .ite (.bind logWrite fun _ => brelse) panic

/-- A call of `balloc` that the protocol lets pass is one of the owner. -/
theorem balloc : Fs.balloc.Follows blockDiscipline (fun _ o => o = own ∧ own = true) own := by
  refine follows_bind (R := fun _ o => o = own ∧ own = true)
    (follows_perform trivial fun _ _ h => h) ?_
  rintro - o ⟨rfl, rfl⟩
  have hloop : KeepsB true (Fs.readsb >>= fun sb => Fs.ballocLoop sb (sb.size / BPB + 1) 0) :=
    .bind readsb fun _ => ballocLoop _ _
  exact follows_mono (fun _ _ h => ⟨h, rfl⟩) hloop

theorem bmapAddr {k : Fin 13} : KeepsB own (bmapAddr ip k) := by
  refine .bind getExtent fun e => .ite (follows_bind balloc ?_) .pure
  rintro addr o ⟨rfl, -⟩
  exact Takes.bind setExtent fun _ => .pure

theorem bmapEntry {ind j : ℕ} : KeepsB own (bmapEntry ind j) := by
  refine .bind bread fun bp => .ite (follows_bind balloc ?_) (.bind brelse fun _ => .pure)
  rintro addr o ⟨rfl, rfl⟩
  exact Takes.bind logWrite fun _ => .bind brelse fun _ => .pure

theorem bmap {bn : ℕ} : KeepsB own (bmap ip bn) := by
  rw [Fs.bmap]
  split
  · exact bmapAddr
  · exact .ite (.bind bmapAddr fun _ => bmapEntry) panic

theorem iupdate : KeepsB true (iupdate ip) :=
  .bind getInode fun _ => .bind getExtent fun _ => .bind bread fun _ =>
    .bind logWrite fun _ => brelse

theorem loadInode : KeepsB own (loadInode ip) :=
  .bind getInode fun _ => .bind bread fun _ => .bind assign fun _ => .bind assign fun _ =>
    .bind assign fun _ => .bind assign fun _ => .bind setExtent fun _ => brelse

theorem iallocLoop {type : Short} (n inum : ℕ) : KeepsB true (iallocLoop type n inum) := by
  induction n generalizing inum with
  | zero =>
    rw [Fs.iallocLoop]
    exact panic
  | succ n ih =>
    rw [Fs.iallocLoop]
    exact .bind bread fun _ => .ite (.bind logWrite fun _ => .bind brelse fun _ => .pure)
      (.bind brelse fun _ => ih (inum + 1))

theorem truncDirect (n i : ℕ) : KeepsB true (truncDirect ip n i) := by
  induction n generalizing i with
  | zero =>
    rw [Fs.truncDirect]
    exact .pure
  | succ n ih =>
    rw [Fs.truncDirect]
    exact .bind getExtent fun _ => .ite (ih (i + 1))
      (.bind bfree fun _ => .bind setExtent fun _ => ih (i + 1))

theorem truncEntries {a : Block} (n j : ℕ) : KeepsB true (truncEntries a n j) := by
  induction n generalizing j with
  | zero =>
    rw [Fs.truncEntries]
    exact .pure
  | succ n ih =>
    rw [Fs.truncEntries]
    exact .ite (ih (j + 1)) (.bind bfree fun _ => ih (j + 1))

theorem itrunc : KeepsB true (itrunc ip) := by
  refine .bind (truncDirect _ _) fun _ => .bind ?_ fun _ => .bind getExtent fun _ =>
    .bind setExtent fun _ => iupdate
  exact .bind getExtent fun _ => .ite .pure (.bind bread fun _ => .bind (truncEntries _ _) fun _ =>
    .bind brelse fun _ => .bind bfree fun _ => setExtent)

theorem readLoop (fuel n off : ℕ) : KeepsB own (readLoop ip fuel n off) := by
  induction fuel generalizing n off with
  | zero =>
    rw [Fs.readLoop]
    exact .pure
  | succ fuel ih =>
    rw [Fs.readLoop]
    exact .ite .pure (.bind bmap fun _ => .bind bread fun _ => .bind brelse fun _ =>
      .bind (ih _ _) fun _ => .pure)

theorem readi {off n : ℕ} : KeepsB own (readi ip off n) :=
  .bind getExtent fun _ => .ite .pure (.bind (readLoop _ _ _) fun _ => .pure)

theorem writeLoop (fuel : ℕ) (src : List UInt8) (off : ℕ) :
    KeepsB true (writeLoop ip fuel src off) := by
  induction fuel generalizing src off with
  | zero =>
    rw [Fs.writeLoop]
    exact .pure
  | succ fuel ih =>
    rw [Fs.writeLoop]
    exact .ite .pure (.bind bmap fun _ => .bind bread fun _ => .bind logWrite fun _ =>
      .bind brelse fun _ => ih _ _)

theorem writei {off : ℕ} {src : List UInt8} : KeepsB true (writei ip off src) :=
  .bind getExtent fun _ => .ite .pure (.ite .pure (.bind (writeLoop _ _ _) fun _ =>
    .bind getExtent fun _ => .ite (.bind setExtent fun _ => .bind iupdate fun _ => .pure) .pure))

end KeepsB

/-- The steps of the inode level are carried out as their protocol says. -/
theorem follows_onBlocks (β : Type) (a : Plus CoreAct DiskAct β) (own : Bool)
    (h : discipline.pre β a own) :
    (onBlocks β a).Follows blockDiscipline (fun r o => discipline.next β a own r o) own := by
  cases a with
  | left a => cases a <;> exact follows_perform h fun _ _ hn => hn
  | right a =>
    cases a with
    | load ip =>
      exact Takes.bind KeepsB.loadInode fun _ => follows_perform trivial fun _ _ hn => hn
    | size ip => exact Takes.bind KeepsB.getExtent fun _ => .pure
    | readi ip off n => exact KeepsB.readi
    | iupdate ip =>
      obtain rfl : own = true := h
      exact KeepsB.iupdate
    | free ip =>
      obtain rfl : own = true := h
      exact Takes.bind KeepsB.itrunc fun _ => .bind KeepsB.assign fun _ =>
        KeepsB.iupdate
    | ialloc type =>
      obtain rfl : own = true := h
      exact Takes.bind KeepsB.readsb fun _ => KeepsB.iallocLoop _ _
    | writei ip off src =>
      obtain rfl : own = true := h
      exact KeepsB.writei

theorem follows_blocks {Q : α → Bool → Prop} {c : IProg α} (h : c.Follows discipline Q own) :
    c.blocks.Follows blockDiscipline Q own :=
  follows_handle follows_onBlocks h

/-! ## The inode level -/

/-- A program that keeps to the protocol and takes the token from `own` to `own'`. -/
abbrev Goes (own own' : Bool) (c : IProg α) : Prop := Takes discipline own own' c

namespace Goes

variable {own' : Bool}

/-- `begin_trans` never returns to a process that owns the transaction. -/
theorem beginTrans_of_own {f : Unit → IProg α} : Goes true own' (core .beginTrans >>= f) :=
  follows_bind (R := fun _ _ => False) (follows_perform trivial fun _ _ h => nomatch h.1)
    fun _ _ h => h.elim

theorem iput {ip : ℕ} : Goes own own (iput ip) := by
  refine follows_bind (R := fun free o => o = own ∧ (free = true → own = true))
    (follows_perform trivial fun _ _ h => h) ?_
  rintro free o ⟨rfl, hfree⟩
  split
  next h =>
    obtain rfl := hfree h
    exact Takes.bind (.perform rfl fun _ _ h => h) fun _ => .perform trivial fun _ _ h => h
  · exact Takes.pure

end Goes

end Qwin.Fs
