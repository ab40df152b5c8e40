import Qwin.Fs.Discipline
import Qwin.Sys.ExecProtocol
import Qwin.Sys.FsProtocol

/-!
# The transactions of the system calls

Every system call starts and ends without the transaction and keeps to the protocol of
`Qwin.Fs.Discipline` in between.
-/

namespace Qwin.Sys

open Prog Fs

namespace Goes

open Qwin.Fs.Goes

variable {α : Type} {own own' : Bool}

theorem plain {β : Type} {a : Plus CoreAct DiskAct β} (h : Plain β a) :
    Goes own own (perform a) := by
  rcases a with a | a <;> cases a <;>
    first | exact h.elim | exact .perform trivial fun _ _ h => h

theorem write {β : Type} {a : DiskAct β} (h : own = true) : Goes own own (disk a) := by
  cases a <;> first | exact .perform h fun _ _ h => h | exact .perform trivial fun _ _ h => h

theorem serves : ServesFs discipline (fun own _ => own) (fun _ => true) (fun own => own = true)
    fun own => own = false where
  lock_comm _ _ _ := rfl
  writes_lock _ h := h
  writes_begin _ := rfl
  plain := plain
  mayPanic := trivial
  mayFault := trivial
  write := write
  lockInode := .perform trivial fun _ _ h => h
  iunlock := .perform trivial fun _ _ h => h
  iput := iput
  beginTrans _ := .perform trivial fun _ _ h => h.2
  commitTrans h := .perform rfl fun _ _ hn => hn.trans h.symm
  commitLocked h := .perform rfl fun _ _ hn => hn.trans h.symm

/-! ## Files -/

theorem pipeclose {i : ℕ} {w : Bool} : Goes own own (pipeclose i w) :=
  .bind (.perform trivial fun _ _ h => h) fun _ => .ite (.perform trivial fun _ _ h => h) .pure

theorem fileclose {f : ℕ} : Goes own own (fileclose f) := by
  refine .bind (.perform trivial fun _ _ h => h) fun last => ?_
  cases last with
  | none => exact .pure
  | some ff =>
    dsimp only
    cases ff.type with
    | pipe => exact pipeclose
    | none => exact .pure
    | inode =>
      cases own with
      | false => exact .bind (serves.beginTrans rfl) fun _ => .bind iput fun _ => serves.commitTrans rfl
      | true => exact beginTrans_of_own

theorem closeFiles (n fd : ℕ) : Goes own own (closeFiles n fd) := by
  induction n generalizing fd with
  | zero =>
    rw [Sys.closeFiles]
    exact .pure
  | succ n ih =>
    rw [Sys.closeFiles]
    refine .bind serves.getProc fun x => ?_
    cases x.ofile fd with
    | none => exact ih (fd + 1)
    | some f =>
      exact .bind fileclose fun _ => .bind (.perform trivial fun _ _ h => h) fun _ => ih (fd + 1)

/-- `exit` does not return, so nothing is required of the token it ends with. -/
theorem exit : Goes own own' (exit : IProg α) :=
  .bind (.perform trivial fun _ _ h => h) fun _ => .ite serves.panic (.bind (closeFiles _ _) fun _ =>
    .bind serves.iputCwd fun _ => .bind (.perform trivial fun _ _ h => h) fun _ =>
      .bind (.perform trivial fun _ _ h => h) fun _ => .abort trivial)

theorem deviceGet {ip major : ℕ} : Goes own own (deviceGet ip major) :=
  .bind (.perform trivial fun _ _ h => h) fun _ => .ite .pure exit

theorem readi {ip off n : ℕ} : Goes own own (readi ip off n) :=
  serves.readi fun _ => .bind deviceGet fun _ => serves.deviceRead

theorem writei {ip off : ℕ} {src : List UInt8} : Goes true true (writei ip off src) :=
  serves.writei rfl fun _ => .bind deviceGet fun _ => serves.deviceWrite

/-! ## System calls -/

theorem fdalloc {f : ℕ} : Goes own own (fdalloc f) := by
  refine .bind serves.getProc fun x => ?_
  split
  · exact .pure
  · exact .bind (.perform trivial fun _ _ h => h) fun _ => .pure

theorem sysClose {fd : ℤ} : Goes own own (sysClose fd) := by
  refine .bind serves.argfd fun f => ?_
  cases f with
  | none => exact .pure
  | some f =>
    exact .bind (.perform trivial fun _ _ h => h) fun _ => .bind fileclose fun _ => .pure

theorem openFile {ip : ℕ} {omode : BitVec 32} : Goes own own (openFile ip omode) := by
  refine .bind (.perform trivial fun _ _ h => h) fun f => ?_
  cases f with
  | none => exact .bind serves.iunlockput fun _ => .pure
  | some f =>
    refine .bind fdalloc fun fd => ?_
    cases fd with
    | none => exact .bind fileclose fun _ => .bind serves.iunlockput fun _ => .pure
    | some fd =>
      exact .bind serves.iunlock fun _ => .bind (.perform trivial fun _ _ h => h) fun _ =>
        .bind serves.getProc fun _ => .bind serves.getInode fun _ =>
          .bind (.ite (.perform trivial fun _ _ h => h) .pure) fun _ => .pure

theorem sysOpen {path : Arg} {omode : BitVec 32} : Goes false false (sysOpen path omode) := by
  cases path with
  | none => exact .pure
  | some path =>
    exact .bind serves.openMode fun _ => .bindOption (serves.openInode rfl) .pure fun ip => openFile

theorem dupFiles (n fd : ℕ) : Goes own own (dupFiles n fd) := by
  induction n generalizing fd with
  | zero =>
    rw [Sys.dupFiles]
    exact .pure
  | succ n ih =>
    rw [Sys.dupFiles]
    refine .bind serves.getProc fun x => ?_
    cases x.ofile fd with
    | none => exact ih (fd + 1)
    | some f => exact .bind (.perform trivial fun _ _ h => h) fun _ => ih (fd + 1)

theorem fork : Goes own own fork := by
  refine .bind (.perform trivial fun _ _ h => h) fun r => ?_
  cases r with
  | none => exact .pure
  | some np =>
    refine .bind serves.ask fun _ => .ite (.bind (.perform trivial fun _ _ h => h) fun _ => .pure)
      (.bind (dupFiles _ _) fun _ => .bind serves.getProc fun x => ?_)
    cases x.cwd with
    | none => exact .abort trivial
    | some ip => exact .bind serves.idup fun _ => .bind (.perform trivial fun _ _ h => h) fun _ => .pure

theorem servesExec : ServesExec discipline own (fun _ => own) (fun _ => own) where
  namei _ := follows_mono (fun r _ h => by cases r <;> exact h) serves.namei
  ilock _ := serves.ilock
  readi _ _ _ := readi
  iunlockput _ := serves.iunlockput
  ask _ := serves.ask
  panic _ _ := trivial

end Goes

end Qwin.Sys
