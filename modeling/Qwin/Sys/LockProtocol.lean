import Mathlib.Data.Multiset.AddSub
import Qwin.Sys.FsProtocol
import Qwin.Sys.Task

/-!
# The lock protocol

What a process has locked: the inodes whose `I_BUSY` it has set and whether it owns the
transaction. `begin_trans` is called by a process that has locked nothing, `iunlock` on an
inode that the process has locked, and a call ends with nothing locked.

`sys_open` closes a file while it has an inode locked. That file was allocated just before
and stands for nothing, so closing it starts no transaction.

The protocol assumes one thing of the answers: a device is only asked for by a process that
has locked the inode, and it is enabled.
-/

namespace Qwin.Sys

open Prog Fs

structure LockToken where
  own : Bool
  locks : Multiset ℕ
  -- the file of the last `filealloc`, until something is done with it
  fresh : Option ℕ

namespace LockToken

structure Rest (t : LockToken) : Prop where
  own : t.own = false
  locks : t.locks = 0

def lock (t : LockToken) (ip : ℕ) : LockToken := { t with locks := ip ::ₘ t.locks }

def unlock (t : LockToken) (ip : ℕ) : LockToken := { t with locks := t.locks.erase ip }

def begin (t : LockToken) : LockToken := { t with own := true }

def commit (t : LockToken) : LockToken := { t with own := false }

/-- The last `filealloc` is forgotten. -/
def settle (t : LockToken) : LockToken := { t with fresh := none }

end LockToken

/-- What the steps on the kernel tables do to the token. -/
def lockProtocol : Protocol CoreAct LockToken where
  pre
    | _, .iunlock ip, t => ip ∈ t.locks
    | _, .iputEnd ip, t => ip ∈ t.locks
    | _, .beginTrans, t => t.Rest
    | _, .commitTrans, t => t.own = true
    | _, .halt, t => t.Rest
    | _, _, _ => True
  next
    | _, .lockInode ip, t, _, t' => t' = t.lock ip
    | _, .iunlock ip, t, _, t' => t' = t.unlock ip
    | _, .iputBegin ip, t, free, t' => t' = if free then t.lock ip else t
    | _, .iputEnd ip, t, _, t' => t' = t.unlock ip
    | _, .beginTrans, t, _, t' => t' = t.begin
    | _, .commitTrans, t, _, t' => t' = t.commit
    | _, .deviceEnabled ip _, t, enabled, t' => t' = t ∧ enabled = true ∧ ip ∈ t.locks
    | _, .filealloc, t, r, t' => t' = { t with fresh := r }
    | _, .filedup _, t, _, t' => t' = t.settle
    | _, .openFile _ _ _ _, t, _, t' => t' = t.settle
    | _, .openPipe _ _ _, t, _, t' => t' = t.settle
    | _, .fileDrop f, t, r, t' =>
      t' = t.settle ∧ (t.fresh = some f → ∀ x, r = some x → x.type = .none)
    | _, _, t, _, t' => t' = t

namespace LockToken

variable {t : LockToken} {ip dp : ℕ}

@[simp] theorem unlock_lock : (t.lock ip).unlock ip = t := by
  simp [lock, unlock]

theorem lock_unlock (h : ip ∈ t.locks) : (t.unlock ip).lock ip = t := by
  simp [lock, unlock, Multiset.cons_erase h]

theorem lock_comm : (t.lock ip).lock dp = (t.lock dp).lock ip := by
  simp [lock, Multiset.cons_swap]

theorem commit_begin (h : t.own = false) : t.begin.commit = t := by
  simp [commit, begin, ← h]

theorem Rest.settle (h : t.Rest) : t.settle.Rest := ⟨h.own, h.locks⟩

end LockToken

/-- The program keeps to the lock protocol and takes the token from `t` to `u`. -/
abbrev Locks {α : Type} (t u : LockToken) (c : IProg α) : Prop := Takes lockProtocol.onLeft t u c

/-- The program keeps to the lock protocol and ends with `Q`. -/
abbrev InLocks {α : Type} (Q : α → LockToken → Prop) (c : IProg α) (t : LockToken) : Prop :=
  c.Follows lockProtocol.onLeft Q t

namespace Locks

variable {α : Type} {t u : LockToken} {ip : ℕ}

/-! ## The file system -/

theorem iput : Locks t t (iput ip) := by
  refine follows_bind (follows_perform trivial fun _ _ hn => hn) ?_
  rintro free _ rfl
  cases free with
  | false => exact rfl
  | true =>
    have hend : Locks (t.lock ip) t (core (.iputEnd ip)) :=
      .perform (Multiset.mem_cons_self ip _) fun _ _ hn => hn.trans LockToken.unlock_lock
    exact Takes.bind (.perform trivial fun _ _ h => h) fun _ => hend

theorem plain {β : Type} {a : Plus CoreAct DiskAct β} (h : Plain β a) : Locks t t (perform a) := by
  cases a with
  | left a => cases a <;> first | exact h.elim | exact .perform trivial fun _ _ h => h
  | right a => exact .perform trivial fun _ _ h => h

theorem serves : ServesFs lockProtocol.onLeft LockToken.lock LockToken.begin (fun _ => True)
    LockToken.Rest where
  lock_comm _ _ _ := LockToken.lock_comm
  writes_lock _ _ := trivial
  writes_begin _ := trivial
  plain := plain
  mayPanic := trivial
  mayFault := trivial
  write _ := .perform trivial fun _ _ h => h
  lockInode := .perform trivial fun _ _ h => h
  iunlock := .perform (Multiset.mem_cons_self _ _) fun _ _ hn => hn.trans LockToken.unlock_lock
  iput := iput
  beginTrans h := .perform h fun _ _ h => h
  commitTrans h := .perform rfl fun _ _ hn => hn.trans (LockToken.commit_begin h.own)
  commitLocked {t ip} h :=
    .perform rfl fun _ _ hn => hn.trans (LockToken.commit_begin (t := t.lock ip) h.own)

/-- `device_get` answers a process that has locked the inode. -/
theorem deviceGet {major : ℕ} :
    InLocks (fun _ u => u = t ∧ ip ∈ t.locks) (deviceGet ip major) t := by
  refine follows_bind (follows_perform trivial fun _ _ hn => hn) ?_
  rintro enabled _ ⟨rfl, rfl, hmem⟩
  exact ⟨rfl, hmem⟩

theorem of_device {c : Device → IProg α} {major : ℕ}
    (hc : ∀ t d, Locks (LockToken.lock t ip) (t.lock ip) (c d)) :
    Locks t t (Sys.deviceGet ip major >>= c) := by
  refine follows_bind deviceGet ?_
  rintro d _ ⟨rfl, hmem⟩
  rw [← LockToken.lock_unlock hmem]
  exact hc _ d

theorem readi {off n : ℕ} : Locks t t (readi ip off n) :=
  serves.readi fun _ => of_device fun _ _ => serves.deviceRead

theorem writei {off : ℕ} {src : List UInt8} : Locks t t (writei ip off src) :=
  serves.writei trivial fun _ => of_device fun _ _ => serves.deviceWrite

theorem servesExec : ServesExec lockProtocol.onLeft t (fun _ => t) t.lock where
  namei _ := follows_mono (fun r _ h => by cases r <;> exact h) serves.namei
  ilock _ := serves.ilock
  readi _ _ _ := readi
  iunlockput _ := serves.iunlockput
  ask _ := serves.ask
  panic _ _ := trivial

/-! ## Files -/

theorem pipeclose {i : ℕ} {w : Bool} : Locks t t (pipeclose i w) :=
  .bind (.perform trivial fun _ _ h => h) fun _ => .ite (.perform trivial fun _ _ h => h) .pure

theorem fileclose {f : ℕ} (h : t.Rest) : Locks t t.settle (Sys.fileclose f) := by
  refine follows_bind (follows_perform trivial fun _ _ hn => hn) ?_
  rintro last _ ⟨rfl, -⟩
  cases last with
  | none => exact rfl
  | some x =>
    dsimp only
    cases x.type with
    | pipe => exact pipeclose
    | none => exact rfl
    | inode =>
      exact Takes.bind (serves.beginTrans h.settle) fun _ => .bind iput fun _ =>
        serves.commitTrans h.settle

/-- A file that was just allocated is closed, whatever is locked. -/
theorem fileclose_fresh {f : ℕ} (h : t.fresh = some f) : Locks t t.settle (Sys.fileclose f) := by
  refine follows_bind (follows_perform trivial fun _ _ hn => hn) ?_
  rintro last _ ⟨rfl, hnone⟩
  cases last with
  | none => exact rfl
  | some x =>
    dsimp only
    rw [hnone h x rfl]
    exact rfl

theorem closeFiles (n fd : ℕ) {t : LockToken} (h : t.Rest) :
    InLocks (fun _ u => u.Rest) (closeFiles n fd) t := by
  induction n generalizing fd t with
  | zero =>
    rw [Sys.closeFiles]
    exact h
  | succ n ih =>
    rw [Sys.closeFiles]
    refine follows_bind_eq serves.getProc fun x => ?_
    cases x.ofile fd with
    | none => exact ih (fd + 1) h
    | some f =>
      refine follows_bind_eq (fileclose h) fun _ => ?_
      exact follows_bind_eq (.perform trivial fun _ _ h => h) fun _ => ih (fd + 1) h.settle

theorem exit (h : t.Rest) : Locks t u (exit : IProg α) := by
  refine .bind (.perform trivial fun _ _ h => h) fun init => .ite serves.panic ?_
  refine follows_bind (closeFiles NOFILE 0 h) fun _ v hv => ?_
  refine Takes.bind serves.iputCwd fun _ => .bind (.perform trivial fun _ _ h => h) fun _ => ?_
  exact .bind (.perform trivial fun _ _ h => h) fun _ => .abort hv

theorem fdalloc {f : ℕ} : Locks t t (fdalloc f) := by
  refine .bind serves.getProc fun x => ?_
  split
  · exact .pure
  · exact .bind (.perform trivial fun _ _ h => h) fun _ => .pure

theorem filealloc : InLocks (fun r u => u = { t with fresh := r }) (core .filealloc) t :=
  follows_perform trivial fun _ _ hn => hn

/-- The last part of `sys_open`, which has the inode locked. -/
theorem openFile {omode : BitVec 32} (h : t.Rest) :
    InLocks (fun _ u => u.Rest) (openFile ip omode) (t.lock ip) := by
  refine follows_bind filealloc ?_
  rintro r _ rfl
  cases r with
  | none =>
    have hput : Locks { t.lock ip with fresh := none } t.settle (Fs.iunlockput ip) :=
      serves.iunlockput
    exact follows_bind_eq hput fun _ => h.settle
  | some f =>
    refine follows_bind_eq fdalloc fun fd => ?_
    cases fd with
    | none =>
      have hput : Locks (LockToken.settle { t.lock ip with fresh := some f }) t.settle
        (Fs.iunlockput ip) := serves.iunlockput
      exact follows_bind_eq (fileclose_fresh rfl) fun _ =>
        follows_bind_eq hput fun _ => h.settle
    | some fd =>
      have hunlock : Locks { t.lock ip with fresh := some f } { t with fresh := some f }
        (Fs.iunlock ip) := serves.iunlock
      refine follows_bind_eq hunlock fun _ =>
        follows_bind_eq (.perform trivial fun _ _ hn => hn) fun _ => ?_
      exact follows_bind_eq serves.getProc fun _ => follows_bind_eq serves.getInode fun _ =>
        follows_bind_eq (.ite (.perform trivial fun _ _ h => h) .pure) fun _ => h.settle

theorem sysOpen {path : Arg} {omode : BitVec 32} (h : t.Rest) :
    InLocks (fun _ u => u.Rest) (sysOpen path omode) t := by
  cases path with
  | none => exact h
  | some path =>
    refine follows_bind_eq serves.openMode fun _ => follows_bind (serves.openInode h) ?_
    rintro r _ rfl
    cases r with
    | none => exact h
    | some ip => exact openFile h

theorem sysClose {fd : ℤ} (h : t.Rest) : InLocks (fun _ u => u.Rest) (sysClose fd) t := by
  refine follows_bind_eq serves.argfd fun r => ?_
  cases r with
  | none => exact h
  | some f =>
    exact follows_bind_eq (.perform trivial fun _ _ h => h) fun _ =>
      follows_bind_eq (fileclose h) fun _ => h.settle

theorem sysDup {fd : ℤ} (h : t.Rest) : InLocks (fun _ u => u.Rest) (sysDup fd) t := by
  refine follows_bind_eq serves.argfd fun r => ?_
  cases r with
  | none => exact h
  | some f =>
    refine follows_bind_eq fdalloc fun r => ?_
    cases r with
    | none => exact h
    | some fd => exact follows_bind_eq (.perform trivial fun _ _ hn => hn) fun _ => h.settle

theorem dupFiles (n fd : ℕ) {t : LockToken} (h : t.Rest) :
    InLocks (fun _ u => u.Rest) (dupFiles n fd) t := by
  induction n generalizing fd t with
  | zero =>
    rw [Sys.dupFiles]
    exact h
  | succ n ih =>
    rw [Sys.dupFiles]
    refine follows_bind_eq serves.getProc fun x => ?_
    cases x.ofile fd with
    | none => exact ih (fd + 1) h
    | some f =>
      exact follows_bind_eq (.perform trivial fun _ _ hn => hn) fun _ => ih (fd + 1) h.settle

theorem fork (h : t.Rest) : InLocks (fun _ u => u.Rest) fork t := by
  refine follows_bind_eq (.perform trivial fun _ _ h => h) fun r => ?_
  cases r with
  | none => exact h
  | some np =>
    refine follows_bind_eq serves.ask fun copied => ?_
    split
    · exact follows_bind_eq (.perform trivial fun _ _ h => h) fun _ => h
    · refine follows_bind (dupFiles NOFILE 0 h) fun _ v hv =>
        follows_bind_eq serves.getProc fun x => ?_
      cases x.cwd with
      | none => exact follows_act.2 ⟨trivial, fun r => nomatch r⟩
      | some ip =>
        exact follows_bind_eq serves.idup fun _ =>
          follows_bind_eq (.perform trivial fun _ _ h => h) fun _ => hv

theorem closeBoth {f0 f1 : ℕ} {r : α} (h : t.Rest) :
    InLocks (fun _ u => u.Rest) (do Sys.fileclose f0; Sys.fileclose f1; pure r) t :=
  follows_bind_eq (fileclose h) fun _ => follows_bind_eq (fileclose h.settle) fun _ =>
    h.settle.settle

theorem pipealloc (h : t.Rest) : InLocks (fun _ u => u.Rest) pipealloc t := by
  refine follows_bind filealloc ?_
  rintro r _ rfl
  have h0 : ∀ r, LockToken.Rest { t with fresh := r } := fun _ => ⟨h.own, h.locks⟩
  cases r with
  | none => exact h0 _
  | some f0 =>
    refine follows_bind filealloc ?_
    rintro r _ rfl
    cases r with
    | none => exact follows_bind_eq (fileclose (h0 _)) fun _ => (h0 _).settle
    | some f1 =>
      refine follows_bind_eq (.perform trivial fun _ _ h => h) fun r => ?_
      cases r with
      | none => exact closeBoth (h0 _)
      | some i =>
        exact follows_bind_eq (.perform trivial fun _ _ hn => hn) fun _ =>
          follows_bind_eq (.perform trivial fun _ _ hn => hn) fun _ => h0 _

theorem sysPipe (h : t.Rest) : InLocks (fun _ u => u.Rest) sysPipe t := by
  refine follows_bind (pipealloc h) fun r t ht => ?_
  cases r with
  | none => exact ht
  | some x =>
    refine follows_bind_eq fdalloc fun r => ?_
    cases r with
    | none => exact closeBoth ht
    | some fd0 =>
      refine follows_bind_eq fdalloc fun r => ?_
      cases r with
      | none =>
        exact follows_bind_eq (.perform trivial fun _ _ h => h) fun _ => closeBoth ht
      | some fd1 => exact ht

/-! ## Every task -/

theorem discard {c : IProg α} (h : InLocks (fun _ u => u.Rest) c t) :
    InLocks (fun _ u => u.Rest) (Call.prog.discard c) t :=
  follows_bind h fun _ _ hu => hu

theorem discardStay {c : IProg α} (hc : Locks t t c) (h : t.Rest) :
    InLocks (fun _ u => u.Rest) (Call.prog.discard c) t :=
  follows_bind_eq hc fun _ => h

theorem call (h : t.Rest) : (c : Call) → InLocks (fun _ u => u.Rest) c.prog t
  | .open _ _ => discard (sysOpen h)
  | .close _ => discard (sysClose h)
  | .read _ => discardStay (serves.sysRead fun _ _ _ => readi) h
  | .write _ _ => discardStay (serves.sysWrite h fun _ _ _ => writei) h
  | .link _ _ => discardStay (serves.sysLink h) h
  | .unlink _ => discardStay (serves.sysUnlink h) h
  | .mkdir _ => discardStay (serves.sysMake h) h
  | .mknod _ _ _ => discardStay (serves.sysMake h) h
  | .touch _ => discardStay (serves.sysMake h) h
  | .chdir _ => discardStay serves.sysChdir h
  | .execv _ _ => discardStay (follows_sysExecv servesExec) h
  | .fork => discard (fork h)
  | .exit => follows_mono (fun _ _ hu => hu ▸ h) (exit (u := t) h)

theorem task (h : t.Rest) : (k : Task) → InLocks (fun _ u => u.Rest) k.prog t
  | .call c => call h c
  | .dup _ => discard (sysDup h)
  | .pipe => discard (sysPipe h)
  | .wait => discardStay (.perform trivial fun _ _ hn => hn) h
  | .fstat _ => discardStay serves.sysFstat h
  | .lseek _ _ _ => discardStay serves.sysLseek h
  | .getcwd _ _ => discardStay (serves.sysGetcwd fun _ _ _ => readi) h

end Locks

theorem lockProtocol_minds : Protocol.MindsNoPlain lockProtocol := by
  intro β a t ha
  cases a <;> first | exact False.elim ha | exact ⟨trivial, fun _ _ hn => hn⟩

end Qwin.Sys
