import Qwin.Lib.Protocol
import Qwin.Sys.Call

/-!
# The file system under a protocol

The functions of `fs.c`, and the calls that look names up and change inodes, do little that a
protocol looks at: they lock and unlock inodes, begin and end a transaction, and write to the
disk inside of one. So any protocol that says what these steps do to the token is followed by all
of them.
-/

namespace Qwin.Sys

open Prog Fs

/-- Steps that look something up, or change the inode cache or an offset. -/
def Plain : (β : Type) → Plus CoreAct DiskAct β → Prop
  | _, .left (.iget _ _) => True
  | _, .left (.idup _) => True
  | _, .left (.getInode _) => True
  | _, .left (.assign _ _) => True
  | _, .left .getProc => True
  | _, .left (.setCwd _) => True
  | _, .left (.getFile _) => True
  | _, .left (.advance _ _) => True
  | _, .left (.setOff _ _) => True
  | _, .left .ask => True
  | _, .left .isInit => True
  | _, .right (.load _) => True
  | _, .right (.size _) => True
  | _, .right (.readi _ _ _) => True
  | _, _ => False

/-- What a protocol says about the steps of the file system. A token is changed by `lock` and
`begin`, some tokens allow to write to the disk, and a transaction begins with one at rest. -/
structure ServesFs {τ : Type} (P : Protocol (Plus CoreAct DiskAct) τ) (lock : τ → ℕ → τ)
    (begin : τ → τ) (Writes Rest : τ → Prop) : Prop where
  lock_comm : ∀ t ip dp, lock (lock t ip) dp = lock (lock t dp) ip
  writes_lock : ∀ {t} ip, Writes t → Writes (lock t ip)
  writes_begin : ∀ t, Writes (begin t)
  plain : ∀ {t β} {a : Plus CoreAct DiskAct β}, Plain β a → Takes P t t (perform a)
  mayPanic : ∀ {t q}, P.pre Empty (.left (.panic q)) t
  mayFault : ∀ {t}, P.pre Empty (.left .fault) t
  write : ∀ {t β} {a : DiskAct β}, Writes t → Takes P t t (disk a)
  lockInode : ∀ {t ip}, Takes P t (lock t ip) (core (.lockInode ip))
  iunlock : ∀ {t ip}, Takes P (lock t ip) t (iunlock ip)
  iput : ∀ {t ip}, Takes P t t (iput ip)
  beginTrans : ∀ {t}, Rest t → Takes P t (begin t) (core .beginTrans)
  commitTrans : ∀ {t}, Rest t → Takes P (begin t) t (core .commitTrans)
  commitLocked : ∀ {t ip}, Rest t → Takes P (lock (begin t) ip) (lock t ip) (core .commitTrans)

namespace ServesFs

variable {τ α : Type} {P : Protocol (Plus CoreAct DiskAct) τ} {lock : τ → ℕ → τ} {begin : τ → τ}
  {Writes Rest : τ → Prop} (h : ServesFs P lock begin Writes Rest) {t u : τ} {ip dp f n off : ℕ}
  {name path : List UInt8} {type major minor : Short} {fd : ℤ} {v : User}

include h

/-! ## `fs.c` -/

theorem panic {q : Panic} : Takes P t u (panic q : IProg α) := .abort h.mayPanic

theorem fault : Takes P t u (abort (.left .fault) : IProg α) := .abort h.mayFault

theorem getInode : Takes P t t (core (.getInode ip)) := h.plain trivial

theorem getProc : Takes P t t (core .getProc) := h.plain trivial

theorem assign {a : Assign} : Takes P t t (core (.assign ip a)) := h.plain trivial

theorem ask : Takes P t t (core .ask) := h.plain trivial

theorem size : Takes P t t (disk (.size ip)) := h.plain trivial

theorem iget {dev inum : ℕ} : Takes P t t (iget dev inum) := h.plain trivial

theorem idup : Takes P t t (idup ip) := h.plain trivial

theorem ilock : Takes P t (lock t ip) (ilock ip) :=
  .bind h.lockInode fun _ => .bind h.getInode fun _ => .ite .pure
    (.bind (h.plain trivial) fun _ => .bind h.getInode fun _ => .ite h.panic .pure)

theorem iunlockput : Takes P (lock t ip) t (iunlockput ip) := .bind h.iunlock fun _ => h.iput

theorem readDirent {q : Panic} : Takes P t t (readDirent dp off q) := by
  refine .bind (h.plain trivial) fun r => ?_
  cases r with
  | none => exact h.panic
  | some l => exact .ite .pure h.panic

theorem lookupLoop {size : ℕ} (fuel off : ℕ) : Takes P t t (lookupLoop dp name size fuel off) := by
  induction fuel generalizing off with
  | zero =>
    rw [Fs.lookupLoop]
    exact .pure
  | succ fuel ih =>
    rw [Fs.lookupLoop]
    exact .ite (.bind h.readDirent fun _ => .ite (ih _) (.ite .pure (ih _))) .pure

theorem dirlookup : Takes P t t (dirlookup dp name) := by
  refine .bind h.getInode fun _ => .ite h.panic
    (.bind h.size fun _ => .bind (h.lookupLoop _ _) fun r => ?_)
  cases r with
  | none => exact .pure
  | some x => exact .bind h.iget fun _ => .pure

theorem emptyLoop {size : ℕ} (fuel off : ℕ) : Takes P t t (emptyLoop dp size fuel off) := by
  induction fuel generalizing off with
  | zero =>
    rw [Fs.emptyLoop]
    exact .pure
  | succ fuel ih =>
    rw [Fs.emptyLoop]
    exact .ite (.bind h.readDirent fun _ => .ite .pure (ih _)) .pure

theorem dirlink {inum : ℕ} (hw : Writes t) : Takes P t t (dirlink dp name inum) := by
  refine .bind h.dirlookup fun r => ?_
  cases r with
  | some x => exact .bind h.iput fun _ => .pure
  | none =>
    exact .bind h.size fun _ => .bind (h.emptyLoop _ _) fun _ => .bind (h.write hw) fun _ =>
      .ite .pure h.panic

theorem namexLoop {parent : Bool} (path : List (List UInt8)) (ip : ℕ) :
    Takes P t t (namexLoop parent path ip) := by
  induction path generalizing ip with
  | nil =>
    rw [Fs.namexLoop]
    exact .ite (.bind h.iput fun _ => .pure) .pure
  | cons name path ih =>
    rw [Fs.namexLoop]
    refine .bind h.ilock fun _ => .bind h.getInode fun _ => .ite (.bind h.iunlockput fun _ => .pure)
      (.ite (.bind h.iunlock fun _ => .pure) (.bind h.dirlookup fun r => ?_))
    cases r with
    | none => exact .bind h.iunlockput fun _ => .pure
    | some x => exact .bind h.iunlockput fun _ => ih x.1

theorem namex {parent : Bool} : Takes P t t (namex path parent) := by
  refine .bind (.ite h.iget (.bind h.getProc fun x => ?_)) fun _ => h.namexLoop _ _
  cases x.cwd with
  | none => exact h.fault
  | some ip => exact .bind h.idup fun _ => .pure

theorem namei : Takes P t t (namei path) := .bind h.namex fun _ => .pure

theorem iputCwd : Takes P t t iputCwd := by
  refine .bind h.getProc fun x => ?_
  cases x.cwd with
  | some ip => exact h.iput
  | none => exact h.fault

/-! ## `link` and `unlink` -/

theorem setNlink {g : Short → Short} (hw : Writes t) : Takes P t t (setNlink ip g) :=
  .bind h.getInode fun _ => .bind h.assign fun _ => h.write hw

theorem linkBad (hr : Rest t) : Takes P (begin t) t (linkBad ip) :=
  .bind h.ilock fun _ => .bind (h.setNlink (h.writes_lock ip (h.writes_begin t))) fun _ =>
    .bind h.iunlockput fun _ => .bind (h.commitTrans hr) fun _ => .pure

theorem linkIn (hr : Rest t) : Takes P (begin t) t (linkIn ip dp name) :=
  .bind h.ilock fun _ => .bind h.getInode fun _ => .bind h.getInode fun _ =>
    .ite (.bind h.iunlockput fun _ => h.linkBad hr)
      (.bind (h.dirlink (h.writes_lock dp (h.writes_begin t))) fun _ =>
        .ite (.bind h.iunlockput fun _ => .bind h.iput fun _ =>
            .bind (h.commitTrans hr) fun _ => .pure)
          (.bind h.iunlockput fun _ => h.linkBad hr))

theorem sysLink {old new : Arg} (hr : Rest t) : Takes P t t (sysLink old new) := by
  unfold Sys.sysLink
  split
  · refine .bind h.namei fun r => ?_
    cases r with
    | none => exact .pure
    | some ip =>
      refine .bind (h.beginTrans hr) fun _ => .bind h.ilock fun _ => .bind h.getInode fun _ =>
        .ite (.bind h.iunlockput fun _ => .bind (h.commitTrans hr) fun _ => .pure)
          (.bind (h.setNlink (h.writes_lock ip (h.writes_begin t))) fun _ =>
            .bind h.iunlock fun _ => .bind h.namex fun r => ?_)
      cases r with
      | none => exact h.linkBad hr
      | some x => exact h.linkIn hr
  · exact .pure

theorem isdiremptyLoop {size : ℕ} (fuel off : ℕ) :
    Takes P t t (isdiremptyLoop dp size fuel off) := by
  induction fuel generalizing off with
  | zero =>
    rw [Sys.isdiremptyLoop]
    exact .pure
  | succ fuel ih =>
    rw [Sys.isdiremptyLoop]
    exact .ite (.bind h.readDirent fun _ => .ite .pure (ih _)) .pure

theorem nonemptyDir : Takes P t t (nonemptyDir ip) :=
  .bind h.getInode fun _ => .ite
    (.bind (.bind h.size fun _ => h.isdiremptyLoop _ _) fun _ => .pure) .pure

theorem unlinkBad (hr : Rest t) : Takes P (lock (begin t) dp) t (unlinkBad dp) :=
  .bind h.iunlockput fun _ => .bind (h.commitTrans hr) fun _ => .pure

theorem unlinkEntry (hr : Rest t) :
    Takes P (lock (lock (begin t) dp) ip) t (unlinkEntry dp ip off) := by
  have hw := h.writes_lock ip (h.writes_begin t)
  have hw' := h.writes_lock dp hw
  rw [h.lock_comm]
  exact .bind (h.write hw') fun _ => .ite h.panic (.bind h.getInode fun _ =>
    .bind (.ite (h.setNlink hw') .pure) fun _ => .bind h.iunlockput fun _ =>
      .bind (h.setNlink hw) fun _ => .bind h.iunlockput fun _ =>
        .bind (h.commitTrans hr) fun _ => .pure)

theorem unlinkFound (hr : Rest t) : Takes P (lock (begin t) dp) t (unlinkFound dp ip off) :=
  .bind h.ilock fun _ => .bind h.getInode fun _ => .ite h.panic (.bind h.nonemptyDir fun _ =>
    .ite (.bind h.iunlockput fun _ => h.unlinkBad hr)
      (.bind h.getProc fun _ => .bind h.getInode fun _ =>
        .ite (.bind h.iunlockput fun _ => h.unlinkBad hr) (h.unlinkEntry hr)))

theorem sysUnlink {path : Arg} (hr : Rest t) : Takes P t t (sysUnlink path) := by
  cases path with
  | none => exact .pure
  | some path =>
    refine .bind h.namex fun r => ?_
    cases r with
    | none => exact .pure
    | some x =>
      refine .bind (h.beginTrans hr) fun _ => .bind h.ilock fun _ => .ite (h.unlinkBad hr)
        (.bind h.dirlookup fun r => ?_)
      cases r with
      | none => exact h.unlinkBad hr
      | some y => exact h.unlinkFound hr

/-! ## `create` and `open` -/

theorem createDots (hw : Writes t) : Takes P t t (createDots dp ip) :=
  .bind (h.setNlink hw) fun _ => .bind h.getInode fun _ => .bind (h.dirlink hw) fun _ => .ite
    (.bind h.getInode fun _ => .bind (h.dirlink hw) fun _ => .ite .pure h.panic) h.panic

theorem createNew (hw : Writes t) :
    (createNew dp name type major minor).Follows P (fun r u => u = r.elim t (lock t))
      (lock t dp) := by
  unfold Sys.createNew
  have hw' := h.writes_lock dp hw
  refine follows_bind_eq h.getInode fun _ =>
    follows_bind_eq (.bind (h.write hw') fun _ => h.iget) fun ip => ?_
  have hwi := h.writes_lock dp (h.writes_lock ip hw)
  refine follows_bind_eq h.ilock fun _ => ?_
  rw [h.lock_comm]
  refine follows_bind_eq h.assign fun _ => follows_bind_eq h.assign fun _ => ?_
  refine follows_bind_eq h.assign fun _ => follows_bind_eq h.getProc fun _ => ?_
  refine follows_bind_eq h.assign fun _ => follows_bind_eq (h.write hwi) fun _ => ?_
  refine follows_bind_eq (.ite (h.createDots hwi) .pure) fun _ =>
    follows_bind_eq h.getInode fun _ => follows_bind_eq (h.dirlink hwi) fun ok => ?_
  split
  · exact follows_bind_eq h.iunlockput fun _ => rfl
  · exact follows_act.2 ⟨h.mayPanic, fun r => nomatch r⟩

theorem create (hw : Writes t) :
    (create path type major minor).Follows P (fun r u => u = r.elim t (lock t)) t := by
  refine follows_bind_eq h.namex fun r => ?_
  cases r with
  | none => exact rfl
  | some x =>
    refine follows_bind_eq h.ilock fun _ => follows_bind_eq h.dirlookup fun r => ?_
    cases r with
    | none => exact h.createNew hw
    | some y =>
      refine follows_bind_eq h.iunlockput fun _ => follows_bind_eq h.ilock fun _ =>
        follows_bind_eq h.getInode fun _ => ?_
      split
      · exact rfl
      · exact follows_bind_eq h.iunlockput fun _ => rfl

theorem openMode {omode : BitVec 32} : Takes P t t (openMode path omode) := by
  refine .bind h.namei fun r => ?_
  cases r with
  | none => exact .pure
  | some ip =>
    exact .bind h.ilock fun _ => .bind h.getInode fun _ => .bind h.iunlockput fun _ =>
      .ite .pure .pure

theorem openInode {omode : BitVec 32} (hr : Rest t) :
    (openInode path omode).Follows P (fun r u => u = r.elim t (lock t)) t := by
  unfold Sys.openInode
  split
  · refine follows_bind_eq (h.beginTrans hr) fun _ => follows_bind (h.create (h.writes_begin t)) ?_
    rintro r _ rfl
    cases r with
    | none => exact follows_bind_eq (h.commitTrans hr) fun _ => rfl
    | some ip => exact follows_bind_eq (h.commitLocked hr) fun _ => rfl
  · refine follows_bind_eq h.namei fun r => ?_
    cases r with
    | none => exact rfl
    | some ip =>
      refine follows_bind_eq h.ilock fun _ => follows_bind_eq h.getInode fun _ => ?_
      split
      · exact follows_bind_eq h.iunlockput fun _ => rfl
      · exact rfl

theorem sysMake {path : Arg} (hr : Rest t) : Takes P t t (sysMake path type major minor) := by
  refine .bind (h.beginTrans hr) fun _ => ?_
  cases path with
  | none => exact .bind (h.commitTrans hr) fun _ => .pure
  | some path =>
    exact .bindOption (h.create (h.writes_begin t)) (.bind (h.commitTrans hr) fun _ => .pure)
      fun ip => .bind h.iunlockput fun _ => .bind (h.commitTrans hr) fun _ => .pure

theorem sysChdir {path : Arg} : Takes P t t (sysChdir path) := by
  cases path with
  | none => exact .pure
  | some path =>
    refine .bind h.namei fun r => ?_
    cases r with
    | none => exact .pure
    | some ip =>
      exact .bind h.ilock fun _ => .bind h.getInode fun _ =>
        .ite (.bind h.iunlockput fun _ => .pure) (.bind h.iunlock fun _ => .bind h.iputCwd fun _ =>
          .bind (h.plain trivial) fun _ => .pure)

/-! ## Devices and files -/

theorem askBytes (n : ℕ) : Takes P t t (askBytes n) := by
  induction n with
  | zero =>
    rw [Sys.askBytes]
    exact .pure
  | succ n ih =>
    rw [Sys.askBytes]
    exact .bind h.ask fun _ => .bind ih fun _ => .pure

theorem deviceRead {d : Device} : Takes P (lock t ip) (lock t ip) (deviceRead ip n d) := by
  cases d with
  | tty =>
    exact .bind h.iunlock fun _ => .bind h.ask fun _ => .bind (h.askBytes _) fun _ =>
      .bind h.ilock fun _ => .ite .pure .pure
  | null => exact .pure
  | zero => exact .ite .pure .pure

theorem deviceWrite {d : Device} : Takes P (lock t ip) (lock t ip) (deviceWrite ip n d) := by
  cases d with
  | tty => exact .bind h.iunlock fun _ => .bind h.ilock fun _ => .pure
  | null => exact .pure
  | zero => exact .pure

theorem readi (hdev : ∀ major, Takes P t t (deviceGet ip major >>= Sys.deviceRead ip n)) :
    Takes P t t (readi ip off n) := by
  refine .bind h.getInode fun i => .ite (.ite .pure (hdev _)) (.bind (h.plain trivial) fun r => ?_)
  cases r with
  | some l => exact .pure
  | none => exact .pure

theorem writei {src : List UInt8} (hw : Writes t)
    (hdev : ∀ major, Takes P t t (deviceGet ip major >>= Sys.deviceWrite ip src.length)) :
    Takes P t t (writei ip off src) := by
  refine .bind h.getInode fun i => .ite (.ite .pure (hdev _)) (.bind (h.write hw) fun r => ?_)
  cases r with
  | some l => exact .pure
  | none => exact .pure

theorem getFile : Takes P t t (core (.getFile f)) := h.plain trivial

theorem advance {r : ℤ} : Takes P t t (advance f r) := .ite (h.plain trivial) .pure

theorem fileread {addr n : BitVec 32}
    (hread : ∀ ip off n, Takes P (lock t ip) (lock t ip) (Sys.readi ip off n)) :
    Takes P t t (fileread f addr n) := by
  refine .bind h.getFile fun x => .ite .pure ?_
  cases x.type with
  | pipe => exact .bind h.ask fun _ => .bind (h.askBytes _) fun _ => .pure
  | none => exact h.panic
  | inode =>
    exact .bind h.ilock fun _ => .bind h.getFile fun _ => .bind (hread _ _ _) fun _ =>
      .bind h.advance fun _ => .bind h.iunlock fun _ => .pure

variable (hr : Rest t) {src : List UInt8} (hwrite : ∀ ip off src,
  Takes P (lock (begin t) ip) (lock (begin t) ip) (Sys.writei ip off src))

include hr hwrite in
theorem filewriteLoop (fuel : ℕ) (src : List UInt8) : Takes P t t (filewriteLoop f ip fuel src) := by
  induction fuel generalizing src with
  | zero =>
    rw [Sys.filewriteLoop]
    exact .pure
  | succ fuel ih =>
    rw [Sys.filewriteLoop]
    exact .ite .pure (.bind (h.beginTrans hr) fun _ => .bind h.ilock fun _ =>
      .bind h.getFile fun _ => .bind (hwrite _ _ _) fun _ => .bind h.advance fun _ =>
        .bind h.iunlock fun _ => .bind (h.commitTrans hr) fun _ =>
          .ite .pure (.ite h.panic (ih _)))

include hr hwrite in
theorem filewrite : Takes P t t (filewrite f src) := by
  refine .bind h.getFile fun x => .ite .pure ?_
  cases x.type with
  | pipe => exact h.ask
  | none => exact h.panic
  | inode => exact .bind (h.filewriteLoop hr hwrite _ _) fun _ => .pure

theorem argfd : Takes P t t (argfd fd) := .bind h.getProc fun _ => .ite .pure .pure

theorem userArgfd {k : ℕ} : Takes P t t (v.argfd k) := by
  unfold User.argfd
  cases v.argint k with
  | none => exact .pure
  | some fd => exact h.argfd

theorem sysRead (hread : ∀ ip off n, Takes P (lock t ip) (lock t ip) (Sys.readi ip off n)) :
    Takes P t t v.sysRead := by
  refine .bind h.userArgfd fun f => ?_
  split
  · split
    · exact h.fileread hread
    · exact .pure
  · exact .pure

include hr hwrite in
theorem sysWrite : Takes P t t (sysWrite fd src) := by
  refine .bind h.argfd fun f => ?_
  cases f with
  | none => exact .pure
  | some f => exact h.filewrite hr hwrite

theorem filestat {addr : BitVec 32} : Takes P t t (filestat f addr) := by
  refine .bind h.getFile fun x => ?_
  cases x.type with
  | inode =>
    exact .bind h.ilock fun _ => .bind h.getInode fun _ => .bind h.size fun _ =>
      .bind h.iunlock fun _ => .pure
  | _ => exact .pure

theorem sysFstat : Takes P t t v.sysFstat := by
  refine .bind h.userArgfd fun f => ?_
  split
  · exact h.filestat
  · exact .pure

theorem sysLseek {base : ℤ} {offset : ℕ} : Takes P t t (sysLseek fd offset base) := by
  refine .bind h.argfd fun f => ?_
  cases f with
  | none => exact .pure
  | some f =>
    exact .bind (.ite (h.plain trivial) .pure) fun _ =>
      .bind (.ite (h.plain trivial) .pure) fun _ => .pure

/-! ## `getcwd` -/

variable (hread : ∀ ip off n, Takes P t t (Sys.readi ip off n))
include hread

theorem nameOfInode {inum parent : ℕ} (fuel off : ℕ) :
    Takes P t t (nameOfInode inum parent fuel off) := by
  induction fuel generalizing off with
  | zero =>
    rw [Sys.nameOfInode]
    exact h.fault
  | succ fuel ih =>
    rw [Sys.nameOfInode]
    refine .bind h.size fun size => .ite (.bind (hread _ _ _) fun r => ?_) .pure
    cases r with
    | ok l => exact .ite h.panic (.ite .pure (ih _))
    | error e => exact h.panic

theorem nameForInode {buf : BitVec 32} {n : ℤ} (depth ip : ℕ) :
    Takes P t t (nameForInode buf n depth ip) := by
  induction depth generalizing ip with
  | zero =>
    rw [Sys.nameForInode]
    exact h.fault
  | succ depth ih =>
    rw [Sys.nameForInode]
    refine .bind h.namei fun root => ?_
    cases root with
    | none => exact h.fault
    | some root =>
      refine .bind h.getInode fun i => .bind h.getInode fun r => .ite .pure
        (.ite (.bind h.dirlookup fun parent => ?_) (.ite h.panic h.panic))
      cases parent with
      | none => exact h.fault
      | some parent =>
        refine .bind (h.nameOfInode hread _ _) fun name => ?_
        cases name with
        | none => exact h.panic
        | some name => exact .bind (ih _) fun off => .ite .pure (.bind h.iput fun _ => .pure)

theorem sysGetcwd {depth : ℕ} : Takes P t t (v.sysGetcwd depth) := by
  unfold User.sysGetcwd
  split
  · exact .pure
  · refine .bind h.getProc fun x => ?_
    cases x.cwd with
    | none => exact h.fault
    | some ip => exact h.nameForInode hread _ _

end ServesFs

end Qwin.Sys
