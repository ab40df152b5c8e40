import Qwin.Sys.Discipline

/-!
# Processes in system calls

The kernel as processes that run system calls interleaved, one atomic step of the block
level at a time. A process that is alive may enter any of the calls, with any arguments.
-/

namespace Qwin.Sys

open Prog Fs

/-- Memory as `exec` sees it, answered by the oracle. -/
def vmOracle : (β : Type) → Plus (Plus CoreAct DiskAct) VmAct β → IProg β
  | _, .left a => perform a
  | _, .right .setupkvm => do
      let x ← core .ask
      pure (x ≠ 0)
  | _, .right (.allocuvm _ _) => do
      let x ← core .ask
      pure x.toNat
  | _, .right (.walk _) => do
      let x ← core .ask
      pure (if x < 0 then none else some x.toNat)
  | _, .right (.store _ _) => pure ()
  | _, .right (.clearpteu _) => do
      let x ← core .ask
      pure (x ≠ 0)
  | _, .right (.copyout _ _) => do
      let x ← core .ask
      pure (x ≠ 0)
  | _, .right .freevm => pure ()
  | _, .right (.commit _ _ _) => pure ()

/-- `sys_execv`, with the strings it fetches. -/
def sysExecv (path : Arg) (argv : List (List UInt8)) : IProg ℤ :=
  match path with
  | none => pure (-1)
  | some path => (exec (cstring path) argv).handle vmOracle

variable {argv : List (List UInt8)}

theorem follows_sysExecv {τ : Type} {P : Protocol (Plus CoreAct DiskAct) τ} {t : τ}
    {held locked : ℕ → τ} (h : ServesExec P t held locked) {path : Arg} :
    Takes P t t (sysExecv path argv) := by
  cases path with
  | none => exact rfl
  | some path =>
    refine follows_handle (P := P.onLeft) (fun β a u hpre => ?_) h.exec
    cases a with
    | left a => exact follows_perform hpre fun _ _ hn => hn
    | right a =>
      cases a with
      | store pa l => exact rfl
      | freevm => exact rfl
      | commit sz entry sp => exact rfl
      | _ => exact follows_bind (h.ask u) fun _ _ hu => hu

inductive Call
  | open (path : Arg) (omode : BitVec 32)
  | close (fd : ℤ)
  | read (u : User)
  | write (fd : ℤ) (src : List UInt8)
  | link (old new : Arg)
  | unlink (path : Arg)
  | mkdir (path : Arg)
  | mknod (path : Arg) (major minor : Short)
  | touch (path : Arg)
  | chdir (path : Arg)
  | execv (path : Arg) (argv : List (List UInt8))
  | fork
  | exit

def Call.prog : Call → IProg Unit
  | .open path omode => discard (sysOpen path omode)
  | .close fd => discard (sysClose fd)
  | .read u => discard u.sysRead
  | .write fd src => discard (sysWrite fd src)
  | .link old new => discard (sysLink old new)
  | .unlink path => discard (sysUnlink path)
  | .mkdir path => discard (sysMkdir path)
  | .mknod path major minor => discard (sysMknod path major minor)
  | .touch path => discard (sysTouch path)
  | .chdir path => discard (sysChdir path)
  | .execv path argv => discard (sysExecv path argv)
  | .fork => discard Sys.fork
  | .exit => Sys.exit
where
  /-- Forget the result of a call. -/
  discard {α : Type} (c : IProg α) : IProg Unit := do
    let _ ← c
    pure ()

abbrev Machine := Threads ℕ (Plus CoreAct BlockAct) BState

/-- A process that is alive enters the program that a name stands for. -/
def enterBy {κ : Type} (prog : κ → IProg Unit) (p : ℕ) (k : κ) (st : BState) :
    Option (BProg Unit) :=
  if (st.core.pt.proc p).state.Live then some (prog k).blocks else none

theorem enterBy_eq_some {κ : Type} {prog : κ → IProg Unit} {p : ℕ} {k : κ} {st : BState}
    {c : BProg Unit} : enterBy prog p k st = some c ↔
      (st.core.pt.proc p).state.Live ∧ c = (prog k).blocks := by
  unfold enterBy
  split
  next hlive => exact ⟨fun h => ⟨hlive, (Option.some.inj h).symm⟩, fun h => by rw [h.2]⟩
  next hdead => exact ⟨nofun, fun h => absurd h.1 hdead⟩

/-- A process that is alive may enter a system call. -/
def mayStart (p : ℕ) (st : BState) (c : BProg Unit) : Prop :=
  ∃ call, enterBy Call.prog p call st = some c

theorem mayStart_of_enterBy (p : ℕ) (call : Call) (st : BState) (c : BProg Unit)
    (h : enterBy Call.prog p call st = some c) : mayStart p st c :=
  ⟨call, h⟩

/-- An inode is freed, and a block allocated, only by the process that owns the
transaction. -/
def FreesAsOwner : (β : Type) → ℕ → Plus CoreAct BlockAct β → BState → Prop
  | _, p, .left (.iputBegin ip), st =>
    (st.core.inode ip).ref = 1 ∧ (st.core.inode ip).valid = true ∧
      (st.core.inode ip).nlink = 0 → st.core.owner = some p
  | _, p, .right .callBalloc, st => st.core.owner = some p
  | _, _, _, _ => True

instance (β : Type) (p : ℕ) (a : Plus CoreAct BlockAct β) (st : BState) :
    Decidable (FreesAsOwner β p a st) := by
  unfold FreesAsOwner
  split <;> infer_instance

/-! ## The discipline of the calls -/

theorem Goes.sysExecv {path : Arg} : Goes false false (sysExecv path argv) :=
  follows_sysExecv Goes.servesExec

theorem Goes.discard {α : Type} {c : IProg α} (h : Goes false false c) :
    Goes false false (Call.prog.discard c) :=
  .bind h fun _ => .pure

theorem Goes.call : (c : Call) → Goes false false c.prog
  | .open _ _ => discard sysOpen
  | .close _ => discard sysClose
  | .read _ => discard (serves.sysRead fun _ _ _ => readi)
  | .write _ _ => discard (serves.sysWrite rfl fun _ _ _ => writei)
  | .link _ _ => discard (serves.sysLink rfl)
  | .unlink _ => discard (serves.sysUnlink rfl)
  | .mkdir _ => discard (serves.sysMake rfl)
  | .mknod _ _ _ => discard (serves.sysMake rfl)
  | .touch _ => discard (serves.sysMake rfl)
  | .chdir _ => discard serves.sysChdir
  | .execv _ _ => discard Goes.sysExecv
  | .fork => discard Goes.fork
  | .exit => Goes.exit

def owns (p : ℕ) (st : BState) : Bool := st.core.owner = some p

variable {st : BState} {β : Type} {p : ℕ}

/-- A step on the kernel tables changes who owns the transaction as the protocol says. -/
theorem owns_core {a : CoreAct β} {r : β} {c : Core}
    (hx : st.core.exec p a = .ok (r, c)) (hG : FreesAsOwner β p (.left a) st) :
    blockDiscipline.next β (.left a) (owns p st) r (decide (c.owner = some p)) := by
  cases a with
  | beginTrans =>
    dsimp only [Core.exec] at hx
    split at hx
    · cases hx
    next hnone =>
      cases hx
      refine ⟨?_, decide_eq_true rfl⟩
      rw [owns, hnone]
      rfl
  | commitTrans =>
    cases hx
    exact decide_eq_false nofun
  | iputBegin ip =>
    dsimp only [Core.exec] at hx
    split at hx
    next hfree =>
      split at hx
      · cases hx
      · cases hx
        exact ⟨rfl, fun _ => decide_eq_true (hG hfree)⟩
    · cases hx
      exact ⟨rfl, nofun⟩
  | _ =>
    have howner : c.owner = st.core.owner := by
      dsimp only [Core.exec] at hx
      (repeat' split at hx) <;> cases hx <;> rfl
    exact congrArg (fun o => decide (o = some p)) howner

/-- A step on the kernel tables by one process does not change what another owns. -/
theorem owns_core_other {q : ℕ} {a : CoreAct β} {r : β} {c : Core}
    (hx : st.core.exec p a = .ok (r, c)) (hpre : blockDiscipline.pre β (.left a) (owns p st))
    (hq : q ≠ p) : decide (c.owner = some q) = owns q st := by
  have hpq : some p ≠ some q := fun h => hq (Option.some.inj h).symm
  cases a with
  | beginTrans =>
    dsimp only [Core.exec] at hx
    split at hx
    · cases hx
    next hnone =>
      cases hx
      rw [owns, hnone, decide_eq_false hpq]
      rfl
  | commitTrans =>
    cases hx
    have howner : st.core.owner = some p := of_decide_eq_true hpre
    rw [owns, howner, decide_eq_false hpq]
    rfl
  | _ =>
    have howner : c.owner = st.core.owner := by
      dsimp only [Core.exec] at hx
      (repeat' split at hx) <;> cases hx <;> rfl
    exact congrArg (fun o => decide (o = some q)) howner

variable {st' : BState}

theorem execBlock_core {a : BlockAct β} {r : β}
    (hx : execBlock a st = .ok (r, st')) : st'.core = st.core := by
  cases a <;> dsimp only [execBlock] at hx <;> (repeat' split at hx) <;> cases hx <;> rfl

theorem execCore_eq_ok {a : CoreAct β} {r : β}
    (hx : execCore p a st = .ok (r, st')) : st.core.exec p a = .ok (r, st'.core) := by
  unfold execCore at hx
  split at hx
  · cases hx
  next hc =>
    cases hx
    exact hc

variable {m : Machine}

/-- In every configuration that the system calls reach by steps that meet the condition,
each process keeps to the protocol. -/
theorem disciplined_of_reachable (howner : st.core.owner = none)
    (h : Threads.Reachable blockSem mayStart FreesAsOwner st m) :
    Threads.Disciplined blockDiscipline owns false m := by
  refine Threads.Disciplined.of_reachable ?_ ?_ ?_ ?_ h
  · intro p
    rw [owns, howner]
    rfl
  · rintro p s c ⟨call, hc⟩ -
    obtain ⟨-, rfl⟩ := enterBy_eq_some.1 hc
    exact follows_blocks (Goes.call call)
  · intro β p a s r s' hG hx hpre
    cases a with
    | left a => exact owns_core (execCore_eq_ok hx) hG
    | right a =>
      have hcore : owns p s' = owns p s := by rw [owns, execBlock_core hx, owns]
      rw [hcore]
      cases a with
      | callBalloc => exact ⟨rfl, decide_eq_true hG⟩
      | _ => rfl
  · intro β p a s r s' q hx hpre hq
    cases a with
    | left a => exact owns_core_other (execCore_eq_ok hx) hpre hq
    | right a => rw [owns, execBlock_core hx, owns]

/-- Every `log_write` is made by the process that owns the transaction, in every
interleaving of system calls in which an inode is freed, and a block allocated, only by
the owner. -/
theorem log_write_by_owner (d : ℕ → Block) (oracle : ℕ → ℤ) (m : Machine)
    (h : Threads.Reachable blockSem mayStart FreesAsOwner (bootOn d oracle) m) (p s : ℕ)
    (data : Block) (k : Unit → BProg Unit)
    (hp : m.prog p = some (.act (.right (.logWrite s data)) k)) :
    m.state.core.owner = some p := by
  have hpre := (disciplined_of_reachable rfl h).pre hp
  exact of_decide_eq_true hpre

/-! ## Schedules -/

def atLogWrite (p : ℕ) (m : Machine) : Bool :=
  match m.prog p with
  | some (.act (.right (.logWrite _ _)) _) => true
  | _ => false

theorem exists_of_atLogWrite (h : atLogWrite p m = true) :
    ∃ s data k, m.prog p = some (.act (.right (.logWrite s data)) k) := by
  unfold atLogWrite at h
  split at h
  next hp => exact ⟨_, _, _, hp⟩
  · cases h

def blockOf (l : List UInt8) : Block := fun i => l.getD i.val 0

/-- A disk of 40 blocks, 16 inodes and 10 log blocks. The root directory, in block 6,
holds an empty file `f`. -/
def tinyDisk (s : ℕ) : Block :=
  if s = 1 then blockOf (bytes32 40 ++ bytes32 24 ++ bytes32 16 ++ bytes32 10)
  else if s = 2 then
    Dinode.put (Dinode.put (Bytes.zero 512) 1
        ⟨T_DIR, 0, 0, 1, 48, fun k => if k = 0 then 6 else 0⟩)
      2 ⟨T_FILE, 0, 0, 1, 0, fun _ => 0⟩
  else if s = 5 then blockOf [127]
  else if s = 6 then
    blockOf (Dirent.bytes 1 dot ++ Dirent.bytes 1 dotdot ++ Dirent.bytes 2 [102])
  else Bytes.zero 512

def tinyBoot : BState := bootOn tinyDisk fun _ => 1

/-- The first process creates a file `g`, up to the `log_write` of the new inode. -/
def touchMoves : List (Threads.Move ℕ Call) := [.call 0 (.touch (some [103])), .run 0 41]

theorem log_write_by_owner_touch :
    ∃ m : Machine, ∃ s data k,
      Threads.Reachable blockSem mayStart FreesAsOwner tinyBoot m ∧
        m.prog 0 = some (.act (.right (.logWrite s data)) k) ∧
        m.state.core.owner = some 0 := by
  have hplay : ((Threads.play blockSem FreesAsOwner (enterBy Call.prog) touchMoves
      ⟨tinyBoot, fun _ => none⟩).any (atLogWrite 0)) = true := by
    decide +kernel
  obtain ⟨m, hm, h⟩ := Threads.exists_of_play mayStart_of_enterBy hplay
  obtain ⟨s, data, k, hp⟩ := exists_of_atLogWrite h
  exact ⟨m, s, data, k, hm, hp, log_write_by_owner tinyDisk _ m hm 0 s data k hp⟩

/-- The first process forks. The child opens `f` and has looked it up when the first
process removes the file. The child then gives its reference back. -/
def openMoves : List (Threads.Move ℕ Call) :=
  [.call 0 .fork, .run 0 22, .call 1 (.open (some [102]) 0), .run 1 32,
    .call 0 (.unlink (some [102])), .run 0 60, .run 1 23]

/-- A lookup that gives back the last reference to a removed file writes to the log
outside of any transaction. -/
theorem log_write_without_owner :
    ∃ m : Machine, Threads.Reachable blockSem mayStart (fun _ _ _ _ => True) tinyBoot m ∧
      m.state.core.owner = none ∧
      ∃ s data k, m.prog 1 = some (.act (.right (.logWrite s data)) k) := by
  have hplay : ((Threads.play blockSem (fun _ _ _ _ => True) (enterBy Call.prog) openMoves
      ⟨tinyBoot, fun _ => none⟩).any fun m => m.state.core.owner == none && atLogWrite 1 m) =
        true := by
    decide +kernel
  obtain ⟨m, hm, h⟩ := Threads.exists_of_play mayStart_of_enterBy hplay
  rw [Bool.and_eq_true] at h
  exact ⟨m, hm, by simpa using h.1, exists_of_atLogWrite h.2⟩

end Qwin.Sys
