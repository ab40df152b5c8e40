import Qwin.Sys.FileRefs
import Qwin.Sys.LockProtocol

/-!
# Locks and the transaction are given back

`I_BUSY` is a flag, so who set it is recorded beside the state. In every run in which a
device is only asked for by a process that has locked its inode, and is enabled, the
record and the owner of the transaction agree with the tokens of the lock protocol: a
process that is in no system call holds nothing, and neither does one that calls
`begin_trans`.

`device_get` calls `exit` for a device that is not enabled. The process then still has the
inode locked that it reads or writes.
-/

namespace Qwin.Sys

open Prog Fs
open Function (update_of_ne update_self update_eq_self)

/-- Who set `I_BUSY` of which inode. -/
abbrev Busy : Type := ℕ → Option ℕ

/-- What a step of process `p` adds to the record. -/
def record (p : ℕ) : (β : Type) → Plus CoreAct BlockAct β → β → Busy → Busy
  | _, .left (.lockInode ip), _, h => Function.update h ip (some p)
  | _, .left (.iunlock ip), _, h => Function.update h ip none
  | _, .left (.iputBegin ip), true, h => Function.update h ip (some p)
  | _, .left (.iputEnd ip), _, h => Function.update h ip none
  | _, _, _, h => h

abbrev Recorded : Type 1 := Threads ℕ (Plus CoreAct BlockAct) (BState × Busy)

/-- What the processes reach from boot, if every step is one that `G` allows. -/
abbrev ReachedRecorded
    (G : (β : Type) → ℕ → Plus CoreAct BlockAct β → BState × Busy → Prop) (d : ℕ → Block)
    (oracle : ℕ → ℤ) (m : Recorded) : Prop :=
  Threads.Reached (fun p => (blockSem p).observe (record p)) (fun p s c => mayRun p s.1 c) G
    Halts (bootOn d oracle, fun _ => none) m

/-- A device is asked for by a process that has locked its inode, and is enabled. -/
def DeviceReady : (β : Type) → ℕ → Plus CoreAct BlockAct β → BState × Busy → Prop
  | _, p, .left (.deviceEnabled ip major), s =>
    (major = 1 ∨ major = 2 ∨ major = 3) ∧ s.2 ip = some p
  | _, _, _, _ => True

/-- The inode and the device that a step asks for. -/
def asked : (β : Type) → Plus CoreAct BlockAct β → Option (ℕ × ℕ)
  | _, .left (.deviceEnabled ip major) => some (ip, major)
  | _, _ => none

theorem deviceReady_iff {β : Type} {p : ℕ} {a : Plus CoreAct BlockAct β} {s : BState × Busy} :
    DeviceReady β p a s ↔
      ∀ x ∈ asked β a, (x.2 = 1 ∨ x.2 = 2 ∨ x.2 = 3) ∧ s.2 x.1 = some p := by
  rcases a with a | a
  · cases a <;> simp [DeviceReady, asked]
  · simp [DeviceReady, asked]

instance (β : Type) (p : ℕ) (a : Plus CoreAct BlockAct β) (s : BState × Busy) :
    Decidable (DeviceReady β p a s) :=
  decidable_of_iff _ deviceReady_iff.symm

structure LocksInOrder (m : Recorded) : Prop where
  /-- A process in no system call does not own the transaction. -/
  owner : ∀ p, Rests m p → m.state.1.core.owner ≠ some p
  /-- It has locked no inode. -/
  lock : ∀ p, Rests m p → ∀ ip, m.state.2 ip ≠ some p
  /-- Neither has a process that calls `begin_trans`. -/
  beginTrans : ∀ p k, m.prog p = some (.act (.left .beginTrans) k) →
    m.state.1.core.owner ≠ some p ∧ ∀ ip, m.state.2 ip ≠ some p
  /-- An inode is locked by a process that is in a system call. -/
  busy : ∀ ip, (m.state.1.core.inode ip).busy = true →
    ∃ p, m.state.2 ip = some p ∧ ¬ Rests m p

/-! ## The invariant -/

/-- The tokens agree with the owner of the transaction and the record. -/
structure LockInv (c : Core) (busy : Busy) (tok : ℕ → LockToken) : Prop where
  owner : Threads.Holder c.owner (fun t => t.own = true) tok
  held : ∀ ip p, busy ip = some p → ip ∈ (tok p).locks
  locked : ∀ ip, (c.inode ip).busy = true → busy ip ≠ none

namespace LockInv

variable {c c' : Core} {busy : Busy} {tok : ℕ → LockToken} {p ip : ℕ} {t : LockToken}

variable (h : LockInv c busy tok)
include h

theorem keep (howner : c'.owner = c.owner)
    (hbusy : ∀ ip, (c'.inode ip).busy = true → (c.inode ip).busy = true)
    (hown : t.own = (tok p).own) (hlocks : t.locks = (tok p).locks) :
    LockInv c' busy (Function.update tok p t) := by
  refine ⟨?_, fun ip q hq => ?_, fun ip hip => h.locked ip (hbusy ip hip)⟩
  · rw [howner]
    exact h.owner.keep (by rw [hown])
  · by_cases hqp : q = p
    · subst hqp
      rw [update_self, hlocks]
      exact h.held ip q hq
    · rw [update_of_ne hqp]
      exact h.held ip q hq

theorem keepInode {x : Inode}
    (hx : x.busy = true → (c.inode ip).busy = true) (hown : t.own = (tok p).own)
    (hlocks : t.locks = (tok p).locks) :
    LockInv (c.setInode ip x) busy (Function.update tok p t) := by
  refine h.keep rfl (fun q hq => ?_) hown hlocks
  by_cases hqip : q = ip
  · subst hqip
    rw [Core.setInode_inode_self] at hq
    exact hx hq
  · rwa [Core.setInode_inode_of_ne hqip] at hq

theorem lock {x : Inode} :
    LockInv (c.setInode ip x) (Function.update busy ip (some p))
      (Function.update tok p ((tok p).lock ip)) := by
  refine ⟨h.owner.keep Iff.rfl, fun jp q hq => ?_, fun jp hjp => ?_⟩
  · by_cases hjp : jp = ip
    · subst hjp
      rw [update_self] at hq
      cases hq
      rw [update_self]
      exact Multiset.mem_cons_self _ _
    · rw [update_of_ne hjp] at hq
      by_cases hqp : q = p
      · subst hqp
        rw [update_self]
        exact Multiset.mem_cons_of_mem (h.held jp q hq)
      · rw [update_of_ne hqp]
        exact h.held jp q hq
  · by_cases hip : jp = ip
    · rw [hip, update_self]
      exact Option.some_ne_none p
    · rw [Core.setInode_inode_of_ne hip] at hjp
      rw [update_of_ne hip]
      exact h.locked jp hjp

theorem unlock {x : Inode} (hx : x.busy = false) :
    LockInv (c.setInode ip x) (Function.update busy ip none)
      (Function.update tok p ((tok p).unlock ip)) := by
  refine ⟨h.owner.keep Iff.rfl, fun jp q hq => ?_, fun jp hjp => ?_⟩
  · have hne : jp ≠ ip := by
      rintro rfl
      rw [update_self] at hq
      cases hq
    rw [update_of_ne hne] at hq
    by_cases hqp : q = p
    · subst hqp
      rw [update_self]
      exact (Multiset.mem_erase_of_ne hne).2 (h.held jp q hq)
    · rw [update_of_ne hqp]
      exact h.held jp q hq
  · have hne : jp ≠ ip := by
      rintro rfl
      rw [Core.setInode_inode_self, hx] at hjp
      cases hjp
    rw [Core.setInode_inode_of_ne hne] at hjp
    rw [update_of_ne hne]
    exact h.locked jp hjp

/-- A step on the kernel tables moves the token of the process as the protocol says, if
the last file that the process allocated stands for nothing. -/
theorem step {β : Type} {a : CoreAct β} {r : β} {s : BState}
    (hG : DeviceReady β p (.left a) (s, busy))
    (hfresh : ∀ f, (tok p).fresh = some f → (c.file f).type = .none)
    (hpre : lockProtocol.pre β a (tok p)) (hx : c.exec p a = .ok (r, c')) :
    ∃ t, lockProtocol.next β a (tok p) r t ∧
      LockInv c' (record p β (.left a) r busy) (Function.update tok p t) := by
  cases a with
  | iget dev inum =>
    dsimp only [Core.exec] at hx
    (repeat' split at hx) <;> cases hx
    · exact ⟨_, rfl, h.keepInode id rfl rfl⟩
    · exact ⟨_, rfl, h.keepInode (absurd · Bool.false_ne_true) rfl rfl⟩
  | idup | setValid =>
    cases hx
    exact ⟨_, rfl, h.keepInode id rfl rfl⟩
  | assign ip a =>
    cases hx
    refine ⟨_, rfl, h.keepInode (fun hb => ?_) rfl rfl⟩
    cases a <;> exact hb
  | lockInode ip =>
    dsimp only [Core.exec] at hx
    (repeat' split at hx) <;> cases hx
    exact ⟨_, rfl, h.lock⟩
  | iunlock ip =>
    dsimp only [Core.exec] at hx
    (repeat' split at hx) <;> cases hx
    exact ⟨_, rfl, h.unlock rfl⟩
  | iputBegin ip =>
    dsimp only [Core.exec] at hx
    (repeat' split at hx) <;> cases hx
    · exact ⟨_, rfl, h.lock⟩
    · exact ⟨_, rfl, h.keepInode id rfl rfl⟩
  | iputEnd ip =>
    cases hx
    exact ⟨_, rfl, h.unlock rfl⟩
  | beginTrans =>
    dsimp only [Core.exec] at hx
    split at hx
    · cases hx
    next hnone =>
      cases hx
      have howner := h.owner
      rw [hnone] at howner
      refine ⟨_, rfl, howner.acquire rfl, fun ip q hq => ?_, h.locked⟩
      by_cases hqp : q = p
      · subst hqp
        rw [update_self]
        exact h.held ip q hq
      · rw [update_of_ne hqp]
        exact h.held ip q hq
  | commitTrans =>
    cases hx
    refine ⟨_, rfl, h.owner.release hpre (by simp [LockToken.commit]), fun ip q hq => ?_, h.locked⟩
    by_cases hqp : q = p
    · subst hqp
      rw [update_self]
      exact h.held ip q hq
    · rw [update_of_ne hqp]
      exact h.held ip q hq
  | deviceEnabled ip major =>
    cases hx
    exact ⟨_, ⟨rfl, decide_eq_true hG.1, h.held ip p hG.2⟩, h.keep rfl (fun _ => id) rfl rfl⟩
  | fileDrop f =>
    dsimp only [Core.exec] at hx
    (repeat' split at hx) <;> cases hx
    · exact ⟨_, ⟨rfl, fun _ _ hn => absurd hn.symm (Option.some_ne_none _)⟩,
        h.keep rfl (fun _ => id) rfl rfl⟩
    · refine ⟨_, ⟨rfl, fun hf x hx => ?_⟩, h.keep rfl (fun _ => id) rfl rfl⟩
      cases hx
      exact hfresh f hf
  | _ =>
    dsimp only [Core.exec] at hx
    (repeat' split at hx) <;> cases hx <;>
      exact ⟨_, rfl, h.keep rfl (fun _ => id) rfl rfl⟩

end LockInv

/-! ## Together with the file table -/

/-- The file that was allocated last is one that is not filled in. -/
def FreshOf (t : FileToken) (u : LockToken) : Prop := ∀ f, u.fresh = some f → f ∈ t.fresh

theorem FreshOf.step {β : Type} {a : CoreAct β} {r : β} {t t' : FileToken} {u u' : LockToken}
    (h : FreshOf t u) (ht : fileProtocol.next β a t r t') (hu : lockProtocol.next β a u r u') :
    FreshOf t' u' := by
  cases a with
  | filealloc =>
    cases r with
    | none =>
      cases hu
      exact nofun
    | some f =>
      cases hu
      rw [ht.1]
      intro g hg
      cases hg
      exact Finset.mem_insert_self _ _
  | filedup | openFile | openPipe =>
    cases hu
    exact nofun
  | fileDrop f =>
    cases hu.1
    exact nofun
  | deviceEnabled =>
    cases ht
    cases hu.1
    exact h
  | iputBegin =>
    cases ht
    cases hu
    cases r <;> exact h
  | getProc =>
    cases ht.1
    cases hu
    exact h
  | pipeKalloc =>
    cases hu
    cases r with
    | none =>
      cases ht
      exact h
    | some i =>
      cases ht
      exact h
  | _ =>
    cases ht
    cases hu
    exact h

structure LockedFiles (s : BState × Busy) (tok : ℕ → FileToken × LockToken) : Prop where
  files : FileInv s.1.core (Prod.fst ∘ tok)
  locks : LockInv s.1.core s.2 (Prod.snd ∘ tok)
  fresh : ∀ p, FreshOf (tok p).1 (tok p).2

theorem LockedFiles.update {s : BState × Busy} {tok : ℕ → FileToken × LockToken} {p : ℕ}
    {t : FileToken} {u : LockToken} (hf : FileInv s.1.core (Function.update (Prod.fst ∘ tok) p t))
    (hl : LockInv s.1.core s.2 (Function.update (Prod.snd ∘ tok) p u)) (hfresh : FreshOf t u)
    (h : ∀ p, FreshOf (tok p).1 (tok p).2) : LockedFiles s (Function.update tok p (t, u)) := by
  refine ⟨?_, ?_, fun q => ?_⟩
  · rw [Function.comp_update]
    exact hf
  · rw [Function.comp_update]
    exact hl
  · by_cases hq : q = p
    · subst hq
      rw [update_self]
      exact hfresh
    · rw [update_of_ne hq]
      exact h q

def LockToken.idle : LockToken := ⟨false, 0, none⟩

theorem lockInv_boot (oracle : ℕ → ℤ) :
    LockInv (bootCore oracle) (fun _ => none) fun _ => LockToken.idle := by
  refine ⟨fun p => ?_, nofun, fun ip hip => ?_⟩
  · constructor <;> nofun
  · simp only [bootCore] at hip
    split at hip <;> cases hip

/-- In every run in which the devices are ready, tokens witness the invariant. -/
theorem lockedFiles_of_reached {d : ℕ → Block} {oracle : ℕ → ℤ} {m : Recorded}
    (h : ReachedRecorded DeviceReady d oracle m) :
    Threads.Backed (fileProtocol.onLeft.prod lockProtocol.onLeft) LockedFiles
      (fun t => t.1.Rest ∧ t.2.Rest) m := by
  refine Threads.Backed.of_reached (t := (FileToken.idle, LockToken.idle))
    ⟨FileToken.idle_rest, rfl, rfl⟩ ⟨fileInv_boot oracle, lockInv_boot oracle, fun _ => nofun⟩
    ?_ ?_ ?_ h
  · rintro p s _ tok ⟨hlive, task, rfl⟩ hinv ⟨hr, hl⟩
    have hfile := InFiles.task rfl (hr.enter (s.1.core.pt.proc p).ofile) task
    have hlock := Locks.task hl task
    refine ⟨_, LockedFiles.update (hinv.files.start hlive) ?_ (hinv.fresh p) hinv.fresh,
      Protocol.follows_prod (follows_blocks_of_minds fileProtocol_minds hfile)
        (follows_blocks_of_minds lockProtocol_minds hlock)⟩
    exact hinv.locks.keep rfl (fun _ => id) rfl rfl
  · intro β p a s r s' tok hG hx hinv hpre
    obtain ⟨hx, hs⟩ := Sem.observe_ok.1 hx
    cases a with
    | right a =>
      refine ⟨tok p, ⟨rfl, rfl⟩, ?_⟩
      rw [update_eq_self]
      have hcore := execBlock_core hx
      refine ⟨?_, ?_, hinv.fresh⟩
      · rw [hcore]
        exact hinv.files
      · rw [hcore, hs]
        exact hinv.locks
    | left a =>
      obtain ⟨t, ht, hfiles⟩ := hinv.files.step hpre.1 (execCore_eq_ok hx)
      have hnone : ∀ f, ((Prod.snd ∘ tok) p).fresh = some f → (s.1.core.file f).type = .none := by
        intro f hf
        exact (hinv.files.filed.fresh p f (hinv.fresh p f hf)).1
      obtain ⟨u, hu, hlocks⟩ := hinv.locks.step (s := s.1) hG hnone hpre.2 (execCore_eq_ok hx)
      rw [← hs] at hlocks
      exact ⟨(t, u), ⟨ht, hu⟩, LockedFiles.update hfiles hlocks
        ((hinv.fresh p).step ht hu) hinv.fresh⟩
  · intro β a t hq hpre
    cases a with
    | right a => exact hq.elim
    | left a =>
      cases a with
      | halt => exact hpre
      | _ => exact False.elim hq

/-- In every run of the tasks, by any number of processes, in which the devices are ready,
locks and the transaction are given back. -/
theorem locks_given_back (d : ℕ → Block) (oracle : ℕ → ℤ) (m : Recorded)
    (h : ReachedRecorded DeviceReady d oracle m) : LocksInOrder m := by
  obtain ⟨tok, hinv, hnone, hsome⟩ := (lockedFiles_of_reached h).tokens
  have hrest : ∀ p, Rests m p → (tok p).2.Rest := by
    intro p hp
    cases hc : m.prog p with
    | none => exact (hnone p hc).2
    | some c =>
      obtain ⟨k, rfl⟩ := hp c hc
      exact (follows_act.1 (hsome p _ hc)).1.2
  have howner : ∀ p, (tok p).2.Rest → m.state.1.core.owner ≠ some p := by
    intro p hr hp
    have hown := (hinv.locks.owner p).1 hp
    rw [Function.comp_apply, hr.own] at hown
    cases hown
  have hlock : ∀ p, (tok p).2.Rest → ∀ ip, m.state.2 ip ≠ some p := by
    intro p hr ip hip
    have hmem := hinv.locks.held ip p hip
    rw [Function.comp_apply, hr.locks] at hmem
    exact Multiset.notMem_zero _ hmem
  refine ⟨fun p hp => howner p (hrest p hp), fun p hp => hlock p (hrest p hp), ?_, ?_⟩
  · intro p k hp
    have hr := (follows_act.1 (hsome p _ hp)).1.2
    exact ⟨howner p hr, hlock p hr⟩
  · intro ip hip
    obtain ⟨p, hp⟩ := Option.ne_none_iff_exists'.1 (hinv.locks.locked ip hip)
    exact ⟨p, hp, fun hr => hlock p (hrest p hr) ip hp⟩

def enterRecorded (p : ℕ) (task : Task) (s : BState × Busy) : Option (BProg Unit) :=
  enter p task s.1

def atHalt (p : ℕ) (m : Recorded) : Bool :=
  match m.prog p with
  | some (.act (.left .halt) _) => true
  | _ => false

theorem rests_of_atHalt {p : ℕ} {m : Recorded} (h : atHalt p m = true) : Rests m p := by
  unfold atHalt at h
  split at h
  next k hp =>
    intro c hc
    rw [hp] at hc
    cases hc
    exact ⟨k, rfl⟩
  · cases h

/-- A process that asks for one byte from its first descriptor. -/
def readOne : User where
  mem a := if a = 12 then 1 else 0
  sz := 64
  esp := 0

/-- The first process makes a device file `d` and forks; the child opens the file and
reads from it. -/
def deviceMoves (major : Short) (n : ℕ) : List (Threads.Move ℕ Task) :=
  [.call 0 (.call (.mknod (some [100]) major 0)), .run 0 112, .call 0 (.call .fork), .run 0 22,
    .call 1 (.call (.open (some [100]) 0)), .run 1 88, .call 1 (.call (.read readOne)), .run 1 n]

theorem locks_given_back_null :
    ∃ m : Recorded, ReachedRecorded DeviceReady tinyDisk (fun _ => 1) m ∧
      (m.state.1.core.inode 1).busy = true ∧ LocksInOrder m := by
  have hplay : ((Threads.play (fun p => (blockSem p).observe (record p)) DeviceReady enterRecorded
      (deviceMoves 2 7) ⟨(tinyBoot, fun _ => none), fun _ => none⟩).any
      fun m => (m.state.1.core.inode 1).busy) = true := by
    decide +kernel
  obtain ⟨m, hm, h⟩ := Threads.exists_of_play
    (fun p k s c => mayRun_of_enter p k s.1 c) hplay
  have hreach : ReachedRecorded DeviceReady tinyDisk (fun _ => 1) m := hm.reached
  exact ⟨m, hreach, h, locks_given_back tinyDisk _ m hreach⟩

/-- A process that reads from a device that is not enabled ends with the inode locked. -/
theorem lock_kept_at_exit :
    ∃ m : Recorded, ReachedRecorded (fun _ _ _ _ => True) tinyDisk (fun _ => 1) m ∧
      Rests m 1 ∧ m.state.2 1 = some 1 ∧ ¬ LocksInOrder m := by
  have hplay : ((Threads.play (fun p => (blockSem p).observe (record p))
      (fun _ _ _ _ => True) enterRecorded (deviceMoves 5 33) ⟨(tinyBoot, fun _ => none), fun _ => none⟩).any
      fun m => atHalt 1 m && m.state.2 1 == some 1) = true := by
    decide +kernel
  obtain ⟨m, hm, h⟩ := Threads.exists_of_play
    (fun p k s c => mayRun_of_enter p k s.1 c) hplay
  rw [Bool.and_eq_true, beq_iff_eq] at h
  have hrest := rests_of_atHalt h.1
  exact ⟨m, hm.reached, hrest, h.2, fun horder => horder.lock 1 hrest 1 h.2⟩

end Qwin.Sys
