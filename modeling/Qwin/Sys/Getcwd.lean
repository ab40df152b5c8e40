import Mathlib.Algebra.BigOperators.Group.Finset.Basic
import Mathlib.Algebra.Order.BigOperators.Group.Finset
import Mathlib.Data.Finset.Card
import Qwin.Fs.Cache
import Qwin.Fs.Plain
import Qwin.Sys.Arg
import Qwin.Sys.Machine

/-!
# `sys_getcwd` and the inode cache

`name_for_inode` with the bytes it stores into the buffer of the process, and what it does
to the references to entries of the inode cache.

Every call of `name_for_inode` gets a reference to the root by `namei("/")`, compares the
inode number and forgets the entry. The reference to the parent is given back, except on
the way out through `return n`. So `sys_getcwd` always leaves more references than it found.
-/

namespace Qwin.Sys

open Prog Fs

/-! ## The number of references -/

/-- The references to all entries of the inode cache. -/
def totalRefs (c : Core) : ℤ := ∑ q ∈ Finset.range NINODE, (c.inode q).ref

def refCount : Protocol CoreAct ℤ where
  pre _ _ _ := True
  next
    | _, .iget _ _, t, _, t' => t' = t + 1
    | _, .idup _, t, _, t' => t ≤ t'
    | _, .iputBegin _, t, free, t' => if free then t' = t else t - 1 ≤ t'
    | _, .iputEnd _, t, _, t' => t - 1 ≤ t'
    | _, _, t, _, t' => t' = t

section Total

variable {c : Core} {q : ℕ} {x : Inode}

theorem totalRefs_setInode (hq : q < NINODE) :
    totalRefs (c.setInode q x) = totalRefs c - (c.inode q).ref + x.ref := by
  have hmem := Finset.mem_range.2 hq
  have hrest : ∑ r ∈ (Finset.range NINODE).erase q, ((c.setInode q x).inode r).ref =
      ∑ r ∈ (Finset.range NINODE).erase q, (c.inode r).ref :=
    Finset.sum_congr rfl fun r hr => by
      rw [Core.setInode_inode_of_ne (Finset.ne_of_mem_erase hr)]
  unfold totalRefs
  rw [← Finset.add_sum_erase _ _ hmem, ← Finset.add_sum_erase _ _ hmem, hrest,
    Core.setInode_inode_self]
  ring

theorem totalRefs_setInode_of_le (hq : NINODE ≤ q) : totalRefs (c.setInode q x) = totalRefs c :=
  Finset.sum_congr rfl fun r hr => by
    have := Finset.mem_range.1 hr
    rw [Core.setInode_inode_of_ne (by omega)]

theorem le_totalRefs_setInode {k : ℤ} (hk : 0 ≤ k) (h : (c.inode q).ref - k ≤ x.ref) :
    totalRefs c - k ≤ totalRefs (c.setInode q x) := by
  rcases lt_or_ge q NINODE with hq | hq
  · rw [totalRefs_setInode hq]
    omega
  · rw [totalRefs_setInode_of_le hq]
    omega

theorem totalRefs_setInode_eq (h : x.ref = (c.inode q).ref) :
    totalRefs (c.setInode q x) = totalRefs c := by
  rcases lt_or_ge q NINODE with hq | hq
  · rw [totalRefs_setInode hq, h, sub_add_cancel]
  · exact totalRefs_setInode_of_le hq

theorem refCount_exec {p : ℕ} {β : Type} {a : CoreAct β} {r : β} {c' : Core}
    (h : c.exec p a = .ok (r, c')) : refCount.next β a (totalRefs c) r (totalRefs c') := by
  cases a with
  | iget dev inum =>
    dsimp only [Core.exec] at h
    split at h
    next ip hs =>
      cases h
      change totalRefs _ = _
      rw [totalRefs_setInode (cachedSlot_eq_some hs).1]
      ring
    · split at h
      next ip hs =>
        cases h
        change totalRefs _ = _
        rw [totalRefs_setInode (emptySlot_eq_some hs).1, (emptySlot_eq_some hs).2]
        ring
      · cases h
  | idup ip =>
    cases h
    change totalRefs c ≤ _
    rw [← sub_zero (totalRefs c)]
    refine le_totalRefs_setInode le_rfl ?_
    dsimp only
    omega
  | iputBegin ip =>
    dsimp only [Core.exec] at h
    split at h
    · split at h <;> cases h
      exact totalRefs_setInode_eq rfl
    · cases h
      exact le_totalRefs_setInode zero_le_one le_rfl
  | iputEnd ip =>
    cases h
    exact le_totalRefs_setInode zero_le_one le_rfl
  | assign ip a =>
    cases h
    exact totalRefs_setInode_eq (by cases a <;> rfl)
  | _ =>
    dsimp only [Core.exec] at h
    (repeat' split at h) <;> cases h <;> first | rfl | exact totalRefs_setInode_eq rfl

end Total

def Keeps : (β : Type) → Plus CoreAct DiskAct β → Prop
  | _, .left (.iget _ _) => False
  | _, .left (.idup _) => False
  | _, .left (.iputBegin _) => False
  | _, .left (.iputEnd _) => False
  | _, _ => True

namespace Keeps

variable {α β : Type} {ip : ℕ}

theorem getInode : All Keeps (core (.getInode ip)) := .perform trivial

theorem disk {a : DiskAct β} : All Keeps (disk a) := .perform trivial

theorem panic {q : Panic} : All Keeps (panic q : IProg α) := .abort trivial

theorem readDirent {dp off : ℕ} {q : Panic} : All Keeps (readDirent dp off q) := by
  refine .bind disk fun r => ?_
  cases r with
  | none => exact panic
  | some l => exact .ite .pure panic

theorem lookupLoop {dp size : ℕ} {name : List UInt8} (fuel off : ℕ) :
    All Keeps (lookupLoop dp name size fuel off) := by
  induction fuel generalizing off with
  | zero => exact .pure
  | succ fuel ih =>
    rw [Fs.lookupLoop]
    exact .ite (.bind readDirent fun _ => .ite (ih _) (.ite .pure (ih _))) .pure

theorem askBytes (n : ℕ) : All Keeps (askBytes n) := by
  induction n with
  | zero => exact .pure
  | succ n ih =>
    rw [Sys.askBytes]
    exact .bind (.perform trivial) fun _ => .bind ih fun _ => .pure

theorem ilock : All Keeps (ilock ip) :=
  .bind (.perform trivial) fun _ => .bind getInode fun _ => .ite .pure
    (.bind disk fun _ => .bind getInode fun _ => .ite panic .pure)

theorem deviceRead {n : ℕ} {d : Device} : All Keeps (deviceRead ip n d) := by
  cases d with
  | tty =>
    exact .bind (.perform trivial) fun _ => .bind (.perform trivial) fun _ =>
      .bind (askBytes _) fun _ => .bind ilock fun _ => .ite .pure .pure
  | null => exact .pure
  | zero => exact .ite .pure .pure

end Keeps

namespace RefCount

variable {α β γ : Type} {t : ℤ}

/-- The program changes the number of references from `t` as `Q` says. -/
abbrev Counts (Q : α → ℤ → Prop) (c : IProg α) (t : ℤ) : Prop := c.Follows refCount.onLeft Q t

theorem minds : Protocol.MindsNoPlain refCount := by
  intro β a t h
  cases a <;> first | exact h.elim | exact ⟨trivial, fun _ _ h => h⟩

theorem keeps {c : IProg α} (h : All Keeps c) : Counts (fun _ u => u = t) c t := by
  refine follows_of_all (fun β a ha => ?_) h
  cases a with
  | right a => exact ⟨trivial, fun _ _ h => h⟩
  | left a => cases a <;> first | exact ha.elim | exact ⟨trivial, fun _ _ h => h⟩

variable {Q : α → ℤ → Prop}

theorem bindKeeps {c : IProg γ} {f : γ → IProg α} (h : All Keeps c)
    (hf : ∀ a, Counts Q (f a) t) : Counts Q (c >>= f) t :=
  follows_bind_eq (keeps h) hf

theorem stops {a : CoreAct Empty} : Counts Q (abort (.left a)) t :=
  follows_act.2 ⟨trivial, fun r => nomatch r⟩

theorem ite {C : Prop} {_ : Decidable C} {c d : IProg α}
    (hc : Counts Q c t) (hd : Counts Q d t) : Counts Q (if C then c else d) t := by
  split
  · exact hc
  · exact hd

theorem exit : Counts Q exit t := by
  have hpre : ∀ (β : Type) (a : Plus CoreAct DiskAct β) (t : ℤ), refCount.onLeft.pre β a t := by
    intro β a t
    cases a <;> exact trivial
  refine bindKeeps (.perform trivial) fun init => ite stops ?_
  refine follows_bind (follows_of_pre hpre _ t) fun _ t _ => ?_
  refine follows_bind (follows_of_pre hpre _ t) fun _ t _ => ?_
  refine follows_bind (follows_of_pre hpre _ t) fun _ t _ => ?_
  exact follows_bind (follows_of_pre hpre _ t) fun _ t _ => stops

variable {ip : ℕ}

theorem deviceGet {major : ℕ} : Counts (fun _ u => u = t) (deviceGet ip major) t :=
  bindKeeps (.perform trivial) fun _ => ite rfl exit

theorem readi {off n : ℕ} : Counts (fun _ u => u = t) (Sys.readi ip off n) t := by
  refine bindKeeps Keeps.getInode fun i => ite (ite rfl ?_) (bindKeeps Keeps.disk fun r => ?_)
  · exact follows_bind_eq deviceGet fun _ => keeps Keeps.deviceRead
  · cases r with
    | some l => exact rfl
    | none => exact rfl

theorem nameOfInode {inum parent : ℕ} (fuel off : ℕ) :
    Counts (fun _ u => u = t) (nameOfInode inum parent fuel off) t := by
  induction fuel generalizing off with
  | zero => exact stops
  | succ fuel ih =>
    rw [Sys.nameOfInode]
    refine bindKeeps Keeps.disk fun size => ite (follows_bind_eq readi fun r => ?_) rfl
    cases r with
    | ok l => exact ite stops (ite rfl (ih _))
    | error e => exact stops

/-- Looking up a name gets a reference, if there is such an entry. -/
theorem dirlookup {dp : ℕ} {name : List UInt8} :
    Counts (fun r u => r.isSome → u = t + 1) (dirlookup dp name) t := by
  refine bindKeeps Keeps.getInode fun d => ite stops (bindKeeps Keeps.disk fun size =>
    bindKeeps (Keeps.lookupLoop _ _) fun r => ?_)
  rcases r with _ | ⟨off, inum⟩
  · exact fun h => nomatch h
  · exact follows_bind (follows_perform trivial fun _ _ h => h) fun _ u hu _ => hu

theorem iput : Counts (fun _ u => t - 1 ≤ u) (iput ip) t := by
  refine follows_bind (follows_perform trivial fun _ _ h => h) fun free u hu => ?_
  cases free with
  | false => exact hu
  | true =>
    refine bindKeeps Keeps.disk fun _ => follows_perform trivial fun _ v hv => ?_
    rw [show u = t from hu] at hv
    exact hv

theorem nameForInode {buf : BitVec 32} {n : ℤ} (depth ip : ℕ) :
    Counts (fun _ u => t + 1 ≤ u) (nameForInode buf n depth ip) t := by
  induction depth generalizing ip t with
  | zero => exact stops
  | succ depth ih =>
    rw [Sys.nameForInode]
    refine follows_bind (R := fun _ u => u = t + 1) ?_ fun root u hu => ?_
    · exact follows_bind (follows_perform trivial fun _ _ h => h) fun _ u hu => hu
    rw [hu]
    cases root with
    | none => exact stops
    | some root =>
      refine bindKeeps Keeps.getInode fun i => bindKeeps Keeps.getInode fun r =>
        ite le_rfl (ite (follows_bind dirlookup fun parent u hu => ?_) (ite stops stops))
      rcases parent with _ | ⟨parent, off⟩
      · exact stops
      refine follows_bind_eq (nameOfInode _ _) fun name => ?_
      cases name with
      | none => exact stops
      | some name =>
        refine follows_bind (ih parent) fun x v hv => ?_
        have hu' := hu rfl
        refine ite (by change t + 1 ≤ v; omega) (follows_bind iput fun _ w hw => ?_)
        change t + 1 ≤ w
        omega

theorem sysGetcwd {u : User} {depth : ℕ} (h : u.getcwdArgs ≠ none) :
    Counts (fun _ v => t + 1 ≤ v) (u.sysGetcwd depth) t := by
  unfold User.sysGetcwd
  split
  next hnone => exact absurd hnone h
  · refine bindKeeps (.perform trivial) fun x => ?_
    cases x.cwd with
    | none => exact stops
    | some ip => exact nameForInode _ _

end RefCount

theorem totalRefs_run {p : ℕ} {α : Type} {Q : α → ℤ → Prop} {c : IProg α} {st st' : BState} {r : α}
    (hc : c.Follows refCount.onLeft Q (totalRefs st.core))
    (hrun : c.blocks.run (blockSem p) st = .ok (r, st')) : Q r (totalRefs st'.core) := by
  have hstep : ∀ (β : Type) (a : Plus CoreAct BlockAct β) (s s' : BState) (r : β),
      (blockSem p).exec a s = .ok (r, s') →
      refCount.onLeft.next β a (totalRefs s.core) r (totalRefs s'.core) := by
    intro β a s s' r hx
    cases a with
    | left a =>
      dsimp only [blockSem, execCore] at hx
      split at hx
      · cases hx
      next r c h =>
        cases hx
        exact refCount_exec h
    | right a =>
      have hcore : s'.core = s.core := by
        dsimp only [blockSem] at hx
        cases a <;> dsimp only [execBlock] at hx <;> (repeat' split at hx) <;> cases hx <;> rfl
      exact congrArg totalRefs hcore
  exact follows_run hstep (follows_blocks_of_minds RefCount.minds hc) hrun

/-- `sys_getcwd` leaves the references as they were exactly when it rejects its arguments. -/
theorem getcwd_keeps_refs_iff {p depth : ℕ} {u : User} {st st' : BState} {r : ℤ × Stores}
    (hrun : (u.sysGetcwd depth).blocks.run (blockSem p) st = .ok (r, st')) :
    (∀ q < NINODE, (st'.core.inode q).ref = (st.core.inode q).ref) ↔ u.getcwdArgs = none := by
  constructor
  · intro h
    by_contra hargs
    have hle := totalRefs_run (RefCount.sysGetcwd hargs) hrun
    have heq : totalRefs st'.core = totalRefs st.core :=
      Finset.sum_congr rfl fun q hq => h q (Finset.mem_range.1 hq)
    omega
  · intro hargs q _
    rw [User.sysGetcwd, hargs] at hrun
    cases hrun
    rfl

/-- A process of this size that asks for five bytes at address 32. Its memory above the
stack has no zero byte. -/
def askCwd (sz : BitVec 32) : User where
  mem a := if a = 4 then 32 else if a = 8 then 5 else if a < 12 then 0 else 1
  sz := sz
  esp := 0

/-- The buffer does not fit into the process. -/
theorem getcwd_keeps_refs_rejected : ∃ r st',
    ((askCwd 33).sysGetcwd 8).blocks.run (blockSem 0) tinyBoot = .ok (r, st') ∧
      ∀ q < NINODE, (st'.core.inode q).ref = (tinyBoot.core.inode q).ref :=
  have hrun : ((askCwd 33).sysGetcwd 8).blocks.run (blockSem 0) tinyBoot =
      .ok ((-1, []), tinyBoot) := rfl
  ⟨_, _, hrun, (getcwd_keeps_refs_iff hrun).2 rfl⟩

/-- At boot the root has one reference, and two after a call. -/
theorem getcwd_keeps_root : ∃ r st',
    ((askCwd 4096).sysGetcwd 8).blocks.run (blockSem 0) tinyBoot = .ok (r, st') ∧
      (tinyBoot.core.inode 0).ref = 1 ∧ (st'.core.inode 0).ref = 2 := by
  have hpass : ((askCwd 4096).sysGetcwd 8).blocks.passes (blockSem 0) tinyBoot
      (fun _ st' => (st'.core.inode 0).ref == 2) = true := by decide +kernel
  obtain ⟨r, st', hrun, h⟩ := exists_of_passes hpass
  exact ⟨r, st', hrun, rfl, by simpa using h⟩

end Qwin.Sys
