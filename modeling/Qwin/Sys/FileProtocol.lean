import Mathlib.Tactic.Abel
import Qwin.Lib.Counts
import Qwin.Sys.FsProtocol
import Qwin.Sys.Task

/-!
# The file protocol

What a process has in hand while it is in a system call: the references to entries of the
file table that are not accounted for by its descriptors, the entries it has allocated and
not yet filled in, the ends of pipes it has still to close, the pipe pages it has still to
free, and the slot of a child it is making.

`dup` puts the file into the table before it takes the reference, and `exit` drops the
reference before it clears the table, so the references in hand may be negative; together
with the descriptors they are not.
-/

namespace Qwin.Sys

open Prog Fs
open Function (update update_of_ne update_self)

structure FileToken where
  -- the process is not over
  alive : Bool
  -- its descriptors
  ofile : ℕ → Option ℕ
  -- references beyond those of the descriptors
  files : ℕ → ℤ
  -- files of `filealloc` that are not filled in
  fresh : Finset ℕ
  -- the file that `sys_open` filled in last
  opened : Option ℕ
  ends : ℕ × Bool → ℤ
  pages : ℕ → ℤ
  child : Option ℕ

namespace FileToken

def share (t : FileToken) : ℕ → ℤ := tally t.ofile NOFILE + t.files

structure Rest (t : FileToken) : Prop where
  files : t.files = 0
  fresh : t.fresh = ∅
  ends : t.ends = 0
  pages : t.pages = 0
  child : t.child = none

/-- A descriptor is set; the references stay what they are. -/
def setOfile (t : FileToken) (fd : ℕ) (v : Option ℕ) : FileToken :=
  { t with
    ofile := update t.ofile fd v
    files := t.files + tally t.ofile NOFILE - tally (update t.ofile fd v) NOFILE }

def alloc (t : FileToken) (f : ℕ) : FileToken :=
  { t with files := t.files + Pi.single f 1, fresh := insert f t.fresh }

def dup (t : FileToken) (f : ℕ) : FileToken :=
  { t with files := t.files + Pi.single f 1, fresh := t.fresh.erase f }

def drop (t : FileToken) (f : ℕ) : FileToken :=
  { t with
    files := t.files - Pi.single f 1
    fresh := t.fresh.erase f
    opened := if t.opened = some f then none else t.opened }

/-- The last reference to an end of a pipe is gone, so the end is to be closed. -/
def release (t : FileToken) : Option File → FileToken
  | some ⟨.pipe, _, _, w, i, _, _⟩ => { t with ends := t.ends + Pi.single (i, w) 1 }
  | _ => t

def setChild (t : FileToken) (r : Option ℕ) : FileToken := { t with child := r }

def passOn (t : FileToken) : FileToken := { t with child := none, files := 0 }

def die (t : FileToken) : FileToken := { t with alive := false }

end FileToken

/-- What the steps on the kernel tables do to the token. -/
def fileProtocol : Protocol CoreAct FileToken where
  pre
    | _, .setOfile _ _, t => t.alive = true
    | _, .filealloc, t => t.alive = true
    | _, .filedup f, t => t.alive = true ∧ 1 ≤ t.share f
    | _, .fileDrop f, t => t.alive = true ∧ 1 ≤ t.share f
    | _, .openFile f _ _ _, t => t.alive = true ∧ f ∈ t.fresh
    | _, .dropWrite f, t => t.alive = true ∧ t.opened = some f
    | _, .pipeKalloc, t => t.alive = true
    | _, .openPipe f i w, t => t.alive = true ∧ f ∈ t.fresh ∧ 1 ≤ t.ends (i, w)
    | _, .pipeclose i w, t => t.alive = true ∧ 1 ≤ t.ends (i, w)
    | _, .pipeKfree i, t => t.alive = true ∧ 1 ≤ t.pages i
    | _, .allocproc, t => t.alive = true ∧ t.child = none
    | _, .forkFail np, t => t.alive = true ∧ t.child = some np
    | _, .forkCopy np, t =>
      t.alive = true ∧ t.child = some np ∧ t.files = tally t.ofile NOFILE
    | _, .exitProc, t => t.alive = true ∧ t.Rest ∧ ∀ fd < NOFILE, t.ofile fd = none
    | _, .halt, t => t.Rest
    | _, _, _ => True
  next
    | _, .getProc, t, x, t' => t' = t ∧ (t.alive = true → x.ofile = t.ofile)
    | _, .setOfile fd v, t, _, t' => t' = t.setOfile fd v
    | _, .filealloc, t, some f, t' => t' = t.alloc f ∧ f ∉ t.fresh
    | _, .filedup f, t, _, t' => t' = t.dup f
    | _, .fileDrop f, t, r, t' => t' = (t.drop f).release r
    | _, .openFile f _ _ _, t, _, t' =>
      t' = { t with fresh := t.fresh.erase f, opened := some f }
    | _, .pipeKalloc, t, some i, t' =>
      t' = { t with ends := t.ends + Pi.single (i, false) 1 + Pi.single (i, true) 1 }
    | _, .openPipe f i w, t, _, t' =>
      t' = { t with fresh := t.fresh.erase f, ends := t.ends - Pi.single (i, w) 1 }
    | _, .pipeclose i w, t, last, t' =>
      t' = { t with
        ends := t.ends - Pi.single (i, w) 1
        pages := if last then t.pages + Pi.single i 1 else t.pages }
    | _, .pipeKfree i, t, _, t' => t' = { t with pages := t.pages - Pi.single i 1 }
    | _, .allocproc, t, r, t' => t' = t.setChild r
    | _, .forkFail _, t, _, t' => t' = t.setChild none
    | _, .forkCopy _, t, _, t' => t' = t.passOn
    | _, .exitProc, t, _, t' => t' = t.die
    | _, _, t, _, t' => t' = t

namespace FileToken

variable {t : FileToken} {f fd : ℕ} {v : Option ℕ}

theorem share_setOfile : (t.setOfile fd v).share = t.share := by
  simp only [share, setOfile]
  abel

theorem files_setOfile (h : fd < NOFILE) :
    (t.setOfile fd v).files = t.files + one (t.ofile fd) - one v := by
  simp only [setOfile, tally_update h]
  abel

variable (h : t.Rest)
include h

theorem Rest.one_le_share (hfd : fd < NOFILE) (hf : t.ofile fd = some f) : 1 ≤ t.share f := by
  have htally := one_le_tally hfd hf
  rw [share, h.files]
  simpa using htally

theorem Rest.one_le_share_alloc : 1 ≤ (t.alloc f).share f := by
  have htally := tally_nonneg t.ofile NOFILE f
  rw [share, alloc, h.files]
  simpa using htally

theorem Rest.drop_setOfile (hfd : fd < NOFILE) (hf : t.ofile fd = some f) :
    ((t.drop f).setOfile fd none).Rest := by
  refine ⟨?_, ?_, h.ends, h.pages, h.child⟩
  · rw [files_setOfile hfd]
    simp [drop, h.files, hf, one]
  · simp [drop, setOfile, h.fresh]

theorem Rest.setOfile_drop (hfd : fd < NOFILE) (hf : t.ofile fd = some f) :
    ((t.setOfile fd none).drop f).Rest := by
  refine ⟨?_, ?_, h.ends, h.pages, h.child⟩
  · rw [drop, files_setOfile hfd]
    simp [h.files, hf, one]
  · simp [drop, setOfile, h.fresh]

/-- A descriptor is set, and the reference is taken then. -/
theorem Rest.setOfile_dup (hfd : fd < NOFILE) (hf : t.ofile fd = none) :
    ((t.setOfile fd (some f)).dup f).Rest := by
  refine ⟨?_, ?_, h.ends, h.pages, h.child⟩
  · rw [dup, files_setOfile hfd]
    simp [h.files, hf, one]
  · simp [dup, setOfile, h.fresh]

theorem Rest.alloc_drop : ((t.alloc f).drop f).Rest := by
  refine ⟨?_, ?_, h.ends, h.pages, h.child⟩
  · simp [alloc, drop, h.files]
  · simp [alloc, drop, h.fresh]

end FileToken

/-! ## Programs that follow the protocol -/

/-- The program keeps to the file protocol and ends with `Q`. -/
abbrev InFiles {α : Type} (Q : α → FileToken → Prop) (c : IProg α) (t : FileToken) : Prop :=
  c.Follows fileProtocol.onLeft Q t

namespace InFiles

variable {α γ : Type} {Q : α → FileToken → Prop} {t : FileToken} {f : ℕ}

theorem plain {β : Type} {a : Plus CoreAct DiskAct β} (h : Plain β a) :
    Takes fileProtocol.onLeft t t (perform a) := by
  cases a with
  | right a => exact .perform trivial fun _ _ hn => hn
  | left a =>
    cases a with
    | getProc => exact .perform trivial fun _ _ hn => hn.1
    | _ => first | exact h.elim | exact .perform trivial fun _ _ hn => hn

theorem serves :
    ServesFs fileProtocol.onLeft (fun t _ => t) (fun t => t) (fun _ => True) fun _ => True where
  lock_comm _ _ _ := rfl
  writes_lock _ _ := trivial
  writes_begin _ := trivial
  plain := plain
  mayPanic := trivial
  mayFault := trivial
  write _ := .perform trivial fun _ _ hn => hn
  lockInode := .perform trivial fun _ _ hn => hn
  iunlock := .perform trivial fun _ _ hn => hn
  iput := .bind (.perform trivial fun _ _ hn => hn) fun _ => .ite
    (.bind (.perform trivial fun _ _ hn => hn) fun _ => .perform trivial fun _ _ hn => hn) .pure
  beginTrans _ := .perform trivial fun _ _ hn => hn
  commitTrans _ := .perform trivial fun _ _ hn => hn
  commitLocked _ := .perform trivial fun _ _ hn => hn

theorem ite {C : Prop} {_ : Decidable C} {c d : IProg α} (hc : InFiles Q c t)
    (hd : InFiles Q d t) : InFiles Q (if C then c else d) t := by
  split
  · exact hc
  · exact hd

theorem getProc (ha : t.alive = true) :
    InFiles (fun x u => u = t ∧ x.ofile = t.ofile) (core .getProc) t :=
  follows_perform trivial fun _ _ hn => ⟨hn.1, hn.2 ha⟩

theorem setOfile {fd : ℕ} {v : Option ℕ} (ha : t.alive = true) :
    InFiles (fun _ u => u = t.setOfile fd v) (core (.setOfile fd v)) t :=
  follows_perform ha fun _ _ hn => hn

theorem panic {q : Panic} : InFiles Q (panic q) t := follows_act.2 ⟨trivial, fun r => nomatch r⟩

section

variable (ha : t.alive = true) (he : t.ends = 0) (hp : t.pages = 0)
include ha he hp

theorem pipeclose {i : ℕ} {w : Bool} :
    InFiles (fun _ u => u = t) (pipeclose i w) { t with ends := t.ends + Pi.single (i, w) 1 } := by
  refine follows_bind (follows_perform (And.intro ha ?_) fun _ _ hn => hn) ?_
  · simp [he]
  · rintro last _ rfl
    cases last with
    | false => simp [follows_ret]
    | true =>
      refine follows_perform (And.intro ha ?_) fun _ u hu => ?_
      · simp [hp]
      · rw [hu]
        simp

theorem fileclose (hf : 1 ≤ t.share f) : InFiles (fun _ u => u = t.drop f) (fileclose f) t := by
  refine follows_bind (follows_perform (And.intro ha hf) fun _ _ hn => hn) ?_
  rintro last _ rfl
  match last with
  | none => exact rfl
  | some ⟨.none, _, _, _, _, _, _⟩ => exact rfl
  | some ⟨.pipe, _, _, _, _, _, _⟩ => exact pipeclose (t := t.drop f) ha he hp
  | some ⟨.inode, _, _, _, _, _, _⟩ =>
    exact Takes.bind (serves.beginTrans trivial) fun _ => .bind serves.iput fun _ =>
      serves.commitTrans trivial

end

theorem closeFiles (n fd : ℕ) (hle : fd + n ≤ NOFILE) {t : FileToken} (ha : t.alive = true)
    (hr : t.Rest) (hfd : ∀ j < fd, t.ofile j = none) :
    InFiles (fun _ u => u.alive = true ∧ u.Rest ∧ ∀ j < fd + n, u.ofile j = none)
      (closeFiles n fd) t := by
  induction n generalizing fd t with
  | zero =>
    rw [Sys.closeFiles]
    exact ⟨ha, hr, hfd⟩
  | succ n ih =>
    have hlt : fd < NOFILE := by omega
    have hsum : fd + (n + 1) = fd + 1 + n := by omega
    rw [Sys.closeFiles, hsum]
    refine follows_bind (getProc ha) ?_
    rintro x t ⟨rfl, hx⟩
    rw [hx]
    cases hf : t.ofile fd with
    | none =>
      refine ih (fd + 1) (by omega) ha hr fun j hj => ?_
      rcases Nat.lt_succ_iff_lt_or_eq.1 hj with hj | rfl
      · exact hfd j hj
      · exact hf
    | some f =>
      refine follows_bind_eq (fileclose ha hr.ends hr.pages (hr.one_le_share hlt hf))
        fun _ => follows_bind_eq (setOfile ha) fun _ => ?_
      refine ih (fd + 1) (by omega) ha (hr.drop_setOfile hlt hf) fun j hj => ?_
      by_cases hjfd : j = fd
      · exact hjfd ▸ update_self _ _ _
      · exact (update_of_ne hjfd _ _).trans (hfd j (by omega))

section Alive

variable (ha : t.alive = true) (hr : t.Rest)

include ha

/-! ## Descriptors -/

theorem argfd {fd : ℤ} :
    InFiles (fun r u => u = t ∧ ∀ f, r = some f → fd.toNat < NOFILE ∧ t.ofile fd.toNat = some f)
      (argfd fd) t := by
  refine follows_bind (getProc ha) ?_
  rintro x t ⟨rfl, hx⟩
  split
  · exact ⟨rfl, nofun⟩
  next hfd =>
    refine ⟨rfl, fun f hf => ⟨?_, by rw [← hx, hf]⟩⟩
    have hlt : fd < NOFILE := by omega
    omega

theorem fdalloc :
    InFiles (fun r u => r.elim (u = t) fun fd =>
      u = t.setOfile fd (some f) ∧ fd < NOFILE ∧ t.ofile fd = none) (fdalloc f) t := by
  refine follows_bind (getProc ha) ?_
  rintro x t ⟨rfl, hx⟩
  rw [hx]
  split
  · exact rfl
  next fd hfd =>
    have hlt := List.mem_range.1 (List.mem_of_find?_eq_some hfd)
    have hnone : t.ofile fd = none := by simpa using List.find?_some hfd
    exact follows_bind_eq (setOfile ha) fun _ => ⟨rfl, hlt, hnone⟩

theorem filealloc :
    InFiles (fun r u => r.elim (u = t) fun f => u = t.alloc f ∧ f ∉ t.fresh) (core .filealloc) t :=
  follows_perform ha fun r _ hn => by cases r <;> exact hn

include hr

theorem exit : InFiles Q exit t := by
  refine follows_bind_eq (serves.plain trivial) fun init => ite panic ?_
  refine follows_bind (closeFiles NOFILE 0 (le_refl _) ha hr nofun) ?_
  rintro _ u ⟨ha, hr, hnone⟩
  rw [Nat.zero_add] at hnone
  refine follows_bind_eq serves.iputCwd fun _ => follows_bind_eq (serves.plain trivial) fun _ => ?_
  refine follows_bind_eq (follows_perform ⟨ha, hr, hnone⟩ fun _ _ hn => hn) fun _ => ?_
  have hrest : u.die.Rest := ⟨hr.files, hr.fresh, hr.ends, hr.pages, hr.child⟩
  exact follows_act.2 ⟨hrest, fun r => nomatch r⟩

/-! ## Reading and writing -/

theorem deviceGet {ip major : ℕ} : InFiles (fun _ u => u = t) (deviceGet ip major) t :=
  follows_bind_eq (.perform trivial fun _ _ hn => hn) fun _ => ite rfl (exit ha hr)

theorem readi {ip off n : ℕ} : Takes fileProtocol.onLeft t t (readi ip off n) :=
  serves.readi fun _ => follows_bind_eq (deviceGet ha hr) fun _ => serves.deviceRead

theorem writei {ip off : ℕ} {src : List UInt8} :
    Takes fileProtocol.onLeft t t (writei ip off src) :=
  serves.writei trivial fun _ => follows_bind_eq (deviceGet ha hr) fun _ => serves.deviceWrite

theorem servesExec : ServesExec fileProtocol.onLeft t (fun _ => t) (fun _ => t) where
  namei _ := follows_mono (fun r _ h => by cases r <;> exact h) serves.namei
  ilock _ := serves.ilock
  readi _ _ _ := readi ha hr
  iunlockput _ := serves.iunlockput
  ask _ := serves.ask
  panic _ _ := trivial

/-! ## System calls -/

theorem sysClose {fd : ℤ} : InFiles (fun _ u => u.Rest) (sysClose fd) t := by
  refine follows_bind (argfd ha) ?_
  rintro r t ⟨rfl, hfd⟩
  cases r with
  | none => exact hr
  | some f =>
    obtain ⟨hlt, hf⟩ := hfd f rfl
    have hshare : 1 ≤ (t.setOfile fd.toNat none).share f := by
      rw [FileToken.share_setOfile]
      exact hr.one_le_share hlt hf
    exact follows_bind_eq (setOfile ha) fun _ =>
      follows_bind_eq (fileclose ha hr.ends hr.pages hshare) fun _ => hr.setOfile_drop hlt hf

theorem sysDup {fd : ℤ} : InFiles (fun _ u => u.Rest) (sysDup fd) t := by
  refine follows_bind (argfd ha) ?_
  rintro r t ⟨rfl, hfd⟩
  cases r with
  | none => exact hr
  | some f =>
    obtain ⟨hlt, hf⟩ := hfd f rfl
    refine follows_bind (fdalloc ha) ?_
    rintro r u hu
    cases r with
    | none =>
      obtain rfl : u = t := hu
      exact hr
    | some fd' =>
      obtain ⟨rfl, hlt', hnone⟩ := hu
      have hshare : 1 ≤ (t.setOfile fd' (some f)).share f := by
        rw [FileToken.share_setOfile]
        exact hr.one_le_share hlt hf
      exact follows_bind_eq (follows_perform ⟨ha, hshare⟩ fun _ _ hn => hn) fun _ =>
        hr.setOfile_dup hlt' hnone

theorem openFile {ip : ℕ} {omode : BitVec 32} :
    InFiles (fun _ u => u.Rest) (openFile ip omode) t := by
  refine follows_bind (filealloc ha) ?_
  intro r u hu
  cases r with
  | none =>
    obtain rfl : u = t := hu
    exact follows_bind_eq serves.iunlockput fun _ => hr
  | some f =>
    obtain ⟨rfl, -⟩ := hu
    refine follows_bind (fdalloc (t := t.alloc f) ha) ?_
    intro r u hu
    cases r with
    | none =>
      obtain rfl : u = t.alloc f := hu
      exact follows_bind_eq (fileclose ha hr.ends hr.pages hr.one_le_share_alloc) fun _ =>
        follows_bind_eq serves.iunlockput fun _ => hr.alloc_drop
    | some fd =>
      obtain ⟨rfl, hlt, hnone⟩ := hu
      have hmem : f ∈ ((t.alloc f).setOfile fd (some f)).fresh := Finset.mem_insert_self _ _
      refine follows_bind_eq serves.iunlock fun _ => follows_bind_eq
        (follows_perform (And.intro ha hmem) fun _ _ hn => hn) fun _ => ?_
      refine follows_bind_eq serves.getProc fun x => follows_bind_eq serves.getInode fun i => ?_
      refine follows_bind_eq (ite (follows_perform ⟨ha, rfl⟩ fun _ _ hn => hn) rfl)
        fun _ => ⟨?_, ?_, hr.ends, hr.pages, hr.child⟩
      · rw [FileToken.files_setOfile hlt]
        simp [FileToken.alloc, hr.files, show t.ofile fd = none from hnone, one]
      · simp [FileToken.alloc, FileToken.setOfile, hr.fresh]

theorem sysOpen {path : Arg} {omode : BitVec 32} :
    InFiles (fun _ u => u.Rest) (sysOpen path omode) t := by
  cases path with
  | none => exact hr
  | some path =>
    refine follows_bind_eq serves.openMode fun _ => follows_bind (serves.openInode trivial) ?_
    rintro r _ rfl
    cases r with
    | none => exact hr
    | some ip => exact openFile ha hr

end Alive

/-! ## `fork` -/

/-- The loop of `fork` takes a reference for every descriptor. -/
theorem dupFiles (n fd : ℕ) (hle : fd + n ≤ NOFILE) {t : FileToken} (ha : t.alive = true)
    (hfresh : t.fresh = ∅) (hfiles : t.files = tally t.ofile fd) :
    InFiles (fun _ u => u = { t with files := tally t.ofile (fd + n) }) (dupFiles n fd) t := by
  induction n generalizing fd t with
  | zero =>
    rw [Sys.dupFiles, Nat.add_zero, ← hfiles]
    exact rfl
  | succ n ih =>
    have hsum : fd + (n + 1) = fd + 1 + n := by omega
    rw [Sys.dupFiles, hsum]
    refine follows_bind (getProc ha) ?_
    rintro x t ⟨rfl, hx⟩
    rw [hx]
    cases hf : t.ofile fd with
    | none =>
      refine ih (fd + 1) (by omega) ha hfresh ?_
      rw [hfiles, tally_succ, hf]
      simp [one]
    | some f =>
      have hshare : 1 ≤ t.share f := by
        have h1 := one_le_tally (show fd < NOFILE by omega) hf
        have h2 := tally_nonneg t.ofile fd f
        rw [FileToken.share, hfiles, Pi.add_apply]
        omega
      have hdup : t.dup f = { t with files := tally t.ofile (fd + 1) } := by
        rw [FileToken.dup, hfresh, Finset.erase_empty, hfiles, tally_succ, hf]
        rfl
      refine follows_bind_eq (follows_perform ⟨ha, hshare⟩ fun _ _ hn => hn) fun _ => ?_
      rw [hdup]
      exact ih (fd + 1) (by omega) (t := { t with files := tally t.ofile (fd + 1) }) ha hfresh rfl

theorem fork (ha : t.alive = true) (hr : t.Rest) : InFiles (fun _ u => u.Rest) fork t := by
  refine follows_bind (follows_perform (And.intro ha hr.child) fun _ _ hn => hn) ?_
  rintro r _ rfl
  cases r with
  | none => exact ⟨hr.files, hr.fresh, hr.ends, hr.pages, rfl⟩
  | some np =>
    refine follows_bind_eq serves.ask fun copied => ite ?_ ?_
    · exact follows_bind_eq (follows_perform ⟨ha, rfl⟩ fun _ _ hn => hn) fun _ =>
        ⟨hr.files, hr.fresh, hr.ends, hr.pages, rfl⟩
    · refine follows_bind_eq (dupFiles NOFILE 0 (le_refl _) (t := t.setChild (some np))
        ha hr.fresh hr.files) fun _ => follows_bind_eq serves.getProc fun x => ?_
      cases x.cwd with
      | none => exact follows_act.2 ⟨trivial, fun r => nomatch r⟩
      | some ip =>
        refine follows_bind_eq serves.idup fun _ => follows_bind_eq
          (follows_perform ⟨ha, rfl, ?_⟩ fun _ _ hn => hn) fun _ => ?_
        · rw [Nat.zero_add]
        · exact ⟨rfl, hr.fresh, hr.ends, hr.pages, rfl⟩

/-! ## `pipe` -/

/-- Two files in hand, each with one reference, and nothing else. -/
structure Pair (f0 f1 : ℕ) (t : FileToken) : Prop where
  alive : t.alive = true
  files : t.files = Pi.single f0 1 + Pi.single f1 1
  fresh : t.fresh ⊆ {f0, f1}
  ends : t.ends = 0
  pages : t.pages = 0
  child : t.child = none

theorem Pair.erase_erase {f0 f1 : ℕ} (h : Pair f0 f1 t) : (t.fresh.erase f0).erase f1 = ∅ := by
  refine Finset.subset_empty.1 fun x hx => ?_
  obtain ⟨h1, h2, hx⟩ : x ≠ f1 ∧ x ≠ f0 ∧ x ∈ t.fresh := by simpa using hx
  have hmem := h.fresh hx
  simp [h1, h2] at hmem

theorem closeBoth {f0 f1 : ℕ} {c : IProg α} (h : Pair f0 f1 t)
    (hc : ∀ u : FileToken, u.Rest → InFiles Q c u) :
    InFiles Q (do Sys.fileclose f0; Sys.fileclose f1; c) t := by
  have hshare0 : 1 ≤ t.share f0 := by
    have htally := tally_nonneg t.ofile NOFILE f0
    have hsingle : 0 ≤ (Pi.single f1 1 : ℕ → ℤ) f0 := by
      rw [Pi.single_apply]
      split <;> decide
    rw [FileToken.share, h.files]
    simp only [Pi.add_apply, Pi.single_eq_same]
    omega
  have hfiles : (t.drop f0).files = Pi.single f1 1 := by
    simp [FileToken.drop, h.files]
  have hshare1 : 1 ≤ (t.drop f0).share f1 := by
    have htally := tally_nonneg (t.drop f0).ofile NOFILE f1
    rw [FileToken.share, hfiles]
    simpa using htally
  refine follows_bind_eq (fileclose h.alive h.ends h.pages hshare0) fun _ =>
    follows_bind_eq (fileclose h.alive h.ends h.pages hshare1) fun _ => hc _ ?_
  refine ⟨?_, h.erase_erase, h.ends, h.pages, h.child⟩
  rw [FileToken.drop, hfiles, sub_self]

theorem pipealloc (ha : t.alive = true) (hr : t.Rest) :
    InFiles (fun r u => r.elim u.Rest fun x => Pair x.1 x.2 u ∧ u.fresh = ∅) pipealloc t := by
  refine follows_bind (filealloc ha) ?_
  intro r u hu
  cases r with
  | none =>
    obtain rfl : u = t := hu
    exact hr
  | some f0 =>
    obtain ⟨rfl, -⟩ := hu
    refine follows_bind (filealloc (t := t.alloc f0) ha) ?_
    intro r u hu
    cases r with
    | none =>
      obtain rfl : u = t.alloc f0 := hu
      exact follows_bind_eq (fileclose ha hr.ends hr.pages hr.one_le_share_alloc) fun _ =>
        hr.alloc_drop
    | some f1 =>
      obtain ⟨rfl, hne⟩ := hu
      have hne : f1 ≠ f0 := by simpa [FileToken.alloc, hr.fresh] using hne
      have hpair : Pair f0 f1 ((t.alloc f0).alloc f1) := by
        refine ⟨ha, ?_, ?_, hr.ends, hr.pages, hr.child⟩
        · simp [FileToken.alloc, hr.files]
        · intro x hx
          simpa [FileToken.alloc, hr.fresh, or_comm] using hx
      refine follows_bind (follows_perform ha fun _ _ hn => hn) ?_
      intro r u hu
      cases r with
      | none =>
        obtain rfl : u = (t.alloc f0).alloc f1 := hu
        exact closeBoth hpair fun _ hu => hu
      | some i =>
        obtain rfl : u = { (t.alloc f0).alloc f1 with
          ends := t.ends + Pi.single (i, false) 1 + Pi.single (i, true) 1 } := hu
        refine follows_bind_eq (follows_perform (And.intro ha ⟨?_, ?_⟩) fun _ _ hn => hn)
          fun _ => follows_bind_eq
            (follows_perform (And.intro ha ⟨?_, ?_⟩) fun _ _ hn => hn) fun _ => ?_
        · simp [FileToken.alloc]
        · simp [hr.ends]
        · simp [FileToken.alloc, hne]
        · simp [hr.ends]
        · refine ⟨⟨ha, hpair.files, ?_, ?_, hr.pages, hr.child⟩, hpair.erase_erase⟩
          · rw [hpair.erase_erase]
            exact Finset.empty_subset _
          · simp [hr.ends]

theorem sysPipe (ha : t.alive = true) (hr : t.Rest) : InFiles (fun _ u => u.Rest) sysPipe t := by
  refine follows_bind (pipealloc ha hr) ?_
  intro r t ht
  cases r with
  | none => exact ht
  | some x =>
    obtain ⟨rf, wf⟩ := x
    obtain ⟨h, hfresh⟩ : Pair rf wf t ∧ t.fresh = ∅ := ht
    refine follows_bind (fdalloc h.alive) ?_
    intro r u hu
    cases r with
    | none =>
      obtain rfl : u = t := hu
      exact closeBoth h fun _ hu => hu
    | some fd0 =>
      obtain ⟨rfl, hlt0, hnone0⟩ := hu
      have hfiles : (t.setOfile fd0 (some rf)).files = Pi.single wf 1 := by
        rw [FileToken.files_setOfile hlt0, h.files, hnone0]
        simp [one]
      refine follows_bind (fdalloc (t := t.setOfile fd0 (some rf)) h.alive) ?_
      intro r u hu
      cases r with
      | none =>
        obtain rfl : u = t.setOfile fd0 (some rf) := hu
        refine follows_bind_eq (setOfile (t := t.setOfile fd0 (some rf)) h.alive) fun _ =>
          closeBoth ⟨h.alive, ?_, h.fresh, h.ends, h.pages, h.child⟩ fun _ hu => hu
        rw [FileToken.files_setOfile hlt0, hfiles]
        simp [FileToken.setOfile, one, add_comm]
      | some fd1 =>
        obtain ⟨rfl, hlt1, hnone1⟩ := hu
        refine ⟨?_, hfresh, h.ends, h.pages, h.child⟩
        rw [FileToken.files_setOfile hlt1, hfiles, hnone1]
        simp [one]

/-! ## Every task -/

theorem discard {c : IProg α} (h : InFiles (fun _ u => u.Rest) c t) :
    InFiles (fun _ u => u.Rest) (Call.prog.discard c) t :=
  follows_bind h fun _ _ hu => hu

theorem discardStay {c : IProg α} (h : InFiles (fun _ u => u = t) c t) (hr : t.Rest) :
    InFiles (fun _ u => u.Rest) (Call.prog.discard c) t :=
  discard (follows_mono (fun _ _ hu => hu ▸ hr) h)

theorem call (ha : t.alive = true) (hr : t.Rest) :
    (c : Call) → InFiles (fun _ u => u.Rest) c.prog t
  | .open _ _ => discard (sysOpen ha hr)
  | .close _ => discard (sysClose ha hr)
  | .read _ => discardStay (serves.sysRead fun _ _ _ => readi ha hr) hr
  | .write _ _ => discardStay (serves.sysWrite trivial fun _ _ _ => writei ha hr) hr
  | .link _ _ => discardStay (serves.sysLink trivial) hr
  | .unlink _ => discardStay (serves.sysUnlink trivial) hr
  | .mkdir _ => discardStay (serves.sysMake trivial) hr
  | .mknod _ _ _ => discardStay (serves.sysMake trivial) hr
  | .touch _ => discardStay (serves.sysMake trivial) hr
  | .chdir _ => discardStay serves.sysChdir hr
  | .execv _ _ => discardStay (follows_sysExecv (servesExec ha hr)) hr
  | .fork => discard (fork ha hr)
  | .exit => exit ha hr

theorem task (ha : t.alive = true) (hr : t.Rest) :
    (k : Task) → InFiles (fun _ u => u.Rest) k.prog t
  | .call c => call ha hr c
  | .dup _ => discard (sysDup ha hr)
  | .pipe => discard (sysPipe ha hr)
  | .wait => discardStay (follows_perform trivial fun _ _ hn => hn) hr
  | .fstat _ => discardStay serves.sysFstat hr
  | .lseek _ _ _ => discardStay serves.sysLseek hr
  | .getcwd _ _ => discardStay (serves.sysGetcwd fun _ _ _ => readi ha hr) hr

end InFiles

end Qwin.Sys
