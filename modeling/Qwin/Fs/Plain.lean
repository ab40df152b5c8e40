import Qwin.Fs.Dir
import Qwin.Lib.Protocol

/-!
# Functions on blocks

The functions of `fs.c` that carry out a step on nodes read and assign fields of inodes
and work on blocks, and do nothing else to the kernel tables. A protocol on the kernel
tables that does not mind those steps is followed on the block level as soon as it is
followed on the inode level.
-/

namespace Qwin.Fs

open Prog

/-- Steps of the block layer, and the steps on the kernel tables its functions take. -/
def Plain : (β : Type) → Plus CoreAct BlockAct β → Prop
  | _, .right _ => True
  | _, .left (.getInode _) => True
  | _, .left (.assign _ _) => True
  | _, .left (.setValid _) => True
  | _, .left (.panic _) => True
  | _, .left _ => False

namespace Plain

variable {α β : Type}

theorem step {a : BlockAct β} : All Plain (perform (.right a)) := .perform trivial

variable {ip : ℕ}

theorem getInode : All Plain (onCore (.getInode ip)) := .perform trivial

theorem assign {a : Assign} : All Plain (onCore (.assign ip a)) := .perform trivial

theorem panic {q : Panic} : All Plain (abort (.left (.panic q)) : BProg α) := .abort trivial

theorem readsb : All Plain readsb := .bind step fun _ => .bind step fun _ => .pure

theorem bzero {bno : ℕ} : All Plain (bzero bno) :=
  .bind step fun _ => .bind step fun _ => step

theorem ballocLoop {sb : Superblock} (n b : ℕ) : All Plain (ballocLoop sb n b) := by
  induction n generalizing b with
  | zero =>
    rw [Fs.ballocLoop]
    exact panic
  | succ n ih =>
    rw [Fs.ballocLoop]
    refine .ite (.bind step fun bp => ?_) panic
    split
    · exact .bind step fun _ => .bind step fun _ => .bind bzero fun _ => .pure
    · exact .bind step fun _ => ih (b + BPB)

theorem balloc : All Plain balloc :=
  .bind step fun _ => .bind readsb fun _ => ballocLoop _ _

theorem bfree {b : ℕ} : All Plain (bfree b) :=
  .bind readsb fun _ => .bind step fun _ => .ite (.bind step fun _ => step) panic

theorem bmapAddr {k : Fin 13} : All Plain (bmapAddr ip k) :=
  .bind step fun _ => .ite (.bind balloc fun _ => .bind step fun _ => .pure) .pure

theorem bmapEntry {ind j : ℕ} : All Plain (bmapEntry ind j) :=
  .bind step fun _ => .ite (.bind balloc fun _ => .bind step fun _ => .bind step fun _ => .pure)
    (.bind step fun _ => .pure)

theorem bmap {bn : ℕ} : All Plain (bmap ip bn) := by
  rw [Fs.bmap]
  split
  · exact bmapAddr
  · exact .ite (.bind bmapAddr fun _ => bmapEntry) panic

theorem iupdate : All Plain (iupdate ip) :=
  .bind getInode fun _ => .bind step fun _ => .bind step fun _ => .bind step fun _ => step

theorem loadInode : All Plain (loadInode ip) :=
  .bind getInode fun _ => .bind step fun _ => .bind assign fun _ => .bind assign fun _ =>
    .bind assign fun _ => .bind assign fun _ => .bind step fun _ => step

theorem iallocLoop {type : Short} (n inum : ℕ) : All Plain (iallocLoop type n inum) := by
  induction n generalizing inum with
  | zero =>
    rw [Fs.iallocLoop]
    exact panic
  | succ n ih =>
    rw [Fs.iallocLoop]
    exact .bind step fun _ => .ite (.bind step fun _ => .bind step fun _ => .pure)
      (.bind step fun _ => ih (inum + 1))

theorem truncDirect (n i : ℕ) : All Plain (truncDirect ip n i) := by
  induction n generalizing i with
  | zero =>
    rw [Fs.truncDirect]
    exact .pure
  | succ n ih =>
    rw [Fs.truncDirect]
    exact .bind step fun _ => .ite (ih (i + 1))
      (.bind bfree fun _ => .bind step fun _ => ih (i + 1))

theorem truncEntries {a : Block} (n j : ℕ) : All Plain (truncEntries a n j) := by
  induction n generalizing j with
  | zero =>
    rw [Fs.truncEntries]
    exact .pure
  | succ n ih =>
    rw [Fs.truncEntries]
    exact .ite (ih (j + 1)) (.bind bfree fun _ => ih (j + 1))

theorem truncIndirect : All Plain (truncIndirect ip) :=
  .bind step fun _ => .ite .pure (.bind step fun _ => .bind (truncEntries _ _) fun _ =>
    .bind step fun _ => .bind bfree fun _ => step)

theorem itrunc : All Plain (itrunc ip) :=
  .bind (truncDirect _ _) fun _ => .bind truncIndirect fun _ => .bind step fun _ =>
    .bind step fun _ => iupdate

theorem readLoop (fuel n off : ℕ) : All Plain (readLoop ip fuel n off) := by
  induction fuel generalizing n off with
  | zero =>
    rw [Fs.readLoop]
    exact .pure
  | succ fuel ih =>
    rw [Fs.readLoop]
    exact .ite .pure (.bind bmap fun _ => .bind step fun _ => .bind step fun _ =>
      .bind (ih _ _) fun _ => .pure)

theorem readi {off n : ℕ} : All Plain (readi ip off n) :=
  .bind step fun _ => .ite .pure (.bind (readLoop _ _ _) fun _ => .pure)

theorem writeLoop (fuel : ℕ) (src : List UInt8) (off : ℕ) :
    All Plain (writeLoop ip fuel src off) := by
  induction fuel generalizing src off with
  | zero =>
    rw [Fs.writeLoop]
    exact .pure
  | succ fuel ih =>
    rw [Fs.writeLoop]
    exact .ite .pure (.bind bmap fun _ => .bind step fun _ => .bind step fun _ =>
      .bind step fun _ => ih _ _)

theorem writei {off : ℕ} {src : List UInt8} : All Plain (writei ip off src) :=
  .bind step fun _ => .ite .pure (.ite .pure (.bind (writeLoop _ _ _) fun _ =>
    .bind step fun _ => .ite (.bind step fun _ => .bind iupdate fun _ => .pure) .pure))

/-- The functions that carry out the steps on nodes are plain. -/
theorem onBlocks : (a : DiskAct β) → All Plain (onBlocks β (.right a))
  | .load _ => .bind loadInode fun _ => .perform trivial
  | .size _ => .bind step fun _ => .pure
  | .readi _ _ _ => readi
  | .iupdate _ => iupdate
  | .free _ => .bind itrunc fun _ => .bind assign fun _ => iupdate
  | .ialloc _ => .bind readsb fun _ => iallocLoop _ _
  | .writei _ _ _ => writei

end Plain

/-- A protocol on the kernel tables that does not mind the plain steps. -/
def Protocol.MindsNoPlain {τ : Type} (P : Protocol CoreAct τ) : Prop :=
  ∀ (β : Type) (a : CoreAct β) (t : τ), Plain β (.left a) →
    P.pre β a t ∧ ∀ r t', P.next β a t r t' → t' = t

theorem follows_blocks_of_minds {τ α : Type} {P : Protocol CoreAct τ} (hP : Protocol.MindsNoPlain P)
    {Q : α → τ → Prop} {c : IProg α} {t : τ} (h : c.Follows P.onLeft Q t) :
    c.blocks.Follows P.onLeft Q t := by
  refine follows_handle (P := P.onLeft) (fun β a u hpre => ?_) h
  cases a with
  | left a => exact follows_perform hpre fun _ _ hn => hn
  | right a =>
    refine follows_of_all (fun β b hb => ?_) (Plain.onBlocks a)
    cases b with
    | left b => exact hP β b u hb
    | right b => exact ⟨trivial, fun _ _ hn => hn⟩

end Qwin.Fs
