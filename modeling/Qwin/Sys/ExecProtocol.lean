import Qwin.Lib.Protocol
import Qwin.Sys.Exec

/-!
# `exec` under a protocol

`exec` looks a path up, locks the inode it gets, reads from it and gives it back; what it
does to the page directory in between concerns no protocol on the file system. So any
protocol in which these functions take the token where it belongs is followed by `exec`.
-/

namespace Qwin.Sys

open Prog Fs

/-- What `exec` asks of a protocol: the tokens with the inode referenced and locked, and
how the functions that `exec` calls move between them. -/
structure ServesExec {τ : Type} (P : Protocol (Plus CoreAct DiskAct) τ) (t : τ)
    (held locked : ℕ → τ) : Prop where
  namei : ∀ path, (namei path).Follows P (fun r u => u = r.elim t held) t
  ilock : ∀ ip, Takes P (held ip) (locked ip) (ilock ip)
  readi : ∀ ip off n, Takes P (locked ip) (locked ip) (readi ip off n)
  iunlockput : ∀ ip, Takes P (locked ip) t (iunlockput ip)
  ask : ∀ u, Takes P u u (core .ask)
  panic : ∀ q u, P.pre Empty (.left (.panic q)) u

namespace ServesExec

variable {τ α γ : Type} {P : Protocol (Plus CoreAct DiskAct) τ} {t : τ} {held locked : ℕ → τ}

theorem follows_fs {Q : α → τ → Prop} {c : IProg α} (h : c.Follows P Q t) :
    (Sys.fs c).Follows P.onLeft Q t := by
  refine follows_handle (P := P) (fun β a u hp => ?_) h
  exact follows_perform hp fun _ _ hn => hn

variable {u : τ}

theorem fs {u' : τ} {c : IProg α} (h : Takes P u u' c) : Takes P.onLeft u u' (fs c) :=
  follows_fs h

theorem vm {β : Type} {a : VmAct β} : Takes P.onLeft u u (vm a) :=
  .perform trivial fun _ _ h => h

theorem panic' {q : Panic} (h : ServesExec P t held locked) {u' : τ} :
    Takes P.onLeft u u' (Sys.fs (Fs.panic q) : EProg α) :=
  fs (.abort (h.panic q u))

theorem askBytes (h : ServesExec P t held locked) (n : ℕ) : Takes P u u (askBytes n) := by
  induction n with
  | zero =>
    rw [Sys.askBytes]
    exact .pure
  | succ n ih =>
    rw [Sys.askBytes]
    exact .bind (h.ask u) fun _ => .bind ih fun _ => .pure

variable {ip vaddr offset sz : ℕ}

section

variable (h : ServesExec P t held locked)
include h

theorem loadPages (fuel i : ℕ) :
    Takes P.onLeft (locked ip) (locked ip) (loadPages ip vaddr offset sz fuel i) := by
  induction fuel generalizing i with
  | zero =>
    rw [Sys.loadPages]
    exact .pure
  | succ fuel ih =>
    rw [Sys.loadPages]
    refine .ite (.bind vm fun pte => ?_) .pure
    cases pte with
    | none => exact panic' h
    | some pa =>
      refine .bind (fs (h.readi _ _ _)) fun r => ?_
      cases r with
      | error e => exact .pure
      | ok l => exact .bind vm fun _ => .ite (ih _) .pure

theorem loaduvm : Takes P.onLeft (locked ip) (locked ip) (loaduvm ip vaddr offset sz) :=
  .ite (panic' h) (loadPages h _ _)

theorem loadSegments (n off sz : ℕ) :
    Takes P.onLeft (locked ip) (locked ip) (loadSegments ip n off sz) := by
  induction n generalizing off sz with
  | zero =>
    rw [Sys.loadSegments]
    exact .pure
  | succ n ih =>
    rw [Sys.loadSegments]
    exact .bind (fs (h.readi _ _ _)) fun _ => .ite .pure (.ite (ih _ _) (.ite .pure
      (.bind vm fun _ => .ite .pure (.bind (loaduvm h) fun _ => .ite (ih _ _) .pure))))

end

theorem pushArgs (argv : List (List UInt8)) (argc sp : ℕ) :
    Takes P.onLeft t t (pushArgs argv argc sp) := by
  induction argv generalizing argc sp with
  | nil =>
    rw [Sys.pushArgs]
    exact .pure
  | cons arg argv ih =>
    rw [Sys.pushArgs]
    exact .ite .pure (.bind vm fun _ => .ite (.bind (ih _ _) fun _ => .pure) .pure)

variable {argv : List (List UInt8)}

variable (h : ServesExec P t held locked)
include h

theorem execStack {entry : ℕ} : Takes P.onLeft t t (execStack entry sz argv) := by
  refine .bind vm fun _ => .ite (.bind vm fun _ => .pure) (.bind vm fun _ =>
    .ite (.bind (pushArgs _ _ _) fun r => ?_) (panic' h))
  cases r with
  | none => exact .bind vm fun _ => .pure
  | some x =>
    exact .bind vm fun _ => .ite (.bind vm fun _ => .pure) (.bind vm fun _ => .pure)

theorem execImage {elf : Elfhdr} : Takes P.onLeft (locked ip) t (execImage ip elf argv) := by
  have hput : Takes P.onLeft (locked ip) t (Sys.fs (Fs.iunlockput ip)) := fs (h.iunlockput ip)
  refine .ite (.bind hput fun _ => .pure) (.bind vm fun _ =>
    .ite (.bind (loadSegments h _ _ _) fun r => ?_) (.bind hput fun _ => .pure))
  cases r with
  | none => exact .bind vm fun _ => .bind hput fun _ => .pure
  | some sz => exact .bind hput fun _ => execStack h

theorem exec {path : List UInt8} : Takes P.onLeft t t (exec path argv) := by
  refine .bindOption (follows_fs (h.namei path)) .pure fun ip => ?_
  refine .bind (fs (h.ilock ip)) fun _ => .bind (fs (h.readi ip _ _)) fun hdr => ?_
  cases hdr with
  | ok l => exact .ite (.bind (fs (h.iunlockput ip)) fun _ => .pure) (execImage h)
  | error e => exact .bind (fs (askBytes h _)) fun _ => execImage h

end ServesExec

end Qwin.Sys
