import Qwin.Sys.FileProcs

/-!
# The file table in every run

Every step on the kernel tables keeps the invariant of the file table, so it holds in
every state that system calls reach, in whatever order the processes run.
-/

namespace Qwin.Sys

open Prog Fs
open Function (update update_eq_self)

variable {c c' : Core} {tok : ℕ → FileToken} {p f : ℕ} {t : FileToken}

namespace FileInv

theorem quiet (h : FileInv c tok) (hfile : c'.file = c.file) (hpipe : c'.pipe = c.pipe)
    (hnpipe : c'.npipe = c.npipe) (hstate : ∀ q, (c'.pt.proc q).state = (c.pt.proc q).state)
    (hofile : ∀ q, (c'.pt.proc q).ofile = (c.pt.proc q).ofile) :
    FileInv c' (update tok p (tok p)) := by
  rw [update_eq_self]
  refine ⟨h.lives.congr hstate hofile, h.filed.congr (fun g => ?_) hofile,
    h.piped.congr (fun g => ?_) hpipe hnpipe⟩
  · rw [hfile]
    exact ⟨rfl, rfl⟩
  · rw [hfile]

/-- A step that changes what nothing here depends on of one file. -/
theorem setFile (h : FileInv c tok) {x : File} (href : x.ref = (c.file f).ref)
    (htype : x.type = (c.file f).type) (hend : endOf x = endOf (c.file f)) :
    FileInv (c.setFile f x) (update tok p (tok p)) := by
  rw [update_eq_self]
  refine ⟨h.lives.congr (fun _ => rfl) fun _ => rfl, h.filed.congr (fun g => ?_) fun _ => rfl,
    h.piped.congr (fun g => ?_) rfl rfl⟩
  · by_cases hg : g = f
    · subst hg
      rw [Core.setFile_file_self]
      exact ⟨href, htype⟩
    · rw [Core.setFile_file_of_ne hg]
      exact ⟨rfl, rfl⟩
  · by_cases hg : g = f
    · subst hg
      rw [Core.setFile_file_self, hend]
    · rw [Core.setFile_file_of_ne hg]

theorem endOf_eq {x y : File} (htype : x.type = y.type) (hpipe : x.pipe = y.pipe)
    (hw : x.writable = y.writable) : endOf x = endOf y := by
  rw [endOf, htype, hpipe, hw, endOf]

theorem endOf_eq_none {x : File} (h : x.type ≠ .pipe) : endOf x = none := if_neg h

/-- A step on one file, by a process that keeps its descriptors. -/
theorem ofFiled (h : FileInv c tok) (ha : (tok p).alive = true) {x : File} (ht : t.alive = true)
    (hofile : t.ofile = (tok p).ofile) (hchild : t.child = (tok p).child)
    (hfiled : Filed (c.setFile f x) (update tok p t))
    (hpiped : Piped (c.setFile f x) (update tok p t)) :
    FileInv (c.setFile f x) (update tok p t) := by
  have hlives := h.lives.setToken ht ha hofile hchild
  exact ⟨hlives.congr (fun _ => rfl) fun _ => rfl, hfiled, hpiped⟩

theorem pipedKeep (h : FileInv c tok) {x : File} (hends : t.ends = (tok p).ends)
    (hpages : t.pages = (tok p).pages) (hend : endOf x = endOf (c.file f)) :
    Piped (c.setFile f x) (update tok p t) := by
  have hpiped := h.piped.setToken hends hpages
  refine hpiped.congr (fun g => ?_) rfl rfl
  by_cases hg : g = f
  · subst hg
    rw [Core.setFile_file_self, hend]
  · rw [Core.setFile_file_of_ne hg]

section

variable (h : FileInv c tok) (ha : (tok p).alive = true)
include h ha

theorem filealloc (hf : c.freeFile = some f) :
    f ∉ (tok p).fresh ∧ FileInv (c.setFile f { c.file f with ref := 1 })
      (update tok p ((tok p).alloc f)) := by
  obtain ⟨hnew, hfiled⟩ := h.filed.filealloc (h.lives.mem ha) hf
  exact ⟨hnew, h.ofFiled ha ha rfl rfl hfiled (h.pipedKeep rfl rfl (endOf_eq rfl rfl rfl))⟩

variable (hf : 1 ≤ (tok p).share f)
include hf

theorem filedup :
    FileInv (c.setFile f { c.file f with ref := (c.file f).ref + 1 })
      (update tok p ((tok p).dup f)) := by
  have hheld : 1 ≤ held c tok p f := by rwa [h.lives.held_eq ha]
  exact h.ofFiled ha ha rfl rfl (h.filed.filedup (h.lives.mem ha) hheld)
    (h.pipedKeep rfl rfl (endOf_eq rfl rfl rfl))

theorem fileDrop (hmore : 0 < (c.file f).ref - 1) :
    FileInv (c.setFile f { c.file f with ref := (c.file f).ref - 1 })
      (update tok p ((tok p).drop f)) := by
  have hheld : 1 ≤ held c tok p f := by rwa [h.lives.held_eq ha]
  refine h.ofFiled ha ha rfl rfl (h.filed.fileDrop (h.lives.mem ha) hheld rfl ?_ rfl rfl rfl)
    (h.pipedKeep rfl rfl (endOf_eq rfl rfl rfl))
  rw [if_neg (by omega)]

end

theorem release_eq (t : FileToken) (x : File) :
    t.release (some x) = { t with ends := t.ends + one (endOf x) } := by
  obtain ⟨type, ref, readable, writable, pipe, ip, off⟩ := x
  cases type <;> simp [FileToken.release, endOf, one]

variable (h : FileInv c tok)
include h

section

variable (ha : (tok p).alive = true)
include ha

theorem fileDrop_last (hf : 1 ≤ (tok p).share f) (hlast : (c.file f).ref = 1) :
    FileInv (c.setFile f { c.file f with ref := 0, type := .none })
      (update tok p (((tok p).drop f).release (some (c.file f)))) := by
  have hmem := h.lives.mem ha
  have hheld : 1 ≤ held c tok p f := by rwa [h.lives.held_eq ha]
  rw [release_eq]
  refine h.ofFiled ha ha rfl rfl (h.filed.fileDrop hmem hheld ?_ ?_ rfl rfl rfl)
    (h.piped.move hmem (h.filed.lt f (by omega)) ?_ ?_ rfl)
  · rw [hlast]
    rfl
  · rw [if_pos hlast]
  · rw [endOf_eq_none (by simp)]
    exact (zero_add _).trans (add_comm _ _)
  · intro k
    have hnn := h.piped.ends_nonneg hmem k
    have hone : 0 ≤ one (endOf (c.file f)) k := by
      rw [one_apply]
      split <;> decide
    exact add_nonneg hnn hone

theorem openFile (hf : f ∈ (tok p).fresh) {ip : ℕ} {readable writable : Bool} :
    FileInv (c.setFile f { c.file f with
        type := .inode, ip := ip, off := 0, readable := readable, writable := writable })
      (update tok p { tok p with
        fresh := (tok p).fresh.erase f, opened := some f }) := by
  have hnone := (h.filed.fresh p f hf).1
  refine h.ofFiled ha ha rfl rfl (h.filed.fill hf rfl rfl rfl (.inr ⟨rfl, rfl⟩))
    (h.pipedKeep rfl rfl ?_)
  rw [endOf_eq_none (by simp), endOf_eq_none (by simp [hnone])]

theorem openPipe (hf : f ∈ (tok p).fresh) {i : ℕ} {w : Bool} (he : 1 ≤ (tok p).ends (i, w)) :
    FileInv (c.setFile f { c.file f with
        type := .pipe, pipe := i, readable := !w, writable := w })
      (update tok p { tok p with
        fresh := (tok p).fresh.erase f, ends := (tok p).ends - Pi.single (i, w) 1 }) := by
  obtain ⟨hnone, href, -, -⟩ := h.filed.fresh p f hf
  have hmem := h.lives.mem ha
  refine h.ofFiled ha ha rfl rfl (h.filed.fill hf rfl rfl rfl (.inl rfl))
    (h.piped.move hmem (h.filed.lt f (by omega)) ?_
      (Piped.sub_single_nonneg (h.piped.ends_nonneg hmem) he) rfl)
  rw [endOf_eq_none (x := c.file f) (by simp [hnone])]
  simp [endOf, one]

end

theorem dropWrite (hf : (tok p).opened = some f) :
    FileInv (c.setFile f { c.file f with writable := false }) (update tok p (tok p)) := by
  have hinode := (h.filed.opened p f hf).1
  refine h.setFile rfl rfl ?_
  rw [endOf_eq_none (by simp [hinode]), endOf_eq_none (by simp [hinode])]

theorem ofPiped (ha : (tok p).alive = true) (ht : t.alive = true)
    (hofile : t.ofile = (tok p).ofile) (hchild : t.child = (tok p).child)
    (hfiles : t.files = (tok p).files) (hfresh : t.fresh = (tok p).fresh)
    (hopened : t.opened = (tok p).opened) (hpt : c'.pt = c.pt) (hfile : c'.file = c.file)
    (hpiped : Piped c' (update tok p t)) : FileInv c' (update tok p t) := by
  have hlives := h.lives.setToken ht ha hofile hchild
  have hfiled := h.filed.setToken hfiles hfresh hopened
  refine ⟨hlives.congr (fun q => ?_) fun q => ?_, hfiled.congr (fun g => ?_) fun q => ?_, hpiped⟩
  · rw [hpt]
  · rw [hpt]
  · rw [hfile]
    exact ⟨rfl, rfl⟩
  · rw [hpt]

/-- A step on the process table that keeps the descriptors. -/
theorem ofLives (hfiles : t.files = (tok p).files)
    (hfresh : t.fresh = (tok p).fresh) (hopened : t.opened = (tok p).opened)
    (hends : t.ends = (tok p).ends) (hpages : t.pages = (tok p).pages)
    (hfile : c'.file = c.file) (hpipe : c'.pipe = c.pipe) (hnpipe : c'.npipe = c.npipe)
    (hofile : ∀ q, (c'.pt.proc q).ofile = (c.pt.proc q).ofile)
    (hlives : Lives c' (update tok p t)) : FileInv c' (update tok p t) := by
  have hfiled := h.filed.setToken hfiles hfresh hopened
  have hpiped := h.piped.setToken hends hpages
  refine ⟨hlives, hfiled.congr (fun g => ?_) hofile, hpiped.congr (fun g => ?_) hpipe hnpipe⟩
  · rw [hfile]
    exact ⟨rfl, rfl⟩
  · rw [hfile]

end FileInv

/-! ## The process table -/

theorem allocproc_cases (t : Ptable) (kalloc : Bool) :
    ((t.allocproc kalloc).1 = none ∧
        ∀ q, ((t.allocproc kalloc).2.proc q).state = (t.proc q).state ∧
          ((t.allocproc kalloc).2.proc q).ofile = (t.proc q).ofile) ∨
      ∃ np < NPROC, (t.proc np).state = .unused ∧ (t.allocproc kalloc).1 = some np ∧
        ((t.allocproc kalloc).2.proc np).state = .embryo ∧
        (∀ q, q ≠ np → ((t.allocproc kalloc).2.proc q).state = (t.proc q).state) ∧
        ∀ q, ((t.allocproc kalloc).2.proc q).ofile = (t.proc q).ofile := by
  unfold Ptable.allocproc
  cases hslot : t.unusedSlot with
  | none => exact .inl ⟨rfl, fun q => ⟨rfl, rfl⟩⟩
  | some np =>
    have hlt : np < NPROC := List.mem_range.1 (List.mem_of_find?_eq_some hslot)
    have hunused : (t.proc np).state = .unused := by simpa using List.find?_some hslot
    cases kalloc with
    | false =>
      refine .inl ⟨rfl, fun q => ?_⟩
      by_cases hq : q = np
      · subst hq
        simp [hunused]
      · simp [Ptable.modify_proc, hq]
    | true =>
      refine .inr ⟨np, hlt, hunused, rfl, ?_, fun q hq => ?_, fun q => ?_⟩
      · simp
      · simp [Ptable.modify_proc, hq]
      · by_cases hq : q = np
        · subst hq
          simp
        · simp [Ptable.modify_proc, hq]

theorem exit_slots {t t' : Ptable} (h : t.exit p = .ok t') :
    (t'.proc p).state = .zombie ∧ (∀ fd, (t'.proc p).ofile fd = none) ∧
      ∀ q, q ≠ p → (t'.proc q).state = (t.proc q).state ∧ (t'.proc q).ofile = (t.proc q).ofile := by
  unfold Ptable.exit at h
  split at h
  · cases h
  · cases h
    refine ⟨?_, ?_, ?_⟩
    · simp
    · intro fd
      simp only [if_true]
      split <;> rfl
    · intro q hq
      simp only [if_neg hq]
      split <;> exact ⟨rfl, rfl⟩

namespace FileInv

/-- Every step of a process on the kernel tables that the protocol admits moves its token as
the protocol says, and keeps the invariant. -/
theorem step {β : Type} {a : CoreAct β} {r : β} (h : FileInv c tok)
    (hpre : fileProtocol.pre β a (tok p)) (hx : c.exec p a = .ok (r, c')) :
    ∃ t, fileProtocol.next β a (tok p) r t ∧ FileInv c' (update tok p t) := by
  cases a with
  | filealloc =>
    dsimp only [Core.exec] at hx
    split at hx
    next hf =>
      cases hx
      obtain ⟨hnew, hinv⟩ := h.filealloc hpre hf
      exact ⟨_, ⟨rfl, hnew⟩, hinv⟩
    · cases hx
      exact ⟨_, rfl, h.quiet rfl rfl rfl (fun _ => rfl) fun _ => rfl⟩
  | filedup f =>
    dsimp only [Core.exec] at hx
    split at hx
    · cases hx
    · cases hx
      exact ⟨_, rfl, h.filedup hpre.1 hpre.2⟩
  | fileDrop f =>
    dsimp only [Core.exec] at hx
    split at hx
    · cases hx
    · split at hx
      next hmore =>
        cases hx
        exact ⟨_, rfl, h.fileDrop hpre.1 hpre.2 hmore⟩
      · cases hx
        exact ⟨_, rfl, h.fileDrop_last hpre.1 hpre.2 (by omega)⟩
  | openFile f ip readable writable =>
    cases hx
    exact ⟨_, rfl, h.openFile hpre.1 hpre.2⟩
  | openPipe f i w =>
    cases hx
    exact ⟨_, rfl, h.openPipe hpre.1 hpre.2.1 hpre.2.2⟩
  | dropWrite f =>
    cases hx
    exact ⟨_, rfl, h.dropWrite hpre.2⟩
  | advance f n =>
    cases hx
    exact ⟨_, rfl, h.setFile rfl rfl (endOf_eq rfl rfl rfl)⟩
  | setOff f n =>
    cases hx
    exact ⟨_, rfl, h.setFile rfl rfl (endOf_eq rfl rfl rfl)⟩
  | pipeKalloc =>
    dsimp only [Core.exec] at hx
    split at hx
    · cases hx
      exact ⟨_, rfl, h.ofPiped hpre hpre rfl rfl rfl rfl rfl rfl rfl
        (h.piped.pipeKalloc (h.lives.mem hpre))⟩
    · cases hx
      exact ⟨_, rfl, h.quiet rfl rfl rfl (fun _ => rfl) fun _ => rfl⟩
  | pipeclose i w =>
    cases hx
    exact ⟨_, rfl, h.ofPiped hpre.1 hpre.1 rfl rfl rfl rfl rfl rfl rfl
      (h.piped.pipeclose (h.lives.mem hpre.1) hpre.2)⟩
  | pipeKfree i =>
    cases hx
    exact ⟨_, rfl, h.ofPiped hpre.1 hpre.1 rfl rfl rfl rfl rfl rfl rfl
      (h.piped.pipeKfree (h.lives.mem hpre.1) hpre.2)⟩
  | getProc =>
    cases hx
    exact ⟨_, ⟨rfl, fun ha => (h.lives.view p ha).2⟩,
      h.quiet rfl rfl rfl (fun _ => rfl) fun _ => rfl⟩
  | setCwd ip =>
    cases hx
    refine ⟨_, rfl, h.quiet rfl rfl rfl (fun q => ?_) fun q => ?_⟩
    · dsimp only
      rw [Ptable.modify_proc]
      split
      next hq => rw [hq]
      · rfl
    · dsimp only
      rw [Ptable.modify_proc]
      split
      next hq => rw [hq]
      · rfl
  | setOfile fd v =>
    cases hx
    have hself : ((c.pt.modify p fun x =>
        { x with ofile := update x.ofile fd v }).proc p).ofile =
        update (c.pt.proc p).ofile fd v := by rw [Ptable.modify_proc_self]
    have hother : ∀ q, q ≠ p → ((c.pt.modify p fun x =>
        { x with ofile := update x.ofile fd v }).proc q).ofile =
        (c.pt.proc q).ofile := by
      intro q hq
      rw [Ptable.modify_proc, if_neg hq]
    have hpiped := h.piped.setToken (p := p) (t := (tok p).setOfile fd v) rfl rfl
    refine ⟨_, rfl, h.lives.setOfile hpre (fun q => ?_) hself hother,
      h.filed.setOfile h.lives hpre rfl hself hother, hpiped.congr (fun _ => rfl) rfl rfl⟩
    dsimp only
    rw [Ptable.modify_proc]
    split
    next hq => rw [hq]
    · rfl
  | wait =>
    dsimp only [Core.exec] at hx
    split at hx
    next hsome =>
      obtain ⟨i, hi⟩ := Option.isSome_iff_exists.1 hsome
      have hzombie : (c.pt.proc i).state = .zombie := by
        have hfind := List.find?_some hi
        simp only [decide_eq_true_eq] at hfind
        exact hfind.2
      have hwait : c.pt.wait p = (some i, c.pt.modify i fun x =>
          { x with state := .unused, pid := 0, parent := none, killed := false }) := by
        rw [Ptable.wait, hi]
      rw [hwait] at hx
      cases hx
      have hofile : ∀ q, ((c.pt.modify i fun x =>
          { x with state := .unused, pid := 0, parent := none, killed := false }).proc q).ofile =
          (c.pt.proc q).ofile := by
        intro q
        rw [Ptable.modify_proc]
        split
        next hq => rw [hq]
        · rfl
      refine ⟨tok p, rfl, h.ofLives rfl rfl rfl rfl rfl rfl rfl rfl hofile ?_⟩
      rw [update_eq_self]
      refine h.lives.wait hzombie ?_ (fun q hq => ?_) hofile
      · dsimp only
        rw [Ptable.modify_proc_self]
      · dsimp only
        rw [Ptable.modify_proc, if_neg hq]
    · split at hx
      · cases hx
      · cases hx
        exact ⟨_, rfl, h.quiet rfl rfl rfl (fun _ => rfl) fun _ => rfl⟩
  | allocproc =>
    cases hx
    rcases allocproc_cases c.pt (c.oracle c.tick ≠ 0) with
      ⟨hr, hsame⟩ | ⟨np, hlt, hold, hr, hnew, hother, hofile⟩
    · have hsetChild : (tok p).setChild none = tok p := by
        rw [FileToken.setChild, ← hpre.2]
      refine ⟨_, rfl, ?_⟩
      rw [hr, hsetChild]
      exact h.quiet rfl rfl rfl (fun q => (hsame q).1) fun q => (hsame q).2
    · refine ⟨_, rfl, ?_⟩
      rw [hr]
      exact h.ofLives rfl rfl rfl rfl rfl rfl rfl rfl hofile
        (h.lives.allocproc hpre.1 hlt hold hnew hother hofile)
  | forkFail np =>
    cases hx
    have hofile : ∀ q, ((c.pt.modify np fun x => { x with state := .unused }).proc q).ofile =
        (c.pt.proc q).ofile := by
      intro q
      rw [Ptable.modify_proc]
      split
      next hq => rw [hq]
      · rfl
    refine ⟨_, rfl, h.ofLives rfl rfl rfl rfl rfl rfl rfl rfl hofile
      (h.lives.forkFail hpre.1 hpre.2 ?_ (fun q hq => ?_) hofile)⟩
    · dsimp only
      rw [Ptable.modify_proc_self]
    · dsimp only
      rw [Ptable.modify_proc, if_neg hq]
  | forkCopy np =>
    cases hx
    obtain ⟨ha, hchild, hfiles⟩ := hpre
    have hembryo : ¬ (c.pt.proc np).state.Live := by
      rw [(h.lives.child p np hchild).2]
      exact not_live_embryo
    have hself : ((c.pt.forkCopy p np).proc np).ofile = (c.pt.proc p).ofile := by
      rw [Ptable.forkCopy, Ptable.modify_proc_self]
      funext fd
      dsimp only
      rw [h.lives.empty np hembryo fd]
      cases (c.pt.proc p).ofile fd <;> rfl
    have hother : ∀ q, q ≠ np → (c.pt.forkCopy p np).proc q = c.pt.proc q := by
      intro q hq
      rw [Ptable.forkCopy, Ptable.modify_proc, if_neg hq]
    have hpiped := h.piped.setToken (p := p) (t := (tok p).passOn) rfl rfl
    refine ⟨_, rfl, h.lives.forkCopy ha hchild ?_ (fun q hq => ?_) fun q hq => ?_,
      h.filed.forkCopy h.lives ha hchild hfiles rfl hself fun q hq => ?_,
      hpiped.congr (fun _ => rfl) rfl rfl⟩
    · dsimp only
      rw [Ptable.forkCopy, Ptable.modify_proc_self]
    · dsimp only
      rw [hother q hq]
    · dsimp only
      rw [hother q hq]
    · dsimp only
      rw [hother q hq]
  | exitProc =>
    obtain ⟨ha, hrest, hempty⟩ := hpre
    dsimp only [Core.exec] at hx
    split at hx
    next hexit =>
      cases hx
      obtain ⟨hzombie, hnone, hother⟩ := exit_slots hexit
      have hpiped := h.piped.setToken (p := p) (t := (tok p).die) rfl rfl
      exact ⟨_, rfl, h.lives.exitProc ha hrest hzombie hnone (fun q hq => (hother q hq).1)
        fun q hq => (hother q hq).2,
        h.filed.exitProc h.lives ha rfl hempty hnone fun q hq => (hother q hq).2,
        hpiped.congr (fun _ => rfl) rfl rfl⟩
    · cases hx
  | _ =>
    dsimp only [Core.exec] at hx
    (repeat' split at hx) <;> cases hx <;>
      exact ⟨_, rfl, h.quiet rfl rfl rfl (fun _ => rfl) fun _ => rfl⟩

end FileInv

end Qwin.Sys
