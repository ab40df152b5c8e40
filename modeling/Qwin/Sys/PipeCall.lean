import Qwin.Pipe.Basic
import Qwin.Sys.Arg
import Qwin.Sys.FileRefs
import Qwin.Vm.Dealloc

/-!
# Making a pipe

`sys_pipe` on a machine whose pipes lie in pages of the allocator: a pipe is named by the
number of its frame, `kalloc` and `kfree` take it from the free list and put it back there.
All other steps are those of the kernel tables.

The five places where the call can fail lead through `fileclose`, on files that have no type
yet and on files that are the ends of the new pipe.
-/

namespace Qwin.Sys

open Prog Fs
open Function (update update_of_ne update_self update_eq_self update_idem)

/-- The kernel tables, the memory, and the pipes in it. -/
structure Paged where
  sys : IState
  mem : Vm.Mem
  pipe : ℕ → Pipe.View

namespace Paged

def closeEnd (v : Pipe.View) : Bool → Pipe.View
  | true => { v with writeopen := false }
  | false => { v with readopen := false }

/-- A step on the kernel tables or the disk. -/
def lift {β : Type} (s : Paged) :
    Except (End IState) (β × IState) → Except (End IState) (β × Paged)
  | .ok (r, t) => .ok (r, { s with sys := t })
  | .error e => .error e

def execCore (L : Vm.Layout) (env : Vm.Env) (p : ℕ) {β : Type} (a : CoreAct β) (s : Paged) :
    Except (End IState) (β × Paged) :=
  match a with
  | .pipeKalloc =>
    match Vm.exec L env .kalloc s.mem with
    | .ok (none, m) => .ok (none, { s with mem := m })
    | .ok (some f, m) =>
      .ok (some f, { s with mem := m, pipe := update s.pipe f ⟨0, 0, true, true⟩ })
    | .error e => .error (.stop e)
  | .pipeclose f writable =>
    .ok (!(closeEnd (s.pipe f) writable).readopen && !(closeEnd (s.pipe f) writable).writeopen,
      { s with pipe := update s.pipe f (closeEnd (s.pipe f) writable) })
  | .pipeKfree f =>
    match Vm.exec L env (.kfree f) s.mem with
    | .ok (_, m) => .ok ((), { s with mem := m })
    | .error e => .error (.stop e)
  | a => s.lift ((inodeSem p).exec (.left a) s.sys)

end Paged

def pagedSem (L : Vm.Layout) (env : Vm.Env) (p : ℕ) : Sem (Plus CoreAct DiskAct) Paged (End IState) where
  exec a s :=
    match a with
    | .left a => s.execCore L env p a
    | .right a => s.lift (execDisk a s.sys)

namespace Paged

variable (s : Paged)

def file (f : ℕ) : File := s.sys.core.file f

def ofile (p : ℕ) : ℕ → Option ℕ := (s.sys.core.pt.proc p).ofile

def setCore (c : Core) : Paged := { s with sys := { s.sys with core := c } }

def setFile (f : ℕ) (x : File) : Paged := s.setCore (s.sys.core.setFile f x)

def setOfile (p fd : ℕ) (f : Option ℕ) : Paged :=
  s.setCore { s.sys.core with pt := s.sys.core.pt.modify p fun x =>
    { x with ofile := update x.ofile fd f } }

def setPipe (f : ℕ) (v : Pipe.View) : Paged := { s with pipe := update s.pipe f v }

@[simp] theorem file_setFile_self (f : ℕ) (x : File) : (s.setFile f x).file f = x :=
  Core.setFile_file_self _ _ _

theorem file_setFile_of_ne {f g : ℕ} (h : g ≠ f) (x : File) : (s.setFile f x).file g = s.file g :=
  Core.setFile_file_of_ne h x

theorem ofile_setOfile_self (p fd : ℕ) (f : Option ℕ) :
    (s.setOfile p fd f).ofile p = update (s.ofile p) fd f := by
  dsimp only [ofile, setOfile, setCore]
  rw [Ptable.modify_proc_self]

theorem ofile_setOfile_of_ne {p q : ℕ} (h : q ≠ p) (fd : ℕ) (f : Option ℕ) :
    (s.setOfile p fd f).ofile q = s.ofile q := by
  dsimp only [ofile, setOfile, setCore]
  rw [Ptable.modify_proc, if_neg h]

end Paged

/-- The file after its last reference was dropped. -/
def shut (x : File) : File := { x with ref := 0, type := .none }

/-! ## Rules for the steps -/

section Rules

variable {α γ : Type} {L : Vm.Layout} {env : Vm.Env} {p f fd i : ℕ} {s : Paged}

/-- The program returns, and the return satisfies `Q`. -/
abbrev Does (L : Vm.Layout) (env : Vm.Env) (p : ℕ) (Q : α → Paged → Prop) (c : IProg α) (s : Paged) :
    Prop :=
  wp (pagedSem L env p) (fun _ _ _ => True) (fun _ => False) Q c s

theorem does_filealloc {Q : Option ℕ → Paged → Prop} (hnone : s.sys.core.freeFile = none → Q none s)
    (hsome : ∀ f, s.sys.core.freeFile = some f → Q (some f) (s.setFile f { s.file f with ref := 1 })) :
    Does L env p Q (core .filealloc) s := by
  cases hf : s.sys.core.freeFile with
  | none =>
    have hx : (pagedSem L env p).exec (.left .filealloc) s = .ok (none, s) := by
      dsimp only [pagedSem, Paged.execCore, inodeSem, Core.exec]
      rw [if_pos (show CoreAct.Meant s.sys.core .filealloc from trivial), hf]
      rfl
    exact wp_last trivial hx (hnone hf)
  | some f =>
    have hx : (pagedSem L env p).exec (.left .filealloc) s =
        .ok (some f, s.setFile f { s.file f with ref := 1 }) := by
      dsimp only [pagedSem, Paged.execCore, inodeSem, Core.exec]
      rw [if_pos (show CoreAct.Meant s.sys.core .filealloc from trivial), hf]
      rfl
    exact wp_last trivial hx (hsome f hf)

theorem does_fileDrop {Q : Option File → Paged → Prop} (href : (s.file f).ref = 1)
    (h : Q (some (s.file f)) (s.setFile f (shut (s.file f)))) :
    Does L env p Q (core (.fileDrop f)) s := by
  have hx : (pagedSem L env p).exec (.left (.fileDrop f)) s =
      .ok (some (s.file f), s.setFile f (shut (s.file f))) := by
    have href' : (s.sys.core.file f).ref = 1 := href
    dsimp only [pagedSem, Paged.execCore, inodeSem, Core.exec]
    rw [if_pos (show CoreAct.Meant s.sys.core (.fileDrop f) from trivial), href', if_neg (by decide),
      if_neg (by decide)]
    rfl
  exact wp_last trivial hx h

variable {w : Bool} {Q : Unit → Paged → Prop}

theorem does_openPipe
    (h : Q () (s.setFile f { s.file f with
      type := .pipe, pipe := i, readable := !w, writable := w })) :
    Does L env p Q (core (.openPipe f i w)) s := wp_last trivial rfl h

theorem does_kalloc {Q : Option ℕ → Paged → Prop}
    (hnone : Vm.Refused env s.mem → Q none { s with mem := s.mem.after s.mem.freelist })
    (hsome : ∀ f l, s.mem.freelist = f :: l → ¬ Vm.Refused env s.mem →
      Q (some f) (Paged.setPipe { s with mem := s.mem.after l } f ⟨0, 0, true, true⟩)) :
    Does L env p Q (core .pipeKalloc) s := by
  refine (wp_perform _ _).2 ⟨trivial, ?_⟩
  dsimp only [pagedSem, Paged.execCore, Vm.exec]
  cases hl : s.mem.freelist with
  | nil =>
    dsimp only
    have := hnone (Or.inl hl)
    rwa [Vm.Mem.after, hl] at this
  | cons f l =>
    cases hf : env.fails s.mem.calls with
    | true =>
      have := hnone (Or.inr hf)
      rw [Vm.Mem.after, hl] at this
      simpa using this
    | false =>
      have := hsome f l hl (by simp [Vm.Refused, hl, hf])
      simpa [Paged.setPipe, Vm.Mem.after] using this

theorem does_kfree (hf : L.Frame f)
    (h : Q () { s with mem := s.mem.freed f }) : Does L env p Q (core (.pipeKfree f)) s := by
  have hx : (pagedSem L env p).exec (.left (.pipeKfree f)) s = .ok ((), { s with mem := s.mem.freed f }) := by
    dsimp only [pagedSem, Paged.execCore, Vm.exec]
    rw [if_pos hf]
    rfl
  exact wp_last trivial hx h

theorem does_setOfile {o : Option ℕ} (h : Q () (s.setOfile p fd o)) :
    Does L env p Q (core (.setOfile fd o)) s := wp_last trivial rfl h

theorem does_fdalloc {Q : Option ℕ → Paged → Prop}
    (hnone : (∀ fd < NOFILE, s.ofile p fd ≠ none) → Q none s)
    (hsome : ∀ fd < NOFILE, s.ofile p fd = none → (∀ j < fd, s.ofile p j ≠ none) →
      Q (some fd) (s.setOfile p fd (some f))) : Does L env p Q (fdalloc f) s := by
  refine wp_seq (wp_last (r := s.sys.core.pt.proc p) trivial rfl ?_)
  cases hfind : (List.range NOFILE).find? fun fd => (s.sys.core.pt.proc p).ofile fd = none with
  | none =>
    rw [List.find?_range_eq_none] at hfind
    refine wp_pure (hnone fun fd hfd => ?_)
    simpa [Paged.ofile] using hfind fd hfd
  | some fd =>
    rw [List.find?_range_eq_some] at hfind
    obtain ⟨hfree, hlt, hlow⟩ := hfind
    refine wp_seq (does_setOfile (wp_pure ?_))
    exact hsome fd (List.mem_range.1 hlt) (of_decide_eq_true hfree) fun j hj => by
      simpa [Paged.ofile] using hlow j hj

/-! ## Closing what was made -/

theorem does_fileclose_fresh (href : (s.file f).ref = 1) (htype : (s.file f).type = .none)
    (h : Q () (s.setFile f (shut (s.file f)))) : Does L env p Q (fileclose f) s := by
  refine wp_seq (does_fileDrop href ?_)
  dsimp only
  rw [htype]
  exact wp_pure h

variable (href : (s.file f).ref = 1) (htype : (s.file f).type = .pipe) (hpipe : (s.file f).pipe = i)
  (hw : (s.file f).writable = w)
include href htype hpipe hw

/-- `fileclose` of an end of a pipe whose other end is open. -/
theorem does_fileclose_open (hopen : (Paged.closeEnd (s.pipe i) w).readopen = true ∨
      (Paged.closeEnd (s.pipe i) w).writeopen = true)
    (h : Q () ((s.setFile f (shut (s.file f))).setPipe i
      (Paged.closeEnd (s.pipe i) w))) : Does L env p Q (fileclose f) s := by
  refine wp_seq (does_fileDrop href ?_)
  dsimp only
  rw [htype, hpipe, hw]
  refine wp_seq (wp_last trivial rfl ?_)
  rw [if_neg]
  · exact wp_pure h
  · change ¬ (!(Paged.closeEnd (s.pipe i) w).readopen && !(Paged.closeEnd (s.pipe i) w).writeopen) = true
    rcases hopen with ho | ho <;> simp [ho]

theorem does_fileclose_last (hread : (Paged.closeEnd (s.pipe i) w).readopen = false)
    (hwrite : (Paged.closeEnd (s.pipe i) w).writeopen = false) (hi : L.Frame i)
    (h : Q () { (s.setFile f (shut (s.file f))).setPipe i
      (Paged.closeEnd (s.pipe i) w) with mem := s.mem.freed i }) :
    Does L env p Q (fileclose f) s := by
  refine wp_seq (does_fileDrop href ?_)
  dsimp only
  rw [htype, hpipe, hw]
  refine wp_seq (wp_last trivial rfl ?_)
  rw [if_pos]
  · exact does_kfree hi h
  · change (!(Paged.closeEnd (s.pipe i) w).readopen && !(Paged.closeEnd (s.pipe i) w).writeopen) = true
    rw [hread, hwrite]
    rfl

end Rules

/-! ## The call -/

def Idle (s : Paged) : Prop := ∀ f, (s.file f).ref = 0 → (s.file f).type = .none

/-- The descriptors, the counters and types of the files, and the free pages are as they were. -/
structure Restored (s t : Paged) : Prop where
  ofile : t.ofile = s.ofile
  file : ∀ f, (t.file f).ref = (s.file f).ref ∧ (t.file f).type = (s.file f).type
  free : t.mem.freelist = s.mem.freelist

/-- Something that the call needs is missing: a pointer to memory of the process, two files,
a page, or two descriptors. -/
def Lacks (env : Vm.Env) (p : ℕ) (u : User) (s : Paged) : Prop :=
  u.argptr 0 8 = none ∨
  (∀ f < NFILE, ∀ g < NFILE, (s.file f).ref = 0 → (s.file g).ref = 0 → f = g) ∨
  Vm.Refused env s.mem ∨
  ∀ fd < NOFILE, ∀ j < NOFILE, s.ofile p fd = none → s.ofile p j = none → fd = j

/-- The two lowest free descriptors are open for the ends of a new pipe in a page that was
free. -/
structure Opened (p : ℕ) (s t : Paged) (fd0 fd1 : ℕ) : Prop where
  lt : fd0 < fd1 ∧ fd1 < NOFILE
  free : s.ofile p fd0 = none ∧ s.ofile p fd1 = none
  lowest : ∀ fd < fd1, fd ≠ fd0 → s.ofile p fd ≠ none
  ends : ∃ rf wf g, rf ≠ wf ∧ (s.file rf).ref = 0 ∧ (s.file wf).ref = 0 ∧
    t.ofile p = update (update (s.ofile p) fd0 (some rf)) fd1 (some wf) ∧
    t.file rf = { s.file rf with type := .pipe, ref := 1, readable := true, writable := false, pipe := g } ∧
    t.file wf = { s.file wf with type := .pipe, ref := 1, readable := false, writable := true, pipe := g } ∧
    (∀ f, f ≠ rf → f ≠ wf → t.file f = s.file f) ∧
    s.mem.freelist = g :: t.mem.freelist ∧ t.pipe g = ⟨0, 0, true, true⟩
  others : ∀ q, q ≠ p → t.ofile q = s.ofile q

section Call

variable {L : Vm.Layout} {env : Vm.Env} {p f0 f1 g : ℕ} {s t : Paged}

theorem freeFile_eq_some {c : Core} {f : ℕ} (h : c.freeFile = some f) :
    f < NFILE ∧ (c.file f).ref = 0 := by
  rw [Core.freeFile, List.find?_range_eq_some] at h
  exact ⟨List.mem_range.1 h.2.1, of_decide_eq_true h.1⟩

theorem freeFile_eq_none {c : Core} {f : ℕ} (h : c.freeFile = none) (hf : f < NFILE) :
    (c.file f).ref ≠ 0 := by
  rw [Core.freeFile, List.find?_range_eq_none] at h
  simpa using h f hf

theorem Restored.of_shut (hidle : Idle s) (h0 : (s.file f0).ref = 0) (h1 : (s.file f1).ref = 0)
    (hofile : t.ofile = s.ofile) (hother : ∀ f, f ≠ f0 → f ≠ f1 → t.file f = s.file f)
    (ht0 : (t.file f0).ref = 0 ∧ (t.file f0).type = .none)
    (ht1 : (t.file f1).ref = 0 ∧ (t.file f1).type = .none)
    (hfree : t.mem.freelist = s.mem.freelist) : Restored s t := by
  refine ⟨hofile, fun f => ?_, hfree⟩
  by_cases hf0 : f = f0
  · rw [hf0, ht0.1, ht0.2, h0, hidle f0 h0]
    exact ⟨rfl, rfl⟩
  by_cases hf1 : f = f1
  · rw [hf1, ht1.1, ht1.2, h1, hidle f1 h1]
    exact ⟨rfl, rfl⟩
  rw [hother f hf0 hf1]
  exact ⟨rfl, rfl⟩

structure Made (s t : Paged) (f0 f1 g : ℕ) : Prop where
  ne : f0 ≠ f1
  lt0 : f0 < NFILE
  lt1 : f1 < NFILE
  free0 : (s.file f0).ref = 0
  free1 : (s.file f1).ref = 0
  file0 : t.file f0 =
    { s.file f0 with type := .pipe, ref := 1, readable := true, writable := false, pipe := g }
  file1 : t.file f1 =
    { s.file f1 with type := .pipe, ref := 1, readable := false, writable := true, pipe := g }
  other : ∀ f, f ≠ f0 → f ≠ f1 → t.file f = s.file f
  page : s.mem.freelist = g :: t.mem.freelist
  pipe : t.pipe g = ⟨0, 0, true, true⟩

theorem Made.setOfile (h : Made s t f0 f1 g) (p fd : ℕ) (f : Option ℕ) :
    Made s (t.setOfile p fd f) f0 f1 g :=
  ⟨h.ne, h.lt0, h.lt1, h.free0, h.free1, h.file0, h.file1, h.other, h.page, h.pipe⟩

structure Taken (s t : Paged) (f0 f1 : ℕ) : Prop where
  ne : f0 ≠ f1
  lt0 : f0 < NFILE
  lt1 : f1 < NFILE
  free0 : (s.file f0).ref = 0
  free1 : (s.file f1).ref = 0
  file0 : t.file f0 = { s.file f0 with ref := 1 }
  file1 : t.file f1 = { s.file f1 with ref := 1 }
  other : ∀ f, f ≠ f0 → f ≠ f1 → t.file f = s.file f
  mem : t.mem = s.mem
  ofile : t.ofile = s.ofile

theorem taken_freeFile (hf0 : s.sys.core.freeFile = some f0)
    (hf1 : (s.setFile f0 { s.file f0 with ref := 1 }).sys.core.freeFile = some f1) :
    Taken s ((s.setFile f0 { s.file f0 with ref := 1 }).setFile f1
      { (s.setFile f0 { s.file f0 with ref := 1 }).file f1 with ref := 1 }) f0 f1 := by
  obtain ⟨hlt0, hfree0⟩ := freeFile_eq_some hf0
  obtain ⟨hlt1, hfree1⟩ := freeFile_eq_some hf1
  have hne : f1 ≠ f0 := by
    rintro rfl
    have hone : ((s.setFile f1 { s.file f1 with ref := 1 }).file f1).ref = 0 := hfree1
    rw [Paged.file_setFile_self] at hone
    exact absurd hone one_ne_zero
  have hsame : (s.setFile f0 { s.file f0 with ref := 1 }).file f1 = s.file f1 :=
    Paged.file_setFile_of_ne s hne _
  refine ⟨hne.symm, hlt0, hlt1, hfree0, ?_, ?_, ?_, fun f h0 h1 => ?_, rfl, rfl⟩
  · rw [← hsame]
    exact hfree1
  · rw [Paged.file_setFile_of_ne _ hne.symm, Paged.file_setFile_self]
  · rw [Paged.file_setFile_self, hsame]
  · rw [Paged.file_setFile_of_ne _ h1, Paged.file_setFile_of_ne _ h0]

theorem Taken.restored {m : Vm.Mem} (h : Taken s t f0 f1) (hidle : Idle s)
    (hm : m.freelist = s.mem.freelist) (v0 v1 : File) (hv0 : v0.ref = 0 ∧ v0.type = .none)
    (hv1 : v1.ref = 0 ∧ v1.type = .none) :
    Restored s ((Paged.setFile { t with mem := m } f0 v0).setFile f1 v1) := by
  refine Restored.of_shut hidle h.free0 h.free1 h.ofile (fun f h0 h1 => ?_) ?_ ?_ hm
  · rw [Paged.file_setFile_of_ne _ h1, Paged.file_setFile_of_ne _ h0]
    exact h.other f h0 h1
  · rw [Paged.file_setFile_of_ne _ h.ne, Paged.file_setFile_self]
    exact hv0
  · rw [Paged.file_setFile_self]
    exact hv1

theorem does_pipealloc {Q : Option (ℕ × ℕ) → Paged → Prop} (hidle : Idle s)
    (hnone : ∀ t, Restored s t →
      ((∀ f < NFILE, ∀ g < NFILE, (s.file f).ref = 0 → (s.file g).ref = 0 → f = g) ∨
        Vm.Refused env s.mem) → Q none t)
    (hsome : ∀ f0 f1 g t, Made s t f0 f1 g → t.ofile = s.ofile → ¬ Vm.Refused env s.mem →
      Q (some (f0, f1)) t) : Does L env p Q pipealloc s := by
  refine wp_seq (does_filealloc (fun hfull => ?_) fun f0 hf0 => ?_)
  · refine wp_pure (hnone s ⟨rfl, fun _ => ⟨rfl, rfl⟩, rfl⟩ (Or.inl fun f hf _ _ h0 => ?_))
    exact absurd h0 (freeFile_eq_none hfull hf)
  refine wp_seq (does_filealloc (fun hfull => ?_) fun f1 hf1 => ?_)
  · -- Only one file was free.
    obtain ⟨hlt0, hfree0⟩ := freeFile_eq_some hf0
    dsimp only
    refine wp_seq (does_fileclose_fresh ?_ ?_ (wp_pure (hnone _ ?_ (Or.inl ?_))))
    · rw [Paged.file_setFile_self]
    · rw [Paged.file_setFile_self]
      exact hidle f0 hfree0
    · refine Restored.of_shut hidle hfree0 hfree0 rfl (fun f hf _ => ?_) ?_ ?_ rfl
      · rw [Paged.file_setFile_of_ne _ hf, Paged.file_setFile_of_ne _ hf]
      · rw [Paged.file_setFile_self]
        exact ⟨rfl, rfl⟩
      · rw [Paged.file_setFile_self]
        exact ⟨rfl, rfl⟩
    · intro f hf g hg hf0' hg0'
      have honly : ∀ f < NFILE, (s.file f).ref = 0 → f = f0 := by
        intro f hf hf'
        by_contra hne
        refine freeFile_eq_none hfull hf (Eq.trans ?_ hf')
        exact congrArg File.ref (Paged.file_setFile_of_ne s hne _)
      rw [honly f hf hf0', honly g hg hg0']
  -- From here on only the two files and what was free before matter.
  have htaken := taken_freeFile hf0 hf1
  generalize (s.setFile f0 { s.file f0 with ref := 1 }).setFile f1
    { (s.setFile f0 { s.file f0 with ref := 1 }).file f1 with ref := 1 } = s2 at htaken ⊢
  have hne := htaken.ne
  refine wp_seq (does_kalloc (fun hrefused => ?_) fun g l hl hpage => ?_)
  · -- There is no page.
    have hfile : (({ s2 with mem := s2.mem.after s2.mem.freelist } : Paged)).file = s2.file := rfl
    refine wp_seq (does_fileclose_fresh ?_ ?_ (wp_seq (does_fileclose_fresh ?_ ?_
      (wp_pure (hnone _ (htaken.restored hidle ?_ _ _ ⟨rfl, rfl⟩ ⟨rfl, rfl⟩)
        (Or.inr (htaken.mem ▸ hrefused)))))))
    · rw [hfile, htaken.file0]
    · rw [hfile, htaken.file0]
      exact hidle f0 htaken.free0
    · rw [Paged.file_setFile_of_ne _ hne.symm, hfile, htaken.file1]
    · rw [Paged.file_setFile_of_ne _ hne.symm, hfile, htaken.file1]
      exact hidle f1 htaken.free1
    · change s2.mem.freelist = s.mem.freelist
      rw [htaken.mem]
  · generalize hs3 : Paged.setPipe { s2 with mem := s2.mem.after l } g ⟨0, 0, true, true⟩ = s3
    have hfile : s3.file = s2.file := by rw [← hs3]; rfl
    refine wp_seq (does_openPipe (wp_seq (does_openPipe (wp_pure
      (hsome f0 f1 g _ ?_ ?_ (htaken.mem ▸ hpage))))))
    · refine ⟨hne, htaken.lt0, htaken.lt1, htaken.free0, htaken.free1, ?_, ?_,
        fun f h0 h1 => ?_, ?_, ?_⟩
      · rw [Paged.file_setFile_of_ne _ hne, Paged.file_setFile_self, hfile, htaken.file0]
        rfl
      · rw [Paged.file_setFile_self, Paged.file_setFile_of_ne _ hne.symm, hfile, htaken.file1]
        rfl
      · rw [Paged.file_setFile_of_ne _ h1, Paged.file_setFile_of_ne _ h0, hfile,
          htaken.other f h0 h1]
      · rw [← htaken.mem, hl, ← hs3]
        rfl
      · rw [← hs3]
        exact update_self _ _ _
    · rw [← htaken.ofile, ← hs3]
      rfl

theorem does_closeBoth {α : Type} {Q : α → Paged → Prop} {a : α} {s0 : Paged} (hidle : Idle s0)
    (hmade : Made s0 s f0 f1 g) (hg : L.Frame g) (hofile : s.ofile = s0.ofile)
    (h : ∀ t, Restored s0 t → Q a t) :
    Does L env p Q (do fileclose f0; fileclose f1; pure a) s := by
  have hread : Paged.closeEnd (s.pipe g) false = ⟨0, 0, false, true⟩ := by
    rw [hmade.pipe]
    rfl
  refine wp_seq (does_fileclose_open (w := false) (i := g) ?_ ?_ ?_ ?_ (Or.inr ?_) ?_)
  · rw [hmade.file0]
  · rw [hmade.file0]
  · rw [hmade.file0]
  · rw [hmade.file0]
  · rw [hread]
  rw [hread]
  generalize hs1 : (s.setFile f0 (shut (s.file f0))).setPipe g ⟨0, 0, false, true⟩ = s1
  have hfile : s1.file = (s.setFile f0 (shut (s.file f0))).file := by rw [← hs1]; rfl
  have hpipe : Paged.closeEnd (s1.pipe g) true = ⟨0, 0, false, false⟩ := by
    have hp : s1.pipe g = ⟨0, 0, false, true⟩ := by
      rw [← hs1]
      exact update_self _ _ _
    rw [hp]
    rfl
  have hfile1 : s1.file f1 = s.file f1 := by rw [hfile, Paged.file_setFile_of_ne _ hmade.ne.symm]
  refine wp_seq (does_fileclose_last (w := true) (i := g) ?_ ?_ ?_ ?_ ?_ ?_ hg (wp_pure (h _ ?_)))
  · rw [hfile1, hmade.file1]
  · rw [hfile1, hmade.file1]
  · rw [hfile1, hmade.file1]
  · rw [hfile1, hmade.file1]
  · rw [hpipe]
  · rw [hpipe]
  · refine Restored.of_shut hidle hmade.free0 hmade.free1 ?_ (fun f h0 h1 => ?_) ?_ ?_ ?_
    · rw [← hofile, ← hs1]
      rfl
    · refine (Paged.file_setFile_of_ne s1 h1 _).trans ?_
      rw [hfile, Paged.file_setFile_of_ne _ h0, hmade.other f h0 h1]
    · have hf : (s1.setFile f1 (shut (s1.file f1))).file f0 = shut (s.file f0) := by
        rw [Paged.file_setFile_of_ne _ hmade.ne, hfile, Paged.file_setFile_self]
      exact ⟨congrArg File.ref hf, congrArg File.type hf⟩
    · have hf := Paged.file_setFile_self s1 f1 (shut (s1.file f1))
      exact ⟨congrArg File.ref hf, congrArg File.type hf⟩
    · rw [hmade.page, ← hs1]
      rfl

/-- `sys_pipe` returns. Either something is missing and it leaves nothing behind, or nothing
is missing and the two lowest free descriptors are the ends of a new pipe. -/
theorem pipe_atomic (L : Vm.Layout) (env : Vm.Env) (p : ℕ) (u : User) (s : Paged) (hidle : Idle s)
    (hframe : ∀ g ∈ s.mem.freelist, L.Frame g) : ∃ r out t,
    u.sysPipe.run (pagedSem L env p) s = .ok ((r, out), t) ∧
      (r = -1 ∧ Lacks env p u s ∧ Restored s t ∨
        r = 0 ∧ ¬ Lacks env p u s ∧ ∃ fd0 fd1, Opened p s t fd0 fd1) := by
  have hdoes : Does L env p (fun x t => x.1 = -1 ∧ Lacks env p u s ∧ Restored s t ∨
      x.1 = 0 ∧ ¬ Lacks env p u s ∧ ∃ fd0 fd1, Opened p s t fd0 fd1) u.sysPipe s := by
    unfold User.sysPipe
    cases hptr : u.argptr 0 8 with
    | none =>
      exact wp_pure (Or.inl ⟨rfl, Or.inl hptr, rfl, fun _ => ⟨rfl, rfl⟩, rfl⟩)
    | some a =>
      refine wp_seq (wp_seq (does_pipealloc hidle ?_ ?_))
      · intro t ht hwhy
        exact wp_pure (wp_pure (Or.inl ⟨rfl, Or.inr (by tauto), ht⟩))
      intro rf wf g t hmade hofile hpage
      have hg : L.Frame g := hframe g (by rw [hmade.page]; exact List.mem_cons_self)
      refine wp_seq (does_fdalloc (fun hfull => ?_) fun fd0 hlt0 hfree0 hlow0 => ?_)
      · refine does_closeBoth hidle hmade hg hofile fun v hv => wp_pure (Or.inl ⟨rfl, ?_, hv⟩)
        rw [hofile] at hfull
        exact Or.inr (Or.inr (Or.inr fun fd hfd _ _ h0 => absurd h0 (hfull fd hfd)))
      rw [hofile] at hfree0 hlow0
      have hupdate : (t.setOfile p fd0 (some rf)).ofile p =
          update (s.ofile p) fd0 (some rf) := by
        rw [Paged.ofile_setOfile_self, hofile]
      have hmade' := hmade.setOfile p fd0 (some rf)
      refine wp_seq (does_fdalloc (fun hfull => ?_) fun fd1 hlt1 hfree1 hlow1 => ?_)
      · -- Only one descriptor was free, and it is given back.
        rw [hupdate] at hfull
        refine wp_seq (does_setOfile (does_closeBoth hidle (hmade'.setOfile p fd0 none) hg ?_
          fun v hv => wp_pure (Or.inl ⟨rfl, ?_, hv⟩)))
        · funext q
          by_cases hq : q = p
          · rw [hq, Paged.ofile_setOfile_self, hupdate, update_idem, ← hfree0,
              update_eq_self]
          · rw [Paged.ofile_setOfile_of_ne _ hq, Paged.ofile_setOfile_of_ne _ hq, hofile]
        · have honly : ∀ fd < NOFILE, s.ofile p fd = none → fd = fd0 := by
            intro fd hfd hfree
            by_contra hne
            refine hfull fd hfd ?_
            rw [update_of_ne hne, hfree]
          exact Or.inr (Or.inr (Or.inr fun fd hfd j hj h0 h1 =>
            (honly fd hfd h0).trans (honly j hj h1).symm))
      · rw [hupdate] at hfree1 hlow1
        have hne : fd1 ≠ fd0 := by
          rintro rfl
          rw [update_self] at hfree1
          cases hfree1
        rw [update_of_ne hne] at hfree1
        have hlt : fd0 < fd1 := by
          by_contra hge
          exact hlow0 fd1 (by omega) hfree1
        refine wp_pure (wp_pure (Or.inr ⟨rfl, ?_, fd0, fd1, ⟨hlt, hlt1⟩, ⟨hfree0, hfree1⟩, ?_,
          ⟨rf, wf, g, hmade.ne, hmade.free0, hmade.free1, ?_, hmade.file0, hmade.file1, hmade.other,
            hmade.page, hmade.pipe⟩, ?_⟩))
        · rintro (hc | hc | hc | hc)
          · rw [hptr] at hc
            cases hc
          · exact hmade.ne (hc rf hmade.lt0 wf hmade.lt1 hmade.free0 hmade.free1)
          · exact hpage hc
          · exact hne (hc fd1 hlt1 fd0 hlt0 hfree1 hfree0)
        · intro fd hfd hfd0
          have := hlow1 fd hfd
          rwa [update_of_ne hfd0] at this
        · rw [Paged.ofile_setOfile_self, hupdate]
        · intro q hq
          rw [Paged.ofile_setOfile_of_ne _ hq, Paged.ofile_setOfile_of_ne _ hq, hofile]
  obtain ⟨⟨r, out⟩, t, hrun, hor⟩ := wp_run_exists hdoes
  exact ⟨r, out, t, hrun, hor⟩

end Call

/-- The kernel after boot, with one page on the free list. -/
def bootPaged : Paged where
  sys := ⟨bootCore fun _ => 0, fun _ => ⟨⟨0, 0, 0, 0⟩, []⟩, 0⟩
  mem := ⟨fun _ => Vm.junk, [0x1000], 0⟩
  pipe _ := ⟨0, 0, false, false⟩

/-- The first call gets the descriptors 0 and 1. -/
theorem pipe_atomic_boot : ∃ out t,
    (User.sysPipe ⟨fun _ => 0, 4096, 0⟩).run
      (pagedSem Vm.smallKernel ⟨fun _ => false, Vm.Pte.zero⟩ 0) bootPaged = .ok ((0, out), t) ∧
      Opened 0 bootPaged t 0 1 := by
  obtain ⟨r, out, t, hrun, ⟨-, hlacks, -⟩ | ⟨rfl, -, fd0, fd1, h⟩⟩ :=
    pipe_atomic Vm.smallKernel ⟨fun _ => false, Vm.Pte.zero⟩ 0 ⟨fun _ => 0, 4096, 0⟩ bootPaged
      (fun _ _ => rfl) (by decide)
  · rcases hlacks with hc | hc | hc | hc
    · exact absurd hc (by decide)
    · exact absurd (hc 0 (by decide) 1 (by decide) rfl rfl) (by decide)
    · exact absurd hc (by simp [Vm.Refused, bootPaged])
    · exact absurd (hc 0 (by decide) 1 (by decide) rfl rfl) (by decide)
  · have hlt := h.lt.1
    have h0 : fd0 = 0 := by
      by_contra hne
      exact h.lowest 0 (by omega) (Ne.symm hne) rfl
    have h1 : fd1 = 1 := by
      by_contra hne
      exact h.lowest 1 (by omega) (by omega) rfl
    subst h0 h1
    exact ⟨out, t, hrun, h⟩

end Qwin.Sys
