import Qwin.Shell.Grammar
import Qwin.Sys.Filewrite

/-!
# Output to a file that exists

The shell opens the file of a redirection, `fopen` opens that of a stream, and what is
then written goes to the start of the file: `sys_open` looks neither at `O_TRUNC` nor at
`O_APPEND`. The bytes of the file afterwards are those that were written and, behind
them, what is left of the old ones.
-/

namespace Qwin.Sys

open Prog Fs List

variable {p i f ip : ℕ} {d : List UInt8} {s t u : IState}

/-! ## Opening -/

theorem returns_fdalloc (hs : Holds i d s) :
    Returns p (fun r t => Holds i d t ∧
      ∀ fd, r = some fd → (t.core.pt.proc p).ofile fd = some f) (fdalloc f) s := by
  refine wp_seq (returns_core fun x c _ hx => ?_)
  cases hx
  split
  · exact wp_pure ⟨hs, fun _ h => nomatch h⟩
  next fd _ =>
    refine wp_seq (returns_core fun _ c hm hx => wp_pure ?_)
    refine ⟨hs.core (unassigned_exec hm rfl hx), ?_⟩
    cases hx
    rintro _ ⟨⟩
    dsimp only
    rw [Ptable.modify_proc_self]
    exact Function.update_self _ _ _

/-- The file behind a new descriptor is at offset 0. -/
def Fresh (p : ℕ) (fd : ℤ) (s : IState) : Prop :=
  0 ≤ fd → ∃ f, (s.core.pt.proc p).ofile fd.toNat = some f ∧ (s.core.file f).off = 0

theorem fresh_of_neg : Fresh p (-1) s := fun h => absurd h (by decide)

/-- `sys_open` leaves the file alone and gives it at offset 0. -/
theorem returns_openFile {omode : BitVec 32} (hs : Holds i d s) :
    Returns p (fun fd t => Holds i d t ∧ Fresh p fd t) (openFile ip omode) s := by
  refine wp_seq (wp_conseq (Leaves.core (a := .filealloc) rfl s hs) fun f s hs => ?_)
  cases f with
  | none =>
    refine wp_seq (wp_conseq (Leaves.iunlockput s hs) fun _ t ht => ?_)
    exact wp_pure ⟨ht, fresh_of_neg⟩
  | some f =>
    refine wp_seq (wp_conseq (returns_fdalloc hs) fun fd s ⟨hs, hofile⟩ => ?_)
    cases fd with
    | none =>
      refine wp_seq (wp_conseq (Leaves.fileclose s hs) fun _ t ht => ?_)
      refine wp_seq (wp_conseq (Leaves.iunlockput t ht) fun _ t ht => ?_)
      exact wp_pure ⟨ht, fresh_of_neg⟩
    | some fd =>
      refine wp_seq (returns_core fun _ c hm hx => ?_)
      have hs1 := hs.core (unassigned_exec hm rfl hx)
      have hpt : c.pt = s.core.pt := by
        dsimp only [Core.exec] at hx
        split at hx <;> cases hx
        rfl
      refine wp_seq (returns_core fun _ c hm hx => ?_)
      have hs2 := hs1.core (unassigned_exec hm rfl hx)
      cases hx
      refine wp_seq (returns_core fun x c hm hx => ?_)
      cases hx
      refine wp_seq (returns_core fun y c hm hx => ?_)
      cases hx
      have hfd : (c.pt.proc p).ofile fd = some f := by
        rw [hpt]
        exact hofile fd rfl
      refine wp_seq ?_
      split
      · refine returns_core fun _ c hm hx => ?_
        have hs3 := hs2.core (unassigned_exec hm rfl hx)
        cases hx
        refine wp_pure ⟨hs3, fun _ => ⟨f, hfd, ?_⟩⟩
        rw [Core.setFile_file_self, Core.setFile_file_self]
      · refine wp_pure (wp_pure ⟨hs2, fun _ => ⟨f, hfd, ?_⟩⟩)
        rw [Core.setFile_file_self]

theorem returns_sysOpen {path : Arg} {omode : BitVec 32} (hs : Holds i d s) :
    Returns p (fun fd t => Holds i d t ∧ Fresh p fd t) (sysOpen path omode) s := by
  cases path with
  | none => exact wp_pure ⟨hs, fresh_of_neg⟩
  | some path =>
    refine wp_seq (wp_conseq (Leaves.openMode s hs) fun omode s hs => ?_)
    refine wp_seq (wp_conseq (Leaves.openInode s hs) fun r s hs => ?_)
    cases r with
    | none => exact wp_pure ⟨hs, fresh_of_neg⟩
    | some ip => exact returns_openFile hs

/-! ## Writing -/

/-- The file has the bytes `d`, and `f` has moved to `off`. -/
def Progress (i f : ℕ) (s : IState) (d : List UInt8) (off : ℕ) (t : IState) : Prop :=
  Holds i d t ∧ Moved f off s t

/-- The bytes `src` were written from `s` to `t`, and `d` became `d'`. -/
def Wrote (i f : ℕ) (s : IState) (d src d' : List UInt8) (t : IState) : Prop :=
  ∃ off, Progress i f s d' off t ∧ d'.length ≤ MAXFILE * BSIZE ∧
    (Fits d.length (s.core.file f).off src.length →
      d' = splice d (s.core.file f).off src ∧ off = (s.core.file f).off + src.length)

namespace Wrote

variable {d' d'' src src' : List UInt8}

theorem nil (h : Holds i d s) (hd : d.length ≤ MAXFILE * BSIZE) : Wrote i f s d [] d s :=
  ⟨_, ⟨h, Moved.refl f s⟩, hd, fun _ => ⟨(splice_nil d _).symm, rfl⟩⟩

theorem append (h : Wrote i f s d src d' t) (h' : Wrote i f t d' src' d'' u) :
    Wrote i f s d (src ++ src') d'' u := by
  obtain ⟨m, hm, -, hfits⟩ := h
  obtain ⟨n, hn, hmax, hfits'⟩ := h'
  have hoff : (t.core.file f).off = m := by rw [hm.2.file]
  refine ⟨n, ⟨hn.1, hm.2.trans hn.2⟩, hmax, fun hf => ?_⟩
  obtain ⟨h1, h2⟩ := hf
  rw [length_append] at h2
  obtain ⟨rfl, rfl⟩ := hfits ⟨h1, by omega⟩
  have hlen : (splice d (s.core.file f).off src).length =
      max d.length ((s.core.file f).off + src.length) := length_splice h1
  rw [hoff] at hfits'
  obtain ⟨rfl, rfl⟩ := hfits' ⟨by omega, by omega⟩
  refine ⟨splice_splice h1, ?_⟩
  rw [length_append]
  omega

end Wrote

theorem wrote_filewriteLoop (src : List UInt8) (hs : Holds i d s) (hi : s.inum ip = i)
    (hd : d.length ≤ MAXFILE * BSIZE) :
    Returns p (fun _ t => ∃ d', Wrote i f s d src d' t) (filewriteLoop f ip src.length src) s := by
  refine wp_conseq (returns_filewriteLoop _ src le_rfl hs.stored hs.type hi) ?_
  rintro _ t ⟨k, hk, -⟩
  refine ⟨_, _, ⟨hs.of_stored hk.midway.1, hk.midway.2⟩, ?_, fun hfits => ?_⟩
  · rcases Nat.eq_zero_or_pos k with rfl | hpos
    · rw [take_zero, splice_nil]
      exact hd
    · have hfits := hk.fits hpos
      rw [length_splice hfits.1, length_take, min_eq_left hk.le]
      exact max_le hd hfits.2
  · have hall := hk.all.2 (Or.inr hfits)
    rw [hall, take_length]
    exact ⟨rfl, rfl⟩

/-- Descriptor `fd` of process `p` is the file `f`, open for writing to inode `i`. -/
structure Writer (p : ℕ) (fd : ℤ) (f i : ℕ) (s : IState) : Prop where
  range : 0 ≤ fd ∧ fd < NOFILE
  ofile : (s.core.pt.proc p).ofile fd.toNat = some f
  type : (s.core.file f).type = .inode
  writable : (s.core.file f).writable = true
  inum : s.inum (s.core.file f).ip = i

instance {fd : ℤ} : Decidable (Writer p fd f i s) :=
  decidable_of_iff (_ ∧ _ ∧ _ ∧ _ ∧ _)
    ⟨fun ⟨h1, h2, h3, h4, h5⟩ => ⟨h1, h2, h3, h4, h5⟩, fun h => ⟨h.1, h.2, h.3, h.4, h.5⟩⟩

theorem Writer.moved {fd : ℤ} {off : ℕ} (h : Writer p fd f i s) (hm : Moved f off s t) :
    Writer p fd f i t := by
  refine ⟨h.range, ?_, ?_, ?_, ?_⟩
  · rw [hm.pt]
    exact h.ofile
  · rw [hm.file]
    exact h.type
  · rw [hm.file]
    exact h.writable
  · rw [hm.file, hm.inum]
    exact h.inum

theorem returns_sysWrite {fd : ℤ} {src : List UInt8} (hw : Writer p fd f i s)
    (hs : Holds i d s) (hd : d.length ≤ MAXFILE * BSIZE) :
    Returns p (fun _ t => ∃ d', Wrote i f s d src d' t) (sysWrite fd src) s := by
  have hrange : ¬ (fd < 0 ∨ (NOFILE : ℤ) ≤ fd) := by
    obtain ⟨h1, h2⟩ := hw.range
    omega
  refine wp_seq (wp_seq (returns_core fun x c _ hx => ?_))
  cases hx
  rw [if_neg hrange, hw.ofile]
  refine wp_pure (wp_seq (returns_core fun y c _ hx => ?_))
  cases hx
  rw [if_neg (by rw [hw.writable]; decide), hw.type]
  refine wp_seq (wp_conseq (wrote_filewriteLoop src hs hw.inum hd) ?_)
  exact fun all t ht => wp_pure ht

/-! ## Streams and redirections -/

abbrev O_TRUNC : BitVec 32 := 0x200#32
abbrev O_APPEND : BitVec 32 := 0x400#32

/-- The flags that `fopen` makes of its mode. -/
def fmod (mod : List UInt8) : Option (BitVec 32) := do
  let flags ← match mod.headD 0 with
    -- `r`
    | 114 => some O_RDONLY
    -- `w`
    | 119 => some (O_WRONLY ||| O_CREAT ||| O_TRUNC)
    -- `a`
    | 97 => some (O_WRONLY ||| O_CREAT ||| O_APPEND)
    | _ => none
  match mod.tail.headD 0 with
  -- `+`
  | 43 => some (flags ||| O_RDWR)
  | 0 => some flags
  | _ => none

/-- `fopen`: the descriptor of the stream. A failed `open` is not noticed, and descriptor
0 is taken for a failure. -/
def fopen (file : Arg) (mod : List UInt8) : IProg (Option ℤ) :=
  match fmod mod with
  | none => pure none
  | some flags => do
      let fd ← sysOpen file flags
      if fd = 0 then pure none else pure (some fd)

/-- `fwrite` of `nmemb` members that are the bytes `ptr`. -/
def fwrite (ptr : List UInt8) (nmemb : ℕ) (fd : ℤ) : IProg ℕ := do
  let _ ← sysWrite fd ptr
  pure nmemb

def fclose (fd : ℤ) : IProg ℤ := do
  let _ ← sysClose fd
  pure 0

/-- `runcmd` at a redirection: the descriptor for the output of the command. -/
def redirect (k : Shell.RedirKind) (file : Arg) : IProg (Option ℤ) := do
  let _ ← sysClose k.fd
  let fd ← sysOpen file k.mode
  if fd < 0 then pure none else pure (some fd)

/-- The ways to write to a file: `> file`, `>> file`, and streams opened with the modes
`"w"` and `"a"`. -/
inductive Way
  | output | append | fopenW | fopenA

namespace Way

def opening : Way → Arg → IProg (Option ℤ)
  | output, file => redirect .output file
  | append, file => redirect .append file
  | fopenW, file => fopen file [119]
  | fopenA, file => fopen file [97]

def write : Way → ℤ → List UInt8 → IProg Unit
  | output, fd, src | append, fd, src => do
      let _ ← sysWrite fd src
      pure ()
  | fopenW, fd, src | fopenA, fd, src => do
      let _ ← fwrite src src.length fd
      pure ()

def writeAll (w : Way) (fd : ℤ) : List (List UInt8) → IProg Unit
  | [] => pure ()
  | src :: os => do
      w.write fd src
      w.writeAll fd os

def close : Way → ℤ → IProg ℤ
  | output, fd | append, fd => sysClose fd
  | fopenW, fd | fopenA, fd => fclose fd

/-- The output is to come after the bytes of the file, not in their place. -/
def appends : Way → Bool
  | output | fopenW => false
  | append | fopenA => true

/-- What is to be in the file when it had the bytes `c` and `o` was written. -/
def wanted (w : Way) (c o : List UInt8) : List UInt8 := if w.appends then c ++ o else o

/-- The output fits into a file, and the old bytes do not matter: it covers them, or, when
it is to come after them, one of the two is empty. -/
def Right (w : Way) (c o : List UInt8) : Prop :=
  o.length ≤ MAXFILE * BSIZE ∧ if w.appends then c = [] ∨ o = [] else c.length ≤ o.length

variable {w : Way} {c : List UInt8} {fd : ℤ}

theorem returns_opening {file : Arg} (hs : Holds i d s) :
    Returns p (fun r t => Holds i d t ∧ ∀ fd, r = some fd → Fresh p fd t) (w.opening file) s := by
  have hredirect : ∀ k, Returns p (fun r t => Holds i d t ∧ ∀ fd, r = some fd → Fresh p fd t)
      (redirect k file) s := by
    intro k
    refine wp_seq (wp_conseq (Leaves.sysClose s hs) fun _ s hs => ?_)
    refine wp_seq (wp_conseq (returns_sysOpen hs) fun fd t ⟨ht, hfresh⟩ => ?_)
    split
    · exact wp_pure ⟨ht, fun _ h => nomatch h⟩
    · refine wp_pure ⟨ht, ?_⟩
      rintro _ ⟨⟩
      exact hfresh
  have hfopen : ∀ mod, Returns p (fun r t => Holds i d t ∧ ∀ fd, r = some fd → Fresh p fd t)
      (fopen file mod) s := by
    intro mod
    unfold fopen
    split
    · exact wp_pure ⟨hs, fun _ h => nomatch h⟩
    · refine wp_seq (wp_conseq (returns_sysOpen hs) fun fd t ⟨ht, hfresh⟩ => ?_)
      split
      · exact wp_pure ⟨ht, fun _ h => nomatch h⟩
      · refine wp_pure ⟨ht, ?_⟩
        rintro _ ⟨⟩
        exact hfresh
  cases w with
  | output => exact hredirect _
  | append => exact hredirect _
  | fopenW => exact hfopen [119]
  | fopenA => exact hfopen [97]

theorem returns_write {src : List UInt8} (hw : Writer p fd f i s) (hs : Holds i d s)
    (hd : d.length ≤ MAXFILE * BSIZE) :
    Returns p (fun _ t => ∃ d', Wrote i f s d src d' t) (w.write fd src) s := by
  have hcall : Returns p (fun _ t => ∃ d', Wrote i f s d src d' t)
      (do let _ ← sysWrite fd src; pure ()) s :=
    wp_seq (wp_conseq (returns_sysWrite hw hs hd) fun _ t ht => wp_pure ht)
  have hstream : Returns p (fun _ t => ∃ d', Wrote i f s d src d' t)
      (do let _ ← fwrite src src.length fd; pure ()) s :=
    wp_seq (wp_seq (wp_conseq (returns_sysWrite hw hs hd) fun _ t ht =>
      wp_pure (wp_pure ht)))
  cases w with
  | output => exact hcall
  | append => exact hcall
  | fopenW => exact hstream
  | fopenA => exact hstream

theorem returns_writeAll (os : List (List UInt8)) (hw : Writer p fd f i s) (hs : Holds i d s)
    (hd : d.length ≤ MAXFILE * BSIZE) :
    Returns p (fun _ t => ∃ d', Wrote i f s d os.flatten d' t) (w.writeAll fd os) s := by
  induction os generalizing s d with
  | nil => exact wp_pure ⟨d, .nil hs hd⟩
  | cons src os ih =>
    refine wp_seq (wp_conseq (returns_write hw hs hd) ?_)
    rintro _ t ⟨d', h⟩
    have ⟨off, hprogress, hd', _⟩ := h
    refine wp_conseq (ih (hw.moved hprogress.2) hprogress.1 hd') ?_
    rintro _ u ⟨d'', h'⟩
    exact ⟨d'', h.append h'⟩

theorem leaves_close : Leaves p i d (w.close fd) := by
  cases w with
  | output => exact .sysClose
  | append => exact .sysClose
  | fopenW => exact .bind .sysClose fun _ => .pure
  | fopenA => exact .bind .sysClose fun _ => .pure

/-- The bytes from the start of the file on are right only when the old ones do not
matter. -/
theorem splice_eq_wanted_iff {c o : List UInt8} (ho : o.length ≤ MAXFILE * BSIZE) :
    splice c 0 o = w.wanted c o ↔ w.Right c o := by
  rw [splice, take_zero, nil_append, Nat.zero_add, wanted, Right]
  split
  · constructor
    · intro h
      have hlen := congrArg List.length h
      rw [length_append, length_append, length_drop] at hlen
      refine ⟨ho, ?_⟩
      rw [← length_eq_zero_iff, ← length_eq_zero_iff]
      omega
    · rintro ⟨-, rfl | rfl⟩
      · simp
      · simp
  · rw [append_right_eq_self, drop_eq_nil_iff]
    exact ⟨fun h => ⟨ho, h⟩, fun h => h.2⟩

end Way

/-- The root directory with an entry `f` for a file of three bytes. Descriptors 0, 1 and 2
are in use. -/
def oneFile : IState where
  core := { bootCore (fun _ => 0) with
    file := fun f => if f = 0 then ⟨.inode, 3, true, true, 0, 0, 0⟩
      else ⟨.none, 0, false, false, 0, 0, 0⟩
    pt := (bootCore fun _ => 0).pt.modify 0 fun x =>
      { x with ofile := fun fd => if fd < 3 then some 0 else none } }
  node i :=
    if i = ROOTINO then ⟨⟨T_DIR, 0, 0, 1⟩, Dirent.bytes 1 dot ++ Dirent.bytes 1 dotdot ++
      Dirent.bytes 2 [102]⟩
    else if i = 2 then ⟨⟨T_FILE, 0, 0, 1⟩, [1, 2, 3]⟩
    else ⟨⟨0, 0, 0, 0⟩, []⟩
  ninodes := 200

theorem holds_oneFile : Holds 2 [1, 2, 3] oneFile := by
  refine ⟨rfl, by decide, rfl, ?_⟩
  intro q _ hv
  dsimp only [oneFile, bootCore] at hv
  split at hv <;> cases hv

/-- Write the pieces `os` to the file in this way, and test what it contains then. -/
def leavesBehind (w : Way) (os : List (List UInt8)) (bytes : List UInt8) : Bool :=
  (w.opening (some [102])).passes (inodeSem 0) oneFile fun r t =>
    match r with
    | none => false
    | some fd => decide (Writer 0 fd 1 2 t) &&
        (w.writeAll fd os >>= fun _ => w.close fd).passes (inodeSem 0) t fun _ u =>
          (u.node 2).data == bytes

theorem exists_of_leavesBehind {w : Way} {os : List (List UInt8)} {bytes : List UInt8}
    (h : leavesBehind w os bytes = true) : ∃ fd r t u,
      (w.opening (some [102])).run (inodeSem 0) oneFile = .ok (some fd, t) ∧
      Writer 0 fd 1 2 t ∧
      (w.writeAll fd os >>= fun _ => w.close fd).run (inodeSem 0) t = .ok (r, u) ∧
      (u.node 2).data = bytes := by
  obtain ⟨o, t, hopen, ht⟩ := exists_of_passes h
  cases o with
  | none => cases ht
  | some fd =>
    dsimp only at ht
    rw [Bool.and_eq_true] at ht
    obtain ⟨r, u, hrun, hu⟩ := exists_of_passes ht.2
    exact ⟨fd, r, t, u, hopen, of_decide_eq_true ht.1, hrun, eq_of_beq hu⟩

/-- One byte over three bytes leaves two of them, in each of the ways. -/
theorem exists_old_bytes (w : Way) : ∃ fd r t u,
    Holds 2 [1, 2, 3] oneFile ∧
    (w.opening (some [102])).run (inodeSem 0) oneFile = .ok (some fd, t) ∧
    Writer 0 fd 1 2 t ∧
    (w.writeAll fd [[9]] >>= fun _ => w.close fd).run (inodeSem 0) t = .ok (r, u) ∧
    (u.node 2).data = [9, 2, 3] ∧ (u.node 2).data ≠ w.wanted [1, 2, 3] [9] := by
  have h : leavesBehind w [[9]] [9, 2, 3] = true := by
    cases w <;> decide +kernel
  obtain ⟨fd, r, t, u, hopen, hw, hrun, hu⟩ := exists_of_leavesBehind h
  refine ⟨fd, r, t, u, holds_oneFile, hopen, hw, hrun, hu, ?_⟩
  rw [hu]
  cases w <;> decide

end Qwin.Sys
