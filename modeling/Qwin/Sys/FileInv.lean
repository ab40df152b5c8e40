import Qwin.Sys.FileProtocol

/-!
# Reference counts of the file table

The invariant that ties what the processes have in hand to the kernel tables: every file
has as many references as descriptors and processes in a call hold, an end of a pipe is
open as long as one file or one process in a call stands for it, and the page of a pipe
whose ends are both closed is free or in the hands of the process that frees it.
-/

namespace Qwin.Sys

open Prog Fs
open Function (update update_of_ne update_self)

def held (c : Core) (tok : ℕ → FileToken) (p f : ℕ) : ℤ :=
  tally (c.pt.proc p).ofile NOFILE f + (tok p).files f

def endOf (x : File) : Option (ℕ × Bool) :=
  if x.type = .pipe then some (x.pipe, x.writable) else none

def isOpen (x : PipeEnds) : Bool → Bool
  | true => x.writeopen
  | false => x.readopen

def openEnds (c : Core) (x : ℕ × Bool) : ℤ :=
  if x.1 < c.npipe ∧ isOpen (c.pipe x.1) x.2 = true then 1 else 0

/-- The pipes that are closed on both ends and not yet free. -/
def unfreed (c : Core) (i : ℕ) : ℤ :=
  (if i < c.npipe ∧ (c.pipe i).closed = true then 1 else 0) - (c.pipe i).frees

/-- The processes and what is known of their slots. -/
structure Lives (c : Core) (tok : ℕ → FileToken) : Prop where
  view : ∀ p, (tok p).alive = true →
    (c.pt.proc p).state.Live ∧ (c.pt.proc p).ofile = (tok p).ofile
  lt : ∀ p, (c.pt.proc p).state.Live → p < NPROC
  empty : ∀ p, ¬ (c.pt.proc p).state.Live → ∀ fd, (c.pt.proc p).ofile fd = none
  dead : ∀ p, (tok p).alive = false → (tok p).Rest
  child : ∀ p np, (tok p).child = some np → np < NPROC ∧ (c.pt.proc np).state = .embryo
  unique : ∀ p q np, (tok p).child = some np → (tok q).child = some np → p = q

structure Filed (c : Core) (tok : ℕ → FileToken) : Prop where
  refs : Counts (Finset.range NPROC) (fun f => (c.file f).ref) (held c tok)
  type : ∀ f, (c.file f).ref = 0 → (c.file f).type = .none
  lt : ∀ f, (c.file f).ref ≠ 0 → f < NFILE
  fresh : ∀ p f, f ∈ (tok p).fresh →
    (c.file f).type = .none ∧ (c.file f).ref = 1 ∧ held c tok p f = 1 ∧ p < NPROC
  opened : ∀ p f, (tok p).opened = some f →
    (c.file f).type = .inode ∧ 1 ≤ held c tok p f ∧ p < NPROC

structure Piped (c : Core) (tok : ℕ → FileToken) : Prop where
  ends : Counts ((Finset.range NFILE).disjSum (Finset.range NPROC)) (openEnds c)
    (Sum.elim (fun f => one (endOf (c.file f))) fun p => (tok p).ends)
  pages : Counts (Finset.range NPROC) (unfreed c) fun p => (tok p).pages

structure FileInv (c : Core) (tok : ℕ → FileToken) : Prop where
  lives : Lives c tok
  filed : Filed c tok
  piped : Piped c tok

variable {c c' : Core} {tok : ℕ → FileToken} {p f : ℕ} {t : FileToken}

/-! ## Steps that do not concern one part -/

theorem held_update_self :
    held c (update tok p t) p = tally (c.pt.proc p).ofile NOFILE + t.files := by
  funext f
  simp [held]

theorem held_update_of_ne {q : ℕ} (h : q ≠ p) : held c (update tok p t) q = held c tok q := by
  funext f
  simp [held, update_of_ne h]

theorem held_update_of_files (h : t.files = (tok p).files) :
    held c (update tok p t) = held c tok := by
  funext q
  by_cases hq : q = p
  · subst hq
    rw [held_update_self, h]
    rfl
  · exact held_update_of_ne hq

/-- A field that the new token of a process leaves as it was. -/
theorem field_update {β : Type} (g : FileToken → β) (h : g t = g (tok p)) (q : ℕ) :
    g (update tok p t q) = g (tok q) := by
  by_cases hq : q = p
  · rw [hq, update_self, h]
  · rw [update_of_ne hq]

theorem held_congr (h : ∀ q, (c'.pt.proc q).ofile = (c.pt.proc q).ofile) :
    held c' tok = held c tok := by
  funext q f
  rw [held, h q, held]

namespace Lives

variable (h : Lives c tok)
include h

theorem mem (ha : (tok p).alive = true) : p ∈ Finset.range NPROC :=
  Finset.mem_range.2 (h.lt p (h.view p ha).1)

theorem held_eq (ha : (tok p).alive = true) : held c tok p = (tok p).share := by
  funext f
  rw [held, (h.view p ha).2]
  rfl

theorem congr (hstate : ∀ q, (c'.pt.proc q).state = (c.pt.proc q).state)
    (hofile : ∀ q, (c'.pt.proc q).ofile = (c.pt.proc q).ofile) : Lives c' tok := by
  constructor
  · intro q hq
    rw [hstate, hofile]
    exact h.view q hq
  · intro q hq
    rw [hstate] at hq
    exact h.lt q hq
  · intro q hq
    rw [hstate] at hq
    rw [hofile]
    exact h.empty q hq
  · exact h.dead
  · intro q np hnp
    rw [hstate]
    exact h.child q np hnp
  · exact h.unique

theorem dead_update (ht : t.alive = true) (q : ℕ)
    (hq : (update tok p t q).alive = false) : (update tok p t q).Rest := by
  by_cases hqp : q = p
  · subst hqp
    rw [update_self, ht] at hq
    cases hq
  · rw [update_of_ne hqp] at hq ⊢
    exact h.dead q hq

theorem setToken (ha : t.alive = true) (hp : (tok p).alive = true)
    (hofile : t.ofile = (tok p).ofile) (hchild : t.child = (tok p).child) :
    Lives c (update tok p t) := by
  have hch := field_update FileToken.child hchild
  constructor
  · intro q hq
    rw [field_update FileToken.alive (ha.trans hp.symm)] at hq
    rw [field_update FileToken.ofile hofile]
    exact h.view q hq
  · exact h.lt
  · exact h.empty
  · exact h.dead_update ha
  · intro q np hnp
    rw [hch] at hnp
    exact h.child q np hnp
  · intro q r np hq hr
    rw [hch] at hq hr
    exact h.unique q r np hq hr

end Lives

namespace Filed

variable (h : Filed c tok)
include h

theorem congr (hfile : ∀ g, (c'.file g).ref = (c.file g).ref ∧ (c'.file g).type = (c.file g).type)
    (hofile : ∀ q, (c'.pt.proc q).ofile = (c.pt.proc q).ofile) : Filed c' tok := by
  have hheld : held c' tok = held c tok := held_congr hofile
  have href : (fun g => (c'.file g).ref) = fun g => (c.file g).ref := funext fun g => (hfile g).1
  constructor
  · rw [href, hheld]
    exact h.refs
  · intro g hg
    rw [(hfile g).1] at hg
    rw [(hfile g).2]
    exact h.type g hg
  · intro g hg
    rw [(hfile g).1] at hg
    exact h.lt g hg
  · intro q g hg
    rw [(hfile g).1, (hfile g).2, hheld]
    exact h.fresh q g hg
  · intro q g hg
    rw [(hfile g).2, hheld]
    exact h.opened q g hg

/-- The descriptors and the references in hand change, but not their sum. -/
theorem congr_held (hfile : c'.file = c.file) (hheld : held c' (update tok p t) = held c tok)
    (hfresh : t.fresh = (tok p).fresh) (hopened : t.opened = (tok p).opened) :
    Filed c' (update tok p t) := by
  constructor
  · rw [hfile, hheld]
    exact h.refs
  · rw [hfile]
    exact h.type
  · rw [hfile]
    exact h.lt
  · intro q g hg
    rw [hfile, hheld]
    rw [field_update FileToken.fresh hfresh] at hg
    exact h.fresh q g hg
  · intro q g hg
    rw [hfile, hheld]
    rw [field_update FileToken.opened hopened] at hg
    exact h.opened q g hg

theorem setToken (hfiles : t.files = (tok p).files)
    (hfresh : t.fresh = (tok p).fresh) (hopened : t.opened = (tok p).opened) :
    Filed c (update tok p t) :=
  h.congr_held rfl (held_update_of_files hfiles) hfresh hopened

end Filed

namespace Piped

theorem congr (h : Piped c tok) (hfile : ∀ g, endOf (c'.file g) = endOf (c.file g))
    (hpipe : c'.pipe = c.pipe) (hnpipe : c'.npipe = c.npipe) : Piped c' tok := by
  constructor
  · have hends : openEnds c' = openEnds c := by
      funext x
      rw [openEnds, hpipe, hnpipe, openEnds]
    have hfiles : (fun g => one (endOf (c'.file g))) = fun g => one (endOf (c.file g)) :=
      funext fun g => by rw [hfile g]
    rw [hends, hfiles]
    exact h.ends
  · have hfree : unfreed c' = unfreed c := by
      funext i
      rw [unfreed, hpipe, hnpipe, unfreed]
    rw [hfree]
    exact h.pages

theorem setToken (h : Piped c tok) (hends : t.ends = (tok p).ends)
    (hpages : t.pages = (tok p).pages) : Piped c (update tok p t) := by
  have h1 : (fun q => (update tok p t q).ends) = fun q => (tok q).ends :=
    funext (field_update FileToken.ends hends)
  have h2 : (fun q => (update tok p t q).pages) = fun q => (tok q).pages :=
    funext (field_update FileToken.pages hpages)
  constructor
  · rw [h1]
    exact h.ends
  · rw [h2]
    exact h.pages

end Piped

/-! ## Files -/

namespace Filed

section

variable (h : Filed c tok)
include h

/-- The counters after a process has changed its references to one file. -/
theorem counts_add (hp : p ∈ Finset.range NPROC) {x : File} (δ : ℤ)
    (hx : x.ref = (c.file f).ref + δ) (ht : t.files = (tok p).files + Pi.single f δ)
    (hpos : 0 ≤ held c tok p f + δ) :
    Counts (Finset.range NPROC) (fun g => ((c.setFile f x).file g).ref)
      (held (c.setFile f x) (update tok p t)) := by
  have hself : ∀ g, held (c.setFile f x) (update tok p t) p g =
      held c tok p g + (Pi.single f δ : ℕ → ℤ) g := by
    intro g
    rw [held_update_self, ht]
    simp only [Pi.add_apply, held]
    exact (add_assoc _ _ _).symm
  refine h.refs.adjust hp (fun q _ hq => held_update_of_ne hq) (fun g => ?_) fun g => ?_
  · rw [hself]
    by_cases hg : g = f
    · subst hg
      rw [Core.setFile_file_self, Pi.single_eq_same]
      omega
    · rw [Core.setFile_file_of_ne hg, Pi.single_eq_of_ne hg]
      omega
  · rw [hself]
    by_cases hg : g = f
    · subst hg
      rw [Pi.single_eq_same]
      exact hpos
    · rw [Pi.single_eq_of_ne hg, add_zero]
      exact h.refs.nonneg p hp g

/-- A file that was just allocated is held by nobody else. -/
theorem eq_of_fresh {q : ℕ} (hq : f ∈ (tok q).fresh)
    (hp : p ∈ Finset.range NPROC) (hheld : 1 ≤ held c tok p f) : p = q := by
  by_contra hne
  obtain ⟨-, href, hone, hlt⟩ := h.fresh q f hq
  have hzero := h.refs.eq_zero_of_le (Finset.mem_range.2 hlt) hp hne (k := f) (by rw [href, hone])
  omega

/-- A step of process `p` that changes one file and the references to it. -/
theorem change {x : File}
    (hrefs : Counts (Finset.range NPROC) (fun g => ((c.setFile f x).file g).ref)
      (held (c.setFile f x) (update tok p t))) (hfiles : ∀ g, g ≠ f → t.files g = (tok p).files g)
    (htype : x.ref = 0 → x.type = .none) (hlt : x.ref ≠ 0 → f < NFILE)
    (hfresh : ∀ g, g ≠ f → g ∈ t.fresh → g ∈ (tok p).fresh)
    (hfreshf : ∀ q, f ∈ (update tok p t q).fresh →
      x.type = .none ∧ x.ref = 1 ∧ held c (update tok p t) q f = 1 ∧ q < NPROC)
    (hopened : ∀ g, g ≠ f → t.opened = some g → (tok p).opened = some g)
    (hopenedf : ∀ q, (update tok p t q).opened = some f →
      x.type = .inode ∧ 1 ≤ held c (update tok p t) q f ∧ q < NPROC) :
    Filed (c.setFile f x) (update tok p t) := by
  have hheld : ∀ q g, g ≠ f → held c (update tok p t) q g = held c tok q g := by
    intro q g hg
    by_cases hq : q = p
    · subst hq
      rw [held_update_self, Pi.add_apply, hfiles g hg]
      rfl
    · rw [held_update_of_ne hq]
  constructor
  · exact hrefs
  · intro g hg
    by_cases hgf : g = f
    · subst hgf
      rw [Core.setFile_file_self] at hg ⊢
      exact htype hg
    · rw [Core.setFile_file_of_ne hgf] at hg ⊢
      exact h.type g hg
  · intro g hg
    by_cases hgf : g = f
    · subst hgf
      rw [Core.setFile_file_self] at hg
      exact hlt hg
    · rw [Core.setFile_file_of_ne hgf] at hg
      exact h.lt g hg
  · intro q g hg
    by_cases hgf : g = f
    · subst hgf
      rw [Core.setFile_file_self]
      exact hfreshf q hg
    · rw [Core.setFile_file_of_ne hgf]
      have hold : g ∈ (tok q).fresh := by
        by_cases hq : q = p
        · subst hq
          rw [update_self] at hg
          exact hfresh g hgf hg
        · rw [update_of_ne hq] at hg
          exact hg
      obtain ⟨h1, h2, h3, h4⟩ := h.fresh q g hold
      exact ⟨h1, h2, (hheld q g hgf).trans h3, h4⟩
  · intro q g hg
    by_cases hgf : g = f
    · subst hgf
      rw [Core.setFile_file_self]
      exact hopenedf q hg
    · rw [Core.setFile_file_of_ne hgf]
      have hold : (tok q).opened = some g := by
        by_cases hq : q = p
        · subst hq
          rw [update_self] at hg
          exact hopened g hgf hg
        · rw [update_of_ne hq] at hg
          exact hg
      obtain ⟨h1, h2, h3⟩ := h.opened q g hold
      refine ⟨h1, ?_, h3⟩
      rw [show held (c.setFile f x) (update tok p t) q g = held c tok q g from
        hheld q g hgf]
      exact h2

theorem filealloc (hp : p ∈ Finset.range NPROC) (hf : c.freeFile = some f) :
    f ∉ (tok p).fresh ∧ Filed (c.setFile f { c.file f with ref := 1 })
        (update tok p ((tok p).alloc f)) := by
  have hlt : f < NFILE := List.mem_range.1 (List.mem_of_find?_eq_some hf)
  have hzero : (c.file f).ref = 0 := by simpa using List.find?_some hf
  have hnone : ∀ q, f ∉ (tok q).fresh := by
    intro q hq
    have hone := (h.fresh q f hq).2.1
    omega
  have hclosed : ∀ q, (tok q).opened ≠ some f := by
    intro q hq
    obtain ⟨-, hheld, hqlt⟩ := h.opened q f hq
    have hle := h.refs.hold_le (Finset.mem_range.2 hqlt) f
    omega
  have hheld : held c tok p f = 0 := h.refs.hold_eq_zero hp hzero
  refine ⟨hnone p, h.change (h.counts_add hp 1 ?_ rfl ?_) ?_ ?_ ?_ ?_ ?_ ?_ ?_⟩
  · rw [hzero]
    rfl
  · rw [hheld]
    decide
  · intro g hg
    simp [FileToken.alloc, hg]
  · intro h1
    cases h1
  · exact fun _ => hlt
  · intro g hg hmem
    exact (Finset.mem_insert.1 hmem).resolve_left hg
  · intro q hq
    by_cases hqp : q = p
    · subst hqp
      refine ⟨h.type f hzero, rfl, ?_, Finset.mem_range.1 hp⟩
      rw [held_update_self]
      have : tally (c.pt.proc q).ofile NOFILE f + (tok q).files f = 0 := hheld
      simp [FileToken.alloc]
      omega
    · rw [update_of_ne hqp] at hq
      exact absurd hq (hnone q)
  · exact fun g _ hg => hg
  · intro q hq
    refine absurd ?_ (hclosed q)
    by_cases hqp : q = p
    · subst hqp
      rw [update_self] at hq
      exact hq
    · rw [update_of_ne hqp] at hq
      exact hq

end

section

variable (h : Filed c tok) (hp : p ∈ Finset.range NPROC) (hheld : 1 ≤ held c tok p f)
include h hp hheld

/-- After a step of `p` by which the file is no longer new, nobody has it as new. -/
theorem not_fresh (ht : f ∉ t.fresh) (q : ℕ) : f ∉ (update tok p t q).fresh := by
  by_cases hqp : q = p
  · subst hqp
    rw [update_self]
    exact ht
  · rw [update_of_ne hqp]
    exact fun hq => hqp (h.eq_of_fresh hq hp hheld).symm

theorem filedup : Filed (c.setFile f { c.file f with ref := (c.file f).ref + 1 })
      (update tok p ((tok p).dup f)) := by
  have hle := h.refs.hold_le hp f
  refine h.change (h.counts_add hp 1 rfl rfl (by omega)) ?_ ?_ ?_ ?_ ?_ ?_ ?_
  · intro g hg
    simp [FileToken.dup, hg]
  · intro h0
    dsimp only at h0
    omega
  · intro _
    exact h.lt f (by omega)
  · exact fun g _ hg => Finset.mem_of_mem_erase hg
  · intro q hq
    exact absurd hq (h.not_fresh hp hheld (Finset.notMem_erase f _) q)
  · exact fun g _ hg => hg
  · intro q hq
    by_cases hqp : q = p
    · subst hqp
      rw [update_self] at hq
      obtain ⟨h1, h2, h3⟩ := h.opened q f hq
      refine ⟨h1, ?_, h3⟩
      have h2 : 1 ≤ tally (c.pt.proc q).ofile NOFILE f + (tok q).files f := h2
      rw [held_update_self]
      simp [FileToken.dup]
      omega
    · rw [held_update_of_ne hqp]
      rw [update_of_ne hqp] at hq
      exact h.opened q f hq

/-- A file is dropped: by `hother`, if nothing is left of it, no other process has it. -/
theorem fileDrop {x : File} (hx : x.ref = (c.file f).ref - 1)
    (htype : x.type = if (c.file f).ref = 1 then .none else (c.file f).type)
    (hfiles : t.files = (tok p).files - Pi.single f 1) (hfresh : t.fresh = (tok p).fresh.erase f)
    (hopened : t.opened = if (tok p).opened = some f then none else (tok p).opened) :
    Filed (c.setFile f x) (update tok p t) := by
  have hle := h.refs.hold_le hp f
  refine h.change (h.counts_add hp (-1) (by rw [hx]; rfl) ?_ (by omega)) ?_ ?_ ?_ ?_ ?_ ?_ ?_
  · rw [hfiles, Pi.single_neg, sub_eq_add_neg]
  · intro g hg
    rw [hfiles]
    simp [hg]
  · intro h0
    rw [htype, if_pos (by omega)]
  · exact fun _ => h.lt f (by omega)
  · intro g _ hg
    rw [hfresh] at hg
    exact Finset.mem_of_mem_erase hg
  · intro q hq
    refine absurd hq (h.not_fresh hp hheld ?_ q)
    rw [hfresh]
    exact Finset.notMem_erase f _
  · intro g _ hg
    rw [hopened] at hg
    split at hg
    · cases hg
    · exact hg
  · intro q hq
    by_cases hqp : q = p
    · subst hqp
      rw [update_self, hopened] at hq
      split at hq
      · cases hq
      next hne => exact absurd hq hne
    · rw [update_of_ne hqp] at hq
      obtain ⟨h1, h2, h3⟩ := h.opened q f hq
      have hadd := h.refs.hold_add_le hp (Finset.mem_range.2 h3) (Ne.symm hqp) f
      rw [held_update_of_ne hqp, htype, if_neg (by omega)]
      exact ⟨h1, h2, h3⟩

end

theorem fill (h : Filed c tok) (hf : f ∈ (tok p).fresh) {x : File}
    (hx : x.ref = (c.file f).ref) (hfiles : t.files = (tok p).files)
    (hfresh : t.fresh = (tok p).fresh.erase f)
    (hopened : t.opened = (tok p).opened ∨ t.opened = some f ∧ x.type = .inode) :
    Filed (c.setFile f x) (update tok p t) := by
  obtain ⟨hnone, href, hheld, hlt⟩ := h.fresh p f hf
  have hp := Finset.mem_range.2 hlt
  have hclosed : ∀ q, (tok q).opened ≠ some f := by
    intro q hq
    have hinode := (h.opened q f hq).1
    rw [hnone] at hinode
    cases hinode
  refine h.change (h.counts_add hp 0 (by rw [hx, add_zero]) ?_ (by omega)) ?_ ?_ ?_ ?_ ?_ ?_ ?_
  · rw [hfiles, Pi.single_zero, add_zero]
  · intro g _
    rw [hfiles]
  · intro h0
    omega
  · exact fun _ => h.lt f (by omega)
  · intro g _ hg
    rw [hfresh] at hg
    exact Finset.mem_of_mem_erase hg
  · intro q hq
    refine absurd hq (h.not_fresh hp (by omega) ?_ q)
    rw [hfresh]
    exact Finset.notMem_erase f _
  · intro g hg hg'
    rcases hopened with ho | ⟨ho, -⟩
    · rw [← ho]
      exact hg'
    · rw [ho] at hg'
      exact absurd (Option.some.inj hg').symm hg
  · intro q hq
    by_cases hqp : q = p
    · subst hqp
      rw [update_self] at hq
      rcases hopened with ho | ⟨-, ho⟩
      · rw [ho] at hq
        exact absurd hq (hclosed q)
      · refine ⟨ho, ?_, hlt⟩
        rw [held_update_of_files hfiles]
        omega
    · rw [update_of_ne hqp] at hq
      exact absurd hq (hclosed q)

end Filed

/-! ## Pipes -/

theorem openEnds_mono {i : ℕ} {w : Bool} (h : 1 ≤ openEnds c (i, w)) :
    i < c.npipe ∧ isOpen (c.pipe i) w = true := by
  rw [openEnds] at h
  split at h
  next hopen => exact hopen
  · omega

namespace Piped

theorem mem_inr (hp : p ∈ Finset.range NPROC) :
    Sum.inr p ∈ (Finset.range NFILE).disjSum (Finset.range NPROC) :=
  Finset.inr_mem_disjSum.2 hp

theorem sub_single_nonneg {κ : Type} [DecidableEq κ] {g : κ → ℤ} (hg : ∀ k, 0 ≤ g k) {j : κ}
    (hj : 1 ≤ g j) (k : κ) : 0 ≤ (g - Pi.single j 1 : κ → ℤ) k := by
  by_cases hk : k = j
  · subst hk
    simpa using hj
  · simpa [hk] using hg k

theorem isOpen_close (x : PipeEnds) (w w' : Bool) :
    isOpen (x.close w) w' = if w' = w then false else isOpen x w' := by
  cases w <;> cases w' <;> rfl

theorem not_closed_of_isOpen {x : PipeEnds} {w : Bool} (h : isOpen x w = true) :
    x.closed = false := by
  cases w <;> simp_all [isOpen, PipeEnds.closed]

variable (h : Piped c tok) (hp : p ∈ Finset.range NPROC)
include h hp

/-- A file changes, and what it stood for passes to the process, or from it. -/
theorem move (hf : f < NFILE) {x : File}
    (hsum : one (endOf x) + t.ends = one (endOf (c.file f)) + (tok p).ends)
    (hpos : ∀ k, 0 ≤ t.ends k) (hpages : t.pages = (tok p).pages) :
    Piped (c.setFile f x) (update tok p t) := by
  constructor
  · refine h.ends.pass (p := Sum.inl f) (q := Sum.inr p)
      (Finset.inl_mem_disjSum.2 (Finset.mem_range.2 hf)) (mem_inr hp) nofun ?_ ?_ ?_ ?_
    · rintro (g | q) - hg hq
      · have hgf : g ≠ f := fun h => hg (h ▸ rfl)
        simp [Core.setFile_file_of_ne hgf]
      · have hqp : q ≠ p := fun h => hq (h ▸ rfl)
        simp [update_of_ne hqp]
    · intro k
      simpa using congrFun hsum k
    · intro k
      rw [Sum.elim_inl, one_apply]
      split <;> decide
    · intro k
      simpa using hpos k
  · have hsame : Piped c (update tok p { tok p with pages := t.pages }) :=
      h.setToken rfl hpages
    have hpg : (fun q => (update tok p t q).pages) =
        fun q => (update tok p { tok p with pages := t.pages } q).pages := by
      funext q
      by_cases hq : q = p
      · rw [hq, update_self, update_self]
      · rw [update_of_ne hq, update_of_ne hq]
    rw [hpg]
    exact hsame.pages

/-- A pipe changes, and what the process has in hand of its ends and pages. -/
theorem adjust (hfile : c'.file = c.file)
    (hends : ∀ k, openEnds c' k - openEnds c k = t.ends k - (tok p).ends k)
    (hpos : ∀ k, 0 ≤ t.ends k)
    (hfree : ∀ i, unfreed c' i - unfreed c i = t.pages i - (tok p).pages i)
    (hpos' : ∀ i, 0 ≤ t.pages i) : Piped c' (update tok p t) := by
  constructor
  · refine h.ends.adjust (p := Sum.inr p) (mem_inr hp) ?_ ?_ ?_
    · rintro (g | q) - hq
      · rw [hfile]
        rfl
      · have hqp : q ≠ p := fun h => hq (h ▸ rfl)
        simp [update_of_ne hqp]
    · intro k
      simpa using hends k
    · intro k
      simpa using hpos k
  · refine h.pages.adjust hp (fun q _ hq => by rw [update_of_ne hq]) ?_ ?_
    · intro i
      rw [update_self]
      exact hfree i
    · intro i
      rw [update_self]
      exact hpos' i

theorem ends_nonneg (k : ℕ × Bool) : 0 ≤ (tok p).ends k := by
  simpa using h.ends.nonneg (Sum.inr p) (mem_inr hp) k

theorem ends_le (k : ℕ × Bool) : (tok p).ends k ≤ openEnds c k := by
  simpa using h.ends.hold_le (mem_inr hp) k

theorem pipeKalloc {tick : ℕ} :
    Piped { c with
        pipe := update c.pipe c.npipe ⟨true, true, 0⟩
        npipe := c.npipe + 1
        tick := tick }
      (update tok p { tok p with
        ends := (tok p).ends + Pi.single (c.npipe, false) 1 + Pi.single (c.npipe, true) 1 }) := by
  have hfrees : (c.pipe c.npipe).frees = 0 := by
    have hle : 0 ≤ unfreed c c.npipe := by
      rw [h.pages.total]
      exact Finset.sum_nonneg fun q hq => h.pages.nonneg q hq _
    rw [unfreed, if_neg (fun hc => Nat.lt_irrefl _ hc.1)] at hle
    omega
  refine h.adjust hp rfl ?_ ?_ ?_ fun i => h.pages.nonneg p hp i
  · rintro ⟨i, w⟩
    by_cases hi : i = c.npipe
    · subst hi
      cases w <;> simp [openEnds, isOpen]
    · have hlt : i < c.npipe + 1 ↔ i < c.npipe := by omega
      simp [openEnds, hi, hlt]
  · rintro ⟨i, w⟩
    have hnn := h.ends_nonneg hp (i, w)
    simp only [Pi.add_apply, Pi.single_apply]
    split <;> split <;> omega
  · intro i
    by_cases hi : i = c.npipe
    · subst hi
      simp [unfreed, PipeEnds.closed, hfrees]
    · have hlt : i < c.npipe + 1 ↔ i < c.npipe := by omega
      simp [unfreed, hi, hlt]

theorem pipeclose {i : ℕ} {w : Bool}
    (he : 1 ≤ (tok p).ends (i, w)) :
    Piped (c.setPipe i ((c.pipe i).close w)) (update tok p { tok p with
      ends := (tok p).ends - Pi.single (i, w) 1
      pages := if ((c.pipe i).close w).closed then (tok p).pages + Pi.single i 1
        else (tok p).pages }) := by
  obtain ⟨hlt, hopen⟩ := openEnds_mono (le_trans he (h.ends_le hp (i, w)))
  refine h.adjust hp rfl ?_ (sub_single_nonneg (h.ends_nonneg hp) he) ?_ ?_
  · rintro ⟨j, v⟩
    by_cases hj : j = i
    · subst hj
      by_cases hv : v = w
      · subst hv
        simp [openEnds, Core.setPipe, isOpen_close, hlt, hopen]
      · simp [openEnds, Core.setPipe, isOpen_close, hv]
    · simp [openEnds, Core.setPipe, hj]
  · intro j
    by_cases hj : j = i
    · subst hj
      have hframe : ((c.pipe j).close w).frees = (c.pipe j).frees := by cases w <;> rfl
      cases hlast : ((c.pipe j).close w).closed <;>
        simp [unfreed, Core.setPipe, hlt, hframe, hlast, not_closed_of_isOpen hopen]
    · cases ((c.pipe i).close w).closed <;> simp [unfreed, Core.setPipe, hj]
  · intro j
    have hnn := h.pages.nonneg p hp j
    cases ((c.pipe i).close w).closed
    · exact hnn
    · simp only [if_true, Pi.add_apply, Pi.single_apply]
      split <;> omega

theorem pipeKfree {i : ℕ}
    (hi : 1 ≤ (tok p).pages i) : Piped (c.setPipe i { c.pipe i with frees := (c.pipe i).frees + 1 })
      (update tok p { tok p with pages := (tok p).pages - Pi.single i 1 }) := by
  refine h.adjust hp rfl ?_ (h.ends_nonneg hp) ?_
    (sub_single_nonneg (fun j => h.pages.nonneg p hp j) hi)
  · rintro ⟨j, v⟩
    have hsame : isOpen ((c.setPipe i { c.pipe i with frees := (c.pipe i).frees + 1 }).pipe j) v =
        isOpen (c.pipe j) v := by
      by_cases hj : j = i
      · subst hj
        cases v <;> simp [Core.setPipe, isOpen]
      · simp [Core.setPipe, hj]
    rw [openEnds, hsame]
    exact (sub_self _).trans (sub_self _).symm
  · intro j
    by_cases hj : j = i
    · subst hj
      simp [unfreed, Core.setPipe, PipeEnds.closed]
    · simp [unfreed, Core.setPipe, hj]

end Piped

end Qwin.Sys
