import Qwin.Sys.FileTable

/-!
# What the reference counts of files say

Between system calls the counter of a file is the number of descriptors that point to it,
a file without references has no type, `filedup` and `fileclose` are only called on files
with a reference, and the page of a pipe is freed once, when no descriptor points to either
of its ends any more.
-/

namespace Qwin.Sys

open Prog Fs
open Function (update update_of_ne update_self update_eq_self)

def slots (c : Core) (f : ℕ) : Finset (ℕ × ℕ) :=
  (Finset.range NPROC ×ˢ Finset.range NOFILE).filter fun x => (c.pt.proc x.1).ofile x.2 = some f

/-- Some descriptor points to an end of the pipe. -/
def PointsTo (c : Core) (i : ℕ) : Prop :=
  ∃ p < NPROC, ∃ fd < NOFILE, ∃ f, (c.pt.proc p).ofile fd = some f ∧
    (c.file f).type = .pipe ∧ (c.file f).pipe = i

/-- The file table and the pipes of a configuration are in order. -/
structure FilesInOrder (m : Machine) : Prop where
  /-- Between system calls the counters are the numbers of descriptors. -/
  ref_eq : (∀ p, Rests m p) → ∀ f, (m.state.core.file f).ref = (slots m.state.core f).card
  /-- A file without references has no type. -/
  type_eq : ∀ f, (m.state.core.file f).ref = 0 → (m.state.core.file f).type = .none
  /-- `filedup` does not panic. -/
  filedup : ∀ p f k, m.prog p = some (.act (.left (.filedup f)) k) →
    1 ≤ (m.state.core.file f).ref
  /-- `fileclose` does not panic. -/
  fileclose : ∀ p f k, m.prog p = some (.act (.left (.fileDrop f)) k) →
    1 ≤ (m.state.core.file f).ref
  /-- The page of a pipe is freed at most once. -/
  frees_le : ∀ i, (m.state.core.pipe i).frees ≤ 1
  /-- It is freed when no descriptor points to the pipe any more, and was not before. -/
  kfree : ∀ p i k, m.prog p = some (.act (.left (.pipeKfree i)) k) →
    (m.state.core.pipe i).frees = 0 ∧ ¬ PointsTo m.state.core i
  /-- Between system calls it has been freed exactly if no descriptor points to the pipe. -/
  frees_eq : (∀ p, Rests m p) → ∀ i < m.state.core.npipe,
    (m.state.core.pipe i).frees = 1 ↔ ¬ PointsTo m.state.core i

/-! ## The invariant in every run -/

def FileToken.idle : FileToken := ⟨false, fun _ => none, 0, ∅, none, 0, 0, none⟩

theorem FileToken.idle_rest : FileToken.idle.Rest := ⟨rfl, rfl, rfl, rfl, rfl⟩

theorem fileInv_boot (oracle : ℕ → ℤ) : FileInv (bootCore oracle) fun _ => FileToken.idle := by
  have hproc : ∀ p fd, ((bootCore oracle).pt.proc p).ofile fd = none := by
    intro p fd
    simp only [bootCore]
    split <;> rfl
  have hheld : held (bootCore oracle) (fun _ => FileToken.idle) = fun _ => 0 := by
    funext p f
    rw [held, tally_eq_zero fun fd _ => hproc p fd]
    rfl
  have hnone : ∀ n : ℕ, none ≠ some n := fun n h => Option.some_ne_none n h.symm
  refine ⟨⟨fun _ h => absurd h Bool.false_ne_true, ?_, fun p _ => hproc p,
    fun _ _ => FileToken.idle_rest, fun _ n h => absurd h (hnone n),
    fun _ _ n h => absurd h (hnone n)⟩,
    ⟨⟨?_, ?_⟩, fun _ _ => rfl, ?_, fun _ _ h => absurd h List.not_mem_nil,
      fun _ f h => absurd h (hnone f)⟩, ⟨⟨?_, ?_⟩, ⟨?_, ?_⟩⟩⟩
  · intro p hp
    simp only [bootCore] at hp
    split at hp
    next h0 =>
      rw [h0]
      decide
    · exact absurd hp (by decide)
  · intro f
    rw [hheld]
    simp [bootCore]
  · intro p _ f
    rw [hheld]
    exact le_refl _
  · intro f hf
    exact absurd rfl hf
  · intro k
    rw [openEnds, if_neg fun h => absurd h.1 (Nat.not_lt_zero _)]
    symm
    refine Finset.sum_eq_zero ?_
    rintro (f | p) - <;> rfl
  · rintro (f | p) - k <;> exact le_refl _
  · intro i
    rw [unfreed, if_neg fun h => absurd h.1 (Nat.not_lt_zero _)]
    symm
    exact Finset.sum_eq_zero fun p _ => rfl
  · exact fun p _ i => le_refl _

def FileToken.enter (t : FileToken) (o : ℕ → Option ℕ) : FileToken :=
  { t with alive := true, ofile := o }

theorem FileToken.Rest.enter {t : FileToken} (h : t.Rest) (o : ℕ → Option ℕ) : (t.enter o).Rest :=
  ⟨h.files, h.fresh, h.ends, h.pages, h.child⟩

theorem FileInv.start {c : Core} {tok : ℕ → FileToken} {p : ℕ} (h : FileInv c tok)
    (hlive : (c.pt.proc p).state.Live) :
    FileInv c (update tok p ((tok p).enter (c.pt.proc p).ofile)) := by
  have hch : ∀ q, (update tok p ((tok p).enter (c.pt.proc p).ofile) q).child = (tok q).child := by
    intro q
    by_cases hq : q = p
    · subst hq
      rw [update_self]
      rfl
    · rw [update_of_ne hq]
  refine ⟨⟨?_, h.lives.lt, h.lives.empty, ?_, ?_, ?_⟩, h.filed.setToken rfl rfl rfl,
    h.piped.setToken rfl rfl⟩
  · intro q hq
    by_cases hqp : q = p
    · subst hqp
      rw [update_self]
      exact ⟨hlive, rfl⟩
    · rw [update_of_ne hqp] at hq ⊢
      exact h.lives.view q hq
  · intro q hq
    by_cases hqp : q = p
    · subst hqp
      rw [update_self] at hq
      cases hq
    · rw [update_of_ne hqp] at hq ⊢
      exact h.lives.dead q hq
  · intro q n hn
    rw [hch] at hn
    exact h.lives.child q n hn
  · intro q r n hq hr
    rw [hch] at hq hr
    exact h.lives.unique q r n hq hr

theorem fileProtocol_minds : Protocol.MindsNoPlain fileProtocol := by
  intro β a t ha
  cases a <;> first | exact False.elim ha | exact ⟨trivial, fun _ _ hn => hn⟩

/-- In every configuration that the tasks reach, tokens witness the invariant. -/
theorem backed_of_reached {G : (β : Type) → ℕ → Plus CoreAct BlockAct β → BState → Prop}
    {d : ℕ → Block} {oracle : ℕ → ℤ} {m : Machine} (h : Reached G d oracle m) :
    Threads.Backed fileProtocol.onLeft (fun st tok => FileInv st.core tok) FileToken.Rest m := by
  refine Threads.Backed.of_reached FileToken.idle_rest (fileInv_boot oracle) ?_ ?_ ?_ h
  · rintro p st _ tok ⟨hlive, task, rfl⟩ hinv hr
    have htask := InFiles.task rfl (hr.enter (st.core.pt.proc p).ofile) task
    exact ⟨_, hinv.start hlive, follows_blocks_of_minds fileProtocol_minds htask⟩
  · intro β p a st r st' tok _ hx hinv hpre
    cases a with
    | left a => exact hinv.step hpre (execCore_eq_ok hx)
    | right a =>
      refine ⟨tok p, rfl, ?_⟩
      rw [update_eq_self, execBlock_core hx]
      exact hinv
  · intro β a t hq hpre
    cases a with
    | right a => exact hq.elim
    | left a =>
      cases a with
      | halt => exact hpre
      | _ => exact False.elim hq

/-! ## The counters between calls -/

section Order

variable {c : Core} {tok : ℕ → FileToken} {p f i : ℕ}

theorem mem_slots {x : ℕ × ℕ} :
    x ∈ slots c f ↔ (x.1 < NPROC ∧ x.2 < NOFILE) ∧ (c.pt.proc x.1).ofile x.2 = some f := by
  simp [slots]

theorem card_slots (c : Core) (f : ℕ) :
    ((slots c f).card : ℤ) = ∑ p ∈ Finset.range NPROC, tally (c.pt.proc p).ofile NOFILE f := by
  rw [slots, ← Finset.sum_boole, Finset.sum_product]
  refine Finset.sum_congr rfl fun p _ => ?_
  rw [tally_apply, Finset.sum_boole]

theorem FileInv.ref_eq (h : FileInv c tok) (hr : ∀ p, (tok p).Rest) (f : ℕ) :
    (c.file f).ref = (slots c f).card := by
  rw [card_slots, h.filed.refs.total f]
  refine Finset.sum_congr rfl fun p _ => ?_
  rw [held, (hr p).files]
  exact add_zero _

theorem FileInv.lt_of_endOf (h : FileInv c tok) {k : ℕ × Bool} (hf : endOf (c.file f) = some k) :
    f < NFILE := by
  refine h.filed.lt f fun h0 => ?_
  have hnone := h.filed.type f h0
  rw [endOf, if_neg (by simp [hnone])] at hf
  cases hf

theorem FileInv.isOpen_of_endOf (h : FileInv c tok) {w : Bool}
    (hf : endOf (c.file f) = some (i, w)) : i < c.npipe ∧ isOpen (c.pipe i) w = true := by
  refine openEnds_mono ?_
  have hmem : Sum.inl f ∈ (Finset.range NFILE).disjSum (Finset.range NPROC) :=
    Finset.inl_mem_disjSum.2 (Finset.mem_range.2 (h.lt_of_endOf hf))
  have hle := h.piped.ends.hold_le hmem (i, w)
  rwa [Sum.elim_inl, hf, one_apply, if_pos rfl] at hle

theorem endOf_of_pipe {x : File} (htype : x.type = .pipe) (hi : x.pipe = i) :
    endOf x = some (i, x.writable) := by
  rw [endOf, if_pos htype, hi]

variable (h : FileInv c tok)
include h

theorem FileInv.not_closed_of_pointsTo (hi : PointsTo c i) : (c.pipe i).closed = false := by
  obtain ⟨p, -, fd, -, f, -, htype, hpipe⟩ := hi
  exact Piped.not_closed_of_isOpen (h.isOpen_of_endOf (endOf_of_pipe htype hpipe)).2

theorem FileInv.frees_le (i : ℕ) : (c.pipe i).frees ≤ 1 := by
  have hle : 0 ≤ unfreed c i := by
    rw [h.piped.pages.total]
    exact Finset.sum_nonneg fun q hq => h.piped.pages.nonneg q hq i
  rw [unfreed] at hle
  split at hle <;> omega

/-- A pipe page in hand is of a pipe that is closed and not free. -/
theorem FileInv.of_pages (hp : p ∈ Finset.range NPROC)
    (hi : 1 ≤ (tok p).pages i) : (c.pipe i).frees = 0 ∧ ¬ PointsTo c i := by
  have hle := le_trans hi (h.piped.pages.hold_le hp i)
  rw [unfreed] at hle
  split at hle
  next hclosed =>
    refine ⟨by omega, fun hpoints => ?_⟩
    have hopen := h.not_closed_of_pointsTo hpoints
    rw [hclosed.2] at hopen
    cases hopen
  · omega

variable (hr : ∀ p, (tok p).Rest)
include hr

/-- With nothing in hand, an end is open because a file stands for it. -/
theorem FileInv.exists_of_isOpen {w : Bool}
    (hlt : i < c.npipe) (hopen : isOpen (c.pipe i) w = true) :
    ∃ f, endOf (c.file f) = some (i, w) := by
  by_contra hnone
  push Not at hnone
  have htotal := h.piped.ends.total (i, w)
  rw [openEnds, if_pos ⟨hlt, hopen⟩, Finset.sum_eq_zero] at htotal
  · cases htotal
  · rintro (f | p) -
    · rw [Sum.elim_inl, one_apply, if_neg (hnone f)]
    · rw [Sum.elim_inr, (hr p).ends]
      rfl

theorem FileInv.pointsTo_of_endOf {w : Bool}
    (hf : endOf (c.file f) = some (i, w)) : PointsTo c i := by
  have htype : (c.file f).type = .pipe := by
    rw [endOf] at hf
    split at hf
    next htype => exact htype
    · cases hf
  have hpipe : (c.file f).pipe = i := by
    rw [endOf, if_pos htype] at hf
    exact (Prod.mk.inj (Option.some.inj hf)).1
  have hne : (slots c f).card ≠ 0 := by
    intro h0
    have hzero := h.ref_eq hr f
    rw [h0] at hzero
    have hnone := h.filed.type f hzero
    rw [htype] at hnone
    cases hnone
  have hsome : ∃ x : ℕ × ℕ, (x.1 < NPROC ∧ x.2 < NOFILE) ∧ (c.pt.proc x.1).ofile x.2 = some f := by
    simp_rw [← mem_slots]
    exact Finset.card_ne_zero.1 hne
  obtain ⟨x, ⟨hp, hfd⟩, hof⟩ := hsome
  exact ⟨x.1, hp, x.2, hfd, f, hof, htype, hpipe⟩

theorem FileInv.frees_eq (hi : i < c.npipe) : (c.pipe i).frees = 1 ↔ ¬ PointsTo c i := by
  have hzero : unfreed c i = 0 := by
    rw [h.piped.pages.total]
    refine Finset.sum_eq_zero fun p _ => ?_
    rw [(hr p).pages]
    rfl
  rw [unfreed] at hzero
  constructor
  · intro hone hpoints
    rw [if_neg fun hc => by
      have hopen := h.not_closed_of_pointsTo hpoints
      rw [hc.2] at hopen
      cases hopen] at hzero
    omega
  · intro hnone
    have hclosed : ∀ w, isOpen (c.pipe i) w = false := by
      intro w
      cases hw : isOpen (c.pipe i) w with
      | false => rfl
      | true =>
        obtain ⟨f, hf⟩ := h.exists_of_isOpen hr hi hw
        exact absurd (h.pointsTo_of_endOf hr hf) hnone
    have hboth : (c.pipe i).closed = true := by
      have h1 : (c.pipe i).writeopen = false := hclosed true
      have h2 : (c.pipe i).readopen = false := hclosed false
      rw [PipeEnds.closed, h1, h2]
      rfl
    rw [if_pos ⟨hi, hboth⟩] at hzero
    omega

end Order

/-- In every run of the tasks, by any number of processes, the file table is in order. -/
theorem files_in_order (d : ℕ → Block) (oracle : ℕ → ℤ) (m : Machine)
    (h : Reached (fun _ _ _ _ => True) d oracle m) : FilesInOrder m := by
  obtain ⟨tok, hinv, hnone, hsome⟩ := (backed_of_reached h).tokens
  have hrest : ∀ {p : ℕ}, Rests m p → (tok p).Rest := by
    intro p hp
    cases hc : m.prog p with
    | none => exact hnone p hc
    | some c =>
      obtain ⟨k, rfl⟩ := hp c hc
      exact (follows_act.1 (hsome p _ hc)).1
  have hpre : ∀ {p : ℕ} {β : Type} {a : CoreAct β} {k : β → BProg Unit},
      m.prog p = some (.act (.left a) k) → fileProtocol.pre β a (tok p) := by
    intro p β a k hp
    exact (follows_act.1 (hsome p _ hp)).1
  have hshare : ∀ {p f : ℕ}, (tok p).alive = true → 1 ≤ (tok p).share f →
      1 ≤ (m.state.core.file f).ref := by
    intro p f ha hf
    rw [← hinv.lives.held_eq ha] at hf
    exact le_trans hf (hinv.filed.refs.hold_le (hinv.lives.mem ha) f)
  constructor
  · exact fun hr => hinv.ref_eq fun p => hrest (hr p)
  · exact hinv.filed.type
  · intro p f k hp
    exact hshare (hpre hp).1 (hpre hp).2
  · intro p f k hp
    exact hshare (hpre hp).1 (hpre hp).2
  · exact hinv.frees_le
  · intro p i k hp
    exact hinv.of_pages (hinv.lives.mem (hpre hp).1) (hpre hp).2
  · exact fun hr i hi => hinv.frees_eq (fun p => hrest (hr p)) hi

/-- The first process makes a pipe and forks. -/
def pipeMoves : List (Threads.Move ℕ Task) :=
  [.call 0 .pipe, .run 0 10, .call 0 (.call .fork), .run 0 24]

theorem files_in_order_pipe :
    ∃ m : Machine, Reached (fun _ _ _ _ => True) tinyDisk (fun _ => 1) m ∧
      (m.state.core.file 0).ref = 2 ∧ FilesInOrder m := by
  have hplay : ((Threads.play blockSem (fun _ _ _ _ => True) enter pipeMoves
      ⟨tinyBoot, fun _ => none⟩).any fun m => (m.state.core.file 0).ref == 2) = true := by
    decide +kernel
  obtain ⟨m, hm, h⟩ := Threads.exists_of_play mayRun_of_enter hplay
  have hreach : Reached (fun _ _ _ _ => True) tinyDisk (fun _ => 1) m := hm.reached
  exact ⟨m, hreach, by simpa using h, files_in_order tinyDisk _ m hreach⟩

end Qwin.Sys
