import Qwin.Sys.FileInv

/-!
# Processes and their descriptors

How the steps on the process table keep the invariant of the file table: setting a
descriptor, taking a slot for a child, handing the descriptors to it, the end of a
process, and `wait`.
-/

namespace Qwin.Sys

open Prog Fs
open Function (update update_of_ne update_self)

variable {c c' : Core} {tok : ℕ → FileToken} {p f : ℕ} {t : FileToken}

theorem not_live_unused : ¬ ProcState.unused.Live := by decide

theorem not_live_embryo : ¬ ProcState.embryo.Live := by decide

theorem not_live_zombie : ¬ ProcState.zombie.Live := by decide

namespace Lives

variable {tok' : ℕ → FileToken}

/-- One slot that holds no process goes from one such state to another. -/
theorem relabel (h : Lives c tok) (np : ℕ)
    (hother : ∀ q, q ≠ np → (c'.pt.proc q).state = (c.pt.proc q).state)
    (hold : ¬ (c.pt.proc np).state.Live) (hnew : ¬ (c'.pt.proc np).state.Live)
    (hofile : ∀ q, (c'.pt.proc q).ofile = (c.pt.proc q).ofile)
    (htok : ∀ q, (tok' q).alive = (tok q).alive ∧ (tok' q).ofile = (tok q).ofile)
    (hdead : ∀ q, (tok' q).alive = false → (tok' q).Rest)
    (hchild : ∀ q np, (tok' q).child = some np →
      np < NPROC ∧ (c'.pt.proc np).state = .embryo)
    (hunique : ∀ q r np, (tok' q).child = some np → (tok' r).child = some np → q = r) :
    Lives c' tok' := by
  have hlive : ∀ q, (c'.pt.proc q).state.Live ↔ (c.pt.proc q).state.Live := by
    intro q
    by_cases hq : q = np
    · subst hq
      exact iff_of_false hnew hold
    · rw [hother q hq]
  refine ⟨?_, ?_, ?_, hdead, hchild, hunique⟩
  · intro q hq
    rw [(htok q).1] at hq
    rw [hlive, hofile, (htok q).2]
    exact h.view q hq
  · intro q hq
    rw [hlive] at hq
    exact h.lt q hq
  · intro q hq
    rw [hlive] at hq
    rw [hofile]
    exact h.empty q hq

/-- The tokens after process `p` has got or lost a child. -/
theorem child_update {r : Option ℕ} (q : ℕ) :
    (update tok p ((tok p).setChild r) q).child = if q = p then r else (tok q).child := by
  by_cases hq : q = p
  · rw [hq, update_self, if_pos rfl]
    rfl
  · rw [update_of_ne hq, if_neg hq]

theorem view_update {r : Option ℕ} (q : ℕ) :
    (update tok p ((tok p).setChild r) q).alive = (tok q).alive ∧
      (update tok p ((tok p).setChild r) q).ofile = (tok q).ofile :=
  ⟨field_update FileToken.alive (by rfl) q, field_update FileToken.ofile (by rfl) q⟩

variable (h : Lives c tok)
include h

theorem allocproc (hp : (tok p).alive = true) {np : ℕ} (hlt : np < NPROC)
    (hold : (c.pt.proc np).state = .unused) (hnew : (c'.pt.proc np).state = .embryo)
    (hother : ∀ q, q ≠ np → (c'.pt.proc q).state = (c.pt.proc q).state)
    (hofile : ∀ q, (c'.pt.proc q).ofile = (c.pt.proc q).ofile) :
    Lives c' (update tok p ((tok p).setChild (some np))) := by
  -- no process had this slot as a child, because it was free
  have hfree : ∀ q, (tok q).child ≠ some np := by
    intro q hq
    have hstate := (h.child q np hq).2
    rw [hold] at hstate
    cases hstate
  refine h.relabel np hother (by rw [hold]; exact not_live_unused)
    (by rw [hnew]; exact not_live_embryo) hofile view_update (h.dead_update hp) ?_ ?_
  · intro q n hn
    rw [child_update] at hn
    split at hn
    · cases hn
      exact ⟨hlt, hnew⟩
    · have hne : n ≠ np := fun he => hfree q (he ▸ hn)
      rw [hother n hne]
      exact h.child q n hn
  · intro q r n hq hr
    rw [child_update] at hq hr
    split at hq
    next hqp =>
      cases hq
      split at hr
      next hrp => rw [hqp, hrp]
      · exact absurd hr (hfree r)
    · split at hr
      · cases hr
        exact absurd hq (hfree q)
      · exact h.unique q r n hq hr

/-- The child that was being made is no child any more. -/
theorem child_gone {np : ℕ} (hchild : (tok p).child = some np)
    (ht : t.child = none) (hother : ∀ q, q ≠ np → (c'.pt.proc q).state = (c.pt.proc q).state) :
    (∀ q n, (update tok p t q).child = some n →
      n < NPROC ∧ (c'.pt.proc n).state = .embryo) ∧
    ∀ q r n, (update tok p t q).child = some n → (update tok p t r).child = some n → q = r := by
  have hold : ∀ q n, (update tok p t q).child = some n → q ≠ p ∧ (tok q).child = some n := by
    intro q n hn
    by_cases hq : q = p
    · rw [hq, update_self, ht] at hn
      cases hn
    · rw [update_of_ne hq] at hn
      exact ⟨hq, hn⟩
  refine ⟨fun q n hn => ?_, fun q r n hq hr => h.unique q r n (hold q n hq).2 (hold r n hr).2⟩
  obtain ⟨hqp, hn⟩ := hold q n hn
  rw [hother n fun he => hqp (h.unique q p np (he ▸ hn) hchild)]
  exact h.child q n hn

theorem forkFail (hp : (tok p).alive = true) {np : ℕ}
    (hchild : (tok p).child = some np) (hnew : (c'.pt.proc np).state = .unused)
    (hother : ∀ q, q ≠ np → (c'.pt.proc q).state = (c.pt.proc q).state)
    (hofile : ∀ q, (c'.pt.proc q).ofile = (c.pt.proc q).ofile) :
    Lives c' (update tok p ((tok p).setChild none)) := by
  obtain ⟨-, hold⟩ := h.child p np hchild
  have hgone := h.child_gone (t := (tok p).setChild none) hchild rfl hother
  refine h.relabel np hother (by rw [hold]; exact not_live_embryo)
    (by rw [hnew]; exact not_live_unused) hofile view_update (h.dead_update hp) hgone.1 hgone.2

theorem wait {i : ℕ} (hold : (c.pt.proc i).state = .zombie) (hnew : (c'.pt.proc i).state = .unused)
    (hother : ∀ q, q ≠ i → (c'.pt.proc q).state = (c.pt.proc q).state)
    (hofile : ∀ q, (c'.pt.proc q).ofile = (c.pt.proc q).ofile) : Lives c' tok := by
  refine h.relabel i hother (by rw [hold]; exact not_live_zombie)
    (by rw [hnew]; exact not_live_unused) hofile (fun _ => ⟨rfl, rfl⟩) h.dead ?_ h.unique
  intro q n hn
  obtain ⟨hlt, hstate⟩ := h.child q n hn
  have hne : n ≠ i := by
    rintro rfl
    rw [hold] at hstate
    cases hstate
  rw [hother n hne]
  exact ⟨hlt, hstate⟩

variable (hp : (tok p).alive = true)
include hp

theorem setOfile {fd : ℕ} {v : Option ℕ} (hstate : ∀ q, (c'.pt.proc q).state = (c.pt.proc q).state)
    (hself : (c'.pt.proc p).ofile = update (c.pt.proc p).ofile fd v)
    (hother : ∀ q, q ≠ p → (c'.pt.proc q).ofile = (c.pt.proc q).ofile) :
    Lives c' (update tok p ((tok p).setOfile fd v)) := by
  obtain ⟨hlive, hview⟩ := h.view p hp
  have hch : ∀ q, (update tok p ((tok p).setOfile fd v) q).child = (tok q).child :=
    field_update FileToken.child rfl
  refine ⟨?_, ?_, ?_, h.dead_update hp, ?_, ?_⟩
  · intro q hq
    rw [hstate]
    by_cases hqp : q = p
    · subst hqp
      rw [update_self, hself, hview]
      exact ⟨hlive, rfl⟩
    · rw [update_of_ne hqp] at hq ⊢
      rw [hother q hqp]
      exact h.view q hq
  · intro q hq
    rw [hstate] at hq
    exact h.lt q hq
  · intro q hq
    rw [hstate] at hq
    have hqp : q ≠ p := fun he => hq (he ▸ hlive)
    rw [hother q hqp]
    exact h.empty q hq
  · intro q n hn
    rw [hch] at hn
    rw [hstate]
    exact h.child q n hn
  · intro q r n hq hr
    rw [hch] at hq hr
    exact h.unique q r n hq hr

/-- The child of `fork` becomes a process with the descriptors of its parent. -/
theorem forkCopy {np : ℕ}
    (hchild : (tok p).child = some np) (hnew : (c'.pt.proc np).state = .runnable)
    (hother : ∀ q, q ≠ np → (c'.pt.proc q).state = (c.pt.proc q).state)
    (hofile : ∀ q, q ≠ np → (c'.pt.proc q).ofile = (c.pt.proc q).ofile) :
    Lives c' (update tok p (tok p).passOn) := by
  obtain ⟨hlt, hold⟩ := h.child p np hchild
  have hlive : ∀ q, (c.pt.proc q).state.Live → q ≠ np := by
    rintro q hq rfl
    rw [hold] at hq
    exact not_live_embryo hq
  have hgone := h.child_gone (t := (tok p).passOn) hchild rfl hother
  refine ⟨?_, ?_, ?_, h.dead_update hp, hgone.1, hgone.2⟩
  · intro q hq
    rw [field_update (t := (tok p).passOn) FileToken.alive rfl] at hq
    have hne := hlive q (h.view q hq).1
    rw [hother q hne, hofile q hne, field_update (t := (tok p).passOn) FileToken.ofile rfl]
    exact h.view q hq
  · intro q hq
    by_cases hqn : q = np
    · rw [hqn]
      exact hlt
    · rw [hother q hqn] at hq
      exact h.lt q hq
  · intro q hq
    have hqn : q ≠ np := by
      rintro rfl
      rw [hnew] at hq
      exact hq (by decide)
    rw [hother q hqn] at hq
    rw [hofile q hqn]
    exact h.empty q hq

theorem exitProc (hr : (tok p).Rest)
    (hnew : (c'.pt.proc p).state = .zombie) (hnone : ∀ fd, (c'.pt.proc p).ofile fd = none)
    (hother : ∀ q, q ≠ p → (c'.pt.proc q).state = (c.pt.proc q).state)
    (hofile : ∀ q, q ≠ p → (c'.pt.proc q).ofile = (c.pt.proc q).ofile) :
    Lives c' (update tok p (tok p).die) := by
  have hlive := (h.view p hp).1
  have hch : ∀ q, (update tok p (tok p).die q).child = (tok q).child :=
    field_update FileToken.child rfl
  refine ⟨?_, ?_, ?_, ?_, ?_, ?_⟩
  · intro q hq
    by_cases hqp : q = p
    · subst hqp
      rw [update_self] at hq
      cases hq
    · rw [update_of_ne hqp] at hq ⊢
      rw [hother q hqp, hofile q hqp]
      exact h.view q hq
  · intro q hq
    by_cases hqp : q = p
    · subst hqp
      exact h.lt q hlive
    · rw [hother q hqp] at hq
      exact h.lt q hq
  · intro q hq
    by_cases hqp : q = p
    · rw [hqp]
      exact hnone
    · rw [hother q hqp] at hq
      rw [hofile q hqp]
      exact h.empty q hq
  · intro q hq
    by_cases hqp : q = p
    · subst hqp
      rw [update_self]
      exact ⟨hr.files, hr.fresh, hr.ends, hr.pages, hr.child⟩
    · rw [update_of_ne hqp] at hq ⊢
      exact h.dead q hq
  · intro q n hn
    rw [hch] at hn
    obtain ⟨hlt, hstate⟩ := h.child q n hn
    have hne : n ≠ p := by
      rintro rfl
      rw [hstate] at hlive
      exact not_live_embryo hlive
    rw [hother n hne]
    exact ⟨hlt, hstate⟩
  · intro q r n hq hr
    rw [hch] at hq hr
    exact h.unique q r n hq hr

end Lives

namespace Filed

variable (h : Filed c tok) (hl : Lives c tok) (hp : (tok p).alive = true)
include h hl hp

theorem setOfile {fd : ℕ} {v : Option ℕ} (hfile : c'.file = c.file)
    (hself : (c'.pt.proc p).ofile = update (c.pt.proc p).ofile fd v)
    (hother : ∀ q, q ≠ p → (c'.pt.proc q).ofile = (c.pt.proc q).ofile) :
    Filed c' (update tok p ((tok p).setOfile fd v)) := by
  refine h.congr_held hfile ?_ rfl rfl
  funext q
  by_cases hq : q = p
  · subst hq
    rw [held_update_self, hself, (hl.view q hp).2, hl.held_eq hp]
    exact FileToken.share_setOfile
  · rw [held_update_of_ne hq]
    funext g
    rw [held, hother q hq, held]

theorem exitProc (hfile : c'.file = c.file) (hempty : ∀ fd < NOFILE, (tok p).ofile fd = none)
    (hnone : ∀ fd, (c'.pt.proc p).ofile fd = none)
    (hother : ∀ q, q ≠ p → (c'.pt.proc q).ofile = (c.pt.proc q).ofile) :
    Filed c' (update tok p (tok p).die) := by
  refine h.congr_held hfile ?_ rfl rfl
  funext q
  by_cases hq : q = p
  · subst hq
    rw [held_update_self, tally_eq_zero fun fd _ => hnone fd, hl.held_eq hp, FileToken.share,
      tally_eq_zero hempty]
    rfl
  · rw [held_update_of_ne hq]
    funext g
    rw [held, hother q hq, held]

/-- The references that `fork` has taken pass to the child. -/
theorem forkCopy {np : ℕ}
    (hchild : (tok p).child = some np) (hfiles : (tok p).files = tally (tok p).ofile NOFILE)
    (hfile : c'.file = c.file) (hself : (c'.pt.proc np).ofile = (c.pt.proc p).ofile)
    (hother : ∀ q, q ≠ np → (c'.pt.proc q).ofile = (c.pt.proc q).ofile) :
    Filed c' (update tok p (tok p).passOn) := by
  obtain ⟨hlt, hembryo⟩ := hl.child p np hchild
  have hmem := hl.mem hp
  have hnotlive : ¬ (c.pt.proc np).state.Live := by
    rw [hembryo]
    exact not_live_embryo
  have hne : p ≠ np := fun he => hnotlive (he ▸ (hl.view p hp).1)
  have hdead : (tok np).Rest := by
    refine hl.dead np ?_
    cases ha : (tok np).alive with
    | false => rfl
    | true => exact absurd (hl.view np ha).1 hnotlive
  have hview := (hl.view p hp).2
  -- before: the parent holds everything twice; after: parent and child once
  have hbefore : held c tok p = tally (tok p).ofile NOFILE + tally (tok p).ofile NOFILE := by
    rw [hl.held_eq hp, FileToken.share, hfiles]
  have hbefore' : held c tok np = 0 := by
    funext g
    rw [held, tally_eq_zero fun fd _ => hl.empty np hnotlive fd, hdead.files]
    rfl
  have hafter : held c' (update tok p (tok p).passOn) p = tally (tok p).ofile NOFILE := by
    rw [held_update_self, hother p hne, hview]
    exact add_zero _
  have hafter' : held c' (update tok p (tok p).passOn) np = tally (tok p).ofile NOFILE := by
    rw [held_update_of_ne hne.symm]
    funext g
    rw [held, hself, hview, hdead.files]
    exact add_zero _
  have hrest : ∀ q, q ≠ p → q ≠ np → held c' (update tok p (tok p).passOn) q = held c tok q := by
    intro q hq hqn
    rw [held_update_of_ne hq]
    funext g
    rw [held, hother q hqn, held]
  have hcounts : Counts (Finset.range NPROC) (fun g => (c'.file g).ref)
      (held c' (update tok p (tok p).passOn)) := by
    rw [hfile]
    refine h.refs.pass hmem (Finset.mem_range.2 hlt) hne (fun q _ => hrest q) ?_ ?_ ?_
    · intro g
      rw [hafter, hafter', hbefore, hbefore']
      exact (add_zero _).symm
    · rw [hafter]
      exact tally_nonneg _ _
    · rw [hafter']
      exact tally_nonneg _ _
  -- a process that has a file as new or just opened is not the child
  have hkeep : ∀ q g, (g ∈ (update tok p (tok p).passOn q).fresh → g ∈ (tok q).fresh) ∧
      (update tok p (tok p).passOn q).opened = (tok q).opened := by
    intro q g
    by_cases hq : q = p
    · subst hq
      rw [update_self]
      exact ⟨fun hg => hg, rfl⟩
    · rw [update_of_ne hq]
      exact ⟨fun hg => hg, rfl⟩
  constructor
  · exact hcounts
  · rw [hfile]
    exact h.type
  · rw [hfile]
    exact h.lt
  · intro q g hg
    obtain ⟨h1, h2, h3, h4⟩ := h.fresh q g ((hkeep q g).1 hg)
    rw [hfile]
    refine ⟨h1, h2, ?_, h4⟩
    by_cases hq : q = p
    · subst hq
      have hb := congrFun hbefore g
      rw [Pi.add_apply] at hb
      omega
    · by_cases hqn : q = np
      · subst hqn
        rw [hbefore'] at h3
        cases h3
      · rw [hrest q hq hqn]
        exact h3
  · intro q g hg
    rw [(hkeep q g).2] at hg
    obtain ⟨h1, h2, h3⟩ := h.opened q g hg
    rw [hfile]
    refine ⟨h1, ?_, h3⟩
    by_cases hq : q = p
    · subst hq
      have hb := congrFun hbefore g
      rw [Pi.add_apply] at hb
      rw [hafter]
      omega
    · by_cases hqn : q = np
      · subst hqn
        rw [hbefore'] at h2
        cases h2
      · rw [hrest q hq hqn]
        exact h2

end Filed

end Qwin.Sys
