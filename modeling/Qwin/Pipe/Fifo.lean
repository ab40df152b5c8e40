import Qwin.Pipe.Basic

/-!
# A pipe is a queue

Every call on a pipe follows the protocol of a monitor: a process stores a byte only into a pipe
that is not full, takes one only from a pipe that is not empty, and returns `0` for a read only at
the end of the pipe. So in every configuration that can be reached the buffer carries what was
stored and not yet taken, and the readers take the bytes in the order in which the writers stored
them, however often the counters wrap.

The rules come in two forms. With `watch` a sleeper has a reason or is owed a wake-up, which needs
an assumption about the error exit of `pipewrite`; without it nothing is said about sleepers.
-/

namespace Qwin.Pipe

open Prog Monitor Threads

def View.Waits (v : View) : Chan → Prop
  | .nread => v.Empty ∧ v.writeopen = true
  | .nwrite => v.Full ∧ v.readopen = true

/-- The wake-ups on `c`, if sleepers are watched. -/
def owed (watch : Bool) (c : Chan) : Set Chan := {c' | watch = true ∧ c' = c}

def rules (watch : Bool) : Rules Op Buffer Chan where
  pre _ o b := match o with
    | .put _ => ¬ b.view.Full
    | .take => ¬ b.view.Empty
    | .ret (.read n i) => 0 < n → i = 0 → b.view.Empty ∧ b.writeopen = false
    | _ => True
  allow _ _ _ := True
  lapses _ o := match o with
    | .ret .gaveUp => owed watch .nread
    | _ => ∅
  waits c b := watch = true → b.view.Waits c
  inv _ := True
  always b := b.ring.Carries PIPESIZE b.stored b.taken

variable {watch : Bool} {b : Buffer} {D : Set Chan}

abbrev Ends (watch : Bool) (c : Prog Act Unit) (t : Token Buffer Chan) : Prop :=
  Monitor.Ends run (rules watch) c t

/-! ## Every call follows the protocol -/

/-- An operation that takes away the reason to sleep on one channel only. -/
theorem debts_subset {β : Type} {o : Op β} {c : Chan} (hD : D ⊆ owed watch c)
    (ho : ∀ c', c' ≠ c → b.view.Waits c' → (run β o b).2.view.Waits c') :
    debts run (rules watch) o D b ⊆ owed watch c := by
  rintro c' ⟨hc | ⟨hw, hn⟩, -⟩
  · exact hD hc
  · obtain ⟨hwatch, hn⟩ := Classical.not_imp.1 hn
    exact ⟨hwatch, by_contra fun hne => hn (ho c' hne (hw hwatch))⟩

theorem sdiff_owed {c : Chan} (hD : D ⊆ owed watch c) : D \ {c} = ∅ := by
  refine Set.eq_empty_of_forall_notMem fun c' hc => hc.2 ?_
  exact (hD hc.1).2

/-- An operation that changes nothing. -/
theorem ends_still {β : Type} {o : Op β} {k : β → Prog Act Unit} (ho : (run β o b).2 = b)
    (hpre : (rules watch).pre β o b)
    (h : Ends watch (k (run β o b).1) (.locked b (D \ (rules watch).lapses β o))) :
    Ends watch (op o >>= k) (.locked b D) := by
  refine follows_op hpre fun _ => ?_
  have hdebts : debts run (rules watch) o D b = D \ (rules watch).lapses β o := by
    ext c
    simp [debts, ho]
  rwa [hdebts, ho]

theorem ends_look {k : View → Prog Act Unit} (h : Ends watch (k b.view) (.locked b D)) :
    Ends watch (op .look >>= k) (.locked b D) := by
  refine ends_still rfl trivial ?_
  rwa [show (rules watch).lapses View .look = ∅ from rfl, Set.sdiff_empty]

theorem ends_wakeup {c : Chan} {k : Unit → Prog Act Unit} (hD : D ⊆ owed watch c)
    (h : Ends watch (k ()) (.locked b ∅)) : Ends watch (wakeup c >>= k) (.locked b D) :=
  follows_bind_eq takes_wakeup fun _ => by rwa [sdiff_owed hD]

theorem ends_finish {x : Return} (hx : (rules watch).pre Unit (.ret x) b)
    (hD : D ⊆ (rules watch).lapses Unit (.ret x)) : Ends watch (finish x) (.locked b D) := by
  refine ends_still rfl hx ?_
  rw [Set.sdiff_eq_empty.2 hD]
  exact ends_release trivial

theorem ends_killed {k : Bool → Prog Act Unit} (h : ∀ stop, Ends watch (k stop) (.locked b D)) :
    Ends watch (sync .killed >>= k) (.locked b D) := by
  refine follows_act.2 ⟨trivial, ?_⟩
  rintro stop _ rfl
  exact h stop

theorem ends_writeLoop (n : ℤ) (src : List UInt8) (hD : D ⊆ owed watch .nread) :
    Ends watch (writeLoop n src) (.locked b D) := by
  induction src generalizing b D with
  | nil => exact ends_wakeup hD (ends_finish trivial (Set.empty_subset _))
  | cons c rest ih =>
    refine ends_look ?_
    split
    next hfull =>
      unfold givesUp
      by_cases hopen : b.view.readopen = true
      · rw [if_pos hopen]
        refine ends_killed fun stop => ?_
        cases stop with
        | true => exact ends_finish trivial hD
        | false => exact ends_wakeup hD (ends_sleep trivial fun _ => ⟨hfull, hopen⟩)
      · rw [if_neg hopen]
        exact ends_finish trivial hD
    next hfull =>
      refine follows_op hfull fun _ => ih (debts_subset hD ?_)
      intro c' hc hw
      cases c' with
      | nread => exact absurd rfl hc
      | nwrite => exact absurd hw.1 hfull

/-- `copyLoop`, where a `0` to be returned has a reason that is still the case. -/
theorem ends_copyLoop (n : ℤ) (m : ℕ) (i : ℤ) (hD : D ⊆ owed watch .nwrite) (hi : 0 ≤ i)
    (hn : 0 < n → m = 0 → i ≠ 0) (h0 : i = 0 → b.view.Empty → b.writeopen = false) :
    Ends watch (copyLoop n m i) (.locked b D) := by
  induction m generalizing i b D with
  | zero =>
    refine ends_wakeup hD (ends_finish ?_ (Set.empty_subset _))
    exact fun hpos hzero => absurd hzero (hn hpos rfl)
  | succ m ih =>
    refine ends_look ?_
    split
    next he =>
      refine ends_wakeup hD (ends_finish ?_ (Set.empty_subset _))
      exact fun _ hzero => ⟨he, h0 hzero he⟩
    next he =>
      refine follows_op he fun _ =>
        ih _ (debts_subset hD ?_) (by omega) (fun _ _ => by omega) fun _ => by omega
      intro c' hc hw
      cases c' with
      | nread => exact absurd hw.1 he
      | nwrite => exact absurd rfl hc

theorem ends_readLoop (n : ℤ) : Ends watch (readLoop n) (.locked b ∅) := by
  refine ends_look ?_
  split
  next hwait =>
    refine ends_killed fun stop => ?_
    cases stop with
    | true => exact ends_finish (fun _ h => absurd h (by decide)) (Set.empty_subset _)
    | false => exact ends_sleep trivial fun _ => hwait
  next hwait =>
    refine ends_copyLoop _ _ _ (Set.empty_subset _) (Int.le_refl 0) (fun hn hm => by omega) ?_
    intro _ he
    exact Bool.eq_false_of_not_eq_true fun hw => hwait ⟨he, hw⟩

theorem ends_pipeclose (w : Bool) : Ends watch (pipeclose w) .idle := by
  refine ends_acquire fun b _ => follows_op trivial fun _ => ?_
  refine ends_wakeup (debts_subset (Set.empty_subset _) ?_) (ends_look ?_)
  · intro c hc hw
    cases w with
    | true =>
      cases c with
      | nread => exact absurd rfl hc
      | nwrite => exact hw
    | false =>
      cases c with
      | nread => exact hw
      | nwrite => exact absurd rfl hc
  · have hclosed : ∀ b, Ends watch (finish .closed) (.locked b ∅) := fun b =>
      ends_finish trivial (Set.empty_subset _)
    split
    · refine follows_bind_eq (hclosed _) fun _ => follows_perform trivial ?_
      rintro _ _ rfl
      rfl
    · exact hclosed _

theorem ends_of_starts {p : ℕ} {s : State Buffer Chan Job} {c : Prog Act Unit} (h : Starts p s c) :
    Ends watch c .idle := by
  obtain ⟨k, hk⟩ := h
  unfold enter at hk
  split at hk <;> cases hk
  next j _ _ =>
    refine ends_awaken fun b _ => ?_
    cases j with
    | write rest n => exact ends_writeLoop n rest (Set.empty_subset _)
    | read n => exact ends_readLoop n
  · exact ends_acquire fun b _ => ends_writeLoop _ _ (Set.empty_subset _)
  · exact ends_acquire fun b _ => ends_readLoop _
  · exact ends_pipeclose _
  · exact takes_kill (Or.inl rfl)

/-! ## Runs -/

theorem carries_run {β : Type} {o : Op β} (hpre : (rules watch).pre β o b)
    (h : b.ring.Carries PIPESIZE b.stored b.taken) :
    (run β o b).2.ring.Carries PIPESIZE (run β o b).2.stored (run β o b).2.taken := by
  cases o with
  | look => exact h
  | ret r => exact h
  | close w => cases w <;> exact h
  | put c =>
    have hfull : ¬ b.ring.Full PIPESIZE := hpre
    rw [h.full_iff (by decide)] at hfull
    have hfits := h.fits
    have hlt : b.stored.length < b.taken.length + PIPESIZE := by omega
    exact h.push (by decide) hlt
  | take =>
    have hempty : ¬ b.ring.Empty := hpre
    rw [h.empty_iff (by decide)] at hempty
    refine h.pop (by decide) (Nat.lt_of_not_le fun hge => ?_)
    exact hempty (h.initial.eq_of_length_le hge)

variable {bytes : ℕ → UInt8} {killed : ℕ → Bool} {m : Machine}

theorem certified_of_runs (h : Runs (Allowed (rules watch)) bytes killed m) :
    Certified (protocol run (rules watch)) (Sound (rules watch)) .idle m := by
  refine certified trivial ?_ (fun _ _ _ hpre _ => carries_run hpre)
    (fun _ _ _ => ends_of_starts) h
  exact Ring.carries_nil rfl rfl

/-- The bytes that readers take are the bytes that writers stored, in that order; what is
not yet taken is in the buffer; and a read of some bytes returns `0` only at the end. -/
theorem pipe_fifo (bytes : ℕ → UInt8) (killed : ℕ → Bool) (m : Machine)
    (h : Runs (fun _ _ _ _ => True) bytes killed m) :
    m.state.res.taken <+: m.state.res.stored ∧
      (m.state.res.ring.wr - m.state.res.ring.rd).toNat ≤ PIPESIZE ∧
      m.state.res.stored = m.state.res.taken ++ m.state.res.ring.contents PIPESIZE ∧
      ∀ p n k, m.prog p = some (.act (.left (.ret (.read n 0))) k) → 0 < n →
        m.state.res.writeopen = false ∧ m.state.res.taken = m.state.res.stored := by
  have hcert : Certified (protocol run (rules false)) (Sound (rules false)) .idle m := by
    refine certified_of_runs (h.mono ?_)
    intro β p a s _ o _
    refine ⟨trivial, fun c hc => ?_⟩
    cases o with
    | ret x => cases x <;> first | exact absurd hc.1 Bool.false_ne_true | exact hc.elim
    | look | put | take | close => exact hc.elim
  have hring := always_of_certified hcert
  refine ⟨hring.initial, ?_, ?_, ?_⟩
  · rw [hring.toNat_sub (by decide)]
    have := hring.fits
    omega
  · rw [hring.contents (by decide) (by decide)]
    exact (List.prefix_iff_eq_append.1 hring.initial).symm
  · intro p n k hp hn
    obtain ⟨he, hw⟩ := pre_of_certified hcert hp hn rfl
    exact ⟨hw, (hring.empty_iff (by decide)).1 he⟩

def twoMoves : List (Move ℕ Call) :=
  [.call 0 (.write (fun i => UInt8.ofNat (7 + i)) 2), .run 0 11, .call 1 (.read 1), .run 1 9]

theorem pipe_fifo_two :
    ∃ m : Machine, m.state.res.stored = [7, 8] ∧ m.state.res.taken = [7] ∧
      m.state.res.taken <+: m.state.res.stored ∧
      m.state.res.stored = m.state.res.taken ++ m.state.res.ring.contents PIPESIZE := by
  have hplay : (played (fun _ _ _ _ => True) twoMoves fun m =>
      m.state.res.stored == [7, 8] && m.state.res.taken == [7]) = true := by
    decide +kernel
  obtain ⟨m, hm, h⟩ := exists_run hplay
  simp only [Bool.and_eq_true, beq_iff_eq] at h
  have hfifo := pipe_fifo _ _ m hm
  exact ⟨m, h.1, h.2, hfifo.1, hfifo.2.2.1⟩

end Qwin.Pipe
