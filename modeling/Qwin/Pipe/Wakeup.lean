import Qwin.Pipe.Fifo

/-!
# Sleepers of a pipe

Whoever sleeps on a pipe, or is about to, has a reason: the pipe is empty and has a
writer, or it is full and has a reader. A process that takes the reason away holds the lock
and owes a wake-up. `pipewrite` does not pay that debt when it gives up in its loop: it
returns after it stored bytes without waking the readers.
-/

namespace Qwin.Pipe

open Prog Monitor Threads

/-- When `pipewrite` gives up, no reader sleeps. -/
def NoReaderSleeps : (β : Type) → ℕ → Act β → State Buffer Chan Job → Prop
  | _, _, .left (.ret .gaveUp), s => ∀ q, ¬ s.Sleeps .nread q
  | _, _, _, _ => True

theorem allowed_of_noReaderSleeps (β : Type) (p : ℕ) (a : Act β) (s : State Buffer Chan Job)
    (h : NoReaderSleeps β p a s) : Allowed (rules true) β p a s := by
  rintro o rfl
  refine ⟨trivial, fun c hc => ?_⟩
  cases o with
  | ret x =>
    cases x with
    | gaveUp =>
      obtain ⟨-, rfl⟩ := hc
      exact h
    | wrote | read | closed => exact hc.elim
  | look | put | take | close => exact hc.elim

/-- If no reader sleeps whenever `pipewrite` gives up, then while the lock of the pipe is
free every sleeper has its reason to sleep. -/
theorem no_stuck_sleeper (bytes : ℕ → UInt8) (killed : ℕ → Bool) (m : Machine)
    (h : Runs NoReaderSleeps bytes killed m) (hfree : m.state.lock = none) (p : ℕ) :
    (m.state.status p = .asleep .nread →
      m.state.res.ring.rd = m.state.res.ring.wr ∧ m.state.res.writeopen = true) ∧
    (m.state.status p = .asleep .nwrite →
      m.state.res.ring.wr = m.state.res.ring.rd + BitVec.ofNat 32 PIPESIZE ∧
        m.state.res.readopen = true) := by
  have hcert := certified_of_runs (h.mono allowed_of_noReaderSleeps)
  exact ⟨fun hp => waits_of_certified hcert hfree hp rfl,
    fun hp => waits_of_certified hcert hfree hp rfl⟩

/-- `pipewrite` does not give up. -/
def keepsOn : (β : Type) → Act β → Bool
  | _, .left (.ret .gaveUp) => false
  | _, _ => true

theorem noReaderSleeps_of_keepsOn (β : Type) (p : ℕ) (a : Act β) (s : State Buffer Chan Job)
    (h : keepsOn β a = true) : NoReaderSleeps β p a s := by
  unfold NoReaderSleeps
  split
  · cases h
  · trivial

def readMoves : List (Move ℕ Call) := [.call 1 (.read 1), .run 1 7]

theorem no_stuck_sleeper_reader :
    ∃ m : Machine, Runs NoReaderSleeps (fun _ => 0) (fun _ => false) m ∧
      m.state.lock = none ∧ m.state.status 1 = .asleep .nread ∧
      m.state.res.ring.rd = m.state.res.ring.wr ∧ m.state.res.writeopen = true := by
  have hplay : (played (fun β _ a _ => keepsOn β a) readMoves fun m =>
      m.state.lock == none && m.state.status 1 == .asleep .nread) = true := by
    decide +kernel
  obtain ⟨m, hkept, h⟩ := exists_run hplay
  simp only [Bool.and_eq_true, beq_iff_eq] at h
  have hm := hkept.mono noReaderSleeps_of_keepsOn
  have hrest := no_stuck_sleeper _ _ m hm h.1 1
  exact ⟨m, hm, h.1, h.2, hrest.1 h.2⟩

/-- The reader falls asleep. A writer of 513 bytes fills the pipe, is killed, and gives
up. -/
def killMoves : List (Move ℕ Call) :=
  readMoves ++ [.call 0 (.write (fun _ => 0) 513), .run 0 1026, .call 2 (.kill 0), .run 2 4,
    .run 0 3]

/-- The reader sleeps on although the pipe is full and its lock is free. -/
theorem reader_sleeps_at_full_pipe :
    ∃ m : Machine, Runs (fun _ _ _ _ => True) (fun _ => 0) (fun _ => false) m ∧
      m.state.lock = none ∧ m.state.status 1 = .asleep .nread ∧
      m.state.res.ring.rd ≠ m.state.res.ring.wr := by
  have hplay : (played (fun _ _ _ _ => True) killMoves fun m =>
      m.state.lock == none && (m.state.status 1 == .asleep .nread &&
        m.state.res.ring.rd != m.state.res.ring.wr)) = true := by
    decide +kernel
  obtain ⟨m, hm, h⟩ := exists_run hplay
  simp only [Bool.and_eq_true, beq_iff_eq, bne_iff_ne] at h
  exact ⟨m, hm, h.1, h.2⟩

end Qwin.Pipe
