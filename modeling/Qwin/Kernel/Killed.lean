import Qwin.Kernel.Ticks
import Qwin.Lib.Sleepers
import Qwin.Pipe.Basic
import Qwin.Tty.Basic

/-!
# Kills and the calls that sleep

`piperead`, `pipewrite`, `ttyread` and `sys_sleep` test `proc->killed` under the lock of the
pipe, of the terminal or of the clock, and `sleep` takes `ptable.lock` after that. A `kill` that
holds `ptable.lock` in between finds a process that is not `SLEEPING` yet. These are the only
kills that are slept through.
-/

namespace Qwin

open Prog Threads Sleepers
open Function (update_of_ne)

/-! ## Monitors -/

namespace Monitor

variable {Op : Type → Type} {R C J : Type}

def Sync.kind {β : Type} : Sync C J β → Kind β
  | .killed => .test
  | .sched _ _ => .sleep
  | .kill q => .kill q
  | _ => .other

def sleepers (Op : Type → Type) (R C J : Type) : Sleepers (Plus Op (Sync C J)) (State R C J) where
  kind _ a := match a with
    | .left _ => .other
    | .right a => a.kind
  killed s := s.killed
  Asleep s q := ∃ c, s.status q = .asleep c

theorem sync_effect [DecidableEq C] {β : Type} {p : ℕ} {a : Sync C J β} {s s' : State R C J} {r : β}
    (hx : a.exec p s = .ok (r, s')) : (sleepers Op R C J).Effect p s s' r a.kind := by
  cases a with
  | acquire | acquireTable | resume =>
    simp only [Sync.exec] at hx
    split at hx <;> cases hx
    exact ⟨rfl, fun _ h => h⟩
  | release | releaseTable | dispose =>
    cases hx
    exact ⟨rfl, fun _ h => h⟩
  | killed =>
    cases hx
    exact ⟨rfl, rfl, fun _ h => h⟩
  | wakeup1 c =>
    cases hx
    refine ⟨rfl, fun q hq => hq.imp fun c' hq => ?_⟩
    dsimp only at hq
    split at hq
    · cases hq
    · exact hq
  | letGo c =>
    cases hx
    refine ⟨rfl, fun q hq => hq.imp fun c' hq => ?_⟩
    have hne : q ≠ p := by
      rintro rfl
      simp at hq
    simpa [update_of_ne hne] using hq
  | sched c j =>
    cases hx
    refine ⟨rfl, fun q hq => or_iff_not_imp_left.2 fun hne => hq.imp fun c' hq => ?_⟩
    simpa [update_of_ne hne] using hq
  | kill k =>
    cases hx
    refine ⟨rfl, fun q hq => ?_⟩
    obtain ⟨c', hq⟩ := hq
    dsimp only at hq
    split at hq
    next c hc =>
      split at hq
      · cases hq
      next hne => exact ⟨hne, c, hc⟩
    next hno => exact absurd hq (hno c')

theorem lawful_sleepers [DecidableEq C] {run : (β : Type) → Op β → R → β × R} :
    (sleepers Op R C J).Lawful (sem run) := by
  intro β p a s r s' hx
  cases a with
  | left o =>
    cases hx
    exact ⟨rfl, fun _ h => h⟩
  | right a => exact sync_effect hx

section Programs

variable {t : Bool} {c : C} {j : J} {q : ℕ}

theorem wary_wakeup : Takes (sleepers Op R C J).protocol t t (wakeup c) :=
  follows_step trivial fun _ => follows_step trivial fun _ => follows_step trivial fun _ => rfl

theorem wary_sleep : Takes (sleepers Op R C J).protocol true false (sleep c j) :=
  follows_step trivial fun _ => follows_step trivial fun _ => follows_step rfl fun _ => rfl

theorem wary_kill : Takes (sleepers Op R C J).protocol t t (kill q) :=
  follows_step trivial fun _ => follows_step trivial fun _ => follows_step trivial fun _ => rfl

theorem wary_awaken {rest : Prog (Plus Op (Sync C J)) Unit}
    (h : Takes (sleepers Op R C J).protocol false false rest) :
    Takes (sleepers Op R C J).protocol false false (awaken rest) :=
  follows_step trivial fun _ => follows_step trivial fun _ => follows_step trivial fun _ => h

end Programs

end Monitor

/-! ## The terminal -/

namespace Tty

open Monitor
open Chars (ch)

abbrev sleepers : Sleepers Act (State Input Unit Job) := Monitor.sleepers Op Input Unit Job

theorem wary_finish {n : ℕ} {k : ℤ} : Takes sleepers.protocol false false (finish n k) :=
  follows_step trivial fun _ => follows_step trivial fun _ => rfl

theorem wary_readLoop {n rest : ℕ} (h : rest ≤ n) :
    Takes sleepers.protocol false false (readLoop n rest h) := by
  induction rest with
  | zero => exact wary_finish
  | succ rest ih =>
    refine follows_step trivial fun empty => ?_
    cases empty with
    | true =>
      refine follows_step trivial fun killed => ?_
      cases killed with
      | true => exact wary_finish
      | false => exact wary_sleep
    | false =>
      refine follows_step trivial fun c => ?_
      change Takes _ _ _ (if c = ctrl 'D' then _ else if c = ch '\n' then _ else _)
      split_ifs
      · exact wary_finish
      · exact wary_finish
      · exact ih _

theorem wary_killcur {q : Option ℕ} : Takes sleepers.protocol false false (killcur q) := by
  cases q with
  | some q => exact wary_kill
  | none => exact follows_step trivial fun _ => follows_step trivial fun _ => rfl

theorem wary_intrLoop (cs : List (UInt8 × Option ℕ)) :
    Takes sleepers.protocol false false (intrLoop cs) := by
  induction cs with
  | nil => exact follows_step trivial fun _ => rfl
  | cons x cs ih =>
    obtain ⟨c, q⟩ := x
    refine follows_step trivial fun complete => ?_
    change Takes _ _ _ (if c = ctrl 'C' then _ else if complete = true then _ else _)
    split_ifs
    · exact wary_killcur.bind fun _ => ih
    · exact wary_wakeup.bind fun _ => ih
    · exact ih

theorem wary_of_starts {p : ℕ} {s : State Input Unit Job} {c : Prog Act Unit} (h : Starts p s c) :
    Takes sleepers.protocol false false c := by
  obtain ⟨k, hk⟩ := h
  unfold enter at hk
  split at hk <;> cases hk
  · exact wary_awaken (wary_readLoop _)
  · exact follows_step trivial fun _ => wary_readLoop _
  · exact follows_step trivial fun _ => wary_intrLoop _
  · exact wary_kill

end Tty

/-! ## The clock -/

namespace Ticks

open Monitor

abbrev sleepers : Sleepers Act (State Clock Unit Job) := Monitor.sleepers Op Clock Unit Job

theorem wary_finish {r : BitVec 32} : Takes sleepers.protocol false false (finish r) :=
  follows_step trivial fun _ => follows_step trivial fun _ => rfl

theorem wary_sleepLoop (j : Job) : Takes sleepers.protocol false false (sleepLoop j) := by
  refine follows_step trivial fun ticks => ?_
  change Takes _ _ _ (if ticks - j.ticks0 < j.n then _ else _)
  split
  · refine follows_step trivial fun killed => ?_
    cases killed with
    | true => exact wary_finish
    | false => exact wary_sleep
  · exact wary_finish

theorem wary_of_starts {p : ℕ} {s : State Clock Unit Job} {c : Prog Act Unit} (h : Starts p s c) :
    Takes sleepers.protocol false false c := by
  obtain ⟨k, hk⟩ := h
  unfold enter at hk
  split at hk <;> cases hk
  · exact wary_awaken (wary_sleepLoop _)
  · exact follows_step trivial fun _ => follows_step trivial fun _ => wary_sleepLoop _
  · exact follows_step trivial fun _ => follows_step trivial fun _ => wary_finish
  · exact follows_step trivial fun _ => follows_step trivial fun _ =>
      wary_wakeup.bind fun _ => follows_step trivial fun _ => rfl
  · exact wary_kill

end Ticks

/-! ## Pipes -/

namespace Pipe

open Monitor

abbrev sleepers : Sleepers Act (State Buffer Chan Job) := Monitor.sleepers Op Buffer Chan Job

theorem wary_finish {r : Return} : Takes sleepers.protocol false false (finish r) :=
  follows_step trivial fun _ => follows_step trivial fun _ => rfl

theorem wary_writeLoop (n : ℤ) (src : List UInt8) :
    Takes sleepers.protocol false false (writeLoop n src) := by
  induction src with
  | nil => exact wary_wakeup.bind fun _ => wary_finish
  | cons c rest ih =>
    refine follows_step trivial fun v => ?_
    change Takes _ _ _ (if v.Full then _ else _)
    split
    · unfold givesUp
      split
      · refine follows_step trivial fun killed => ?_
        cases killed with
        | true => exact wary_finish
        | false => exact wary_wakeup.bind fun _ => wary_sleep
      · exact wary_finish
    · exact follows_step trivial fun _ => ih

theorem wary_copyLoop (n : ℤ) (m : ℕ) (i : ℤ) :
    Takes sleepers.protocol false false (copyLoop n m i) := by
  induction m generalizing i with
  | zero => exact wary_wakeup.bind fun _ => wary_finish
  | succ m ih =>
    refine follows_step trivial fun v => ?_
    change Takes _ _ _ (if v.Empty then _ else _)
    split
    · exact wary_wakeup.bind fun _ => wary_finish
    · exact follows_step trivial fun _ => ih (i + 1)

theorem wary_readLoop (n : ℤ) : Takes sleepers.protocol false false (readLoop n) := by
  refine follows_step trivial fun v => ?_
  change Takes _ _ _ (if v.Empty ∧ v.writeopen = true then _ else _)
  split
  · refine follows_step trivial fun killed => ?_
    cases killed with
    | true => exact wary_finish
    | false => exact wary_sleep
  · exact wary_copyLoop n _ 0

theorem wary_pipeclose (writable : Bool) :
    Takes sleepers.protocol false false (pipeclose writable) := by
  refine follows_step trivial fun _ => follows_step trivial fun _ => wary_wakeup.bind fun _ =>
    follows_step trivial fun v => ?_
  change Takes _ _ _ (if v.readopen = false ∧ v.writeopen = false then _ else _)
  split
  · exact wary_finish.bind fun _ => follows_step trivial fun _ => rfl
  · exact wary_finish

theorem wary_of_starts {p : ℕ} {s : State Buffer Chan Job} {c : Prog Act Unit} (h : Starts p s c) :
    Takes sleepers.protocol false false c := by
  obtain ⟨k, hk⟩ := h
  unfold enter at hk
  split at hk <;> cases hk
  next j _ _ =>
    refine wary_awaken ?_
    cases j with
    | write rest n => exact wary_writeLoop n rest
    | read n => exact wary_readLoop n
  · exact follows_step trivial fun _ => wary_writeLoop _ _
  · exact follows_step trivial fun _ => wary_readLoop _
  · exact wary_pipeclose _
  · exact wary_kill

end Pipe

/-! ## All calls that sleep -/

/-- Where no process is killed between its test of `proc->killed` and its sleep, no process that
is killed sleeps in `piperead`, `pipewrite`, `ttyread` or `sys_sleep`. -/
theorem killed_not_asleep (killed : ℕ → Bool) :
    (∀ bytes m, Pipe.sleepers.Runs (Monitor.sem Pipe.run) Pipe.Starts Pipe.sleepers.Timely
        (Pipe.initial bytes killed) m →
      ∀ q c, m.state.1.status q = .asleep c → m.state.1.killed q = false) ∧
    (∀ bytes m, Tty.sleepers.Runs (Monitor.sem Tty.run) Tty.Starts Tty.sleepers.Timely
        (Monitor.State.start (Tty.Input.start bytes) killed) m →
      ∀ q c, m.state.1.status q = .asleep c → m.state.1.killed q = false) ∧
    ∀ m, Ticks.sleepers.Runs (Monitor.sem Ticks.run) Ticks.Starts Ticks.sleepers.Timely
        (Ticks.initial killed) m →
      ∀ q c, m.state.1.status q = .asleep c → m.state.1.killed q = false := by
  refine ⟨fun bytes m h q c hq => ?_, fun bytes m h q c hq => ?_, fun m h q c hq => ?_⟩
  · exact safe_of_runs Monitor.lawful_sleepers (fun _ _ _ => Pipe.wary_of_starts)
      (fun _ ⟨_, hc⟩ => nomatch hc) h q (Or.inr ⟨c, hq⟩)
  · exact safe_of_runs Monitor.lawful_sleepers (fun _ _ _ => Tty.wary_of_starts)
      (fun _ ⟨_, hc⟩ => nomatch hc) h q (Or.inr ⟨c, hq⟩)
  · exact safe_of_runs Monitor.lawful_sleepers (fun _ _ _ => Ticks.wary_of_starts)
      (fun _ ⟨_, hc⟩ => nomatch hc) h q (Or.inr ⟨c, hq⟩)

/-- Processes `0` and `1` sleep in each of the calls, then process `0` is killed and wakes up. -/
theorem killed_not_asleep_sample :
    (∃ m, Pipe.sleepers.Runs (Monitor.sem Pipe.run) Pipe.Starts Pipe.sleepers.Timely
        (Pipe.initial (fun _ => 0) fun _ => false) m ∧
      m.state.1.status 1 = .asleep .nread ∧ m.state.1.killed 1 = false ∧
      m.state.1.status 0 = .awake ∧ m.state.1.killed 0 = true) ∧
    (∃ m, Tty.sleepers.Runs (Monitor.sem Tty.run) Tty.Starts Tty.sleepers.Timely
        (Monitor.State.start (Tty.Input.start fun _ => 0) fun _ => false) m ∧
      m.state.1.status 1 = .asleep () ∧ m.state.1.killed 1 = false ∧
      m.state.1.status 0 = .awake ∧ m.state.1.killed 0 = true) ∧
    ∃ m, Ticks.sleepers.Runs (Monitor.sem Ticks.run) Ticks.Starts Ticks.sleepers.Timely
        (Ticks.initial fun _ => false) m ∧
      m.state.1.status 1 = .asleep () ∧ m.state.1.killed 1 = false ∧
      m.state.1.status 0 = .awake ∧ m.state.1.killed 0 = true := by
  obtain ⟨hpipe, htty, hticks⟩ := killed_not_asleep fun _ => false
  refine ⟨?_, ?_, ?_⟩
  · have hplay : Pipe.sleepers.played (Monitor.sem Pipe.run) Pipe.sleepers.Timely
        (Pipe.initial (fun _ => 0) fun _ => false) Pipe.enter
        [.call 0 (.read 1), .run 0 7, .call 1 (.read 1), .run 1 7, .call 2 (.kill 0), .run 2 4]
        (fun m => decide (m.state.1.status 1 = .asleep .nread ∧
          m.state.1.status 0 = .awake ∧ m.state.1.killed 0 = true)) = true := by
      decide +kernel
    obtain ⟨m, hm, h⟩ := exists_runs hplay
    obtain ⟨h1, h0⟩ := of_decide_eq_true h
    exact ⟨m, hm, h1, hpipe _ m hm 1 _ h1, h0⟩
  · have hplay : Tty.sleepers.played (Monitor.sem Tty.run) Tty.sleepers.Timely
        (Monitor.State.start (Tty.Input.start fun _ => 0) fun _ => false) Tty.enter
        [.call 0 (.read 1), .run 0 7, .call 1 (.read 1), .run 1 7, .call 2 (.kill 0), .run 2 4]
        (fun m => decide (m.state.1.status 1 = .asleep () ∧
          m.state.1.status 0 = .awake ∧ m.state.1.killed 0 = true)) = true := by
      decide +kernel
    obtain ⟨m, hm, h⟩ := exists_runs hplay
    obtain ⟨h1, h0⟩ := of_decide_eq_true h
    exact ⟨m, hm, h1, htty _ m hm 1 _ h1, h0⟩
  · have hplay : Ticks.sleepers.played (Monitor.sem Ticks.run) Ticks.sleepers.Timely
        (Ticks.initial fun _ => false) Ticks.enter
        [.call 0 (.sleep 1), .run 0 8, .call 1 (.sleep 2), .run 1 8, .call 2 (.kill 0), .run 2 4]
        (fun m => decide (m.state.1.status 1 = .asleep () ∧
          m.state.1.status 0 = .awake ∧ m.state.1.killed 0 = true)) = true := by
      decide +kernel
    obtain ⟨m, hm, h⟩ := exists_runs hplay
    obtain ⟨h1, h0⟩ := of_decide_eq_true h
    exact ⟨m, hm, h1, hticks m hm 1 _ h1, h0⟩

/-- A process reads `proc->killed` in `piperead`, is killed, and goes to sleep. -/
theorem piperead_sleeps_killed :
    ∃ m, Pipe.sleepers.Runs (Monitor.sem Pipe.run) Pipe.Starts (fun _ _ _ _ => True)
        (Pipe.initial (fun _ => 0) fun _ => false) m ∧
      m.state.1.status 0 = .asleep .nread ∧ m.state.1.killed 0 = true := by
  have hplay : Pipe.sleepers.played (Monitor.sem Pipe.run) (fun _ _ _ _ => True)
      (Pipe.initial (fun _ => 0) fun _ => false) Pipe.enter
      [.call 0 (.read 1), .run 0 3, .call 1 (.kill 0), .run 1 4, .run 0 4] (fun m =>
        decide (m.state.1.status 0 = .asleep .nread) && m.state.1.killed 0) = true := by
    decide +kernel
  obtain ⟨m, hm, h⟩ := exists_runs hplay
  rw [Bool.and_eq_true, decide_eq_true_eq] at h
  exact ⟨m, hm, h⟩

end Qwin
