import Qwin.Proc.LifeCycle

/-!
# `kill` and the slots it finds

`kill` takes the first slot with the pid it is given, whatever the state of the slot: a
free slot has the pid `0`, or the one of a `fork` that failed. `killed` is reset by `wait`
only, so a process that is made in such a slot later is killed before it runs. When every
`kill` finds a process whose `fork` is over, or nothing, this does not happen.
-/

namespace Qwin.Sched

def Event.victim (s : State) : Event → Option ℤ
  | .kill pid => some pid
  | .killcur => s.current.map fun i => (s.proc i).pid
  | _ => none

/-- If the event is a `kill` that finds a slot, then the slot holds a process whose `fork`
is over. -/
def KillsProcess (s : State) (e : Event) : Prop :=
  ∀ pid ∈ e.victim s, ∀ i ∈ s.killTarget pid, Complete (s.proc i).state

instance (s : State) (e : Event) : Decidable (KillsProcess s e) :=
  inferInstanceAs (Decidable (∀ pid ∈ e.victim s, ∀ i ∈ s.killTarget pid, _ ∧ _))

/-- A slot without a process is not marked as killed. -/
def FreshUnkilled (s : State) : Prop :=
  ∀ i, ¬ Complete (s.proc i).state → (s.proc i).killed = false

section Events

variable {s s' : State} {c p np i : ℕ}

theorem killTarget_spec {pid : ℤ} (h : s.killTarget pid = some i) : (s.proc i).pid = pid := by
  have hp := List.find?_some h
  simpa using hp

theorem killed_kill (s : State) (pid : ℤ) (j : ℕ) :
    (((s.kill pid).2).proc j).killed =
      if s.killTarget pid = some j then true else (s.proc j).killed := by
  change ((s.table.kill pid).proc j).killed = _
  unfold Ptable.kill State.killTarget
  cases (List.range NPROC).find? fun i => (s.table.proc i).pid = pid with
  | none => rfl
  | some i =>
    dsimp only
    rw [Ptable.modify_proc]
    by_cases hj : j = i
    · subst hj
      rw [if_pos rfl, if_pos rfl]
    · rw [if_neg hj, if_neg]
      exact fun he => hj (Option.some.inj he).symm

/-- No slot is marked, and no slot becomes free that was marked. -/
def KeepsMarks (t t' : Ptable) : Prop :=
  ∀ j, (t'.proc j).killed = false ∨ (t'.proc j).killed = (t.proc j).killed ∧
    (¬ Complete (t'.proc j).state → ¬ Complete (t.proc j).state)

theorem KeepsMarks.refl (t : Ptable) : KeepsMarks t t := fun _ => Or.inr ⟨rfl, id⟩

variable {t : Ptable}

theorem KeepsMarks.trans {t1 t2 : Ptable} (h : KeepsMarks t t1) (h' : KeepsMarks t1 t2) :
    KeepsMarks t t2 := by
  intro j
  rcases h' j with h2 | ⟨h2, hc2⟩
  · exact Or.inl h2
  · rcases h j with h1 | ⟨h1, hc1⟩
    · exact Or.inl (h2.trans h1)
    · exact Or.inr ⟨h2.trans h1, fun hc => hc1 (hc2 hc)⟩

theorem KeepsMarks.freshUnkilled (h : KeepsMarks s.table s'.table) (hs : FreshUnkilled s) :
    FreshUnkilled s' := by
  intro j hj
  rcases h j with h1 | ⟨h1, hc⟩
  · exact h1
  · exact h1.trans (hs j (hc hj))

theorem keepsMarks_modify {f : Proc → Proc}
    (hf : (f (t.proc i)).killed = false ∨ (f (t.proc i)).killed = (t.proc i).killed ∧
      (¬ Complete (f (t.proc i)).state → ¬ Complete (t.proc i).state)) :
    KeepsMarks t (t.modify i f) := by
  intro j
  rw [Ptable.modify_proc]
  by_cases hj : j = i
  · rw [if_pos hj, hj]
    exact hf
  · rw [if_neg hj]
    exact Or.inr ⟨rfl, id⟩

theorem keepsMarks_setState {x : ProcState}
    (hx : ¬ Complete x → ¬ Complete (s.proc i).state) : KeepsMarks s.table (s.setState i x).table :=
  keepsMarks_modify (t := s.table) (f := fun q => { q with state := x }) (Or.inr ⟨rfl, hx⟩)

theorem keepsMarks_complete {x : ProcState} (hx : Complete x) :
    KeepsMarks s.table (s.setState i x).table :=
  keepsMarks_setState fun hc => absurd hx hc

theorem keepsMarks_wakeup1 (s : State) (o : Option Chan) :
    KeepsMarks s.table (s.wakeup1 o).table := by
  intro j
  change (s.woken o j).killed = false ∨ (s.woken o j).killed = _ ∧ (¬ Complete (s.woken o j).state → _)
  rw [State.woken]
  split
  · refine Or.inr ⟨rfl, fun hc => absurd ?_ hc⟩
    exact ⟨by simp, by simp⟩
  · exact Or.inr ⟨rfl, id⟩

theorem keepsMarks_exit {t' : Ptable} (h : t.exit p = .ok t') : KeepsMarks t t' := by
  unfold Ptable.exit at h
  split at h
  · cases h
  · cases h
    intro j
    refine Or.inr ⟨?_, fun hc hold => hc ?_⟩
    · by_cases hj : j = p
      · by_cases hpar : (t.proc p).parent = some p <;> simp [hj, hpar]
      · by_cases hpar : (t.proc j).parent = some p <;> simp [hj, hpar]
    · by_cases hj : j = p
      · simp [hj, Complete]
      · by_cases hpar : (t.proc j).parent = some p <;> simpa [hj, hpar] using hold

theorem keepsMarks_waitLoop (s : State) (c p : ℕ) :
    KeepsMarks s.table (s.waitLoop c p).2.table := by
  unfold State.waitLoop
  split
  next i hz =>
    dsimp only
    rw [table_reap hz]
    exact keepsMarks_modify (Or.inl rfl)
  · split
    · exact KeepsMarks.refl _
    · exact keepsMarks_complete ⟨by simp, by simp⟩

theorem keepsMarks_pick (s : State) (c i : ℕ) : KeepsMarks s.table (s.pick c i).2.table := by
  have hrun : KeepsMarks s.table (s.setState i .running).table :=
    keepsMarks_complete ⟨by simp, by simp⟩
  unfold State.pick
  dsimp only
  split
  · exact hrun
  · exact hrun
  · exact hrun.trans (keepsMarks_waitLoop _ c i)

theorem keepsMarks_forkCopy (t : Ptable) (p np : ℕ) : KeepsMarks t (t.forkCopy p np) := by
  refine keepsMarks_modify (Or.inr ⟨rfl, fun hc => absurd ?_ hc⟩)
  exact ⟨by simp, by simp⟩

theorem keepsMarks_fork (s : State) (p : ℕ) : KeepsMarks s.table (s.fork p).table := by
  cases hslot : s.table.unusedSlot with
  | none =>
    unfold State.fork Ptable.allocproc
    rw [hslot]
    exact KeepsMarks.refl _
  | some np =>
    have hunused := (unusedSlot_spec hslot).2
    have hmod := keepsMarks_modify (i := np) (t := s.table)
      (f := fun q => { q with state := .embryo, pid := s.table.nextpid })
      (Or.inr ⟨rfl, fun _ hc => hc.1 hunused⟩)
    rw [fork_of_slot hslot]
    exact hmod

variable {r : Option ℤ} {e : Event}

theorem keepsMarks_step (h : Sound s)
    (hs : step s e = some (r, s')) (he : e.victim s = none) : KeepsMarks s.table s'.table := by
  cases took_of_step hs with
  | @pick c i _ _ _ _ hp =>
    have hpick := keepsMarks_pick s c i
    rw [hp] at hpick
    exact hpick
  | yield => exact keepsMarks_complete ⟨by simp, by simp⟩
  | sleep => exact keepsMarks_complete ⟨by simp, by simp⟩
  | wakeup => exact keepsMarks_wakeup1 _ _
  | kill => cases he
  | killcur hi => simp [Event.victim, hi] at he
  | fork => exact keepsMarks_fork _ _
  | @forkFail _ _ np hf =>
    exact keepsMarks_setState fun _ hc => hc.2 (h.forks.slot _ np _ hf).2
  | @forkLink _ p =>
    exact keepsMarks_modify (t := s.table) (f := fun q => { q with parent := some p })
      (Or.inr ⟨rfl, id⟩)
  | forkDone => exact keepsMarks_forkCopy _ _ _
  | exit _ _ hx =>
    unfold State.exit at hx
    split at hx
    · cases hx
    next hexit =>
      cases hx
      refine KeepsMarks.trans ?_ (keepsMarks_exit hexit)
      unfold State.exitWakeups
      dsimp only
      split
      · exact (keepsMarks_wakeup1 _ _).trans (keepsMarks_wakeup1 _ _)
      · exact keepsMarks_wakeup1 _ _
  | @wait c p _ _ _ hw =>
    have hwait := keepsMarks_waitLoop s c p
    rw [hw] at hwait
    exact hwait

theorem step_of_victim {pid : ℤ} (he : e.victim s = some pid)
    (hs : step s e = some (r, s')) : r = some (s.kill pid).1 ∧ s' = (s.kill pid).2 := by
  cases e with
  | kill q =>
    cases he
    cases hs
    exact ⟨rfl, rfl⟩
  | killcur =>
    simp only [Event.victim, Option.map_eq_some_iff] at he
    obtain ⟨i, hi, rfl⟩ := he
    simp only [step, hi, Option.map_some] at hs
    cases hs
    exact ⟨rfl, rfl⟩
  | pick | yield | sleep | wakeup | fork | forkFail | forkLink | forkDone | exit | wait => cases he

theorem freshUnkilled_step (h : Sound s) (hf : FreshUnkilled s)
    (hG : KillsProcess s e) (hs : step s e = some (r, s')) : FreshUnkilled s' := by
  cases he : e.victim s with
  | none => exact (keepsMarks_step h hs he).freshUnkilled hf
  | some pid =>
    obtain ⟨-, rfl⟩ := step_of_victim he hs
    have hw := wakes_kill s pid
    intro j hj
    have hold : ¬ Complete (s.proc j).state := by
      intro hc
      refine hj ?_
      rcases hw.states j with heq | ⟨-, hrun⟩
      · change Complete (((s.kill pid).2).states j)
        rw [heq]
        exact hc
      · change Complete (((s.kill pid).2).states j)
        rw [hrun]
        exact ⟨by simp, by simp⟩
    have hmiss : s.killTarget pid ≠ some j := fun ht => hold (hG pid he j ht)
    rw [killed_kill, if_neg hmiss]
    exact hf j hold

end Events

theorem boot_freshUnkilled : FreshUnkilled boot := by
  intro i _
  by_cases hi : i = 0 <;> simp [State.proc, boot, Ptable.boot, Proc.zero, hi]

theorem freshUnkilled_of_reachable {s : State} (h : Reachable KillsProcess s) :
    FreshUnkilled s := by
  induction h with
  | refl => exact boot_freshUnkilled
  | tail h hnext ih =>
    obtain ⟨e, r, hG, hs⟩ := hnext
    exact freshUnkilled_step (sound_of_reachable h) ih hG hs

/-- If every `kill` of the run finds a process whose `fork` is over, or nothing, then a
`kill` that returns `0` has marked one process that has the pid and no other slot, and a
new process is not marked. -/
theorem kill_reaches_live (s : State) (h : Reachable KillsProcess s) (e : Event)
    (hG : KillsProcess s e) (r : Option ℤ) (s' : State) (hs : step s e = some (r, s')) :
    (∀ pid, e.victim s = some pid → r = some 0 →
      ∃ i, (s.proc i).state ≠ .unused ∧ (s.proc i).pid = pid ∧ (s'.proc i).killed = true ∧
        ∀ j, j ≠ i → (s'.proc j).killed = (s.proc j).killed) ∧
    ∀ c p np, e = .forkDone c → s.cpu c = some p → s.forking p = some (np, true) →
      (s'.proc np).state = .runnable ∧ (s'.proc np).killed = false := by
  refine ⟨fun pid he hr => ?_, fun c p np he hc hf => ?_⟩
  · obtain ⟨rfl, rfl⟩ := step_of_victim he hs
    cases ht : s.killTarget pid with
    | none =>
      rw [State.kill, ht] at hr
      simp at hr
    | some i =>
      refine ⟨i, (hG pid he i ht).1, killTarget_spec ht, ?_, fun j hj => ?_⟩
      · rw [killed_kill, if_pos ht]
      · rw [killed_kill, ht, if_neg]
        exact fun heq => hj (Option.some.inj heq).symm
  · subst he
    have hembryo := ((sound_of_reachable h).forks.slot p np true hf).2
    have hkilled : (s.proc np).killed = false :=
      freshUnkilled_of_reachable h np fun hc => hc.2 hembryo
    simp only [step, hc, hf] at hs
    cases hs
    change ((s.table.forkCopy p np).proc np).state = _ ∧ _
    constructor
    · rw [Ptable.forkCopy, Ptable.modify_proc_self]
    · change ((s.table.forkCopy p np).proc np).killed = _
      rw [Ptable.forkCopy, Ptable.modify_proc_self]
      exact hkilled

theorem kill_reaches_live_child :
    ∃ s s', Reachable KillsProcess s ∧ step s (.kill 2) = some (some 0, s') ∧
      ∃ i, (s.proc i).state ≠ .unused ∧ (s.proc i).pid = 2 ∧ (s'.proc i).killed = true ∧
        ∀ j, j ≠ i → (s'.proc j).killed = (s.proc j).killed := by
  have hplay : ((play KillsProcess [.pick 0 0, .fork 0, .forkLink 0, .forkDone 0] boot).any
      fun s => decide (KillsProcess s (.kill 2)) && (s.kill 2).1 == 0) = true := by
    decide +kernel
  obtain ⟨s, hs, h⟩ := exists_of_play hplay
  rw [Bool.and_eq_true, decide_eq_true_eq, beq_iff_eq] at h
  have hstep : step s (.kill 2) = some (some 0, (s.kill 2).2) := by
    rw [step, h.2]
  exact ⟨s, _, hs, hstep,
    (kill_reaches_live s hs _ h.1 _ _ hstep).1 2 rfl rfl⟩

/-- `kill(0)` returns `0` although no process has this pid, and the next process that is
made is marked as killed when it starts. -/
theorem kill_marks_free_slot :
    ∃ s s1 s2, Reachable (fun _ _ => True) s ∧
      (∀ i, i < NPROC → (s.proc i).state ≠ .unused → (s.proc i).pid ≠ 0) ∧
      step s (.kill 0) = some (some 0, s1) ∧
      play (fun _ _ => True) [.fork 0, .forkLink 0, .forkDone 0] s1 = some s2 ∧
      (s.proc 1).state = .unused ∧ (s2.proc 1).state = .runnable ∧
      (s2.proc 1).killed = true := by
  have hplay : ((play (fun _ _ => True) [.pick 0 0] boot).any fun s =>
      ((List.range NPROC).all fun i => (s.proc i).state == .unused || (s.proc i).pid != 0) &&
      ((s.kill 0).1 == 0 && ((s.proc 1).state == .unused &&
      ((play (fun _ _ => True) [.fork 0, .forkLink 0, .forkDone 0] (s.kill 0).2).any fun s2 =>
        (s2.proc 1).state == .runnable && (s2.proc 1).killed)))) = true := by decide +kernel
  obtain ⟨s, hs, h⟩ := exists_of_play hplay
  simp only [Bool.and_eq_true, beq_iff_eq, Option.any_eq_true, List.all_eq_true, List.mem_range,
    Bool.or_eq_true, bne_iff_ne] at h
  obtain ⟨hall, hret, hunused, s2, hplay2, hst, hk⟩ := h
  have hstep : step s (.kill 0) = some (some 0, (s.kill 0).2) := by
    rw [step, hret]
  exact ⟨s, _, s2, hs, fun i hi hu => (hall i hi).resolve_left hu, hstep, hplay2, hunused, hst,
    hk⟩

end Qwin.Sched
