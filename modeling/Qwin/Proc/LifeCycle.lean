import Qwin.Proc.Invariant

/-!
# The life cycle of a process

Every event keeps the invariant, so it holds in every state that events lead to. A slot
leaves the state `ZOMBIE` in the `wait` of its parent and nowhere else.
-/

namespace Qwin.Sched

open Function (update update_of_ne update_self update_eq_self update_apply)

namespace State

/-- The states, and the parents, of all slots. -/
def states (s : State) (i : ℕ) : ProcState := (s.proc i).state

def parents (s : State) (i : ℕ) : Option ℕ := (s.proc i).parent

variable {s : State} {c p np i : ℕ} {f : Proc → Proc}

theorem states_modify : (s.modify i f).states = update s.states i (f (s.proc i)).state := by
  funext j
  rw [states, modify, proc, Ptable.modify_proc]
  by_cases hj : j = i
  · rw [if_pos hj, hj, update_self]
  · rw [if_neg hj, update_of_ne hj]
    rfl

theorem parents_modify : (s.modify i f).parents = update s.parents i (f (s.proc i)).parent := by
  funext j
  rw [parents, modify, proc, Ptable.modify_proc]
  by_cases hj : j = i
  · rw [if_pos hj, hj, update_self]
  · rw [if_neg hj, update_of_ne hj]
    rfl

theorem states_setState {x : ProcState} :
    (s.setState i x).states = update s.states i x := states_modify

theorem parents_setState {x : ProcState} : (s.setState i x).parents = s.parents := by
  rw [setState, parents_modify]
  exact update_eq_self i s.parents

end State

structure Sound (s : State) : Prop where
  placed : Placed s.cpu s.states
  family : Family s.initproc s.states s.parents s.forker
  forks : Forks s.states s.forking s.forker
  waits : Waits s.states s.chan s.parents

theorem boot_sound : Sound boot := by
  have hst : ∀ i, boot.states i = if i = 0 then .runnable else .unused := by
    intro i
    by_cases hi : i = 0 <;> simp [State.states, State.proc, boot, Ptable.boot, Proc.zero, hi]
  have hpar : ∀ i, boot.parents i = none := by
    intro i
    by_cases hi : i = 0 <;> simp [State.parents, State.proc, boot, Ptable.boot, Proc.zero, hi]
  refine ⟨⟨?_, ?_, ?_⟩, ⟨?_, hpar 0, ?_, ?_, ?_⟩, ⟨?_, ?_, ?_⟩, ?_⟩
  · simp [boot]
  · intro i hi
    rw [hst] at hi
    split at hi <;> cases hi
  · simp [boot]
  · rw [hst]
    decide
  · intro i j hij
    rw [hpar] at hij
    cases hij
  · intro i hi hr
    have h0 : ¬ i = 0 := hr
    rw [hst, if_neg h0] at hi
    exact absurd rfl hi.1
  · intro i hi
    rw [hst] at hi
    split at hi
    next h0 =>
      rw [h0]
      decide
    · exact absurd rfl hi
  · simp [boot]
  · simp [boot]
  · simp [boot]
  · intro i j _ hch
    cases hch

section Events

variable {s s' : State} {c p np i : ℕ} {ch : Chan}

/-! ## Events on processors -/

section

variable (h : Sound s)
include h

theorem Sound.live_of_cpu (hc : s.cpu c = some p) : (s.states p).Live :=
  Or.inr (Or.inr (h.placed.runs c p hc))

/-- One process goes from one of the states of a live process to another. -/
theorem Sound.liveChange {x : ProcState} {cpu : ℕ → Option ℕ}
    {chan : ℕ → Option Chan} {context : ℕ → Context} {cur : Option ℕ} (hi : (s.states i).Live)
    (hx : x.Live) (hplaced : Placed cpu (update s.states i x))
    (hwaits : Waits (update s.states i x) chan s.parents) :
    Sound { s.setState i x with cpu, chan, context, current := cur } := by
  have hlives := sameLives_update hi hx
  rw [← State.states_setState] at hplaced hwaits hlives
  rw [← State.parents_setState (i := i) (x := x)] at hwaits
  refine ⟨hplaced, ?_, h.forks.sameLives hlives, hwaits⟩
  change Family s.initproc (s.setState i x).states (s.setState i x).parents s.forker
  rw [State.parents_setState]
  exact h.family.sameLives hlives

theorem sound_run (hc : s.cpu c = none) (hi : (s.proc i).state = .runnable) :
    Sound { s.setState i .running with
      cpu := update s.cpu c (some i)
      current := some i } := by
  have hrun : s.states i ≠ .running := by
    rw [State.states, hi]
    simp
  exact h.liveChange (Or.inr (Or.inl hi)) (Or.inr (Or.inr rfl)) (h.placed.pick hc hrun)
    (h.waits.update (by simp) (by simp))

theorem sound_yield (hc : s.cpu c = some p) : Sound ((s.setState p .runnable).sched c) :=
  h.liveChange (h.live_of_cpu hc) (Or.inr (Or.inl rfl)) (h.placed.drop hc (by simp))
    (h.waits.update (by simp) (by simp))

theorem sound_sleep (hc : s.cpu c = some p) {k : Context}
    (hch : ch = .proc p → ∀ j, s.parents j = some p → s.states j ≠ .zombie) :
    Sound (s.sleep c p ch k) :=
  h.liveChange (h.live_of_cpu hc) (Or.inl rfl) (h.placed.drop hc (by simp)) (h.waits.sleep hch)

end

variable {k : ℕ → Context}

theorem sound_clearChan (h : Sound s) :
    Sound { s with chan := update s.chan i none, context := k } := by
  refine ⟨h.placed, h.family, h.forks, h.waits.mono (fun _ => id) (fun j hj => ?_) fun _ => id⟩
  by_cases hji : j = i
  · rw [hji] at hj
    dsimp only at hj
    rw [update_self] at hj
    cases hj
  · dsimp only at hj
    rwa [update_of_ne hji] at hj

/-! ## Wake-ups -/

/-- The table is changed in one way only: some sleepers can run. -/
structure Wakes (s s' : State) : Prop where
  initproc : s'.initproc = s.initproc
  parents : s'.parents = s.parents
  states : ∀ i, s'.states i = s.states i ∨ s.states i = .sleeping ∧ s'.states i = .runnable
  chan : s'.chan = s.chan
  forking : s'.forking = s.forking
  cpu : s'.cpu = s.cpu
  forker : s'.forker = s.forker

theorem Wakes.eq_of_ne (h : Wakes s s') (hi : s.states i ≠ .sleeping) :
    s'.states i = s.states i := by
  rcases h.states i with he | he
  · exact he
  · exact absurd he.1 hi

theorem Wakes.eq_of_ne' (h : Wakes s s') (hi : s'.states i ≠ .runnable) :
    s.states i = s'.states i := by
  rcases h.states i with he | he
  · exact he.symm
  · exact absurd he.2 hi

theorem Wakes.trans {s1 : State} (h : Wakes s s1) (h' : Wakes s1 s') : Wakes s s' where
  initproc := h'.initproc.trans h.initproc
  parents := h'.parents.trans h.parents
  states i := by
    rcases h.states i with h1 | h1
    · rw [← h1]
      exact h'.states i
    · refine Or.inr ⟨h1.1, ?_⟩
      rw [h'.eq_of_ne (by rw [h1.2]; simp), h1.2]
  chan := h'.chan.trans h.chan
  forking := h'.forking.trans h.forking
  cpu := h'.cpu.trans h.cpu
  forker := h'.forker.trans h.forker

theorem Sound.wakes (h : Sound s) (hw : Wakes s s') : Sound s' := by
  have hlives : SameLives s.states s'.states := by
    intro i
    rcases hw.states i with he | he
    · exact Or.inl he
    · refine Or.inr ?_
      rw [he.1, he.2]
      decide
  refine ⟨?_, ?_, ?_, ?_⟩
  · rw [hw.cpu]
    refine h.placed.congr fun i => ?_
    rcases hw.states i with he | he
    · rw [he]
    · rw [he.1, he.2]
      simp
  · rw [hw.initproc, hw.parents, hw.forker]
    exact h.family.sameLives hlives
  · rw [hw.forking, hw.forker]
    exact h.forks.sameLives hlives
  · rw [hw.chan, hw.parents]
    refine h.waits.mono (fun i hi => ?_) (fun _ => id) (fun i hi => ?_)
    · rw [hw.eq_of_ne' (by rw [hi]; simp), hi]
    · rw [hw.eq_of_ne' (by rw [hi]; simp), hi]

theorem states_wakeup1 (s : State) (o : Option Chan) (i : ℕ) :
    (s.wakeup1 o).states i =
      if s.states i = .sleeping ∧ s.chan i = o then .runnable else s.states i := by
  rw [State.states, State.states]
  change (s.woken o i).state = _
  rw [State.woken, apply_ite Proc.state]

theorem wakes_wakeup1 (s : State) (o : Option Chan) : Wakes s (s.wakeup1 o) := by
  refine ⟨rfl, ?_, fun i => ?_, rfl, rfl, rfl, rfl⟩
  · funext i
    change (s.woken o i).parent = _
    rw [State.woken]
    split <;> rfl
  · rw [states_wakeup1]
    split
    next hs => exact Or.inr ⟨hs.1, rfl⟩
    · exact Or.inl rfl

theorem wakes_kill (s : State) (pid : ℤ) : Wakes s (s.kill pid).2 := by
  refine ⟨?_, ?_, fun i => ?_, rfl, rfl, rfl, rfl⟩
  · change (s.table.kill pid).initproc = _
    unfold Ptable.kill
    split <;> rfl
  · funext i
    change ((s.table.kill pid).proc i).parent = (s.table.proc i).parent
    unfold Ptable.kill
    split
    · rfl
    · rw [Ptable.modify_proc]
      split
      next hi => rw [hi]
      · rfl
  · change ((s.table.kill pid).proc i).state = (s.table.proc i).state ∨
      (s.table.proc i).state = _ ∧ ((s.table.kill pid).proc i).state = _
    unfold Ptable.kill
    split
    · exact Or.inl rfl
    · rw [Ptable.modify_proc]
      split
      next hi =>
        rw [hi]
        dsimp only
        split
        next hsl => exact Or.inr ⟨hsl, rfl⟩
        · exact Or.inl rfl
      · exact Or.inl rfl

/-! ## Events of `fork` -/

variable {t : Ptable}

theorem unusedSlot_spec (h : t.unusedSlot = some np) :
    np < NPROC ∧ (t.proc np).state = .unused := by
  have hmem := List.mem_of_find?_eq_some h
  have hp := List.find?_some h
  exact ⟨List.mem_range.1 hmem, by simpa using hp⟩

theorem fork_of_slot (h : s.table.unusedSlot = some np) :
    s.fork p = { s.modify np (fun q => { q with state := .embryo, pid := s.table.nextpid }) with
      table := { s.table.modify np (fun q =>
        { q with state := .embryo, pid := s.table.nextpid }) with
          nextpid := s.table.nextpid + 1 }
      forking := update s.forking p (some (np, false)) } := by
  unfold State.fork Ptable.allocproc
  rw [h]
  rfl

theorem sound_fork (h : Sound s) (hp : (s.states p).Live) : Sound (s.fork p) := by
  cases hslot : s.table.unusedSlot with
  | none =>
    unfold State.fork Ptable.allocproc
    rw [hslot]
    exact h
  | some np =>
    obtain ⟨hlt, hunused⟩ := unusedSlot_spec hslot
    have hst : s.states np = .unused := hunused
    have hlive : ¬ (s.states np).Live := by
      rw [hst]
      exact not_live_unused
    rw [fork_of_slot hslot]
    have hstates := State.states_modify (s := s) (i := np)
      (f := fun q => { q with state := .embryo, pid := s.table.nextpid })
    have hparents := (State.parents_modify (s := s) (i := np)
      (f := fun q => { q with state := .embryo, pid := s.table.nextpid })).trans
        (update_eq_self np s.parents)
    have hplaced := h.placed.update (i := np) (x := .embryo) (by rw [hst]; simp) (by simp)
    have hfamily := h.family.incomplete (x := .embryo) hlive (fun hc => hc.2 rfl) (fun _ => hlt)
    have hforks := h.forks.alloc hp hst
    have hwaits := h.waits.update (i := np) (x := .embryo) (by simp) (by simp)
    rw [← hstates] at hplaced hfamily hforks hwaits
    rw [← hparents] at hfamily hwaits
    exact ⟨hplaced, hfamily, hforks, hwaits⟩

theorem sound_forkFail (h : Sound s) {b : Bool} (hf : s.forking p = some (np, b)) :
    Sound (s.forkFail p np) := by
  have hst := (h.forks.slot p np b hf).2
  refine ⟨?_, ?_, ?_, ?_⟩
  · change Placed s.cpu (s.setState np .unused).states
    rw [State.states_setState]
    exact h.placed.update (by rw [hst]; simp) (by simp)
  · change Family s.initproc (s.setState np .unused).states (s.setState np .unused).parents s.forker
    rw [State.states_setState, State.parents_setState]
    refine h.family.incomplete ?_ (fun hc => hc.1 rfl) (fun hu => absurd rfl hu)
    rw [hst]
    exact not_live_embryo
  · change Forks (s.setState np .unused).states _ s.forker
    rw [State.states_setState]
    exact h.forks.leave hf
  · change Waits (s.setState np .unused).states s.chan (s.setState np .unused).parents
    rw [State.states_setState, State.parents_setState]
    exact h.waits.update (by simp) (by simp)

theorem sound_forkLink (h : Sound s) (hf : s.forking p = some (np, false)) :
    Sound (s.forkLink p np) := by
  obtain ⟨hp, hst⟩ := h.forks.slot p np false hf
  have hstates : (s.forkLink p np).states = s.states :=
    (State.states_modify (f := fun q => { q with parent := some p })).trans
      (update_eq_self np s.states)
  have hparents : (s.forkLink p np).parents = update s.parents np (some p) :=
    State.parents_modify (f := fun q => { q with parent := some p })
  refine ⟨?_, ?_, ?_, ?_⟩
  · rw [hstates]
    exact h.placed
  · rw [hstates, hparents]
    exact h.family.link hp hst
  · rw [hstates]
    exact h.forks.link hf
  · rw [hstates, hparents]
    exact h.waits.reparent (by rw [hst]; simp)

theorem sound_forkDone (h : Sound s) (hf : s.forking p = some (np, true)) :
    Sound (s.forkDone p np) := by
  obtain ⟨hp, hst⟩ := h.forks.slot p np true hf
  have hstates : (s.forkDone p np).states = update s.states np .runnable :=
    State.states_modify
  have hparents : (s.forkDone p np).parents = update s.parents np (some p) :=
    State.parents_modify
  refine ⟨?_, ?_, ?_, ?_⟩
  · rw [hstates]
    exact h.placed.update (by rw [hst]; simp) (by simp)
  · rw [hstates, hparents]
    exact h.family.done hp hst (h.forks.linked p np hf)
  · rw [hstates]
    exact h.forks.leave hf
  · rw [hstates, hparents]
    exact (h.waits.reparent (by rw [hst]; simp)).update (by simp) (by simp)

/-! ## `exit` and `wait` -/

theorem wakes_exitWakeups (s : State) (p : ℕ) : Wakes s (s.exitWakeups p) := by
  unfold State.exitWakeups
  have h1 := wakes_wakeup1 s ((s.proc p).parent.map .proc)
  dsimp only
  split
  · exact h1.trans (wakes_wakeup1 _ _)
  · exact h1

/-- After the wake-ups of `exit` neither the parent nor, if there is a zombie to be handed
over, the first process sleeps in `wait`. -/
theorem exitWakeups_awake (s : State) (p i : ℕ)
    (hi : s.parents p = some i ∨ i = s.initproc ∧ s.zombieKid p = true)
    (hch : s.chan i = some (.proc i)) : (s.exitWakeups p).states i ≠ .sleeping := by
  have hparent : s.parents p = some i →
      (s.wakeup1 ((s.proc p).parent.map .proc)).states i ≠ .sleeping := by
    intro hp
    have hpar : (s.proc p).parent = some i := hp
    rw [states_wakeup1, hpar]
    split
    · simp
    next hs => exact fun he => hs ⟨he, hch⟩
  unfold State.exitWakeups
  dsimp only
  split
  · rw [states_wakeup1]
    split
    · simp
    next hs =>
      rcases hi with hp | ⟨hinit, -⟩
      · exact hparent hp
      · intro he
        refine hs ⟨he, ?_⟩
        rw [← hinit]
        exact hch
  next hkid =>
    rcases hi with hp | ⟨-, hz⟩
    · exact hparent hp
    · exact absurd hz hkid

theorem table_exit {t' : Ptable} (h : t.exit p = .ok t') :
    p ≠ t.initproc ∧ t'.initproc = t.initproc ∧
      (∀ i, (t'.proc i).state = if i = p then .zombie else (t.proc i).state) ∧
      ∀ i, (t'.proc i).parent =
        if (t.proc i).parent = some p then some t.initproc else (t.proc i).parent := by
  unfold Ptable.exit at h
  split at h
  · cases h
  next hp =>
    cases h
    refine ⟨hp, rfl, fun i => ?_, fun i => ?_⟩
    · by_cases hi : i = p
      · simp [hi]
      · by_cases hpar : (t.proc i).parent = some p <;> simp [hi, hpar]
    · by_cases hi : i = p
      · by_cases hpar : (t.proc p).parent = some p <;> simp [hi, hpar]
      · by_cases hpar : (t.proc i).parent = some p <;> simp [hi, hpar]

theorem exit_eq_some {s' : State} (h : s.exit c p = some s') :
    p ≠ s.initproc ∧ s'.initproc = s.initproc ∧
      s'.states = update (s.exitWakeups p).states p .zombie ∧
      s'.parents = adopt s.initproc p s.parents ∧ s'.cpu = update s.cpu c none ∧
      s'.chan = s.chan ∧ s'.forking = s.forking ∧ s'.forker = s.forker := by
  have hw := wakes_exitWakeups s p
  unfold State.exit at h
  split at h
  · cases h
  next t hexit =>
    cases h
    obtain ⟨hp, hinit, hst, hpar⟩ := table_exit hexit
    have hroot : (s.exitWakeups p).table.initproc = s.initproc := hw.initproc
    rw [hroot] at hp hinit hpar
    refine ⟨hp, hinit, ?_, ?_, ?_, hw.chan, hw.forking, hw.forker⟩
    · funext i
      rw [update_apply]
      exact hst i
    · funext i
      rw [adopt, ← hw.parents]
      exact hpar i
    · rw [← hw.cpu]
      rfl

theorem zombieKid_of {j : ℕ} (hj : j < NPROC) (hp : s.parents j = some p)
    (hz : s.states j = .zombie) : s.zombieKid p = true := by
  rw [State.zombieKid, List.any_eq_true]
  exact ⟨j, List.mem_range.2 hj, by simpa using ⟨hp, hz⟩⟩

theorem sound_exit {s' : State} (h : Sound s) (hc : s.cpu c = some p) (hf : s.forking p = none)
    (he : s.exit c p = some s') : Sound s' := by
  obtain ⟨hp, hinit, hst, hpar, hcpu, hchan, hforking, hforker⟩ := exit_eq_some he
  have hw := wakes_exitWakeups s p
  have h1 := h.wakes hw
  have hcpu1 : (s.exitWakeups p).cpu c = some p := by
    rw [hw.cpu]
    exact hc
  have hrun := h1.placed.runs c p hcpu1
  refine ⟨?_, ?_, ?_, ?_⟩
  · rw [hcpu, hst, ← hw.cpu]
    exact h1.placed.drop hcpu1 (by simp)
  · have hfam := h1.family
    rw [hw.initproc, hw.parents, hw.forker] at hfam
    rw [hinit, hst, hpar, hforker]
    exact hfam.exit (Or.inr (Or.inr hrun)) hp
  · have hforks := h1.forks
    rw [hw.forking, hw.forker] at hforks
    rw [hst, hforking, hforker]
    exact hforks.update hf (by rw [hrun]; simp)
  · rw [hst, hchan, hpar]
    intro i j hi hch hj hz
    have hip : i ≠ p := by
      rintro rfl
      rw [update_self] at hi
      cases hi
    rw [update_of_ne hip] at hi
    have hnot : ¬ (s.parents p = some i ∨ i = s.initproc ∧ s.zombieKid p = true) := fun hor =>
      exitWakeups_awake s p i hor hch hi
    rw [adopt] at hj
    by_cases hjp : j = p
    · -- the new zombie: its parent was woken
      subst hjp
      split at hj
      next hself => exact (h.family.parent j j hself).2 rfl
      · exact hnot (Or.inl hj)
    · rw [update_of_ne hjp] at hz
      have hzs : s.states j = .zombie := by
        rw [hw.eq_of_ne' (by rw [hz]; simp), hz]
      split at hj
      next hkid =>
        -- a zombie handed over to the first process, which was woken
        cases hj
        have hlt := h.family.inTable j (by rw [hzs]; simp)
        exact hnot (Or.inr ⟨rfl, zombieKid_of hlt hkid hzs⟩)
      · have his : s.states i = .sleeping := by
          rw [hw.eq_of_ne' (by rw [hi]; simp), hi]
        exact h.waits i j his hch hj hzs

theorem zombieChild_spec (h : t.zombieChild p = some i) :
    (t.proc i).parent = some p ∧ (t.proc i).state = .zombie := by
  have hp := List.find?_some h
  simpa using hp

theorem no_zombie_of_zombieChild (h : Sound s) (hz : s.table.zombieChild p = none) (j : ℕ)
    (hj : s.parents j = some p) : s.states j ≠ .zombie := by
  intro hzj
  have hlt := h.family.inTable j (by rw [hzj]; simp)
  have hall := List.find?_eq_none.1 hz j (List.mem_range.2 hlt)
  refine hall ?_
  simpa using ⟨hj, hzj⟩

theorem table_reap (hz : t.zombieChild p = some i) : (t.wait p).2 = t.modify i fun q =>
      { q with state := .unused, pid := 0, parent := none, killed := false } := by
  rw [Ptable.wait, hz]

theorem states_reap (hz : s.table.zombieChild p = some i) :
    ({ s with table := (s.table.wait p).2, context := k } : State).states =
      update s.states i .unused := by
  rw [table_reap hz]
  exact State.states_modify

theorem parents_reap (hz : s.table.zombieChild p = some i) :
    ({ s with table := (s.table.wait p).2, context := k } : State).parents =
      update s.parents i none := by
  rw [table_reap hz]
  exact State.parents_modify

variable (h : Sound s)
include h

theorem sound_reap (hz : s.table.zombieChild p = some i) :
    Sound { s with table := (s.table.wait p).2, context := k } := by
  have hst : s.states i = .zombie := (zombieChild_spec hz).2
  have hinit : (s.table.wait p).2.initproc = s.initproc := by
    rw [table_reap hz]
    rfl
  have hfi : s.forking i = none := by
    cases hfi : s.forking i with
    | none => rfl
    | some x =>
      have hlive := (h.forks.slot i x.1 x.2 hfi).1
      rw [hst] at hlive
      exact absurd hlive not_live_zombie
  refine ⟨?_, ?_, ?_, ?_⟩
  · rw [states_reap hz]
    exact h.placed.update (by rw [hst]; simp) (by simp)
  · rw [states_reap hz, parents_reap hz, State.initproc, hinit]
    exact h.family.reap hst
  · rw [states_reap hz]
    exact h.forks.update hfi (by rw [hst]; simp)
  · rw [states_reap hz, parents_reap hz]
    refine (h.waits.update (i := i) (x := .unused) (by simp) (by simp)).reparent ?_
    rw [update_self]
    simp

theorem sound_waitLoop (hc : s.cpu c = some p) : Sound (s.waitLoop c p).2 := by
  unfold State.waitLoop
  split
  next hz => exact sound_reap h hz
  next hz =>
    split
    · exact ⟨h.placed, h.family, h.forks, h.waits⟩
    · exact sound_sleep h hc fun _ j hj => no_zombie_of_zombieChild h hz j hj

theorem sound_pick (hc : s.cpu c = none) (hi : (s.proc i).state = .runnable) :
    Sound (s.pick c i).2 := by
  have h1 := sound_run h hc hi
  unfold State.pick
  dsimp only
  split
  · exact h1
  · exact sound_clearChan h1
  · have h2 := sound_clearChan (i := i) (k := s.context) h1
    exact sound_waitLoop h2 (update_self _ _ _)

theorem sound_step {e : Event} {r : Option ℤ} (hs : step s e = some (r, s')) : Sound s' := by
  cases took_of_step hs with
  | pick hc hi hp =>
    have hpick := sound_pick h hc hi
    rw [hp] at hpick
    exact hpick
  | yield hc => exact sound_yield h hc
  | sleep hc => exact sound_sleep h hc (by simp)
  | wakeup => exact h.wakes (wakes_wakeup1 _ _)
  | kill => exact h.wakes (wakes_kill _ _)
  | killcur => exact h.wakes (wakes_kill _ _)
  | fork hc => exact sound_fork h (h.live_of_cpu hc)
  | forkFail hf => exact sound_forkFail h hf
  | forkLink hf => exact sound_forkLink h hf
  | forkDone hf => exact sound_forkDone h hf
  | exit hc hf hx => exact sound_exit h hc hf hx
  | wait hc hw =>
    have hwait := sound_waitLoop h hc
    rw [hw] at hwait
    exact hwait

end Events

theorem sound_of_reachable {G : State → Event → Prop} {s : State} (h : Reachable G s) :
    Sound s := by
  induction h with
  | refl => exact boot_sound
  | tail _ hnext ih =>
    obtain ⟨e, r, -, hs⟩ := hnext
    exact sound_step ih hs

/-! ## Zombies -/

section Zombies

variable {s s' s1 : State} {c p i : ℕ} {r : Option ℤ}

def KeepsZombies (s s' : State) : Prop := ∀ j, s.states j = .zombie → s'.states j = .zombie

/-- Process `p` collects the zombie `i`, one of its children, and returns its pid. -/
structure Reaps (s : State) (p i : ℕ) (r : Option ℤ) (s' : State) : Prop where
  parent : s.parents i = some p
  pid : r = some (s.proc i).pid
  unused : s'.states i = .unused
  others : ∀ j, j ≠ i → s.states j = .zombie → s'.states j = .zombie

theorem keepsZombies_update {x : ProcState} (hst : s'.states = update s.states i x)
    (hi : s.states i ≠ .zombie) : KeepsZombies s s' := by
  intro j hj
  have hji : j ≠ i := by
    rintro rfl
    exact hi hj
  rw [hst, update_of_ne hji]
  exact hj

theorem Wakes.keepsZombies (h : Wakes s s') : KeepsZombies s s' := by
  intro j hj
  rw [h.eq_of_ne (by rw [hj]; simp), hj]

theorem keepsZombies_setState (h : Sound s) (hc : s.cpu c = some p) {x : ProcState}
    (hst : s'.states = (s.setState p x).states) : KeepsZombies s s' := by
  refine keepsZombies_update (i := p) (x := x) (hst.trans State.states_setState) ?_
  rw [h.placed.runs c p hc]
  simp

theorem waitLoop_zombies (h : Sound s) (hc : s.cpu c = some p) :
    KeepsZombies s (s.waitLoop c p).2 ∨ ∃ i, Reaps s p i (s.waitLoop c p).1 (s.waitLoop c p).2 := by
  unfold State.waitLoop
  split
  next i hz =>
    obtain ⟨hpar, -⟩ := zombieChild_spec hz
    refine Or.inr ⟨i, hpar, rfl, ?_, fun j hj hzj => ?_⟩
    · rw [states_reap hz, update_self]
    · rw [states_reap hz, update_of_ne hj]
      exact hzj
  · split
    · exact Or.inl fun j hj => hj
    · exact Or.inl (keepsZombies_setState h hc rfl)

theorem pick_zombies (h : Sound s) (hc : s.cpu c = none) (hi : (s.proc i).state = .runnable) :
    KeepsZombies s (s.pick c i).2 ∨
      s.context i = .wait ∧ ∃ k, Reaps s i k (s.pick c i).1 (s.pick c i).2 := by
  have h1 := sound_run h hc hi
  have hne : s.states i ≠ .zombie := by
    rw [State.states, hi]
    simp
  have hkeep : KeepsZombies s (s.setState i .running) :=
    keepsZombies_update State.states_setState hne
  unfold State.pick
  dsimp only
  split
  · exact Or.inl hkeep
  · exact Or.inl hkeep
  next hctx =>
    have h2 := sound_clearChan (i := i) (k := s.context) h1
    rcases waitLoop_zombies h2 (update_self _ _ _) with hk | ⟨k, hr⟩
    · exact Or.inl fun j hj => hk j (hkeep j hj)
    · refine Or.inr ⟨hctx, k, ?_, ?_, hr.unused, fun j hj hz => hr.others j hj (hkeep j hz)⟩
      · rw [← State.parents_setState (i := i) (x := .running)]
        exact hr.parent
      · refine hr.pid.trans ?_
        change some ((s.setState i .running).proc k).pid = _
        rw [State.setState, State.modify, State.proc, Ptable.modify_proc]
        split
        next hk => rw [hk]
        · rfl

/-- The event is a pass of the `wait` of process `p` over the table. -/
def Event.WaitOf (s : State) (p : ℕ) (e : Event) : Prop :=
  (∃ c, e = .wait c ∧ s.cpu c = some p) ∨ ∃ c, e = .pick c p ∧ s.context p = .wait

theorem step_zombies {e : Event} (h : Sound s) (hs : step s e = some (r, s')) :
    KeepsZombies s s' ∨ ∃ p i, e.WaitOf s p ∧ Reaps s p i r s' := by
  cases took_of_step hs with
  | @pick c i _ _ hc hi hp =>
    have hpick := pick_zombies h hc hi
    rw [hp] at hpick
    rcases hpick with hk | ⟨hctx, k, hr⟩
    · exact Or.inl hk
    · exact Or.inr ⟨i, k, Or.inr ⟨c, rfl, hctx⟩, hr⟩
  | yield hc => exact Or.inl (keepsZombies_setState h hc rfl)
  | sleep hc => exact Or.inl (keepsZombies_setState h hc rfl)
  | wakeup => exact Or.inl (wakes_wakeup1 _ _).keepsZombies
  | kill => exact Or.inl (wakes_kill _ _).keepsZombies
  | killcur => exact Or.inl (wakes_kill _ _).keepsZombies
  | fork =>
    refine Or.inl ?_
    cases hslot : s.table.unusedSlot with
    | none =>
      unfold State.fork Ptable.allocproc
      rw [hslot]
      exact fun j hj => hj
    | some np =>
      have hunused := (unusedSlot_spec hslot).2
      rw [fork_of_slot hslot]
      refine keepsZombies_update (i := np) (x := .embryo) (State.states_modify
        (f := fun q => { q with state := .embryo, pid := s.table.nextpid })) ?_
      rw [State.states, State.proc, hunused]
      simp
  | @forkFail _ _ np hf =>
    refine Or.inl (keepsZombies_update (i := np) (x := .unused) State.states_setState ?_)
    rw [(h.forks.slot _ np _ hf).2]
    simp
  | @forkLink _ p np hf =>
    refine Or.inl (keepsZombies_update (i := np) (State.states_modify
      (f := fun q => { q with parent := some p })) ?_)
    rw [(h.forks.slot _ np _ hf).2]
    simp
  | @forkDone _ _ np hf =>
    refine Or.inl (keepsZombies_update (i := np) (x := .runnable) State.states_modify ?_)
    rw [(h.forks.slot _ np _ hf).2]
    simp
  | exit _ _ hx =>
    refine Or.inl fun j hj => ?_
    rw [(exit_eq_some hx).2.2.1, update_apply]
    split
    · rfl
    · exact (wakes_exitWakeups s _).keepsZombies j hj
  | @wait c p _ _ hc hw =>
    have hwait := waitLoop_zombies h hc
    rw [hw] at hwait
    rcases hwait with hk | ⟨k, hr⟩
    · exact Or.inl hk
    · exact Or.inr ⟨p, k, Or.inl ⟨c, rfl, hc⟩, hr⟩

end Zombies

/-- The life cycle of processes, in every state that any events lead to: who runs is the
process of exactly one processor; every process but the first has a parent that lives, the
process that made it or the first one; nobody sleeps in `wait` who has a zombie to
collect; and a zombie leaves its state in the `wait` of its parent, which returns its pid
and collects no other. -/
theorem life_cycle (s : State) (h : Reachable (fun _ _ => True) s) :
    (∀ i, (s.proc i).state = .running → ∃! c, s.cpu c = some i) ∧
    (∀ i, (s.proc i).state ≠ .unused → (s.proc i).state ≠ .embryo → i ≠ s.initproc →
      ∃ j, (s.proc i).parent = some j ∧ (s.forker i = some j ∨ j = s.initproc) ∧
        (s.proc j).state ≠ .unused ∧ (s.proc j).state ≠ .zombie) ∧
    (∀ i j, (s.proc i).state = .sleeping → s.chan i = some (.proc i) →
      (s.proc j).parent = some i → (s.proc j).state ≠ .zombie) ∧
    ∀ e r s' i, step s e = some (r, s') → (s.proc i).state = .zombie →
      (s'.proc i).state ≠ .zombie →
      ∃ p, (s.proc i).parent = some p ∧ e.WaitOf s p ∧ r = some (s.proc i).pid ∧
        (s'.proc i).state = .unused ∧
        ∀ j, j ≠ i → (s.proc j).state = .zombie → (s'.proc j).state = .zombie := by
  have hsound := sound_of_reachable h
  refine ⟨fun i hi => ?_, fun i hu he hr => ?_, hsound.waits, fun e r s' i hs hz hz' => ?_⟩
  · obtain ⟨c, hc⟩ := hsound.placed.running i hi
    exact ⟨c, hc, fun c' hc' => hsound.placed.once c' c i hc' hc⟩
  · obtain ⟨j, hj, hor⟩ := hsound.family.child i ⟨hu, he⟩ hr
    have hlive : (s.proc j).state.Live := (hsound.family.parent i j hj).1
    refine ⟨j, hj, hor, (complete_of_live hlive).1, ?_⟩
    intro hzj
    rw [hzj] at hlive
    exact not_live_zombie hlive
  · rcases step_zombies hsound hs with hk | ⟨p, k, hw, hr⟩
    · exact absurd (hk i hz) hz'
    · by_cases hik : i = k
      · subst hik
        exact ⟨p, hr.parent, hw, hr.pid, hr.unused, hr.others⟩
      · exact absurd (hr.others i hik hz) hz'

/-- The first process makes a child, which runs on another processor and exits. -/
def childEvents : List Event :=
  [.pick 0 0, .fork 0, .forkLink 0, .forkDone 0, .pick 1 1, .exit 1]

theorem life_cycle_child :
    ∃ s s' r p, Reachable (fun _ _ => True) s ∧ (s.proc 1).state = .zombie ∧
      step s (.wait 0) = some (r, s') ∧ (s.proc 1).parent = some p ∧
      r = some (s.proc 1).pid ∧ (s'.proc 1).state = .unused := by
  have hplay : ((play (fun _ _ => True) childEvents boot).any fun s =>
      (s.proc 1).state == .zombie && ((step s (.wait 0)).any fun x =>
        (x.2.proc 1).state != .zombie)) = true := by decide +kernel
  obtain ⟨s, hs, h⟩ := exists_of_play hplay
  simp only [Bool.and_eq_true, beq_iff_eq, Option.any_eq_true, bne_iff_ne] at h
  obtain ⟨hz, ⟨r, s'⟩, hstep, hz'⟩ := h
  obtain ⟨p, hp, -, hr, hu, -⟩ := (life_cycle s hs).2.2.2 _ r s' 1 hstep hz hz'
  exact ⟨s, s', r, p, hs, hz, hstep, hp, hr, hu⟩

/-- Forks do not meet, in every state that any events lead to: the slot that a process in `fork`
has taken is an embryo, which no other process in `fork` has taken, no processor runs and no
process has for a parent. And the first process lives. -/
theorem forks_apart (s : State) (h : Reachable (fun _ _ => True) s) :
    (s.proc s.initproc).state.Live ∧ ∀ p np b, s.forking p = some (np, b) →
      (s.proc p).state.Live ∧ (s.proc np).state = .embryo ∧
      (∀ q b', s.forking q = some (np, b') → q = p) ∧ (∀ c, s.cpu c ≠ some np) ∧
      ∀ i, (s.proc i).parent ≠ some np := by
  have hsound := sound_of_reachable h
  refine ⟨hsound.family.alive, fun p np b hf => ?_⟩
  obtain ⟨hlive, hnp⟩ := hsound.forks.slot p np b hf
  have hdead : ¬ (s.states np).Live := by
    rw [hnp]
    exact not_live_embryo
  refine ⟨hlive, hnp, fun q b' hq => hsound.forks.distinct q p np b' b hq hf, fun c hc => ?_,
    fun i hi => hdead (hsound.family.parent i np hi).1⟩
  rw [hsound.placed.runs c np hc] at hnp
  cases hnp

theorem forks_apart_first : ∃ s, Reachable (fun _ _ => True) s ∧
    s.forking 0 = some (1, false) ∧ (s.proc 1).state = .embryo := by
  have hplay : ((play (fun _ _ => True) [.pick 0 0, .fork 0] boot).any fun s =>
      s.forking 0 == some (1, false)) = true := by decide +kernel
  obtain ⟨s, hs, h⟩ := exists_of_play hplay
  have hf := beq_iff_eq.1 h
  exact ⟨s, hs, hf, ((forks_apart s hs).2 0 1 false hf).2.1⟩

end Qwin.Sched
