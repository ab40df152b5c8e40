import Qwin.Proc.Sched

/-!
# What holds of a process table

The invariant of the process table and the processors has four parts, each about the few
columns of the table it needs: who runs runs on one processor, whoever is a parent is
alive, every process in `fork` has a slot of its own, and a process that sleeps in `wait`
has no zombie to collect. For each part there is a lemma for every way in which the events
change these columns.
-/

namespace Qwin.Sched

open Function (update_of_ne update_self)

section Columns

variable {cpu : ℕ → Option ℕ} {st st' : ℕ → ProcState} {par forker : ℕ → Option ℕ}
  {forking : ℕ → Option (ℕ × Bool)} {chan : ℕ → Option Chan} {root c p np i : ℕ}

/-! ## Processors -/

/-- The processes that run are those of the processors. -/
structure Placed (cpu : ℕ → Option ℕ) (st : ℕ → ProcState) : Prop where
  runs : ∀ c i, cpu c = some i → st i = .running
  running : ∀ i, st i = .running → ∃ c, cpu c = some i
  once : ∀ c c' i, cpu c = some i → cpu c' = some i → c = c'

theorem Placed.congr (h : Placed cpu st) (hst : ∀ i, st' i = .running ↔ st i = .running) :
    Placed cpu st' where
  runs c i hc := (hst i).2 (h.runs c i hc)
  running i hi := h.running i ((hst i).1 hi)
  once := h.once

variable {x : ProcState}

theorem Placed.update (h : Placed cpu st) (hi : st i ≠ .running)
    (hx : x ≠ .running) : Placed cpu (Function.update st i x) := by
  refine h.congr fun j => ?_
  by_cases hj : j = i
  · subst hj
    simp [hx, hi]
  · rw [update_of_ne hj]

theorem Placed.pick (h : Placed cpu st) (hc : cpu c = none) (hi : st i ≠ .running) :
    Placed (Function.update cpu c (some i)) (Function.update st i .running) := by
  have hfresh : ∀ c', cpu c' ≠ some i := fun c' he => hi (h.runs c' i he)
  refine ⟨fun c' j hj => ?_, fun j hj => ?_, fun c1 c2 j h1 h2 => ?_⟩
  · by_cases hji : j = i
    · rw [hji, update_self]
    · rw [update_of_ne hji]
      by_cases hcc : c' = c
      · rw [hcc, update_self] at hj
        exact absurd (Option.some.inj hj).symm hji
      · rw [update_of_ne hcc] at hj
        exact h.runs c' j hj
  · by_cases hji : j = i
    · exact ⟨c, by rw [hji, update_self]⟩
    · rw [update_of_ne hji] at hj
      obtain ⟨c', hc'⟩ := h.running j hj
      have hcc : c' ≠ c := by
        rintro rfl
        rw [hc] at hc'
        cases hc'
      exact ⟨c', by rw [update_of_ne hcc, hc']⟩
  · by_cases h1c : c1 = c <;> by_cases h2c : c2 = c
    · rw [h1c, h2c]
    · rw [h1c, update_self] at h1
      rw [update_of_ne h2c, ← h1] at h2
      exact absurd h2 (hfresh c2)
    · rw [h2c, update_self] at h2
      rw [update_of_ne h1c, ← h2] at h1
      exact absurd h1 (hfresh c1)
    · rw [update_of_ne h1c] at h1
      rw [update_of_ne h2c] at h2
      exact h.once c1 c2 j h1 h2

theorem Placed.drop (h : Placed cpu st) (hc : cpu c = some p)
    (hx : x ≠ .running) : Placed (Function.update cpu c none) (Function.update st p x) := by
  have hother : ∀ c' j, Function.update cpu c none c' = some j → cpu c' = some j ∧ j ≠ p := by
    intro c' j hj
    by_cases hcc : c' = c
    · rw [hcc, update_self] at hj
      cases hj
    · rw [update_of_ne hcc] at hj
      refine ⟨hj, ?_⟩
      rintro rfl
      exact hcc (h.once c' c j hj hc)
  refine ⟨fun c' j hj => ?_, fun j hj => ?_, fun c1 c2 j h1 h2 => ?_⟩
  · rw [update_of_ne (hother c' j hj).2]
    exact h.runs c' j (hother c' j hj).1
  · have hjp : j ≠ p := by
      rintro rfl
      rw [update_self] at hj
      exact hx hj
    rw [update_of_ne hjp] at hj
    obtain ⟨c', hc'⟩ := h.running j hj
    have hcc : c' ≠ c := by
      rintro rfl
      rw [hc] at hc'
      exact hjp (Option.some.inj hc').symm
    exact ⟨c', by rw [update_of_ne hcc, hc']⟩
  · exact h.once c1 c2 j (hother c1 j h1).1 (hother c2 j h2).1

/-! ## Parents -/

/-- The process exists and its `fork` is over. -/
def Complete (x : ProcState) : Prop := x ≠ .unused ∧ x ≠ .embryo

theorem complete_of_live (h : x.Live) : Complete x := by
  rcases h with rfl | rfl | rfl <;> exact ⟨by simp, by simp⟩

theorem not_live_zombie : ¬ ProcState.zombie.Live := by decide

theorem not_live_embryo : ¬ ProcState.embryo.Live := by decide

theorem not_live_unused : ¬ ProcState.unused.Live := by decide

/-- Whoever is a parent is alive, and every process but the first has one: the process
that made it, or the first one. -/
structure Family (root : ℕ) (st : ℕ → ProcState) (par forker : ℕ → Option ℕ) : Prop where
  alive : (st root).Live
  orphan : par root = none
  parent : ∀ i j, par i = some j → (st j).Live ∧ i ≠ j
  child : ∀ i, Complete (st i) → i ≠ root → ∃ j, par i = some j ∧ (forker i = some j ∨ j = root)
  inTable : ∀ i, st i ≠ .unused → i < NPROC

/-- The same process table for those who only ask who is alive. -/
def SameLives (st st' : ℕ → ProcState) : Prop :=
  ∀ i, st' i = st i ∨ (st i).Live ∧ (st' i).Live

theorem SameLives.live (h : SameLives st st') (hi : (st i).Live) : (st' i).Live := by
  rcases h i with he | he
  · rw [he]
    exact hi
  · exact he.2

theorem sameLives_update (hi : (st i).Live) (hx : x.Live) :
    SameLives st (Function.update st i x) := by
  intro j
  by_cases hj : j = i
  · subst hj
    rw [update_self]
    exact Or.inr ⟨hi, hx⟩
  · exact Or.inl (update_of_ne hj _ _)

section

variable (h : Family root st par forker)
include h

theorem Family.sameLives (hst : SameLives st st') :
    Family root st' par forker where
  alive := hst.live h.alive
  orphan := h.orphan
  parent i j hij := ⟨hst.live (h.parent i j hij).1, (h.parent i j hij).2⟩
  child i hi hr := by
    refine h.child i ?_ hr
    rcases hst i with he | he
    · rwa [← he]
    · exact complete_of_live he.1
  inTable i hi := by
    refine h.inTable i ?_
    rcases hst i with he | he
    · rwa [← he]
    · exact (complete_of_live he.1).1

/-- A slot that nobody has as a parent goes to a state before its `fork` is over. -/
theorem Family.incomplete (hi : ¬ (st i).Live) (hx : ¬ Complete x) (hlt : x ≠ .unused → i < NPROC) :
    Family root (Function.update st i x) par forker := by
  have hlive : ∀ j, (st j).Live → Function.update st i x j = st j := by
    intro j hj
    refine update_of_ne ?_ _ _
    rintro rfl
    exact hi hj
  refine ⟨?_, h.orphan, fun k j hkj => ?_, fun k hk hr => ?_, fun k hk => ?_⟩
  · rw [hlive root h.alive]
    exact h.alive
  · obtain ⟨hj, hne⟩ := h.parent k j hkj
    rw [hlive j hj]
    exact ⟨hj, hne⟩
  · by_cases hki : k = i
    · rw [hki, update_self] at hk
      exact absurd hk hx
    · rw [update_of_ne hki] at hk
      exact h.child k hk hr
  · by_cases hki : k = i
    · rw [hki, update_self] at hk
      rw [hki]
      exact hlt hk
    · rw [update_of_ne hki] at hk
      exact h.inTable k hk

variable (hp : (st p).Live) (hnp : st np = .embryo)
include hp hnp

theorem Family.link :
    Family root st (Function.update par np (some p)) (Function.update forker np (some p)) := by
  have hroot : np ≠ root := by
    rintro rfl
    have := h.alive
    rw [hnp] at this
    exact not_live_embryo this
  have hnpp : np ≠ p := by
    rintro rfl
    rw [hnp] at hp
    exact not_live_embryo hp
  refine ⟨h.alive, ?_, fun i j hij => ?_, fun i hi hr => ?_, h.inTable⟩
  · rw [update_of_ne hroot.symm]
    exact h.orphan
  · by_cases hin : i = np
    · rw [hin, update_self] at hij
      cases hij
      rw [hin]
      exact ⟨hp, hnpp⟩
    · rw [update_of_ne hin] at hij
      exact h.parent i j hij
  · have hin : i ≠ np := by
      rintro rfl
      exact hi.2 hnp
    rw [update_of_ne hin, update_of_ne hin]
    exact h.child i hi hr

theorem Family.done (hf : forker np = some p) :
    Family root (Function.update st np .runnable) (Function.update par np (some p)) forker := by
  have hlink := h.link hp hnp
  have hlive : ∀ j, (st j).Live → (Function.update st np .runnable j).Live := by
    intro j hj
    by_cases hjn : j = np
    · rw [hjn, update_self]
      exact Or.inr (Or.inl rfl)
    · rw [update_of_ne hjn]
      exact hj
  refine ⟨hlive root h.alive, hlink.orphan, fun i j hij => ?_, fun i hi hr => ?_, fun i hi => ?_⟩
  · obtain ⟨hj, hne⟩ := hlink.parent i j hij
    exact ⟨hlive j hj, hne⟩
  · by_cases hin : i = np
    · refine ⟨p, ?_, Or.inl ?_⟩
      · rw [hin, update_self]
      · rw [hin, hf]
    · rw [update_of_ne hin] at hi ⊢
      exact h.child i hi hr
  · by_cases hin : i = np
    · refine h.inTable i ?_
      rw [hin, hnp]
      simp
    · rw [update_of_ne hin] at hi
      exact h.inTable i hi

end

/-- The children of `p` go to the first process. -/
def adopt (root p : ℕ) (par : ℕ → Option ℕ) (i : ℕ) : Option ℕ :=
  if par i = some p then some root else par i

section

variable (h : Family root st par forker)
include h

theorem Family.exit (hp : (st p).Live) (hroot : p ≠ root) :
    Family root (Function.update st p .zombie) (adopt root p par) forker := by
  have hne : ∀ j, j ≠ p → Function.update st p .zombie j = st j := fun j hj =>
    update_of_ne hj _ _
  refine ⟨?_, ?_, fun i j hij => ?_, fun i hi hr => ?_, fun i hi => ?_⟩
  · rw [hne root hroot.symm]
    exact h.alive
  · simp [adopt, h.orphan]
  · rw [adopt] at hij
    split at hij
    next hip =>
      cases hij
      rw [hne root hroot.symm]
      refine ⟨h.alive, ?_⟩
      rintro rfl
      rw [h.orphan] at hip
      cases hip
    next hip =>
      have hjp : j ≠ p := by
        rintro rfl
        exact hip hij
      rw [hne j hjp]
      exact h.parent i j hij
  · have hold : Complete (st i) := by
      by_cases hip : i = p
      · rw [hip]
        exact complete_of_live hp
      · rwa [hne i hip] at hi
    obtain ⟨j, hj, hor⟩ := h.child i hold hr
    by_cases hjp : j = p
    · exact ⟨root, by rw [adopt, hj, hjp, if_pos rfl], Or.inr rfl⟩
    · refine ⟨j, ?_, hor⟩
      rw [adopt, hj, if_neg]
      exact fun he => hjp (Option.some.inj he)
  · by_cases hip : i = p
    · rw [hip]
      exact h.inTable p (complete_of_live hp).1
    · rw [hne i hip] at hi
      exact h.inTable i hi

theorem Family.forget (hi : ¬ Complete (st i)) :
    Family root st (Function.update par i none) forker := by
  refine ⟨h.alive, ?_, fun k j hkj => ?_, fun k hk hr => ?_, h.inTable⟩
  · by_cases hri : root = i
    · rw [hri, update_self]
    · rw [update_of_ne hri]
      exact h.orphan
  · by_cases hki : k = i
    · rw [hki, update_self] at hkj
      cases hkj
    · rw [update_of_ne hki] at hkj
      exact h.parent k j hkj
  · have hki : k ≠ i := by
      rintro rfl
      exact hi hk
    rw [update_of_ne hki]
    exact h.child k hk hr

theorem Family.reap (hi : st i = .zombie) :
    Family root (Function.update st i .unused) (Function.update par i none) forker := by
  have hfree := h.incomplete (i := i) (x := .unused) (by rw [hi]; exact not_live_zombie)
    (fun hc => hc.1 rfl) (fun hu => absurd rfl hu)
  refine hfree.forget ?_
  rw [update_self]
  exact fun hc => hc.1 rfl

end

/-! ## Forks -/

/-- Every process in `fork` is alive and has a slot of its own. -/
structure Forks (st : ℕ → ProcState) (forking : ℕ → Option (ℕ × Bool))
    (forker : ℕ → Option ℕ) : Prop where
  slot : ∀ p np b, forking p = some (np, b) → (st p).Live ∧ st np = .embryo
  linked : ∀ p np, forking p = some (np, true) → forker np = some p
  distinct : ∀ p q np b b', forking p = some (np, b) → forking q = some (np, b') → p = q

section

variable (h : Forks st forking forker)
include h

theorem Forks.sameLives (hst : SameLives st st') : Forks st' forking forker := by
  refine ⟨fun p np b hf => ?_, h.linked, h.distinct⟩
  obtain ⟨hp, hnp⟩ := h.slot p np b hf
  refine ⟨hst.live hp, ?_⟩
  rcases hst np with he | he
  · rw [he, hnp]
  · rw [hnp] at he
    exact absurd he.1 not_live_embryo

/-- A state that is not that of a process in `fork` or of a slot taken by one changes. -/
theorem Forks.update (hi : forking i = none)
    (he : st i ≠ .embryo) : Forks (Function.update st i x) forking forker := by
  refine ⟨fun p np b hf => ?_, h.linked, h.distinct⟩
  obtain ⟨hp, hnp⟩ := h.slot p np b hf
  have hpi : p ≠ i := by
    rintro rfl
    rw [hi] at hf
    cases hf
  have hnpi : np ≠ i := by
    rintro rfl
    exact he hnp
  rw [update_of_ne hpi, update_of_ne hnpi]
  exact ⟨hp, hnp⟩

theorem Forks.alloc (hp : (st p).Live) (hnp : st np = .unused) :
    Forks (Function.update st np .embryo) (Function.update forking p (some (np, false)))
      forker := by
  have hfresh : ∀ q n b, forking q = some (n, b) → n ≠ np ∧ q ≠ np := by
    intro q n b hf
    obtain ⟨hq, hn⟩ := h.slot q n b hf
    constructor
    · rintro rfl
      rw [hnp] at hn
      cases hn
    · rintro rfl
      rw [hnp] at hq
      exact not_live_unused hq
  have hpnp : p ≠ np := by
    rintro rfl
    rw [hnp] at hp
    exact not_live_unused hp
  refine ⟨fun q n b hf => ?_, fun q n hf => ?_, fun q r n b b' h1 h2 => ?_⟩
  · by_cases hqp : q = p
    · subst hqp
      rw [update_self] at hf
      cases hf
      rw [update_of_ne hpnp, update_self]
      exact ⟨hp, rfl⟩
    · rw [update_of_ne hqp] at hf
      obtain ⟨hn, hq⟩ := hfresh q n b hf
      rw [update_of_ne hn, update_of_ne hq]
      exact h.slot q n b hf
  · by_cases hqp : q = p
    · rw [hqp, update_self] at hf
      cases hf
    · rw [update_of_ne hqp] at hf
      exact h.linked q n hf
  · by_cases h1p : q = p <;> by_cases h2p : r = p
    · rw [h1p, h2p]
    · rw [h1p, update_self] at h1
      cases h1
      rw [update_of_ne h2p] at h2
      exact absurd rfl (hfresh r np b' h2).1
    · rw [h2p, update_self] at h2
      cases h2
      rw [update_of_ne h1p] at h1
      exact absurd rfl (hfresh q np b h1).1
    · rw [update_of_ne h1p] at h1
      rw [update_of_ne h2p] at h2
      exact h.distinct q r n b b' h1 h2

theorem Forks.link (hf : forking p = some (np, false)) :
    Forks st (Function.update forking p (some (np, true)))
      (Function.update forker np (some p)) := by
  -- apart from the flag nothing changes in `forking`
  have hold : ∀ q n b, Function.update forking p (some (np, true)) q = some (n, b) →
      ∃ b', forking q = some (n, b') := by
    intro q n b hq
    by_cases hqp : q = p
    · subst hqp
      rw [update_self] at hq
      cases hq
      exact ⟨false, hf⟩
    · rw [update_of_ne hqp] at hq
      exact ⟨b, hq⟩
  refine ⟨fun q n b hq => ?_, fun q n hq => ?_, fun q r n b b' h1 h2 => ?_⟩
  · obtain ⟨b', hb'⟩ := hold q n b hq
    exact h.slot q n b' hb'
  · obtain ⟨b', hb'⟩ := hold q n true hq
    by_cases hnn : n = np
    · subst hnn
      rw [update_self, h.distinct q p n b' false hb' hf]
    · have hqp : q ≠ p := by
        rintro rfl
        rw [hf] at hb'
        cases hb'
        exact hnn rfl
      rw [update_of_ne hqp] at hq
      rw [update_of_ne hnn]
      exact h.linked q n hq
  · obtain ⟨b1, hb1⟩ := hold q n b h1
    obtain ⟨b2, hb2⟩ := hold r n b' h2
    exact h.distinct q r n b1 b2 hb1 hb2

/-- A process leaves `fork` and the slot it had goes to another state. -/
theorem Forks.leave {b : Bool} (hf : forking p = some (np, b)) :
    Forks (Function.update st np x) (Function.update forking p none) forker := by
  have hold : ∀ q n b', Function.update forking p none q = some (n, b') →
      q ≠ p ∧ forking q = some (n, b') := by
    intro q n b' hq
    by_cases hqp : q = p
    · rw [hqp, update_self] at hq
      cases hq
    · rw [update_of_ne hqp] at hq
      exact ⟨hqp, hq⟩
  refine ⟨fun q n b' hq => ?_, fun q n hq => ?_, fun q r n b1 b2 h1 h2 => ?_⟩
  · obtain ⟨hqp, hq⟩ := hold q n b' hq
    obtain ⟨hlive, hn⟩ := h.slot q n b' hq
    have hnn : n ≠ np := by
      rintro rfl
      exact hqp (h.distinct q p n b' b hq hf)
    have hqn : q ≠ np := by
      rintro rfl
      rw [(h.slot p q b hf).2] at hlive
      exact not_live_embryo hlive
    rw [update_of_ne hnn, update_of_ne hqn]
    exact ⟨hlive, hn⟩
  · exact h.linked q n (hold q n true hq).2
  · exact h.distinct q r n b1 b2 (hold q n b1 h1).2 (hold r n b2 h2).2

end

/-! ## Sleeping in `wait` -/

/-- Who sleeps on itself has no zombie for a child. -/
def Waits (st : ℕ → ProcState) (chan : ℕ → Option Chan) (par : ℕ → Option ℕ) : Prop :=
  ∀ i j, st i = .sleeping → chan i = some (.proc i) → par j = some i → st j ≠ .zombie

variable (h : Waits st chan par)
include h

theorem Waits.mono {chan' : ℕ → Option Chan} (hs : ∀ i, st' i = .sleeping → st i = .sleeping)
    (hc : ∀ i, chan' i = some (.proc i) → chan i = some (.proc i))
    (hz : ∀ i, st' i = .zombie → st i = .zombie) : Waits st' chan' par := by
  intro i j hi hch hj hzj
  exact h i j (hs i hi) (hc i hch) hj (hz j hzj)

theorem Waits.update (hs : x ≠ .sleeping)
    (hz : x ≠ .zombie) : Waits (Function.update st i x) chan par := by
  refine h.mono (fun j hj => ?_) (fun _ => id) (fun j hj => ?_)
  · by_cases hji : j = i
    · rw [hji, update_self] at hj
      exact absurd hj hs
    · rwa [update_of_ne hji] at hj
  · by_cases hji : j = i
    · rw [hji, update_self] at hj
      exact absurd hj hz
    · rwa [update_of_ne hji] at hj

theorem Waits.reparent (hi : st i ≠ .zombie) {x : Option ℕ} :
    Waits st chan (Function.update par i x) := by
  intro k j hk hch hj hz
  have hji : j ≠ i := by
    rintro rfl
    exact hi hz
  rw [update_of_ne hji] at hj
  exact h k j hk hch hj hz

/-- A process that sleeps on itself has looked for zombies. -/
theorem Waits.sleep {ch : Chan} (hch : ch = .proc p → ∀ j, par j = some p → st j ≠ .zombie) :
    Waits (Function.update st p .sleeping) (Function.update chan p (some ch)) par := by
  intro i j hi hci hj hz
  have hjp : j ≠ p := by
    rintro rfl
    rw [update_self] at hz
    cases hz
  rw [update_of_ne hjp] at hz
  by_cases hip : i = p
  · subst hip
    rw [update_self] at hci
    exact hch (Option.some.inj hci) j hj hz
  · rw [update_of_ne hip] at hi hci
    exact h i j hi hci hj hz

end Columns

end Qwin.Sched
