import Qwin.Lib.Threads

/-!
# Kills and sleep

Threads that look whether they have been killed before they sleep. A `Sleepers` says which
actions test the flag of a thread, put the thread to sleep or kill a thread; a thread that is
killed does not sleep on. `tested` is a record of the threads that found their flag clear and
have not gone to sleep since. The code follows `protocol` if a thread sleeps only after such a
test. Then a killed thread sleeps only if the kill came between its test and its sleep.
-/

namespace Qwin

open Function (update update_of_ne update_self)

/-- What an action does about kills and sleep. -/
inductive Kind : Type → Type 1 where
  | other {β : Type} : Kind β
  -- the thread reads its flag
  | test : Kind Bool
  -- the thread goes to sleep
  | sleep {β : Type} : Kind β
  | kill {β : Type} (q : ℕ) : Kind β

/-- None of the `tested` threads is killed. -/
def Kind.Spares {β : Type} (tested : ℕ → Bool) : Kind β → Prop
  | .kill q => tested q = false
  | _ => True

instance {β : Type} (tested : ℕ → Bool) : (k : Kind β) → Decidable (k.Spares tested)
  | .kill q => inferInstanceAs (Decidable (tested q = false))
  | .other => inferInstanceAs (Decidable True)
  | .test => inferInstanceAs (Decidable True)
  | .sleep => inferInstanceAs (Decidable True)

/-- The kinds of actions, and who is killed and who sleeps in a state. -/
structure Sleepers (A : Type → Type) (σ : Type) where
  kind : (β : Type) → A β → Kind β
  killed : σ → ℕ → Bool
  Asleep : σ → ℕ → Prop

namespace Sleepers

open Prog Threads

variable {A : Type → Type} {σ ε : Type} (V : Sleepers A σ)

/-- What a step of thread `p` from `s` to `s'` with the answer `r` does. -/
def Effect (p : ℕ) (s s' : σ) {β : Type} (r : β) : Kind β → Prop
  | .other => V.killed s' = V.killed s ∧ ∀ q, V.Asleep s' q → V.Asleep s q
  | .test => r = V.killed s p ∧ V.killed s' = V.killed s ∧ ∀ q, V.Asleep s' q → V.Asleep s q
  | .sleep => V.killed s' = V.killed s ∧ ∀ q, V.Asleep s' q → q = p ∨ V.Asleep s q
  | .kill k => V.killed s' = update (V.killed s) k true ∧
      ∀ q, V.Asleep s' q → q ≠ k ∧ V.Asleep s q

def Lawful (sem : ℕ → Sem A σ ε) : Prop :=
  ∀ (β : Type) p (a : A β) s r s', (sem p).exec a s = .ok (r, s') →
    V.Effect p s s' r (V.kind β a)

/-- Whether a thread has found its flag clear, after an action. -/
def after {β : Type} : Kind β → β → Bool → Bool
  | .test, killed, _ => !killed
  | .sleep, _, _ => false
  | .other, _, t | .kill _, _, t => t

/-- The record of the threads that have found their flag clear and do not sleep yet. -/
def note (p : ℕ) (β : Type) (a : A β) (r : β) (tested : ℕ → Bool) : ℕ → Bool :=
  update tested p (after (V.kind β a) r (tested p))

/-- A thread sleeps only after it has found its flag clear. -/
def protocol : Protocol A Bool where
  pre β a t := match V.kind β a with
    | .sleep => t = true
    | _ => True
  next β a t r t' := t' = after (V.kind β a) r t

/-- No thread is killed that has found its flag clear and does not sleep yet. -/
def Timely (β : Type) (_ : ℕ) (a : A β) (s : σ × (ℕ → Bool)) : Prop :=
  (V.kind β a).Spares s.2

instance (β : Type) (p : ℕ) (a : A β) (s : σ × (ℕ → Bool)) : Decidable (V.Timely β p a s) :=
  inferInstanceAs (Decidable ((V.kind β a).Spares s.2))

/-- The runs from `s` with the record, by steps that `G` allows. -/
abbrev Runs (sem : ℕ → Sem A σ ε) (start : ℕ → σ → Prog A Unit → Prop)
    (G : (β : Type) → ℕ → A β → σ × (ℕ → Bool) → Prop) (s : σ)
    (m : Threads ℕ A (σ × (ℕ → Bool))) : Prop :=
  Reachable (fun p => (sem p).observe (V.note p)) (fun p s c => start p s.1 c) G
    (s, fun _ => false) m

theorem follows_step {V : Sleepers A σ} {α β : Type} {a : A β} {k : β → Prog A α}
    {Q : α → Bool → Prop} {t : Bool} (hpre : V.protocol.pre β a t)
    (hk : ∀ r, (k r).Follows V.protocol Q (after (V.kind β a) r t)) :
    (Prog.act a k).Follows V.protocol Q t := by
  refine follows_act.2 ⟨hpre, ?_⟩
  rintro r _ rfl
  exact hk r

/-! ## Runs -/

section Runs

variable {V} {sem : ℕ → Sem A σ ε} {start : ℕ → σ → Prog A Unit → Prop}
  {G : (β : Type) → ℕ → A β → σ × (ℕ → Bool) → Prop} {s : σ}
  {m : Threads ℕ A (σ × (ℕ → Bool))}

theorem disciplined
    (hstart : ∀ p s c, start p s c → c.Follows V.protocol (fun _ t => t = false) false)
    (h : V.Runs sem start G s m) : Disciplined V.protocol (fun p s => s.2 p) false m := by
  refine Disciplined.of_reachable (fun _ => rfl) (fun p s c hc _ => hstart p s.1 c hc) ?_ ?_ h
  · intro β p a s r s' _ hx _
    change s'.2 p = _
    rw [(Sem.observe_ok.1 hx).2, note, update_self]
  · intro β p a s r s' q hx _ hq
    rw [(Sem.observe_ok.1 hx).2, note, update_of_ne hq]

/-- Who sleeps, or is about to, is not killed. -/
def Safe (V : Sleepers A σ) (s : σ × (ℕ → Bool)) : Prop :=
  ∀ q, s.2 q = true ∨ V.Asleep s.1 q → V.killed s.1 q = false

theorem safe_step {β : Type} {p : ℕ} {a : A β} {r : β} {s s' : σ × (ℕ → Bool)}
    (hlaw : V.Effect p s.1 s'.1 r (V.kind β a)) (hnote : s'.2 = V.note p β a r s.2)
    (hpre : V.protocol.pre β a (s.2 p)) (htimely : V.Timely β p a s) (h : V.Safe s) :
    V.Safe s' := by
  intro q hq
  have hother : q ≠ p → s'.2 q = s.2 q := fun hne => by
    rw [hnote, note, update_of_ne hne]
  have hself : s'.2 p = after (V.kind β a) r (s.2 p) := by
    rw [hnote, note, update_self]
  have hsame : after (V.kind β a) r (s.2 p) = s.2 p → s'.2 q = s.2 q := fun he => by
    by_cases hqp : q = p
    · rw [hqp, hself, he]
    · exact hother hqp
  simp only [protocol, Timely] at hpre htimely
  cases hkind : V.kind β a with
  | other =>
    rw [hkind] at hlaw hsame
    rw [hlaw.1]
    exact h q (hq.imp (hsame rfl ▸ ·) (hlaw.2 q))
  | test =>
    rw [hkind] at hlaw hself
    obtain ⟨hr, hkilled, hasleep⟩ := hlaw
    rw [hkilled]
    rcases hq with hq | hq
    · by_cases hqp : q = p
      · subst hqp
        rw [← hr]
        simpa [after] using hself.symm.trans hq
      · exact h q (Or.inl (hother hqp ▸ hq))
    · exact h q (Or.inr (hasleep q hq))
  | sleep =>
    rw [hkind] at hlaw hself hpre
    rw [hlaw.1]
    by_cases hqp : q = p
    · rw [hqp]
      exact h p (Or.inl hpre)
    · rcases hq with hq | hq
      · exact h q (Or.inl (hother hqp ▸ hq))
      · exact h q (Or.inr ((hlaw.2 q hq).resolve_left hqp))
  | kill k =>
    rw [hkind] at hlaw hsame htimely
    have hqk : q ≠ k := by
      rintro rfl
      rcases hq with hq | hq
      · have hclear : s.2 q = false := htimely
        rw [← hsame rfl, hq] at hclear
        cases hclear
      · exact (hlaw.2 q hq).1 rfl
    rw [hlaw.1, update_of_ne hqk]
    exact h q (hq.imp (hsame rfl ▸ ·) fun hq => (hlaw.2 q hq).2)

section

variable {κ : Type} (V sem) (enter : ℕ → κ → σ → Option (Prog A Unit)) (G s)
  [∀ β p (a : A β) s, Decidable (G β p a s)] (moves : List (Move ℕ κ))
  (test : Threads ℕ A (σ × (ℕ → Bool)) → Bool)

/-- A schedule with the record that can be taken to its end, where a test succeeds. -/
def played : Bool :=
  (play (fun p => (sem p).observe (V.note p)) G (fun p k s => enter p k s.1) moves
    ⟨(s, fun _ => false), fun _ => none⟩).any test

variable {V sem enter G s moves test}

theorem exists_runs (h : V.played sem G s enter moves test = true) :
    ∃ m, V.Runs sem (fun p s c => ∃ k, enter p k s = some c) G s m ∧ test m = true :=
  exists_of_play (fun _ k _ _ hc => ⟨k, hc⟩) h

end

/-- In runs whose kills are timely nobody sleeps who is killed. -/
theorem safe_of_runs (hlaw : V.Lawful sem)
    (hstart : ∀ p s c, start p s c → c.Follows V.protocol (fun _ t => t = false) false)
    (hs : ∀ q, ¬ V.Asleep s q) (h : V.Runs sem start V.Timely s m) : V.Safe m.state := by
  induction h with
  | refl =>
    intro q hq
    rcases hq with hq | hq
    · cases hq
    · exact absurd hq (hs q)
  | @tail m m' h hstep ih =>
    have hdisc := disciplined hstart h
    cases hstep with
    | start _ _ => exact ih
    | ret _ => exact ih
    | @act p β a k r s' hp hG hx =>
      obtain ⟨hx, hnote⟩ := Sem.observe_ok.1 hx
      exact safe_step (hlaw β p a _ r _ hx) hnote (hdisc.pre hp) hG ih

end Runs

end Sleepers

end Qwin
