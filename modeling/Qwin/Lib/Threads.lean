import Mathlib.Data.Nat.Basic
import Mathlib.Logic.Function.Basic
import Mathlib.Logic.Relation
import Qwin.Lib.Protocol

/-!
# Threads

`Threads` are programs that run interleaved on one state, one action at a time. If the
token of a thread can be read off the state, every action changes the token of the
thread that performs it as the protocol says and no other, and every thread is started
on a program that follows the protocol, then the rest of every thread follows it in
every configuration that can be reached.
-/

namespace Qwin

open Function (update update_of_ne update_self)

/-- A list of steps that can be taken to its end, where a test succeeds. -/
theorem exists_of_foldlM {σ ε : Type*} {R : σ → σ → Prop} {step : σ → ε → Option σ}
    (hstep : ∀ s e s', step s e = some s' → Relation.ReflTransGen R s s') {es : List ε} {s : σ}
    {test : σ → Bool} (h : ((es.foldlM step s).any test) = true) :
    ∃ s', Relation.ReflTransGen R s s' ∧ test s' = true := by
  induction es generalizing s with
  | nil => exact ⟨s, .refl, h⟩
  | cons e es ih =>
    rw [List.foldlM_cons] at h
    cases hs : step s e with
    | none =>
      rw [hs] at h
      cases h
    | some s1 =>
      rw [hs] at h
      obtain ⟨s', hrest, htest⟩ := ih h
      exact ⟨s', (hstep s e s1 hs).trans hrest, htest⟩

/-- Programs that run on one state, indexed by `ι`. -/
structure Threads (ι : Type) (A : Type → Type) (σ : Type) where
  state : σ
  prog : ι → Option (Prog A Unit)

namespace Threads

variable {ι : Type} [DecidableEq ι] {A : Type → Type} {σ ε τ : Type}

def setProg (m : Threads ι A σ) (p : ι) (c : Option (Prog A Unit)) : Threads ι A σ :=
  { m with prog := update m.prog p c }

/-- One step: a thread starts on a program that `start` admits, performs its next action,
which `G` has to allow, or returns. -/
inductive Step (sem : ι → Sem A σ ε) (start : ι → σ → Prog A Unit → Prop)
    (G : (β : Type) → ι → A β → σ → Prop) : Threads ι A σ → Threads ι A σ → Prop
  | start {m : Threads ι A σ} {p : ι} {c : Prog A Unit} (hp : m.prog p = none)
      (hc : start p m.state c) : Step sem start G m (m.setProg p (some c))
  | act {m : Threads ι A σ} {p : ι} {β : Type} {a : A β} {k : β → Prog A Unit} {r : β}
      {s : σ} (hp : m.prog p = some (.act a k)) (hG : G β p a m.state)
      (hx : (sem p).exec a m.state = .ok (r, s)) :
      Step sem start G m ({ m with state := s }.setProg p (some (k r)))
  | ret {m : Threads ι A σ} {p : ι} (hp : m.prog p = some (.ret ())) :
      Step sem start G m (m.setProg p none)

/-- A configuration that steps lead to from one without programs. -/
abbrev Reachable (sem : ι → Sem A σ ε) (start : ι → σ → Prog A Unit → Prop)
    (G : (β : Type) → ι → A β → σ → Prop) (s : σ) (m : Threads ι A σ) : Prop :=
  Relation.ReflTransGen (Step sem start G) ⟨s, fun _ => none⟩ m

/-! ## Schedules -/

section Schedule

variable (sem : ι → Sem A σ ε) (G : (β : Type) → ι → A β → σ → Prop)
  [∀ β p (a : A β) s, Decidable (G β p a s)]

/-- The next action or the return of a thread, if it can be taken and `G` allows it. -/
def advance (p : ι) (m : Threads ι A σ) : Option (Threads ι A σ) :=
  match m.prog p with
  | none => none
  | some (.ret _) => some (m.setProg p none)
  | some (@Prog.act _ _ β a k) =>
    match (sem p).exec a m.state with
    | .ok (r, s) => if G β p a m.state then some ({ m with state := s }.setProg p (some (k r)))
        else none
    | .error _ => none

/-- The next `n` steps of a thread. -/
def advances (p : ι) : ℕ → Threads ι A σ → Option (Threads ι A σ)
  | 0, m => some m
  | n + 1, m => (m.advance sem G p).bind (advances p n)

/-- A step of a schedule: a thread is given a program, named by a `κ`, or goes on for some
actions. -/
inductive Move (ι κ : Type)
  | call (p : ι) (k : κ)
  | run (p : ι) (n : ℕ)

variable {κ : Type} (enter : ι → κ → σ → Option (Prog A Unit))

/-- `enter` gives the program that a name stands for. -/
def move (m : Threads ι A σ) : Move ι κ → Option (Threads ι A σ)
  | .call p k =>
    match m.prog p, enter p k m.state with
    | none, some c => some (m.setProg p (some c))
    | _, _ => none
  | .run p n => m.advances sem G p n

/-- The configuration that a schedule leads to, if every step can be taken. -/
def play (moves : List (Move ι κ)) (m : Threads ι A σ) : Option (Threads ι A σ) :=
  moves.foldlM (move sem G enter) m

end Schedule

variable {sem : ι → Sem A σ ε} {start : ι → σ → Prog A Unit → Prop}
  {G : (β : Type) → ι → A β → σ → Prop} {P : Protocol A τ} {token : ι → σ → τ} {idle : τ}

theorem Reachable.mono {G' : (β : Type) → ι → A β → σ → Prop} {s : σ} {m : Threads ι A σ}
    (hG : ∀ β p (a : A β) s, G β p a s → G' β p a s) (h : Reachable sem start G s m) :
    Reachable sem start G' s m := by
  refine Relation.ReflTransGen.mono (fun _ _ hs => ?_) _ _ h
  cases hs with
  | start hp hc => exact .start hp hc
  | act hp ha hx => exact .act hp (hG _ _ _ _ ha) hx
  | ret hp => exact .ret hp

section Advance

variable [∀ β p (a : A β) s, Decidable (G β p a s)] {m m' : Threads ι A σ}

theorem step_of_advance {p : ι} (h : m.advance sem G p = some m') : Step sem start G m m' := by
  unfold advance at h
  split at h
  · cases h
  next hp =>
    cases h
    exact .ret hp
  next hp =>
    split at h
    next hx =>
      split at h
      next hG =>
        cases h
        exact .act hp hG hx
      · cases h
    · cases h

theorem reflTransGen_of_advances {p : ι} (n : ℕ) (h : m.advances sem G p n = some m') :
    Relation.ReflTransGen (Step sem start G) m m' := by
  induction n generalizing m with
  | zero =>
    cases h
    exact .refl
  | succ n ih =>
    rw [advances, Option.bind_eq_some_iff] at h
    obtain ⟨m1, h1, h2⟩ := h
    exact .head (step_of_advance h1) (ih h2)

variable {s : σ} {κ : Type} {enter : ι → κ → σ → Option (Prog A Unit)}

/-- A schedule that can be taken to its end, where a test succeeds. -/
theorem exists_of_play (henter : ∀ p k s c, enter p k s = some c → start p s c)
    {moves : List (Move ι κ)} {test : Threads ι A σ → Bool}
    (h : ((play sem G enter moves ⟨s, fun _ => none⟩).any test) = true) :
    ∃ m, Reachable sem start G s m ∧ test m = true := by
  refine exists_of_foldlM (fun m move m' hmove => ?_) h
  cases move with
  | call p k =>
    rw [Threads.move] at hmove
    split at hmove
    next hp hc =>
      cases hmove
      exact .single (.start hp (henter p k _ _ hc))
    · cases hmove
  | run p n => exact reflTransGen_of_advances n hmove

end Advance

/-- The rest of every thread follows the protocol, and a thread without a program has the
idle token. -/
def Disciplined (P : Protocol A τ) (token : ι → σ → τ) (idle : τ) (m : Threads ι A σ) :
    Prop :=
  ∀ p, match m.prog p with
    | none => token p m.state = idle
    | some c => c.Follows P (fun _ t => t = idle) (token p m.state)

variable {m : Threads ι A σ}

theorem Disciplined.setProg (h : Disciplined P token idle m) {p : ι} {c : Option (Prog A Unit)}
    (hc : match c with
      | none => token p m.state = idle
      | some c => c.Follows P (fun _ t => t = idle) (token p m.state)) :
    Disciplined P token idle (m.setProg p c) := by
  intro q
  by_cases hq : q = p
  · subst hq
    rw [Threads.setProg]
    dsimp only
    rw [update_self]
    exact hc
  · have hold := h q
    rw [Threads.setProg]
    dsimp only
    rw [update_of_ne hq]
    exact hold

section Run

variable {s : σ} (hinit : ∀ p, token p s = idle)
  (hstart : ∀ p s c, start p s c → token p s = idle →
    c.Follows P (fun _ t => t = idle) idle)
  (hown : ∀ (β : Type) p (a : A β) s r s', G β p a s → (sem p).exec a s = .ok (r, s') →
    P.pre β a (token p s) → P.next β a (token p s) r (token p s'))
  (hother : ∀ (β : Type) p (a : A β) s r s' q, (sem p).exec a s = .ok (r, s') →
    P.pre β a (token p s) → q ≠ p → token q s' = token q s)

include hstart hown hother

theorem Disciplined.step {m' : Threads ι A σ} (h : Disciplined P token idle m)
    (hs : Step sem start G m m') : Disciplined P token idle m' := by
  cases hs with
  | @start p c hp hc =>
    have hidle := h p
    rw [hp] at hidle
    refine h.setProg ?_
    dsimp only at hidle ⊢
    rw [hidle]
    exact hstart p _ c hc hidle
  | @act p β a k r s hp hG hx =>
    have hc := h p
    rw [hp] at hc
    dsimp only at hc
    rw [Prog.follows_act] at hc
    have hrest := hc.2 r _ (hown β p a _ r s hG hx hc.1)
    intro q
    by_cases hq : q = p
    · subst hq
      rw [Threads.setProg]
      dsimp only
      rw [update_self]
      exact hrest
    · have hold := h q
      rw [Threads.setProg]
      dsimp only
      rw [update_of_ne hq, hother β p a _ r s q hx hc.1 hq]
      exact hold
  | @ret p hp =>
    have hc := h p
    rw [hp] at hc
    exact h.setProg hc

include hinit in
theorem Disciplined.of_reachable (h : Reachable sem start G s m) : Disciplined P token idle m := by
  induction h with
  | refl => exact hinit
  | tail _ hs ih => exact ih.step hstart hown hother hs

end Run

omit [DecidableEq ι] in
/-- What the protocol requires of the next action of a thread. -/
theorem Disciplined.pre (h : Disciplined P token idle m) {p : ι} {β : Type}
    {a : A β} {k : β → Prog A Unit} (hp : m.prog p = some (.act a k)) :
    P.pre β a (token p m.state) := by
  have hc := h p
  rw [hp] at hc
  exact (Prog.follows_act.1 hc).1

end Threads

end Qwin
