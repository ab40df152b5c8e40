import Qwin.Lib.Threads

/-!
# Tokens beside the state

The token of a thread need not be in the state. `Backed` keeps the tokens of all threads
beside the state, under an invariant of both; `Backed.of_reached` asks that every action
can be matched by a move of the token of the thread that performs it, and that a thread is
started with a token that fits its program. `Certified` is the case of one idle token.

A `Turn` is a step, or a thread at an action that does not come back is taken off, so that
its index can be used again. The actions taken may be recorded beside the state.
-/

namespace Qwin.Threads

open Function (update update_of_ne update_self update_eq_self)

variable {ι : Type} [DecidableEq ι] {A : Type → Type} {σ ε τ : Type}

/-- Two descriptions of the threads that agree on one property, after a step of one thread. -/
theorem update_eq_iff {α γ : Type} {f : ι → α} {g : ι → γ} {p q : ι} {x y : α} {z w : γ}
    (hp : x = y ↔ z = w) (h : f q = y ↔ g q = w) : update f p x q = y ↔ update g p z q = w := by
  by_cases hq : q = p
  · subst hq
    rwa [update_self, update_self]
  · rwa [update_of_ne hq, update_of_ne hq]

/-- One step, or the end of a thread whose next action is one of `quits`. -/
inductive Turn (sem : ι → Sem A σ ε) (start : ι → σ → Prog A Unit → Prop)
    (G : (β : Type) → ι → A β → σ → Prop) (quits : (β : Type) → A β → Prop) :
    Threads ι A σ → Threads ι A σ → Prop
  | step {m m' : Threads ι A σ} (h : Step sem start G m m') : Turn sem start G quits m m'
  | quit {m : Threads ι A σ} {p : ι} {β : Type} {a : A β} {k : β → Prog A Unit}
      (hp : m.prog p = some (.act a k)) (hq : quits β a) :
      Turn sem start G quits m (m.setProg p none)

abbrev Reached (sem : ι → Sem A σ ε) (start : ι → σ → Prog A Unit → Prop)
    (G : (β : Type) → ι → A β → σ → Prop) (quits : (β : Type) → A β → Prop) (s : σ)
    (m : Threads ι A σ) : Prop :=
  Relation.ReflTransGen (Turn sem start G quits) ⟨s, fun _ => none⟩ m

variable {sem : ι → Sem A σ ε} {start : ι → σ → Prog A Unit → Prop}
  {G : (β : Type) → ι → A β → σ → Prop} {quits : (β : Type) → A β → Prop}
  {P : Protocol A τ} {idle : τ} {inv : σ → (ι → τ) → Prop} {rest : τ → Prop}
variable {m : Threads ι A σ}

theorem Reachable.reached {s : σ} (h : Reachable sem start G s m) :
    Reached sem start G quits s m :=
  Relation.ReflTransGen.mono (fun _ _ => .step) _ _ h

/-- There are tokens for the threads that satisfy the invariant together with the state.
The rest of every thread follows the protocol from its token, and a thread without a
program has a token at rest. -/
def Backed (P : Protocol A τ) (inv : σ → (ι → τ) → Prop) (rest : τ → Prop)
    (m : Threads ι A σ) : Prop :=
  ∃ tok : ι → τ, inv m.state tok ∧
    ∀ p, match m.prog p with
      | none => rest (tok p)
      | some c => c.Follows P (fun _ t => rest t) (tok p)

section Backed

variable {m : Threads ι A σ}

/-- The tokens of a configuration in which one thread has another program and token. -/
theorem follows_setProg {tok : ι → τ} {p : ι} {t : τ} {c : Option (Prog A Unit)}
    (h : ∀ q, match m.prog q with
      | none => rest (tok q)
      | some c => c.Follows P (fun _ t => rest t) (tok q))
    (hc : match c with
      | none => rest t
      | some c => c.Follows P (fun _ t => rest t) t) (q : ι) :
    match (m.setProg p c).prog q with
    | none => rest (update tok p t q)
    | some c => c.Follows P (fun _ t => rest t) (update tok p t q) := by
  rw [Threads.setProg]
  dsimp only
  by_cases hq : q = p
  · subst hq
    rw [update_self, update_self]
    exact hc
  · rw [update_of_ne hq, update_of_ne hq]
    exact h q

variable {s : σ} {t : τ} (ht : rest t) (hinit : inv s fun _ => t)
  (hstart : ∀ p s c tok, start p s c → inv s tok → rest (tok p) →
    ∃ t, inv s (update tok p t) ∧ c.Follows P (fun _ t => rest t) t)
  (hact : ∀ (β : Type) p (a : A β) s r s' tok, G β p a s → (sem p).exec a s = .ok (r, s') →
    inv s tok → P.pre β a (tok p) →
    ∃ t, P.next β a (tok p) r t ∧ inv s' (update tok p t))
  (hquit : ∀ (β : Type) (a : A β) t, quits β a → P.pre β a t → rest t)

include hstart hact hquit

theorem Backed.turn {m' : Threads ι A σ} (h : Backed P inv rest m)
    (ht : Turn sem start G quits m m') : Backed P inv rest m' := by
  obtain ⟨tok, hinv, hall⟩ := h
  cases ht with
  | step hs =>
    cases hs with
    | @start p c hp hc =>
      have hrest := hall p
      rw [hp] at hrest
      obtain ⟨t, hinv', hfol⟩ := hstart p _ c tok hc hinv hrest
      exact ⟨update tok p t, hinv', follows_setProg hall hfol⟩
    | @act p β a k r s hp hG hx =>
      have hc := hall p
      rw [hp] at hc
      dsimp only at hc
      rw [Prog.follows_act] at hc
      obtain ⟨t, hnext, hinv'⟩ := hact β p a _ r s tok hG hx hinv hc.1
      exact ⟨update tok p t, hinv',
        follows_setProg (m := { m with state := s }) hall (hc.2 r t hnext)⟩
    | @ret p hp =>
      have hc := hall p
      rw [hp] at hc
      refine ⟨tok, hinv, fun q => ?_⟩
      have hq := follows_setProg (p := p) (c := none) (t := tok p) hall hc q
      rw [update_eq_self] at hq
      exact hq
  | @quit p β a k hp hq =>
    have hc := hall p
    rw [hp] at hc
    dsimp only at hc
    rw [Prog.follows_act] at hc
    refine ⟨tok, hinv, fun q => ?_⟩
    have hq := follows_setProg (p := p) (c := none) (t := tok p) hall (hquit β a _ hq hc.1) q
    rw [update_eq_self] at hq
    exact hq

include ht hinit in
theorem Backed.of_reached (h : Reached sem start G quits s m) : Backed P inv rest m := by
  induction h with
  | refl => exact ⟨fun _ => t, hinit, fun _ => ht⟩
  | tail _ ht ih => exact ih.turn hstart hact hquit ht

omit [DecidableEq ι] hstart hact hquit in
/-- The tokens, with what is known of a thread in each case. -/
theorem Backed.tokens (h : Backed P inv rest m) :
    ∃ tok : ι → τ, inv m.state tok ∧ (∀ p, m.prog p = none → rest (tok p)) ∧
      ∀ p c, m.prog p = some c → c.Follows P (fun _ t => rest t) (tok p) := by
  obtain ⟨tok, hinv, hall⟩ := h
  refine ⟨tok, hinv, fun p hp => ?_, fun p c hp => ?_⟩
  · have hrest := hall p
    rw [hp] at hrest
    exact hrest
  · have hfol := hall p
    rw [hp] at hfol
    exact hfol

end Backed

/-- There are tokens for the threads that satisfy the invariant together with the state,
and the rest of every thread follows the protocol from its token. -/
def Certified (P : Protocol A τ) (inv : σ → (ι → τ) → Prop) (idle : τ) (m : Threads ι A σ) :
    Prop :=
  ∃ tok : ι → τ, inv m.state tok ∧
    ∀ p, match m.prog p with
      | none => tok p = idle
      | some c => c.Follows P (fun _ t => t = idle) (tok p)

theorem Certified.of_reachable {s : σ} (hinit : inv s fun _ => idle)
    (hstart : ∀ p s c, start p s c → c.Follows P (fun _ t => t = idle) idle)
    (hact : ∀ (β : Type) p (a : A β) s r s' tok, G β p a s → (sem p).exec a s = .ok (r, s') →
      inv s tok → P.pre β a (tok p) →
      ∃ t, P.next β a (tok p) r t ∧ inv s' (update tok p t))
    (h : Reachable sem start G s m) : Certified P inv idle m := by
  have hreach : Reached sem start G (fun _ _ => False) s m := h.reached
  have hback : Backed P inv (fun t => t = idle) m := by
    refine Backed.of_reached rfl hinit ?_ hact (fun _ _ _ hq => hq.elim) hreach
    intro p s c tok hc hinv hidle
    refine ⟨tok p, ?_, ?_⟩
    · rw [update_eq_self]
      exact hinv
    · rw [hidle]
      exact hstart p s c hc
  exact hback

/-! ## A lock and the tokens of its holders -/

/-- The lock is held by exactly the thread whose token says so. -/
def Holder (l : Option ι) (has : τ → Prop) (tok : ι → τ) : Prop := ∀ p, l = some p ↔ has (tok p)

section Holder

variable {l : Option ι} {has : τ → Prop} {tok : ι → τ} {p : ι} {t : τ}

theorem Holder.acquire (h : Holder none has tok) (ht : has t) :
    Holder (some p) has (update tok p t) := by
  intro q
  by_cases hq : q = p
  · subst hq
    rw [update_self]
    simp [ht]
  · have hnot := h q
    rw [update_of_ne hq, ← hnot]
    simp [Ne.symm hq]

theorem Holder.release (h : Holder l has tok) (hp : has (tok p)) (ht : ¬ has t) :
    Holder none has (update tok p t) := by
  have hl := (h p).2 hp
  intro q
  by_cases hq : q = p
  · subst hq
    rw [update_self]
    simp [ht]
  · have hother := h q
    rw [hl] at hother
    rw [update_of_ne hq, ← hother]
    simp [Ne.symm hq]

theorem Holder.keep (h : Holder l has tok) (ht : has t ↔ has (tok p)) :
    Holder l has (update tok p t) := by
  intro q
  by_cases hq : q = p
  · subst hq
    rw [update_self, ht]
    exact h q
  · rw [update_of_ne hq]
    exact h q

omit [DecidableEq ι] in
theorem Holder.unique (h : Holder l has tok) {q : ι} (hp : has (tok p)) (hq : has (tok q)) :
    q = p := by
  have h1 := (h p).2 hp
  have h2 := (h q).2 hq
  rw [h1] at h2
  exact (Option.some.inj h2).symm

end Holder

end Qwin.Threads
