import Mathlib.Logic.Relation

/-!
# Programs over atomic actions

`Prog A α` is a program that performs actions of the signature `A` and returns a
value of type `α`: the code is an ordinary `do` block and the actions are the
points at which other parties, or a power failure, may come in between. A
semantics `Sem A σ ε` executes one action on a state `σ`, or stops with an error
of type `ε`.

`wp m I E Q p s` is the one judgement everything else is read off from. Running
`p` from `s`, every action is met in a state where `I` allows it, a stop is one
that `E` allows, and a return satisfies `Q`. With a trivial `I` it is a triple for
sequential code; with `I` an invariant of the state it is a triple with a crash
condition, because the states in which actions are met are the states a crash can
leave behind.
-/

namespace Qwin

/-- A program that performs actions of `A` and returns a value of type `α`. -/
inductive Prog (A : Type → Type) (α : Type) : Type 1 where
  | ret (a : α) : Prog A α
  | act {β : Type} (a : A β) (k : β → Prog A α) : Prog A α

/-- How one action changes the state, or stops. -/
structure Sem (A : Type → Type) (σ ε : Type) where
  exec : {β : Type} → A β → σ → Except ε (β × σ)

/-- The semantics that stops with `e` before an action that `G` rules out. -/
def Sem.assume {A : Type → Type} {σ ε : Type} (m : Sem A σ ε)
    (G : (β : Type) → A β → σ → Bool) (e : ε) : Sem A σ ε where
  exec {β} a s := if G β a s then m.exec a s else .error e

variable {A : Type → Type}

theorem Sem.assume_exec {σ ε β : Type} {m : Sem A σ ε}
    {G : (β : Type) → A β → σ → Bool} {e : ε} {a : A β} {s : σ} (h : G β a s = true) :
    (m.assume G e).exec a s = m.exec a s := if_pos h

/-- The semantics that also keeps a record of the actions that were taken. -/
def Sem.observe {A : Type → Type} {σ ε γ : Type} (m : Sem A σ ε)
    (note : (β : Type) → A β → β → γ → γ) : Sem A (σ × γ) ε where
  exec {β} a s :=
    match m.exec a s.1 with
    | .ok (r, s') => .ok (r, s', note β a r s.2)
    | .error e => .error e

theorem Sem.observe_ok {σ ε γ β : Type} {m : Sem A σ ε}
    {note : (β : Type) → A β → β → γ → γ} {a : A β} {s s' : σ × γ} {r : β} :
    (m.observe note).exec a s = .ok (r, s') ↔
      m.exec a s.1 = .ok (r, s'.1) ∧ s'.2 = note β a r s.2 := by
  dsimp only [Sem.observe]
  constructor
  · intro h
    split at h
    next hx =>
      cases h
      exact ⟨hx, rfl⟩
    · cases h
  · rintro ⟨hx, hn⟩
    rw [hx]
    dsimp only
    rw [← hn]

namespace Prog

variable {A B : Type → Type} {σ ε α γ : Type}

def bind : Prog A α → (α → Prog A γ) → Prog A γ
  | ret a, f => f a
  | act a k, f => act a fun r => (k r).bind f

instance : Monad (Prog A) where
  pure := ret
  bind := bind

/-- The program that performs one action and returns its answer. -/
def perform {β : Type} (a : A β) : Prog A β := act a ret

@[simp] theorem pure_eq_ret (a : α) : (pure a : Prog A α) = ret a := rfl

@[simp] theorem ret_bind (a : α) (f : α → Prog A γ) : (ret a >>= f) = f a := rfl

variable {β : Type}

@[simp] theorem act_bind (a : A β) (k : β → Prog A α) (f : α → Prog A γ) :
    (act a k >>= f) = act a fun r => k r >>= f := rfl

theorem bind_assoc' {δ : Type} (p : Prog A α) (f : α → Prog A γ) (g : γ → Prog A δ) :
    ((p >>= f) >>= g) = (p >>= fun a => f a >>= g) := by
  induction p with
  | ret a => rfl
  | act a k ih =>
    simp only [act_bind]
    congr 1
    funext r
    exact ih r

/-! ## Running a program to its end -/

/-- Run `p` from `s` with nothing in between. -/
def run (m : Sem A σ ε) : Prog A α → σ → Except ε (α × σ)
  | ret a, s => .ok (a, s)
  | act a k, s =>
    match m.exec a s with
    | .ok (r, s') => (k r).run m s'
    | .error e => .error e

@[simp] theorem run_ret (m : Sem A σ ε) (a : α) (s : σ) :
    (ret a : Prog A α).run m s = .ok (a, s) := rfl

theorem run_act (m : Sem A σ ε) (a : A β) (k : β → Prog A α) (s : σ) : (act a k).run m s =
      match m.exec a s with
      | .ok (r, s') => (k r).run m s'
      | .error e => .error e := by
  rw [run]

@[simp] theorem run_perform (m : Sem A σ ε) (a : A β) (s : σ) :
    (perform a).run m s = m.exec a s := by
  rw [perform, run_act]
  cases m.exec a s with
  | ok x => rfl
  | error e => rfl

theorem run_bind (m : Sem A σ ε) (p : Prog A α) (f : α → Prog A γ) (s : σ) :
    (p >>= f).run m s =
      match p.run m s with
      | .ok (a, s') => (f a).run m s'
      | .error e => .error e := by
  induction p generalizing s with
  | ret a => rfl
  | act a k ih =>
    rw [act_bind, run_act, run_act]
    cases h : m.exec a s with
    | ok x =>
      obtain ⟨r, s'⟩ := x
      exact ih r s'
    | error e => rfl

variable {s : σ} {p : Prog A α} {m : Sem A σ ε}

/-- A run that returns has returned from its first part. -/
theorem run_bind_eq_ok {f : α → Prog A γ} {s' : σ} {b : γ} : (p >>= f).run m s = .ok (b, s') ↔
      ∃ a s1, p.run m s = .ok (a, s1) ∧ (f a).run m s1 = .ok (b, s') := by
  rw [run_bind]
  constructor
  · intro h
    cases hp : p.run m s with
    | ok x =>
      rw [hp] at h
      exact ⟨x.1, x.2, rfl, h⟩
    | error e =>
      rw [hp] at h
      cases h
  · rintro ⟨a, s1, hp, hf⟩
    rw [hp]
    exact hf

/-- The program returns from `s`, and `test` accepts what it returns. -/
def passes (m : Sem A σ ε) (p : Prog A α) (s : σ) (test : α → σ → Bool) : Bool :=
  match p.run m s with
  | .ok (a, s') => test a s'
  | .error _ => false

theorem exists_of_passes {test : α → σ → Bool}
    (h : p.passes m s test = true) : ∃ a s', p.run m s = .ok (a, s') ∧ test a s' = true := by
  rw [passes] at h
  cases hp : p.run m s with
  | ok x =>
    rw [hp] at h
    exact ⟨x.1, x.2, rfl, h⟩
  | error e =>
    rw [hp] at h
    cases h

/-! ## The judgement -/

/-- Running `p` from `s`: every action is met in a state where `I` allows it,
a stop is one that `E` allows, and a return satisfies `Q`. -/
def wp (m : Sem A σ ε) (I : (β : Type) → A β → σ → Prop) (E : ε → Prop)
    (Q : α → σ → Prop) : Prog A α → σ → Prop
  | ret a, s => Q a s
  | @act _ _ β a k, s =>
    I β a s ∧
      match m.exec a s with
      | .ok (r, s') => wp m I E Q (k r) s'
      | .error e => E e

section

variable {m : Sem A σ ε} {I I' : (β : Type) → A β → σ → Prop} {E E' : ε → Prop}
  {Q Q' : α → σ → Prop}

@[simp] theorem wp_ret (a : α) (s : σ) : wp m I E Q (ret a) s ↔ Q a s := Iff.rfl

theorem wp_act {β : Type} (a : A β) (k : β → Prog A α) (s : σ) :
    wp m I E Q (act a k) s ↔
      I β a s ∧
        match m.exec a s with
        | .ok (r, s') => wp m I E Q (k r) s'
        | .error e => E e := by
  rw [wp]

variable {s s' : σ}

theorem wp_act_ok {β : Type} {a : A β} {k : β → Prog A α} {r : β} (h : m.exec a s = .ok (r, s')) :
    wp m I E Q (act a k) s ↔ I β a s ∧ wp m I E Q (k r) s' := by
  rw [wp_act, h]

@[simp] theorem wp_bind (p : Prog A γ) (f : γ → Prog A α) (s : σ) :
    wp m I E Q (p >>= f) s ↔ wp m I E (fun a s' => wp m I E Q (f a) s') p s := by
  induction p generalizing s with
  | ret a => rfl
  | act a k ih =>
    rw [act_bind, wp_act, wp_act]
    cases m.exec a s with
    | ok x =>
      obtain ⟨r, s'⟩ := x
      exact and_congr_right fun _ => ih r s'
    | error e => rfl

theorem wp_mono (hI : ∀ β (a : A β) s, I β a s → I' β a s) (hE : ∀ e, E e → E' e)
    (hQ : ∀ a s, Q a s → Q' a s) (p : Prog A α) (s : σ)
    (h : wp m I E Q p s) : wp m I' E' Q' p s := by
  induction p generalizing s with
  | ret a => exact hQ a s h
  | act a k ih =>
    rw [wp_act] at h ⊢
    refine ⟨hI _ a s h.1, ?_⟩
    have h2 := h.2
    cases hx : m.exec a s with
    | ok x =>
      obtain ⟨r, s'⟩ := x
      rw [hx] at h2
      exact ih r s' h2
    | error e =>
      rw [hx] at h2
      exact hE e h2

theorem wp_pure {a : α} (h : Q a s) : wp m I E Q (pure a) s := (wp_ret a s).2 h

theorem wp_seq {p : Prog A γ} {f : γ → Prog A α} (h : wp m I E (fun a s' => wp m I E Q (f a) s') p s) :
    wp m I E Q (p >>= f) s :=
  (wp_bind p f s).2 h

variable {p : Prog A α}

/-- The consequence rule in the form used to pass from the specification of a
called program to what its caller needs. -/
theorem wp_conseq (h : wp m I E Q p s) (hQ : ∀ a s, Q a s → Q' a s) : wp m I E Q' p s :=
  wp_mono (fun _ _ _ h => h) (fun _ h => h) hQ p s h

theorem wp_perform {β : Type} {R : β → σ → Prop} (a : A β) (s : σ) :
    wp m I E R (perform a) s ↔
      I β a s ∧
        match m.exec a s with
        | .ok (r, s') => R r s'
        | .error e => E e := by
  rw [perform, wp_act]
  cases m.exec a s with
  | ok x => rfl
  | error e => rfl

/-- One action at the head of a program, when its outcome is known. -/
theorem wp_step {β : Type} {a : A β} {f : β → Prog A α} {r : β}
    (hI : I β a s) (hx : m.exec a s = .ok (r, s')) (h : wp m I E Q (f r) s') :
    wp m I E Q (perform a >>= f) s := by
  rw [wp_bind, wp_perform, hx]
  exact ⟨hI, h⟩

/-- The last action of a program, when its outcome is known. -/
theorem wp_last {β : Type} {R : β → σ → Prop} {a : A β} {r : β}
    (hI : I β a s) (hx : m.exec a s = .ok (r, s')) (h : R r s') : wp m I E R (perform a) s := by
  rw [wp_perform, hx]
  exact ⟨hI, h⟩

variable {e : ε}

theorem wp_stop {β : Type} {R : β → σ → Prop} {a : A β}
    (hI : I β a s) (hx : m.exec a s = .error e) (h : E e) : wp m I E R (perform a) s := by
  rw [wp_perform, hx]
  exact ⟨hI, h⟩

theorem wp_run (h : wp m I E Q p s) :
    match p.run m s with
    | .ok x => Q x.1 x.2
    | .error e => E e := by
  induction p generalizing s with
  | ret a => exact h
  | act b k ih =>
    rw [wp_act] at h
    rw [run_act]
    have h2 := h.2
    cases hx : m.exec b s with
    | ok x =>
      rw [hx] at h2
      exact ih x.1 h2
    | error e =>
      rw [hx] at h2
      exact h2

theorem wp_run_ok {a : α} (h : wp m I E Q p s) (hr : p.run m s = .ok (a, s')) : Q a s' := by
  have hw := wp_run h
  rwa [hr] at hw

theorem wp_run_error (h : wp m I E Q p s) (hr : p.run m s = .error e) : E e := by
  have hw := wp_run h
  rwa [hr] at hw

/-- A judgement that excludes every stop makes the program return. -/
theorem wp_run_exists (h : wp m I (fun _ => False) Q p s) :
    ∃ a s', p.run m s = .ok (a, s') ∧ Q a s' := by
  cases hr : p.run m s with
  | ok x =>
    obtain ⟨a, s'⟩ := x
    exact ⟨a, s', rfl, wp_run_ok h hr⟩
  | error e => exact (wp_run_error h hr).elim

/-- A run that the guard does not stop is a run without the guard. -/
theorem run_assume {G : (β : Type) → A β → σ → Bool} (h : p.run (m.assume G e) s ≠ .error e) :
    p.run (m.assume G e) s = p.run m s := by
  induction p generalizing s with
  | ret a => rfl
  | act a k ih =>
    rw [run_act] at h
    rw [run_act, run_act]
    by_cases hG : G _ a s = true
    · rw [Sem.assume_exec hG] at h ⊢
      cases hx : m.exec a s with
      | ok x =>
        rw [hx] at h
        exact ih x.1 h
      | error e' => rfl
    · have hstop : (m.assume G e).exec a s = .error e := if_neg hG
      rw [hstop] at h
      exact absurd rfl h

/-- A judgement that excludes the stop of `G` is one about the semantics without it. -/
theorem wp_of_not_assumed {G : (β : Type) → A β → σ → Bool}
    (he : ¬ E e) (h : wp (m.assume G e) I E Q p s) : wp m I E Q p s := by
  induction p generalizing s with
  | ret a => exact h
  | act a k ih =>
    rw [wp_act] at h ⊢
    refine ⟨h.1, ?_⟩
    have h2 := h.2
    by_cases hG : G _ a s = true
    · rw [Sem.assume_exec hG] at h2
      cases hx : m.exec a s with
      | ok x =>
        obtain ⟨r, s'⟩ := x
        rw [hx] at h2
        exact ih r h2
      | error e' =>
        rw [hx] at h2
        exact h2
    · have hstop : (m.assume G e).exec a s = .error e := if_neg hG
      rw [hstop] at h2
      exact absurd h2 he

end

/-! ## States a program passes through -/

/-- `Visits m p s t`: running `p` from `s` passes through the state `t`, before its
first action, between two actions or after its last one. -/
inductive Visits (m : Sem A σ ε) : Prog A α → σ → σ → Prop
  | here (p : Prog A α) (s : σ) : Visits m p s s
  | step {β : Type} {a : A β} {k : β → Prog A α} {s s' t : σ} {r : β}
      (h : m.exec a s = .ok (r, s')) (ht : Visits m (k r) s' t) : Visits m (act a k) s t

/-- A state condition that a judgement maintains holds wherever the run stops for
a moment. -/
theorem wp_visits {C : σ → Prop} {E : ε → Prop} {Q : α → σ → Prop} (hQ : ∀ a s, Q a s → C s) {t : σ}
    (h : wp m (fun _ _ => C) E Q p s) (ht : Visits m p s t) : C t := by
  induction ht with
  | here p s =>
    cases p with
    | ret a => exact hQ a s h
    | act a k => exact ((wp_act a k s).1 h).1
  | step hx _ ih =>
    rw [wp_act_ok hx] at h
    exact ih h.2

-- from here on the judgement is used through its rules only
attribute [irreducible] wp

/-! ## Putting signatures together -/

end Prog

/-- The actions of `A` and those of `B`. -/
inductive Plus (A B : Type → Type) (β : Type) : Type where
  | left (a : A β)
  | right (b : B β)

namespace Prog

variable {A B : Type → Type} {σ ε α γ : Type}

/-- An action that does not come back, as a program of any type. -/
def abort (a : A Empty) : Prog A α := act a fun e => nomatch e

theorem wp_abort {m : Sem A σ ε} {I : (β : Type) → A β → σ → Prop} {E : ε → Prop}
    {Q : α → σ → Prop} {a : A Empty} {s : σ} {e : ε} (hI : I Empty a s)
    (hx : m.exec a s = .error e) (h : E e) : wp m I E Q (abort a) s := by
  rw [abort, wp_act, hx]
  exact ⟨hI, h⟩

/-! ## Implementing one signature in another -/

/-- Replace every action of `p` by a program over the signature `B`. -/
def handle (h : (β : Type) → A β → Prog B β) : Prog A α → Prog B α
  | ret a => ret a
  | @act _ _ β a k => (h β a).bind fun r => (k r).handle h

theorem handle_act (h : (β : Type) → A β → Prog B β) {β : Type} (a : A β)
    (k : β → Prog A α) : (act a k).handle h = (h β a >>= fun r => (k r).handle h) := rfl

end Prog

end Qwin
