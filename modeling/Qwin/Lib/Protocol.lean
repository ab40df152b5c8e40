import Qwin.Lib.Prog

/-!
# Protocols

A `Protocol` is a typestate for programs: a token that the actions may require and
change. `Follows P Q c t` says that the program `c`, started with the token `t`,
performs an action only when the protocol admits it, whatever the answers are that the
protocol allows for; it is established by reading the program once and composes along
`bind` and `handle`.

Most actions do not concern a given protocol. `All N c` says that a program performs only
actions of a kind `N`; if those leave the token alone, so does the program.
-/

namespace Qwin

/-- What the actions of `A` require of a token and how they may change it. -/
structure Protocol (A : Type → Type) (τ : Type) where
  pre : (β : Type) → A β → τ → Prop
  next : (β : Type) → A β → τ → β → τ → Prop

namespace Prog

variable {A B : Type → Type} {τ σ ε α γ : Type}

/-- `c` keeps to the protocol from the token `t` on, and returns with `Q`. -/
def Follows (P : Protocol A τ) (Q : α → τ → Prop) : Prog A α → τ → Prop
  | ret a, t => Q a t
  | @act _ _ β a k, t => P.pre β a t ∧ ∀ r t', P.next β a t r t' → Follows P Q (k r) t'

section

variable {P : Protocol A τ} {Q Q' : α → τ → Prop}

theorem follows_ret {a : α} {t : τ} : Follows P Q (ret a) t ↔ Q a t := Iff.rfl

theorem follows_act {β : Type} {a : A β} {k : β → Prog A α} {t : τ} :
    Follows P Q (act a k) t ↔ P.pre β a t ∧ ∀ r t', P.next β a t r t' → Follows P Q (k r) t' := by
  rw [Follows]

theorem follows_perform {β : Type} {R : β → τ → Prop} {a : A β} {t : τ} (h : P.pre β a t)
    (hR : ∀ r t', P.next β a t r t' → R r t') : Follows P R (perform a) t :=
  follows_act.2 ⟨h, hR⟩

theorem follows_mono (h : ∀ a t, Q a t → Q' a t) {c : Prog A α} {t : τ}
    (hc : Follows P Q c t) : Follows P Q' c t := by
  induction c generalizing t with
  | ret a => exact h a t hc
  | act a k ih =>
    rw [follows_act] at hc ⊢
    exact ⟨hc.1, fun r t' hn => ih r (hc.2 r t' hn)⟩

theorem follows_bind {R : γ → τ → Prop} {c : Prog A γ} {f : γ → Prog A α} {t : τ}
    (hc : Follows P R c t) (hf : ∀ a t', R a t' → Follows P Q (f a) t') :
    Follows P Q (c >>= f) t := by
  induction c generalizing t with
  | ret a => exact hf a t hc
  | act a k ih =>
    rw [follows_act] at hc
    rw [act_bind, follows_act]
    exact ⟨hc.1, fun r t' hn => ih r (hc.2 r t' hn)⟩

/-- If every action is implemented by a program that follows another protocol and
changes the token as the first one says, then so is a program. -/
theorem follows_handle {P' : Protocol B τ} {h : (β : Type) → A β → Prog B β}
    (hh : ∀ (β : Type) (a : A β) (t : τ), P.pre β a t →
      Follows P' (fun r t' => P.next β a t r t') (h β a) t)
    {c : Prog A α} {t : τ} (hc : Follows P Q c t) : Follows P' Q (c.handle h) t := by
  induction c generalizing t with
  | ret a => exact hc
  | act a k ih =>
    rw [follows_act] at hc
    rw [handle_act]
    exact follows_bind (hh _ a t hc.1) fun r t' hn => ih r (hc.2 r t' hn)

/-- If the token is a function of the state and the actions change it as the protocol says,
then a run ends with the token that the program is to end with. -/
theorem follows_run {m : Sem A σ ε} {μ : σ → τ}
    (hm : ∀ (β : Type) (a : A β) (s s' : σ) (r : β), m.exec a s = .ok (r, s') →
      P.next β a (μ s) r (μ s'))
    {c : Prog A α} {s s' : σ} {x : α} (hc : Follows P Q c (μ s))
    (hrun : c.run m s = .ok (x, s')) : Q x (μ s') := by
  induction c generalizing s with
  | ret a =>
    cases hrun
    exact hc
  | act a k ih =>
    rw [follows_act] at hc
    rw [run_act] at hrun
    cases hx : m.exec a s with
    | error e =>
      rw [hx] at hrun
      cases hrun
    | ok y =>
      rw [hx] at hrun
      exact ih y.1 (hc.2 y.1 (μ y.2) (hm _ a s y.2 y.1 hx)) hrun

theorem follows_of_pre (hP : ∀ (β : Type) (a : A β) (t : τ), P.pre β a t) (c : Prog A α)
    (t : τ) : Follows P (fun _ _ => True) c t := by
  induction c generalizing t with
  | ret a => exact trivial
  | act a k ih => exact follows_act.2 ⟨hP _ a t, fun r t' _ => ih r t'⟩

end

/-! ## Programs that end with a known token -/

/-- The program keeps to the protocol and takes the token from `t` to `u`. -/
def Takes (P : Protocol A τ) (t u : τ) (c : Prog A α) : Prop := Follows P (fun _ t' => t' = u) c t

/-- The bind rule when the first part ends with a known token. -/
theorem follows_bind_eq {P : Protocol A τ} {Q : α → τ → Prop} {c : Prog A γ}
    {f : γ → Prog A α} {t u : τ} (hc : Takes P t u c) (hf : ∀ a, Follows P Q (f a) u) :
    Follows P Q (c >>= f) t :=
  follows_bind hc fun a t' ht => by rw [ht]; exact hf a

namespace Takes

variable {P : Protocol A τ} {t u v : τ}

theorem pure {a : α} : Takes P t t (pure a : Prog A α) := rfl

theorem bind {c : Prog A γ} {f : γ → Prog A α} (hc : Takes P t u c)
    (hf : ∀ a, Takes P u v (f a)) : Takes P t v (c >>= f) :=
  follows_bind_eq hc hf

theorem ite {C : Prop} {_ : Decidable C} {c d : Prog A α} (hc : Takes P t u c)
    (hd : Takes P t u d) : Takes P t u (if C then c else d) := by
  split
  · exact hc
  · exact hd

theorem perform {β : Type} {a : A β} (h : P.pre β a t)
    (hn : ∀ r t', P.next β a t r t' → t' = u) : Takes P t u (perform a) :=
  follows_perform h hn

theorem abort {a : A Empty} (h : P.pre Empty a t) : Takes P t u (abort a : Prog A α) :=
  follows_act.2 ⟨h, fun r => nomatch r⟩

/-- The bind rule when the token depends on whether the first part returns a value. -/
theorem bindOption {c : Prog A (Option γ)} {f : Option γ → Prog A α} {g : γ → τ}
    (hc : Follows P (fun r t' => t' = r.elim u g) c t) (hnone : Takes P u v (f none))
    (hsome : ∀ x, Takes P (g x) v (f (some x))) : Takes P t v (c >>= f) := by
  refine follows_bind hc ?_
  rintro r _ rfl
  cases r with
  | none => exact hnone
  | some x => exact hsome x

end Takes

/-! ## Programs that a protocol does not concern -/

/-- Every action of the program is one of `N`, whatever the answers are. -/
def All (N : (β : Type) → A β → Prop) : Prog A α → Prop
  | ret _ => True
  | @act _ _ β a k => N β a ∧ ∀ r, All N (k r)

namespace All

variable {N : (β : Type) → A β → Prop}

theorem pure {a : α} : All N (pure a : Prog A α) := trivial

theorem perform {β : Type} {a : A β} (h : N β a) : All N (perform a) := ⟨h, fun _ => trivial⟩

theorem abort {a : A Empty} (h : N Empty a) : All N (abort a : Prog A α) :=
  ⟨h, fun r => nomatch r⟩

theorem bind {c : Prog A γ} {f : γ → Prog A α} (hc : All N c) (hf : ∀ a, All N (f a)) :
    All N (c >>= f) := by
  induction c with
  | ret a => exact hf a
  | act a k ih => exact ⟨hc.1, fun r => ih r (hc.2 r)⟩

theorem ite {P : Prop} {_ : Decidable P} {c d : Prog A α} (hc : All N c) (hd : All N d) :
    All N (if P then c else d) := by
  split
  · exact hc
  · exact hd

end All

/-- A program of actions that leave the token alone leaves it alone. -/
theorem follows_of_all {P : Protocol A τ} {N : (β : Type) → A β → Prop} {t : τ}
    (hN : ∀ (β : Type) (a : A β), N β a →
      P.pre β a t ∧ ∀ r t', P.next β a t r t' → t' = t)
    {c : Prog A α} (hc : All N c) : Takes P t t c := by
  induction c with
  | ret a => exact rfl
  | act a k ih =>
    obtain ⟨hpre, hnext⟩ := hN _ a hc.1
    refine follows_act.2 ⟨hpre, fun r t' hn => ?_⟩
    rw [hnext r t' hn]
    exact ih r (hc.2 r)

end Prog

namespace Protocol

variable {A B : Type → Type} {τ τ' α : Type}

/-- The protocol of `A` on programs that also perform actions of `B`. -/
def onLeft (P : Protocol A τ) : Protocol (Plus A B) τ where
  pre
    | β, .left a, t => P.pre β a t
    | _, .right _, _ => True
  next
    | β, .left a, t, r, t' => P.next β a t r t'
    | _, .right _, t, _, t' => t' = t

def prod (P : Protocol A τ) (P' : Protocol A τ') : Protocol A (τ × τ') where
  pre β a t := P.pre β a t.1 ∧ P'.pre β a t.2
  next β a t r t' := P.next β a t.1 r t'.1 ∧ P'.next β a t.2 r t'.2

theorem follows_prod {P : Protocol A τ} {P' : Protocol A τ'} {Q : α → τ → Prop}
    {Q' : α → τ' → Prop} {c : Prog A α} {t : τ × τ'} (h : c.Follows P Q t.1)
    (h' : c.Follows P' Q' t.2) : c.Follows (P.prod P') (fun a u => Q a u.1 ∧ Q' a u.2) t := by
  induction c generalizing t with
  | ret a => exact ⟨h, h'⟩
  | act a k ih =>
    rw [Prog.follows_act] at h h' ⊢
    exact ⟨⟨h.1, h'.1⟩, fun r u hn => ih r (h.2 r u.1 hn.1) (h'.2 r u.2 hn.2)⟩

end Protocol

end Qwin
