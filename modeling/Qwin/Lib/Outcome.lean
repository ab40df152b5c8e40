import Mathlib.Tactic.Basic

/-!
# Outcomes of a loop with fuel

A recursive program that is given fuel comes to a result, fails, or hangs because the fuel is
used up. `Ends r Q` says that `r` does not hang and that its result, if it comes to one, is
in `Q`.
-/

namespace Qwin

inductive Outcome (ε α : Type) where
  | ok (a : α)
  | fail (e : ε)
  | hang
  deriving DecidableEq

namespace Outcome

variable {ε α β : Type} {r : Outcome ε α} {f : α → Outcome ε β} {P : α → Prop} {Q : β → Prop}

protected def bind (r : Outcome ε α) (f : α → Outcome ε β) : Outcome ε β :=
  match r with
  | ok a => f a
  | fail e => fail e
  | hang => hang

instance : Monad (Outcome ε) where
  pure := ok
  bind := Outcome.bind

@[simp] theorem ok_bind (a : α) : (ok a : Outcome ε α) >>= f = f a := rfl

/-- The program ends, and a result is in `Q`. -/
def Ends (r : Outcome ε α) (Q : α → Prop) : Prop :=
  match r with
  | ok a => Q a
  | fail _ => True
  | hang => False

variable (hr : Ends r P)
include hr

theorem Ends.bind (hf : ∀ a, P a → Ends (f a) Q) : Ends (r >>= f) Q := by
  cases r with
  | ok a => exact hf a hr
  | fail e => trivial
  | hang => exact hr

theorem Ends.imp {P' : α → Prop} (hP : ∀ a, P a → P' a) : Ends r P' := by
  cases r with
  | ok a => exact hP a hr
  | fail e => trivial
  | hang => exact hr

theorem Ends.cases : (∃ a, r = ok a ∧ P a) ∨ ∃ e, r = fail e := by
  cases r with
  | ok a => exact Or.inl ⟨a, rfl, hr⟩
  | fail e => exact Or.inr ⟨e, rfl⟩
  | hang => exact absurd hr id

end Outcome

end Qwin
