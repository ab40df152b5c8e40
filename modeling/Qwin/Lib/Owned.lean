import Mathlib.Data.Nat.Basic
import Mathlib.Logic.Function.Basic

/-!
# Marked cells and the keys that own them

Keys point to cells of an area, with `0` for a key that points nowhere. A table is in
order when no two keys share a cell and a cell is marked exactly when some key points
to it. Allocation claims an unmarked cell for a key, and freeing releases it.
-/

namespace Qwin

open Function (update update_of_ne update_self)

/-- No two keys of `P` share a cell, and the cells of `D` that are marked in `m` are the
ones pointed to. -/
structure Owned {κ : Type} (D : ℕ → Prop) (P : κ → ℕ) (m : ℕ → Bool) : Prop where
  area : ∀ k, P k ≠ 0 → D (P k)
  inj : ∀ k l, P k ≠ 0 → P k = P l → k = l
  marked : ∀ b, D b → b ≠ 0 → (m b = true ↔ ∃ k, P k = b)

namespace Owned

variable {κ : Type} {D : ℕ → Prop} {P Q : κ → ℕ} {m n : ℕ → Bool} {k l : κ} {b : ℕ}

section

variable (h : Owned D P m)
include h

theorem congr (hP : ∀ k, Q k = P k) (hm : ∀ b, D b → n b = m b) : Owned D Q n := by
  have hQ : Q = P := funext hP
  subst hQ
  refine ⟨h.area, h.inj, fun b hb h0 => ?_⟩
  rw [hm b hb]
  exact h.marked b hb h0

theorem mark (hk : P k ≠ 0) : m (P k) = true :=
  (h.marked (P k) (h.area k hk) hk).2 ⟨k, rfl⟩

theorem ne_of_unmarked (hb : D b) (h0 : b ≠ 0) (hm : m b = false) : P k ≠ b := by
  intro hk
  have hmark := (h.marked b hb h0).2 ⟨k, hk⟩
  rw [hm] at hmark
  cases hmark

theorem ne (hk : P k ≠ 0) (hkl : k ≠ l) : P k ≠ P l :=
  fun he => hkl (h.inj k l hk he)

end

variable [DecidableEq κ]

theorem exists_update_iff {b c : ℕ} (hold : P k ≠ c) (hnew : b ≠ c) :
    (∃ x, P x = c) ↔ ∃ x, update P k b x = c := by
  refine exists_congr fun x => ?_
  by_cases hx : x = k
  · rw [hx, update_self]
    exact iff_of_false hold hnew
  · rw [update_of_ne hx]

/-- An unmarked cell is claimed for a key that pointed nowhere. -/
theorem claim (h : Owned D P m) (hk : P k = 0) (hb : D b) (h0 : b ≠ 0) (hm : m b = false) :
    Owned D (update P k b) (update m b true) := by
  have hfresh : ∀ x, P x ≠ b := fun x => h.ne_of_unmarked hb h0 hm
  refine ⟨fun x hx => ?_, fun x y hx hxy => ?_, fun c hc hc0 => ?_⟩
  · by_cases hxk : x = k
    · rw [hxk, update_self]
      exact hb
    · rw [update_of_ne hxk] at hx ⊢
      exact h.area x hx
  · by_cases hxk : x = k <;> by_cases hyk : y = k
    · rw [hxk, hyk]
    · rw [hxk, update_self, update_of_ne hyk] at hxy
      exact absurd hxy.symm (hfresh y)
    · rw [hyk, update_self, update_of_ne hxk] at hxy
      exact absurd hxy (hfresh x)
    · rw [update_of_ne hxk] at hx hxy
      rw [update_of_ne hyk] at hxy
      exact h.inj x y hx hxy
  · by_cases hcb : c = b
    · rw [hcb, update_self]
      exact ⟨fun _ => ⟨k, update_self k b P⟩, fun _ => rfl⟩
    · rw [update_of_ne hcb, h.marked c hc hc0]
      exact exists_update_iff (fun he => hc0 (he.symm.trans hk)) (Ne.symm hcb)

theorem release (h : Owned D P m) (hk : P k ≠ 0) :
    Owned D (update P k 0) (update m (P k) false) := by
  refine ⟨fun x hx => ?_, fun x y hx hxy => ?_, fun c hc hc0 => ?_⟩
  · by_cases hxk : x = k
    · rw [hxk, update_self] at hx
      exact absurd rfl hx
    · rw [update_of_ne hxk] at hx ⊢
      exact h.area x hx
  · by_cases hxk : x = k
    · rw [hxk, update_self] at hx
      exact absurd rfl hx
    · rw [update_of_ne hxk] at hx hxy
      by_cases hyk : y = k
      · rw [hyk, update_self] at hxy
        exact absurd hxy hx
      · rw [update_of_ne hyk] at hxy
        exact h.inj x y hx hxy
  · by_cases hcb : c = P k
    · rw [hcb, update_self]
      constructor
      · intro hf
        cases hf
      · rintro ⟨x, hx⟩
        by_cases hxk : x = k
        · rw [hxk, update_self] at hx
          exact absurd hx.symm hk
        · rw [update_of_ne hxk] at hx
          exact absurd (h.inj k x hk hx.symm).symm hxk
    · rw [update_of_ne hcb, h.marked c hc hc0]
      exact exists_update_iff (Ne.symm hcb) (Ne.symm hc0)

end Owned

end Qwin
