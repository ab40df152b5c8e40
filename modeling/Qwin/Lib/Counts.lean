import Mathlib.Algebra.BigOperators.Pi
import Mathlib.Algebra.BigOperators.Ring.Finset
import Mathlib.Algebra.Order.BigOperators.Group.Finset

/-!
# Reference counts

`Counts S ref hold` says that the counter of every resource is the number of references the
holders in `S` have to it. A count is an integer, so that a holder may be described by what
it has beyond some other count, but no holder has a negative number of references.

A resource whose counter is at most the share of one holder is held by no other; a step
that changes the counter changes the share of one holder by the same amount, and a step
that moves references leaves the counter alone.
-/

namespace Qwin

open Function (update update_of_ne update_self)

variable {ι κ : Type} {S : Finset ι} {ref ref' : κ → ℤ} {hold hold' : ι → κ → ℤ}

structure Counts (S : Finset ι) (ref : κ → ℤ) (hold : ι → κ → ℤ) : Prop where
  total : ∀ k, ref k = ∑ p ∈ S, hold p k
  nonneg : ∀ p ∈ S, ∀ k, 0 ≤ hold p k

namespace Counts

variable {p : ι}

theorem hold_le (h : Counts S ref hold) (hp : p ∈ S) (k : κ) : hold p k ≤ ref k := by
  rw [h.total k]
  exact Finset.single_le_sum (fun q hq => h.nonneg q hq k) hp

theorem hold_eq_zero (h : Counts S ref hold) (hp : p ∈ S) {k : κ} (hk : ref k = 0) : hold p k = 0 :=
  le_antisymm (hk ▸ h.hold_le hp k) (h.nonneg p hp k)

variable [DecidableEq ι]
variable {q : ι}

variable (h : Counts S ref hold) (hp : p ∈ S)
include h hp

theorem hold_add_le (hq : q ∈ S) (hpq : p ≠ q) (k : κ) : hold p k + hold q k ≤ ref k := by
  have hpair : ∑ x ∈ {p, q}, hold x k = hold p k + hold q k := Finset.sum_pair hpq
  rw [h.total k, ← hpair]
  refine Finset.sum_le_sum_of_subset_of_nonneg ?_ fun x hx _ => h.nonneg x hx k
  intro x hx
  rcases Finset.mem_insert.1 hx with rfl | hx
  · exact hp
  · rw [Finset.mem_singleton.1 hx]
    exact hq

theorem eq_zero_of_le (hq : q ∈ S) (hqp : q ≠ p)
    {k : κ} (hk : ref k ≤ hold p k) : hold q k = 0 := by
  have hadd := h.hold_add_le hp hq hqp.symm k
  have hpos := h.nonneg q hq k
  omega

/-- The share of one holder changes, and the counters with it. -/
theorem adjust (hother : ∀ q ∈ S, q ≠ p → hold' q = hold q)
    (href : ∀ k, ref' k - ref k = hold' p k - hold p k) (hpos : ∀ k, 0 ≤ hold' p k) :
    Counts S ref' hold' := by
  constructor
  · intro k
    have hsum : ∑ q ∈ S.erase p, hold' q k = ∑ q ∈ S.erase p, hold q k := by
      refine Finset.sum_congr rfl fun q hq => ?_
      rw [hother q (Finset.mem_of_mem_erase hq) (Finset.ne_of_mem_erase hq)]
    have hold1 := Finset.sum_erase_add S (fun q => hold q k) hp
    have hold2 := Finset.sum_erase_add S (fun q => hold' q k) hp
    have htot := h.total k
    have hk := href k
    omega
  · intro q hq k
    by_cases hqp : q = p
    · rw [hqp]
      exact hpos k
    · rw [hother q hq hqp]
      exact h.nonneg q hq k

theorem pass (hq : q ∈ S) (hpq : p ≠ q) (hother : ∀ x ∈ S, x ≠ p → x ≠ q → hold' x = hold x)
    (hsum : ∀ k, hold' p k + hold' q k = hold p k + hold q k)
    (hpos : ∀ k, 0 ≤ hold' p k) (hpos' : ∀ k, 0 ≤ hold' q k) : Counts S ref hold' := by
  have hmid : Counts S (fun k => ref k + (hold' p k - hold p k)) (update hold p (hold' p)) := by
    refine h.adjust hp (fun x _ hx => update_of_ne hx _ _) (fun k => ?_) fun k => ?_
    · rw [update_self]
      omega
    · rw [update_self]
      exact hpos k
  refine hmid.adjust hq (fun x hx hxq => ?_) (fun k => ?_) hpos'
  · by_cases hxp : x = p
    · rw [hxp, update_self]
    · rw [update_of_ne hxp]
      exact hother x hx hxp hxq
  · have hk := hsum k
    rw [update_of_ne hpq.symm]
    omega

end Counts

/-! ## References from a table -/

section Tally

variable [DecidableEq κ]

/-- The references an optional entry makes. -/
def one : Option κ → κ → ℤ
  | none => 0
  | some k => Pi.single k 1

/-- The references the first `n` entries of a table make. -/
def tally (o : ℕ → Option κ) (n : ℕ) : κ → ℤ := ∑ i ∈ Finset.range n, one (o i)

theorem one_apply (x : Option κ) (k : κ) : one x k = if x = some k then 1 else 0 := by
  cases x with
  | none => simp [one]
  | some y => simp [one, Pi.single_apply, eq_comm]

section

variable (o : ℕ → Option κ)

theorem tally_succ (n : ℕ) : tally o (n + 1) = tally o n + one (o n) :=
  Finset.sum_range_succ _ _

theorem tally_apply (n : ℕ) (k : κ) :
    tally o n k = ((Finset.range n).filter fun i => o i = some k).card := by
  rw [tally, Finset.sum_apply, ← Finset.sum_boole]
  exact Finset.sum_congr rfl fun i _ => one_apply (o i) k

theorem tally_nonneg (n : ℕ) (k : κ) : 0 ≤ tally o n k := by
  rw [tally_apply]
  exact Int.natCast_nonneg _

end

variable {n : ℕ} {o : ℕ → Option κ}

theorem one_le_tally {i : ℕ} (hi : i < n) {k : κ} (h : o i = some k) : 1 ≤ tally o n k := by
  rw [tally_apply]
  have hmem : i ∈ (Finset.range n).filter fun i => o i = some k :=
    Finset.mem_filter.2 ⟨Finset.mem_range.2 hi, h⟩
  have hpos := Finset.card_pos.2 ⟨i, hmem⟩
  omega

theorem tally_eq_zero (h : ∀ i < n, o i = none) : tally o n = 0 := by
  refine Finset.sum_eq_zero fun i hi => ?_
  rw [h i (Finset.mem_range.1 hi)]
  rfl

theorem tally_update {i : ℕ} (hi : i < n) (v : Option κ) :
    tally (update o i v) n = tally o n - one (o i) + one v := by
  have hmem : i ∈ Finset.range n := Finset.mem_range.2 hi
  have hrest : ∑ j ∈ (Finset.range n).erase i, one (update o i v j) =
      ∑ j ∈ (Finset.range n).erase i, one (o j) := by
    refine Finset.sum_congr rfl fun j hj => ?_
    rw [update_of_ne (Finset.ne_of_mem_erase hj)]
  rw [tally, tally, ← Finset.sum_erase_add _ _ hmem, hrest, update_self,
    ← Finset.sum_erase_add _ (fun j => one (o j)) hmem]
  simp

end Tally

end Qwin
