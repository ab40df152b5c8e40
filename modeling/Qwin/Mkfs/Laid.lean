import Mathlib.Algebra.BigOperators.Group.Finset.Basic
import Mathlib.Algebra.Order.BigOperators.Group.Finset
import Qwin.Fs.Content

/-!
# Blocks handed out in order

`mkfs` gives blocks to inodes from a counter and never takes one back. `Laid P f nb` says
that inode `i` has its first `nb i` blocks, and the indirect block if it needs one, and
that the blocks given out are those from the start of the data area up to `f`, each to one
pointer of `P`.
-/

namespace Qwin.Mkfs

open Fs
open Function (update update_of_ne update_self update_apply)

abbrev dataStart : ℕ := 29

/-- The number of inodes in the inode blocks. -/
abbrev tableSize : ℕ := 208

/-- The blocks a file of `n` data blocks takes. -/
def cost (n : ℕ) : ℕ := if NDIRECT < n then n + 1 else n

/-- The blocks that inodes with these numbers of data blocks take. -/
def total (nb : ℕ → ℕ) : ℕ := ∑ i ∈ Finset.range tableSize, cost (nb i)

theorem owned_next {P : ℕ × ℕ → ℕ} {f : ℕ} {k : ℕ × ℕ}
    (h : Owned (dataStart ≤ ·) P fun b => decide (b < f)) (hf : dataStart ≤ f) (hk : P k = 0) :
    Owned (dataStart ≤ ·) (update P k f) fun b => decide (b < f + 1) := by
  have h29 : 29 ≤ f := hf
  refine (h.claim hk hf (by omega) (decide_eq_false (lt_irrefl f))).congr
    (fun _ => rfl) fun b _ => ?_
  rw [update_apply]
  split
  next hb => simp [hb]
  next hb =>
    rw [decide_eq_decide]
    omega

structure Laid (P : ℕ × ℕ → ℕ) (f : ℕ) (nb : ℕ → ℕ) : Prop where
  start : dataStart ≤ f
  owned : Owned (dataStart ≤ ·) P fun b => decide (b < f)
  mapped : ∀ i bn, P (i, filePos bn) ≠ 0 ↔ bn < nb i
  indirect : ∀ i, P (i, 12) ≠ 0 ↔ NDIRECT < nb i
  table : ∀ i, tableSize ≤ i → nb i = 0
  count : f = dataStart + total nb

theorem cost_mono {m n : ℕ} (h : m ≤ n) : cost m ≤ cost n := by
  unfold cost
  split <;> split <;> omega

theorem total_mono {m n : ℕ → ℕ} (h : ∀ i, m i ≤ n i) : total m ≤ total n :=
  Finset.sum_le_sum fun i _ => cost_mono (h i)

namespace Laid

variable {P : ℕ × ℕ → ℕ} {f : ℕ} {nb : ℕ → ℕ} {i : ℕ}

theorem total_update (hi : i < tableSize) {c : ℕ} (hc : cost (nb i) + c = cost (nb i + 1)) :
    total (update nb i (nb i + 1)) = total nb + c := by
  have hmem := Finset.mem_range.2 hi
  unfold total
  rw [← Finset.add_sum_erase _ _ hmem, ← Finset.add_sum_erase _ (fun j => cost (nb j)) hmem,
    update_self, ← hc]
  have hrest : ∑ j ∈ (Finset.range tableSize).erase i, cost (update nb i (nb i + 1) j) =
      ∑ j ∈ (Finset.range tableSize).erase i, cost (nb j) := by
    refine Finset.sum_congr rfl fun j hj => ?_
    rw [update_of_ne (Finset.ne_of_mem_erase hj)]
  rw [hrest]
  omega

theorem table_update (h : Laid P f nb) (hi : i < tableSize) :
    ∀ j, tableSize ≤ j → update nb i (nb i + 1) j = 0 := by
  intro j hj
  rw [update_of_ne (by omega)]
  exact h.table j hj

theorem mapped_update (hP : ∀ j bn, P (j, filePos bn) ≠ 0 ↔ bn < nb j) (hf : f ≠ 0) (j bn : ℕ) :
    update P (i, filePos (nb i)) f (j, filePos bn) ≠ 0 ↔ bn < update nb i (nb i + 1) j := by
  by_cases hj : j = i
  · subst hj
    rw [update_self]
    by_cases hbn : bn = nb j
    · subst hbn
      rw [update_self]
      omega
    · rw [update_of_ne fun he => hbn (filePos_inj (Prod.ext_iff.1 he).2), hP]
      omega
  · rw [update_of_ne fun he => hj (Prod.ext_iff.1 he).1, update_of_ne hj]
    exact hP j bn

variable (h : Laid P f nb) (hi : i < tableSize)
include h hi

/-- Another block of a file, when its indirect block need not be added. -/
theorem add (hn : nb i ≠ NDIRECT) :
    Laid (update P (i, filePos (nb i)) f) (f + 1) (update nb i (nb i + 1)) := by
  have hstart : 29 ≤ f := h.start
  have hk : P (i, filePos (nb i)) = 0 :=
    not_not.1 fun hne => lt_irrefl _ ((h.mapped i (nb i)).1 hne)
  have hcost : cost (nb i) + 1 = cost (nb i + 1) := by
    unfold cost
    split <;> split <;> omega
  refine ⟨le_trans h.start (Nat.le_succ f), owned_next h.owned h.start hk, ?_, ?_,
    h.table_update hi, ?_⟩
  · exact mapped_update h.mapped (by omega)
  · intro j
    rw [update_of_ne fun he => filePos_ne_twelve _ (Prod.ext_iff.1 he).2.symm, h.indirect]
    by_cases hj : j = i
    · subst hj
      rw [update_self]
      omega
    · rw [update_of_ne hj]
  · rw [total_update hi hcost, h.count]
    omega

theorem addIndirect (hn : nb i = NDIRECT) :
    Laid (update (update P (i, 12) f) (i, filePos (nb i)) (f + 1)) (f + 2)
      (update nb i (nb i + 1)) := by
  have hstart : 29 ≤ f := h.start
  have hind : P (i, 12) = 0 := by
    refine not_not.1 fun hne => ?_
    have := (h.indirect i).1 hne
    omega
  have hne12 : (i, filePos (nb i)) ≠ (i, 12) := fun he =>
    filePos_ne_twelve _ (Prod.ext_iff.1 he).2
  have hk : update P (i, 12) f (i, filePos (nb i)) = 0 := by
    rw [update_of_ne hne12]
    exact not_not.1 fun hne => lt_irrefl _ ((h.mapped i (nb i)).1 hne)
  have hcost : cost (nb i) + 2 = cost (nb i + 1) := by
    rw [hn]
    rfl
  refine ⟨le_trans h.start (Nat.le_add_right f 2), owned_next (owned_next h.owned h.start hind)
    (le_trans h.start (Nat.le_succ f)) hk, ?_, ?_, h.table_update hi, ?_⟩
  · refine mapped_update (fun j bn => ?_) (by omega)
    rw [update_of_ne fun he => filePos_ne_twelve bn (Prod.ext_iff.1 he).2]
    exact h.mapped j bn
  · intro j
    rw [update_of_ne fun he => filePos_ne_twelve _ (Prod.ext_iff.1 he).2.symm]
    by_cases hj : j = i
    · subst hj
      rw [update_self, update_self]
      omega
    · rw [update_of_ne fun he => hj (Prod.ext_iff.1 he).1, update_of_ne hj]
      exact h.indirect j
  · rw [total_update hi hcost, h.count]
    omega

end Laid

end Qwin.Mkfs
