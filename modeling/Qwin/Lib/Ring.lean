import Mathlib.Data.List.Basic
import Mathlib.Data.Nat.ModEq
import Mathlib.Logic.Function.Basic

/-!
# Ring buffers with wrapping counters

A `Ring α w` holds its elements in an array that is indexed by two counters of `w` bits,
one that counts what was put in and one that counts what was taken out. The counters wrap,
and an element lies at its count modulo the capacity. `Carries n r put took` says that
the ring of capacity `n` is what is left after the list `put` went in and the list `took`
came out. When the capacity divides `2 ^ w` the wrapping is never seen: the tests for a
full and for an empty ring are exact, and putting and taking extend the two lists. What was
put last can be taken back.
-/

namespace Qwin

open List
open Function (update update_of_ne update_self)

/-- An array with a counter for what was taken and one for what was put. -/
structure Ring (α : Type) (w : ℕ) where
  slot : ℕ → α
  rd : BitVec w
  wr : BitVec w

namespace Ring

variable {α : Type} {w n : ℕ} {r : Ring α w} {put took : List α} {x : α}

def push (n : ℕ) (r : Ring α w) (x : α) : Ring α w :=
  { r with slot := update r.slot (r.wr.toNat % n) x, wr := r.wr + 1 }

/-- Take back the element that was put last. -/
def unpush (r : Ring α w) : Ring α w := { r with wr := r.wr - 1 }

def back (n : ℕ) (r : Ring α w) : α := r.slot ((r.wr - 1).toNat % n)

def front (n : ℕ) (r : Ring α w) : α := r.slot (r.rd.toNat % n)

def pop (r : Ring α w) : Ring α w := { r with rd := r.rd + 1 }

/-- What is inside, in the order in which it is taken. -/
def contents (n : ℕ) (r : Ring α w) : List α :=
  (List.range (r.wr - r.rd).toNat).map fun k => r.slot ((r.rd + BitVec.ofNat w k).toNat % n)

def Empty (r : Ring α w) : Prop := r.rd = r.wr

def Full (n : ℕ) (r : Ring α w) : Prop := r.wr = r.rd + BitVec.ofNat w n

/-- The ring after the elements of `put` were stored and those of `took` taken. -/
structure Carries (n : ℕ) (r : Ring α w) (put took : List α) : Prop where
  rd : r.rd = BitVec.ofNat w took.length
  wr : r.wr = BitVec.ofNat w put.length
  initial : took <+: put
  fits : put.length ≤ took.length + n
  slots : ∀ j x, took.length ≤ j → put[j]? = some x → r.slot (j % n) = x

theorem carries_nil (h : r.rd = 0) (h' : r.wr = 0) : Carries n r [] [] := by
  refine ⟨h, h', nil_prefix, Nat.zero_le _, ?_⟩
  intro j x _ hx
  simp at hx

section Counters

variable (hn : n < 2 ^ w) (h : Carries n r put took)

include h

theorem Carries.length_le : took.length ≤ put.length := h.initial.length_le

include hn

/-- Two counts that are at most the capacity apart are told apart by the counters. -/
theorem Carries.counter_inj {k : ℕ} (h1 : took.length ≤ k) (h2 : k ≤ took.length + n)
    (he : BitVec.ofNat w put.length = BitVec.ofNat w k) : put.length = k := by
  have hle := h.length_le
  have hfits := h.fits
  have hmod : put.length % 2 ^ w = k % 2 ^ w := by
    simpa using congrArg BitVec.toNat he
  have hput : put.length = took.length + (put.length - took.length) := by omega
  have hk : k = took.length + (k - took.length) := by omega
  rw [hput, hk] at hmod
  have hdiff := Nat.ModEq.add_left_cancel' took.length hmod
  have hlt1 : put.length - took.length < 2 ^ w := by omega
  have hlt2 : k - took.length < 2 ^ w := by omega
  have heq := Nat.ModEq.eq_of_lt_of_lt hdiff hlt1 hlt2
  omega

theorem Carries.empty_iff : r.Empty ↔ took = put := by
  constructor
  · intro he
    have hwr : BitVec.ofNat w put.length = BitVec.ofNat w took.length := by
      rw [← h.wr, ← h.rd]
      exact he.symm
    have hlen := h.counter_inj hn (Nat.le_refl _) (Nat.le_add_right _ _) hwr
    exact h.initial.eq_of_length hlen.symm
  · intro he
    rw [Empty, h.rd, h.wr, he]

theorem Carries.full_iff : r.Full n ↔ put.length = took.length + n := by
  constructor
  · intro hf
    refine h.counter_inj hn (Nat.le_add_right _ _) (Nat.le_refl _) ?_
    rw [← h.wr, hf, h.rd, BitVec.ofNat_add]
  · intro hf
    rw [Full, h.wr, h.rd, hf, BitVec.ofNat_add]

/-- The difference of the counters is the number of elements inside. -/
theorem Carries.toNat_sub : (r.wr - r.rd).toNat = put.length - took.length := by
  have hle := h.length_le
  have hfits := h.fits
  have hsplit : put.length = took.length + (put.length - took.length) := by omega
  have hsub : r.wr - r.rd = BitVec.ofNat w (put.length - took.length) := by
    rw [h.wr, h.rd, hsplit, BitVec.ofNat_add, Nat.add_sub_cancel_left,
      BitVec.add_comm, BitVec.add_sub_cancel]
  rw [hsub, BitVec.toNat_ofNat, Nat.mod_eq_of_lt (by omega)]

end Counters

section Steps

variable (hw : n ∣ 2 ^ w) (h : Carries n r put took)

include hw

/-- A counter and what it counts have the same place in the array. -/
theorem mod_of_dvd (k : ℕ) : (BitVec.ofNat w k).toNat % n = k % n := by
  rw [BitVec.toNat_ofNat, Nat.mod_mod_of_dvd _ hw]

include h

theorem Carries.push (hlt : put.length < took.length + n) :
    Carries n (r.push n x) (put ++ [x]) took := by
  refine ⟨h.rd, ?_, h.initial.trans (prefix_append _ _), ?_, ?_⟩
  · change r.wr + 1 = _
    rw [h.wr, length_append, BitVec.ofNat_add]
    rfl
  · rw [length_append, length_singleton]
    omega
  · intro j y hj hy
    have hslot : (r.push n x).slot = update r.slot (put.length % n) x := by
      rw [Ring.push, h.wr, mod_of_dvd hw]
    rw [hslot]
    rcases Nat.lt_or_ge j put.length with hlt' | hge
    · -- an element further back: its place is not the one written
      have hne : j % n ≠ put.length % n := by
        intro he
        have hdvd : n ∣ put.length - j := (Nat.modEq_iff_dvd' (Nat.le_of_lt hlt')).1 he
        have := Nat.le_of_dvd (by omega) hdvd
        omega
      rw [update_of_ne hne]
      rw [List.getElem?_append_left hlt'] at hy
      exact h.slots j y hj hy
    · rw [List.getElem?_append_right hge] at hy
      have hj0 : j - put.length = 0 := by
        by_contra h0
        rw [List.getElem?_eq_none (by simp; omega)] at hy
        cases hy
      have hjp : j = put.length := by omega
      rw [hj0] at hy
      simp only [List.getElem?_cons_zero, Option.some.injEq] at hy
      rw [hjp, update_self, hy]

theorem Carries.front (hlt : took.length < put.length) : put[took.length]? = some (r.front n) := by
  have hx := List.getElem?_eq_getElem hlt
  rw [hx, Ring.front, h.rd, mod_of_dvd hw, h.slots _ _ (Nat.le_refl _) hx]

theorem Carries.pop (hlt : took.length < put.length) :
    Carries n r.pop put (took ++ [r.front n]) := by
  have hfront := h.front hw hlt
  obtain ⟨rest, hrest⟩ := h.initial
  refine ⟨?_, h.wr, ?_, ?_, ?_⟩
  · change r.rd + 1 = _
    rw [h.rd, length_append, BitVec.ofNat_add]
    rfl
  · rw [← hrest, List.getElem?_append_right (Nat.le_refl _), Nat.sub_self] at hfront
    cases rest with
    | nil => simp at hfront
    | cons y rest =>
      simp only [List.getElem?_cons_zero, Option.some.injEq] at hfront
      exact ⟨rest, by rw [← hrest, ← hfront, append_assoc, singleton_append]⟩
  · rw [length_append, length_singleton]
    have := h.fits
    omega
  · intro j x hj hx
    rw [length_append, length_singleton] at hj
    exact h.slots j x (by omega) hx

theorem Carries.contents (hn : n < 2 ^ w) : r.contents n = put.drop took.length := by
  refine ext_getElem? fun k => ?_
  rw [Ring.contents, h.toNat_sub hn, List.getElem?_map, List.getElem?_drop]
  rcases Nat.lt_or_ge k (put.length - took.length) with hk | hk
  · have hj : took.length + k < put.length := by omega
    have hx := List.getElem?_eq_getElem hj
    rw [List.getElem?_range hk, hx, Option.map_some, h.rd, ← BitVec.ofNat_add, mod_of_dvd hw,
      h.slots _ _ (Nat.le_add_right _ _) hx]
  · rw [List.getElem?_eq_none (by simpa using hk), List.getElem?_eq_none (by omega)]
    rfl

end Steps

/-! ## Taking back -/

theorem wr_sub_one (h : r.wr = BitVec.ofNat w (put ++ [x]).length) :
    r.wr - 1 = BitVec.ofNat w put.length := by
  rw [h, length_append, BitVec.ofNat_add]
  exact BitVec.add_sub_cancel _ _

theorem Carries.back (hw : n ∣ 2 ^ w) (h : Carries n r (put ++ [x]) took) (hlt : took.length ≤ put.length) :
    r.back n = x := by
  rw [Ring.back, wr_sub_one h.wr, mod_of_dvd hw]
  exact h.slots _ _ hlt (by simp)

theorem Carries.unpush (h : Carries n r (put ++ [x]) took) (hlt : took.length ≤ put.length) :
    Carries n r.unpush put took := by
  have hfits := h.fits
  rw [length_append] at hfits
  refine ⟨h.rd, wr_sub_one h.wr, ?_, by omega, fun j y hj hy => ?_⟩
  · exact prefix_of_prefix_length_le h.initial (prefix_append _ _) hlt
  · refine h.slots j y hj ?_
    rw [List.getElem?_append_left (List.getElem?_eq_some_iff.1 hy).1]
    exact hy

end Ring

end Qwin
