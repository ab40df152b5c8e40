import Mathlib.Data.List.Nodup
import Mathlib.Order.Lattice

/-!
# Paths along pointers

`Path next a l b` says that who follows `next` from `a` meets the nodes `l`, in this order,
and arrives at `b`. A ring is a path that comes back to where it began. It can be entered
at any of its nodes. A ring of numbers that increase until it closes has, for every number
that lies above its start, one node that is the next below.
-/

namespace Qwin

open List

variable {α : Type*} {next next' : α → α} {a b c p q x y : α} {l m : List α}

/-- Following `next` from `a` leads through the nodes `l` to `b`. -/
def Path (next : α → α) : α → List α → α → Prop
  | a, [], b => a = b
  | a, x :: l, b => x = a ∧ Path next (next a) l b

namespace Path

@[simp] theorem nil_iff : Path next a [] b ↔ a = b := Iff.rfl

@[simp] theorem cons_iff : Path next a (x :: l) b ↔ x = a ∧ Path next (next a) l b := Iff.rfl

theorem append_iff : Path next a (l ++ m) c ↔ ∃ b, Path next a l b ∧ Path next b m c := by
  induction l generalizing a with
  | nil => simp
  | cons x l ih => simp [ih, and_assoc]

/-- The part of a path that begins at one of its nodes. -/
theorem of_append_cons (h : Path next a (l ++ x :: m) c) :
    Path next a l x ∧ Path next x (x :: m) c := by
  obtain ⟨b, hl, hm⟩ := append_iff.1 h
  obtain rfl : x = b := hm.1
  exact ⟨hl, hm⟩

theorem congr (h : Path next a l b) (hnext : ∀ x ∈ l, next' x = next x) : Path next' a l b := by
  induction l generalizing a with
  | nil => exact h
  | cons x l ih =>
    obtain ⟨rfl, h⟩ := h
    refine ⟨rfl, ?_⟩
    rw [hnext x mem_cons_self]
    exact ih h fun y hy => hnext y (mem_cons_of_mem x hy)

theorem rotate (h : Path next a (l ++ x :: m) a) : Path next x ((x :: m) ++ l) x := by
  obtain ⟨hl, hm⟩ := of_append_cons h
  exact append_iff.2 ⟨a, hm, hl⟩

/-- In a ring there is a way from every node to every other. -/
theorem exists_to (h : Path next a l a) (hp : p ∈ l) (hq : q ∈ l) (hl : l.Nodup) :
    ∃ m, Path next p m q ∧ q ∉ m ∧ (∀ x ∈ m, x ∈ l) ∧ m.length < l.length := by
  obtain ⟨l1, l2, rfl⟩ := append_of_mem hp
  have hring := rotate h
  have hperm : (p :: l2 ++ l1).Perm (l1 ++ p :: l2) := perm_append_comm
  have hq' : q ∈ p :: l2 ++ l1 := hperm.mem_iff.2 hq
  obtain ⟨m1, m2, hm⟩ := append_of_mem hq'
  rw [hm] at hring hperm
  have hnodup := hperm.nodup_iff.2 hl
  refine ⟨m1, (of_append_cons hring).1, ?_, fun x hx => ?_, ?_⟩
  · intro hmem
    exact (disjoint_of_nodup_append hnodup) hmem mem_cons_self
  · exact hperm.mem_iff.1 (mem_append_left _ hx)
  · have hlen := hperm.length_eq
    simp only [length_append, length_cons] at hlen ⊢
    omega

theorem next_eq (h : Path next a (l ++ x :: y :: m) c) : next x = y := (of_append_cons h).2.2.1.symm

theorem next_last (h : Path next a (l ++ [x]) c) : next x = c := (of_append_cons h).2.2

/-! ## Rings of increasing numbers -/

section Increasing

variable [LinearOrder α]

/-- From a node of an increasing ring one goes on to the next greater one, or closes the
ring at its greatest. -/
theorem next_cases (h : Path next a l c) (hl : l.Pairwise (· < ·)) (hx : x ∈ l) :
    (next x = c ∧ ∀ y ∈ l, y ≤ x) ∨ (x < next x ∧ next x ∈ l ∧ ∀ y ∈ l, y ≤ x ∨ next x ≤ y) := by
  obtain ⟨l1, l2, rfl⟩ := append_of_mem hx
  obtain ⟨-, h2, h12⟩ := pairwise_append.1 hl
  rw [pairwise_cons] at h2
  have hbefore : ∀ y ∈ l1, y ≤ x := fun y hy => le_of_lt (h12 y hy x mem_cons_self)
  cases l2 with
  | nil =>
    refine Or.inl ⟨next_last h, fun y hy => ?_⟩
    rcases mem_append.1 hy with hy | hy
    · exact hbefore y hy
    · exact le_of_eq (mem_singleton.1 hy)
  | cons z l2 =>
    have hz := next_eq h
    rw [hz]
    refine Or.inr ⟨h2.1 z mem_cons_self, by simp, fun y hy => ?_⟩
    rcases mem_append.1 hy with hy | hy
    · exact Or.inl (hbefore y hy)
    rcases mem_cons.1 hy with rfl | hy
    · exact Or.inl le_rfl
    rcases mem_cons.1 hy with rfl | hy
    · exact Or.inr le_rfl
    · exact Or.inr (le_of_lt ((pairwise_cons.1 h2.2).1 y hy))

end Increasing

end Path

end Qwin
