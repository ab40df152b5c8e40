import Mathlib.Logic.Relation

/-!
# Pools of processes

A process takes a step by itself and goes on as a list of processes: as one after an
ordinary step, as two after a fork and as none at its end. A pool takes the step of one of
its processes. What can be found in the pool of a process are its descendants.
-/

namespace Qwin.Pool

open List

variable {C : Type*} {next : C → List C → Prop} {c d : C} {P : C → Prop}

inductive Step (next : C → List C → Prop) : List C → List C → Prop
  | step {c : C} {cs : List C} (l m : List C) (h : next c cs) : Step next (l ++ c :: m) (l ++ cs ++ m)

/-- A process can be found in a pool that grows out of `c`. -/
def Reached (next : C → List C → Prop) (c d : C) : Prop :=
  ∃ l, Relation.ReflTransGen (Step next) [c] l ∧ d ∈ l

/-- One of the processes as which `c` goes on. -/
def Child (next : C → List C → Prop) (c d : C) : Prop := ∃ cs, next c cs ∧ d ∈ cs

theorem reached_iff : Reached next c d ↔ Relation.ReflTransGen (Child next) c d := by
  constructor
  · rintro ⟨l, hl, hd⟩
    induction hl generalizing d with
    | refl => rw [mem_singleton.1 hd]
    | tail _ hs ih =>
      cases hs with
      | @step c' cs l m h =>
        rcases mem_append.1 hd with hd | hd
        · rcases mem_append.1 hd with hd | hd
          · exact ih (mem_append_left _ hd)
          · exact (ih (mem_append_right _ mem_cons_self)).tail ⟨cs, h, hd⟩
        · exact ih (mem_append_right _ (mem_cons_of_mem _ hd))
  · intro h
    induction h with
    | refl => exact ⟨[c], .refl, mem_singleton_self c⟩
    | tail _ hs ih =>
      obtain ⟨l, hl, hmem⟩ := ih
      obtain ⟨cs, h, hd⟩ := hs
      obtain ⟨l1, l2, rfl⟩ := append_of_mem hmem
      exact ⟨_, hl.tail (.step l1 l2 h), mem_append_left _ (mem_append_right _ hd)⟩

/-- Every process that grows out of `c` is in `P`. -/
def Always (next : C → List C → Prop) (P : C → Prop) (c : C) : Prop := ∀ d, Reached next c d → P d

theorem Always.intro (hc : P c) (hnext : ∀ d, Child next c d → Always next P d) :
    Always next P c := by
  intro d hd
  rcases (reached_iff.1 hd).cases_head with rfl | ⟨c', hc', h⟩
  · exact hc
  · exact hnext c' hc' d (reached_iff.2 h)

theorem Reached.head {e : C} (h : Child next c d) (h' : Reached next d e) : Reached next c e :=
  reached_iff.2 ((reached_iff.1 h').head h)

theorem Reached.refl (c : C) : Reached next c c := reached_iff.2 .refl

end Qwin.Pool
