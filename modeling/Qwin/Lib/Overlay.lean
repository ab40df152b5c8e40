import Mathlib.Data.List.Nodup
import Mathlib.Logic.Function.Basic

/-!
# Association lists laid over a function

A redo record is a list of pairs `(k, v)`; `overlay r h` is the function `h` with
the pairs of `r` written into it in order, so the last pair of a key wins.
`absorb r k v` records one more write, replacing the value of a key that is
already there. The two facts a redo log rests on are stated here for any keys and
values: recording a write in either way has the same overlay, and writing a first
part of the record to its home beforehand does not change the overlay.

`Scatter loc l h h'` is for writes to places that may coincide.
-/

namespace Qwin

open List
open Function (update update_of_ne update_self)

variable {K V : Type*} [DecidableEq K]

/-- The function `h` with the pairs of `r` written into it in order. -/
def overlay (r : List (K × V)) (h : K → V) : K → V :=
  r.foldl (fun g kv => update g kv.1 kv.2) h

@[simp] theorem overlay_nil (h : K → V) : overlay [] h = h := rfl

@[simp] theorem overlay_cons (kv : K × V) (r : List (K × V)) (h : K → V) :
    overlay (kv :: r) h = overlay r (update h kv.1 kv.2) := rfl

theorem overlay_append (r r' : List (K × V)) (h : K → V) :
    overlay (r ++ r') h = overlay r' (overlay r h) := by
  simp [overlay, foldl_append]

variable {x : K} {r : List (K × V)}

theorem overlay_of_notMem (hx : x ∉ r.map Prod.fst) (h : K → V) : overlay r h x = h x := by
  induction r generalizing h with
  | nil => rfl
  | cons kv r ih =>
    simp only [map_cons, mem_cons, not_or] at hx
    rw [overlay_cons, ih hx.2, update_of_ne hx.1]

/-- A key of the record does not see the function under it, and any other key sees
nothing else. -/
theorem overlay_congr {h h' : K → V}
    (hx : x ∈ r.map Prod.fst ∨ h x = h' x) : overlay r h x = overlay r h' x := by
  induction r generalizing h h' with
  | nil => simpa using hx
  | cons kv r ih =>
    rw [overlay_cons, overlay_cons]
    apply ih
    by_cases hk : x = kv.1
    · right
      rw [hk, update_self, update_self]
    · rcases hx with hx | hx
      · left
        simpa [hk] using hx
      · right
        rw [update_of_ne hk, update_of_ne hk, hx]

/-- Writing a first part of the record beforehand makes no difference. -/
theorem overlay_take (r : List (K × V)) (j : ℕ) (h : K → V) :
    overlay r (overlay (r.take j) h) = overlay r h := by
  funext x
  apply overlay_congr
  by_cases hx : x ∈ r.map Prod.fst
  · exact Or.inl hx
  · right
    apply overlay_of_notMem
    intro hmem
    rw [map_take] at hmem
    exact hx (mem_of_mem_take hmem)

theorem overlay_of_mem (hr : (r.map Prod.fst).Nodup) {v : V}
    (hx : (x, v) ∈ r) (h : K → V) : overlay r h x = v := by
  induction r generalizing h with
  | nil => cases hx
  | cons kv r ih =>
    rw [map_cons, nodup_cons] at hr
    rcases mem_cons.1 hx with rfl | hx
    · rw [overlay_cons, overlay_of_notMem hr.1, update_self]
    · exact ih hr.2 hx _

/-- Record the write of `v` to `k`: a key that is already there keeps its place. -/
def absorb (r : List (K × V)) (k : K) (v : V) : List (K × V) :=
  if k ∈ r.map Prod.fst then r.map fun kv => if kv.1 = k then (k, v) else kv
  else r ++ [(k, v)]

theorem absorb_cons_ne {kv : K × V} {k : K} (hk : kv.1 ≠ k) (r : List (K × V)) (v : V) :
    absorb (kv :: r) k v = kv :: absorb r k v := by
  unfold absorb
  by_cases hr : k ∈ r.map Prod.fst
  · rw [if_pos (by simp [hr]), if_pos hr, map_cons, if_neg hk]
  · rw [if_neg (by simp [hr, hk.symm]), if_neg hr, cons_append]

theorem absorb_cons_self {kv : K × V} (hkv : kv.1 ∉ r.map Prod.fst)
    (v : V) : absorb (kv :: r) kv.1 v = (kv.1, v) :: r := by
  have hr : (r.map fun kv' => if kv'.1 = kv.1 then (kv.1, v) else kv') = r := by
    conv_rhs => rw [← map_id r]
    apply map_congr_left
    intro kv' hmem
    have hne : kv'.1 ≠ kv.1 := fun h => hkv (h ▸ mem_map_of_mem hmem)
    rw [if_neg hne]
    rfl
  rw [absorb, if_pos (by simp), map_cons, if_pos rfl, hr]

theorem map_fst_replace (r : List (K × V)) (k : K) (v : V) :
    (r.map fun kv => if kv.1 = k then (k, v) else kv).map Prod.fst = r.map Prod.fst := by
  rw [map_map]
  apply map_congr_left
  intro kv _
  by_cases h : kv.1 = k
  · simp [h]
  · simp [h]

theorem map_fst_absorb (r : List (K × V)) (k : K) (v : V) :
    (absorb r k v).map Prod.fst =
      if k ∈ r.map Prod.fst then r.map Prod.fst else r.map Prod.fst ++ [k] := by
  unfold absorb
  split
  · exact map_fst_replace r k v
  · rw [map_append]
    rfl

theorem nodup_absorb (hr : (r.map Prod.fst).Nodup) (k : K) (v : V) :
    ((absorb r k v).map Prod.fst).Nodup := by
  rw [map_fst_absorb]
  split
  · exact hr
  · rename_i hk
    exact nodup_append.2 ⟨hr, nodup_singleton k, by
      intro a ha b hb
      rw [mem_singleton] at hb
      subst hb
      exact fun h => hk (h ▸ ha)⟩

/-- Absorbing a write and appending it have the same overlay. -/
theorem overlay_absorb (hr : (r.map Prod.fst).Nodup) (k : K) (v : V)
    (h : K → V) : overlay (absorb r k v) h = update (overlay r h) k v := by
  by_cases hk : k ∈ r.map Prod.fst
  · have hnd := nodup_absorb hr k v
    have heq : absorb r k v = r.map fun kv => if kv.1 = k then (k, v) else kv := by
      rw [absorb, if_pos hk]
    funext x
    by_cases hx : x = k
    · subst hx
      obtain ⟨kv, hkv, hfst⟩ := mem_map.1 hk
      have hmem : (x, v) ∈ absorb r x v := by
        rw [heq]
        exact mem_map.2 ⟨kv, hkv, by rw [if_pos hfst]⟩
      rw [overlay_of_mem hnd hmem, update_self]
    · rw [update_of_ne hx]
      by_cases hxr : x ∈ r.map Prod.fst
      · obtain ⟨kv, hkv, rfl⟩ := mem_map.1 hxr
        have hmem : kv ∈ absorb r k v := by
          rw [heq]
          exact mem_map.2 ⟨kv, hkv, by rw [if_neg hx]⟩
        rw [overlay_of_mem hnd hmem, overlay_of_mem hr hkv]
      · have hxa : x ∉ (absorb r k v).map Prod.fst := by
          rw [map_fst_absorb, if_pos hk]
          exact hxr
        rw [overlay_of_notMem hxa, overlay_of_notMem hxr]
  · rw [absorb, if_neg hk, overlay_append]
    rfl

theorem overlay_foldl_absorb (t : List (K × V)) (hr : (r.map Prod.fst).Nodup) (h : K → V) :
    overlay (t.foldl (fun r w => absorb r w.1 w.2) r) h = overlay t (overlay r h) := by
  induction t generalizing r with
  | nil => rfl
  | cons w t ih =>
    rw [foldl_cons, ih (nodup_absorb hr w.1 w.2), overlay_absorb hr, overlay_cons]

/-! ## Writing a list through a map -/

section Scatter

variable {A V : Type*} {loc loc' : ℕ → Option A} {l l' : List V} {m m' m'' : A → V}

/-- The list was written to the places `loc 0`, `loc 1`, … of `m`, which gave `m'`. A place
that occurs more than once has one of the values written to it. -/
structure Scatter (loc : ℕ → Option A) (l : List V) (m m' : A → V) : Prop where
  outside : ∀ a, (∀ i < l.length, loc i ≠ some a) → m' a = m a
  inside : ∀ a, ∀ i < l.length, loc i = some a → ∃ j < l.length, loc j = some a ∧ l[j]? = some (m' a)

namespace Scatter

theorem nil (loc : ℕ → Option A) (m : A → V) : Scatter loc [] m m :=
  ⟨fun _ _ => rfl, fun _ _ hi => absurd hi (Nat.not_lt_zero _)⟩

variable (h : Scatter loc l m m')
include h

theorem congr (hloc : ∀ i < l.length, loc' i = loc i) : Scatter loc' l m m' := by
  constructor
  · intro a ha
    exact h.outside a fun i hi => hloc i hi ▸ ha i hi
  · intro a i hi ha
    obtain ⟨j, hj, hja, hv⟩ := h.inside a i hi (hloc i hi ▸ ha)
    exact ⟨j, hj, (hloc j hj).trans hja, hv⟩

theorem append (h' : Scatter (fun i => loc (l.length + i)) l' m' m'') :
    Scatter loc (l ++ l') m m'' := by
  constructor
  · intro a ha
    rw [h'.outside a fun i hi => ha _ (by rw [length_append]; omega),
      h.outside a fun i hi => ha i (by rw [length_append]; omega)]
  · intro a i hi ha
    rw [length_append] at hi
    by_cases hlate : ∃ k < l'.length, loc (l.length + k) = some a
    · obtain ⟨k, hk, hka⟩ := hlate
      obtain ⟨j, hj, hja, hv⟩ := h'.inside a k hk hka
      refine ⟨l.length + j, by rw [length_append]; omega, hja, ?_⟩
      rw [List.getElem?_append_right (Nat.le_add_right _ _), Nat.add_sub_cancel_left, hv]
    · push Not at hlate
      have hlt : i < l.length := by
        by_contra hge
        exact hlate (i - l.length) (by omega) (by rwa [Nat.add_sub_cancel' (Nat.le_of_not_lt hge)])
      obtain ⟨j, hj, hja, hv⟩ := h.inside a i hlt ha
      refine ⟨j, by rw [length_append]; omega, hja, ?_⟩
      rw [List.getElem?_append_left hj, hv, h'.outside a hlate]

theorem exists_of_ne {a : A} (hne : m' a ≠ m a) : ∃ i < l.length, loc i = some a := by
  by_contra hno
  push Not at hno
  exact hne (h.outside a hno)

/-- Where no two values contend for a place, each is there. -/
theorem value
    (hagree : ∀ i < l.length, ∀ j < l.length, loc i = loc j → l[i]? = l[j]?) {a : A} {i : ℕ}
    (hi : i < l.length) (ha : loc i = some a) : l[i]? = some (m' a) := by
  obtain ⟨j, hj, hja, hv⟩ := h.inside a i hi ha
  rw [hagree i hi j hj (ha.trans hja.symm), hv]

end Scatter

end Scatter

end Qwin
