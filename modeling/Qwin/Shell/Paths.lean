import Qwin.User.Atob

/-!
# The paths of the shell

`getPaths` of `sh.c`, and the lists of `varval`s that it makes. Blocks that `malloc` has not given
out yet hold what they hold, so a new block may have a stale pointer.
-/

namespace Qwin.Environ

open Chars (ch Str)
open Function (update update_of_ne update_self)
open List

abbrev MAX_VAR_VAL : ℕ := 1024

/-- `struct varval`, where pointers are numbers of blocks. -/
structure Varval where
  value : Str
  next : Option ℕ

/-- The `varval`s. Those from `size` on have not been given out. -/
structure Heap where
  size : ℕ
  cell : ℕ → Varval

/-- `malloc(sizeof(varval))`, and what is assigned to the new block. -/
def Heap.alloc (h : Heap) (f : Varval → Varval) : Heap :=
  ⟨h.size + 1, update h.cell h.size (f (h.cell h.size))⟩

def Heap.setNext (h : Heap) (p : ℕ) (q : Option ℕ) : Heap :=
  { h with cell := update h.cell p { h.cell p with next := q } }

section

variable (h : Heap) {p q : ℕ} {a : Option ℕ} {f : Varval → Varval}

theorem Heap.alloc_self : (h.alloc f).cell h.size = f (h.cell h.size) := update_self ..

theorem Heap.alloc_of_ne (hq : q ≠ h.size) : (h.alloc f).cell q = h.cell q := update_of_ne hq ..

theorem Heap.setNext_self : (h.setNext p a).cell p = { h.cell p with next := a } := update_self ..

theorem Heap.setNext_of_ne (hq : q ≠ p) : (h.setNext p a).cell q = h.cell q := update_of_ne hq ..

end

/-- `getPaths`: the list and the memory, if all pointers lead to blocks and the values fit. -/
def getPaths : ℕ → Str → Option ℕ → Heap → Option (Option ℕ × Heap)
  | 0, _, _, _ => none
  | fuel + 1, paths, none, h =>
    let value := paths.takeWhile (· ≠ ch ':')
    if value.length < MAX_VAR_VAL then
      match paths.dropWhile (· ≠ ch ':') with
      | [] => some (some h.size, h.alloc fun _ => ⟨value, none⟩)
      | _ :: paths => do
          let (q, h') ← getPaths fuel paths (h.cell h.size).next
            (h.alloc fun x => { x with value := value })
          some (some h.size, h'.setNext h.size q)
    else none
  | fuel + 1, paths, some p, h =>
    if p < h.size then do
      let (q, h') ← getPaths fuel paths (h.cell p).next h
      some (some p, h'.setNext p q)
    else none

/-- From `a` on the list has these values, in blocks from `lo` on, and then goes on at `b`. -/
def Seg (h : Heap) (lo : ℕ) (a b : Option ℕ) : List Str → Prop
  | [] => a = b
  | v :: l => ∃ p, a = some p ∧ lo ≤ p ∧ p < h.size ∧ (h.cell p).value = v ∧
      Seg h lo (h.cell p).next b l

/-- The whole list from a pointer on. -/
abbrev Chain (h : Heap) (lo : ℕ) (a : Option ℕ) (l : List Str) : Prop := Seg h lo a none l

variable {h h' : Heap} {lo : ℕ} {a b : Option ℕ} {l : List Str}

theorem Seg.congr (hl : Seg h lo a b l) (hsize : h.size ≤ h'.size) {lo' : ℕ}
    (hlo : lo' ≤ lo) (hcell : ∀ q, lo ≤ q → q < h.size → h'.cell q = h.cell q) :
    Seg h' lo' a b l := by
  induction l generalizing a with
  | nil => exact hl
  | cons v l ih =>
    obtain ⟨p, ha, hp, hlt, hv, hnext⟩ := hl
    refine ⟨p, ha, hlo.trans hp, hlt.trans_le hsize, ?_⟩
    rw [hcell p hp hlt]
    exact ⟨hv, ih hnext⟩

theorem Seg.end_unique {b' : Option ℕ} (hl : Seg h lo a b l) (hl' : Seg h lo a b' l) : b = b' := by
  induction l generalizing a with
  | nil => exact hl.symm.trans hl'
  | cons v l ih =>
    obtain ⟨p, rfl, -, -, -, hnext⟩ := hl
    obtain ⟨_, ⟨⟩, -, -, -, hnext'⟩ := hl'
    exact ih hnext hnext'

theorem Chain.unique {l' : List Str} (hl : Chain h lo a l) (hl' : Chain h lo a l') : l = l' := by
  induction l generalizing a l' with
  | nil =>
    cases l' with
    | nil => rfl
    | cons v l' =>
      obtain ⟨p, rfl, -⟩ := hl'
      cases hl
  | cons v l ih =>
    obtain ⟨p, rfl, -, -, hv, hnext⟩ := hl
    cases l' with
    | nil => cases hl'
    | cons v' l' =>
      obtain ⟨_, ⟨⟩, -, -, hv', hnext'⟩ := hl'
      rw [← hv, ← hv', ih hnext hnext']

/-- A list that ends does not come back to its first block, so it went on before the pointer of
that block was set. -/
theorem Chain.of_setNext {p : ℕ} {v : Str} (hc : Chain (h.setNext p a) lo (some p) (v :: l)) :
    Chain h lo a l := by
  have hback : ∀ {a' l'}, l'.length ≤ l.length → Chain (h.setNext p a) lo a' l' →
      Chain h lo a' l' := by
    intro a' l' hlen hl'
    induction l' generalizing a' with
    | nil => exact hl'
    | cons w l' ih =>
      have hr := hl'
      obtain ⟨r, rfl, hlo, hlt, hw, hnext⟩ := hr
      have hne : r ≠ p := by
        rintro rfl
        have hlen' := congrArg length (hl'.unique hc)
        rw [length_cons] at hlen hlen'
        rw [length_cons] at hlen'
        omega
      rw [h.setNext_of_ne hne] at hw hnext
      exact ⟨r, rfl, hlo, hlt, hw, ih (Nat.le_of_succ_le hlen) hnext⟩
  obtain ⟨_, ⟨⟩, -, -, -, hnext⟩ := hc
  rw [h.setNext_self] at hnext
  exact hback le_rfl hnext

theorem takeWhile_cut {c : UInt8} {x r : Str} (hx : c ∉ x) :
    (x ++ c :: r).takeWhile (· ≠ c) = x := by
  rw [takeWhile_append_of_pos fun y hy => decide_eq_true (ne_of_mem_of_not_mem hy hx)]
  simp

theorem dropWhile_cut {c : UInt8} {x r : Str} (hx : c ∉ x) :
    (x ++ c :: r).dropWhile (· ≠ c) = c :: r := by
  rw [dropWhile_append_of_pos fun y hy => decide_eq_true (ne_of_mem_of_not_mem hy hx)]
  simp

theorem dropWhile_of_notMem {c : UInt8} {x : Str} (hx : c ∉ x) : x.dropWhile (· ≠ c) = [] :=
  dropWhile_eq_nil_iff.2 fun _ hy => decide_eq_true (ne_of_mem_of_not_mem hy hx)

/-- The segments that `getPaths` is to make the list of. -/
abbrev segments (s : Str) : List Str := s.splitOn (ch ':')

section

variable {x r : Str} (hx : ch ':' ∉ x) (fuel : ℕ) (h : Heap)

include hx

theorem segments_last : segments x = [x] :=
  splitOnP_eq_singleton fun _ hy => beq_eq_false_iff_ne.2 (ne_of_mem_of_not_mem hy hx)

theorem segments_cons : segments (x ++ ch ':' :: r) = x :: segments r :=
  splitOnP_append_cons_of_forall_mem
    (fun _ hy => beq_eq_false_iff_ne.2 (ne_of_mem_of_not_mem hy hx)) _ (beq_self_eq_true _) r

theorem getPaths_last : getPaths (fuel + 1) x none h =
    if x.length < MAX_VAR_VAL then some (some h.size, h.alloc fun _ => ⟨x, none⟩) else none := by
  have htake : x.takeWhile (· ≠ ch ':') = x :=
    takeWhile_eq_self_iff.2 fun y hy => decide_eq_true (ne_of_mem_of_not_mem hy hx)
  rw [getPaths]
  simp only [htake, dropWhile_of_notMem hx]

theorem getPaths_cons : getPaths (fuel + 1) (x ++ ch ':' :: r) none h =
    if x.length < MAX_VAR_VAL then
      (getPaths fuel r (h.cell h.size).next (h.alloc fun y => { y with value := x })).map
        fun g => (some h.size, g.2.setNext h.size g.1)
    else none := by
  rw [getPaths]
  simp only [takeWhile_cut hx, dropWhile_cut hx, Option.map_eq_bind]
  rfl

end

/-- The new blocks but the last one hold the pointer NULL, where `n` blocks are taken. -/
def FreshNext (h : Heap) (n : ℕ) : Prop := ∀ k, k + 1 < n → (h.cell (h.size + k)).next = none

theorem freshNext_succ (f : Varval → Varval) {n : ℕ} (hn : 0 < n) : FreshNext h (n + 1) ↔
    (h.cell h.size).next = none ∧ FreshNext (h.alloc f) n := by
  have hcell : ∀ k, (h.alloc f).cell ((h.alloc f).size + k) = h.cell (h.size + (k + 1)) := by
    intro k
    rw [h.alloc_of_ne (by change h.size + 1 + k ≠ h.size; omega)]
    exact congrArg h.cell (by change h.size + 1 + k = h.size + (k + 1); omega)
  refine ⟨fun hf => ⟨hf 0 (Nat.succ_lt_succ hn), fun k hk => ?_⟩, fun hf k hk => ?_⟩
  · rw [hcell]
    exact hf (k + 1) (Nat.succ_lt_succ hk)
  · cases k with
    | zero => exact hf.1
    | succ k =>
      rw [← hcell]
      exact hf.2 k (Nat.lt_of_succ_lt_succ hk)

theorem segments_length_pos (s : Str) : 0 < (segments s).length :=
  length_pos_of_ne_nil (splitOnP_ne_nil _ _)

/-- In new memory whose pointers are NULL, `getPaths` makes the list of the segments. -/
theorem getPaths_segments (fuel : ℕ) (s : Str) (h : Heap) (hfuel : s.length < fuel)
    (hlen : ∀ x ∈ segments s, x.length < MAX_VAR_VAL) (hfresh : FreshNext h (segments s).length) :
    ∃ h', getPaths fuel s none h = some (some h.size, h') ∧ h.size < h'.size ∧
      (∀ q, q < h.size → h'.cell q = h.cell q) ∧
      Chain h' h.size (some h.size) (segments s) := by
  induction fuel generalizing s h with
  | zero => exact absurd hfuel (Nat.not_lt_zero _)
  | succ fuel ih =>
    by_cases hs : ch ':' ∈ s
    · obtain ⟨x, r, rfl, hx⟩ := eq_append_cons_of_mem hs
      rw [segments_cons hx] at hlen hfresh ⊢
      obtain ⟨hx', hr⟩ := forall_mem_cons.1 hlen
      obtain ⟨hnext, hfresh⟩ :=
        (freshNext_succ (fun y => { y with value := x }) (segments_length_pos r)).1 hfresh
      rw [length_append, length_cons] at hfuel
      obtain ⟨h2, hrun, hsize, hold, hchain⟩ := ih r _ (by omega) hr hfresh
      have hlt : h.size < h2.size := (Nat.lt_succ_self _).trans hsize
      rw [getPaths_cons hx, if_pos hx', hnext, hrun]
      refine ⟨h2.setNext h.size (some (h.size + 1)), rfl, hlt, fun q hq => ?_, h.size, rfl, le_rfl,
        hlt, ?_, ?_⟩
      · rw [h2.setNext_of_ne hq.ne, hold q (hq.trans (Nat.lt_succ_self _)), h.alloc_of_ne hq.ne]
      · rw [h2.setNext_self, hold _ (Nat.lt_succ_self _), h.alloc_self]
      · rw [h2.setNext_self]
        refine hchain.congr ?_ (Nat.le_succ _) fun q hq _ => h2.setNext_of_ne (Nat.ne_of_gt hq)
        exact le_rfl
    · rw [segments_last hs] at hlen ⊢
      rw [getPaths_last hs, if_pos (hlen s mem_cons_self)]
      refine ⟨_, rfl, Nat.lt_succ_self _, fun q hq => h.alloc_of_ne hq.ne, h.size, rfl, le_rfl,
        Nat.lt_succ_self _, ?_⟩
      rw [h.alloc_self]
      exact ⟨rfl, rfl⟩

/-- If `getPaths` returns, the segments fit, and the list has a block for each segment and one more
for each block that is found behind a pointer. So a list of the right length comes from pointers
that were NULL. -/
theorem length_of_getPaths {fuel : ℕ} {s : Str} {q : Option ℕ}
    (hrun : getPaths fuel s a h = some (q, h')) (hl : Chain h' 0 q l) :
    (∀ x ∈ segments s, x.length < MAX_VAR_VAL) ∧
      (segments s).length + (if a = none then 0 else 1) ≤ l.length ∧
      (a = none → l.length = (segments s).length → FreshNext h (segments s).length) := by
  induction fuel generalizing s a h q h' l with
  | zero => cases hrun
  | succ fuel ih =>
    cases a with
    | some p =>
      rw [getPaths] at hrun
      split at hrun
      · obtain ⟨⟨q', g⟩, hrest, hg⟩ := Option.bind_eq_some_iff.1 hrun
        cases hg
        obtain _ | ⟨v, l⟩ := l
        · cases hl
        obtain ⟨hshort, hlen, -⟩ := ih hrest hl.of_setNext
        refine ⟨hshort, ?_, nofun⟩
        rw [if_neg nofun, length_cons]
        omega
      · cases hrun
    | none =>
      rw [if_pos rfl, Nat.add_zero]
      by_cases hs : ch ':' ∈ s
      · obtain ⟨x, r, rfl, hx⟩ := eq_append_cons_of_mem hs
        rw [getPaths_cons hx] at hrun
        split at hrun
        · next hlt =>
          obtain ⟨⟨q', g⟩, hrest, hg⟩ := Option.map_eq_some_iff.1 hrun
          cases hg
          obtain _ | ⟨v, l⟩ := l
          · cases hl
          obtain ⟨hshort, hlen, hfresh⟩ := ih hrest hl.of_setNext
          rw [segments_cons hx, length_cons, length_cons]
          refine ⟨forall_mem_cons.2 ⟨hlt, hshort⟩, by omega, fun _ heq => ?_⟩
          have hnone : (h.cell h.size).next = none := by
            by_contra hne
            rw [if_neg hne] at hlen
            omega
          exact (freshNext_succ _ (segments_length_pos r)).2
            ⟨hnone, hfresh hnone (Nat.succ_inj.1 heq)⟩
        · cases hrun
      · rw [getPaths_last hs] at hrun
        split at hrun
        · next hlt =>
          cases hrun
          obtain _ | ⟨v, l⟩ := l
          · cases hl
          rw [segments_last hs, length_cons]
          exact ⟨forall_mem_singleton.2 hlt, Nat.succ_le_succ (Nat.zero_le _),
            fun _ _ k hk => absurd hk (by simp)⟩
        · cases hrun

/-- `getPaths` makes the list of the segments exactly if they fit and no new block but the last
holds a stale pointer. -/
theorem getPaths_iff (s : Str) (h : Heap) :
    (∃ fuel p h', getPaths fuel s none h = some (p, h') ∧ Chain h' 0 p (segments s)) ↔
      (∀ x ∈ segments s, x.length < MAX_VAR_VAL) ∧ FreshNext h (segments s).length := by
  constructor
  · rintro ⟨fuel, p, h', hrun, hl⟩
    obtain ⟨hshort, -, hfresh⟩ := length_of_getPaths hrun hl
    exact ⟨hshort, hfresh rfl rfl⟩
  · rintro ⟨hs, hfresh⟩
    obtain ⟨h', hrun, -, -, hchain⟩ :=
      getPaths_segments (s.length + 1) s h (Nat.lt_succ_self _) hs hfresh
    exact ⟨s.length + 1, _, h', hrun, hchain.congr le_rfl (Nat.zero_le _) fun _ _ _ => rfl⟩

end Qwin.Environ
