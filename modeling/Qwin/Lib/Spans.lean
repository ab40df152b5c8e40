import Mathlib.Data.List.Basic
import Mathlib.Tactic.Linarith

/-!
# Sorted lists of spans

A `Span` is a half-open interval of numbers. A list of spans is `Gapped` when they are not
empty, come in increasing order and no two of them touch. `joinRight` and `joinLeft` put a
new span between two parts of such a list and melt it together with a neighbour that it
touches; the numbers covered and their count are what they should be.
-/

namespace Qwin

open List

/-- The numbers from `lo` up to, but not including, `hi`. -/
@[ext] structure Span where
  lo : ℕ
  hi : ℕ

namespace Span

def Has (b : Span) (x : ℕ) : Prop := b.lo ≤ x ∧ x < b.hi

def Covers (l : List Span) (x : ℕ) : Prop := ∃ b ∈ l, b.Has x

/-- How many numbers the spans have together. -/
def total (l : List Span) : ℕ := (l.map fun b => b.hi - b.lo).sum

/-- The spans are not empty, in increasing order, and with gaps between them. -/
structure Gapped (l : List Span) : Prop where
  ne : ∀ b ∈ l, b.lo < b.hi
  gap : l.Pairwise fun a b => a.hi < b.lo

/-- The span lies behind the spans of `l` and before those of `m`. -/
structure Fits (l : List Span) (b : Span) (m : List Span) : Prop where
  gapped : Gapped (l ++ m)
  ne : b.lo < b.hi
  left : ∀ a ∈ l, a.hi ≤ b.lo
  right : ∀ c ∈ m, b.hi ≤ c.lo

/-- Melt a span together with the first of those behind it, if they touch. -/
def joinRight (b : Span) : List Span → Span × List Span
  | [] => (b, [])
  | c :: m => if b.hi = c.lo then (⟨b.lo, c.hi⟩, m) else (b, c :: m)

/-- Melt a span together with the last of those before it, if they touch. -/
def joinLeft (b : Span) : List Span → List Span
  | [] => [b]
  | [a] => if a.hi = b.lo then [⟨a.lo, b.hi⟩] else [a, b]
  | a :: a' :: l => a :: joinLeft b (a' :: l)

variable {l m : List Span} {a b c : Span} {x : ℕ}

@[simp] theorem covers_nil : ¬ Covers [] x := by simp [Covers]

@[simp] theorem covers_cons : Covers (b :: l) x ↔ b.Has x ∨ Covers l x := by simp [Covers]

@[simp] theorem covers_append : Covers (l ++ m) x ↔ Covers l x ∨ Covers m x := by
  simp [Covers, or_and_right, exists_or]

@[simp] theorem total_nil : total [] = 0 := rfl

@[simp] theorem total_cons : total (b :: l) = (b.hi - b.lo) + total l := rfl

@[simp] theorem total_append : total (l ++ m) = total l + total m := by simp [total]

theorem Covers.of_perm (h : l.Perm m) : Covers l x ↔ Covers m x := by simp [Covers, h.mem_iff]

theorem total_eq_of_perm (h : l.Perm m) : total l = total m := (h.map _).sum_nat

theorem Gapped.nil : Gapped [] := ⟨by simp, .nil⟩

theorem gapped_append : Gapped (l ++ m) ↔ Gapped l ∧ Gapped m ∧ ∀ a ∈ l, ∀ c ∈ m, a.hi < c.lo := by
  constructor
  · rintro ⟨hne, hgap⟩
    obtain ⟨h1, h2, h3⟩ := pairwise_append.1 hgap
    exact ⟨⟨fun b hb => hne b (mem_append_left _ hb), h1⟩,
      ⟨fun b hb => hne b (mem_append_right _ hb), h2⟩, h3⟩
  · rintro ⟨h1, h2, h3⟩
    refine ⟨fun b hb => ?_, pairwise_append.2 ⟨h1.gap, h2.gap, h3⟩⟩
    rcases mem_append.1 hb with hb | hb
    · exact h1.ne b hb
    · exact h2.ne b hb

theorem gapped_cons : Gapped (b :: l) ↔ b.lo < b.hi ∧ Gapped l ∧ ∀ c ∈ l, b.hi < c.lo := by
  constructor
  · rintro ⟨hne, hgap⟩
    rw [pairwise_cons] at hgap
    exact ⟨hne b mem_cons_self, ⟨fun c hc => hne c (mem_cons_of_mem b hc), hgap.2⟩, hgap.1⟩
  · rintro ⟨hb, hl, hgap⟩
    refine ⟨fun c hc => ?_, pairwise_cons.2 ⟨hgap, hl.gap⟩⟩
    rcases mem_cons.1 hc with rfl | hc
    · exact hb
    · exact hl.ne c hc

/-! ## Taking a span out -/

section Take

variable {s : Span} {k1 k2 : List Span} {n : ℕ}

variable (h : Gapped (k1 ++ s :: k2))
include h

theorem Gapped.remove : Gapped (k1 ++ k2) := by
  have hsub : (k1 ++ k2).Sublist (k1 ++ s :: k2) :=
    (sublist_cons_self s k2).append_left k1
  exact ⟨fun b hb => h.ne b (hsub.subset hb), h.gap.sublist hsub⟩

theorem Gapped.not_covers (hx : s.Has x) : ¬ Covers (k1 ++ k2) x := by
  obtain ⟨-, h2, h12⟩ := gapped_append.1 h
  rintro ⟨b, hb, hbx⟩
  rcases mem_append.1 hb with hb | hb
  · have hlt := h12 b hb s mem_cons_self
    have h1 := hbx.2
    have h2 := hx.1
    omega
  · have hlt := (gapped_cons.1 h2).2.2 b hb
    have h1 := hx.2
    have h2 := hbx.1
    omega

theorem Gapped.shrink (hlo : s.lo < n) (hhi : n ≤ s.hi) : Gapped (k1 ++ ⟨s.lo, n⟩ :: k2) := by
  obtain ⟨h1, h2, h12⟩ := gapped_append.1 h
  obtain ⟨-, hk2, hgap⟩ := gapped_cons.1 h2
  refine gapped_append.2 ⟨h1, gapped_cons.2 ⟨hlo, hk2, fun c hc => lt_of_le_of_lt hhi (hgap c hc)⟩,
    fun a ha c hc => ?_⟩
  rcases mem_cons.1 hc with rfl | hc
  · exact h12 a ha s mem_cons_self
  · exact h12 a ha c (mem_cons_of_mem s hc)

end Take

/-- A span that overlaps no other has its place in the list. -/
theorem Gapped.exists_fits (h : Gapped l) (hb : b.lo < b.hi) (hfree : ∀ x, b.Has x → ¬ Covers l x) :
    ∃ l1 l2, l = l1 ++ l2 ∧ Fits l1 b l2 := by
  induction l with
  | nil => exact ⟨[], [], rfl, h, hb, by simp, by simp⟩
  | cons c l ih =>
    obtain ⟨hc, hl, hgap⟩ := gapped_cons.1 h
    have hleft : ¬ (c.lo ≤ b.lo ∧ b.lo < c.hi) := fun hx =>
      hfree b.lo ⟨le_rfl, hb⟩ (covers_cons.2 (Or.inl hx))
    have hright : ¬ (b.lo ≤ c.lo ∧ c.lo < b.hi) := fun hx =>
      hfree c.lo hx (covers_cons.2 (Or.inl ⟨le_rfl, hc⟩))
    rcases Nat.lt_or_ge c.lo b.lo with hcb | hcb
    · obtain ⟨l1, l2, rfl, hfits⟩ := ih hl fun x hx hcov => hfree x hx (covers_cons.2 (Or.inr hcov))
      refine ⟨c :: l1, l2, rfl, h, hb, fun a ha => ?_, hfits.right⟩
      rcases mem_cons.1 ha with rfl | ha
      · omega
      · exact hfits.left a ha
    · refine ⟨[], c :: l, rfl, h, hb, by simp, fun d hd => ?_⟩
      rcases mem_cons.1 hd with rfl | hd
      · omega
      · have := hgap d hd
        omega

/-! ## Melting with the span behind -/

theorem mem_of_mem_joinRight (h : c ∈ (joinRight b m).2) : c ∈ m := by
  cases m with
  | nil => exact h
  | cons d m =>
    rw [joinRight] at h
    split at h
    · exact mem_cons_of_mem d h
    · exact h

theorem joinRight_lo (b : Span) (m : List Span) : (joinRight b m).1.lo = b.lo := by
  cases m with
  | nil => rfl
  | cons c m =>
    rw [joinRight]
    split <;> rfl

theorem le_joinRight_hi (hm : ∀ c ∈ m, c.lo < c.hi) : b.hi ≤ (joinRight b m).1.hi := by
  cases m with
  | nil => exact le_rfl
  | cons c m =>
    have hc := hm c mem_cons_self
    rw [joinRight]
    split
    · change b.hi ≤ c.hi
      omega
    · exact le_rfl

theorem length_joinRight_le (b : Span) (m : List Span) : (joinRight b m).2.length ≤ m.length := by
  cases m with
  | nil => exact le_rfl
  | cons c m =>
    rw [joinRight]
    split <;> simp

theorem covers_joinRight (hb : b.lo < b.hi) (hm : ∀ c ∈ m, c.lo < c.hi) :
    Covers ((joinRight b m).1 :: (joinRight b m).2) x ↔ b.Has x ∨ Covers m x := by
  cases m with
  | nil => simp [joinRight]
  | cons c m =>
    have hc := hm c mem_cons_self
    rw [joinRight]
    split
    next htouch =>
      simp only [covers_cons, Has]
      rw [← or_assoc]
      refine or_congr ?_ Iff.rfl
      omega
    · simp

theorem total_joinRight (hb : b.lo < b.hi) (hm : ∀ c ∈ m, c.lo < c.hi) :
    total ((joinRight b m).1 :: (joinRight b m).2) = (b.hi - b.lo) + total m := by
  cases m with
  | nil => simp [joinRight]
  | cons c m =>
    have hc := hm c mem_cons_self
    rw [joinRight]
    split
    · simp only [total_cons]
      omega
    · simp

theorem Fits.joinRight (h : Fits l b m) :
    Fits l (Span.joinRight b m).1 (Span.joinRight b m).2 ∧
      ∀ c ∈ (Span.joinRight b m).2, (Span.joinRight b m).1.hi < c.lo := by
  cases m with
  | nil => exact ⟨h, by simp [Span.joinRight]⟩
  | cons c m =>
    obtain ⟨hl, hcm, hlm⟩ := gapped_append.1 h.gapped
    obtain ⟨hc, hm, hgap⟩ := gapped_cons.1 hcm
    have hbc := h.right c mem_cons_self
    have hb := h.ne
    rw [Span.joinRight]
    split
    next htouch =>
      refine ⟨⟨gapped_append.2 ⟨hl, hm, fun a ha d hd => hlm a ha d (mem_cons_of_mem c hd)⟩,
        ?_, h.left, fun d hd => Nat.le_of_lt (hgap d hd)⟩, hgap⟩
      change b.lo < c.hi
      omega
    next htouch =>
      refine ⟨h, fun d hd => ?_⟩
      rcases mem_cons.1 hd with rfl | hd
      · exact lt_of_le_of_ne hbc htouch
      · have := hgap d hd
        change b.hi < d.lo
        omega

/-! ## Melting with the span before -/

theorem joinLeft_append_singleton (l : List Span) (a b : Span) :
    joinLeft b (l ++ [a]) = if a.hi = b.lo then l ++ [⟨a.lo, b.hi⟩] else l ++ [a, b] := by
  induction l with
  | nil => rfl
  | cons c l ih =>
    cases l with
    | nil =>
      simp only [nil_append, cons_append, joinLeft]
      split <;> rfl
    | cons d l =>
      simp only [cons_append, joinLeft] at ih ⊢
      rw [ih]
      split <;> rfl

theorem covers_joinLeft (hb : b.lo < b.hi) (hl : ∀ a ∈ l, a.lo < a.hi) :
    Covers (joinLeft b l) x ↔ Covers l x ∨ b.Has x := by
  rcases eq_nil_or_concat l with rfl | ⟨l, a, rfl⟩
  · simp [joinLeft]
  · have ha := hl a (by simp)
    rw [concat_eq_append, joinLeft_append_singleton]
    split
    next htouch =>
      simp only [covers_append, covers_cons, covers_nil, or_false, Has]
      rw [or_assoc]
      refine or_congr Iff.rfl ?_
      omega
    · simp [or_assoc]

theorem total_joinLeft (hb : b.lo < b.hi) (hl : ∀ a ∈ l, a.lo < a.hi) :
    total (joinLeft b l) = total l + (b.hi - b.lo) := by
  rcases eq_nil_or_concat l with rfl | ⟨l, a, rfl⟩
  · simp [joinLeft]
  · have ha := hl a (by simp)
    rw [concat_eq_append, joinLeft_append_singleton]
    split
    · simp only [total_append, total_cons, total_nil]
      omega
    · simp [Nat.add_assoc]

theorem exists_mem_joinLeft (b : Span) (hl : ∀ a ∈ l, a.lo < a.hi) (hle : ∀ a ∈ l, a.hi ≤ b.lo) :
    ∃ c ∈ joinLeft b l, c.lo ≤ b.lo ∧ c.hi = b.hi := by
  rcases eq_nil_or_concat l with rfl | ⟨l, a, rfl⟩
  · exact ⟨b, by simp [joinLeft], le_rfl, rfl⟩
  · have h1 := hl a (by simp)
    have h2 := hle a (by simp)
    rw [concat_eq_append, joinLeft_append_singleton]
    split
    · refine ⟨⟨a.lo, b.hi⟩, by simp, ?_, rfl⟩
      change a.lo ≤ b.lo
      omega
    · exact ⟨b, by simp, le_rfl, rfl⟩

theorem length_joinLeft_le (b : Span) (l : List Span) : (joinLeft b l).length ≤ l.length + 1 := by
  rcases eq_nil_or_concat l with rfl | ⟨l, a, rfl⟩
  · simp [joinLeft]
  · rw [concat_eq_append, joinLeft_append_singleton]
    split <;> simp

theorem Fits.joinLeft (h : Fits l b m) (hgap : ∀ c ∈ m, b.hi < c.lo) :
    Gapped (Span.joinLeft b l ++ m) := by
  obtain ⟨hl, hm, hlm⟩ := gapped_append.1 h.gapped
  have hb := h.ne
  rcases eq_nil_or_concat l with rfl | ⟨l, a, rfl⟩
  · exact gapped_cons.2 ⟨hb, hm, hgap⟩
  · rw [concat_eq_append] at h hl hlm ⊢
    obtain ⟨hl, ha, hla⟩ := gapped_append.1 hl
    have hab := h.left a (by simp)
    have ha' := ha.ne a mem_cons_self
    rw [joinLeft_append_singleton]
    split
    next htouch =>
      rw [append_assoc]
      refine gapped_append.2 ⟨hl, gapped_cons.2 ⟨?_, hm, hgap⟩, fun c hc d hd => ?_⟩
      · change a.lo < b.hi
        omega
      · rcases mem_cons.1 hd with rfl | hd
        · exact hla c hc a mem_cons_self
        · exact hlm c (mem_append_left _ hc) d hd
    next htouch =>
      rw [append_assoc]
      have hlt : a.hi < b.lo := lt_of_le_of_ne hab htouch
      refine gapped_append.2 ⟨hl, gapped_cons.2 ⟨ha', gapped_cons.2 ⟨hb, hm, hgap⟩, ?_⟩, ?_⟩
      · intro d hd
        rcases mem_cons.1 hd with rfl | hd
        · exact hlt
        · have := hgap d hd
          omega
      · intro c hc d hd
        have hca := hla c hc a mem_cons_self
        rcases mem_cons.1 hd with rfl | hd
        · exact hca
        rcases mem_cons.1 hd with rfl | hd
        · omega
        · have := hgap d hd
          omega

end Span

end Qwin
