import Mathlib.Data.Finset.Card
import Mathlib.Order.Interval.Finset.Nat
import Mathlib.Tactic.Ring
import Qwin.User.Malloc

/-!
# The free list

`Rep h l` says that the free list of a heap is the ring from `base` through the blocks `l`,
in the order of their addresses. `free` looks for the block before the one it is given and
joins the new block with its neighbours as `joinRight` and `joinLeft` do; `malloc` goes
once around the ring and takes a block, or the end of one, out of it.
-/

namespace Qwin.User

open Qwin.Span

namespace Heap

open List
open Function (update_of_ne update_self)

variable {h h' : Heap} {l l1 l2 : List Span} {a b p q bp v x : ℕ}

theorem header_pos : 0 < HEADER := by decide

@[simp] theorem setPtr_base : (h.setPtr a v).base = h.base := rfl
@[simp] theorem setPtr_self : (h.setPtr a v).mem a = ⟨v, (h.mem a).size⟩ := update_self _ _ _
@[simp] theorem setSize_base : (h.setSize a v).base = h.base := rfl
@[simp] theorem setSize_self : (h.setSize a v).mem a = ⟨(h.mem a).ptr, v⟩ := update_self _ _ _

theorem setPtr_of_ne (hx : x ≠ a) : (h.setPtr a v).mem x = h.mem x := update_of_ne hx _ _

theorem setSize_of_ne (hx : x ≠ a) : (h.setSize a v).mem x = h.mem x := update_of_ne hx _ _

abbrev next (h : Heap) (a : ℕ) : ℕ := (h.mem a).ptr

def nodes (h : Heap) (l : List Span) : List ℕ := h.base :: l.map Span.lo

theorem nodes_increasing (hl : Gapped l) (habove : ∀ b ∈ l, h.base < b.lo) :
    (h.nodes l).Pairwise (· < ·) := by
  refine pairwise_cons.2 ⟨fun a ha => ?_, ?_⟩
  · obtain ⟨b, hb, rfl⟩ := mem_map.1 ha
    exact habove b hb
  · refine pairwise_map.2 (hl.gap.imp_of_mem fun {a b} ha _ hab => ?_)
    have := hl.ne a ha
    omega

/-- The free list is the ring from `base` through the blocks `l`. -/
structure Rep (h : Heap) (l : List Span) : Prop where
  ring : Path h.next h.base (h.nodes l) h.base
  empty : (h.mem h.base).size = 0
  size : ∀ b ∈ l, b.hi = b.lo + HEADER * (h.mem b.lo).size
  freep : h.freep ∈ h.nodes l
  gapped : Gapped l
  above : ∀ b ∈ l, h.base < b.lo

/-- Two heaps that differ in the headers of some addresses and in `freep` only. -/
structure SameBut (h h' : Heap) (S : ℕ → Prop) : Prop where
  base : h'.base = h.base
  brk : h'.brk = h.brk
  regions : h'.regions = h.regions
  mem : ∀ a, ¬ S a → h'.mem a = h.mem a

namespace Rep

theorem of_base (hbase : h'.base = h.base) (ring : Path h'.next h.base (h.nodes l) h.base)
    (empty : (h'.mem h.base).size = 0)
    (size : ∀ b ∈ l, b.hi = b.lo + HEADER * (h'.mem b.lo).size) (freep : h'.freep ∈ h.nodes l)
    (gapped : Gapped l) (above : ∀ b ∈ l, h.base < b.lo) : Rep h' l := by
  have hnodes : h'.nodes l = h.nodes l := by rw [nodes, hbase, nodes]
  refine ⟨?_, ?_, size, ?_, gapped, ?_⟩
  · rw [hnodes, hbase]
    exact ring
  · rw [hbase]
    exact empty
  · rw [hnodes]
    exact freep
  · rw [hbase]
    exact above

theorem congr (hR : Rep h l) (hbase : h'.base = h.base) (hfreep : h'.freep = h.freep)
    (hmem : ∀ a ∈ h.nodes l, h'.mem a = h.mem a) : Rep h' l := by
  refine of_base hbase ?_ ?_ ?_ (hfreep ▸ hR.freep) hR.gapped hR.above
  · exact hR.ring.congr fun a ha => by rw [next, hmem a ha]
  · rw [hmem _ mem_cons_self]
    exact hR.empty
  · intro b hb
    rw [hmem _ (mem_cons_of_mem _ (mem_map_of_mem hb))]
    exact hR.size b hb

theorem increasing (hR : Rep h l) : (h.nodes l).Pairwise (· < ·) :=
  nodes_increasing hR.gapped hR.above

theorem nodup (hR : Rep h l) : (h.nodes l).Nodup := hR.increasing.imp fun hab => Nat.ne_of_lt hab

theorem length_le (hR : Rep h l) (hbase : h.base < h.brk) (hbrk : ∀ b ∈ l, b.hi ≤ h.brk) :
    (h.nodes l).length ≤ h.rounds := by
  have hsub : (h.nodes l).toFinset ⊆ Finset.Ico h.base h.brk := by
    intro a ha
    rw [Finset.mem_Ico]
    rcases mem_cons.1 (mem_toFinset.1 ha) with rfl | ha
    · exact ⟨le_rfl, hbase⟩
    · obtain ⟨b, hb, rfl⟩ := mem_map.1 ha
      exact ⟨le_of_lt (hR.above b hb), lt_of_lt_of_le (hR.gapped.ne b hb) (hbrk b hb)⟩
  have hcard := Finset.card_le_card hsub
  rwa [toFinset_card_of_nodup hR.nodup, Nat.card_Ico] at hcard

/-! ## The loop of `free` -/

/-- The loop of `free` stops at the last block before `bp`. -/
theorem stop_iff (hR : Rep h l) (hq : q ∈ h.nodes l) (hbp : bp ∉ h.nodes l) (hbase : h.base < bp) :
    (q < bp ∧ bp < h.next q) ∨ (h.next q ≤ q ∧ (q < bp ∨ bp < h.next q)) ↔
      q < bp ∧ ∀ n ∈ h.nodes l, n < bp → n ≤ q := by
  rcases hR.ring.next_cases hR.increasing hq with ⟨hlast, hmax⟩ | ⟨hlt, hmem, hnext⟩
  · rw [hlast]
    have hle : h.base ≤ q := by
      rcases mem_cons.1 hq with rfl | hq'
      · exact le_rfl
      · exact le_of_lt ((pairwise_cons.1 hR.increasing).1 q hq')
    constructor
    · intro hstop
      exact ⟨by omega, fun n hn _ => hmax n hn⟩
    · rintro ⟨hqb, -⟩
      omega
  · constructor
    · intro hstop
      refine ⟨by omega, fun n hn hnb => ?_⟩
      rcases hnext n hn with hle | hge
      · exact hle
      · omega
    · rintro ⟨hqb, hmax⟩
      have hne : h.next q ≠ bp := fun he => hbp (he ▸ hmem)
      refine Or.inl ⟨hqb, ?_⟩
      by_contra hle
      have := hmax _ hmem (by omega)
      omega

theorem freeLoop_path {m : List ℕ} (hm : Path h.next a m p)
    (hgo : ∀ q ∈ m, ¬ ((q < bp ∧ bp < h.next q) ∨
      (h.next q ≤ q ∧ (q < bp ∨ bp < h.next q)))) (fuel : ℕ) :
    freeLoop h.mem bp (fuel + m.length) a = freeLoop h.mem bp fuel p := by
  induction m generalizing a with
  | nil => rw [show a = p from hm]; rfl
  | cons x m ih =>
    obtain ⟨rfl, hm⟩ := hm
    have hx := hgo x mem_cons_self
    rw [not_or] at hx
    rw [length_cons, ← Nat.add_assoc, freeLoop, if_neg hx.1, if_neg hx.2]
    exact ih hm fun q hq => hgo q (mem_cons_of_mem x hq)

theorem freeLoop_eq (hR : Rep h l) (hbp : bp ∉ h.nodes l) (hbase : h.base < bp)
    (hp : p ∈ h.nodes l) (hlt : p < bp) (hmax : ∀ n ∈ h.nodes l, n < bp → n ≤ p) {fuel : ℕ}
    (hfuel : (h.nodes l).length ≤ fuel) : freeLoop h.mem bp fuel h.freep = some p := by
  obtain ⟨m, hm, hnot, hsub, hlen⟩ := hR.ring.exists_to hR.freep hp hR.nodup
  obtain ⟨k, rfl⟩ : ∃ k, fuel = k + 1 + m.length := ⟨fuel - m.length - 1, by omega⟩
  rw [freeLoop_path hm fun q hq => ?_, freeLoop]
  · have hstop := (hR.stop_iff hp hbp hbase).2 ⟨hlt, hmax⟩
    by_cases hfirst : p < bp ∧ bp < (h.mem p).ptr
    · rw [if_pos hfirst]
    · rw [if_neg hfirst, if_pos (hstop.resolve_left hfirst)]
  · rw [hR.stop_iff (hsub q hq) hbp hbase]
    rintro ⟨hqb, hqmax⟩
    exact hnot ((Nat.le_antisymm (hqmax p hp hlt) (hmax q (hsub q hq) hqb)) ▸ hq)

/-! ## Joining blocks -/

/-- `joinNext` gives the header at `bp` the size of the span that `joinRight` makes, and the
pointer to what is left behind it. -/
theorem joinNext_spec (b : Span) (hbp : b.hi = b.lo + HEADER * (h.mem b.lo).size)
    (hnext : Path h.next (h.next p) (l2.map Span.lo) h.base) (hbase : h.base < b.lo)
    (hne : b.lo < b.hi) (hp : p ≠ b.lo)
    (hsize : ∀ c ∈ l2, b.lo < c.lo ∧ c.hi = c.lo + HEADER * (h.mem c.lo).size) :
    (∀ a, a ≠ b.lo → (h.joinNext b.lo p).mem a = h.mem a) ∧
      (joinRight b l2).1.lo = b.lo ∧
      (joinRight b l2).1.hi = b.lo + HEADER * ((h.joinNext b.lo p).mem b.lo).size ∧
      Path h.next ((h.joinNext b.lo p).next b.lo) ((joinRight b l2).2.map Span.lo) h.base := by
  unfold joinNext
  cases l2 with
  | nil =>
    have hb : (h.mem p).ptr = h.base := hnext
    rw [if_neg (by rw [← hbp, hb]; omega)]
    refine ⟨fun a ha => setPtr_of_ne ha, rfl, ?_, ?_⟩
    · rw [setPtr_self]
      exact hbp
    · rw [next, setPtr_self]
      exact hb
  | cons c l2 =>
    have hc : (h.mem p).ptr = c.lo := hnext.1.symm
    have hrest : Path h.next (h.mem c.lo).ptr (l2.map Span.lo) h.base := by
      rw [← hc]
      exact hnext.2
    obtain ⟨hlt, hcsize⟩ := hsize c mem_cons_self
    have hcb : c.lo ≠ b.lo := Nat.ne_of_gt hlt
    rw [joinRight, ← hbp, hc]
    by_cases htouch : b.hi = c.lo
    · rw [if_pos htouch, if_pos htouch]
      dsimp only
      rw [setSize_of_ne hp, hc, setSize_of_ne hcb]
      refine ⟨fun a ha => ?_, rfl, ?_, ?_⟩
      · rw [setPtr_of_ne ha, setSize_of_ne ha]
      · rw [setPtr_self, setSize_self]
        dsimp only
        rw [hcsize, ← htouch, hbp]
        ring
      · rw [next, setPtr_self]
        exact hrest
    · rw [if_neg htouch, if_neg htouch]
      refine ⟨fun a ha => setPtr_of_ne ha, rfl, ?_, ?_⟩
      · rw [setPtr_self]
        exact hbp
      · rw [next, setPtr_self]
        exact ⟨rfl, hrest⟩

theorem joinPrev_of_ne (ha : a ≠ p) : (h.joinPrev bp p).mem a = h.mem a := by
  unfold joinPrev
  split
  · rw [setPtr_of_ne ha, setSize_of_ne ha]
  · exact setPtr_of_ne ha

theorem joinPrev_base : (h.joinPrev bp p).base = h.base := by
  unfold joinPrev
  split <;> rfl

/-- The addresses before a block that fits are smaller. -/
theorem nodes_lt {b : Span} (hbase : h.base < b.lo) (hF : Fits l1 b l2) :
    ∀ x ∈ h.nodes l1, x < b.lo := by
  intro x hx
  rcases mem_cons.1 hx with rfl | hx
  · exact hbase
  · obtain ⟨c, hc, rfl⟩ := mem_map.1 hx
    have h1 := hF.left c hc
    have h2 := hF.gapped.ne c (mem_append_left _ hc)
    omega

section JoinPrev

variable {A : List ℕ} {b : Span} (hb : b.hi = b.lo + HEADER * (h.mem b.lo).size)
  (hl1 : h.nodes l1 = A ++ [p]) (hA : Path h.next h.base A p)
  (hrest : Path h.next (h.next b.lo) (l2.map Span.lo) h.base)
  (hempty : (h.mem h.base).size = 0)
  (hsize : ∀ c ∈ l1 ++ l2, c.hi = c.lo + HEADER * (h.mem c.lo).size)
  (habove : ∀ c ∈ l1 ++ l2, h.base < c.lo) (hbase : h.base < b.lo) (hF : Fits l1 b l2)
  (hgap : ∀ c ∈ l2, b.hi < c.lo)

include hl1 habove hF in
theorem before_ne : ∀ x ∈ A, x ≠ p := by
  have hinc := nodes_increasing (h := h) (gapped_append.1 hF.gapped).1
    fun c hc => habove c (mem_append_left _ hc)
  rw [hl1] at hinc
  intro x hx
  exact Nat.ne_of_lt ((pairwise_append.1 hinc).2.2 x hx p (mem_singleton_self p))

include hl1 hbase hF in
theorem pred_lt : p < b.lo :=
  nodes_lt hbase hF p (by rw [hl1]; exact mem_append_right _ (mem_singleton_self p))

include hl1 hbase hF in
theorem behind_ne : ∀ x ∈ l2.map Span.lo, x ≠ p := by
  intro x hx
  obtain ⟨c, hc, rfl⟩ := mem_map.1 hx
  have h1 := hF.right c hc
  have h2 := hF.ne
  have h3 := pred_lt hl1 hbase hF
  omega

include hb hl1 hA hrest hempty hsize habove hbase hF hgap

/-- The ring when the block does not touch the one before it. -/
theorem joinPrev_apart (hapart : p + HEADER * (h.mem p).size ≠ b.lo)
    (hjoin : joinLeft b l1 = l1 ++ [b]) :
    Rep { h.joinPrev b.lo p with freep := p } (joinLeft b l1 ++ l2) := by
  have hpb := pred_lt hl1 hbase hF
  have hgapped := hF.joinLeft hgap
  have hmem : (h.joinPrev b.lo p).mem p = ⟨b.lo, (h.mem p).size⟩ := by
    rw [joinPrev, if_neg hapart, setPtr_self]
  have hnodes : h.nodes (l1 ++ [b] ++ l2) = A ++ p :: b.lo :: l2.map Span.lo := by
    rw [nodes, append_assoc, map_append, ← cons_append]
    change h.nodes l1 ++ _ = _
    rw [hl1]
    simp
  have hnext : Heap.next { h.joinPrev b.lo p with freep := p } p = b.lo :=
    congrArg Header.ptr hmem
  have hsizes : ∀ x, ((h.joinPrev b.lo p).mem x).size = (h.mem x).size := by
    intro x
    by_cases hx : x = p
    · rw [hx, hmem]
    · rw [joinPrev_of_ne hx]
  have hold : ∀ x, x ≠ p →
      Heap.next { h.joinPrev b.lo p with freep := p } x = h.next x := fun x hx =>
    congrArg Header.ptr (joinPrev_of_ne hx)
  rw [hjoin] at hgapped ⊢
  refine Rep.of_base (h := h) joinPrev_base ?_ ?_ ?_ ?_ hgapped ?_
  · rw [hnodes]
    refine Path.append_iff.2 ⟨p, hA.congr fun x hx => hold x (before_ne hl1 habove hF x hx), rfl, ?_⟩
    rw [hnext]
    refine ⟨rfl, ?_⟩
    rw [hold _ (Nat.ne_of_gt hpb)]
    exact hrest.congr fun x hx => hold x (behind_ne hl1 hbase hF x hx)
  · exact (hsizes h.base).trans hempty
  · intro c hc
    have hc' : c.hi = c.lo + HEADER * (h.mem c.lo).size := by
      simp only [append_assoc, mem_append, mem_singleton] at hc hsize
      rcases hc with hc | rfl | hc
      · exact hsize c (Or.inl hc)
      · exact hb
      · exact hsize c (Or.inr hc)
    rw [hc']
    congr 2
    exact (hsizes c.lo).symm
  · rw [hnodes]
    simp
  · intro c hc
    simp only [append_assoc, mem_append, mem_singleton] at hc habove
    rcases hc with hc | rfl | hc
    · exact habove c (Or.inl hc)
    · exact hbase
    · exact habove c (Or.inr hc)

theorem joinPrev_touch {a : Span} {k : List Span} (hk : l1 = k ++ [a]) (hpa : p = a.lo)
    (htouch : p + HEADER * (h.mem p).size = b.lo) :
    Rep { h.joinPrev b.lo p with freep := p } (joinLeft b l1 ++ l2) := by
  have hpb := pred_lt hl1 hbase hF
  have hgapped := hF.joinLeft hgap
  have ha : a.hi = a.lo + HEADER * (h.mem a.lo).size := hsize a (by simp [hk])
  have hjoin : joinLeft b l1 = k ++ [⟨a.lo, b.hi⟩] := by
    rw [hk, joinLeft_append_singleton, if_pos (by rw [ha, ← hpa, htouch])]
  have hmem : (h.joinPrev b.lo p).mem p = ⟨h.next b.lo, (h.mem p).size + (h.mem b.lo).size⟩ := by
    rw [joinPrev, if_pos htouch, setPtr_self, setSize_self, setSize_of_ne (Nat.ne_of_gt hpb)]
  have hnext : Heap.next { h.joinPrev b.lo p with freep := p } p = h.next b.lo := by
    change ((h.joinPrev b.lo p).mem p).ptr = _
    rw [hmem]
  have hnodes : h.nodes (k ++ [⟨a.lo, b.hi⟩] ++ l2) = A ++ p :: l2.map Span.lo := by
    have hAk : A = h.nodes k := by
      rw [hk, nodes, map_append, ← cons_append] at hl1
      exact (append_inj_left' hl1 rfl).symm
    rw [hAk, hpa]
    simp [nodes]
  have hold : ∀ x, x ≠ p → (h.joinPrev b.lo p).mem x = h.mem x := fun x hx => joinPrev_of_ne hx
  rw [hjoin] at hgapped ⊢
  refine Rep.of_base (h := h) joinPrev_base ?_ ?_ ?_ ?_ hgapped ?_
  · rw [hnodes]
    refine Path.append_iff.2 ⟨p, hA.congr fun x hx =>
      congrArg Header.ptr (hold x (before_ne hl1 habove hF x hx)), rfl, ?_⟩
    rw [hnext]
    exact hrest.congr fun x hx => congrArg Header.ptr (hold x (behind_ne hl1 hbase hF x hx))
  · have hne : h.base ≠ p := by
      rw [hpa]
      exact Nat.ne_of_lt (habove a (by simp [hk]))
    exact (congrArg Header.size (hold h.base hne)).trans hempty
  · intro c hc
    have hkl : ∀ c, c ∈ k ∨ c ∈ l2 → c.hi = c.lo + HEADER * ((h.joinPrev b.lo p).mem c.lo).size := by
      intro c hc
      have hne : c.lo ≠ p := by
        rcases hc with hc | hc
        · rw [hk] at hF
          have h1 := (gapped_append.1 (gapped_append.1 hF.gapped).1).2.2 c hc a
            (mem_singleton_self a)
          have h2 := hF.gapped.ne c (by simp [hc])
          omega
        · exact behind_ne hl1 hbase hF c.lo (mem_map_of_mem hc)
      rw [hold _ hne]
      refine hsize c ?_
      rcases hc with hc | hc <;> simp [hk, hc]
    simp only [append_assoc, mem_append, mem_singleton] at hc
    rcases hc with hc | rfl | hc
    · exact hkl c (Or.inl hc)
    · change b.hi = a.lo + HEADER * ((h.joinPrev b.lo p).mem a.lo).size
      rw [← hpa, hmem, hb, ← htouch]
      ring
    · exact hkl c (Or.inr hc)
  · rw [hnodes]
    simp
  · intro c hc
    simp only [append_assoc, mem_append, mem_singleton] at hc habove
    rcases hc with hc | rfl | hc
    · exact habove c (Or.inl (by simp [hk, hc]))
    · exact habove a (Or.inl (by simp [hk]))
    · exact habove c (Or.inr hc)

/-- `joinPrev` closes the ring again, with the list that `joinLeft` makes. -/
theorem joinPrev_spec : Rep { h.joinPrev b.lo p with freep := p } (joinLeft b l1 ++ l2) := by
  rcases eq_nil_or_concat l1 with hnil | ⟨k, a, hk⟩
  · have hp : p = h.base := by
      rw [hnil] at hl1
      have hlast := congrArg List.getLast? hl1
      simpa [nodes] using hlast.symm
    refine joinPrev_apart hb hl1 hA hrest hempty hsize habove hbase hF hgap ?_ ?_
    · rw [hp, hempty]
      exact Nat.ne_of_lt hbase
    · rw [hnil]
      rfl
  · rw [concat_eq_append] at hk
    have hp : p = a.lo := by
      rw [hk, nodes, map_append, ← cons_append] at hl1
      exact (singleton_inj.1 (append_inj_right' hl1 rfl)).symm
    have ha := hsize a (by simp [hk])
    by_cases htouch : p + HEADER * (h.mem p).size = b.lo
    · exact joinPrev_touch hb hl1 hA hrest hempty hsize habove hbase hF hgap hk hp htouch
    · refine joinPrev_apart hb hl1 hA hrest hempty hsize habove hbase hF hgap htouch ?_
      rw [hk, joinLeft_append_singleton, if_neg (by rwa [ha, ← hp])]
      simp

end JoinPrev

theorem joinNext_base : (h.joinNext bp p).base = h.base := by
  unfold joinNext
  split <;> rfl

/-- A list that begins with `base` ends with something. -/
theorem exists_last (h : Heap) (l : List Span) : ∃ A p, h.nodes l = A ++ [p] :=
  ⟨_, _, (dropLast_append_getLast (cons_ne_nil _ _)).symm⟩

/-- `free` puts a block between those before and those behind it. -/
theorem free_spec {b : Span} (hR : Rep h (l1 ++ l2)) (hF : Fits l1 b l2) (hbase : h.base < b.lo)
    (hb : b.hi = b.lo + HEADER * (h.mem b.lo).size)
    (hfuel : (h.nodes (l1 ++ l2)).length ≤ h.rounds) :
    ∃ h', h.free (b.lo + HEADER) = some h' ∧
      Rep h' (joinLeft (joinRight b l2).1 l1 ++ (joinRight b l2).2) ∧
      SameBut h h' fun a => a = b.lo ∨ a ∈ h.nodes (l1 ++ l2) := by
  obtain ⟨A, p, hl1⟩ := exists_last h l1
  have hnodes : h.nodes (l1 ++ l2) = A ++ p :: l2.map Span.lo := by
    rw [nodes, map_append, ← cons_append]
    change h.nodes l1 ++ _ = _
    rw [hl1]
    simp
  have hring := hR.ring
  rw [hnodes] at hring
  obtain ⟨hA, -, hrest⟩ := hring.of_append_cons
  have hpb := pred_lt hl1 hbase hF
  have hbehind : ∀ c ∈ l2, b.lo < c.lo := fun c hc => lt_of_lt_of_le hF.ne (hF.right c hc)
  have hnot : b.lo ∉ h.nodes (l1 ++ l2) := by
    rw [nodes, map_append, ← cons_append]
    intro hmem
    rcases mem_append.1 hmem with hmem | hmem
    · exact absurd (nodes_lt hbase hF _ hmem) (lt_irrefl _)
    · obtain ⟨c, hc, hcb⟩ := mem_map.1 hmem
      exact Nat.ne_of_gt (hbehind c hc) hcb
  have hmax : ∀ n ∈ h.nodes (l1 ++ l2), n < b.lo → n ≤ p := by
    have hinc := hR.increasing
    rw [hnodes] at hinc ⊢
    intro n hn hnb
    rcases mem_append.1 hn with hn | hn
    · exact le_of_lt ((pairwise_append.1 hinc).2.2 n hn p mem_cons_self)
    rcases mem_cons.1 hn with rfl | hn
    · exact le_rfl
    · obtain ⟨c, hc, rfl⟩ := mem_map.1 hn
      have := hbehind c hc
      omega
  have hloop := hR.freeLoop_eq hnot hbase (by rw [hnodes]; simp) hpb hmax hfuel
  refine ⟨{ (h.joinNext b.lo p).joinPrev b.lo p with freep := p }, ?_, ?_, ?_⟩
  · rw [free, Nat.add_sub_cancel, hloop]
    rfl
  · obtain ⟨hother, hlo, hhi, hback⟩ := joinNext_spec b hb hrest hbase hF.ne (Nat.ne_of_lt hpb)
      fun c hc => ⟨hbehind c hc, hR.size c (mem_append_right _ hc)⟩
    obtain ⟨hF', hgap⟩ := hF.joinRight
    have hkeep : ∀ c ∈ l1 ++ (joinRight b l2).2, c ∈ l1 ++ l2 ∧ c.lo ≠ b.lo := by
      intro c hc
      rcases mem_append.1 hc with hc | hc
      · exact ⟨mem_append_left _ hc, Nat.ne_of_lt (nodes_lt hbase hF c.lo
          (mem_cons_of_mem _ (mem_map_of_mem hc)))⟩
      · have hc2 := mem_of_mem_joinRight hc
        exact ⟨mem_append_right _ hc2, Nat.ne_of_gt (hbehind c hc2)⟩
    have hptr : ∀ x, x ≠ b.lo → (h.joinNext b.lo p).next x = h.next x := fun x hx =>
      congrArg Header.ptr (hother x hx)
    have hbase1 : (h.joinNext b.lo p).base = h.base := joinNext_base
    generalize h.joinNext b.lo p = h1 at hother hhi hback hptr hbase1 ⊢
    rw [← hlo] at hhi hback ⊢
    refine joinPrev_spec (A := A) hhi ?_ ?_ ?_ ?_ ?_ ?_ ?_ hF' hgap
    · rw [nodes, hbase1]
      exact hl1
    · rw [hbase1]
      refine hA.congr fun x hx => hptr x ?_
      refine Nat.ne_of_lt (nodes_lt hbase hF x ?_)
      rw [hl1]
      exact mem_append_left _ hx
    · rw [hbase1]
      refine hback.congr fun x hx => hptr x ?_
      obtain ⟨c, hc, rfl⟩ := mem_map.1 hx
      exact (hkeep c (mem_append_right _ hc)).2
    · rw [hbase1, hother _ (Nat.ne_of_lt hbase)]
      exact hR.empty
    · intro c hc
      obtain ⟨hc, hne⟩ := hkeep c hc
      rw [hother _ hne]
      exact hR.size c hc
    · intro c hc
      rw [hbase1]
      exact hR.above c (hkeep c hc).1
    · rw [hbase1, hlo]
      exact hbase
  · refine ⟨joinPrev_base.trans joinNext_base, ?_, ?_, fun a ha => ?_⟩
    · change ((h.joinNext b.lo p).joinPrev b.lo p).brk = h.brk
      unfold joinPrev joinNext
      split <;> split <;> rfl
    · change ((h.joinNext b.lo p).joinPrev b.lo p).regions = h.regions
      unfold joinPrev joinNext
      split <;> split <;> rfl
    · obtain ⟨hab, han⟩ := not_or.1 ha
      have hap : a ≠ p := fun he => han (by rw [he, hnodes]; simp)
      refine (joinPrev_of_ne hap).trans ?_
      exact (joinNext_spec b hb hrest hbase hF.ne (Nat.ne_of_lt hpb) fun c hc =>
        ⟨hbehind c hc, hR.size c (mem_append_right _ hc)⟩).1 a hab

/-! ## The loop of `malloc` -/

/-- What `malloc` has done: a block of `n` headers is no longer free. -/
structure Taken (h : Heap) (l : List Span) (n ap : ℕ) (h' : Heap) (l' : List Span) (b : Span) :
    Prop where
  rep : Rep h' l'
  same : SameBut h h' fun a => a ∈ h.nodes l ∨ b.Has a
  ap : ap = b.lo + HEADER
  lo : h.base < b.lo
  size : (h'.mem b.lo).size = n
  hi : b.hi = b.lo + HEADER * n
  covers : ∀ x, Covers l x ↔ Covers l' x ∨ b.Has x
  apart : ∀ x, b.Has x → ¬ Covers l' x
  total : Span.total l = Span.total l' + (b.hi - b.lo)

theorem mem_of_mem_rest {b s : Span} {k1 k2 : List Span} (hb : b ∈ k1 ++ k2) : b ∈ k1 ++ s :: k2 :=
  ((sublist_cons_self s k2).append_left k1).subset hb

section Take

variable {n : ℕ} {s : Span} {k1 k2 : List Span} {A : List ℕ} (hR : Rep h (k1 ++ s :: k2))
  (hA : h.nodes k1 = A ++ [p]) (hn : 0 < n)

include hA in
theorem nodes_split : h.nodes (k1 ++ s :: k2) = A ++ p :: s.lo :: k2.map Span.lo := by
  rw [nodes, map_append, ← cons_append]
  change h.nodes k1 ++ _ = _
  rw [hA]
  simp

include hR hA

theorem takeAll_spec (hsize : (h.mem s.lo).size = n) :
    Taken h (k1 ++ s :: k2) n (h.takeAll p s.lo).1 (h.takeAll p s.lo).2 (k1 ++ k2) s := by
  have hnodes : h.nodes (k1 ++ s :: k2) = A ++ p :: s.lo :: k2.map Span.lo := nodes_split hA
  have hring := hR.ring
  have hinc := hR.increasing
  rw [hnodes] at hring hinc
  obtain ⟨hA', -, hs, hrest⟩ := hring.of_append_cons
  obtain ⟨-, h2, h12⟩ := pairwise_append.1 hinc
  rw [pairwise_cons] at h2
  have hps : p < s.lo := h2.1 s.lo mem_cons_self
  have hhi := hR.size s (by simp)
  have hne := hR.gapped.ne s (by simp)
  have hold : ∀ x, x ≠ p → (h.takeAll p s.lo).2.mem x = h.mem x := fun x hx => setPtr_of_ne hx
  have hnew : (h.takeAll p s.lo).2.mem p = ⟨h.next s.lo, (h.mem p).size⟩ := setPtr_self
  have hsizes : ∀ x, ((h.takeAll p s.lo).2.mem x).size = (h.mem x).size := by
    intro x
    by_cases hx : x = p
    · rw [hx, hnew]
    · rw [hold x hx]
  have hnodes' : h.nodes (k1 ++ k2) = A ++ p :: k2.map Span.lo := by
    rw [nodes, map_append, ← cons_append]
    change h.nodes k1 ++ _ = _
    rw [hA]
    simp
  constructor
  · refine Rep.of_base (h := h) rfl ?_ ?_ ?_ ?_ hR.gapped.remove ?_
    · rw [hnodes']
      refine Path.append_iff.2 ⟨p, hA'.congr fun x hx => ?_, rfl, ?_⟩
      · exact congrArg Header.ptr (hold x (Nat.ne_of_lt (h12 x hx p mem_cons_self)))
      · rw [← hs] at hrest
        rw [next, hnew]
        refine hrest.congr fun x hx => congrArg Header.ptr (hold x ?_)
        exact Nat.ne_of_gt (h2.1 x (mem_cons_of_mem _ hx))
    · rw [hsizes]
      exact hR.empty
    · intro b hb
      rw [hsizes]
      exact hR.size b (mem_of_mem_rest hb)
    · rw [hnodes']
      exact mem_append_right _ mem_cons_self
    · intro b hb
      exact hR.above b (mem_of_mem_rest hb)
  · refine ⟨rfl, rfl, rfl, fun a ha => hold a fun hap => ha (Or.inl ?_)⟩
    rw [hap, hnodes]
    simp
  · rfl
  · exact hR.above s (by simp)
  · rw [hsizes, hsize]
  · rw [hhi, hsize]
  · intro x
    simp only [covers_append, covers_cons, or_assoc, or_comm]
  · exact fun x hx => hR.gapped.not_covers hx
  · simp only [total_append, total_cons]
    omega

theorem takeTail_spec (hn : 0 < n) (hsize : n < (h.mem s.lo).size) :
    Taken h (k1 ++ s :: k2) n (h.takeTail p s.lo n).1 (h.takeTail p s.lo n).2
      (k1 ++ ⟨s.lo, s.hi - HEADER * n⟩ :: k2) ⟨s.hi - HEADER * n, s.hi⟩ := by
  have hhi := hR.size s (by simp)
  have hcut : s.lo + HEADER * ((h.mem s.lo).size - n) = s.hi - HEADER * n := by
    rw [hhi, Nat.mul_sub]
    have : HEADER * n ≤ HEADER * (h.mem s.lo).size := Nat.mul_le_mul_left _ (Nat.le_of_lt hsize)
    omega
  generalize hr : s.hi - HEADER * n = r at hcut ⊢
  have hlo : s.lo < r := by
    rw [← hcut]
    have : 0 < HEADER * ((h.mem s.lo).size - n) := Nat.mul_pos (by decide) (by omega)
    omega
  have hrn : r + HEADER * n = s.hi := by
    rw [← hcut, hhi, Nat.add_assoc, ← Nat.mul_add, Nat.sub_add_cancel (Nat.le_of_lt hsize)]
  have hrs : r < s.hi := by
    have : 0 < HEADER * n := Nat.mul_pos (by decide) hn
    omega
  have htail : h.takeTail p s.lo n = (r + HEADER,
      { (h.setSize s.lo ((h.mem s.lo).size - n)).setSize r n with freep := p }) := by
    rw [takeTail]
    dsimp only
    rw [setSize_self]
    dsimp only
    rw [hcut]
  rw [htail]
  dsimp only
  generalize hh' : { (h.setSize s.lo ((h.mem s.lo).size - n)).setSize r n with freep := p } = h'
  have hmem : h'.mem = ((h.setSize s.lo ((h.mem s.lo).size - n)).setSize r n).mem := by rw [← hh']
  have hptr : ∀ x, h'.next x = h.next x := by
    intro x
    rw [next, hmem]
    by_cases hx : x = r
    · rw [hx, setSize_self, setSize_of_ne (Nat.ne_of_gt hlo)]
    · rw [setSize_of_ne hx]
      by_cases hxs : x = s.lo
      · rw [hxs, setSize_self]
      · rw [setSize_of_ne hxs]
  have hold : ∀ x, x ≠ r → x ≠ s.lo → h'.mem x = h.mem x := by
    intro x hx hxs
    rw [hmem, setSize_of_ne hx, setSize_of_ne hxs]
  have hfirst : (h'.mem s.lo).size = (h.mem s.lo).size - n := by
    rw [hmem, setSize_of_ne (Nat.ne_of_lt hlo), setSize_self]
  have hgap := hR.gapped.shrink hlo (Nat.le_of_lt hrs)
  have hothers : ∀ b ∈ k1 ++ k2, b.lo ≠ r ∧ b.lo ≠ s.lo := by
    intro b hb
    have hbne := hR.gapped.ne b (mem_of_mem_rest hb)
    have hnot : ∀ x, s.Has x → b.lo ≠ x := fun x hx he =>
      hR.gapped.not_covers hx ⟨b, hb, by rw [Has]; omega⟩
    exact ⟨hnot r ⟨Nat.le_of_lt hlo, hrs⟩, hnot s.lo ⟨le_rfl, by omega⟩⟩
  have hnodes : h.nodes (k1 ++ ⟨s.lo, r⟩ :: k2) = h.nodes (k1 ++ s :: k2) := by simp [nodes]
  have hmemb : ∀ b, b ∈ k1 ++ ⟨s.lo, r⟩ :: k2 ↔ b ∈ k1 ++ k2 ∨ b = ⟨s.lo, r⟩ := by
    intro b
    simp only [mem_append, mem_cons, or_assoc, or_comm]
  constructor
  · refine Rep.of_base (h := h) (by rw [← hh']; rfl) ?_ ?_ ?_ ?_ hgap ?_
    · rw [hnodes]
      exact hR.ring.congr fun x _ => hptr x
    · have h1 := hR.above s (by simp)
      rw [hold _ (by omega) (by omega)]
      exact hR.empty
    · intro b hb
      rcases (hmemb b).1 hb with hb | rfl
      · rw [hold _ (hothers b hb).1 (hothers b hb).2]
        exact hR.size b (mem_of_mem_rest hb)
      · rw [hfirst]
        exact hcut.symm
    · rw [hnodes, nodes_split hA, ← hh']
      simp
    · intro b hb
      rcases (hmemb b).1 hb with hb | rfl
      · exact hR.above b (mem_of_mem_rest hb)
      · exact hR.above s (by simp)
  · refine ⟨by rw [← hh']; rfl, by rw [← hh']; rfl, by rw [← hh']; rfl, fun a ha => ?_⟩
    obtain ⟨ha1, ha2⟩ := not_or.1 ha
    refine hold a (fun he => ha2 ?_) fun he => ha1 ?_
    · rw [he]
      exact ⟨le_rfl, hrs⟩
    · rw [he, nodes_split hA]
      simp
  · rfl
  · have h1 := hR.above s (by simp)
    exact lt_trans h1 hlo
  · change (h'.mem r).size = n
    rw [hmem, setSize_self]
  · exact hrn.symm
  · intro x
    simp only [covers_append, covers_cons, Has]
    have : s.lo ≤ x ∧ x < s.hi ↔ (s.lo ≤ x ∧ x < r) ∨ (r ≤ x ∧ x < s.hi) := by omega
    rw [this]
    simp only [or_assoc, or_comm, or_left_comm]
  · intro x hx hcov
    obtain ⟨b, hb, hbx⟩ := hcov
    rcases (hmemb b).1 hb with hb | rfl
    · exact hR.gapped.not_covers (s := s) ⟨le_trans (Nat.le_of_lt hlo) hx.1, hx.2⟩ ⟨b, hb, hbx⟩
    · have h1 := hx.1
      have h2 := hbx.2
      dsimp only at h1 h2
      omega
  · simp only [total_append, total_cons]
    omega

end Take

end Rep

end Heap

end Qwin.User
