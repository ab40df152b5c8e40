import Qwin.User.FreeList

/-!
# The heap of a program

`malloc` goes around the ring once. If a block is large enough it is taken; if none is,
`morecore` puts a new region into the list, and the second round finds a block. Every step
of a program keeps the blocks in order: the free and the live ones are disjoint and make up
the regions of `sbrk`.
-/

namespace Qwin.User

open Qwin.Span List

namespace Heap

variable {h h' : Heap} {l : List Span} {n p q fuel : ℕ}

namespace Rep

theorem split_at (hR : Rep h l) (hp : p ∈ h.nodes l) (hq : h.next p ≠ h.base) :
    ∃ A k1 s k2, l = k1 ++ s :: k2 ∧ s.lo = h.next p ∧ h.nodes k1 = A ++ [p] := by
  obtain ⟨A, B, hAB⟩ := append_of_mem hp
  have hring := hR.ring
  rw [hAB] at hring
  cases B with
  | nil => exact absurd hring.next_last hq
  | cons x B =>
    have hx := hring.next_eq
    rw [hx]
    cases A with
    | nil =>
      obtain ⟨hbase, hl⟩ := cons_eq_cons.1 hAB
      obtain ⟨s, k2, rfl, rfl, -⟩ := map_eq_cons_iff.1 hl
      exact ⟨[], [], s, k2, rfl, rfl, by rw [← hbase]; rfl⟩
    | cons y A =>
      obtain ⟨rfl, hl⟩ := cons_eq_cons.1 hAB
      have hl' : l.map Span.lo = (A ++ [p]) ++ x :: B := by simpa using hl
      obtain ⟨k1, m, rfl, hk1, hm⟩ := map_eq_append_iff.1 hl'
      obtain ⟨s, k2, rfl, rfl, -⟩ := map_eq_cons_iff.1 hm
      exact ⟨h.base :: A, k1, s, k2, rfl, rfl, by rw [nodes, hk1]; rfl⟩

theorem mallocLoop_path {m : List ℕ} (hm : Path h.next (h.next p) m q)
    (hgo : ∀ x ∈ m, (h.mem x).size < n ∧ x ≠ h.freep) (fuel : ℕ) :
    ∃ p', h.next p' = q ∧ (p' = p ∨ p' ∈ m) ∧
      mallocLoop n (fuel + m.length) p (h.next p) h = mallocLoop n fuel p' q h := by
  induction m generalizing p with
  | nil =>
    obtain rfl : h.next p = q := hm
    exact ⟨p, rfl, Or.inl rfl, rfl⟩
  | cons x m ih =>
    obtain ⟨rfl, hm⟩ := hm
    obtain ⟨hsmall, hne⟩ := hgo _ mem_cons_self
    obtain ⟨p', hp', hmem, heq⟩ := ih hm fun x hx => hgo x (mem_cons_of_mem _ hx)
    refine ⟨p', hp', Or.inr ?_, ?_⟩
    · rcases hmem with rfl | hmem
      · exact mem_cons_self
      · exact mem_cons_of_mem _ hmem
    · rw [length_cons, ← Nat.add_assoc, mallocLoop, if_neg (Nat.not_le.2 hsmall), if_neg hne]
      exact heq

section

variable (hR : Rep h l)
include hR

theorem mallocLoop_take (hp : p ∈ h.nodes l) (hn : 0 < n) (hfit : n ≤ (h.mem (h.next p)).size) :
    ∃ ap h' l' b, mallocLoop n (fuel + 1) p (h.next p) h = some (ap, h') ∧
      Taken h l n ap h' l' b := by
  have hbase : h.next p ≠ h.base := by
    intro he
    rw [he, hR.empty] at hfit
    omega
  obtain ⟨A, k1, s, k2, rfl, hs, hA⟩ := hR.split_at hp hbase
  rw [mallocLoop, if_pos hfit, ← hs]
  rw [← hs] at hfit
  by_cases heq : (h.mem s.lo).size = n
  · rw [if_pos heq]
    exact ⟨_, _, _, _, rfl, takeAll_spec hR hA heq⟩
  · rw [if_neg heq]
    exact ⟨_, _, _, _, rfl, takeTail_spec hR hA hn (lt_of_le_of_ne hfit (Ne.symm heq))⟩

theorem exists_round : ∃ m, Path h.next (h.next h.freep) m h.freep ∧
    (h.freep :: m).Perm (h.nodes l) ∧ h.freep ∉ m ∧ m.length + 1 = (h.nodes l).length := by
  obtain ⟨A, B, hAB⟩ := append_of_mem hR.freep
  have hring := hR.ring
  rw [hAB] at hring ⊢
  have hperm := @List.perm_append_comm _ (h.freep :: B) A
  exact ⟨B ++ A, hring.rotate.2, hperm, (nodup_cons.1 (hperm.nodup_iff.2 (hAB ▸ hR.nodup))).1,
    hperm.length_eq⟩

/-- The nodes before the first block that is large enough. -/
theorem exists_fit (hfit : ∃ x ∈ h.nodes l, n ≤ (h.mem x).size) :
    ∃ k q, Path h.next (h.next h.freep) k q ∧
      (∀ x ∈ k, (h.mem x).size < n ∧ x ≠ h.freep) ∧ n ≤ (h.mem q).size ∧
      k.length < (h.nodes l).length ∧ ∀ x ∈ h.freep :: k, x ∈ h.nodes l := by
  obtain ⟨m, hm, hperm, hnot, hlen⟩ := hR.exists_round
  have hne : ∀ x ∈ m, x ≠ h.freep := fun x hx he => hnot (he ▸ hx)
  cases hfind : m.find? fun x => n ≤ (h.mem x).size with
  | some q =>
    obtain ⟨hq, k, k', rfl, hsmall⟩ := List.find?_eq_some_iff_append.1 hfind
    rw [length_append] at hlen
    refine ⟨k, q, hm.of_append_cons.1, fun x hx => ⟨by simpa using hsmall x hx,
      hne x (mem_append_left _ hx)⟩, by simpa using hq, by omega, fun x hx => ?_⟩
    refine hperm.mem_iff.1 (mem_cons.2 ((mem_cons.1 hx).imp_right ?_))
    exact mem_append_left _
  | none =>
    have hall := List.find?_eq_none.1 hfind
    refine ⟨m, h.freep, hm, fun x hx => ⟨by simpa using hall x hx, hne x hx⟩, ?_, by omega,
      fun x hx => hperm.mem_iff.1 hx⟩
    obtain ⟨x, hx, hxn⟩ := hfit
    rcases mem_cons.1 (hperm.mem_iff.2 hx) with rfl | hx
    · exact hxn
    · exact absurd (by simpa using hxn) (hall x hx)

/-- If some block is large enough, the search finds one. -/
theorem mallocLoop_found (hn : 0 < n) (hfit : ∃ x ∈ h.nodes l, n ≤ (h.mem x).size)
    (hfuel : (h.nodes l).length ≤ fuel) :
    ∃ ap h' l' b, mallocLoop n fuel h.freep (h.next h.freep) h = some (ap, h') ∧
      Taken h l n ap h' l' b := by
  obtain ⟨k, q, hk, hsmall, hq, hlen, hin⟩ := hR.exists_fit hfit
  obtain ⟨j, rfl⟩ : ∃ j, fuel = j + 1 + k.length := ⟨fuel - k.length - 1, by omega⟩
  obtain ⟨p', rfl, hp', heq⟩ := mallocLoop_path hk hsmall (j + 1)
  rw [heq]
  exact hR.mallocLoop_take (hin p' (mem_cons.2 hp')) hn hq

/-- If no block is large enough, `morecore` is called once the ring has been searched. -/
theorem mallocLoop_more (hsmall : ∀ x ∈ h.nodes l, (h.mem x).size < n)
    (hfuel : (h.nodes l).length ≤ fuel) :
    ∃ p, mallocLoop n fuel h.freep (h.next h.freep) h =
      mallocLoop n (fuel - (h.nodes l).length + 1) p h.freep h := by
  obtain ⟨m, hm, hperm, hnot, hlen⟩ := hR.exists_round
  obtain ⟨p, -, -, heq⟩ := mallocLoop_path hm (fun x hx => ⟨hsmall x
    (hperm.mem_iff.1 (mem_cons_of_mem _ hx)), fun he => hnot (he ▸ hx)⟩)
    (fuel - (h.nodes l).length + 1)
  refine ⟨p, ?_⟩
  rw [← heq]
  congr 1
  omega

end

structure Freed (h : Heap) (l : List Span) (b : Span) (h' : Heap) (l' : List Span) : Prop where
  rep : Rep h' l'
  same : SameBut h h' fun a => a = b.lo ∨ a ∈ h.nodes l
  covers : ∀ x, Covers l' x ↔ Covers l x ∨ b.Has x
  total : Span.total l' = Span.total l + (b.hi - b.lo)
  length : l'.length ≤ l.length + 1
  fits : ∃ c ∈ l', b.hi - b.lo ≤ c.hi - c.lo

theorem exists_freed {b : Span} (hR : Rep h l) (hb : b.hi = b.lo + HEADER * (h.mem b.lo).size)
    (hne : b.lo < b.hi) (hapart : ∀ x, b.Has x → ¬ Covers l x) (hbase : h.base < b.lo)
    (hfuel : (h.nodes l).length ≤ h.rounds) :
    ∃ h' l', h.free (b.lo + HEADER) = some h' ∧ Freed h l b h' l' := by
  obtain ⟨l1, l2, rfl, hF⟩ := hR.gapped.exists_fits hne hapart
  obtain ⟨h', hfree, hR', hsame⟩ := hR.free_spec hF hbase hb hfuel
  obtain ⟨hF', -⟩ := hF.joinRight
  have hne1 : ∀ a ∈ l1, a.lo < a.hi := fun a ha => hR.gapped.ne a (mem_append_left _ ha)
  have hne2 : ∀ c ∈ l2, c.lo < c.hi := fun c hc => hR.gapped.ne c (mem_append_right _ hc)
  have hcov := fun x => covers_joinRight (x := x) hne hne2
  have htot := total_joinRight hne hne2
  simp only [covers_cons] at hcov
  rw [total_cons] at htot
  refine ⟨h', _, hfree, hR', hsame, fun x => ?_, ?_, ?_, ?_⟩
  · rw [covers_append, covers_joinLeft hF'.ne hne1, or_assoc, hcov, covers_append, or_assoc,
      or_comm (a := b.Has x)]
  · rw [total_append, total_joinLeft hF'.ne hne1, total_append]
    omega
  · have h1 := length_joinLeft_le (joinRight b l2).1 l1
    have h2 := length_joinRight_le b l2
    simp only [length_append]
    omega
  · obtain ⟨c, hc, hlo, hhi⟩ := exists_mem_joinLeft (joinRight b l2).1 hne1 hF'.left
    refine ⟨c, mem_append_left _ hc, ?_⟩
    have h1 := joinRight_lo b l2
    have h2 := le_joinRight_hi (b := b) hne2
    omega

end Rep

end Heap

open Heap Heap.Rep Program

/-- The blocks of a program: `l` are the free ones. -/
structure Sound (w : Program) (l : List Span) : Prop where
  base : 0 < w.heap.base
  rep : Rep w.heap l
  room : ∀ e ∈ w.live, HEADER ≤ e.1 ∧ e.2 + HEADER ≤ HEADER * (w.heap.mem (e.1 - HEADER)).size
  apart : w.live.Pairwise fun e f =>
    ∀ x, (block w.heap e.1).Has x → ¬ (block w.heap f.1).Has x
  live : ∀ e ∈ w.live, ∀ x, (block w.heap e.1).Has x → ¬ Covers l x
  covers : ∀ x, Covers w.heap.regions x ↔
    Covers l x ∨ Covers (w.live.map fun e => block w.heap e.1) x
  brk : w.heap.base + HEADER ≤ w.heap.brk
  inside : ∀ x, Covers w.heap.regions x → w.heap.base + HEADER ≤ x ∧ x < w.heap.brk
  total : Span.total w.heap.regions =
    Span.total l + Span.total (w.live.map fun e => block w.heap e.1)

namespace Sound

variable {w : Program} {h h' : Heap} {live : List (ℕ × ℕ)} {l l' : List Span} {e : ℕ × ℕ} {n ap : ℕ}

section

variable (hS : Sound w l) (he : e ∈ w.live)
include hS he

theorem has_header : (block w.heap e.1).Has (e.1 - HEADER) := by
  have hroom := (hS.room e he).2
  have hpos := header_pos
  exact ⟨le_rfl, by simp only [block]; omega⟩

theorem covers_live {x : ℕ} (hx : (block w.heap e.1).Has x) : Covers w.heap.regions x :=
  (hS.covers x).2 (Or.inr ⟨_, mem_map_of_mem he, hx⟩)

theorem base_lt : w.heap.base + HEADER ≤ e.1 - HEADER :=
  (hS.inside _ (hS.covers_live he (hS.has_header he))).1

/-- The header of a live block is no node of the free list. -/
theorem header_notMem : e.1 - HEADER ∉ w.heap.nodes l := by
  intro hmem
  rcases mem_cons.1 hmem with hbase | hmem
  · have := hS.base_lt he
    have hpos := header_pos
    omega
  · obtain ⟨c, hc, hce⟩ := mem_map.1 hmem
    refine hS.live e he _ (hS.has_header he) ⟨c, hc, ?_⟩
    rw [← hce]
    exact ⟨le_rfl, hS.rep.gapped.ne c hc⟩

end

theorem free_inside (hS : Sound w l) {c : Span} (hc : c ∈ l) :
    w.heap.base + HEADER ≤ c.lo ∧ c.hi ≤ w.heap.brk := by
  have hne := hS.rep.gapped.ne c hc
  have h1 := hS.inside c.lo ((hS.covers _).2 (Or.inl ⟨c, hc, le_rfl, hne⟩))
  have h2 := hS.inside (c.hi - 1) ((hS.covers _).2 (Or.inl ⟨c, hc, by omega, by omega⟩))
  omega

theorem length_le (hS : Sound w l) : (w.heap.nodes l).length ≤ w.heap.rounds :=
  hS.rep.length_le (lt_of_lt_of_le (Nat.lt_add_of_pos_right header_pos) hS.brk) fun _ hc =>
    (hS.free_inside hc).2

theorem freep_ne (hS : Sound w l) : w.heap.freep ≠ 0 := by
  have hbase := hS.base
  rcases mem_cons.1 hS.rep.freep with hf | hf
  · omega
  · have := (pairwise_cons.1 hS.rep.increasing).1 _ hf
    omega

theorem map_block (hmem : ∀ e ∈ live, h'.mem (e.1 - HEADER) = h.mem (e.1 - HEADER)) :
    (live.map fun e => block h' e.1) = live.map fun e => block h e.1 :=
  map_congr_left fun e he => by simp only [block, hmem e he]

theorem congr (hS : Sound ⟨h, live⟩ l) (hbase : h'.base = h.base) (hfreep : h'.freep = h.freep)
    (hbrk : h'.brk = h.brk) (hregions : h'.regions = h.regions)
    (hnode : ∀ a ∈ h.nodes l, h'.mem a = h.mem a)
    (hmem : ∀ f ∈ live, h'.mem (f.1 - HEADER) = h.mem (f.1 - HEADER)) : Sound ⟨h', live⟩ l := by
  have hblock : ∀ f ∈ live, block h' f.1 = block h f.1 := fun f hf => by
    simp only [block, hmem f hf]
  constructor
  · exact hbase ▸ hS.base
  · exact hS.rep.congr hbase hfreep hnode
  · intro f hf
    rw [hmem f hf]
    exact hS.room f hf
  · refine hS.apart.imp_of_mem fun {f g} hf hg hfg => ?_
    rw [hblock f hf, hblock g hg]
    exact hfg
  · intro f hf x hx
    rw [hblock f hf] at hx
    exact hS.live f hf x hx
  · intro x
    rw [hregions, map_block hmem]
    exact hS.covers x
  · rw [hbase, hbrk]
    exact hS.brk
  · rw [hbase, hbrk, hregions]
    exact hS.inside
  · rw [hregions, map_block hmem]
    exact hS.total

theorem apart_erase (hS : Sound w l) (he : e ∈ w.live) :
    (e :: w.live.erase e).Pairwise fun f g =>
      ∀ x, (block w.heap f.1).Has x → ¬ (block w.heap g.1).Has x :=
  ((perm_cons_erase he).pairwise_iff fun {_ _} hxy x hx hx' => hxy x hx' hx).1 hS.apart

theorem free (hS : Sound w l) (he : e ∈ w.live) : ∃ h' l', w.heap.free e.1 = some h' ∧
    Freed w.heap l (block w.heap e.1) h' l' ∧ Sound ⟨h', w.live.erase e⟩ l' := by
  have hhas := hS.has_header he
  have hbase := hS.base_lt he
  have hpos := header_pos
  obtain ⟨h', l', hfree, hF⟩ := hS.rep.exists_freed (b := block w.heap e.1) rfl hhas.2
    (hS.live e he) (by simp only [block]; omega) hS.length_le
  have hap : (block w.heap e.1).lo + HEADER = e.1 := Nat.sub_add_cancel (hS.room e he).1
  rw [hap] at hfree
  have hperm := perm_cons_erase he
  obtain ⟨hapart, hrest⟩ := pairwise_cons.1 (hS.apart_erase he)
  have hsub : ∀ f ∈ w.live.erase e, f ∈ w.live := fun f hf => mem_of_mem_erase hf
  have hmem : ∀ f ∈ w.live.erase e, h'.mem (f.1 - HEADER) = w.heap.mem (f.1 - HEADER) := by
    intro f hf
    refine hF.same.mem _ (not_or.2 ⟨fun heq => ?_, hS.header_notMem (hsub f hf)⟩)
    exact hapart f hf _ (heq ▸ hhas) (hS.has_header (hsub f hf))
  have hblock : ∀ f ∈ w.live.erase e, block h' f.1 = block w.heap f.1 := fun f hf => by
    simp only [block, hmem f hf]
  have hmap := hperm.map fun f => block w.heap f.1
  refine ⟨h', l', hfree, hF, ?_⟩
  constructor
  · rw [hF.same.base]
    exact hS.base
  · exact hF.rep
  · intro f hf
    rw [hmem f hf]
    exact hS.room f (hsub f hf)
  · refine hrest.imp_of_mem fun {f g} hf hg hfg => ?_
    rw [hblock f hf, hblock g hg]
    exact hfg
  · intro f hf x hx hc
    rw [hblock f hf] at hx
    rcases (hF.covers x).1 hc with hc | hc
    · exact hS.live f (hsub f hf) x hx hc
    · exact hapart f hf x hc hx
  · intro x
    rw [hF.same.regions, map_block hmem, hF.covers, hS.covers, Covers.of_perm hmap, map_cons,
      covers_cons, or_assoc]
  · rw [hF.same.base, hF.same.brk]
    exact hS.brk
  · rw [hF.same.base, hF.same.brk, hF.same.regions]
    exact hS.inside
  · have htotal := hS.total
    rw [total_eq_of_perm hmap, map_cons, total_cons] at htotal
    rw [hF.same.regions, map_block hmem, hF.total, htotal, Nat.add_assoc]

theorem take {b : Span} {u : ℕ} (hS : Sound ⟨h, live⟩ l) (hT : Taken h l u ap h' l' b)
    (hn : n + HEADER ≤ HEADER * u) : ap ≠ 0 ∧ Sound ⟨h', (ap, n) :: live⟩ l' := by
  have hpos := header_pos
  have hlo : ap - HEADER = b.lo := by rw [hT.ap, Nat.add_sub_cancel]
  have hb : block h' ap = b := by
    rw [block, hlo, hT.size, ← hT.hi]
  have hcov : ∀ x, b.Has x → Covers l x := fun x hx => (hT.covers x).2 (Or.inr hx)
  have hmem : ∀ f ∈ live, h'.mem (f.1 - HEADER) = h.mem (f.1 - HEADER) := by
    intro f hf
    refine hT.same.mem _ (not_or.2 ⟨hS.header_notMem hf, fun hx => ?_⟩)
    exact hS.live f hf _ (hS.has_header hf) (hcov _ hx)
  have hblock : ∀ f ∈ live, block h' f.1 = block h f.1 := fun f hf => by
    simp only [block, hmem f hf]
  refine ⟨by rw [hT.ap]; omega, ?_⟩
  constructor
  · exact hT.same.base ▸ hS.base
  · exact hT.rep
  · intro f hf
    rcases mem_cons.1 hf with rfl | hf
    · refine ⟨by rw [hT.ap]; omega, ?_⟩
      change n + HEADER ≤ HEADER * (h'.mem (ap - HEADER)).size
      rw [hlo, hT.size]
      exact hn
    · rw [hmem f hf]
      exact hS.room f hf
  · refine pairwise_cons.2 ⟨fun f hf x hx hx' => ?_, hS.apart.imp_of_mem fun {f g} hf hg hfg => ?_⟩
    · rw [hblock f hf] at hx'
      rw [hb] at hx
      exact hS.live f hf x hx' (hcov x hx)
    · rw [hblock f hf, hblock g hg]
      exact hfg
  · intro f hf x hx hc
    rcases mem_cons.1 hf with rfl | hf
    · rw [hb] at hx
      exact hT.apart x hx hc
    · rw [hblock f hf] at hx
      exact hS.live f hf x hx ((hT.covers x).2 (Or.inl hc))
  · intro x
    rw [hT.same.regions, hS.covers, map_cons, map_block hmem, covers_cons, hb, hT.covers, or_assoc]
  · rw [hT.same.base, hT.same.brk]
    exact hS.brk
  · rw [hT.same.base, hT.same.brk, hT.same.regions]
    exact hS.inside
  · rw [hT.same.regions, hS.total, map_cons, map_block hmem, total_cons, hb, hT.total,
      Nat.add_assoc]

/-- A region that `sbrk` has returned is a block that nobody else has. -/
theorem grow {gap nu : ℕ} (hS : Sound ⟨h, live⟩ l) (hgap : h.sbrk h.calls = some gap)
    (hnu : 0 < nu) : Sound ⟨(h.callSbrk (nu * HEADER)).2.setSize (h.brk + gap) nu,
      (h.brk + gap + HEADER, 0) :: live⟩ l := by
  have hcall : (h.callSbrk (nu * HEADER)).2 = { h with
        calls := h.calls + 1
        brk := h.brk + gap + nu * HEADER
        regions := ⟨h.brk + gap, h.brk + gap + nu * HEADER⟩ :: h.regions } := by
    simp only [callSbrk, hgap]
  rw [hcall]
  generalize hhp : h.brk + gap = hp
  have hlen : 0 < nu * HEADER := Nat.mul_pos hnu header_pos
  have hpos := header_pos
  have hbrk : h.base + HEADER ≤ h.brk := hS.brk
  have hinside : ∀ x, Covers h.regions x → h.base + HEADER ≤ x ∧ x < h.brk := hS.inside
  have hnew : ∀ x, (⟨hp, hp + nu * HEADER⟩ : Span).Has x → hp ≤ x ∧ x < hp + nu * HEADER :=
    fun _ hx => hx
  have hne : ∀ a, a < h.brk → a ≠ hp := by omega
  have hnodes : ∀ a ∈ h.nodes l, a < h.brk := by
    intro a ha
    rcases mem_cons.1 ha with rfl | ha
    · omega
    · obtain ⟨c, hc, rfl⟩ := mem_map.1 ha
      exact lt_of_lt_of_le (hS.rep.gapped.ne c hc) (hS.free_inside hc).2
  have hlive : ∀ f ∈ live, ∀ x, (block h f.1).Has x → x < h.brk := fun f hf x hx =>
    (hinside x (hS.covers_live hf hx)).2
  set h1 : Heap := { h with
    calls := h.calls + 1
    brk := hp + nu * HEADER
    regions := ⟨hp, hp + nu * HEADER⟩ :: h.regions }
  have hmem : ∀ a, a < h.brk → (h1.setSize hp nu).mem a = h.mem a := fun a ha =>
    setSize_of_ne (hne a ha)
  have hmem' : ∀ f ∈ live, (h1.setSize hp nu).mem (f.1 - HEADER) = h.mem (f.1 - HEADER) :=
    fun f hf => hmem _ (hlive f hf _ (hS.has_header hf))
  have hblock : ∀ f ∈ live, block (h1.setSize hp nu) f.1 = block h f.1 := fun f hf => by
    simp only [block, hmem' f hf]
  have hb : block (h1.setSize hp nu) (hp + HEADER) = ⟨hp, hp + nu * HEADER⟩ := by
    rw [block, Nat.add_sub_cancel, setSize_self, Nat.mul_comm]
  constructor
  · exact hS.base
  · exact hS.rep.congr rfl rfl fun a ha => hmem a (hnodes a ha)
  · intro f hf
    rcases mem_cons.1 hf with rfl | hf
    · refine ⟨Nat.le_add_left _ _, ?_⟩
      change 0 + HEADER ≤ HEADER * ((h1.setSize hp nu).mem (hp + HEADER - HEADER)).size
      rw [Nat.add_sub_cancel, setSize_self, Nat.zero_add]
      exact Nat.le_mul_of_pos_right _ hnu
    · rw [hmem' f hf]
      exact hS.room f hf
  · refine pairwise_cons.2 ⟨fun f hf x hx hx' => ?_, hS.apart.imp_of_mem fun {f g} hf hg hfg => ?_⟩
    · rw [hblock f hf] at hx'
      rw [hb] at hx
      have := hlive f hf x hx'
      have := hnew x hx
      omega
    · rw [hblock f hf, hblock g hg]
      exact hfg
  · intro f hf x hx hc
    rcases mem_cons.1 hf with rfl | hf
    · rw [hb] at hx
      have := hinside x ((hS.covers x).2 (Or.inl hc))
      have := hnew x hx
      omega
    · rw [hblock f hf] at hx
      exact hS.live f hf x hx hc
  · intro x
    rw [map_cons, map_block hmem', covers_cons, hb]
    change Covers (⟨hp, hp + nu * HEADER⟩ :: h.regions) x ↔ _
    rw [covers_cons, hS.covers, or_left_comm]
  · change h.base + HEADER ≤ hp + nu * HEADER
    omega
  · intro x hx
    change h.base + HEADER ≤ x ∧ x < hp + nu * HEADER
    rcases covers_cons.1 hx with hx | hx
    · have := hnew x hx
      omega
    · have := hinside x hx
      omega
  · rw [map_cons, map_block hmem', total_cons, hb]
    change Span.total (⟨hp, hp + nu * HEADER⟩ :: h.regions) = _
    rw [total_cons, hS.total, Nat.add_left_comm]

theorem nunits_bounds (hn : n + 16 < 2 ^ 31) :
    n + HEADER ≤ HEADER * nunits n ∧ 0 < nunits n ∧ nunits n * HEADER < 2 ^ 32 := by
  simp only [nunits, HEADER]
  omega

section

variable (hS : Sound ⟨h, live⟩ l)
include hS

/-- `morecore` fails with `sbrk`, or there is a block of the size it was called for. -/
theorem morecore {nu : ℕ} (hnu : nu * HEADER < 2 ^ 32) :
    h.morecore nu = some (0, { h with calls := h.calls + 1 }) ∨
      ∃ h' l', h.morecore nu = some (h'.freep, h') ∧ Sound ⟨h', live⟩ l' ∧
        l'.length ≤ l.length + 1 ∧ ∃ x ∈ h'.nodes l', nu ≤ (h'.mem x).size := by
  generalize hnu' : (if nu < 4096 then 4096 else nu) = nu'
  have hle : nu ≤ nu' ∧ 0 < nu' ∧ nu' * HEADER < 2 ^ 32 := by
    simp only [HEADER] at hnu ⊢
    split at hnu' <;> omega
  obtain ⟨hle, hpos, hmod⟩ := hle
  cases hsbrk : h.sbrk h.calls with
  | none =>
    refine Or.inl ?_
    simp only [Heap.morecore, callSbrk, hsbrk]
  | some gap =>
    refine Or.inr ?_
    have hG := hS.grow hsbrk hpos
    obtain ⟨h', l', hfree, hF, hS'⟩ := hG.free mem_cons_self
    rw [erase_cons_head] at hS'
    refine ⟨h', l', ?_, hS', hF.length, ?_⟩
    · simp only [Heap.morecore, hnu', Nat.mod_eq_of_lt hmod]
      simp only [callSbrk, hsbrk] at hfree ⊢
      rw [hfree]
      rfl
    · obtain ⟨c, hc, hsize⟩ := hF.fits
      refine ⟨c.lo, mem_cons_of_mem _ (mem_map_of_mem hc), hle.trans ?_⟩
      rw [hF.rep.size c hc] at hsize
      simp only [block, Nat.add_sub_cancel, setSize_self, Nat.add_sub_cancel_left] at hsize
      exact Nat.le_of_mul_le_mul_left hsize header_pos

/-- `malloc` ends: it fails with `sbrk`, or it returns a block. -/
theorem malloc (hn : n + 16 < 2 ^ 31) :
    h.malloc n = some (0, { h with calls := h.calls + 1 }) ∨
      ∃ ap h' l', h.malloc n = some (ap, h') ∧ ap ≠ 0 ∧ Sound ⟨h', (ap, n) :: live⟩ l' := by
  obtain ⟨hroom, hpos, hmod⟩ := nunits_bounds hn
  have hR : Rep h l := hS.rep
  have hlen : (h.nodes l).length ≤ h.rounds := hS.length_le
  have hfuel : (h.nodes l).length ≤ 2 * h.rounds + 2 := by omega
  have hm : h.malloc n = mallocLoop (nunits n) (2 * h.rounds + 2) h.freep (h.next h.freep) h := by
    rw [Heap.malloc, start, if_neg hS.freep_ne]
  rw [hm]
  by_cases hfit : ∃ x ∈ h.nodes l, nunits n ≤ (h.mem x).size
  · obtain ⟨ap, h', l', b, heq, hT⟩ := hR.mallocLoop_found hpos hfit hfuel
    exact Or.inr ⟨ap, h', l', heq, hS.take hT hroom⟩
  · push Not at hfit
    obtain ⟨p, heq⟩ := hR.mallocLoop_more hfit hfuel
    rw [heq, mallocLoop, if_neg (Nat.not_le.2 (hfit _ hR.freep)), if_pos rfl]
    rcases hS.morecore hmod with hmore | ⟨h1, l1, hmore, hS1, hlen1, hfit1⟩
    · refine Or.inl ?_
      rw [hmore]
      rfl
    · have hR1 : Rep h1 l1 := hS1.rep
      have hfuel1 : (h1.nodes l1).length ≤ 2 * h.rounds + 2 - (h.nodes l).length := by
        simp only [nodes, length_cons, length_map] at hlen ⊢
        omega
      obtain ⟨ap, h', l', b, heq, hT⟩ := hR1.mallocLoop_found hpos hfit1 hfuel1
      refine Or.inr ⟨ap, h', l', ?_, hS1.take hT hroom⟩
      rw [hmore]
      change (if h1.freep = 0 then _ else _) = _
      rw [if_neg hS1.freep_ne]
      exact heq

theorem write {a : ℕ} {v : Header} (he : e ∈ live)
    (ha : e.1 - HEADER < a) (hend : a < (block h e.1).hi) :
    Sound ⟨{ h with mem := Function.update h.mem a v }, live⟩ l := by
  have hhas : (block h e.1).Has a := ⟨Nat.le_of_lt ha, hend⟩
  have hmem : ∀ x, x ≠ a → Function.update h.mem a v x = h.mem x := fun x hx =>
    Function.update_of_ne hx _ _
  have hnode : ∀ x ∈ h.nodes l, x ≠ a := by
    rintro x hx rfl
    rcases mem_cons.1 hx with rfl | hx
    · have := (hS.inside _ (hS.covers_live he hhas)).1
      have hpos := header_pos
      exact absurd this (by simp only; omega)
    · obtain ⟨c, hc, rfl⟩ := mem_map.1 hx
      exact hS.live e he _ hhas ⟨c, hc, le_rfl, hS.rep.gapped.ne c hc⟩
  have hheader : ∀ f ∈ live, f.1 - HEADER ≠ a := by
    rintro f hf rfl
    by_cases hfe : f = e
    · exact Nat.lt_irrefl _ (hfe ▸ ha)
    · exact (pairwise_cons.1 (hS.apart_erase he)).1 f ((mem_erase_of_ne hfe).2 hf) _ hhas
        (hS.has_header hf)
  exact hS.congr rfl rfl rfl rfl (fun x hx => hmem x (hnode x hx)) fun f hf =>
    hmem _ (hheader f hf)

end

theorem of_init (hI : Init w) : Sound ⟨w.heap.start, w.live⟩ [] := by
  have hstart : w.heap.start = { (w.heap.setPtr w.heap.base w.heap.base).setSize w.heap.base 0 with
        freep := w.heap.base } := by
    rw [start, if_pos hI.freep]
  rw [hstart, hI.live]
  constructor
  · exact hI.base
  · constructor
    · refine ⟨rfl, ?_⟩
      change (((w.heap.setPtr w.heap.base w.heap.base).setSize w.heap.base 0).mem
        w.heap.base).ptr = w.heap.base
      simp
    · simp
    · simp
    · exact mem_cons_self
    · exact Gapped.nil
    · simp
  · simp
  · exact List.Pairwise.nil
  · simp
  · intro x
    change Covers w.heap.regions x ↔ _
    rw [hI.regions]
    simp
  · exact hI.brk
  · intro x hx
    change Covers w.heap.regions x at hx
    rw [hI.regions] at hx
    simp at hx
  · change Span.total w.heap.regions = _
    rw [hI.regions]
    rfl

end Sound

namespace Program

/-- A program before its first `malloc`, or one whose blocks are in order. -/
def Inv (w : Program) : Prop := Init w ∨ ∃ l, Sound w l

variable {w w' : Program} {n : ℕ}

theorem Inv.sound_start (hI : Inv w) : ∃ l, Sound ⟨w.heap.start, w.live⟩ l := by
  rcases hI with hI | ⟨l, hS⟩
  · exact ⟨[], Sound.of_init hI⟩
  · refine ⟨l, ?_⟩
    rw [start, if_neg hS.freep_ne]
    exact hS

theorem malloc_start (hS : ∃ l, Sound ⟨w.heap.start, w.live⟩ l) :
    w.heap.start.malloc n = w.heap.malloc n := by
  obtain ⟨l, hS⟩ := hS
  have : w.heap.start.start = w.heap.start := if_neg hS.freep_ne
  rw [Heap.malloc, Heap.malloc, this]

theorem calls_start (h : Heap) : h.start.calls = h.calls := by
  rw [start]
  split <;> rfl

theorem Inv.malloc (hI : Inv w) (hn : n + 16 < 2 ^ 31) :
    w.heap.malloc n = some (0, { w.heap.start with calls := w.heap.calls + 1 }) ∨
      ∃ ap h' l', w.heap.malloc n = some (ap, h') ∧ ap ≠ 0 ∧ Sound ⟨h', (ap, n) :: w.live⟩ l' := by
  obtain ⟨l, hS⟩ := hI.sound_start
  have hm := hS.malloc hn
  rwa [malloc_start ⟨l, hS⟩, calls_start] at hm

theorem Inv.step (hI : Inv w) (hs : Step w w') : Inv w' := by
  cases hs with
  | malloc hn hm hap =>
    rcases hI.malloc hn with hfail | ⟨ap, h', l', hm', -, hS⟩
    · rw [hm] at hfail
      cases hfail
      exact absurd rfl hap
    · rw [hm] at hm'
      cases hm'
      exact Or.inr ⟨l', hS⟩
  | fail hn hm =>
    rcases hI.malloc hn with hfail | ⟨ap, h', l', hm', hap, -⟩
    · rw [hm] at hfail
      cases hfail
      obtain ⟨l, hS⟩ := hI.sound_start
      exact Or.inr ⟨l, hS.congr rfl rfl rfl rfl (fun _ _ => rfl) fun _ _ => rfl⟩
    · rw [hm] at hm'
      cases hm'
      exact absurd rfl hap
  | free hlive hf =>
    rcases hI with hI | ⟨l, hS⟩
    · rw [hI.live] at hlive
      cases hlive
    · obtain ⟨h', l', hf', -, hS'⟩ := hS.free hlive
      rw [hf] at hf'
      cases hf'
      exact Or.inr ⟨l', hS'⟩
  | write hlive ha hend =>
    rcases hI with hI | ⟨l, hS⟩
    · rw [hI.live] at hlive
      cases hlive
    · exact Or.inr ⟨l, hS.write hlive ha hend⟩

theorem Reachable.inv (hw : Reachable w) : Inv w := by
  induction hw with
  | init h => exact Or.inl h
  | step _ hs ih => exact ih.step hs

/-- In every state of a program the heap is in order (`Sound`): the free list is a ring that
ascends from `base` and wraps once, no two free blocks touch, the live blocks are disjoint
from the free ones and from each other, have room for what was asked for and lie in the
regions of `sbrk`, whose bytes they make up together with the free ones. `malloc` and `free`
end, and a `malloc` that fails changes nothing, but that the first one makes the empty list. -/
theorem heap_in_order (hw : Reachable w) :
    (Init w ∨ ∃ l, Sound w l ∧ (w.heap.nodes l).Pairwise (· < ·)) ∧
      (∀ n, n + 16 < 2 ^ 31 → ∃ ap h', w.heap.malloc n = some (ap, h') ∧
        (ap = 0 → h' = { w.heap.start with calls := w.heap.calls + 1 })) ∧
      ∀ e ∈ w.live, ∃ h', w.heap.free e.1 = some h' := by
  have hI := hw.inv
  refine ⟨?_, fun n hn => ?_, fun e he => ?_⟩
  · exact hI.imp_right fun ⟨l, hS⟩ => ⟨l, hS, hS.rep.increasing⟩
  · rcases hI.malloc hn with hm | ⟨ap, h', l', hm, hap, -⟩
    · exact ⟨0, _, hm, fun _ => rfl⟩
    · exact ⟨ap, h', hm, fun h0 => absurd h0 hap⟩
  · rcases hI with hI | ⟨l, hS⟩
    · rw [hI.live] at he
      cases he
    · obtain ⟨h', l', hf, -⟩ := hS.free he
      exact ⟨h', hf⟩

/-- Memory full of zeros, and an `sbrk` that fails at every other call. -/
def bare : Program where
  heap :=
    { mem := fun _ => ⟨0, 0⟩
      base := 8
      freep := 0
      regions := []
      brk := 16
      sbrk := fun k => if k % 2 = 0 then some 40 else none
      calls := 0 }
  live := []

theorem heap_in_order_bare : ∃ w ap, Reachable w ∧ w.live = [(ap, 100)] ∧ (∃ l, Sound w l) ∧
    ∃ h', w.heap.free ap = some h' := by
  have hdec : (bare.heap.malloc 100).map Prod.fst = some 32720 := by decide +kernel
  obtain ⟨⟨ap, h⟩, hm, hap⟩ := Option.map_eq_some_iff.1 hdec
  have hap : ap ≠ 0 := by
    rintro rfl
    cases hap
  have hw : Reachable ⟨h, [(ap, 100)]⟩ :=
    .step (.init (w := bare) ⟨by decide, by decide, rfl, rfl, rfl⟩) (.malloc (by decide) hm hap)
  obtain ⟨hS, -, hfree⟩ := heap_in_order hw
  refine ⟨_, ap, hw, rfl, ?_, hfree (ap, 100) mem_cons_self⟩
  rcases hS with hI | ⟨l, hS, -⟩
  · cases hI.live
  · exact ⟨l, hS⟩

end Program

end Qwin.User
