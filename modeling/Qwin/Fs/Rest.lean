import Mathlib.Algebra.BigOperators.Group.Finset.Basic
import Mathlib.Algebra.Order.BigOperators.Group.Finset
import Mathlib.Data.Finset.Card
import Qwin.Fs.NodeSteps

/-!
# References to inodes

The inode cache, as the functions of `fs.c` use it, is a count of references for every
inode. A process that runs alone holds some of them, one for each `iget` it has not yet
undone by an `iput`; the others, `b`, are held by open files and as current directories.
While they last, an entry stays where it is. The rules here are for such runs, in which at
most one inode is locked at a time: none of the steps stops.
-/

namespace Qwin.Fs

open Prog List
open Function (update update_of_ne update_self)

variable {α : Type} {p : ℕ} {E : End IState → Prop} {L L' : Option ℕ} {s t u : IState}
  {b : ℕ → ℤ} {own : List ℕ} {i ip q k : ℕ}

/-! ## Counting -/

def IState.refs (s : IState) (i : ℕ) : ℤ :=
  ∑ q ∈ Finset.range NINODE, if s.inum q = i then (s.core.inode q).ref else 0

theorem refs_setInode (s : IState) (x : Inode) (hq : q < NINODE) (i : ℕ) :
    (s.setInode q x).refs i = s.refs i - (if s.inum q = i then (s.core.inode q).ref else 0) +
      if x.inum = i then x.ref else 0 := by
  have hmem := Finset.mem_range.2 hq
  have hrest : ∑ r ∈ (Finset.range NINODE).erase q,
      (if (s.setInode q x).inum r = i then ((s.setInode q x).core.inode r).ref else 0) =
      ∑ r ∈ (Finset.range NINODE).erase q, if s.inum r = i then (s.core.inode r).ref else 0 := by
    refine Finset.sum_congr rfl fun r hr => ?_
    change (if ((s.core.setInode q x).inode r).inum = i
      then ((s.core.setInode q x).inode r).ref else 0) = _
    rw [Core.setInode_inode_of_ne (Finset.ne_of_mem_erase hr)]
    rfl
  rw [IState.refs, ← Finset.add_sum_erase _ _ hmem, hrest, IState.refs,
    ← Finset.add_sum_erase _ (fun r => if s.inum r = i then (s.core.inode r).ref else 0) hmem]
  simp only [IState.setInode, IState.inum, Core.setInode_inode_self]
  ring

theorem refs_setNode (s : IState) (j : ℕ) (x : Node) : (s.setNode j x).refs = s.refs := rfl

theorem exists_entry (hi : 0 < s.refs i) : ∃ q, 0 < (s.core.inode q).ref ∧ s.inum q = i := by
  have hsum : ∑ _q ∈ Finset.range NINODE, (0 : ℤ) < s.refs i := by
    rw [Finset.sum_const_zero]
    exact hi
  obtain ⟨q, -, hq⟩ := Finset.exists_lt_of_sum_lt hsum
  split at hq
  next heq => exact ⟨q, hq, heq⟩
  · exact absurd hq (lt_irrefl 0)

/-! ## The cache -/

/-- What `x` must be to stand at place `q` of the cache while the entry `L` is locked. -/
structure InPlace (L : Option ℕ) (s : IState) (q : ℕ) (x : Inode) : Prop where
  lt : q < NINODE
  dev : x.dev = ROOTDEV
  known : x.inum < s.ninodes
  clean : x.valid = true → x.attrs = (s.node x.inum).attrs
  busy : x.busy = true ↔ L = some q

/-- The entries in use are in place and of different inodes, and the one that is locked is
in use. -/
structure Tidy (L : Option ℕ) (s : IState) : Prop where
  nonneg : ∀ q, 0 ≤ (s.core.inode q).ref
  inPlace : ∀ q, 0 < (s.core.inode q).ref → InPlace L s q (s.core.inode q)
  unique : ∀ q r, 0 < (s.core.inode q).ref → 0 < (s.core.inode r).ref →
    s.inum q = s.inum r → q = r
  locked : ∀ q, L = some q → 0 < (s.core.inode q).ref

namespace Tidy

variable (h : Tidy L s)
include h

theorem setInode {x : Inode} (h0 : 0 ≤ x.ref) (hx : 0 < x.ref → InPlace L' s q x)
    (hnew : 0 < x.ref → ∀ r, r ≠ q → 0 < (s.core.inode r).ref → s.inum r ≠ x.inum)
    (hL : ∀ r, r ≠ q → (L = some r ↔ L' = some r)) (hq : L' = some q → 0 < x.ref) :
    Tidy L' (s.setInode q x) := by
  have hself : ((s.setInode q x).core.inode q) = x := Core.setInode_inode_self _ _ _
  have hne : ∀ r, r ≠ q → (s.setInode q x).core.inode r = s.core.inode r :=
    fun r hr => Core.setInode_inode_of_ne hr x
  refine ⟨?_, ?_, ?_, ?_⟩
  · intro r
    by_cases hr : r = q
    · rw [hr, hself]
      exact h0
    · rw [hne r hr]
      exact h.nonneg r
  · intro r
    by_cases hr : r = q
    · rw [hr, hself]
      intro hpos
      exact ⟨(hx hpos).lt, (hx hpos).dev, (hx hpos).known, (hx hpos).clean, (hx hpos).busy⟩
    · rw [hne r hr]
      intro hpos
      have hp := h.inPlace r hpos
      exact ⟨hp.lt, hp.dev, hp.known, hp.clean, hp.busy.trans (hL r hr)⟩
  · intro r r'
    unfold IState.inum
    by_cases hr : r = q
    · by_cases hr' : r' = q
      · intro _ _ _
        rw [hr, hr']
      · rw [hr, hself, hne r' hr']
        intro h1 h2 h3
        exact absurd h3.symm (hnew h1 r' hr' h2)
    · by_cases hr' : r' = q
      · rw [hr', hself, hne r hr]
        intro h1 h2 h3
        exact absurd h3 (hnew h2 r hr h1)
      · rw [hne r hr, hne r' hr']
        exact h.unique r r'
  · intro r hr'
    by_cases hr : r = q
    · rw [hr, hself]
      exact hq (hr ▸ hr')
    · rw [hne r hr]
      exact h.locked r ((hL r hr).2 hr')

/-- An entry in use changes, but not the inode it is for. -/
theorem modify {x : Inode} (hpos : 0 < (s.core.inode q).ref) (h0 : 0 ≤ x.ref)
    (hinum : x.inum = s.inum q) (hx : 0 < x.ref → InPlace L' s q x)
    (hL : ∀ r, r ≠ q → (L = some r ↔ L' = some r)) (hq : L' = some q → 0 < x.ref) :
    Tidy L' (s.setInode q x) := by
  refine h.setInode h0 hx ?_ hL hq
  intro _ r hr hpos' heq
  exact hr (h.unique r q hpos' hpos (heq.trans hinum))

theorem refs_eq (hpos : 0 < (s.core.inode q).ref) : s.refs (s.inum q) = (s.core.inode q).ref := by
  rw [IState.refs, Finset.sum_eq_single q, if_pos rfl]
  · intro r _ hr
    split
    next hi =>
      by_contra hne
      have hlt : 0 < (s.core.inode r).ref := lt_of_le_of_ne (h.nonneg r) (Ne.symm hne)
      exact hr (h.unique r q hlt hpos hi)
    · rfl
  · intro hq
    exact absurd (Finset.mem_range.2 (h.inPlace q hpos).lt) hq

theorem refs_nonneg (i : ℕ) : 0 ≤ s.refs i := by
  refine Finset.sum_nonneg fun q _ => ?_
  split
  · exact h.nonneg q
  · exact le_rfl

theorem ref_eq_zero (hq : ¬ 0 < (s.core.inode q).ref) : (s.core.inode q).ref = 0 :=
  le_antisymm (not_lt.1 hq) (h.nonneg q)

/-- Where fewer inodes are in use than there are entries, there is a free entry. -/
theorem exists_emptySlot
    (hcard : ((Finset.range s.ninodes).filter fun i => 0 < s.refs i).card < NINODE) :
    ∃ q, s.core.emptySlot = some q := by
  cases he : s.core.emptySlot with
  | some q => exact ⟨q, rfl⟩
  | none =>
    have hpos : ∀ q < NINODE, 0 < (s.core.inode q).ref := by
      intro q hq
      have hne := List.find?_eq_none.1 he q (mem_range.2 hq)
      by_contra hn
      exact hne (decide_eq_true (h.ref_eq_zero hn))
    have hle : (Finset.range NINODE).card ≤
        ((Finset.range s.ninodes).filter fun i => 0 < s.refs i).card := by
      refine Finset.card_le_card_of_injOn s.inum ?_ ?_
      · intro q hq
        have hq' := hpos q (Finset.mem_range.1 hq)
        refine Finset.mem_coe.2 (Finset.mem_filter.2 ⟨?_, ?_⟩)
        · exact Finset.mem_range.2 (h.inPlace q hq').known
        · rw [h.refs_eq hq']
          exact hq'
      · intro q hq r hr heq
        exact h.unique q r (hpos q (Finset.mem_range.1 hq)) (hpos r (Finset.mem_range.1 hr)) heq
    rw [Finset.card_range] at hle
    exact absurd hcard (not_lt.2 hle)

end Tidy

/-! ## References of a process -/

/-- Besides the references `b` there is one to each inode of `own`. -/
structure Holding (b : ℕ → ℤ) (own : List ℕ) (L : Option ℕ) (s : IState) : Prop extends
    Tidy L s where
  rest : ∀ i, 0 ≤ b i
  refs : ∀ i, s.refs i = b i + own.count i

/-- The references `b` and one to each inode of `own`. -/
def held (b : ℕ → ℤ) (own : List ℕ) (i : ℕ) : ℤ := b i + own.count i

/-- The references `b` to the inodes below `n` leave `k` entries of the cache free. -/
def Spare (b : ℕ → ℤ) (n k : ℕ) : Prop :=
  ((Finset.range n).filter fun i => 0 < b i).card + k ≤ NINODE

/-- There are `k` free entries, or running out of them is a stop that `E` allows. -/
def Room (E : End IState → Prop) (b : ℕ → ℤ) (n k : ℕ) : Prop :=
  E (.stop (.panic .igetNoInodes)) ∨ Spare b n k

theorem Room.mono {m n : ℕ} (h : Room E b n k) (hm : m ≤ k) : Room E b n m :=
  h.imp_right fun h => le_trans (Nat.add_le_add_left hm _) h

theorem Holding.self (h : Tidy L s) : Holding s.refs [] L s :=
  ⟨h, h.refs_nonneg, fun _ => (add_zero _).symm⟩

theorem count_cons_eq (i j : ℕ) (own : List ℕ) :
    ((i :: own).count j : ℤ) = own.count j + if i = j then 1 else 0 := by
  rw [count_cons]
  by_cases h : i = j
  · simp [h]
  · simp [h]

theorem held_cons_self (hb : ∀ i, 0 ≤ b i) (i : ℕ) (own : List ℕ) : 0 < held b (i :: own) i := by
  have := hb i
  rw [held, count_cons_eq, if_pos rfl]
  omega

theorem card_held_le (b : ℕ → ℤ) (own : List ℕ) (n : ℕ) :
    ((Finset.range n).filter fun i => 0 < held b own i).card ≤
      ((Finset.range n).filter fun i => 0 < b i).card + own.length := by
  have hsub : ((Finset.range n).filter fun i => 0 < held b own i) ⊆
      ((Finset.range n).filter fun i => 0 < b i) ∪ own.toFinset := by
    intro i hi
    obtain ⟨hlt, hpos⟩ := Finset.mem_filter.1 hi
    rw [held] at hpos
    by_cases hbi : 0 < b i
    · exact Finset.mem_union_left _ (Finset.mem_filter.2 ⟨hlt, hbi⟩)
    · refine Finset.mem_union_right _ (mem_toFinset.2 (count_pos_iff.1 ?_))
      omega
  calc
    _ ≤ (((Finset.range n).filter fun i => 0 < b i) ∪ own.toFinset).card :=
      Finset.card_le_card hsub
    _ ≤ ((Finset.range n).filter fun i => 0 < b i).card + own.length :=
      (Finset.card_union_le _ _).trans (Nat.add_le_add_left (toFinset_card_le own) _)

/-- The references of the process take at most one entry each. -/
theorem Room.held {n : ℕ} (h : Room E b n (own.length + k)) : Room E (held b own) n k := by
  refine h.imp_right fun hk => ?_
  have hle := card_held_le b own n
  unfold Spare at hk ⊢
  omega

theorem Holding.exists_emptySlot (h : Holding b own L s)
    (hk : Spare b s.ninodes (own.length + 1)) : ∃ q, s.core.emptySlot = some q := by
  refine h.toTidy.exists_emptySlot ?_
  have hrefs : s.refs = Fs.held b own := funext h.refs
  have hle := card_held_le b own s.ninodes
  rw [hrefs]
  unfold Spare at hk
  omega

/-- What is left as it is, with the entries that the references `b` keep in the cache. -/
structure Stays (b : ℕ → ℤ) (s t : IState) : Prop where
  entry : ∀ q, 0 < (s.core.inode q).ref → 0 < b (s.inum q) →
    0 < (t.core.inode q).ref ∧ t.inum q = s.inum q ∧
      ((s.core.inode q).valid = true → (t.core.inode q).valid = true)
  pt : t.core.pt = s.core.pt
  file : t.core.file = s.core.file
  ninodes : t.ninodes = s.ninodes

structure Kept (b : ℕ → ℤ) (s t : IState) : Prop extends Stays b s t where
  owner : t.core.owner = s.core.owner
  node : t.node = s.node

theorem Stays.refl (b : ℕ → ℤ) (s : IState) : Stays b s s :=
  ⟨fun _ h _ => ⟨h, rfl, fun h => h⟩, rfl, rfl, rfl⟩

theorem Stays.trans (h : Stays b s t) (h' : Stays b t u) : Stays b s u := by
  refine ⟨?_, h'.pt.trans h.pt, h'.file.trans h.file, h'.ninodes.trans h.ninodes⟩
  intro q hq hb
  obtain ⟨h1, h2, h3⟩ := h.entry q hq hb
  obtain ⟨h4, h5, h6⟩ := h'.entry q h1 (by rw [h2]; exact hb)
  exact ⟨h4, h5.trans h2, fun hv => h6 (h3 hv)⟩

theorem Kept.refl (b : ℕ → ℤ) (s : IState) : Kept b s s := ⟨.refl b s, rfl, rfl⟩

theorem Kept.trans (h : Kept b s t) (h' : Kept b t u) : Kept b s u :=
  ⟨h.toStays.trans h'.toStays, h'.owner.trans h.owner, h'.node.trans h.node⟩

variable {b' : ℕ → ℤ}

theorem Stays.mono (h : Stays b s t) (hb : ∀ i, 0 < b' i → 0 < b i) : Stays b' s t :=
  ⟨fun q hq hpos => h.entry q hq (hb _ hpos), h.pt, h.file, h.ninodes⟩

theorem Kept.mono (h : Kept b s t) (hb : ∀ i, 0 < b' i → 0 < b i) : Kept b' s t :=
  ⟨h.toStays.mono hb, h.owner, h.node⟩

theorem Kept.of_held (h : Kept (held b own) s t) : Kept b s t :=
  h.mono fun i hi => by
    unfold held
    omega

/-- A step that gives no reference back leaves every entry in use. -/
theorem Stays.all (h : Stays 1 s t) : Stays b s t := h.mono fun _ _ => zero_lt_one

theorem Kept.all (h : Kept 1 s t) : Kept b s t := h.mono fun _ _ => zero_lt_one

theorem Kept.pos (h : Kept 1 s t) (hq : 0 < (s.core.inode q).ref) : 0 < (t.core.inode q).ref :=
  (h.entry q hq zero_lt_one).1

theorem Kept.inum (h : Kept 1 s t) (hq : 0 < (s.core.inode q).ref) : t.inum q = s.inum q :=
  (h.entry q hq zero_lt_one).2.1

theorem Stays.loaded (h : Stays b s t) (hl : s.Loaded q) (hb : 0 < b (s.inum q))
    (ht : (t.node (s.inum q)).attrs.type ≠ 0) : t.Loaded q := by
  obtain ⟨hpos, hinum, hvalid⟩ := h.entry q hl.1.1 hb
  refine ⟨⟨hpos, ?_⟩, hvalid hl.2.1, ?_⟩
  · rw [hinum, h.ninodes]
    exact hl.1.2
  · rw [hinum]
    exact ht

theorem Kept.loaded (h : Kept 1 s t) (hl : s.Loaded q) : t.Loaded q :=
  h.toStays.loaded hl zero_lt_one (by rw [h.node]; exact hl.2.2)

variable {x : Inode}

theorem kept_setInode (hx : 0 < (s.core.inode q).ref → 0 < b (s.inum q) →
    0 < x.ref ∧ x.inum = s.inum q ∧ ((s.core.inode q).valid = true → x.valid = true)) :
    Kept b s (s.setInode q x) := by
  refine ⟨⟨?_, rfl, rfl, rfl⟩, rfl, rfl⟩
  intro r hr hb
  by_cases hrq : r = q
  · subst hrq
    rw [IState.inum, IState.setInode, Core.setInode_inode_self]
    exact hx hr hb
  · rw [IState.inum, IState.setInode, Core.setInode_inode_of_ne hrq]
    exact ⟨hr, rfl, fun h => h⟩

/-! ## `iget`, `idup` and `iput` -/

section

variable (h : Holding b own L s)
include h

theorem Holding.add (hpos : 0 < (s.core.inode q).ref) :
    Holding b (s.inum q :: own) L
      (s.setInode q { s.core.inode q with ref := (s.core.inode q).ref + 1 }) := by
  have hp := h.inPlace q hpos
  refine ⟨h.toTidy.modify hpos ?_ rfl ?_ (fun _ _ => Iff.rfl) ?_, h.rest, ?_⟩
  · dsimp only
    omega
  · exact fun _ => ⟨hp.lt, hp.dev, hp.known, hp.clean, hp.busy⟩
  · intro _
    dsimp only
    omega
  · intro j
    rw [refs_setInode _ _ hp.lt, h.refs, count_cons_eq]
    change _ + (if s.inum q = j then (s.core.inode q).ref + 1 else 0) = _
    split <;> ring

theorem Holding.recycle (hi : i < s.ninodes)
    (hnone : s.core.cachedSlot ROOTDEV i = none) (hempty : s.core.emptySlot = some q) :
    Holding b (i :: own) L (s.setInode q { s.core.inode q with
      dev := ROOTDEV, inum := i, ref := 1, busy := false, valid := false }) := by
  obtain ⟨hlt, hzero⟩ := emptySlot_eq_some hempty
  have hL : L ≠ some q := by
    intro hL
    have := h.locked q hL
    omega
  refine ⟨h.toTidy.setInode zero_le_one ?_ ?_ (fun _ _ => Iff.rfl) ?_, h.rest, ?_⟩
  · exact fun _ => ⟨hlt, rfl, hi, (nomatch ·), (nomatch ·), fun h => absurd h hL⟩
  · intro _ r _ hr
    exact cachedSlot_eq_none hnone (h.inPlace r hr).lt hr (h.inPlace r hr).dev
  · exact fun h => absurd h hL
  · intro j
    rw [refs_setInode _ _ hlt, h.refs, count_cons_eq, hzero, ite_self]
    ring

theorem acts_iget_cached {Q : ℕ → IState → Prop}
    (hpos : 0 < (s.core.inode q).ref) (hinum : s.inum q = i)
    (hQ : ∀ t, Holding b (i :: own) L t → Kept 1 s t → 0 < (t.core.inode q).ref →
      t.inum q = i → Q q t) : Acts p E Q (iget ROOTDEV i) s := by
  have hp := h.inPlace q hpos
  have hs : s.core.cachedSlot ROOTDEV i = some q := by
    cases hs : s.core.cachedSlot ROOTDEV i with
    | none => exact absurd hinum (cachedSlot_eq_none hs hp.lt hpos hp.dev)
    | some r =>
      obtain ⟨-, hr, -, hri⟩ := cachedSlot_eq_some hs
      rw [h.unique q r hpos hr (hinum.trans hri.symm)]
  refine acts_core (r := q) (c := s.core.setInode q
    { s.core.inode q with ref := (s.core.inode q).ref + 1 }) rfl ?_ (hQ _ ?_ ?_ ?_ ?_)
  · dsimp only [Core.exec]
    rw [hs]
  · rw [← hinum]
    exact h.add hpos
  · refine kept_setInode fun _ _ => ⟨?_, rfl, fun h => h⟩
    dsimp only
    omega
  · rw [Core.setInode_inode_self]
    dsimp only
    omega
  · rw [IState.inum, Core.setInode_inode_self]
    exact hinum

theorem acts_iget {Q : ℕ → IState → Prop}
    (hroom : Room E b s.ninodes (own.length + 1)) (hi : i < s.ninodes)
    (hQ : ∀ q t, Holding b (i :: own) L t → Kept 1 s t → 0 < (t.core.inode q).ref →
      t.inum q = i → Q q t) : Acts p E Q (iget ROOTDEV i) s := by
  cases hs : s.core.cachedSlot ROOTDEV i with
  | some q =>
    obtain ⟨-, hpos, -, hinum⟩ := cachedSlot_eq_some hs
    exact acts_iget_cached h hpos hinum (hQ q)
  | none =>
    cases he : s.core.emptySlot with
    | none =>
      have hfull : E (.stop (.panic .igetNoInodes)) := by
        refine hroom.resolve_right fun hk => ?_
        obtain ⟨q, hq⟩ := h.exists_emptySlot hk
        rw [he] at hq
        cases hq
      refine wp_stop (e := .stop (.panic .igetNoInodes)) trivial ?_ hfull
      dsimp only [inodeSem, Core.exec]
      rw [if_pos (show CoreAct.Meant s.core (.iget ROOTDEV i) from rfl), hs, he]
      rfl
    | some q =>
      obtain ⟨hlt, hzero⟩ := emptySlot_eq_some he
      refine acts_core (r := q) (c := s.core.setInode q { s.core.inode q with
        dev := ROOTDEV, inum := i, ref := 1, busy := false, valid := false }) rfl ?_
        (hQ q _ ?_ ?_ ?_ ?_)
      · dsimp only [Core.exec]
        rw [hs, he]
      · exact h.recycle hi hs he
      · refine kept_setInode fun hpos => ?_
        omega
      · rw [Core.setInode_inode_self]
        exact zero_lt_one
      · rw [IState.inum, Core.setInode_inode_self]

end

variable {Q : Unit → IState → Prop}

theorem acts_idup (h : Holding b own L s) (hpos : 0 < (s.core.inode ip).ref)
    (hQ : ∀ t, Holding b (s.inum ip :: own) L t → Kept 1 s t → Q () t) :
    Acts p E Q (idup ip) s := by
  refine acts_core (c := s.core.setInode ip { s.core.inode ip with
    ref := (s.core.inode ip).ref + 1 }) hpos rfl (hQ _ (h.add hpos) ?_)
  refine kept_setInode fun _ _ => ⟨?_, rfl, fun h => h⟩
  dsimp only
  omega

section

variable (h : Holding b (i :: own) L s) (hpos : 0 < (s.core.inode ip).ref) (hinum : s.inum ip = i)
include h hpos hinum

/-- A reference is given back. The entry that is locked keeps one. -/
theorem Holding.drop (hL : L = some ip → 0 < b i + own.count i) :
    Holding b own L (s.setInode ip { s.core.inode ip with ref := (s.core.inode ip).ref - 1 }) ∧
      Kept (held b own) s
        (s.setInode ip { s.core.inode ip with ref := (s.core.inode ip).ref - 1 }) := by
  have hp := h.inPlace ip hpos
  have href : (s.core.inode ip).ref = b i + own.count i + 1 := by
    rw [← h.refs_eq hpos, hinum, h.refs, count_cons_eq, if_pos rfl, add_assoc]
  refine ⟨⟨h.toTidy.modify hpos ?_ rfl ?_ (fun _ _ => Iff.rfl) ?_, h.rest, ?_⟩, kept_setInode ?_⟩
  · dsimp only
    omega
  · exact fun _ => ⟨hp.lt, hp.dev, hp.known, hp.clean, hp.busy⟩
  · intro hl
    have := hL hl
    dsimp only
    omega
  · intro j
    rw [refs_setInode _ _ hp.lt, h.refs, count_cons_eq]
    change _ + (if s.inum ip = j then (s.core.inode ip).ref - 1 else 0) = _
    rw [hinum]
    split <;> ring
  · intro _ hbi
    rw [hinum, held] at hbi
    refine ⟨?_, rfl, fun h => h⟩
    dsimp only
    omega

/-- `iput` only gives the reference back when there is another one, or a link. -/
theorem acts_iput (hsafe : (s.node i).attrs.nlink ≠ 0 ∨ 0 < b i + own.count i)
    (hL : L = some ip → 0 < b i + own.count i)
    (hQ : ∀ t, Holding b own L t → Kept (held b own) s t → Q () t) : Acts p E Q (iput ip) s := by
  have hstays : ¬ ((s.core.inode ip).ref = 1 ∧ (s.core.inode ip).valid = true ∧
      (s.core.inode ip).nlink = 0) := by
    rintro ⟨h1, h2, h3⟩
    rcases hsafe with hlink | hmore
    · refine hlink ?_
      rw [← hinum]
      have := congrArg Attrs.nlink ((h.inPlace ip hpos).clean h2)
      exact this.symm.trans h3
    · rw [← h.refs_eq hpos, hinum, h.refs, count_cons_eq, if_pos rfl] at h1
      omega
  obtain ⟨hdrop, hkept⟩ := h.drop hpos hinum hL
  refine wp_seq (acts_core (r := false) (c := s.core.setInode ip
    { s.core.inode ip with ref := (s.core.inode ip).ref - 1 }) trivial ?_ ?_)
  · dsimp only [Core.exec]
    rw [if_neg hstays]
  · rw [if_neg (by decide)]
    exact wp_pure (hQ _ hdrop hkept)

end

/-! ## Locking -/

/-- `ilock` of an entry that nobody has locked changes this entry only. -/
theorem acts_ilock_entry (hpos : 0 < (s.core.inode ip).ref)
    (hp : InPlace L s ip (s.core.inode ip)) (hL : L ≠ some ip)
    (ht : (s.node (s.inum ip)).attrs.type ≠ 0)
    (hlock : ∀ x : Inode, x.ref = (s.core.inode ip).ref → x.dev = ROOTDEV →
      x.inum = s.inum ip → x.busy = true → x.valid = true →
      x.attrs = (s.node (s.inum ip)).attrs → (s.setInode ip x).Loaded ip →
      Q () (s.setInode ip x)) : Acts p E Q (ilock ip) s := by
  have hbusy : (s.core.inode ip).busy = false := by
    by_contra hb
    exact hL (hp.busy.1 (Bool.of_not_eq_false hb))
  have hdone : ∀ x : Inode, x.ref = (s.core.inode ip).ref → x.dev = ROOTDEV →
      x.inum = s.inum ip → x.busy = true → x.valid = true →
      x.attrs = (s.node (s.inum ip)).attrs → Q () (s.setInode ip x) := by
    intro x h1 h2 h3 h4 h5 h6
    have hself : (s.setInode ip x).core.inode ip = x := Core.setInode_inode_self _ _ _
    have hinum : (s.setInode ip x).inum ip = s.inum ip := by rw [IState.inum, hself, h3]
    refine hlock x h1 h2 h3 h4 h5 h6 ⟨⟨?_, ?_⟩, ?_, ?_⟩
    · rw [hself]
      omega
    · rw [hinum]
      exact hp.known
    · rw [hself]
      exact h5
    · rw [hinum]
      exact ht
  refine wp_seq (acts_core (r := ()) (c := s.core.setInode ip
    { s.core.inode ip with busy := true }) trivial ?_ ?_)
  · dsimp only [Core.exec]
    rw [if_neg (by omega), if_neg (by rw [hbusy]; decide)]
  refine wp_seq (acts_getInode ?_)
  cases hv : (s.core.inode ip).valid with
  | true =>
    rw [if_pos (by rw [Core.setInode_inode_self]; exact hv)]
    exact wp_pure (hdone _ rfl hp.dev rfl rfl hv (hp.clean hv))
  | false =>
    rw [if_neg (by rw [Core.setInode_inode_self]; exact hv ▸ Bool.false_ne_true)]
    have hself : ((s.setInode ip { s.core.inode ip with busy := true }).core.inode ip) =
        { s.core.inode ip with busy := true } := Core.setInode_inode_self _ _ _
    have hcached : (s.setInode ip { s.core.inode ip with busy := true }).Cached ip := by
      refine ⟨?_, ?_⟩
      · rw [hself]
        exact hpos
      · rw [IState.inum, hself]
        exact hp.known
    refine wp_seq (acts_disk (r := ()) (t := s.setInode ip
      { (s.core.inode ip).setAttrs (s.node (s.inum ip)).attrs with
        busy := true, valid := true }) ?_ ?_)
    · dsimp only [execDisk]
      refine (if_pos hcached).trans ?_
      simp [IState.setInode, IState.inum, Inode.setAttrs]
    · refine wp_seq (acts_getInode ?_)
      rw [if_neg (by rw [IState.setInode, Core.setInode_inode_self]; exact ht)]
      exact wp_pure (hdone _ rfl hp.dev rfl rfl rfl rfl)

theorem acts_ilock (h : Holding b own none s)
    (hpos : 0 < (s.core.inode ip).ref) (ht : (s.node (s.inum ip)).attrs.type ≠ 0)
    (hQ : ∀ t, Holding b own (some ip) t → Kept 1 s t → t.Loaded ip → Q () t) :
    Acts p E Q (ilock ip) s := by
  have hp := h.inPlace ip hpos
  refine acts_ilock_entry hpos hp (nomatch ·) ht fun x h1 h2 h3 h4 h5 h6 hload => ?_
  refine hQ _ ⟨h.toTidy.modify hpos ?_ h3 ?_ ?_ ?_, h.rest, ?_⟩ (kept_setInode ?_) hload
  · omega
  · intro _
    refine ⟨hp.lt, h2, ?_, ?_, ?_⟩
    · rw [h3]
      exact hp.known
    · intro _
      rw [h3]
      exact h6
    · exact ⟨fun _ => rfl, fun _ => h4⟩
  · intro r hr
    exact ⟨(nomatch ·), fun h => absurd (Option.some.inj h).symm hr⟩
  · intro _
    omega
  · intro j
    rw [refs_setInode _ _ hp.lt, h.refs, h1, h3]
    ring
  · exact fun _ _ => ⟨by omega, h3, fun _ => h5⟩

theorem Holding.unlock (h : Holding b own (some ip) s) :
    Holding b own none (s.setInode ip { s.core.inode ip with busy := false }) := by
  have hpos := h.locked ip rfl
  have hp := h.inPlace ip hpos
  refine ⟨h.toTidy.modify hpos hpos.le rfl ?_ ?_ (nomatch ·), h.rest, ?_⟩
  · exact fun _ => ⟨hp.lt, hp.dev, hp.known, hp.clean, (nomatch ·), (nomatch ·)⟩
  · intro r hr
    exact ⟨fun h => absurd (Option.some.inj h).symm hr, (nomatch ·)⟩
  · intro j
    rw [refs_setInode _ _ hp.lt, h.refs]
    exact sub_add_cancel _ _

theorem acts_iunlock (h : Holding b own (some ip) s)
    (hQ : ∀ t, Holding b own none t → Kept 1 s t → Q () t) : Acts p E Q (iunlock ip) s := by
  have hpos := h.locked ip rfl
  have hbusy : (s.core.inode ip).busy = true := (h.inPlace ip hpos).busy.2 rfl
  refine acts_core (r := ()) (c := s.core.setInode ip { s.core.inode ip with busy := false })
    trivial ?_ (hQ _ h.unlock (kept_setInode fun _ _ => ⟨hpos, rfl, fun h => h⟩))
  dsimp only [Core.exec]
  rw [if_neg (by rw [hbusy]; simp; omega)]

theorem acts_iunlockput (h : Holding b (i :: own) (some ip) s)
    (hinum : s.inum ip = i) (hsafe : (s.node i).attrs.nlink ≠ 0 ∨ 0 < b i + own.count i)
    (hQ : ∀ t, Holding b own none t → Kept (held b own) s t → Q () t) :
    Acts p E Q (iunlockput ip) s := by
  refine wp_seq (acts_iunlock h fun t ht hk => ?_)
  have hpos := h.locked ip rfl
  refine acts_iput ht (hk.pos hpos) ((hk.inum hpos).trans hinum) ?_ (nomatch ·)
    fun u hu hk' => hQ u hu (hk.all.trans hk')
  rw [hk.node]
  exact hsafe

theorem Holding.perm {own' : List ℕ} (h : Holding b own L s) (hp : own.Perm own') :
    Holding b own' L s :=
  ⟨h.toTidy, h.rest, fun i => by rw [h.refs, hp.count_eq]⟩

/-- The fields of an entry that has been read from the disk. -/
theorem Holding.attrs (h : Holding b own L s) (hip : s.Loaded ip) :
    (s.core.inode ip).attrs = (s.node (s.inum ip)).attrs :=
  (h.inPlace ip hip.1.1).clean hip.2.1

theorem Holding.type (h : Holding b own L s) (hip : s.Loaded ip) :
    (s.core.inode ip).type = (s.node (s.inum ip)).attrs.type :=
  congrArg Attrs.type (h.attrs hip)

/-- References of the process, too, can be taken as held by others. -/
theorem Holding.lend {l : List ℕ} (h : Holding b (own ++ l) L s) : Holding (held b l) own L s := by
  refine ⟨h.toTidy, fun i => ?_, fun i => ?_⟩
  · have := h.rest i
    unfold held
    omega
  · rw [h.refs, count_append, held, Nat.cast_add]
    ring

theorem Holding.take {l : List ℕ} (h : Holding (held b l) own L s) (hb : ∀ i, 0 ≤ b i) :
    Holding b (own ++ l) L s := by
  refine ⟨h.toTidy, hb, fun i => ?_⟩
  rw [h.refs, count_append, held, Nat.cast_add]
  ring

/-! ## Steps that change a node, and transactions -/

theorem stays_of_core {c : Core} (hi : c.inode = s.core.inode) (hp : c.pt = s.core.pt)
    (hf : c.file = s.core.file) : Stays 1 s { s with core := c } := by
  refine ⟨?_, hp, hf, rfl⟩
  intro q hq _
  unfold IState.inum
  dsimp only
  rw [hi]
  exact ⟨hq, rfl, fun h => h⟩

section

variable (h : Holding b own L s)
include h

theorem Holding.setCore {c : Core} (hi : c.inode = s.core.inode) :
    Holding b own L { s with core := c } := by
  have hinum : ∀ q, ({ s with core := c } : IState).inum q = s.inum q := by
    intro q
    unfold IState.inum
    rw [hi]
  have hrefs : ∀ j, ({ s with core := c } : IState).refs j = s.refs j := by
    intro j
    unfold IState.refs
    simp only [hinum, hi]
  refine ⟨⟨?_, fun q hq => ?_, ?_, ?_⟩, h.rest, fun j => (hrefs j).trans (h.refs j)⟩
  · rw [hi]
    exact h.nonneg
  · dsimp only at hq ⊢
    rw [hi] at hq ⊢
    have hp := h.inPlace q hq
    exact ⟨hp.lt, hp.dev, hp.known, hp.clean, hp.busy⟩
  · intro q r
    rw [hinum, hinum, hi]
    exact h.unique q r
  · rw [hi]
    exact h.locked

theorem acts_beginTrans (ho : s.core.owner = none)
    (hQ : ∀ t, Holding b own L t → Stays 1 s t → t.node = s.node → Q () t) :
    Acts p E Q (core .beginTrans) s := by
  refine acts_core (c := { s.core with owner := some p }) trivial ?_
    (hQ _ (h.setCore rfl) (stays_of_core rfl rfl rfl) rfl)
  dsimp only [Core.exec]
  rw [ho]

theorem acts_commitTrans
    (hQ : ∀ t, Holding b own L t → Stays 1 s t → t.node = s.node → t.core.owner = none →
      Q () t) : Acts p E Q (core .commitTrans) s :=
  acts_core trivial rfl (hQ _ (h.setCore rfl) (stays_of_core rfl rfl rfl) rfl rfl)

theorem Holding.setNode {x : Node} (hx : x.attrs = (s.node i).attrs) :
    Holding b own L (s.setNode i x) := by
  have hattrs : ∀ j, ((s.setNode i x).node j).attrs = (s.node j).attrs := by
    intro j
    change (update s.node i x j).attrs = _
    by_cases hj : j = i
    · rw [hj, update_self, hx]
    · rw [update_of_ne hj]
  refine ⟨⟨h.nonneg, fun q hq => ?_, h.unique, h.locked⟩, h.rest, h.refs⟩
  have hp := h.inPlace q hq
  refine ⟨hp.lt, hp.dev, hp.known, fun hv => ?_, hp.busy⟩
  rw [hattrs]
  exact hp.clean hv

end

theorem stays_setNode (s : IState) (i : ℕ) (x : Node) : Stays 1 s (s.setNode i x) :=
  ⟨fun _ hq _ => ⟨hq, rfl, fun h => h⟩, rfl, rfl, rfl⟩

theorem Holding.setBoth (h : Holding b own L s) (hq : 0 < (s.core.inode q).ref)
    {y : Node} (href : x.ref = (s.core.inode q).ref) (hdev : x.dev = (s.core.inode q).dev)
    (hinum : x.inum = s.inum q) (hbusy : x.busy = (s.core.inode q).busy)
    (hclean : x.attrs = y.attrs) : Holding b own L ((s.setInode q x).setNode (s.inum q) y) := by
  have hp := h.inPlace q hq
  have hself : (s.core.setInode q x).inode q = x := Core.setInode_inode_self _ _ _
  have hne : ∀ r, r ≠ q → (s.core.setInode q x).inode r = s.core.inode r :=
    fun r hr => Core.setInode_inode_of_ne hr x
  have hslot : ∀ r, ((s.core.setInode q x).inode r).ref = (s.core.inode r).ref ∧
      ((s.core.setInode q x).inode r).inum = s.inum r := by
    intro r
    by_cases hr : r = q
    · rw [hr, hself]
      exact ⟨href, hinum⟩
    · rw [hne r hr]
      exact ⟨rfl, rfl⟩
  refine ⟨⟨fun r => ?_, fun r hr => ?_, fun r r' hr hr' he => ?_, fun r hr => ?_⟩, h.rest, ?_⟩
  · exact (hslot r).1 ▸ h.nonneg r
  · change 0 < ((s.core.setInode q x).inode r).ref at hr
    change InPlace L _ r ((s.core.setInode q x).inode r)
    by_cases hrq : r = q
    · rw [hrq, hself]
      refine ⟨hp.lt, hdev.trans hp.dev, ?_, fun _ => ?_, ?_⟩
      · rw [hinum]
        exact hp.known
      · change x.attrs = (update s.node (s.inum q) y x.inum).attrs
        rw [hinum, update_self, hclean]
      · rw [hbusy]
        exact hp.busy
    · rw [hne r hrq] at hr ⊢
      have hpr := h.inPlace r hr
      refine ⟨hpr.lt, hpr.dev, hpr.known, fun hv => ?_, hpr.busy⟩
      have hother : s.inum r ≠ s.inum q := fun he => hrq (h.unique r q hr hq he)
      change _ = (update s.node (s.inum q) y (s.inum r)).attrs
      rw [update_of_ne hother]
      exact hpr.clean hv
  · exact h.unique r r' ((hslot r).1 ▸ hr) ((hslot r').1 ▸ hr')
      ((hslot r).2.symm.trans (he.trans (hslot r').2))
  · exact (hslot r).1 ▸ h.locked r hr
  · intro j
    rw [refs_setNode, refs_setInode _ _ hp.lt, href, hinum, h.refs]
    ring

theorem stays_setBoth {y : Node} (href : x.ref = (s.core.inode q).ref)
    (hinum : x.inum = s.inum q) (hvalid : x.valid = (s.core.inode q).valid) :
    Stays 1 s ((s.setInode q x).setNode i y) := by
  refine ⟨fun r hr _ => ?_, rfl, rfl, rfl⟩
  unfold IState.inum
  change 0 < ((s.core.setInode q x).inode r).ref ∧ ((s.core.setInode q x).inode r).inum = _ ∧
    (_ → ((s.core.setInode q x).inode r).valid = true)
  by_cases hrq : r = q
  · subst hrq
    rw [Core.setInode_inode_self, href, hinum, hvalid]
    exact ⟨hr, rfl, fun h => h⟩
  · rw [Core.setInode_inode_of_ne hrq]
    exact ⟨hr, rfl, fun h => h⟩

def freed (x : Node) : Node := ⟨{ x.attrs with type := 0 }, []⟩

theorem acts_free (hip : s.Loaded ip)
    (h : Q () ((s.setNode (s.inum ip) ⟨{ (s.core.inode ip).attrs with type := 0 }, []⟩).setInode ip
      { s.core.inode ip with type := 0 })) : Acts p E Q (disk (.free ip)) s := by
  refine acts_disk ?_ h
  dsimp only [execDisk]
  exact if_pos hip

variable (h : Holding b (i :: own) L s)
include h

theorem Holding.ref_eq_one (hpos : 0 < (s.core.inode ip).ref) (hinum : s.inum ip = i)
    (hlast : b i + own.count i = 0) : (s.core.inode ip).ref = 1 := by
  rw [← h.refs_eq hpos, hinum, h.refs, count_cons_eq, if_pos rfl]
  omega

/-- The last reference to an inode that was freed is given back. -/
theorem Holding.reap (hpos : 0 < (s.core.inode ip).ref)
    (hinum : s.inum ip = i) (hL : L ≠ some ip) (hlast : b i + own.count i = 0)
    (hattrs : (s.core.inode ip).attrs = (s.node i).attrs) :
    Holding b own L (((s.setInode ip { s.core.inode ip with type := 0 }).setNode i
      (freed (s.node i))).setInode ip { s.core.inode ip with
        type := 0, busy := false, valid := false, ref := (s.core.inode ip).ref - 1 }) := by
  have hp := h.inPlace ip hpos
  have href := h.ref_eq_one hpos hinum hlast
  let y : Inode := { s.core.inode ip with type := 0 }
  have hy : y.attrs = (freed (s.node i)).attrs := by
    change ({ (s.core.inode ip).attrs with type := 0 } : Attrs) = { (s.node i).attrs with type := 0 }
    rw [hattrs]
  have hboth := h.setBoth hpos (x := y) (y := freed (s.node i)) rfl rfl rfl rfl hy
  rw [hinum] at hboth
  have hself : ((s.setInode ip y).setNode i (freed (s.node i))).core.inode ip = y :=
    Core.setInode_inode_self _ _ _
  have hi : ((s.setInode ip y).setNode i (freed (s.node i))).inum ip = i := by
    rw [IState.inum, hself]
    exact hinum
  refine ⟨hboth.toTidy.modify ?_ ?_ ?_ ?_ (fun _ _ => Iff.rfl) (fun h => absurd h hL), h.rest, ?_⟩
  · rw [hself]
    exact hpos
  · exact (by omega : 0 ≤ (s.core.inode ip).ref - 1)
  · rw [hi]
    exact hinum
  · intro h0
    change 0 < (s.core.inode ip).ref - 1 at h0
    omega
  · intro j
    rw [refs_setInode _ _ hp.lt, hboth.refs, count_cons_eq, hself, hi]
    change _ - (if i = j then (s.core.inode ip).ref else 0) +
      (if s.inum ip = j then (s.core.inode ip).ref - 1 else 0) = _
    rw [hinum, href]
    split <;> ring

/-- `iput` of the last reference to an inode without links frees it. -/
theorem acts_iput_free (hload : s.Loaded ip) (hinum : s.inum ip = i) (hL : L ≠ some ip)
    (hlink : (s.node i).attrs.nlink = 0) (hlast : b i + own.count i = 0)
    (hQ : ∀ t, Holding b own L t → Stays (held b own) s t → t.core.owner = s.core.owner →
      t.node = update s.node i (freed (s.node i)) → Q () t) : Acts p E Q (iput ip) s := by
  have hpos := hload.1.1
  have hp := h.inPlace ip hpos
  have hattrs := h.attrs hload
  rw [hinum] at hattrs
  have href := h.ref_eq_one hpos hinum hlast
  have hbusy : (s.core.inode ip).busy = false := by
    by_contra hb
    exact hL (hp.busy.1 (Bool.of_not_eq_false hb))
  let x : Inode := { s.core.inode ip with busy := true }
  have hself : (s.setInode ip x).core.inode ip = x := Core.setInode_inode_self _ _ _
  have hi : (s.setInode ip x).inum ip = i := by rw [IState.inum, hself]; exact hinum
  have hloadx : (s.setInode ip x).Loaded ip := by
    refine ⟨⟨?_, ?_⟩, ?_, ?_⟩
    · rw [hself]
      exact hpos
    · rw [hi, ← hinum]
      exact hload.1.2
    · rw [hself]
      exact hload.2.1
    · rw [hi, ← hinum]
      exact hload.2.2
  refine wp_seq (acts_core (r := true) (c := (s.setInode ip x).core) trivial ?_ ?_)
  · dsimp only [Core.exec]
    rw [if_pos ⟨href, hload.2.1, (congrArg Attrs.nlink hattrs).trans hlink⟩,
      if_neg (by rw [hbusy]; decide)]
    rfl
  rw [if_pos rfl]
  refine wp_seq (acts_free (s := s.setInode ip x) hloadx ?_)
  refine acts_core (r := ()) trivial rfl ?_
  have hdone := hQ _ (h.reap hpos hinum hL hlast hattrs) ?_ rfl rfl
  · rw [hi, hself]
    have hx : ({ x.attrs with type := 0 } : Attrs) = { (s.node i).attrs with type := 0 } := by
      rw [← hattrs]
      rfl
    rw [hx]
    simp only [IState.setInode, IState.setNode, Core.setInode_setInode, Core.setInode_inode_self] at hdone ⊢
    exact hdone
  · refine ⟨fun r hr hb => ?_, rfl, rfl, rfl⟩
    have hne : r ≠ ip := by
      rintro rfl
      rw [hinum, held] at hb
      omega
    have hsame : ∀ u v : Inode, ∀ n, (((s.setInode ip u).setNode i n).setInode ip v).core.inode r =
        s.core.inode r := fun u v n =>
      (Core.setInode_inode_of_ne hne v).trans (Core.setInode_inode_of_ne hne u)
    unfold IState.inum
    rw [hsame]
    exact ⟨hr, rfl, fun h => h⟩

end Qwin.Fs
