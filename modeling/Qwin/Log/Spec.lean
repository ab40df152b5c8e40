import Qwin.Log.Cache
import Qwin.Lib.Overlay

/-!
# What each function of the log writes

For every function of `log.c` the disk it leaves and the disks it passes through.
The condition `C` on disks is the crash condition of the caller: it has to hold of
each disk the function can leave behind half way, and these are listed in the
hypotheses. The committed record of a disk is `record g d`: the header's sectors
paired with the contents of their log slots.
-/

namespace Qwin.Log

open Prog List
open Function (update_of_ne update_self update_eq_self update_idem update_comm)

/-! ## The header block -/

theorem le_putSectors_below (b : Block) (i : ℕ) (l : List ℕ) {o : ℕ}
    (ho : o + 4 ≤ 4 * (i + 1)) : (putSectors b i l).le o 4 = b.le o 4 := by
  induction l generalizing b i with
  | nil => rfl
  | cons s l ih =>
    rw [putSectors, ih (b.putLe (4 * (i + 1)) 4 s) (i + 1) (by omega)]
    exact b.le_putLe_disjoint (Or.inl ho)

theorem le_putSectors (b : Block) (i : ℕ) (l : List ℕ) (hl : i + l.length ≤ 127)
    (hs : ∀ s ∈ l, s < 2 ^ 32) (j : ℕ) (hj : j < l.length) :
    (putSectors b i l).le (4 * (i + j + 1)) 4 = l[j] := by
  induction l generalizing b i j with
  | nil => simp at hj
  | cons s l ih =>
    rw [length_cons] at hl hj
    have hs' : ∀ x ∈ l, x < 2 ^ 32 := fun x hx => hs x (mem_cons_of_mem s hx)
    rw [putSectors]
    cases j with
    | zero =>
      rw [le_putSectors_below _ _ _ (by omega)]
      exact b.le_putLe (by omega) (hs s mem_cons_self)
    | succ j =>
      have hrec := ih (b.putLe (4 * (i + 1)) 4 s) (i + 1) (by omega) hs' j (by omega)
      rw [show i + 1 + j + 1 = i + (j + 1) + 1 by omega] at hrec
      rw [hrec, getElem_cons_succ]

/-- What `write_head` stores is what `read_head` reads back. -/
theorem headerSectors_putHeader (b : Block) (l : List ℕ) (hl : l.length ≤ LOGSIZE)
    (hs : ∀ s ∈ l, s < 2 ^ 32) : headerSectors (putHeader b l) = l := by
  have hl' : l.length ≤ 10 := hl
  have hn : headerN (putHeader b l) = l.length := by
    have hle : (putHeader b l).le 0 4 = l.length := by
      rw [putHeader, le_putSectors_below _ _ _ (by omega)]
      exact b.le_putLe (by omega) (by norm_num; omega)
    rw [headerN, hle, if_pos (by omega)]
  apply ext_getElem
  · rw [headerSectors, length_map, length_range, hn]
  · intro j h1 h2
    simp only [headerSectors, getElem_map, getElem_range, putHeader]
    have h := le_putSectors (b.putLe 0 4 l.length) 0 l (by omega) hs j h2
    rwa [Nat.zero_add] at h

theorem headerSectors_eq_nil_iff (b : Block) : headerSectors b = [] ↔ headerN b = 0 := by
  rw [headerSectors, map_eq_nil_iff, range_eq_nil]

/-! ## The record on disk -/

variable (g : Geometry)

def InLog (s : ℕ) : Prop := g.start ≤ s ∧ s < g.start + g.size

/-- Sectors paired with the log slots from index `tail` on. -/
def slots (d : ℕ → Block) : ℕ → List ℕ → List (ℕ × Block)
  | _, [] => []
  | tail, s :: l => (s, d (g.start + tail + 1)) :: slots d (tail + 1) l

def record (d : ℕ → Block) : List (ℕ × Block) :=
  slots g d 0 (headerSectors (d g.start))

@[simp] theorem map_fst_slots (d : ℕ → Block) (tail : ℕ) (l : List ℕ) :
    (slots g d tail l).map Prod.fst = l := by
  induction l generalizing tail with
  | nil => rfl
  | cons s l ih => rw [slots, map_cons, ih]

theorem slots_congr {d d' : ℕ → Block} {tail : ℕ} {l : List ℕ}
    (h : ∀ i, tail ≤ i → i < tail + l.length → d (g.start + i + 1) = d' (g.start + i + 1)) :
    slots g d tail l = slots g d' tail l := by
  induction l generalizing tail with
  | nil => rfl
  | cons s l ih =>
    rw [length_cons] at h
    rw [slots, slots, h tail (le_refl _) (by omega), ih fun i h1 h2 => h i (by omega) (by omega)]

variable {g} (recycle : ℕ → ℕ → Bool) {st : State} {D : ℕ → Prop}
  {C : (ℕ → Block) → Prop} {E : Stop → Prop}

@[simp] theorem noneHeld_update_none (s : ℕ) : Function.update noneHeld s none = noneHeld :=
  update_eq_self s noneHeld

theorem update_noneHeld (s : ℕ) (x : Option (Block × Bool)) :
    Function.update (Function.update noneHeld s x) s none = noneHeld := by
  rw [update_idem, noneHeld_update_none]

/-! ## The functions -/

section

variable (hc : Cached st noneHeld D) (hD : ¬ D g.start) (h0 : C st.disk)
include hc hD h0

theorem writeHead_spec
    (h1 : C (Function.update st.disk g.start (putHeader (st.disk g.start) st.lh))) :
    wp (sem recycle) (fun _ _ t => C t.disk) E
      (fun _ t =>
        t.disk = Function.update st.disk g.start (putHeader (st.disk g.start) st.lh) ∧
        SameLog st t ∧ Cached t noneHeld D) (writeHead g) st := by
  obtain ⟨v, d, s1, hx1, hd1, hl1, hc1, hv, -⟩ := exec_bread recycle hc (s := g.start) rfl
  have hv := hv hD
  subst hv
  have hx2 : exec recycle .getLh s1 = .ok (s1.lh, { s1 with tick := s1.tick + 1 }) := rfl
  have hc2 : Cached { s1 with tick := s1.tick + 1 }
      (Function.update noneHeld g.start (some (st.disk g.start, d))) D := ⟨hc1.held, hc1.free⟩
  obtain ⟨s3, hx3, hd3, hl3, hc3⟩ := exec_store recycle hc2
    (update_self _ _ _) (putHeader (st.disk g.start) s1.lh)
  rw [update_idem] at hc3
  obtain ⟨s4, hx4, hd4, hl4, hc4⟩ := exec_bwrite recycle hc3 (update_self _ _ _)
  rw [update_idem] at hc4
  have hd4' : s4.disk = Function.update st.disk g.start (putHeader (st.disk g.start) st.lh) := by
    rw [hd4, hd3, ← hl1.1]
    exact congrArg (fun d => Function.update d g.start _) hd1
  obtain ⟨s5, hx5, hd5, hl5, hc5⟩ := exec_brelse recycle hc4
    (update_self _ _ _) (Or.inr (by rw [hd4, update_self]))
  rw [update_noneHeld] at hc5
  have hd3' : s3.disk = st.disk := hd3.trans hd1
  unfold writeHead
  refine wp_step h0 hx1 (wp_step (by rw [hd1]; exact h0) hx2 ?_)
  refine wp_step (show C s1.disk by rw [hd1]; exact h0) hx3
    (wp_step (by rw [hd3']; exact h0) hx4 (wp_last (by rw [hd4']; exact h1) hx5 ?_))
  refine ⟨hd5.trans hd4', ⟨?_, ?_⟩, ?_⟩
  · rw [hl5.1, hl4.1, hl3.1]
    exact hl1.1
  · rw [hl5.2, hl4.2, hl3.2]
    exact hl1.2
  · exact hc5.mono fun k hk => hk.1

theorem readHead_spec :
    wp (sem recycle) (fun _ _ t => C t.disk) E
      (fun _ t => t.disk = st.disk ∧ t.lh = headerSectors (st.disk g.start) ∧
        t.busy = st.busy ∧ Cached t noneHeld D) (readHead g) st := by
  obtain ⟨v, d, s1, hx1, hd1, hl1, hc1, hv, -⟩ := exec_bread recycle hc (s := g.start) rfl
  have hv := hv hD
  subst hv
  have hx2 : exec recycle (.setLh (headerSectors (st.disk g.start))) s1 = .ok ((), { s1 with
      lh := headerSectors (st.disk g.start), tick := s1.tick + 1 }) := rfl
  have hc2 : Cached { s1 with lh := headerSectors (st.disk g.start), tick := s1.tick + 1 }
      (Function.update noneHeld g.start (some (st.disk g.start, d))) D := ⟨hc1.held, hc1.free⟩
  obtain ⟨s3, hx3, hd3, hl3, hc3⟩ := exec_brelse recycle hc2
    (update_self _ _ _) (Or.inr (by dsimp only; rw [hd1]))
  rw [update_noneHeld] at hc3
  unfold readHead
  refine wp_step h0 hx1 (wp_step (by rw [hd1]; exact h0) hx2
    (wp_last (show C s1.disk by rw [hd1]; exact h0) hx3 ?_))
  exact ⟨hd3.trans hd1, hl3.1, hl3.2.trans hl1.2, hc3⟩

end

theorem update_noneHeld_two (a s : ℕ) (x y : Option (Block × Bool)) :
    Function.update (Function.update (Function.update (Function.update noneHeld a x) s y)
      a none) s none = noneHeld := by
  funext k
  by_cases hs : k = s
  · rw [hs, update_self]
    rfl
  · rw [update_of_ne hs]
    by_cases ha : k = a
    · rw [ha, update_self]
      rfl
    · rw [update_of_ne ha, update_of_ne hs, update_of_ne ha]

/-- The loop of `install_trans` writes the slots home in order. -/
theorem installFrom_spec (l : List ℕ) (tail : ℕ) (hc : Cached st noneHeld D)
    (hl : ∀ s ∈ l, ¬ InLog g s) (hlen : tail + l.length < g.size) (hD : ∀ s, D s → ¬ InLog g s)
    (hC : ∀ j, C (overlay ((slots g st.disk tail l).take j) st.disk)) :
    wp (sem recycle) (fun _ _ t => C t.disk) E
      (fun _ t => t.disk = overlay (slots g st.disk tail l) st.disk ∧ SameLog st t ∧
        Cached t noneHeld (fun k => D k ∧ k ∉ l)) (installFrom g tail l) st := by
  induction l generalizing tail st D with
  | nil =>
    rw [installFrom, pure_eq_ret, wp_ret]
    exact ⟨rfl, ⟨rfl, rfl⟩, hc.mono fun k hk => ⟨hk, by simp⟩⟩
  | cons s l ih =>
    rw [length_cons] at hlen
    have ha : InLog g (g.start + tail + 1) := ⟨by omega, by omega⟩
    have hs : ¬ InLog g s := hl s mem_cons_self
    have has : g.start + tail + 1 ≠ s := fun h => hs (h ▸ ha)
    have hC0 : C st.disk := by simpa using hC 0
    have hC1 : C (Function.update st.disk s (st.disk (g.start + tail + 1))) := by
      simpa [slots] using hC 1
    obtain ⟨v, d1, s1, hx1, hd1, hl1, hc1, hv, -⟩ := exec_bread recycle hc
      (s := g.start + tail + 1) rfl
    have hv := hv fun h => hD _ h ha
    subst hv
    obtain ⟨w, d2, s2, hx2, hd2, hl2, hc2, -, -⟩ := exec_bread recycle hc1
      (s := s) (by rw [update_of_ne has.symm]; rfl)
    obtain ⟨s3, hx3, hd3, hl3, hc3⟩ := exec_store recycle hc2
      (update_self _ _ _) (st.disk (g.start + tail + 1))
    rw [update_idem] at hc3
    obtain ⟨s4, hx4, hd4, hl4, hc4⟩ := exec_bwrite recycle hc3 (update_self _ _ _)
    rw [update_idem] at hc4
    have hd3' : s3.disk = st.disk := hd3.trans (hd2.trans hd1)
    have hd4' : s4.disk = Function.update st.disk s (st.disk (g.start + tail + 1)) := by
      rw [hd4, hd3']
    obtain ⟨s5, hx5, hd5, hl5, hc5⟩ := exec_brelse recycle hc4
      (s := g.start + tail + 1) (v := st.disk (g.start + tail + 1)) (d := d1)
      (by rw [update_of_ne has, update_self])
      (Or.inr (by rw [hd4', update_of_ne has]))
    obtain ⟨s6, hx6, hd6, hl6, hc6⟩ := exec_brelse recycle hc5
      (s := s) (v := st.disk (g.start + tail + 1)) (d := false)
      (by rw [update_of_ne has.symm, update_self])
      (Or.inr (by rw [hd5, hd4', update_self]))
    rw [update_noneHeld_two] at hc6
    have hd6' : s6.disk = Function.update st.disk s (st.disk (g.start + tail + 1)) :=
      hd6.trans (hd5.trans hd4')
    -- the remaining slots are still what they were: only a home sector was written
    have hslots : slots g s6.disk (tail + 1) l = slots g st.disk (tail + 1) l := by
      apply slots_congr
      intro i h1 h2
      have hi : g.start + i + 1 ≠ s := fun h => hs (h ▸ ⟨by omega, by omega⟩)
      rw [hd6', update_of_ne hi]
    have hrest := ih (tail + 1) hc6 (fun x hx => hl x (mem_cons_of_mem s hx)) (by omega)
      (fun x hx => hD x hx.1)
      (fun j => by
        have h := hC (j + 1)
        rw [slots, take_succ_cons, overlay_cons] at h
        rw [hslots, hd6']
        exact h)
    rw [installFrom]
    refine wp_step hC0 hx1 (wp_step (by rw [hd1]; exact hC0) hx2
      (wp_step (by rw [hd2, hd1]; exact hC0) hx3
      (wp_step (by rw [hd3']; exact hC0) hx4 (wp_step (by rw [hd4']; exact hC1) hx5
      (wp_step (by rw [hd5, hd4']; exact hC1) hx6 (wp_conseq hrest ?_))))))
    rintro - t ⟨hdt, hlt, hct⟩
    refine ⟨?_, ⟨?_, ?_⟩, ?_⟩
    · rw [hdt, hslots, hd6', slots, overlay_cons]
    · rw [hlt.1, hl6.1, hl5.1, hl4.1, hl3.1, hl2.1, hl1.1]
    · rw [hlt.2, hl6.2, hl5.2, hl4.2, hl3.2, hl2.2, hl1.2]
    · refine hct.mono ?_
      rintro k ⟨⟨hk, hks⟩, hkl⟩
      exact ⟨hk, by simp [hks, hkl]⟩

/-- The sectors of the header after `s` was logged. -/
def headerWith (l : List ℕ) (s : ℕ) : List ℕ :=
  if l.idxOf s = l.length then l ++ [s] else l

theorem logAppend_spec {s : ℕ} {data : Block} {d0 : Bool} {l : List ℕ}
    (hc : Cached st (Function.update noneHeld s (some (data, d0))) D)
    (hs : ¬ InLog g s) (hl : l.length + 1 < g.size) (h0 : C st.disk)
    (h1 : C (Function.update st.disk (g.start + l.idxOf s + 1) data)) :
    wp (sem recycle) (fun _ _ t => C t.disk) E
      (fun _ t => t.disk = Function.update st.disk (g.start + l.idxOf s + 1) data ∧
        t.lh = headerWith l s ∧ t.busy = st.busy ∧
        Cached t (Function.update noneHeld s (some (data, true))) (fun k => D k ∨ k = s))
      (logAppend g s data l (l.idxOf s)) st := by
  have hidx : l.idxOf s ≤ l.length := idxOf_le_length
  have ha : InLog g (g.start + l.idxOf s + 1) := ⟨by omega, by omega⟩
  have has : g.start + l.idxOf s + 1 ≠ s := fun h => hs (h ▸ ha)
  unfold logAppend
  generalize g.start + l.idxOf s + 1 = a at has h1 ⊢
  obtain ⟨w, d1, s1, hx1, hd1, hl1, hc1, -, -⟩ := exec_bread recycle hc
    (s := a) (by rw [update_of_ne has]; rfl)
  obtain ⟨s2, hx2, hd2, hl2, hc2⟩ := exec_store recycle hc1 (update_self _ _ _) data
  rw [update_idem] at hc2
  obtain ⟨s3, hx3, hd3, hl3, hc3⟩ := exec_bwrite recycle hc2 (update_self _ _ _)
  rw [update_idem] at hc3
  have hd3' : s3.disk = Function.update st.disk a data := by
    rw [hd3, hd2, hd1]
  obtain ⟨s4, hx4, hd4, hl4, hc4⟩ := exec_brelse recycle hc3
    (update_self _ _ _) (Or.inr (by rw [hd3', update_self]))
  rw [update_idem, update_comm has.symm, noneHeld_update_none] at hc4
  have hx5 : exec recycle (.setLh (headerWith l s)) s4 = .ok ((), { s4 with
      lh := headerWith l s, tick := s4.tick + 1 }) := rfl
  have hc5 : Cached { s4 with lh := headerWith l s, tick := s4.tick + 1 }
      (Function.update noneHeld s (some (data, d0))) (fun k => D k ∧ k ≠ a) :=
    ⟨hc4.held, hc4.free⟩
  obtain ⟨s6, hx6, hd6, hl6, hc6⟩ := exec_setDirty recycle hc5 (update_self _ _ _)
  rw [update_idem] at hc6
  have hd4' : s4.disk = Function.update st.disk a data := hd4.trans hd3'
  refine wp_step h0 hx1 (wp_step (by rw [hd1]; exact h0) hx2
    (wp_step (by rw [hd2, hd1]; exact h0) hx3 (wp_step (by rw [hd3']; exact h1) hx4
    (wp_step (by rw [hd4']; exact h1) hx5
    (wp_last (show C s4.disk by rw [hd4']; exact h1) hx6 ?_)))))
  refine ⟨hd6.trans hd4', by rw [hl6.1], ?_, ?_⟩
  · rw [hl6.2]
    exact hl4.2.trans (hl3.2.trans (hl2.2.trans hl1.2))
  · refine hc6.mono ?_
    rintro k (hk | hk)
    · exact Or.inl hk.1
    · exact Or.inr hk

/-- One logged update writes one log slot. It stops only when the log is full. -/
theorem update_spec (hc : Cached st noneHeld D) (hbusy : st.busy = true)
    {s : ℕ} (hs : ¬ InLog g s) (data : Block) (hE : E (.panic .tooBigTransaction)) (h0 : C st.disk)
    (h1 : st.lh.length + 1 < g.size →
      C (Function.update st.disk (g.start + st.lh.idxOf s + 1) data)) :
    wp (sem recycle) (fun _ _ t => C t.disk) E
      (fun _ t => st.lh.length < LOGSIZE ∧ st.lh.length + 1 < g.size ∧
        t.disk = Function.update st.disk (g.start + st.lh.idxOf s + 1) data ∧
        t.lh = headerWith st.lh s ∧ t.busy = true ∧
        Cached t noneHeld (fun k => D k ∨ k = s)) (update g s data) st := by
  obtain ⟨v, d0, s1, hx1, hd1, hl1, hc1, -, -⟩ := exec_bread recycle hc (s := s) rfl
  obtain ⟨s2, hx2, hd2, hl2, hc2⟩ := exec_store recycle hc1 (update_self _ _ _) data
  rw [update_idem] at hc2
  have hd2' : s2.disk = st.disk := hd2.trans hd1
  have hb2 : s2.busy = true := hl2.2.trans (hl1.2.trans hbusy)
  have hx3 : exec recycle .getLh s2 = .ok (st.lh, { s2 with tick := s2.tick + 1 }) := by
    rw [← hl1.1, ← hl2.1]
    rfl
  have hx4 : exec recycle .getBusy { s2 with tick := s2.tick + 1 } =
      .ok (true, { s2 with tick := s2.tick + 1 + 1 }) := by
    rw [← hb2]
    rfl
  have h2 : C s2.disk := by
    rw [hd2']
    exact h0
  unfold update logWrite
  refine wp_step h0 hx1 (wp_step (by rw [hd1]; exact h0) hx2 ?_)
  rw [wp_bind]
  refine wp_step h2 hx3 ?_
  by_cases hfull : LOGSIZE ≤ st.lh.length ∨ g.size - 1 ≤ st.lh.length
  · rw [if_pos hfull]
    exact wp_stop h2 rfl hE
  · rw [if_neg hfull]
    refine wp_step h2 hx4 ?_
    rw [if_pos rfl]
    have h1 := h1 (by omega)
    have hc2' : Cached { s2 with tick := s2.tick + 1 + 1 }
        (Function.update noneHeld s (some (data, d0))) D := ⟨hc2.held, hc2.free⟩
    have happend := logAppend_spec recycle (E := E) (C := C) (l := st.lh) hc2' hs
      (by omega) h2 (by rw [hd2']; exact h1)
    refine wp_conseq happend ?_
    rintro - t ⟨hdt, hlt, hbt, hct⟩
    obtain ⟨s5, hx5, hd5, hl5, hc5⟩ := exec_brelse recycle hct (update_self _ _ _) (Or.inl rfl)
    rw [update_noneHeld] at hc5
    have hdt' : t.disk = Function.update st.disk (g.start + st.lh.idxOf s + 1) data := by
      rw [hdt]
      dsimp only
      rw [hd2']
    refine wp_last (by rw [hdt']; exact h1) hx5 ?_
    exact ⟨by omega, by omega, hd5.trans hdt', hl5.1.trans hlt, hl5.2.trans (hbt.trans hb2), hc5⟩

end Qwin.Log
