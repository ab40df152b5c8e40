import Qwin.Log.Spec

/-!
# Crash atomicity of the redo log

`recovered g d` is what recovery makes of the home sectors of a disk: the record
the header has committed, laid over the disk. Every disk write of `log.c` leaves
it as it was, except the one header write that commits a transaction. That is the
whole argument: the disks a crash can leave behind recover to the state before the
running transaction or to the state after it, a crash of the recovery included,
because a recovery that stopped half way has only written recorded blocks home.
-/

namespace Qwin.Log

open Prog List
open Function (update_of_ne update_self)

variable (g : Geometry)

/-- Two disks agree on every sector outside the log. -/
def HomeEq (d d' : ℕ → Block) : Prop := ∀ s, ¬ InLog g s → d s = d' s

/-- What recovery makes of the home sectors of a disk. -/
def recovered (d : ℕ → Block) : ℕ → Block := overlay (record g d) d

/-- The committed record of `d` fits in the log, names no log sector, and recovery
turns `d` into `A`. -/
structure Recovers (d A : ℕ → Block) : Prop where
  outside : ∀ s ∈ headerSectors (d g.start), ¬ InLog g s
  fits : (headerSectors (d g.start)).length < g.size
  home : HomeEq g (recovered g d) A

variable {g}

theorem inLog_start : InLog g g.start := ⟨le_refl _, by have := g.size_pos; omega⟩

theorem HomeEq.overlay {d A : ℕ → Block} (h : HomeEq g d A) (r : List (ℕ × Block)) :
    HomeEq g (overlay r d) (overlay r A) :=
  fun s hs => overlay_congr (Or.inr (h s hs))

theorem record_congr {d d' : ℕ → Block}
    (h : ∀ s, InLog g s → d' s = d s) (hfits : (headerSectors (d g.start)).length < g.size) :
    record g d' = record g d := by
  unfold record
  rw [h g.start inLog_start]
  apply slots_congr
  intro i _ hi
  exact h _ ⟨by omega, by omega⟩

theorem recovers_of_clean {d A : ℕ → Block} (hclean : headerSectors (d g.start) = [])
    (hhome : HomeEq g d A) : Recovers g d A := by
  refine ⟨by simp [hclean], by rw [hclean]; exact g.size_pos, ?_⟩
  rw [recovered, record, hclean]
  exact hhome

/-- Writing the first blocks of the record home does not change what a disk
recovers to. -/
theorem recovers_install {d A : ℕ → Block} (h : Recovers g d A) (j : ℕ) :
    Recovers g (overlay ((record g d).take j) d) A := by
  have hlog : ∀ s, InLog g s → overlay ((record g d).take j) d s = d s := by
    intro s hs
    apply overlay_of_notMem
    intro hmem
    rw [map_take, record, map_fst_slots] at hmem
    exact h.outside s (mem_of_mem_take hmem) hs
  have hstart := hlog g.start inLog_start
  refine ⟨by rw [hstart]; exact h.outside, by rw [hstart]; exact h.fits, ?_⟩
  rw [recovered, record_congr hlog h.fits, overlay_take]
  exact h.home

/-- Erasing the header of a disk keeps its home sectors. -/
theorem homeEq_erase {d A : ℕ → Block} (h : HomeEq g d A) (b : Block) :
    HomeEq g (Function.update d g.start b) A := by
  intro s hs
  have hne : s ≠ g.start := fun he => hs (he ▸ inLog_start)
  rw [update_of_ne hne]
  exact h s hs

/-! ## Recovery and commit -/

variable (recycle : ℕ → ℕ → Bool) {st : State} {A : ℕ → Block} {E : Stop → Prop}

/-- No transaction is running and the home sectors hold `A`. -/
structure Idle (g : Geometry) (A : ℕ → Block) (st : State) : Prop where
  clean : headerSectors (st.disk g.start) = []
  home : HomeEq g st.disk A
  lh : st.lh = []
  busy : st.busy = false
  cached : Cached st noneHeld fun _ => False

/-- Install the record the header has committed and erase the header. -/
theorem installErase_spec {D : ℕ → Prop} (hc : Cached st noneHeld D)
    (hD : ∀ k, D k → k ∈ st.lh) (hlh : st.lh = headerSectors (st.disk g.start))
    (hr : Recovers g st.disk A) :
    wp (sem recycle) (fun _ _ t => Recovers g t.disk A) E
      (fun _ t => headerSectors (t.disk g.start) = [] ∧ HomeEq g t.disk A ∧
        t.lh = [] ∧ t.busy = st.busy ∧ Cached t noneHeld fun _ => False)
      (do installTrans g; perform (.setLh []); writeHead g) st := by
  have hx1 : exec recycle .getLh st =
      .ok (headerSectors (st.disk g.start), { st with tick := st.tick + 1 }) := by
    rw [← hlh]
    rfl
  have hout : ∀ k, D k → ¬ InLog g k := fun k hk => hr.outside k (hlh ▸ hD k hk)
  have hc1 : Cached { st with tick := st.tick + 1 } noneHeld D := ⟨hc.held, hc.free⟩
  have hinst := installFrom_spec recycle (E := E) (C := fun d => Recovers g d A)
    (headerSectors (st.disk g.start)) 0 hc1 hr.outside
    (by rw [Nat.zero_add]; exact hr.fits) hout (fun j => recovers_install hr j)
  rw [wp_bind, installTrans]
  refine wp_step hr hx1 (wp_conseq hinst ?_)
  rintro - t ⟨hdt, hlt, hct⟩
  have hall := recovers_install hr (record g st.disk).length
  rw [take_length] at hall
  have hdt' : t.disk = recovered g st.disk := hdt
  have hrt : Recovers g t.disk A := by
    rw [hdt']
    exact hall
  have hx2 : exec recycle (.setLh []) t = .ok ((), { t with
      lh := [], tick := t.tick + 1 }) := rfl
  have hhome : HomeEq g t.disk A := by
    rw [hdt']
    exact hr.home
  -- every sector that could be dirty has been written home
  have hct' : Cached { t with lh := [], tick := t.tick + 1 } noneHeld fun _ => False := by
    have hmono : Cached t noneHeld fun _ => False :=
      hct.mono fun k hk => hk.2 (hlh ▸ hD k hk.1)
    exact ⟨hmono.held, hmono.free⟩
  have herase : headerSectors (Function.update t.disk g.start
      (putHeader (t.disk g.start) []) g.start) = [] := by
    rw [update_self]
    exact headerSectors_putHeader _ [] (by simp) (by simp)
  have hwrite := writeHead_spec recycle (E := E) (g := g)
    (C := fun d => Recovers g d A) hct' (fun h => h) hrt
    (recovers_of_clean herase (homeEq_erase hhome _))
  refine wp_step hrt hx2 (wp_conseq hwrite ?_)
  rintro - u ⟨hdu, hlu, hcu⟩
  refine ⟨by rw [hdu]; exact herase, by rw [hdu]; exact homeEq_erase hhome _, hlu.1, ?_, hcu⟩
  rw [hlu.2]
  exact hlt.2

/-- Recovery keeps what the disk recovers to and ends idle. It never stops. -/
theorem recoverFromLog_spec (hc : Cached st noneHeld fun _ => False)
    (hb : st.busy = false) (hr : Recovers g st.disk A) :
    wp (sem recycle) (fun _ _ t => Recovers g t.disk A) E
      (fun _ t => Idle g A t) (recoverFromLog g) st := by
  have hread := readHead_spec recycle (E := E) (g := g)
    (C := fun d => Recovers g d A) hc (fun h => h) hr
  rw [recoverFromLog, wp_bind]
  refine wp_conseq hread ?_
  rintro - t ⟨hdt, hlt, hbt, hct⟩
  have hrt : Recovers g t.disk A := by
    rw [hdt]
    exact hr
  refine wp_conseq (installErase_spec recycle hct (fun _ h => h.elim) (by rw [hlt, hdt]) hrt) ?_
  rintro - u ⟨h1, h2, h3, h4, h5⟩
  exact ⟨h1, h2, h3, h4.trans (hbt.trans hb), h5⟩

/-- A transaction under way: `r` is what it has logged so far over the home
sectors `A`. -/
structure Logged (g : Geometry) (A : ℕ → Block) (r : List (ℕ × Block)) (st : State) :
    Prop where
  clean : headerSectors (st.disk g.start) = []
  home : HomeEq g st.disk A
  lh : st.lh = r.map Prod.fst
  slots : slots g st.disk 0 (r.map Prod.fst) = r
  nodup : (r.map Prod.fst).Nodup
  outside : ∀ s ∈ r.map Prod.fst, ¬ InLog g s
  small : ∀ s ∈ r.map Prod.fst, s < 2 ^ 32
  fits : r.length ≤ LOGSIZE ∧ r.length < g.size
  busy : st.busy = true
  cached : Cached st noneHeld fun k => k ∈ r.map Prod.fst

/-- The commit point: with the header written, the disk recovers to the state after
the transaction. -/
theorem recovers_commit {r : List (ℕ × Block)} (h : Logged g A r st) :
    Recovers g (Function.update st.disk g.start (putHeader (st.disk g.start) st.lh))
      (overlay r A) ∧
    headerSectors (Function.update st.disk g.start
      (putHeader (st.disk g.start) st.lh) g.start) = r.map Prod.fst := by
  have hhead : headerSectors (Function.update st.disk g.start
      (putHeader (st.disk g.start) st.lh) g.start) = r.map Prod.fst := by
    rw [update_self, h.lh]
    exact headerSectors_putHeader _ _ (by rw [length_map]; exact h.fits.1) h.small
  refine ⟨⟨?_, ?_, ?_⟩, hhead⟩
  · rw [hhead]
    exact h.outside
  · rw [hhead, length_map]
    exact h.fits.2
  · have hrec : record g (Function.update st.disk g.start
        (putHeader (st.disk g.start) st.lh)) = r := by
      rw [record, hhead]
      refine (slots_congr g ?_).trans h.slots
      intro i _ _
      exact update_of_ne (by omega) _ _
    rw [recovered, hrec]
    exact (homeEq_erase h.home _).overlay r

theorem commitTrans_spec {r : List (ℕ × Block)} (h : Logged g A r st) :
    wp (sem recycle)
      (fun _ _ t => Recovers g t.disk A ∨ Recovers g t.disk (overlay r A)) E
      (fun _ t => Idle g (overlay r A) t) (commitTrans g) st := by
  have hr0 : Recovers g st.disk A := recovers_of_clean h.clean h.home
  have hx1 : exec recycle .getLh st = .ok (r.map Prod.fst, { st with tick := st.tick + 1 }) := by
    rw [← h.lh]
    rfl
  rw [commitTrans]
  refine wp_step (Or.inl hr0) hx1 ?_
  by_cases hpos : 0 < (r.map Prod.fst).length
  · obtain ⟨hcommit, hhead⟩ := recovers_commit h
    rw [if_pos hpos, wp_bind, commitRecord, wp_bind]
    have hc1 : Cached { st with tick := st.tick + 1 } noneHeld (· ∈ r.map Prod.fst) :=
      ⟨h.cached.held, h.cached.free⟩
    have hwrite := writeHead_spec recycle (E := E) (g := g)
      (C := fun d => Recovers g d A ∨ Recovers g d (overlay r A)) hc1
      (fun hs => h.outside _ hs inLog_start) (Or.inl hr0) (Or.inr hcommit)
    refine wp_conseq hwrite ?_
    rintro - t ⟨hdt, hlt, hct⟩
    have hrt : Recovers g t.disk (overlay r A) := by
      rw [hdt]
      exact hcommit
    have hlh : t.lh = r.map Prod.fst := hlt.1.trans h.lh
    refine wp_mono (fun _ _ _ ht => Or.inr ht) (fun _ he => he) ?_ _ _
      (installErase_spec recycle hct (fun k hk => by rw [hlh]; exact hk)
        (by rw [hlh, hdt]; exact hhead.symm) hrt)
    rintro - u ⟨h1, h2, h3, h4, h5⟩
    exact wp_last (Or.inr (recovers_of_clean h1 h2)) rfl ⟨h1, h2, h3, rfl, h5.held, h5.free⟩
  · have hnil : r = [] := by
      rw [length_map, Nat.not_lt, Nat.le_zero, length_eq_zero_iff] at hpos
      exact hpos
    subst hnil
    rw [if_neg hpos]
    refine wp_last (Or.inl hr0) rfl ⟨h.clean, h.home, h.lh, rfl, ?_⟩
    have hc : Cached st noneHeld fun _ => False := h.cached.mono (by simp)
    exact ⟨hc.held, hc.free⟩

end Qwin.Log
