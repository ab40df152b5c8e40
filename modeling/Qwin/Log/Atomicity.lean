import Qwin.Log.Crash

/-!
# Runs of transactions with crashes

A run is a list of transactions, a crash falls anywhere inside it, and recovery is
started again as often as it is cut short itself. Once a recovery has returned,
the home sectors hold the state after a prefix of the transactions that contains
every one whose commit had returned.
-/

namespace Qwin.Log

open Prog List
open Function (update_of_ne update_self)

variable {g : Geometry} (recycle : ℕ → ℕ → Bool) {st : State} {A : ℕ → Block}
  {E : Stop → Prop}

/-! ## The updates of a transaction -/

theorem slots_absorb (r : List (ℕ × Block)) (tail : ℕ) (d : ℕ → Block)
    (hr : slots g d tail (r.map Prod.fst) = r) (hnd : (r.map Prod.fst).Nodup)
    (s : ℕ) (v : Block) :
    slots g (Function.update d (g.start + (tail + (r.map Prod.fst).idxOf s) + 1) v) tail
      ((absorb r s v).map Prod.fst) = absorb r s v := by
  induction r generalizing tail with
  | nil => simp [absorb, slots]
  | cons kv r ih =>
    rw [map_cons, slots, List.cons.injEq] at hr
    rw [map_cons, nodup_cons] at hnd
    by_cases hk : kv.1 = s
    · subst hk
      rw [absorb_cons_self hnd.1, map_cons, map_cons, slots,
        idxOf_cons_self, Nat.add_zero tail, update_self]
      congr 1
      refine (slots_congr g ?_).trans hr.2
      intro i h1 _
      exact update_of_ne (by omega) _ _
    · have hidx : (kv.1 :: r.map Prod.fst).idxOf s = (r.map Prod.fst).idxOf s + 1 :=
        idxOf_cons_ne _ hk
      have hrec := ih (tail + 1) hr.2 hnd.2
      rw [absorb_cons_ne hk, map_cons, map_cons, slots, hidx, update_of_ne (by omega), hr.1]
      rw [show tail + 1 + (r.map Prod.fst).idxOf s
        = tail + ((r.map Prod.fst).idxOf s + 1) by omega] at hrec
      rw [hrec]

theorem headerWith_map_fst (r : List (ℕ × Block)) (s : ℕ) (v : Block) :
    headerWith (r.map Prod.fst) s = (absorb r s v).map Prod.fst := by
  rw [headerWith, map_fst_absorb]
  by_cases hs : s ∈ r.map Prod.fst
  · rw [if_pos hs, if_neg fun h => (idxOf_eq_length_iff.1 h) hs]
  · rw [if_neg hs, if_pos (idxOf_eq_length_iff.2 hs)]

variable {r : List (ℕ × Block)}

theorem mem_map_fst_absorb {s x : ℕ} {v : Block} :
    x ∈ (absorb r s v).map Prod.fst ↔ x ∈ r.map Prod.fst ∨ x = s := by
  rw [map_fst_absorb]
  by_cases hs : s ∈ r.map Prod.fst
  · rw [if_pos hs]
    constructor
    · exact Or.inl
    · rintro (h | rfl)
      · exact h
      · exact hs
  · rw [if_neg hs, mem_append, mem_singleton]

/-- A logged update adds its write to what the transaction has logged. -/
theorem Logged.absorb (h : Logged g A r st) {s : ℕ}
    (hs : ¬ InLog g s) (hs' : s < 2 ^ 32) {v : Block} {t : State}
    (hlen : st.lh.length < LOGSIZE) (hlen' : st.lh.length + 1 < g.size)
    (hd : t.disk = Function.update st.disk (g.start + st.lh.idxOf s + 1) v)
    (hl : t.lh = headerWith st.lh s) (hb : t.busy = true)
    (hc : Cached t noneHeld fun k => k ∈ r.map Prod.fst ∨ k = s) : Logged g A (absorb r s v) t := by
  have hlr : st.lh.length = r.length := by rw [h.lh, length_map]
  have hidx : st.lh.idxOf s ≤ st.lh.length := idxOf_le_length
  have hslot : InLog g (g.start + st.lh.idxOf s + 1) := ⟨by omega, by omega⟩
  refine ⟨?_, ?_, ?_, ?_, nodup_absorb h.nodup s v, ?_, ?_, ?_, hb, ?_⟩
  · rw [hd, update_of_ne (by omega)]
    exact h.clean
  · intro x hx
    have hne : x ≠ g.start + st.lh.idxOf s + 1 := fun he => hx (he ▸ hslot)
    rw [hd, update_of_ne hne]
    exact h.home x hx
  · rw [hl, h.lh, headerWith_map_fst r s v]
  · have hslots := slots_absorb r 0 st.disk h.slots h.nodup s v
    rw [Nat.zero_add, ← h.lh] at hslots
    rw [hd]
    exact hslots
  · intro x hx
    rcases mem_map_fst_absorb.1 hx with hx | rfl
    · exact h.outside x hx
    · exact hs
  · intro x hx
    rcases mem_map_fst_absorb.1 hx with hx | rfl
    · exact h.small x hx
    · exact hs'
  · have hle : (Qwin.absorb r s v).length ≤ r.length + 1 := by
      rw [← length_map Prod.fst, map_fst_absorb]
      split
      · rw [length_map]
        omega
      · rw [length_append, length_map]
        exact le_refl _
    exact ⟨by omega, by omega⟩
  · exact hc.mono fun k hk => mem_map_fst_absorb.2 hk

/-- The sectors a transaction may log: 32-bit sector numbers outside the log. -/
def Loggable (g : Geometry) (t : Trans) : Prop :=
  ∀ w ∈ t, ¬ InLog g w.1 ∧ w.1 < 2 ^ 32

/-- Until the commit the disk recovers to the state before the transaction. -/
theorem updates_spec (t : Trans) (ht : Loggable g t)
    (h : Logged g A r st) (hE : E (.panic .tooBigTransaction)) :
    wp (sem recycle) (fun _ _ u => Recovers g u.disk A) E
      (fun _ u => Logged g A (t.foldl (fun r w => absorb r w.1 w.2) r) u) (updates g t) st := by
  induction t generalizing r st with
  | nil =>
    rw [updates, pure_eq_ret, wp_ret]
    exact h
  | cons w t ih =>
    have hw := ht w mem_cons_self
    have hidx : st.lh.idxOf w.1 ≤ st.lh.length := idxOf_le_length
    have hr0 : Recovers g st.disk A := recovers_of_clean h.clean h.home
    have hr1 : st.lh.length + 1 < g.size → Recovers g (Function.update st.disk
        (g.start + st.lh.idxOf w.1 + 1) w.2) A := by
      intro hroom
      refine recovers_of_clean ?_ ?_
      · rw [update_of_ne (by omega)]
        exact h.clean
      · intro x hx
        have hne : x ≠ g.start + st.lh.idxOf w.1 + 1 :=
          fun he => hx (he ▸ ⟨by omega, by omega⟩)
        rw [update_of_ne hne]
        exact h.home x hx
    rw [updates, wp_bind]
    have hup := update_spec recycle (E := E) (g := g)
      (C := fun d => Recovers g d A) h.cached h.busy hw.1 w.2 hE hr0 hr1
    refine wp_conseq hup ?_
    rintro - u ⟨h1, h2, h3, h4, h5, h6⟩
    exact ih (fun x hx => ht x (mem_cons_of_mem w hx)) (h.absorb hw.1 hw.2 h1 h2 h3 h4 h5 h6)

/-- A transaction passes only through disks that recover to the state before it or
to the state after it. It stops only when the log is full. -/
theorem transaction_spec (t : Trans) (ht : Loggable g t) (h : Idle g A st)
    (hE : E (.panic .tooBigTransaction)) :
    wp (sem recycle)
      (fun _ _ u => Recovers g u.disk A ∨ Recovers g u.disk (overlay t A)) E
      (fun _ u => Idle g (overlay t A) u) (transaction g t) st := by
  have hr0 : Recovers g st.disk A := recovers_of_clean h.clean h.home
  have hx : exec recycle .takeBusy st =
      .ok ((), { st with busy := true, tick := st.tick + 1 }) := by
    simp [exec, h.busy]
  have hlog : Logged g A [] { st with busy := true, tick := st.tick + 1 } :=
    { clean := h.clean
      home := h.home
      lh := h.lh
      slots := rfl
      nodup := nodup_nil
      outside := by simp
      small := by simp
      fits := ⟨Nat.zero_le _, g.size_pos⟩
      busy := rfl
      cached := by
        have hc : Cached st noneHeld fun k => k ∈ ([] : List ℕ) := h.cached.mono (by simp)
        exact ⟨hc.held, hc.free⟩ }
  have hover : overlay (t.foldl (fun r w => absorb r w.1 w.2) []) A = overlay t A :=
    overlay_foldl_absorb t (r := []) nodup_nil A
  rw [transaction, beginTrans]
  refine wp_step (Or.inl hr0) hx ?_
  rw [wp_bind]
  refine wp_mono (fun _ _ _ hu => Or.inl hu) (fun _ he => he) ?_ _ _
    (updates_spec recycle t ht hlog hE)
  intro _ u hu
  have hcommit := commitTrans_spec recycle (E := E) hu
  rw [hover] at hcommit
  exact hcommit

/-! ## Runs with crashes -/

def applyAll (ts : List Trans) (d : ℕ → Block) : ℕ → Block :=
  ts.foldl (fun d t => overlay t d) d

/-- `CrashIn g recycle ts st n u`: running the transactions `ts` from `st`, the power
fails in the state `u`, when `n` commits have returned. -/
inductive CrashIn (g : Geometry) (recycle : ℕ → ℕ → Bool) :
    List Trans → State → ℕ → State → Prop
  | between (ts : List Trans) (st : State) : CrashIn g recycle ts st 0 st
  | inside {t : Trans} {ts : List Trans} {st u : State}
      (h : Visits (sem recycle) (transaction g t) st u) : CrashIn g recycle (t :: ts) st 0 u
  | later {t : Trans} {ts : List Trans} {st st' u : State} {n : ℕ}
      (h : (transaction g t).run (sem recycle) st = .ok ((), st'))
      (hu : CrashIn g recycle ts st' n u) : CrashIn g recycle (t :: ts) st (n + 1) u

/-- `CrashedAgain g d d'`: recoveries started on the disk `d` were each cut short,
and the last one left the disk `d'`. -/
inductive CrashedAgain (g : Geometry) : (ℕ → Block) → (ℕ → Block) → Prop
  | never (d : ℕ → Block) : CrashedAgain g d d
  | again {d d' : ℕ → Block} {u : State} (recycle : ℕ → ℕ → Bool)
      (h : Visits (sem recycle) (recoverFromLog g) (restart d) u)
      (hu : CrashedAgain g u.disk d') : CrashedAgain g d d'

theorem cached_restart (d : ℕ → Block) : Cached (restart d) noneHeld fun _ => False := by
  constructor
  · intro k v d' hk
    cases hk
  · intro k b hk
    cases hk

theorem crashedAgain_recovers {d d' : ℕ → Block} (hc : CrashedAgain g d d')
    (h : Recovers g d A) : Recovers g d' A := by
  induction hc with
  | never d => exact h
  | again recycle hv _ ih =>
    refine ih (wp_visits (fun _ u hu => recovers_of_clean hu.clean hu.home)
      (recoverFromLog_spec recycle (E := fun _ => True) (cached_restart _) rfl h) hv)

theorem crashIn_recovers {ts : List Trans} (hts : ∀ t ∈ ts, Loggable g t) {n : ℕ}
    {u : State} (hcrash : CrashIn g recycle ts st n u) (h : Idle g A st) :
    ∃ k, n ≤ k ∧ k ≤ ts.length ∧ Recovers g u.disk (applyAll (ts.take k) A) := by
  induction hcrash generalizing A with
  | between ts st =>
    exact ⟨0, le_refl 0, Nat.zero_le _, recovers_of_clean h.clean h.home⟩
  | inside hv =>
    rename_i t ts st u
    have hspec := transaction_spec recycle (E := fun _ => True) t (hts t mem_cons_self) h trivial
    rcases wp_visits (fun _ u hu => Or.inr (recovers_of_clean hu.clean hu.home))
      hspec hv with hu | hu
    · exact ⟨0, le_refl 0, Nat.zero_le _, hu⟩
    · exact ⟨1, Nat.zero_le 1, by simp, by simpa [applyAll] using hu⟩
  | later hrun _ ih =>
    rename_i t ts st st' u n _
    have hspec := transaction_spec recycle (E := fun _ => True) t (hts t mem_cons_self) h trivial
    have hidle := wp_run_ok hspec hrun
    obtain ⟨k, hnk, hk, hu⟩ := ih (fun x hx => hts x (mem_cons_of_mem t hx)) hidle
    exact ⟨k + 1, Nat.succ_le_succ hnk, Nat.succ_le_succ hk, hu⟩

/-- Crash atomicity. Start idle on a disk whose header is empty, run transactions,
let the power fail at any point, and let any number of recoveries be cut short as
well. Then a recovery that is left alone returns, the home sectors hold the state
after a prefix of the transactions which contains every one whose commit had
returned, and the header is empty again. -/
theorem recovery_restores_prefix (g : Geometry) (recycle recycle' : ℕ → ℕ → Bool)
    (st : State) (hn : headerN (st.disk g.start) = 0) (hlh : st.lh = [])
    (hbusy : st.busy = false) (hcache : Cached st noneHeld fun _ => False)
    (ts : List Trans) (hts : ∀ t ∈ ts, Loggable g t) (n : ℕ) (u : State)
    (hcrash : CrashIn g recycle ts st n u) (d : ℕ → Block)
    (hagain : CrashedAgain g u.disk d) :
    ∃ st', (recoverFromLog g).run (sem recycle') (restart d) = .ok ((), st') ∧
      headerN (st'.disk g.start) = 0 ∧
      ∃ k, n ≤ k ∧ k ≤ ts.length ∧ HomeEq g st'.disk (applyAll (ts.take k) st.disk) := by
  have hidle : Idle g st.disk st :=
    ⟨(headerSectors_eq_nil_iff _).2 hn, fun _ _ => rfl, hlh, hbusy, hcache⟩
  obtain ⟨k, hnk, hk, hu⟩ := crashIn_recovers recycle hts hcrash hidle
  have hd := crashedAgain_recovers hagain hu
  obtain ⟨_, st', hrun, hst'⟩ := wp_run_exists
    (recoverFromLog_spec recycle' (cached_restart d) rfl hd)
  exact ⟨st', hrun, (headerSectors_eq_nil_iff _).1 hst'.clean, k, hnk, hk, hst'.home⟩

def smallLog : Geometry := ⟨10, 4, by decide⟩

/-- A run in which the power fails right after the commit record of a one-block
transaction has reached the disk. -/
theorem crashIn_mid_commit :
    ∃ u, CrashIn smallLog (fun _ _ => false) [[(0, fun _ => 7)]]
        (restart fun _ => Bytes.zero 512) 0 u ∧ headerN (u.disk smallLog.start) = 1 := by
  refine ⟨_, .inside (.step rfl (.step rfl (.step rfl (.step rfl (.step rfl (.step rfl
      (.step rfl (.step rfl (.step rfl (.step rfl (.step rfl (.step rfl (.step rfl
      (.step rfl (.step rfl (.step rfl (.step rfl (.here _ _)))))))))))))))))), ?_⟩
  decide

theorem recovery_restores_prefix_mid_commit :
    ∃ u : State, headerN (u.disk smallLog.start) = 1 ∧
      ∃ st', (recoverFromLog smallLog).run (sem fun _ _ => false) (restart u.disk) =
          .ok ((), st') ∧
        headerN (st'.disk smallLog.start) = 0 ∧
        ∃ k, 0 ≤ k ∧ k ≤ 1 ∧ HomeEq smallLog st'.disk
          (applyAll (([[(0, fun _ => 7)]] : List Trans).take k) fun _ => Bytes.zero 512) := by
  obtain ⟨u, hcrash, hheader⟩ := crashIn_mid_commit
  refine ⟨u, hheader, recovery_restores_prefix smallLog (fun _ _ => false)
    (fun _ _ => false) (restart fun _ => Bytes.zero 512) (by decide) rfl rfl
    (cached_restart _) [[(0, fun _ => 7)]] ?_ 0 u hcrash u.disk (.never _)⟩
  intro t ht w hw
  rw [mem_singleton] at ht
  subst ht
  rw [mem_singleton] at hw
  subst hw
  exact ⟨fun h => absurd h.1 (by decide), by decide⟩

end Qwin.Log
