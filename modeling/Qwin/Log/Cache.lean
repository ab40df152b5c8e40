import Qwin.Log.Basic

/-!
# What the buffer cache holds while the log code runs

`Cached st H D` describes the cache of `st`. The buffers in `H` are locked by the
running code, each with its data and its dirty flag. Any other cached buffer is
unlocked and either dirty, which only the sectors of `D` may be, or a copy of its
sector. Each buffer operation is described once in these terms; that the cache may
recycle clean buffers on the way is absorbed here and not seen above.
-/

namespace Qwin.Log

open Function (update_of_ne update_self)

/-- The locked buffers: sector, data and dirty flag. -/
abbrev Held := ℕ → Option (Block × Bool)

def noneHeld : Held := fun _ => none

structure Cached (st : State) (H : Held) (D : ℕ → Prop) : Prop where
  held : ∀ k v d, H k = some (v, d) → st.cache k = some ⟨v, true, d⟩ ∧ (d = true → D k)
  free : ∀ k b, st.cache k = some b → H k = none →
    b.busy = false ∧ (b.dirty = true → D k) ∧ (b.dirty = false → b.data = st.disk k)

/-- The parts of the state that buffer operations leave alone. -/
def SameLog (st st' : State) : Prop := st'.lh = st.lh ∧ st'.busy = st.busy

variable {b : Buf} {c : ℕ → Option Buf}

theorem recycled_eq_some {recycle : ℕ → Bool} {k : ℕ}
    (h : recycled recycle c k = some b) : c k = some b := by
  unfold recycled at h
  cases hc : c k with
  | none =>
    rw [hc] at h
    cases h
  | some b' =>
    rw [hc] at h
    dsimp only at h
    split at h
    · cases h
    · exact h

theorem recycled_of_busy {recycle : ℕ → Bool} {k : ℕ}
    (h : c k = some b) (hb : b.busy = true) : recycled recycle c k = some b := by
  unfold recycled
  rw [h]
  simp [hb]

variable (recycle : ℕ → ℕ → Bool) {st : State} {H : Held} {D : ℕ → Prop} {D' : ℕ → Prop}

theorem Cached.mono (hc : Cached st H D) (h : ∀ k, D k → D' k) : Cached st H D' := by
  constructor
  · intro k v d hk
    obtain ⟨hck, hdk⟩ := hc.held k v d hk
    exact ⟨hck, fun hd => h k (hdk hd)⟩
  · intro k b hk hH
    obtain ⟨h1, h2, h3⟩ := hc.free k b hk hH
    exact ⟨h1, fun hd => h k (h2 hd), h3⟩

theorem Cached.giveUp (hc : Cached st H D) (r : ℕ → Bool) :
    Cached { st with cache := recycled r st.cache } H D := by
  constructor
  · intro k v d hk
    obtain ⟨hck, hdk⟩ := hc.held k v d hk
    exact ⟨recycled_of_busy hck rfl, hdk⟩
  · intro k b hk hH
    exact hc.free k b (recycled_eq_some hk) hH

variable {s : ℕ}

/-- Changing one cached buffer. Every buffer operation is an instance. -/
theorem Cached.set (hc : Cached st H D) {x : Option (Block × Bool)} {st' : State}
    (hcache : st'.cache = Function.update st.cache s (some b))
    (hx : x = if b.busy then some (b.data, b.dirty) else none)
    (hdisk : ∀ k, k ≠ s → st'.disk k = st.disk k) (hD : ∀ k, k ≠ s → D k → D' k)
    (hdirty : b.dirty = true → D' s)
    (hclean : b.busy = false → b.dirty = false → b.data = st'.disk s) :
    Cached st' (Function.update H s x) D' := by
  constructor
  · intro k v d hk
    rw [hcache]
    by_cases hks : k = s
    · subst hks
      rw [update_self, hx] at hk
      rw [update_self]
      split at hk
      · rename_i hbusy
        simp only [Option.some.injEq, Prod.mk.injEq] at hk
        obtain ⟨rfl, rfl⟩ := hk
        exact ⟨by rw [← hbusy], hdirty⟩
      · cases hk
    · rw [update_of_ne hks] at hk ⊢
      obtain ⟨hck, hdk⟩ := hc.held k v d hk
      exact ⟨hck, fun h => hD k hks (hdk h)⟩
  · intro k b' hk hH
    rw [hcache] at hk
    by_cases hks : k = s
    · subst hks
      rw [update_self] at hk hH
      cases hk
      rw [hx] at hH
      split at hH
      · cases hH
      · rename_i hbusy
        have hbusy' : b.busy = false := by simpa using hbusy
        exact ⟨hbusy', hdirty, hclean hbusy'⟩
    · rw [update_of_ne hks] at hk hH
      obtain ⟨h1, h2, h3⟩ := hc.free k b' hk hH
      rw [hdisk k hks]
      exact ⟨h1, fun h => hD k hks (h2 h), h3⟩

/-- Reading a sector that is not locked locks it. A sector that cannot be dirty is
read as it is on disk. -/
theorem exec_bread (hc : Cached st H D) (hs : H s = none) :
    ∃ v d st', exec recycle (.bread s) st = .ok (v, st') ∧
      st'.disk = st.disk ∧ SameLog st st' ∧
      Cached st' (Function.update H s (some (v, d))) D ∧
      (¬ D s → v = st.disk s) ∧ (d = false → v = st.disk s) := by
  cases hb : st.cache s with
  | some b =>
    obtain ⟨hbusy, hdirty, hclean⟩ := hc.free s b hb hs
    have hx : exec recycle (.bread s) st = .ok (b.data, { st with
        cache := Function.update st.cache s (some { b with busy := true })
        tick := st.tick + 1 }) := by
      simp [exec, hb, hbusy]
    refine ⟨b.data, b.dirty, _, hx, rfl, ⟨rfl, rfl⟩, ?_, ?_, hclean⟩
    · exact hc.set rfl rfl (fun _ _ => rfl) (fun _ _ h => h) hdirty (fun h => by cases h)
    · intro hD
      cases hd : b.dirty with
      | true => exact (hD (hdirty hd)).elim
      | false => exact hclean hd
  | none =>
    have hx : exec recycle (.bread s) st = .ok (st.disk s, { st with
        cache := Function.update (recycled (recycle st.tick) st.cache) s
          (some ⟨st.disk s, true, false⟩)
        tick := st.tick + 1 }) := by
      simp [exec, hb]
    refine ⟨st.disk s, false, _, hx, rfl, ⟨rfl, rfl⟩, ?_, fun _ => rfl, fun _ => rfl⟩
    exact (hc.giveUp (recycle st.tick)).set rfl rfl (fun _ _ => rfl)
      (fun _ _ h => h) (fun h => by cases h) (fun h => by cases h)

variable {d : Bool} {v : Block}

variable (hc : Cached st H D) (hs : H s = some (v, d))
include hc hs

theorem exec_store (w : Block) :
    ∃ st', exec recycle (.store s w) st = .ok ((), st') ∧
      st'.disk = st.disk ∧ SameLog st st' ∧ Cached st' (Function.update H s (some (w, d))) D := by
  obtain ⟨hb, hd⟩ := hc.held s v d hs
  have hx : exec recycle (.store s w) st = .ok ((), { st with
      cache := Function.update st.cache s (some ⟨w, true, d⟩)
      tick := st.tick + 1 }) := by
    simp [exec, hb]
  exact ⟨_, hx, rfl, ⟨rfl, rfl⟩, hc.set rfl rfl (fun _ _ => rfl) (fun _ _ h => h) hd
    (fun h => by cases h)⟩

/-- Writing a locked buffer puts its data on the disk and makes it clean. -/
theorem exec_bwrite :
    ∃ st', exec recycle (.bwrite s) st = .ok ((), st') ∧
      st'.disk = Function.update st.disk s v ∧ SameLog st st' ∧
      Cached st' (Function.update H s (some (v, false))) (fun k => D k ∧ k ≠ s) := by
  obtain ⟨hb, -⟩ := hc.held s v d hs
  have hx : exec recycle (.bwrite s) st = .ok ((), { st with
      disk := Function.update st.disk s v
      cache := Function.update st.cache s (some ⟨v, true, false⟩)
      tick := st.tick + 1 }) := by
    simp [exec, hb]
  exact ⟨_, hx, rfl, ⟨rfl, rfl⟩, hc.set rfl rfl (fun k hk => update_of_ne hk _ _)
    (fun _ hk h => ⟨h, hk⟩) (fun h => by cases h) (fun h => by cases h)⟩

/-- A buffer may be released when it is dirty or agrees with its sector. -/
theorem exec_brelse (hv : d = true ∨ v = st.disk s) :
    ∃ st', exec recycle (.brelse s) st = .ok ((), st') ∧
      st'.disk = st.disk ∧ SameLog st st' ∧ Cached st' (Function.update H s none) D := by
  obtain ⟨hb, hd⟩ := hc.held s v d hs
  have hclean : d = false → v = st.disk s := by
    intro hdf
    rcases hv with hv | hv
    · rw [hv] at hdf
      cases hdf
    · exact hv
  have hx : exec recycle (.brelse s) st = .ok ((), { st with
      cache := Function.update st.cache s (some ⟨v, false, d⟩)
      tick := st.tick + 1 }) := by
    simp [exec, hb]
  exact ⟨_, hx, rfl, ⟨rfl, rfl⟩, hc.set rfl rfl (fun _ _ => rfl) (fun _ _ h => h) hd
    (fun _ => hclean)⟩

theorem exec_setDirty :
    ∃ st', exec recycle (.setDirty s) st = .ok ((), st') ∧
      st'.disk = st.disk ∧ SameLog st st' ∧
      Cached st' (Function.update H s (some (v, true))) (fun k => D k ∨ k = s) := by
  obtain ⟨hb, -⟩ := hc.held s v d hs
  have hx : exec recycle (.setDirty s) st = .ok ((), { st with
      cache := Function.update st.cache s (some ⟨v, true, true⟩)
      tick := st.tick + 1 }) := by
    simp [exec, hb]
  exact ⟨_, hx, rfl, ⟨rfl, rfl⟩, hc.set rfl rfl (fun _ _ => rfl) (fun _ _ h => Or.inl h)
    (fun _ => Or.inr rfl) (fun h => by cases h)⟩

end Qwin.Log
