import Qwin.Vm.Alloc

/-!
# `mappages`

The loop of `mappages` comes to an end also at the top of the address space. The pages of the
range then have the entries asked for, or those before a page table that could not be had.
-/

namespace Qwin.Vm

open Prog
open Function (update_of_ne)

/-- From `pgdir` to `d` the pages from `j` to before `k` were mapped to the frames from `g` on. No
other entry changed, so a page table that was added is empty elsewhere. -/
structure Mapped (perm : BitVec 12) (pgdir d : PageDir) (j k g : ℕ) : Prop where
  entry : ∀ m, d.entry m =
    if j ≤ m ∧ m < k then ⟨(g + (m - j)) % 2 ^ 20, perm ||| PTE_P⟩ else pgdir.entry m
  frame : d.frame = pgdir.frame
  table : ∀ r t, pgdir.table r = some t → ∃ t', d.table r = some t' ∧ t'.frame = t.frame

variable {L : Layout} {env : Env} {perm : BitVec 12} {pgdir d : PageDir} {j k g n : ℕ}

namespace Mapped

theorem refl : Mapped perm d d j j g :=
  ⟨fun m => (if_neg (by omega)).symm, rfl, fun _ t ht => ⟨t, ht, rfl⟩⟩

variable (h : Mapped perm pgdir d j k g)
include h

theorem setPte (hjk : j ≤ k) (hk : k < 2 ^ 20) {t : Table}
    (ht : d.table (k / NPTENTRIES) = some t) :
    Mapped perm pgdir (d.setPte (k * PGSIZE) ⟨(g + (k - j)) % 2 ^ 20, perm ||| PTE_P⟩) j (k + 1)
      g := by
  refine ⟨entries_succ hjk h.entry fun m => PageDir.entry_setPte hk ht, h.frame, fun r t ht => ?_⟩
  obtain ⟨t', ht', hframe⟩ := h.table r t ht
  refine ⟨_, (PageDir.table_setPte hk r).trans (congrArg _ ht'), ?_⟩
  split
  · exact hframe
  · exact hframe

theorem addTable {m f : ℕ} (hm : d.table (m / NPTENTRIES) = none) :
    Mapped perm pgdir (d.addTable (m / NPTENTRIES) f) j k g := by
  refine ⟨fun i => (PageDir.entry_addTable hm).trans (h.entry i), h.frame, fun r t ht => ?_⟩
  obtain ⟨t', ht', hframe⟩ := h.table r t ht
  refine ⟨t', (update_of_ne ?_ _ _).trans ht', hframe⟩
  rintro rfl
  cases hm.symm.trans ht'

end Mapped

/-- What `mappages` has done when it returns. -/
def Installed (perm : BitVec 12) (pgdir : PageDir) (first last g : ℕ) (ok : Bool) (d : PageDir) :
    Prop :=
  if ok then Mapped perm pgdir d first (last + 1) g
  else ∃ k, first ≤ k ∧ k ≤ last ∧ Mapped perm pgdir d first k g

theorem kern_installed (perm : BitVec 12) {first last : ℕ} {s : Mem} (hlast : last < 2 ^ 20)
    (hle : first ≤ last)
    (habs : ∀ m, first ≤ m → m ≤ last → (pgdir.entry m).present = false) (hg : g < 2 ^ 20) :
    Kern L env (fun _ => False) (fun r _ => Installed perm pgdir first last g r.1 r.2)
      (mapLoop perm (last - first) pgdir (first * PGSIZE) (g * PGSIZE)) s := by
  have hstart : g * PGSIZE = (g + (first - first)) % 2 ^ 20 * PGSIZE := by
    rw [Nat.sub_self, add_zero, Nat.mod_eq_of_lt hg]
  rw [hstart]
  refine kern_mapLoop_of_pass (I := fun k d _ => Mapped perm pgdir d first k g) hlast
    (fun k d t hk hkl h => ?_) (fun d t h => h) _ le_rfl (by omega) .refl
  have hp : (d.entry k).present = false := by
    rw [h.entry, if_neg (by omega)]
    exact habs k hk hkl
  have h20 : k < 2 ^ 20 := by omega
  refine kern_mapPage h20 hp (fun t ht => h.setPte hk h20 ht) (fun _ _ => ⟨k, hk, hkl, h⟩)
    fun ht f l _ _ => ?_
  exact (h.addTable ht).setPte hk h20 (d.table_addTable_self _ f)

/-- For a range that does not wrap around and has no page that is present, the loop of
`mappages` ends, and the pages are mapped; or, if it returns -1, the first of them. -/
theorem mappages_installs (L : Layout) (env : Env) (pgdir : PageDir) (va size pa : ℕ)
    (perm : BitVec 12) (s : Mem) (hsize : 0 < size) (hva : va + size ≤ 2 ^ 32)
    (hpa : pa < 2 ^ 32) (haligned : pa % PGSIZE = 0)
    (habs : ∀ m, va / PGSIZE ≤ m → m ≤ (va + size - 1) / PGSIZE →
      (pgdir.entry m).present = false) :
    (∀ fuel, 2 ^ 20 ≤ fuel →
      mapUntil perm (pgRoundDown ((va + size + 2 ^ 32 - 1) % 2 ^ 32)) fuel pgdir (pgRoundDown va)
        pa = some <$> mappages pgdir va size pa perm) ∧
    ∃ ok d t, (mappages pgdir va size pa perm).run (sem L env) s = .ok ((ok, d), t) ∧
      Installed perm pgdir (va / PGSIZE) ((va + size - 1) / PGSIZE) (pa / PGSIZE) ok d := by
  have hend : (va + size + 2 ^ 32 - 1) % 2 ^ 32 = va + size - 1 := by omega
  have hle : va / PGSIZE ≤ (va + size - 1) / PGSIZE := Nat.div_le_div_right (by omega)
  have hlast : (va + size - 1) / PGSIZE < 2 ^ 20 := by
    change (va + size - 1) / 4096 < 2 ^ 20
    omega
  have hg : pa / PGSIZE < 2 ^ 20 := by
    change pa / 4096 < 2 ^ 20
    omega
  have hcount : ((va + size - 1) / PGSIZE * PGSIZE + 2 ^ 32 - va / PGSIZE * PGSIZE) % 2 ^ 32 /
      PGSIZE = (va + size - 1) / PGSIZE - va / PGSIZE := by
    change ((va + size - 1) / 4096 * 4096 + 2 ^ 32 - va / 4096 * 4096) % 2 ^ 32 / 4096 =
      (va + size - 1) / 4096 - va / 4096
    omega
  have hmap : mappages pgdir va size pa perm = mapLoop perm
      ((va + size - 1) / PGSIZE - va / PGSIZE) pgdir (va / PGSIZE * PGSIZE) pa := by
    rw [mappages, hend, pgRoundDown, pgRoundDown, hcount]
  refine ⟨fun fuel hfuel => mapUntil_eq_mappages (by omega) hfuel, ?_⟩
  have h : Kern L env (fun _ => False) _ _ s := kern_installed perm hlast hle habs hg
  rw [Nat.div_mul_cancel (Nat.dvd_of_mod_eq_zero haligned), ← hmap] at h
  obtain ⟨r, t, hrun, hr⟩ := wp_run_exists h
  exact ⟨r.1, r.2, t, hrun, hr⟩

/-- The row of the devices, which ends at the top of the address space. -/
theorem mappages_installs_devices : ∃ ok d t,
    (mappages noTables DEVSPACE 0x2000000 DEVSPACE PTE_W).run
        (sem smallKernel ⟨fun _ => false, Pte.zero⟩) twoFree = .ok ((ok, d), t) ∧
      Installed PTE_W noTables 0xFE000 0xFFFFF 0xFE000 ok d :=
  (mappages_installs _ _ noTables DEVSPACE 0x2000000 DEVSPACE PTE_W twoFree (by decide)
    (by decide) (by decide) (by decide)
    fun _ _ _ => congrArg Pte.present (PageDir.entry_of_none rfl)).2

end Qwin.Vm
