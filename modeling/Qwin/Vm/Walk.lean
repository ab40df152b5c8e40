import Mathlib.Data.List.Perm.Basic
import Qwin.Vm.Basic

/-!
# Walking and mapping

The entries of a page directory by the number of the page, and what `walkpgdir`, `kalloc`
and one pass of `mappages` do.
-/

namespace Qwin.Vm

open Prog
open Function (update update_self)

/-! ## Entries by page number -/

/-- The number of the first page of the kernel. -/
abbrev KPAGE : ℕ := KERNBASE / PGSIZE

theorem PDX_eq {va : ℕ} (h : va < 2 ^ 32) : PDX va = va / PGSIZE / NPTENTRIES := by
  unfold PDX
  rw [Nat.mod_eq_of_lt (by omega), Nat.div_div_eq_div_mul]
  rfl

theorem PTX_eq (va : ℕ) : PTX va = va / PGSIZE % NPTENTRIES := rfl

theorem PDX_mul {j : ℕ} (h : j < 2 ^ 20) : PDX (j * PGSIZE) = j / NPTENTRIES := by
  have hlt : j * PGSIZE < 2 ^ 32 := by
    unfold PGSIZE
    omega
  rw [PDX_eq hlt, Nat.mul_div_cancel _ (by decide)]

theorem PTX_mul (j : ℕ) : PTX (j * PGSIZE) = j % NPTENTRIES := by
  rw [PTX_eq, Nat.mul_div_cancel _ (by decide)]

/-- A page is given by its place in the directory and in the page table. -/
theorem eq_of_div_mod {m j : ℕ} (hd : m / NPTENTRIES = j / NPTENTRIES)
    (hm : m % NPTENTRIES = j % NPTENTRIES) : m = j := by
  rw [← Nat.div_add_mod m NPTENTRIES, ← Nat.div_add_mod j NPTENTRIES, hd, hm]

namespace PageDir

variable {pgdir : PageDir} {j m f : ℕ} {e : Pte}

def entry (pgdir : PageDir) (m : ℕ) : Pte :=
  (pgdir.table (m / NPTENTRIES)).elim Pte.zero (·.pte (m % NPTENTRIES))

theorem pte_mul (h : j < 2 ^ 20) : pgdir.pte (j * PGSIZE) = pgdir.entry j := by
  rw [pte, PDX_mul h, PTX_mul, entry]

theorem entry_of_none (h : pgdir.table (m / NPTENTRIES) = none) : pgdir.entry m = Pte.zero := by
  rw [entry, h]
  rfl

@[simp] theorem present_zero : Pte.zero.present = false := rfl

theorem table_of_present (h : (pgdir.entry m).present = true) :
    ∃ t, pgdir.table (m / NPTENTRIES) = some t := by
  cases ht : pgdir.table (m / NPTENTRIES) with
  | none =>
    rw [entry_of_none ht] at h
    cases h
  | some t => exact ⟨t, rfl⟩

theorem table_addTable_self (pgdir : PageDir) (r f : ℕ) :
    (pgdir.addTable r f).table r = some ⟨f, fun _ => Pte.zero⟩ := update_self ..

theorem entry_addTable (h : pgdir.table (j / NPTENTRIES) = none) :
    (pgdir.addTable (j / NPTENTRIES) f).entry m = pgdir.entry m := by
  by_cases hm : m / NPTENTRIES = j / NPTENTRIES
  · simp [entry, addTable, hm, h]
  · simp [entry, addTable, hm]

theorem entry_setPte (h : j < 2 ^ 20) {t : Table} (ht : pgdir.table (j / NPTENTRIES) = some t) :
    (pgdir.setPte (j * PGSIZE) e).entry m = if m = j then e else pgdir.entry m := by
  rw [setPte, PDX_mul h, PTX_mul, entry]
  by_cases hd : m / NPTENTRIES = j / NPTENTRIES
  · by_cases hm : m % NPTENTRIES = j % NPTENTRIES
    · rw [if_pos (eq_of_div_mod hd hm)]
      simp [hd, hm, ht]
    · rw [if_neg fun he : m = j => hm (he ▸ rfl), entry]
      simp [hd, hm, ht]
  · rw [if_neg fun he : m = j => hd (he ▸ rfl), entry]
    simp [hd]

theorem table_setPte (h : j < 2 ^ 20) (r : ℕ) :
    (pgdir.setPte (j * PGSIZE) e).table r = (pgdir.table r).map fun t =>
      if r = j / NPTENTRIES then { t with pte := update t.pte (j % NPTENTRIES) e }
      else t := by
  rw [setPte, PDX_mul h, PTX_mul]
  by_cases hr : r = j / NPTENTRIES
  · simp [hr]
  · simp [hr]

end PageDir

theorem mk'_mul (g : ℕ) (perm : BitVec 12) : Pte.mk' (g * PGSIZE) perm = ⟨g, perm ||| PTE_P⟩ := by
  have hzero : BitVec.ofNat 12 (g * PGSIZE) = 0#12 := by
    apply BitVec.eq_of_toNat_eq
    simp
  rw [Pte.mk', hzero, Nat.mul_div_cancel _ (by decide), BitVec.zero_or]

@[simp] theorem present_or (g : ℕ) (perm : BitVec 12) :
    (Pte.mk g (perm ||| PTE_P)).present = true := by
  simp [Pte.present]

/-! ## Rules for the steps -/

section Rules

variable {α γ : Type} {L : Layout} {env : Env} {E : Stop → Prop} {s : Mem}

/-- What a run of a part of `vm.c` guarantees. -/
abbrev Kern (L : Layout) (env : Env) (E : Stop → Prop) (Q : α → Mem → Prop) (c : VProg α)
    (s : Mem) : Prop :=
  wp (sem L env) (fun _ _ _ => True) E Q c s

/-- The next call of `kalloc` finds no page. -/
def Refused (env : Env) (s : Mem) : Prop := s.freelist = [] ∨ env.fails s.calls = true

/-- The memory after a call of `kalloc` that left the pages `l`. -/
def Mem.after (s : Mem) (l : List ℕ) : Mem := { s with freelist := l, calls := s.calls + 1 }

theorem kern_kalloc {Q : Option ℕ → Mem → Prop}
    (hnone : Refused env s → Q none (s.after s.freelist))
    (hsome : ∀ f l, s.freelist = f :: l → ¬ Refused env s → Q (some f) (s.after l)) :
    Kern L env E Q kalloc s := by
  cases hl : s.freelist with
  | nil =>
    have hx : (sem L env).exec .kalloc s = .ok (none, s.after s.freelist) := by
      simp [sem, exec, hl, Mem.after]
    exact wp_last trivial hx (hnone (Or.inl hl))
  | cons f l =>
    cases hf : env.fails s.calls with
    | true =>
      have hx : (sem L env).exec .kalloc s = .ok (none, s.after s.freelist) := by
        simp [sem, exec, hl, hf, Mem.after]
      exact wp_last trivial hx (hnone (Or.inr hf))
    | false =>
      have hx : (sem L env).exec .kalloc s = .ok (some f, s.after l) := by
        simp [sem, exec, hl, hf, Mem.after]
      exact wp_last trivial hx (hsome f l hl (by simp [Refused, hl, hf]))

def Mem.write (s : Mem) (f : ℕ) (p : Page) : Mem := { s with page := update s.page f p }

theorem kern_clear {Q : Unit → Mem → Prop} {f : ℕ} (h : Q () (s.write f (Bytes.zero 4096))) :
    Kern L env E Q (clear f) s := wp_last trivial rfl h

def Mem.freed (s : Mem) (f : ℕ) : Mem :=
  { s with page := update s.page f junk, freelist := f :: s.freelist }

theorem kern_kfree {Q : Unit → Mem → Prop} {f : ℕ} (hf : L.Frame f) (h : Q () (s.freed f)) :
    Kern L env E Q (kfree f) s := wp_last trivial (if_pos hf) h

variable {pgdir : PageDir} {j : ℕ} {Q : Option PageDir → Mem → Prop}

theorem kern_walk (hj : j < 2 ^ 20) (hnone : pgdir.table (j / NPTENTRIES) = none → Q none s)
    (hsome : ∀ t, pgdir.table (j / NPTENTRIES) = some t → Q (some pgdir) s) :
    Kern L env E Q (walkpgdir pgdir (j * PGSIZE) false) s := by
  unfold walkpgdir
  rw [PDX_mul hj]
  cases ht : pgdir.table (j / NPTENTRIES) with
  | none => exact wp_pure (hnone ht)
  | some t => exact wp_pure (hsome t ht)

theorem kern_walk_alloc (hj : j < 2 ^ 20)
    (hold : ∀ t, pgdir.table (j / NPTENTRIES) = some t → Q (some pgdir) s)
    (hnone : pgdir.table (j / NPTENTRIES) = none → Refused env s → Q none (s.after s.freelist))
    (hnew : pgdir.table (j / NPTENTRIES) = none → ∀ f l, s.freelist = f :: l → ¬ Refused env s →
      Q (some (pgdir.addTable (j / NPTENTRIES) f)) ((s.after l).write f (Bytes.zero 4096))) :
    Kern L env E Q (walkpgdir pgdir (j * PGSIZE) true) s := by
  unfold walkpgdir
  rw [PDX_mul hj]
  cases ht : pgdir.table (j / NPTENTRIES) with
  | some t => exact wp_pure (hold t ht)
  | none =>
    refine wp_seq (kern_kalloc (fun hr => wp_pure (hnone ht hr)) fun f l hl hr => ?_)
    exact wp_seq (kern_clear (wp_pure (hnew ht f l hl hr)))

/-- One pass of `mappages` for a page that is not present. -/
theorem kern_mapPage {g : ℕ} {perm : BitVec 12}
    (hj : j < 2 ^ 20) (hp : (pgdir.entry j).present = false)
    (hold : ∀ t, pgdir.table (j / NPTENTRIES) = some t →
      Q (some (pgdir.setPte (j * PGSIZE) ⟨g, perm ||| PTE_P⟩)) s)
    (hnone : pgdir.table (j / NPTENTRIES) = none → Refused env s → Q none (s.after s.freelist))
    (hnew : pgdir.table (j / NPTENTRIES) = none → ∀ f l, s.freelist = f :: l → ¬ Refused env s →
      Q (some ((pgdir.addTable (j / NPTENTRIES) f).setPte (j * PGSIZE) ⟨g, perm ||| PTE_P⟩))
        ((s.after l).write f (Bytes.zero 4096))) :
    Kern L env E Q (mapPage perm pgdir (j * PGSIZE) (g * PGSIZE)) s := by
  refine wp_seq (kern_walk_alloc hj (fun t ht => ?_) (fun ht hr => wp_pure (hnone ht hr))
    fun ht f l hl hr => ?_)
  · dsimp only
    rw [PageDir.pte_mul hj, hp, mk'_mul]
    exact wp_pure (hold t ht)
  · dsimp only
    rw [PageDir.pte_mul hj, PageDir.entry_addTable ht, hp, mk'_mul]
    exact wp_pure (hnew ht f l hl hr)

/-- The page after `x`, and the first one after the last. -/
theorem add_page_wrap (x : ℕ) :
    (x % 2 ^ 20 * PGSIZE + PGSIZE) % 2 ^ 32 = (x + 1) % 2 ^ 20 * PGSIZE := by
  change (x % 1048576 * 4096 + 4096) % 4294967296 = (x + 1) % 1048576 * 4096
  omega

/-- The loop of `mappages`, where every pass keeps the invariant. -/
theorem kern_mapLoop_of_pass {I : ℕ → PageDir → Mem → Prop} {Q : Bool × PageDir → Mem → Prop}
    {perm : BitVec 12} {first last g : ℕ} (hlast : last < 2 ^ 20)
    (hpass : ∀ j pgdir t, first ≤ j → j ≤ last → I j pgdir t →
      Kern L env E (fun r u => r.elim (Q (false, pgdir) u) fun d => I (j + 1) d u)
        (mapPage perm pgdir (j * PGSIZE) ((g + (j - first)) % 2 ^ 20 * PGSIZE)) t)
    (hok : ∀ pgdir t, I (last + 1) pgdir t → Q (true, pgdir) t) (n : ℕ) (hj : first ≤ j)
    (hn : j + n = last) (h : I j pgdir s) :
    Kern L env E Q (mapLoop perm n pgdir (j * PGSIZE) ((g + (j - first)) % 2 ^ 20 * PGSIZE)) s := by
  induction n generalizing j pgdir s with
  | zero =>
    refine wp_seq (wp_conseq (hpass j _ _ hj (by omega) h) fun r u hu => ?_)
    cases r with
    | none => exact wp_pure hu
    | some d =>
      obtain rfl : j = last := hn
      exact wp_pure (hok d u hu)
  | succ n ih =>
    refine wp_seq (wp_conseq (hpass j _ _ hj (by omega) h) fun r u hu => ?_)
    cases r with
    | none => exact wp_pure hu
    | some d =>
      have ha : (j * PGSIZE + PGSIZE) % 2 ^ 32 = (j + 1) * PGSIZE := by
        change (j * 4096 + 4096) % 2 ^ 32 = (j + 1) * 4096
        omega
      dsimp only
      rw [ha, add_page_wrap, add_assoc, ← Nat.sub_add_comm hj]
      exact ih (by omega) (by omega) hu

theorem entries_succ {A B C f : ℕ → Pte} {j k : ℕ} (hjk : j ≤ k)
    (hB : ∀ m, B m = if j ≤ m ∧ m < k then f m else A m)
    (hC : ∀ m, C m = if m = k then f k else B m) (m : ℕ) :
    C m = if j ≤ m ∧ m < k + 1 then f m else A m := by
  rw [hC, hB]
  by_cases hm : m = k
  · rw [if_pos hm, if_pos (by omega), hm]
  · rw [if_neg hm]
    have hiff : j ≤ m ∧ m < k + 1 ↔ j ≤ m ∧ m < k := by omega
    simp only [hiff]

end Rules

end Qwin.Vm
