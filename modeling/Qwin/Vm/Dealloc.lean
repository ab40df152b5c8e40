import Mathlib.Data.Finset.Card
import Mathlib.Order.Interval.Finset.Nat
import Qwin.Vm.Walk

/-!
# `deallocuvm`

The loop of `deallocuvm` goes on by as many pages as a page table has when it finds none.
It does so from where it is, so it comes into the next page table at the same place, and
leaves out the pages before it. `Skips` says which pages these are.
-/

namespace Qwin.Vm

open Prog

/-- The number of pages that `x` bytes take. -/
def pages (x : ℕ) : ℕ := (x + (PGSIZE - 1)) / PGSIZE

theorem lt_pages_iff {m x : ℕ} : m < pages x ↔ m * PGSIZE < x := by
  unfold pages PGSIZE
  omega

theorem pgRoundUp_eq {x : ℕ} (h : x ≤ KERNBASE) : pgRoundUp x = pages x * PGSIZE := by
  have hlt : x + (PGSIZE - 1) < 2 ^ 32 := by
    unfold KERNBASE at h
    unfold PGSIZE
    omega
  rw [pgRoundUp, Nat.mod_eq_of_lt hlt, pages]

theorem pages_mono {a b : ℕ} (h : a ≤ b) : pages a ≤ pages b :=
  Nat.div_le_div_right (Nat.add_le_add_right h _)

theorem pages_le {x : ℕ} (h : x ≤ KERNBASE) : pages x ≤ KPAGE := by
  unfold KERNBASE at h
  unfold pages KPAGE PGSIZE KERNBASE
  omega

theorem add_page {n : ℕ} (h : n + 1 < 2 ^ 20) :
    (n * PGSIZE + PGSIZE) % 2 ^ 32 = (n + 1) * PGSIZE := by
  change (n * 4096 + 4096) % 2 ^ 32 = (n + 1) * 4096
  omega

/-- The address of the page at the same place in the next page table. -/
theorem add_pages {n : ℕ} (h : n * PGSIZE < 2 ^ 31) :
    (n * PGSIZE + (NPTENTRIES - 1) * PGSIZE + PGSIZE) % 2 ^ 32 = (n + NPTENTRIES) * PGSIZE := by
  change n * 4096 < 2 ^ 31 at h
  change (n * 4096 + (1024 - 1) * 4096 + 4096) % 2 ^ 32 = (n + 1024) * 4096
  omega

/-- The frames that `kfree` takes are not the first one. -/
theorem Layout.Frame.ne_zero {L : Layout} {f : ℕ} (h : L.Frame f) : f ≠ 0 := by
  rintro rfl
  have h1 := h.1
  have h2 := L.data_le
  have h3 := L.lt_data
  unfold KERNLINK EXTMEM at h3
  omega

/-- The loop that is at page `n` passes over page `m`. -/
def Skips (pgdir : PageDir) (n m : ℕ) : Prop :=
  m % NPTENTRIES < n % NPTENTRIES ∧
    ∀ r, r < m / NPTENTRIES → n / NPTENTRIES ≤ r → (pgdir.table r).isNone = true

instance (pgdir : PageDir) (n m : ℕ) : Decidable (Skips pgdir n m) :=
  inferInstanceAs (Decidable (_ ∧ ∀ r, r < _ → _ → _))

section Skips

variable {pgdir pgdir' : PageDir} {n m : ℕ}

theorem not_skips_of_table {t : Table} (ht : pgdir.table (n / NPTENTRIES) = some t) (hm : n ≤ m) :
    ¬ Skips pgdir n m := by
  rintro ⟨hlt, hnone⟩
  have hr := hnone (n / NPTENTRIES) (by unfold NPTENTRIES at hlt ⊢; omega) le_rfl
  rw [ht] at hr
  cases hr

theorem not_skips_succ {t : Table} (ht : pgdir.table (n / NPTENTRIES) = some t) (hm : n + 1 ≤ m) :
    ¬ Skips pgdir (n + 1) m := by
  by_cases hd : (n + 1) / NPTENTRIES = n / NPTENTRIES
  · exact not_skips_of_table (hd ▸ ht) hm
  · rintro ⟨hlt, -⟩
    unfold NPTENTRIES at hd hlt
    omega

/-- The pages of the next page table that lie before the place of the loop. -/
theorem skips_of_lt (ht : pgdir.table (n / NPTENTRIES) = none) (hm : n ≤ m)
    (hlt : m < n + NPTENTRIES) (hp : (pgdir.entry m).present = true) : Skips pgdir n m := by
  have hne : m / NPTENTRIES ≠ n / NPTENTRIES := by
    intro he
    rw [PageDir.entry_of_none (he ▸ ht)] at hp
    cases hp
  have hr : m / NPTENTRIES = n / NPTENTRIES + 1 := by
    unfold NPTENTRIES at hlt hne ⊢
    omega
  refine ⟨by unfold NPTENTRIES at hlt hr ⊢; omega, fun r hrm hrn => ?_⟩
  obtain rfl : r = n / NPTENTRIES := by omega
  rw [ht]
  rfl

theorem skips_stride (ht : pgdir.table (n / NPTENTRIES) = none) :
    Skips pgdir (n + NPTENTRIES) m ↔ Skips pgdir n m := by
  have hd : (n + NPTENTRIES) / NPTENTRIES = n / NPTENTRIES + 1 := Nat.add_div_right n (by decide)
  unfold Skips
  rw [hd, Nat.add_mod_right]
  refine and_congr_right fun hlt => ⟨fun h r hrm hrn => ?_, fun h r hrm hrn => ?_⟩
  · rcases Nat.eq_or_lt_of_le hrn with rfl | hlt'
    · rw [ht]
      rfl
    · exact h r hrm hlt'
  · exact h r hrm (Nat.le_of_succ_le hrn)

theorem skips_congr (h : ∀ r, (pgdir'.table r).isNone = (pgdir.table r).isNone) :
    Skips pgdir' n m ↔ Skips pgdir n m := by
  simp only [Skips, h]

end Skips

/-- The loop frees page `m` on its way from page `n` to page `N`. -/
def Drops (pgdir : PageDir) (n N m : ℕ) : Prop :=
  n ≤ m ∧ m < N ∧ ¬ Skips pgdir n m ∧ (pgdir.entry m).present = true

instance (pgdir : PageDir) (n N m : ℕ) : Decidable (Drops pgdir n N m) :=
  inferInstanceAs (Decidable (_ ∧ _ ∧ _ ∧ _))

/-- What the loop of `deallocuvm` does to the directory and to the memory. -/
structure Dropped (pgdir : PageDir) (n N : ℕ) (s : Mem) (pgdir' : PageDir) (t : Mem) :
    Prop where
  entry : ∀ m, pgdir'.entry m = if Drops pgdir n N m then Pte.zero else pgdir.entry m
  frame : pgdir'.frame = pgdir.frame
  table : ∀ r, (pgdir'.table r).map Table.frame = (pgdir.table r).map Table.frame
  freelist : ∀ f, t.freelist.count f = s.freelist.count f +
    ((Finset.range N).filter fun m => Drops pgdir n N m ∧ (pgdir.entry m).frame = f).card
  page : ∀ f, (∀ m, Drops pgdir n N m → (pgdir.entry m).frame ≠ f) → t.page f = s.page f
  calls : t.calls = s.calls

/-- The pages of the range are pages that can be freed. -/
def Freeable (L : Layout) (pgdir : PageDir) (n N : ℕ) : Prop :=
  ∀ m, n ≤ m → m < N → (pgdir.entry m).present = true → L.Frame (pgdir.entry m).frame

namespace Dropped

variable {L : Layout} {pgdir pgdir' : PageDir} {n N : ℕ} {s t : Mem}

theorem done (h : N ≤ n) : Dropped pgdir n N s pgdir s := by
  have hno : ∀ m, ¬ Drops pgdir n N m := fun m hm => by
    have := hm.1
    have := hm.2.1
    omega
  refine ⟨fun m => by rw [if_neg (hno m)], rfl, fun _ => rfl, fun f => ?_, fun _ _ => rfl, rfl⟩
  simp [hno]

/-- The loop goes on after pages none of which it frees. -/
theorem pass {n' : ℕ} (hd : ∀ m, Drops pgdir n' N m ↔ Drops pgdir n N m)
    (h : Dropped pgdir n' N s pgdir' t) : Dropped pgdir n N s pgdir' t := by
  refine ⟨fun m => ?_, h.frame, h.table, fun f => ?_, fun f hf => ?_, h.calls⟩
  · rw [h.entry m]
    simp only [hd]
  · rw [h.freelist f]
    simp only [hd]
  · exact h.page f fun m hm => hf m ((hd m).1 hm)

theorem free {x : Table} (hn : n < N) (hN : N ≤ KPAGE)
    (hx : pgdir.table (n / NPTENTRIES) = some x) (hp : (pgdir.entry n).present = true)
    (h : Dropped (pgdir.setPte (n * PGSIZE) Pte.zero) (n + 1) N
      (s.freed (pgdir.entry n).frame) pgdir' t) : Dropped pgdir n N s pgdir' t := by
  have hlt : n < 2 ^ 20 := lt_trans (lt_of_lt_of_le hn hN) (by decide)
  have hentry := fun m => PageDir.entry_setPte (m := m) (e := Pte.zero) hlt hx
  have hnone : ∀ r, ((pgdir.setPte (n * PGSIZE) Pte.zero).table r).isNone =
      (pgdir.table r).isNone := by
    intro r
    rw [PageDir.table_setPte hlt, Option.isNone_map]
  -- the pages that are freed are page `n` and those freed afterwards
  have hdrops : ∀ m, Drops (pgdir.setPte (n * PGSIZE) Pte.zero) (n + 1) N m ↔
      m ≠ n ∧ Drops pgdir n N m := by
    intro m
    unfold Drops
    rw [hentry m, skips_congr hnone]
    constructor
    · rintro ⟨h1, h2, h3, h4⟩
      have hne : m ≠ n := by omega
      rw [if_neg hne] at h4
      exact ⟨hne, by omega, h2, not_skips_of_table hx (by omega), h4⟩
    · rintro ⟨hne, h1, h2, h3, h4⟩
      rw [if_neg hne]
      exact ⟨by omega, h2, not_skips_succ hx (by omega), h4⟩
  have hself : Drops pgdir n N n := ⟨le_rfl, hn, not_skips_of_table hx le_rfl, hp⟩
  refine ⟨fun m => ?_, h.frame, fun r => ?_, fun f => ?_, fun f hf => ?_, h.calls⟩
  · rw [h.entry m, hentry m]
    simp only [hdrops]
    by_cases hm : m = n
    · simp [hm, hself]
    · simp [hm]
  · rw [h.table r, PageDir.table_setPte hlt, Option.map_map]
    congr 1
    funext y
    dsimp only [Function.comp]
    split <;> rfl
  · have hcard : ((Finset.range N).filter fun m =>
          Drops (pgdir.setPte (n * PGSIZE) Pte.zero) (n + 1) N m ∧
            ((pgdir.setPte (n * PGSIZE) Pte.zero).entry m).frame = f) =
        ((Finset.range N).filter fun m => Drops pgdir n N m ∧ (pgdir.entry m).frame = f).erase n := by
      ext m
      rw [Finset.mem_erase, Finset.mem_filter, Finset.mem_filter, hdrops, hentry]
      by_cases hm : m = n
      · simp [hm]
      · simp [hm]
    rw [h.freelist f, hcard, Mem.freed, List.count_cons]
    by_cases hf : (pgdir.entry n).frame = f
    · have hmem : n ∈ (Finset.range N).filter
          fun m => Drops pgdir n N m ∧ (pgdir.entry m).frame = f :=
        Finset.mem_filter.2 ⟨Finset.mem_range.2 hn, hself, hf⟩
      rw [Finset.card_erase_of_mem hmem, if_pos (beq_iff_eq.2 hf)]
      have hpos := Finset.card_pos.2 ⟨n, hmem⟩
      omega
    · have hmem : n ∉ (Finset.range N).filter
          fun m => Drops pgdir n N m ∧ (pgdir.entry m).frame = f := fun hmem =>
        hf (Finset.mem_filter.1 hmem).2.2
      rw [Finset.erase_eq_of_notMem hmem, if_neg (by simpa using hf), Nat.add_zero]
  · have hne : f ≠ (pgdir.entry n).frame := (hf n hself).symm
    rw [h.page f fun m hm => ?_]
    · exact Function.update_of_ne hne _ _
    · obtain ⟨hmn, hm⟩ := (hdrops m).1 hm
      rw [hentry m, if_neg hmn]
      exact hf m hm

end Dropped

section

variable {L : Layout} {env : Env} {E : Stop → Prop} {s : Mem} {pgdir : PageDir} {oldsz newsz : ℕ}

theorem Freeable.setPte {n : ℕ} {x : Table} (h : Freeable L pgdir n (pages oldsz))
    (hn : n < 2 ^ 20) (hx : pgdir.table (n / NPTENTRIES) = some x) :
    Freeable L (pgdir.setPte (n * PGSIZE) Pte.zero) (n + 1) (pages oldsz) := by
  intro m h1 h2 hp
  have hne : m ≠ n := by omega
  rw [PageDir.entry_setPte hn hx, if_neg hne] at hp ⊢
  exact h m (by omega) h2 hp

theorem kern_deallocLoop {Q : PageDir → Mem → Prop} (holdsz : oldsz ≤ KERNBASE) (fuel n : ℕ)
    (hfuel : pages oldsz ≤ n + fuel) (hfree : Freeable L pgdir n (pages oldsz))
    (hQ : ∀ pgdir' t, Dropped pgdir n (pages oldsz) s pgdir' t → Q pgdir' t) :
    Kern L env E Q (deallocLoop oldsz fuel pgdir (n * PGSIZE)) s := by
  induction fuel generalizing n pgdir s with
  | zero => exact wp_pure (hQ _ _ (.done hfuel))
  | succ fuel ih =>
    unfold deallocLoop
    by_cases hn : n * PGSIZE < oldsz
    · have hlt : n < pages oldsz := lt_pages_iff.2 hn
      have hN := pages_le holdsz
      have h20 : n + NPTENTRIES < 2 ^ 20 :=
        lt_of_lt_of_le (Nat.add_lt_add_right (lt_of_lt_of_le hlt hN) NPTENTRIES) (by decide)
      have h31 : n * PGSIZE < 2 ^ 31 := lt_of_lt_of_le hn holdsz
      have hstep := add_page (lt_of_le_of_lt (Nat.add_le_add_left (show 1 ≤ NPTENTRIES by decide) n) h20)
      have hstride := add_pages h31
      have h20' : n < 2 ^ 20 := by omega
      rw [if_pos hn]
      refine wp_seq (kern_walk h20' (fun ht => ?_) fun x hx => ?_)
      · -- no page table: the pages up to the stride are absent or passed over
        rw [hstride]
        refine ih _ (by unfold NPTENTRIES; omega) (fun m hm => hfree m (by omega))
          fun pgdir' t hdrop => hQ _ _ (hdrop.pass fun m => ?_)
        unfold Drops
        rw [skips_stride ht]
        constructor
        · rintro ⟨h1, h2⟩
          exact ⟨by omega, h2⟩
        · rintro ⟨h1, h2, h3, h4⟩
          refine ⟨?_, h2, h3, h4⟩
          by_contra hlt'
          exact h3 (skips_of_lt ht h1 (not_le.1 hlt') h4)
      · dsimp only
        rw [PageDir.pte_mul h20', hstep]
        by_cases hp : (pgdir.entry n).present = true
        · have hframe := hfree n le_rfl hlt hp
          rw [if_pos hp, if_neg hframe.ne_zero]
          refine wp_seq (kern_kfree hframe ?_)
          refine ih _ (by omega) (hfree.setPte h20' hx) fun pgdir' t hdrop => ?_
          exact hQ _ _ (hdrop.free hlt hN hx hp)
        · rw [if_neg hp]
          refine ih _ (by omega) (fun m hm => hfree m (by omega)) fun pgdir' t hdrop =>
            hQ _ _ (hdrop.pass fun m => ?_)
          unfold Drops
          constructor
          · rintro ⟨h1, h2, -, h4⟩
            exact ⟨by omega, h2, not_skips_of_table hx (by omega), h4⟩
          · rintro ⟨h1, h2, -, h4⟩
            have hne : m ≠ n := fun he => hp (he ▸ h4)
            exact ⟨by omega, h2, not_skips_succ hx (by omega), h4⟩
    · rw [if_neg hn]
      exact wp_pure (hQ _ _ (.done (not_lt.1 fun hlt => hn (lt_pages_iff.1 hlt))))

theorem kern_deallocuvm {Q : ℕ × PageDir → Mem → Prop} (holdsz : oldsz ≤ KERNBASE)
    (hlt : newsz < oldsz) (hfree : Freeable L pgdir (pages newsz) (pages oldsz))
    (hQ : ∀ pgdir' t, Dropped pgdir (pages newsz) (pages oldsz) s pgdir' t →
      Q (newsz, pgdir') t) : Kern L env E Q (deallocuvm pgdir oldsz newsz) s := by
  unfold deallocuvm
  rw [if_neg (not_le.2 hlt), pgRoundUp_eq (le_trans (le_of_lt hlt) holdsz)]
  refine wp_seq (kern_deallocLoop holdsz _ _ ?_ hfree fun pgdir' t h => wp_pure (hQ _ _ h))
  unfold pages PGSIZE
  omega

theorem exists_dropped (env : Env) (s : Mem) (holdsz : oldsz ≤ KERNBASE) (hlt : newsz < oldsz)
    (hfree : Freeable L pgdir (pages newsz) (pages oldsz)) :
    ∃ pgdir' t, (deallocuvm pgdir oldsz newsz).run (sem L env) s = .ok ((newsz, pgdir'), t) ∧
      Dropped pgdir (pages newsz) (pages oldsz) s pgdir' t := by
  have hkern : Kern L env (fun _ => False) (fun r t => r.1 = newsz ∧
      Dropped pgdir (pages newsz) (pages oldsz) s r.2 t) (deallocuvm pgdir oldsz newsz) s :=
    kern_deallocuvm holdsz hlt hfree fun pgdir' t h => ⟨rfl, h⟩
  obtain ⟨⟨_, pgdir'⟩, t, hrun, rfl, h⟩ := wp_run_exists hkern
  exact ⟨pgdir', t, hrun, h⟩

end

/-! ## What is left behind -/

/-- `deallocuvm` ends, no page of the range is present, every page that was has been freed
once, and every other page is mapped as before. -/
def LeavesNothing (L : Layout) (env : Env) (pgdir : PageDir) (oldsz newsz : ℕ) (s : Mem) : Prop :=
  ∃ pgdir' t, (deallocuvm pgdir oldsz newsz).run (sem L env) s = .ok ((newsz, pgdir'), t) ∧
    (∀ m, pages newsz ≤ m → m < pages oldsz → (pgdir'.entry m).present = false) ∧
    (∀ f, t.freelist.count f = s.freelist.count f +
      ((Finset.range (pages oldsz)).filter fun m => pages newsz ≤ m ∧
        (pgdir.entry m).present = true ∧ (pgdir.entry m).frame = f).card) ∧
    ∀ m, m < pages newsz ∨ pages oldsz ≤ m → pgdir'.entry m = pgdir.entry m

/-- Nothing is left behind exactly when no page that is present is passed over. -/
theorem leaves_nothing_iff (L : Layout) (env : Env) (pgdir : PageDir) (oldsz newsz : ℕ) (s : Mem)
    (hlt : newsz < oldsz) (holdsz : oldsz ≤ KERNBASE)
    (hfree : Freeable L pgdir (pages newsz) (pages oldsz)) :
    LeavesNothing L env pgdir oldsz newsz s ↔
      ∀ m, pages newsz ≤ m → m < pages oldsz → (pgdir.entry m).present = true →
        ¬ Skips pgdir (pages newsz) m := by
  obtain ⟨pgdir', t, hrun, hdrop⟩ := exists_dropped env s holdsz hlt hfree
  constructor
  · rintro ⟨pgdir1, t1, hrun1, habsent, -, -⟩ m h1 h2 hp hskip
    rw [hrun] at hrun1
    obtain ⟨⟨-, rfl⟩, rfl⟩ : ((newsz = newsz) ∧ pgdir' = pgdir1) ∧ t = t1 := by
      simpa using hrun1
    have := habsent m h1 h2
    rw [hdrop.entry m, if_neg fun hd => hd.2.2.1 hskip, hp] at this
    cases this
  · intro hnoskip
    have hiff : ∀ m, Drops pgdir (pages newsz) (pages oldsz) m ↔
        pages newsz ≤ m ∧ m < pages oldsz ∧ (pgdir.entry m).present = true :=
      fun m => ⟨fun h => ⟨h.1, h.2.1, h.2.2.2⟩, fun h => ⟨h.1, h.2.1, hnoskip m h.1 h.2.1 h.2.2, h.2.2⟩⟩
    refine ⟨pgdir', t, hrun, fun m h1 h2 => ?_, fun f => ?_, fun m hm => ?_⟩
    · rw [hdrop.entry m]
      split
      · rfl
      next hd =>
        rw [hiff] at hd
        exact Bool.eq_false_iff.2 fun hp => hd ⟨h1, h2, hp⟩
    · rw [hdrop.freelist f]
      congr 2
      ext m
      simp only [Finset.mem_filter, Finset.mem_range, hiff]
      tauto
    · rw [hdrop.entry m, if_neg fun hd => ?_]
      have := hd.1
      have := hd.2.1
      omega

def smallKernel : Layout where
  data := KERNLINK + 0x8000
  kend := KERNLINK + 0x10000
  data_aligned := by decide
  lt_data := by decide
  data_le := by decide
  kend_le := by decide
  data_lt := by decide

/-- A directory with one page table, the second, and one page, the first in it. -/
def lonePage : PageDir where
  frame := 512
  table r := if r = 1 then some ⟨513, fun i => if i = 0 then ⟨514, PTE_P ||| PTE_U⟩ else Pte.zero⟩
    else none

def emptyMem : Mem := ⟨fun _ => Bytes.zero 4096, [], 0⟩

theorem freeable_lonePage (n N : ℕ) : Freeable smallKernel lonePage n N := by
  intro m _ _ hp
  obtain ⟨t, ht⟩ := PageDir.table_of_present hp
  have h1 : m / NPTENTRIES = 1 := by
    by_contra h1
    simp [lonePage, h1] at ht
  have h0 : m % NPTENTRIES = 0 := by
    by_contra h0
    simp [PageDir.entry, lonePage, h1, h0] at hp
  have hentry : lonePage.entry m = ⟨514, PTE_P ||| PTE_U⟩ := by
    simp [PageDir.entry, lonePage, h1, h0]
  rw [hentry]
  decide

theorem leaves_nothing_aligned :
    LeavesNothing smallKernel ⟨fun _ => false, Pte.zero⟩ lonePage 0x500000 0 emptyMem :=
  (leaves_nothing_iff _ _ _ _ _ _ (by decide) (by decide) (freeable_lonePage _ _)).2
    fun m _ _ _ h => absurd h.1 (Nat.not_lt_zero _)

/-- From the second page on the loop jumps over the first page of the next page table. -/
theorem lone_page_stays :
    ¬ LeavesNothing smallKernel ⟨fun _ => false, Pte.zero⟩ lonePage 0x500000 4096 emptyMem := by
  rintro ⟨pgdir1, t1, hrun1, habsent, -, -⟩
  obtain ⟨pgdir', t, hrun, hdrop⟩ := exists_dropped ⟨fun _ => false, Pte.zero⟩ emptyMem
    (show 0x500000 ≤ KERNBASE by decide) (show 4096 < 0x500000 by decide)
    (freeable_lonePage _ _)
  rw [hrun] at hrun1
  obtain ⟨rfl, -⟩ : pgdir' = pgdir1 ∧ t = t1 := by simpa using hrun1
  have hgone := habsent 1024 (by decide) (by decide)
  rw [hdrop.entry, if_neg (by decide)] at hgone
  exact absurd hgone (by decide)

end Qwin.Vm
