import Qwin.Vm.Alloc

/-!
# The size of a process

`growproc` hands the size and its change to `allocuvm` or to `deallocuvm` and takes their
result 0 for a failure. A process that gives back all its memory therefore loses its pages and
is told that nothing happened, and one that gives back more than it has is told that it
succeeded. For all other changes the call is atomic, as long as `allocuvm` is.
-/

namespace Qwin.Vm

open Prog

/-- The user part of a process of size `sz`: its pages are there, in frames of their own that
the allocator can take back, and the free list is sound. -/
structure UserSpace (L : Layout) (pgdir : PageDir) (sz : ℕ) (s : Mem) : Prop where
  sz_le : sz ≤ KERNBASE
  present_iff : ∀ m, m < KPAGE → ((pgdir.entry m).present = true ↔ m < pages sz)
  frame : ∀ m, m < pages sz → L.Frame (pgdir.entry m).frame
  inj : ∀ m m', m < pages sz → m' < pages sz →
    (pgdir.entry m).frame = (pgdir.entry m').frame → m = m'
  apart : Apart pgdir s
  sound : Sound L s

/-- What the caller of `growproc` may rely on: after 0 the size has changed by `n` and exactly
the pages of the new size are there, the old ones as they were and the new ones with zeroes;
after -1 the size and the pages are as before. -/
def Grown (pgdir : PageDir) (sz : ℕ) (n : ℤ) (s : Mem) (r : ℤ × ℕ × PageDir) (t : Mem) : Prop :=
  (r.1 = 0 ∧ (r.2.1 : ℤ) = sz + n ∧
    ∀ m, m < KPAGE → ((r.2.2.entry m).present = true ↔ m < pages r.2.1) ∧
      (m < pages sz → m < pages r.2.1 → SamePage pgdir s r.2.2 t m) ∧
      (pages sz ≤ m → m < pages r.2.1 → t.page (r.2.2.entry m).frame = Bytes.zero 4096)) ∨
  (r.1 = -1 ∧ r.2.1 = sz ∧
    ∀ m, m < KPAGE → ((r.2.2.entry m).present = true ↔ (pgdir.entry m).present = true) ∧
      (m < pages sz → SamePage pgdir s r.2.2 t m))

/-- `growproc` comes back, and its caller may rely on what it says. -/
def GrowsAtomically (L : Layout) (env : Env) (pgdir : PageDir) (sz : ℕ) (n : ℤ) (s : Mem) : Prop :=
  ∃ r t, (growproc pgdir sz n).run (sem L env) s = .ok (r, t) ∧ Grown pgdir sz n s r t

/-- The changes that `growproc` makes atomically: an increase, unless it is to stay below
`KERNBASE` and a page table is refused but no page; and a decrease that leaves something. -/
def Grows (env : Env) (pgdir : PageDir) (sz : ℕ) (n : ℤ) (s : Mem) : Prop :=
  (0 < n → KERNBASE ≤ sz + n ∨ plan env (pages (sz + n).toNat - pages sz) (pages sz) pgdir.has
    s.calls s.freelist.length ≠ some true) ∧
  (n < 0 → -n < sz ∨ sz = 0)

section

variable {L : Layout} {env : Env} {pgdir pgdir' : PageDir} {sz newsz : ℕ} {n : ℤ} {s t : Mem}
  {l : List ℕ}

theorem SamePage.refl (pgdir : PageDir) (s : Mem) (m : ℕ) : SamePage pgdir s pgdir s m :=
  ⟨rfl, rfl⟩

theorem grown_refused (pgdir : PageDir) (sz : ℕ) (n : ℤ) (s : Mem) :
    Grown pgdir sz n s (-1, sz, pgdir) s :=
  Or.inr ⟨rfl, rfl, fun m _ => ⟨Iff.rfl, fun _ => .refl pgdir s m⟩⟩

section

variable (h : UserSpace L pgdir sz s)
include h

theorem grown_restored (hres : Restored pgdir (pages sz) s pgdir' t) :
    Grown pgdir sz n s (-1, sz, pgdir') t := by
  refine Or.inr ⟨rfl, rfl, fun m hm => ⟨?_, hres.samePage h.apart h.present_iff h.sz_le⟩⟩
  exact (hres.present_iff h.present_iff hm).trans (h.present_iff m hm).symm

theorem grown_filled_iff (hle : sz ≤ newsz) (hlt : newsz < KERNBASE)
    (hnewsz : (newsz : ℤ) = sz + n) (hfill : Filled pgdir (pages sz) (pages newsz) s l pgdir' t) :
    Grown pgdir sz n s (0, newsz, pgdir') t ↔ Complete pgdir' (pages sz) (pages newsz) := by
  constructor
  · rintro (⟨-, -, hg⟩ | ⟨h1, -⟩)
    · intro m _ hm
      exact (hg m (lt_of_lt_of_le hm (pages_le (le_of_lt hlt)))).1.2 hm
    · cases h1
  · intro hall
    refine Or.inl ⟨rfl, hnewsz, fun m hm => ⟨?_, fun h1 _ => ?_, fun h1 h2 => ?_⟩⟩
    · exact hfill.present_iff hall h.present_iff (pages_mono hle) hm
    · exact hfill.samePage h.apart h.present_iff h.sz_le h1
    · exact (hfill.newPage h.present_iff h1 h2 hm (hall m h1 h2)).2

/-- The loop of `deallocuvm` meets every page of the process. -/
theorem UserSpace.drops_iff {m : ℕ} :
    Drops pgdir (pages newsz) (pages sz) m ↔ pages newsz ≤ m ∧ m < pages sz := by
  refine ⟨fun hd => ⟨hd.1, hd.2.1⟩, fun ⟨h1, h2⟩ => ⟨h1, h2, ?_, ?_⟩⟩
  · have hK := pages_le h.sz_le
    have hn := (h.present_iff (pages newsz) (by omega)).2 (lt_of_le_of_lt h1 h2)
    obtain ⟨x, hx⟩ := PageDir.table_of_present hn
    exact not_skips_of_table hx h1
  · exact (h.present_iff m (lt_of_lt_of_le h2 (pages_le h.sz_le))).2 h2

theorem UserSpace.freeable (k : ℕ) : Freeable L pgdir k (pages sz) :=
  fun m _ hm _ => h.frame m hm

theorem grown_dropped (hlt : newsz < sz) (hnewsz : (newsz : ℤ) = sz + n)
    (hdrop : Dropped pgdir (pages newsz) (pages sz) s pgdir' t) :
    Grown pgdir sz n s (0, newsz, pgdir') t := by
  have hd : ∀ m, Drops pgdir (pages newsz) (pages sz) m ↔ pages newsz ≤ m ∧ m < pages sz :=
    fun m => h.drops_iff
  have hmono : pages newsz ≤ pages sz := pages_mono (le_of_lt hlt)
  refine Or.inl ⟨rfl, hnewsz, fun m hm => ⟨?_, fun h1 h2 => ⟨?_, ?_⟩, fun h1 h2 => ?_⟩⟩
  · rw [hdrop.entry m]
    split
    next hm' => exact iff_of_false (by decide) (not_lt.2 hm'.1)
    next hm' =>
      rw [hd] at hm'
      rw [h.present_iff m hm]
      change m < pages sz ↔ m < pages newsz
      omega
  · exact (hdrop.entry m).trans (if_neg fun hm' => absurd h2 (not_lt.2 hm'.1))
  · refine hdrop.page _ fun m' hm' he => ?_
    rw [hd] at hm'
    obtain rfl := h.inj m' m hm'.2 h1 he
    exact absurd h2 (not_lt.2 hm'.1)
  · exact absurd (lt_of_lt_of_le h2 hmono) (not_lt.2 h1)

theorem not_grown_emptied (hsz : 0 < sz) (hdrop : Dropped pgdir (pages 0) (pages sz) s pgdir' t) :
    ¬ Grown pgdir sz n s (-1, sz, pgdir') t := by
  have h0 : 0 < pages sz := lt_pages_iff.2 (by simpa using hsz)
  have hK : 0 < KPAGE := by decide
  rintro (⟨h1, -⟩ | ⟨-, -, hg⟩)
  · cases h1
  · have hp := (hg 0 hK).1.2 ((h.present_iff 0 hK).2 h0)
    have hd : Drops pgdir (pages 0) (pages sz) 0 := h.drops_iff.2 ⟨le_rfl, h0⟩
    rw [hdrop.entry 0, if_pos hd] at hp
    cases hp

end

abbrev GrowsRight (L : Layout) (env : Env) (pgdir : PageDir) (sz : ℕ) (n : ℤ) (s : Mem) : Prop :=
  Kern L env (fun _ => False) (fun r t => Grown pgdir sz n s r t ↔ Grows env pgdir sz n s)
    (growproc pgdir sz n) s

variable (env) (h : UserSpace L pgdir sz s)
include h

theorem kern_growproc_pos (hpos : 0 < n) (hhi : n < 2 ^ 31) : GrowsRight L env pgdir sz n s := by
  have hsz := h.sz_le
  have hK : KERNBASE = 2 ^ 31 := rfl
  have hmod : (sz + n) % 2 ^ 32 = sz + n := Int.emod_eq_of_lt (by omega) (by omega)
  have hcast : ((sz + n).toNat : ℤ) = sz + n := Int.toNat_of_nonneg (by omega)
  simp only [GrowsRight, growproc, if_pos hpos, hmod]
  by_cases hbig : KERNBASE ≤ (sz + n).toNat
  · refine wp_seq ?_
    rw [allocuvm, if_pos hbig]
    refine wp_pure (wp_pure (iff_of_true (grown_refused pgdir sz n s) ⟨fun _ => ?_, ?_⟩))
    · left
      omega
    · omega
  · refine wp_seq (kern_allocuvm h.sound (by omega) (by omega)
      (absent_of_present_iff h.present_iff) ?_ ?_)
    · intro hplan pgdir' t hundone
      have hres := hundone.restored (by omega) (by omega) h.present_iff
      refine wp_pure (iff_of_true (grown_restored h hres) ⟨fun _ => Or.inr ?_, by omega⟩)
      rw [hplan]
      exact nofun
    · intro b l pgdir' t hplan hfill hc _
      simp only [if_neg (show (sz + n).toNat ≠ 0 by omega)]
      refine wp_pure ?_
      rw [grown_filled_iff h (by omega) (by omega) hcast hfill, hc, Grows, hplan]
      refine ⟨?_, fun hg => ?_⟩
      · rintro rfl
        exact ⟨fun _ => Or.inr nofun, fun hneg => absurd hneg (by omega)⟩
      · rcases hg.1 hpos with hle | hb
        · omega
        · simpa using hb

theorem kern_growproc_neg (hneg : n < 0) (hlo : -2 ^ 31 ≤ n) : GrowsRight L env pgdir sz n s := by
  have hsz := h.sz_le
  have hK : KERNBASE = 2 ^ 31 := rfl
  have hpos : ¬ 0 < n := by omega
  have hiff : Grows env pgdir sz n s ↔ -n < sz ∨ sz = 0 := by simp [Grows, hneg, hpos]
  simp only [GrowsRight, hiff, growproc, if_neg hpos, if_pos hneg]
  refine wp_seq ?_
  by_cases hle : -n ≤ sz
  · have hmod : (sz + n) % 2 ^ 32 = sz + n := Int.emod_eq_of_lt (by omega) (by omega)
    have hcast : ((sz + n).toNat : ℤ) = sz + n := Int.toNat_of_nonneg (by omega)
    rw [hmod]
    refine kern_deallocuvm hsz (by omega) (h.freeable _) fun pgdir' t hdrop => ?_
    by_cases h0 : (sz + n).toNat = 0
    · simp only [h0, if_true]
      rw [h0] at hdrop
      refine wp_pure (iff_of_false (not_grown_emptied h (by omega) hdrop) ?_)
      omega
    · simp only [if_neg h0]
      exact wp_pure (iff_of_true (grown_dropped h (by omega) hcast hdrop) (by omega))
  · -- the new size wraps round and is not smaller
    have hmod : (sz + n) % 2 ^ 32 = sz + n + 2 ^ 32 := by omega
    rw [hmod, deallocuvm, if_pos (by omega)]
    refine wp_pure ?_
    by_cases h0 : sz = 0
    · subst h0
      exact wp_pure (iff_of_true (grown_refused pgdir 0 n s) (Or.inr rfl))
    · simp only [if_neg h0]
      refine wp_pure (iff_of_false ?_ (by omega))
      rintro (⟨-, hszn, -⟩ | ⟨h1, -⟩)
      · simp only at hszn
        omega
      · cases h1

theorem kern_growproc_zero : GrowsRight L env pgdir sz 0 s := by
  refine wp_pure (iff_of_true (Or.inl ⟨rfl, by simp, fun m hm => ?_⟩) ⟨by simp, by simp⟩)
  exact ⟨h.present_iff m hm, fun _ _ => .refl pgdir s m, fun h1 h2 => absurd h2 (not_lt.2 h1)⟩

theorem kern_growproc (hlo : -2 ^ 31 ≤ n) (hhi : n < 2 ^ 31) : GrowsRight L env pgdir sz n s := by
  rcases lt_trichotomy n 0 with hneg | rfl | hpos
  · exact kern_growproc_neg env h hneg hlo
  · exact kern_growproc_zero env h
  · exact kern_growproc_pos env h hpos hhi

end

/-- `growproc` is atomic for exactly these changes. -/
theorem growproc_atomic_iff (L : Layout) (env : Env) (pgdir : PageDir) (sz : ℕ) (n : ℤ) (s : Mem)
    (h : UserSpace L pgdir sz s) (hlo : -2 ^ 31 ≤ n) (hhi : n < 2 ^ 31) :
    GrowsAtomically L env pgdir sz n s ↔ Grows env pgdir sz n s := by
  obtain ⟨r, t, hrun, hiff⟩ := wp_run_exists (kern_growproc env h hlo hhi)
  rw [← hiff]
  refine ⟨?_, fun hg => ⟨r, t, hrun, hg⟩⟩
  rintro ⟨r1, t1, hrun1, hg⟩
  rw [hrun] at hrun1
  cases hrun1
  exact hg

theorem userSpace_noTables : UserSpace smallKernel noTables 0 twoFree where
  sz_le := Nat.zero_le _
  present_iff m _ := noTables_present m
  frame m hm := absurd hm (Nat.not_lt_zero m)
  inj m _ hm _ _ := absurd hm (Nat.not_lt_zero m)
  apart m _ hp := absurd ((noTables_present m).1 hp) (Nat.not_lt_zero m)
  sound := sound_twoFree

theorem grows_atomically_first_page :
    GrowsAtomically smallKernel ⟨fun _ => false, Pte.zero⟩ noTables 0 4096 twoFree :=
  (growproc_atomic_iff _ _ _ _ _ _ userSpace_noTables (by decide) (by decide)).2
    ⟨fun _ => Or.inr (by decide), fun h => absurd h (by decide)⟩

def firstPage : PageDir where
  frame := 512
  table r := if r = 0 then some ⟨513, fun i => if i = 0 then ⟨514, userFlags⟩ else Pte.zero⟩
    else none

theorem firstPage_entry (m : ℕ) :
    firstPage.entry m = if m = 0 then ⟨514, userFlags⟩ else Pte.zero := by
  by_cases hm : m = 0
  · subst hm
    rfl
  · by_cases hr : m / NPTENTRIES = 0
    · have hi : m % NPTENTRIES ≠ 0 := by
        unfold NPTENTRIES at hr ⊢
        omega
      simp [PageDir.entry, firstPage, hr, hi, hm]
    · simp [PageDir.entry, firstPage, hr, hm]

theorem firstPage_present (m : ℕ) : (firstPage.entry m).present = true ↔ m < pages 4096 := by
  have h1 : pages 4096 = 1 := rfl
  rw [firstPage_entry, h1, Nat.lt_one_iff]
  by_cases hm : m = 0
  · simp [hm, Pte.present, userFlags, PTE_P, PTE_W, PTE_U]
  · simp [hm, Pte.present, Pte.zero]

theorem userSpace_firstPage : UserSpace smallKernel firstPage 4096 emptyMem where
  sz_le := by decide
  present_iff m _ := firstPage_present m
  frame m hm := by
    rw [firstPage_entry, if_pos (Nat.lt_one_iff.1 hm)]
    decide
  inj m m' hm hm' _ := (Nat.lt_one_iff.1 hm).trans (Nat.lt_one_iff.1 hm').symm
  apart _ _ _ := List.not_mem_nil
  sound := ⟨List.nodup_nil, nofun⟩

/-- Giving back everything loses the page and fails, and giving back more succeeds and does
nothing. -/
theorem gives_back_too_much :
    ¬ GrowsAtomically smallKernel ⟨fun _ => false, Pte.zero⟩ firstPage 4096 (-4096) emptyMem ∧
      ¬ GrowsAtomically smallKernel ⟨fun _ => false, Pte.zero⟩ firstPage 4096 (-8192) emptyMem := by
  have hno : ∀ n : ℤ, -2 ^ 31 ≤ n → n ≤ -4096 →
      ¬ GrowsAtomically smallKernel ⟨fun _ => false, Pte.zero⟩ firstPage 4096 n emptyMem := by
    rintro n hlo hle ⟨r, t, hrun, hg⟩
    obtain ⟨r1, t1, hrun1, hiff⟩ := wp_run_exists (kern_growproc ⟨fun _ => false, Pte.zero⟩
      userSpace_firstPage hlo (by omega))
    rw [hrun] at hrun1
    cases hrun1
    have := (hiff.1 hg).2 (by omega)
    omega
  exact ⟨hno _ (by decide) (by decide), hno _ (by decide) (by decide)⟩

end Qwin.Vm
