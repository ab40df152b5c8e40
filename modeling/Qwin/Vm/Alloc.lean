import Qwin.Vm.Dealloc

/-!
# `allocuvm`

`allocuvm` asks for a page for every user page and, through `mappages`, for a page for a
page table that is missing. It gives everything back when the first kind is refused. A
refusal of the second kind is not noticed: the user page stays unmapped, and the loop goes
on. `plan` says which of these happens, from the calls of `kalloc` that fail.
-/

namespace Qwin.Vm

open Prog List
open Function (update update_of_ne update_self)

/-! ## One page -/

section

variable {α : Type} {L : Layout} {env : Env} {E : Stop → Prop} {s : Mem} {pgdir : PageDir}
  {j g : ℕ} {perm : BitVec 12}

theorem mappages_pages (pgdir : PageDir) {n : ℕ} (hj : j + n < 2 ^ 20) (pa : ℕ)
    (perm : BitVec 12) :
    mappages pgdir (j * PGSIZE) ((n + 1) * PGSIZE) pa perm =
      mapLoop perm n pgdir (j * PGSIZE) pa := by
  have hfirst : pgRoundDown (j * PGSIZE) = j * PGSIZE := by
    rw [pgRoundDown, Nat.mul_div_cancel _ (by decide)]
  have hlast : pgRoundDown ((j * PGSIZE + (n + 1) * PGSIZE + 2 ^ 32 - 1) % 2 ^ 32) =
      (j + n) * PGSIZE := by
    change (j * 4096 + (n + 1) * 4096 + 2 ^ 32 - 1) % 2 ^ 32 / 4096 * 4096 = (j + n) * 4096
    omega
  have hcount : ((j + n) * PGSIZE + 2 ^ 32 - j * PGSIZE) % 2 ^ 32 / PGSIZE = n := by
    change ((j + n) * 4096 + 2 ^ 32 - j * 4096) % 2 ^ 32 / 4096 = n
    omega
  rw [mappages, hfirst, hlast, hcount]

theorem kern_mappages {Q : Bool × PageDir → Mem → Prop} (hj : j < 2 ^ 20)
    (hp : (pgdir.entry j).present = false)
    (hold : ∀ t, pgdir.table (j / NPTENTRIES) = some t →
      Q (true, pgdir.setPte (j * PGSIZE) ⟨g, perm ||| PTE_P⟩) s)
    (hnone : pgdir.table (j / NPTENTRIES) = none → Refused env s →
      Q (false, pgdir) (s.after s.freelist))
    (hnew : pgdir.table (j / NPTENTRIES) = none → ∀ f l, s.freelist = f :: l → ¬ Refused env s →
      Q (true, (pgdir.addTable (j / NPTENTRIES) f).setPte (j * PGSIZE) ⟨g, perm ||| PTE_P⟩)
        ((s.after l).write f (Bytes.zero 4096))) :
    Kern L env E Q (mappages pgdir (j * PGSIZE) PGSIZE (g * PGSIZE) perm) s := by
  have hone : mappages pgdir (j * PGSIZE) PGSIZE (g * PGSIZE) perm =
      mapLoop perm 0 pgdir (j * PGSIZE) (g * PGSIZE) := mappages_pages (n := 0) pgdir hj _ perm
  rw [hone]
  refine wp_seq (kern_mapPage hj hp (fun t ht => wp_pure (hold t ht))
    (fun ht hr => wp_pure (hnone ht hr)) fun ht f l hl hr => wp_pure (hnew ht f l hl hr))

end

/-! ## How the loop ends -/

/-- A call of `kalloc` finds no page: the number of the call and of the free pages. -/
def refuses (env : Env) (calls free : ℕ) : Bool := free == 0 || env.fails calls

/-- How the loop of `allocuvm` ends that has `k` pages to map from page `j` on, where `has`
are the page tables there are: `none` if a user page is refused, and otherwise whether the
page of a page table was. -/
def plan (env : Env) : ℕ → ℕ → (ℕ → Bool) → ℕ → ℕ → Option Bool
  | 0, _, _, _, _ => some false
  | k + 1, j, has, calls, free =>
    if refuses env calls free then none
    else if has (j / NPTENTRIES) then plan env k (j + 1) has (calls + 1) (free - 1)
    else if refuses env (calls + 1) (free - 1) then
      (plan env k (j + 1) has (calls + 2) (free - 1)).map fun _ => true
    else plan env k (j + 1) (update has (j / NPTENTRIES) true) (calls + 2) (free - 2)

/-- The page tables there are when this loop has ended. -/
def tables (env : Env) : ℕ → ℕ → (ℕ → Bool) → ℕ → ℕ → ℕ → Bool
  | 0, _, has, _, _ => has
  | k + 1, j, has, calls, free =>
    if has (j / NPTENTRIES) then tables env k (j + 1) has (calls + 1) (free - 1)
    else if refuses env (calls + 1) (free - 1) then tables env k (j + 1) has (calls + 2) (free - 1)
    else tables env k (j + 1) (update has (j / NPTENTRIES) true) (calls + 2) (free - 2)

theorem refuses_iff {env : Env} {s : Mem} :
    refuses env s.calls s.freelist.length = true ↔ Refused env s := by
  simp [refuses, Refused]

def PageDir.has (pgdir : PageDir) (r : ℕ) : Bool := (pgdir.table r).isSome

variable {pgdir : PageDir}

@[simp] theorem has_setPte {j : ℕ} {e : Pte} (hj : j < 2 ^ 20) :
    (pgdir.setPte (j * PGSIZE) e).has = pgdir.has := by
  funext r
  rw [PageDir.has, PageDir.table_setPte hj, Option.isSome_map, PageDir.has]

theorem has_addTable (pgdir : PageDir) (i f : ℕ) :
    (pgdir.addTable i f).has = update pgdir.has i true := by
  funext r
  by_cases hr : r = i
  · simp [PageDir.has, PageDir.addTable, hr]
  · simp [PageDir.has, PageDir.addTable, hr]

/-- Every page table is still there, in the same frame, and the frames of the new ones come
from `l`. -/
structure PageDir.Keeps (pgdir : PageDir) (l : List ℕ) (pgdir' : PageDir) : Prop where
  frame : pgdir'.frame = pgdir.frame
  old : ∀ r x, pgdir.table r = some x → ∃ x', pgdir'.table r = some x' ∧ x'.frame = x.frame
  new : ∀ r x', pgdir'.table r = some x' →
    (∃ x, pgdir.table r = some x ∧ x'.frame = x.frame) ∨ x'.frame ∈ l

namespace PageDir.Keeps

variable {pgdir pgdir' pgdir'' : PageDir} {j : ℕ} {l k : List ℕ}

theorem refl (pgdir : PageDir) (l : List ℕ) : pgdir.Keeps l pgdir :=
  ⟨rfl, fun _ x hx => ⟨x, hx, rfl⟩, fun _ x hx => Or.inl ⟨x, hx, rfl⟩⟩

theorem trans (h : pgdir.Keeps l pgdir') (h' : pgdir'.Keeps k pgdir'') :
    pgdir.Keeps (l ++ k) pgdir'' := by
  refine ⟨h'.frame.trans h.frame, fun r x hx => ?_, fun r x2 hx2 => ?_⟩
  · obtain ⟨x1, hx1, hf1⟩ := h.old r x hx
    obtain ⟨x2, hx2, hf2⟩ := h'.old r x1 hx1
    exact ⟨x2, hx2, hf2.trans hf1⟩
  · rcases h'.new r x2 hx2 with ⟨x1, hx1, hf2⟩ | hk
    · rw [hf2]
      rcases h.new r x1 hx1 with ⟨x, hx, hf1⟩ | hl
      · exact Or.inl ⟨x, hx, hf1⟩
      · exact Or.inr (mem_append_left k hl)
    · exact Or.inr (mem_append_right l hk)

theorem of_map (hframe : pgdir'.frame = pgdir.frame)
    (h : ∀ r, (pgdir'.table r).map Table.frame = (pgdir.table r).map Table.frame) :
    pgdir.Keeps l pgdir' := by
  refine ⟨hframe, fun r x hx => ?_, fun r x' hx' => Or.inl ?_⟩
  · have hr := h r
    rw [hx, Option.map_some, Option.map_eq_some_iff] at hr
    exact hr
  · have hr := (h r).symm
    rw [hx', Option.map_some, Option.map_eq_some_iff] at hr
    obtain ⟨x, hx, hf⟩ := hr
    exact ⟨x, hx, hf.symm⟩

theorem setPte (hj : j < 2 ^ 20) (e : Pte) : pgdir.Keeps l (pgdir.setPte (j * PGSIZE) e) := by
  refine of_map rfl fun r => ?_
  rw [table_setPte hj, Option.map_map]
  refine congrFun (congrArg _ (funext fun x => ?_)) _
  dsimp only [Function.comp]
  split <;> rfl

theorem addTable (h : pgdir.table j = none) {f : ℕ} (hf : f ∈ l) :
    pgdir.Keeps l (pgdir.addTable j f) := by
  refine ⟨rfl, fun r x hx => ⟨x, ?_, rfl⟩, fun r x' hx' => ?_⟩
  · have hr : r ≠ j := by
      rintro rfl
      rw [h] at hx
      cases hx
    exact (update_of_ne hr _ _).trans hx
  · by_cases hr : r = j
    · subst hr
      rw [table_addTable_self] at hx'
      obtain rfl := Option.some_inj.1 hx'
      exact Or.inr hf
    · exact Or.inl ⟨x', (update_of_ne hr _ _).symm.trans hx', rfl⟩

end PageDir.Keeps

/-! ## The loop -/

abbrev userFlags : BitVec 12 := (PTE_W ||| PTE_U) ||| PTE_P

theorem user_userFlags (f : ℕ) : (Pte.mk f userFlags).user = true := by
  simp [Pte.user, userFlags, PTE_W, PTE_U, PTE_P]

/-- The loop of `allocuvm` came from page `n` to page `j` and took the pages `l` from the free
list: every page on the way is as before, or a new one with zeroes. -/
structure Filled (pgdir : PageDir) (n j : ℕ) (s : Mem) (l : List ℕ) (pgdir' : PageDir)
    (t : Mem) : Prop where
  old : ∀ m, m < n ∨ j ≤ m → pgdir'.entry m = pgdir.entry m
  new : ∀ m, n ≤ m → m < j → pgdir'.entry m = pgdir.entry m ∨
    ∃ g ∈ l, pgdir'.entry m = ⟨g, userFlags⟩ ∧ t.page g = Bytes.zero 4096
  taken : s.freelist = l ++ t.freelist
  page : ∀ f, f ∉ l → t.page f = s.page f
  keeps : pgdir.Keeps l pgdir'
  -- the last page is there if its page table is
  last : ∀ m, n ≤ m → m + 1 = j → (pgdir'.entry m).present = pgdir'.has (m / NPTENTRIES)

namespace Filled

variable {pgdir pgdir' pgdir'' : PageDir} {n j : ℕ} {s t u : Mem} {l : List ℕ}

theorem start (pgdir : PageDir) (n : ℕ) (s : Mem) : Filled pgdir n n s [] pgdir s := by
  refine ⟨fun _ _ => rfl, fun m h1 h2 => ?_, rfl, fun _ _ => rfl, .refl pgdir [], fun m h1 h2 => ?_⟩
  · omega
  · omega

variable (h : Filled pgdir n j s l pgdir' t)
include h

/-- The loop takes the pages `k` and maps page `j`, or leaves it. -/
theorem step (hnodup : s.freelist.Nodup) (hnj : n ≤ j)
    {k : List ℕ} (htaken : t.freelist = k ++ u.freelist) (hpage : ∀ f, f ∉ k → u.page f = t.page f)
    (hentry : ∀ m, m ≠ j → pgdir''.entry m = pgdir'.entry m) (hj : pgdir''.entry j = pgdir.entry j ∨
      ∃ g ∈ k, pgdir''.entry j = ⟨g, userFlags⟩ ∧ u.page g = Bytes.zero 4096)
    (hkeeps : pgdir'.Keeps k pgdir'')
    (hlast : (pgdir''.entry j).present = pgdir''.has (j / NPTENTRIES)) :
    Filled pgdir n (j + 1) s (l ++ k) pgdir'' u := by
  have hdisj : ∀ g ∈ l, g ∉ k := by
    intro g hg hk
    rw [h.taken, htaken] at hnodup
    exact (disjoint_of_nodup_append hnodup) hg (mem_append_left _ hk)
  refine ⟨fun m hm => ?_, fun m h1 h2 => ?_, ?_, fun f hf => ?_, h.keeps.trans hkeeps,
    fun m _ hm => ?_⟩
  · rw [hentry m (by omega)]
    exact h.old m (by omega)
  · rcases Nat.lt_or_ge m j with hlt | hge
    · rw [hentry m (by omega)]
      rcases h.new m h1 hlt with hsame | ⟨g, hg, he, hz⟩
      · exact Or.inl hsame
      · refine Or.inr ⟨g, mem_append_left k hg, he, ?_⟩
        rw [hpage g (hdisj g hg), hz]
    · obtain rfl : m = j := by omega
      rcases hj with hsame | ⟨g, hg, he, hz⟩
      · exact Or.inl hsame
      · exact Or.inr ⟨g, mem_append_right l hg, he, hz⟩
  · rw [h.taken, htaken, append_assoc]
  · rw [mem_append, not_or] at hf
    rw [hpage f hf.2, h.page f hf.1]
  · obtain rfl : m = j := by omega
    exact hlast

/-- A user page after `n` that is present is a new one, if there was none before. -/
theorem frame_mem
    (habs : ∀ m, n ≤ m → m < KPAGE → (pgdir.entry m).present = false) {m : ℕ} (hm : n ≤ m)
    (hK : m < KPAGE) (hp : (pgdir'.entry m).present = true) :
    m < j ∧ (pgdir'.entry m).frame ∈ l := by
  have hold : pgdir'.entry m ≠ pgdir.entry m := by
    intro he
    rw [he, habs m hm hK] at hp
    cases hp
  have hmj : m < j := by
    by_contra hge
    exact hold (h.old m (Or.inr (not_lt.1 hge)))
  rcases h.new m hm hmj with hsame | ⟨g, hg, he, -⟩
  · exact absurd hsame hold
  · rw [he]
    exact ⟨hmj, hg⟩

theorem mem_freelist {g : ℕ} (hg : g ∈ l) : g ∈ s.freelist :=
  h.taken ▸ mem_append_left _ hg

end Filled

def Complete (pgdir : PageDir) (n j : ℕ) : Prop :=
  ∀ m, n ≤ m → m < j → (pgdir.entry m).present = true

theorem complete_succ {pgdir' : PageDir} {n j : ℕ} (hnj : n ≤ j)
    (hentry : ∀ m, m ≠ j → pgdir'.entry m = pgdir.entry m) :
    Complete pgdir' n (j + 1) ↔ Complete pgdir n j ∧ (pgdir'.entry j).present = true := by
  constructor
  · intro h
    refine ⟨fun m h1 h2 => ?_, h j hnj (Nat.lt_succ_self j)⟩
    rw [← hentry m (by omega)]
    exact h m h1 (by omega)
  · rintro ⟨h, hj⟩ m h1 h2
    by_cases hm : m = j
    · rw [hm]
      exact hj
    · rw [hentry m hm]
      exact h m h1 (by omega)

/-- The user pages are again those before page `n`. -/
structure Restored (pgdir : PageDir) (n : ℕ) (s : Mem) (pgdir' : PageDir) (t : Mem) : Prop where
  old : ∀ m, m < n ∨ KPAGE ≤ m → pgdir'.entry m = pgdir.entry m
  gone : ∀ m, n ≤ m → m < KPAGE → (pgdir'.entry m).present = false
  page : ∀ f, f ∉ s.freelist → t.page f = s.page f

/-- The loop came to some page and was undone by `deallocuvm` up to page `N`. -/
def Undone (pgdir : PageDir) (n N : ℕ) (s : Mem) (pgdir' : PageDir) (t : Mem) : Prop :=
  ∃ j l pgdir1 t1, j ≤ N ∧ Filled pgdir n j s l pgdir1 t1 ∧ Dropped pgdir1 n N t1 pgdir' t

/-- A state of the allocator in which every page of the free list is there once and can be
freed again. -/
structure Sound (L : Layout) (s : Mem) : Prop where
  nodup : s.freelist.Nodup
  frame : ∀ f ∈ s.freelist, L.Frame f

section Loop

variable {L : Layout} {env : Env} {E : Stop → Prop} {s t : Mem} {pgdir pgdir' : PageDir}
  {oldsz newsz j : ℕ} {l : List ℕ}

section

variable (hpages : ∀ m, m < KPAGE → ((pgdir.entry m).present = true ↔ m < pages oldsz))
include hpages

theorem absent_of_present_iff (m : ℕ)
    (hm : pages oldsz ≤ m) (hK : m < KPAGE) : (pgdir.entry m).present = false := by
  rw [Bool.eq_false_iff, Ne, hpages m hK]
  exact not_lt.2 hm

/-- The pages before `oldsz` are the only user pages, so that the first page table after
them is there or begins with the first page that is mapped. -/
theorem not_skips_after (holdsz : oldsz ≤ KERNBASE)
    (hkeeps : pgdir.Keeps l pgdir') {m : ℕ} (hm : pages oldsz ≤ m) :
    ¬ Skips pgdir' (pages oldsz) m := by
  have hK := pages_le holdsz
  by_cases h0 : pages oldsz % NPTENTRIES = 0
  · rintro ⟨hlt, -⟩
    rw [h0] at hlt
    exact Nat.not_lt_zero _ hlt
  · have hpos : 0 < pages oldsz := Nat.pos_of_ne_zero fun he => h0 (by rw [he]; rfl)
    have hp := (hpages (pages oldsz - 1) (by omega)).2 (by omega)
    obtain ⟨x, hx⟩ := PageDir.table_of_present hp
    obtain ⟨x', hx', -⟩ := hkeeps.old _ x hx
    have hdiv : (pages oldsz - 1) / NPTENTRIES = pages oldsz / NPTENTRIES := by
      unfold NPTENTRIES at h0 ⊢
      omega
    rw [hdiv] at hx'
    exact not_skips_of_table hx' hm

end

variable {Q : ℕ × PageDir → Mem → Prop}

theorem kern_rollback (hsound : Sound L s) (hnewsz : newsz < KERNBASE) (hlt : oldsz < newsz)
    (habs : ∀ m, pages oldsz ≤ m → m < KPAGE → (pgdir.entry m).present = false)
    (hj : j ≤ pages newsz) (h : Filled pgdir (pages oldsz) j s l pgdir' t)
    (hQ : ∀ pgdir'' u, Undone pgdir (pages oldsz) (pages newsz) s pgdir'' u →
      Q (oldsz, pgdir'') u) : Kern L env E Q (deallocuvm pgdir' newsz oldsz) t := by
  have hN : pages newsz ≤ KPAGE := pages_le (le_of_lt hnewsz)
  refine kern_deallocuvm (le_of_lt hnewsz) hlt ?_ fun pgdir'' u hdrop =>
    hQ _ _ ⟨j, l, pgdir', t, hj, h, hdrop⟩
  intro m h1 h2 hp
  exact hsound.frame _ (h.mem_freelist (h.frame_mem habs h1 (by omega) hp).2)

/-- The way back removes every new page if the pages before `oldsz` were the only ones. -/
theorem Undone.restored (h : Undone pgdir (pages oldsz) (pages newsz) s pgdir' t)
    (hle : oldsz ≤ newsz) (hnewsz : newsz < KERNBASE)
    (hpages : ∀ m, m < KPAGE → ((pgdir.entry m).present = true ↔ m < pages oldsz)) :
    Restored pgdir (pages oldsz) s pgdir' t := by
  obtain ⟨j, l, pgdir1, t1, hj, hfill, hdrop⟩ := h
  have hN : pages newsz ≤ KPAGE := pages_le (le_of_lt hnewsz)
  have habs := absent_of_present_iff hpages
  refine ⟨fun m hm => ?_, fun m h1 h2 => ?_, fun f hf => ?_⟩
  · rw [hdrop.entry m, if_neg fun hd => ?_]
    · exact hfill.old m (by omega)
    · have := hd.1
      have := hd.2.1
      omega
  · rw [hdrop.entry m]
    split
    · rfl
    next hd =>
      refine Bool.eq_false_iff.2 fun hp => hd ⟨h1, ?_, ?_, hp⟩
      · exact lt_of_lt_of_le (hfill.frame_mem habs h1 h2 hp).1 hj
      · exact not_skips_after hpages (le_trans hle (le_of_lt hnewsz)) hfill.keeps h1
  · rw [hdrop.page f fun m hd he => ?_, hfill.page f fun hl => hf (hfill.mem_freelist hl)]
    have hmem := (hfill.frame_mem habs hd.1 (lt_of_lt_of_le hd.2.1 hN) hd.2.2.2).2
    exact hf (hfill.mem_freelist (he ▸ hmem))

/-- One pass of the loop, after page `g` was taken and cleared: page `j` is mapped, or it is not
because there is no page for the page table. -/
theorem kern_newPage {Q : Bool × PageDir → Mem → Prop} {n g : ℕ} {fl : List ℕ}
    (hnodup : s.freelist.Nodup) (h20 : j < 2 ^ 20) (hnj : n ≤ j)
    (h : Filled pgdir n j s l pgdir' t) (hp : (pgdir'.entry j).present = false)
    (hfl : t.freelist = g :: fl) (hr : ¬ Refused env t)
    (hyes : ∀ k pgdir'' u, Filled pgdir n (j + 1) s (l ++ k) pgdir'' u →
      (Complete pgdir'' n (j + 1) ↔ Complete pgdir' n j) →
      (∀ K, plan env (K + 1) j pgdir'.has t.calls t.freelist.length =
        plan env K (j + 1) pgdir''.has u.calls u.freelist.length) →
      (∀ K, tables env (K + 1) j pgdir'.has t.calls t.freelist.length =
        tables env K (j + 1) pgdir''.has u.calls u.freelist.length) → Q (true, pgdir'') u)
    (hno : ∀ k u, Filled pgdir n (j + 1) s (l ++ k) pgdir' u → ¬ Complete pgdir' n (j + 1) →
      (∀ K, plan env (K + 1) j pgdir'.has t.calls t.freelist.length =
        (plan env K (j + 1) pgdir'.has u.calls u.freelist.length).map fun _ => true) →
      (∀ K, tables env (K + 1) j pgdir'.has t.calls t.freelist.length =
        tables env K (j + 1) pgdir'.has u.calls u.freelist.length) → Q (false, pgdir') u) :
    Kern L env E Q (mappages pgdir' (j * PGSIZE) PGSIZE (g * PGSIZE) (PTE_W ||| PTE_U))
      ((t.after fl).write g (Bytes.zero 4096)) := by
  have hr' : ¬ refuses env t.calls t.freelist.length = true := mt refuses_iff.1 hr
  have hlen : t.freelist.length - 1 = fl.length := by
    rw [hfl]
    rfl
  have hpresent : (Pte.mk g userFlags).present = true := present_or g _
  refine kern_mappages h20 hp (fun x hx => ?_) (fun hx hr1 => ?_) fun hx f fl' hfl' hr1 => ?_
  · -- there is a page table
    have hentry := fun m => PageDir.entry_setPte (m := m) (e := ⟨g, userFlags⟩) h20 hx
    have hne : ∀ m, m ≠ j → (pgdir'.setPte (j * PGSIZE) ⟨g, userFlags⟩).entry m =
        pgdir'.entry m := fun m hm => by rw [hentry, if_neg hm]
    have hself : (pgdir'.setPte (j * PGSIZE) ⟨g, userFlags⟩).entry j = ⟨g, userFlags⟩ := by
      rw [hentry, if_pos rfl]
    have hhas : pgdir'.has (j / NPTENTRIES) = true := by
      rw [PageDir.has, hx]
      rfl
    refine hyes [g] _ _ (h.step hnodup hnj hfl (fun f hf => ?_) hne (Or.inr ⟨g, ?_, hself, ?_⟩)
      (.setPte h20 _) ?_) ?_ (fun K => ?_) fun K => ?_
    · exact update_of_ne (ne_of_not_mem_cons hf) _ _
    · exact mem_singleton_self g
    · exact update_self ..
    · rw [hself, hpresent, has_setPte h20, hhas]
    · rw [complete_succ hnj hne, hself]
      simp [hpresent]
    · rw [plan, if_neg hr', if_pos hhas, hlen, has_setPte h20]
      rfl
    · rw [tables, if_pos hhas, hlen, has_setPte h20]
      rfl
  · -- the page of the page table is refused
    have hhas : pgdir'.has (j / NPTENTRIES) = false := by
      rw [PageDir.has, hx]
      rfl
    have hr2 : refuses env (t.calls + 1) fl.length = true := refuses_iff.2 hr1
    refine hno [g] _ (h.step hnodup hnj hfl (fun f hf => ?_) (fun _ _ => rfl)
      (Or.inl (h.old j (Or.inr le_rfl))) (.refl _ _) (hp.trans hhas.symm)) ?_ (fun K => ?_)
      fun K => ?_
    · exact update_of_ne (ne_of_not_mem_cons hf) _ _
    · intro hc
      rw [hc j hnj (Nat.lt_succ_self j)] at hp
      cases hp
    · rw [plan, if_neg hr', if_neg (Bool.eq_false_iff.1 hhas), hlen, if_pos hr2]
      rfl
    · rw [tables, if_neg (Bool.eq_false_iff.1 hhas), hlen, if_pos hr2]
      rfl
  · -- a new page table
    have hx' := pgdir'.table_addTable_self (j / NPTENTRIES) f
    have hentry := fun m => PageDir.entry_setPte (m := m) (e := ⟨g, userFlags⟩) h20 hx'
    have hne : ∀ m, m ≠ j → ((pgdir'.addTable (j / NPTENTRIES) f).setPte (j * PGSIZE)
        ⟨g, userFlags⟩).entry m = pgdir'.entry m := fun m hm => by
      rw [hentry, if_neg hm, PageDir.entry_addTable hx]
    have hself : ((pgdir'.addTable (j / NPTENTRIES) f).setPte (j * PGSIZE)
        ⟨g, userFlags⟩).entry j = ⟨g, userFlags⟩ := by rw [hentry, if_pos rfl]
    have hfl2 : fl = f :: fl' := hfl'
    have htaken : t.freelist = [g, f] ++ fl' := by rw [hfl, hfl2]; rfl
    have hgf : g ≠ f := by
      rintro rfl
      rw [h.taken, htaken] at hnodup
      exact absurd (nodup_append.1 hnodup).2.1 (by simp)
    have hhas : ¬ pgdir'.has (j / NPTENTRIES) = true := by
      rw [PageDir.has, hx]
      simp
    have hlen2 : t.freelist.length - 2 = fl'.length := by
      rw [htaken]
      rfl
    have hr2 : ¬ refuses env (t.calls + 1) fl.length = true := fun hc => hr1 (refuses_iff.1 hc)
    have hkeeps : pgdir'.Keeps ([g, f] ++ []) ((pgdir'.addTable (j / NPTENTRIES) f).setPte
        (j * PGSIZE) ⟨g, userFlags⟩) :=
      (PageDir.Keeps.addTable hx (by simp)).trans (.setPte h20 _)
    refine hyes [g, f] _ _ (h.step hnodup hnj htaken (fun f' hf => ?_) hne
      (Or.inr ⟨g, mem_cons_self, hself, ?_⟩) hkeeps ?_) ?_ (fun K => ?_) fun K => ?_
    · obtain ⟨hg, hf⟩ := ne_and_not_mem_of_not_mem_cons hf
      have hf' := ne_of_not_mem_cons hf
      exact (update_of_ne hf' _ _).trans (update_of_ne hg _ _)
    · exact (update_of_ne hgf _ _).trans (update_self ..)
    · rw [hself, hpresent, has_setPte h20, has_addTable, update_self]
    · rw [complete_succ hnj hne, hself]
      simp [hpresent]
    · rw [plan, if_neg hr', if_neg hhas, hlen, if_neg hr2, hlen2, has_setPte h20, has_addTable]
      rfl
    · rw [tables, if_neg hhas, hlen, if_neg hr2, hlen2, has_setPte h20, has_addTable]
      rfl

theorem kern_allocLoop (hsound : Sound L s) (hnewsz : newsz < KERNBASE)
    (habs : ∀ m, pages oldsz ≤ m → m < KPAGE → (pgdir.entry m).present = false) (fuel : ℕ)
    (hfuel : pages newsz ≤ j + fuel) (hnj : pages oldsz ≤ j) (hj : j ≤ pages newsz)
    (h : Filled pgdir (pages oldsz) j s l pgdir' t)
    (hfail : plan env (pages newsz - j) j pgdir'.has t.calls t.freelist.length = none →
      ∀ pgdir'' u, Undone pgdir (pages oldsz) (pages newsz) s pgdir'' u → Q (0, pgdir'') u)
    (hok : ∀ b l' pgdir'' u,
      plan env (pages newsz - j) j pgdir'.has t.calls t.freelist.length = some b →
      Filled pgdir (pages oldsz) (pages newsz) s l' pgdir'' u →
      (Complete pgdir'' (pages oldsz) (pages newsz) ↔
        Complete pgdir' (pages oldsz) j ∧ b = false) →
      pgdir''.has = tables env (pages newsz - j) j pgdir'.has t.calls t.freelist.length →
      Q (newsz, pgdir'') u) :
    Kern L env E Q (allocLoop oldsz newsz fuel pgdir' (j * PGSIZE)) t := by
  induction fuel generalizing j l pgdir' t with
  | zero =>
    obtain rfl : j = pages newsz := by omega
    exact wp_pure (hok false l pgdir' t (by rw [Nat.sub_self]; rfl) h (by simp)
      (by rw [Nat.sub_self]; rfl))
  | succ fuel ih =>
    unfold allocLoop
    by_cases hlt : j * PGSIZE < newsz
    · have hjN : j < pages newsz := lt_pages_iff.2 hlt
      have hN : pages newsz ≤ KPAGE := pages_le (le_of_lt hnewsz)
      have h20 : j < 2 ^ 20 := lt_trans (lt_of_lt_of_le hjN hN) (by decide)
      have hstep : j * PGSIZE + PGSIZE = (j + 1) * PGSIZE := (Nat.succ_mul j PGSIZE).symm
      have hsize : oldsz < newsz := by
        refine lt_of_le_of_lt ?_ (lt_of_le_of_lt (Nat.mul_le_mul_right PGSIZE hnj) hlt)
        exact not_lt.1 fun hc => absurd (lt_pages_iff.2 hc) (lt_irrefl _)
      have hp : (pgdir'.entry j).present = false := by
        rw [h.old j (Or.inr le_rfl)]
        exact habs j hnj (by omega)
      have hsucc : pages newsz - j = pages newsz - (j + 1) + 1 := by omega
      rw [hsucc] at hfail hok
      rw [if_pos hlt, hstep]
      refine wp_seq (kern_kalloc (fun hr => ?_) fun g fl hfl hr => ?_)
      · -- the user page is refused
        have hplan : plan env (pages newsz - (j + 1) + 1) j pgdir'.has t.calls
            t.freelist.length = none := by
          rw [plan, if_pos (refuses_iff.2 hr)]
        have hafter : Filled pgdir (pages oldsz) j s l pgdir' (t.after t.freelist) :=
          ⟨h.old, h.new, h.taken, h.page, h.keeps, h.last⟩
        refine wp_seq (kern_rollback hsound hnewsz hsize habs hj hafter
          fun pgdir'' u hres => wp_pure (hfail hplan pgdir'' u hres))
      · have hfuel' : pages newsz ≤ j + 1 + fuel := by omega
        have hnj' : pages oldsz ≤ j + 1 := by omega
        refine wp_seq (kern_clear (wp_seq (kern_newPage hsound.nodup h20 hnj h hp hfl hr
          ?_ ?_)))
        · intro k pgdir1 u hfill hcomplete hplan htables
          rw [hplan] at hfail hok
          simp only [← hcomplete, htables] at hok
          exact ih hfuel' hnj' hjN hfill hfail hok
        · intro k u hfill hcomplete hplan htables
          rw [hplan] at hfail hok
          simp only [htables] at hok
          refine ih hfuel' hnj' hjN hfill (fun hnone => hfail (by rw [hnone]; rfl))
            fun b l' pgdir'' v hb hfill' hc => hok true l' pgdir'' v (by rw [hb]; rfl) hfill' ?_
          simp [hc, hcomplete]
    · obtain rfl : j = pages newsz := by
        have := mt lt_pages_iff.1 hlt
        omega
      rw [if_neg hlt]
      exact wp_pure (hok false l pgdir' t (by rw [Nat.sub_self]; rfl) h (by simp)
      (by rw [Nat.sub_self]; rfl))

/-- `allocuvm` to a size that is not smaller, where no page after the old size is there. -/
theorem kern_allocuvm (hsound : Sound L s) (hle : oldsz ≤ newsz) (hnewsz : newsz < KERNBASE)
    (habs : ∀ m, pages oldsz ≤ m → m < KPAGE → (pgdir.entry m).present = false)
    (hfail : plan env (pages newsz - pages oldsz) (pages oldsz) pgdir.has s.calls
        s.freelist.length = none →
      ∀ pgdir' t, Undone pgdir (pages oldsz) (pages newsz) s pgdir' t → Q (0, pgdir') t)
    (hok : ∀ b l pgdir' t, plan env (pages newsz - pages oldsz) (pages oldsz) pgdir.has s.calls
        s.freelist.length = some b → Filled pgdir (pages oldsz) (pages newsz) s l pgdir' t →
      (Complete pgdir' (pages oldsz) (pages newsz) ↔ b = false) →
      pgdir'.has = tables env (pages newsz - pages oldsz) (pages oldsz) pgdir.has s.calls
        s.freelist.length → Q (newsz, pgdir') t) :
    Kern L env E Q (allocuvm pgdir oldsz newsz) s := by
  have hnil : Complete pgdir (pages oldsz) (pages oldsz) := fun m h1 h2 => by omega
  unfold allocuvm
  rw [if_neg (not_le.2 hnewsz), if_neg (not_lt.2 hle),
    pgRoundUp_eq (le_trans hle (le_of_lt hnewsz))]
  refine kern_allocLoop hsound hnewsz habs _ ?_ le_rfl (pages_mono hle) (.start pgdir _ s) hfail ?_
  · unfold pages PGSIZE
    omega
  · intro b l pgdir' t hplan hfill hc hhas
    exact hok b l pgdir' t hplan hfill (hc.trans (by simp [hnil])) hhas

end Loop

/-! ## All or nothing -/

/-- The user pages of the directory are not on the free list. -/
def Apart (pgdir : PageDir) (s : Mem) : Prop :=
  ∀ m, m < KPAGE → (pgdir.entry m).present = true → (pgdir.entry m).frame ∉ s.freelist

/-- Page `m` has its frame, its flags and its contents as before. -/
def SamePage (pgdir : PageDir) (s : Mem) (pgdir' : PageDir) (t : Mem) (m : ℕ) : Prop :=
  pgdir'.entry m = pgdir.entry m ∧ t.page (pgdir.entry m).frame = s.page (pgdir.entry m).frame

/-- When `allocuvm` returns the new size, the pages before it are present: the old ones as
they were, and the new ones for the user and with zeroes. When it returns 0, exactly the old
pages are present, as they were. -/
def AllOrNothing (L : Layout) (env : Env) (pgdir : PageDir) (oldsz newsz : ℕ) (s : Mem) : Prop :=
  ∃ r pgdir' t, (allocuvm pgdir oldsz newsz).run (sem L env) s = .ok ((r, pgdir'), t) ∧
    (r = newsz ∨ r = 0) ∧
    (r ≠ 0 → ∀ m, m < pages newsz → (pgdir'.entry m).present = true ∧
      (m < pages oldsz → SamePage pgdir s pgdir' t m) ∧
      (pages oldsz ≤ m → (pgdir'.entry m).user = true ∧
        t.page (pgdir'.entry m).frame = Bytes.zero 4096)) ∧
    (r = 0 → ∀ m, m < KPAGE → ((pgdir'.entry m).present = true ↔ m < pages oldsz) ∧
      (m < pages oldsz → SamePage pgdir s pgdir' t m))

section Atomic

variable {L : Layout} {env : Env} {s t : Mem} {pgdir pgdir' : PageDir} {oldsz newsz : ℕ}
  {l : List ℕ}

theorem exists_allocuvm (env : Env) (hsound : Sound L s) (hle : oldsz ≤ newsz)
    (hnewsz : newsz < KERNBASE)
    (hpages : ∀ m, m < KPAGE → ((pgdir.entry m).present = true ↔ m < pages oldsz)) :
    ∃ r pgdir' t, (allocuvm pgdir oldsz newsz).run (sem L env) s = .ok ((r, pgdir'), t) ∧
      match plan env (pages newsz - pages oldsz) (pages oldsz) pgdir.has s.calls
        s.freelist.length with
      | none => r = 0 ∧ Restored pgdir (pages oldsz) s pgdir' t
      | some b => r = newsz ∧ (∃ l, Filled pgdir (pages oldsz) (pages newsz) s l pgdir' t) ∧
          (Complete pgdir' (pages oldsz) (pages newsz) ↔ b = false) := by
  have hkern : Kern L env (fun _ => False) (fun r t =>
      match plan env (pages newsz - pages oldsz) (pages oldsz) pgdir.has s.calls
        s.freelist.length with
      | none => r.1 = 0 ∧ Restored pgdir (pages oldsz) s r.2 t
      | some b => r.1 = newsz ∧ (∃ l, Filled pgdir (pages oldsz) (pages newsz) s l r.2 t) ∧
          (Complete r.2 (pages oldsz) (pages newsz) ↔ b = false))
      (allocuvm pgdir oldsz newsz) s := by
    refine kern_allocuvm hsound hle hnewsz (absent_of_present_iff hpages)
      (fun hplan pgdir' t h => ?_) fun b l pgdir' t hplan h hc _ => ?_
    · rw [hplan]
      exact ⟨rfl, h.restored hle hnewsz hpages⟩
    · rw [hplan]
      exact ⟨rfl, ⟨l, h⟩, hc⟩
  obtain ⟨⟨r, pgdir'⟩, t, hrun, h⟩ := wp_run_exists hkern
  exact ⟨r, pgdir', t, hrun, h⟩

variable {m : ℕ}

section

variable (hapart : Apart pgdir s)
  (hpages : ∀ m, m < KPAGE → ((pgdir.entry m).present = true ↔ m < pages oldsz))
include hpages

theorem Restored.present_iff (h : Restored pgdir (pages oldsz) s pgdir' t) (hm : m < KPAGE) :
    (pgdir'.entry m).present = true ↔ m < pages oldsz := by
  rcases Nat.lt_or_ge m (pages oldsz) with hlt | hge
  · rw [h.old m (Or.inl hlt)]
    exact hpages m hm
  · rw [h.gone m hge hm]
    simpa using hge

/-- A page that is new is one for the user, with zeroes. -/
theorem Filled.newPage {j : ℕ} (h : Filled pgdir (pages oldsz) j s l pgdir' t)
    (hm : pages oldsz ≤ m) (hmj : m < j) (hK : m < KPAGE)
    (hp : (pgdir'.entry m).present = true) :
    (pgdir'.entry m).user = true ∧ t.page (pgdir'.entry m).frame = Bytes.zero 4096 := by
  rcases h.new m hm hmj with hsame | ⟨g, -, he, hz⟩
  · rw [hsame, hpages m hK] at hp
    omega
  · rw [he]
    exact ⟨user_userFlags g, hz⟩

variable (holdsz : oldsz ≤ KERNBASE) (hm : m < pages oldsz)
include hapart holdsz hm

theorem Restored.samePage (h : Restored pgdir (pages oldsz) s pgdir' t) :
    SamePage pgdir s pgdir' t m := by
  have hK : m < KPAGE := lt_of_lt_of_le hm (pages_le holdsz)
  exact ⟨h.old m (Or.inl hm), h.page _ (hapart m hK ((hpages m hK).2 hm))⟩

theorem Filled.samePage {j : ℕ} (h : Filled pgdir (pages oldsz) j s l pgdir' t) :
    SamePage pgdir s pgdir' t m := by
  have hK : m < KPAGE := lt_of_lt_of_le hm (pages_le holdsz)
  refine ⟨h.old m (Or.inl hm), h.page _ fun hl => ?_⟩
  exact hapart m hK ((hpages m hK).2 hm) (h.taken ▸ mem_append_left _ hl)

end

theorem Filled.present_iff (h : Filled pgdir (pages oldsz) (pages newsz) s l pgdir' t)
    (hall : Complete pgdir' (pages oldsz) (pages newsz))
    (hpages : ∀ m, m < KPAGE → ((pgdir.entry m).present = true ↔ m < pages oldsz))
    (hle : pages oldsz ≤ pages newsz) (hm : m < KPAGE) :
    (pgdir'.entry m).present = true ↔ m < pages newsz := by
  by_cases hnew : pages oldsz ≤ m ∧ m < pages newsz
  · exact iff_of_true (hall m hnew.1 hnew.2) hnew.2
  · rw [h.old m (by omega), hpages m hm]
    omega

end Atomic

/-- `allocuvm` keeps what it promises exactly when it does not come to its end after a page
for a page table was refused. -/
theorem allocuvm_all_or_nothing_iff (L : Layout) (env : Env) (pgdir : PageDir) (oldsz newsz : ℕ)
    (s : Mem) (hle : oldsz ≤ newsz) (hnewsz : newsz < KERNBASE) (hsound : Sound L s)
    (hpages : ∀ m, m < KPAGE → ((pgdir.entry m).present = true ↔ m < pages oldsz))
    (hapart : Apart pgdir s) :
    AllOrNothing L env pgdir oldsz newsz s ↔
      plan env (pages newsz - pages oldsz) (pages oldsz) pgdir.has s.calls s.freelist.length ≠
        some true := by
  have holdsz : oldsz ≤ KERNBASE := le_trans hle (le_of_lt hnewsz)
  have hN : pages newsz ≤ KPAGE := pages_le (le_of_lt hnewsz)
  obtain ⟨r, pgdir', t, hrun, h⟩ := exists_allocuvm env hsound hle hnewsz hpages
  cases hplan : plan env (pages newsz - pages oldsz) (pages oldsz) pgdir.has s.calls
      s.freelist.length with
  | none =>
    rw [hplan] at h
    obtain ⟨rfl, hres⟩ := h
    refine iff_of_true ⟨0, pgdir', t, hrun, Or.inr rfl, fun h0 => absurd rfl h0, fun _ m hm => ?_⟩
      (by simp)
    exact ⟨hres.present_iff hpages hm, hres.samePage hapart hpages holdsz⟩
  | some b =>
    rw [hplan] at h
    obtain ⟨rfl, ⟨l, hfill⟩, hc⟩ := h
    cases b with
    | true =>
      -- a page is missing, so there was one to map and the size returned is not 0
      refine iff_of_false ?_ (by simp)
      rintro ⟨r1, pgdir1, t1, hrun1, -, hyes, -⟩
      rw [hrun] at hrun1
      cases hrun1
      have hnc : ¬ Complete pgdir' (pages oldsz) (pages r) := by simp [hc]
      refine hnc fun m hm1 hm2 => (hyes ?_ m hm2).1
      rintro rfl
      exact absurd hm2 (Nat.not_lt_zero m)
    | false =>
      have hall : Complete pgdir' (pages oldsz) (pages r) := hc.2 rfl
      refine iff_of_true ⟨r, pgdir', t, hrun, Or.inl rfl, fun _ m hm => ?_, fun h0 m hm => ?_⟩
        (by simp)
      · have hK : m < KPAGE := lt_of_lt_of_le hm hN
        have hp := (hfill.present_iff hall hpages (pages_mono hle) hK).2 hm
        exact ⟨hp, hfill.samePage hapart hpages holdsz,
          fun hge => hfill.newPage hpages hge hm hK hp⟩
      · refine ⟨?_, hfill.samePage hapart hpages holdsz⟩
        rw [hfill.old m (Or.inr (by rw [h0]; exact Nat.zero_le m))]
        exact hpages m hm

def noTables : PageDir := ⟨512, fun _ => none⟩

def twoFree : Mem := ⟨fun _ => Bytes.zero 4096, [513, 514], 0⟩

theorem sound_twoFree : Sound smallKernel twoFree := by
  refine ⟨by decide, fun f hf => ?_⟩
  rcases mem_pair.1 hf with rfl | rfl <;> decide

theorem noTables_present (m : ℕ) : (noTables.entry m).present = true ↔ m < pages 0 :=
  iff_of_false (by rw [PageDir.entry_of_none rfl]; decide) (Nat.not_lt_zero m)

theorem all_or_nothing_first_page :
    AllOrNothing smallKernel ⟨fun _ => false, Pte.zero⟩ noTables 0 4096 twoFree :=
  (allocuvm_all_or_nothing_iff _ _ _ _ _ _ (by decide) (by decide) sound_twoFree
    (fun m _ => noTables_present m)
    fun m _ hp => absurd ((noTables_present m).1 hp) (Nat.not_lt_zero m)).2 (by decide)

/-- The page for the first page table is refused: the size is returned without a page. -/
theorem refused_table_unmapped :
    ¬ AllOrNothing smallKernel ⟨fun i => i == 1, Pte.zero⟩ noTables 0 4096 twoFree := by
  rintro ⟨r1, pgdir1, t1, hrun1, -, hyes, -⟩
  obtain ⟨r, pgdir', t, hrun, h⟩ := exists_allocuvm ⟨fun i => i == 1, Pte.zero⟩ sound_twoFree
    (Nat.zero_le 4096) (by decide) fun m _ => noTables_present m
  have hplan : plan ⟨fun i => i == 1, Pte.zero⟩ (pages 4096 - pages 0) (pages 0) noTables.has
      twoFree.calls twoFree.freelist.length = some true := by decide
  rw [hplan] at h
  obtain ⟨rfl, -, hc⟩ := h
  rw [hrun] at hrun1
  cases hrun1
  exact absurd (hc.1 fun m _ hm => (hyes (by decide) m hm).1) (by decide)

end Qwin.Vm
