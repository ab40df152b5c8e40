import Qwin.Vm.Alloc

/-!
# The frames of a directory

A page directory lies in a frame, and so do its page tables and the user pages it maps. A
`Slot` is a place of the directory that holds a frame. `Owned` says that the frames of all
slots are different and come from a list of frames, which `Took` says are those taken from
the free list. With it follow `setupkvm`, which fills in the rows of `kmap`, and `freevm`.
-/

namespace Qwin.Vm

open Prog List
open Function (update_of_ne update_self)

/-- The places of a directory that hold a frame. -/
inductive Slot
  | dir
  | table (r : ℕ)
  | page (m : ℕ)
  deriving DecidableEq

def PageDir.frameAt (pgdir : PageDir) : Slot → Option ℕ
  | .dir => some pgdir.frame
  | .table r => (pgdir.table r).map Table.frame
  | .page m =>
    if m < KPAGE ∧ (pgdir.entry m).present = true then some (pgdir.entry m).frame else none

/-- The slots of the directory hold different frames, all of them from `l`. -/
structure Owned (pgdir : PageDir) (l : List ℕ) : Prop where
  mem : ∀ a f, pgdir.frameAt a = some f → f ∈ l
  inj : ∀ a b f, pgdir.frameAt a = some f → pgdir.frameAt b = some f → a = b

/-- From `s` to `t` the frames `l` were taken from the free list, and no others were
written. -/
structure Took (s : Mem) (l : List ℕ) (t : Mem) : Prop where
  taken : s.freelist = l ++ t.freelist
  page : ∀ f, f ∉ l → t.page f = s.page f

namespace Took

variable {s t : Mem} {l fl : List ℕ} {f : ℕ}

theorem refl (s : Mem) : Took s [] s := ⟨rfl, fun _ _ => rfl⟩

variable (h : Took s l t)
include h

theorem refused : Took s l (t.after t.freelist) := ⟨h.taken, h.page⟩

theorem take (hfl : t.freelist = f :: fl) (p : Page) :
    Took s (l ++ [f]) ((t.after fl).write f p) := by
  refine ⟨?_, fun x hx => ?_⟩
  · rw [h.taken, hfl, append_assoc]
    rfl
  · obtain ⟨hl, hf⟩ : x ∉ l ∧ x ≠ f := by simpa using hx
    exact (update_of_ne hf _ _).trans (h.page x hl)

theorem fresh (hnodup : s.freelist.Nodup) (hfl : t.freelist = f :: fl) : f ∉ l := by
  rw [h.taken, hfl] at hnodup
  exact fun hl => (nodup_append.1 hnodup).2.2 f hl f mem_cons_self rfl

theorem subset : l ⊆ s.freelist := h.taken ▸ subset_append_left l _

theorem page_of_not_free (hf : f ∉ s.freelist) : t.page f = s.page f :=
  h.page f fun hl => hf (h.subset hl)

end Took

namespace Owned

variable {pgdir pgdir' : PageDir} {l l' : List ℕ} {f g j r : ℕ} {x : Table} {perm : BitVec 12}

theorem mono (h : Owned pgdir l) (hl : l ⊆ l') : Owned pgdir l' :=
  ⟨fun a f hf => hl (h.mem a f hf), h.inj⟩

theorem update {c : Slot} (h : Owned pgdir l) (hf : f ∉ l)
    (hat : pgdir'.frameAt = Function.update pgdir.frameAt c (some f)) : Owned pgdir' (l ++ [f]) := by
  have hcases : ∀ a e, pgdir'.frameAt a = some e → a = c ∧ e = f ∨ pgdir.frameAt a = some e ∧ e ≠ f := by
    intro a e he
    rw [hat] at he
    by_cases ha : a = c
    · rw [ha, update_self] at he
      exact Or.inl ⟨ha, (Option.some_inj.1 he).symm⟩
    · rw [update_of_ne ha] at he
      refine Or.inr ⟨he, ?_⟩
      rintro rfl
      exact hf (h.mem a _ he)
  constructor
  · intro a e he
    rcases hcases a e he with ⟨-, rfl⟩ | ⟨he, -⟩
    · simp
    · exact mem_append_left _ (h.mem a e he)
  · intro a b e ha hb
    rcases hcases a e ha with ⟨rfl, rfl⟩ | ⟨ha, hne⟩
    · rcases hcases b e hb with ⟨rfl, -⟩ | ⟨-, hne⟩
      · rfl
      · exact absurd rfl hne
    · rcases hcases b e hb with ⟨-, rfl⟩ | ⟨hb, -⟩
      · exact absurd rfl hne
      · exact h.inj a b e ha hb

theorem addTable (h : Owned pgdir l) (hr : pgdir.table (j / NPTENTRIES) = none) (hf : f ∉ l) :
    Owned (pgdir.addTable (j / NPTENTRIES) f) (l ++ [f]) := by
  refine h.update hf (c := .table (j / NPTENTRIES)) ?_
  funext a
  cases a with
  | dir => simp [PageDir.frameAt, PageDir.addTable]
  | table i =>
    by_cases hi : i = j / NPTENTRIES
    · simp [PageDir.frameAt, PageDir.addTable, hi]
    · simp [PageDir.frameAt, PageDir.addTable, hi]
  | page m => simp [PageDir.frameAt, PageDir.entry_addTable hr]

theorem frameAt_setPte (hj : j < 2 ^ 20) (hx : pgdir.table (j / NPTENTRIES) = some x) (a : Slot) :
    (pgdir.setPte (j * PGSIZE) ⟨g, perm ||| PTE_P⟩).frameAt a =
      if a = .page j ∧ j < KPAGE then some g else pgdir.frameAt a := by
  cases a with
  | dir => simp [PageDir.frameAt, PageDir.setPte]
  | table i =>
    rw [PageDir.frameAt, PageDir.table_setPte hj, Option.map_map, if_neg (by simp)]
    refine congrFun (congrArg _ (funext fun y => ?_)) _
    dsimp only [Function.comp]
    split <;> rfl
  | page m =>
    rw [PageDir.frameAt, PageDir.entry_setPte hj hx]
    by_cases hm : m = j
    · by_cases hK : j < KPAGE
      · simp [hm, hK]
      · simp [hm, hK, PageDir.frameAt]
    · simp [hm, PageDir.frameAt]

theorem setPte_kernel (h : Owned pgdir l) (hj : j < 2 ^ 20) (hK : KPAGE ≤ j)
    (hx : pgdir.table (j / NPTENTRIES) = some x) :
    Owned (pgdir.setPte (j * PGSIZE) ⟨g, perm ||| PTE_P⟩) l := by
  have hat : ∀ a, (pgdir.setPte (j * PGSIZE) ⟨g, perm ||| PTE_P⟩).frameAt a = pgdir.frameAt a :=
    fun a => (frameAt_setPte hj hx a).trans (if_neg fun ha => absurd ha.2 (not_lt.2 hK))
  exact ⟨fun a f ha => h.mem a f (hat a ▸ ha), fun a b f ha hb =>
    h.inj a b f (hat a ▸ ha) (hat b ▸ hb)⟩

theorem setPte_user (h : Owned pgdir l) (hK : j < KPAGE)
    (hx : pgdir.table (j / NPTENTRIES) = some x) (hg : g ∉ l) :
    Owned (pgdir.setPte (j * PGSIZE) ⟨g, perm ||| PTE_P⟩) (l ++ [g]) := by
  refine h.update hg (c := .page j) (funext fun a => ?_)
  rw [frameAt_setPte (lt_trans hK (by decide)) hx]
  by_cases ha : a = .page j
  · rw [if_pos ⟨ha, hK⟩, ha, update_self]
  · rw [if_neg fun h' => ha h'.1, update_of_ne ha]

end Owned

/-! ## The kernel's mappings -/

section Kernel

variable {α : Type} {L : Layout} {env : Env} {E : Stop → Prop} {s t : Mem} {pgdir : PageDir}
  {l : List ℕ} {perm : BitVec 12}
variable {Q : Option PageDir → Mem → Prop}

/-- One pass of `mappages` in the kernel's part of a directory. -/
theorem kern_mapKpage {j g : ℕ} (hnodup : s.freelist.Nodup)
    (hj : j < 2 ^ 20) (hK : KPAGE ≤ j) (hp : (pgdir.entry j).present = false)
    (ho : Owned pgdir l) (ht : Took s l t) (hfail : ∀ l' u, Took s l' u → Q none u)
    (hok : ∀ pgdir' l' u, Owned pgdir' l' → Took s l' u →
      (∀ m, pgdir'.entry m = if m = j then ⟨g, perm ||| PTE_P⟩ else pgdir.entry m) →
      Q (some pgdir') u) : Kern L env E Q (mapPage perm pgdir (j * PGSIZE) (g * PGSIZE)) t := by
  refine kern_mapPage hj hp (fun x hx => ?_) (fun _ _ => hfail l _ ht.refused)
    fun hx f fl hfl _ => ?_
  · exact hok _ l t (ho.setPte_kernel hj hK hx) ht fun m => PageDir.entry_setPte hj hx
  · have hnew := pgdir.table_addTable_self (j / NPTENTRIES) f
    refine hok _ (l ++ [f]) _ ((ho.addTable hx (ht.fresh hnodup hfl)).setPte_kernel hj hK hnew)
      (ht.take hfl _) fun m => ?_
    rw [PageDir.entry_setPte hj hnew, PageDir.entry_addTable hx]

/-- The loop of `mappages` in the kernel's part of a directory. -/
theorem kern_mapLoop {Q : Bool × PageDir → Mem → Prop} (hnodup : s.freelist.Nodup) (n : ℕ)
    {j g : ℕ} (hj : j + n < 2 ^ 20) (hg : g + n < 2 ^ 20) (hK : KPAGE ≤ j)
    (habs : ∀ m, j ≤ m → m ≤ j + n → (pgdir.entry m).present = false) (ho : Owned pgdir l)
    (ht : Took s l t) (hfail : ∀ pgdir' l' u, Took s l' u → Q (false, pgdir') u)
    (hok : ∀ pgdir' l' u, Owned pgdir' l' → Took s l' u →
      (∀ m, pgdir'.entry m = if j ≤ m ∧ m < j + n + 1 then ⟨g + (m - j), perm ||| PTE_P⟩
        else pgdir.entry m) → Q (true, pgdir') u) :
    Kern L env E Q (mapLoop perm n pgdir (j * PGSIZE) (g * PGSIZE)) t := by
  have hstart : (g + (j - j)) % 2 ^ 20 = g := by omega
  rw [← hstart]
  refine kern_mapLoop_of_pass (I := fun k d u => ∃ l', Owned d l' ∧ Took s l' u ∧ ∀ m,
      d.entry m = if j ≤ m ∧ m < k then ⟨g + (m - j), perm ||| PTE_P⟩ else pgdir.entry m)
    hj (fun k d u hk hkn hI => ?_) (fun d u hI => ?_) n le_rfl rfl
    ⟨l, ho, ht, fun m => (if_neg (by omega)).symm⟩
  · obtain ⟨l', ho', ht', he⟩ := hI
    rw [Nat.mod_eq_of_lt (by omega)]
    refine kern_mapKpage hnodup (by omega) (by omega) ?_ ho' ht' (fun _ _ h => hfail _ _ _ h)
      fun d' l' u ho' h he' => ⟨l', ho', h, entries_succ hk he he'⟩
    rw [he, if_neg (by omega)]
    exact habs k hk hkn
  · obtain ⟨l', ho', ht', he⟩ := hI
    exact hok d l' u ho' ht' he

def Kmap.first (k : Kmap) : ℕ := k.virt / PGSIZE

def Kmap.count (k : Kmap) : ℕ := (k.physEnd + 2 ^ 32 - k.physStart) % 2 ^ 32 / PGSIZE

/-- Page `m` is one of the row. -/
abbrev Kmap.Covers (k : Kmap) (m : ℕ) : Prop := k.first ≤ m ∧ m < k.first + k.count

/-- The entry that the row gives page `m`. -/
def Kmap.entry (k : Kmap) (m : ℕ) : Pte := ⟨k.physStart / PGSIZE + (m - k.first), k.perm ||| PTE_P⟩

/-- The entry of page `m` after the rows were filled in. -/
def kernelPte (ks : List Kmap) (e : Pte) (m : ℕ) : Pte :=
  ks.foldr (fun k e => if k.Covers m then k.entry m else e) e

theorem kernelPte_of_not_covers {ks : List Kmap} {e : Pte} {m : ℕ}
    (h : ∀ k ∈ ks, ¬ k.Covers m) : kernelPte ks e m = e := by
  induction ks with
  | nil => rfl
  | cons k ks ih =>
    rw [kernelPte, foldr_cons, if_neg (h k mem_cons_self)]
    exact ih fun k' hk' => h k' (mem_cons_of_mem _ hk')

/-- The row consists of whole pages of the kernel's part. -/
structure Kmap.Whole (k : Kmap) : Prop where
  virt : k.virt = k.first * PGSIZE
  phys : k.physStart = k.physStart / PGSIZE * PGSIZE
  size : (k.physEnd + 2 ^ 32 - k.physStart) % 2 ^ 32 = k.count * PGSIZE
  pos : 0 < k.count
  kernel : KPAGE ≤ k.first
  virt_le : k.first + k.count ≤ 2 ^ 20
  phys_le : k.physStart / PGSIZE + k.count ≤ 2 ^ 20

def Kmap.Disjoint (k k' : Kmap) : Prop := ∀ m, k.Covers m → ¬ k'.Covers m

theorem kern_mapKernel (hnodup : s.freelist.Nodup)
    (ks : List Kmap) : ∀ {pgdir : PageDir} {t : Mem} {l : List ℕ}, (∀ k ∈ ks, k.Whole) →
      ks.Pairwise Kmap.Disjoint →
      (∀ k ∈ ks, ∀ m, k.Covers m → (pgdir.entry m).present = false) →
      Owned pgdir l → Took s l t → (∀ l' u, Took s l' u → Q none u) →
      (∀ pgdir' l' u, Owned pgdir' l' → Took s l' u →
        (∀ m, pgdir'.entry m = kernelPte ks (pgdir.entry m) m) → Q (some pgdir') u) →
      Kern L env E Q (mapKernel ks pgdir) t := by
  induction ks with
  | nil =>
    intro pgdir t l _ _ _ ho ht _ hok
    exact wp_pure (hok pgdir l t ho ht fun _ => rfl)
  | cons k ks ih =>
    intro pgdir t l hwhole hdisj habs ho ht hfail hok
    obtain ⟨hk, hks⟩ := forall_mem_cons.1 hwhole
    obtain ⟨habs1, habs2⟩ := forall_mem_cons.1 habs
    obtain ⟨hd1, hd2⟩ := pairwise_cons.1 hdisj
    obtain ⟨n, hn⟩ : ∃ n, k.count = n + 1 := ⟨k.count - 1, by have := hk.pos; omega⟩
    have hle := hk.virt_le
    have hle' := hk.phys_le
    have hmap : mappages pgdir k.virt ((k.physEnd + 2 ^ 32 - k.physStart) % 2 ^ 32) k.physStart
        k.perm = mapLoop k.perm n pgdir (k.first * PGSIZE) (k.physStart / PGSIZE * PGSIZE) := by
      rw [hk.virt, hk.size, hn, mappages_pages pgdir (by omega), ← hk.phys]
    have hcov : ∀ m, k.first ≤ m ∧ m < k.first + n + 1 ↔ k.Covers m := fun m => by
      unfold Kmap.Covers
      omega
    rw [mapKernel, hmap]
    refine wp_seq (kern_mapLoop hnodup n (by omega) (by omega) hk.kernel
      (fun m h1 h2 => habs1 m ((hcov m).1 ⟨h1, by omega⟩)) ho ht
      (fun _ l' u h => wp_pure (hfail l' u h)) fun pgdir1 l1 u ho1 h1 he1 => ?_)
    simp only [hcov] at he1
    refine ih hks hd2 (fun k' hk' m hm => ?_) ho1 h1 hfail fun pgdir2 l2 v ho2 h2 he2 => ?_
    · rw [he1 m, if_neg fun hc => hd1 k' hk' m hc hm]
      exact habs2 k' hk' m hm
    · refine hok pgdir2 l2 v ho2 h2 fun m => ?_
      rw [he2 m, he1 m]
      by_cases hm : k.Covers m
      · rw [if_pos hm, kernelPte_of_not_covers fun k' hk' => hd1 k' hk' m hm, kernelPte,
          foldr_cons, if_pos hm]
        rfl
      · rw [if_neg hm, kernelPte, kernelPte, foldr_cons, if_neg hm]

theorem whole_of_le {k : Kmap} (hvirt : k.virt % 4096 = 0) (hphys : k.physStart % 4096 = 0)
    (hsize : (k.physEnd + 2 ^ 32 - k.physStart) % 2 ^ 32 % 4096 = 0)
    (hpos : 0 < (k.physEnd + 2 ^ 32 - k.physStart) % 2 ^ 32) (hkernel : 2 ^ 31 ≤ k.virt)
    (hv : k.virt + (k.physEnd + 2 ^ 32 - k.physStart) % 2 ^ 32 ≤ 2 ^ 32)
    (hp : k.physStart + (k.physEnd + 2 ^ 32 - k.physStart) % 2 ^ 32 ≤ 2 ^ 32) : k.Whole := by
  constructor <;> simp only [Kmap.first, Kmap.count, KPAGE, KERNBASE, PGSIZE] <;> omega

theorem Layout.data_bounds (L : Layout) :
    L.data % 4096 = 0 ∧ 0x80100000 < L.data ∧ L.data < 0x8E000000 :=
  ⟨L.data_aligned, L.lt_data, L.data_lt⟩

theorem whole_kmap (L : Layout) : ∀ k ∈ kmap L, k.Whole := by
  obtain ⟨h1, h2, h3⟩ := L.data_bounds
  intro k hk
  simp only [kmap, mem_cons, not_mem_nil, or_false] at hk
  rcases hk with rfl | rfl | rfl | rfl <;> apply whole_of_le <;>
    simp only [KERNBASE, KERNLINK, EXTMEM, PHYSTOP, DEVSPACE] <;> omega

theorem disjoint_kmap (L : Layout) : (kmap L).Pairwise Kmap.Disjoint := by
  obtain ⟨h1, h2, h3⟩ := L.data_bounds
  simp only [kmap, pairwise_cons, mem_cons, not_mem_nil, or_false,
    forall_eq_or_imp, forall_eq, Kmap.Disjoint, Kmap.Covers, Kmap.first, Kmap.count]
  simp only [KERNBASE, KERNLINK, EXTMEM, PHYSTOP, DEVSPACE, PGSIZE]
  refine ⟨⟨?_, ?_, ?_⟩, ⟨?_, ?_⟩, ?_, by simp⟩ <;> omega

theorem kern_setupkvm (hnodup : s.freelist.Nodup) (hfail : ∀ l u, Took s l u → Q none u)
    (hok : ∀ pgdir l u, Owned pgdir l → Took s l u →
      (∀ m, pgdir.entry m = kernelPte (kmap L) Pte.zero m) → Q (some pgdir) u) :
    Kern L env E Q (setupkvm L) s := by
  refine wp_seq (kern_kalloc (fun _ => wp_pure (hfail [] _ (Took.refl s).refused))
    fun f fl hfl _ => wp_seq (kern_clear ?_))
  refine kern_mapKernel hnodup (kmap L) (whole_kmap L) (disjoint_kmap L)
    (fun _ _ _ _ => by rw [PageDir.entry_of_none rfl]; rfl) (l := [f])
    ⟨fun a e he => ?_, fun a b e ha hb => ?_⟩
    ((Took.refl s).take hfl _) hfail hok
  · cases a <;> simp_all [PageDir.frameAt, PageDir.entry]
  · cases a <;> cases b <;> simp_all [PageDir.frameAt, PageDir.entry]

/-! ## `freevm` -/

def FreeFrames (L : Layout) (pgdir : PageDir) : Prop :=
  ∀ a f, pgdir.frameAt a = some f → L.Frame f

theorem kern_freeTables {Q : Unit → Mem → Prop} (n : ℕ) : ∀ {s : Mem}, n ≤ NPDENTRIES →
    (∀ r x, pgdir.table r = some x → L.Frame x.frame) →
    (∀ t, (∀ f, (∀ r x, pgdir.table r = some x → x.frame ≠ f) → t.page f = s.page f) → Q () t) →
    Kern L env E Q (freeTables pgdir n) s := by
  induction n with
  | zero =>
    intro s _ _ hQ
    exact wp_pure (hQ s fun _ _ => rfl)
  | succ n ih =>
    intro s hn hframe hQ
    rw [freeTables]
    cases hx : pgdir.table (NPDENTRIES - (n + 1)) with
    | none => exact ih (by omega) hframe hQ
    | some x =>
      refine wp_seq (kern_kfree (hframe _ x hx) (ih (by omega) hframe fun t ht => hQ t ?_))
      intro f hf
      rw [ht f hf]
      exact update_of_ne (hf _ x hx).symm _ _

theorem kern_freevm {Q : Unit → Mem → Prop} (hframe : FreeFrames L pgdir)
    (hQ : ∀ t, (∀ f, (∀ a, pgdir.frameAt a ≠ some f) → t.page f = s.page f) → Q () t) :
    Kern L env E Q (freevm pgdir) s := by
  have hpage : ∀ m, m < KPAGE → (pgdir.entry m).present = true →
      pgdir.frameAt (.page m) = some (pgdir.entry m).frame := fun m h1 h2 => if_pos ⟨h1, h2⟩
  refine wp_seq (kern_deallocuvm le_rfl (by decide)
    (fun m _ hm hp => hframe _ _ (hpage m hm hp)) fun pgdir' t hdrop => ?_)
  have htable : ∀ r x, pgdir'.table r = some x → pgdir.frameAt (.table r) = some x.frame := by
    intro r x hx
    rw [PageDir.frameAt, ← hdrop.table r, hx]
    rfl
  refine wp_seq (kern_freeTables NPDENTRIES le_rfl
    (fun r x hx => hframe _ _ (htable r x hx)) fun u hu => ?_)
  have hdir : pgdir.frameAt .dir = some pgdir'.frame := by rw [hdrop.frame]; rfl
  refine kern_kfree (hframe _ _ hdir) (hQ _ fun f hf => ?_)
  calc (u.freed pgdir'.frame).page f
      = u.page f := 
        update_of_ne (fun he : f = pgdir'.frame => hf .dir (he ▸ hdir)) _ _
    _ = t.page f := hu f fun r x hx he => hf (.table r) (he ▸ htable r x hx)
    _ = s.page f := hdrop.page f fun m hm he => hf (.page m) (he ▸ hpage m hm.2.1 hm.2.2.2)

end Kernel

end Qwin.Vm
