import Qwin.Vm.Owned

/-!
# The address space of a child

`copyuvm` makes a directory with the kernel's mappings and copies the pages of the parent one
by one into pages of the allocator. Up to the page it has come to, the new directory has the
flags of the old one and pages with the same contents; from there on it has the entries of
`setupkvm` only. All its frames were free before, so the parent keeps its pages.
-/

namespace Qwin.Vm

open Prog
open Function (update_of_ne update_self)

/-- The directory `d` is the copy of the pages before `j`, with frames taken from the free
list of `s`. -/
structure CopiedTo (L : Layout) (pgdir : PageDir) (s : Mem) (j : ℕ) (l : List ℕ) (d : PageDir)
    (t : Mem) : Prop where
  owned : Owned d l
  took : Took s l t
  flags : ∀ m, m < j → (d.entry m).flags = (pgdir.entry m).flags
  page : ∀ m, m < j → t.page (d.entry m).frame = s.page (pgdir.entry m).frame
  rest : ∀ m, j ≤ m → d.entry m = kernelPte (kmap L) Pte.zero m

section

variable {L : Layout} {env : Env} {E : Stop → Prop} {pgdir d d' : PageDir} {s t u : Mem} {j sz : ℕ}
  {l : List ℕ}

theorem kernelPte_user {m : ℕ} (h : m < KPAGE) : kernelPte (kmap L) Pte.zero m = Pte.zero :=
  kernelPte_of_not_covers fun k hk hc =>
    absurd (lt_of_le_of_lt (le_trans (whole_kmap L k hk).kernel hc.1) h) (lt_irrefl _)

theorem present_of_flags {e e' : Pte} (h : e.flags = e'.flags) : e.present = e'.present := by
  rw [Pte.present, Pte.present, h]

/-- Setting the bit of a page that is present changes nothing. -/
theorem flags_or_present {e : Pte} (h : e.present = true) : e.flags ||| PTE_P = e.flags := by
  apply BitVec.eq_of_getLsbD_eq
  intro i _
  rw [BitVec.getLsbD_or]
  by_cases hi : i = 0
  · subst hi
    rw [show e.flags.getLsbD 0 = true from h]
    rfl
  · have h0 : PTE_P.getLsbD i = false := by
      simp [BitVec.getLsbD_one, hi]
    rw [h0, Bool.or_false]

namespace CopiedTo

variable (h : CopiedTo L pgdir s j l d t)
include h

theorem frame_mem {m : ℕ} (hm : m < j) (hK : m < KPAGE)
    (hp : (pgdir.entry m).present = true) : (d.entry m).frame ∈ l := by
  refine h.owned.mem (.page m) _ (if_pos ⟨hK, ?_⟩)
  rw [present_of_flags (h.flags m hm), hp]

theorem freeFrames (hsound : Sound L s) : FreeFrames L d :=
  fun a f hf => hsound.frame f (h.took.subset (h.owned.mem a f hf))

theorem step (hK : j < KPAGE)
    (hpres : ∀ m, m ≤ j → (pgdir.entry m).present = true) {g : ℕ} {l' : List ℕ}
    (howned : Owned d' l') (htook : Took s l' u)
    (hentry : ∀ m, d'.entry m = if m = j then ⟨g, (pgdir.entry j).flags ||| PTE_P⟩ else d.entry m)
    (hg : u.page g = s.page (pgdir.entry j).frame) (hpage : ∀ f ∈ l, u.page f = t.page f) :
    CopiedTo L pgdir s (j + 1) l' d' u := by
  refine ⟨howned, htook, fun m hm => ?_, fun m hm => ?_, fun m hm => ?_⟩
  · rw [hentry m]
    split
    next hmj => rw [hmj, flags_or_present (hpres j le_rfl)]
    next hmj => exact h.flags m (by omega)
  · rw [hentry m]
    split
    next hmj => rw [hmj, hg]
    next hmj =>
      have hlt : m < j := by omega
      rw [hpage _ (h.frame_mem hlt (lt_trans hlt hK) (hpres m (le_of_lt hlt))), h.page m hlt]
  · rw [hentry m, if_neg (by omega)]
    exact h.rest m (by omega)

end CopiedTo

variable {Q : Option PageDir → Mem → Prop}

theorem kern_giveUp (hsound : Sound L s)
    (h : CopiedTo L pgdir s j l d t) {l' : List ℕ} (htook : Took s l' u)
    (hfail : ∀ v, (∀ f, f ∉ s.freelist → v.page f = s.page f) → Q none v) :
    Kern L env E Q (freevm d >>= fun _ => pure none) u := by
  refine wp_seq (kern_freevm (h.freeFrames hsound) fun v hv => wp_pure (hfail v fun f hf => ?_))
  rw [hv f fun a ha => hf (h.took.subset (h.owned.mem a f ha)), htook.page_of_not_free hf]

/-- The page taken for page `j`, with its contents, is mapped. -/
theorem kern_copyPage {Q : Bool × PageDir → Mem → Prop} (hnodup : s.freelist.Nodup)
    (hK : j < KPAGE) (hpres : ∀ m, m ≤ j → (pgdir.entry m).present = true)
    (h : CopiedTo L pgdir s j l d t) {g : ℕ} {fl : List ℕ} (hfl : t.freelist = g :: fl)
    (hfail : ∀ l' u, Took s l' u → Q (false, d) u)
    (hok : ∀ d' l' u, CopiedTo L pgdir s (j + 1) l' d' u → Q (true, d') u) :
    Kern L env E Q (mappages d (j * PGSIZE) PGSIZE (g * PGSIZE) (pgdir.entry j).flags)
      ((t.after fl).write g (s.page (pgdir.entry j).frame)) := by
  have h20 : j < 2 ^ 20 := lt_trans hK (by decide)
  have hg : g ∉ l := h.took.fresh hnodup hfl
  have htook := h.took.take hfl (s.page (pgdir.entry j).frame)
  have habs : (d.entry j).present = false := by
    rw [h.rest j le_rfl, kernelPte_user hK]
    rfl
  have hold : ∀ f ∈ l, ((t.after fl).write g (s.page (pgdir.entry j).frame)).page f = t.page f :=
    fun f hf => update_of_ne (fun he : f = g => hg (he ▸ hf)) _ _
  refine kern_mappages h20 habs (fun x hx => ?_) (fun _ _ => hfail _ _ htook.refused)
    fun hx f fl' hfl' _ => ?_
  · exact hok _ _ _ (h.step hK hpres (h.owned.setPte_user hK hx hg) htook
      (fun m => PageDir.entry_setPte h20 hx) (update_self ..) hold)
  · -- the page table comes from the page after `g`
    have hfresh : f ∉ l ++ [g] := htook.fresh hnodup hfl'
    obtain ⟨hf, hfg⟩ : f ∉ l ∧ f ≠ g := by simpa using hfresh
    have hnew := d.table_addTable_self (j / NPTENTRIES) f
    have howned : Owned ((d.addTable (j / NPTENTRIES) f).setPte (j * PGSIZE)
        ⟨g, (pgdir.entry j).flags ||| PTE_P⟩) (l ++ [f] ++ [g]) :=
      (h.owned.addTable hx hf).setPte_user hK hnew (by simp [hg, hfg.symm])
    refine hok _ (l ++ [g] ++ [f]) _ (h.step (g := g) hK hpres (howned.mono ?_)
      (htook.take hfl' _) (fun m => ?_) ?_ fun e he => ?_)
    · intro e he
      simp only [List.mem_append, List.mem_singleton] at he ⊢
      tauto
    · rw [PageDir.entry_setPte h20 hnew, PageDir.entry_addTable hx]
    · exact (update_of_ne hfg.symm _ _).trans (update_self ..)
    · exact (update_of_ne (fun hef : e = f => hf (hef ▸ he)) _ _).trans (hold e he)

variable (hsound : Sound L s) (hsz : sz ≤ KERNBASE)
  (hpres : ∀ m, m < pages sz → (pgdir.entry m).present = true)
  (hapart : ∀ m, m < pages sz → (pgdir.entry m).frame ∉ s.freelist)
  (hfail : ∀ v, (∀ f, f ∉ s.freelist → v.page f = s.page f) → Q none v)
  (hok : ∀ d l t, CopiedTo L pgdir s (pages sz) l d t → Q (some d) t)

include hsound hsz hpres hapart hfail hok

theorem kern_copyLoop (fuel : ℕ) :
    ∀ {j : ℕ} {d : PageDir} {l : List ℕ} {t : Mem}, pages sz - j ≤ fuel → j ≤ pages sz →
      CopiedTo L pgdir s j l d t → Kern L env E Q (copyLoop pgdir sz fuel d (j * PGSIZE)) t := by
  induction fuel with
  | zero =>
    intro j d l t hfuel hj h
    obtain rfl : j = pages sz := by omega
    exact wp_pure (hok d l t h)
  | succ fuel ih =>
    intro j d l t hfuel hj h
    rw [copyLoop]
    by_cases hlt : j < pages sz
    · have hK : j < KPAGE := lt_of_lt_of_le hlt (pages_le hsz)
      have h20 : j < 2 ^ 20 := lt_trans hK (by decide)
      have hp := hpres j hlt
      rw [if_pos (lt_pages_iff.1 hlt)]
      refine wp_seq (kern_walk h20 (fun hnone => ?_) fun x hx => ?_)
      · obtain ⟨x, hx⟩ := PageDir.table_of_present hp
        rw [hnone] at hx
        cases hx
      · dsimp only
        rw [PageDir.pte_mul h20, if_pos hp]
        refine wp_seq (kern_kalloc (fun _ => kern_giveUp hsound h h.took.refused hfail)
          fun g fl hfl _ => ?_)
        have hpage : (t.after fl).page (pgdir.entry j).frame = s.page (pgdir.entry j).frame :=
          h.took.page_of_not_free (hapart j hlt)
        refine wp_seq (wp_last trivial rfl (wp_seq (wp_last trivial rfl (wp_seq ?_))))
        change Kern L env E _ _ ((t.after fl).write g ((t.after fl).page (pgdir.entry j).frame))
        rw [hpage]
        refine kern_copyPage hsound.nodup hK (fun m hm => hpres m (lt_of_le_of_lt hm hlt)) h hfl
          (fun l' u htook => kern_giveUp hsound h htook hfail) fun d' l' u h' => ?_
        have hnext : (j * PGSIZE + PGSIZE) % 2 ^ 32 = (j + 1) * PGSIZE :=
          add_page (lt_of_le_of_lt hK (by decide))
        dsimp only
        rw [if_pos rfl, hnext]
        exact ih (by omega) hlt h'
    · rw [if_neg fun h' => hlt (lt_pages_iff.2 h')]
      obtain rfl : j = pages sz := by omega
      exact wp_pure (hok d l t h)

theorem kern_copyuvm : Kern L env E Q (copyuvm L pgdir sz) s := by
  refine wp_seq (kern_setupkvm hsound.nodup
    (fun l u htook => wp_pure (hfail u fun f hf => htook.page_of_not_free hf))
    fun d l u howned htook hentry => ?_)
  have hstart : CopiedTo L pgdir s 0 l d u :=
    ⟨howned, htook, fun m hm => absurd hm (Nat.not_lt_zero m),
      fun m hm => absurd hm (Nat.not_lt_zero m), fun m _ => hentry m⟩
  have hfuel : pages sz - 0 ≤ sz / PGSIZE + 1 := by
    unfold pages PGSIZE
    omega
  have hloop : Kern L env E Q (copyLoop pgdir sz (sz / PGSIZE + 1) d (0 * PGSIZE)) u :=
    kern_copyLoop hsound hsz hpres hapart hfail hok _ hfuel (Nat.zero_le _) hstart
  rwa [Nat.zero_mul] at hloop

end

structure IsCopy (L : Layout) (pgdir : PageDir) (sz : ℕ) (s : Mem) (d : PageDir) (t : Mem) :
    Prop where
  present_iff : ∀ m, m < KPAGE → ((d.entry m).present = true ↔ m < pages sz)
  flags : ∀ m, m < pages sz → (d.entry m).flags = (pgdir.entry m).flags
  page : ∀ m, m < pages sz → t.page (d.entry m).frame = s.page (pgdir.entry m).frame
  -- the frames of the copy are all different, and none of them is one of the parent
  inj : ∀ a b f, d.frameAt a = some f → d.frameAt b = some f → a = b
  apart : ∀ a b f, d.frameAt a = some f → pgdir.frameAt b ≠ some f
  -- the kernel's part is that of every directory that `setupkvm` makes
  kernel : ∀ env s' d' t', s'.freelist.Nodup →
    (setupkvm L).run (sem L env) s' = .ok (some d', t') → ∀ m, KPAGE ≤ m → d.entry m = d'.entry m
  -- what one of the two writes, the other does not see
  alone : ∀ (u : Mem) m m' p, m < pages sz → m' < pages sz →
    (u.write (d.entry m).frame p).page (pgdir.entry m').frame = u.page (pgdir.entry m').frame ∧
      (u.write (pgdir.entry m').frame p).page (d.entry m).frame = u.page (d.entry m).frame

theorem entry_setupkvm {L : Layout} {env : Env} {s t : Mem} {d : PageDir}
    (hnodup : s.freelist.Nodup) (hrun : (setupkvm L).run (sem L env) s = .ok (some d, t)) (m : ℕ) :
    d.entry m = kernelPte (kmap L) Pte.zero m := by
  have hkern : Kern L env (fun _ => True)
      (fun r _ => ∀ d, r = some d → ∀ m, d.entry m = kernelPte (kmap L) Pte.zero m)
      (setupkvm L) s := by
    refine kern_setupkvm hnodup (fun _ _ _ => nofun) fun d' _ _ _ _ hentry d hd => ?_
    obtain rfl := Option.some_inj.1 hd
    exact hentry
  exact wp_run_ok hkern hrun d rfl m

theorem CopiedTo.isCopy {L : Layout} {pgdir d : PageDir} {s t : Mem} {sz : ℕ} {l : List ℕ}
    (h : CopiedTo L pgdir s (pages sz) l d t) (hsz : sz ≤ KERNBASE)
    (hpres : ∀ m, m < pages sz → (pgdir.entry m).present = true)
    (hinuse : ∀ a f, pgdir.frameAt a = some f → f ∉ s.freelist) : IsCopy L pgdir sz s d t := by
  have hK : ∀ m, m < pages sz → m < KPAGE := fun m hm => lt_of_lt_of_le hm (pages_le hsz)
  have hsrc : ∀ m, m < pages sz → (pgdir.entry m).frame ∉ s.freelist :=
    fun m hm => hinuse (.page m) _ (if_pos ⟨hK m hm, hpres m hm⟩)
  have hnew : ∀ m, m < pages sz → (d.entry m).frame ∈ s.freelist :=
    fun m hm => h.took.subset (h.frame_mem hm (hK m hm) (hpres m hm))
  refine ⟨fun m hm => ?_, h.flags, h.page, h.owned.inj, fun a b f ha hb => ?_,
    fun env s' d' t' hnodup hrun m hm => ?_, fun u m m' p hm hm' => ?_⟩
  · rcases Nat.lt_or_ge m (pages sz) with hlt | hge
    · exact iff_of_true (by rw [present_of_flags (h.flags m hlt), hpres m hlt]) hlt
    · rw [h.rest m hge, kernelPte_user hm]
      exact iff_of_false (by decide) (not_lt.2 hge)
  · exact hinuse b f hb (h.took.subset (h.owned.mem a f ha))
  · rw [h.rest m (le_trans (pages_le hsz) hm), entry_setupkvm hnodup hrun]
  · have hne : (pgdir.entry m').frame ≠ (d.entry m).frame :=
      fun he => hsrc m' hm' (he ▸ hnew m hm)
    exact ⟨update_of_ne hne _ _, update_of_ne hne.symm _ _⟩

/-- `copyuvm` comes back without a panic, leaves the parent as it was, and what it returns is
a copy. -/
theorem copyuvm_copies (L : Layout) (env : Env) (pgdir : PageDir) (sz : ℕ) (s : Mem)
    (hsz : sz ≤ KERNBASE) (hpres : ∀ m, m < pages sz → (pgdir.entry m).present = true)
    (hsound : Sound L s) (hinuse : ∀ a f, pgdir.frameAt a = some f → f ∉ s.freelist) :
    ∃ r t, (copyuvm L pgdir sz).run (sem L env) s = .ok (r, t) ∧
      (∀ a f, pgdir.frameAt a = some f → t.page f = s.page f) ∧
      ∀ d, r = some d → IsCopy L pgdir sz s d t := by
  have hapart : ∀ m, m < pages sz → (pgdir.entry m).frame ∉ s.freelist := fun m hm =>
    hinuse (.page m) _ (if_pos ⟨lt_of_lt_of_le hm (pages_le hsz), hpres m hm⟩)
  have hkern : Kern L env (fun _ => False) (fun r t =>
      (∀ a f, pgdir.frameAt a = some f → t.page f = s.page f) ∧
        ∀ d, r = some d → IsCopy L pgdir sz s d t) (copyuvm L pgdir sz) s := by
    refine kern_copyuvm hsound hsz hpres hapart (fun v hv => ⟨fun a f ha => ?_, nofun⟩)
      fun d l t h => ⟨fun a f ha => ?_, fun d' hd => ?_⟩
    · exact hv f (hinuse a f ha)
    · exact h.took.page_of_not_free (hinuse a f ha)
    · obtain rfl := Option.some_inj.1 hd
      exact h.isCopy hsz hpres hinuse
  exact wp_run_exists hkern

/-- A process of three pages, the second one a guard page. -/
def guarded : PageDir where
  frame := 512
  table r := if r = 0 then some ⟨513, fun i =>
      if i < 3 then ⟨514 + i, if i = 1 then PTE_P ||| PTE_W else userFlags⟩ else Pte.zero⟩
    else none

def hundredFree : Mem := ⟨fun _ => Bytes.zero 4096, List.range' 600 100, 0⟩

theorem guarded_frame_lt {a : Slot} {f : ℕ} (h : guarded.frameAt a = some f) : f < 600 := by
  cases a with
  | dir =>
    obtain rfl := Option.some_inj.1 h
    decide
  | table r =>
    obtain ⟨x, hx, rfl⟩ := Option.map_eq_some_iff.1 h
    obtain rfl := Option.some_inj.1 (Option.ite_none_right_eq_some.1 hx).2
    decide
  | page m =>
    obtain ⟨⟨-, hp⟩, hf⟩ := Option.ite_none_right_eq_some.1 h
    obtain rfl := Option.some_inj.1 hf
    obtain ⟨x, hx⟩ := PageDir.table_of_present hp
    obtain rfl := Option.some_inj.1 (Option.ite_none_right_eq_some.1 hx).2
    rw [PageDir.entry, hx, Option.elim_some]
    dsimp only
    split
    next h3 => exact Nat.add_lt_add_left h3 514 |>.trans (by decide)
    · decide

theorem copyuvm_copies_guarded :
    ∃ r t, (copyuvm smallKernel guarded 0x3000).run (sem smallKernel ⟨fun _ => false, Pte.zero⟩)
        hundredFree = .ok (r, t) ∧
      (∀ a f, guarded.frameAt a = some f → t.page f = hundredFree.page f) ∧
      ∀ d, r = some d → IsCopy smallKernel guarded 0x3000 hundredFree d t := by
  refine copyuvm_copies smallKernel ⟨fun _ => false, Pte.zero⟩ guarded 0x3000 hundredFree
    (by decide) (fun m hm => ?_) ⟨List.nodup_range' .., fun f hf => ?_⟩ fun a f ha hf => ?_
  · have hthree : ∀ m, m < 3 → (guarded.entry m).present = true := by decide
    exact hthree m hm
  · have hf' := List.mem_range'_1.1 hf
    simp only [Layout.Frame, smallKernel, KERNLINK, KERNBASE, EXTMEM, PGSIZE, PHYSTOP]
    omega
  · exact absurd (List.mem_range'_1.1 hf).1 (not_le.2 (guarded_frame_lt ha))

end Qwin.Vm
