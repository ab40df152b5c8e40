import Qwin.Lib.Overlay
import Qwin.Vm.Args

/-!
# What `copyout` writes

`copyout` copies page by page, through any page directory. The byte of an address lies in the
frame of its page, and two pages may have one frame.

The loop asks `uva2ka` for every page, and `uva2ka` reads the entry of a page without asking
whether there is a page table for it. The address of the next page is taken modulo `2 ^ 32`.
-/

namespace Qwin.Vm

open Prog List

/-! ## The bytes of a page directory -/

namespace PageDir

variable {pgdir : PageDir} {a b i : ℕ}

/-- The frame and the offset of the byte at an address that the user may access. -/
def byteAt (pgdir : PageDir) (a : ℕ) : Option (ℕ × ℕ) :=
  (pgdir.pte a).userFrame.map fun f => (f, a % PGSIZE)

def HasTable (pgdir : PageDir) (a : ℕ) : Prop := pgdir.table (PDX a) ≠ none

section

variable (h : a / PGSIZE % 2 ^ 20 = b / PGSIZE % 2 ^ 20)
include h

/-- Only the number of the page matters, up to `2 ^ 20`. -/
theorem PDX_congr : PDX a = PDX b := by
  unfold PDX
  unfold PGSIZE at h
  omega

theorem pte_congr : pgdir.pte a = pgdir.pte b := by
  have hptx : PTX a = PTX b := by
    unfold PTX
    unfold PGSIZE at h
    omega
  rw [pte, PDX_congr h, hptx, pte]

theorem hasTable_congr : pgdir.HasTable a ↔ pgdir.HasTable b := by
  rw [HasTable, PDX_congr h, HasTable]

end

theorem byteAt_mod (pgdir : PageDir) (a i : ℕ) :
    pgdir.byteAt (a % 2 ^ 32 + i) = pgdir.byteAt (a + i) := by
  have hpage : (a % 2 ^ 32 + i) / PGSIZE % 2 ^ 20 = (a + i) / PGSIZE % 2 ^ 20 := by
    unfold PGSIZE
    omega
  have hoff : (a % 2 ^ 32 + i) % PGSIZE = (a + i) % PGSIZE := by
    unfold PGSIZE
    omega
  rw [byteAt, pte_congr hpage, hoff, byteAt]

theorem hasTable_mod (pgdir : PageDir) (a i : ℕ) :
    pgdir.HasTable (a % 2 ^ 32 + i) ↔ pgdir.HasTable (a + i) :=
  hasTable_congr (by unfold PGSIZE; omega)

theorem byteAt_add (h : a % PGSIZE + i < PGSIZE) :
    pgdir.byteAt (a + i) = (pgdir.pte a).userFrame.map fun f => (f, a % PGSIZE + i) := by
  have hpage : (a + i) / PGSIZE % 2 ^ 20 = a / PGSIZE % 2 ^ 20 := by
    unfold PGSIZE at h ⊢
    omega
  have hoff : (a + i) % PGSIZE = a % PGSIZE + i := by
    unfold PGSIZE at h ⊢
    omega
  rw [byteAt, pte_congr hpage, hoff]

end PageDir

def Mem.byte (s : Mem) (x : ℕ × ℕ) : UInt8 := (s.page x.1).getByte x.2

/-! ## The loop -/

/-- The step is not a use of a page table entry that does not exist. -/
def notNull (β : Type) : Act β → Mem → Bool
  | .null, _ => false
  | _, _ => true

/-- The semantics that stops when a null pointer is followed. -/
def strictSem (L : Layout) (env : Env) : Sem Act Mem Stop := (sem L env).assume notNull .fault

section Loop

variable {L : Layout} {env : Env} {E : Stop → Prop} {pgdir : PageDir} {s t : Mem}

/-- What a run guarantees that stops when a null pointer is followed. -/
abbrev Strict {α : Type} (L : Layout) (env : Env) (E : Stop → Prop) (Q : α → Mem → Prop) (c : VProg α)
    (s : Mem) : Prop :=
  wp (strictSem L env) (fun _ _ _ => True) E Q c s

theorem strict_uva2ka {Q : Option ℕ → Mem → Prop} {a : ℕ} (hfault : ¬ pgdir.HasTable a → E .fault)
    (hQ : pgdir.HasTable a → Q (pgdir.pte a).userFrame s) : Strict L env E Q (uva2ka pgdir a) s := by
  unfold uva2ka walkpgdir
  refine wp_seq ?_
  cases ht : pgdir.table (PDX a) with
  | none => exact wp_pure (wp_seq (wp_stop trivial rfl (hfault (not_not.2 ht))))
  | some x =>
    have hx := hQ (by rw [PageDir.HasTable, ht]; exact Option.some_ne_none x)
    unfold Pte.userFrame at hx
    refine wp_pure (wp_seq (wp_pure ?_))
    dsimp only
    split
    next hp =>
      rw [if_pos hp] at hx
      exact wp_pure hx
    next hp =>
      rw [if_neg hp] at hx
      exact wp_pure hx

theorem scatter_write {a f : ℕ} {l : List UInt8} (hf : (pgdir.pte a).userFrame = some f)
    (hl : a % PGSIZE + l.length ≤ PGSIZE) :
    Scatter (fun i => pgdir.byteAt (a + i)) l s.byte
      (s.write f ((s.page f).put (a % PGSIZE) l)).byte := by
  have hloc : ∀ i < l.length, pgdir.byteAt (a + i) = some (f, a % PGSIZE + i) := by
    intro i hi
    rw [PageDir.byteAt_add (by omega), hf]
    rfl
  constructor
  · rintro ⟨g, o⟩ hout
    by_cases hg : g = f
    · subst hg
      rw [Mem.byte, Mem.page_write]
      by_cases ho : o < PGSIZE
      · rw [Bytes.getByte_put _ _ ho, if_neg fun hin => ?_]
        · rfl
        · refine hout (o - a % PGSIZE) (by omega) ?_
          rw [hloc _ (by omega), Nat.add_sub_cancel' hin.1]
      · rw [Mem.byte, Bytes.getByte, dif_neg ho, Bytes.getByte, dif_neg ho]
    · dsimp only [Mem.byte, Mem.write]
      rw [Function.update_of_ne hg]
  · rintro x i hi hx
    refine ⟨i, hi, hx, ?_⟩
    rw [hloc i hi] at hx
    cases hx
    dsimp only [Mem.byte]
    rw [Mem.page_write, Bytes.getByte_put _ _ (by change _ < PGSIZE; omega), if_pos (by omega),
      Nat.add_sub_cancel_left, getD_eq_getElem?_getD, List.getElem?_eq_getElem hi,
      Option.getD_some]

theorem byteAt_next_page (pgdir : PageDir) {va n : ℕ} (hn : va % PGSIZE + n = PGSIZE) (i : ℕ) :
    pgdir.byteAt ((pgRoundDown va + PGSIZE) % 2 ^ 32 + i) = pgdir.byteAt (va + (n + i)) ∧
      (pgdir.HasTable ((pgRoundDown va + PGSIZE) % 2 ^ 32 + i) ↔
        pgdir.HasTable (va + (n + i))) := by
  have heq : pgRoundDown va + PGSIZE + i = va + (n + i) := by
    unfold pgRoundDown PGSIZE at *
    omega
  rw [PageDir.byteAt_mod, PageDir.hasTable_mod, heq]
  exact ⟨rfl, Iff.rfl⟩

/-- The loop of `copyout` goes on to the first page that it does not get. -/
theorem strict_copyoutLoop {Q : Bool → Mem → Prop} (fuel : ℕ) :
    ∀ {va : ℕ} {buf : List UInt8} {s : Mem}, buf.length ≤ fuel →
      (∀ n < buf.length, (∀ i < n, pgdir.byteAt (va + i) ≠ none) → ¬ pgdir.HasTable (va + n) →
        E .fault) →
      (∀ n < buf.length, (∀ i < n, pgdir.byteAt (va + i) ≠ none) → pgdir.HasTable (va + n) →
        pgdir.byteAt (va + n) = none →
        ∀ t, Scatter (fun i => pgdir.byteAt (va + i)) (buf.take n) s.byte t.byte → Q false t) →
      ((∀ i < buf.length, pgdir.byteAt (va + i) ≠ none) →
        ∀ t, Scatter (fun i => pgdir.byteAt (va + i)) buf s.byte t.byte → Q true t) →
      Strict L env E Q (copyoutLoop pgdir fuel va buf) s := by
  induction fuel with
  | zero =>
    intro va buf s hfuel _ _ hdone
    obtain rfl := length_eq_zero_iff.1 (Nat.le_zero.1 hfuel)
    exact wp_pure (hdone (fun i hi => absurd hi (Nat.not_lt_zero i)) s (.nil _ _))
  | succ fuel ih =>
    intro va buf s hfuel hfault hstop hdone
    rw [copyoutLoop]
    split
    next hnil =>
      subst hnil
      exact wp_pure (hdone (fun i hi => absurd hi (Nat.not_lt_zero i)) s (.nil _ _))
    next hbuf =>
    have hpos : 0 < buf.length := length_pos_of_ne_nil hbuf
    have hround : pgRoundDown va / PGSIZE % 2 ^ 20 = va / PGSIZE % 2 ^ 20 := by
      unfold pgRoundDown PGSIZE
      omega
    have hoff : va - pgRoundDown va = va % PGSIZE := by
      unfold pgRoundDown PGSIZE
      omega
    refine wp_seq (strict_uva2ka (fun hno => ?_) fun htable => ?_)
    · refine hfault 0 hpos (fun i hi => absurd hi (Nat.not_lt_zero i)) fun ht => hno ?_
      exact (PageDir.hasTable_congr hround).2 ht
    rw [PageDir.pte_congr hround]
    cases hf : (pgdir.pte va).userFrame with
    | none =>
      refine wp_pure (hstop 0 hpos (fun i hi => absurd hi (Nat.not_lt_zero i))
        ((PageDir.hasTable_congr hround).1 htable) ?_ s (.nil _ _))
      rw [Nat.add_zero, PageDir.byteAt, hf]
      rfl
    | some f =>
      refine wp_step trivial rfl (wp_step trivial rfl ?_)
      rw [hoff]
      generalize hn : min (PGSIZE - va % PGSIZE) buf.length = n
      have hmod : va % PGSIZE < PGSIZE := Nat.mod_lt _ (by decide)
      have hlen : (buf.take n).length = n := by
        rw [length_take]
        omega
      have hwrite := scatter_write (s := s) hf (l := buf.take n) (by omega)
      have hdrop : (buf.drop n).length = buf.length - n := length_drop
      -- If bytes are left, they begin on the next page.
      have hnext := fun i (hi : i < (buf.drop n).length) =>
        byteAt_next_page pgdir (show va % PGSIZE + n = PGSIZE by omega) i
      have hbefore : ∀ k ≤ (buf.drop n).length,
          (∀ i < k, pgdir.byteAt ((pgRoundDown va + PGSIZE) % 2 ^ 32 + i) ≠ none) →
          ∀ i < n + k, pgdir.byteAt (va + i) ≠ none := by
        intro k hk hall i hi
        by_cases hin : i < n
        · rw [PageDir.byteAt_add (by omega), hf]
          exact Option.some_ne_none _
        · have := hall (i - n) (by omega)
          rwa [(hnext (i - n) (by omega)).1, Nat.add_sub_cancel' (not_lt.1 hin)] at this
      refine ih (by omega) ?_ ?_ ?_
      · intro k hk hall hno
        refine hfault (n + k) (by omega) (hbefore k hk.le hall) fun ht => hno ?_
        exact (hnext k hk).2.2 ht
      · intro k hk hall ht hnone t hscatter
        refine hstop (n + k) (by omega) (hbefore k hk.le hall) ((hnext k hk).2.1 ht)
          ((hnext k hk).1.symm.trans hnone) t ?_
        rw [take_add]
        refine hwrite.append (hscatter.congr fun i hi => ?_)
        rw [length_take] at hi
        rw [hlen]
        exact (hnext i (by omega)).1.symm
      · intro hall t hscatter
        refine hdone (fun i hi => hbefore _ le_rfl hall i (by omega)) t ?_
        rw [← take_append_drop n buf]
        refine hwrite.append (hscatter.congr fun i hi => ?_)
        rw [hlen]
        exact (hnext i hi).1.symm

end Loop

/-! ## The whole call -/

/-- The bytes of the range have a place in memory that the user may access. -/
def Accessible (pgdir : PageDir) (va len : ℕ) : Prop := ∀ i < len, pgdir.byteAt (va + i) ≠ none

/-- `copyout` returns without following a null pointer. If it returns `0`, then the range lies
in pages that the user may access and does not wrap, its bytes are those of `buf`, and all others
are as they were. If it returns `-1`, the bytes that are not as they were are in such pages of
the range. -/
def CopiesOut (L : Layout) (env : Env) (pgdir : PageDir) (va : ℕ) (buf : List UInt8) (s : Mem) : Prop :=
  ∃ r t, (copyout pgdir va buf).run (strictSem L env) s = .ok (r, t) ∧
    (r = true → Accessible pgdir va buf.length ∧ va + buf.length ≤ 2 ^ 32 ∧
      (∀ i < buf.length, ∀ x, pgdir.byteAt (va + i) = some x → buf[i]? = some (t.byte x)) ∧
      ∀ x, (∀ i < buf.length, pgdir.byteAt (va + i) ≠ some x) → t.byte x = s.byte x) ∧
    (r = false → ∀ x, t.byte x ≠ s.byte x → ∃ i < buf.length, pgdir.byteAt (va + i) = some x)

/-- There is a page table for every page that the loop comes to. -/
def Tabled (pgdir : PageDir) (va len : ℕ) : Prop :=
  ∀ n < len, Accessible pgdir va n → pgdir.HasTable (va + n)

/-- The range does not wrap, and addresses with the same place get the same byte. -/
def Plain (pgdir : PageDir) (va : ℕ) (buf : List UInt8) : Prop :=
  va + buf.length ≤ 2 ^ 32 ∧ ∀ i < buf.length, ∀ j < buf.length,
    pgdir.byteAt (va + i) = pgdir.byteAt (va + j) → buf[i]? = buf[j]?

section Call

variable {L : Layout} {env : Env} {pgdir : PageDir} {va : ℕ} {buf : List UInt8} {s : Mem}

theorem hasTable_of_byteAt {a : ℕ} (h : pgdir.byteAt a ≠ none) : pgdir.HasTable a := by
  intro hnone
  have hzero : Pte.zero.userFrame = none := by decide
  refine h ?_
  rw [PageDir.byteAt, PageDir.pte, hnone, Option.elim_none, hzero]
  rfl

theorem tabled_of_copiesOut (h : CopiesOut L env pgdir va buf s) : Tabled pgdir va buf.length := by
  obtain ⟨r, t, hrun, -⟩ := h
  intro n hn hall
  by_contra hno
  have hnone : pgdir.byteAt (va + n) = none := by
    by_contra hsome
    exact hno (hasTable_of_byteAt hsome)
  have hstrict : Strict L env (fun _ => True) (fun _ _ => False) (copyout pgdir va buf) s := by
    refine strict_copyoutLoop _ le_rfl (fun _ _ _ _ => trivial) ?_ ?_
    · intro k _ hbefore htable hk t _
      rcases Nat.lt_trichotomy k n with hlt | rfl | hgt
      · exact hall k hlt hk
      · exact hno htable
      · exact hbefore n hgt hnone
    · intro hbefore t _
      exact hbefore n hn hnone
  exact wp_run_ok hstrict hrun

/-- `copyout` to a range that the user may access returns `0`. -/
theorem plain_of_copiesOut (h : CopiesOut L env pgdir va buf s)
    (hall : Accessible pgdir va buf.length) : Plain pgdir va buf := by
  obtain ⟨r, t, hrun, hdone, -⟩ := h
  have hstrict : Strict L env (fun _ => True) (fun r _ => r = true) (copyout pgdir va buf) s := by
    refine strict_copyoutLoop _ le_rfl (fun _ _ _ _ => trivial) ?_ fun _ _ _ => rfl
    intro n hn _ _ hnone
    exact absurd hnone (hall n hn)
  have hr := wp_run_ok hstrict hrun
  obtain ⟨-, hwrap, hbytes, -⟩ := hdone hr
  refine ⟨hwrap, fun i hi j hj hsame => ?_⟩
  obtain ⟨x, hx⟩ := Option.ne_none_iff_exists'.1 (hall i hi)
  rw [hbytes i hi x hx, hbytes j hj x (hsame ▸ hx)]

/-- `copyout` does what it is for exactly if there is a page table for every page that it comes
to and, when the user may access the whole range, the range does not wrap and no two of its
pages contend for a byte. -/
theorem copies_out_iff (L : Layout) (env : Env) (pgdir : PageDir) (va : ℕ) (buf : List UInt8)
    (s : Mem) : CopiesOut L env pgdir va buf s ↔
      Tabled pgdir va buf.length ∧ (Accessible pgdir va buf.length → Plain pgdir va buf) := by
  refine ⟨fun h => ⟨tabled_of_copiesOut h, plain_of_copiesOut h⟩, ?_⟩
  rintro ⟨htabled, hplain⟩
  refine wp_run_exists (strict_copyoutLoop _ le_rfl ?_ ?_ ?_)
  · intro n hn hall hno
    exact hno (htabled n hn hall)
  · intro n hn _ _ _ t hscatter
    refine ⟨nofun, fun _ x hx => ?_⟩
    obtain ⟨i, hi, hloc⟩ := hscatter.exists_of_ne hx
    rw [length_take] at hi
    exact ⟨i, by omega, hloc⟩
  · intro hall t hscatter
    obtain ⟨hwrap, hagree⟩ := hplain hall
    refine ⟨fun _ => ⟨hall, hwrap, ?_, hscatter.outside⟩, nofun⟩
    intro i hi x hx
    exact hscatter.value hagree hi hx

end Call

/-- Address `0x1000` has no page table. A null pointer is followed, and what is there makes
`copyout` write to frame 7. -/
theorem copyout_follows_null :
    ¬ CopiesOut smallKernel ⟨fun _ => false, ⟨7, PTE_P ||| PTE_U⟩⟩ lonePage 0x1000 [1] emptyMem ∧
    ∃ t, (copyout lonePage 0x1000 [1]).run (sem smallKernel ⟨fun _ => false, ⟨7, PTE_P ||| PTE_U⟩⟩)
      emptyMem = .ok (true, t) ∧ t.byte (7, 0) = 1 := by
  constructor
  · rintro ⟨r, t, hrun, -⟩
    cases hrun
  · exact ⟨_, rfl, by decide⟩

end Qwin.Vm
