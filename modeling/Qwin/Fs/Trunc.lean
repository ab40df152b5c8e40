import Qwin.Fs.Inode

/-!
# `itrunc`

Truncation frees every block an inode points to. While the entries of the indirect
block are freed, the block itself still names them, so the pointers that count are
those of the table with the entries already freed masked out.
-/

namespace Qwin.Fs

open Prog
open Function (update update_of_ne update_self update_eq_self update_idem update_apply)

def BitmapOnly (sb : Superblock) (d d' : ℕ → Block) : Prop :=
  ∀ s, (∀ b, b < sb.size → s ≠ bblock b sb.ninodes) → d' s = d s

namespace BitmapOnly

variable {sb : Superblock} {d d' d'' : ℕ → Block} {A : ℕ → Fin 13 → ℕ}

theorem refl (sb : Superblock) (d : ℕ → Block) : BitmapOnly sb d d := fun _ _ => rfl

theorem trans (h : BitmapOnly sb d d') (h' : BitmapOnly sb d' d'') : BitmapOnly sb d d'' :=
  fun s hs => (h' s hs).trans (h s hs)

theorem unmark {b : ℕ} (hb : b < sb.size) : BitmapOnly sb d (unmarkBlock sb d b) :=
  fun _ hs => update_of_ne (hs b hb) _ _

variable (h : BitmapOnly sb d d')
include h

theorem data {s : ℕ} (hs : sb.dataStart ≤ s) : d' s = d s :=
  h s fun _ hb => Nat.ne_of_gt (lt_of_lt_of_le (bblock_lt_dataStart hb) hs)

theorem iblock {i : ℕ} (hi : i < sb.ninodes) : d' (iblock i) = d (Fs.iblock i) :=
  h _ fun _ _ => Nat.ne_of_lt (iblock_lt_bblock hi)

theorem super : d' 1 = d 1 :=
  h 1 fun _ _ => Nat.ne_of_lt one_lt_bblock

theorem agrees (ho : InOrder sb A d) (j : ℕ) : Agrees d d' (A j) :=
  fun _ hk => h.data (ho.inData hk).1

end BitmapOnly

variable {d : ℕ → Block}

/-- The bits outside the data area that are set stay set. -/
theorem blockBit_unmark_of_ne {sb : Superblock} {b c : ℕ} (h : c ≠ b) :
    blockBit sb (unmarkBlock sb d b) c = blockBit sb d c := by
  rw [blockBit_unmark, update_of_ne h]

theorem LogReserved.unmark {sb : Superblock} {b : ℕ} (h : LogReserved sb d)
    (hb : sb.InData b) : LogReserved sb (unmarkBlock sb d b) := by
  intro c hc hcs
  rw [blockBit_unmark_of_ne (Nat.ne_of_gt (lt_of_lt_of_le hb.2 hc))]
  exact h c hc hcs

theorem reserved_unmark {sb : Superblock} {b : ℕ} (hb : sb.InData b)
    (h : ∀ c, c < sb.dataStart → c < sb.size → blockBit sb d c = true) (c : ℕ)
    (hc : c < sb.dataStart) (hcs : c < sb.size) : blockBit sb (unmarkBlock sb d b) c = true := by
  rw [blockBit_unmark_of_ne (Nat.ne_of_lt (lt_of_lt_of_le hc hb.1))]
  exact h c hc hcs

namespace InOrder

variable {sb : Superblock} {A : ℕ → Fin 13 → ℕ} {d : ℕ → Block} {i : ℕ}

theorem freeAddr (h : InOrder sb A d) {k : Fin 13} (hk12 : k ≠ 12) (hk : A i k ≠ 0) :
    InOrder sb (update A i (update (A i) k 0)) (unmarkBlock sb d (A i k)) := by
  have hdata := h.inData_addr hk
  have hbm : BitmapOnly sb d (unmarkBlock sb d (A i k)) := BitmapOnly.unmark hdata.lt_size
  have hk0 : ptrs A d (i, k.val) ≠ 0 := by
    rw [ptrs, ptr_addr]
    exact hk
  have hrel := h.owned.release hk0
  rw [show ptrs A d (i, k.val) = A i k from ptr_addr d (A i) k] at hrel
  refine ⟨?_, hrel.congr ?_ ?_, reserved_unmark hdata h.reserved⟩
  · rw [hbm.super]
    exact h.super
  · rintro ⟨j, l⟩
    by_cases hj : j = i
    · subst hj
      rw [ptrs, update_self, ptr_update_addr _ _ _ hk12, (hbm.agrees h j).ptr, update_apply]
      simp only [Prod.mk.injEq, true_and]
      rfl
    · have hne : (j, l) ≠ (i, k.val) := fun he => hj (Prod.ext_iff.1 he).1
      rw [update_of_ne hne, ptrs, update_of_ne hj, (hbm.agrees h j).ptr, ptrs]
  · intro b _
    rw [blockBit_unmark]

end InOrder

/-! ## The direct blocks -/

variable {p : ℕ} {E : End BState → Prop} {st st' st'' : BState} {sb : Superblock}
  {A : ℕ → Fin 13 → ℕ} {i ip : ℕ} {a a' : Fin 13 → ℕ}

/-- Blocks of inode `i` were freed, and its addresses are now `a`. -/
structure Truncated (sb : Superblock) (A : ℕ → Fin 13 → ℕ) (i ip : ℕ) (a : Fin 13 → ℕ)
    (st st' : BState) : Prop where
  order : InOrder sb (view A i ip st') st'.disk
  logRes : LogReserved sb st.disk → LogReserved sb st'.disk
  bitmap : BitmapOnly sb st.disk st'.disk
  extent : st'.extent = update st.extent ip ⟨(st.extent ip).size, a⟩
  core : st'.core = st.core
  held : st'.held = st.held
  logsize : st'.logsize = st.logsize

theorem Truncated.refl (h : InOrder sb (view A i ip st) st.disk) :
    Truncated sb A i ip (st.extent ip).addrs st st :=
  ⟨h, id, BitmapOnly.refl _ _, (update_eq_self _ _).symm, rfl, rfl, rfl⟩

theorem Truncated.trans (h : Truncated sb A i ip a st st')
    (h' : Truncated sb A i ip a' st' st'') : Truncated sb A i ip a' st st'' := by
  refine ⟨h'.order, h'.logRes ∘ h.logRes, h.bitmap.trans h'.bitmap, ?_, h'.core.trans h.core,
    h'.held.trans h.held, h'.logsize.trans h.logsize⟩
  rw [h'.extent, h.extent, update_self, update_idem]

/-- The state after address `k` of an inode was freed and cleared. -/
def BState.freeAddr (st : BState) (sb : Superblock) (ip : ℕ) (k : Fin 13) : BState :=
  { st.free sb ((st.extent ip).addrs k) with
    extent := update st.extent ip
      ⟨(st.extent ip).size, update (st.extent ip).addrs k 0⟩ }

theorem truncated_freeAddr (h : InOrder sb (view A i ip st) st.disk) {k : Fin 13} (hk12 : k ≠ 12)
    (hk : (st.extent ip).addrs k ≠ 0) :
    Truncated sb A i ip (update (st.extent ip).addrs k 0) st (st.freeAddr sb ip k) := by
  have horder := h.freeAddr (i := i) hk12
  have hdata := h.inData_addr (i := i) (k := k)
  rw [view_self] at horder hdata
  refine ⟨?_, fun hlog => hlog.unmark (hdata hk), BitmapOnly.unmark (hdata hk).lt_size, rfl, rfl,
    rfl, rfl⟩
  have hview : view A i ip (st.freeAddr sb ip k) =
      update (view A i ip st) i (update (st.extent ip).addrs k 0) := by
    rw [view, view, update_idem, BState.freeAddr]
    dsimp only
    rw [update_self]
  rw [hview]
  exact horder hk

/-- The direct addresses `k`, …, `k + n - 1` were freed. -/
def Cleared (sb : Superblock) (A : ℕ → Fin 13 → ℕ) (i ip k n : ℕ) (st st' : BState) : Prop :=
  ∃ a, Truncated sb A i ip a st st' ∧ (∀ l : Fin 13, k ≤ l.val → l.val < k + n → a l = 0) ∧
    ∀ l : Fin 13, ¬ (k ≤ l.val ∧ l.val < k + n) → a l = (st.extent ip).addrs l

theorem runs_truncDirect (hE : Tolerant E) (n k : ℕ) (hkn : k + n ≤ NDIRECT)
    (h : InOrder sb (view A i ip st) st.disk) (hheld : st.held = []) :
    Runs p E (fun _ => Cleared sb A i ip k n st) (truncDirect ip n k) st := by
  induction n generalizing k st with
  | zero =>
    rw [truncDirect]
    exact wp_pure ⟨_, Truncated.refl h, fun l h1 h2 => absurd h2 (by omega), fun _ _ => rfl⟩
  | succ n ih =>
    have h12 : k + (n + 1) ≤ 12 := hkn
    have hkval : (Fin.ofNat 13 k).val = k := Nat.mod_eq_of_lt (by omega)
    have hk12 : Fin.ofNat 13 k ≠ 12 := by
      intro he
      have hv : k = 12 := hkval.symm.trans (congrArg Fin.val he)
      omega
    have hrest : ∀ st1,
        Truncated sb A i ip (update (st.extent ip).addrs (Fin.ofNat 13 k) 0) st st1 →
        Runs p E (fun _ => Cleared sb A i ip k (n + 1) st) (truncDirect ip n (k + 1)) st1 := by
      intro st1 hstep
      refine wp_conseq (ih (k + 1) (by omega) hstep.order (hstep.held.trans hheld)) ?_
      rintro _ st' ⟨a, ht, hz, hs⟩
      rw [hstep.extent, update_self] at hs
      dsimp only at hs
      refine ⟨a, hstep.trans ht, fun l h1 h2 => ?_, fun l hl => ?_⟩
      · rcases Nat.eq_or_lt_of_le h1 with he | hlt
        · have hl : l = Fin.ofNat 13 k := Fin.ext (by rw [hkval, he])
          rw [hs l (by omega), hl, update_self]
        · exact hz l hlt (by omega)
      · have hne : l ≠ Fin.ofNat 13 k := by
          intro he
          apply hl
          rw [he, hkval]
          omega
        rw [hs l (by omega), update_of_ne hne]
    rw [truncDirect, Runs, wp_bind]
    refine runs_getExtent ?_
    by_cases h0 : (st.extent ip).addrs (Fin.ofNat 13 k) = 0
    · rw [if_pos h0]
      have hsame : update (st.extent ip).addrs (Fin.ofNat 13 k) 0 = (st.extent ip).addrs :=
        Function.update_eq_self_iff.2 h0.symm
      exact hrest st (hsame.symm ▸ Truncated.refl h)
    · have hdata := h.inData_addr (i := i) (k := Fin.ofNat 13 k)
      have hbit := h.bit_ptr (i := i) (k := (Fin.ofNat 13 k).val)
      rw [view_self] at hdata hbit
      rw [ptr_addr] at hbit
      rw [if_neg h0, wp_bind]
      refine runs_bfree (F := ∅) h.super (heldInData_nil hheld) (hdata h0).lt_size (hbit h0)
        (Or.inl hE) (Or.inl hE) ?_
      rw [setAddr, wp_bind]
      exact runs_setExtent (hrest _ (truncated_freeAddr h hk12 h0))

/-! ## The indirect block -/

/-- The pointers `P` without the first `j` entries of the indirect block of inode `i`. -/
def maskEntries (P : ℕ × ℕ → ℕ) (i j : ℕ) (x : ℕ × ℕ) : ℕ :=
  if x.1 = i ∧ 13 ≤ x.2 ∧ x.2 < 13 + j then 0 else P x

theorem maskEntries_zero (P : ℕ × ℕ → ℕ) (i : ℕ) : maskEntries P i 0 = P := by
  funext x
  rw [maskEntries, if_neg (by omega)]

theorem maskEntries_of_not_mem (P : ℕ × ℕ → ℕ) (i j : ℕ) {l : ℕ} (h : ¬ (13 ≤ l ∧ l < 13 + j)) :
    maskEntries P i j (i, l) = P (i, l) := if_neg fun hc => h hc.2

theorem maskEntries_succ (P : ℕ × ℕ → ℕ) (i j : ℕ) :
    maskEntries P i (j + 1) = update (maskEntries P i j) (i, 13 + j) 0 := by
  funext x
  rw [update_apply]
  by_cases hx : x = (i, 13 + j)
  · rw [if_pos hx, hx, maskEntries, if_pos ⟨rfl, by omega, by omega⟩]
  · have hne : ¬ (x.1 = i ∧ x.2 = 13 + j) := fun h => hx (Prod.ext h.1 h.2)
    rw [if_neg hx, maskEntries, maskEntries]
    by_cases hin : x.1 = i ∧ 13 ≤ x.2 ∧ x.2 < 13 + j
    · rw [if_pos hin, if_pos ⟨hin.1, hin.2.1, by omega⟩]
    · rw [if_neg hin, if_neg (by omega)]

/-- The state while the first `j` entries of the indirect block `ind` of inode `i` have
been freed; `P` are the pointers and `d` the disk from before. -/
structure Freeing (sb : Superblock) (P : ℕ × ℕ → ℕ) (d : ℕ → Block) (i ind j : ℕ)
    (st : BState) : Prop where
  super : Superblock.get (st.disk 1) = sb
  owned : Owned sb.InData (maskEntries P i j) (blockBit sb st.disk)
  reserved : ∀ b, b < sb.dataStart → b < sb.size → blockBit sb st.disk b = true
  logRes : LogReserved sb d → LogReserved sb st.disk
  bitmap : BitmapOnly sb d st.disk
  held : st.held = [ind]

variable {P : ℕ × ℕ → ℕ}

/-- A pointer that was not freed yet. -/
theorem Freeing.owns {ind j l : ℕ} (h : Freeing sb P d i ind j st) (hl : ¬ (13 ≤ l ∧ l < 13 + j))
    (hne : P (i, l) ≠ 0) : sb.InData (P (i, l)) ∧ blockBit sb st.disk (P (i, l)) = true := by
  rw [← maskEntries_of_not_mem P i j hl] at hne ⊢
  exact ⟨h.owned.area _ hne, h.owned.mark hne⟩

theorem Freeing.free {ind j : ℕ} (h : Freeing sb P d i ind j st) (hne : P (i, 13 + j) ≠ 0) :
    Freeing sb P d i ind (j + 1) (st.free sb (P (i, 13 + j))) := by
  have hmask : maskEntries P i j (i, 13 + j) = P (i, 13 + j) :=
    maskEntries_of_not_mem P i j (by omega)
  have hne' : maskEntries P i j (i, 13 + j) ≠ 0 := by rw [hmask]; exact hne
  have hdata : sb.InData (P (i, 13 + j)) := hmask ▸ h.owned.area _ hne'
  have hbm : BitmapOnly sb st.disk (st.free sb (P (i, 13 + j))).disk :=
    BitmapOnly.unmark hdata.lt_size
  have hrel := h.owned.release hne'
  rw [hmask, ← maskEntries_succ] at hrel
  refine ⟨?_, ?_, reserved_unmark hdata h.reserved, fun hlog => (h.logRes hlog).unmark hdata,
    h.bitmap.trans hbm, h.held⟩
  · rw [hbm.super]
    exact h.super
  · rw [free_disk, blockBit_unmark]
    exact hrel

theorem runs_truncEntries {ind : ℕ} (hE : Tolerant E)
    (hind : P (i, 12) = ind) (hind0 : ind ≠ 0) (blk : Block)
    (hP : ∀ j, P (i, 13 + j) = blk.le (4 * j) 4) (n j : ℕ)
    (h : Freeing sb P d i ind j st) :
    Runs p E (fun _ st' => Freeing sb P d i ind (j + n) st' ∧ st'.extent = st.extent ∧
        st'.core = st.core ∧ st'.logsize = st.logsize) (truncEntries blk n j) st := by
  induction n generalizing j st with
  | zero =>
    rw [truncEntries]
    exact wp_pure ⟨h, rfl, rfl, rfl⟩
  | succ n ih =>
    rw [truncEntries, show j + (n + 1) = j + 1 + n by omega]
    by_cases h0 : blk.le (4 * j) 4 = 0
    · rw [if_pos h0]
      have hsame : maskEntries P i (j + 1) = maskEntries P i j := by
        rw [maskEntries_succ, Function.update_eq_self_iff,
          maskEntries_of_not_mem P i j (by omega), hP, h0]
      exact ih (j + 1) ⟨h.super, by rw [hsame]; exact h.owned, h.reserved, h.logRes,
        h.bitmap, h.held⟩
    · rw [if_neg h0, Runs, wp_bind]
      have hne : P (i, 13 + j) ≠ 0 := by rw [hP]; exact h0
      have hfreed := h.owns (l := 13 + j) (by omega) hne
      rw [hP] at hfreed
      have hheld : HeldInData sb st := by
        intro s hs
        rw [h.held, List.mem_singleton] at hs
        have hblock := h.owns (l := 12) (by omega) (by rw [hind]; exact hind0)
        rw [hs, ← hind]
        exact ⟨hblock.1.1, hblock.2⟩
      refine runs_bfree (F := ∅) h.super hheld hfreed.1.lt_size hfreed.2 (Or.inl hE)
        (Or.inl hE) ?_
      have hfree := h.free hne
      rw [hP] at hfree
      exact ih (j + 1) hfree

/-- Without its indirect block an inode has lost exactly the masked pointers. -/
theorem ptrs_clearIndirect {d' : ℕ → Block} (h : InOrder sb A d) (hbm : BitmapOnly sb d d')
    (hind : A i 12 ≠ 0) (x : ℕ × ℕ) :
    ptrs (update A i (update (A i) 12 0)) d' x =
      update (maskEntries (ptrs A d) i NINDIRECT) (i, 12) 0 x := by
  obtain ⟨j, l⟩ := x
  rw [update_apply]
  by_cases hj : j = i
  · subst hj
    rw [ptrs, update_self, ptr_update_indirect, if_pos rfl, (hbm.agrees h j).ptr]
    by_cases hl : l = 12
    · rw [if_pos hl, if_pos (by rw [hl])]
    · have hne : (j, l) ≠ (j, 12) := fun he => hl (Prod.ext_iff.1 he).2
      rw [if_neg hl, if_neg hne, maskEntries]
      by_cases hl13 : l < 13
      · rw [if_pos hl13, if_neg (by dsimp only; omega), ptrs]
      · rw [if_neg hl13]
        by_cases hin : l < 13 + NINDIRECT
        · rw [if_pos ⟨rfl, by dsimp only; omega, hin⟩]
        · have hout : 512 ≤ 4 * (l - 13) := by
            unfold NINDIRECT at hin
            omega
          rw [if_neg (by dsimp only; omega), ptrs, show l = 13 + (l - 13) by omega,
            ptr_entry d hind, Bytes.le_of_ge _ _ (by omega)]
  · have hne : (j, l) ≠ (i, 12) := fun he => hj (Prod.ext_iff.1 he).1
    rw [if_neg hne, maskEntries, if_neg fun hc => hj hc.1, ptrs, update_of_ne hj,
      (hbm.agrees h j).ptr, ptrs]

theorem runs_truncIndirect (hE : Tolerant E) (h : InOrder sb (view A i ip st) st.disk)
    (hheld : st.held = []) :
    Runs p E (fun _ st' => Truncated sb A i ip
        (update (st.extent ip).addrs 12 0) st st') (truncIndirect ip) st := by
  unfold truncIndirect
  rw [Runs, wp_bind]
  refine runs_getExtent ?_
  by_cases h0 : (st.extent ip).addrs 12 = 0
  · rw [if_pos h0]
    have hsame : update (st.extent ip).addrs 12 0 = (st.extent ip).addrs := by
      rw [Function.update_eq_self_iff, h0]
    rw [hsame]
    exact wp_pure (Truncated.refl h)
  have hview : view A i ip st i 12 ≠ 0 := by
    rw [view_self]
    exact h0
  have hP12 : ptrs (view A i ip st) st.disk (i, 12) = (st.extent ip).addrs 12 := by
    rw [ptrs, view_self, ptr_twelve]
  have hPj : ∀ j, ptrs (view A i ip st) st.disk (i, 13 + j) =
      (st.disk ((st.extent ip).addrs 12)).le (4 * j) 4 := by
    intro j
    rw [ptrs, view_self, ptr_entry _ h0]
  rw [if_neg h0, wp_bind]
  refine runs_bread_of_pinned (by rw [hheld]; exact List.not_mem_nil) (Or.inl hE.2.1) ?_
  have hstart : Freeing sb (ptrs (view A i ip st) st.disk) st.disk i ((st.extent ip).addrs 12) 0
      { st with held := (st.extent ip).addrs 12 :: st.held } :=
    ⟨h.super, by rw [maskEntries_zero]; exact h.owned, h.reserved, id,
      BitmapOnly.refl _ _, by rw [hheld]⟩
  rw [wp_bind]
  refine wp_conseq (runs_truncEntries hE hP12 h0 _ hPj NINDIRECT 0 hstart) ?_
  rintro - st1 ⟨hf, hext, hcore, hlsize⟩
  rw [Nat.zero_add] at hf
  obtain ⟨hdata, hbit⟩ := hf.owns (l := 12) (by omega) (by rw [hP12]; exact h0)
  rw [hP12] at hdata hbit
  rw [wp_bind]
  refine runs_brelse ?_
  rw [wp_bind]
  refine runs_bfree (F := ∅) hf.super ?_ hdata.lt_size hbit (Or.inl hE) (Or.inl hE) ?_
  · exact heldInData_nil (by rw [hf.held, List.erase_cons_head])
  · rw [setAddr]
    refine runs_setExtent ?_
    have hbm : BitmapOnly sb st.disk (unmarkBlock sb st1.disk ((st.extent ip).addrs 12)) :=
      hf.bitmap.trans (BitmapOnly.unmark hdata.lt_size)
    have hmask := (maskEntries_of_not_mem (ptrs (view A i ip st) st.disk) i NINDIRECT (l := 12)
      (by omega)).trans hP12
    have hrel := hf.owned.release (by rw [hmask]; exact h0)
    rw [hmask] at hrel
    refine ⟨⟨?_, ?_, reserved_unmark hdata hf.reserved⟩,
      fun hlog => (hf.logRes hlog).unmark hdata, hbm, ?_, hcore, ?_, hlsize⟩
    · exact (congrArg Superblock.get hbm.super).trans h.super
    · rw [view]
      dsimp only
      rw [update_self]
      have hclear := ptrs_clearIndirect h hbm hview
      rw [view_self] at hclear
      refine hrel.congr (fun x => ?_) fun b _ => ?_
      · rw [← hclear x, view, update_idem]
        rfl
      · exact congrFun (blockBit_unmark sb st1.disk _) b
    · dsimp only
      rw [← hext]
      rfl
    · exact (congrArg (List.erase · _) hf.held).trans (by rw [List.erase_cons_head, hheld])

/-! ## The whole of `itrunc` -/

/-- What `itrunc` guarantees: inode `i` is empty, in memory and on the disk, and no other
file has changed. -/
structure Emptied (sb : Superblock) (A : ℕ → Fin 13 → ℕ) (i ip : ℕ) (st st' : BState) :
    Prop where
  order : InOrder sb (view A i ip st') st'.disk
  logRes : LogReserved sb st.disk → LogReserved sb st'.disk
  extent : st'.extent = update st.extent ip ⟨0, fun _ => 0⟩
  core : st'.core = st.core
  held : st'.held = st.held
  logsize : st'.logsize = st.logsize
  dinode_self : dinode st'.disk i = dinodeOf (st.core.inode ip) ⟨0, fun _ => 0⟩
  dinodes : ∀ j, j < sb.ninodes → j ≠ i → dinode st'.disk j = dinode st.disk j
  keeps : ∀ j, j ≠ i → Keeps st.disk (A j) st'.disk (A j)

theorem Truncated.emptied (h : Truncated sb A i ip (fun _ => 0) st st')
    (ho : InOrder sb (view A i ip st) st.disk) (hnum : (st.core.inode ip).inum = i)
    (hi : i < sb.ninodes) : Emptied sb A i ip st (st'.resize ip 0) := by
  have hext : st'.extent ip = ⟨(st.extent ip).size, fun _ => 0⟩ := by
    rw [h.extent, update_self]
  have hnum' : (st'.core.inode ip).inum = i := by rw [h.core, hnum]
  have hdisk : (st'.resize ip 0).disk =
      setDinode st'.disk i (dinodeOf (st.core.inode ip) ⟨0, fun _ => 0⟩) := by
    rw [resize_disk, hnum', hext, h.core]
  have hfits : (dinodeOf (st.core.inode ip) ⟨0, fun _ => 0⟩).Fits :=
    ⟨Nat.two_pow_pos 32, fun _ => Nat.two_pow_pos 32⟩
  have hextent : (st'.resize ip 0).extent = update st.extent ip ⟨0, fun _ => 0⟩ := by
    change update st'.extent ip ⟨0, (st'.extent ip).addrs⟩ = _
    rw [hext, h.extent, update_idem]
  have hview : view A i ip (st'.resize ip 0) = view A i ip st' := by
    rw [view, view, hextent, update_self, hext]
  refine ⟨?_, ?_, hextent, h.core, h.held, h.logsize, ?_, ?_, ?_⟩
  · rw [hview, hdisk]
    exact h.order.update_iblock _ hi
  · rw [hdisk]
    exact fun hlog => (h.logRes hlog).update _ fun b _ => Nat.ne_of_gt (iblock_lt_bblock hi)
  · rw [hdisk, dinode_setDinode _ hfits, if_pos rfl]
  · intro j hj hne
    rw [hdisk, dinode_setDinode _ hfits, if_neg hne, dinode, h.bitmap.iblock hj, dinode]
  · intro j hne
    have h1 := h.bitmap.agrees ho j
    have h2 := h.order.agrees_iblock hi (Dinode.put (st'.disk (iblock i)) (i % IPB)
      (dinodeOf (st.core.inode ip) ⟨0, fun _ => 0⟩)) j
    rw [view_of_ne hne] at h1 h2
    rw [hdisk]
    exact Keeps.of_agrees (h1.trans h2)

theorem runs_itrunc {Q : Unit → BState → Prop} (hE : Tolerant E)
    (h : InOrder sb (view A i ip st) st.disk)
    (hheld : st.held = []) (hnum : (st.core.inode ip).inum = i) (hi : i < sb.ninodes)
    (hQ : ∀ st', Emptied sb A i ip st st' → Q () st') : Runs p E Q (itrunc ip) st := by
  unfold itrunc
  rw [Runs, wp_bind]
  refine wp_conseq (runs_truncDirect hE NDIRECT 0 (le_refl _) h hheld) ?_
  rintro - st1 ⟨a, ht1, hzero, -⟩
  rw [wp_bind]
  refine wp_conseq (runs_truncIndirect hE ht1.order (ht1.held.trans hheld)) ?_
  intro _ st2 ht2
  have haddrs : update (st1.extent ip).addrs 12 0 = fun _ => 0 := by
    funext k
    by_cases hk : k = 12
    · rw [hk, update_self]
    · have hlt : k.val < 12 := by
        have hk' : k.val ≠ 12 := fun he => hk (Fin.ext he)
        omega
      rw [update_of_ne hk, ht1.extent, update_self]
      exact hzero k (Nat.zero_le _) (by rw [Nat.zero_add]; exact hlt)
  rw [haddrs] at ht2
  have ht := ht1.trans ht2
  rw [wp_bind]
  refine runs_getExtent ?_
  rw [wp_bind]
  refine runs_setExtent ?_
  refine runs_iupdate (ht.held.trans hheld) (Or.inl hE) ?_
  exact hQ _ (ht.emptied h hnum hi)

end Qwin.Fs
