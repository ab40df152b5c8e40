import Qwin.Fs.Content

/-!
# `bmap`

`bmap` returns the disk block of a block of a file and allocates it, and the indirect
block, if they are missing. Which blocks are logged when some blocks of a file are
written can be told from the file and the list of free blocks. A `Supply` says that
they are all in `F`, and that there are enough free blocks.
-/

namespace Qwin.Fs

open Prog List
open Function (update update_of_ne update_self update_eq_self update_idem)

/-! ## The blocks that are logged -/

section

variable (f : ℕ → ℕ) (ind : ℕ) (bns : List ℕ)

/-- Those of the blocks `bns` of a file that are not mapped by `f`. -/
def unmapped : List ℕ := bns.filter (f · = 0)

/-- The blocks that are allocated when the blocks `bns` are written: those that are not mapped,
and the indirect block `ind` if it is needed and missing. -/
def missing : ℕ :=
  (unmapped f bns).length + if ind = 0 ∧ ∃ bn ∈ bns, NDIRECT ≤ bn then 1 else 0

/-- The blocks that are logged when the blocks `bns` are written: the mapped ones, the first free
blocks with their bitmap blocks, and the indirect block if it gets a new entry. -/
def logs (ninodes : ℕ) (free : List ℕ) : List ℕ :=
  (bns.map f).filter (· ≠ 0) ++
    (free.take (missing f ind bns)).flatMap (fun r => [bblock r ninodes, r]) ++
    if ind ≠ 0 ∧ ∃ bn ∈ unmapped f bns, NDIRECT ≤ bn then [ind] else []

end

section

variable {f f' : ℕ → ℕ} {ind ind' bn r s n : ℕ} {bns bns' free : List ℕ}

theorem mem_unmapped : bn ∈ unmapped f bns ↔ bn ∈ bns ∧ f bn = 0 := by simp [unmapped]

theorem mem_logs : s ∈ logs f ind bns n free ↔ ((∃ bn ∈ bns, f bn = s) ∧ s ≠ 0) ∨
    (∃ r ∈ free.take (missing f ind bns), s = bblock r n ∨ s = r) ∨
    s = ind ∧ ind ≠ 0 ∧ ∃ bn ∈ unmapped f bns, NDIRECT ≤ bn := by
  unfold logs
  rw [mem_append, mem_append, or_assoc]
  refine or_congr (by simp) (or_congr (by simp) ?_)
  split
  next h => simp [h]
  next h => simp [h]

theorem logs_mapped (hbn : bn ∈ bns) (h0 : f bn ≠ 0) : f bn ∈ logs f ind bns n free :=
  mem_logs.2 (Or.inl ⟨⟨bn, hbn, rfl⟩, h0⟩)

theorem logs_free (h : 0 < missing f ind bns) :
    bblock r n ∈ logs f ind bns n (r :: free) ∧ r ∈ logs f ind bns n (r :: free) := by
  have hr : r ∈ (r :: free).take (missing f ind bns) := by
    obtain ⟨m, hm⟩ := Nat.exists_eq_succ_of_ne_zero h.ne'
    rw [hm]
    exact mem_cons_self
  exact ⟨mem_logs.2 (Or.inr (Or.inl ⟨r, hr, Or.inl rfl⟩)),
    mem_logs.2 (Or.inr (Or.inl ⟨r, hr, Or.inr rfl⟩))⟩

theorem missing_mono (h : bns' <+ bns) : missing f ind bns' ≤ missing f ind bns := by
  have hle := (h.filter (f · = 0)).length_le
  unfold missing unmapped
  by_cases h' : ind = 0 ∧ ∃ bn ∈ bns', NDIRECT ≤ bn
  · obtain ⟨h0, bn, hbn, hle'⟩ := h'
    rw [if_pos ⟨h0, bn, hbn, hle'⟩, if_pos ⟨h0, bn, h.subset hbn, hle'⟩]
    omega
  · rw [if_neg h']
    omega

theorem logs_mono (h : bns' <+ bns) : logs f ind bns' n free ⊆ logs f ind bns n free := by
  intro s hs
  rw [mem_logs] at hs ⊢
  refine hs.imp (fun ⟨⟨bn, hbn, he⟩, h0⟩ => ⟨⟨bn, h.subset hbn, he⟩, h0⟩) (Or.imp ?_ ?_)
  · rintro ⟨r, hr, he⟩
    exact ⟨r, (take_subset_take_left free (missing_mono h)) hr, he⟩
  · rintro ⟨he, h0, bn, hbn, hle⟩
    exact ⟨he, h0, bn, (h.filter (f · = 0)).subset hbn, hle⟩

/-- A block of the file was allocated. -/
theorem missing_cons (h0 : f bn = 0) (hf : ∀ x ∈ bns, f' x = f x) :
    missing f' ind bns + 1 ≤ missing f ind (bn :: bns) := by
  have hun : unmapped f' bns = unmapped f bns := filter_congr fun x hx => by rw [hf x hx]
  have hcons : unmapped f (bn :: bns) = bn :: unmapped f bns :=
    filter_cons_of_pos (decide_eq_true h0)
  unfold missing
  rw [hun, hcons, length_cons]
  by_cases h' : ind = 0 ∧ ∃ bn ∈ bns, NDIRECT ≤ bn
  · obtain ⟨hi, x, hx, hle⟩ := h'
    rw [if_pos ⟨hi, x, hx, hle⟩, if_pos ⟨hi, x, mem_cons_of_mem bn hx, hle⟩]
  · rw [if_neg h']
    omega

/-- The indirect block was allocated. -/
theorem missing_indirect (h0 : ind = 0) (h0' : ind' ≠ 0) (hbn : ∃ bn ∈ bns, NDIRECT ≤ bn)
    (hf : ∀ x ∈ bns, f' x = f x) : missing f' ind' bns + 1 ≤ missing f ind bns := by
  have hun : unmapped f' bns = unmapped f bns := filter_congr fun x hx => by rw [hf x hx]
  unfold missing
  rw [hun, if_neg fun h => h0' h.1, if_pos ⟨h0, hbn⟩]

/-- The first free block `r` was taken for block `bn` of the file, or for the indirect block. -/
theorem logs_grow (hm : missing f' ind' bns' + 1 ≤ missing f ind bns)
    (hf : ∀ x ∈ bns', x ∈ bns ∧ f' x = f x) (hind : ind' = ind ∨ ind' = r) :
    logs f' ind' bns' n free ⊆ logs f ind bns n (r :: free) := by
  intro s hs
  rcases mem_logs.1 hs with ⟨⟨bn, hbn, he⟩, h0⟩ | ⟨x, hx, he⟩ | ⟨rfl, h0, bn, hbn, hle⟩
  · exact mem_logs.2 (Or.inl ⟨⟨bn, (hf bn hbn).1, (hf bn hbn).2 ▸ he⟩, h0⟩)
  · exact mem_logs.2 (Or.inr (Or.inl
      ⟨x, take_subset_take_left (r :: free) hm (mem_cons_of_mem r hx), he⟩))
  · rcases hind with rfl | rfl
    · obtain ⟨hbn, hz⟩ := mem_unmapped.1 hbn
      refine mem_logs.2 (Or.inr (Or.inr ⟨rfl, h0, bn, mem_unmapped.2 ⟨(hf bn hbn).1, ?_⟩, hle⟩))
      rw [← (hf bn hbn).2]
      exact hz
    · exact (logs_free (lt_of_lt_of_le (Nat.succ_pos _) hm)).2

end

/-- The blocks of the file of `ip`. -/
def BState.file (st : BState) (ip : ℕ) : ℕ → ℕ := fileBlock st.disk (st.extent ip).addrs

def BState.missing (st : BState) (ip : ℕ) (bns : List ℕ) : ℕ :=
  Fs.missing (st.file ip) ((st.extent ip).addrs 12) bns

def BState.logs (st : BState) (sb : Superblock) (ip : ℕ) (bns : List ℕ) : List ℕ :=
  Fs.logs (st.file ip) ((st.extent ip).addrs 12) bns sb.ninodes (freeBlocks sb st.disk)

/-- The blocks `bns` of the file of `ip` can be written. -/
structure Supply (E : End BState → Prop) (sb : Superblock) (ip : ℕ) (F : Finset ℕ) (bns : List ℕ)
    (st : BState) : Prop where
  blocks : E (.stop (.panic .ballocOutOfBlocks)) ∨
    st.missing ip bns ≤ (freeBlocks sb st.disk).length
  ready : Ready E st F
  may : ∀ s ∈ st.logs sb ip bns, May E F s

variable {p : ℕ} {E : End BState → Prop} {st st' st'' : BState} {sb : Superblock}
  {A : ℕ → Fin 13 → ℕ} {F : Finset ℕ} {i ip n r : ℕ} {X Y : ℕ → Prop} {d : ℕ → Block}

/-! ## Steps on one file -/

/-- The table of addresses with those the kernel holds in memory for inode `i`. -/
def view (A : ℕ → Fin 13 → ℕ) (i ip : ℕ) (st : BState) : ℕ → Fin 13 → ℕ :=
  update A i (st.extent ip).addrs

@[simp] theorem view_self (A : ℕ → Fin 13 → ℕ) (i ip : ℕ) (st : BState) :
    view A i ip st i = (st.extent ip).addrs := update_self _ _ _

variable {j : ℕ}

theorem view_of_ne (h : j ≠ i) : view A i ip st j = A j := update_of_ne h _ _

/-- From `st` to `st'` only the file of inode `i`, which is `ip` in the cache, changed:
it may have grown blocks, and its bytes in `X` may be different. -/
structure FileStep (sb : Superblock) (A : ℕ → Fin 13 → ℕ) (i ip : ℕ) (X : ℕ → Prop)
    (st st' : BState) : Prop where
  order : InOrder sb (view A i ip st') st'.disk
  logRes : LogReserved sb st.disk → LogReserved sb st'.disk
  extent : ∃ a, st'.extent = update st.extent ip ⟨(st.extent ip).size, a⟩
  core : st'.core = st.core
  held : st'.held = st.held
  logsize : st'.logsize = st.logsize
  bytes : ∀ j o v, (j = i → ¬ X o) → byteAt st.disk (view A i ip st j) o = some v →
    byteAt st'.disk (view A i ip st' j) o = some v
  mapped : ∀ bn, fileBlock st.disk (st.extent ip).addrs bn ≠ 0 →
    fileBlock st'.disk (st'.extent ip).addrs bn ≠ 0
  inodes : ∀ j, j < sb.ninodes → st'.disk (iblock j) = st.disk (iblock j)

namespace FileStep

theorem refl (h : InOrder sb (view A i ip st) st.disk) : FileStep sb A i ip X st st where
  order := h
  logRes := id
  extent := ⟨(st.extent ip).addrs, (update_eq_self _ _).symm⟩
  core := rfl
  held := rfl
  logsize := rfl
  bytes := fun _ _ _ _ hv => hv
  mapped := fun _ hbn => hbn
  inodes := fun _ _ => rfl

variable (h : FileStep sb A i ip X st st')
include h

theorem size_eq : (st'.extent ip).size = (st.extent ip).size := by
  obtain ⟨a, ha⟩ := h.extent
  rw [ha, update_self]

theorem extent_of_ne {q : ℕ} (hq : q ≠ ip) : st'.extent q = st.extent q := by
  obtain ⟨a, ha⟩ := h.extent
  rw [ha, update_of_ne hq]

theorem trans (h' : FileStep sb A i ip Y st' st'') :
    FileStep sb A i ip (fun o => X o ∨ Y o) st st'' where
  order := h'.order
  logRes := h'.logRes ∘ h.logRes
  extent := by
    obtain ⟨a, ha⟩ := h'.extent
    refine ⟨a, ?_⟩
    obtain ⟨b, hb⟩ := h.extent
    rw [ha, h.size_eq, hb, update_idem]
  core := h'.core.trans h.core
  held := h'.held.trans h.held
  logsize := h'.logsize.trans h.logsize
  bytes := fun j o v hX hv =>
    h'.bytes j o v (fun hj hY => hX hj (Or.inr hY))
      (h.bytes j o v (fun hj hx => hX hj (Or.inl hx)) hv)
  mapped := fun bn hbn => h'.mapped bn (h.mapped bn hbn)
  inodes := fun j hj => (h'.inodes j hj).trans (h.inodes j hj)

theorem mono (hXY : ∀ o, X o → Y o) : FileStep sb A i ip Y st st' :=
  { h with bytes := fun j o v hY hv => h.bytes j o v (fun hj hx => hY hj (hXY o hx)) hv }

end FileStep

/-! ## The two ways a file grows -/

/-- Block `r` was allocated for address `k` of an inode. -/
def BState.growAddr (st : BState) (sb : Superblock) (ip : ℕ) (k : Fin 13) (r : ℕ) : BState :=
  { st.alloc sb r with
    extent := update st.extent ip
      ⟨(st.extent ip).size, update (st.extent ip).addrs k r⟩ }

/-- Block `r` was allocated for entry `j` of an indirect block. -/
def BState.growEntry (st : BState) (sb : Superblock) (ind j r : ℕ) : BState :=
  (st.alloc sb r).write ind ((st.disk ind).putLe (4 * j) 4 r)

theorem growEntry_disk (st : BState) (sb : Superblock) (ind j r : ℕ) :
    (st.growEntry sb ind j r).disk = InOrder.allocEntryDisk sb st.disk ind j r := rfl

theorem growAddr_addrs (st : BState) (sb : Superblock) (ip : ℕ) (k : Fin 13) (r : ℕ) :
    ((st.growAddr sb ip k r).extent ip).addrs = update (st.extent ip).addrs k r := by
  simp [BState.growAddr]

theorem view_growAddr (k : Fin 13) :
    view A i ip (st.growAddr sb ip k r) = update (view A i ip st) i
      (update (view A i ip st i) k r) := by
  rw [view, growAddr_addrs, view_self, view, update_idem]

theorem alloc_iblock (hr : sb.InData r) (hj : j < sb.ninodes) (d : ℕ → Block) :
    allocDisk sb d r (iblock j) = d (iblock j) := by
  have h1 : iblock j ≠ r := Nat.ne_of_lt (lt_of_lt_of_le (iblock_lt_dataStart hj) hr.1)
  have h2 : iblock j ≠ bblock r sb.ninodes := Nat.ne_of_lt (iblock_lt_bblock hj)
  rw [allocDisk, update_of_ne h1, markBlock, update_of_ne h2]

section

variable (h : InOrder sb (view A i ip st) st.disk) (hdata : sb.InData r)
  (hr : firstFree sb st.disk = some r)
include h hdata hr

theorem fileStep_growAddr {k : Fin 13}
    (hk : (st.extent ip).addrs k = 0) : FileStep sb A i ip X st (st.growAddr sb ip k r) := by
  have hbit := (firstFree_eq_some hr).2.1
  have hk' : view A i ip st i k = 0 := by rw [view_self, hk]
  have hkeep := h.keeps_allocAddr hdata hbit hk'
  refine ⟨?_, fun hlog => hlog.alloc hdata, ⟨_, rfl⟩, rfl, rfl, rfl, ?_, ?_, ?_⟩
  · rw [view_growAddr]
    exact h.allocAddr hdata hbit hk'
  · intro j o v _ hv
    rw [view_growAddr]
    exact (hkeep j).byteAt hv
  · intro bn hbn
    have hki := hkeep i bn
    rw [update_self, view_self] at hki
    rw [growAddr_addrs]
    exact fun h0 => hbn ((hki hbn).1.symm.trans h0)
  · intro j hj
    exact alloc_iblock hdata hj st.disk

theorem fileStep_growEntry (hind : (st.extent ip).addrs 12 ≠ 0) (hj : j < NINDIRECT)
    (hz : (st.disk ((st.extent ip).addrs 12)).le (4 * j) 4 = 0) :
    FileStep sb A i ip X st (st.growEntry sb ((st.extent ip).addrs 12) j r) := by
  have hbit := (firstFree_eq_some hr).2.1
  have horder := h.allocEntry (i := i) (j := j) hdata hbit
  have hkeep := h.keeps_allocEntry (i := i) (j := j) hdata hbit
  rw [view_self] at horder hkeep
  have hindData := h.inData_addr (i := i) (k := 12)
  rw [view_self] at hindData
  have hind' := hindData hind
  refine ⟨horder hind hj hz, ?_, ⟨_, (update_eq_self _ _).symm⟩, rfl, rfl, rfl, ?_, ?_, ?_⟩
  · refine fun hlog => (hlog.alloc hdata).update _ fun b hb => ?_
    exact Nat.ne_of_lt (lt_of_lt_of_le (bblock_lt_dataStart hb) hind'.1)
  · intro m o v _ hv
    exact (hkeep hind hj hz m).byteAt hv
  · intro bn hbn
    have hki := hkeep hind hj hz i bn
    rw [view_self] at hki
    exact fun h0 => hbn ((hki hbn).1.symm.trans h0)
  · intro m hm
    have hne : iblock m ≠ (st.extent ip).addrs 12 :=
      Nat.ne_of_lt (lt_of_lt_of_le (iblock_lt_dataStart hm) hind'.1)
    rw [growEntry_disk, InOrder.allocEntryDisk, update_of_ne hne]
    exact alloc_iblock hdata hm st.disk

end

/-! ## What a file may still use after it has grown -/

theorem file_growAddr (h : InOrder sb (view A i ip st) st.disk) (hdata : sb.InData r)
    (hbit : blockBit sb st.disk r = false) {k : Fin 13} (hk : (st.extent ip).addrs k = 0) (bn : ℕ) :
    (st.growAddr sb ip k r).file ip bn = if filePos bn = k.val then r else st.file ip bn := by
  have hptr := h.ptrs_allocAddr (i := i) hdata hbit (by rw [view_self, hk]) (i, filePos bn)
  rw [ptrs, update_self, view_self] at hptr
  rw [BState.file, growAddr_addrs]
  refine hptr.trans ?_
  rw [Function.update_apply]
  simp only [Prod.mk.injEq, true_and, ptrs, view_self]
  rfl

theorem file_growEntry (h : InOrder sb (view A i ip st) st.disk) (hdata : sb.InData r)
    (hbit : blockBit sb st.disk r = false) (hind : (st.extent ip).addrs 12 ≠ 0)
    (hj : j < NINDIRECT) (bn : ℕ) :
    (st.growEntry sb ((st.extent ip).addrs 12) j r).file ip bn =
      if filePos bn = 13 + j then r else st.file ip bn := by
  have hptr := h.ptrs_allocEntry (i := i) hdata hbit (by rw [view_self]; exact hind) hj
    (i, filePos bn)
  rw [ptrs, view_self] at hptr
  refine hptr.trans ?_
  rw [Function.update_apply]
  simp only [Prod.mk.injEq, true_and, ptrs, view_self]
  rfl

namespace Supply

variable {bns bns' : List ℕ}

theorem mono (h : Supply E sb ip F bns st) (hsub : bns' <+ bns) : Supply E sb ip F bns' st where
  blocks := h.blocks.imp_right (missing_mono hsub).trans
  ready := h.ready
  may := fun s hs => h.may s (logs_mono hsub hs)

theorem firstFree_none (h : Supply E sb ip F bns st) (hm : 0 < st.missing ip bns)
    (hr : firstFree sb st.disk = none) : E (.stop (.panic .ballocOutOfBlocks)) := by
  rcases h.blocks with hE | hle
  · exact hE
  · rw [firstFree_eq_head?, head?_eq_none_iff] at hr
    rw [hr, length_nil] at hle
    omega

theorem may_alloc (h : Supply E sb ip F bns st) (hm : 0 < st.missing ip bns)
    (hr : firstFree sb st.disk = some r) :
    May E F (bblock r sb.ninodes) ∧ May E F r := by
  rw [firstFree_eq_head?, head?_eq_some_iff] at hr
  obtain ⟨l, hl⟩ := hr
  have hmem : bblock r sb.ninodes ∈ st.logs sb ip bns ∧ r ∈ st.logs sb ip bns := by
    rw [BState.logs, hl]
    exact logs_free hm
  exact ⟨h.may _ hmem.1, h.may _ hmem.2⟩

/-- What the first free block was taken for does not matter. -/
theorem grow (h : Supply E sb ip F bns st)
    (hfree : freeBlocks sb st.disk = r :: freeBlocks sb st'.disk)
    (hm : st'.missing ip bns' + 1 ≤ st.missing ip bns)
    (hf : ∀ x ∈ bns', x ∈ bns ∧ st'.file ip x = st.file ip x)
    (hind : (st'.extent ip).addrs 12 = (st.extent ip).addrs 12 ∨ (st'.extent ip).addrs 12 = r)
    (hready : Ready E st' F) : Supply E sb ip F bns' st' where
  blocks := h.blocks.imp_right fun hle => by
    rw [hfree, length_cons] at hle
    omega
  ready := hready
  may := fun s hs => h.may s (by
    rw [BState.logs, hfree]
    exact logs_grow hm hf hind hs)

end Supply

/-! ## `bmap` -/

theorem heldInData_nil (h : st.held = []) : HeldInData sb st := by
  intro s hs
  rw [h] at hs
  cases hs

variable {Q : ℕ → BState → Prop}

section Growing

variable (hsb : Superblock.get (st.disk 1) = sb) (hheld : st.held = [])
  (hfront : ∀ b, b < sb.dataStart → b < sb.size → blockBit sb st.disk b = true)
  (hlog : E .assumed ∨ LogReserved sb st.disk)

include hsb hheld hfront hlog

theorem runs_bmapAddr {k : Fin 13} (hR : Ready E st F)
    (hF : (st.extent ip).addrs k = 0 → ∀ r, firstFree sb st.disk = some r →
      May E F (bblock r sb.ninodes) ∧ May E F r)
    (hnone : (st.extent ip).addrs k = 0 → firstFree sb st.disk = none →
      E (.stop (.panic .ballocOutOfBlocks)))
    (hold : (st.extent ip).addrs k ≠ 0 → Q ((st.extent ip).addrs k) st)
    (hnew : (st.extent ip).addrs k = 0 → ∀ r, firstFree sb st.disk = some r → sb.InData r →
      Q r (st.growAddr sb ip k r)) : Runs p E Q (bmapAddr ip k) st := by
  unfold bmapAddr
  rw [Runs, wp_bind]
  refine runs_getExtent ?_
  by_cases h0 : (st.extent ip).addrs k = 0
  · rw [if_pos h0, wp_bind]
    refine runs_balloc hsb (heldInData_nil hheld) hR hfront hlog (hF h0) (hnone h0) ?_
    intro r hr hdata
    rw [setAddr, wp_bind]
    exact runs_setExtent (wp_pure (hnew h0 r hr hdata))
  · rw [if_neg h0]
    exact wp_pure (hold h0)

theorem runs_bmapEntry {ind : ℕ} (hind : sb.InData ind) (hbit : blockBit sb st.disk ind = true)
    (hR : Ready E st F)
    (hF : (st.disk ind).le (4 * j) 4 = 0 → May E F ind ∧ ∀ r, firstFree sb st.disk = some r →
      May E F (bblock r sb.ninodes) ∧ May E F r)
    (hnone : (st.disk ind).le (4 * j) 4 = 0 → firstFree sb st.disk = none →
      E (.stop (.panic .ballocOutOfBlocks)))
    (hold : (st.disk ind).le (4 * j) 4 ≠ 0 → Q ((st.disk ind).le (4 * j) 4) st)
    (hnew : (st.disk ind).le (4 * j) 4 = 0 → ∀ r, firstFree sb st.disk = some r →
      sb.InData r → Q r (st.growEntry sb ind j r)) : Runs p E Q (bmapEntry ind j) st := by
  have hnotMem : ind ∉ st.held := by
    rw [hheld]
    exact not_mem_nil
  unfold bmapEntry
  rw [Runs, wp_bind]
  refine runs_bread hnotMem hR ?_
  by_cases h0 : (st.disk ind).le (4 * j) 4 = 0
  · obtain ⟨hmay, hF⟩ := hF h0
    have hR' := hR.hold hmay
    rw [if_pos h0, wp_bind]
    have hheld' : HeldInData sb { st with held := ind :: st.held } := by
      intro s hs
      rw [hheld, mem_singleton] at hs
      subst hs
      exact ⟨hind.1, hbit⟩
    refine runs_balloc ?_ hheld' hR' hfront hlog hF (hnone h0) ?_
    · exact hsb
    · intro r hr hdata
      obtain ⟨hbb, hr'⟩ := hF r hr
      have hRalloc := (hR'.write hbb ((st.disk (bblock r sb.ninodes)).setBit (r % BPB))).write hr'
        (Bytes.zero 512)
      rw [wp_bind]
      refine runs_logWrite hRalloc.canLog ?_
      rw [wp_bind]
      refine runs_brelse (wp_pure ?_)
      simp only [BState.write, BState.alloc, erase_cons_head]
      exact hnew h0 r hr hdata
  · rw [if_neg h0, wp_bind]
    refine runs_brelse ?_
    rw [erase_cons_head]
    exact wp_pure (hold h0)

end Growing

/-- What `bmap` guarantees when it returns `r` for block `bn`. -/
structure Bmapped (sb : Superblock) (A : ℕ → Fin 13 → ℕ) (i ip bn : ℕ) (st : BState) (r : ℕ)
    (st' : BState) : Prop where
  step : FileStep sb A i ip (fun _ => False) st st'
  block : fileBlock st'.disk (st'.extent ip).addrs bn = r
  ne_zero : r ≠ 0
  same : fileBlock st.disk (st.extent ip).addrs bn ≠ 0 → st' = st

/-- The block may be logged, and there is a supply for the blocks that come next. -/
def Granted (E : End BState → Prop) (sb : Superblock) (A : ℕ → Fin 13 → ℕ) (i ip : ℕ)
    (F : Finset ℕ) (bn : ℕ) (bns : List ℕ) (st : BState) (r : ℕ) (st' : BState) : Prop :=
  Bmapped sb A i ip bn st r st' ∧ May E F r ∧ Supply E sb ip F bns st'

variable {bn : ℕ} {bns : List ℕ}

theorem pos_indirect (hbn : ¬ bn < NDIRECT) : bn + 1 = 13 + (bn - NDIRECT) := by
  have : ¬ bn < 12 := hbn
  unfold NDIRECT
  omega

theorem fileBlock_indirect (d : ℕ → Block) {a : Fin 13 → ℕ} (ha : a 12 ≠ 0) (hbn : ¬ bn < NDIRECT) :
    fileBlock d a bn = (d (a 12)).le (4 * (bn - NDIRECT)) 4 := by
  rw [fileBlock, filePos, if_neg hbn, pos_indirect hbn, ptr_entry d ha]

theorem missing_pos (h0 : st.file ip bn = 0) : 0 < st.missing ip (bn :: bns) :=
  lt_of_lt_of_le (Nat.succ_pos _) (missing_cons h0 fun _ _ => rfl)

theorem Ready.alloc (h : Ready E st F) (hF : May E F (bblock r sb.ninodes) ∧ May E F r) :
    Ready E (st.alloc sb r) F := (h.write hF.1 _).write hF.2 _

variable (h : InOrder sb (view A i ip st) st.disk) (hlog : E .assumed ∨ LogReserved sb st.disk)
  (hheld : st.held = []) (hnext : bn ∉ bns)

/-- Block `bn` is mapped. -/
theorem Supply.granted (h : InOrder sb (view A i ip st) st.disk)
    (hsup : Supply E sb ip F (bn :: bns) st) (h0 : st.file ip bn ≠ 0) :
    Granted E sb A i ip F bn bns st (st.file ip bn) st :=
  ⟨⟨FileStep.refl h, rfl, h0, fun _ => rfl⟩, hsup.may _ (logs_mapped mem_cons_self h0),
    hsup.mono (sublist_cons_self bn bns)⟩

include h hlog hheld hnext

theorem runs_bmap_direct (hbn : bn < NDIRECT) (hsup : Supply E sb ip F (bn :: bns) st) :
    Runs p E (Granted E sb A i ip F bn bns st) (bmap ip bn) st := by
  have hbn' : bn < 13 := Nat.lt_succ_of_lt hbn
  have hk12 : (⟨bn, hbn'⟩ : Fin 13) ≠ 12 := by
    intro he
    have := Fin.ext_iff.1 he
    have h12 : bn < 12 := hbn
    simp at this
    omega
  have hpos : filePos bn = bn := if_pos hbn
  have hblock : ∀ st : BState, st.file ip bn = (st.extent ip).addrs ⟨bn, hbn'⟩ := by
    intro st
    rw [BState.file, fileBlock, hpos]
    exact ptr_addr _ _ ⟨bn, hbn'⟩
  rw [bmap, dif_pos hbn]
  refine runs_bmapAddr h.super hheld h.reserved hlog hsup.ready
    (fun h0 r hr => hsup.may_alloc (missing_pos ((hblock st).trans h0)) hr)
    (fun h0 hr => hsup.firstFree_none (missing_pos ((hblock st).trans h0)) hr) ?_ ?_
  · intro h0
    rw [← hblock st] at h0 ⊢
    exact hsup.granted h h0
  · intro h0 r hr hdata
    have hz := (hblock st).trans h0
    have hfile := file_growAddr h hdata (firstFree_eq_some hr).2.1 h0
    have hother : ∀ x ∈ bns, (st.growAddr sb ip ⟨bn, hbn'⟩ r).file ip x = st.file ip x :=
      fun x hx => (hfile x).trans (if_neg fun he : filePos x = bn =>
        hnext (filePos_inj (he.trans hpos.symm) ▸ hx))
    have h12 : ((st.growAddr sb ip ⟨bn, hbn'⟩ r).extent ip).addrs 12 = (st.extent ip).addrs 12 := by
      rw [growAddr_addrs, update_of_ne hk12.symm]
    have hmay := hsup.may_alloc (missing_pos hz) hr
    refine ⟨⟨fileStep_growAddr h hdata hr h0, (hfile bn).trans (if_pos hpos), hdata.ne_zero,
      fun hmap => absurd hz hmap⟩, hmay.2, hsup.grow (freeBlocks_alloc hdata hr) ?_
      (fun x hx => ⟨mem_cons_of_mem bn hx, hother x hx⟩) (Or.inl h12)
      (hsup.ready.alloc hmay).setExtent⟩
    rw [BState.missing, h12]
    exact missing_cons hz hother

theorem runs_bmap_entry (hbn : ¬ bn < NDIRECT) (hj : bn - NDIRECT < NINDIRECT)
    (hind : (st.extent ip).addrs 12 ≠ 0) (hsup : Supply E sb ip F (bn :: bns) st) :
    Runs p E (Granted E sb A i ip F bn bns st)
      (bmapEntry ((st.extent ip).addrs 12) (bn - NDIRECT)) st := by
  have hindData : sb.InData ((st.extent ip).addrs 12) := by
    have := h.inData_addr (i := i) (k := 12)
    rw [view_self] at this
    exact this hind
  have hbit : blockBit sb st.disk ((st.extent ip).addrs 12) = true := by
    have := h.bit_ptr (i := i) (k := 12)
    rw [view_self, ptr_twelve] at this
    exact this hind
  have hblock : st.file ip bn =
      (st.disk ((st.extent ip).addrs 12)).le (4 * (bn - NDIRECT)) 4 :=
    fileBlock_indirect st.disk hind hbn
  have hpos : filePos bn = 13 + (bn - NDIRECT) := (if_neg hbn).trans (pos_indirect hbn)
  have hentry : st.file ip bn = 0 → May E F ((st.extent ip).addrs 12) := fun hz =>
    hsup.may _ (mem_logs.2 (Or.inr (Or.inr
      ⟨rfl, hind, bn, mem_unmapped.2 ⟨mem_cons_self, hz⟩, Nat.not_lt.1 hbn⟩)))
  refine runs_bmapEntry h.super hheld h.reserved hlog hindData hbit hsup.ready
    (fun h0 => ⟨hentry (hblock.trans h0),
      fun r hr => hsup.may_alloc (missing_pos (hblock.trans h0)) hr⟩)
    (fun h0 hr => hsup.firstFree_none (missing_pos (hblock.trans h0)) hr) ?_ ?_
  · intro h0
    rw [← hblock] at h0 ⊢
    exact hsup.granted h h0
  · intro h0 r hr hdata
    have hz := hblock.trans h0
    have hfile := file_growEntry h hdata (firstFree_eq_some hr).2.1 hind hj
    have hother : ∀ x ∈ bns,
        (st.growEntry sb ((st.extent ip).addrs 12) (bn - NDIRECT) r).file ip x = st.file ip x := by
      intro x hx
      rw [hfile, if_neg]
      exact fun he => hnext (filePos_inj (he.trans hpos.symm) ▸ hx)
    have hmay := hsup.may_alloc (missing_pos hz) hr
    have hfree : freeBlocks sb st.disk = r :: freeBlocks sb
        (st.growEntry sb ((st.extent ip).addrs 12) (bn - NDIRECT) r).disk := by
      rw [growEntry_disk, InOrder.allocEntryDisk, freeBlocks_update hindData.1]
      exact freeBlocks_alloc hdata hr
    exact ⟨⟨fileStep_growEntry h hdata hr hind hj h0, (hfile bn).trans (if_pos hpos),
      hdata.ne_zero, fun hmap => absurd hz hmap⟩, hmay.2, hsup.grow hfree (missing_cons hz hother)
      (fun x hx => ⟨mem_cons_of_mem bn hx, hother x hx⟩) (Or.inl rfl)
      ((hsup.ready.alloc hmay).write (hentry hz) _)⟩

theorem runs_bmap (hbn : bn < MAXFILE) (hsup : Supply E sb ip F (bn :: bns) st) :
    Runs p E (Granted E sb A i ip F bn bns st) (bmap ip bn) st := by
  by_cases hdir : bn < NDIRECT
  · exact runs_bmap_direct h hlog hheld hnext hdir hsup
  have hj : bn - NDIRECT < NINDIRECT := by
    have : bn < 140 := hbn
    unfold NDIRECT NINDIRECT
    omega
  have hzero : (st.extent ip).addrs 12 = 0 → st.file ip bn = 0 := by
    intro h0
    rw [BState.file, fileBlock, filePos, if_neg hdir, pos_indirect hdir, ptr_entry_of_zero _ h0]
  rw [bmap, dif_neg hdir, if_pos hj, Runs, wp_bind]
  refine runs_bmapAddr h.super hheld h.reserved hlog hsup.ready
    (fun h0 r hr => hsup.may_alloc (missing_pos (hzero h0)) hr)
    (fun h0 hr => hsup.firstFree_none (missing_pos (hzero h0)) hr) ?_ ?_
  · intro hind
    exact runs_bmap_entry h hlog hheld hnext hdir hj hind hsup
  · -- the indirect block has just been allocated, so the block was not mapped
    intro h0 r1 hr1 hdata
    have hstep : FileStep sb A i ip (fun _ => False) st (st.growAddr sb ip 12 r1) :=
      fileStep_growAddr h hdata hr1 h0
    have hnew : ((st.growAddr sb ip 12 r1).extent ip).addrs 12 = r1 := by
      rw [growAddr_addrs, update_self]
    have hne : ((st.growAddr sb ip 12 r1).extent ip).addrs 12 ≠ 0 := by
      rw [hnew]
      exact hdata.ne_zero
    have hfile : ∀ x ∈ bn :: bns, (st.growAddr sb ip 12 r1).file ip x = st.file ip x :=
      fun x _ => (file_growAddr h hdata (firstFree_eq_some hr1).2.1 h0 x).trans
        (if_neg (filePos_ne_twelve x))
    have hsup1 : Supply E sb ip F (bn :: bns) (st.growAddr sb ip 12 r1) :=
      hsup.grow (freeBlocks_alloc hdata hr1)
        (missing_indirect h0 hne ⟨bn, mem_cons_self, Nat.not_lt.1 hdir⟩ hfile)
        (fun x hx => ⟨hx, hfile x hx⟩) (Or.inr hnew)
        (hsup.ready.alloc (hsup.may_alloc (missing_pos (hzero h0)) hr1)).setExtent
    have hentry := runs_bmap_entry (p := p) hstep.order (hlog.imp_right hstep.logRes)
      (hstep.held.trans hheld) hnext hdir hj hne hsup1
    rw [hnew] at hentry
    refine wp_conseq hentry ?_
    rintro r st' ⟨hb, hmay, hsup'⟩
    exact ⟨⟨(hstep.trans hb.step).mono fun o ho => ho.elim id id, hb.block, hb.ne_zero,
      fun hmap => absurd (hzero h0) hmap⟩, hmay, hsup'⟩

end Qwin.Fs
