import Qwin.Fs.Layout
import Qwin.Lib.Owned

/-!
# Which blocks belong to which inode

The block pointers of an inode are its thirteen addresses and the entries of its
indirect block. `ptr d a k` numbers them: positions below 13 are the addresses `a`,
the position `13 + j` is entry `j` of the indirect block. The disk is in order when
the pointers of all inodes own their blocks in the sense of `Owned`, with the bitmap
as the marks and the data area as the cells.

The inodes are given by a table of addresses and not read from the inode blocks, so
that the same notion serves while the kernel holds a changed copy of an inode.
-/

namespace Qwin.Fs

open Function (update update_of_ne update_self update_apply)

/-- Block pointer number `k` of an inode with addresses `a`. -/
def ptr (d : ℕ → Block) (a : Fin 13 → ℕ) (k : ℕ) : ℕ :=
  if h : k < 13 then a ⟨k, h⟩
  else if a 12 = 0 then 0
  else (d (a 12)).le (4 * (k - 13)) 4

/-- All block pointers of a table of inodes. -/
def ptrs (A : ℕ → Fin 13 → ℕ) (d : ℕ → Block) (x : ℕ × ℕ) : ℕ := ptr d (A x.1) x.2

def blockBit (sb : Superblock) (d : ℕ → Block) (b : ℕ) : Bool :=
  (d (bblock b sb.ninodes)).bit (b % BPB)

/-- The block `balloc` takes: the first one whose bit is clear. -/
def firstFree (sb : Superblock) (d : ℕ → Block) : Option ℕ :=
  (List.range sb.size).find? fun b => !blockBit sb d b

def markBlock (sb : Superblock) (d : ℕ → Block) (b : ℕ) : ℕ → Block :=
  update d (bblock b sb.ninodes) ((d (bblock b sb.ninodes)).setBit (b % BPB))

def unmarkBlock (sb : Superblock) (d : ℕ → Block) (b : ℕ) : ℕ → Block :=
  update d (bblock b sb.ninodes) ((d (bblock b sb.ninodes)).clearBit (b % BPB))

def allocDisk (sb : Superblock) (d : ℕ → Block) (b : ℕ) : ℕ → Block :=
  update (markBlock sb d b) b (Bytes.zero 512)

/-! ## Where things lie -/

section Places

variable {sb : Superblock} {b c i : ℕ}

theorem one_lt_dataStart : 1 < sb.dataStart := by
  unfold Superblock.dataStart IPB BPB
  omega

theorem Superblock.InData.lt_size (h : sb.InData b) : b < sb.size :=
  lt_of_lt_of_le h.2 (Nat.sub_le _ _)

theorem Superblock.InData.ne_zero (h : sb.InData b) : b ≠ 0 :=
  Nat.ne_of_gt (lt_of_lt_of_le (lt_trans Nat.one_pos one_lt_dataStart) h.1)

theorem bblock_lt_dataStart (h : b < sb.size) : bblock b sb.ninodes < sb.dataStart := by
  unfold bblock Superblock.dataStart IPB BPB
  omega

theorem one_lt_bblock : 1 < bblock b sb.ninodes := by
  unfold bblock IPB BPB
  omega

theorem iblock_lt_bblock (h : i < sb.ninodes) : iblock i < bblock b sb.ninodes := by
  unfold iblock bblock IPB BPB
  omega

theorem iblock_lt_dataStart (h : i < sb.ninodes) : iblock i < sb.dataStart := by
  unfold iblock Superblock.dataStart IPB BPB
  omega

theorem one_lt_iblock : 1 < iblock i := by
  unfold iblock IPB
  omega

theorem bblock_inj (h : bblock b sb.ninodes = bblock c sb.ninodes)
    (hm : b % BPB = c % BPB) : b = c := by
  unfold bblock at h
  rw [← Nat.div_add_mod b BPB, ← Nat.div_add_mod c BPB, hm, show b / BPB = c / BPB by omega]

end Places

/-! ## Bits -/

section Bits

variable (sb : Superblock) (d : ℕ → Block)

theorem blockBit_mark (b : ℕ) : blockBit sb (markBlock sb d b) = update (blockBit sb d) b true := by
  funext c
  have hlt : c % BPB / 8 < 512 := by
    have : c % BPB < BPB := Nat.mod_lt c (by decide)
    have : BPB = 4096 := rfl
    omega
  unfold blockBit markBlock
  by_cases hb : bblock c sb.ninodes = bblock b sb.ninodes
  · rw [hb, update_self, Bytes.bit_setBit _ hlt]
    by_cases hc : c = b
    · subst hc
      rw [update_self, decide_eq_true rfl, Bool.or_true]
    · have hne : b % BPB ≠ c % BPB := fun h => hc (bblock_inj hb h.symm)
      rw [update_of_ne hc, decide_eq_false hne, Bool.or_false, hb]
  · have hc : c ≠ b := fun h => hb (by rw [h])
    rw [update_of_ne hb, update_of_ne hc]

theorem blockBit_unmark (b : ℕ) :
    blockBit sb (unmarkBlock sb d b) = update (blockBit sb d) b false := by
  funext c
  have hlt : c % BPB / 8 < 512 := by
    have : c % BPB < BPB := Nat.mod_lt c (by decide)
    have : BPB = 4096 := rfl
    omega
  unfold blockBit unmarkBlock
  by_cases hb : bblock c sb.ninodes = bblock b sb.ninodes
  · rw [hb, update_self, Bytes.bit_clearBit _ hlt]
    by_cases hc : c = b
    · subst hc
      rw [update_self, decide_eq_true rfl, Bool.not_true, Bool.and_false]
    · have hne : b % BPB ≠ c % BPB := fun h => hc (bblock_inj hb h.symm)
      rw [update_of_ne hc, decide_eq_false hne, Bool.not_false, Bool.and_true, hb]
  · have hc : c ≠ b := fun h => hb (by rw [h])
    rw [update_of_ne hb, update_of_ne hc]

variable {sb d}

theorem blockBit_update_of_ne {s b : ℕ} (v : Block) (h : bblock b sb.ninodes ≠ s) :
    blockBit sb (update d s v) b = blockBit sb d b := by
  unfold blockBit
  rw [update_of_ne h]

theorem firstFree_eq_some {r : ℕ} (h : firstFree sb d = some r) :
    r < sb.size ∧ blockBit sb d r = false ∧ ∀ b, b < r → blockBit sb d b = true := by
  unfold firstFree at h
  rw [List.find?_range_eq_some] at h
  obtain ⟨hbit, hmem, hmin⟩ := h
  refine ⟨List.mem_range.1 hmem, by simpa using hbit, fun b hb => ?_⟩
  simpa using hmin b hb

end Bits

/-! ## Pointers -/

section Pointers

variable {d : ℕ → Block} {a : Fin 13 → ℕ} {k s : ℕ}

section

variable (d)

theorem ptr_addr (a : Fin 13 → ℕ) (k : Fin 13) : ptr d a k.val = a k := by
  simp [ptr]

theorem ptr_twelve (a : Fin 13 → ℕ) : ptr d a 12 = a 12 := ptr_addr d a 12

theorem ptr_entry (ha : a 12 ≠ 0) (j : ℕ) : ptr d a (13 + j) = (d (a 12)).le (4 * j) 4 := by
  simp [ptr, ha]

theorem ptr_entry_of_zero (ha : a 12 = 0) (j : ℕ) : ptr d a (13 + j) = 0 := by
  simp [ptr, ha]

end

/-- A block that is not the indirect block does not matter to the pointers. -/
theorem ptr_update_of_ne (v : Block) (h : a 12 ≠ 0 → a 12 ≠ s) (k : ℕ) :
    ptr (update d s v) a k = ptr d a k := by
  unfold ptr
  split
  · rfl
  · split
    · rfl
    next h0 => rw [update_of_ne (h h0)]

theorem ptr_update_addr (d : ℕ → Block) (a : Fin 13 → ℕ) (k : Fin 13) (hk : k ≠ 12) (v l : ℕ) :
    ptr d (update a k v) l = if l = k.val then v else ptr d a l := by
  unfold ptr
  by_cases hl : l < 13
  · rw [dif_pos hl, dif_pos hl, update_apply]
    simp only [Fin.ext_iff]
  · have hne : l ≠ k.val := by omega
    rw [dif_neg hl, dif_neg hl, if_neg hne, update_of_ne hk.symm]

theorem ptr_update_indirect (d : ℕ → Block) (a : Fin 13 → ℕ) (v l : ℕ) :
    ptr d (update a 12 v) l =
      if l = 12 then v
      else if l < 13 then ptr d a l
      else if v = 0 then 0 else (d v).le (4 * (l - 13)) 4 := by
  unfold ptr
  by_cases hl : l < 13
  · rw [dif_pos hl, update_apply, if_pos hl, dif_pos hl]
    simp only [Fin.ext_iff]
    rfl
  · have hne : l ≠ 12 := by omega
    rw [dif_neg hl, if_neg hne, if_neg hl, update_self]

/-- The two disks have the same blocks wherever an inode with addresses `a` points. -/
def Agrees (d d' : ℕ → Block) (a : Fin 13 → ℕ) : Prop :=
  ∀ k, ptr d a k ≠ 0 → d' (ptr d a k) = d (ptr d a k)

variable {d' : ℕ → Block}

theorem Agrees.ptr (h : Agrees d d' a) (k : ℕ) : ptr d' a k = ptr d a k := by
  have h12 := h 12
  rw [ptr_twelve] at h12
  unfold Fs.ptr
  split
  · rfl
  · split
    · rfl
    next h0 => rw [h12 h0]

theorem Agrees.trans {d'' : ℕ → Block} (h : Agrees d d' a) (h' : Agrees d' d'' a) :
    Agrees d d'' a := by
  intro k hk
  have hk' := h' k
  rw [h.ptr k] at hk'
  rw [hk' hk, h k hk]

variable {i : ℕ} {m : ℕ → Bool} {D : ℕ → Prop} {A : ℕ → Fin 13 → ℕ}

/-- The indirect block of an inode is no other pointer's block. -/
theorem owned_indirect_ne {j : ℕ}
    (h : Owned D (ptrs A d) m) (hj : A j 12 ≠ 0) (hne : (j, 12) ≠ (i, k)) :
    A j 12 ≠ ptr d (A i) k := by
  have hown := h.ne (k := (j, 12)) (l := (i, k))
  rw [ptrs, ptrs, ptr_twelve] at hown
  exact hown hj hne

theorem ptrs_addr {r : ℕ} {k : Fin 13} (hk : A i k = 0) (hr : d r = Bytes.zero 512) :
    ptrs (update A i (update (A i) k r)) d = update (ptrs A d) (i, k.val) r := by
  funext ⟨j, l⟩
  by_cases hj : j = i
  · subst hj
    simp only [ptrs, update_self]
    by_cases hk12 : k = 12
    · -- the new indirect block has no entries
      subst hk12
      rw [ptr_update_indirect, hr, Bytes.le_zero, ite_self, update_apply]
      by_cases hl : l = 12
      · rw [if_pos hl, if_pos (by rw [hl]; rfl)]
      · have hne : (j, l) ≠ (j, (12 : Fin 13).val) :=
          fun he => hl (Prod.ext_iff.1 he).2
        rw [if_neg hl, if_neg hne, ptrs]
        by_cases hl13 : l < 13
        · rw [if_pos hl13]
        · rw [if_neg hl13, show l = 13 + (l - 13) by omega, ptr_entry_of_zero d hk]
    · rw [ptr_update_addr _ _ _ hk12, update_apply]
      simp only [Prod.mk.injEq, true_and]
      rfl
  · have hne : (j, l) ≠ (i, k.val) := fun he => hj (Prod.ext_iff.1 he).1
    rw [update_of_ne hne]
    simp only [ptrs, update_of_ne hj]

/-- A block becomes an entry of the indirect block of an inode. -/
theorem ptrs_entry {j r : ℕ}
    (h : Owned D (ptrs A d) m) (hind : A i 12 ≠ 0) (hj : j < NINDIRECT) (hr : r < 256 ^ 4) :
    ptrs A (update d (A i 12) ((d (A i 12)).putLe (4 * j) 4 r)) =
      update (ptrs A d) (i, 13 + j) r := by
  have hj' : 4 * j + 4 ≤ 512 := by
    have : j < 128 := hj
    omega
  funext ⟨n, l⟩
  by_cases hn : n = i
  · subst hn
    rw [ptrs]
    by_cases hl : l < 13
    · have hne : (n, l) ≠ (n, 13 + j) := fun he => by
        have := (Prod.ext_iff.1 he).2
        omega
      rw [update_of_ne hne, ptrs, ptr, dif_pos hl, ptr, dif_pos hl]
    · obtain ⟨q, rfl⟩ : ∃ q, l = 13 + q := ⟨l - 13, by omega⟩
      rw [ptr_entry _ hind, update_self]
      by_cases hq : q = j
      · rw [hq, Bytes.le_putLe _ hj' hr, update_self]
      · have hne : (n, 13 + q) ≠ (n, 13 + j) := fun he => by
          have := (Prod.ext_iff.1 he).2
          omega
        rw [Bytes.le_putLe_disjoint _ (by omega), update_of_ne hne, ptrs, ptr_entry d hind]
  · have hne : (n, l) ≠ (i, 13 + j) := fun he => hn (Prod.ext_iff.1 he).1
    have hother : A n 12 ≠ 0 → A n 12 ≠ A i 12 := by
      intro h0
      have := owned_indirect_ne (k := 12) h h0 fun he => hn (Prod.ext_iff.1 he).1
      rwa [ptr_twelve] at this
    rw [update_of_ne hne, ptrs, ptr_update_of_ne _ hother, ptrs]

end Pointers

/-! ## The disk in order -/

/-- The disk is in order for the inodes with addresses `A`. -/
structure InOrder (sb : Superblock) (A : ℕ → Fin 13 → ℕ) (d : ℕ → Block) : Prop where
  super : Superblock.get (d 1) = sb
  owned : Owned sb.InData (ptrs A d) (blockBit sb d)
  reserved : ∀ b, b < sb.dataStart → b < sb.size → blockBit sb d b = true

def LogReserved (sb : Superblock) (d : ℕ → Block) : Prop :=
  ∀ b, sb.dataEnd ≤ b → b < sb.size → blockBit sb d b = true

namespace InOrder

variable {sb : Superblock} {A : ℕ → Fin 13 → ℕ} {d : ℕ → Block} {i j k r s : ℕ}

section

variable (h : InOrder sb A d)
include h

theorem size_lt : sb.size < 2 ^ 32 := by
  rw [← h.super]
  exact Bytes.le_lt (d 1) 0 4

theorem inData (hk : ptr d (A i) k ≠ 0) : sb.InData (ptr d (A i) k) :=
  h.owned.area (i, k) hk

theorem inData_addr {k : Fin 13} (hk : A i k ≠ 0) : sb.InData (A i k) := by
  rw [← ptr_addr d (A i) k] at hk ⊢
  exact h.inData hk

theorem bit_ptr (hk : ptr d (A i) k ≠ 0) : blockBit sb d (ptr d (A i) k) = true :=
  h.owned.mark (k := (i, k)) hk

theorem indirect_ne (hj : A j 12 ≠ 0) (hne : (j, 12) ≠ (i, k)) : A j 12 ≠ ptr d (A i) k :=
  owned_indirect_ne h.owned hj hne

/-- A block that is neither the super block nor in the bitmap nor an indirect block may
be overwritten. -/
theorem update_other (v : Block) (h1 : s ≠ 1) (hb : ∀ b, b < sb.size → bblock b sb.ninodes ≠ s)
    (hi : ∀ j, A j 12 ≠ 0 → A j 12 ≠ s) : InOrder sb A (update d s v) := by
  refine ⟨?_, h.owned.congr ?_ ?_, ?_⟩
  · rw [update_of_ne h1.symm]
    exact h.super
  · intro x
    exact ptr_update_of_ne v (hi x.1) x.2
  · intro b hbd
    exact blockBit_update_of_ne v (hb b hbd.lt_size)
  · intro b hbd hbs
    rw [blockBit_update_of_ne v (hb b hbs)]
    exact h.reserved b hbd hbs

theorem write (v : Block) (hk : ptr d (A i) k ≠ 0) (h12 : k ≠ 12) :
    InOrder sb A (update d (ptr d (A i) k) v) := by
  have hdata := h.inData hk
  have hstart : sb.dataStart ≤ ptr d (A i) k := hdata.1
  refine h.update_other v ?_ ?_ ?_
  · exact Nat.ne_of_gt (lt_of_lt_of_le one_lt_dataStart hstart)
  · intro b hb
    exact Nat.ne_of_lt (lt_of_lt_of_le (bblock_lt_dataStart hb) hstart)
  · intro j hj
    exact h.indirect_ne hj fun he => h12 (Prod.ext_iff.1 he).2.symm

theorem update_iblock (v : Block) (hi : i < sb.ninodes) : InOrder sb A (update d (iblock i) v) := by
  refine h.update_other v ?_ ?_ ?_
  · exact Nat.ne_of_gt one_lt_iblock
  · intro b _
    exact Nat.ne_of_gt (iblock_lt_bblock hi)
  · intro j hj
    exact Nat.ne_of_gt (lt_of_lt_of_le (iblock_lt_dataStart hi) (h.inData_addr hj).1)

end

/-! ### Allocation -/

/-- The disk after a free block became entry `j` of the indirect block `ind`. -/
def allocEntryDisk (sb : Superblock) (d : ℕ → Block) (ind j r : ℕ) : ℕ → Block :=
  update (allocDisk sb d r) ind ((d ind).putLe (4 * j) 4 r)

theorem blockBit_alloc (hr : sb.InData r) {b : ℕ} (hb : b < sb.size) :
    blockBit sb (allocDisk sb d r) b = update (blockBit sb d) r true b := by
  have hne : bblock b sb.ninodes ≠ r :=
    Nat.ne_of_lt (lt_of_lt_of_le (bblock_lt_dataStart hb) hr.1)
  rw [allocDisk, blockBit_update_of_ne _ hne, blockBit_mark]

variable (h : InOrder sb A d) (hr : sb.InData r) (hbit : blockBit sb d r = false)

include h hr

theorem super_alloc : Superblock.get (allocDisk sb d r 1) = sb := by
  have h1 : 1 ≠ r := Nat.ne_of_lt (lt_of_lt_of_le one_lt_dataStart hr.1)
  have hb : 1 ≠ bblock r sb.ninodes := Nat.ne_of_lt one_lt_bblock
  rw [allocDisk, update_of_ne h1, markBlock, update_of_ne hb]
  exact h.super

theorem reserved_alloc {b : ℕ} (hb : b < sb.dataStart) (hbs : b < sb.size) :
    blockBit sb (allocDisk sb d r) b = true := by
  have hne : b ≠ r := Nat.ne_of_lt (lt_of_lt_of_le hb hr.1)
  rw [blockBit_alloc hr hbs, update_of_ne hne]
  exact h.reserved b hb hbs

include hbit

/-- Allocation leaves every block that is pointed to alone. -/
theorem agrees_alloc (j : ℕ) : Agrees d (allocDisk sb d r) (A j) := by
  intro k hk
  have hdata := h.inData hk
  have hne : ptr d (A j) k ≠ r :=
    h.owned.ne_of_unmarked (k := (j, k)) hr hr.ne_zero hbit
  have hbb : ptr d (A j) k ≠ bblock r sb.ninodes :=
    Nat.ne_of_gt (lt_of_lt_of_le (bblock_lt_dataStart hr.lt_size) hdata.1)
  rw [allocDisk, update_of_ne hne, markBlock, update_of_ne hbb]

theorem ptrs_alloc : ptrs A (allocDisk sb d r) = ptrs A d :=
  funext fun x => (h.agrees_alloc hr hbit x.1).ptr x.2

theorem ptrs_allocAddr {k : Fin 13} (hk : A i k = 0) (x : ℕ × ℕ) :
    ptrs (update A i (update (A i) k r)) (allocDisk sb d r) x =
      update (ptrs A d) (i, k.val) r x := by
  have hzero : allocDisk sb d r r = Bytes.zero 512 := update_self _ _ _
  rw [ptrs_addr hk hzero, h.ptrs_alloc hr hbit]

theorem allocAddr {k : Fin 13} (hk : A i k = 0) :
    InOrder sb (update A i (update (A i) k r)) (allocDisk sb d r) := by
  have hk0 : ptrs A d (i, k.val) = 0 := by rw [ptrs, ptr_addr, hk]
  refine ⟨h.super_alloc hr, (h.owned.claim hk0 hr hr.ne_zero hbit).congr
    (h.ptrs_allocAddr hr hbit hk) ?_, fun b hb hbs => h.reserved_alloc hr hb hbs⟩
  intro b hb
  exact blockBit_alloc hr hb.lt_size

variable (hind : A i 12 ≠ 0) (hj : j < NINDIRECT)
include hind hj

theorem ptrs_allocEntry (x : ℕ × ℕ) :
    ptrs A (allocEntryDisk sb d (A i 12) j r) x = update (ptrs A d) (i, 13 + j) r x := by
  have hr' : r < 256 ^ 4 := lt_trans hr.lt_size h.size_lt
  have howned : Owned sb.InData (ptrs A (allocDisk sb d r)) (blockBit sb d) := by
    rw [h.ptrs_alloc hr hbit]
    exact h.owned
  have hsame : allocDisk sb d r (A i 12) = d (A i 12) := by
    have := h.agrees_alloc hr hbit i 12
    rw [ptr_twelve] at this
    exact this hind
  rw [allocEntryDisk, ← hsame, ptrs_entry howned hind hj hr', h.ptrs_alloc hr hbit]

/-- A free block becomes an entry of the indirect block of an inode. -/
theorem allocEntry
    (hz : (d (A i 12)).le (4 * j) 4 = 0) : InOrder sb A (allocEntryDisk sb d (A i 12) j r) := by
  have hindData := h.inData_addr hind
  have hk0 : ptrs A d (i, 13 + j) = 0 := by rw [ptrs, ptr_entry d hind, hz]
  have hbb : ∀ b, b < sb.size → bblock b sb.ninodes ≠ A i 12 := fun b hb =>
    Nat.ne_of_lt (lt_of_lt_of_le (bblock_lt_dataStart hb) hindData.1)
  refine ⟨?_, (h.owned.claim hk0 hr hr.ne_zero hbit).congr
    (h.ptrs_allocEntry hr hbit hind hj) ?_, ?_⟩
  · have h1 : 1 ≠ A i 12 := Nat.ne_of_lt (lt_of_lt_of_le one_lt_dataStart hindData.1)
    rw [allocEntryDisk, update_of_ne h1]
    exact h.super_alloc hr
  · intro b hb
    rw [allocEntryDisk, blockBit_update_of_ne _ (hbb b hb.lt_size)]
    exact blockBit_alloc hr hb.lt_size
  · intro b hb hbs
    rw [allocEntryDisk, blockBit_update_of_ne _ (hbb b hbs)]
    exact h.reserved_alloc hr hb hbs

end InOrder

end Qwin.Fs
