import Qwin.Fs.Alloc

/-!
# The bytes of a file

Block `bn` of a file is found through the pointer at position `filePos bn`: the direct
blocks come first, the indirect block itself holds no data. `byteAt d a o` is byte `o`
of the file with addresses `a`, if its block is mapped.

`FileStep` is what the functions that work on one inode do to the rest of the file
system: other inodes and the bytes outside `X` stay what they are, and the disk stays
in order for the addresses the kernel now has in memory.
-/

namespace Qwin.Fs

open Function (update update_of_ne update_self)

/-- The position of the pointer to block `bn` of a file. -/
def filePos (bn : ℕ) : ℕ := if bn < NDIRECT then bn else bn + 1

def fileBlock (d : ℕ → Block) (a : Fin 13 → ℕ) (bn : ℕ) : ℕ := ptr d a (filePos bn)

def byteAt (d : ℕ → Block) (a : Fin 13 → ℕ) (o : ℕ) : Option UInt8 :=
  if fileBlock d a (o / BSIZE) = 0 then none
  else some ((d (fileBlock d a (o / BSIZE))).getByte (o % BSIZE))

theorem filePos_ne_twelve (bn : ℕ) : filePos bn ≠ 12 := by
  unfold filePos NDIRECT
  split <;> omega

theorem filePos_inj {m n : ℕ} (h : filePos m = filePos n) : m = n := by
  unfold filePos NDIRECT at h
  split at h <;> split at h <;> omega

section

variable {d d' : ℕ → Block} {a a' : Fin 13 → ℕ} {o bn : ℕ} {v : UInt8}

theorem byteAt_of_mapped (h : fileBlock d a (o / BSIZE) ≠ 0) :
    byteAt d a o = some ((d (fileBlock d a (o / BSIZE))).getByte (o % BSIZE)) := by
  rw [byteAt, if_neg h]

theorem mapped_of_byteAt (h : byteAt d a o = some v) : fileBlock d a (o / BSIZE) ≠ 0 := by
  intro h0
  rw [byteAt, if_pos h0] at h
  cases h

/-- Every mapped block of a file stays where it is, with its bytes. -/
def Keeps (d : ℕ → Block) (a : Fin 13 → ℕ) (d' : ℕ → Block) (a' : Fin 13 → ℕ) : Prop :=
  ∀ bn, fileBlock d a bn ≠ 0 →
    fileBlock d' a' bn = fileBlock d a bn ∧
      d' (fileBlock d a bn) = d (fileBlock d a bn)

theorem Keeps.refl (d : ℕ → Block) (a : Fin 13 → ℕ) : Keeps d a d a := fun _ _ => ⟨rfl, rfl⟩

theorem Keeps.byteAt (h : Keeps d a d' a') (hv : byteAt d a o = some v) :
    byteAt d' a' o = some v := by
  have hmap := mapped_of_byteAt hv
  obtain ⟨h1, h2⟩ := h _ hmap
  rw [byteAt_of_mapped hmap] at hv
  rw [byteAt_of_mapped (by rw [h1]; exact hmap), h1, h2]
  exact hv

theorem Keeps.of_agrees (h : Agrees d d' a) : Keeps d a d' a := by
  intro bn hbn
  exact ⟨h.ptr _, h _ hbn⟩

end

/-! ## Writing to a block of a file -/

section Write

variable {D : ℕ → Prop} {m : ℕ → Bool} {A : ℕ → Fin 13 → ℕ} {d : ℕ → Block} {i : ℕ}

variable (h : Owned D (ptrs A d) m)
include h

/-- Writing the data of block `bn` of inode `i` leaves all pointers alone. -/
theorem owned_ptr_write (bn : ℕ) (v : Block) (j k : ℕ) :
    ptr (update d (fileBlock d (A i) bn) v) (A j) k = ptr d (A j) k := by
  refine ptr_update_of_ne v ?_ _
  intro hj
  exact owned_indirect_ne h hj fun he => filePos_ne_twelve bn (Prod.ext_iff.1 he).2.symm

theorem owned_fileBlock_ne {j k n : ℕ} (hn : fileBlock d (A j) n ≠ 0) (hne : (j, n) ≠ (i, k)) :
    fileBlock d (A j) n ≠ fileBlock d (A i) k := by
  refine h.ne (k := (j, filePos n)) (l := (i, filePos k)) hn ?_
  intro he
  obtain ⟨h1, h2⟩ := Prod.ext_iff.1 he
  exact hne (Prod.ext h1 (filePos_inj h2))

theorem owned_byteAt_write {n : ℕ} (hn : fileBlock d (A i) n ≠ 0) (v : Block) (j o : ℕ) :
    byteAt (update d (fileBlock d (A i) n) v) (A j) o =
      if j = i ∧ o / BSIZE = n then some (v.getByte (o % BSIZE))
      else byteAt d (A j) o := by
  rw [byteAt, fileBlock, owned_ptr_write h n, ← fileBlock]
  by_cases hm : j = i ∧ o / BSIZE = n
  · obtain ⟨rfl, rfl⟩ := hm
    rw [if_neg hn, if_pos ⟨rfl, rfl⟩, update_self]
  · rw [if_neg hm, byteAt]
    by_cases h0 : fileBlock d (A j) (o / BSIZE) = 0
    · rw [if_pos h0, if_pos h0]
    · have hne := owned_fileBlock_ne h h0 (i := i) (k := n) fun he =>
        hm ⟨(Prod.ext_iff.1 he).1, (Prod.ext_iff.1 he).2⟩
      rw [if_neg h0, if_neg h0, update_of_ne hne]

end Write

namespace InOrder

variable {sb : Superblock} {A : ℕ → Fin 13 → ℕ} {d : ℕ → Block} {i j r : ℕ}

variable (h : InOrder sb A d) (hr : sb.InData r) (hbit : blockBit sb d r = false)
include h hr hbit

theorem keeps_allocAddr {k : Fin 13} (hk : A i k = 0) (m : ℕ) :
    Keeps d (A m) (allocDisk sb d r) (update A i (update (A i) k r) m) := by
  intro bn hbn
  refine ⟨?_, h.agrees_alloc hr hbit m _ hbn⟩
  have hptr := h.ptrs_allocAddr hr hbit hk (m, filePos bn)
  have hne : (m, filePos bn) ≠ (i, k.val) := by
    intro he
    obtain ⟨rfl, he⟩ := Prod.ext_iff.1 he
    rw [fileBlock, show filePos bn = k.val from he, ptr_addr, hk] at hbn
    exact hbn rfl
  rw [update_of_ne hne] at hptr
  exact hptr

theorem keeps_allocEntry (hind : A i 12 ≠ 0) (hj : j < NINDIRECT)
    (hz : (d (A i 12)).le (4 * j) 4 = 0) (m : ℕ) :
    Keeps d (A m) (allocEntryDisk sb d (A i 12) j r) (A m) := by
  intro bn hbn
  constructor
  · have hptr := h.ptrs_allocEntry hr hbit hind hj (m, filePos bn)
    have hne : (m, filePos bn) ≠ (i, 13 + j) := by
      intro he
      obtain ⟨rfl, he⟩ := Prod.ext_iff.1 he
      rw [fileBlock, show filePos bn = 13 + j from he, ptr_entry d hind, hz] at hbn
      exact hbn rfl
    rw [update_of_ne hne] at hptr
    exact hptr
  · have hne : A i 12 ≠ fileBlock d (A m) bn :=
      h.indirect_ne hind fun he => filePos_ne_twelve bn (Prod.ext_iff.1 he).2.symm
    rw [allocEntryDisk, update_of_ne hne.symm]
    exact h.agrees_alloc hr hbit m _ hbn

end InOrder

end Qwin.Fs
