import Mathlib.Data.List.FinRange
import Qwin.Kernel.Param

/-!
# On-disk layout

The structures of `fs.h` and where they lie on the disk: the boot block, the super
block, the inode blocks, the bitmap blocks, the data area and, at the end, the log.
A structure is read from and written to the bytes of its block; the lemmas say that
what was written is read back and that its neighbours in the block stay.
-/

namespace Qwin.Fs

open List

structure Superblock where
  size : ℕ
  nblocks : ℕ
  ninodes : ℕ
  nlog : ℕ
  deriving DecidableEq

namespace Superblock

/-- The super block read from the bytes of block 1. -/
def get (b : Block) : Superblock where
  size := b.le 0 4
  nblocks := b.le 4 4
  ninodes := b.le 8 4
  nlog := b.le 12 4

def dataStart (sb : Superblock) : ℕ := sb.ninodes / IPB + 3 + (sb.size / BPB + 1)

/-- The first block of the log, as `initlog` computes it. -/
def dataEnd (sb : Superblock) : ℕ := sb.size - sb.nlog

def InData (sb : Superblock) (b : ℕ) : Prop := sb.dataStart ≤ b ∧ b < sb.dataEnd

end Superblock

/-- `IBLOCK(i)`: the block containing inode `i`. -/
def iblock (i : ℕ) : ℕ := i / IPB + 2

/-- `BBLOCK(b, ninodes)`: the block containing the bit of block `b`. -/
def bblock (b ninodes : ℕ) : ℕ := b / BPB + ninodes / IPB + 3

instance neZero_addrs : NeZero 13 := ⟨by decide⟩

@[ext] structure Dinode where
  type : Short
  major : Short
  minor : Short
  nlink : Short
  size : ℕ
  addrs : Fin 13 → ℕ

namespace Dinode

/-- The values of a dinode that its fields on the disk have room for. -/
structure Fits (d : Dinode) : Prop where
  size : d.size < 2 ^ 32
  addrs : ∀ k, d.addrs k < 2 ^ 32

/-- Inode number `q` of a block. -/
def get (b : Block) (q : ℕ) : Dinode where
  type := BitVec.ofNat 16 (b.le (64 * q) 2)
  major := BitVec.ofNat 16 (b.le (64 * q + 2) 2)
  minor := BitVec.ofNat 16 (b.le (64 * q + 4) 2)
  nlink := BitVec.ofNat 16 (b.le (64 * q + 6) 2)
  size := b.le (64 * q + 8) 4
  addrs := fun k => b.le (64 * q + (12 + 4 * k.val)) 4

/-- The fields of a dinode in the order of the C structure. -/
def fields (d : Dinode) : List (ℕ × ℕ) :=
  (2, d.type.toNat) :: (2, d.major.toNat) :: (2, d.minor.toNat) :: (2, d.nlink.toNat) ::
    (4, d.size) :: (List.finRange 13).map fun k => (4, d.addrs k)

def put (b : Block) (q : ℕ) (d : Dinode) : Block := b.putAll (64 * q) d.fields

theorem width_fields (d : Dinode) : Bytes.width d.fields = 64 := by
  simp [fields, Bytes.width_map]

theorem le_put (b : Block) {q k w v : ℕ} (d : Dinode) (hq : q < IPB)
    (hk : d.fields[k]? = some (w, v)) (hv : v < 256 ^ w) :
    (put b q d).le (64 * q + Bytes.width (d.fields.take k)) w = v := by
  have hq8 : q < 8 := hq
  exact b.le_putAll d.fields hk (by rw [width_fields]; omega) hv

theorem getElem?_fields_addrs (d : Dinode) (k : Fin 13) :
    d.fields[k.val + 5]? = some (4, d.addrs k) := by
  simp [fields]

theorem width_take_fields (d : Dinode) (k : Fin 13) :
    Bytes.width (d.fields.take (k.val + 5)) = 12 + 4 * k.val := by
  have hk : min k.val 13 = k.val := by omega
  simp only [fields, take_succ_cons, Bytes.width_cons, ← map_take,
    Bytes.width_map, length_take, length_finRange, hk]
  omega

theorem short_lt (x : Short) : x.toNat < 256 ^ 2 := x.isLt

theorem short_ofNat_toNat (x : Short) : BitVec.ofNat 16 x.toNat = x := by
  rw [BitVec.ofNat_toNat, BitVec.setWidth_eq]

@[simp] theorem get_put_self (b : Block) {q : ℕ} (d : Dinode) (hq : q < IPB) (hd : d.Fits) :
    get (put b q d) q = d := by
  have htype := le_put b (k := 0) d hq rfl (short_lt _)
  have hmajor := le_put b (k := 1) d hq rfl (short_lt _)
  have hminor := le_put b (k := 2) d hq rfl (short_lt _)
  have hnlink := le_put b (k := 3) d hq rfl (short_lt _)
  have hsize := le_put b (k := 4) d hq rfl hd.size
  have haddrs : ∀ k, (get (put b q d) q).addrs k = d.addrs k := by
    intro k
    have haddr := le_put b d hq (getElem?_fields_addrs d k) (hd.addrs k)
    rw [width_take_fields] at haddr
    exact haddr
  simp only [fields, take_succ_cons, take_zero, Bytes.width_cons, Bytes.width_nil,
    Nat.add_zero, Nat.reduceAdd] at htype hmajor hminor hnlink hsize
  apply Dinode.ext
  · exact (congrArg (BitVec.ofNat 16) htype).trans (short_ofNat_toNat _)
  · exact (congrArg (BitVec.ofNat 16) hmajor).trans (short_ofNat_toNat _)
  · exact (congrArg (BitVec.ofNat 16) hminor).trans (short_ofNat_toNat _)
  · exact (congrArg (BitVec.ofNat 16) hnlink).trans (short_ofNat_toNat _)
  · exact hsize
  · exact funext haddrs

theorem get_congr {b c : Block} {q : ℕ}
    (h : ∀ o w, 64 * q ≤ o → o + w ≤ 64 * q + 64 → b.le o w = c.le o w) : get b q = get c q := by
  unfold get
  congr 1
  case e_addrs =>
    funext k
    have hk := k.isLt
    rw [h _ _ (by omega) (by omega)]
  all_goals rw [h _ _ (by omega) (by omega)]

theorem get_put_of_ne (b : Block) {q q' : ℕ} (d : Dinode) (h : q' ≠ q) :
    get (put b q d) q' = get b q' :=
  get_congr fun o w h1 h2 => b.le_putAll_outside d.fields (by rw [width_fields]; omega)

end Dinode

def dinode (d : ℕ → Block) (i : ℕ) : Dinode := Dinode.get (d (iblock i)) (i % IPB)

/-- The disk with the dinode of inode `i` replaced. -/
def setDinode (d : ℕ → Block) (i : ℕ) (x : Dinode) : ℕ → Block :=
  Function.update d (iblock i) (Dinode.put (d (iblock i)) (i % IPB) x)

theorem dinode_setDinode (d : ℕ → Block) {i : ℕ} {x : Dinode} (hx : x.Fits) (j : ℕ) :
    dinode (setDinode d i x) j = if j = i then x else dinode d j := by
  have hlt : i % IPB < IPB := Nat.mod_lt i (by decide)
  unfold dinode setDinode
  by_cases hb : iblock j = iblock i
  · rw [hb, Function.update_self]
    by_cases hj : j = i
    · rw [if_pos hj, hj, Dinode.get_put_self _ x hlt hx]
    · have hne : j % IPB ≠ i % IPB := by
        intro h
        apply hj
        unfold iblock at hb
        rw [← Nat.div_add_mod j IPB, ← Nat.div_add_mod i IPB, h, Nat.add_right_cancel hb]
      rw [if_neg hj, Dinode.get_put_of_ne _ x hne]
  · rw [Function.update_of_ne hb, if_neg fun h => hb (by rw [h])]

end Qwin.Fs
