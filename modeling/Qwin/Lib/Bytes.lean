import Mathlib.Data.Nat.Basic
import Mathlib.Data.List.Basic
import Mathlib.Logic.Function.Basic
import Mathlib.Tactic.Ring
import Mathlib.Tactic.Linarith

/-!
# Fixed-size byte areas

`Bytes n` is an area of `n` bytes, read and written the way C code does: single
bytes, little-endian integers at an offset, single bits, and runs of bytes copied
in or out. Every reader is total: a byte outside the area reads as zero. Each
writer comes with two laws, what is read back at the place written and what is
read back elsewhere, so that later proofs never look inside a writer.
-/

namespace Qwin

abbrev Bytes (n : ℕ) := Fin n → UInt8

namespace Bytes

variable {n : ℕ}

def zero (n : ℕ) : Bytes n := fun _ => 0

def getByte (b : Bytes n) (i : ℕ) : UInt8 :=
  if h : i < n then b ⟨i, h⟩ else 0

@[simp] theorem getByte_zero (i : ℕ) : (zero n).getByte i = 0 := by
  simp [getByte, zero]

/-! ## Little-endian integers -/

/-- The little-endian integer of `w` bytes at offset `o`. -/
def le (b : Bytes n) : ℕ → ℕ → ℕ
  | _, 0 => 0
  | o, w + 1 => (b.getByte o).toNat + 256 * le b (o + 1) w

/-- Store the low `w` bytes of `v` at offset `o`, least significant first. -/
def putLe (b : Bytes n) (o w v : ℕ) : Bytes n := fun i =>
  if o ≤ i.val ∧ i.val < o + w then UInt8.ofNat (v / 256 ^ (i.val - o)) else b i

theorem le_lt (b : Bytes n) (o w : ℕ) : b.le o w < 256 ^ w := by
  induction w generalizing o with
  | zero => simp [le]
  | succ w ih =>
    have hb : (b.getByte o).toNat < 256 := (b.getByte o).toNat_lt
    have hr := ih (o + 1)
    rw [le, pow_succ]
    omega

variable {o o' w : ℕ}

theorem le_congr {m : ℕ} {b : Bytes n} {c : Bytes m}
    (h : ∀ i, i < w → b.getByte (o + i) = c.getByte (o' + i)) : b.le o w = c.le o' w := by
  induction w generalizing o o' with
  | zero => rfl
  | succ w ih =>
    have h0 := h 0 (Nat.succ_pos w)
    have hs : ∀ i, i < w → b.getByte (o + 1 + i) = c.getByte (o' + 1 + i) := by
      intro i hi
      have := h (i + 1) (by omega)
      rwa [show o + 1 + i = o + (i + 1) by omega, show o' + 1 + i = o' + (i + 1) by omega]
    simp only [Nat.add_zero] at h0
    rw [le, le, h0, ih hs]

variable {v i : ℕ}

theorem getByte_putLe_inside (b : Bytes n) (hi : i < w) (hn : o + i < n) :
    (b.putLe o w v).getByte (o + i) = UInt8.ofNat (v / 256 ^ i) := by
  simp [getByte, putLe, hn, hi]

theorem getByte_putLe_outside (b : Bytes n) (hi : i < o ∨ o + w ≤ i) :
    (b.putLe o w v).getByte i = b.getByte i := by
  unfold getByte putLe
  split
  · have hout : ¬ (o ≤ i ∧ i < o + w) := by omega
    rw [if_neg hout]
  · rfl

/-- Bytes that spell out `v` read back as `v`, cut to `w` bytes. -/
theorem le_of_digits {b : Bytes n}
    (h : ∀ i, i < w → b.getByte (o + i) = UInt8.ofNat (v / 256 ^ i)) : b.le o w = v % 256 ^ w := by
  induction w generalizing o v with
  | zero => simp [le, Nat.mod_one]
  | succ w ih =>
    have h0 : (b.getByte o).toNat = v % 256 := by
      have := h 0 (Nat.succ_pos w)
      simp only [Nat.add_zero, pow_zero, Nat.div_one] at this
      rw [this]
      simp
    have hs : ∀ i, i < w → b.getByte (o + 1 + i) = UInt8.ofNat (v / 256 / 256 ^ i) := by
      intro i hi
      have := h (i + 1) (by omega)
      rw [show o + 1 + i = o + (i + 1) by omega, this, Nat.div_div_eq_div_mul,
        pow_succ, Nat.mul_comm]
    rw [le, h0, ih hs, pow_succ, Nat.mul_comm (256 ^ w) 256, Nat.mod_mul]

theorem le_putLe (b : Bytes n) (hn : o + w ≤ n) (hv : v < 256 ^ w) :
    (b.putLe o w v).le o w = v := by
  have h := le_of_digits (b := b.putLe o w v) (o := o) (w := w) (v := v)
    (fun i hi => getByte_putLe_inside b hi (by omega))
  rw [h, Nat.mod_eq_of_lt hv]

theorem le_putLe_disjoint (b : Bytes n) {w' : ℕ} (h : o' + w' ≤ o ∨ o + w ≤ o') :
    (b.putLe o w v).le o' w' = b.le o' w' :=
  le_congr fun i hi => getByte_putLe_outside b (by omega)

@[simp] theorem le_zero (o w : ℕ) : (zero n).le o w = 0 := by
  induction w generalizing o with
  | zero => rfl
  | succ w ih => simp [le, ih]

theorem le_of_ge (b : Bytes n) (w : ℕ) (h : n ≤ o) : b.le o w = 0 := by
  induction w generalizing o with
  | zero => rfl
  | succ w ih =>
    have hbyte : b.getByte o = 0 := by simp [getByte, Nat.not_lt.2 h]
    rw [le, hbyte, ih (by omega)]
    rfl

/-! ## Bits -/

/-- Bit `i`, counting from the low bit of byte zero. -/
def bit (b : Bytes n) (i : ℕ) : Bool :=
  (b.getByte (i / 8)).toBitVec.getLsbD (i % 8)

/-- `data[i/8] |= 1 << (i % 8)`. -/
def setBit (b : Bytes n) (i : ℕ) : Bytes n := fun j =>
  if j.val = i / 8 then b j ||| UInt8.ofBitVec (BitVec.twoPow 8 (i % 8)) else b j

/-- `data[i/8] &= ~(1 << (i % 8))`. -/
def clearBit (b : Bytes n) (i : ℕ) : Bytes n := fun j =>
  if j.val = i / 8 then b j &&& ~~~ UInt8.ofBitVec (BitVec.twoPow 8 (i % 8)) else b j

theorem bit_setBit (b : Bytes n) {j : ℕ} (hj : j / 8 < n) :
    (b.setBit i).bit j = (b.bit j || decide (i = j)) := by
  unfold bit getByte setBit
  rw [dif_pos hj, dif_pos hj]
  by_cases hbyte : j / 8 = i / 8
  · have hlt : i % 8 < 8 := Nat.mod_lt _ (by decide)
    have hiff : i % 8 = j % 8 ↔ i = j := by omega
    simp only [hbyte, if_true, UInt8.toBitVec_or, BitVec.getLsbD_or,
      BitVec.getLsbD_twoPow, hlt, hiff, decide_true, Bool.true_and]
  · have hne : i ≠ j := fun h => hbyte (by rw [h])
    simp [hbyte, hne]

theorem bit_clearBit (b : Bytes n) {j : ℕ} (hj : j / 8 < n) :
    (b.clearBit i).bit j = (b.bit j && !decide (i = j)) := by
  unfold bit getByte clearBit
  rw [dif_pos hj, dif_pos hj]
  by_cases hbyte : j / 8 = i / 8
  · have hlt : i % 8 < 8 := Nat.mod_lt _ (by decide)
    have hlt' : j % 8 < 8 := Nat.mod_lt _ (by decide)
    have hiff : i % 8 = j % 8 ↔ i = j := by omega
    simp only [hbyte, if_true, UInt8.toBitVec_and, UInt8.toBitVec_not,
      BitVec.getLsbD_and, BitVec.getLsbD_not, BitVec.getLsbD_twoPow, hlt, hlt',
      hiff, decide_true, Bool.true_and]
  · have hne : i ≠ j := fun h => hbyte (by rw [h])
    simp [hbyte, hne]

/-! ## Runs of bytes -/

def put (b : Bytes n) (o : ℕ) (src : List UInt8) : Bytes n := fun i =>
  if o ≤ i.val ∧ i.val < o + src.length then src.getD (i.val - o) 0 else b i

def slice (b : Bytes n) (o m : ℕ) : List UInt8 :=
  (List.range m).map fun i => b.getByte (o + i)

theorem getByte_put (b : Bytes n) (src : List UInt8) (hi : i < n) : (b.put o src).getByte i =
      if o ≤ i ∧ i < o + src.length then src.getD (i - o) 0 else b.getByte i := by
  simp [getByte, put, hi]

/-! ## Records -/

/-- Store consecutive little-endian fields, given as width and value, from offset
`o` on. -/
def putAll : Bytes n → ℕ → List (ℕ × ℕ) → Bytes n
  | b, _, [] => b
  | b, o, f :: fs => putAll (b.putLe o f.1 f.2) (o + f.1) fs

/-- The number of bytes a list of fields takes. -/
def width (fs : List (ℕ × ℕ)) : ℕ := (fs.map Prod.fst).sum

@[simp] theorem width_nil : width [] = 0 := rfl

@[simp] theorem width_cons (f : ℕ × ℕ) (fs : List (ℕ × ℕ)) : width (f :: fs) = f.1 + width fs := by
  simp [width]

theorem width_map (w : ℕ) {ι : Type} (f : ι → ℕ) (l : List ι) :
    width (l.map fun i => (w, f i)) = w * l.length := by
  induction l with
  | nil => rfl
  | cons i l ih => rw [List.map_cons, width_cons, ih, List.length_cons, Nat.mul_succ, Nat.add_comm]

variable (b : Bytes n) (fs : List (ℕ × ℕ))

theorem getByte_putAll_outside
    (hi : i < o ∨ o + width fs ≤ i) : (b.putAll o fs).getByte i = b.getByte i := by
  induction fs generalizing b o with
  | nil => rfl
  | cons f fs ih =>
    rw [width_cons] at hi
    rw [putAll, ih (b.putLe o f.1 f.2) (by omega), getByte_putLe_outside b (by omega)]

theorem le_putAll_outside
    (h : o' + w ≤ o ∨ o + width fs ≤ o') : (b.putAll o fs).le o' w = b.le o' w :=
  le_congr fun i hi => getByte_putAll_outside b fs (by omega)

theorem le_putAll {k : ℕ} (hk : fs[k]? = some (w, v)) (hn : o + width fs ≤ n) (hv : v < 256 ^ w) :
    (b.putAll o fs).le (o + width (fs.take k)) w = v := by
  induction fs generalizing b o k with
  | nil => simp at hk
  | cons f fs ih =>
    rw [width_cons] at hn
    cases k with
    | zero =>
      simp only [List.getElem?_cons_zero, Option.some.injEq] at hk
      subst hk
      rw [List.take_zero, width_nil, Nat.add_zero, putAll,
        le_putAll_outside _ fs (by simp), le_putLe b (by simp at hn; omega) hv]
    | succ k =>
      rw [List.getElem?_cons_succ] at hk
      rw [List.take_succ_cons, width_cons, putAll, ← Nat.add_assoc]
      exact ih _ hk (by omega)

end Bytes

end Qwin
