import Qwin.Fs.Ownership
import Qwin.Fs.Steps

/-!
# The block allocator

`balloc` hands out the first block whose bit is clear, sets the bit and zeroes the
block; `bfree` clears the bit of a block whose bit is set. Both only need that the
caller holds no buffer below the data area and none of a free block.
-/

namespace Qwin.Fs

open Prog List

/-- The buffers held belong to allocated blocks of the data area. -/
def HeldInData (sb : Superblock) (st : BState) : Prop :=
  ∀ s ∈ st.held, sb.dataStart ≤ s ∧ blockBit sb st.disk s = true

def BState.alloc (st : BState) (sb : Superblock) (r : ℕ) : BState :=
  (st.write (bblock r sb.ninodes) ((st.disk (bblock r sb.ninodes)).setBit (r % BPB))).write r
    (Bytes.zero 512)

def BState.free (st : BState) (sb : Superblock) (b : ℕ) : BState :=
  st.write (bblock b sb.ninodes) ((st.disk (bblock b sb.ninodes)).clearBit (b % BPB))

@[simp] theorem free_disk (st : BState) (sb : Superblock) (b : ℕ) :
    (st.free sb b).disk = unmarkBlock sb st.disk b := rfl

variable {p : ℕ} {E : End BState → Prop} {st : BState} {F : Finset ℕ} {sb : Superblock}

theorem HeldInData.one_notMem (h : HeldInData sb st) : 1 ∉ st.held := by
  intro hs
  exact absurd (h 1 hs).1 (Nat.not_le.2 one_lt_dataStart)

variable {b : ℕ}

theorem HeldInData.bblock_notMem (h : HeldInData sb st) (hb : b < sb.size) :
    bblock b sb.ninodes ∉ st.held := by
  intro hs
  exact absurd (h _ hs).1 (Nat.not_le.2 (bblock_lt_dataStart hb))

theorem HeldInData.notMem (h : HeldInData sb st) (hb : blockBit sb st.disk b = false) :
    b ∉ st.held := by
  intro hs
  rw [(h b hs).2] at hb
  cases hb

theorem runs_readsb {Q : Superblock → BState → Prop} (h1 : 1 ∉ st.held) (hR : Ready E st F)
    (h : Q (Superblock.get (st.disk 1)) st) : Runs p E Q readsb st := by
  unfold readsb
  rw [Runs, wp_bind]
  refine runs_bread h1 hR ?_
  rw [wp_bind]
  refine runs_brelse ?_
  rw [erase_cons_head]
  exact wp_pure h

variable {Q : Unit → BState → Prop}

theorem runs_bzero (hb : b ∉ st.held) (hR : Ready E st F)
    (hF : May E F b) (h : Q () (st.write b (Bytes.zero 512))) : Runs p E Q (bzero b) st := by
  unfold bzero
  rw [Runs, wp_bind]
  refine runs_bread hb hR ?_
  rw [wp_bind]
  refine runs_logWrite (hR.hold hF).canLog (runs_brelse ?_)
  rw [BState.write, erase_cons_head]
  exact h

/-! ## `balloc` -/

variable {n : ℕ}

theorem bblock_add {bi : ℕ} (hb : b % BPB = 0) (hbi : bi < BPB) :
    bblock (b + bi) n = bblock b n ∧ (b + bi) % BPB = bi := by
  unfold BPB at hb hbi
  unfold bblock BPB
  constructor <;> omega

variable {d : ℕ → Block}

theorem freeBit_eq_some {bi : ℕ} (hb : b % BPB = 0) (hn : n ≤ BPB)
    (h : freeBit (d (bblock b sb.ninodes)) n = some bi) :
    bi < n ∧ blockBit sb d (b + bi) = false ∧ ∀ c, b ≤ c → c < b + bi → blockBit sb d c = true := by
  unfold freeBit at h
  rw [List.find?_range_eq_some] at h
  obtain ⟨hbit, hmem, hmin⟩ := h
  have hlt := mem_range.1 hmem
  obtain ⟨h1, h2⟩ := bblock_add (n := sb.ninodes) hb (lt_of_lt_of_le hlt hn)
  refine ⟨hlt, ?_, fun c hbc hc => ?_⟩
  · rw [blockBit, h1, h2]
    simpa using hbit
  · obtain ⟨ci, rfl⟩ : ∃ ci, c = b + ci := ⟨c - b, by omega⟩
    have hci : ci < bi := by omega
    obtain ⟨h1, h2⟩ := bblock_add (n := sb.ninodes) hb (by omega : ci < BPB)
    rw [blockBit, h1, h2]
    simpa using hmin ci hci

theorem freeBit_eq_none (hb : b % BPB = 0) (hn : n ≤ BPB)
    (h : freeBit (d (bblock b sb.ninodes)) n = none) :
    ∀ c, b ≤ c → c < b + n → blockBit sb d c = true := by
  intro c hbc hc
  obtain ⟨ci, rfl⟩ : ∃ ci, c = b + ci := ⟨c - b, by omega⟩
  have hci : ci < n := by omega
  obtain ⟨h1, h2⟩ := bblock_add (n := sb.ninodes) hb (by omega : ci < BPB)
  have hall := List.find?_eq_none.1 h ci (mem_range.2 hci)
  rw [blockBit, h1, h2]
  simpa using hall

variable {r : ℕ}

theorem firstFree_of_least (hr : r < sb.size)
    (hbit : blockBit sb d r = false) (hmin : ∀ c, c < r → blockBit sb d c = true) :
    firstFree sb d = some r := by
  unfold firstFree
  rw [List.find?_range_eq_some]
  refine ⟨by simp [hbit], mem_range.2 hr, fun c hc => ?_⟩
  simp [hmin c hc]

theorem runs_ballocLoop {Q : ℕ → BState → Prop} (hheld : HeldInData sb st) (hR : Ready E st F)
    (hF : ∀ r, firstFree sb st.disk = some r → May E F (bblock r sb.ninodes) ∧ May E F r)
    (hnone : firstFree sb st.disk = none → E (.stop (.panic .ballocOutOfBlocks)))
    (h : ∀ r, firstFree sb st.disk = some r → Q r (st.alloc sb r)) (n b : ℕ)
    (hb : b % BPB = 0) (hfuel : sb.size ≤ b + n * BPB)
    (hset : ∀ c, c < b → c < sb.size → blockBit sb st.disk c = true) :
    Runs p E Q (ballocLoop sb n b) st := by
  -- past the end of the disk every bit has been seen to be set
  have hend : ∀ b, sb.size ≤ b → (∀ c, c < b → c < sb.size → blockBit sb st.disk c = true) →
      E (.stop (.panic .ballocOutOfBlocks)) := by
    intro b hle hset
    apply hnone
    rw [firstFree, List.find?_eq_none]
    intro c hc
    have hcs := mem_range.1 hc
    simp [hset c (lt_of_lt_of_le hcs hle) hcs]
  induction n generalizing b with
  | zero =>
    rw [ballocLoop]
    exact runs_panic (hend b (by omega) hset)
  | succ n ih =>
    rw [ballocLoop]
    by_cases hlt : b < sb.size
    · rw [if_pos hlt, Runs, wp_bind]
      refine runs_bread (hheld.bblock_notMem hlt) hR ?_
      have hle : min BPB (sb.size - b) ≤ BPB := Nat.min_le_left _ _
      cases hfree : freeBit (st.disk (bblock b sb.ninodes)) (min BPB (sb.size - b)) with
      | some bi =>
        obtain ⟨hbi, hclear, hbelow⟩ := freeBit_eq_some hb hle hfree
        have hr : firstFree sb st.disk = some (b + bi) := by
          refine firstFree_of_least (by omega) hclear fun c hc => ?_
          rcases Nat.lt_or_ge c b with hcb | hcb
          · exact hset c hcb (by omega)
          · exact hbelow c hcb hc
        obtain ⟨hF1, hF2⟩ := hF _ hr
        obtain ⟨h1, h2⟩ := bblock_add (n := sb.ninodes) hb (lt_of_lt_of_le hbi hle)
        rw [h1] at hF1
        dsimp only
        rw [wp_bind]
        refine runs_logWrite (hR.hold hF1).canLog ?_
        rw [wp_bind]
        refine runs_brelse ?_
        rw [BState.write, erase_cons_head, wp_bind]
        have hout : b + bi ∉ st.held := hheld.notMem hclear
        refine runs_bzero ?_ (hR.write hF1 _) hF2 (wp_pure ?_)
        · exact hout
        have hQ := h _ hr
        rw [BState.alloc, h1, h2] at hQ
        exact hQ
      | none =>
        have hall := freeBit_eq_none hb hle hfree
        dsimp only
        rw [wp_bind]
        refine runs_brelse ?_
        rw [erase_cons_head]
        refine ih (b + BPB) ?_ ?_ ?_
        · rw [Nat.add_mod_right, hb]
        · rw [Nat.succ_mul] at hfuel
          omega
        · intro c hc hcs
          rcases Nat.lt_or_ge c b with hcb | hcb
          · exact hset c hcb hcs
          · exact hall c hcb (by omega)
    · rw [if_neg hlt]
      exact runs_panic (hend b (by omega) hset)

/-- The first free block lies in the data area if everything else is reserved. -/
theorem dataStart_le_firstFree
    (hfront : ∀ b, b < sb.dataStart → b < sb.size → blockBit sb d b = true)
    (hr : firstFree sb d = some r) : sb.dataStart ≤ r := by
  obtain ⟨hsize, hbit, -⟩ := firstFree_eq_some hr
  by_contra hlt
  rw [hfront r (Nat.not_le.1 hlt) hsize] at hbit
  cases hbit

theorem firstFree_inData (hfront : ∀ b, b < sb.dataStart → b < sb.size → blockBit sb d b = true)
    (hlog : LogReserved sb d) (hr : firstFree sb d = some r) : sb.InData r := by
  obtain ⟨hsize, hbit, -⟩ := firstFree_eq_some hr
  refine ⟨dataStart_le_firstFree hfront hr, ?_⟩
  by_contra hge
  rw [hlog r (Nat.not_lt.1 hge) hsize] at hbit
  cases hbit

/-- `balloc` hands out the first free block, which lies in the data area. -/
theorem runs_balloc {Q : ℕ → BState → Prop} (hsb : Superblock.get (st.disk 1) = sb)
    (hheld : HeldInData sb st) (hR : Ready E st F)
    (hfront : ∀ b, b < sb.dataStart → b < sb.size → blockBit sb st.disk b = true)
    (hlog : E .assumed ∨ LogReserved sb st.disk)
    (hF : ∀ r, firstFree sb st.disk = some r → May E F (bblock r sb.ninodes) ∧ May E F r)
    (hnone : firstFree sb st.disk = none → E (.stop (.panic .ballocOutOfBlocks)))
    (h : ∀ r, firstFree sb st.disk = some r → sb.InData r → Q r (st.alloc sb r)) :
    Runs p E Q balloc st := by
  unfold balloc
  have hI : FrontReserved Unit (.right .callBalloc) st := by
    change ∀ b, _ → _ → _
    rw [hsb]
    exact hfront
  rw [Runs, wp_bind, wp_perform]
  refine ⟨hI, ?_⟩
  by_cases hbelow : ballocBelowLog st = true
  swap
  · have hx : ((blockSem p).assume belowLog .assumed).exec (.right .callBalloc) st =
        .error .assumed := if_neg hbelow
    rw [hx]
    rcases hlog with hE | hlog
    · exact hE
    · refine absurd ?_ hbelow
      rw [ballocBelowLog, hsb]
      cases hr : firstFree sb st.disk with
      | none => rfl
      | some r => exact decide_eq_true (firstFree_inData hfront hlog hr).2
  rw [Sem.assume_exec hbelow]
  change Runs p E Q _ st
  rw [Runs, wp_bind]
  refine runs_readsb hheld.one_notMem hR ?_
  rw [hsb]
  have h' : ∀ r, firstFree sb st.disk = some r → Q r (st.alloc sb r) := by
    intro r hr
    rw [ballocBelowLog, hsb, hr] at hbelow
    exact h r hr ⟨dataStart_le_firstFree hfront hr, of_decide_eq_true hbelow⟩
  refine runs_ballocLoop hheld hR hF hnone h' _ 0 (Nat.zero_mod _) ?_ ?_
  · have hdiv := Nat.div_add_mod sb.size BPB
    have hmod : sb.size % BPB < BPB := Nat.mod_lt _ (by decide)
    rw [Nat.succ_mul, Nat.mul_comm]
    omega
  · intro c hc
    exact absurd hc (Nat.not_lt_zero c)

/-! ## `bfree` -/

/-- `bfree` clears the bit of a block whose bit is set. -/
theorem runs_bfree
    (hsb : Superblock.get (st.disk 1) = sb) (hheld : HeldInData sb st) (hb : b < sb.size)
    (hbit : blockBit sb st.disk b = true) (hR : Ready E st F) (hF : May E F (bblock b sb.ninodes))
    (h : Q () (st.free sb b)) : Runs p E Q (bfree b) st := by
  unfold bfree
  rw [Runs, wp_bind]
  refine runs_readsb hheld.one_notMem hR ?_
  rw [hsb, wp_bind]
  refine runs_bread (hheld.bblock_notMem hb) hR ?_
  unfold blockBit at hbit
  rw [if_pos hbit, wp_bind]
  refine runs_logWrite (hR.hold hF).canLog (runs_brelse ?_)
  rw [BState.write, erase_cons_head]
  exact h

/-! ## What is free -/

theorem LogReserved.alloc (h : LogReserved sb d) (hr : sb.InData r) :
    LogReserved sb (allocDisk sb d r) := by
  intro b hb hbs
  have hne : b ≠ r := Nat.ne_of_gt (lt_of_lt_of_le hr.2 hb)
  rw [InOrder.blockBit_alloc hr hbs, Function.update_of_ne hne]
  exact h b hb hbs

theorem LogReserved.update {s : ℕ} (h : LogReserved sb d) (v : Block)
    (hs : ∀ b, b < sb.size → bblock b sb.ninodes ≠ s) : LogReserved sb (Function.update d s v) := by
  intro b hb hbs
  rw [blockBit_update_of_ne v (hs b hbs)]
  exact h b hb hbs

/-- The blocks whose bit is clear. -/
def freeBlocks (sb : Superblock) (d : ℕ → Block) : List ℕ :=
  (List.range sb.size).filter fun b => !blockBit sb d b

theorem firstFree_eq_head? : firstFree sb d = (freeBlocks sb d).head? := head?_filter.symm

theorem freeBlocks_alloc (hr : sb.InData r) (h : firstFree sb d = some r) :
    freeBlocks sb d = r :: freeBlocks sb (allocDisk sb d r) := by
  rw [firstFree_eq_head?, head?_eq_some_iff] at h
  obtain ⟨l, hl⟩ := h
  have hnodup : (freeBlocks sb d).Nodup := nodup_range.filter _
  rw [hl, nodup_cons] at hnodup
  have hrest : freeBlocks sb (allocDisk sb d r) = (freeBlocks sb d).filter (· ≠ r) := by
    unfold freeBlocks
    rw [filter_filter]
    refine filter_congr fun b hb => ?_
    rw [InOrder.blockBit_alloc hr (mem_range.1 hb)]
    by_cases hbr : b = r
    · simp [hbr]
    · simp [hbr]
  rw [hrest, hl, filter_cons_of_neg (by simp), filter_eq_self.2]
  intro b hb
  exact decide_eq_true (ne_of_mem_of_not_mem hb hnodup.1)

theorem freeBlocks_update {s : ℕ} (hs : sb.dataStart ≤ s) (v : Block) :
    freeBlocks sb (Function.update d s v) = freeBlocks sb d := by
  refine filter_congr fun b hb => ?_
  have hne : bblock b sb.ninodes ≠ s :=
    Nat.ne_of_lt (lt_of_lt_of_le (bblock_lt_dataStart (mem_range.1 hb)) hs)
  rw [blockBit_update_of_ne v hne]

end Qwin.Fs
