import Mathlib.Data.BitVec
import Mathlib.Logic.Function.Basic
import Mathlib.Tactic.Ring

/-!
# `memmove`

The kernel's `memmove` copies from the end when the destination lies behind the source and the
two overlap. The one of the C library always copies from the start, which is right unless they
overlap in that way. The loops are followed in address arithmetic modulo `2 ^ 32`, where only
the distance of the two pointers matters.
-/

namespace Qwin.Memmove

open Function (update update_of_ne update_self)

abbrev Memory := BitVec 32 → UInt8

/-- `while(n-- > 0) *d++ = *s++` -/
def forward (m : Memory) (d s : BitVec 32) : ℕ → Memory
  | 0 => m
  | n + 1 => forward (update m d (m s)) (d + 1) (s + 1) n

/-- `while(n-- > 0) *--d = *--s` -/
def backward (m : Memory) (d s : BitVec 32) : ℕ → Memory
  | 0 => m
  | n + 1 => backward (update m (d - 1) (m (s - 1))) (d - 1) (s - 1) n

def memmove (m : Memory) (dst src n : BitVec 32) : Memory :=
  if src < dst ∧ src + n > dst then backward m (dst + n) (src + n) n.toNat
  else forward m dst src n.toNat

/-- `memmove` of the C library, where `n` is an `int`. -/
def libcMemmove (m : Memory) (dst src n : BitVec 32) : Memory := forward m dst src n.toInt.toNat

/-- In `m'` the `n` bytes at `dst` are those that were at `src`, and nothing else changed. -/
def Moved (m m' : Memory) (dst src : BitVec 32) (n : ℕ) : Prop :=
  ∀ x, m' x = if dst ≤ x ∧ x.toNat < dst.toNat + n then m (src + (x - dst)) else m x

variable {m : Memory} {d s dst src : BitVec 32} {n : ℕ}

theorem toNat_sub_one {y : BitVec 32} (h : y ≠ 0) : (y - 1).toNat + 1 = y.toNat := by bv_omega

theorem toNat_neg_one : (0 - 1 : BitVec 32).toNat = 2 ^ 32 - 1 := rfl

/-- The distance that is left after a step. -/
theorem sub_one_lt_iff {y : BitVec 32} (h : y ≠ 0) : (y - 1).toNat < n ↔ y.toNat < n + 1 := by
  rw [← toNat_sub_one h, Nat.add_lt_add_iff_right]

theorem forward_apply (hn : n ≤ 2 ^ 32) (h : d - s = 0 ∨ n ≤ (d - s).toNat) (x : BitVec 32) :
    forward m d s n x = if (x - d).toNat < n then m (s + (x - d)) else m x := by
  induction n generalizing m d s with
  | zero => rfl
  | succ n ih =>
    have hdist : d + 1 - (s + 1) = d - s := add_sub_add_right_eq_sub d s 1
    have hsrc : s + 1 + (x - (d + 1)) = s + (x - d) := by ring
    rw [forward, ih (by omega) (by rw [hdist]; exact h.imp_right Nat.le_of_succ_le), hsrc,
      ← sub_sub]
    by_cases hx : x = d
    · subst hx
      rw [sub_self, toNat_neg_one, if_neg (by omega), if_pos (by simp), update_self, add_zero]
    · rw [update_of_ne hx]
      simp only [sub_one_lt_iff (sub_ne_zero.2 hx)]
      split
      · refine update_of_ne (fun he => ?_) _ _
        -- the byte that is read was not written before
        have hxd : x - d = d - s := eq_sub_of_add_eq' he
        rcases h with h | h
        · exact hx (sub_eq_zero.1 (hxd.trans h))
        · rw [← hxd] at h
          omega
      · rfl

theorem backward_apply (hn : n ≤ 2 ^ 32) (h : n ≤ (s - d).toNat) (x : BitVec 32) :
    backward m d s n x = if (d - 1 - x).toNat < n then m (s + (x - d)) else m x := by
  induction n generalizing m d s with
  | zero => rfl
  | succ n ih =>
    have hsrc : s - 1 + (x - (d - 1)) = s + (x - d) := by ring
    rw [backward, ih (by omega) (by rw [sub_sub_sub_cancel_right]; omega), hsrc,
      sub_right_comm (d - 1)]
    by_cases hx : d - 1 = x
    · subst hx
      rw [sub_self, toNat_neg_one, if_neg (by omega), if_pos (by simp), update_self]
      congr 1
      ring
    · rw [update_of_ne (Ne.symm hx)]
      simp only [sub_one_lt_iff (sub_ne_zero.2 hx)]
      split
      · refine update_of_ne (fun he => ?_) _ _
        have hxd : d - 1 - x = s - d := by
          rw [← he]
          ring
        rw [← hxd] at h
        omega
      · rfl

theorem sub_lt_iff {x : BitVec 32} (hdst : dst.toNat + n ≤ 2 ^ 32) :
    (x - dst).toNat < n ↔ dst ≤ x ∧ x.toNat < dst.toNat + n := by bv_omega

theorem sub_lt_iff' {x n : BitVec 32} (hdst : dst.toNat + n.toNat ≤ 2 ^ 32) :
    (dst + n - 1 - x).toNat < n.toNat ↔ dst ≤ x ∧ x.toNat < dst.toNat + n.toNat := by bv_omega

theorem moved_forward (hn : n ≤ 2 ^ 32) (hdst : dst.toNat + n ≤ 2 ^ 32)
    (h : dst - src = 0 ∨ n ≤ (dst - src).toNat) : Moved m (forward m dst src n) dst src n := by
  intro x
  rw [forward_apply hn h]
  simp only [sub_lt_iff hdst]

/-- Where the source starts behind the destination, or far enough before it. -/
theorem apart_of_not (hsrc : src.toNat + n ≤ 2 ^ 32)
    (h : ¬ (src.toNat < dst.toNat ∧ dst.toNat < src.toNat + n)) :
    dst - src = 0 ∨ n ≤ (dst - src).toNat := by
  bv_omega

theorem moved_memmove {n : BitVec 32} (hdst : dst.toNat + n.toNat ≤ 2 ^ 32)
    (hsrc : src.toNat + n.toNat ≤ 2 ^ 32) : Moved m (memmove m dst src n) dst src n.toNat := by
  unfold memmove
  split
  next h =>
    intro x
    have hx : src + n + (x - (dst + n)) = src + (x - dst) := by ring
    have hfar : n.toNat ≤ (src + n - (dst + n)).toNat := by
      rw [add_sub_add_right_eq_sub]
      have hlt := h.1
      clear h hx
      bv_omega
    rw [backward_apply n.isLt.le hfar, hx]
    simp only [sub_lt_iff' hdst]
  next h =>
    refine moved_forward n.isLt.le hdst (apart_of_not hsrc fun hover => h ?_)
    have hadd : (src + n).toNat = src.toNat + n.toNat := BitVec.toNat_add_of_lt (by omega)
    exact ⟨hover.1, show dst.toNat < (src + n).toNat by omega⟩

theorem forward_const (c : UInt8) : forward (fun _ => c) d s n = fun _ => c := by
  induction n generalizing d s with
  | zero => rfl
  | succ n ih => rw [forward, Function.update_eq_self, ih]

/-- The kernel's `memmove` is right for all ranges in memory, and the one of the C library for
those where the destination does not start inside the source behind its first byte. -/
theorem moves_iff {n : BitVec 32} (hdst : dst.toNat + n.toNat ≤ 2 ^ 32)
    (hsrc : src.toNat + n.toNat ≤ 2 ^ 32) :
    (∀ m, Moved m (memmove m dst src n) dst src n.toNat) ∧
    (n.toNat < 2 ^ 31 → ((∀ m, Moved m (libcMemmove m dst src n) dst src n.toNat) ↔
      ¬ (src.toNat < dst.toNat ∧ dst.toNat < src.toNat + n.toNat))) := by
  refine ⟨fun m => moved_memmove hdst hsrc, fun hn => ?_⟩
  have hint : n.toInt.toNat = n.toNat := by
    rw [BitVec.toInt_eq_toNat_of_lt (by omega), Int.toNat_natCast]
  unfold libcMemmove
  rw [hint]
  refine ⟨fun h hover => ?_, fun h m => moved_forward n.isLt.le hdst (apart_of_not hsrc h)⟩
  have hne : src ≠ dst := fun he => hover.1.ne (congrArg BitVec.toNat he)
  have hdist : (dst - src).toNat = dst.toNat - src.toNat := BitVec.toNat_sub_of_le hover.1.le
  have hsum : (dst + (dst - src)).toNat = dst.toNat + (dst - src).toNat :=
    BitVec.toNat_add_of_lt (by omega)
  obtain ⟨k, hk⟩ : ∃ k, n.toNat = k + 1 := Nat.exists_eq_succ_of_ne_zero (by omega)
  -- after the first step of the copy all bytes are equal
  have hm := h (update (fun _ => 1) dst 0) (dst + (dst - src))
  rw [hsum, if_pos ⟨show dst.toNat ≤ (dst + (dst - src)).toNat by omega, by omega⟩,
    add_sub_cancel_left, add_sub_cancel, update_self, hk, forward, update_of_ne hne,
    Function.update_idem, Function.update_eq_self, forward_const] at hm
  exact absurd hm (show (1 : UInt8) ≠ 0 by decide)

/-- Two bytes moved down by one. -/
theorem moves_iff_down : Moved (fun a => UInt8.ofNat a.toNat)
    (libcMemmove (fun a => UInt8.ofNat a.toNat) 4 5 2) 4 5 2 :=
  ((moves_iff (by decide) (by decide)).2 (by decide)).2 (by decide) _

/-- Two bytes moved up by one: the first byte is copied twice. -/
theorem libc_memmove_repeats : ¬ Moved (fun a => UInt8.ofNat a.toNat)
    (libcMemmove (fun a => UInt8.ofNat a.toNat) 5 4 2) 5 4 2 := by
  intro h
  exact absurd (h 6) (by decide)

end Qwin.Memmove
