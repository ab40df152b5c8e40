import Mathlib.Data.List.TakeWhile
import Mathlib.Tactic.Ring
import Qwin.Lib.Chars

/-!
# `atob`

`_getbase`, `_atob` and `atob` of `atob.c`, on the characters of a string before its NUL. Values
are kept in 64 bits, and `atob` stores 32 of them.

What a string denotes is a number without bounds: the digits behind the marks of the base, or two
groups of them with a dot in between.
-/

namespace Qwin.Atob

open List
open Chars (ch Str)

/-- `_getbase`: what is left of the string, and the base. -/
def getbase : Str → Str × ℕ
  | c :: d :: p =>
    if c = ch '0' then
      if d = ch 'x' then (p, 16)
      else if d = ch 't' ∨ d = ch 'n' then (p, 10)
      else if d = ch 'o' then (p, 8)
      else (c :: d :: p, 10)
    else (c :: d :: p, 10)
  | p => (p, 10)

/-- The string starts with `0x` or `0X`. -/
def hexMark : Str → Bool
  | c :: d :: _ => c = ch '0' ∧ (d = ch 'x' ∨ d = ch 'X')
  | _ => false

/-- `p` behind such a mark -/
def hexRest (p : Str) : Str := if hexMark p then p.drop 2 else p

def hexBase (p : Str) (base : ℕ) : ℕ := if hexMark p then 16 else base

/-- The value of a character as a digit of any base up to 16. -/
def digit (c : UInt8) : Option ℕ :=
  if ch '0' ≤ c ∧ c ≤ ch '9' then some (c.toNat - 48)
  else if ch 'a' ≤ c ∧ c ≤ ch 'f' then some (c.toNat - 97 + 10)
  else if ch 'A' ≤ c ∧ c ≤ ch 'F' then some (c.toNat - 65 + 10)
  else none

def digitLoop (base : ℕ) : ℕ → Str → Option ℕ
  | value, [] => some value
  | value, c :: p =>
    match digit c with
    | none => none
    | some d => if base ≤ d then none else digitLoop base ((value * base + d) % 2 ^ 64) p

/-- `tmp`: the characters before the first dot -/
def before (p : Str) : Str := p.takeWhile (· ≠ ch '.')

def behind (p : Str) : Str := (p.dropWhile (· ≠ ch '.')).tail

theorem length_before_lt {p : Str} (h : ch '.' ∈ p) :
    (before p).length + (behind p).length + 1 = p.length := by
  have hsplit := congrArg List.length (takeWhile_append_dropWhile (p := (· ≠ ch '.')) (l := p))
  have hpos : 0 < (p.dropWhile (· ≠ ch '.')).length := by
    rw [length_pos_iff, Ne, dropWhile_eq_nil_iff]
    intro hall
    simpa using hall _ h
  rw [length_append] at hsplit
  rw [before, behind, length_tail]
  omega

theorem length_hexRest_le (p : Str) : (hexRest p).length ≤ p.length := by
  unfold hexRest
  split
  · rw [length_drop]
    omega
  · exact le_rfl

def atob64 (p : Str) (base : ℕ) : Option ℕ :=
  if hexBase p base = 16 ∧ ch '.' ∈ hexRest p then
    if 19 < (before (hexRest p)).length then none
    else
      match atob64 (before (hexRest p)) 16 with
      | none => none
      | some v1 =>
        if ch '.' ∈ behind (hexRest p) then none
        else
          match atob64 (behind (hexRest p)) 16 with
          | none => none
          | some v2 => some ((v1 * 2 ^ 16 % 2 ^ 64 + v2) % 2 ^ 64)
  else digitLoop (hexBase p base) 0 (hexRest p)
termination_by p.length
decreasing_by
  all_goals
    have := length_before_lt (And.right ‹_›)
    have := length_hexRest_le p
    omega

/-- `atob`, with what `*vp` was: the result and what `*vp` is -/
def atob (vp : ℕ) (p : Str) (base : ℕ) : ℕ × ℕ :=
  let (p, base) := if base = 0 then getbase p else (p, base)
  match atob64 p base with
  | some v => (1, v % 2 ^ 32)
  | none => (0, vp)

/-! ## What a string denotes -/

inductive Numeral
  | plain (base : ℕ) (digits : Str)
  -- `hi.lo`, with the characters of `hi` counted with its mark
  | pair (length : ℕ) (hi lo : Str)

/-- The number of a group of digits, which starts with the digits of `value`. -/
def group (base value : ℕ) : Str → Option ℕ
  | [] => some value
  | c :: p =>
    match digit c with
    | none => none
    | some d => if base ≤ d then none else group base (value * base + d) p

namespace Numeral

/-- The number, where every character is a digit. -/
def value : Numeral → Option ℕ
  | plain base digits => group base 0 digits
  | pair _ hi lo =>
    match group 16 0 hi, group 16 0 lo with
    | some v1, some v2 => some (v1 * 2 ^ 16 + v2)
    | _, _ => none

def Proper : Numeral → Prop
  | plain _ digits => digits ≠ []
  | pair _ hi lo => hi ≠ [] ∧ lo ≠ []

/-- The first group of a pair has more characters than `tmp`. -/
def Long : Numeral → Prop
  | plain _ _ => False
  | pair length _ _ => 19 < length

instance : (x : Numeral) → Decidable x.Proper
  | plain _ digits => inferInstanceAs (Decidable (digits ≠ []))
  | pair _ hi lo => inferInstanceAs (Decidable (hi ≠ [] ∧ lo ≠ []))

instance : (x : Numeral) → Decidable x.Long
  | plain _ _ => inferInstanceAs (Decidable False)
  | pair length _ _ => inferInstanceAs (Decidable (19 < length))

end Numeral

def numeral64 (p : Str) (base : ℕ) : Numeral :=
  if hexBase p base = 16 ∧ ch '.' ∈ hexRest p then
    .pair (before (hexRest p)).length (hexRest (before (hexRest p))) (hexRest (behind (hexRest p)))
  else .plain (hexBase p base) (hexRest p)

def numeral (p : Str) (base : ℕ) : Numeral :=
  if base = 0 then numeral64 (getbase p).1 (getbase p).2 else numeral64 p base

def denotes (p : Str) (base : ℕ) : Option ℕ :=
  if (numeral p base).Proper then (numeral p base).value else none

/-- `atob` stores the number if it has 32 bits, and fails otherwise. -/
def Parses (p : Str) (base : ℕ) : Prop :=
  ∀ vp, atob vp p base =
    match denotes p base with
    | some v => if v < 2 ^ 32 then (1, v) else (0, vp)
    | none => (0, vp)

/-! ## What `_atob` computes -/

theorem digitLoop_eq (base v : ℕ) (p : Str) :
    digitLoop base (v % 2 ^ 64) p = (group base v p).map (· % 2 ^ 64) := by
  induction p generalizing v with
  | nil => rfl
  | cons c p ih =>
    rw [digitLoop, group]
    cases digit c with
    | none => rfl
    | some d =>
      dsimp only
      split
      · rfl
      · rw [← ih, Nat.add_mod, Nat.mul_mod, Nat.mod_mod, ← Nat.mul_mod, ← Nat.add_mod]

theorem digitLoop_zero (base : ℕ) (p : Str) :
    digitLoop base 0 p = (group base 0 p).map (· % 2 ^ 64) := digitLoop_eq base 0 p

theorem group_eq_none_of_dot {p : Str} (h : ch '.' ∈ p) (base v : ℕ) : group base v p = none := by
  induction p generalizing v with
  | nil => exact absurd h not_mem_nil
  | cons c p ih =>
    rw [group]
    rcases mem_cons.1 h with rfl | hp
    · rfl
    · cases digit c with
      | none => rfl
      | some d =>
        dsimp only
        split
        · rfl
        · exact ih hp _

theorem dot_notMem_before (p : Str) : ch '.' ∉ before p := by
  intro h
  simpa using mem_takeWhile_imp h

theorem mem_of_mem_hexRest {c : UInt8} {p : Str} (h : c ∈ hexRest p) : c ∈ p := by
  unfold hexRest at h
  split at h
  · exact mem_of_mem_drop h
  · exact h

theorem atob64_of_notMem {p : Str} (h : ch '.' ∉ p) (base : ℕ) :
    atob64 p base = (group (hexBase p base) 0 (hexRest p)).map (· % 2 ^ 64) := by
  rw [atob64, if_neg (fun hc => h (mem_of_mem_hexRest hc.2)), digitLoop_zero]

theorem hexBase_self (p : Str) : hexBase p 16 = 16 := ite_self 16

theorem dot_mem_hexRest {p : Str} (h : ch '.' ∈ p) : ch '.' ∈ hexRest p := by
  unfold hexRest
  split
  next hmark =>
    match p, hmark, h with
    | c :: d :: p, hmark, h =>
      obtain ⟨rfl, hd⟩ := of_decide_eq_true hmark
      rcases mem_cons.1 h with hc | h
      · exact absurd hc (by decide)
      · rcases mem_cons.1 h with rfl | h
        · exact absurd hd (by decide)
        · exact h
  · exact h

theorem shift_add_mod (v1 v2 : ℕ) :
    (v1 % 2 ^ 64 * 2 ^ 16 % 2 ^ 64 + v2 % 2 ^ 64) % 2 ^ 64 = (v1 * 2 ^ 16 + v2) % 2 ^ 64 := by
  omega

/-- `_atob` reads the number modulo `2 ^ 64`, unless `tmp` is too short. -/
theorem atob64_eq (p : Str) (base : ℕ) : atob64 p base =
    if (numeral64 p base).Long then none else (numeral64 p base).value.map (· % 2 ^ 64) := by
  by_cases hc : hexBase p base = 16 ∧ ch '.' ∈ hexRest p
  · rw [atob64, if_pos hc, numeral64, if_pos hc]
    by_cases hlong : 19 < (before (hexRest p)).length
    · rw [if_pos hlong, if_pos (show Numeral.Long (.pair _ _ _) from hlong)]
    rw [if_neg hlong, if_neg (show ¬ Numeral.Long (.pair _ _ _) from hlong),
      atob64_of_notMem (dot_notMem_before _), hexBase_self, Numeral.value]
    cases group 16 0 (hexRest (before (hexRest p))) with
    | none => rfl
    | some v1 =>
      dsimp only [Option.map_some]
      by_cases hdot : ch '.' ∈ behind (hexRest p)
      · rw [if_pos hdot, group_eq_none_of_dot (dot_mem_hexRest hdot)]
        rfl
      · rw [if_neg hdot, atob64_of_notMem hdot, hexBase_self]
        cases group 16 0 (hexRest (behind (hexRest p))) with
        | none => rfl
        | some v2 => exact congrArg some (shift_add_mod v1 v2)
  · rw [atob64, if_neg hc, numeral64, if_neg hc, digitLoop_zero]
    rfl

theorem atob_eq (vp : ℕ) (p : Str) (base : ℕ) : atob vp p base =
    if (numeral p base).Long then (0, vp)
    else match (numeral p base).value with
      | some v => (1, v % 2 ^ 32)
      | none => (0, vp) := by
  have hmain : ∀ p base, (match atob64 p base with
      | some v => (1, v % 2 ^ 32)
      | none => (0, vp)) = if (numeral64 p base).Long then (0, vp)
        else match (numeral64 p base).value with
          | some v => (1, v % 2 ^ 32)
          | none => (0, vp) := by
    intro p base
    rw [atob64_eq]
    by_cases hlong : (numeral64 p base).Long
    · rw [if_pos hlong, if_pos hlong]
    · rw [if_neg hlong, if_neg hlong]
      cases (numeral64 p base).value with
      | none => rfl
      | some v => exact congrArg (Prod.mk 1) (Nat.mod_mod_of_dvd v (by decide))
  unfold atob numeral
  by_cases h0 : base = 0
  · rw [if_pos h0, if_pos h0]
    exact hmain _ _
  · rw [if_neg h0, if_neg h0]
    exact hmain _ _

/-- A string is parsed exactly if and only if it does not consist of digits, or its groups are
not empty, it denotes a number of 32 bits and `tmp` has room, or none of both. -/
theorem parses_iff (p : Str) (base : ℕ) : Parses p base ↔
    ∀ v, (numeral p base).value = some v →
      ((numeral p base).Proper ∧ v < 2 ^ 32 ↔ ¬ (numeral p base).Long) := by
  unfold Parses
  simp only [atob_eq, denotes]
  cases hv : (numeral p base).value with
  | none =>
    refine iff_of_true (fun vp => ?_) fun v h => nomatch h
    rw [ite_self, ite_self]
  | some v =>
    simp only [Option.some.injEq, forall_eq']
    by_cases hgood : (numeral p base).Proper ∧ v < 2 ^ 32
    · simp only [if_pos hgood.1, if_pos hgood.2]
      by_cases hlong : (numeral p base).Long
      · refine iff_of_false (fun h => ?_) fun h => h.1 hgood hlong
        have := h 0
        rw [if_pos hlong] at this
        exact zero_ne_one (Prod.ext_iff.1 this).1
      · refine iff_of_true (fun vp => ?_) (iff_of_true hgood hlong)
        rw [if_neg hlong, Nat.mod_eq_of_lt hgood.2]
    · have hspec : ∀ vp, (match if (numeral p base).Proper then some v else none with
          | some v => if v < 2 ^ 32 then (1, v) else (0, vp)
          | none => (0, vp)) = (0, vp) := by
        intro vp
        by_cases hproper : (numeral p base).Proper
        · rw [if_pos hproper]
          exact if_neg fun hlt => hgood ⟨hproper, hlt⟩
        · rw [if_neg hproper]
      simp only [hspec]
      by_cases hlong : (numeral p base).Long
      · refine iff_of_true (fun vp => if_pos hlong) (iff_of_false hgood (not_not.2 hlong))
      · refine iff_of_false (fun h => ?_) fun h => hgood (h.2 hlong)
        have := h 0
        rw [if_neg hlong] at this
        exact one_ne_zero (Prod.ext_iff.1 this).1

/-- `2 ^ 32` in base 10, which `atob` takes for zero. -/
theorem atob_wraps : denotes ("4294967296".toList.map ch) 10 = some (2 ^ 32) ∧
    atob 7 ("4294967296".toList.map ch) 10 = (1, 0) := by
  refine ⟨by decide +kernel, ?_⟩
  rw [atob_eq]
  decide +kernel

end Qwin.Atob
