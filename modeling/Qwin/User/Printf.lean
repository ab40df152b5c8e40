import Mathlib.Data.List.Forall2
import Mathlib.Data.Nat.Digits.Lemmas
import Qwin.Lib.Chars

/-!
# `printf` and `cprintf`

The formatters of the library, `printf` and `fprintf` of `printf.c`, and of the kernel, `cprintf`
of `tty.c`. A format is the list of its characters before the NUL. The arguments are the words
on the stack behind the format, and `str` gives the string that a pointer points to.

The digits of a number go to an array of 16 characters, from the last one on.
-/

namespace Qwin.Printf

open List
open Chars (ch)

abbrev Word := BitVec 32

def null : List UInt8 := "(null)".toList.map Char.toUInt8

/-- The loop `do buf[i++] = digits[x % base]; while((x /= base) != 0)`. -/
def digitLoop (digits : List UInt8) (base x : ℕ) : List UInt8 :=
  digits.getD (x % base) 0 ::
    if x / base ≠ 0 ∧ 1 < base then digitLoop digits base (x / base) else []
termination_by x
decreasing_by
  rename_i h
  exact Nat.div_lt_self (Nat.pos_of_ne_zero fun hx => h.1 (by rw [hx, Nat.zero_div])) h.2

def digitBuf (digits : List UInt8) (xx : ℤ) (base : ℕ) (sgn : Bool) : List UInt8 :=
  if sgn = true ∧ xx < 0 then digitLoop digits base ((-xx) % 2 ^ 32).toNat ++ [ch '-']
  else digitLoop digits base (xx % 2 ^ 32).toNat

/-! ## The library -/

def upper : List UInt8 := "0123456789ABCDEF".toList.map Char.toUInt8

/-- `printint` of `printf.c`: the argument is an `int`. -/
def printint (xx : Word) (base : ℕ) (sgn : Bool) : List UInt8 :=
  (digitBuf upper xx.toInt base sgn).reverse

/-- `printint64`: an `uint` becomes an `int64_t`. -/
def printint64 (xx : Word) (base : ℕ) (sgn : Bool) : List UInt8 :=
  (digitBuf upper xx.toNat base sgn).reverse

section Format

variable (str : Word → List UInt8) (ap : ℕ → Word)

/-- `s`, or `(null)` -/
def string (w : Word) : List UInt8 := if w = 0 then null else str w

/-- The branch `state == '%'` for the character `c`: what is printed, and the number of
arguments that it takes. -/
def convert (c : UInt8) (w : Word) : List UInt8 × ℕ :=
  if c = ch 'd' then (printint64 w 10 true, 1)
  else if c = ch 'x' ∨ c = ch 'p' then (printint w 16 false, 1)
  else if c = ch 's' then (string str w, 1)
  else if c = ch 'c' then ([UInt8.ofNat w.toNat], 1)
  else if c = ch '%' then ([c], 0)
  else ([ch '%', c], 0)

/-- The loop of `printf`. The state is 0 or `%`, and `k` arguments have been taken. -/
def formatLoop : Bool → List UInt8 → ℕ → List UInt8
  | _, [], _ => []
  | false, c :: fmt, k =>
    if c = ch '%' then formatLoop true fmt k else c :: formatLoop false fmt k
  | true, c :: fmt, k =>
    (convert str c (ap k)).1 ++ formatLoop false fmt (k + (convert str c (ap k)).2)

/-- `printf`, with the descriptor of `stdout`: what is written where -/
def printf (stdout : ℕ) (fmt : List UInt8) : List (ℕ × UInt8) :=
  (formatLoop str ap false fmt 0).map (stdout, ·)

def fprintf (fd : ℕ) (fmt : List UInt8) : List (ℕ × UInt8) :=
  (formatLoop str ap false fmt 0).map (fd, ·)

/-! ## The kernel -/

/-- `digits` of `tty.c` -/
def lower : List UInt8 := "0123456789abcdef".toList.map Char.toUInt8

def Kernel.printint (xx : Word) (base : ℕ) (sign : Bool) : List UInt8 :=
  (digitBuf lower xx.toInt base sign).reverse

/-- The `switch` of `cprintf`. -/
def Kernel.convert (c : UInt8) (w : Word) : List UInt8 × ℕ :=
  if c = ch 'd' then (Kernel.printint w 10 true, 1)
  else if c = ch 'x' ∨ c = ch 'p' then (Kernel.printint w 16 false, 1)
  else if c = ch 's' then (string str w, 1)
  else if c = ch '%' then ([ch '%'], 0)
  else ([ch '%', c], 0)

/-- `cprintf` looks at the character behind a `%`. -/
def cprintf : List UInt8 → ℕ → List UInt8
  | [], _ => []
  | [c], _ => if c ≠ ch '%' then [c] else []
  | c :: d :: fmt, k =>
    if c ≠ ch '%' then c :: cprintf (d :: fmt) k
    else (Kernel.convert str d (ap k)).1 ++ cprintf fmt (k + (Kernel.convert str d (ap k)).2)

end Format

/-! ## Where they agree -/

/-- The characters are the same up to the case of a hexadecimal digit. -/
def Same (u k : UInt8) : Prop := u = k ∨ ch 'A' ≤ u ∧ u ≤ ch 'F' ∧ k = u + 32

/-- The conversions of a format, with the numbers of their arguments. -/
def conversions (takes : UInt8 → ℕ) : List UInt8 → ℕ → List (UInt8 × ℕ)
  | c :: d :: fmt, k =>
    if c ≠ ch '%' then conversions takes (d :: fmt) k
    else (d, k) :: conversions takes fmt (k + takes d)
  | _, _ => []

/-- The number of arguments that a conversion takes, but for `%c`. -/
def takes (c : UInt8) : ℕ := if c = ch 'd' ∨ c = ch 'x' ∨ c = ch 'p' ∨ c = ch 's' then 1 else 0

def decimal (z : ℤ) : List UInt8 :=
  (if z < 0 then [ch '-'] else []) ++
    (if z = 0 then [0] else (Nat.digits 10 z.natAbs).reverse).map fun d => lower.getD d 0

theorem digitLoop_eq (digits : List UInt8) {base : ℕ} (hb : 1 < base) (x : ℕ) :
    digitLoop digits base x =
      (if x = 0 then [0] else Nat.digits base x).map fun d => digits.getD d 0 := by
  induction x using Nat.strong_induction_on with
  | _ x ih =>
    rw [digitLoop]
    by_cases hx : x = 0
    · rw [hx]
      simp
    by_cases hdiv : x / base = 0
    · have hlt : x < base := (Nat.div_eq_zero_iff_lt (by omega)).1 hdiv
      rw [if_neg (fun h => h.1 hdiv), if_neg hx, Nat.digits_of_lt base x hx hlt,
        Nat.mod_eq_of_lt hlt]
      rfl
    · rw [if_pos ⟨hdiv, hb⟩, ih _ (Nat.div_lt_self (by omega) hb), if_neg hdiv, if_neg hx,
        Nat.digits_eq_cons_digits_div hb hx]
      rfl

theorem length_digitLoop (digits : List UInt8) {base x : ℕ} (hb : 10 ≤ base) (hx : x < 2 ^ 32) :
    (digitLoop digits base x).length ≤ 10 := by
  rw [digitLoop_eq digits (by omega), length_map]
  split
  · decide
  next h0 =>
    rw [Nat.digits_length_le_iff (by omega)]
    exact lt_of_lt_of_le (lt_of_lt_of_le hx (by decide : 2 ^ 32 ≤ 10 ^ 10)) (Nat.pow_le_pow_left hb 10)

theorem length_digitBuf (digits : List UInt8) (xx : ℤ) {base : ℕ} (hb : 10 ≤ base) (sgn : Bool) :
    (digitBuf digits xx base sgn).length ≤ 16 := by
  unfold digitBuf
  split
  · have hlt : ((-xx) % 2 ^ 32).toNat < 2 ^ 32 := by omega
    have := length_digitLoop digits hb hlt
    rw [length_append, length_singleton]
    omega
  · have hlt : (xx % 2 ^ 32).toNat < 2 ^ 32 := by omega
    have := length_digitLoop digits hb hlt
    omega

theorem kernel_prints_decimal (w : Word) : Kernel.printint w 10 true = decimal w.toInt := by
  have hlow := BitVec.le_two_mul_toInt (x := w)
  have hhigh := BitVec.two_mul_toInt_lt (x := w)
  unfold Kernel.printint digitBuf decimal
  by_cases hneg : w.toInt < 0
  · have habs : ((-w.toInt) % 2 ^ 32).toNat = w.toInt.natAbs := by omega
    rw [if_pos ⟨rfl, hneg⟩, if_pos hneg, habs, digitLoop_eq _ (by decide), if_neg (by omega),
      if_neg (by omega), reverse_append, map_reverse]
    rfl
  · have habs : (w.toInt % 2 ^ 32).toNat = w.toInt.natAbs := by omega
    rw [if_neg (fun h => hneg h.2), if_neg hneg, habs, digitLoop_eq _ (by decide), nil_append,
      ← map_reverse]
    by_cases h0 : w.toInt = 0
    · rw [if_pos (by omega), if_pos h0]
      rfl
    · rw [if_neg (by omega), if_neg h0]

/-! ## One conversion -/

abbrev SameText (u k : List UInt8) : Prop := List.Forall₂ Same u k

theorem sameText_refl (l : List UInt8) : SameText l l := List.forall₂_same.2 fun _ _ => Or.inl rfl

theorem same_digit : ∀ i < 16, Same (upper.getD i 0) (lower.getD i 0) := by
  unfold Same
  decide

theorem not_same_minus : ∀ i < 16, ¬ Same (upper.getD i 0) (ch '-') := by
  unfold Same
  decide

theorem digit_lt {base x d : ℕ} (hb : 1 < base) (h : d ∈ if x = 0 then [0] else Nat.digits base x) :
    d < base := by
  split at h
  · rw [mem_singleton.1 h]
    omega
  · exact Nat.digits_lt_base hb h

theorem same_digitLoop {base : ℕ} (hb : 1 < base) (hb' : base ≤ 16) (x : ℕ) :
    SameText (digitLoop upper base x).reverse (digitLoop lower base x).reverse := by
  rw [SameText, List.forall₂_reverse_iff, digitLoop_eq _ hb, digitLoop_eq _ hb,
    List.forall₂_map_left_iff, List.forall₂_map_right_iff, List.forall₂_same]
  exact fun d hd => same_digit d (lt_of_lt_of_le (digit_lt hb hd) hb')

theorem same_hex (w : Word) : SameText (printint w 16 false) (Kernel.printint w 16 false) :=
  same_digitLoop (by decide) le_rfl _

theorem printint64_eq (w : Word) : printint64 w 10 true = (digitLoop upper 10 w.toNat).reverse := by
  have hw : ((w.toNat : ℤ) % 2 ^ 32).toNat = w.toNat := by
    have := w.isLt
    omega
  rw [printint64, digitBuf, if_neg (fun h => absurd h.2 (by omega)), hw]

theorem same_decimal {w : Word} (h : 0 ≤ w.toInt) :
    SameText (printint64 w 10 true) (Kernel.printint w 10 true) := by
  have hw : (w.toInt % 2 ^ 32).toNat = w.toNat := by
    have := w.isLt
    have hcond := w.toInt_eq_toNat_cond
    split at hcond <;> omega
  rw [printint64_eq, Kernel.printint, digitBuf, if_neg (fun hc => absurd hc.2 (by omega)), hw]
  exact same_digitLoop (by decide) (by decide) _

/-- The library prints a negative number without its sign. -/
theorem not_same_negative {w : Word} (h : w.toInt < 0) (u k : List UInt8) :
    ¬ SameText (printint64 w 10 true ++ u) (Kernel.printint w 10 true ++ k) := by
  rw [kernel_prints_decimal, decimal, if_pos h, printint64_eq, digitLoop_eq _ (by decide),
    ← map_reverse]
  cases hd : (if w.toNat = 0 then [0] else Nat.digits 10 w.toNat).reverse with
  | nil =>
    intro hsame
    have hne : (if w.toNat = 0 then [0] else Nat.digits 10 w.toNat) ≠ [] := by
      split
      · exact cons_ne_nil _ _
      next h0 => exact Nat.digits_ne_nil_iff_ne_zero.2 h0
    exact hne (reverse_eq_nil_iff.1 hd)
  | cons d ds =>
    intro hsame
    have hmem : d ∈ if w.toNat = 0 then [0] else Nat.digits 10 w.toNat :=
      mem_reverse.1 (hd ▸ mem_cons_self)
    have hlt := digit_lt (by decide) hmem
    rcases hsame with _ | ⟨hhead, -⟩
    exact not_same_minus d (by omega) hhead

section Formats

variable (str : Word → List UInt8) (ap : ℕ → Word)

theorem convert_takes {c : UInt8} (hc : c ≠ ch 'c') (w : Word) :
    (convert str c w).2 = takes c ∧ (Kernel.convert str c w).2 = takes c := by
  unfold convert Kernel.convert takes
  constructor <;> split_ifs <;> simp_all

theorem same_convert {c : UInt8} (hc : c ≠ ch 'c') (w : Word)
    (hd : c = ch 'd' → 0 ≤ w.toInt) : SameText (convert str c w).1 (Kernel.convert str c w).1 := by
  unfold convert Kernel.convert
  by_cases h1 : c = ch 'd'
  · rw [if_pos h1, if_pos h1]
    exact same_decimal (hd h1)
  by_cases h2 : c = ch 'x' ∨ c = ch 'p'
  · rw [if_neg h1, if_pos h2, if_neg h1, if_pos h2]
    exact same_hex w
  rw [if_neg h1, if_neg h2, if_neg h1, if_neg h2, if_neg hc]
  split
  · exact sameText_refl _
  · split
    next h4 =>
      rw [h4]
      exact sameText_refl _
    · exact sameText_refl _

theorem sameText_append_iff {a b u k : List UInt8} (h : SameText a b) :
    SameText (a ++ u) (b ++ k) ↔ SameText u k := by
  refine ⟨fun hall => ?_, fun hrest => rel_append h hrest⟩
  have := List.forall₂_drop a.length hall
  rwa [drop_left, h.length_eq, drop_left] at this

/-- A format and its arguments are printed alike if and only if no argument of `%d` is
negative. -/
theorem sameText_formatLoop_iff (fmt : List UInt8) (k : ℕ)
    (hcommon : ∀ x ∈ conversions takes fmt k, x.1 ≠ ch 'c') :
    SameText (formatLoop str ap false fmt k) (cprintf str ap fmt k) ↔
      ∀ x ∈ conversions takes fmt k, x.1 = ch 'd' → 0 ≤ (ap x.2).toInt := by
  induction fmt, k using cprintf.induct str ap with
  | case1 k => simp [formatLoop, cprintf, conversions]
  | case2 c k hc =>
    simp only [formatLoop, cprintf, conversions, if_pos hc, if_neg hc]
    simp [Same]
  | case3 c k hc =>
    rw [not_not] at hc
    simp [formatLoop, cprintf, conversions, hc]
  | case4 c d fmt k hc ih =>
    rw [conversions, if_pos hc] at hcommon ⊢
    rw [formatLoop, if_neg hc, cprintf, if_pos hc, ← ih hcommon]
    exact sameText_append_iff (sameText_refl [c])
  | case5 c d fmt k hc ih =>
    rw [conversions, if_neg hc, forall_mem_cons] at hcommon
    rw [conversions, if_neg hc, forall_mem_cons]
    obtain ⟨hd, hrest⟩ := hcommon
    obtain ⟨hu, hk⟩ := convert_takes str hd (ap k)
    rw [formatLoop, if_pos (not_not.1 hc), formatLoop, cprintf, if_neg hc, hu, hk]
    rw [hk] at ih
    by_cases hneg : d = ch 'd' ∧ (ap k).toInt < 0
    · refine iff_of_false ?_ fun hall => absurd (hall.1 hneg.1) (not_le.2 hneg.2)
      have h1 : (convert str d (ap k)).1 = printint64 (ap k) 10 true := by
        rw [convert, if_pos hneg.1]
      have h2 : (Kernel.convert str d (ap k)).1 = Kernel.printint (ap k) 10 true := by
        rw [Kernel.convert, if_pos hneg.1]
      rw [h1, h2]
      exact not_same_negative hneg.2 _ _
    · have hpos : d = ch 'd' → 0 ≤ (ap k).toInt := fun h => not_lt.1 fun hlt => hneg ⟨h, hlt⟩
      rw [sameText_append_iff (same_convert str hd (ap k) hpos), ih hrest]
      exact (and_iff_right hpos).symm

end Formats

/-- The library prints what the kernel prints if and only if no argument of `%d` is negative;
`%d` of the kernel prints the signed decimal representation; and no array of digits
overflows. -/
theorem formats_agree_iff (str : Word → List UInt8) (ap : ℕ → Word) (fd : ℕ) (fmt : List UInt8)
    (hcommon : ∀ x ∈ conversions takes fmt 0, x.1 ≠ ch 'c') :
    (SameText ((printf str ap fd fmt).map Prod.snd) (cprintf str ap fmt 0) ∧
        SameText ((fprintf str ap fd fmt).map Prod.snd) (cprintf str ap fmt 0) ↔
      ∀ x ∈ conversions takes fmt 0, x.1 = ch 'd' → 0 ≤ (ap x.2).toInt) ∧
    (∀ w, Kernel.printint w 10 true = decimal w.toInt) ∧
    ∀ digits (xx : ℤ) base sgn, base = 10 ∨ base = 16 →
      (digitBuf digits xx base sgn).length ≤ 16 := by
  refine ⟨?_, kernel_prints_decimal, fun digits xx base sgn hb => ?_⟩
  · rw [printf, fprintf, map_map]
    change SameText ((formatLoop str ap false fmt 0).map id) _ ∧
      SameText ((formatLoop str ap false fmt 0).map id) _ ↔ _
    rw [map_id, and_self]
    exact sameText_formatLoop_iff str ap fmt 0 hcommon
  · exact length_digitBuf digits xx (by omega) sgn

theorem formats_agree_iff_hex : SameText
    ((printf (fun _ => []) (fun _ => 0xbeef) 1 [ch '%', ch 'x']).map Prod.snd)
    (cprintf (fun _ => []) (fun _ => 0xbeef) [ch '%', ch 'x'] 0) :=
  ((formats_agree_iff (fun _ => []) (fun _ => 0xbeef) 1 [ch '%', ch 'x'] (by decide)).1.2
    (by decide)).1

/-- `%d` of -1 -/
theorem printf_of_minus_one :
    printf (fun _ => []) (fun _ => -1) 1 [ch '%', ch 'd'] =
      ("4294967295".toList.map fun c => (1, ch c)) ∧
    cprintf (fun _ => []) (fun _ => -1) [ch '%', ch 'd'] 0 = [ch '-', ch '1'] := by
  constructor <;> decide +kernel

end Qwin.Printf
