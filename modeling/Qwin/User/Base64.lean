import Mathlib.Data.List.Basic
import Mathlib.Data.Nat.Bitwise
import Mathlib.Tactic.Ring

/-!
# base64

`encode24`, `encode` and `encodefd` of `base64.c`. Call number `k` of `read` returns bytes, none
of them at the end of the input, or it fails; what it returns is stored in a `size_t`, where
`-1` is the largest number.

Against them stands the encoding of RFC 4648 with a decoder.
-/

namespace Qwin.Base64

open List

def newline : UInt8 := '\n'.toUInt8

def equals : UInt8 := '='.toUInt8

def charset : List UInt8 :=
  "ABCDEFGHIJKLMNOPQRSTUVWXYZabcdefghijklmnopqrstuvwxyz0123456789+/".toList.map Char.toUInt8

def symbol (i : ℕ) : UInt8 := charset.getD i 0

def encode24 (data : List UInt8) (len : ℕ) : List UInt8 :=
  let u0 := (data.getD 0 0).toNat
  let u1 := if 1 < len then (data.getD 1 0).toNat else 0
  let u2 := if 2 < len then (data.getD 2 0).toNat else 0
  [symbol (u0 >>> 2),
    symbol ((u0 &&& 0x03) <<< 4 ||| (u1 &&& 0xf0) >>> 4),
    if 1 < len then symbol ((u1 &&& 0x0f) <<< 2 ||| (u2 &&& 0xc0) >>> 6) else equals,
    if 2 < len then symbol (u2 &&& 0x3f) else equals]

/-- `encode`: the sum `len + 2` is one of `size_t`. -/
def encode (data : List UInt8) (len : ℕ) : List UInt8 :=
  (List.range ((len + 2) % 2 ^ 32 / 3)).flatMap fun pos =>
    encode24 (data.drop (pos * 3)) (len - pos * 3)

/-- What a call of `read` leaves in `inlen`. -/
def inlen : Option (List UInt8) → ℕ
  | some bytes => bytes.length
  | none => 2 ^ 32 - 1

/-- The loop of `encodefd` from call number `k` of `read` on: what it writes, if it ends in
fewer passes than the first argument. -/
def encodefd (read : ℕ → Option (List UInt8)) : ℕ → ℕ → Option (List UInt8)
  | 0, _ => none
  | fuel + 1, k =>
    if inlen (read k) = 0 then some []
    else (encodefd read fuel (k + 1)).map fun rest =>
      encode ((read k).getD []) (inlen (read k)) ++ newline :: rest

/-! ## RFC 4648 -/

def quad (n : ℕ) : List UInt8 :=
  [symbol (n / 2 ^ 18 % 64), symbol (n / 2 ^ 12 % 64), symbol (n / 2 ^ 6 % 64), symbol (n % 64)]

def rfc4648 : List UInt8 → List UInt8
  | a :: b :: c :: rest =>
    quad (a.toNat * 2 ^ 16 + b.toNat * 2 ^ 8 + c.toNat) ++ rfc4648 rest
  | [a, b] => (quad (a.toNat * 2 ^ 16 + b.toNat * 2 ^ 8)).take 3 ++ [equals]
  | [a] => (quad (a.toNat * 2 ^ 16)).take 2 ++ [equals, equals]
  | [] => []

def value (c : UInt8) : ℕ := charset.idxOf c

def decode : List UInt8 → List UInt8
  | w :: x :: y :: z :: rest =>
    let n := value w * 2 ^ 18 + value x * 2 ^ 12
    if y = equals then [UInt8.ofNat (n / 2 ^ 16)]
    else if z = equals then
      let n := n + value y * 2 ^ 6
      [UInt8.ofNat (n / 2 ^ 16), UInt8.ofNat (n / 2 ^ 8)]
    else
      let n := n + value y * 2 ^ 6 + value z
      [UInt8.ofNat (n / 2 ^ 16), UInt8.ofNat (n / 2 ^ 8), UInt8.ofNat n] ++ decode rest
  | _ => []

set_option maxRecDepth 4000 in
theorem value_symbol : ∀ i < 64, value (symbol i) = i := by decide

set_option maxRecDepth 4000 in
theorem symbol_ne : ∀ i < 64, symbol i ≠ equals ∧ symbol i ≠ newline := by decide

theorem symbol_mod_ne (n : ℕ) : symbol (n % 64) ≠ equals := (symbol_ne _ (Nat.mod_lt _ (by decide))).1

theorem value_symbol_mod (n : ℕ) : value (symbol (n % 64)) = n % 64 :=
  value_symbol _ (Nat.mod_lt _ (by decide))

theorem ofNat_eq {a : UInt8} {n : ℕ} (h : n % 256 = a.toNat) : UInt8.ofNat n = a := by
  apply UInt8.toNat_inj.1
  rw [UInt8.toNat_ofNat', ← h]

theorem decode_rfc4648 (l : List UInt8) : decode (rfc4648 l) = l := by
  induction l using rfc4648.induct with
  | case1 a b c rest ih =>
    have ha := a.toNat_lt
    have hb := b.toNat_lt
    have hc := c.toNat_lt
    rw [rfc4648, quad]
    simp only [cons_append, nil_append, decode, symbol_mod_ne, if_false, value_symbol_mod, ih]
    rw [ofNat_eq (a := a), ofNat_eq (a := b), ofNat_eq (a := c)] <;> omega
  | case2 a b =>
    have ha := a.toNat_lt
    have hb := b.toNat_lt
    rw [rfc4648, quad]
    simp only [take_succ_cons, take_zero, cons_append, nil_append, decode,
      symbol_mod_ne, if_false, if_true, value_symbol_mod]
    rw [ofNat_eq (a := a), ofNat_eq (a := b)] <;> omega
  | case3 a =>
    have ha := a.toNat_lt
    rw [rfc4648, quad]
    simp only [take_succ_cons, take_zero, cons_append, nil_append, decode,
      if_true, value_symbol_mod]
    rw [ofNat_eq (a := a)]
    omega
  | case4 => rfl

/-! ## The encoder on one chunk -/

section Bits

set_option maxRecDepth 4000 in
theorem high_bits : ∀ b < 256, (b &&& 0xf0) >>> 4 = b / 16 := by decide

set_option maxRecDepth 4000 in
theorem high_pair : ∀ b < 256, (b &&& 0xc0) >>> 6 = b / 64 := by decide

theorem join_bits (a i : ℕ) {b : ℕ} (hb : b < 2 ^ i) : a <<< i ||| b = a * 2 ^ i + b := by
  rw [← Nat.shiftLeft_add_eq_or_of_lt hb, Nat.shiftLeft_eq]

theorem second_symbol {a b : ℕ} (hb : b < 256) :
    (a &&& 0x03) <<< 4 ||| (b &&& 0xf0) >>> 4 = a % 4 * 16 + b / 16 := by
  rw [high_bits b hb, join_bits _ _ (by omega)]
  exact congrArg (· * 16 + b / 16) (Nat.and_two_pow_sub_one_eq_mod a 2)

theorem third_symbol {b c : ℕ} (hc : c < 256) :
    (b &&& 0x0f) <<< 2 ||| (c &&& 0xc0) >>> 6 = b % 16 * 4 + c / 64 := by
  rw [high_pair c hc, join_bits _ _ (by omega)]
  exact congrArg (· * 4 + c / 64) (Nat.and_two_pow_sub_one_eq_mod b 4)

theorem fourth_symbol (c : ℕ) : c &&& 0x3f = c % 64 := Nat.and_two_pow_sub_one_eq_mod c 6

end Bits

/-- The four indices of `encode24` are the four parts of the 24 bits. -/
theorem quad_eq {a b c : ℕ} (ha : a < 256) (hb : b < 256) (hc : c < 256) :
    quad (a * 2 ^ 16 + b * 2 ^ 8 + c) =
      [symbol (a >>> 2), symbol ((a &&& 0x03) <<< 4 ||| (b &&& 0xf0) >>> 4),
        symbol ((b &&& 0x0f) <<< 2 ||| (c &&& 0xc0) >>> 6), symbol (c &&& 0x3f)] := by
  have h0 : (a * 2 ^ 16 + b * 2 ^ 8 + c) / 2 ^ 18 % 64 = a / 2 ^ 2 := by omega
  have h1 : (a * 2 ^ 16 + b * 2 ^ 8 + c) / 2 ^ 12 % 64 = a % 4 * 16 + b / 16 := by omega
  have h2 : (a * 2 ^ 16 + b * 2 ^ 8 + c) / 2 ^ 6 % 64 = b % 16 * 4 + c / 64 := by omega
  have h3 : (a * 2 ^ 16 + b * 2 ^ 8 + c) % 64 = c % 64 := by omega
  rw [quad, h0, h1, h2, h3, second_symbol hb, third_symbol hc, fourth_symbol,
    Nat.shiftRight_eq_div_pow]

theorem encode24_eq (data : List UInt8) (h : data ≠ []) :
    encode24 data data.length ++ rfc4648 (data.drop 3) = rfc4648 data := by
  match data, h with
  | [a], _ =>
    have := quad_eq (UInt8.toNat_lt a) (by decide : 0 < 256) (by decide : 0 < 256)
    rw [Nat.zero_mul, Nat.add_zero] at this
    rw [rfc4648, this]
    rfl
  | [a, b], _ =>
    have := quad_eq (UInt8.toNat_lt a) (UInt8.toNat_lt b) (by decide : 0 < 256)
    rw [Nat.add_zero] at this
    rw [rfc4648, this]
    rfl
  | a :: b :: c :: rest, _ =>
    rw [rfc4648, quad_eq (UInt8.toNat_lt a) (UInt8.toNat_lt b) (UInt8.toNat_lt c), encode24]
    simp only [length_cons, if_pos (show 1 < rest.length + 1 + 1 + 1 by omega),
      if_pos (show 2 < rest.length + 1 + 1 + 1 by omega)]
    rfl

theorem encode_eq (data : List UInt8) (h : data.length + 2 < 2 ^ 32) :
    encode data data.length = rfc4648 data := by
  rw [encode, Nat.mod_eq_of_lt h]
  clear h
  induction hn : (data.length + 2) / 3 generalizing data with
  | zero =>
    have : data = [] := eq_nil_of_length_eq_zero (by omega)
    rw [this]
    rfl
  | succ n ih =>
    have hne : data ≠ [] := by
      rintro rfl
      simp at hn
    have hdrop : (data.drop 3).length = data.length - 3 := length_drop
    have hrest := ih (data.drop 3) (by omega)
    rw [← encode24_eq data hne, ← hrest, range_succ_eq_map, flatMap_cons, flatMap_map]
    congr 1
    refine flatMap_congr fun pos _ => ?_
    rw [drop_drop, hdrop, Nat.succ_mul, Nat.add_comm (pos * 3) 3]
    congr 1
    omega

/-! ## Chunks -/

theorem rfc4648_append {c : List UInt8} (d : List UInt8) (h : 3 ∣ c.length) :
    rfc4648 (c ++ d) = rfc4648 c ++ rfc4648 d := by
  induction c using rfc4648.induct with
  | case1 a b c rest ih =>
    have hrest : 3 ∣ rest.length := by
      simp only [length_cons] at h
      omega
    rw [cons_append, cons_append, cons_append, rfc4648, ih hrest, rfc4648, append_assoc]
  | case2 a b => exact absurd (show 3 ∣ 2 from h) (by decide)
  | case3 a => exact absurd (show 3 ∣ 1 from h) (by decide)
  | case4 => rfl

theorem exists_pad {c : List UInt8} (h : ¬ 3 ∣ c.length) : ∃ u, rfc4648 c = u ++ [equals] := by
  induction c using rfc4648.induct with
  | case1 a b c rest ih =>
    have hrest : ¬ 3 ∣ rest.length := by
      simp only [length_cons] at h
      omega
    obtain ⟨u, hu⟩ := ih hrest
    exact ⟨_, by rw [rfc4648, hu, ← append_assoc]⟩
  | case2 a b => exact ⟨_, rfl⟩
  | case3 a => exact ⟨(quad (a.toNat * 2 ^ 16)).take 2 ++ [equals], rfl⟩
  | case4 => exact absurd (dvd_zero 3) h

theorem exists_head {c : List UInt8} (h : c ≠ []) : ∃ x v, rfc4648 c = x :: v ∧ x ≠ equals := by
  cases c using rfc4648.induct with
  | case1 a b c rest => exact ⟨_, _, rfl, symbol_mod_ne _⟩
  | case2 a b => exact ⟨_, _, rfl, symbol_mod_ne _⟩
  | case3 a => exact ⟨_, _, rfl, symbol_mod_ne _⟩
  | case4 => exact absurd rfl h

theorem equals_notMem_quad (n : ℕ) : equals ∉ quad n := by
  simp [quad, (symbol_mod_ne _).symm]

/-- An encoding is one without padding, and then padding. -/
theorem exists_body (l : List UInt8) :
    ∃ p k, equals ∉ p ∧ rfc4648 l = p ++ List.replicate k equals := by
  induction l using rfc4648.induct with
  | case1 a b c rest ih =>
    obtain ⟨p, k, hp, hrest⟩ := ih
    refine ⟨_ ++ p, k, ?_, by rw [rfc4648, hrest, append_assoc]⟩
    rw [mem_append, not_or]
    exact ⟨equals_notMem_quad _, hp⟩
  | case2 a b =>
    exact ⟨_, 1, fun hmem => equals_notMem_quad _ (mem_of_mem_take hmem), rfl⟩
  | case3 a =>
    exact ⟨_, 2, fun hmem => equals_notMem_quad _ (mem_of_mem_take hmem), rfl⟩
  | case4 => exact ⟨[], 0, not_mem_nil, rfl⟩

theorem padding_last {l u v : List UInt8} (h : rfc4648 l = u ++ equals :: v) :
    ∀ x ∈ v, x = equals := by
  obtain ⟨p, k, hp, hl⟩ := exists_body l
  rw [hl] at h
  intro x hx
  rcases append_eq_append_iff.1 h with ⟨a, -, ha⟩ | ⟨c, hc, ha⟩
  · have hmem : x ∈ List.replicate k equals := by
      rw [ha]
      exact mem_append_right _ (mem_cons_of_mem _ hx)
    exact eq_of_mem_replicate hmem
  · cases c with
    | nil =>
      have hmem : x ∈ List.replicate k equals := by
        rw [nil_append] at ha
        rw [← ha]
        exact mem_cons_of_mem _ hx
      exact eq_of_mem_replicate hmem
    | cons y c =>
      obtain ⟨rfl, -⟩ := List.cons.inj ha
      refine absurd ?_ hp
      rw [hc]
      exact mem_append_right _ mem_cons_self

/-- The encodings of chunks are the encoding of the whole if and only if no padding comes in
between. -/
theorem flatMap_rfc4648_iff {chunks : List (List UInt8)} (hne : ∀ c ∈ chunks, c ≠ []) :
    chunks.flatMap rfc4648 = rfc4648 chunks.flatten ↔ ∀ c ∈ chunks.dropLast, 3 ∣ c.length := by
  induction chunks with
  | nil => simp [rfc4648]
  | cons c cs ih =>
    have hcs : ∀ d ∈ cs, d ≠ [] := fun d hd => hne d (mem_cons_of_mem _ hd)
    cases cs with
    | nil => simp
    | cons d ds =>
      rw [flatMap_cons, flatten_cons, dropLast_cons_cons, forall_mem_cons]
      by_cases hc : 3 ∣ c.length
      · rw [rfc4648_append _ hc, append_cancel_left_eq, ih hcs]
        exact ⟨fun h => ⟨hc, h⟩, And.right⟩
      · refine ⟨fun h => ?_, fun h => absurd h.1 hc⟩
        obtain ⟨u, hu⟩ := exists_pad hc
        obtain ⟨x, v, hx, hxe⟩ := exists_head (hcs d mem_cons_self)
        rw [hu, flatMap_cons, hx, append_assoc] at h
        exact absurd (padding_last h.symm x mem_cons_self) hxe

/-! ## The loop of `encodefd` -/

/-- The input comes in chunks, and after them `read` returns 0 or fails. -/
def deliver (chunks : List (List UInt8)) (fails : Bool) (k : ℕ) : Option (List UInt8) :=
  if h : k < chunks.length then some (chunks.get ⟨k, h⟩) else if fails then none else some []

section Loop

variable {read : ℕ → Option (List UInt8)} {k : ℕ}

theorem encodefd_mono {n m : ℕ} {out : List UInt8} (h : encodefd read n k = some out)
    (hle : n ≤ m) : encodefd read m k = some out := by
  induction n generalizing m k out with
  | zero => cases h
  | succ n ih =>
    obtain ⟨m, rfl⟩ : ∃ j, m = j + 1 := ⟨m - 1, by omega⟩
    rw [encodefd] at h ⊢
    split at h
    next h0 => rw [if_pos h0, h]
    next h0 =>
      obtain ⟨rest, hrest, rfl⟩ := Option.map_eq_some_iff.1 h
      rw [if_neg h0, ih hrest (by omega)]
      rfl

theorem encodefd_eq_none (h : ∀ j, inlen (read (k + j)) ≠ 0) (n : ℕ) : encodefd read n k = none := by
  induction n generalizing k with
  | zero => rfl
  | succ n ih =>
    have hnext : ∀ j, inlen (read (k + 1 + j)) ≠ 0 := by
      intro j
      rw [Nat.add_right_comm]
      exact h (j + 1)
    rw [encodefd, if_neg (show inlen (read k) ≠ 0 from h 0), ih hnext]
    rfl

/-- Each chunk is encoded for itself, on a line of its own. -/
theorem encodefd_chunks {chunks : List (List UInt8)} (hlen : ∀ c ∈ chunks, c ≠ [] ∧ c.length ≤ 54)
    (hread : ∀ j, read (k + j) = deliver chunks false j) :
    encodefd read (chunks.length + 1) k =
      some (chunks.flatMap fun c => rfc4648 c ++ [newline]) := by
  induction chunks generalizing k with
  | nil =>
    have h0 : inlen (read k) = 0 := by
      rw [show read k = _ from hread 0]
      rfl
    rw [length_nil, encodefd, if_pos h0]
    rfl
  | cons c cs ih =>
    have hc := hlen c mem_cons_self
    have h0 : read k = some c := hread 0
    have hrest : ∀ j, read (k + 1 + j) = deliver cs false j := by
      intro j
      rw [Nat.add_assoc, Nat.add_comm 1 j, hread (j + 1)]
      simp [deliver]
    rw [length_cons, encodefd, h0, ih (fun d hd => hlen d (mem_cons_of_mem _ hd)) hrest, if_neg ?_]
    · rw [Option.getD_some, inlen, encode_eq c (by omega), flatMap_cons, Option.map_some,
        append_assoc]
      rfl
    · rw [inlen]
      exact fun hz => hc.1 (eq_nil_of_length_eq_zero hz)

end Loop

theorem newline_notMem (l : List UInt8) : newline ∉ rfc4648 l := by
  have hquad : ∀ n, newline ∉ quad n := by
    intro n
    have hsym : ∀ m, newline ≠ symbol (m % 64) := fun m =>
      (symbol_ne _ (Nat.mod_lt _ (by decide))).2.symm
    simp [quad, hsym]
  have hpad : newline ≠ equals := by decide
  induction l using rfc4648.induct with
  | case1 a b c rest ih =>
    rw [rfc4648, mem_append, not_or]
    exact ⟨hquad _, ih⟩
  | case2 a b =>
    rw [rfc4648, mem_append, not_or]
    exact ⟨fun h => hquad _ (mem_of_mem_take h), by simpa using hpad⟩
  | case3 a =>
    rw [rfc4648, mem_append, not_or]
    exact ⟨fun h => hquad _ (mem_of_mem_take h), by simpa using hpad⟩
  | case4 => exact not_mem_nil

theorem filter_lines (chunks : List (List UInt8)) :
    (chunks.flatMap fun c => rfc4648 c ++ [newline]).filter (· ≠ newline) =
      chunks.flatMap rfc4648 := by
  induction chunks with
  | nil => rfl
  | cons c cs ih =>
    have hc : (rfc4648 c).filter (· ≠ newline) = rfc4648 c :=
      filter_eq_self.2 fun x hx => decide_eq_true fun hn => newline_notMem c (hn ▸ hx)
    rw [flatMap_cons, filter_append, filter_append, hc, ih, flatMap_cons]
    simp

/-- `encodefd` ends, and what it has written without the newlines encodes the whole input. -/
def Encodes (chunks : List (List UInt8)) (fails : Bool) : Prop :=
  ∃ fuel out, encodefd (deliver chunks fails) fuel 0 = some out ∧
    out.filter (· ≠ newline) = rfc4648 chunks.flatten ∧
    decode (out.filter (· ≠ newline)) = chunks.flatten

/-- The input is encoded if and only if it ends without an error and every chunk before the
last one has a length divisible by three. -/
theorem encodes_iff (chunks : List (List UInt8)) (fails : Bool)
    (hlen : ∀ c ∈ chunks, c ≠ [] ∧ c.length ≤ 54) :
    Encodes chunks fails ↔ fails = false ∧ ∀ c ∈ chunks.dropLast, 3 ∣ c.length := by
  cases fails with
  | true =>
    refine ⟨?_, fun h => absurd h.1 (by decide)⟩
    rintro ⟨fuel, out, hrun, -⟩
    rw [encodefd_eq_none ?_ fuel] at hrun
    · cases hrun
    · intro j
      rw [deliver]
      split
      next hj =>
        intro hz
        exact (hlen _ (get_mem chunks _)).1 (eq_nil_of_length_eq_zero hz)
      · decide
  | false =>
    have hrun := encodefd_chunks (k := 0) hlen fun j => by rw [Nat.zero_add]
    have hiff := flatMap_rfc4648_iff fun c hc => (hlen c hc).1
    rw [and_iff_right rfl, ← hiff]
    constructor
    · rintro ⟨fuel, out, hout, heq, -⟩
      have h1 := encodefd_mono hout (Nat.le_max_left fuel (chunks.length + 1))
      have h2 := encodefd_mono hrun (Nat.le_max_right fuel (chunks.length + 1))
      cases h1.symm.trans h2
      rwa [filter_lines] at heq
    · intro heq
      refine ⟨_, _, hrun, ?_, ?_⟩
      · rw [filter_lines, heq]
      · rw [filter_lines, heq, decode_rfc4648]

theorem encodes_iff_two_chunks : Encodes [[1, 2, 3], [4]] false :=
  (encodes_iff [[1, 2, 3], [4]] false (by decide)).2 (by decide)

/-- A byte and then two come out with padding in the middle. -/
theorem encodefd_pads_chunks :
    encodefd (deliver [[102], [111, 111]] false) 3 0 =
      some ("Zg==\nb28=\n".toList.map Char.toUInt8) ∧
    rfc4648 [102, 111, 111] = "Zm9v".toList.map Char.toUInt8 := by
  constructor <;> decide +kernel

end Qwin.Base64
