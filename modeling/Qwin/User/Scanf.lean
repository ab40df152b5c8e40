import Qwin.User.Atob

/-!
# `sscanf`

`vsscanf` of `scanf.c`. A pointer into a string is the memory from there on: the characters of
the string, its NUL, and what lies behind it. Behind the end of this memory everything is NUL.

The arguments are numbered, and the stores through them are recorded in order. `none` is a store
or a load through a pointer that leaves its object altogether: `buf` behind a `%d` whose text has
no end, or a text that does not fit into `tmp`.
-/

namespace Qwin.Scanf

open List
open Chars (ch Str deref deref_cons isspace)

/-- The string that starts at `s`. -/
def cstr (s : Str) : Str := s.takeWhile (· ≠ 0)

def isdigit (c : UInt8) : Bool := ch '0' ≤ c ∧ c ≤ ch '9'

def skip (s : Str) : Str := s.dropWhile isspace

/-- A character that is neither NUL nor in `ISSPACE`: white space and the colon. -/
def plain (c : UInt8) : Bool :=
  c ≠ 0 ∧ c ∉ [ch ' ', ch '\t', ch '\n', ch '\r', 0x0C, 0x0B, ch ':']

def strcspn (s : Str) : ℕ := (s.takeWhile plain).length

/-- `strchr (s, c)`, as a distance from `s` -/
def strchr (s : Str) (c : UInt8) : Option ℕ := (cstr s).idxOf? c

inductive Store
  | text (arg : ℕ) (bytes : Str)
  | number (arg : ℕ) (v : ℕ)
  deriving DecidableEq

def Store.arg : Store → ℕ
  | text k _ => k
  | number k _ => k

/-- `count`, the number of arguments taken, and the stores through them. -/
structure Scan where
  count : ℕ
  args : ℕ
  stores : List Store
  deriving DecidableEq

namespace Scan

def text (st : Scan) (bytes : Str) : Scan :=
  ⟨st.count, st.args + 1, st.stores ++ [.text st.args bytes]⟩

/-- The next argument gets the number that `atob` reads, if it reads one. -/
def number (st : Scan) (tmp : Str) (base : ℕ) : Scan :=
  match Atob.atob 0 tmp base with
  | (0, _) => ⟨st.count, st.args + 1, st.stores⟩
  | (_, v) => ⟨st.count, st.args + 1, st.stores ++ [.number st.args v]⟩

end Scan

/-- The loop over the characters between `%` and the conversion: what is left, `noassign` and
`width`. -/
def specLoop : ℕ → Str → Bool → ℕ → Option (Str × Bool × ℕ)
  | 0, _, _, _ => none
  | fuel + 1, s, noassign, width =>
    let c := deref s
    if c = 0 ∨ c ∈ "dibouxcsefg%".toList.map Char.toUInt8 then some (s, noassign, width)
    else if c = ch '*' then specLoop fuel s.tail true width
    else if c = ch 'l' ∨ c = ch 'L' then specLoop fuel s.tail noassign width
    else if ch '1' ≤ c ∧ c ≤ ch '9' then
      let tmp := s.takeWhile isdigit
      if 256 ≤ tmp.length then none
      else specLoop fuel (s.dropWhile isdigit) noassign (Atob.atob width tmp 10).2
    else specLoop fuel s.tail noassign width

def baseOf (c : UInt8) : ℕ :=
  if c = ch 'd' ∨ c = ch 'u' then 10 else if c = ch 'x' then 16 else if c = ch 'o' then 8 else 2

/-- The width of a number in the text: up to white space, or up to the character that follows
in the format. -/
def numberWidth (s buf : Str) (width : ℕ) : Option ℕ :=
  if width ≠ 0 then some width
  else if isspace (deref s.tail) ∨ deref s.tail = 0 then some (strcspn buf)
  else strchr buf (deref s.tail)

/-- The conversion at `*s`: `buf` behind it, and the scan. -/
def convert (s buf : Str) (noassign : Bool) (width : ℕ) (st : Scan) : Option (Str × Scan) :=
  let c := deref s
  if c = ch 's' then
    let buf := skip buf
    let width := if width = 0 then strcspn buf else width
    some (buf.drop width, if noassign then st else st.text ((cstr buf).take width))
  else if c = ch 'c' then
    let width := if width = 0 then 1 else width
    some (buf.drop width, if noassign then st else st.text ((cstr buf).take width))
  else if c ∈ "dobxu".toList.map Char.toUInt8 then
    let buf := skip buf
    match numberWidth s buf width with
    | none => none
    | some width =>
      if 256 ≤ width then none
      else some (buf.drop width,
        if noassign then st else st.number ((cstr buf).take width) (baseOf c))
  else some (buf, st)

/-- The loop of `vsscanf`: the scan, and where `s` and `buf` end. -/
def scanLoop : ℕ → Str → Str → Scan → Option (Scan × Str × Str)
  | 0, _, _, _ => none
  | fuel + 1, s, buf, st =>
    if deref s = 0 ∨ deref buf = 0 then some (st, s, buf)
    else if deref (skip s) = ch '%' then
      match specLoop (s.length + 1) (skip s).tail false 0 with
      | none => none
      | some (s, noassign, width) =>
        match convert s buf noassign width st with
        | none => none
        | some (buf, st) =>
          scanLoop fuel s.tail buf
            (if noassign then st else { st with count := st.count + 1 })
    else if deref (skip s) ≠ deref (skip buf) then some (st, skip s, skip buf)
    else scanLoop fuel (skip s).tail (skip buf).tail st

/-- `sscanf (buf, fmt, …)`. Every pass takes a character of the format. -/
def sscanf (buf fmt : Str) : Option (Scan × Str × Str) :=
  scanLoop (fmt.length + 1) fmt buf ⟨0, 0, []⟩

/-! ## Lines -/

/-- The conversions of the format of a line. -/
inductive Kind
  | word
  | number

def Kind.format : Kind → Str
  | word => [ch '%', ch 's', ch ':']
  | number => [ch '%', ch 'd', ch ':']

/-- A format with colons between its conversions. The last one is `%s`, and a newline is behind
it. -/
def format (ks : List Kind) : Str := ks.flatMap Kind.format ++ [ch '%', ch 's', ch '\n']

def field (l : Str) : Str := (skip l).takeWhile plain

def rest (l : Str) : Str := (skip l).dropWhile plain

/-- The text behind a colon, and behind white space before it. -/
def behindColon (l : Str) : Option Str :=
  match skip l with
  | c :: r => if c = ch ':' then some r else none
  | [] => none

section Texts

variable {l : Str} {z s : Str}

theorem deref_append (h : l ≠ []) (h0 : 0 ∉ l) : deref (l ++ z) ≠ 0 := by
  cases l with
  | nil => exact absurd rfl h
  | cons c l =>
    intro hc
    exact h0 (hc ▸ mem_cons_self)

theorem skip_append (l z : Str) : skip (l ++ 0 :: z) = skip l ++ 0 :: z := by
  induction l with
  | nil => rfl
  | cons c l ih =>
    rw [cons_append, skip, skip, dropWhile_cons, dropWhile_cons]
    split
    · exact ih
    · rfl

theorem notMem_skip (h0 : 0 ∉ l) : 0 ∉ skip l := fun h => h0 ((dropWhile_sublist _).subset h)

theorem takeWhile_append {p : UInt8 → Bool} (hp : p 0 = false) (l z : Str) :
    (l ++ 0 :: z).takeWhile p = l.takeWhile p := by
  induction l with
  | nil => rw [nil_append, takeWhile_cons, hp]; rfl
  | cons c l ih =>
    rw [cons_append, takeWhile_cons, takeWhile_cons, ih]

theorem cstr_append (h0 : 0 ∉ l) (z : Str) : cstr (l ++ 0 :: z) = l := by
  rw [cstr, takeWhile_append (by decide), takeWhile_eq_self_iff]
  exact fun c hc => decide_eq_true fun hz => h0 (hz ▸ hc)

theorem drop_field (l : Str) : (skip l).drop (field l).length = rest l := by
  have := takeWhile_append_dropWhile (p := plain) (l := skip l)
  conv_lhs => rw [← this]
  exact drop_left

theorem take_field (l : Str) : (skip l).take (field l).length = field l := by
  have := takeWhile_append_dropWhile (p := plain) (l := skip l)
  conv_lhs => rw [← this]
  exact take_left

end Texts

/-! ## The passes of the loop -/

section Passes

variable {n : ℕ} {l : Str}

theorem scanLoop_stop (s z : Str) (st : Scan) : scanLoop (n + 1) s (0 :: z) st = some (st, s, 0 :: z) := by
  rw [scanLoop]
  exact if_pos (Or.inr rfl)

theorem specLoop_of_mem {c : UInt8} (hc : c ∈ "dibouxcsefg%".toList.map Char.toUInt8) (s : Str)
    (noassign : Bool) (width : ℕ) :
    specLoop (n + 1) (c :: s) noassign width = some (c :: s, noassign, width) := by
  rw [specLoop]
  exact if_pos (Or.inr hc)

variable (hl : l ≠ []) (h0 : 0 ∉ l)

include hl h0

theorem scanLoop_word (s z : Str) (st : Scan) :
    scanLoop (n + 1) (ch '%' :: ch 's' :: s) (l ++ 0 :: z) st =
      scanLoop n s (rest l ++ 0 :: z) { st.text (field l) with count := st.count + 1 } := by
  have hend : ¬ (deref (ch '%' :: ch 's' :: s) = 0 ∨ deref (l ++ 0 :: z) = 0) :=
    not_or.2 ⟨(by decide : ch '%' ≠ 0), deref_append hl h0⟩
  have hconv : convert (ch 's' :: s) (l ++ 0 :: z) false 0 st =
      some (rest l ++ 0 :: z, st.text (field l)) := by
    have hspan : strcspn (skip l ++ 0 :: z) = (field l).length := by
      rw [strcspn, takeWhile_append (by decide), field]
    have hle : (field l).length ≤ (skip l).length := (takeWhile_sublist _).length_le
    rw [convert]
    simp only [deref, headD_cons, if_true, skip_append, hspan, cstr_append (notMem_skip h0),
      drop_append_of_le_length hle, drop_field, take_field]
    rfl
  rw [scanLoop, if_neg hend, show skip (ch '%' :: ch 's' :: s) = ch '%' :: ch 's' :: s from rfl,
    deref_cons, if_pos rfl, tail_cons, specLoop_of_mem (by decide)]
  dsimp only
  rw [hconv]
  rfl

theorem scanLoop_number (s z : Str) (st : Scan) :
    scanLoop (n + 1) (ch '%' :: ch 'd' :: ch ':' :: s) (l ++ 0 :: z) st =
      match (skip l).idxOf? (ch ':') with
      | none => none
      | some i =>
        if 256 ≤ i then none
        else scanLoop n (ch ':' :: s) ((skip l).drop i ++ 0 :: z)
          { st.number ((skip l).take i) 10 with count := st.count + 1 } := by
  have hend : ¬ (deref (ch '%' :: ch 'd' :: ch ':' :: s) = 0 ∨ deref (l ++ 0 :: z) = 0) :=
    not_or.2 ⟨(by decide : ch '%' ≠ 0), deref_append hl h0⟩
  have hcount : ∀ tmp, (st.number tmp 10).count = st.count := by
    intro tmp
    unfold Scan.number
    split <;> rfl
  have hwidth : numberWidth (ch 'd' :: ch ':' :: s) (skip l ++ 0 :: z) 0 =
      (skip l).idxOf? (ch ':') := by
    rw [numberWidth, if_neg (by decide)]
    change (if isspace (ch ':') = true ∨ ch ':' = 0 then _ else strchr _ (ch ':')) = _
    rw [if_neg (by decide), strchr, cstr_append (notMem_skip h0)]
  rw [scanLoop, if_neg hend,
    show skip (ch '%' :: ch 'd' :: ch ':' :: s) = ch '%' :: ch 'd' :: ch ':' :: s from rfl,
    deref_cons, if_pos rfl, tail_cons, specLoop_of_mem (by decide)]
  dsimp only
  have hconv : convert (ch 'd' :: ch ':' :: s) (l ++ 0 :: z) false 0 st =
      match (skip l).idxOf? (ch ':') with
      | none => none
      | some i => if 256 ≤ i then none
          else some ((skip l).drop i ++ 0 :: z, st.number ((skip l).take i) 10) := by
    have hd : deref (ch 'd' :: ch ':' :: s) = ch 'd' := rfl
    rw [convert, skip_append, hd, if_neg (by decide), if_neg (by decide), if_pos (by decide)]
    dsimp only
    rw [hwidth, cstr_append (notMem_skip h0)]
    cases hi : (skip l).idxOf? (ch ':') with
    | none => rfl
    | some i =>
      have hlt : i < (skip l).length := (List.idxOf?_eq_some_iff.1 hi).1
      dsimp only
      rw [drop_append_of_le_length hlt.le]
      rfl
  rw [hconv]
  cases (skip l).idxOf? (ch ':') with
  | none => rfl
  | some i =>
    dsimp only
    by_cases hi : 256 ≤ i
    · rw [if_pos hi, if_pos hi]
    · rw [if_neg hi, if_neg hi]
      dsimp only
      rw [hcount]
      rfl

theorem scanLoop_colon (s z : Str) (st : Scan) :
    scanLoop (n + 1) (ch ':' :: s) (l ++ 0 :: z) st =
      match behindColon l with
      | some r => scanLoop n s (r ++ 0 :: z) st
      | none => some (st, ch ':' :: s, skip l ++ 0 :: z) := by
  have hend : ¬ (deref (ch ':' :: s) = 0 ∨ deref (l ++ 0 :: z) = 0) :=
    not_or.2 ⟨(by decide : ch ':' ≠ 0), deref_append hl h0⟩
  rw [scanLoop, if_neg hend, show skip (ch ':' :: s) = ch ':' :: s from rfl, deref_cons,
    if_neg (by decide),
    skip_append, behindColon]
  cases hskip : skip l with
  | nil => exact if_pos (by decide : ch ':' ≠ (0 : UInt8))
  | cons c r =>
    by_cases hc : c = ch ':'
    · subst hc
      exact if_neg (not_not.2 rfl)
    · have hne : ch ':' ≠ deref (c :: r ++ 0 :: z) := fun h => hc (Eq.symm h)
      dsimp only
      rw [if_neg hc, if_pos hne]

/-- The newline at the end of the format. White space at the end of the text is skipped, and
then both pointers go past their NUL. -/
theorem scanLoop_newline (s z : Str) (st : Scan) :
    scanLoop (n + 1) (ch '\n' :: 0 :: s) (l ++ 0 :: z) st =
      if skip l = [] then scanLoop n s z st else some (st, 0 :: s, skip l ++ 0 :: z) := by
  have hend : ¬ (deref (ch '\n' :: 0 :: s) = 0 ∨ deref (l ++ 0 :: z) = 0) :=
    not_or.2 ⟨(by decide : ch '\n' ≠ 0), deref_append hl h0⟩
  rw [scanLoop, if_neg hend, show skip (ch '\n' :: 0 :: s) = 0 :: s from rfl, deref_cons,
    if_neg (by decide),
    skip_append]
  by_cases hskip : skip l = []
  · rw [hskip, if_pos rfl]
    exact if_neg (not_not.2 rfl)
  · have hne : 0 ≠ deref (skip l ++ 0 :: z) :=
      fun h => deref_append hskip (notMem_skip h0) h.symm
    rw [if_neg hskip, if_pos hne]

end Passes

/-! ## A line -/

namespace Scan

def word (st : Scan) (bytes : Str) : Scan := { st.text bytes with count := st.count + 1 }

/-- A number is counted, and stored if `atob` reads it. -/
def decimal (st : Scan) (tmp : Str) : Scan := { st.number tmp 10 with count := st.count + 1 }

end Scan

/-- What a line stores, and if both pointers go past their NUL at its end. -/
def scanLine : List Kind → Str → Scan → Option (Scan × Bool)
  | [], l, st =>
    if l = [] then some (st, false)
    else some (st.word (field l), rest l ≠ [] ∧ skip (rest l) = [])
  | .word :: ks, l, st =>
    if l = [] then some (st, false)
    else match behindColon (rest l) with
      | some r => scanLine ks r (st.word (field l))
      | none => some (st.word (field l), false)
  | .number :: ks, l, st =>
    if l = [] then some (st, false)
    else match (skip l).idxOf? (ch ':') with
      | none => none
      | some i =>
        if 256 ≤ i then none
        else scanLine ks ((skip l).drop (i + 1)) (st.decimal ((skip l).take i))

/-- The loop does what `scanLine` says, and goes on behind the NUL of both strings where it
says so. -/
def Follows (n : ℕ) (s z : Str) (out : Option (Scan × Str × Str)) :
    Option (Scan × Bool) → Prop
  | none => out = none
  | some (st, true) => out = scanLoop n s z st
  | some (st, false) => ∃ x y, out = some (st, x, y) ∧ s.length < x.length ∧ z.length < y.length

section Line

variable {n : ℕ} {l : Str}

theorem notMem_rest (h0 : 0 ∉ l) : 0 ∉ rest l := fun h =>
  notMem_skip h0 ((dropWhile_sublist _).subset h)

theorem notMem_behindColon {r : Str} (h0 : 0 ∉ l) (h : behindColon l = some r) : 0 ∉ r := by
  unfold behindColon at h
  cases hskip : skip l with
  | nil =>
    rw [hskip] at h
    cases h
  | cons c t =>
    rw [hskip] at h
    dsimp only at h
    split at h
    · cases h
      intro hr
      exact notMem_skip h0 (hskip ▸ mem_cons_of_mem c hr)
    · cases h

theorem behindColon_nil : behindColon [] = none := rfl

/-- The colon behind a number is found where the number ends. -/
theorem behindColon_drop {i : ℕ} (hi : (skip l).idxOf? (ch ':') = some i) :
    (skip l).drop i ≠ [] ∧ behindColon ((skip l).drop i) = some ((skip l).drop (i + 1)) := by
  obtain ⟨hlt, hget, -⟩ := List.idxOf?_eq_some_iff.1 hi
  have hcons : (skip l).drop i = ch ':' :: (skip l).drop (i + 1) := by
    rw [drop_eq_getElem_cons hlt, hget]
  rw [hcons]
  exact ⟨cons_ne_nil _ _, rfl⟩

theorem follows_scanLoop (ks : List Kind) (h0 : 0 ∉ l) (s z : Str) (st : Scan) :
    Follows n s z (scanLoop (n + 2 * ks.length + 2) (format ks ++ 0 :: s) (l ++ 0 :: z) st)
      (scanLine ks l st) := by
  induction ks generalizing l st with
  | nil =>
    rw [scanLine]
    by_cases hl : l = []
    · subst hl
      rw [if_pos rfl]
      refine ⟨_, _, scanLoop_stop _ _ _, ?_, Nat.lt_succ_self _⟩
      rw [length_append, length_cons]
      omega
    rw [if_neg hl]
    change Follows n s z (scanLoop (n + 1 + 1) (ch '%' :: ch 's' :: ch '\n' :: 0 :: s) _ st) _
    rw [scanLoop_word hl h0]
    change Follows n s z (scanLoop (n + 1) _ _ (st.word (field l))) _
    by_cases hrest : rest l = []
    · rw [hrest]
      refine ⟨_, _, scanLoop_stop _ _ _, ?_, Nat.lt_succ_self _⟩
      rw [length_cons, length_cons]
      omega
    · rw [scanLoop_newline hrest (notMem_rest h0)]
      by_cases hskip : skip (rest l) = []
      · rw [if_pos hskip, decide_eq_true ⟨hrest, hskip⟩]
        rfl
      · rw [if_neg hskip, decide_eq_false fun h => hskip h.2]
        refine ⟨_, _, rfl, Nat.lt_succ_self _, ?_⟩
        rw [length_append, length_cons]
        omega
  | cons k ks ih =>
    rw [length_cons, show n + 2 * (ks.length + 1) + 2 = n + 2 * ks.length + 2 + 1 + 1 by omega]
    by_cases hl : l = []
    · subst hl
      cases k
      all_goals
        rw [scanLine, if_pos rfl]
        refine ⟨_, _, scanLoop_stop _ _ _, ?_, Nat.lt_succ_self _⟩
        simp only [length_cons, length_append]
        omega
    cases k with
    | word =>
      rw [scanLine]
      change Follows n s z (scanLoop _ (ch '%' :: ch 's' :: ch ':' :: (format ks ++ 0 :: s)) _ st) _
      rw [if_neg hl, scanLoop_word hl h0]
      change Follows n s z (scanLoop _ _ _ (st.word (field l))) _
      by_cases hrest : rest l = []
      · rw [hrest, behindColon_nil]
        refine ⟨_, _, scanLoop_stop _ _ _, ?_, Nat.lt_succ_self _⟩
        simp only [length_cons, length_append]
        omega
      · rw [scanLoop_colon hrest (notMem_rest h0)]
        cases hcolon : behindColon (rest l) with
        | some r => exact ih (notMem_behindColon (notMem_rest h0) hcolon) _
        | none =>
          refine ⟨_, _, rfl, ?_, ?_⟩
          · simp only [length_cons, length_append]
            omega
          · rw [length_append, length_cons]
            omega
    | number =>
      rw [scanLine]
      change Follows n s z (scanLoop _ (ch '%' :: ch 'd' :: ch ':' :: (format ks ++ 0 :: s)) _ st) _
      rw [if_neg hl, scanLoop_number hl h0]
      cases hi : (skip l).idxOf? (ch ':') with
      | none => rfl
      | some i =>
        dsimp only
        by_cases hbig : 256 ≤ i
        · rw [if_pos hbig, if_pos hbig]
          rfl
        obtain ⟨hne, hcolon⟩ := behindColon_drop hi
        have hdrop : 0 ∉ (skip l).drop i := fun h => notMem_skip h0 (mem_of_mem_drop h)
        rw [if_neg hbig, if_neg hbig, scanLoop_colon hne hdrop, hcolon]
        exact ih (fun h => notMem_skip h0 (mem_of_mem_drop h)) _

end Line

/-! ## Behind the end -/

theorem length_skip_le (s : Str) : (skip s).length ≤ s.length := (dropWhile_sublist _).length_le

theorem length_specLoop_le {n : ℕ} {s x : Str} {noassign noassign' : Bool} {width width' : ℕ}
    (h : specLoop n s noassign width = some (x, noassign', width')) : x.length ≤ s.length := by
  induction n generalizing s noassign width with
  | zero => cases h
  | succ n ih =>
    rw [specLoop] at h
    have htail : s.tail.length ≤ s.length := by simp
    have hdrop : (s.dropWhile isdigit).length ≤ s.length := (dropWhile_sublist _).length_le
    dsimp only at h
    split_ifs at h
    · cases h
      exact le_rfl
    · exact (ih h).trans htail
    · exact (ih h).trans htail
    · exact (ih h).trans hdrop
    · exact (ih h).trans htail

/-- One scan goes on from another: its stores go to later arguments. -/
def Extends (st st' : Scan) : Prop :=
  st.args ≤ st'.args ∧ ∃ more, st'.stores = st.stores ++ more ∧ ∀ e ∈ more, st.args ≤ e.arg

theorem Extends.refl (st : Scan) : Extends st st := ⟨le_rfl, [], by simp, by simp⟩

theorem Extends.trans {st st' st'' : Scan} (h : Extends st st') (h' : Extends st' st'') :
    Extends st st'' := by
  obtain ⟨hle, more, hmore, harg⟩ := h
  obtain ⟨hle', more', hmore', harg'⟩ := h'
  refine ⟨hle.trans hle', more ++ more', by rw [hmore', hmore, append_assoc], ?_⟩
  intro e he
  rcases mem_append.1 he with he | he
  · exact harg e he
  · exact hle.trans (harg' e he)

theorem extends_text (st : Scan) (bytes : Str) : Extends st (st.text bytes) :=
  ⟨Nat.le_succ _, [_], rfl, by simp [Store.arg]⟩

theorem extends_number (st : Scan) (tmp : Str) (base : ℕ) : Extends st (st.number tmp base) := by
  unfold Scan.number
  split
  · exact ⟨Nat.le_succ _, [], by simp, by simp⟩
  · exact ⟨Nat.le_succ _, [_], rfl, by simp [Store.arg]⟩

theorem extends_convert {s buf buf' : Str} {noassign : Bool} {width : ℕ} {st st' : Scan}
    (h : convert s buf noassign width st = some (buf', st')) : Extends st st' := by
  have hassign : ∀ st1, Extends st st1 → Extends st (if noassign = true then st else st1) := by
    intro st1 h1
    split
    · exact .refl st
    · exact h1
  unfold convert at h
  dsimp only at h
  by_cases hs : deref s = ch 's'
  · rw [if_pos hs] at h
    cases h
    exact hassign _ (extends_text st _)
  by_cases hc : deref s = ch 'c'
  · rw [if_neg hs, if_pos hc] at h
    cases h
    exact hassign _ (extends_text st _)
  rw [if_neg hs, if_neg hc] at h
  by_cases hnum : deref s ∈ "dobxu".toList.map Char.toUInt8
  · rw [if_pos hnum] at h
    split at h
    · cases h
    · split at h
      · cases h
      · cases h
        exact hassign _ (extends_number st _ _)
  · rw [if_neg hnum] at h
    cases h
    exact .refl st

theorem scanLoop_extends {n : ℕ} {s buf x y : Str} {st st' : Scan}
    (h : scanLoop n s buf st = some (st', x, y)) : x.length ≤ s.length ∧ Extends st st' := by
  induction n generalizing s buf st with
  | zero => cases h
  | succ n ih =>
    rw [scanLoop] at h
    have hskip := length_skip_le s
    have htail : (skip s).tail.length ≤ s.length := by
      rw [length_tail]
      omega
    split_ifs at h
    · cases h
      exact ⟨le_rfl, .refl _⟩
    · split at h
      · cases h
      next s' noassign width hspec =>
        split at h
        · cases h
        next buf' st1 hconv =>
          obtain ⟨hlen, hext⟩ := ih h
          have hs' := length_specLoop_le hspec
          rw [length_tail] at hlen
          refine ⟨by omega, (extends_convert hconv).trans ?_⟩
          revert hext
          cases noassign <;> exact id
    · cases h
      exact ⟨hskip, .refl _⟩
    · obtain ⟨hlen, hext⟩ := ih h
      exact ⟨hlen.trans htail, hext⟩

end Qwin.Scanf
