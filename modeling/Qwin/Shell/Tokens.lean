import Mathlib.Data.List.TakeWhile
import Qwin.Shell.Parse

/-!
# The tokens of a line

A word is a maximal run of bytes that are neither whitespace nor symbols, and `>>` is one
token. The parser looks at a line through `peek` and `gettoken` only, and both see the
tokens of the line.
-/

namespace Qwin.Shell

open List

inductive Token where
  | word (w : List UInt8)
  | lt
  | gt
  -- `>>`
  | append
  | bar
  | amp
  | semi
  | lpar
  | rpar
  deriving DecidableEq

namespace Token

def ofByte (c : UInt8) : Option Token :=
  if c = byte '<' then some lt
  else if c = byte '>' then some gt
  else if c = byte '|' then some bar
  else if c = byte '&' then some amp
  else if c = byte ';' then some semi
  else if c = byte '(' then some lpar
  else if c = byte ')' then some rpar
  else none

def text : Token → List UInt8
  | word w => w
  | lt => [byte '<']
  | gt => [byte '>']
  | append => [byte '>', byte '>']
  | bar => [byte '|']
  | amp => [byte '&']
  | semi => [byte ';']
  | lpar => [byte '(']
  | rpar => [byte ')']

/-- What `gettoken` returns for a token. -/
def code : Token → UInt8
  | word _ => byte 'a'
  | append => byte '+'
  | t => t.text.headD 0

/-- The byte that `peek` sees of a symbol. -/
def first : Token → UInt8
  | word _ => 0
  | t => t.text.headD 0

end Token

def tokens (s : List UInt8) : List Token :=
  match s with
  | [] => []
  | c :: s =>
    if c ∈ whitespace then tokens s
    else if c = byte '>' ∧ s.head? = some (byte '>') then .append :: tokens s.tail
    else
      match Token.ofByte c with
      | some t => t :: tokens s
      | none => .word (c :: s.takeWhile plain) :: tokens (s.dropWhile plain)
termination_by s.length
decreasing_by
  all_goals simp only [length_cons, length_tail]
  · omega
  · omega
  · omega
  · exact Nat.lt_succ_of_le (dropWhile_suffix _).length_le

variable {s : Ptr} {c : UInt8} {t : Token} {ts : List Token}

@[simp] theorem tokens_nil : tokens [] = [] := by rw [tokens]

theorem tokens_space (hc : c ∈ whitespace) : tokens (c :: s) = tokens s := by rw [tokens, if_pos hc]

@[simp] theorem tokens_skip (s : Ptr) : tokens (skip s) = tokens s := by
  induction s with
  | nil => rfl
  | cons c s ih =>
    by_cases hc : c ∈ whitespace
    · rw [tokens_space hc, ← ih, skip, skip, dropWhile_cons_of_pos (by simpa using hc)]
    · rw [skip, dropWhile_cons_of_neg (by simpa using hc)]

theorem skip_suffix (s : Ptr) : skip s <:+ s := dropWhile_suffix _

theorem skip_cases (s : Ptr) : skip s = [] ∨ ∃ c r, skip s = c :: r ∧ c ∉ whitespace := by
  induction s with
  | nil => exact Or.inl rfl
  | cons c s ih =>
    by_cases hc : c ∈ whitespace
    · rwa [skip, dropWhile_cons_of_pos (by simpa using hc)]
    · exact Or.inr ⟨c, s, dropWhile_cons_of_neg (by simpa using hc), hc⟩

theorem Token.ofByte_eq_none (hc : c ∉ symbols) : Token.ofByte c = none := by
  simp only [symbols, mem_cons, not_mem_nil, or_false, not_or] at hc
  simp only [Token.ofByte, hc, if_false]

theorem plain_iff : plain c = true ↔ c ∉ whitespace ∧ c ∉ symbols := by simp [plain]

/-- A token that is read from `q`, with its end `eq`. -/
structure Scanned (t : Token) (q eq : Ptr) : Prop where
  suffix : eq <:+ q
  shorter : eq.length < q.length
  first : ∀ toks ⊆ symbols, t.first ∈ toks ↔ q.headD 0 ∈ toks
  word : ∀ w, t = .word w → q = w ++ eq ∧ w ≠ [] ∧ (∀ c ∈ w, plain c = true) ∧
    ∀ c ∈ eq.head?, plain c = false

theorem not_plain_dropWhile (r : Ptr) : ∀ c ∈ (r.dropWhile plain).head?, plain c = false := by
  induction r with
  | nil => simp
  | cons d r ih =>
    by_cases hd : plain d = true
    · rwa [dropWhile_cons_of_pos hd]
    · rw [dropWhile_cons_of_neg hd]
      simpa using hd

theorem Scanned.symbol {r : Ptr} (hcode : t.first = c)
    (hword : ∀ w, t ≠ .word w) : Scanned t (c :: r) r :=
  ⟨suffix_cons c r, Nat.lt_succ_self _, fun _ _ => by rw [hcode, headD_cons],
    fun w hw => absurd hw (hword w)⟩

/-- What the `switch` of `gettoken` finds is the next token. -/
theorem exists_scanned (hc : c ∉ whitespace) (r : Ptr) :
    ∃ t, tokens (c :: r) = t :: tokens (scan (c :: r)).2 ∧ (scan (c :: r)).1 = t.code ∧
      Scanned t (c :: r) (scan (c :: r)).2 := by
  by_cases h1 : c ∈ [byte '|', byte '(', byte ')', byte ';', byte '&', byte '<']
  · obtain ⟨t, ht, hcode, hfirst, hword⟩ :
        ∃ t, Token.ofByte c = some t ∧ t.code = c ∧ t.first = c ∧ ∀ w, t ≠ .word w := by
      simp only [mem_cons, not_mem_nil, or_false] at h1
      rcases h1 with rfl | rfl | rfl | rfl | rfl | rfl <;> exact ⟨_, rfl, rfl, rfl, by simp⟩
    have hgt : c ≠ byte '>' := by
      rintro rfl
      exact absurd h1 (by decide)
    rw [scan, if_pos h1, tokens, if_neg hc, if_neg fun h => hgt h.1, ht]
    exact ⟨t, rfl, hcode.symm, .symbol hfirst hword⟩
  by_cases h2 : c = byte '>'
  · subst h2
    rw [scan, if_neg h1, if_pos rfl, tokens, if_neg hc]
    by_cases hr : r.head? = some (byte '>')
    · rw [if_pos hr, if_pos ⟨rfl, hr⟩]
      have hsuf := tail_suffix r
      refine ⟨.append, rfl, rfl, hsuf.trans (suffix_cons _ _), ?_, fun _ _ => Iff.rfl, by simp⟩
      exact Nat.lt_succ_of_le hsuf.length_le
    · rw [if_neg hr, if_neg fun h => hr h.2]
      exact ⟨.gt, rfl, rfl, .symbol rfl (by simp)⟩
  · have hsym : c ∉ symbols := by
      simp only [symbols, mem_cons, not_mem_nil, or_false] at h1 ⊢
      grind
    have hplain : plain c = true := plain_iff.2 ⟨hc, hsym⟩
    have hnone : Token.ofByte c = none := Token.ofByte_eq_none hsym
    rw [scan, if_neg h1, if_neg h2, tokens, if_neg hc, if_neg fun h => h2 h.1, hnone,
      dropWhile_cons_of_pos hplain]
    have hsuf := dropWhile_suffix plain (l := r)
    refine ⟨_, rfl, rfl, hsuf.trans (suffix_cons _ _), Nat.lt_succ_of_le hsuf.length_le, ?_, ?_⟩
    · intro toks htoks
      exact iff_of_false (fun h => absurd (htoks h) (show (0 : UInt8) ∉ symbols by decide))
        fun h => hsym (htoks h)
    · rintro w hw
      cases hw
      refine ⟨by simp, by simp, fun d hd => ?_, not_plain_dropWhile r⟩
      rcases mem_cons.1 hd with rfl | hd
      · exact hplain
      · exact mem_takeWhile_imp hd

theorem gettoken_nil (h : tokens s = []) : (gettoken s).ret = 0 ∧ (gettoken s).s = [] := by
  rcases skip_cases s with hs | ⟨c, r, hs, hc⟩
  · simp only [gettoken, hs, scan]
    exact ⟨trivial, rfl⟩
  · obtain ⟨t, ht, -⟩ := exists_scanned hc r
    rw [← tokens_skip, hs, ht] at h
    cases h

structure Reads (s : Ptr) (t : Token) : Prop where
  ret : (gettoken s).ret = t.code
  suffix : (gettoken s).s <:+ s
  shorter : (gettoken s).s.length < s.length
  suffix_q : (gettoken s).q <:+ s
  scanned : Scanned t (gettoken s).q (gettoken s).eq

theorem gettoken_cons (h : tokens s = t :: ts) : Reads s t ∧ tokens (gettoken s).s = ts := by
  rcases skip_cases s with hs | ⟨c, r, hs, hc⟩
  · rw [← tokens_skip, hs, tokens_nil] at h
    cases h
  · obtain ⟨t', ht, hret, hscan⟩ := exists_scanned hc r
    rw [← tokens_skip, hs, ht] at h
    obtain ⟨rfl, rfl⟩ := cons_eq_cons.1 h
    rw [← hs] at hret hscan ⊢
    have hsuf := skip_suffix s
    have hsuf' := (skip_suffix (scan (skip s)).2).trans hscan.suffix
    refine ⟨⟨hret, hsuf'.trans hsuf, ?_, hsuf, hscan⟩, tokens_skip _⟩
    exact lt_of_le_of_lt (skip_suffix _).length_le (lt_of_lt_of_le hscan.shorter hsuf.length_le)

theorem peek_eq (s : Ptr) {toks : List UInt8} (htoks : toks ⊆ symbols) :
    peek s toks = (((tokens s).head?.any fun t => t.first ∈ toks), skip s) := by
  rw [← tokens_skip s]
  rcases skip_cases s with hs | ⟨c, r, hs, hc⟩
  · simp only [peek, hs, tokens_nil]
    rfl
  · obtain ⟨t, ht, -, hscan⟩ := exists_scanned hc r
    simp only [peek, hs, ht, List.head?_cons, Option.any_some, hscan.first toks htoks, headD_cons]

theorem peek_true {toks : List UInt8} (htoks : toks ⊆ symbols) (ht : tokens s = t :: ts)
    (hfirst : t.first ∈ toks) : peek s toks = (true, skip s) := by
  rw [peek_eq s htoks, ht, List.head?_cons, Option.any_some, decide_eq_true hfirst]

theorem peek_false {toks : List UInt8} (htoks : toks ⊆ symbols)
    (hfirst : ∀ t ∈ (tokens s).head?, t.first ∉ toks) : peek s toks = (false, skip s) := by
  rw [peek_eq s htoks]
  cases h : tokens s with
  | nil => rfl
  | cons t ts =>
    rw [List.head?_cons, Option.any_some, decide_eq_false (hfirst t (by rw [h]; rfl))]

theorem Token.eq_of_first {u : Token} (ht : t ∈ [amp, semi, bar, lpar, rpar])
    (hu : u.first ∈ [t.first]) : u = t := by
  simp only [mem_cons, not_mem_nil, or_false] at ht hu
  rcases ht with rfl | rfl | rfl | rfl | rfl <;> cases u <;> first | rfl | simp [first, text] at hu

theorem Token.redir_of_first {u : Token} (hu : u.first ∈ [byte '<', byte '>']) :
    u = lt ∨ u = gt ∨ u = append := by
  cases u with
  | lt => exact Or.inl rfl
  | gt => exact Or.inr (Or.inl rfl)
  | append => exact Or.inr (Or.inr rfl)
  | _ => simp [first, text] at hu

end Qwin.Shell
