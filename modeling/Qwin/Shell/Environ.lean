import Qwin.Shell.Paths

/-!
# The environment of the shell

`parseEnvFile` of `sh.c`, with `trim` and the functions for variables. Strings are the bytes before
the NUL. What new memory holds, in `variable`s and in the copies of parts of a line, is a parameter.

The values are read right exactly if none of them is blank and those places of new memory that are
read before they are written hold zero.
-/

namespace Qwin.Environ

open Chars (ch Str isspace)
open List

abbrev MAX_VAR_NAME : ℕ := 128
abbrev MAX_VAR_LINE : ℕ := 1024

variable {h : Heap}

/-! ## `trim` -/

/-- `while (isspace(*p)) p++` in a block, which has to end inside of it. -/
def skipSpace : Str → Option Str
  | [] => none
  | c :: s => if isspace c then skipSpace s else some (c :: s)

/-- `while (*p) p++` in a block: the bytes that are passed. -/
def toNul : Str → Option Str
  | [] => none
  | c :: s => if c = 0 then some [] else (toNul s).map (c :: ·)

/-- `trim` of the string in a block. The second loop over white space goes backwards. -/
def trim (block : Str) : Option Str := do
  let head ← skipSpace block
  let str ← toNul block
  let upToTail ← skipSpace str.reverse
  some (head.take (upToTail.length + head.length - block.length))

/-- White space inside of a line. -/
def Blank (s : Str) : Prop := ∀ c ∈ s, isspace c = true ∧ c ≠ ch '\n' ∧ c ≠ ch '\r'

/-- A text inside of a line that begins and ends with other characters than white space. -/
structure Word (w : Str) : Prop where
  first : ∃ c l, w = c :: l ∧ isspace c = false
  last : ∃ l c, w = l ++ [c] ∧ isspace c = false
  text : ∀ c ∈ w, c ≠ 0 ∧ c ≠ ch '\n' ∧ c ≠ ch '\r'

theorem skipSpace_append {a s : Str} (ha : ∀ c ∈ a, isspace c = true) :
    skipSpace (a ++ s) = skipSpace s := by
  induction a with
  | nil => rfl
  | cons c a ih =>
    obtain ⟨hc, ha⟩ := forall_mem_cons.1 ha
    rw [cons_append, skipSpace, if_pos hc, ih ha]

theorem toNul_append {s z : Str} (hs : 0 ∉ s) : toNul (s ++ 0 :: z) = some s := by
  induction s with
  | nil => rfl
  | cons c s ih =>
    rw [mem_cons, not_or] at hs
    rw [cons_append, toNul, if_neg (Ne.symm hs.1), ih hs.2]
    rfl

theorem toNul_of_notMem {s : Str} (hs : 0 ∉ s) : toNul s = none := by
  induction s with
  | nil => rfl
  | cons c s ih =>
    rw [mem_cons, not_or] at hs
    rw [toNul, if_neg (Ne.symm hs.1), ih hs.2]
    rfl

theorem ne_zero_of_isspace {c : UInt8} (h : isspace c = true) : c ≠ 0 := by
  rintro rfl
  exact absurd h (by decide)

section

variable {a m b : Str} (ha : ∀ c ∈ a, isspace c = true)

include ha

/-- `trim` of a terminated string that is not blank. -/
theorem trim_eq (hm : Word m) (hb : ∀ c ∈ b, isspace c = true) :
    trim (a ++ (m ++ (b ++ [0]))) = some m := by
  have hhead : skipSpace (a ++ (m ++ (b ++ [0]))) = some (m ++ (b ++ [0])) := by
    obtain ⟨c, l, rfl, hc⟩ := hm.first
    rw [skipSpace_append ha, cons_append, skipSpace, hc]
    rfl
  have hnul : toNul (a ++ (m ++ (b ++ [0]))) = some (a ++ (m ++ b)) := by
    rw [← append_assoc m, ← append_assoc a]
    refine toNul_append fun h0 => ?_
    rcases mem_append.1 h0 with h | h
    · exact ne_zero_of_isspace (ha 0 h) rfl
    · rcases mem_append.1 h with h | h
      · exact (hm.text 0 h).1 rfl
      · exact ne_zero_of_isspace (hb 0 h) rfl
  have hback : skipSpace (a ++ (m ++ b)).reverse = some (a ++ m).reverse := by
    obtain ⟨l, c, rfl, hc⟩ := hm.last
    rw [← append_assoc, reverse_append, skipSpace_append fun c h => hb c (mem_reverse.1 h),
      ← append_assoc, reverse_append, reverse_singleton, singleton_append, skipSpace, hc]
    rfl
  have hlen : (a ++ m).reverse.length + (m ++ (b ++ [0])).length -
      (a ++ (m ++ (b ++ [0]))).length = m.length := by
    simp only [length_reverse, length_append]
    omega
  unfold trim
  rw [hhead, hnul]
  dsimp only [Option.bind_eq_bind, Option.bind_some]
  rw [hback]
  dsimp only [Option.bind_some]
  rw [hlen, take_left]

/-- A blank string makes the loop over white space at the end run out of the block. -/
theorem trim_blank : trim (a ++ [0]) = none := by
  have hback : skipSpace a.reverse = none := by
    rw [← append_nil a.reverse, skipSpace_append fun c h => ha c (mem_reverse.1 h)]
    rfl
  unfold trim
  rw [skipSpace_append ha, toNul_append fun h0 => ne_zero_of_isspace (ha 0 h0) rfl]
  change (skipSpace a.reverse).bind _ = none
  rw [hback]
  rfl

end

/-- A string that is not terminated in its block is read over the end of it. -/
theorem trim_of_notMem {s : Str} (hs : 0 ∉ s) : trim s = none := by
  unfold trim
  rw [toNul_of_notMem hs]
  cases skipSpace s <;> rfl

/-! ## Variables -/

/-- `struct variable`. The list of variables is the list that the pointers `next` make. -/
structure Variable where
  name : Str
  values : Option ℕ

/-- `addToEnvironment`, where `values` is what the new block holds. -/
def addToEnvironment (name : Str) (values : Option ℕ) : List Variable → Option (List Variable)
  | [] => if name.length < MAX_VAR_NAME then some [⟨name, values⟩] else none
  | var :: head => (addToEnvironment name values head).map (var :: ·)

def environLookup (name : Str) (head : List Variable) : Option Variable :=
  head.find? (·.name = name)

/-- `var->values = p` for the variable that `environLookup` finds. -/
def setValues (name : Str) (p : ℕ) : List Variable → List Variable
  | [] => []
  | var :: head =>
    if var.name = name then { var with values := some p } :: head
    else var :: setValues name p head

def addValueToVariable (name : Str) (head : List Variable) (value : Str) (h : Heap) :
    Option (List Variable × Heap) :=
  match environLookup name head with
  | none => some (head, h)
  | some var =>
    if value.length < MAX_VAR_VAL then
      some (setValues name h.size head, h.alloc fun _ => ⟨value, var.values⟩)
    else none

/-- `readln` for at most `n` bytes: the line, and what is left of the file. -/
def readln : ℕ → Str → Str × Str
  | 0, file => ([], file)
  | _, [] => ([], [])
  | n + 1, c :: file =>
    if c = ch '\n' ∨ c = ch '\r' then ([c], file)
    else ((c :: (readln n file).1), (readln n file).2)

/-- What `malloc` finds in the blocks of a line: the field `values` of the variable, and the last
bytes of the two copies of parts of the line. -/
structure Junk where
  values : Option ℕ
  nameEnd : UInt8
  valueEnd : UInt8

/-- The loop of `parseEnvFile` from line `i` on. -/
def parseLoop (junk : ℕ → Junk) :
    ℕ → ℕ → Str → List Variable → Heap → Option (List Variable × Heap)
  | 0, _, _, _, _ => none
  | fuel + 1, i, file, head, h =>
    let line := (readln (MAX_VAR_LINE - 1) file).1.takeWhile (· ≠ 0)
    match line.dropWhile (· ≠ ch '=') with
    | [] => some (head, h)
    | _ :: rest => do
        let varName ← trim (line.takeWhile (· ≠ ch '=') ++ [(junk i).nameEnd])
        let head ← addToEnvironment varName (junk i).values head
        let varValue ← trim (rest ++ [(junk i).valueEnd])
        let (head, h) ← addValueToVariable varName head varValue h
        parseLoop junk fuel (i + 1) (readln (MAX_VAR_LINE - 1) file).2 head h

/-- `parseEnvFile`. Every line takes a byte of the file. -/
def parseEnvFile (junk : ℕ → Junk) (file : Str) (head : List Variable) (h : Heap) :
    Option (List Variable × Heap) :=
  parseLoop junk (file.length + 1) 0 file head h

/-- The values given for a name, the most recent first. -/
def valuesOf (n : Str) (ls : List (Str × Str)) : List Str :=
  ((ls.filter (·.1 = n)).map Prod.snd).reverse

/-- What the field `values` of the first variable with a name held when it was made. -/
def stale (junk : ℕ → Junk) (ls : List (Str × Str)) (n : Str) : Option ℕ :=
  (junk ((ls.map Prod.fst).idxOf n)).values

/-- The variables have the values that were given, and behind them what their first blocks held. -/
structure Holds (junk : ℕ → Junk) (head : List Variable) (h : Heap) (ls : List (Str × Str)) :
    Prop where
  found : ∀ n v, environLookup n head = some v →
    n ∈ ls.map Prod.fst ∧ Seg h 0 v.values (stale junk ls n) (valuesOf n ls)
  absent : ∀ n, environLookup n head = none → n ∉ ls.map Prod.fst

variable {head : List Variable} {ls : List (Str × Str)} {name value : Str} {junk : ℕ → Junk}

theorem addToEnvironment_eq (name : Str) (values : Option ℕ) (head : List Variable) :
    addToEnvironment name values head =
      if name.length < MAX_VAR_NAME then some (head ++ [⟨name, values⟩]) else none := by
  induction head with
  | nil => rfl
  | cons var head ih =>
    rw [addToEnvironment, ih]
    split <;> rfl

theorem environLookup_append (n : Str) (v : Variable) : environLookup n (head ++ [v]) =
    (environLookup n head).or (if v.name = n then some v else none) := by
  rw [environLookup, find?_append, find?_singleton]
  simp only [decide_eq_true_eq]
  rfl

theorem environLookup_setValues (n : Str) (p : ℕ) : environLookup n (setValues name p head) =
    if n = name then (environLookup n head).map fun v => { v with values := some p }
    else environLookup n head := by
  induction head with
  | nil => split <;> rfl
  | cons var head ih =>
    unfold environLookup at ih ⊢
    rw [setValues]
    by_cases hv : var.name = name
    · by_cases hn : n = name
      · simp [hv, hn]
      · simp [hv, hn, Ne.symm hn]
    · by_cases hn : var.name = n
      · have hne : n ≠ name := fun h => hv (hn.trans h)
        simp [hn, hne]
      · rw [if_neg hv, find?_cons_of_neg (by simpa using hn), ih,
          find?_cons_of_neg (by simpa using hn)]

theorem valuesOf_append (n : Str) : valuesOf n (ls ++ [(name, value)]) =
    if name = n then value :: valuesOf n ls else valuesOf n ls := by
  unfold valuesOf
  rw [filter_append, map_append, reverse_append]
  by_cases h : name = n
  · simp [h]
  · simp [h]

theorem valuesOf_of_notMem {n : Str} (hn : n ∉ ls.map Prod.fst) : valuesOf n ls = [] := by
  have hnil : ls.filter (·.1 = n) = [] :=
    filter_eq_nil_iff.2 fun x hx h => hn (mem_map.2 ⟨x, hx, of_decide_eq_true h⟩)
  rw [valuesOf, hnil]
  rfl

theorem stale_append_of_mem {n : Str} (hn : n ∈ ls.map Prod.fst) (x : Str × Str) :
    stale junk (ls ++ [x]) n = stale junk ls n := by
  rw [stale, map_append, idxOf_append_of_mem hn]
  rfl

theorem stale_append_self (hn : name ∉ ls.map Prod.fst) :
    stale junk (ls ++ [(name, value)]) name = (junk ls.length).values := by
  rw [stale, map_append, idxOf_append_of_notMem hn, length_map, map_singleton, idxOf_cons_self]
  rfl

/-- A variable with the name is added, and the first one with the name, old or new, gets the
value, before those that it had. -/
theorem Holds.push (hH : Holds junk head h ls) (name value : Str) : ∃ v,
    environLookup name (head ++ [⟨name, (junk ls.length).values⟩]) = some v ∧
      Holds junk (setValues name h.size (head ++ [⟨name, (junk ls.length).values⟩]))
        (h.alloc fun _ => ⟨value, v.values⟩) (ls ++ [(name, value)]) := by
  obtain ⟨v, hv, hseg⟩ : ∃ v,
      environLookup name (head ++ [⟨name, (junk ls.length).values⟩]) = some v ∧
        Seg h 0 v.values (stale junk (ls ++ [(name, value)]) name) (valuesOf name ls) := by
    rw [environLookup_append, if_pos rfl]
    cases hold : environLookup name head with
    | some v =>
      obtain ⟨hmem, hseg⟩ := hH.found name v hold
      rw [stale_append_of_mem hmem]
      exact ⟨v, rfl, hseg⟩
    | none =>
      have hmem := hH.absent name hold
      rw [stale_append_self hmem, valuesOf_of_notMem hmem]
      exact ⟨_, rfl, rfl⟩
  have hkeep : ∀ {a b l}, Seg h 0 a b l → Seg (h.alloc fun _ => ⟨value, v.values⟩) 0 a b l :=
    fun hl => hl.congr (Nat.le_succ _) le_rfl fun q _ hq => h.alloc_of_ne hq.ne
  refine ⟨v, hv, fun n w hw => ?_, fun n hn => ?_⟩
  · rw [environLookup_setValues] at hw
    rw [valuesOf_append, map_append, mem_append]
    by_cases hn : n = name
    · subst hn
      rw [if_pos rfl, hv] at hw
      cases hw
      rw [if_pos rfl]
      refine ⟨.inr mem_cons_self, h.size, rfl, Nat.zero_le _, Nat.lt_succ_self _, ?_⟩
      rw [h.alloc_self]
      exact ⟨rfl, hkeep hseg⟩
    · rw [if_neg hn, environLookup_append, if_neg (Ne.symm hn), Option.or_none] at hw
      obtain ⟨hmem, hl⟩ := hH.found n w hw
      rw [if_neg (Ne.symm hn), stale_append_of_mem hmem]
      exact ⟨.inl hmem, hkeep hl⟩
  · rw [environLookup_setValues] at hn
    rw [map_append, mem_append, map_singleton, mem_singleton, not_or]
    by_cases hne : n = name
    · rw [if_pos hne, hne, hv] at hn
      cases hn
    · rw [if_neg hne, environLookup_append, Option.or_eq_none_iff] at hn
      exact ⟨hH.absent n hn.1, hne⟩

/-! ## The file -/

/-- A line `NAME=VALUE`, with the white space around the two. -/
structure Line where
  before : Str
  name : Str
  behind : Str
  gap : Str
  value : Str
  tail : Str

namespace Line

/-- The line up to the end of the value. -/
def body (l : Line) : Str := (l.before ++ l.name ++ l.behind) ++ ch '=' :: (l.gap ++ l.value)

def bytes (l : Line) : Str := l.body ++ l.tail ++ [ch '\n']

/-- The name is a word. The value may be blank, and is empty then. -/
structure Valid (l : Line) : Prop where
  before : Blank l.before
  name : Word l.name
  eq_notMem : ch '=' ∉ l.name
  behind : Blank l.behind
  gap : Blank l.gap
  value : l.value = [] ∨ Word l.value
  tail : Blank l.tail

/-- The line is read inside of the buffers: the value is not blank, the name fits into a variable,
and the bytes behind the two copies happen to be zero. -/
structure Reads (l : Line) (j : Junk) : Prop where
  value_ne : l.value ≠ []
  name_lt : l.name.length < MAX_VAR_NAME
  nameEnd : j.nameEnd = 0
  valueEnd : j.valueEnd = 0

variable {l : Line}

theorem ne_of_blank {s : Str} (hs : Blank s) : ∀ c ∈ s, c ≠ 0 ∧ c ≠ ch '\n' ∧ c ≠ ch '\r' :=
  fun c hc => ⟨ne_zero_of_isspace (hs c hc).1, (hs c hc).2⟩

theorem eq_notMem_of_isspace {s : Str} (hs : ∀ c ∈ s, isspace c = true) : ch '=' ∉ s :=
  fun h => absurd (hs _ h) (by decide)

namespace Valid

theorem text_ne (hl : l.Valid) : ∀ c ∈ l.body ++ l.tail, c ≠ 0 ∧ c ≠ ch '\n' ∧ c ≠ ch '\r' := by
  intro c hc
  simp only [body, mem_append, mem_cons] at hc
  rcases hc with (((h | h) | h) | rfl | (h | h)) | h
  · exact ne_of_blank hl.before c h
  · exact hl.name.text c h
  · exact ne_of_blank hl.behind c h
  · decide
  · exact ne_of_blank hl.gap c h
  · rcases hl.value with hv | hv
    · rw [hv] at h
      cases h
    · exact hv.text c h
  · exact ne_of_blank hl.tail c h

theorem eq_notMem_left (hl : l.Valid) : ch '=' ∉ l.before ++ l.name ++ l.behind := by
  simp only [mem_append, not_or]
  exact ⟨⟨eq_notMem_of_isspace fun c hc => (hl.before c hc).1, hl.eq_notMem⟩,
    eq_notMem_of_isspace fun c hc => (hl.behind c hc).1⟩

theorem trim_name (hl : l.Valid) (e : UInt8) : trim (l.before ++ l.name ++ l.behind ++ [e]) =
    if e = 0 then some l.name else none := by
  by_cases he : e = 0
  · rw [if_pos he, he, append_assoc, append_assoc]
    exact trim_eq (fun c hc => (hl.before c hc).1) hl.name fun c hc => (hl.behind c hc).1
  · rw [if_neg he]
    refine trim_of_notMem fun h0 => ?_
    simp only [mem_append, mem_singleton] at h0
    rcases h0 with ((h | h) | h) | h
    · exact (ne_of_blank hl.before _ h).1 rfl
    · exact (hl.name.text _ h).1 rfl
    · exact (ne_of_blank hl.behind _ h).1 rfl
    · exact he h.symm

theorem trim_value (hl : l.Valid) {t : Str} (ht : ∀ c ∈ t, isspace c = true) (e : UInt8) :
    trim (l.gap ++ l.value ++ t ++ [e]) =
      if e = 0 ∧ l.value ≠ [] then some l.value else none := by
  by_cases he : e = 0
  · rw [he, append_assoc, append_assoc]
    rcases hl.value with hv | hv
    · rw [if_neg fun h => h.2 hv, hv, nil_append, ← append_assoc]
      exact trim_blank fun c hc => (mem_append.1 hc).elim (fun h => (hl.gap c h).1) (ht c)
    · have hne : l.value ≠ [] := by
        obtain ⟨c, w, hw, -⟩ := hv.first
        rw [hw]
        exact cons_ne_nil _ _
      rw [if_pos ⟨rfl, hne⟩]
      exact trim_eq (fun c hc => (hl.gap c hc).1) hv ht
  · rw [if_neg fun h => he h.1]
    refine trim_of_notMem fun h0 => ?_
    rcases mem_append.1 h0 with h | h
    · rcases mem_append.1 h with h | h
      · exact (hl.text_ne 0 (mem_append_left _ (mem_append_right _ (mem_cons_of_mem _ h)))).1 rfl
      · exact ne_zero_of_isspace (ht 0 h) rfl
    · exact he (mem_singleton.1 h).symm

end Valid

end Line

section

variable {t file : Str} (ht : ∀ c ∈ t, c ≠ ch '\n' ∧ c ≠ ch '\r') {n : ℕ}

include ht

theorem readln_line (hn : t.length < n) :
    readln n (t ++ ch '\n' :: file) = (t ++ [ch '\n'], file) := by
  induction t generalizing n with
  | nil =>
    obtain ⟨n, rfl⟩ := Nat.exists_eq_succ_of_ne_zero (Nat.ne_zero_of_lt hn)
    exact if_pos (Or.inl rfl)
  | cons c t ih =>
    obtain ⟨n, rfl⟩ := Nat.exists_eq_succ_of_ne_zero (Nat.ne_zero_of_lt hn)
    obtain ⟨hc, ht⟩ := forall_mem_cons.1 ht
    rw [cons_append, readln, if_neg (not_or.2 hc), ih ht (Nat.lt_of_succ_lt_succ hn)]
    rfl

/-- A line that does not fit is cut off. -/
theorem readln_cut (hn : n ≤ t.length) : readln n (t ++ file) = (t.take n, t.drop n ++ file) := by
  induction t generalizing n with
  | nil =>
    cases Nat.le_zero.1 hn
    rfl
  | cons c t ih =>
    cases n with
    | zero => rfl
    | succ n =>
      obtain ⟨hc, ht⟩ := forall_mem_cons.1 ht
      rw [cons_append, readln, if_neg (not_or.2 hc), ih ht (Nat.le_of_succ_le_succ hn)]
      rfl

end

theorem mem_of_mem_readln {c : UInt8} (n : ℕ) (file : Str) (hc : c ∈ (readln n file).1) :
    c ∈ file := by
  fun_induction readln n file with
  | case1 => cases hc
  | case2 => cases hc
  | case3 => exact mem_cons.2 (.inl (mem_singleton.1 hc))
  | case4 n d file _ ih => exact (mem_cons.1 hc).elim (mem_cons.2 ∘ .inl) (mem_cons_of_mem _ ∘ ih)

/-- A line without `=` ends the loop. -/
theorem parseLoop_end {file : Str} (hfile : ch '=' ∉ file) (fuel i : ℕ) (head : List Variable)
    (h : Heap) : parseLoop junk (fuel + 1) i file head h = some (head, h) := by
  have hline : ch '=' ∉ (readln (MAX_VAR_LINE - 1) file).1.takeWhile (· ≠ 0) :=
    fun hc => hfile (mem_of_mem_readln _ _ ((takeWhile_sublist _).subset hc))
  rw [parseLoop]
  simp only [dropWhile_of_notMem hline]

/-- One pass over a line of which at least the part up to the end of the value is read. -/
theorem parseLoop_line {l : Line} (hl : l.Valid) (hlt : l.body.length < MAX_VAR_LINE)
    {t file rest : Str} (ht : ∀ c ∈ t, isspace c = true)
    (hread : readln (MAX_VAR_LINE - 1) file = (l.body ++ t, rest)) (hH : Holds junk head h ls)
    (fuel : ℕ) :
    (l.Reads (junk ls.length) ∧ ∃ head' h', Holds junk head' h' (ls ++ [(l.name, l.value)]) ∧
      parseLoop junk (fuel + 1) ls.length file head h =
        parseLoop junk fuel (ls.length + 1) rest head' h') ∨
    (¬l.Reads (junk ls.length) ∧ parseLoop junk (fuel + 1) ls.length file head h = none) := by
  have hvalue : l.value.length < 1024 := by
    have hlt : l.body.length < 1024 := hlt
    simp only [Line.body, length_append, length_cons] at hlt
    omega
  have hnul : (l.body ++ t).takeWhile (· ≠ 0) = l.body ++ t := by
    refine takeWhile_eq_self_iff.2 fun c hc => decide_eq_true ?_
    rcases mem_append.1 hc with h | h
    · exact (hl.text_ne c (mem_append_left _ h)).1
    · exact ne_zero_of_isspace (ht c h)
  have hline : l.body ++ t = (l.before ++ l.name ++ l.behind) ++
      ch '=' :: (l.gap ++ l.value ++ t) := by
    rw [Line.body, append_assoc, cons_append]
  rw [parseLoop]
  simp only [hread, hnul]
  rw [hline, dropWhile_cut hl.eq_notMem_left, takeWhile_cut hl.eq_notMem_left]
  simp only [hl.trim_name, hl.trim_value ht]
  by_cases hr : l.Reads (junk ls.length)
  · obtain ⟨v, hv, hH'⟩ := hH.push l.name l.value
    refine .inl ⟨hr, _, _, hH', ?_⟩
    rw [if_pos hr.nameEnd, if_pos ⟨hr.valueEnd, hr.value_ne⟩]
    simp only [Option.bind_eq_bind, Option.bind_some, addToEnvironment_eq, if_pos hr.name_lt,
      addValueToVariable, hv, if_pos hvalue]
  · refine .inr ⟨hr, ?_⟩
    by_cases hname : (junk ls.length).nameEnd = 0
    · rw [if_pos hname]
      by_cases hlen : l.name.length < MAX_VAR_NAME
      · have hval : ¬((junk ls.length).valueEnd = 0 ∧ l.value ≠ []) :=
          fun h => hr ⟨h.2, hlen, hname, h.1⟩
        simp only [if_neg hval, Option.bind_eq_bind, Option.bind_some, addToEnvironment_eq,
          if_pos hlen, Option.bind_none]
      · simp only [Option.bind_eq_bind, Option.bind_some, addToEnvironment_eq, if_neg hlen,
          Option.bind_none]
    · rw [if_neg hname]
      rfl

/-- No value is cut off by the buffer, and no line but the last. -/
def Whole : List Line → Prop
  | [] => True
  | l :: lines => (lines = [] ∧ l.body.length < MAX_VAR_LINE ∨ l.bytes.length < MAX_VAR_LINE) ∧
      Whole lines

/-- What is read of a line, and what is left of the file. -/
theorem readln_whole {l : Line} (hl : l.Valid) {lines : List Line} (hw : Whole (l :: lines)) :
    ∃ t rest, (∀ c ∈ t, isspace c = true) ∧ l.body.length < MAX_VAR_LINE ∧
      readln (MAX_VAR_LINE - 1) ((l :: lines).flatMap Line.bytes) = (l.body ++ t, rest) ∧
      (rest = lines.flatMap Line.bytes ∨ lines = [] ∧ ch '=' ∉ rest) := by
  have hne : ∀ c ∈ l.body ++ l.tail, c ≠ ch '\n' ∧ c ≠ ch '\r' := fun c hc => (hl.text_ne c hc).2
  have hspace : ∀ c ∈ l.tail ++ [ch '\n'], isspace c = true := by
    intro c hc
    rcases mem_append.1 hc with h | h
    · exact (hl.tail c h).1
    · rw [mem_singleton.1 h]
      decide
  have hbytes : l.bytes.length = (l.body ++ l.tail).length + 1 := by
    rw [Line.bytes, length_append, length_singleton]
  by_cases hlt : l.bytes.length < MAX_VAR_LINE
  · refine ⟨l.tail ++ [ch '\n'], lines.flatMap Line.bytes, hspace, ?_, ?_, .inl rfl⟩
    · rw [length_append] at hbytes
      omega
    · rw [flatMap_cons, Line.bytes, append_assoc, singleton_append, ← append_assoc l.body]
      exact readln_line hne (by omega)
  · obtain ⟨rfl, hbody⟩ := hw.1.resolve_right hlt
    have hle : l.body.length ≤ MAX_VAR_LINE - 1 := Nat.le_pred_of_lt hbody
    rw [flatMap_cons, flatMap_nil, append_nil, Line.bytes, readln_cut hne (by omega), take_append,
      take_of_length_le hle, drop_append, drop_of_length_le hle, nil_append]
    refine ⟨_, _, fun c hc => (hl.tail c (mem_of_mem_take hc)).1, hbody, rfl, .inr ⟨rfl, ?_⟩⟩
    refine Line.eq_notMem_of_isspace fun c hc => hspace c ?_
    exact (mem_append.1 hc).elim (fun h => mem_append_left _ (mem_of_mem_drop h))
      (mem_append_right _)

theorem length_le_flatMap (lines : List Line) :
    lines.length ≤ (lines.flatMap Line.bytes).length := by
  induction lines with
  | nil => exact le_rfl
  | cons l lines ih =>
    rw [flatMap_cons, length_append, Line.bytes, length_append, length_cons, length_singleton]
    omega

/-- All lines from number `i` on are read. -/
def AllRead (junk : ℕ → Junk) : List Line → ℕ → Prop
  | [], _ => True
  | l :: lines, i => l.Reads (junk i) ∧ AllRead junk lines (i + 1)

/-- The loop over all lines, by one pass after the other. -/
theorem parseLoop_lines {lines : List Line} (hlines : ∀ l ∈ lines, l.Valid) (hw : Whole lines)
    {fuel : ℕ} (hfuel : lines.length < fuel) (hH : Holds junk head h ls) :
    (AllRead junk lines ls.length ∧ ∃ head' h',
      parseLoop junk fuel ls.length (lines.flatMap Line.bytes) head h = some (head', h') ∧
        Holds junk head' h' (ls ++ lines.map fun l => (l.name, l.value))) ∨
    (¬AllRead junk lines ls.length ∧
      parseLoop junk fuel ls.length (lines.flatMap Line.bytes) head h = none) := by
  induction lines generalizing fuel head h ls with
  | nil =>
    obtain ⟨fuel, rfl⟩ := Nat.exists_eq_succ_of_ne_zero (Nat.ne_zero_of_lt hfuel)
    rw [map_nil, append_nil]
    exact .inl ⟨trivial, head, h, parseLoop_end not_mem_nil .., hH⟩
  | cons l lines ih =>
    obtain ⟨fuel, rfl⟩ := Nat.exists_eq_succ_of_ne_zero (Nat.ne_zero_of_lt hfuel)
    have hfuel := Nat.lt_of_succ_lt_succ hfuel
    obtain ⟨hl, hlines⟩ := forall_mem_cons.1 hlines
    obtain ⟨t, rest, ht, hlt, hread, hrest⟩ := readln_whole hl hw
    rw [AllRead, map_cons]
    obtain ⟨hr, head1, h1, hH1, hrun⟩ | ⟨hr, hrun⟩ := parseLoop_line hl hlt ht hread hH fuel
    · rw [hrun]
      -- what is left behind a last line that was cut off is read as a line without `=`
      obtain rfl | ⟨rfl, heq⟩ := hrest
      · have hls : (ls ++ [(l.name, l.value)]).length = ls.length + 1 := length_append
        have := ih hlines hw.2 hfuel hH1
        rw [hls, append_assoc, singleton_append] at this
        exact this.imp (fun h => ⟨⟨hr, h.1⟩, h.2⟩) fun h => ⟨fun h' => h.1 h'.2, h.2⟩
      · obtain ⟨fuel, rfl⟩ := Nat.exists_eq_succ_of_ne_zero (Nat.ne_zero_of_lt hfuel)
        exact .inl ⟨⟨hr, trivial⟩, head1, h1, parseLoop_end heq .., hH1⟩
    · exact .inr ⟨fun h => hr h.1, hrun⟩

/-- The file is read inside of the buffers, and each variable has the values that were given. -/
def Parsed (junk : ℕ → Junk) (lines : List Line) (h : Heap) : Prop :=
  ∃ head h', parseEnvFile junk (lines.flatMap Line.bytes) [] h = some (head, h') ∧
    ∀ l ∈ lines, ∃ v, environLookup l.name head = some v ∧
      Chain h' 0 v.values (valuesOf l.name (lines.map fun l => (l.name, l.value)))

theorem parsed_iff {lines : List Line} (hlines : ∀ l ∈ lines, l.Valid) (hw : Whole lines) :
    Parsed junk lines h ↔ AllRead junk lines 0 ∧
      ∀ l ∈ lines, (junk ((lines.map Line.name).idxOf l.name)).values = none := by
  have hstart : Holds junk [] h [] := ⟨fun _ _ => nofun, fun _ _ => not_mem_nil⟩
  obtain ⟨hread, head, h', hrun, hH⟩ | ⟨hread, hrun⟩ :=
    parseLoop_lines hlines hw (Nat.lt_succ_of_le (length_le_flatMap lines)) hstart
  · rw [nil_append] at hH
    have hnames : (lines.map fun l => (l.name, l.value)).map Prod.fst = lines.map Line.name := by
      rw [map_map]
      rfl
    -- behind the values that were given stands what the first block of the name held
    have hvar : ∀ l ∈ lines, ∃ v, environLookup l.name head = some v ∧ Seg h' 0 v.values
        (junk ((lines.map Line.name).idxOf l.name)).values
        (valuesOf l.name (lines.map fun l => (l.name, l.value))) := by
      intro l hl
      cases hv : environLookup l.name head with
      | some v =>
        have hseg := (hH.found _ _ hv).2
        rw [stale, hnames] at hseg
        exact ⟨v, rfl, hseg⟩
      | none =>
        have habsent := hH.absent _ hv
        rw [hnames] at habsent
        exact absurd (mem_map_of_mem hl) habsent
    constructor
    · rintro ⟨_, _, hrun', hall⟩
      cases hrun.symm.trans hrun'
      refine ⟨hread, fun l hl => ?_⟩
      obtain ⟨v, hv, hseg⟩ := hvar l hl
      obtain ⟨_, hv', hchain⟩ := hall l hl
      cases hv.symm.trans hv'
      exact hseg.end_unique hchain
    · rintro ⟨-, hnone⟩
      refine ⟨head, h', hrun, fun l hl => ?_⟩
      obtain ⟨v, hv, hseg⟩ := hvar l hl
      rw [hnone l hl] at hseg
      exact ⟨v, hv, hseg⟩
  · refine ⟨fun ⟨_, _, hrun', _⟩ => ?_, fun h => absurd h.1 hread⟩
    cases hrun.symm.trans hrun'

/-- A line with a name and a value of one letter. -/
def sampleLine (blank : Str) (name value : UInt8) : Line :=
  ⟨[], [name], blank, blank, [value], blank⟩

abbrev Letter (c : UInt8) : Prop :=
  isspace c = false ∧ (c ≠ 0 ∧ c ≠ ch '\n' ∧ c ≠ ch '\r') ∧ ch '=' ≠ c

theorem Letter.word {c : UInt8} (hc : Letter c) : Word [c] :=
  ⟨⟨c, [], rfl, hc.1⟩, ⟨[], c, rfl, hc.1⟩, fun _ h => mem_singleton.1 h ▸ hc.2.1⟩

theorem valid_sampleLine {blank : Str} (hb : Blank blank) {name value : UInt8}
    (hn : Letter name) (hv : Letter value) : (sampleLine blank name value).Valid :=
  ⟨nofun, hn.word, fun h => hn.2.2 (mem_singleton.1 h), hb, hb, .inr hv.word, hb⟩

def sampleLines : List Line := [sampleLine [] (ch 'P') (ch 'x'),
  sampleLine [ch ' '] (ch 'Q') (ch 'y'), sampleLine [] (ch 'P') (ch 'w')]

/-- The block of the second variable with the name `P` has a stale pointer. -/
def sampleJunk (i : ℕ) : Junk := ⟨if i = 2 then some 5 else none, 0, 0⟩

end Qwin.Environ
