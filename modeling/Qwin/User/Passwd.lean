import Qwin.User.Scanf

/-!
# The password file

`getpwnam` and `getpwuid` of `getpwent.c` with the `fgets` of `foper.c`. The record and its texts
are static: what a line does not store is what an earlier line has stored.

A file has no end for `fgets`: where `read` finds nothing, `fread` reports a character all the
same, which is whatever `ch` holds.
-/

namespace Qwin.Passwd

open Chars (ch Str deref isspace)
open Scanf List

/-! ## Reading lines -/

/-- The file that is read, and the values of `ch` that nothing was read into. -/
structure File where
  content : Str
  garbage : ℕ → UInt8

namespace File

/-- `fread (&ch, 1, 1, f)` as call number `k`: what it returns, and `ch` -/
def fread (f : File) (k : ℕ) : ℕ × UInt8 := (1, f.content.getD k (f.garbage k))

/-- `fgetc`, where -1 is `EOF` -/
def fgetc (f : File) (k : ℕ) : ℤ := if (f.fread k).1 = 1 then (f.fread k).2.toNat else -1

/-- The loop of `fgets`, from call number `k` of `fgetc` on: the text or NULL, and the number of
the next call. -/
def fgetsLoop (f : File) : ℕ → ℕ → Str → Option Str × ℕ
  | n + 2, k, s =>
    if f.fgetc k = -1 then (if s = [] then none else some s, k + 1)
    else if f.fgetc k = (ch '\n').toNat then (some (s ++ [ch '\n']), k + 1)
    else f.fgetsLoop (n + 1) (k + 1) (s ++ [UInt8.ofNat (f.fgetc k).toNat])
  | _, k, s => (some s, k)

def fgets (f : File) (n k : ℕ) : Option Str × ℕ := f.fgetsLoop n k []

/-- The number of the first call of `fgetc` in call number `i` of `fgets`. -/
def start (f : File) : ℕ → ℕ
  | 0 => 0
  | i + 1 => (f.fgets 1024 (f.start i)).2

/-- Call number `i` of `fgets`. -/
def line (f : File) (i : ℕ) : Option Str := (f.fgets 1024 (f.start i)).1

end File

/-! ## Looking up -/

@[ext] structure Record where
  name : Str
  password : Str
  uid : ℕ
  gid : ℕ
  gecos : Str
  dir : Str
  shell : Str

def Record.zero : Record := ⟨[], [], 0, 0, [], [], []⟩

/-- A store through one of the seven arguments, if the text fits there. -/
def Record.store (r : Record) : Store → Option Record
  | .text 0 t => if t.length < 8 then some { r with name := t } else none
  | .text 1 t => if t.length < 1024 then some { r with password := t } else none
  | .number 2 v => some { r with uid := v }
  | .number 3 v => some { r with gid := v }
  | .text 4 t => if t.length < 1024 then some { r with gecos := t } else none
  | .text 5 t => if t.length < 1024 then some { r with dir := t } else none
  | .text 6 t => if t.length < 1024 then some { r with shell := t } else none
  | _ => none

def fmt : Str := "%s:%s:%d:%d:%s:%s:%s\n".toList.map Char.toUInt8

/-- The call of `sscanf` on `buf`, with the memory behind the format. -/
def parse (rodata buf : Str) (r : Record) : Option Record :=
  match sscanf buf (fmt ++ 0 :: rodata) with
  | none => none
  | some (st, _, _) => st.stores.foldlM Record.store r

inductive Key
  | name (s : Str)
  | uid (u : ℕ)

/-- The comparison of `getpwnam` or of `getpwuid`. -/
def Key.hits : Key → Record → Bool
  | name s, r => r.name = s
  | uid u, r => u = r.uid

/-- `buf` after `fgets` has stored a line there. -/
def fill (buf l : Str) : Str := l ++ 0 :: buf.drop (l.length + 1)

/-- The loop of `getpwnam` and of `getpwuid` from call number `i` of `fgets` on: NULL, or the
record with the line it was read from. -/
def lookupLoop (f : File) (rodata : Str) (key : Key) :
    ℕ → ℕ → Str → Record → Option (Option (Record × Str))
  | 0, _, _, _ => none
  | fuel + 1, i, buf, r =>
    match f.line i with
    | none => some none
    | some l =>
      match parse rodata (fill buf l) r with
      | none => none
      | some r =>
        if key.hits r then some (some (r, l))
        else lookupLoop f rodata key fuel (i + 1) (fill buf l) r

def getpwnam (f : File) (rodata : Str) (name : Str) (fuel : ℕ) (buf : Str) (r : Record) :
    Option (Option (Record × Str)) := lookupLoop f rodata (.name name) fuel 0 buf r

def getpwuid (f : File) (rodata : Str) (uid : ℕ) (fuel : ℕ) (buf : Str) (r : Record) :
    Option (Option (Record × Str)) := lookupLoop f rodata (.uid uid) fuel 0 buf r

/-! ## Lines of a file -/

/-- A newline ends the text, `fgets` has room for it, and it holds no NUL. -/
structure Terminated (l : Str) : Prop where
  newline : ∃ t, l = t ++ [ch '\n'] ∧ ch '\n' ∉ t
  length : l.length < 1024
  nul : 0 ∉ l

section Fgets

variable {f : File}

theorem fgetc_eq (f : File) (k : ℕ) : f.fgetc k = (f.content.getD k (f.garbage k)).toNat :=
  if_pos rfl

theorem fgetc_ne_eof (f : File) (k : ℕ) : f.fgetc k ≠ -1 := by
  rw [fgetc_eq]
  omega

theorem fgetsLoop_ne_none (n k : ℕ) (s : Str) : (f.fgetsLoop n k s).1 ≠ none := by
  induction n generalizing k s with
  | zero => exact Option.some_ne_none s
  | succ n ih =>
    cases n with
    | zero => exact Option.some_ne_none s
    | succ n =>
      rw [File.fgetsLoop, if_neg (fgetc_ne_eof f k)]
      split
      · exact Option.some_ne_none _
      · exact ih _ _

theorem line_ne_none (f : File) (i : ℕ) : f.line i ≠ none := fgetsLoop_ne_none _ _ _

theorem fgetsLoop_of_newline {t : Str} (ht : ch '\n' ∉ t) {n k : ℕ} {s : Str}
    (hn : t.length + 1 < n)
    (hread : ∀ j, ∀ h : j < (t ++ [ch '\n']).length,
      f.content.getD (k + j) (f.garbage (k + j)) = (t ++ [ch '\n'])[j]) :
    f.fgetsLoop n k s = (some (s ++ t ++ [ch '\n']), k + t.length + 1) := by
  induction t generalizing n k s with
  | nil =>
    obtain ⟨n, rfl⟩ : ∃ m, n = m + 2 := ⟨n - 2, by simp at hn; omega⟩
    have h0 : f.fgetc k = (ch '\n').toNat := by
      rw [fgetc_eq]
      exact congrArg (fun c : UInt8 => (c.toNat : ℤ)) (hread 0 (by simp))
    rw [File.fgetsLoop, if_neg (fgetc_ne_eof f k), if_pos h0]
    simp
  | cons c t ih =>
    rw [mem_cons, not_or] at ht
    obtain ⟨hc, ht'⟩ := ht
    obtain ⟨n, rfl⟩ : ∃ m, n = m + 2 := ⟨n - 2, by simp at hn; omega⟩
    have h0 : f.fgetc k = c.toNat := by
      rw [fgetc_eq]
      exact congrArg (fun c : UInt8 => (c.toNat : ℤ)) (hread 0 (by simp))
    have hne : f.fgetc k ≠ (ch '\n').toNat := by
      rw [h0]
      intro he
      exact hc (UInt8.toNat_inj.1 (by exact_mod_cast he.symm))
    rw [File.fgetsLoop, if_neg (fgetc_ne_eof f k), if_neg hne, ih ht' (by simp at hn; omega), h0]
    · simp
      omega
    · intro j hj
      have := hread (j + 1) (by simp at hj ⊢; omega)
      rw [Nat.add_assoc, Nat.add_comm 1 j]
      simpa using this

theorem fgets_append {pre l post : Str} (hl : Terminated l) (hf : f.content = pre ++ l ++ post) :
    f.fgets 1024 pre.length = (some l, pre.length + l.length) := by
  obtain ⟨t, rfl, ht⟩ := hl.newline
  have hlen := hl.length
  rw [length_append, length_singleton] at hlen ⊢
  rw [File.fgets, fgetsLoop_of_newline ht (by omega)]
  · rw [nil_append, Nat.add_assoc]
  · intro j hj
    have hlt : pre.length + j < f.content.length := by
      rw [hf, length_append, length_append]
      omega
    rw [getD_eq_getElem?_getD, List.getElem?_eq_getElem hlt, Option.getD_some]
    simp only [hf]
    rw [getElem_append_left (by rw [length_append]; omega),
      getElem_append_right (Nat.le_add_right _ _)]
    simp

section

variable {ls : List Str} (hls : ∀ l ∈ ls, Terminated l) (hf : f.content = ls.flatten)
include hf

theorem content_split {i : ℕ} (hi : i < ls.length) :
    f.content = (ls.take i).flatten ++ ls[i] ++ (ls.drop (i + 1)).flatten := by
  conv_lhs => rw [hf, ← take_append_drop (i + 1) ls, flatten_append,
    take_succ_eq_append_getElem hi, flatten_append, flatten_singleton]

include hls

/-- The first calls of `fgets` return the lines of the file. -/
theorem start_eq : ∀ i ≤ ls.length, f.start i = (ls.take i).flatten.length := by
  intro i hi
  induction i with
  | zero => rfl
  | succ i ih =>
    rw [File.start, ih (by omega), fgets_append (hls _ (getElem_mem _)) (content_split hf hi),
      take_succ_eq_append_getElem hi, flatten_append, flatten_singleton, length_append]

theorem line_eq {i : ℕ} (hi : i < ls.length) : f.line i = some ls[i] := by
  rw [File.line, start_eq hls hf i hi.le, fgets_append (hls _ (getElem_mem _)) (content_split hf hi)]

end

end Fgets

theorem lookupLoop_ne_null (f : File) (rodata : Str) (key : Key) (fuel i : ℕ) (buf : Str)
    (r : Record) : lookupLoop f rodata key fuel i buf r ≠ some none := by
  induction fuel generalizing i buf r with
  | zero => exact (Option.some_ne_none _).symm
  | succ fuel ih =>
    rw [lookupLoop]
    split
    next hnone => exact absurd hnone (line_ne_none f i)
    · split
      · exact (Option.some_ne_none _).symm
      · split
        · exact fun h => Option.some_ne_none _ (Option.some.inj h)
        · exact ih _ _ _

/-- `fgets` on an empty file, where `ch` happens to be a newline. -/
theorem fgets_past_end : File.line ⟨[], fun _ => ch '\n'⟩ 0 = some [ch '\n'] := by
  decide +kernel

end Qwin.Passwd
