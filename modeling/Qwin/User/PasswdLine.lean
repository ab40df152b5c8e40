import Qwin.User.Passwd

/-!
# Lines of the password file

What `sscanf` makes of a line. It reads the seven fields of a record, and then goes past the end
of the line and of the format, unless the last field is empty. Fields that a line does not have
are left as they were.
-/

namespace Qwin.Passwd

open Chars (ch Str deref isspace)
open Scanf List

def kinds : List Scanf.Kind := [.word, .word, .number, .number, .word, .word]

theorem fmt_eq : fmt = format kinds := by decide

theorem follows_sscanf {l : Str} (h0 : 0 ∉ l) (rodata z : Str) :
    Follows (rodata.length + 9) rodata z (sscanf (l ++ 0 :: z) (fmt ++ 0 :: rodata))
      (scanLine kinds l ⟨0, 0, []⟩) := by
  have hfuel : (fmt ++ 0 :: rodata).length + 1 = rodata.length + 9 + 2 * kinds.length + 2 := by
    rw [length_append, length_cons, show fmt.length = 21 by decide, show kinds.length = 6 from rfl]
    omega
  rw [sscanf, hfuel, fmt_eq]
  exact follows_scanLoop kinds h0 rodata z _

/-! ## Seven fields -/

structure Entry where
  name : Str
  password : Str
  uid : Str
  gid : Str
  gecos : Str
  dir : Str
  shell : Str

abbrev Plain (t : Str) : Prop := ∀ c ∈ t, plain c = true

/-- The text is a decimal number of 32 bits. -/
structure Decimal (t : Str) (v : ℕ) : Prop where
  ne : t ≠ []
  value : Atob.group 10 0 t = some v
  lt : v < 2 ^ 32

namespace Entry

def line (e : Entry) : Str :=
  e.name ++ ch ':' :: (e.password ++ ch ':' :: (e.uid ++ ch ':' :: (e.gid ++ ch ':' ::
    (e.gecos ++ ch ':' :: (e.dir ++ ch ':' :: (e.shell ++ [ch '\n']))))))

structure Valid (e : Entry) (uid gid : ℕ) : Prop where
  name : Plain e.name ∧ e.name.length < 8
  password : Plain e.password ∧ e.password.length < 1024
  uid : Decimal e.uid uid
  gid : Decimal e.gid gid
  gecos : Plain e.gecos ∧ e.gecos.length < 1024
  dir : Plain e.dir ∧ e.dir.length < 1024
  shell : Plain e.shell ∧ e.shell.length < 1024

/-- The texts of the two numbers fit into `tmp`. -/
def Fits (e : Entry) : Prop := e.uid.length < 256 ∧ e.gid.length < 256

instance (e : Entry) : Decidable e.Fits :=
  inferInstanceAs (Decidable (e.uid.length < 256 ∧ e.gid.length < 256))

def scan (e : Entry) (uid gid : ℕ) : Scan :=
  ⟨7, 7, [.text 0 e.name, .text 1 e.password, .number 2 uid, .number 3 gid, .text 4 e.gecos,
    .text 5 e.dir, .text 6 e.shell]⟩

end Entry

section Fields

variable {t r : Str} {ks : List Scanf.Kind} {st : Scan}

theorem not_isspace_of_plain {c : UInt8} (h : plain c = true) : isspace c = false := by
  have hall : ∀ n < 256, plain (UInt8.ofNat n) = true → isspace (UInt8.ofNat n) = false := by
    set_option maxRecDepth 4000 in decide
  have := hall c.toNat c.toNat_lt
  rw [UInt8.ofNat_toNat] at this
  exact this h

theorem skip_plain (ht : Plain t) (hr : skip r = r) : skip (t ++ r) = t ++ r := by
  cases t with
  | nil => exact hr
  | cons c t =>
    rw [cons_append, skip, dropWhile_cons, not_isspace_of_plain (ht c mem_cons_self)]
    rfl

theorem field_plain (ht : Plain t) (hr : skip (t ++ r) = t ++ r) (hsep : r.takeWhile plain = []) :
    field (t ++ r) = t := by
  rw [field, hr, takeWhile_append_of_pos ht, hsep, append_nil]

theorem rest_plain (ht : Plain t) (hr : skip (t ++ r) = t ++ r) (hsep : r.dropWhile plain = r) :
    rest (t ++ r) = r := by
  rw [rest, hr, dropWhile_append_of_pos ht, hsep]

theorem skip_field (ht : Plain t) : skip (t ++ ch ':' :: r) = t ++ ch ':' :: r := skip_plain ht rfl

theorem field_ne_nil (t r : Str) : t ++ ch ':' :: r ≠ [] := by simp

theorem behindColon_rest (ht : Plain t) : behindColon (rest (t ++ ch ':' :: r)) = some r := by
  rw [rest_plain ht (skip_field ht) rfl]
  rfl

theorem scanLine_word (ht : Plain t) :
    scanLine (.word :: ks) (t ++ ch ':' :: r) st = scanLine ks r (st.word t) := by
  rw [scanLine, if_neg (field_ne_nil t r), field_plain ht (skip_field ht) rfl, behindColon_rest ht]

theorem scanLine_last (ht : Plain t) :
    scanLine [] (t ++ [ch '\n']) st = some (st.word t, decide (t ≠ [])) := by
  have hne : t ++ [ch '\n'] ≠ [] := by simp
  rw [scanLine, if_neg hne]
  by_cases hnil : t = []
  · subst hnil
    rfl
  · have hskip : skip (t ++ [ch '\n']) = t ++ [ch '\n'] := by
      obtain ⟨c, t, rfl⟩ := exists_cons_of_ne_nil hnil
      rw [cons_append, skip, dropWhile_cons, not_isspace_of_plain (ht c mem_cons_self)]
      rfl
    rw [field_plain ht hskip rfl, rest_plain ht hskip rfl, decide_eq_true hnil]
    rfl

theorem digit_lt_of_group {base v w : ℕ} (h : Atob.group base v t = some w) {c : UInt8}
    (hc : c ∈ t) : ∃ d, Atob.digit c = some d ∧ d < base := by
  induction t generalizing v with
  | nil => exact absurd hc not_mem_nil
  | cons b t ih =>
    rw [Atob.group] at h
    cases hd : Atob.digit b with
    | none =>
      rw [hd] at h
      cases h
    | some d =>
      rw [hd] at h
      dsimp only at h
      split at h
      · cases h
      next hlt =>
        rcases mem_cons.1 hc with rfl | hc
        · exact ⟨d, hd, not_le.1 hlt⟩
        · exact ih h hc

theorem Decimal.plainText {v : ℕ} (h : Decimal t v) : Plain t := by
  intro c hc
  obtain ⟨d, hd, -⟩ := digit_lt_of_group h.value hc
  have hall : ∀ n < 256, Atob.digit (UInt8.ofNat n) ≠ none → plain (UInt8.ofNat n) = true := by
    set_option maxRecDepth 4000 in decide
  have := hall c.toNat c.toNat_lt
  rw [UInt8.ofNat_toNat, hd] at this
  exact this (Option.some_ne_none d)

theorem Decimal.atob {v : ℕ} (h : Decimal t v) (vp : ℕ) : Atob.atob vp t 10 = (1, v) := by
  have hmark : Atob.hexMark t = false := by
    match t, h with
    | [], _ => rfl
    | [_], _ => rfl
    | c :: d :: t, h =>
      refine decide_eq_false ?_
      rintro ⟨-, hd⟩
      obtain ⟨k, hk, -⟩ := digit_lt_of_group h.value (mem_cons_of_mem c (mem_cons_self (a := d)))
      rcases hd with rfl | rfl
      · cases (show Atob.digit (ch 'x') = none by decide).symm.trans hk
      · cases (show Atob.digit (ch 'X') = none by decide).symm.trans hk
  have hnum : Atob.numeral t 10 = .plain 10 t := by
    rw [Atob.numeral, if_neg (by decide), Atob.numeral64, Atob.hexBase, Atob.hexRest, hmark,
      if_neg Bool.false_ne_true, if_neg (fun hc => absurd hc.1 (by decide))]
    rfl
  rw [Atob.atob_eq, hnum, if_neg (show ¬ Atob.Numeral.Long (.plain 10 t) from id),
    show Atob.Numeral.value (.plain 10 t) = some v from
    h.value]
  exact congrArg (Prod.mk 1) (Nat.mod_eq_of_lt h.lt)

def withNumber (st : Scan) (v : ℕ) : Scan :=
  ⟨st.count + 1, st.args + 1, st.stores ++ [.number st.args v]⟩

theorem idxOf_colon (ht : Plain t) : (t ++ ch ':' :: r).idxOf? (ch ':') = some t.length := by
  have hcolon : ch ':' ∉ t := fun h => absurd (ht _ h) (by decide)
  rw [List.idxOf?_eq_some_iff]
  refine ⟨by simp, by simp, fun j hj => ?_⟩
  rw [getElem_append_left hj]
  intro he
  exact hcolon (he ▸ getElem_mem hj)

theorem scanLine_number {v : ℕ} (ht : Decimal t v) :
    scanLine (.number :: ks) (t ++ ch ':' :: r) st =
      if t.length < 256 then scanLine ks r (withNumber st v) else none := by
  have hnum : st.decimal t = withNumber st v := by
    rw [Scan.decimal, Scan.number, ht.atob]
    rfl
  rw [scanLine, if_neg (field_ne_nil t r), skip_field ht.plainText, idxOf_colon ht.plainText]
  dsimp only
  rw [take_left, hnum, ← drop_drop, drop_left, drop_one, tail_cons]
  by_cases hlen : t.length < 256
  · rw [if_neg (not_le.2 hlen), if_pos hlen]
  · rw [if_pos (not_lt.1 hlen), if_neg hlen]

end Fields

theorem Entry.scanLine_line {e : Entry} {uid gid : ℕ} (h : e.Valid uid gid) :
    scanLine kinds e.line ⟨0, 0, []⟩ =
      if e.Fits then some (e.scan uid gid, decide (e.shell ≠ [])) else none := by
  rw [Entry.line, kinds, scanLine_word h.name.1, scanLine_word h.password.1, scanLine_number h.uid,
    scanLine_number h.gid, scanLine_word h.gecos.1, scanLine_word h.dir.1, scanLine_last h.shell.1,
    ← ite_and]
  rfl

theorem zero_notMem_plain {t : Str} (ht : Plain t) : 0 ∉ t := fun h => absurd (ht 0 h) (by decide)

theorem Entry.zero_notMem_line {e : Entry} {uid gid : ℕ} (h : e.Valid uid gid) : 0 ∉ e.line := by
  have hcolon : (0 : UInt8) ≠ ch ':' := by decide
  have hnl : (0 : UInt8) ≠ ch '\n' := by decide
  simp [Entry.line, hcolon, hnl, zero_notMem_plain h.name.1, zero_notMem_plain h.password.1,
    zero_notMem_plain h.uid.plainText, zero_notMem_plain h.gid.plainText,
    zero_notMem_plain h.gecos.1, zero_notMem_plain h.dir.1, zero_notMem_plain h.shell.1]

theorem Entry.terminated {e : Entry} {uid gid : ℕ} (h : e.Valid uid gid)
    (hlen : e.line.length < 1024) : Terminated e.line := by
  have hplain : ∀ {t : Str}, Plain t → ch '\n' ∉ t := fun ht hc => absurd (ht _ hc) (by decide)
  have hcolon : ch '\n' ≠ ch ':' := by decide
  refine ⟨⟨e.name ++ ch ':' :: (e.password ++ ch ':' :: (e.uid ++ ch ':' :: (e.gid ++ ch ':' ::
    (e.gecos ++ ch ':' :: (e.dir ++ ch ':' :: e.shell))))), by simp [Entry.line], ?_⟩, hlen,
    Entry.zero_notMem_line h⟩
  simp [hcolon, hplain h.name.1, hplain h.password.1, hplain h.uid.plainText,
    hplain h.gid.plainText, hplain h.gecos.1, hplain h.dir.1, hplain h.shell.1]

/-- `sscanf` returns 7 and stores the fields, and both pointers stay inside of their strings. -/
def Inverts (e : Entry) (uid gid : ℕ) (rodata z : Str) : Prop :=
  ∃ x y, sscanf (e.line ++ 0 :: z) (fmt ++ 0 :: rodata) = some (e.scan uid gid, x, y) ∧
    rodata.length < x.length ∧ z.length < y.length

/-- The scanner inverts the format if and only if the last field is empty and the texts of the
two numbers fit into `tmp`. -/
theorem inverts_iff {e : Entry} {uid gid : ℕ} (h : e.Valid uid gid) (rodata z : Str) :
    Inverts e uid gid rodata z ↔ e.shell = [] ∧ e.Fits := by
  have hfollows := follows_sscanf (Entry.zero_notMem_line h) rodata z
  rw [Entry.scanLine_line h] at hfollows
  by_cases hfits : e.Fits
  · rw [if_pos hfits] at hfollows
    by_cases hshell : e.shell = []
    · rw [decide_eq_false (not_not.2 hshell)] at hfollows
      exact iff_of_true hfollows ⟨hshell, hfits⟩
    · rw [decide_eq_true hshell] at hfollows
      refine iff_of_false ?_ fun hc => hshell hc.1
      rintro ⟨x, y, hrun, hx, -⟩
      rw [show _ = _ from hfollows] at hrun
      exact absurd (scanLoop_extends hrun).1 (not_le.2 hx)
  · -- a store behind the end of `tmp`
    rw [if_neg hfits] at hfollows
    refine iff_of_false ?_ fun hc => hfits hc.2
    rintro ⟨x, y, hrun, -⟩
    cases (show _ = _ from hfollows).symm.trans hrun

/-- A record of one character for each text but the last one. -/
def sample (name c : UInt8) (shell : Str) : Entry := ⟨[name], [c], [c], [c], [c], [c], shell⟩

theorem sample_valid {name c : UInt8} {v : ℕ} {shell : Str} (hname : Plain [name])
    (hc : Decimal [c] v) (hshell : Plain shell ∧ shell.length < 1024) :
    (sample name c shell).Valid v v :=
  ⟨⟨hname, Nat.one_lt_succ_succ 6⟩, ⟨hc.plainText, Nat.one_lt_succ_succ 1022⟩, hc, hc,
    ⟨hc.plainText, Nat.one_lt_succ_succ 1022⟩, ⟨hc.plainText, Nat.one_lt_succ_succ 1022⟩, hshell⟩

theorem decimal_one : Decimal [ch '1'] 1 := ⟨by decide, by decide, by decide⟩

theorem decimal_two : Decimal [ch '2'] 2 := ⟨by decide, by decide, by decide⟩

theorem plain_singleton {c : UInt8} (h : plain c = true) : Plain [c] := by
  intro d hd
  rw [mem_singleton.1 hd]
  exact h

/-- The line `root:x:10:100::/root:`, in memory where other texts follow. -/
theorem inverts_iff_root :
    Inverts ⟨[ch 'r', ch 'o', ch 'o', ch 't'], [ch 'x'], [ch '1', ch '0'],
      [ch '1', ch '0', ch '0'], [], [ch '/', ch 'r', ch 'o', ch 'o', ch 't'], []⟩ 10 100
      [ch 'A', ch 'B'] [ch 'A', ch 'C'] := by
  have hplain : ∀ {t : Str}, t.all plain = true → Plain t := all_eq_true.1
  refine (inverts_iff ⟨?_, ?_, ?_, ?_, ?_, ?_, ?_⟩ _ _).2 ⟨rfl, by decide⟩
  · exact ⟨hplain (by decide), by decide⟩
  · exact ⟨hplain (by decide), by decide⟩
  · exact ⟨by decide, by decide, by decide⟩
  · exact ⟨by decide, by decide, by decide⟩
  · exact ⟨hplain (by decide), by decide⟩
  · exact ⟨hplain (by decide), by decide⟩
  · exact ⟨hplain (by decide), by decide⟩

/-- Behind the line of a record the scan goes on in the memory behind the two strings. -/
theorem sscanf_past_end :
    sscanf ((sample (ch 'a') (ch '1') [ch 's']).line ++ 0 :: [ch 'A', ch 'C'])
        (fmt ++ 0 :: [ch 'A', ch 'B']) =
      some ((sample (ch 'a') (ch '1') [ch 's']).scan 1 1, [ch 'B'], [ch 'C']) := by
  have hvalid : (sample (ch 'a') (ch '1') [ch 's']).Valid 1 1 :=
    sample_valid (plain_singleton (by decide)) decimal_one ⟨plain_singleton (by decide), by decide⟩
  have hrun := follows_sscanf (Entry.zero_notMem_line hvalid) [ch 'A', ch 'B'] [ch 'A', ch 'C']
  rw [Entry.scanLine_line hvalid] at hrun
  exact Eq.trans hrun (by decide +kernel)

end Qwin.Passwd
