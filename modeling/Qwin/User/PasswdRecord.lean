import Qwin.User.PasswdLine

/-!
# Records and their lines

If the record that a lookup returns depends on nothing but the line it was read from. It does so
for the lines that store all seven fields, and for no other line: the rest comes from the lines
before.
-/

namespace Qwin.Passwd

open Chars (ch Str deref isspace)
open Scanf List

/-! ## Fields -/

/-- Field number `k`: a text, or a number. -/
def Record.get (r : Record) : ℕ → Str × ℕ
  | 0 => (r.name, 0)
  | 1 => (r.password, 0)
  | 2 => ([], r.uid)
  | 3 => ([], r.gid)
  | 4 => (r.gecos, 0)
  | 5 => (r.dir, 0)
  | 6 => (r.shell, 0)
  | _ => ([], 0)

def stored : Store → Str × ℕ
  | .text _ t => (t, 0)
  | .number _ v => ([], v)

theorem Record.ext_get {x y : Record} (h : ∀ k < 7, x.get k = y.get k) : x = y := by
  apply Record.ext
  · exact (Prod.ext_iff.1 (h 0 (by decide))).1
  · exact (Prod.ext_iff.1 (h 1 (by decide))).1
  · exact (Prod.ext_iff.1 (h 2 (by decide))).2
  · exact (Prod.ext_iff.1 (h 3 (by decide))).2
  · exact (Prod.ext_iff.1 (h 4 (by decide))).1
  · exact (Prod.ext_iff.1 (h 5 (by decide))).1
  · exact (Prod.ext_iff.1 (h 6 (by decide))).1

theorem Record.get_store {r x : Record} {e : Store} (h : r.store e = some x) :
    e.arg < 7 ∧ ∀ k, x.get k = if k = e.arg then stored e else r.get k := by
  unfold Record.store at h
  split at h <;> (try split at h) <;> cases h
  all_goals
    refine ⟨by simp [Store.arg], fun k => ?_⟩
    rcases k with _ | _ | _ | _ | _ | _ | _ | k <;> simp [Record.get, stored, Store.arg]

/-- If a store is possible does not depend on the record. -/
theorem Record.exists_store {r x : Record} {e : Store} (h : r.store e = some x) (r' : Record) :
    ∃ x', r'.store e = some x' := by
  unfold Record.store at h ⊢
  split at h <;> (try split at h) <;> cases h
  all_goals exact ⟨_, by first | rfl | exact if_pos ‹_›⟩

section Stores

variable {es : List Store} {r r' x x' : Record}

theorem foldlM_cons_eq_some {e : Store} :
    (e :: es).foldlM Record.store r = some x ↔
      ∃ y, r.store e = some y ∧ es.foldlM Record.store y = some x := by
  rw [foldlM_cons]
  exact Option.bind_eq_some_iff

variable (h : es.foldlM Record.store r = some x)
include h

theorem exists_stores (r' : Record) : ∃ x', es.foldlM Record.store r' = some x' := by
  induction es generalizing r r' with
  | nil => exact ⟨r', rfl⟩
  | cons e es ih =>
    obtain ⟨y, hy, hx⟩ := foldlM_cons_eq_some.1 h
    obtain ⟨y', hy'⟩ := Record.exists_store hy r'
    obtain ⟨x', hx'⟩ := ih hx y'
    exact ⟨x', foldlM_cons_eq_some.2 ⟨y', hy', hx'⟩⟩

theorem arg_lt_of_stores : ∀ e ∈ es, e.arg < 7 := by
  induction es generalizing r with
  | nil => exact fun e he => absurd he not_mem_nil
  | cons e es ih =>
    obtain ⟨y, hy, hx⟩ := foldlM_cons_eq_some.1 h
    rw [forall_mem_cons]
    exact ⟨(Record.get_store hy).1, ih hx⟩

theorem get_of_notMem {k : ℕ} (hk : ∀ e ∈ es, e.arg ≠ k) : x.get k = r.get k := by
  induction es generalizing r with
  | nil =>
    cases h
    rfl
  | cons e es ih =>
    obtain ⟨y, hy, hx⟩ := foldlM_cons_eq_some.1 h
    rw [forall_mem_cons] at hk
    rw [ih hx hk.2, (Record.get_store hy).2, if_neg (Ne.symm hk.1)]

/-- A field that is stored is the same, whatever the record was. -/
theorem get_eq_of_stores (h' : es.foldlM Record.store r' = some x') {k : ℕ}
    (hk : r.get k = r'.get k ∨ ∃ e ∈ es, e.arg = k) : x.get k = x'.get k := by
  induction es generalizing r r' with
  | nil =>
    cases h
    cases h'
    rcases hk with hk | ⟨e, he, -⟩
    · exact hk
    · exact absurd he not_mem_nil
  | cons e es ih =>
    obtain ⟨y, hy, hx⟩ := foldlM_cons_eq_some.1 h
    obtain ⟨y', hy', hx'⟩ := foldlM_cons_eq_some.1 h'
    refine ih hx hx' ?_
    rw [(Record.get_store hy).2, (Record.get_store hy').2]
    by_cases he : k = e.arg
    · rw [if_pos he, if_pos he]
      exact Or.inl rfl
    · rw [if_neg he, if_neg he]
      rcases hk with hk | ⟨d, hd, hdk⟩
      · exact Or.inl hk
      · rcases mem_cons.1 hd with rfl | hd
        · exact absurd hdk.symm he
        · exact Or.inr ⟨d, hd, hdk⟩

end Stores

/-! ## Lines that store everything -/

/-- The line has a field for each conversion, with colons in between, and `atob` reads the
numbers. -/
def Complete : List Scanf.Kind → Str → Prop
  | [], l => l ≠ []
  | .word :: ks, l => l ≠ [] ∧ ∃ r, behindColon (rest l) = some r ∧ Complete ks r
  | .number :: ks, l => l ≠ [] ∧ ∃ i, (skip l).idxOf? (ch ':') = some i ∧
      (Atob.atob 0 ((skip l).take i) 10).1 = 1 ∧ Complete ks ((skip l).drop (i + 1))

section

variable (st : Scan) (t : Str)

theorem args_word :
    (st.word t).args = st.args + 1 ∧ (st.word t).stores = st.stores ++ [.text st.args t] :=
  ⟨rfl, rfl⟩

theorem args_decimal : (st.decimal t).args = st.args + 1 ∧ ((Atob.atob 0 t 10).1 = 1 ∧
        (st.decimal t).stores = st.stores ++ [.number st.args (Atob.atob 0 t 10).2] ∨
      (Atob.atob 0 t 10).1 ≠ 1 ∧ (st.decimal t).stores = st.stores) := by
  have hbit : (Atob.atob 0 t 10).1 = 0 ∨ (Atob.atob 0 t 10).1 = 1 := by
    rw [Atob.atob_eq]
    split
    · exact Or.inl rfl
    · split
      · exact Or.inr rfl
      · exact Or.inl rfl
  unfold Scan.decimal Scan.number
  split
  next v hv =>
    refine ⟨rfl, Or.inr ⟨?_, rfl⟩⟩
    rw [hv]
    exact zero_ne_one
  next n v hne hv =>
    rw [hv] at hbit ⊢
    refine ⟨rfl, Or.inl ⟨hbit.resolve_left fun h0 => ?_, rfl⟩⟩
    exact hne h0

theorem extends_word : Extends st (st.word t) := extends_text st t

theorem extends_decimal : Extends st (st.decimal t) := extends_number st t 10

end

section Lines

variable {ks : List Scanf.Kind} {l : Str} {st st' : Scan} {b : Bool}

theorem scanLine_extends (h : scanLine ks l st = some (st', b)) : Extends st st' := by
  induction ks generalizing l st with
  | nil =>
    rw [scanLine] at h
    split at h
    · cases h
      exact .refl _
    · cases h
      exact extends_text st _
  | cons k ks ih =>
    cases k with
    | word =>
      rw [scanLine] at h
      split at h
      · cases h
        exact .refl _
      · split at h
        · exact (extends_word st _).trans (ih h)
        · cases h
          exact extends_text st _
    | number =>
      rw [scanLine] at h
      split at h
      · cases h
        exact .refl _
      · split at h
        · cases h
        · split at h
          · cases h
          · exact (extends_decimal st _).trans (ih h)

theorem covered_cons {e : Store} {es : List Store} {a n m : ℕ} (hnm : n = m) (he : e.arg = a)
    (hall : ∀ k, a + 1 ≤ k → k < m → ∃ e ∈ es, e.arg = k) (k : ℕ) (hle : a ≤ k) (hlt : k < n) :
    ∃ e' ∈ e :: es, e'.arg = k := by
  rcases Nat.eq_or_lt_of_le hle with rfl | hlt'
  · exact ⟨e, mem_cons_self, he⟩
  · obtain ⟨e', he', hk⟩ := hall k hlt' (hnm ▸ hlt)
    exact ⟨e', mem_cons_of_mem _ he', hk⟩

theorem Complete.stores (hc : Complete ks l) (h : scanLine ks l st = some (st', b)) :
    st'.args = st.args + ks.length + 1 ∧ ∃ es, st'.stores = st.stores ++ es ∧
      ∀ k, st.args ≤ k → k < st.args + ks.length + 1 → ∃ e ∈ es, e.arg = k := by
  induction ks generalizing l st with
  | nil =>
    rw [scanLine, if_neg hc] at h
    cases h
    refine ⟨rfl, [_], rfl, fun k hle hlt => ⟨_, mem_singleton_self _, ?_⟩⟩
    rw [length_nil] at hlt
    rw [Store.arg]
    omega
  | cons k ks ih =>
    rw [length_cons]
    cases k with
    | word =>
      obtain ⟨hl, r, hr, hc⟩ := hc
      rw [scanLine, if_neg hl, hr] at h
      obtain ⟨hargs, es, hes, hall⟩ := ih hc h
      obtain ⟨hw, hstore⟩ := args_word st (field l)
      rw [hw] at hargs hall
      refine ⟨by omega, .text st.args (field l) :: es, ?_, covered_cons (by omega) rfl hall⟩
      rw [hes, hstore, append_assoc]
      rfl
    | number =>
      obtain ⟨hl, i, hi, hatob, hc⟩ := hc
      rw [scanLine, if_neg hl, hi] at h
      dsimp only at h
      split at h
      · cases h
      obtain ⟨hargs, es, hes, hall⟩ := ih hc h
      obtain ⟨hw, ⟨-, hstore⟩ | ⟨hno, -⟩⟩ := args_decimal st ((skip l).take i)
      · rw [hw] at hargs hall
        refine ⟨by omega, .number st.args (Atob.atob 0 ((skip l).take i) 10).2 :: es, ?_,
          covered_cons (by omega) rfl hall⟩
        rw [hes, hstore, append_assoc]
        rfl
      · exact absurd hatob hno

theorem scanLine_nil (ks : List Scanf.Kind) (st : Scan) : scanLine ks [] st = some (st, false) := by
  rcases ks with _ | ⟨_ | _, ks⟩ <;> rfl

/-- One of the next `n + 1` arguments is not stored to. -/
def Misses (n : ℕ) (st st' : Scan) : Prop :=
  ∃ es, st'.stores = st.stores ++ es ∧ ∃ k, st.args ≤ k ∧ k < st.args + n + 1 ∧
    ∀ e ∈ es, e.arg ≠ k

theorem misses_self (n : ℕ) (st : Scan) : Misses n st st :=
  ⟨[], by simp, st.args, le_rfl, by omega, fun _ he => absurd he not_mem_nil⟩

theorem Misses.cons {n : ℕ} {st₁ : Scan} {e : Store} (h : Misses n st₁ st')
    (hargs : st₁.args = st.args + 1) (hstore : st₁.stores = st.stores ++ [e])
    (harg : e.arg = st.args) : Misses (n + 1) st st' := by
  obtain ⟨es, hes, k, hle, hlt, hmiss⟩ := h
  refine ⟨e :: es, ?_, k, by omega, by omega, fun e' he => ?_⟩
  · rw [hes, hstore, append_assoc]
    rfl
  · rcases mem_cons.1 he with rfl | he
    · omega
    · exact hmiss e' he

theorem exists_missing (hc : ¬ Complete ks l) (h : scanLine ks l st = some (st', b)) :
    Misses ks.length st st' := by
  induction ks generalizing l st with
  | nil =>
    rw [scanLine, if_pos (not_not.1 hc)] at h
    cases h
    exact misses_self _ _
  | cons k ks ih =>
    rw [length_cons]
    by_cases hl : l = []
    · subst hl
      rw [scanLine_nil] at h
      cases h
      exact misses_self _ _
    cases k with
    | word =>
      obtain ⟨hw, hstore⟩ := args_word st (field l)
      rw [scanLine, if_neg hl] at h
      cases hr : behindColon (rest l) with
      | none =>
        rw [hr] at h
        cases h
        refine ⟨_, hstore, st.args + 1, by omega, by omega, fun e he => ?_⟩
        rw [mem_singleton.1 he, Store.arg]
        omega
      | some r =>
        rw [hr] at h
        exact (ih (fun hc' => hc ⟨hl, r, hr, hc'⟩) h).cons hw hstore rfl
    | number =>
      rw [scanLine, if_neg hl] at h
      cases hi : (skip l).idxOf? (ch ':') with
      | none =>
        rw [hi] at h
        cases h
      | some i =>
        rw [hi] at h
        dsimp only at h
        split at h
        · cases h
        obtain ⟨hw, ⟨hatob, hstore⟩ | ⟨-, hstore⟩⟩ := args_decimal st ((skip l).take i)
        · exact (ih (fun hc' => hc ⟨hl, i, hi, hatob, hc'⟩) h).cons hw hstore rfl
        · obtain ⟨-, es, hes, hargs⟩ := scanLine_extends h
          refine ⟨es, hes.trans (by rw [hstore]), st.args, le_rfl, by omega, fun e he => ?_⟩
          have := hargs e he
          omega

end Lines

/-! ## What a lookup returns -/

section Lookup

variable {f : File} {rodata buf l : Str} {key : Key} {n i : ℕ} {r x : Record} {st : Scan} {b : Bool}

theorem parse_of_lookupLoop (h : lookupLoop f rodata key n i buf r = some (some (x, l))) :
    ∃ buf' r', parse rodata (fill buf' l) r' = some x := by
  induction n generalizing i buf r with
  | zero => cases h
  | succ n ih =>
    rw [lookupLoop] at h
    split at h
    · cases h
    · split at h
      · cases h
      next hparse =>
        split at h
        · cases h
          exact ⟨buf, r, hparse⟩
        · exact ih h

/-- The stores of a call of `sscanf` are those of the line, and then stores through arguments
behind those of the line. -/
theorem stores_of_parse (h0 : 0 ∉ l) (h : parse rodata (fill buf l) r = some x) :
    ∃ st b more, scanLine kinds l ⟨0, 0, []⟩ = some (st, b) ∧
      (∀ e ∈ more, st.args ≤ e.arg) ∧ (st.stores ++ more).foldlM Record.store r = some x := by
  have hrun := follows_sscanf h0 rodata (buf.drop (l.length + 1))
  rw [parse, fill] at h
  match hline : scanLine kinds l ⟨0, 0, []⟩ with
  | none =>
    rw [hline] at hrun
    rw [show _ = _ from hrun] at h
    cases h
  | some (st, true) =>
    rw [hline] at hrun
    rw [show _ = _ from hrun] at h
    split at h
    · cases h
    next st' _ _ hloop =>
      obtain ⟨-, -, more, hmore, harg⟩ := scanLoop_extends hloop
      exact ⟨st, true, more, rfl, harg, hmore ▸ h⟩
  | some (st, false) =>
    rw [hline] at hrun
    obtain ⟨_, _, hout, -⟩ := hrun
    rw [hout] at h
    exact ⟨st, false, [], rfl, by simp, by rwa [append_nil]⟩

/-- Where the scan does not go past the end of the line, or finds a NUL behind the format, the
stores are those of the line. -/
theorem parse_of_end (h0 : 0 ∉ l) (hline : scanLine kinds l ⟨0, 0, []⟩ = some (st, b))
    (hend : b = true → deref rodata = 0) (buf : Str) (r : Record) :
    parse rodata (fill buf l) r = st.stores.foldlM Record.store r := by
  have hrun := follows_sscanf h0 rodata (buf.drop (l.length + 1))
  rw [hline] at hrun
  rw [parse, fill]
  cases b with
  | true => rw [show _ = _ from hrun, scanLoop, if_pos (Or.inl (hend rfl))]
  | false =>
    obtain ⟨_, _, hout, -⟩ := hrun
    rw [hout]

/-- The name is stored by every line that is not empty. -/
theorem name_of_stores (hl : l ≠ []) (hline : scanLine kinds l ⟨0, 0, []⟩ = some (st, b))
    (h : st.stores.foldlM Record.store r = some x) : x.name = field l := by
  rw [kinds, scanLine, if_neg hl] at hline
  have hext : Extends (Scan.word ⟨0, 0, []⟩ (field l)) st := by
    split at hline
    · exact scanLine_extends hline
    · cases hline
      exact .refl _
  obtain ⟨-, more, hmore, harg⟩ := hext
  rw [hmore] at h
  obtain ⟨y, hy, hx⟩ := foldlM_cons_eq_some.1 h
  have hname : x.get 0 = (field l, 0) := by
    rw [get_of_notMem hx fun e he => Nat.one_le_iff_ne_zero.1 (harg e he), (Record.get_store hy).2]
    rfl
  exact (Prod.ext_iff.1 hname).1

/-- A record of the file, for which the buffers are large enough. -/
structure Account where
  entry : Entry
  uid : ℕ
  gid : ℕ
  valid : entry.Valid uid gid
  fits : entry.Fits
  length : entry.line.length < 1024

namespace Account

variable (a : Account)

abbrev line : Str := a.entry.line

def record : Record :=
  ⟨a.entry.name, a.entry.password, a.uid, a.gid, a.entry.gecos, a.entry.dir, a.entry.shell⟩

theorem terminated : Terminated a.line := Entry.terminated a.valid a.length

variable {a}

theorem parse_line (hend : a.entry.shell = [] ∨ deref rodata = 0) (buf : Str) (r : Record) :
    parse rodata (fill buf a.line) r = some a.record := by
  have hline := Entry.scanLine_line a.valid
  rw [if_pos a.fits] at hline
  rw [parse_of_end a.terminated.nul hline fun h => hend.resolve_left (of_decide_eq_true h)]
  simp [Entry.scan, record, Record.store, a.valid.name.2, a.valid.password.2, a.valid.gecos.2,
    a.valid.dir.2, a.valid.shell.2]

end Account

variable (key) in
/-- The lookup goes on to the first record that has the key. -/
theorem lookupLoop_first {as : List Account} {a : Account}
    (hlines : ∀ j, ∀ h : j < as.length, f.line (i + j) = some as[j].line)
    (hend : ∀ a ∈ as, a.entry.shell = [] ∨ deref rodata = 0)
    (hfind : as.find? (fun a => key.hits a.record) = some a) (hn : as.length ≤ n) :
    lookupLoop f rodata key n i buf r = some (some (a.record, a.line)) := by
  induction as generalizing n i buf r with
  | nil => cases hfind
  | cons b as ih =>
    obtain ⟨n, rfl⟩ := Nat.exists_eq_succ_of_ne_zero (Nat.ne_zero_of_lt hn)
    have hline : f.line i = some b.line := hlines 0 (Nat.zero_lt_succ _)
    rw [lookupLoop, hline]
    dsimp only
    rw [Account.parse_line (hend b mem_cons_self)]
    dsimp only
    rw [find?_cons] at hfind
    cases hb : key.hits b.record with
    | true =>
      rw [hb] at hfind
      cases hfind
      rw [if_pos rfl]
    | false =>
      rw [hb] at hfind
      rw [if_neg Bool.false_ne_true]
      refine ih (fun j hj => ?_) (fun a ha => hend a (mem_cons_of_mem b ha)) hfind
        (Nat.le_of_succ_le_succ hn)
      rw [Nat.add_assoc, Nat.add_comm 1 j]
      exact hlines (j + 1) (Nat.succ_lt_succ hj)

/-- A line behind the line of a record with another name. -/
theorem lookup_behind {a : Account} (hl : Terminated l)
    (hline : scanLine kinds l ⟨0, 0, []⟩ = some (st, b))
    (hx : st.stores.foldlM Record.store a.record = some x) (hne : a.entry.name ≠ field l) :
    getpwnam ⟨a.line ++ l, fun _ => 0⟩ [] (field l) 2 buf Record.zero = some (some (x, l)) := by
  have hls : ∀ t ∈ [a.line, l], Terminated t := by simp [a.terminated, hl]
  have hread : ∀ i, ∀ h : i < [a.line, l].length,
      File.line ⟨a.line ++ l, fun _ => 0⟩ i = some [a.line, l][i] := fun i h =>
    line_eq hls (by simp) h
  have hnil : l ≠ [] := by
    obtain ⟨t, rfl, -⟩ := hl.newline
    simp
  have hmiss : Key.hits (.name (field l)) a.record = false := decide_eq_false hne
  have hhit : Key.hits (.name (field l)) x = true := decide_eq_true (name_of_stores hnil hline hx)
  rw [getpwnam, lookupLoop, hread 0 Nat.zero_lt_two]
  dsimp only [getElem_cons_zero]
  rw [Account.parse_line (Or.inr rfl)]
  dsimp only
  rw [hmiss, if_neg Bool.false_ne_true, lookupLoop, hread 1 Nat.one_lt_two]
  dsimp only [getElem_cons_succ, getElem_cons_zero]
  rw [parse_of_end hl.nul hline fun _ => rfl, hx]
  dsimp only
  rw [hhit, if_pos rfl]

end Lookup

/-- A lookup returns a record that was read from the line. -/
def Returned (l : Str) : Prop :=
  ∃ f rodata key n buf r x, lookupLoop f rodata key n 0 buf r = some (some (x, l))

/-- The records that lookups return from the line are the same, whatever earlier lookups have
left in the static record. -/
def Independent (l : Str) : Prop :=
  ∀ rodata f₁ f₂ key₁ key₂ n₁ n₂ buf₁ buf₂ r₁ r₂ x₁ x₂,
    lookupLoop f₁ rodata key₁ n₁ 0 buf₁ r₁ = some (some (x₁, l)) →
    lookupLoop f₂ rodata key₂ n₂ 0 buf₂ r₂ = some (some (x₂, l)) → x₁ = x₂

/-- All fields are stored by a complete line, so nothing of the record before is left. -/
theorem Complete.independent {l : Str} (h0 : 0 ∉ l) (hc : Complete kinds l) : Independent l := by
  intro rodata f₁ f₂ key₁ key₂ n₁ n₂ buf₁ buf₂ r₁ r₂ x₁ x₂ h₁ h₂
  obtain ⟨_, _, hp₁⟩ := parse_of_lookupLoop h₁
  obtain ⟨_, _, hp₂⟩ := parse_of_lookupLoop h₂
  obtain ⟨st, b, more₁, hline, harg₁, hx₁⟩ := stores_of_parse h0 hp₁
  obtain ⟨st', b', more₂, hline', harg₂, hx₂⟩ := stores_of_parse h0 hp₂
  cases hline.symm.trans hline'
  obtain ⟨hargs, es, hes, hall⟩ := hc.stores hline
  have hnil : ∀ {more : List Store} {r x : Record}, (∀ e ∈ more, st.args ≤ e.arg) →
      (st.stores ++ more).foldlM Record.store r = some x → more = [] := by
    intro more r x harg hx
    rw [eq_nil_iff_forall_not_mem]
    intro e he
    have hlt := arg_lt_of_stores hx e (mem_append_right _ he)
    have hle := harg e he
    rw [hargs] at hle
    exact absurd hlt (not_lt.2 hle)
  cases hnil harg₁ hx₁
  cases hnil harg₂ hx₂
  refine Record.ext_get fun k hk => get_eq_of_stores hx₁ hx₂ (Or.inr ?_)
  obtain ⟨e, he, rfl⟩ := hall k (Nat.zero_le k) hk
  exact ⟨e, by rw [append_nil, hes]; exact he, rfl⟩

/-- The record of one-letter texts, with the number `v` as its uid and gid. -/
def Account.sample {name c s : UInt8} {v : ℕ} (hname : plain name = true) (hc : Decimal [c] v)
    (hs : plain s = true) : Account where
  entry := Passwd.sample name c [s]
  uid := v
  gid := v
  valid := sample_valid (plain_singleton hname) hc ⟨plain_singleton hs, Nat.one_lt_succ_succ 1022⟩
  fits := ⟨Nat.one_lt_succ_succ 254, Nat.one_lt_succ_succ 254⟩
  length := by simp [Entry.line, Passwd.sample]

abbrev Account.one {name : UInt8} (h : plain name = true) : Account :=
  .sample h decimal_one (show plain (ch 's') = true by decide)

abbrev Account.two {name : UInt8} (h : plain name = true) : Account :=
  .sample h decimal_two (show plain (ch 't') = true by decide)

/-- A field that the line does not store is that of the line before. -/
theorem Independent.complete {l : Str} (hl : Terminated l) (hret : Returned l)
    (h : Independent l) : Complete kinds l := by
  by_contra hc
  obtain ⟨f, rodata, key, n, buf, r₀, x, hx⟩ := hret
  obtain ⟨_, r, hparse⟩ := parse_of_lookupLoop hx
  obtain ⟨st, b, more, hline, -, hfold⟩ := stores_of_parse hl.nul hparse
  rw [foldlM_append] at hfold
  obtain ⟨y, hy, -⟩ := Option.bind_eq_some_iff.1 hfold
  obtain ⟨es, hes, k, -, hk, hmiss⟩ := exists_missing hc hline
  rw [nil_append] at hes
  subst hes
  obtain ⟨name, hplain, hne⟩ : ∃ name, plain name = true ∧ [name] ≠ field l := by
    by_cases ha : field l = [ch 'a']
    · exact ⟨ch 'b', by decide, by rw [ha]; decide⟩
    · exact ⟨ch 'a', by decide, Ne.symm ha⟩
  obtain ⟨x₁, hx₁⟩ := exists_stores hy (Account.one hplain).record
  obtain ⟨x₂, hx₂⟩ := exists_stores hy (Account.two hplain).record
  have heq := h _ _ _ _ _ _ _ [] [] _ _ _ _
    (lookup_behind (a := .one hplain) hl hline hx₁ hne)
    (lookup_behind (a := .two hplain) hl hline hx₂ hne)
  have hget : (Account.one hplain).record.get k = (Account.two hplain).record.get k := by
    rw [← get_of_notMem hx₁ hmiss, ← get_of_notMem hx₂ hmiss, heq]
  have hnil : l ≠ [] := by
    obtain ⟨t, rfl, -⟩ := hl.newline
    simp
  match k, hk with
  | 0, _ =>
    have hname := congrArg Prod.fst (get_of_notMem hx₁ hmiss)
    exact hne (hname.symm.trans (name_of_stores hnil hline hx₁))
  | 1, _ | 4, _ | 5, _ =>
    exact absurd (congrArg Prod.fst hget) (show [ch '1'] ≠ [ch '2'] by decide)
  | 6, _ => exact absurd (congrArg Prod.fst hget) (show [ch 's'] ≠ [ch 't'] by decide)
  | 2, _ | 3, _ => exact absurd (congrArg Prod.snd hget) (show 1 ≠ 2 by decide)

/-- The record that a lookup returns depends on nothing but its line, if and only if the line is
complete. -/
theorem independent_iff {l : Str} (hl : Terminated l) (hret : Returned l) :
    Independent l ↔ Complete kinds l :=
  ⟨fun h => h.complete hl hret, fun hc => hc.independent hl.nul⟩

def short : Str := [ch 'b', ch 'a', ch 'd', ch '\n']

theorem terminated_short : Terminated short :=
  ⟨⟨[ch 'b', ch 'a', ch 'd'], rfl, by decide⟩, by decide, by decide⟩

/-- The record of the short line behind that of another one. -/
theorem getpwnam_short {name c s : UInt8} {v : ℕ} (hname : plain name = true) (hc : Decimal [c] v)
    (hs : plain s = true) :
    getpwnam ⟨(Account.sample hname hc hs).line ++ short, fun _ => 0⟩ []
        [ch 'b', ch 'a', ch 'd'] 2 [] Record.zero =
      some (some ({ (Account.sample hname hc hs).record with name := [ch 'b', ch 'a', ch 'd'] },
        short)) :=
  lookup_behind terminated_short rfl rfl
    fun hname => absurd (congrArg List.length hname) (show 1 ≠ 3 by decide)

theorem independent_iff_short : Terminated short ∧ Returned short ∧ ¬ Independent short := by
  have hret : Returned short :=
    ⟨_, _, _, _, _, _, _, getpwnam_short (show plain (ch 'a') = true by decide) decimal_one
      (show plain (ch 's') = true by decide)⟩
  refine ⟨terminated_short, hret, fun h => ?_⟩
  obtain ⟨-, r, hr, -⟩ := (independent_iff terminated_short hret).1 h
  cases hr

/-- The user `bad` gets the uid of the line before. -/
theorem getpwnam_inherits_uid : ∃ x₁ x₂,
    getpwnam ⟨(sample (ch 'a') (ch '1') [ch 's']).line ++ short, fun _ => 0⟩ []
      [ch 'b', ch 'a', ch 'd'] 2 [] Record.zero = some (some (x₁, short)) ∧
    getpwnam ⟨(sample (ch 'a') (ch '2') [ch 't']).line ++ short, fun _ => 0⟩ []
      [ch 'b', ch 'a', ch 'd'] 2 [] Record.zero = some (some (x₂, short)) ∧
    x₁.uid = 1 ∧ x₂.uid = 2 :=
  ⟨_, _, getpwnam_short (by decide) decimal_one (by decide),
    getpwnam_short (by decide) decimal_two (by decide), rfl, rfl⟩

/-! ## Lookups in a file of records -/

/-- After the lines of the file `fgets` goes on with other texts, and neither `getpwnam` nor
`getpwuid` ever returns NULL. A key that the file has is found, in the first record that has
it, where the scan of the records does not go on behind the format. -/
theorem lookup_never_null (f : File) (ls : List Str) (hls : ∀ l ∈ ls, Terminated l)
    (hf : f.content = ls.flatten) :
    (∀ i, ∀ h : i < ls.length, f.line i = some ls[i]) ∧
    (∀ i, ls.length ≤ i → f.line i ≠ none) ∧
    (∀ rodata fuel buf r, (∀ name, getpwnam f rodata name fuel buf r ≠ some none) ∧
      ∀ uid, getpwuid f rodata uid fuel buf r ≠ some none) ∧
    ∀ (as : List Account) rodata, ls = as.map Account.line →
      (∀ a ∈ as, a.entry.shell = [] ∨ deref rodata = 0) → ∀ fuel buf r, as.length ≤ fuel →
      (∀ name a, as.find? (fun a => a.entry.name = name) = some a →
        getpwnam f rodata name fuel buf r = some (some (a.record, a.line))) ∧
      ∀ uid a, as.find? (fun a => uid = a.uid) = some a →
        getpwuid f rodata uid fuel buf r = some (some (a.record, a.line)) := by
  refine ⟨fun _ h => line_eq hls hf h, fun i _ => line_ne_none f i, fun rodata fuel buf r =>
    ⟨fun name => lookupLoop_ne_null f rodata (.name name) fuel 0 buf r,
      fun uid => lookupLoop_ne_null f rodata (.uid uid) fuel 0 buf r⟩, ?_⟩
  rintro as rodata rfl hend fuel buf r hfuel
  have hlines : ∀ j, ∀ h : j < as.length, f.line (0 + j) = some as[j].line := by
    intro j hj
    rw [Nat.zero_add, line_eq hls hf (by rwa [length_map]), getElem_map]
  exact ⟨fun name a hfind => lookupLoop_first (.name name) hlines hend hfind hfuel,
    fun uid a hfind => lookupLoop_first (.uid uid) hlines hend hfind hfuel⟩

/-- The third call of `fgets` on a file of two records does not return NULL, and the uid 2 is
that of the second record. -/
theorem lookup_never_null_two : ∃ a : Account, a.uid = 2 ∧
    File.line ⟨(sample (ch 'a') (ch '1') [ch 's']).line ++ a.line, fun _ => ch '\n'⟩ 2 ≠ none ∧
    getpwuid ⟨(sample (ch 'a') (ch '1') [ch 's']).line ++ a.line, fun _ => ch '\n'⟩ [] 2 2 []
      Record.zero = some (some (a.record, a.line)) := by
  obtain ⟨-, hnull, -, hfirst⟩ := lookup_never_null
    ⟨(Account.one (show plain (ch 'a') = true by decide)).line ++
      (Account.two (show plain (ch 'b') = true by decide)).line, fun _ => ch '\n'⟩
    ([Account.one (show plain (ch 'a') = true by decide),
      Account.two (show plain (ch 'b') = true by decide)].map Account.line)
    (by simp [Account.terminated]) (by simp)
  exact ⟨.two (show plain (ch 'b') = true by decide), rfl, hnull 2 le_rfl,
    (hfirst _ [] rfl (fun _ _ => Or.inr rfl) 2 [] Record.zero le_rfl).2 2 _ rfl⟩

end Qwin.Passwd
