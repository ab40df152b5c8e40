import Qwin.Shell.Accept

/-!
# The strings of a parsed line

All words of a command lie in the one line buffer, and `nulterminate` writes a NUL behind
each of them, over a separator, a symbol or the NUL at the end of the line. A word ends where
its run of bytes does, so no NUL falls into another word, and the pointers of the command
point to its words.
-/

namespace Qwin.Shell

open Outcome List

namespace Word

/-- The index in a line of `len` bytes at which a word starts. -/
def start (len : ℕ) (w : Word) : ℕ := len - w.q.length

def stop (len : ℕ) (w : Word) : ℕ := len - w.eq.length

end Word

theorem getElem?_suffix {buf eq : Ptr} (h : eq <:+ buf) (i : ℕ) :
    buf[buf.length - eq.length + i]? = eq[i]? := by
  obtain ⟨pre, rfl⟩ := h
  rw [length_append, Nat.add_sub_cancel, List.getElem?_append_right (Nat.le_add_right _ _),
    Nat.add_sub_cancel_left]

namespace Word.In

variable {line : Ptr} {v w : Word}

theorem suffix_eq (h : w.In line) : w.eq <:+ line := by
  refine List.IsSuffix.trans ?_ h.suffix
  rw [h.eq_append]
  exact suffix_append _ _

theorem stop_eq (h : w.In line) : w.stop line.length = w.start line.length + w.text.length := by
  have hq := congrArg List.length h.eq_append
  have hle := h.suffix.length_le
  rw [length_append] at hq
  unfold Word.stop Word.start
  omega

theorem getElem?_text (h : w.In line) {i : ℕ} (hi : i < w.text.length) :
    (line)[w.start line.length + i]? = w.text[i]? := by
  rw [start, getElem?_suffix h.suffix, h.eq_append, List.getElem?_append_left hi]

theorem not_inside (hv : v.In line) (hw : w.In line) :
    ¬ (w.start line.length ≤ v.stop line.length ∧ v.stop line.length < w.stop line.length) := by
  rintro ⟨hle, hlt⟩
  rw [hw.stop_eq] at hlt
  obtain ⟨i, hi⟩ := Nat.exists_eq_add_of_le hle
  have hlen : i < w.text.length := by omega
  -- The byte there is one of a word, but the other word has stopped at it.
  have hbyte := hw.getElem?_text hlen
  rw [← hi, Word.stop, ← Nat.add_zero (_ - _), getElem?_suffix hv.suffix_eq,
    List.getElem?_eq_getElem hlen] at hbyte
  have hplain := hw.plain _ (getElem_mem hlen)
  rw [hv.stop _ (List.head?_eq_getElem?.trans hbyte)] at hplain
  cases hplain

end Word.In

/-! ## `nulterminate` -/

section

variable {line : Ptr} {cmd : Cmd Word} {len i : ℕ} {buf : List UInt8}

theorem nulterminate_eq (cmd : Cmd Word) (buf : List UInt8) : nulterminate len cmd buf =
    cmd.words.foldl (fun buf w => buf.set (len - w.eq.length) 0) buf := by
  induction cmd generalizing buf with
  | exec argv => rfl
  | redir cmd file mode fd ih => rw [nulterminate, ih, Cmd.words, foldl_append]; rfl
  | pipe left right ihl ihr => rw [nulterminate, ihl, ihr, Cmd.words, foldl_append]
  | list left right ihl ihr => rw [nulterminate, ihl, ihr, Cmd.words, foldl_append]
  | back cmd ih => rw [nulterminate, ih, Cmd.words]

theorem getElem?_terminated (ws : List Word) (buf : List UInt8) (i : ℕ) :
    (ws.foldl (fun buf w => buf.set (len - w.eq.length) 0) buf)[i]? =
      if ∃ w ∈ ws, len - w.eq.length = i then buf[i]?.map fun _ => 0 else buf[i]? := by
  induction ws generalizing buf with
  | nil => simp
  | cons w ws ih =>
    rw [foldl_cons, ih, List.getElem?_set]
    by_cases hw : len - w.eq.length = i
    · subst hw
      by_cases hlt : len - w.eq.length < buf.length <;> simp [hlt]
    · simp [hw]

theorem cstring_eq {l text : List UInt8} (h : ∀ i < text.length, l[i]? = text[i]?)
    (h0 : l[text.length]? = some 0) (hne : 0 ∉ text) : cstring l = text := by
  induction text generalizing l with
  | nil =>
    obtain ⟨l, rfl⟩ := List.head?_eq_some_iff.1 (List.head?_eq_getElem?.trans h0)
    rfl
  | cons c text ih =>
    have hc := h 0 (Nat.succ_pos _)
    obtain ⟨l, rfl⟩ := List.head?_eq_some_iff.1 (List.head?_eq_getElem?.trans hc)
    obtain ⟨hc0, hne⟩ := not_or.1 (fun h => hne (mem_cons.2 h))
    rw [cstring, takeWhile_cons_of_pos (by simpa using Ne.symm hc0)]
    exact congrArg (c :: ·) (ih (fun i hi => h (i + 1) (Nat.succ_lt_succ hi)) h0 hne)

/-- A NUL stands behind every word of a terminated line. -/
theorem terminated_stop (line : Ptr) {w : Word} (hw : w ∈ cmd.words) :
    (nulterminate line.length cmd (line ++ [0]))[w.stop line.length]? = some 0 := by
  have hlt : w.stop line.length < (line ++ [0]).length := by
    rw [length_append, length_singleton, Word.stop]
    omega
  rw [nulterminate_eq, getElem?_terminated, if_pos ⟨w, hw, rfl⟩, List.getElem?_eq_getElem hlt]
  rfl

/-- A pointer to a word points to its text once the line is terminated. -/
theorem read_terminated {w : Word} (hline : 0 ∉ line) (hws : ∀ w ∈ cmd.words, w.In line)
    (hw : w ∈ cmd.words) :
    w.read line.length (nulterminate line.length cmd (line ++ [0])) = w.text := by
  have hin := hws w hw
  have hstop := terminated_stop line hw
  rw [hin.stop_eq] at hstop
  refine cstring_eq (fun j hj => ?_) ?_ ?_
  · have hjlt : w.start line.length + j < w.stop line.length := by
      rw [hin.stop_eq]
      omega
    have hlt : w.start line.length + j < line.length := lt_of_lt_of_le hjlt (Nat.sub_le _ _)
    rw [List.getElem?_drop, nulterminate_eq, getElem?_terminated, if_neg]
    · rw [← hin.getElem?_text hj]
      exact List.getElem?_append_left hlt
    · rintro ⟨v, hv, heq⟩
      have heq : v.stop line.length = w.start line.length + j := heq
      exact (hws v hv).not_inside hin ⟨by omega, by omega⟩
  · rw [List.getElem?_drop]
    exact hstop
  · intro h0
    refine hline (hin.suffix.subset ?_)
    rw [hin.eq_append]
    exact mem_append_left _ h0

end

/-! ## `parsecmd` -/

theorem skip_eq_nil {s : Ptr} : skip s = [] ↔ tokens s = [] := by
  rw [← tokens_skip]
  rcases skip_cases s with hs | ⟨c, r, hs, hc⟩
  · simp [hs]
  · obtain ⟨t, ht, -⟩ := exists_scanned hc r
    simp [hs, ht]

theorem peek_nil (s : Ptr) : (peek s []).2 = skip s := by
  rw [peek_eq s (nil_subset _)]

theorem zero_notMem_cstring (buf : List UInt8) : 0 ∉ cstring buf := fun h => by
  simpa using mem_takeWhile_imp h

/-- `parsecmd` ends, and returns a command with words of the line that is derived from it. -/
theorem parsecmd_ends (buf : List UInt8) : Ends (parsecmd buf) fun r =>
    (∀ w ∈ r.1.words, w.In (cstring buf)) ∧
      r.2 = nulterminate (cstring buf).length r.1 (cstring buf ++ [0]) ∧
      Derives .line (tokens (cstring buf)) (r.1.map Word.text) := by
  have hline := (parser_ends (cstring buf) (enough (cstring buf))).1 _ (suffix_refl _) le_rfl
  rw [parsecmd]
  rcases hline.cases with ⟨⟨cmd, s⟩, heq, ts, hrest, hder⟩ | ⟨e, heq⟩
  · rw [heq]
    dsimp only [ok_bind]
    rw [peek_nil]
    by_cases hs : skip s = []
    · rw [if_neg (not_not.2 hs)]
      refine ⟨hrest.words, rfl, ?_⟩
      rw [hrest.tokens, skip_eq_nil.1 hs, append_nil]
      exact hder
    · rw [if_pos hs]
      trivial
  · rw [heq]
    trivial

end Qwin.Shell
