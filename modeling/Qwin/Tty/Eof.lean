import Qwin.Tty.Line

/-!
# End of file at the terminal

A `^D` ends a read. `ttyintr` commits a line at a newline and when the buffer is full, and not
at a `^D`, so that what was typed before it stays in the line. And `ttyread`, which returns the
characters before a `^D`, does not leave the `^D` for the next read. Where a `^D` is typed as
the last character that fits and is the first one that a read takes, it commits the line, and
just one read returns no bytes for it.
-/

namespace Qwin.Tty

open Prog Monitor List
open Chars (ch)

def Event.isZero : Event → Bool
  | .ret n k => decide (n ≠ 0 ∧ k = 0)
  | _ => false

/-- A `^D` is typed when it fills the buffer, and is taken as the first character of a read. -/
def eofAllow (β : Type) (o : Op β) (i : Input) : Prop :=
  match o with
  | .key c => c = ctrl 'D' → (i.ring.wr - i.ring.rd).toNat + 1 = INPUT_BUF
  | .take first => i.ring.front INPUT_BUF = ctrl 'D' → first = true
  | _ => True

instance (β : Type) (o : Op β) (i : Input) : Decidable (eofAllow β o i) :=
  match o with
  | .key c => inferInstanceAs (Decidable (c = ctrl 'D' → (i.ring.wr - i.ring.rd).toNat + 1 = INPUT_BUF))
  | .take first => inferInstanceAs (Decidable (i.ring.front INPUT_BUF = ctrl 'D' → first = true))
  | .empty | .ret _ _ => inferInstanceAs (Decidable True)

/-- Reads returned no bytes as often as a `^D` was taken. -/
def ZeroPerEof (log : List Event) : Prop :=
  log.countP Event.isZero = (terminal log).taken.count (ctrl 'D')

/-- Each `^D` in the log committed the line and itself. -/
def EofCommits (log : List Event) : Prop :=
  ∀ l, l ++ [.key (ctrl 'D')] <+: log →
    terminal (l ++ [.key (ctrl 'D')]) =
      { terminal l with
        committed := (terminal l).committed ++ ((terminal l).line ++ [ctrl 'D']), line := [] }

/-- The `^D` of the log are those of the committed stream. -/
structure EofCounts (log : List Event) : Prop where
  committed : (terminal log).committed.count (ctrl 'D') = log.count (.key (ctrl 'D'))
  line : ctrl 'D' ∉ (terminal log).line

/-- Runs in which a `^D` is typed and taken in these places only. -/
abbrev eofRules : Rules Op Input Unit :=
  rules eofAllow (fun i => ZeroPerEof i.log) fun i =>
    i.Holds (terminal i.log) ∧ EofCommits i.log ∧ EofCounts i.log

/-! ## Characters -/

section

variable {t : Terminal} {c : UInt8}

theorem key_taken : (t.key c).taken = t.taken := by
  unfold Terminal.key Terminal.accept
  split_ifs <;> rfl

/-- A `^D` that fills the buffer is stored and commits the line. -/
theorem key_eof (h : t.pending + 1 = INPUT_BUF) : t.key (ctrl 'D') =
    { t with committed := t.committed ++ (t.line ++ [ctrl 'D']), line := [] } := by
  have hplain : Terminal.Plain (ctrl 'D') ∧ t.pending < INPUT_BUF := ⟨by decide, by omega⟩
  rw [Terminal.key, if_neg (by decide), if_neg (by decide), if_pos hplain, Terminal.accept,
    if_pos (Or.inr h)]
  rfl

/-- The other characters neither store nor commit a `^D`. -/
theorem key_not_eof (hc : c ≠ ctrl 'D') (hline : ctrl 'D' ∉ t.line) :
    (t.key c).committed.count (ctrl 'D') = t.committed.count (ctrl 'D') ∧
      ctrl 'D' ∉ (t.key c).line := by
  have hnew : ctrl 'D' ≠ Terminal.newline c := by
    unfold Terminal.newline
    split
    · decide
    · exact hc.symm
  have hmore : ctrl 'D' ∉ t.line ++ [Terminal.newline c] := by
    rw [mem_append, mem_singleton]
    exact not_or_intro hline hnew
  unfold Terminal.key Terminal.accept
  split_ifs
  · exact ⟨rfl, not_mem_nil⟩
  · exact ⟨rfl, fun hmem => hline (dropLast_subset _ hmem)⟩
  · refine ⟨?_, not_mem_nil⟩
    rw [count_append, count_eq_zero_of_not_mem hmore, Nat.add_zero]
  · exact ⟨rfl, hmore⟩
  · exact ⟨rfl, hline⟩

end

/-! ## The log -/

section

variable {log : List Event} {e : Event}

theorem ZeroPerEof.append (h : ZeroPerEof log) (hzero : e.isZero = false)
    (htook : e ≠ .took (ctrl 'D')) : ZeroPerEof (log ++ [e]) := by
  rw [ZeroPerEof, countP_append, countP_singleton, hzero, terminal_append]
  cases e with
  | key c => exact h.trans (by rw [Terminal.event, key_taken])
  | took c =>
    have hc : ctrl 'D' ∉ [c] := fun hmem => htook (by rw [mem_singleton.1 hmem])
    change log.countP _ + 0 = ((terminal log).taken ++ [c]).count _
    rw [count_append, count_eq_zero_of_not_mem hc]
    exact h
  | ret n k => exact h

theorem ZeroPerEof.eof {n : ℕ} {k : ℤ} (h : ZeroPerEof log)
    (hzero : (Event.ret n k).isZero = true) :
    ZeroPerEof (log ++ [Event.took (ctrl 'D')] ++ [Event.ret n k]) := by
  unfold ZeroPerEof at h ⊢
  rw [terminal_append, terminal_append, countP_append, countP_append, h,
    countP_singleton, countP_singleton, if_pos hzero,
    if_neg (show ¬ (Event.took (ctrl 'D')).isZero = true from Bool.false_ne_true)]
  change _ + 1 = ((terminal log).taken ++ [ctrl 'D']).count _
  rw [count_append, count_singleton_self]

theorem EofCommits.append (h : EofCommits log)
    (he : e = .key (ctrl 'D') → (terminal log).pending + 1 = INPUT_BUF) :
    EofCommits (log ++ [e]) := by
  intro l hl
  rcases prefix_concat_iff.1 hl with heq | hl
  · obtain ⟨hl, hlast⟩ := append_inj' heq rfl
    rw [terminal_append, hl]
    exact key_eof (he (singleton_inj.1 hlast).symm)
  · exact h l hl

theorem EofCounts.append (h : EofCounts log)
    (he : e = .key (ctrl 'D') → (terminal log).pending + 1 = INPUT_BUF) :
    EofCounts (log ++ [e]) := by
  by_cases hD : e = .key (ctrl 'D')
  · subst hD
    have hkey : terminal (log ++ [.key (ctrl 'D')]) = _ := (terminal_append _ _).trans (key_eof (he rfl))
    refine ⟨?_, ?_⟩
    · rw [hkey, count_append, count_append, count_append, h.committed,
        count_eq_zero_of_not_mem h.line, Nat.zero_add, count_singleton_self,
        count_singleton_self]
    · rw [hkey]
      exact not_mem_nil
  · have hcount : (log ++ [e]).count (.key (ctrl 'D')) = log.count (.key (ctrl 'D')) := by
      have hnot : Event.key (ctrl 'D') ∉ [e] := fun hmem => hD (mem_singleton.1 hmem).symm
      rw [count_append, count_eq_zero_of_not_mem hnot, Nat.add_zero]
    suffices hkept : (terminal (log ++ [e])).committed.count (ctrl 'D') =
        (terminal log).committed.count (ctrl 'D') ∧ ctrl 'D' ∉ (terminal (log ++ [e])).line from
      ⟨hkept.1.trans (h.committed.trans hcount.symm), hkept.2⟩
    rw [terminal_append]
    cases e with
    | key c => exact key_not_eof (fun hc => hD (by rw [hc])) h.line
    | took c => exact ⟨rfl, h.line⟩
    | ret n k => exact ⟨rfl, h.line⟩

end

/-! ## Runs -/

theorem keeps_eof : Keeps eofAllow fun i => ZeroPerEof i.log where
  key i c h _ := by
    change ZeroPerEof ((i.key c).2.log ++ [.key c])
    rw [(i.key_keeps c).2.1]
    exact ZeroPerEof.append h rfl nofun
  take i first h hne := ZeroPerEof.append h rfl fun he => hne (Event.took.inj he)
  ret i n k h hne := ZeroPerEof.append h (decide_eq_false fun hz => hne hz.1 hz.2) nofun
  eof i n rest hle h hallow hD := by
    have hn : rest + 1 = n := by simpa using hallow hD
    change ZeroPerEof (i.log ++ [Event.took (i.ring.front INPUT_BUF)] ++ [Event.ret n _])
    rw [hD]
    exact ZeroPerEof.eof h (decide_eq_true ⟨by omega, by omega⟩)

theorem eof_run {β : Type} {o : Op β} {i : Input} (h : i.Holds (terminal i.log))
    (hallow : eofAllow β o i) : (run β o i).2.log = i.log ∨ ∃ e, (run β o i).2.log = i.log ++ [e] ∧
      (e = .key (ctrl 'D') → (terminal i.log).pending + 1 = INPUT_BUF) := by
  cases o with
  | key c =>
    refine Or.inr ⟨.key c, ?_, fun he => h.pending_eq ▸ hallow (Event.key.inj he)⟩
    exact congrArg (· ++ [Event.key c]) (i.key_keeps c).2.1
  | empty => exact Or.inl rfl
  | take first => exact Or.inr ⟨_, rfl, nofun⟩
  | ret n k => exact Or.inr ⟨_, rfl, nofun⟩

theorem certified_eof {bytes : ℕ → UInt8} {killed : ℕ → Bool} {m : Machine}
    (h : Runs eofRules bytes killed m) :
    Threads.Certified (protocol run eofRules) (Sound eofRules) .idle m := by
  have hinv : eofRules.inv (Input.start bytes) := show ZeroPerEof [] from rfl
  refine certified hinv ⟨holds_start bytes, fun l hl => ?_, rfl, not_mem_nil⟩ ?_
    (fun _ _ _ hc => ends_of_starts keeps_eof hc) h
  · simp [Input.start] at hl
  · rintro β o i hpre hallow ⟨hholds, hcommits, hcounts⟩
    refine ⟨hholds.run hpre, ?_⟩
    rcases eof_run hholds hallow with hlog | ⟨e, hlog, he⟩
    · rw [hlog]
      exact ⟨hcommits, hcounts⟩
    · rw [hlog]
      exact ⟨hcommits.append he, hcounts.append he⟩

/-- In every such run each `^D` commits the line it is typed in. While `input.lock` is free, a
read has returned no bytes for each `^D` that was taken and for no other reason; a reader
sleeps only if these are all `^D` that were typed. -/
theorem tty_eof (bytes : ℕ → UInt8) (killed : ℕ → Bool) (m : Machine)
    (h : Runs eofRules bytes killed m) :
    EofCommits m.state.res.log ∧
      (m.state.lock = none → ZeroPerEof m.state.res.log ∧
        ∀ p, m.state.status p = .asleep () →
          (terminal m.state.res.log).taken = (terminal m.state.res.log).committed ∧
          m.state.res.log.countP Event.isZero = m.state.res.log.count (.key (ctrl 'D'))) := by
  have hcert := certified_eof h
  obtain ⟨hholds, hcommits, hcounts⟩ := always_of_certified hcert
  refine ⟨hcommits, fun hfree => ?_⟩
  have hzero : m.state.res.log.countP Event.isZero =
      (terminal m.state.res.log).taken.count (ctrl 'D') := inv_of_certified hcert hfree
  refine ⟨hzero, fun p hp => ?_⟩
  have htaken := hholds.empty_iff.1 (waits_of_certified hcert hfree hp)
  exact ⟨htaken, by rw [hzero, htaken, hcounts.committed]⟩

/-- The moves of a run: a line of 127 characters and a `^D` are typed, and read. -/
def eofMoves : List (Threads.Move ℕ Call) :=
  [.call 0 (.intr (List.replicate 126 (ch 'a', none) ++ [(ch '\n', none)])), .run 0 133,
    .call 0 (.intr [(ctrl 'D', none)]), .run 0 7, .call 1 (.read 127), .run 1 258,
    .call 1 (.read 5), .run 1 6, .call 1 (.read 5), .run 1 7]

/-- The `^D` is the last character that fits. One read returns the line, the next one returns
no bytes, and the third one sleeps. -/
theorem tty_eof_sample : ∃ m : Machine, Runs eofRules (fun _ => 0) (fun _ => false) m ∧
    m.state.lock = none ∧ m.state.status 1 = .asleep () ∧
    m.state.res.log.count (.key (ctrl 'D')) = 1 ∧
    m.state.res.log.countP Event.isZero = m.state.res.log.count (.key (ctrl 'D')) := by
  have hplay : played eofRules eofMoves (fun m =>
        decide (m.state.lock = none) && (decide (m.state.status 1 = .asleep ()) &&
          decide (m.state.res.log.count (.key (ctrl 'D')) = 1))) = true := by
    decide +kernel
  obtain ⟨m, hm, h⟩ := exists_run hplay
  simp only [Bool.and_eq_true, decide_eq_true_eq] at h
  obtain ⟨hfree, hsleep, hcount⟩ := h
  exact ⟨m, hm, hfree, hsleep, hcount, (((tty_eof _ _ m hm).2 hfree).2 1 hsleep).2⟩

/-- A reader waits, `a` and `^D` are typed, and nothing is committed. And where `a`, `^D` and a
newline are typed, the `^D` is taken with the `a`, and two reads return one byte each. -/
theorem tty_eof_lost :
    (∃ m : Machine, Runs lineRules (fun _ => 0) (fun _ => false) m ∧ m.state.lock = none ∧
      m.state.status 0 = .asleep () ∧ m.state.res.log = [.key (ch 'a'), .key (ctrl 'D')] ∧
      (terminal m.state.res.log).committed = []) ∧
    ∃ m : Machine, Runs lineRules (fun _ => 0) (fun _ => false) m ∧ m.state.lock = none ∧
      m.state.res.log = [.key (ch 'a'), .key (ctrl 'D'), .key (ch '\n'), .took (ch 'a'),
        .took (ctrl 'D'), .ret 5 1, .took (ch '\n'), .ret 5 1] := by
  have hwait : played lineRules
      [.call 0 (.read 5), .run 0 7, .call 1 (.intr [(ch 'a', none), (ctrl 'D', none)]), .run 1 5]
      (fun m =>
        decide (m.state.lock = none) && (decide (m.state.status 0 = .asleep ()) &&
          (decide (m.state.res.log = [.key (ch 'a'), .key (ctrl 'D')]) &&
            decide ((terminal m.state.res.log).committed = [])))) = true := by
    decide +kernel
  have hlost : played lineRules
      [.call 1 (.intr [(ch 'a', none), (ctrl 'D', none), (ch '\n', none)]), .run 1 9,
        .call 0 (.read 5), .run 0 8, .call 0 (.read 5), .run 0 6] (fun m =>
        decide (m.state.lock = none) &&
          decide (m.state.res.log = [.key (ch 'a'), .key (ctrl 'D'), .key (ch '\n'),
            .took (ch 'a'), .took (ctrl 'D'), .ret 5 1, .took (ch '\n'), .ret 5 1])) = true := by
    decide +kernel
  obtain ⟨m, hm, h⟩ := exists_run hwait
  obtain ⟨m', hm', h'⟩ := exists_run hlost
  simp only [Bool.and_eq_true, decide_eq_true_eq] at h h'
  exact ⟨⟨m, hm, h⟩, m', hm', h'⟩

end Qwin.Tty
