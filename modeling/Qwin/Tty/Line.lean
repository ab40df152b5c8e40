import Mathlib.Data.List.Induction
import Qwin.Tty.Basic

/-!
# The committed stream

What the terminal is for, without a buffer: a line that is edited, and the stream of the lines
that are complete. A character is accepted unless `INPUT_BUF` characters are pending; backspace
and `^W` change the line only; the line is committed at a newline, or when it fills what
`INPUT_BUF` leaves. The line buffer refines this, however often its counters wrap.
-/

namespace Qwin.Tty

open Prog Monitor List
open Chars (ch)

/-- The committed stream, the line behind it, and what readers have taken. -/
structure Terminal where
  committed : List UInt8
  line : List UInt8
  taken : List UInt8

namespace Terminal

def pending (t : Terminal) : ℕ := t.committed.length + t.line.length - t.taken.length

/-- `\r` is read as `\n`. -/
def newline (c : UInt8) : UInt8 := if c = ch '\r' then ch '\n' else c

def accept (t : Terminal) (c : UInt8) : Terminal :=
  if newline c = ch '\n' ∨ t.pending + 1 = INPUT_BUF then
    { t with committed := t.committed ++ (t.line ++ [newline c]), line := [] }
  else { t with line := t.line ++ [newline c] }

/-- A character that is no command to the terminal. -/
def Plain (c : UInt8) : Prop :=
  c ≠ 0 ∧ c ≠ ctrl 'P' ∧ c ≠ ctrl 'C' ∧ c ≠ ctrl 'W' ∧ c ≠ ctrl 'H' ∧ c ≠ 0x7f

instance (c : UInt8) : Decidable (Plain c) := inferInstanceAs (Decidable (_ ∧ _))

def key (t : Terminal) (c : UInt8) : Terminal :=
  if c = ctrl 'W' then { t with line := [] }
  else if c = ctrl 'H' ∨ c = 0x7f then { t with line := t.line.dropLast }
  else if Plain c ∧ t.pending < INPUT_BUF then t.accept c
  else t

def event (t : Terminal) : Event → Terminal
  | .key c => t.key c
  | .took c => { t with taken := t.taken ++ [c] }
  | .ret _ _ => t

end Terminal

def terminal (log : List Event) : Terminal := log.foldl Terminal.event ⟨[], [], []⟩

structure Input.Holds (i : Input) (t : Terminal) : Prop where
  ring : i.ring.Carries INPUT_BUF (t.committed ++ t.line) t.taken
  w : i.w = BitVec.ofNat 32 t.committed.length
  taken : t.taken <+: t.committed
  line : ch '\n' ∉ t.line

section

variable {i : Input} {t : Terminal} {c : UInt8}

namespace Input.Holds

variable (h : i.Holds t)
include h

theorem edited_iff : i.Edited ↔ t.line ≠ [] := by
  have hlen := h.taken.length_le
  have hfits := h.ring.fits
  rw [length_append] at hfits
  rw [Edited, not_iff_not, h.w, h.ring.wr]
  constructor
  · intro heq
    have := h.ring.counter_inj (by decide) hlen (by omega) heq
    rw [length_append] at this
    exact length_eq_zero_iff.1 (by omega)
  · intro hnil
    rw [hnil, append_nil]

theorem pending_eq : (i.ring.wr - i.ring.rd).toNat = t.pending := by
  rw [h.ring.toNat_sub (by decide), length_append, Terminal.pending]

theorem ring_committed : Ring.Carries INPUT_BUF { i.ring with wr := i.w } t.committed t.taken := by
  have hfits := h.ring.fits
  rw [length_append] at hfits
  refine ⟨h.ring.rd, h.w, h.taken, by omega, fun j x hj hx => h.ring.slots j x hj ?_⟩
  rw [List.getElem?_append_left (List.getElem?_eq_some_iff.1 hx).1]
  exact hx

theorem empty_iff : i.ring.rd = i.w ↔ t.taken = t.committed :=
  h.ring_committed.empty_iff (by decide)

theorem unpush {l : List UInt8} {x : UInt8} (hl : t.line = l ++ [x]) :
    Holds { i with ring := i.ring.unpush } { t with line := l } := by
  have hring := h.ring
  rw [hl, ← append_assoc] at hring
  refine ⟨hring.unpush ?_, h.w, h.taken, fun hmem => h.line ?_⟩
  · rw [length_append]
    exact Nat.le_add_right_of_le h.taken.length_le
  · rw [hl]
    exact mem_append_left _ hmem

theorem backspace : Holds i.backspace { t with line := t.line.dropLast } := by
  obtain ⟨committed, line, taken⟩ := t
  rw [Input.backspace]
  rcases eq_nil_or_concat line with rfl | ⟨l, x, rfl⟩
  · rw [if_neg fun hed => h.edited_iff.1 hed rfl]
    exact h
  · rw [if_pos (h.edited_iff.2 (by simp)), concat_eq_append, dropLast_concat]
    exact h.unpush (concat_eq_append)

theorem killLine : Holds i.killLine { t with line := [] } := by
  obtain ⟨committed, line, taken⟩ := t
  induction line using List.reverseRecOn generalizing i with
  | nil =>
    rw [Input.killLine, if_neg fun hed => h.edited_iff.1 hed.1 rfl]
    exact h
  | append_singleton l x ih =>
    -- The last character of the line is the last one of the buffer, and no newline.
    have hback : i.ring.back INPUT_BUF = x := by
      have hring := h.ring
      rw [← append_assoc] at hring
      refine hring.back (by decide) ?_
      rw [length_append]
      exact Nat.le_add_right_of_le h.taken.length_le
    have hx : x ≠ ch '\n' := fun he => h.line (by simp [he])
    rw [Input.killLine, if_pos ⟨h.edited_iff.2 (by simp), hback ▸ hx⟩]
    exact ih (h.unpush rfl)

/-- A character is stored, and committed with its line if it completes the line. -/
theorem store (hc : c ≠ ctrl 'C') (hroom : t.pending < INPUT_BUF) :
    Holds (i.store c).2 (t.accept c) := by
  have hlen := h.taken.length_le
  unfold Terminal.pending at hroom
  have hring := h.ring.push (x := Terminal.newline c) (by decide) (by
    rw [length_append]
    omega)
  have hne : Terminal.newline c ≠ ctrl 'C' := by
    unfold Terminal.newline
    split
    · decide
    · exact hc
  have hfull : (i.ring.push INPUT_BUF (Terminal.newline c)).Full INPUT_BUF ↔
      t.pending + 1 = INPUT_BUF := by
    rw [hring.full_iff (by decide), length_append, length_append, length_singleton,
      Terminal.pending]
    omega
  have hcond : (Terminal.newline c = ch '\n' ∨ Terminal.newline c = ctrl 'C' ∨
      (i.ring.push INPUT_BUF (Terminal.newline c)).Full INPUT_BUF) ↔
      Terminal.newline c = ch '\n' ∨ t.pending + 1 = INPUT_BUF :=
    or_congr_right ((or_iff_right hne).trans hfull)
  rw [append_assoc] at hring
  by_cases hcommit : Terminal.newline c = ch '\n' ∨ t.pending + 1 = INPUT_BUF
  · have hstore : (i.store c).2 = ⟨i.ring.push INPUT_BUF (Terminal.newline c),
        (i.ring.push INPUT_BUF (Terminal.newline c)).wr, i.log⟩ :=
      congrArg Prod.snd (if_pos (hcond.2 hcommit))
    rw [hstore, Terminal.accept, if_pos hcommit]
    refine ⟨by rwa [append_nil], hring.wr, h.taken.trans (prefix_append _ _), ?_⟩
    exact not_mem_nil
  · have hstore : (i.store c).2 = ⟨i.ring.push INPUT_BUF (Terminal.newline c), i.w, i.log⟩ :=
      congrArg Prod.snd (if_neg (mt hcond.1 hcommit))
    rw [hstore, Terminal.accept, if_neg hcommit]
    refine ⟨hring, h.w, h.taken, fun hmem => ?_⟩
    rcases mem_append.1 hmem with hmem | hmem
    · exact h.line hmem
    · exact hcommit (Or.inl (mem_singleton.1 hmem).symm)

theorem key (c : UInt8) : Holds (i.key c).2 (t.key c) := by
  unfold Input.key Terminal.key
  by_cases hW : c = ctrl 'W'
  · subst hW
    exact h.killLine
  rw [if_neg hW, if_neg hW]
  by_cases hP : c = ctrl 'P'
  · subst hP
    exact h
  rw [if_neg hP]
  by_cases hH : c = ctrl 'H' ∨ c = 0x7f
  · rw [if_pos hH, if_pos hH]
    exact h.backspace
  rw [if_neg hH, if_neg hH]
  by_cases hC : c = ctrl 'C'
  · subst hC
    exact h
  rw [if_neg hC, h.pending_eq]
  have hplain : Terminal.Plain c ↔ c ≠ 0 :=
    ⟨fun h => h.1, fun h => ⟨h, hP, hC, hW, fun he => hH (Or.inl he), fun he => hH (Or.inr he)⟩⟩
  by_cases hroom : c ≠ 0 ∧ t.pending < INPUT_BUF
  · rw [if_pos hroom, if_pos ⟨hplain.2 hroom.1, hroom.2⟩]
    exact h.store hC hroom.2
  · rw [if_neg hroom, if_neg fun hboth => hroom ⟨hplain.1 hboth.1, hboth.2⟩]
    exact h

theorem take (hne : i.ring.rd ≠ i.w) :
    Holds { i with ring := i.ring.pop } { t with taken := t.taken ++ [i.ring.front INPUT_BUF] } := by
  have hlt : t.taken.length < t.committed.length :=
    lt_of_le_of_ne h.taken.length_le fun he => hne (h.empty_iff.2 (h.taken.eq_of_length he))
  have hring := h.ring.pop (by decide) (by
    rw [length_append]
    omega)
  refine ⟨hring, h.w, ?_, h.line⟩
  refine prefix_of_prefix_length_le hring.initial (prefix_append _ _) ?_
  rw [length_append, length_singleton]
  exact hlt

end Input.Holds

namespace Input

/-- The two inputs differ in the characters of the line only. -/
structure Same (i j : Input) : Prop where
  rd : i.ring.rd = j.ring.rd
  w : i.w = j.w
  log : i.log = j.log

theorem killLine_same (i : Input) : i.killLine.Same i := by
  fun_induction Input.killLine i with
  | case1 i _ ih => exact ⟨ih.rd, ih.w, ih.log⟩
  | case2 i => exact ⟨rfl, rfl, rfl⟩

theorem backspace_same (i : Input) : i.backspace.Same i := by
  unfold backspace
  split <;> exact ⟨rfl, rfl, rfl⟩

theorem store_keeps (i : Input) (c : UInt8) : (i.store c).2.ring.rd = i.ring.rd ∧
    (i.store c).2.log = i.log ∧ ((i.store c).1 = false → (i.store c).2.w = i.w) := by
  unfold store
  dsimp only
  generalize (if c = ch '\r' then ch '\n' else c) = d
  split
  · exact ⟨rfl, rfl, nofun⟩
  · exact ⟨rfl, rfl, fun _ => rfl⟩

/-- No character moves `r`, and only one that completes a line moves `w`. -/
theorem key_keeps (i : Input) (c : UInt8) : (i.key c).2.ring.rd = i.ring.rd ∧
    (i.key c).2.log = i.log ∧ ((i.key c).1 = false → (i.key c).2.w = i.w) := by
  have hsame : ∀ j : Input, j.Same i → j.ring.rd = i.ring.rd ∧ j.log = i.log ∧
      (false = false → j.w = i.w) := fun j h => ⟨h.rd, h.log, fun _ => h.w⟩
  have hrefl : i.Same i := ⟨rfl, rfl, rfl⟩
  unfold key
  split_ifs
  · exact hsame _ hrefl
  · exact hsame _ i.killLine_same
  · exact hsame _ i.backspace_same
  · exact hsame _ hrefl
  · exact i.store_keeps c
  · exact hsame _ hrefl

/-- A character that is no command is stored if there is room. -/
theorem key_ring_of_plain {i : Input} {c : UInt8} (hc : Terminal.Plain c)
    (hroom : (i.ring.wr - i.ring.rd).toNat < INPUT_BUF) :
    (i.key c).2.ring = i.ring.push INPUT_BUF (Terminal.newline c) := by
  obtain ⟨h0, hP, hC, hW, hH, hdel⟩ := hc
  rw [key, if_neg hP, if_neg hW, if_neg (not_or_intro hH hdel), if_neg hC, if_pos ⟨h0, hroom⟩,
    Input.store]
  dsimp only
  rw [← Terminal.newline]
  split <;> rfl

end Input

end

/-! ## The calls -/

theorem terminal_append (log : List Event) (e : Event) :
    terminal (log ++ [e]) = (terminal log).event e := by
  rw [terminal, foldl_append, foldl_cons, foldl_nil, terminal]

/-- Readers sleep while nothing is committed, and a character is taken when one is committed. -/
def rules (allow : (β : Type) → Op β → Input → Prop) (inv always : Input → Prop) :
    Rules Op Input Unit where
  pre _ o i := match o with
    | .take _ => i.ring.rd ≠ i.w
    | _ => True
  allow := allow
  waits _ i := i.ring.rd = i.w
  inv := inv
  always := always

instance {allow : (β : Type) → Op β → Input → Prop} {inv always : Input → Prop}
    [∀ β o i, Decidable (allow β o i)] (β : Type) (p : ℕ) (a : Act β) (s : State Input Unit Job) :
    Decidable (Allowed (rules allow inv always) β p a s) :=
  match a with
  | .left o => decidable_of_iff (allow β o s.res)
      ⟨fun h _ ho => Plus.left.inj ho ▸ ⟨h, nofun⟩, fun h => (h o rfl).1⟩
  | .right _ => isTrue nofun

/-- What the calls need to keep `inv`: a call may return what it likes, but `0` only for no
bytes; and if a `^D` ends it, the two steps together keep `inv`. -/
structure Keeps (allow : (β : Type) → Op β → Input → Prop) (inv : Input → Prop) : Prop where
  key : ∀ i c, inv i → allow Bool (.key c) i → inv (run Bool (.key c) i).2
  take : ∀ i first, inv i → i.ring.front INPUT_BUF ≠ ctrl 'D' → inv (run UInt8 (.take first) i).2
  ret : ∀ i n k, inv i → (n ≠ 0 → k ≠ 0) → inv (run Unit (.ret n k) i).2
  eof : ∀ i n rest, rest + 1 ≤ n → inv i → allow UInt8 (.take (rest + 1 = n)) i →
    i.ring.front INPUT_BUF = ctrl 'D' →
    inv (run Unit (.ret n (n - (rest + 1 : ℕ))) (run UInt8 (.take (rest + 1 = n)) i).2).2

section Calls

variable {allow : (β : Type) → Op β → Input → Prop} {inv always : Input → Prop} {i : Input}

/-- An operation that does not take away the reason to sleep. -/
theorem ends_op {β : Type} {o : Op β} {k : β → Prog Act Unit}
    (hpre : (rules allow inv always).pre β o i)
    (hwaits : i.ring.rd = i.w → (run β o i).2.ring.rd = (run β o i).2.w)
    (hk : allow β o i → Ends run (rules allow inv always) (k (run β o i).1) (.locked (run β o i).2 ∅)) :
    Ends run (rules allow inv always) (op o >>= k) (.locked i ∅) := by
  refine follows_op hpre fun hallow => ?_
  have hdebts : debts run (rules allow inv always) o ∅ i = ∅ := by
    refine Set.eq_empty_iff_forall_notMem.2 fun c hc => ?_
    rcases hc with ⟨hc | ⟨hold, hnew⟩, -⟩
    · exact hc
    · exact hnew (hwaits hold)
  rw [hdebts]
  exact hk hallow

theorem ends_finish {n : ℕ} {k : ℤ} (hinv : inv (run Unit (.ret n k) i).2) :
    Ends run (rules allow inv always) (finish n k) (.locked i ∅) :=
  ends_op trivial id fun _ => ends_release hinv

theorem takes_killcur (q : Option ℕ) {D : Set Unit} :
    Takes (protocol run (rules allow inv always)) (.locked i D) (.locked i D) (killcur q) := by
  cases q with
  | some q => exact takes_kill (Or.inr ⟨_, _, rfl⟩)
  | none =>
    refine follows_act.2 ⟨trivial, ?_⟩
    rintro _ _ rfl
    refine follows_act.2 ⟨trivial, ?_⟩
    rintro _ _ rfl
    rfl

variable (hkeep : Keeps allow inv)

include hkeep

theorem ends_readLoop {n rest : ℕ} (hrest : rest ≤ n) (hinv : inv i) :
    Ends run (rules allow inv always) (readLoop n rest hrest) (.locked i ∅) := by
  induction rest generalizing i with
  | zero => exact ends_finish (hkeep.ret i n n hinv (by omega))
  | succ rest ih =>
    refine ends_op trivial id fun _ => ?_
    change Ends _ _ (if decide (i.ring.rd = i.w) = true then _ else _) (.locked i ∅)
    by_cases hempty : i.ring.rd = i.w
    · rw [if_pos (decide_eq_true hempty)]
      refine follows_act.2 ⟨trivial, ?_⟩
      rintro killed _ rfl
      cases killed with
      | true => exact ends_finish (hkeep.ret i n (-1) hinv (by omega))
      | false => exact ends_sleep hinv hempty
    · rw [if_neg (by simpa using hempty)]
      refine ends_op hempty (fun h => absurd h hempty) fun hallow => ?_
      change Ends _ _ (if i.ring.front INPUT_BUF = ctrl 'D' then _ else _) _
      by_cases hD : i.ring.front INPUT_BUF = ctrl 'D'
      · rw [if_pos hD]
        exact ends_finish (hkeep.eof i n rest hrest hinv hallow hD)
      · rw [if_neg hD]
        have htake := hkeep.take i (rest + 1 = n) hinv hD
        split
        · exact ends_finish (hkeep.ret _ n _ htake (by omega))
        · exact ih (by omega) htake

theorem ends_intrLoop (cs : List (UInt8 × Option ℕ)) (hinv : inv i) :
    Ends run (rules allow inv always) (intrLoop cs) (.locked i ∅) := by
  induction cs generalizing i with
  | nil => exact ends_release hinv
  | cons x cs ih =>
    obtain ⟨c, q⟩ := x
    have hrest : allow Bool (.key c) i → Ends run (rules allow inv always) (intrLoop cs)
        (.locked (run Bool (.key c) i).2 ∅) := fun hallow => ih (hkeep.key i c hinv hallow)
    obtain ⟨hrd, -, hw⟩ := i.key_keeps c
    cases hcomplete : (i.key c).1 with
    | false =>
      have hwaits : i.ring.rd = i.w →
          (run Bool (.key c) i).2.ring.rd = (run Bool (.key c) i).2.w := fun h =>
        hrd.trans (h.trans (hw hcomplete).symm)
      refine ends_op trivial hwaits fun hallow => ?_
      change Ends _ _ (if c = ctrl 'C' then _ else if (i.key c).1 = true then _ else _) _
      rw [hcomplete, if_neg Bool.false_ne_true]
      split
      · exact follows_bind_eq (takes_killcur q) fun _ => hrest hallow
      · exact hrest hallow
    | true =>
      have hc : c ≠ ctrl 'C' := by
        rintro rfl
        cases hcomplete
      refine follows_op trivial fun hallow => ?_
      change Ends _ _ (if c = ctrl 'C' then _ else if (i.key c).1 = true then _ else _) _
      rw [if_neg hc, if_pos hcomplete]
      refine follows_bind_eq takes_wakeup fun _ => ?_
      have hpaid : ∀ D : Set Unit, D \ {()} = ∅ := fun D =>
        Set.eq_empty_iff_forall_notMem.2 fun c hc => hc.2 rfl
      rw [hpaid]
      exact hrest hallow

theorem ends_of_starts {p : ℕ} {s : State Input Unit Job} {c : Prog Act Unit} (h : Starts p s c) :
    Ends run (rules allow inv always) c .idle := by
  obtain ⟨k, hk⟩ := h
  unfold enter at hk
  split at hk <;> cases hk
  next j _ _ => exact ends_awaken fun i hinv => ends_readLoop hkeep j.le hinv
  · exact ends_acquire fun i hinv => ends_readLoop hkeep le_rfl hinv
  · exact ends_acquire fun i hinv => ends_intrLoop hkeep _ hinv
  · exact takes_kill (Or.inl rfl)

end Calls

/-! ## Runs -/

/-- All runs; the buffer always holds the terminal. -/
abbrev lineRules : Rules Op Input Unit :=
  rules (fun _ _ _ => True) (fun _ => True) fun i => i.Holds (terminal i.log)

theorem Input.Holds.record {i : Input} {e : Event} (h : i.Holds ((terminal i.log).event e)) :
    (i.record e).Holds (terminal (i.record e).log) := by
  rw [Input.record, terminal_append]
  exact ⟨h.ring, h.w, h.taken, h.line⟩

theorem Input.Holds.run {β : Type} {o : Op β} {i : Input} (h : i.Holds (terminal i.log))
    (hpre : lineRules.pre β o i) : (Tty.run β o i).2.Holds (terminal (Tty.run β o i).2.log) := by
  cases o with
  | key c =>
    refine Input.Holds.record ?_
    rw [(i.key_keeps c).2.1]
    exact h.key c
  | empty => exact h
  | take first => exact Input.Holds.record (i := { i with ring := i.ring.pop }) (h.take hpre)
  | ret n k => exact Input.Holds.record h

theorem holds_start (bytes : ℕ → UInt8) :
    (Input.start bytes).Holds (terminal (Input.start bytes).log) :=
  ⟨Ring.carries_nil rfl rfl, rfl, nil_prefix, not_mem_nil⟩

theorem certified_line {bytes : ℕ → UInt8} {killed : ℕ → Bool} {m : Machine}
    (h : Runs lineRules bytes killed m) :
    Threads.Certified (protocol run lineRules) (Sound lineRules) .idle m := by
  refine certified trivial (holds_start bytes) (fun β o i hpre _ halways => halways.run hpre)
    (fun p s c hc => ends_of_starts ⟨?_, ?_, ?_, ?_⟩ hc) h
  all_goals intros; trivial

/-- In every state the readers have taken a part of the committed stream in order, the rest of
it and the line behind it lie in the buffer, and a character that is no command is stored
unless `INPUT_BUF` characters are pending. While `input.lock` is free, a reader sleeps only if
all that is committed was taken. -/
theorem tty_line (bytes : ℕ → UInt8) (killed : ℕ → Bool) (m : Machine)
    (h : Runs lineRules bytes killed m) :
    (m.state.res.w - m.state.res.ring.rd).toNat ≤
        (m.state.res.ring.wr - m.state.res.ring.rd).toNat ∧
      (m.state.res.ring.wr - m.state.res.ring.rd).toNat ≤ INPUT_BUF ∧
      (terminal m.state.res.log).taken <+: (terminal m.state.res.log).committed ∧
      (terminal m.state.res.log).committed = (terminal m.state.res.log).taken ++
        Ring.contents INPUT_BUF { m.state.res.ring with wr := m.state.res.w } ∧
      (terminal m.state.res.log).committed ++ (terminal m.state.res.log).line =
        (terminal m.state.res.log).taken ++ m.state.res.ring.contents INPUT_BUF ∧
      (∀ c, Terminal.Plain c → (m.state.res.ring.wr - m.state.res.ring.rd).toNat ≠ INPUT_BUF →
        (m.state.res.key c).2.ring = m.state.res.ring.push INPUT_BUF (Terminal.newline c)) ∧
      (m.state.lock = none → ∀ p, m.state.status p = .asleep () →
        (terminal m.state.res.log).taken = (terminal m.state.res.log).committed) := by
  have hcert := certified_line h
  have hholds : m.state.res.Holds (terminal m.state.res.log) := always_of_certified hcert
  have hcom := hholds.ring_committed
  have hlen := hholds.ring.length_le
  have hfits := hholds.ring.fits
  refine ⟨?_, ?_, hholds.taken, ?_, ?_, fun c hc hroom => ?_, fun hfree p hp => ?_⟩
  · rw [hcom.toNat_sub (by decide), hholds.ring.toNat_sub (by decide), length_append]
    omega
  · rw [hholds.ring.toNat_sub (by decide)]
    omega
  · rw [hcom.contents (by decide) (by decide)]
    exact (prefix_iff_eq_append.1 hholds.taken).symm
  · rw [hholds.ring.contents (by decide) (by decide)]
    exact (prefix_iff_eq_append.1 hholds.ring.initial).symm
  · refine Input.key_ring_of_plain hc (lt_of_le_of_ne ?_ hroom)
    rw [hholds.ring.toNat_sub (by decide)]
    omega
  · exact hholds.empty_iff.1 (waits_of_certified hcert hfree hp)

/-- A reader waits for a line, and `x` is typed. -/
theorem tty_line_sample : ∃ m : Machine, Runs lineRules (fun _ => 0) (fun _ => false) m ∧
    m.state.lock = none ∧ m.state.status 0 = .asleep () ∧
    (m.state.res.key (ch 'y')).2.ring = m.state.res.ring.push INPUT_BUF (ch 'y') ∧
    (terminal m.state.res.log).taken = (terminal m.state.res.log).committed := by
  have hplay : played lineRules
      [.call 0 (.read 3), .run 0 7, .call 1 (.intr [(ch 'x', none)]), .run 1 4] (fun m =>
        decide (m.state.lock = none) && (decide (m.state.status 0 = .asleep ()) &&
          decide ((m.state.res.ring.wr - m.state.res.ring.rd).toNat ≠ INPUT_BUF))) = true := by
    decide +kernel
  obtain ⟨m, hm, h⟩ := exists_run hplay
  simp only [Bool.and_eq_true, decide_eq_true_eq] at h
  obtain ⟨-, -, -, -, -, hstore, hsleep⟩ := tty_line _ _ m hm
  exact ⟨m, hm, h.1, h.2.1, hstore (ch 'y') (by decide) h.2.2, hsleep h.1 0 h.2.1⟩

/-- The character `0` is dropped although no character is pending. And in the middle of
`ttyintr` a reader sleeps although a line is committed. -/
theorem tty_drops_zero :
    (∃ m : Machine, Runs lineRules (fun _ => 0) (fun _ => false) m ∧
      m.state.res.log = [.key 0] ∧ m.state.res.ring.wr = m.state.res.ring.rd) ∧
    ∃ m : Machine, Runs lineRules (fun _ => 0) (fun _ => false) m ∧
      m.state.status 0 = .asleep () ∧ m.state.res.w ≠ m.state.res.ring.rd := by
  have hzero : played lineRules [.call 0 (.intr [(0, none)]), .run 0 4] (fun m =>
        decide (m.state.res.log = [.key 0]) &&
          decide (m.state.res.ring.wr = m.state.res.ring.rd)) = true := by
    decide +kernel
  have hsleep : played lineRules
      [.call 0 (.read 3), .run 0 7, .call 1 (.intr [(ch '\n', none)]), .run 1 2] (fun m =>
        decide (m.state.status 0 = .asleep ()) &&
          decide (m.state.res.w ≠ m.state.res.ring.rd)) = true := by
    decide +kernel
  obtain ⟨m, hm, h⟩ := exists_run hzero
  obtain ⟨m', hm', h'⟩ := exists_run hsleep
  simp only [Bool.and_eq_true, decide_eq_true_eq] at h h'
  exact ⟨⟨m, hm, h⟩, m', hm', h'⟩

end Qwin.Tty
