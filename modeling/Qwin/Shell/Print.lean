import Qwin.Shell.Strings

/-!
# Lines and commands

The pointers of a parsed command point to its words, so a line has a command whose words are
texts, and it is the one that is derived from the tokens of the line. A command is printed
with parentheses where the grammar needs them, and parsed back.
-/

namespace Qwin.Shell

open Outcome List
open Sys (O_RDONLY O_WRONLY O_CREAT)

/-! ## The command of a line -/

theorem Cmd.map_congr {α β : Type} {f g : α → β} {c : Cmd α} (h : ∀ x ∈ c.words, f x = g x) :
    c.map f = c.map g := by
  induction c with
  | exec argv => exact congrArg exec (map_congr_left h)
  | redir c file mode fd ih =>
    rw [map, map, ih fun x hx => h x (mem_append_left _ hx),
      h file (mem_append_right _ (mem_singleton_self _))]
  | pipe l r ihl ihr | list l r ihl ihr =>
    rw [map, map, ihl fun x hx => h x (mem_append_left _ hx),
      ihr fun x hx => h x (mem_append_right _ hx)]
  | back c ih => rw [map, map, ih h]

/-- The command that `parsecmd` returns, with the strings that its pointers point to. -/
def parse (buf : List UInt8) : Outcome Panic (Cmd Text) := do
  let (cmd, line) ← parsecmd buf
  pure (cmd.map (Word.read (cstring buf).length line))

/-- `parsecmd` ends, and returns what is derived from the line. -/
theorem parse_ends (buf : List UInt8) :
    Ends (parse buf) fun t => Derives .line (tokens (cstring buf)) t := by
  refine (parsecmd_ends buf).bind ?_
  rintro ⟨cmd, line⟩ ⟨hwords, hline, hder⟩
  dsimp only at hwords hline hder
  subst hline
  change Derives _ _ _
  rwa [Cmd.map_congr fun w hw => read_terminated (zero_notMem_cstring buf) hwords hw]

theorem Derives.parse {buf : List UInt8} {t : Cmd Text} (h : Derives .line (tokens (cstring buf)) t) :
    Shell.parse buf = .ok t := by
  have hnil : tokens (cstring buf) = tokens (cstring buf) ++ [] := (append_nil _).symm
  obtain ⟨cmd, s, heq, hrest, rfl⟩ := h.gives (suffix_refl _) hnil (by simp)
    (le_refl (enough (cstring buf)))
  have hs := skip_eq_nil.2 (tokens_of_rest hrest hnil)
  rw [Nonterminal.parser] at heq
  rw [Shell.parse, parsecmd, heq]
  dsimp only [ok_bind]
  rw [peek_nil, if_neg (not_not.2 hs)]
  exact congrArg Outcome.ok
    (Cmd.map_congr fun w hw => read_terminated (zero_notMem_cstring buf) hrest.words hw)

theorem parse_eq_ok_iff (buf : List UInt8) (t : Cmd Text) :
    parse buf = .ok t ↔ Derives .line (tokens (cstring buf)) t := by
  refine ⟨fun h => ?_, Derives.parse⟩
  have := parse_ends buf
  rwa [h] at this

/-! ## Printing -/

section

/-- What may stand where a command is printed. -/
inductive Level where
  | exec
  | pipe
  -- a pipe with ampersands
  | jobs
  | line
  deriving DecidableEq

/-- Parentheses around a command, if they are needed. -/
def paren (needed : Bool) (ts : List Token) : List Token :=
  if needed then .lpar :: ts ++ [.rpar] else ts

def Cmd.unparse : Cmd Text → Level → List Token
  | exec argv, _ => argv.map .word
  | redir cmd file mode _, _ =>
    cmd.unparse .exec ++ [if mode = O_RDONLY then .lt else .gt, .word file]
  | pipe left right, lv => paren (lv = .exec) (left.unparse .exec ++ .bar :: right.unparse .pipe)
  | list left right, lv => paren (lv ≠ .line) (left.unparse .jobs ++ .semi :: right.unparse .line)
  | back cmd, lv => paren (lv = .exec ∨ lv = .pipe) (cmd.unparse .jobs ++ [.amp])

def render (ts : List Token) : List UInt8 := ts.flatMap fun t => t.text ++ [byte ' ']

def print (t : Cmd Text) : List UInt8 := render (t.unparse .line)

variable {t u : Cmd Text} {ts : List Token} {nt : Nonterminal}

theorem Derives.snoc (h : Derives .exec ts t) (r : Redir) : Derives .exec (ts ++ r.tokens) (r.wrap t) := by
  cases h with
  | block rs ht =>
    have := Derives.block (rs ++ [r]) ht
    simpa using this
  | simple rs args hargs =>
    rcases eq_nil_or_concat args with rfl | ⟨args, ⟨w, rs'⟩, rfl⟩
    · have := Derives.simple (rs ++ [r]) [] hargs
      simpa using this
    · have := Derives.simple rs (args ++ [(w, rs' ++ [r])]) (by simpa using hargs)
      simpa [Arg.tokens] using this

/-- Every redirection is one of `<`, `>` and `>>`, and the arguments of every command are as
`P` says. -/
def Cmd.Built (P : List Text → Prop) : Cmd Text → Prop
  | exec argv => P argv
  | redir cmd _ mode fd => cmd.Built P ∧ ∃ k : RedirKind, mode = k.mode ∧ fd = k.fd
  | pipe left right => left.Built P ∧ right.Built P
  | list left right => left.Built P ∧ right.Built P
  | back cmd => cmd.Built P

abbrev Cmd.Shaped (t : Cmd Text) : Prop := t.Built fun argv => argv.length ≤ MAXARGS - 1

theorem Cmd.Shaped.wrap (rs : List Redir) (h : t.Shaped) : (rs.foldl Redir.wrap t).Shaped := by
  induction rs generalizing t with
  | nil => exact h
  | cons r rs ih => exact ih ⟨h, r.kind, rfl, rfl⟩

theorem Cmd.Shaped.backs (k : ℕ) (h : t.Shaped) : (Cmd.back^[k] t).Shaped := by
  induction k generalizing t with
  | zero => exact h
  | succ k ih => exact ih (t := .back t) h

theorem Derives.shaped (h : Derives nt ts t) : t.Shaped := by
  induction h with
  | line k _ ih => exact ih.backs k
  | list k _ _ iht ihu => exact ⟨iht.backs k, ihu⟩
  | exec _ ih => exact ih
  | pipe _ _ iht ihu => exact ⟨iht, ihu⟩
  | block rs _ ih => exact ih.wrap rs
  | simple rs args hargs =>
    exact Cmd.Shaped.wrap _ (show (args.map Prod.fst).length ≤ _ by rwa [length_map])

/-- What is printed can be derived, in every place. -/
structure Unparses (t : Cmd Text) : Prop where
  exec : Derives .exec (t.unparse .exec) t
  pipe : Derives .pipe (t.unparse .pipe) t
  jobs : ∃ k ts u, t.unparse .jobs = ts ++ .replicate k .amp ∧ t = Cmd.back^[k] u ∧
    Derives .pipe ts u
  line : Derives .line (t.unparse .line) t

theorem Derives.paren (h : Derives .line ts t) : Derives .exec (.lpar :: ts ++ [.rpar]) t :=
  .block [] h

/-- A command that needs no parentheses but in a place of its own kind. -/
theorem Unparses.of_pipe (hexec : Derives .exec (t.unparse .exec) t)
    (hpipe : Derives .pipe (t.unparse .pipe) t) (hjobs : t.unparse .jobs = t.unparse .pipe)
    (hline : t.unparse .line = t.unparse .pipe) : Unparses t := by
  refine ⟨hexec, hpipe, ⟨0, _, t, by rw [hjobs]; exact (append_nil _).symm, rfl, hpipe⟩, ?_⟩
  rw [hline]
  simpa using Derives.line 0 hpipe

theorem Derives.line_of_jobs {us : List Token} (h : ∃ k ts u, us = ts ++ .replicate k .amp ∧
    t = Cmd.back^[k] u ∧ Derives .pipe ts u) : Derives .line us t := by
  obtain ⟨k, ts, u, rfl, rfl, h⟩ := h
  exact .line k h

theorem flatMap_plain (argv : List Text) :
    (argv.map fun w => ((w, []) : Arg)).flatMap Arg.tokens = argv.map Token.word := by
  induction argv with
  | nil => rfl
  | cons w argv ih => exact congrArg (Token.word w :: ·) ih

theorem flatMap_snd_plain (argv : List Text) :
    (argv.map fun w => ((w, []) : Arg)).flatMap Prod.snd = [] := by
  induction argv with
  | nil => rfl
  | cons w argv ih => exact ih

theorem Cmd.Shaped.unparses (h : t.Shaped) : Unparses t := by
  induction t with
  | exec argv =>
    have hexec : Derives .exec (argv.map Token.word) (Cmd.exec argv) := by
      have := Derives.simple [] (argv.map fun w => (w, [])) (by rwa [length_map])
      have hid : argv.map (Prod.fst ∘ fun w => ((w, []) : Arg)) = argv := map_id _
      rwa [flatMap_nil, nil_append, nil_append, flatMap_plain, flatMap_snd_plain,
        map_map, hid] at this
    exact .of_pipe hexec (.exec hexec) rfl rfl
  | redir cmd file mode fd ih =>
    obtain ⟨h, k, rfl, rfl⟩ := h
    have hexec := (ih h).exec.snoc ⟨match k with | .input => .input | _ => .output, file⟩
    have hexec : Derives .exec ((Cmd.redir cmd file k.mode k.fd).unparse .exec)
        (.redir cmd file k.mode k.fd) := by
      cases k <;> exact hexec
    exact .of_pipe hexec (.exec hexec) rfl rfl
  | pipe left right ihl ihr =>
    have hpipe := Derives.pipe (ihl h.1).exec (ihr h.2).pipe
    refine .of_pipe (.paren ?_) hpipe rfl rfl
    simpa using Derives.line 0 hpipe
  | list left right ihl ihr =>
    obtain ⟨k, ts, u, hts, rfl, hu⟩ := (ihl h.1).jobs
    have hline : Derives .line ((Cmd.back^[k] u).unparse .jobs ++ .semi :: right.unparse .line)
        (.list (Cmd.back^[k] u) right) := by
      rw [hts]
      exact .list k hu (ihr h.2).line
    have hexec := hline.paren
    exact ⟨hexec, .exec hexec, ⟨0, _, _, (append_nil _).symm, rfl, .exec hexec⟩, hline⟩
  | back cmd ih =>
    obtain ⟨k, ts, u, hts, rfl, hu⟩ := (ih h).jobs
    have hjobs : ∃ k' ts' u', (Cmd.back^[k] u).unparse .jobs ++ [.amp] =
        ts' ++ .replicate k' .amp ∧ (Cmd.back^[k] u).back = Cmd.back^[k'] u' ∧
          Derives .pipe ts' u' := by
      refine ⟨k + 1, ts, u, ?_, (Function.iterate_succ_apply' _ _ _).symm, hu⟩
      rw [hts, append_assoc, ← replicate_succ']
    have hline := Derives.line_of_jobs hjobs
    exact ⟨hline.paren, .exec hline.paren, hjobs, hline⟩

def WordText (w : Text) : Prop := w ≠ [] ∧ ∀ c ∈ w, plain c = true ∧ c ≠ 0

theorem wordText_singleton {c : UInt8} (hplain : plain c = true) (h0 : c ≠ 0) : WordText [c] :=
  ⟨cons_ne_nil _ _, fun _ hd => mem_singleton.1 hd ▸ ⟨hplain, h0⟩⟩

theorem tokens_text {t : Token} (ht : ∀ w, t = .word w → WordText w) (s : List UInt8) :
    tokens (t.text ++ byte ' ' :: s) = t :: tokens (byte ' ' :: s) := by
  cases t with
  | word w =>
    obtain ⟨hne, hplain⟩ := ht w rfl
    obtain ⟨c, w, rfl⟩ := exists_cons_of_ne_nil hne
    have hw : ∀ c ∈ w, plain c = true := fun c hc => (hplain c (mem_cons_of_mem _ hc)).1
    obtain ⟨hc, hsym⟩ := plain_iff.1 (hplain c mem_cons_self).1
    have hnone : Token.ofByte c = none := Token.ofByte_eq_none hsym
    have hgt : c ≠ byte '>' := by
      rintro rfl
      exact hsym (by decide)
    have hspace : plain (byte ' ') ≠ true := by decide
    rw [Token.text, cons_append, tokens, if_neg hc, if_neg fun h => hgt h.1, hnone]
    rw [takeWhile_append_of_pos hw, takeWhile_cons_of_neg hspace, append_nil,
      dropWhile_append_of_pos hw, dropWhile_cons_of_neg hspace]
  | append =>
    change tokens (byte '>' :: byte '>' :: byte ' ' :: s) = _
    rw [tokens, if_neg (by decide), if_pos ⟨rfl, rfl⟩]
    rfl
  | _ =>
    rw [Token.text, singleton_append, tokens, if_neg (by decide), if_neg (by simp)]
    rfl

theorem tokens_render (hts : ∀ w, .word w ∈ ts → WordText w) : tokens (render ts) = ts := by
  induction ts with
  | nil => exact tokens_nil
  | cons t ts ih =>
    have hrest := ih fun w hw => hts w (mem_cons_of_mem _ hw)
    have hspace : byte ' ' ∈ whitespace := by decide
    rw [render, flatMap_cons, append_assoc, singleton_append,
      tokens_text fun w hw => hts w (hw ▸ mem_cons_self), tokens_space hspace]
    exact congrArg (t :: ·) hrest

theorem zero_notMem_text {t : Token} (ht : ∀ w, t = .word w → WordText w) : 0 ∉ t.text := by
  cases t with
  | word w => exact fun h0 => ((ht w rfl).2 0 h0).2 rfl
  | _ => decide

theorem cstring_render (hts : ∀ w, .word w ∈ ts → WordText w) : cstring (render ts) = render ts := by
  refine takeWhile_eq_self_iff.2 fun c hc => ?_
  obtain ⟨t, ht, hc⟩ := mem_flatMap.1 hc
  suffices c ≠ 0 by simpa using this
  rintro rfl
  rcases mem_append.1 hc with hc | hc
  · exact zero_notMem_text (fun w hw => hts w (hw ▸ ht)) hc
  · exact absurd hc (by decide)

theorem word_mem_paren {b : Bool} {w : Text} (h : .word w ∈ paren b ts) : .word w ∈ ts := by
  cases b
  · exact h
  · simpa [paren] using h

theorem Cmd.mem_words_of_mem_unparse {lv : Level} {w : Text} (hw : .word w ∈ t.unparse lv) :
    w ∈ t.words := by
  induction t generalizing lv with
  | exec argv => simpa [unparse, words] using hw
  | redir cmd file mode fd ih =>
    rcases mem_append.1 hw with hw | hw
    · exact mem_append_left _ (ih hw)
    · refine mem_append_right _ (mem_singleton.2 ?_)
      rcases mem_cons.1 hw with hw | hw
      · split at hw <;> cases hw
      · exact Token.word.inj (mem_singleton.1 hw)
  | pipe left right ihl ihr | list left right ihl ihr =>
    rcases mem_append.1 (word_mem_paren hw) with hw | hw
    · exact mem_append_left _ (ihl hw)
    · exact mem_append_right _ (ihr (mem_of_ne_of_mem (by simp) hw))
  | back cmd ih =>
    rcases mem_append.1 (word_mem_paren hw) with hw | hw
    · exact ih hw
    · cases mem_singleton.1 hw

theorem parse_print (h : t.Shaped) (hw : ∀ w ∈ t.words, WordText w) : parse (print t) = .ok t := by
  have hts : ∀ w, .word w ∈ t.unparse .line → WordText w := fun w hmem =>
    hw w (Cmd.mem_words_of_mem_unparse hmem)
  rw [parse_eq_ok_iff, print, cstring_render hts, tokens_render hts]
  exact h.unparses.line

/-- The parser of the shell ends with a command or a panic, and it returns a command if and
only if the command is derived from the tokens of the line. A command that can be derived is
printed and parsed back. -/
theorem shell_parse (buf : List UInt8) :
    ((∃ t, parse buf = .ok t) ∨ ∃ e, parse buf = .fail e) ∧
      (∀ t, parse buf = .ok t ↔ Derives .line (tokens (cstring buf)) t) ∧
      ∀ ts t, Derives .line ts t → (∀ w ∈ t.words, WordText w) → parse (print t) = .ok t := by
  refine ⟨?_, parse_eq_ok_iff buf, fun ts t h hw => parse_print h.shaped hw⟩
  exact (parse_ends buf).cases.imp_left fun ⟨t, ht, _⟩ => ⟨t, ht⟩

/-- `a<f|(b c&)>>g;d` -/
def sampleLine : List UInt8 :=
  ['a', '<', 'f', '|', '(', 'b', ' ', 'c', '&', ')', '>', '>', 'g', ';', 'd', '\n'].map byte

def sampleCmd : Cmd Text :=
  .list
    (.pipe (.redir (.exec [[byte 'a']]) [byte 'f'] O_RDONLY 0)
      (.redir (.back (.exec [[byte 'b'], [byte 'c']])) [byte 'g'] (O_WRONLY ||| O_CREAT) 1))
    (.exec [[byte 'd']])

theorem shell_parse_sample : parse sampleLine = .ok sampleCmd ∧
    Derives .line (tokens (cstring sampleLine)) sampleCmd ∧
      parse (print sampleCmd) = .ok sampleCmd := by
  have hparse : parse sampleLine = .ok sampleCmd := by decide +kernel
  obtain ⟨-, hiff, hprint⟩ := shell_parse sampleLine
  have hder := (hiff sampleCmd).1 hparse
  refine ⟨hparse, hder, hprint _ _ hder ?_⟩
  unfold WordText
  decide +kernel

/-! ## The strings of a command -/

/-- The `argv` arrays of a command, up to their null pointers. -/
def Cmd.argvs {α : Type} : Cmd α → List (List α)
  | exec argv => [argv]
  | redir cmd _ _ _ => cmd.argvs
  | pipe left right => left.argvs ++ right.argvs
  | list left right => left.argvs ++ right.argvs
  | back cmd => cmd.argvs

theorem Cmd.Shaped.length_argv {cmd : Cmd Word} {f : Word → Text} (h : (cmd.map f).Shaped) :
    ∀ argv ∈ cmd.argvs, argv.length < MAXARGS := by
  induction cmd with
  | exec argv =>
    have hlen : (argv.map f).length ≤ MAXARGS - 1 := h
    intro argv' hargv
    rw [mem_singleton.1 hargv]
    rw [length_map] at hlen
    exact Nat.lt_succ_of_le hlen
  | redir cmd file mode fd ih => exact ih h.1
  | pipe left right ihl ihr | list left right ihl ihr =>
    exact fun argv hargv => (mem_append.1 hargv).elim (ihl h.1 argv) (ihr h.2 argv)
  | back cmd ih => exact ih h

/-- After `parsecmd` every pointer of the command points to the word of the line that it was
set to, with a NUL behind it and none in it. The strings are those that are derived from the
line, so an `argv` has the words of its command in order, and there is room for the null
pointer behind them. -/
theorem shell_strings (buf : List UInt8) (cmd : Cmd Word) (line : List UInt8)
    (h : parsecmd buf = .ok (cmd, line)) :
    (∀ w ∈ cmd.words, w.In (cstring buf) ∧ w.read (cstring buf).length line = w.text ∧
      (line)[w.stop (cstring buf).length]? = some 0) ∧
    (∀ v ∈ cmd.words, ∀ w ∈ cmd.words,
      ¬ (w.start (cstring buf).length ≤ v.stop (cstring buf).length ∧
        v.stop (cstring buf).length < w.stop (cstring buf).length)) ∧
    Derives .line (tokens (cstring buf)) (cmd.map (Word.read (cstring buf).length line)) ∧
    ∀ argv ∈ cmd.argvs, argv.length < MAXARGS := by
  have hends := parsecmd_ends buf
  rw [h] at hends
  obtain ⟨hwords, hline, hder⟩ := hends
  dsimp only at hwords hline hder
  subst hline
  have hread : ∀ w ∈ cmd.words, w.read (cstring buf).length
      (nulterminate (cstring buf).length cmd (cstring buf ++ [0])) = w.text :=
    fun w hw => read_terminated (zero_notMem_cstring buf) hwords hw
  refine ⟨fun w hw => ⟨hwords w hw, hread w hw, terminated_stop _ hw⟩,
    fun v hv w hw => (hwords v hv).not_inside (hwords w hw), ?_, hder.shaped.length_argv⟩
  rwa [Cmd.map_congr hread]

/-- `a>b`: the NUL behind `a` is written over the symbol. -/
theorem shell_strings_sample :
    ∃ cmd line, parsecmd (['a', '>', 'b'].map byte) = .ok (cmd, line) ∧
      line = [byte 'a', 0, byte 'b', 0] ∧ ∀ w ∈ cmd.words, w.read 3 line = w.text := by
  obtain ⟨⟨cmd, line⟩, h⟩ : ∃ r, parsecmd (['a', '>', 'b'].map byte) = .ok r ∧
      r.2 = [byte 'a', 0, byte 'b', 0] := ⟨_, rfl, by decide +kernel⟩
  exact ⟨cmd, line, h.1, h.2, fun w hw => ((shell_strings _ cmd line h.1).1 w hw).2.1⟩

end

end Qwin.Shell
