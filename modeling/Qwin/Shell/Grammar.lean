import Qwin.Shell.Tokens

/-!
# The grammar of the shell

The parser accepts a line if and only if its tokens can be derived in the grammar, and the
command it returns is the one that is derived. In one direction every function of the parser
ends, and what it has consumed is derived from its nonterminal; in the other it gives the
derived command back if it is followed by a token that may stand there.
-/

namespace Qwin.Shell

open Outcome List
open Sys (O_RDONLY O_WRONLY O_CREAT)

abbrev Text := List UInt8

inductive RedirKind where
  | input
  | output
  | append

namespace RedirKind

def token : RedirKind → Token
  | input => .lt
  | output => .gt
  | append => .append

def mode : RedirKind → BitVec 32
  | input => O_RDONLY
  | output => O_WRONLY ||| O_CREAT
  | append => O_WRONLY ||| O_CREAT

def fd : RedirKind → ℕ
  | input => 0
  | output => 1
  | append => 1

end RedirKind

structure Redir where
  kind : RedirKind
  file : Text

def Redir.tokens (r : Redir) : List Token := [r.kind.token, .word r.file]

def Redir.wrap (t : Cmd Text) (r : Redir) : Cmd Text := .redir t r.file r.kind.mode r.kind.fd

/-- An argument and the redirections behind it. -/
abbrev Arg := Text × List Redir

def Arg.tokens (a : Arg) : List Token := .word a.1 :: a.2.flatMap Redir.tokens

inductive Nonterminal where
  | line
  | pipe
  | exec

/-- `line ::= pipe '&'* (';' line)?`, `pipe ::= exec ('|' pipe)?`,
`exec ::= '(' line ')' redir* | redir* (word redir*)*` with at most `MAXARGS - 1` words -/
inductive Derives : Nonterminal → List Token → Cmd Text → Prop
  | line {ts : List Token} {t : Cmd Text} (k : ℕ) (ht : Derives .pipe ts t) :
      Derives .line (ts ++ .replicate k .amp) (Cmd.back^[k] t)
  | list {ts us : List Token} {t u : Cmd Text} (k : ℕ) (ht : Derives .pipe ts t)
      (hu : Derives .line us u) :
      Derives .line (ts ++ .replicate k .amp ++ .semi :: us) (.list (Cmd.back^[k] t) u)
  | exec {ts : List Token} {t : Cmd Text} (ht : Derives .exec ts t) : Derives .pipe ts t
  | pipe {ts us : List Token} {t u : Cmd Text} (ht : Derives .exec ts t)
      (hu : Derives .pipe us u) : Derives .pipe (ts ++ .bar :: us) (.pipe t u)
  | block {ts : List Token} {t : Cmd Text} (rs : List Redir) (ht : Derives .line ts t) :
      Derives .exec (.lpar :: ts ++ .rpar :: rs.flatMap Redir.tokens) (rs.foldl Redir.wrap t)
  | simple (rs : List Redir) (args : List Arg) (hargs : args.length ≤ MAXARGS - 1) :
      Derives .exec (rs.flatMap Redir.tokens ++ args.flatMap Arg.tokens)
        ((rs ++ args.flatMap Prod.snd).foldl Redir.wrap (.exec (args.map Prod.fst)))

namespace Word

def text (w : Word) : Text := w.q.take (w.q.length - w.eq.length)

/-- A word of a line: it ends where no byte of a word stands. -/
structure In (line : Ptr) (w : Word) : Prop where
  suffix : w.q <:+ line
  eq_append : w.q = w.text ++ w.eq
  ne : w.text ≠ []
  plain : ∀ c ∈ w.text, plain c = true
  stop : ∀ c ∈ w.eq.head?, Shell.plain c = false

end Word

theorem Reads.word {line s : Ptr} {w : Text} (h : Reads s (.word w)) (hs : s <:+ line) :
    (Word.mk (gettoken s).q (gettoken s).eq).In line ∧
      (Word.mk (gettoken s).q (gettoken s).eq).text = w := by
  obtain ⟨hq, hne, hplain, hstop⟩ := h.scanned.word w rfl
  have htext : (Word.mk (gettoken s).q (gettoken s).eq).text = w := by
    rw [Word.text, hq, length_append, Nat.add_sub_cancel, take_left]
  refine ⟨⟨h.suffix_q.trans hs, ?_, ?_, ?_, hstop⟩, htext⟩
  · rw [htext, hq]
  · rwa [htext]
  · rwa [htext]

/-! ## What the parser accepts can be derived -/

section

variable {line s s' : Ptr} {cmd cmd' : Cmd Word} {ts us : List Token} {fuel : ℕ}

/-- The parser has gone from `s` to `s'` over the tokens `ts`, and its command is `cmd`. -/
structure Rest (line s : Ptr) (ts : List Token) (cmd : Cmd Word) (s' : Ptr) : Prop where
  tokens : tokens s = ts ++ tokens s'
  suffix : s' <:+ s
  words : ∀ w ∈ cmd.words, w.In line

theorem Rest.skip (hw : ∀ w ∈ cmd.words, w.In line) : Rest line s [] cmd (skip s) :=
  ⟨by simp, skip_suffix s, hw⟩

theorem Rest.trans {u : Ptr} (h : Rest line s ts cmd s') (h' : Rest line s' us cmd' u) :
    Rest line s (ts ++ us) cmd' u :=
  ⟨by rw [h.tokens, h'.tokens, append_assoc], h'.suffix.trans h.suffix, h'.words⟩

theorem Rest.skip_end (h : Rest line s ts cmd s') : Rest line s ts cmd (Shell.skip s') :=
  ⟨by rw [h.tokens, tokens_skip], (skip_suffix s').trans h.suffix, h.words⟩

theorem Rest.of_skip (h : Rest line (Shell.skip s) ts cmd s') : Rest line s ts cmd s' :=
  ⟨by rw [← h.tokens, tokens_skip], h.suffix.trans (skip_suffix s), h.words⟩

theorem Rest.node {u : Ptr} {right both : Cmd Word} (h : Rest line s ts cmd s')
    (h' : Rest line s' us right u) (hboth : both.words = cmd.words ++ right.words) :
    Rest line s (ts ++ us) both u := by
  refine ⟨(h.trans h').tokens, (h.trans h').suffix, fun w hw => ?_⟩
  rw [hboth] at hw
  exact (mem_append.1 hw).elim (h.words w) (h'.words w)

theorem Rest.token {t : Token} (ht : Shell.tokens s = t :: ts) (hw : ∀ w ∈ cmd.words, w.In line) :
    Rest line s [t] cmd (gettoken (Shell.skip s)).s ∧ Reads (Shell.skip s) t ∧
      (gettoken (Shell.skip s)).s.length < s.length := by
  rw [← tokens_skip] at ht
  obtain ⟨hr, hts⟩ := gettoken_cons ht
  refine ⟨⟨?_, hr.suffix.trans (skip_suffix s), hw⟩, hr, ?_⟩
  · rw [← tokens_skip, ht, hts, singleton_append]
  · exact lt_of_lt_of_le hr.shorter (skip_suffix s).length_le

theorem code_word {t : Token} (h : t.code = byte 'a') : ∃ w, t = .word w := by
  cases t with
  | word w => exact ⟨w, rfl⟩
  | _ => exact absurd h (by decide)

theorem code_ne_zero (t : Token) : t.code ≠ 0 := by
  cases t with
  | word w => exact (by decide : byte 'a' ≠ 0)
  | _ => decide

theorem exists_kind {t : Token} (h : t.first ∈ [byte '<', byte '>']) :
    ∃ k : RedirKind, t = k.token := by
  rcases Token.redir_of_first h with rfl | rfl | rfl
  · exact ⟨.input, rfl⟩
  · exact ⟨.output, rfl⟩
  · exact ⟨.append, rfl⟩

theorem parseredirs_redir {k : RedirKind} (ht : tokens s = k.token :: ts) (fuel : ℕ) :
    parseredirs (fuel + 1) cmd s =
      if (gettoken (gettoken (skip s)).s).ret ≠ byte 'a' then .fail .missingFile
      else parseredirs fuel
        (.redir cmd ⟨(gettoken (gettoken (skip s)).s).q, (gettoken (gettoken (skip s)).s).eq⟩
          k.mode k.fd) (gettoken (gettoken (skip s)).s).s := by
  have hp : peek s [byte '<', byte '>'] = (true, skip s) :=
    peek_true (by decide) ht (by cases k <;> decide)
  rw [← tokens_skip] at ht
  rw [parseredirs, hp]
  simp only [(gettoken_cons ht).1.ret]
  cases k <;> rfl

theorem parseredirs_cons {r : Redir} (ht : tokens s = r.tokens ++ ts) (hs : s <:+ line)
    (hw : ∀ w ∈ cmd.words, w.In line) (fuel : ℕ) :
    ∃ cmd' s', parseredirs (fuel + 1) cmd s = parseredirs fuel cmd' s' ∧
      Rest line s r.tokens cmd' s' ∧ s'.length < s.length ∧
      cmd'.map Word.text = r.wrap (cmd.map Word.text) := by
  obtain ⟨hrest, -, hlt⟩ := Rest.token ht hw
  have hts : tokens (gettoken (skip s)).s = .word r.file :: ts :=
    (cons_eq_cons.1 (hrest.tokens.symm.trans ht)).2
  rw [parseredirs_redir ht]
  generalize (gettoken (skip s)).s = s1 at hts hrest hlt
  obtain ⟨hread, hts'⟩ := gettoken_cons hts
  obtain ⟨hin, htext⟩ := hread.word (hrest.suffix.trans hs)
  have hret : (gettoken s1).ret = byte 'a' := hread.ret
  rw [if_neg (not_not.2 hret)]
  refine ⟨_, _, rfl, ⟨?_, hread.suffix.trans hrest.suffix, ?_⟩, hread.shorter.trans hlt, ?_⟩
  · rw [ht, hts']
  · intro x hx
    rcases mem_append.1 hx with hx | hx
    · exact hw x hx
    · rw [mem_singleton.1 hx]
      exact hin
  · rw [Cmd.map, htext]
    rfl

theorem parseredirs_missing {k : RedirKind} (ht : tokens s = k.token :: ts)
    (hts : ∀ w, .word w ∉ ts.head?) (fuel : ℕ) :
    parseredirs (fuel + 1) cmd s = .fail .missingFile := by
  rw [parseredirs_redir ht, if_pos]
  rw [← tokens_skip] at ht
  have hrest := (gettoken_cons ht).2
  cases ts with
  | nil =>
    rw [(gettoken_nil hrest).1]
    decide
  | cons t ts =>
    rw [(gettoken_cons hrest).1.ret]
    intro hcode
    obtain ⟨w, rfl⟩ := code_word hcode
    exact hts w rfl

theorem parseredirs_nil (h : ∀ t ∈ (tokens s).head?, t.first ∉ [byte '<', byte '>']) (fuel : ℕ) :
    parseredirs (fuel + 1) cmd s = .ok (cmd, skip s) := by
  rw [parseredirs, peek_false (by decide) h]

theorem parseredirs_ends (hfuel : s.length < fuel) (hs : s <:+ line)
    (hw : ∀ w ∈ cmd.words, w.In line) :
    Ends (parseredirs fuel cmd s) fun r => ∃ rs : List Redir,
      Rest line s (rs.flatMap Redir.tokens) r.1 r.2 ∧
        r.1.map Word.text = rs.foldl Redir.wrap (cmd.map Word.text) := by
  induction fuel generalizing cmd s with
  | zero => omega
  | succ fuel ih =>
    by_cases hfirst : ∃ k : RedirKind, k.token ∈ (tokens s).head?
    · obtain ⟨k, hk⟩ := hfirst
      obtain ⟨ts, hts⟩ := List.head?_eq_some_iff.1 hk
      by_cases hfile : ∃ w, .word w ∈ ts.head?
      · obtain ⟨w, hword⟩ := hfile
        obtain ⟨us, rfl⟩ := List.head?_eq_some_iff.1 hword
        obtain ⟨cmd', s', heq, hrest, hlt, hmap⟩ :=
          parseredirs_cons (r := ⟨k, w⟩) hts hs hw fuel
        rw [heq]
        refine (ih (by omega) (hrest.suffix.trans hs) hrest.words).imp ?_
        rintro ⟨cmd2, s2⟩ ⟨rs, hrest2, hmap2⟩
        exact ⟨⟨k, w⟩ :: rs, hrest.trans hrest2, by rw [hmap2, hmap]; rfl⟩
      · rw [parseredirs_missing hts (not_exists.1 hfile)]
        trivial
    · rw [parseredirs_nil fun t ht hmem => ?_]
      · exact ⟨[], Rest.skip hw, rfl⟩
      · obtain ⟨k, rfl⟩ := exists_kind hmem
        exact hfirst ⟨k, ht⟩

/-! ## Ampersands and arguments -/

theorem parsebacks_cons (ht : tokens s = .amp :: ts) (fuel : ℕ) :
    parsebacks (fuel + 1) cmd s = parsebacks fuel (.back cmd) (gettoken (skip s)).s := by
  rw [parsebacks, peek_true (by decide) ht (by decide)]

theorem parsebacks_nil (h : .amp ∉ (tokens s).head?) (fuel : ℕ) :
    parsebacks (fuel + 1) cmd s = .ok (cmd, skip s) := by
  rw [parsebacks, peek_false (by decide) fun t ht hfirst => h ?_]
  rwa [← Token.eq_of_first (t := .amp) (by decide) hfirst]

theorem parsebacks_ends (hfuel : s.length < fuel) (hw : ∀ w ∈ cmd.words, w.In line) :
    Ends (parsebacks fuel cmd s) fun r => ∃ k,
      Rest line s (.replicate k .amp) r.1 r.2 ∧ r.1 = Cmd.back^[k] cmd := by
  induction fuel generalizing cmd s with
  | zero => omega
  | succ fuel ih =>
    by_cases hfirst : .amp ∈ (tokens s).head?
    · obtain ⟨ts, hts⟩ := List.head?_eq_some_iff.1 hfirst
      rw [parsebacks_cons hts]
      obtain ⟨hrest, -, hlt⟩ := Rest.token hts hw
      have hw' : ∀ w ∈ (Cmd.back cmd).words, w.In line := hw
      refine (ih (lt_of_lt_of_le hlt (Nat.lt_succ_iff.1 hfuel)) hw').imp ?_
      rintro ⟨cmd', s'⟩ ⟨k, hrest', heq⟩
      refine ⟨k + 1, ?_, heq⟩
      rw [replicate_succ]
      exact hrest.trans hrest'
    · rw [parsebacks_nil hfirst]
      exact ⟨0, Rest.skip hw, rfl⟩

namespace Cmd

variable {α β : Type}

theorem map_addArg (f : α → β) (x : α) (c : Cmd α) : (c.addArg x).map f = (c.map f).addArg (f x) := by
  induction c with
  | exec argv => simp [addArg, map]
  | redir c file mode fd ih => simp [addArg, map, ih]
  | pipe => rfl
  | list => rfl
  | back => rfl

theorem mem_words_addArg {x y : α} {c : Cmd α} (hy : y ∈ (c.addArg x).words) : y = x ∨ y ∈ c.words := by
  induction c with
  | exec argv => simpa [addArg, words, or_comm] using hy
  | redir c file mode fd ih =>
    rcases mem_append.1 hy with hy | hy
    · exact (ih hy).imp_right (mem_append_left _)
    · exact Or.inr (mem_append_right _ hy)
  | pipe => exact Or.inr hy
  | list => exact Or.inr hy
  | back => exact Or.inr hy

def addArgs (t : Cmd Text) (ws : List Text) : Cmd Text := ws.foldl (fun t w => t.addArg w) t

theorem addArg_wrap (rs : List Redir) (t : Cmd Text) (w : Text) :
    (rs.foldl Redir.wrap t).addArg w = rs.foldl Redir.wrap (t.addArg w) := by
  induction rs generalizing t with
  | nil => rfl
  | cons r rs ih => exact ih _

theorem addArgs_wrap (rs : List Redir) (t : Cmd Text) (ws : List Text) :
    (rs.foldl Redir.wrap t).addArgs ws = rs.foldl Redir.wrap (t.addArgs ws) := by
  induction ws generalizing t with
  | nil => rfl
  | cons w ws ih =>
    change ((rs.foldl Redir.wrap t).addArg w).addArgs ws = _
    rw [addArg_wrap, ih]
    rfl

theorem addArgs_exec (argv ws : List Text) : (exec argv).addArgs ws = exec (argv ++ ws) := by
  induction ws generalizing argv with
  | nil => simp [addArgs]
  | cons w ws ih =>
    change (exec (argv ++ [w])).addArgs ws = _
    rw [ih, append_assoc, singleton_append]

end Cmd

theorem parseargs_cons {w : Text} (argc : ℕ) (ht : tokens s = .word w :: ts) (hs : s <:+ line)
    (hw : ∀ w ∈ cmd.words, w.In line) (fuel : ℕ) :
    ∃ x s', parseargs (fuel + 1) cmd argc s =
        (if MAXARGS ≤ argc + 1 then .fail .tooManyArgs
        else do
          let (ret, s) ← parseredirs fuel (cmd.addArg x) s'
          parseargs fuel ret (argc + 1) s) ∧
      Rest line s [.word w] (cmd.addArg x) s' ∧ s'.length < s.length ∧
      (cmd.addArg x).map Word.text = (cmd.map Word.text).addArg w := by
  obtain ⟨hrest, hread, hlt⟩ := Rest.token ht hw
  obtain ⟨hin, htext⟩ := hread.word ((skip_suffix s).trans hs)
  have hret : (gettoken (skip s)).ret = byte 'a' := hread.ret
  refine ⟨⟨(gettoken (skip s)).q, (gettoken (skip s)).eq⟩, (gettoken (skip s)).s, ?_,
    ⟨hrest.tokens, hrest.suffix, ?_⟩, hlt, ?_⟩
  · rw [parseargs, peek_false (by decide)]
    · simp only [hret]
      rfl
    · rw [ht]
      rintro t ⟨⟩
      exact show (0 : UInt8) ∉ [byte '|', byte ')', byte '&', byte ';'] by decide
  · intro y hy
    rcases Cmd.mem_words_addArg hy with rfl | hy
    · exact hin
    · exact hw y hy
  · rw [Cmd.map_addArg, htext]

theorem parseargs_stop (argc : ℕ)
    (h : ∀ t ∈ (tokens s).head?, t.first ∈ [byte '|', byte ')', byte '&', byte ';'])
    (hw : ∀ w ∈ cmd.words, w.In line) (fuel : ℕ) :
    ∃ s', parseargs (fuel + 1) cmd argc s = .ok (cmd, s') ∧ Rest line s [] cmd s' := by
  cases hts : tokens s with
  | nil =>
    refine ⟨[], ?_, by rw [hts, tokens_nil]; rfl, nil_suffix, hw⟩
    obtain ⟨hret, hnil⟩ := gettoken_nil (s := skip s) (by rw [tokens_skip, hts])
    rw [parseargs, peek_false (by decide) (by simp [hts])]
    simp only [hret, hnil]
    rfl
  | cons t ts =>
    refine ⟨skip s, ?_, Rest.skip hw⟩
    rw [parseargs, peek_true (by decide) hts (h t (by rw [hts]; rfl))]

theorem parseargs_fail {t : Token} {argc : ℕ} (hts : tokens s = t :: ts) (hword : ∀ w, t ≠ .word w)
    (h : t.first ∉ [byte '|', byte ')', byte '&', byte ';']) (fuel : ℕ) :
    parseargs (fuel + 1) cmd argc s = .fail .badToken := by
  rw [parseargs, peek_false (by decide)]
  · rw [← tokens_skip] at hts
    simp only [(gettoken_cons hts).1.ret]
    rw [if_neg (code_ne_zero t), if_pos]
    intro hcode
    obtain ⟨w, rfl⟩ := code_word hcode
    exact hword w rfl
  · rw [hts]
    rintro t ⟨⟩
    exact h

theorem parseargs_ends {argc : ℕ} (hfuel : s.length < fuel) (hargc : argc ≤ MAXARGS - 1)
    (hs : s <:+ line) (hw : ∀ w ∈ cmd.words, w.In line) :
    Ends (parseargs fuel cmd argc s) fun r => ∃ args : List Arg,
      Rest line s (args.flatMap Arg.tokens) r.1 r.2 ∧ argc + args.length ≤ MAXARGS - 1 ∧
        r.1.map Word.text = (args.flatMap Prod.snd).foldl Redir.wrap
          ((cmd.map Word.text).addArgs (args.map Prod.fst)) := by
  induction fuel generalizing cmd argc s with
  | zero => omega
  | succ fuel ih =>
    by_cases hstop : ∀ t ∈ (tokens s).head?, t.first ∈ [byte '|', byte ')', byte '&', byte ';']
    · obtain ⟨s', heq, hrest⟩ := parseargs_stop argc hstop hw fuel
      rw [heq]
      exact ⟨[], hrest, hargc, rfl⟩
    · push Not at hstop
      obtain ⟨t, ht, hfirst⟩ := hstop
      obtain ⟨ts, hts⟩ := List.head?_eq_some_iff.1 ht
      by_cases hword : ∃ w, t = .word w
      · obtain ⟨w, rfl⟩ := hword
        obtain ⟨x, s1, heq, hrest, hlt, hmap⟩ := parseargs_cons argc hts hs hw fuel
        rw [heq]
        split
        · trivial
        · rename_i hmax
          refine (parseredirs_ends (by omega) (hrest.suffix.trans hs) hrest.words).bind ?_
          rintro ⟨cmd2, s2⟩ ⟨rs, hrest2, hmap2⟩
          have hs2 := (hrest2.suffix.trans hrest.suffix).trans hs
          have hlen : s2.length ≤ s1.length := hrest2.suffix.length_le
          refine (ih (show s2.length < fuel by omega) (by omega) hs2 hrest2.words).imp ?_
          rintro ⟨cmd3, s3⟩ ⟨args, hrest3, hargs, hmap3⟩
          refine ⟨(w, rs) :: args, ?_, by rw [length_cons]; omega, ?_⟩
          · have := hrest.trans (hrest2.trans hrest3)
            simpa [Arg.tokens] using this
          · rw [hmap3, hmap2, hmap, Cmd.addArgs_wrap, flatMap_cons, foldl_append]
            rfl
      · rw [parseargs_fail hts (not_exists.1 hword) hfirst]
        trivial

/-! ## The recursive functions -/

/-- What is consumed is derived from the nonterminal. -/
def Accepts (line : Ptr) (nt : Nonterminal) (s : Ptr) (r : Cmd Word × Ptr) : Prop :=
  ∃ ts, Rest line s ts r.1 r.2 ∧ Derives nt ts (r.1.map Word.text)

theorem Cmd.map_backs (k : ℕ) (c : Cmd Word) :
    (Cmd.back^[k] c).map Word.text = Cmd.back^[k] (c.map Word.text) := by
  induction k generalizing c with
  | zero => rfl
  | succ k ih => exact ih (.back c)

section

variable
  (hline : ∀ s, s <:+ line → 4 * s.length + 4 ≤ fuel →
    Ends (parseline fuel s) (Accepts line .line s))
  (hpipe : ∀ s, s <:+ line → 4 * s.length + 3 ≤ fuel →
    Ends (parsepipe fuel s) (Accepts line .pipe s))
  (hexec : ∀ s, s <:+ line → 4 * s.length + 2 ≤ fuel →
    Ends (parseexec fuel s) (Accepts line .exec s))
  (hblock : ∀ s, s <:+ line → 4 * s.length + 1 ≤ fuel →
    Ends (parseblock fuel s) (Accepts line .exec s))

include hline hpipe in
theorem parseline_ends (hs : s <:+ line) (hfuel : 4 * s.length + 4 ≤ fuel + 1) :
    Ends (parseline (fuel + 1) s) (Accepts line .line s) := by
  rw [parseline]
  refine (hpipe s hs (by omega)).bind ?_
  rintro ⟨cmd1, s1⟩ ⟨ts, hrest1, hder⟩
  have hlen1 : s1.length ≤ s.length := hrest1.suffix.length_le
  refine (parsebacks_ends (show s1.length < fuel by omega) hrest1.words).bind ?_
  rintro ⟨cmd2, s2⟩ ⟨k, hrest2, rfl⟩
  have hlen2 : s2.length ≤ s1.length := hrest2.suffix.length_le
  have hrest := hrest1.trans hrest2
  dsimp only
  by_cases hsemi : .semi ∈ (tokens s2).head?
  · obtain ⟨us, hus⟩ := List.head?_eq_some_iff.1 hsemi
    rw [peek_true (by decide) hus (by decide)]
    obtain ⟨hrest3, -, hlt⟩ := Rest.token hus hrest2.words
    refine (hline _ (hrest3.suffix.trans (hrest.suffix.trans hs)) (by omega)).bind ?_
    rintro ⟨right, s4⟩ ⟨us', hrest4, hder'⟩
    refine ⟨_, hrest.node (hrest3.trans hrest4) rfl, ?_⟩
    rw [Cmd.map, Cmd.map_backs]
    exact .list k hder hder'
  · rw [peek_false (by decide) fun t ht hfirst => hsemi ?_]
    · refine ⟨_, hrest.skip_end, ?_⟩
      rw [Cmd.map_backs]
      exact .line k hder
    · rwa [← Token.eq_of_first (t := .semi) (by decide) hfirst]

include hpipe hexec in
theorem parsepipe_ends (hs : s <:+ line) (hfuel : 4 * s.length + 3 ≤ fuel + 1) :
    Ends (parsepipe (fuel + 1) s) (Accepts line .pipe s) := by
  rw [parsepipe]
  refine (hexec s hs (by omega)).bind ?_
  rintro ⟨cmd1, s1⟩ ⟨ts, hrest, hder⟩
  have hlen1 : s1.length ≤ s.length := hrest.suffix.length_le
  dsimp only
  by_cases hbar : .bar ∈ (tokens s1).head?
  · obtain ⟨us, hus⟩ := List.head?_eq_some_iff.1 hbar
    rw [peek_true (by decide) hus (by decide)]
    obtain ⟨hrest3, -, hlt⟩ := Rest.token hus hrest.words
    refine (hpipe _ (hrest3.suffix.trans (hrest.suffix.trans hs)) (by omega)).bind ?_
    rintro ⟨right, s4⟩ ⟨us', hrest4, hder'⟩
    exact ⟨_, hrest.node (hrest3.trans hrest4) rfl, .pipe hder hder'⟩
  · rw [peek_false (by decide) fun t ht hfirst => hbar ?_]
    · exact ⟨_, hrest.skip_end, .exec hder⟩
    · rwa [← Token.eq_of_first (t := .bar) (by decide) hfirst]

include hblock in
theorem parseexec_ends (hs : s <:+ line) (hfuel : 4 * s.length + 2 ≤ fuel + 1) :
    Ends (parseexec (fuel + 1) s) (Accepts line .exec s) := by
  rw [parseexec]
  have hskip := (skip_suffix s).length_le
  have hs' := (skip_suffix s).trans hs
  by_cases hlpar : .lpar ∈ (tokens s).head?
  · obtain ⟨us, hus⟩ := List.head?_eq_some_iff.1 hlpar
    rw [peek_true (by decide) hus (by decide)]
    refine (hblock _ hs' (by omega)).imp ?_
    rintro ⟨cmd', s'⟩ ⟨ts, hrest, hder⟩
    exact ⟨ts, hrest.of_skip, hder⟩
  · rw [peek_false (by decide) fun t ht hfirst => hlpar ?_]
    · have hnil : ∀ w ∈ (Cmd.exec [] : Cmd Word).words, w.In line := by simp [Cmd.words]
      refine (parseredirs_ends (by omega) hs' hnil).bind ?_
      rintro ⟨cmd1, s1⟩ ⟨rs, hrest1, hmap1⟩
      have hlen1 : s1.length ≤ (skip s).length := hrest1.suffix.length_le
      refine (parseargs_ends (show s1.length < fuel by omega) (Nat.zero_le _)
        (hrest1.suffix.trans hs') hrest1.words).imp ?_
      rintro ⟨cmd2, s2⟩ ⟨args, hrest2, hargs, hmap2⟩
      refine ⟨_, (hrest1.trans hrest2).of_skip, ?_⟩
      rw [hmap2, hmap1, Cmd.addArgs_wrap, ← foldl_append]
      have := Derives.simple rs args (by omega)
      rwa [← nil_append (args.map Prod.fst), ← Cmd.addArgs_exec] at this
    · rwa [← Token.eq_of_first (t := .lpar) (by decide) hfirst]

include hline in
theorem parseblock_ends (hs : s <:+ line) (hfuel : 4 * s.length + 1 ≤ fuel + 1) :
    Ends (parseblock (fuel + 1) s) (Accepts line .exec s) := by
  rw [parseblock]
  by_cases hlpar : .lpar ∈ (tokens s).head?
  · obtain ⟨us, hus⟩ := List.head?_eq_some_iff.1 hlpar
    rw [peek_true (by decide) hus (by decide)]
    have hnil : ∀ w ∈ (Cmd.exec [] : Cmd Word).words, w.In line := by simp [Cmd.words]
    obtain ⟨hrest0, -, hlt⟩ := Rest.token hus hnil
    refine (hline _ (hrest0.suffix.trans hs) (by omega)).bind ?_
    rintro ⟨cmd1, s1⟩ ⟨ts, hrest1, hder⟩
    have hlen1 : s1.length ≤ _ := hrest1.suffix.length_le
    dsimp only
    by_cases hrpar : .rpar ∈ (tokens s1).head?
    · obtain ⟨us, hus⟩ := List.head?_eq_some_iff.1 hrpar
      rw [peek_true (by decide) hus (by decide)]
      obtain ⟨hrest2, -, hlt2⟩ := Rest.token hus hrest1.words
      have hrest := hrest0.trans (hrest1.trans hrest2)
      refine (parseredirs_ends (by omega) (hrest.suffix.trans hs) hrest2.words).imp ?_
      rintro ⟨cmd3, s3⟩ ⟨rs, hrest3, hmap⟩
      refine ⟨_, hrest.trans hrest3, ?_⟩
      rw [hmap]
      simpa using Derives.block rs hder
    · rw [peek_false (by decide) fun t ht hfirst => hrpar ?_]
      · trivial
      · rwa [← Token.eq_of_first (t := .rpar) (by decide) hfirst]
  · rw [peek_false (by decide) fun t ht hfirst => hlpar ?_]
    · trivial
    · rwa [← Token.eq_of_first (t := .lpar) (by decide) hfirst]

end

/-- Every function of the parser ends, and what it has consumed can be derived. -/
theorem parser_ends (line : Ptr) (fuel : ℕ) :
    (∀ s, s <:+ line → 4 * s.length + 4 ≤ fuel → Ends (parseline fuel s) (Accepts line .line s)) ∧
    (∀ s, s <:+ line → 4 * s.length + 3 ≤ fuel → Ends (parsepipe fuel s) (Accepts line .pipe s)) ∧
    (∀ s, s <:+ line → 4 * s.length + 2 ≤ fuel → Ends (parseexec fuel s) (Accepts line .exec s)) ∧
    ∀ s, s <:+ line → 4 * s.length + 1 ≤ fuel → Ends (parseblock fuel s) (Accepts line .exec s) := by
  induction fuel with
  | zero => exact ⟨by omega, by omega, by omega, by omega⟩
  | succ fuel ih =>
    obtain ⟨hline, hpipe, hexec, hblock⟩ := ih
    exact ⟨fun _ => parseline_ends hline hpipe, fun _ => parsepipe_ends hpipe hexec,
      fun _ => parseexec_ends hblock, fun _ => parseblock_ends hline⟩

end

end Qwin.Shell
