import Qwin.Shell.Grammar

/-!
# What can be derived is accepted

A derivation is followed by a token that no function on the way would go on with. Then the
parser reads exactly the tokens of the derivation and returns its command.
-/

namespace Qwin.Shell

open Outcome List

variable {line s s' : Ptr} {cmd : Cmd Word} {ts us vs : List Token} {fuel : ℕ}

def Gives (line s : Ptr) (ts : List Token) (t : Cmd Text) (r : Outcome Panic (Cmd Word × Ptr)) :
    Prop :=
  ∃ cmd s', r = .ok (cmd, s') ∧ Rest line s ts cmd s' ∧ cmd.map Word.text = t

theorem tokens_of_rest (h : Rest line s ts cmd s') (ht : tokens s = ts ++ vs) : tokens s' = vs :=
  append_cancel_left (h.tokens.symm.trans ht)

theorem parseredirs_gives {rs : List Redir} (ht : tokens s = rs.flatMap Redir.tokens ++ vs)
    (hvs : ∀ t ∈ vs.head?, t.first ∉ [byte '<', byte '>']) (hs : s <:+ line)
    (hw : ∀ w ∈ cmd.words, w.In line) (hfuel : s.length < fuel) :
    Gives line s (rs.flatMap Redir.tokens) (rs.foldl Redir.wrap (cmd.map Word.text))
      (parseredirs fuel cmd s) := by
  obtain ⟨fuel, rfl⟩ := Nat.exists_eq_add_one.2 (Nat.zero_lt_of_lt hfuel)
  induction rs generalizing cmd s fuel with
  | nil =>
    rw [parseredirs_nil (by simpa [ht] using hvs)]
    exact ⟨_, _, rfl, Rest.skip hw, rfl⟩
  | cons r rs ih =>
    rw [flatMap_cons, append_assoc] at ht
    obtain ⟨cmd1, s1, heq, hrest, hlt, hmap⟩ := parseredirs_cons ht hs hw fuel
    obtain ⟨fuel, rfl⟩ : ∃ k, fuel = k + 1 := ⟨fuel - 1, by omega⟩
    obtain ⟨cmd2, s2, heq2, hrest2, hmap2⟩ := ih (tokens_of_rest hrest ht) (hrest.suffix.trans hs)
      hrest.words fuel (by omega)
    refine ⟨cmd2, s2, heq.trans heq2, hrest.trans hrest2, ?_⟩
    rw [hmap2, hmap, foldl_cons]

theorem parsebacks_gives {k : ℕ} (ht : tokens s = .replicate k .amp ++ vs)
    (hvs : .amp ∉ vs.head?) (hw : ∀ w ∈ cmd.words, w.In line) (hfuel : s.length < fuel) :
    Gives line s (.replicate k .amp) (Cmd.back^[k] (cmd.map Word.text)) (parsebacks fuel cmd s) := by
  obtain ⟨fuel, rfl⟩ := Nat.exists_eq_add_one.2 (Nat.zero_lt_of_lt hfuel)
  induction k generalizing cmd s fuel with
  | zero =>
    rw [parsebacks_nil (by simpa [ht] using hvs)]
    exact ⟨_, _, rfl, Rest.skip hw, rfl⟩
  | succ k ih =>
    rw [replicate_succ, cons_append] at ht
    obtain ⟨hrest, -, hlt⟩ := Rest.token ht hw
    obtain ⟨fuel, rfl⟩ : ∃ k, fuel = k + 1 := ⟨fuel - 1, by omega⟩
    have hw' : ∀ w ∈ (Cmd.back cmd).words, w.In line := hw
    have hlt' : (gettoken (skip s)).s.length < fuel + 1 := by omega
    obtain ⟨cmd2, s2, heq2, hrest2, hmap2⟩ := ih (tokens_of_rest hrest ht) hw' fuel hlt'
    rw [parsebacks_cons ht]
    exact ⟨cmd2, s2, heq2, hrest.trans hrest2, hmap2⟩

/-- What may stand behind an argument or a redirection. -/
theorem first_args {args : List Arg} {toks : List UInt8} (hvs : ∀ t ∈ vs.head?, t.first ∉ toks)
    (h0 : 0 ∉ toks) : ∀ t ∈ (args.flatMap Arg.tokens ++ vs).head?, t.first ∉ toks := by
  cases args with
  | nil => exact hvs
  | cons a args =>
    rintro t ⟨⟩
    exact h0

theorem parseargs_gives {args : List Arg} {argc : ℕ} (ht : tokens s = args.flatMap Arg.tokens ++ vs)
    (hvs : ∀ t ∈ vs.head?, t.first ∈ [byte '|', byte ')', byte '&', byte ';'])
    (hargc : argc + args.length ≤ MAXARGS - 1) (hs : s <:+ line)
    (hw : ∀ w ∈ cmd.words, w.In line) (hfuel : s.length < fuel) :
    Gives line s (args.flatMap Arg.tokens) ((args.flatMap Prod.snd).foldl Redir.wrap
      ((cmd.map Word.text).addArgs (args.map Prod.fst))) (parseargs fuel cmd argc s) := by
  obtain ⟨fuel, rfl⟩ := Nat.exists_eq_add_one.2 (Nat.zero_lt_of_lt hfuel)
  induction args generalizing cmd s argc fuel with
  | nil =>
    have hstop : ∀ t ∈ (tokens s).head?, t.first ∈ [byte '|', byte ')', byte '&', byte ';'] := by
      rwa [ht]
    obtain ⟨s', heq, hrest⟩ := parseargs_stop argc hstop hw fuel
    exact ⟨cmd, s', heq, hrest, rfl⟩
  | cons a args ih =>
    rw [length_cons] at hargc
    have ht' : tokens s = [.word a.1] ++ (a.2.flatMap Redir.tokens ++
        (args.flatMap Arg.tokens ++ vs)) := by
      rw [ht, flatMap_cons, Arg.tokens]
      simp
    obtain ⟨x, s1, heq1, hrest1, hlt1, hmap1⟩ := parseargs_cons argc ht' hs hw fuel
    obtain ⟨fuel, rfl⟩ : ∃ k, fuel = k + 1 := ⟨fuel - 1, by omega⟩
    have ht1 := tokens_of_rest hrest1 ht'
    have hvs' : ∀ t ∈ vs.head?, t.first ∉ [byte '<', byte '>'] := fun t hmem hfirst => by
      have := hvs t hmem
      obtain ⟨k, rfl⟩ := exists_kind hfirst
      revert this
      cases k <;> decide
    obtain ⟨cmd2, s2, heq2, hrest2, hmap2⟩ := parseredirs_gives ht1
      (first_args hvs' (by decide)) (hrest1.suffix.trans hs) hrest1.words
      (show s1.length < fuel + 1 by omega)
    have hlen2 := hrest2.suffix.length_le
    obtain ⟨cmd3, s3, heq3, hrest3, hmap3⟩ := ih (tokens_of_rest hrest2 ht1)
      (show argc + 1 + args.length ≤ MAXARGS - 1 by omega)
      ((hrest2.suffix.trans hrest1.suffix).trans hs) hrest2.words fuel (by omega)
    refine ⟨cmd3, s3, ?_, ?_, ?_⟩
    · rw [heq1, if_neg (by omega), heq2]
      exact heq3
    · have := hrest1.trans (hrest2.trans hrest3)
      simpa [Arg.tokens] using this
    · rw [hmap3, hmap2, hmap1, Cmd.addArgs_wrap, flatMap_cons, foldl_append]
      rfl

/-! ## The recursive functions -/

namespace Nonterminal

def parser : Nonterminal → ℕ → Ptr → Outcome Panic (Cmd Word × Ptr)
  | .line => parseline
  | .pipe => parsepipe
  | .exec => parseexec

def need (nt : Nonterminal) (s : Ptr) : ℕ :=
  match nt with
  | .line => 4 * s.length + 4
  | .pipe => 4 * s.length + 3
  | .exec => 4 * s.length + 2

/-- What may stand behind what is derived from a nonterminal. -/
def follow : Nonterminal → List UInt8
  | .line => [byte ')']
  | .pipe => [byte ')', byte '&', byte ';']
  | .exec => [byte '|', byte ')', byte '&', byte ';']

end Nonterminal

theorem follow_cons {nt : Nonterminal} {t : Token} (ht : t.first ∈ nt.follow) (vs : List Token) :
    ∀ u ∈ (t :: vs).head?, u.first ∈ nt.follow := by
  rintro u ⟨⟩
  exact ht

/-- A set of symbols that does not go on with what is derived. -/
theorem not_first {toks toks' : List UInt8} (hvs : ∀ t ∈ vs.head?, t.first ∈ toks)
    (hdis : (toks.all fun c => c ∉ toks') = true) : ∀ t ∈ vs.head?, t.first ∉ toks' :=
  fun t ht => of_decide_eq_true (all_eq_true.1 hdis _ (hvs t ht))

theorem follow_amps (k : ℕ) (hvs : ∀ t ∈ vs.head?, t.first ∈ Nonterminal.pipe.follow) :
    ∀ t ∈ (List.replicate k Token.amp ++ vs).head?, t.first ∈ Nonterminal.pipe.follow := by
  cases k with
  | zero => exact hvs
  | succ k =>
    rintro t ⟨⟩
    decide

theorem parseline_jobs {t : Cmd Text} (k : ℕ) (hpipe : Gives line s ts t (parsepipe fuel s))
    (hts : tokens s = ts ++ (.replicate k .amp ++ vs)) (hvs : .amp ∉ vs.head?)
    (hfuel : s.length < fuel) :
    ∃ cmd s', parseline (fuel + 1) s = (match peek s' [byte ';'] with
        | (true, s) => do
            let (right, s) ← parseline fuel (gettoken s).s
            pure (.list cmd right, s)
        | (false, s) => pure (cmd, s)) ∧
      Rest line s (ts ++ .replicate k .amp) cmd s' ∧ cmd.map Word.text = Cmd.back^[k] t := by
  obtain ⟨cmd1, s1, heq1, hrest1, rfl⟩ := hpipe
  have hlen1 := hrest1.suffix.length_le
  obtain ⟨cmd2, s2, heq2, hrest2, hmap2⟩ := parsebacks_gives (tokens_of_rest hrest1 hts) hvs
    hrest1.words (show s1.length < fuel by omega)
  refine ⟨cmd2, s2, ?_, hrest1.trans hrest2, hmap2⟩
  rw [parseline, heq1]
  dsimp only [ok_bind]
  rw [heq2]
  rfl

theorem Derives.gives {nt : Nonterminal} {t : Cmd Text} (h : Derives nt ts t) (hs : s <:+ line)
    (hts : tokens s = ts ++ vs) (hvs : ∀ t ∈ vs.head?, t.first ∈ nt.follow)
    (hfuel : nt.need s ≤ fuel) : Gives line s ts t (nt.parser fuel s) := by
  obtain ⟨fuel, rfl⟩ : ∃ k, fuel = k + 1 := by
    refine Nat.exists_eq_add_one.2 (lt_of_lt_of_le ?_ hfuel)
    cases nt <;> exact Nat.succ_pos _
  induction h generalizing s vs fuel with
  | @line ts t k ht ih =>
    simp only [Nonterminal.need] at hfuel ih
    rw [append_assoc] at hts
    obtain ⟨n, rfl⟩ : ∃ n, fuel = n + 1 := ⟨fuel - 1, by omega⟩
    have hpipe : Gives line s ts t (parsepipe (n + 1) s) :=
      ih hs hts (follow_amps k fun u hu => mem_cons.2 (Or.inl (mem_singleton.1 (hvs u hu))))
        n (by omega)
    obtain ⟨cmd, s', heq, hrest, hmap⟩ := parseline_jobs k hpipe hts
      (fun hamp => absurd (hvs _ hamp) (by decide)) (by omega)
    refine ⟨cmd, skip s', ?_, hrest.skip_end, hmap⟩
    rw [← append_assoc] at hts
    rw [Nonterminal.parser, heq, peek_false (by decide)]
    · rfl
    · rw [tokens_of_rest hrest hts]
      exact not_first hvs (by decide)
  | @list ts us t u k ht hu iht ihu =>
    simp only [Nonterminal.need] at hfuel iht ihu
    rw [append_assoc, append_assoc, cons_append] at hts
    obtain ⟨n, rfl⟩ : ∃ n, fuel = n + 1 := ⟨fuel - 1, by omega⟩
    have hpipe : Gives line s ts t (parsepipe (n + 1) s) :=
      iht hs hts (follow_amps k (follow_cons (by decide) _)) n (by omega)
    obtain ⟨cmd, s', heq, hrest, hmap⟩ := parseline_jobs k hpipe hts (by simp) (by omega)
    rw [← append_assoc] at hts
    have hts' := tokens_of_rest hrest hts
    obtain ⟨hsemi, -, hlt⟩ := Rest.token hts' hrest.words
    have hlen := hrest.suffix.length_le
    obtain ⟨right, s2, heq2, hrest2, rfl⟩ := ihu ((hsemi.suffix.trans hrest.suffix).trans hs)
      (tokens_of_rest hsemi hts') hvs n (by omega)
    refine ⟨.list cmd right, s2, ?_, hrest.node (hsemi.trans hrest2) rfl, by rw [← hmap]; rfl⟩
    rw [Nonterminal.parser] at heq2 ⊢
    rw [heq, peek_true (by decide) hts' (by decide)]
    dsimp only
    rw [heq2]
    rfl
  | @exec ts t ht ih =>
    simp only [Nonterminal.need] at hfuel ih
    obtain ⟨n, rfl⟩ : ∃ n, fuel = n + 1 := ⟨fuel - 1, by omega⟩
    obtain ⟨cmd, s', heq, hrest, hmap⟩ := ih hs hts
      (fun u hu => mem_cons_of_mem _ (hvs u hu)) n (by omega)
    refine ⟨cmd, skip s', ?_, hrest.skip_end, hmap⟩
    simp only [Nonterminal.parser] at heq ⊢
    rw [parsepipe, heq]
    dsimp only [ok_bind]
    rw [peek_false (by decide)]
    · rfl
    · rw [tokens_of_rest hrest hts]
      exact not_first hvs (by decide)
  | @pipe ts us t u ht hu iht ihu =>
    simp only [Nonterminal.need] at hfuel iht ihu
    rw [append_assoc, cons_append] at hts
    obtain ⟨n, rfl⟩ : ∃ n, fuel = n + 1 := ⟨fuel - 1, by omega⟩
    obtain ⟨cmd, s', heq, hrest, rfl⟩ := iht hs hts (follow_cons (by decide) _) n (by omega)
    have hts' := tokens_of_rest hrest hts
    obtain ⟨hbar, -, hlt⟩ := Rest.token hts' hrest.words
    have hlen := hrest.suffix.length_le
    obtain ⟨right, s2, heq2, hrest2, rfl⟩ := ihu ((hbar.suffix.trans hrest.suffix).trans hs)
      (tokens_of_rest hbar hts') hvs n (by omega)
    refine ⟨.pipe cmd right, s2, ?_, hrest.node (hbar.trans hrest2) rfl, rfl⟩
    simp only [Nonterminal.parser] at heq heq2 ⊢
    rw [parsepipe, heq]
    dsimp only [ok_bind]
    rw [peek_true (by decide) hts' (by decide)]
    dsimp only
    rw [heq2]
    rfl
  | @block ts t rs ht ih =>
    simp only [Nonterminal.need] at hfuel ih
    rw [cons_append, cons_append, append_assoc, cons_append] at hts
    have hnil : ∀ w ∈ (Cmd.exec [] : Cmd Word).words, w.In line := by simp [Cmd.words]
    have hts' : tokens (skip s) = _ := (tokens_skip s).trans hts
    have hs' := (skip_suffix s).trans hs
    have hskip := (skip_suffix s).length_le
    obtain ⟨hlpar, -, hlt⟩ := Rest.token hts' hnil
    obtain ⟨n, rfl⟩ : ∃ n, fuel = n + 1 + 1 := ⟨fuel - 2, by omega⟩
    have hts1 := tokens_of_rest hlpar hts'
    obtain ⟨cmd, s1, heq1, hrest1, rfl⟩ := ih (hlpar.suffix.trans hs') hts1
      (follow_cons (by decide) _) n (by omega)
    have hts2 := tokens_of_rest hrest1 hts1
    have hlen1 := hrest1.suffix.length_le
    obtain ⟨hrpar, -, hlt2⟩ := Rest.token hts2 hrest1.words
    have hrest := hlpar.trans (hrest1.trans hrpar)
    obtain ⟨cmd2, s2, heq2, hrest2, hmap2⟩ := parseredirs_gives
      (tokens_of_rest hrpar hts2) (not_first hvs (by decide)) (hrest.suffix.trans hs')
      hrpar.words (show _ < n + 1 by omega)
    refine ⟨cmd2, s2, ?_, ?_, hmap2⟩
    · simp only [Nonterminal.parser] at heq1 ⊢
      rw [parseexec, peek_true (by decide) hts (by decide)]
      dsimp only
      rw [parseblock, peek_true (by decide) hts' (by decide)]
      dsimp only
      rw [heq1]
      dsimp only [ok_bind]
      rw [peek_true (by decide) hts2 (by decide)]
      exact heq2
    · simpa using (hrest.trans hrest2).of_skip
  | simple rs args hargs =>
    simp only [Nonterminal.need] at hfuel
    rw [append_assoc] at hts
    have hnil : ∀ w ∈ (Cmd.exec [] : Cmd Word).words, w.In line := by simp [Cmd.words]
    have hts' : tokens (skip s) = _ := (tokens_skip s).trans hts
    have hs' := (skip_suffix s).trans hs
    have hskip := (skip_suffix s).length_le
    obtain ⟨cmd1, s1, heq1, hrest1, hmap1⟩ := parseredirs_gives hts'
      (first_args (not_first hvs (by decide)) (by decide)) hs' hnil
      (show (skip s).length < fuel by omega)
    have hlen1 := hrest1.suffix.length_le
    obtain ⟨cmd2, s2, heq2, hrest2, hmap2⟩ := parseargs_gives (tokens_of_rest hrest1 hts') hvs
      (show 0 + args.length ≤ MAXARGS - 1 by omega) (hrest1.suffix.trans hs') hrest1.words
      (show s1.length < fuel by omega)
    refine ⟨cmd2, s2, ?_, (hrest1.trans hrest2).of_skip, ?_⟩
    · simp only [Nonterminal.parser]
      rw [parseexec, peek_false (by decide)]
      · dsimp only
        rw [heq1]
        exact heq2
      · rw [hts]
        cases rs with
        | nil => exact first_args (not_first hvs (by decide)) (by decide)
        | cons r rs =>
          rintro t ⟨⟩
          cases r.kind <;> decide
    · rw [hmap2, hmap1, Cmd.addArgs_wrap, ← foldl_append]
      change (rs ++ _).foldl Redir.wrap ((Cmd.exec []).addArgs _) = _
      rw [Cmd.addArgs_exec, nil_append]

end Qwin.Shell
