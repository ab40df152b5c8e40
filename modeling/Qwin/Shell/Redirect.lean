import Mathlib.Data.List.Induction
import Qwin.Shell.Plumbing

/-!
# Several redirections of one command

`parseredirs` puts every redirection around the command that it has so far, so the last one
in the text is the outermost one. `runcmd` opens the files from the outside to the inside:
the file of the first redirection in the text is the one that is left open.
-/

namespace Qwin.Shell

open Prog List
open Sys (O_RDONLY O_WRONLY O_CREAT)

namespace RedirKind

def isInput : RedirKind → Bool
  | input => true
  | output => false
  | append => false

end RedirKind

/-- A simple command or a block without its redirections, and the redirections in the order of
the text. -/
inductive Redirected : List Token → Cmd Text → List Redir → Prop
  | block {ts : List Token} {t : Cmd Text} (rs : List Redir) (ht : Derives .line ts t) :
      Redirected (.lpar :: ts ++ .rpar :: rs.flatMap Redir.tokens) t rs
  | simple (rs : List Redir) (args : List Arg) (hargs : args.length ≤ MAXARGS - 1) :
      Redirected (rs.flatMap Redir.tokens ++ args.flatMap Arg.tokens) (.exec (args.map Prod.fst))
        (rs ++ args.flatMap Prod.snd)

/-- A process makes so many calls and goes on by itself after each of them. -/
inductive GoesOn (found : Text → Bool) : ℕ → Proc → Proc → Prop
  | refl (c : Proc) : GoesOn found 0 c c
  | head {n : ℕ} {c d e : Proc} (h : Proc.Next found c [d]) (h' : GoesOn found n d e) :
      GoesOn found (n + 1) c e

def Redir.obj (r : Redir) : Obj := .file r.file r.kind.mode

def inputs (rs : List Redir) : List Redir := rs.filter fun r => r.kind.isInput

def outputs (rs : List Redir) : List Redir := rs.filter fun r => !r.kind.isInput

/-- What a descriptor is open on that the first or last redirection `r` was made for. -/
def Obj.over (x : Obj) (r : Option Redir) : Obj := (r.map Redir.obj).getD x

section

variable {found : Text → Bool} {paths : List Text} {t0 : Table} {i o : Obj} {n : ℕ} {c d d' : Proc}

theorem Proc.Next.unique {L L' : List Proc} (h : Proc.Next found c L) (h' : Proc.Next found c L') :
    L = L' := by
  cases h
  cases h'
  rfl

theorem GoesOn.unique (h : GoesOn found n c d) (h' : GoesOn found n c d') : d = d' := by
  induction h with
  | refl c =>
    cases h'
    rfl
  | head hnext _ ih =>
    cases h' with
    | head hnext' htail =>
      obtain rfl := singleton_inj.1 (hnext.unique hnext')
      exact ih htail

theorem GoesOn.trans {m : ℕ} {e : Proc} (h : GoesOn found m c d) (h' : GoesOn found n d e) :
    GoesOn found (m + n) c e := by
  induction h with
  | refl c => rwa [Nat.zero_add]
  | head hnext _ ih =>
    rw [Nat.add_right_comm]
    exact .head hnext (ih h')

theorem GoesOn.call {β : Type} {a : Call β} {k : β → Prog Call Empty} {t : Table} {r : β × Table}
    (hr : a.outcomes found t = [r]) : GoesOn found 1 ⟨Shell.call a >>= k, t⟩ ⟨k r.1, r.2⟩ := by
  have hnext : Proc.Next found _ _ := Proc.Next.call a k t
  rw [hr] at hnext
  exact .head hnext (.refl _)

theorem goesOn_redir (t0 : Table) (i o : Obj) (r : Redir) (cmd : Cmd Text) (node : Node) :
    GoesOn found 2 ⟨runcmd paths node (r.wrap cmd), t0.wired i o⟩
      ⟨runcmd paths (node ++ [.sub]) cmd, t0.wired (if r.kind.isInput then r.obj else i)
        (if r.kind.isInput then o else r.obj)⟩ := by
  obtain ⟨kind, file⟩ := r
  rw [Redir.wrap, runcmd]
  refine (GoesOn.call rfl).trans (n := 1) ?_
  cases kind with
  | input =>
    have hopen : (Call.openFile file O_RDONLY).outcomes found ((t0.wired i o).close 0) =
        [(some 0, t0.wired (.file file O_RDONLY) o)] := congrArg ([·]) Table.openFile_zero
    exact GoesOn.call hopen
  | output | append =>
    have hopen : (Call.openFile file (O_WRONLY ||| O_CREAT)).outcomes found
        ((t0.wired i o).close 1) = [(some 1, t0.wired i (.file file (O_WRONLY ||| O_CREAT)))] :=
      congrArg ([·]) Table.openFile_one
    exact GoesOn.call hopen

theorem inputs_append (rs : List Redir) (r : Redir) :
    inputs (rs ++ [r]) = inputs rs ++ if r.kind.isInput then [r] else [] := by
  cases h : r.kind.isInput <;> simp [inputs, h]

theorem outputs_append (rs : List Redir) (r : Redir) :
    outputs (rs ++ [r]) = outputs rs ++ if r.kind.isInput then [] else [r] := by
  cases h : r.kind.isInput <;> simp [outputs, h]

/-- The files of the first redirections in the text are open when the command is run. -/
theorem goesOn_redirs (found : Text → Bool) (paths : List Text) (t0 : Table) (i o : Obj)
    (rs : List Redir) (cmd : Cmd Text) (node : Node) :
    GoesOn found (2 * rs.length) ⟨runcmd paths node (rs.foldl Redir.wrap cmd), t0.wired i o⟩
      ⟨runcmd paths (node ++ .replicate rs.length .sub) cmd,
        t0.wired (i.over (inputs rs).head?) (o.over (outputs rs).head?)⟩ := by
  induction rs using List.reverseRecOn generalizing i o node with
  | nil => simpa [inputs, outputs, Obj.over] using GoesOn.refl _
  | append_singleton rs r ih =>
    have h := (goesOn_redir t0 i o r (rs.foldl Redir.wrap cmd) node).trans (ih _ _ (node ++ [.sub]))
    have hnode : node ++ [.sub] ++ .replicate rs.length Side.sub =
        node ++ .replicate (rs ++ [r]).length .sub := by
      rw [length_append, length_singleton, replicate_succ, append_assoc]
      rfl
    have hcount : 2 + 2 * rs.length = 2 * (rs ++ [r]).length := by
      rw [length_append, length_singleton]
      omega
    rw [hnode, hcount] at h
    rw [foldl_append, foldl_cons, foldl_nil, inputs_append, outputs_append]
    cases hk : r.kind.isInput <;> simpa [hk, Obj.over] using h

end

section

variable {buf : List UInt8} {found : Text → Bool} {paths : List Text} {t0 : Table} {i o x : Obj}
  {cmd : Cmd Text} {rs : List Redir} {r s : Redir}

theorem Redirected.parse (h : Redirected (tokens (cstring buf)) cmd rs) :
    Shell.parse buf = .ok (rs.foldl Redir.wrap cmd) := by
  rw [parse_eq_ok_iff]
  generalize tokens (cstring buf) = ts at h
  have hexec : Derives .exec ts (rs.foldl Redir.wrap cmd) := by
    cases h with
    | block rs ht => exact .block rs ht
    | simple rs args hargs => exact .simple rs args hargs
  simpa using Derives.line 0 (.exec hexec)

/-- The line is parsed, and its command is run with the files of its last redirections as
standard input and output. -/
def LastWins (found : Text → Bool) (paths : List Text) (buf : List UInt8) (t0 : Table) (i o : Obj)
    (cmd : Cmd Text) (rs : List Redir) : Prop :=
  ∃ all t, parse buf = .ok all ∧
    GoesOn found (2 * rs.length) ⟨runcmd paths [] all, t0⟩
      ⟨runcmd paths (.replicate rs.length .sub) cmd, t⟩ ∧
    t 0 = some (i.over (inputs rs).getLast?) ∧ t 1 = some (o.over (outputs rs).getLast?)

def SameFile (l : List Redir) : Prop := l.head?.map Redir.file = l.getLast?.map Redir.file

/-- Redirections with one mode have one object if they have one file. -/
theorem over_eq_iff {l : List Redir} {mode : BitVec 32} (hmode : ∀ r ∈ l, r.kind.mode = mode) :
    x.over l.head? = x.over l.getLast? ↔ SameFile l := by
  have hhead : ∀ r ∈ l.head?, r.kind.mode = mode := fun r hr => hmode r (mem_of_head? hr)
  have hlast : ∀ r ∈ l.getLast?, r.kind.mode = mode := fun r hr => hmode r (mem_of_getLast? hr)
  unfold SameFile
  cases l with
  | nil => simp
  | cons r l =>
    rw [List.head?_cons] at hhead ⊢
    rw [List.getLast?_cons] at hlast ⊢
    simp only [Obj.over, Redir.obj, Option.map_some, Option.getD_some, Obj.file.injEq,
      Option.some.injEq, and_iff_left_iff_imp, hhead r rfl, hlast _ rfl, implies_true]

theorem RedirKind.mode_eq (k : RedirKind) :
    k.mode = if k.isInput then O_RDONLY else O_WRONLY ||| O_CREAT := by
  cases k <;> rfl

theorem mode_of_inputs : ∀ r ∈ inputs rs, r.kind.mode = O_RDONLY := fun r hr =>
  r.kind.mode_eq.trans (if_pos (mem_filter.1 hr).2)

theorem mode_of_outputs : ∀ r ∈ outputs rs, r.kind.mode = O_WRONLY ||| O_CREAT := fun r hr =>
  r.kind.mode_eq.trans (if_neg (by simpa using (mem_filter.1 hr).2))

/-- A simple command or block is run with the files of its last redirections exactly if the
first and the last `<` have one file, and the first and the last of the `>` and `>>`. -/
theorem last_redirection_iff (found : Text → Bool) (paths : List Text) (buf : List UInt8)
    (t0 : Table) (i o : Obj) (cmd : Cmd Text) (rs : List Redir)
    (h : Redirected (tokens (cstring buf)) cmd rs) (h0 : t0 0 = some i) (h1 : t0 1 = some o) :
    LastWins found paths buf t0 i o cmd rs ↔ SameFile (inputs rs) ∧ SameFile (outputs rs) := by
  have hrun := goesOn_redirs found paths t0 i o rs cmd []
  rw [Table.wired_self h0 h1, nil_append] at hrun
  rw [← over_eq_iff (x := i) mode_of_inputs, ← over_eq_iff (x := o) mode_of_outputs]
  constructor
  · rintro ⟨all, t, hparse, hgoes, ht0, ht1⟩
    obtain rfl := Outcome.ok.inj (h.parse.symm.trans hparse)
    obtain rfl := congrArg Proc.table (hrun.unique hgoes)
    exact ⟨Option.some.inj ht0, Option.some.inj ht1⟩
  · rintro ⟨hin, hout⟩
    refine ⟨_, _, h.parse, hrun, ?_, ?_⟩
    · rw [Table.wired_zero, hin]
    · rw [Table.wired_one, hout]

/-- The command `c` with redirections. -/
def redirLine (rs : List Redir) : List UInt8 :=
  render (.word [byte 'c'] :: rs.flatMap Redir.tokens)

theorem redirected_redirLine (rs : List Redir) (hrs : ∀ r ∈ rs, WordText r.file) :
    Redirected (tokens (cstring (redirLine rs))) (.exec [[byte 'c']]) rs := by
  have hts : ∀ w, .word w ∈ Token.word [byte 'c'] :: rs.flatMap Redir.tokens → WordText w := by
    intro w hw
    rcases mem_cons.1 hw with hw | hw
    · cases hw
      exact wordText_singleton (by decide) (by decide)
    · obtain ⟨r, hr, hw⟩ := mem_flatMap.1 hw
      have hkind : ∀ k : RedirKind, Token.word w ≠ k.token := by
        rintro (_ | _ | _) h <;> cases h
      obtain rfl : w = r.file := by simpa [Redir.tokens, hkind] using hw
      exact hrs r hr
  rw [redirLine, cstring_render hts, tokens_render hts]
  have h := Redirected.simple [] [([byte 'c'], rs)] (by simp)
  simpa [Arg.tokens] using h

theorem wordText_letter {c : Char} (hc : c ∈ ['a', 'b', 'd']) : WordText [byte c] := by
  simp only [mem_cons, not_mem_nil, or_false] at hc
  rcases hc with rfl | rfl | rfl <;> exact wordText_singleton (by decide) (by decide)

/-- `c <a >b <d <a >>b` -/
theorem last_redirection_repeated :
    LastWins (fun _ => true) [[]] (redirLine [⟨.input, [byte 'a']⟩, ⟨.output, [byte 'b']⟩,
        ⟨.input, [byte 'd']⟩, ⟨.input, [byte 'a']⟩, ⟨.append, [byte 'b']⟩]) threeOpen (.old 0)
      (.old 1) (.exec [[byte 'c']]) [⟨.input, [byte 'a']⟩, ⟨.output, [byte 'b']⟩,
        ⟨.input, [byte 'd']⟩, ⟨.input, [byte 'a']⟩, ⟨.append, [byte 'b']⟩] := by
  refine (last_redirection_iff _ _ _ _ _ _ _ _ (redirected_redirLine _ fun r hr => ?_) rfl rfl).2
    ⟨rfl, rfl⟩
  simp only [mem_cons, not_mem_nil, or_false] at hr
  rcases hr with rfl | rfl | rfl | rfl | rfl <;> exact wordText_letter (by decide)

/-- `c <a <b` is run with `a` as its standard input. -/
theorem first_redirection_wins :
    Redirected (tokens (cstring (redirLine [⟨.input, [byte 'a']⟩, ⟨.input, [byte 'b']⟩])))
      (.exec [[byte 'c']]) [⟨.input, [byte 'a']⟩, ⟨.input, [byte 'b']⟩] ∧
    (∃ all t, parse (redirLine [⟨.input, [byte 'a']⟩, ⟨.input, [byte 'b']⟩]) = .ok all ∧
      GoesOn (fun _ => true) 4 ⟨runcmd [[]] [] all, threeOpen⟩
        ⟨runcmd [[]] [.sub, .sub] (.exec [[byte 'c']]), t⟩ ∧
      t 0 = some (.file [byte 'a'] O_RDONLY)) ∧
    ¬ LastWins (fun _ => true) [[]] (redirLine [⟨.input, [byte 'a']⟩, ⟨.input, [byte 'b']⟩])
      threeOpen (.old 0) (.old 1) (.exec [[byte 'c']])
      [⟨.input, [byte 'a']⟩, ⟨.input, [byte 'b']⟩] := by
  have h := redirected_redirLine [⟨.input, [byte 'a']⟩, ⟨.input, [byte 'b']⟩] fun r hr => by
    rcases mem_pair.1 hr with rfl | rfl <;> exact wordText_letter (by decide)
  have hrun := goesOn_redirs (fun _ => true) [[]] threeOpen (.old 0) (.old 1)
    [⟨.input, [byte 'a']⟩, ⟨.input, [byte 'b']⟩] (.exec [[byte 'c']]) []
  rw [Table.wired_self rfl rfl] at hrun
  refine ⟨h, ⟨_, _, h.parse, hrun, rfl⟩, ?_⟩
  rintro ⟨all, t, hparse, hgoes, ht0, -⟩
  obtain rfl := Outcome.ok.inj (h.parse.symm.trans hparse)
  obtain rfl := congrArg Proc.table (hrun.unique hgoes)
  exact absurd ht0 (by decide)

end

end Qwin.Shell
