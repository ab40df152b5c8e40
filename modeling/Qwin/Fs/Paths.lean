import Qwin.Fs.Rest

/-!
# Paths

A path is a list of names between slashes. `skipelem` takes the names off one by one, each
cut to `DIRSIZ` bytes; `namex` follows them from the root or from the current directory. In
terms of the nodes that is a fold of `child`, whatever the slashes look like.
-/

namespace Qwin.Fs

open Prog List

variable {p : ℕ} {E : End IState → Prop} {s t : IState} {b : ℕ → ℤ} {own : List ℕ}
  {node : ℕ → Node} {d i ip k : ℕ} {name path : List UInt8} {names : List (List UInt8)} {parent : Bool}

/-! ## The names of a path -/

/-- The segments between the slashes of a path that are not empty, cut to `DIRSIZ` bytes. -/
def segments (path : List UInt8) : List (List UInt8) :=
  ((path.splitOn slash).filter (· ≠ [])).map (·.take DIRSIZ)

/-- `skipelem`, called again with the rest of the path each time, answers with these names
and then with zero. -/
inductive Iterates : List UInt8 → List (List UInt8) → Prop
  | done {path : List UInt8} (h : skipelem path = none) : Iterates path []
  | step {path rest name : List UInt8} {names : List (List UInt8)}
      (h : skipelem path = some (name, rest)) (hrest : Iterates rest names) :
      Iterates path (name :: names)

theorem segments_slash_cons (path : List UInt8) : segments (slash :: path) = segments path := by
  have h := splitOn_append_cons_self (a := slash) [] path
  rw [nil_append, splitOn_nil] at h
  rw [segments, h]
  rfl

theorem segments_of_not_mem (h : slash ∉ name) (h0 : name ≠ []) :
    segments name = [name.take DIRSIZ] := by
  rw [segments, splitOn_eq_singleton h]
  simp [h0]

theorem segments_append_slash (h : slash ∉ name) (h0 : name ≠ []) :
    segments (name ++ slash :: path) = name.take DIRSIZ :: segments path := by
  rw [segments, splitOn_append_cons_self, splitOn_eq_singleton h]
  simp [h0, segments]

section

variable (path)

theorem segments_dropWhile_slash : segments (path.dropWhile (· = slash)) = segments path := by
  induction path with
  | nil => rfl
  | cons c path ih =>
    by_cases hc : c = slash
    · rw [hc, segments_slash_cons, ← ih]
      rfl
    · rw [dropWhile_cons_of_neg (by simpa using hc)]

theorem slash_not_mem_takeWhile : slash ∉ path.takeWhile (· ≠ slash) := by
  intro h
  have := all_eq_true.1 (all_takeWhile (l := path) (p := fun c => c ≠ slash)) slash h
  simp at this

theorem skipelem_cases :
    (skipelem path = none ∧ segments path = []) ∨
      ∃ name rest, skipelem path = some (name, rest) ∧ rest.length < path.length ∧
        segments path = name :: segments rest := by
  have hle := (dropWhile_sublist (l := path) fun c => decide (c = slash)).length_le
  rw [← segments_dropWhile_slash path, skipelem]
  cases hd : path.dropWhile (· = slash) with
  | nil => exact Or.inl ⟨rfl, rfl⟩
  | cons c l =>
    rw [hd] at hle
    have hc : c ≠ slash := by
      have h := List.head?_dropWhile_not (fun c => decide (c = slash)) path
      rw [hd] at h
      simpa using h
    have htake : (c :: l).takeWhile (· ≠ slash) = c :: l.takeWhile (· ≠ slash) :=
      takeWhile_cons_of_pos (by simpa using hc)
    have hdrop : (c :: l).dropWhile (· ≠ slash) = l.dropWhile (· ≠ slash) :=
      dropWhile_cons_of_pos (by simpa using hc)
    have h0 : (c :: l).takeWhile (· ≠ slash) ≠ [] := by
      rw [htake]
      exact cons_ne_nil _ _
    refine Or.inr ⟨_, _, if_neg (cons_ne_nil c l), ?_, ?_⟩
    · have h1 := (dropWhile_sublist (l := l.dropWhile (· ≠ slash))
        fun c => decide (c = slash)).length_le
      have h2 := (dropWhile_sublist (l := l) fun c => decide (c ≠ slash)).length_le
      rw [length_cons] at hle
      rw [hdrop]
      omega
    · rw [segments_dropWhile_slash]
      conv_lhs => rw [← takeWhile_append_dropWhile (p := (· ≠ slash)) (l := c :: l)]
      cases hrest : (c :: l).dropWhile (· ≠ slash) with
      | nil => rw [append_nil, segments_of_not_mem (slash_not_mem_takeWhile _) h0]; rfl
      | cons e rest =>
        have he : e = slash := by
          have h := List.head?_dropWhile_not (fun c => decide (c ≠ slash)) (c :: l)
          rw [hrest] at h
          simpa using h
        rw [he, segments_append_slash (slash_not_mem_takeWhile _) h0, segments_slash_cons]

theorem iterates_segments : Iterates path (segments path) := by
  induction hn : path.length using Nat.strong_induction_on generalizing path with
  | _ n ih =>
    rcases skipelem_cases path with ⟨h, hs⟩ | ⟨name, rest, h, hlt, hs⟩
    · rw [hs]
      exact .done h
    · rw [hs]
      exact .step h (ih _ (hn ▸ hlt) rest rfl)

end

theorem elements_eq_segments (fuel : ℕ) (path : List UInt8) (h : path.length ≤ fuel) :
    elements fuel path = segments path := by
  induction fuel generalizing path with
  | zero =>
    rw [length_eq_zero_iff.1 (Nat.le_zero.1 h)]
    rfl
  | succ fuel ih =>
    rw [elements]
    rcases skipelem_cases path with ⟨hskip, hs⟩ | ⟨name, rest, hskip, hlt, hs⟩
    · rw [hskip, hs]
    · rw [hskip, hs]
      dsimp only
      rw [ih rest (by omega)]

/-! ## Following names -/

/-- The inode that directory `d` has under a name. -/
def child (node : ℕ → Node) (d : ℕ) (name : List UInt8) : Option ℕ :=
  if (node d).attrs.type = T_DIR then (lookup (node d).data name).map Prod.snd else none

/-- The inode that the names lead to from `d` on. -/
def resolve (node : ℕ → Node) (d : ℕ) (names : List (List UInt8)) : Option ℕ :=
  names.foldlM (child node) d

/-- What `namex` finds from `d` on: the inode, or the last directory with the last name. -/
def walk (node : ℕ → Node) (parent : Bool) : ℕ → List (List UInt8) → Option (ℕ × List UInt8)
  | d, [] => if parent then none else some (d, [])
  | d, name :: names =>
    if (node d).attrs.type ≠ T_DIR then none
    else if parent ∧ names = [] then some (d, name)
    else (child node d name).bind fun c => walk node parent c names

@[simp] theorem resolve_nil (node : ℕ → Node) (d : ℕ) : resolve node d [] = some d := rfl

@[simp] theorem resolve_cons (node : ℕ → Node) (d : ℕ) (name : List UInt8) :
    resolve node d (name :: names) = (child node d name).bind fun c => resolve node c names := rfl

theorem child_of_not_dir (h : (node d).attrs.type ≠ T_DIR) : child node d name = none := if_neg h

theorem walk_false (node : ℕ → Node) (d : ℕ) (names : List (List UInt8)) :
    walk node false d names = (resolve node d names).map fun c => (c, []) := by
  induction names generalizing d with
  | nil => rfl
  | cons name names ih =>
    rw [walk, resolve_cons]
    split
    next h => rw [child_of_not_dir h]; rfl
    · rw [if_neg (by simp)]
      cases child node d name with
      | none => rfl
      | some c => exact ih c

/-- Looking the last name up in the last directory completes the walk. -/
theorem resolve_eq_walk (node : ℕ → Node) (d : ℕ) (h : names ≠ []) :
    resolve node d names = (walk node true d names).bind fun x => child node x.1 x.2 := by
  induction names generalizing d with
  | nil => exact absurd rfl h
  | cons name names ih =>
    rw [walk, resolve_cons]
    split
    next ht => rw [child_of_not_dir ht]; rfl
    · by_cases hnil : names = []
      · rw [if_pos ⟨rfl, hnil⟩, hnil]
        simp
      · rw [if_neg fun hc => hnil hc.2]
        cases child node d name with
        | none => rfl
        | some c => exact ih c hnil

theorem child_eq_none_iff : child node d name = none ↔
    (node d).attrs.type ≠ T_DIR ∨ ∀ e ∈ entries (node d).data, ¬ e.Named name := by
  unfold child
  split
  next h =>
    rw [Option.map_eq_none_iff, lookup, Option.map_eq_none_iff, firstFrom_eq_none_iff]
    exact ⟨Or.inr, fun hc => hc.resolve_left (not_not.2 h)⟩
  next h => exact ⟨fun _ => Or.inl h, fun _ => rfl⟩

/-- The names lead nowhere when some of them lead to what is no directory or lacks the
next one. -/
theorem resolve_eq_none_iff (node : ℕ → Node) (d : ℕ) (names : List (List UInt8)) :
    resolve node d names = none ↔ ∃ pre name post c, names = pre ++ name :: post ∧
      resolve node d pre = some c ∧ ((node c).attrs.type ≠ T_DIR ∨
        ∀ e ∈ entries (node c).data, ¬ e.Named name) := by
  induction names generalizing d with
  | nil => simp
  | cons name names ih =>
    rw [resolve_cons, Option.bind_eq_none_iff]
    constructor
    · intro h
      cases hc : child node d name with
      | none => exact ⟨[], name, names, d, rfl, rfl, child_eq_none_iff.1 hc⟩
      | some c =>
        obtain ⟨pre, name', post, c', hnames, hpre, hno⟩ := (ih c).1 (h c hc)
        refine ⟨name :: pre, name', post, c', by rw [hnames]; rfl, ?_, hno⟩
        rw [resolve_cons, hc]
        exact hpre
    · rintro ⟨pre, name', post, c', hnames, hpre, hno⟩ c hc
      cases pre with
      | nil =>
        cases hnames
        cases hpre
        rw [child_eq_none_iff.2 hno] at hc
        cases hc
      | cons x pre =>
        cases hnames
        rw [resolve_cons, hc] at hpre
        exact (ih c).2 ⟨pre, name', post, c', rfl, hpre, hno⟩

variable {x : ℕ × List UInt8}

theorem walk_name (h : walk node true d names = some x) : names.getLast? = some x.2 := by
  induction names generalizing d with
  | nil => cases h
  | cons name names ih =>
    rw [walk] at h
    split at h
    · cases h
    · split at h
      next hc =>
        cases h
        rw [hc.2]
        rfl
      next hc =>
        obtain ⟨c, -, hw⟩ := Option.bind_eq_some_iff.1 h
        have hne : names ≠ [] := fun hn => hc ⟨rfl, hn⟩
        rw [List.getLast?_cons_of_ne_nil hne]
        exact ih hw

theorem walk_congr {node' : ℕ → Node} (htype : ∀ j, (node' j).attrs.type = (node j).attrs.type)
    (hdata : ∀ j, (node' j).data = (node j).data) (parent : Bool) (d : ℕ)
    (names : List (List UInt8)) : walk node' parent d names = walk node parent d names := by
  induction names generalizing d with
  | nil => rfl
  | cons name names ih =>
    have hchild : child node' d name = child node d name := by
      rw [child, htype, hdata, child]
    rw [walk, htype, hchild, walk]
    simp only [ih]

theorem walk_dir (h : walk node true d names = some x) : (node x.1).attrs.type = T_DIR := by
  induction names generalizing d with
  | nil => cases h
  | cons name names ih =>
    rw [walk] at h
    split at h
    · cases h
    next ht =>
      split at h
      · cases h
        exact not_not.1 ht
      · obtain ⟨c, -, hw⟩ := Option.bind_eq_some_iff.1 h
        exact ih hw

/-! ## The walk of `namex` -/

/-- The inode is in use, and stays so when a reference to it is given back. -/
structure Usable (b : ℕ → ℤ) (s : IState) (i : ℕ) : Prop where
  known : i < s.ninodes
  type : (s.node i).attrs.type ≠ 0
  safe : (s.node i).attrs.nlink ≠ 0 ∨ 0 < b i

/-- The root and the inodes with references can be used. Directories are whole entries,
which lead to inodes that can be used. -/
structure Sound (b : ℕ → ℤ) (s : IState) : Prop where
  root : Usable b s ROOTINO
  held : ∀ i, 0 < b i → Usable b s i
  whole : ∀ d, Usable b s d → (s.node d).attrs.type = T_DIR → Whole (s.node d).data
  entry : ∀ d, Usable b s d → (s.node d).attrs.type = T_DIR →
    ∀ e ∈ entries (s.node d).data, e.inum ≠ 0 → Usable b s e.inum

theorem Usable.kept (h : Usable b s i) (hk : Kept b s t) : Usable b t i := by
  refine ⟨?_, ?_, ?_⟩
  · rw [hk.ninodes]
    exact h.known
  · rw [hk.node]
    exact h.type
  · rw [hk.node]
    exact h.safe

theorem Usable.of_kept (h : Usable b t i) (hk : Kept b s t) : Usable b s i := by
  refine ⟨?_, ?_, ?_⟩
  · rw [← hk.ninodes]
    exact h.known
  · rw [← hk.node]
    exact h.type
  · rw [← hk.node]
    exact h.safe

theorem Sound.kept (h : Sound b s) (hk : Kept b s t) : Sound b t := by
  refine ⟨h.root.kept hk, fun i hi => (h.held i hi).kept hk, ?_, ?_⟩
  · intro d hd
    rw [hk.node]
    exact h.whole d (hd.of_kept hk)
  · intro d hd
    rw [hk.node]
    exact fun ht e he h0 => (h.entry d (hd.of_kept hk) ht e he h0).kept hk

theorem Usable.spare (h : Usable b s i) (own : List ℕ) :
    (s.node i).attrs.nlink ≠ 0 ∨ 0 < b i + own.count i :=
  h.safe.imp_right fun hb => by omega

theorem Sound.lookup (h : Sound b s) (hd : Usable b s d) (ht : (s.node d).attrs.type = T_DIR)
    {off inum : ℕ} (hl : lookup (s.node d).data name = some (off, inum)) : Usable b s inum := by
  obtain ⟨j, hj, heq⟩ := Option.map_eq_some_iff.1 hl
  obtain ⟨hlt, hnamed⟩ := firstFrom_eq_some hj
  cases heq
  exact h.entry d hd ht _ (mem_of_getElem? (getElem?_entries hlt)) hnamed.1

variable {Q : Option (ℕ × List UInt8) → IState → Prop}

theorem acts_namexLoop
    (names : List (List UInt8)) (h : Holding b (i :: own) none s) (hsound : Sound b s)
    (hroom : Room E b s.ninodes (own.length + 2))
    (hpos : 0 < (s.core.inode ip).ref) (hinum : s.inum ip = i) (hu : Usable b s i)
    (hnone : walk s.node parent i names = none → ∀ t, Holding b own none t → Kept b s t →
      Q none t)
    (hsome : ∀ j name, walk s.node parent i names = some (j, name) → Usable b s j → ∀ q t,
      Holding b (j :: own) none t → Kept b s t → 0 < (t.core.inode q).ref → t.inum q = j →
      Q (some (q, name)) t) : Acts p E Q (namexLoop parent names ip) s := by
  induction names generalizing s ip i with
  | nil =>
    rw [namexLoop]
    rw [walk] at hnone hsome
    split
    next hp =>
      rw [if_pos hp] at hnone
      exact wp_seq (acts_iput h hpos hinum (hu.spare own) (nomatch ·) fun t ht hk =>
        wp_pure (hnone rfl t ht hk.of_held))
    next hp =>
      rw [if_neg hp] at hsome
      exact wp_pure (hsome i [] rfl hu ip s h (.refl b s) hpos hinum)
  | cons name names ih =>
    rw [walk] at hnone hsome
    refine wp_seq (acts_ilock h hpos (by rw [hinum]; exact hu.type) fun t ht hk hload => ?_)
    have hi : t.inum ip = i := (hk.inum hpos).trans hinum
    have htype : (t.core.inode ip).type = (s.node i).attrs.type := by
      rw [ht.type hload, hi, hk.node]
    have hut : Usable b t i := hu.kept hk.all
    refine wp_seq (acts_getInode ?_)
    rw [htype]
    split
    next hdir =>
      rw [if_pos hdir] at hnone
      exact wp_seq (acts_iunlockput ht hi (hut.spare own) fun u hu' hk' =>
        wp_pure (hnone rfl u hu' (hk.all.trans hk'.of_held)))
    next hdir =>
      rw [if_neg hdir] at hnone hsome
      rw [not_not] at hdir
      split
      next hlast =>
        rw [if_pos hlast] at hsome
        refine wp_seq (acts_iunlock ht fun u hu' hk' => wp_pure ?_)
        have hpos' := hk.pos hpos
        exact hsome i name rfl hu ip u hu' (hk.all.trans hk'.all) (hk'.pos hpos')
          ((hk'.inum hpos').trans hi)
      next hlast =>
        rw [if_neg hlast] at hnone hsome
        have hdata : t.data ip = (s.node i).data := by rw [IState.data, hi, hk.node]
        have hwhole : Whole (t.data ip) := by
          rw [hdata]
          exact hsound.whole i hu hdir
        rw [child, if_pos hdir, ← hdata] at hnone hsome
        refine wp_seq (acts_dirlookup hload hwhole (ht.inPlace ip hload.1.1).dev
          (htype.trans hdir) ?_ ?_)
        · intro hl
          rw [hl] at hnone
          exact wp_seq (acts_iunlockput ht hi (hut.spare own) fun u hu' hk' =>
            wp_pure (hnone rfl u hu' (hk.all.trans hk'.of_held)))
        · intro off inum hl
          rw [hl] at hnone hsome
          have hul : Usable b s inum := by
            rw [hdata] at hl
            exact hsound.lookup hu hdir hl
          refine acts_iget ht (by rw [hk.ninodes]; exact hroom) (hul.kept hk.all).known ?_
          intro q v hv hk1 hq hqi
          have hkv : Kept b s v := hk.all.trans hk1.all
          have hvi : v.inum ip = i := (hk1.inum hload.1.1).trans hi
          refine wp_seq (acts_iunlockput (hv.perm (List.Perm.swap i inum own)) hvi
            ((hu.kept hkv).spare _) fun w hw hk2 => ?_)
          have hkw : Kept b s w := hkv.trans hk2.of_held
          have hmore : 0 < held b (inum :: own) (v.inum q) := by
            rw [held, hqi, count_cons_eq, if_pos rfl]
            have := hv.rest inum
            omega
          obtain ⟨hwq, hwi, -⟩ := hk2.entry q hq hmore
          refine ih hw (hsound.kept hkw) (by rw [hkw.ninodes]; exact hroom) hwq
            (hwi.trans hqi) (hul.kept hkw) ?_ ?_
          · intro hwalk x hx hkx
            rw [hkw.node] at hwalk
            exact hnone hwalk x hx (hkw.trans hkx)
          · intro j name' hwalk huj r x hx hkx
            rw [hkw.node] at hwalk
            exact hsome j name' hwalk (huj.of_kept hkw) r x hx (hkw.trans hkx)

def startInum (p : ℕ) (s : IState) (path : List UInt8) : ℕ :=
  if path.head? = some slash then ROOTINO
  else ((s.core.pt.proc p).cwd.map s.inum).getD 0

/-- Nothing is locked, the file system is sound, and the process has a current directory.
Of the references, one to each inode of `own` is its own. -/
structure AtRest (p : ℕ) (b : ℕ → ℤ) (own : List ℕ) (s : IState) : Prop extends
    Holding b own none s where
  sound : Sound b s
  cwd : ∃ ip, (s.core.pt.proc p).cwd = some ip ∧ 0 < (s.core.inode ip).ref ∧ 0 < b (s.inum ip)

variable {own' : List ℕ}

section

variable (h : AtRest p b own s)
include h

theorem AtRest.stays (ht : Holding b own' none t)
    (hs : Stays b s t) (hsound : Sound b t) : AtRest p b own' t := by
  refine ⟨ht, hsound, ?_⟩
  obtain ⟨ip, hip, hpos, hb⟩ := h.cwd
  obtain ⟨hpos', hinum, -⟩ := hs.entry ip hpos hb
  refine ⟨ip, ?_, hpos', ?_⟩
  · rw [hs.pt]
    exact hip
  · rw [hinum]
    exact hb

theorem AtRest.kept (ht : Holding b own' none t) (hk : Kept b s t) : AtRest p b own' t :=
  h.stays ht hk.toStays (h.sound.kept hk)

theorem AtRest.startInum_eq (hs : Stays b s t) (path : List UInt8) :
    startInum p t path = startInum p s path := by
  obtain ⟨c, hc, hpos, hb⟩ := h.cwd
  rw [startInum, startInum, hs.pt, hc, Option.map_some, Option.map_some, (hs.entry c hpos hb).2.1]

theorem acts_namex (hroom : Room E b s.ninodes (own.length + 2))
    (hnone : walk s.node parent (startInum p s path) (segments path) = none →
      ∀ t, Holding b own none t → Kept b s t → Q none t)
    (hsome : ∀ j name, walk s.node parent (startInum p s path) (segments path) =
        some (j, name) → Usable b s j → ∀ q t, Holding b (j :: own) none t → Kept b s t →
      0 < (t.core.inode q).ref → t.inum q = j → Q (some (q, name)) t) :
    Acts p E Q (namex path parent) s := by
  have hloop : ∀ q t, Holding b (startInum p s path :: own) none t → Kept b s t →
      Usable b s (startInum p s path) → 0 < (t.core.inode q).ref →
      t.inum q = startInum p s path →
      Acts p E Q (namexLoop parent (elements path.length path) q) t := by
    intro q t ht hk hu hq hqi
    rw [elements_eq_segments _ _ le_rfl]
    refine acts_namexLoop _ ht (h.sound.kept hk) (by rw [hk.ninodes]; exact hroom) hq hqi
      (hu.kept hk) ?_ ?_
    · intro hw u hu' hk'
      rw [hk.node] at hw
      exact hnone hw u hu' (hk.trans hk')
    · intro j name hw huj r u hu' hk'
      rw [hk.node] at hw
      exact hsome j name hw (huj.of_kept hk) r u hu' (hk.trans hk')
  refine wp_seq ?_
  rw [startOf]
  split
  next hslash =>
    rw [startInum, if_pos hslash] at hloop
    exact acts_iget h.toHolding (hroom.mono (by omega)) h.sound.root.known
      fun q t ht hk hq hqi => hloop q t ht hk.all h.sound.root hq hqi
  next hslash =>
    obtain ⟨ip, hip, hpos, hb⟩ := h.cwd
    have hstart : startInum p s path = s.inum ip := by
      rw [startInum, if_neg hslash, hip]
      rfl
    rw [hstart] at hloop
    refine wp_seq (acts_getProc ?_)
    rw [hip]
    refine wp_seq (acts_idup h.toHolding hpos fun t ht hk => wp_pure ?_)
    exact hloop ip t ht hk.all (h.sound.held _ hb) (hk.pos hpos) (hk.inum hpos)

theorem acts_namei {Q : Option ℕ → IState → Prop} (hroom : Room E b s.ninodes (own.length + 2))
    (hnone : resolve s.node (startInum p s path) (segments path) = none →
      ∀ t, Holding b own none t → Kept b s t → Q none t)
    (hsome : ∀ j, resolve s.node (startInum p s path) (segments path) = some j →
      Usable b s j → ∀ q t, Holding b (j :: own) none t → Kept b s t →
      0 < (t.core.inode q).ref → t.inum q = j → Q (some q) t) : Acts p E Q (namei path) s := by
  refine wp_seq (acts_namex h hroom ?_ ?_)
  · intro hw t ht hk
    rw [walk_false, Option.map_eq_none_iff] at hw
    exact wp_pure (hnone hw t ht hk)
  · intro j name hw huj q t ht hk hq hqi
    rw [walk_false, Option.map_eq_some_iff] at hw
    obtain ⟨c, hc, heq⟩ := hw
    cases heq
    exact wp_pure (hsome _ hc huj q t ht hk hq hqi)

theorem acts_ilock_dirlookup {Q : Option (ℕ × ℕ) → IState → Prop} {dp : ℕ}
    (hroom : Room E b s.ninodes (own.length + 1)) (hpos : 0 < (s.core.inode dp).ref)
    (hu : Usable b s (s.inum dp)) (htype : (s.node (s.inum dp)).attrs.type = T_DIR)
    (hQ : ∀ r t, r.map (fun x => t.inum x.1) = child s.node (s.inum dp) name → Q r t) :
    Acts p E Q (do ilock dp; dirlookup dp name) s := by
  refine wp_seq (acts_ilock h.toHolding hpos hu.type fun t ht hk hload => ?_)
  have hi := hk.inum hpos
  have hdata : t.data dp = (s.node (s.inum dp)).data := by rw [IState.data, hi, hk.node]
  have hwhole : Whole (t.data dp) := by
    rw [hdata]
    exact h.sound.whole _ hu htype
  have htype' : (t.core.inode dp).type = T_DIR := by rw [ht.type hload, hi, hk.node, htype]
  rw [child, if_pos htype, ← hdata] at hQ
  refine acts_dirlookup hload hwhole (ht.inPlace dp hload.1.1).dev htype' ?_ ?_
  · intro hl
    rw [hl] at hQ
    exact hQ none t rfl
  · intro off inum hl
    rw [hl] at hQ
    rw [hdata] at hl
    have hul := (h.sound.lookup hu htype hl).kept hk.all
    exact acts_iget ht (by rw [hk.ninodes]; exact hroom) hul.known fun q u _ _ _ hqi =>
      hQ (some (q, off)) u (congrArg some hqi)

end

/-! ## Resolving a path -/

/-- Run alone, the program returns such a result. Only when `C` fails it can also end with
the panic of `iget`. -/
def Yields {α : Type} (C : Prop) (p : ℕ) (s : IState) (c : IProg α) (Q : α → IState → Prop) :
    Prop :=
  (∃ r t, c.run (inodeSem p) s = .ok (r, t) ∧ Q r t) ∨
    ¬ C ∧ c.run (inodeSem p) s = .error (.stop (.panic .igetNoInodes))

theorem yields_of_acts {α : Type} {C : Prop} {c : IProg α} {Q : α → IState → Prop}
    (h : Acts p (fun e => ¬ C ∧ e = .stop (.panic .igetNoInodes)) Q c s) : Yields C p s c Q := by
  cases hr : c.run (inodeSem p) s with
  | ok x => exact Or.inl ⟨x.1, x.2, hr, wp_run_ok h hr⟩
  | error e =>
    obtain ⟨hC, he⟩ := wp_run_error h hr
    exact Or.inr ⟨hC, by rw [hr, he]⟩

theorem room_of_spare {n : ℕ} (b : ℕ → ℤ) :
    Room (fun e => ¬ Spare b n k ∧ e = .stop (.panic .igetNoInodes)) b n k := by
  by_cases h : Spare b n k
  · exact Or.inr h
  · exact Or.inl ⟨h, rfl⟩

/-- `skipelem` takes the names off a path, and `namei` follows them from the root or the
current directory with the help of `dirlookup`: it fails when they lead nowhere, it does
not look at the slashes, and it finds what `dirlookup` finds under the name and in the
directory of `nameiparent`. -/
theorem path_resolution (h : AtRest p s.refs [] s) (path : List UInt8) :
    Iterates path (segments path) ∧
    Yields (Spare s.refs s.ninodes 2) p s (namei path) (fun r t =>
      r.map t.inum = resolve s.node (startInum p s path) (segments path) ∧
        t.node = s.node) ∧
    (∀ dp name, 0 < (s.core.inode dp).ref → (s.node (s.inum dp)).attrs.type = T_DIR →
      Yields (Spare s.refs s.ninodes 2) p s (do ilock dp; dirlookup dp name) fun r t =>
        r.map (fun x => t.inum x.1) = child s.node (s.inum dp) name) ∧
    (resolve s.node (startInum p s path) (segments path) = none ↔
      ∃ pre name post c, segments path = pre ++ name :: post ∧
        resolve s.node (startInum p s path) pre = some c ∧
        ((s.node c).attrs.type ≠ T_DIR ∨ ∀ e ∈ entries (s.node c).data, ¬ e.Named name)) ∧
    (∀ path', segments path' = segments path →
      ((path'.head? = some slash ↔ path.head? = some slash) → namei path' = namei path) ∧
      (startInum p s path' = startInum p s path →
        Yields (Spare s.refs s.ninodes 2) p s (namei path') fun r t =>
          r.map t.inum = resolve s.node (startInum p s path) (segments path))) ∧
    (segments path ≠ [] →
      Yields (Spare s.refs s.ninodes 2) p s (nameiparent path) fun r t =>
        match r with
        | none => resolve s.node (startInum p s path) (segments path) = none
        | some (dp, name) => (segments path).getLast? = some name ∧
            Yields (Spare s.refs s.ninodes 2) p t (do ilock dp; dirlookup dp name) fun r u =>
              r.map (fun x => u.inum x.1) =
                resolve s.node (startInum p s path) (segments path)) := by
  have hroom := room_of_spare (n := s.ninodes) (k := 2) s.refs
  have hnamei : ∀ path', Acts p (fun e => ¬ Spare s.refs s.ninodes 2 ∧
      e = .stop (.panic .igetNoInodes)) (fun r t => r.map t.inum =
        resolve s.node (startInum p s path') (segments path') ∧ t.node = s.node)
      (namei path') s := by
    intro path'
    refine acts_namei h hroom ?_ ?_
    · intro hr t _ hk
      exact ⟨hr.symm, hk.node⟩
    · intro j hr _ q t _ hk _ hqi
      exact ⟨(congrArg some hqi).trans hr.symm, hk.node⟩
  refine ⟨iterates_segments path, yields_of_acts (hnamei path), ?_, resolve_eq_none_iff _ _ _,
    ?_, ?_⟩
  · intro dp name hpos ht
    have hrefs : 0 < s.refs (s.inum dp) := by
      rw [h.refs_eq hpos]
      exact hpos
    exact yields_of_acts (acts_ilock_dirlookup h (hroom.mono (by decide)) hpos
      (h.sound.held _ hrefs) ht fun _ _ hr => hr)
  · intro path' hseg
    constructor
    · intro hstart
      have hstart' : startOf path' = startOf path := by
        unfold startOf
        simp only [hstart]
      unfold namei namex
      rw [elements_eq_segments _ _ le_rfl, elements_eq_segments _ _ le_rfl, hseg, hstart']
    · intro hstart
      have hsame := hnamei path'
      rw [hstart, hseg] at hsame
      exact yields_of_acts (wp_conseq hsame fun _ _ hr => hr.1)
  · intro hne
    rw [resolve_eq_walk s.node _ hne]
    refine yields_of_acts (acts_namex h hroom ?_ ?_)
    · intro hw _ _ _
      dsimp only
      rw [hw]
      rfl
    · intro j name hw huj q t ht hk hq hqi
      refine ⟨walk_name hw, yields_of_acts ?_⟩
      rw [hw]
      subst hqi
      refine acts_ilock_dirlookup (h.kept ht hk) (by rw [hk.ninodes]; exact hroom) hq
        (huj.kept hk) ?_ ?_
      · rw [hk.node]
        exact walk_dir hw
      · intro r u hr
        rw [hk.node] at hr
        exact hr

/-- The kernel after boot, on a disk with a root directory and a file, inode 2. -/
def treeOf (data : List UInt8) (nlink : Short) : IState where
  core := bootCore fun _ => 0
  node i :=
    if i = ROOTINO then ⟨⟨T_DIR, 0, 0, 1⟩, data⟩
    else if i = 2 then ⟨⟨T_FILE, 0, 0, nlink⟩, []⟩
    else ⟨⟨0, 0, 0, 0⟩, []⟩
  ninodes := 3

section TreeOf

variable {data : List UInt8} {nlink : Short}

theorem entry_treeOf (h : 0 < ((treeOf data nlink).core.inode ip).ref) :
    ip = 0 ∧ (treeOf data nlink).inum ip = ROOTINO := by
  dsimp only [treeOf, bootCore] at h
  split at h
  next h0 =>
    subst h0
    exact ⟨rfl, rfl⟩
  · exact absurd h (by decide)

theorem tidy_treeOf : Tidy none (treeOf data nlink) := by
  refine ⟨?_, ?_, ?_, fun _ h => nomatch h⟩
  · intro q
    dsimp only [treeOf, bootCore]
    split
    · exact zero_le_one
    · exact le_rfl
  · intro q hq
    obtain ⟨rfl, -⟩ := entry_treeOf hq
    refine ⟨by decide, rfl, ?_, (nomatch ·), (nomatch ·), (nomatch ·)⟩
    exact (by decide : 1 < 3)
  · intro q r hq hr _
    rw [(entry_treeOf hq).1, (entry_treeOf hr).1]

theorem usable_treeOf (hn : nlink ≠ 0) {b : ℕ → ℤ} (h : i = 1 ∨ i = 2) :
    Usable b (treeOf data nlink) i := by
  rcases h with rfl | rfl
  · refine ⟨(by decide : 1 < 3), ?_, Or.inl ?_⟩
    · exact (by decide : T_DIR ≠ 0)
    · exact (by decide : (1 : Short) ≠ 0)
  · refine ⟨(by decide : 2 < 3), ?_, Or.inl hn⟩
    exact (by decide : T_FILE ≠ 0)

theorem atRest_treeOf (hn : nlink ≠ 0) (hdata : Whole data)
    (hentries : ∀ e ∈ entries data, e.inum = 1 ∨ e.inum = 2) :
    AtRest 0 (treeOf data nlink).refs [] (treeOf data nlink) := by
  have hroot : ∀ d, ((treeOf data nlink).node d).attrs.type = T_DIR →
      ((treeOf data nlink).node d).data = data := by
    intro d ht
    dsimp only [treeOf] at ht ⊢
    split at ht
    next hd => rw [if_pos hd]
    · split at ht
      · exact absurd (show T_FILE = T_DIR from ht) (by decide)
      · exact absurd (show (0 : Short) = T_DIR from ht) (by decide)
  refine ⟨.self tidy_treeOf, ⟨usable_treeOf hn (Or.inl rfl), ?_, ?_, ?_⟩, 0, rfl, ?_, ?_⟩
  · intro i hi
    obtain ⟨q, hq, hqi⟩ := exists_entry hi
    exact usable_treeOf hn (Or.inl (hqi.symm.trans (entry_treeOf hq).2))
  · intro d _ ht
    rw [hroot d ht]
    exact hdata
  · intro d _ ht e he _
    rw [hroot d ht] at he
    exact usable_treeOf hn (hentries e he)
  · exact zero_lt_one
  · rw [tidy_treeOf.refs_eq (by exact zero_lt_one)]
    exact zero_lt_one

theorem spare_treeOf : Spare (treeOf data nlink).refs 3 3 := by
  have hsub : ((Finset.range 3).filter fun i => 0 < (treeOf data nlink).refs i) ⊆ {1} := by
    intro i hi
    obtain ⟨q, hq, hqi⟩ := exists_entry (Finset.mem_filter.1 hi).2
    exact Finset.mem_singleton.2 (hqi.symm.trans (entry_treeOf hq).2)
  have hle := Finset.card_le_card hsub
  rw [Finset.card_singleton] at hle
  unfold Spare NINODE
  omega

end TreeOf

/-- The root directory has an entry `f` for the file. -/
def smallTree : IState :=
  treeOf (Dirent.bytes 1 dot ++ Dirent.bytes 1 dotdot ++ Dirent.bytes 2 [102]) 1

theorem atRest_smallTree : AtRest 0 smallTree.refs [] smallTree :=
  atRest_treeOf (by decide) ⟨by decide, by decide⟩ (by decide)

/-- The path `//f/` leads to the file. -/
theorem path_resolution_slashes : ∃ r t,
    (namei [slash, slash, 102, slash]).run (inodeSem 0) smallTree = .ok (r, t) ∧
      r.map t.inum = some 2 := by
  rcases (path_resolution atRest_smallTree [slash, slash, 102, slash]).2.1 with
    ⟨r, t, hrun, hr, -⟩ | ⟨hfull, -⟩
  · exact ⟨r, t, hrun, hr.trans (by decide)⟩
  · exact absurd (le_trans (Nat.le_succ _) spare_treeOf) hfull

end Qwin.Fs
