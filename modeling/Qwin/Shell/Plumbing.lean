import Qwin.Shell.Run

/-!
# The descriptors of a command

When `runcmd` is entered at a node, the table of the process is the first one but for
standard input and output. Every step of a node ends in a call of `runcmd` for a part, in
another process or in this one, for which the same holds.
-/

namespace Qwin.Shell

open Prog Pool List
open Function (update update_of_ne update_self update_eq_self update_idem update_comm)

namespace Table

variable {t t0 : Table} {i o x : Obj} {fd : ℕ} {node : Node}

def wired (t0 : Table) (i o : Obj) : Table :=
  update (update t0 0 (some i)) 1 (some o)

@[simp] theorem wired_zero : t0.wired i o 0 = some i := rfl

@[simp] theorem wired_one : t0.wired i o 1 = some o := rfl

theorem wired_of_ne (h0 : fd ≠ 0) (h1 : fd ≠ 1) : t0.wired i o fd = t0 fd := by
  rw [wired, update_of_ne h1, update_of_ne h0]

theorem wired_self (h0 : t0 0 = some i) (h1 : t0 1 = some o) : t0.wired i o = t0 := by
  rw [wired, ← h0, update_eq_self, ← h1, update_eq_self]

theorem fdalloc_eq (fd : ℕ) (hfd : fd < NOFILE) (hfree : t fd = none) (hlow : ∀ j < fd, t j ≠ none) :
    t.fdalloc x = some (fd, update t fd (some x)) := by
  have : (List.range NOFILE).find? (fun fd => t fd = none) = some fd := by
    rw [List.find?_range_eq_some]
    exact ⟨by simpa using hfree, mem_range.2 hfd, fun j hj => by simpa using hlow j hj⟩
  rw [fdalloc, this]

theorem exists_of_fdalloc {t' : Table} (h : t.fdalloc x = some (fd, t')) :
    fd < NOFILE ∧ t fd = none ∧ t' = update t fd (some x) := by
  rw [fdalloc] at h
  split at h
  · rename_i fd hfind
    cases h
    rw [List.find?_range_eq_some] at hfind
    exact ⟨mem_range.1 hfind.2.1, by simpa using hfind.1, rfl⟩
  · cases h

theorem close_eq (h : fd < NOFILE) : t.close fd = update t fd none := if_pos h

/-- Standard input is closed, and the next object becomes it. -/
theorem fdalloc_zero (h0 : t 0 = none) : t.fdalloc x = some (0, update t 0 (some x)) :=
  fdalloc_eq 0 (by decide) h0 (by omega)

/-- Standard output is closed, and the next object becomes it. -/
theorem fdalloc_one (h0 : t 0 ≠ none) (h1 : t 1 = none) :
    t.fdalloc x = some (1, update t 1 (some x)) :=
  fdalloc_eq 1 (by decide) h1 fun j hj => by rwa [Nat.lt_one_iff.1 hj]

theorem openFile_zero {name : Text} {mode : BitVec 32} :
    ((t0.wired i o).close 0).openFile name mode = (some 0, t0.wired (.file name mode) o) := by
  rw [openFile, close_eq (by decide), fdalloc_zero (update_self _ _ _)]
  simp only [update_idem, Prod.mk.injEq, true_and]
  rw [wired, update_comm (by decide), update_idem, wired, update_comm (by decide)]

theorem openFile_one {name : Text} {mode : BitVec 32} :
    ((t0.wired i o).close 1).openFile name mode = (some 1, t0.wired i (.file name mode)) := by
  rw [openFile, close_eq (by decide), fdalloc_one (by simp) (update_self _ _ _)]
  simp only [update_idem, wired]

/-- The ends of the pipe, if there are descriptors for them. -/
structure Piped (t : Table) (node : Node) (p0 p1 : ℕ) (t' : Table) : Prop where
  lt0 : p0 < NOFILE
  lt1 : p1 < NOFILE
  free0 : t p0 = none
  free1 : t p1 = none
  ne : p0 ≠ p1
  table : t' = update (update t p0 (some (.read node))) p1 (some (.write node))

theorem pipe_cases (t : Table) (node : Node) : t.pipe node = (none, t) ∨
    ∃ p0 p1 t', t.pipe node = (some (p0, p1), t') ∧ Piped t node p0 p1 t' := by
  rw [pipe]
  split
  · exact Or.inl rfl
  · rename_i p0 t1 h0
    obtain ⟨hlt0, hfree0, rfl⟩ := exists_of_fdalloc h0
    split
    · refine Or.inl ?_
      rw [update_idem, Function.update_eq_self_iff.2 hfree0.symm]
    · rename_i p1 t2 h1
      obtain ⟨hlt1, hfree1, rfl⟩ := exists_of_fdalloc h1
      have hne : p1 ≠ p0 := by
        rintro rfl
        rw [update_self] at hfree1
        cases hfree1
      rw [update_of_ne hne] at hfree1
      exact Or.inr ⟨p0, p1, _, rfl, hlt0, hlt1, hfree0, hfree1, hne.symm, rfl⟩

theorem fdalloc_ne_none (hfd : fd < NOFILE) (hfree : t fd = none) : t.fdalloc x ≠ none := by
  rw [fdalloc]
  split
  · simp
  · rename_i hnone
    rw [List.find?_range_eq_none] at hnone
    exact absurd (hnone fd hfd) (by simpa using hfree)

def Spare (t : Table) : Prop := ∃ p < NOFILE, ∃ q < NOFILE, p ≠ q ∧ t p = none ∧ t q = none

theorem Spare.wired (h : t0.Spare) {i' o' : Obj} (h0 : t0 0 = some i') (h1 : t0 1 = some o') :
    (t0.wired i o).Spare := by
  obtain ⟨p, hp, q, hq, hne, htp, htq⟩ := h
  have hold : ∀ fd, t0 fd = none → t0.wired i o fd = none := by
    intro fd hfd
    rw [wired_of_ne _ _, hfd]
    · rintro rfl
      rw [h0] at hfd
      cases hfd
    · rintro rfl
      rw [h1] at hfd
      cases hfd
  exact ⟨p, hp, q, hq, hne, hold p htp, hold q htq⟩

theorem Spare.pipe (h : t.Spare) (node : Node) :
    ∃ p0 p1 t', t.pipe node = (some (p0, p1), t') ∧ Piped t node p0 p1 t' := by
  refine (pipe_cases t node).resolve_left fun hnone => ?_
  obtain ⟨p, hp, q, hq, hne, htp, htq⟩ := h
  rw [Table.pipe] at hnone
  split at hnone
  · rename_i h0
    exact fdalloc_ne_none hp htp h0
  · rename_i p0 t1 h0
    obtain ⟨-, -, rfl⟩ := exists_of_fdalloc h0
    -- One of the two is still free.
    obtain ⟨r, hr, htr⟩ : ∃ r < NOFILE, update t p0 (some (.read node)) r = none := by
      by_cases he : p = p0
      · exact ⟨q, hq, by rw [update_of_ne (he ▸ hne.symm), htq]⟩
      · exact ⟨p, hp, by rw [update_of_ne he, htp]⟩
    split at hnone
    · rename_i h1
      exact fdalloc_ne_none hr htr h1
    · cases hnone

namespace Piped

variable {p0 p1 : ℕ} {t' : Table}

theorem two_lt (h : Piped (t0.wired i o) node p0 p1 t') : p0 ≠ 0 ∧ p0 ≠ 1 ∧ p1 ≠ 0 ∧ p1 ≠ 1 := by
  have h0 := h.free0
  have h1 := h.free1
  refine ⟨?_, ?_, ?_, ?_⟩ <;> rintro rfl <;> simp at h0 h1

theorem free (h : Piped (t0.wired i o) node p0 p1 t') : t0 p0 = none ∧ t0 p1 = none := by
  obtain ⟨h00, h01, h10, h11⟩ := h.two_lt
  have h0 := h.free0
  have h1 := h.free1
  rw [wired_of_ne h00 h01] at h0
  rw [wired_of_ne h10 h11] at h1
  exact ⟨h0, h1⟩

section

variable (h : Piped t node p0 p1 t')
include h

theorem close_close {s u : Table} (h0 : u p0 = none) (h1 : u p1 = none)
    (hs : ∀ fd, fd ≠ p0 → fd ≠ p1 → s fd = u fd) : (s.close p0).close p1 = u := by
  rw [close_eq h.lt0, close_eq h.lt1]
  funext fd
  by_cases he1 : fd = p1
  · rw [he1, update_self, h1]
  · by_cases he0 : fd = p0
    · rw [update_of_ne he1, he0, update_self, h0]
    · rw [update_of_ne he1, update_of_ne he0, hs fd he0 he1]

theorem table_of_ne (h0 : fd ≠ p0) (h1 : fd ≠ p1) : t' fd = t fd := by
  rw [h.table, update_of_ne h1, update_of_ne h0]

/-- The shell itself has no end of the pipe when it waits. -/
theorem parent : (t'.close p0).close p1 = t :=
  h.close_close h.free0 h.free1 fun _ => h.table_of_ne

end

variable (h : Piped (t0.wired i o) node p0 p1 t')
include h

/-- The left side has the write end as its standard output. -/
theorem left : (((t'.close 1).dup p1).2.close p0).close p1 = t0.wired i (.write node) := by
  obtain ⟨h00, h01, h10, h11⟩ := h.two_lt
  have hdup : ((t'.close 1).dup p1).2 = update t' 1 (some (.write node)) := by
    have hp1 : t' p1 = some (.write node) := by rw [h.table, update_self]
    have ht0 : t' 0 ≠ none := by
      rw [h.table_of_ne h00.symm h10.symm]
      simp
    rw [dup, close_eq (by decide), if_pos h.lt1, update_of_ne h11, hp1]
    dsimp only
    rw [fdalloc_one (by rwa [update_of_ne (by decide)]) (update_self _ _ _), update_idem]
  rw [hdup]
  refine h.close_close ?_ ?_ fun fd hfd0 hfd1 => ?_
  · rw [wired_of_ne h00 h01, h.free.1]
  · rw [wired_of_ne h10 h11, h.free.2]
  · by_cases hfd : fd = 1
    · rw [hfd, update_self, wired_one]
    · rw [update_of_ne hfd, h.table_of_ne hfd0 hfd1, wired, wired,
        update_of_ne hfd, update_of_ne hfd]

/-- The right side has the read end as its standard input. -/
theorem right : (((t'.close 0).dup p0).2.close p0).close p1 = t0.wired (.read node) o := by
  obtain ⟨h00, h01, h10, h11⟩ := h.two_lt
  have hdup : ((t'.close 0).dup p0).2 = update t' 0 (some (.read node)) := by
    have hp0 : t' p0 = some (.read node) := by
      rw [h.table, update_of_ne h.ne, update_self]
    rw [dup, close_eq (by decide), if_pos h.lt0, update_of_ne h00, hp0]
    dsimp only
    rw [fdalloc_zero (update_self _ _ _), update_idem]
  rw [hdup]
  refine h.close_close ?_ ?_ fun fd hfd0 hfd1 => ?_
  · rw [wired_of_ne h00 h01, h.free.1]
  · rw [wired_of_ne h10 h11, h.free.2]
  · by_cases hfd : fd = 0
    · rw [hfd, update_self, wired_zero]
    · rw [update_of_ne hfd, h.table_of_ne hfd0 hfd1]
      by_cases hfd1 : fd = 1
      · rw [hfd1, wired_one, wired_one]
      · rw [wired_of_ne hfd hfd1, wired_of_ne hfd hfd1]

end Piped

end Table

/-! ## The processes of a command -/

section

variable {found : Text → Bool} {P : Proc → Prop} {β : Type} {a : Call β}
  {k : β → Prog Call Empty} {t t0 : Table} {d : Proc}

theorem always_call (hP : P ⟨call a >>= k, t⟩)
    (hnext : ∀ r ∈ a.outcomes found t, Always (Proc.Next found) P ⟨k r.1, r.2⟩) :
    Always (Proc.Next found) P ⟨call a >>= k, t⟩ := by
  refine .intro hP ?_
  rintro d ⟨_, ⟨⟩, hd⟩
  obtain ⟨r, hr, rfl⟩ := mem_map.1 hd
  exact hnext r hr

theorem always_exit (hP : P ⟨call .exit, t⟩) : Always (Proc.Next found) P ⟨call .exit, t⟩ := by
  refine .intro hP ?_
  rintro d ⟨_, ⟨⟩, hd⟩
  cases hd

variable {r : β × Table}

theorem always_one (hr : a.outcomes found t = [r]) (hP : P ⟨call a >>= k, t⟩)
    (hnext : Always (Proc.Next found) P ⟨k r.1, r.2⟩) :
    Always (Proc.Next found) P ⟨call a >>= k, t⟩ := by
  refine always_call hP fun r' hr' => ?_
  rw [hr] at hr'
  rw [mem_singleton.1 hr']
  exact hnext

theorem always_fork {k : Bool → Prog Call Empty} (hP : P ⟨call .fork >>= k, t⟩)
    (hparent : Always (Proc.Next found) P ⟨k false, t⟩)
    (hchild : Always (Proc.Next found) P ⟨k true, t⟩) :
    Always (Proc.Next found) P ⟨call .fork >>= k, t⟩ := by
  refine always_call hP fun r hr => ?_
  simp only [Call.outcomes, mem_cons, not_mem_nil, or_false] at hr
  rcases hr with rfl | rfl
  · exact hparent
  · exact hchild

theorem reached_call (hr : r ∈ a.outcomes found t) (hd : Reached (Proc.Next found) ⟨k r.1, r.2⟩ d) :
    Reached (Proc.Next found) ⟨call a >>= k, t⟩ d :=
  hd.head ⟨_, .call a k t, mem_map_of_mem hr⟩

theorem reached_one (hr : a.outcomes found t = [r])
    (hd : Reached (Proc.Next found) ⟨k r.1, r.2⟩ d) :
    Reached (Proc.Next found) ⟨call a >>= k, t⟩ d :=
  reached_call (by rw [hr]; exact mem_singleton_self r) hd

theorem reached_parent {k : Bool → Prog Call Empty}
    (hd : Reached (Proc.Next found) ⟨k false, t⟩ d) :
    Reached (Proc.Next found) ⟨call .fork >>= k, t⟩ d :=
  reached_call (r := (false, t)) mem_cons_self hd

theorem reached_child {k : Bool → Prog Call Empty}
    (hd : Reached (Proc.Next found) ⟨k true, t⟩ d) :
    Reached (Proc.Next found) ⟨call .fork >>= k, t⟩ d :=
  reached_call (r := (true, t)) (mem_cons_of_mem _ mem_cons_self) hd

/-- What should hold when a call is made: a command is executed with the descriptors of its
wire, and the ends of a pipe are closed when the shell waits for its sides. -/
def Call.Fine (t0 : Table) (L : List Wire) {β : Type} (a : Call β) (t : Table) : Prop :=
  match a with
  | .execv node _ argv => ∃ w ∈ L, w.node = node ∧ w.argv = argv ∧ t = t0.wired w.stdin w.stdout
  | .wait node => ∀ fd, t fd ≠ some (.read node) ∧ t fd ≠ some (.write node)
  | _ => True

def Proc.Fine (t0 : Table) (L : List Wire) (c : Proc) : Prop :=
  match c.prog with
  | .ret _ => True
  | .act a _ => a.Fine t0 L c.table

/-- An object that is no end of a pipe of this node or of one below it. -/
def Obj.Away (node : Node) (x : Obj) : Prop := ∀ m, x ≠ .read (node ++ m) ∧ x ≠ .write (node ++ m)

theorem Obj.Away.below {node : Node} {x : Obj} (h : x.Away node) (side : Side) :
    x.Away (node ++ [side]) := fun m => by
  rw [append_assoc]
  exact h _

theorem Obj.away_read (node : Node) (side : Side) : (Obj.read node).Away (node ++ [side]) := fun m => by
  simp

theorem Obj.away_write (node : Node) (side : Side) : (Obj.write node).Away (node ++ [side]) :=
  fun m => by simp

/-- The descriptors before the command: none is an end of one of its pipes. -/
def Table.Clean (t0 : Table) : Prop := ∀ fd node, t0 fd ≠ some (.read node) ∧ t0 fd ≠ some (.write node)

variable {i o : Obj}

theorem Table.Clean.wired {node : Node} (h : t0.Clean) (hi : i.Away node)
    (ho : o.Away node) (fd : ℕ) :
    t0.wired i o fd ≠ some (.read node) ∧ t0.wired i o fd ≠ some (.write node) := by
  have hi' := hi []
  have ho' := ho []
  rw [append_nil] at hi' ho'
  by_cases h1 : fd = 1
  · rw [h1, Table.wired_one]
    exact ⟨fun he => ho'.1 (Option.some.inj he), fun he => ho'.2 (Option.some.inj he)⟩
  · by_cases h0 : fd = 0
    · rw [h0, Table.wired_zero]
      exact ⟨fun he => hi'.1 (Option.some.inj he), fun he => hi'.2 (Option.some.inj he)⟩
    · rw [Table.wired_of_ne h0 h1]
      exact h fd node

variable {paths : List Text} {L : List Wire}

theorem execAll_always {node : Node} {name : Text} {argv : List Text}
    (hfine : ∃ w ∈ L, w.node = node ∧ w.argv = argv ∧ t = t0.wired w.stdin w.stdout) :
    Always (Proc.Next found) (Proc.Fine t0 L)
      ⟨execAll node name argv paths >>= fun _ => call .exit, t⟩ := by
  induction paths with
  | nil => exact always_exit trivial
  | cons path paths ih =>
    refine always_call (k := fun _ => execAll node name argv paths >>= fun _ => call .exit) hfine ?_
    intro r hr
    simp only [Call.outcomes] at hr
    split at hr
    · cases hr
    · rw [mem_singleton.1 hr]
      exact ih

/-- Every process of a command has the descriptors it should have. -/
theorem runcmd_always (hclean : t0.Clean) (cmd : Cmd Text) (hcmd : cmd.Redirs) (node : Node)
    (hL : wiring node i o cmd ⊆ L) (hi : i.Away node) (ho : o.Away node) :
    Always (Proc.Next found) (Proc.Fine t0 L) ⟨runcmd paths node cmd, t0.wired i o⟩ := by
  induction cmd generalizing node i o with
  | exec argv =>
    cases argv with
    | nil => exact always_exit trivial
    | cons name argv =>
      exact execAll_always ⟨⟨node, name :: argv, i, o⟩, hL (by simp [wiring]), rfl, rfl, rfl⟩
  | redir cmd file mode fd ih =>
    obtain ⟨hcmd, kind, rfl, rfl⟩ := hcmd
    rw [runcmd]
    refine always_one rfl trivial ?_
    cases kind with
    | input =>
      refine always_one (congrArg ([·]) Table.openFile_zero) trivial ?_
      exact ih hcmd _ hL (fun m => by simp) (ho.below _)
    | output | append =>
      refine always_one (congrArg ([·]) Table.openFile_one) trivial ?_
      exact ih hcmd _ hL (hi.below _) fun m => by simp
  | pipe left right ihl ihr =>
    rw [wiring, append_subset] at hL
    rw [runcmd]
    rcases Table.pipe_cases (t0.wired i o) node with hp | ⟨p0, p1, t', hp, hpiped⟩
    · exact always_one (congrArg ([·]) hp) trivial (always_exit trivial)
    · refine always_one (congrArg ([·]) hp) trivial ?_
      refine always_fork trivial ?_ ?_
      · refine always_fork trivial ?_ ?_
        · refine always_one rfl trivial (always_one rfl trivial ?_)
          dsimp only
          rw [hpiped.parent]
          have hwait := hclean.wired hi ho
          exact always_one rfl hwait (always_one rfl hwait (always_exit trivial))
        · refine always_one rfl trivial (always_one rfl trivial ?_)
          refine always_one rfl trivial (always_one rfl trivial ?_)
          dsimp only
          rw [hpiped.right]
          exact ihr hcmd.2 _ hL.2 (Obj.away_read node _) (ho.below _)
      · refine always_one rfl trivial (always_one rfl trivial ?_)
        refine always_one rfl trivial (always_one rfl trivial ?_)
        dsimp only
        rw [hpiped.left]
        exact ihl hcmd.1 _ hL.1 (hi.below _) (Obj.away_write node _)
  | list left right ihl ihr =>
    rw [wiring, append_subset] at hL
    rw [runcmd]
    refine always_fork trivial ?_ (ihl hcmd.1 _ hL.1 (hi.below _) (ho.below _))
    exact always_one rfl (hclean.wired hi ho) (ihr hcmd.2 _ hL.2 (hi.below _) (ho.below _))
  | back cmd ih =>
    rw [runcmd]
    exact always_fork trivial (always_exit trivial) (ih hcmd _ hL (hi.below _) (ho.below _))

variable {w : Wire}

/-- Every command of the tree is executed, if there are descriptors for the pipes. -/
theorem runcmd_reached {i' o' : Obj} (h0 : t0 0 = some i') (h1 : t0 1 = some o') (hspare : t0.Spare)
    (hpaths : paths ≠ []) (cmd : Cmd Text) (hcmd : cmd.Redirs) (node : Node)
    (hw : w ∈ wiring node i o cmd) :
    ∃ file k, Reached (Proc.Next found) ⟨runcmd paths node cmd, t0.wired i o⟩
      ⟨.act (.execv w.node file w.argv) k, t0.wired w.stdin w.stdout⟩ := by
  induction cmd generalizing node i o with
  | exec argv =>
    obtain ⟨path, paths, rfl⟩ := exists_cons_of_ne_nil hpaths
    cases argv with
    | nil => cases hw
    | cons name argv =>
      rw [wiring, if_neg (by simp), mem_singleton] at hw
      subst hw
      exact ⟨_, _, Reached.refl _⟩
  | redir cmd file mode fd ih =>
    obtain ⟨hcmd, kind, rfl, rfl⟩ := hcmd
    cases kind with
    | input =>
      obtain ⟨f, k, hd⟩ := ih hcmd _ hw
      refine ⟨f, k, reached_one rfl ?_⟩
      exact reached_one (congrArg ([·]) Table.openFile_zero) hd
    | output | append =>
      obtain ⟨f, k, hd⟩ := ih hcmd _ hw
      refine ⟨f, k, reached_one rfl ?_⟩
      exact reached_one (congrArg ([·]) Table.openFile_one) hd
  | pipe left right ihl ihr =>
    obtain ⟨p0, p1, t', hp, hpiped⟩ := (hspare.wired h0 h1).pipe (t := t0.wired i o) node
    rcases mem_append.1 hw with hw | hw
    · obtain ⟨f, k, hd⟩ := ihl hcmd.1 _ hw
      rw [← hpiped.left] at hd
      refine ⟨f, k, reached_one (congrArg ([·]) hp) (reached_child ?_)⟩
      exact reached_one rfl (reached_one rfl (reached_one rfl (reached_one rfl hd)))
    · obtain ⟨f, k, hd⟩ := ihr hcmd.2 _ hw
      rw [← hpiped.right] at hd
      refine ⟨f, k, reached_one (congrArg ([·]) hp) (reached_parent (reached_child ?_))⟩
      exact reached_one rfl (reached_one rfl (reached_one rfl (reached_one rfl hd)))
  | list left right ihl ihr =>
    rcases mem_append.1 hw with hw | hw
    · obtain ⟨f, k, hd⟩ := ihl hcmd.1 _ hw
      exact ⟨f, k, reached_child hd⟩
    · obtain ⟨f, k, hd⟩ := ihr hcmd.2 _ hw
      exact ⟨f, k, reached_parent (reached_one rfl hd)⟩
  | back cmd ih =>
    obtain ⟨f, k, hd⟩ := ih hcmd _ hw
    exact ⟨f, k, reached_child hd⟩

theorem mem_wiring {cmd : Cmd Text} {node : Node}
    (hw : w ∈ wiring node i o cmd) : node <+: w.node := by
  induction cmd generalizing node i o with
  | exec argv =>
    rw [wiring] at hw
    split at hw
    · cases hw
    · cases mem_singleton.1 hw
      exact prefix_refl node
  | redir cmd file mode fd ih =>
    rw [wiring] at hw
    split at hw <;> exact (prefix_append _ _).trans (ih hw)
  | pipe left right ihl ihr | list left right ihl ihr =>
    rcases mem_append.1 hw with hw | hw
    · exact (prefix_append _ _).trans (ihl hw)
    · exact (prefix_append _ _).trans (ihr hw)
  | back cmd ih => exact (prefix_append _ _).trans (ih hw)

theorem wiring_sides {left right : Cmd Text} {node : Node} {i' o' : Obj} {v : Wire}
    (hv : v ∈ wiring (node ++ [.left]) i o left) (hw : w ∈ wiring (node ++ [.right]) i' o' right) :
    v.node ≠ w.node := by
  intro he
  have h1 := mem_wiring hv
  have h2 := mem_wiring hw
  rw [← he] at h2
  have := prefix_of_prefix_length_le h1 h2 (by simp)
  simp at this

theorem wiring_nodup (cmd : Cmd Text) (node : Node) (i o : Obj) :
    (wiring node i o cmd).Pairwise fun v w => v.node ≠ w.node := by
  induction cmd generalizing node i o with
  | exec argv =>
    rw [wiring]
    split <;> simp
  | redir cmd file mode fd ih =>
    rw [wiring]
    split <;> exact ih _ _ _
  | pipe left right ihl ihr | list left right ihl ihr =>
    exact pairwise_append.2 ⟨ihl _ _ _, ihr _ _ _, fun v hv w hw => wiring_sides hv hw⟩
  | back cmd ih => exact ih _ _ _

/-- Whatever the order in which the processes of a command take their steps, each of its
commands is executed with the standard input and output of its wire and with the other
descriptors as they were, and the shell has no end of a pipe when it waits for the sides of
the pipe. Every command is executed, if two descriptors are free. -/
theorem shell_plumbing (found : Text → Bool) (paths : List Text) (cmd : Cmd Text)
    (hcmd : cmd.Redirs) {i o : Obj} (h0 : t0 0 = some i) (h1 : t0 1 = some o) (hclean : t0.Clean) :
    (∀ c, Reached (Proc.Next found) ⟨runcmd paths [] cmd, t0⟩ c →
      (∀ node file argv k, c.prog = .act (.execv node file argv) k →
        ∃ w ∈ wiring [] i o cmd, w.node = node ∧ w.argv = argv ∧ c.table 0 = some w.stdin ∧
          c.table 1 = some w.stdout ∧ ∀ fd, fd ≠ 0 → fd ≠ 1 → c.table fd = t0 fd) ∧
      ∀ node k, c.prog = .act (.wait node) k →
        ∀ fd, c.table fd ≠ some (.read node) ∧ c.table fd ≠ some (.write node)) ∧
    ((wiring [] i o cmd).Pairwise fun v w => v.node ≠ w.node) ∧
    (t0.Spare → paths ≠ [] → ∀ w ∈ wiring [] i o cmd, ∃ c,
      Reached (Proc.Next found) ⟨runcmd paths [] cmd, t0⟩ c ∧
        ∃ file k, c.prog = .act (.execv w.node file w.argv) k) := by
  have haway : ∀ x fd, t0 fd = some x → x.Away [] := fun x fd hx m =>
    ⟨fun he => (hclean fd m).1 (by rw [hx, he]; rfl), fun he => (hclean fd m).2 (by rw [hx, he]; rfl)⟩
  have hstart : t0.wired i o = t0 := Table.wired_self h0 h1
  refine ⟨fun c hc => ?_, wiring_nodup cmd [] i o, fun hspare hpaths w hw => ?_⟩
  · rw [← hstart] at hc
    have hfine := runcmd_always hclean cmd hcmd [] (List.Subset.refl _) (haway i 0 h0) (haway o 1 h1) c hc
    obtain ⟨p, t⟩ := c
    refine ⟨fun node file argv k hprog => ?_, fun node k hprog => ?_⟩
    · obtain rfl : p = _ := hprog
      obtain ⟨w, hw, hnode, hargv, rfl⟩ := hfine
      exact ⟨w, hw, hnode, hargv, rfl, rfl, fun fd => Table.wired_of_ne⟩
    · obtain rfl : p = _ := hprog
      exact hfine
  · obtain ⟨file, k, hc⟩ := runcmd_reached h0 h1 hspare hpaths cmd hcmd [] hw
    rw [hstart] at hc
    exact ⟨_, hc, file, k, rfl⟩

/-- `a<f|(b c&)>>g;d` -/
theorem shell_plumbing_sample : ∃ c : Proc,
    Reached (Proc.Next fun _ => true) ⟨runcmd [[]] [] sampleCmd, threeOpen⟩ c ∧
      (∃ file k, c.prog = .act (.execv [.left, .left, .sub] file [[byte 'a']]) k) ∧
      c.table 0 = some (.file [byte 'f'] 0) ∧ c.table 1 = some (.write [.left]) := by
  have hclean : threeOpen.Clean := by
    intro fd node
    unfold threeOpen
    split <;> simp
  have hspare : threeOpen.Spare := ⟨3, by decide, 4, by decide, by decide, rfl, rfl⟩
  have hcmd : sampleCmd.Redirs :=
    ⟨⟨⟨trivial, .input, rfl, rfl⟩, ⟨trivial, .append, rfl, rfl⟩⟩, trivial⟩
  obtain ⟨hall, -, hreach⟩ := shell_plumbing (fun _ => true) [[]] sampleCmd hcmd
    (show threeOpen 0 = some (.old 0) from rfl) (show threeOpen 1 = some (.old 1) from rfl) hclean
  obtain ⟨c, hc, file, k, hprog⟩ := hreach hspare (by simp) ⟨[.left, .left, .sub], [[byte 'a']],
    .file [byte 'f'] 0, .write [.left]⟩ mem_cons_self
  obtain ⟨w, hw, hnode, -, hin, hout, -⟩ := (hall c hc).1 _ _ _ _ hprog
  refine ⟨c, hc, ⟨file, k, hprog⟩, ?_⟩
  rcases mem_cons.1 hw with rfl | hw
  · exact ⟨hin, hout⟩
  rcases mem_cons.1 hw with rfl | hw
  · exact absurd hnode (by decide)
  · cases mem_singleton.1 hw
    exact absurd hnode (by decide)

end

end Qwin.Shell
