import Qwin.Sys.Names

/-!
# The program mv

`mv` makes the new name with `link` and removes the old one with `unlink`, and it does the
second also after the first has failed. A file system is looked at here as the names of its
directories, in a state where nothing else runs.
-/

namespace Qwin.Mv

open Prog Fs Sys

/-- The lines that `mv` writes to the standard error. -/
inductive Said
  | usage
  | cantMove (src : List UInt8)

def main : List (List UInt8) → IProg (List Said)
  | [_, src, dst] => do
      let r ← sysLink (some src) (some dst)
      let _ ← sysUnlink (some src)
      pure (if r < 0 then [.cantMove src] else [])
  | _ => pure [.usage]

variable {p : ℕ} {E : End IState → Prop} {s t : IState} {b : ℕ → ℤ} {i d off : ℕ}
  {prog src dst name : List UInt8}

/-! ## What is named -/

def Names (p : ℕ) (s : IState) (path : List UInt8) (i : ℕ) : Prop :=
  resolve s.node (startInum p s (cstring path)) (segments (cstring path)) = some i

/-- The path ends with this name in directory `d`, whether there is such a name or not. -/
def Ends (p : ℕ) (s : IState) (path : List UInt8) (d : ℕ) (name : List UInt8) : Prop :=
  walk s.node true (startInum p s (cstring path)) (segments (cstring path)) = some (d, name)

/-- `mv` returns, and inode `i` is named by `dst`, or by `src` if it said that it can't move
it. All names but these two are as they were. -/
def Keeps (p : ℕ) (s : IState) (prog src dst : List UInt8) (i : ℕ) : Prop :=
  ∃ out t, (main [prog, src, dst]).run (inodeSem p) s = .ok (out, t) ∧
    (out = [] → Names p t dst i) ∧ (out ≠ [] → Names p t src i) ∧
    ∀ d name, (∀ last, Ends p s src d last → nameOf name ≠ nameOf last) →
      (∀ last, Ends p s dst d last → nameOf name ≠ nameOf last) →
      child t.node d name = child s.node d name

/-- The names of a file system: paths start in directories, what has a name has a link, a
directory has a name once, and has itself only under `.` and `..`. -/
structure Healthy (p : ℕ) (s : IState) : Prop where
  start : ∀ path, (s.node (startInum p s path)).attrs.type = T_DIR
  counted : ∀ d name i, child s.node d name = some i → 0 < nlinkOf s i
  distinct : ∀ d, (s.node d).attrs.type = T_DIR → Distinct (s.node d).data
  loop : ∀ d name, child s.node d name = some d →
    nameOf name = nameOf dot ∨ nameOf name = nameOf dotdot

structure CanLink (p : ℕ) (s : IState) (i : ℕ) (dst : List UInt8) (d : ℕ) (name : List UInt8) :
    Prop where
  file : (s.node i).attrs.type ≠ T_DIR
  ends : Ends p s dst d name
  new : lookup (s.node d).data name = none
  room : DESIZE * vacancy (s.node d).data < MAXFILE * BSIZE

def CannotLink (p : ℕ) (s : IState) (i : ℕ) (dst : List UInt8) : Prop :=
  (s.node i).attrs.type = T_DIR ∨
    ∀ d name, Ends p s dst d name → lookup (s.node d).data name ≠ none

/-- Either `link` makes the name, and a link more can be counted if `unlink` is to go on, or
`link` fails and `unlink` refuses to remove the name. -/
def Safe (p : ℕ) (s : IState) (src dst : List UInt8) (i : ℕ) : Prop :=
  (∃ d name, CanLink p s i dst d name) ∧
      (nlinkOf s i < 32767 ∨ ∀ d off j name, ¬ Target p s (cstring src) d off j name) ∨
    CannotLink p s i dst ∧
      ∀ d off j name, Target p s (cstring src) d off j name → Full (s.node j)

/-! ## The two calls -/

theorem toInt_succ_lt {v : Short} (h : 32767 ≤ v.toInt) : (v + 1).toInt < 1 := by
  have hmax : v.toInt < 32768 := by
    have := BitVec.two_mul_toInt_lt (x := v)
    omega
  have hv : v = 32767 := BitVec.eq_of_toInt_eq (by
    rw [show (32767 : Short).toInt = 32767 by decide]
    omega)
  rw [hv]
  decide

section Calls

variable {j : ℕ} {path : List UInt8}

theorem child_of_target (h : Target p s path d off j name) : child s.node d name = some j := by
  rw [child, if_pos (walk_dir h.walk), h.lookup]
  rfl

theorem target_iff (hstart : startInum p t path = startInum p s path)
    (hn : t.node = s.node) : Target p t path d off j name ↔ Target p s path d off j name := by
  constructor
  · rintro ⟨h1, h2, h3, h4⟩
    rw [hn, hstart] at h1
    rw [hn] at h4
    exact ⟨h1, h2, h3, h4⟩
  · rintro ⟨h1, h2, h3, h4⟩
    rw [← hn, ← hstart] at h1
    rw [← hn] at h4
    exact ⟨h1, h2, h3, h4⟩

theorem target_segments (h : Target p s path d off j name) : segments path ≠ [] := by
  intro hnil
  have := h.walk
  rw [hnil] at this
  cases this

variable {last : List UInt8}

theorem target_unique {e : ℕ} (hend : Ends p s src e last)
    (hc : child s.node e last = some i) (h : Target p s (cstring src) d off j name) :
    d = e ∧ name = last ∧ j = i := by
  cases hend.symm.trans h.walk
  exact ⟨rfl, rfl, Option.some.inj ((child_of_target h).symm.trans hc)⟩

/-- The old name is where it was when a new one was made. -/
theorem ends_linked {e : ℕ} (hdir : (s.node d).attrs.type = T_DIR)
    (hwhole : Whole (s.node d).data) (hnew : lookup (s.node d).data name = none)
    (hstart : startInum p t (cstring src) = startInum p s (cstring src))
    (hnode : t.node = linked s.node i d name) (hend : Ends p s src e last)
    (hc : child s.node e last = some i) : Ends p t src e last ∧ child t.node e last = some i := by
  constructor
  · rw [Ends, hnode, hstart]
    exact walk_linked hdir hwhole hnew hend
  · rw [hnode, child_linked_of_ne hdir hwhole fun hsame => ?_]
    · exact hc
    · rw [hsame.1, child_name_congr hsame.2, child, if_pos hdir, hnew] at hc
      cases hc

variable (h : AtRest p b [] s) (hown : s.core.owner = none) (hsrc : Names p s src i)

variable (hh : Healthy p s)

include hsrc hh

theorem exists_ends (hfile : (s.node i).attrs.type ≠ T_DIR) :
    ∃ d name, Ends p s src d name ∧ child s.node d name = some i := by
  have hne : segments (cstring src) ≠ [] := by
    intro hnil
    have hres := hsrc
    rw [Names, hnil, resolve_nil] at hres
    cases hres
    exact hfile (hh.start _)
  have hres := hsrc
  rw [Names, resolve_eq_walk _ _ hne] at hres
  obtain ⟨⟨d, name⟩, hw, hc⟩ := Option.bind_eq_some_iff.1 hres
  exact ⟨d, name, hw, hc⟩

theorem nlink_succ_ne_zero (hfile : (s.node i).attrs.type ≠ T_DIR) :
    (s.node i).attrs.nlink + 1 ≠ 0 := by
  obtain ⟨d, name, -, hc⟩ := exists_ends hsrc hh hfile
  have hpos := hh.counted d name i hc
  intro hz
  have hm1 : (s.node i).attrs.nlink = -1 := by
    rw [← BitVec.add_sub_cancel (s.node i).attrs.nlink 1, hz]
    rfl
  rw [nlinkOf, hm1] at hpos
  exact absurd hpos (by decide)

include h hown

variable {Q : List Said → IState → Prop}

theorem acts_main_fails (hroom : Room E b s.ninodes 3) (hno : CannotLink p s i dst)
    (hkeep : (∀ d off j name, Target p s (cstring src) d off j name →
        Full (s.node j) ∨ (s.core.pt.proc p).uid ≠ 0) →
      ∀ t, Stays b s t → t.node = s.node → Q [.cantMove src] t)
    (hgone : ∀ d off j name, Target p s (cstring src) d off j name → ¬ Full (s.node j) →
      ∀ t, Stays b s t → t.node = unlinked b s.node d off j → Q [.cantMove src] t) :
    Acts p E Q (main [prog, src, dst]) s := by
  have hunlink : ∀ t, Holding b [] none t → Stays b s t → t.core.owner = none →
      t.node = s.node → Acts p E Q (do
        let _ ← sysUnlink (some src)
        pure (if (-1 : ℤ) < 0 then [.cantMove src] else [])) t := by
    intro t ht hs ho hn
    have hk : Kept b s t := ⟨hs, ho.trans hown.symm, hn⟩
    have htar : ∀ d off j name, Target p t (cstring src) d off j name ↔
        Target p s (cstring src) d off j name := fun d off j name =>
      target_iff (h.startInum_eq hs _) hn
    refine wp_seq (acts_sysUnlink (h.kept ht hk) ho ?_ ?_ ?_ ?_ ?_)
    · rw [hs.ninodes]
      exact hroom.mono (by decide)
    · intro d off name hself
      have hself := (htar _ _ _ _).1 hself
      exact absurd (hh.loop d name (child_of_target hself)) (not_or.2 ⟨hself.dot, hself.dotdot⟩)
    · intro d off j name hj hlow
      have hpos := hh.counted d name j (child_of_target ((htar _ _ _ _).1 hj))
      rw [hn] at hlow
      rw [nlinkOf] at hpos
      omega
    · intro hrefused u _ hsu _ hnu
      refine wp_pure (hkeep ?_ u (hs.trans hsu) (hnu.trans hn))
      intro d off j name hj
      have := hrefused d off j name ((htar _ _ _ _).2 hj)
      rwa [hn, hs.pt] at this
    · intro d off j name hj _ hfull _ u _ hsu _ hnu
      rw [hn] at hfull hnu
      exact wp_pure (hgone d off j name ((htar _ _ _ _).1 hj) hfull u (hs.trans hsu) hnu)
  by_cases hdir : (s.node i).attrs.type = T_DIR
  · exact wp_seq (acts_sysLink_dir h hown (hroom.mono (by decide)) hsrc hdir hunlink)
  · have htaken := hno.resolve_left hdir
    refine wp_seq (acts_sysLink h hown hroom hsrc hdir (nlink_succ_ne_zero hsrc hh hdir)
      ⟨?_, fun _ => hunlink, ?_⟩)
    · intro d name hw hl _
      exact absurd hl (htaken d name hw)
    · intro d name hw hl
      exact absurd hl (htaken d name hw)

theorem acts_main_links (hroom : Room E b s.ninodes 3)
    (hn : s.ninodes ≤ 65536) (hcan : CanLink p s i dst d name)
    (hpanic : ∀ d' off j name', Target p s (cstring src) d' off j name' → 32767 ≤ nlinkOf s i →
      E (.stop (.panic .unlinkNlink)))
    (hkeep : Usable b s i → Usable b s d → ∀ t, Stays b s t → t.node = linked s.node i d name →
      ((s.core.pt.proc p).uid = 0 →
        ∀ d' off j name', ¬ Target p s (cstring src) d' off j name') → Q [] t)
    (hdone : Usable b s i → Usable b s d → ∀ d' off name', Ends p s src d' name' → nlinkOf s i < 32767 →
      lookup (linked s.node i d name d').data name' = some (off, i) →
      ∀ t, Stays b s t → t.node = dropLink (Function.update (linked s.node i d name) d'
        (withoutEntry (linked s.node i d name d') off)) i → Q [] t) :
    Acts p E Q (main [prog, src, dst]) s := by
  have hfile := hcan.file
  have hsucc := nlink_succ_ne_zero hsrc hh hfile
  refine wp_seq (acts_sysLink h hown hroom hsrc hfile hsucc ⟨?_, ?_, ?_⟩)
  · intro d' name' hw _ hfull
    cases hcan.ends.symm.trans hw
    exact absurd hfull (Nat.ne_of_lt hcan.room)
  · intro htaken
    exact absurd hcan.new (htaken d name hcan.ends)
  intro d' name' hw hl hu hud hdir hlt t ht hs ho hnode
  cases hcan.ends.symm.trans hw
  have hwhole := h.sound.whole d hud hdir
  have hi : i < 65536 := lt_of_lt_of_le hu.known hn
  have hrest : AtRest p b [] t :=
    h.stays ht hs (sound_linked h.sound hu hi hfile hsucc hud hdir hlt hs.ninodes hnode)
  obtain ⟨e, last, hend, hchild⟩ := exists_ends hsrc hh hfile
  have hpos : 0 < nlinkOf s i := hh.counted e last i hchild
  have hei : i ≠ e := by
    rintro rfl
    exact hfile (walk_dir hend)
  have hdi : i ≠ d := by
    rintro rfl
    exact hfile hdir
  have hnlink : (t.node i).attrs.nlink = (s.node i).attrs.nlink + 1 := by
    rw [hnode, linked_of_ne hdi, recount_self]
    rfl
  obtain ⟨hend', hchild'⟩ :=
    ends_linked hdir hwhole hl (h.startInum_eq hs _) hnode hend hchild
  have htar : ∀ d' off j name', Target p t (cstring src) d' off j name' →
      d' = e ∧ name' = last ∧ j = i ∧ ∃ off', Target p s (cstring src) e off' i last := by
    intro d' off j name' htar
    obtain ⟨rfl, rfl, rfl⟩ := target_unique hend' hchild' htar
    obtain ⟨off', hoff⟩ := exists_lookup_of_child hchild
    exact ⟨rfl, rfl, rfl, off', hend, htar.dot, htar.dotdot, hoff⟩
  refine wp_seq (acts_sysUnlink hrest ho ?_ ?_ ?_ ?_ ?_)
  · rw [hs.ninodes]
    exact hroom.mono (by decide)
  · intro d' off name' htarget
    obtain ⟨rfl, -, rfl, -⟩ := htar _ _ _ _ htarget
    exact absurd rfl hei
  · intro d' off j name' htarget hlow
    obtain ⟨rfl, rfl, rfl, off', htarget'⟩ := htar _ _ _ _ htarget
    refine hpanic _ _ _ _ htarget' ?_
    by_contra hlt'
    rw [hnlink, toInt_succ (by rw [nlinkOf] at hpos; omega)
      (by rw [nlinkOf] at hlt'; omega)] at hlow
    rw [nlinkOf] at hpos
    omega
  · intro hrefused u _ hsu _ hnu
    refine wp_pure (hkeep hu hud u (hs.trans hsu) (hnu.trans hnode) fun huid d' off j name' htarget => ?_)
    cases hend.symm.trans htarget.walk
    obtain ⟨off', hoff⟩ := exists_lookup_of_child hchild'
    rcases hrefused e off' i last ⟨hend', htarget.dot, htarget.dotdot, hoff⟩ with hfull | hother
    · rw [hnode] at hfull
      exact hfile ((linked_type _ _ _ _ _).symm.trans hfull.1)
    · rw [hs.pt] at hother
      exact hother huid
  · intro d' off j name' htarget hue _ hlow u _ hsu _ hnu
    obtain ⟨rfl, rfl, rfl, off', htarget'⟩ := htar _ _ _ _ htarget
    have hlook := htarget.lookup
    rw [hnode] at hlook
    have hmax : nlinkOf s j < 32767 := by
      by_contra hge
      rw [hnlink] at hlow
      exact hlow (toInt_succ_lt (not_lt.1 hge))
    refine wp_pure (hdone hu hud d' off name' hend hmax hlook u (hs.trans hsu) ?_)
    rw [hnu, hnode]
    refine unlinked_eq ?_ hei ?_ ?_
    · rw [linked_type]
      exact hfile
    · rw [← hnode]
      exact hue.safe.imp_right ne_of_gt
    · rw [← hnode, hnlink, BitVec.add_sub_cancel]
      intro hz
      rw [nlinkOf, hz] at hpos
      exact absurd hpos (by decide)

end Calls

/-! ## When no file is lost -/

section Main

variable (h : AtRest p b [] s) (hown : s.core.owner = none) (hspare : Spare b s.ninodes 3)
  (hn : s.ninodes ≤ 65536) (hh : Healthy p s) (hsrc : Names p s src i)

include h hown hspare hh hsrc

theorem keeps_of_cannotLink (hno : CannotLink p s i dst)
    (hfull : ∀ d off j name, Target p s (cstring src) d off j name → Full (s.node j)) :
    Keeps p s prog src dst i := by
  refine wp_run_exists (acts_main_fails h hown hsrc hh (Or.inr hspare) hno ?_ ?_)
  · intro _ t hs hnode
    refine ⟨(nomatch ·), fun _ => ?_, fun d name _ _ => by rw [hnode]⟩
    rw [Names, hnode, h.startInum_eq hs]
    exact hsrc
  · intro d off j name htar hnot
    exact absurd (hfull d off j name htar) hnot

include hn

theorem keeps_of_canLink (hcan : CanLink p s i dst d name)
    (hmax : nlinkOf s i < 32767 ∨ ∀ d off j name, ¬ Target p s (cstring src) d off j name) :
    Keeps p s prog src dst i := by
  have hdir := walk_dir hcan.ends
  have hne : segments (cstring dst) ≠ [] := by
    intro hnil
    have := hcan.ends
    rw [Ends, hnil] at this
    cases this
  obtain ⟨e, last, hend, hchild⟩ := exists_ends hsrc hh hcan.file
  have hapart : ¬ (d = e ∧ nameOf name = nameOf last) := by
    rintro ⟨rfl, hname⟩
    rw [← child_name_congr hname, child, if_pos hdir, hcan.new] at hchild
    cases hchild
  refine wp_run_exists (acts_main_links h hown hsrc hh (Or.inr hspare) hn hcan ?_ ?_ ?_)
  · intro d' off j name' htar hge
    rcases hmax with hlt | hnone
    · omega
    · exact hnone d' off j name' htar
  · intro hu hud t hs hnode _
    have hwhole := h.sound.whole d hud hdir
    refine ⟨fun _ => ?_, fun hc => absurd rfl hc, fun d' name' _ hdst => ?_⟩
    · rw [Names, hnode, h.startInum_eq hs, resolve_eq_walk _ _ hne,
        walk_linked hdir hwhole hcan.new hcan.ends]
      exact child_linked_self hdir hwhole hcan.new (child_ne_zero hchild)
        (lt_of_lt_of_le hu.known hn)
    · rw [hnode]
      refine child_linked_of_ne hdir hwhole fun hc => ?_
      exact hdst name (hc.1 ▸ hcan.ends) hc.2
  · intro hu hud d' off name' hend' _ hlook t hs hnode
    cases hend.symm.trans hend'
    have hwhole := h.sound.whole d hud hdir
    have hdir' : (linked s.node i d name e).attrs.type = T_DIR :=
      (linked_type _ _ _ _ _).trans (walk_dir hend)
    have hfile' : (linked s.node i d name i).attrs.type ≠ T_DIR := by
      rw [linked_type]
      exact hcan.file
    refine ⟨fun _ => ?_, fun hc => absurd rfl hc, fun d' name' hold hdst => ?_⟩
    · rw [Names, hnode, h.startInum_eq hs, resolve_eq_walk _ _ hne, dropLink,
        walk_congr (recount_type _ _ _) (recount_data _ _ _),
        walk_without hdir' hfile' hlook (walk_linked hdir hwhole hcan.new hcan.ends)]
      refine (child_dropLink _ _ _ _).trans ?_
      rw [child_without_of_ne hlook hdir' hapart]
      exact child_linked_self hdir hwhole hcan.new (child_ne_zero hchild)
        (lt_of_lt_of_le hu.known hn)
    · rw [hnode, child_dropLink, child_without_of_ne hlook hdir' fun hc => ?_]
      · refine child_linked_of_ne hdir hwhole fun hc => ?_
        exact hdst name (hc.1 ▸ hcan.ends) hc.2
      · exact hold last (hc.1 ▸ hend) hc.2

omit hspare in
theorem safe_of_keeps (huid : (s.core.pt.proc p).uid = 0) (hkeeps : Keeps p s prog src dst i) :
    Safe p s src dst i := by
  obtain ⟨out, t, hrun, hdst, hsrc', -⟩ := hkeeps
  by_cases hno : CannotLink p s i dst
  · refine Or.inr ⟨hno, fun d off j name htar => ?_⟩
    by_contra hfull
    have hacts : Acts p (fun _ => True) (fun out t => out ≠ [] ∧ ¬ Names p t src i)
        (main [prog, src, dst]) s := by
      refine acts_main_fails h hown hsrc hh (Or.inl trivial) hno ?_ ?_
      · intro hrefused
        exact ((hrefused d off j name htar).elim hfull fun hc => hc huid).elim
      · intro d' off' j' name' htar' _ t hs hnode
        refine ⟨List.cons_ne_nil _ _, fun hnames => ?_⟩
        have hnil := target_segments htar'
        rw [Names, hnode, h.startInum_eq hs, resolve_eq_walk _ _ hnil] at hnames
        obtain ⟨⟨e, last⟩, hw, hc⟩ := Option.bind_eq_some_iff.1 hnames
        have hdir := walk_dir htar'.walk
        have hdistinct := hh.distinct d' hdir
        have hold := walk_keep (fun _ => dir_unlinked) (fun _ _ _ hc _ =>
          (child_of_unlinked htar'.lookup hdir hdistinct hc).1) hw
        cases htar'.walk.symm.trans hold
        exact (child_of_unlinked htar'.lookup hdir hdistinct hc).2 ⟨rfl, rfl⟩
    obtain ⟨hout, hlost⟩ := wp_run_ok hacts hrun
    exact hlost (hsrc' hout)
  · obtain ⟨hfile, hnew⟩ := not_or.1 hno
    push Not at hnew
    obtain ⟨d, name, hends, hlook⟩ := hnew
    have hroom : DESIZE * vacancy (s.node d).data < MAXFILE * BSIZE := by
      by_contra hfull
      have hacts : Acts p (fun _ => True) (fun _ _ => False) (main [prog, src, dst]) s := by
        refine wp_seq (acts_sysLink h hown (Or.inl trivial) hsrc hfile
          (nlink_succ_ne_zero hsrc hh hfile) ⟨fun _ _ _ _ _ => trivial, ?_, ?_⟩)
        · intro htaken
          exact absurd hlook (htaken d name hends)
        · intro d' name' hw _ _ _ _ hlt
          cases hends.symm.trans hw
          exact absurd hlt hfull
      exact wp_run_ok hacts hrun
    have hcan : CanLink p s i dst d name := ⟨hfile, hends, hlook, hroom⟩
    refine Or.inl ⟨⟨d, name, hcan⟩, ?_⟩
    by_contra hmax
    obtain ⟨hge, htar⟩ := not_or.1 hmax
    have hacts : Acts p (fun _ => True) (fun _ _ => False) (main [prog, src, dst]) s := by
      refine acts_main_links h hown hsrc hh (Or.inl trivial) hn hcan
        (fun _ _ _ _ _ _ => trivial) ?_ ?_
      · intro _ _ t _ _ hnone
        exact htar (hnone huid)
      · intro _ _ _ _ _ _ hlt
        exact absurd hlt hge
    exact wp_run_ok hacts hrun

end Main

/-! ## Two runs -/

section Tree

variable {data : List UInt8} {nlink : Short}

theorem dir_treeOf (h : ((treeOf data nlink).node d).attrs.type = T_DIR) : d = ROOTINO := by
  by_contra hd
  dsimp only [treeOf] at h
  rw [if_neg hd] at h
  split at h
  · exact absurd (show T_FILE = T_DIR from h) (by decide)
  · exact absurd (show (0 : Short) = T_DIR from h) (by decide)

theorem child_treeOf (h : child (treeOf data nlink).node d name = some i) :
    d = ROOTINO ∧ ∃ e ∈ entries data, e.inum = i ∧ nameOf name = nameOf e.name := by
  have hd : ((treeOf data nlink).node d).attrs.type = T_DIR := by
    by_contra hd
    rw [child_of_not_dir hd] at h
    cases h
  obtain rfl := dir_treeOf hd
  rw [child_eq hd] at h
  obtain ⟨e, he, rfl⟩ := Option.map_eq_some_iff.1 h
  have hnamed : e.Named name := by simpa using List.find?_some he
  exact ⟨rfl, e, List.mem_of_find?_eq_some he, rfl, hnamed.2⟩

/-- A root directory with names for itself and for a file. -/
theorem healthy_treeOf (hnlink : 0 < nlink.toInt) (hdata : Distinct data)
    (hentries : ∀ e ∈ entries data, e.inum = 2 ∨
      e.inum = 1 ∧ (nameOf e.name = nameOf dot ∨ nameOf e.name = nameOf dotdot)) :
    Healthy 0 (treeOf data nlink) := by
  refine ⟨?_, ?_, ?_, ?_⟩
  · intro path
    unfold startInum
    split <;> rfl
  · intro d name i hc
    obtain ⟨-, e, he, rfl, -⟩ := child_treeOf hc
    rcases hentries e he with h2 | ⟨h1, -⟩
    · rw [h2]
      exact hnlink
    · rw [h1]
      exact (by decide : (0 : ℤ) < (1 : Short).toInt)
  · intro d hd
    obtain rfl := dir_treeOf hd
    exact hdata
  · intro d name hc
    obtain ⟨rfl, e, he, hi, hname⟩ := child_treeOf hc
    rcases hentries e he with h2 | ⟨-, hdots⟩
    · rw [hi] at h2
      exact absurd h2 (by decide)
    · rwa [hname]

end Tree

theorem healthy_smallTree : Healthy 0 smallTree :=
  healthy_treeOf (by decide) (by decide) (by decide)

theorem names_smallTree : Names 0 smallTree [102] 2 := by
  rw [Names]
  decide

end Qwin.Mv
