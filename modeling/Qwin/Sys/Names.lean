import Qwin.Sys.Unlink

/-!
# Names after a link and an unlink

What a directory has under a name is the inode of its first entry with this name. A link adds
one name, and takes none away. An unlink takes one name away; if no name occurs twice in a
directory then it adds none. So paths that lead to directories lead there after a link, and
after an unlink of something else. `sys_link` and `sys_unlink` change one name or nothing.
-/

namespace Qwin.Sys

open Prog Fs List
open Function (update update_of_ne update_self)

variable {node node' : ℕ → Node} {b : ℕ → ℤ} {d d' i j c off k : ℕ} {name name' : List UInt8}
  {names : List (List UInt8)}

/-! ## Searching a list that was changed -/

section Find

variable {α : Type} {q : α → Bool} {l : List α} {x : α}

/-- An element that is not found is replaced by another one. -/
theorem find?_set_of_not (hk : k < l.length) (hold : ¬ q l[k]) (hnew : ¬ q x) :
    (l.set k x).find? q = l.find? q := by
  induction l generalizing k with
  | nil => rfl
  | cons y l ih =>
    cases k with
    | zero => simp_all
    | succ k =>
      rw [set_cons_succ, List.find?_cons, List.find?_cons]
      rw [ih (by simpa using hk) (by simpa using hold)]

theorem find?_set_of_none (hk : k < l.length) (hnone : l.find? q = none) (hnew : q x) :
    (l.set k x).find? q = some x := by
  induction l generalizing k with
  | nil => exact absurd hk (Nat.not_lt_zero _)
  | cons y l ih =>
    rw [List.find?_cons] at hnone
    cases hy : q y with
    | true => simp [hy] at hnone
    | false =>
      rw [hy] at hnone
      cases k with
      | zero => rw [set_cons_zero, List.find?_cons, hnew]
      | succ k =>
        rw [set_cons_succ, List.find?_cons, hy]
        exact ih (by simpa using hk) hnone

end Find

/-! ## The names of a directory -/

theorem getElem_entries {data : List UInt8} (hk : k < (entries data).length) :
    (entries data)[k] = entryAt data k := by
  have hlt : k < data.length / DESIZE := by rwa [length_entries] at hk
  have hget := getElem?_entries hlt
  rw [List.getElem?_eq_getElem hk] at hget
  exact Option.some.inj hget

/-- What a directory with these bytes has under a name. -/
theorem child_eq (hd : (node d).attrs.type = T_DIR) (name : List UInt8) :
    child node d name = ((entries (node d).data).find? fun e => e.Named name).map Dirent.inum := by
  rw [child, if_pos hd, lookup_inum]

theorem child_congr (htype : (node' d).attrs.type = (node d).attrs.type)
    (hdata : (node' d).data = (node d).data) (name : List UInt8) :
    child node' d name = child node d name := by
  rw [child, htype, hdata, child]

section

variable (h : nameOf name' = nameOf name)
include h

theorem named_congr (e : Dirent) : e.Named name' ↔ e.Named name := by
  rw [Dirent.Named, Dirent.Named, h]

theorem find?_named_congr (l : List Dirent) :
    l.find? (fun e => e.Named name') = l.find? fun e => e.Named name := by
  simp only [named_congr h]

theorem child_name_congr (node : ℕ → Node) (d : ℕ) : child node d name' = child node d name := by
  by_cases hd : (node d).attrs.type = T_DIR
  · rw [child_eq hd, child_eq hd, find?_named_congr h]
  · rw [child_of_not_dir hd, child_of_not_dir hd]

end

theorem exists_lookup_of_child (h : child node d name = some i) :
    ∃ off, lookup (node d).data name = some (off, i) := by
  unfold child at h
  split at h
  · obtain ⟨⟨off, j⟩, hx, rfl⟩ := Option.map_eq_some_iff.1 h
    exact ⟨off, hx⟩
  · cases h

theorem child_ne_zero (h : child node d name = some i) : i ≠ 0 := by
  by_cases hd : (node d).attrs.type = T_DIR
  · rw [child_eq hd] at h
    obtain ⟨e, he, rfl⟩ := Option.map_eq_some_iff.1 h
    have hnamed : e.Named name := by simpa using List.find?_some he
    exact hnamed.1
  · rw [child_of_not_dir hd] at h
    cases h

/-! ## After a link -/

section Linked

variable (hd : (node d).attrs.type = T_DIR) (hwhole : Whole (node d).data)

include hd hwhole

theorem child_linked_of_ne (h : ¬ (d' = d ∧ nameOf name' = nameOf name)) :
    child (linked node i d name) d' name' = child node d' name' := by
  by_cases hdd : d' = d
  · subst hdd
    have hname : nameOf name' ≠ nameOf name := fun he => h ⟨rfl, he⟩
    have hnot : ¬ (Dirent.get (Dirent.bytes i name)).Named name' := fun hc =>
      hname (hc.2.trans (get_bytes_name i name))
    rw [child_eq (by rw [linked_type]; exact hd), child_eq hd, linked_self]
    rcases withEntry_cases hwhole i name with ⟨k, hk, hfree, -, hset⟩ | ⟨-, -, happ⟩
    · rw [hset, find?_set_of_not hk]
      · rw [getElem_entries hk]
        simpa using fun hc : Dirent.Named name' _ => hc.1 hfree
      · simpa using hnot
    · rw [happ, List.find?_append, List.find?_singleton, if_neg (by simpa using hnot), Option.or_none]
  · refine child_congr (linked_type _ _ _ _ _) ?_ name'
    rw [linked_of_ne hdd, recount_data]

theorem child_linked_self (hnone : lookup (node d).data name = none) (h0 : i ≠ 0) (hi : i < 65536) :
    child (linked node i d name) d name = some i := by
  have hnew : (Dirent.get (Dirent.bytes i name)).Named name := by
    refine ⟨?_, (get_bytes_name i name).symm⟩
    rw [get_bytes_inum hi]
    exact h0
  have hold : (entries (node d).data).find? (fun e => e.Named name) = none := by
    have := lookup_inum (node d).data name
    rw [hnone] at this
    exact Option.map_eq_none_iff.1 this.symm
  rw [child_eq (by rw [linked_type]; exact hd), linked_self]
  rcases withEntry_cases hwhole i name with ⟨k, hk, -, -, hset⟩ | ⟨-, -, happ⟩
  · rw [hset, find?_set_of_none hk hold (decide_eq_true hnew), Option.map_some, get_bytes_inum hi]
  · rw [happ, List.find?_append, hold, List.find?_singleton, if_pos (decide_eq_true hnew),
      Option.none_or, Option.map_some, get_bytes_inum hi]

end Linked

/-! ## After an unlink -/

def Distinct (data : List UInt8) : Prop :=
  (entries data).Pairwise fun e e' => e.inum ≠ 0 → e'.inum ≠ 0 → nameOf e.name ≠ nameOf e'.name

instance (data : List UInt8) : Decidable (Distinct data) :=
  inferInstanceAs (Decidable (List.Pairwise _ _))

section Unlinked

variable (hl : lookup (node d).data name = some (off, i))

include hl

theorem entries_withoutEntry : ∃ k, ∃ hk : k < (entries (node d).data).length,
    (entries (node d).data)[k].Named name ∧
    entries (withoutEntry (node d) off).data =
      (entries (node d).data).set k (Dirent.get (List.replicate DESIZE 0)) := by
  obtain ⟨k, hk, heq⟩ := Option.map_eq_some_iff.1 hl
  cases heq
  obtain ⟨hlt, hnamed⟩ := firstFrom_eq_some hk
  have hlen : k < (entries (node d).data).length := by rwa [length_entries]
  refine ⟨k, hlen, ?_, entries_splice hlt length_replicate⟩
  rw [getElem_entries hlen]
  exact hnamed

variable (hd : (node d).attrs.type = T_DIR)

include hd

theorem child_without_of_ne (h : ¬ (d' = d ∧ nameOf name' = nameOf name)) :
    child (update node d (withoutEntry (node d) off)) d' name' = child node d' name' := by
  by_cases hdd : d' = d
  · subst hdd
    obtain ⟨k, hk, hnamed, hset⟩ := entries_withoutEntry hl
    have hname : nameOf name' ≠ nameOf name := fun he => h ⟨rfl, he⟩
    have hself : update node d' (withoutEntry (node d') off) d' =
        withoutEntry (node d') off := update_self _ _ _
    rw [child_eq (by rw [hself]; exact hd), child_eq hd, hself, hset, find?_set_of_not hk]
    · simpa using fun hc : Dirent.Named name' _ => hname (hc.2.trans hnamed.2.symm)
    · simpa using fun hc : Dirent.Named name' _ => hc.1 rfl
  · exact child_congr (by rw [update_of_ne hdd]) (by rw [update_of_ne hdd]) name'

theorem child_without_self (hdistinct : Distinct (node d).data)
    (hn : nameOf name' = nameOf name) :
    child (update node d (withoutEntry (node d) off)) d name' = none := by
  obtain ⟨k, hk, hnamed, hset⟩ := entries_withoutEntry hl
  have hself : update node d (withoutEntry (node d) off) d =
      withoutEntry (node d) off := update_self _ _ _
  rw [child_eq (by rw [hself]; exact hd), hself, hset, find?_named_congr hn,
    Option.map_eq_none_iff, List.find?_eq_none]
  intro e he hc
  have hc : e.Named name := by simpa using hc
  obtain ⟨j, hj, rfl⟩ := mem_iff_getElem.1 he
  rw [length_set] at hj
  rw [getElem_set] at hc
  split at hc
  · exact hc.1 rfl
  next hjk =>
    have hpair := pairwise_iff_getElem.1 hdistinct
    rcases Nat.lt_or_gt_of_ne hjk with hlt | hgt
    · exact hpair k j hk hj hlt hnamed.1 hc.1 (hnamed.2.symm.trans hc.2)
    · exact hpair j k hj hk hgt hc.1 hnamed.1 (hc.2.symm.trans hnamed.2)

end Unlinked

theorem child_dropLink (node : ℕ → Node) (i d : ℕ) (name : List UInt8) :
    child (dropLink node i) d name = child node d name :=
  child_congr (recount_type _ _ _ _) (recount_data _ _ _ _) name

theorem child_reap (h : child (reap b node i) d name = some c) : child node d name = some c := by
  by_cases hdi : d = i
  · subst hdi
    unfold reap at h
    split at h
    · rw [child_of_not_dir] at h
      · cases h
      · rw [update_self]
        exact (by decide : (0 : Short) ≠ T_DIR)
    · exact h
  · rw [← h]
    exact (child_congr (by rw [reap_of_ne hdi]) (by rw [reap_of_ne hdi]) name).symm

theorem child_withoutName (node : ℕ → Node) (d off i d' : ℕ) (name : List UInt8) :
    child (withoutName node d off i) d' name =
      child (update node d (withoutEntry (node d) off)) d' name := by
  unfold withoutName
  split
  · exact child_dropLink _ _ _ _
  · rfl

theorem child_unlinked (h : child (unlinked b node d off i) d' name = some c) :
    child (update node d (withoutEntry (node d) off)) d' name = some c := by
  have h1 := child_reap h
  rw [child_dropLink] at h1
  have h2 := child_reap h1
  rwa [child_withoutName] at h2

theorem reap_eq_self (h : (node i).attrs.nlink ≠ 0 ∨ b i ≠ 0) : reap b node i = node :=
  if_neg fun hc => h.elim (fun hn => hn hc.1) fun hb => hb hc.2

theorem unlinked_eq (hi : (node i).attrs.type ≠ T_DIR) (hne : i ≠ d)
    (hsafe : (node d).attrs.nlink ≠ 0 ∨ b d ≠ 0) (hlink : (node i).attrs.nlink - 1 ≠ 0) :
    unlinked b node d off i = dropLink (update node d (withoutEntry (node d) off)) i := by
  have hw : withoutName node d off i = update node d (withoutEntry (node d) off) :=
    if_neg hi
  have h1 : reap b (withoutName node d off i) d = withoutName node d off i := by
    refine reap_eq_self ?_
    rw [hw, update_self]
    exact hsafe
  rw [unlinked, h1, reap_eq_self, hw]
  left
  rw [dropLink, recount_self, hw, update_of_ne hne]
  exact hlink

theorem dir_reap (h : (reap b node i j).attrs.type = T_DIR) : (node j).attrs.type = T_DIR := by
  unfold reap at h
  split at h
  · by_cases hj : j = i
    · rw [hj, update_self] at h
      exact absurd (show (0 : Short) = T_DIR from h) (by decide)
    · rwa [update_of_ne hj] at h
  · exact h

theorem withoutEntry_type (node : ℕ → Node) (d off j : ℕ) :
    (update node d (withoutEntry (node d) off) j).attrs.type = (node j).attrs.type := by
  by_cases hj : j = d
  · rw [hj, update_self]
    rfl
  · rw [update_of_ne hj]

theorem dir_unlinked (h : (unlinked b node d off i j).attrs.type = T_DIR) :
    (node j).attrs.type = T_DIR := by
  have h1 := dir_reap h
  rw [dropLink, recount_type] at h1
  have h2 := dir_reap h1
  unfold withoutName at h2
  split at h2
  · rwa [dropLink, recount_type, withoutEntry_type] at h2
  · rwa [withoutEntry_type] at h2

/-! ## Paths -/

variable {x : ℕ × List UInt8}

/-- Where the names of directories are kept, the directory of a path is kept. -/
theorem walk_keep (htype : ∀ d, (node d).attrs.type = T_DIR → (node' d).attrs.type = T_DIR)
    (hchild : ∀ d name c, child node d name = some c → (node c).attrs.type = T_DIR →
      child node' d name = some c) (h : walk node true d names = some x) :
    walk node' true d names = some x := by
  induction names generalizing d with
  | nil => exact h
  | cons name names ih =>
    rw [walk] at h ⊢
    split at h
    · cases h
    next ht =>
      rw [if_neg (not_not.2 (htype d (not_not.1 ht)))]
      split at h
      next hlast => rwa [if_pos hlast]
      next hlast =>
        rw [if_neg hlast]
        obtain ⟨c, hc, hw⟩ := Option.bind_eq_some_iff.1 h
        -- The walk goes on from `c`, which is a directory then.
        have hdir : (node c).attrs.type = T_DIR := by
          cases names with
          | nil => exact absurd ⟨rfl, rfl⟩ hlast
          | cons name' names =>
            rw [walk] at hw
            split at hw
            · cases hw
            next hdir => exact not_not.1 hdir
        rw [hchild d name c hc hdir]
        exact ih hw

theorem walk_linked (hd : (node d).attrs.type = T_DIR) (hwhole : Whole (node d).data)
    (hnone : lookup (node d).data name = none) {a : ℕ}
    (h : walk node true a names = some x) : walk (linked node i d name) true a names = some x := by
  refine walk_keep (fun j hj => (linked_type _ _ _ _ _).trans hj) ?_ h
  intro d' name' c hc _
  rw [child_linked_of_ne hd hwhole, hc]
  rintro ⟨rfl, hn⟩
  rw [child_name_congr hn, child, if_pos hd, hnone] at hc
  cases hc

/-- An unlink of a file leaves the directories of all paths. -/
theorem walk_without (hd : (node d).attrs.type = T_DIR) (hi : (node i).attrs.type ≠ T_DIR)
    (hl : lookup (node d).data name = some (off, i)) {a : ℕ}
    (h : walk node true a names = some x) :
    walk (update node d (withoutEntry (node d) off)) true a names = some x := by
  refine walk_keep (fun j hj => (withoutEntry_type _ _ _ _).trans hj) ?_ h
  intro d' name' c hc hdir
  rw [child_without_of_ne hl hd, hc]
  rintro ⟨rfl, hn⟩
  rw [child_name_congr hn, child, if_pos hd, hl] at hc
  cases hc
  exact hi hdir

theorem child_of_unlinked (hl : lookup (node d).data name = some (off, i))
    (hd : (node d).attrs.type = T_DIR) (hdistinct : Distinct (node d).data)
    (h : child (unlinked b node d off i) d' name' = some c) :
    child node d' name' = some c ∧ ¬ (d' = d ∧ nameOf name' = nameOf name) := by
  have hc := child_unlinked h
  have hne : ¬ (d' = d ∧ nameOf name' = nameOf name) := by
    rintro ⟨rfl, hn⟩
    rw [child_without_self hl hd hdistinct hn] at hc
    cases hc
  rw [child_without_of_ne hl hd hne] at hc
  exact ⟨hc, hne⟩

/-! ## The two calls -/

section Calls

variable {p : ℕ} {s : IState} {old new path : List UInt8}

/-- From `s` to `t` the directories change in one place: what `name` leads to in `d`. -/
def Renames (s t : IState) (d : ℕ) (name : List UInt8) (x : Option ℕ) : Prop :=
  ∀ d' name', child t.node d' name' =
    if d' = d ∧ nameOf name' = nameOf name then x else child s.node d' name'

theorem child_reap_file (hi : (node i).attrs.type ≠ T_DIR) :
    child (reap b node i) d name = child node d name := by
  by_cases hdi : d = i
  · subst hdi
    rw [child_of_not_dir fun hc => hi (dir_reap hc), child_of_not_dir hi]
  · exact child_congr (by rw [reap_of_ne hdi]) (by rw [reap_of_ne hdi]) name

theorem child_unlinked_file (hi : (node i).attrs.type ≠ T_DIR)
    (hsafe : (node d).attrs.nlink ≠ 0 ∨ b d ≠ 0) :
    child (unlinked b node d off i) d' name =
      child (update node d (withoutEntry (node d) off)) d' name := by
  have hw : withoutName node d off i = update node d (withoutEntry (node d) off) := if_neg hi
  rw [unlinked, hw, reap_eq_self (i := d) (by rw [update_self]; exact hsafe), child_reap_file,
    child_dropLink]
  rw [dropLink, recount_type, withoutEntry_type]
  exact hi

/-- `sys_unlink` of a file takes one name away and touches no other. It returns -1 and changes
nothing if there is no such name or the caller is not root. It holds nothing then. -/
theorem sysUnlink_removes (h : AtRest p b [] s) (hown : s.core.owner = none)
    (hspare : Spare b s.ninodes 2)
    (hfile : ∀ d off i name, Target p s (cstring path) d off i name →
      (s.node i).attrs.type ≠ T_DIR ∧ ¬ (s.node i).attrs.nlink.toInt < 1 ∧
        Distinct (s.node d).data) :
    ∃ r t, (sysUnlink (some path)).run (inodeSem p) s = .ok (r, t) ∧
      Holding b [] none t ∧ t.core.owner = none ∧
      (r = -1 ∧ t.node = s.node ∧ (∀ d off i name, Target p s (cstring path) d off i name →
          (s.core.pt.proc p).uid ≠ 0) ∨
        r = 0 ∧ ∃ d off i name, Target p s (cstring path) d off i name ∧
          Renames s t d name none) := by
  refine wp_run_exists (acts_sysUnlink h hown (Or.inr hspare) ?_ ?_ ?_ ?_)
  · exact fun d off name htar => (hfile d off d name htar).1 (walk_dir htar.walk)
  · exact fun d off i name htar hlt => (hfile d off i name htar).2.1 hlt
  · intro hno t ht _ ho hnode
    refine ⟨ht, ho, Or.inl ⟨rfl, hnode, fun d off i name htar => ?_⟩⟩
    exact (hno d off i name htar).resolve_left fun hfull => (hfile d off i name htar).1 hfull.1
  · intro d off i name htar hud _ _ t ht _ ho hnode
    obtain ⟨hi, -, hdistinct⟩ := hfile d off i name htar
    have hdir := walk_dir htar.walk
    refine ⟨ht, ho, Or.inr ⟨rfl, d, off, i, name, htar, fun d' name' => ?_⟩⟩
    rw [hnode, child_unlinked_file hi (hud.safe.imp_right ne_of_gt)]
    split
    next hc =>
      rw [hc.1]
      exact child_without_self htar.lookup hdir hdistinct hc.2
    next hc => exact child_without_of_ne htar.lookup hdir hc

theorem sysUnlink_removes_small : ∃ t,
    (sysUnlink (some [102])).run (inodeSem 0) smallTree = .ok (0, t) ∧
      Renames smallTree t 1 [102] none := by
  have hspare : Spare smallTree.refs 3 2 := Nat.le_of_succ_le spare_treeOf
  obtain ⟨r, t, hrun, -, -, h⟩ := @sysUnlink_removes _ 0 _ [102] atRest_smallTree rfl hspare (by
    rintro d off i name ⟨hw : some (1, [102]) = _, -, -, hl⟩
    cases hw
    have hl : some (32, 2) = some (off, i) := hl
    cases hl
    decide)
  rcases h with ⟨-, -, hno⟩ | ⟨rfl, d, off, i, name, ⟨hw : some (1, [102]) = _, -, -, -⟩, hren⟩
  · exact absurd rfl (hno 1 32 2 [102] ⟨by decide, by decide, by decide, by decide⟩)
  · cases hw
    exact ⟨t, hrun, hren⟩

end Calls

end Qwin.Sys
