import Qwin.Fs.Paths

/-!
# The tree of directories

Apart from `.` and `..` the entries of the directories form a tree: a directory is an entry
of one directory only, under one name, and its entry `..` leads back there. So the names
from the root to a directory are determined by it, and no other path without dots leads to
it.
-/

namespace Qwin.Fs

open List

variable {node : ℕ → Node} {d i : ℕ} {e : Dirent} {name : List UInt8}
  {names : List (List UInt8)}

def IsDir (node : ℕ → Node) (i : ℕ) : Prop := (node i).attrs.type = T_DIR

instance (node : ℕ → Node) (i : ℕ) : Decidable (IsDir node i) :=
  inferInstanceAs (Decidable (_ = _))

/-- The entry is in use, and not one for the directory itself or for its parent. -/
def Dirent.Proper (e : Dirent) : Prop := e.inum ≠ 0 ∧ ¬ e.Dotted

instance (e : Dirent) : Decidable e.Proper := inferInstanceAs (Decidable (_ ∧ _))

structure Tree (node : ℕ → Node) : Prop where
  whole : ∀ d, IsDir node d → Whole (node d).data
  name : ∀ d, IsDir node d → ∀ e ∈ entries (node d).data, e.inum ≠ 0 →
    nameOf e.name ≠ [] ∧ slash ∉ nameOf e.name
  distinct : ∀ d, IsDir node d → ∀ e ∈ entries (node d).data, ∀ e' ∈ entries (node d).data,
    e.inum ≠ 0 → e'.inum ≠ 0 → nameOf e'.name = nameOf e.name → e'.inum = e.inum
  up : ∀ d, IsDir node d → ∀ e ∈ entries (node d).data, e.Proper → IsDir node e.inum →
    e.inum ≠ ROOTINO ∧ child node e.inum dotdot = some d
  once : ∀ d, IsDir node d → ∀ e ∈ entries (node d).data, ∀ e' ∈ entries (node d).data,
    e.Proper → IsDir node e.inum → e'.inum = e.inum → nameOf e'.name = nameOf e.name

/-- The names of the entries on the way from the root to an inode. -/
inductive Leads (node : ℕ → Node) : List (List UInt8) → ℕ → Prop
  | root : Leads node [] ROOTINO
  | entry {names : List (List UInt8)} {d : ℕ} {e : Dirent} (h : Leads node names d)
      (hd : IsDir node d) (he : e ∈ entries (node d).data) (hp : e.Proper) :
      Leads node (names ++ [nameOf e.name]) e.inum

theorem nameOf_nameOf (s : List UInt8) : nameOf (nameOf s) = nameOf s := by
  have hne : ∀ c ∈ nameOf s, c ≠ 0 := fun c hc =>
    ne_zero_of_mem_cstring (mem_of_mem_take hc)
  have hcs : cstring (nameOf s) = nameOf s := by
    simpa using cstring_append_zero (nameOf s) hne 0
  rw [nameOf, hcs, nameOf, take_take, min_self]

/-- What fits into a string of `DIRSIZ` bytes with its terminating zero. -/
def cut (name : List UInt8) : List UInt8 := name.take (DIRSIZ - 1)

theorem length_cut_lt (name : List UInt8) : (cut name).length < DIRSIZ := by
  rw [cut, length_take]
  exact lt_of_le_of_lt (min_le_left _ _) (by decide)

theorem nameOf_cut (s : List UInt8) : nameOf (cut (nameOf s)) = cut (nameOf s) := by
  have hne : ∀ c ∈ cut (nameOf s), c ≠ 0 := fun c hc =>
    ne_zero_of_mem_cstring (mem_of_mem_take (mem_of_mem_take hc))
  have hcs : cstring (cut (nameOf s)) = cut (nameOf s) := by
    simpa using cstring_append_zero _ hne 0
  rw [nameOf, hcs, take_of_length_le (length_cut_lt _).le]

theorem cut_eq {s : List UInt8} (hs : s.length < DIRSIZ - 1) (h : cut name = s) : name = s := by
  have hlen := congrArg List.length h
  rw [cut, length_take] at hlen
  rw [← h, cut, take_of_length_le (by omega)]

theorem map_cut (h : ∀ m ∈ names, m.length < DIRSIZ) : names.map cut = names := by
  refine (map_congr_left fun m hm => ?_).trans (map_id names)
  exact take_of_length_le (Nat.le_of_lt_succ (h m hm))

theorem resolve_append (node : ℕ → Node) (d : ℕ) (names names' : List (List UInt8)) :
    resolve node d (names ++ names') = (resolve node d names).bind fun c => resolve node c names' := by
  induction names generalizing d with
  | nil => rfl
  | cons name names ih =>
    rw [cons_append, resolve_cons, resolve_cons]
    cases child node d name with
    | none => rfl
    | some c => exact ih c

theorem child_eq_some (h : child node d name = some i) :
    IsDir node d ∧ ∃ e ∈ entries (node d).data, e.Named name ∧ e.inum = i := by
  unfold child at h
  split at h
  next hd =>
    refine ⟨hd, ?_⟩
    rw [lookup_inum] at h
    obtain ⟨e, he, rfl⟩ := Option.map_eq_some_iff.1 h
    exact ⟨e, mem_of_find?_eq_some he, by simpa using List.find?_some he, rfl⟩
  · cases h

namespace Tree

variable (ht : Tree node)

include ht

theorem child (hd : IsDir node d) (he : e ∈ entries (node d).data) (h0 : e.inum ≠ 0) :
    child node d (nameOf e.name) = some e.inum := by
  cases hc : Fs.child node d (nameOf e.name) with
  | none =>
    rcases child_eq_none_iff.1 hc with h | h
    · exact absurd hd h
    · exact absurd ⟨h0, nameOf_nameOf _⟩ (h e he)
  | some i =>
    obtain ⟨-, e', he', ⟨h0', hname⟩, rfl⟩ := child_eq_some hc
    rw [nameOf_nameOf] at hname
    rw [ht.distinct d hd e he e' he' h0 h0' hname.symm]

theorem resolve (h : Leads node names i) : resolve node ROOTINO names = some i := by
  induction h with
  | root => rfl
  | entry h hd he hp ih =>
    rw [resolve_append, ih, Option.bind_some, resolve_cons, ht.child hd he hp.1]
    rfl

/-- The names as `name_of_inode` has them lead to the directory only if none of them has
been cut. -/
theorem resolve_cut (h : Leads node names i) (hi : IsDir node i) :
    Fs.resolve node ROOTINO (names.map cut) = some i ↔ ∀ m ∈ names, m.length < DIRSIZ := by
  constructor
  · intro hr
    induction h with
    | root => simp
    | @entry names d e h hd he hp ih =>
      rw [map_append, resolve_append, Option.bind_eq_some_iff] at hr
      obtain ⟨d', hd', hlast⟩ := hr
      rw [map_singleton, resolve_cons, Option.bind_eq_some_iff] at hlast
      obtain ⟨c, hc, hlast⟩ := hlast
      cases hlast
      obtain ⟨hdir, e', he', hnamed, hinum⟩ := child_eq_some hc
      have hcut : nameOf e'.name = cut (nameOf e.name) :=
        hnamed.2.symm.trans (nameOf_cut e.name)
      have hproper : e'.Proper := by
        refine ⟨hnamed.1, fun hdot => hp.2 ?_⟩
        unfold Dirent.Dotted at hdot ⊢
        rw [hcut] at hdot
        exact hdot.imp (cut_eq (by decide)) (cut_eq (by decide))
      have hup := (ht.up d' hdir e' he' hproper (hinum ▸ hi)).2
      rw [hinum, (ht.up d hd e he hp hi).2] at hup
      obtain rfl : d = d' := Option.some.inj hup
      have honce := ht.once d hd e he e' he' hp hi hinum
      intro m hm
      rcases mem_append.1 hm with hm | hm
      · exact ih hd hd' m hm
      · rw [mem_singleton.1 hm, ← honce, hcut]
        exact length_cut_lt _
  · intro hlen
    rw [map_cut hlen]
    exact ht.resolve h

end Tree

end Qwin.Fs
