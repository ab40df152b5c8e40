import Qwin.Fs.Cache
import Qwin.Sys.Call

/-!
# A file that has a name

`Holds i d s` says that inode `i` is a file with a link and with the bytes `d`, and that
the entries of the cache that were read from it are up to date. Walking along a path,
making another file and closing a file leave it so: an inode is freed only without
links, is allocated only when unused, and a directory entry is written only to a
directory.
-/

namespace Qwin.Sys

open Prog Fs

variable {α β γ : Type} {p i : ℕ} {d : List UInt8} {s s' : IState}

/-! ## Runs that return -/

/-- What holds when a run of an inode-level program by process `p` returns. -/
abbrev Returns (p : ℕ) (Q : α → IState → Prop) (c : IProg α) (s : IState) : Prop :=
  wp (inodeSem p) (fun _ _ _ => True) (fun _ => True) Q c s

section Rules

variable {Q : α → IState → Prop}

theorem returns_core {Q : β → IState → Prop} {a : CoreAct β}
    (h : ∀ r c, a.Meant s.core → s.core.exec p a = .ok (r, c) → Q r { s with core := c }) :
    Returns p Q (core a) s := by
  rw [Returns, core, wp_perform]
  refine ⟨trivial, ?_⟩
  dsimp only [inodeSem]
  by_cases hm : a.Meant s.core
  · rw [if_pos hm]
    cases hx : s.core.exec p a with
    | ok x => exact h x.1 x.2 hm hx
    | error e => trivial
  · rw [if_neg hm]
    trivial

theorem returns_disk {Q : β → IState → Prop} {a : DiskAct β}
    (h : ∀ r t, execDisk a s = .ok (r, t) → Q r t) : Returns p Q (disk a) s := by
  rw [Returns, disk, wp_perform]
  refine ⟨trivial, ?_⟩
  dsimp only [inodeSem]
  cases hx : execDisk a s with
  | ok x => exact h x.1 x.2 hx
  | error e => trivial

theorem returns_panic {q : Panic} : Returns p Q (panic q) s := wp_abort trivial rfl trivial

theorem returns_fault : Returns p Q (abort (.left .fault)) s := wp_abort trivial rfl trivial

theorem returns_size {Q : ℕ → IState → Prop} {ip : ℕ} (h : ∀ n, Q n s) :
    Returns p Q (disk (.size ip)) s := by
  refine returns_disk fun r t hx => ?_
  dsimp only [execDisk] at hx
  split at hx <;> cases hx
  exact h _

theorem returns_readi {Q : Option (List UInt8) → IState → Prop} {ip off n : ℕ}
    (h : ∀ l, Q l s) : Returns p Q (disk (.readi ip off n)) s := by
  refine returns_disk fun r t hx => ?_
  dsimp only [execDisk] at hx
  split at hx
  · split at hx <;> cases hx <;> exact h _
  · cases hx

theorem returns_readDirent {Q : Dirent → IState → Prop} {dp off : ℕ} {q : Panic}
    (h : ∀ e, Q e s) : Returns p Q (readDirent dp off q) s := by
  refine wp_seq (returns_readi fun l => ?_)
  cases l with
  | none => exact returns_panic
  | some l =>
    dsimp only
    split
    · exact wp_pure (h _)
    · exact returns_panic

theorem returns_lookupLoop {Q : Option (ℕ × ℕ) → IState → Prop} {dp size : ℕ}
    {name : List UInt8} (h : ∀ r, Q r s) (fuel off : ℕ) :
    Returns p Q (lookupLoop dp name size fuel off) s := by
  induction fuel generalizing off with
  | zero => exact wp_pure (h _)
  | succ fuel ih =>
    rw [lookupLoop]
    split
    · refine wp_seq (returns_readDirent fun e => ?_)
      split
      · exact ih _
      · split
        · exact wp_pure (h _)
        · exact ih _
    · exact wp_pure (h _)

theorem returns_emptyLoop {Q : ℕ → IState → Prop} {dp size : ℕ} (h : ∀ n, Q n s)
    (fuel off : ℕ) : Returns p Q (emptyLoop dp size fuel off) s := by
  induction fuel generalizing off with
  | zero => exact wp_pure (h _)
  | succ fuel ih =>
    rw [emptyLoop]
    split
    · refine wp_seq (returns_readDirent fun e => ?_)
      split
      · exact wp_pure (h _)
      · exact ih _
    · exact wp_pure (h _)

end Rules

/-! ## The inode cache -/

/-- The entries in use that are valid in `c'` were so before, with the same contents. -/
def Unassigned (c c' : Core) : Prop :=
  ∀ q, 0 < (c'.inode q).ref → (c'.inode q).valid = true →
    0 < (c.inode q).ref ∧ (c.inode q).valid = true ∧
      (c'.inode q).inum = (c.inode q).inum ∧ (c'.inode q).attrs = (c.inode q).attrs

section Unassigned

variable {c c' : Core} {ip : ℕ}

theorem unassigned_of_inode_eq (h : c'.inode = c.inode) : Unassigned c c' := by
  intro q hq hv
  rw [h] at hq hv ⊢
  exact ⟨hq, hv, rfl, rfl⟩

theorem unassigned_setInode {x : Inode} (h : 0 < x.ref → x.valid = true →
      0 < (c.inode ip).ref ∧ (c.inode ip).valid = true ∧ x.inum = (c.inode ip).inum ∧
        x.attrs = (c.inode ip).attrs) : Unassigned c (c.setInode ip x) := by
  intro q hq hv
  by_cases hqi : q = ip
  · subst hqi
    rw [Core.setInode_inode_self] at hq hv ⊢
    exact h hq hv
  · rw [Core.setInode_inode_of_ne hqi] at hq hv ⊢
    exact ⟨hq, hv, rfl, rfl⟩

def assigns : CoreAct β → Bool
  | .assign _ _ => true
  | _ => false

theorem unassigned_exec {a : CoreAct β} {r : β} (hm : a.Meant c) (ha : assigns a = false)
    (h : c.exec p a = .ok (r, c')) : Unassigned c c' := by
  cases touches_exec hm h with
  | same h => exact unassigned_of_inode_eq h
  | take => exact unassigned_setInode fun _ hv => nomatch hv
  | assign => cases ha
  | renew href _ hinum hattrs hvalid =>
    exact unassigned_setInode fun hr hv => ⟨href hr, hvalid hv, hinum, hattrs⟩

/-- The step gives an entry of the cache to an inode. -/
def recycles : CoreAct β → Bool
  | .iget _ _ => true
  | _ => false

theorem inum_setInode {x : Inode} (hx : x.inum = (c.inode ip).inum) (q : ℕ) :
    ((c.setInode ip x).inode q).inum = (c.inode q).inum := by
  by_cases hq : q = ip
  · rw [hq, Core.setInode_inode_self, hx]
  · rw [Core.setInode_inode_of_ne hq]

theorem inum_exec {a : CoreAct β} {r : β} (ha : recycles a = false)
    (h : c.exec p a = .ok (r, c')) (q : ℕ) : (c'.inode q).inum = (c.inode q).inum := by
  cases a with
  | iget dev inum => cases ha
  | assign ip a =>
    cases h
    exact inum_setInode (assign_slot (c.inode ip) a).2.2.1 q
  | _ =>
    dsimp only [Core.exec] at h
    (repeat' split at h) <;> cases h <;> first | rfl | exact inum_setInode (by rfl) q

theorem inum_iget {dev inum : ℕ} (h : c.exec p (.iget dev inum) = .ok (ip, c')) :
    (c'.inode ip).inum = inum := by
  dsimp only [Core.exec] at h
  cases hs : c.cachedSlot dev inum with
  | some q =>
    rw [hs] at h
    cases h
    rw [Core.setInode_inode_self]
    exact (cachedSlot_eq_some hs).2.2.2
  | none =>
    rw [hs] at h
    cases he : c.emptySlot with
    | some q =>
      rw [he] at h
      cases h
      rw [Core.setInode_inode_self]
    | none =>
      rw [he] at h
      cases h

end Unassigned

/-! ## The file -/

/-- Inode `i` has the attributes `a` and the bytes `d`, and the cache agrees. -/
structure Stored (i : ℕ) (a : Attrs) (d : List UInt8) (s : IState) : Prop where
  attrs : (s.node i).attrs = a
  data : (s.node i).data = d
  cached : ∀ q, 0 < (s.core.inode q).ref → (s.core.inode q).valid = true → s.inum q = i →
    (s.core.inode q).attrs = a

namespace Stored

variable {a : Attrs} {j ip : ℕ}

variable (h : Stored i a d s)
include h

theorem core {c : Core} (hc : Unassigned s.core c) : Stored i a d { s with core := c } := by
  refine ⟨h.attrs, h.data, ?_⟩
  intro q hq hv hi
  obtain ⟨h1, h2, h3, h4⟩ := hc q hq hv
  exact h4.trans (h.cached q h1 h2 (h3.symm.trans hi))

theorem setNode (hj : j ≠ i) (x : Node) : Stored i a d (s.setNode j x) := by
  have hi : (s.setNode j x).node i = s.node i := Function.update_of_ne hj.symm _ _
  refine ⟨?_, ?_, h.cached⟩
  · rw [hi]
    exact h.attrs
  · rw [hi]
    exact h.data

theorem setInode {x : Inode} (hx : x.inum = i → 0 < x.ref →
    x.valid = true → x.attrs = a) : Stored i a d (s.setInode ip x) := by
  refine ⟨h.attrs, h.data, ?_⟩
  intro q
  by_cases hq : q = ip
  · intro h1 h2 h3
    simp only [IState.setInode, IState.inum, hq, Core.setInode_inode_self] at h1 h2 h3 ⊢
    exact hx h3 h1 h2
  · simp only [IState.setInode, IState.inum, Core.setInode_inode_of_ne hq]
    exact h.cached q

theorem write (d' : List UInt8) : Stored i a d' (s.setNode i { s.node i with data := d' }) := by
  have hi : (s.setNode i { s.node i with data := d' }).node i = { s.node i with data := d' } :=
    Function.update_self _ _ _
  refine ⟨?_, ?_, h.cached⟩
  · rw [hi]
    exact h.attrs
  · rw [hi]

end Stored

/-- Inode `i` is a file with a link and the bytes `d`, and the cache agrees. -/
structure Holds (i : ℕ) (d : List UInt8) (s : IState) : Prop where
  type : (s.node i).attrs.type = T_FILE
  nlink : (s.node i).attrs.nlink ≠ 0
  data : (s.node i).data = d
  cached : ∀ q, 0 < (s.core.inode q).ref → (s.core.inode q).valid = true → s.inum q = i →
    (s.core.inode q).attrs = (s.node i).attrs

namespace Holds

variable {j ip : ℕ}

variable (h : Holds i d s)
include h

theorem stored : Stored i (s.node i).attrs d s := ⟨rfl, h.data, h.cached⟩

theorem of_stored {d' : List UInt8} (ht : Stored i (s.node i).attrs d' s') : Holds i d' s' := by
  refine ⟨?_, ?_, ht.data, ?_⟩
  · rw [ht.attrs]
    exact h.type
  · rw [ht.attrs]
    exact h.nlink
  · rw [ht.attrs]
    exact ht.cached

theorem core {c : Core} (hc : Unassigned s.core c) : Holds i d { s with core := c } :=
  h.of_stored (h.stored.core hc)

theorem setNode (hj : j ≠ i) (x : Node) : Holds i d (s.setNode j x) :=
  h.of_stored (h.stored.setNode hj x)

theorem setInode {x : Inode} (hx : x.inum = i → 0 < x.ref →
    x.valid = true → x.attrs = (s.node i).attrs) : Holds i d (s.setInode ip x) :=
  h.of_stored (h.stored.setInode hx)

end Holds

/-! ## Programs that leave the file alone -/

/-- Every run of the program that returns leaves the file as it is. -/
def Leaves (p i : ℕ) (d : List UInt8) (c : IProg α) : Prop :=
  ∀ s, Holds i d s → Returns p (fun _ t => Holds i d t) c s

namespace Leaves

variable {ip dp : ℕ}

theorem pure {a : α} : Leaves p i d (pure a : IProg α) := fun _ hs => wp_pure hs

theorem bind {c : IProg γ} {f : γ → IProg α} (hc : Leaves p i d c)
    (hf : ∀ a, Leaves p i d (f a)) : Leaves p i d (c >>= f) :=
  fun s hs => wp_seq (wp_conseq (hc s hs) fun a t ht => hf a t ht)

theorem ite {C : Prop} {_ : Decidable C} {c e : IProg α} (hc : Leaves p i d c)
    (he : Leaves p i d e) : Leaves p i d (if C then c else e) := by
  split
  · exact hc
  · exact he

theorem core {a : CoreAct β} (ha : assigns a = false) : Leaves p i d (core a) :=
  fun _ hs => returns_core fun _ _ hm hx => hs.core (unassigned_exec hm ha hx)

theorem panic {q : Panic} : Leaves p i d (panic q : IProg α) := fun _ _ => returns_panic

theorem fault : Leaves p i d (abort (.left .fault) : IProg α) := fun _ _ => returns_fault

theorem load : Leaves p i d (disk (.load ip)) := by
  refine fun s hs => returns_disk fun r t hx => ?_
  dsimp only [execDisk] at hx
  split at hx
  · cases hx
    refine hs.setInode fun hi _ _ => ?_
    rw [← hi]
    rfl
  · cases hx

theorem ilock : Leaves p i d (ilock ip) :=
  bind (core rfl) fun _ => bind (core rfl) fun _ => ite pure <|
    bind load fun _ => bind (core rfl) fun _ => ite panic pure

end Leaves

/-- The entry `ip` is one of another inode. -/
def Apart (i : ℕ) (d : List UInt8) (ip : ℕ) (s : IState) : Prop := Holds i d s ∧ s.inum ip ≠ i

namespace Apart

variable {ip : ℕ}

theorem core {a : CoreAct β} (ha : assigns a = false) (hr : recycles a = false)
    (h : Apart i d ip s) : Returns p (fun _ t => Apart i d ip t) (core a) s :=
  returns_core fun _ _ hm hx => ⟨h.1.core (unassigned_exec hm ha hx), by
    rw [IState.inum, inum_exec hr hx]
    exact h.2⟩

variable (h : Apart i d ip s)
include h

theorem setInode {x : Inode} (hx : x.inum = s.inum ip) : Apart i d ip (s.setInode ip x) := by
  refine ⟨h.1.setInode fun hi => absurd (hx.symm.trans hi) h.2, ?_⟩
  rw [IState.inum, IState.setInode, Core.setInode_inode_self, hx]
  exact h.2

theorem assign {a : Assign} : Returns p (fun _ t => Apart i d ip t) (Fs.core (.assign ip a)) s := by
  refine returns_core fun _ _ _ hx => ?_
  cases hx
  exact h.setInode (assign_slot (s.core.inode ip) a).2.2.1

theorem load : Returns p (fun _ t => Apart i d ip t) (disk (.load ip)) s := by
  refine returns_disk fun r t hx => ?_
  dsimp only [execDisk] at hx
  split at hx <;> cases hx
  exact h.setInode rfl

theorem iupdate : Returns p (fun _ t => Apart i d ip t) (disk (.iupdate ip)) s := by
  refine returns_disk fun r t hx => ?_
  dsimp only [execDisk] at hx
  split at hx <;> cases hx
  exact ⟨h.1.setNode h.2 _, h.2⟩

theorem ilock : Returns p (fun _ t => Apart i d ip t) (ilock ip) s := by
  refine wp_seq (wp_conseq (core (a := .lockInode ip) rfl rfl h) fun _ t ht => ?_)
  refine wp_seq (wp_conseq (core (a := .getInode ip) rfl rfl ht) fun x t ht => ?_)
  split
  · exact wp_pure ht
  · refine wp_seq (wp_conseq (load ht) fun _ t ht => ?_)
    refine wp_seq (wp_conseq (core (a := .getInode ip) rfl rfl ht) fun x t ht => ?_)
    split
    · exact returns_panic
    · exact wp_pure ht

end Apart

theorem returns_ialloc {type : Short} (hs : Holds i d s) :
    Returns p (fun j t => Holds i d t ∧ j ≠ i) (disk (.ialloc type)) s := by
  refine returns_disk fun j t hx => ?_
  dsimp only [execDisk] at hx
  cases hf : s.freeNode with
  | none =>
    rw [hf] at hx
    cases hx
  | some k =>
    rw [hf] at hx
    dsimp only at hx
    split at hx <;> cases hx
    have hzero : (s.node j).attrs.type = 0 := by simpa using List.find?_some hf
    have hne : j ≠ i := by
      rintro rfl
      exact absurd (hzero.symm.trans hs.type) (by decide)
    exact ⟨hs.setNode hne _, hne⟩

namespace Leaves

variable {ip dp : ℕ}

theorem iput : Leaves p i d (iput ip) := by
  intro s hs
  refine wp_seq (returns_core fun r c hm hx => ?_)
  have hs' := hs.core (unassigned_exec hm rfl hx)
  cases r with
  | false => exact wp_pure hs'
  | true =>
    have hne : s.inum ip ≠ i := by
      intro hi
      dsimp only [Core.exec] at hx
      split at hx
      next hc =>
        have href : 0 < (s.core.inode ip).ref := by omega
        refine hs.nlink ?_
        rw [← hs.cached ip href hc.2.1 hi]
        exact hc.2.2
      · cases hx
    have hinum : (c.inode ip).inum = s.inum ip := by
      dsimp only [Core.exec] at hx
      split at hx
      · split at hx
        · cases hx
        · cases hx
          rw [Core.setInode_inode_self]
          rfl
      · cases hx
    refine wp_seq (returns_disk fun r t hx => ?_)
    dsimp only [execDisk] at hx
    split at hx
    · cases hx
      refine core rfl _ ?_
      have hne' : (c.inode ip).inum ≠ i := by
        rw [hinum]
        exact hne
      exact (hs'.setNode hne' _).setInode fun hi => absurd hi hne'
    · cases hx

theorem iunlockput : Leaves p i d (iunlockput ip) := bind (core rfl) fun _ => iput

/-- An entry with this name, or the type of the directory that has none. -/
theorem returns_dirlookup {name : List UInt8} (hs : Holds i d s) :
    Returns p (fun r t => Holds i d t ∧ (r = none → (t.core.inode dp).type = T_DIR))
      (dirlookup dp name) s := by
  refine wp_seq (returns_core fun x c _ hx => ?_)
  cases hx
  split
  · exact returns_panic
  next ht =>
    refine wp_seq (returns_size fun n => wp_seq (returns_lookupLoop (fun r => ?_) _ _))
    cases r with
    | none => exact wp_pure ⟨hs, fun _ => not_not.1 ht⟩
    | some r =>
      refine wp_seq (wp_conseq (core (a := .iget _ _) rfl _ hs) fun q t ht => ?_)
      exact wp_pure ⟨ht, fun h => nomatch h⟩

theorem dirlookup {name : List UInt8} : Leaves p i d (dirlookup dp name) :=
  fun _ hs => wp_conseq (returns_dirlookup hs) fun _ _ h => h.1

theorem dirlink {name : List UInt8} {inum : ℕ} : Leaves p i d (dirlink dp name inum) := by
  intro s hs
  refine wp_seq (wp_conseq (returns_dirlookup hs) fun r t ⟨ht, hdir⟩ => ?_)
  cases r with
  | some r => exact bind iput (fun _ => pure) t ht
  | none =>
    refine wp_seq (returns_size fun n => wp_seq (returns_emptyLoop (fun k => ?_) _ _))
    refine wp_seq (returns_disk fun w u hx => ?_)
    have hu : Holds i d u := by
      dsimp only [execDisk] at hx
      split at hx
      next hc =>
        have hne : t.inum dp ≠ i := by
          intro hi
          have htype := congrArg Attrs.type hc.2.1
          rw [hi, ht.type] at htype
          exact absurd ((hdir rfl).symm.trans htype) (by decide)
        split at hx <;> cases hx
        · exact ht
        · exact ht.setNode hne _
      · cases hx
    exact ite pure panic u hu

theorem startOf {path : List UInt8} : Leaves p i d (startOf path) := by
  refine ite (core rfl) (bind (core rfl) fun x => ?_)
  cases x.cwd with
  | some ip => exact bind (core rfl) fun _ => pure
  | none => exact fault

theorem namexLoop {parent : Bool} (path : List (List UInt8)) (ip : ℕ) :
    Leaves p i d (namexLoop parent path ip) := by
  induction path generalizing ip with
  | nil => exact ite (bind iput fun _ => pure) pure
  | cons name path ih =>
    refine bind ilock fun _ => bind (core rfl) fun x => ite (bind iunlockput fun _ => pure) <|
      ite (bind (core rfl) fun _ => pure) (bind dirlookup fun next => ?_)
    cases next with
    | none => exact bind iunlockput fun _ => pure
    | some next => exact bind iunlockput fun _ => ih _

theorem namex {path : List UInt8} {parent : Bool} : Leaves p i d (namex path parent) :=
  bind startOf fun _ => namexLoop _ _

theorem namei {path : List UInt8} : Leaves p i d (namei path) := bind namex fun _ => pure

theorem nameiparent {path : List UInt8} : Leaves p i d (nameiparent path) := namex

theorem createNew {name : List UInt8} {major minor : Short} :
    Leaves p i d (createNew dp name T_FILE major minor) := by
  intro s hs
  refine wp_seq (returns_core fun x c _ hx => ?_)
  cases hx
  refine wp_seq (wp_seq (wp_conseq (returns_ialloc hs) fun j t ⟨ht, hj⟩ => ?_))
  refine returns_core fun ip c hm hx => ?_
  have hip : Apart i d ip { t with core := c } :=
    ⟨ht.core (unassigned_exec hm rfl hx), fun h => hj ((inum_iget hx).symm.trans h)⟩
  refine wp_seq (wp_conseq (Apart.ilock hip) fun _ t ht => ?_)
  refine wp_seq (wp_conseq (Apart.assign ht) fun _ t ht => ?_)
  refine wp_seq (wp_conseq (Apart.assign ht) fun _ t ht => ?_)
  refine wp_seq (wp_conseq (Apart.assign ht) fun _ t ht => ?_)
  refine wp_seq (wp_conseq (Apart.core (a := .getProc) rfl rfl ht) fun x t ht => ?_)
  refine wp_seq (wp_conseq (Apart.assign ht) fun _ t ht => ?_)
  refine wp_seq (wp_conseq (Apart.iupdate ht) fun _ t ht => ?_)
  rw [if_neg (by decide)]
  exact bind pure (fun _ => bind (core rfl) fun _ => bind dirlink fun _ =>
    ite (bind iunlockput fun _ => pure) panic) t ht.1

theorem create {path : List UInt8} {major minor : Short} :
    Leaves p i d (create path T_FILE major minor) := by
  refine bind nameiparent fun r => ?_
  cases r with
  | none => exact pure
  | some r =>
    refine bind ilock fun _ => bind dirlookup fun r => ?_
    cases r with
    | none => exact createNew
    | some r =>
      exact bind iunlockput fun _ => bind ilock fun _ => bind (core rfl) fun _ =>
        ite pure (bind iunlockput fun _ => pure)

theorem openMode {path : List UInt8} {omode : BitVec 32} : Leaves p i d (openMode path omode) := by
  refine bind namei fun r => ?_
  cases r with
  | none => exact pure
  | some ip =>
    exact bind ilock fun _ => bind (core rfl) fun _ => bind iunlockput fun _ => ite pure pure

theorem openInode {path : List UInt8} {omode : BitVec 32} :
    Leaves p i d (openInode path omode) := by
  refine ite (bind (core rfl) fun _ => bind create fun _ => bind (core rfl) fun _ => pure)
    (bind namei fun r => ?_)
  cases r with
  | none => exact pure
  | some ip =>
    exact bind ilock fun _ => bind (core rfl) fun _ => ite (bind iunlockput fun _ => pure) pure

theorem pipeclose {n : ℕ} {writable : Bool} : Leaves p i d (pipeclose n writable) :=
  bind (core rfl) fun _ => ite (core rfl) pure

theorem fileclose {f : ℕ} : Leaves p i d (fileclose f) := by
  refine bind (core rfl) fun last => ?_
  cases last with
  | none => exact pure
  | some ff =>
    dsimp only
    cases ff.type with
    | none => exact pure
    | pipe => exact pipeclose
    | inode => exact bind (core rfl) fun _ => bind iput fun _ => core rfl

theorem argfd {fd : ℤ} : Leaves p i d (argfd fd) := bind (core rfl) fun _ => ite pure pure

theorem sysClose {fd : ℤ} : Leaves p i d (sysClose fd) := by
  refine bind argfd fun f => ?_
  cases f with
  | none => exact pure
  | some f => exact bind (core rfl) fun _ => bind fileclose fun _ => pure

end Leaves

end Qwin.Sys
