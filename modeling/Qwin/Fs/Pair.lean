import Qwin.Fs.Rest

/-!
# Two locked inodes

`sys_unlink` locks the inode that it has found while the directory is locked. `Pair dp ip` is
what is known then: without the lock of `ip`, the process holds the lock of `dp` only. Each of
the two can be unlocked first.
-/

namespace Qwin.Fs

open Prog

variable {p : ℕ} {E : End IState → Prop} {s t : IState} {b : ℕ → ℤ} {own : List ℕ}
  {i ip dp q r : ℕ}

namespace IState

theorem setInode_setInode (s : IState) (q : ℕ) (x y : Inode) :
    (s.setInode q x).setInode q y = s.setInode q y := by
  simp only [setInode, Core.setInode_setInode]

theorem setInode_comm (s : IState) (h : q ≠ r) (x y : Inode) :
    (s.setInode q x).setInode r y = (s.setInode r y).setInode q x := by
  simp only [setInode, Core.setInode, Function.update_comm h]

theorem setInode_eq_self (s : IState) (q : ℕ) : s.setInode q (s.core.inode q) = s := by
  simp only [setInode, Core.setInode, Function.update_eq_self]

end IState

def IState.unlocked (s : IState) (q : ℕ) : IState :=
  s.setInode q { s.core.inode q with busy := false }

theorem unlocked_self (s : IState) (q : ℕ) :
    (s.unlocked q).core.inode q = { s.core.inode q with busy := false } :=
  Core.setInode_inode_self _ _ _

theorem unlocked_of_ne (s : IState) (h : r ≠ q) : (s.unlocked q).core.inode r = s.core.inode r :=
  Core.setInode_inode_of_ne h _

theorem kept_unlocked (s : IState) (q : ℕ) : Kept 1 s (s.unlocked q) :=
  kept_setInode fun h _ => ⟨h, rfl, fun h => h⟩

structure Pair (b : ℕ → ℤ) (own : List ℕ) (dp ip : ℕ) (s : IState) : Prop where
  first : Holding b own (some dp) (s.unlocked ip)
  busy : (s.core.inode ip).busy = true
  ne : dp ≠ ip

variable {Q : Unit → IState → Prop}

theorem acts_ilock_second (h : Holding b own (some dp) s)
    (hne : dp ≠ ip) (hpos : 0 < (s.core.inode ip).ref) (ht : (s.node (s.inum ip)).attrs.type ≠ 0)
    (hQ : ∀ t, Pair b own dp ip t → Kept 1 s t → t.Loaded ip → Q () t) :
    Acts p E Q (ilock ip) s := by
  have hp := h.inPlace ip hpos
  have hL : some dp ≠ some ip := fun he => hne (Option.some.inj he)
  refine acts_ilock_entry hpos hp hL ht fun x h1 h2 h3 h4 h5 h6 hload => ?_
  have hself : (s.setInode ip x).core.inode ip = x := Core.setInode_inode_self _ _ _
  refine hQ _ ⟨?_, by rw [hself, h4], hne⟩ (kept_setInode fun _ _ => ⟨by omega, h3, fun _ => h5⟩)
    hload
  have hover : (s.setInode ip x).unlocked ip = s.setInode ip { x with busy := false } := by
    rw [IState.unlocked, hself]
    simp [IState.setInode, Core.setInode]
  rw [hover]
  refine ⟨h.toTidy.modify hpos ?_ h3 ?_ (fun _ _ => Iff.rfl) (fun h => absurd h hL), h.rest, ?_⟩
  · exact h1 ▸ hpos.le
  · intro _
    refine ⟨hp.lt, h2, ?_, fun _ => ?_, (absurd · Bool.false_ne_true), fun h => absurd h hL⟩
    · change x.inum < _
      rw [h3]
      exact hp.known
    · change x.attrs = (s.node x.inum).attrs
      rw [h3]
      exact h6
  · intro j
    rw [refs_setInode _ _ hp.lt, h.refs]
    change _ + (if x.inum = j then x.ref else 0) = _
    rw [h1, h3]
    ring

theorem Holding.lock (h : Holding b own none s) (hpos : 0 < (s.core.inode ip).ref) :
    Holding b own (some ip) (s.setInode ip { s.core.inode ip with busy := true }) := by
  have hp := h.inPlace ip hpos
  refine ⟨h.toTidy.modify hpos hpos.le rfl ?_ ?_ fun _ => hpos, h.rest, ?_⟩
  · exact fun _ => ⟨hp.lt, hp.dev, hp.known, hp.clean, fun _ => rfl, fun _ => rfl⟩
  · intro r hr
    exact ⟨(nomatch ·), fun h => absurd (Option.some.inj h).symm hr⟩
  · intro j
    rw [refs_setInode _ _ hp.lt, h.refs]
    exact sub_add_cancel _ _

namespace Pair

theorem swap (h : Pair b own dp ip s) (hpos : 0 < (s.core.inode ip).ref) : Pair b own ip dp s := by
  have hdp := h.first.locked dp rfl
  have hbusy := ((h.first.inPlace dp hdp).busy).2 rfl
  rw [unlocked_of_ne s h.ne] at hbusy
  have hip : ((s.unlocked ip).unlocked dp).core.inode ip =
      { s.core.inode ip with busy := false } := by
    rw [unlocked_of_ne _ h.ne.symm, unlocked_self]
  have hpos' : 0 < (((s.unlocked ip).unlocked dp).core.inode ip).ref := by
    rw [hip]
    exact hpos
  have hlock := h.first.unlock.lock hpos'
  refine ⟨?_, hbusy, h.ne.symm⟩
  have hsame : { ((s.unlocked ip).unlocked dp).core.inode ip with busy := true } =
      s.core.inode ip := by
    rw [hip, ← h.busy]
  have heq : ((s.unlocked ip).unlocked dp).setInode ip
      { ((s.unlocked ip).unlocked dp).core.inode ip with busy := true } = s.unlocked dp := by
    rw [hsame, IState.unlocked, unlocked_of_ne s h.ne, IState.unlocked,
      IState.setInode_comm _ h.ne, IState.setInode_setInode, IState.setInode_eq_self]
    rfl
  rw [← heq]
  exact hlock

theorem setNode (h : Pair b own dp ip s) {x : Node} (hx : x.attrs = (s.node i).attrs) :
    Pair b own dp ip (s.setNode i x) :=
  ⟨h.first.setNode hx, h.busy, h.ne⟩

/-- The node of the first entry changes together with the entry. -/
theorem setBoth (h : Pair b own dp ip s) {x : Inode} {y : Node}
    (href : x.ref = (s.core.inode dp).ref) (hdev : x.dev = (s.core.inode dp).dev)
    (hinum : x.inum = s.inum dp) (hbusy : x.busy = (s.core.inode dp).busy)
    (hclean : x.attrs = y.attrs) : Pair b own dp ip ((s.setInode dp x).setNode (s.inum dp) y) := by
  have hdp := h.first.locked dp rfl
  have hsame := unlocked_of_ne s h.ne
  have hip : (s.setInode dp x).core.inode ip = s.core.inode ip :=
    Core.setInode_inode_of_ne h.ne.symm x
  refine ⟨?_, ?_, h.ne⟩
  · have hheld := h.first.setBoth hdp (x := x) (y := y) (by rw [hsame, href]) (by rw [hsame, hdev])
      (by rw [IState.inum, hsame]; exact hinum) (by rw [hsame, hbusy]) hclean
    have heq : ((s.setInode dp x).setNode (s.inum dp) y).unlocked ip =
        ((s.unlocked ip).setInode dp x).setNode ((s.unlocked ip).inum dp) y := by
      have hinum' : (s.unlocked ip).inum dp = s.inum dp := by rw [IState.inum, hsame]; rfl
      rw [hinum']
      change ((s.setInode dp x).unlocked ip).setNode _ y = _
      rw [IState.unlocked, hip, IState.setInode_comm _ h.ne]
      rfl
    rw [heq]
    exact hheld
  · exact (congrArg Inode.busy hip).trans h.busy

theorem loaded_iff (s : IState) (q r : ℕ) : (s.unlocked q).Loaded r ↔ s.Loaded r := by
  by_cases hr : r = q
  · subst hr
    unfold IState.Loaded IState.Cached IState.inum
    rw [unlocked_self]
    rfl
  · unfold IState.Loaded IState.Cached IState.inum
    rw [unlocked_of_ne s hr]
    rfl

theorem attrs_first (h : Pair b own dp ip s) (hl : s.Loaded dp) :
    (s.core.inode dp).attrs = (s.node (s.inum dp)).attrs := by
  have hattrs := h.first.attrs ((loaded_iff s ip dp).2 hl)
  rw [IState.inum, unlocked_of_ne s h.ne] at hattrs
  exact hattrs

theorem attrs_second (h : Pair b own dp ip s) (hl : s.Loaded ip) :
    (s.core.inode ip).attrs = (s.node (s.inum ip)).attrs := by
  have hattrs := h.first.attrs ((loaded_iff s ip ip).2 hl)
  rw [IState.inum, unlocked_self] at hattrs
  exact hattrs

end Pair

variable (h : Pair b own dp ip s) (hpos : 0 < (s.core.inode ip).ref)
include h hpos

theorem acts_iunlock_second
    (hQ : ∀ t, Holding b own (some dp) t → Kept 1 s t → Q () t) : Acts p E Q (iunlock ip) s := by
  refine acts_core (r := ()) (c := (s.unlocked ip).core) trivial ?_
    (hQ _ h.first (kept_unlocked s ip))
  dsimp only [Core.exec]
  rw [if_neg (by rw [h.busy]; simp; omega)]
  rfl

theorem acts_iunlock_first
    (hQ : ∀ t, Holding b own (some ip) t → Kept 1 s t → Q () t) : Acts p E Q (iunlock dp) s := by
  have hdp := h.first.locked dp rfl
  rw [unlocked_of_ne s h.ne] at hdp
  exact acts_iunlock_second (h.swap hpos) hdp hQ

end Qwin.Fs
