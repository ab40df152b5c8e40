import Qwin.Fs.Node

/-!
# The inode cache

At most one entry of the cache stands for an inode, and the steps on the kernel tables
keep it so. An entry becomes valid only by `load`; every other step leaves an entry that
was read from the disk with the inode it was read for, or takes its last reference away.
-/

namespace Qwin.Fs

/-- Entries in use are in the table, are of the one disk, and are of different inodes. -/
structure CacheInOrder (c : Core) : Prop where
  lt : ∀ q, 0 < (c.inode q).ref → q < NINODE
  dev : ∀ q, 0 < (c.inode q).ref → (c.inode q).dev = ROOTDEV
  unique : ∀ q r, 0 < (c.inode q).ref → 0 < (c.inode r).ref →
    (c.inode q).inum = (c.inode r).inum → q = r

/-- What holds from `c` to `c'` when no entry was read from the disk in between: the
entries that are valid and in use in `c'` were so before, with the same inode. -/
structure Retains (c c' : Core) : Prop where
  cache : CacheInOrder c'
  loaded : ∀ q, 0 < (c'.inode q).ref → (c'.inode q).valid = true →
    0 < (c.inode q).ref ∧ (c.inode q).valid = true ∧ (c'.inode q).inum = (c.inode q).inum

variable {c c' : Core} {ip : ℕ}

theorem CacheInOrder.of_keeps (hc : CacheInOrder c)
    (hk : ∀ q, 0 < (c'.inode q).ref → 0 < (c.inode q).ref ∧
      (c'.inode q).dev = (c.inode q).dev ∧ (c'.inode q).inum = (c.inode q).inum) :
    CacheInOrder c' := by
  refine ⟨fun q hq => hc.lt q (hk q hq).1, fun q hq => ?_, fun q r hq hr he => ?_⟩
  · rw [(hk q hq).2.1]
    exact hc.dev q (hk q hq).1
  · rw [(hk q hq).2.2, (hk r hr).2.2] at he
    exact hc.unique q r (hk q hq).1 (hk r hr).1 he

theorem retains_of_inode_eq (hc : CacheInOrder c) (h : c'.inode = c.inode) : Retains c c' := by
  refine ⟨hc.of_keeps fun q hq => ?_, fun q hq hv => ?_⟩
  · rw [h] at hq ⊢
    exact ⟨hq, rfl, rfl⟩
  · rw [h] at hq hv ⊢
    exact ⟨hq, hv, rfl⟩

theorem Retains.refl (hc : CacheInOrder c) : Retains c c := retains_of_inode_eq hc rfl

section SetInode

variable (hc : CacheInOrder c) {x : Inode} (hx : 0 < x.ref → 0 < (c.inode ip).ref ∧
  x.dev = (c.inode ip).dev ∧ x.inum = (c.inode ip).inum)

include hx

/-- One entry changed, but if it is in use it was so before, for the same inode. -/
theorem setInode_keeps (q : ℕ) (hq : 0 < ((c.setInode ip x).inode q).ref) :
    0 < (c.inode q).ref ∧ ((c.setInode ip x).inode q).dev = (c.inode q).dev ∧
      ((c.setInode ip x).inode q).inum = (c.inode q).inum := by
  by_cases hqi : q = ip
  · subst hqi
    rw [Core.setInode_inode_self] at hq ⊢
    exact hx hq
  · rw [Core.setInode_inode_of_ne hqi] at hq ⊢
    exact ⟨hq, rfl, rfl⟩

include hc

theorem CacheInOrder.setInode : CacheInOrder (c.setInode ip x) :=
  hc.of_keeps (setInode_keeps hx)

theorem retains_setInode (hv : 0 < x.ref → x.valid = true → (c.inode ip).valid = true) :
    Retains c (c.setInode ip x) := by
  refine ⟨hc.setInode hx, ?_⟩
  · intro q hq hvq
    obtain ⟨h1, -, h3⟩ := setInode_keeps hx q hq
    refine ⟨h1, ?_, h3⟩
    by_cases hqi : q = ip
    · subst hqi
      rw [Core.setInode_inode_self] at hq hvq
      exact hv hq hvq
    · rw [Core.setInode_inode_of_ne hqi] at hvq
      exact hvq

end SetInode

theorem cachedSlot_eq_some {dev inum : ℕ} (h : c.cachedSlot dev inum = some ip) :
    ip < NINODE ∧ 0 < (c.inode ip).ref ∧ (c.inode ip).dev = dev ∧ (c.inode ip).inum = inum := by
  unfold Core.cachedSlot at h
  have h1 := List.mem_range.1 (List.mem_of_find?_eq_some h)
  have h2 := List.find?_some h
  exact ⟨h1, of_decide_eq_true h2⟩

theorem cachedSlot_eq_none {dev inum : ℕ} (h : c.cachedSlot dev inum = none) {q : ℕ}
    (hq : q < NINODE) (hr : 0 < (c.inode q).ref) (hd : (c.inode q).dev = dev) :
    (c.inode q).inum ≠ inum := by
  intro hi
  have := List.find?_eq_none.1 h q (List.mem_range.2 hq)
  exact this (decide_eq_true ⟨hr, hd, hi⟩)

theorem emptySlot_eq_some (h : c.emptySlot = some ip) : ip < NINODE ∧ (c.inode ip).ref = 0 := by
  unfold Core.emptySlot at h
  have h1 := List.mem_range.1 (List.mem_of_find?_eq_some h)
  have h2 := List.find?_some h
  exact ⟨h1, of_decide_eq_true h2⟩

/-- `iget` of an inode that is not cached takes a free entry for it. -/
theorem retains_recycle (hc : CacheInOrder c) {inum : ℕ}
    (hnone : c.cachedSlot ROOTDEV inum = none) (hempty : c.emptySlot = some ip) :
    Retains c (c.setInode ip { c.inode ip with
      dev := ROOTDEV, inum := inum, ref := 1, busy := false, valid := false }) := by
  obtain ⟨hlt, -⟩ := emptySlot_eq_some hempty
  have hfresh : ∀ q, 0 < (c.inode q).ref → (c.inode q).inum ≠ inum := fun q hq =>
    cachedSlot_eq_none hnone (hc.lt q hq) hq (hc.dev q hq)
  refine ⟨⟨?_, ?_, ?_⟩, ?_⟩
  · intro q hq
    by_cases hqi : q = ip
    · rw [hqi]
      exact hlt
    · rw [Core.setInode_inode_of_ne hqi] at hq
      exact hc.lt q hq
  · intro q hq
    by_cases hqi : q = ip
    · rw [hqi, Core.setInode_inode_self]
    · rw [Core.setInode_inode_of_ne hqi] at hq ⊢
      exact hc.dev q hq
  · intro q r hq hr he
    by_cases hqi : q = ip
    · by_cases hri : r = ip
      · rw [hqi, hri]
      · rw [Core.setInode_inode_of_ne hri] at hr he
        rw [hqi, Core.setInode_inode_self] at he
        exact absurd he.symm (hfresh r hr)
    · rw [Core.setInode_inode_of_ne hqi] at hq he
      by_cases hri : r = ip
      · rw [hri, Core.setInode_inode_self] at he
        exact absurd he (hfresh q hq)
      · rw [Core.setInode_inode_of_ne hri] at hr he
        exact hc.unique q r hq hr he
  · intro q hq hv
    by_cases hqi : q = ip
    · rw [hqi, Core.setInode_inode_self] at hv
      cases hv
    · rw [Core.setInode_inode_of_ne hqi] at hq hv ⊢
      exact ⟨hq, hv, rfl⟩

theorem assign_slot (x : Inode) (a : Assign) :
    (x.assign a).ref = x.ref ∧ (x.assign a).dev = x.dev ∧ (x.assign a).inum = x.inum ∧
      (x.assign a).valid = x.valid := by
  cases a <;> exact ⟨rfl, rfl, rfl, rfl⟩

/-- What a step that the inode level is meant for does to the cache. -/
inductive Touches (c : Core) : {β : Type} → CoreAct β → Core → Prop
  | same {β : Type} {a : CoreAct β} {c' : Core} (h : c'.inode = c.inode) : Touches c a c'
  | take {inum ip : ℕ} (hs : c.cachedSlot ROOTDEV inum = none) (he : c.emptySlot = some ip) :
      Touches c (.iget ROOTDEV inum) (c.setInode ip { c.inode ip with
        dev := ROOTDEV, inum := inum, ref := 1, busy := false, valid := false })
  | assign {ip : ℕ} {b : Assign} : Touches c (.assign ip b) (c.setInode ip ((c.inode ip).assign b))
  | renew {β : Type} {a : CoreAct β} {ip : ℕ} {x : Inode}
      (href : 0 < x.ref → 0 < (c.inode ip).ref) (hdev : x.dev = (c.inode ip).dev)
      (hinum : x.inum = (c.inode ip).inum) (hattrs : x.attrs = (c.inode ip).attrs)
      (hvalid : x.valid = true → (c.inode ip).valid = true) : Touches c a (c.setInode ip x)

variable {p : ℕ} {β : Type} {a : CoreAct β} {r : β}

theorem touches_exec (hm : a.Meant c) (h : c.exec p a = .ok (r, c')) : Touches c a c' := by
  have hless : ∀ ip, 0 < (c.inode ip).ref - 1 → 0 < (c.inode ip).ref := fun ip hr =>
    lt_of_lt_of_le hr (Int.sub_le_self _ zero_le_one)
  cases a with
  | iget dev inum =>
    obtain rfl : dev = ROOTDEV := hm
    dsimp only [Core.exec] at h
    split at h
    next hs =>
      cases h
      exact .renew (fun _ => (cachedSlot_eq_some hs).2.1) rfl rfl rfl id
    next hs =>
      split at h <;> cases h
      next he => exact .take hs he
  | idup ip =>
    cases h
    exact .renew (fun _ => hm) rfl rfl rfl id
  | setValid ip => exact hm.elim
  | iputBegin ip =>
    dsimp only [Core.exec] at h
    split at h
    · split at h <;> cases h
      exact .renew id rfl rfl rfl id
    · cases h
      exact .renew (hless ip) rfl rfl rfl id
  | iputEnd ip =>
    cases h
    exact .renew (hless ip) rfl rfl rfl nofun
  | assign ip b =>
    cases h
    exact .assign
  | _ =>
    dsimp only [Core.exec] at h
    (repeat' split at h) <;> cases h <;> first | exact .same rfl | exact .renew id rfl rfl rfl id

/-- Every step on the kernel tables that the inode level is meant for keeps the cache in
order and loads nothing. -/
theorem retains_exec (hc : CacheInOrder c) (hm : a.Meant c) (h : c.exec p a = .ok (r, c')) :
    Retains c c' := by
  cases touches_exec hm h with
  | same h => exact retains_of_inode_eq hc h
  | take hs he => exact retains_recycle hc hs he
  | @assign ip b =>
    obtain ⟨h1, h2, h3, h4⟩ := assign_slot (c.inode ip) b
    refine retains_setInode hc (fun hr => ⟨?_, h2, h3⟩) fun _ hv => ?_
    · rw [← h1]
      exact hr
    · rw [← h4]
      exact hv
  | renew href hdev hinum _ hvalid =>
    exact retains_setInode hc (fun hr => ⟨href hr, hdev, hinum⟩) fun _ => hvalid

end Qwin.Fs
