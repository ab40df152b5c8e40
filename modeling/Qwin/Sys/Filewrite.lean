import Qwin.Fs.Rest
import Qwin.Sys.Existing

/-!
# Writing to a file

`filewrite` writes at most 1536 bytes in one transaction. Each transaction commits for
itself and moves the offset, and `writei` refuses a piece that does not fit into a file. So
when a later piece is refused the earlier ones stay, although the call fails.
-/

namespace Qwin.Sys

open Prog Fs List

variable {p i f ip off : ℕ} {a : Attrs} {d : List UInt8} {s t u : IState}

/-- The same open files and the same inodes in the cache, but `f` is at `off`. -/
structure Moved (f off : ℕ) (s t : IState) : Prop where
  file : t.core.file f = { s.core.file f with off := off }
  pt : t.core.pt = s.core.pt
  inum : ∀ q, t.inum q = s.inum q

theorem Moved.refl (f : ℕ) (s : IState) : Moved f (s.core.file f).off s s :=
  ⟨rfl, rfl, fun _ => rfl⟩

theorem Moved.trans {m n : ℕ} (h : Moved f m s t) (h' : Moved f n t u) : Moved f n s u := by
  refine ⟨?_, h'.pt.trans h.pt, fun q => (h'.inum q).trans (h.inum q)⟩
  rw [h'.file, h.file]

theorem Moved.off_eq (h : Moved f off s t) : (t.core.file f).off = off := by rw [h.file]

/-- The steps that only wait for an inode or for the log, or read. -/
def waits {β : Type} : CoreAct β → Bool
  | .lockInode _ => true
  | .iunlock _ => true
  | .getInode _ => true
  | .getFile _ => true
  | .beginTrans => true
  | .commitTrans => true
  | _ => false

theorem waits_exec {β : Type} {a : CoreAct β} {r : β} {c c' : Core} (ha : waits a = true)
    (hx : c.exec p a = .ok (r, c')) : assigns a = false ∧ recycles a = false ∧
      c'.file = c.file ∧ c'.pt = c.pt := by
  cases a <;> cases ha <;> dsimp only [Core.exec] at hx <;> (repeat' split at hx) <;>
    cases hx <;> exact ⟨rfl, rfl, rfl, rfl⟩

/-- There is room in a file of `size` bytes for `n` bytes at `off`. -/
def Fits (size off n : ℕ) : Prop := off ≤ size ∧ off + n ≤ MAXFILE * BSIZE

theorem refused_iff {size off n : ℕ} (hoff : off < 2 ^ 32) (hn : n < 2 ^ 32) :
    refused size off n ↔ ¬ Fits size off n := by
  unfold refused Fits MAXFILE BSIZE
  omega

/-! ## One piece -/

/-- Inode `i` has the bytes `d`, and `f` has moved to `off`. -/
def Midway (i f : ℕ) (a : Attrs) (s : IState) (d : List UInt8) (off : ℕ) (t : IState) : Prop :=
  Stored i a d t ∧ Moved f off s t

namespace Midway

theorem exec {β : Type} {x : CoreAct β} {r : β} {c : Core} (h : Midway i f a s d off t)
    (hx : waits x = true) (hm : x.Meant t.core) (hr : t.core.exec p x = .ok (r, c)) :
    Midway i f a s d off { t with core := c } := by
  obtain ⟨h1, h2, h3, h4⟩ := waits_exec hx hr
  refine ⟨h.1.core (unassigned_exec hm h1 hr), ?_, h4.trans h.2.pt, fun q => ?_⟩
  · dsimp only
    rw [h3]
    exact h.2.file
  · exact (inum_exec h2 hr q).trans (h.2.inum q)

theorem step {β : Type} {x : CoreAct β} (hx : waits x = true) (h : Midway i f a s d off t) :
    Returns p (fun _ u => Midway i f a s d off u) (core x) t :=
  returns_core fun _ _ hm hr => h.exec hx hm hr

variable (h : Midway i f a s d off t)
include h

theorem ilock :
    Returns p (fun _ u => Midway i f a s d off u ∧ 0 < (u.core.inode ip).ref ∧
      (u.core.inode ip).valid = true) (ilock ip) t := by
  refine wp_seq (returns_core fun r c hm hx => ?_)
  have hc := h.exec (x := .lockInode ip) rfl hm hx
  have href : 0 < (c.inode ip).ref := by
    dsimp only [Core.exec] at hx
    split at hx
    · cases hx
    · split at hx <;> cases hx
      rw [Core.setInode_inode_self]
      dsimp only
      omega
  refine wp_seq (returns_core fun x c' _ hx => ?_)
  cases hx
  split
  next hv => exact wp_pure ⟨hc, href, hv⟩
  · refine wp_seq (returns_disk fun _ u hx => ?_)
    have hu : Midway i f a s d off u ∧ 0 < (u.core.inode ip).ref ∧
        (u.core.inode ip).valid = true := by
      dsimp only [execDisk] at hx
      split at hx <;> cases hx
      refine ⟨⟨hc.1.setInode fun hi _ _ => ?_, hc.2.file, hc.2.pt, fun q => ?_⟩, ?_, ?_⟩
      · rw [← hc.1.attrs, ← hi]
        rfl
      · exact (inum_setInode (by rfl) q).trans (hc.2.inum q)
      · rw [IState.setInode, Core.setInode_inode_self]
        exact href
      · rw [IState.setInode, Core.setInode_inode_self]
    refine wp_seq (returns_core fun x c' _ hx => ?_)
    cases hx
    split
    · exact returns_panic
    · exact wp_pure hu

theorem writei {src : List UInt8} {n : ℕ} (ha : a.type = T_FILE) (href : 0 < (t.core.inode ip).ref)
    (hv : (t.core.inode ip).valid = true) (hi : s.inum ip = i) :
    Returns p (fun (r : ℤ) u =>
      (r = -1 ∧ ¬ Fits d.length n src.length ∧ Midway i f a s d off u) ∨
      (r = src.length ∧ Fits d.length n src.length ∧ Midway i f a s (splice d n src) off u))
      (writei ip n src) t := by
  have hip : t.inum ip = i := (h.2.inum ip).trans hi
  have htype : (t.core.inode ip).type = T_FILE := by
    have := congrArg Attrs.type (h.1.cached ip href hv hip)
    exact this.trans ha
  refine wp_seq (returns_core fun x c _ hx => ?_)
  cases hx
  rw [if_neg (by rw [htype]; decide)]
  refine wp_seq (returns_disk fun r u hx => ?_)
  dsimp only [execDisk] at hx
  split at hx
  · next hc =>
    have hdata : (t.node (t.inum ip)).data = d := by
      rw [hip]
      exact h.1.data
    rw [hdata] at hx
    split at hx
    next hbad =>
      cases hx
      exact wp_pure (Or.inl ⟨rfl, (refused_iff hc.2.2.1 hc.2.2.2).1 hbad, h⟩)
    next hgood =>
      cases hx
      have hfits := not_not.1 fun hn => hgood ((refused_iff hc.2.2.1 hc.2.2.2).2 hn)
      refine wp_pure (Or.inr ⟨rfl, hfits, ?_, h.2.file, h.2.pt, h.2.inum⟩)
      rw [hip]
      exact h.1.write _
  · cases hx

theorem advance {n : ℕ} (hn : off + n < 2 ^ 32) :
    Returns p (fun _ u => Midway i f a s d (off + n) u) (advance f n) t := by
  unfold Sys.advance
  split
  · refine returns_core fun r c hm hx => ?_
    refine ⟨h.1.core (unassigned_exec hm rfl hx), ?_⟩
    cases hx
    refine ⟨?_, h.2.pt, h.2.inum⟩
    rw [Core.setFile_file_self, h.2.off_eq, Int.toNat_natCast, Nat.mod_eq_of_lt hn, h.2.file]
  next h0 =>
    obtain rfl : n = 0 := by omega
    exact wp_pure h

end Midway

/-- One pass of the loop of `filewrite`: the bytes were refused, or written. -/
theorem returns_pass {src : List UInt8} {Q : Bool → IState → Prop} {c : IProg Bool}
    (hs : Stored i a d s) (ha : a.type = T_FILE) (hi : s.inum ip = i)
    (hbad : ∀ t, ¬ Fits d.length (s.core.file f).off src.length →
      Midway i f a s d (s.core.file f).off t → Q false t)
    (hgood : ∀ t, Fits d.length (s.core.file f).off src.length →
      Midway i f a s (splice d (s.core.file f).off src) ((s.core.file f).off + src.length) t →
      Returns p Q c t) :
    Returns p Q (do
      core .beginTrans
      ilock ip
      let y ← core (.getFile f)
      let r ← writei ip y.off src
      advance f r
      iunlock ip
      core .commitTrans
      if r < 0 then pure false
      else if r ≠ src.length then panic .shortFilewrite
      else c) s := by
  have h : Midway i f a s d (s.core.file f).off s := ⟨hs, Moved.refl f s⟩
  refine wp_seq (wp_conseq (h.step (x := .beginTrans) rfl) fun _ t ht => ?_)
  refine wp_seq (wp_conseq ht.ilock fun _ t ⟨ht, href, hv⟩ => ?_)
  refine wp_seq (returns_core fun y c hm hx => ?_)
  cases hx
  rw [ht.2.off_eq]
  refine wp_seq (wp_conseq (ht.writei ha href hv hi) fun r t ht => ?_)
  rcases ht with ⟨rfl, hnot, ht⟩ | ⟨rfl, hfits, ht⟩
  · refine wp_seq (wp_pure ?_)
    refine wp_seq (wp_conseq (ht.step (x := .iunlock ip) rfl) fun _ t ht => ?_)
    refine wp_seq (wp_conseq (ht.step (x := .commitTrans) rfl) fun _ t ht => ?_)
    exact wp_pure (hbad t hnot ht)
  · have hlt : (s.core.file f).off + src.length < 2 ^ 32 := lt_of_le_of_lt hfits.2 (by decide)
    refine wp_seq (wp_conseq (ht.advance hlt) fun _ t ht => ?_)
    refine wp_seq (wp_conseq (ht.step (x := .iunlock ip) rfl) fun _ t ht => ?_)
    refine wp_seq (wp_conseq (ht.step (x := .commitTrans) rfl) fun _ t ht => ?_)
    rw [if_neg (by omega), if_neg (not_not.2 rfl)]
    exact hgood t hfits ht

/-! ## All pieces -/

/-- How far a call to write `src` came: `k` bytes are written. Those are all of them when
there is room for all, and none when there is no room for the first piece. -/
structure WroteUpTo (i f : ℕ) (a : Attrs) (s : IState) (d src : List UInt8) (k : ℕ)
    (t : IState) : Prop where
  le : k ≤ src.length
  midway : Midway i f a s (splice d (s.core.file f).off (src.take k))
    ((s.core.file f).off + k) t
  fits : 0 < k → Fits d.length (s.core.file f).off k
  all : k = src.length ↔ src = [] ∨ Fits d.length (s.core.file f).off src.length
  none : k = 0 ↔ src = [] ∨ ¬ Fits d.length (s.core.file f).off (min src.length 1536)

theorem wroteUpTo_nil (hs : Stored i a d s) : WroteUpTo i f a s d [] 0 s := by
  refine ⟨le_rfl, ?_, fun h => absurd h (lt_irrefl 0), by simp, by simp⟩
  rw [take_nil, splice_nil]
  exact ⟨hs, Moved.refl f s⟩

theorem take_min_append (src : List UInt8) (m k : ℕ) :
    src.take (min src.length m + k) = src.take m ++ (src.drop m).take k := by
  rcases le_total src.length m with h | h
  · rw [take_of_length_le (by omega), take_of_length_le h, drop_of_length_le h,
      take_nil, append_nil]
  · rw [min_eq_right h, take_add]

theorem returns_filewriteLoop (fuel : ℕ) (src : List UInt8) (hlen : src.length ≤ fuel)
    (hs : Stored i a d s) (ha : a.type = T_FILE) (hi : s.inum ip = i) :
    Returns p (fun all t => ∃ k, WroteUpTo i f a s d src k t ∧ (all = true ↔ k = src.length))
      (filewriteLoop f ip fuel src) s := by
  induction fuel generalizing src s d with
  | zero =>
    obtain rfl := length_eq_zero_iff.1 (Nat.le_zero.1 hlen)
    exact wp_pure ⟨0, wroteUpTo_nil hs, by simp⟩
  | succ fuel ih =>
    rw [filewriteLoop]
    split
    next h0 =>
      rw [h0]
      exact wp_pure ⟨0, wroteUpTo_nil hs, by simp⟩
    next h0 =>
      have hpos := length_pos_iff.2 h0
      have hmin : (src.take 1536).length = min src.length 1536 := by
        rw [length_take, min_comm]
      rw [← hmin]
      refine returns_pass hs ha hi ?_ ?_
      · intro t hnot ht
        rw [hmin] at hnot
        refine ⟨0, ⟨Nat.zero_le _, ?_, fun h => absurd h (lt_irrefl 0), ?_, ?_⟩, ?_⟩
        · rw [take_zero, splice_nil]
          exact ht
        · unfold Fits at hnot ⊢
          simp only [h0, false_or]
          omega
        · simp only [h0, false_or, true_iff]
          exact hnot
        · simp only [Bool.false_eq_true, false_iff]
          omega
      · intro t hfits ht
        have htm : (t.core.file f).off = (s.core.file f).off + (src.take 1536).length := ht.2.off_eq
        refine wp_conseq (ih (src.drop 1536) ?_ ht.1 ((ht.2.inum ip).trans hi)) ?_
        · rw [length_drop]
          omega
        · rintro all u ⟨k, hk, hall⟩
          have hkle := hk.le
          have hkall := hk.all
          have hkfits := hk.fits
          have hmidway := hk.midway
          have hoff : (s.core.file f).off ≤ d.length := hfits.1
          rw [htm] at hkall hkfits hmidway
          rw [length_splice hoff] at hkall hkfits
          rw [length_drop] at hkall hall hkle
          rw [splice_splice hoff, hmin] at hmidway
          rw [hmin] at hfits hkall hkfits
          have hnil : src.drop 1536 = [] ↔ src.length ≤ 1536 := drop_eq_nil_iff
          refine ⟨min src.length 1536 + k, ⟨by omega, ?_, ?_, ?_, ?_⟩, ?_⟩
          · rw [take_min_append, ← Nat.add_assoc]
            exact ⟨hmidway.1, ht.2.trans hmidway.2⟩
          · intro _
            refine ⟨hoff, ?_⟩
            rcases Nat.eq_zero_or_pos k with rfl | hkpos
            · exact hfits.2
            · have := (hkfits hkpos).2
              omega
          · rw [hnil] at hkall
            unfold Fits at hkall hfits ⊢
            simp only [h0, false_or]
            omega
          · simp only [h0, false_or]
            exact ⟨fun hz => absurd hz (by omega), fun hn => absurd hfits hn⟩
          · rw [hall]
            omega

/-! ## The call -/

/-- The file has the bytes in it, at the place the descriptor had, and the descriptor is
behind them; or the call has failed and nothing has changed. -/
def AllOrNothing (i f : ℕ) (src : List UInt8) (s : IState) (r : ℤ) (t : IState) : Prop :=
  (r = src.length ∧ (t.node i).data = splice (s.node i).data (s.core.file f).off src ∧
      (t.core.file f).off = (s.core.file f).off + src.length) ∨
    r = -1 ∧ (t.node i).data = (s.node i).data ∧ (t.core.file f).off = (s.core.file f).off

theorem returns_filewrite {src : List UInt8} (htype : (s.core.file f).type = .inode)
    (hi : s.inum (s.core.file f).ip = i) (hs : Stored i a d s) (ha : a.type = T_FILE) :
    Returns p (fun (r : ℤ) t => (s.core.file f).writable = false ∧ r = -1 ∧ t = s ∨
      (s.core.file f).writable = true ∧ ∃ k, WroteUpTo i f a s d src k t ∧
        r = if k = src.length then (src.length : ℤ) else -1) (filewrite f src) s := by
  refine wp_seq (returns_core fun x c _ hx => ?_)
  cases hx
  split
  next hw => exact wp_pure (Or.inl ⟨hw, rfl, rfl⟩)
  next hw =>
    rw [htype]
    refine wp_seq (wp_conseq (returns_filewriteLoop _ src le_rfl hs ha hi) ?_)
    rintro all t ⟨k, hk, hall⟩
    refine wp_pure (Or.inr ⟨Bool.of_not_eq_false hw, k, hk, ?_⟩)
    simp only [hall]

section Acts

variable {E : End IState → Prop} {b : ℕ → ℤ} {own : List ℕ} {src : List UInt8}

theorem acts_writei_file {Q : ℤ → IState → Prop} (h : Holding b own (some ip) s)
    (hload : s.Loaded ip) (ht : (s.node (s.inum ip)).attrs.type = T_FILE) (hoff : off < 2 ^ 32)
    (hn : src.length < 2 ^ 32)
    (hQ : ∀ (r : ℤ) t, r = -1 ∨ r = src.length → Holding b own (some ip) t → Stays 1 s t →
      (∀ j, (t.node j).attrs = (s.node j).attrs) → Q r t) :
    Acts p E Q (Sys.writei ip off src) s := by
  have hclean := (h.inPlace ip (h.locked ip rfl)).clean hload.2.1
  refine wp_seq (acts_getInode ?_)
  have htype : (s.core.inode ip).type = T_FILE := (congrArg Attrs.type hclean).trans ht
  rw [if_neg (by rw [htype]; decide)]
  refine wp_seq (acts_writei hload hclean hoff hn ?_ ?_)
  · exact fun _ => wp_pure (hQ _ _ (Or.inl rfl) h (Stays.refl 1 s) fun _ => rfl)
  · intro _
    refine wp_pure (hQ _ _ (Or.inr rfl) (h.setNode rfl) (stays_setNode s _ _) fun j => ?_)
    change (Function.update s.node _ _ j).attrs = _
    by_cases hj : j = s.inum ip
    · rw [hj, Function.update_self]
    · rw [Function.update_of_ne hj]

/-- No transaction is open and no inode is locked, and `f` is at some place in the regular
file of entry `ip`. -/
structure Ready (f ip : ℕ) (b : ℕ → ℤ) (own : List ℕ) (s : IState) : Prop where
  holding : Holding b own none s
  owner : s.core.owner = none
  pos : 0 < (s.core.inode ip).ref
  type : (s.node (s.inum ip)).attrs.type = T_FILE
  off : (s.core.file f).off < 2 ^ 32

theorem acts_advance {Q : Unit → IState → Prop} {L : Option ℕ} {r : ℤ}
    (h : Holding b own L s) (hoff : (s.core.file f).off < 2 ^ 32)
    (hQ : ∀ t, Holding b own L t → t.core.inode = s.core.inode → t.node = s.node →
      (t.core.file f).off < 2 ^ 32 → Q () t) : Acts p E Q (advance f r) s := by
  unfold advance
  split
  · refine acts_core trivial rfl (hQ _ (h.setCore rfl) rfl rfl ?_)
    rw [Core.setFile_file_self]
    exact Nat.mod_lt _ (by decide)
  · exact wp_pure (hQ s h rfl rfl hoff)

theorem acts_filewriteLoop (fuel : ℕ) (src : List UInt8) (h : Ready f ip b own s) :
    Acts p E (fun _ _ => True) (filewriteLoop f ip fuel src) s := by
  induction fuel generalizing src s with
  | zero => exact wp_pure trivial
  | succ fuel ih =>
    rw [filewriteLoop]
    split
    · exact wp_pure trivial
    have hlen : (src.take 1536).length = min src.length 1536 := by
      rw [length_take, min_comm]
    refine wp_seq (acts_beginTrans h.holding h.owner fun t ht hk hn => ?_)
    obtain ⟨hpos, hip, -⟩ := hk.entry ip h.pos one_pos
    have htype : (t.node (t.inum ip)).attrs.type = T_FILE := by rw [hip, hn, h.type]
    refine wp_seq (acts_ilock ht hpos (by rw [htype]; decide) fun u hu hk' hload => ?_)
    have hoff : (u.core.file f).off < 2 ^ 32 := by
      rw [hk'.file, hk.file]
      exact h.off
    have htype' : (u.node (u.inum ip)).attrs.type = T_FILE := by
      rw [hk'.inum hpos, hk'.node, htype]
    refine wp_seq (acts_core trivial rfl ?_)
    refine wp_seq (acts_writei_file hu hload htype' hoff (by omega) fun r v hr hv hs ha => ?_)
    have hoff' : (v.core.file f).off < 2 ^ 32 := hs.file ▸ hoff
    refine wp_seq (acts_advance hv hoff' fun w hw hi hnode hoff'' => ?_)
    have hposw := hw.locked ip rfl
    have htypew : (w.node (w.inum ip)).attrs.type = T_FILE := by
      have hinum : w.inum ip = u.inum ip := by
        unfold IState.inum
        rw [hi]
        exact (hs.entry ip (hu.locked ip rfl) one_pos).2.1
      rw [hinum, hnode, ha, htype']
    refine wp_seq (acts_iunlock hw fun x hx hkx => ?_)
    refine wp_seq (acts_commitTrans hx fun y hy hky hny hoy => ?_)
    have hposx := hkx.pos hposw
    have hready : Ready f ip b own y := by
      refine ⟨hy, hoy, (hky.entry ip hposx one_pos).1, ?_, ?_⟩
      · rw [(hky.entry ip hposx one_pos).2.1, hny, hkx.inum hposw, hkx.node, htypew]
      · rw [hky.file, hkx.file]
        exact hoff''
    rcases hr with rfl | rfl
    · exact wp_pure trivial
    · rw [hlen, if_neg (by omega), if_neg (by simp)]
      exact ih _ hready

theorem exists_run_filewrite (htype : (s.core.file f).type = .inode)
    (h : Ready f (s.core.file f).ip b own s) (src : List UInt8) :
    ∃ r t, (filewrite f src).run (inodeSem p) s = .ok (r, t) := by
  have hacts : Acts p (fun _ => False) (fun _ _ => True) (filewrite f src) s := by
    refine wp_seq (acts_core trivial rfl ?_)
    split
    · exact wp_pure trivial
    · rw [htype]
      exact wp_seq (wp_conseq (acts_filewriteLoop _ src h) fun _ _ _ => wp_pure trivial)
  obtain ⟨r, t, hrun, -⟩ := wp_run_exists hacts
  exact ⟨r, t, hrun⟩

end Acts

/-- The kernel after boot with a file of bytes `d` open as number 0 and at `off`. -/
def fileAt (d : List UInt8) (off : ℕ) : IState where
  core := { bootCore (fun _ => 0) with
    inode := fun q => if q = 0 then { zeroInode with dev := ROOTDEV, inum := 2, ref := 1 }
      else zeroInode
    file := fun f => if f = 0 then ⟨.inode, 1, true, true, 0, 0, off⟩
      else ⟨.none, 0, false, false, 0, 0, 0⟩ }
  node i := if i = 2 then ⟨⟨T_FILE, 0, 0, 1⟩, d⟩ else ⟨⟨0, 0, 0, 0⟩, []⟩
  ninodes := 3

theorem entry_fileAt {q : ℕ} (h : 0 < ((fileAt d off).core.inode q).ref) : q = 0 := by
  dsimp only [fileAt] at h
  split at h
  · assumption
  · exact absurd h (by decide)

theorem ready_fileAt (h : off < 2 ^ 32) : Ready 0 0 (fileAt d off).refs [] (fileAt d off) := by
  refine ⟨.self ⟨?_, ?_, ?_, fun _ h => nomatch h⟩, rfl, zero_lt_one, rfl, h⟩
  · intro q
    dsimp only [fileAt]
    split
    · exact zero_le_one
    · exact le_rfl
  · intro q hq
    obtain rfl := entry_fileAt hq
    exact ⟨by decide, rfl, (by decide : 2 < 3), (nomatch ·), (nomatch ·), (nomatch ·)⟩
  · intro q r hq hr _
    rw [entry_fileAt hq, entry_fileAt hr]

theorem stored_fileAt : Stored 2 ⟨T_FILE, 0, 0, 1⟩ d (fileAt d off) := by
  refine ⟨rfl, rfl, ?_⟩
  intro q _ hv
  dsimp only [fileAt] at hv
  split at hv <;> cases hv

theorem exists_run_fileAt (d src : List UInt8) (h : off < 2 ^ 32) :
    ∃ r t, (filewrite 0 src).run (inodeSem 0) (fileAt d off) = .ok (r, t) :=
  exists_run_filewrite (s := fileAt d off) rfl (ready_fileAt h) src

theorem filewrite_fileAt {src : List UInt8} {r : ℤ}
    (hrun : (filewrite 0 src).run (inodeSem 0) (fileAt d off) = .ok (r, t))
    (hpiece : Fits d.length off (min src.length 1536)) (hall : ¬ Fits d.length off src.length) :
    r = -1 ∧ ∃ k, 0 < k ∧ k < src.length ∧ (t.node 2).data = splice d off (src.take k) ∧
      (t.core.file 0).off = off + k := by
  rcases wp_run_ok (returns_filewrite (i := 2) rfl rfl stored_fileAt rfl) hrun with
    ⟨hw, -⟩ | ⟨-, k, hk, rfl⟩
  · cases hw
  have hne : src ≠ [] := by
    rintro rfl
    exact hall hpiece
  have hk0 : k ≠ 0 := fun h => (hk.none.1 h).elim hne fun hn => hn hpiece
  have hkn : k ≠ src.length := fun h => (hk.all.1 h).elim hne hall
  have hle := hk.le
  exact ⟨if_neg hkn, k, by omega, by omega, hk.midway.1.data, hk.midway.2.off_eq⟩

end Qwin.Sys
