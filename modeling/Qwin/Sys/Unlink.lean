import Qwin.Fs.Pair
import Qwin.Sys.Link

/-!
# Removing a name

`sys_unlink` writes zeros over an entry and takes a link from the inode and, for a directory,
one from the directory above. The inode and the directory above are freed when that was the
last link and nobody else has a reference.
-/

namespace Qwin.Sys

open Prog Fs
open Function (update update_of_ne update_self)

variable {p : ℕ} {E : End IState → Prop} {s t : IState} {b : ℕ → ℤ} {own : List ℕ} {L : Option ℕ}
  {i ip dp d k off : ℕ} {name : List UInt8}

/-! ## The nodes -/

def withoutEntry (x : Node) (off : ℕ) : Node :=
  { x with data := splice x.data off (List.replicate DESIZE 0) }

/-- The node is freed if it has no links and no references. -/
def reap (b : ℕ → ℤ) (node : ℕ → Node) (i : ℕ) : ℕ → Node :=
  if (node i).attrs.nlink = 0 ∧ b i = 0 then update node i (freed (node i)) else node

def dropLink (node : ℕ → Node) (i : ℕ) : ℕ → Node := recount node i ((node i).attrs.nlink - 1)

/-- The nodes without the entry at `off` of directory `d`, which is for inode `i`. The directory
has one link less, too, if the inode is a directory. -/
def withoutName (node : ℕ → Node) (d off i : ℕ) : ℕ → Node :=
  if (node i).attrs.type = T_DIR then
    dropLink (update node d (withoutEntry (node d) off)) d
  else update node d (withoutEntry (node d) off)

def unlinked (b : ℕ → ℤ) (node : ℕ → Node) (d off i : ℕ) : ℕ → Node :=
  reap b (dropLink (reap b (withoutName node d off i) d) i) i

theorem reap_of_ne {node : ℕ → Node} {j : ℕ} (h : j ≠ i) : reap b node i j = node j := by
  unfold reap
  split
  · exact update_of_ne h _ _
  · rfl

/-- An entry of the directory after the first two is in use. -/
def Occupied (data : List UInt8) : Prop := firstFrom data (fun e => ¬ e.Free) 2 ≠ none

instance (data : List UInt8) : Decidable (Occupied data) := inferInstanceAs (Decidable (_ ≠ _))

def Full (x : Node) : Prop := x.attrs.type = T_DIR ∧ Occupied x.data

instance (x : Node) : Decidable (Full x) := inferInstanceAs (Decidable (_ ∧ _))

/-! ## The parts of `sys_unlink` -/

theorem acts_iput_reap {Q : Unit → IState → Prop} (h : Holding b (i :: own) L s)
    (hload : s.Loaded ip) (hinum : s.inum ip = i) (hL : L ≠ some ip) (hown : i ∉ own)
    (hQ : ∀ t, Holding b own L t → Stays (Fs.held b own) s t → t.core.owner = s.core.owner →
      t.node = reap b s.node i → Q () t) : Acts p E Q (iput ip) s := by
  have hcount : own.count i = 0 := List.count_eq_zero_of_not_mem hown
  by_cases hfree : (s.node i).attrs.nlink = 0 ∧ b i = 0
  · refine acts_iput_free h hload hinum hL hfree.1 (by rw [hcount, hfree.2]; rfl) ?_
    intro t ht hs ho hn
    exact hQ t ht hs ho (hn.trans (if_pos hfree).symm)
  · refine acts_iput h hload.1.1 hinum ?_ (fun he => absurd he hL) ?_
    · have := h.rest i
      rw [hcount]
      by_contra hno
      rw [not_or, not_not] at hno
      exact hfree ⟨hno.1, by omega⟩
    · intro t ht hk
      exact hQ t ht hk.toStays hk.owner (hk.node.trans (if_neg hfree).symm)

theorem acts_isdiremptyLoop {Q : Bool → IState → Prop} (hip : s.Loaded ip)
    (hdata : Whole (s.data ip)) (fuel k : ℕ) (hpos : 0 < fuel)
    (hfuel : (s.data ip).length / DESIZE < k + fuel)
    (h : Q (firstFrom (s.data ip) (fun e => ¬ e.Free) k).isNone s) :
    Acts p E Q (isdiremptyLoop ip (s.data ip).length fuel (DESIZE * k)) s := by
  refine acts_scan Option.isNone fuel k (fun fuel j hj _ hQ => ?_) (fun fuel j hj h => ?_) hpos
    hfuel h
  · rw [isdiremptyLoop, if_neg (hdata.mul_lt_iff.not.2 hj.not_gt)]
    exact wp_pure hQ
  · rw [isdiremptyLoop, if_pos (hdata.mul_lt_iff.2 hj)]
    exact wp_seq (acts_readDirent hip hdata hj h)

theorem acts_nonemptyDir {Q : Bool → IState → Prop} (hip : s.Loaded ip)
    (htype : (s.core.inode ip).type = (s.node (s.inum ip)).attrs.type)
    (hdata : (s.node (s.inum ip)).attrs.type = T_DIR → Whole (s.data ip))
    (h : Q (decide (Full (s.node (s.inum ip)))) s) : Acts p E Q (nonemptyDir ip) s := by
  refine wp_seq (acts_getInode ?_)
  rw [htype]
  split
  next hdir =>
    refine wp_seq (wp_seq (acts_size hip ?_))
    refine acts_isdiremptyLoop hip (hdata hdir) _ 2 (Nat.succ_pos _) (by omega) (wp_pure ?_)
    by_cases hocc : Occupied (s.data ip)
    · rw [Option.isNone_eq_false_iff.2 (Option.isSome_iff_ne_none.2 hocc)]
      rwa [decide_eq_true (show Full _ from ⟨hdir, hocc⟩)] at h
    · rw [Option.isNone_iff_eq_none.2 (not_not.1 hocc)]
      rwa [decide_eq_false (show ¬ Full _ from fun hc => hocc hc.2)] at h
  next hdir =>
    rw [decide_eq_false (show ¬ Full _ from fun hc => hdir hc.1)] at h
    exact wp_pure h

variable {Q : ℤ → IState → Prop}

theorem acts_unlinkBad (h : Holding b [d] (some dp) s)
    (hinum : s.inum dp = d) (hsafe : (s.node d).attrs.nlink ≠ 0 ∨ 0 < b d)
    (hQ : ∀ t, Holding b [] none t → Stays b s t → t.core.owner = none → t.node = s.node →
      Q (-1) t) : Acts p E Q (unlinkBad dp) s := by
  refine wp_seq (acts_iunlockput h hinum ?_ fun t ht hk => ?_)
  · exact hsafe.imp_right fun hb => by simpa using hb
  · refine wp_seq (acts_commitTrans ht fun u hu hs hn ho => wp_pure ?_)
    exact hQ u hu (hk.of_held.toStays.trans hs.all) ho (hn.trans hk.node)

section

variable (h : Pair b [i, d] dp ip s) (hdp : s.Loaded dp) (hip : s.Loaded ip) (hd : s.inum dp = d)
  (hi : s.inum ip = i) (hne : i ≠ d)
include h hdp hip hd hi hne

/-- The end of `sys_unlink`, from the release of the directory on. -/
theorem acts_unlinkTail
    (hQ : ∀ t, Holding b [] none t → Stays b s t → t.core.owner = none →
      t.node = reap b (dropLink (reap b s.node d) i) i → Q 0 t) :
    Acts p E Q (do
      iunlockput dp
      setNlink ip (· - 1)
      iunlockput ip
      core .commitTrans
      pure 0) s := by
  have hpair := h.ne
  refine wp_seq (wp_seq (acts_iunlock_first h hip.1.1 fun t1 ht1 hk1 => ?_))
  have hd1 : t1.inum dp = d := (hk1.inum hdp.1.1).trans hd
  have hi1 : t1.inum ip = i := (hk1.inum hip.1.1).trans hi
  refine acts_iput_reap (ht1.perm (List.Perm.swap d i [])) (hk1.loaded hdp) hd1
    (fun he => hpair (Option.some.inj he).symm) (by simpa using hne.symm) fun t2 ht2 hs2 ho2 hn2 => ?_
  rw [hk1.node] at hn2
  have hheld : 0 < Fs.held b [i] (t1.inum ip) := by
    rw [hi1]
    exact held_cons_self ht1.rest i []
  have hl1 := hk1.loaded hip
  have hi2 : t2.inum ip = i := (hs2.entry ip hl1.1.1 hheld).2.1.trans hi1
  have hl2 : t2.Loaded ip := hs2.loaded hl1 hheld (by
    rw [hi1, hn2, reap_of_ne hne, ← hi]
    exact hip.2.2)
  refine wp_seq (acts_setNlink ht2 hl2 fun t3 ht3 hs3 ho3 hn3 => ?_)
  rw [hi2, hn2] at hn3
  have hl3 : t3.Loaded ip := hs3.loaded hl2 zero_lt_one (by
    rw [hi2, hn3, ← hn2, update_self, ← hi2]
    exact hl2.2.2)
  have hi3 : t3.inum ip = i := (hs3.entry ip hl2.1.1 zero_lt_one).2.1.trans hi2
  refine wp_seq (wp_seq (acts_iunlock ht3 fun t4 ht4 hk4 => ?_))
  have hi4 : t4.inum ip = i := (hk4.inum hl3.1.1).trans hi3
  refine acts_iput_reap ht4 (hk4.loaded hl3) hi4 (nomatch ·) List.not_mem_nil fun t5 ht5 hs5 ho5 hn5 => ?_
  refine wp_seq (acts_commitTrans ht5 fun t6 ht6 hs6 hn6 ho6 => wp_pure ?_)
  refine hQ t6 ht6 ?_ ho6 ?_
  · exact hk1.all.toStays.trans ((hs2.mono fun j hj => by unfold Fs.held; omega).trans
      (hs3.all.trans (hk4.all.toStays.trans ((hs5.mono fun j hj => by unfold Fs.held; omega).trans
        hs6.all))))
  · rw [hn6, hn5, hk4.node, hn3]
    rfl

/-- The part of `sys_unlink` that removes the entry and the link. -/
theorem acts_unlinkEntry (hoff : off + DESIZE ≤ (s.node d).data.length)
    (hmax : (s.node d).data.length ≤ MAXFILE * BSIZE)
    (hQ : ∀ t, Holding b [] none t → Stays b s t → t.core.owner = none →
      t.node = unlinked b s.node d off i → Q 0 t) : Acts p E Q (unlinkEntry dp ip off) s := by
  have hdata : s.data dp = (s.node d).data := by rw [IState.data, hd]
  have hsmall : off + DESIZE ≤ 71680 := hoff.trans hmax
  have hlen : (List.replicate DESIZE (0 : UInt8)).length = DESIZE := List.length_replicate
  have hgood : ¬ refused (s.data dp).length off (List.replicate DESIZE (0 : UInt8)).length := by
    rw [hlen, hdata]
    unfold refused MAXFILE BSIZE DESIZE at *
    omega
  refine wp_seq (acts_writei hdp (h.attrs_first hdp) ?_ (by decide) (fun hbad => absurd hbad hgood)
    fun _ => ?_)
  · unfold DESIZE at hsmall
    omega
  rw [hd, hdata, hlen, if_neg (by simp)]
  let s1 := s.setNode d (withoutEntry (s.node d) off)
  have hstay1 : Stays 1 s s1 := stays_setNode s d _
  have hpair1 : Pair b [i, d] dp ip s1 := h.setNode rfl
  have hself1 : s1.node d = withoutEntry (s.node d) off := update_self _ _ _
  have hnode1 : s1.node i = s.node i := update_of_ne hne _ _
  have hdp1 : s1.Loaded dp := hstay1.loaded hdp zero_lt_one (by
    rw [hd, hself1, ← hd]
    exact hdp.2.2)
  have hip1 : s1.Loaded ip := hstay1.loaded hip zero_lt_one (by
    rw [hi, hnode1, ← hi]
    exact hip.2.2)
  refine wp_seq (acts_getInode ?_)
  have htype : (s1.core.inode ip).type = (s.node i).attrs.type := by
    rw [← hnode1, ← hi]
    exact congrArg Attrs.type (hpair1.attrs_second hip1)
  change Acts p E Q ((if (s1.core.inode ip).type = T_DIR then _ else _) >>= _) s1
  rw [htype]
  by_cases hdir : (s.node i).attrs.type = T_DIR
  · rw [if_pos hdir]
    refine wp_seq (acts_setNlink_entry hdp1 (hpair1.attrs_first hdp1) ?_)
    have hd1 : s1.inum dp = d := hd
    rw [hd1]
    have hpair2 := hpair1.setBoth (x := { s1.core.inode dp with
      nlink := (s1.core.inode dp).nlink - 1 }) rfl rfl rfl rfl
      (attrs_withNlink (hpair1.attrs_first hdp1) (· - 1))
    rw [hd1] at hpair2
    have hstay2 := stays_setBoth (s := s1) (q := dp) (i := d)
      (y := withNlink (s1.node d) ((s1.node d).attrs.nlink - 1))
      (x := { s1.core.inode dp with nlink := (s1.core.inode dp).nlink - 1 }) rfl rfl rfl
    refine acts_unlinkTail hpair2 ?_ ?_ ?_ ?_ hne fun t ht hs ho hn => ?_
    · refine hstay2.loaded hdp1 zero_lt_one ?_
      change (update s1.node d _ (s1.inum dp)).attrs.type ≠ 0
      rw [hd1, update_self, ← hd1]
      exact hdp1.2.2
    · refine hstay2.loaded hip1 zero_lt_one ?_
      change (update s1.node d _ (s1.inum ip)).attrs.type ≠ 0
      rw [update_of_ne (show s1.inum ip ≠ d from hi.trans_ne hne)]
      exact hip1.2.2
    · exact (hstay2.entry dp hdp1.1.1 zero_lt_one).2.1.trans hd
    · exact (hstay2.entry ip hip1.1.1 zero_lt_one).2.1.trans hi
    · refine hQ t ht (hstay1.all.trans (hstay2.all.trans hs)) ho (hn.trans ?_)
      rw [unlinked, withoutName, if_pos hdir]
      rfl
  · rw [if_neg hdir]
    refine wp_seq (wp_pure ?_)
    refine acts_unlinkTail hpair1 hdp1 hip1 hd hi hne fun t ht hs ho hn => ?_
    refine hQ t ht (hstay1.all.trans hs) ho (hn.trans ?_)
    rw [unlinked, withoutName, if_neg hdir]
    rfl

end

/-- The part of `sys_unlink` after the entry was found. -/
theorem acts_unlinkFound (h : Holding b [i, d] (some dp) s)
    (hdp : s.Loaded dp) (hpos : 0 < (s.core.inode ip).ref) (hd : s.inum dp = d) (hi : s.inum ip = i)
    (hne : i ≠ d) (hoff : off + DESIZE ≤ (s.node d).data.length)
    (hmax : (s.node d).data.length ≤ MAXFILE * BSIZE) (hud : Usable b s d)
    (ht : (s.node i).attrs.type ≠ 0) (hwhole : (s.node i).attrs.type = T_DIR → Whole (s.node i).data)
    (hpanic : (s.node i).attrs.nlink.toInt < 1 → E (.stop (.panic .unlinkNlink)))
    (hbad : Full (s.node i) ∨ (s.core.pt.proc p).uid ≠ 0 → ∀ t, Holding b [] none t → Stays b s t →
      t.core.owner = none → t.node = s.node → Q (-1) t)
    (hQ : ¬ Full (s.node i) → ¬ (s.node i).attrs.nlink.toInt < 1 → ∀ t, Holding b [] none t →
      Stays b s t → t.core.owner = none → t.node = unlinked b s.node d off i → Q 0 t) :
    Acts p E Q (unlinkFound dp ip off) s := by
  have hslot : dp ≠ ip := by
    rintro rfl
    exact hne (hi.symm.trans hd)
  refine wp_seq (acts_ilock_second h hslot hpos (by rw [hi]; exact ht) fun t hpair hk hip => ?_)
  have hti : t.inum ip = i := (hk.inum hpos).trans hi
  have htd : t.inum dp = d := (hk.inum hdp.1.1).trans hd
  have hattrs : (t.core.inode ip).attrs = (s.node i).attrs := by
    rw [hpair.attrs_second hip, hti, hk.node]
  have htype : (t.core.inode ip).type = (t.node (t.inum ip)).attrs.type :=
    congrArg Attrs.type (hpair.attrs_second hip)
  have hnlink : (t.core.inode ip).nlink = (s.node i).attrs.nlink := congrArg Attrs.nlink hattrs
  refine wp_seq (acts_getInode ?_)
  rw [hnlink]
  by_cases hlow : (s.node i).attrs.nlink.toInt < 1
  · rw [if_pos hlow]
    exact acts_panic (hpanic hlow)
  rw [if_neg hlow]
  have hlinked : (s.node i).attrs.nlink ≠ 0 := by
    intro h0
    rw [h0] at hlow
    exact hlow (by decide)
  -- The two locks are released, the inode first.
  have hrefuse : Full (s.node i) ∨ (s.core.pt.proc p).uid ≠ 0 →
      Acts p E Q (do iunlockput ip; unlinkBad dp) t := by
    intro hwhy
    refine wp_seq (wp_seq (acts_iunlock_second hpair hip.1.1 fun u hu hku => ?_))
    refine acts_iput hu (hku.pos hip.1.1) ((hku.inum hip.1.1).trans hti) ?_
      (fun he => absurd (Option.some.inj he) hslot) fun v hv hkv => ?_
    · rw [hku.node, hk.node]
      exact Or.inl hlinked
    · have hheld : 0 < Fs.held b [d] (u.inum dp) := by
        rw [hku.inum (hk.pos hdp.1.1), htd]
        exact held_cons_self hu.rest d []
      have hvd : v.inum dp = d :=
        (hkv.entry dp (hku.pos (hk.pos hdp.1.1)) hheld).2.1.trans
          ((hku.inum (hk.pos hdp.1.1)).trans htd)
      have hnodev : v.node = s.node := hkv.node.trans (hku.node.trans hk.node)
      refine acts_unlinkBad hv hvd (by rw [hnodev]; exact hud.safe) fun w hw hs ho hn => ?_
      exact hbad hwhy w hw (hk.all.toStays.trans (hku.all.toStays.trans
        (hkv.of_held.toStays.trans hs))) ho (hn.trans hnodev)
  have hdata : t.data ip = (s.node i).data := by rw [IState.data, hti, hk.node]
  refine wp_seq (acts_nonemptyDir hip htype ?_ ?_)
  · rw [hdata, hti, hk.node]
    exact hwhole
  · rw [hti, hk.node]
    by_cases hfull : Full (s.node i)
    · rw [decide_eq_true hfull, if_pos rfl]
      exact hrefuse (Or.inl hfull)
    · rw [decide_eq_false hfull, if_neg Bool.false_ne_true]
      refine wp_seq (acts_getProc (wp_seq (acts_getInode ?_)))
      split
      next huid => exact hrefuse (Or.inr (hk.pt ▸ huid.1))
      · refine acts_unlinkEntry hpair (hk.loaded hdp) hip htd hti hne (by rw [hk.node]; exact hoff)
          (by rw [hk.node]; exact hmax) fun u hu hs ho hn => ?_
        rw [hk.node] at hn
        exact hQ hfull hlow u hu (hk.all.toStays.trans hs) ho hn

theorem lookup_bound {data : List UInt8} (h : lookup data name = some (off, i)) :
    ∃ k, off = DESIZE * k ∧ k < data.length / DESIZE := by
  obtain ⟨k, hk, heq⟩ := Option.map_eq_some_iff.1 h
  cases heq
  exact ⟨k, rfl, (firstFrom_eq_some hk).1⟩

/-- `sys_unlink` of the path finds the entry at `off` of directory `d`, for inode `i`. -/
structure Target (p : ℕ) (s : IState) (path : List UInt8) (d off i : ℕ) (name : List UInt8) :
    Prop where
  walk : walk s.node true (startInum p s path) (segments path) = some (d, name)
  dot : nameOf name ≠ nameOf dot
  dotdot : nameOf name ≠ nameOf dotdot
  lookup : lookup (s.node d).data name = some (off, i)

theorem acts_sysUnlink {path : List UInt8} (h : AtRest p b [] s)
    (hown : s.core.owner = none) (hroom : Room E b s.ninodes 2)
    (hself : ∀ d off name, Target p s (cstring path) d off d name → E (.stop .sleep))
    (hpanic : ∀ d off i name, Target p s (cstring path) d off i name →
      (s.node i).attrs.nlink.toInt < 1 → E (.stop (.panic .unlinkNlink)))
    (hbad : (∀ d off i name, Target p s (cstring path) d off i name →
        Full (s.node i) ∨ (s.core.pt.proc p).uid ≠ 0) →
      ∀ t, Holding b [] none t → Stays b s t → t.core.owner = none → t.node = s.node → Q (-1) t)
    (hdone : ∀ d off i name, Target p s (cstring path) d off i name → Usable b s d →
      ¬ Full (s.node i) → ¬ (s.node i).attrs.nlink.toInt < 1 → ∀ t, Holding b [] none t → Stays b s t →
      t.core.owner = none → t.node = unlinked b s.node d off i → Q 0 t) :
    Acts p E Q (sysUnlink (some path)) s := by
  refine wp_seq (acts_namex h hroom ?_ ?_)
  · intro hw t ht hk
    refine wp_pure (hbad ?_ t ht hk.toStays (hk.owner.trans hown) hk.node)
    intro d off i name htar
    rw [htar.walk] at hw
    cases hw
  intro d name hw hud dp t1 ht1 hk1 hdp1 hd1
  refine wp_seq (acts_beginTrans ht1 (hk1.owner.trans hown) fun t2 ht2 hs2 hn2 => ?_)
  have hnode2 : t2.node = s.node := hn2.trans hk1.node
  obtain ⟨hdp2, hd2, -⟩ := hs2.entry dp hdp1 zero_lt_one
  rw [hd1] at hd2
  have hdir := walk_dir hw
  refine wp_seq (acts_ilock ht2 hdp2 (by rw [hd2, hnode2]; exact hud.type) fun t ht hk hl => ?_)
  have hd : t.inum dp = d := (hk.inum hdp2).trans hd2
  have hnode : t.node = s.node := hk.node.trans hnode2
  have hstay : Stays b s t := hk1.toStays.trans (hs2.all.trans hk.all.toStays)
  have hrefuse : (∀ d off i name, Target p s (cstring path) d off i name →
      Full (s.node i) ∨ (s.core.pt.proc p).uid ≠ 0) → Acts p E Q (unlinkBad dp) t := by
    intro hno
    refine acts_unlinkBad ht hd (by rw [hnode]; exact hud.safe) fun u hu hs ho hn => ?_
    exact hbad hno u hu (hstay.trans hs) ho (hn.trans hnode)
  by_cases hdots : namecmp name dot = 0 ∨ namecmp name dotdot = 0
  · rw [if_pos hdots]
    refine hrefuse fun d' off i name' htar => ?_
    cases hw.symm.trans htar.walk
    rcases hdots with hdot | hdot
    · exact absurd (namecmp_eq_zero_iff.1 hdot) htar.dot
    · exact absurd (namecmp_eq_zero_iff.1 hdot) htar.dotdot
  rw [if_neg hdots]
  rw [not_or, namecmp_eq_zero_iff, namecmp_eq_zero_iff] at hdots
  have hdata : t.data dp = (s.node d).data := by rw [IState.data, hd, hnode]
  have hwhole := h.sound.whole d hud hdir
  have htype : (t.core.inode dp).type = T_DIR := by rw [ht.type hl, hd, hnode, hdir]
  refine wp_seq (acts_dirlookup hl (by rw [hdata]; exact hwhole) (ht.inPlace dp hl.1.1).dev
    htype ?_ ?_)
  · intro hnone
    refine hrefuse fun d' off i name' htar => ?_
    cases hw.symm.trans htar.walk
    have hsome := htar.lookup
    rw [← hdata, hnone] at hsome
    cases hsome
  · intro off i hsome
    rw [hdata] at hsome
    have htar : Target p s (cstring path) d off i name := ⟨hw, hdots.1, hdots.2, hsome⟩
    have hui := h.sound.lookup hud hdir hsome
    refine acts_iget ht (by rw [hstay.ninodes]; exact hroom) (by rw [hstay.ninodes]; exact hui.known)
      fun ip u hu hku hip hi => ?_
    have hudi : u.inum dp = d := (hku.inum hl.1.1).trans hd
    have hnodeu : u.node = s.node := hku.node.trans hnode
    have hstayu : Stays b s u := hstay.trans hku.all.toStays
    dsimp only
    by_cases hne : i = d
    · -- The inode of the entry is the directory itself, which is locked.
      subst hne
      obtain rfl : ip = dp := hu.unique ip dp hip (hku.pos hl.1.1) (hi.trans hudi.symm)
      have hbusy := (hu.inPlace ip hip).busy.2 rfl
      refine wp_seq (wp_seq (wp_stop (e := .stop .sleep) trivial ?_ (hself _ _ _ htar)))
      dsimp only [inodeSem, Core.exec]
      rw [if_pos (show CoreAct.Meant u.core (.lockInode ip) from trivial), if_neg (by omega),
        if_pos hbusy]
      rfl
    · obtain ⟨k, hoff, hlt⟩ := lookup_bound hsome
      have hlen := hwhole.length
      refine acts_unlinkFound hu (hku.loaded hl) hip hudi hi hne ?_ ?_ ?_ ?_ ?_ ?_ ?_ ?_
      · rw [hnodeu, hoff]
        unfold DESIZE at hlt hlen ⊢
        omega
      · rw [hnodeu]
        exact hwhole.le
      · exact ⟨by rw [hstayu.ninodes]; exact hud.known, by rw [hnodeu]; exact hud.type,
          by rw [hnodeu]; exact hud.safe⟩
      · rw [hnodeu]
        exact hui.type
      · rw [hnodeu]
        exact h.sound.whole i hui
      · rw [hnodeu]
        exact hpanic d off i name htar
      · rw [hnodeu, hstayu.pt]
        intro hwhy v hv hs ho hn
        refine hbad (fun d' off' i' name' htar' => ?_) v hv (hstayu.trans hs) ho hn
        cases hw.symm.trans htar'.walk
        cases hsome.symm.trans htar'.lookup
        exact hwhy
      · rw [hnodeu]
        intro hfull hlow v hv hs ho hn
        exact hdone d off i name htar hud hfull hlow v hv (hstayu.trans hs) ho hn

end Qwin.Sys
