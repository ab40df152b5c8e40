import Qwin.Fs.Paths
import Qwin.Sys.Call

/-!
# Hard links

`sys_link` raises the link count of a file, writes an entry for it, and takes the count
back when no entry was written. As long as the directory has a place for the entry and the
count is below the largest signed short, the count of a file stays the number of its names
over any number of calls.
-/

namespace Qwin.Sys

open Prog Fs
open Function (update update_of_ne update_self update_eq_self update_idem)

variable {p : ℕ} {E : End IState → Prop} {s t : IState} {b : ℕ → ℤ} {own : List ℕ}
  {i ip dp d k : ℕ} {name : List UInt8}

/-! ## The link count -/

def withNlink (x : Node) (v : Short) : Node := { x with attrs := { x.attrs with nlink := v } }

/-- The directory with an entry at its first vacant place. -/
def withEntry (x : Node) (i : ℕ) (name : List UInt8) : Node :=
  { x with data := splice x.data (DESIZE * vacancy x.data) (Dirent.bytes i name) }

/-- The entry of the cache with another link count has the fields of such a node. -/
theorem attrs_withNlink {x : Inode} {y : Node} (h : x.attrs = y.attrs) (f : Short → Short) :
    ({ x with nlink := f x.nlink } : Inode).attrs = (withNlink y (f y.attrs.nlink)).attrs := by
  have htype : x.type = y.attrs.type := congrArg Attrs.type h
  have hmajor : x.major = y.attrs.major := congrArg Attrs.major h
  have hminor : x.minor = y.attrs.minor := congrArg Attrs.minor h
  have hnlink : x.nlink = y.attrs.nlink := congrArg Attrs.nlink h
  exact Attrs.ext htype hmajor hminor (congrArg f hnlink)

variable {f : Short → Short}

theorem acts_setNlink_entry {Q : Unit → IState → Prop} (hl : s.Loaded ip)
    (hattrs : (s.core.inode ip).attrs = (s.node (s.inum ip)).attrs)
    (hQ : Q () ((s.setInode ip { s.core.inode ip with nlink := f (s.core.inode ip).nlink }).setNode
      (s.inum ip) (withNlink (s.node (s.inum ip)) (f (s.node (s.inum ip)).attrs.nlink)))) :
    Acts p E Q (setNlink ip f) s := by
  have hpos := hl.1.1
  let x : Inode := { s.core.inode ip with nlink := f (s.core.inode ip).nlink }
  let y : Node := withNlink (s.node (s.inum ip)) (f (s.node (s.inum ip)).attrs.nlink)
  have hxy : x.attrs = y.attrs := attrs_withNlink hattrs f
  have hself : (s.setInode ip x).core.inode ip = x := Core.setInode_inode_self _ _ _
  have hinum : (s.setInode ip x).inum ip = s.inum ip := by
    rw [IState.inum, hself]
    rfl
  have hload : (s.setInode ip x).Loaded ip := by
    refine ⟨⟨?_, ?_⟩, ?_, ?_⟩
    · rw [hself]
      exact hpos
    · rw [hinum]
      exact hl.1.2
    · rw [hself]
      exact hl.2.1
    · rw [hinum]
      exact hl.2.2
  have hend : (s.setInode ip x).setNode ((s.setInode ip x).inum ip)
      { (s.setInode ip x).node ((s.setInode ip x).inum ip) with
        attrs := ((s.setInode ip x).core.inode ip).attrs } =
      (s.setInode ip x).setNode (s.inum ip) y := by
    rw [hinum, hself, hxy]
    rfl
  refine wp_seq (acts_getInode (wp_seq ?_))
  refine acts_core (c := (s.setInode ip x).core) trivial rfl (acts_iupdate hload ?_ ?_)
  · rw [hself]
    exact fun h0 => hl.2.2 ((congrArg Attrs.type hattrs).symm.trans h0)
  · rw [← hend] at hQ
    exact hQ

theorem acts_setNlink {Q : Unit → IState → Prop} (h : Holding b own (some ip) s) (hl : s.Loaded ip)
    (hQ : ∀ t, Holding b own (some ip) t → Stays 1 s t → t.core.owner = s.core.owner →
      t.node = update s.node (s.inum ip)
        (withNlink (s.node (s.inum ip)) (f (s.node (s.inum ip)).attrs.nlink)) → Q () t) :
    Acts p E Q (setNlink ip f) s :=
  acts_setNlink_entry hl (h.attrs hl) (hQ _
    (h.setBoth hl.1.1 rfl rfl rfl rfl (attrs_withNlink (h.attrs hl) f)) (stays_setBoth rfl rfl rfl)
    rfl rfl)

variable {Q : ℤ → IState → Prop}

theorem acts_linkBad (h : Holding b [i] none s)
    (hpos : 0 < (s.core.inode ip).ref) (hinum : s.inum ip = i) (ht : (s.node i).attrs.type ≠ 0)
    (hsafe : (s.node i).attrs.nlink - 1 ≠ 0 ∨ 0 < b i)
    (hQ : ∀ t, Holding b [] none t → Stays b s t → t.core.owner = none →
      t.node = update s.node i (withNlink (s.node i) ((s.node i).attrs.nlink - 1)) →
      Q (-1) t) : Acts p E Q (linkBad ip) s := by
  refine wp_seq (acts_ilock h hpos (by rw [hinum]; exact ht) fun t ht hk hl => ?_)
  have hti : t.inum ip = i := (hk.inum hpos).trans hinum
  refine wp_seq (acts_setNlink ht hl fun u hu hstay _ hnode => ?_)
  rw [hti, hk.node] at hnode
  have hui : u.inum ip = i := (hstay.entry ip hl.1.1 zero_lt_one).2.1.trans hti
  refine wp_seq (acts_iunlockput hu hui ?_ fun v hv hk' => ?_)
  · rw [hnode, update_self]
    exact hsafe.imp_right fun hb => by simpa using hb
  · refine wp_seq (acts_commitTrans hv fun w hw hstay' hnode' hown => wp_pure ?_)
    refine hQ w hw ?_ hown (hnode'.trans (hk'.node.trans hnode))
    exact (hk.all.toStays.trans hstay.all).trans (hk'.of_held.toStays.trans hstay'.all)

/-- The part of `sys_link` after the directory was found. -/
theorem acts_linkIn (h : Holding b [d, i] none s)
    (hroom : Room E b s.ninodes 3) (hd : 0 < (s.core.inode dp).ref) (hdi : s.inum dp = d)
    (hpos : 0 < (s.core.inode ip).ref) (hinum : s.inum ip = i)
    (hdir : (s.node d).attrs.type = T_DIR) (hwhole : Whole (s.node d).data)
    (hsafed : (s.node d).attrs.nlink ≠ 0 ∨ 0 < b d) (hfile : (s.node i).attrs.type ≠ T_DIR)
    (hentry : ∀ off j, lookup (s.node d).data name = some (off, j) →
      Usable (held b [i]) s j)
    (hfull : lookup (s.node d).data name = none →
      DESIZE * vacancy (s.node d).data = MAXFILE * BSIZE → E (.stop (.panic .dirlink)))
    (hbad : lookup (s.node d).data name ≠ none → ∀ t, Holding b [i] none t →
      Kept (held b [i]) s t → Acts p E Q (linkBad ip) t)
    (hgood : lookup (s.node d).data name = none →
      DESIZE * vacancy (s.node d).data < MAXFILE * BSIZE →
      (s.node i).attrs.nlink ≠ 0 ∨ 0 < b i)
    (hQ : lookup (s.node d).data name = none →
      DESIZE * vacancy (s.node d).data < MAXFILE * BSIZE → ∀ t, Holding b [] none t →
      Stays b s t → t.core.owner = none →
      t.node = update s.node d (withEntry (s.node d) i name) → Q 0 t) :
    Acts p E Q (linkIn ip dp name) s := by
  have hne : i ≠ d := by
    rintro rfl
    exact hfile hdir
  refine wp_seq (acts_ilock h hd (by rw [hdi, hdir]; decide) fun t ht hk hl => ?_)
  have hti : t.inum dp = d := (hk.inum hd).trans hdi
  have htp : 0 < (t.core.inode ip).ref := hk.pos hpos
  have htip : t.inum ip = i := (hk.inum hpos).trans hinum
  have hdata : t.data dp = (s.node d).data := by rw [IState.data, hti, hk.node]
  have hdev := (ht.inPlace dp hl.1.1).dev
  refine wp_seq (acts_getInode (wp_seq (acts_getInode ?_)))
  rw [if_neg (by rw [hdev, (ht.inPlace ip htp).dev]; exact not_not.2 rfl)]
  change Acts p E Q (dirlink dp name (t.inum ip) >>= _) t
  rw [htip]
  rw [← hdata] at hwhole hentry hfull hbad hgood hQ
  have htype : (t.core.inode dp).type = T_DIR := by rw [ht.type hl, hti, hk.node, hdir]
  refine wp_seq (acts_dirlink hl hwhole hdev htype (ht.attrs hl) ?_ hfull ?_)
  · -- the name is taken
    intro off j hj
    have huj := (hentry off j hj).kept hk.all
    refine acts_iget ht (by rw [hk.ninodes]; exact hroom) huj.known fun q u hu hk' hq hqj => ?_
    have hudp : u.inum dp = d := (hk'.inum hl.1.1).trans hti
    refine acts_iput hu hq hqj ?_ ?_ fun v hv hk'' => ?_
    · rw [hk'.node]
      refine huj.safe.imp_right fun hb => ?_
      rw [held] at hb
      rw [count_cons_eq]
      split <;> omega
    · intro hlock
      have hjd : d = j := by
        rw [← hudp, ← hqj, Option.some.inj hlock]
      have := hu.rest j
      rw [count_cons_eq, if_pos hjd]
      omega
    · have hvd : 0 < held b [d, i] (u.inum dp) := by
        rw [hudp]
        exact held_cons_self hu.rest d [i]
      have hvi : v.inum dp = d := by
        rw [(hk''.entry dp (hk'.pos hl.1.1) hvd).2.1, hudp]
      have hkv : Kept (held b [d, i]) s v := (hk.all.trans hk'.all).trans hk''
      rw [if_neg (by decide)]
      refine wp_seq (acts_iunlockput hv hvi ?_ fun w hw hk3 => ?_)
      · rw [hkv.node]
        refine hsafed.imp_right fun hb => ?_
        omega
      · refine hbad (by rw [hj]; exact Option.some_ne_none _) w hw
          ((hkv.mono fun j hj => ?_).trans hk3)
        rw [held, count_cons_eq]
        rw [held] at hj
        split <;> omega
  · -- the entry is written
    intro hnone hlt
    rw [if_pos rfl]
    have hwrite : ∀ u, Holding b [d, i] (some dp) u → Stays 1 t u →
        u.node = update s.node d (withEntry (s.node d) i name) →
        Acts p E Q (do iunlockput dp; iput ip; core .commitTrans; pure 0) u := by
      intro u hu hstay hnode
      have hup := hstay.entry ip htp zero_lt_one
      have hud := hstay.entry dp hl.1.1 zero_lt_one
      refine wp_seq (acts_iunlockput hu (hud.2.1.trans hti) ?_ fun v hv hk' => ?_)
      · rw [hnode, update_self]
        exact hsafed.imp_right fun hb => by omega
      · have hvi : 0 < held b [i] (u.inum ip) := by
          rw [hup.2.1, htip]
          exact held_cons_self ht.rest i []
        obtain ⟨hvp, hvip, -⟩ := hk'.entry ip hup.1 hvi
        have hvnum : v.inum ip = i := hvip.trans (hup.2.1.trans htip)
        refine wp_seq (acts_iput hv hvp hvnum ?_ (absurd ·.symm (Option.some_ne_none _))
          fun w hw hk3 => ?_)
        · rw [hk'.node, hnode, update_of_ne hne]
          exact (hgood hnone hlt).imp_right fun hb => by omega
        · refine wp_seq (acts_commitTrans hw fun x hx hstay' hnode' hown => wp_pure ?_)
          refine hQ hnone hlt x hx ?_ hown ?_
          · exact (hk.all.toStays.trans hstay.all).trans
              ((hk'.of_held.trans hk3.of_held).toStays.trans hstay'.all)
          · rw [hnode', hk3.node, hk'.node, hnode]
    refine hwrite _ (ht.setNode rfl) (stays_setNode t _ _) ?_
    change update t.node (t.inum dp) (withEntry (t.node (t.inum dp)) i name) = _
    rw [hti, hk.node]

/-! ## Names -/

/-- The number of entries of a directory for inode `i`. -/
def namesIn (data : List UInt8) (i : ℕ) : ℕ := (entries data).countP fun e => e.inum = i

def names (s : IState) (i : ℕ) : ℕ :=
  ∑ d ∈ Finset.range s.ninodes,
    if (s.node d).attrs.type = T_DIR then namesIn (s.node d).data i else 0

section WithEntry

variable {x : Node}

variable (hx : Whole x.data)
include hx

/-- The new entry takes the place of a free one, or comes at the end. -/
theorem withEntry_cases (i : ℕ) (name : List UInt8) :
    (∃ k, k < (entries x.data).length ∧ (entryAt x.data k).inum = 0 ∧
      (withEntry x i name).data.length = x.data.length ∧
      entries (withEntry x i name).data =
        (entries x.data).set k (Dirent.get (Dirent.bytes i name))) ∨
    DESIZE * vacancy x.data = x.data.length ∧
      (withEntry x i name).data.length = x.data.length + DESIZE ∧
      entries (withEntry x i name).data = entries x.data ++ [Dirent.get (Dirent.bytes i name)] := by
  have hlen := hx.length
  have hbytes := length_bytes i name
  cases hf : firstFrom x.data Dirent.Free 0 with
  | some k =>
    obtain ⟨hk, hfree⟩ := firstFrom_eq_some hf
    have hv : vacancy x.data = k := by rw [vacancy, hf]; rfl
    have hle : DESIZE * k + DESIZE ≤ x.data.length := by
      unfold DESIZE at hk hlen ⊢
      omega
    refine Or.inl ⟨k, by rw [length_entries]; exact hk, hfree, ?_, ?_⟩
    · rw [withEntry, hv, length_splice (by omega), hbytes, Nat.max_eq_left hle]
    · rw [withEntry, hv, entries_splice hk hbytes]
  | none =>
    have hv : vacancy x.data = x.data.length / DESIZE := by rw [vacancy, hf]; rfl
    refine Or.inr ⟨by rw [hv, hlen], ?_, ?_⟩
    · rw [withEntry, hv, hlen, length_splice le_rfl, hbytes, Nat.max_eq_right (by omega)]
    · rw [withEntry, hv, entries_append hlen.symm hbytes]

theorem whole_withEntry (hlt : DESIZE * vacancy x.data < MAXFILE * BSIZE) :
    Whole (withEntry x i name).data := by
  rcases withEntry_cases hx i name with ⟨k, -, -, hlen, -⟩ | ⟨hv, hlen, -⟩
  · exact ⟨hlen ▸ hx.dvd, hlen ▸ hx.le⟩
  · obtain ⟨c, hc⟩ := hx.dvd
    refine ⟨⟨c + 1, by rw [hlen, hc]; rfl⟩, ?_⟩
    rw [hv] at hlt
    rw [hlen]
    unfold MAXFILE BSIZE DESIZE at *
    omega

theorem mem_entries_withEntry {e : Dirent} (he : e ∈ entries (withEntry x i name).data) :
    e ∈ entries x.data ∨ e = Dirent.get (Dirent.bytes i name) := by
  rcases withEntry_cases hx i name with ⟨k, -, -, -, hset⟩ | ⟨-, -, happ⟩
  · rw [hset] at he
    exact List.mem_or_eq_of_mem_set he
  · rw [happ] at he
    simpa using he

theorem namesIn_withEntry (h0 : i ≠ 0) (hi : i < 65536) :
    namesIn (withEntry x i name).data i = namesIn x.data i + 1 := by
  have hnew : (Dirent.get (Dirent.bytes i name)).inum = i := get_bytes_inum hi name
  rcases withEntry_cases hx i name with ⟨k, hk, hfree, -, hset⟩ | ⟨-, -, happ⟩
  · have hget : (entries x.data)[k] = entryAt x.data k := by
      have : (entries x.data)[k]? = some (entryAt x.data k) :=
        getElem?_entries (by rwa [length_entries] at hk)
      rw [List.getElem?_eq_getElem hk] at this
      exact Option.some.inj this
    rw [namesIn, hset, List.countP_set hk, hget, hfree, hnew, namesIn]
    simp [h0.symm]
  · rw [namesIn, happ, List.countP_append, namesIn]
    simp [hnew]

end WithEntry

/-! ## `sys_link` -/

/-- The nodes with another link count for inode `i`. -/
def recount (node : ℕ → Node) (i : ℕ) (v : Short) : ℕ → Node :=
  update node i (withNlink (node i) v)

section Recount

variable {node : ℕ → Node} {v : Short}

theorem recount_type (node : ℕ → Node) (i : ℕ) (v : Short) (j : ℕ) :
    (recount node i v j).attrs.type = (node j).attrs.type := by
  unfold recount
  by_cases hj : j = i
  · rw [hj, update_self]
    rfl
  · rw [update_of_ne hj]

theorem recount_data (node : ℕ → Node) (i : ℕ) (v : Short) (j : ℕ) :
    (recount node i v j).data = (node j).data := by
  unfold recount
  by_cases hj : j = i
  · rw [hj, update_self]
    rfl
  · rw [update_of_ne hj]

theorem recount_of_ne (hj : d ≠ i) : recount node i v d = node d := update_of_ne hj _ _

theorem recount_self : recount node i v i = withNlink (node i) v := update_self _ _ _

theorem recount_recount (node : ℕ → Node) (i : ℕ) :
    recount (recount node i ((node i).attrs.nlink + 1)) i
      ((recount node i ((node i).attrs.nlink + 1) i).attrs.nlink - 1) = node := by
  have hback : ((node i).attrs.nlink + 1) - 1 = (node i).attrs.nlink := by
    rw [BitVec.add_sub_cancel]
  rw [recount_self]
  change update (update node i _) i _ = node
  rw [update_idem, recount_self]
  change update node i (withNlink (withNlink (node i) _) ((node i).attrs.nlink + 1 - 1)) = node
  rw [hback]
  exact update_eq_self i node

/-- What can be used in the nodes of `s` and what can be used in those of `t`, while the
process has a reference to `i`. -/
theorem usable_recount_iff (hb : ∀ i, 0 ≤ b i) (hu : Usable b s i) (hn : t.ninodes = s.ninodes)
    (hnode : t.node = recount s.node i v) (j : ℕ) : Usable (held b [i]) t j ↔ Usable b s j := by
  by_cases hj : j = i
  · have hpos : 0 < held b [i] i := by
      have := hb i
      rw [held, count_cons_eq, if_pos rfl]
      omega
    rw [hj]
    refine ⟨fun _ => hu, fun _ => ⟨?_, ?_, Or.inr hpos⟩⟩
    · rw [hn]
      exact hu.known
    · rw [hnode, recount_type]
      exact hu.type
  · have hheld : held b [i] j = b j := by
      rw [held, count_cons_eq, if_neg (Ne.symm hj)]
      simp
    have hsame : t.node j = s.node j := by
      rw [hnode, recount_of_ne hj]
    constructor
    · rintro ⟨h1, h2, h3⟩
      rw [hn] at h1
      rw [hsame] at h2 h3
      rw [hheld] at h3
      exact ⟨h1, h2, h3⟩
    · rintro ⟨h1, h2, h3⟩
      rw [← hn] at h1
      rw [← hsame] at h2 h3
      rw [← hheld] at h3
      exact ⟨h1, h2, h3⟩

theorem sound_recount (h : Sound b s) (hb : ∀ i, 0 ≤ b i) (hu : Usable b s i)
    (hn : t.ninodes = s.ninodes) (hnode : t.node = recount s.node i v) : Sound (held b [i]) t := by
  have hiff := usable_recount_iff hb hu hn hnode
  refine ⟨(hiff _).2 h.root, ?_, ?_, ?_⟩
  · intro j hj
    rw [hiff]
    by_cases hji : j = i
    · rw [hji]
      exact hu
    · refine h.held j ?_
      rw [held, count_cons_eq, if_neg (Ne.symm hji)] at hj
      simpa using hj
  · intro d hd
    rw [hnode, recount_type, recount_data]
    exact h.whole d ((hiff d).1 hd)
  · intro d hd
    rw [hnode, recount_type, recount_data]
    exact fun ht e he h0 => (hiff _).2 (h.entry d ((hiff d).1 hd) ht e he h0)

end Recount

def linked (node : ℕ → Node) (i d : ℕ) (name : List UInt8) : ℕ → Node :=
  update (recount node i ((node i).attrs.nlink + 1)) d (withEntry (node d) i name)

theorem linked_self (node : ℕ → Node) (i d : ℕ) (name : List UInt8) :
    linked node i d name d = withEntry (node d) i name := update_self _ _ _

theorem linked_of_ne {j : ℕ} (hj : j ≠ d) (name : List UInt8) :
    linked node i d name j = recount node i ((node i).attrs.nlink + 1) j :=
  update_of_ne hj _ _

theorem linked_type (node : ℕ → Node) (i d : ℕ) (name : List UInt8) (j : ℕ) :
    (linked node i d name j).attrs.type = (node j).attrs.type := by
  by_cases hj : j = d
  · rw [hj, linked_self]
    rfl
  · rw [linked_of_ne hj, recount_type]

variable {new : List UInt8}

/-- What is to hold where a link to inode `i` under the path `new` ends. -/
structure LinkEnds (p : ℕ) (E : End IState → Prop) (Q : ℤ → IState → Prop) (b : ℕ → ℤ) (s : IState)
    (i : ℕ) (new : List UInt8) : Prop where
  full : ∀ d name, walk s.node true (startInum p s (cstring new)) (segments (cstring new)) =
      some (d, name) → lookup (s.node d).data name = none →
    DESIZE * vacancy (s.node d).data = MAXFILE * BSIZE → E (.stop (.panic .dirlink))
  fail : (∀ d name, walk s.node true (startInum p s (cstring new)) (segments (cstring new)) =
      some (d, name) → lookup (s.node d).data name ≠ none) →
    ∀ t, Holding b [] none t → Stays b s t → t.core.owner = none → t.node = s.node → Q (-1) t
  done : ∀ d name, walk s.node true (startInum p s (cstring new)) (segments (cstring new)) =
      some (d, name) → lookup (s.node d).data name = none → Usable b s i → Usable b s d →
    (s.node d).attrs.type = T_DIR → DESIZE * vacancy (s.node d).data < MAXFILE * BSIZE →
    ∀ t, Holding b [] none t → Stays b s t → t.core.owner = none →
    t.node = linked s.node i d name → Q 0 t

theorem acts_linkNew (h : AtRest p b [] s) (hroom : Room E b s.ninodes 3) (hu : Usable b s i)
    (hfile : (s.node i).attrs.type ≠ T_DIR) (hnlink : (s.node i).attrs.nlink + 1 ≠ 0)
    (ht : Holding b [i] none t) (hstay : Stays b s t)
    (hnode : t.node = recount s.node i ((s.node i).attrs.nlink + 1))
    (hpos : 0 < (t.core.inode ip).ref) (hinum : t.inum ip = i)
    (hends : LinkEnds p E Q b s i new) :
    Acts p E Q (do
      let r ← nameiparent (cstring new)
      match r with
      | none => linkBad ip
      | some (dp, name) => linkIn ip dp name) t := by
  have hrest : AtRest p (held b [i]) [] t := by
    refine ⟨Holding.lend ht, sound_recount h.sound h.rest hu hstay.ninodes hnode, ?_⟩
    obtain ⟨c, hc, hcpos, hcb⟩ := h.cwd
    obtain ⟨h1, h2, -⟩ := hstay.entry c hcpos hcb
    refine ⟨c, by rw [hstay.pt]; exact hc, h1, ?_⟩
    rw [h2, held]
    omega
  have hroom' : Room E (held b [i]) t.ninodes 2 := by
    rw [hstay.ninodes]
    exact Room.held hroom
  have hwalk : ∀ d names, walk t.node true d names = walk s.node true d names := by
    intro d names
    rw [hnode]
    exact walk_congr (recount_type _ _ _) (recount_data _ _ _) true d names
  have hcount : (t.node i).attrs.nlink - 1 = (s.node i).attrs.nlink := by
    rw [hnode, recount_self]
    exact BitVec.add_sub_cancel _ _
  have hheld : 0 < held b [i] (t.inum ip) := by
    rw [hinum]
    exact held_cons_self h.rest i []
  have hundo : (∀ d name, walk s.node true (startInum p s (cstring new))
      (segments (cstring new)) = some (d, name) → lookup (s.node d).data name ≠ none) →
      ∀ u, Holding b [i] none u → Kept (held b [i]) t u → Acts p E Q (linkBad ip) u := by
    intro hno u hu' hk
    obtain ⟨hpos', hinum', -⟩ := hk.entry ip hpos hheld
    refine acts_linkBad hu' hpos' (hinum'.trans hinum) ?_ ?_ fun v hv hs ho hn => ?_
    · rw [hk.node, hnode, recount_type]
      exact hu.type
    · rw [hk.node, hcount]
      exact hu.safe
    · refine hends.fail hno v hv (hstay.trans (hk.of_held.toStays.trans hs)) ho ?_
      rw [hn, hk.node, hnode]
      exact recount_recount s.node i
  refine wp_seq (acts_namex hrest hroom' ?_ ?_)
  · intro hw u hu' hk
    rw [hwalk, h.startInum_eq hstay] at hw
    refine hundo (fun d name hd => ?_) u (Holding.take hu' h.rest) hk
    rw [hw] at hd
    cases hd
  · intro d name hw hud r u hu' hk hr hri
    rw [hwalk, h.startInum_eq hstay] at hw
    have hdir : (s.node d).attrs.type = T_DIR := walk_dir hw
    have hne : d ≠ i := by
      rintro rfl
      exact hfile hdir
    have hud' : Usable b s d := (usable_recount_iff h.rest hu hstay.ninodes hnode d).1 hud
    have hsame : u.node d = s.node d := by rw [hk.node, hnode, recount_of_ne hne]
    obtain ⟨hpos', hinum', -⟩ := hk.entry ip hpos hheld
    refine acts_linkIn (Holding.take hu' h.rest) ?_ hr hri hpos' (hinum'.trans hinum)
      ?_ ?_ ?_ ?_ ?_ ?_ ?_ ?_ ?_
    · rw [hk.ninodes, hstay.ninodes]
      exact hroom
    · rw [hsame]
      exact hdir
    · rw [hsame]
      exact h.sound.whole d hud' hdir
    · rw [hsame]
      exact hud'.safe
    · rw [hk.node, hnode, recount_type]
      exact hfile
    · rw [hsame]
      intro off j hl
      exact ((usable_recount_iff h.rest hu hstay.ninodes hnode j).2
        (h.sound.lookup hud' hdir hl)).kept hk
    · rw [hsame]
      exact hends.full d name hw
    · rw [hsame]
      intro htaken v hv hk'
      refine hundo (fun d' name' hd => ?_) v hv (hk.trans hk')
      cases hw.symm.trans hd
      exact htaken
    · rw [hk.node, hnode, recount_self]
      exact fun _ _ => Or.inl hnlink
    · rw [hsame]
      intro hlookup hlt v hv hs ho hn
      refine hends.done d name hw hlookup hu hud' hdir hlt v hv
        (hstay.trans (hk.of_held.toStays.trans hs)) ho ?_
      rw [hn, hk.node, hnode]
      rfl

variable {old : List UInt8}

section

variable (h : AtRest p b [] s) (hown : s.core.owner = none)
include h hown

/-- The old name is found, and its inode is locked in a transaction. -/
theorem acts_linkOld {f : ℕ → IProg ℤ}
    (hroom : Room E b s.ninodes 2)
    (hold : resolve s.node (startInum p s (cstring old)) (segments (cstring old)) = some i)
    (hf : ∀ q t, Usable b s i → Holding b [i] (some q) t → Stays b s t → t.Loaded q →
      t.inum q = i → t.node = s.node → Acts p E Q (f q) t) :
    Acts p E Q (do
      let r ← namei (cstring old)
      match r with
      | none => pure (-1)
      | some ip => do
          core .beginTrans
          ilock ip
          f ip) s := by
  refine wp_seq (acts_namei h hroom ?_ ?_)
  · intro hnone
    rw [hold] at hnone
    cases hnone
  intro j hj hu q t1 ht1 hk1 hq1 hqi1
  obtain rfl : i = j := Option.some.inj (hold.symm.trans hj)
  dsimp only
  refine wp_seq (acts_beginTrans ht1 (hk1.owner.trans hown) fun t2 ht2 hs2 hn2 => ?_)
  obtain ⟨hq2, hqi2, -⟩ := hs2.entry q hq1 zero_lt_one
  rw [hqi1] at hqi2
  have hnode2 : t2.node = s.node := hn2.trans hk1.node
  refine wp_seq (acts_ilock ht2 hq2 (by rw [hqi2, hnode2]; exact hu.type)
    fun t3 ht3 hk3 hl3 => ?_)
  exact hf q t3 hu ht3 (hk1.toStays.trans (hs2.all.trans hk3.all.toStays)) hl3
    ((hk3.inum hq2).trans hqi2) (hk3.node.trans hnode2)

theorem acts_sysLink (hroom : Room E b s.ninodes 3)
    (hold : resolve s.node (startInum p s (cstring old)) (segments (cstring old)) = some i)
    (hfile : (s.node i).attrs.type ≠ T_DIR) (hnlink : (s.node i).attrs.nlink + 1 ≠ 0)
    (hends : LinkEnds p E Q b s i new) : Acts p E Q (sysLink (some old) (some new)) s := by
  refine acts_linkOld h hown (hroom.mono (by decide)) hold fun q t3 hu ht3 hs3 hl3 hqi3 hnode3 => ?_
  refine wp_seq (acts_getInode ?_)
  rw [if_neg (by rw [ht3.type hl3, hqi3, hnode3]; exact hfile)]
  refine wp_seq (acts_setNlink ht3 hl3 fun t4 ht4 hs4 _ hn4 => ?_)
  rw [hqi3, hnode3] at hn4
  have hq4 := hs4.entry q hl3.1.1 zero_lt_one
  refine wp_seq (acts_iunlock ht4 fun t5 ht5 hk5 => ?_)
  exact acts_linkNew h hroom hu hfile hnlink ht5 (hs3.trans (hs4.all.trans hk5.all.toStays))
    (hk5.node.trans hn4) (hk5.pos hq4.1) ((hk5.inum hq4.1).trans (hq4.2.1.trans hqi3)) hends

theorem acts_sysLink_dir (hroom : Room E b s.ninodes 2)
    (hold : resolve s.node (startInum p s (cstring old)) (segments (cstring old)) = some i)
    (hdir : (s.node i).attrs.type = T_DIR)
    (hfail : ∀ t, Holding b [] none t → Stays b s t → t.core.owner = none → t.node = s.node →
      Q (-1) t) : Acts p E Q (sysLink (some old) (some new)) s := by
  refine acts_linkOld h hown hroom hold fun q t3 hu ht3 hs3 hl3 hqi3 hnode3 => ?_
  refine wp_seq (acts_getInode ?_)
  rw [if_pos (by rw [ht3.type hl3, hqi3, hnode3, hdir])]
  refine wp_seq (acts_iunlockput ht3 hqi3 ?_ fun t4 ht4 hk4 => ?_)
  · rw [hnode3]
    exact hu.spare []
  · refine wp_seq (acts_commitTrans ht4 fun t5 ht5 hs5 hn5 hown5 => wp_pure ?_)
    exact hfail t5 ht5 (hs3.trans (hk4.of_held.toStays.trans hs5.all)) hown5
      (hn5.trans (hk4.node.trans hnode3))

end

theorem sound_linked (h : Sound b s) (hu : Usable b s i) (hi : i < 65536)
    (hfile : (s.node i).attrs.type ≠ T_DIR) (hnlink : (s.node i).attrs.nlink + 1 ≠ 0)
    (hud : Usable b s d) (hdir : (s.node d).attrs.type = T_DIR)
    (hlt : DESIZE * vacancy (s.node d).data < MAXFILE * BSIZE) (hn : t.ninodes = s.ninodes)
    (hnode : t.node = linked s.node i d name) : Sound b t := by
  have hne : d ≠ i := by
    rintro rfl
    exact hfile hdir
  have hself : t.node d = withEntry (s.node d) i name := by rw [hnode, linked_self]
  have hother : ∀ j, j ≠ d → t.node j = recount s.node i ((s.node i).attrs.nlink + 1) j := by
    intro j hj
    rw [hnode, linked_of_ne hj]
  have htype : ∀ j, (t.node j).attrs.type = (s.node j).attrs.type := by
    intro j
    rw [hnode, linked_type]
  have hiff : ∀ j, Usable b t j ↔ Usable b s j := by
    intro j
    by_cases hji : j = i
    · rw [hji]
      refine ⟨fun _ => hu, fun _ => ⟨hn ▸ hu.known, by rw [htype]; exact hu.type, Or.inl ?_⟩⟩
      rw [hother i hne.symm, recount_self]
      exact hnlink
    · have hattrs : (t.node j).attrs = (s.node j).attrs := by
        by_cases hj : j = d
        · rw [hj, hself]
          rfl
        · rw [hother j hj, recount_of_ne hji]
      constructor
      · rintro ⟨h1, h2, h3⟩
        rw [hn] at h1
        rw [hattrs] at h2 h3
        exact ⟨h1, h2, h3⟩
      · rintro ⟨h1, h2, h3⟩
        rw [← hn] at h1
        rw [← hattrs] at h2 h3
        exact ⟨h1, h2, h3⟩
  refine ⟨(hiff _).2 h.root, fun j hj => (hiff j).2 (h.held j hj), ?_, ?_⟩
  · intro j hj ht
    rw [htype] at ht
    by_cases hjd : j = d
    · rw [hjd, hself]
      exact whole_withEntry (h.whole d hud hdir) hlt
    · rw [hother j hjd, recount_data]
      exact h.whole j ((hiff j).1 hj) ht
  · intro j hj ht e he h0
    rw [htype] at ht
    rw [hiff]
    by_cases hjd : j = d
    · rw [hjd, hself] at he
      rcases mem_entries_withEntry (h.whole d hud hdir) he with he | rfl
      · exact h.entry d hud hdir e he h0
      · rw [get_bytes_inum hi]
        exact hu
    · rw [hother j hjd, recount_data] at he
      exact h.entry j ((hiff j).1 hj) ht e he h0

theorem names_linked (hd : d < s.ninodes) (h0 : i ≠ 0) (hi : i < 65536)
    (hdir : (s.node d).attrs.type = T_DIR)
    (hwhole : Whole (s.node d).data) (hn : t.ninodes = s.ninodes)
    (hnode : t.node = linked s.node i d name) : names t i = names s i + 1 := by
  have hmem := Finset.mem_range.2 hd
  have hrest : ∑ j ∈ (Finset.range s.ninodes).erase d,
      (if (t.node j).attrs.type = T_DIR then namesIn (t.node j).data i else 0) =
      ∑ j ∈ (Finset.range s.ninodes).erase d,
        if (s.node j).attrs.type = T_DIR then namesIn (s.node j).data i else 0 := by
    refine Finset.sum_congr rfl fun j hj => ?_
    rw [hnode, linked_of_ne (Finset.ne_of_mem_erase hj), recount_type, recount_data]
  have hself : (t.node d).attrs.type = T_DIR ∧
      namesIn (t.node d).data i = namesIn (s.node d).data i + 1 := by
    rw [hnode, linked_self]
    exact ⟨hdir, namesIn_withEntry hwhole h0 hi⟩
  rw [names, hn, ← Finset.add_sum_erase _ _ hmem, hrest, if_pos hself.1, hself.2, names,
    ← Finset.add_sum_erase _ (fun j => if (s.node j).attrs.type = T_DIR
      then namesIn (s.node j).data i else 0) hmem, if_pos hdir]
  omega

/-! ## Any number of links -/

/-- A number that an entry of a directory can hold. -/
abbrev Storable (i : ℕ) : Prop := i ≠ 0 ∧ i < 65536

theorem storable_of_child {node : ℕ → Node} (h : child node d name = some i) : Storable i := by
  unfold child at h
  split at h
  · rw [lookup_inum, Option.map_eq_some_iff] at h
    obtain ⟨e, he, rfl⟩ := h
    have hnamed : e.Named name := by simpa using List.find?_some he
    refine ⟨hnamed.1, ?_⟩
    obtain ⟨k, -, rfl⟩ := List.mem_map.1 (List.mem_of_find?_eq_some he)
    have h0 := ((((node d).data.drop (DESIZE * k)).take DESIZE).getD 0 0).toNat_lt
    have h1 := ((((node d).data.drop (DESIZE * k)).take DESIZE).getD 1 0).toNat_lt
    rw [entryAt, Dirent.get]
    dsimp only
    omega
  · cases h

theorem storable_of_resolve {node : ℕ → Node} {names : List (List UInt8)}
    (h : resolve node d names = some i) (hempty : names = [] → Storable i) : Storable i := by
  induction names generalizing d with
  | nil => exact hempty rfl
  | cons name names ih =>
    rw [resolve_cons, Option.bind_eq_some_iff] at h
    obtain ⟨c, hc, h⟩ := h
    refine ih h fun hnil => ?_
    subst hnil
    cases h
    exact storable_of_child hc

/-- The link count of inode `i`, a signed number. -/
def nlinkOf (s : IState) (i : ℕ) : ℤ := (s.node i).attrs.nlink.toInt

/-- The name is taken in the directory of the path, or there is a place for it. -/
def Vacant (p : ℕ) (s : IState) (path : List UInt8) : Prop :=
  ∀ d name, walk s.node true (startInum p s path) (segments path) = some (d, name) →
    lookup (s.node d).data name = none → DESIZE * vacancy (s.node d).data < MAXFILE * BSIZE

/-- The calls of `sys_link` return one after the other. Each makes a name and raises the
count, or does neither, and the count is always the number of names. -/
def LinksWell (p i : ℕ) : List (List UInt8 × List UInt8) → IState → Prop
  | [], s => nlinkOf s i = names s i
  | (old, new) :: calls, s => nlinkOf s i = names s i ∧
      ∃ r t, (sysLink (some old) (some new)).run (inodeSem p) s = .ok (r, t) ∧
        (r = 0 ∧ names t i = names s i + 1 ∧ nlinkOf t i = nlinkOf s i + 1 ∨
          r = -1 ∧ names t i = names s i ∧ nlinkOf t i = nlinkOf s i) ∧
        LinksWell p i calls t

/-- Each of the calls is for inode `i`, finds a place for the name, and finds a count that
can be raised. Where no entry leads to `i`, an entry can hold its number. -/
def Linkable (p i : ℕ) : List (List UInt8 × List UInt8) → IState → Prop
  | [], _ => True
  | (old, new) :: calls, s =>
    resolve s.node (startInum p s (cstring old)) (segments (cstring old)) = some i ∧
    (segments (cstring old) = [] → Storable i) ∧
    Vacant p s (cstring new) ∧ nlinkOf s i < 32767 ∧
    ∀ r t, (sysLink (some old) (some new)).run (inodeSem p) s = .ok (r, t) →
      Linkable p i calls t

section

variable {α β : Type} {P : α → β → Prop} [∀ a b, Decidable (P a b)]

instance decidableForallSome {x : Option (α × β)} :
    Decidable (∀ a b, x = some (a, b) → P a b) :=
  match x with
  | none => isTrue nofun
  | some (a, b) => decidable_of_iff (P a b)
      ⟨fun h _ _ he => by cases he; exact h, fun h => h a b rfl⟩

instance decidableForallOk {ε : Type} {x : Except ε (α × β)} :
    Decidable (∀ a b, x = .ok (a, b) → P a b) :=
  match x with
  | .error _ => isTrue nofun
  | .ok (a, b) => decidable_of_iff (P a b)
      ⟨fun h _ _ he => by cases he; exact h, fun h => h a b rfl⟩

end

instance (p : ℕ) (s : IState) (path : List UInt8) : Decidable (Vacant p s path) :=
  inferInstanceAs (Decidable (∀ d name, _ = some (d, name) → _))

instance decidableLinkable (p i : ℕ) : (calls : List (List UInt8 × List UInt8)) → (s : IState) →
    Decidable (Linkable p i calls s)
  | [], _ => isTrue trivial
  | _ :: calls, _ =>
    have : ∀ t, Decidable (Linkable p i calls t) := decidableLinkable p i calls
    inferInstanceAs (Decidable (_ ∧ _ ∧ _ ∧ _ ∧ ∀ r t, _ = Except.ok (r, t) → _))

theorem toInt_succ {v : Short} (h0 : 0 ≤ v.toInt) (h : v.toInt < 32767) :
    (v + 1).toInt = v.toInt + 1 := by
  have h1 : (1 : Short).toInt = 1 := by decide
  rw [BitVec.toInt_add, h1, Int.bmod_eq_of_le (by omega) (by omega)]

theorem links_once (h : AtRest p b [] s) (hown : s.core.owner = none)
    (hspare : Spare b s.ninodes 3) (hfile : (s.node i).attrs.type = T_FILE)
    (hlinks : nlinkOf s i = names s i)
    (hold : resolve s.node (startInum p s (cstring old)) (segments (cstring old)) = some i)
    (hempty : segments (cstring old) = [] → Storable i) (hvacant : Vacant p s (cstring new))
    (hmax : nlinkOf s i < 32767) :
    Acts p (fun _ => False)
      (fun r t => (r = 0 ∧ names t i = names s i + 1 ∧ nlinkOf t i = nlinkOf s i + 1 ∨
          r = -1 ∧ names t i = names s i ∧ nlinkOf t i = nlinkOf s i) ∧
        AtRest p b [] t ∧ t.core.owner = none ∧ t.ninodes = s.ninodes ∧
          (t.node i).attrs.type = T_FILE) (sysLink (some old) (some new)) s := by
  have hcount : (s.node i).attrs.nlink.toInt + 1 = ((s.node i).attrs.nlink + 1).toInt :=
    (toInt_succ (by rw [nlinkOf] at hlinks; omega) hmax).symm
  have hnlink : (s.node i).attrs.nlink + 1 ≠ 0 := by
    intro hz
    rw [hz] at hcount
    have : (0 : Short).toInt = 0 := by decide
    rw [nlinkOf] at hlinks
    omega
  have hnotdir : (s.node i).attrs.type ≠ T_DIR := by
    rw [hfile]
    decide
  refine acts_sysLink h hown (Or.inr hspare) hold hnotdir hnlink ⟨?_, ?_, ?_⟩
  · intro d name hw hl hfull
    exact absurd hfull (Nat.ne_of_lt (hvacant d name hw hl))
  · intro _ t ht hs ho hnode
    refine ⟨Or.inr ⟨rfl, ?_, ?_⟩, h.kept ht ⟨hs, ho.trans hown.symm, hnode⟩, ho, hs.ninodes, ?_⟩
    · rw [names, hs.ninodes, hnode, names]
    · rw [nlinkOf, hnode, nlinkOf]
    · rw [hnode]
      exact hfile
  · intro d name hw _ hu hud hdir hlt t ht hs ho hnode
    obtain ⟨h0, hi⟩ := storable_of_resolve hold hempty
    have hne : i ≠ d := by
      rintro rfl
      exact hnotdir hdir
    have hnodei : t.node i = withNlink (s.node i) ((s.node i).attrs.nlink + 1) := by
      rw [hnode, linked_of_ne hne, recount_self]
    refine ⟨Or.inl ⟨rfl, ?_, ?_⟩, h.stays ht hs ?_, ho, hs.ninodes, ?_⟩
    · exact names_linked hud.known h0 hi hdir (h.sound.whole d hud hdir) hs.ninodes hnode
    · rw [nlinkOf, hnodei, nlinkOf]
      exact hcount.symm
    · exact sound_linked h.sound hu hi hnotdir hnlink hud hdir hlt hs.ninodes hnode
    · rw [hnodei]
      exact hfile

/-- Over any number of calls for a file, each of which finds a place for the name and a
count below the largest signed short, the count is the number of names. -/
theorem any_number_of_links (h : AtRest p b [] s) (hown : s.core.owner = none)
    (hspare : Spare b s.ninodes 3) (hfile : (s.node i).attrs.type = T_FILE)
    (hlinks : nlinkOf s i = names s i) (calls : List (List UInt8 × List UInt8))
    (hcalls : Linkable p i calls s) :
    LinksWell p i calls s := by
  induction calls generalizing s with
  | nil => exact hlinks
  | cons call calls ih =>
    obtain ⟨old, new⟩ := call
    obtain ⟨hold, hempty, hvacant, hmax, hnext⟩ := hcalls
    obtain ⟨r, t, hrun, hr, ht, ho, hnt, htype⟩ :=
      wp_run_exists (links_once h hown hspare hfile hlinks hold hempty hvacant hmax)
    refine ⟨hlinks, r, t, hrun, hr,
      ih ht ho (by rw [hnt]; exact hspare) htype ?_ (hnext r t hrun)⟩
    rcases hr with ⟨-, h1, h2⟩ | ⟨-, h1, h2⟩
    · rw [h2, h1, hlinks]
      push_cast
      rfl
    · rw [h2, h1, hlinks]

/-- The file `f` gets the name `g`, and by this name the name `h`. -/
theorem any_number_of_links_two :
    LinksWell 0 2 [([102], [103]), ([103], [104])] smallTree :=
  any_number_of_links atRest_smallTree rfl spare_treeOf rfl (by decide)
    [([102], [103]), ([103], [104])] (by decide +kernel)

/-! ## A directory that is full -/

/-- The names of some files: two letters each. -/
def nameNo (k : ℕ) : List UInt8 := [UInt8.ofNat (k % 64 + 65), UInt8.ofNat (k / 64 + 65)]

/-- Entries for inode 2 under the first `n` of these names. -/
def aliases (n : ℕ) : List UInt8 :=
  (List.range n).flatMap fun k => Dirent.bytes 2 (nameNo k)

/-- A root directory of the largest size: `.`, `..`, the file `f` and 4477 more names for
it. -/
def fullDir : List UInt8 :=
  Dirent.bytes 1 dot ++ (Dirent.bytes 1 dotdot ++ (Dirent.bytes 2 [102] ++ aliases 4477))

theorem entries_flatMap (l : List ℕ) :
    entries (l.flatMap fun k => Dirent.bytes 2 (nameNo k)) =
      l.map fun k => Dirent.get (Dirent.bytes 2 (nameNo k)) := by
  induction l with
  | nil => rfl
  | cons k l ih => rw [List.flatMap_cons, entries_bytes_append (length_bytes _ _), ih, List.map_cons]

theorem entries_fullDir : entries fullDir = Dirent.get (Dirent.bytes 1 dot) ::
    Dirent.get (Dirent.bytes 1 dotdot) :: Dirent.get (Dirent.bytes 2 [102]) ::
    (List.range 4477).map fun k => Dirent.get (Dirent.bytes 2 (nameNo k)) := by
  rw [fullDir, entries_bytes_append (length_bytes _ _), entries_bytes_append (length_bytes _ _),
    entries_bytes_append (length_bytes _ _), aliases, entries_flatMap]

theorem length_fullDir : fullDir.length = 71680 := by
  have hlen : ∀ n, (aliases n).length = DESIZE * n := by
    intro n
    rw [aliases, List.length_flatMap]
    simp only [length_bytes]
    simp [Nat.mul_comm]
  simp only [fullDir, List.length_append, length_bytes, hlen]
  decide

theorem forall_fullDir {P : Dirent → Prop} (h1 : P (Dirent.get (Dirent.bytes 1 dot)))
    (h2 : P (Dirent.get (Dirent.bytes 1 dotdot))) (h3 : P (Dirent.get (Dirent.bytes 2 [102])))
    (h4 : ∀ k, P (Dirent.get (Dirent.bytes 2 (nameNo k)))) : ∀ e ∈ entries fullDir, P e := by
  intro e he
  rw [entries_fullDir] at he
  simp only [List.mem_cons, List.mem_map] at he
  rcases he with rfl | rfl | rfl | ⟨k, -, rfl⟩
  · exact h1
  · exact h2
  · exact h3
  · exact h4 k

/-- The file has 4478 names in a directory without room for another one. -/
def fullTree : IState := treeOf fullDir 4478

theorem atRest_fullTree : AtRest 0 fullTree.refs [] fullTree := by
  refine atRest_treeOf (by decide) ⟨?_, ?_⟩ ?_
  · rw [length_fullDir]
    decide
  · rw [length_fullDir]
    decide
  · refine forall_fullDir (by decide) (by decide) (by decide) fun k => Or.inr ?_
    exact get_bytes_inum (by decide) _

theorem names_treeOf (data : List UInt8) (nlink : Short) :
    names (treeOf data nlink) 2 = namesIn data 2 := by
  have hne : T_FILE ≠ T_DIR := by decide
  simp [names, treeOf, Finset.sum_range_succ, hne]

theorem resolve_treeOf (data : List UInt8) (nlink : Short) (name : List UInt8) :
    resolve (treeOf data nlink).node 1 [name] =
      ((entries data).find? fun e => e.Named name).map Dirent.inum := by
  rw [resolve_cons, child, lookup_inum]
  change (((entries data).find? fun e => e.Named name).map Dirent.inum).bind some = _
  cases (entries data).find? fun e => e.Named name with
  | none => rfl
  | some e => rfl

theorem names_fullTree : names fullTree 2 = 4478 := by
  have hin : namesIn fullDir 2 = 4478 := by
    have hall : ((List.range 4477).map fun k => Dirent.get (Dirent.bytes 2 (nameNo k))).countP
        (fun e => e.inum = 2) = 4477 := by
      rw [List.countP_eq_length.2, List.length_map, List.length_range]
      intro e he
      obtain ⟨k, -, rfl⟩ := List.mem_map.1 he
      exact decide_eq_true (get_bytes_inum (by decide) _)
    rw [namesIn, entries_fullDir, List.countP_cons, List.countP_cons, List.countP_cons, hall]
    decide
  rw [fullTree, names_treeOf, hin]

theorem lookup_fullDir : lookup fullDir [110, 101, 119] = none := by
  rw [lookup, Option.map_eq_none_iff, firstFrom_eq_none_iff]
  refine forall_fullDir (by decide) (by decide) (by decide) fun k hk => ?_
  have hname := congrArg List.length hk.2
  have hle : (nameOf (nameNo k)).length ≤ 2 :=
    (List.length_take_le' _ _).trans (List.takeWhile_sublist _).length_le
  rw [get_bytes_name] at hname
  have hthree : (nameOf [110, 101, 119]).length = 3 := by decide
  omega

theorem vacancy_fullDir : DESIZE * vacancy fullDir = MAXFILE * BSIZE := by
  have hnone : firstFrom fullDir Dirent.Free 0 = none := by
    rw [firstFrom_eq_none_iff]
    refine forall_fullDir (by decide) (by decide) (by decide) fun k hk => ?_
    rw [Dirent.Free, get_bytes_inum (by decide)] at hk
    exact absurd hk (by decide)
  rw [vacancy, hnone, Option.getD_none, length_fullDir]
  decide

theorem resolve_fullTree : resolve fullTree.node (startInum 0 fullTree (cstring [102]))
    (segments (cstring [102])) = some 2 := by
  refine (resolve_treeOf fullDir 4478 [102]).trans ?_
  rw [entries_fullDir]
  generalize (List.range 4477).map _ = l
  rfl

theorem run_fullTree : (sysLink (some [102]) (some [110, 101, 119])).run (inodeSem 0) fullTree =
    .error (.stop (.panic .dirlink)) := by
  have hwalk : walk fullTree.node true (startInum 0 fullTree (cstring [110, 101, 119]))
      (segments (cstring [110, 101, 119])) = some (1, [110, 101, 119]) := rfl
  have hacts : Acts 0 (fun e => e = .stop (.panic .dirlink)) (fun _ _ => False)
      (sysLink (some [102]) (some [110, 101, 119])) fullTree := by
    refine acts_sysLink atRest_fullTree rfl (Or.inr spare_treeOf) resolve_fullTree (by decide)
      (by decide) ⟨?_, ?_, ?_⟩
    · exact fun _ _ _ _ _ => rfl
    · intro hno
      exact absurd lookup_fullDir (hno 1 _ hwalk)
    · intro d name hw _ _ _ _ hlt
      cases hwalk.symm.trans hw
      rw [show (fullTree.node 1).data = fullDir from rfl, vacancy_fullDir] at hlt
      exact absurd hlt (lt_irrefl _)
  cases hr : (sysLink (some [102]) (some [110, 101, 119])).run (inodeSem 0) fullTree with
  | ok x => exact (wp_run_ok hacts hr).elim
  | error e => rw [wp_run_error hacts hr]

/-- In a full directory `sys_link` panics where it should return -1. -/
theorem full_directory_panics : AtRest 0 fullTree.refs [] fullTree ∧
    fullTree.core.owner = none ∧ Spare fullTree.refs fullTree.ninodes 3 ∧
    (fullTree.node 2).attrs.type = T_FILE ∧ nlinkOf fullTree 2 = names fullTree 2 ∧
    resolve fullTree.node (startInum 0 fullTree (cstring [102])) (segments (cstring [102])) =
      some 2 ∧
    (sysLink (some [102]) (some [110, 101, 119])).run (inodeSem 0) fullTree =
      .error (.stop (.panic .dirlink)) ∧
    ¬ LinksWell 0 2 [([102], [110, 101, 119])] fullTree := by
  refine ⟨atRest_fullTree, rfl, spare_treeOf, rfl, ?_, resolve_fullTree, run_fullTree, ?_⟩
  · rw [names_fullTree]
    decide
  · rintro ⟨-, r, t, hok, -⟩
    rw [run_fullTree] at hok
    cases hok

end Qwin.Sys
