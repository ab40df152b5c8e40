import Mathlib.Data.List.Find
import Qwin.Fs.Cache
import Qwin.Fs.Trunc

/-!
# The block level carries out the inode level

`Rep sb b s`: the block-level state `b` represents the inode-level state `s` on a disk
with superblock `sb`. The disk is in order for the addresses of the inodes in use, the
bytes of a node are the bytes of its file, and what the kernel holds in memory of a
loaded inode agrees with the disk. `run_refines` carries a run of the inode level down to the
block level, up to the stops that report the lack of a resource.
-/

namespace Qwin.Fs

open Prog
open Function (update update_of_ne update_self)

/-! ## The bytes of a file as a list -/

def FileIs (d : ℕ → Block) (e : Extent) (data : List UInt8) : Prop :=
  data.length = e.size ∧ ∀ o v, data[o]? = some v → byteAt d e.addrs o = some v

section FileIs

variable {d d' : ℕ → Block} {e e' : Extent} {data src : List UInt8} {off : ℕ}

theorem fileIs_contents (h : MappedRange d e.addrs 0 e.size) : FileIs d e (contents d e) := by
  refine ⟨length_bytesAt _ _ _ _, fun o v hv => ?_⟩
  have ho : o < e.size := by
    have := (List.getElem?_eq_some_iff.1 hv).1
    rwa [contents, length_bytesAt] at this
  have hb := byteAt_of_mapped (h o (Nat.zero_le o) (by omega))
  rw [contents, bytesAt, List.getElem?_map, List.getElem?_range ho, Option.map_some,
    Nat.zero_add, hb, Option.getD_some] at hv
  rw [hb, hv]

theorem FileIs.contents_eq (h : FileIs d e data) : contents d e = data := by
  apply List.ext_getElem?
  intro o
  rcases Nat.lt_or_ge o e.size with ho | ho
  · have hlt : o < data.length := h.1 ▸ ho
    have hb := h.2 o data[o] (List.getElem?_eq_getElem hlt)
    rw [contents, bytesAt, List.getElem?_map, List.getElem?_range ho, Option.map_some,
      Nat.zero_add, hb, Option.getD_some, List.getElem?_eq_getElem hlt]
  · rw [List.getElem?_eq_none (by rw [contents, length_bytesAt]; exact ho),
      List.getElem?_eq_none (by rw [h.1]; exact ho)]

theorem FileIs.mapped (h : FileIs d e data) : MappedRange d e.addrs 0 e.size := by
  intro o _ ho
  have hlt : o < data.length := by
    rw [h.1]
    omega
  exact mapped_of_byteAt (h.2 o data[o] (List.getElem?_eq_getElem hlt))

theorem FileIs.keep (h : FileIs d e data) (hsize : e'.size = e.size)
    (hbytes : ∀ o v, byteAt d e.addrs o = some v → byteAt d' e'.addrs o = some v) :
    FileIs d' e' data :=
  ⟨h.1.trans hsize.symm, fun o v hv => hbytes o v (h.2 o v hv)⟩

theorem fileIs_nil (d : ℕ → Block) (a : Fin 13 → ℕ) : FileIs d ⟨0, a⟩ [] :=
  ⟨rfl, fun o v hv => by rw [List.getElem?_nil] at hv; cases hv⟩

theorem FileIs.write (h : FileIs d e data) (hoff : off ≤ e.size)
    (hsize : e'.size = max e.size (off + src.length))
    (hbytes : ∀ o v, ¬ (off ≤ o ∧ o < off + src.length) → byteAt d e.addrs o = some v →
      byteAt d' e'.addrs o = some v)
    (hsrc : ∀ t v, src[t]? = some v → byteAt d' e'.addrs (off + t) = some v) :
    FileIs d' e' (splice data off src) := by
  have hoff' : off ≤ data.length := by
    rw [h.1]
    exact hoff
  refine ⟨by rw [length_splice hoff', h.1, hsize], fun o v hv => ?_⟩
  rcases Nat.lt_or_ge o off with ho | ho
  · rw [getElem?_splice_before ho hoff'] at hv
    exact hbytes o v (by omega) (h.2 o v hv)
  rcases Nat.lt_or_ge o (off + src.length) with ho' | ho'
  · rw [getElem?_splice_inside ho ho' hoff'] at hv
    have hb := hsrc (o - off) v hv
    rwa [Nat.add_sub_cancel' ho] at hb
  · rw [getElem?_splice_after ho' hoff'] at hv
    exact hbytes o v (by omega) (h.2 o v hv)

end FileIs

/-! ## Well-formed states -/

def diskExtent (d : ℕ → Block) (i : ℕ) : Extent := ⟨(dinode d i).size, (dinode d i).addrs⟩

def diskAddrs (sb : Superblock) (d : ℕ → Block) (i : ℕ) : Fin 13 → ℕ :=
  if i < sb.ninodes ∧ (dinode d i).type ≠ 0 then (dinode d i).addrs else fun _ => 0

/-- The disk is in order, files have no holes, and what the kernel holds of a loaded
inode is what the disk holds. -/
structure WellFormed (sb : Superblock) (b : BState) : Prop where
  order : InOrder sb (diskAddrs sb b.disk) b.disk
  held : b.held = []
  mapped : ∀ i, i < sb.ninodes → (dinode b.disk i).type ≠ 0 →
    MappedRange b.disk (diskExtent b.disk i).addrs 0 (diskExtent b.disk i).size
  size_le : ∀ i, i < sb.ninodes → (dinode b.disk i).type ≠ 0 →
    (dinode b.disk i).size ≤ MAXFILE * BSIZE
  cache : CacheInOrder b.core
  loaded : ∀ q, 0 < (b.core.inode q).ref → (b.core.inode q).valid = true →
    (b.core.inode q).inum < sb.ninodes ∧
      b.extent q = diskExtent b.disk (b.core.inode q).inum

/-- The block-level state `b` represents the inode-level state `s`. -/
structure Rep (sb : Superblock) (b : BState) (s : IState) : Prop extends WellFormed sb b where
  core : b.core = s.core
  ninodes : s.ninodes = sb.ninodes
  attrs : ∀ i, i < sb.ninodes → (s.node i).attrs = (dinode b.disk i).attrs
  file : ∀ i, i < sb.ninodes → (s.node i).attrs.type ≠ 0 →
    FileIs b.disk (diskExtent b.disk i) (s.node i).data

/-- The inode-level state a block-level state represents. -/
def abstraction (sb : Superblock) (b : BState) : IState where
  core := b.core
  node i := ⟨(dinode b.disk i).attrs, contents b.disk (diskExtent b.disk i)⟩
  ninodes := sb.ninodes

theorem abstraction_node (sb : Superblock) (b : BState) (i : ℕ) :
    (abstraction sb b).node i =
      ⟨(dinode b.disk i).attrs, contents b.disk (diskExtent b.disk i)⟩ := rfl

theorem WellFormed.rep {sb : Superblock} {b : BState} (h : WellFormed sb b) :
    Rep sb b (abstraction sb b) := by
  refine ⟨h, rfl, rfl, fun _ _ => rfl, fun i hi ht => ?_⟩
  rw [abstraction_node] at ht ⊢
  dsimp only
  exact fileIs_contents (h.mapped i hi ht)

variable {p : ℕ} {E : End BState → Prop} {sb : Superblock} {b b' : BState} {s : IState}
  {ip i : ℕ}

theorem diskAddrs_of_used {d : ℕ → Block} (hi : i < sb.ninodes) (ht : (dinode d i).type ≠ 0) :
    diskAddrs sb d i = (dinode d i).addrs := if_pos ⟨hi, ht⟩

theorem diskAddrs_of_free {d : ℕ → Block} (ht : (dinode d i).type = 0) :
    diskAddrs sb d i = fun _ => 0 := if_neg fun h => h.2 ht

theorem diskAddrs_congr {d d' : ℕ → Block}
    (h : i < sb.ninodes → dinode d' i = dinode d i) : diskAddrs sb d' i = diskAddrs sb d i := by
  unfold diskAddrs
  by_cases hi : i < sb.ninodes
  · rw [h hi]
  · rw [if_neg fun hc => hi hc.1, if_neg fun hc => hi hc.1]

namespace Rep

theorem type_eq (hR : Rep sb b s) (hi : i < sb.ninodes) :
    (dinode b.disk i).type = (s.node i).attrs.type :=
  (congrArg Attrs.type (hR.attrs i hi)).symm

theorem inum_eq (hR : Rep sb b s) (ip : ℕ) : (b.core.inode ip).inum = s.inum ip := by
  rw [hR.core]
  rfl

/-- One inode was changed on the disk, and no other file. -/
theorem change (hR : Rep sb b s) (hi : i < sb.ninodes) (b' : BState) {x : Node}
    (horder : InOrder sb (update (diskAddrs sb b.disk) i (diskAddrs sb b'.disk i)) b'.disk)
    (hheld : b'.held = []) (hcache : CacheInOrder b'.core)
    (hdin : ∀ j, j < sb.ninodes → j ≠ i → dinode b'.disk j = dinode b.disk j)
    (hkeep : ∀ j, j ≠ i → ∀ o v, byteAt b.disk (diskAddrs sb b.disk j) o = some v →
      byteAt b'.disk (diskAddrs sb b.disk j) o = some v)
    (hattrs : x.attrs = (dinode b'.disk i).attrs)
    (hfile : x.attrs.type ≠ 0 → FileIs b'.disk (diskExtent b'.disk i) x.data)
    (hsize : x.attrs.type ≠ 0 → (dinode b'.disk i).size ≤ MAXFILE * BSIZE)
    (hloaded : ∀ q, 0 < (b'.core.inode q).ref → (b'.core.inode q).valid = true →
      (b'.core.inode q).inum < sb.ninodes ∧
        b'.extent q = diskExtent b'.disk (b'.core.inode q).inum) :
    Rep sb b' ⟨b'.core, update s.node i x, s.ninodes⟩ := by
  have hA : diskAddrs sb b'.disk = update (diskAddrs sb b.disk) i (diskAddrs sb b'.disk i) := by
    funext j
    by_cases hj : j = i
    · rw [hj, update_self]
    · rw [update_of_ne hj]
      exact diskAddrs_congr fun hlt => hdin j hlt hj
  have hfiles : ∀ j, j < sb.ninodes → (update s.node i x j).attrs.type ≠ 0 →
      FileIs b'.disk (diskExtent b'.disk j) (update s.node i x j).data := by
    intro j hj ht
    by_cases hji : j = i
    · subst hji
      rw [update_self] at ht ⊢
      exact hfile ht
    · rw [update_of_ne hji] at ht ⊢
      have hold := hR.file j hj ht
      rw [diskExtent, hdin j hj hji]
      refine hold.keep rfl fun o v hv => ?_
      have hk := hkeep j hji o v
      rw [diskAddrs_of_used hj (by rw [hR.type_eq hj]; exact ht)] at hk
      exact hk hv
  have hall : ∀ j, j < sb.ninodes → (update s.node i x j).attrs = (dinode b'.disk j).attrs := by
    intro j hj
    by_cases hji : j = i
    · rw [hji, update_self, hattrs]
    · rw [update_of_ne hji, hR.attrs j hj, hdin j hj hji]
  refine ⟨⟨hA ▸ horder, hheld, fun j hj ht => ?_, fun j hj ht => ?_, hcache, hloaded⟩, rfl,
    hR.ninodes, hall, hfiles⟩
  · refine (hfiles j hj ?_).mapped
    rw [hall j hj]
    exact ht
  · by_cases hji : j = i
    · subst hji
      exact hsize (hattrs ▸ ht)
    · rw [hdin j hj hji] at ht ⊢
      exact hR.size_le j hj ht

section Loaded

variable (hR : Rep sb b s) (hip : s.Loaded ip)

include hR hip

theorem inum_lt : s.inum ip < sb.ninodes := hR.ninodes ▸ hip.1.2

theorem type_ne : (dinode b.disk (s.inum ip)).type ≠ 0 := by
  rw [hR.type_eq (hR.inum_lt hip)]
  exact hip.2.2

theorem extent_eq : b.extent ip = diskExtent b.disk (s.inum ip) := by
  have href : 0 < (b.core.inode ip).ref := by
    rw [hR.core]
    exact hip.1.1
  have hvalid : (b.core.inode ip).valid = true := by
    rw [hR.core]
    exact hip.2.1
  rw [(hR.loaded ip href hvalid).2, hR.inum_eq ip]

theorem fileIs : FileIs b.disk (b.extent ip) (s.node (s.inum ip)).data := by
  rw [hR.extent_eq hip]
  exact hR.file _ (hR.inum_lt hip) hip.2.2

theorem extent_size_le : (b.extent ip).size ≤ MAXFILE * BSIZE := by
  rw [hR.extent_eq hip]
  exact hR.size_le _ (hR.inum_lt hip) (hR.type_ne hip)

/-- The kernel's copy of the addresses is the one on the disk. -/
theorem view_eq : view (diskAddrs sb b.disk) (s.inum ip) ip b = diskAddrs sb b.disk := by
  rw [view, Function.update_eq_self_iff,
    diskAddrs_of_used (hR.inum_lt hip) (hR.type_ne hip), hR.extent_eq hip]
  rfl

theorem order_view : InOrder sb (view (diskAddrs sb b.disk) (s.inum ip) ip b) b.disk := by
  rw [hR.view_eq hip]
  exact hR.order

theorem inum_ne {q : ℕ} (hq : 0 < (b.core.inode q).ref) (hne : q ≠ ip) :
    (b.core.inode q).inum ≠ s.inum ip := by
  intro he
  have href : 0 < (b.core.inode ip).ref := by
    rw [hR.core]
    exact hip.1.1
  exact hne (hR.cache.unique q ip hq href (by rw [he, hR.inum_eq ip]))

/-- One loaded inode was changed, in memory and on the disk, and no other file. -/
theorem changeLoaded (b' : BState) {x : Node} (hret : Retains b.core b'.core)
    (horder : InOrder sb (view (diskAddrs sb b.disk) (s.inum ip) ip b') b'.disk)
    (hheld : b'.held = []) (hext : ∀ q, q ≠ ip → b'.extent q = b.extent q)
    (hself : b'.extent ip = diskExtent b'.disk (s.inum ip))
    (hdin : ∀ j, j < sb.ninodes → j ≠ s.inum ip → dinode b'.disk j = dinode b.disk j)
    (hkeep : ∀ j, j ≠ s.inum ip → ∀ o v, byteAt b.disk (diskAddrs sb b.disk j) o = some v →
      byteAt b'.disk (diskAddrs sb b.disk j) o = some v)
    (hfree : (dinode b'.disk (s.inum ip)).type = 0 → (b'.extent ip).addrs = fun _ => 0)
    (hattrs : x.attrs = (dinode b'.disk (s.inum ip)).attrs)
    (hfile : x.attrs.type ≠ 0 → FileIs b'.disk (b'.extent ip) x.data)
    (hsize : x.attrs.type ≠ 0 → (b'.extent ip).size ≤ MAXFILE * BSIZE) :
    Rep sb b' ⟨b'.core, update s.node (s.inum ip) x, s.ninodes⟩ := by
  have haddrs : diskAddrs sb b'.disk (s.inum ip) = (b'.extent ip).addrs := by
    by_cases ht : (dinode b'.disk (s.inum ip)).type = 0
    · rw [diskAddrs_of_free ht, hfree ht]
    · rw [diskAddrs_of_used (hR.inum_lt hip) ht, hself]
      rfl
  refine hR.change (hR.inum_lt hip) b' (haddrs ▸ horder) hheld hret.cache hdin hkeep hattrs
    (hself ▸ hfile) (fun ht => ?_) fun q hq hv => ?_
  · have := hsize ht
    rwa [hself] at this
  · obtain ⟨hq1, hv1, hnum⟩ := hret.loaded q hq hv
    obtain ⟨hlt, he⟩ := hR.loaded q hq1 hv1
    rw [hnum]
    refine ⟨hlt, ?_⟩
    by_cases hqi : q = ip
    · rw [hqi, hself, hR.inum_eq ip]
    · rw [hext q hqi, he, diskExtent, diskExtent, hdin _ hlt (hR.inum_ne hip hq1 hqi)]

end Loaded

end Rep

theorem dinodeOf_eq {x : Inode} {d : Dinode} (h : x.attrs = d.attrs) :
    dinodeOf x ⟨d.size, d.addrs⟩ = d := by
  obtain ⟨_, _, _, _, _, _⟩ := d
  simp only [Inode.attrs, Dinode.attrs, Attrs.mk.injEq] at h
  obtain ⟨rfl, rfl, rfl, rfl⟩ := h
  rfl

section

variable (hR : Rep sb b s) (hip : s.Loaded ip)
  (hclean : (s.core.inode ip).attrs = (s.node (s.inum ip)).attrs)
include hR hip hclean

theorem Rep.dinode_eq : dinode b.disk (s.inum ip) = dinodeOf (b.core.inode ip) (b.extent ip) := by
  rw [hR.core, hR.extent_eq hip, diskExtent,
    dinodeOf_eq (hclean.trans (hR.attrs _ (hR.inum_lt hip)))]

theorem Rep.written {off : ℕ}
    {src : List UInt8} (hoff : off ≤ (b.extent ip).size) (hmax : off + src.length ≤ MAXFILE * BSIZE)
    (W : Written sb (diskAddrs sb b.disk) (s.inum ip) ip off src b b') :
    Rep sb b' (s.setNode (s.inum ip)
      { s.node (s.inum ip) with data := splice (s.node (s.inum ip)).data off src }) := by
  have hcoh := W.coherent (hR.dinode_eq hip hclean)
  have hattrs : (s.node (s.inum ip)).attrs = (dinode b'.disk (s.inum ip)).attrs := by
    rw [hcoh, W.core, hR.core, ← hclean]
    rfl
  have hchange := hR.changeLoaded hip b' (x := ⟨(s.node (s.inum ip)).attrs,
    splice (s.node (s.inum ip)).data off src⟩) (by rw [W.core]; exact .refl hR.cache)
    W.order (W.held.trans hR.held) W.extent_of_ne ?_ W.dinodes ?_ ?_ hattrs ?_ ?_
  · rw [W.core, hR.core] at hchange
    exact hchange
  · rw [diskExtent, hcoh]
    rfl
  · intro j hj o v hv
    have hbytes := W.bytes j o v fun he => absurd he hj
    rw [view_of_ne hj, view_of_ne hj] at hbytes
    exact hbytes hv
  · intro h0
    exact absurd ((congrArg Attrs.type hattrs).trans h0) hip.2.2
  · intro _
    refine (hR.fileIs hip).write hoff W.size ?_ W.data
    intro o v ho hv
    have hbytes := W.bytes (s.inum ip) o v fun _ => ho
    rw [view_self, view_self] at hbytes
    exact hbytes hv
  · intro _
    rw [W.size]
    have := hR.extent_size_le hip
    omega

end

section

variable (hR : Rep sb b s)
include hR

/-- The inode of a loaded entry is written to the disk, after changes to it and to its file. -/
theorem Rep.flushed (hip : s.Loaded ip) (data : List UInt8)
    (hret : Retains b.core b'.core) (hnum : (b'.core.inode ip).inum = s.inum ip)
    (horder : InOrder sb (view (diskAddrs sb b.disk) (s.inum ip) ip b') b'.disk)
    (hheld : b'.held = []) (hext : ∀ q, q ≠ ip → b'.extent q = b.extent q)
    (hdin : ∀ j, j < sb.ninodes → j ≠ s.inum ip → dinode b'.disk j = dinode b.disk j)
    (hkeep : ∀ j, j ≠ s.inum ip →
      Keeps b.disk (diskAddrs sb b.disk j) b'.disk (diskAddrs sb b.disk j))
    (hfits : (dinodeOf (b'.core.inode ip) (b'.extent ip)).Fits)
    (hfree : (b'.core.inode ip).type = 0 → (b'.extent ip).addrs = fun _ => 0)
    (hfile : (b'.core.inode ip).type ≠ 0 → FileIs b'.disk (b'.extent ip) data)
    (hsize : (b'.core.inode ip).type ≠ 0 → (b'.extent ip).size ≤ MAXFILE * BSIZE) :
    Rep sb (b'.flush ip)
      ⟨b'.core, update s.node (s.inum ip) ⟨(b'.core.inode ip).attrs, data⟩, s.ninodes⟩ := by
  have hi := hR.inum_lt hip
  have hdisk := flush_disk b' ip
  rw [hnum] at hdisk
  have hself : dinode (b'.flush ip).disk (s.inum ip) =
      dinodeOf (b'.core.inode ip) (b'.extent ip) := by
    rw [hdisk, dinode_setDinode _ hfits, if_pos rfl]
  have hagrees := horder.agrees_iblock hi (Dinode.put (b'.disk (iblock (s.inum ip)))
    (s.inum ip % IPB) (dinodeOf (b'.core.inode ip) (b'.extent ip)))
  refine hR.changeLoaded hip (b'.flush ip) hret ?_ hheld hext ?_ ?_ ?_ ?_ ?_ ?_ hsize
  · rw [hdisk]
    exact horder.update_iblock _ hi
  · rw [diskExtent, hself]
    rfl
  · intro j hj hne
    rw [hdisk, dinode_setDinode _ hfits, if_neg hne]
    exact hdin j hj hne
  · intro j hne o v hv
    have h := hagrees j
    rw [view_of_ne hne] at h
    rw [hdisk]
    exact (Keeps.of_agrees h).byteAt ((hkeep j hne).byteAt hv)
  · rw [hself]
    exact hfree
  · rw [hself]
    rfl
  · intro ht
    refine (hfile ht).keep rfl fun o v hv => ?_
    have h := hagrees (s.inum ip)
    rw [view_self] at h
    rw [hdisk]
    exact (Keeps.of_agrees h).byteAt hv

theorem Rep.freeInode_eq : freeInode sb b.disk = s.freeNode := by
  unfold freeInode IState.freeNode
  rw [hR.ninodes]
  apply List.find?_congr
  intro i hi
  rw [List.mem_range'_1] at hi
  rw [hR.type_eq (by omega)]

theorem Rep.ialloc (hi : i < sb.ninodes) (hfree : (dinode b.disk i).type = 0)
    {type : Short} (ht : type ≠ 0) (huse : ¬ s.InUse i) :
    Rep sb (b.ialloc i type) (s.setNode i ⟨⟨type, 0, 0, 0⟩, []⟩) := by
  have hdin : ∀ j, dinode (b.ialloc i type).disk j =
      if j = i then freshDinode type else dinode b.disk j := by
    intro j
    rw [ialloc_disk, dinode_setDinode _ (freshDinode_fits type)]
  have hself : dinode (b.ialloc i type).disk i = freshDinode type := by rw [hdin, if_pos rfl]
  have haddrs : diskAddrs sb (b.ialloc i type).disk i = diskAddrs sb b.disk i := by
    rw [diskAddrs_of_used hi (by rw [hself]; exact ht), diskAddrs_of_free hfree, hself]
    rfl
  have hchange := hR.change hi (b.ialloc i type) (x := ⟨⟨type, 0, 0, 0⟩, []⟩) ?_ hR.held hR.cache
    (fun j _ hj => by rw [hdin, if_neg hj]) ?_ (by rw [hself]; rfl) ?_ ?_ ?_
  · rw [IState.setNode, ← hR.core]
    exact hchange
  · rw [haddrs, Function.update_eq_self]
    exact hR.order.update_iblock _ hi
  · intro j _ o v hv
    exact (Keeps.of_agrees (hR.order.agrees_iblock hi _ j)).byteAt hv
  · rw [diskExtent, hself]
    exact fun _ => fileIs_nil _ _
  · rw [hself]
    exact fun _ => Nat.zero_le _
  · intro q hq hv
    obtain ⟨hlt, he⟩ := hR.loaded q hq hv
    have hne : (b.core.inode q).inum ≠ i := by
      intro hqi
      have hcore : (b.ialloc i type).core = s.core := hR.core
      rw [hR.core] at hqi
      exact huse ⟨q, hR.cache.lt q hq, hcore ▸ hq, hcore ▸ hv, hqi⟩
    refine ⟨hlt, ?_⟩
    change b.extent q = diskExtent _ (b.core.inode q).inum
    rw [he, diskExtent, diskExtent, hdin, if_neg hne]

/-- The state `ilock` leaves when it has read an inode. -/
theorem Rep.load (hip : s.Cached ip) {x : Inode}
    (hx : x = { (b.load ip).core.inode ip with valid := true }) :
    Rep sb { b.load ip with core := (b.load ip).core.setInode ip x } (s.setInode ip
        { (s.core.inode ip).setAttrs (s.node (s.inum ip)).attrs with valid := true }) := by
  have hi : s.inum ip < sb.ninodes := hR.ninodes ▸ hip.2
  have hcore : (b.load ip).core.setInode ip x = s.core.setInode ip
        { (s.core.inode ip).setAttrs (s.node (s.inum ip)).attrs with valid := true } := by
    rw [hx, hR.attrs _ hi, BState.load, Core.setInode_setInode]
    dsimp only
    rw [Core.setInode_inode_self, hR.inum_eq ip, hR.core]
    rfl
  rw [hcore]
  have hcache := hR.cache
  rw [hR.core] at hcache
  refine ⟨⟨hR.order, hR.held, hR.mapped, hR.size_le, hcache.setInode fun h => ⟨h, rfl, rfl⟩,
    ?_⟩, rfl, hR.ninodes, hR.attrs, hR.file⟩
  intro q hq hv
  dsimp only at hq hv ⊢
  by_cases hqi : q = ip
  · subst hqi
    rw [Core.setInode_inode_self]
    refine ⟨hi, ?_⟩
    change update b.extent q _ q = _
    rw [update_self, hR.inum_eq q]
    rfl
  · rw [Core.setInode_inode_of_ne hqi] at hq hv ⊢
    rw [← hR.core] at hq hv ⊢
    change _ ∧ update b.extent ip _ q = _
    rw [update_of_ne hqi]
    exact hR.loaded q hq hv

end

/-! ## One step -/

/-- The stops that report the lack of a resource are allowed. -/
structure Lenient (E : End BState → Prop) : Prop where
  tolerant : Tolerant E
  outOfBlocks : E (.stop (.panic .ballocOutOfBlocks))

/-- The answer is `r`, and the state reached represents `s'`. -/
def Refined {β : Type} (sb : Superblock) (b : BState) (r : β) (s' : IState) :
    β → BState → Prop :=
  fun r' b' => r' = r ∧ Rep sb b' s' ∧ (LogReserved sb b.disk → LogReserved sb b'.disk)

/-- A step that the inode level answers is answered the same by the block level. -/
theorem Runs.answered {β : Type} {c : BProg β} {r : β} {s' : IState}
    {x : Except (End IState) (β × IState)} (h : Runs p E (Refined sb b r s') c b)
    (hx : x = .ok (r, s')) :
    Runs p E (fun r b' => ∃ s', x = .ok (r, s') ∧ Refined sb b r s' r b') c b := by
  refine wp_conseq h ?_
  rintro _ b' ⟨rfl, hrep⟩
  exact ⟨s', hx, rfl, hrep⟩

theorem Lenient.supply (hE : Lenient E) (sb : Superblock) (ip : ℕ) (bns : List ℕ) (st : BState) :
    Supply E sb ip ∅ bns st :=
  ⟨Or.inl hE.outOfBlocks, Or.inl hE.tolerant, fun _ _ => Or.inl hE.tolerant⟩

theorem refines_size (hR : Rep sb b s) (hip : s.Loaded ip) :
    Runs p E (Refined sb b (s.node (s.inum ip)).data.length s)
      (onBlocks _ (.right (.size ip))) b := by
  rw [onBlocks, Runs, wp_bind]
  refine runs_getExtent (wp_pure ⟨?_, hR, id⟩)
  exact (hR.fileIs hip).1.symm

section Steps

variable (hE : Lenient E) (hR : Rep sb b s)

include hE hR

section

variable (hip : s.Loaded ip)
include hip

theorem refines_readi {off n : ℕ} (hoff : off < 2 ^ 32) (hn : n < 2 ^ 32) :
    Runs p E (Refined sb b
        (if (s.node (s.inum ip)).data.length < off ∨ (off + n) % 2 ^ 32 < off then none
          else some (((s.node (s.inum ip)).data.drop off).take n)) s)
      (onBlocks _ (.right (.readi ip off n))) b := by
  have hfile := hR.fileIs hip
  rw [onBlocks, hfile.1]
  refine runs_readi hR.held (Or.inl hE.tolerant.2.1) off n (hR.extent_size_le hip) hfile.mapped
    ?_ ?_ hoff hn
  · intro hbad
    rw [if_pos hbad]
    exact ⟨rfl, hR, id⟩
  · intro hgood
    rw [if_neg hgood, hfile.contents_eq]
    exact ⟨rfl, hR, id⟩

theorem refines_writei (hclean : (s.core.inode ip).attrs = (s.node (s.inum ip)).attrs) {off : ℕ}
    {src : List UInt8} (hoff : off < 2 ^ 32) (hn : src.length < 2 ^ 32)
    (hlog : E .assumed ∨ LogReserved sb b.disk) :
    Runs p E (Refined sb b
        (if (s.node (s.inum ip)).data.length < off ∨ (off + src.length) % 2 ^ 32 < off ∨
          MAXFILE * BSIZE < (off + src.length) % 2 ^ 32 then none else some src.length)
        (if (s.node (s.inum ip)).data.length < off ∨ (off + src.length) % 2 ^ 32 < off ∨
          MAXFILE * BSIZE < (off + src.length) % 2 ^ 32 then s
        else s.setNode (s.inum ip)
          { s.node (s.inum ip) with data := splice (s.node (s.inum ip)).data off src }))
      (onBlocks _ (.right (.writei ip off src))) b := by
  have hfile := hR.fileIs hip
  have hi := hR.inum_lt hip
  rw [onBlocks, hfile.1]
  refine runs_writei passes_supply off src (hR.order_view hip) hlog hR.held (hR.inum_eq ip) hi
    (hE.supply sb ip _ b) (fun _ _ _ _ => Or.inl hE.tolerant) hfile.mapped hoff hn ?_ ?_
  · intro hbad
    rw [if_pos hbad, if_pos hbad]
    exact ⟨rfl, hR, id⟩
  · intro hgood b' W
    rw [if_neg hgood, if_neg hgood]
    have hmod : (off + src.length) % 2 ^ 32 = off + src.length :=
      (wraps_or_eq hoff hn).resolve_left fun hw => hgood (Or.inr (Or.inl hw))
    rw [hmod] at hgood
    exact ⟨rfl, hR.written hip hclean (by omega) (by omega) W, W.logRes⟩

theorem refines_iupdate (ht : (s.core.inode ip).type ≠ 0) :
    Runs p E (Refined sb b () (s.setNode (s.inum ip)
        { s.node (s.inum ip) with attrs := (s.core.inode ip).attrs }))
      (onBlocks _ (.right (.iupdate ip))) b := by
  have hi := hR.inum_lt hip
  have hfits : (dinodeOf (b.core.inode ip) (b.extent ip)).Fits := by
    rw [hR.extent_eq hip]
    refine ⟨lt_of_le_of_lt (hR.size_le _ hi (hR.type_ne hip)) (by decide), fun k => ?_⟩
    have := hR.order.addrs_lt (s.inum ip) k
    rw [diskAddrs_of_used hi (hR.type_ne hip)] at this
    exact this
  have hflush := hR.flushed hip _ (.refl hR.cache) (hR.inum_eq ip) (hR.order_view hip) hR.held
    (fun _ _ => rfl) (fun _ _ _ => rfl) (fun _ _ => .refl _ _) hfits
    (fun h0 => absurd (hR.core ▸ h0) ht) (fun _ => hR.fileIs hip) fun _ => hR.extent_size_le hip
  rw [hR.core] at hflush
  rw [onBlocks]
  refine runs_iupdate hR.held (Or.inl hE.tolerant) ⟨rfl, hflush, fun hlog => ?_⟩
  rw [flush_disk, hR.inum_eq ip]
  exact hlog.update _ fun _ _ => Nat.ne_of_gt (iblock_lt_bblock hi)

theorem refines_free :
    Runs p E (Refined sb b () ((s.setNode (s.inum ip)
        ⟨{ (s.core.inode ip).attrs with type := 0 }, []⟩).setInode ip
          { s.core.inode ip with type := 0 }))
      (onBlocks _ (.right (.free ip))) b := by
  have hi := hR.inum_lt hip
  rw [onBlocks, Runs, wp_bind]
  refine runs_itrunc hE.tolerant (hR.order_view hip) hR.held (hR.inum_eq ip) hi ?_
  intro b1 T
  rw [wp_bind]
  refine runs_assign ?_
  refine runs_iupdate (T.held.trans hR.held) (Or.inl hE.tolerant) ?_
  rw [T.core, hR.core]
  obtain ⟨c, hc⟩ : ∃ c, c = s.core.setInode ip ((s.core.inode ip).assign (.type 0)) := ⟨_, rfl⟩
  rw [← hc]
  have hinode : c.inode ip = { s.core.inode ip with type := 0 } := by
    rw [hc]
    exact Core.setInode_inode_self ..
  have hret : Retains b.core c := by
    have hcache := hR.cache
    rw [hR.core] at hcache ⊢
    rw [hc]
    exact retains_setInode hcache (fun h => ⟨h, rfl, rfl⟩) fun _ h => h
  have hextip : b1.extent ip = ⟨0, fun _ => 0⟩ := (congrFun T.extent ip).trans (update_self ..)
  have hflush : Rep sb (BState.flush { b1 with core := c } ip) _ :=
    hR.flushed hip [] hret (by rw [hinode]; rfl) T.order (T.held.trans hR.held)
      (fun q hq => (congrFun T.extent q).trans (update_of_ne hq _ _)) T.dinodes T.keeps
      (by rw [hextip]; exact ⟨Nat.two_pow_pos 32, fun _ => Nat.two_pow_pos 32⟩)
      (by rw [hextip]; exact fun _ => rfl) (by rw [hinode]; exact fun h => absurd rfl h)
      (by rw [hinode]; exact fun h => absurd rfl h)
  dsimp only at hflush
  rw [hinode] at hflush
  refine ⟨rfl, ?_, fun hlog => ?_⟩
  · subst hc
    exact hflush
  · rw [flush_disk, hinode]
    exact (T.logRes hlog).update _ fun _ _ => Nat.ne_of_gt (iblock_lt_bblock hi)

end

theorem refines_ialloc {type : Short}
    (hnone : s.freeNode = none → E (.stop (.panic .iallocNoInodes)))
    (huse : ∀ i, s.freeNode = some i → ¬ (s.InUse i ∨ type = 0)) :
    Runs p E (fun i b' => s.freeNode = some i ∧
        Refined sb b i (s.setNode i ⟨⟨type, 0, 0, 0⟩, []⟩) i b')
      (onBlocks _ (.right (.ialloc type))) b := by
  rw [onBlocks]
  refine runs_iallocInum hR.order.super hR.held (fun _ => Or.inl hE.tolerant) ?_ ?_
  · rw [hR.freeInode_eq]
    exact hnone
  · intro i hfree
    obtain ⟨-, hi, hzero⟩ := freeInode_eq_some hfree
    rw [hR.freeInode_eq] at hfree
    obtain ⟨hu, ht⟩ := not_or.1 (huse i hfree)
    refine ⟨hfree, rfl, hR.ialloc hi hzero ht hu, fun hlog => ?_⟩
    exact hlog.update _ fun _ _ => Nat.ne_of_gt (iblock_lt_bblock hi)

theorem refines_load (hip : s.Cached ip) :
    Runs p E (Refined sb b () (s.setInode ip
        { (s.core.inode ip).setAttrs (s.node (s.inum ip)).attrs with valid := true }))
      (onBlocks _ (.right (.load ip))) b := by
  rw [onBlocks, Runs, wp_bind]
  refine runs_loadInode hR.held (Or.inl hE.tolerant.2.1) ?_
  refine wp_last (r := ()) trivial rfl ⟨rfl, ?_, id⟩
  exact hR.load hip rfl

end Steps

section Core

variable {β : Type} {a : CoreAct β} (hR : Rep sb b s)

include hR

theorem refines_core {r : β} {c : Core} (hm : a.Meant s.core)
    (hx : s.core.exec p a = .ok (r, c)) :
    Runs p E (Refined sb b r { s with core := c }) (onBlocks _ (.left a)) b := by
  rw [onBlocks]
  have hexec : execCore p a b = .ok (r, { b with core := c, logged := a.logged b.logged }) := by
    rw [execCore, hR.core, hx]
  refine wp_last (r := r) trivial ((Sem.assume_exec rfl).trans hexec) ⟨rfl, ?_, id⟩
  have hcache := hR.cache
  rw [hR.core] at hcache
  have hret := retains_exec hcache hm hx
  refine ⟨⟨hR.order, hR.held, hR.mapped, hR.size_le, hret.cache, ?_⟩, rfl, hR.ninodes,
    hR.attrs, hR.file⟩
  intro q hq hv
  obtain ⟨h1, h2, h3⟩ := hret.loaded q hq hv
  rw [← hR.core] at h1 h2 h3
  dsimp only
  rw [h3]
  exact hR.loaded q h1 h2

theorem refines_core_error {Q : β → BState → Prop} {e : Stop}
    (hx : s.core.exec p a = .error e) (h : E (.of b e)) : Runs p E Q (onBlocks _ (.left a)) b := by
  rw [onBlocks]
  have hexec : execCore p a b = .error (.of b e) := by rw [execCore, hR.core, hx]
  exact wp_stop trivial ((Sem.assume_exec rfl).trans hexec) h

end Core

/-! ## Whole programs -/

/-- A step within the domain of the inode level is answered the same by the block level, and
stops on both levels or on none, unless a resource runs out. -/
theorem refines_step (hE : Lenient E) (hR : Rep sb b s)
    (hlog : E .assumed ∨ LogReserved sb b.disk) {β : Type} (a : Plus CoreAct DiskAct β)
    (hdom : (inodeSem p).exec a s ≠ .error .assumed)
    (hstop : ∀ q, (inodeSem p).exec a s = .error (.stop q) → E (.stop q))
    (hexit : (inodeSem p).exec a s = .error (.exited s) → E (.exited b)) :
    Runs p E (fun r b' => ∃ s', (inodeSem p).exec a s = .ok (r, s') ∧ Refined sb b r s' r b')
      (onBlocks _ a) b := by
  -- an action outside of its domain ends with `assumed`
  cases a with
  | left a =>
    have hm : a.Meant s.core := by_contra fun h => hdom (if_neg h)
    dsimp only [inodeSem] at hstop hexit ⊢
    rw [if_pos hm] at hstop hexit ⊢
    cases hc : s.core.exec p a with
    | error q =>
      rw [hc] at hstop hexit
      refine refines_core_error hR hc ?_
      cases q with
      | exit => exact hexit rfl
      | sleep | fault | panic => exact hstop _ rfl
    | ok x => exact (refines_core hR hm hc).answered rfl
  | right a =>
    cases a with
    | load ip =>
      have h : s.Cached ip := by_contra fun h => hdom (if_neg h)
      exact (refines_load hE hR h).answered (if_pos h)
    | iupdate ip =>
      have h : s.Loaded ip ∧ (s.core.inode ip).type ≠ 0 := by_contra fun h => hdom (if_neg h)
      exact (refines_iupdate hE hR h.1 h.2).answered (if_pos h)
    | free ip =>
      have h : s.Loaded ip := by_contra fun h => hdom (if_neg h)
      exact (refines_free hE hR h).answered (if_pos h)
    | ialloc type =>
      dsimp only [inodeSem, execDisk] at hdom hstop ⊢
      have huse : ∀ i, s.freeNode = some i → ¬ (s.InUse i ∨ type = 0) := by
        intro i hi h
        rw [hi] at hdom
        exact hdom (if_pos h)
      refine wp_conseq (refines_ialloc hE hR (fun h0 => hstop _ (by rw [h0])) huse) ?_
      rintro i b' ⟨hi, h⟩
      exact ⟨_, by rw [hi]; exact if_neg (huse i hi), h⟩
    | size ip =>
      have h : s.Loaded ip := by_contra fun h => hdom (if_neg h)
      exact (refines_size hR h).answered (if_pos h)
    | readi ip off n =>
      have h : s.Loaded ip ∧ off < 2 ^ 32 ∧ n < 2 ^ 32 := by_contra fun h => hdom (if_neg h)
      refine (refines_readi hE hR h.1 h.2.1 h.2.2).answered ((if_pos h).trans ?_)
      split <;> rfl
    | writei ip off src =>
      have h : s.Loaded ip ∧ (s.core.inode ip).attrs = (s.node (s.inum ip)).attrs ∧
          off < 2 ^ 32 ∧ src.length < 2 ^ 32 := by_contra fun h => hdom (if_neg h)
      refine (refines_writei hE hR h.1 h.2.1 h.2.2.1 h.2.2.2 hlog).answered ((if_pos h).trans ?_)
      split <;> rfl

/-- The block level may stop like this where the inode level goes on. -/
def scarce : List Panic :=
  [.tooBigTransaction, .bgetNoBuffers, .writeOutsideTrans, .ballocOutOfBlocks]

/-- Two runs end alike, and in states of which one represents the other. -/
def EndAlike {α : Type} (sb : Superblock) :
    Except (End IState) (α × IState) → Except (End BState) (α × BState) → Prop
  | .ok (r, s), .ok (r', b) => r' = r ∧ Rep sb b s
  | .error (.stop q), .error (.stop q') => q' = q
  | .error (.exited s), .error (.exited b) => Rep sb b s
  | _, _ => False

theorem run_refines_below {α : Type} (p : ℕ) (c : IProg α) (hR : Rep sb b s)
    (hdom : c.run (inodeSem p) s ≠ .error .assumed) {x : Except (End BState) (α × BState)}
    (hx : c.blocks.run ((blockSem p).assume belowLog .assumed) b = x) :
    EndAlike sb (c.run (inodeSem p) s) x ∨ (∃ q ∈ scarce, x = .error (.stop (.panic q))) ∨
      ¬ LogReserved sb b.disk ∧ x = .error .assumed := by
  induction c generalizing b s with
  | ret r => exact .inl (hx ▸ ⟨rfl, hR⟩)
  | act a k ih =>
    rw [IProg.blocks, handle_act, run_bind] at hx
    rw [run_act] at hdom ⊢
    have hE : Lenient fun e => (∃ e', (inodeSem p).exec a s = .error e' ∧
        @EndAlike α sb (.error e') (.error e)) ∨ (∃ q ∈ scarce, e = .stop (.panic q)) ∨
        ¬ LogReserved sb b.disk ∧ e = .assumed :=
      by refine ⟨⟨?_, ?_, ?_⟩, ?_⟩ <;> exact .inr (.inl ⟨_, by decide, rfl⟩)
    have hstep := refines_step (p := p) hE hR
      ((em (LogReserved sb b.disk)).symm.imp_left fun h => .inr (.inr ⟨h, rfl⟩)) a
      (fun h => hdom (by rw [h])) (fun q h => .inl ⟨_, h, rfl⟩) fun h => .inl ⟨_, h, hR⟩
    cases hb : (onBlocks _ a).run ((blockSem p).assume belowLog .assumed) b with
    | ok y =>
      obtain ⟨s', hs, -, hR', hlog⟩ := wp_run_ok hstep hb
      rw [hs] at hdom ⊢
      rw [hb] at hx
      exact (ih _ hR' hdom hx).imp_right (.imp_right (.imp_left (mt hlog)))
    | error e =>
      rw [hb] at hx
      subst hx
      rcases wp_run_error hstep hb with ⟨e', hs, h⟩ | ⟨q, hq, rfl⟩ | ⟨h, rfl⟩
      · rw [hs]
        exact .inl h
      · exact .inr (.inl ⟨q, hq, rfl⟩)
      · exact .inr (.inr ⟨h, rfl⟩)

/-- The block level simulates the inode level: a program that stays within its domain ends alike
on both, unless the block level lacks a resource, or the bitmap leaves the log unmarked and
`balloc` takes a block of it. -/
theorem run_refines {α : Type} (p : ℕ) (c : IProg α) (hR : Rep sb b s)
    (hdom : c.run (inodeSem p) s ≠ .error .assumed) :
    EndAlike sb (c.run (inodeSem p) s) (c.blocks.run (blockSem p) b) ∨
      (∃ q ∈ scarce, c.blocks.run (blockSem p) b = .error (.stop (.panic q))) ∨
      ¬ LogReserved sb b.disk ∧
        c.blocks.run ((blockSem p).assume belowLog .assumed) b = .error .assumed := by
  by_cases hlow : c.blocks.run ((blockSem p).assume belowLog .assumed) b = .error .assumed
  · rcases run_refines_below p c hR hdom hlow with h | ⟨q, -, h⟩ | h
    · revert h
      rcases c.run (inodeSem p) s with (_ | _ | _) | _ <;> exact False.elim
    · cases h
    · exact .inr (.inr ⟨h.1, hlow⟩)
  · rw [← run_assume hlow]
    exact run_refines_below p c hR hdom rfl

end Qwin.Fs
