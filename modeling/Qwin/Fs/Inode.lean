import Qwin.Fs.Rw

/-!
# Inodes on the disk

`iupdate`, the part of `ilock` that loads an inode, `ialloc` and the whole of `writei`,
which ends in an `iupdate` when the file has grown. Writing an inode block touches no
block of any file.
-/

namespace Qwin.Fs

open Prog List
open Function (update update_of_ne update_self)

variable {p : ℕ} {E : End BState → Prop} {st st' : BState} {sb : Superblock}
  {A : ℕ → Fin 13 → ℕ} {i ip : ℕ}

/-! ## `iupdate` -/

def BState.flush (st : BState) (ip : ℕ) : BState :=
  st.write (iblock (st.core.inode ip).inum) (Dinode.put
    (st.disk (iblock (st.core.inode ip).inum)) ((st.core.inode ip).inum % IPB)
    (dinodeOf (st.core.inode ip) (st.extent ip)))

theorem flush_disk (st : BState) (ip : ℕ) :
    (st.flush ip).disk = setDinode st.disk (st.core.inode ip).inum
      (dinodeOf (st.core.inode ip) (st.extent ip)) := rfl

variable {Q : Unit → BState → Prop}

theorem runs_iupdate (hheld : st.held = [])
    (hcan : CanLog E { st with held := iblock (st.core.inode ip).inum :: st.held })
    (h : Q () (st.flush ip)) : Runs p E Q (iupdate ip) st := by
  unfold iupdate
  rw [Runs, wp_bind]
  refine runs_getInode ?_
  rw [wp_bind]
  refine runs_getExtent ?_
  rw [wp_bind]
  refine runs_bread_of_pinned (by rw [hheld]; exact not_mem_nil) hcan.pinned_lt ?_
  rw [wp_bind]
  refine runs_logWrite hcan (runs_brelse ?_)
  rw [BState.write, erase_cons_head]
  exact h

variable {d : ℕ → Block}

theorem InOrder.agrees_iblock (h : InOrder sb A d) (hi : i < sb.ninodes)
    (v : Block) (j : ℕ) : Agrees d (update d (iblock i) v) (A j) := by
  intro k hk
  have hne : ptr d (A j) k ≠ iblock i :=
    Nat.ne_of_gt (lt_of_lt_of_le (iblock_lt_dataStart hi) (h.inData hk).1)
  rw [update_of_ne hne]

theorem InOrder.addrs_lt (h : InOrder sb A d) (j : ℕ) (k : Fin 13) : A j k < 2 ^ 32 := by
  by_cases h0 : A j k = 0
  · rw [h0]
    exact Nat.two_pow_pos 32
  · exact lt_trans (h.inData_addr h0).lt_size h.size_lt

/-! ## `writei` -/

/-- What `writei` guarantees when it returns the number of bytes: the range holds the
source bytes, every other byte of every file is what it was, and the inode on the disk
is up to date if it was before. -/
structure Written (sb : Superblock) (A : ℕ → Fin 13 → ℕ) (i ip off : ℕ) (src : List UInt8)
    (st st' : BState) : Prop where
  order : InOrder sb (view A i ip st') st'.disk
  logRes : LogReserved sb st.disk → LogReserved sb st'.disk
  core : st'.core = st.core
  held : st'.held = st.held
  logsize : st'.logsize = st.logsize
  extent_of_ne : ∀ q, q ≠ ip → st'.extent q = st.extent q
  size : (st'.extent ip).size = max (st.extent ip).size (off + src.length)
  bytes : ∀ j o v, (j = i → ¬ (off ≤ o ∧ o < off + src.length)) →
    byteAt st.disk (view A i ip st j) o = some v →
      byteAt st'.disk (view A i ip st' j) o = some v
  data : ∀ t v, src[t]? = some v →
    byteAt st'.disk (st'.extent ip).addrs (off + t) = some v
  coherent : dinode st.disk i = dinodeOf (st.core.inode ip) (st.extent ip) →
    dinode st'.disk i = dinodeOf (st'.core.inode ip) (st'.extent ip)
  dinodes : ∀ j, j < sb.ninodes → j ≠ i → dinode st'.disk j = dinode st.disk j

variable {src : List UInt8}

theorem Wrote.written {off off' : ℕ} (W : Wrote sb A i ip off src st off' st')
    (hmap : MappedRange st.disk (st.extent ip).addrs 0 (st.extent ip).size)
    (hend : off + src.length ≤ (st.extent ip).size) (hi : i < sb.ninodes) :
    Written sb A i ip off src st st' := by
  have hext : st'.extent = st.extent :=
    W.same fun o h1 h2 => hmap o (Nat.zero_le o) (by omega)
  have hdin : ∀ j, j < sb.ninodes → dinode st'.disk j = dinode st.disk j := by
    intro j hj
    rw [dinode, W.step.inodes j hj, dinode]
  refine ⟨W.step.order, W.step.logRes, W.step.core, W.step.held, W.step.logsize,
    fun q hq => W.step.extent_of_ne hq, ?_, W.step.bytes, W.data, ?_, fun j hj _ => hdin j hj⟩
  · rw [hext, Nat.max_eq_left hend]
  · intro hc
    rw [hdin i hi, hc, W.step.core, hext]

/-- The state after the size of an inode is set and `iupdate` is done. -/
def BState.resize (st : BState) (ip size : ℕ) : BState :=
  BState.flush
    { st with extent := update st.extent ip ⟨size, (st.extent ip).addrs⟩ } ip

theorem resize_disk (st : BState) (ip size : ℕ) :
    (st.resize ip size).disk = setDinode st.disk (st.core.inode ip).inum
      (dinodeOf (st.core.inode ip) ⟨size, (st.extent ip).addrs⟩) := by
  rw [BState.resize, flush_disk]
  dsimp only
  rw [update_self]

theorem Wrote.written_grow {off off' : ℕ}
    (W : Wrote sb A i ip off src st off' st') (hnum : (st.core.inode ip).inum = i)
    (hgrow : (st.extent ip).size < off + src.length)
    (hmax : off + src.length ≤ MAXFILE * BSIZE) (hi : i < sb.ninodes) :
    Written sb A i ip off src st (st'.resize ip (off + src.length)) := by
  have hext : (st'.resize ip (off + src.length)).extent =
      update st'.extent ip ⟨off + src.length, (st'.extent ip).addrs⟩ := rfl
  have hextip : (st'.resize ip (off + src.length)).extent ip =
      ⟨off + src.length, (st'.extent ip).addrs⟩ := by rw [hext, update_self]
  have hview : view A i ip (st'.resize ip (off + src.length)) = view A i ip st' := by
    rw [view, hextip, view]
  have hnum' : (st'.core.inode ip).inum = i := by rw [W.step.core, hnum]
  have hdisk : (st'.resize ip (off + src.length)).disk =
      setDinode st'.disk i (dinodeOf (st'.core.inode ip)
        ⟨off + src.length, (st'.extent ip).addrs⟩) := by
    rw [resize_disk, hnum']
  have hfits : (dinodeOf (st'.core.inode ip) ⟨off + src.length, (st'.extent ip).addrs⟩).Fits := by
    constructor
    · have hlt : off + src.length ≤ 71680 := hmax
      change off + src.length < 2 ^ 32
      omega
    · intro k
      have hk := W.step.order.addrs_lt i k
      rw [view_self] at hk
      exact hk
  refine ⟨?_, ?_, W.step.core, W.step.held, W.step.logsize, ?_, ?_, ?_, ?_, ?_, ?_⟩
  · rw [hview, hdisk]
    exact W.step.order.update_iblock _ hi
  · rw [hdisk]
    exact fun h => (W.step.logRes h).update _ fun b _ => Nat.ne_of_gt (iblock_lt_bblock hi)
  · intro q hq
    rw [hext, update_of_ne hq]
    exact W.step.extent_of_ne hq
  · rw [hextip, Nat.max_eq_right (Nat.le_of_lt hgrow)]
  · intro j o v hj hv
    rw [hview, hdisk]
    exact (Keeps.of_agrees (W.step.order.agrees_iblock hi _ j)).byteAt (W.step.bytes j o v hj hv)
  · intro t v hv
    have hkeep := Keeps.of_agrees (W.step.order.agrees_iblock hi
      (Dinode.put (st'.disk (iblock i)) (i % IPB) (dinodeOf (st'.core.inode ip)
        ⟨off + src.length, (st'.extent ip).addrs⟩)) i)
    rw [view_self] at hkeep
    rw [hextip, hdisk]
    exact hkeep.byteAt (W.data t v hv)
  · intro _
    rw [hdisk, dinode_setDinode _ hfits, if_pos rfl, hextip]
    rfl
  · intro j hj hne
    rw [hdisk, dinode_setDinode _ hfits, if_neg hne, dinode, W.step.inodes j hj, dinode]

theorem runs_writei {Q : Option ℕ → BState → Prop} {I : List ℕ → BState → Prop}
    (hI : Passes p E sb A i ip I) (off : ℕ) (src : List UInt8)
    (h : InOrder sb (view A i ip st) st.disk) (hlog : E .assumed ∨ LogReserved sb st.disk)
    (hheld : st.held = []) (hnum : (st.core.inode ip).inum = i) (hi : i < sb.ninodes)
    (hsup : I (span off src.length) st)
    (hlast : 0 < src.length → (st.extent ip).size < off + src.length → ∀ st', I [] st' →
      CanLog E { st' with held := iblock i :: st'.held })
    (hmap : MappedRange st.disk (st.extent ip).addrs 0 (st.extent ip).size)
    (hoff : off < 2 ^ 32) (hn : src.length < 2 ^ 32)
    (hbad : (st.extent ip).size < off ∨ (off + src.length) % 2 ^ 32 < off ∨
      MAXFILE * BSIZE < (off + src.length) % 2 ^ 32 → Q none st)
    (hgood : ¬ ((st.extent ip).size < off ∨ (off + src.length) % 2 ^ 32 < off ∨
      MAXFILE * BSIZE < (off + src.length) % 2 ^ 32) →
      ∀ st', Written sb A i ip off src st st' → Q (some src.length) st') :
    Runs p E Q (writei ip off src) st := by
  unfold writei
  rw [Runs, wp_bind]
  refine runs_getExtent ?_
  by_cases hcond : (st.extent ip).size < off ∨ (off + src.length) % 2 ^ 32 < off
  · rw [if_pos hcond]
    exact wp_pure (hbad (hcond.imp_right Or.inl))
  by_cases hmax : MAXFILE * BSIZE < (off + src.length) % 2 ^ 32
  · rw [if_neg hcond, if_pos hmax]
    exact wp_pure (hbad (Or.inr (Or.inr hmax)))
  have hmod : (off + src.length) % 2 ^ 32 = off + src.length :=
    (wraps_or_eq hoff hn).resolve_left fun hw => hcond (Or.inr hw)
  have hgood := hgood fun hc => hc.elim (fun h => hcond (Or.inl h)) fun hc =>
    hc.elim (fun h => hcond (Or.inr h)) hmax
  rw [if_neg hcond, if_neg hmax, wp_bind]
  rw [hmod] at hmax
  refine wp_conseq
    (runs_writeLoop hI src.length src off (le_refl _) (by omega) h hlog hheld hsup) ?_
  rintro off' st1 ⟨W, hend⟩
  rw [wp_bind]
  refine runs_getExtent ?_
  rw [W.step.size_eq, W.offset]
  by_cases hgrow : 0 < src.length ∧ (st.extent ip).size < off + src.length
  · rw [if_pos hgrow, wp_bind]
    refine runs_setExtent ?_
    have hnum1 : (st1.core.inode ip).inum = i := by rw [W.step.core, hnum]
    rw [wp_bind]
    refine runs_iupdate (W.step.held.trans hheld) ?_ (wp_pure ?_)
    · dsimp only
      rw [hnum1]
      exact hlast hgrow.1 hgrow.2 st1 hend
    · exact hgood _ (W.written_grow hnum hgrow.2 (by omega) hi)
  · rw [if_neg hgrow]
    exact wp_pure (hgood st1 (W.written hmap (by omega) hi))

/-! ## Loading an inode -/

/-- The fields of a cached inode that `ilock` reads from the disk. -/
def Inode.load (x : Inode) (d : Dinode) : Inode :=
  { x with type := d.type, major := d.major, minor := d.minor, nlink := d.nlink }

/-- The state after the inode was read from the disk. -/
def BState.load (st : BState) (ip : ℕ) : BState :=
  { st with
    core := st.core.setInode ip
      ((st.core.inode ip).load (dinode st.disk (st.core.inode ip).inum))
    extent := update st.extent ip
      ⟨(dinode st.disk (st.core.inode ip).inum).size,
        (dinode st.disk (st.core.inode ip).inum).addrs⟩ }

theorem runs_loadInode (hheld : st.held = [])
    (hp : E (.stop (.panic .bgetNoBuffers)) ∨ st.pinned < NBUF) (h : Q () (st.load ip)) :
    Runs p E Q (loadInode ip) st := by
  unfold loadInode
  rw [Runs, wp_bind]
  refine runs_getInode ?_
  rw [wp_bind]
  refine runs_bread_of_pinned (by rw [hheld]; exact not_mem_nil) hp ?_
  dsimp only
  rw [wp_bind]
  refine runs_assign ?_
  rw [wp_bind]
  refine runs_assign ?_
  rw [wp_bind]
  refine runs_assign ?_
  rw [wp_bind]
  refine runs_assign ?_
  rw [wp_bind]
  refine runs_setExtent (runs_brelse ?_)
  simp only [Core.setInode_inode_self, Core.setInode_setInode, erase_cons_head]
  exact h

/-! ## `ialloc` -/

/-- The inode `ialloc` takes: the first one with type zero. -/
def freeInode (sb : Superblock) (d : ℕ → Block) : Option ℕ :=
  (List.range' 1 (sb.ninodes - 1)).find? fun i => (dinode d i).type = 0

/-- A dinode as `ialloc` writes it. -/
def freshDinode (type : Short) : Dinode := ⟨type, 0, 0, 0, 0, fun _ => 0⟩

theorem freshDinode_fits (type : Short) : (freshDinode type).Fits :=
  ⟨Nat.two_pow_pos 32, fun _ => Nat.two_pow_pos 32⟩

def BState.ialloc (st : BState) (i : ℕ) (type : Short) : BState :=
  st.write (iblock i) (Dinode.put (st.disk (iblock i)) (i % IPB) (freshDinode type))

theorem ialloc_disk (st : BState) (i : ℕ) (type : Short) :
    (st.ialloc i type).disk = setDinode st.disk i (freshDinode type) := rfl

theorem freeInode_eq_some (h : freeInode sb d = some i) :
    1 ≤ i ∧ i < sb.ninodes ∧ (dinode d i).type = 0 := by
  have hmem := mem_of_find?_eq_some h
  have htype := List.find?_some h
  rw [mem_range'_1] at hmem
  exact ⟨hmem.1, by omega, by simpa using htype⟩

theorem runs_iallocLoop {Q : ℕ → BState → Prop} {type : Short} (hheld : st.held = [])
    (hR : ∀ i, Ready E st {iblock i}) (n inum : ℕ)
    (hnone : (List.range' inum n).find? (fun i => (dinode st.disk i).type = 0) = none →
      E (.stop (.panic .iallocNoInodes)))
    (h : ∀ i, (List.range' inum n).find? (fun i => (dinode st.disk i).type = 0) = some i →
      Q i (st.ialloc i type)) : Runs p E Q (iallocLoop type n inum) st := by
  induction n generalizing inum with
  | zero =>
    rw [iallocLoop]
    exact runs_panic (hnone rfl)
  | succ n ih =>
    rw [List.range'_succ, List.find?_cons] at hnone h
    rw [iallocLoop, Runs, wp_bind]
    refine runs_bread (by rw [hheld]; exact not_mem_nil) (hR inum) ?_
    by_cases h0 : (dinode st.disk inum).type = 0
    · simp only [h0, decide_true] at h
      unfold dinode at h0
      rw [if_pos h0, wp_bind]
      refine runs_logWrite ((hR inum).hold (Or.inr (Finset.mem_singleton_self _))).canLog ?_
      rw [wp_bind]
      refine runs_brelse (wp_pure ?_)
      rw [BState.write, erase_cons_head]
      exact h inum rfl
    · simp only [h0, decide_false] at h hnone
      unfold dinode at h0
      rw [if_neg h0, wp_bind]
      refine runs_brelse ?_
      rw [erase_cons_head]
      exact ih (inum + 1) hnone h

theorem runs_iallocInum {Q : ℕ → BState → Prop} {type : Short}
    (hsb : Superblock.get (st.disk 1) = sb) (hheld : st.held = [])
    (hR : ∀ i, Ready E st {iblock i})
    (hnone : freeInode sb st.disk = none → E (.stop (.panic .iallocNoInodes)))
    (h : ∀ i, freeInode sb st.disk = some i → Q i (st.ialloc i type)) :
    Runs p E Q (iallocInum type) st := by
  unfold iallocInum
  rw [Runs, wp_bind]
  refine runs_readsb (by rw [hheld]; exact not_mem_nil) (hR 0) ?_
  rw [hsb]
  exact runs_iallocLoop hheld hR _ 1 hnone h

end Qwin.Fs
