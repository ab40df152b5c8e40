import Qwin.Fs.Rw
import Qwin.Mkfs.Basic
import Qwin.Mkfs.Laid

/-!
# Appending to a file

What `iappend` does to the image. The addresses of the inode it works on are in a local
variable until it is done, so the addresses of all inodes are given by a table `A`.
-/

namespace Qwin.Mkfs

open Prog Fs List
open Function (update update_of_ne update_self update_eq_self update_idem)

variable {α β γ : Type} {E : Exit → Prop} {s : Image}

/-! ## Rules for the steps -/

/-- What a run of a part of `mkfs` guarantees: an early end is one that `E` allows. -/
abbrev Makes (E : Exit → Prop) (Q : α → Image → Prop) (c : MProg α) (s : Image) : Prop :=
  wp sem (fun _ _ _ => True) E Q c s

theorem makes_pure {Q : α → Image → Prop} {a : α} (h : Q a s) : Makes E Q (pure a) s := by
  rw [pure_eq_ret, Makes, wp_ret]
  exact h

theorem makes_bind {Q : α → Image → Prop} {c : MProg γ} {f : γ → MProg α}
    (h : Makes E (fun a t => Makes E Q (f a) t) c s) : Makes E Q (c >>= f) s :=
  (wp_bind c f s).2 h

variable {sec : ℕ}

theorem makes_rsect {Q : Block → Image → Prop} (hbad : s.nsect ≤ sec → E .read)
    (h : sec < s.nsect → Q (s.sect sec) s) : Makes E Q (rsect sec) s := by
  by_cases hlt : sec < s.nsect
  · exact wp_last trivial (if_pos hlt) (h hlt)
  · exact wp_stop trivial (if_neg hlt) (hbad (not_lt.1 hlt))

variable {Q : Unit → Image → Prop}

theorem makes_wsect {buf : Block} (h : Q () { s with
      sect := update s.sect sec buf, nsect := max s.nsect (sec + 1) }) :
    Makes E Q (wsect sec buf) s := wp_last trivial rfl h

def Image.write (s : Image) (sec : ℕ) (buf : Block) : Image :=
  { s with sect := update s.sect sec buf }

theorem makes_wsect_of_lt {buf : Block} (hlt : sec < s.nsect) (h : Q () (s.write sec buf)) :
    Makes E Q (wsect sec buf) s := by
  refine makes_wsect ?_
  rw [Nat.max_eq_left hlt]
  exact h

theorem makes_assert {b : Bool} (hb : b = true) (h : Q () s) :
    Makes E Q (assert b) s := wp_last trivial (if_pos hb) h

theorem makes_nextBlock {Q : ℕ → Image → Prop} (h : Q s.freeblock { s with
      freeblock := s.freeblock + 1, usedblocks := s.usedblocks + 1 }) :
    Makes E Q (perform .nextBlock) s := wp_last trivial rfl h

theorem makes_nextInode {Q : ℕ → Image → Prop}
    (h : Q s.freeinode { s with freeinode := s.freeinode + 1 }) :
    Makes E Q (perform .nextInode) s := wp_last trivial rfl h

/-! ## The image while a file grows -/

/-- The blocks of the inodes with addresses `A` were handed out in order, and the others
are still zero. -/
structure Laying (A : ℕ → Fin 13 → ℕ) (nb : ℕ → ℕ) (s : Image) : Prop where
  nsect : s.nsect = size
  used : s.usedblocks = s.freeblock
  fresh : ∀ b, s.freeblock ≤ b → s.sect b = Bytes.zero 512
  laid : Laid (ptrs A s.sect) s.freeblock nb

/-- The blocks of the files hold the bytes `c`, and zeroes behind them. -/
def Carries (A : ℕ → Fin 13 → ℕ) (nb : ℕ → ℕ) (c : ℕ → List UInt8) (s : Image) : Prop :=
  ∀ i o, o / BSIZE < nb i → byteAt s.sect (A i) o = some ((c i).getD o 0)

structure Above (s t : Image) : Prop where
  sect : ∀ b, b < dataStart → t.sect b = s.sect b
  freeinode : t.freeinode = s.freeinode

theorem Above.refl (s : Image) : Above s s := ⟨fun _ _ => rfl, rfl⟩

theorem Above.trans {t u : Image} (h : Above s t) (h' : Above t u) : Above s u :=
  ⟨fun b hb => (h'.sect b hb).trans (h.sect b hb), h'.freeinode.trans h.freeinode⟩

variable {A : ℕ → Fin 13 → ℕ} {nb : ℕ → ℕ} {c : ℕ → List UInt8} {i bn : ℕ} {din : Dinode}

namespace Laying

variable (h : Laying A nb s)
include h

theorem fileBlock_ne_zero_iff : fileBlock s.sect (A i) bn ≠ 0 ↔ bn < nb i := h.laid.mapped i bn

theorem fileBlock_lt (hbn : bn < nb i) :
    dataStart ≤ fileBlock s.sect (A i) bn ∧ fileBlock s.sect (A i) bn < s.freeblock := by
  have h0 := h.fileBlock_ne_zero_iff.2 hbn
  have harea := h.laid.owned.area (i, filePos bn) h0
  refine ⟨harea, of_decide_eq_true ?_⟩
  exact h.laid.owned.mark (k := (i, filePos bn)) h0

theorem addr_lt (h12 : A i 12 ≠ 0) : dataStart ≤ A i 12 ∧ A i 12 < s.freeblock := by
  rw [← ptr_twelve s.sect (A i)] at h12 ⊢
  refine ⟨h.laid.owned.area (i, 12) h12, of_decide_eq_true ?_⟩
  exact h.laid.owned.mark (k := (i, 12)) h12

end Laying

structure Added (A : ℕ → Fin 13 → ℕ) (nb : ℕ → ℕ) (i : ℕ) (din : Dinode) (s : Image)
    (din' : Dinode) (t : Image) : Prop where
  laying : Laying (update A i din'.addrs) (update nb i (nb i + 1)) t
  block : fileBlock t.sect din'.addrs (nb i) + 1 = t.freeblock
  zero : t.sect (t.freeblock - 1) = Bytes.zero 512
  keeps : ∀ j, Keeps s.sect (A j) t.sect (update A i din'.addrs j)
  above : Above s t
  fields : { din with addrs := din'.addrs } = din'

/-! ## Finding or adding a block -/

theorem filePos_direct (h : bn < NDIRECT) : filePos bn = bn := if_pos h

theorem filePos_entry (h : ¬ bn < NDIRECT) : filePos bn = 13 + (bn - NDIRECT) := by
  rw [filePos, if_neg h]
  unfold NDIRECT at *
  omega

theorem fileBlock_direct (d : ℕ → Block) (a : Fin 13 → ℕ) (h : bn < NDIRECT) :
    fileBlock d a bn = a ⟨bn, Nat.lt_succ_of_lt h⟩ := by
  rw [fileBlock, filePos_direct h]
  exact ptr_addr d a ⟨bn, Nat.lt_succ_of_lt h⟩

theorem fileBlock_entry (d : ℕ → Block) {a : Fin 13 → ℕ} (ha : a 12 ≠ 0)
    (h : ¬ bn < NDIRECT) : fileBlock d a bn = (d (a 12)).le (4 * (bn - NDIRECT)) 4 := by
  rw [fileBlock, filePos_entry h, ptr_entry d ha]

/-- One pointer that was zero is set, and the data blocks stay as they are. -/
theorem keeps_of_ptrs {A' : ℕ → Fin 13 → ℕ} {d d' : ℕ → Block} {k : ℕ × ℕ} {r : ℕ}
    (hP : ptrs A' d' = update (ptrs A d) k r) (hk : ptrs A d k = 0) (j : ℕ)
    (hd : ∀ bn, fileBlock d (A j) bn ≠ 0 →
      d' (fileBlock d (A j) bn) = d (fileBlock d (A j) bn)) : Keeps d (A j) d' (A' j) := by
  intro bn hbn
  have hne : (j, filePos bn) ≠ k := by
    rintro rfl
    exact hbn hk
  have hptr := congrFun hP (j, filePos bn)
  rw [update_of_ne hne] at hptr
  exact ⟨hptr, hd bn hbn⟩

namespace Laying

variable (h : Laying A nb s) (hi : i < tableSize) (ha : A i = din.addrs)
include h hi ha

theorem addDirect (hn : nb i < NDIRECT) :
    Added A nb i din s
      { din with addrs := update din.addrs ⟨nb i, Nat.lt_succ_of_lt hn⟩ s.freeblock }
      { s with freeblock := s.freeblock + 1, usedblocks := s.usedblocks + 1 } := by
  have hzero : A i ⟨nb i, Nat.lt_succ_of_lt hn⟩ = 0 := by
    rw [← fileBlock_direct s.sect (A i) hn]
    exact not_not.1 fun hne => lt_irrefl _ (h.fileBlock_ne_zero_iff.1 hne)
  have hP := ptrs_addr hzero (h.fresh s.freeblock le_rfl)
  rw [← ha]
  have hlaid := h.laid.add hi (Nat.ne_of_lt hn)
  rw [filePos_direct hn] at hlaid
  refine ⟨⟨h.nsect, congrArg (· + 1) h.used, fun b hb => h.fresh b (by dsimp only at hb; omega), ?_⟩,
    ?_, h.fresh s.freeblock le_rfl, ?_, ⟨fun _ _ => rfl, rfl⟩, rfl⟩
  · rw [hP]
    exact hlaid
  · rw [fileBlock_direct _ _ hn]
    dsimp only
    rw [update_self]
  · intro j
    exact keeps_of_ptrs hP ((ptr_addr s.sect (A i) _).trans hzero) j fun _ _ => rfl

theorem addEntry (hn : NDIRECT < nb i) (hmax : nb i < MAXFILE) (hroom : s.freeblock ≤ size) :
    Added A nb i din s din { s with
      sect := update s.sect (din.addrs 12)
        ((s.sect (din.addrs 12)).putLe (4 * (nb i - NDIRECT)) 4 s.freeblock)
      freeblock := s.freeblock + 1
      usedblocks := s.usedblocks + 1 } := by
  have hind : A i 12 ≠ 0 := by
    rw [← ptr_twelve s.sect (A i)]
    exact (h.laid.indirect i).2 hn
  have hnd : ¬ nb i < NDIRECT := by omega
  have hj : nb i - NDIRECT < NINDIRECT := by
    unfold NDIRECT NINDIRECT MAXFILE at *
    omega
  have hf : s.freeblock < 256 ^ 4 := lt_of_le_of_lt hroom (by decide)
  obtain ⟨hlow, hlt⟩ := h.addr_lt hind
  have hlow' : 29 ≤ A i 12 := hlow
  have hP := ptrs_entry h.laid.owned hind hj hf
  have hold : ptrs A s.sect (i, 13 + (nb i - NDIRECT)) = 0 := by
    rw [← filePos_entry hnd]
    exact not_not.1 fun hne => lt_irrefl _ ((h.laid.mapped i (nb i)).1 hne)
  have hlaid := h.laid.add hi (Nat.ne_of_gt hn)
  rw [filePos_entry hnd] at hlaid
  have hself : update A i din.addrs = A := by rw [← ha, update_eq_self]
  rw [← ha] at hself ⊢
  refine ⟨⟨h.nsect, congrArg (· + 1) h.used, fun b hb => ?_, ?_⟩, ?_, ?_, ?_,
    ⟨fun b hb => ?_, rfl⟩, rfl⟩
  · dsimp only at hb ⊢
    rw [update_of_ne (by omega)]
    exact h.fresh b (by omega)
  · rw [← ha, hself, hP]
    exact hlaid
  · have hblock := congrFun hP (i, 13 + (nb i - NDIRECT))
    rw [update_self] at hblock
    rw [← ha, fileBlock, filePos_entry hnd]
    exact congrArg (· + 1) hblock
  · dsimp only
    rw [Nat.add_sub_cancel, update_of_ne (Nat.ne_of_gt hlt)]
    exact h.fresh _ le_rfl
  · intro j
    rw [← ha, hself]
    refine keeps_of_ptrs hP hold j fun bn' hbn' => ?_
    exact update_of_ne (owned_indirect_ne h.laid.owned hind fun he =>
      filePos_ne_twelve bn' (Prod.ext_iff.1 he).2.symm).symm _ _
  · dsimp only at hb ⊢
    have hb' : b < 29 := hb
    rw [update_of_ne (by omega)]

theorem addIndirect (hn : nb i = NDIRECT) (hroom : s.freeblock < size) :
    Added A nb i din s { din with addrs := update din.addrs 12 s.freeblock } { s with
      sect := update s.sect s.freeblock
        ((s.sect s.freeblock).putLe (4 * (nb i - NDIRECT)) 4 (s.freeblock + 1))
      freeblock := s.freeblock + 1 + 1
      usedblocks := s.usedblocks + 1 + 1 } := by
  have hnd : ¬ nb i < NDIRECT := by omega
  have hstart : 29 ≤ s.freeblock := h.laid.start
  have hzero : A i 12 = 0 := by
    rw [← ptr_twelve s.sect (A i)]
    refine not_not.1 fun hne => ?_
    have := (h.laid.indirect i).1 hne
    omega
  have hP1 := ptrs_addr hzero (h.fresh s.freeblock le_rfl)
  -- the new addresses
  generalize hA1 : update A i (update (A i) 12 s.freeblock) = A1 at hP1
  have hA1i : A1 i = update (A i) 12 s.freeblock := by
    rw [← hA1, update_self]
  have hind : A1 i 12 = s.freeblock := by rw [hA1i, update_self]
  have hold : ptrs A s.sect (i, 12) = 0 := (ptr_twelve s.sect (A i)).trans hzero
  have howned := owned_next h.laid.owned h.laid.start hold
  have hP2 := ptrs_entry (A := A1) (d := s.sect) (i := i) (j := nb i - NDIRECT)
    (r := s.freeblock + 1) (by rw [hP1]; exact howned) (by rw [hind]; omega)
    (by rw [hn]; decide) (lt_of_le_of_lt hroom (by decide))
  rw [hind, hP1, ← filePos_entry hnd] at hP2
  have hlaid := h.laid.addIndirect hi hn
  rw [← ha, ← hA1i]
  have hself : update A i (A1 i) = A1 := by rw [hA1i, hA1]
  refine ⟨⟨h.nsect, congrArg (· + 1 + 1) h.used, fun b hb => ?_, ?_⟩, ?_, ?_, ?_,
    ⟨fun b hb => ?_, rfl⟩, rfl⟩
  · dsimp only at hb ⊢
    rw [update_of_ne (by omega)]
    exact h.fresh b (by omega)
  · dsimp only
    rw [hself, hP2]
    exact hlaid
  · have hblock := congrFun hP2 (i, filePos (nb i))
    rw [update_self] at hblock
    exact congrArg (· + 1) hblock
  · dsimp only
    rw [Nat.add_sub_cancel, update_of_ne (Nat.succ_ne_self _)]
    exact h.fresh _ (Nat.le_succ _)
  · intro j
    dsimp only
    rw [hself]
    intro bn' hbn'
    -- the indirect block was not in use
    have hne : fileBlock s.sect (A j) bn' ≠ s.freeblock := by
      have := (h.fileBlock_lt (h.fileBlock_ne_zero_iff.1 hbn')).2
      omega
    have hpos : (j, filePos bn') ≠ (i, filePos (nb i)) := by
      intro he
      have hj := (Prod.ext_iff.1 he).1
      have hb := filePos_inj (Prod.ext_iff.1 he).2
      dsimp only at hj
      subst hj hb
      exact lt_irrefl _ (h.fileBlock_ne_zero_iff.1 hbn')
    have hptr := congrFun hP2 (j, filePos bn')
    rw [update_of_ne hpos, update_of_ne fun he =>
      filePos_ne_twelve bn' (Prod.ext_iff.1 he).2] at hptr
    exact ⟨hptr, update_of_ne hne _ _⟩
  · dsimp only at hb ⊢
    have hb' : b < 29 := hb
    rw [update_of_ne (by omega)]

end Laying

theorem makes_fileSector {Q : Dinode × ℕ → Image → Prop} (h : Laying A nb s)
    (hroom : s.freeblock ≤ size) (hi : i < tableSize) (ha : A i = din.addrs) (hbn : bn < MAXFILE)
    (hE : bn = nb i → size < dataStart + total (update nb i (nb i + 1)) → E .read)
    (hold : bn < nb i → Q (din, fileBlock s.sect din.addrs bn) s)
    (hnew : ∀ din' t, bn = nb i → Added A nb i din s din' t →
      Q (din', fileBlock t.sect din'.addrs bn) t) (hle : bn ≤ nb i) :
    Makes E Q (fileSector din bn) s := by
  have hmapped : A i = din.addrs → (fileBlock s.sect din.addrs bn ≠ 0 ↔ bn < nb i) := fun ha =>
    ha ▸ h.fileBlock_ne_zero_iff
  have hind : din.addrs 12 ≠ 0 ↔ NDIRECT < nb i := by
    rw [← ha, ← ptr_twelve s.sect (A i)]
    exact h.laid.indirect i
  unfold fileSector
  by_cases hd : bn < NDIRECT
  · rw [dif_pos hd]
    have hblock := fileBlock_direct s.sect din.addrs hd
    rcases Nat.lt_or_ge bn (nb i) with hlt | hge
    · rw [← hblock, if_neg ((hmapped ha).2 hlt)]
      refine makes_bind (makes_pure (makes_pure ?_))
      rw [← hblock]
      exact hold hlt
    · obtain rfl : bn = nb i := le_antisymm hle hge
      have hadd := h.addDirect hi ha hd
      rw [← hblock, if_pos (not_not.1 fun hne => lt_irrefl _ ((hmapped ha).1 hne))]
      refine makes_bind (makes_bind (makes_nextBlock (makes_pure (makes_pure ?_))))
      have hQ := hnew _ _ rfl hadd
      rw [fileBlock_direct _ _ hd] at hQ
      exact hQ
  · rw [dif_neg hd]
    rcases Nat.lt_or_ge bn (nb i) with hlt | hge
    · have h12 : din.addrs 12 ≠ 0 := hind.2 (by omega)
      have haddr := (h.addr_lt (i := i) (by rw [ha]; exact h12)).2
      rw [ha] at haddr
      have hblock := fileBlock_entry s.sect h12 hd
      rw [if_neg h12]
      refine makes_bind (makes_pure (makes_bind (makes_rsect ?_ fun _ => ?_)))
      · intro hout
        rw [h.nsect] at hout
        omega
      · rw [← hblock, if_neg ((hmapped ha).2 hlt)]
        exact makes_pure (hold hlt)
    · obtain rfl : bn = nb i := le_antisymm hle hge
      rcases Nat.lt_or_ge NDIRECT (nb i) with hgt | hle12
      · have h12 : din.addrs 12 ≠ 0 := hind.2 hgt
        have haddr := (h.addr_lt (i := i) (by rw [ha]; exact h12)).2
        rw [ha] at haddr
        have hblock := fileBlock_entry s.sect h12 hd
        have hadd := h.addEntry hi ha hgt hbn hroom
        rw [if_neg h12]
        refine makes_bind (makes_pure (makes_bind (makes_rsect ?_ fun hin => ?_)))
        · intro hout
          rw [h.nsect] at hout
          omega
        · rw [← hblock, if_pos (not_not.1 fun hne => lt_irrefl _ ((hmapped ha).1 hne))]
          refine makes_bind (makes_nextBlock (makes_bind (makes_wsect_of_lt hin (makes_pure ?_))))
          have hQ := hnew _ _ rfl hadd
          have hb := hadd.block
          dsimp only at hb
          rw [Nat.add_right_cancel hb] at hQ
          exact hQ
      · have hn : nb i = NDIRECT := by omega
        have h12 : din.addrs 12 = 0 := not_not.1 fun hne => by
          have := hind.1 hne
          omega
        rw [if_pos h12]
        refine makes_bind (makes_bind (makes_nextBlock (makes_pure ?_)))
        dsimp only
        rw [update_self]
        refine makes_bind (makes_rsect ?_ fun hin => ?_)
        · intro hout
          refine hE rfl ?_
          have hcount := (h.laid.addIndirect hi hn).count
          dsimp only at hout
          rw [h.nsect] at hout
          omega
        · dsimp only at hin ⊢
          rw [h.nsect] at hin
          have hadd := h.addIndirect hi ha hn hin
          rw [h.fresh s.freeblock le_rfl] at hadd ⊢
          rw [Bytes.le_zero, if_pos rfl]
          refine makes_bind (makes_nextBlock (makes_bind (makes_wsect_of_lt ?_ (makes_pure ?_))))
          · dsimp only
            rw [h.nsect]
            exact hin
          · have hQ := hnew _ _ rfl hadd
            have hb := hadd.block
            dsimp only at hb
            rw [Nat.add_right_cancel hb] at hQ
            exact hQ

/-! ## Writing the bytes -/

theorem Added.carries {din' : Dinode} {t : Image} (h : Added A nb i din s din' t)
    (hc : Carries A nb c s) (hlen : (c i).length ≤ nb i * BSIZE) :
    Carries (update A i din'.addrs) (update nb i (nb i + 1)) c t := by
  intro j o ho
  by_cases hold : o / BSIZE < nb j
  · exact (h.keeps j).byteAt (hc j o hold)
  · obtain rfl : j = i := by
      by_contra hj
      rw [update_of_ne hj] at ho
      exact hold ho
    rw [update_self] at ho ⊢
    have hbn : o / BSIZE = nb j := by omega
    have hblock : fileBlock t.sect din'.addrs (o / BSIZE) = t.freeblock - 1 := by
      have := h.block
      rw [hbn]
      omega
    have hne : fileBlock t.sect din'.addrs (o / BSIZE) ≠ 0 := by
      have hlt : nb j < update nb j (nb j + 1) j := by
        rw [update_self]
        omega
      have := h.laying.fileBlock_ne_zero_iff.2 hlt
      rwa [update_self, ← hbn] at this
    have hge : (c j).length ≤ o := by
      unfold BSIZE at hbn hlen
      omega
    rw [byteAt_of_mapped hne, hblock, h.zero, Bytes.getByte_zero, getD_eq_getElem?_getD,
      List.getElem?_eq_none hge, Option.getD_none]

variable {p : List UInt8} {off : ℕ}

/-- The bytes of `p` that fit are written to block `off / BSIZE`. -/
theorem Laying.put (h : Laying A nb s) (hc : Carries A nb c s) {n1 : ℕ}
    (hlen : (c i).length = off) (hbn : off / BSIZE < nb i)
    (hn1 : n1 = min p.length (BSIZE - off % BSIZE)) :
    Laying A nb (s.write (fileBlock s.sect (A i) (off / BSIZE))
        ((s.sect (fileBlock s.sect (A i) (off / BSIZE))).put (off % BSIZE) (p.take n1))) ∧
      Carries A nb (update c i (c i ++ p.take n1))
        (s.write (fileBlock s.sect (A i) (off / BSIZE))
          ((s.sect (fileBlock s.sect (A i) (off / BSIZE))).put (off % BSIZE) (p.take n1))) := by
  have hx := h.fileBlock_ne_zero_iff.2 hbn
  obtain ⟨hlow, hlt⟩ := h.fileBlock_lt hbn
  refine ⟨⟨h.nsect, h.used, fun b hb => ?_, ?_⟩, fun j o ho => ?_⟩
  · dsimp only [Image.write] at hb ⊢
    rw [update_of_ne (by omega)]
    exact h.fresh b hb
  · have hP : ptrs A (update s.sect (fileBlock s.sect (A i) (off / BSIZE))
        ((s.sect (fileBlock s.sect (A i) (off / BSIZE))).put (off % BSIZE) (p.take n1))) =
        ptrs A s.sect := funext fun k => owned_ptr_write h.laid.owned _ _ _ _
    dsimp only [Image.write]
    rw [hP]
    exact h.laid
  · dsimp only [Image.write]
    rw [owned_byteAt_write h.laid.owned hx]
    by_cases hin : j = i ∧ o / BSIZE = off / BSIZE
    · obtain ⟨rfl, hbo⟩ := hin
      have hold := hc j o ho
      rw [byteAt_of_mapped (by rw [hbo]; exact hx), hbo] at hold
      rw [if_pos ⟨rfl, hbo⟩, getByte_put_chunk hn1 hbo, Option.some.inj hold,
        update_self, getD_eq_getElem?_getD, getD_eq_getElem?_getD,
        getD_eq_getElem?_getD]
      congr 1
      rcases Nat.lt_or_ge o off with hlt | hge
      · rw [if_neg (by omega), List.getElem?_append_left (by omega)]
      · rw [List.getElem?_append_right (by omega), hlen, List.getElem?_take]
        rcases Nat.lt_or_ge (o - off) n1 with hlt' | hge'
        · rw [if_pos ⟨hge, by omega⟩, if_pos hlt']
        · rw [if_neg (by omega), if_neg (by omega), List.getElem?_eq_none (by omega)]
    · rw [if_neg hin, hc j o ho]
      by_cases hj : j = i
      · subst hj
        -- another block of the same file, which the bytes do not reach
        have hbo : o / BSIZE ≠ off / BSIZE := fun he => hin ⟨rfl, he⟩
        rw [update_self, getD_eq_getElem?_getD, getD_eq_getElem?_getD]
        congr 2
        rcases Nat.lt_or_ge o off with hlt | hge
        · rw [List.getElem?_append_left (by omega)]
        · rw [List.getElem?_append_right (by omega), hlen, List.getElem?_take,
            List.getElem?_eq_none (by omega), if_neg]
          unfold BSIZE at hbo hn1
          omega
      · rw [update_of_ne hj]

/-! ## The loop -/

/-- The number of data blocks of a file of `n` bytes. -/
def blocks (n : ℕ) : ℕ := (n + 511) / BSIZE

theorem blocks_mono {m n : ℕ} (h : m ≤ n) : blocks m ≤ blocks n :=
  Nat.div_le_div_right (by omega)

/-- The numbers of data blocks of files with these bytes. -/
def blocksOf (c : ℕ → List UInt8) (i : ℕ) : ℕ := blocks (c i).length

theorem blocksOf_update (c : ℕ → List UInt8) (i : ℕ) (l : List UInt8) :
    blocksOf (update c i l) = update (blocksOf c) i (blocks l.length) := by
  funext j
  by_cases hj : j = i
  · rw [hj, blocksOf, update_self, update_self]
  · rw [blocksOf, update_of_ne hj, update_of_ne hj, blocksOf]

/-- The image holds the bytes `c` in blocks that were handed out in order. -/
structure Grown (A : ℕ → Fin 13 → ℕ) (c : ℕ → List UInt8) (s : Image) : Prop where
  laying : Laying A (blocksOf c) s
  carries : Carries A (blocksOf c) c s
  room : s.freeblock ≤ size

/-- Files with these bytes need more blocks than there are. -/
def TooBig (c : ℕ → List UInt8) : Prop := size < dataStart + total (blocksOf c)

theorem Grown.not_tooBig (h : Grown A c s) : ¬ TooBig c := by
  have hcount := h.laying.laid.count
  have hroom := h.room
  unfold TooBig
  omega

theorem TooBig.mono {c' : ℕ → List UInt8} (h : TooBig c)
    (hle : ∀ i, (c i).length ≤ (c' i).length) : TooBig c' :=
  lt_of_lt_of_le h (Nat.add_le_add_left (total_mono fun i => blocks_mono (hle i)) _)

theorem TooBig.append {l l' : List UInt8} (h : TooBig (update c i (c i ++ l)))
    (hle : l.length ≤ l'.length) : TooBig (update c i (c i ++ l')) := by
  refine h.mono fun j => ?_
  by_cases hj : j = i
  · rw [hj, update_self, update_self, length_append, length_append]
    omega
  · rw [update_of_ne hj, update_of_ne hj]

/-- One pass of the loop of `iappend`, after the block was found. -/
theorem Grown.pass {Q : Dinode × ℕ → Image → Prop} {k : Dinode → MProg (Dinode × ℕ)}
    {n1 : ℕ} (h : Grown A c s) (hi : i < tableSize)
    (ha : A i = din.addrs) (hlen : (c i).length = off)
    (hn1 : n1 = min p.length (BSIZE - off % BSIZE)) (hp : p ≠ []) (hmax : off < MAXFILE * BSIZE)
    (hE : TooBig (update c i (c i ++ p.take n1)) → E .read)
    (hk : ∀ din' t, Grown (update A i din'.addrs)
        (update c i (c i ++ p.take n1)) t → Above s t →
      { din with addrs := din'.addrs } = din' → Makes E Q (k din') t) :
    Makes E Q (do
      let (din, x) ← fileSector din (off / BSIZE)
      let buf ← rsect x
      wsect x (buf.put (off % BSIZE) (p.take n1))
      k din) s := by
  have hpos := length_pos_iff.2 hp
  have htake : (c i ++ p.take n1).length = off + n1 := by
    rw [length_append, length_take, hlen]
    omega
  have hblocks : blocks (off + n1) = off / BSIZE + 1 := by
    unfold blocks BSIZE at *
    omega
  have hnb : blocksOf c i = blocks off := by rw [blocksOf, hlen]
  have hafter : blocksOf (update c i (c i ++ p.take n1)) =
      update (blocksOf c) i (off / BSIZE + 1) := by
    rw [blocksOf_update, htake, hblocks]
  have hbn : off / BSIZE < MAXFILE := by
    unfold BSIZE MAXFILE at *
    omega
  -- the rest of the pass, from a state in which the block is there
  have hrest : ∀ din' t, Laying (update A i din'.addrs)
      (update (blocksOf c) i (off / BSIZE + 1)) t →
      Carries (update A i din'.addrs) (update (blocksOf c) i (off / BSIZE + 1)) c t →
      Above s t → { din with addrs := din'.addrs } = din' →
      (t.freeblock ≤ size ∨ fileBlock t.sect din'.addrs (off / BSIZE) + 1 = t.freeblock) →
      Makes E Q (do
        let buf ← rsect (fileBlock t.sect din'.addrs (off / BSIZE))
        wsect (fileBlock t.sect din'.addrs (off / BSIZE)) (buf.put (off % BSIZE) (p.take n1))
        k din') t := by
    intro din' t hlay hcar habove hfields hroom
    have hself : update A i din'.addrs i = din'.addrs := update_self _ _ _
    have hbn' : off / BSIZE < update (blocksOf c) i (off / BSIZE + 1) i := by
      rw [update_self]
      omega
    obtain ⟨hlow, hlt⟩ := hlay.fileBlock_lt hbn'
    obtain ⟨hlay', hcar'⟩ := hlay.put hcar hlen hbn' hn1
    rw [hself] at hlow hlt hlay' hcar'
    refine makes_bind (makes_rsect ?_ fun hin => ?_)
    · intro hout
      refine hE ?_
      rw [TooBig, hafter, ← hlay.laid.count]
      rw [hlay.nsect] at hout
      omega
    · refine makes_bind (makes_wsect_of_lt hin ?_)
      refine hk din' _ ⟨?_, ?_, ?_⟩ (habove.trans ⟨fun b hb => ?_, rfl⟩) hfields
      · rw [hafter]
        exact hlay'
      · rw [hafter]
        exact hcar'
      · rw [hlay.nsect] at hin
        dsimp only [Image.write]
        omega
      · exact update_of_ne (Nat.ne_of_lt (lt_of_lt_of_le hb hlow)) _ _
  refine makes_bind (makes_fileSector h.laying h.room hi ha hbn ?_ ?_ ?_ ?_)
  · intro heq hbig
    refine hE ?_
    rw [TooBig, hafter, heq]
    exact hbig
  · intro hlt
    have hnb' : update (blocksOf c) i (off / BSIZE + 1) = blocksOf c := by
      rw [Function.update_eq_self_iff, hnb]
      rw [hnb] at hlt
      unfold blocks BSIZE at *
      omega
    have hA : update A i din.addrs = A := by rw [← ha, update_eq_self]
    refine hrest din s ?_ ?_ (.refl s) rfl (Or.inl h.room)
    · rw [hA, hnb']
      exact h.laying
    · rw [hA, hnb']
      exact h.carries
  · intro din' t heq hadd
    have hcar := hadd.carries h.carries (by
      rw [← heq, hlen]
      rw [hnb] at heq
      unfold blocks BSIZE at *
      omega)
    have hlay := hadd.laying
    have hblock := hadd.block
    rw [← heq] at hlay hcar hblock
    exact hrest din' t hlay hcar hadd.above hadd.fields (Or.inr hblock)
  · rw [hnb]
    unfold blocks BSIZE
    omega

theorem makes_appendLoop {Q : Dinode × ℕ → Image → Prop} (hi : i < tableSize) (fuel : ℕ)
    (p : List UInt8) (hfuel : p.length ≤ fuel) (h : Grown A c s) (ha : A i = din.addrs)
    (hlen : (c i).length = off) (hmax : off + p.length ≤ MAXFILE * BSIZE)
    (hE : TooBig (update c i (c i ++ p)) → E .read)
    (hQ : ∀ din' t, Grown (update A i din'.addrs) (update c i (c i ++ p)) t →
      Above s t → { din with addrs := din'.addrs } = din' → Q (din', off + p.length) t) :
    Makes E Q (appendLoop fuel din off p) s := by
  have hnil : p = [] → Q (din, off) s := by
    rintro rfl
    have hA : update A i din.addrs = A := by rw [← ha, update_eq_self]
    refine hQ din s ?_ (.refl s) rfl
    rw [hA, append_nil, update_eq_self]
    exact h
  induction fuel generalizing p A c s din off with
  | zero =>
    exact makes_pure (hnil (length_eq_zero_iff.1 (Nat.le_zero.1 hfuel)))
  | succ fuel ih =>
    rw [appendLoop]
    by_cases hp : p = []
    · rw [if_pos hp]
      exact makes_pure (hnil hp)
    rw [if_neg hp]
    have hpos := length_pos_iff.2 hp
    have hn1 : min p.length ((off / BSIZE + 1) * BSIZE - off) =
        min p.length (BSIZE - off % BSIZE) := by
      unfold BSIZE
      omega
    have hoff : off - off / BSIZE * BSIZE = off % BSIZE := by
      unfold BSIZE
      omega
    have hbn : off / BSIZE < MAXFILE := by
      unfold BSIZE MAXFILE at *
      omega
    rw [hn1, hoff]
    generalize hm : min p.length (BSIZE - off % BSIZE) = n1
    have hn1pos : 0 < n1 := by
      unfold BSIZE at hm
      omega
    refine makes_bind (makes_assert (decide_eq_true hbn) ?_)
    refine h.pass (k := fun din => appendLoop fuel din (off + n1) (p.drop n1)) hi ha hlen
      hm.symm hp (by omega) ?_ ?_
    · intro hbig
      refine hE (hbig.append ?_)
      rw [length_take]
      exact Nat.min_le_right _ _
    · intro din' t hgrown habove hfields
      have htake : (p.take n1).length = n1 := by
        rw [length_take]
        omega
      have hself : update A i din'.addrs i = din'.addrs := update_self _ _ _
      have happ : update (update c i (c i ++ p.take n1)) i
          (update c i (c i ++ p.take n1) i ++ p.drop n1) =
          update c i (c i ++ p) := by
        rw [update_self, update_idem, append_assoc, take_append_drop]
      refine ih (p.drop n1) ?_ hgrown hself ?_ ?_ ?_ ?_ ?_
      · rw [length_drop]
        omega
      · rw [update_self, length_append, htake, hlen]
      · rw [length_drop]
        omega
      · rw [happ]
        exact hE
      · intro din'' u hgrown' habove' hfields'
        rw [happ, update_idem] at hgrown'
        have := hQ din'' u hgrown' (habove.trans habove') (by rw [← hfields', ← hfields])
        rwa [length_drop, show off + n1 + (p.length - n1) = off + p.length by omega]
      · intro hdrop
        have hall : n1 = p.length := by
          have := congrArg List.length hdrop
          rw [length_drop, length_nil] at this
          omega
        have hgrown' := hgrown
        rw [hall, take_length] at hgrown'
        rw [hall]
        exact hQ din' t hgrown' habove hfields

end Qwin.Mkfs
