import Qwin.Fs.Bmap

/-!
# `readi` and `writei`

Both walk through a range of bytes block by block. The reader finds every block of the
range mapped and changes nothing. The writer maps what is missing, and afterwards the
range holds the source bytes while every other byte of every file is what it was.
-/

namespace Qwin.Fs

open Prog List
open Function (update update_of_ne update_eq_self)

variable {p : ℕ} {E : End BState → Prop} {st st' : BState} {sb : Superblock}
  {A : ℕ → Fin 13 → ℕ} {F : Finset ℕ} {i ip r : ℕ} {X : ℕ → Prop}

def bytesAt (d : ℕ → Block) (a : Fin 13 → ℕ) (off n : ℕ) : List UInt8 :=
  (List.range n).map fun t => (byteAt d a (off + t)).getD 0

def contents (d : ℕ → Block) (e : Extent) : List UInt8 := bytesAt d e.addrs 0 e.size

/-- The blocks of a file that hold bytes `off .. off + n - 1` are mapped. -/
def MappedRange (d : ℕ → Block) (a : Fin 13 → ℕ) (off n : ℕ) : Prop :=
  ∀ o, off ≤ o → o < off + n → fileBlock d a (o / BSIZE) ≠ 0

@[simp] theorem length_bytesAt (d : ℕ → Block) (a : Fin 13 → ℕ) (off n : ℕ) :
    (bytesAt d a off n).length = n := by
  simp [bytesAt]

theorem bytesAt_add (d : ℕ → Block) (a : Fin 13 → ℕ) (off m n : ℕ) :
    bytesAt d a off (m + n) = bytesAt d a off m ++ bytesAt d a (off + m) n := by
  unfold bytesAt
  rw [range_add, map_append, map_map]
  congr 1
  apply map_congr_left
  intro t _
  rw [Function.comp, Nat.add_assoc]

theorem chunk {off m t : ℕ} (hm : m ≤ BSIZE - off % BSIZE) (ht : t < m) :
    (off + t) / BSIZE = off / BSIZE ∧ (off + t) % BSIZE = off % BSIZE + t := by
  unfold BSIZE at hm ⊢
  constructor <;> omega

theorem slice_eq_bytesAt {d : ℕ → Block} {a : Fin 13 → ℕ} {off m : ℕ}
    (hm : m ≤ BSIZE - off % BSIZE) (hmap : fileBlock d a (off / BSIZE) ≠ 0) :
    (d (fileBlock d a (off / BSIZE))).slice (off % BSIZE) m = bytesAt d a off m := by
  unfold Bytes.slice bytesAt
  apply map_congr_left
  intro t ht
  obtain ⟨h1, h2⟩ := chunk hm (mem_range.1 ht)
  rw [byteAt, h1, if_neg hmap, h2, Option.getD_some]

/-! ## Reading -/

section

variable (hheld : st.held = []) (hp : E (.stop (.panic .bgetNoBuffers)) ∨ st.pinned < NBUF)
include hheld hp

theorem runs_bmap_mapped {Q : ℕ → BState → Prop} {bn : ℕ} (hbn : bn < MAXFILE)
    (hmap : fileBlock st.disk (st.extent ip).addrs bn ≠ 0)
    (h : Q (fileBlock st.disk (st.extent ip).addrs bn) st) : Runs p E Q (bmap ip bn) st := by
  by_cases hdir : bn < NDIRECT
  · have hblock : fileBlock st.disk (st.extent ip).addrs bn =
        (st.extent ip).addrs ⟨bn, Nat.lt_succ_of_lt hdir⟩ := by
      rw [fileBlock, filePos, if_pos hdir]
      exact ptr_addr _ _ ⟨bn, _⟩
    rw [hblock] at hmap h
    rw [bmap, dif_pos hdir, bmapAddr, Runs, wp_bind]
    refine runs_getExtent ?_
    rw [if_neg hmap]
    exact wp_pure h
  · have hj : bn - NDIRECT < NINDIRECT := by
      have : bn < 140 := hbn
      unfold NDIRECT NINDIRECT
      omega
    have hind : (st.extent ip).addrs 12 ≠ 0 := by
      intro h0
      have hpos : bn + 1 = 13 + (bn - NDIRECT) := by
        have : ¬ bn < 12 := hdir
        unfold NDIRECT
        omega
      rw [fileBlock, filePos, if_neg hdir, hpos, ptr_entry_of_zero _ h0] at hmap
      exact hmap rfl
    rw [fileBlock_indirect _ hind hdir] at hmap h
    rw [bmap, dif_neg hdir, if_pos hj, bmapAddr, Runs, wp_bind, wp_bind]
    refine runs_getExtent ?_
    rw [if_neg hind]
    refine wp_pure ?_
    rw [bmapEntry, wp_bind]
    refine runs_bread_of_pinned (by rw [hheld]; exact not_mem_nil) hp ?_
    rw [if_neg hmap, wp_bind]
    refine runs_brelse ?_
    rw [erase_cons_head]
    exact wp_pure h

theorem runs_readLoop {Q : List UInt8 → BState → Prop} (fuel n off : ℕ)
    (hfuel : n ≤ fuel) (hmax : off + n ≤ MAXFILE * BSIZE)
    (hmap : MappedRange st.disk (st.extent ip).addrs off n)
    (h : Q (bytesAt st.disk (st.extent ip).addrs off n) st) :
    Runs p E Q (readLoop ip fuel n off) st := by
  induction fuel generalizing n off Q with
  | zero =>
    obtain rfl : n = 0 := by omega
    rw [readLoop]
    exact wp_pure h
  | succ fuel ih =>
    rw [readLoop]
    by_cases hn : n = 0
    · subst hn
      rw [if_pos rfl]
      exact wp_pure h
    · have hfirst := hmap off (le_refl off) (by omega)
      have hbn : off / BSIZE < MAXFILE := by
        unfold BSIZE MAXFILE at *
        omega
      have hpos : 0 < BSIZE - off % BSIZE := by
        unfold BSIZE
        omega
      rw [if_neg hn, Runs, wp_bind]
      refine runs_bmap_mapped hheld hp hbn hfirst ?_
      rw [wp_bind]
      refine runs_bread_of_pinned (by rw [hheld]; exact not_mem_nil) hp ?_
      dsimp only
      rw [wp_bind]
      refine runs_brelse ?_
      rw [erase_cons_head, wp_bind]
      refine ih _ _ (by omega) (by omega) ?_ (wp_pure ?_)
      · intro o h1 h2
        exact hmap o (by omega) (by omega)
      · rw [slice_eq_bytesAt (Nat.min_le_right _ _) hfirst, ← bytesAt_add,
          show min n (BSIZE - off % BSIZE) + (n - min n (BSIZE - off % BSIZE)) = n by omega]
        exact h

end

theorem drop_take_contents (d : ℕ → Block) (e : Extent) {off n : ℕ} (h : off + n ≤ e.size) :
    ((contents d e).drop off).take n = bytesAt d e.addrs off n := by
  have hsplit : contents d e = bytesAt d e.addrs 0 off ++
      (bytesAt d e.addrs off n ++ bytesAt d e.addrs (off + n) (e.size - (off + n))) := by
    rw [← bytesAt_add, contents]
    have := bytesAt_add d e.addrs 0 off (n + (e.size - (off + n)))
    rw [Nat.zero_add] at this
    rw [← this, show off + (n + (e.size - (off + n))) = e.size by omega]
  rw [hsplit, drop_left' (length_bytesAt _ _ _ _), take_left' (length_bytesAt _ _ _ _)]

/-- A sum of two 32-bit numbers wraps below each of them, or is exact. -/
theorem wraps_or_eq {a b : ℕ} (ha : a < 2 ^ 32) (hb : b < 2 ^ 32) :
    (a + b) % 2 ^ 32 < a ∨ (a + b) % 2 ^ 32 = a + b := by
  omega

/-- `readi` returns the bytes of the range that lie in the file, and changes nothing. -/
theorem runs_readi {Q : Option (List UInt8) → BState → Prop} (hheld : st.held = [])
    (hp : E (.stop (.panic .bgetNoBuffers)) ∨ st.pinned < NBUF) (off n : ℕ)
    (hsize : (st.extent ip).size ≤ MAXFILE * BSIZE)
    (hmap : MappedRange st.disk (st.extent ip).addrs 0 (st.extent ip).size)
    (hbad : (st.extent ip).size < off ∨ (off + n) % 2 ^ 32 < off → Q none st)
    (hgood : ¬ ((st.extent ip).size < off ∨ (off + n) % 2 ^ 32 < off) →
      Q (some (((contents st.disk (st.extent ip)).drop off).take n)) st)
    (hoff : off < 2 ^ 32) (hn : n < 2 ^ 32) : Runs p E Q (readi ip off n) st := by
  unfold readi
  rw [Runs, wp_bind]
  refine runs_getExtent ?_
  by_cases hcond : (st.extent ip).size < off ∨ (off + n) % 2 ^ 32 < off
  · rw [if_pos hcond]
    exact wp_pure (hbad hcond)
  · have hmod : (off + n) % 2 ^ 32 = off + n :=
      (wraps_or_eq hoff hn).resolve_left fun hw => hcond (Or.inr hw)
    have hQ := hgood hcond
    rw [if_neg hcond, hmod]
    rw [hmod] at hcond
    dsimp only
    -- the number of bytes that are left in the file
    obtain ⟨m, hm, hle, htake⟩ : ∃ m, (if (st.extent ip).size < off + n
        then (st.extent ip).size - off else n) = m ∧ off + m ≤ (st.extent ip).size ∧
        ((contents st.disk (st.extent ip)).drop off).take n =
          bytesAt st.disk (st.extent ip).addrs off m := by
      split
      · refine ⟨_, rfl, by omega, ?_⟩
        rw [← drop_take_contents _ _ (by omega), take_of_length_le (by simp [contents]; omega),
          take_of_length_le (by simp [contents])]
      · exact ⟨_, rfl, by omega, drop_take_contents _ _ (by omega)⟩
    rw [htake] at hQ
    rw [hm, wp_bind]
    refine runs_readLoop hheld hp _ _ _ (le_refl _) (by omega) ?_ (wp_pure hQ)
    intro o h1 h2
    exact hmap o (Nat.zero_le o) (by omega)

/-! ## Writing -/

/-- The number of blocks that `n` bytes from `off` on touch. -/
def touched (off n : ℕ) : ℕ := if n = 0 then 0 else (off + n - 1) / BSIZE - off / BSIZE + 1

theorem touched_chunk {off n : ℕ} (hn : n ≠ 0) :
    touched off n = touched (off + min n (BSIZE - off % BSIZE))
      (n - min n (BSIZE - off % BSIZE)) + 1 := by
  unfold touched BSIZE
  rw [if_neg hn]
  split <;> omega

/-- These blocks. -/
def span (off n : ℕ) : List ℕ := List.range' (off / BSIZE) (touched off n)

theorem span_chunk {off n : ℕ} (hn : n ≠ 0) :
    span off n = off / BSIZE :: span (off + min n (BSIZE - off % BSIZE))
      (n - min n (BSIZE - off % BSIZE)) := by
  rw [span, touched_chunk hn, range'_succ, span]
  by_cases h0 : n - min n (BSIZE - off % BSIZE) = 0
  · rw [h0]
    rfl
  · have hnext : (off + min n (BSIZE - off % BSIZE)) / BSIZE = off / BSIZE + 1 := by
      unfold BSIZE at h0 ⊢
      omega
    rw [hnext]

theorem fileStep_write {bn : ℕ} {v : Block} (h : InOrder sb (view A i ip st) st.disk)
    (hbn : fileBlock st.disk (st.extent ip).addrs bn ≠ 0)
    (hX : ∀ o, ¬ X o → o / BSIZE = bn → v.getByte (o % BSIZE) =
      (st.disk (fileBlock st.disk (st.extent ip).addrs bn)).getByte (o % BSIZE)) :
    FileStep sb A i ip X st (st.write (fileBlock st.disk (st.extent ip).addrs bn) v) := by
  have hwrite := h.write (i := i) (k := filePos bn) v
  have hbyte := owned_byteAt_write h.owned (i := i) (n := bn)
  have hblock := owned_ptr_write h.owned (i := i) bn v i
  have hdata := h.inData (i := i) (k := filePos bn)
  rw [view_self] at hwrite hbyte hblock hdata
  have hstart : sb.dataStart ≤ fileBlock st.disk (st.extent ip).addrs bn := (hdata hbn).1
  refine ⟨hwrite hbn (filePos_ne_twelve bn), ?_, ⟨_, (update_eq_self _ _).symm⟩,
    rfl, rfl, rfl, ?_, ?_, ?_⟩
  · refine fun hlog => hlog.update v fun b hb => ?_
    exact Nat.ne_of_lt (lt_of_lt_of_le (bblock_lt_dataStart hb) hstart)
  · intro j o w hj hw
    change byteAt (update st.disk _ v) (view A i ip st j) o = some w
    rw [hbyte hbn v j o]
    by_cases hin : j = i ∧ o / BSIZE = bn
    · obtain ⟨rfl, hbo⟩ := hin
      rw [if_pos ⟨rfl, hbo⟩, hX o (hj rfl) hbo, ← hw, view_self,
        byteAt_of_mapped (by rw [hbo]; exact hbn), hbo]
    · rw [if_neg hin]
      exact hw
  · intro n hn
    change fileBlock (update st.disk _ v) (st.extent ip).addrs n ≠ 0
    rw [fileBlock, hblock (filePos n)]
    exact hn
  · intro j hj
    have hne : iblock j ≠ fileBlock st.disk (st.extent ip).addrs bn :=
      Nat.ne_of_lt (lt_of_lt_of_le (iblock_lt_dataStart hj) hstart)
    exact update_of_ne hne _ _

/-- Writing a block of a file changes neither the map of the file nor what is free. -/
theorem file_write {bn : ℕ} (h : InOrder sb (view A i ip st) st.disk)
    (hbn : st.file ip bn ≠ 0) (v : Block) :
    (st.write (st.file ip bn) v).file ip = st.file ip ∧
      freeBlocks sb (st.write (st.file ip bn) v).disk = freeBlocks sb st.disk := by
  have hptr := owned_ptr_write h.owned (i := i) bn v i
  have hdata := h.inData (i := i) (k := filePos bn)
  rw [view_self] at hptr hdata
  exact ⟨funext fun x => hptr (filePos x), freeBlocks_update (hdata hbn).1 v⟩

theorem Supply.write {bn : ℕ} {bns : List ℕ} (h : InOrder sb (view A i ip st) st.disk)
    (hsup : Supply E sb ip F bns st) (hbn : st.file ip bn ≠ 0) (hmay : May E F (st.file ip bn))
    (v : Block) : Supply E sb ip F bns (st.write (st.file ip bn) v) := by
  obtain ⟨hfile, hfree⟩ := file_write h hbn v
  have hblocks := hsup.blocks
  have hlogs := hsup.may
  rw [BState.missing, ← hfile, ← hfree] at hblocks
  rw [BState.logs, ← hfile, ← hfree] at hlogs
  exact ⟨hblocks, hsup.ready.write hmay v, hlogs⟩

/-- What the loop of `writei` guarantees when it ends at `off'`. -/
structure Wrote (sb : Superblock) (A : ℕ → Fin 13 → ℕ) (i ip off : ℕ) (src : List UInt8)
    (st : BState) (off' : ℕ) (st' : BState) : Prop where
  step : FileStep sb A i ip (fun o => off ≤ o ∧ o < off + src.length) st st'
  offset : off' = off + src.length
  data : ∀ t v, src[t]? = some v →
    byteAt st'.disk (st'.extent ip).addrs (off + t) = some v
  same : MappedRange st.disk (st.extent ip).addrs off src.length → st'.extent = st.extent

/-- `I` says that there are resources for the blocks that are still to be written: they let
`bmap` find the first one and `log_write` log it, and suffice for the others. -/
def Passes (p : ℕ) (E : End BState → Prop) (sb : Superblock) (A : ℕ → Fin 13 → ℕ) (i ip : ℕ)
    (I : List ℕ → BState → Prop) : Prop :=
  ∀ bn bns st, InOrder sb (view A i ip st) st.disk → (E .assumed ∨ LogReserved sb st.disk) →
    st.held = [] → bn < MAXFILE → bn ∉ bns → I (bn :: bns) st →
    Runs p E (fun r st' => Bmapped sb A i ip bn st r st' ∧
      CanLog E { st' with held := r :: st'.held } ∧ ∀ v, I bns (st'.write r v)) (bmap ip bn) st

theorem passes_supply : Passes p E sb A i ip (Supply E sb ip F) := by
  intro bn bns st h hlog hheld hbn hnext hsup
  refine wp_conseq (runs_bmap h hlog hheld hnext hbn hsup) ?_
  rintro r st' ⟨hb, hmay, hsup'⟩
  refine ⟨hb, (hsup'.ready.hold hmay).canLog, fun v => ?_⟩
  obtain rfl : st'.file ip bn = r := hb.block
  exact hsup'.write hb.step.order hb.ne_zero hmay v

/-- All blocks that are still to be written are mapped, and all but the last are in `F`. -/
structure Rewrites (ip : ℕ) (F : Finset ℕ) (last : ℕ) (bns : List ℕ) (st : BState) : Prop where
  mapped : ∀ bn ∈ bns, st.file ip bn ≠ 0
  room : bns ≠ [] → LogRoom st F
  mem : ∀ bn ∈ bns.dropLast, st.file ip bn ∈ F
  last : ∀ bn ∈ bns, st.file ip bn ∈ insert last F

theorem Rewrites.write {last bn : ℕ} {bns : List ℕ} (h : InOrder sb (view A i ip st) st.disk)
    (hI : Rewrites ip F last (bn :: bns) st) (v : Block) :
    Rewrites ip F last bns (st.write (st.file ip bn) v) := by
  have hfile := (file_write h (hI.mapped bn mem_cons_self) v).1
  refine ⟨fun x hx => ?_, fun hne => ?_, fun x hx => ?_, fun x hx => ?_⟩
  · rw [hfile]
    exact hI.mapped x (mem_cons_of_mem bn hx)
  · refine (hI.room (cons_ne_nil _ _)).write (hI.mem bn ?_) v
    rw [dropLast_cons_of_ne_nil hne]
    exact mem_cons_self
  · rw [hfile]
    refine hI.mem x ?_
    rw [dropLast_cons_of_ne_nil (ne_nil_of_mem (dropLast_subset _ hx))]
    exact mem_cons_of_mem bn hx
  · rw [hfile]
    exact hI.last x (mem_cons_of_mem bn hx)

theorem passes_rewrites {last : ℕ} (hcard : (insert last F).card < NBUF) :
    Passes p E sb A i ip (Rewrites ip F last) := by
  intro bn bns st h _ hheld hbn _ hI
  have hmap := hI.mapped bn mem_cons_self
  have hlog : CanLog E { st with held := st.file ip bn :: st.held } := by
    refine (hI.room (cons_ne_nil _ _)).canLog_hold (lt_of_le_of_lt (Finset.card_le_card ?_) hcard)
    exact Finset.insert_subset (hI.last bn mem_cons_self) (Finset.subset_insert _ _)
  exact runs_bmap_mapped hheld hlog.pinned_lt hbn hmap
    ⟨⟨FileStep.refl h, rfl, hmap, fun _ => rfl⟩, hlog, fun v => hI.write h v⟩

/-- The bytes of the first block of a range after the pass that writes them. -/
theorem getByte_put_chunk {b : Block} {off m o : ℕ} {src : List UInt8}
    (hm : m = min src.length (BSIZE - off % BSIZE)) (ho : o / BSIZE = off / BSIZE) :
    (b.put (off % BSIZE) (src.take m)).getByte (o % BSIZE) =
      if off ≤ o ∧ o < off + m then src.getD (o - off) 0 else b.getByte (o % BSIZE) := by
  have hlen : (src.take m).length = m := by
    rw [length_take]
    omega
  have hlt : o % BSIZE < 512 := Nat.mod_lt o (by decide)
  rw [Bytes.getByte_put _ _ hlt, hlen]
  have hin : off % BSIZE ≤ o % BSIZE ∧ o % BSIZE < off % BSIZE + m ↔ off ≤ o ∧ o < off + m := by
    unfold BSIZE at ho ⊢
    omega
  by_cases h : off ≤ o ∧ o < off + m
  · have hsub : o % BSIZE - off % BSIZE = o - off := by
      unfold BSIZE at ho ⊢
      omega
    rw [if_pos (hin.2 h), if_pos h, hsub, getD_eq_getElem?_getD,
      getD_eq_getElem?_getD, List.getElem?_take, if_pos (by omega)]
  · rw [if_neg fun hc => h (hin.1 hc), if_neg h]

/-- One pass of the loop of `writei`, from the state `bmap` leaves. -/
theorem fileStep_pass {off m : ℕ} {src : List UInt8} (h : InOrder sb (view A i ip st) st.disk)
    (hm : m = min src.length (BSIZE - off % BSIZE))
    (hr : fileBlock st.disk (st.extent ip).addrs (off / BSIZE) = r) (hr0 : r ≠ 0) :
    FileStep sb A i ip (fun o => off ≤ o ∧ o < off + m) st
        (st.write r ((st.disk r).put (off % BSIZE) (src.take m))) ∧
      ∀ t v, t < m → src[t]? = some v →
        byteAt (st.write r ((st.disk r).put (off % BSIZE) (src.take m))).disk
          (st.extent ip).addrs (off + t) = some v := by
  subst hr
  constructor
  · refine fileStep_write h hr0 fun o ho hbo => ?_
    rw [getByte_put_chunk hm hbo, if_neg ho]
  · intro t v ht hv
    have hbyte := owned_byteAt_write h.owned (i := i) (n := off / BSIZE)
    rw [view_self] at hbyte
    obtain ⟨h1, -⟩ := chunk (by omega : m ≤ BSIZE - off % BSIZE) ht
    have hb := hbyte hr0 ((st.disk (fileBlock st.disk (st.extent ip).addrs (off / BSIZE))).put
      (off % BSIZE) (src.take m)) i (off + t)
    rw [view_self, if_pos ⟨rfl, h1⟩, getByte_put_chunk hm h1, if_pos ⟨by omega, by omega⟩,
      show off + t - off = t by omega, getD_eq_getElem?_getD, hv, Option.getD_some] at hb
    exact hb

theorem runs_writeLoop {I : List ℕ → BState → Prop} (hI : Passes p E sb A i ip I) (fuel : ℕ)
    (src : List UInt8) (off : ℕ) (hfuel : src.length ≤ fuel)
    (hmax : off + src.length ≤ MAXFILE * BSIZE)
    (h : InOrder sb (view A i ip st) st.disk) (hlog : E .assumed ∨ LogReserved sb st.disk)
    (hheld : st.held = []) (hsup : I (span off src.length) st) :
    Runs p E (fun off' st' => Wrote sb A i ip off src st off' st' ∧ I [] st')
      (writeLoop ip fuel src off) st := by
  induction fuel generalizing src off st with
  | zero =>
    obtain rfl : src = [] := length_eq_zero_iff.1 (by omega)
    rw [writeLoop]
    exact wp_pure ⟨⟨FileStep.refl h, rfl, by simp, fun _ => rfl⟩, hsup⟩
  | succ fuel ih =>
    rw [writeLoop]
    by_cases hnil : src = []
    · subst hnil
      rw [if_pos rfl]
      exact wp_pure ⟨⟨FileStep.refl h, rfl, by simp, fun _ => rfl⟩, hsup⟩
    have hlen : src.length ≠ 0 := fun h0 => hnil (length_eq_zero_iff.1 h0)
    have hbn : off / BSIZE < MAXFILE := by
      unfold BSIZE MAXFILE at *
      omega
    have hpos : 0 < BSIZE - off % BSIZE := by
      unfold BSIZE
      omega
    obtain ⟨m, hm⟩ : ∃ m, m = min src.length (BSIZE - off % BSIZE) := ⟨_, rfl⟩
    have hnext : off / BSIZE ∉ span (off + m) (src.length - m) := by
      have hnodup : (span off src.length).Nodup := nodup_range'
      rw [span_chunk hlen, ← hm, nodup_cons] at hnodup
      exact hnodup.1
    rw [span_chunk hlen, ← hm] at hsup
    rw [if_neg hnil, Runs, wp_bind]
    refine wp_conseq (hI _ _ st h hlog hheld hbn hnext hsup) ?_
    rintro r st1 ⟨hb, hcan, hsup1⟩
    have hheld1 : st1.held = [] := hb.step.held.trans hheld
    rw [wp_bind]
    refine runs_bread_of_pinned (by rw [hheld1]; exact not_mem_nil) hcan.pinned_lt ?_
    dsimp only
    rw [wp_bind]
    refine runs_logWrite hcan ?_
    rw [wp_bind]
    refine runs_brelse ?_
    simp only [BState.write, erase_cons_head, ← hm]
    obtain ⟨hpass, hdata⟩ := fileStep_pass hb.step.order hm hb.block hb.ne_zero
    have hrest := ih (src.drop m) (off + m) (by rw [length_drop]; omega)
      (by rw [length_drop]; omega) hpass.order
      (hlog.imp_right fun h => hpass.logRes (hb.step.logRes h)) hheld1
      (by rw [length_drop]; exact hsup1 _)
    refine wp_conseq hrest ?_
    rintro off' st' ⟨W, hend⟩
    have hstep := hb.step.trans hpass
    refine ⟨⟨(hstep.trans W.step).mono ?_, ?_, ?_, ?_⟩, hend⟩
    · rw [length_drop]
      rintro o ((ho | ho) | ho)
      · exact ho.elim
      · exact ⟨ho.1, by omega⟩
      · exact ⟨by omega, by omega⟩
    · rw [W.offset, length_drop]
      omega
    · intro t v hv
      rcases Nat.lt_or_ge t m with ht | ht
      · -- written in this pass and left alone by the rest
        have hkeep := W.step.bytes i (off + t) v (fun _ hX => absurd hX.1 (by omega))
        rw [view_self, view_self] at hkeep
        exact hkeep (hdata t v ht hv)
      · have hlater := W.data (t - m) v
        rw [List.getElem?_drop, show m + (t - m) = t by omega,
          show off + m + (t - m) = off + t by omega] at hlater
        exact hlater hv
    · intro hmap
      have hext : st1.extent = st.extent :=
        congrArg BState.extent (hb.same (hmap off (le_refl off) (by omega)))
      refine (W.same ?_).trans hext
      intro o h1 h2
      rw [length_drop] at h2
      exact hstep.mapped _ (hmap o (by omega) (by omega))

end Qwin.Fs
