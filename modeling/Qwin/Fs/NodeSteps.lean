import Qwin.Fs.Cache
import Qwin.Fs.Entries

/-!
# Rules for the inode level

One rule for each step of the inode level, and specifications of the functions of `fs.c`
that read and write directories, in terms of the nodes. A search in a directory of whole
entries does not stop: it ends with the first entry that fits, or with none.
-/

namespace Qwin.Fs

open Prog List

/-- What a run of an inode-level program by process `p` guarantees: a stop is one that `E`
allows, and a return satisfies `Q`. -/
abbrev Acts {α : Type} (p : ℕ) (E : End IState → Prop) (Q : α → IState → Prop) (c : IProg α)
    (s : IState) : Prop :=
  wp (inodeSem p) (fun _ _ _ => True) E Q c s

variable {α β γ : Type} {p : ℕ} {E : End IState → Prop} {s t : IState} {ip dp : ℕ}

/-! ## One rule for each step -/

variable {Q : α → IState → Prop}

theorem acts_core {Q : β → IState → Prop} {a : CoreAct β} {r : β} {c : Core}
    (hm : a.Meant s.core) (hx : s.core.exec p a = .ok (r, c))
    (h : Q r { s with core := c }) : Acts p E Q (core a) s := by
  refine wp_last (r := r) trivial ?_ h
  dsimp only [inodeSem]
  rw [if_pos hm, hx]

theorem acts_panic {q : Panic} (h : E (.stop (.panic q))) : Acts p E Q (panic q) s :=
  wp_abort (e := .stop (.panic q)) trivial rfl h

theorem acts_getInode {Q : Inode → IState → Prop} (h : Q (s.core.inode ip) s) :
    Acts p E Q (core (.getInode ip)) s :=
  acts_core trivial rfl h

theorem acts_getProc {Q : Proc → IState → Prop} (h : Q (s.core.pt.proc p) s) :
    Acts p E Q (core .getProc) s :=
  acts_core trivial rfl h

/-! ## Steps on the nodes -/

/-- The bytes of the node an entry stands for. -/
def IState.data (s : IState) (ip : ℕ) : List UInt8 := (s.node (s.inum ip)).data

theorem acts_disk {Q : β → IState → Prop} {a : DiskAct β} {r : β}
    (hx : execDisk a s = .ok (r, t)) (h : Q r t) : Acts p E Q (disk a) s :=
  wp_last (r := r) trivial hx h

theorem acts_size {Q : ℕ → IState → Prop} (hip : s.Loaded ip) (h : Q (s.data ip).length s) :
    Acts p E Q (disk (.size ip)) s := by
  refine acts_disk ?_ h
  dsimp only [execDisk]
  rw [if_pos hip]
  rfl

theorem acts_iupdate {Q : Unit → IState → Prop} (hip : s.Loaded ip)
    (ht : (s.core.inode ip).type ≠ 0) (h : Q () (s.setNode (s.inum ip)
      { s.node (s.inum ip) with attrs := (s.core.inode ip).attrs })) :
    Acts p E Q (disk (.iupdate ip)) s := by
  refine acts_disk ?_ h
  dsimp only [execDisk]
  rw [if_pos ⟨hip, ht⟩]

theorem acts_readi {Q : Option (List UInt8) → IState → Prop} {off n : ℕ} (hip : s.Loaded ip)
    (hlt : off + n < 2 ^ 32) (hoff : off ≤ (s.data ip).length)
    (h : Q (some (((s.data ip).drop off).take n)) s) : Acts p E Q (disk (.readi ip off n)) s := by
  refine acts_disk ?_ h
  dsimp only [execDisk]
  rw [if_pos ⟨hip, by omega, by omega⟩]
  refine if_neg fun hc => ?_
  rw [Nat.mod_eq_of_lt hlt] at hc
  exact hc.elim (Nat.not_lt.2 hoff) (by omega)

/-- The range of a write that `writei` refuses. -/
def refused (size off n : ℕ) : Prop :=
  size < off ∨ (off + n) % 2 ^ 32 < off ∨ MAXFILE * BSIZE < (off + n) % 2 ^ 32

theorem acts_writei {Q : Option ℕ → IState → Prop} {off : ℕ} {src : List UInt8}
    (hip : s.Loaded ip) (hclean : (s.core.inode ip).attrs = (s.node (s.inum ip)).attrs)
    (hoff : off < 2 ^ 32) (hn : src.length < 2 ^ 32)
    (hbad : refused (s.data ip).length off src.length → Q none s)
    (hgood : ¬ refused (s.data ip).length off src.length →
      Q (some src.length) (s.setNode (s.inum ip)
        { s.node (s.inum ip) with data := splice (s.data ip) off src })) :
    Acts p E Q (disk (.writei ip off src)) s := by
  by_cases hc : refused (s.data ip).length off src.length
  · refine acts_disk ?_ (hbad hc)
    dsimp only [execDisk]
    rw [if_pos ⟨hip, hclean, hoff, hn⟩]
    exact if_pos hc
  · refine acts_disk ?_ (hgood hc)
    dsimp only [execDisk]
    rw [if_pos ⟨hip, hclean, hoff, hn⟩]
    exact if_neg hc

/-! ## Searching a directory -/

/-- The first of the entries from `k` on for which `P` holds. -/
def firstFrom (data : List UInt8) (P : Dirent → Prop) [DecidablePred P] (k : ℕ) : Option ℕ :=
  (List.range' k (data.length / DESIZE - k)).find? fun j => P (entryAt data j)

section FirstFrom

variable {data : List UInt8} {P : Dirent → Prop} [DecidablePred P] {j k : ℕ}

theorem firstFrom_of_le (h : data.length / DESIZE ≤ k) : firstFrom data P k = none := by
  rw [firstFrom, Nat.sub_eq_zero_of_le h]
  rfl

theorem firstFrom_of_lt (h : k < data.length / DESIZE) :
    firstFrom data P k = if P (entryAt data k) then some k else firstFrom data P (k + 1) := by
  obtain ⟨m, hm⟩ : ∃ m, data.length / DESIZE - k = m + 1 :=
    Nat.exists_eq_succ_of_ne_zero (by omega)
  have hm' : data.length / DESIZE - (k + 1) = m := by omega
  rw [firstFrom, hm, List.range'_succ, List.find?_cons, firstFrom, hm']
  split
  next h => rw [if_pos (of_decide_eq_true h)]
  next h => rw [if_neg (of_decide_eq_false h)]

theorem firstFrom_eq_some (h : firstFrom data P k = some j) :
    j < data.length / DESIZE ∧ P (entryAt data j) := by
  have hmem := mem_of_find?_eq_some h
  rw [mem_range'_1] at hmem
  exact ⟨by omega, of_decide_eq_true (List.find?_some (p := fun j => P (entryAt data j)) h)⟩

theorem firstFrom_eq_none_iff : firstFrom data P 0 = none ↔ ∀ e ∈ entries data, ¬ P e := by
  rw [firstFrom, List.find?_eq_none, entries]
  simp [mem_range'_1]

end FirstFrom

/-- The entry that a search for a name accepts. -/
def Dirent.Named (name : List UInt8) (e : Dirent) : Prop :=
  e.inum ≠ 0 ∧ nameOf name = nameOf e.name

instance (name : List UInt8) : DecidablePred (Dirent.Named name) := fun _ =>
  inferInstanceAs (Decidable (_ ∧ _))

def Dirent.Free (e : Dirent) : Prop := e.inum = 0

instance : DecidablePred Dirent.Free := fun e => inferInstanceAs (Decidable (e.inum = 0))

/-- The offset and the inode number of the first entry with this name. -/
def lookup (data name : List UInt8) : Option (ℕ × ℕ) :=
  (firstFrom data (Dirent.Named name) 0).map fun k => (DESIZE * k, (entryAt data k).inum)

theorem lookup_inum (data name : List UInt8) :
    (lookup data name).map Prod.snd =
      ((entries data).find? fun e => e.Named name).map Dirent.inum := by
  rw [lookup, firstFrom, Option.map_map, Nat.sub_zero, ← range_eq_range', entries,
    List.find?_map, Option.map_map]
  rfl

/-- The first place where an entry can be written: a free one, or the end. -/
def vacancy (data : List UInt8) : ℕ :=
  (firstFrom data Dirent.Free 0).getD (data.length / DESIZE)

/-- The bytes are whole entries, and fit into a file. -/
structure Whole (data : List UInt8) : Prop where
  dvd : DESIZE ∣ data.length
  le : data.length ≤ MAXFILE * BSIZE

theorem Whole.length {data : List UInt8} (h : Whole data) :
    DESIZE * (data.length / DESIZE) = data.length :=
  Nat.mul_div_cancel' h.dvd

theorem Whole.mul_lt_iff {data : List UInt8} (h : Whole data) {k : ℕ} :
    DESIZE * k < data.length ↔ k < data.length / DESIZE := by
  have hlen := h.length
  unfold DESIZE at hlen ⊢
  omega

/-- A loop over the entries from place `k` on that stops at the first one with `P`. -/
theorem acts_scan {α : Type} {Q : α → IState → Prop} {data : List UInt8} {P : Dirent → Prop}
    [DecidablePred P] {loop : ℕ → ℕ → IProg α} (f : Option ℕ → α) (fuel k : ℕ)
    (hstop : ∀ fuel j, data.length / DESIZE ≤ j → j ≤ max (data.length / DESIZE) k →
      Q (f none) s → Acts p E Q (loop (fuel + 1) (DESIZE * j)) s)
    (hread : ∀ fuel j, j < data.length / DESIZE →
      Acts p E Q (if P (entryAt data j) then pure (f (some j)) else loop fuel (DESIZE * j + DESIZE)) s →
      Acts p E Q (loop (fuel + 1) (DESIZE * j)) s)
    (hpos : 0 < fuel) (hfuel : data.length / DESIZE < k + fuel) (h : Q (f (firstFrom data P k)) s) :
    Acts p E Q (loop fuel (DESIZE * k)) s := by
  induction fuel generalizing k with
  | zero => exact absurd hpos (lt_irrefl 0)
  | succ fuel ih =>
    rcases Nat.lt_or_ge k (data.length / DESIZE) with hlt | hge
    · refine hread fuel k hlt ?_
      rw [firstFrom_of_lt hlt] at h
      by_cases hP : P (entryAt data k)
      · rw [if_pos hP] at h ⊢
        exact wp_pure h
      · rw [if_neg hP] at h ⊢
        refine ih (k + 1) (fun fuel j hj hle => hstop fuel j hj ?_) (by omega) (by omega) h
        exact hle.trans (max_le (le_max_left _ _) (le_max_of_le_left hlt))
    · rw [firstFrom_of_le hge] at h
      exact hstop fuel k hge (le_max_right _ _) h

section Directory

variable (hdp : s.Loaded dp) (hdata : Whole (s.data dp))

include hdp hdata

theorem acts_readDirent {Q : Dirent → IState → Prop} {q : Panic} {k : ℕ}
    (hk : k < (s.data dp).length / DESIZE) (h : Q (entryAt (s.data dp) k) s) :
    Acts p E Q (readDirent dp (DESIZE * k) q) s := by
  have hlen := hdata.length
  have hmax : (s.data dp).length ≤ 71680 := hdata.le
  have hle : DESIZE * k + DESIZE ≤ (s.data dp).length := by
    unfold DESIZE at hk hlen ⊢
    omega
  refine wp_seq (acts_readi hdp ?_ (by omega) ?_)
  · unfold DESIZE at hle ⊢
    omega
  · dsimp only
    rw [if_pos (by rw [length_take, length_drop]; omega)]
    exact wp_pure h

variable {name : List UInt8} {Q : Option (ℕ × ℕ) → IState → Prop}

theorem acts_lookupLoop (fuel : ℕ) (hfuel : (s.data dp).length / DESIZE < fuel)
    (h : Q (lookup (s.data dp) name) s) : Acts p E Q (lookupLoop dp name (s.data dp).length fuel 0) s := by
  refine acts_scan (Option.map fun k => (DESIZE * k, (entryAt (s.data dp) k).inum)) fuel 0
    (fun fuel j hj _ hQ => ?_) (fun fuel j hj h => ?_) (Nat.zero_lt_of_lt hfuel) (by omega) h
  · rw [lookupLoop, if_neg (hdata.mul_lt_iff.not.2 hj.not_gt)]
    exact wp_pure hQ
  · rw [lookupLoop, if_pos (hdata.mul_lt_iff.2 hj)]
    refine wp_seq (acts_readDirent hdp hdata hj ?_)
    split
    next h0 => rwa [if_neg fun hn => hn.1 h0] at h
    next h0 =>
      split
      next hname => rwa [if_pos ⟨h0, namecmp_eq_zero_iff.1 hname⟩] at h
      next hname => rwa [if_neg fun hn => hname (namecmp_eq_zero_iff.2 hn.2)] at h

/-- `dirlookup` answers with the first entry of this name, and a reference to its inode. -/
theorem acts_dirlookup
    (hdev : (s.core.inode dp).dev = ROOTDEV) (htype : (s.core.inode dp).type = T_DIR)
    (hnone : lookup (s.data dp) name = none → Q none s)
    (hsome : ∀ off inum, lookup (s.data dp) name = some (off, inum) →
      Acts p E (fun ip s' => Q (some (ip, off)) s') (iget ROOTDEV inum) s) :
    Acts p E Q (dirlookup dp name) s := by
  refine wp_seq (acts_getInode ?_)
  rw [if_neg (not_not.2 htype)]
  refine wp_seq (acts_size hdp (wp_seq ?_))
  refine acts_lookupLoop hdp hdata _ (by omega) ?_
  cases hl : lookup (s.data dp) name with
  | none => exact wp_pure (hnone hl)
  | some x =>
    obtain ⟨off, inum⟩ := x
    dsimp only
    rw [hdev]
    exact wp_seq (wp_conseq (hsome off inum hl) fun ip s' hQ => wp_pure hQ)

theorem acts_emptyLoop {Q : ℕ → IState → Prop} (fuel : ℕ)
    (hfuel : (s.data dp).length / DESIZE < fuel)
    (h : Q (DESIZE * (firstFrom (s.data dp) Dirent.Free 0).getD
      ((s.data dp).length / DESIZE)) s) :
    Acts p E Q (emptyLoop dp (s.data dp).length fuel 0) s := by
  refine acts_scan (fun r => DESIZE * r.getD ((s.data dp).length / DESIZE)) fuel 0
    (fun fuel j hj hle hQ => ?_) (fun fuel j hj h => ?_) (Nat.zero_lt_of_lt hfuel) (by omega) h
  · rw [emptyLoop, if_neg (hdata.mul_lt_iff.not.2 hj.not_gt)]
    rw [Nat.max_zero] at hle
    rw [hle.antisymm hj]
    exact wp_pure hQ
  · rw [emptyLoop, if_pos (hdata.mul_lt_iff.2 hj)]
    exact wp_seq (acts_readDirent hdp hdata hj h)

/-- `dirlink` finds the name taken and gives the reference back, or writes the entry at
the first vacant place. There is none left when the directory has its largest size. -/
theorem acts_dirlink {Q : Bool → IState → Prop} {inum : ℕ}
    (hdev : (s.core.inode dp).dev = ROOTDEV) (htype : (s.core.inode dp).type = T_DIR)
    (hclean : (s.core.inode dp).attrs = (s.node (s.inum dp)).attrs)
    (htaken : ∀ off i, lookup (s.data dp) name = some (off, i) →
      Acts p E (fun ip s' => Acts p E (fun _ s'' => Q false s'') (iput ip) s')
        (iget ROOTDEV i) s)
    (hfull : lookup (s.data dp) name = none →
      DESIZE * vacancy (s.data dp) = MAXFILE * BSIZE → E (.stop (.panic .dirlink)))
    (hdone : lookup (s.data dp) name = none →
      DESIZE * vacancy (s.data dp) < MAXFILE * BSIZE →
      Q true (s.setNode (s.inum dp) { s.node (s.inum dp) with
        data := splice (s.data dp) (DESIZE * vacancy (s.data dp)) (Dirent.bytes inum name) })) :
    Acts p E Q (dirlink dp name inum) s := by
  refine wp_seq (acts_dirlookup hdp hdata hdev htype ?_ ?_)
  · intro hnone
    have hle : vacancy (s.data dp) ≤ (s.data dp).length / DESIZE := by
      unfold vacancy
      cases hf : firstFrom (s.data dp) Dirent.Free 0 with
      | none => exact le_rfl
      | some k => exact (firstFrom_eq_some hf).1.le
    have hlen := hdata.length
    have hmax : (s.data dp).length ≤ 71680 := hdata.le
    dsimp only
    refine wp_seq (acts_size hdp (wp_seq ?_))
    refine acts_emptyLoop hdp hdata _ (by omega) (wp_seq ?_)
    change Acts p E _ (disk (.writei dp (DESIZE * vacancy (s.data dp)) _)) s
    unfold DESIZE at hle hlen
    refine acts_writei hdp hclean (by unfold DESIZE; omega) (by rw [length_bytes]; decide) ?_ ?_
    · intro hbad
      rw [if_neg (by simp)]
      refine acts_panic (hfull hnone ?_)
      rw [length_bytes] at hbad
      unfold refused MAXFILE BSIZE DESIZE at *
      omega
    · intro hgood
      rw [length_bytes] at hgood ⊢
      rw [if_pos rfl]
      refine wp_pure (hdone hnone ?_)
      unfold refused MAXFILE BSIZE DESIZE at *
      omega
  · intro off i hsome
    refine wp_conseq (htaken off i hsome) ?_
    intro ip s' hput
    dsimp only
    exact wp_seq (wp_conseq hput fun _ s'' hQ => wp_pure hQ)

end Directory

end Qwin.Fs
