import Qwin.Fs.Tree
import Qwin.Sys.Getcwd

/-!
# The path that `sys_getcwd` writes

`name_for_inode` goes up to the root and writes the names on its way back. It reads the
directories above without locking them, which is good only for those that are in the cache
and have been read. The names come out cut to 13 bytes. After a name it writes a slash,
whether or not there is room for one, and the terminating zero is the second one of
`safestrcpy`; for the root itself there is no `safestrcpy` and no zero.
-/

namespace Qwin.Sys

open Prog Fs List
open Function (update update_of_ne update_self)

variable {p : ℕ} {E : End IState → Prop} {b : ℕ → ℤ} {own : List ℕ} {s t : IState}
  {node : ℕ → Node} {i dp q : ℕ} {names : List (List UInt8)} {buf : BitVec 32} {n : ℤ}

/-! ## The run -/

/-- The inode has an entry in the cache that has been read from the disk. -/
def IsRead (s : IState) (i : ℕ) : Prop :=
  ∃ q, 0 < (s.core.inode q).ref ∧ s.inum q = i ∧ (s.core.inode q).valid = true

/-- The references `b` keep such an entry in the cache. -/
def InCache (b : ℕ → ℤ) (s : IState) (i : ℕ) : Prop := 0 < b i ∧ IsRead s i

theorem InCache.kept (h : InCache b s i) (hk : Kept b s t) : InCache b t i := by
  obtain ⟨hb, q, hq, hi, hv⟩ := h
  obtain ⟨hq', hi', hv'⟩ := hk.entry q hq (hi.symm ▸ hb)
  exact ⟨hb, q, hq', hi'.trans hi, hv' hv⟩

theorem InCache.loaded (h : InCache b s i) (ht : Tidy none s) (hq : 0 < (s.core.inode q).ref)
    (hi : s.inum q = i) (hdir : IsDir s.node i) : s.Loaded q ∧ (s.core.inode q).type = T_DIR := by
  obtain ⟨-, r, hr, hri, hv⟩ := h
  obtain rfl := ht.unique q r hq hr (hi.trans hri.symm)
  have hp := ht.inPlace q hq
  have hdir' : (s.node (s.inum q)).attrs.type = T_DIR := hi.symm ▸ hdir
  refine ⟨⟨⟨hq, hp.known⟩, hv, ?_⟩, (congrArg Attrs.type (hp.clean hv)).trans hdir'⟩
  rw [hdir']
  decide

/-- The name under which `name_of_inode` finds an inode. -/
def nameIn (data : List UInt8) (i : ℕ) (k : ℕ) : Option (List UInt8) :=
  (firstFrom data (fun e => e.inum = i) k).map fun j => cut (nameOf (entryAt data j).name)

theorem cut_nameOf (s : List UInt8) : cut (nameOf s) = (cstring s).take (DIRSIZ - 1) := by
  rw [cut, nameOf, take_take]
  rfl

theorem acts_nameOfInode {Q : Option (List UInt8) → IState → Prop} (hdp : s.Loaded dp)
    (hdata : Whole (s.data dp)) (htype : (s.core.inode dp).type = T_DIR) (fuel : ℕ)
    (hfuel : (s.data dp).length / DESIZE < fuel) (h : Q (nameIn (s.data dp) i 0) s) :
    Acts p E Q (nameOfInode i dp fuel 0) s := by
  have hlen := hdata.length
  have hmax : (s.data dp).length ≤ 71680 := hdata.le
  refine acts_scan (Option.map fun k => cut (nameOf (entryAt (s.data dp) k).name)) fuel 0
    (fun fuel j hj _ hQ => ?_) (fun fuel j hj h => ?_) (Nat.zero_lt_of_lt hfuel) (by omega) h
  · rw [nameOfInode]
    refine wp_seq (acts_size hdp ?_)
    rw [if_neg (hdata.mul_lt_iff.not.2 hj.not_gt)]
    exact wp_pure hQ
  · have hle : DESIZE * j + DESIZE ≤ (s.data dp).length := by
      unfold DESIZE at hj hlen ⊢
      omega
    have hread : (((s.data dp).drop (DESIZE * j)).take DESIZE).length = DESIZE := by
      rw [length_take, length_drop]
      omega
    rw [nameOfInode]
    refine wp_seq (acts_size hdp ?_)
    rw [if_pos (hdata.mul_lt_iff.2 hj)]
    refine wp_seq (wp_seq (acts_getInode ?_))
    rw [if_neg (by rw [htype]; decide)]
    refine wp_seq (acts_readi hdp ?_ (by omega) (wp_pure ?_))
    · unfold DESIZE at hle ⊢
      omega
    dsimp only
    rw [if_neg (not_not.2 hread)]
    rw [Option.map_some, cut_nameOf] at h
    exact h

/-- A name is written behind the path so far. -/
def appendName (buf : BitVec 32) (n : ℤ) (x : ℤ × Stores) (name : List UInt8) : ℤ × Stores :=
  let path := x.2 ++ storesAt (buf + BitVec.ofInt 32 x.1) (safestrcpy (n - x.1).toNat name)
  let off := x.1 + name.length
  if off = n - 1 then (n, path ++ storesAt (buf + BitVec.ofInt 32 off) [0])
  else (off + 1, path ++ storesAt (buf + BitVec.ofInt 32 off) [slash])

def pathStores (buf : BitVec 32) (n : ℤ) (names : List (List UInt8)) : ℤ × Stores :=
  names.foldl (appendName buf n) (1, storesAt buf [slash])

theorem pathStores_concat (buf : BitVec 32) (n : ℤ) (names : List (List UInt8))
    (name : List UInt8) : pathStores buf n (names ++ [name]) =
      appendName buf n (pathStores buf n names) name := by
  rw [pathStores, foldl_append]
  rfl

theorem namei_slash : namei [slash] = (iget ROOTDEV ROOTINO >>= fun ip => pure (some ip)) := rfl

theorem nameIn_eq (htree : Tree node) {d : ℕ} {e : Dirent} (hd : IsDir node d)
    (he : e ∈ entries (node d).data) (hp : e.Proper) (hi : IsDir node e.inum) :
    nameIn (node d).data e.inum 0 = some (cut (nameOf e.name)) := by
  unfold nameIn
  cases hf : firstFrom (node d).data (fun x => x.inum = e.inum) 0 with
  | none => exact absurd rfl (firstFrom_eq_none_iff.1 hf e he)
  | some j =>
    obtain ⟨hj, hinum⟩ := firstFrom_eq_some hf
    have hmem := mem_of_getElem? (getElem?_entries hj)
    rw [Option.map_some, htree.once d hd e he _ hmem hp hi hinum]

section Up

variable {d : ℕ} {e : Dirent} (htree : Tree s.node) (hd : IsDir s.node d)
  (he : e ∈ entries (s.node d).data) (hp : e.Proper) (hi : IsDir s.node e.inum)
  (h : Holding b own none s)

include htree hd he hp hi h

theorem acts_dirlookup_up {Q : Option (ℕ × ℕ) → IState → Prop}
    (hself : InCache b s e.inum) (hup : InCache b s d) (hq : 0 < (s.core.inode q).ref)
    (hqi : s.inum q = e.inum)
    (hQ : ∀ r off t, Holding b (d :: own) none t → Kept 1 s t → 0 < (t.core.inode r).ref →
      t.inum r = d → Q (some (r, off)) t) : Acts p E Q (dirlookup q dotdot) s := by
  obtain ⟨hload, htype⟩ := hself.loaded h.toTidy hq hqi hi
  have hdata : s.data q = (s.node e.inum).data := by rw [IState.data, hqi]
  have hlook : (lookup (s.data q) dotdot).map Prod.snd = some d := by
    rw [hdata]
    exact (if_pos hi).symm.trans (htree.up d hd e he hp hi).2
  refine acts_dirlookup hload (hdata ▸ htree.whole _ hi) (h.inPlace q hq).dev htype ?_ ?_
  · intro hnone
    rw [hnone] at hlook
    cases hlook
  · intro off inum hsome
    rw [hsome] at hlook
    obtain rfl : inum = d := Option.some.inj hlook
    obtain ⟨-, r, hr, hri, -⟩ := hup
    exact acts_iget_cached h hr hri fun t => hQ r off t

theorem acts_nameOfInode_up {Q : Option (List UInt8) → IState → Prop} (hup : InCache b s d)
    (hq : 0 < (s.core.inode q).ref) (hqi : s.inum q = d)
    (hQ : Q (some (cut (nameOf e.name))) s) : Acts p E Q (nameOfInode e.inum q (2 ^ 28) 0) s := by
  obtain ⟨hload, htype⟩ := hup.loaded h.toTidy hq hqi hd
  have hdata : s.data q = (s.node d).data := by rw [IState.data, hqi]
  have hwhole : Whole (s.data q) := hdata ▸ htree.whole _ hd
  have hmax : (s.data q).length ≤ 71680 := hwhole.le
  have hdiv := Nat.div_le_self (s.data q).length DESIZE
  refine acts_nameOfInode hload hwhole htype _ (by omega) ?_
  rw [hdata, nameIn_eq htree hd he hp hi]
  exact hQ

end Up

/-- What `name_for_inode` leaves: the bytes of the path, and perhaps more references. -/
structure Climbed (b : ℕ → ℤ) (own : List ℕ) (x : ℤ × Stores) (s : IState) (y : ℤ × Stores)
    (t : IState) : Prop where
  stores : y = x
  holding : ∃ l, Holding b (l ++ own) none t
  kept : Kept b s t

/-- `name_for_inode` writes the names that lead to the directory, if the directories on the
way are in the cache and the stack has room. -/
theorem acts_nameForInode (htree : Tree node) (hl : Leads node names i) (hi : IsDir node i)
    (depth : ℕ) (h : Holding b own none s) (hnode : s.node = node)
    (hcache : names ≠ [] → ∀ l d, l <+: names → Leads node l d → InCache b s d)
    (hq : 0 < (s.core.inode q).ref) (hqi : s.inum q = i)
    (hE : depth ≤ names.length → E (.stop .fault)) :
    Acts p E (fun x t => names.length < depth ∧
      Climbed b own (pathStores buf n (names.map cut)) s x t) (nameForInode buf n depth q) s := by
  induction hl generalizing depth own s q with
  | root =>
    cases depth with
    | zero => exact wp_abort trivial rfl (hE (Nat.zero_le _))
    | succ depth =>
      rw [nameForInode, namei_slash]
      refine wp_seq (wp_seq (acts_iget_cached h hq hqi fun t ht hk hq' hqi' => ?_))
      refine wp_pure (wp_seq (acts_getInode (wp_seq (acts_getInode ?_))))
      rw [if_pos rfl]
      exact wp_pure ⟨Nat.succ_pos _, rfl, ⟨[ROOTINO], ht⟩, hk.all⟩
  | @entry names d e hl hd he hp ih =>
    cases depth with
    | zero => exact wp_abort trivial rfl (hE (Nat.zero_le _))
    | succ depth =>
      subst hnode
      have hcached := hcache (append_ne_nil_of_right_ne_nil _ (cons_ne_nil _ _))
      have hup := hcached names d (prefix_append _ _) hl
      rw [nameForInode, namei_slash]
      obtain ⟨-, q0, hq0, hq0i, -⟩ := hcached [] ROOTINO nil_prefix .root
      refine wp_seq (wp_seq (acts_iget_cached h hq0 hq0i fun t ht hk hq0' hq0i' => ?_))
      refine wp_pure (wp_seq (acts_getInode (wp_seq (acts_getInode ?_))))
      have hqt := hk.pos hq
      have hqti : t.inum q = e.inum := (hk.inum hq).trans hqi
      have hself := (hcached _ _ prefix_rfl (.entry hl hd he hp)).kept hk.all
      have hdiff : (t.core.inode q).inum ≠ (t.core.inode q0).inum := fun heq =>
        (htree.up d hd e he hp hi).1 (hqti.symm.trans (Eq.trans heq hq0i'))
      rw [← hk.node] at htree hd he hi
      rw [if_neg hdiff, if_pos (hself.loaded ht.toTidy hqt hqti hi).2]
      refine wp_seq (acts_dirlookup_up htree hd he hp hi ht hself (hup.kept hk.all) hqt hqti
        fun r off u hu hku hr hri => ?_)
      have hsu : Kept b s u := hk.all.trans hku.all
      rw [← hku.node] at htree hd he hi
      dsimp only
      rw [show (t.core.inode q).inum = e.inum from hqti]
      refine wp_seq (acts_nameOfInode_up htree hd he hp hi hu (hup.kept hsu) hr hri ?_)
      refine wp_seq (wp_conseq (ih (hsu.node ▸ hd) depth hu hsu.node ?_ hr hri ?_) ?_)
      · exact fun _ l c hpre hlc =>
          (hcached l c (hpre.trans (prefix_append _ _)) hlc).kept hsu
      · intro hle
        exact hE (by rw [length_append]; exact Nat.succ_le_succ hle)
      rintro x v ⟨hlt, rfl, ⟨l, hv⟩, hkv⟩
      have hlen : (names ++ [nameOf e.name]).length < depth + 1 := by
        rw [length_append]
        exact Nat.succ_lt_succ hlt
      rw [map_append, map_singleton, pathStores_concat, appendName]
      split
      -- `return n`, without `iput(parent)`
      · refine wp_pure ⟨hlen, rfl, ⟨l ++ [d, ROOTINO], ?_⟩, hsu.trans hkv⟩
        rwa [append_assoc]
      · obtain ⟨hrv, hrvi, -⟩ := hkv.entry r hr (hri.symm ▸ hup.1)
        have hsafe := hup.1
        refine wp_seq (acts_iput (hv.perm perm_middle) hrv (hrvi.trans hri)
          (Or.inr (by omega)) (absurd ·.symm (Option.some_ne_none _)) fun w hw hkw => ?_)
        refine wp_pure ⟨hlen, rfl, ⟨l ++ [ROOTINO], ?_⟩, (hsu.trans hkv).trans hkw.of_held⟩
        rwa [append_assoc]

/-! ## The bytes in memory -/

def written (mem : BitVec 32 → UInt8) (l : Stores) : BitVec 32 → UInt8 :=
  l.foldl (fun m x => update m x.1 x.2) mem

def bytesAt (mem : BitVec 32 → UInt8) (a : BitVec 32) (n : ℕ) : List UInt8 :=
  (List.range n).map fun j => mem (a + BitVec.ofNat 32 j)

section Memory

variable {mem : BitVec 32 → UInt8} {l : List UInt8} {o N : ℕ}

@[simp] theorem length_bytesAt (mem : BitVec 32 → UInt8) (a : BitVec 32) (n : ℕ) :
    (bytesAt mem a n).length = n := by
  rw [bytesAt, length_map, length_range]

theorem written_append (mem : BitVec 32 → UInt8) (x y : Stores) :
    written mem (x ++ y) = written (written mem x) y :=
  foldl_append

theorem storesAt_cons (a : BitVec 32) (c : UInt8) (l : List UInt8) :
    storesAt a (c :: l) = (a, c) :: storesAt (a + 1) l := by
  rw [storesAt, mapIdx_cons, storesAt]
  congr 1
  · rw [BitVec.add_zero]
  · congr 1
    funext j b
    rw [BitVec.ofNat_add, BitVec.add_assoc, BitVec.add_comm 1]
    rfl

theorem bytesAt_update (ho : o < N) (hN : N ≤ 2 ^ 32) (c : UInt8) :
    bytesAt (update mem (buf + BitVec.ofNat 32 o) c) buf N = (bytesAt mem buf N).set o c := by
  refine ext_getElem (by simp) fun j hj _ => ?_
  rw [length_bytesAt] at hj
  rw [getElem_set]
  simp only [bytesAt, getElem_map, getElem_range]
  split
  next h => rw [h, update_self]
  next h =>
    refine update_of_ne (fun heq => h ?_) _ _
    have hmod := congrArg BitVec.toNat ((BitVec.add_right_inj buf).1 heq)
    rw [BitVec.toNat_ofNat, BitVec.toNat_ofNat] at hmod
    omega

theorem splice_singleton {d : List UInt8} (h : o < d.length) (c : UInt8) :
    splice d o [c] = d.set o c := by
  rw [splice, set_eq_take_append_cons_drop, if_pos h, append_assoc]
  rfl

/-- Bytes stored inside the buffer replace those that were there. -/
theorem bytesAt_written (h : o + l.length ≤ N) (hN : N ≤ 2 ^ 32) :
    bytesAt (written mem (storesAt (buf + BitVec.ofNat 32 o) l)) buf N =
      splice (bytesAt mem buf N) o l := by
  induction l generalizing o mem with
  | nil => exact (splice_nil _ _).symm
  | cons c l ih =>
    rw [length_cons] at h
    have hlt : o < (bytesAt mem buf N).length := by
      rw [length_bytesAt]
      omega
    have hstep : written mem (storesAt (buf + BitVec.ofNat 32 o) (c :: l)) =
        written (update mem (buf + BitVec.ofNat 32 o) c)
          (storesAt (buf + BitVec.ofNat 32 (o + 1)) l) := by
      rw [storesAt_cons, BitVec.ofNat_add, ← BitVec.add_assoc]
      rfl
    rw [hstep, ih (by omega), bytesAt_update (by omega) hN, ← splice_singleton hlt]
    exact splice_splice hlt.le

/-- No byte is stored outside the `n` bytes from `buf` on. -/
def Inside (buf : BitVec 32) (n : ℤ) (l : Stores) : Prop :=
  ∀ x ∈ l, ((x.1 - buf).toNat : ℤ) < n

theorem inside_append {x y : Stores} : Inside buf n (x ++ y) ↔ Inside buf n x ∧ Inside buf n y := by
  simp only [Inside, mem_append, or_imp, forall_and]

theorem toNat_offset (ho : o < 2 ^ 32) : (buf + BitVec.ofNat 32 o - buf).toNat = o := by
  rw [BitVec.add_comm, BitVec.add_sub_cancel, BitVec.toNat_ofNat, Nat.mod_eq_of_lt ho]

theorem inside_storesAt (h : o + l.length ≤ N) (hN : N ≤ 2 ^ 32) :
    Inside buf N (storesAt (buf + BitVec.ofNat 32 o) l) := by
  intro x hx
  obtain ⟨j, hj, hxj⟩ := exists_of_mem_storesAt hx
  rw [hxj, BitVec.add_assoc, ← BitVec.ofNat_add, toNat_offset (by omega)]
  exact_mod_cast (by omega : o + j < N)

theorem safestrcpy_of_le {name : List UInt8} (h0 : ∀ c ∈ name, c ≠ 0) {k : ℕ}
    (h : name.length + 2 ≤ k) : safestrcpy k name = name ++ [0, 0] := by
  induction name generalizing k with
  | nil =>
    obtain ⟨k, rfl⟩ := Nat.exists_eq_add_of_le' h
    rfl
  | cons c name ih =>
    obtain ⟨k, rfl⟩ := Nat.exists_eq_add_of_le' (le_trans (Nat.le_add_left 2 _) h)
    have hc : c ≠ 0 := h0 c mem_cons_self
    rw [length_cons] at h
    rw [safestrcpy, if_neg (by exact hc)]
    exact congrArg (c :: ·) (ih (fun x hx => h0 x (mem_cons_of_mem _ hx)) (by omega))

theorem safestrcpy_exact {name : List UInt8} (h0 : ∀ c ∈ name, c ≠ 0) :
    safestrcpy (name.length + 1) name = name ++ [0] := by
  induction name with
  | nil => rfl
  | cons c name ih =>
    have hc : c ≠ 0 := h0 c mem_cons_self
    rw [length_cons, safestrcpy, if_neg (by exact hc)]
    exact congrArg (c :: ·) (ih fun x hx => h0 x (mem_cons_of_mem _ hx))

end Memory

/-! ## The path -/

structure PathName (name : List UInt8) : Prop where
  ne_nil : name ≠ []
  no_slash : slash ∉ name
  no_zero : ∀ c ∈ name, c ≠ 0
  lt : name.length < DIRSIZ

/-- The names, each between two slashes. -/
def pathText (names : List (List UInt8)) : List UInt8 := slash :: names.flatMap (· ++ [slash])

theorem pathText_concat (names : List (List UInt8)) (name : List UInt8) :
    pathText (names ++ [name]) = pathText names ++ name ++ [slash] := by
  simp [pathText]

section

variable (hnames : ∀ m ∈ names, PathName m)
include hnames

theorem segments_flatMap (path : List UInt8) :
    segments (names.flatMap (· ++ [slash]) ++ path) = names ++ segments path := by
  induction names with
  | nil => rfl
  | cons name names ih =>
    have hname := hnames name mem_cons_self
    rw [flatMap_cons, append_assoc, append_assoc, singleton_append,
      segments_append_slash hname.no_slash hname.ne_nil, take_of_length_le hname.lt.le,
      ih fun m hm => hnames m (mem_cons_of_mem _ hm), cons_append]

theorem segments_pathText (path : List UInt8) :
    segments (pathText names ++ path) = names ++ segments path := by
  rw [pathText, cons_append, segments_slash_cons, segments_flatMap hnames]

theorem no_zero_pathText : ∀ c ∈ pathText names, c ≠ 0 := by
  intro c hc
  rcases mem_cons.1 hc with rfl | hc
  · decide
  · obtain ⟨m, hm, hc⟩ := mem_flatMap.1 hc
    rcases mem_append.1 hc with hc | hc
    · exact (hnames m hm).no_zero c hc
    · rw [mem_singleton.1 hc]
      decide

end

/-- What the buffer of `N` bytes shows when the next byte goes to `off`: the path and then a
zero, if a name was written; or it is full, and the path is there without its last slash. -/
def Shows (names : List (List UInt8)) (N : ℕ) (off : ℤ) (bytes : List UInt8) : Prop :=
  (off = (pathText names).length ∧
      ∃ rest, bytes = pathText names ++ rest ∧ (names ≠ [] → rest.head? = some 0)) ∨
    off = N ∧ (pathText names).length = N ∧
      ∃ names' name, names = names' ++ [name] ∧ bytes = pathText names' ++ name ++ [0]

section Path

variable {mem : BitVec 32 → UInt8} {N : ℕ}

theorem splice_append (x y z : List UInt8) :
    splice (x ++ y) x.length z = x ++ (z ++ y.drop z.length) := by
  rw [splice, take_left, drop_append, drop_eq_nil_of_le (Nat.le_add_right _ _),
    nil_append, Nat.add_sub_cancel_left, append_assoc]

theorem splice_name (x y name z : List UInt8) (c c' : UInt8) :
    splice (splice (x ++ y) x.length (name ++ c :: z)) (x.length + name.length) [c'] =
      x ++ name ++ c' :: (z ++ y.drop (name.length + 1 + z.length)) := by
  rw [splice_append, append_assoc, ← append_assoc x, ← length_append, cons_append, splice_append]
  simp only [length_append, length_cons, length_nil, singleton_append, drop_succ_cons, drop_zero]
  congr 4
  omega

/-- A name is stored behind `x`, and a byte in place of what ended it. -/
theorem stores_name {st : Stores} {x y : List UInt8} (name z : List UInt8) (c c' : UInt8)
    (hN : N ≤ 2 ^ 32) (hin : Inside buf N st) (hbytes : bytesAt (written mem st) buf N = x ++ y)
    (hfit : x.length + (name ++ c :: z).length ≤ N) :
    Inside buf N (st ++ storesAt (buf + BitVec.ofNat 32 x.length) (name ++ c :: z) ++
        storesAt (buf + BitVec.ofNat 32 (x.length + name.length)) [c']) ∧
      bytesAt (written mem (st ++ storesAt (buf + BitVec.ofNat 32 x.length) (name ++ c :: z) ++
          storesAt (buf + BitVec.ofNat 32 (x.length + name.length)) [c'])) buf N =
        x ++ name ++ c' :: (z ++ y.drop (name.length + 1 + z.length)) := by
  have hlast : x.length + name.length + [c'].length ≤ N := by
    rw [length_append, length_cons] at hfit
    rw [length_singleton]
    omega
  constructor
  · rw [inside_append, inside_append]
    exact ⟨⟨hin, inside_storesAt hfit hN⟩, inside_storesAt hlast hN⟩
  · rw [written_append, written_append, bytesAt_written hlast hN, bytesAt_written hfit hN, hbytes,
      splice_name]

theorem length_pathText_concat (names : List (List UInt8)) (name : List UInt8) :
    (pathText (names ++ [name])).length = (pathText names).length + name.length + 1 := by
  rw [pathText_concat, length_append, length_append, length_singleton]

theorem pathStores_nil (buf : BitVec 32) (n : ℤ) :
    (pathStores buf n []).2 = storesAt (buf + BitVec.ofNat 32 0) [slash] := by
  rw [BitVec.add_zero]
  rfl

/-- A path that fits, apart from its last slash, is written into the buffer. -/
theorem shows_pathStores (mem : BitVec 32 → UInt8) (buf : BitVec 32)
    (hnames : ∀ m ∈ names, PathName m) (hN : N < 2 ^ 31)
    (hfit : (pathText names).length ≤ N) :
    Inside buf N (pathStores buf N names).2 ∧ Shows names N (pathStores buf N names).1
      (bytesAt (written mem (pathStores buf N names).2) buf N) := by
  induction names using List.reverseRecOn with
  | nil =>
    have hone : 0 + [slash].length ≤ N := hfit
    rw [pathStores_nil, bytesAt_written hone (by omega)]
    refine ⟨inside_storesAt hone (by omega), Or.inl ⟨rfl, _, rfl, fun h => absurd rfl h⟩⟩
  | append_singleton names name ih =>
    have hname := hnames name (mem_append_right _ (mem_singleton_self name))
    rw [length_pathText_concat] at hfit
    obtain ⟨hin, hshow⟩ := ih (fun m hm => hnames m (mem_append_left _ hm)) (by omega)
    rcases hshow with ⟨hoff, rest, hbytes, -⟩ | ⟨-, hfull, -⟩
    swap
    · omega
    have hlen := congrArg List.length hbytes
    rw [length_bytesAt, length_append] at hlen
    rw [pathStores_concat, appendName, hoff]
    have hcast : ((pathText names).length : ℤ) + name.length =
        ((pathText names).length + name.length : ℕ) := by push_cast; rfl
    have hroom : ((N : ℤ) - (pathText names).length).toNat = N - (pathText names).length := by omega
    rw [hcast, hroom, BitVec.ofInt_natCast, BitVec.ofInt_natCast]
    split
    next hlast =>
      have hsize : N - (pathText names).length = name.length + 1 := by omega
      rw [hsize, safestrcpy_exact hname.no_zero]
      obtain ⟨hin', hbytes'⟩ := stores_name name [] 0 0 (by omega) hin hbytes (by simp; omega)
      refine ⟨hin', Or.inr ⟨rfl, ?_, names, name, rfl, ?_⟩⟩
      · rw [length_pathText_concat]
        omega
      · rw [hbytes', drop_eq_nil_of_le (by simp; omega)]
        rfl
    next hlast =>
      rw [safestrcpy_of_le hname.no_zero (by omega)]
      obtain ⟨hin', hbytes'⟩ := stores_name name [0] 0 slash (by omega) hin hbytes (by simp; omega)
      refine ⟨hin', Or.inl ⟨?_, 0 :: rest.drop (name.length + 2), ?_, fun _ => rfl⟩⟩
      · rw [length_pathText_concat]
        push_cast
        rfl
      · rw [hbytes', pathText_concat, append_assoc _ [slash]]
        rfl

/-- Whatever fits, a byte is stored where the name ends. -/
theorem inside_appendName {x : ℤ × Stores} {name : List UInt8}
    (h : Inside buf n (appendName buf n x name).2) : Inside buf n x.2 ∧
      ∃ c, Inside buf n (storesAt (buf + BitVec.ofInt 32 (x.1 + name.length)) [c]) := by
  rw [appendName] at h
  split at h
  all_goals
    rw [inside_append, inside_append] at h
    exact ⟨h.1.1, _, h.2⟩

theorem lt_of_inside {k : ℕ} {c : UInt8} (hk : k < 2 ^ 32)
    (h : Inside buf n (storesAt (buf + BitVec.ofNat 32 k) [c])) : (k : ℤ) < n := by
  rw [storesAt_cons] at h
  have := h (buf + BitVec.ofNat 32 k, c) mem_cons_self
  rwa [toNat_offset hk] at this

/-- A path that does not fit is written beyond the buffer. -/
theorem length_le_of_inside (hnames : ∀ m ∈ names, PathName m) (hn : n < 2 ^ 31)
    (h : Inside buf n (pathStores buf n names).2) : ((pathText names).length : ℤ) ≤ n := by
  induction names using List.reverseRecOn with
  | nil =>
    rw [pathStores_nil] at h
    exact lt_of_inside (by decide) h
  | append_singleton names name ih =>
    have hname := (hnames name (mem_append_right _ (mem_singleton_self name))).lt
    have hnames' := fun m hm => hnames m (mem_append_left _ hm)
    rw [pathStores_concat] at h
    obtain ⟨hx, c, hc⟩ := inside_appendName h
    have hle := ih hnames' hx
    obtain ⟨N, rfl⟩ := Int.eq_ofNat_of_zero_le (le_trans (Int.natCast_nonneg _) hle)
    have hfit : (pathText names).length ≤ N := by exact_mod_cast hle
    obtain ⟨-, hshow⟩ := shows_pathStores (fun _ => 0) buf hnames' (by exact_mod_cast hn) hfit
    rw [length_pathText_concat]
    unfold DIRSIZ at hname
    rcases hshow with ⟨hoff, -⟩ | ⟨hoff, -⟩
    · rw [hoff, ← Nat.cast_add, BitVec.ofInt_natCast] at hc
      have := lt_of_inside (by omega) hc
      omega
    · rw [hoff, ← Nat.cast_add, BitVec.ofInt_natCast] at hc
      have := lt_of_inside (by omega) hc
      omega

end Path

/-! ## The call -/

/-- The bytes begin with a string, an absolute path that leads to inode `i`. -/
def PathTo (node : ℕ → Node) (i : ℕ) (bytes : List UInt8) : Prop :=
  0 ∈ bytes ∧ (cstring bytes).head? = some slash ∧
    resolve node ROOTINO (segments (cstring bytes)) = some i

/-- No byte is stored outside the buffer, and a failure is reported or the buffer has a path
to inode `i`. -/
def Tells (node : ℕ → Node) (i : ℕ) (mem : BitVec 32 → UInt8) (buf n : BitVec 32)
    (x : ℤ × Stores) : Prop :=
  Inside buf n.toInt x.2 ∧
    (x.1 = -1 ∨ PathTo node i (bytesAt (written mem x.2) buf n.toInt.toNat))

/-- `sys_getcwd` returns, and what it has stored tells the current directory `i`. -/
def NamesCwd (p depth : ℕ) (u : User) (buf n : BitVec 32) (s : IState) (i : ℕ) : Prop :=
  ∃ r t, (u.sysGetcwd depth).run (inodeSem p) s = .ok (r, t) ∧ Tells t.node i u.mem buf n r

/-- The buffer as it is after a slash has been written to its first byte. -/
def afterSlash (mem : BitVec 32 → UInt8) (buf n : BitVec 32) : List UInt8 :=
  splice (bytesAt mem buf n.toInt.toNat) 0 [slash]

section Call

variable {u : User} {mem : BitVec 32 → UInt8} {depth : ℕ} {n : BitVec 32}

theorem pathTo_of_shows {N : ℕ} {off : ℤ} {bytes : List UInt8} (hnames : ∀ m ∈ names, PathName m)
    (hne : names ≠ []) (h : Shows names N off bytes) :
    PathTo node i bytes ↔ resolve node ROOTINO names = some i := by
  have hstring : ∀ x y : List UInt8, (∀ c ∈ x, c ≠ 0) → cstring (x ++ 0 :: y) = x := by
    intro x y hx
    rw [cstring, takeWhile_append_of_pos fun c hc => decide_eq_true (hx c hc)]
    simp
  unfold PathTo
  rcases h with ⟨-, rest, rfl, hrest⟩ | ⟨-, -, names', name, rfl, rfl⟩
  · obtain ⟨rest', rfl⟩ := List.head?_eq_some_iff.1 (hrest hne)
    have hseg := segments_pathText hnames []
    rw [append_nil, show segments [] = [] from rfl, append_nil] at hseg
    rw [hstring _ _ (no_zero_pathText hnames), hseg]
    exact ⟨fun h => h.2.2, fun h => ⟨by simp, rfl, h⟩⟩
  · have hnames' := fun m hm => hnames m (mem_append_left [name] hm)
    have hname := hnames name (mem_append_right _ (mem_singleton_self name))
    have hzero : ∀ c ∈ pathText names' ++ name, c ≠ 0 := by
      intro c hc
      exact (mem_append.1 hc).elim (no_zero_pathText hnames' c) (hname.no_zero c)
    rw [hstring _ [] hzero, segments_pathText hnames',
      segments_of_not_mem hname.no_slash hname.ne_nil, take_of_length_le hname.lt.le]
    exact ⟨fun h => h.2.2, fun h => ⟨by simp, rfl, h⟩⟩

/-- What is stored tells the inode when the path fits and leads there. -/
theorem tells_iff (hnames : ∀ m ∈ names, PathName m) :
    Tells node i mem buf n (pathStores buf n.toInt names) ↔
      ((pathText names).length : ℤ) ≤ n.toInt ∧
        (names = [] → PathTo node i (afterSlash mem buf n)) ∧
        (names ≠ [] → resolve node ROOTINO names = some i) := by
  have hlt : n.toInt < 2 ^ 31 := BitVec.toInt_lt
  by_cases hle : ((pathText names).length : ℤ) ≤ n.toInt
  swap
  · exact iff_of_false (fun h => hle (length_le_of_inside hnames hlt h.1)) fun h => hle h.1
  obtain ⟨N, hN⟩ := Int.eq_ofNat_of_zero_le (le_trans (Int.natCast_nonneg _) hle)
  unfold Tells afterSlash
  rw [hN] at hle hlt ⊢
  have hfit : (pathText names).length ≤ N := by exact_mod_cast hle
  obtain ⟨hin, hshow⟩ := shows_pathStores mem buf hnames (by exact_mod_cast hlt) hfit
  have hoff : (pathStores buf N names).1 ≠ -1 := by
    rcases hshow with ⟨h, -⟩ | ⟨h, -⟩ <;> rw [h] <;> omega
  rw [Int.toNat_natCast]
  by_cases hnil : names = []
  · subst hnil
    have hbytes : bytesAt (written mem (pathStores buf N []).2) buf N =
        splice (bytesAt mem buf N) 0 [slash] := by
      rw [pathStores_nil, bytesAt_written hfit (by omega)]
    rw [hbytes]
    exact ⟨fun h => ⟨hle, fun _ => h.2.resolve_left hoff, fun h => absurd rfl h⟩,
      fun h => ⟨hin, Or.inr (h.2.1 rfl)⟩⟩
  · rw [← pathTo_of_shows hnames hnil hshow]
    exact ⟨fun h => ⟨hle, fun h' => absurd h' hnil, fun _ => h.2.resolve_left hoff⟩,
      fun h => ⟨hin, Or.inr (h.2.2 hnil)⟩⟩

theorem pathName_cut (htree : Tree node) (hl : Leads node names i) :
    ∀ m ∈ names.map cut, PathName m := by
  induction hl with
  | root => exact fun _ h => nomatch h
  | @entry names d e hl hd he hp ih =>
    intro m hm
    rw [map_append, mem_append] at hm
    refine hm.elim (ih m) fun hm => ?_
    rw [mem_singleton.1 hm]
    obtain ⟨hne, hslash⟩ := htree.name d hd e he hp.1
    refine ⟨?_, fun h => hslash (mem_of_mem_take h), fun c hc => ?_, length_cut_lt _⟩
    · rw [cut, Ne, take_eq_nil_iff]
      exact fun h => h.elim (by decide) hne
    · exact ne_zero_of_mem_cstring (mem_of_mem_take (mem_of_mem_take hc))

theorem acts_sysGetcwd (hargs : u.getcwdArgs = some (buf, n)) (hs : Tidy none s)
    (htree : Tree s.node) (hcwd : (s.core.pt.proc p).cwd = some q)
    (hq : 0 < (s.core.inode q).ref) (hl : Leads s.node names (s.inum q))
    (hdir : IsDir s.node (s.inum q))
    (hread : names ≠ [] → ∀ l d, l <+: names → Leads s.node l d → IsRead s d)
    (hE : depth ≤ names.length → E (.stop .fault)) :
    Acts p E (fun x t => names.length < depth ∧
      Climbed s.refs [] (pathStores buf n.toInt (names.map cut)) s x t) (u.sysGetcwd depth) s := by
  unfold User.sysGetcwd
  rw [hargs]
  refine wp_seq (acts_getProc ?_)
  rw [hcwd]
  refine acts_nameForInode htree hl hdir depth (.self hs) rfl ?_ hq rfl hE
  intro hne l d hpre hld
  obtain ⟨r, hr, rfl, hv⟩ := hread hne l d hpre hld
  refine ⟨?_, r, hr, rfl, hv⟩
  rw [hs.refs_eq hr]
  exact hr

/-- `sys_getcwd` does what it is for exactly when the stack is large enough, the path fits,
no name has `DIRSIZ` bytes, and, in the root, the slash makes the buffer a path to the
root. -/
theorem getcwd_names_cwd_iff (hargs : u.getcwdArgs = some (buf, n)) (hs : Tidy none s)
    (htree : Tree s.node) (hcwd : (s.core.pt.proc p).cwd = some q)
    (hq : 0 < (s.core.inode q).ref) (hl : Leads s.node names (s.inum q))
    (hdir : IsDir s.node (s.inum q))
    (hread : names ≠ [] → ∀ l d, l <+: names → Leads s.node l d → IsRead s d) :
    NamesCwd p depth u buf n s (s.inum q) ↔
      names.length < depth ∧ ((pathText names).length : ℤ) ≤ n.toInt ∧
        (∀ m ∈ names, m.length < DIRSIZ) ∧
        (names = [] → PathTo s.node ROOTINO (afterSlash u.mem buf n)) := by
  have hacts := acts_sysGetcwd (E := fun _ => depth ≤ names.length) hargs hs htree hcwd hq hl hdir
    hread fun h => h
  have hnames := pathName_cut htree hl
  have hiff : NamesCwd p depth u buf n s (s.inum q) ↔ names.length < depth ∧
      Tells s.node (s.inum q) u.mem buf n (pathStores buf n.toInt (names.map cut)) := by
    constructor
    · rintro ⟨r, t, hrun, htells⟩
      obtain ⟨hlt, rfl, -, hk⟩ := wp_run_ok hacts hrun
      rw [hk.node] at htells
      exact ⟨hlt, htells⟩
    · rintro ⟨hlt, htells⟩
      cases hrun : (u.sysGetcwd depth).run (inodeSem p) s with
      | error e => exact absurd (wp_run_error hacts hrun) (not_le.2 hlt)
      | ok x =>
        obtain ⟨-, hx, -, hk⟩ := wp_run_ok hacts hrun
        refine ⟨x.1, x.2, hrun, ?_⟩
        rw [hx, hk.node]
        exact htells
  rw [hiff, tells_iff hnames, htree.resolve_cut hl hdir, map_eq_nil_iff, Ne,
    map_eq_nil_iff]
  by_cases hnil : names = []
  · subst hnil
    have hroot : ROOTINO = s.inum q := Option.some.inj (htree.resolve hl)
    rw [← hroot]
    simp
  · constructor
    · rintro ⟨hlt, hle, -, hlen⟩
      rw [map_cut (hlen hnil)] at hle
      exact ⟨hlt, hle, hlen hnil, fun h => absurd h hnil⟩
    · rintro ⟨hlt, hle, hlen, -⟩
      rw [map_cut hlen]
      exact ⟨hlt, hle, fun h => absurd h hnil, fun _ => hlen⟩

end Call

/-- The root has a directory `d`, where the first process is. Both have been read. -/
def inSubdir : IState where
  core := { bootCore (fun _ => 0) with
    inode := fun q =>
      if q = 0 then ⟨ROOTDEV, 1, 1, false, true, 0, T_DIR, 0, 0, 1⟩
      else if q = 1 then ⟨ROOTDEV, 2, 1, false, true, 0, T_DIR, 0, 0, 1⟩
      else zeroInode
    pt := (bootCore fun _ => 0).pt.modify 0 fun x => { x with cwd := some 1 } }
  node i :=
    if i = 1 then ⟨⟨T_DIR, 0, 0, 1⟩,
      Dirent.bytes 1 dot ++ Dirent.bytes 1 dotdot ++ Dirent.bytes 2 [100]⟩
    else if i = 2 then ⟨⟨T_DIR, 0, 0, 1⟩, Dirent.bytes 2 dot ++ Dirent.bytes 1 dotdot⟩
    else ⟨⟨0, 0, 0, 0⟩, []⟩
  ninodes := 3

theorem entry_inSubdir (h : 0 < (inSubdir.core.inode q).ref) : q = 0 ∨ q = 1 := by
  dsimp only [inSubdir] at h
  split at h
  · exact Or.inl ‹_›
  · split at h
    · exact Or.inr ‹_›
    · exact absurd h (by decide)

theorem dir_inSubdir {d : ℕ} (h : IsDir inSubdir.node d) : d = 1 ∨ d = 2 := by
  unfold IsDir inSubdir at h
  dsimp only at h
  split at h
  · exact Or.inl ‹_›
  · split at h
    · exact Or.inr ‹_›
    · exact absurd h (by decide)

theorem tidy_inSubdir : Tidy none inSubdir := by
  refine ⟨fun q => ?_, fun q hq => ?_, fun q r hq hr heq => ?_, fun _ h => nomatch h⟩
  · dsimp only [inSubdir]
    split
    · exact zero_le_one
    · split
      · exact zero_le_one
      · exact le_rfl
  · rcases entry_inSubdir hq with rfl | rfl
    · exact ⟨by decide, rfl, by decide, fun _ => rfl, (nomatch ·), (nomatch ·)⟩
    · exact ⟨by decide, rfl, by decide, fun _ => rfl, (nomatch ·), (nomatch ·)⟩
  · rcases entry_inSubdir hq with rfl | rfl <;> rcases entry_inSubdir hr with rfl | rfl
    · rfl
    · cases heq
    · cases heq
    · rfl

theorem tree_inSubdir : Tree inSubdir.node := by
  constructor
  all_goals
    intro d hd
    rcases dir_inSubdir hd with rfl | rfl
  · exact ⟨by decide, by decide⟩
  · exact ⟨by decide, by decide⟩
  all_goals decide

theorem leads_inSubdir : Leads inSubdir.node [[100]] 2 :=
  .entry (e := Dirent.get (Dirent.bytes 2 [100])) .root rfl (mem_of_getElem? (i := 2) rfl)
    (by decide)

/-- The path `/d/` fits into five bytes. -/
theorem getcwd_names_cwd_subdir : NamesCwd 0 2 (askCwd 4096) 32 5 inSubdir 2 := by
  refine (getcwd_names_cwd_iff (q := 1) rfl tidy_inSubdir tree_inSubdir rfl zero_lt_one
    leads_inSubdir rfl ?_).2 ⟨by decide, by decide, by decide, fun h => nomatch h⟩
  intro _ l d hpre hl
  have hresolve := tree_inSubdir.resolve hl
  rcases prefix_cons_iff.1 hpre with rfl | ⟨l', rfl, hl'⟩
  · obtain rfl : ROOTINO = d := Option.some.inj hresolve
    exact ⟨0, zero_lt_one, rfl, rfl⟩
  · obtain rfl := prefix_nil.1 hl'
    obtain rfl : 2 = d := Option.some.inj hresolve
    exact ⟨1, zero_lt_one, rfl, rfl⟩

/-- In the root the only byte that is stored is the slash. -/
theorem getcwd_root_unterminated : ∃ r t,
    ((askCwd 4096).sysGetcwd 8).run (inodeSem 0) smallTree = .ok (r, t) ∧
      r = (1, [(32, slash)]) ∧
      bytesAt (written (askCwd 4096).mem r.2) 32 5 = [slash, 1, 1, 1, 1] ∧
      ¬ NamesCwd 0 8 (askCwd 4096) 32 5 smallTree ROOTINO := by
  have hpass : ((askCwd 4096).sysGetcwd 8).passes (inodeSem 0) smallTree
      (fun r _ => r = (1, [(32, slash)])) = true := by decide +kernel
  obtain ⟨r, t, hrun, h⟩ := exists_of_passes hpass
  obtain rfl := of_decide_eq_true h
  refine ⟨_, t, hrun, rfl, by decide, ?_⟩
  rintro ⟨r, t', hrun', -, htells⟩
  rw [hrun] at hrun'
  cases hrun'
  rcases htells with h | h
  · exact absurd h (by decide)
  · exact absurd h.1 (by decide)

end Qwin.Sys
