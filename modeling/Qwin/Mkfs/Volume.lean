import Qwin.Fs.Entries
import Qwin.Mkfs.Append

/-!
# The files of an image

A volume is what `mkfs` puts into the image: a table of nodes. `Built v s` says that the
image holds the volume `v`, and the functions of `mkfs` carry out the operations on
volumes of the same name.
-/

namespace Qwin.Mkfs

open Prog Fs List
open Function (update update_of_ne update_self update_eq_self)

/-- The nodes of a file system that is being made, and the number of the next one. -/
structure Volume where
  next : ℕ
  node : ℕ → Node

namespace Volume

def bytes (v : Volume) (i : ℕ) : List UInt8 := (v.node i).data

def ialloc (v : Volume) (type : Short) : Volume where
  next := v.next + 1
  node := update v.node v.next ⟨⟨type, 0, 0, 1⟩, []⟩

def append (v : Volume) (i : ℕ) (p : List UInt8) : Volume where
  next := v.next
  node := update v.node i ⟨(v.node i).attrs, v.bytes i ++ p⟩

def adddir (v : Volume) (name : List UInt8) (parino : ℕ) : Volume :=
  (((v.ialloc T_DIR).append parino (Dirent.bytes v.next name)).append v.next
    (Dirent.bytes v.next dot)).append v.next (Dirent.bytes parino dotdot)

def addFile (v : Volume) (d : Dirs) (f : Input) : Volume :=
  ((v.ialloc T_FILE).append (d.place f.name).1
    (Dirent.bytes v.next (d.place f.name).2)).append v.next f.bytes

def addFiles (v : Volume) (d : Dirs) (files : List Input) : Volume :=
  files.foldl (fun v f => v.addFile d f) v

variable (v : Volume) {i j : ℕ} {p : List UInt8} {type : Short}

theorem bytes_append : (v.append i p).bytes = update v.bytes i (v.bytes i ++ p) := by
  funext j
  by_cases hj : j = i
  · simp [bytes, append, hj]
  · simp [bytes, append, hj]

theorem bytes_append_self : (v.append i p).bytes i = v.bytes i ++ p := by
  rw [bytes_append, update_self]

theorem bytes_append_of_ne (h : j ≠ i) : (v.append i p).bytes j = v.bytes j := by
  rw [bytes_append, update_of_ne h]

theorem append_append (q : List UInt8) : (v.append i p).append i q = v.append i (p ++ q) := by
  simp [append, bytes]

theorem append_nil : v.append i [] = v := by
  simp [append, bytes]

end Volume

/-! ## The image of a volume -/

def imageAddrs (d : ℕ → Block) (i : ℕ) : Fin 13 → ℕ :=
  if i < tableSize then (dinode d i).addrs else fun _ => 0

def blank : Node := ⟨⟨0, 0, 0, 0⟩, []⟩

structure Built (v : Volume) (s : Image) : Prop where
  grown : Grown (imageAddrs s.sect) v.bytes s
  attrs : ∀ i, i < tableSize → (dinode s.sect i).attrs = (v.node i).attrs
  size : ∀ i, i < tableSize → (dinode s.sect i).size = (v.bytes i).length
  next : s.freeinode = v.next
  rest : ∀ i, v.next ≤ i → v.node i = blank
  super : s.sect 1 = superblock

section

variable {α : Type} {E : Exit → Prop} {s t : Image} {A : ℕ → Fin 13 → ℕ} {nb : ℕ → ℕ}
  {c : ℕ → List UInt8} {i : ℕ} {v : Volume} {x : Dinode}

theorem iblock_lt (hi : i < tableSize) : iblock i < 28 := by
  have : i < 208 := hi
  unfold iblock IPB
  omega

/-- What lies below the data area does not matter to the files. -/
theorem Grown.of_below (h : Grown A c s) (hsect : ∀ b, dataStart ≤ b → t.sect b = s.sect b)
    (hnsect : t.nsect = s.nsect) (hfree : t.freeblock = s.freeblock)
    (hused : t.usedblocks = s.usedblocks) : Grown A c t := by
  have hptr : ptrs A t.sect = ptrs A s.sect := by
    funext ⟨j, k⟩
    have hagree : Agrees s.sect t.sect (A j) := fun k hk =>
      hsect _ (h.laying.laid.owned.area (j, k) hk)
    exact hagree.ptr k
  refine ⟨⟨hnsect.trans h.laying.nsect, ?_, ?_, ?_⟩, ?_, ?_⟩
  · rw [hused, hfree]
    exact h.laying.used
  · intro b hb
    rw [hfree] at hb
    rw [hsect b (le_trans h.laying.laid.start hb)]
    exact h.laying.fresh b hb
  · rw [hptr, hfree]
    exact h.laying.laid
  · intro j o ho
    have hmap := h.laying.fileBlock_ne_zero_iff.2 ho
    have hblock : fileBlock t.sect (A j) (o / BSIZE) = fileBlock s.sect (A j) (o / BSIZE) :=
      congrFun hptr (j, filePos (o / BSIZE))
    rw [byteAt, hblock, hsect _ (h.laying.fileBlock_lt ho).1]
    exact h.carries j o ho
  · rw [hfree]
    exact h.room

theorem Laying.addr_cases (h : Laying A nb s) (k : Fin 13) : A i k = 0 ∨ A i k < s.freeblock := by
  rw [← ptr_addr s.sect (A i) k]
  by_cases h0 : ptr s.sect (A i) k.val = 0
  · exact Or.inl h0
  · exact Or.inr (of_decide_eq_true (h.laid.owned.mark (k := (i, k.val)) h0))

theorem Laying.addrs_eq_zero (h : Laying A nb s) (hi : nb i = 0) : A i = fun _ => 0 := by
  funext k
  rw [← ptr_addr s.sect (A i) k]
  by_cases hk : k.val < NDIRECT
  · have hmap := h.laid.mapped i k.val
    rw [hi, filePos_direct hk] at hmap
    exact not_not.1 fun hne => Nat.not_lt_zero _ (hmap.1 hne)
  · have h12 : k.val = 12 := by
      have := k.isLt
      unfold NDIRECT at hk
      omega
    have hind := h.laid.indirect i
    rw [hi] at hind
    rw [h12]
    exact not_not.1 fun hne => Nat.not_lt_zero _ (hind.1 hne)

theorem makes_rinode {Q : Dinode → Image → Prop} (hn : s.nsect = size) (hi : i < tableSize)
    (h : Q (dinode s.sect i) s) : Makes E Q (rinode i) s := by
  have hlt : i2b i < s.nsect := by
    rw [hn]
    exact lt_trans (iblock_lt hi) (by decide)
  exact makes_bind (makes_rsect (fun hout => absurd hlt (not_lt.2 hout)) fun _ => makes_pure h)

variable {Q : Unit → Image → Prop}

theorem makes_winode (hn : s.nsect = size) (hi : i < tableSize)
    (h : Q () { s with sect := setDinode s.sect i x }) : Makes E Q (winode i x) s := by
  have hlt : i2b i < s.nsect := by
    rw [hn]
    exact lt_trans (iblock_lt hi) (by decide)
  refine makes_bind (makes_rsect (fun hout => absurd hlt (not_lt.2 hout)) fun _ => ?_)
  exact makes_wsect_of_lt hlt h

theorem imageAddrs_setDinode {d d' : ℕ → Block} (hd : ∀ b, b < dataStart → d' b = d b)
    (hx : x.Fits) (hi : i < tableSize) :
    imageAddrs (setDinode d' i x) = update (imageAddrs d) i x.addrs := by
  funext j
  by_cases hj : j = i
  · rw [hj, imageAddrs, if_pos hi, dinode_setDinode d' hx, if_pos rfl, update_self]
  · rw [update_of_ne hj, imageAddrs, imageAddrs]
    split
    next hlt =>
      rw [dinode_setDinode d' hx, if_neg hj, dinode,
        hd _ (lt_trans (iblock_lt hlt) (by decide)), dinode]
    · rfl

/-- One inode of the image was written, and its file with it. -/
theorem Built.store {v' : Volume} (h : Built v s) (hi : i < tableSize)
    (habove : ∀ b, b < dataStart → t.sect b = s.sect b)
    (hgrown : Grown (update (imageAddrs s.sect) i x.addrs) v'.bytes t)
    (hx : x.size < 2 ^ 32) (hattrs : x.attrs = (v'.node i).attrs)
    (hsize : x.size = (v'.bytes i).length) (hnode : ∀ j, j ≠ i → v'.node j = v.node j)
    (hnext : t.freeinode = v'.next) (hrest : ∀ j, v'.next ≤ j → v'.node j = blank) :
    Built v' { t with sect := setDinode t.sect i x } := by
  have hfits : x.Fits := by
    refine ⟨hx, fun k => ?_⟩
    have hcases := hgrown.laying.addr_cases (i := i) k
    rw [update_self] at hcases
    rcases hcases with h0 | hlt
    · rw [h0]
      exact Nat.two_pow_pos 32
    · exact lt_trans (lt_of_lt_of_le hlt hgrown.room) (by decide)
  have hdin : ∀ j, j < tableSize → dinode (setDinode t.sect i x) j =
      if j = i then x else dinode s.sect j := by
    intro j hj
    rw [dinode_setDinode t.sect hfits, dinode, habove _
      (lt_trans (iblock_lt hj) (by decide)), dinode]
  have hbelow : ∀ b, dataStart ≤ b → setDinode t.sect i x b = t.sect b := fun b hb =>
    update_of_ne (Nat.ne_of_gt (lt_of_lt_of_le (lt_trans (iblock_lt hi) (by decide)) hb)) _ _
  refine ⟨?_, ?_, ?_, hnext, hrest, ?_⟩
  · dsimp only
    rw [imageAddrs_setDinode habove hfits hi]
    exact hgrown.of_below hbelow rfl rfl rfl
  · intro j hj
    dsimp only
    rw [hdin j hj]
    by_cases hji : j = i
    · rw [if_pos hji, hji, hattrs]
    · rw [if_neg hji, hnode j hji]
      exact h.attrs j hj
  · intro j hj
    dsimp only
    rw [hdin j hj]
    by_cases hji : j = i
    · rw [if_pos hji, hji, hsize]
    · rw [if_neg hji, Volume.bytes, hnode j hji]
      exact h.size j hj
  · have h1 : setDinode t.sect i x 1 = t.sect 1 :=
      update_of_ne (Nat.ne_of_lt one_lt_iblock) _ _
    dsimp only
    rw [h1, habove 1 (by decide)]
    exact h.super

theorem makes_iappend {p : List UInt8} (h : Built v s)
    (hi : i < v.next) (hnext : v.next ≤ tableSize)
    (hmax : (v.bytes i).length + p.length ≤ MAXFILE * BSIZE)
    (hE : TooBig (v.append i p).bytes → E .read)
    (hQ : ∀ t, Built (v.append i p) t → Q () t) : Makes E Q (iappend i p) s := by
  have hlt : i < tableSize := lt_of_lt_of_le hi hnext
  have hA : imageAddrs s.sect i = (dinode s.sect i).addrs := if_pos hlt
  refine makes_bind (makes_rinode h.grown.laying.nsect hlt (makes_bind ?_))
  rw [h.size i hlt]
  rw [v.bytes_append] at hE
  refine makes_appendLoop hlt _ p le_rfl h.grown hA rfl hmax hE fun din t hgrown habove hdin => ?_
  refine makes_winode hgrown.laying.nsect hlt (hQ _ ?_)
  have hlen : ((v.append i p).bytes i).length = (v.bytes i).length + p.length := by
    rw [v.bytes_append_self, length_append]
  refine h.store hlt habove.sect ?_ ?_ ?_ hlen.symm ?_ ?_ ?_
  · rw [v.bytes_append]
    exact hgrown
  · exact lt_of_le_of_lt hmax (by decide)
  · have hattrs := h.attrs i hlt
    rw [← hdin]
    simpa [Volume.append, Dinode.attrs] using hattrs
  · intro j hj
    exact update_of_ne hj _ _
  · rw [habove.freeinode, h.next]
    rfl
  · intro j hj
    have hne : j ≠ i := Nat.ne_of_gt (lt_of_lt_of_le hi hj)
    exact (update_of_ne hne _ _).trans (h.rest j hj)

theorem makes_ialloc {Q : ℕ → Image → Prop} {type : Short} (h : Built v s)
    (hnext : v.next < tableSize) (hQ : ∀ t, Built (v.ialloc type) t → Q v.next t) :
    Makes E Q (ialloc type) s := by
  have hblank := h.rest v.next le_rfl
  have hbytes : (v.ialloc type).bytes = v.bytes := by
    funext j
    by_cases hj : j = v.next
    · simp [Volume.bytes, Volume.ialloc, hj, hblank, blank]
    · simp [Volume.bytes, Volume.ialloc, hj]
  have hzero : imageAddrs s.sect v.next = fun _ => 0 := by
    refine h.grown.laying.addrs_eq_zero ?_
    rw [blocksOf, Volume.bytes, hblank]
    rfl
  refine makes_bind (makes_nextInode (makes_bind ?_))
  rw [h.next]
  refine makes_winode h.grown.laying.nsect hnext (makes_pure (hQ _ ?_))
  have hgrown : Grown (imageAddrs s.sect) v.bytes { s with freeinode := v.next + 1 } :=
    h.grown.of_below (fun _ _ => rfl) rfl rfl rfl
  refine h.store hnext (fun _ _ => rfl) ?_ (Nat.two_pow_pos 32) ?_ ?_ ?_ rfl ?_
  · rw [hbytes]
    dsimp only
    rw [← hzero, update_eq_self]
    exact hgrown
  · simp [Volume.ialloc, Dinode.attrs]
  · simp [Volume.ialloc, Volume.bytes]
  · intro j hj
    exact update_of_ne hj _ _
  · intro j hj
    have hne : j ≠ v.next := Nat.ne_of_gt hj
    exact (update_of_ne hne _ _).trans (h.rest j (Nat.le_of_succ_le hj))

/-! ## Directories and files -/

theorem Volume.le_length_append (v : Volume) (i : ℕ) (p : List UInt8) (j : ℕ) :
    (v.bytes j).length ≤ ((v.append i p).bytes j).length := by
  by_cases hj : j = i
  · rw [hj, v.bytes_append_self, length_append]
    omega
  · rw [v.bytes_append_of_ne hj]

theorem makes_adddir {Q : ℕ → Image → Prop} {name : List UInt8} {par : ℕ} (h : Built v s)
    (hnext : v.next < tableSize) (hpar : par < v.next)
    (hlen : (v.bytes par).length + 16 ≤ MAXFILE * BSIZE)
    (hE : TooBig (v.adddir name par).bytes → E .read)
    (hQ : ∀ t, Built (v.adddir name par) t → Q v.next t) : Makes E Q (adddir name par) s := by
  have hblank : ((v.ialloc T_DIR).bytes v.next) = [] := by
    simp [Volume.bytes, Volume.ialloc]
  have hold : (v.ialloc T_DIR).bytes par = v.bytes par := by
    simp [Volume.bytes, Volume.ialloc, Nat.ne_of_lt hpar]
  have hne : v.next ≠ par := Nat.ne_of_gt hpar
  refine makes_bind (makes_ialloc h hnext fun t ht => ?_)
  refine makes_bind (makes_iappend ht (Nat.lt_succ_of_lt hpar) hnext ?_ ?_ fun t ht => ?_)
  · rw [hold, length_bytes]
    exact hlen
  · intro hbig
    refine hE (hbig.mono fun j => ?_)
    exact (Volume.le_length_append _ _ _ j).trans (Volume.le_length_append _ _ _ j)
  refine makes_bind (makes_iappend ht (Nat.lt_succ_self _) hnext ?_ ?_ fun t ht => ?_)
  · rw [Volume.bytes_append_of_ne _ hne, hblank, length_bytes]
    decide
  · intro hbig
    exact hE (hbig.mono fun j => Volume.le_length_append _ _ _ j)
  refine makes_bind (makes_iappend ht (Nat.lt_succ_self _) hnext ?_ hE fun t ht => ?_)
  · rw [Volume.bytes_append_self, Volume.bytes_append_of_ne _ hne, hblank, nil_append,
      length_bytes, length_bytes]
    decide
  exact makes_pure (hQ t ht)

theorem makes_copy (reads : List (List UInt8)) (h : Built v s)
    (hi : i < v.next) (hnext : v.next ≤ tableSize)
    (hmax : (v.bytes i).length + reads.flatten.length ≤ MAXFILE * BSIZE)
    (hE : TooBig (v.append i reads.flatten).bytes → E .read)
    (hQ : ∀ t, Built (v.append i reads.flatten) t → Q () t) : Makes E Q (copy i reads) s := by
  induction reads generalizing v s with
  | nil =>
    refine makes_pure (hQ s ?_)
    rw [flatten_nil, v.append_nil]
    exact h
  | cons buf reads ih =>
    rw [flatten_cons] at hmax hE hQ
    rw [← v.append_append] at hE hQ
    rw [length_append] at hmax
    refine makes_bind (makes_iappend h hi hnext (by omega) ?_ fun t ht => ?_)
    · intro hbig
      exact hE (hbig.mono fun j => Volume.le_length_append _ _ _ j)
    · refine ih ht hi hnext ?_ hE hQ
      rw [v.bytes_append_self, length_append]
      omega

namespace Volume

def Fresh (v : Volume) : Prop := ∀ i, v.next ≤ i → v.node i = blank

theorem Fresh.ialloc (h : v.Fresh) (type : Short) : (v.ialloc type).Fresh := by
  intro j hj
  have hne : j ≠ v.next := Nat.ne_of_gt hj
  exact (update_of_ne hne _ _).trans (h j (Nat.le_of_succ_le hj))

theorem Fresh.append (h : v.Fresh) (hi : i < v.next) (p : List UInt8) : (v.append i p).Fresh := by
  intro j hj
  have hne : j ≠ i := Nat.ne_of_gt (lt_of_lt_of_le hi hj)
  exact (update_of_ne hne _ _).trans (h j hj)

variable {d : Dirs}

section

variable (h : v.Fresh)
include h

theorem Fresh.addFile {f : Input} (hd : (d.place f.name).1 < v.next) : (v.addFile d f).Fresh :=
  ((h.ialloc T_FILE).append (Nat.lt_succ_of_lt hd) _).append (Nat.lt_succ_self _) _

theorem Fresh.bytes_ialloc (type : Short) : (v.ialloc type).bytes = v.bytes := by
  funext j
  by_cases hj : j = v.next
  · simp [bytes, Volume.ialloc, hj, h v.next le_rfl, blank]
  · simp [bytes, Volume.ialloc, hj]

theorem Fresh.bytes_next : v.bytes v.next = [] := by
  rw [bytes, h v.next le_rfl]
  rfl

theorem Fresh.le_length_addFile (d : Dirs) (f : Input) (j : ℕ) :
    (v.bytes j).length ≤ ((v.addFile d f).bytes j).length := by
  have halloc : (v.bytes j).length ≤ ((v.ialloc T_FILE).bytes j).length := by
    rw [h.bytes_ialloc]
  exact halloc.trans ((le_length_append _ _ _ j).trans (le_length_append _ _ _ j))

theorem Fresh.bytes_addFile {f : Input} (hd : (d.place f.name).1 < v.next) (j : ℕ) :
    (v.addFile d f).bytes j =
      if j = v.next then f.bytes
      else if j = (d.place f.name).1 then
        v.bytes j ++ Dirent.bytes v.next (d.place f.name).2
      else v.bytes j := by
  have hne : v.next ≠ (d.place f.name).1 := Nat.ne_of_gt hd
  by_cases hj : j = v.next
  · rw [if_pos hj, hj, Volume.addFile, bytes_append_self, bytes_append_of_ne _ hne, h.bytes_ialloc,
      h.bytes_next, nil_append]
  · rw [if_neg hj, Volume.addFile, bytes_append_of_ne _ hj]
    by_cases hd' : j = (d.place f.name).1
    · rw [if_pos hd', hd', bytes_append_self, h.bytes_ialloc]
    · rw [if_neg hd', bytes_append_of_ne _ hd', h.bytes_ialloc]

end

/-- The directories that files go to exist. -/
def Holds (v : Volume) (d : Dirs) : Prop := ∀ name, (d.place name).1 < v.next

theorem Fresh.le_length_addFiles (files : List Input) (h : v.Fresh)
    (hd : v.Holds d) (j : ℕ) : (v.bytes j).length ≤ ((v.addFiles d files).bytes j).length := by
  induction files generalizing v with
  | nil => rfl
  | cons f files ih =>
    exact (h.le_length_addFile d f j).trans
      (ih (h.addFile (hd f.name)) fun name => Nat.lt_succ_of_lt (hd name))

end Volume

theorem makes_addFile {d : Dirs} {f : Input} {k : MProg Unit}
    (h : Built v s) (hd : v.Holds d) (hnext : v.next < tableSize)
    (hdir : (v.bytes (d.place f.name).1).length + 16 ≤ MAXFILE * BSIZE)
    (hf : f.bytes.length ≤ MAXFILE * BSIZE) (hE : TooBig (v.addFile d f).bytes → E .read)
    (hk : ∀ t, Built (v.addFile d f) t → Makes E Q k t) :
    Makes E Q (do
      let inum ← ialloc T_FILE
      iappend (d.place f.name).1 (Dirent.bytes inum (d.place f.name).2)
      copy inum f.reads
      k) s := by
  have hfresh : v.Fresh := h.rest
  have hdn := hd f.name
  refine makes_bind (makes_ialloc h hnext fun t ht => ?_)
  refine makes_bind (makes_iappend ht (Nat.lt_succ_of_lt hdn) hnext ?_ ?_ fun t ht => ?_)
  · rw [hfresh.bytes_ialloc, length_bytes]
    exact hdir
  · intro hbig
    exact hE (hbig.mono fun j => Volume.le_length_append _ _ _ j)
  · refine makes_bind (makes_copy f.reads ht (Nat.lt_succ_self _) hnext ?_ hE hk)
    rw [Volume.bytes_append_of_ne _ (Nat.ne_of_gt hdn), hfresh.bytes_ialloc, hfresh.bytes_next,
      length_nil, Nat.zero_add]
    exact hf

theorem makes_addFiles {d : Dirs} (files : List Input)
    (h : Built v s) (hd : v.Holds d) (hnext : v.next + files.length ≤ tableSize)
    (hdir : ∀ name, (v.bytes (d.place name).1).length + 16 * files.length ≤ MAXFILE * BSIZE)
    (hf : ∀ f ∈ files, f.bytes.length ≤ MAXFILE * BSIZE)
    (hE : TooBig (v.addFiles d files).bytes → E .read)
    (hQ : ∀ t, Built (v.addFiles d files) t → Q () t) : Makes E Q (addFiles d files) s := by
  induction files generalizing v s with
  | nil => exact makes_pure (hQ s h)
  | cons f files ih =>
    have hfresh : v.Fresh := h.rest
    have hd' : (v.addFile d f).Holds d := fun name => Nat.lt_succ_of_lt (hd name)
    rw [length_cons] at hnext hdir
    refine makes_addFile h hd (by omega) ?_ (hf f mem_cons_self) ?_ fun t ht => ?_
    · have := hdir f.name
      omega
    · intro hbig
      exact hE (hbig.mono ((hfresh.addFile (hd f.name)).le_length_addFiles files hd'))
    · refine ih ht hd' (show v.next + 1 + files.length ≤ tableSize by omega) ?_
        (fun g hg => hf g (mem_cons_of_mem f hg)) hE hQ
      intro name
      have hlen := hdir name
      rw [hfresh.bytes_addFile (hd f.name), if_neg (Nat.ne_of_lt (hd name))]
      split
      · rw [length_append, length_bytes]
        unfold DESIZE
        omega
      · omega

end

end Qwin.Mkfs
