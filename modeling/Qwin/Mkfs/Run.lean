import Qwin.Mkfs.Volume

/-!
# A run of `mkfs`

The volume that `mkfs` puts into the image for a list of input files, and what a run of
the program on this list ends with: the image of the volume, or a failed read when the
volume needs more blocks than the image has.
-/

namespace Qwin.Mkfs

open Prog Fs List
open Function (update update_of_ne update_self update_eq_self update_apply)

variable {E : Exit → Prop} {s t : Image} {v : Volume}

/-! ## The empty file system -/

variable {Q : Unit → Image → Prop}

theorem makes_zeroes (n : ℕ) (hs : s.sect = fun _ => Bytes.zero 512)
    (h : Q () { s with nsect := max s.nsect n }) : Makes E Q (zeroes n) s := by
  induction n generalizing Q with
  | zero =>
    rw [Nat.max_eq_left (Nat.zero_le _)] at h
    exact makes_pure h
  | succ n ih =>
    refine makes_bind (ih (makes_wsect ?_))
    have hsame : update s.sect n (Bytes.zero 512) = s.sect := by
      rw [Function.update_eq_self_iff, hs]
    dsimp only
    rw [hsame, show max (max s.nsect n) (n + 1) = max s.nsect (n + 1) by omega]
    exact h

def prepared : Image where
  sect := update (fun _ => Bytes.zero 512) 1 superblock
  nsect := size
  freeblock := dataStart
  usedblocks := dataStart
  freeinode := 1

theorem makes_prepare (h : Q () prepared) : Makes E Q prepare start := by
  refine makes_bind (wp_last trivial rfl ?_)
  refine makes_bind (wp_last trivial rfl ?_)
  refine makes_bind (makes_assert (by decide) ?_)
  refine makes_bind (makes_zeroes _ rfl ?_)
  exact makes_wsect_of_lt (by decide) h

def empty : Volume := ⟨1, fun _ => blank⟩

theorem prepared_of_ne {b : ℕ} (h : b ≠ 1) : prepared.sect b = Bytes.zero 512 := by
  simp [prepared, h]

theorem dinode_prepared (i : ℕ) : dinode prepared.sect i = ⟨0, 0, 0, 0, 0, fun _ => 0⟩ := by
  rw [dinode, prepared_of_ne (Nat.ne_of_gt one_lt_iblock)]
  simp [Dinode.get]

theorem built_prepared : Built empty prepared := by
  have hA : imageAddrs prepared.sect = fun _ _ => 0 := by
    funext i
    rw [imageAddrs, dinode_prepared, ite_self]
  have hP : ∀ x, ptrs (fun _ _ => 0) prepared.sect x = 0 := by
    intro x
    rw [ptrs, ptr]
    split
    · rfl
    · rw [if_pos rfl]
  have hb : ∀ i, blocksOf empty.bytes i = 0 := fun i => by
    change blocks 0 = 0
    decide
  refine ⟨⟨⟨rfl, rfl, fun b hb => ?_, ?_⟩, ?_, by decide⟩, ?_, ?_, rfl, fun _ _ => rfl, ?_⟩
  · exact prepared_of_ne (Nat.ne_of_gt (lt_of_lt_of_le (by decide) hb))
  · rw [hA]
    refine ⟨le_rfl, ⟨fun k hk => absurd (hP k) hk, fun k l hk => absurd (hP k) hk, ?_⟩, ?_, ?_,
      fun i _ => hb i, ?_⟩
    · intro b hb h0
      refine ⟨fun hlt => absurd (of_decide_eq_true hlt) (not_lt.2 hb), ?_⟩
      rintro ⟨k, hk⟩
      exact absurd ((hP k).symm.trans hk).symm h0
    · intro i bn
      rw [hP, hb]
      simp
    · intro i
      rw [hP, hb]
      simp
    · have hcost : ∀ i ∈ Finset.range tableSize, cost (blocksOf empty.bytes i) = 0 := by
        intro i _
        rw [hb]
        rfl
      rw [total, Finset.sum_eq_zero hcost]
      rfl
  · intro i o ho
    rw [hb] at ho
    exact absurd ho (Nat.not_lt_zero _)
  · intro i _
    rw [dinode_prepared]
    rfl
  · intro i _
    rw [dinode_prepared]
    rfl
  · simp [prepared]

/-! ## The directories -/

/-- No file has more than `n` directory entries. -/
def Tiny (n : ℕ) (v : Volume) : Prop := ∀ j, (v.bytes j).length ≤ DESIZE * n

variable {n : ℕ}

theorem Tiny.not_tooBig (h : Tiny n v) (hn : n ≤ 32) : ¬ TooBig v.bytes := by
  have hone : ∀ j, blocksOf v.bytes j ≤ 1 := by
    intro j
    have := h j
    unfold blocksOf blocks BSIZE
    unfold DESIZE at this
    omega
  have htotal : total (blocksOf v.bytes) ≤ total fun _ => 1 := total_mono hone
  have hmax : (total fun _ => 1) = 208 := by
    rw [total, Finset.sum_const, Finset.card_range]
    rfl
  unfold TooBig
  rw [hmax] at htotal
  have hsize : size = 2009 := rfl
  have hstart : dataStart = 29 := rfl
  omega

variable {par : ℕ} {name : List UInt8}

theorem Volume.Fresh.bytes_adddir (h : v.Fresh) (hpar : par < v.next) (j : ℕ) :
    (v.adddir name par).bytes j =
      if j = v.next then Dirent.bytes v.next dot ++ Dirent.bytes par dotdot
      else if j = par then v.bytes j ++ Dirent.bytes v.next name
      else v.bytes j := by
  have hne : v.next ≠ par := Nat.ne_of_gt hpar
  rw [Volume.adddir, Volume.append_append]
  by_cases hj : j = v.next
  · rw [if_pos hj, hj, Volume.bytes_append_self, Volume.bytes_append_of_ne _ hne, h.bytes_ialloc,
      h.bytes_next, nil_append]
  · rw [if_neg hj, Volume.bytes_append_of_ne _ hj]
    by_cases hp : j = par
    · rw [if_pos hp, hp, Volume.bytes_append_self, h.bytes_ialloc]
    · rw [if_neg hp, Volume.bytes_append_of_ne _ hp, h.bytes_ialloc]

theorem Tiny.adddir (h : Tiny n v) (hfresh : v.Fresh)
    (hn : 1 ≤ n) (hpar : par < v.next) : Tiny (n + 1) (v.adddir name par) := by
  intro j
  have hj := h j
  rw [hfresh.bytes_adddir hpar]
  unfold DESIZE at hj ⊢
  split
  · rw [length_append, length_bytes, length_bytes]
    unfold DESIZE
    omega
  · split
    · rw [length_append, length_bytes]
      unfold DESIZE
      omega
    · omega

theorem makes_smallDir {Q : ℕ → Image → Prop} (h : Built v s)
    (hv : Tiny n v) (hn : 1 ≤ n ∧ n < 32) (hnext : v.next < tableSize) (hpar : par < v.next)
    (hQ : ∀ t, Built (v.adddir name par) t → Tiny (n + 1) (v.adddir name par) → Q v.next t) :
    Makes E Q (adddir name par) s := by
  have hsmall : Tiny (n + 1) (v.adddir name par) := hv.adddir h.rest hn.1 hpar
  refine makes_adddir h hnext hpar ?_ ?_ fun t ht => hQ t ht hsmall
  · have := hv par
    unfold DESIZE at this
    unfold MAXFILE BSIZE
    omega
  · intro hbig
    exact absurd hbig (hsmall.not_tooBig (by omega))

def root : Volume :=
  ((empty.ialloc T_DIR).append ROOTINO (Dirent.bytes ROOTINO dot)).append ROOTINO
    (Dirent.bytes ROOTINO dotdot)

def tree : Volume :=
  root.adddir (str "bin") 1 |>.adddir (str "dev") 1 |>.adddir (str "etc") 1
    |>.adddir (str "root") 1 |>.adddir (str "proc") 1 |>.adddir (str "sbin") 1
    |>.adddir (str "usr") 1 |>.adddir (str "bin") 8 |>.adddir (str "share") 8
    |>.adddir (str "local") 8 |>.adddir (str "bin") 11 |>.adddir (str "sbin") 8
    |>.adddir (str "sbin") 11

def dirs : Dirs := ⟨2, 4, 5, 7⟩

theorem makes_makeRoot {Q : ℕ → Image → Prop} (hQ : ∀ t, Built root t → Tiny 2 root → Q 1 t) :
    Makes E Q makeRoot prepared := by
  have hfresh : empty.Fresh := built_prepared.rest
  have hempty : ∀ j, empty.bytes j = [] := fun _ => rfl
  have hfirst : Tiny 1 ((empty.ialloc T_DIR).append ROOTINO (Dirent.bytes ROOTINO dot)) := by
    intro j
    rw [Volume.bytes_append, update_apply, hfresh.bytes_ialloc, hempty]
    split
    · rw [nil_append, length_bytes]
      decide
    · exact Nat.zero_le _
  have hroot : Tiny 2 root := by
    intro j
    rw [root, Volume.append_append, Volume.bytes_append, update_apply, hfresh.bytes_ialloc, hempty]
    split
    · rw [nil_append, length_append, length_bytes, length_bytes]
      decide
    · exact Nat.zero_le _
  refine makes_bind (makes_ialloc built_prepared (by decide) fun t ht => ?_)
  refine makes_bind (makes_assert (by decide) ?_)
  refine makes_bind (makes_iappend ht (by decide) (by decide) ?_ ?_ fun t ht => ?_)
  · rw [hfresh.bytes_ialloc, hempty, length_bytes]
    decide
  · exact fun hbig => absurd hbig (hfirst.not_tooBig (by decide))
  refine makes_bind (makes_iappend ht (by decide) (by decide) ?_ ?_ fun t ht => ?_)
  · rw [length_bytes]
    exact le_trans (Nat.add_le_add_right (hfirst ROOTINO) _) (by decide)
  · exact fun hbig => absurd hbig (hroot.not_tooBig (by decide))
  exact makes_pure (hQ t ht hroot)

theorem makes_addDirs {Q : Dirs → Image → Prop} (h : Built root s) (hroot : Tiny 2 root)
    (hQ : ∀ t, Built tree t → Tiny 15 tree → Q dirs t) : Makes E Q (addDirs 1) s := by
  refine makes_bind (makes_smallDir h hroot (by decide) (by decide) (by decide) fun t ht hv => ?_)
  iterate 12
    refine makes_bind (makes_smallDir ht hv (by decide) (by decide) (by decide) fun t ht hv => ?_)
  exact makes_pure (hQ t ht hv)

/-! ## The whole program -/

/-- Zeroes in the last block of a file may be counted to its bytes. -/
theorem Grown.pad {A : ℕ → Fin 13 → ℕ} {c : ℕ → List UInt8} {i : ℕ} (h : Grown A c s)
    (hn : blocks ((c i).length + n) = blocks (c i).length) :
    Grown A (update c i (c i ++ List.replicate n 0)) s := by
  have hb : blocksOf (update c i (c i ++ List.replicate n 0)) = blocksOf c := by
    rw [blocksOf_update, length_append, length_replicate, hn]
    exact update_eq_self i (blocksOf c)
  refine ⟨by rw [hb]; exact h.laying, fun j o ho => ?_, h.room⟩
  rw [hb] at ho
  rw [h.carries j o ho]
  by_cases hj : j = i
  · subst hj
    rw [update_self, getD_eq_getElem?_getD, getD_eq_getElem?_getD, List.getElem?_append]
    split
    · rfl
    next hlt =>
      rw [List.getElem?_eq_none (not_lt.1 hlt), List.getElem?_replicate]
      split <;> rfl
  · rw [update_of_ne hj]

theorem makes_roundRoot (h : Built v s) (hnext : 1 < v.next)
    (hn : (v.bytes 1).length + n = ((v.bytes 1).length / BSIZE + 1) * BSIZE)
    (hpad : blocks ((v.bytes 1).length + n) = blocks (v.bytes 1).length)
    (hlen : (v.bytes 1).length + n < 2 ^ 32)
    (hQ : ∀ t, Built (v.append 1 (List.replicate n 0)) t → Q () t) : Makes E Q (roundRoot 1) s := by
  have h1 : 1 < tableSize := by decide
  have hA : imageAddrs s.sect 1 = (dinode s.sect 1).addrs := if_pos h1
  refine makes_bind (makes_rinode h.grown.laying.nsect h1 ?_)
  refine makes_winode h.grown.laying.nsect h1 (hQ _ ?_)
  rw [h.size 1 h1, ← hn]
  refine h.store h1 (fun _ _ => rfl) ?_ hlen ?_ ?_ ?_ h.next ?_
  · dsimp only
    rw [← hA, update_eq_self, v.bytes_append]
    exact h.grown.pad hpad
  · have hattrs := h.attrs 1 h1
    simpa [Volume.append, Dinode.attrs] using hattrs
  · rw [v.bytes_append_self, length_append, length_replicate]
  · intro j hj
    exact update_of_ne hj _ _
  · intro j hj
    have hne : j ≠ 1 := Nat.ne_of_gt (lt_of_lt_of_le hnext hj)
    exact (update_of_ne hne _ _).trans (h.rest j hj)

theorem Built.write_bitmap (h : Built v s) (buf : Block) : Built v (s.write 28 buf) := by
  have hne : ∀ b, b ≠ 28 → (s.write 28 buf).sect b = s.sect b := fun b hb =>
    update_of_ne hb _ _
  have hdin : ∀ i, i < tableSize → dinode (s.write 28 buf).sect i = dinode s.sect i := by
    intro i hi
    rw [dinode, hne _ (Nat.ne_of_lt (iblock_lt hi)), dinode]
  have hA : imageAddrs (s.write 28 buf).sect = imageAddrs s.sect := by
    funext i
    unfold imageAddrs
    split
    next hi => rw [hdin i hi]
    · rfl
  refine ⟨?_, fun i hi => ?_, fun i hi => ?_, h.next, h.rest, ?_⟩
  · rw [hA]
    exact h.grown.of_below (fun b hb => hne b (Nat.ne_of_gt hb)) rfl rfl rfl
  · rw [hdin i hi]
    exact h.attrs i hi
  · rw [hdin i hi]
    exact h.size i hi
  · rw [hne 1 (by decide)]
    exact h.super

/-- What `mkfs` puts into the image for a list of input files. -/
def volume (files : List Input) : Volume :=
  (tree.addFiles dirs files).append ROOTINO (List.replicate 368 0)

theorem place_dirs (name : List UInt8) :
    (dirs.place name).1 = 2 ∨ (dirs.place name).1 = 4 ∨ (dirs.place name).1 = 5 ∨
      (dirs.place name).1 = 7 := by
  unfold Dirs.place
  split
  · exact Or.inl rfl
  · split
    · exact Or.inr (Or.inr (Or.inr rfl))
    · split
      · exact Or.inr (Or.inr (Or.inl rfl))
      · exact Or.inr (Or.inl rfl)

theorem tree_holds_dirs : tree.Holds dirs := by
  intro name
  have h15 : tree.next = 15 := rfl
  rcases place_dirs name with h | h | h | h <;> omega

theorem Volume.Fresh.bytes_addFiles_of_ne (files : List Input) (h : v.Fresh)
    (hd : v.Holds dirs) {j : ℕ} (hj : j < v.next) (hne : ∀ name, j ≠ (dirs.place name).1) :
    (v.addFiles dirs files).bytes j = v.bytes j := by
  induction files generalizing v with
  | nil => rfl
  | cons f files ih =>
    refine (ih (h.addFile (hd f.name)) (fun name => Nat.lt_succ_of_lt (hd name))
      (Nat.lt_succ_of_lt hj)).trans ?_
    rw [h.bytes_addFile (hd f.name), if_neg (Nat.ne_of_lt hj), if_neg (hne f.name)]

theorem root_ne_place (name : List UInt8) : 1 ≠ (dirs.place name).1 := by
  rcases place_dirs name with h | h | h | h <;> omega

theorem fresh_tree : tree.Fresh := by
  intro i hi
  have h15 : 15 ≤ i := hi
  have hne : ∀ k, k < 15 → i ≠ k := fun k hk => by omega
  simp [tree, root, empty, Volume.adddir, Volume.append, Volume.ialloc, ROOTINO, hne]

theorem addFiles_append (d : Dirs) (first rest : List Input) :
    addFiles d (first ++ rest) = addFiles d first >>= fun _ => addFiles d rest := by
  induction first with
  | nil => rfl
  | cons f first ih =>
    rw [cons_append, addFiles, addFiles, ih]
    simp only [bind_assoc']

theorem Volume.next_addFiles (v : Volume) (d : Dirs) (files : List Input) :
    (v.addFiles d files).next = v.next + files.length := by
  induction files generalizing v with
  | nil => rfl
  | cons f files ih =>
    rw [length_cons, Nat.add_comm files.length, ← Nat.add_assoc]
    exact ih (v.addFile d f)

theorem makes_inputs (files : List Input) (h : Built tree s)
    (htree : Tiny 15 tree) (hfiles : files.length ≤ 193)
    (hsizes : ∀ f ∈ files, f.bytes.length ≤ MAXFILE * BSIZE)
    (hE : TooBig (tree.addFiles dirs files).bytes → E .read)
    (hQ : ∀ t, Built (tree.addFiles dirs files) t → Q () t) :
    Makes E Q (addFiles dirs files) s := by
  have h15 : tree.next = 15 := rfl
  refine makes_addFiles files h tree_holds_dirs ?_ (fun name => ?_) hsizes hE hQ
  · have : tableSize = 208 := rfl
    omega
  · have := htree (dirs.place name).1
    unfold DESIZE at this
    unfold MAXFILE BSIZE
    omega

/-- `mkfs` on input files for which the inode blocks have room. -/
theorem makes_main (files : List Input) (hfiles : files.length ≤ 193)
    (hsizes : ∀ f ∈ files, f.bytes.length ≤ MAXFILE * BSIZE)
    (hE : TooBig (volume files).bytes → E .read)
    (hQ : ∀ t, Built (volume files) t → t.sect 28 = bitmap t.freeblock → Q () t) :
    Makes E Q (main files) start := by
  refine makes_bind (makes_prepare (makes_bind (makes_makeRoot fun s hs hroot => ?_)))
  refine makes_bind (makes_addDirs hs hroot fun s hs htree => ?_)
  have h15 : tree.next = 15 := rfl
  have hbytes := fresh_tree.bytes_addFiles_of_ne files tree_holds_dirs (by decide) root_ne_place
  have hlen : (tree.bytes 1).length = 144 := by decide +kernel
  refine makes_bind (makes_inputs files hs htree hfiles hsizes ?_ fun s hs => ?_)
  · intro hbig
    exact hE (hbig.mono fun j => Volume.le_length_append _ _ _ j)
  refine makes_bind (makes_roundRoot (n := 368) hs ?_ ?_ ?_ ?_ fun s hs => ?_)
  · rw [Volume.next_addFiles]
    omega
  · rw [hbytes, hlen]
    decide
  · rw [hbytes, hlen]
    decide
  · rw [hbytes, hlen]
    decide
  refine makes_bind (wp_last trivial rfl ?_)
  have hused := hs.grown.laying.used
  have hroom := hs.grown.room
  rw [hused]
  refine makes_bind (makes_assert (decide_eq_true (lt_of_le_of_lt hroom (by decide))) ?_)
  refine makes_wsect_of_lt ?_ (hQ _ (hs.write_bitmap _) ?_)
  · rw [hs.grown.laying.nsect]
    decide
  · exact update_self 28 (bitmap s.freeblock) s.sect

theorem makes_main_fails (first rest : List Input)
    (hfirst : first.length ≤ 193) (hsizes : ∀ f ∈ first, f.bytes.length ≤ MAXFILE * BSIZE)
    (hbig : TooBig (tree.addFiles dirs first).bytes) (hE : E .read) :
    Makes E Q (main (first ++ rest)) start := by
  refine makes_bind (makes_prepare (makes_bind (makes_makeRoot fun s hs hroot => ?_)))
  refine makes_bind (makes_addDirs hs hroot fun s hs htree => ?_)
  rw [addFiles_append, bind_assoc']
  refine makes_bind (makes_inputs first hs htree hfirst hsizes (fun _ => hE) fun t ht => ?_)
  exact absurd hbig ht.grown.not_tooBig

end Qwin.Mkfs
