import Mathlib.Algebra.BigOperators.Intervals
import Qwin.Fs.Refine
import Qwin.Mkfs.Run

/-!
# The finished image

How many blocks the input files and the directories need, and what follows for the image.
With room in the inode table and in the data area, the kernel reads from the image what
`mkfs` was given. Nothing but the end of the image file stops `mkfs`, so that it may hand
out inodes the kernel does not look at and blocks of the log.
-/

namespace Qwin.Mkfs

open Prog Fs List

variable {v : Volume} {s t : Image} {files : List Input}

/-! ## The blocks that are needed -/

/-- The number of input files that go to a directory. -/
def inDir (d : ℕ) (files : List Input) : ℕ := files.countP fun f => (dirs.place f.name).1 = d

/-- The blocks of a file of `n` bytes. -/
def needFor (n : ℕ) : ℕ := cost (blocks n)

/-- The blocks of the directories and of the input files. -/
def need (files : List Input) : ℕ :=
  10 + needFor (DESIZE * (2 + inDir dirs.bin files)) +
    needFor (DESIZE * (2 + inDir dirs.etc files)) +
    needFor (DESIZE * (2 + inDir dirs.home files)) +
    needFor (DESIZE * (2 + inDir dirs.sbin files)) +
    (files.map fun f => needFor f.bytes.length).sum

namespace Volume.Fresh

variable (files) (h : v.Fresh) (hd : v.Holds dirs)
include h hd

theorem addFiles : (v.addFiles dirs files).Fresh := by
  induction files generalizing v with
  | nil => exact h
  | cons f files ih =>
    exact ih (h.addFile (hd f.name)) fun name => Nat.lt_succ_of_lt (hd name)

theorem length_addFiles {j : ℕ} (hj : j < v.next) : ((v.addFiles dirs files).bytes j).length =
      (v.bytes j).length + DESIZE * inDir j files := by
  induction files generalizing v with
  | nil => rfl
  | cons f files ih =>
    refine (ih (h.addFile (hd f.name)) (fun name => Nat.lt_succ_of_lt (hd name))
      (Nat.lt_succ_of_lt hj)).trans ?_
    rw [h.bytes_addFile (hd f.name), if_neg (Nat.ne_of_lt hj), inDir, inDir, countP_cons]
    by_cases hdir : j = (dirs.place f.name).1
    · rw [if_pos hdir, if_pos (decide_eq_true hdir.symm), length_append, length_bytes]
      unfold DESIZE
      omega
    · rw [if_neg hdir, if_neg (by simpa using Ne.symm hdir), Nat.add_zero]

/-- The bytes of an input file are in the inode that was made for it. -/
theorem bytes_file {k : ℕ} {f : Input}
    (hk : files[k]? = some f) : (v.addFiles dirs files).bytes (v.next + k) = f.bytes := by
  induction files generalizing v k with
  | nil => cases hk
  | cons g files ih =>
    have hd' : (v.addFile dirs g).Holds dirs := fun name => Nat.lt_succ_of_lt (hd name)
    cases k with
    | zero =>
      obtain rfl : g = f := Option.some.inj hk
      refine ((h.addFile (hd g.name)).bytes_addFiles_of_ne files hd' (Nat.lt_succ_self _)
        fun name => Nat.ne_of_gt (hd name)).trans ?_
      exact (h.bytes_addFile (hd g.name) _).trans (if_pos rfl)
    | succ k =>
      have := ih (h.addFile (hd g.name)) hd' hk
      rwa [show (v.addFile dirs g).next + k = v.next + (k + 1) from
        Nat.add_right_comm v.next 1 k] at this

end Volume.Fresh

/-- A sum over the members of a list, by their positions. -/
theorem sum_range_getElem? {α : Type} (F : α → ℕ) (l : List α) {m : ℕ} (h : l.length ≤ m) :
    ∑ k ∈ Finset.range m, (l[k]?).elim 0 F = (l.map F).sum := by
  induction l generalizing m with
  | nil => simp
  | cons a l ih =>
    obtain ⟨m, rfl⟩ : ∃ m', m = m' + 1 := ⟨m - 1, by rw [length_cons] at h; omega⟩
    rw [Finset.sum_range_succ', map_cons, sum_cons, Nat.add_comm, ← ih (Nat.le_of_succ_le_succ h)]
    simp

theorem length_tree : ∀ i, i < 15 →
    (tree.bytes i).length = DESIZE * [0, 9, 2, 2, 2, 2, 2, 2, 6, 2, 2, 4, 2, 2, 2].getD i 0 := by
  decide +kernel

theorem inDir_eq_zero {d : ℕ} (hd : ∀ name, d ≠ (dirs.place name).1) : inDir d files = 0 := by
  rw [inDir, countP_eq_zero]
  intro f _
  simpa using (hd f.name).symm

theorem needFor_small {n : ℕ} (h1 : 1 ≤ n) (h32 : n ≤ 32) : needFor (DESIZE * n) = 1 := by
  have hone : blocks (DESIZE * n) = 1 := by
    unfold blocks DESIZE BSIZE
    omega
  rw [needFor, hone]
  rfl

theorem needFor_file (k : ℕ) :
    cost (blocksOf (tree.addFiles dirs files).bytes (15 + k)) =
      (files[k]?).elim 0 fun f => needFor f.bytes.length := by
  rw [blocksOf]
  cases hk : files[k]? with
  | none =>
    have hrest := (fresh_tree.addFiles files tree_holds_dirs) (15 + k) (by
      rw [Volume.next_addFiles]
      exact Nat.add_le_add_left (List.getElem?_eq_none_iff.1 hk) 15)
    rw [Volume.bytes, hrest]
    exact (show cost (blocks 0) = 0 by decide)
  | some f =>
    have hbytes : (tree.addFiles dirs files).bytes (15 + k) = f.bytes :=
      fresh_tree.bytes_file files tree_holds_dirs hk
    rw [hbytes]
    rfl

theorem total_addFiles (h : files.length ≤ 193) :
    total (blocksOf (tree.addFiles dirs files).bytes) = need files := by
  have hdir : ∀ i, i < 15 → cost (blocksOf (tree.addFiles dirs files).bytes i) =
      needFor (DESIZE * ([0, 9, 2, 2, 2, 2, 2, 2, 6, 2, 2, 4, 2, 2, 2].getD i 0 +
        inDir i files)) := by
    intro i hi
    rw [blocksOf, fresh_tree.length_addFiles files tree_holds_dirs hi, length_tree i hi,
      needFor, Nat.mul_add]
  have hsplit : tableSize = 15 + 193 := rfl
  rw [total, hsplit, Finset.sum_range_add, Finset.sum_congr rfl fun k _ => needFor_file k,
    sum_range_getElem? _ _ h, Finset.sum_congr rfl fun i hi => hdir i (Finset.mem_range.1 hi)]
  have hother : ∀ i, i ≠ 2 → i ≠ 4 → i ≠ 5 → i ≠ 7 → inDir i files = 0 := by
    intro i h2 h4 h5 h7
    refine inDir_eq_zero fun name => ?_
    rcases place_dirs name with h | h | h | h <;> rw [h] <;> assumption
  have h0 : needFor 0 = 0 := by decide
  simp [Finset.sum_range_succ, hother, h0, needFor_small, need, dirs]
  omega

theorem blocksOf_volume : blocksOf (volume files).bytes =
    blocksOf (tree.addFiles dirs files).bytes := by
  have hroot := fresh_tree.bytes_addFiles_of_ne files tree_holds_dirs
    (show 1 < tree.next by decide) root_ne_place
  rw [volume, Volume.bytes_append, blocksOf_update, Function.update_eq_self_iff, blocksOf,
    length_append, length_replicate, ROOTINO, hroot, length_tree 1 (by decide)]
  rfl

theorem tooBig_iff (h : files.length ≤ 193) :
    TooBig (tree.addFiles dirs files).bytes ↔ nblocks + nlog < need files := by
  rw [TooBig, total_addFiles h]
  have hsize : size = dataStart + (nblocks + nlog) := rfl
  omega

/-! ## How `mkfs` ends -/

theorem mkfs_eq_error {e : Exit} (h : (main files).run sem start = .error e) :
    mkfs files = .error e := by
  rw [mkfs, h]
  rfl

theorem mkfs_eq_ok (h : (main files).run sem start = .ok ((), t)) : mkfs files = .ok t := by
  rw [mkfs, h]
  rfl

theorem run_of_mkfs (h : mkfs files = .ok t) : (main files).run sem start = .ok ((), t) := by
  unfold mkfs at h
  cases hr : (main files).run sem start with
  | error e =>
    rw [hr] at h
    cases h
  | ok x =>
    rw [hr] at h
    obtain rfl : x.2 = t := Except.ok.inj h
    rfl

theorem mkfs_built (hfiles : files.length ≤ 193)
    (hsizes : ∀ f ∈ files, f.bytes.length ≤ MAXFILE * BSIZE)
    (hneed : need files ≤ nblocks + nlog) :
    ∃ t, mkfs files = .ok t ∧ Built (volume files) t ∧ t.sect 28 = bitmap t.freeblock := by
  have hmakes : Makes (fun _ => False)
      (fun _ t => Built (volume files) t ∧ t.sect 28 = bitmap t.freeblock)
      (main files) start := by
    refine makes_main files hfiles hsizes (fun hbig => ?_) fun t ht hb => ⟨ht, hb⟩
    rw [TooBig, blocksOf_volume] at hbig
    exact absurd ((tooBig_iff hfiles).1 hbig) (not_lt.2 hneed)
  obtain ⟨_, t, hrun, h⟩ := wp_run_exists hmakes
  exact ⟨t, mkfs_eq_ok hrun, h⟩

theorem mkfs_ends_early (hsizes : ∀ f ∈ files, f.bytes.length ≤ MAXFILE * BSIZE)
    (hneed : nblocks + nlog < need (files.take 193)) : ∃ e, mkfs files = .error e := by
  have hlen : (files.take 193).length ≤ 193 := by
    rw [length_take]
    exact min_le_left _ _
  have hmakes : Makes (fun _ => True) (fun _ _ => False) (main files) start := by
    have h := makes_main_fails (E := fun _ => True) (Q := fun _ _ => False) (files.take 193)
      (files.drop 193) hlen (fun f hf => hsizes f (mem_of_mem_take hf))
      ((tooBig_iff hlen).2 hneed) trivial
    rwa [take_append_drop] at h
  cases hr : (main files).run sem start with
  | error e => exact ⟨e, mkfs_eq_error hr⟩
  | ok x => exact (wp_run_ok hmakes hr).elim

/-! ## Inodes that are handed out -/

/-- A part of the program that hands out `n` inodes, if it comes to its end. -/
def HandsOut {α : Type} (n : ℕ) (c : MProg α) : Prop :=
  ∀ s, Makes (fun _ => True) (fun _ t => t.freeinode = s.freeinode + n) c s

namespace HandsOut

variable {α γ : Type} {m n : ℕ} {c d : MProg α}

theorem pure (a : α) : HandsOut 0 (pure a : MProg α) := fun _ => makes_pure rfl

theorem bind {f : α → MProg γ} (h : HandsOut m c) (hf : ∀ a, HandsOut n (f a)) :
    HandsOut (m + n) (c >>= f) := by
  intro s
  refine makes_bind (wp_conseq (h s) fun a t ht => wp_conseq (hf a t) fun b u hu => ?_)
  rw [hu, ht, Nat.add_assoc]

theorem seq {f : α → MProg γ} (h : HandsOut 0 c) (hf : ∀ a, HandsOut n (f a)) :
    HandsOut n (c >>= f) := by
  have := h.bind hf
  rwa [Nat.zero_add] at this

theorem ite {P : Prop} {_ : Decidable P} (hc : HandsOut n c) (hd : HandsOut n d) :
    HandsOut n (if P then c else d) := by
  split
  · exact hc
  · exact hd

end HandsOut

section

open HandsOut

theorem handsOut_rsect (sec : ℕ) : HandsOut 0 (rsect sec) := fun _ =>
  makes_rsect (fun _ => trivial) fun _ => rfl

theorem handsOut_wsect (sec : ℕ) (buf : Block) : HandsOut 0 (wsect sec buf) := fun _ =>
  makes_wsect rfl

theorem handsOut_assert (b : Bool) : HandsOut 0 (assert b) := by
  intro s
  cases b with
  | false => exact wp_stop trivial rfl trivial
  | true => exact makes_assert rfl rfl

theorem handsOut_nextBlock : HandsOut 0 (perform .nextBlock) := fun _ => makes_nextBlock rfl

theorem handsOut_used : HandsOut 0 (perform .used) := fun _ => wp_last trivial rfl rfl

theorem handsOut_winode (i : ℕ) (x : Dinode) : HandsOut 0 (winode i x) :=
  (handsOut_rsect _).seq fun _ => handsOut_wsect _ _

theorem handsOut_rinode (i : ℕ) : HandsOut 0 (rinode i) :=
  (handsOut_rsect _).seq fun _ => pure _

theorem handsOut_ialloc (type : Short) : HandsOut 1 (ialloc type) := by
  have hnext : HandsOut 1 (perform .nextInode) := fun _ => makes_nextInode rfl
  exact hnext.bind fun _ => (handsOut_winode _ _).seq fun _ => pure _

theorem handsOut_newAddr (din : Dinode) (k : Fin 13) : HandsOut 0 (newAddr din k) :=
  handsOut_nextBlock.seq fun _ => pure _

theorem handsOut_fileSector (din : Dinode) (fbn : ℕ) : HandsOut 0 (fileSector din fbn) := by
  unfold fileSector
  split
  · exact ite ((handsOut_newAddr _ _).seq fun _ => pure _) ((pure _).seq fun _ => pure _)
  · refine ite ((handsOut_newAddr _ _).seq fun _ => ?_) ((pure _).seq fun _ => ?_)
    all_goals
      refine (handsOut_rsect _).seq fun _ => ite ?_ (pure _)
      exact handsOut_nextBlock.seq fun _ => (handsOut_wsect _ _).seq fun _ => pure _

theorem handsOut_appendLoop (fuel : ℕ) (din : Dinode) (off : ℕ) (p : List UInt8) :
    HandsOut 0 (appendLoop fuel din off p) := by
  induction fuel generalizing din off p with
  | zero => exact pure _
  | succ fuel ih =>
    refine ite (pure _) ((handsOut_assert _).seq fun _ => (handsOut_fileSector _ _).seq
      fun _ => (handsOut_rsect _).seq fun _ => (handsOut_wsect _ _).seq fun _ => ih _ _ _)

theorem handsOut_iappend (i : ℕ) (p : List UInt8) : HandsOut 0 (iappend i p) :=
  (handsOut_rinode _).seq fun _ => (handsOut_appendLoop _ _ _ _).seq fun _ => handsOut_winode _ _

theorem handsOut_adddir (name : List UInt8) (par : ℕ) : HandsOut 1 (adddir name par) :=
  (handsOut_ialloc _).bind fun _ => (handsOut_iappend _ _).seq fun _ =>
    (handsOut_iappend _ _).seq fun _ => (handsOut_iappend _ _).seq fun _ => pure _

theorem handsOut_copy (i : ℕ) (reads : List (List UInt8)) : HandsOut 0 (copy i reads) := by
  induction reads with
  | nil => exact pure _
  | cons buf reads ih => exact (handsOut_iappend _ _).seq fun _ => ih

theorem handsOut_addFiles (d : Dirs) (files : List Input) :
    HandsOut files.length (addFiles d files) := by
  induction files with
  | nil => exact pure _
  | cons f files ih =>
    rw [length_cons, Nat.add_comm]
    exact (handsOut_ialloc _).bind fun _ => (handsOut_iappend _ _).seq fun _ =>
      (handsOut_copy _ _).seq fun _ => ih

theorem handsOut_zeroes (n : ℕ) : HandsOut 0 (zeroes n) := by
  induction n with
  | zero => exact pure _
  | succ n ih => exact ih.seq fun _ => handsOut_wsect _ _

theorem handsOut_prepare : HandsOut 0 prepare :=
  seq (fun _ => wp_last trivial rfl rfl) fun _ => handsOut_used.seq fun _ =>
    (handsOut_assert _).seq fun _ => (handsOut_zeroes _).seq fun _ => handsOut_wsect _ _

theorem handsOut_makeRoot : HandsOut 1 makeRoot :=
  (handsOut_ialloc _).bind fun _ => (handsOut_assert _).seq fun _ =>
    (handsOut_iappend _ _).seq fun _ => (handsOut_iappend _ _).seq fun _ => pure _

theorem handsOut_addDirs (root : ℕ) : HandsOut 13 (addDirs root) := by
  have h := handsOut_adddir
  exact (h _ _).bind fun _ => (h _ _).bind fun _ => (h _ _).bind fun _ => (h _ _).bind fun _ =>
    (h _ _).bind fun _ => (h _ _).bind fun _ => (h _ _).bind fun _ => (h _ _).bind fun _ =>
    (h _ _).bind fun _ => (h _ _).bind fun _ => (h _ _).bind fun _ => (h _ _).bind fun _ =>
    (h _ _).bind fun _ => pure _

theorem handsOut_main (files : List Input) : HandsOut (14 + files.length) (main files) := by
  rw [show 14 + files.length = 1 + (13 + (files.length + 0)) by omega]
  refine handsOut_prepare.seq fun _ => handsOut_makeRoot.bind fun _ =>
    (handsOut_addDirs _).bind fun _ => (handsOut_addFiles _ _).bind fun _ => ?_
  exact seq ((handsOut_rinode _).seq fun _ => handsOut_winode _ _) fun _ =>
    handsOut_used.seq fun _ => (handsOut_assert _).seq fun _ => handsOut_wsect _ _

end

theorem freeinode_mkfs (h : mkfs files = .ok t) : t.freeinode = 15 + files.length := by
  have hfree := wp_run_ok (handsOut_main files start) (run_of_mkfs h)
  rw [hfree, show start.freeinode = 1 from rfl]
  omega

/-- The input files fit in the data area, and the inodes in the table. -/
def Fits (files : List Input) : Prop := 15 + files.length ≤ ninodes ∧ need files ≤ nblocks

instance (files : List Input) : Decidable (Fits files) := instDecidableAnd

theorem needs_of_fits (h : Fits files) : files.length ≤ 193 ∧ need files ≤ nblocks + nlog := by
  have h1 := h.1
  have : ninodes = 200 := rfl
  exact ⟨by omega, le_trans h.2 (Nat.le_add_right _ _)⟩

/-- Every inode that was handed out is one the kernel looks at, and every block lies before
the log. -/
def InRange (t : Image) : Prop :=
  (∀ i, 1 ≤ i → i < t.freeinode → i < ninodes) ∧
    ∀ b, dataStart ≤ b → b < t.freeblock → b < size - nlog

theorem inRange_iff (h : Built (volume files) t) (hfiles : files.length ≤ 193) :
    InRange t ↔ Fits files := by
  have hfree : t.freeinode = 15 + files.length := by
    rw [h.next, volume, Volume.append, Volume.next_addFiles]
    rfl
  have hcount : t.freeblock = dataStart + need files := by
    rw [h.grown.laying.laid.count, blocksOf_volume, total_addFiles hfiles]
  have hten : 10 ≤ need files := by
    unfold need
    omega
  have hend : size - nlog = dataStart + nblocks := rfl
  rw [InRange, Fits, hfree, hcount, hend]
  refine ⟨fun hr => ⟨?_, ?_⟩, fun hf => ⟨fun i _ hi => ?_, fun b _ hb => ?_⟩⟩
  · have := hr.1 (14 + files.length) (by omega) (by omega)
    omega
  · have := hr.2 (dataStart + need files - 1) (by omega) (by omega)
    omega
  · have := hf.1
    omega
  · have := hf.2
    omega

/-- `mkfs` ends early or stays in range. -/
def NoOverrun (files : List Input) : Prop :=
  (∃ e, mkfs files = .error e) ∨ ∃ t, mkfs files = .ok t ∧ InRange t

/-- The files fit, or those that the inode blocks have room for go beyond the end of the image. -/
def FitsOrFails (files : List Input) : Prop :=
  Fits files ∨ nblocks + nlog < need (files.take 193)

instance (files : List Input) : Decidable (FitsOrFails files) := instDecidableOr

section

variable (hsizes : ∀ f ∈ files, f.bytes.length ≤ MAXFILE * BSIZE)

include hsizes

theorem noOverrun_of_fitsOrFails (h : FitsOrFails files) : NoOverrun files := by
  rcases h with hfits | hbig
  · obtain ⟨hfew, hneed⟩ := needs_of_fits hfits
    obtain ⟨t, ht, hbuilt, -⟩ := mkfs_built hfew hsizes hneed
    exact Or.inr ⟨t, ht, (inRange_iff hbuilt hfew).2 hfits⟩
  · exact Or.inl (mkfs_ends_early hsizes hbig)

theorem fitsOrFails_of_noOverrun (hfew : files.length ≤ 193) (h : NoOverrun files) :
    FitsOrFails files := by
  rw [FitsOrFails, take_of_length_le hfew]
  rcases Nat.lt_or_ge (nblocks + nlog) (need files) with hbig | hneed
  · exact Or.inr hbig
  · obtain ⟨t, ht, hbuilt, -⟩ := mkfs_built hfew hsizes hneed
    rcases h with ⟨e, he⟩ | ⟨u, hu, hr⟩
    · rw [ht] at he
      cases he
    · obtain rfl : t = u := Except.ok.inj (ht.symm.trans hu)
      exact Or.inl ((inRange_iff hbuilt hfew).1 hr)

end

theorem not_inRange_of_many (hmany : 193 < files.length) (ht : mkfs files = .ok t) :
    ¬ InRange t := by
  intro hr
  have hlast := hr.1 (14 + files.length) (by omega) (by rw [freeinode_mkfs ht]; omega)
  have : ninodes = 200 := rfl
  omega

/-- `mkfs` ends early or stays in range if the files fit, or if the first of them go beyond the end
of the image. That is necessary for as many files as the inode blocks have room for. With more of
them the inodes overwrite other blocks, and `mkfs` never stays in range. -/
theorem mkfs_in_range_iff (files : List Input)
    (hsizes : ∀ f ∈ files, f.bytes.length ≤ MAXFILE * BSIZE) :
    (FitsOrFails files → NoOverrun files) ∧
      (files.length ≤ 193 → (NoOverrun files ↔ FitsOrFails files)) ∧
      (193 < files.length → ∀ t, mkfs files = .ok t → ¬ InRange t) :=
  ⟨noOverrun_of_fitsOrFails hsizes,
    fun hfew => ⟨fitsOrFails_of_noOverrun hsizes hfew, noOverrun_of_fitsOrFails hsizes⟩,
    fun hmany _ ht => not_inRange_of_many hmany ht⟩

def twoBlocks : Input := ⟨str "f", [replicate 512 7, replicate 88 7], by decide +kernel,
  by decide +kernel⟩

/-- The last file that fits, and the first that does not. -/
theorem mkfs_in_range_iff_full :
    NoOverrun (replicate 185 twoBlocks) ∧ ¬ NoOverrun (replicate 186 twoBlocks) := by
  have hsizes : ∀ n, ∀ f ∈ replicate n twoBlocks, f.bytes.length ≤ MAXFILE * BSIZE := by
    intro n f hf
    rw [eq_of_mem_replicate hf]
    decide +kernel
  refine ⟨(mkfs_in_range_iff _ (hsizes 185)).1 (by decide +kernel), fun h => ?_⟩
  have hfew : (replicate 186 twoBlocks).length ≤ 193 := by
    rw [length_replicate]
    decide
  exact absurd (((mkfs_in_range_iff _ (hsizes 186)).2.1 hfew).1 h) (by decide +kernel)

def emptyFile : Input := ⟨str "f", [], by simp, by simp⟩

/-- With 186 files, the last of them gets inode 200. -/
theorem mkfs_overruns :
    ∃ t, mkfs (List.replicate 186 emptyFile) = .ok t ∧ ¬ InRange t := by
  have hsizes : ∀ f ∈ List.replicate 186 emptyFile, f.bytes.length ≤ MAXFILE * BSIZE := by
    intro f hf
    rw [eq_of_mem_replicate hf]
    decide
  have hlen : (List.replicate 186 emptyFile).length ≤ 193 := by
    rw [length_replicate]
    decide
  obtain ⟨t, ht, hbuilt, -⟩ := mkfs_built hlen hsizes (by decide +kernel)
  exact ⟨t, ht, fun hr => absurd ((inRange_iff hbuilt hlen).1 hr) (by decide +kernel)⟩

/-! ## What the kernel reads -/

theorem bit_bitmap (used : ℕ) {b : ℕ} (hb : b < BPB) : (bitmap used).bit b = decide (b < used) := by
  have hbyte : b / 8 < 512 := by
    unfold BPB at hb
    omega
  induction used with
  | zero => simp [bitmap, Bytes.bit]
  | succ n ih =>
    have hstep : bitmap (n + 1) = (bitmap n).setBit n := by
      rw [bitmap, range_succ, foldl_append]
      rfl
    rw [hstep, Bytes.bit_setBit _ hbyte, ih, Bool.eq_iff_iff]
    simp only [Bool.or_eq_true, decide_eq_true_eq]
    omega

theorem Built.fileIs (h : Built v t) {i : ℕ} (hi : i < tableSize) :
    FileIs t.sect (diskExtent t.sect i) (v.bytes i) := by
  refine ⟨(h.size i hi).symm, fun o x hx => ?_⟩
  have ho : o < (v.bytes i).length := (List.getElem?_eq_some_iff.1 hx).1
  have hblock : o / BSIZE < blocksOf v.bytes i := by
    unfold blocksOf blocks BSIZE
    omega
  have hA : imageAddrs t.sect i = (diskExtent t.sect i).addrs := if_pos hi
  rw [← hA, h.grown.carries i o hblock, getD_eq_getElem?_getD, hx]
  rfl

theorem runs_read_image {p ip off n : ℕ} {st : BState} {data : List UInt8}
    (hfile : FileIs st.disk (diskExtent st.disk (st.core.inode ip).inum) data)
    (hmax : data.length ≤ MAXFILE * BSIZE) (hheld : st.held = []) (hlog : st.logged = [])
    (hoff : off < 2 ^ 32) (hn : n < 2 ^ 32) :
    ∃ st', (do loadInode ip; readi ip off n : BProg (Option (List UInt8))).run (blockSem p) st =
        .ok (if data.length < off ∨ (off + n) % 2 ^ 32 < off then none
          else some ((data.drop off).take n), st') ∧ (st'.extent ip).size = data.length := by
  have hpinned : st.pinned < NBUF := by
    rw [BState.pinned, hheld, hlog]
    decide
  have hext : (st.load ip).extent ip = diskExtent st.disk (st.core.inode ip).inum :=
    Function.update_self ..
  have hsize : ((st.load ip).extent ip).size = data.length := by rw [hext, hfile.1]
  have hcontents : contents (st.load ip).disk ((st.load ip).extent ip) = data := by
    rw [hext]
    exact hfile.contents_eq
  have hruns : Runs p (fun _ => False)
      (fun r st' => r = (if data.length < off ∨ (off + n) % 2 ^ 32 < off then none
        else some ((data.drop off).take n)) ∧ (st'.extent ip).size = data.length)
      (do loadInode ip; readi ip off n) st := by
    rw [Runs, wp_bind]
    refine runs_loadInode hheld (Or.inr hpinned) ?_
    have hheld' : (st.load ip).held = [] := hheld
    refine runs_readi hheld' (Or.inr hpinned) off n ?_ ?_ (fun hbad => ?_) (fun hgood => ?_) hoff hn
    · rw [hsize]
      exact hmax
    · rw [hext]
      exact hfile.mapped
    · rw [hsize] at hbad
      rw [if_pos hbad]
      exact ⟨rfl, hsize⟩
    · rw [hsize] at hgood
      rw [if_neg hgood, hcontents]
      exact ⟨rfl, hsize⟩
  obtain ⟨_, st', hrun, rfl, hst'⟩ := wp_run_exists (wp_of_not_assumed id hruns)
  exact ⟨st', hrun, hst'⟩

/-- What `mkfs` writes for files that fit. The blocks of the inodes are all different, they
are the blocks from the start of the data area up to `freeblock`, the bitmap marks the
blocks up to `usedblocks`, and the kernel reads the files. -/
theorem kernel_reads_image (files : List Input) (hfits : Fits files)
    (hsizes : ∀ f ∈ files, f.bytes.length ≤ MAXFILE * BSIZE) :
    ∃ t, mkfs files = .ok t ∧
      (∀ x y, ptrs (imageAddrs t.sect) t.sect x ≠ 0 →
        ptrs (imageAddrs t.sect) t.sect x = ptrs (imageAddrs t.sect) t.sect y → x = y) ∧
      (∀ b, (b ≠ 0 ∧ ∃ x, ptrs (imageAddrs t.sect) t.sect x = b) ↔
        dataStart ≤ b ∧ b < t.freeblock) ∧
      t.usedblocks = t.freeblock ∧
      (∀ b, b < BPB → ((t.sect (bblock b ninodes)).bit b = true ↔ b < t.usedblocks)) ∧
      ∀ k f, files[k]? = some f → ∀ p ip off n (st : BState), st.disk = t.sect →
        st.held = [] → st.logged = [] → (st.core.inode ip).inum = 15 + k →
        off < 2 ^ 32 → n < 2 ^ 32 →
        ∃ st', (do loadInode ip; readi ip off n : BProg (Option (List UInt8))).run
            (blockSem p) st =
          .ok (if f.bytes.length < off ∨ (off + n) % 2 ^ 32 < off then none
            else some ((f.bytes.drop off).take n), st') ∧
          (st'.extent ip).size = f.bytes.length := by
  obtain ⟨hfew, hneed⟩ := needs_of_fits hfits
  obtain ⟨t, ht, hbuilt, hbitmap⟩ := mkfs_built hfew hsizes hneed
  have howned := hbuilt.grown.laying.laid.owned
  have hused := hbuilt.grown.laying.used
  refine ⟨t, ht, howned.inj, fun b => ⟨?_, ?_⟩, hused, fun b hb => ?_, ?_⟩
  · rintro ⟨h0, x, rfl⟩
    exact ⟨howned.area x h0, of_decide_eq_true (howned.mark h0)⟩
  · rintro ⟨hb, hlt⟩
    have h0 : b ≠ 0 := Nat.ne_of_gt (lt_of_lt_of_le (by decide) hb)
    exact ⟨h0, (howned.marked b hb h0).1 (decide_eq_true hlt)⟩
  · have hblock : bblock b ninodes = 28 := by
      rw [bblock, Nat.div_eq_of_lt hb]
      rfl
    rw [hblock, hbitmap, bit_bitmap _ hb, hused, decide_eq_true_eq]
  · intro k f hk p ip off n st hdisk hheld hlog hinum hoff hn
    have hmem : f ∈ files := mem_of_getElem? hk
    have hlt : 15 + k < tableSize := by
      have := (List.getElem?_eq_some_iff.1 hk).1
      have : tableSize = 208 := rfl
      omega
    have hbytes : (volume files).bytes (15 + k) = f.bytes := by
      rw [volume, Volume.bytes_append_of_ne _ (by unfold ROOTINO; omega)]
      exact fresh_tree.bytes_file files tree_holds_dirs hk
    have hfile := hbuilt.fileIs hlt
    rw [hbytes, ← hdisk, ← hinum] at hfile
    exact runs_read_image hfile (hsizes f hmem) hheld hlog hoff hn

def twoBytes : Input := ⟨str "f", [[104], [105]], by simp, by simp⟩

/-- The kernel after boot, with the inode of the first input file in the cache. -/
def bootWith (d : ℕ → Block) : BState :=
  { bootOn d (fun _ => 0) with
    core := (bootCore fun _ => 0).setInode 1 { zeroInode with inum := 15 } }

theorem kernel_reads_two_bytes :
    ∃ t st', mkfs [twoBytes] = .ok t ∧
      (do loadInode 1; readi 1 0 5 : BProg (Option (List UInt8))).run (blockSem 0)
        (bootWith t.sect) = .ok (some [104, 105], st') := by
  obtain ⟨t, ht, -, -, -, -, hread⟩ := kernel_reads_image [twoBytes] (by decide) (by decide)
  obtain ⟨st', hst', -⟩ := hread 0 twoBytes rfl 0 1 0 5 (bootWith t.sect) rfl rfl rfl rfl
    (by decide) (by decide)
  exact ⟨t, st', ht, hst'⟩

/-! ## The kernel that starts on the image -/

theorem attrs_append (v : Volume) (i j : ℕ) (p : List UInt8) :
    ((v.append i p).node j).attrs = (v.node j).attrs := by
  by_cases hj : j = i <;> simp [Volume.append, hj]

theorem type_addFiles (files : List Input)
    (h : ∀ i, 0 < i → i < v.next → (v.node i).attrs.type ≠ 0) :
    ∀ i, 0 < i → i < (v.addFiles dirs files).next →
      ((v.addFiles dirs files).node i).attrs.type ≠ 0 := by
  induction files generalizing v with
  | nil => exact h
  | cons f files ih =>
    refine ih fun i h0 hi => ?_
    simp only [Volume.addFile, attrs_append, Volume.ialloc, Function.update_apply]
    split
    · exact (show T_FILE ≠ 0 by decide)
    next hne => exact h i h0 (lt_of_le_of_ne (Nat.le_of_lt_succ hi) hne)

section Built

variable (h : Built v t)
include h

theorem Built.imageAddrs_eq_zero {i : ℕ} (hb : v.bytes i = []) :
    imageAddrs t.sect i = fun _ => 0 := by
  have hnb : blocksOf v.bytes i = 0 := by
    rw [blocksOf, hb]
    rfl
  have hmap := h.grown.laying.laid.mapped i
  have hind := h.grown.laying.laid.indirect i
  simp only [hnb, Nat.not_lt_zero, iff_false, not_not] at hmap hind
  funext k
  refine (ptr_addr t.sect _ k).symm.trans ?_
  by_cases hk : k.val < NDIRECT
  · have := hmap k.val
    rwa [filePos, if_pos hk] at this
  · have h12 : k.val = 12 := Nat.le_antisymm (Nat.le_of_lt_succ k.isLt) (not_lt.1 hk)
    rwa [h12]

/-- No file of the image is longer than the pointers of an inode reach. -/
theorem Built.length_le (i : ℕ) : (v.bytes i).length ≤ MAXFILE * BSIZE := by
  have hnot : ¬ MAXFILE < blocksOf v.bytes i := by
    intro hlt
    refine (h.grown.laying.laid.mapped i MAXFILE).2 hlt ?_
    change ptr t.sect (imageAddrs t.sect i) (13 + 128) = 0
    by_cases h12 : imageAddrs t.sect i 12 = 0
    · exact ptr_entry_of_zero t.sect h12 128
    · rw [ptr_entry t.sect h12]
      exact Bytes.le_of_ge _ _ (by decide)
  unfold blocksOf blocks BSIZE at hnot
  unfold BSIZE
  omega

end Built

/-- An inode that the kernel takes for free has no blocks. -/
theorem Built.diskAddrs_eq (h : Built (volume files) t) {sb : Superblock}
    (hnext : (volume files).next ≤ sb.ninodes) (hsb : sb.ninodes ≤ tableSize) :
    diskAddrs sb t.sect = imageAddrs t.sect := by
  funext i
  unfold diskAddrs
  split
  next hi => exact (if_pos (lt_of_lt_of_le hi.1 hsb)).symm
  next hi =>
    refine (h.imageAddrs_eq_zero ?_).symm
    rcases Nat.lt_or_ge i (volume files).next with hlt | hge
    · rcases Nat.eq_zero_or_pos i with rfl | hpos
      · rw [volume, Volume.bytes_append_of_ne _ (by decide),
          fresh_tree.bytes_addFiles_of_ne files tree_holds_dirs (by decide) fun name => by
            rcases place_dirs name with h | h | h | h <;> omega]
        exact length_eq_zero_iff.1 (length_tree 0 (by decide))
      · have htree : ∀ i, i < 15 → 0 < i → (tree.node i).attrs.type ≠ 0 := by decide +kernel
        have hlt' := lt_of_lt_of_le hlt hnext
        refine absurd ⟨hlt', ?_⟩ hi
        change (dinode t.sect i).attrs.type ≠ 0
        rw [h.attrs i (lt_of_lt_of_le hlt' hsb), volume, attrs_append]
        exact type_addFiles files (fun j h0 hj => htree j hj h0) i hpos hlt
    · rw [Volume.bytes, h.rest i hge]
      rfl

theorem eq_zero_of_boot {oracle : ℕ → ℤ} {q : ℕ} (hq : 0 < ((bootCore oracle).inode q).ref) :
    q = 0 := by
  by_contra hne
  have hr : (bootCore oracle).inode q = zeroInode := if_neg hne
  rw [hr] at hq
  exact absurd hq (by decide)

theorem cacheInOrder_boot (oracle : ℕ → ℤ) : CacheInOrder (bootCore oracle) := by
  refine ⟨fun q hq => ?_, fun q hq => ?_, fun q r hq hr _ => ?_⟩
  · rw [eq_zero_of_boot hq]
    decide
  · rw [eq_zero_of_boot hq]
    rfl
  · rw [eq_zero_of_boot hq, eq_zero_of_boot hr]

/-- The kernel that starts on the image finds the files of the volume on a disk that is in
order: every pointer of an inode lies in the data area, no two are the same, and the bitmap
marks what they point to. -/
theorem kernel_boots_on_image (files : List Input) (hfits : Fits files)
    (hsizes : ∀ f ∈ files, f.bytes.length ≤ MAXFILE * BSIZE) (oracle : ℕ → ℤ) :
    ∃ t, mkfs files = .ok t ∧ Rep (Superblock.get superblock) (bootOn t.sect oracle)
      ⟨bootCore oracle, (volume files).node, ninodes⟩ := by
  obtain ⟨hfew, hneed⟩ := needs_of_fits hfits
  obtain ⟨t, ht, h, hbitmap⟩ := mkfs_built hfew hsizes hneed
  obtain ⟨sb, hsb⟩ : ∃ sb, Superblock.get superblock = sb := ⟨_, rfl⟩
  obtain rfl : sb = ⟨size, nblocks, ninodes, nlog⟩ := hsb.symm.trans (by decide +kernel)
  have hrange := (inRange_iff h hfew).2 hfits
  have howned := h.grown.laying.laid.owned
  have htable : ∀ i, i < ninodes → i < tableSize := fun i hi => lt_of_lt_of_le hi (by decide)
  have hbit : ∀ b, b < size → blockBit ⟨size, nblocks, ninodes, nlog⟩ t.sect b =
      decide (b < t.freeblock) := by
    intro b hb
    have hb : b < BPB := lt_of_lt_of_le hb (by decide)
    have hblock : bblock b ninodes = 28 := by
      rw [bblock, Nat.div_eq_of_lt hb]
      rfl
    rw [blockBit, hblock, hbitmap, Nat.mod_eq_of_lt hb, bit_bitmap _ hb]
  rw [hsb]
  refine ⟨t, ht, ⟨⟨by rw [← hsb, ← h.super]; rfl, ?_, fun b hb hlt => ?_⟩, rfl,
    fun i hi _ => (h.fileIs (htable i hi)).mapped,
    fun i hi _ => le_of_eq_of_le (h.size i (htable i hi)) (h.length_le i),
    cacheInOrder_boot oracle, fun q hq hv => ?_⟩, rfl, rfl,
    fun i hi => (h.attrs i (htable i hi)).symm, fun i hi _ => h.fileIs (htable i hi)⟩
  · change Owned _ (ptrs (diskAddrs _ t.sect) t.sect) _
    rw [h.diskAddrs_eq (by rw [← h.next, freeinode_mkfs ht]; exact hfits.1) (by decide)]
    refine ⟨fun k hk => ?_, howned.inj, fun b hb h0 => ?_⟩
    · exact ⟨howned.area k hk, hrange.2 _ (howned.area k hk) (of_decide_eq_true (howned.mark hk))⟩
    · exact (hbit b (lt_of_lt_of_le hb.2 (Nat.sub_le ..))) ▸ howned.marked b hb.1 h0
  · exact (hbit b hlt).trans (decide_eq_true (lt_of_lt_of_le hb h.grown.laying.laid.start))
  · cases eq_zero_of_boot hq
    cases hv

theorem kernel_boots_on_two_bytes :
    ∃ t, mkfs [twoBytes] = .ok t ∧ Rep (Superblock.get superblock) (bootOn t.sect fun _ => 0)
      ⟨bootCore fun _ => 0, (volume [twoBytes]).node, ninodes⟩ :=
  kernel_boots_on_image [twoBytes] (by decide) (by decide) fun _ => 0

end Qwin.Mkfs
