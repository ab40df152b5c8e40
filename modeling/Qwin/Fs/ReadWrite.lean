import Qwin.Fs.Refine

/-!
# Files as arrays of bytes

What `readi` and `writei` do to the bytes of a file, as a statement about their runs. A
write has to fit into the transaction: a block goes to the log once, and `log_write`
gives up when too many have been logged before. `WriteFits` counts them for its last call.
-/

namespace Qwin.Fs

open Prog

variable {p : ℕ} {sb : Superblock} {b b' : BState} {ip : ℕ}

def content (b : BState) (i : ℕ) : List UInt8 := contents b.disk (diskExtent b.disk i)

/-- Entry `ip` is referenced, was read from the disk, and agrees with it. -/
structure Coherent (b : BState) (ip : ℕ) : Prop where
  ref : 0 < (b.core.inode ip).ref
  valid : (b.core.inode ip).valid = true
  type : (b.core.inode ip).type ≠ 0
  agrees : dinode b.disk (b.core.inode ip).inum = dinodeOf (b.core.inode ip) (b.extent ip)

/-- The blocks in the log at the last call of `log_write` of a write: those of the transaction so
far, and those of the write but the last. If the file grows, the last is the block of the inode. -/
def loggedBefore (sb : Superblock) (b : BState) (ip off n : ℕ) : Finset ℕ :=
  b.logged.toFinset ∪ (b.logs sb ip
    (if (b.extent ip).size < off + n then span off n else (span off n).dropLast)).toFinset

/-- The block of that call. -/
def lastLogged (b : BState) (ip off n : ℕ) : ℕ :=
  if (b.extent ip).size < off + n then iblock (b.core.inode ip).inum
  else b.file ip ((off + n - 1) / BSIZE)

/-- A write of `n` bytes at `off` fits into the transaction, the buffers and on the disk. -/
structure WriteFits (sb : Superblock) (b : BState) (ip off n : ℕ) : Prop where
  owner : b.core.owner ≠ none
  nodup : b.logged.Nodup
  log : (loggedBefore sb b ip off n).card < LOGSIZE
  logsize : (loggedBefore sb b ip off n).card < b.logsize - 1
  buffers : (insert (lastLogged b ip off n) (loggedBefore sb b ip off n)).card < NBUF
  free : b.missing ip (span off n) ≤ (freeBlocks sb b.disk).length

variable {off n : ℕ}

theorem exists_of_mem_span {bn : ℕ} (h : bn ∈ span off n) :
    ∃ o, off ≤ o ∧ o < off + n ∧ o / BSIZE = bn := by
  unfold span touched BSIZE at h
  split at h
  · cases h
  · rw [List.mem_range'_1] at h
    refine ⟨max off (bn * 512), ?_, ?_, ?_⟩
    · omega
    · omega
    · unfold BSIZE
      omega

theorem mem_span {bn : ℕ} (h : bn ∈ span off n) :
    bn ∈ (span off n).dropLast ∨ bn = (off + n - 1) / BSIZE := by
  unfold span touched at h ⊢
  split at h
  · cases h
  next hn =>
    rw [if_neg hn, List.range'_concat, List.dropLast_concat]
    rw [List.range'_concat, List.mem_append, List.mem_singleton] at h
    refine h.imp_right fun h => ?_
    unfold BSIZE at h ⊢
    omega

section

variable (h : WriteFits sb b ip off n) (hheld : b.held = [])

include h hheld

theorem WriteFits.room : LogRoom b (loggedBefore sb b ip off n) := by
  refine ⟨h.owner, h.nodup, ?_, h.log, h.logsize⟩
  rintro s (hs | hs)
  · exact Finset.mem_union_left _ (List.mem_toFinset.2 hs)
  · rw [hheld] at hs
    cases hs

theorem WriteFits.supply (hgrow : (b.extent ip).size < off + n) :
    Supply (fun _ => False) sb ip (loggedBefore sb b ip off n) (span off n) b := by
  refine ⟨Or.inr h.free, Or.inr (h.room hheld), fun s hs => Or.inr ?_⟩
  rw [loggedBefore, if_pos hgrow]
  exact Finset.mem_union_right _ (List.mem_toFinset.2 hs)

theorem WriteFits.rewrites (hend : off + n ≤ (b.extent ip).size)
    (hmap : MappedRange b.disk (b.extent ip).addrs 0 (b.extent ip).size) :
    Rewrites ip (loggedBefore sb b ip off n) (lastLogged b ip off n) (span off n) b := by
  have hmapped : ∀ bn ∈ span off n, b.file ip bn ≠ 0 := by
    intro bn hbn
    obtain ⟨o, -, ho, rfl⟩ := exists_of_mem_span hbn
    exact hmap o (Nat.zero_le o) (by omega)
  have hmem : ∀ bn ∈ (span off n).dropLast, b.file ip bn ∈ loggedBefore sb b ip off n := by
    intro bn hbn
    rw [loggedBefore, if_neg (Nat.not_lt.2 hend)]
    exact Finset.mem_union_right _ (List.mem_toFinset.2
      (logs_mapped hbn (hmapped bn (List.dropLast_subset _ hbn))))
  refine ⟨hmapped, fun _ => h.room hheld, hmem, fun bn hbn => ?_⟩
  rcases mem_span hbn with hbn | rfl
  · exact Finset.mem_insert_of_mem (hmem bn hbn)
  · rw [lastLogged, if_neg (Nat.not_lt.2 hend)]
    exact Finset.mem_insert_self _ _

end

section

variable (hwf : WellFormed sb b) (hc : Coherent b ip)

include hwf hc

theorem Coherent.loaded : (abstraction sb b).Loaded ip := by
  have hlt := (hwf.loaded ip hc.ref hc.valid).1
  refine ⟨⟨hc.ref, hlt⟩, hc.valid, ?_⟩
  have : (dinode b.disk (b.core.inode ip).inum).type ≠ 0 := by
    rw [hc.agrees]
    exact hc.type
  exact this

omit hwf in
theorem Coherent.clean : ((abstraction sb b).core.inode ip).attrs =
    ((abstraction sb b).node ((abstraction sb b).inum ip)).attrs := by
  rw [abstraction_node]
  change (b.core.inode ip).attrs = (dinode b.disk (b.core.inode ip).inum).attrs
  rw [hc.agrees]
  rfl

theorem Coherent.content_eq : content b (b.core.inode ip).inum = contents b.disk (b.extent ip) := by
  rw [content, (hwf.loaded ip hc.ref hc.valid).2]

end

theorem Rep.content_eq {s : IState} (hR : Rep sb b s) {i : ℕ} (hi : i < sb.ninodes)
    (ht : (dinode b.disk i).type ≠ 0) : content b i = (s.node i).data :=
  (hR.file i hi (by rw [← hR.type_eq hi]; exact ht)).contents_eq

/-- A judgement that excludes every stop is one about the run of the code. -/
theorem Runs.exists_run {α : Type} {Q : α → BState → Prop} {c : BProg α}
    (h : Runs p (fun _ => False) Q c b) : ∃ r b', c.run (blockSem p) b = .ok (r, b') ∧ Q r b' :=
  wp_run_exists (wp_of_not_assumed not_false h)

/-- The range of a write that `writei` does not refuse. -/
def Writable (size off n : ℕ) : Prop :=
  off ≤ size ∧ off + n < 2 ^ 32 ∧ off + n ≤ MAXFILE * BSIZE

theorem writable_iff {size : ℕ} (hoff : off < 2 ^ 32) (hn : n < 2 ^ 32) :
    Writable size off n ↔ ¬ (size < off ∨ (off + n) % 2 ^ 32 < off ∨
      MAXFILE * BSIZE < (off + n) % 2 ^ 32) := by
  unfold Writable
  rcases Nat.lt_or_ge (off + n) (2 ^ 32) with h | h
  · rw [Nat.mod_eq_of_lt h]
    omega
  · have hmod : (off + n) % 2 ^ 32 < off := (wraps_or_eq hoff hn).resolve_right (by
      have := Nat.mod_lt (off + n) (Nat.two_pow_pos 32)
      omega)
    omega

structure Stored (sb : Superblock) (b b' : BState) (ip off : ℕ) (src : List UInt8) : Prop where
  wellFormed : WellFormed sb b'
  logReserved : LogReserved sb b'.disk
  coherent : Coherent b' ip
  inum : (b'.core.inode ip).inum = (b.core.inode ip).inum
  self : content b' (b.core.inode ip).inum =
    splice (content b (b.core.inode ip).inum) off src
  other : ∀ j, j < sb.ninodes → j ≠ (b.core.inode ip).inum →
    (dinode b'.disk j).type = (dinode b.disk j).type ∧
      ((dinode b.disk j).type ≠ 0 → content b' j = content b j)

variable {src : List UInt8}

section

variable (hwf : WellFormed sb b) (hlog : LogReserved sb b.disk) (hc : Coherent b ip)
include hwf hlog hc

theorem Written.stored (hoff : off ≤ (b.extent ip).size) (hmax : off + src.length ≤ MAXFILE * BSIZE)
    (W : Written sb (diskAddrs sb b.disk) (b.core.inode ip).inum ip off src b b') :
    Stored sb b b' ip off src := by
  have hi := (hwf.loaded ip hc.ref hc.valid).1
  have hR' := hwf.rep.written (hc.loaded hwf) (hc.clean) hoff hmax W
  have hcore := W.core
  have hagrees := W.coherent hc.agrees
  have hc' : Coherent b' ip := by
    refine ⟨?_, ?_, ?_, ?_⟩
    · rw [hcore]
      exact hc.ref
    · rw [hcore]
      exact hc.valid
    · rw [hcore]
      exact hc.type
    · rw [hcore] at hagrees ⊢
      exact hagrees
  refine ⟨hR'.toWellFormed, W.logRes hlog, hc', by rw [hcore], ?_, ?_⟩
  · rw [hR'.content_eq hi (by rw [hagrees, hcore]; exact hc.type)]
    unfold IState.setNode
    dsimp only
    rw [show (abstraction sb b).inum ip = (b.core.inode ip).inum from rfl, Function.update_self]
    rfl
  · intro j hj hne
    have hd := W.dinodes j hj hne
    refine ⟨by rw [hd], fun ht => ?_⟩
    rw [hR'.content_eq hj (by rw [hd]; exact ht), hwf.rep.content_eq hj ht]
    exact congrArg Node.data (Function.update_of_ne hne _ _)

theorem writei_stored (hoff : off < 2 ^ 32) (hn : src.length < 2 ^ 32)
    (hfits : src ≠ [] → WriteFits sb b ip off src.length)
    (hw : Writable (b.extent ip).size off src.length) :
    ∃ b', (writei ip off src).run (blockSem p) b = .ok (some src.length, b') ∧
      Stored sb b b' ip off src := by
  have hi := (hwf.loaded ip hc.ref hc.valid).1
  have hmap := hwf.mapped _ hi (by rw [hc.agrees]; exact hc.type)
  rw [← (hwf.loaded ip hc.ref hc.valid).2] at hmap
  have hrun : ∀ {I : List ℕ → BState → Prop},
      Passes p (fun _ => False) sb (diskAddrs sb b.disk) (b.core.inode ip).inum ip I →
      I (span off src.length) b →
      (0 < src.length → (b.extent ip).size < off + src.length → ∀ b', I [] b' →
        CanLog (fun _ => False) { b' with held := iblock (b.core.inode ip).inum :: b'.held }) →
      Runs p (fun _ => False) (fun r b' => r = some src.length ∧ Stored sb b b' ip off src)
        (writei ip off src) b := by
    intro I hI hsup hlast
    refine runs_writei hI off src (hwf.rep.order_view (hc.loaded hwf)) (Or.inr hlog) hwf.held rfl
      hi hsup hlast hmap hoff hn ?_ ?_
    · intro hbad
      exact absurd hbad ((writable_iff hoff hn).1 hw)
    · intro _ st' W
      exact ⟨rfl, W.stored hwf hlog hc hw.1 hw.2.2⟩
  have hruns : Runs p (fun _ => False) (fun r b' => r = some src.length ∧
      Stored sb b b' ip off src) (writei ip off src) b := by
    by_cases hnil : src = []
    · subst hnil
      refine hrun (I := fun bns _ => bns = []) (fun bn bns _ _ _ _ _ _ h => ?_) rfl
        fun h0 => absurd h0 (Nat.lt_irrefl 0)
      exact absurd h (List.cons_ne_nil bn bns)
    have hfits := hfits hnil
    rcases Nat.lt_or_ge (b.extent ip).size (off + src.length) with hgrow | hend
    · -- the last block that is logged is the block of the inode
      refine hrun passes_supply (hfits.supply hwf.held hgrow) fun _ _ b' hsup => ?_
      have hcard := hfits.buffers
      rw [lastLogged, if_pos hgrow] at hcard
      exact (hsup.ready.resolve_left fun hE => hE.1).canLog_hold hcard
    · exact hrun (passes_rewrites hfits.buffers) (hfits.rewrites hwf.held hend hmap)
        fun _ hgrow => absurd hgrow (Nat.not_lt.2 hend)
  obtain ⟨r, b', hr, rfl, hst⟩ := hruns.exists_run
  exact ⟨b', hr, hst⟩

end

theorem writei_refused (hoff : off < 2 ^ 32)
    (hn : src.length < 2 ^ 32) (hw : ¬ Writable (b.extent ip).size off src.length) :
    (writei ip off src).run (blockSem p) b = .ok (none, b) := by
  rw [writable_iff hoff hn, not_not] at hw
  have hrun : Runs p (fun _ => False) (fun r b' => r = none ∧ b' = b) (writei ip off src) b := by
    unfold writei
    rw [Runs, wp_bind]
    refine runs_getExtent ?_
    by_cases hcond : (b.extent ip).size < off ∨ (off + src.length) % 2 ^ 32 < off
    · rw [if_pos hcond]
      exact wp_pure ⟨rfl, rfl⟩
    · rw [if_neg hcond, if_pos (by tauto)]
      exact wp_pure ⟨rfl, rfl⟩
  obtain ⟨r, b', hr, rfl, rfl⟩ := hrun.exists_run
  exact hr

def readAnswer (data : List UInt8) (off n : ℕ) : Option (List UInt8) :=
  if data.length < off ∨ 2 ^ 32 ≤ off + n then none else some ((data.drop off).take n)

theorem readi_answer (hwf : WellFormed sb b) (hc : Coherent b ip)
    (hbuf : b.pinned < NBUF) (hoff : off < 2 ^ 32) (hn : n < 2 ^ 32) :
    (readi ip off n).run (blockSem p) b =
      .ok (readAnswer (content b (b.core.inode ip).inum) off n, b) := by
  have hi := (hwf.loaded ip hc.ref hc.valid).1
  have hR := hwf.rep
  have hmap := hwf.mapped _ hi (by rw [hc.agrees]; exact hc.type)
  rw [← (hwf.loaded ip hc.ref hc.valid).2] at hmap
  have hlen : (content b (b.core.inode ip).inum).length = (b.extent ip).size := by
    rw [hc.content_eq hwf, contents, length_bytesAt]
  have hwraps : (off + n) % 2 ^ 32 < off ↔ 2 ^ 32 ≤ off + n := by
    rcases Nat.lt_or_ge (off + n) (2 ^ 32) with h | h
    · rw [Nat.mod_eq_of_lt h]
      omega
    · have := Nat.mod_lt (off + n) (Nat.two_pow_pos 32)
      have := wraps_or_eq hoff hn
      omega
  have hrun : Runs p (fun _ => False) (fun r b' =>
      r = readAnswer (content b (b.core.inode ip).inum) off n ∧ b' = b) (readi ip off n) b := by
    refine runs_readi hwf.held (Or.inr hbuf) off n (hR.extent_size_le (hc.loaded hwf)) hmap
      ?_ ?_ hoff hn
    · intro hbad
      rw [hwraps] at hbad
      rw [readAnswer, hlen, if_pos hbad]
      exact ⟨rfl, rfl⟩
    · intro hgood
      rw [hwraps] at hgood
      rw [readAnswer, hlen, if_neg hgood, hc.content_eq hwf]
      exact ⟨rfl, rfl⟩
  obtain ⟨r, b', hr, rfl, rfl⟩ := hrun.exists_run
  exact hr

/-- A loaded file is an array of bytes. A write within the limits of a file stores its
bytes and leaves all others, any other write is refused, and a read answers with the
bytes of its range. -/
theorem file_is_byte_array (p : ℕ) {sb : Superblock} {b : BState} {ip : ℕ}
    (hwf : WellFormed sb b) (hlog : LogReserved sb b.disk) (hc : Coherent b ip) {off : ℕ}
    (hoff : off < 2 ^ 32) :
    (∀ src : List UInt8, src.length < 2 ^ 32 →
      (Writable (b.extent ip).size off src.length →
        (src ≠ [] → WriteFits sb b ip off src.length) →
        ∃ b', (writei ip off src).run (blockSem p) b = .ok (some src.length, b') ∧
          Stored sb b b' ip off src) ∧
      (¬ Writable (b.extent ip).size off src.length →
        (writei ip off src).run (blockSem p) b = .ok (none, b))) ∧
    ∀ n, n < 2 ^ 32 → b.pinned < NBUF →
      (readi ip off n).run (blockSem p) b =
        .ok (readAnswer (content b (b.core.inode ip).inum) off n, b) :=
  ⟨fun _ hn => ⟨fun hw hfits => writei_stored hwf hlog hc hoff hn hfits hw,
    writei_refused hoff hn⟩, fun _ hn hbuf => readi_answer hwf hc hbuf hoff hn⟩

/-! ## A small disk -/

/-- A disk of 40 blocks with 8 inodes and 10 log blocks. Inode 1 is a file of this size
without any block. -/
def bareDisk (size : ℕ) : ℕ → Block
  | 1 => (Bytes.zero 512).putAll 0 [(4, 40), (4, 25), (4, 8), (4, 10)]
  | 2 => Dinode.put (Bytes.zero 512) 1 ⟨T_FILE, 0, 0, 1, size, fun _ => 0⟩
  | 4 => (List.range 5 ++ List.range' 30 10).foldl Bytes.setBit (Bytes.zero 512)
  | _ => Bytes.zero 512

def bareSuper : Superblock := ⟨40, 25, 8, 10⟩

/-- The first process owns the transaction and has locked inode 1. -/
def bareState (size : ℕ) : BState where
  core := { bootCore (fun _ => 0) with
    inode := fun ip => if ip = 0 then ⟨ROOTDEV, 1, 1, true, true, 0, T_FILE, 0, 0, 1⟩
      else zeroInode
    owner := some 0 }
  disk := bareDisk size
  logged := []
  held := []
  logsize := 10
  extent _ := ⟨size, fun _ => 0⟩

theorem inOrder_of_addrs_eq_zero {sb : Superblock} {A : ℕ → Fin 13 → ℕ} {d : ℕ → Block}
    (hsuper : Superblock.get (d 1) = sb) (hA : ∀ i k, A i k = 0)
    (hfree : ∀ c, c < sb.dataEnd → sb.dataStart ≤ c → blockBit sb d c = false)
    (hres : ∀ c, c < sb.dataStart → c < sb.size → blockBit sb d c = true) : InOrder sb A d := by
  have hptr : ∀ x, ptrs A d x = 0 := by
    intro x
    unfold ptrs ptr
    split
    · exact hA _ _
    · rw [if_pos (hA _ _)]
  refine ⟨hsuper, ⟨fun k hk => absurd (hptr k) hk, fun k l hk => absurd (hptr k) hk, ?_⟩, hres⟩
  intro c hc h0
  rw [hfree c hc.2 hc.1]
  refine ⟨fun h => absurd h Bool.false_ne_true, ?_⟩
  rintro ⟨k, hk⟩
  exact absurd ((hptr k).symm.trans hk).symm h0

section

variable (size : ℕ) (h : size = 0 ∨ size = 1)
include h

theorem bareDisk_addrs (i : ℕ) (k : Fin 13) : diskAddrs bareSuper (bareDisk size) i k = 0 := by
  unfold diskAddrs
  split
  next hi =>
    have hall : ∀ j < 8, ∀ k : Fin 13, (dinode (bareDisk size) j).addrs k = 0 := by
      rcases h with rfl | rfl <;> decide +kernel
    exact hall i hi.1 k
  · rfl

theorem bareDisk_inOrder :
    InOrder bareSuper (diskAddrs bareSuper (bareDisk size)) (bareDisk size) := by
  refine inOrder_of_addrs_eq_zero ?_ (bareDisk_addrs size h) ?_ ?_
  · rcases h with rfl | rfl <;> decide +kernel
  · have hall : ∀ c < 30, 5 ≤ c → blockBit bareSuper (bareDisk size) c = false := by
      rcases h with rfl | rfl <;> decide +kernel
    exact hall
  · have hall : ∀ c < 5, blockBit bareSuper (bareDisk size) c = true := by
      rcases h with rfl | rfl <;> decide +kernel
    exact fun c hc _ => hall c hc

theorem bareDisk_logReserved : LogReserved bareSuper (bareDisk size) := by
  have hall : ∀ c < 40, 30 ≤ c → blockBit bareSuper (bareDisk size) c = true := by
    rcases h with rfl | rfl <;> decide +kernel
  exact fun c h1 h2 => hall c h2 h1

end

theorem eq_zero_of_bareState_ref {size q : ℕ} (h : 0 < ((bareState size).core.inode q).ref) :
    q = 0 := by
  by_contra hne
  have hzero : (bareState size).core.inode q = zeroInode := if_neg hne
  rw [hzero] at h
  exact absurd h (by decide)

theorem bareState_cache (size : ℕ) : CacheInOrder (bareState size).core := by
  refine ⟨?_, ?_, ?_⟩
  · intro q hq
    rw [eq_zero_of_bareState_ref hq]
    decide
  · intro q hq
    rw [eq_zero_of_bareState_ref hq]
    rfl
  · intro q r hq hr _
    rw [eq_zero_of_bareState_ref hq, eq_zero_of_bareState_ref hr]

theorem bareState_wellFormed : WellFormed bareSuper (bareState 0) := by
  refine ⟨bareDisk_inOrder 0 (Or.inl rfl), rfl, ?_, ?_, bareState_cache 0, ?_⟩
  · intro i hi _
    have hall : ∀ j < 8, (dinode (bareDisk 0) j).size = 0 := by decide +kernel
    have hsize : (diskExtent (bareState 0).disk i).size = 0 := hall i hi
    rw [hsize]
    intro o h1 h2
    omega
  · intro i hi _
    have hall : ∀ j < 8, (dinode (bareDisk 0) j).size ≤ MAXFILE * BSIZE := by decide +kernel
    exact hall i hi
  · intro q hq hv
    obtain rfl := eq_zero_of_bareState_ref hq
    refine ⟨by decide, ?_⟩
    apply Extent.ext
    · decide +kernel
    · funext k
      revert k
      decide +kernel

theorem bareState_coherent : Coherent (bareState 0) 0 := by
  refine ⟨by decide, rfl, by decide, ?_⟩
  apply Dinode.ext
  · decide +kernel
  · decide +kernel
  · decide +kernel
  · decide +kernel
  · decide +kernel
  · funext k
    revert k
    decide +kernel

def writeTwoBytes : IProg (Option ℕ) := perform (.right (.writei 0 0 [104, 105]))

theorem run_refines_write :
    EndAlike bareSuper (writeTwoBytes.run (inodeSem 0) (abstraction bareSuper (bareState 0)))
        (writeTwoBytes.blocks.run (blockSem 0) (bareState 0)) ∨
      ∃ q ∈ scarce, writeTwoBytes.blocks.run (blockSem 0) (bareState 0) =
        .error (.stop (.panic q)) := by
  refine (run_refines 0 _ bareState_wellFormed.rep ?_).imp_right fun h =>
    h.resolve_right fun h => h.1 (bareDisk_logReserved 0 (Or.inl rfl))
  rw [writeTwoBytes, run_perform]
  dsimp only [inodeSem, execDisk]
  rw [if_pos ⟨bareState_coherent.loaded bareState_wellFormed, bareState_coherent.clean,
    by decide, by decide⟩]
  split <;> exact fun h => by cases h

def sevenBlocks : List UInt8 := List.replicate 3584 7

/-- Seven blocks are written to the empty file: with the bitmap block eight are logged before the
block of the inode, which is as many as there may be. -/
theorem file_is_byte_array_seven :
    (∃ b', (writei 0 0 sevenBlocks).run (blockSem 0) (bareState 0) =
        .ok (some sevenBlocks.length, b') ∧ content b' 1 = sevenBlocks) ∧
    (readi 0 0 4).run (blockSem 0) (bareState 0) = .ok (some [], bareState 0) := by
  have h := file_is_byte_array 0 bareState_wellFormed (bareDisk_logReserved 0 (Or.inl rfl))
    bareState_coherent (by decide : 0 < 2 ^ 32)
  have hold : content (bareState 0) 1 = [] := by decide +kernel
  have hlen : sevenBlocks.length = 3584 := List.length_replicate
  have hfits : WriteFits bareSuper (bareState 0) 0 0 3584 :=
    ⟨by decide, List.nodup_nil, by decide +kernel, by decide +kernel, by decide +kernel,
      by decide +kernel⟩
  obtain ⟨b', hrun, hst⟩ := (h.1 sevenBlocks (by rw [hlen]; decide)).1
    (by rw [hlen]; unfold Writable; decide) fun _ => by rw [hlen]; exact hfits
  refine ⟨⟨b', hrun, ?_⟩, ?_⟩
  · have hself := hst.self
    change content b' 1 = splice (content (bareState 0) 1) 0 sevenBlocks at hself
    rw [hself, hold, splice, List.take_nil, List.nil_append, List.drop_nil, List.append_nil]
  · have hread := h.2 4 (by decide) (by decide)
    rw [hread]
    change Except.ok (readAnswer (content (bareState 0) 1) 0 4, bareState 0) = _
    rw [hold]
    rfl

def panicked {α : Type} (q : Panic) : Except (End BState) α → Bool
  | .error (.stop (.panic q')) => q' = q
  | _ => false

theorem eq_of_panicked {α : Type} {q : Panic} {x : Except (End BState) α}
    (h : panicked q x = true) : x = .error (.stop (.panic q)) := by
  unfold panicked at h
  split at h
  next q' =>
    have hq : q' = q := of_decide_eq_true h
    rw [hq]
  · cases h

/-- A write of nine blocks to an empty file is within the limits of a file and finds
enough free blocks, but is too big for the log. -/
theorem writei_of_nine_blocks_panics :
    ∃ (sb : Superblock) (b : BState) (ip : ℕ) (src : List UInt8),
      WellFormed sb b ∧ LogReserved sb b.disk ∧ Coherent b ip ∧ b.core.owner = some 0 ∧
        b.logged = [] ∧ b.logsize = LOGSIZE ∧ src.length < 2 ^ 32 ∧
        Writable (b.extent ip).size 0 src.length ∧
        b.missing ip (span 0 src.length) ≤ (freeBlocks sb b.disk).length ∧
        (writei ip 0 src).run (blockSem 0) b = .error (.stop (.panic .tooBigTransaction)) := by
  refine ⟨bareSuper, bareState 0, 0, List.replicate 4608 7, bareState_wellFormed,
    bareDisk_logReserved 0 (Or.inl rfl), bareState_coherent, rfl, rfl, rfl, ?_, ?_, ?_, ?_⟩
  · rw [List.length_replicate]
    decide
  · rw [List.length_replicate]
    unfold Writable
    decide
  · rw [List.length_replicate]
    decide +kernel
  · exact eq_of_panicked (by decide +kernel)

end Qwin.Fs
