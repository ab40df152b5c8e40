import Mathlib.Data.Finset.Card
import Mathlib.Data.List.Dedup
import Qwin.Fs.Block
import Qwin.Fs.Ownership

/-!
# Rules for the steps of the block level

One rule for each step, in the form in which the specifications use them: what has to
hold before the step, and the state it leaves. `Ready E st F` stands for the resources
a step may run out of. Either the stops that report them are among those `E` allows,
or the caller owns the transaction, and the log has room for one block after all those
of `F`, which has the blocks logged, held, or still to be logged.
-/

namespace Qwin.Fs

open Prog List

/-- `balloc`, if it finds a block, finds one below the log. -/
def ballocBelowLog (st : BState) : Bool :=
  match firstFree (Superblock.get (st.disk 1)) st.disk with
  | none => true
  | some b => b < (Superblock.get (st.disk 1)).dataEnd

def belowLog : (β : Type) → Plus CoreAct BlockAct β → BState → Bool
  | _, .right .callBalloc, st => ballocBelowLog st
  | _, _, _ => true

/-- Where `balloc` is called, the bits of the blocks before the data area are set. -/
def FrontReserved : (β : Type) → Plus CoreAct BlockAct β → BState → Prop
  | _, .right .callBalloc, st =>
    ∀ b, b < (Superblock.get (st.disk 1)).dataStart →
      b < (Superblock.get (st.disk 1)).size →
      blockBit (Superblock.get (st.disk 1)) st.disk b = true
  | _, _, _ => True

/-- What a run of a block-level program by process `p` guarantees, as long as `balloc`
takes no block of the log. -/
abbrev Runs {α : Type} (p : ℕ) (E : End BState → Prop) (Q : α → BState → Prop)
    (c : BProg α) (st : BState) : Prop :=
  wp ((blockSem p).assume belowLog .assumed) FrontReserved E Q c st

/-- The stops that report a lack of resources are allowed. -/
def Tolerant (E : End BState → Prop) : Prop :=
  E (.stop (.panic .tooBigTransaction)) ∧ E (.stop (.panic .bgetNoBuffers)) ∧
    E (.stop (.panic .writeOutsideTrans))

/-- `log_write` goes through after the blocks of `F` have been logged. -/
structure LogRoom (st : BState) (F : Finset ℕ) : Prop where
  owner : st.core.owner ≠ none
  nodup : st.logged.Nodup
  mem : ∀ s, s ∈ st.logged ∨ s ∈ st.held → s ∈ F
  log : F.card < LOGSIZE
  logsize : F.card < st.logsize - 1

/-- The resources of the block layer suffice for the blocks of `F`, or a stop that reports
the contrary is allowed. -/
def Ready (E : End BState → Prop) (st : BState) (F : Finset ℕ) : Prop := Tolerant E ∨ LogRoom st F

/-- Block `s` is among those that may be logged. -/
def May (E : End BState → Prop) (F : Finset ℕ) (s : ℕ) : Prop := Tolerant E ∨ s ∈ F

/-- `log_write` goes through, or a stop is allowed. -/
def CanLog (E : End BState → Prop) (st : BState) : Prop :=
  Tolerant E ∨ st.core.owner ≠ none ∧ st.logged.length < LOGSIZE ∧
    st.logged.length < st.logsize - 1 ∧ st.pinned < NBUF

def BState.write (st : BState) (s : ℕ) (data : Block) : BState :=
  { st with
    disk := Function.update st.disk s data
    logged := if s ∈ st.logged then st.logged else st.logged ++ [s] }

variable {α : Type} {p : ℕ} {E : End BState → Prop} {Q : α → BState → Prop}
  {st : BState} {F : Finset ℕ} {s : ℕ}

theorem mem_write_logged {data : Block} {x : ℕ} (h : x ∈ (st.write s data).logged) :
    x ∈ st.logged ∨ x = s := by
  unfold BState.write at h
  dsimp only at h
  split at h
  · exact Or.inl h
  · rcases mem_append.1 h with h | h
    · exact Or.inl h
    · exact Or.inr (mem_singleton.1 h)

theorem nodup_write_logged {data : Block} (h : st.logged.Nodup) :
    (st.write s data).logged.Nodup := by
  unfold BState.write
  dsimp only
  split
  · exact h
  next hs =>
    rw [← concat_eq_append]
    exact h.concat hs

theorem pinned_le_card (hF : ∀ s, s ∈ st.held ∨ s ∈ st.logged → s ∈ F) : st.pinned ≤ F.card := by
  rw [BState.pinned, ← card_toFinset]
  exact Finset.card_le_card fun s hs => hF s (mem_append.1 (mem_toFinset.1 hs))

theorem LogRoom.length_le (h : LogRoom st F) : st.logged.length ≤ F.card := by
  rw [← toFinset_card_of_nodup h.nodup]
  exact Finset.card_le_card fun s hs => h.mem s (Or.inl (mem_toFinset.1 hs))

theorem LogRoom.write (h : LogRoom st F) (hs : s ∈ F) (data : Block) :
    LogRoom (st.write s data) F := by
  refine ⟨h.owner, nodup_write_logged h.nodup, ?_, h.log, h.logsize⟩
  rintro x (hx | hx)
  · rcases mem_write_logged hx with hx | rfl
    · exact h.mem x (Or.inl hx)
    · exact hs
  · exact h.mem x (Or.inr hx)

/-- The last block that is logged need not be in `F`, but it takes a buffer. -/
theorem LogRoom.canLog_hold (h : LogRoom st F) (hcard : (insert s F).card < NBUF) :
    CanLog E { st with held := s :: st.held } := by
  refine Or.inr ⟨h.owner, h.length_le.trans_lt h.log, h.length_le.trans_lt h.logsize,
    (pinned_le_card ?_).trans_lt hcard⟩
  rintro x (hx | hx)
  · rcases mem_cons.1 hx with rfl | hx
    · exact Finset.mem_insert_self x F
    · exact Finset.mem_insert_of_mem (h.mem x (Or.inr hx))
  · exact Finset.mem_insert_of_mem (h.mem x (Or.inl hx))

theorem CanLog.pinned_lt (h : CanLog E { st with held := s :: st.held }) :
    E (.stop (.panic .bgetNoBuffers)) ∨ st.pinned < NBUF := by
  rcases h with h | ⟨-, -, -, h⟩
  · exact Or.inl h.2.1
  · refine Or.inr ((pinned_le_card fun x hx => mem_toFinset.2 ?_).trans_lt
      ((card_toFinset _).trans_lt h))
    exact mem_append.2 (hx.imp_left (mem_cons_of_mem s))

namespace Ready

variable (h : Ready E st F)
include h

theorem hold (hs : May E F s) : Ready E { st with held := s :: st.held } F := by
  rcases h with h | h
  · exact Or.inl h
  rcases hs with hE | hs
  · exact Or.inl hE
  refine Or.inr ⟨h.owner, h.nodup, ?_, h.log, h.logsize⟩
  rintro x (hx | hx)
  · exact h.mem x (Or.inl hx)
  · rcases mem_cons.1 hx with rfl | hx
    · exact hs
    · exact h.mem x (Or.inr hx)

theorem write (hs : May E F s) (data : Block) : Ready E (st.write s data) F := by
  rcases h with h | h
  · exact Or.inl h
  · exact hs.imp_right fun hs => h.write hs data

theorem setExtent {e : ℕ → Extent} : Ready E { st with extent := e } F :=
  h.imp_right fun h => ⟨h.owner, h.nodup, h.mem, h.log, h.logsize⟩

theorem canLog : CanLog E st := by
  rcases h with h | h
  · exact Or.inl h
  · exact Or.inr ⟨h.owner, h.length_le.trans_lt h.log, h.length_le.trans_lt h.logsize,
      (pinned_le_card fun s hs => h.mem s hs.symm).trans_lt h.log⟩

theorem pinned_lt : E (.stop (.panic .bgetNoBuffers)) ∨ st.pinned < NBUF :=
  h.canLog.imp (fun hE => hE.2.1) fun hC => hC.2.2.2

end Ready

/-! ## One rule for each step -/

/-- `bread`, when there is a buffer or its lack is allowed to stop the run. -/
theorem runs_bread_of_pinned {Q : Block → BState → Prop} (hs : s ∉ st.held)
    (hp : E (.stop (.panic .bgetNoBuffers)) ∨ st.pinned < NBUF)
    (h : Q (st.disk s) { st with held := s :: st.held }) : Runs p E Q (bread s) st := by
  by_cases hfull : s ∉ st.logged ∧ NBUF ≤ st.pinned
  · rcases hp with hE | hlt
    · refine wp_stop (e := .stop (.panic .bgetNoBuffers)) trivial ?_ hE
      rw [Sem.assume_exec rfl]
      simp [blockSem, execBlock, hs, hfull]
    · exact absurd hfull.2 (by omega)
  · refine wp_last (r := st.disk s) trivial ?_ h
    rw [Sem.assume_exec rfl]
    simp only [blockSem, execBlock, if_neg hs, if_neg hfull]

theorem runs_bread {Q : Block → BState → Prop} (hs : s ∉ st.held) (hR : Ready E st F)
    (h : Q (st.disk s) { st with held := s :: st.held }) : Runs p E Q (bread s) st :=
  runs_bread_of_pinned hs hR.pinned_lt h

theorem runs_logWrite {Q : Unit → BState → Prop} {data : Block} (hC : CanLog E st)
    (h : Q () (st.write s data)) : Runs p E Q (logWrite s data) st := by
  by_cases hbig : LOGSIZE ≤ st.logged.length ∨ st.logsize - 1 ≤ st.logged.length
  · rcases hC with hE | hC
    · refine wp_stop (e := .stop (.panic .tooBigTransaction)) trivial ?_ hE.1
      rw [Sem.assume_exec rfl]
      simp only [blockSem, execBlock, if_pos hbig]
    · omega
  by_cases howner : st.core.owner = none
  · rcases hC with hE | hC
    · refine wp_stop (e := .stop (.panic .writeOutsideTrans)) trivial ?_ hE.2.2
      rw [Sem.assume_exec rfl]
      simp only [blockSem, execBlock, if_neg hbig, if_pos howner]
    · exact absurd howner hC.1
  by_cases hfull : NBUF ≤ st.pinned
  · rcases hC with hE | hC
    · refine wp_stop (e := .stop (.panic .bgetNoBuffers)) trivial ?_ hE.2.1
      rw [Sem.assume_exec rfl]
      simp only [blockSem, execBlock, if_neg hbig, if_neg howner, if_pos hfull]
    · omega
  refine wp_last (r := ()) trivial ?_ h
  rw [Sem.assume_exec rfl]
  simp only [blockSem, execBlock, if_neg hbig, if_neg howner, if_neg hfull]
  rfl

theorem runs_brelse {Q : Unit → BState → Prop}
    (h : Q () { st with held := st.held.erase s }) : Runs p E Q (brelse s) st :=
  wp_last trivial rfl h

theorem runs_getExtent {Q : Extent → BState → Prop} {ip : ℕ} (h : Q (st.extent ip) st) :
    Runs p E Q (getExtent ip) st :=
  wp_last trivial rfl h

theorem runs_setExtent {Q : Unit → BState → Prop} {ip : ℕ} {e : Extent}
    (h : Q () { st with extent := Function.update st.extent ip e }) :
    Runs p E Q (setExtent ip e) st :=
  wp_last trivial rfl h

theorem runs_getInode {Q : Inode → BState → Prop} {ip : ℕ} (h : Q (st.core.inode ip) st) :
    Runs p E Q (onCore (.getInode ip)) st :=
  wp_last trivial rfl h

theorem runs_assign {Q : Unit → BState → Prop} {ip : ℕ} {a : Assign}
    (h : Q () { st with core := st.core.setInode ip ((st.core.inode ip).assign a) }) :
    Runs p E Q (onCore (.assign ip a)) st :=
  wp_last trivial rfl h

theorem runs_panic {q : Panic} (h : E (.stop (.panic q))) :
    Runs p E Q (abort (.left (.panic q))) st :=
  wp_abort trivial rfl h

end Qwin.Fs
