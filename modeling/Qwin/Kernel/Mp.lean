import Mathlib.Logic.Relation
import Qwin.Kernel.Param

/-!
# The scan of the MP configuration table

`mp.c`. The memory is a function of the physical address; `p2v` only shifts it, and the
pointers do not wrap. The loop of `mpinit` is a step on the pointer `p` and the variables
that it sets, so that a run of the loop may also be one that does not end.

A write to `cpus[ncpu]` with `ncpu = NCPU` lies behind the array. What it overwrites is not
modelled: the loop goes on with what it has.
-/

namespace Qwin.Mp

abbrev NCPU : ℕ := 8

abbrev Mem := ℕ → UInt8

/-- The `w` bytes at `a`, as a little-endian number. -/
def word (mem : Mem) (a w : ℕ) : ℕ :=
  ((List.range w).map fun i => (mem (a + i)).toNat * 256 ^ i).sum

def sum (mem : Mem) (addr len : ℕ) : UInt8 :=
  (List.range len).foldl (fun s i => s + mem (addr + i)) 0

def signature (mem : Mem) (p : ℕ) (sig : List UInt8) : Bool :=
  (List.range 4).map (fun i => mem (p + i)) = sig

abbrev mpSize : ℕ := 16

abbrev mpconfSize : ℕ := 44

abbrev mpprocSize : ℕ := 20

abbrev mpioapicSize : ℕ := 8

def mpSignature : List UInt8 := [0x5F, 0x4D, 0x50, 0x5F]

def confSignature : List UInt8 := [0x50, 0x43, 0x4D, 0x50]

def mpsearch1 (mem : Mem) (a len : ℕ) : Option ℕ :=
  ((List.range (len / mpSize)).map (a + mpSize * ·)).find? fun p =>
    signature mem p mpSignature && sum mem p mpSize = 0

def mpsearch (mem : Mem) : Option ℕ :=
  let ebda := word mem 0x40E 2 * 16
  let p := word mem 0x413 2 * 1024
  (if ebda ≠ 0 then mpsearch1 mem ebda 1024
    else mpsearch1 mem ((p + (2 ^ 32 - 1024)) % 2 ^ 32) 1024).orElse
  fun _ => mpsearch1 mem 0xF0000 0x10000

def physaddr (mem : Mem) (mp : ℕ) : ℕ := word mem (mp + 4) 4

def imcrp (mem : Mem) (mp : ℕ) : UInt8 := mem (mp + 12)

def confLength (mem : Mem) (conf : ℕ) : ℕ := word mem (conf + 4) 2

def version (mem : Mem) (conf : ℕ) : UInt8 := mem (conf + 6)

def lapicaddr (mem : Mem) (conf : ℕ) : ℕ := word mem (conf + 36) 4

/-- `mpconfig`: the floating pointer and the table -/
def mpconfig (mem : Mem) : Option (ℕ × ℕ) :=
  match mpsearch mem with
  | none => none
  | some mp =>
    let conf := physaddr mem mp
    if conf = 0 then none
    else if ¬ signature mem conf confSignature then none
    else if version mem conf ≠ 1 ∧ version mem conf ≠ 4 then none
    else if sum mem conf (confLength mem conf) ≠ 0 then none
    else some (mp, conf)

structure Cpu where
  id : UInt8
  apicid : UInt8

/-- The variables that `mpinit` sets; `imcr` tells if the IMCR is selected. -/
structure Globals where
  bcpu : ℕ
  cpus : ℕ → Cpu
  ismp : Bool
  ncpu : ℕ
  ioapicid : UInt8
  lapic : ℕ
  imcr : Bool

def Globals.start : Globals := ⟨0, fun _ => ⟨0, 0⟩, false, 0, 0, 0, false⟩

abbrev MPPROC : UInt8 := 0x00
abbrev MPBUS : UInt8 := 0x01
abbrev MPIOAPIC : UInt8 := 0x02
abbrev MPIOINTR : UInt8 := 0x03
abbrev MPLINTR : UInt8 := 0x04
abbrev MPBOOT : UInt8 := 0x02

structure Loop where
  p : ℕ
  g : Globals

/-- `case MPPROC` -/
def Globals.addProc (g : Globals) (apicid flags : UInt8) : Globals :=
  { g with
    bcpu := if flags &&& MPBOOT ≠ 0 then g.ncpu else g.bcpu
    cpus := Function.update g.cpus g.ncpu ⟨UInt8.ofNat g.ncpu, apicid⟩
    ncpu := g.ncpu + 1 }

/-- One turn of the loop: the `switch` over the entry at `p` -/
def Loop.turn (mem : Mem) (l : Loop) : Loop :=
  if mem l.p = MPPROC then
    ⟨l.p + mpprocSize, l.g.addProc (mem (l.p + 1)) (mem (l.p + 3))⟩
  else if mem l.p = MPIOAPIC then
    ⟨l.p + mpioapicSize, { l.g with ioapicid := mem (l.p + 1) }⟩
  else if mem l.p = MPBUS ∨ mem l.p = MPIOINTR ∨ mem l.p = MPLINTR then ⟨l.p + 8, l.g⟩
  else ⟨l.p, { l.g with ismp := false }⟩

/-- The loop, with its condition. -/
def Loop.next (mem : Mem) (e : ℕ) (l : Loop) : Option Loop :=
  if l.p < e then some (l.turn mem) else none

/-- What `mpinit` does behind the loop. -/
def Globals.finish (mem : Mem) (mp : ℕ) (g : Globals) : Globals :=
  if g.ismp then { g with imcr := decide (imcrp mem mp ≠ 0) }
  else { g with ncpu := 1, lapic := 0, ioapicid := 0 }

def Loop.start (mem : Mem) (conf : ℕ) : Loop :=
  ⟨conf + mpconfSize, { Globals.start with ismp := true, lapic := lapicaddr mem conf }⟩

def confEnd (mem : Mem) (conf : ℕ) : ℕ := conf + confLength mem conf

def scan (mem : Mem) (e : ℕ) : ℕ → Loop → Option Globals
  | 0, _ => none
  | fuel + 1, l =>
    match l.next mem e with
    | none => some l.g
    | some l => scan mem e fuel l

/-- `mpinit`, if the loop ends within so many turns -/
def mpinit (mem : Mem) (fuel : ℕ) : Option Globals :=
  match mpconfig mem with
  | none => some Globals.start
  | some (mp, conf) =>
    (scan mem (confEnd mem conf) fuel (Loop.start mem conf)).map (Globals.finish mem mp)

/-! ## The entries of a table -/

/-- The length of an entry of a known type. -/
def stride (type : UInt8) : Option ℕ :=
  if type = MPPROC then some mpprocSize
  else if type = MPIOAPIC then some mpioapicSize
  else if type = MPBUS ∨ type = MPIOINTR ∨ type = MPLINTR then some 8
  else none

theorem stride_pos {type : UInt8} {d : ℕ} (h : stride type = some d) : 0 < d := by
  unfold stride at h
  split_ifs at h <;> cases h <;> decide

/-- The entries from `p` on, up to the first one of an unknown type. -/
def entries (mem : Mem) (e p : ℕ) : List ℕ :=
  if p < e then
    p :: match _h : stride (mem p) with
      | some d => entries mem e (p + d)
      | none => []
  else []
termination_by e - p
decreasing_by
  have := stride_pos ‹_›
  omega

def processors (mem : Mem) (e p : ℕ) : ℕ := (entries mem e p).countP (mem · = MPPROC)

def Known (mem : Mem) (e p : ℕ) : Prop := ∀ q ∈ entries mem e p, (stride (mem q)).isSome

section

variable {mem : Mem} {e p : ℕ} {l l' l₀ : Loop}

theorem entries_end (h : ¬ p < e) : entries mem e p = [] := by rw [entries, if_neg h]

theorem entries_some {d : ℕ} (hp : p < e) (hd : stride (mem p) = some d) :
    entries mem e p = p :: entries mem e (p + d) := by
  rw [entries, if_pos hp]
  split
  · rename_i d' hd'
    rw [hd, Option.some.injEq] at hd'
    rw [hd']
  · rename_i hnone
    rw [hd] at hnone
    cases hnone

theorem entries_none (hp : p < e) (hd : stride (mem p) = none) : entries mem e p = [p] := by
  rw [entries, if_pos hp]
  split
  · rename_i d' hd'
    rw [hd] at hd'
    cases hd'
  · rfl

/-- The loop can go from `l` to `l'`. -/
def Loop.Runs (mem : Mem) (e : ℕ) : Loop → Loop → Prop :=
  Relation.ReflTransGen fun l l' => l.next mem e = some l'

theorem Loop.turn_of_some {d : ℕ} (hd : stride (mem l.p) = some d) :
    (l.turn mem).p = l.p + d ∧ (l.turn mem).g.ismp = l.g.ismp ∧
      (l.turn mem).g.ncpu = l.g.ncpu + if mem l.p = MPPROC then 1 else 0 := by
  unfold stride at hd
  unfold turn
  split_ifs at hd ⊢ <;> cases hd <;> exact ⟨rfl, rfl, rfl⟩

theorem Loop.turn_of_none (hd : stride (mem l.p) = none) :
    (l.turn mem).p = l.p ∧ (l.turn mem).g.ncpu = l.g.ncpu := by
  unfold stride at hd
  unfold turn
  split_ifs at hd ⊢
  exact ⟨rfl, rfl⟩

theorem processors_turn (hp : l.p < e) :
    (l.turn mem).g.ncpu + processors mem e (l.turn mem).p = l.g.ncpu + processors mem e l.p := by
  cases hd : stride (mem l.p) with
  | none =>
    obtain ⟨hstay, hncpu⟩ := Loop.turn_of_none hd
    rw [hstay, hncpu]
  | some d =>
    obtain ⟨hmove, -, hncpu⟩ := Loop.turn_of_some hd
    rw [hmove, hncpu, processors, processors, entries_some hp hd, List.countP_cons]
    simp only [decide_eq_true_eq]
    omega

theorem known_end (h : ¬ p < e) : Known mem e p := by
  rw [Known, entries_end h]
  exact fun q hq => absurd hq List.not_mem_nil

theorem known_turn (hp : l.p < e) : Known mem e (l.turn mem).p ↔ Known mem e l.p := by
  cases hd : stride (mem l.p) with
  | none => rw [(Loop.turn_of_none hd).1]
  | some d =>
    rw [(Loop.turn_of_some hd).1, Known, Known, entries_some hp hd, List.forall_mem_cons, hd]
    simp

theorem stride_of_known (hp : p < e) (h : Known mem e p) : ∃ d, stride (mem p) = some d := by
  cases hd : stride (mem p) with
  | some d => exact ⟨d, rfl⟩
  | none =>
    have := h p (by rw [entries_none hp hd]; exact List.mem_singleton_self p)
    rw [hd] at this
    cases this

theorem Loop.next_eq_some : l.next mem e = some l' ↔ l.p < e ∧ l' = l.turn mem := by
  unfold next
  split_ifs with hp
  · simp [hp, eq_comm]
  · simp [hp]

namespace Loop.Runs

variable (h : l₀.Runs mem e l)
include h

theorem processors_add : l.g.ncpu + processors mem e l.p = l₀.g.ncpu + processors mem e l₀.p := by
  induction h with
  | refl => rfl
  | tail _ hnext ih =>
    obtain ⟨hp, rfl⟩ := next_eq_some.1 hnext
    rw [processors_turn hp, ih]

theorem known_iff : Known mem e l.p ↔ Known mem e l₀.p := by
  induction h with
  | refl => rfl
  | tail _ hnext ih =>
    obtain ⟨hp, rfl⟩ := next_eq_some.1 hnext
    rw [known_turn hp, ih]

theorem ismp_eq (hknown : Known mem e l₀.p) : l.g.ismp = l₀.g.ismp := by
  induction h with
  | refl => rfl
  | tail hrun hnext ih =>
    obtain ⟨hp, rfl⟩ := next_eq_some.1 hnext
    obtain ⟨d, hd⟩ := stride_of_known hp ((known_iff hrun).2 hknown)
    rw [(turn_of_some hd).2.1, ih]

theorem le : l₀.p ≤ l.p := by
  induction h with
  | refl => rfl
  | @tail l _ _ hnext ih =>
    obtain ⟨hp, rfl⟩ := next_eq_some.1 hnext
    cases hd : stride (mem l.p) with
    | none => rwa [(turn_of_none hd).1]
    | some d =>
      rw [(turn_of_some hd).1]
      exact Nat.le_add_right_of_le ih

end Loop.Runs

theorem runs_of_scan {fuel : ℕ} {g : Globals} (h : scan mem e fuel l = some g) :
    ∃ l', l.Runs mem e l' ∧ ¬ l'.p < e ∧ l'.g = g := by
  induction fuel generalizing l with
  | zero => cases h
  | succ fuel ih =>
    rw [scan] at h
    cases hnext : l.next mem e with
    | none =>
      rw [hnext] at h
      refine ⟨l, .refl, fun hp => ?_, Option.some.inj h⟩
      rw [Loop.next, if_pos hp] at hnext
      cases hnext
    | some l₁ =>
      rw [hnext] at h
      obtain ⟨l', hrun, hend⟩ := ih h
      exact ⟨l', hrun.head hnext, hend⟩

theorem exists_scan (l : Loop) (h : Known mem e l.p) : ∃ fuel g, scan mem e fuel l = some g := by
  by_cases hp : l.p < e
  · obtain ⟨d, hd⟩ := stride_of_known hp h
    have hmove := (Loop.turn_of_some hd).1
    have hpos := stride_pos hd
    obtain ⟨fuel, g, hscan⟩ := exists_scan (l.turn mem) ((known_turn hp).2 h)
    exact ⟨fuel + 1, g, by rw [scan, Loop.next_eq_some.2 ⟨hp, rfl⟩]; exact hscan⟩
  · exact ⟨1, l.g, by rw [scan, Loop.next, if_neg hp]⟩
termination_by e - l.p
decreasing_by omega

end

/-- The table at `conf` is scanned as it should be. -/
structure Scanned (mem : Mem) (conf : ℕ) : Prop where
  ends : ∃ fuel g, mpinit mem fuel = some g ∧ g.ncpu ≤ NCPU ∧
    (¬ Known mem (confEnd mem conf) (conf + mpconfSize) →
      g.ncpu = 1 ∧ g.lapic = 0 ∧ g.ioapicid = 0)
  reads : ∀ l l', (Loop.start mem conf).Runs mem (confEnd mem conf) l →
    l.next mem (confEnd mem conf) = some l' → conf ≤ l.p ∧ l.p < conf + confLength mem conf
  writes : ∀ l l', (Loop.start mem conf).Runs mem (confEnd mem conf) l →
    l.next mem (confEnd mem conf) = some l' → mem l.p = MPPROC → l.g.ncpu < NCPU

section

variable {mem : Mem} {mp conf : ℕ}

theorem known_of_mpinit {fuel : ℕ} {g : Globals} (h : mpconfig mem = some (mp, conf))
    (hinit : mpinit mem fuel = some g) :
    Known mem (confEnd mem conf) (conf + mpconfSize) ∧
      g.ncpu = processors mem (confEnd mem conf) (conf + mpconfSize) := by
  rw [mpinit, h] at hinit
  obtain ⟨g', hscan, rfl⟩ := Option.map_eq_some_iff.1 hinit
  obtain ⟨l, hrun, hend, rfl⟩ := runs_of_scan hscan
  have hknown : Known mem (confEnd mem conf) (Loop.start mem conf).p :=
    hrun.known_iff.1 (known_end hend)
  have hcount := hrun.processors_add
  have hismp : l.g.ismp = true := hrun.ismp_eq hknown
  rw [processors, entries_end hend] at hcount
  refine ⟨hknown, ?_⟩
  rw [Globals.finish, if_pos hismp]
  simpa [Loop.start, Globals.start] using hcount

/-- The table is scanned as it should be exactly if every entry is of a known type and there
are at most `NCPU` processors. -/
theorem mp_scan_iff (mem : Mem) (mp conf : ℕ) (h : mpconfig mem = some (mp, conf)) :
    Scanned mem conf ↔ Known mem (confEnd mem conf) (conf + mpconfSize) ∧
      processors mem (confEnd mem conf) (conf + mpconfSize) ≤ NCPU := by
  constructor
  · rintro ⟨⟨fuel, g, hinit, hncpu, -⟩, -, -⟩
    obtain ⟨hknown, hcount⟩ := known_of_mpinit h hinit
    exact ⟨hknown, hcount ▸ hncpu⟩
  · rintro ⟨hknown, hle⟩
    obtain ⟨fuel, g, hscan⟩ : ∃ fuel g, scan mem (confEnd mem conf) fuel (Loop.start mem conf) = some g :=
      exists_scan _ hknown
    have hinit : mpinit mem fuel = some (g.finish mem mp) := by rw [mpinit, h]; simp [hscan]
    refine ⟨⟨fuel, _, hinit, ?_, fun hn => absurd hknown hn⟩, ?_, ?_⟩
    · rw [(known_of_mpinit h hinit).2]
      exact hle
    · intro l l' hrun hnext
      have hle : conf + mpconfSize ≤ l.p := hrun.le
      exact ⟨by omega, (Loop.next_eq_some.1 hnext).1⟩
    · intro l l' hrun hnext hproc
      obtain ⟨hp, -⟩ := Loop.next_eq_some.1 hnext
      have hcount := hrun.processors_add
      have hpos : 0 < processors mem (confEnd mem conf) l.p := by
        have hd : stride (mem l.p) = some mpprocSize := if_pos hproc
        rw [processors, entries_some hp hd, List.countP_cons_of_pos (by simpa using hproc)]
        exact Nat.succ_pos _
      simp only [Loop.start, Globals.start] at hcount
      omega

/-- A machine with the floating pointer at the start of the EBDA and the table behind it. -/
def machine (table : List UInt8) : Mem := fun a =>
  if a = 0x40E then 0xC0
  else if a = 0x40F then 0x9F
  else if 0x9FC10 ≤ a then table.getD (a - 0x9FC10) 0
  else if 0x9FC00 ≤ a then
    (mpSignature ++ [0x10, 0xFC, 0x09, 0, 1, 4, 139, 0, 0, 0, 0, 0]).getD (a - 0x9FC00) 0
  else 0

def header (length checksum : UInt8) : List UInt8 :=
  confSignature ++ [length, 0, 4, checksum] ++ List.replicate 36 0

/-- Two processors, a bus and an I/O APIC. -/
def twoProcessors : Mem :=
  machine (header 100 102 ++ ([0, 0, 0x14, 3] ++ List.replicate 16 0) ++
    ([0, 1, 0x14, 1] ++ List.replicate 16 0) ++ (1 :: List.replicate 7 0) ++
    [2, 2, 0x11, 1, 0, 0, 0xC0, 0xFE])

theorem mp_scan_two_processors : mpconfig twoProcessors = some (0x9FC00, 0x9FC10) ∧
    Scanned twoProcessors 0x9FC10 := by
  have hconf : mpconfig twoProcessors = some (0x9FC00, 0x9FC10) := by decide +kernel
  refine ⟨hconf, (mp_scan_iff _ _ _ hconf).2 ?_⟩
  have hend : confEnd twoProcessors 0x9FC10 = 0x9FC74 := by decide +kernel
  have hentries : entries twoProcessors 0x9FC74 (0x9FC10 + mpconfSize) =
      [0x9FC3C, 0x9FC50, 0x9FC64, 0x9FC6C] := by
    rw [entries_some (d := mpprocSize) (by decide) (by decide +kernel),
      entries_some (d := mpprocSize) (by decide) (by decide +kernel),
      entries_some (d := 8) (by decide) (by decide +kernel),
      entries_some (d := 8) (by decide) (by decide +kernel), entries_end (by decide)]
    rfl
  rw [Known, processors, hend, hentries]
  decide +kernel

def unknownEntry : Mem := machine (header 45 154 ++ [5])

/-- The scan of a table with an entry of an unknown type does not end. -/
theorem mpinit_hangs : mpconfig unknownEntry = some (0x9FC00, 0x9FC10) ∧
    (∀ fuel, mpinit unknownEntry fuel = none) ∧ ¬ Scanned unknownEntry 0x9FC10 := by
  have hconf : mpconfig unknownEntry = some (0x9FC00, 0x9FC10) := by decide +kernel
  have hunknown : ¬ Known unknownEntry (confEnd unknownEntry 0x9FC10) (0x9FC10 + mpconfSize) := by
    have hend : confEnd unknownEntry 0x9FC10 = 0x9FC3D := by decide +kernel
    rw [Known, hend, entries_none (by decide) (by decide +kernel)]
    decide +kernel
  have hnone : ∀ fuel, mpinit unknownEntry fuel = none := by
    intro fuel
    cases hinit : mpinit unknownEntry fuel with
    | none => rfl
    | some g => exact absurd (known_of_mpinit hconf hinit).1 hunknown
  refine ⟨hconf, hnone, fun h => ?_⟩
  obtain ⟨fuel, g, hinit, -⟩ := h.ends
  rw [hnone fuel] at hinit
  cases hinit

end

end Qwin.Mp
