import Qwin.Kernel.Param
import Qwin.Lib.Prog

/-!
# Page directories

`vm.c` and the page allocator `kalloc.c`. Physical memory is a function from frame numbers
to pages, and the free list is a list of frames. A page directory is a value: a frame, and
for every entry that is present the page table with the frame it lies in. So the tables of
two directories, and tables and user pages, are different things by construction.

`kalloc` fails when the free list is empty, and at the calls that `Env.fails` names: pages
may be taken by others. `uva2ka` follows the null pointer that `walkpgdir` may return;
`Env.null` is the word it finds there, which belongs to the running process.
-/

namespace Qwin.Vm

open Prog
open Function (update)

abbrev EXTMEM : ℕ := 0x100000
abbrev PHYSTOP : ℕ := 0xE000000
abbrev DEVSPACE : ℕ := 0xFE000000
abbrev KERNLINK : ℕ := KERNBASE + EXTMEM
abbrev NPDENTRIES : ℕ := 1024
abbrev NPTENTRIES : ℕ := 1024

abbrev PTE_P : BitVec 12 := 0x001#12
abbrev PTE_W : BitVec 12 := 0x002#12
abbrev PTE_U : BitVec 12 := 0x004#12

abbrev Page := Bytes 4096

/-- A page table entry: the number of the frame and the flag bits. -/
structure Pte where
  frame : ℕ
  flags : BitVec 12
  deriving DecidableEq

def Pte.zero : Pte := ⟨0, 0⟩

def Pte.present (e : Pte) : Bool := e.flags.getLsbD 0

def Pte.user (e : Pte) : Bool := e.flags.getLsbD 2

def Pte.mk' (pa : ℕ) (perm : BitVec 12) : Pte :=
  ⟨pa / PGSIZE, BitVec.ofNat 12 pa ||| perm ||| PTE_P⟩

structure Table where
  frame : ℕ
  pte : ℕ → Pte

/-- A page directory. An entry that is present has a page table. -/
structure PageDir where
  frame : ℕ
  table : ℕ → Option Table

def PDX (va : ℕ) : ℕ := va / 2 ^ 22 % 1024
def PTX (va : ℕ) : ℕ := va / 2 ^ 12 % 1024

def pgRoundDown (a : ℕ) : ℕ := a / PGSIZE * PGSIZE

namespace PageDir

/-- The entry of a page, zero where there is no page table. -/
def pte (pgdir : PageDir) (va : ℕ) : Pte := (pgdir.table (PDX va)).elim Pte.zero (·.pte (PTX va))

/-- Store the entry of a page that has a page table. -/
def setPte (pgdir : PageDir) (va : ℕ) (e : Pte) : PageDir :=
  { pgdir with
    table := update pgdir.table (PDX va) ((pgdir.table (PDX va)).map fun t =>
      { t with pte := update t.pte (PTX va) e }) }

def addTable (pgdir : PageDir) (i f : ℕ) : PageDir :=
  { pgdir with table := update pgdir.table i (some ⟨f, fun _ => Pte.zero⟩) }

end PageDir

/-! ## The allocator -/

structure Layout where
  -- `data` and `end`
  data : ℕ
  kend : ℕ
  data_aligned : data % PGSIZE = 0
  lt_data : KERNLINK < data
  data_le : data ≤ kend
  kend_le : kend ≤ KERNBASE + PHYSTOP
  data_lt : data < KERNBASE + PHYSTOP

structure Env where
  fails : ℕ → Bool
  null : Pte

structure Mem where
  page : ℕ → Page
  freelist : List ℕ
  -- the number of calls of `kalloc`
  calls : ℕ

inductive Act : Type → Type
  | kalloc : Act (Option ℕ)
  | kfree (f : ℕ) : Act Unit
  -- the contents of a physical page
  | load (f : ℕ) : Act Page
  | store (f : ℕ) (p : Page) : Act Unit
  -- `*pte` for a null pointer
  | null : Act Pte
  | panic (p : Panic) : Act Empty

/-- The frames that `kfree` takes. -/
def Layout.Frame (L : Layout) (f : ℕ) : Prop := L.kend ≤ KERNBASE + f * PGSIZE ∧ f * PGSIZE < PHYSTOP

instance (L : Layout) (f : ℕ) : Decidable (L.Frame f) := instDecidableAnd

def junk : Page := fun _ => 1

def exec (L : Layout) (env : Env) {β : Type} (a : Act β) (s : Mem) : Except Stop (β × Mem) :=
  match a with
  | .kalloc =>
    match s.freelist with
    | [] => .ok (none, { s with calls := s.calls + 1 })
    | f :: l =>
      if env.fails s.calls then .ok (none, { s with calls := s.calls + 1 })
      else .ok (some f, { s with freelist := l, calls := s.calls + 1 })
  | .kfree f =>
    if L.Frame f then
      .ok ((), { s with page := update s.page f junk, freelist := f :: s.freelist })
    else .error (.panic .kfree)
  | .load f => .ok (s.page f, s)
  | .store f p => .ok ((), { s with page := update s.page f p })
  | .null => .ok (env.null, s)
  | .panic p => .error (.panic p)

def sem (L : Layout) (env : Env) : Sem Act Mem Stop where
  exec := exec L env

abbrev VProg (α : Type) := Prog Act α

def kalloc : VProg (Option ℕ) := perform .kalloc
def kfree (f : ℕ) : VProg Unit := perform (.kfree f)

def clear (f : ℕ) : VProg Unit := perform (.store f (Bytes.zero 4096))

def panic {α : Type} (p : Panic) : VProg α := abort (.panic p)

/-! ## Mapping pages -/

/-- `walkpgdir`: the directory in which the page has an entry. -/
def walkpgdir (pgdir : PageDir) (va : ℕ) (alloc : Bool) : VProg (Option PageDir) :=
  match pgdir.table (PDX va) with
  | some _ => pure (some pgdir)
  | none =>
    if alloc then do
      match ← kalloc with
      | none => pure none
      | some f => do
          clear f
          pure (some (pgdir.addTable (PDX va) f))
    else pure none

def mapPage (perm : BitVec 12) (pgdir : PageDir) (a pa : ℕ) : VProg (Option PageDir) := do
  match ← walkpgdir pgdir a true with
  | none => pure none
  | some pgdir =>
    if (pgdir.pte a).present then panic .remap
    else pure (some (pgdir.setPte a (.mk' pa perm)))

/-- The loop of `mappages`, with the number of pages after this one: whether all were
mapped. -/
def mapLoop (perm : BitVec 12) : ℕ → PageDir → ℕ → ℕ → VProg (Bool × PageDir)
  | 0, pgdir, a, pa => do
      match ← mapPage perm pgdir a pa with
      | none => pure (false, pgdir)
      | some pgdir => pure (true, pgdir)
  | n + 1, pgdir, a, pa => do
      match ← mapPage perm pgdir a pa with
      | none => pure (false, pgdir)
      | some pgdir => mapLoop perm n pgdir ((a + PGSIZE) % 2 ^ 32) ((pa + PGSIZE) % 2 ^ 32)

def mappages (pgdir : PageDir) (va size pa : ℕ) (perm : BitVec 12) : VProg (Bool × PageDir) :=
  let a := pgRoundDown va
  let last := pgRoundDown ((va + size + 2 ^ 32 - 1) % 2 ^ 32)
  mapLoop perm ((last + 2 ^ 32 - a) % 2 ^ 32 / PGSIZE) pgdir a pa

/-- The loop of `mappages` as it is written, for at most `fuel` passes. It ends at the page whose
address is `last`. -/
def mapUntil (perm : BitVec 12) (last : ℕ) : ℕ → PageDir → ℕ → ℕ → VProg (Option (Bool × PageDir))
  | 0, _, _, _ => pure none
  | fuel + 1, pgdir, a, pa => do
      match ← mapPage perm pgdir a pa with
      | none => pure (some (false, pgdir))
      | some pgdir =>
        if a = last then pure (some (true, pgdir))
        else mapUntil perm last fuel pgdir ((a + PGSIZE) % 2 ^ 32) ((pa + PGSIZE) % 2 ^ 32)

theorem mapUntil_eq_mapLoop {perm : BitVec 12} {pgdir : PageDir} {j k n fuel : ℕ} (pa : ℕ)
    (hj : j < 2 ^ 20) (hk : k < 2 ^ 20) (hn : (k + 2 ^ 20 - j) % 2 ^ 20 = n) (hfuel : n < fuel) :
    mapUntil perm (k * PGSIZE) fuel pgdir (j * PGSIZE) pa =
      some <$> mapLoop perm n pgdir (j * PGSIZE) pa := by
  induction n generalizing fuel pgdir j pa with
  | zero =>
    obtain ⟨fuel, rfl⟩ := Nat.exists_eq_succ_of_ne_zero (Nat.ne_zero_of_lt hfuel)
    rw [mapUntil, mapLoop]
    refine (bind_congr fun r => ?_).trans (bind_assoc' _ _ _).symm
    cases r with
    | none => rfl
    | some d => exact if_pos (congrArg (· * PGSIZE) (by omega))
  | succ n ih =>
    obtain ⟨fuel, rfl⟩ := Nat.exists_eq_succ_of_ne_zero (Nat.ne_zero_of_lt hfuel)
    rw [mapUntil, mapLoop]
    refine (bind_congr fun r => ?_).trans (bind_assoc' _ _ _).symm
    cases r with
    | none => rfl
    | some d =>
      have hne : j * PGSIZE ≠ k * PGSIZE := by
        change j * 4096 ≠ k * 4096
        omega
      -- the address of the next page, which is the first one behind the last
      have hnext : (j * PGSIZE + PGSIZE) % 2 ^ 32 = (j + 1) % 2 ^ 20 * PGSIZE := by
        change (j * 4096 + 4096) % 2 ^ 32 = (j + 1) % 2 ^ 20 * 4096
        omega
      dsimp only
      rw [if_neg hne, hnext]
      exact ih _ (by omega) (by omega) (by omega)

/-- The written loop comes to an end, also where the addresses wrap around, and is `mappages`. -/
theorem mapUntil_eq_mappages {perm : BitVec 12} {pgdir : PageDir} {va size pa fuel : ℕ}
    (hva : va < 2 ^ 32) (hfuel : 2 ^ 20 ≤ fuel) :
    mapUntil perm (pgRoundDown ((va + size + 2 ^ 32 - 1) % 2 ^ 32)) fuel pgdir (pgRoundDown va) pa =
      some <$> mappages pgdir va size pa perm := by
  have hpage : ∀ a < 2 ^ 32, a / PGSIZE < 2 ^ 20 := fun a ha => Nat.div_lt_of_lt_mul ha
  have hfirst := hpage va hva
  have hlast := hpage _ (Nat.mod_lt (va + size + 2 ^ 32 - 1) (by decide))
  unfold mappages pgRoundDown
  generalize va / PGSIZE = j at hfirst ⊢
  generalize (va + size + 2 ^ 32 - 1) % 2 ^ 32 / PGSIZE = k at hlast ⊢
  refine mapUntil_eq_mapLoop pa hfirst hlast ?_ ?_
  · change (k + 2 ^ 20 - j) % 2 ^ 20 = (k * 4096 + 2 ^ 32 - j * 4096) % 2 ^ 32 / 4096
    omega
  · change (k * 4096 + 2 ^ 32 - j * 4096) % 2 ^ 32 / 4096 < fuel
    omega

structure Kmap where
  virt : ℕ
  physStart : ℕ
  physEnd : ℕ
  perm : BitVec 12

def kmap (L : Layout) : List Kmap :=
  [⟨KERNBASE, 0, EXTMEM, PTE_W⟩, ⟨KERNLINK, KERNLINK - KERNBASE, L.data - KERNBASE, 0⟩,
    ⟨L.data, L.data - KERNBASE, PHYSTOP, PTE_W⟩, ⟨DEVSPACE, DEVSPACE, 0, PTE_W⟩]

def mapKernel : List Kmap → PageDir → VProg (Option PageDir)
  | [], pgdir => pure (some pgdir)
  | k :: ks, pgdir => do
      let (ok, pgdir) ← mappages pgdir k.virt ((k.physEnd + 2 ^ 32 - k.physStart) % 2 ^ 32)
        k.physStart k.perm
      if ok then mapKernel ks pgdir else pure none

def setupkvm (L : Layout) : VProg (Option PageDir) := do
  match ← kalloc with
  | none => pure none
  | some f => do
      clear f
      mapKernel (kmap L) ⟨f, fun _ => none⟩

/-! ## User memory -/

def deallocLoop (oldsz : ℕ) : ℕ → PageDir → ℕ → VProg PageDir
  | 0, pgdir, _ => pure pgdir
  | fuel + 1, pgdir, a =>
    if a < oldsz then do
      match ← walkpgdir pgdir a false with
      | none => deallocLoop oldsz fuel pgdir ((a + (NPTENTRIES - 1) * PGSIZE + PGSIZE) % 2 ^ 32)
      | some pgdir =>
        if (pgdir.pte a).present then
          if (pgdir.pte a).frame = 0 then panic .kfree
          else do
            kfree (pgdir.pte a).frame
            deallocLoop oldsz fuel (pgdir.setPte a .zero) ((a + PGSIZE) % 2 ^ 32)
        else deallocLoop oldsz fuel pgdir ((a + PGSIZE) % 2 ^ 32)
    else pure pgdir

/-- `deallocuvm`. Every pass of the loop goes on by at least a page. -/
def deallocuvm (pgdir : PageDir) (oldsz newsz : ℕ) : VProg (ℕ × PageDir) :=
  if oldsz ≤ newsz then pure (oldsz, pgdir)
  else do
    let pgdir ← deallocLoop oldsz (oldsz / PGSIZE + 1) pgdir (pgRoundUp newsz)
    pure (newsz, pgdir)

def allocLoop (oldsz newsz : ℕ) : ℕ → PageDir → ℕ → VProg (ℕ × PageDir)
  | 0, pgdir, _ => pure (newsz, pgdir)
  | fuel + 1, pgdir, a =>
    if a < newsz then do
      match ← kalloc with
      | none => do
          let (_, pgdir) ← deallocuvm pgdir newsz oldsz
          pure (0, pgdir)
      | some mem => do
          clear mem
          -- the result of `mappages` is not looked at
          let (_, pgdir) ← mappages pgdir a PGSIZE (mem * PGSIZE) (PTE_W ||| PTE_U)
          allocLoop oldsz newsz fuel pgdir (a + PGSIZE)
    else pure (newsz, pgdir)

/-- `allocuvm`. Every pass of the loop goes on by a page. -/
def allocuvm (pgdir : PageDir) (oldsz newsz : ℕ) : VProg (ℕ × PageDir) :=
  if KERNBASE ≤ newsz then pure (0, pgdir)
  else if newsz < oldsz then pure (oldsz, pgdir)
  else allocLoop oldsz newsz (newsz / PGSIZE + 1) pgdir (pgRoundUp oldsz)

/-- The loop of `freevm` over the entries of the directory, with the number that are
left. -/
def freeTables (pgdir : PageDir) : ℕ → VProg Unit
  | 0 => pure ()
  | n + 1 => do
      match pgdir.table (NPDENTRIES - (n + 1)) with
      | none => pure ()
      | some t => kfree t.frame
      freeTables pgdir n

def freevm (pgdir : PageDir) : VProg Unit := do
  let (_, pgdir) ← deallocuvm pgdir KERNBASE 0
  freeTables pgdir NPDENTRIES
  kfree pgdir.frame

def clearpteu (pgdir : PageDir) (uva : ℕ) : VProg PageDir := do
  match ← walkpgdir pgdir uva false with
  | none => panic .clearpteu
  | some pgdir =>
    pure (pgdir.setPte uva ⟨(pgdir.pte uva).frame, (pgdir.pte uva).flags &&& ~~~ PTE_U⟩)

def copyLoop (pgdir : PageDir) (sz : ℕ) : ℕ → PageDir → ℕ → VProg (Option PageDir)
  | 0, d, _ => pure (some d)
  | fuel + 1, d, i =>
    if i < sz then do
      match ← walkpgdir pgdir i false with
      | none => panic .copyuvmPte
      | some pgdir =>
        if (pgdir.pte i).present then do
          match ← kalloc with
          | none => do
              freevm d
              pure none
          | some mem => do
              let p ← perform (.load (pgdir.pte i).frame)
              perform (.store mem p)
              let (ok, d) ← mappages d i PGSIZE (mem * PGSIZE) (pgdir.pte i).flags
              if ok then copyLoop pgdir sz fuel d ((i + PGSIZE) % 2 ^ 32)
              else do
                freevm d
                pure none
        else panic .copyuvmPresent
    else pure (some d)

/-- `copyuvm`. Every pass of the loop goes on by a page. -/
def copyuvm (L : Layout) (pgdir : PageDir) (sz : ℕ) : VProg (Option PageDir) := do
  match ← setupkvm L with
  | none => pure none
  | some d => copyLoop pgdir sz (sz / PGSIZE + 1) d 0

/-- `uva2ka`: the frame of a page that the user may access. -/
def uva2ka (pgdir : PageDir) (uva : ℕ) : VProg (Option ℕ) := do
  let pte ← match ← walkpgdir pgdir uva false with
    | none => perform .null
    | some pgdir => pure (pgdir.pte uva)
  if pte.present && pte.user then pure (some pte.frame) else pure none

def copyoutLoop (pgdir : PageDir) : ℕ → ℕ → List UInt8 → VProg Bool
  | 0, _, _ => pure true
  | fuel + 1, va, buf =>
    if buf = [] then pure true
    else do
      let va0 := pgRoundDown va
      match ← uva2ka pgdir va0 with
      | none => pure false
      | some f => do
          let n := min (PGSIZE - (va - va0)) buf.length
          let p ← perform (.load f)
          perform (.store f (p.put (va - va0) (buf.take n)))
          copyoutLoop pgdir fuel ((va0 + PGSIZE) % 2 ^ 32) (buf.drop n)

/-- `copyout`. Every pass of the loop takes at least one byte. -/
def copyout (pgdir : PageDir) (va : ℕ) (buf : List UInt8) : VProg Bool :=
  copyoutLoop pgdir buf.length va buf

/-! ## The size of a process -/

/-- `growproc`, for the size and the page directory of the process: the return value, and
the two afterwards. -/
def growproc (pgdir : PageDir) (sz : ℕ) (n : ℤ) : VProg (ℤ × ℕ × PageDir) :=
  let newsz := ((sz + n) % 2 ^ 32).toNat
  if 0 < n then do
    let (sz', pgdir) ← allocuvm pgdir sz newsz
    if sz' = 0 then pure (-1, sz, pgdir) else pure (0, sz', pgdir)
  else if n < 0 then do
    let (sz', pgdir) ← deallocuvm pgdir sz newsz
    if sz' = 0 then pure (-1, sz, pgdir) else pure (0, sz', pgdir)
  else pure (0, sz, pgdir)

end Qwin.Vm
