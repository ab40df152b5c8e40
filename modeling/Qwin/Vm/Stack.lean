import Qwin.Vm.Args

/-!
# The stack of the new image

What `exec` does after the segments are loaded, from the two pages it asks for to the end.
-/

namespace Qwin.Vm

open Prog Fs Sys List

theorem present_clear (e : Pte) : (Pte.mk e.frame (e.flags &&& ~~~ PTE_U)).present = e.present := by
  have h0 : PTE_U[0] = false := rfl
  simp [Pte.present, h0]

theorem user_clear (e : Pte) : (Pte.mk e.frame (e.flags &&& ~~~ PTE_U)).user = false := by
  have h2 : PTE_U[2] = true := rfl
  simp [Pte.user, h2]

section Frames

variable {L : Layout} {s t : Mem} {pgdir pgdir' : PageDir} {n j N : ℕ} {l : List ℕ}

theorem Filled.freeFrames (h : Filled pgdir n j s l pgdir' t) (hsound : Sound L s)
    (habs : ∀ m, n ≤ m → m < KPAGE → (pgdir.entry m).present = false)
    (hframes : FreeFrames L pgdir) : FreeFrames L pgdir' := by
  intro a f ha
  cases a with
  | dir =>
    refine hframes .dir f ?_
    rw [PageDir.frameAt, ← h.keeps.frame]
    exact ha
  | table r =>
    obtain ⟨x', hx', rfl⟩ := Option.map_eq_some_iff.1 ha
    rcases h.keeps.new r x' hx' with ⟨x, hx, hf⟩ | hl
    · refine hframes (.table r) _ ?_
      rw [PageDir.frameAt, hx, hf]
      rfl
    · exact hsound.frame _ (h.mem_freelist hl)
  | page m =>
    obtain ⟨⟨hK, hp⟩, hf⟩ := Option.ite_none_right_eq_some.1 ha
    obtain rfl := Option.some_inj.1 hf
    rcases Nat.lt_or_ge m n with hlt | hge
    · refine hframes (.page m) _ ?_
      rw [h.old m (Or.inl hlt)] at hp ⊢
      exact if_pos ⟨hK, hp⟩
    · exact hsound.frame _ (h.mem_freelist (h.frame_mem habs hge hK hp).2)

/-- The frames that a directory has after pages were dropped, it had before. -/
theorem Dropped.freeFrames (h : Dropped pgdir n N s pgdir' t) (hframes : FreeFrames L pgdir) :
    FreeFrames L pgdir' := by
  intro a f ha
  refine hframes a f ?_
  cases a with
  | dir => rw [PageDir.frameAt, ← h.frame]; exact ha
  | table r => rw [PageDir.frameAt, ← h.table r]; exact ha
  | page m =>
    obtain ⟨⟨hK, hp⟩, hf⟩ := Option.ite_none_right_eq_some.1 ha
    rw [h.entry m] at hp hf
    split at hp
    · cases hp
    next hd =>
      rw [if_neg hd] at hf
      rw [← hf]
      exact if_pos ⟨hK, hp⟩

theorem Undone.freeFrames (h : Undone pgdir n N s pgdir' t) (hsound : Sound L s)
    (habs : ∀ m, n ≤ m → m < KPAGE → (pgdir.entry m).present = false)
    (hframes : FreeFrames L pgdir) : FreeFrames L pgdir' := by
  obtain ⟨j, l, pgdir1, t1, -, hfill, hdrop⟩ := h
  exact hdrop.freeFrames (hfill.freeFrames hsound habs hframes)

/-- Taking the user's access from a page changes no frame. -/
theorem FreeFrames.withoutUser (h : FreeFrames L pgdir) (hj : j < 2 ^ 20) {x : Table}
    (hx : pgdir.table (j / NPTENTRIES) = some x) : FreeFrames L (pgdir.withoutUser j) := by
  intro a f ha
  refine h a f ?_
  rw [← ha]
  cases a with
  | dir => rfl
  | table r =>
    rw [PageDir.frameAt, PageDir.frameAt, PageDir.withoutUser, PageDir.table_setPte hj,
      Option.map_map]
    refine congrFun (congrArg _ (funext fun y => ?_)) _
    dsimp only [Function.comp]
    split <;> rfl
  | page m =>
    rw [PageDir.frameAt, PageDir.frameAt, PageDir.withoutUser, PageDir.entry_setPte hj hx]
    by_cases hm : m = j
    · simp [hm, present_clear]
    · simp [hm]

end Frames

/-! ## The two pages -/

/-- A directory that `exec` has loaded an image of size `sz` into, in a process that still
has its own directory. -/
structure Loaded (L : Layout) (im : Image) (sz : ℕ) : Prop where
  sz_le : sz ≤ KERNBASE
  absent : ∀ m, pages sz ≤ m → m < KPAGE → (im.pgdir.entry m).present = false
  sound : Sound L im.mem
  frames : FreeFrames L im.pgdir
  curFrames : FreeFrames L im.cur
  curInUse : ∀ a f, im.cur.frameAt a = some f → f ∉ im.mem.freelist

/-- The two pages after page `g` are granted. -/
def Granted (env : Env) (im : Image) (g : ℕ) : Prop :=
  (g + 2) * PGSIZE < KERNBASE ∧
    plan env 2 g im.pgdir.has im.mem.calls im.mem.freelist.length ≠ none

/-- Whether page `m` has a page table when the two pages after page `g` are granted. -/
def hasTable (env : Env) (im : Image) (g m : ℕ) : Bool :=
  tables env 2 g im.pgdir.has im.mem.calls im.mem.freelist.length (m / NPTENTRIES)

section Stack

variable {p : ℕ} {L : Layout} {env : Env} {E : End IState → Prop} {σ : IState} {im : Image}
  {sz entry g : ℕ} {argv : List (List UInt8)}

theorem pages_mul (g : ℕ) : pages (g * PGSIZE) = g := by
  change (g * 4096 + (4096 - 1)) / 4096 = g
  omega

variable {pgdir : PageDir}

theorem has_withoutUser {j : ℕ} (hj : j < 2 ^ 20) :
    (pgdir.withoutUser j).has = pgdir.has := has_setPte hj

theorem target_guard {x : Table} (hg : g < 2 ^ 20)
    (hx : pgdir.table (g / NPTENTRIES) = some x) : target env (pgdir.withoutUser g) g = none := by
  have hhas : (pgdir.withoutUser g).has (g / NPTENTRIES) = true := by
    rw [has_withoutUser hg, PageDir.has, hx]
    rfl
  rw [target, if_pos hhas, PageDir.withoutUser, PageDir.entry_setPte hg hx, if_pos rfl,
    Pte.userFrame, user_clear, Bool.and_false]
  rfl

theorem target_stack (env : Env) {pgdir' : PageDir} {s t : Mem} {l : List ℕ} {x : Table}
    (hg : g + 1 < 2 ^ 20) (habs : (pgdir.entry (g + 1)).present = false)
    (hfill : Filled pgdir g (g + 2) s l pgdir' t) (hx : pgdir'.table (g / NPTENTRIES) = some x) :
    (pgdir'.has ((g + 1) / NPTENTRIES) = true → ∃ f ∈ l,
      (pgdir'.withoutUser g).entry (g + 1) = ⟨f, userFlags⟩ ∧
      target env (pgdir'.withoutUser g) (g + 1) = some f) ∧
    (pgdir'.has ((g + 1) / NPTENTRIES) = false →
      target env (pgdir'.withoutUser g) (g + 1) = env.null.userFrame) := by
  have hentry : (pgdir'.withoutUser g).entry (g + 1) = pgdir'.entry (g + 1) := by
    rw [PageDir.withoutUser, PageDir.entry_setPte (by omega) hx, if_neg (by omega)]
  refine ⟨fun hhas => ?_, fun hhas => ?_⟩
  · have hp := (hfill.last (g + 1) (Nat.le_succ g) rfl).trans hhas
    rcases hfill.new (g + 1) (Nat.le_succ g) (Nat.lt_succ_self _) with hsame | ⟨f, hf, he, -⟩
    · rw [hsame, habs] at hp
      cases hp
    · refine ⟨f, hf, hentry.trans he, ?_⟩
      rw [target, has_withoutUser (by omega), if_pos hhas, hentry, he, Pte.userFrame, present_or,
        user_userFlags]
      rfl
  · rw [target, has_withoutUser (by omega), hhas]
    rfl

theorem two_pages (h : g + 2 < 2 ^ 20) : (g * PGSIZE + 2 * PGSIZE) % 2 ^ 32 = (g + 2) * PGSIZE := by
  change (g * 4096 + 2 * 4096) % 2 ^ 32 = (g + 2) * 4096
  omega

theorem execs_execStack {Q : ℤ → IState × Image → Prop} (h : Loaded L im sz)
    (hargc : argv.length ≤ 31) (htotal : used argv < (pages sz + 2) * PGSIZE)
    (hrefused : ¬ Granted env im (pages sz) → ∀ im', Q (-1) (σ, im'))
    (hpanic : Granted env im (pages sz) → hasTable env im (pages sz) (pages sz) = false →
      E (.stop (.panic .clearpteu)))
    (hbad : Granted env im (pages sz) → hasTable env im (pages sz) (pages sz) = true →
      hasTable env im (pages sz) (pages sz + 1) = false ∧ env.null.userFrame = none ∨
        PGSIZE < room argv → ∀ im', Q (-1) (σ, im'))
    (hgood : Granted env im (pages sz) → hasTable env im (pages sz) (pages sz) = true →
      (hasTable env im (pages sz) (pages sz + 1) = false → env.null.userFrame ≠ none) →
      room argv ≤ PGSIZE → ∀ t d,
      d.has ((pages sz + 1) / NPTENTRIES) = hasTable env im (pages sz) (pages sz + 1) →
      (hasTable env im (pages sz) (pages sz + 1) = true → ∃ f q,
        d.entry (pages sz + 1) = ⟨f, userFlags⟩ ∧ t.page f = stackPage (pages sz) argv q) →
      Q 0 (σ, ⟨t, d, d, (pages sz + 2) * PGSIZE, entry,
        (pages sz + 1) * PGSIZE + (PGSIZE - room argv)⟩)) :
    Execs p L env E Q (execStack entry sz argv) (σ, im) := by
  have habs := h.absent
  have hK := pages_le h.sz_le
  rw [execStack, pgRoundUp_eq h.sz_le]
  generalize pages sz = g at *
  have h20 : g + 2 < 2 ^ 20 := lt_of_le_of_lt (Nat.add_le_add_right hK 2) (by decide)
  rw [two_pages h20]
  rcases Nat.lt_or_ge ((g + 2) * PGSIZE) KERNBASE with hlt | hge
  · have hplan : pages ((g + 2) * PGSIZE) - pages (g * PGSIZE) = 2 := by
      rw [pages_mul, pages_mul, Nat.add_sub_cancel_left]
    have hmono : g * PGSIZE ≤ (g + 2) * PGSIZE := Nat.mul_le_mul_right _ (Nat.le_add_right g 2)
    refine wp_seq (execs_call (Image.step_allocuvm ..) (kern_allocuvm h.sound hmono hlt ?_ ?_ ?_))
    · rwa [pages_mul]
    · rw [hplan, pages_mul, pages_mul]
      intro hnone pgdir' t hundone
      have hframes := hundone.freeFrames h.sound habs h.frames
      exact execs_giveUp { im with pgdir := pgdir' } hframes
        fun u => hrefused (fun hgranted => hgranted.2 hnone) _
    · rw [hplan, pages_mul, pages_mul]
      intro b l pgdir' t hb hfill hc hhas
      have hgranted : Granted env im g := ⟨hlt, by rw [hb]; exact Option.some_ne_none _⟩
      have hframes := hfill.freeFrames h.sound habs h.frames
      have hsz : (g + 2) * PGSIZE ≠ 0 := (Nat.mul_pos (Nat.succ_pos _) (by decide)).ne'
      have hguard : (g + 2) * PGSIZE - 2 * PGSIZE = g * PGSIZE := by
        rw [← Nat.sub_mul, Nat.add_sub_cancel]
      dsimp only
      rw [if_neg hsz, hguard]
      have hat : ∀ m, pgdir'.has (m / NPTENTRIES) = hasTable env im g m := fun m => by rw [hhas]; rfl
      refine wp_seq (execs_clearpteu (by omega) (fun hnone => ?_) fun x hx => ?_)
      · refine execs_panic (hpanic hgranted ?_)
        rw [← hat, PageDir.has, hnone]
        rfl
      · have hg : hasTable env im g g = true := by
          rw [← hat, PageDir.has, hx]
          rfl
        have hK1 : g + 1 < KPAGE := by
          change (g + 2) * 4096 < 2147483648 at hlt
          change g + 1 < 524288
          omega
        obtain ⟨hyes, hno⟩ := target_stack env (by omega) (habs (g + 1) (Nat.le_succ g) hK1) hfill hx
        rw [hat] at hyes hno
        refine execs_arguments h20 (target_guard (by omega) hx) (hframes.withoutUser (by omega) hx)
          h.curFrames hargc ?_ (fun hb u => hbad hgranted hg ?_ _) fun f u hf hroom hu => ?_
        · exact le_of_lt (lt_of_lt_of_eq htotal (Nat.succ_mul ..))
        · refine hb.imp_left fun hnone => ?_
          cases ht : hasTable env im g (g + 1) with
          | true =>
            obtain ⟨f, -, -, hf⟩ := hyes ht
            rw [hnone] at hf
            cases hf
          | false => exact ⟨rfl, (hno ht).symm.trans hnone⟩
        · refine hgood hgranted hg (fun ht => ?_) hroom u _ ?_ fun ht => ?_
          · rw [← hno ht, hf]
            exact Option.some_ne_none _
          · rw [has_withoutUser (by omega), hat]
          · obtain ⟨f', hl, he, hf'⟩ := hyes ht
            obtain rfl := Option.some_inj.1 (hf.symm.trans hf')
            refine ⟨f, t.page f, he, ?_⟩
            rw [hu f fun a ha => h.curInUse a f ha (hfill.mem_freelist hl), Mem.page_write]
  · -- the image would reach the kernel
    refine wp_seq (execs_call (Image.step_allocuvm ..) ?_)
    rw [allocuvm, if_pos hge]
    exact wp_pure (execs_giveUp im h.frames fun u => hrefused (fun hg => absurd hg.1 (not_lt.2 hge)) _)

end Stack

/-! ## What is on the stack -/

def readUser (pgdir : PageDir) (m : Mem) (va : ℕ) : Option UInt8 :=
  (pgdir.pte va).userFrame.map fun f => (m.page f).getByte (va % PGSIZE)

/-- The process finds these bytes from address `va` on. -/
def Holds (im : Image) (va : ℕ) (l : List UInt8) : Prop :=
  ∀ (i : ℕ) b, l[i]? = some b → readUser im.cur im.mem (va + i) = some b

/-- The places of the words and of the strings: their addresses and lengths. -/
def places (esp : ℕ) (ptrs : List ℕ) (argv : List (List UInt8)) : List (ℕ × ℕ) :=
  (esp, (3 + argv.length + 1) * 4) :: (ptrs.zip argv).map fun x => (x.1, x.2.length + 1)

/-- The argument stack that the process finds at `esp`. -/
def ArgStack (im : Image) (argv : List (List UInt8)) : Prop :=
  ∃ ptrs : List ℕ, ptrs.length = argv.length ∧
    Holds im im.esp
      (((0xffffffff :: argv.length :: (im.esp + 12) :: ptrs) ++ [0]).flatMap bytes32) ∧
    (∀ (i : ℕ) arg x, argv[i]? = some arg → ptrs[i]? = some x → x % 4 = 0 ∧ Holds im x (arg ++ [0])) ∧
    (places im.esp ptrs argv).Pairwise (fun a b => a.1 + a.2 ≤ b.1 ∨ b.1 + b.2 ≤ a.1) ∧
    ∀ a ∈ places im.esp ptrs argv, im.sz - PGSIZE ≤ a.1 ∧ a.1 + a.2 ≤ im.sz

section Contents

variable {argv : List (List UInt8)} {base g : ℕ}

theorem getByte_fill_above (argv : List (List UInt8)) :
    ∀ {o i : ℕ} {p : Page}, used argv ≤ o → o ≤ i → i < 4096 →
      (fill argv o p).getByte i = p.getByte i := by
  induction argv with
  | nil => intros; rfl
  | cons arg argv ih =>
    intro o i p hused hi h4096
    rw [used_cons] at hused
    have hpad := length_lt_padded arg
    rw [fill, ih (by omega) (by omega) h4096, Bytes.getByte_put _ _ h4096, if_neg]
    rw [length_append, length_singleton]
    omega

theorem getByte_fill (argv : List (List UInt8)) :
    ∀ {o k x : ℕ} {arg : List UInt8} {p : Page}, used argv ≤ o → o ≤ 4096 → o % 4 = 0 →
      argv[k]? = some arg → (addrs base argv o)[k]? = some x →
      ∃ y, x = base + y ∧ y % 4 = 0 ∧ o - used argv ≤ y ∧ y + (arg.length + 1) ≤ o ∧
        ∀ (i : ℕ) b, (arg ++ [0])[i]? = some b → (fill argv o p).getByte (y + i) = b := by
  induction argv with
  | nil =>
    intro o k x arg p _ _ _ hk
    simp at hk
  | cons a argv ih =>
    intro o k x arg p hused h4096 h4 hk hx
    rw [used_cons] at hused
    have hpad := length_lt_padded a
    have hmod := padded_mod a
    cases k with
    | zero =>
      obtain rfl := Option.some_inj.1 hk
      obtain rfl := Option.some_inj.1 hx
      refine ⟨o - padded a, rfl, by omega, by rw [used_cons]; omega, by omega, fun i b hb => ?_⟩
      have hi : i < (a ++ [0]).length := (List.getElem?_eq_some_iff.1 hb).1
      have hlen : (a ++ [0]).length = a.length + 1 := by simp
      rw [fill, getByte_fill_above argv (by omega) (by omega) (by omega),
        Bytes.getByte_put _ _ (by omega), if_pos (by omega), Nat.add_sub_cancel_left,
        getD_eq_getElem?_getD, hb]
      rfl
    | succ k =>
      rw [List.getElem?_cons_succ] at hk
      rw [addrs, List.getElem?_cons_succ] at hx
      obtain ⟨y, rfl, hy4, hlo, hhi, hbytes⟩ :=
        ih (p := p.put (o - padded a) (a ++ [0])) (by omega) (by omega) (by omega) hk hx
      exact ⟨y, rfl, hy4, by rw [used_cons]; omega, by omega, hbytes⟩

theorem places_strings (base : ℕ) (argv : List (List UInt8)) :
    ∀ {o : ℕ}, used argv ≤ o →
      (∀ a ∈ ((addrs base argv o).zip argv).map fun x => (x.1, x.2.length + 1),
        base + (o - used argv) ≤ a.1 ∧ a.1 + a.2 ≤ base + o) ∧
      (((addrs base argv o).zip argv).map fun x => (x.1, x.2.length + 1)).Pairwise
        (fun a b => a.1 + a.2 ≤ b.1 ∨ b.1 + b.2 ≤ a.1) := by
  induction argv with
  | nil => intro o _; simp [addrs]
  | cons a argv ih =>
    intro o hused
    rw [used_cons] at hused ⊢
    have hpad := length_lt_padded a
    obtain ⟨hin, hpair⟩ := ih (o := o - padded a) (by omega)
    rw [addrs, zip_cons_cons, map_cons]
    refine ⟨fun r hr => ?_, pairwise_cons.2 ⟨fun r hr => ?_, hpair⟩⟩
    · rcases mem_cons.1 hr with rfl | hr
      · dsimp only
        omega
      · have := hin r hr
        omega
    · have := hin r hr
      dsimp only
      omega

/-- The words and the strings of a stack page, at their offsets. -/
theorem getByte_stackPage {q : Page} (hroom : room argv ≤ 4096) :
    (∀ (i : ℕ) b, (ustack argv.length ((g + 1) * PGSIZE + (PGSIZE - used argv))
        (addrs ((g + 1) * PGSIZE) argv PGSIZE))[i]? = some b →
      (stackPage g argv q).getByte (PGSIZE - room argv + i) = b) ∧
    ∀ i, 4096 - used argv ≤ i → i < 4096 →
      (stackPage g argv q).getByte i = (fill argv PGSIZE q).getByte i := by
  have hr : room argv = used argv + (3 + argv.length + 1) * 4 := rfl
  refine ⟨fun i b hb => ?_, fun i hlo hhi => ?_⟩
  · have hi := (List.getElem?_eq_some_iff.1 hb).1
    rw [length_ustack] at hi
    have hlt : PGSIZE - room argv + i < 4096 := by
      change 4096 - room argv + i < 4096
      omega
    rw [stackPage, Bytes.getByte_put _ _ hlt, if_pos (by rw [length_ustack]; omega),
      Nat.add_sub_cancel_left, getD_eq_getElem?_getD, hb]
    rfl
  · rw [stackPage, Bytes.getByte_put _ _ hhi, if_neg]
    rw [length_ustack]
    change ¬ (4096 - room argv ≤ i ∧ i < 4096 - room argv + (3 + argv.length + 1) * 4)
    omega

variable {j y : ℕ} {pgdir : PageDir}

section

variable (hj : j < 2 ^ 20) (hy : y < 4096)
include hj hy

theorem pte_add : pgdir.pte (j * PGSIZE + y) = pgdir.entry j := by
  have hdiv : (j * PGSIZE + y) / PGSIZE = j := by
    change (j * 4096 + y) / 4096 = j
    omega
  have hlt : j * PGSIZE + y < 2 ^ 32 := by
    change j * 4096 + y < 2 ^ 32
    omega
  rw [PageDir.pte, PDX_eq hlt, PTX_eq, hdiv, PageDir.entry]

/-- The byte at offset `y` of a page that the user may access. -/
theorem readUser_page {m : Mem} {f : ℕ} (he : pgdir.entry j = ⟨f, userFlags⟩) :
    readUser pgdir m (j * PGSIZE + y) = some ((m.page f).getByte y) := by
  have hmod : (j * PGSIZE + y) % PGSIZE = y := by
    change (j * 4096 + y) % 4096 = y
    omega
  rw [readUser, pte_add hj hy, he, hmod, Pte.userFrame, present_or, user_userFlags]
  rfl

/-- The user finds nothing in a page without a page table. -/
theorem readUser_of_no_table {m : Mem} (h : pgdir.has (j / NPTENTRIES) = false) :
    readUser pgdir m (j * PGSIZE + y) = none := by
  rw [readUser, pte_add hj hy, PageDir.entry_of_none]
  · rfl
  · simpa [PageDir.has] using h

end

theorem argStack_of_page {t : Mem} {d cur : PageDir} {entry f : ℕ} {q : Page}
    (hg : g + 1 < 2 ^ 20) (he : d.entry (g + 1) = ⟨f, userFlags⟩)
    (hpage : t.page f = stackPage g argv q) (hroom : room argv ≤ PGSIZE) :
    ArgStack ⟨t, cur, d, (g + 2) * PGSIZE, entry, (g + 1) * PGSIZE + (PGSIZE - room argv)⟩ argv := by
  have hr : room argv = used argv + (3 + argv.length + 1) * 4 := rfl
  have hroom' : room argv ≤ 4096 := hroom
  have hused : used argv ≤ 4096 := by omega
  obtain ⟨hwords, hstrings⟩ := getByte_stackPage (g := g) (q := q) hroom
  have hread : ∀ y, y < 4096 → readUser d t ((g + 1) * PGSIZE + y) =
      some ((stackPage g argv q).getByte y) := fun y hy => by
    rw [readUser_page hg hy he, hpage]
  obtain ⟨hin, hpair⟩ := places_strings ((g + 1) * PGSIZE) argv (o := PGSIZE) (by omega)
  have hend : (g + 1) * PGSIZE + (PGSIZE - room argv) + (3 + argv.length + 1) * 4 =
      (g + 1) * PGSIZE + (PGSIZE - used argv) := by omega
  refine ⟨addrs ((g + 1) * PGSIZE) argv PGSIZE, length_addrs .., fun i b hb => ?_,
    fun i arg x hk hx => ?_, pairwise_cons.2 ⟨fun a ha => ?_, hpair⟩, fun a ha => ?_⟩
  · have hpv : (g + 1) * PGSIZE + (PGSIZE - room argv) + 12 =
        ((g + 1) * PGSIZE + (PGSIZE - used argv) + 2 ^ 32 - (argv.length + 1) * 4) % 2 ^ 32 := by
      change room argv ≤ 4096 at hroom
      change (g + 1) * 4096 + (4096 - room argv) + 12 =
        ((g + 1) * 4096 + (4096 - used argv) + 2 ^ 32 - (argv.length + 1) * 4) % 2 ^ 32
      omega
    dsimp only at hb ⊢
    rw [hpv] at hb
    have hi := (List.getElem?_eq_some_iff.1 hb).1
    have hlt : PGSIZE - room argv + i < 4096 := by
      have hi' := lt_of_lt_of_eq hi (length_ustack ..)
      change 4096 - room argv + i < 4096
      omega
    rw [Nat.add_assoc, hread _ hlt, hwords i b hb]
  · obtain ⟨y, rfl, hy4, hlo, hhi, hbytes⟩ := getByte_fill argv (p := q) (o := 4096) hused le_rfl
      (by decide) hk hx
    refine ⟨?_, fun i b hb => ?_⟩
    · change ((g + 1) * 4096 + y) % 4 = 0
      omega
    · have hi := (List.getElem?_eq_some_iff.1 hb).1
      have hlen : (arg ++ [0]).length = arg.length + 1 := by simp
      rw [hlen] at hi
      have hlt : y + i < 4096 := by omega
      dsimp only
      rw [Nat.add_assoc, hread _ hlt, hstrings _ (by omega) hlt, hbytes i b hb]
  · have := (hin a ha).1
    dsimp only
    omega
  · have hsz : (g + 2) * PGSIZE = (g + 1) * PGSIZE + PGSIZE := Nat.succ_mul ..
    rcases mem_cons.1 ha with rfl | ha
    · dsimp only
      rw [hsz]
      omega
    · have := hin a ha
      dsimp only
      rw [hsz]
      omega

end Contents

/-! ## What `exec` promises -/

/-- When `exec` succeeds, the arguments are on the stack, and when they do not fit into the
stack page it fails. -/
def StacksArgs (p : ℕ) (L : Layout) (env : Env) (σ : IState) (im : Image) (entry sz : ℕ)
    (argv : List (List UInt8)) : Prop :=
  (∀ s, (execStack entry sz argv).run (execSem p L env) (σ, im) = .ok (0, s) → ArgStack s.2 argv) ∧
    (PGSIZE < room argv →
      ∃ s, (execStack entry sz argv).run (execSem p L env) (σ, im) = .ok (-1, s))

section Promise

variable {p : ℕ} {L : Layout} {env : Env} {σ : IState} {im : Image} {sz entry : ℕ}
  {argv : List (List UInt8)}

theorem stacksArgs_of_fails
    (h : Execs p L env (fun _ => False) (fun r _ => r = -1) (execStack entry sz argv) (σ, im)) :
    StacksArgs p L env σ im entry sz argv := by
  obtain ⟨r, s, hrun, rfl⟩ := wp_run_exists h
  refine ⟨fun s' hrun' => ?_, fun _ => ⟨s, hrun⟩⟩
  rw [hrun] at hrun'
  cases hrun'

variable (h : Loaded L im sz) (hargc : argv.length ≤ 31)
  (htotal : used argv < (pages sz + 2) * PGSIZE)

include h hargc htotal

theorem stacksArgs_of_refused (hno : ¬ Granted env im (pages sz)) :
    StacksArgs p L env σ im entry sz argv :=
  stacksArgs_of_fails (execs_execStack h hargc htotal (fun _ _ => rfl) (fun hg => absurd hg hno)
    (fun hg => absurd hg hno) fun hg => absurd hg hno)

/-- Without a page table for the guard page `exec` panics. -/
theorem stacksArgs_of_panic (hyes : Granted env im (pages sz))
    (hguard : hasTable env im (pages sz) (pages sz) = false) :
    StacksArgs p L env σ im entry sz argv ↔ room argv ≤ PGSIZE := by
  have hexec : Execs p L env (fun _ => True) (fun _ _ => False) (execStack entry sz argv) (σ, im) :=
    execs_execStack h hargc htotal (fun hg => absurd hyes hg) (fun _ _ => trivial)
      (fun _ hg => by rw [hguard] at hg; cases hg) fun _ hg => by rw [hguard] at hg; cases hg
  refine ⟨fun hs => ?_, fun hroom => ⟨fun s hrun => (wp_run_ok hexec hrun).elim, fun hlt => ?_⟩⟩
  · by_contra hlt
    obtain ⟨s, hrun⟩ := hs.2 (not_le.1 hlt)
    exact wp_run_ok hexec hrun
  · exact absurd hroom (not_le.2 hlt)

theorem stacksArgs_of_bad (hguard : hasTable env im (pages sz) (pages sz) = true)
    (hbad : hasTable env im (pages sz) (pages sz + 1) = false ∧ env.null.userFrame = none ∨
      PGSIZE < room argv) : StacksArgs p L env σ im entry sz argv := by
  refine stacksArgs_of_fails (execs_execStack h hargc htotal (fun _ _ => rfl)
    (fun _ hg => by rw [hguard] at hg; cases hg) (fun _ _ _ _ => rfl) fun _ _ hnull hroom => ?_)
  rcases hbad with ⟨hstack, hnone⟩ | hlt
  · exact absurd hnone (hnull hstack)
  · exact absurd hroom (not_le.2 hlt)

variable (hyes : Granted env im (pages sz))
include hyes

theorem stacksArgs_of_table
    (hstack : hasTable env im (pages sz) (pages sz + 1) = true) (hroom : room argv ≤ PGSIZE) :
    StacksArgs p L env σ im entry sz argv := by
  have hK := pages_le h.sz_le
  have h20 : pages sz + 1 < 2 ^ 20 := lt_of_le_of_lt (Nat.add_le_add_right hK 1) (by decide)
  have hexec : Execs p L env (fun _ => True) (fun _ s => ArgStack s.2 argv)
      (execStack entry sz argv) (σ, im) := by
    refine execs_execStack h hargc htotal (fun hg => absurd hyes hg) (fun _ _ => trivial)
      (fun _ _ hbad => ?_) fun _ _ _ _ t d _ hpage => ?_
    · rcases hbad with ⟨hno, -⟩ | hlt
      · rw [hstack] at hno
        cases hno
      · exact absurd hroom (not_le.2 hlt)
    · obtain ⟨f, q, he, ht⟩ := hpage hstack
      exact argStack_of_page h20 he ht hroom
  refine ⟨fun s hrun => ?_, fun hlt => absurd hroom (not_le.2 hlt)⟩
  have hstack := wp_run_ok hexec hrun
  exact hstack

/-- Without a page table for the stack page `exec` may succeed all the same. -/
theorem not_stacksArgs (hguard : hasTable env im (pages sz) (pages sz) = true)
    (hstack : hasTable env im (pages sz) (pages sz + 1) = false)
    (hnull : env.null.userFrame ≠ none) (hroom : room argv ≤ PGSIZE) :
    ¬ StacksArgs p L env σ im entry sz argv := by
  have hexec : Execs p L env (fun _ => False) (fun r s => r = 0 ∧
      s.2.cur.has ((pages sz + 1) / NPTENTRIES) = false ∧
      s.2.esp = (pages sz + 1) * PGSIZE + (PGSIZE - room argv)) (execStack entry sz argv)
      (σ, im) := by
    refine execs_execStack h hargc htotal (fun hg => absurd hyes hg)
      (fun _ hg => by rw [hguard] at hg; cases hg) (fun _ _ hbad => ?_) fun _ _ _ _ t d hd _ => ?_
    · rcases hbad with ⟨-, hn⟩ | hlt
      · exact absurd hn hnull
      · exact absurd hroom (not_le.2 hlt)
    · exact ⟨rfl, hd.trans hstack, rfl⟩
  obtain ⟨r, s, hrun, rfl, hhas, hesp⟩ := wp_run_exists hexec
  intro hs
  obtain ⟨ptrs, -, hwords, -⟩ := hs.1 s hrun
  have hread := hwords 0 _ rfl
  have h20 : pages sz + 1 < 2 ^ 20 :=
    lt_of_le_of_lt (Nat.add_le_add_right (pages_le h.sz_le) 1) (by decide)
  have hlt : PGSIZE - room argv < 4096 :=
    Nat.sub_lt (by decide) (by unfold room; omega)
  rw [Nat.add_zero, hesp, readUser_of_no_table h20 hlt hhas] at hread
  cases hread

end Promise

/-- `exec` keeps its promise exactly when the two pages are refused, or both have a page
table, or: the guard page has none and the arguments fit; or the stack page has none and the
arguments do not fit or the null pointer leads to no page of the user. -/
theorem exec_stacks_args_iff (p : ℕ) (L : Layout) (env : Env) (σ : IState) (im : Image)
    (entry sz : ℕ) (argv : List (List UInt8)) (h : Loaded L im sz) (hargc : argv.length ≤ 31)
    (htotal : used argv < (pages sz + 2) * PGSIZE) :
    StacksArgs p L env σ im entry sz argv ↔
      (Granted env im (pages sz) →
        (hasTable env im (pages sz) (pages sz) = false → room argv ≤ PGSIZE) ∧
        (hasTable env im (pages sz) (pages sz) = true →
          hasTable env im (pages sz) (pages sz + 1) = false →
          env.null.userFrame = none ∨ PGSIZE < room argv)) := by
  by_cases hyes : Granted env im (pages sz)
  · cases hguard : hasTable env im (pages sz) (pages sz) with
    | false =>
      rw [stacksArgs_of_panic h hargc htotal hyes hguard]
      simp [hyes]
    | true =>
      by_cases hbad : hasTable env im (pages sz) (pages sz + 1) = false ∧
          env.null.userFrame = none ∨ PGSIZE < room argv
      · refine iff_of_true (stacksArgs_of_bad h hargc htotal hguard hbad) fun _ => ⟨nofun, ?_⟩
        exact fun _ _ => hbad.imp_left And.right
      · obtain ⟨hnull, hroom⟩ := not_or.1 hbad
        cases hstack : hasTable env im (pages sz) (pages sz + 1) with
        | true =>
          exact iff_of_true
            (stacksArgs_of_table h hargc htotal hyes hstack (not_lt.1 hroom))
            fun _ => ⟨nofun, fun _ => nofun⟩
        | false =>
          have hnull' : env.null.userFrame ≠ none := fun hn => hnull ⟨hstack, hn⟩
          refine iff_of_false
            (not_stacksArgs h hargc htotal hyes hguard hstack hnull' (not_lt.1 hroom))
            fun hc => ?_
          rcases (hc hyes).2 rfl rfl with hn | hlt
          · exact hnull' hn
          · exact hroom hlt
  · exact iff_of_true (stacksArgs_of_refused h hargc htotal hyes) fun hg => absurd hg hyes

/-- A directory without pages, in frame `f`, that has the first page table or not. -/
def bareDir (f : ℕ) (first : Bool) : PageDir :=
  ⟨f, fun r => if r = 0 ∧ first = true then some ⟨f + 1, fun _ => Pte.zero⟩ else none⟩

/-- An empty image in a process without pages, with three free pages. -/
def bareImage (first : Bool) : Image :=
  ⟨⟨fun _ => Bytes.zero 4096, [520, 521, 522], 0⟩, bareDir 512 first, bareDir 514 false, 0, 0, 0⟩

theorem entry_bareDir (f : ℕ) (first : Bool) (m : ℕ) : (bareDir f first).entry m = Pte.zero := by
  unfold PageDir.entry bareDir
  dsimp only
  split <;> rfl

theorem frameAt_bareDir {f e : ℕ} {first : Bool} {a : Slot}
    (h : (bareDir f first).frameAt a = some e) : e = f ∨ e = f + 1 := by
  cases a with
  | dir => exact Or.inl (Option.some_inj.1 h).symm
  | table r =>
    obtain ⟨x, hx, rfl⟩ := Option.map_eq_some_iff.1 h
    obtain rfl := Option.some_inj.1 (Option.ite_none_right_eq_some.1 hx).2
    exact Or.inr rfl
  | page m =>
    rw [PageDir.frameAt, entry_bareDir] at h
    simp at h

theorem loaded_bareImage (first : Bool) {sz : ℕ} (hsz : sz ≤ KERNBASE) :
    Loaded smallKernel (bareImage first) sz where
  sz_le := hsz
  absent m _ _ := by
    change ((bareDir 512 first).entry m).present = false
    rw [entry_bareDir]
    rfl
  sound := by
    refine ⟨(by decide : [520, 521, 522].Nodup), fun f hf => ?_⟩
    have hall : ∀ f ∈ [520, 521, 522], smallKernel.Frame f := by decide
    exact hall f hf
  frames a f hf := by
    rcases frameAt_bareDir hf with rfl | rfl <;> decide
  curFrames a f hf := by
    rcases frameAt_bareDir hf with rfl | rfl <;> decide
  curInUse a f hf := by
    change f ∉ [520, 521, 522]
    rcases frameAt_bareDir hf with rfl | rfl <;> decide

def emptyState : IState := ⟨bootCore fun _ => 0, fun _ => ⟨⟨0, 0, 0, 0⟩, []⟩, 0⟩

/-- `exec` with the argument `hi` for an empty image. -/
theorem stacks_args_hi :
    StacksArgs 0 smallKernel ⟨fun _ => false, Pte.zero⟩ emptyState (bareImage false) 0 0
      [[104, 105]] :=
  (exec_stacks_args_iff 0 smallKernel ⟨fun _ => false, Pte.zero⟩ emptyState (bareImage false) 0 0
    [[104, 105]] (loaded_bareImage false (by decide)) (by decide) (by decide)).2
    fun _ => by decide

/-- The page for the page table of the stack page is refused, and `exec` succeeds without a
stack. -/
theorem no_stack_page :
    ¬ StacksArgs 0 smallKernel ⟨fun i => i == 2, ⟨600, userFlags⟩⟩ emptyState (bareImage true) 0
      0x3ff000 [] :=
  not_stacksArgs (loaded_bareImage true (by decide)) (by decide) (by decide)
    ⟨by decide, by decide⟩ (by decide) (by decide) (by decide) (by decide)

end Qwin.Vm
