import Qwin.Vm.Image

/-!
# The argument stack

`exec` gives the new image two more pages, takes the user's access from the first one and
copies the arguments into the second one, from its end downwards. `copyout` stops at the
page without access, so that arguments that do not fit are refused.

There is one exception. The result of `mappages` is not looked at, so that the second page
may have no page table, and `uva2ka` then follows a null pointer. What it finds there
decides where the arguments go.
-/

namespace Qwin.Vm

open Prog Fs Sys List

/-! ## `copyout` -/

def Pte.userFrame (e : Pte) : Option ℕ := if e.present && e.user then some e.frame else none

def target (env : Env) (pgdir : PageDir) (m : ℕ) : Option ℕ :=
  if pgdir.has (m / NPTENTRIES) then (pgdir.entry m).userFrame else env.null.userFrame

section Copyout

variable {L : Layout} {env : Env} {E : Stop → Prop} {s : Mem} {pgdir : PageDir}

theorem kern_userFrame {Q : Option ℕ → Mem → Prop} {e : Pte} (h : Q e.userFrame s) :
    Kern L env E Q (if e.present && e.user then pure (some e.frame) else pure none) s := by
  unfold Pte.userFrame at h
  cases hpu : e.present && e.user with
  | true =>
    rw [hpu] at h
    exact wp_pure h
  | false =>
    rw [hpu] at h
    exact wp_pure h

variable {m : ℕ}

theorem kern_uva2ka {Q : Option ℕ → Mem → Prop} (hm : m < 2 ^ 20)
    (h : Q (target env pgdir m) s) : Kern L env E Q (uva2ka pgdir (m * PGSIZE)) s := by
  refine wp_seq (kern_walk hm (fun hnone => ?_) fun t ht => ?_)
  · have htarget : target env pgdir m = env.null.userFrame := by
      simp [target, PageDir.has, hnone]
    exact wp_seq (wp_last trivial rfl (kern_userFrame (htarget ▸ h)))
  · have htarget : target env pgdir m = (pgdir.pte (m * PGSIZE)).userFrame := by
      simp [target, PageDir.has, ht, PageDir.pte_mul hm]
    exact wp_seq (wp_pure (kern_userFrame (htarget ▸ h)))

variable {o : ℕ}

theorem pgRoundDown_add (ho : o < PGSIZE) : pgRoundDown (m * PGSIZE + o) = m * PGSIZE := by
  rw [pgRoundDown, Nat.mul_comm m, Nat.mul_add_div (by decide), Nat.div_eq_of_lt ho, Nat.add_zero,
    Nat.mul_comm]

variable {buf : List UInt8} {Q : Bool → Mem → Prop}

theorem kern_copyoutLoop {fuel : ℕ} (hm : m + 1 < 2 ^ 20) (ho : o < PGSIZE) (hbuf : buf ≠ [])
    (hnone : target env pgdir m = none → Q false s)
    (hsome : ∀ f, target env pgdir m = some f →
      Kern L env E Q (copyoutLoop pgdir fuel ((m + 1) * PGSIZE) (buf.drop (PGSIZE - o)))
        (s.write f ((s.page f).put o (buf.take (PGSIZE - o))))) :
    Kern L env E Q (copyoutLoop pgdir (fuel + 1) (m * PGSIZE + o) buf) s := by
  have hdrop : buf.drop (min (PGSIZE - o) buf.length) = buf.drop (PGSIZE - o) := by
    rcases Nat.le_total (PGSIZE - o) buf.length with hle | hle
    · rw [Nat.min_eq_left hle]
    · rw [Nat.min_eq_right hle, drop_length, drop_eq_nil_of_le hle]
  have htake : buf.take (min (PGSIZE - o) buf.length) = buf.take (PGSIZE - o) := by
    rw [← take_take, take_length]
  rw [copyoutLoop, if_neg hbuf]
  dsimp only
  rw [pgRoundDown_add ho, Nat.add_sub_cancel_left, hdrop, htake, add_page hm]
  refine wp_seq (kern_uva2ka (by omega) ?_)
  cases ht : target env pgdir m with
  | none => exact wp_pure (hnone ht)
  | some f => exact wp_seq (wp_last trivial rfl (wp_seq (wp_last trivial rfl (hsome f ht))))

theorem kern_copyout_page (hm : m + 1 < 2 ^ 20) (hbuf : buf ≠ []) (hlen : o + buf.length ≤ PGSIZE)
    (hnone : target env pgdir m = none → Q false s)
    (hsome : ∀ f, target env pgdir m = some f → Q true (s.write f ((s.page f).put o buf))) :
    Kern L env E Q (copyout pgdir (m * PGSIZE + o) buf) s := by
  have hpos : 0 < buf.length := length_pos_of_ne_nil hbuf
  obtain ⟨fuel, hfuel⟩ : ∃ fuel, buf.length = fuel + 1 := ⟨buf.length - 1, by omega⟩
  rw [copyout, hfuel]
  refine kern_copyoutLoop hm (by omega) hbuf hnone fun f hf => ?_
  rw [drop_eq_nil_of_le (by omega), take_of_length_le (by omega)]
  cases fuel with
  | zero => exact wp_pure (hsome f hf)
  | succ fuel =>
    rw [copyoutLoop, if_pos rfl]
    exact wp_pure (hsome f hf)

/-- What is left of a range after the rest of its first page. -/
theorem next_page {va g len fuel : ℕ} (hfuel : len ≤ fuel + 1) (hlt : va / PGSIZE < g)
    (hend : g * PGSIZE < va + len) :
    0 < len - (PGSIZE - va % PGSIZE) ∧ len - (PGSIZE - va % PGSIZE) ≤ fuel ∧
      (va / PGSIZE + 1) * PGSIZE < (g + 1) * PGSIZE ∧
      g * PGSIZE < (va / PGSIZE + 1) * PGSIZE + (len - (PGSIZE - va % PGSIZE)) := by
  change va / 4096 < g at hlt
  change g * 4096 < va + len at hend
  change 0 < len - (4096 - va % 4096) ∧ len - (4096 - va % 4096) ≤ fuel ∧
    (va / 4096 + 1) * 4096 < (g + 1) * 4096 ∧
    g * 4096 < (va / 4096 + 1) * 4096 + (len - (4096 - va % 4096))
  omega

/-- `copyout` of a range that begins before the end of page `g` and ends after its beginning,
where the user has no access to page `g`. -/
theorem kern_copyout_guard {g : ℕ} (hg : g + 1 < 2 ^ 20)
    (hguard : target env pgdir g = none) (hQ : ∀ t, Q false t) (fuel : ℕ) :
    ∀ {va : ℕ} {buf : List UInt8} {s : Mem}, buf ≠ [] → buf.length ≤ fuel →
      va < (g + 1) * PGSIZE → g * PGSIZE < va + buf.length →
      Kern L env E Q (copyoutLoop pgdir fuel va buf) s := by
  induction fuel with
  | zero =>
    intro va buf s hbuf hfuel _ _
    exact absurd (length_eq_zero_iff.1 (Nat.le_zero.1 hfuel)) hbuf
  | succ fuel ih =>
    intro va buf s hbuf hfuel hva hend
    have hdecomp : va / PGSIZE * PGSIZE + va % PGSIZE = va := Nat.div_add_mod' va PGSIZE
    have hle : va / PGSIZE ≤ g :=
      Nat.le_of_lt_succ (Nat.div_lt_of_lt_mul (by rwa [Nat.mul_comm]))
    rw [← hdecomp]
    refine kern_copyoutLoop (by omega) (Nat.mod_lt _ (by decide)) hbuf (fun _ => hQ s)
      fun f hf => ?_
    -- the page is not the last one, so that the range goes on after it
    have hlt : va / PGSIZE < g := lt_of_le_of_ne hle fun he => by
      rw [he, hguard] at hf
      cases hf
    have hlen : (buf.drop (PGSIZE - va % PGSIZE)).length = buf.length - (PGSIZE - va % PGSIZE) :=
      length_drop
    obtain ⟨h1, h2, h3, h4⟩ := next_page hfuel hlt hend
    rw [← hlen] at h1 h2 h4
    exact ih (ne_nil_of_length_pos h1) h2 h3 h4

end Copyout

/-! ## The strings -/

/-- The bytes that a string takes on the stack, with its terminator. -/
def padded (arg : List UInt8) : ℕ := (arg.length + 4) / 4 * 4

def used (argv : List (List UInt8)) : ℕ := (argv.map padded).sum

/-- The addresses of the strings below `o` in the page at `base`. -/
def addrs (base : ℕ) : List (List UInt8) → ℕ → List ℕ
  | [], _ => []
  | arg :: argv, o => (base + (o - padded arg)) :: addrs base argv (o - padded arg)

/-- The page after the strings were put below `o`. -/
def fill : List (List UInt8) → ℕ → Page → Page
  | [], _, p => p
  | arg :: argv, o, p => fill argv (o - padded arg) (p.put (o - padded arg) (arg ++ [0]))

section Strings

variable {arg : List UInt8} {argv : List (List UInt8)} {o base : ℕ}

theorem used_cons : used (arg :: argv) = padded arg + used argv := by simp [used]

theorem length_lt_padded (arg : List UInt8) : arg.length + 1 ≤ padded arg := by
  unfold padded
  omega

theorem padded_lt (arg : List UInt8) : padded arg < arg.length + 5 := by
  unfold padded
  omega

theorem padded_mod (arg : List UInt8) : padded arg % 4 = 0 := Nat.mul_mod_left ..

theorem push_eq {sp : ℕ} (hsp : sp < 2 ^ 32) (h4 : sp % 4 = 0) (hle : padded arg ≤ sp) :
    (sp + 2 ^ 32 - (arg.length + 1)) % 2 ^ 32 / 4 * 4 = sp - padded arg := by
  unfold padded at hle ⊢
  omega

@[simp] theorem length_addrs (argv : List (List UInt8)) (o : ℕ) :
    (addrs base argv o).length = argv.length := by
  induction argv generalizing o with
  | nil => rfl
  | cons arg argv ih => rw [addrs, length_cons, length_cons, ih]

end Strings

theorem Mem.write_self (s : Mem) (f : ℕ) : s.write f (s.page f) = s := by
  rw [Mem.write, Function.update_eq_self]

theorem Mem.write_write (s : Mem) (f : ℕ) (p q : Page) : (s.write f p).write f q = s.write f q := by
  simp only [Mem.write, Function.update_idem]

theorem Mem.page_write (s : Mem) (f : ℕ) (p : Page) : (s.write f p).page f = p :=
  Function.update_self ..

/-- A range that begins below `o` in a page, but before the page, touches the page before. -/
theorem before_page {g o pad n : ℕ} (hlt : o < pad) (hpad : pad < n + 5)
    (hle : pad ≤ (g + 1) * PGSIZE + o) :
    (g + 1) * PGSIZE + o - pad < (g + 1) * PGSIZE ∧
      g * PGSIZE < (g + 1) * PGSIZE + o - pad + (n + 1) := by
  change pad ≤ (g + 1) * 4096 + o at hle
  change (g + 1) * 4096 + o - pad < (g + 1) * 4096 ∧ g * 4096 < (g + 1) * 4096 + o - pad + (n + 1)
  omega

theorem vector_eq {g o n : ℕ} (hg : g + 2 < 2 ^ 20) (ho : o ≤ PGSIZE) (hn : n ≤ PGSIZE) :
    ((g + 1) * PGSIZE + o + 2 ^ 32 - n) % 2 ^ 32 = (g + 1) * PGSIZE + o - n := by
  change o ≤ 4096 at ho
  change n ≤ 4096 at hn
  change ((g + 1) * 4096 + o + 2 ^ 32 - n) % 2 ^ 32 = (g + 1) * 4096 + o - n
  omega

section Push

variable {p : ℕ} {L : Layout} {env : Env} {E : End IState → Prop} {σ : IState} {im : Image} {g : ℕ}

/-- The loop over the arguments, with the stack pointer at `o` in the page after page `g`. -/
theorem execs_pushArgs (hg : g + 2 < 2 ^ 20) (hguard : target env im.pgdir g = none)
    (argv : List (List UInt8)) :
    ∀ {Q : Option (ℕ × List ℕ) → IState × Image → Prop} {argc o : ℕ} {m : Mem},
      argc + argv.length ≤ MAXARG → o ≤ PGSIZE → o % 4 = 0 →
      used argv ≤ (g + 1) * PGSIZE + o →
      (target env im.pgdir (g + 1) = none ∨ o < used argv → ∀ t, Q none (σ, { im with mem := t })) →
      (used argv ≤ o → ∀ t, (∀ f, target env im.pgdir (g + 1) = some f →
          t = m.write f (fill argv o (m.page f))) →
        Q (some ((g + 1) * PGSIZE + (o - used argv), addrs ((g + 1) * PGSIZE) argv o))
          (σ, { im with mem := t })) →
      Execs p L env E Q (pushArgs argv argc ((g + 1) * PGSIZE + o)) (σ, { im with mem := m }) := by
  induction argv with
  | nil =>
    intro Q argc o m _ _ _ _ _ hsome
    exact wp_pure (hsome (Nat.zero_le o) m fun f _ => (m.write_self f).symm)
  | cons arg argv ih =>
    intro Q argc o m hargc ho h4 htotal hnone hsome
    rw [used_cons] at htotal hnone hsome
    rw [length_cons] at hargc
    have h32 : (g + 1) * PGSIZE + o < 2 ^ 32 := by
      change (g + 1) * 4096 + o < 2 ^ 32
      change o ≤ 4096 at ho
      omega
    have hmod : ((g + 1) * PGSIZE + o) % 4 = 0 := by
      change ((g + 1) * 4096 + o) % 4 = 0
      omega
    have hpad := length_lt_padded arg
    have hlen : (arg ++ [0]).length = arg.length + 1 := by simp
    rw [pushArgs, if_neg (by omega), push_eq h32 hmod (by omega)]
    rcases Nat.lt_or_ge o (padded arg) with hlt | hge
    · -- the string begins before the page
      obtain ⟨h1, h2⟩ := before_page hlt (padded_lt arg) (le_trans (Nat.le_add_right ..) htotal)
      exact wp_seq (execs_call rfl (kern_copyout_guard (by omega) hguard
        (fun t => wp_pure (hnone (Or.inr (by omega)) t)) _ (by simp) le_rfl h1
        (by rwa [hlen])))
    · rw [Nat.add_sub_assoc hge]
      refine wp_seq (execs_call rfl (kern_copyout_page (by omega) (by simp)
        (by rw [hlen]; omega) (fun ht => ?_) fun f hf => ?_))
      · exact wp_pure (hnone (Or.inl ht) m)
      · refine wp_seq (ih (by omega) (by omega) ?_ (by omega) (fun hno t => ?_)
          fun hle t ht => ?_)
        · have := padded_mod arg
          omega
        · refine wp_pure (hnone ?_ t)
          rcases hno with hno | hno
          · exact Or.inl hno
          · exact Or.inr (by omega)
        · refine wp_pure ?_
          have := hsome (by omega) t fun f' hf' => ?_
          · rwa [Nat.sub_add_eq] at this
          · obtain rfl : f = f' := Option.some_inj.1 (hf.symm.trans hf')
            rw [ht f hf, Mem.write_write, Mem.page_write, fill]

theorem length_ustack (argc sp : ℕ) (argv : List (List UInt8)) (o : ℕ) :
    (ustack argc sp (addrs base argv o)).length = (3 + argv.length + 1) * 4 := by
  have hsum : ∀ l : List ℕ, (l.flatMap bytes32).length = l.length * 4 := by
    intro l
    induction l with
    | nil => rfl
    | cons x l ih => rw [flatMap_cons, length_append, ih, length_cons]; simp [bytes32]; omega
  rw [ustack, hsum]
  simp
  omega

/-- The bytes of the arguments, with the words before them. -/
def room (argv : List (List UInt8)) : ℕ := used argv + (3 + argv.length + 1) * 4

def stackPage (g : ℕ) (argv : List (List UInt8)) (p : Page) : Page :=
  (fill argv PGSIZE p).put (PGSIZE - room argv)
    (ustack argv.length ((g + 1) * PGSIZE + (PGSIZE - used argv))
      (addrs ((g + 1) * PGSIZE) argv PGSIZE))

variable {Q : ℤ → IState × Image → Prop}

theorem execs_giveUp (im : Image) (hframes : FreeFrames L im.pgdir) {m : Mem}
    (hQ : ∀ t, Q (-1) (σ, { im with mem := t })) :
    Execs p L env E Q (vm .freevm >>= fun _ => pure (-1)) (σ, { im with mem := m }) :=
  wp_seq (execs_call rfl (kern_freevm hframes fun t _ => wp_pure (hQ t)))

/-- The end of `exec`: the words are copied, and the image is committed. -/
theorem execs_finish {sz entry va : ℕ} {buf : List UInt8} {m : Mem}
    (hframes : FreeFrames L im.pgdir) (hcur : FreeFrames L im.cur)
    (hcopy : Kern L env (fun e => E (.stop e)) (fun ok t =>
      (ok = false → ∀ u, Q (-1) (σ, { im with mem := u })) ∧
      (ok = true → ∀ u, (∀ x, (∀ a, im.cur.frameAt a ≠ some x) → u.page x = t.page x) →
        Q 0 (σ, ⟨u, im.pgdir, im.pgdir, sz, entry, va⟩))) (copyout im.pgdir va buf) m) :
    Execs p L env E Q (do
      let ok ← vm (.copyout va buf)
      if ok then do
        vm (.commit sz entry va)
        pure 0
      else do
        vm .freevm
        pure (-1)) (σ, { im with mem := m }) := by
  refine wp_seq (execs_call rfl (wp_conseq hcopy fun ok t h => ?_))
  cases ok with
  | false => exact execs_giveUp im hframes (h.1 rfl)
  | true =>
    refine wp_seq (execs_call (Image.step_commit ..) ?_)
    exact kern_freevm hcur fun u hu => wp_pure (h.2 rfl u hu)

/-- The arguments and the words go onto the stack, or the image is given up. -/
theorem execs_arguments {entry : ℕ} {argv : List (List UInt8)}
    (hg : g + 2 < 2 ^ 20) (hguard : target env im.pgdir g = none)
    (hframes : FreeFrames L im.pgdir) (hcur : FreeFrames L im.cur) (hargc : argv.length ≤ 31)
    (htotal : used argv ≤ (g + 1) * PGSIZE + PGSIZE)
    (hbad : target env im.pgdir (g + 1) = none ∨ PGSIZE < room argv →
      ∀ t, Q (-1) (σ, { im with mem := t }))
    (hgood : ∀ f t, target env im.pgdir (g + 1) = some f → room argv ≤ PGSIZE →
      (∀ x, (∀ a, im.cur.frameAt a ≠ some x) →
        t.page x = (im.mem.write f (stackPage g argv (im.mem.page f))).page x) →
      Q 0 (σ, ⟨t, im.pgdir, im.pgdir, (g + 2) * PGSIZE, entry,
        (g + 1) * PGSIZE + (PGSIZE - room argv)⟩)) :
    Execs p L env E Q (do
      let r ← pushArgs argv 0 ((g + 2) * PGSIZE)
      match r with
      | none => do
          vm .freevm
          pure (-1)
      | some (sp, addrs) => do
          let sp' := (sp + 2 ^ 32 - (3 + argv.length + 1) * 4) % 2 ^ 32
          let ok ← vm (.copyout sp' (ustack argv.length sp addrs))
          if ok then do
            vm (.commit ((g + 2) * PGSIZE) entry sp')
            pure 0
          else do
            vm .freevm
            pure (-1)) (σ, im) := by
  have hsz : (g + 2) * PGSIZE = (g + 1) * PGSIZE + PGSIZE := Nat.succ_mul ..
  rw [show pushArgs argv 0 ((g + 2) * PGSIZE) = pushArgs argv 0 ((g + 1) * PGSIZE + PGSIZE) by
    rw [hsz]]
  refine wp_seq (execs_pushArgs hg hguard argv (by unfold MAXARG; omega) le_rfl (by decide) htotal
    (fun hno t => execs_giveUp im hframes fun u => hbad ?_ u) fun hused t ht => ?_)
  · rcases hno with hno | hno
    · exact Or.inl hno
    · exact Or.inr (lt_of_lt_of_le hno (Nat.le_add_right ..))
  · refine execs_finish hframes hcur ?_
    have hn : (3 + argv.length + 1) * 4 ≤ PGSIZE := by
      unfold PGSIZE
      omega
    have hne : ustack argv.length ((g + 1) * PGSIZE + (PGSIZE - used argv))
        (addrs ((g + 1) * PGSIZE) argv PGSIZE) ≠ [] :=
      ne_nil_of_length_pos (by rw [length_ustack]; omega)
    rw [vector_eq hg (Nat.sub_le ..) hn]
    rcases Nat.lt_or_ge (PGSIZE - used argv) ((3 + argv.length + 1) * 4) with hlt | hge
    · -- the words begin before the page
      have hroom : PGSIZE < room argv := by
        unfold room
        omega
      obtain ⟨h1, h2⟩ := before_page (g := g) (n := (3 + argv.length + 1) * 4 - 1) hlt (by omega)
        (le_trans hn (le_trans (Nat.le_mul_of_pos_left _ (Nat.succ_pos g)) (Nat.le_add_right ..)))
      refine kern_copyout_guard (by omega) hguard (fun u => ⟨fun _ => hbad (Or.inr hroom), nofun⟩)
        _ hne le_rfl h1 ?_
      rw [length_ustack]
      exact lt_of_lt_of_eq h2 (by omega)
    · have hroom : room argv ≤ PGSIZE := by
        unfold room
        omega
      have ho : PGSIZE - used argv - (3 + argv.length + 1) * 4 = PGSIZE - room argv := Nat.sub_sub ..
      rw [Nat.add_sub_assoc hge, ho]
      refine kern_copyout_page (by omega) hne (by rw [length_ustack]; omega)
        (fun hf => ⟨fun _ => hbad (Or.inl hf), nofun⟩) fun f hf => ⟨nofun, fun _ u hu => ?_⟩
      refine hgood f u hf hroom fun x hx => ?_
      rw [hu x hx, ht f hf, Mem.page_write, Mem.write_write]
      rfl

end Push

end Qwin.Vm
