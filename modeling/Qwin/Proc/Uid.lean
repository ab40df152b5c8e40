import Qwin.Proc.Table

/-!
# User ids across `fork`

Only `sys_setuid` ever assigns `proc->uid`. In particular `fork` does not: the child
starts with the uid that the last owner of its slot left there. So the child has its
parent's uid exactly when that stale value happens to be the same one.
-/

namespace Qwin.Ptable

variable {t t' : Ptable} {cur np : ℕ} {kalloc copyuvm : Bool}

/-! ## What `fork` does -/

theorem allocproc_eq_some (h : t.allocproc kalloc = (some np, t')) :
    t.unusedSlot = some np ∧
      t' = { t.modify np (fun p => { p with state := .embryo, pid := t.nextpid }) with
        nextpid := t.nextpid + 1 } := by
  unfold allocproc at h
  cases hslot : t.unusedSlot with
  | none => simp [hslot] at h
  | some i =>
    cases kalloc with
    | false => simp [hslot] at h
    | true =>
      simp only [hslot, if_true, Prod.mk.injEq, Option.some.injEq] at h
      obtain ⟨rfl, rfl⟩ := h
      exact ⟨rfl, rfl⟩

theorem fork_eq_some (h : t.fork cur kalloc copyuvm = (some np, t')) :
    t.unusedSlot = some np ∧
      ∃ t1, t.allocproc kalloc = (some np, t1) ∧ t' = t1.forkCopy cur np := by
  unfold fork at h
  rcases halloc : t.allocproc kalloc with ⟨_ | i, t1⟩
  · simp [halloc] at h
  · cases copyuvm with
    | false => simp [halloc] at h
    | true =>
      simp only [halloc, if_true, Prod.mk.injEq, Option.some.injEq] at h
      obtain ⟨rfl, rfl⟩ := h
      exact ⟨(allocproc_eq_some halloc).1, t1, rfl, rfl⟩

/-! ## Nothing but `sys_setuid` changes a uid -/

/-- From `t` to `t'` no uid changed, and a slot in use other than `x` was in use
before with the same parent or has been handed to `init`. -/
structure Kept (x : Option ℕ) (t t' : Ptable) : Prop where
  uid : ∀ j, (t'.proc j).uid = (t.proc j).uid
  initproc : t'.initproc = t.initproc
  inUse : ∀ j, x ≠ some j → (t'.proc j).state ≠ .unused →
    ((t.proc j).state ≠ .unused ∧ (t'.proc j).parent = (t.proc j).parent) ∨
      (t'.proc j).parent = some t.initproc

namespace Kept

variable {i : ℕ} {t1 : Ptable}

theorem refl (x : Option ℕ) (t : Ptable) : Kept x t t :=
  ⟨fun _ => rfl, rfl, fun _ _ hs => Or.inl ⟨hs, rfl⟩⟩

variable (h : Kept (some i) t t1)
include h

theorem modify {f : Proc → Proc} (hf : ∀ p, (f p).uid = p.uid) :
    Kept (some i) t (t1.modify i f) := by
  refine ⟨fun j => ?_, h.initproc, fun j hj => ?_⟩
  · rw [modify_proc, ← h.uid j]
    split
    next hji => rw [hji, hf]
    · rfl
  · have hne : j ≠ i := fun hji => hj (by rw [hji])
    rw [modify_proc, if_neg hne]
    exact h.inUse j hj

theorem close (hi : (t1.proc i).state ≠ .unused →
    (t.proc i).state ≠ .unused ∧ (t1.proc i).parent = (t.proc i).parent) : Kept none t t1 := by
  refine ⟨h.uid, h.initproc, fun j _ hs => ?_⟩
  by_cases hj : j = i
  · subst hj
    exact Or.inl (hi hs)
  · exact h.inUse j (fun he => hj (Option.some.inj he).symm) hs

/-- A slot that is given back needs no further account. -/
theorem free {f : Proc → Proc} (hf : ∀ p, (f p).uid = p.uid)
    (hs : ∀ p, (f p).state = .unused) : Kept none t (t1.modify i f) := by
  refine (h.modify hf).close fun hne => ?_
  rw [modify_proc_self, hs] at hne
  exact absurd rfl hne

end Kept

theorem kept_allocproc (t : Ptable) (kalloc : Bool) :
    Kept (t.allocproc kalloc).1 t (t.allocproc kalloc).2 := by
  unfold allocproc
  cases t.unusedSlot with
  | none => exact Kept.refl _ t
  | some np =>
    have h0 : Kept (some np) t (t.modify np fun p =>
        { p with state := .embryo, pid := t.nextpid }) :=
      (Kept.refl _ t).modify fun _ => rfl
    have h1 : Kept (some np) t { t.modify np (fun p =>
        { p with state := .embryo, pid := t.nextpid }) with nextpid := t.nextpid + 1 } :=
      ⟨h0.uid, h0.initproc, h0.inUse⟩
    cases kalloc with
    | true => exact h1
    | false =>
      exact h1.free (f := fun p => { p with state := .unused }) (fun _ => rfl) (fun _ => rfl)

theorem kept_fork (t : Ptable) (cur : ℕ) (kalloc copyuvm : Bool) :
    Kept (t.fork cur kalloc copyuvm).1 t (t.fork cur kalloc copyuvm).2 := by
  have h1 := kept_allocproc t kalloc
  unfold fork
  rcases halloc : t.allocproc kalloc with ⟨_ | np, t1⟩
  · rw [halloc] at h1
    exact h1
  · rw [halloc] at h1
    cases copyuvm with
    | true =>
      change Kept (some np) t (t1.forkCopy cur np)
      exact Kept.modify h1 fun _ => rfl
    | false =>
      exact h1.free (f := fun p => { p with state := .unused }) (fun _ => rfl) (fun _ => rfl)

theorem kept_exit (hcur : (t.proc cur).state = .running) (h : t.exit cur = .ok t') :
    Kept none t t' := by
  unfold exit at h
  split at h
  · cases h
  · cases h
    refine ⟨fun j => ?_, rfl, fun j _ hs => ?_⟩
    · dsimp only
      split_ifs <;> rfl
    · by_cases hj : j = cur
      · subst hj
        dsimp only
        rw [if_pos rfl, if_pos rfl, hcur]
        by_cases hp : (t.proc j).parent = some j
        · exact Or.inr (by simp [hp])
        · exact Or.inl (by simp [hp])
      · dsimp only at hs ⊢
        rw [if_neg hj, if_neg hj] at hs ⊢
        by_cases hp : (t.proc j).parent = some cur
        · exact Or.inr (by rw [if_pos hp])
        · rw [if_neg hp] at hs ⊢
          exact Or.inl ⟨hs, rfl⟩

theorem kept_wait (t : Ptable) (cur : ℕ) : Kept none t (t.wait cur).2 := by
  unfold wait
  cases t.zombieChild cur with
  | none => exact Kept.refl none t
  | some i =>
    dsimp only
    refine (Kept.refl (some i) t).free ?_ ?_
    · exact fun _ => rfl
    · exact fun _ => rfl

theorem kept_kill (t : Ptable) (pid : ℤ) : Kept none t (t.kill pid) := by
  unfold kill
  split
  · exact Kept.refl none t
  next i _ =>
    refine ((Kept.refl (some i) t).modify ?_).close fun hs => ?_
    · exact fun _ => rfl
    · rw [modify_proc_self] at hs ⊢
      exact ⟨fun hu => hs (by simp [hu]), rfl⟩

theorem kept_resched {i : ℕ} {s : ProcState} (hi : ProcState.Live (t.proc i).state) :
    Kept none t (t.modify i fun p => { p with state := s }) := by
  refine ((Kept.refl (some i) t).modify ?_).close fun _ => ?_
  · exact fun _ => rfl
  · rw [modify_proc_self]
    refine ⟨fun hu => ?_, rfl⟩
    rw [hu] at hi
    exact absurd hi (by decide)

def Event.NoSetuid : Event → Prop
  | .setuid _ _ => False
  | _ => True

def created (t : Ptable) : Event → Option ℕ
  | .fork cur kalloc copyuvm => (t.fork cur kalloc copyuvm).1
  | _ => none

theorem kept_step {e : Event} (he : e.NoSetuid) (h : t.step e = some t') :
    Kept (t.created e) t t' := by
  cases e with
  | setuid cur n => exact he.elim
  | exit cur =>
    rw [step, Option.ite_none_right_eq_some] at h
    obtain ⟨hcur, h⟩ := h
    cases hx : t.exit cur with
    | error e => simp [hx, Except.toOption] at h
    | ok u =>
      simp only [hx, Except.toOption, Option.some.injEq] at h
      exact h ▸ kept_exit hcur hx
  | fork cur kalloc copyuvm =>
    rw [step, Option.ite_none_right_eq_some] at h
    obtain ⟨-, ⟨⟩⟩ := h
    exact kept_fork t cur kalloc copyuvm
  | wait cur =>
    rw [step, Option.ite_none_right_eq_some] at h
    obtain ⟨-, ⟨⟩⟩ := h
    exact kept_wait t cur
  | execv cur =>
    rw [step, Option.ite_none_right_eq_some] at h
    obtain ⟨-, ⟨⟩⟩ := h
    exact Kept.refl none t
  | kill cur pid =>
    rw [step, Option.ite_none_right_eq_some] at h
    obtain ⟨-, ⟨⟩⟩ := h
    exact kept_kill t pid
  | resched i s =>
    rw [step, Option.ite_none_right_eq_some] at h
    obtain ⟨⟨hi, -⟩, ⟨⟩⟩ := h
    exact kept_resched hi

/-! ## Parents and children -/

/-- A process whose parent is not the superuser is not the superuser. -/
def Guarded (t : Ptable) : Prop :=
  ∀ p q, (t.proc p).state ≠ .unused → (t.proc p).parent = some q →
    (t.proc q).uid ≠ 0 → (t.proc p).uid ≠ 0

/-- The slot `allocproc` would take holds the uid of `cur` already. -/
def StaleUidMatches (t : Ptable) (cur : ℕ) : Prop :=
  ∀ np, t.unusedSlot = some np → (t.proc np).uid = (t.proc cur).uid

/-- Every successful `fork` of a run takes a slot whose stale uid matches. -/
def ForksMatch (t : Ptable) : List Event → Prop
  | [] => True
  | e :: es =>
    (∀ cur kalloc copyuvm np, e = .fork cur kalloc copyuvm →
      (t.fork cur kalloc copyuvm).1 = some np → t.StaleUidMatches cur) ∧
    ∀ t', t.step e = some t' → t'.ForksMatch es

/-- Every successful `fork` of a run gives the child the uid of its parent. -/
def ChildrenInherit (t : Ptable) : List Event → Prop
  | [] => True
  | e :: es =>
    (∀ cur kalloc copyuvm np t', e = .fork cur kalloc copyuvm →
      t.fork cur kalloc copyuvm = (some np, t') → (t'.proc np).uid = (t.proc cur).uid) ∧
    ∀ t', t.step e = some t' → t'.ChildrenInherit es

/-- The child of a successful `fork` has the uid its slot had before. -/
theorem fork_child (h : t.fork cur kalloc copyuvm = (some np, t')) :
    (t'.proc np).parent = some cur ∧ (t'.proc np).uid = (t.proc np).uid ∧
      (t'.proc cur).uid = (t.proc cur).uid := by
  have hk := kept_fork t cur kalloc copyuvm
  rw [h] at hk
  obtain ⟨-, t1, -, rfl⟩ := fork_eq_some h
  refine ⟨?_, hk.uid np, hk.uid cur⟩
  rw [forkCopy, modify_proc_self]

theorem fork_uid_iff (h : t.fork cur kalloc copyuvm = (some np, t')) :
    (t'.proc np).uid = (t.proc cur).uid ↔ t.StaleUidMatches cur := by
  have hslot := (fork_eq_some h).1
  rw [(fork_child h).2.1]
  constructor
  · intro heq i hi
    rw [hslot, Option.some.injEq] at hi
    exact hi ▸ heq
  · intro hm
    exact hm np hslot

theorem childrenInherit_iff (t : Ptable) (es : List Event) :
    t.ChildrenInherit es ↔ t.ForksMatch es := by
  induction es generalizing t with
  | nil => rfl
  | cons e es ih =>
    rw [ChildrenInherit, ForksMatch]
    refine and_congr ⟨?_, ?_⟩ (forall₂_congr fun u _ => ih u)
    · intro h cur kalloc copyuvm np he hf
      have hfork : t.fork cur kalloc copyuvm = (some np, (t.fork cur kalloc copyuvm).2) :=
        Prod.ext hf rfl
      exact (fork_uid_iff hfork).1 (h cur kalloc copyuvm np _ he hfork)
    · intro h cur kalloc copyuvm np t' he hfork
      exact (fork_uid_iff hfork).2 (h cur kalloc copyuvm np he (by rw [hfork]))

theorem guarded_step {e : Event} (he : e.NoSetuid) (h : t.step e = some t')
    (hinit : (t.proc t.initproc).uid = 0) (hg : t.Guarded)
    (hm : ∀ cur kalloc copyuvm np, e = .fork cur kalloc copyuvm →
      (t.fork cur kalloc copyuvm).1 = some np → t.StaleUidMatches cur) : t'.Guarded := by
  have hk := kept_step he h
  intro p q hp hq
  rw [hk.uid, hk.uid]
  by_cases hnew : t.created e = some p
  · -- a new process, whose parent is the caller of `fork`
    cases e with
    | fork cur kalloc copyuvm =>
      rw [step, Option.ite_none_right_eq_some, Option.some.injEq] at h
      have hf : t.fork cur kalloc copyuvm = (some p, t') := Prod.ext hnew h.2
      rw [(fork_child hf).1, Option.some.injEq] at hq
      rw [hm cur kalloc copyuvm p rfl hnew p (fork_eq_some hf).1, hq]
      exact id
    | _ => cases hnew
  · rcases hk.inUse p hnew hp with ⟨hs, hpar⟩ | hpar
    · rw [hpar] at hq
      exact hg p q hs hq
    · rw [hpar, Option.some.injEq] at hq
      rw [← hq, hinit]
      exact fun hz => absurd rfl hz

theorem guarded_run {es : List Event} (he : ∀ e ∈ es, e.NoSetuid) (h : t.run es = some t')
    (hinit : (t.proc t.initproc).uid = 0) (hg : t.Guarded) (hm : t.ForksMatch es) : t'.Guarded := by
  induction es generalizing t with
  | nil =>
    rw [run, Option.some.injEq] at h
    exact h ▸ hg
  | cons e es ih =>
    rw [run, Option.bind_eq_some_iff] at h
    obtain ⟨u, hu, hr⟩ := h
    have hno := he e List.mem_cons_self
    have hk := kept_step hno hu
    refine ih (fun x hx => he x (List.mem_cons_of_mem e hx)) hr ?_
      (guarded_step hno hu hinit hg hm.1) (hm.2 u hu)
    rw [hk.initproc, hk.uid, hinit]

/-- `init` forks a shell, the shell gives up its privileges and forks. -/
def droppedRun : List Event :=
  [.resched 0 .running, .fork 0 true true, .resched 0 .sleeping, .resched 1 .running,
    .setuid 1 1000]

/-- The child of an unprivileged process is the superuser: its slot was never used. -/
theorem fork_child_of_user_is_root :
    ∃ t t', boot.run droppedRun = some t ∧ t.fork 1 true true = (some 2, t') ∧
      (t.proc 1).uid = 1000 ∧ (t'.proc 2).parent = some 1 ∧ (t'.proc 2).uid = 0 :=
  ⟨_, _, rfl, rfl, rfl, rfl, rfl⟩

/-- Uid inheritance, for runs from any table and so for those from `boot`. Every
successful `fork` of a run gives the child its parent's uid if and only if each of
them takes a slot that already held this uid. In such a run without `sys_setuid`,
while `init` is the superuser, a process whose parent is not the superuser never
becomes it. -/
theorem fork_uid_inherited_iff (t : Ptable) (es : List Event) :
    (t.ChildrenInherit es ↔ t.ForksMatch es) ∧
    ∀ t', t.run es = some t' → (∀ e ∈ es, e.NoSetuid) → (t.proc t.initproc).uid = 0 →
      t.Guarded → t.ForksMatch es → t'.Guarded := by
  refine ⟨childrenInherit_iff t es, ?_⟩
  intro t' hr hno hinit hg hm
  exact guarded_run hno hr hinit hg hm

/-- `init` forks at boot: its child's slot holds the uid 0, and so does `init`. -/
theorem fork_uid_inherited_at_boot :
    ∃ t', boot.run [.resched 0 .running, .fork 0 true true] = some t' ∧
      (t'.proc 1).parent = some 0 ∧ t'.Guarded := by
  refine ⟨_, rfl, rfl, ?_⟩
  refine (fork_uid_inherited_iff boot [.resched 0 .running, .fork 0 true true]).2 _ rfl
    ?_ rfl ?_ ?_
  · simp [Event.NoSetuid]
  · intro p q _ hq
    by_cases hp : p = 0
    · subst hp
      cases hq
    · have hzero : boot.proc p = Proc.zero := by simp [boot, Function.update_of_ne hp]
      rw [hzero] at hq
      cases hq
  · refine ⟨by simp, ?_⟩
    rintro t1 ⟨⟩
    refine ⟨?_, by simp [ForksMatch]⟩
    rintro cur kalloc copyuvm np ⟨⟩ - i ⟨⟩
    rfl

end Qwin.Ptable
