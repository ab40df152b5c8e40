import Mathlib.Data.Set.Basic
import Qwin.Lib.Tokens

/-!
# Monitors

A resource under a lock, with channels that threads sleep on. A thread that goes to sleep
takes the lock of the thread table before it gives back the lock of the resource; a wake-up
and a kill hold the lock of the table. Such a thread ends its program and leaves a job from
which it goes on when it is awake again. A resource that was disposed of cannot be locked any more.

The token of a thread says which locks it holds, what the resource is while it holds the lock,
and on which channels it still owes a wake-up. `Rules` fix what the operations on the resource
may rely on, when a thread may sleep on a channel, and what holds while the lock is free. A debt
lapses at an operation that is only allowed when nobody sleeps on the channel. If the programs
follow the protocol, then a thread sleeps on a channel only as long as it has a reason or a
wake-up is owed.
-/

namespace Qwin.Monitor

open Prog Threads
open Function (update update_of_ne update_self update_eq_self)

inductive Status (C : Type) where
  | awake
  -- past the release of the lock, and not yet asleep
  | falling (c : C)
  | asleep (c : C)
  deriving DecidableEq

structure State (R C J : Type) where
  res : R
  -- the holders of the two locks
  lock : Option ℕ
  table : Option ℕ
  gone : Bool
  status : ℕ → Status C
  killed : ℕ → Bool
  job : ℕ → Option J

/-- The steps beside the operations on the resource. -/
inductive Sync (C J : Type) : Type → Type where
  | acquire : Sync C J Unit
  | release : Sync C J Unit
  | acquireTable : Sync C J Unit
  | releaseTable : Sync C J Unit
  | killed : Sync C J Bool
  | wakeup1 (c : C) : Sync C J Unit
  -- give back the lock with the lock of the table in hand
  | letGo (c : C) : Sync C J Unit
  | sched (c : C) (j : J) : Sync C J Unit
  -- another thread gives the processor back
  | resume : Sync C J Unit
  | kill (q : ℕ) : Sync C J Unit
  | dispose : Sync C J Unit

variable {Op : Type → Type} {R C J : Type}

/-- One step of thread `p`. A thread that spins takes none. -/
def Sync.exec [DecidableEq C] (p : ℕ) {β : Type} (a : Sync C J β) (s : State R C J) :
    Except Unit (β × State R C J) :=
  match a with
  | .acquire =>
    match s.gone, s.lock with
    | false, none => .ok ((), { s with lock := some p })
    | _, _ => .error ()
  | .release => .ok ((), { s with lock := none })
  | .acquireTable =>
    match s.table with
    | some _ => .error ()
    | none => .ok ((), { s with table := some p })
  | .releaseTable => .ok ((), { s with table := none })
  | .killed => .ok (s.killed p, s)
  | .wakeup1 c => .ok ((), { s with
      status := fun q => if s.status q = .asleep c then .awake else s.status q })
  | .letGo c => .ok ((), { s with
      lock := none, status := update s.status p (.falling c) })
  | .sched c j => .ok ((), { s with
      table := none
      status := update s.status p (.asleep c)
      job := update s.job p (some j) })
  | .resume =>
    match s.table with
    | some _ => .error ()
    | none => .ok ((), { s with table := some p, job := update s.job p none })
  | .kill q => .ok ((), { s with
      killed := update s.killed q true
      status := fun q' => match s.status q' with
        | .asleep c => if q' = q then .awake else .asleep c
        | x => x })
  | .dispose => .ok ((), { s with gone := true })

/-- One step of thread `p`; `run` performs the operations. -/
def exec [DecidableEq C] (run : (β : Type) → Op β → R → β × R) (p : ℕ) {β : Type}
    (a : Plus Op (Sync C J) β) (s : State R C J) : Except Unit (β × State R C J) :=
  match a with
  | .left o => .ok ((run β o s.res).1, { s with res := (run β o s.res).2 })
  | .right a => a.exec p s

def sem [DecidableEq C] (run : (β : Type) → Op β → R → β × R) (p : ℕ) :
    Sem (Plus Op (Sync C J)) (State R C J) Unit where
  exec a s := exec run p a s

def op {β : Type} (o : Op β) : Prog (Plus Op (Sync C J)) β := perform (.left o)

def sync {β : Type} (a : Sync C J β) : Prog (Plus Op (Sync C J)) β := perform (.right a)

def wakeup (c : C) : Prog (Plus Op (Sync C J)) Unit := do
  sync .acquireTable
  sync (.wakeup1 c)
  sync .releaseTable

/-- Up to the point where another thread runs. -/
def sleep (c : C) (j : J) : Prog (Plus Op (Sync C J)) Unit := do
  sync .acquireTable
  sync (.letGo c)
  sync (.sched c j)

/-- The end of `sleep`, and then the rest of the call. -/
def awaken (rest : Prog (Plus Op (Sync C J)) Unit) : Prog (Plus Op (Sync C J)) Unit := do
  sync .resume
  sync .releaseTable
  sync .acquire
  rest

def kill (q : ℕ) : Prog (Plus Op (Sync C J)) Unit := do
  sync .acquireTable
  sync (.kill q)
  sync .releaseTable

def State.start (r : R) (killed : ℕ → Bool) : State R C J :=
  ⟨r, none, none, false, fun _ => .awake, killed, fun _ => none⟩

/-! ## The protocol -/

inductive Token (R C : Type) where
  | idle
  | locked (r : R) (owes : Set C)
  -- holds the lock of the table, too
  | both (r : R) (owes : Set C)
  | table
  | falling (c : C)

namespace Token

def HasLock : Token R C → Prop
  | locked _ _ | both _ _ => True
  | _ => False

def HasTable : Token R C → Prop
  | both _ _ | table | falling _ => True
  | _ => False

def Owes (c : C) : Token R C → Prop
  | locked _ D | both _ D => c ∈ D
  | _ => False

def Knows (r : R) : Token R C → Prop
  | locked r' _ | both r' _ => r' = r
  | _ => True

end Token

structure Rules (Op : Type → Type) (R C : Type) where
  -- what an operation requires
  pre : (β : Type) → Op β → R → Prop
  -- what is known where an operation is performed
  allow : (β : Type) → Op β → R → Prop
  -- the channels on which nobody sleeps where an operation is performed
  lapses : (β : Type) → Op β → Set C := fun _ _ => ∅
  -- the reason to sleep on a channel
  waits : C → R → Prop
  -- holds while the lock is free
  inv : R → Prop
  -- holds at all times
  always : R → Prop

variable (run : (β : Type) → Op β → R → β × R) (U : Rules Op R C)

def Sync.pre {β : Type} : Sync C J β → Token R C → Prop
  | .acquire, .idle => True
  | .release, .locked r D => D = ∅ ∧ U.inv r
  | .acquireTable, .idle => True
  | .acquireTable, .locked _ _ => True
  | .releaseTable, .both _ _ => True
  | .releaseTable, .table => True
  | .killed, .locked _ _ => True
  | .wakeup1 _, .both _ _ => True
  | .letGo c, .both r D => D = ∅ ∧ U.inv r ∧ U.waits c r
  | .sched c _, .falling c' => c = c'
  | .resume, .idle => True
  | .kill _, .table => True
  | .kill _, .both _ _ => True
  | .dispose, .idle => True
  | _, _ => False

def Sync.next {β : Type} : Sync C J β → Token R C → Token R C → Prop
  | .acquire, .idle, t => ∃ r, U.inv r ∧ t = .locked r ∅
  | .release, .locked _ _, t => t = .idle
  | .acquireTable, .idle, t => t = .table
  | .acquireTable, .locked r D, t => t = .both r D
  | .releaseTable, .both r D, t => t = .locked r D
  | .releaseTable, .table, t => t = .idle
  | .killed, .locked r D, t => t = .locked r D
  | .wakeup1 c, .both r D, t => t = .both r (D \ {c})
  | .letGo c, .both _ _, t => t = .falling c
  | .sched _ _, .falling _, t => t = .idle
  | .resume, .idle, t => t = .table
  | .kill _, .table, t => t = .table
  | .kill _, .both r D, t => t = .both r D
  | .dispose, .idle, t => t = .idle
  | _, _, _ => False

/-- The debts of a thread that has changed the resource from `r` by an operation. -/
def debts {β : Type} (o : Op β) (D : Set C) (r : R) : Set C :=
  {c | (c ∈ D ∨ U.waits c r ∧ ¬ U.waits c (run β o r).2) ∧ c ∉ U.lapses β o}

def pre {β : Type} (a : Plus Op (Sync C J) β) (t : Token R C) : Prop :=
  match a with
  | .left o => ∃ r D, t = .locked r D ∧ U.pre β o r
  | .right a => a.pre U t

def next {β : Type} (a : Plus Op (Sync C J) β) (t : Token R C) (b : β) (t' : Token R C) : Prop :=
  match a with
  | .left o => ∃ r D, t = .locked r D ∧ U.allow β o r ∧ b = (run β o r).1 ∧
      t' = .locked (run β o r).2 (debts run U o D r)
  | .right a => a.next U t t'

def protocol : Protocol (Plus Op (Sync C J)) (Token R C) where
  pre _ a t := pre U a t
  next _ a t b t' := next run U a t b t'

/-- The program follows the protocol and ends with nothing held. -/
abbrev Ends (c : Prog (Plus Op (Sync C J)) Unit) (t : Token R C) : Prop :=
  c.Follows (protocol run U) (fun _ t' => t' = .idle) t

section Programs

variable {run U} {r : R} {D : Set C}

theorem follows_op {β α : Type} {o : Op β} {k : β → Prog (Plus Op (Sync C J)) α}
    {Q : α → Token R C → Prop} (hpre : U.pre β o r)
    (hk : U.allow β o r → (k (run β o r).1).Follows (protocol run U) Q
      (.locked (run β o r).2 (debts run U o D r))) :
    (op o >>= k).Follows (protocol run U) Q (.locked r D) := by
  refine follows_act.2 ⟨⟨r, D, rfl, hpre⟩, ?_⟩
  rintro _ _ ⟨_, _, ⟨⟩, hallow, rfl, rfl⟩
  exact hk hallow

theorem takes_wakeup {c : C} :
    Takes (protocol run U) (.locked r D) (.locked r (D \ {c}))
      (wakeup c : Prog (Plus Op (Sync C J)) Unit) := by
  refine follows_act.2 ⟨trivial, ?_⟩
  rintro _ _ rfl
  refine follows_act.2 ⟨trivial, ?_⟩
  rintro _ _ rfl
  refine follows_act.2 ⟨trivial, ?_⟩
  rintro _ _ rfl
  rfl

theorem ends_sleep {c : C} {j : J} (hinv : U.inv r) (hc : U.waits c r) :
    Ends run U (sleep c j) (.locked r ∅) := by
  refine follows_act.2 ⟨trivial, ?_⟩
  rintro _ _ rfl
  refine follows_act.2 ⟨⟨rfl, hinv, hc⟩, ?_⟩
  rintro _ _ rfl
  refine follows_act.2 ⟨rfl, ?_⟩
  rintro _ _ rfl
  rfl

theorem ends_release (hinv : U.inv r) :
    Ends run U (sync .release : Prog (Plus Op (Sync C J)) Unit) (.locked r ∅) := by
  refine follows_perform ⟨rfl, hinv⟩ ?_
  rintro _ _ rfl
  rfl

theorem ends_acquire {k : Unit → Prog (Plus Op (Sync C J)) Unit}
    (hk : ∀ r, U.inv r → Ends run U (k ()) (.locked r ∅)) :
    Ends run U (sync .acquire >>= k) .idle := by
  refine follows_act.2 ⟨trivial, ?_⟩
  rintro _ _ ⟨r, hinv, rfl⟩
  exact hk r hinv

theorem ends_awaken {rest : Prog (Plus Op (Sync C J)) Unit}
    (hrest : ∀ r, U.inv r → Ends run U rest (.locked r ∅)) : Ends run U (awaken rest) .idle := by
  refine follows_act.2 ⟨trivial, ?_⟩
  rintro _ _ rfl
  refine follows_act.2 ⟨trivial, ?_⟩
  rintro _ _ rfl
  exact ends_acquire hrest

/-- A kill may come from a thread that holds the lock of the resource, or none. -/
theorem takes_kill {q : ℕ} {t : Token R C} (ht : t = .idle ∨ ∃ r D, t = .locked r D) :
    Takes (protocol run U) t t (kill q : Prog (Plus Op (Sync C J)) Unit) := by
  rcases ht with rfl | ⟨r, D, rfl⟩ <;>
  · refine follows_act.2 ⟨trivial, ?_⟩
    rintro _ _ rfl
    refine follows_act.2 ⟨trivial, ?_⟩
    rintro _ _ rfl
    refine follows_act.2 ⟨trivial, ?_⟩
    rintro _ _ rfl
    rfl

end Programs

/-! ## The tokens agree with the state -/

/-- The thread sleeps on `c`, or nothing can keep it from it. -/
def State.Sleeps (s : State R C J) (c : C) (q : ℕ) : Prop :=
  s.status q = .asleep c ∨ s.status q = .falling c

/-- A step that the rules allow. -/
def Allowed (U : Rules Op R C) (β : Type) (_ : ℕ) (a : Plus Op (Sync C J) β) (s : State R C J) :
    Prop :=
  ∀ o, a = .left o → U.allow β o s.res ∧ ∀ c ∈ U.lapses β o, ∀ q, ¬ s.Sleeps c q

structure Sound (s : State R C J) (tok : ℕ → Token R C) : Prop where
  lock : Holder s.lock Token.HasLock tok
  table : Holder s.table Token.HasTable tok
  knows : ∀ p, (tok p).Knows s.res
  inv : s.lock = none → U.inv s.res
  always : U.always s.res
  falling : ∀ q c, s.status q = .falling c ↔ tok q = .falling c
  waits : ∀ c q, s.Sleeps c q → U.waits c s.res ∨ ∃ p, (tok p).Owes c

section Step

variable {run U} {s s' : State R C J} {tok : ℕ → Token R C} {p : ℕ} {t : Token R C} {r : R} {D : Set C}

theorem Token.knows_of_not_hasLock (h : ¬ t.HasLock) : t.Knows r := by
  cases t with
  | idle | table | falling => trivial
  | locked | both => exact absurd trivial h

section

variable (h : Sound U s tok)
include h

section

variable (hl : Holder s'.lock Token.HasLock (update tok p t))
  (ht : Holder s'.table Token.HasTable (update tok p t))
include hl ht

/-- A step that moves one token. What others know is about the resource only while they hold
its lock, and then it is not changed. A thread that sleeps after the step has a reason, or is
owed a wake-up, or it slept before; then its reason is still there. -/
theorem Sound.move (hk : t.Knows s'.res) (hres : s'.res = s.res ∨ (tok p).HasLock)
    (hinv : s'.lock = none → U.inv s'.res) (halways : U.always s'.res)
    (hf : ∀ q c, s'.status q = .falling c ↔ update tok p t q = .falling c)
    (hw : ∀ c q, s'.Sleeps c q → U.waits c s'.res ∨ t.Owes c ∨
      s.Sleeps c q ∧ (U.waits c s.res → U.waits c s'.res) ∧ ¬ (tok p).Owes c) :
    Sound U s' (update tok p t) := by
  refine ⟨hl, ht, fun q => ?_, hinv, halways, hf, fun c q hq => ?_⟩
  · by_cases hq : q = p
    · subst hq
      rwa [update_self]
    · rw [update_of_ne hq]
      rcases hres with hres | hlock
      · rw [hres]
        exact h.knows q
      · exact Token.knows_of_not_hasLock fun hother => hq (h.lock.unique hlock hother)
  · rcases hw c q hq with hreason | howes | ⟨hold, hkeep, hnot⟩
    · exact Or.inl hreason
    · exact Or.inr ⟨p, by rwa [update_self]⟩
    · rcases h.waits c q hold with hreason | ⟨p', hp'⟩
      · exact Or.inl (hkeep hreason)
      · have hne : p' ≠ p := by
          rintro rfl
          exact hnot hp'
        exact Or.inr ⟨p', by rwa [update_of_ne hne]⟩

/-- A step that leaves the resource and the sleepers alone. -/
theorem Sound.keep (hk : t.Knows s.res) (hres : s'.res = s.res) (hst : s'.status = s.status)
    (hinv : s'.lock = none → U.inv s.res) (hf : ∀ c, t = .falling c ↔ tok p = .falling c)
    (ho : ∀ c, (tok p).Owes c → t.Owes c) : Sound U s' (update tok p t) := by
  refine h.move hl ht (hres ▸ hk) (Or.inl hres) (hres ▸ hinv) (hres ▸ h.always) ?_ ?_
  · intro q c
    rw [hst, h.falling q c]
    by_cases hq : q = p
    · subst hq
      rw [update_self, hf]
    · rw [update_of_ne hq]
  · intro c q hq
    have hold : s.Sleeps c q := by rwa [State.Sleeps, hst] at hq
    by_cases howes : (tok p).Owes c
    · exact Or.inr (Or.inl (ho c howes))
    · refine Or.inr (Or.inr ⟨hold, ?_, howes⟩)
      rw [hres]
      exact id

end

theorem Sound.res_eq (ht : tok p = .locked r D ∨ tok p = .both r D) : r = s.res := by
  have hk := h.knows p
  rcases ht with ht | ht <;>
  · rw [ht] at hk
    exact hk

/-- A thread that holds the lock of the table and does not fall asleep finds nobody who does. -/
theorem Sound.not_falling (hp : (tok p).HasTable)
    (hnot : ∀ c, tok p ≠ .falling c) (q : ℕ) (c : C) : s.status q ≠ .falling c := by
  intro hq
  have htok := (h.falling q c).1 hq
  have hhas : (tok q).HasTable := by
    rw [htok]
    trivial
  rw [h.table.unique hp hhas] at htok
  exact hnot c htok

theorem sound_op {β : Type} {o : Op β} (ht : tok p = .locked r D)
    (hlapse : ∀ c ∈ U.lapses β o, ∀ q, ¬ s.Sleeps c q)
    (halways : U.always (run β o r).2) : Sound U { s with res := (run β o r).2 }
      (update tok p (.locked (run β o r).2 (debts run U o D r))) := by
  have hr := h.res_eq (Or.inl ht)
  have hlock : (tok p).HasLock := by
    rw [ht]
    trivial
  refine h.move (h.lock.keep ?_) (h.table.keep ?_) rfl (Or.inr hlock) ?_ halways ?_ ?_
  · rw [ht]
    exact Iff.rfl
  · rw [ht]
    exact Iff.rfl
  · intro hnone
    have hsome := (h.lock p).2 hlock
    rw [show s.lock = none from hnone] at hsome
    cases hsome
  · intro q c
    rw [h.falling q c]
    by_cases hq : q = p
    · subst hq
      rw [update_self, ht]
      simp
    · rw [update_of_ne hq]
  · intro c q hq
    have hnot : c ∉ U.lapses β o := fun hc => hlapse c hc q hq
    by_cases howes : (tok p).Owes c
    · rw [ht] at howes
      exact Or.inr (Or.inl ⟨Or.inl howes, hnot⟩)
    · by_cases hgone : U.waits c r ∧ ¬ U.waits c (run β o r).2
      · exact Or.inr (Or.inl ⟨Or.inr hgone, hnot⟩)
      · refine Or.inr (Or.inr ⟨hq, fun hreason => ?_, howes⟩)
        rw [← hr] at hreason
        exact not_not.1 fun hn => hgone ⟨hreason, hn⟩

/-- Nobody sleeps on `c` after a wake-up on it, and the other sleepers sleep on. -/
theorem sound_wakeup1 [DecidableEq C] {c : C} (ht : tok p = .both r D) :
    Sound U { s with status := fun q => if s.status q = .asleep c then .awake else s.status q }
      (update tok p (.both r (D \ {c}))) := by
  have hfall := h.not_falling (p := p) (by rw [ht]; trivial) (by simp [ht])
  have hst : ∀ q x, (if s.status q = .asleep c then Status.awake else s.status q) = x →
      x ≠ .awake → s.status q = x ∧ x ≠ .asleep c := by
    intro q x hx hne
    split at hx
    · exact absurd hx.symm hne
    next hc => exact ⟨hx, fun he => hc (hx.trans he)⟩
  refine h.move (h.lock.keep ?_) (h.table.keep ?_) (h.res_eq (Or.inr ht)) (Or.inl rfl) h.inv
    h.always ?_ ?_
  · rw [ht]
    exact Iff.rfl
  · rw [ht]
    exact Iff.rfl
  · intro q c'
    refine iff_of_false (fun hq => hfall q c' (hst q _ hq (by simp)).1) fun hq => ?_
    by_cases hqp : q = p
    · subst hqp
      rw [update_self] at hq
      cases hq
    · rw [update_of_ne hqp] at hq
      exact hfall q c' ((h.falling q c').2 hq)
  · rintro c' q (hq | hq)
    · obtain ⟨hold, hne⟩ := hst q _ hq (by simp)
      have hcc : c' ≠ c := fun he => hne (by rw [he])
      by_cases howes : (tok p).Owes c'
      · rw [ht] at howes
        exact Or.inr (Or.inl ⟨howes, hcc⟩)
      · exact Or.inr (Or.inr ⟨Or.inl hold, id, howes⟩)
    · exact absurd (hst q _ hq (by simp)).1 (hfall q c')

theorem sound_letGo {c : C} (ht : tok p = .both r ∅) (hinv : U.inv r)
    (hc : U.waits c r) : Sound U { s with lock := none, status := update s.status p (.falling c) }
      (update tok p (.falling c)) := by
  have hr := h.res_eq (Or.inr ht)
  refine h.move (h.lock.release ?_ id) (h.table.keep ?_) trivial (Or.inl rfl) (fun _ => hr ▸ hinv)
    h.always ?_ ?_
  · rw [ht]
    trivial
  · rw [ht]
    exact Iff.rfl
  · exact fun q c' => update_eq_iff (by simp) (h.falling q c')
  · intro c' q hq
    by_cases hqp : q = p
    · subst hqp
      have hcc : c' = c := by simpa [State.Sleeps, eq_comm] using hq
      rw [hcc]
      exact Or.inl (hr ▸ hc)
    · refine Or.inr (Or.inr ⟨?_, id, ?_⟩)
      · simpa [State.Sleeps, update_of_ne hqp] using hq
      · rw [ht]
        exact Set.notMem_empty c'

theorem sound_sched {c : C} {j : J} (ht : tok p = .falling c) :
    Sound U { s with
        table := none
        status := update s.status p (.asleep c)
        job := update s.job p (some j) }
      (update tok p .idle) := by
  have hp := (h.falling p c).2 ht
  refine h.move (h.lock.keep ?_) (h.table.release ?_ id) trivial (Or.inl rfl) h.inv h.always ?_ ?_
  · rw [ht]
    exact Iff.rfl
  · rw [ht]
    trivial
  · exact fun q c' => update_eq_iff (by simp) (h.falling q c')
  · intro c' q hq
    refine Or.inr (Or.inr ⟨?_, id, ?_⟩)
    · by_cases hqp : q = p
      · subst hqp
        have hcc : c = c' := by simpa [State.Sleeps] using hq
        exact Or.inr (hcc ▸ hp)
      · simpa [State.Sleeps, update_of_ne hqp] using hq
    · rw [ht]
      exact id

theorem sound_kill {q : ℕ} :
    Sound U { s with
        killed := update s.killed q true
        status := fun q' => match s.status q' with
          | .asleep c => if q' = q then .awake else .asleep c
          | x => x } tok := by
  refine ⟨h.lock, h.table, h.knows, h.inv, h.always, fun q' c => ?_, fun c q' hq => ?_⟩
  · rw [← h.falling q' c]
    dsimp only
    cases s.status q' with
    | awake | falling => rfl
    | asleep c' => by_cases hq : q' = q <;> simp [hq]
  · refine h.waits c q' ?_
    rw [State.Sleeps] at hq ⊢
    dsimp only at hq
    cases hst : s.status q' with
    | awake | falling =>
      rw [hst] at hq
      exact hq
    | asleep c' =>
      rw [hst] at hq
      dsimp only at hq
      split at hq
      · simp at hq
      · exact hq

theorem sound_sync [DecidableEq C] {β : Type} {a : Sync C J β} {b : β}
    (hpre : a.pre U (tok p)) (hx : a.exec p s = .ok (b, s')) :
    ∃ t, a.next U (tok p) t ∧ Sound U s' (update tok p t) := by
  cases a with
  | acquire =>
    cases ht : tok p <;> rw [ht] at hpre <;> try exact hpre.elim
    have hlock := h.lock
    have hinv := h.inv
    simp only [Sync.exec] at hx
    split at hx <;> cases hx
    next hnone =>
    rw [hnone] at hlock
    refine ⟨.locked s.res ∅, ⟨s.res, hinv hnone, rfl⟩, h.keep (hlock.acquire trivial)
      (h.table.keep ?_) rfl rfl rfl nofun ?_ ?_⟩ <;> simp [ht, Token.HasTable, Token.Owes]
  | release =>
    cases ht : tok p <;> rw [ht] at hpre <;> try exact hpre.elim
    obtain ⟨rfl, hinv⟩ := hpre
    cases hx
    refine ⟨.idle, rfl, h.keep (h.lock.release ?_ id) (h.table.keep ?_) trivial rfl rfl
      (fun _ => h.res_eq (Or.inl ht) ▸ hinv) ?_ ?_⟩ <;>
      simp [ht, Token.HasLock, Token.HasTable, Token.Owes]
  | acquireTable =>
    have htable := h.table
    have hknows := h.knows p
    simp only [Sync.exec] at hx
    split at hx <;> cases hx
    next hnone =>
    rw [hnone] at htable
    cases ht : tok p <;> rw [ht] at hpre hknows <;> try exact hpre.elim
    · refine ⟨.table, rfl, h.keep (h.lock.keep ?_) (htable.acquire trivial) trivial rfl rfl h.inv
        ?_ ?_⟩ <;> simp [ht, Token.HasLock, Token.Owes]
    · refine ⟨_, rfl, h.keep (h.lock.keep ?_) (htable.acquire trivial) hknows rfl rfl h.inv
        ?_ ?_⟩ <;> simp [ht, Token.HasLock, Token.Owes]
  | releaseTable =>
    have hknows := h.knows p
    cases hx
    cases ht : tok p <;> rw [ht] at hpre hknows <;> try exact hpre.elim
    · refine ⟨_, rfl, h.keep (h.lock.keep ?_) (h.table.release ?_ id) hknows rfl rfl h.inv
        ?_ ?_⟩ <;> simp [ht, Token.HasLock, Token.HasTable, Token.Owes]
    · refine ⟨_, rfl, h.keep (h.lock.keep ?_) (h.table.release ?_ id) trivial rfl rfl h.inv
        ?_ ?_⟩ <;> simp [ht, Token.HasLock, Token.HasTable, Token.Owes]
  | killed =>
    cases ht : tok p <;> rw [ht] at hpre <;> try exact hpre.elim
    cases hx
    refine ⟨_, rfl, ?_⟩
    rwa [← ht, update_eq_self]
  | wakeup1 c =>
    cases ht : tok p <;> rw [ht] at hpre <;> try exact hpre.elim
    cases hx
    exact ⟨_, rfl, sound_wakeup1 h ht⟩
  | letGo c =>
    cases ht : tok p <;> rw [ht] at hpre <;> try exact hpre.elim
    obtain ⟨rfl, hinv, hc⟩ := hpre
    cases hx
    exact ⟨_, rfl, sound_letGo h ht hinv hc⟩
  | sched c j =>
    cases ht : tok p <;> rw [ht] at hpre <;> try exact hpre.elim
    cases hpre
    cases hx
    exact ⟨_, rfl, sound_sched h ht⟩
  | resume =>
    cases ht : tok p <;> rw [ht] at hpre <;> try exact hpre.elim
    have htable := h.table
    simp only [Sync.exec] at hx
    split at hx <;> cases hx
    next hnone =>
    rw [hnone] at htable
    refine ⟨.table, rfl, h.keep (h.lock.keep ?_) (htable.acquire trivial) trivial rfl rfl h.inv
      ?_ ?_⟩ <;> simp [ht, Token.HasLock, Token.Owes]
  | kill q =>
    cases hx
    cases ht : tok p <;> rw [ht] at hpre <;> try exact hpre.elim
    all_goals
      refine ⟨_, rfl, ?_⟩
      rw [← ht, update_eq_self]
      exact sound_kill h
  | dispose =>
    cases ht : tok p <;> rw [ht] at hpre <;> try exact hpre.elim
    cases hx
    refine ⟨.idle, rfl, h.keep (h.lock.keep ?_) (h.table.keep ?_) trivial rfl rfl h.inv ?_ ?_⟩ <;>
      simp [ht]

end

theorem sound_step [DecidableEq C] {β : Type} {a : Plus Op (Sync C J) β} {b : β}
    (hop : ∀ (β : Type) (o : Op β) r, U.pre β o r → U.allow β o r → U.always r →
      U.always (run β o r).2)
    (h : Sound U s tok) (hallow : Allowed U β p a s)
    (hpre : pre U a (tok p)) (hx : exec run p a s = .ok (b, s')) :
    ∃ t, next run U a (tok p) b t ∧ Sound U s' (update tok p t) := by
  cases a with
  | left o =>
    obtain ⟨r, D, ht, hpre⟩ := hpre
    obtain rfl := h.res_eq (Or.inl ht)
    cases hx
    obtain ⟨hallow, hlapse⟩ := hallow o rfl
    exact ⟨_, ⟨_, D, ht, hallow, rfl, rfl⟩, sound_op h ht hlapse (hop _ o _ hpre hallow h.always)⟩
  | right a => exact sound_sync h hpre hx

end Step

/-! ## Runs -/

section Runs

variable {run U} {start : ℕ → State R C J → Prog (Plus Op (Sync C J)) Unit → Prop}
  {r₀ : R} {killed : ℕ → Bool} {m : Threads ℕ (Plus Op (Sync C J)) (State R C J)}

theorem sound_start (hinv : U.inv r₀) (halways : U.always r₀) :
    Sound U (State.start r₀ killed : State R C J) fun _ => .idle where
  lock p := by simp [State.start, Token.HasLock]
  table p := by simp [State.start, Token.HasTable]
  knows _ := trivial
  inv _ := hinv
  always := halways
  falling q c := by simp [State.start]
  waits c q h := by simp [State.Sleeps, State.start] at h

theorem certified [DecidableEq C] (hinv : U.inv r₀) (halways : U.always r₀)
    (hop : ∀ (β : Type) (o : Op β) r, U.pre β o r → U.allow β o r → U.always r →
      U.always (run β o r).2)
    (hstart : ∀ p s c, start p s c → Ends run U c .idle)
    (h : Reachable (sem run) start (Allowed U) (State.start r₀ killed) m) :
    Certified (protocol run U) (Sound U) .idle m :=
  Certified.of_reachable (sound_start hinv halways) hstart
    (fun _ _ _ _ _ _ _ hallow hx hsound hpre => sound_step hop hsound hallow hpre hx) h

variable (h : Certified (protocol run U) (Sound U) .idle m)
include h

theorem pre_of_certified {p : ℕ} {β : Type} {o : Op β} {k : β → Prog (Plus Op (Sync C J)) Unit}
    (hp : m.prog p = some (.act (.left o) k)) : U.pre β o m.state.res := by
  obtain ⟨tok, hsound, hall⟩ := h
  have hc := hall p
  rw [hp] at hc
  obtain ⟨r, D, ht, hpre⟩ := (follows_act.1 hc).1
  rwa [hsound.res_eq (Or.inl ht)] at hpre

theorem always_of_certified : U.always m.state.res := by
  obtain ⟨tok, hsound, -⟩ := h
  exact hsound.always

theorem inv_of_certified (hfree : m.state.lock = none) : U.inv m.state.res := by
  obtain ⟨tok, hsound, -⟩ := h
  exact hsound.inv hfree

theorem waits_of_certified
    (hfree : m.state.lock = none) {c : C} {p : ℕ} (hp : m.state.status p = .asleep c) :
    U.waits c m.state.res := by
  obtain ⟨tok, hsound, -⟩ := h
  refine (hsound.waits c p (Or.inl hp)).resolve_right ?_
  rintro ⟨q, hq⟩
  have hlock : (tok q).HasLock := by
    cases ht : tok q <;> rw [ht] at hq <;> trivial
  have hsome := (hsound.lock q).2 hlock
  rw [hfree] at hsome
  cases hsome

end Runs

end Qwin.Monitor
