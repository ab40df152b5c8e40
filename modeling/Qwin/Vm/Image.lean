import Qwin.Sys.Exec
import Qwin.Vm.Owned

/-!
# The image that `exec` builds

The steps that `exec` takes on a page directory, carried out by `vm.c`. An `Image` is the
memory with the directory that is being built, and what the process has: its directory, its
size and two registers. `execSem` puts them together with the file system.
-/

namespace Qwin.Vm

open Prog Fs Sys

/-- The memory and the process in the middle of `exec`. -/
structure Image where
  mem : Mem
  -- the directory that `exec` builds
  pgdir : PageDir
  -- `proc->pgdir`, `proc->sz`, `proc->tf->eip` and `proc->tf->esp`
  cur : PageDir
  sz : ℕ
  eip : ℕ
  esp : ℕ

namespace Image

variable {α β : Type}

/-- Run a part of `vm.c` on the memory, and go on with its result. -/
def call (L : Layout) (env : Env) (im : Image) (c : VProg α) (f : α → Image → β × Image) :
    Except Stop (β × Image) :=
  match c.run (Vm.sem L env) im.mem with
  | .error e => .error e
  | .ok (a, m) => .ok (f a { im with mem := m })

def step (L : Layout) (env : Env) (im : Image) : VmAct β → Except Stop (β × Image)
  | .setupkvm => im.call L env (Vm.setupkvm L) fun r im =>
    match r with
    | none => (false, im)
    | some d => (true, { im with pgdir := d })
  | .allocuvm oldsz newsz =>
    im.call L env (Vm.allocuvm im.pgdir oldsz newsz) fun r im => (r.1, { im with pgdir := r.2 })
  | .walk va => im.call L env (walkpgdir im.pgdir va false) fun r im =>
    (r.map fun d => (d.pte va).frame * PGSIZE, im)
  | .store pa bytes => .ok ((), { im with
      mem := im.mem.write (pa / PGSIZE) ((im.mem.page (pa / PGSIZE)).put (pa % PGSIZE) bytes) })
  | .clearpteu va =>
    match im.pgdir.table (PDX va) with
    | none => .ok (false, im)
    | some _ => im.call L env (Vm.clearpteu im.pgdir va) fun d im => (true, { im with pgdir := d })
  | .copyout va bytes => im.call L env (Vm.copyout im.pgdir va bytes) fun r im => (r, im)
  | .freevm => im.call L env (Vm.freevm im.pgdir) fun _ im => ((), im)
  | .commit sz entry sp => im.call L env (Vm.freevm im.cur) fun _ im =>
    ((), { im with cur := im.pgdir, sz := sz, eip := entry, esp := sp })

variable (L : Layout) (env : Env) (im : Image)

theorem step_allocuvm (oldsz newsz : ℕ) :
    im.step L env (.allocuvm oldsz newsz) = im.call L env (Vm.allocuvm im.pgdir oldsz newsz)
      fun r im => (r.1, { im with pgdir := r.2 }) := rfl

theorem step_commit (sz entry sp : ℕ) :
    im.step L env (.commit sz entry sp) = im.call L env (Vm.freevm im.cur) fun _ im =>
      ((), { im with cur := im.pgdir, sz := sz, eip := entry, esp := sp }) := rfl

end Image

/-- `exec` in process `p`, on the file system and the memory. -/
def execSem (p : ℕ) (L : Layout) (env : Env) :
    Sem (Plus (Plus CoreAct DiskAct) VmAct) (IState × Image) (End IState) where
  exec a s :=
    match a with
    | .left a =>
      match (inodeSem p).exec a s.1 with
      | .error e => .error e
      | .ok (r, σ) => .ok (r, σ, s.2)
    | .right a =>
      match s.2.step L env a with
      | .error e => .error (.stop e)
      | .ok (r, im) => .ok (r, s.1, im)

/-! ## Rules for the steps -/

section Rules

variable {α β : Type} {p : ℕ} {L : Layout} {env : Env} {E : End IState → Prop} {σ : IState}
  {im : Image}

/-- What a run of a part of `exec` guarantees. -/
abbrev Execs (p : ℕ) (L : Layout) (env : Env) (E : End IState → Prop)
    (Q : α → IState × Image → Prop) (c : EProg α) (s : IState × Image) : Prop :=
  wp (execSem p L env) (fun _ _ _ => True) E Q c s

variable {s : IState × Image} {Q : α → IState × Image → Prop}

theorem execs_call {γ : Type} {a : VmAct β} {c : VProg γ} {f : γ → Image → β × Image}
    {Q : β → IState × Image → Prop} (ha : im.step L env a = im.call L env c f)
    (h : Kern L env (fun e => E (.stop e))
      (fun r m => Q (f r { im with mem := m }).1 (σ, (f r { im with mem := m }).2)) c im.mem) :
    Execs p L env E Q (vm a) (σ, im) := by
  cases hrun : c.run (Vm.sem L env) im.mem with
  | error e =>
    have hx : (execSem p L env).exec (.right a) (σ, im) = .error (.stop e) := by
      simp [execSem, ha, Image.call, hrun]
    have hE := wp_run_error h hrun
    exact wp_stop trivial hx hE
  | ok r =>
    obtain ⟨r, m⟩ := r
    have hx : (execSem p L env).exec (.right a) (σ, im) =
        .ok ((f r { im with mem := m }).1, σ, (f r { im with mem := m }).2) := by
      simp [execSem, ha, Image.call, hrun]
    have hQ := wp_run_ok h hrun
    exact wp_last trivial hx hQ

def PageDir.withoutUser (pgdir : PageDir) (j : ℕ) : PageDir :=
  pgdir.setPte (j * PGSIZE) ⟨(pgdir.entry j).frame, (pgdir.entry j).flags &&& ~~~ PTE_U⟩

theorem execs_clearpteu {Q : Bool → IState × Image → Prop} {j : ℕ} (hj : j < 2 ^ 20)
    (hnone : im.pgdir.table (j / NPTENTRIES) = none → Q false (σ, im))
    (hsome : ∀ x, im.pgdir.table (j / NPTENTRIES) = some x →
      Q true (σ, { im with pgdir := im.pgdir.withoutUser j })) :
    Execs p L env E Q (vm (.clearpteu (j * PGSIZE))) (σ, im) := by
  cases hx : im.pgdir.table (j / NPTENTRIES) with
  | none =>
    have hs : im.step L env (.clearpteu (j * PGSIZE)) = .ok (false, im) := by
      simp [Image.step, PDX_mul hj, hx]
    have he : (execSem p L env).exec (.right (.clearpteu (j * PGSIZE))) (σ, im) =
        .ok (false, σ, im) := by
      simp [execSem, hs]
    exact wp_last trivial he (hnone hx)
  | some x =>
    have hs : im.step L env (.clearpteu (j * PGSIZE)) = im.call L env
        (clearpteu im.pgdir (j * PGSIZE)) fun d im => (true, { im with pgdir := d }) := by
      simp [Image.step, PDX_mul hj, hx]
    refine execs_call hs (wp_seq (kern_walk hj (fun hnone => ?_) fun _ _ => wp_pure ?_))
    · rw [hx] at hnone
      cases hnone
    · rw [PageDir.pte_mul hj]
      exact hsome x hx

theorem execs_panic {q : Panic}
    (h : E (.stop (.panic q))) : Execs p L env E Q (fs (Fs.panic q)) s := by
  rw [fs, Fs.panic, abort, handle_act]
  exact wp_seq (wp_stop trivial rfl h)

end Rules

end Qwin.Vm
