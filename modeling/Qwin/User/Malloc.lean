import Qwin.Lib.Path
import Qwin.Lib.Spans

/-!
# `malloc` and `free`

`umalloc.c`. Memory is seen through the headers in it: `mem a` is what the header at the
address `a` holds. Addresses count bytes and sizes count headers, which have eight bytes.
The null pointer is zero.

`sbrk` is the world outside. It fails, or it returns a region that lies somewhere behind
the last one. The search loops are given as many passes as there are addresses between
`base` and the end of the last region; `none` is a loop that has not ended by then.
-/

namespace Qwin.User

structure Header where
  ptr : ℕ
  size : ℕ

abbrev HEADER : ℕ := 8

/-- The memory of a program, with the static variables of the allocator. -/
structure Heap where
  mem : ℕ → Header
  -- `&base`
  base : ℕ
  freep : ℕ
  -- what `sbrk` has returned, and the end of the last region
  regions : List Span
  brk : ℕ
  -- what call number `k` of `sbrk` does: fail, or leave a gap
  sbrk : ℕ → Option ℕ
  calls : ℕ

namespace Heap

def setPtr (h : Heap) (a v : ℕ) : Heap :=
  { h with mem := Function.update h.mem a { h.mem a with ptr := v } }

def setSize (h : Heap) (a v : ℕ) : Heap :=
  { h with mem := Function.update h.mem a { h.mem a with size := v } }

def callSbrk (h : Heap) (n : ℕ) : Option ℕ × Heap :=
  match h.sbrk h.calls with
  | none => (none, { h with calls := h.calls + 1 })
  | some gap => (some (h.brk + gap),
      { h with
        calls := h.calls + 1
        brk := h.brk + gap + n
        regions := ⟨h.brk + gap, h.brk + gap + n⟩ :: h.regions })

/-- More passes than a free list has blocks. -/
def rounds (h : Heap) : ℕ := h.brk - h.base

def freeLoop (mem : ℕ → Header) (bp : ℕ) : ℕ → ℕ → Option ℕ
  | 0, _ => none
  | fuel + 1, p =>
    if p < bp ∧ bp < (mem p).ptr then some p
    else if (mem p).ptr ≤ p ∧ (p < bp ∨ bp < (mem p).ptr) then some p
    else freeLoop mem bp fuel (mem p).ptr

def joinNext (h : Heap) (bp p : ℕ) : Heap :=
  if bp + HEADER * (h.mem bp).size = (h.mem p).ptr then
    let h := h.setSize bp ((h.mem bp).size + (h.mem (h.mem p).ptr).size)
    h.setPtr bp (h.mem (h.mem p).ptr).ptr
  else h.setPtr bp (h.mem p).ptr

def joinPrev (h : Heap) (bp p : ℕ) : Heap :=
  if p + HEADER * (h.mem p).size = bp then
    let h := h.setSize p ((h.mem p).size + (h.mem bp).size)
    h.setPtr p (h.mem bp).ptr
  else h.setPtr p bp

def free (h : Heap) (ap : ℕ) : Option Heap := do
  let bp := ap - HEADER
  let p ← freeLoop h.mem bp h.rounds h.freep
  pure { (h.joinNext bp p).joinPrev bp p with freep := p }

def morecore (h : Heap) (nu : ℕ) : Option (ℕ × Heap) :=
  let nu := if nu < 4096 then 4096 else nu
  match h.callSbrk (nu * HEADER % 2 ^ 32) with
  | (none, h) => some (0, h)
  | (some hp, h) => do
      let h ← (h.setSize hp nu).free (hp + HEADER)
      pure (h.freep, h)

/-- `malloc` takes a block of the size it needs out of the list. -/
def takeAll (h : Heap) (prevp p : ℕ) : ℕ × Heap :=
  (p + HEADER, { h.setPtr prevp (h.mem p).ptr with freep := prevp })

def takeTail (h : Heap) (prevp p nunits : ℕ) : ℕ × Heap :=
  let h := h.setSize p ((h.mem p).size - nunits)
  let p := p + HEADER * (h.mem p).size
  (p + HEADER, { h.setSize p nunits with freep := prevp })

/-- The loop of `malloc`: the pointer it returns, or 0. -/
def mallocLoop (nunits : ℕ) : ℕ → ℕ → ℕ → Heap → Option (ℕ × Heap)
  | 0, _, _, _ => none
  | fuel + 1, prevp, p, h =>
    if nunits ≤ (h.mem p).size then
      if (h.mem p).size = nunits then some (h.takeAll prevp p)
      else some (h.takeTail prevp p nunits)
    else if p = h.freep then do
      let (p, h) ← h.morecore nunits
      if p = 0 then pure (0, h)
      else mallocLoop nunits fuel p (h.mem p).ptr h
    else mallocLoop nunits fuel p (h.mem p).ptr h

/-- The number of headers that a block for `nbytes` bytes needs. -/
def nunits (nbytes : ℕ) : ℕ := (nbytes + HEADER - 1) % 2 ^ 32 / HEADER + 1

/-- The first call of `malloc` makes the list of the empty block `base`. -/
def start (h : Heap) : Heap :=
  if h.freep = 0 then { (h.setPtr h.base h.base).setSize h.base 0 with freep := h.base } else h

/-- `malloc`. The list is searched once before `morecore` and once behind it. -/
def malloc (h : Heap) (nbytes : ℕ) : Option (ℕ × Heap) :=
  let h := h.start
  mallocLoop (nunits nbytes) (2 * h.rounds + 2) h.freep (h.mem h.freep).ptr h

end Heap

/-- A program and the blocks it has: the pointers it was given, with the number of bytes it
asked for. -/
structure Program where
  heap : Heap
  live : List (ℕ × ℕ)

namespace Program

def block (h : Heap) (ap : ℕ) : Span :=
  ⟨ap - HEADER, ap - HEADER + HEADER * (h.mem (ap - HEADER)).size⟩

inductive Step : Program → Program → Prop
  | malloc {w : Program} {n ap : ℕ} {h : Heap} (hn : n + 16 < 2 ^ 31)
      (hm : w.heap.malloc n = some (ap, h)) (hap : ap ≠ 0) : Step w ⟨h, (ap, n) :: w.live⟩
  | fail {w : Program} {n : ℕ} {h : Heap} (hn : n + 16 < 2 ^ 31)
      (hm : w.heap.malloc n = some (0, h)) : Step w ⟨h, w.live⟩
  | free {w : Program} {n ap : ℕ} {h : Heap} (hlive : (ap, n) ∈ w.live)
      (hf : w.heap.free ap = some h) : Step w ⟨h, w.live.erase (ap, n)⟩
  -- It writes into one of its blocks, behind the header.
  | write {w : Program} {n ap a : ℕ} {v : Header} (hlive : (ap, n) ∈ w.live)
      (ha : ap - HEADER < a) (hend : a < (block w.heap ap).hi) :
      Step w ⟨{ w.heap with mem := Function.update w.heap.mem a v }, w.live⟩

/-- The memory at the start is arbitrary, and `base` lies below what `sbrk` returns. -/
structure Init (w : Program) : Prop where
  base : 0 < w.heap.base
  brk : w.heap.base + HEADER ≤ w.heap.brk
  freep : w.heap.freep = 0
  regions : w.heap.regions = []
  live : w.live = []

inductive Reachable : Program → Prop
  | init {w : Program} (h : Init w) : Reachable w
  | step {w w' : Program} (h : Reachable w) (hs : Step w w') : Reachable w'

end Program

end Qwin.User
