import CsoMalloc.Mm

/-! The driver of mdriver.c: the list of payload ranges, and the two functions
that replay a trace, one to check the allocator and one to measure how well it
uses space. A program that exits, faults, fails an assertion or never returns
yields no state. -/

namespace CsoMalloc

open ByteMemory

def alignment : Nat := 8

/-- The conversion of an `int` to a 32-bit word. -/
def word (i : Int) : Nat := (i % 2 ^ 32).toNat

/-- `range_t`: the first and the last address of a payload. -/
structure Range where
  lo : Nat
  hi : Nat
  deriving DecidableEq

/-- The messages that reach `malloc_error`, with the values they print. -/
inductive Message where
  | initFailed
  | mallocFailed
  | reallocFailed
  | notPreserved
  | notAligned (lo : Nat)
  | outsideHeap (lo hi heapLo heapHi : Nat)
  | overlaps (lo hi : Nat) (p : Range)
  deriving DecidableEq

/-- `add_range`, with the range list behind `*ranges` and the message reported
when it returns 0. The assertion on the size may fail. -/
def addRange (heapLo heapHi : Nat) (ranges : List Range) (lo : Nat) (size : Int) :
    Option (List Range × Option Message) :=
  let hi := wsub (wadd lo (word size)) 1
  if ¬ size > 0 then none
  else if lo % alignment ≠ 0 then some (ranges, some (.notAligned lo))
  else if lo < heapLo ∨ lo > heapHi ∨ hi < heapLo ∨ hi > heapHi then
    some (ranges, some (.outsideHeap lo hi heapLo heapHi))
  else
    match ranges.find? fun p => (lo ≥ p.lo ∧ lo ≤ p.hi) ∨ (hi ≥ p.lo ∧ hi ≤ p.hi) with
    | some p => some (ranges, some (.overlaps lo hi p))
    | none => some (⟨lo, hi⟩ :: ranges, none)

/-- `remove_range`: unlink the first record that starts at `lo`. -/
def removeRange : List Range → Nat → List Range
  | [], _ => []
  | p :: ranges, lo => if p.lo = lo then ranges else p :: removeRange ranges lo

inductive OpType where
  | alloc
  | free
  | realloc
  deriving DecidableEq

structure TraceOp where
  type : OpType
  index : Int
  size : Int
  deriving DecidableEq

/-- `trace_t`, less the two arrays that the replays write. -/
structure Trace where
  numIds : Int
  ops : List TraceOp

structure Report where
  tracenum : Int
  opnum : Nat
  message : Message

/-- What `eval_mm_valid` works on: the allocator, the range list, the arrays of
the trace and the errors reported so far. -/
structure Driver where
  heap : State
  ranges : List Range
  blocks : Int → Nat
  blockSizes : Int → Nat
  errors : List Report

namespace Driver

def mallocError (d : Driver) (tracenum : Int) (opnum : Nat) (msg : Message) : Driver :=
  { d with errors := d.errors ++ [⟨tracenum, opnum, msg⟩] }

/-- `add_range` on the driver's list, within the present bounds of the heap. -/
def addRange (d : Driver) (lo : Nat) (size : Int) (tracenum : Int) (opnum : Nat) :
    Option (Driver × Bool) :=
  (CsoMalloc.addRange d.heap.memHeapLo d.heap.memHeapHi d.ranges lo size).map fun r =>
    match r.2 with
    | none => ({ d with ranges := r.1 }, true)
    | some msg => ({ d with ranges := r.1 }.mallocError tracenum opnum msg, false)

/-- Fill a payload with the low byte of its id and remember it. -/
def remember (d : Driver) (index : Int) (p : Nat) (size : Int) : Driver :=
  { d with
    heap := { d.heap with
      mem := memset d.heap.mem p (UInt8.ofNat (word index &&& 0xFF)) (word size) }
    blocks := Function.update d.blocks index p
    blockSizes := Function.update d.blockSizes index (word size) }

end Driver

/-- A plain `char` promoted to `int`; it is signed. -/
def charToInt (c : UInt8) : Int := if c.toNat < 128 then c.toNat else c.toNat - 256

/-- The loop of `eval_mm_valid` over the bytes that `mm_realloc` had to keep. -/
def preserved (m : Mem) (newp : Nat) (index : Int) (oldsize : Int) : Bool :=
  (List.range oldsize.toNat).all fun j =>
    charToInt (m (wadd newp j)) = ((word index &&& 0xFF : Nat) : Int)

/-- One turn of the loop of `eval_mm_valid`. The flag is false when the function
returns 0 there. -/
def validOp (tracenum : Int) (i : Nat) (op : TraceOp) (d : Driver) : Option (Driver × Bool) :=
  match op.type with
  | .alloc => do
    let (heap, p) ← mmMalloc d.heap (word op.size)
    let d := { d with heap := heap }
    if p = 0 then
      return (d.mallocError tracenum i .mallocFailed, false)
    let (d, ok) ← d.addRange p op.size tracenum i
    if ok = false then
      return (d, false)
    return (d.remember op.index p op.size, true)
  | .realloc => do
    let oldp := d.blocks op.index
    let (heap, newp) ← mmRealloc d.heap oldp (word op.size)
    let d := { d with heap := heap }
    if newp = 0 then
      return (d.mallocError tracenum i .reallocFailed, false)
    let d := { d with ranges := removeRange d.ranges oldp }
    let (d, ok) ← d.addRange newp op.size tracenum i
    if ok = false then
      return (d, false)
    let oldsize := toInt (d.blockSizes op.index)
    let oldsize := if op.size < oldsize then op.size else oldsize
    if preserved d.heap.mem newp op.index oldsize = false then
      return (d.mallocError tracenum i .notPreserved, false)
    return (d.remember op.index newp op.size, true)
  | .free => do
    let p := d.blocks op.index
    let d := { d with ranges := removeRange d.ranges p }
    let heap ← mmFree d.heap p
    return ({ d with heap := heap }, true)

def validLoop (tracenum : Int) : Nat → List TraceOp → Driver → Option (Driver × Int)
  | _, [], d => some (d, 1)
  | i, op :: ops, d => do
    let (d, ok) ← validOp tracenum i op d
    if ok = false then
      return (d, 0)
    validLoop tracenum (i + 1) ops d

/-- `eval_mm_valid`, given the arena and the page size that `mm_init` finds. -/
def evalMmValid (arena pagesize : Nat) (trace : Trace) (tracenum : Int) (d : Driver) :
    Option (Driver × Int) := do
  let d := { d with heap := d.heap.memResetBrk, ranges := [] }
  let (heap, r) ← mmInit arena pagesize d.heap
  let d := { d with heap := heap }
  if r < 0 then
    return (d.mallocError tracenum 0 .initFailed, 0)
  validLoop tracenum 0 trace.ops d

/-- Why `eval_mm_util` has no result: `app_error` left the program, an `int`
overflowed, or the allocator never returned. -/
inductive Halt where
  | appError (msg : Message)
  | overflow
  | divergence

/-- The value of an `int` expression, which has to be representable. -/
def checkInt (i : Int) : Except Halt Int :=
  if -2 ^ 31 ≤ i ∧ i < 2 ^ 31 then .ok i else .error .overflow

def orDiverge {α : Type} : Option α → Except Halt α
  | none => .error .divergence
  | some a => .ok a

structure Util where
  heap : State
  blocks : Int → Nat
  blockSizes : Int → Nat
  totalSize : Int
  maxTotalSize : Int

def utilOp (op : TraceOp) (u : Util) : Except Halt Util :=
  match op.type with
  | .alloc => do
    let (heap, p) ← orDiverge (mmMalloc u.heap (word op.size))
    if p = 0 then
      throw (.appError .mallocFailed)
    let total ← checkInt (u.totalSize + op.size)
    return ⟨heap, Function.update u.blocks op.index p,
      Function.update u.blockSizes op.index (word op.size), total,
      if total > u.maxTotalSize then total else u.maxTotalSize⟩
  | .realloc => do
    let oldsize := toInt (u.blockSizes op.index)
    let (heap, newp) ← orDiverge (mmRealloc u.heap (u.blocks op.index) (word op.size))
    if newp = 0 then
      throw (.appError .reallocFailed)
    let delta ← checkInt (op.size - oldsize)
    let total ← checkInt (u.totalSize + delta)
    return ⟨heap, Function.update u.blocks op.index newp,
      Function.update u.blockSizes op.index (word op.size), total,
      if total > u.maxTotalSize then total else u.maxTotalSize⟩
  | .free => do
    let size := toInt (u.blockSizes op.index)
    let heap ← orDiverge (mmFree u.heap (u.blocks op.index))
    let total ← checkInt (u.totalSize - size)
    return { u with heap := heap, totalSize := total }

def utilLoop : List TraceOp → Util → Except Halt Util
  | [], u => .ok u
  | op :: ops, u => do
    let u ← utilOp op u
    utilLoop ops u

/-- `eval_mm_util` up to the end of its loop. It returns the quotient of
`maxTotalSize` and `mem_heapsize` of the state given here. -/
def evalMmUtil (arena pagesize : Nat) (trace : Trace) (u : Util) : Except Halt Util := do
  let (heap, r) ← orDiverge (mmInit arena pagesize u.heap.memResetBrk)
  if r < 0 then
    throw (.appError .initFailed)
  utilLoop trace.ops { u with heap := heap, totalSize := 0, maxTotalSize := 0 }

theorem word_eq {i : Int} (h0 : 0 ≤ i) (h : i < 2 ^ 32) : word i = i.toNat := by
  rw [word, Int.emod_eq_of_lt h0 h]

end CsoMalloc
