import CsoMalloc.Mm
import CsoMalloc.Refinement

/-! Runs of the allocator: a client calls `mm_malloc`, `mm_free` and `mm_realloc`
with pointers it holds and writes into the bytes it asked for. -/

namespace CsoMalloc

open ByteMemory

/-- A call of the client; `k` is the number of the call that returned the
pointer passed. -/
inductive Request where
  | malloc (n : Nat)
  | free (k : Nat)
  | realloc (k n : Nat)
  deriving DecidableEq

/-- A pointer held by the client, with the number of the call that returned it
and the number of bytes asked for. -/
structure Live where
  id : Nat
  ptr : Nat
  size : Nat
  deriving DecidableEq

def Live.find (live : List Live) (k : Nat) : Option Live := live.find? fun b => b.id = k

def Live.drop (live : List Live) (k : Nat) : List Live := live.filter fun b => b.id ≠ k

/-- The argument of a request has to be live and its size within `MAX_HEAP`. -/
def Request.Allowed (live : List Live) : Request → Prop
  | malloc n => n ≤ maxHeap
  | free k => ∃ b ∈ live, b.id = k
  | realloc k n => n ≤ maxHeap ∧ ∃ b ∈ live, b.id = k

instance (live : List Live) (q : Request) : Decidable (q.Allowed live) :=
  match q with
  | .malloc n => inferInstanceAs (Decidable (n ≤ maxHeap))
  | .free k => inferInstanceAs (Decidable (∃ b ∈ live, b.id = k))
  | .realloc k n => inferInstanceAs (Decidable (n ≤ maxHeap ∧ ∃ b ∈ live, b.id = k))

def Request.arg : Request → Option Nat
  | malloc _ => none
  | free k => some k
  | realloc k _ => some k

/-- The heap, the pointers in use and, for every call so far, the pointer it
returned and the heap it left. -/
structure World where
  heap : State
  live : List Live
  log : List (Nat × State)

namespace World

def call (w : World) : Request → Option World
  | .malloc n => do
    let (s, p) ← mmMalloc w.heap n
    let live := if p = 0 then w.live else ⟨w.log.length, p, n⟩ :: w.live
    return ⟨s, live, w.log ++ [(p, s)]⟩
  | .free k => do
    let b ← Live.find w.live k
    let s ← mmFree w.heap b.ptr
    return ⟨s, Live.drop w.live k, w.log ++ [(0, s)]⟩
  | .realloc k n => do
    let b ← Live.find w.live k
    let (s, p) ← mmRealloc w.heap b.ptr n
    let live := if p = 0 then w.live else ⟨w.log.length, p, n⟩ :: Live.drop w.live k
    return ⟨s, live, w.log ++ [(p, s)]⟩

def write (w : World) (m : Mem) : World := { w with heap := { w.heap with mem := m } }

end World

section Calls

variable {w w' : World} {b : Live} {k n : Nat}

theorem World.call_malloc_inv (h : w.call (.malloc n) = some w') :
    ∃ s p, mmMalloc w.heap n = some (s, p) ∧ w'.heap = s ∧
      (p ≠ 0 → w'.live = ⟨w.log.length, p, n⟩ :: w.live) := by
  obtain ⟨⟨s, p⟩, he, hw⟩ := Option.bind_eq_some_iff.mp h
  obtain rfl := Option.some.inj hw
  exact ⟨s, p, he, rfl, fun hp => if_neg hp⟩

theorem World.call_free_inv (hb : Live.find w.live k = some b) (h : w.call (.free k) = some w') :
    ∃ s, mmFree w.heap b.ptr = some s ∧ w'.heap = s ∧ w'.live = Live.drop w.live k := by
  obtain ⟨c, hc, h⟩ := Option.bind_eq_some_iff.mp h
  obtain rfl := Option.some.inj (hb.symm.trans hc)
  obtain ⟨s, he, hw⟩ := Option.bind_eq_some_iff.mp h
  obtain rfl := Option.some.inj hw
  exact ⟨s, he, rfl, rfl⟩

theorem World.call_realloc_inv (hb : Live.find w.live k = some b)
    (h : w.call (.realloc k n) = some w') :
    ∃ s p, mmRealloc w.heap b.ptr n = some (s, p) ∧ w'.heap = s ∧
      (p ≠ 0 → w'.live = ⟨w.log.length, p, n⟩ :: Live.drop w.live k) := by
  obtain ⟨c, hc, h⟩ := Option.bind_eq_some_iff.mp h
  obtain rfl := Option.some.inj (hb.symm.trans hc)
  obtain ⟨⟨s, p⟩, he, hw⟩ := Option.bind_eq_some_iff.mp h
  obtain rfl := Option.some.inj hw
  exact ⟨s, p, he, rfl, fun hp => if_neg hp⟩

end Calls

/-- The valid runs: `mm_init` on whatever state there is, then allowed calls
and writes to the requested bytes of live blocks, in any order. -/
inductive Run (E : Env) : List Request → World → Prop where
  | init {s s' : State} : mmInit E.base E.pageSize s = some (s', 0) → Run E [] ⟨s', [], []⟩
  | write {rs : List Request} {w : World} {m : Mem} : Run E rs w →
      (∀ a, (∀ b ∈ w.live, a < b.ptr ∨ b.ptr + b.size ≤ a) → m a = w.heap.mem a) →
      Run E rs (w.write m)
  | call {rs : List Request} {q : Request} {w w' : World} : Run E rs w → q.Allowed w.live →
      w.call q = some w' → Run E (rs ++ [q]) w'

end CsoMalloc
