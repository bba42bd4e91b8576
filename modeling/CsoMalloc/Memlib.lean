import CsoMalloc.ByteMemory

/-! The simulated memory system of memlib.c on a 32-bit target. Addresses and
`size_t` values are naturals below `2 ^ 32`; their arithmetic wraps. -/

namespace CsoMalloc

open ByteMemory

/-- `MAX_HEAP`, 20 MB. -/
def maxHeap : Nat := 20 * 2 ^ 20

abbrev freelistCount : Nat := 17

def wadd (a b : Nat) : Nat := (a + b) % 2 ^ 32

def wsub (a b : Nat) : Nat := (a + (2 ^ 32 - b % 2 ^ 32)) % 2 ^ 32

/-- The conversion of a 32-bit `size_t` to `int`. -/
def toInt (w : Nat) : Int := if w < 2 ^ 31 then w else w - 2 ^ 32

def minusOne : Nat := 2 ^ 32 - 1

/-- Memory together with the static variables of memlib.c and mm.c. -/
structure State where
  mem : Mem
  memStartBrk : Nat
  memBrk : Nat
  memMaxAddr : Nat
  freeLists : Fin freelistCount → Nat
  pageSize : Nat
  adjustedPagesize : Nat
  heapStart : Nat
  heapEnd : Nat
  deriving Inhabited

namespace State

/-- `mem_init`, where `arena` is the block that the C library's `malloc`
returned. On `NULL` the program exits, so there is no state to return to. -/
def memInit (s : State) (arena : Nat) : Option State :=
  if arena = 0 then none
  else some { s with memStartBrk := arena, memMaxAddr := wadd arena maxHeap, memBrk := arena }

def memResetBrk (s : State) : State := { s with memBrk := s.memStartBrk }

/-- `mem_sbrk`: the old break, or `(void *)-1` with the break unchanged. The
bound test adds before it compares, so the sum may wrap. -/
def memSbrk (s : State) (incr : Int) : State × Nat :=
  if incr < 0 ∨ wadd s.memBrk incr.toNat > s.memMaxAddr then (s, minusOne)
  else ({ s with memBrk := wadd s.memBrk incr.toNat }, s.memBrk)

def memHeapLo (s : State) : Nat := s.memStartBrk

def memHeapHi (s : State) : Nat := wsub s.memBrk 1

def memHeapsize (s : State) : Nat := wsub s.memBrk s.memStartBrk

end State

theorem maxHeap_eq : maxHeap = 20971520 := rfl

theorem wadd_eq {a b : Nat} (h : a + b < 2 ^ 32) : wadd a b = a + b := Nat.mod_eq_of_lt h

theorem wsub_eq {a b : Nat} (h : b ≤ a) (ha : a < 2 ^ 32) : wsub a b = a - b := by
  rw [wsub]
  omega

theorem toInt_eq {w : Nat} (h : w < 2 ^ 31) : toInt w = w := if_pos h

/-- Where the sum does not wrap, `mem_sbrk` succeeds exactly when the arena
has room for the increment. -/
theorem memSbrk_eq {s : State} {n : Nat} (hn : n < 2 ^ 31) (hs : s.memBrk + n < 2 ^ 32) :
    s.memSbrk (toInt n) = if s.memBrk + n ≤ s.memMaxAddr
      then ({ s with memBrk := s.memBrk + n }, s.memBrk) else (s, minusOne) := by
  have hneg : ¬ ((n : Int) < 0) := by omega
  by_cases h : s.memBrk + n ≤ s.memMaxAddr
  · simp [State.memSbrk, toInt_eq hn, hneg, wadd_eq hs, h]
  · simp [State.memSbrk, toInt_eq hn, hneg, wadd_eq hs, h]

end CsoMalloc
