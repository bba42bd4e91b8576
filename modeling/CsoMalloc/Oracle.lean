import CsoMalloc.RangeList
import CsoMalloc.Speed
import CsoMalloc.Validity

/-! `eval_mm_valid` as a test of any allocator that implements mm.h, and what it
means that it returns 1. -/

namespace CsoMalloc

open ByteMemory

/-- An implementation of mm.h over memlib.c. `init` is `mm_init` behind
`mem_reset_brk`. -/
structure Package (σ : Type) extends Allocator σ where
  init : σ → Option (σ × Int)
  heapLo : σ → Nat
  heapHi : σ → Nat
  mem : σ → Mem
  setMem : σ → Mem → σ

def mmPackage (arena pagesize : Nat) : Package State where
  toAllocator := mmAllocator
  init s := mmInit arena pagesize s.memResetBrk
  heapLo := State.memHeapLo
  heapHi := State.memHeapHi
  mem := State.mem
  setMem s m := { s with mem := m }

/-- The variables of the driver, with those of the allocator under test. -/
structure Harness (σ : Type) where
  heap : σ
  ranges : List Range
  blocks : Int → Nat
  blockSizes : Int → Nat
  errors : List Report

def Driver.harness (d : Driver) : Harness State := ⟨d.heap, d.ranges, d.blocks, d.blockSizes, d.errors⟩

namespace Harness

variable {σ : Type}

def mallocError (g : Harness σ) (tracenum : Int) (opnum : Nat) (msg : Message) : Harness σ :=
  { g with errors := g.errors ++ [⟨tracenum, opnum, msg⟩] }

def addRange (P : Package σ) (g : Harness σ) (lo : Nat) (size : Int) (tracenum : Int) (opnum : Nat) :
    Option (Harness σ × Bool) :=
  (CsoMalloc.addRange (P.heapLo g.heap) (P.heapHi g.heap) g.ranges lo size).map fun r =>
    match r.2 with
    | none => ({ g with ranges := r.1 }, true)
    | some msg => ({ g with ranges := r.1 }.mallocError tracenum opnum msg, false)

def remember (P : Package σ) (g : Harness σ) (index : Int) (p : Nat) (size : Int) : Harness σ :=
  { g with
    heap := P.setMem g.heap
      (memset (P.mem g.heap) p (UInt8.ofNat (word index &&& 0xFF)) (word size))
    blocks := Function.update g.blocks index p
    blockSizes := Function.update g.blockSizes index (word size) }

end Harness

namespace Package

variable {σ : Type} (P : Package σ)

/-- One turn of the loop of `eval_mm_valid`, whatever the calls do. -/
def validOp (tracenum : Int) (i : Nat) (op : TraceOp) (g : Harness σ) : Option (Harness σ × Bool) :=
  match op.type with
  | .alloc => do
    let (heap, p) ← P.malloc g.heap (word op.size)
    let g := { g with heap := heap }
    if p = 0 then
      return (g.mallocError tracenum i .mallocFailed, false)
    let (g, ok) ← g.addRange P p op.size tracenum i
    if ok = false then
      return (g, false)
    return (g.remember P op.index p op.size, true)
  | .realloc => do
    let oldp := g.blocks op.index
    let (heap, newp) ← P.realloc g.heap oldp (word op.size)
    let g := { g with heap := heap }
    if newp = 0 then
      return (g.mallocError tracenum i .reallocFailed, false)
    let g := { g with ranges := removeRange g.ranges oldp }
    let (g, ok) ← g.addRange P newp op.size tracenum i
    if ok = false then
      return (g, false)
    let oldsize := toInt (g.blockSizes op.index)
    let oldsize := if op.size < oldsize then op.size else oldsize
    if preserved (P.mem g.heap) newp op.index oldsize = false then
      return (g.mallocError tracenum i .notPreserved, false)
    return (g.remember P op.index newp op.size, true)
  | .free => do
    let p := g.blocks op.index
    let g := { g with ranges := removeRange g.ranges p }
    let heap ← P.free g.heap p
    return ({ g with heap := heap }, true)

def validLoop (tracenum : Int) : Nat → List TraceOp → Harness σ → Option (Harness σ × Int)
  | _, [], g => some (g, 1)
  | i, op :: ops, g => do
    let (g, ok) ← P.validOp tracenum i op g
    if ok = false then
      return (g, 0)
    validLoop tracenum (i + 1) ops g

/-- `eval_mm_valid` with any package in the place of mm.c. -/
def evalMmValid (trace : Trace) (tracenum : Int) (g : Harness σ) : Option (Harness σ × Int) := do
  let (heap, r) ← P.init g.heap
  let g := { g with heap := heap, ranges := [] }
  if r < 0 then
    return (g.mallocError tracenum 0 .initFailed, 0)
  P.validLoop tracenum 0 trace.ops g

end Package

section Instance

variable (arena pagesize : Nat) (tracenum : Int) (i : Nat)

theorem harness_addRange (d : Driver) (p : Nat) (size : Int) :
    d.harness.addRange (mmPackage arena pagesize) p size tracenum i =
      (d.addRange p size tracenum i).map fun x => (x.1.harness, x.2) := by
  simp only [Harness.addRange, Driver.addRange, Option.map_map]
  refine congrArg (Option.map · _) (funext fun r => ?_)
  obtain ⟨ranges, msg⟩ := r
  cases msg <;> rfl

theorem validOp_mmPackage (op : TraceOp) (d : Driver) :
    (mmPackage arena pagesize).validOp tracenum i op d.harness =
      (validOp tracenum i op d).map fun x => (x.1.harness, x.2) := by
  rw [Package.validOp, validOp]
  cases op.type with
  | alloc =>
    have hcall : (mmPackage arena pagesize).malloc d.harness.heap = mmMalloc d.heap := rfl
    simp only [hcall]
    cases mmMalloc d.heap (word op.size) with
    | none => rfl
    | some r =>
      obtain ⟨s, p⟩ := r
      have hadd := harness_addRange arena pagesize tracenum i { d with heap := s } p op.size
      simp only [Option.bind_eq_bind, Option.bind_some]
      split
      · rfl
      · simp only [Driver.harness] at hadd ⊢
        rw [hadd]
        cases Driver.addRange { d with heap := s } p op.size tracenum i with
        | none => rfl
        | some x =>
          obtain ⟨d', ok⟩ := x
          cases ok <;> rfl
  | realloc =>
    have hcall : (mmPackage arena pagesize).realloc d.harness.heap (d.harness.blocks op.index) =
        mmRealloc d.heap (d.blocks op.index) := rfl
    simp only [hcall]
    cases mmRealloc d.heap (d.blocks op.index) (word op.size) with
    | none => rfl
    | some r =>
      obtain ⟨s, p⟩ := r
      have hadd := harness_addRange arena pagesize tracenum i
        { d with heap := s, ranges := removeRange d.ranges (d.blocks op.index) } p op.size
      simp only [Option.bind_eq_bind, Option.bind_some]
      split
      · rfl
      · simp only [Driver.harness] at hadd ⊢
        rw [hadd]
        cases Driver.addRange { d with heap := s, ranges := removeRange d.ranges (d.blocks op.index) }
            p op.size tracenum i with
        | none => rfl
        | some x =>
          obtain ⟨d', ok⟩ := x
          cases ok with
          | false => rfl
          | true =>
            simp only [Option.map_some, Option.bind_some, Bool.true_eq_false, if_false]
            have hmem : (mmPackage arena pagesize).mem d'.heap = d'.heap.mem := rfl
            rw [hmem]
            cases preserved d'.heap.mem p op.index (if op.size < toInt (d'.blockSizes op.index)
              then op.size else toInt (d'.blockSizes op.index)) <;> rfl
  | free =>
    have hcall : (mmPackage arena pagesize).free d.harness.heap (d.harness.blocks op.index) =
        mmFree d.heap (d.blocks op.index) := rfl
    simp only [Driver.harness] at hcall ⊢
    rw [hcall]
    cases mmFree d.heap (d.blocks op.index) <;> rfl

theorem validLoop_mmPackage (ops : List TraceOp) (d : Driver) :
    (mmPackage arena pagesize).validLoop tracenum i ops d.harness =
      (validLoop tracenum i ops d).map fun x => (x.1.harness, x.2) := by
  induction ops generalizing i d with
  | nil => rfl
  | cons op ops ih =>
    rw [Package.validLoop, validLoop, validOp_mmPackage]
    cases validOp tracenum i op d with
    | none => rfl
    | some x =>
      obtain ⟨d', ok⟩ := x
      cases ok with
      | false => rfl
      | true => exact ih (i + 1) d'

/-- With mm.c in its place the package is tested as before. -/
theorem evalMmValid_mmPackage (t : Trace) (d : Driver) :
    (mmPackage arena pagesize).evalMmValid t tracenum d.harness =
      (evalMmValid arena pagesize t tracenum d).map fun x => (x.1.harness, x.2) := by
  have hinit : (mmPackage arena pagesize).init d.harness.heap =
      mmInit arena pagesize d.heap.memResetBrk := rfl
  simp only [Package.evalMmValid, evalMmValid, hinit]
  cases mmInit arena pagesize d.heap.memResetBrk with
  | none => rfl
  | some x =>
    obtain ⟨s, r⟩ := x
    simp only [Option.bind_eq_bind, Option.bind_some]
    split
    · rfl
    · exact validLoop_mmPackage arena pagesize tracenum 0 t.ops { d with heap := s, ranges := [] }

end Instance

/-- A block in use: the id, the address and the size asked for. -/
structure Held where
  id : Int
  addr : Nat
  size : Int

def Held.range (b : Held) : Range := ⟨b.addr, b.addr + b.size.toNat - 1⟩

namespace Package

variable {σ : Type} (P : Package σ)

/-- The payload is aligned, it is in the heap, and neither its first nor its last
byte is in a block in use. -/
structure Placed (s : σ) (live : List Held) (p : Nat) (size : Int) : Prop where
  aligned : p % alignment = 0
  inHeap : payload p size ⊆ Set.Icc (P.heapLo s) (P.heapHi s)
  first : ∀ b ∈ live, p ∉ payload b.addr b.size
  last : ∀ b ∈ live, p + size.toNat - 1 ∉ payload b.addr b.size

/-- The client's bytes have survived, and they are of those that compare equal. -/
def Kept (m : Mem) (p : Nat) (id : Int) (k : Nat) : Prop :=
  id % 256 < 128 ∧ ∀ j < k, m (p + j) = fillByte id

def fill (s : σ) (b : Held) : σ :=
  P.setMem s (memset (P.mem s) b.addr (fillByte b.id) (word b.size))

/-- What the test asks of the calls that follow, in terms of the blocks in use,
the newest first. -/
def Passes : List TraceOp → List Held → σ → Prop
  | [], _, _ => True
  | op :: ops, live, s =>
    match op.type with
    | .alloc => ∃ s' p, P.malloc s (word op.size) = some (s', p) ∧ p ≠ 0 ∧
        P.Placed s' live p op.size ∧
        Passes ops (⟨op.index, p, op.size⟩ :: live) (P.fill s' ⟨op.index, p, op.size⟩)
    | .realloc => ∃ b s' p, live.find? (fun b => b.id = op.index) = some b ∧
        P.realloc s b.addr (word op.size) = some (s', p) ∧ p ≠ 0 ∧
        P.Placed s' (live.eraseP fun b => b.id = op.index) p op.size ∧
        Kept (P.mem s') p op.index (min b.size op.size).toNat ∧
        Passes ops (⟨op.index, p, op.size⟩ :: live.eraseP fun b => b.id = op.index)
          (P.fill s' ⟨op.index, p, op.size⟩)
    | .free => ∃ b s', live.find? (fun b => b.id = op.index) = some b ∧ P.free s b.addr = some s' ∧
        Passes ops (live.eraseP fun b => b.id = op.index) s'

end Package

section Steps

variable {σ : Type} {P : Package σ} {tracenum : Int} {i : Nat} {op : TraceOp} {g g' : Harness σ}
  {ops : List TraceOp}

theorem Package.validLoop_cons_iff :
    (∃ g', P.validLoop tracenum i (op :: ops) g = some (g', 1)) ↔
      ∃ g₁, P.validOp tracenum i op g = some (g₁, true) ∧
        ∃ g', P.validLoop tracenum (i + 1) ops g₁ = some (g', 1) := by
  rw [validLoop]
  cases P.validOp tracenum i op g with
  | none => simp
  | some x =>
    obtain ⟨g₁, ok⟩ := x
    cases ok <;> simp

theorem Harness.addRange_caught {p : Nat} {size : Int} (h0 : 0 < size)
    (hc : EndsCaught (P.heapLo g.heap) (P.heapHi g.heap) g.ranges p size) :
    ∃ g₁, g.addRange P p size tracenum i = some (g₁, false) := by
  obtain ⟨msg, hadd⟩ := CsoMalloc.addRange_caught h0 hc
  rw [addRange, hadd]
  exact ⟨_, rfl⟩

theorem Harness.addRange_free {p : Nat} {size : Int} (h0 : 0 < size)
    (hc : ¬ EndsCaught (P.heapLo g.heap) (P.heapHi g.heap) g.ranges p size) :
    g.addRange P p size tracenum i =
      some ({ g with ranges := ⟨p, lastAddress p size⟩ :: g.ranges }, true) := by
  rw [addRange, CsoMalloc.addRange_free h0 hc]
  rfl

/-- The harness behind a call that returned `p`, when the old range, if any, has
been removed. -/
def Harness.accept (P : Package σ) (g : Harness σ) (s : σ) (ranges : List Range) (p : Nat)
    (op : TraceOp) : Harness σ :=
  { g with heap := s, ranges := ⟨p, lastAddress p op.size⟩ :: ranges }.remember P op.index p op.size

theorem Package.validOp_alloc_iff (ht : op.type = .alloc) (h0 : 0 < op.size) :
    P.validOp tracenum i op g = some (g', true) ↔
      ∃ s p, P.malloc g.heap (word op.size) = some (s, p) ∧ p ≠ 0 ∧
        ¬ EndsCaught (P.heapLo s) (P.heapHi s) g.ranges p op.size ∧
        g.accept P s g.ranges p op = g' := by
  rw [validOp, ht]
  dsimp only
  cases P.malloc g.heap (word op.size) with
  | none => simp
  | some x =>
    obtain ⟨s, p⟩ := x
    by_cases hp : p = 0
    · simp [hp]
    simp only [Option.bind_eq_bind, Option.bind_some, hp, if_false, Option.some.injEq, Prod.mk.injEq,
      and_assoc, exists_and_left, exists_eq_left', ne_eq, not_false_eq_true, true_and]
    by_cases hc : EndsCaught (P.heapLo s) (P.heapHi s) g.ranges p op.size
    · obtain ⟨g₁, hadd⟩ := @Harness.addRange_caught σ P tracenum i { g with heap := s } p op.size h0 hc
      simp [hadd, hc]
    · rw [@Harness.addRange_free σ P tracenum i { g with heap := s } p op.size h0 hc]
      simp [hc, Harness.accept]

theorem Package.validOp_realloc_iff (ht : op.type = .realloc) (h0 : 0 < op.size) {k : Int}
    (hk : (if op.size < toInt (g.blockSizes op.index) then op.size
      else toInt (g.blockSizes op.index)) = k) :
    P.validOp tracenum i op g = some (g', true) ↔
      ∃ s p, P.realloc g.heap (g.blocks op.index) (word op.size) = some (s, p) ∧ p ≠ 0 ∧
        ¬ EndsCaught (P.heapLo s) (P.heapHi s) (removeRange g.ranges (g.blocks op.index)) p op.size ∧
        preserved (P.mem s) p op.index k = true ∧
        g.accept P s (removeRange g.ranges (g.blocks op.index)) p op = g' := by
  rw [validOp, ht]
  dsimp only
  cases P.realloc g.heap (g.blocks op.index) (word op.size) with
  | none => simp
  | some x =>
    obtain ⟨s, p⟩ := x
    by_cases hp : p = 0
    · simp [hp]
    simp only [Option.bind_eq_bind, Option.bind_some, hp, if_false, Option.some.injEq, Prod.mk.injEq,
      and_assoc, exists_and_left, exists_eq_left', ne_eq, not_false_eq_true, true_and]
    by_cases hc : EndsCaught (P.heapLo s) (P.heapHi s) (removeRange g.ranges (g.blocks op.index)) p op.size
    · obtain ⟨g₁, hadd⟩ := @Harness.addRange_caught σ P tracenum i
        { g with heap := s, ranges := removeRange g.ranges (g.blocks op.index) } p op.size h0 hc
      simp [hadd, hc]
    · rw [@Harness.addRange_free σ P tracenum i
        { g with heap := s, ranges := removeRange g.ranges (g.blocks op.index) } p op.size h0 hc]
      cases hkept : preserved (P.mem s) p op.index k with
      | false => simp [hk, hkept]
      | true => simp [hc, hk, hkept, Harness.accept]

theorem Package.validOp_free_iff (ht : op.type = .free) :
    P.validOp tracenum i op g = some (g', true) ↔
      ∃ s, P.free g.heap (g.blocks op.index) = some s ∧
        { g with heap := s, ranges := removeRange g.ranges (g.blocks op.index) } = g' := by
  rw [validOp, ht]
  dsimp only
  cases P.free g.heap (g.blocks op.index) with
  | none => simp
  | some s => simp

end Steps

/-- The heap spans less than half of the address space. -/
def Package.Bounded {σ : Type} (P : Package σ) : Prop :=
  ∀ s, P.heapHi s < 2 ^ 32 ∧ P.heapHi s < P.heapLo s + 2 ^ 31

section Judgement

variable {σ : Type} {P : Package σ} {s : σ} {live : List Held} {p : Nat} {size : Int}

theorem Held.mem_payload_iff {b : Held} (h : 0 < b.size) (a : Nat) :
    a ∈ payload b.addr b.size ↔ b.range.lo ≤ a ∧ a ≤ b.range.hi := by
  simp only [payload, range, Set.mem_Ico]
  omega

theorem lastAddress_of_span {lo hi : Nat} (hlo : lo ≤ p) (hhi : p ≤ hi) (hspan : hi < 2 ^ 32 ∧ hi < lo + 2 ^ 31)
    (h0 : 0 < size) (hs : size < 2 ^ 31) (hlast : lo ≤ lastAddress p size) :
    p + size ≤ 2 ^ 32 := by
  rw [lastAddress, word_eq (by omega) (by omega), wadd, wsub] at hlast
  omega

theorem Package.not_endsCaught_iff (hP : P.Bounded) (h0 : 0 < size) (hs : size < 2 ^ 31)
    (hlive : ∀ b ∈ live, 0 < b.size) :
    ¬ EndsCaught (P.heapLo s) (P.heapHi s) (live.map Held.range) p size ↔ P.Placed s live p size := by
  have hspan := hP s
  have hin : ∀ a, (∃ r ∈ live.map Held.range, r.lo ≤ a ∧ a ≤ r.hi) ↔
      ∃ b ∈ live, a ∈ payload b.addr b.size := by
    intro a
    constructor
    · rintro ⟨r, hr, hra⟩
      obtain ⟨b, hb, rfl⟩ := List.mem_map.mp hr
      exact ⟨b, hb, (Held.mem_payload_iff (hlive b hb) a).mpr hra⟩
    · rintro ⟨b, hb, hba⟩
      exact ⟨b.range, List.mem_map_of_mem hb, (Held.mem_payload_iff (hlive b hb) a).mp hba⟩
  simp only [EndsCaught, Caught, hin, not_or, not_not, not_exists, not_and]
  constructor
  · rintro ⟨ha, ⟨hlo, hhi, hfirst⟩, hlo', hhi', hlast⟩
    have hfit : p + size ≤ 2 ^ 32 := lastAddress_of_span (show P.heapLo s ≤ p by omega)
      (show p ≤ P.heapHi s by omega) hspan h0 hs (by omega)
    have heq : lastAddress p size + 1 = p + size.toNat := lastAddress_eq h0 hs hfit
    refine ⟨ha, (payload_subset h0).mpr ⟨by omega, by omega⟩, hfirst, ?_⟩
    rwa [show p + size.toNat - 1 = lastAddress p size by omega]
  · intro h
    have hsub := (payload_subset h0).mp h.inHeap
    have heq : lastAddress p size + 1 = p + size.toNat := lastAddress_eq h0 hs (by omega)
    refine ⟨h.aligned, ⟨by omega, by omega, h.first⟩, by omega, by omega, ?_⟩
    rw [show lastAddress p size = p + size.toNat - 1 by omega]
    exact h.last

theorem charToInt_eq_iff (c : UInt8) (i : Int) :
    charToInt c = ((word i &&& 0xFF : Nat) : Int) ↔ i % 256 < 128 ∧ c = fillByte i := by
  constructor
  · intro h
    have hand : word i &&& 0xFF = word i % 256 := Nat.and_two_pow_sub_one_eq_mod (word i) 8
    have hlt := c.toNat_lt
    have hc : c = fillByte i := by
      refine UInt8.toNat_inj.mp ?_
      rw [hand, charToInt] at h
      rw [fillByte_toNat]
      split at h <;> omega
    subst hc
    exact ⟨(charToInt_fillByte i).mp h, rfl⟩
  · rintro ⟨hi, rfl⟩
    exact (charToInt_fillByte i).mpr hi

theorem preserved_iff {m : Mem} {i k : Int} (hk : 0 < k) (hp : p + k ≤ 2 ^ 32) :
    preserved m p i k = true ↔ Package.Kept m p i k.toNat := by
  rw [preserved, List.all_eq_true, Package.Kept]
  constructor
  · intro h
    have hbyte : ∀ j < k.toNat, i % 256 < 128 ∧ m (p + j) = fillByte i := by
      intro j hj
      have hj' := of_decide_eq_true (h j (List.mem_range.mpr hj))
      rw [wadd_eq (by omega)] at hj'
      exact (charToInt_eq_iff _ i).mp hj'
    exact ⟨(hbyte 0 (by omega)).1, fun j hj => (hbyte j hj).2⟩
  · rintro ⟨hi, h⟩ j hj
    have hj' := List.mem_range.mp hj
    rw [wadd_eq (by omega)]
    exact decide_eq_true ((charToInt_eq_iff _ i).mpr ⟨hi, h j hj'⟩)

end Judgement

section Bookkeeping

variable {σ : Type} {P : Package σ} {numIds tracenum : Int} {i : Nat} {done ops : List TraceOp}
  {op : TraceOp} {live : List Held} {g : Harness σ}

theorem removeRange_eq_filter (hn : (live.map Held.addr).Nodup) {b : Held} (hb : b ∈ live) :
    removeRange (live.map Held.range) b.addr =
      (live.filter fun c => c.addr ≠ b.addr).map Held.range := by
  induction live with
  | nil => simp at hb
  | cons c live ih =>
    rw [List.map_cons, List.nodup_cons] at hn
    rw [List.map_cons, removeRange]
    by_cases hc : c.addr = b.addr
    · have hall : ∀ d ∈ live, d.addr ≠ b.addr := by
        intro d hd he
        exact hn.1 (hc ▸ he ▸ List.mem_map_of_mem hd)
      rw [if_pos (show c.range.lo = b.addr from hc), List.filter_cons_of_neg (by simpa using hc),
        List.filter_eq_self.mpr (by simpa using hall)]
    · have hmem : b ∈ live := (List.mem_cons.mp hb).resolve_left fun he => hc (he ▸ rfl)
      rw [if_neg (show ¬ c.range.lo = b.addr from hc), List.filter_cons_of_pos (by simpa using hc),
        List.map_cons, ih hn.2 hmem]

/-- The range list and the two arrays hold what is known about the blocks in use. -/
structure Watched (done : List TraceOp) (live : List Held) (g : Harness σ) : Prop where
  inUse : live.map (fun b => (b.id, b.size)) = inUse done
  ranges : g.ranges = live.map Held.range
  current : ∀ i, (∀ a ∈ done, a.type = .free → a.index ≠ i) →
    ∀ b, live.find? (fun b => b.id = i) = some b → g.blocks i = b.addr ∧ g.blockSizes i = word b.size
  sizes : ∀ b ∈ live, 0 < b.size ∧ b.size ≤ maxHeap
  apart : (live.map Held.addr).Nodup

namespace Watched

theorem find (h : Watched done live g) (hop : op.Allowed numIds done) (ht : op.type ≠ .alloc) :
    ∃ b, live.find? (fun b => b.id = op.index) = some b ∧ g.blocks op.index = b.addr ∧
      g.blockSizes op.index = word b.size := by
  obtain ⟨c, hc, hci⟩ := mem_inUse (hop.allocated ht) hop.notFreed
  rw [← h.inUse] at hc
  obtain ⟨b, hb, rfl⟩ := List.mem_map.mp hc
  cases hf : live.find? fun b => b.id = op.index with
  | none => exact absurd hci (by simpa using List.find?_eq_none.mp hf b hb)
  | some x => exact ⟨x, rfl, h.current _ hop.notFreed x hf⟩

theorem removeRange_eq (h : Watched done live g) {b : Held} {j : Int}
    (hb : live.find? (fun b => b.id = j) = some b) :
    removeRange g.ranges b.addr = (live.eraseP fun b => b.id = j).map Held.range := by
  rw [h.ranges, removeRange_eq_filter h.apart (List.mem_of_find?_eq_some hb),
    eraseP_eq_filter h.apart hb]

/-- The blocks that stay in use while a call for the operation is made. -/
def rest (op : TraceOp) (live : List Held) : List Held :=
  if op.type = .alloc then live else live.eraseP fun b => b.id = op.index

theorem rest_sublist (op : TraceOp) (live : List Held) : (rest op live).Sublist live := by
  rw [rest]
  split
  · exact .refl live
  · exact List.eraseP_sublist

theorem eraseP_inUse (h : Watched done live g) (j : Int) :
    (live.eraseP fun b => b.id = j).map (fun b => (b.id, b.size)) =
      (CsoMalloc.inUse done).eraseP fun c => c.1 = j := by
  rw [← h.inUse, List.eraseP_map]
  rfl

theorem op_size (hop : op.Allowed numIds done) (ht : op.type ≠ .free) :
    0 < op.size ∧ op.size < 2 ^ 31 := by
  have hmax : (maxHeap : Int) < 2 ^ 31 := by decide
  have hsize := hop.size ht
  exact ⟨by omega, by omega⟩

theorem accept (h : Watched done live g) (hP : P.Bounded) (hop : op.Allowed numIds done)
    (ht : op.type ≠ .free) {s : σ} {p : Nat} (hp : P.Placed s (rest op live) p op.size) :
    Watched (done ++ [op]) (⟨op.index, p, op.size⟩ :: rest op live)
      (g.accept P s ((rest op live).map Held.range) p op) := by
  obtain ⟨h0, hs⟩ := op_size hop ht
  have hsub := (payload_subset h0).mp hp.inHeap
  have hspan := hP s
  have hlast : lastAddress p op.size + 1 = p + op.size.toNat := lastAddress_eq h0 hs (by omega)
  have hrest : ∀ b ∈ rest op live, b ∈ live := fun b hb => (rest_sublist op live).subset hb
  refine ⟨?_, ?_, ?_, ?_, ?_⟩
  · rw [inUse_append, List.map_cons, TraceOp.advance, rest]
    cases hty : op.type with
    | alloc => simp [h.inUse]
    | realloc => simp [h.eraseP_inUse]
    | free => exact absurd hty ht
  · have hrange : (⟨p, lastAddress p op.size⟩ : Range) = ⟨p, p + op.size.toNat - 1⟩ :=
      congrArg (Range.mk p) (by omega)
    exact congrArg (· :: (rest op live).map Held.range) hrange
  · intro i hi b hb
    by_cases he : i = op.index
    · subst he
      obtain rfl : _ = b := by simpa using hb
      simp [Harness.accept, Harness.remember]
    · have hb' : live.find? (fun b => b.id = i) = some b := by
        have hx : (rest op live).find? (fun b => b.id = i) = some b := by
          simpa [List.find?_cons, Ne.symm he] using hb
        rw [rest] at hx
        split at hx
        · exact hx
        · rwa [find?_eraseP_ne he] at hx
      have := h.current i (fun a ha => hi a (List.mem_append_left _ ha)) b hb'
      simpa [Harness.accept, Harness.remember, Function.update_of_ne he] using this
  · have hnew : 0 < op.size ∧ op.size ≤ maxHeap := ⟨h0, (hop.size ht).2⟩
    exact List.forall_mem_cons.mpr ⟨hnew, fun b hb => h.sizes b (hrest b hb)⟩
  · refine List.nodup_cons.mpr ⟨fun hmem => ?_, h.apart.sublist ((rest_sublist op live).map _)⟩
    obtain ⟨b, hb, hba⟩ := List.mem_map.mp hmem
    have := (h.sizes b (hrest b hb)).1
    exact hp.first b hb ⟨by simp only at hba; omega, by simp only at hba; omega⟩

theorem drop (h : Watched done live g) (ht : op.type = .free) (s : σ) :
    Watched (done ++ [op]) (live.eraseP fun b => b.id = op.index)
      { g with heap := s, ranges := (live.eraseP fun b => b.id = op.index).map Held.range } := by
  have hsub : (live.eraseP fun b => b.id = op.index).Sublist live := List.eraseP_sublist
  refine ⟨?_, rfl, ?_, fun b hb => h.sizes b (hsub.subset hb), h.apart.sublist (hsub.map _)⟩
  · rw [inUse_append, TraceOp.advance, ht]
    exact h.eraseP_inUse op.index
  · intro i hi b hb
    have hne : i ≠ op.index := (hi op (by simp) ht).symm
    rw [find?_eraseP_ne hne] at hb
    exact h.current i (fun a ha => hi a (List.mem_append_left _ ha)) b hb

theorem size_lt (h : Watched done live g) : ∀ b ∈ live, 0 < b.size ∧ b.size < 2 ^ 31 := by
  intro b hb
  have hmax : (maxHeap : Int) < 2 ^ 31 := by decide
  have hsize := h.sizes b hb
  exact ⟨hsize.1, by omega⟩

section Calls

variable {Q : Harness σ → Prop}

theorem alloc_iff (h : Watched done live g) (hP : P.Bounded) (hop : op.Allowed numIds done)
    (ht : op.type = .alloc) :
    (∃ g₁, P.validOp tracenum i op g = some (g₁, true) ∧ Q g₁) ↔
      ∃ s p, P.malloc g.heap (word op.size) = some (s, p) ∧ p ≠ 0 ∧ P.Placed s live p op.size ∧
        Q (g.accept P s (live.map Held.range) p op) := by
  obtain ⟨h0, hs⟩ := op_size hop (by simp [ht])
  have hplaced := fun (s : σ) (p : Nat) => @Package.not_endsCaught_iff σ P s live p op.size hP h0 hs
    fun b hb => (h.sizes b hb).1
  simp only [Package.validOp_alloc_iff ht h0, h.ranges, hplaced]
  constructor
  · rintro ⟨_, ⟨s, p, hm, hp, hpl, rfl⟩, hq⟩
    exact ⟨s, p, hm, hp, hpl, hq⟩
  · rintro ⟨s, p, hm, hp, hpl, hq⟩
    exact ⟨_, ⟨s, p, hm, hp, hpl, rfl⟩, hq⟩

theorem realloc_iff (h : Watched done live g) (hP : P.Bounded) (hop : op.Allowed numIds done)
    (ht : op.type = .realloc) {b : Held} (hb : live.find? (fun b => b.id = op.index) = some b)
    (hblock : g.blocks op.index = b.addr) (hsize : g.blockSizes op.index = word b.size) :
    (∃ g₁, P.validOp tracenum i op g = some (g₁, true) ∧ Q g₁) ↔
      ∃ s p, P.realloc g.heap b.addr (word op.size) = some (s, p) ∧ p ≠ 0 ∧
        P.Placed s (live.eraseP fun b => b.id = op.index) p op.size ∧
        Package.Kept (P.mem s) p op.index (min b.size op.size).toNat ∧
        Q (g.accept P s ((live.eraseP fun b => b.id = op.index).map Held.range) p op) := by
  obtain ⟨h0, hs⟩ := op_size hop (by simp [ht])
  obtain ⟨hb0, hbs⟩ := h.size_lt b (List.mem_of_find?_eq_some hb)
  have hk : (if op.size < toInt (g.blockSizes op.index) then op.size
      else toInt (g.blockSizes op.index)) = min b.size op.size := by
    rw [hsize, word_eq (by omega) (by omega), toInt_eq (by omega)]
    split <;> omega
  have hplaced := fun (s : σ) (p : Nat) => @Package.not_endsCaught_iff σ P s
    (live.eraseP fun b => b.id = op.index) p op.size hP h0 hs
    fun c hc => (h.sizes c (List.eraseP_sublist.subset hc)).1
  have hkept : ∀ s p, P.Placed s (live.eraseP fun b => b.id = op.index) p op.size →
      (preserved (P.mem s) p op.index (min b.size op.size) = true ↔
        Package.Kept (P.mem s) p op.index (min b.size op.size).toNat) := by
    intro s p hp
    have hsub := (payload_subset h0).mp hp.inHeap
    have hspan := hP s
    exact preserved_iff (by omega) (by omega)
  simp only [Package.validOp_realloc_iff ht h0 hk, hblock, h.removeRange_eq hb, hplaced]
  constructor
  · rintro ⟨_, ⟨s, p, hm, hp, hpl, hpres, rfl⟩, hq⟩
    exact ⟨s, p, hm, hp, hpl, (hkept s p hpl).mp hpres, hq⟩
  · rintro ⟨s, p, hm, hp, hpl, hpres, hq⟩
    exact ⟨_, ⟨s, p, hm, hp, hpl, (hkept s p hpl).mpr hpres, rfl⟩, hq⟩

end Calls

theorem loop (h : Watched done live g) (hP : P.Bounded)
    (hseq : TraceOp.Sequence numIds done ops) :
    (∃ g', P.validLoop tracenum i ops g = some (g', 1)) ↔ P.Passes ops live g.heap := by
  induction ops generalizing done live g i with
  | nil => simp [Package.validLoop, Package.Passes]
  | cons op ops ih =>
    have hop := hseq.1
    rw [Package.validLoop_cons_iff, Package.Passes]
    cases ht : op.type with
    | alloc =>
      have hrest : rest op live = live := if_pos ht
      have hnext : ∀ s p, P.Placed s live p op.size → Watched (done ++ [op])
          (⟨op.index, p, op.size⟩ :: live) (g.accept P s (live.map Held.range) p op) := by
        intro s p hp
        have hacc := h.accept hP hop (by simp [ht]) (hrest.symm ▸ hp)
        rwa [hrest] at hacc
      rw [h.alloc_iff hP hop ht]
      refine exists₂_congr fun s p => and_congr_right fun _ => and_congr_right fun _ => ?_
      exact and_congr_right fun hp => ih (hnext s p hp) hseq.2
    | realloc =>
      obtain ⟨b, hb, hblock, hsize⟩ := h.find hop (by simp [ht])
      have hrest : rest op live = live.eraseP fun b => b.id = op.index := if_neg (by simp [ht])
      have hnext : ∀ s p, P.Placed s (live.eraseP fun b => b.id = op.index) p op.size →
          Watched (done ++ [op]) (⟨op.index, p, op.size⟩ :: live.eraseP fun b => b.id = op.index)
            (g.accept P s ((live.eraseP fun b => b.id = op.index).map Held.range) p op) := by
        intro s p hp
        have hacc := h.accept hP hop (by simp [ht]) (hrest.symm ▸ hp)
        rwa [hrest] at hacc
      rw [h.realloc_iff hP hop ht hb hblock hsize]
      simp only [hb, Option.some.injEq, exists_and_left, exists_eq_left']
      refine exists₂_congr fun s p => and_congr_right fun _ => and_congr_right fun _ => ?_
      exact and_congr_right fun hp => and_congr_right fun _ => ih (hnext s p hp) hseq.2
    | free =>
      obtain ⟨b, hb, hblock, _⟩ := h.find hop (by simp [ht])
      simp only [Package.validOp_free_iff ht, hblock, h.removeRange_eq hb]
      constructor
      · rintro ⟨_, ⟨s, hf, rfl⟩, hl⟩
        exact ⟨b, s, hb, hf, (ih (h.drop ht s) hseq.2).mp hl⟩
      · rintro ⟨c, s, hc, hf, hl⟩
        obtain rfl := Option.some.inj (hb.symm.trans hc)
        exact ⟨_, ⟨s, hf, rfl⟩, (ih (h.drop ht s) hseq.2).mpr hl⟩

end Watched

end Bookkeeping

end CsoMalloc
