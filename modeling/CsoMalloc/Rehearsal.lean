import CsoMalloc.Replay

/-! A replay of a trace on paper. The operations of a trace determine the calls
that a replay makes, and the plan of these calls determines their results, so a
rehearsal knows in advance what the replays of the driver will see. -/

namespace CsoMalloc

open ByteMemory

/-- What the call returns, as an offset from the base of the heap. -/
def Plan.answer (page : Size) (P : Plan) (q : Request) : Option Nat :=
  (P.call page q).log.getLast?.bind Prod.fst

/-- A plan, and the ids in use with the number of the call that returned the
block of each, the newest first. -/
structure Rehearsal where
  plan : Plan
  calls : List (Int × Nat)

namespace Rehearsal

def initial (page : Size) : Rehearsal := ⟨Plan.initial page, []⟩

def request (R : Rehearsal) (op : TraceOp) : Option Request :=
  match op.type with
  | .alloc => some (.malloc (word op.size))
  | .realloc => (R.calls.find? fun c => c.1 = op.index).map fun c => .realloc c.2 (word op.size)
  | .free => (R.calls.find? fun c => c.1 = op.index).map fun c => .free c.2

def hold (R : Rehearsal) (op : TraceOp) : List (Int × Nat) :=
  match op.type with
  | .alloc => (op.index, R.plan.log.length) :: R.calls
  | .realloc => (op.index, R.plan.log.length) :: R.calls.eraseP fun c => c.1 = op.index
  | .free => R.calls.eraseP fun c => c.1 = op.index

/-- One operation of the trace; there is no next state when its call returns
`NULL`. -/
def step (page : Size) (R : Rehearsal) (op : TraceOp) : Option Rehearsal := do
  let q ← R.request op
  if op.type ≠ .free ∧ R.plan.answer page q = none then none
  else return ⟨R.plan.call page q, R.hold op⟩

def loop (page : Size) : List TraceOp → Rehearsal → Option Rehearsal
  | [], R => some R
  | op :: ops, R => do
    let R ← R.step page op
    loop page ops R

end Rehearsal

/-- The rehearsal of the whole trace; there is none if a call returns `NULL`. -/
def Trace.rehearse (t : Trace) (page : Size) : Option Rehearsal :=
  Rehearsal.loop page t.ops (.initial page)

/-- The world reached by a replay of `done` is the one that was rehearsed. -/
structure Rehearsed (E : Env) (R : Rehearsal) (done : List TraceOp) (w : World)
    (held : List (Int × Live)) (blocks blockSizes : Int → Nat) : Prop where
  tracks : ∃ rs, Tracks E done rs w held blocks blockSizes ∧ R.plan = Plan.run E.page rs
  calls : R.calls = held.map fun g => (g.1, g.2.id)

section Answers

variable {P : Plan} {page : Size} {b : Live} {k n : Nat}

theorem Plan.answer_malloc : P.answer page (.malloc n) = (P.layout.malloc page n).2 := by
  simp [answer, call_malloc]

theorem Plan.answer_realloc (hb : Live.find P.live k = some b) :
    P.answer page (.realloc k n) = (P.layout.realloc page b.ptr n).2 := by
  simp [answer, call_realloc hb]

theorem Env.ptr_eq_zero {E : Env} {r : Option Nat} : E.ptr r = 0 ↔ r = none := by
  have := E.base_pos
  cases r with
  | none => simp [Env.ptr]
  | some o =>
    simp only [Env.ptr, reduceCtorEq, iff_false]
    omega

end Answers

namespace Rehearsal

variable {R : Rehearsal} {page : Size} {op : TraceOp} {c : Int × Nat}

theorem step_alloc (ht : op.type = .alloc) :
    R.step page op = if (R.plan.layout.malloc page (word op.size)).2 = none then none
      else some ⟨R.plan.call page (.malloc (word op.size)),
        (op.index, R.plan.log.length) :: R.calls⟩ := by
  simp [step, request, hold, ht, Plan.answer_malloc]

theorem step_realloc (ht : op.type = .realloc)
    (hc : R.calls.find? (fun c => c.1 = op.index) = some c) :
    R.step page op = if R.plan.answer page (.realloc c.2 (word op.size)) = none then none
      else some ⟨R.plan.call page (.realloc c.2 (word op.size)),
        (op.index, R.plan.log.length) :: R.calls.eraseP fun c => c.1 = op.index⟩ := by
  simp [step, request, hold, ht, hc]

theorem step_free (ht : op.type = .free)
    (hc : R.calls.find? (fun c => c.1 = op.index) = some c) :
    R.step page op =
      some ⟨R.plan.call page (.free c.2), R.calls.eraseP fun c => c.1 = op.index⟩ := by
  simp [step, request, hold, ht, hc]

end Rehearsal

namespace Rehearsed

variable {E : Env} {R R' : Rehearsal} {numIds : Int} {done : List TraceOp} {op : TraceOp}
  {rs : List Request} {w w' : World} {held rest : List (Int × Live)} {b : Live}
  {blocks blockSizes : Int → Nat}

theorem init {s s' : State} (h : mmInit E.base E.pageSize s = some (s', 0)) :
    Rehearsed E (.initial E.page) [] ⟨s', [], []⟩ [] blocks blockSizes :=
  ⟨⟨[], Tracks.init h, rfl⟩, rfl⟩

theorem find_call (h : Rehearsed E R done w held blocks blockSizes) {i : Int} {g : Int × Live}
    (hf : held.find? (fun g => g.1 = i) = some g) :
    R.calls.find? (fun c => c.1 = i) = some (g.1, g.2.id) := by
  rw [h.calls, List.find?_map]
  exact congrArg (Option.map _) hf

theorem eraseP_calls (h : Rehearsed E R done w held blocks blockSizes) (i : Int) :
    R.calls.eraseP (fun c => c.1 = i) =
      (held.eraseP fun g => g.1 = i).map fun g => (g.1, g.2.id) := by
  rw [h.calls, List.eraseP_map]
  rfl

theorem newest_id {q : Request} {x : Live} {live : List Live}
    (ht : Tracks E done (rs ++ [q]) w ((op.index, b) :: rest) blocks blockSizes)
    (hl : ((Plan.run E.page rs).call E.page q).live = x :: live) : b.id = x.id := by
  have hm := ht.run.matches.1
  have hlive := ht.live.symm.trans hm.live
  rw [Plan.run_append, hl, List.map_cons, List.map_cons] at hlive
  have hb : b = Live.shift E.base x := (List.cons.inj hlive).1
  rw [hb]
  rfl

theorem answered {q : Request} {o n : Nat} {live : List Live} {calls : List (Int × Nat)}
    (hplan : R.plan = Plan.run E.page rs)
    (hlive : (R.plan.call E.page q).live = ⟨R.plan.log.length, o, n⟩ :: live)
    (ht : Tracks E done (rs ++ [q]) w ((op.index, b) :: rest) blocks blockSizes)
    (hcalls : calls = rest.map fun g => (g.1, g.2.id)) :
    Rehearsed E ⟨R.plan.call E.page q, (op.index, R.plan.log.length) :: calls⟩ done w
      ((op.index, b) :: rest) blocks blockSizes := by
  refine ⟨⟨rs ++ [q], ht, ?_⟩, ?_⟩
  · rw [Plan.run_append, hplan]
  · have hid : b.id = R.plan.log.length := by
      rw [hplan] at hlive ⊢
      exact newest_id ht hlive
    rw [List.map_cons, hid, hcalls]

theorem alloc (h : Rehearsed E R done w held blocks blockSizes) (hop : op.Allowed numIds done)
    (ht : op.type = .alloc) :
    ∃ s p, mmMalloc w.heap (word op.size) = some (s, p) ∧
      (p = 0 ∧ R.step E.page op = none ∨ p ≠ 0 ∧ ∃ R' w' b, R.step E.page op = some R' ∧
        w'.heap = s ∧ b.ptr = p ∧ b.size = word op.size ∧
        Rehearsed E R' (done ++ [op]) w' ((op.index, b) :: held)
          (Function.update blocks op.index p) (Function.update blockSizes op.index (word op.size))) := by
  obtain ⟨rs, htr, hplan⟩ := h.tracks
  obtain ⟨hm, hwf⟩ := htr.run.matches
  obtain ⟨s, p, he, hok⟩ := htr.alloc hop ht
  obtain ⟨_, hmax, _⟩ := Tracks.size_eq hop (by simp [ht])
  have hp : p = E.ptr (R.plan.layout.malloc E.page (word op.size)).2 := by
    obtain ⟨t, ht', _⟩ := hm.heap.malloc hwf.layout hmax
    rw [hplan]
    exact (Prod.mk.inj (Option.some.inj (he.symm.trans ht'))).2
  refine ⟨s, p, he, ?_⟩
  rw [Rehearsal.step_alloc ht]
  cases hr : (R.plan.layout.malloc E.page (word op.size)).2 with
  | none =>
    rw [hr] at hp
    exact .inl ⟨hp, rfl⟩
  | some o =>
    rw [hr] at hp
    have hpz : p ≠ 0 := fun hz => absurd (Env.ptr_eq_zero.mp (hp.symm.trans hz)) (by simp)
    obtain ⟨w', b, htr', hs, hbp, hb, _⟩ := hok hpz
    have hlive : (R.plan.call E.page (.malloc (word op.size))).live =
        ⟨R.plan.log.length, o, word op.size⟩ :: R.plan.live := by
      rw [Plan.call_malloc, hr]
      rfl
    exact .inr ⟨hpz, _, w', b, rfl, hs, hbp, hb, answered hplan hlive htr' h.calls⟩

theorem realloc (h : Rehearsed E R done w held blocks blockSizes) (hop : op.Allowed numIds done)
    (ht : op.type = .realloc) :
    ∃ s p, mmRealloc w.heap (blocks op.index) (word op.size) = some (s, p) ∧
      (p = 0 ∧ R.step E.page op = none ∨ p ≠ 0 ∧ ∃ R' w' b, R.step E.page op = some R' ∧
        w'.heap = s ∧ b.ptr = p ∧ b.size = word op.size ∧
        Rehearsed E R' (done ++ [op]) w' ((op.index, b) :: held.eraseP fun g => g.1 = op.index)
          (Function.update blocks op.index p) (Function.update blockSizes op.index (word op.size))) := by
  obtain ⟨rs, htr, hplan⟩ := h.tracks
  obtain ⟨hm, hwf⟩ := htr.run.matches
  obtain ⟨c, hc, hf, hptr, _, s, p, he, hok⟩ := htr.realloc hop ht
  obtain ⟨_, hmax, _⟩ := Tracks.size_eq hop (by simp [ht])
  obtain ⟨d, hd, rfl⟩ : ∃ d ∈ R.plan.live, Live.shift E.base d = c := by
    rw [hplan]
    exact List.mem_map.mp (hm.live ▸ hc)
  rw [hplan] at hd
  have hfind : Live.find R.plan.live d.id = some d := by
    rw [hplan]
    obtain ⟨x, hx⟩ := Live.find_of_mem hd rfl
    obtain ⟨hxl, hxd⟩ := Live.find_some hx
    obtain rfl := List.inj_on_of_nodup_map hwf.ids hxl hd hxd
    exact hx
  obtain ⟨k, hk, _⟩ := hwf.owned d hd
  have hp : p = E.ptr (R.plan.layout.realloc E.page d.ptr (word op.size)).2 := by
    obtain ⟨t, ht', _⟩ := hm.heap.realloc hwf.layout hk hmax
    rw [hplan]
    exact (Prod.mk.inj (Option.some.inj (he.symm.trans ht'))).2
  refine ⟨s, p, hptr ▸ he, ?_⟩
  have hcall : R.calls.find? (fun c => c.1 = op.index) = some (op.index, d.id) := h.find_call hf
  rw [Rehearsal.step_realloc ht hcall, Plan.answer_realloc hfind]
  cases hr : (R.plan.layout.realloc E.page d.ptr (word op.size)).2 with
  | none =>
    rw [hr] at hp
    exact .inl ⟨hp, rfl⟩
  | some o =>
    rw [hr] at hp
    have hpz : p ≠ 0 := fun hz => absurd (Env.ptr_eq_zero.mp (hp.symm.trans hz)) (by simp)
    obtain ⟨w', b, htr', hs, hbp, hb, _⟩ := hok hpz
    have hlive : (R.plan.call E.page (.realloc d.id (word op.size))).live =
        ⟨R.plan.log.length, o, word op.size⟩ :: Live.drop R.plan.live d.id := by
      rw [Plan.call_realloc hfind, hr]
      rfl
    exact .inr ⟨hpz, _, w', b, rfl, hs, hbp, hb,
      answered hplan hlive htr' (h.eraseP_calls op.index)⟩

theorem free (h : Rehearsed E R done w held blocks blockSizes) (hop : op.Allowed numIds done)
    (ht : op.type = .free) :
    ∃ s R' w', mmFree w.heap (blocks op.index) = some s ∧ R.step E.page op = some R' ∧
      w'.heap = s ∧ Rehearsed E R' (done ++ [op]) w' (held.eraseP fun g => g.1 = op.index)
        blocks blockSizes := by
  obtain ⟨rs, htr, hplan⟩ := h.tracks
  obtain ⟨c, _, hf, hptr, _, s, w', he, htr', hs, _⟩ := htr.free hop ht
  refine ⟨s, _, w', hptr ▸ he, Rehearsal.step_free ht (h.find_call hf), hs, ⟨_, htr', ?_⟩, ?_⟩
  · rw [Plan.run_append, hplan]
  · exact h.eraseP_calls op.index

theorem write (h : Rehearsed E R done w held blocks blockSizes) {m : Mem}
    (hm : ∀ a, (∀ b ∈ w.live, a < b.ptr ∨ b.ptr + b.size ≤ a) → m a = w.heap.mem a) :
    Rehearsed E R done (w.write m) held blocks blockSizes := by
  obtain ⟨rs, htr, hplan⟩ := h.tracks
  exact ⟨⟨rs, ⟨.write htr.run hm, htr.live, htr.inUse, htr.current⟩, hplan⟩, h.calls⟩

theorem heapsize_eq (h : Rehearsed E R done w held blocks blockSizes) :
    w.heap.memHeapsize = R.plan.layout.heapsize := by
  obtain ⟨rs, htr, hplan⟩ := h.tracks
  rw [hplan, htr.run.heapsize_eq]

end Rehearsed

end CsoMalloc
