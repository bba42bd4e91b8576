import CsoMalloc.Rehearsal
import CsoMalloc.Validity

/-! What `eval_mm_valid` reports. On every trace it reports one error or none;
on a well-formed trace the report is the one that the rehearsal predicts. -/

namespace CsoMalloc

open ByteMemory

deriving instance DecidableEq for Report

def OpType.failure : OpType → Message
  | .realloc => .reallocFailed
  | _ => .mallocFailed

/-- How an operation will be judged. Its call may return `NULL`, and the bytes of
a reallocated block compare equal only if the low byte of the id is below 128. -/
def Rehearsal.verdict (page : Size) (R : Rehearsal) (op : TraceOp) : Except Message Rehearsal :=
  match R.step page op with
  | none => .error op.type.failure
  | some R =>
    if op.type = .realloc ∧ ¬ op.index % 256 < 128 then .error .notPreserved else .ok R

/-- The report to expect of the operations, the first of which has number `i`. -/
def Rehearsal.report (page : Size) (tracenum : Int) : Nat → List TraceOp → Rehearsal → Option Report
  | _, [], _ => none
  | i, op :: ops, R =>
    match R.verdict page op with
    | .error msg => some ⟨tracenum, i, msg⟩
    | .ok R => report page tracenum (i + 1) ops R

theorem Rehearsal.step_of_verdict {page : Size} {R R' : Rehearsal} {op : TraceOp}
    (h : R.verdict page op = .ok R') : R.step page op = some R' := by
  rw [verdict] at h
  split at h
  · exact absurd h (by simp)
  · next hs =>
    split at h
    · exact absurd h (by simp)
    · rw [hs, Except.ok.inj h]

def Trace.report (t : Trace) (page : Size) (tracenum : Int) : Option Report :=
  Rehearsal.report page tracenum 0 t.ops (.initial page)

/-- From `d` to `d'` nothing was reported if `ok`, and one error of the operation
otherwise. -/
def Reported (tracenum : Int) (i : Nat) (d d' : Driver) (ok : Bool) : Prop :=
  if ok then d'.errors = d.errors
  else ∃ msg, d'.errors = d.errors ++ [⟨tracenum, i, msg⟩]

section Inversion

variable {tracenum : Int} {i : Nat} {op : TraceOp} {d d' : Driver} {p : Nat} {size : Int}
  {ok : Bool}

theorem Driver.addRange_inv (h : d.addRange p size tracenum i = some (d', ok)) :
    d'.heap = d.heap ∧ d'.blocks = d.blocks ∧ d'.blockSizes = d.blockSizes ∧
      Reported tracenum i d d' ok := by
  obtain ⟨⟨ranges, msg⟩, _, hr⟩ := Option.map_eq_some_iff.mp h
  cases msg with
  | none =>
    obtain ⟨rfl, rfl⟩ := Prod.mk.inj hr
    exact ⟨rfl, rfl, rfl, rfl⟩
  | some msg =>
    obtain ⟨rfl, rfl⟩ := Prod.mk.inj hr
    exact ⟨rfl, rfl, rfl, msg, rfl⟩

/-- What an accepted allocating operation leaves: the heap of the call with the
payload filled, and the block remembered. -/
structure Remembered (d' : Driver) (d : Driver) (op : TraceOp) (s : State) (p : Nat) : Prop where
  heap : d'.heap = { s with mem := memset s.mem p (fillByte op.index) (word op.size) }
  blocks : d'.blocks = Function.update d.blocks op.index p
  blockSizes : d'.blockSizes = Function.update d.blockSizes op.index (word op.size)

theorem Remembered.of_addRange {d₁ : Driver} {s : State} {ranges : List Range}
    (h : Driver.addRange { d with heap := s, ranges := ranges } p size tracenum i = some (d₁, ok)) :
    Remembered (d₁.remember op.index p op.size) d op s p := by
  obtain ⟨hh, hb, hs, _⟩ := Driver.addRange_inv h
  refine ⟨?_, ?_, ?_⟩
  · rw [Driver.remember, hh]
    rfl
  · rw [Driver.remember, hb]
  · rw [Driver.remember, hs]

theorem validOp_alloc_inv (ht : op.type = .alloc) (h : validOp tracenum i op d = some (d', ok)) :
    Reported tracenum i d d' ok ∧ ∃ s p, mmMalloc d.heap (word op.size) = some (s, p) ∧
      (ok = true → Remembered d' d op s p) := by
  rw [validOp, ht] at h
  obtain ⟨⟨s, p⟩, he, h⟩ := Option.bind_eq_some_iff.mp h
  by_cases hp : p = 0
  · simp only [hp, if_true, Option.pure_def, Option.some.injEq, Prod.mk.injEq] at h
    obtain ⟨rfl, rfl⟩ := h
    exact ⟨⟨_, rfl⟩, s, p, he, by simp⟩
  · simp only [hp, if_false] at h
    obtain ⟨⟨d₁, ok₁⟩, ha, h⟩ := Option.bind_eq_some_iff.mp h
    have hr := (Driver.addRange_inv ha).2.2.2
    cases ok₁ with
    | false =>
      obtain ⟨rfl, rfl⟩ := Prod.mk.inj (Option.some.inj h)
      exact ⟨hr, s, p, he, by simp⟩
    | true =>
      obtain ⟨rfl, rfl⟩ := Prod.mk.inj (Option.some.inj h)
      exact ⟨hr, s, p, he, fun _ => Remembered.of_addRange ha⟩

theorem validOp_realloc_inv (ht : op.type = .realloc)
    (h : validOp tracenum i op d = some (d', ok)) :
    Reported tracenum i d d' ok ∧ ∃ s p,
      mmRealloc d.heap (d.blocks op.index) (word op.size) = some (s, p) ∧
      (ok = true → Remembered d' d op s p) := by
  rw [validOp, ht] at h
  obtain ⟨⟨s, p⟩, he, h⟩ := Option.bind_eq_some_iff.mp h
  by_cases hp : p = 0
  · simp only [hp, if_true, Option.pure_def, Option.some.injEq, Prod.mk.injEq] at h
    obtain ⟨rfl, rfl⟩ := h
    exact ⟨⟨_, rfl⟩, s, p, he, by simp⟩
  · simp only [hp, if_false] at h
    obtain ⟨⟨d₁, ok₁⟩, ha, h⟩ := Option.bind_eq_some_iff.mp h
    have hr := (Driver.addRange_inv ha).2.2.2
    cases ok₁ with
    | false =>
      obtain ⟨rfl, rfl⟩ := Prod.mk.inj (Option.some.inj h)
      exact ⟨hr, s, p, he, by simp⟩
    | true =>
      simp only [Bool.true_eq_false, if_false] at h
      generalize (if op.size < toInt (d₁.blockSizes op.index) then op.size
        else toInt (d₁.blockSizes op.index)) = k at h
      cases hk : preserved d₁.heap.mem p op.index k with
      | false =>
        rw [hk, if_pos rfl] at h
        obtain ⟨rfl, rfl⟩ := Prod.mk.inj (Option.some.inj h)
        refine ⟨⟨.notPreserved, ?_⟩, s, p, he, by simp⟩
        rw [Driver.mallocError, show d₁.errors = d.errors from hr]
      | true =>
        rw [hk, if_neg (by simp)] at h
        obtain ⟨rfl, rfl⟩ := Prod.mk.inj (Option.some.inj h)
        exact ⟨hr, s, p, he, fun _ => Remembered.of_addRange ha⟩

theorem validOp_free_inv (ht : op.type = .free) (h : validOp tracenum i op d = some (d', ok)) :
    ok = true ∧ d'.errors = d.errors ∧ mmFree d.heap (d.blocks op.index) = some d'.heap ∧
      d'.blocks = d.blocks ∧ d'.blockSizes = d.blockSizes := by
  rw [validOp, ht] at h
  obtain ⟨s, he, h⟩ := Option.bind_eq_some_iff.mp h
  obtain ⟨rfl, rfl⟩ := Prod.mk.inj (Option.some.inj h)
  exact ⟨rfl, rfl, he, rfl, rfl⟩

theorem validOp_reported (h : validOp tracenum i op d = some (d', ok)) :
    Reported tracenum i d d' ok := by
  cases ht : op.type with
  | alloc => exact (validOp_alloc_inv ht h).1
  | realloc => exact (validOp_realloc_inv ht h).1
  | free =>
    obtain ⟨rfl, herr, _⟩ := validOp_free_inv ht h
    exact herr

theorem validLoop_reported {ops : List TraceOp} {r : Int}
    (h : validLoop tracenum i ops d = some (d', r)) :
    r = 1 ∧ d'.errors = d.errors ∨
      r = 0 ∧ ∃ k msg, d'.errors = d.errors ++ [⟨tracenum, k, msg⟩] := by
  induction ops generalizing i d with
  | nil =>
    obtain ⟨rfl, rfl⟩ := Prod.mk.inj (Option.some.inj h)
    exact .inl ⟨rfl, rfl⟩
  | cons op ops ih =>
    obtain ⟨⟨d₁, ok⟩, he, h⟩ := Option.bind_eq_some_iff.mp h
    have hr := validOp_reported he
    cases ok with
    | false =>
      obtain ⟨rfl, rfl⟩ := Prod.mk.inj (Option.some.inj h)
      obtain ⟨msg, hmsg⟩ := hr
      exact .inr ⟨rfl, i, msg, hmsg⟩
    | true =>
      have herr : d₁.errors = d.errors := hr
      rw [← herr]
      exact ih h

theorem evalMmValid_reported {arena pagesize : Nat} {t : Trace} {r : Int}
    (h : evalMmValid arena pagesize t tracenum d = some (d', r)) :
    r = 1 ∧ d'.errors = d.errors ∨
      r = 0 ∧ ∃ k msg, d'.errors = d.errors ++ [⟨tracenum, k, msg⟩] := by
  obtain ⟨⟨s, k⟩, _, h⟩ := Option.bind_eq_some_iff.mp h
  by_cases hk : k < 0
  · simp only [hk, if_true, Option.pure_def, Option.some.injEq, Prod.mk.injEq] at h
    obtain ⟨rfl, rfl⟩ := h
    exact .inr ⟨rfl, 0, .initFailed, rfl⟩
  · simp only [hk, if_false] at h
    have hl := validLoop_reported h
    exact hl

end Inversion

section Prediction

variable {E : Env} {R : Rehearsal} {numIds tracenum : Int} {i : Nat} {done : List TraceOp}
  {op : TraceOp} {rs : List Request} {d d' : Driver} {s : State} {p : Nat} {w v : World}
  {held grip : List (Int × Live)} {b : Live}

theorem validOp_alloc_null (ht : op.type = .alloc)
    (he : mmMalloc d.heap (word op.size) = some (s, 0)) :
    validOp tracenum i op d =
      some ({ d with heap := s }.mallocError tracenum i .mallocFailed, false) := by
  rw [validOp, ht]
  dsimp only
  rw [he]
  rfl

theorem validOp_realloc_null (ht : op.type = .realloc)
    (he : mmRealloc d.heap (d.blocks op.index) (word op.size) = some (s, 0)) :
    validOp tracenum i op d =
      some ({ d with heap := s }.mallocError tracenum i .reallocFailed, false) := by
  rw [validOp, ht]
  dsimp only
  rw [he]
  rfl

theorem DriverInvariant.realloc_report (h : DriverInvariant E done rs d w held)
    (hop : op.Allowed numIds done) (ht : op.type = .realloc)
    (hnull : ∀ s, mmRealloc d.heap (d.blocks op.index) (word op.size) ≠ some (s, 0))
    (hv : validOp tracenum i op d = some (d', false)) :
    d'.errors = d.errors ++ [⟨tracenum, i, .notPreserved⟩] := by
  obtain ⟨c, hc, hf, hptr, _, s, p, he, hok⟩ := h.tracks.realloc hop ht
  rw [h.heap, ← hptr] at he
  have hp : p ≠ 0 := fun hp => hnull s (hp ▸ he)
  obtain ⟨w', b, ht', hs, hbp, hb, _⟩ := hok hp
  obtain ⟨hsz, _, _⟩ := Tracks.size_eq hop (by simp [ht])
  have hlive : w'.live = b :: Live.drop w.live c.id := by
    rw [ht'.live, h.tracks.drop_eq hf]
    rfl
  have hadd := ht'.run.addRange_live hlive (show op.size = b.size by rw [hb, hsz])
  rw [hs, hbp, ← h.tracks.run.removeRange_live hc, ← h.ranges, ← hptr] at hadd
  obtain ⟨k, hk⟩ : ∃ k, (if op.size < toInt (d.blockSizes op.index) then op.size
      else toInt (d.blockSizes op.index)) = k := ⟨_, rfl⟩
  obtain ⟨t, ht₁⟩ : ∃ t : Driver, t = { d with heap := s, ranges := w'.live.map Live.range } :=
    ⟨_, rfl⟩
  have heq : validOp tracenum i op d = if preserved s.mem p op.index k
      then some (t.remember op.index p op.size, true)
      else some (t.mallocError tracenum i .notPreserved, false) := by
    rw [ht₁]
    exact validOp_realloc ht he hp (Driver.addRange_eq hadd) hk
  cases hx : preserved s.mem p op.index k with
  | true =>
    rw [heq, hx] at hv
    exact absurd (Prod.mk.inj (Option.some.inj hv)).2 (by simp)
  | false =>
    rw [heq, hx] at hv
    obtain rfl := (Prod.mk.inj (Option.some.inj hv)).1
    rw [Driver.mallocError, ht₁]

theorem Rehearsed.fill (h : Rehearsed E R done v ((op.index, b) :: grip) d'.blocks d'.blockSizes)
    (hv : v.heap = s) (hp : b.ptr = p) (hb : b.size = word op.size) (hr : Remembered d' d op s p) :
    ∃ v', v'.heap = d'.heap ∧
      Rehearsed E R done v' ((op.index, b) :: grip) d'.blocks d'.blockSizes := by
  obtain ⟨_, htr, _⟩ := h.tracks
  have hbl : b ∈ v.live := htr.live ▸ List.mem_cons_self
  refine ⟨v.write (memset v.heap.mem p (fillByte op.index) (word op.size)), ?_,
    h.write fun a ha => ?_⟩
  · rw [hr.heap, World.write, hv]
  · have := ha b hbl
    exact overlay_out (by omega)

/-- The driver after `done` is where the rehearsal says it is. -/
structure Predicted (E : Env) (R : Rehearsal) (done : List TraceOp) (d : Driver) : Prop where
  invariant : ∃ rs w held, DriverInvariant E done rs d w held
  rehearsed : ∃ v grip, v.heap = d.heap ∧ Rehearsed E R done v grip d.blocks d.blockSizes

def Predicted.Judged (E : Env) (R : Rehearsal) (done : List TraceOp) (d : Driver) (tracenum : Int)
    (i : Nat) (op : TraceOp) (d' : Driver) : Prop :=
  match R.verdict E.page op with
  | .error msg => validOp tracenum i op d = some (d', false) ∧
      d'.errors = d.errors ++ [⟨tracenum, i, msg⟩]
  | .ok R' => validOp tracenum i op d = some (d', true) ∧ d'.errors = d.errors ∧
      Predicted E R' (done ++ [op]) d'

theorem Predicted.alloc (h : Predicted E R done d) (hop : op.Allowed numIds done)
    (ht : op.type = .alloc) : ∃ d', Predicted.Judged E R done d tracenum i op d' := by
  obtain ⟨rs, w, held, hinv⟩ := h.invariant
  obtain ⟨v, grip, hv, hre⟩ := h.rehearsed
  obtain ⟨s, p, he, hcase⟩ := hre.alloc hop ht
  rw [hv] at he
  rcases hcase with ⟨rfl, hstep⟩ | ⟨hp, R', v', b, hstep, hs, hbp, hb, hre'⟩
  · refine ⟨Driver.mallocError { d with heap := s } tracenum i .mallocFailed, ?_⟩
    simp only [Predicted.Judged, Rehearsal.verdict, hstep, OpType.failure, ht]
    exact ⟨validOp_alloc_null ht he, rfl⟩
  · have hnull : ∀ s, mmMalloc d.heap (word op.size) ≠ some (s, 0) := fun t hz =>
      hp (Prod.mk.inj (Option.some.inj (he.symm.trans hz))).2
    obtain ⟨d', hd', herr, w', held', hinv'⟩ := hinv.alloc hop ht hnull
    obtain ⟨_, s₁, p₁, he₁, hrem⟩ := validOp_alloc_inv ht hd'
    obtain ⟨rfl, rfl⟩ := Prod.mk.inj (Option.some.inj (he.symm.trans he₁))
    have hrem := hrem rfl
    rw [← hrem.blocks, ← hrem.blockSizes] at hre'
    obtain ⟨u, hu, hre''⟩ := hre'.fill hs hbp hb hrem
    refine ⟨d', ?_⟩
    simp only [Predicted.Judged, Rehearsal.verdict, hstep, ht, reduceCtorEq, false_and, if_false]
    exact ⟨hd', herr, ⟨_, w', held', hinv'⟩, u, _, hu, hre''⟩

theorem Predicted.realloc (h : Predicted E R done d) (hop : op.Allowed numIds done)
    (ht : op.type = .realloc) : ∃ d', Predicted.Judged E R done d tracenum i op d' := by
  obtain ⟨rs, w, held, hinv⟩ := h.invariant
  obtain ⟨v, grip, hv, hre⟩ := h.rehearsed
  obtain ⟨s, p, he, hcase⟩ := hre.realloc hop ht
  rw [hv] at he
  rcases hcase with ⟨rfl, hstep⟩ | ⟨hp, R', v', b, hstep, hs, hbp, hb, hre'⟩
  · refine ⟨Driver.mallocError { d with heap := s } tracenum i .reallocFailed, ?_⟩
    simp only [Predicted.Judged, Rehearsal.verdict, hstep, OpType.failure, ht]
    exact ⟨validOp_realloc_null ht he, rfl⟩
  · have hnull : ∀ s, mmRealloc d.heap (d.blocks op.index) (word op.size) ≠ some (s, 0) :=
      fun t hz => hp (Prod.mk.inj (Option.some.inj (he.symm.trans hz))).2
    obtain ⟨d', hd', hinv'⟩ := hinv.realloc hop ht hnull
    refine ⟨d', ?_⟩
    by_cases hlow : op.index % 256 < 128
    · rw [decide_eq_true hlow] at hd'
      obtain ⟨herr, rs', w', held', hinv'⟩ := hinv' hlow
      obtain ⟨_, s₁, p₁, he₁, hrem⟩ := validOp_realloc_inv ht hd'
      obtain ⟨rfl, rfl⟩ := Prod.mk.inj (Option.some.inj (he.symm.trans he₁))
      have hrem := hrem rfl
      rw [← hrem.blocks, ← hrem.blockSizes] at hre'
      obtain ⟨u, hu, hre''⟩ := hre'.fill hs hbp hb hrem
      simp only [Predicted.Judged, Rehearsal.verdict, hstep, hlow, not_true_eq_false, and_false,
        if_false]
      exact ⟨hd', herr, ⟨rs', w', held', hinv'⟩, u, _, hu, hre''⟩
    · rw [decide_eq_false hlow] at hd'
      simp only [Predicted.Judged, Rehearsal.verdict, hstep, ht, hlow, not_false_eq_true, and_self,
        if_true]
      exact ⟨hd', hinv.realloc_report hop ht hnull hd'⟩

theorem Predicted.free (h : Predicted E R done d) (hop : op.Allowed numIds done)
    (ht : op.type = .free) : ∃ d', Predicted.Judged E R done d tracenum i op d' := by
  obtain ⟨rs, w, held, hinv⟩ := h.invariant
  obtain ⟨v, grip, hv, hre⟩ := h.rehearsed
  obtain ⟨s, R', v', he, hstep, hs, hre'⟩ := hre.free hop ht
  rw [hv] at he
  obtain ⟨d', hd', herr, hinv'⟩ := hinv.free hop ht
  obtain ⟨_, _, he', hb, hz⟩ := validOp_free_inv ht hd'
  obtain rfl := Option.some.inj (he.symm.trans he')
  rw [← hb, ← hz] at hre'
  refine ⟨d', ?_⟩
  simp only [Predicted.Judged, Rehearsal.verdict, hstep, ht, reduceCtorEq, false_and, if_false]
  exact ⟨hd', herr, hinv', v', _, hs, hre'⟩

theorem Predicted.step (h : Predicted E R done d) (hop : op.Allowed numIds done)
    (tracenum : Int) (i : Nat) : ∃ d', Predicted.Judged E R done d tracenum i op d' := by
  cases ht : op.type with
  | alloc => exact h.alloc hop ht
  | realloc => exact h.realloc hop ht
  | free => exact h.free hop ht

theorem Predicted.loop (h : Predicted E R done d) {ops : List TraceOp}
    (hseq : TraceOp.Sequence numIds done ops) (tracenum : Int) (i : Nat) :
    ∃ d', validLoop tracenum i ops d =
        some (d', if (R.report E.page tracenum i ops).isSome then 0 else 1) ∧
      d'.errors = d.errors ++ (R.report E.page tracenum i ops).toList ∧
      (R.report E.page tracenum i ops = none → ∃ R', R.loop E.page ops = some R' ∧
        Predicted E R' (done ++ ops) d') := by
  induction ops generalizing R done d i with
  | nil => exact ⟨d, rfl, by simp [Rehearsal.report], fun _ => ⟨R, rfl, by simpa using h⟩⟩
  | cons op ops ih =>
    obtain ⟨d₁, hd₁⟩ := h.step hseq.1 tracenum i
    rw [Predicted.Judged] at hd₁
    rw [validLoop, Rehearsal.report]
    cases hver : R.verdict E.page op with
    | error msg =>
      rw [hver] at hd₁
      obtain ⟨he, herr⟩ := hd₁
      rw [he]
      exact ⟨d₁, rfl, herr, by simp⟩
    | ok R' =>
      rw [hver] at hd₁
      obtain ⟨he, herr, hp⟩ := hd₁
      obtain ⟨d', hl, herr', hnone⟩ := ih hp hseq.2 (i + 1)
      rw [he, Option.bind_eq_bind, Option.bind_some]
      refine ⟨d', hl, herr'.trans (by rw [herr]), fun hr => ?_⟩
      obtain ⟨R'', hR, hp'⟩ := hnone hr
      rw [List.append_assoc, List.singleton_append] at hp'
      refine ⟨R'', ?_, hp'⟩
      rw [Rehearsal.loop, Rehearsal.step_of_verdict hver]
      exact hR

theorem evalMmValid_predicted (E : Env) {t : Trace} (ht : t.WellFormed) (tracenum : Int)
    (d : Driver) :
    ∃ d', evalMmValid E.base E.pageSize t tracenum d =
        some (d', if (t.report E.page tracenum).isSome then 0 else 1) ∧
      d'.errors = d.errors ++ (t.report E.page tracenum).toList ∧
      (t.report E.page tracenum = none → ∃ R, t.rehearse E.page = some R ∧
        Predicted E R t.ops d') := by
  obtain ⟨s, hs, _⟩ := mmInit_refines E d.heap.memResetBrk
  have hinit : Predicted E (.initial E.page) [] { d with heap := s, ranges := [] } :=
    ⟨⟨_, _, [], Tracks.init hs, rfl, rfl, by simp⟩, _, [], rfl, Rehearsed.init hs⟩
  obtain ⟨d', hl, herr, hnone⟩ := hinit.loop ht tracenum 0
  refine ⟨d', ?_, herr, hnone⟩
  rw [evalMmValid, hs, Option.bind_eq_bind, Option.bind_some]
  exact hl

/-- On every well-formed trace `eval_mm_valid` returns, and it reports what the
rehearsal predicts and nothing else, whatever was in memory and whichever traces
came before. -/
theorem eval_mm_valid_exact (E : Env) {t : Trace} (ht : t.WellFormed) (tracenum : Int) (d : Driver) :
    ∃ d', evalMmValid E.base E.pageSize t tracenum d =
        some (d', if (t.report E.page tracenum).isSome then 0 else 1) ∧
      d'.errors = d.errors ++ (t.report E.page tracenum).toList := by
  obtain ⟨d', he, herr, _⟩ := evalMmValid_predicted E ht tracenum d
  exact ⟨d', he, herr⟩

theorem eval_mm_valid_exact_high_id :
    ∃ d', evalMmValid Env.small.base Env.small.pageSize (reallocTrace 128) 7
        ⟨default, [], fun _ => 0, fun _ => 0, []⟩ = some (d', 0) ∧
      d'.errors = [⟨7, 1, .notPreserved⟩] := by
  have hreport : (reallocTrace 128).report Env.small.page 7 = some ⟨7, 1, .notPreserved⟩ := by
    decide
  obtain ⟨d', he, herr⟩ := eval_mm_valid_exact Env.small (reallocTrace_wellFormed 128 (by decide)) 7
    ⟨default, [], fun _ => 0, fun _ => 0, []⟩
  rw [hreport] at he herr
  exact ⟨d', he, herr⟩

end Prediction

end CsoMalloc
