import CsoMalloc.Agreement
import CsoMalloc.TraceReader

/-! The loops of `main` over the traces: every trace is checked, then measured and
timed if it was accepted. Times are left out, and so is floating point. -/

namespace CsoMalloc

/-- Why the process ends before the summary is printed. -/
inductive Stop where
  | reading (e : Ending)
  | halted (e : Halt)
  | assertFailed

/-- `stats_t` without the time; the utilization as the two numbers divided. -/
structure Stats where
  ops : Nat
  valid : Int
  util : Option (Int × Nat)
  deriving DecidableEq

/-- What outlives a trace: the allocator, the range list, the errors reported and
the number of calls of `mem_init` so far. -/
structure Session where
  heap : State
  ranges : List Range
  errors : List Report
  arenas : Nat

/-- `ftimer_gettod` without its clock: call `f` the given number of times. -/
def ftimerGettod {σ : Type} (f : Nat → σ → Except Halt σ) : Nat → σ → Except Halt σ
  | 0, x => .ok x
  | n + 1, x => do
    let x ← ftimerGettod f n x
    f n x

section Main

variable (arena : Nat → Nat) (pagesize : Nat)

/-- One turn of the loop of `main` over the traces. The arena of the `k`-th call
of `mem_init` is at `arena k`, and `fresh` is what the two new arrays hold. -/
def Session.evalTrace (fresh : (Int → Nat) × (Int → Nat)) (tracenum : Int) (trace : Trace)
    (S : Session) : Except Halt (Session × Stats) := do
  let (d, valid) ← orDiverge (evalMmValid (arena S.arenas) pagesize trace tracenum
    ⟨S.heap, S.ranges, fresh.1, fresh.2, S.errors⟩)
  if valid = 0 then
    return (⟨d.heap, d.ranges, d.errors, S.arenas + 1⟩, ⟨trace.ops.length, valid, none⟩)
  let u ← evalMmUtil (arena (S.arenas + 1)) pagesize trace ⟨d.heap, d.blocks, d.blockSizes, 0, 0⟩
  let x ← ftimerGettod (fun k => evalMmSpeed (arena (S.arenas + 2 + k)) pagesize trace) 10
    (u.heap, u.blocks)
  return (⟨x.1, d.ranges, d.errors, S.arenas + 12⟩,
    ⟨trace.ops.length, valid, some (u.maxTotalSize, u.heap.memHeapsize)⟩)

def evalTraces (fresh : Nat → (Int → Nat) × (Int → Nat)) :
    Nat → List Trace → Session → Except Halt (Session × List Stats)
  | _, [], S => .ok (S, [])
  | i, trace :: traces, S => do
    let (S, st) ← S.evalTrace arena pagesize (fresh i) i trace
    let (S, stats) ← evalTraces fresh (i + 1) traces S
    return (S, st :: stats)

/-- What the assertion at the end of `sumresults` reads and the model does not
compute: the sum of the times, in microseconds, and whether `*avg_tput` is
positive while nothing has been assigned to it. -/
structure Timing where
  secs : Int
  stale : Bool

/-- `*avg_tput > 0`. In floating point a positive number of operations in no time is
infinite, and none in no time is not a number. -/
def Timing.tputPositive (x : Timing) (assigned : Bool) (ops : Nat) : Bool :=
  if assigned then 0 < ops ∧ 0 ≤ x.secs else x.stale

/-- `*num_correct`. -/
def numCorrect (stats : List Stats) : Nat :=
  stats.foldl (fun n st => if st.valid ≠ 0 then n + 1 else n) 0

/-- `sumresults`: `*num_correct`, and whether `*avg_tput` is assigned before the
assertion reads it. -/
def sumresults (x : Timing) (stats : List Stats) : Except Stop (Nat × Bool) := do
  let ops := stats.foldl (fun n st => n + st.ops) 0
  let assigned : Bool := numCorrect stats = stats.length
  if x.tputPositive assigned ops = false then
    throw .assertFailed
  return (numCorrect stats, assigned)

structure Outcome where
  stats : List Stats
  errors : List Report
  numCorrect : Nat
  throughputSet : Bool
  /-- Whether a performance index is computed. -/
  indexed : Bool

/-- `main` behind its loop. -/
def Session.summary (x : Timing) (stats : List Stats) (S : Session) : Except Stop Outcome := do
  let (correct, set) ← sumresults x stats
  return ⟨stats, S.errors, correct, set, S.errors.length = 0⟩

/-- `main` from where it tests mm.c. -/
def evaluate (x : Timing) (fresh : Nat → (Int → Nat) × (Int → Nat)) (traces : List Trace)
    (S : Session) : Except Stop Outcome := do
  let (S, stats) ← (evalTraces arena pagesize fresh 0 traces S).mapError .halted
  S.summary x stats

end Main

section Counting

variable {arena : Nat → Nat} {pagesize i : Nat} {S S' : Session}

theorem bind_eq_ok {ε α β : Type} {x : Except ε α} {f : α → Except ε β} {b : β} :
    (x >>= f) = .ok b ↔ ∃ a, x = .ok a ∧ f a = .ok b := by
  cases x with
  | error e => exact ⟨fun h => (by cases h), fun ⟨a, h, _⟩ => (by cases h)⟩
  | ok a => exact ⟨fun h => ⟨a, rfl, h⟩, fun ⟨a', h, h'⟩ => Except.ok.inj h ▸ h'⟩

theorem mapError_eq_ok {ε ε' α : Type} {x : Except ε α} {f : ε → ε'} {a : α} :
    x.mapError f = .ok a ↔ x = .ok a := by
  cases x with
  | error e => simp [Except.mapError]
  | ok b => simp [Except.mapError]

theorem orDiverge_eq_ok {α : Type} {x : Option α} {a : α} : orDiverge x = .ok a ↔ x = some a := by
  cases x with
  | none => exact ⟨fun h => (by cases h), fun h => (by cases h)⟩
  | some b => exact ⟨fun h => congrArg some (Except.ok.inj h), fun h => congrArg _ (Option.some.inj h)⟩

theorem evalTrace_reported {fresh : (Int → Nat) × (Int → Nat)} {tracenum : Int} {t : Trace}
    {st : Stats} (h : S.evalTrace arena pagesize fresh tracenum t = .ok (S', st)) :
    st.valid ≠ 0 ∧ S'.errors = S.errors ∨
      st.valid = 0 ∧ ∃ k msg, S'.errors = S.errors ++ [⟨tracenum, k, msg⟩] := by
  obtain ⟨⟨d, valid⟩, hv, h⟩ := bind_eq_ok.mp h
  have hrep := evalMmValid_reported (orDiverge_eq_ok.mp hv)
  by_cases hz : valid = 0
  · simp only [hz, if_true] at h
    obtain ⟨rfl, rfl⟩ := Prod.mk.inj (Except.ok.inj h)
    rcases hrep with ⟨hone, _⟩ | ⟨_, k, msg, herr⟩
    · exact absurd (hz.symm.trans hone) (by decide)
    · exact .inr ⟨rfl, k, msg, herr⟩
  · simp only [hz, if_false] at h
    obtain ⟨u, _, h⟩ := bind_eq_ok.mp h
    obtain ⟨x, _, h⟩ := bind_eq_ok.mp h
    obtain ⟨rfl, rfl⟩ := Prod.mk.inj (Except.ok.inj h)
    rcases hrep with ⟨_, herr⟩ | ⟨hzero, _⟩
    · exact .inl ⟨hz, herr⟩
    · exact absurd hzero hz

/-- The numbers of the traces that were turned down. -/
def turnedDown (stats : List Stats) (i : Nat) : List Int :=
  ((stats.zipIdx i).filter fun x => x.1.valid = 0).map fun x => (x.2 : Int)

theorem evalTraces_reported {fresh : Nat → (Int → Nat) × (Int → Nat)} {ts : List Trace}
    {stats : List Stats} (h : evalTraces arena pagesize fresh i ts S = .ok (S', stats)) :
    stats.length = ts.length ∧
      S'.errors.map Report.tracenum = S.errors.map Report.tracenum ++ turnedDown stats i := by
  induction ts generalizing i S stats with
  | nil =>
    obtain ⟨rfl, rfl⟩ := Prod.mk.inj (Except.ok.inj h)
    simp [turnedDown]
  | cons t ts ih =>
    obtain ⟨⟨S₁, st⟩, he, h⟩ := bind_eq_ok.mp h
    obtain ⟨⟨S₂, rest⟩, hrest, h⟩ := bind_eq_ok.mp h
    obtain ⟨rfl, rfl⟩ := Prod.mk.inj (Except.ok.inj h)
    obtain ⟨hlen, herr⟩ := ih hrest
    refine ⟨by simp [hlen], ?_⟩
    rw [herr]
    rcases evalTrace_reported he with ⟨hv, hs⟩ | ⟨hv, k, msg, hs⟩
    · simp [turnedDown, hs, hv]
    · simp [turnedDown, hs, hv]

theorem numCorrect_eq (stats : List Stats) :
    numCorrect stats = stats.countP fun st => st.valid ≠ 0 := by
  have hcount : ∀ (l : List Stats) n, l.foldl (fun n st => if st.valid ≠ 0 then n + 1 else n) n =
      n + (l.countP fun st => st.valid ≠ 0) := by
    intro l
    induction l with
    | nil => simp
    | cons st l ih =>
      intro n
      rw [List.foldl_cons, ih, List.countP_cons]
      by_cases hv : st.valid = 0
      · simp [hv]
      · simp [hv]
        omega
  rw [numCorrect, hcount, Nat.zero_add]

theorem length_turnedDown (stats : List Stats) (i : Nat) :
    (turnedDown stats i).length + numCorrect stats = stats.length := by
  have hdown : ∀ i, (turnedDown stats i).length = stats.countP fun st => st.valid = 0 := by
    intro i
    rw [turnedDown, List.length_map, ← List.countP_eq_length_filter]
    induction stats generalizing i with
    | nil => rfl
    | cons st stats ih => rw [List.zipIdx_cons, List.countP_cons, List.countP_cons, ih]
  rw [hdown, numCorrect_eq]
  have hsplit := List.length_eq_countP_add_countP (fun st : Stats => decide (st.valid = 0)) (l := stats)
  simpa using hsplit.symm

theorem Session.summary_eq (x : Timing) (stats : List Stats) (S : Session) :
    S.summary x stats =
      if x.tputPositive (numCorrect stats = stats.length)
          (stats.foldl (fun n st => n + st.ops) 0) = false then .error .assertFailed
      else .ok ⟨stats, S.errors, numCorrect stats, numCorrect stats = stats.length,
        S.errors.length = 0⟩ := by
  simp only [Session.summary, sumresults]
  split <;> rfl

end Counting

/-- The largest total size of the blocks in use after any prefix. -/
def peak (ops : List TraceOp) : Int := (ops.inits.map totalInUse).foldr max 0

def Trace.score (t : Trace) (page : Size) : Stats :=
  if (t.report page 0).isSome then ⟨t.ops.length, 0, none⟩
  else ⟨t.ops.length, 1, (t.rehearse page).map fun R => (peak t.ops, R.plan.layout.heapsize)⟩

section Scores

variable {E : Nat → Env} {pagesize i : Nat} {t : Trace}

theorem isGreatest_foldr_max {xs : List Int} (h : 0 ∈ xs) :
    IsGreatest { x | x ∈ xs } (xs.foldr max 0) := by
  have hle : ∀ ys : List Int, (∀ y ∈ ys, y ≤ ys.foldr max 0) ∧
      (ys.foldr max 0 ∈ ys ∨ ys.foldr max 0 = 0) := by
    intro ys
    induction ys with
    | nil => simp
    | cons y ys ih =>
      obtain ⟨hup, hmem⟩ := ih
      refine ⟨fun z hz => ?_, ?_⟩
      · rcases List.mem_cons.mp hz with rfl | hz
        · exact le_max_left _ _
        · exact (hup z hz).trans (le_max_right _ _)
      · rcases max_choice y (ys.foldr max 0) with hm | hm
        · exact .inl (List.mem_cons.mpr (.inl hm))
        · rw [List.foldr_cons, hm]
          exact hmem.imp_left (List.mem_cons_of_mem y)
  refine ⟨?_, (hle xs).1⟩
  rcases (hle xs).2 with hm | hm
  · exact hm
  · rw [hm]
    exact h

theorem isGreatest_peak (ops : List TraceOp) : IsGreatest (totals ops) (peak ops) := by
  have hset : totals ops = { x | x ∈ ops.inits.map totalInUse } := by
    ext x
    simp [totals]
  rw [hset]
  exact isGreatest_foldr_max (List.mem_map.mpr ⟨[], by simp, rfl⟩)

theorem Rehearsal.isSome_report {page : Size} (m n : Int) (i : Nat) (ops : List TraceOp)
    (R : Rehearsal) : (R.report page m i ops).isSome = (R.report page n i ops).isSome := by
  induction ops generalizing R i with
  | nil => rfl
  | cons op ops ih =>
    rw [report, report]
    cases R.verdict page op with
    | error msg => rfl
    | ok R' => exact ih (i + 1) R'

theorem ftimerGettod_ok {σ : Type} {f : Nat → σ → Except Halt σ} (h : ∀ k x, ∃ y, f k x = .ok y)
    (n : Nat) (x : σ) : ∃ y, ftimerGettod f n x = .ok y := by
  induction n with
  | zero => exact ⟨x, rfl⟩
  | succ n ih =>
    obtain ⟨y, hy⟩ := ih
    obtain ⟨z, hz⟩ := h n y
    refine ⟨z, ?_⟩
    rw [ftimerGettod, hy]
    exact hz

theorem evalTrace_exact (hpage : ∀ k, (E k).pageSize = pagesize) (ht : t.WellFormed)
    (fresh : (Int → Nat) × (Int → Nat)) (tracenum : Int) (S : Session) :
    ∃ S', S.evalTrace (fun k => (E k).base) pagesize fresh tracenum t =
        .ok (S', t.score (E 0).page) ∧
      S'.errors = S.errors ++ (t.report (E 0).page tracenum).toList := by
  have hp : ∀ k, (E k).page = (E 0).page := fun k => by simp only [Env.page, hpage]
  obtain ⟨d, hd, herr, hnone⟩ := evalMmValid_predicted (E S.arenas) ht tracenum
    ⟨S.heap, S.ranges, fresh.1, fresh.2, S.errors⟩
  have hsome : (t.report (E 0).page 0).isSome = (t.report (E 0).page tracenum).isSome :=
    Rehearsal.isSome_report 0 tracenum 0 t.ops _
  rw [hp, hpage] at hd
  rw [hp] at herr hnone
  rw [Session.evalTrace, Trace.score, hsome, hd]
  cases hr : t.report (E 0).page tracenum with
  | some r =>
    rw [hr] at herr
    exact ⟨_, rfl, herr⟩
  | none =>
    rw [hr] at herr
    obtain ⟨R, hR, _⟩ := hnone hr
    have hu := evalMmUtil_measured (E (S.arenas + 1)) ht ⟨d.heap, d.blocks, d.blockSizes, 0, 0⟩
    rw [hp, hR, hpage] at hu
    obtain ⟨u, hu, hmet⟩ := hu
    have hfig : (u.maxTotalSize, u.heap.memHeapsize) = (peak t.ops, R.plan.layout.heapsize) := by
      obtain ⟨w, held, hw, hre⟩ := hmet.rehearsed
      rw [hmet.invariant.greatest.unique (isGreatest_peak t.ops), ← hw, hre.heapsize_eq]
    have hspeed : ∀ k x, ∃ y, evalMmSpeed (E (S.arenas + 2 + k)).base pagesize t x = .ok y := by
      intro k x
      have hs := evalMmSpeed_timed (E (S.arenas + 2 + k)) ht x
      rw [hp, hR, hpage] at hs
      obtain ⟨w, held, blocks, sizes, hs, _⟩ := hs
      exact ⟨_, hs⟩
    obtain ⟨x, hx⟩ := ftimerGettod_ok hspeed 10 (u.heap, u.blocks)
    refine ⟨⟨x.1, d.ranges, d.errors, S.arenas + 12⟩, ?_, herr⟩
    rw [hR, Option.map_some, ← hfig]
    simp only [orDiverge, ok_bind, Option.isSome_none, Bool.false_eq_true, if_false, one_ne_zero]
    rw [hu, ok_bind, hx, ok_bind]
    rfl

theorem evalTraces_exact (hpage : ∀ k, (E k).pageSize = pagesize) {ts : List Trace}
    (hts : ∀ t ∈ ts, t.WellFormed) (fresh : Nat → (Int → Nat) × (Int → Nat)) (S : Session) :
    ∃ S', evalTraces (fun k => (E k).base) pagesize fresh i ts S =
        .ok (S', ts.map (·.score (E 0).page)) ∧
      S'.errors = S.errors ++ (ts.zipIdx i).filterMap fun x => x.1.report (E 0).page x.2 := by
  induction ts generalizing i S with
  | nil => exact ⟨S, rfl, by simp⟩
  | cons t ts ih =>
    obtain ⟨S₁, h₁, herr₁⟩ := evalTrace_exact hpage (hts t List.mem_cons_self) (fresh i) i S
    obtain ⟨S₂, h₂, herr₂⟩ := ih (fun a ha => hts a (List.mem_cons_of_mem t ha)) S₁ (i := i + 1)
    refine ⟨S₂, ?_, ?_⟩
    · rw [evalTraces, h₁, ok_bind]
      dsimp only
      rw [h₂]
      rfl
    · rw [herr₂, herr₁, List.append_assoc, List.zipIdx_cons, List.filterMap_cons]
      cases t.report (E 0).page i with
      | none => rfl
      | some r => rfl

/-- Where the assertion of `sumresults` holds: every trace is accepted and one of them
has an operation, unless the clock is set back, or a trace is turned down and what
is read instead of the throughput happens to be positive. -/
def Timing.Sums (x : Timing) (page : Size) (traces : List Trace) : Prop :=
  (∀ t ∈ traces, t.report page 0 = none) ∧ (∃ t ∈ traces, t.ops ≠ []) ∧ 0 ≤ x.secs ∨
    (∃ t ∈ traces, t.report page 0 ≠ none) ∧ x.stale = true

theorem Trace.valid_score (t : Trace) (page : Size) :
    (t.score page).valid ≠ 0 ↔ t.report page 0 = none := by
  rw [Trace.score]
  cases t.report page 0 with
  | none => simp
  | some r => simp

theorem Trace.ops_score (t : Trace) (page : Size) : (t.score page).ops = t.ops.length := by
  rw [Trace.score]
  split <;> rfl

theorem numCorrect_scores (page : Size) (traces : List Trace) :
    numCorrect (traces.map (·.score page)) = (traces.map (·.score page)).length ↔
      ∀ t ∈ traces, t.report page 0 = none := by
  rw [numCorrect_eq, List.countP_eq_length]
  simp [Trace.valid_score]

theorem totalOps_scores (page : Size) (traces : List Trace) :
    0 < (traces.map (·.score page)).foldl (fun n st => n + st.ops) 0 ↔ ∃ t ∈ traces, t.ops ≠ [] := by
  have hsum : ∀ (ts : List Trace) n, (ts.map (·.score page)).foldl (fun n st => n + st.ops) n =
      n + (ts.map fun t => t.ops.length).sum := by
    intro ts
    induction ts with
    | nil => simp
    | cons t ts ih =>
      intro n
      rw [List.map_cons, List.foldl_cons, ih, Trace.ops_score, List.map_cons, List.sum_cons,
        Nat.add_assoc]
  rw [hsum, Nat.zero_add, List.sum_pos_iff_exists_pos_nat]
  simp [List.length_pos_iff]

theorem Timing.tputPositive_scores (x : Timing) (page : Size) (traces : List Trace) :
    x.tputPositive (numCorrect (traces.map (·.score page)) = (traces.map (·.score page)).length)
        ((traces.map (·.score page)).foldl (fun n st => n + st.ops) 0) = true ↔
      x.Sums page traces := by
  rw [Timing.tputPositive, Timing.Sums, ← totalOps_scores page]
  by_cases hall : ∀ t ∈ traces, t.report page 0 = none
  · have hone : ¬ ∃ t ∈ traces, t.report page 0 ≠ none := fun ⟨t, ht, hr⟩ => hr (hall t ht)
    simp only [(numCorrect_scores page traces).mpr hall, hone, decide_true, if_true,
      decide_eq_true_eq, false_and, or_false]
    exact (and_iff_right hall).symm
  · have hone : ∃ t ∈ traces, t.report page 0 ≠ none := by simpa using hall
    have hnot := mt (numCorrect_scores page traces).mp hall
    simp only [hnot, hall, hone, decide_false, Bool.false_eq_true, if_false, false_and, false_or,
      true_and]

theorem Session.summary_scores (x : Timing) (page : Size) (traces : List Trace) (S : Session) :
    ∃ o : Outcome, o.stats = traces.map (·.score page) ∧ o.errors = S.errors ∧
      (x.Sums page traces → S.summary x (traces.map (·.score page)) = .ok o) ∧
      (¬ x.Sums page traces → S.summary x (traces.map (·.score page)) = .error .assertFailed) := by
  rw [Session.summary_eq, ← x.tputPositive_scores page traces]
  exact ⟨_, rfl, rfl, fun h => if_neg fun h' => absurd (h.symm.trans h') (by decide),
    fun h => if_pos (Bool.eq_false_iff.mpr h)⟩

/-- The evaluation of well-formed traces comes to the summary where the assertion of
`sumresults` holds, and ends at that assertion where it does not. The figures and
errors of a trace do not depend on what was evaluated before it. -/
theorem evaluation_exact (hpage : ∀ k, (E k).pageSize = pagesize) {traces : List Trace}
    (hts : ∀ t ∈ traces, t.WellFormed) (x : Timing) (fresh : Nat → (Int → Nat) × (Int → Nat))
    (S : Session) :
    ∃ o : Outcome, o.stats = traces.map (·.score (E 0).page) ∧
      o.errors = S.errors ++ (traces.zipIdx.filterMap fun y => y.1.report (E 0).page y.2) ∧
      (x.Sums (E 0).page traces →
        evaluate (fun k => (E k).base) pagesize x fresh traces S = .ok o) ∧
      (¬ x.Sums (E 0).page traces →
        evaluate (fun k => (E k).base) pagesize x fresh traces S = .error .assertFailed) := by
  obtain ⟨S', he, herr⟩ := evalTraces_exact hpage hts fresh S (i := 0)
  obtain ⟨o, hstats, herrors, hsums, hfails⟩ := S'.summary_scores x (E 0).page traces
  refine ⟨o, hstats, herrors.trans herr, ?_⟩
  rw [evaluate, he]
  exact ⟨hsums, hfails⟩

theorem evaluation_exact_two :
    (∃ o, evaluate (fun k => if k = 0 then Env.small.base else Env.high.base) Env.small.pageSize
        ⟨7, false⟩ (fun _ => (fun _ => 1, fun _ => 1)) [reallocTrace 5, reallocTrace 6]
        ⟨default, [], [], 0⟩ = .ok o ∧
      o.stats = [⟨2, 1, some (24, 8216)⟩, ⟨2, 1, some (24, 8216)⟩] ∧ o.errors = []) ∧
    evaluate (fun k => if k = 0 then Env.small.base else Env.high.base) Env.small.pageSize
      ⟨7, false⟩ (fun _ => (fun _ => 1, fun _ => 1)) [reallocTrace 128, reallocTrace 5]
      ⟨default, [], [], 0⟩ = .error .assertFailed := by
  have hpage : ∀ k, ((fun k => if k = 0 then Env.small else Env.high : Nat → Env) k).pageSize =
      Env.small.pageSize := by
    intro k
    dsimp only
    split <;> rfl
  have hbase : (fun k => if k = 0 then Env.small.base else Env.high.base) =
      fun k => ((fun k => if k = 0 then Env.small else Env.high : Nat → Env) k).base := by
    ext k
    dsimp only
    split <;> rfl
  have hts : ∀ t ∈ [reallocTrace 5, reallocTrace 6], t.WellFormed := by
    simp [reallocTrace_wellFormed]
  have hts' : ∀ t ∈ [reallocTrace 128, reallocTrace 5], t.WellFormed := by
    simp [reallocTrace_wellFormed]
  rw [hbase]
  obtain ⟨o, hstats, herr, ho, _⟩ := evaluation_exact hpage hts ⟨7, false⟩
    (fun _ => (fun _ => 1, fun _ => 1)) ⟨default, [], [], 0⟩
  obtain ⟨_, _, _, _, hfails⟩ := evaluation_exact hpage hts' ⟨7, false⟩
    (fun _ => (fun _ => 1, fun _ => 1)) ⟨default, [], [], 0⟩
  refine ⟨⟨o, ho (.inl ?_), hstats.trans (by decide), herr.trans (by decide)⟩, hfails ?_⟩
  · exact ⟨by decide, by simp [reallocTrace], by decide⟩
  · rintro (⟨hall, _⟩ | ⟨_, hstale⟩)
    · exact absurd (hall _ List.mem_cons_self) (by decide)
    · exact absurd hstale Bool.false_ne_true

end Scores

section Summary

variable {arena : Nat → Nat} {pagesize : Nat} {S S' : Session}

/-- However the evaluation starts and whatever the traces ask for, if its loop ends
then it has reported one error for each trace turned down, in order, and all other
traces count as correct. If it comes to the summary, the throughput that the index
is computed from has been assigned exactly when the index is computed. -/
theorem errors_count_turned_down {fresh : Nat → (Int → Nat) × (Int → Nat)} {traces : List Trace}
    {stats : List Stats} (hstart : S.errors = [])
    (h : evalTraces arena pagesize fresh 0 traces S = .ok (S', stats)) :
    stats.length = traces.length ∧ S'.errors.map Report.tracenum = turnedDown stats 0 ∧
      S'.errors.length + numCorrect stats = traces.length ∧
      ∀ x o, evaluate arena pagesize x fresh traces S = .ok o →
        o.stats = stats ∧ o.errors = S'.errors ∧ o.numCorrect = numCorrect stats ∧
          o.throughputSet = o.indexed := by
  obtain ⟨hlen, herr⟩ := evalTraces_reported h
  rw [hstart, List.map_nil, List.nil_append] at herr
  have hcount : S'.errors.length + numCorrect stats = stats.length := by
    rw [← length_turnedDown stats 0, ← herr, List.length_map]
  refine ⟨hlen, herr, hcount.trans hlen, fun x o ho => ?_⟩
  rw [evaluate, h] at ho
  have hs : S'.summary x stats = .ok o := ho
  rw [Session.summary_eq] at hs
  split at hs
  · cases hs
  · obtain rfl := Except.ok.inj hs
    refine ⟨rfl, rfl, rfl, ?_⟩
    apply decide_eq_decide.mpr
    omega

theorem errors_count_turned_down_one :
    ∃ S' stats, evalTraces (fun _ => Env.small.base) Env.small.pageSize
        (fun _ => (fun _ => 0, fun _ => 0)) 0 [reallocTrace 128, reallocTrace 5]
        ⟨default, [], [], 0⟩ = .ok (S', stats) ∧
      S'.errors.length = 1 ∧ S'.errors.length + numCorrect stats = 2 ∧
      ∃ o, evaluate (fun _ => Env.small.base) Env.small.pageSize ⟨7, true⟩
          (fun _ => (fun _ => 0, fun _ => 0)) [reallocTrace 128, reallocTrace 5]
          ⟨default, [], [], 0⟩ = .ok o ∧ o.numCorrect = 1 ∧ o.throughputSet = o.indexed := by
  obtain ⟨S', he, herr⟩ := evalTraces_exact (E := fun _ => Env.small) (fun _ => rfl)
    (show ∀ t ∈ [reallocTrace 128, reallocTrace 5], t.WellFormed by simp [reallocTrace_wellFormed])
    (fun _ => (fun _ => 0, fun _ => 0)) ⟨default, [], [], 0⟩ (i := 0)
  have hone : S'.errors = [⟨0, 1, .notPreserved⟩] := herr.trans (by decide)
  have hlen : S'.errors.length = 1 := by rw [hone, List.length_singleton]
  obtain ⟨_, _, hcount, hsummary⟩ := errors_count_turned_down rfl he
  obtain ⟨o, _, _, hsums, _⟩ := S'.summary_scores ⟨7, true⟩ Env.small.page
    [reallocTrace 128, reallocTrace 5]
  have ho : evaluate (fun _ => Env.small.base) Env.small.pageSize ⟨7, true⟩
      (fun _ => (fun _ => 0, fun _ => 0)) [reallocTrace 128, reallocTrace 5]
      ⟨default, [], [], 0⟩ = .ok o := by
    rw [evaluate, he]
    exact hsums (.inr ⟨⟨_, List.mem_cons_self, by decide⟩, rfl⟩)
  obtain ⟨_, _, hnum, hset⟩ := hsummary ⟨7, true⟩ o ho
  refine ⟨S', _, he, hlen, hcount, o, ho, ?_, hset⟩
  rw [hlen] at hcount
  rw [hnum]
  exact Nat.add_left_cancel hcount

end Summary

section Libc

variable {σ : Type}

variable {libc : Allocator σ} {between : Nat → σ → σ} {fresh : Nat → Int → Nat} {t : Trace}
  {traces : List Trace}

end Libc

end CsoMalloc
