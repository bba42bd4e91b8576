import CsoMalloc.Agreement

/-! How much a call may grow the heap, and how much a client may ask for without
ever being refused. -/

namespace CsoMalloc

open Tiling

/-- The bytes asked for; none by a call of `mm_free`. -/
def Request.bytes : Request → Nat
  | .malloc n => n
  | .free _ => 0
  | .realloc _ n => n

/-- The growth that a request for `n` bytes may cause. -/
def growth (page : Size) (n : Nat) : Nat := if n = 0 then 0 else Layout.maxSize (fitSize n) page

def Request.cost (page : Size) (q : Request) : Nat := growth page q.bytes

/-- What the client has asked for so far, with the first heap. -/
def spent (page : Size) (rs : List Request) : Nat :=
  16 + page + (rs.map (Request.cost page)).sum

namespace Layout

variable {L : Layout} {page : Size} {n o k : Nat}

theorem malloc_growth (h : L.WF) (page : Size) (n : Nat) :
    (L.malloc page n).1.heapsize ≤ L.heapsize + growth page n := by
  by_cases hn : n = 0
  · simp [malloc, hn]
  · rw [malloc, if_neg hn, growth, if_neg hn]
    cases hf : L.findFit (fitSize n) with
    | some o =>
      obtain ⟨f, hfo, hL, ho, hfree, ha⟩ := h.findFit_some hf
      have ht : (L.take page (fitSize n)).1 = f.place (fitSize n) := by simp [take, hf, hfo]
      subst hL
      rw [ht, (Focus.place_allocated h hfree ha).2]
      omega
    | none =>
      by_cases hk : L.heapsize + maxSize (fitSize n) page ≤ maxHeap
      · have hop := extend_open h hk
        have hcb := coalesce_block hop
        have ht : (L.take page (fitSize n)).1 =
            (L.extend (maxSize (fitSize n) page)).coalesce.place (fitSize n) := by
          simp [take, hf, hk]
        rw [ht, (Focus.place_allocated (Focus.coalesce_wf hop) hcb.1
          ((le_maxSize (fitSize n) page).1.trans hcb.2)).2, (Focus.coalesce_allocated hop).2,
          (L.extend_allocated _).2]
      · simp [take, hf, hk]

theorem malloc_granted (hn : n ≠ 0) (hroom : L.heapsize + growth page n ≤ maxHeap) :
    (L.malloc page n).2 ≠ none := by
  rw [growth, if_neg hn] at hroom
  rw [malloc, if_neg hn, take]
  cases L.findFit (fitSize n) with
  | some o => simp
  | none => simp [hroom]

theorem realloc_snd : (L.realloc page o n).2 = (L.malloc page n).2 := by
  cases hr : (L.malloc page n).2 with
  | none => rw [realloc_of_none hr]
  | some p => rw [realloc_of_some hr]

theorem realloc_growth (h : L.WF) (ho : (o, k) ∈ spans true 16 L.blocks) (page : Size) (n : Nat) :
    (L.realloc page o n).1.heapsize ≤ L.heapsize + growth page n := by
  have hm := malloc_growth h page n
  cases hr : (L.malloc page n).2 with
  | none =>
    rw [realloc_of_none hr]
    exact hm
  | some p =>
    have ht := (malloc_some h hr).2
    obtain ⟨_, _, hs⟩ := ht.allocated
    rw [realloc_of_some hr]
    exact (free_wf ht.wf ((hs _).mpr (.inr ho))).2.1.le.trans hm

end Layout

namespace Plan

variable {P : Plan} {page : Size} {q : Request}

theorem call_growth (h : P.WF) (hq : q.Allowed P.live) :
    (P.call page q).layout.heapsize ≤ P.layout.heapsize + q.cost page := by
  cases q with
  | malloc n => exact Layout.malloc_growth h.layout page n
  | free k =>
    obtain ⟨b, hb, hk⟩ := hq
    obtain ⟨c, hc⟩ := Live.find_of_mem hb hk
    obtain ⟨j, hj, _⟩ := h.owned c (Live.find_some hc).1
    rw [call_free hc]
    exact (Layout.free_wf h.layout hj).2.1.le.trans (Nat.le_add_right _ _)
  | realloc k n =>
    obtain ⟨_, b, hb, hk⟩ := hq
    obtain ⟨c, hc⟩ := Live.find_of_mem hb hk
    obtain ⟨j, hj, _⟩ := h.owned c (Live.find_some hc).1
    rw [call_realloc hc]
    exact Layout.realloc_growth h.layout hj page n

theorem call_log (hq : q.Allowed P.live) :
    (P.call page q).log = P.log ++ [(P.answer page q, (P.call page q).layout)] := by
  cases q with
  | malloc n => simp [call_malloc, answer_malloc]
  | free k =>
    obtain ⟨b, hb, hk⟩ := hq
    obtain ⟨c, hc⟩ := Live.find_of_mem hb hk
    simp [answer, call_free hc]
  | realloc k n =>
    obtain ⟨_, b, hb, hk⟩ := hq
    obtain ⟨c, hc⟩ := Live.find_of_mem hb hk
    simp [answer_realloc hc, call_realloc hc]

theorem answer_granted (hq : q.Allowed P.live) (hn : q.bytes ≠ 0)
    (hroom : P.layout.heapsize + q.cost page ≤ maxHeap) : P.answer page q ≠ none := by
  cases q with
  | malloc n =>
    rw [answer_malloc]
    exact Layout.malloc_granted hn hroom
  | free k => exact absurd rfl hn
  | realloc k n =>
    obtain ⟨_, b, hb, hk⟩ := hq
    obtain ⟨c, hc⟩ := Live.find_of_mem hb hk
    rw [answer_realloc hc, Layout.realloc_snd]
    exact Layout.malloc_granted hn hroom

end Plan

section Runs

variable {E : Env} {rs : List Request} {w : World}

theorem spent_append (page : Size) (rs : List Request) (q : Request) :
    spent page (rs ++ [q]) = spent page rs + q.cost page := by
  simp [spent, Nat.add_assoc]

theorem Run.heapsize_le_spent (h : Run E rs w) :
    (Plan.run E.page rs).layout.heapsize ≤ spent E.page rs := by
  induction h with
  | init _ => simp [Plan.run, Plan.initial, Layout.initial, Layout.heapsize, spent]
  | write _ _ ih => exact ih
  | @call rs q w w' h hq he ih =>
    obtain ⟨hm, hwf⟩ := h.matches
    rw [Plan.run_append, spent_append]
    exact (Plan.call_growth hwf (hm.allowed_iff.mp hq)).trans (Nat.add_le_add_right ih _)

theorem Run.granted (h : Run E rs w) (hb : spent E.page rs ≤ maxHeap) :
    List.Forall₂ (fun q x => q.bytes ≠ 0 → x.1 ≠ none) rs (Plan.run E.page rs).log := by
  induction h with
  | init _ => exact .nil
  | write _ _ ih => exact ih hb
  | @call rs q w w' h hq he ih =>
    obtain ⟨hm, hwf⟩ := h.matches
    have hq' := hm.allowed_iff.mp hq
    have hle := h.heapsize_le_spent
    rw [spent_append] at hb
    rw [Plan.run_append, Plan.call_log hq']
    refine List.rel_append (ih (by omega)) (.cons (fun hn => ?_) .nil)
    exact Plan.answer_granted hq' hn (by omega)

/-- A client is never refused while what it has asked for, rounded up, and the first
heap fit into the arena, in whatever order it calls and frees. -/
theorem budget_suffices (h : Run E rs w) (hb : spent E.page rs ≤ maxHeap) :
    List.Forall₂ (fun q e => q.bytes ≠ 0 → e.1 ≠ 0) rs w.log ∧
      w.heap.memHeapsize ≤ spent E.page rs := by
  obtain ⟨hm, _⟩ := h.matches
  refine ⟨?_, h.heapsize_eq ▸ h.heapsize_le_spent⟩
  refine forall₂_of_common (fun q e x hx he hn => ?_) (h.granted hb) hm.log
  rw [he.1, ne_eq, Env.ptr_eq_zero]
  exact hx hn

theorem budget_suffices_small :
    ∃ w, Run Env.small [.malloc 20000, .malloc 30, .free 0, .realloc 1 9000000] w ∧
      List.Forall₂ (fun (q : Request) e => q.bytes ≠ 0 → e.1 ≠ 0)
        [.malloc 20000, .malloc 30, .free 0, .realloc 1 9000000] w.log := by
  obtain ⟨w, hw⟩ := exists_run Env.small
    [.malloc 20000, .malloc 30, .free 0, .realloc 1 9000000] (by decide)
  exact ⟨w, hw, (budget_suffices hw (by decide)).1⟩

end Runs

section Driver

variable {E : Env} {R : Rehearsal} {numIds tracenum : Int} {i : Nat} {done : List TraceOp}
  {op : TraceOp} {d : Driver} {w : World} {held : List (Int × Live)} {blocks blockSizes : Int → Nat}

def TraceOp.bytes (op : TraceOp) : Nat := if op.type = .free then 0 else word op.size

def TraceOp.cost (page : Size) (op : TraceOp) : Nat := growth page op.bytes

/-- What the whole trace asks for, with the first heap. -/
def Trace.spent (t : Trace) (page : Size) : Nat := 16 + page + (t.ops.map (TraceOp.cost page)).sum

/-- The call that an operation will make. -/
theorem Rehearsed.request (h : Rehearsed E R done w held blocks blockSizes)
    (hop : op.Allowed numIds done) : R.plan.WF ∧ ∃ q, R.request op = some q ∧
      q.Allowed R.plan.live ∧ q.bytes = op.bytes := by
  obtain ⟨rs, htr, hplan⟩ := h.tracks
  obtain ⟨hm, hwf⟩ := htr.run.matches
  rw [← hplan] at hm hwf
  refine ⟨hwf, ?_⟩
  cases ht : op.type with
  | alloc =>
    obtain ⟨_, hmax, _⟩ := Tracks.size_eq hop (by simp [ht])
    refine ⟨.malloc (word op.size), by rw [Rehearsal.request, ht], hmax, ?_⟩
    simp [Request.bytes, TraceOp.bytes, ht]
  | realloc =>
    obtain ⟨_, hmax, _⟩ := Tracks.size_eq hop (by simp [ht])
    obtain ⟨c, hc, hf, _⟩ := htr.realloc hop ht
    refine ⟨.realloc c.id (word op.size), ?_, ?_, ?_⟩
    · rw [Rehearsal.request, ht, h.find_call hf]
      rfl
    · exact hm.allowed_iff.mp ⟨hmax, c, hc, rfl⟩
    · simp [Request.bytes, TraceOp.bytes, ht]
  | free =>
    obtain ⟨c, hc, hf, _⟩ := htr.free hop ht
    refine ⟨.free c.id, ?_, ?_, ?_⟩
    · rw [Rehearsal.request, ht, h.find_call hf]
      rfl
    · exact (hm.allowed_iff (q := .free c.id)).mp ⟨c, hc, rfl⟩
    · simp [Request.bytes, TraceOp.bytes, ht]

/-- With room for what it may cost, an operation is rehearsed without a refusal. -/
theorem Rehearsed.granted (h : Rehearsed E R done w held blocks blockSizes)
    (hop : op.Allowed numIds done)
    (hroom : R.plan.layout.heapsize + op.cost E.page ≤ maxHeap) :
    ∃ R', R.step E.page op = some R' ∧
      R'.plan.layout.heapsize ≤ R.plan.layout.heapsize + op.cost E.page := by
  obtain ⟨hwf, q, hr, hq, hbytes⟩ := h.request hop
  have hcost : q.cost E.page = op.cost E.page := by rw [Request.cost, hbytes, TraceOp.cost]
  have hans : op.type ≠ .free → R.plan.answer E.page q ≠ none := by
    intro ht
    refine Plan.answer_granted hq ?_ (hcost ▸ hroom)
    obtain ⟨_, _, hpos⟩ := Tracks.size_eq hop ht
    rw [hbytes, TraceOp.bytes, if_neg ht]
    omega
  refine ⟨⟨R.plan.call E.page q, R.hold op⟩, ?_, hcost ▸ Plan.call_growth hwf hq⟩
  rw [Rehearsal.step, hr]
  exact if_neg fun hn => hans hn.1 hn.2

theorem Predicted.report_within (h : Predicted E R done d) {ops : List TraceOp}
    (hseq : TraceOp.Sequence numIds done ops)
    (hb : R.plan.layout.heapsize + (ops.map (TraceOp.cost E.page)).sum ≤ maxHeap) :
    R.report E.page tracenum i ops = none ↔ Trace.ReallocsLow ops := by
  induction ops generalizing R done d i with
  | nil => simp [Rehearsal.report, Trace.ReallocsLow]
  | cons op ops ih =>
    obtain ⟨w, held, hw, hre⟩ := h.rehearsed
    rw [List.map_cons, List.sum_cons] at hb
    obtain ⟨R', hstep, hgrow⟩ := hre.granted hseq.1 (by omega)
    obtain ⟨d', hd'⟩ := h.step hseq.1 tracenum i
    have hsplit : Trace.ReallocsLow (op :: ops) ↔
        (op.type = .realloc → op.index % 256 < 128) ∧ Trace.ReallocsLow ops := by
      simp [Trace.ReallocsLow]
    rw [Rehearsal.report, hsplit]
    by_cases hlow : op.type = .realloc ∧ ¬ op.index % 256 < 128
    · have hv : R.verdict E.page op = .error .notPreserved := by
        simp only [Rehearsal.verdict, hstep, hlow, not_false_eq_true, and_self, if_true]
      rw [hv]
      simp [hlow.1, hlow.2]
    · have hv : R.verdict E.page op = .ok R' := by
        simp only [Rehearsal.verdict, hstep]
        exact if_neg hlow
      rw [Predicted.Judged, hv] at hd'
      rw [hv]
      refine (ih hd'.2.2 hseq.2 (by omega)).trans ?_
      rw [not_and, not_not] at hlow
      exact (and_iff_right hlow).symm

theorem Rehearsed.loop_within (h : Rehearsed E R done w held blocks blockSizes)
    {ops : List TraceOp} (hseq : TraceOp.Sequence numIds done ops)
    (hb : R.plan.layout.heapsize + (ops.map (TraceOp.cost E.page)).sum ≤ maxHeap) :
    ∃ R', R.loop E.page ops = some R' := by
  induction ops generalizing R done w held blocks blockSizes with
  | nil => exact ⟨R, rfl⟩
  | cons op ops ih =>
    rw [List.map_cons, List.sum_cons] at hb
    obtain ⟨R', hstep, hgrow⟩ := h.granted hseq.1 (by omega)
    have hnext := h.speedOp hseq.1
    rw [hstep] at hnext
    obtain ⟨w', held', blocks', sizes', _, h'⟩ := hnext
    rw [Rehearsal.loop, hstep]
    exact ih h' hseq.2 (by omega)

/-- On a well-formed trace that asks for no more than the arena can give, no call is
refused: `eval_mm_valid` turns the trace down only for an id whose bytes it cannot
compare, and the other replays do not leave the program. -/
theorem driver_accepts_within_budget (E : Env) {t : Trace} (ht : t.WellFormed)
    (hb : t.spent E.page ≤ maxHeap) (tracenum : Int) (d : Driver) (u : Util)
    (x : State × (Int → Nat)) :
    (∃ d' r, evalMmValid E.base E.pageSize t tracenum d = some (d', r) ∧
      (r = 1 ∧ d'.errors = d.errors ↔ Trace.ReallocsLow t.ops)) ∧
      (∃ u', evalMmUtil E.base E.pageSize t u = .ok u') ∧
      ∃ y, evalMmSpeed E.base E.pageSize t x = .ok y := by
  obtain ⟨s, hs, _⟩ := mmInit_refines E d.heap.memResetBrk
  have hinit : Predicted E (.initial E.page) [] { d with heap := s, ranges := [] } :=
    ⟨⟨_, _, [], Tracks.init hs, rfl, rfl, by simp⟩, _, [], rfl, Rehearsed.init hs⟩
  have hstart : (Rehearsal.initial E.page).plan.layout.heapsize = 16 + E.page := by
    simp [Rehearsal.initial, Plan.initial, Layout.initial, Layout.heapsize]
  have hb' : (Rehearsal.initial E.page).plan.layout.heapsize +
      (t.ops.map (TraceOp.cost E.page)).sum ≤ maxHeap := hstart ▸ hb
  have hreport : t.report E.page tracenum = none ↔ Trace.ReallocsLow t.ops :=
    hinit.report_within ht hb'
  have hre : Rehearsed E (.initial E.page) [] ⟨s, [], []⟩ [] d.blocks d.blockSizes :=
    Rehearsed.init hs
  obtain ⟨R, hR⟩ := hre.loop_within ht hb'
  refine ⟨?_, ?_, ?_⟩
  · obtain ⟨d', he, herr, _⟩ := evalMmValid_predicted E ht tracenum d
    refine ⟨d', _, he, ?_⟩
    rw [← hreport]
    cases hr : t.report E.page tracenum with
    | none => simp [hr, herr]
    | some r => simp
  · have hu := evalMmUtil_measured E ht u
    rw [Trace.rehearse, hR] at hu
    obtain ⟨u', hu', _⟩ := hu
    exact ⟨u', hu'⟩
  · have hsp := evalMmSpeed_timed E ht x
    rw [Trace.rehearse, hR] at hsp
    obtain ⟨w, _, blocks, _, hsp', _⟩ := hsp
    exact ⟨_, hsp'⟩

theorem driver_accepts_within_budget_low :
    ∃ d' r, evalMmValid Env.small.base Env.small.pageSize (reallocTrace 5) 3
        ⟨default, [], fun _ => 9, fun _ => 9, []⟩ = some (d', r) ∧ r = 1 ∧ d'.errors = [] := by
  obtain ⟨⟨d', r, he, hiff⟩, _⟩ := driver_accepts_within_budget Env.small
    (reallocTrace_wellFormed 5 (by decide)) (by decide) 3 ⟨default, [], fun _ => 9, fun _ => 9, []⟩
    ⟨default, fun _ => 0, fun _ => 0, 0, 0⟩ (default, fun _ => 0)
  exact ⟨d', r, he, hiff.mpr (by simp [Trace.ReallocsLow, reallocTrace])⟩

end Driver

end CsoMalloc
