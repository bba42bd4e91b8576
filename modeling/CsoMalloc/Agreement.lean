import CsoMalloc.Verdicts
import CsoMalloc.Speed
import CsoMalloc.Utilization

/-! The replays of one trace for correctness, space and speed start from
different heaps in different arenas. They end in the same layout, or all fail. -/

namespace CsoMalloc

section Blocks

variable {E : Env} {R : Rehearsal} {done : List TraceOp} {w : World} {held : List (Int × Live)}
  {blocks blockSizes : Int → Nat}

theorem Rehearsed.block_eq (h : Rehearsed E R done w held blocks blockSizes) {i : Int}
    (hi : ∃ b ∈ inUse done, b.1 = i) (hf : ∀ a ∈ done, a.type = .free → a.index ≠ i) :
    ∃ c b, R.calls.find? (fun c => c.1 = i) = some c ∧ Live.find R.plan.live c.2 = some b ∧
      blocks i = E.base + b.ptr := by
  obtain ⟨rs, htr, hplan⟩ := h.tracks
  obtain ⟨hm, hwf⟩ := htr.run.matches
  obtain ⟨b, hb, rfl⟩ := hi
  rw [htr.inUse] at hb
  obtain ⟨g, hg, rfl⟩ := List.mem_map.mp hb
  cases hfind : held.find? fun x => x.1 = g.1 with
  | none => exact absurd (decide_eq_true rfl) (List.find?_eq_none.mp hfind g hg)
  | some x =>
    have hxl : x.2 ∈ w.live := htr.live ▸ List.mem_map_of_mem (List.mem_of_find?_eq_some hfind)
    obtain ⟨c, hc, hcx⟩ := List.mem_map.mp (hm.live ▸ hxl)
    have hid : c.id = x.2.id := by rw [← hcx]; rfl
    have hptr : E.base + c.ptr = x.2.ptr := by rw [← hcx]; rfl
    refine ⟨_, c, h.find_call hfind, ?_, ?_⟩
    · rw [hplan]
      obtain ⟨y, hy⟩ := Live.find_of_mem hc hid
      obtain ⟨hyl, hyc⟩ := Live.find_some hy
      obtain rfl := List.inj_on_of_nodup_map hwf.ids hyl hc (hyc.trans hid.symm)
      exact hy
    · rw [hptr]
      exact (htr.current _ hf x hfind).1

end Blocks

section Speed

variable {E : Env} {R : Rehearsal} {numIds : Int} {done : List TraceOp} {op : TraceOp} {w : World}
  {held : List (Int × Live)} {blocks blockSizes : Int → Nat}

def Rehearsed.Timed (E : Env) (done : List TraceOp) (R : Option Rehearsal)
    (r : Except Halt (State × (Int → Nat))) : Prop :=
  match R with
  | none => ∃ msg, r = .error (.appError msg)
  | some R => ∃ w held blocks blockSizes, r = .ok (w.heap, blocks) ∧
      Rehearsed E R done w held blocks blockSizes

theorem Rehearsed.speedOp (h : Rehearsed E R done w held blocks blockSizes)
    (hop : op.Allowed numIds done) :
    Rehearsed.Timed E (done ++ [op]) (R.step E.page op)
      (CsoMalloc.speedOp mmAllocator op (w.heap, blocks)) := by
  cases ht : op.type with
  | alloc =>
    obtain ⟨s, p, he, hcase⟩ := h.alloc hop ht
    have he' : mmAllocator.malloc w.heap (word op.size) = some (s, p) := he
    rw [speedOp_alloc ht, he']
    rcases hcase with ⟨rfl, hstep⟩ | ⟨hp, R', w', b, hstep, rfl, _, _, h'⟩
    · rw [hstep]
      exact ⟨_, rfl⟩
    · rw [hstep, settle, if_neg hp]
      exact ⟨w', _, _, _, rfl, h'⟩
  | realloc =>
    obtain ⟨s, p, he, hcase⟩ := h.realloc hop ht
    have he' : mmAllocator.realloc w.heap (blocks op.index) (word op.size) = some (s, p) := he
    rw [speedOp_realloc ht, he']
    rcases hcase with ⟨rfl, hstep⟩ | ⟨hp, R', w', b, hstep, rfl, _, _, h'⟩
    · rw [hstep]
      exact ⟨_, rfl⟩
    · rw [hstep, settle, if_neg hp]
      exact ⟨w', _, _, _, rfl, h'⟩
  | free =>
    obtain ⟨s, R', w', he, hstep, rfl, h'⟩ := h.free hop ht
    have he' : mmAllocator.free w.heap (blocks op.index) = some w'.heap := he
    rw [speedOp_free ht, he', hstep]
    exact ⟨w', _, _, _, rfl, h'⟩

theorem Rehearsed.speedLoop (h : Rehearsed E R done w held blocks blockSizes) {ops : List TraceOp}
    (hseq : TraceOp.Sequence numIds done ops) :
    Rehearsed.Timed E (done ++ ops) (R.loop E.page ops)
      (CsoMalloc.speedLoop mmAllocator ops (w.heap, blocks)) := by
  induction ops generalizing R done w held blocks blockSizes with
  | nil => exact ⟨w, held, blocks, blockSizes, rfl, by simpa using h⟩
  | cons op ops ih =>
    have hstep := h.speedOp hseq.1
    rw [Rehearsal.loop, CsoMalloc.speedLoop]
    cases hR : R.step E.page op with
    | none =>
      rw [hR] at hstep
      obtain ⟨msg, he⟩ := hstep
      rw [he]
      exact ⟨msg, rfl⟩
    | some R' =>
      rw [hR] at hstep
      obtain ⟨w', held', blocks', sizes', he, h'⟩ := hstep
      rw [he]
      have hl := ih h' hseq.2
      rw [List.append_assoc, List.singleton_append] at hl
      exact hl

theorem evalMmSpeed_timed (E : Env) {t : Trace} (ht : t.WellFormed) (x : State × (Int → Nat)) :
    Rehearsed.Timed E t.ops (t.rehearse E.page) (evalMmSpeed E.base E.pageSize t x) := by
  obtain ⟨s, hs, _⟩ := mmInit_refines E x.1.memResetBrk
  have hinit : Rehearsed E (.initial E.page) [] ⟨s, [], []⟩ [] x.2 x.2 := Rehearsed.init hs
  rw [evalMmSpeed, hs]
  exact hinit.speedLoop ht

end Speed

section Util

variable {E : Env} {R : Rehearsal} {numIds : Int} {done : List TraceOp} {op : TraceOp} {u : Util}
  {s : State} {p : Nat}

/-- A replay of `eval_mm_util` that has come as far as the rehearsal. -/
structure Metered (E : Env) (R : Rehearsal) (done : List TraceOp) (u : Util) : Prop where
  invariant : UtilInvariant E done u
  rehearsed : ∃ w held, w.heap = u.heap ∧ Rehearsed E R done w held u.blocks u.blockSizes

def Metered.Measured (E : Env) (done : List TraceOp) (R : Option Rehearsal)
    (r : Except Halt Util) : Prop :=
  match R with
  | none => ∃ msg, r = .error (.appError msg)
  | some R => ∃ u, r = .ok u ∧ Metered E R done u

theorem checkInt_cases (i : Int) : checkInt i = .ok i ∨ checkInt i = .error .overflow := by
  rw [checkInt]
  split
  · exact .inl rfl
  · exact .inr rfl

theorem checkInt_inv {i : Int} {f : Int → Util} {r : Except Halt Util}
    (h : r = checkInt i >>= fun total => .ok (f total)) :
    (∀ msg, r ≠ .error (.appError msg)) ∧ ∀ u, r = .ok u → ∃ total, u = f total := by
  rcases checkInt_cases i with hc | hc
  · rw [h, hc, ok_bind]
    exact ⟨fun _ he => (by cases he), fun u he => ⟨i, (Except.ok.inj he).symm⟩⟩
  · rw [h, hc, error_bind]
    exact ⟨fun _ he => (by cases he), fun u he => (by cases he)⟩

theorem Metered.of_after (h : (∃ msg, utilOp op u = .error (.appError msg)) ∨
      ∃ u', utilOp op u = .ok u' ∧ UtilInvariant E (done ++ [op]) u')
    (he : (∀ msg, utilOp op u ≠ .error (.appError msg)) ∧
      ∀ u', utilOp op u = .ok u' → ∃ total, u' = u.after op s p total)
    (hr : ∃ w held, w.heap = s ∧ Rehearsed E R (done ++ [op]) w held
      (Function.update u.blocks op.index p) (Function.update u.blockSizes op.index (word op.size))) :
    ∃ u', utilOp op u = .ok u' ∧ Metered E R (done ++ [op]) u' := by
  rcases h with ⟨msg, hmsg⟩ | ⟨u', hu', hinv⟩
  · exact absurd hmsg (he.1 msg)
  · obtain ⟨total, rfl⟩ := he.2 u' hu'
    exact ⟨_, hu', hinv, hr⟩

theorem Metered.alloc (h : Metered E R done u) (hop : op.Allowed numIds done)
    (ht : op.type = .alloc) :
    Metered.Measured E (done ++ [op]) (R.step E.page op) (utilOp op u) := by
  obtain ⟨w, held, hw, hre⟩ := h.rehearsed
  obtain ⟨s, p, he, hcase⟩ := hre.alloc hop ht
  rw [hw] at he
  rcases hcase with ⟨rfl, hstep⟩ | ⟨hp, R', w', b, hstep, hs, _, _, h'⟩
  · rw [hstep]
    exact ⟨_, utilOp_alloc_null ht he⟩
  · rw [hstep]
    have heq : utilOp op u =
        checkInt (u.totalSize + op.size) >>= fun total => .ok (u.after op s p total) := by
      rw [utilOp, ht]
      simp only [he, orDiverge, if_neg hp, bind, Except.bind, pure, Except.pure, Util.after]
    exact Metered.of_after (h.invariant.alloc hop ht) (checkInt_inv heq) ⟨w', _, hs, h'⟩

theorem Metered.realloc (h : Metered E R done u) (hop : op.Allowed numIds done)
    (ht : op.type = .realloc) :
    Metered.Measured E (done ++ [op]) (R.step E.page op) (utilOp op u) := by
  obtain ⟨w, held, hw, hre⟩ := h.rehearsed
  obtain ⟨s, p, he, hcase⟩ := hre.realloc hop ht
  rw [hw] at he
  rcases hcase with ⟨rfl, hstep⟩ | ⟨hp, R', w', b, hstep, hs, _, _, h'⟩
  · rw [hstep]
    exact ⟨_, utilOp_realloc_null ht he⟩
  · rw [hstep]
    obtain ⟨k, hk⟩ : ∃ k, toInt (u.blockSizes op.index) = k := ⟨_, rfl⟩
    refine Metered.of_after (h.invariant.realloc hop ht) ?_ ⟨w', _, hs, h'⟩
    -- the difference may be out of range as well as the sum
    have heq : utilOp op u = checkInt (op.size - k) >>= fun delta =>
        checkInt (u.totalSize + delta) >>= fun total => .ok (u.after op s p total) := by
      rw [utilOp, ht]
      simp only [he, hk, orDiverge, if_neg hp, bind, Except.bind, pure, Except.pure, Util.after]
    rcases checkInt_cases (op.size - k) with hc | hc
    · rw [hc, ok_bind] at heq
      exact checkInt_inv heq
    · rw [heq, hc, error_bind]
      exact ⟨fun _ he => (by cases he), fun u he => (by cases he)⟩

theorem Metered.free (h : Metered E R done u) (hop : op.Allowed numIds done)
    (ht : op.type = .free) :
    Metered.Measured E (done ++ [op]) (R.step E.page op) (utilOp op u) := by
  obtain ⟨w, held, hw, hre⟩ := h.rehearsed
  obtain ⟨s, R', w', he, hstep, hs, h'⟩ := hre.free hop ht
  rw [hw] at he
  rw [hstep]
  obtain ⟨u', hu', hinv⟩ := h.invariant.free hop ht
  obtain ⟨k, hk⟩ : ∃ k, toInt (u.blockSizes op.index) = k := ⟨_, rfl⟩
  have heq : utilOp op u = checkInt (u.totalSize - k) >>= fun total =>
      .ok { u with heap := s, totalSize := total } := by
    rw [utilOp, ht]
    dsimp only
    rw [he, hk]
    generalize checkInt (u.totalSize - k) = c
    rfl
  obtain ⟨total, rfl⟩ := (checkInt_inv heq).2 u' hu'
  exact ⟨_, hu', hinv, w', _, hs, h'⟩

theorem Metered.step (h : Metered E R done u) (hop : op.Allowed numIds done) :
    Metered.Measured E (done ++ [op]) (R.step E.page op) (utilOp op u) := by
  cases ht : op.type with
  | alloc => exact h.alloc hop ht
  | realloc => exact h.realloc hop ht
  | free => exact h.free hop ht

theorem Metered.loop (h : Metered E R done u) {ops : List TraceOp}
    (hseq : TraceOp.Sequence numIds done ops) :
    Metered.Measured E (done ++ ops) (R.loop E.page ops) (utilLoop ops u) := by
  induction ops generalizing R done u with
  | nil => exact ⟨u, rfl, by simpa using h⟩
  | cons op ops ih =>
    have hstep := h.step hseq.1
    rw [Rehearsal.loop, utilLoop]
    cases hR : R.step E.page op with
    | none =>
      rw [hR] at hstep
      obtain ⟨msg, he⟩ := hstep
      rw [he]
      exact ⟨msg, rfl⟩
    | some R' =>
      rw [hR] at hstep
      obtain ⟨u', he, h'⟩ := hstep
      rw [he]
      have hl := ih h' hseq.2
      rw [List.append_assoc, List.singleton_append] at hl
      exact hl

theorem evalMmUtil_measured (E : Env) {t : Trace} (ht : t.WellFormed) (u : Util) :
    Metered.Measured E t.ops (t.rehearse E.page) (evalMmUtil E.base E.pageSize t u) := by
  obtain ⟨s, hs, _⟩ := mmInit_refines E u.heap.memResetBrk
  have hinit : UtilInvariant E [] { u with heap := s, totalSize := 0, maxTotalSize := 0 } := by
    refine ⟨⟨_, _, [], Tracks.init hs, rfl⟩, rfl, ⟨⟨[], List.prefix_rfl, rfl⟩, ?_⟩,
      Int.natCast_nonneg _⟩
    rintro x ⟨l, hl, rfl⟩
    rw [List.prefix_nil.mp hl]
    exact le_rfl
  have hm : Metered E (.initial E.page) [] { u with heap := s, totalSize := 0, maxTotalSize := 0 } :=
    ⟨hinit, _, [], rfl, Rehearsed.init hs⟩
  rw [evalMmUtil, hs]
  exact hm.loop ht

end Util

section Agreement

variable {E E₁ E₂ E₃ : Env} {t : Trace} {tracenum : Int} {d d' : Driver}

theorem evalMmValid_rehearsed (E : Env) (ht : t.WellFormed)
    (hv : evalMmValid E.base E.pageSize t tracenum d = some (d', 1)) :
    ∃ R w held, t.rehearse E.page = some R ∧ w.heap = d'.heap ∧
      Rehearsed E R t.ops w held d'.blocks d'.blockSizes := by
  obtain ⟨d₁, hl, _, hnone⟩ := evalMmValid_predicted E ht tracenum d
  obtain ⟨rfl, hone⟩ := Prod.mk.inj (Option.some.inj (hv.symm.trans hl))
  cases hr : t.report E.page tracenum with
  | some r => simp [hr] at hone
  | none =>
    obtain ⟨R, hR, hp⟩ := hnone hr
    obtain ⟨w, held, hw, h⟩ := hp.rehearsed
    exact ⟨R, w, held, hR, hw, h⟩

/-- If `eval_mm_valid` accepts a well-formed trace, then neither `eval_mm_util` nor
`eval_mm_speed` leaves the program on it, whatever heap they find. All three end
with heaps of one size and the blocks in use at the same places. -/
theorem replays_agree (h₁₂ : E₁.pageSize = E₂.pageSize) (h₁₃ : E₁.pageSize = E₃.pageSize)
    (ht : t.WellFormed) (hv : evalMmValid E₁.base E₁.pageSize t tracenum d = some (d', 1))
    (u : Util) (x : State × (Int → Nat)) :
    ∃ u' y, evalMmUtil E₂.base E₂.pageSize t u = .ok u' ∧
      evalMmSpeed E₃.base E₃.pageSize t x = .ok y ∧
      u'.heap.memHeapsize = d'.heap.memHeapsize ∧ y.1.memHeapsize = d'.heap.memHeapsize ∧
      ∀ i, (∃ b ∈ inUse t.ops, b.1 = i) → (∀ a ∈ t.ops, a.type = .free → a.index ≠ i) →
        ∃ o, d'.blocks i = E₁.base + o ∧ u'.blocks i = E₂.base + o ∧ y.2 i = E₃.base + o := by
  have hp₂ : E₂.page = E₁.page := by simp only [Env.page, h₁₂]
  have hp₃ : E₃.page = E₁.page := by simp only [Env.page, h₁₃]
  obtain ⟨R, w₁, held₁, hR, hw₁, hr₁⟩ := evalMmValid_rehearsed E₁ ht hv
  have hu := evalMmUtil_measured E₂ ht u
  have hs := evalMmSpeed_timed E₃ ht x
  rw [hp₂, hR] at hu
  rw [hp₃, hR] at hs
  obtain ⟨u', hu', hmet⟩ := hu
  obtain ⟨w₂, held₂, hw₂, hr₂⟩ := hmet.rehearsed
  obtain ⟨w₃, held₃, blocks₃, sizes₃, hs', hr₃⟩ := hs
  refine ⟨u', _, hu', hs', ?_, ?_, fun i hi hf => ?_⟩
  · rw [← hw₁, ← hw₂, hr₁.heapsize_eq, hr₂.heapsize_eq]
  · rw [← hw₁, hr₁.heapsize_eq, hr₃.heapsize_eq]
  · obtain ⟨c, b, hc, hb, h₁⟩ := hr₁.block_eq hi hf
    obtain ⟨c₂, b₂, hc₂, hb₂, h₂⟩ := hr₂.block_eq hi hf
    obtain ⟨c₃, b₃, hc₃, hb₃, h₃⟩ := hr₃.block_eq hi hf
    obtain rfl := Option.some.inj (hc.symm.trans hc₂)
    obtain rfl := Option.some.inj (hc.symm.trans hc₃)
    obtain rfl := Option.some.inj (hb.symm.trans hb₂)
    obtain rfl := Option.some.inj (hb.symm.trans hb₃)
    exact ⟨b.ptr, h₁, h₂, h₃⟩

theorem replays_agree_low :
    ∃ d' u' y, evalMmValid Env.small.base Env.small.pageSize (reallocTrace 5) 0
        ⟨default, [], fun _ => 0, fun _ => 0, []⟩ = some (d', 1) ∧
      evalMmUtil Env.high.base Env.high.pageSize (reallocTrace 5)
        ⟨default, fun _ => 1, fun _ => 1, 0, 0⟩ = .ok u' ∧
      evalMmSpeed Env.small.base Env.small.pageSize (reallocTrace 5) (default, fun _ => 2) = .ok y ∧
      u'.heap.memHeapsize = d'.heap.memHeapsize ∧
      ∃ o, d'.blocks 5 = Env.small.base + o ∧ u'.blocks 5 = Env.high.base + o := by
  have ht := reallocTrace_wellFormed 5 (by decide)
  have hreport : (reallocTrace 5).report Env.small.page 0 = none := by decide
  obtain ⟨d', hv, _⟩ := evalMmValid_predicted Env.small ht 0
    ⟨default, [], fun _ => 0, fun _ => 0, []⟩
  rw [hreport] at hv
  obtain ⟨u', y, hu, hs, hsize, _, hplace⟩ := replays_agree
    (show Env.small.pageSize = Env.high.pageSize from rfl)
    (show Env.small.pageSize = Env.small.pageSize from rfl) ht hv
    ⟨default, fun _ => 1, fun _ => 1, 0, 0⟩ (default, fun _ => 2)
  obtain ⟨o, h₁, h₂, _⟩ := hplace 5 (by decide) (by decide)
  exact ⟨d', u', y, hv, hu, hs, hsize, o, h₁, h₂⟩

end Agreement

end CsoMalloc
