import CsoMalloc.Invariants

/-! What the client may rely on: its blocks are its own, no call touches them,
and where they lie depends on nothing but the requests. -/

namespace CsoMalloc

open ByteMemory Tiling LinkedSequence

/-- The `n` bytes at `p` and the `k` bytes at `a` have none in common. -/
def Clear (p n a k : Nat) : Prop := p + n ≤ a ∨ a + k ≤ p

/-- The block `b` of the client is aligned, inside the heap and its payload,
and clear of everything else that is in use. -/
structure Own (w : World) (bps : List Nat) (b : Live) : Prop where
  aligned : b.ptr % 8 = 0
  above : w.heap.memHeapLo ≤ b.ptr
  below : b.ptr + b.size ≤ w.heap.memHeapHi + 1
  payload : b.size + wsize ≤ w.heap.getThissize b.ptr
  others : ∀ c ∈ w.live, c ≠ b → Clear b.ptr b.size c.ptr c.size
  prologue : Clear b.ptr b.size w.heap.heapStart (3 * wsize)
  headers : ∀ bp ∈ bps ++ [w.heap.heapEnd + 1], Clear b.ptr b.size (bp - wsize) wsize
  footers : ∀ bp ∈ bps, w.heap.getThisalloc bp = 0 →
    Clear b.ptr b.size (w.heap.getBlockftr bp) wsize
  links : ∀ bp ∈ bps, w.heap.getThisalloc bp = 0 → Clear b.ptr b.size bp (2 * wsize)

/-- The live pointers are the allocated blocks of the heap, one for one. -/
structure AllocationContract (w : World) (bps : List Nat) : Prop where
  walk : heapWalk w.heap = some bps
  distinct : bps.Nodup
  live_distinct : (w.live.map Live.ptr).Nodup
  live_iff : ∀ bp, bp ∈ w.live.map Live.ptr ↔ bp ∈ bps ∧ w.heap.getThisalloc bp = thisalloc
  own : ∀ b ∈ w.live, Own w bps b

section Live

variable {E : Env} {w : World} {P : Plan} {L : Layout}

theorem eight_dvd_extent (bs : List Block) : 8 ∣ extent Block.size bs := by
  induction bs with
  | nil => simp
  | cons b bs ih =>
    rw [extent_cons]
    exact Nat.dvd_add b.size_dvd ih

theorem spans_aligned {a : Bool} {o n : Nat} (h : (o, n) ∈ spans a 16 L.blocks) : o % 8 = 0 := by
  obtain ⟨b, hb, _⟩ := mem_spans.mp h
  obtain ⟨pre, _, _, rfl⟩ := placed_split hb
  have := eight_dvd_extent pre
  omega

namespace Matches

theorem ptrs (h : Matches E w P) : w.live.map Live.ptr = (P.live.map Live.ptr).map (E.base + ·) := by
  rw [h.live, List.map_map, List.map_map]
  rfl

theorem ptrs_nodup (h : Matches E w P) (hwf : P.WF) : (w.live.map Live.ptr).Nodup := by
  rw [h.ptrs]
  exact hwf.ptrs.map (add_right_injective E.base)

theorem ids_nodup (h : Matches E w P) (hwf : P.WF) : (w.live.map Live.id).Nodup := by
  rw [h.live, List.map_map]
  exact hwf.ids

theorem find_live (h : Matches E w P) (hwf : P.WF) {b : Live} (hb : b ∈ w.live) :
    Live.find w.live b.id = some b := by
  obtain ⟨c, hc⟩ := Live.find_of_mem hb rfl
  obtain ⟨hcl, hcb⟩ := Live.find_some hc
  rw [hc, List.inj_on_of_nodup_map (h.ids_nodup hwf) hcl hb hcb]

theorem own (h : Matches E w P) (hwf : P.WF) {b : Live} (hb : b ∈ w.live) :
    Own w (E.addresses P.layout) b := by
  obtain ⟨o, k, ho, hk, hs, _⟩ := h.live_span hwf hb
  have hob : 16 ≤ o ∧ o + k ≤ P.layout.heapsize ∧ 16 ≤ k := spans_bounds hk
  have hfit := hwf.layout.fits
  have := E.base_high
  have := maxHeap_eq
  have hend := h.heap.heapEnd
  have hstart := h.heap.heapStart
  -- every block of the heap is the live one or lies apart from it
  have hsep : ∀ bp ∈ E.addresses P.layout, ∃ c : Block, Reads w.heap bp c ∧ 16 ≤ c.size ∧
      (bp = b.ptr ∧ c.alloc = true ∨ b.ptr + k ≤ bp ∨ bp + c.size ≤ b.ptr) := by
    intro bp hbp
    obtain ⟨q, c, rfl, hq⟩ := Env.mem_addresses.mp hbp
    refine ⟨c, h.heap.reads hwf.layout (placed_shift.mpr hq), c.size_ge, ?_⟩
    rcases spans_separated hk (mem_spans.mpr ⟨c, hq, rfl, rfl⟩) with he | he | he
    · exact .inl ⟨by omega, he.2.2.symm⟩
    · exact .inr (.inl (by omega))
    · exact .inr (.inr (by omega))
  have hfree : ∀ bp ∈ E.addresses P.layout, w.heap.getThisalloc bp = 0 →
      ∃ c : Block, Reads w.heap bp c ∧ 16 ≤ c.size ∧
        (b.ptr + k ≤ bp ∨ bp + c.size ≤ b.ptr) := by
    intro bp hbp h0
    obtain ⟨c, hc, hg, ⟨_, ha⟩ | he⟩ := hsep bp hbp
    · rw [hc.alloc, ha] at h0
      simp at h0
    · exact ⟨c, hc, hg, he⟩
  refine ⟨?_, ?_, ?_, ?_, fun c hc hne => ?_, ?_, fun bp hbp => ?_, fun bp hbp h0 => ?_,
    fun bp hbp h0 => ?_⟩
  · have := spans_aligned hk
    have := E.base_aligned
    omega
  · rw [State.memHeapLo, h.heap.startBrk]
    omega
  · rw [State.memHeapHi, h.heap.brk, wsub_eq (by omega) (by omega)]
    omega
  · rw [ho, h.heap.image.size_eq hwf.layout hk]
    exact hs
  · obtain ⟨o', k', ho', hk', hs', _⟩ := h.live_span hwf hc
    simp only [Clear]
    rcases spans_separated hk hk' with he | he | he
    · exact absurd (List.inj_on_of_nodup_map (h.ptrs_nodup hwf) hc hb (by omega)) hne
    · omega
    · omega
  · simp only [Clear, wsize, hstart]
    omega
  · simp only [Clear, wsize]
    rcases List.mem_append.mp hbp with hbp | hbp
    · obtain ⟨c, _, hg, he⟩ := hsep bp hbp
      omega
    · have := List.mem_singleton.mp hbp
      omega
  · obtain ⟨c, hc, hg, he⟩ := hfree bp hbp h0
    simp only [Clear, wsize, hc.ftr]
    omega
  · obtain ⟨c, hc, hg, he⟩ := hfree bp hbp h0
    simp only [Clear, wsize]
    omega

theorem contract (h : Matches E w P) (hwf : P.WF) :
    AllocationContract w (E.addresses P.layout) := by
  refine ⟨h.heap.heapWalk_eq hwf.layout, ?_, h.ptrs_nodup hwf, fun bp => ?_,
    fun b hb => h.own hwf hb⟩
  · exact (placed_sorted fun b _ => Nat.lt_of_lt_of_le (by decide) b.size_ge).imp fun hlt => hlt.ne
  · rw [h.ptrs, Env.mem_addresses]
    simp only [List.mem_map]
    constructor
    · rintro ⟨_, ⟨b, hb, rfl⟩, rfl⟩
      obtain ⟨k, hk, _⟩ := hwf.owned b hb
      obtain ⟨c, hc, ha, _⟩ := mem_spans.mp hk
      refine ⟨⟨b.ptr, c, rfl, hc⟩, ?_⟩
      rw [(h.heap.reads hwf.layout (placed_shift.mpr hc)).alloc, ha]
      rfl
    · rintro ⟨⟨o, c, rfl, hc⟩, ha⟩
      rw [(h.heap.reads hwf.layout (placed_shift.mpr hc)).alloc] at ha
      obtain ⟨b, hb, rfl⟩ := hwf.covered o c.size
        (mem_spans.mpr ⟨c, hc, by cases hx : c.alloc <;> simp_all [thisalloc], rfl⟩)
      exact ⟨b.ptr, ⟨b, hb, rfl⟩, rfl⟩

end Matches

end Live

section Runs

variable {E : Env} {rs : List Request} {w : World}

/-- After every operation of every run the client's blocks are the allocated
blocks, and each is its own. -/
theorem allocation_contract_holds (h : Run E rs w) : ∃ bps, AllocationContract w bps := by
  obtain ⟨hm, hwf⟩ := h.matches
  exact ⟨_, hm.contract hwf⟩

theorem allocation_contract_holds_small :
    ∃ w, Run Env.small [.malloc 24, .malloc 4000, .free 0, .realloc 1 9000] w ∧
      ∃ bps, AllocationContract w bps := by
  obtain ⟨w, hw⟩ := exists_run Env.small
    [.malloc 24, .malloc 4000, .free 0, .realloc 1 9000] (by decide)
  exact ⟨w, hw, allocation_contract_holds hw⟩

/-- No call changes a requested byte of a live block that is not its argument. -/
theorem payload_frame (h : Run E rs w) {q : Request} (hq : q.Allowed w.live) :
    ∃ w', w.call q = some w' ∧ ∀ b ∈ w.live, q.arg ≠ some b.id → ∀ i < b.size,
      w'.heap.mem (b.ptr + i) = w.heap.mem (b.ptr + i) := by
  obtain ⟨hm, hwf⟩ := h.matches
  obtain ⟨w', he, _, hk⟩ := hm.call hwf hq
  exact ⟨w', he, hk⟩

theorem payload_frame_small :
    ∃ w, Run Env.small [.malloc 24, .malloc 4000] w ∧ ∃ w', w.call (.free 0) = some w' ∧
      ∀ b ∈ w.live, b.id = 1 → ∀ i < b.size, w'.heap.mem (b.ptr + i) = w.heap.mem (b.ptr + i) := by
  obtain ⟨w, hw⟩ := exists_run Env.small [.malloc 24, .malloc 4000] (by decide)
  have hq : Request.Allowed w.live (.free 0) := by
    rw [hw.matches.1.allowed_iff]
    decide
  obtain ⟨w', he, hk⟩ := payload_frame hw hq
  exact ⟨w, hw, w', he, fun b hb hid => hk b hb (by simp [Request.arg, hid])⟩

end Runs

section Noninterference

/-- The free lists of `s` hold the blocks at the offsets `xs` from `heap_start`. -/
def ListsAt (s : State) (xs : Fin freelistCount → List Nat) : Prop :=
  ∀ i, Linked (fun bp => s.nextFree (State.memheaderFromPayload bp))
    (fun bp => s.prevFree (State.memheaderFromPayload bp)) 0 (s.freeLists i)
    ((xs i).map (s.heapStart + ·))

/-- Two heaps of the same size with the same free lists. -/
structure SameShape (s₁ s₂ : State) : Prop where
  heapsize : s₁.memHeapsize = s₂.memHeapsize
  lists : ∃ xs, ListsAt s₁ xs ∧ ListsAt s₂ xs

/-- Two calls that both returned `NULL`, or the same offset from `heap_start`. -/
def SameResult (e₁ e₂ : Nat × State) : Prop :=
  e₁.1 = 0 ∧ e₂.1 = 0 ∨ ∃ o, e₁.1 = e₁.2.heapStart + o ∧ e₂.1 = e₂.2.heapStart + o ∧ e₁.1 ≠ 0 ∧
    e₂.1 ≠ 0

variable {E E₁ E₂ : Env} {rs : List Request} {w w₁ w₂ : World}

theorem Refines.listsAt {s : State} {L : Layout} (h : Refines E s L) : ListsAt s L.lists := by
  intro i
  rw [h.heapStart]
  exact h.image.lists.linked_headers i

theorem Refines.heapsize_eq {s : State} {L : Layout} (h : Refines E s L) :
    s.memHeapsize = L.heapsize % 2 ^ 32 := by
  rw [State.memHeapsize, h.brk, h.startBrk, wsub]
  omega

theorem Refines.sameShape {s₁ s₂ : State} {L : Layout} (h₁ : Refines E₁ s₁ L)
    (h₂ : Refines E₂ s₂ L) : SameShape s₁ s₂ :=
  ⟨h₁.heapsize_eq.trans h₂.heapsize_eq.symm, L.lists, h₁.listsAt, h₂.listsAt⟩

theorem Env.sameResult {s₁ s₂ : State} {L : Layout} (h₁ : Refines E₁ s₁ L)
    (h₂ : Refines E₂ s₂ L) (r : Option Nat) : SameResult (E₁.ptr r, s₁) (E₂.ptr r, s₂) := by
  cases r with
  | none => exact .inl ⟨rfl, rfl⟩
  | some o =>
    have := E₁.base_pos
    have := E₂.base_pos
    refine .inr ⟨o, ?_, ?_, ?_, ?_⟩
    · rw [h₁.heapStart]
      rfl
    · rw [h₂.heapStart]
      rfl
    · simp only [Env.ptr]
      omega
    · simp only [Env.ptr]
      omega

theorem forall₂_of_common {α β γ : Type*} {R : α → γ → Prop} {S : β → γ → Prop} {T : α → β → Prop}
    (h : ∀ a b c, R a c → S b c → T a b) {xs : List α} {ys : List β} {zs : List γ}
    (hx : List.Forall₂ R xs zs) (hy : List.Forall₂ S ys zs) : List.Forall₂ T xs ys := by
  induction hx generalizing ys with
  | nil => cases hy; exact .nil
  | cons hxz _ ih =>
    cases hy with
    | cons hyz hys => exact .cons (h _ _ _ hxz hyz) (ih hys)

theorem Plan.call_log_length {P : Plan} {page : Size} {q : Request} (hq : q.Allowed P.live) :
    (P.call page q).log.length = P.log.length + 1 := by
  cases q with
  | malloc n => simp [Plan.call_malloc]
  | free k =>
    obtain ⟨b, hb, hk⟩ := hq
    obtain ⟨c, hc⟩ := Live.find_of_mem hb hk
    simp [Plan.call_free hc]
  | realloc k n =>
    obtain ⟨_, b, hb, hk⟩ := hq
    obtain ⟨c, hc⟩ := Live.find_of_mem hb hk
    simp [Plan.call_realloc hc]

theorem Run.log_length (h : Run E rs w) : (Plan.run E.page rs).log.length = rs.length := by
  induction h with
  | init => rfl
  | write _ _ ih => exact ih
  | call h hq _ ih =>
    rw [Plan.run_append, Plan.call_log_length (h.matches.1.allowed_iff.mp hq), ih]
    simp

/-- Two runs of the same requests behave alike, call by call, whatever the
base of the heap, the memory they found and the client's data. -/
theorem layout_noninterference (h₁ : Run E₁ rs w₁) (h₂ : Run E₂ rs w₂)
    (hp : E₁.pageSize = E₂.pageSize) :
    w₁.log.length = rs.length ∧
      List.Forall₂ (fun e₁ e₂ => SameResult e₁ e₂ ∧ SameShape e₁.2 e₂.2) w₁.log w₂.log ∧
      SameShape w₁.heap w₂.heap := by
  have hpage : E₂.page = E₁.page := by simp only [Env.page, hp]
  obtain ⟨hm₁, _⟩ := h₁.matches
  obtain ⟨hm₂, _⟩ := h₂.matches
  rw [hpage] at hm₂
  refine ⟨hm₁.log_length.trans h₁.log_length, ?_, hm₁.heap.sameShape hm₂.heap⟩
  refine forall₂_of_common ?_ hm₁.log hm₂.log
  rintro ⟨p₁, s₁⟩ ⟨p₂, s₂⟩ ⟨r, L⟩ ⟨rfl, hr₁⟩ ⟨rfl, hr₂⟩
  exact ⟨Env.sameResult hr₁ hr₂ r, hr₁.sameShape hr₂⟩

def Env.high : Env := ⟨2 ^ 31, 4096, by decide, by decide, by decide, Env.small.room⟩

theorem layout_noninterference_small :
    ∃ w₁ w₂, Run Env.small [.malloc 24, .malloc 4000, .free 0, .realloc 1 9000] w₁ ∧
      Run Env.high [.malloc 24, .malloc 4000, .free 0, .realloc 1 9000] w₂ ∧
      List.Forall₂ (fun e₁ e₂ => SameResult e₁ e₂ ∧ SameShape e₁.2 e₂.2) w₁.log w₂.log := by
  obtain ⟨w₁, h₁⟩ := exists_run Env.small
    [.malloc 24, .malloc 4000, .free 0, .realloc 1 9000] (by decide)
  obtain ⟨w₂, h₂⟩ := exists_run Env.high
    [.malloc 24, .malloc 4000, .free 0, .realloc 1 9000] (by decide)
  exact ⟨w₁, w₂, h₁, h₂, (layout_noninterference h₁ h₂ rfl).2.1⟩

end Noninterference

section Steps

variable {E : Env} {rs : List Request} {w : World} {q : Request}

theorem Plan.call_grows {P : Plan} {page : Size} (h : P.WF) (hq : q.Allowed P.live) :
    P.layout.heapsize ≤ (P.call page q).layout.heapsize := by
  have hmalloc : ∀ n, P.layout.heapsize ≤ (P.layout.malloc page n).1.heapsize := fun n => by
    cases hr : (P.layout.malloc page n).2 with
    | none => rw [Layout.malloc_none hr]
    | some o => exact (Layout.malloc_some h.layout hr).2.grows
  cases q with
  | malloc n => exact hmalloc n
  | free k =>
    obtain ⟨b, hb, hk⟩ := hq
    obtain ⟨c, hc⟩ := Live.find_of_mem hb hk
    obtain ⟨j, hj, _⟩ := h.owned c (Live.find_some hc).1
    rw [Plan.call_free hc]
    exact (Layout.free_wf h.layout hj).2.1.ge
  | realloc k n =>
    obtain ⟨_, b, hb, hk⟩ := hq
    obtain ⟨c, hc⟩ := Live.find_of_mem hb hk
    obtain ⟨j, hj, _⟩ := h.owned c (Live.find_some hc).1
    have hgrow := hmalloc n
    have hsome : ∀ o, (P.layout.malloc page n).2 = some o → _ := fun o ho =>
      (Layout.malloc_some h.layout ho).2
    rw [Plan.call_realloc hc, Layout.realloc]
    cases hL : P.layout.malloc page n with
    | mk L r =>
      rw [hL] at hgrow hsome
      cases r with
      | none => exact hgrow
      | some o =>
        have ht := hsome o rfl
        obtain ⟨_, _, hs⟩ := ht.allocated
        exact hgrow.trans (Layout.free_wf ht.wf ((hs _).mpr (.inr hj))).2.1.ge

theorem Run.heapsize_eq (h : Run E rs w) :
    w.heap.memHeapsize = (Plan.run E.page rs).layout.heapsize := by
  obtain ⟨hm, hwf⟩ := h.matches
  have := hwf.layout.fits
  have := maxHeap_eq
  rw [hm.heap.heapsize_eq]
  omega

/-- An allowed call continues the run. The break does not go back, and the
requested bytes of the blocks not passed stay as they are. -/
theorem Run.step (h : Run E rs w) (hq : q.Allowed w.live) :
    ∃ w', w.call q = some w' ∧ Run E (rs ++ [q]) w' ∧
      w.heap.memHeapsize ≤ w'.heap.memHeapsize ∧
      ∀ b ∈ w.live, q.arg ≠ some b.id → ∀ i < b.size,
        w'.heap.mem (b.ptr + i) = w.heap.mem (b.ptr + i) := by
  obtain ⟨hm, hwf⟩ := h.matches
  obtain ⟨w', he, _, hk⟩ := hm.call hwf hq
  have h' := h.call hq he
  refine ⟨w', he, h', ?_, hk⟩
  rw [h.heapsize_eq, h'.heapsize_eq, Plan.run_append]
  exact Plan.call_grows hwf (hm.allowed_iff.mp hq)

end Steps

end CsoMalloc
