import CsoMalloc.Fragmentation

/-! Full coalescing of the heap in memory, and the runs that reach it. -/

namespace CsoMalloc

open ByteMemory Tiling

/-- No two physical neighbours are both free; when nothing is live, the heap is
one free block. -/
def FullyCoalesced (w : World) : Prop :=
  ∃ bps, heapWalk w.heap = some bps ∧
    (bps.IsChain fun x y => ¬ (w.heap.getThisalloc x = 0 ∧ w.heap.getThisalloc y = 0)) ∧
    (w.live = [] → ∃ bp, bps = [bp] ∧ w.heap.getThisalloc bp = 0)

/-- The block physically before `bp` is free. -/
def PrevFree (s : State) (bp : Nat) : Prop :=
  ∃ bps, heapWalk s = some bps ∧ ∃ x ∈ bps, s.getNextblock x = bp ∧ s.getThisalloc x = 0

/-- The call does not make `mm_free` run on a block behind a free block. The
one of `mm_realloc` runs after its `mm_malloc`. -/
def Request.Clean (w : World) : Request → Prop
  | malloc _ => True
  | free k => ∀ b ∈ w.live, b.id = k → ¬ PrevFree w.heap b.ptr
  | realloc k n => ∀ s p, mmMalloc w.heap n = some (s, p) → p ≠ 0 → ∀ b ∈ w.live, b.id = k →
      ¬ PrevFree s b.ptr

/-- The runs all of whose calls are clean. -/
inductive CleanRun (E : Env) : List Request → World → Prop where
  | init {s s' : State} : mmInit E.base E.pageSize s = some (s', 0) → CleanRun E [] ⟨s', [], []⟩
  | write {rs : List Request} {w : World} {m : Mem} : CleanRun E rs w →
      (∀ a, (∀ b ∈ w.live, a < b.ptr ∨ b.ptr + b.size ≤ a) → m a = w.heap.mem a) →
      CleanRun E rs (w.write m)
  | call {rs : List Request} {q : Request} {w w' : World} : CleanRun E rs w →
      q.Allowed w.live → q.Clean w → w.call q = some w' → CleanRun E (rs ++ [q]) w'

variable {E : Env} {s : State} {L : Layout} {w w' : World} {P : Plan} {rs : List Request}

theorem CleanRun.run (h : CleanRun E rs w) : Run E rs w := by
  induction h with
  | init he => exact .init he
  | write _ hm ih => exact .write ih hm
  | call _ hq _ he ih => exact .call ih hq he

theorem isChain_free_iff {bs : List Block} {p : Nat}
    (hr : ∀ q b, (q, b) ∈ placed Block.size p bs → Reads s q b) :
    (((placed Block.size p bs).map Prod.fst).IsChain
      fun x y => ¬ (s.getThisalloc x = 0 ∧ s.getThisalloc y = 0)) ↔ Spread bs := by
  induction bs generalizing p with
  | nil => simp [Spread]
  | cons b bs ih =>
    have hb := hr p b List.mem_cons_self
    have hih := ih fun q c hc => hr q c (List.mem_cons_of_mem _ hc)
    cases bs with
    | nil => simp [Spread]
    | cons c bs =>
      have hc := hr (p + b.size) c (by simp)
      simp only [placed_cons, List.map_cons, List.isChain_cons_cons, Spread] at hih ⊢
      rw [hih, hb.alloc, hc.alloc]
      cases b.alloc <;> cases c.alloc <;> simp

theorem Matches.fullyCoalesced_iff (h : Matches E w P) (hwf : P.WF) :
    FullyCoalesced w ↔ Spread P.layout.blocks := by
  have hwalk := h.heap.heapWalk_eq hwf.layout
  have hread : ∀ q b, (q, b) ∈ placed Block.size (E.base + 16) P.layout.blocks →
      Reads w.heap q b := fun q b hb => h.heap.reads hwf.layout hb
  have hchain := isChain_free_iff hread
  constructor
  · rintro ⟨bps, hb, hc, _⟩
    obtain rfl := Option.some.inj (hwalk.symm.trans hb)
    exact hchain.mp hc
  · intro hs
    refine ⟨_, hwalk, hchain.mpr hs, fun hnil => ?_⟩
    -- with nothing live there is no allocated block, so no second block
    have hfree : ∀ b ∈ P.layout.blocks, b.alloc = false := by
      intro b hb
      obtain ⟨pre, post, hpp⟩ := List.append_of_mem hb
      by_contra ha
      have ha : b.alloc = true := by simpa using ha
      obtain ⟨c, hc, _⟩ := hwf.covered (16 + extent Block.size pre) b.size (by simp [hpp, ha])
      rw [h.live, List.map_eq_nil_iff] at hnil
      simp [hnil] at hc
    have hne := hwf.layout.nonempty
    cases hbs : P.layout.blocks with
    | nil => exact absurd hbs hne
    | cons b bs =>
      rw [hbs] at hfree hs hread
      cases bs with
      | nil =>
        refine ⟨E.base + 16, by simp [Env.addresses, hbs], ?_⟩
        rw [(hread _ b List.mem_cons_self).alloc, hfree b List.mem_cons_self]
        rfl
      | cons c bs =>
        have hc := (spread_cons.mp hs).1 (hfree b List.mem_cons_self) c rfl
        simp [hfree c (by simp)] at hc

theorem Focus.placed_prev {f : Focus} {l : Block} (hl : l ∈ f.before.head?) :
    ∃ q, q + l.size = f.offset ∧ (q, l) ∈ placed Block.size 16 f.layout.blocks := by
  cases hb : f.before with
  | nil => simp [hb] at hl
  | cons c rest =>
    obtain rfl : c = l := by simpa [hb] using hl
    refine ⟨16 + extent Block.size rest, ?_, ?_⟩
    · simp only [Focus.offset, hb, extent_cons]
      omega
    · simp [Focus.layout, hb]

theorem Refines.prevFree_iff (h : Refines E s L) (hwf : L.WF) {f : Focus} (hL : f.layout = L) :
    PrevFree s (E.base + f.offset) ↔ ∃ l ∈ f.before.head?, l.alloc = false := by
  subst hL
  constructor
  · rintro ⟨bps, hb, x, hx, hnext, h0⟩
    obtain rfl := Option.some.inj ((h.heapWalk_eq hwf).symm.trans hb)
    obtain ⟨q, c, rfl, hc⟩ := Env.mem_addresses.mp hx
    have hr := h.reads hwf (placed_shift.mpr hc)
    have hfree : c.alloc = false := by
      rw [hr.alloc] at h0
      cases ha : c.alloc <;> simp_all
    rw [hr.next] at hnext
    have hcg := c.size_ge
    have hq := (placed_bounds hc).1
    cases hbf : f.before with
    | nil =>
      simp only [Focus.offset, hbf, extent_nil] at hnext
      omega
    | cons l rest =>
      obtain ⟨q', hq', hl⟩ := f.placed_prev (l := l) (by simp [hbf])
      have hlg := l.size_ge
      refine ⟨l, rfl, ?_⟩
      rcases placed_separated hc hl with he | he | he
      · rw [← (Prod.mk.inj he).2, hfree]
      · omega
      · omega
  · rintro ⟨l, hl, hfree⟩
    obtain ⟨q, hq, hp⟩ := f.placed_prev hl
    have hr := h.reads hwf (placed_shift.mpr hp)
    refine ⟨_, h.heapWalk_eq hwf, E.base + q, Env.mem_addresses.mpr ⟨q, l, rfl, hp⟩, ?_, ?_⟩
    · rw [hr.next, Nat.add_assoc, hq]
    · rw [hr.alloc, hfree]
      rfl

/-- `mm_free` keeps the heap coalesced exactly when the block before its
argument is in use. -/
theorem Refines.free_spread_iff (h : Refines E s L) (hwf : L.WF) (hs : Spread L.blocks)
    (hm : Marked L.blocks) {o k : Nat} (ho : (o, k) ∈ spans true 16 L.blocks) :
    (Spread (L.free o).blocks ↔ ¬ PrevFree s (E.base + o)) ∧ Marked (L.free o).blocks := by
  obtain ⟨f, hf, hL, rfl, _⟩ := Layout.focus_of_span ho
  obtain ⟨hiff, hm'⟩ := Layout.free_spread hf hL hs hm
  refine ⟨?_, hm'⟩
  rw [hiff, h.prevFree_iff hwf hL]
  simp

theorem Matches.call_spread (h : Matches E w P) (hwf : P.WF) (hs : Spread P.layout.blocks)
    (hm : Marked P.layout.blocks) {q : Request} (hq : q.Allowed P.live) :
    (Spread (P.call E.page q).layout.blocks ↔ q.Clean w) ∧
      Marked (P.call E.page q).layout.blocks := by
  -- the argument of a call is determined by its number
  have harg : ∀ {k : Nat} {c : Live}, Live.find P.live k = some c → ∀ s' : State,
      (∀ b ∈ w.live, b.id = k → ¬ PrevFree s' b.ptr) ↔ ¬ PrevFree s' (E.base + c.ptr) := by
    intro k c hc s'
    obtain ⟨hcl, rfl⟩ := Live.find_some hc
    rw [h.live]
    constructor
    · intro hall
      exact hall _ (List.mem_map_of_mem hcl) rfl
    · intro hno b hb hid
      obtain ⟨d, hd, rfl⟩ := List.mem_map.mp hb
      rw [List.inj_on_of_nodup_map hwf.ids hd hcl hid]
      exact hno
  cases q with
  | malloc n =>
    have hms := Layout.malloc_spread hwf.layout hs hm E.page n
    exact ⟨⟨fun _ => trivial, fun _ => hms.1⟩, hms.2⟩
  | free k =>
    obtain ⟨b, hb, hk⟩ := hq
    obtain ⟨c, hc⟩ := Live.find_of_mem hb hk
    obtain ⟨j, hj, _⟩ := hwf.owned c (Live.find_some hc).1
    obtain ⟨hiff, hm'⟩ := h.heap.free_spread_iff hwf.layout hs hm hj
    rw [Plan.call_free hc]
    exact ⟨hiff.trans (harg hc w.heap).symm, hm'⟩
  | realloc k n =>
    obtain ⟨hn, b, hb, hk⟩ := hq
    obtain ⟨c, hc⟩ := Live.find_of_mem hb hk
    obtain ⟨j, hj, _⟩ := hwf.owned c (Live.find_some hc).1
    obtain ⟨s₁, he, hr, _⟩ := h.heap.malloc hwf.layout hn
    have hms := Layout.malloc_spread hwf.layout hs hm E.page n
    have hsome : ∀ o, (P.layout.malloc E.page n).2 = some o → _ := fun o ho =>
      Layout.malloc_some hwf.layout ho
    rw [Plan.call_realloc hc, Layout.realloc]
    cases hL : P.layout.malloc E.page n with
    | mk L₁ r =>
      rw [hL] at he hr hms hsome
      cases r with
      | none =>
        refine ⟨⟨fun _ s' p hsp hp => ?_, fun _ => hms.1⟩, hms.2⟩
        exact absurd (Prod.mk.inj (Option.some.inj (hsp.symm.trans he))).2 hp
      | some o =>
        obtain ⟨_, ht⟩ := hsome o rfl
        obtain ⟨i, _, hsp⟩ := ht.allocated
        obtain ⟨hiff, hm'⟩ := hr.free_spread_iff ht.wf hms.1 hms.2 ((hsp _).mpr (.inr hj))
        have hz : E.ptr (some o) ≠ 0 := by
          have := E.base_pos
          simp only [Env.ptr]
          omega
        refine ⟨hiff.trans ((harg hc s₁).symm.trans ⟨fun hno s' p hs' _ => ?_, fun hcl => ?_⟩), hm'⟩
        · obtain ⟨rfl, _⟩ := Prod.mk.inj (Option.some.inj (he.symm.trans hs'))
          exact hno
        · exact hcl s₁ _ he hz

theorem Plan.initial_spread (page : Size) : Spread (Plan.initial page).layout.blocks ∧
    Marked (Plan.initial page).layout.blocks := by
  simp [Plan.initial, Layout.initial, Spread, Marked]

theorem CleanRun.spread (h : CleanRun E rs w) : Spread (Plan.run E.page rs).layout.blocks ∧
    Marked (Plan.run E.page rs).layout.blocks := by
  induction h with
  | init => exact Plan.initial_spread E.page
  | write _ _ ih => exact ih
  | call h hq hcl _ ih =>
    obtain ⟨hm, hwf⟩ := h.run.matches
    obtain ⟨hs, hmk⟩ := hm.call_spread hwf ih.1 ih.2 (hm.allowed_iff.mp hq)
    rw [Plan.run_append]
    exact ⟨hs.mpr hcl, hmk⟩

/-- The heap is fully coalesced after every step of a clean run, and the next
call leaves it so exactly when that call is clean. -/
theorem fully_coalesced_iff_clean (h : CleanRun E rs w) :
    FullyCoalesced w ∧ ∀ q w', q.Allowed w.live → w.call q = some w' →
      (FullyCoalesced w' ↔ q.Clean w) := by
  obtain ⟨hm, hwf⟩ := h.run.matches
  obtain ⟨hs, hmk⟩ := h.spread
  refine ⟨(hm.fullyCoalesced_iff hwf).mpr hs, fun q w' hq he => ?_⟩
  obtain ⟨hm', hwf'⟩ := (Run.call h.run hq he).matches
  rw [hm'.fullyCoalesced_iff hwf', Plan.run_append]
  exact (hm.call_spread hwf hs hmk (hm.allowed_iff.mp hq)).1

theorem CleanRun.continue (h : CleanRun E rs w) {q : Request}
    (hq : q.Allowed (Plan.run E.page rs).live)
    (hs : Spread (Plan.run E.page (rs ++ [q])).layout.blocks) : ∃ w', CleanRun E (rs ++ [q]) w' := by
  obtain ⟨hm, hwf⟩ := h.run.matches
  obtain ⟨w', he, _⟩ := hm.call hwf (hm.allowed_iff.mpr hq)
  rw [Plan.run_append] at hs
  have hcl := (hm.call_spread hwf h.spread.1 h.spread.2 hq).1.mp hs
  exact ⟨w', .call h (hm.allowed_iff.mpr hq) hcl he⟩

theorem fully_coalesced_iff_clean_small :
    ∃ w, CleanRun Env.small [.malloc 24, .malloc 24, .free 1, .free 0] w ∧ FullyCoalesced w := by
  obtain ⟨s, hs, _⟩ := mmInit_refines Env.small default
  obtain ⟨w₁, h₁⟩ := (CleanRun.init hs).continue (q := .malloc 24) (by decide)
    (by unfold Spread; decide)
  obtain ⟨w₂, h₂⟩ := h₁.continue (q := .malloc 24) (by decide) (by unfold Spread; decide)
  obtain ⟨w₃, h₃⟩ := h₂.continue (q := .free 1) (by decide) (by unfold Spread; decide)
  obtain ⟨w₄, h₄⟩ := h₃.continue (q := .free 0) (by decide) (by unfold Spread; decide)
  exact ⟨w₄, h₄, (fully_coalesced_iff_clean h₄).1⟩

/-- Two blocks freed in the order of their addresses do not merge. -/
theorem not_fully_coalesced :
    ∃ w, Run Env.small [.malloc 24, .malloc 24, .free 0, .free 1] w ∧ ¬ FullyCoalesced w := by
  obtain ⟨w, hw⟩ := exists_run Env.small [.malloc 24, .malloc 24, .free 0, .free 1] (by decide)
  obtain ⟨hm, hwf⟩ := hw.matches
  refine ⟨w, hw, fun hf => ?_⟩
  have hs := (hm.fullyCoalesced_iff hwf).mp hf
  revert hs
  unfold Spread
  decide

end CsoMalloc
