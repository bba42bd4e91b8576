import CsoMalloc.Fitting

/-! `mm_malloc` takes a fitting block off its list twice. The second time the
block is no longer listed, and nothing that is in use notices. -/

namespace CsoMalloc

open ByteMemory Tiling

/-- `mm_malloc` without its second `remove_from_list`. -/
def mmMallocOnce (s : State) (size : Nat) : Option (State × Nat) :=
  if size = 0 then some (s, 0)
  else
    let adjustedSize := adjustBytesize size
    match findFit s adjustedSize with
    | some (bp, _) => do
      let s ← allocate s bp adjustedSize
      return (s, bp)
    | none => do
      let (s, bp) ← extendHeap s (max adjustedSize s.adjustedPagesize)
      if bp = 0 then
        return (s, 0)
      let s ← allocate s bp adjustedSize
      return (s, bp)

/-- The heap `t` has the same lists, the same tags and the same client data as
the one of `w`, whose blocks are `bps`. The headers are those of the prologue,
the blocks and the epilogue. -/
structure Agrees (w : World) (t : State) (bps : List Nat) : Prop where
  walk : heapWalk t = some bps
  heads : t.freeLists = w.heap.freeLists
  headers : ∀ bp ∈ (w.heap.heapStart + dsize) :: bps ++ [w.heap.heapEnd + 1],
    t.getw (State.getBlockhdr bp) = w.heap.getw (State.getBlockhdr bp)
  footers : ∀ bp ∈ bps, w.heap.getThisalloc bp = 0 →
    t.getBlockftr bp = w.heap.getBlockftr bp ∧
      t.getw (w.heap.getBlockftr bp) = w.heap.getw (w.heap.getBlockftr bp)
  links : ∀ bp ∈ bps, w.heap.getThisalloc bp = 0 →
    t.nextFree (State.memheaderFromPayload bp) =
        w.heap.nextFree (State.memheaderFromPayload bp) ∧
      t.prevFree (State.memheaderFromPayload bp) = w.heap.prevFree (State.memheaderFromPayload bp)
  bytes : ∀ b ∈ w.live, ∀ i < b.size, t.mem (b.ptr + i) = w.heap.mem (b.ptr + i)

section Idle

variable {E : Env} {L : Layout} {m m' : Mem}

theorem IdleOnly.symm (h : IdleOnly E L m m') : IdleOnly E L m' m := fun a ha => (h a ha).symm

theorem IdleOnly.getw_eq (h : IdleOnly E L m m') {x : Nat}
    (hx : ∀ p n, (p, n) ∈ spans false 16 L.blocks →
      x + 4 ≤ E.base + p + 8 ∨ E.base + p + n ≤ x + 8) : getw m' x = getw m x := by
  refine getw_congr fun a ha ha' => h a fun p n hp => ?_
  have := hx p n hp
  omega

theorem IdleOnly.header (h : IdleOnly E L m m') {o : Nat} {b : Block}
    (hb : (o, b) ∈ placed Block.size 16 L.blocks) :
    getw m' (E.base + o - 4) = getw m (E.base + o - 4) := by
  have := (placed_bounds hb).1
  refine h.getw_eq fun p n hp => ?_
  rcases spans_separated (mem_spans.mpr ⟨b, hb, rfl, rfl⟩) hp with he | he | he <;> omega

theorem IdleOnly.free_words (h : IdleOnly E L m m') {o k : Nat}
    (ho : (o, k) ∈ spans false 16 L.blocks) {x : Nat}
    (hx : x = E.base + o ∨ x = E.base + o + 4 ∨ x = E.base + o + k - 8) :
    getw m' x = getw m x := by
  have := (spans_bounds ho).2.2
  refine h.getw_eq fun p n hp => ?_
  have := (spans_bounds hp).2.2
  rcases spans_separated ho hp with he | he | he <;> omega

end Idle

variable {E : Env} {rs : List Request} {w : World} {n : Nat}

theorem Matches.agrees {P : Plan} {m : Mem} (h : Matches E w P) (hwf : P.WF)
    (hm : IdleOnly E P.layout w.heap.mem m) :
    Agrees w { w.heap with mem := m } (E.addresses P.layout) := by
  have hr := h.heap.of_idle hwf.layout hm
  have hfit := hwf.layout.fits
  have hge := hwf.layout.heapsize_ge
  have := E.base_high
  have := maxHeap_eq
  have hend := h.heap.heapEnd
  -- a free block of the walk
  have hspan : ∀ bp ∈ E.addresses P.layout, w.heap.getThisalloc bp = 0 → ∃ o b,
      bp = E.base + o ∧ (o, b.size) ∈ spans false 16 P.layout.blocks ∧
        (o, b) ∈ placed Block.size 16 P.layout.blocks := by
    intro bp hbp h0
    obtain ⟨o, b, rfl, hb⟩ := Env.mem_addresses.mp hbp
    rw [(h.heap.reads hwf.layout (placed_shift.mpr hb)).alloc] at h0
    exact ⟨o, b, rfl, mem_spans.mpr ⟨b, hb, by cases ha : b.alloc <;> simp_all, rfl⟩, hb⟩
  refine ⟨hr.heapWalk_eq hwf.layout, rfl, fun bp hbp => ?_, fun bp hbp h0 => ?_, fun bp hbp h0 => ?_,
    fun b hb => h.frame hwf hb fun p j hp _ => hm.keeps p j hp⟩
  · rw [List.cons_append, List.mem_cons, List.mem_append, List.mem_singleton] at hbp
    rcases hbp with rfl | hbp | rfl
    · rw [h.heap.heapStart, getBlockhdr_eq (by simp [dsize]) (by simp only [dsize]; omega)]
      refine hm.getw_eq fun p n hp => ?_
      have := (spans_bounds hp).1
      simp only [dsize]
      omega
    · obtain ⟨o, b, rfl, hb⟩ := Env.mem_addresses.mp hbp
      have hbd := placed_bounds hb
      simp only [Layout.heapsize] at hfit
      rw [getBlockhdr_eq (by omega) (by omega)]
      exact hm.header hb
    · rw [getBlockhdr_eq (by omega) (by omega)]
      refine hm.getw_eq fun p n hp => ?_
      have hb : 16 ≤ p ∧ p + n ≤ P.layout.heapsize ∧ 16 ≤ n := spans_bounds hp
      omega
  · obtain ⟨o, b, rfl, ho, hb⟩ := hspan bp hbp h0
    rw [(h.heap.reads hwf.layout (placed_shift.mpr hb)).ftr,
      (hr.reads hwf.layout (placed_shift.mpr hb)).ftr]
    exact ⟨rfl, hm.free_words ho (.inr (.inr rfl))⟩
  · obtain ⟨o, b, rfl, ho, hb⟩ := hspan bp hbp h0
    have hbd : 16 ≤ o ∧ o + b.size ≤ P.layout.heapsize ∧ 16 ≤ b.size := spans_bounds ho
    have hroom : E.base + o + 8 ≤ 2 ^ 32 := by omega
    rw [nextFree_eq hroom, nextFree_eq hroom, prevFree_eq hroom, prevFree_eq hroom]
    exact ⟨hm.free_words ho (.inl rfl), hm.free_words ho (.inr (.inl rfl))⟩

/-- What the two versions do with a request that a list head can serve. -/
theorem Refines.malloc_once {s : State} {L : Layout} (h : Refines E s L) (hwf : L.WF)
    (hpos : 0 < n) (hn : n ≤ maxHeap) (hf : findFit s (adjustBytesize n) ≠ none) :
    ∃ s₁ m o, mmMalloc s n = some ({ s₁ with mem := m }, E.base + o) ∧
      mmMallocOnce s n = some (s₁, E.base + o) ∧
      Refines E s₁ (L.malloc E.page n).1 ∧ IdleOnly E (L.malloc E.page n).1 s₁.mem m := by
  have := maxHeap_eq
  have ha : adjustBytesize n = fitSize n := adjustBytesize_eq (by omega)
  have hfe := h.image.findFit_eq hwf (fitSize n)
  rw [ha] at hf
  cases ho : L.findFit (fitSize n) with
  | none => exact absurd (by simpa [ho] using hfe) hf
  | some o =>
    obtain ⟨f, hfo, hL, hoff, hfree, haf⟩ := hwf.findFit_some ho
    obtain ⟨⟨bp, i⟩, hfs, hbp⟩ : ∃ r, findFit s (fitSize n) = some r ∧ r.1 = E.base + o := by
      simpa [ho] using hfe
    obtain rfl : bp = E.base + o := hbp
    obtain ⟨s₁, m, he, hr, _, he', hidle⟩ := h.malloc_fit hwf hfs hL hoff hfree haf
    have ht : (L.malloc E.page n).1 = f.place (fitSize n) := by
      simp [Layout.malloc, Layout.take, ho, hfo, hpos.ne']
    rw [ht]
    refine ⟨s₁, m, o, ?_, ?_, hr, hidle⟩
    · simp only [mmMalloc, if_neg hpos.ne', ha, hfs, he, Option.bind_eq_bind, Option.bind_some, he']
      rfl
    · simp only [mmMallocOnce, if_neg hpos.ne', ha, hfs, he, Option.bind_eq_bind, Option.bind_some]
      rfl

/-- The second `remove_from_list` of `mm_malloc` changes neither the result, nor
the lists, nor a tag, nor a byte of a live block. -/
theorem second_unlink_harmless (h : Run E rs w) (hpos : 0 < n) (hn : n ≤ maxHeap)
    (hf : findFit w.heap (adjustBytesize n) ≠ none) :
    ∃ w' t p bps, w.call (.malloc n) = some w' ∧ mmMalloc w.heap n = some (w'.heap, p) ∧
      mmMallocOnce w.heap n = some (t, p) ∧ heapWalk w'.heap = some bps ∧ Agrees w' t bps := by
  obtain ⟨hm, hwf⟩ := h.matches
  obtain ⟨s₁, m, o, he, honce, _, hidle⟩ := hm.heap.malloc_once hwf.layout hpos hn hf
  obtain ⟨w', hw', hm', _⟩ := hm.malloc hwf hn
  obtain ⟨s, p, hs, hheap, _⟩ := World.call_malloc_inv hw'
  obtain ⟨rfl, rfl⟩ := Prod.mk.inj (Option.some.inj (he.symm.trans hs))
  have hwf' : ((Plan.run E.page rs).call E.page (.malloc n)).WF := Plan.malloc_wf hwf n
  have hagree := hm'.agrees hwf' (m := s₁.mem) (by
    rw [hheap, Plan.call_malloc]
    exact hidle.symm)
  rw [hheap] at hagree
  exact ⟨w', s₁, E.base + o, _, hw', hheap ▸ he, honce, hm'.heap.heapWalk_eq hwf'.layout, hagree⟩

theorem second_unlink_harmless_small :
    ∃ w w' t p bps, Run Env.small [.malloc 24, .malloc 24, .malloc 4000, .free 0] w ∧
      mmMalloc w.heap 24 = some (w'.heap, p) ∧ mmMallocOnce w.heap 24 = some (t, p) ∧
      Agrees w' t bps := by
  obtain ⟨w, hw⟩ := exists_run Env.small [.malloc 24, .malloc 24, .malloc 4000, .free 0] (by decide)
  obtain ⟨hm, hwf⟩ := hw.matches
  have hf : findFit w.heap (adjustBytesize 24) ≠ none := by
    intro hnone
    have hfe := hm.heap.image.findFit_eq hwf.layout (adjustBytesize 24)
    rw [hnone] at hfe
    revert hfe
    decide
  obtain ⟨w', t, p, bps, _, he, honce, _, hagree⟩ :=
    second_unlink_harmless hw (by decide) (by decide) hf
  exact ⟨w, w', t, p, bps, hw, he, honce, hagree⟩

end CsoMalloc
