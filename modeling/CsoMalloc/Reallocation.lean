import CsoMalloc.Contract

/-! `mm_realloc` and failing requests, seen by the client: what is copied from
where to where, and that a call that returns `NULL` has done nothing. -/

namespace CsoMalloc

open ByteMemory Tiling

/-- The number of bytes that `mm_realloc` copies, read after its inner
`mm_malloc`. -/
def copySize (s : State) (ptr size : Nat) : Nat :=
  if size < s.getThissize ptr then size else s.getThissize ptr

theorem copySize_eq_min (s : State) (ptr size : Nat) :
    copySize s ptr size = min size (s.getThissize ptr) := by
  rw [copySize]
  split <;> omega

section Calls

variable {E : Env} {rs : List Request} {w : World} {s : State} {b : Live} {n q : Nat}

theorem Run.malloc_taken (h : Run E rs w) (hn : n ≤ maxHeap)
    (he : mmMalloc w.heap n = some (s, q)) (hq : q ≠ 0) :
    ∃ L o, q = E.base + o ∧ Refines E s L ∧
      Layout.Taken (Plan.run E.page rs).layout L o (fitSize n) ∧
      (∀ k, (o, k) ∈ spans true 16 L.blocks → k = fitSize n ∨ k = fitSize n + 8) := by
  obtain ⟨hm, hwf⟩ := h.matches
  obtain ⟨t, ht, hr, _⟩ := hm.heap.malloc hwf.layout hn
  obtain ⟨rfl, rfl⟩ := Prod.mk.inj (Option.some.inj (he.symm.trans ht))
  cases ho : ((Plan.run E.page rs).layout.malloc E.page n).2 with
  | none => simp [ho, Env.ptr] at hq
  | some o =>
    exact ⟨_, o, rfl, hr, (Layout.malloc_some hwf.layout ho).2,
      fun k hk => Layout.malloc_size hwf.layout ho hk⟩

theorem Run.malloc_null (h : Run E rs w) (hn : n ≤ maxHeap)
    (he : mmMalloc w.heap n = some (s, 0)) : s = w.heap := by
  obtain ⟨hm, hwf⟩ := h.matches
  obtain ⟨t, ht, _⟩ := hm.heap.malloc hwf.layout hn
  have hp := (Prod.mk.inj (Option.some.inj (he.symm.trans ht))).2
  cases ho : ((Plan.run E.page rs).layout.malloc E.page n).2 with
  | none =>
    have hsame := hm.heap.malloc_null hwf.layout hn ho
    exact (Prod.mk.inj (Option.some.inj (he.symm.trans hsame))).1
  | some o =>
    have := E.base_pos
    simp only [ho, Env.ptr] at hp
    omega

theorem mmRealloc_inv {ptr : Nat} (h : mmRealloc w.heap ptr n = some (s, q)) :
    ∃ t, mmMalloc w.heap n = some (t, q) ∧ (q = 0 → s = t) := by
  obtain ⟨⟨t, p⟩, ht, hs⟩ := Option.bind_eq_some_iff.mp h
  dsimp only at hs
  by_cases hp : p = 0
  · rw [if_pos hp] at hs
    obtain ⟨rfl, rfl⟩ := Prod.mk.inj (Option.some.inj hs)
    exact ⟨t, hp ▸ ht, fun _ => rfl⟩
  · rw [if_neg hp] at hs
    obtain ⟨u, _, hs⟩ := Option.bind_eq_some_iff.mp hs
    obtain ⟨rfl, rfl⟩ := Prod.mk.inj (Option.some.inj hs)
    exact ⟨t, ht, fun h0 => absurd h0 hp⟩

theorem Run.mem_live (h : Run E rs w) {c : Live} (hc : c ∈ (Plan.run E.page rs).live) :
    Live.shift E.base c ∈ w.live := by
  rw [h.matches.1.live]
  exact List.mem_map_of_mem hc

/-- A call that returns `NULL` leaves the whole state as it was. -/
theorem failure_is_atomic (h : Run E rs w) (hn : n ≤ maxHeap) :
    (∀ s, mmMalloc w.heap n = some (s, 0) → s = w.heap) ∧
      ∀ b ∈ w.live, ∀ s, mmRealloc w.heap b.ptr n = some (s, 0) → s = w.heap := by
  refine ⟨fun s he => h.malloc_null hn he, fun b _ s he => ?_⟩
  obtain ⟨t, ht, hs⟩ := mmRealloc_inv he
  rw [hs rfl]
  exact h.malloc_null hn ht

theorem failure_is_atomic_small :
    ∃ w b s t, Run Env.small [.malloc 24, .malloc 20000000] w ∧ b ∈ w.live ∧
      mmMalloc w.heap 1000000 = some (s, 0) ∧ s = w.heap ∧
      mmRealloc w.heap b.ptr 1000000 = some (t, 0) ∧ t = w.heap := by
  obtain ⟨w, hw⟩ := exists_run Env.small [.malloc 24, .malloc 20000000] (by decide)
  have hb := hw.mem_live (c := ⟨0, 16, 24⟩) (by decide)
  obtain ⟨hm, hwf⟩ := hw.matches
  obtain ⟨o, k, ho, hk, _⟩ := hm.live_span hwf hb
  obtain rfl : o = 16 := (Nat.add_left_cancel ho).symm
  obtain ⟨s, he, _⟩ := hm.heap.malloc hwf.layout (n := 1000000) (by decide)
  obtain ⟨t, he', _⟩ := hm.heap.realloc hwf.layout hk (n := 1000000) (by decide)
  have hnull : Env.small.ptr ((Plan.run Env.small.page [.malloc 24, .malloc 20000000]).layout.malloc
      Env.small.page 1000000).2 = 0 := by decide
  have hnull' : Env.small.ptr ((Plan.run Env.small.page
      [.malloc 24, .malloc 20000000]).layout.realloc Env.small.page 16 1000000).2 = 0 := by decide
  rw [hnull] at he
  rw [hnull'] at he'
  obtain ⟨hmalloc, hrealloc⟩ := failure_is_atomic hw (n := 1000000) (by decide)
  exact ⟨w, _, s, t, hw, hb, he, hmalloc s he, he', hrealloc _ hb t he'⟩

/-- The block passed to `mm_realloc` keeps its place and size through the inner
`mm_malloc`, away from the new block. -/
theorem Run.realloc_blocks (h : Run E rs w) (hb : b ∈ w.live) (hn : n ≤ maxHeap)
    (he : mmMalloc w.heap n = some (s, q)) (hq : q ≠ 0) :
    s.getThissize b.ptr = w.heap.getThissize b.ptr ∧
      b.size + wsize ≤ w.heap.getThissize b.ptr ∧ n + wsize ≤ s.getThissize q ∧
      (b.ptr + s.getThissize b.ptr ≤ q ∨ q + s.getThissize q ≤ b.ptr) := by
  obtain ⟨hm, hwf⟩ := h.matches
  obtain ⟨o, k, ho, hk, hs, _⟩ := hm.live_span hwf hb
  obtain ⟨L, p, rfl, hr, ht, _⟩ := h.malloc_taken hn he hq
  obtain ⟨j, hj, hmem⟩ := ht.allocated
  have hk' : (o, k) ∈ spans true 16 L.blocks := (hmem _).mpr (.inr hk)
  have hp : (p, j) ∈ spans true 16 L.blocks := (hmem _).mpr (.inl rfl)
  have hfit := fitSize_ge n
  rw [ho, hm.heap.image.size_eq hwf.layout hk, hr.image.size_eq ht.wf hk',
    hr.image.size_eq ht.wf hp]
  refine ⟨rfl, hs, by simp only [wsize]; omega, ?_⟩
  rcases spans_separated hk' hp with hx | hx | hx
  · exact absurd hk (hx.1 ▸ ht.fresh k)
  · exact .inl (by omega)
  · exact .inr (by omega)

/-- `mm_realloc` moves the data: the new block starts with the bytes of the old
one, the copy stays inside the new payload and away from its source, the old
pointer is no longer live and no other block changes. -/
theorem realloc_preserves_data (h : Run E rs w) (hb : b ∈ w.live) (hn : n ≤ maxHeap)
    (he : mmRealloc w.heap b.ptr n = some (s, q)) (hq : q ≠ 0) :
    (∀ i < min b.size n, s.mem (q + i) = w.heap.mem (b.ptr + i)) ∧
    (∃ t, mmMalloc w.heap n = some (t, q) ∧
      q + copySize t b.ptr n ≤ q + t.getThissize q - wsize ∧
      Clear b.ptr (copySize t b.ptr n) q (copySize t b.ptr n)) ∧
    (∃ w', w.call (.realloc b.id n) = some w' ∧ w'.heap = s ∧ b.ptr ∉ w'.live.map Live.ptr) ∧
    ∀ c ∈ w.live, c ≠ b → ∀ i < c.size, s.mem (c.ptr + i) = w.heap.mem (c.ptr + i) := by
  obtain ⟨t, ht, _⟩ := mmRealloc_inv he
  obtain ⟨hm, hwf⟩ := h.matches
  obtain ⟨hsame, hbs, hnew, hsep⟩ := h.realloc_blocks hb hn ht hq
  obtain ⟨w', hw', _, _, hframe⟩ := h.step (q := .realloc b.id n) ⟨hn, b, hb, rfl⟩
  obtain ⟨u, p, hu, hheap, hlive⟩ := World.call_realloc_inv (hm.find_live hwf hb) hw'
  obtain ⟨rfl, rfl⟩ := Prod.mk.inj (Option.some.inj (he.symm.trans hu))
  refine ⟨fun i hi => ?_, ⟨t, ht, ?_, ?_⟩, ⟨w', hw', hheap, ?_⟩, fun c hc hne => ?_⟩
  · exact h.realloc_copies hb hn he hq i (by omega) (by omega)
  · rw [copySize_eq_min]
    omega
  · rw [copySize_eq_min, Clear]
    simp only [wsize] at hnew
    omega
  · rw [hlive hq, List.map_cons, List.mem_cons, not_or]
    constructor
    · show b.ptr ≠ q
      simp only [wsize] at hnew hbs
      omega
    · intro hmem
      obtain ⟨c, hc, hptr⟩ := List.mem_map.mp hmem
      obtain ⟨hcl, hid⟩ := Live.mem_drop.mp hc
      exact hid (by rw [List.inj_on_of_nodup_map (hm.ptrs_nodup hwf) hcl hb hptr])
  · rw [← hheap]
    refine hframe c hc fun hid => hne ?_
    exact List.inj_on_of_nodup_map (hm.ids_nodup hwf) hc hb (Option.some.inj hid).symm

/-- What `mm_realloc` reads stays inside the old payload exactly when the new
size does: the size field it takes for the length counts the header too. -/
theorem realloc_source_iff (h : Run E rs w) (hb : b ∈ w.live) (hn : n ≤ maxHeap)
    (he : mmMalloc w.heap n = some (s, q)) (hq : q ≠ 0) :
    Set.Ico b.ptr (b.ptr + copySize s b.ptr n) ⊆
        Set.Ico b.ptr (b.ptr + w.heap.getThissize b.ptr - wsize) ↔
      n + wsize ≤ w.heap.getThissize b.ptr := by
  obtain ⟨hsame, hbs, _, _⟩ := h.realloc_blocks hb hn he hq
  have hpos : 0 < n := by
    rcases Nat.eq_zero_or_pos n with rfl | hpos
    · exact absurd (Prod.mk.inj (Option.some.inj he)).2.symm hq
    · exact hpos
  rw [copySize_eq_min, hsame]
  simp only [wsize] at hbs ⊢
  rw [Set.Ico_subset_Ico_iff (by omega)]
  omega

theorem Run.exists_malloc (h : Run E rs w) (hn : n ≤ maxHeap) {o : Nat}
    (ho : ((Plan.run E.page rs).layout.malloc E.page n).2 = some o) :
    ∃ s, mmMalloc w.heap n = some (s, E.base + o) := by
  obtain ⟨hm, hwf⟩ := h.matches
  obtain ⟨s, he, _⟩ := hm.heap.malloc hwf.layout hn
  rw [ho] at he
  exact ⟨s, he⟩

theorem realloc_preserves_data_small :
    ∃ w b s q, Run Env.small [.malloc 24, .malloc 100] w ∧ b ∈ w.live ∧
      mmRealloc w.heap b.ptr 40 = some (s, q) ∧ q ≠ 0 ∧
      ∀ i < 24, s.mem (q + i) = w.heap.mem (b.ptr + i) := by
  obtain ⟨w, hw⟩ := exists_run Env.small [.malloc 24, .malloc 100] (by decide)
  have hb := hw.mem_live (c := ⟨0, 16, 24⟩) (by decide)
  obtain ⟨hm, hwf⟩ := hw.matches
  obtain ⟨o, k, ho, hk, _⟩ := hm.live_span hwf hb
  obtain rfl : o = 16 := (Nat.add_left_cancel ho).symm
  obtain ⟨s, he, _⟩ := hm.heap.realloc hwf.layout hk (n := 40) (by decide)
  have hq : Env.small.ptr ((Plan.run Env.small.page [.malloc 24, .malloc 100]).layout.realloc
      Env.small.page 16 40).2 ≠ 0 := by decide
  exact ⟨w, _, s, _, hw, hb, he, hq, (realloc_preserves_data hw hb (by decide) he hq).1⟩

theorem realloc_source_iff_small :
    ∃ w b s q, Run Env.small [.malloc 24] w ∧ b ∈ w.live ∧ mmMalloc w.heap 8 = some (s, q) ∧
      q ≠ 0 ∧ Set.Ico b.ptr (b.ptr + copySize s b.ptr 8) ⊆
        Set.Ico b.ptr (b.ptr + w.heap.getThissize b.ptr - wsize) := by
  obtain ⟨w, hw⟩ := exists_run Env.small [.malloc 24] (by decide)
  have hb := hw.mem_live (c := ⟨0, 16, 24⟩) (by decide)
  obtain ⟨s, he⟩ := hw.exists_malloc (n := 8) (by decide) (o := 48) (by decide)
  obtain ⟨hm, hwf⟩ := hw.matches
  refine ⟨w, _, s, _, hw, hb, he, by decide, (realloc_source_iff hw hb (by decide) he ?_).mpr ?_⟩
  · decide
  · have hown := (hw.realloc_blocks hb (by decide) he (by decide)).2.1
    exact Nat.le_trans (by decide) hown

/-- A block of 16 bytes is copied with the header behind it. -/
theorem realloc_reads_next_header :
    ∃ w b s q, Run Env.small [.malloc 12] w ∧ b ∈ w.live ∧ mmMalloc w.heap 24 = some (s, q) ∧
      q ≠ 0 ∧ ¬ Set.Ico b.ptr (b.ptr + copySize s b.ptr 24) ⊆
        Set.Ico b.ptr (b.ptr + w.heap.getThissize b.ptr - wsize) := by
  obtain ⟨w, hw⟩ := exists_run Env.small [.malloc 12] (by decide)
  have hb := hw.mem_live (c := ⟨0, 16, 12⟩) (by decide)
  obtain ⟨s, he⟩ := hw.exists_malloc (n := 24) (by decide) (o := 32) (by decide)
  obtain ⟨hm, hwf⟩ := hw.matches
  have hsize : w.heap.getThissize (Env.small.base + 16) = 16 :=
    hm.heap.image.size_eq hwf.layout (a := true) (by decide)
  have hsame := (hw.realloc_blocks hb (by decide) he (by decide)).1
  refine ⟨w, _, s, _, hw, hb, he, by decide, fun hsub => ?_⟩
  have hptr : (Live.shift Env.small.base ⟨0, 16, 12⟩).ptr = Env.small.base + 16 := rfl
  rw [copySize_eq_min, hsame, hptr, hsize] at hsub
  have hlast := hsub (show Env.small.base + 31 ∈ Set.Ico (Env.small.base + 16) _ from
    ⟨by omega, by omega⟩)
  have := hlast.2
  simp only [wsize] at this
  omega

end Calls

end CsoMalloc
