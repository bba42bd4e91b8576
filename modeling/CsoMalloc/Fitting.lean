import CsoMalloc.Reallocation

/-! What `find_fit` finds. Only the heads of the lists are looked at, and above
the class of the request every head is large enough. -/

namespace CsoMalloc

open ByteMemory Tiling LinkedSequence

section Classes

theorem calcListIndexLoop_ge (size bits left : Nat) : bits ≤ calcListIndexLoop size bits left := by
  induction left generalizing bits with
  | zero => exact le_rfl
  | succ left ih =>
    rw [calcListIndexLoop]
    split
    · exact (Nat.le_succ bits).trans (ih (bits + 1))
    · exact le_rfl

theorem calcListIndexLoop_mono {a b : Nat} (h : a ≤ b) (bits left : Nat) :
    calcListIndexLoop a bits left ≤ calcListIndexLoop b bits left := by
  induction left generalizing bits with
  | zero => exact le_rfl
  | succ left ih =>
    rw [calcListIndexLoop]
    split
    · next ha =>
      have hb : b >>> bits > 1 := by
        simp only [Nat.shiftRight_eq_div_pow] at ha ⊢
        exact ha.trans_le (Nat.div_le_div_right h)
      rw [calcListIndexLoop, if_pos hb]
      exact ih (bits + 1)
    · exact calcListIndexLoop_ge b bits (left + 1)

theorem calcListIndex_mono {a b : Nat} (h : a ≤ b) : calcListIndex a ≤ calcListIndex b :=
  calcListIndexLoop_mono h 0 (freelistCount - 1)

theorem lt_of_calcListIndex_lt {a b : Nat} (h : calcListIndex a < calcListIndex b) : a < b := by
  by_contra hle
  exact absurd (calcListIndex_mono (Nat.not_lt.mp hle)) (Fin.not_le.mpr h)

end Classes

section Search

variable {s : State} {a : Nat}

theorem mem_drop_finRange {n : Nat} {m i : Fin n} : i ∈ (List.finRange n).drop m ↔ m ≤ i := by
  rw [List.mem_drop_iff_getElem]
  simp only [List.getElem_finRange, List.length_finRange, Fin.le_def]
  constructor
  · rintro ⟨j, hj, rfl⟩
    simp
  · intro h
    exact ⟨i - m, by omega, Fin.ext (by simp only [Fin.val_cast]; omega)⟩

/-- The head of list `i` is there and large enough. -/
def Fits (s : State) (a : Nat) (i : Fin freelistCount) : Prop :=
  s.freeLists i ≠ 0 ∧ s.getThissize (s.freeLists i) ≥ a

instance (i : Fin freelistCount) : Decidable (Fits s a i) := inferInstanceAs (Decidable (_ ∧ _))

theorem findFit_eq_findSome : findFit s a =
    ((List.finRange freelistCount).drop (calcListIndex a)).findSome? fun i =>
      if Fits s a i then some (s.freeLists i, i) else none := rfl

theorem findFit_none_iff : findFit s a = none ↔ ∀ i, calcListIndex a ≤ i → ¬ Fits s a i := by
  rw [findFit_eq_findSome, List.findSome?_eq_none_iff]
  constructor
  · intro h i hi hf
    have hn := h i (mem_drop_finRange.mpr hi)
    rw [if_pos hf] at hn
    exact absurd hn (by simp)
  · intro h i hi
    exact if_neg (h i (mem_drop_finRange.mp hi))

theorem findFit_some {bp : Nat} {i : Fin freelistCount} (h : findFit s a = some (bp, i)) :
    bp = s.freeLists i ∧ Fits s a i ∧ calcListIndex a ≤ i ∧
      ∀ j, calcListIndex a ≤ j → j < i → ¬ Fits s a j := by
  rw [findFit_eq_findSome] at h
  obtain ⟨l, k, r, hl, hk, hbefore⟩ := List.findSome?_eq_some_iff.mp h
  by_cases hf : Fits s a k
  · rw [if_pos hf] at hk
    obtain ⟨rfl, rfl⟩ := Prod.mk.inj (Option.some.inj hk)
    refine ⟨rfl, hf, mem_drop_finRange.mp (by rw [hl]; simp), fun j hj hjk hfit => ?_⟩
    have hsorted := ((List.sortedLT_finRange freelistCount).pairwise).sublist
      (List.drop_sublist (calcListIndex a) _)
    have hmem := mem_drop_finRange.mpr hj
    rw [hl] at hmem hsorted
    rcases List.mem_append.mp hmem with hmem | hmem
    · have hn := hbefore j hmem
      rw [if_pos hfit] at hn
      exact absurd hn (by simp)
    · rcases List.mem_cons.mp hmem with rfl | hmem
      · exact absurd hjk (lt_irrefl _)
      · have hlt := (List.pairwise_cons.mp (List.pairwise_append.mp hsorted).2.1).1 j hmem
        exact absurd (hjk.trans hlt) (lt_irrefl _)
  · rw [if_neg hf] at hk
    exact absurd hk (by simp)

end Search

section Runs

variable {E : Env} {rs : List Request} {w : World} {s : State} {a n p : Nat}

theorem FreeListInvariant.head {bps : List Nat} {xs : Fin freelistCount → List Nat}
    (h : FreeListInvariant s bps xs) {i : Fin freelistCount} (hi : s.freeLists i ≠ 0) :
    s.freeLists i ∈ bps ∧ s.getThisalloc (s.freeLists i) = 0 ∧
      calcListIndex (s.getThissize (s.freeLists i)) = i :=
  (h.members i _).mp ((h.linked i).head_mem hi)

theorem FreeListInvariant.fits_above {bps : List Nat} {xs : Fin freelistCount → List Nat}
    (h : FreeListInvariant s bps xs) {i : Fin freelistCount} (hi : calcListIndex a < i) :
    s.freeLists i ≠ 0 → Fits s a i := by
  intro hne
  obtain ⟨_, _, hc⟩ := h.head hne
  exact ⟨hne, (lt_of_calcListIndex_lt (hc.symm ▸ hi)).le⟩

/-- `find_fit` fails exactly when all lists above the class of the request are
empty and the list of the class has no head or one that is too small. Otherwise
it returns a fitting free block that is the head of its list, and no list
between is in use. -/
theorem find_fit_exact (h : Run E rs w) (a : Nat) :
    ∃ bps, heapWalk w.heap = some bps ∧
    (findFit w.heap a = none ↔ (∀ j, calcListIndex a < j → w.heap.freeLists j = 0) ∧
      (w.heap.freeLists (calcListIndex a) = 0 ∨
        w.heap.getThissize (w.heap.freeLists (calcListIndex a)) < a)) ∧
    (∀ bp i, findFit w.heap a = some (bp, i) →
      bp ∈ bps ∧ w.heap.getThisalloc bp = 0 ∧ a ≤ w.heap.getThissize bp ∧
      bp = w.heap.freeLists i ∧ i = calcListIndex (w.heap.getThissize bp) ∧ calcListIndex a ≤ i ∧
      ∀ j, calcListIndex a < j → j < i → w.heap.freeLists j = 0) ∧
    ∀ j, calcListIndex a < j → w.heap.freeLists j ≠ 0 →
      a ≤ w.heap.getThissize (w.heap.freeLists j) := by
  obtain ⟨hm, hwf⟩ := h.matches
  have hlists := hm.heap.freeLists hwf.layout
  refine ⟨_, hm.heap.heapWalk_eq hwf.layout, ?_, fun bp i hf => ?_, fun j hj hne => ?_⟩
  · rw [findFit_none_iff]
    constructor
    · intro hnone
      refine ⟨fun j hj => ?_, ?_⟩
      · by_contra hne
        exact hnone j hj.le (hlists.fits_above hj hne)
      · have := hnone _ le_rfl
        simp only [Fits, not_and] at this
        by_cases h0 : w.heap.freeLists (calcListIndex a) = 0
        · exact .inl h0
        · exact .inr (Nat.not_le.mp (this h0))
    · rintro ⟨habove, hhead⟩ i hi ⟨hne, hsize⟩
      rcases hi.lt_or_eq with hlt | rfl
      · exact hne (habove i hlt)
      · rcases hhead with h0 | hlt
        · exact hne h0
        · omega
  · obtain ⟨rfl, hfit, hle, hbefore⟩ := findFit_some hf
    obtain ⟨hmem, hfree, hc⟩ := hlists.head hfit.1
    refine ⟨hmem, hfree, hfit.2, rfl, hc.symm, hle, fun j hj hji => ?_⟩
    by_contra hne
    exact hbefore j hj.le hji (hlists.fits_above hj hne)
  · exact (hlists.fits_above hj hne).2

theorem find_fit_exact_small :
    ∃ w bps bp i, Run Env.small [.malloc 24, .malloc 4000, .free 0] w ∧
      heapWalk w.heap = some bps ∧ findFit w.heap 32 = some (bp, i) ∧ bp = Env.small.base + 16 ∧
      bp ∈ bps ∧ w.heap.getThisalloc bp = 0 ∧ 32 ≤ w.heap.getThissize bp ∧
      bp = w.heap.freeLists i := by
  obtain ⟨w, hw⟩ := exists_run Env.small [.malloc 24, .malloc 4000, .free 0] (by decide)
  obtain ⟨hm, hwf⟩ := hw.matches
  have hfe := hm.heap.image.findFit_eq hwf.layout 32
  have hoff : (Plan.run Env.small.page [.malloc 24, .malloc 4000, .free 0]).layout.findFit 32 =
      some 16 := by decide
  rw [hoff] at hfe
  obtain ⟨⟨bp, i⟩, hf, hbp⟩ := Option.map_eq_some_iff.mp hfe
  obtain ⟨bps, hwalk, _, hsome, _⟩ := find_fit_exact hw 32
  obtain ⟨hmem, hfree, hsize, hhead, _⟩ := hsome bp i hf
  exact ⟨w, bps, bp, i, hw, hwalk, hf, hbp, hmem, hfree, hsize, hhead⟩

theorem Run.fit_keeps_break (h : Run E rs w) (hpos : 0 < n) (hn : n ≤ maxHeap)
    (he : mmMalloc w.heap n = some (s, p)) (hf : findFit w.heap (adjustBytesize n) ≠ none) :
    s.memBrk = w.heap.memBrk ∧ p ≠ 0 := by
  obtain ⟨hm, hwf⟩ := h.matches
  have := E.base_pos
  have := maxHeap_eq
  obtain ⟨t, ht, hr, _⟩ := hm.heap.malloc hwf.layout hn
  obtain ⟨rfl, rfl⟩ := Prod.mk.inj (Option.some.inj (he.symm.trans ht))
  have hfe := hm.heap.image.findFit_eq hwf.layout (adjustBytesize n)
  rw [adjustBytesize_eq (by omega)] at hf hfe
  cases ho : (Plan.run E.page rs).layout.findFit (fitSize n) with
  | none =>
    rw [ho] at hfe
    exact absurd (by simpa using hfe) hf
  | some o =>
    obtain ⟨f, hfo, hL, _, hfree, ha⟩ := hwf.layout.findFit_some ho
    have htake : (Plan.run E.page rs).layout.malloc E.page n = (f.place (fitSize n), some o) := by
      simp [Layout.malloc, Layout.take, ho, hfo, hpos.ne']
    rw [htake] at hr ⊢
    refine ⟨?_, by simp only [Env.ptr]; omega⟩
    rw [hr.brk, hm.heap.brk, (Focus.place_allocated (hL ▸ hwf.layout) hfree ha).2, hL]

/-- `mm_malloc` extends the heap or fails only when the heads of all lists from
the class of the request on are missing or too small. A free block that would
do then stands behind the head of its list. -/
theorem growth_only_past_heads (h : Run E rs w) (hpos : 0 < n) (hn : n ≤ maxHeap)
    (he : mmMalloc w.heap n = some (s, p)) (hg : s.memBrk ≠ w.heap.memBrk ∨ p = 0) :
    ∃ bps, heapWalk w.heap = some bps ∧ ∀ bp ∈ bps, w.heap.getThisalloc bp = 0 →
      adjustBytesize n ≤ w.heap.getThissize bp →
      calcListIndex (w.heap.getThissize bp) = calcListIndex (adjustBytesize n) ∧
      bp ≠ w.heap.freeLists (calcListIndex (adjustBytesize n)) ∧
      w.heap.getThissize (w.heap.freeLists (calcListIndex (adjustBytesize n))) <
        adjustBytesize n := by
  obtain ⟨hm, hwf⟩ := h.matches
  have hlists := hm.heap.freeLists hwf.layout
  have hnone : ∀ i, calcListIndex (adjustBytesize n) ≤ i → ¬ Fits w.heap (adjustBytesize n) i := by
    rw [← findFit_none_iff]
    by_contra hf
    have hkeep := h.fit_keeps_break hpos hn he hf
    rcases hg with hg | hg
    · exact hg hkeep.1
    · exact hkeep.2 hg
  refine ⟨_, hm.heap.heapWalk_eq hwf.layout, fun bp hbp hfree hsize => ?_⟩
  have hmem := (hlists.members _ bp).mpr ⟨hbp, hfree, rfl⟩
  have hne := (hlists.linked _).head_ne hmem
  have hclass : calcListIndex (w.heap.getThissize bp) = calcListIndex (adjustBytesize n) := by
    refine le_antisymm (not_lt.mp fun hlt => ?_) (calcListIndex_mono hsize)
    exact hnone _ hlt.le (hlists.fits_above hlt hne)
  rw [hclass] at hne
  have hsmall : w.heap.getThissize (w.heap.freeLists (calcListIndex (adjustBytesize n))) <
      adjustBytesize n := by
    by_contra hge
    exact hnone _ le_rfl ⟨hne, Nat.not_lt.mp hge⟩
  refine ⟨hclass, ?_, hsmall⟩
  rintro rfl
  omega

/-- Two freed blocks share a list, and the first is too small for a request that
the second could serve. -/
theorem Run.past_head (h : Run Env.small
      [.malloc 36, .malloc 12, .malloc 52, .malloc 8084, .free 0, .free 2] w) :
    ∃ s p bps, mmMalloc w.heap 52 = some (s, p) ∧ s.memBrk ≠ w.heap.memBrk ∧
      heapWalk w.heap = some bps ∧ Env.small.base + 72 ∈ bps ∧
      w.heap.getThisalloc (Env.small.base + 72) = 0 ∧
      adjustBytesize 52 ≤ w.heap.getThissize (Env.small.base + 72) := by
  obtain ⟨hm, hwf⟩ := h.matches
  obtain ⟨s, he, hr, _⟩ := hm.heap.malloc hwf.layout (n := 52) (by decide)
  have hlists := hm.heap.freeLists hwf.layout
  have hmem : Env.small.base + 72 ∈ ((Plan.run Env.small.page [.malloc 36, .malloc 12, .malloc 52,
      .malloc 8084, .free 0, .free 2]).layout.lists 5).map (Env.small.base + ·) :=
    List.mem_map_of_mem (by decide)
  obtain ⟨hbp, hfree, _⟩ := (hlists.members 5 _).mp hmem
  have hsize : w.heap.getThissize (Env.small.base + 72) = 56 :=
    hm.heap.image.size_eq hwf.layout (a := false) (by decide)
  refine ⟨s, _, _, he, ?_, hm.heap.heapWalk_eq hwf.layout, hbp, hfree, ?_⟩
  · rw [hr.brk, hm.heap.brk]
    decide
  · rw [hsize]
    decide

theorem growth_only_past_heads_small :
    ∃ w s p bps bp, Run Env.small
        [.malloc 36, .malloc 12, .malloc 52, .malloc 8084, .free 0, .free 2] w ∧
      mmMalloc w.heap 52 = some (s, p) ∧ s.memBrk ≠ w.heap.memBrk ∧ heapWalk w.heap = some bps ∧
      bp ∈ bps ∧ adjustBytesize 52 ≤ w.heap.getThissize bp ∧
      calcListIndex (w.heap.getThissize bp) = calcListIndex (adjustBytesize 52) ∧
      bp ≠ w.heap.freeLists (calcListIndex (adjustBytesize 52)) ∧
      w.heap.getThissize (w.heap.freeLists (calcListIndex (adjustBytesize 52))) <
        adjustBytesize 52 := by
  obtain ⟨w, hw⟩ := exists_run Env.small
    [.malloc 36, .malloc 12, .malloc 52, .malloc 8084, .free 0, .free 2] (by decide)
  obtain ⟨s, p, bps, he, hbrk, hwalk, hbp, hfree, hsize⟩ := hw.past_head
  obtain ⟨bps', hwalk', hpast⟩ :=
    growth_only_past_heads hw (by decide) (by decide) he (.inl hbrk)
  obtain rfl := Option.some.inj (hwalk.symm.trans hwalk')
  exact ⟨w, s, p, bps, _, hw, he, hbrk, hwalk, hbp, hsize, hpast _ hbp hfree hsize⟩

theorem growth_despite_fit :
    ∃ w s p bps bp, Run Env.small
        [.malloc 36, .malloc 12, .malloc 52, .malloc 8084, .free 0, .free 2] w ∧
      mmMalloc w.heap 52 = some (s, p) ∧ s.memBrk ≠ w.heap.memBrk ∧
      heapWalk w.heap = some bps ∧ bp ∈ bps ∧ w.heap.getThisalloc bp = 0 ∧
      adjustBytesize 52 ≤ w.heap.getThissize bp := by
  obtain ⟨w, hw⟩ := exists_run Env.small
    [.malloc 36, .malloc 12, .malloc 52, .malloc 8084, .free 0, .free 2] (by decide)
  obtain ⟨s, p, bps, hpast⟩ := hw.past_head
  exact ⟨w, s, p, bps, _, hw, hpast⟩

end Runs

end CsoMalloc
