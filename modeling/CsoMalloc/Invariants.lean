import CsoMalloc.HeapWalk

/-! The consistency of the heap after every step of every run, in terms of the
words that the macros of mm.c read. -/

namespace CsoMalloc

open ByteMemory Tiling LinkedSequence

/-- The boundary tags of a heap are consistent. The last clause runs along the
prologue, the blocks and the epilogue: a header that denies an allocated
predecessor stands behind a free block. -/
structure BoundaryTagInvariant (s : State) (bps : List Nat) : Prop where
  heapEnd : s.heapEnd = s.memHeapHi
  padding : s.getw s.heapStart = 0x8BADF00D
  prologueHdr : s.getw (s.heapStart + wsize) = pack dsize (thisalloc ||| prevalloc)
  prologueFtr : s.getw (s.heapStart + 2 * wsize) = pack dsize (thisalloc ||| prevalloc)
  walk : heapWalk s = some bps
  inside : ∀ bp ∈ bps, s.heapStart + 4 * wsize ≤ bp ∧ bp + s.getThissize bp ≤ s.heapEnd + 1
  sizes : ∀ bp ∈ bps, 8 ∣ s.getThissize bp ∧ 16 ≤ s.getThissize bp
  footers : ∀ bp ∈ bps, s.getThisalloc bp = 0 → s.getSize (s.getBlockftr bp) = s.getThissize bp
  epilogue : s.getAlloc (s.heapEnd - 3) = thisalloc
  flags : ((s.heapStart + dsize) :: bps ++ [s.heapEnd + 1]).IsChain
    fun x y => s.getPrevalloc y = 0 → s.getThisalloc x = 0

/-- Each list is a doubly linked sequence that ends in `NULL`, and the members
of all lists are the free blocks of the walk, each in the list of its size. -/
structure FreeListInvariant (s : State) (bps : List Nat) (xs : Fin freelistCount → List Nat) :
    Prop where
  linked : ∀ i, Linked (fun bp => s.nextFree (State.memheaderFromPayload bp))
    (fun bp => s.prevFree (State.memheaderFromPayload bp)) 0 (s.freeLists i) (xs i)
  members : ∀ i bp, bp ∈ xs i ↔
    bp ∈ bps ∧ s.getThisalloc bp = 0 ∧ calcListIndex (s.getThissize bp) = i

section Layouts

variable {E : Env} {s : State} {L : Layout}

theorem isChain_flags {bs : List Block} {a e : Bool} {x p : Nat} (hf : FlagsOk a bs e)
    (hx : s.getThisalloc x = a.toNat) (hr : ∀ q b, (q, b) ∈ placed Block.size p bs → Reads s q b)
    (he : s.getPrevalloc (p + extent Block.size bs) = 2 * e.toNat) :
    (x :: (placed Block.size p bs).map Prod.fst ++ [p + extent Block.size bs]).IsChain
      fun x y => s.getPrevalloc y = 0 → s.getThisalloc x = 0 := by
  induction bs generalizing a x p with
  | nil =>
    simp only [placed_nil, List.map_nil, List.cons_append, List.nil_append, List.isChain_cons_cons,
      List.isChain_singleton, and_true]
    intro h0
    rw [he] at h0
    rw [hx, hf (by cases e <;> simp_all)]
    rfl
  | cons b bs ih =>
    have hb := hr p b List.mem_cons_self
    simp only [extent_cons, ← Nat.add_assoc] at he ⊢
    simp only [placed_cons, List.map_cons, List.cons_append, List.isChain_cons_cons]
    refine ⟨fun h0 => ?_, ih hf.2 hb.alloc (fun q c hc => hr q c (List.mem_cons_of_mem _ hc)) he⟩
    rw [hb.prevAlloc] at h0
    rw [hx, hf.1 (by cases hp : b.prevAlloc <;> simp_all)]
    rfl

theorem Refines.boundaryTags (h : Refines E s L) (hwf : L.WF) :
    BoundaryTagInvariant s (E.addresses L) := by
  have hfit := hwf.fits
  have hge := hwf.heapsize_ge
  have := E.base_high
  have := maxHeap_eq
  have hend := h.heapEnd
  have hstart := h.heapStart
  have hmem : ∀ bp ∈ E.addresses L, ∃ b, (bp, b) ∈ placed Block.size (E.base + 16) L.blocks := by
    intro bp hbp
    obtain ⟨⟨_, b⟩, hb, rfl⟩ := List.mem_map.mp hbp
    exact ⟨b, hb⟩
  have hepi : getw s.mem (s.heapEnd - 3) = epilogueWord L.epiPrev := by
    have he : s.heapEnd - 3 = E.base + L.heapsize - 4 := by omega
    rw [he, h.image.epilogue]
  refine ⟨?_, ?_, ?_, ?_, h.heapWalk_eq hwf, ?_, ?_, ?_, ?_, ?_⟩
  · rw [State.memHeapHi, h.brk, wsub_eq (by omega) (by omega)]
    omega
  · rw [hstart, State.getw, h.image.padding]
  · rw [hstart, State.getw]
    exact h.image.prologueHdr
  · rw [hstart, State.getw]
    exact h.image.prologueFtr
  · intro bp hbp
    obtain ⟨b, hb⟩ := hmem bp hbp
    have hbd := placed_bounds hb
    rw [(h.reads hwf hb).size, hstart, hend]
    simp only [Layout.heapsize, wsize]
    omega
  · intro bp hbp
    obtain ⟨b, hb⟩ := hmem bp hbp
    rw [(h.reads hwf hb).size]
    exact ⟨b.size_dvd, b.size_ge⟩
  · intro bp hbp h0
    obtain ⟨b, hb⟩ := hmem bp hbp
    have hr := h.reads hwf hb
    rw [hr.alloc] at h0
    rw [hr.size, hr.footer (by cases ha : b.alloc <;> simp_all)]
  · rw [State.getAlloc, State.getw, hepi, epilogueWord_and_thisalloc]
    rfl
  · have he : s.heapEnd + 1 = E.base + 16 + extent Block.size L.blocks := by
      rw [hend, Layout.heapsize, Nat.add_assoc]
    rw [he]
    refine isChain_flags hwf.flags ?_ (fun q b hb => h.reads hwf hb) ?_
    · rw [hstart, State.getThisalloc, State.getAlloc, getBlockhdr_eq (by simp [dsize])
        (by simp only [dsize]; omega), State.getw]
      have hd : E.base + dsize - 4 = E.base + 4 := rfl
      rw [hd, h.image.prologueHdr]
      rfl
    · rw [← he, State.getPrevalloc, getBlockhdr_eq (by omega) (by omega), State.getw]
      have hd : s.heapEnd + 1 - 4 = s.heapEnd - 3 := by omega
      rw [hd, hepi, epilogueWord_and_prevalloc]

theorem Refines.freeLists (h : Refines E s L) (hwf : L.WF) :
    FreeListInvariant s (E.addresses L) (fun i => (L.lists i).map (E.base + ·)) := by
  refine ⟨h.image.lists.linked_headers, fun i bp => ?_⟩
  simp only [List.mem_map, hwf.listed.mem_iff, Env.mem_addresses]
  constructor
  · rintro ⟨o, ⟨n, hn, hi⟩, rfl⟩
    obtain ⟨b, hb, hfree, rfl⟩ := mem_spans.mp hn
    have hr := h.reads hwf (placed_shift.mpr hb)
    exact ⟨⟨o, b, rfl, hb⟩, by rw [hr.alloc, hfree]; rfl, by rw [hr.size, hi]⟩
  · rintro ⟨⟨o, b, rfl, hb⟩, h0, hi⟩
    have hr := h.reads hwf (placed_shift.mpr hb)
    rw [hr.alloc] at h0
    rw [hr.size] at hi
    exact ⟨o, ⟨b.size, mem_spans.mpr ⟨b, hb, by cases ha : b.alloc <;> simp_all, rfl⟩, hi⟩, rfl⟩

end Layouts

section Runs

variable {E : Env} {rs : List Request} {w : World}

/-- After every operation of every run the boundary tags are consistent, and
the next operation returns. -/
theorem boundary_tags_hold (h : Run E rs w) :
    (∃ bps, BoundaryTagInvariant w.heap bps) ∧
      ∀ q : Request, q.Allowed w.live → ∃ w', w.call q = some w' := by
  obtain ⟨hm, hwf⟩ := h.matches
  refine ⟨⟨_, hm.heap.boundaryTags hwf.layout⟩, fun q hq => ?_⟩
  obtain ⟨w', he, _⟩ := hm.call hwf hq
  exact ⟨w', he⟩

theorem boundary_tags_hold_small :
    ∃ w, Run Env.small [.malloc 24, .malloc 4000, .free 0, .realloc 1 9000] w ∧
      ∃ bps, BoundaryTagInvariant w.heap bps := by
  obtain ⟨w, hw⟩ := exists_run Env.small
    [.malloc 24, .malloc 4000, .free 0, .realloc 1 9000] (by decide)
  exact ⟨w, hw, (boundary_tags_hold hw).1⟩

/-- After every operation of every run the lists hold exactly the free blocks,
every list walk ends at the last member, and the next operation returns. -/
theorem free_lists_hold (h : Run E rs w) :
    (∃ bps xs, heapWalk w.heap = some bps ∧ FreeListInvariant w.heap bps xs ∧
      ∀ i, findEndOfList w.heap i = some ((xs i).getLast?.getD 0)) ∧
      ∀ q : Request, q.Allowed w.live → ∃ w', w.call q = some w' := by
  obtain ⟨hm, hwf⟩ := h.matches
  refine ⟨⟨_, _, hm.heap.heapWalk_eq hwf.layout, hm.heap.freeLists hwf.layout,
    fun i => findEndOfList_eq hm.heap.image.lists i⟩, fun q hq => ?_⟩
  obtain ⟨w', he, _⟩ := hm.call hwf hq
  exact ⟨w', he⟩

theorem free_lists_hold_small :
    ∃ w, Run Env.small [.malloc 24, .malloc 4000, .free 0, .realloc 1 9000] w ∧
      ∃ bps xs, heapWalk w.heap = some bps ∧ FreeListInvariant w.heap bps xs := by
  obtain ⟨w, hw⟩ := exists_run Env.small
    [.malloc 24, .malloc 4000, .free 0, .realloc 1 9000] (by decide)
  obtain ⟨⟨bps, xs, hwalk, hf, _⟩, _⟩ := free_lists_hold hw
  exact ⟨w, hw, bps, xs, hwalk, hf⟩

end Runs

end CsoMalloc
