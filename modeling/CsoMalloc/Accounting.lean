import CsoMalloc.BlockSizes

/-! Where the bytes of the heap are: in the blocks in use, in the blocks of the
free lists, and in the prologue and epilogue. -/

namespace CsoMalloc

open ByteMemory Tiling LinkedSequence

section Sums

variable {s : State} {bps : List Nat} {xs : Fin freelistCount → List Nat}

theorem FreeListInvariant.sum_eq (h : FreeListInvariant s bps xs) (hx : ∀ i, (xs i).Nodup)
    (f : Nat → Nat) :
    ∑ i, ((xs i).map f).sum = ∑ bp ∈ bps.toFinset with s.getThisalloc bp = 0, f bp := by
  rw [← Finset.sum_fiberwise _ fun bp => calcListIndex (s.getThissize bp)]
  refine Finset.sum_congr rfl fun i _ => ?_
  rw [← List.sum_toFinset f (hx i)]
  refine Finset.sum_congr ?_ fun _ _ => rfl
  ext bp
  simp only [List.mem_toFinset, Finset.mem_filter, h.members i bp, and_assoc]

theorem AllocationContract.sum_eq {w : World} (h : AllocationContract w bps) (f : Nat → Nat) :
    (w.live.map fun b => f b.ptr).sum =
      ∑ bp ∈ bps.toFinset with w.heap.getThisalloc bp = thisalloc, f bp := by
  have hmap : (w.live.map fun b => f b.ptr) = (w.live.map Live.ptr).map f := by
    rw [List.map_map]
    rfl
  rw [hmap, ← List.sum_toFinset f h.live_distinct]
  refine Finset.sum_congr ?_ fun _ _ => rfl
  ext bp
  simp only [List.mem_toFinset, Finset.mem_filter, h.live_iff bp]

end Sums

section Runs

variable {E : Env} {rs : List Request} {w : World}

theorem Refines.sum_sizes {s : State} {L : Layout} (h : Refines E s L) (hwf : L.WF) :
    ((E.addresses L).map s.getThissize).sum + 16 = L.heapsize := by
  have hread : ∀ x ∈ placed Block.size (E.base + 16) L.blocks, s.getThissize x.1 = x.2.size :=
    fun x hx => (h.reads hwf hx).size
  have hsum : ∀ o, ((placed Block.size o L.blocks).map fun x => x.2.size).sum =
      extent Block.size L.blocks := by
    induction L.blocks with
    | nil => simp
    | cons b bs ih =>
      intro o
      rw [placed_cons, List.map_cons, List.sum_cons, ih, extent_cons]
  rw [Env.addresses, List.map_map, List.map_congr_left (g := fun x => x.2.size) hread, hsum,
    Layout.heapsize, Nat.add_comm]

theorem Refines.alloc_cases {s : State} {L : Layout} (h : Refines E s L) (hwf : L.WF) :
    ∀ bp ∈ E.addresses L, s.getThisalloc bp ≠ 0 ↔ s.getThisalloc bp = thisalloc := by
  intro bp hbp
  obtain ⟨⟨_, b⟩, hb, rfl⟩ := List.mem_map.mp hbp
  rw [(h.reads hwf hb).alloc]
  cases b.alloc <;> decide

theorem Matches.sum_sizes {P : Plan} (h : Matches E w P) (hwf : P.WF) :
    16 + (w.live.map fun b => w.heap.getThissize b.ptr).sum +
      ∑ i, (((P.layout.lists i).map (E.base + ·)).map w.heap.getThissize).sum = P.layout.heapsize := by
  have hcontract := h.contract hwf
  have hfree := (h.heap.freeLists hwf.layout).sum_eq
    (fun i => (hwf.layout.listed.nodup i).map (add_right_injective E.base)) w.heap.getThissize
  have hlive : ∑ bp ∈ (E.addresses P.layout).toFinset with ¬ w.heap.getThisalloc bp = 0,
      w.heap.getThissize bp = (w.live.map fun b => w.heap.getThissize b.ptr).sum := by
    rw [hcontract.sum_eq]
    refine Finset.sum_congr (Finset.filter_congr fun bp hbp => ?_) fun _ _ => rfl
    exact h.heap.alloc_cases hwf.layout bp (List.mem_toFinset.mp hbp)
  have hsplit := Finset.sum_filter_add_sum_filter_not (E.addresses P.layout).toFinset
    (fun bp => w.heap.getThisalloc bp = 0) w.heap.getThissize
  rw [hlive, List.sum_toFinset _ hcontract.distinct] at hsplit
  rw [hfree, ← h.heap.sum_sizes hwf.layout, ← hsplit]
  omega

theorem Run.sum_live_le (h : Run E rs w) :
    (w.live.map fun b => w.heap.getThissize b.ptr).sum ≤ (w.live.map fun b => b.size + 23).sum := by
  obtain ⟨hm, hwf⟩ := h.matches
  refine List.sum_le_sum fun b hb => ?_
  obtain ⟨_, k, _, _, hsize, hk⟩ := h.live_size hb
  obtain ⟨_, _, _, _, _, hpos⟩ := hm.live_span hwf hb
  rw [hsize]
  simp only [fitSize] at hk
  omega

/-- No memory is lost. In every state of every run the blocks of the client, those
of the free lists and 16 bytes more make up the heap, so apart from free blocks
the heap exceeds what was asked for by at most 23 bytes for each block and 16. -/
theorem no_memory_lost (h : Run E rs w) :
    ∃ xs : Fin freelistCount → List Nat,
      (∀ i, Linked (fun bp => w.heap.nextFree (State.memheaderFromPayload bp))
        (fun bp => w.heap.prevFree (State.memheaderFromPayload bp)) 0 (w.heap.freeLists i) (xs i)) ∧
      16 + (w.live.map fun b => w.heap.getThissize b.ptr).sum +
        ∑ i, ((xs i).map w.heap.getThissize).sum = w.heap.memHeapsize ∧
      w.heap.memHeapsize ≤ 16 + (w.live.map fun b => b.size + 23).sum +
        ∑ i, ((xs i).map w.heap.getThissize).sum := by
  obtain ⟨hm, hwf⟩ := h.matches
  have hsum := hm.sum_sizes hwf
  rw [← h.heapsize_eq] at hsum
  have hlive := h.sum_live_le
  exact ⟨_, (hm.heap.freeLists hwf.layout).linked, hsum, by omega⟩

theorem no_memory_lost_small :
    ∃ w, Run Env.small [.malloc 24, .malloc 4000, .free 0, .realloc 1 9000] w ∧
      ∃ xs : Fin freelistCount → List Nat,
        16 + (w.live.map fun b => w.heap.getThissize b.ptr).sum +
          ∑ i, ((xs i).map w.heap.getThissize).sum = w.heap.memHeapsize := by
  obtain ⟨w, hw⟩ := exists_run Env.small
    [.malloc 24, .malloc 4000, .free 0, .realloc 1 9000] (by decide)
  obtain ⟨xs, _, hsum, _⟩ := no_memory_lost hw
  exact ⟨w, hw, xs, hsum⟩

end Runs

end CsoMalloc
