import CsoMalloc.Simulation

/-! The heap read block by block, and what every run keeps true of it: the
boundary tags are consistent and the free lists hold the free blocks. -/

namespace CsoMalloc

open ByteMemory Tiling LinkedSequence

def heapWalkLoop (s : State) : Nat → Nat → Option (List Nat)
  | 0, _ => none
  | fuel + 1, bp =>
    if bp = wadd s.heapEnd 1 then some []
    else (heapWalkLoop s fuel (s.getNextblock bp)).map (bp :: ·)

/-- The payload addresses met when the size fields are followed from the first
block on, until the walk arrives at `heap_end + 1`. -/
@[irreducible]
def heapWalk (s : State) : Option (List Nat) :=
  heapWalkLoop s (2 ^ 32) (wadd s.heapStart (4 * wsize))

def Env.addresses (E : Env) (L : Layout) : List Nat :=
  (placed Block.size (E.base + 16) L.blocks).map Prod.fst

variable {E : Env} {s : State} {L : Layout}

theorem Env.mem_addresses {bp : Nat} :
    bp ∈ E.addresses L ↔ ∃ o b, bp = E.base + o ∧ (o, b) ∈ placed Block.size 16 L.blocks := by
  simp only [Env.addresses, List.mem_map, Prod.exists]
  constructor
  · rintro ⟨p, b, hb, rfl⟩
    have := (placed_bounds hb).1
    obtain ⟨o, rfl⟩ : ∃ o, p = E.base + o := ⟨p - E.base, by omega⟩
    exact ⟨o, b, rfl, placed_shift.mp hb⟩
  · rintro ⟨o, b, rfl, hb⟩
    exact ⟨_, b, placed_shift.mpr hb, rfl⟩

/-- What the macros read in the header and the footer of a block. -/
structure Reads (s : State) (bp : Nat) (b : Block) : Prop where
  size : s.getThissize bp = b.size
  alloc : s.getThisalloc bp = b.alloc.toNat
  prevAlloc : s.getPrevalloc bp = 2 * b.prevAlloc.toNat
  next : s.getNextblock bp = bp + b.size
  ftr : s.getBlockftr bp = bp + b.size - 8
  footer : b.alloc = false → s.getSize (s.getBlockftr bp) = b.size

namespace Refines

theorem reads (h : Refines E s L) (hwf : L.WF) {p : Nat} {b : Block}
    (hb : (p, b) ∈ placed Block.size (E.base + 16) L.blocks) : Reads s p b := by
  have hfit := hwf.fits
  have := E.base_high
  have := maxHeap_eq
  have hbd := placed_bounds hb
  simp only [Layout.heapsize] at hfit
  obtain ⟨hhdr, hftr⟩ := tagged_iff.mp h.image.tags p b hb
  have hf := getBlockftr_eq (s := s) (p := p) (b := b) (by omega) (by omega) hhdr
  refine ⟨getThissize_eq (by omega) (by omega) hhdr, getThisalloc_eq (by omega) (by omega) hhdr,
    getPrevalloc_eq (by omega) (by omega) hhdr, getNextblock_eq (by omega) (by omega) hhdr, hf,
    fun hfree => ?_⟩
  rw [hf, State.getSize, State.getw, hftr hfree]

theorem heapEnd_eq (h : Refines E s L) (hwf : L.WF) : wadd s.heapEnd 1 = E.base + L.heapsize := by
  have := hwf.fits
  have := E.base_high
  have := maxHeap_eq
  have := h.heapEnd
  rw [wadd_eq (by omega), h.heapEnd]

end Refines

theorem heapWalkLoop_eq {bs : List Block} {fuel p : Nat}
    (hr : ∀ q b, (q, b) ∈ placed Block.size p bs → s.getNextblock q = q + b.size)
    (hend : p + extent Block.size bs = wadd s.heapEnd 1) (hf : bs.length < fuel) :
    heapWalkLoop s fuel p = some ((placed Block.size p bs).map Prod.fst) := by
  induction bs generalizing fuel p with
  | nil =>
    obtain ⟨fuel, rfl⟩ : ∃ k, fuel = k + 1 := ⟨fuel - 1, by simp at hf; omega⟩
    rw [heapWalkLoop, if_pos (by simpa using hend)]
    rfl
  | cons b bs ih =>
    obtain ⟨fuel, rfl⟩ : ∃ k, fuel = k + 1 := ⟨fuel - 1, by simp at hf; omega⟩
    have hge := b.size_ge
    have hn := hr p b List.mem_cons_self
    rw [extent_cons] at hend
    rw [heapWalkLoop, if_neg (by omega), hn,
      ih (fun q c hc => hr q c (List.mem_cons_of_mem _ hc)) (by omega) (by simpa using hf)]
    rfl

theorem length_le_extent (bs : List Block) : bs.length ≤ extent Block.size bs := by
  induction bs with
  | nil => simp
  | cons b bs ih =>
    have := b.size_ge
    simp only [List.length_cons, extent_cons]
    omega

theorem Refines.heapWalk_eq (h : Refines E s L) (hwf : L.WF) :
    heapWalk s = some (E.addresses L) := by
  have hfit := hwf.fits
  have := E.base_high
  have := maxHeap_eq
  have := length_le_extent L.blocks
  simp only [Layout.heapsize] at hfit
  have hstart : wadd s.heapStart (4 * wsize) = E.base + 16 := by
    rw [h.heapStart, wadd_eq (by simp only [wsize]; omega)]
    rfl
  rw [heapWalk, hstart]
  refine heapWalkLoop_eq (fun q b hb => (h.reads hwf hb).next) ?_ (by omega)
  rw [h.heapEnd_eq hwf, Layout.heapsize, Nat.add_assoc]

end CsoMalloc
