import CsoMalloc.BlockSizes

/-! The classes of the free lists in terms of block sizes, and the two functions of
testAlign.py in which the sizes were first worked out. -/

namespace CsoMalloc

open ByteMemory Tiling LinkedSequence

/-- `ALIGNW_ODD` of testAlign.py. -/
def alignwOdd (size : Nat) : Nat := if size < 3 then 3 else size + ((size % 2) ^^^ 1)

/-- `align_size` of testAlign.py, on the unbounded integers of that language. -/
def alignSize (size : Nat) : Nat := alignwOdd ((size + 4 - 1) / 4) * 4

theorem lt_size_of_shiftRight_pos {size bits : Nat} (h : size >>> bits > 0) : bits < Nat.size size := by
  rw [Nat.shiftRight_eq_div_pow] at h
  exact Nat.lt_size.mpr ((Nat.div_pos_iff.mp h).2)

def calcMinBitsLoop (size bits : Nat) : Nat :=
  if size >>> bits > 0 then calcMinBitsLoop size (bits + 1) else bits
termination_by Nat.size size - bits
decreasing_by
  have := lt_size_of_shiftRight_pos ‹_›
  omega

/-- `calc_min_bits` of testAlign.py. -/
def calcMinBits (size : Nat) : Nat := calcMinBitsLoop size 0

section Classes

variable {size bits : Nat}

theorem shiftRight_pos_iff : size >>> bits > 0 ↔ bits < Nat.size size := by
  refine ⟨lt_size_of_shiftRight_pos, fun h => ?_⟩
  rw [Nat.shiftRight_eq_div_pow]
  exact Nat.div_pos (Nat.lt_size.mp h) (Nat.two_pow_pos bits)

theorem shiftRight_gt_one_iff : size >>> bits > 1 ↔ bits + 1 < Nat.size size := by
  rw [Nat.lt_size, Nat.shiftRight_eq_div_pow, Nat.pow_succ, Nat.mul_comm]
  exact Nat.le_div_iff_mul_le (Nat.two_pow_pos bits)

theorem calcMinBitsLoop_eq (h : bits ≤ Nat.size size) : calcMinBitsLoop size bits = Nat.size size := by
  fun_induction calcMinBitsLoop size bits with
  | case1 bits hb ih => exact ih (lt_size_of_shiftRight_pos hb)
  | case2 bits hb =>
    rw [shiftRight_pos_iff] at hb
    omega

theorem calcListIndexLoop_eq (size bits left : Nat) :
    calcListIndexLoop size bits left = bits + min left (Nat.size size - 1 - bits) := by
  induction left generalizing bits with
  | zero => simp [calcListIndexLoop]
  | succ left ih =>
    rw [calcListIndexLoop, ih]
    by_cases h : bits + 1 < Nat.size size
    · rw [if_pos (shiftRight_gt_one_iff.mpr h)]
      omega
    · rw [if_neg (mt shiftRight_gt_one_iff.mp h)]
      omega

theorem calcListIndex_eq (size : Nat) : (calcListIndex size : Nat) = min (Nat.size size - 1) 16 := by
  have h := calcListIndexLoop_eq size 0 (freelistCount - 1)
  rw [Nat.zero_add, Nat.sub_zero, Nat.min_comm] at h
  exact h

theorem size_of_calcListIndex {i : Fin freelistCount} (h0 : 0 < size) (h : calcListIndex size = i) :
    2 ^ i.1 ≤ size ∧ (i.1 < 16 → size < 2 ^ (i.1 + 1)) := by
  have hi : i.1 = min (Nat.size size - 1) 16 := by rw [← h, calcListIndex_eq]
  have hpos : 0 < Nat.size size := Nat.lt_size.mpr h0
  refine ⟨Nat.lt_size.mp (by omega), fun hlt => Nat.size_le.mp (by omega)⟩

end Classes

theorem alignSize_eq (size : Nat) : alignSize size + 4 = fitSize size := by
  have hodd : ∀ k : Nat, (k % 2) ^^^ 1 = 1 - k % 2 := by
    intro k
    rcases Nat.mod_two_eq_zero_or_one k with h | h <;> rw [h] <;> rfl
  simp only [alignSize, alignwOdd, hodd, fitSize]
  split <;> omega

/-- The prototype and mm.c agree: a block takes the aligned payload and a header, and
its list is that of the number of bits, counted from 0 and cut off at 16. -/
theorem prototype_agrees {size : Nat} (h : size ≤ 2 ^ 32 - 12) :
    adjustBytesize size = alignSize size + 4 ∧
      (calcListIndex size : Nat) = min (calcMinBits size - 1) 16 := by
  rw [adjustBytesize_eq h, alignSize_eq, calcListIndex_eq, calcMinBits,
    calcMinBitsLoop_eq (Nat.zero_le _)]
  exact ⟨rfl, rfl⟩

theorem prototype_agrees_script :
    adjustBytesize 56 = alignSize 56 + 4 ∧ (calcListIndex 4072 : Nat) = min (calcMinBits 4072 - 1) 16 :=
  ⟨(prototype_agrees (by decide)).1, (prototype_agrees (by decide)).2⟩

section Runs

variable {E : Env} {rs : List Request} {w : World}

/-- In every state of every run, list `i` holds blocks of at least `2 ^ i` bytes and,
but for the last list, of less than twice as many. The first four lists are
never used. -/
theorem size_classes_hold (h : Run E rs w) :
    ∃ xs : Fin freelistCount → List Nat,
      (∀ i, Linked (fun bp => w.heap.nextFree (State.memheaderFromPayload bp))
        (fun bp => w.heap.prevFree (State.memheaderFromPayload bp)) 0 (w.heap.freeLists i) (xs i)) ∧
      (∀ i, ∀ bp ∈ xs i, 2 ^ i.1 ≤ w.heap.getThissize bp ∧
        (i.1 < 16 → w.heap.getThissize bp < 2 ^ (i.1 + 1))) ∧
      ∀ i, i.1 < 4 → w.heap.freeLists i = 0 := by
  obtain ⟨hm, hwf⟩ := h.matches
  have hlists := hm.heap.freeLists hwf.layout
  have htags := hm.heap.boundaryTags hwf.layout
  have hclass : ∀ i, ∀ bp ∈ (((Plan.run E.page rs).layout.lists i).map (E.base + ·)),
      16 ≤ w.heap.getThissize bp ∧ 2 ^ i.1 ≤ w.heap.getThissize bp ∧
        (i.1 < 16 → w.heap.getThissize bp < 2 ^ (i.1 + 1)) := by
    intro i bp hbp
    obtain ⟨hwalk, _, hi⟩ := (hlists.members i bp).mp hbp
    have hge := (htags.sizes bp hwalk).2
    exact ⟨hge, size_of_calcListIndex (by omega) hi⟩
  refine ⟨_, hlists.linked, fun i bp hbp => (hclass i bp hbp).2, fun i hi => ?_⟩
  have hnil : ((Plan.run E.page rs).layout.lists i).map (E.base + ·) = [] := by
    refine List.eq_nil_iff_forall_not_mem.mpr fun bp hbp => ?_
    obtain ⟨hge, _, hlt⟩ := hclass i bp hbp
    have hpow : 2 ^ (i.1 + 1) ≤ 2 ^ 4 := Nat.pow_le_pow_right (by decide) hi
    have := hlt (by omega)
    omega
  have hhead := (hlists.linked i).forward
  rw [hnil] at hhead
  exact (List.cons.inj hhead).1

theorem size_classes_hold_small :
    ∃ w, Run Env.small [.malloc 24, .malloc 4000, .free 0, .realloc 1 9000] w ∧
      w.heap.freeLists 3 = 0 := by
  obtain ⟨w, hw⟩ := exists_run Env.small
    [.malloc 24, .malloc 4000, .free 0, .realloc 1 9000] (by decide)
  obtain ⟨_, _, _, hempty⟩ := size_classes_hold hw
  exact ⟨w, hw, hempty 3 (by decide)⟩

end Runs

end CsoMalloc
