import CsoMalloc.Invariants

/-! When free neighbours stay apart. `free_block` does not clear the `PREVALLOC`
flag of the header behind it, so between two calls the flag of every block is
set, and a block that is freed never merges with the block before it. -/

namespace CsoMalloc

open Tiling

/-- No two neighbours are both free. -/
def Spread (bs : List Block) : Prop := bs.IsChain fun b c => b.alloc = true ∨ c.alloc = true

def Marked (bs : List Block) : Prop := ∀ b ∈ bs, b.prevAlloc = true

section Lists

variable {xs ys : List Block} {b : Block}

theorem spread_cons :
    Spread (b :: ys) ↔ (b.alloc = false → ∀ n ∈ ys.head?, n.alloc = true) ∧ Spread ys := by
  rw [Spread, List.isChain_cons]
  refine and_congr_left fun _ => ?_
  cases b.alloc <;> simp

theorem spread_focus : Spread (xs.reverse ++ b :: ys) ↔ Spread xs.reverse ∧ Spread ys ∧
    (b.alloc = false → (∀ l ∈ xs.head?, l.alloc = true) ∧ ∀ n ∈ ys.head?, n.alloc = true) := by
  have ha : Spread (xs.reverse ++ b :: ys) ↔ _ := List.isChain_append
  have hc : Spread (b :: ys) ↔ _ := spread_cons
  simp only [List.getLast?_reverse, List.head?_cons, Option.mem_some_iff, forall_eq'] at ha
  rw [ha]
  simp only [Spread] at hc ⊢
  rw [hc]
  cases b.alloc
  · simp only [forall_const, Bool.false_eq_true, or_false]
    tauto
  · simp

theorem spread_of_alloc (h : b.alloc = true) :
    Spread (xs.reverse ++ b :: ys) ↔ Spread xs.reverse ∧ Spread ys := by
  simp [spread_focus, h]

theorem spread_of_free (h : b.alloc = false) (hx : Spread xs.reverse) (hy : Spread ys)
    (hn : ∀ n ∈ ys.head?, n.alloc = true) :
    Spread (xs.reverse ++ b :: ys) ↔ ∀ l ∈ xs.head?, l.alloc = true := by
  rw [spread_focus]
  exact ⟨fun hs => (hs.2.2 h).1, fun hl => ⟨hx, hy, fun _ => ⟨hl, hn⟩⟩⟩

end Lists

namespace Focus

variable {f : Focus} {a : Size}

/-- A coalesced block whose flag is set lies next to a free block exactly when
the block before it was free. -/
theorem coalesce_spread (hp : f.block.prevAlloc = true) (hfree : f.block.alloc = false)
    (hb : Spread f.before.reverse) (ha : Spread f.after) :
    Spread f.coalesce.layout.blocks ↔ ∀ l ∈ f.before.head?, l.alloc = true := by
  rw [coalesce_of_prevAlloc hp]
  obtain ⟨before, block, after, e, lists⟩ := f
  cases after with
  | nil => exact spread_of_free hfree hb ha (fun n hn => by cases hn)
  | cons n rest =>
    by_cases hn : n.alloc = true
    · simp only [absorbNext, hn, if_true]
      exact spread_of_free hfree hb ha (by simpa using hn)
    · have hr := spread_cons.mp ha
      simp only [absorbNext, hn]
      exact spread_of_free hfree hb hr.2 (hr.1 (by simpa using hn))

theorem coalesce_marked (hp : f.block.prevAlloc = true) (hm : Marked f.layout.blocks) :
    Marked f.coalesce.layout.blocks := by
  rw [coalesce_of_prevAlloc hp]
  obtain ⟨before, block, after, e, lists⟩ := f
  cases after with
  | nil => exact hm
  | cons n rest =>
    by_cases hn : n.alloc = true
    · simp only [absorbNext, hn, if_true]
      exact hm
    · simp only [absorbNext, hn]
      intro b hb
      simp only [Bool.false_eq_true, if_false, layout, List.mem_append, List.mem_cons] at hb
      rcases hb with hb | hb | hb
      · exact hm b (by simp [layout, List.mem_reverse.mp hb])
      · exact hb ▸ hp
      · exact hm b (by simp [layout, hb])

/-- The block handed out separates what lies before it from what is left. -/
theorem place_spread (hb : Spread f.before.reverse) (ha : Spread f.after) :
    Spread (f.place a).blocks := by
  unfold place
  split
  · dsimp only
    apply Iff.mpr (coalesce_spread rfl rfl ?_ ?_)
    · intro l hl
      obtain rfl := Option.some.inj hl
      rfl
    · rw [List.reverse_cons]
      exact (spread_of_alloc rfl).mpr ⟨hb, by simp [Spread]⟩
    · exact ha
  · obtain ⟨before, block, after, e, lists⟩ := f
    cases after with
    | nil => exact (spread_of_alloc rfl).mpr ⟨hb, ha⟩
    | cons n rest =>
      have ha : Spread (n :: rest) := ha
      obtain ⟨hn, hr⟩ := spread_cons.mp ha
      exact (spread_of_alloc rfl).mpr ⟨hb, spread_cons.mpr ⟨hn, hr⟩⟩

theorem place_marked (hm : Marked f.layout.blocks) : Marked (f.place a).blocks := by
  have hblock : f.block.prevAlloc = true := hm _ (by simp [layout])
  unfold place
  split
  · refine coalesce_marked rfl fun b hb => ?_
    simp only [layout, List.reverse_cons, List.append_assoc, List.cons_append, List.nil_append,
      List.mem_append, List.mem_cons] at hb
    rcases hb with hb | rfl | rfl | hb
    · exact hm b (by simp [layout, List.mem_reverse.mp hb])
    · exact hblock
    · rfl
    · exact hm b (by simp [layout, hb])
  · obtain ⟨before, block, after, e, lists⟩ := f
    intro b hb
    cases after with
    | nil =>
      simp only [markNext, layout, List.mem_append, List.mem_cons, List.not_mem_nil, or_false] at hb
      rcases hb with hb | rfl
      · exact hm b (by simp [layout, List.mem_reverse.mp hb])
      · exact hblock
    | cons n rest =>
      simp only [markNext, layout, List.mem_append, List.mem_cons] at hb
      rcases hb with hb | rfl | rfl | hb
      · exact hm b (by simp [layout, List.mem_reverse.mp hb])
      · exact hblock
      · rfl
      · exact hm b (by simp [layout, hb])

end Focus

namespace Layout

variable {L : Layout}

/-- A block added at the end either finds the block before it in use, or
merges with it, or stays apart from it; the flags of the others are kept. -/
theorem extend_spread (hs : Spread L.blocks) (hm : Marked L.blocks) (hne : L.blocks ≠ [])
    (k : Size) : Spread (L.extend k).coalesce.before.reverse ∧
      (L.extend k).coalesce.after = [] ∧ Marked (L.extend k).coalesce.layout.blocks := by
  have hn : (L.extend k).absorbNext = L.extend k := rfl
  simp only [Focus.coalesce, hn]
  cases hb : L.blocks.reverse with
  | nil => exact absurd (by simpa using hb) hne
  | cons l rest =>
    have hL : L.blocks = rest.reverse ++ [l] := by
      rw [← List.reverse_reverse L.blocks, hb, List.reverse_cons]
    have hl : l.prevAlloc = true := hm l (by simp [hL])
    have hr : ∀ b ∈ rest, b.prevAlloc = true := fun b hb => hm b (by simp [hL, hb])
    cases he : L.epiPrev with
    | true =>
      have hp : (L.extend k).absorbPrev = L.extend k := by
        simp [Focus.absorbPrev, extend, hb, he]
      rw [hp]
      refine ⟨by simpa [extend] using hs, rfl, fun b hb' => ?_⟩
      simp only [extend, Focus.layout, List.reverse_reverse, List.mem_append,
        List.mem_singleton] at hb'
      rcases hb' with hb' | rfl
      · exact hm b hb'
      · exact he
    | false =>
      simp only [Focus.absorbPrev, extend, hb, he, Bool.false_eq_true, if_false]
      refine ⟨(spread_focus.mp (hL ▸ hs)).1, trivial, fun b hb' => ?_⟩
      simp only [Focus.layout, List.mem_append, List.mem_reverse, List.mem_singleton] at hb'
      rcases hb' with hb' | rfl
      · exact hr b hb'
      · exact hl

theorem malloc_spread (h : L.WF) (hs : Spread L.blocks) (hm : Marked L.blocks) (page : Size)
    (n : Nat) : Spread (L.malloc page n).1.blocks ∧ Marked (L.malloc page n).1.blocks := by
  by_cases hn : n = 0
  · rw [malloc, if_pos hn]
    exact ⟨hs, hm⟩
  rw [malloc, if_neg hn]
  cases hf : L.findFit (fitSize n) with
  | some o =>
    obtain ⟨f, hfo, rfl, _, _, _⟩ := h.findFit_some hf
    have ht : (f.layout.take page (fitSize n)).1 = f.place (fitSize n) := by simp [take, hf, hfo]
    have hsp := spread_focus.mp hs
    rw [ht]
    exact ⟨Focus.place_spread hsp.1 hsp.2.1, Focus.place_marked hm⟩
  | none =>
    by_cases hk : L.heapsize + maxSize (fitSize n) page ≤ maxHeap
    · obtain ⟨h1, h2, h3⟩ := extend_spread hs hm h.nonempty (maxSize (fitSize n) page)
      have ht : (L.take page (fitSize n)).1 =
          (L.extend (maxSize (fitSize n) page)).coalesce.place (fitSize n) := by
        simp [take, hf, hk]
      rw [ht]
      exact ⟨Focus.place_spread h1 (by rw [h2]; simp [Spread]), Focus.place_marked h3⟩
    · have ht : (L.take page (fitSize n)).1 = L := by simp [take, hf, hk]
      rw [ht]
      exact ⟨hs, hm⟩

/-- Freeing a block separates no free blocks exactly when the block before it
is in use. -/
theorem free_spread {f : Focus} {o : Nat} (hf : L.focus o = some f) (hL : f.layout = L)
    (hs : Spread L.blocks) (hm : Marked L.blocks) :
    (Spread (L.free o).blocks ↔ ∀ l ∈ f.before.head?, l.alloc = true) ∧
      Marked (L.free o).blocks := by
  have he : L.free o = f.release.layout := by simp [free, hf]
  subst hL
  have hp : f.block.prevAlloc = true := hm _ (by simp [Focus.layout])
  have hsp := spread_focus.mp hs
  rw [he]
  refine ⟨Focus.coalesce_spread hp rfl hsp.1 hsp.2.1, Focus.coalesce_marked hp fun b hb => ?_⟩
  simp only [Focus.layout, List.mem_append, List.mem_cons] at hb
  rcases hb with hb | rfl | hb
  · exact hm b (by simp [Focus.layout, List.mem_reverse.mp hb])
  · exact hp
  · exact hm b (by simp [Focus.layout, hb])

end Layout

end CsoMalloc
