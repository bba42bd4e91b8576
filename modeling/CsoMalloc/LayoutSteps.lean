import CsoMalloc.LayoutInvariant

/-! What `malloc` and `free` do to the layout: which blocks are in use
afterwards, and that the layout stays in order. -/

namespace CsoMalloc

open Tiling

theorem Focus.mem_spans_layout {f : Focus} {a : Bool} {x : Nat × Nat} :
    x ∈ spans a 16 f.layout.blocks ↔ x ∈ spans a 16 f.before.reverse ∨
      (f.block.alloc = a ∧ x = (f.offset, f.block.size)) ∨
      x ∈ spans a (f.offset + f.block.size) f.after := by
  simp only [Focus.layout, spans_append, spans_cons, List.mem_append, extent_reverse, Focus.offset]
  by_cases h : f.block.alloc = a <;> simp [h]

theorem Focus.mem_spans_block (f : Focus) :
    (f.offset, f.block.size) ∈ spans f.block.alloc 16 f.layout.blocks :=
  Focus.mem_spans_layout.mpr (.inr (.inl ⟨rfl, rfl⟩))

namespace Layout

variable {L : Layout}

theorem focus_of_placed {o : Nat} {b : Block} (h : (o, b) ∈ placed Block.size 16 L.blocks) :
    ∃ f, L.focus o = some f ∧ f.layout = L ∧ f.offset = o ∧ f.block = b := by
  obtain ⟨pre, post, hL, rfl⟩ := placed_split h
  refine ⟨⟨pre.reverse, b, post, L.epiPrev, L.lists⟩, ?_, ?_, ?_, rfl⟩
  · have hs : seek Block.size (16 + extent Block.size pre) 16 [] (pre ++ b :: post) =
        some (pre.reverse ++ [], b, post) :=
      seek_append 16 fun c _ => Nat.lt_of_lt_of_le (by decide) c.size_ge
    rw [focus, hL, hs]
    simp
  · simp [Focus.layout, ← hL]
  · simp [Focus.offset]

theorem focus_of_span {a : Bool} {o n : Nat} (h : (o, n) ∈ spans a 16 L.blocks) :
    ∃ f, L.focus o = some f ∧ f.layout = L ∧ f.offset = o ∧ f.block.alloc = a ∧
      f.block.size = n := by
  obtain ⟨b, hb, ha, hn⟩ := mem_spans.mp h
  obtain ⟨f, hf, hL, ho, rfl⟩ := focus_of_placed hb
  exact ⟨f, hf, hL, ho, ha, hn⟩

theorem WF.focus_of_listed (h : L.WF) {i : Fin freelistCount} {o : Nat} (ho : o ∈ L.lists i) :
    ∃ f, L.focus o = some f ∧ f.layout = L ∧ f.offset = o ∧ f.block.alloc = false ∧
      calcListIndex f.block.size = i := by
  obtain ⟨n, hn, hi⟩ := (h.listed.mem_iff i o).mp ho
  obtain ⟨f, hf, hL, ho, ha, rfl⟩ := focus_of_span hn
  exact ⟨f, hf, hL, ho, ha, hi⟩

theorem sizeAt_eq {f : Focus} {o : Nat} (h : L.focus o = some f) : L.sizeAt o = f.block.size := by
  simp [sizeAt, h]

theorem WF.findFit_some (h : L.WF) {a o : Nat} (hf : L.findFit a = some o) :
    ∃ f, L.focus o = some f ∧ f.layout = L ∧ f.offset = o ∧ f.block.alloc = false ∧
      a ≤ f.block.size := by
  obtain ⟨i, _, hi⟩ := List.exists_of_findSome?_eq_some hf
  cases hl : L.lists i with
  | nil => simp [hl] at hi
  | cons p ps =>
    have hp : a ≤ L.sizeAt p ∧ p = o := by simpa [hl] using hi
    obtain ⟨ha, rfl⟩ := hp
    obtain ⟨f, hf, hL, ho, hfree, _⟩ := h.focus_of_listed (i := i) (o := p) (by simp [hl])
    exact ⟨f, hf, hL, ho, hfree, sizeAt_eq hf ▸ ha⟩

end Layout

theorem Lists.link_head {lists : Lists} {i : Fin freelistCount} {q : Nat} {qs : List Nat}
    (h : lists i = q :: qs) {o n : Nat} : ∃ qs', lists.link o n i = q :: qs' := by
  by_cases hi : i = calcListIndex n
  · subst hi
    exact ⟨qs ++ [o], by simp [Lists.link, h]⟩
  · exact ⟨qs, by simp [Lists.link, hi, h]⟩

theorem Lists.unlink_head {lists : Lists} {i : Fin freelistCount} {q : Nat} {qs : List Nat}
    (h : lists i = q :: qs) {o n : Nat} (ho : q ≠ o) : ∃ qs', lists.unlink o n i = q :: qs' := by
  by_cases hi : i = calcListIndex n
  · subst hi
    exact ⟨qs.erase o, by simp [Lists.unlink, h, ho]⟩
  · exact ⟨qs, by simp [Lists.unlink, hi, h]⟩

namespace Focus

variable {f : Focus}

theorem markNext_allocated (f : Focus) :
    spans true 16 f.markNext.layout.blocks = spans true 16 f.layout.blocks ∧
      f.markNext.layout.heapsize = f.layout.heapsize := by
  obtain ⟨before, block, after, e, lists⟩ := f
  cases after with
  | nil => exact ⟨rfl, rfl⟩
  | cons n rest => simp [markNext, layout, Layout.heapsize]

theorem mem_spans_split {front rest : Block} (e : Bool) (lists : Lists) (x : Nat × Nat)
    (hfa : front.alloc = true) (hra : rest.alloc = false)
    (hsz : front.size + rest.size = f.block.size) (hfree : f.block.alloc = false) :
    x ∈ spans true 16 (layout ⟨front :: f.before, rest, f.after, e, lists⟩).blocks ↔
      x = (f.offset, front.size) ∨ x ∈ spans true 16 f.layout.blocks := by
  have he : 16 + (front.size + extent Block.size f.before) + rest.size =
      f.offset + f.block.size := by
    simp only [offset]
    omega
  rw [mem_spans_layout, mem_spans_layout, hfree]
  simp only [offset, extent_cons] at he ⊢
  rw [he]
  simp [hfa, hra]
  tauto

theorem place_allocated (h : f.layout.WF) (hfree : f.block.alloc = false) {a : Size}
    (ha : a ≤ f.block.size) :
    (∃ k : Nat, a ≤ k ∧ (k = a ∨ k = a + 8) ∧ ∀ x, x ∈ spans true 16 (f.place a).blocks ↔
      x = (f.offset, k) ∨ x ∈ spans true 16 f.layout.blocks) ∧
      (f.place a).heapsize = f.layout.heapsize := by
  have ho := open_of_free h hfree
  unfold place
  split
  · next hsp =>
    obtain ⟨hs, hh⟩ := coalesce_allocated
      (split_open ho a hsp (Nat.dvd_sub f.block.size_dvd a.2.2))
    refine ⟨⟨a, le_rfl, .inl rfl, fun x => ?_⟩, ?_⟩
    · exact (Iff.of_eq (congrArg (x ∈ ·) hs)).trans
        (mem_spans_split _ _ x rfl rfl (by simp only; omega) hfree)
    · refine hh.trans ?_
      simp only [layout, Layout.heapsize, extent_append, extent_cons, extent_reverse]
      omega
  · next hsp =>
    obtain ⟨hs, hh⟩ := markNext_allocated
      { f with block := { f.block with alloc := true }, lists := f.lists.unlink f.offset f.block.size }
    -- what is left over is a multiple of 8 below 16
    have hsize : f.block.size = a ∨ f.block.size = a + 8 := by
      have := f.block.size_dvd
      have := a.2.2
      omega
    refine ⟨⟨f.block.size, ha, hsize, fun x => ?_⟩, ?_⟩
    · refine (Iff.of_eq (congrArg (x ∈ ·) hs)).trans ?_
      rw [mem_spans_layout, mem_spans_layout, hfree]
      simp [offset]
      tauto
    · exact hh.trans (by simp [layout, Layout.heapsize])

theorem release_allocated (h : f.layout.WF) (halloc : f.block.alloc = true) :
    (∀ x, x ∈ spans true 16 f.release.layout.blocks ↔
      x ∈ spans true 16 f.layout.blocks ∧ x.1 ≠ f.offset) ∧
      f.release.layout.heapsize = f.layout.heapsize := by
  obtain ⟨hs, hh⟩ := coalesce_allocated (open_of_alloc h halloc)
  have hge := f.block.size_ge
  refine ⟨fun x => ?_, hh.trans (by simp [layout, Layout.heapsize])⟩
  rw [release, hs, mem_spans_layout, mem_spans_layout]
  simp only [halloc, true_and, Bool.false_eq_true, false_and, false_or]
  constructor
  · rintro (hx | hx)
    · have := spans_bounds hx
      simp only [extent_reverse] at this
      exact ⟨.inl hx, by simp only [offset]; omega⟩
    · have := spans_bounds hx
      exact ⟨.inr (.inr hx), by simp only [offset] at *; omega⟩
  · rintro ⟨hx | rfl | hx, hne⟩
    · exact .inl hx
    · exact absurd rfl hne
    · exact .inr hx

theorem coalesce_of_prevAlloc (h : f.block.prevAlloc = true) :
    f.coalesce = { f.absorbNext with
      lists := f.absorbNext.lists.link f.absorbNext.offset f.absorbNext.block.size } := by
  have hp : f.absorbNext.block.prevAlloc = true := by
    unfold absorbNext
    split
    · exact h
    · split
      · exact h
      · exact h
  have hs : f.absorbNext.absorbPrev = f.absorbNext := by
    unfold absorbPrev
    split
    · rfl
    · rw [if_pos hp]
  rw [coalesce, hs]

/-- The head of a list stays at its head when another block is coalesced, or
becomes part of the merged block. -/
theorem coalesce_head (hp : f.block.prevAlloc = true) (hfree : f.block.alloc = false)
    {i : Fin freelistCount} {q : Nat} {qs : List Nat} (hl : f.lists i = q :: qs) :
    (∃ qs', f.coalesce.lists i = q :: qs') ∨
      ∃ o n, (o, n) ∈ spans false 16 f.coalesce.layout.blocks ∧ o + 4 ≤ q ∧ q + 16 ≤ o + n := by
  rw [coalesce_of_prevAlloc hp]
  obtain ⟨before, block, after, e, lists⟩ := f
  cases after with
  | nil => exact .inl (Lists.link_head hl)
  | cons n rest =>
    by_cases hn : n.alloc = true
    · simp only [absorbNext, hn, if_true]
      exact .inl (Lists.link_head hl)
    · simp only [absorbNext, hn]
      by_cases hq : q = offset ⟨before, block, n :: rest, e, lists⟩ + block.size
      · have := block.size_ge
        have := n.size_ge
        refine .inr ⟨16 + extent Block.size before, (block.join n).size, ?_, ?_⟩
        · simpa [layout, Block.join] using .inr (.inl hfree)
        · simp only [hq, offset, Block.join]
          omega
      · obtain ⟨qs', hqs⟩ := Lists.unlink_head (n := n.size) hl hq
        exact .inl (Lists.link_head hqs)

/-- The block that follows the placed one on its list becomes the head of that
list, or is merged with what is left of the placed block. -/
theorem place_successor {a : Size} {q : Nat} {qs : List Nat}
    (hl : f.lists (calcListIndex f.block.size) = f.offset :: q :: qs) :
    (∃ qs', (f.place a).lists (calcListIndex f.block.size) = q :: qs') ∨
      ∃ o n, (o, n) ∈ spans false 16 (f.place a).blocks ∧ o + 4 ≤ q ∧ q + 16 ≤ o + n := by
  have hun : f.lists.unlink f.offset f.block.size (calcListIndex f.block.size) = q :: qs := by
    simp [Lists.unlink, hl]
  unfold place
  split
  · exact coalesce_head rfl rfl hun
  · refine .inl ⟨qs, ?_⟩
    obtain ⟨before, block, after, e, lists⟩ := f
    cases after <;> exact hun

end Focus

namespace Layout

variable {L : Layout} {page a : Size}

theorem le_maxSize (a b : Size) : a.1 ≤ maxSize a b ∧ b.1 ≤ maxSize a b := by
  unfold maxSize
  split <;> omega

theorem extend_open (h : L.WF) {k : Size} (hk : L.heapsize + k ≤ maxHeap) : (L.extend k).Open := by
  refine ⟨rfl, ?_, ?_, fun _ => rfl, ?_⟩
  · simp only [extend, Focus.layout, heapsize, extent_append, extent_reverse, extent_cons,
      extent_nil] at hk ⊢
    omega
  · simpa [extend] using h.flags
  · simpa [extend] using h.listed

theorem extend_allocated (L : Layout) (k : Size) :
    spans true 16 (L.extend k).layout.blocks = spans true 16 L.blocks ∧
      (L.extend k).layout.heapsize = L.heapsize + k := by
  simp [extend, Focus.layout, heapsize, Nat.add_assoc]

theorem coalesce_block {f : Focus} (h : f.Open) :
    f.coalesce.block.alloc = false ∧ f.block.size ≤ f.coalesce.block.size := by
  refine ⟨(Focus.absorbPrev_open (Focus.absorbNext_open h)).free, ?_⟩
  have h1 : f.block.size ≤ f.absorbNext.block.size := by
    unfold Focus.absorbNext
    split
    · exact le_rfl
    · split
      · exact le_rfl
      · simp [Block.join]
  have h2 : f.absorbNext.block.size ≤ f.absorbNext.absorbPrev.block.size := by
    conv_rhs => unfold Focus.absorbPrev
    split
    · exact le_rfl
    · split
      · exact le_rfl
      · simp [Block.join]
  exact h1.trans h2

/-- How an allocation leaves the heap: the block at `o` is in use with at
least the size asked for, and nothing else changed hands. -/
structure Taken (L L' : Layout) (o a : Nat) : Prop where
  wf : L'.WF
  grows : L.heapsize ≤ L'.heapsize
  allocated : ∃ k : Nat, a ≤ k ∧ ∀ x, x ∈ spans true 16 L'.blocks ↔
    x = (o, k) ∨ x ∈ spans true 16 L.blocks
  fresh : ∀ n, (o, n) ∉ spans true 16 L.blocks

theorem place_taken {f : Focus} (h : f.layout.WF) (hfree : f.block.alloc = false)
    (ha : a ≤ f.block.size) : Taken f.layout (f.place a) f.offset a := by
  obtain ⟨⟨k, hk, _, hs⟩, hh⟩ := Focus.place_allocated h hfree ha
  refine ⟨Focus.place_wf h hfree a, hh.ge, ⟨k, hk, hs⟩, fun n hn => ?_⟩
  have := (spans_bounds hn).2.2
  have := f.block.size_ge
  rcases spans_separated hn f.mem_spans_block with he | he | he
  · simp [hfree] at he
  · omega
  · omega

theorem take_some (h : L.WF) {o : Nat} (hr : (L.take page a).2 = some o) :
    Taken L (L.take page a).1 o a := by
  cases hf : L.findFit a with
  | some p =>
    obtain ⟨f, hfo, hL, ho, hfree, ha⟩ := h.findFit_some hf
    obtain rfl : p = o := by simpa [take, hf] using hr
    have ht : (L.take page a).1 = f.place a := by simp [take, hf, hfo]
    rw [ht, ← ho]
    subst hL
    exact place_taken h hfree ha
  | none =>
    by_cases hk : L.heapsize + maxSize a page ≤ maxHeap
    · have hop := extend_open h hk
      have hcb := coalesce_block hop
      obtain ⟨hs, hh⟩ := Focus.coalesce_allocated hop
      obtain ⟨hs', hh'⟩ := L.extend_allocated (maxSize a page)
      obtain rfl : (L.extend (maxSize a page)).coalesce.offset = o := by
        simpa [take, hf, hk] using hr
      have ht : (L.take page a).1 = (L.extend (maxSize a page)).coalesce.place a := by
        simp [take, hf, hk]
      have htk := place_taken (a := a) (Focus.coalesce_wf hop) hcb.1
        ((le_maxSize a page).1.trans hcb.2)
      rw [ht]
      refine ⟨htk.wf, ?_, ?_, ?_⟩
      · exact (hh.trans hh' ▸ htk.grows).trans' (Nat.le_add_right _ _)
      · simpa only [hs, hs'] using htk.allocated
      · simpa only [hs, hs'] using htk.fresh
    · simp [take, hf, hk] at hr

theorem place_size {f : Focus} (h : f.layout.WF) (hfree : f.block.alloc = false)
    (ha : a ≤ f.block.size) {k : Nat} (hk : (f.offset, k) ∈ spans true 16 (f.place a).blocks) :
    k = a ∨ k = a + 8 := by
  obtain ⟨⟨j, _, hj, hs⟩, _⟩ := Focus.place_allocated h hfree ha
  rcases (hs _).mp hk with hx | hx
  · rw [(Prod.mk.inj hx).2]
    exact hj
  · exact absurd hx ((place_taken h hfree ha).fresh k)

/-- An allocated block has the size asked for, or one step more when the rest
was too small to split off. -/
theorem take_size (h : L.WF) {o k : Nat} (hr : (L.take page a).2 = some o)
    (hk : (o, k) ∈ spans true 16 (L.take page a).1.blocks) : k = a ∨ k = a + 8 := by
  cases hf : L.findFit a with
  | some p =>
    obtain ⟨f, hfo, hL, ho, hfree, ha⟩ := h.findFit_some hf
    obtain rfl : p = o := by simpa [take, hf] using hr
    have ht : (L.take page a).1 = f.place a := by simp [take, hf, hfo]
    rw [ht, ← ho] at hk
    exact place_size (hL ▸ h) hfree ha hk
  | none =>
    by_cases hroom : L.heapsize + maxSize a page ≤ maxHeap
    · have hop := extend_open h hroom
      have hcb := coalesce_block hop
      obtain rfl : (L.extend (maxSize a page)).coalesce.offset = o := by
        simpa [take, hf, hroom] using hr
      have ht : (L.take page a).1 = (L.extend (maxSize a page)).coalesce.place a := by
        simp [take, hf, hroom]
      rw [ht] at hk
      exact place_size (Focus.coalesce_wf hop) hcb.1 ((le_maxSize a page).1.trans hcb.2) hk
    · simp [take, hf, hroom] at hr

theorem take_none (hr : (L.take page a).2 = none) : (L.take page a).1 = L := by
  unfold take at *
  split at hr
  · simp at hr
  · split at hr
    · simp at hr
    · next hk => simp [hk]

theorem malloc_none {n : Nat} (hr : (L.malloc page n).2 = none) : (L.malloc page n).1 = L := by
  unfold malloc at *
  split at hr
  · next hn => simp [hn]
  · next hn =>
    rw [if_neg hn]
    exact take_none hr

theorem malloc_some (h : L.WF) {n o : Nat} (hr : (L.malloc page n).2 = some o) :
    0 < n ∧ Taken L (L.malloc page n).1 o (fitSize n) := by
  unfold malloc at *
  split at hr
  · simp at hr
  · next hn =>
    rw [if_neg hn]
    exact ⟨by omega, take_some h hr⟩

theorem malloc_size (h : L.WF) {n o k : Nat} (hr : (L.malloc page n).2 = some o)
    (hk : (o, k) ∈ spans true 16 (L.malloc page n).1.blocks) :
    k = fitSize n ∨ k = fitSize n + 8 := by
  unfold malloc at *
  split at hr
  · simp at hr
  · next hn =>
    rw [if_neg hn] at hk
    exact take_size h hr hk

theorem free_wf (h : L.WF) {o n : Nat} (ho : (o, n) ∈ spans true 16 L.blocks) :
    (L.free o).WF ∧ (L.free o).heapsize = L.heapsize ∧
      ∀ x, x ∈ spans true 16 (L.free o).blocks ↔ x ∈ spans true 16 L.blocks ∧ x.1 ≠ o := by
  obtain ⟨f, hf, rfl, rfl, ha, _⟩ := focus_of_span ho
  have he : f.layout.free f.offset = f.release.layout := by simp [free, hf]
  obtain ⟨hs, hh⟩ := Focus.release_allocated h ha
  rw [he]
  exact ⟨Focus.release_wf h ha, hh, hs⟩

theorem realloc_of_none {o n : Nat} (h : (L.malloc page n).2 = none) :
    L.realloc page o n = ((L.malloc page n).1, none) := by
  rw [realloc]
  split
  · next hL => rw [hL]
  · next hL => simp [hL] at h

theorem realloc_of_some {o n p : Nat} (h : (L.malloc page n).2 = some p) :
    L.realloc page o n = ((L.malloc page n).1.free o, some p) := by
  rw [realloc]
  split
  · next hL => simp [hL] at h
  · next hL =>
    rw [hL] at h ⊢
    rw [Option.some.inj h]

theorem initial_wf (hp : 16 + page.1 ≤ maxHeap) : (initial page).WF := by
  refine ⟨by simpa [initial, heapsize] using hp, by simp [initial], ?_, ?_⟩
  · simp [initial, FlagsOk]
  · have hnil : Listed (fun _ => []) [] := ⟨fun i => List.nodup_nil, fun i o => by simp⟩
    exact hnil.link
      (fun x => by simp [initial]) (fun m hm => by simp at hm)

end Layout

end CsoMalloc
