import CsoMalloc.Extend

/-! `mm_malloc` does to the heap what `malloc` does to the layout. -/

namespace CsoMalloc

open ByteMemory Tiling

variable {E : Env} {s : State} {L : Layout}

theorem Image.head_eq (h : Image E s.mem s.freeLists L) (i : Fin freelistCount) :
    s.freeLists i = ((L.lists i).head?.map (E.base + ·)).getD 0 := by
  have hh := (h.lists.linked i).head_eq
  cases hl : L.lists i with
  | nil => simpa [hl] using hh
  | cons o os => simpa [hl] using hh

theorem Image.size_eq (h : Image E s.mem s.freeLists L) (hwf : L.WF) {a : Bool} {o n : Nat}
    (ho : (o, n) ∈ spans a 16 L.blocks) : s.getThissize (E.base + o) = n := by
  obtain ⟨f, hf, rfl, rfl, _, rfl⟩ := Layout.focus_of_span ho
  have := hwf.fits
  have := f.heapsize_layout
  have := E.base_high
  have := maxHeap_eq
  have : 16 ≤ f.offset := by simp [Focus.offset]
  exact getThissize_eq (by omega) (by omega) h.header

theorem Image.findFit_eq (h : Image E s.mem s.freeLists L) (hwf : L.WF) (a : Nat) :
    (findFit s a).map Prod.fst = (L.findFit a).map (E.base + ·) := by
  rw [findFit, Layout.findFit, List.map_findSome?, List.map_findSome?]
  congr 1
  funext i
  have hh := h.head_eq i
  simp only [Function.comp]
  cases hl : L.lists i with
  | nil => simp [hh, hl]
  | cons o os =>
    obtain ⟨n, hn, _⟩ := (hwf.listed.mem_iff i o).mp (by simp [hl])
    have hz : E.base + o ≠ 0 := by have := E.base_pos; omega
    obtain ⟨f, hf, _, _, _, hfn⟩ := Layout.focus_of_span hn
    rw [hl] at hh
    simp only [List.head?_cons, Option.map_some, Option.getD_some] at hh
    simp only [hh, h.size_eq hwf hn, Layout.sizeAt_eq hf, hfn, List.head?_cons, Option.bind_some]
    by_cases ha : a ≤ n
    · simp only [ha, hz, ne_eq, not_false_eq_true, and_self, if_true, Option.map_some]
    · simp [ha]

theorem Image.findFit_head (h : Image E s.mem s.freeLists L) {a o : Nat} {i : Fin freelistCount}
    (hf : findFit s a = some (E.base + o, i)) : ∃ os, L.lists i = o :: os := by
  obtain ⟨j, _, hj⟩ := List.exists_of_findSome?_eq_some hf
  have hh := h.head_eq j
  simp only at hj
  split at hj
  · next hc =>
    obtain ⟨hp, rfl⟩ := Prod.mk.inj (Option.some.inj hj)
    cases hl : L.lists j with
    | nil => simp [hl, hc.1] at hh
    | cons p ps =>
      simp only [hl, hp, List.head?_cons, Option.map_some, Option.getD_some] at hh
      exact ⟨ps, by rw [Nat.add_left_cancel hh]⟩
  · simp at hj

/-- Only bytes differ that lie in a free block behind its links and before its
footer. -/
def IdleOnly (E : Env) (L : Layout) (m m' : Mem) : Prop :=
  ∀ a, (∀ p n, (p, n) ∈ spans false 16 L.blocks →
    a < E.base + p + 8 ∨ E.base + p + n ≤ a + 8) → m' a = m a

theorem IdleOnly.refl (E : Env) (L : Layout) (m : Mem) : IdleOnly E L m m := fun _ _ => rfl

theorem IdleOnly.putw {p n q v : Nat} (hp : (p, n) ∈ spans false 16 L.blocks) (hq : p + 8 ≤ q)
    (hq' : q + 12 ≤ p + n) (m : Mem) : IdleOnly E L m (putw m (E.base + q) v) := by
  intro a ha
  refine putw_out ?_
  have := ha p n hp
  omega

theorem IdleOnly.image {m m' : Mem} {heads : Fin freelistCount → Nat} (h : IdleOnly E L m m')
    (him : Image E m heads L) (hwf : L.WF) : Image E m' heads L := by
  refine him.of_room (fun a ha => h a fun p n hp => ?_)
    (him.lists.of_out fun i o ho a ha ha' => h a fun p n hp => ?_)
  · obtain ⟨b, hb, hfree, rfl⟩ := mem_spans.mp hp
    have hr : b.room = b.size - 8 := by simp [Block.room, hfree]
    have := ha p b hb
    omega
  · obtain ⟨k, hk, _⟩ := (hwf.listed.mem_iff i o).mp ho
    have := (spans_bounds hk).2.2
    rcases spans_separated hk hp with he | he | he <;> omega

theorem IdleOnly.keeps {m m' : Mem} (h : IdleOnly E L m m') : Keeps E L m m' := by
  intro o k ho a ha ha'
  refine h _ fun p n hp => ?_
  have := spans_apart ho hp
  omega

theorem Refines.of_idle {m : Mem} (h : Refines E s L) (hwf : L.WF) (hm : IdleOnly E L s.mem m) :
    Refines E { s with mem := m } L :=
  h.of_image (hm.image h.image hwf) rfl

theorem Image.head_ne (h : Image E s.mem s.freeLists L) (hwf : L.WF) {o k : Nat}
    (ho : (o, k) ∈ spans true 16 L.blocks) (i : Fin freelistCount) :
    s.freeLists i ≠ E.base + o := by
  have hob := spans_bounds ho
  rw [h.head_eq]
  cases hl : L.lists i with
  | nil =>
    simp only [List.head?_nil, Option.map_none, Option.getD_none]
    omega
  | cons p ps =>
    obtain ⟨n, hn, _⟩ := (hwf.listed.mem_iff i p).mp (by simp [hl])
    have := (spans_bounds hn).2.2
    have := spans_apart ho hn
    simp only [List.head?_cons, Option.map_some, Option.getD_some]
    omega

/-- The second `remove_from_list` of `mm_malloc` runs on a block that is no
longer listed, with the links it had as the head of its list. It changes
nothing that matters. -/
theorem Image.remove_again (h : Image E s.mem s.freeLists L) (hwf : L.WF) {o k : Nat}
    (ho : (o, k) ∈ spans true 16 L.blocks) {i : Fin freelistCount}
    (hpv : getw s.mem (E.base + o + 4) = 0)
    (hnx : getw s.mem (E.base + o) = 0 ∨ ∃ q, getw s.mem (E.base + o) = E.base + q ∧
      ((∃ qs, L.lists i = q :: qs) ∨
        ∃ p n, (p, n) ∈ spans false 16 L.blocks ∧ p + 4 ≤ q ∧ q + 16 ≤ p + n)) :
    ∃ m, removeFromList s (E.base + o) i = { s with mem := m } ∧ IdleOnly E L s.mem m := by
  have hfit := hwf.fits
  have := E.base_high
  have := maxHeap_eq
  have hob : 16 ≤ o ∧ o + k ≤ L.heapsize ∧ 16 ≤ k := spans_bounds ho
  have hhead := h.head_ne hwf ho i
  rcases hnx with hz | ⟨q, hq, hstale⟩
  · refine ⟨s.mem, ?_, IdleOnly.refl E L s.mem⟩
    rw [removeFromList_eq i (by omega) hz hpv (fun hne => absurd rfl hne) (fun hne => absurd rfl hne),
      if_neg hhead]
    simp [unlinkMem]
  · have hspan : ∃ p n, (p, n) ∈ spans false 16 L.blocks ∧ p ≤ q ∧ q + 16 ≤ p + n := by
      rcases hstale with ⟨qs, hl⟩ | ⟨p, n, hp, hpq⟩
      · obtain ⟨n, hn, _⟩ := (hwf.listed.mem_iff i q).mp (by simp [hl])
        exact ⟨q, n, hn, le_rfl, by have := (spans_bounds hn).2.2; omega⟩
      · exact ⟨p, n, hp, by omega, by omega⟩
    obtain ⟨p, n, hp, hpq, hqn⟩ := hspan
    have hpb : 16 ≤ p ∧ p + n ≤ L.heapsize ∧ 16 ≤ n := spans_bounds hp
    have hap := spans_apart ho hp
    have heq := @removeFromList_eq s (E.base + o) (E.base + q) 0 i
      (by omega) hq hpv (fun _ => ⟨by omega, by omega, by simp only [Apart]; omega⟩)
      (fun hne => absurd rfl hne)
    rw [if_neg hhead] at heq
    refine ⟨_, heq, ?_⟩
    have hmem : unlinkMem s.mem (E.base + q) 0 = putw s.mem (E.base + q + 4) 0 := by
      have hne : E.base + q ≠ 0 := by omega
      simp only [unlinkMem, hne, if_false, if_true]
    rw [hmem]
    rcases hstale with ⟨qs, hl⟩ | ⟨p, n, hp, hpq⟩
    · have hprev : getw s.mem (E.base + q + 4) = 0 := by
        have hb := (h.lists.linked i).backward
        simp only [hl, List.map_cons, List.dropLast_cons_cons, List.cons.injEq] at hb
        exact hb.1
      have hsame := putw_getw s.mem (E.base + q + 4)
      rw [hprev] at hsame
      rw [hsame]
      exact IdleOnly.refl E L s.mem
    · rw [Nat.add_assoc]
      exact IdleOnly.putw hp (by omega) (by omega) s.mem

def Env.ptr (E : Env) : Option Nat → Nat
  | none => 0
  | some o => E.base + o

theorem Image.links_of_head (h : Image E s.mem s.freeLists L) {i : Fin freelistCount} {o : Nat}
    {os : List Nat} (hl : L.lists i = o :: os) :
    getw s.mem (E.base + o + 4) = 0 ∧
      getw s.mem (E.base + o) = (os.head?.map (E.base + ·)).getD 0 := by
  have hlk := h.lists.linked i
  simp only [hl, List.map_cons] at hlk
  have hn := hlk.next_eq (l := [])
  have hp := hlk.prev_eq (l := [])
  refine ⟨by simpa using hp, ?_⟩
  cases os with
  | nil => simpa using hn
  | cons q qs => simpa using hn

theorem Refines.malloc_fit (h : Refines E s L) (hwf : L.WF) {a : Size} {o : Nat}
    {i : Fin freelistCount} (hf : findFit s a = some (E.base + o, i)) {f : Focus}
    (hL : f.layout = L) (ho : f.offset = o) (hfree : f.block.alloc = false)
    (ha : a ≤ f.block.size) :
    ∃ s₁ m, CsoMalloc.allocate s (E.base + o) a = some s₁ ∧ Refines E s₁ (f.place a) ∧
      Keeps E L s.mem s₁.mem ∧ removeFromList s₁ (E.base + o) i = { s₁ with mem := m } ∧
      IdleOnly E (f.place a) s₁.mem m := by
  subst hL ho
  obtain ⟨os, hl⟩ := h.image.findFit_head hf
  have hi : calcListIndex f.block.size = i := by
    obtain ⟨n, hn, rfl⟩ := (hwf.listed.mem_iff i f.offset).mp (hl ▸ List.mem_cons_self)
    have := (spans_bounds hn).2.2
    have := f.block.size_ge
    rcases spans_separated f.mem_spans_block hn with he | he | he
    · rw [he.2.1]
    · omega
    · omega
  obtain ⟨⟨k, _, _, hs⟩, hh⟩ := Focus.place_allocated hwf hfree ha
  obtain ⟨m, heads, he, him, hk, hb⟩ := h.image.allocate hwf hfree ha
  obtain ⟨hpv, hnx⟩ := h.image.links_of_head hl
  have hpv' : getw m (E.base + f.offset + 4) = 0 :=
    (getw_congr fun a ha ha' => hb a (by omega) (by omega)).trans hpv
  have hnx' : getw m (E.base + f.offset) = (os.head?.map (E.base + ·)).getD 0 :=
    (getw_congr fun a ha ha' => hb a (by omega) (by omega)).trans hnx
  obtain ⟨m', he', hidle⟩ := Image.remove_again
    (s := { s with mem := m, freeLists := heads }) him (Focus.place_wf hwf hfree a)
    ((hs _).mpr (.inl rfl)) (i := i) hpv' (by
      cases os with
      | nil => exact .inl hnx'
      | cons q qs =>
        refine .inr ⟨q, hnx', ?_⟩
        subst hi
        exact Focus.place_successor hl)
  exact ⟨_, _, he, h.of_image him hh, hk, he', hidle⟩

theorem Refines.take_fit (h : Refines E s L) (hwf : L.WF) {n : Nat} (hn : n ≠ 0) {a : Size}
    (ha : adjustBytesize n = a) {o : Nat} (hf : L.findFit a = some o) :
    ∃ s', mmMalloc s n = some (s', E.ptr (L.take E.page a).2) ∧
      Refines E s' (L.take E.page a).1 ∧ Keeps E L s.mem s'.mem := by
  have hfe := h.image.findFit_eq hwf a
  obtain ⟨f, hfo, hL, ho, hfree, haf⟩ := hwf.findFit_some hf
  obtain ⟨⟨bp, i⟩, hfs, hbp⟩ : ∃ r, findFit s a = some r ∧ r.1 = E.base + o := by
    simpa [hf] using hfe
  obtain rfl : bp = E.base + o := hbp
  obtain ⟨s₁, m, he, hr, hk, he', hidle⟩ := h.malloc_fit hwf hfs hL ho hfree haf
  have ht : L.take E.page a = (f.place a, some o) := by simp [Layout.take, hf, hfo]
  have hwf' := Focus.place_wf (hL ▸ hwf) hfree a
  obtain ⟨⟨k, _, _, hs⟩, _⟩ := Focus.place_allocated (hL ▸ hwf) hfree haf
  refine ⟨{ s₁ with mem := m }, ?_, ht ▸ hr.of_idle hwf' hidle,
    hk.trans hidle.keeps fun x hx => (hs x).mpr (.inr (hL.symm ▸ hx))⟩
  simp only [mmMalloc, if_neg hn, ha, hfs, ht]
  simp [he, he', Env.ptr]

theorem Refines.max_eq (h : Refines E s L) (a : Size) :
    max (a : Nat) s.adjustedPagesize = Layout.maxSize a E.page := by
  rw [h.page, Layout.maxSize]
  split <;> omega

/-- `mm_malloc` for a request that is rounded to the block size `a`. -/
theorem Refines.take (h : Refines E s L) (hwf : L.WF) {n : Nat} (hn : n ≠ 0) {a : Size}
    (ha : adjustBytesize n = a) (hlt : (Layout.maxSize a E.page).1 < 2 ^ 31)
    (hw : E.base + L.heapsize + Layout.maxSize a E.page < 2 ^ 32) :
    ∃ s', mmMalloc s n = some (s', E.ptr (L.take E.page a).2) ∧
      Refines E s' (L.take E.page a).1 ∧ Keeps E L s.mem s'.mem := by
  cases hf : L.findFit a with
  | some o => exact h.take_fit hwf hn ha hf
  | none =>
    have hfs : findFit s a = none := by simpa [hf] using h.image.findFit_eq hwf a
    simp only [mmMalloc, if_neg hn, ha, hfs, h.max_eq]
    by_cases hk : L.heapsize + Layout.maxSize a E.page ≤ maxHeap
    · have hopen := Layout.extend_open hwf hk
      have hcb := Layout.coalesce_block hopen
      have hwf' := Focus.coalesce_wf hopen
      have haf := (Layout.le_maxSize a E.page).1.trans hcb.2
      have ht : L.take E.page a = ((L.extend (Layout.maxSize a E.page)).coalesce.place a,
          some (L.extend (Layout.maxSize a E.page)).coalesce.offset) := by
        simp [Layout.take, hf, hk]
      obtain ⟨s₁, he₁, hr₁, hk₁⟩ := h.extendHeap hwf hk
      obtain ⟨m, heads, he, him, hk₂, _⟩ := hr₁.image.allocate hwf' hcb.1 haf
      have hsp := (Focus.coalesce_allocated hopen).1.trans (L.extend_allocated _).1
      have hz : E.base + (L.extend (Layout.maxSize a E.page)).coalesce.offset ≠ 0 := by
        have := E.base_pos
        omega
      rw [ht, he₁]
      refine ⟨{ s₁ with mem := m, freeLists := heads }, ?_,
        hr₁.of_image him (Focus.place_allocated hwf' hcb.1 haf).2,
        hk₁.trans hk₂ fun x hx => hsp ▸ hx⟩
      simp only [Option.bind_eq_bind, Option.bind_some, if_neg hz, he]
      rfl
    · have ht : L.take E.page a = (L, none) := by simp [Layout.take, hf, hk]
      refine ⟨s, ?_, ht ▸ h, Keeps.refl E L s.mem⟩
      rw [ht, h.extendHeap_full (by omega) hlt hw]
      simp [Env.ptr]

theorem Env.maxSize_le (E : Env) {n : Nat} (hn : n ≤ maxHeap) :
    (Layout.maxSize (fitSize n) E.page).1 ≤ maxHeap + 16 := by
  have := E.room
  have := maxHeap_eq
  unfold Layout.maxSize
  split
  · simp only [Env.page]
    omega
  · simp only [fitSize]
    omega

theorem Refines.malloc (h : Refines E s L) (hwf : L.WF) {n : Nat} (hn : n ≤ maxHeap) :
    ∃ s', mmMalloc s n = some (s', E.ptr (L.malloc E.page n).2) ∧
      Refines E s' (L.malloc E.page n).1 ∧ Keeps E L s.mem s'.mem := by
  by_cases hz : n = 0
  · subst hz
    exact ⟨s, rfl, h, Keeps.refl E L s.mem⟩
  · have := E.base_high
    have := maxHeap_eq
    have hfit := hwf.fits
    have hm := E.maxSize_le hn
    simp only [Layout.malloc, if_neg hz]
    exact h.take hwf hz (adjustBytesize_eq (by omega)) (by omega) (by omega)

theorem Refines.malloc_null (h : Refines E s L) (hwf : L.WF) {n : Nat} (hn : n ≤ maxHeap)
    (hr : (L.malloc E.page n).2 = none) : mmMalloc s n = some (s, 0) := by
  by_cases hz : n = 0
  · subst hz
    rfl
  · have := E.base_high
    have := maxHeap_eq
    have hfit := hwf.fits
    have hm := E.maxSize_le hn
    have ha : adjustBytesize n = fitSize n := adjustBytesize_eq (by omega)
    rw [Layout.malloc, if_neg hz, Layout.take] at hr
    have hfe := h.image.findFit_eq hwf (fitSize n)
    cases hf : L.findFit (fitSize n) with
    | some o => simp [hf] at hr
    | none =>
      have hfs : findFit s (fitSize n) = none := by simpa [hf] using hfe
      have hk : ¬ L.heapsize + Layout.maxSize (fitSize n) E.page ≤ maxHeap := by
        intro hk
        simp [hf, hk] at hr
      simp only [mmMalloc, if_neg hz, ha, hfs, h.max_eq]
      rw [h.extendHeap_full (by omega) (by omega) (by omega)]
      simp

end CsoMalloc
