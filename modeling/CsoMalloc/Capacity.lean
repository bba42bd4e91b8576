import CsoMalloc.Fitting
import CsoMalloc.Wrapping

/-! How much the block that `mm_malloc` returns can hold, for every request in
the range of `size_t`. -/

namespace CsoMalloc

open ByteMemory Tiling

/-- The rounding of a request wraps to 0 or to the smallest block size. -/
theorem adjustBytesize_zero {n : Nat} (h : 2 ^ 32 - 12 < n) (h' : n ≤ 2 ^ 32 - 4) :
    adjustBytesize n = 0 := by
  have h4 : wadd n 3 / wsize = 2 ^ 30 - 2 ∨ wadd n 3 / wsize = 2 ^ 30 - 1 := by
    simp only [wadd, wsize]
    omega
  rcases h4 with h4 | h4
  · rw [adjustBytesize, h4]
    decide
  · rw [adjustBytesize, h4]
    decide

theorem adjustBytesize_wrapped {n : Nat} (h : 2 ^ 32 - 4 < n) (h' : n < 2 ^ 32) :
    adjustBytesize n = 16 := by
  have h4 : wadd n 3 / wsize = 0 := by
    simp only [wadd, wsize]
    omega
  rw [adjustBytesize, h4]
  decide

section Empty

variable {s s₁ : State} {p : Nat} {b c : Block}

/-- The tags of a block of no bytes. Its footer is the word before its header. -/
theorem putw_empty_tags (hp : 8 ≤ p) (hlt : p < 2 ^ 32) (v : Nat) (hv : v < 4) :
    (s.putw (State.getBlockhdr p) v).putw ((s.putw (State.getBlockhdr p) v).getBlockftr p) v =
        { s with mem := putw (putw s.mem (p - 4) v) (p - 8) v } ∧
      ({ s with mem := putw (putw s.mem (p - 4) v) (p - 8) v } : State).getNextblock p = p := by
  have hz : sizeField v = 0 := by
    rw [sizeField_eq (by omega)]
    omega
  have hh := getBlockhdr_eq (p := p) (by omega) hlt
  have h1 : (s.putw (p - 4) v).getSize (p - 4) = 0 := by
    rw [State.getSize, State.getw, State.putw, getw_putw (by omega), hz]
  have h2 : ({ s with mem := putw (putw s.mem (p - 4) v) (p - 8) v } : State).getSize (p - 4) = 0 := by
    rw [State.getSize, State.getw, getw_putw_ne (by omega), getw_putw (by omega), hz]
  have hftr : (s.putw (p - 4) v).getBlockftr p = p - 8 := by
    rw [State.getBlockftr, hh, h1, wadd_eq (by omega), Nat.add_zero, dsize, wsub_eq hp (by omega)]
  constructor
  · rw [hh, hftr]
    rfl
  · rw [State.getNextblock, wsize, wsub_eq (by omega) hlt, h2, wadd_eq (by omega), Nat.add_zero]

/-- `allocate` for no bytes at all: what it splits off is the whole block, and
the word before the header gets a tag. -/
theorem allocate_empty (hp : 8 ≤ p) (hlt : p + b.size + 4 ≤ 2 ^ 32)
    (hb : getw s.mem (p - 4) = b.word) (hcs : c.size = b.size) (hca : c.alloc = false)
    (hcp : c.prevAlloc = true) (hs : removeFromList s p (calcListIndex b.size) = s₁) :
    ∃ v, allocate s p 0 =
      (coalesce { s₁ with mem := tagMem (putw (putw s₁.mem (p - 4) v) (p - 8) v) p c } p).bind
        fun t => some t.1 := by
  have hbg := b.size_ge
  have h1 := getThissize_eq (by omega) (by omega) hb
  have h2 := getPrevalloc_eq (by omega) (by omega) hb
  have h3 : wsub b.size 0 = c.size := by
    rw [wsub_eq (by omega) (by omega)]
    omega
  have hv : pack 0 (thisalloc ||| 2 * b.prevAlloc.toNat) < 4 := by cases b.prevAlloc <;> decide
  have hpc : pack c.size prevalloc = c.word := by
    have := Block.pack_free hca
    rwa [hcp] at this
  obtain ⟨v, hve⟩ : ∃ v, pack 0 (thisalloc ||| 2 * b.prevAlloc.toNat) = v := ⟨_, rfl⟩
  rw [hve] at hv
  obtain ⟨h5, h4⟩ := putw_empty_tags (s := s₁) hp (by omega) v hv
  have h6 := putw_tags (s := { s₁ with mem := putw (putw s₁.mem (p - 4) v) (p - 8) v }) (b := c)
    (p := p) (by omega) (by omega) rfl
  refine ⟨v, ?_⟩
  simp only [allocate, h1, h2, hs, h3, hve, hpc]
  rw [if_pos (by simp only [minSize, wsize]; omega)]
  simp only [h5, h4, h6]
  rfl

end Empty

/-- `remove_from_list` on a listed block, with whatever list index. No header
changes that the links of the listed blocks keep clear of. -/
theorem FreeLists.remove_getw {s : State} {ys : Fin freelistCount → List Nat} {i j : Fin freelistCount}
    {x y : Nat} (h : FreeLists s.mem s.freeLists ys) (hx : x ∈ ys j)
    (hy : ∀ z ∈ ys j, z ≠ x → z + 8 ≤ y ∨ y + 4 ≤ z) :
    getw (removeFromList s x i).mem y = getw s.mem y := by
  obtain ⟨l, r, hlr⟩ := List.append_of_mem hx
  rw [removeFromList_eq i (h.room j x hx) rfl rfl (fun hz => ?_) fun hz => ?_]
  · refine getw_congr fun a ha ha' => unlinkMem_out (fun hz => ?_) fun hz => ?_
    · obtain ⟨_, hm, hne⟩ := h.next_mem hlr hz
      have := hy _ hm hne.symm
      omega
    · obtain ⟨_, hm, hne⟩ := h.prev_mem hlr hz
      have := hy _ hm hne.symm
      omega
  · obtain ⟨_, hm, hne⟩ := h.next_mem hlr hz
    exact ⟨h.room j _ hm, hne, h.apart j j x hx _ hm⟩
  · obtain ⟨_, hm, hne⟩ := h.prev_mem hlr hz
    exact ⟨h.room j _ hm, hne, h.apart j j x hx _ hm⟩

section Row

variable {E : Env} {s : State} {L : Layout} {pre post : List Block} {b c : Block} {P : Nat}
  {m t : Mem} {heads : Fin freelistCount → Nat}

theorem mem_placed_retag (hL : L.blocks = pre ++ b :: post)
    (hP : E.base + 16 + extent Block.size pre = P) (hcs : c.size = b.size) {x : Nat} {d : Block}
    (hx : x ≠ P) : (x, d) ∈ placed Block.size (E.base + 16) (pre ++ c :: post) ↔
      (x, d) ∈ placed Block.size (E.base + 16) L.blocks := by
  rw [hL, mem_placed_middle, mem_placed_middle, hcs, hP]
  simp only [hx, false_and, false_or]

theorem mem_placed_tagged (hL : L.blocks = pre ++ b :: post)
    (hP : E.base + 16 + extent Block.size pre = P) (hcs : c.size = b.size) {x : Nat} {d : Block}
    (hd : (x, d) ∈ placed Block.size (E.base + 16) (pre ++ c :: post)) :
    x = P ∧ d = c ∨ (x, d) ∈ placed Block.size (E.base + 16) L.blocks ∧
      (x + d.size ≤ P ∨ P + b.size ≤ x) := by
  have hd' := hd
  have hbg := b.size_ge
  rw [mem_placed_middle, hcs, hP] at hd
  rcases hd with hd | ⟨rfl, rfl⟩ | hd
  · have := placed_bounds hd
    have := d.size_ge
    exact .inr ⟨(mem_placed_retag hL hP hcs (by omega)).mp hd', by omega⟩
  · exact .inl ⟨rfl, rfl⟩
  · have := placed_bounds hd
    exact .inr ⟨(mem_placed_retag hL hP hcs (by omega)).mp hd', by omega⟩

theorem Layout.WF.mem_retag_iff (hwf : L.WF) (hL : L.blocks = pre ++ b :: post)
    (hP : E.base + 16 + extent Block.size pre = P) (hcs : c.size = b.size) (i : Fin freelistCount)
    (x : Nat) : x ∈ ((L.lists i).map (E.base + ·)).filter (· ≠ P) ↔ x ≠ P ∧
      ∃ d, (x, d) ∈ placed Block.size (E.base + 16) (pre ++ c :: post) ∧ d.alloc = false ∧
        calcListIndex d.size = i := by
  rw [List.mem_filter, hwf.listed_iff]
  simp only [ne_eq, decide_eq_true_eq]
  constructor
  · rintro ⟨⟨d, hd, hda⟩, hx⟩
    exact ⟨hx, d, (mem_placed_retag hL hP hcs hx).mpr hd, hda⟩
  · rintro ⟨hx, d, hd, hda⟩
    exact ⟨⟨d, (mem_placed_retag hL hP hcs hx).mp hd, hda⟩, hx⟩

/-- A free block that has been taken off its list and given new tags. The word
before its header may have been overwritten. -/
theorem Refines.open_row (h : Refines E s L) (hwf : L.WF) (hL : L.blocks = pre ++ b :: post)
    (hP : E.base + 16 + extent Block.size pre = P) (hcs : c.size = b.size) (hca : c.alloc = false)
    (hcp : c.prevAlloc = true) (hlinks : RowLinks (E.base + 16) L.blocks s.mem m)
    (hf : FreeLists m heads fun i => ((L.lists i).map (E.base + ·)).filter (· ≠ P))
    (hhdr : getw t (P - 4) = c.word) (hftr : getw t (P + b.size - 8) = c.word)
    (hm : ∀ a, a + 8 < P ∨ P ≤ a ∧ a + 8 < P + b.size ∨ P + b.size ≤ a + 4 → t a = m a) :
    OpenRow { s with mem := t, freeLists := heads } (E.base + 16) pre c post
      fun i => ((L.lists i).map (E.base + ·)).filter (· ≠ P) := by
  have hfit := hwf.fits
  have := E.base_high
  have := maxHeap_eq
  have hbg := b.size_ge
  obtain ⟨hbm, hsum⟩ := Layout.row_at hL hP
  have hword : ∀ x, x + 12 ≤ P ∨ P + b.size ≤ x + 4 → getw t x = getw m x := fun x hx =>
    getw_congr fun a ha ha' => hm a (by omega)
  refine ⟨by omega, ?_, fun p d hd => ?_, hca, ?_, fun hb => ?_, fun hp => ?_, ?_,
    fun i x => hP ▸ hwf.mem_retag_iff hL hP hcs i x⟩
  · rw [extent_append, extent_cons, hcs]
    omega
  · rcases mem_placed_tagged hL hP hcs hd with ⟨rfl, rfl⟩ | ⟨hd, hp⟩
    · exact hhdr
    · have := (placed_bounds hd).1
      have := d.size_ge
      rw [hword _ (by omega), hlinks.header (by omega) hd]
      exact (tagged_iff.mp h.image.tags p d hd).1
  · rw [hP, hcs]
    exact hftr
  · rw [hcp] at hb
    exact absurd hb (by decide)
  · rw [hp, extent_nil] at hsum
    have hend : E.base + L.heapsize - 4 = P + b.size - 4 := by omega
    have hepi := h.image.epilogue
    have hsame : getw m (P + b.size - 4) = getw s.mem (P + b.size - 4) := by
      refine hlinks.outside (.inr ?_)
      simp only [Layout.heapsize] at hsum
      omega
    rw [hP, hcs, hword _ (by omega), hsame, ← hend, hepi]
    exact epilogueWord_and_thisalloc _
  · refine hf.congr fun i x hx a ha ha' => hm a ?_
    obtain ⟨d, _, _, hap⟩ := hwf.listed_apart hbm i x hx
    have := d.size_ge
    omega

theorem Refines.allocate_empty (h : Refines E s L) (hwf : L.WF) (hL : L.blocks = pre ++ b :: post)
    (hfree : b.alloc = false) (hP : E.base + 16 + extent Block.size pre = P) :
    ∃ t d ys, CsoMalloc.allocate s P 0 = some t ∧ getw t.mem (P - 4) = Block.word d ∧
      P + d.size ≤ E.base + L.heapsize ∧ FreeLists t.mem t.freeLists ys ∧ (∃ i, P ∈ ys i) ∧
      ∀ i, ∀ z ∈ ys i, z + 12 ≤ P ∨ P ≤ z := by
  have hfit := hwf.fits
  have := E.base_high
  have := maxHeap_eq
  have hbg := b.size_ge
  obtain ⟨hbm, hsum⟩ := Layout.row_at hL hP
  obtain ⟨m, heads, hrem, hf, hlinks⟩ := h.image.lists.remove_row (hwf.listed_row E)
    ((hwf.listed_iff E (calcListIndex b.size) P).mpr ⟨b, hbm, hfree, rfl⟩)
  obtain ⟨c, hcs, hca, hcp⟩ : ∃ c : Block, c.size = b.size ∧ c.alloc = false ∧
      c.prevAlloc = true := ⟨⟨b.size, false, true, b.size_ge, b.size_dvd⟩, rfl, rfl, rfl⟩
  obtain ⟨v, hal⟩ := CsoMalloc.allocate_empty (by omega) (by omega)
    (tagged_iff.mp h.image.tags P b hbm).1 hcs hca hcp hrem
  have hopen := h.open_row (t := tagMem (putw (putw m (P - 4) v) (P - 8) v) P c) hwf hL hP hcs hca
    hcp hlinks hf (getw_tagMem_header (by omega) (by omega))
    (by rw [tagMem, hcs, getw_putw (Block.word_lt (by omega))])
    fun a ha => by rw [tagMem_out (by omega) (by omega), putw_out (by omega), putw_out (by omega)]
  obtain ⟨pre', post', d, m₁, heads₁, hj⟩ := hopen.joins
  have hl : leftPart pre c = [] := by simp [leftPart, hcp]
  obtain rfl : pre = pre' := by simpa [hl] using hj.before
  obtain ⟨m₂, heads₂, hco, hhdr, _, hlists, _⟩ := hj.close hopen
  obtain ⟨q, e, hq, hqe⟩ := hj.end_mem
  have hqb := (placed_bounds hq).2
  rw [extent_append, extent_cons, hcs] at hqb
  rw [hP] at hco hhdr hlists hqe
  rw [hco] at hal
  refine ⟨_, d, _, hal, hhdr, by omega, hlists, ⟨calcListIndex d.size, by simp⟩, fun i z hz => ?_⟩
  rcases List.mem_append.mp hz with hz | hz
  · obtain ⟨hz, _⟩ := List.mem_filter.mp hz
    obtain ⟨hne, g, hg, _⟩ := hopen.listed i z hz
    have := g.size_ge
    rcases placed_separated hg (OpenRow.mem_block (E.base + 16) pre post c) with hs | hs | hs
    · exact absurd (congrArg Prod.fst hs) hne
    · omega
    · omega
  · split at hz
    · exact .inr (List.mem_singleton.mp hz).ge
    · exact absurd hz List.not_mem_nil

end Row

section Requests

variable {E : Env} {s : State} {L : Layout} {a n : Nat}

theorem Refines.findFit_least (h : Refines E s L) (hwf : L.WF) (ha : a ≤ 16) :
    findFit s a = none ↔ ∀ i, s.freeLists i = 0 := by
  rw [findFit_none_iff]
  constructor
  · intro hnone i
    by_contra hne
    obtain ⟨o, ho, he⟩ := List.mem_map.mp ((h.image.lists.linked i).head_mem hne)
    obtain ⟨k, hk, rfl⟩ := (hwf.listed.mem_iff i o).mp ho
    have hk16 := (spans_bounds hk).2.2
    refine hnone _ (calcListIndex_mono (ha.trans hk16)) ⟨hne, ?_⟩
    rw [← he, h.image.size_eq hwf hk]
    omega
  · intro hz i _ hfits
    exact hfits.1 (hz i)

theorem Refines.findFit_block (h : Refines E s L) (hwf : L.WF) {bp : Nat} {i : Fin freelistCount}
    (hf : findFit s a = some (bp, i)) :
    ∃ pre b post, L.blocks = pre ++ b :: post ∧ b.alloc = false ∧
      E.base + 16 + extent Block.size pre = bp := by
  obtain ⟨rfl, hfits, _⟩ := CsoMalloc.findFit_some hf
  obtain ⟨b, hb, hfree, _⟩ := (hwf.listed_iff E i _).mp
    ((h.image.lists.linked i).head_mem hfits.1)
  obtain ⟨pre, post, hL, hp⟩ := placed_split hb
  exact ⟨pre, b, post, hL, hfree, hp.symm⟩

theorem Refines.malloc_empty (h : Refines E s L) (hwf : L.WF) (hn : n ≠ 0)
    (ha : adjustBytesize n = 0)
    (hroom : (∃ i, s.freeLists i ≠ 0) ∨ L.heapsize + E.page ≤ maxHeap) :
    ∃ t p, mmMalloc s n = some (t, p) ∧ p ≠ 0 ∧ t.getThissize p ≤ maxHeap := by
  have hfit := hwf.fits
  have := E.base_high
  have := maxHeap_eq
  cases hf : findFit s 0 with
  | some r =>
    obtain ⟨bp, i⟩ := r
    obtain ⟨pre, b, post, hL, hfree, hbp⟩ := h.findFit_block hwf hf
    obtain ⟨t, d, ys, hal, hhdr, hd, hys, ⟨j, hj⟩, hout⟩ := h.allocate_empty hwf hL hfree hbp
    have hkeep := hys.remove_getw (i := i) (y := bp - 4) hj fun z hz hne => by
      have := hout j z hz
      omega
    refine ⟨removeFromList t bp i, bp, ?_, by omega, ?_⟩
    · simp only [mmMalloc, if_neg hn, ha, hf, hal]
      rfl
    · rw [getThissize_eq (by omega) (by omega) (hkeep.trans hhdr)]
      omega
  | none =>
    have hk : L.heapsize + E.page ≤ maxHeap := by
      rcases hroom with ⟨i, hi⟩ | hk
      · exact absurd ((h.findFit_least hwf (by omega)).mp hf i) hi
      · exact hk
    have hopen := Layout.extend_open hwf hk
    have hwf' := Focus.coalesce_wf hopen
    have hfit' := hwf'.fits
    obtain ⟨s₁, he, hr, _⟩ := h.extendHeap hwf hk
    obtain ⟨t, d, ys, hal, hhdr, hd, _⟩ := hr.allocate_empty hwf' rfl (Layout.coalesce_block hopen).1
      (P := E.base + (L.extend E.page).coalesce.offset) (by
        rw [extent_reverse, Focus.offset]
        omega)
    obtain ⟨p, hp⟩ : ∃ p, E.base + (L.extend E.page).coalesce.offset = p := ⟨_, rfl⟩
    rw [hp] at he hal hhdr hd
    have hoff : 16 ≤ (L.extend E.page).coalesce.offset := by simp [Focus.offset]
    refine ⟨t, p, ?_, by omega, ?_⟩
    · simp only [mmMalloc, if_neg hn, ha, hf, h.page, Nat.zero_max, he]
      have hpz : p ≠ 0 := by omega
      simp only [Option.bind_eq_bind, Option.bind_some, if_neg hpz, hal]
      rfl
    · rw [getThissize_eq (by omega) (by omega) hhdr]
      omega

theorem Refines.taken_size {t : State} {page k : Size} {o : Nat} (hwf : L.WF)
    (ht : Refines E t (L.take page k).1) (ho : (L.take page k).2 = some o) :
    E.ptr (L.take page k).2 ≠ 0 ∧ k ≤ t.getThissize (E.ptr (L.take page k).2) ∧
      t.getThissize (E.ptr (L.take page k).2) ≤ maxHeap := by
  have htk := Layout.take_some hwf ho
  have hfit := htk.wf.fits
  have := E.base_pos
  obtain ⟨j, hj, hs⟩ := htk.allocated
  have hsp := (hs (o, j)).mpr (.inl rfl)
  have hb : 16 ≤ o ∧ o + j ≤ (L.take page k).1.heapsize ∧ 16 ≤ j := spans_bounds hsp
  rw [ho, Env.ptr, ht.image.size_eq htk.wf hsp]
  omega

theorem Env.maxSize_page (E : Env) (hk : a ≤ 16) : max a E.page.1 = E.page := by
  have := E.page.2.1
  omega

theorem Refines.malloc_least (h : Refines E s L) (hwf : L.WF) (hn : n ≠ 0)
    (ha : adjustBytesize n = 16)
    (hroom : (∃ i, s.freeLists i ≠ 0) ∨ L.heapsize + E.page ≤ maxHeap) :
    ∃ t p, mmMalloc s n = some (t, p) ∧ p ≠ 0 ∧ t.getThissize p ≤ maxHeap := by
  have hfit := hwf.fits
  have := E.base_high
  have := maxHeap_eq
  let k : Size := ⟨16, by decide⟩
  have hmax : Layout.maxSize k E.page = E.page := if_pos E.page.2.1
  have hpage : E.page.1 + 16 ≤ maxHeap := E.room
  obtain ⟨t, he, hr, _⟩ := h.take hwf (a := k) hn ha (by rw [hmax]; omega) (by rw [hmax]; omega)
  obtain ⟨o, ho⟩ : ∃ o, (L.take E.page k).2 = some o := by
    cases hf : L.findFit k with
    | some o => exact ⟨o, by simp [Layout.take, hf]⟩
    | none =>
      have hfs : findFit s k = none := by simpa [hf] using h.image.findFit_eq hwf k
      have hk : L.heapsize + Layout.maxSize k E.page ≤ maxHeap := by
        rw [hmax]
        rcases hroom with ⟨i, hi⟩ | hk
        · exact absurd ((h.findFit_least hwf le_rfl).mp hfs i) hi
        · exact hk
      exact ⟨(L.extend (Layout.maxSize k E.page)).coalesce.offset, by simp [Layout.take, hf, hk]⟩
  obtain ⟨hz, _, hle⟩ := hr.taken_size hwf ho
  exact ⟨t, _, he, hz, hle⟩

theorem Refines.malloc_exhausted (h : Refines E s L) (hwf : L.WF) (hn : n ≠ 0)
    (ha : adjustBytesize n ≤ 16) (hz : ∀ i, s.freeLists i = 0)
    (hk : maxHeap < L.heapsize + E.page) : mmMalloc s n = some (s, 0) := by
  have hfit := hwf.fits
  have := E.base_high
  have hpage : E.page.1 + 16 ≤ maxHeap := E.room
  have := maxHeap_eq
  have hf := (h.findFit_least hwf ha).mpr hz
  simp only [mmMalloc, if_neg hn, hf, h.page, E.maxSize_page ha]
  rw [h.extendHeap_full hk (by omega) (by omega)]
  simp

theorem Refines.extendHeap_negative {k : Nat} (hk : 2 ^ 31 ≤ k) (hlt : k < 2 ^ 32) :
    CsoMalloc.extendHeap s k = some (s, 0) := by
  have hneg : toInt k < 0 := by
    rw [toInt, if_neg (by omega)]
    omega
  simp [CsoMalloc.extendHeap, State.memSbrk, hneg]

theorem Refines.taken_holds (hwf : L.WF) {t : State}
    (ht : Refines E t (L.take E.page (fitSize n)).1)
    (hz : E.ptr (L.take E.page (fitSize n)).2 ≠ 0) :
    n + wsize ≤ t.getThissize (E.ptr (L.take E.page (fitSize n)).2) := by
  cases ho : (L.take E.page (fitSize n)).2 with
  | none =>
    rw [ho] at hz
    exact absurd rfl hz
  | some o =>
    have hs := (ht.taken_size hwf ho).2.1
    rw [ho] at hs
    exact (fitSize_ge n).trans hs

/-- As long as the rounding does not wrap, the block that is returned holds the
request, even where the break wraps. -/
theorem Refines.malloc_holds (h : Refines E s L) (hwf : L.WF) (hn : n ≠ 0)
    (hle : n ≤ 2 ^ 32 - 12) :
    ∃ t p, mmMalloc s n = some (t, p) ∧ (p ≠ 0 → n + wsize ≤ t.getThissize p) := by
  have hfit := hwf.fits
  have := E.base_high
  have hpage : E.page.1 + 16 ≤ maxHeap := E.room
  have := maxHeap_eq
  have ha : adjustBytesize n = fitSize n := adjustBytesize_eq hle
  have hge : n + wsize ≤ fitSize n := fitSize_ge n
  have hlt : (fitSize n).1 < 2 ^ 32 := by
    simp only [fitSize]
    omega
  cases hf : L.findFit (fitSize n) with
  | some o =>
    obtain ⟨t, he, ht, _⟩ := h.take_fit hwf hn ha hf
    exact ⟨t, _, he, ht.taken_holds hwf⟩
  | none =>
    have hfs : findFit s (fitSize n) = none := by
      simpa [hf] using h.image.findFit_eq hwf (fitSize n)
    have heq : mmMalloc s n =
        (CsoMalloc.extendHeap s (Layout.maxSize (fitSize n) E.page)).bind fun r =>
          if r.2 = 0 then some (r.1, 0)
          else (allocate r.1 r.2 (fitSize n)).bind fun t => some (t, r.2) := by
      simp only [mmMalloc, if_neg hn, ha, hfs, h.max_eq]
      rfl
    obtain ⟨k, hk⟩ : ∃ k, Layout.maxSize (fitSize n) E.page = k := ⟨_, rfl⟩
    have hkcases : k = E.page ∨ k = fitSize n := by
      rw [← hk, Layout.maxSize]
      split
      · exact .inl rfl
      · exact .inr rfl
    by_cases hneg : 2 ^ 31 ≤ k.1
    · have hklt : k.1 < 2 ^ 32 := by
        rcases hkcases with rfl | rfl
        · omega
        · exact hlt
      rw [hk, Refines.extendHeap_negative hneg hklt] at heq
      exact ⟨s, 0, heq, fun hz => absurd rfl hz⟩
    · by_cases hw : E.base + L.heapsize + k < 2 ^ 32
      · obtain ⟨t, he, ht, _⟩ := h.take hwf hn ha (by rw [hk]; omega) (by rw [hk]; exact hw)
        exact ⟨t, _, he, ht.taken_holds hwf⟩
      · have hkn : k = fitSize n := by
          rcases hkcases with rfl | hkn
          · omega
          · exact hkn
        obtain ⟨t, t', p, he, hp, hal, hsz⟩ := h.wrap_size hwf (k := k) (by omega) (by omega)
        rw [hkn] at hal hsz
        refine ⟨t', p, ?_, fun _ => hsz ▸ hge⟩
        rw [heq, hk, he, Option.bind_some, if_neg hp, hal]
        rfl

end Requests

section Runs

variable {E : Env} {rs : List Request} {w : World} {n : Nat}

/-- In every reachable state and for every request, a block that `mm_malloc`
returns holds the bytes asked for exactly when the rounding of the request does
not wrap, or when there is no block to return. -/
theorem capacity_iff_not_wrapped (h : Run E rs w) (hn : 1 ≤ n) (hlt : n < 2 ^ 32) :
    (∃ s p, mmMalloc w.heap n = some (s, p) ∧ (p ≠ 0 → n + wsize ≤ s.getThissize p)) ↔
      n ≤ 2 ^ 32 - 12 ∨ (∀ i, w.heap.freeLists i = 0) ∧
        w.heap.memMaxAddr < w.heap.memBrk + w.heap.adjustedPagesize := by
  obtain ⟨hm, hwf⟩ := h.matches
  have hr := hm.heap
  have := maxHeap_eq
  obtain ⟨L, hL⟩ : ∃ L, (Plan.run E.page rs).layout = L := ⟨_, rfl⟩
  have hwfL : L.WF := hL ▸ hwf.layout
  rw [hL] at hr
  have hn0 : n ≠ 0 := by omega
  have hfull : w.heap.memMaxAddr < w.heap.memBrk + w.heap.adjustedPagesize ↔
      maxHeap < L.heapsize + E.page := by
    rw [hr.maxAddr, hr.brk, hr.page]
    omega
  rw [hfull]
  constructor
  · rintro ⟨s, p, he, hp⟩
    by_contra hnot
    obtain ⟨hbig, hroom⟩ := not_or.mp hnot
    have hroom' : (∃ i, w.heap.freeLists i ≠ 0) ∨ L.heapsize + E.page ≤ maxHeap := by
      rcases not_and_or.mp hroom with hi | hk
      · exact .inl (not_forall.mp hi)
      · exact .inr (not_lt.mp hk)
    have hshort : ∃ t q, mmMalloc w.heap n = some (t, q) ∧ q ≠ 0 ∧ t.getThissize q ≤ maxHeap := by
      by_cases hz : n ≤ 2 ^ 32 - 4
      · exact hr.malloc_empty hwfL hn0 (adjustBytesize_zero (by omega) hz) hroom'
      · exact hr.malloc_least hwfL hn0 (adjustBytesize_wrapped (by omega) hlt) hroom'
    obtain ⟨t, q, het, hq, hle⟩ := hshort
    obtain ⟨rfl, rfl⟩ := Prod.mk.inj (Option.some.inj (he.symm.trans het))
    have := hp hq
    omega
  · rintro (hle | ⟨hz, hk⟩)
    · exact hr.malloc_holds hwfL hn0 hle
    · by_cases hle : n ≤ 2 ^ 32 - 12
      · exact hr.malloc_holds hwfL hn0 hle
      · have ha : adjustBytesize n ≤ 16 := by
          by_cases hz' : n ≤ 2 ^ 32 - 4
          · rw [adjustBytesize_zero (by omega) hz']
            omega
          · rw [adjustBytesize_wrapped (by omega) hlt]
        exact ⟨w.heap, 0, hr.malloc_exhausted hwfL hn0 ha hz hk, fun hp => absurd rfl hp⟩

theorem capacity_iff_not_wrapped_small :
    ∃ w, Run Env.small [.malloc 24] w ∧
      ∃ s p, mmMalloc w.heap 5000 = some (s, p) ∧ (p ≠ 0 → 5004 ≤ s.getThissize p) := by
  obtain ⟨w, hw⟩ := exists_run Env.small [.malloc 24] (by decide)
  exact ⟨w, hw, (capacity_iff_not_wrapped hw (by decide) (by decide)).mpr (.inl (by decide))⟩

/-- Right after `mm_init` a request for `2 ^ 32 - 1` bytes gets a block of 16. -/
theorem capacity_missed :
    ∃ w s p, Run Env.small [] w ∧ mmMalloc w.heap (2 ^ 32 - 1) = some (s, p) ∧ p ≠ 0 ∧
      s.getThissize p = 16 ∧ ¬ 2 ^ 32 - 1 + wsize ≤ s.getThissize p := by
  obtain ⟨w, hw⟩ := exists_run Env.small [] (by decide)
  obtain ⟨hm, hwf⟩ := hw.matches
  let k : Size := ⟨16, by decide⟩
  obtain ⟨s, he, hr, _⟩ := hm.heap.take hwf.layout (n := 2 ^ 32 - 1) (a := k) (by decide)
    (adjustBytesize_wrapped (by decide) (by decide)) (by decide) (by decide)
  have ho : ((Plan.run Env.small.page []).layout.take Env.small.page k).2 = some 16 := by decide
  have hsize : s.getThissize (Env.small.base + 16) = 16 :=
    hr.image.size_eq (Layout.take_some hwf.layout ho).wf (a := true) (by decide)
  rw [ho] at he
  refine ⟨w, s, Env.small.base + 16, hw, he, by decide, hsize, ?_⟩
  rw [hsize]
  decide

end Runs

end CsoMalloc
