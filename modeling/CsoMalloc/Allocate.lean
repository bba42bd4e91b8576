import CsoMalloc.Coalesce

/-! `allocate` hands out a free block, whole or split. The links of the block
handed out survive in its payload; the second `remove_from_list` of `mm_malloc`
still reads them. -/

namespace CsoMalloc

open ByteMemory Tiling

/-- Setting `PREVALLOC` in the header at address `a`. -/
def markMem (m : Mem) (a : Nat) : Mem := putw m a (getw m a ||| prevalloc)

section Equations

variable {s s₁ : State} {p : Nat} {b : Block}

theorem putw_tags (hp : 4 ≤ p) (hlt : p + b.size + 4 ≤ 2 ^ 32) {w : Nat} (hw : w = b.word) :
    (s.putw (State.getBlockhdr p) w).putw
        ((s.putw (State.getBlockhdr p) w).getBlockftr p) w =
      { s with mem := tagMem s.mem p b } := by
  subst hw
  have hftr : (s.putw (p - 4) b.word).getBlockftr p = p + b.size - 8 :=
    getBlockftr_eq hp (by omega) (getw_putw (Block.word_lt (by omega)))
  rw [getBlockhdr_eq hp (by omega), hftr]
  rfl

theorem allocate_split (hp : 4 ≤ p) (hlt : p + b.size + 4 ≤ 2 ^ 32)
    (hb : getw s.mem (p - 4) = b.word) {front rest : Block} (hfa : front.alloc = true)
    (hfp : front.prevAlloc = b.prevAlloc) (hra : rest.alloc = false) (hrp : rest.prevAlloc = true)
    (hsz : front.size + rest.size = b.size)
    (hs : removeFromList s p (calcListIndex b.size) = s₁) :
    allocate s p front.size =
      (coalesce { s₁ with mem := tagMem (tagMem s₁.mem p front) (p + front.size) rest }
        (p + front.size)).bind fun t => some t.1 := by
  have hfg := front.size_ge
  have hrg := rest.size_ge
  have h1 := getThissize_eq hp (by omega) hb
  have h2 := getPrevalloc_eq hp (by omega) hb
  have h3 : wsub b.size front.size = rest.size := by
    rw [wsub_eq (by omega) (by omega)]
    omega
  have hpf : pack front.size (thisalloc ||| 2 * b.prevAlloc.toNat) = front.word := by
    rw [← hfp]
    exact Block.pack_alloc hfa
  have hpr : pack rest.size prevalloc = rest.word := by
    have := Block.pack_free hra
    rwa [hrp] at this
  have h4 : ({ s₁ with mem := tagMem s₁.mem p front } : State).getNextblock p = p + front.size :=
    getNextblock_eq hp (by omega) (getw_tagMem_header hp (by omega))
  have h5 := putw_tags (s := s₁) (b := front) hp (by omega) rfl
  have h6 := putw_tags (s := { s₁ with mem := tagMem s₁.mem p front }) (b := rest)
    (p := p + front.size) (by omega) (by omega) rfl
  simp only [allocate, h1, h2, hs, h3, hpf, hpr]
  rw [if_pos (by simp only [minSize, wsize]; omega)]
  simp only [h5, h4, h6]
  rfl

theorem allocate_whole (hp : 4 ≤ p) (hlt : p + b.size + 4 ≤ 2 ^ 32)
    (hb : getw s.mem (p - 4) = b.word) {a : Nat} (ha : a ≤ b.size) (hlt' : b.size < a + 16)
    (hs : removeFromList s p (calcListIndex b.size) = s₁) :
    allocate s p a = some { s₁ with
      mem := markMem (tagMem s₁.mem p { b with alloc := true }) (p + b.size - 4) } := by
  have hbg := b.size_ge
  have h1 := getThissize_eq hp (by omega) hb
  have h2 := getPrevalloc_eq hp (by omega) hb
  have h3 : wsub b.size a = b.size - a := wsub_eq (by omega) (by omega)
  have hpf : pack b.size (thisalloc ||| 2 * b.prevAlloc.toNat) = { b with alloc := true }.word :=
    Block.pack_alloc (b := { b with alloc := true }) rfl
  have h4 : ({ s₁ with mem := tagMem s₁.mem p { b with alloc := true } } : State).getNextblock p =
      p + b.size :=
    getNextblock_eq (b := { b with alloc := true }) hp (by simp only; omega)
      (getw_tagMem_header hp (by simp only; omega))
  have h5 := putw_tags (s := s₁) (b := { b with alloc := true }) hp (by simpa using hlt) rfl
  simp only [allocate, h1, h2, hs, h3, hpf]
  rw [if_neg (by simp only [minSize, wsize]; omega)]
  simp only [h5, h4, getBlockhdr_eq (p := p + b.size) (by omega) (by omega)]
  rfl

end Equations

section Refines

variable {E : Env} {s : State} {m : Mem} {heads : Fin freelistCount → Nat} {f : Focus}

section Mark

variable {before rest : List Block} {block n : Block} {e : Bool} {lists : Lists} {P : Nat}

theorem markMem_out (hP : 4 ≤ P) {a : Nat} (ha : a + 4 < P ∨ P ≤ a) : markMem m (P - 4) a = m a :=
  putw_out (by omega)

theorem getw_markMem_ne (hP : 4 ≤ P) {x : Nat} (hx : x + 8 ≤ P ∨ P ≤ x) :
    getw (markMem m (P - 4)) x = getw m x :=
  getw_congr fun a ha ha' => markMem_out hP (by omega)

theorem Image.mark_epilogue (h : Image E m heads (Focus.layout ⟨before, block, [], e, lists⟩))
    (hP : E.base + (16 + extent Block.size before) + block.size = P)
    (hf : FreeLists (markMem m (P - 4)) heads (fun i => (lists i).map (E.base + ·))) :
    Image E (markMem m (P - 4)) heads (Focus.markNext ⟨before, block, [], e, lists⟩).layout := by
  have hge := block.size_ge
  have he := h.next_epilogue rfl
  simp only [Focus.offset, hP] at he
  refine ⟨?_, ?_, ?_, ?_, ?_, hf⟩
  · rw [getw_markMem_ne (by omega) (by omega), h.padding]
  · rw [getw_markMem_ne (by omega) (by omega), h.prologueHdr]
  · rw [getw_markMem_ne (by omega) (by omega), h.prologueFtr]
  · refine h.tags.congr (by omega) fun a ha ha' => markMem_out (by omega) ?_
    simp only [Focus.layout, extent_append, extent_reverse, extent_cons, extent_nil] at ha'
    omega
  · have hs : E.base + (Focus.markNext ⟨before, block, [], e, lists⟩).layout.heapsize - 4 =
        P - 4 := by
      simp only [Focus.markNext, Focus.layout, Layout.heapsize, extent_append, extent_reverse,
        extent_cons, extent_nil]
      omega
    rw [hs, markMem, he, epilogueWord_or_prevalloc, getw_putw (by decide)]
    rfl

theorem Image.mark_header (h : Image E m heads (Focus.layout ⟨before, block, n :: rest, e, lists⟩))
    (hfit : (Focus.layout ⟨before, block, n :: rest, e, lists⟩).heapsize ≤ maxHeap)
    (hP : E.base + (16 + extent Block.size before) + block.size = P)
    (hf : FreeLists (markMem m (P - 4)) heads (fun i => (lists i).map (E.base + ·))) :
    Image E (markMem m (P - 4)) heads (Focus.markNext ⟨before, block, n :: rest, e, lists⟩).layout := by
  have hhs := Focus.heapsize_layout ⟨before, block, n :: rest, e, lists⟩
  have hge := block.size_ge
  have hng := n.size_ge
  have := E.base_high
  have := maxHeap_eq
  have hn := h.next_header rfl
  simp only [Focus.offset, hP] at hn
  simp only [Focus.offset, extent_cons] at hhs
  have hpre : E.base + 16 + extent Block.size (before.reverse ++ [block]) = P := by
    simp only [extent_append, extent_reverse, extent_cons, extent_nil]
    omega
  have hi : Image E m heads ⟨(before.reverse ++ [block]) ++ ([n] ++ rest), e, lists⟩ := by
    simpa [Focus.layout] using h
  have ht := hi.tags
  simp only [@tagged_append _ _ (before.reverse ++ [block]), hpre, List.cons_append,
    List.nil_append, Tagged] at ht
  have htag : Tagged (markMem m (P - 4)) P [{ n with prevAlloc := true }] := by
    refine ⟨?_, fun hfree => ?_, trivial⟩
    · rw [markMem, hn, Block.word_or_prevalloc, getw_putw (Block.word_lt (by simp only; omega))]
    · rw [getw_markMem_ne (by omega) (by simp only; omega)]
      exact ht.2.2.1 hfree
  have hr := hi.retag (markMem m (P - 4)) [{ n with prevAlloc := true }] (by simp)
    (fun a ha => markMem_out (by omega) (by rw [hpre] at ha; simp at ha; omega))
    (by rw [hpre]; exact htag) hf
  simpa [Focus.markNext, Focus.layout] using hr

/-- The header behind the block learns that its predecessor is in use. -/
theorem Image.mark (h : Image E m heads f.layout) (hfit : f.layout.heapsize ≤ maxHeap)
    (hout : ∀ i, ∀ o ∈ f.lists i, o + 12 ≤ f.offset ∨ f.offset + f.block.size ≤ o) :
    Image E (markMem m (E.base + f.offset + f.block.size - 4)) heads f.markNext.layout ∧
      Keeps E f.layout m (markMem m (E.base + f.offset + f.block.size - 4)) := by
  have hge := f.block.size_ge
  constructor
  · have hf : FreeLists (markMem m (E.base + f.offset + f.block.size - 4)) heads
        (fun i => (f.lists i).map (E.base + ·)) :=
      h.lists.of_out fun i o hoi a ha ha' => markMem_out (by omega) (by have := hout i o hoi; omega)
    obtain ⟨before, block, after, e, lists⟩ := f
    cases after with
    | nil => exact h.mark_epilogue rfl hf
    | cons n rest => exact h.mark_header hfit rfl hf
  · intro o n hon a ha ha'
    refine putw_out ?_
    rcases Focus.mem_spans_layout.mp hon with hx | ⟨_, hx⟩ | hx
    · have := spans_bounds hx
      simp only [extent_reverse] at this
      simp only [Focus.offset]
      omega
    · obtain ⟨rfl, rfl⟩ := Prod.mk.inj hx
      omega
    · have := spans_bounds hx
      omega

end Mark

theorem Image.split {front rest : Block} (h : Image E m heads f.layout) (ho : f.Open)
    (hsz : front.size + rest.size = f.block.size) :
    Image E (tagMem (tagMem m (E.base + f.offset) front) (E.base + f.offset + front.size) rest) heads
        (Focus.layout ⟨front :: f.before, rest, f.after, f.epiPrev, f.lists⟩) ∧
      Keeps E f.layout m
        (tagMem (tagMem m (E.base + f.offset) front) (E.base + f.offset + front.size) rest) := by
  obtain ⟨before, block, after, e, lists⟩ := f
  have hfree : block.alloc = false := ho.free
  have hfit := ho.fits
  have := maxHeap_eq
  have hfg := front.size_ge
  have hrg := rest.size_ge
  simp only [Focus.heapsize_layout] at hfit
  have hout := ho.listed_out
  simp only [Focus.offset] at hfit hout hsz ⊢
  have hpre : E.base + 16 + extent Block.size before.reverse =
      E.base + (16 + extent Block.size before) := by
    rw [extent_reverse]
    omega
  have hm : ∀ a, a + 4 < E.base + 16 + extent Block.size before.reverse ∨
      E.base + 16 + extent Block.size before.reverse + extent Block.size [block] ≤ a + 4 →
      tagMem (tagMem m (E.base + (16 + extent Block.size before)) front)
        (E.base + (16 + extent Block.size before) + front.size) rest a = m a := by
    intro a ha
    rw [hpre, extent_cons, extent_nil] at ha
    rw [tagMem_out (by omega) (by omega), tagMem_out (by omega) (by omega)]
  have hi : Image E m heads ⟨before.reverse ++ ([block] ++ after), e, lists⟩ := h
  constructor
  · have hr := hi.retag _ [front, rest] (by simpa using hsz) hm ?_
      (h.lists.of_out fun i o hoi a ha ha' => hm a ?_)
    · simpa [Focus.layout] using hr
    · rw [hpre]
      refine ⟨?_, fun _ => ?_, tagged_tagMem (by omega) (by omega)⟩
      · rw [getw_tagMem_ne (by omega) (by omega), getw_tagMem_header (by omega) (by omega)]
      · rw [getw_tagMem_ne (by omega) (by omega)]
        exact (tagged_tagMem (by omega) (by omega)).2.1 ‹_›
    · have := hout i hoi
      rw [hpre, extent_cons, extent_nil]
      omega
  · exact Keeps.of_retag _ hm (by simp [hfree])

/-- Writing other flags into the tags of a block that no list touches. -/
theorem Image.tag (h : Image E m heads f.layout) (hfit : f.layout.heapsize ≤ maxHeap)
    (hout : ∀ i, ∀ o ∈ f.lists i, o + 12 ≤ f.offset ∨ f.offset + f.block.size ≤ o) {b : Block}
    (hb : b.size = f.block.size) :
    Image E (tagMem m (E.base + f.offset) b) heads (Focus.layout { f with block := b }) ∧
      ∀ {g : Focus}, g.before = f.before → g.after = f.after → g.block.size = f.block.size →
        g.block.alloc = false → Keeps E g.layout m (tagMem m (E.base + f.offset) b) := by
  obtain ⟨before, block, after, e, lists⟩ := f
  have := maxHeap_eq
  have hge := block.size_ge
  simp only [Focus.heapsize_layout, Focus.offset] at hfit hout hb ⊢
  have hpre : E.base + 16 + extent Block.size before.reverse =
      E.base + (16 + extent Block.size before) := by
    rw [extent_reverse]
    omega
  have hm : ∀ a, a + 4 < E.base + 16 + extent Block.size before.reverse ∨
      E.base + 16 + extent Block.size before.reverse + block.size ≤ a + 4 →
      tagMem m (E.base + (16 + extent Block.size before)) b a = m a := by
    intro a ha
    rw [hpre] at ha
    exact tagMem_out (by omega) (by omega)
  have hi : Image E m heads ⟨before.reverse ++ ([block] ++ after), e, lists⟩ := h
  constructor
  · refine hi.retag _ [b] (by simpa using hb) (by simpa using hm) ?_
      (h.lists.of_out fun i o hoi a ha ha' => hm a ?_)
    · rw [hpre]
      exact tagged_tagMem (by omega) (by omega)
    · have := hout i o hoi
      rw [hpre]
      omega
  · rintro ⟨_, c, _, e', lists'⟩ rfl rfl hc hfree
    rw [← show c.size = block.size from hc] at hm
    exact Keeps.of_retag [c] (by simpa using hm) (by simpa using hfree)

section Opened

variable {t : State} (h : Image E t.mem t.freeLists f.layout) (ho : f.Open)
  (hs : removeFromList s (E.base + f.offset) (calcListIndex f.block.size) = t)
  (hhdr : getw s.mem (E.base + f.offset - 4) = f.block.word)

include h ho hs hhdr

theorem Image.allocate_split {front rest : Block}
    (hg : Focus.Open ⟨front :: f.before, rest, f.after, f.epiPrev, f.lists⟩)
    (hfa : front.alloc = true) (hfp : front.prevAlloc = f.block.prevAlloc)
    (hrp : rest.prevAlloc = true) (hsz : front.size + rest.size = f.block.size) :
    ∃ m heads, CsoMalloc.allocate s (E.base + f.offset) front.size =
        some { t with mem := m, freeLists := heads } ∧
      Image E m heads
        (Focus.coalesce ⟨front :: f.before, rest, f.after, f.epiPrev, f.lists⟩).layout ∧
      Keeps E f.layout t.mem m ∧
      ∀ x, E.base + f.offset ≤ x → x < E.base + f.offset + 8 → m x = t.mem x := by
  have hfit := ho.fits
  rw [f.heapsize_layout] at hfit
  have := E.base_high
  have := maxHeap_eq
  have hoff : 16 ≤ f.offset := by simp [Focus.offset]
  have hfg := front.size_ge
  have hrg := rest.size_ge
  have hgo : Focus.offset ⟨front :: f.before, rest, f.after, f.epiPrev, f.lists⟩ =
      f.offset + front.size := by
    simp only [Focus.offset, extent_cons]
    omega
  obtain ⟨hi₂, hk₂⟩ := h.split ho hsz
  obtain ⟨m, heads, he, hi₃, hk₃⟩ := Image.coalesce (s := { t with
    mem := tagMem (tagMem t.mem (E.base + f.offset) front)
      (E.base + f.offset + front.size) rest }) hi₂ hg
  rw [hgo, ← Nat.add_assoc] at he
  have hspan := fun x : Nat × Nat => (Focus.mem_spans_split f.epiPrev f.lists x hfa hg.free
    hsz ho.free).mpr
  refine ⟨m, heads, ?_, hi₃, hk₂.trans hk₃ fun x hx => hspan x (.inr hx), fun x hx hx' => ?_⟩
  · rw [CsoMalloc.allocate_split (by omega) (by omega) hhdr hfa hfp hg.free hrp hsz hs, he]
    rfl
  · obtain ⟨y, rfl⟩ : ∃ y, x = E.base + y := ⟨x - E.base, by omega⟩
    refine (hk₃ _ _ (hspan _ (.inl rfl)) y (by omega) (by omega)).trans ?_
    exact (tagMem_out (by omega) (by omega)).trans (tagMem_out (by omega) (by omega))

theorem Image.allocate_whole {a : Nat} (ha : a ≤ f.block.size) (ha' : f.block.size < a + 16) :
    ∃ m, CsoMalloc.allocate s (E.base + f.offset) a = some { t with mem := m } ∧
      Image E m t.freeLists
        (Focus.markNext { f with block := { f.block with alloc := true } }).layout ∧
      Keeps E f.layout t.mem m ∧
      ∀ x, E.base + f.offset ≤ x → x < E.base + f.offset + 8 → m x = t.mem x := by
  have hfit := ho.fits
  have hhs := f.heapsize_layout
  have := E.base_high
  have := maxHeap_eq
  have hoff : 16 ≤ f.offset := by simp [Focus.offset]
  have hge := f.block.size_ge
  obtain ⟨hi₂, hk₂⟩ := h.tag hfit (fun i o hoi => ho.listed_out i hoi)
    (b := { f.block with alloc := true }) rfl
  have hk₂ := hk₂ (g := f) rfl rfl rfl ho.free
  obtain ⟨hi₃, hk₃⟩ := hi₂.mark (by simpa [Focus.layout, Layout.heapsize] using hfit)
    fun i o hoi => ho.listed_out i hoi
  refine ⟨_, CsoMalloc.allocate_whole (by omega) (by omega) hhdr ha ha' hs, hi₃,
    hk₂.trans hk₃ fun x hx => ?_, fun x hx hx' => ?_⟩
  · rw [Focus.mem_spans_layout] at hx ⊢
    rw [ho.free] at hx
    simp only [Bool.false_eq_true, false_and, false_or] at hx
    exact hx.imp_right .inr
  · rw [markMem, putw_out (by omega), tagMem_out (by omega) (by simp only; omega)]

end Opened

/-- `allocate` on a free block. The first two words of the payload keep the
links that the block had on its list. -/
theorem Image.allocate (h : Image E s.mem s.freeLists f.layout) (hwf : f.layout.WF)
    (hfree : f.block.alloc = false) {a : Size} (ha : a ≤ f.block.size) :
    ∃ m heads, CsoMalloc.allocate s (E.base + f.offset) a =
        some { s with mem := m, freeLists := heads } ∧
      Image E m heads (f.place a) ∧ Keeps E f.layout s.mem m ∧
      ∀ x, E.base + f.offset ≤ x → x < E.base + f.offset + 8 → m x = s.mem x := by
  have ho := Focus.open_of_free hwf hfree
  have hself : (f.offset, f.block.size) ∈ spans false 16 f.layout.blocks :=
    hfree ▸ f.mem_spans_block
  obtain ⟨m₁, heads₁, he₁, hi₁, hl₁⟩ := h.remove hwf.listed hself fun x hx => hx
  have hk₁ : Keeps E f.layout s.mem m₁ := Keeps.of_links hl₁ fun x hx => (List.mem_filter.mp hx).1
  have hb₁ : ∀ x, E.base + f.offset ≤ x → x < E.base + f.offset + 8 → m₁ x = s.mem x := by
    intro x hx hx'
    refine hl₁ x fun q k hq => ?_
    obtain ⟨hq, hne⟩ := List.mem_filter.mp hq
    have := (spans_bounds hq).2.2
    have := f.block.size_ge
    rcases spans_separated hq hself with h | h | h
    · simp [h.1] at hne
    · omega
    · omega
  unfold Focus.place
  split
  · next hsp =>
    obtain ⟨m, heads, he, hi, hk, hb⟩ := Image.allocate_split
      (t := { s with mem := m₁, freeLists := heads₁ }) hi₁ ho he₁ h.header
      (Focus.split_open ho a hsp (Nat.dvd_sub f.block.size_dvd a.2.2)) rfl rfl rfl (by simp only; omega)
    exact ⟨m, heads, he, hi, hk₁.trans (t := m₁) hk fun x hx => hx,
      fun x hx hx' => (hb x hx hx').trans (hb₁ x hx hx')⟩
  · next hsp =>
    obtain ⟨m, he, hi, hk, hb⟩ := Image.allocate_whole
      (t := { s with mem := m₁, freeLists := heads₁ }) hi₁ ho he₁ h.header ha
      (by simp only; omega)
    exact ⟨m, heads₁, he, hi, hk₁.trans (t := m₁) hk fun x hx => hx,
      fun x hx hx' => (hb x hx hx').trans (hb₁ x hx hx')⟩

end Refines

end CsoMalloc
