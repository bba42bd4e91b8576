import CsoMalloc.Refinement
import CsoMalloc.LayoutSteps

/-! `coalesce` merges a free block with its free neighbours. The four cases of
the source come down to the same thing: unlink the neighbours, write the tags
of the joined block, list it. -/

namespace CsoMalloc

open ByteMemory Tiling

section Cases

variable {s s₁ s₂ : State} {p : Nat} {l b n : Block}

/-- Case 1; the end of the block may lie behind the end of the address space. -/
theorem coalesce_alone (hlt : b.size + 4 ≤ 2 ^ 32)
    (hb : getw s.mem (State.getBlockhdr p) = b.word) (hpa : b.prevAlloc = true)
    (hn : getw s.mem (State.getBlockhdr (wadd p b.size)) &&& thisalloc = 1) :
    coalesce s p = (addToList s p (calcListIndex b.size)).bind fun t => some (t, p) := by
  have h1 := getPrevalloc_of_header hb
  have h2 := getNextalloc_of_header hlt hb
  have h3 := getThissize_of_header hlt hb
  rw [hpa] at h1
  rw [hn] at h2
  simp [coalesce, h1, h2, h3]

/-- Case 1 where the block has room on its list. Only links are written. -/
theorem coalesce_alone_listed {xs : Fin freelistCount → List Nat} (hlt : b.size + 4 ≤ 2 ^ 32)
    (hb : getw s.mem (State.getBlockhdr p) = b.word) (hpa : b.prevAlloc = true)
    (hn : getw s.mem (State.getBlockhdr (wadd p b.size)) &&& thisalloc = 1)
    (hlists : FreeLists s.mem s.freeLists xs) (hp : p + 8 ≤ 2 ^ 32)
    (hnew : ∀ j, ∀ x ∈ xs j, x ≠ p ∧ Apart x p) :
    ∃ t, coalesce s p = some (t, p) ∧ ∀ y, (y + 4 ≤ p ∨ p + 8 ≤ y) →
      (∀ j, ∀ x ∈ xs j, y + 4 ≤ x ∨ x + 8 ≤ y) → getw t.mem y = getw s.mem y := by
  have hco := coalesce_alone hlt hb hpa hn
  rw [addToList_eq (calcListIndex b.size) hlists hp hnew] at hco
  refine ⟨_, hco, fun y hy hlinks => getw_congr fun a ha ha' => linkMem_out fun c hc => ?_⟩
  rcases List.mem_cons.mp hc with rfl | hc
  · omega
  · have := hlinks _ c (List.mem_of_mem_getLast? (by simpa using hc))
    omega

theorem coalesce_neither (hp : 4 ≤ p) (hlt : p + b.size ≤ 2 ^ 32)
    (hb : getw s.mem (p - 4) = b.word) (hpa : b.prevAlloc = true)
    (hn : getw s.mem (p + b.size - 4) &&& thisalloc = 1) :
    coalesce s p = (addToList s p (calcListIndex b.size)).bind fun t => some (t, p) := by
  have hh : State.getBlockhdr (wadd p b.size) = p + b.size - 4 := by
    have := b.size_ge
    simp only [State.getBlockhdr, wsize, wadd, wsub]
    omega
  refine coalesce_alone (by omega) (header_eq hp hlt hb) hpa ?_
  rw [hh, hn]

theorem coalesce_next (hp : 4 ≤ p) (hlt : p + b.size + n.size ≤ 2 ^ 32)
    (hb : getw s.mem (p - 4) = b.word) (hpa : b.prevAlloc = true) (hbf : b.alloc = false)
    (hn : getw s.mem (p + b.size - 4) = n.word) (hnf : n.alloc = false)
    (hs : removeFromList s (p + b.size) (calcListIndex n.size) = s₁)
    (hn₁ : getw s₁.mem (p + b.size - 4) = n.word) :
    coalesce s p = (addToList { s₁ with mem := tagMem s₁.mem p (b.join n) } p
      (calcListIndex (b.join n).size)).bind fun t => some (t, p) := by
  have hbg := b.size_ge
  have hng := n.size_ge
  have h1 := getPrevalloc_eq hp (by omega) hb
  have h2 := getNextalloc_eq hp (by omega) hb
  have h3 := getThissize_eq hp (by omega) hb
  have h4 := getNextblock_eq hp (by omega) hb
  have h5 := getThissize_eq (p := p + b.size) (by omega) (by omega) hn
  have h6 := getThissize_eq (p := p + b.size) (by omega) (by omega) hn₁
  rw [hpa] at h1
  rw [hn, Block.word_and_thisalloc, hnf] at h2
  have hpk : pack (b.join n).size (2 * (b.join n).prevAlloc.toNat) = (b.join n).word :=
    Block.pack_free (by simpa [Block.join] using hbf)
  have hsz : wadd b.size (s₁.getSize (State.getBlockhdr (p + b.size))) = (b.join n).size := by
    rw [State.getThissize] at h6
    rw [h6, wadd_eq (by omega)]
    rfl
  have hpj : (b.join n).prevAlloc = true := hpa
  rw [hpj] at hpk
  have hhdr := getBlockhdr_eq hp (by omega : p < 2 ^ 32)
  have hlt' : p + (b.join n).size ≤ 2 ^ 32 := by simp only [Block.join]; omega
  have hftr : (s₁.putw (p - 4) (b.join n).word).getBlockftr p = p + (b.join n).size - 8 :=
    getBlockftr_eq hp hlt' (getw_putw (Block.word_lt (by omega)))
  simp only [coalesce, h1, h2, h3, h4, h5, hs, hsz, hhdr, hpk, hftr]
  rfl

/-- Case 3; the end of the block may lie behind the end of the address space. -/
theorem coalesce_prev_alone (hp : l.size + 4 ≤ p) (hp' : p < 2 ^ 32)
    (hlt : l.size + b.size + 4 ≤ 2 ^ 32) (hb : getw s.mem (p - 4) = b.word)
    (hpa : b.prevAlloc = false)
    (hn : getw s.mem (State.getBlockhdr (wadd p b.size)) &&& thisalloc = 1)
    (hlf : l.alloc = false) (hl : getw s.mem (p - l.size - 4) = l.word)
    (hf : sizeField (getw s.mem (p - 8)) = l.size)
    (hs : removeFromList s (p - l.size) (calcListIndex l.size) = s₁)
    (hl₁ : getw s₁.mem (p - l.size - 4) = l.word) (hb₁ : getw s₁.mem (p - 4) = b.word) :
    coalesce s p = (addToList { s₁ with
      mem := putw (putw s₁.mem (wsub (wadd p b.size) 8) (l.join b).word) (p - l.size - 4)
        (l.join b).word } (p - l.size) (calcListIndex (l.join b).size)).bind
          fun t => some (t, p - l.size) := by
  have hlg := l.size_ge
  have hbg := b.size_ge
  have hhdr : ∀ {t : State}, getw t.mem (p - 4) = b.word →
      getw t.mem (State.getBlockhdr p) = b.word := fun h => by
    rw [getBlockhdr_eq (by omega) hp', h]
  have h1 := getPrevalloc_of_header (hhdr hb)
  have h2 := getNextalloc_of_header (by omega) (hhdr hb)
  have h3 := getThissize_of_header (by omega) (hhdr hb)
  have h4 := getPrevblock_eq (by omega : 8 ≤ p) hp' hf (by omega)
  have h5 := getThissize_eq (p := p - l.size) (by omega) (by omega) hl
  have h6 := getThissize_eq (p := p - l.size) (by omega) (by omega) hl₁
  have h7 := getPrevalloc_eq (p := p - l.size) (by omega) (by omega) hl₁
  have h8 := getBlockftr_of_header (by omega) (hhdr hb₁)
  rw [hpa] at h1
  rw [hn] at h2
  have hpk : pack (l.join b).size (2 * l.prevAlloc.toNat) = (l.join b).word :=
    Block.pack_free (by simpa [Block.join] using hlf)
  have hsz : wadd b.size l.size = (l.join b).size := by
    rw [wadd_eq (by omega), Nat.add_comm]
    rfl
  have hh := getBlockhdr_eq (by omega : 4 ≤ p - l.size) (by omega)
  generalize wsub (wadd p b.size) 8 = q at h8 ⊢
  simp only [coalesce, h1, h2, h3, h4, h5, hs, h6, h7, h8, hsz, hh, hpk, Bool.toNat_false,
    Nat.mul_zero, ne_eq, not_true_eq_false, one_ne_zero, not_false_eq_true, and_self, if_false,
    if_true, State.putw]
  rfl

theorem coalesce_prev (hp : l.size + 4 ≤ p) (hlt : p + b.size ≤ 2 ^ 32)
    (hb : getw s.mem (p - 4) = b.word) (hpa : b.prevAlloc = false)
    (hn : getw s.mem (p + b.size - 4) &&& thisalloc = 1)
    (hlf : l.alloc = false) (hl : getw s.mem (p - l.size - 4) = l.word)
    (hf : sizeField (getw s.mem (p - 8)) = l.size)
    (hs : removeFromList s (p - l.size) (calcListIndex l.size) = s₁)
    (hl₁ : getw s₁.mem (p - l.size - 4) = l.word) (hb₁ : getw s₁.mem (p - 4) = b.word) :
    coalesce s p = (addToList { s₁ with mem := tagMem s₁.mem (p - l.size) (l.join b) } (p - l.size)
      (calcListIndex (l.join b).size)).bind fun t => some (t, p - l.size) := by
  have hbg := b.size_ge
  have hh : State.getBlockhdr (wadd p b.size) = p + b.size - 4 := by
    simp only [State.getBlockhdr, wsize, wadd, wsub]
    omega
  have hft : wsub (wadd p b.size) 8 = p + b.size - 8 := by
    simp only [wadd, wsub]
    omega
  have he : p - l.size + (l.join b).size - 8 = p + b.size - 8 := by
    simp only [Block.join]
    omega
  have heq := coalesce_prev_alone hp (by omega) (by omega) hb hpa (by rw [hh]; exact hn) hlf hl hf hs
    hl₁ hb₁
  rw [heq, hft, tagMem, he, putw_comm (by omega)]

theorem coalesce_both (hp : l.size + 4 ≤ p) (hlt : p + b.size + n.size ≤ 2 ^ 32)
    (hb : getw s.mem (p - 4) = b.word) (hpa : b.prevAlloc = false)
    (hn : getw s.mem (p + b.size - 4) = n.word) (hnf : n.alloc = false)
    (hlf : l.alloc = false) (hf : sizeField (getw s.mem (p - 8)) = l.size)
    (hs : removeFromList s (p + b.size) (calcListIndex n.size) = s₁)
    (hl₁ : getw s₁.mem (p - l.size - 4) = l.word)
    (hs₂ : removeFromList s₁ (p - l.size) (calcListIndex l.size) = s₂)
    (hl₂ : getw s₂.mem (p - l.size - 4) = l.word) (hb₂ : getw s₂.mem (p - 4) = b.word)
    (hn₂ : getw s₂.mem (p + b.size - 4) = n.word)
    (hf₂ : sizeField (getw s₂.mem (p - 8)) = l.size) :
    coalesce s p = (addToList
      { s₂ with mem := tagMem s₂.mem (p - l.size) (l.join (b.join n)) } (p - l.size)
      (calcListIndex (l.join (b.join n)).size)).bind fun t => some (t, p - l.size) := by
  have hlg := l.size_ge
  have hbg := b.size_ge
  have hng := n.size_ge
  have hp4 : 4 ≤ p := by omega
  have h1 := getPrevalloc_eq hp4 (by omega) hb
  have h2 := getNextalloc_eq hp4 (by omega) hb
  have h3 := getThissize_eq hp4 (by omega) hb
  have h4 := getNextblock_eq hp4 (by omega) hb
  have h5 := getPrevblock_eq (by omega : 8 ≤ p) (by omega) hf (by omega)
  have h6 := getThissize_eq (p := p + b.size) (by omega) (by omega) hn
  have h7 := getThissize_eq (p := p - l.size) (by omega) (by omega) hl₁
  have h8 := getThissize_eq (p := p - l.size) (by omega) (by omega) hl₂
  have h9 := getPrevalloc_eq (p := p - l.size) (by omega) (by omega) hl₂
  have h10 := getThissize_eq (p := p + b.size) (by omega) (by omega) hn₂
  have h11 := getPrevblock_eq (by omega : 8 ≤ p) (by omega) hf₂ (by omega)
  rw [hpa] at h1
  rw [hn, Block.word_and_thisalloc, hnf] at h2
  have hpk : pack (l.join (b.join n)).size (2 * l.prevAlloc.toNat) = (l.join (b.join n)).word :=
    Block.pack_free (by simpa [Block.join] using hlf)
  have hsz : wadd b.size (wadd l.size n.size) = (l.join (b.join n)).size := by
    rw [wadd_eq (a := l.size) (by omega), wadd_eq (by omega)]
    simp only [Block.join]
    omega
  have hhdr := getBlockhdr_eq (by omega : 4 ≤ p - l.size) (by omega)
  -- the header of the previous block is rewritten before the others are read again
  generalize hw : (l.join (b.join n)).word = w at hpk
  have h12 : (s₂.putw (p - l.size - 4) w).getNextblock p = p + b.size :=
    getNextblock_eq hp4 (by omega) ((getw_putw_ne (by omega)).trans hb₂)
  have h13 : (s₂.putw (p - l.size - 4) w).getBlockftr (p + b.size) = p + b.size + n.size - 8 :=
    getBlockftr_eq (by omega) (by omega) ((getw_putw_ne (by omega)).trans hn₂)
  have h14 : ((s₂.putw (p - l.size - 4) w).putw (p + b.size + n.size - 8) w).getPrevblock p =
      p - l.size := by
    refine getPrevblock_eq (by omega) (by omega) ?_ (by omega)
    rw [← hf₂]
    exact congrArg sizeField ((getw_putw_ne (by omega)).trans (getw_putw_ne (by omega)))
  have he : p - l.size + (l.join (b.join n)).size - 8 = p + b.size + n.size - 8 := by
    simp only [Block.join]
    omega
  simp only [coalesce, h1, h2, h3, h4, h5, h6, hs, h7, hs₂, h8, h9, h10, h11, hsz, hhdr, hpk,
    h12, h13, h14, Bool.toNat_false, Nat.mul_zero, ne_eq, not_true_eq_false, false_and, and_false,
    and_self, if_false, if_true, tagMem, he, hw]
  rfl

end Cases

section Refines

variable {E : Env} {s : State} {m : Mem} {heads : Fin freelistCount → Nat} {f : Focus}

theorem Focus.Open.listed_out (h : f.Open) (i : Fin freelistCount) {o : Nat} (ho : o ∈ f.lists i) :
    o + 12 ≤ f.offset ∨ f.offset + f.block.size ≤ o := by
  obtain ⟨k, hk, _⟩ := (h.listed.mem_iff i o).mp ho
  rcases List.mem_append.mp hk with hk | hk
  · have := spans_bounds hk
    simp only [extent_reverse] at this
    simp only [Focus.offset]
    omega
  · have := spans_bounds hk
    omega

theorem Focus.Open.listed_mem (h : f.Open) {x : Nat × Nat}
    (hx : x ∈ spans false 16 f.before.reverse ++ spans false (f.offset + f.block.size) f.after) :
    x ∈ spans false 16 f.layout.blocks ∧ x.1 ≠ f.offset := by
  have hge := f.block.size_ge
  constructor
  · simp only [Focus.layout, spans_append, spans_cons, h.free, if_true, List.mem_append,
      extent_reverse] at hx ⊢
    simp only [Focus.offset] at hx
    tauto
  · rcases List.mem_append.mp hx with hx | hx
    · have := spans_bounds hx
      simp only [extent_reverse] at this
      simp only [Focus.offset]
      omega
    · have := spans_bounds hx
      omega

/-- Listing the open block: the common end of all cases. -/
theorem Image.close (h : Image E s.mem s.freeLists f.layout) (ho : f.Open) :
    ∃ m heads, addToList s (E.base + f.offset) (calcListIndex f.block.size) =
        some { s with mem := m, freeLists := heads } ∧
      Image E m heads { f with lists := f.lists.link f.offset f.block.size }.layout ∧
      Keeps E f.layout s.mem m := by
  obtain ⟨m, heads, he, hi, hl⟩ := h.add ho.fits ho.listed (fun x hx => ho.listed_mem hx)
    (ho.free ▸ f.mem_spans_block)
  exact ⟨m, heads, he, hi, Keeps.of_links hl fun x hx => hx⟩

/-- Tags for the joined block, written over a stretch of free blocks. -/
theorem Image.join (ho : f.Open) {mid : List Block}
    (h : Image E m heads ⟨f.before.reverse ++ (mid ++ f.after), f.epiPrev, f.lists⟩)
    (hext : extent Block.size mid = f.block.size)
    (hmid : spans true (16 + extent Block.size f.before.reverse) mid = []) :
    Image E (tagMem m (E.base + f.offset) f.block) heads f.layout ∧
      Keeps E ⟨f.before.reverse ++ (mid ++ f.after), f.epiPrev, f.lists⟩ m
        (tagMem m (E.base + f.offset) f.block) := by
  have hsz : f.block.size + 4 ≤ 2 ^ 32 := by
    have := ho.fits
    have := maxHeap_eq
    rw [f.heapsize_layout] at *
    omega
  have he : E.base + 16 + extent Block.size f.before.reverse = E.base + f.offset := by
    simp only [extent_reverse, Focus.offset]
    omega
  have hge := f.block.size_ge
  have hm : ∀ a, a + 4 < E.base + 16 + extent Block.size f.before.reverse ∨
      E.base + 16 + extent Block.size f.before.reverse + extent Block.size mid ≤ a + 4 →
      tagMem m (E.base + f.offset) f.block a = m a := by
    intro a ha
    rw [he, hext] at ha
    have : 16 ≤ f.offset := by simp [Focus.offset]
    exact tagMem_out (by omega) (by omega)
  refine ⟨h.retag _ [f.block] (by simpa using hext.symm) hm ?_
    (h.lists.of_out fun i o hoi a ha ha' => hm a ?_), Keeps.of_retag _ hm hmid⟩
  · rw [he]
    exact tagged_tagMem (by simp only [Focus.offset]; omega) hsz
  · have := ho.listed_out i hoi
    simp only [Focus.offset] at this
    simp only [extent_reverse, hext]
    omega

theorem Image.coalesce_neither (h : Image E s.mem s.freeLists f.layout) (ho : f.Open)
    (hpa : f.block.prevAlloc = true) (hn : ∀ n rest, f.after = n :: rest → n.alloc = true) :
    ∃ m heads, CsoMalloc.coalesce s (E.base + f.offset) =
        some ({ s with mem := m, freeLists := heads }, E.base + f.offset) ∧
      Image E m heads { f with lists := f.lists.link f.offset f.block.size }.layout ∧
      Keeps E f.layout s.mem m := by
  have hfit := ho.fits
  rw [f.heapsize_layout] at hfit
  have := E.base_high
  have := maxHeap_eq
  have ho4 : 16 ≤ f.offset := by simp [Focus.offset]
  have hnext : getw s.mem (E.base + f.offset + f.block.size - 4) &&& thisalloc = 1 := by
    cases ha : f.after with
    | nil => rw [h.next_epilogue ha, epilogueWord_and_thisalloc]
    | cons n rest => rw [h.next_header ha, Block.word_and_thisalloc, hn n rest ha]; rfl
  obtain ⟨m, heads, he, hi, hk⟩ := h.close ho
  refine ⟨m, heads, ?_, hi, hk⟩
  rw [CsoMalloc.coalesce_neither (by omega) (by omega) h.header hpa hnext, he]
  rfl

theorem Image.remove_next {before rest : List Block} {block n : Block} {e : Bool} {lists : Lists}
    (h : Image E s.mem s.freeLists (Focus.layout ⟨before, block, n :: rest, e, lists⟩))
    (ho : Focus.Open ⟨before, block, n :: rest, e, lists⟩) (hn : n.alloc = false) :
    ∃ m heads, removeFromList s (E.base + Focus.offset ⟨before, block, n :: rest, e, lists⟩ +
        block.size) (calcListIndex n.size) = { s with mem := m, freeLists := heads } ∧
      Image E m heads (Focus.layout ⟨before, block, n :: rest, e,
        lists.unlink (16 + extent Block.size before + block.size) n.size⟩) ∧
      Keeps E (Focus.layout ⟨before, block, n :: rest, e, lists⟩) s.mem m := by
  obtain ⟨m, heads, he, hi, hl⟩ := h.remove (o := 16 + extent Block.size before + block.size)
    (n := n.size) ho.listed (by simp [Focus.offset, hn]) (fun x hx => (ho.listed_mem hx).1)
  refine ⟨m, heads, ?_, hi, ?_⟩
  · rw [← he]
    simp only [Focus.offset, Nat.add_assoc]
  · exact Keeps.of_links hl fun x hx => (ho.listed_mem (List.mem_filter.mp hx).1).1

theorem Image.remove_prev {rest after : List Block} {l block : Block} {e : Bool} {lists : Lists}
    (h : Image E s.mem s.freeLists (Focus.layout ⟨l :: rest, block, after, e, lists⟩))
    (ho : Focus.Open ⟨l :: rest, block, after, e, lists⟩) (hl : l.alloc = false) :
    ∃ m heads, removeFromList s (E.base + Focus.offset ⟨l :: rest, block, after, e, lists⟩ -
        l.size) (calcListIndex l.size) = { s with mem := m, freeLists := heads } ∧
      Image E m heads (Focus.layout ⟨l :: rest, block, after, e,
        lists.unlink (16 + extent Block.size rest) l.size⟩) ∧
      Keeps E (Focus.layout ⟨l :: rest, block, after, e, lists⟩) s.mem m := by
  obtain ⟨m, heads, he, hi, hlk⟩ := h.remove (o := 16 + extent Block.size rest) (n := l.size)
    ho.listed (by simp [hl]) (fun x hx => (ho.listed_mem hx).1)
  refine ⟨m, heads, ?_, hi, ?_⟩
  · rw [← he]
    congr 1
    simp only [Focus.offset, extent_cons]
    omega
  · exact Keeps.of_links hlk fun x hx => (ho.listed_mem (List.mem_filter.mp hx).1).1

theorem Image.join_close (ho : f.Open) (mid : List Block)
    (h : Image E s.mem s.freeLists ⟨f.before.reverse ++ (mid ++ f.after), f.epiPrev, f.lists⟩)
    (hext : extent Block.size mid = f.block.size) (hmid : ∀ b ∈ mid, b.alloc = false) :
    ∃ m heads, addToList { s with mem := tagMem s.mem (E.base + f.offset) f.block }
        (E.base + f.offset) (calcListIndex f.block.size) =
        some { s with mem := m, freeLists := heads } ∧
      Image E m heads { f with lists := f.lists.link f.offset f.block.size }.layout ∧
      Keeps E f.layout s.mem m := by
  have hnil : ∀ o, spans true o mid = [] := spans_eq_nil fun b hb => by simp [hmid b hb]
  obtain ⟨hj, hk⟩ := Image.join ho h hext (hnil _)
  obtain ⟨m, heads, he, hi, hk'⟩ :=
    Image.close (s := { s with mem := tagMem s.mem (E.base + f.offset) f.block }) hj ho
  have hsp : spans true 16 f.layout.blocks =
      spans true 16 (f.before.reverse ++ (mid ++ f.after)) := by
    simp [Focus.layout, hnil, hext, ho.free]
  refine ⟨m, heads, he, hi, fun o n hon a ha ha' => ?_⟩
  exact (hk' o n hon a ha ha').trans (hk o n (hsp ▸ hon) a ha ha')

section FreeNeighbours

variable {before after rest : List Block} {l block n : Block} {e : Bool} {lists : Lists}

theorem Image.coalesce_next
    (h : Image E s.mem s.freeLists (Focus.layout ⟨before, block, n :: rest, e, lists⟩))
    (ho : Focus.Open ⟨before, block, n :: rest, e, lists⟩) (hpa : block.prevAlloc = true)
    (hn : n.alloc = false) :
    ∃ m heads, CsoMalloc.coalesce s (E.base + (16 + extent Block.size before)) =
        some ({ s with mem := m, freeLists := heads }, E.base + (16 + extent Block.size before)) ∧
      Image E m heads (Focus.layout ⟨before, block.join n, rest, e,
        (lists.unlink (16 + extent Block.size before + block.size) n.size).link
          (16 + extent Block.size before) (block.join n).size⟩) ∧
      Keeps E (Focus.layout ⟨before, block, n :: rest, e, lists⟩) s.mem m := by
  have hfit := ho.fits
  simp only [Focus.heapsize_layout, extent_cons] at hfit
  have := E.base_high
  have := maxHeap_eq
  have hg := Focus.absorbNext_open ho
  have hsp := (Focus.absorbNext_allocated ho).1
  simp only [Focus.absorbNext, hn, Bool.false_eq_true, if_false, Focus.offset] at hg hsp hfit
  obtain ⟨m₁, heads₁, he₁, hi₁, hk₁⟩ := h.remove_next ho hn
  obtain ⟨m₂, heads₂, he₂, hi₂, hk₂⟩ := Image.join_close (s := { s with mem := m₁, freeLists := heads₁ })
    hg [block, n] (by simpa [Focus.layout] using hi₁) (by simp [Block.join])
    (by simpa using ⟨ho.free, hn⟩)
  refine ⟨m₂, heads₂, ?_, hi₂, ?_⟩
  · have heq := CsoMalloc.coalesce_next (by simp only [Focus.offset]; omega)
      (by simp only [Focus.offset]; omega) h.header hpa ho.free (h.next_header rfl) hn he₁
      (hi₁.next_header rfl)
    simp only [Focus.offset] at heq he₂
    rw [heq, he₂]
    rfl
  · exact hk₁.trans (t := m₁) hk₂ fun x hx => hsp ▸ hx

theorem Image.coalesce_prev
    (h : Image E s.mem s.freeLists (Focus.layout ⟨l :: rest, block, after, e, lists⟩))
    (ho : Focus.Open ⟨l :: rest, block, after, e, lists⟩) (hpa : block.prevAlloc = false)
    (hn : ∀ n rest, after = n :: rest → n.alloc = true) :
    ∃ m heads, CsoMalloc.coalesce s (E.base + (16 + extent Block.size (l :: rest))) =
        some ({ s with mem := m, freeLists := heads }, E.base + (16 + extent Block.size rest)) ∧
      Image E m heads (Focus.layout ⟨rest, l.join block, after, e,
        (lists.unlink (16 + extent Block.size rest) l.size).link
          (16 + extent Block.size rest) (l.join block).size⟩) ∧
      Keeps E (Focus.layout ⟨l :: rest, block, after, e, lists⟩) s.mem m := by
  have hfit := ho.fits
  simp only [Focus.heapsize_layout] at hfit
  have := E.base_high
  have := maxHeap_eq
  have hlf : l.alloc = false := ho.prev_free hpa
  have hnext : getw s.mem (E.base + Focus.offset ⟨l :: rest, block, after, e, lists⟩ + block.size - 4)
      &&& thisalloc = 1 := by
    cases after with
    | nil => rw [h.next_epilogue rfl, epilogueWord_and_thisalloc]
    | cons n rest => rw [h.next_header rfl, Block.word_and_thisalloc, hn n rest rfl]; rfl
  have hg := Focus.absorbPrev_open ho
  have hsp := (Focus.absorbPrev_allocated ho).1
  simp only [Focus.absorbPrev, hpa, Bool.false_eq_true, if_false, Focus.offset] at hg hsp hfit
  obtain ⟨m₁, heads₁, he₁, hi₁, hk₁⟩ := h.remove_prev ho hlf
  obtain ⟨m₂, heads₂, he₂, hi₂, hk₂⟩ := Image.join_close (s := { s with mem := m₁, freeLists := heads₁ })
    hg [l, block] (by simpa [Focus.layout] using hi₁) (by simp [Block.join])
    (by simpa using ⟨hlf, ho.free⟩)
  have hoff : E.base + (16 + extent Block.size (l :: rest)) - l.size =
      E.base + (16 + extent Block.size rest) := by
    rw [extent_cons]
    omega
  refine ⟨m₂, heads₂, ?_, hi₂, ?_⟩
  · have hpt := h.prev_tags rfl
    rw [extent_cons] at hfit
    have heq := CsoMalloc.coalesce_prev (by simp only [Focus.offset, extent_cons]; omega)
      (by simp only [Focus.offset, extent_cons]; omega) h.header hpa hnext hlf hpt.1 (hpt.2 hlf) he₁
      (hi₁.prev_tags rfl).1 hi₁.header
    simp only [Focus.offset, hoff] at heq he₂
    rw [heq, he₂]
    rfl
  · exact hk₁.trans (t := m₁) hk₂ fun x hx => hsp ▸ hx

/-- Both neighbours are taken off their lists while the tags still show three
blocks. -/
theorem Image.remove_both {rest' : List Block}
    (h : Image E s.mem s.freeLists (Focus.layout ⟨l :: rest, block, n :: rest', e, lists⟩))
    (ho : Focus.Open ⟨l :: rest, block, n :: rest', e, lists⟩) (hpa : block.prevAlloc = false)
    (hn : n.alloc = false) :
    ∃ m₁ heads₁ m₂ heads₂,
      removeFromList s (E.base + Focus.offset ⟨l :: rest, block, n :: rest', e, lists⟩ + block.size)
        (calcListIndex n.size) = { s with mem := m₁, freeLists := heads₁ } ∧
      Image E m₁ heads₁ (Focus.layout ⟨l :: rest, block, n :: rest', e,
        lists.unlink (16 + extent Block.size (l :: rest) + block.size) n.size⟩) ∧
      removeFromList { s with mem := m₁, freeLists := heads₁ }
        (E.base + Focus.offset ⟨l :: rest, block, n :: rest', e, lists⟩ - l.size)
        (calcListIndex l.size) = { s with mem := m₂, freeLists := heads₂ } ∧
      Image E m₂ heads₂ (Focus.layout ⟨l :: rest, block, n :: rest', e,
        (lists.unlink (16 + extent Block.size (l :: rest) + block.size) n.size).unlink
          (16 + extent Block.size rest) l.size⟩) ∧
      Keeps E (Focus.layout ⟨l :: rest, block, n :: rest', e, lists⟩) s.mem m₂ := by
  have hlf : l.alloc = false := ho.prev_free hpa
  have hg := Focus.absorbNext_open ho
  simp only [Focus.absorbNext, hn, Bool.false_eq_true, if_false, Focus.offset] at hg
  obtain ⟨m₁, heads₁, he₁, hi₁, hk₁⟩ := h.remove_next ho hn
  have hmem : ∀ x ∈ spans false 16 (l :: rest).reverse ++ spans false
      (Focus.offset ⟨l :: rest, block.join n, rest', e, lists⟩ + (block.join n).size) rest',
      x ∈ spans false 16 ((l :: rest).reverse ++ block :: n :: rest') := by
    intro x hx
    simp only [List.mem_append, spans_append, spans_cons, Focus.offset, Block.join,
      extent_reverse, Nat.add_assoc] at hx ⊢
    tauto
  obtain ⟨m₂, heads₂, he₂, hi₂, hl₂⟩ := Image.remove
    (s := { s with mem := m₁, freeLists := heads₁ }) hi₁ (o := 16 + extent Block.size rest)
    (n := l.size) hg.listed (by simp [hlf]) hmem
  have hk₂ := Keeps.of_links (L := Focus.layout ⟨l :: rest, block, n :: rest', e, lists⟩) hl₂
    fun x hx => hmem x (List.mem_filter.mp hx).1
  have hoff : E.base + (16 + extent Block.size (l :: rest)) - l.size =
      E.base + (16 + extent Block.size rest) := by
    rw [extent_cons]
    omega
  refine ⟨m₁, heads₁, m₂, heads₂, he₁, hi₁, ?_, hi₂, hk₁.trans (t := m₁) hk₂ fun x hx => hx⟩
  simp only [Focus.offset, hoff]
  exact he₂

theorem Image.coalesce_both {rest' : List Block}
    (h : Image E s.mem s.freeLists (Focus.layout ⟨l :: rest, block, n :: rest', e, lists⟩))
    (ho : Focus.Open ⟨l :: rest, block, n :: rest', e, lists⟩) (hpa : block.prevAlloc = false)
    (hn : n.alloc = false) :
    ∃ m heads, CsoMalloc.coalesce s (E.base + (16 + extent Block.size (l :: rest))) =
        some ({ s with mem := m, freeLists := heads }, E.base + (16 + extent Block.size rest)) ∧
      Image E m heads (Focus.layout ⟨rest, l.join (block.join n), rest', e,
        ((lists.unlink (16 + extent Block.size (l :: rest) + block.size) n.size).unlink
          (16 + extent Block.size rest) l.size).link
          (16 + extent Block.size rest) (l.join (block.join n)).size⟩) ∧
      Keeps E (Focus.layout ⟨l :: rest, block, n :: rest', e, lists⟩) s.mem m := by
  have hfit := ho.fits
  simp only [Focus.heapsize_layout, extent_cons] at hfit
  have := E.base_high
  have := maxHeap_eq
  have hlf : l.alloc = false := ho.prev_free hpa
  have hg₁ := Focus.absorbNext_open ho
  have hsp₁ := (Focus.absorbNext_allocated ho).1
  simp only [Focus.absorbNext, hn, Bool.false_eq_true, if_false, Focus.offset] at hg₁ hsp₁ hfit
  have hg := Focus.absorbPrev_open hg₁
  have hsp := (Focus.absorbPrev_allocated hg₁).1
  simp only [Focus.absorbPrev, show (block.join n).prevAlloc = false from hpa,
    Bool.false_eq_true, if_false] at hg hsp
  obtain ⟨m₁, heads₁, m₂, heads₂, he₁, hi₁, he₂, hi₂, hk⟩ := h.remove_both ho hpa hn
  obtain ⟨m₃, heads₃, he₃, hi₃, hk₃⟩ := Image.join_close
    (s := { s with mem := m₂, freeLists := heads₂ }) hg [l, block, n]
    (by simpa [Focus.layout] using hi₂) (by simp [Block.join]) (by simpa using ⟨hlf, ho.free, hn⟩)
  have hoff : E.base + (16 + extent Block.size (l :: rest)) - l.size =
      E.base + (16 + extent Block.size rest) := by
    rw [extent_cons]
    omega
  refine ⟨m₃, heads₃, ?_, hi₃, hk.trans (t := m₂) hk₃ fun x hx => hsp ▸ hsp₁ ▸ hx⟩
  have hpt₂ := hi₂.prev_tags rfl
  have heq := CsoMalloc.coalesce_both (by simp only [Focus.offset, extent_cons]; omega)
    (by simp only [Focus.offset, extent_cons]; omega) h.header hpa (h.next_header rfl) hn hlf
    ((h.prev_tags rfl).2 hlf) he₁ (hi₁.prev_tags rfl).1 he₂ hpt₂.1 hi₂.header (hi₂.next_header rfl)
    (hpt₂.2 hlf)
  simp only [Focus.offset, hoff] at heq he₃
  rw [heq, he₃]
  rfl

end FreeNeighbours

theorem Image.coalesce (h : Image E s.mem s.freeLists f.layout) (ho : f.Open) :
    ∃ m heads, CsoMalloc.coalesce s (E.base + f.offset) =
        some ({ s with mem := m, freeLists := heads }, E.base + f.coalesce.offset) ∧
      Image E m heads f.coalesce.layout ∧ Keeps E f.layout s.mem m := by
  by_cases hn : ∀ n rest, f.after = n :: rest → n.alloc = true
  · have hsame : f.absorbNext = f := by
      unfold Focus.absorbNext
      split
      · rfl
      · next n rest ha => rw [if_pos (hn n rest ha)]
    simp only [Focus.coalesce, hsame]
    cases hpa : f.block.prevAlloc with
    | true =>
      have hsame' : f.absorbPrev = f := by
        unfold Focus.absorbPrev
        split
        · rfl
        · rw [if_pos hpa]
      rw [hsame']
      exact h.coalesce_neither ho hpa hn
    | false =>
      obtain ⟨before, block, after, e, lists⟩ := f
      cases before with
      | nil => exact absurd (ho.flagsBefore hpa) (by simp)
      | cons l rest =>
        have hpa : block.prevAlloc = false := hpa
        simp only [Focus.absorbPrev, hpa, Bool.false_eq_true, if_false]
        exact h.coalesce_prev ho hpa hn
  · simp only [not_forall] at hn
    obtain ⟨n, rest, ha, hn⟩ := hn
    have hn : n.alloc = false := by simpa using hn
    obtain ⟨before, block, after, e, lists⟩ := f
    obtain rfl : after = n :: rest := ha
    simp only [Focus.coalesce, Focus.absorbNext, hn, Bool.false_eq_true, if_false]
    cases hpa : block.prevAlloc with
    | true =>
      have hsame' : ∀ before lists, Focus.absorbPrev ⟨before, block.join n, rest, e, lists⟩ =
          ⟨before, block.join n, rest, e, lists⟩ := by
        intro before lists
        unfold Focus.absorbPrev
        split
        · rfl
        · rw [if_pos (show (block.join n).prevAlloc = true from hpa)]
      rw [hsame']
      exact h.coalesce_next ho hpa hn
    | false =>
      cases before with
      | nil => exact absurd (ho.flagsBefore hpa) (by simp)
      | cons l rest₁ =>
        simp only [Focus.absorbPrev, show (block.join n).prevAlloc = false from hpa,
          Bool.false_eq_true, if_false]
        exact h.coalesce_both ho hpa hn

end Refines

end CsoMalloc
