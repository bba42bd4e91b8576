import CsoMalloc.BoundaryTags
import CsoMalloc.FreeLists

/-! The heap in memory represents a layout. The lemmas here are the steps every
operation is made of: taking a block off a list, putting one on, and rewriting
the tags of a stretch of blocks. -/

namespace CsoMalloc

open ByteMemory Tiling

/-- Where the heap lives: an 8-aligned arena far enough below the end of the
address space, and a page size for which the arena has room for the first
request of `mm_init`. -/
structure Env where
  base : Nat
  pageSize : Nat
  base_aligned : base % 8 = 0
  base_pos : 0 < base
  base_high : base + 3 * maxHeap < 2 ^ 32
  room : fitSize (2 * pageSize) + 16 ≤ maxHeap

def Env.page (E : Env) : Size := fitSize (2 * E.pageSize)

/-- The bytes of the heap and the list heads represent `L`. -/
structure Image (E : Env) (m : Mem) (heads : Fin freelistCount → Nat) (L : Layout) : Prop where
  padding : getw m E.base = 0x8BADF00D
  prologueHdr : getw m (E.base + 4) = pack dsize (thisalloc ||| prevalloc)
  prologueFtr : getw m (E.base + 8) = pack dsize (thisalloc ||| prevalloc)
  tags : Tagged m (E.base + 16) L.blocks
  epilogue : getw m (E.base + L.heapsize - 4) = epilogueWord L.epiPrev
  lists : FreeLists m heads (fun i => (L.lists i).map (E.base + ·))

structure Refines (E : Env) (s : State) (L : Layout) : Prop where
  startBrk : s.memStartBrk = E.base
  maxAddr : s.memMaxAddr = E.base + maxHeap
  brk : s.memBrk = E.base + L.heapsize
  heapStart : s.heapStart = E.base
  heapEnd : s.heapEnd + 1 = E.base + L.heapsize
  page : s.adjustedPagesize = E.page
  image : Image E s.mem s.freeLists L

/-- The payload of every allocated block of `L` is the same in both memories. -/
def Keeps (E : Env) (L : Layout) (m m' : Mem) : Prop :=
  ∀ o n, (o, n) ∈ spans true 16 L.blocks → ∀ a, o ≤ a → a + 4 < o + n →
    m' (E.base + a) = m (E.base + a)

/-- Only link words of the given blocks differ. -/
def LinksOnly (E : Env) (sp : List (Nat × Nat)) (m m' : Mem) : Prop :=
  ∀ a, (∀ q k, (q, k) ∈ sp → a < E.base + q ∨ E.base + q + 8 ≤ a) → m' a = m a

theorem Keeps.refl (E : Env) (L : Layout) (m : Mem) : Keeps E L m m := fun _ _ _ _ _ _ => rfl

theorem Keeps.trans {E : Env} {L L' : Layout} {m t m' : Mem} (h : Keeps E L m t)
    (h' : Keeps E L' t m')
    (hs : ∀ x ∈ spans true 16 L.blocks, x ∈ spans true 16 L'.blocks) : Keeps E L m m' :=
  fun o n hon a ha ha' => (h' o n (hs _ hon) a ha ha').trans (h o n hon a ha ha')

section Links

variable {E : Env} {m m' : Mem} {heads heads' : Fin freelistCount → Nat} {L : Layout}
  {sp : List (Nat × Nat)}

theorem Image.of_room (h : Image E m heads L)
    (hm : ∀ a, (∀ o b, (o, b) ∈ placed Block.size 16 L.blocks →
      a < E.base + o ∨ E.base + o + b.room ≤ a) → m' a = m a) {lists : Lists}
    (hf : FreeLists m' heads' (fun i => (lists i).map (E.base + ·))) :
    Image E m' heads' { L with lists := lists } := by
  have hw : ∀ x, x + 4 ≤ E.base + 16 ∨ E.base + L.heapsize ≤ x + 4 → getw m' x = getw m x := by
    refine fun x hx => getw_congr fun a ha ha' => hm a fun o b hb => ?_
    have := placed_bounds hb
    have := b.room_le
    simp only [Layout.heapsize] at hx
    omega
  refine ⟨?_, ?_, ?_, ?_, ?_, hf⟩
  · rw [hw _ (by omega), h.padding]
  · rw [hw _ (by omega), h.prologueHdr]
  · rw [hw _ (by omega), h.prologueFtr]
  · refine h.tags.congr_room (by omega) fun a ha => hm a fun o b hb => ?_
    simpa [Nat.add_assoc] using ha (E.base + o) b (placed_shift.mpr hb)
  · show getw m' (E.base + L.heapsize - 4) = _
    rw [hw _ (by omega)]
    exact h.epilogue

theorem Image.of_links (h : Image E m heads L) (hl : LinksOnly E sp m m')
    (hsp : ∀ x ∈ sp, x ∈ spans false 16 L.blocks) {lists : Lists}
    (hf : FreeLists m' heads' (fun i => (lists i).map (E.base + ·))) :
    Image E m' heads' { L with lists := lists } := by
  refine h.of_room (fun a ha => hl a fun q k hq => ?_) hf
  obtain ⟨c, hc, _⟩ := mem_spans.mp (hsp _ hq)
  have := c.room_le
  have := ha q c hc
  omega

theorem Keeps.of_links (hl : LinksOnly E sp m m')
    (hsp : ∀ x ∈ sp, x ∈ spans false 16 L.blocks) : Keeps E L m m' := by
  intro o n hon a ha ha'
  refine hl _ fun q k hq => ?_
  have hk := (spans_bounds (hsp _ hq)).2.2
  have := spans_apart hon (hsp _ hq)
  omega

end Links

section Steps

variable {E : Env} {s : State} {L : Layout}

theorem map_update (lists : Lists) (i : Fin freelistCount) (ys : List Nat) (k : Nat) :
    (fun j => (Function.update lists i ys j).map (k + ·)) =
      Function.update (fun j => (lists j).map (k + ·)) i (ys.map (k + ·)) := by
  funext j
  by_cases hj : j = i
  · subst hj
    simp
  · simp [hj]

theorem Image.remove (h : Image E s.mem s.freeLists L) {sp : List (Nat × Nat)} {o n : Nat}
    (hl : Listed L.lists sp) (ho : (o, n) ∈ sp)
    (hsp : ∀ x ∈ sp, x ∈ spans false 16 L.blocks) :
    ∃ m heads, removeFromList s (E.base + o) (calcListIndex n) =
        { s with mem := m, freeLists := heads } ∧
      Image E m heads { L with lists := L.lists.unlink o n } ∧
      LinksOnly E (sp.filter fun x => x.1 ≠ o) s.mem m := by
  have hm : o ∈ L.lists (calcListIndex n) := (hl.mem_iff _ _).mpr ⟨n, ho, rfl⟩
  obtain ⟨l, r, hlr⟩ := List.append_of_mem hm
  have hnd := hl.nodup (calcListIndex n)
  have her : (L.lists (calcListIndex n)).erase o = l ++ r := by
    rw [hlr] at hnd ⊢
    rw [List.erase_append_right _ fun hol => (List.disjoint_of_nodup_append hnd) hol (by simp)]
    simp
  have hx : (fun i => (L.lists i).map (E.base + ·)) (calcListIndex n) =
      l.map (E.base + ·) ++ (E.base + o) :: r.map (E.base + ·) := by
    simp [hlr]
  obtain ⟨m, heads, he, hf, hfr⟩ := removeFromList_spec h.lists hx
  have hlinks : LinksOnly E (sp.filter fun x => x.1 ≠ o) s.mem m := by
    intro a ha
    refine hfr a fun q hq => ?_
    have hq' : ∃ p ∈ l ++ r, E.base + p = q := by
      rcases List.mem_append.mp hq with hq | hq
      · obtain ⟨p, hp, rfl⟩ : ∃ p, l.getLast? = some p ∧ E.base + p = q := by simpa using hq
        exact ⟨p, List.mem_append_left _ (List.mem_of_getLast? hp), rfl⟩
      · obtain ⟨p, hp, rfl⟩ : ∃ p, r.head? = some p ∧ E.base + p = q := by simpa using hq
        exact ⟨p, List.mem_append_right _ (List.mem_of_head? hp), rfl⟩
    obtain ⟨p, hp, rfl⟩ := hq'
    rw [← her, hnd.mem_erase_iff] at hp
    obtain ⟨k, hk, _⟩ := (hl.mem_iff _ _).mp hp.2
    exact ha p k (List.mem_filter.mpr ⟨hk, by simpa using hp.1⟩)
  refine ⟨m, heads, he, ?_, hlinks⟩
  refine h.of_links hlinks (fun x hx => hsp x (List.mem_filter.mp hx).1) ?_
  rw [Lists.unlink, map_update, her, List.map_append]
  exact hf

theorem Image.add (h : Image E s.mem s.freeLists L) (hL : L.heapsize ≤ maxHeap)
    {sp : List (Nat × Nat)} {o n : Nat} (hl : Listed L.lists sp)
    (hsp : ∀ x ∈ sp, x ∈ spans false 16 L.blocks ∧ x.1 ≠ o)
    (ho : (o, n) ∈ spans false 16 L.blocks) :
    ∃ m heads, addToList s (E.base + o) (calcListIndex n) =
        some { s with mem := m, freeLists := heads } ∧
      Image E m heads { L with lists := L.lists.link o n } ∧
      LinksOnly E (spans false 16 L.blocks) s.mem m := by
  have hb : 16 ≤ o ∧ o + n ≤ L.heapsize ∧ 16 ≤ n := spans_bounds ho
  have hhigh := E.base_high
  have hmax := maxHeap_eq
  have hnew : ∀ j, ∀ x ∈ (L.lists j).map (E.base + ·), x ≠ E.base + o ∧ Apart x (E.base + o) := by
    intro j x hx
    obtain ⟨p, hp, rfl⟩ := List.mem_map.mp hx
    obtain ⟨k, hk, _⟩ := (hl.mem_iff _ _).mp hp
    have hne := (hsp _ hk).2
    have hk' := (hsp _ hk).1
    have hk16 := (spans_bounds hk').2.2
    simp only [Apart]
    rcases spans_separated hk' ho with h | h | h
    · exact absurd h.1 hne
    · omega
    · omega
  obtain ⟨m, heads, he, hf, hfr⟩ :=
    addToList_spec (calcListIndex n) h.lists (by omega : 4 ≤ E.base + o ∧ E.base + o + 8 ≤ 2 ^ 32)
      hnew
  have hlinks : LinksOnly E (spans false 16 L.blocks) s.mem m := by
    intro a ha
    refine hfr a fun q hq => ?_
    rcases List.mem_cons.mp hq with rfl | hq
    · exact ha o n ho
    · obtain ⟨p, hp, rfl⟩ : ∃ p, (L.lists (calcListIndex n)).getLast? = some p ∧ E.base + p = q := by
        simpa using hq
      obtain ⟨k, hk, _⟩ := (hl.mem_iff _ _).mp (List.mem_of_getLast? hp)
      exact ha p k (hsp _ hk).1
  refine ⟨m, heads, he, ?_, hlinks⟩
  refine h.of_links hlinks (fun x hx => hx) ?_
  rw [Lists.link, map_update, List.map_append]
  exact hf

end Steps

theorem FreeLists.of_out {E : Env} {m m' : Mem} {heads : Fin freelistCount → Nat} {lists : Lists}
    (h : FreeLists m heads (fun i => (lists i).map (E.base + ·)))
    (hm : ∀ i, ∀ o ∈ lists i, ∀ a, E.base + o ≤ a → a < E.base + o + 8 → m' a = m a) :
    FreeLists m' heads (fun i => (lists i).map (E.base + ·)) := by
  refine h.congr fun i x hx a ha ha' => ?_
  obtain ⟨o, ho, rfl⟩ := List.mem_map.mp hx
  exact hm i o ho a ha ha'

section Tags

variable {E : Env} {m : Mem} {heads : Fin freelistCount → Nat} {f : Focus} {l n : Block}
  {rest : List Block}

theorem Image.header (h : Image E m heads f.layout) :
    getw m (E.base + f.offset - 4) = f.block.word := by
  have ht := h.tags
  simp only [Focus.layout, tagged_append, Tagged, extent_reverse] at ht
  simpa [Focus.offset, Nat.add_assoc] using ht.2.1

theorem Image.next_header (h : Image E m heads f.layout) (ha : f.after = n :: rest) :
    getw m (E.base + f.offset + f.block.size - 4) = n.word := by
  have ht := h.tags
  simp only [Focus.layout, ha, tagged_append, Tagged, extent_reverse] at ht
  simpa [Focus.offset, Nat.add_assoc] using ht.2.2.2.1

theorem Image.next_epilogue (h : Image E m heads f.layout) (ha : f.after = []) :
    getw m (E.base + f.offset + f.block.size - 4) = epilogueWord f.epiPrev := by
  have he := h.epilogue
  simp only [Focus.layout, ha, Layout.heapsize, extent_append, extent_cons, extent_nil,
    extent_reverse] at he
  simpa [Focus.offset, Nat.add_assoc] using he

theorem Image.prev_tags (h : Image E m heads f.layout) (hb : f.before = l :: rest) :
    getw m (E.base + f.offset - l.size - 4) = l.word ∧
      (l.alloc = false → sizeField (getw m (E.base + f.offset - 8)) = l.size) := by
  have ht := h.tags
  simp only [Focus.layout, hb, List.reverse_cons, tagged_append, Tagged, extent_reverse] at ht
  have h1 : E.base + f.offset - l.size - 4 = E.base + 16 + extent Block.size rest - 4 := by
    simp only [Focus.offset, hb, extent_cons]
    omega
  have h2 : E.base + f.offset - 8 = E.base + 16 + extent Block.size rest + l.size - 8 := by
    simp only [Focus.offset, hb, extent_cons]
    omega
  rw [h1, h2]
  exact ⟨ht.1.2.1, ht.1.2.2.1⟩

theorem Focus.heapsize_layout (f : Focus) :
    f.layout.heapsize = f.offset + f.block.size + extent Block.size f.after := by
  simp only [Focus.layout, Layout.heapsize, extent_append, extent_reverse, extent_cons,
    Focus.offset]
  omega

end Tags

/-- Rewriting the tags of the stretch `mid` of the heap, by which it becomes
`mid'`. -/
theorem Image.retag {E : Env} {m : Mem} {heads : Fin freelistCount → Nat}
    {pre mid post : List Block} {e : Bool} {lists : Lists}
    (h : Image E m heads ⟨pre ++ (mid ++ post), e, lists⟩) (m' : Mem) (mid' : List Block)
    (hext : extent Block.size mid' = extent Block.size mid)
    (hm : ∀ a, a + 4 < E.base + 16 + extent Block.size pre ∨
      E.base + 16 + extent Block.size pre + extent Block.size mid ≤ a + 4 → m' a = m a)
    (htag : Tagged m' (E.base + 16 + extent Block.size pre) mid')
    (hf : FreeLists m' heads (fun i => (lists i).map (E.base + ·))) :
    Image E m' heads ⟨pre ++ (mid' ++ post), e, lists⟩ := by
  have hw : ∀ x, x + 8 ≤ E.base + 16 + extent Block.size pre ∨
      E.base + 16 + extent Block.size pre + extent Block.size mid ≤ x + 4 →
      getw m' x = getw m x := fun x hx => getw_congr fun a ha ha' => hm a (by omega)
  obtain ⟨h1, h2, h3, h4, h5, _⟩ := h
  simp only [tagged_append, Layout.heapsize, extent_append] at h4 h5
  refine ⟨?_, ?_, ?_, ?_, ?_, hf⟩
  · rw [hw _ (by omega), h1]
  · rw [hw _ (by omega), h2]
  · rw [hw _ (by omega), h3]
  · simp only [tagged_append, hext]
    refine ⟨h4.1.congr (by omega) fun a ha ha' => hm a (by omega), htag, ?_⟩
    exact h4.2.2.congr (by omega) fun a ha ha' => hm a (by omega)
  · simp only [Layout.heapsize, extent_append, hext]
    rw [hw _ (by omega), h5]

/-- Rewriting tags keeps the payloads of the blocks around the stretch. -/
theorem Keeps.of_retag {E : Env} {m m' : Mem} {pre post : List Block} {e : Bool} {lists : Lists}
    (mid : List Block)
    (hm : ∀ a, a + 4 < E.base + 16 + extent Block.size pre ∨
      E.base + 16 + extent Block.size pre + extent Block.size mid ≤ a + 4 → m' a = m a)
    (hmid : spans true (16 + extent Block.size pre) mid = []) :
    Keeps E ⟨pre ++ (mid ++ post), e, lists⟩ m m' := by
  intro o n hon a ha ha'
  simp only [spans_append, hmid, List.mem_append, List.not_mem_nil, false_or] at hon
  rcases hon with hon | hon
  · have := spans_bounds hon
    exact hm _ (by omega)
  · have := spans_bounds hon
    exact hm _ (by omega)

end CsoMalloc
