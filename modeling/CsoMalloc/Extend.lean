import CsoMalloc.Allocate

/-! Where the heap comes from: `mm_init` lays out the first block, `extend_heap`
adds one at the end. -/

namespace CsoMalloc

open ByteMemory Tiling

variable {E : Env} {s : State} {L L' : Layout}

theorem Refines.of_image (h : Refines E s L) {m : Mem} {heads : Fin freelistCount → Nat}
    (hi : Image E m heads L') (hs : L'.heapsize = L.heapsize) :
    Refines E { s with mem := m, freeLists := heads } L' :=
  ⟨h.startBrk, h.maxAddr, hs ▸ h.brk, h.heapStart, hs ▸ h.heapEnd, h.page, hi⟩

theorem Layout.WF.heapsize_ge (h : L.WF) : 32 ≤ L.heapsize := by
  cases hb : L.blocks with
  | nil => exact absurd hb h.nonempty
  | cons b bs =>
    have := b.size_ge
    simp only [Layout.heapsize, hb, extent_cons]
    omega

/-- The tags that `extend_heap` writes: a free block and a new epilogue. -/
theorem Image.extend (h : Image E s.mem s.freeLists L) (hwf : L.WF) {k : Size}
    (hk : L.heapsize + k ≤ maxHeap) :
    Image E (putw (tagMem s.mem (E.base + L.heapsize) (L.extend k).block)
        (E.base + L.heapsize + k - 4) (epilogueWord false)) s.freeLists (L.extend k).layout ∧
      Keeps E L s.mem (putw (tagMem s.mem (E.base + L.heapsize) (L.extend k).block)
        (E.base + L.heapsize + k - 4) (epilogueWord false)) := by
  have hge := hwf.heapsize_ge
  have := maxHeap_eq
  have hbs : (L.extend k).block.size = k := rfl
  have hm : ∀ a, a + 4 < E.base + L.heapsize →
      putw (tagMem s.mem (E.base + L.heapsize) (L.extend k).block)
        (E.base + L.heapsize + k - 4) (epilogueWord false) a = s.mem a := by
    intro a ha
    rw [putw_out (by omega), tagMem_out (by omega) (by omega)]
  have hw : ∀ x, x + 8 ≤ E.base + L.heapsize →
      getw (putw (tagMem s.mem (E.base + L.heapsize) (L.extend k).block)
        (E.base + L.heapsize + k - 4) (epilogueWord false)) x = getw s.mem x :=
    fun x hx => getw_congr fun a ha ha' => hm a (by omega)
  constructor
  · refine ⟨?_, ?_, ?_, ?_, ?_, ?_⟩
    · rw [hw _ (by omega), h.padding]
    · rw [hw _ (by omega), h.prologueHdr]
    · rw [hw _ (by omega), h.prologueFtr]
    · have hend : E.base + 16 + extent Block.size L.blocks = E.base + L.heapsize := by
        simp only [Layout.heapsize]
        omega
      have hs : (L.extend k).layout.blocks = L.blocks ++ [(L.extend k).block] := by
        simp [Layout.extend, Focus.layout]
      rw [hs, tagged_append, hend]
      refine ⟨h.tags.congr (by omega) fun a _ ha => hm a (by omega), ?_⟩
      refine (tagged_tagMem (m := s.mem) (by omega) (by omega)).congr (by omega) fun a _ ha => ?_
      simp only [extent_cons, extent_nil, hbs] at ha
      exact putw_out (by omega)
    · rw [(L.extend_allocated k).2, ← Nat.add_assoc, getw_putw (by decide)]
      rfl
    · refine h.lists.of_out fun i o hoi a ha ha' => hm a ?_
      obtain ⟨n, hn, _⟩ := (hwf.listed.mem_iff i o).mp hoi
      have := spans_bounds hn
      simp only [Layout.heapsize]
      omega
  · intro o n hon a ha ha'
    have := spans_bounds hon
    exact hm _ (by simp only [Layout.heapsize]; omega)

theorem Refines.extendHeap_eq (h : Refines E s L) (hwf : L.WF) {k : Size}
    (hk : L.heapsize + k ≤ maxHeap) :
    CsoMalloc.extendHeap s k = CsoMalloc.coalesce { s with
      mem := putw (tagMem s.mem (E.base + L.heapsize) (L.extend k).block)
        (E.base + L.heapsize + k - 4) (epilogueWord false)
      memBrk := E.base + L.heapsize + k
      heapEnd := E.base + L.heapsize + k - 1 } (E.base + L.heapsize) := by
  have hge := hwf.heapsize_ge
  have := E.base_high
  have := maxHeap_eq
  have hbs : (L.extend k).block.size = k := rfl
  have hsb : s.memSbrk (toInt k) =
      ({ s with memBrk := E.base + L.heapsize + k }, E.base + L.heapsize) := by
    rw [memSbrk_eq (by omega) (by rw [h.brk]; omega), if_pos (by rw [h.brk, h.maxAddr]; omega), h.brk]
  have hpa : ({ s with memBrk := E.base + L.heapsize + k } : State).getPrevalloc
      (wadd s.heapEnd 1) = 2 * L.epiPrev.toNat := by
    have := h.heapEnd
    rw [wadd_eq (by omega), h.heapEnd, State.getPrevalloc, getBlockhdr_eq (by omega) (by omega),
      State.getw, h.image.epilogue, epilogueWord_and_prevalloc]
  have htag := putw_tags (s := { s with memBrk := E.base + L.heapsize + k })
    (p := E.base + L.heapsize) (b := (L.extend k).block) (by omega) (by omega)
    (w := pack k (2 * L.epiPrev.toNat)) (Block.pack_free (b := (L.extend k).block) rfl)
  have hnext : ({ s with
      mem := tagMem s.mem (E.base + L.heapsize) (L.extend k).block
      memBrk := E.base + L.heapsize + k } : State).getNextblock (E.base + L.heapsize) =
      E.base + L.heapsize + k :=
    getNextblock_eq (b := (L.extend k).block) (by omega) (by omega)
      (getw_tagMem_header (by omega) (by omega))
  have hhi : wsub (E.base + L.heapsize + k) 1 = E.base + L.heapsize + k - 1 :=
    wsub_eq (by omega) (by omega)
  have hep : pack epilogueSize thisalloc = epilogueWord false := rfl
  simp only [CsoMalloc.extendHeap, hsb, hpa, htag, hnext]
  rw [if_neg (by simp only [minusOne]; omega), getBlockhdr_eq (by omega) (by omega), hep]
  simp only [State.memHeapHi, State.putw, hhi]

theorem Refines.extendHeap (h : Refines E s L) (hwf : L.WF) {k : Size}
    (hk : L.heapsize + k ≤ maxHeap) :
    ∃ s', CsoMalloc.extendHeap s k = some (s', E.base + (L.extend k).coalesce.offset) ∧
      Refines E s' (L.extend k).coalesce.layout ∧ Keeps E L s.mem s'.mem := by
  have hoff : (L.extend k).offset = L.heapsize := by
    simp [Layout.extend, Focus.offset, Layout.heapsize]
  have hopen := Layout.extend_open hwf hk
  have hhs : (L.extend k).coalesce.layout.heapsize = L.heapsize + k :=
    (Focus.coalesce_allocated hopen).2.trans (L.extend_allocated k).2
  obtain ⟨hi, hkeep⟩ := h.image.extend hwf hk
  obtain ⟨m, heads, he, hi', hk'⟩ := Image.coalesce (s := { s with
    mem := putw (tagMem s.mem (E.base + L.heapsize) (L.extend k).block)
      (E.base + L.heapsize + k - 4) (epilogueWord false)
    memBrk := E.base + L.heapsize + k
    heapEnd := E.base + L.heapsize + k - 1 }) hi hopen
  rw [hoff] at he
  refine ⟨_, (h.extendHeap_eq hwf hk).trans he,
    ⟨h.startBrk, h.maxAddr, ?_, h.heapStart, ?_, h.page, hi'⟩,
    hkeep.trans hk' fun x hx => (L.extend_allocated k).1 ▸ hx⟩
  · rw [hhs]
    exact Nat.add_assoc _ _ _
  · rw [hhs]
    simp only
    omega

theorem Refines.extendHeap_full (h : Refines E s L) {k : Size} (hk : maxHeap < L.heapsize + k)
    (hlt : k.1 < 2 ^ 31) (hw : E.base + L.heapsize + k < 2 ^ 32) :
    CsoMalloc.extendHeap s k = some (s, 0) := by
  have hsb : s.memSbrk (toInt k) = (s, minusOne) := by
    rw [memSbrk_eq hlt (by rw [h.brk]; omega), if_neg (by rw [h.brk, h.maxAddr]; omega)]
  simp [CsoMalloc.extendHeap, hsb]

section Init

/-- The words `mm_init` writes before it lists the first block. -/
def initMem (m : Mem) (base : Nat) (b : Block) : Mem :=
  let m := putw m base 0x8BADF00D
  let m := putw m (base + 4) (pack dsize (thisalloc ||| prevalloc))
  let m := putw m (base + 8) (pack dsize (thisalloc ||| prevalloc))
  let m := putw m (base + b.size + 12) (epilogueWord false)
  tagMem m (base + 16) b

/-- The words around and in a heap of one block. -/
structure OneBlock (m : Mem) (base : Nat) (b : Block) : Prop where
  padding : getw m base = 0x8BADF00D
  prologueHdr : getw m (base + 4) = pack dsize (thisalloc ||| prevalloc)
  prologueFtr : getw m (base + 8) = pack dsize (thisalloc ||| prevalloc)
  tags : Tagged m (base + 16) [b]
  epilogue : getw m (base + b.size + 12) = epilogueWord false

theorem oneBlock_initMem (m : Mem) {base : Nat} {b : Block} (hb : b.size + 4 ≤ 2 ^ 32) :
    OneBlock (initMem m base b) base b := by
  have hge := b.size_ge
  have hw : pack dsize (thisalloc ||| prevalloc) < 2 ^ 32 := by decide
  refine ⟨?_, ?_, ?_, ?_, ?_⟩
  · rw [initMem, getw_tagMem_ne (by omega) (by omega), getw_putw_ne (by omega),
      getw_putw_ne (by omega), getw_putw_ne (by omega), getw_putw (by decide)]
  · rw [initMem, getw_tagMem_ne (by omega) (by omega), getw_putw_ne (by omega),
      getw_putw_ne (by omega), getw_putw hw]
  · rw [initMem, getw_tagMem_ne (by omega) (by omega), getw_putw_ne (by omega), getw_putw hw]
  · exact tagged_tagMem (by omega) hb
  · rw [initMem, getw_tagMem_ne (by omega) (by omega), getw_putw (by decide)]

theorem image_initMem (m : Mem) {b : Block} (hfit : b.size + 16 ≤ maxHeap) :
    Image E (initMem m E.base b) (fun _ => 0) ⟨[b], false, fun _ => []⟩ := by
  have := maxHeap_eq
  have hw : OneBlock (initMem m E.base b) E.base b := oneBlock_initMem m (by omega)
  have he : E.base + Layout.heapsize ⟨[b], false, fun _ => []⟩ - 4 = E.base + b.size + 12 := by
    simp only [Layout.heapsize, extent_cons, extent_nil]
    omega
  refine ⟨hw.padding, hw.prologueHdr, hw.prologueFtr, hw.tags, ?_, freeLists_empty _⟩
  rw [he]
  exact hw.epilogue

def Env.firstBlock (E : Env) : Block := ⟨E.page, false, true, E.page.2.1, E.page.2.2⟩

/-- The state in which `mm_init` lists the first block. -/
def initState (E : Env) (s : State) : State :=
  { s with
    mem := initMem s.mem E.base E.firstBlock
    memStartBrk := E.base
    memBrk := E.base + (E.page + 16)
    memMaxAddr := E.base + maxHeap
    freeLists := fun _ => 0
    pageSize := E.pageSize
    adjustedPagesize := E.page
    heapStart := E.base
    heapEnd := E.base + E.page + 15 }

theorem Env.adjustBytesize_page (E : Env) : adjustBytesize (E.pageSize * 2 % 2 ^ 32) = E.page := by
  have hroom := E.room
  have := maxHeap_eq
  have : 2 * E.pageSize < 2 ^ 31 := by
    simp only [fitSize] at hroom
    omega
  rw [Nat.mul_comm, Nat.mod_eq_of_lt (by omega), adjustBytesize_eq (by omega)]
  rfl

/-- The heap of one block `b` that `mm_init` builds. -/
def firstHeap (arena pagesize : Nat) (b : Block) (s : State) : State :=
  { s with
    mem := initMem s.mem arena b
    memStartBrk := arena
    memBrk := arena + (b.size + 16)
    memMaxAddr := arena + maxHeap
    freeLists := fun _ => 0
    pageSize := pagesize
    adjustedPagesize := b.size
    heapStart := arena
    heapEnd := arena + b.size + 15 }

/-- `mm_init` when the first request succeeds. -/
theorem mmInit_of_fit {arena pagesize : Nat} {b : Block} (s : State)
    (hb : adjustBytesize (pagesize * 2 % 2 ^ 32) = b.size) (hfree : b.alloc = false)
    (hprev : b.prevAlloc = true) (hpos : 0 < arena) (hmax : arena + maxHeap < 2 ^ 32)
    (hroom : b.size + 16 ≤ maxHeap) :
    mmInit arena pagesize s =
      (addToList (firstHeap arena pagesize b s) (arena + 16) (calcListIndex b.size)).bind
        fun t => some (t, 0) := by
  have hge := b.size_ge
  have := maxHeap_eq
  have hinc : wadd b.size 16 = b.size + 16 := wadd_eq (by omega)
  have hsb : ∀ t : State, t.memBrk = arena → t.memMaxAddr = arena + maxHeap →
      t.memSbrk (toInt (b.size + 16)) =
        ({ t with memBrk := arena + (b.size + 16) }, arena) := by
    intro t ht hm
    rw [memSbrk_eq (by omega) (by omega), ht, hm, if_pos (by omega)]
  have hhi : wsub (arena + (b.size + 16)) 1 = arena + b.size + 15 := by
    rw [wsub_eq (by omega) (by omega)]
    omega
  have hfw : pack b.size prevalloc = b.word := by
    have := Block.pack_free hfree
    rwa [hprev] at this
  have hep : pack epilogueSize thisalloc = epilogueWord false := rfl
  have hftr : wsub (wadd (wsub (arena + b.size + 15) 4) 1) 4 = arena + 16 + b.size - 8 := by
    rw [wsub_eq (a := arena + b.size + 15) (by omega) (by omega), wadd_eq (by omega),
      wsub_eq (by omega) (by omega)]
    omega
  have hmx : wadd arena maxHeap = arena + maxHeap := wadd_eq hmax
  have h1 : wadd arena 4 = arena + 4 := wadd_eq (by omega)
  have h2 : wadd arena 8 = arena + 8 := wadd_eq (by omega)
  have h3 : wadd (wadd arena b.size) 12 = arena + b.size + 12 := by
    rw [wadd_eq (a := arena) (by omega), wadd_eq (by omega)]
  have h4 : wadd arena 12 = arena + 16 - 4 := by
    rw [wadd_eq (by omega)]
    omega
  have h5 : wadd arena 16 = arena + 16 := wadd_eq (by omega)
  have hin : ∀ p, arena ≤ p → p + 4 ≤ arena + (b.size + 16) →
      (arena ≤ p ∧ p + 4 ≤ arena + maxHeap) = True :=
    fun p hp hp' => eq_true ⟨hp, by omega⟩
  simp only [mmInit, State.memInit, if_neg hpos.ne', Option.bind_eq_bind, Option.bind_some, hb,
    wsize, Nat.reduceMul, hinc, hmx, hsb, State.memHeapHi, State.storew, State.putw, hhi, hftr, hfw,
    hep, h1, h2, h3, h4, h5, hin arena le_rfl (by omega), hin (arena + 4) (by omega) (by omega),
    hin (arena + 8) (by omega) (by omega), hin (arena + b.size + 12) (by omega) (by omega),
    hin (arena + 16 - 4) (by omega) (by omega),
    hin (arena + 16 + b.size - 8) (by omega) (by omega), if_true, firstHeap, initMem, tagMem]
  rfl

theorem mmInit_eq (E : Env) (s : State) :
    mmInit E.base E.pageSize s =
      (addToList (initState E s) (E.base + 16) (calcListIndex E.page)).bind fun t => some (t, 0) := by
  have hA : E.page.1 + 16 ≤ maxHeap := E.room
  have hbase := E.base_high
  exact mmInit_of_fit (b := E.firstBlock) s E.adjustBytesize_page rfl rfl E.base_pos (by omega) hA

/-- `mm_init` builds the initial heap whatever state it finds. -/
theorem mmInit_refines (E : Env) (s : State) :
    ∃ s', mmInit E.base E.pageSize s = some (s', 0) ∧ Refines E s' (Layout.initial E.page) := by
  have hA : E.page.1 + 16 ≤ maxHeap := E.room
  have hhs : Layout.heapsize ⟨[E.firstBlock], false, fun _ => []⟩ = 16 + E.page := by
    simp [Layout.heapsize, Env.firstBlock]
  obtain ⟨m, heads, he, hi, _⟩ := Image.add (s := initState E s) (o := 16) (n := E.page)
    (image_initMem s.mem hA) (by omega)
    (show Listed (fun _ => []) [] from ⟨fun i => List.nodup_nil, fun i o => by simp⟩) (by simp)
    (by simp [Env.firstBlock])
  refine ⟨{ initState E s with mem := m, freeLists := heads }, ?_,
    rfl, rfl, ?_, rfl, ?_, rfl, hi⟩
  · rw [mmInit_eq, he]
    rfl
  · simp only [initState, Layout.initial, Layout.heapsize, extent_cons, extent_nil]
    omega
  · simp only [initState, Layout.initial, Layout.heapsize, extent_cons, extent_nil]
    omega

end Init

end CsoMalloc
