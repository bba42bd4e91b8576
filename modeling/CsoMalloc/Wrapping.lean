import CsoMalloc.Contract
import CsoMalloc.Merging

/-! Requests for which the new break wraps. `mem_sbrk` takes such a break for one
within the arena, and the block that `mm_malloc` hands out reaches over the end
of the address space. -/

namespace CsoMalloc

open ByteMemory Tiling

/-- The same word at two addresses, as a header and a footer. The block between
them may reach over the end of the address space. -/
def pairTags (m : Mem) (h x w : Nat) : Mem := putw (putw m h w) x w

section Tags

variable {s : State} {m : Mem} {p h x y w : Nat} {c : Block}

theorem getw_pairTags_ne (h1 : y + 4 ≤ h ∨ h + 4 ≤ y) (h2 : y + 4 ≤ x ∨ x + 4 ≤ y) :
    getw (pairTags m h x w) y = getw m y := by
  rw [pairTags, getw_putw_ne h2, getw_putw_ne h1]

theorem getw_pairTags_header (hw : w < 2 ^ 32) (hx : h + 4 ≤ x ∨ x + 4 ≤ h) :
    getw (pairTags m h x w) h = w := by
  rw [pairTags, getw_putw_ne hx, getw_putw hw]

theorem putw_pairTags (hlt : c.size + 4 ≤ 2 ^ 32) (hw : w = c.word) (hh : State.getBlockhdr p = h)
    (hx : wsub (wadd p c.size) 8 = x) :
    (s.putw (State.getBlockhdr p) w).putw ((s.putw (State.getBlockhdr p) w).getBlockftr p) w =
      { s with mem := pairTags s.mem h x c.word } := by
  subst hw
  have hhdr : getw (s.putw h c.word).mem (State.getBlockhdr p) = c.word := by
    rw [hh]
    exact getw_putw (Block.word_lt hlt)
  have hftr := getBlockftr_of_header hlt hhdr
  rw [hh, hftr, hx]
  rfl

theorem footer_apart {k : Nat} (hk : 16 ≤ k) (hk' : k + 16 ≤ 2 ^ 32) (p : Nat) :
    State.getBlockhdr p + 4 ≤ wsub (wadd p k) 8 ∨ wsub (wadd p k) 8 + 4 ≤ State.getBlockhdr p := by
  simp only [State.getBlockhdr, wsize, wadd, wsub]
  omega

theorem header_apart {k : Nat} (hk : 16 ≤ k) (hk' : k + 16 ≤ 2 ^ 32) (p : Nat) :
    State.getBlockhdr p + 4 ≤ State.getBlockhdr (wadd p k) ∨
      State.getBlockhdr (wadd p k) + 4 ≤ State.getBlockhdr p := by
  simp only [State.getBlockhdr, wsize, wadd, wsub]
  omega

end Tags

section Allocate

variable {t t₁ : State} {p : Nat} {b front rest : Block}

theorem allocate_whole_size (hlt : b.size + 16 ≤ 2 ^ 32)
    (hb : getw t.mem (State.getBlockhdr p) = b.word) {a : Nat} (ha : a ≤ b.size)
    (ha' : b.size < a + 16) : ∃ t', allocate t p a = some t' ∧ t'.getThissize p = b.size := by
  have hbg := b.size_ge
  have h1 := getThissize_of_header (by omega) hb
  have h2 := getPrevalloc_of_header hb
  have h3 : wsub b.size a = b.size - a := wsub_eq ha (by omega)
  obtain ⟨c, hcs, hca, hcp⟩ : ∃ c : Block, c.size = b.size ∧ c.alloc = true ∧
      c.prevAlloc = b.prevAlloc := ⟨{ b with alloc := true }, rfl, rfl, rfl⟩
  have hw : pack b.size (thisalloc ||| 2 * b.prevAlloc.toNat) = c.word := by
    rw [← hcs, ← hcp]
    exact Block.pack_alloc hca
  have hxo := footer_apart hbg hlt p
  have hyo := header_apart hbg hlt p
  obtain ⟨h, hh⟩ : ∃ h, State.getBlockhdr p = h := ⟨_, rfl⟩
  obtain ⟨x, hx⟩ : ∃ x, wsub (wadd p c.size) 8 = x := ⟨_, rfl⟩
  obtain ⟨y, hy⟩ : ∃ y, State.getBlockhdr (wadd p c.size) = y := ⟨_, rfl⟩
  rw [← hcs, hh, hx] at hxo
  rw [← hcs, hh, hy] at hyo
  have htags := fun t₁ => putw_pairTags (s := t₁) (by omega) rfl hh hx
  simp only [allocate, h1, h2, h3, hw, htags]
  rw [if_neg (by simp only [minSize, wsize]; omega)]
  generalize removeFromList t p (calcListIndex b.size) = t₁
  have hhdr : getw (pairTags t₁.mem h x c.word) (State.getBlockhdr p) = c.word := by
    rw [hh]
    exact getw_pairTags_header (Block.word_lt (by omega)) hxo
  have hnext := @getNextblock_of_header { t₁ with mem := pairTags t₁.mem h x c.word } p c
    (by omega) hhdr
  rw [hnext, hy]
  refine ⟨_, rfl, ?_⟩
  rw [← hcs]
  refine getThissize_of_header (by omega) ?_
  rw [hh] at hhdr ⊢
  exact (getw_putw_ne hyo).trans hhdr

/-- The words that a split writes: two headers, two footers and the links of
the rest. -/
def splitWords (p front rest : Nat) : List Nat :=
  [State.getBlockhdr p, wsub (wadd p front) 8, State.getBlockhdr (wadd p front), wadd p front,
    wsub (wadd p (front + rest)) 8]

/-- The tags of the two parts and the header behind them do not meet, nor does the
header of the front meet the links of the rest. -/
theorem splitTags_apart {front rest : Nat} (hf : 16 ≤ front) (hr : 16 ≤ rest)
    (hlt : front + rest + 16 ≤ 2 ^ 32) (p : Nat) :
    [State.getBlockhdr p, wsub (wadd p front) 8, State.getBlockhdr (wadd p front),
        wsub (wadd p (front + rest)) 8, State.getBlockhdr (wadd p (front + rest))].Pairwise
      (fun a b => a + 4 ≤ b ∨ b + 4 ≤ a) ∧
    (State.getBlockhdr p + 4 ≤ wadd p front ∨ wadd p front + 8 ≤ State.getBlockhdr p) := by
  simp only [List.pairwise_cons, List.Pairwise.nil, List.mem_cons, List.not_mem_nil, or_false,
    forall_eq_or_imp, forall_eq, false_implies, implies_true, and_true, State.getBlockhdr, wsize,
    wadd, wsub]
  omega

theorem allocate_split_eq {h x q g z : Nat} (hlt : front.size + rest.size + 16 ≤ 2 ^ 32)
    (hb : getw t.mem (State.getBlockhdr p) = b.word) (hsz : front.size + rest.size = b.size)
    (hfa : front.alloc = true) (hfp : front.prevAlloc = b.prevAlloc) (hra : rest.alloc = false)
    (hrp : rest.prevAlloc = true) (hs : removeFromList t p (calcListIndex b.size) = t₁)
    (hh : State.getBlockhdr p = h) (hq : wadd p front.size = q) (hx : wsub q 8 = x)
    (hg : State.getBlockhdr q = g) (hz : wsub (wadd q rest.size) 8 = z) (hhx : h + 4 ≤ x ∨ x + 4 ≤ h) :
    allocate t p front.size = (coalesce { t₁ with
      mem := pairTags (pairTags t₁.mem h x front.word) g z rest.word } q).bind fun r => some r.1 := by
  have hfg := front.size_ge
  have hrg := rest.size_ge
  have h1 := getThissize_of_header (by omega) hb
  have h2 := getPrevalloc_of_header hb
  have h3 : wsub b.size front.size = rest.size := by
    rw [wsub_eq (by omega) (by omega)]
    omega
  have hwf : pack front.size (thisalloc ||| 2 * b.prevAlloc.toNat) = front.word := by
    rw [← hfp]
    exact Block.pack_alloc hfa
  have hwr : pack rest.size prevalloc = rest.word := by
    have := Block.pack_free hra
    rwa [hrp] at this
  have htags := fun t₁ => putw_pairTags (s := t₁) (w := front.word) (by omega) rfl hh
    (by rw [hq, hx])
  have htags' := fun t₁ => putw_pairTags (s := t₁) (w := rest.word) (by omega) rfl hg hz
  have hhdr : getw (pairTags t₁.mem h x front.word) (State.getBlockhdr p) = front.word := by
    rw [hh]
    exact getw_pairTags_header (Block.word_lt (by omega)) hhx
  have hnext := @getNextblock_of_header { t₁ with mem := pairTags t₁.mem h x front.word } p front
    (by omega) hhdr
  simp only [allocate, h1, h2, h3, hs, hwf, hwr, htags]
  rw [if_pos (by simp only [minSize, wsize]; omega), hnext, hq, htags']
  rfl

/-- `allocate` with a split, where no listed block is near and the block behind
is allocated. -/
theorem allocate_split_size {ys : Fin freelistCount → List Nat}
    (hlt : front.size + rest.size + 16 ≤ 2 ^ 32) (hb : getw t.mem (State.getBlockhdr p) = b.word)
    (hsz : front.size + rest.size = b.size) (hfa : front.alloc = true)
    (hfp : front.prevAlloc = b.prevAlloc) (hra : rest.alloc = false) (hrp : rest.prevAlloc = true)
    (hs : removeFromList t p (calcListIndex b.size) = t₁)
    (hn : getw t₁.mem (State.getBlockhdr (wadd p b.size)) &&& thisalloc = 1)
    (hlists : FreeLists t₁.mem t₁.freeLists ys) (hq8 : wadd p front.size + 8 ≤ 2 ^ 32)
    (hout : ∀ i, ∀ y ∈ ys i, ∀ z ∈ splitWords p front.size rest.size, y + 8 ≤ z ∨ z + 8 ≤ y) :
    ∃ t', allocate t p front.size = some t' ∧ t'.getThissize p = front.size := by
  have hfg := front.size_ge
  have hend : wadd (wadd p front.size) rest.size = wadd p b.size := by
    rw [← hsz]
    simp only [wadd]
    omega
  obtain ⟨ho1, ho2⟩ := splitTags_apart hfg rest.size_ge hlt p
  simp only [splitWords, List.mem_cons, List.not_mem_nil, or_false, forall_eq_or_imp,
    forall_eq] at hout
  simp only [List.pairwise_cons, List.Pairwise.nil, List.mem_cons, List.not_mem_nil, or_false,
    forall_eq_or_imp, forall_eq, false_implies, implies_true, and_true] at ho1
  rw [hsz] at ho1 hout
  obtain ⟨h, hh⟩ : ∃ h, State.getBlockhdr p = h := ⟨_, rfl⟩
  obtain ⟨q, hq⟩ : ∃ q, wadd p front.size = q := ⟨_, rfl⟩
  obtain ⟨x, hx⟩ : ∃ x, wsub q 8 = x := ⟨_, rfl⟩
  obtain ⟨g, hg⟩ : ∃ g, State.getBlockhdr q = g := ⟨_, rfl⟩
  obtain ⟨e, he⟩ : ∃ e, wadd p b.size = e := ⟨_, rfl⟩
  obtain ⟨z, hz⟩ : ∃ z, wsub e 8 = z := ⟨_, rfl⟩
  obtain ⟨y, hy⟩ : ∃ y, State.getBlockhdr e = y := ⟨_, rfl⟩
  simp only [hh, hq, hx, hg, he, hz, hy] at ho1 ho2 hout hn hend hq8
  have hal := allocate_split_eq hlt hb hsz hfa hfp hra hrp hs hh hq hx hg (by rw [hend, hz])
    (by omega)
  -- the heap in which the rest is coalesced
  obtain ⟨m, hm⟩ : ∃ m, pairTags (pairTags t₁.mem h x front.word) g z rest.word = m := ⟨_, rfl⟩
  have hfront : getw m h = front.word := by
    rw [← hm, getw_pairTags_ne (by omega) (by omega)]
    exact getw_pairTags_header (Block.word_lt (by omega)) (by omega)
  have hrest : getw m (State.getBlockhdr q) = rest.word := by
    rw [hg, ← hm]
    exact getw_pairTags_header (Block.word_lt (by omega)) (by omega)
  have hbehind : getw m (State.getBlockhdr (wadd q rest.size)) &&& thisalloc = 1 := by
    rw [hend, hy, ← hm, getw_pairTags_ne (by omega) (by omega), getw_pairTags_ne (by omega) (by omega)]
    exact hn
  have hfree : FreeLists m t₁.freeLists ys := by
    rw [← hm]
    refine (((hlists.putw ?_).putw ?_).putw ?_).putw ?_ <;> intro i c hc <;>
      have := hout i c hc <;> omega
  rw [hm] at hal
  obtain ⟨t', hco, hkeep⟩ := @coalesce_alone_listed { t₁ with mem := m } q rest ys (by omega) hrest
    hrp hbehind hfree hq8 fun j c hc => by
      have := hout j c hc
      simp only [Apart]
      omega
  rw [hco] at hal
  refine ⟨t', hal, getThissize_of_header (by omega) ?_⟩
  rw [hh, hkeep h (by omega) fun j c hc => by have := hout j c hc; omega]
  exact hfront

end Allocate

section Wrapped

variable {E : Env} {s : State} {L : Layout} {k : Size} {p q x y : Nat}

/-- A break that wraps is far below the heap. -/
theorem Env.wrap_far (E : Env) (hfit : L.heapsize ≤ maxHeap) (hlt : k.1 < 2 ^ 31)
    (hw : 2 ^ 32 ≤ E.base + L.heapsize + k) :
    wadd (E.base + L.heapsize) k + 2 ^ 30 ≤ E.base := by
  have := maxHeap_eq
  have := E.base_high
  simp only [wadd]
  omega

/-- `extend_heap` when the new break wraps: `mem_sbrk` takes it for a break
within the arena. -/
theorem Refines.extendHeap_wrap (h : Refines E s L) (hwf : L.WF) (hlt : k.1 < 2 ^ 31)
    (hw : 2 ^ 32 ≤ E.base + L.heapsize + k) (hp : E.base + L.heapsize = p) (hq : wadd p k = q)
    (hx : wsub q 8 = x) (hy : State.getBlockhdr q = y) :
    CsoMalloc.extendHeap s k = CsoMalloc.coalesce { s with
      mem := putw (pairTags s.mem (p - 4) x (L.extend k).block.word) y (epilogueWord false)
      memBrk := q
      heapEnd := wsub q 1 } p := by
  have hfit := hwf.fits
  have := E.base_high
  have := maxHeap_eq
  have hkg := k.2.1
  have hfar := E.wrap_far hfit hlt hw
  rw [hp, hq] at hfar
  have hsb : s.memSbrk (toInt k) = ({ s with memBrk := q }, p) := by
    have hneg : ¬ ((k.1 : Int) < 0) := by omega
    have hle : ¬ q > s.memMaxAddr := by rw [h.maxAddr]; omega
    have hadd : wadd s.memBrk k = q := by rw [h.brk, hp, hq]
    simp only [State.memSbrk, toInt_eq hlt, Int.toNat_natCast, hadd, hneg, hle, or_self, if_false]
    rw [h.brk, hp]
  have hhp : State.getBlockhdr p = p - 4 := getBlockhdr_eq (by omega) (by omega)
  have hpa : ({ s with memBrk := q } : State).getPrevalloc (wadd s.heapEnd 1) =
      2 * L.epiPrev.toNat := by
    have := h.heapEnd
    rw [wadd_eq (by omega), h.heapEnd, hp, State.getPrevalloc, hhp, State.getw, ← hp,
      h.image.epilogue, epilogueWord_and_prevalloc]
  have hword : pack k (2 * L.epiPrev.toNat) = (L.extend k).block.word :=
    Block.pack_free (b := (L.extend k).block) rfl
  have htag := @putw_pairTags { s with memBrk := q } p (p - 4) x _ (L.extend k).block
    (show k.1 + 4 ≤ 2 ^ 32 by omega) hword hhp (show wsub (wadd p k) 8 = x by rw [hq, hx])
  have hhdr : getw (pairTags s.mem (p - 4) x (L.extend k).block.word) (State.getBlockhdr p) =
      (L.extend k).block.word := by
    have hxo := footer_apart hkg (by omega) p
    rw [hhp, hq, hx] at hxo
    rw [hhp]
    exact getw_pairTags_header (Block.word_lt (show k.1 + 4 ≤ 2 ^ 32 by omega)) hxo
  have hnext := @getNextblock_of_header { s with
    mem := pairTags s.mem (p - 4) x (L.extend k).block.word
    memBrk := q } p (L.extend k).block (show k.1 + 4 ≤ 2 ^ 32 by omega) hhdr
  have hnext' : wadd p (L.extend k).block.size = q := hq
  have hep : pack epilogueSize thisalloc = epilogueWord false := rfl
  simp only [CsoMalloc.extendHeap, hsb, hpa, htag, hnext, hnext', hy, hep]
  rw [if_neg (by simp only [minusOne]; omega)]
  simp only [State.memHeapHi, State.putw]

theorem Env.far_words (E : Env) (hp : p ≤ E.base + maxHeap) (hq : q + 2 ^ 30 ≤ E.base)
    (hx : wsub q 8 = x) (hy : State.getBlockhdr q = y) :
    (x + 8 ≤ E.base ∨ p + 8 ≤ x) ∧ (y + 8 ≤ E.base ∨ p + 8 ≤ y) ∧ (x + 4 ≤ y ∨ y + 4 ≤ x) := by
  have := maxHeap_eq
  have := E.base_high
  subst hx hy
  simp only [State.getBlockhdr, wsize, wsub]
  omega

theorem wrapMem_facts {m : Mem} {w : Nat} (hw : w < 2 ^ 32) (hb : E.base + 8 ≤ p)
    (hx : x + 8 ≤ E.base ∨ p + 8 ≤ x) (hy : y + 8 ≤ E.base ∨ p + 8 ≤ y) :
    getw (putw (pairTags m (p - 4) x w) y (epilogueWord false)) (p - 4) = w ∧
      getw (putw (pairTags m (p - 4) x w) y (epilogueWord false)) y = epilogueWord false ∧
      ∀ a, E.base ≤ a → a + 4 < p →
        putw (pairTags m (p - 4) x w) y (epilogueWord false) a = m a := by
  refine ⟨?_, getw_putw (by decide), fun a ha ha' => ?_⟩
  · rw [getw_putw_ne (by omega)]
    exact getw_pairTags_header hw (by omega)
  · rw [putw_out (by omega), pairTags, putw_out (by omega), putw_out (by omega)]

theorem mem_placed_middle {pre post : List Block} {b d : Block} {a p : Nat} :
    (p, d) ∈ placed Block.size a (pre ++ b :: post) ↔
      (p, d) ∈ placed Block.size a pre ∨ p = a + extent Block.size pre ∧ d = b ∨
        (p, d) ∈ placed Block.size (a + extent Block.size pre + b.size) post := by
  simp only [placed_append, placed_cons, List.mem_append, List.mem_cons, Prod.mk.injEq]

theorem Layout.row_at {pre post : List Block} {b : Block} {P : Nat}
    (hL : L.blocks = pre ++ b :: post) (hP : E.base + 16 + extent Block.size pre = P) :
    (P, b) ∈ placed Block.size (E.base + 16) L.blocks ∧
      P + b.size + extent Block.size post = E.base + L.heapsize := by
  constructor
  · rw [hL, mem_placed_middle]
    exact .inr (.inl ⟨hP.symm, rfl⟩)
  · rw [Layout.heapsize, hL, extent_append, extent_cons]
    omega

theorem Layout.WF.listed_iff (hwf : L.WF) (E : Env) (i : Fin freelistCount) (x : Nat) :
    x ∈ (L.lists i).map (E.base + ·) ↔ ∃ d, (x, d) ∈ placed Block.size (E.base + 16) L.blocks ∧
      d.alloc = false ∧ calcListIndex d.size = i := by
  rw [List.mem_map]
  constructor
  · rintro ⟨o, ho, rfl⟩
    obtain ⟨n, hn, hi⟩ := (hwf.listed.mem_iff i o).mp ho
    obtain ⟨d, hd, hfree, rfl⟩ := mem_spans.mp hn
    exact ⟨d, placed_shift.mpr hd, hfree, hi⟩
  · rintro ⟨d, hd, hfree, hi⟩
    obtain ⟨o, rfl⟩ : ∃ o, x = E.base + o := ⟨x - E.base, by have := (placed_bounds hd).1; omega⟩
    refine ⟨o, (hwf.listed.mem_iff i o).mpr ⟨d.size, mem_spans.mpr ⟨d, ?_, hfree, rfl⟩, hi⟩, rfl⟩
    exact placed_shift.mp hd

theorem Layout.WF.listed_inside (hwf : L.WF) (E : Env) (i : Fin freelistCount) :
    ∀ z ∈ (L.lists i).map (E.base + ·), ∃ c, (z, c) ∈ placed Block.size (E.base + 16) L.blocks ∧
      c.alloc = false ∧ E.base + 16 ≤ z ∧ z + c.size ≤ E.base + L.heapsize := by
  intro z hz
  obtain ⟨c, hc, hfree, _⟩ := (hwf.listed_iff E i z).mp hz
  have hbd := placed_bounds hc
  refine ⟨c, hc, hfree, hbd.1, ?_⟩
  simp only [Layout.heapsize]
  omega

theorem Layout.WF.listed_row (hwf : L.WF) (E : Env) : ∀ i, ∀ z ∈ (L.lists i).map (E.base + ·),
    ∃ c, (z, c) ∈ placed Block.size (E.base + 16) L.blocks ∧ c.alloc = false := by
  intro i z hz
  obtain ⟨c, hc, hfree, _⟩ := (hwf.listed_iff E i z).mp hz
  exact ⟨c, hc, hfree⟩

theorem Layout.WF.listed_apart (hwf : L.WF) {o : Nat} {l : Block}
    (ho : (o, l) ∈ placed Block.size (E.base + 16) L.blocks) (i : Fin freelistCount) :
    ∀ z ∈ ((L.lists i).map (E.base + ·)).filter (· ≠ o),
      ∃ c, (z, c) ∈ placed Block.size (E.base + 16) L.blocks ∧ c.alloc = false ∧
        (z + c.size ≤ o ∨ o + l.size ≤ z) := by
  intro z hz
  obtain ⟨hz, hne⟩ := List.mem_filter.mp hz
  obtain ⟨c, hc, hfree⟩ := hwf.listed_row E i z hz
  refine ⟨c, hc, hfree, ?_⟩
  rcases placed_separated hc ho with hs | hs
  · exact absurd (congrArg Prod.fst hs) (by simpa using hne)
  · exact hs

theorem Layout.WF.listed_before (hwf : L.WF) {ini : List Block} {l : Block} {o : Nat}
    (hL : L.blocks = ini ++ [l]) (ho : E.base + 16 + extent Block.size ini = o)
    (i : Fin freelistCount) : ∀ z ∈ ((L.lists i).map (E.base + ·)).filter (· ≠ o),
      E.base + 16 ≤ z ∧ ∃ c, (z, c) ∈ placed Block.size (E.base + 16) L.blocks ∧
        c.alloc = false ∧ z + c.size ≤ o := by
  intro z hz
  obtain ⟨hmem, hend⟩ := Layout.row_at hL ho
  obtain ⟨d, hd, hfree, hap⟩ := hwf.listed_apart hmem i z hz
  have hdb := placed_bounds hd
  have := d.size_ge
  simp only [Layout.heapsize, extent_nil] at hend
  exact ⟨hdb.1, d, hd, hfree, by omega⟩

theorem Refines.lists_keep {m : Mem} (h : Refines E s L) (hwf : L.WF)
    (hm : ∀ a, E.base ≤ a → a + 4 < E.base + L.heapsize → m a = s.mem a) :
    FreeLists m s.freeLists (fun i => (L.lists i).map (E.base + ·)) := by
  refine h.image.lists.congr fun i z hz a ha ha' => ?_
  obtain ⟨c, _, _, hz', hz''⟩ := hwf.listed_inside E i z hz
  have := c.size_ge
  exact hm a (by omega) (by omega)

/-- The heap that the wrapped `extend_heap` coalesces: the new block and the
epilogue have their tags, and the blocks before keep theirs. -/
theorem Refines.wrap_extend (h : Refines E s L) (hwf : L.WF) (hlt : k.1 < 2 ^ 31)
    (hw : 2 ^ 32 ≤ E.base + L.heapsize + k) (hp : E.base + L.heapsize = p) (hq : wadd p k = q)
    (hy : State.getBlockhdr q = y) :
    ∃ m, CsoMalloc.extendHeap s k =
        CsoMalloc.coalesce { s with mem := m, memBrk := q, heapEnd := wsub q 1 } p ∧
      getw m (p - 4) = (L.extend k).block.word ∧ getw m y = epilogueWord false ∧
      ∀ a, E.base ≤ a → a + 4 < p → m a = s.mem a := by
  have hfit := hwf.fits
  have hge := hwf.heapsize_ge
  have := maxHeap_eq
  have hfar := E.wrap_far hfit hlt hw
  rw [hp, hq] at hfar
  obtain ⟨x, hx⟩ : ∃ x, wsub q 8 = x := ⟨_, rfl⟩
  have hext := h.extendHeap_wrap hwf hlt hw hp hq hx hy
  obtain ⟨hxf, hyf, _⟩ := E.far_words (p := p) (by omega) hfar hx hy
  exact ⟨_, hext, wrapMem_facts (E := E)
    (Block.word_lt (b := (L.extend k).block) (show k.1 + 4 ≤ 2 ^ 32 by omega)) (by omega) hxf hyf⟩

/-- The new block lies behind an allocated one. -/
theorem Refines.wrap_whole (h : Refines E s L) (hwf : L.WF) (hlt : k.1 < 2 ^ 31)
    (hw : 2 ^ 32 ≤ E.base + L.heapsize + k) (he : L.epiPrev = true) :
    ∃ t t' p, CsoMalloc.extendHeap s k = some (t, p) ∧ p ≠ 0 ∧ allocate t p k = some t' ∧
      t'.getThissize p = k := by
  have hfit := hwf.fits
  have := E.base_high
  have := maxHeap_eq
  obtain ⟨p, hp⟩ : ∃ p, E.base + L.heapsize = p := ⟨_, rfl⟩
  obtain ⟨q, hq⟩ : ∃ q, wadd p k = q := ⟨_, rfl⟩
  obtain ⟨y, hy⟩ : ∃ y, State.getBlockhdr q = y := ⟨_, rfl⟩
  obtain ⟨m, hext, hhdr, hepi, hkeep⟩ := h.wrap_extend hwf hlt hw hp hq hy
  have hbs : (L.extend k).block.size = k := rfl
  have hhp : State.getBlockhdr p = p - 4 := getBlockhdr_eq (by omega) (by omega)
  have hlists := h.lists_keep hwf fun a ha ha' => hkeep a ha (by omega)
  obtain ⟨t, hco, hkeep'⟩ := @coalesce_alone_listed
    { s with mem := m, memBrk := q, heapEnd := wsub q 1 } p (L.extend k).block _ (by omega)
    (by rw [hhp]; exact hhdr) he (by rw [hbs, hq, hy]; exact hepi ▸ epilogueWord_and_thisalloc false)
    hlists (by omega) fun j z hz => by
      obtain ⟨c, _, _, hz', hz''⟩ := hwf.listed_inside E j z hz
      have := c.size_ge
      simp only [Apart]
      omega
  have hstill : getw t.mem (State.getBlockhdr p) = (L.extend k).block.word := by
    rw [hhp, ← hhdr]
    refine hkeep' _ (by omega) fun j z hz => ?_
    obtain ⟨c, _, _, hz', hz''⟩ := hwf.listed_inside E j z hz
    have := c.size_ge
    omega
  obtain ⟨t', hal, hsz⟩ := allocate_whole_size (by omega) hstill (a := k) le_rfl (by omega)
  exact ⟨t, t', p, hext.trans hco, by omega, hal, hsz⟩

/-- What a split of the new block writes is far from the heap, but for the
header. -/
theorem Env.split_far (E : Env) {o : Nat} (hp : p ≤ E.base + maxHeap) (ho : E.base + 16 ≤ o)
    (hop : o ≤ p) (hq : wadd p k + 2 ^ 30 ≤ E.base) :
    ∀ z ∈ splitWords o k (p - o), z = o - 4 ∨ z + 8 ≤ E.base ∨ p ≤ z := by
  have := maxHeap_eq
  have := E.base_high
  have hend : wadd o (k + (p - o)) = wadd p k := by
    simp only [wadd]
    omega
  simp only [splitWords, hend, List.mem_cons, List.not_mem_nil, or_false, forall_eq_or_imp,
    forall_eq]
  simp only [State.getBlockhdr, wsize, wsub]
  simp only [wadd] at hq ⊢
  omega

theorem Layout.WF.last_free (hwf : L.WF) (he : L.epiPrev = false) :
    ∃ ini l, L.blocks = ini ++ [l] ∧ l.alloc = false := by
  obtain ⟨ini, l, hl⟩ : ∃ ini l, L.blocks = ini ++ [l] :=
    ⟨_, _, (List.dropLast_append_getLast hwf.nonempty).symm⟩
  have hf := hwf.flags
  rw [hl, flagsOk_append] at hf
  exact ⟨ini, l, hl, hf.2 he⟩

/-- The new block lies behind a free one, which is taken off its list. -/
theorem Refines.wrap_absorb (h : Refines E s L) (hwf : L.WF) (hlt : k.1 < 2 ^ 31)
    (hw : 2 ^ 32 ≤ E.base + L.heapsize + k) (he : L.epiPrev = false) {ini : List Block} {l : Block}
    (hL : L.blocks = ini ++ [l]) (hla : l.alloc = false) (hp : E.base + L.heapsize = p)
    (hq : wadd p k = q) (hx : wsub q 8 = x) (hy : State.getBlockhdr q = y) {o : Nat}
    (ho : E.base + 16 + extent Block.size ini = o) {c : Block} (hc : l.join (L.extend k).block = c) :
    ∃ m heads, CsoMalloc.extendHeap s k = (addToList { s with
        mem := putw (putw m x c.word) (o - 4) c.word
        memBrk := q
        heapEnd := wsub q 1
        freeLists := heads } o (calcListIndex c.size)).bind (fun t => some (t, o)) ∧
      FreeLists m heads (fun i => ((L.lists i).map (E.base + ·)).filter (· ≠ o)) ∧
      getw m y = epilogueWord false := by
  have hfit := hwf.fits
  have := E.base_high
  have := maxHeap_eq
  have hfar := E.wrap_far hfit hlt hw
  obtain ⟨m, hext, hhdr, hepi, hkeep⟩ := h.wrap_extend hwf hlt hw hp hq hy
  rw [hp, hq] at hfar
  obtain ⟨_, hyf, _⟩ := E.far_words (p := p) (by omega) hfar hx hy
  obtain ⟨hmem, hend⟩ := Layout.row_at hL ho
  rw [extent_nil] at hend
  have hlg := l.size_ge
  have hbs : (L.extend k).block.size = k := rfl
  have hpo : p - l.size = o := by omega
  obtain ⟨hlw, hlf⟩ := tagged_iff.mp h.image.tags o l hmem
  have hlists := h.lists_keep hwf fun a ha ha' => hkeep a ha (by omega)
  obtain ⟨m₁, heads₁, hrem, hf₁, hl₁⟩ := FreeLists.remove_row
    (s := { s with mem := m, memBrk := q, heapEnd := wsub q 1 }) hlists (hwf.listed_row E)
    ((hwf.listed_iff E _ o).mpr ⟨l, hmem, hla, rfl⟩)
  have hlw' : getw m (o - 4) = l.word := by
    rw [← hlw]
    exact getw_congr fun a ha ha' => hkeep a (by omega) (by omega)
  have hlf' : sizeField (getw m (p - 8)) = l.size := by
    have hfoot : getw m (p - 8) = getw s.mem (o + l.size - 8) := by
      rw [← hpo, Nat.sub_add_cancel (by omega)]
      exact getw_congr fun a ha ha' => hkeep a (by omega) (by omega)
    rw [hfoot, hlf hla]
  simp only [Layout.heapsize] at hp
  have hco := @coalesce_prev_alone { s with mem := m, memBrk := q, heapEnd := wsub q 1 }
    { s with mem := m₁, memBrk := q, heapEnd := wsub q 1, freeLists := heads₁ } p l
    (L.extend k).block (by omega) (by omega) (by omega) hhdr he
    (by rw [hbs, hq, hy]; exact hepi ▸ epilogueWord_and_thisalloc false) hla
    (by rw [hpo]; exact hlw') hlf' (by rw [hpo]; exact hrem)
    (by rw [hpo]; exact (hl₁.header (by omega) hmem).trans hlw')
    ((hl₁.outside (by omega)).trans hhdr)
  rw [hbs, hq, hx, hpo, hc] at hco
  exact ⟨m₁, heads₁, hext.trans hco, hf₁, (hl₁.outside (by omega)).trans hepi⟩

/-- The new block is merged with the free one before it. -/
theorem Refines.wrap_merge (h : Refines E s L) (hwf : L.WF) (hlt : k.1 < 2 ^ 31)
    (hw : 2 ^ 32 ≤ E.base + L.heapsize + k) (he : L.epiPrev = false) {ini : List Block} {l : Block}
    (hL : L.blocks = ini ++ [l]) (hla : l.alloc = false) (hp : E.base + L.heapsize = p)
    (hq : wadd p k = q) (hy : State.getBlockhdr q = y) {o : Nat}
    (ho : E.base + 16 + extent Block.size ini = o) :
    ∃ t ys, CsoMalloc.extendHeap s k = some (t, o) ∧
      getw t.mem (o - 4) = (l.join (L.extend k).block).word ∧
      getw t.mem y = epilogueWord false ∧ FreeLists t.mem t.freeLists ys ∧
      o ∈ ys (calcListIndex (l.join (L.extend k).block).size) ∧
      ∀ i, ∀ z ∈ ys i, z = o ∨
        ∃ c, (z, c) ∈ placed Block.size (E.base + 16) L.blocks ∧ c.alloc = false ∧ z + c.size ≤ o := by
  have hfit := hwf.fits
  have := E.base_high
  have := maxHeap_eq
  have hfar := E.wrap_far hfit hlt hw
  rw [hp, hq] at hfar
  obtain ⟨x, hx⟩ : ∃ x, wsub q 8 = x := ⟨_, rfl⟩
  obtain ⟨hxf, hyf, hxy⟩ := E.far_words (p := p) (by omega) hfar hx hy
  obtain ⟨_, hend⟩ := Layout.row_at hL ho
  rw [extent_nil] at hend
  have hlg := l.size_ge
  have hjs : (l.join (L.extend k).block).size = l.size + k := rfl
  obtain ⟨c, hc⟩ : ∃ c, l.join (L.extend k).block = c := ⟨_, rfl⟩
  obtain ⟨m, heads, hext, hf, hepi⟩ := h.wrap_absorb hwf hlt hw he hL hla hp hq hx hy ho hc
  rw [hc] at hjs ⊢
  have hbefore := hwf.listed_before hL ho
  have hclear : ∀ i, ∀ z ∈ ((L.lists i).map (E.base + ·)).filter (· ≠ o),
      E.base + 16 ≤ z ∧ z + 16 ≤ o := by
    intro i z hz
    obtain ⟨hzb, d, _, _, hzo⟩ := hbefore i z hz
    have := d.size_ge
    exact ⟨hzb, by omega⟩
  have hf₁ := hf.putw (p := x) (w := c.word) fun i z hz => by have := hclear i z hz; omega
  have hf₂ := hf₁.putw (p := o - 4) (w := c.word) fun i z hz => by have := hclear i z hz; omega
  obtain ⟨m₃, heads₃, hadd, hf₃, hfr⟩ := addToList_spec
    (s := { s with
      mem := putw (putw m x c.word) (o - 4) c.word
      memBrk := q
      heapEnd := wsub q 1
      freeLists := heads }) (calcListIndex c.size) hf₂ (by omega : 4 ≤ o ∧ o + 8 ≤ 2 ^ 32)
    fun i z hz => by
      have := hclear i z hz
      simp only [Apart]
      omega
  have hnear : ∀ a, a + 8 ≤ E.base ∨ p ≤ a + 4 ∨ a = o - 4 →
      getw m₃ a = getw (putw (putw m x c.word) (o - 4) c.word) a := by
    refine fun a ha => getw_congr fun b hb hb' => hfr b fun z hz => ?_
    rcases List.mem_cons.mp hz with rfl | hz
    · omega
    · have := hclear _ z (List.mem_of_mem_getLast? (by simpa using hz))
      omega
  rw [hadd] at hext
  refine ⟨_, _, hext, ?_, ?_, hf₃, ?_, fun i z hz => ?_⟩
  · rw [hnear _ (.inr (.inr rfl)), getw_putw (Block.word_lt (by omega))]
  · rw [hnear y (by omega), getw_putw_ne (by omega), getw_putw_ne (by omega), hepi]
  · rw [Function.update_self]
    simp
  · rw [update_append, List.mem_append] at hz
    rcases hz with hz | hz
    · exact .inr (hbefore i z hz).2
    · exact .inl (List.mem_singleton.mp (List.mem_ite_nil_right.mp hz).2)

theorem Refines.wrap_split (h : Refines E s L) (hwf : L.WF) (hlt : k.1 < 2 ^ 31)
    (hw : 2 ^ 32 ≤ E.base + L.heapsize + k) (he : L.epiPrev = false) :
    ∃ t t' p, CsoMalloc.extendHeap s k = some (t, p) ∧ p ≠ 0 ∧ allocate t p k = some t' ∧
      t'.getThissize p = k := by
  have hfit := hwf.fits
  have := E.base_high
  have := E.base_aligned
  have := maxHeap_eq
  have hkg := k.2.1
  have hk8 := k.2.2
  have hfar := E.wrap_far hfit hlt hw
  obtain ⟨ini, l, hL, hla⟩ := hwf.last_free he
  obtain ⟨p, hp⟩ : ∃ p, E.base + L.heapsize = p := ⟨_, rfl⟩
  obtain ⟨q, hq⟩ : ∃ q, wadd p k = q := ⟨_, rfl⟩
  obtain ⟨y, hy⟩ : ∃ y, State.getBlockhdr q = y := ⟨_, rfl⟩
  obtain ⟨o, ho⟩ : ∃ o, E.base + 16 + extent Block.size ini = o := ⟨_, rfl⟩
  obtain ⟨t, ys, ht, hhdr, hepi, hys, hmem, hout⟩ := h.wrap_merge hwf hlt hw he hL hla hp hq hy ho
  rw [hp] at hfar
  have hlg := l.size_ge
  have hl8 := l.size_dvd
  have hi8 := eight_dvd_extent ini
  obtain ⟨hol, hend⟩ := Layout.row_at hL ho
  rw [extent_nil] at hend
  have hop : p - o = l.size := by omega
  have hho : State.getBlockhdr o = o - 4 := getBlockhdr_eq (by omega) (by omega)
  have hrow : ∀ i, ∀ z ∈ ys i,
      ∃ c, (z, c) ∈ placed Block.size (E.base + 16) L.blocks ∧ c.alloc = false := by
    intro i z hz
    rcases hout i z hz with rfl | ⟨c, hc, hfree, _⟩
    · exact ⟨l, hol, hla⟩
    · exact ⟨c, hc, hfree⟩
  obtain ⟨m, heads, hrem, hf, hlinks⟩ := hys.remove_row hrow hmem
  have hyf := (E.far_words (p := p) (by omega) (hq ▸ hfar) rfl hy).2.1
  have hepi' : getw m y = epilogueWord false := by
    rw [← hepi]
    refine hlinks.outside ?_
    simp only [Layout.heapsize] at hp
    omega
  have hnext : wadd o (l.size + k) = q := by
    rw [← hq]
    simp only [wadd]
    omega
  have hjs : (l.join (L.extend k).block).size = l.size + k := rfl
  obtain ⟨t', hal, hsz⟩ := @allocate_split_size t { t with mem := m, freeLists := heads } o
    (l.join (L.extend k).block) ⟨k, true, l.prevAlloc, hkg, hk8⟩ ⟨l.size, false, true, hlg, hl8⟩
    (fun j => (ys j).filter (· ≠ o)) (by simp only; omega) (by rw [hho]; exact hhdr)
    (by simp only [hjs]; omega) rfl rfl rfl rfl hrem
    (by rw [hjs, hnext, hy]; exact hepi' ▸ epilogueWord_and_thisalloc false) hf
    (by simp only [wadd]; omega)
    (by
      intro i z hz w hw
      obtain ⟨hz, hne⟩ := List.mem_filter.mp hz
      have hcl := E.split_far (k := k) (o := o) (p := p) (by omega) (by omega) (by omega) hfar w
        (by rw [hop]; exact hw)
      rcases hout i z hz with rfl | ⟨c, hc, _, hzo⟩
      · simp at hne
      · have := (placed_bounds hc).1
        have := c.size_ge
        omega)
  exact ⟨t, t', o, ht, by omega, hal, hsz⟩

/-- A request whose break wraps gets a block of its size. -/
theorem Refines.wrap_size (h : Refines E s L) (hwf : L.WF) (hlt : k.1 < 2 ^ 31)
    (hw : 2 ^ 32 ≤ E.base + L.heapsize + k) :
    ∃ t t' p, CsoMalloc.extendHeap s k = some (t, p) ∧ p ≠ 0 ∧ allocate t p k = some t' ∧
      t'.getThissize p = k := by
  cases he : L.epiPrev with
  | true => exact h.wrap_whole hwf hlt hw he
  | false => exact h.wrap_split hwf hlt hw he

end Wrapped

end CsoMalloc
