import CsoMalloc.Capacity

/-! `mm_init` for every page size. Its test for a failed `mem_sbrk` looks for
`NULL`, which `mem_sbrk` never returns, so a first request that does not fit is
treated like one that does and the first store goes to `(char *)-1`. -/

namespace CsoMalloc

open ByteMemory LinkedSequence

/-- The heap is consistent, which includes that `heap_end` is `mem_heap_hi`, and
its only free block has `size` bytes and is in the list of its class. -/
def OneFreeBlock (s : State) (size : Nat) : Prop :=
  ∃ bps xs bp, BoundaryTagInvariant s bps ∧ FreeListInvariant s bps xs ∧
    bps.filter (fun q => s.getThisalloc q = 0) = [bp] ∧ s.getThissize bp = size ∧
    bp ∈ xs (calcListIndex size)

/-- What a caller of `mm_init` may rely on: a negative result and untouched
memory, or 0 and a heap of one free block. -/
def AllOrNothing (s s' : State) (r : Int) (size : Nat) : Prop :=
  r < 0 ∧ s'.mem = s.mem ∨ r = 0 ∧ OneFreeBlock s' size

section Built

variable {s : State} {b : Block}

theorem OneBlock.congr {m m' : Mem} {base : Nat} (h : OneBlock m base b)
    (hm : ∀ a, a < base + 16 ∨ base + 24 ≤ a → m' a = m a) : OneBlock m' base b := by
  have hge := b.size_ge
  have hw : ∀ x, x + 4 ≤ base + 16 ∨ base + 24 ≤ x → getw m' x = getw m x :=
    fun x hx => getw_congr fun a ha ha' => hm a (by omega)
  obtain ⟨hhdr, hftr, _⟩ := h.tags
  refine ⟨?_, ?_, ?_, ⟨?_, fun hfree => ?_, trivial⟩, ?_⟩
  · rw [hw _ (by omega), h.padding]
  · rw [hw _ (by omega), h.prologueHdr]
  · rw [hw _ (by omega), h.prologueFtr]
  · rw [hw _ (by omega), hhdr]
  · rw [hw _ (by omega), hftr hfree]
  · rw [hw _ (by omega), h.epilogue]

variable (hfit : s.heapStart + b.size + 16 ≤ 2 ^ 32) (hw : OneBlock s.mem s.heapStart b)

include hfit hw

theorem OneBlock.getThissize_first : s.getThissize (s.heapStart + 16) = b.size :=
  getThissize_eq (by omega) (by omega) hw.tags.1

theorem OneBlock.getThisalloc_first (hfree : b.alloc = false) :
    s.getThisalloc (s.heapStart + 16) = 0 := by
  rw [getThisalloc_eq (by omega) (by omega) hw.tags.1, hfree]
  rfl

variable (hend : s.heapEnd = s.heapStart + b.size + 15)

include hend

theorem OneBlock.heapWalk_eq : heapWalk s = some [s.heapStart + 16] := by
  have hge := b.size_ge
  have hnext : s.getNextblock (s.heapStart + 16) = wadd s.heapEnd 1 := by
    rw [getNextblock_of_header (by omega) (header_eq (by omega) (by omega) hw.tags.1), hend]
    simp only [wadd]
    omega
  have hne : s.heapStart + 16 ≠ wadd s.heapEnd 1 := by
    rw [hend, wadd]
    omega
  have hstart : wadd s.heapStart (4 * wsize) = s.heapStart + 16 :=
    wadd_eq (by simp only [wsize]; omega)
  obtain ⟨fuel, hf⟩ : ∃ k : Nat, 2 ^ 32 = k + 2 := ⟨2 ^ 32 - 2, rfl⟩
  rw [heapWalk, hf, hstart, heapWalkLoop, if_neg hne, hnext, heapWalkLoop, if_pos rfl]
  rfl

variable (hfree : b.alloc = false) (hprev : b.prevAlloc = true)

include hfree hprev

theorem OneBlock.boundaryTags (hhi : s.heapEnd = s.memHeapHi) :
    BoundaryTagInvariant s [s.heapStart + 16] := by
  have hge := b.size_ge
  have hsize := hw.getThissize_first hfit
  have halloc := hw.getThisalloc_first hfit hfree
  have hflag : s.getPrevalloc (s.heapStart + 16) ≠ 0 := by
    rw [getPrevalloc_eq (by omega) (by omega) hw.tags.1, hprev]
    decide
  have hftr : s.getBlockftr (s.heapStart + 16) = s.heapStart + 16 + b.size - 8 :=
    getBlockftr_eq (by omega) (by omega) hw.tags.1
  refine ⟨hhi, hw.padding, hw.prologueHdr, hw.prologueFtr, hw.heapWalk_eq hfit hend, ?_, ?_, ?_, ?_,
    ?_⟩
  · intro bp hbp
    rw [List.mem_singleton.mp hbp, hsize, hend]
    simp only [wsize]
    omega
  · intro bp hbp
    rw [List.mem_singleton.mp hbp, hsize]
    exact ⟨b.size_dvd, hge⟩
  · intro bp hbp _
    rw [List.mem_singleton.mp hbp, hsize, hftr, State.getSize, State.getw]
    exact hw.tags.2.1 hfree
  · have he : s.heapEnd - 3 = s.heapStart + b.size + 12 := by omega
    rw [he, State.getAlloc, State.getw, hw.epilogue, epilogueWord_and_thisalloc]
    rfl
  · exact List.isChain_cons_cons.mpr ⟨fun h0 => absurd h0 hflag,
      List.isChain_cons_cons.mpr ⟨fun _ => halloc, List.isChain_singleton _⟩⟩

theorem OneBlock.oneFreeBlock (hhi : s.heapEnd = s.memHeapHi)
    (hl : FreeLists s.mem s.freeLists
      (Function.update (fun _ => []) (calcListIndex b.size) [s.heapStart + 16])) :
    OneFreeBlock s b.size := by
  have hsize := hw.getThissize_first hfit
  have halloc := hw.getThisalloc_first hfit hfree
  refine ⟨_, Function.update (fun _ => []) (calcListIndex b.size) [s.heapStart + 16],
    s.heapStart + 16, hw.boundaryTags hfit hend hfree hprev hhi,
    ⟨hl.linked_headers, fun i bp => ?_⟩, by simp [halloc], hsize, ?_⟩
  · rw [List.mem_singleton]
    by_cases hi : i = calcListIndex b.size
    · subst hi
      rw [Function.update_self, List.mem_singleton]
      exact ⟨fun h => ⟨h, h ▸ halloc, by rw [h, hsize]⟩, fun h => h.1⟩
    · rw [Function.update_of_ne hi]
      refine ⟨fun h => absurd h List.not_mem_nil, fun ⟨h, _, hc⟩ => absurd ?_ hi⟩
      rw [← hc, h, hsize]
  · rw [Function.update_self]
    exact List.mem_singleton_self _

end Built

theorem OneFreeBlock.room {s : State} {size : Nat} (h : OneFreeBlock s size) :
    s.heapStart + 32 ≤ s.heapEnd + 1 ∧ s.heapEnd < 2 ^ 32 := by
  obtain ⟨bps, xs, bp, hb, _, hf, _⟩ := h
  have hbp : bp ∈ bps := List.mem_of_mem_filter (by rw [hf]; exact List.mem_singleton_self bp)
  have hin := hb.inside bp hbp
  have hsz := (hb.sizes bp hbp).2
  have hlt : s.memHeapHi < 2 ^ 32 := by
    rw [State.memHeapHi, wsub]
    omega
  rw [← hb.heapEnd] at hlt
  simp only [wsize] at hin
  omega

theorem addToList_empty {s : State} {bp : Nat} (i : Fin freelistCount)
    (h : s.freeLists = fun _ => 0) (hbp : bp + 8 ≤ 2 ^ 32) :
    addToList s bp i = some { s with
      mem := linkMem s.mem bp none, freeLists := Function.update s.freeLists i bp } := by
  have hf : FreeLists s.mem s.freeLists (fun _ => []) := by
    rw [h]
    exact freeLists_empty _
  exact addToList_eq i hf hbp fun _ _ hx => absurd hx List.not_mem_nil

section Init

variable {arena pagesize a : Nat} (s : State)

theorem storew_inv {t : State} {p v : Nat} (h : s.storew p v = some t) :
    (s.memStartBrk ≤ p ∧ p + wsize ≤ s.memMaxAddr) ∧ t = s.putw p v := by
  rw [State.storew] at h
  split at h
  · next hin => exact ⟨hin, (Option.some.inj h).symm⟩
  · cases h

/-- A first request that `mem_sbrk` refuses. The store at `(char *)-1` faults. -/
theorem mmInit_faults (hpos : arena ≠ 0) (hmax : arena + maxHeap < 2 ^ 32)
    (ha : adjustBytesize (pagesize * 2 % 2 ^ 32) = a)
    (hsb : toInt (wadd a 16) < 0 ∨ wadd arena (toInt (wadd a 16)).toNat > arena + maxHeap) :
    mmInit arena pagesize s = none := by
  have hmx : wadd arena maxHeap = arena + maxHeap := wadd_eq hmax
  have hne : minusOne ≠ 0 := by decide
  have hst : ∀ (t : State) (v : Nat), t.memMaxAddr = arena + maxHeap →
      t.storew minusOne v = none := by
    intro t v ht
    refine if_neg fun hin => ?_
    rw [ht, minusOne, wsize] at hin
    omega
  simp only [mmInit, State.memInit, if_neg hpos, Option.bind_eq_bind, Option.bind_some, ha, wsize,
    Nat.reduceMul, hmx, State.memSbrk, if_pos hsb, if_neg hne, hst, Option.bind_none]

/-- When `mm_init` returns, `mem_sbrk` has granted the first request and the
epilogue header is in the arena. -/
theorem mmInit_inv {s' : State} {r : Int} (hpos : 0 < arena) (hmax : arena + maxHeap < 2 ^ 32)
    (ha : adjustBytesize (pagesize * 2 % 2 ^ 32) = a)
    (h : mmInit arena pagesize s = some (s', r)) :
    r = 0 ∧ wadd a 16 < 2 ^ 31 ∧ arena ≤ wadd (wadd arena a) 12 ∧
      wadd (wadd arena a) 12 + 4 ≤ arena + maxHeap ∧ s'.heapStart = arena ∧
      s'.heapEnd = wsub (wadd arena (wadd a 16)) 1 := by
  have hM := maxHeap_eq
  have hmx : wadd arena maxHeap = arena + maxHeap := wadd_eq hmax
  by_cases hsb : toInt (wadd a 16) < 0 ∨ wadd arena (toInt (wadd a 16)).toNat > arena + maxHeap
  · rw [mmInit_faults s hpos.ne' hmax ha hsb] at h
    cases h
  · have hlt : wadd a 16 < 2 ^ 31 := by
      by_contra hge
      refine hsb (.inl ?_)
      rw [toInt, if_neg hge]
      simp only [wadd] at *
      omega
    have hnat : (toInt (wadd a 16)).toNat = wadd a 16 := by
      rw [toInt_eq hlt, Int.toNat_natCast]
    simp only [mmInit, State.memInit, if_neg hpos.ne', Option.bind_eq_bind, Option.bind_some, ha,
      wsize, Nat.reduceMul, hmx, State.memSbrk, if_neg hsb] at h
    obtain ⟨t₁, h₁, h⟩ := Option.bind_eq_some_iff.mp h
    obtain ⟨_, rfl⟩ := storew_inv _ h₁
    obtain ⟨t₂, h₂, h⟩ := Option.bind_eq_some_iff.mp h
    obtain ⟨_, rfl⟩ := storew_inv _ h₂
    obtain ⟨t₃, h₃, h⟩ := Option.bind_eq_some_iff.mp h
    obtain ⟨_, rfl⟩ := storew_inv _ h₃
    obtain ⟨t₄, h₄, h⟩ := Option.bind_eq_some_iff.mp h
    obtain ⟨⟨hlo, hhi⟩, rfl⟩ := storew_inv _ h₄
    obtain ⟨t₅, h₅, h⟩ := Option.bind_eq_some_iff.mp h
    obtain ⟨_, rfl⟩ := storew_inv _ h₅
    obtain ⟨t₆, h₆, h⟩ := Option.bind_eq_some_iff.mp h
    obtain ⟨_, rfl⟩ := storew_inv _ h₆
    obtain ⟨t₇, h₇, h⟩ := Option.bind_eq_some_iff.mp h
    obtain ⟨rfl, rfl⟩ := Prod.mk.inj (Option.some.inj h)
    have hroom : wadd arena 16 + 8 ≤ 2 ^ 32 := by
      rw [wadd_eq (by omega)]
      omega
    simp only [State.putw, State.memHeapHi] at h₇
    rw [addToList_empty _ rfl hroom] at h₇
    have ht := Option.some.inj h₇
    subst ht
    refine ⟨rfl, hlt, hlo, hhi, rfl, ?_⟩
    simp only [hnat]

theorem mmInit_built {b : Block} (hb : adjustBytesize (pagesize * 2 % 2 ^ 32) = b.size)
    (hfree : b.alloc = false) (hprev : b.prevAlloc = true) (hpos : 0 < arena)
    (hmax : arena + maxHeap < 2 ^ 32) (hroom : b.size + 16 ≤ maxHeap) :
    ∃ s', mmInit arena pagesize s = some (s', 0) ∧ OneFreeBlock s' b.size := by
  have hge := b.size_ge
  have hM := maxHeap_eq
  have hhi : wsub (arena + (b.size + 16)) 1 = arena + b.size + 15 := by
    rw [wsub_eq (by omega) (by omega)]
    omega
  obtain ⟨m, heads, he, hl, hm⟩ := addToList_spec (s := firstHeap arena pagesize b s)
    (calcListIndex b.size) (freeLists_empty _)
    (show 4 ≤ arena + 16 ∧ arena + 16 + 8 ≤ 2 ^ 32 by omega)
    (fun _ _ hx => absurd hx List.not_mem_nil)
  have hw : OneBlock m arena b := by
    refine (oneBlock_initMem s.mem (by omega)).congr fun x hx => hm x fun q hq => ?_
    have hq' : q = arena + 16 := by simpa using hq
    omega
  have heq := mmInit_of_fit s hb hfree hprev hpos hmax hroom
  rw [he, Option.bind_some] at heq
  exact ⟨_, heq, OneBlock.oneFreeBlock (show arena + b.size + 16 ≤ 2 ^ 32 by omega) hw rfl hfree
    hprev hhi.symm hl⟩

theorem adjustBytesize_pages (hpage : pagesize < 2 ^ 31) :
    adjustBytesize (2 * pagesize) = fitSize (2 * pagesize) ∧ 2 * pagesize ≤ 2 ^ 32 - 12 ∨
      adjustBytesize (2 * pagesize) = 0 ∧ pagesize < 2 ^ 31 - 1 ∧ 2 ^ 32 - 12 < 2 * pagesize ∨
      adjustBytesize (2 * pagesize) = 16 ∧ pagesize = 2 ^ 31 - 1 := by
  by_cases h : 2 * pagesize ≤ 2 ^ 32 - 12
  · exact .inl ⟨adjustBytesize_eq h, h⟩
  · by_cases h' : pagesize < 2 ^ 31 - 1
    · exact .inr (.inl ⟨adjustBytesize_zero (by omega) (by omega), h', by omega⟩)
    · exact .inr (.inr ⟨adjustBytesize_wrapped (by omega) (by omega), by omega⟩)

/-- `mm_init` is all-or-nothing exactly when the arena has room for the first
request, or the rounding of the largest page size wraps to the smallest block. -/
theorem init_all_or_nothing_iff (hpos : 0 < arena) (hmax : arena + maxHeap < 2 ^ 32)
    (hpage : pagesize < 2 ^ 31) :
    (∃ s' r, mmInit arena pagesize s = some (s', r) ∧
        AllOrNothing s s' r (adjustBytesize (2 * pagesize))) ↔
      2 * pagesize + 20 ≤ maxHeap ∨ pagesize = 2 ^ 31 - 1 := by
  have hM := maxHeap_eq
  have hn : pagesize * 2 % 2 ^ 32 = 2 * pagesize := by omega
  have hcases := adjustBytesize_pages hpage
  obtain ⟨a, ha⟩ : ∃ a, adjustBytesize (2 * pagesize) = a := ⟨_, rfl⟩
  have hsize : adjustBytesize (pagesize * 2 % 2 ^ 32) = a := by rw [hn, ha]
  rw [ha] at hcases ⊢
  simp only [fitSize] at hcases
  constructor
  · rintro ⟨s', r, hs, h⟩
    obtain ⟨hr, hlt, hlo, hhi, hstart, hend⟩ := mmInit_inv s hpos hmax hsize hs
    obtain ⟨hneg, _⟩ | ⟨_, hone⟩ := h
    · omega
    · have hroom := hone.room.1
      rw [hstart, hend] at hroom
      simp only [wadd, wsub] at hlt hlo hhi hroom
      omega
  · intro h
    have hok : 16 ≤ a ∧ 8 ∣ a ∧ a + 16 ≤ maxHeap := by omega
    obtain ⟨hge, hdvd, hroom⟩ := hok
    obtain ⟨s', hs, hone⟩ := mmInit_built s (b := ⟨a, false, true, hge, hdvd⟩) hsize rfl rfl hpos
      hmax hroom
    exact ⟨s', 0, hs, .inr ⟨rfl, hone⟩⟩

theorem init_all_or_nothing_page :
    4096 + maxHeap < 2 ^ 32 ∧ ∃ s' r, mmInit 4096 4096 default = some (s', r) ∧
      AllOrNothing default s' r (adjustBytesize (2 * 4096)) := by
  have hmax : 4096 + maxHeap < 2 ^ 32 := by decide
  have hfits : 2 * 4096 + 20 ≤ maxHeap := by decide
  exact ⟨hmax, (init_all_or_nothing_iff default (by decide) hmax (by decide)).mpr (.inl hfits)⟩

/-- Two pages of 16 MB do not fit. `mm_init` returns neither a negative value nor 0:
it faults. -/
theorem init_of_large_pages :
    mmInit 4096 (2 ^ 24) default = none ∧
      ¬ ∃ s' r, mmInit 4096 (2 ^ 24) default = some (s', r) ∧
        AllOrNothing default s' r (adjustBytesize (2 * 2 ^ 24)) := by
  have hsize : adjustBytesize (2 ^ 24 * 2 % 2 ^ 32) = 2 ^ 25 + 8 := by decide
  have hnone : mmInit 4096 (2 ^ 24) default = none :=
    mmInit_faults default (by decide) (by decide) hsize (.inr (by decide))
  refine ⟨hnone, ?_⟩
  rintro ⟨t, r, ht, _⟩
  rw [hnone] at ht
  cases ht

end Init

end CsoMalloc
