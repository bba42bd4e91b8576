import CsoMalloc.BlockSizes

/-! The consistency checker that mm.c runs after every operation when
`DO_MM_CHECK` is defined, and when it is content with a heap. -/

namespace CsoMalloc

open ByteMemory Tiling LinkedSequence

def maxBlockAllocsize : Nat := 1000000

/-- Why `mm_check` does not return: one of its assertions fails, in the last
three cases for the block `bp`, or one of its walks never ends. -/
inductive Alarm where
  | heapEnd
  | maxHeap
  | listAlloc (bp : Nat)
  | listSize (bp : Nat)
  | blockSize (bp : Nat)
  | divergence

def assertThat (c : Prop) [Decidable c] (alarm : Alarm) : Except Alarm Unit :=
  if c then .ok () else .error alarm

def checkList (s : State) : Nat → Nat → Except Alarm Unit
  | 0, _ => .error .divergence
  | fuel + 1, bp =>
    if bp = 0 then .ok ()
    else do
      assertThat (s.getThisalloc bp = 0) (.listAlloc bp)
      assertThat (s.getThissize bp < maxBlockAllocsize) (.listSize bp)
      checkList s fuel (s.nextFree (State.memheaderFromPayload bp))

/-- The walk over the heap, with the address at which it stops. -/
def checkBlocks (s : State) : Nat → Nat → Except Alarm Nat
  | 0, _ => .error .divergence
  | fuel + 1, bp =>
    if bp < s.heapEnd then do
      assertThat (s.getThissize bp < maxBlockAllocsize) (.blockSize bp)
      checkBlocks s fuel (s.getNextblock bp)
    else .ok bp

@[irreducible]
def checkFreeList (s : State) (listIndex : Fin freelistCount) : Except Alarm Unit :=
  checkList s (2 ^ 32) (s.freeLists listIndex)

@[irreducible]
def checkHeap (s : State) : Except Alarm Nat :=
  checkBlocks s (2 ^ 32) (wadd s.heapStart (4 * wsize))

/-- `mm_check`, with the last value of its variable `bp`. -/
def mmCheck (s : State) : Except Alarm Nat := do
  assertThat (s.heapEnd = s.memHeapHi) .heapEnd
  assertThat (s.heapEnd < wadd s.heapStart maxHeap) .maxHeap
  (List.finRange freelistCount).forM (checkFreeList s)
  checkHeap s

section Alarms

variable {α : Type} {x : Except Alarm Unit} {y : Except Alarm α} {a : α}

theorem andThen_ok_iff : (x >>= fun _ => y) = .ok a ↔ x = .ok () ∧ y = .ok a := by
  cases x with
  | error e => exact ⟨fun h => (nomatch h), fun h => (nomatch h.1)⟩
  | ok u => exact ⟨fun h => ⟨rfl, h⟩, fun h => h.2⟩

theorem assertThat_ok_iff {c : Prop} [Decidable c] {alarm : Alarm} :
    assertThat c alarm = .ok () ↔ c := by
  simp [assertThat]

theorem forM_ok_iff {β : Type} {l : List β} {f : β → Except Alarm Unit} :
    l.forM f = .ok () ↔ ∀ b ∈ l, f b = .ok () := by
  induction l with
  | nil => exact ⟨fun _ b hb => (nomatch hb), fun _ => rfl⟩
  | cons b l ih =>
    have hcons : (b :: l).forM f = (f b >>= fun _ => l.forM f) := rfl
    rw [hcons, andThen_ok_iff, ih, List.forall_mem_cons]

end Alarms

section Walks

variable {s : State}

theorem checkList_ok_iff {fuel bp : Nat} {xs : List Nat}
    (hf : bp :: xs.map (fun x => s.nextFree (State.memheaderFromPayload x)) = xs ++ [0])
    (h0 : 0 ∉ xs) (hfree : ∀ x ∈ xs, s.getThisalloc x = 0) (hl : xs.length < fuel) :
    checkList s fuel bp = .ok () ↔ ∀ x ∈ xs, s.getThissize x < maxBlockAllocsize := by
  induction xs generalizing fuel bp with
  | nil =>
    obtain ⟨fuel, rfl⟩ : ∃ k, fuel = k + 1 := ⟨fuel - 1, by simp at hl; omega⟩
    have hbp : bp = 0 := by simpa using hf
    simp [checkList, hbp]
  | cons x xs ih =>
    obtain ⟨fuel, rfl⟩ : ∃ k, fuel = k + 1 := ⟨fuel - 1, by simp at hl; omega⟩
    obtain ⟨rfl, htail⟩ := List.cons.inj hf
    have hx : bp ≠ 0 := fun he => h0 (he ▸ List.mem_cons_self)
    rw [checkList, if_neg hx, andThen_ok_iff, andThen_ok_iff, assertThat_ok_iff, assertThat_ok_iff,
      ih htail (fun h => h0 (List.mem_cons_of_mem _ h))
        (fun y hy => hfree y (List.mem_cons_of_mem _ hy)) (by simpa using hl),
      List.forall_mem_cons]
    exact and_iff_right (hfree bp List.mem_cons_self)

theorem checkBlocks_ok_iff {bs : List Block} {fuel p : Nat}
    (hr : ∀ q b, (q, b) ∈ placed Block.size p bs → s.getNextblock q = q + b.size)
    (hend : p + extent Block.size bs = s.heapEnd + 1) (hl : bs.length < fuel) :
    checkBlocks s fuel p = .ok (s.heapEnd + 1) ↔
      ∀ bp ∈ (placed Block.size p bs).map Prod.fst, s.getThissize bp < maxBlockAllocsize := by
  induction bs generalizing fuel p with
  | nil =>
    obtain ⟨fuel, rfl⟩ : ∃ k, fuel = k + 1 := ⟨fuel - 1, by simp at hl; omega⟩
    have hp : p = s.heapEnd + 1 := by simpa using hend
    rw [checkBlocks, if_neg (by omega), hp]
    simp
  | cons b bs ih =>
    obtain ⟨fuel, rfl⟩ : ∃ k, fuel = k + 1 := ⟨fuel - 1, by simp at hl; omega⟩
    have hge := b.size_ge
    rw [extent_cons] at hend
    rw [checkBlocks, if_pos (by omega), andThen_ok_iff, assertThat_ok_iff,
      hr p b List.mem_cons_self,
      ih (fun q c hc => hr q c (List.mem_cons_of_mem _ hc)) (by omega) (by simpa using hl),
      placed_cons, List.map_cons, List.forall_mem_cons]

end Walks

variable {E : Env} {s : State} {L : Layout} {rs : List Request} {w : World}

/-- `mm_check` returns, and its walk over the heap stops at `heap_end + 1`, when
no block is too large. -/
theorem Refines.mmCheck_ok_iff (h : Refines E s L) (hwf : L.WF) :
    mmCheck s = .ok (s.heapEnd + 1) ↔
      ∀ bp ∈ E.addresses L, s.getThissize bp < maxBlockAllocsize := by
  have hfit := hwf.fits
  have hge := hwf.heapsize_ge
  have := E.base_high
  have := maxHeap_eq
  have hend := h.heapEnd
  have hlists := h.freeLists hwf
  have hhi : s.heapEnd = s.memHeapHi := (h.boundaryTags hwf).heapEnd
  have hmax : s.heapEnd < wadd s.heapStart maxHeap := by
    rw [h.heapStart, wadd_eq (by omega)]
    omega
  have hlist : ∀ i, checkFreeList s i = .ok () ↔
      ∀ x ∈ (L.lists i).map (E.base + ·), s.getThissize x < maxBlockAllocsize := by
    intro i
    rw [checkFreeList]
    exact checkList_ok_iff (hlists.linked i).forward (hlists.linked i).null_notMem
      (fun x hx => ((hlists.members i x).mp hx).2.1) (h.image.lists.length_lt i)
  have hheap : checkHeap s = .ok (s.heapEnd + 1) ↔
      ∀ bp ∈ E.addresses L, s.getThissize bp < maxBlockAllocsize := by
    have hstart : wadd s.heapStart (4 * wsize) = E.base + 16 := by
      rw [h.heapStart, wadd_eq (by simp only [wsize]; omega)]
      rfl
    have hlen := length_le_extent L.blocks
    simp only [Layout.heapsize] at hfit hend
    rw [checkHeap, hstart]
    exact checkBlocks_ok_iff (fun q b hb => (h.reads hwf hb).next) (by omega) (by omega)
  rw [mmCheck, andThen_ok_iff, andThen_ok_iff, andThen_ok_iff, assertThat_ok_iff,
    assertThat_ok_iff, forM_ok_iff, hheap]
  refine ⟨fun hall => hall.2.2.2, fun hall => ⟨hhi, hmax, fun i _ => (hlist i).mpr ?_, hall⟩⟩
  exact fun x hx => hall x ((hlists.members i x).mp hx).1

def Request.Below (n : Nat) : Request → Prop
  | .malloc k => k < n
  | .free _ => True
  | .realloc _ k => k < n

instance (n : Nat) : (q : Request) → Decidable (q.Below n)
  | .malloc k => inferInstanceAs (Decidable (k < n))
  | .free _ => isTrue trivial
  | .realloc _ k => inferInstanceAs (Decidable (k < n))

theorem Plan.call_below {P : Plan} {page : Size} {q : Request} {n : Nat}
    (h : ∀ b ∈ P.live, b.size < n) (hq : q.Below n) : ∀ b ∈ (P.call page q).live, b.size < n := by
  intro b hb
  cases q with
  | malloc k =>
    rw [call_malloc] at hb
    cases hr : (P.layout.malloc page k).2 with
    | none => exact h b (by simpa [hr] using hb)
    | some o =>
      rw [hr] at hb
      rcases List.mem_cons.mp hb with rfl | hb
      · exact hq
      · exact h b hb
  | free k =>
    cases hf : Live.find P.live k with
    | none => exact h b (by simpa [call, hf] using hb)
    | some c =>
      rw [call_free hf] at hb
      exact h b (Live.mem_drop.mp hb).1
  | realloc k m =>
    cases hf : Live.find P.live k with
    | none => exact h b (by simpa [call, hf] using hb)
    | some c =>
      rw [call_realloc hf] at hb
      cases hr : (P.layout.realloc page c.ptr m).2 with
      | none => exact h b (by simpa [hr] using hb)
      | some o =>
        rw [hr] at hb
        rcases List.mem_cons.mp hb with rfl | hb
        · exact hq
        · exact h b (Live.mem_drop.mp hb).1

theorem Run.live_below (h : Run E rs w) {n : Nat} (hrs : ∀ q ∈ rs, q.Below n) :
    ∀ b ∈ (Plan.run E.page rs).live, b.size < n := by
  induction h with
  | init => exact fun b hb => by cases hb
  | write _ _ ih => exact ih hrs
  | call _ _ _ ih =>
    rw [Plan.run_append]
    exact Plan.call_below (ih fun q hq => hrs q (List.mem_append_left _ hq)) (hrs _ (by simp))

/-- After every operation of a run of small requests `mm_check` passes, and stops
at `heap_end + 1`, exactly when no free block has grown to
`MAX_BLOCK_ALLOCSIZE`. -/
theorem check_passes_iff (h : Run E rs w) (hrs : ∀ q ∈ rs, q.Below (maxBlockAllocsize - 24)) :
    ∃ bps, heapWalk w.heap = some bps ∧ (mmCheck w.heap = .ok (w.heap.heapEnd + 1) ↔
      ∀ bp ∈ bps, w.heap.getThisalloc bp = 0 → w.heap.getThissize bp < maxBlockAllocsize) := by
  obtain ⟨hm, hwf⟩ := h.matches
  refine ⟨_, hm.heap.heapWalk_eq hwf.layout, ?_⟩
  rw [hm.heap.mmCheck_ok_iff hwf.layout]
  refine ⟨fun hall bp hbp _ => hall bp hbp, fun hall bp hbp => ?_⟩
  obtain ⟨o, b, rfl, hb⟩ := Env.mem_addresses.mp hbp
  have hr := hm.heap.reads hwf.layout (placed_shift.mpr hb)
  cases ha : b.alloc with
  | false => exact hall _ hbp (by rw [hr.alloc, ha]; rfl)
  | true =>
    -- a block in use has the size of its request and a little more
    have hsp : (o, b.size) ∈ spans true 16 (Plan.run E.page rs).layout.blocks :=
      mem_spans.mpr ⟨b, hb, ha, rfl⟩
    obtain ⟨c, hc, rfl⟩ := hwf.covered o _ hsp
    have hlt := h.live_below hrs c hc
    have hsnug := h.snug c hc _ hsp
    rw [hr.size]
    simp only [maxBlockAllocsize, fitSize] at hlt hsnug ⊢
    omega

theorem check_passes_iff_small :
    ∃ w, Run Env.small [.malloc 24, .malloc 600000, .free 0] w ∧
      mmCheck w.heap = .ok (w.heap.heapEnd + 1) := by
  obtain ⟨w, hw⟩ := exists_run Env.small [.malloc 24, .malloc 600000, .free 0] (by decide)
  obtain ⟨hm, hwf⟩ := hw.matches
  obtain ⟨bps, hwalk, hiff⟩ := check_passes_iff hw (by decide)
  obtain rfl := Option.some.inj (hwalk.symm.trans (hm.heap.heapWalk_eq hwf.layout))
  refine ⟨w, hw, hiff.mpr fun bp hbp _ => ?_⟩
  obtain ⟨o, b, rfl, hb⟩ := Env.mem_addresses.mp hbp
  rw [(hm.heap.reads hwf.layout (placed_shift.mpr hb)).size]
  have hall : ∀ x ∈ placed Block.size 16 (Plan.run Env.small.page
      [.malloc 24, .malloc 600000, .free 0]).layout.blocks, x.2.size < maxBlockAllocsize := by decide
  exact hall _ hb

/-- Two blocks of 600000 bytes merge into one that the checker takes for a
payload. -/
theorem check_raises_false_alarm :
    ∃ w, Run Env.small [.malloc 600000, .malloc 600000, .free 1, .free 0] w ∧
      (∀ q ∈ [Request.malloc 600000, .malloc 600000, .free 1, .free 0],
        q.Below (maxBlockAllocsize - 24)) ∧
      mmCheck w.heap ≠ .ok (w.heap.heapEnd + 1) := by
  obtain ⟨w, hw⟩ := exists_run Env.small [.malloc 600000, .malloc 600000, .free 1, .free 0]
    (by decide)
  obtain ⟨hm, hwf⟩ := hw.matches
  refine ⟨w, hw, by decide, fun hok => ?_⟩
  have hmem : Env.small.base + 16 ∈ Env.small.addresses (Plan.run Env.small.page
      [.malloc 600000, .malloc 600000, .free 1, .free 0]).layout := by decide
  have hlt := (hm.heap.mmCheck_ok_iff hwf.layout).mp hok _ hmem
  rw [hm.heap.image.size_eq hwf.layout (a := false) (o := 16) (n := 1208216) (by decide)] at hlt
  exact absurd hlt (by decide)

end CsoMalloc
