import CsoMalloc.Malloc

/-! `mm_free`, `mm_realloc` and what the client may write between the calls. -/

namespace CsoMalloc

open ByteMemory Tiling

variable {E : Env} {s : State} {L : Layout}

theorem freeBlock_eq {p : Nat} {b : Block} (hp : 4 ≤ p) (hlt : p + b.size + 4 ≤ 2 ^ 32)
    (hb : getw s.mem (p - 4) = b.word) :
    freeBlock s p = { s with mem := tagMem s.mem p { b with alloc := false } } := by
  simp only [freeBlock, getPrevalloc_eq hp (by omega) hb, getThissize_eq hp (by omega) hb]
  exact putw_tags hp (by simpa using hlt) (Block.pack_free (b := { b with alloc := false }) rfl)

theorem Refines.free (h : Refines E s L) (hwf : L.WF) {o n : Nat}
    (ho : (o, n) ∈ spans true 16 L.blocks) :
    ∃ s', mmFree s (E.base + o) = some s' ∧ Refines E s' (L.free o) ∧
      Keeps E (L.free o) s.mem s'.mem := by
  obtain ⟨f, hf, rfl, rfl, halloc, _⟩ := Layout.focus_of_span ho
  have hfit := hwf.fits
  have hhs := f.heapsize_layout
  have := E.base_high
  have := maxHeap_eq
  have hoff : 16 ≤ f.offset := by simp [Focus.offset]
  have hopen := Focus.open_of_alloc hwf halloc
  have hL : f.layout.free f.offset = f.release.layout := by simp [Layout.free, hf]
  obtain ⟨hi, hk⟩ := h.image.tag hfit (fun i o hoi => hopen.listed_out i hoi)
    (b := { f.block with alloc := false }) rfl
  obtain ⟨m, heads, he, hi', hk'⟩ := Image.coalesce (s := { s with
    mem := tagMem s.mem (E.base + f.offset) { f.block with alloc := false } }) hi hopen
  have hsp := (Focus.coalesce_allocated hopen).1
  refine ⟨{ s with mem := m, freeLists := heads }, ?_, ?_, ?_⟩
  · rw [mmFree, freeBlock_eq (by omega) (by omega) h.image.header]
    exact congrArg (Option.bind · _) he
  · rw [hL]
    exact h.of_image hi' (Focus.release_allocated hwf halloc).2
  · rw [hL]
    intro o n hon a ha ha'
    have hon' := hsp ▸ hon
    exact (hk' o n hon' a ha ha').trans
      (hk (g := { f with block := { f.block with alloc := false } }) rfl rfl rfl rfl o n hon' a ha ha')

/-- The client may write whatever it likes into the payloads of allocated
blocks, also over the place where a footer would be. -/
theorem Refines.write (h : Refines E s L) (hwf : L.WF) {m : Mem}
    (hm : ∀ a, (∀ o n, (o, n) ∈ spans true 16 L.blocks → a < E.base + o ∨ E.base + o + n ≤ a + 4) →
      m a = s.mem a) : Refines E { s with mem := m } L := by
  have hi : Image E m s.freeLists L := by
    refine h.image.of_room (fun a ha => hm a fun o n ho => ?_)
      (h.image.lists.of_out fun i q hq a ha ha' => hm a fun o n ho => ?_)
    · obtain ⟨b, hb, halloc, rfl⟩ := mem_spans.mp ho
      have hr : b.room = b.size - 4 := by simp [Block.room, halloc]
      have := ha o b hb
      omega
    · obtain ⟨k, hk, _⟩ := (hwf.listed.mem_iff i q).mp hq
      have := (spans_bounds hk).2.2
      have := spans_apart ho hk
      omega
  exact ⟨h.startBrk, h.maxAddr, h.brk, h.heapStart, h.heapEnd, h.page, hi⟩

theorem fitSize_ge (n : Nat) : n + 4 ≤ fitSize n := by
  simp only [fitSize]
  omega

/-- The copy of `mm_realloc`, into a new block that has room for it. -/
theorem Refines.copy (h : Refines E s L) (hwf : L.WF) {o p j c : Nat}
    (hp : (p, j) ∈ spans true 16 L.blocks) (hc : c + 4 ≤ j) :
    Refines E { s with mem := memcpy s.mem (E.base + p) (E.base + o) c } L ∧
      ∀ q k, (q, k) ∈ spans true 16 L.blocks → q ≠ p → ∀ a, q ≤ a → a + 4 < q + k →
        memcpy s.mem (E.base + p) (E.base + o) c (E.base + a) = s.mem (E.base + a) := by
  constructor
  · refine h.write hwf fun a ha => overlay_out ?_
    have := ha p j hp
    omega
  · intro q k hq hne a ha ha'
    refine overlay_out ?_
    rcases spans_separated hp hq with he | he | he
    · exact absurd he.1.symm hne
    · omega
    · omega

theorem Refines.realloc (h : Refines E s L) (hwf : L.WF) {o k n : Nat}
    (ho : (o, k) ∈ spans true 16 L.blocks) (hn : n ≤ maxHeap) :
    ∃ s', mmRealloc s (E.base + o) n = some (s', E.ptr (L.realloc E.page o n).2) ∧
      Refines E s' (L.realloc E.page o n).1 ∧
      (∀ p j, (p, j) ∈ spans true 16 L.blocks → p ≠ o → ∀ a, p ≤ a → a + 4 < p + j →
        s'.mem (E.base + a) = s.mem (E.base + a)) ∧
      ∀ p, (L.realloc E.page o n).2 = some p → ∀ i, i < n → i + 4 < k →
        s'.mem (E.base + (p + i)) = s.mem (E.base + (o + i)) := by
  obtain ⟨s₁, he₁, hr₁, hk₁⟩ := h.malloc hwf hn
  have hsome : ∀ p, (L.malloc E.page n).2 = some p → _ := fun p hp =>
    Layout.malloc_some hwf hp
  cases hL : L.malloc E.page n with
  | mk L₁ r =>
    rw [hL] at he₁ hr₁ hsome
    cases r with
    | none =>
      have hlr : L.realloc E.page o n = (L₁, none) := by simp [Layout.realloc, hL]
      refine ⟨s₁, ?_, hlr ▸ hr₁, fun p j hp _ => hk₁ p j hp, by simp [hlr]⟩
      rw [hlr, mmRealloc, he₁]
      rfl
    | some p =>
      have hlr : L.realloc E.page o n = (L₁.free o, some p) := by simp [Layout.realloc, hL]
      obtain ⟨_, ht⟩ := hsome p rfl
      obtain ⟨j, hj, hs⟩ := ht.allocated
      have hpo : p ≠ o := fun e => ht.fresh k (e ▸ ho)
      have hfit := fitSize_ge n
      have hsz : s₁.getThissize (E.base + o) = k := hr₁.image.size_eq ht.wf ((hs _).mpr (.inr ho))
      obtain ⟨c, hc⟩ : ∃ c, c = if n < k then n else k := ⟨_, rfl⟩
      have hcn : c ≤ n ∧ ∀ i, i < n → i < k → i < c := by
        rw [hc]
        split
        · exact ⟨le_rfl, fun i hi _ => hi⟩
        · exact ⟨by omega, fun i _ hi => hi⟩
      obtain ⟨hr₂, hk₂⟩ := hr₁.copy ht.wf (o := o) (c := c) ((hs _).mpr (.inl rfl)) (by omega)
      obtain ⟨s', he', hr', hk'⟩ := hr₂.free ht.wf ((hs _).mpr (.inr ho))
      obtain ⟨_, _, hs'⟩ := Layout.free_wf ht.wf ((hs _).mpr (.inr ho))
      rw [hlr]
      refine ⟨s', ?_, hr', fun q i hq hqo a ha ha' => ?_, ?_⟩
      · have hz : E.base + p ≠ 0 := by have := E.base_pos; omega
        rw [mmRealloc, he₁]
        simp only [Env.ptr, Option.bind_eq_bind, Option.bind_some, if_neg hz, hsz, ← hc, he']
        rfl
      · have hq₁ := (hs _).mpr (.inr hq)
        refine (hk' q i ((hs' _).mpr ⟨hq₁, hqo⟩) a ha ha').trans ?_
        refine (hk₂ q i hq₁ (fun e => ht.fresh i (e ▸ hq)) a ha ha').trans ?_
        exact hk₁ q i hq a ha ha'
      · rintro _ ⟨rfl⟩ i hi hik
        refine (hk' p j ((hs' _).mpr ⟨(hs _).mpr (.inl rfl), hpo⟩) _ (by omega) (by omega)).trans ?_
        have hic := hcn.2 i hi (by omega)
        have hcopy : memcpy s₁.mem (E.base + p) (E.base + o) c (E.base + (p + i)) =
            s₁.mem (E.base + (o + i)) := by
          rw [memcpy, overlay_in (by omega) (by omega)]
          congr 1
          omega
        refine hcopy.trans ?_
        exact hk₁ o k ho _ (by omega) (by omega)

end CsoMalloc
