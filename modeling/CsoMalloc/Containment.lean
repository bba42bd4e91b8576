import CsoMalloc.Capacity

/-! No operation writes outside the heap. What lies below the first word of the
heap or at and above the break is as `mm_init` found it. -/

namespace CsoMalloc

open ByteMemory Tiling

section Rows

variable {s t : State} {m m' : Mem} {a p q : Nat} {pre post : List Block} {b : Block}
  {xs : Fin freelistCount → List Nat}

theorem RowLinks.sameOutside {bs : List Block} (h : RowLinks a bs m m') :
    SameOutside a (a + extent Block.size bs) m m' := by
  intro x hx
  refine h x fun q c hq _ => ?_
  have := placed_bounds hq
  have := c.size_ge
  omega

theorem sameOutside_tagMem {lo hi : Nat} (hp : lo + 4 ≤ p) (hh : p + b.size ≤ hi) :
    SameOutside lo hi m (tagMem m p b) := by
  intro x hx
  have := b.size_ge
  exact tagMem_out (by omega) (by omega)

theorem OpenRow.coalesce_sameOutside (h : OpenRow s a pre b post xs)
    (he : coalesce s (a + extent Block.size pre) = some (t, q)) :
    SameOutside (a - 4) (a + extent Block.size (pre ++ b :: post)) s.mem t.mem := by
  have hlow := h.low
  obtain ⟨pre', post', c, m, heads, hj⟩ := h.joins
  obtain ⟨m', heads', he', _, _, _, hlinks⟩ := hj.close h
  obtain ⟨rfl, _⟩ := Prod.mk.inj (Option.some.inj (he.symm.trans he'))
  obtain ⟨y, d, hy, hyd⟩ := hj.end_mem
  have hend := (placed_bounds hy).2
  have h₁ := hj.links.sameOutside.mono (Nat.sub_le a 4) le_rfl
  have h₂ : SameOutside (a - 4) (a + extent Block.size (pre ++ b :: post)) m
      (tagMem m (a + extent Block.size pre') c) := sameOutside_tagMem (by omega) (by omega)
  exact (h₁.trans h₂).trans (hlinks.sameOutside.mono (Nat.sub_le a 4) le_rfl)

end Rows

section Images

variable {E : Env} {s t : State} {m m' : Mem} {heads : Fin freelistCount → Nat} {L : Layout}
  {f : Focus} {p : Nat}

/-- The part of the address space that the heap may write to. -/
def Contained (E : Env) (L : Layout) (m m' : Mem) : Prop :=
  SameOutside E.base (E.base + L.heapsize) m m'

theorem LinksOnly.contained {sp : List (Nat × Nat)} (h : LinksOnly E sp m m')
    (hsp : ∀ x ∈ sp, x ∈ spans false 16 L.blocks) : Contained E L m m' := by
  intro a ha
  refine h a fun q k hq => ?_
  have := spans_bounds (hsp _ hq)
  simp only [Layout.heapsize] at ha
  omega

theorem IdleOnly.contained (h : IdleOnly E L m m') : Contained E L m m' := by
  intro a ha
  refine h a fun q k hq => ?_
  have := spans_bounds hq
  simp only [Layout.heapsize] at ha
  omega

theorem Image.openRow (h : Image E s.mem s.freeLists f.layout) (ho : f.Open)
    (hftr : getw s.mem (E.base + f.offset + f.block.size - 8) = f.block.word) :
    OpenRow s (E.base + 16) f.before.reverse f.block f.after
      fun i => (f.lists i).map (E.base + ·) := by
  have hfit := ho.fits
  have := E.base_high
  have := maxHeap_eq
  have hoff : E.base + 16 + extent Block.size f.before.reverse = E.base + f.offset := by
    rw [extent_reverse, Focus.offset, Nat.add_assoc]
  refine ⟨by omega, ?_, ?_, ho.free, ?_, ?_, ?_, h.lists, ?_⟩
  · simp only [Focus.layout, Layout.heapsize] at hfit
    omega
  · intro x c hc
    exact (tagged_iff.mp h.tags x c hc).1
  · rw [hoff]
    exact hftr
  · intro hp
    have hflags := ho.flagsBefore
    cases hb : f.before with
    | nil => simp [hb, FlagsOk, hp] at hflags
    | cons l rest =>
      have hl : l.alloc = false := by
        simp only [hb, List.reverse_cons, flagsOk_append, FlagsOk, hp, forall_const] at hflags
        exact hflags.2
      refine ⟨l, by simp, hl, ?_⟩
      rw [← hb, hoff]
      exact (h.prev_tags hb).2 hl
  · intro ha
    rw [hoff, h.next_epilogue ha]
    exact epilogueWord_and_thisalloc _
  · intro i x
    rw [hoff, List.mem_map]
    constructor
    · rintro ⟨o, hoi, rfl⟩
      obtain ⟨n, hn, hi⟩ := (ho.listed.mem_iff i o).mp hoi
      obtain ⟨hsp, hne⟩ := ho.listed_mem hn
      obtain ⟨c, hc, hfree, rfl⟩ := mem_spans.mp hsp
      have hne' : o ≠ f.offset := hne
      exact ⟨by omega, c, placed_shift.mpr hc, hfree, hi⟩
    · rintro ⟨hne, c, hc, hfree, hi⟩
      obtain ⟨o, rfl⟩ : ∃ o, x = E.base + o := ⟨x - E.base, by have := (placed_bounds hc).1; omega⟩
      refine ⟨o, (ho.listed.mem_iff i o).mpr ⟨c.size, ?_, hi⟩, rfl⟩
      rw [placed_shift, mem_placed_middle, extent_reverse] at hc
      rcases hc with hc | ⟨ho, _⟩ | hc
      · exact List.mem_append_left _ (mem_spans.mpr ⟨c, hc, hfree, rfl⟩)
      · exact absurd (congrArg (E.base + ·) ho) hne
      · exact List.mem_append_right _ (mem_spans.mpr ⟨c, hc, hfree, rfl⟩)

theorem Image.coalesce_contained (h : Image E s.mem s.freeLists f.layout) (ho : f.Open)
    (hftr : getw s.mem (E.base + f.offset + f.block.size - 8) = f.block.word)
    (he : CsoMalloc.coalesce s (E.base + f.offset) = some (t, p)) :
    Contained E f.layout s.mem t.mem := by
  have hoff : E.base + f.offset = E.base + 16 + extent Block.size f.before.reverse := by
    rw [extent_reverse, Focus.offset, Nat.add_assoc]
  rw [hoff] at he
  refine ((h.openRow ho hftr).coalesce_sameOutside he).mono (by omega) ?_
  rw [Nat.add_assoc]
  exact le_rfl

theorem getw_tagMem_footer {b : Block} (hlt : b.size + 4 ≤ 2 ^ 32) :
    getw (tagMem m p b) (p + b.size - 8) = b.word := by
  rw [tagMem, getw_putw (Block.word_lt (by omega))]

theorem Image.split_contained {front rest : Block} (h : Image E s.mem s.freeLists f.layout)
    (ho : f.Open) (hg : Focus.Open ⟨front :: f.before, rest, f.after, f.epiPrev, f.lists⟩)
    (hsz : front.size + rest.size = f.block.size)
    (he : CsoMalloc.coalesce { s with
      mem := tagMem (tagMem s.mem (E.base + f.offset) front) (E.base + f.offset + front.size) rest }
        (E.base + f.offset + front.size) = some (t, p)) :
    Contained E f.layout s.mem t.mem := by
  have hfit := ho.fits
  have hhs := f.heapsize_layout
  have := E.base_high
  have := maxHeap_eq
  have hoff : 16 ≤ f.offset := by simp [Focus.offset]
  have hfg := front.size_ge
  have hrg := rest.size_ge
  have hgo : Focus.offset ⟨front :: f.before, rest, f.after, f.epiPrev, f.lists⟩ =
      f.offset + front.size := by
    simp only [Focus.offset, extent_cons]
    omega
  have hgs : (Focus.layout ⟨front :: f.before, rest, f.after, f.epiPrev, f.lists⟩).heapsize =
      f.layout.heapsize := by
    rw [Focus.heapsize_layout, hgo, hhs]
    simp only
    omega
  obtain ⟨hi, _⟩ := h.split ho hsz
  have hc₁ : Contained E f.layout s.mem (tagMem s.mem (E.base + f.offset) front) :=
    sameOutside_tagMem (by omega) (by omega)
  have hc₂ : Contained E f.layout (tagMem s.mem (E.base + f.offset) front)
      (tagMem (tagMem s.mem (E.base + f.offset) front) (E.base + f.offset + front.size) rest) :=
    sameOutside_tagMem (by omega) (by omega)
  have hc₃ := Image.coalesce_contained (s := { s with
    mem := tagMem (tagMem s.mem (E.base + f.offset) front) (E.base + f.offset + front.size) rest })
    (t := t) (p := p) hi hg
    (by rw [hgo, ← Nat.add_assoc]; exact getw_tagMem_footer (by omega))
    (by rw [hgo, ← Nat.add_assoc]; exact he)
  rw [Contained, hgs] at hc₃
  exact (hc₁.trans hc₂).trans hc₃

theorem Image.allocate_contained (h : Image E s.mem s.freeLists f.layout) (hwf : f.layout.WF)
    (hfree : f.block.alloc = false) {a : Size} (ha : a ≤ f.block.size)
    (he : CsoMalloc.allocate s (E.base + f.offset) a = some t) :
    Contained E f.layout s.mem t.mem := by
  have ho := Focus.open_of_free hwf hfree
  have hfit := hwf.fits
  have hhs := f.heapsize_layout
  have := E.base_high
  have := maxHeap_eq
  have hoff : 16 ≤ f.offset := by simp [Focus.offset]
  have hbg := f.block.size_ge
  obtain ⟨m₁, heads₁, he₁, hi₁, hl₁⟩ := h.remove hwf.listed (hfree ▸ f.mem_spans_block) fun x hx => hx
  have hc₁ : Contained E f.layout s.mem m₁ := hl₁.contained fun x hx => (List.mem_filter.mp hx).1
  by_cases hsp : 16 ≤ f.block.size - a
  · have hd := Nat.dvd_sub f.block.size_dvd a.2.2
    have hw := @CsoMalloc.allocate_split s _ _ f.block (by omega) (by omega) h.header
      ⟨a, true, f.block.prevAlloc, a.2.1, a.2.2⟩ ⟨f.block.size - a, false, true, hsp, hd⟩ rfl rfl rfl
      rfl (by simp only; omega) he₁
    obtain ⟨⟨r, q⟩, hr, hrt⟩ := Option.bind_eq_some_iff.mp (hw.symm.trans he)
    obtain rfl := Option.some.inj hrt
    have hc₂ := Image.split_contained (s := { s with mem := m₁, freeLists := heads₁ }) hi₁ ho
      (Focus.split_open ho a hsp hd) (by simp only; omega) hr
    exact hc₁.trans hc₂
  · have hw := CsoMalloc.allocate_whole (by omega) (by omega) h.header ha (by omega) he₁
    obtain rfl := Option.some.inj (he.symm.trans hw)
    have hc₂ : Contained E f.layout m₁
        (tagMem m₁ (E.base + f.offset) { f.block with alloc := true }) :=
      sameOutside_tagMem (by omega) (by simp only; omega)
    exact (hc₁.trans hc₂).trans (SameOutside.putw (by omega) (by omega))

end Images

section Calls

variable {E : Env} {s t : State} {L : Layout} {n o k p : Nat}

theorem Refines.extendHeap_contained (h : Refines E s L) (hwf : L.WF) {k : Size}
    (hk : L.heapsize + k ≤ maxHeap) (he : CsoMalloc.extendHeap s k = some (t, p)) :
    SameOutside E.base (E.base + (L.heapsize + k)) s.mem t.mem := by
  have hge := hwf.heapsize_ge
  have := E.base_high
  have := maxHeap_eq
  have hkg := k.2.1
  have hoff : (L.extend k).offset = L.heapsize := by
    simp [Layout.extend, Focus.offset, Layout.heapsize]
  have hbs : (L.extend k).block.size = k := rfl
  obtain ⟨hi, _⟩ := h.image.extend hwf hk
  rw [h.extendHeap_eq hwf hk, ← hoff] at he
  have hc₁ : SameOutside E.base (E.base + (L.heapsize + k)) s.mem
      (tagMem s.mem (E.base + L.heapsize) (L.extend k).block) :=
    sameOutside_tagMem (by omega) (by omega)
  have hc₂ : SameOutside E.base (E.base + (L.heapsize + k))
      (tagMem s.mem (E.base + L.heapsize) (L.extend k).block)
      (putw (tagMem s.mem (E.base + L.heapsize) (L.extend k).block)
        (E.base + L.heapsize + k - 4) (epilogueWord false)) :=
    SameOutside.putw (by omega) (by omega)
  have hc₃ := Image.coalesce_contained (s := { s with
    mem := putw (tagMem s.mem (E.base + (L.extend k).offset) (L.extend k).block)
      (E.base + (L.extend k).offset + k - 4) (epilogueWord false)
    memBrk := E.base + (L.extend k).offset + k
    heapEnd := E.base + (L.extend k).offset + k - 1 }) (t := t) (p := p)
    (by rw [hoff]; exact hi) (Layout.extend_open hwf hk) ?_ he
  · rw [Contained, (L.extend_allocated k).2, hoff] at hc₃
    exact (hc₁.trans hc₂).trans hc₃
  · rw [getw_putw_ne (by omega)]
    exact getw_tagMem_footer (by omega)

theorem Refines.grow_contained (h : Refines E s L) (hwf : L.WF) {k a : Size} (ha : a.1 ≤ k)
    (hk : L.heapsize + k ≤ maxHeap) {s₁ s₂ : State} {bp : Nat}
    (he₁ : CsoMalloc.extendHeap s k = some (s₁, bp)) (he₂ : CsoMalloc.allocate s₁ bp a = some s₂) :
    Contained E ((L.extend k).coalesce.place a) s.mem s₂.mem := by
  have hopen := Layout.extend_open hwf hk
  have hcb := Layout.coalesce_block hopen
  have hwf' := Focus.coalesce_wf hopen
  have haf := ha.trans hcb.2
  have hc₁ := h.extendHeap_contained hwf hk he₁
  obtain ⟨t₁, he', hr₁, _⟩ := h.extendHeap hwf hk
  obtain ⟨rfl, rfl⟩ := Prod.mk.inj (Option.some.inj (he₁.symm.trans he'))
  have hc₂ := hr₁.image.allocate_contained hwf' hcb.1 haf he₂
  have hh : (L.extend k).coalesce.layout.heapsize = L.heapsize + k :=
    (Focus.coalesce_allocated hopen).2.trans (L.extend_allocated k).2
  rw [Contained, hh] at hc₂
  rw [Contained, (Focus.place_allocated hwf' hcb.1 haf).2, hh]
  exact hc₁.trans hc₂

theorem Refines.take_contained (h : Refines E s L) (hwf : L.WF) (hn : n ≠ 0) {a : Size}
    (ha : adjustBytesize n = a) (hlt : (Layout.maxSize a E.page).1 < 2 ^ 31)
    (hw : E.base + L.heapsize + Layout.maxSize a E.page < 2 ^ 32)
    (he : mmMalloc s n = some (t, p)) :
    Contained E (L.take E.page a).1 s.mem t.mem := by
  have hfe := h.image.findFit_eq hwf a
  cases hf : L.findFit a with
  | some o =>
    obtain ⟨f, hfo, rfl, rfl, hfree, haf⟩ := hwf.findFit_some hf
    obtain ⟨⟨bp, i⟩, hfs, hbp⟩ : ∃ r, findFit s a = some r ∧ r.1 = E.base + f.offset := by
      simpa [hf] using hfe
    obtain rfl : bp = E.base + f.offset := hbp
    obtain ⟨s₁, m, he₁, _, _, he', hidle⟩ := h.malloc_fit hwf hfs rfl rfl hfree haf
    have ht : f.layout.take E.page a = (f.place a, some f.offset) := by simp [Layout.take, hf, hfo]
    have hc₁ := h.image.allocate_contained hwf hfree haf he₁
    simp only [mmMalloc, if_neg hn, ha, hfs, he₁, Option.bind_eq_bind, Option.bind_some, he',
      Option.pure_def, Option.some.injEq, Prod.mk.injEq] at he
    obtain ⟨rfl, _⟩ := he
    rw [Contained, ← (Focus.place_allocated hwf hfree haf).2] at hc₁
    rw [ht]
    exact hc₁.trans hidle.contained
  | none =>
    have hfs : findFit s a = none := by simpa [hf] using hfe
    simp only [mmMalloc, if_neg hn, ha, hfs, h.max_eq] at he
    obtain ⟨⟨s₁, bp⟩, he₁, he⟩ := Option.bind_eq_some_iff.mp he
    by_cases hk : L.heapsize + Layout.maxSize a E.page ≤ maxHeap
    · have ht : L.take E.page a = ((L.extend (Layout.maxSize a E.page)).coalesce.place a,
          some (L.extend (Layout.maxSize a E.page)).coalesce.offset) := by
        simp [Layout.take, hf, hk]
      obtain ⟨t₁, he', _⟩ := h.extendHeap hwf hk
      have hz : bp ≠ 0 := by
        obtain ⟨_, rfl⟩ := Prod.mk.inj (Option.some.inj (he₁.symm.trans he'))
        have := E.base_pos
        omega
      simp only [if_neg hz] at he
      obtain ⟨s₂, he₂, he⟩ := Option.bind_eq_some_iff.mp he
      obtain ⟨rfl, _⟩ := Prod.mk.inj (Option.some.inj he)
      rw [ht]
      exact h.grow_contained hwf (Layout.le_maxSize a E.page).1 hk he₁ he₂
    · have he' := h.extendHeap_full (by omega) hlt hw
      obtain ⟨rfl, rfl⟩ := Prod.mk.inj (Option.some.inj (he₁.symm.trans he'))
      obtain ⟨rfl, _⟩ := Prod.mk.inj (Option.some.inj he)
      exact SameOutside.refl _ _ _

theorem Refines.malloc_contained (h : Refines E s L) (hwf : L.WF) (hn : n ≤ maxHeap)
    (he : mmMalloc s n = some (t, p)) : Contained E (L.malloc E.page n).1 s.mem t.mem := by
  by_cases hz : n = 0
  · obtain ⟨rfl, _⟩ : t = s ∧ p = 0 := by simpa [mmMalloc, hz, eq_comm] using he
    exact SameOutside.refl _ _ _
  · have := E.base_high
    have := maxHeap_eq
    have hfit := hwf.fits
    have hm := E.maxSize_le hn
    rw [Layout.malloc, if_neg hz]
    exact h.take_contained hwf hz (adjustBytesize_eq (by omega)) (by omega) (by omega) he

theorem Refines.free_contained (h : Refines E s L) (hwf : L.WF)
    (ho : (o, k) ∈ spans true 16 L.blocks) (he : mmFree s (E.base + o) = some t) :
    Contained E (L.free o) s.mem t.mem := by
  have hsize := (Layout.free_wf hwf ho).2.1
  obtain ⟨f, hf, rfl, rfl, halloc, _⟩ := Layout.focus_of_span ho
  have hfit := hwf.fits
  have hhs := f.heapsize_layout
  have := E.base_high
  have := maxHeap_eq
  have hoff : 16 ≤ f.offset := by simp [Focus.offset]
  have hopen := Focus.open_of_alloc hwf halloc
  obtain ⟨hi, _⟩ := h.image.tag hfit (fun i o hoi => hopen.listed_out i hoi)
    (b := { f.block with alloc := false }) rfl
  rw [mmFree, freeBlock_eq (by omega) (by omega) h.image.header] at he
  obtain ⟨⟨r, q⟩, hr, hrt⟩ := Option.bind_eq_some_iff.mp he
  obtain rfl := Option.some.inj hrt
  have hc₁ : Contained E f.layout s.mem
      (tagMem s.mem (E.base + f.offset) { f.block with alloc := false }) :=
    sameOutside_tagMem (by omega) (by simp only; omega)
  have hc₂ := Image.coalesce_contained (s := { s with
    mem := tagMem s.mem (E.base + f.offset) { f.block with alloc := false } }) hi hopen
    (getw_tagMem_footer (by simp only; omega)) hr
  have hh : (Focus.layout { f with block := { f.block with alloc := false } }).heapsize =
      f.layout.heapsize := by simp [Focus.layout, Layout.heapsize]
  rw [Contained, hh] at hc₂
  rw [Contained, hsize]
  exact hc₁.trans hc₂

theorem Refines.realloc_contained (h : Refines E s L) (hwf : L.WF)
    (ho : (o, k) ∈ spans true 16 L.blocks) (hn : n ≤ maxHeap)
    (he : mmRealloc s (E.base + o) n = some (t, p)) :
    Contained E (L.realloc E.page o n).1 s.mem t.mem := by
  obtain ⟨⟨s₁, q⟩, he₁, he⟩ := Option.bind_eq_some_iff.mp he
  have hc₁ := h.malloc_contained hwf hn he₁
  obtain ⟨t₁, he', hr₁, _⟩ := h.malloc hwf hn
  obtain ⟨rfl, rfl⟩ := Prod.mk.inj (Option.some.inj (he₁.symm.trans he'))
  cases hr : (L.malloc E.page n).2 with
  | none =>
    rw [hr] at he
    obtain ⟨rfl, _⟩ := Prod.mk.inj (Option.some.inj he)
    rw [Layout.realloc_of_none hr]
    exact hc₁
  | some r =>
    obtain ⟨_, ht⟩ := Layout.malloc_some hwf hr
    obtain ⟨j, hj, hs⟩ := ht.allocated
    have hfit := fitSize_ge n
    have hz : E.base + r ≠ 0 := by
      have := E.base_pos
      omega
    obtain ⟨c, hc⟩ : ∃ c, (if n < s₁.getThissize (E.base + o) then n
        else s₁.getThissize (E.base + o)) = c := ⟨_, rfl⟩
    have hcn : c ≤ n := by
      rw [← hc]
      split <;> omega
    rw [hr] at he
    simp only [Env.ptr, if_neg hz, hc] at he
    obtain ⟨s₂, he₂, he⟩ := Option.bind_eq_some_iff.mp he
    obtain ⟨rfl, _⟩ := Prod.mk.inj (Option.some.inj he)
    have hnew := spans_bounds ((hs _).mpr (.inl rfl))
    obtain ⟨hr₂, _⟩ := hr₁.copy ht.wf (o := o) (c := c) ((hs _).mpr (.inl rfl)) (by omega)
    have hc₂ : Contained E (L.malloc E.page n).1 s₁.mem
        (memcpy s₁.mem (E.base + r) (E.base + o) c) := by
      refine SameOutside.overlay (by omega) ?_
      simp only [Layout.heapsize]
      omega
    have hc₃ := hr₂.free_contained ht.wf ((hs _).mpr (.inr ho)) he₂
    have hh := (Layout.free_wf ht.wf ((hs _).mpr (.inr ho))).2.1
    rw [Contained, hh] at hc₃
    rw [Layout.realloc_of_some hr, Contained, hh]
    exact (hc₁.trans hc₂).trans hc₃

end Calls

section Runs

variable {E : Env} {s₀ : State} {rs : List Request} {q : Request} {w w' : World} {P : Plan}

/-- The runs that begin with `mm_init` in the state `s₀`. -/
inductive RunFrom (E : Env) (s₀ : State) : List Request → World → Prop where
  | init {s : State} : mmInit E.base E.pageSize s₀ = some (s, 0) → RunFrom E s₀ [] ⟨s, [], []⟩
  | write {rs : List Request} {w : World} {m : Mem} : RunFrom E s₀ rs w →
      (∀ a, (∀ b ∈ w.live, a < b.ptr ∨ b.ptr + b.size ≤ a) → m a = w.heap.mem a) →
      RunFrom E s₀ rs (w.write m)
  | call {rs : List Request} {q : Request} {w w' : World} : RunFrom E s₀ rs w →
      q.Allowed w.live → w.call q = some w' → RunFrom E s₀ (rs ++ [q]) w'

theorem RunFrom.run (h : RunFrom E s₀ rs w) : Run E rs w := by
  induction h with
  | init he => exact .init he
  | write _ hm ih => exact ih.write hm
  | call _ hq he ih => exact ih.call hq he

theorem Matches.call_contained (h : Matches E w P) (hwf : P.WF) (hq : q.Allowed w.live)
    (he : w.call q = some w') : Contained E (P.call E.page q).layout w.heap.mem w'.heap.mem := by
  have hq' := h.allowed_iff.mp hq
  cases q with
  | malloc n =>
    obtain ⟨s, p, hs, rfl, _⟩ := World.call_malloc_inv he
    exact h.heap.malloc_contained hwf.layout hq' hs
  | free k =>
    obtain ⟨b, hb, hk⟩ := hq'
    obtain ⟨c, hc⟩ := Live.find_of_mem hb hk
    obtain ⟨j, hj, _⟩ := hwf.owned c (Live.find_some hc).1
    have hf : Live.find w.live k = some (Live.shift E.base c) := by
      rw [h.live, Live.find_shift, hc]
      rfl
    obtain ⟨s, hs, rfl, _⟩ := World.call_free_inv hf he
    rw [Plan.call_free hc]
    exact h.heap.free_contained hwf.layout hj hs
  | realloc k n =>
    obtain ⟨hn, b, hb, hk⟩ := hq'
    obtain ⟨c, hc⟩ := Live.find_of_mem hb hk
    obtain ⟨j, hj, _⟩ := hwf.owned c (Live.find_some hc).1
    have hf : Live.find w.live k = some (Live.shift E.base c) := by
      rw [h.live, Live.find_shift, hc]
      rfl
    obtain ⟨s, p, hs, rfl, _⟩ := World.call_realloc_inv hf he
    rw [Plan.call_realloc hc]
    exact h.heap.realloc_contained hwf.layout hj hn hs

theorem mmInit_contained {s : State} (h : mmInit E.base E.pageSize s₀ = some (s, 0)) :
    Contained E (Layout.initial E.page) s₀.mem s.mem := by
  have hroom : E.page.1 + 16 ≤ maxHeap := E.room
  have hge := E.page.2.1
  have hbs : E.firstBlock.size = E.page := rfl
  have hhs : (Layout.initial E.page).heapsize = 16 + E.page := by
    simp [Layout.initial, Layout.heapsize]
  obtain ⟨m, heads, he, _, hl⟩ := Image.add (s := initState E s₀) (o := 16) (n := E.page)
    (image_initMem s₀.mem hroom) (by simpa [Layout.heapsize, Env.firstBlock, Nat.add_comm] using hroom)
    (show Listed (fun _ => []) [] from ⟨fun i => List.nodup_nil, fun i o => by simp⟩) (by simp)
    (by simp [Env.firstBlock])
  rw [mmInit_eq, he] at h
  obtain ⟨rfl, _⟩ := Prod.mk.inj (Option.some.inj h)
  have hc : Contained E (Layout.initial E.page) s₀.mem (initMem s₀.mem E.base E.firstBlock) := by
    rw [Contained, hhs, initMem]
    refine SameOutside.trans ?_ (sameOutside_tagMem (by omega) (by omega))
    refine SameOutside.trans ?_ (SameOutside.putw (by omega) (by omega))
    refine SameOutside.trans ?_ (SameOutside.putw (by omega) (by omega))
    refine SameOutside.trans ?_ (SameOutside.putw (by omega) (by omega))
    exact SameOutside.putw (by omega) (by omega)
  exact hc.trans (hl.contained fun x hx => hx)

theorem RunFrom.contained (h : RunFrom E s₀ rs w) :
    Contained E (Plan.run E.page rs).layout s₀.mem w.heap.mem := by
  induction h with
  | init he => exact mmInit_contained he
  | @write rs w m h hm ih =>
    obtain ⟨hmt, hwf⟩ := h.run.matches
    refine ih.trans fun a ha => hm a fun b hb => ?_
    obtain ⟨o, k, hp, hok, hsz, _⟩ := hmt.live_span hwf hb
    have hbd := spans_bounds hok
    simp only [Layout.heapsize] at ha
    omega
  | @call rs q w w' h hq he ih =>
    obtain ⟨hmt, hwf⟩ := h.run.matches
    have hg : (Plan.run E.page rs).layout.heapsize ≤
        ((Plan.run E.page rs).call E.page q).layout.heapsize :=
      Plan.call_grows hwf (hmt.allowed_iff.mp hq)
    rw [Plan.run_append]
    exact (ih.mono le_rfl (by omega)).trans (hmt.call_contained hwf hq he)

theorem RunFrom.unused (h : RunFrom E s₀ rs w) :
    E.base ≤ w.heap.memBrk ∧ w.heap.memBrk ≤ E.base + maxHeap ∧
      SameOutside E.base w.heap.memBrk s₀.mem w.heap.mem := by
  obtain ⟨hmt, hwf⟩ := h.run.matches
  have hfit := hwf.layout.fits
  have hc := h.contained
  rw [Contained, ← hmt.heap.brk] at hc
  rw [hmt.heap.brk] at hc ⊢
  exact ⟨by omega, by omega, hc⟩

theorem RunFrom.continue {qs : List Request} (h : RunFrom E s₀ rs w)
    (hq : (Plan.run E.page rs).Admits E.page qs) : ∃ w', RunFrom E s₀ (rs ++ qs) w' := by
  induction qs generalizing rs w with
  | nil => exact ⟨w, by simpa using h⟩
  | cons q qs ih =>
    have hallow := h.run.matches.1.allowed_iff.mpr hq.1
    obtain ⟨w₁, he, _⟩ := h.run.step hallow
    obtain ⟨w', hw'⟩ := ih (h.call hallow he) (by rw [Plan.run_append]; exact hq.2)
    exact ⟨w', by simpa using hw'⟩

theorem Plan.admits_append {page : Size} {qs : List Request} :
    P.Admits page (qs ++ [q]) ↔ P.Admits page qs ∧ q.Allowed (qs.foldl (Plan.call page) P).live := by
  induction qs generalizing P with
  | nil => simp [Plan.Admits]
  | cons r qs ih => rw [List.cons_append, Plan.Admits, Plan.Admits, ih, and_assoc, List.foldl_cons]

theorem RunFrom.admits (h : RunFrom E s₀ rs w) : (Plan.initial E.page).Admits E.page rs := by
  induction h with
  | init => exact trivial
  | write _ _ ih => exact ih
  | call h hq _ ih => exact Plan.admits_append.mpr ⟨ih, h.run.matches.1.allowed_iff.mp hq⟩

/-- The allocator refines the layouts. From every state that `mm_init` may find, a
sequence of calls can be made exactly if the layouts admit it, and then every
pointer returned and every heap on the way is that of the plan, placed at the
base of the arena. -/
theorem allocator_refines_layouts (E : Env) (s₀ : State) (rs : List Request) :
    ((∃ w, RunFrom E s₀ rs w) ↔ (Plan.initial E.page).Admits E.page rs) ∧
      ∀ w, RunFrom E s₀ rs w → Matches E w (Plan.run E.page rs) := by
  obtain ⟨s, hs, _⟩ := mmInit_refines E s₀
  refine ⟨⟨fun ⟨w, hw⟩ => hw.admits, fun hq => ?_⟩, fun w hw => hw.run.matches.1⟩
  exact (RunFrom.init hs).continue (show (Plan.run E.page []).Admits E.page rs from hq)

theorem allocator_refines_layouts_small :
    ∃ w, RunFrom Env.small default [.malloc 24, .malloc 40, .free 0, .malloc 16] w ∧
      w.log.map Prod.fst = [4112, 4144, 0, 4112] := by
  obtain ⟨hiff, hmatch⟩ := allocator_refines_layouts Env.small default
    [.malloc 24, .malloc 40, .free 0, .malloc 16]
  obtain ⟨w, hw⟩ := hiff.mpr (by decide)
  refine ⟨w, hw, ?_⟩
  have hlog : w.log.map Prod.fst = (Plan.run Env.small.page
      [.malloc 24, .malloc 40, .free 0, .malloc 16]).log.map fun x => Env.small.ptr x.1 := by
    rw [← List.forall₂_eq_eq_eq, List.forall₂_map_left_iff, List.forall₂_map_right_iff]
    exact (hmatch w hw).log.imp fun _ _ hx => hx.1
  rw [hlog]
  decide

/-- In every run, a byte that lies below the heap, or at or above the break, is the
one that was there before `mm_init`. The heap itself stays in the arena. -/
theorem writes_stay_in_heap (h : RunFrom E s₀ rs w) :
    w.heap.memHeapLo = E.base ∧ w.heap.memBrk ≤ E.base + maxHeap ∧
      ∀ a, a < w.heap.memHeapLo ∨ w.heap.memBrk ≤ a → w.heap.mem a = s₀.mem a := by
  obtain ⟨hmt, _⟩ := h.run.matches
  obtain ⟨_, hmax, hsame⟩ := h.unused
  have hlo : w.heap.memHeapLo = E.base := hmt.heap.startBrk
  rw [hlo]
  exact ⟨rfl, hmax, hsame⟩

theorem writes_stay_in_heap_small :
    ∃ w, RunFrom Env.small default [.malloc 5000, .malloc 40, .free 0, .realloc 1 9000] w ∧
      ∀ a, w.heap.memBrk ≤ a → w.heap.mem a = 0 := by
  obtain ⟨s, hs, _⟩ := mmInit_refines Env.small default
  obtain ⟨w, hw⟩ := (RunFrom.init hs).continue
    (show (Plan.run Env.small.page []).Admits Env.small.page
      [.malloc 5000, .malloc 40, .free 0, .realloc 1 9000] by decide)
  exact ⟨w, hw, fun a ha => (writes_stay_in_heap hw).2.2 a (.inr ha)⟩

end Runs

section Overwrite

inductive OverwriteAlarm where
  | written (bp : Nat)
  | divergence

/-- The loop that `DO_HEAP_OVERWRITE_CHECK` adds to `mm_check`. -/
def checkUnusedLoop (s : State) : Nat → Nat → Except OverwriteAlarm Unit
  | 0, _ => .error .divergence
  | fuel + 1, bp =>
    if bp < wadd s.heapStart maxHeap then
      if s.mem bp = 0 then checkUnusedLoop s fuel (wadd bp 1) else .error (.written bp)
    else .ok ()

@[irreducible]
def checkUnused (s : State) : Except OverwriteAlarm Unit :=
  checkUnusedLoop s (2 ^ 32) (wadd s.heapEnd 1)

/-- The build with `DO_MM_CHECK` has `mm_init` clear the arena before it does
anything else to it. -/
def State.cleared (s : State) (arena : Nat) : State :=
  { s with mem := memset s.mem arena 0 maxHeap }

theorem checkUnusedLoop_ok_iff {s : State} {fuel bp hi : Nat}
    (hs : wadd s.heapStart maxHeap = hi) (hlt : hi < 2 ^ 32) (hle : bp ≤ hi)
    (hf : hi < bp + fuel) :
    checkUnusedLoop s fuel bp = .ok () ↔ ∀ a, bp ≤ a → a < hi → s.mem a = 0 := by
  induction fuel generalizing bp with
  | zero => omega
  | succ fuel ih =>
    rw [checkUnusedLoop, hs]
    by_cases hbp : bp < hi
    · rw [if_pos hbp, wadd_eq (by omega)]
      by_cases hz : s.mem bp = 0
      · rw [if_pos hz, ih (by omega) (by omega)]
        constructor
        · intro h a ha ha'
          by_cases he : a = bp
          · rw [he, hz]
          · exact h a (by omega) ha'
        · exact fun h a ha ha' => h a (by omega) ha'
      · rw [if_neg hz]
        exact ⟨fun h => (by cases h), fun h => absurd (h bp le_rfl hbp) hz⟩
    · rw [if_neg hbp]
      exact ⟨fun _ a ha ha' => absurd ha' (by omega), fun _ => rfl⟩

theorem checkUnused_ok_iff {s : State} {bp hi : Nat} (hb : wadd s.heapEnd 1 = bp)
    (hs : wadd s.heapStart maxHeap = hi) (hlt : hi < 2 ^ 32) (hle : bp ≤ hi) :
    checkUnused s = .ok () ↔ ∀ a, bp ≤ a → a < hi → s.mem a = 0 := by
  have heq : checkUnused s = checkUnusedLoop s (2 ^ 32) bp := by
    unfold checkUnused
    rw [hb]
  rw [heq]
  exact checkUnusedLoop_ok_iff hs hlt hle (by omega)

variable {E : Env} {s₀ : State} {rs : List Request} {w : World}

/-- The overwrite check of the debugging build finds every stray byte above the
break and nothing else: with `m` in memory it passes exactly when `m` has there
what the run left there, which is zero. -/
theorem overwrite_check_exact (h : RunFrom E (s₀.cleared E.base) rs w) (m : Mem) :
    checkUnused { w.heap with mem := m } = .ok () ↔
      ∀ a, w.heap.memBrk ≤ a → a < w.heap.memMaxAddr → m a = w.heap.mem a := by
  obtain ⟨hmt, _⟩ := h.run.matches
  obtain ⟨hlo, hmax, hsame⟩ := h.unused
  have := E.base_high
  have := maxHeap_eq
  have hend : w.heap.heapEnd + 1 = w.heap.memBrk := hmt.heap.heapEnd.trans hmt.heap.brk.symm
  have hhi : wadd w.heap.heapStart maxHeap = E.base + maxHeap := by
    rw [hmt.heap.heapStart, wadd_eq (by omega)]
  have hzero : ∀ a, w.heap.memBrk ≤ a → a < E.base + maxHeap → w.heap.mem a = 0 := by
    intro a ha ha'
    have hset : memset s₀.mem E.base 0 maxHeap a = 0 := overlay_in (by omega) ha'
    exact (hsame a (.inr ha)).trans hset
  have hstart : wadd w.heap.heapEnd 1 = w.heap.memBrk := by rw [wadd_eq (by omega), hend]
  have hiff : checkUnused { w.heap with mem := m } = .ok () ↔
      ∀ a, w.heap.memBrk ≤ a → a < E.base + maxHeap → m a = 0 :=
    checkUnused_ok_iff hstart hhi (by omega) hmax
  rw [hmt.heap.maxAddr]
  refine hiff.trans (forall_congr' fun a => forall_congr' fun ha => forall_congr' fun ha' => ?_)
  rw [hzero a ha ha']

theorem overwrite_check_exact_small :
    ∃ w, RunFrom Env.small ((default : State).cleared Env.small.base) [.malloc 5000, .free 0] w ∧
      checkUnused w.heap = .ok () := by
  obtain ⟨s, hs, _⟩ := mmInit_refines Env.small ((default : State).cleared Env.small.base)
  obtain ⟨w, hw⟩ := (RunFrom.init hs).continue
    (show (Plan.run Env.small.page []).Admits Env.small.page [.malloc 5000, .free 0] by decide)
  exact ⟨w, hw, (overwrite_check_exact hw w.heap.mem).mpr fun _ _ _ => rfl⟩

end Overwrite

end CsoMalloc
