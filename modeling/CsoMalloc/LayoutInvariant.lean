import CsoMalloc.Layout

/-! What every layout of a run satisfies: the free blocks are exactly the
listed ones, each in the list of its class, and a header that denies an
allocated predecessor follows a free block. The operations keep it. -/

namespace CsoMalloc

open Tiling

/-- Offset and size of the blocks whose allocation flag is `a`. -/
def spans (a : Bool) : Nat → List Block → List (Nat × Nat)
  | _, [] => []
  | o, b :: bs => if b.alloc = a then (o, b.size) :: spans a (o + b.size) bs
    else spans a (o + b.size) bs

@[simp] theorem spans_nil (a : Bool) (o : Nat) : spans a o [] = [] := rfl

@[simp] theorem spans_cons (a : Bool) (o : Nat) (b : Block) (bs : List Block) :
    spans a o (b :: bs) =
      (if b.alloc = a then [(o, b.size)] else []) ++ spans a (o + b.size) bs := by
  rw [spans]
  split <;> rfl

@[simp] theorem spans_append (a : Bool) (o : Nat) (xs ys : List Block) :
    spans a o (xs ++ ys) = spans a o xs ++ spans a (o + extent Block.size xs) ys := by
  induction xs generalizing o with
  | nil => simp
  | cons x xs ih => simp [ih, Nat.add_assoc]

theorem spans_eq_nil {a : Bool} {bs : List Block} (h : ∀ b ∈ bs, b.alloc ≠ a) (o : Nat) :
    spans a o bs = [] := by
  induction bs generalizing o with
  | nil => rfl
  | cons b bs ih => simp [h b, ih fun c hc => h c (by simp [hc])]

theorem mem_spans {a : Bool} {o p n : Nat} {bs : List Block} :
    (p, n) ∈ spans a o bs ↔ ∃ b, (p, b) ∈ placed Block.size o bs ∧ b.alloc = a ∧ b.size = n := by
  induction bs generalizing o with
  | nil => simp
  | cons c bs ih =>
    simp only [spans_cons, List.mem_append, ih, placed_cons, List.mem_cons, Prod.mk.injEq]
    constructor
    · rintro (h | ⟨b, hb, h⟩)
      · split at h
        · next hc =>
          obtain ⟨rfl, rfl⟩ : p = o ∧ n = c.size := by simpa using h
          exact ⟨c, .inl ⟨rfl, rfl⟩, hc, rfl⟩
        · simp at h
      · exact ⟨b, .inr hb, h⟩
    · rintro ⟨b, ⟨rfl, rfl⟩ | hb, rfl, rfl⟩
      · simp
      · exact .inr ⟨b, hb, rfl, rfl⟩

theorem spans_bounds {a : Bool} {o p n : Nat} {bs : List Block} (h : (p, n) ∈ spans a o bs) :
    o ≤ p ∧ p + n ≤ o + extent Block.size bs ∧ 16 ≤ n := by
  obtain ⟨b, hb, _, rfl⟩ := mem_spans.mp h
  have := placed_bounds hb
  have := b.size_ge
  omega

theorem spans_separated {a a' : Bool} {o p q n k : Nat} {bs : List Block}
    (hp : (p, n) ∈ spans a o bs) (hq : (q, k) ∈ spans a' o bs) :
    (p = q ∧ n = k ∧ a = a') ∨ p + n ≤ q ∨ q + k ≤ p := by
  obtain ⟨b, hb, rfl, rfl⟩ := mem_spans.mp hp
  obtain ⟨c, hc, rfl, rfl⟩ := mem_spans.mp hq
  rcases placed_separated hb hc with h | h
  · obtain ⟨rfl, rfl⟩ := Prod.mk.inj h
    exact .inl ⟨rfl, rfl, rfl⟩
  · exact .inr h

theorem spans_apart {o p q n k : Nat} {bs : List Block} (hp : (p, n) ∈ spans true o bs)
    (hq : (q, k) ∈ spans false o bs) : p + n ≤ q ∨ q + k ≤ p :=
  (spans_separated hp hq).resolve_left (by simp)

/-- The lists hold exactly the given spans, each in the list of its class. -/
structure Listed (lists : Lists) (sp : List (Nat × Nat)) : Prop where
  nodup : ∀ i, (lists i).Nodup
  mem_iff : ∀ i o, o ∈ lists i ↔ ∃ n, (o, n) ∈ sp ∧ calcListIndex n = i

theorem Listed.unlink {lists : Lists} {sp sp' : List (Nat × Nat)} {o n : Nat}
    (h : Listed lists sp) (he : ∀ x, x ∈ sp ↔ x = (o, n) ∨ x ∈ sp')
    (hfresh : ∀ m, (o, m) ∉ sp') : Listed (lists.unlink o n) sp' := by
  refine ⟨fun i => ?_, fun i p => ?_⟩
  · by_cases hi : i = calcListIndex n
    · subst hi
      simpa [Lists.unlink] using (h.nodup _).erase o
    · simpa [Lists.unlink, hi] using h.nodup i
  · by_cases hi : i = calcListIndex n
    · subst hi
      simp only [Lists.unlink, Function.update_self, (h.nodup _).mem_erase_iff, h.mem_iff, he]
      constructor
      · rintro ⟨hne, m, hm | hm, hc⟩
        · exact absurd (Prod.mk.inj hm).1 hne
        · exact ⟨m, hm, hc⟩
      · rintro ⟨m, hm, hc⟩
        exact ⟨fun e => hfresh m (e ▸ hm), m, .inr hm, hc⟩
    · simp only [Lists.unlink, Function.update_of_ne hi, h.mem_iff, he]
      constructor
      · rintro ⟨m, hm | hm, hc⟩
        · exact absurd (by rw [← (Prod.mk.inj hm).2, hc]) hi
        · exact ⟨m, hm, hc⟩
      · rintro ⟨m, hm, hc⟩
        exact ⟨m, .inr hm, hc⟩

theorem Listed.link {lists : Lists} {sp sp' : List (Nat × Nat)} {o n : Nat}
    (h : Listed lists sp) (he : ∀ x, x ∈ sp' ↔ x = (o, n) ∨ x ∈ sp)
    (hfresh : ∀ m, (o, m) ∉ sp) : Listed (lists.link o n) sp' := by
  refine ⟨fun i => ?_, fun i p => ?_⟩
  · by_cases hi : i = calcListIndex n
    · subst hi
      have ho : o ∉ lists (calcListIndex n) := by
        rw [h.mem_iff]
        rintro ⟨m, hm, _⟩
        exact hfresh m hm
      simpa [Lists.link, List.nodup_append, h.nodup] using fun p hp => fun e : p = o => ho (e ▸ hp)
    · simpa [Lists.link, hi] using h.nodup i
  · by_cases hi : i = calcListIndex n
    · subst hi
      simp only [Lists.link, Function.update_self, List.mem_append, List.mem_singleton, h.mem_iff,
        he]
      constructor
      · rintro (⟨m, hm, hc⟩ | rfl)
        · exact ⟨m, .inr hm, hc⟩
        · exact ⟨n, .inl rfl, rfl⟩
      · rintro ⟨m, hm | hm, hc⟩
        · exact .inr (Prod.mk.inj hm).1
        · exact .inl ⟨m, hm, hc⟩
    · simp only [Lists.link, Function.update_of_ne hi, h.mem_iff, he]
      constructor
      · rintro ⟨m, hm, hc⟩
        exact ⟨m, .inr hm, hc⟩
      · rintro ⟨m, hm | hm, hc⟩
        · exact absurd (by rw [← (Prod.mk.inj hm).2, hc]) hi
        · exact ⟨m, hm, hc⟩

/-- Every header of `bs`, and the one behind them with flag `e`, has its
`PREVALLOC` flag clear only behind a free block; `a` tells whether the block
before `bs` is allocated. -/
def FlagsOk (a : Bool) : List Block → Bool → Prop
  | [], e => e = false → a = false
  | b :: bs, e => (b.prevAlloc = false → a = false) ∧ FlagsOk b.alloc bs e

theorem flagsOk_append {a : Bool} {xs ys : List Block} {y : Block} {e : Bool} :
    FlagsOk a (xs ++ y :: ys) e ↔ FlagsOk a xs y.prevAlloc ∧ FlagsOk y.alloc ys e := by
  induction xs generalizing a with
  | nil => simp [FlagsOk]
  | cons x xs ih => simp [FlagsOk, ih, and_assoc]

theorem FlagsOk.of_free {a a' : Bool} {bs : List Block} {e : Bool} (h : FlagsOk a bs e)
    (ha : a' = false) : FlagsOk a' bs e := by
  subst ha
  cases bs with
  | nil => exact fun _ => rfl
  | cons b bs => exact ⟨fun _ => rfl, h.2⟩

structure Layout.WF (L : Layout) : Prop where
  fits : L.heapsize ≤ maxHeap
  nonempty : L.blocks ≠ []
  flags : FlagsOk true L.blocks L.epiPrev
  listed : Listed L.lists (spans false 16 L.blocks)

/-- A layout opened at a free block that is on no list; all else is in order. -/
structure Focus.Open (f : Focus) : Prop where
  free : f.block.alloc = false
  fits : f.layout.heapsize ≤ maxHeap
  flagsBefore : FlagsOk true f.before.reverse f.block.prevAlloc
  flagsAfter : FlagsOk false f.after f.epiPrev
  listed : Listed f.lists
    (spans false 16 f.before.reverse ++ spans false (f.offset + f.block.size) f.after)

theorem spans_around {a : Bool} {before after : List Block} {q o m : Nat}
    (h : (o, m) ∈ spans a 16 before.reverse ++ spans a q after) :
    o + 16 ≤ 16 + extent Block.size before ∨ q ≤ o := by
  rcases List.mem_append.mp h with h | h
  · have := spans_bounds h
    rw [extent_reverse] at this
    omega
  · have := spans_bounds h
    omega

namespace Focus

theorem Open.prev_free {l block : Block} {rest after : List Block} {e : Bool} {lists : Lists}
    (h : Open ⟨l :: rest, block, after, e, lists⟩) (hp : block.prevAlloc = false) :
    l.alloc = false := by
  have hb := h.flagsBefore
  simp only [List.reverse_cons, flagsOk_append, FlagsOk, hp, forall_const] at hb
  exact hb.2

theorem absorbNext_open {f : Focus} (h : f.Open) : f.absorbNext.Open := by
  obtain ⟨before, block, after, epiPrev, lists⟩ := f
  cases after with
  | nil => exact h
  | cons n rest =>
    obtain ⟨hfree, hfits, hb, ha, hl⟩ := h
    by_cases hn : n.alloc = true
    · simpa [absorbNext, hn] using ⟨hfree, hfits, hb, ha, hl⟩
    · have hn : n.alloc = false := by simpa using hn
      simp only [absorbNext, hn, Bool.false_eq_true, if_false]
      refine ⟨hfree, ?_, hb, ha.2.of_free rfl, ?_⟩
      · simp only [layout, Layout.heapsize, extent_append, extent_cons, Block.join] at hfits ⊢
        omega
      · refine hl.unlink (fun x => ?_) fun m hm => ?_
        · simp [offset, Block.join, hn, Nat.add_assoc]
          tauto
        · have := n.size_ge
          have := block.size_ge
          have hout := spans_around hm
          simp only [offset, Block.join] at hout
          omega

theorem absorbPrev_open {f : Focus} (h : f.Open) : f.absorbPrev.Open := by
  obtain ⟨before, block, after, epiPrev, lists⟩ := f
  cases before with
  | nil => exact h
  | cons l rest =>
    obtain ⟨hfree, hfits, hb, ha, hl⟩ := h
    by_cases hp : block.prevAlloc = true
    · simpa [absorbPrev, hp] using ⟨hfree, hfits, hb, ha, hl⟩
    · have hp : block.prevAlloc = false := by simpa using hp
      simp only [List.reverse_cons, flagsOk_append, FlagsOk, hp, forall_const] at hb
      simp only [absorbPrev, hp, Bool.false_eq_true, if_false]
      refine ⟨hb.2, ?_, hb.1, ha, ?_⟩
      · simp only [layout, Layout.heapsize, extent_append, extent_cons, extent_reverse,
          Block.join] at hfits ⊢
        omega
      · refine hl.unlink (fun x => ?_) fun m hm => ?_
        · simp [offset, Block.join, hb.2, Nat.add_assoc, Nat.add_comm, Nat.add_left_comm]
          tauto
        · have := l.size_ge
          have hout := spans_around hm
          simp only [offset, Block.join] at hout
          omega

theorem absorbNext_allocated {f : Focus} (h : f.Open) :
    spans true 16 f.absorbNext.layout.blocks = spans true 16 f.layout.blocks ∧
      f.absorbNext.layout.heapsize = f.layout.heapsize := by
  obtain ⟨before, block, after, epiPrev, lists⟩ := f
  have hfree : block.alloc = false := h.free
  cases after with
  | nil => exact ⟨rfl, rfl⟩
  | cons n rest =>
    by_cases hn : n.alloc = true
    · simp [absorbNext, hn]
    · have hn : n.alloc = false := by simpa using hn
      simp [absorbNext, hn, layout, Layout.heapsize, Block.join, hfree, Nat.add_assoc]

theorem absorbPrev_allocated {f : Focus} (h : f.Open) :
    spans true 16 f.absorbPrev.layout.blocks = spans true 16 f.layout.blocks ∧
      f.absorbPrev.layout.heapsize = f.layout.heapsize := by
  obtain ⟨before, block, after, epiPrev, lists⟩ := f
  have hfree : block.alloc = false := h.free
  cases before with
  | nil => exact ⟨rfl, rfl⟩
  | cons l rest =>
    by_cases hp : block.prevAlloc = true
    · simp [absorbPrev, hp]
    · have hp : block.prevAlloc = false := by simpa using hp
      simp [absorbPrev, hp, layout, Layout.heapsize, Block.join, hfree, h.prev_free hp, Nat.add_assoc]

theorem coalesce_allocated {f : Focus} (h : f.Open) :
    spans true 16 f.coalesce.layout.blocks = spans true 16 f.layout.blocks ∧
      f.coalesce.layout.heapsize = f.layout.heapsize := by
  have h1 := absorbNext_allocated h
  have h2 := absorbPrev_allocated (absorbNext_open h)
  exact ⟨h2.1.trans h1.1, h2.2.trans h1.2⟩

/-- Listing the open block completes the layout. -/
theorem Open.close {f : Focus} (h : f.Open) :
    ({ f with lists := f.lists.link f.offset f.block.size } : Focus).layout.WF := by
  have hge := f.block.size_ge
  refine ⟨h.fits, by simp [layout], ?_, ?_⟩
  · simp only [layout, flagsOk_append]
    exact ⟨h.flagsBefore, h.free ▸ h.flagsAfter⟩
  · refine h.listed.link (fun x => ?_) fun m hm => ?_
    · simp [layout, offset, h.free]
      tauto
    · have hout := spans_around hm
      simp only [offset] at hout
      omega

theorem coalesce_wf {f : Focus} (h : f.Open) : f.coalesce.layout.WF :=
  (absorbPrev_open (absorbNext_open h)).close

/-- Taking a free block off its list opens the layout at it. -/
theorem open_of_free {f : Focus} (h : f.layout.WF) (hfree : f.block.alloc = false) :
    ({ f with lists := f.lists.unlink f.offset f.block.size } : Focus).Open := by
  have hge := f.block.size_ge
  have hf := h.flags
  simp only [layout, flagsOk_append, hfree] at hf
  refine ⟨hfree, h.fits, hf.1, hf.2, ?_⟩
  refine h.listed.unlink (fun x => ?_) fun m hm => ?_
  · simp [layout, offset, hfree]
    tauto
  · have hout := spans_around hm
    simp only [offset] at hout
    omega

/-- An allocated block is on no list, so clearing its flag opens the layout. -/
theorem open_of_alloc {f : Focus} (h : f.layout.WF) (halloc : f.block.alloc = true) :
    ({ f with block := { f.block with alloc := false } } : Focus).Open := by
  have hf := h.flags
  simp only [layout, flagsOk_append, halloc] at hf
  refine ⟨rfl, by simpa [layout, Layout.heapsize] using h.fits, hf.1, hf.2.of_free rfl, ?_⟩
  simpa [layout, offset, halloc] using h.listed

theorem release_wf {f : Focus} (h : f.layout.WF) (halloc : f.block.alloc = true) :
    f.release.layout.WF :=
  coalesce_wf (open_of_alloc h halloc)

theorem markNext_wf {f : Focus} (h : f.Open) :
    (markNext { f with block := { f.block with alloc := true } }).layout.WF := by
  obtain ⟨before, block, after, epiPrev, lists⟩ := f
  obtain ⟨hfree, hfits, hb, ha, hl⟩ := h
  have hhs : Layout.heapsize (markNext ⟨before, { block with alloc := true }, after, epiPrev,
      lists⟩).layout = (layout ⟨before, block, after, epiPrev, lists⟩).heapsize := by
    cases after <;> simp [markNext, layout, Layout.heapsize]
  refine ⟨hhs ▸ hfits, by cases after <;> simp [markNext, layout], ?_, ?_⟩
  · cases after with
    | nil => exact flagsOk_append.mpr ⟨hb, by simp [markNext, layout, FlagsOk]⟩
    | cons n rest =>
      exact flagsOk_append.mpr ⟨hb, by simpa [markNext, layout, FlagsOk] using ha.2⟩
  · cases after <;> simpa [markNext, layout, offset] using hl

theorem split_open {f : Focus} (h : f.Open) (a : Size) (ha : 16 ≤ f.block.size - a)
    (hd : 8 ∣ f.block.size - a) :
    Open ⟨⟨a, true, f.block.prevAlloc, a.2.1, a.2.2⟩ :: f.before,
      ⟨f.block.size - a, false, true, ha, hd⟩, f.after, f.epiPrev, f.lists⟩ := by
  obtain ⟨hfree, hfits, hb, haf, hl⟩ := h
  have he : 16 + (extent Block.size f.before + ↑a) + (f.block.size - ↑a) =
      f.offset + f.block.size := by
    simp only [offset]
    omega
  refine ⟨rfl, ?_, ?_, haf, ?_⟩
  · simp only [layout, Layout.heapsize, extent_append, extent_cons, extent_reverse] at hfits ⊢
    omega
  · simp only [List.reverse_cons, flagsOk_append]
    exact ⟨hb, by simp [FlagsOk]⟩
  · simpa [offset, Nat.add_comm, Nat.add_left_comm, Nat.add_assoc] using
      (show Listed f.lists (spans false 16 f.before.reverse ++
        spans false (16 + (extent Block.size f.before + ↑a) + (f.block.size - ↑a)) f.after) from
        he ▸ hl)

theorem place_wf {f : Focus} (h : f.layout.WF) (hfree : f.block.alloc = false) (a : Size) :
    (f.place a).WF := by
  have ho := open_of_free h hfree
  unfold place
  split
  · exact coalesce_wf (split_open ho a _ _)
  · exact markNext_wf ho

end Focus

end CsoMalloc
