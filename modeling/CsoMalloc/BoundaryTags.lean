import CsoMalloc.TagWords
import CsoMalloc.LayoutInvariant

/-! Blocks in memory: the header in front of every payload and, while the block
is free, the footer in its last word. -/

namespace CsoMalloc

open ByteMemory Tiling

/-- The tags of `bs` are in memory, the first payload at address `p`. Only
the size of a footer is ever read, and only that of a free block. -/
def Tagged (m : Mem) : Nat → List Block → Prop
  | _, [] => True
  | p, b :: bs => getw m (p - 4) = b.word ∧
      (b.alloc = false → sizeField (getw m (p + b.size - 8)) = b.size) ∧ Tagged m (p + b.size) bs

theorem tagged_append {m : Mem} {p : Nat} {xs ys : List Block} :
    Tagged m p (xs ++ ys) ↔ Tagged m p xs ∧ Tagged m (p + extent Block.size xs) ys := by
  induction xs generalizing p with
  | nil => simp [Tagged]
  | cons x xs ih => simp [Tagged, ih, Nat.add_assoc, and_assoc]

theorem tagged_iff {m : Mem} {p : Nat} {bs : List Block} :
    Tagged m p bs ↔ ∀ o b, (o, b) ∈ placed Block.size p bs → getw m (o - 4) = b.word ∧
      (b.alloc = false → sizeField (getw m (o + b.size - 8)) = b.size) := by
  induction bs generalizing p with
  | nil => simp [Tagged]
  | cons c bs ih =>
    simp only [Tagged, ih, placed_cons, List.mem_cons, Prod.mk.injEq]
    constructor
    · rintro ⟨h1, h2, h3⟩ o b (⟨rfl, rfl⟩ | hb)
      · exact ⟨h1, h2⟩
      · exact h3 o b hb
    · intro h
      exact ⟨(h p c (.inl ⟨rfl, rfl⟩)).1, (h p c (.inl ⟨rfl, rfl⟩)).2, fun o b hb => h o b (.inr hb)⟩

/-- The tags lie between the first header and the last footer. -/
theorem Tagged.congr {m m' : Mem} {p : Nat} {bs : List Block} (h : Tagged m p bs) (hp : 4 ≤ p)
    (hm : ∀ a, p ≤ a + 4 → a + 4 < p + extent Block.size bs → m' a = m a) : Tagged m' p bs := by
  rw [tagged_iff] at h ⊢
  intro o b hb
  have hbd := placed_bounds hb
  have hge := b.size_ge
  have hh := h o b hb
  have h1 : getw m' (o - 4) = getw m (o - 4) :=
    getw_congr fun a ha ha' => hm a (by omega) (by omega)
  have h2 : getw m' (o + b.size - 8) = getw m (o + b.size - 8) :=
    getw_congr fun a ha ha' => hm a (by omega) (by omega)
  rw [h1, h2]
  exact hh

/-- How many bytes of the payload hold no tag. -/
def Block.room (b : Block) : Nat := if b.alloc then b.size - 4 else b.size - 8

theorem Block.room_le (b : Block) : 8 ≤ b.room ∧ b.room + 4 ≤ b.size ∧
    (b.alloc = false → b.room + 8 ≤ b.size) := by
  have := b.size_ge
  unfold Block.room
  split <;> simp_all <;> omega

theorem Tagged.congr_room {m m' : Mem} {p : Nat} {bs : List Block} (h : Tagged m p bs)
    (hp : 4 ≤ p) (hm : ∀ a, (∀ o b, (o, b) ∈ placed Block.size p bs → a < o ∨ o + b.room ≤ a) →
      m' a = m a) : Tagged m' p bs := by
  rw [tagged_iff] at h ⊢
  intro o b hb
  have hge := b.size_ge
  have hbd := placed_bounds hb
  have hsep : ∀ q c, (q, c) ∈ placed Block.size p bs →
      (q = o ∧ c = b) ∨ q + c.size ≤ o ∨ o + b.size ≤ q := fun q c hc => by
    simpa using placed_separated hc hb
  have h1 : getw m' (o - 4) = getw m (o - 4) := by
    refine getw_congr fun a ha ha' => hm a fun q c hc => ?_
    have := c.room_le
    rcases hsep q c hc with ⟨rfl, rfl⟩ | h | h <;> omega
  refine ⟨h1.trans (h o b hb).1, fun hfree => ?_⟩
  have h2 : getw m' (o + b.size - 8) = getw m (o + b.size - 8) := by
    refine getw_congr fun a ha ha' => hm a fun q c hc => ?_
    have := c.room_le
    rcases hsep q c hc with ⟨rfl, rfl⟩ | h | h
    · have := this.2.2 hfree
      omega
    · omega
    · omega
  rw [h2]
  exact (h o b hb).2 hfree

/-- Header and footer of a block, written whatever its flags. -/
def tagMem (m : Mem) (p : Nat) (b : Block) : Mem := putw (putw m (p - 4) b.word) (p + b.size - 8) b.word

section TagMem

variable {m : Mem} {p : Nat} {b : Block}

theorem tagMem_out {a : Nat} (hp : 4 ≤ p) (ha : (a + 4 < p ∨ p ≤ a) ∧
    (a + 8 < p + b.size ∨ p + b.size ≤ a + 4)) : tagMem m p b a = m a := by
  have := b.size_ge
  rw [tagMem, putw_out (by omega), putw_out (by omega)]

theorem getw_tagMem_ne {a : Nat} (hp : 4 ≤ p) (ha : (a + 8 ≤ p ∨ p ≤ a) ∧
    (a + 12 ≤ p + b.size ∨ p + b.size ≤ a + 4)) : getw (tagMem m p b) a = getw m a := by
  have := b.size_ge
  rw [tagMem, getw_putw_ne (by omega), getw_putw_ne (by omega)]

theorem getw_tagMem_header (hp : 4 ≤ p) (hb : b.size + 4 ≤ 2 ^ 32) :
    getw (tagMem m p b) (p - 4) = b.word := by
  have := b.size_ge
  rw [tagMem, getw_putw_ne (by omega), getw_putw (Block.word_lt hb)]

theorem tagged_tagMem (hp : 4 ≤ p) (hb : b.size + 4 ≤ 2 ^ 32) : Tagged (tagMem m p b) p [b] := by
  refine ⟨getw_tagMem_header hp hb, fun _ => ?_, trivial⟩
  rw [tagMem, getw_putw (Block.word_lt hb), Block.sizeField_word hb]

end TagMem

end CsoMalloc
