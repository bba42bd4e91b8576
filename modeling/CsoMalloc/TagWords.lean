import CsoMalloc.Layout

/-! The words that mark a block: reading the size and the two flags back, and
the closed form of the size that a request is rounded to. -/

namespace CsoMalloc

open ByteMemory

theorem and_mask {w k : Nat} (hw : w < 2 ^ 32) (hk : k ≤ 32) :
    w &&& (2 ^ k * (2 ^ (32 - k) - 1)) = 2 ^ k * (w / 2 ^ k) := by
  apply Nat.eq_of_testBit_eq
  intro i
  rw [Nat.testBit_and, Nat.testBit_two_pow_mul, Nat.testBit_two_pow_mul,
    Nat.testBit_two_pow_sub_one, Nat.testBit_div_two_pow]
  by_cases hi : k ≤ i
  · rw [Nat.sub_add_cancel hi]
    by_cases hi' : i < 32
    · simp [hi, show i - k < 32 - k by omega]
    · have : w.testBit i = false :=
        Nat.testBit_lt_two_pow (Nat.lt_of_lt_of_le hw (Nat.pow_le_pow_right (by omega) (by omega)))
      simp [this]
  · simp [hi]

theorem sizeField_eq {w : Nat} (hw : w < 2 ^ 32) : sizeField w = 4 * (w / 4) :=
  and_mask (k := 2) hw (by omega)

theorem pack_eq {size flags : Nat} (hs : 4 ∣ size) (hf : flags < 4) :
    pack size flags = size + flags := by
  obtain ⟨q, rfl⟩ := hs
  exact (Nat.two_pow_add_eq_or_of_lt (i := 2) hf q).symm

theorem and_thisalloc (w : Nat) : w &&& thisalloc = w % 2 := Nat.and_one_is_mod w

theorem and_prevalloc (w : Nat) : w &&& prevalloc = 2 * (w / 2 % 2) := by
  apply Nat.eq_of_testBit_eq
  intro i
  have h2 : prevalloc = 2 ^ 1 * 1 := rfl
  have hr : 2 * (w / 2 % 2) = 2 ^ 1 * (w / 2 ^ 1 % 2 ^ 1) := rfl
  rw [hr, h2, Nat.testBit_and, Nat.testBit_two_pow_mul, Nat.testBit_two_pow_mul,
    Nat.testBit_mod_two_pow, Nat.testBit_div_two_pow]
  by_cases hi : i = 1
  · subst hi
    simp
  · by_cases hi0 : i = 0
    · simp [hi0]
    · have h1 : Nat.testBit 1 (i - 1) = false := by
        apply Nat.testBit_lt_two_pow
        exact Nat.one_lt_two_pow (by omega)
      simp [h1, show ¬ i - 1 < 1 by omega]

theorem or_prevalloc {w : Nat} : w ||| prevalloc = w - 2 * (w / 2 % 2) + 2 := by
  have hs : w = 2 ^ 2 * (w / 4) + w % 4 := by omega
  have hlow : w % 4 ||| 2 = 2 + w % 2 := by
    have : w % 4 < 4 := Nat.mod_lt _ (by omega)
    have h2 : w % 2 = w % 4 % 2 := by omega
    rw [h2]
    generalize w % 4 = r at this
    interval_cases r <;> rfl
  have hor : (2 ^ 2 * (w / 4) + w % 4) ||| 2 = 2 ^ 2 * (w / 4) + (2 + w % 2) := by
    rw [Nat.two_pow_add_eq_or_of_lt (by omega), Nat.or_assoc, hlow,
      ← Nat.two_pow_add_eq_or_of_lt (by omega)]
  rw [prevalloc]
  calc w ||| 2 = (2 ^ 2 * (w / 4) + w % 4) ||| 2 := by rw [← hs]
    _ = 2 ^ 2 * (w / 4) + (2 + w % 2) := hor
    _ = w - 2 * (w / 2 % 2) + 2 := by omega

def Block.word (b : Block) : Nat := b.size + (b.alloc.toNat + 2 * b.prevAlloc.toNat)

/-- The epilogue word; `e` is its `PREVALLOC` flag. -/
def epilogueWord (e : Bool) : Nat := epilogueSize + (1 + 2 * e.toNat)

namespace Block

variable {b : Block}

theorem word_lt (h : b.size + 4 ≤ 2 ^ 32) : b.word < 2 ^ 32 := by
  have := b.alloc.toNat_le
  have := b.prevAlloc.toNat_le
  simp only [word]
  omega

theorem sizeField_word (h : b.size + 4 ≤ 2 ^ 32) : sizeField b.word = b.size := by
  have := b.alloc.toNat_le
  have := b.prevAlloc.toNat_le
  have := b.size_dvd
  rw [sizeField_eq (word_lt h), word]
  omega

theorem word_and_thisalloc : b.word &&& thisalloc = b.alloc.toNat := by
  have := b.alloc.toNat_le
  have := b.size_dvd
  rw [and_thisalloc, word]
  omega

theorem word_and_prevalloc : b.word &&& prevalloc = 2 * b.prevAlloc.toNat := by
  have := b.alloc.toNat_le
  have := b.prevAlloc.toNat_le
  have := b.size_dvd
  rw [and_prevalloc, word]
  omega

theorem word_or_prevalloc : b.word ||| prevalloc = { b with prevAlloc := true }.word := by
  have := b.alloc.toNat_le
  have := b.prevAlloc.toNat_le
  have := b.size_dvd
  rw [or_prevalloc]
  simp only [word, Bool.toNat_true]
  omega

theorem pack_free (hb : b.alloc = false) : pack b.size (2 * b.prevAlloc.toNat) = b.word := by
  have := b.prevAlloc.toNat_le
  have := b.size_dvd
  rw [pack_eq (by omega) (by omega), word, hb]
  simp

theorem pack_alloc (hb : b.alloc = true) :
    pack b.size (thisalloc ||| 2 * b.prevAlloc.toNat) = b.word := by
  have := b.size_dvd
  have hf : thisalloc ||| 2 * b.prevAlloc.toNat = 1 + 2 * b.prevAlloc.toNat := by
    cases b.prevAlloc <;> rfl
  have := b.prevAlloc.toNat_le
  rw [hf, pack_eq (by omega) (by omega), word, hb]
  simp

end Block

theorem epilogueWord_and_thisalloc (e : Bool) : epilogueWord e &&& thisalloc = 1 := by
  cases e <;> rfl

theorem epilogueWord_and_prevalloc (e : Bool) : epilogueWord e &&& prevalloc = 2 * e.toNat := by
  cases e <;> rfl

theorem epilogueWord_or_prevalloc (e : Bool) : epilogueWord e ||| prevalloc = epilogueWord true := by
  cases e <;> rfl

/-- Up to the last few values of `size_t` the rounding of a request is exact. -/
theorem adjustBytesize_eq {n : Nat} (h : n ≤ 2 ^ 32 - 12) : adjustBytesize n = fitSize n := by
  have hw : wadd n 3 = n + 3 := wadd_eq (by omega)
  have hc : adjustWordcount ((n + 3) / wsize) =
      if (n + 3) / 4 < 3 then 3 else (n + 3) / 4 + (1 - (n + 3) / 4 % 2) := by
    have hx : ∀ k : Nat, (k % 2) ^^^ 1 = 1 - k % 2 := by
      intro k
      rcases Nat.mod_two_eq_zero_or_one k with h | h <;> rw [h] <;> rfl
    simp only [adjustWordcount, wsize, hx]
    rw [wadd_eq (by omega)]
  have ha : ∀ k, k + 7 < 2 ^ 32 → align k = 8 * ((k + 7) / 8) := by
    intro k hk
    rw [align, wadd_eq hk]
    exact and_mask (k := 3) hk (by omega)
  rw [adjustBytesize, hw, hc]
  simp only [fitSize, wsize]
  split
  · rw [Nat.mod_eq_of_lt (by omega), ha _ (by omega)]
    omega
  · rw [Nat.mod_eq_of_lt (by omega), ha _ (by omega)]
    omega

section Header

variable {s : State} {p : Nat} {b : Block}

theorem getBlockhdr_eq (hp : 4 ≤ p) (hlt : p < 2 ^ 32) : State.getBlockhdr p = p - 4 := by
  rw [State.getBlockhdr, wsize, wsub_eq hp hlt]

section Wrapping

variable (hlt : b.size + 4 ≤ 2 ^ 32) (hw : getw s.mem (State.getBlockhdr p) = b.word)

include hw

theorem getPrevalloc_of_header : s.getPrevalloc p = 2 * b.prevAlloc.toNat := by
  rw [State.getPrevalloc, State.getw, hw, Block.word_and_prevalloc]

include hlt

theorem getThissize_of_header : s.getThissize p = b.size := by
  rw [State.getThissize, State.getSize, State.getw, hw, Block.sizeField_word hlt]

theorem getNextblock_of_header : s.getNextblock p = wadd p b.size := by
  have h := getThissize_of_header hlt hw
  rw [State.getThissize, State.getBlockhdr] at h
  rw [State.getNextblock, h]

theorem getBlockftr_of_header : s.getBlockftr p = wsub (wadd p b.size) 8 := by
  have h := getThissize_of_header hlt hw
  rw [State.getThissize] at h
  rw [State.getBlockftr, h, dsize]

theorem getNextalloc_of_header :
    s.getNextalloc p = getw s.mem (State.getBlockhdr (wadd p b.size)) &&& thisalloc := by
  rw [State.getNextalloc, getNextblock_of_header hlt hw, State.getAlloc, State.getw]

end Wrapping

variable (hp : 4 ≤ p) (hlt : p + b.size ≤ 2 ^ 32) (hw : getw s.mem (p - 4) = b.word)

include hp hlt hw

theorem header_eq : getw s.mem (State.getBlockhdr p) = b.word := by
  have := b.size_ge
  rw [getBlockhdr_eq hp (by omega), hw]

theorem getThissize_eq : s.getThissize p = b.size :=
  getThissize_of_header (by omega) (header_eq hp hlt hw)

theorem getThisalloc_eq : s.getThisalloc p = b.alloc.toNat := by
  rw [State.getThisalloc, State.getAlloc, State.getw, header_eq hp hlt hw,
    Block.word_and_thisalloc]

theorem getPrevalloc_eq : s.getPrevalloc p = 2 * b.prevAlloc.toNat :=
  getPrevalloc_of_header (header_eq hp hlt hw)

theorem getBlockftr_eq : s.getBlockftr p = p + b.size - 8 := by
  have := b.size_ge
  rw [getBlockftr_of_header (by omega) (header_eq hp hlt hw)]
  simp only [wadd, wsub]
  omega

/-- A block that ends at the end of the address space has its successor's
header there too. -/
theorem getNextalloc_eq : s.getNextalloc p = getw s.mem (p + b.size - 4) &&& thisalloc := by
  have := b.size_ge
  have hh : State.getBlockhdr (wadd p b.size) = p + b.size - 4 := by
    simp only [State.getBlockhdr, wsize, wadd, wsub]
    omega
  rw [getNextalloc_of_header (by omega) (header_eq hp hlt hw), hh]

end Header

theorem getNextblock_eq {s : State} {p : Nat} {b : Block} (hp : 4 ≤ p) (hlt : p + b.size < 2 ^ 32)
    (hw : getw s.mem (p - 4) = b.word) : s.getNextblock p = p + b.size := by
  rw [getNextblock_of_header (by omega) (header_eq hp hlt.le hw), wadd_eq hlt]

theorem getPrevblock_eq {s : State} {p n : Nat} (hp : 8 ≤ p) (hlt : p < 2 ^ 32)
    (hw : sizeField (getw s.mem (p - 8)) = n) (hn : n ≤ p) : s.getPrevblock p = p - n := by
  rw [State.getPrevblock, State.getSize, State.getw, dsize, wsub_eq hp hlt, hw, wsub_eq hn hlt]

end CsoMalloc
