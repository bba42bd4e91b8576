import Mathlib

/-! A byte-addressed memory with little-endian 32-bit words. Reads and writes
are total; a caller that computes addresses modulo `2 ^ 32` wraps them itself. -/

namespace ByteMemory

abbrev Mem := Nat → UInt8

def getw (m : Mem) (a : Nat) : Nat :=
  (m a).toNat + 2 ^ 8 * (m (a + 1)).toNat + 2 ^ 16 * (m (a + 2)).toNat +
    2 ^ 24 * (m (a + 3)).toNat

/-- Replace the `n` bytes from `a` on by the bytes of `f`. -/
def overlay (m : Mem) (a n : Nat) (f : Nat → UInt8) : Mem :=
  fun x => if a ≤ x ∧ x < a + n then f (x - a) else m x

/-- Byte `i` of a 32-bit word, least significant first. -/
def byteOf (v i : Nat) : UInt8 := UInt8.ofNat (v / 2 ^ (8 * i))

def putw (m : Mem) (a v : Nat) : Mem := overlay m a 4 (byteOf v)

def memset (m : Mem) (p : Nat) (c : UInt8) (n : Nat) : Mem := overlay m p n (fun _ => c)

def memcpy (m : Mem) (dst src n : Nat) : Mem := overlay m dst n (fun i => m (src + i))

theorem overlay_in {m : Mem} {a n x : Nat} {f : Nat → UInt8} (h : a ≤ x) (h' : x < a + n) :
    overlay m a n f x = f (x - a) := by
  simp [overlay, h, h']

theorem overlay_out {m : Mem} {a n x : Nat} {f : Nat → UInt8} (h : x < a ∨ a + n ≤ x) :
    overlay m a n f x = m x := by
  have hx : ¬ (a ≤ x ∧ x < a + n) := by omega
  simp [overlay, hx]

theorem putw_out {m : Mem} {a v x : Nat} (h : x < a ∨ a + 4 ≤ x) : putw m a v x = m x :=
  overlay_out h

theorem getw_lt (m : Mem) (a : Nat) : getw m a < 2 ^ 32 := by
  have h0 := (m a).toNat_lt
  have h1 := (m (a + 1)).toNat_lt
  have h2 := (m (a + 2)).toNat_lt
  have h3 := (m (a + 3)).toNat_lt
  simp only [getw]
  omega

theorem getw_congr {m m' : Mem} {a : Nat} (h : ∀ x, a ≤ x → x < a + 4 → m' x = m x) :
    getw m' a = getw m a := by
  simp only [getw, h a (by omega) (by omega), h (a + 1) (by omega) (by omega),
    h (a + 2) (by omega) (by omega), h (a + 3) (by omega) (by omega)]

theorem getw_overlay_ne {m : Mem} {a n b : Nat} {f : Nat → UInt8}
    (h : b + 4 ≤ a ∨ a + n ≤ b) : getw (overlay m a n f) b = getw m b :=
  getw_congr fun _ _ _ => overlay_out (by omega)

theorem getw_putw_ne {m : Mem} {a b v : Nat} (h : b + 4 ≤ a ∨ a + 4 ≤ b) :
    getw (putw m a v) b = getw m b :=
  getw_overlay_ne h

theorem getw_putw {m : Mem} {a v : Nat} (h : v < 2 ^ 32) : getw (putw m a v) a = v := by
  have hb : ∀ i, i < 4 → putw m a v (a + i) = byteOf v i := fun i hi => by
    rw [putw, overlay_in (by omega) (by omega), Nat.add_sub_cancel_left]
  have h0 := hb 0 (by omega)
  rw [Nat.add_zero] at h0
  simp only [getw, h0, hb 1 (by omega), hb 2 (by omega), hb 3 (by omega), byteOf,
    UInt8.toNat_ofNat']
  omega

theorem putw_getw (m : Mem) (a : Nat) : putw m a (getw m a) = m := by
  funext x
  by_cases hx : a ≤ x ∧ x < a + 4
  · have h0 := (m a).toNat_lt
    have h1 := (m (a + 1)).toNat_lt
    have h2 := (m (a + 2)).toNat_lt
    have h3 := (m (a + 3)).toNat_lt
    rw [putw, overlay_in hx.1 hx.2]
    apply UInt8.toNat_inj.mp
    obtain rfl | rfl | rfl | rfl : x = a ∨ x = a + 1 ∨ x = a + 2 ∨ x = a + 3 := by omega
    all_goals
      simp only [byteOf, UInt8.toNat_ofNat', getw, Nat.add_sub_cancel_left, Nat.sub_self]
      omega
  · exact putw_out (by omega)

theorem putw_comm {m : Mem} {a b v w : Nat} (h : b + 4 ≤ a ∨ a + 4 ≤ b) :
    putw (putw m a v) b w = putw (putw m b w) a v := by
  funext x
  by_cases ha : a ≤ x ∧ x < a + 4
  · rw [putw_out (by omega), putw, putw, overlay_in ha.1 ha.2, overlay_in ha.1 ha.2]
  · rw [putw_out (a := a) (by omega)]
    by_cases hb : b ≤ x ∧ x < b + 4
    · rw [putw, overlay_in hb.1 hb.2, putw, overlay_in hb.1 hb.2]
    · rw [putw_out (by omega), putw_out (by omega), putw_out (by omega)]

/-- The two memories differ at most from `lo` up to `hi`. -/
def SameOutside (lo hi : Nat) (m m' : Mem) : Prop := ∀ a, a < lo ∨ hi ≤ a → m' a = m a

namespace SameOutside

variable {lo hi : Nat} {m t m' : Mem}

theorem refl (lo hi : Nat) (m : Mem) : SameOutside lo hi m m := fun _ _ => rfl

theorem trans (h : SameOutside lo hi m t) (h' : SameOutside lo hi t m') : SameOutside lo hi m m' :=
  fun a ha => (h' a ha).trans (h a ha)

theorem mono {lo' hi' : Nat} (h : SameOutside lo hi m m') (hl : lo' ≤ lo) (hh : hi ≤ hi') :
    SameOutside lo' hi' m m' :=
  fun a ha => h a (by omega)

theorem overlay {a n : Nat} {f : Nat → UInt8} (ha : lo ≤ a) (hn : a + n ≤ hi) :
    SameOutside lo hi m (overlay m a n f) :=
  fun _ _ => overlay_out (by omega)

theorem putw {a v : Nat} (ha : lo ≤ a) (hn : a + 4 ≤ hi) : SameOutside lo hi m (putw m a v) :=
  overlay ha hn

end SameOutside

end ByteMemory
