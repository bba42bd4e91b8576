import Mathlib

/-! Consecutive tiles of given lengths. Each tile is found at the offset where
the tiles before it end, so two tiles never overlap. -/

namespace Tiling

variable {β : Type*} (len : β → Nat)

def extent (bs : List β) : Nat := (bs.map len).sum

/-- Every tile with the offset it starts at. -/
def placed : Nat → List β → List (Nat × β)
  | _, [] => []
  | o, b :: bs => (o, b) :: placed (o + len b) bs

/-- Walk to the tile that starts at `target`; the tiles passed on the way are
returned nearest first. -/
def seek (target : Nat) : Nat → List β → List β → Option (List β × β × List β)
  | _, _, [] => none
  | o, before, b :: bs =>
    if o = target then some (before, b, bs) else seek target (o + len b) (b :: before) bs

@[simp] theorem extent_nil : extent len [] = 0 := rfl

@[simp] theorem extent_cons (b : β) (bs : List β) : extent len (b :: bs) = len b + extent len bs := by
  simp [extent]

@[simp] theorem extent_append (xs ys : List β) :
    extent len (xs ++ ys) = extent len xs + extent len ys := by
  simp [extent]

@[simp] theorem extent_reverse (xs : List β) : extent len xs.reverse = extent len xs := by
  simp [extent, List.sum_reverse]

@[simp] theorem placed_nil (o : Nat) : placed len o [] = [] := rfl

@[simp] theorem placed_cons (o : Nat) (b : β) (bs : List β) :
    placed len o (b :: bs) = (o, b) :: placed len (o + len b) bs := rfl

@[simp] theorem placed_append (o : Nat) (xs ys : List β) :
    placed len o (xs ++ ys) = placed len o xs ++ placed len (o + extent len xs) ys := by
  induction xs generalizing o with
  | nil => simp
  | cons x xs ih => simp [ih, Nat.add_assoc]

variable {len}

theorem placed_bounds {o p : Nat} {b : β} {bs : List β} (h : (p, b) ∈ placed len o bs) :
    o ≤ p ∧ p + len b ≤ o + extent len bs := by
  induction bs generalizing o with
  | nil => simp at h
  | cons c bs ih =>
    rw [placed_cons, List.mem_cons] at h
    rw [extent_cons]
    rcases h with h | h
    · obtain ⟨rfl, rfl⟩ := Prod.mk.inj h
      omega
    · have := ih h
      omega

theorem placed_shift {k o p : Nat} {b : β} {bs : List β} :
    (k + p, b) ∈ placed len (k + o) bs ↔ (p, b) ∈ placed len o bs := by
  induction bs generalizing o with
  | nil => simp
  | cons c bs ih =>
    simp only [placed_cons, List.mem_cons, Prod.mk.injEq, Nat.add_assoc, ih]
    constructor <;> rintro (⟨h, h'⟩ | h)
    · exact .inl ⟨by omega, h'⟩
    · exact .inr h
    · exact .inl ⟨by omega, h'⟩
    · exact .inr h

theorem placed_split {o p : Nat} {b : β} {bs : List β} (h : (p, b) ∈ placed len o bs) :
    ∃ pre post, bs = pre ++ b :: post ∧ p = o + extent len pre := by
  induction bs generalizing o with
  | nil => simp at h
  | cons c bs ih =>
    rw [placed_cons, List.mem_cons] at h
    rcases h with h | h
    · obtain ⟨rfl, rfl⟩ := Prod.mk.inj h
      exact ⟨[], bs, rfl, rfl⟩
    · obtain ⟨pre, post, rfl, rfl⟩ := ih h
      exact ⟨c :: pre, post, rfl, by rw [extent_cons]; omega⟩

theorem placed_separated {o p q : Nat} {b c : β} {bs : List β} (hp : (p, b) ∈ placed len o bs)
    (hq : (q, c) ∈ placed len o bs) : (p, b) = (q, c) ∨ p + len b ≤ q ∨ q + len c ≤ p := by
  induction bs generalizing o with
  | nil => simp at hp
  | cons d bs ih =>
    rw [placed_cons, List.mem_cons] at hp hq
    rcases hp with hp | hp <;> rcases hq with hq | hq
    · exact .inl (hp.trans hq.symm)
    · obtain ⟨rfl, rfl⟩ := Prod.mk.inj hp
      exact .inr (.inl (placed_bounds hq).1)
    · obtain ⟨rfl, rfl⟩ := Prod.mk.inj hq
      exact .inr (.inr (placed_bounds hp).1)
    · exact ih hp hq

theorem placed_starts {o p q : Nat} {b c : β} {bs : List β} (hp : (p, b) ∈ placed len o bs)
    (hq : (q, c) ∈ placed len o bs) : p = q ∨ p + len b ≤ q ∨ q + len c ≤ p :=
  (placed_separated hp hq).imp_left fun h => (Prod.mk.inj h).1

theorem placed_sorted {o : Nat} {bs : List β} (hpos : ∀ b ∈ bs, 0 < len b) :
    ((placed len o bs).map Prod.fst).Pairwise (· < ·) := by
  induction bs generalizing o with
  | nil => simp
  | cons b bs ih =>
    rw [placed_cons, List.map_cons, List.pairwise_cons]
    refine ⟨fun p hp => ?_, ih fun c hc => hpos c (by simp [hc])⟩
    obtain ⟨⟨_, c⟩, hc, rfl⟩ := List.mem_map.mp hp
    have := (placed_bounds hc).1
    have := hpos b (by simp)
    simp only
    omega

theorem seek_append {pre post before : List β} {b : β} (o : Nat) (hpos : ∀ c ∈ pre, 0 < len c) :
    seek len (o + extent len pre) o before (pre ++ b :: post) =
      some (pre.reverse ++ before, b, post) := by
  induction pre generalizing o before with
  | nil => simp [seek]
  | cons c pre ih =>
    have hc : o ≠ o + extent len (c :: pre) := by
      have := hpos c (by simp)
      rw [extent_cons]
      omega
    have hh : seek len (o + len c + extent len pre) (o + len c) (c :: before) (pre ++ b :: post) =
        some (pre.reverse ++ c :: before, b, post) :=
      ih (o + len c) fun d hd => hpos d (by simp [hd])
    rw [List.cons_append, seek, if_neg hc, extent_cons, ← Nat.add_assoc, hh]
    simp

end Tiling
