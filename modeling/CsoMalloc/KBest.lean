import Mathlib

/-! The `k` least entries of a list, and insertion into a sorted stretch of an array. -/

namespace KBest

section Stretch

variable {α : Type*} {values : Nat → α}

/-- The first `n` entries of an array. -/
def stretch (values : Nat → α) (n : Nat) : List α := (List.range n).map values

theorem stretch_succ (values : Nat → α) (n : Nat) :
    stretch values (n + 1) = stretch values n ++ [values n] := by
  rw [stretch, List.range_succ, List.map_append]
  rfl

theorem stretch_congr {values' : Nat → α} {n : Nat} (h : ∀ i < n, values i = values' i) :
    stretch values n = stretch values' n :=
  List.map_congr_left fun i hi => h i (List.mem_range.mp hi)

theorem stretch_update {n pos : Nat} (v : α) (h : n ≤ pos) :
    stretch (Function.update values pos v) n = stretch values n :=
  stretch_congr fun i hi => Function.update_of_ne (by omega) v values

end Stretch

variable {α : Type*} [LinearOrder α]

/-- The `k` least entries in increasing order, all of them if there are fewer. -/
def lowest (k : Nat) (xs : List α) : List α := (xs.insertionSort (· ≤ ·)).take k

theorem insertionSort_eq {xs ys : List α} (h : ys.Perm xs) (hs : ys.Pairwise (· ≤ ·)) :
    xs.insertionSort (· ≤ ·) = ys := by
  refine List.Perm.eq_of_pairwise (fun _ _ _ _ => le_antisymm)
    (List.pairwise_insertionSort (· ≤ ·) xs) hs ?_
  exact (List.perm_insertionSort (· ≤ ·) xs).trans h.symm

theorem lowest_eq {xs as bs : List α} (h : (as ++ bs).Perm xs) (hs : (as ++ bs).Pairwise (· ≤ ·)) :
    lowest as.length xs = as := by
  rw [lowest, insertionSort_eq h hs, List.take_left']
  rfl

theorem exists_split (k : Nat) (xs : List α) :
    ∃ bs, (lowest k xs ++ bs).Perm xs ∧ (lowest k xs ++ bs).Pairwise (· ≤ ·) := by
  refine ⟨(xs.insertionSort (· ≤ ·)).drop k, ?_, ?_⟩
  · rw [lowest, List.take_append_drop]
    exact List.perm_insertionSort (· ≤ ·) xs
  · rw [lowest, List.take_append_drop]
    exact List.pairwise_insertionSort (· ≤ ·) xs

theorem length_lowest (k : Nat) (xs : List α) : (lowest k xs).length = min k xs.length := by
  rw [lowest, List.length_take, List.length_insertionSort]

section Snoc

variable {k : Nat} {xs ys as : List α} {v m : α}

theorem lowest_snoc_of_lt (hk : xs.length < k) (hs : ys.Pairwise (· ≤ ·))
    (hp : ys.Perm (lowest k xs ++ [v])) : lowest k (xs ++ [v]) = ys := by
  have hall : (lowest k xs).Perm xs := by
    rw [lowest, List.take_of_length_le (by rw [List.length_insertionSort]; omega)]
    exact List.perm_insertionSort (· ≤ ·) xs
  have hperm : ys.Perm (xs ++ [v]) := hp.trans (hall.append_right [v])
  have hlen : ys.length ≤ k := by
    rw [hperm.length_eq, List.length_append, List.length_singleton]
    omega
  rw [lowest, insertionSort_eq hperm hs, List.take_of_length_le hlen]

theorem lowest_snoc_replace (hk : (lowest k xs).length = k) (hl : lowest k xs = as ++ [m]) (hv : v < m)
    (hs : ys.Pairwise (· ≤ ·)) (hp : ys.Perm (as ++ [v])) : lowest k (xs ++ [v]) = ys := by
  obtain ⟨bs, hperm, hsorted⟩ := exists_split k xs
  rw [hl, List.append_assoc, List.singleton_append] at hperm hsorted
  obtain ⟨_, hrest, hle⟩ := List.pairwise_append.mp hsorted
  have hlen : ys.length = k := by
    rw [hl] at hk
    rw [hp.length_eq, ← hk, List.length_append, List.length_append]
    rfl
  have hperm' : (ys ++ m :: bs).Perm (xs ++ [v]) := by
    refine (hp.append_right (m :: bs)).trans ?_
    rw [List.append_assoc]
    refine (List.perm_append_comm.append_left as).trans ?_
    rw [← List.append_assoc]
    exact hperm.append_right [v]
  have hsorted' : (ys ++ m :: bs).Pairwise (· ≤ ·) := by
    refine List.pairwise_append.mpr ⟨hs, hrest, fun y hy b hb => ?_⟩
    rcases List.mem_append.mp (hp.mem_iff.mp hy) with hy | hy
    · exact hle y hy b hb
    · rw [List.mem_singleton.mp hy]
      rcases List.mem_cons.mp hb with rfl | hb
      · exact hv.le
      · exact hv.le.trans (List.rel_of_pairwise_cons hrest hb)
  exact hlen ▸ lowest_eq hperm' hsorted'

theorem lowest_snoc_of_le (hk : (lowest k xs).length = k) (hl : lowest k xs = as ++ [m])
    (hv : m ≤ v) : lowest k (xs ++ [v]) = lowest k xs := by
  obtain ⟨bs, hperm, hsorted⟩ := exists_split k xs
  obtain ⟨hfirst, hrest, hle⟩ := List.pairwise_append.mp hsorted
  have hperm' : (lowest k xs ++ bs.orderedInsert (· ≤ ·) v).Perm (xs ++ [v]) := by
    refine ((List.perm_orderedInsert (· ≤ ·) v bs).append_left _).trans ?_
    refine List.perm_middle.trans ((hperm.cons v).trans ?_)
    exact (List.perm_append_singleton v xs).symm
  have hsorted' : (lowest k xs ++ bs.orderedInsert (· ≤ ·) v).Pairwise (· ≤ ·) := by
    refine List.pairwise_append.mpr ⟨hfirst, hrest.orderedInsert v bs, fun y hy b hb => ?_⟩
    rcases (List.mem_orderedInsert (· ≤ ·)).mp hb with rfl | hb
    · rw [hl] at hy hfirst
      rcases List.mem_append.mp hy with hy | hy
      · exact ((List.pairwise_append.mp hfirst).2.2 y hy m List.mem_cons_self).trans hv
      · exact (List.mem_singleton.mp hy).le.trans hv
    · exact hle y hy b hb
  have heq := lowest_eq hperm' hsorted'
  rwa [hk] at heq

end Snoc

section Arrays

/-- Move the entry at a position down to where the ones before it are not greater. -/
def sift (values : Nat → α) : Nat → Nat → α
  | 0 => values
  | pos + 1 =>
    if values pos > values (pos + 1) then
      sift (Function.update (Function.update values pos (values (pos + 1))) (pos + 1) (values pos)) pos
    else values

variable {values : Nat → α}

theorem sift_of_gt {pos i : Nat} (h : pos < i) : sift values pos i = values i := by
  induction pos generalizing values with
  | zero => rfl
  | succ pos ih =>
    rw [sift]
    split
    · rw [ih (by omega), Function.update_of_ne (by omega), Function.update_of_ne (by omega)]
    · rfl

/-- Sifting a position behind a sorted stretch leaves a sorted stretch with the
same entries. -/
theorem stretch_sift {pos : Nat} (h : (stretch values pos).Pairwise (· ≤ ·)) :
    (stretch (sift values pos) (pos + 1)).Pairwise (· ≤ ·) ∧
      (stretch (sift values pos) (pos + 1)).Perm (stretch values pos ++ [values pos]) := by
  induction pos generalizing values with
  | zero => simp [stretch, sift]
  | succ pos ih =>
    rw [stretch_succ] at h
    obtain ⟨hfirst, _, hle⟩ := List.pairwise_append.mp h
    rw [sift]
    split
    · next hgt =>
      -- the entry above moves up and is a bound for the rest
      have hsame : stretch (Function.update (Function.update values pos (values (pos + 1))) (pos + 1)
          (values pos)) pos = stretch values pos := by
        rw [stretch_update _ (by omega), stretch_update _ le_rfl]
      have hpos : Function.update (Function.update values pos (values (pos + 1))) (pos + 1)
          (values pos) pos = values (pos + 1) := by
        rw [Function.update_of_ne (by omega), Function.update_self]
      obtain ⟨hsorted, hperm⟩ := ih (hsame.symm ▸ hfirst)
      rw [hsame, hpos] at hperm
      rw [stretch_succ, sift_of_gt (by omega), Function.update_self]
      constructor
      · refine List.pairwise_append.mpr ⟨hsorted, List.pairwise_singleton _ _, fun y hy b hb => ?_⟩
        rw [List.mem_singleton.mp hb]
        rcases List.mem_append.mp (hperm.mem_iff.mp hy) with hy | hy
        · exact hle y hy _ List.mem_cons_self
        · exact (List.mem_singleton.mp hy).le.trans hgt.le
      · rw [stretch_succ values]
        refine (hperm.append_right _).trans ?_
        rw [List.append_assoc, List.append_assoc]
        exact List.perm_append_comm.append_left _
    · next hgt =>
      rw [stretch_succ, stretch_succ]
      refine ⟨List.pairwise_append.mpr ⟨h, List.pairwise_singleton _ _, fun y hy b hb => ?_⟩, .refl _⟩
      rw [List.mem_singleton.mp hb]
      rcases List.mem_append.mp hy with hy | hy
      · exact (hle y hy _ List.mem_cons_self).trans (not_lt.mp hgt)
      · exact (List.mem_singleton.mp hy).le.trans (not_lt.mp hgt)

end Arrays

end KBest
