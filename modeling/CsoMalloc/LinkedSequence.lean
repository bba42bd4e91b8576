import Mathlib

/-! Null-terminated doubly linked lists, given only by their link functions.
A list represents a sequence when reading its links spells the sequence out. -/

namespace LinkedSequence

variable {α : Type*} {next prev next' prev' : α → α} {null head head' : α}

/-- The head and then the forward link of every node spell `xs` and the
terminator; the backward link of every node is its predecessor, or the
terminator for the first node. -/
structure Linked (next prev : α → α) (null head : α) (xs : List α) : Prop where
  nodup : xs.Nodup
  null_notMem : null ∉ xs
  forward : head :: xs.map next = xs ++ [null]
  backward : xs.map prev = (null :: xs).dropLast

theorem Linked.nil (next prev : α → α) (null : α) : Linked next prev null null [] :=
  ⟨List.nodup_nil, List.not_mem_nil, rfl, rfl⟩

theorem Linked.congr {xs : List α} (h : Linked next prev null head xs)
    (hn : ∀ x ∈ xs, next' x = next x) (hp : ∀ x ∈ xs, prev' x = prev x) :
    Linked next' prev' null head xs := by
  refine ⟨h.nodup, h.null_notMem, ?_, ?_⟩
  · rw [List.map_congr_left hn]
    exact h.forward
  · rw [List.map_congr_left hp]
    exact h.backward

theorem Linked.head_eq {xs : List α} (h : Linked next prev null head xs) :
    head = xs.head?.getD null := by
  have hf := h.forward
  cases xs with
  | nil => simpa using hf
  | cons x xs => simpa using (List.cons.inj hf).1

theorem Linked.head_mem {xs : List α} (h : Linked next prev null head xs) (hne : head ≠ null) :
    head ∈ xs := by
  have hh := h.head_eq
  cases xs with
  | nil => exact absurd (by simpa using hh) hne
  | cons x xs => simp [hh]

theorem Linked.head_ne {xs : List α} {x : α} (h : Linked next prev null head xs) (hx : x ∈ xs) :
    head ≠ null := by
  cases xs with
  | nil => exact absurd hx List.not_mem_nil
  | cons y xs =>
    have hh : head = y := by simpa using h.head_eq
    intro h0
    exact h.null_notMem (by rw [← h0, hh]; exact List.mem_cons_self)

theorem Linked.forward_split {l r : List α} {x : α}
    (h : Linked next prev null head (l ++ x :: r)) :
    head :: l.map next = l ++ [x] ∧ next x :: r.map next = r ++ [null] := by
  have hf := h.forward
  have hs : (head :: l.map next) ++ (next x :: r.map next) = (l ++ [x]) ++ (r ++ [null]) := by
    simpa using hf
  exact List.append_inj hs (by simp)

theorem Linked.backward_split {l r : List α} {x : α}
    (h : Linked next prev null head (l ++ x :: r)) :
    l.map prev ++ [prev x] = null :: l ∧ r.map prev = (x :: r).dropLast := by
  have hb := h.backward
  have hd : (null :: (l ++ x :: r)).dropLast = (null :: l) ++ (x :: r).dropLast := by
    rw [← List.cons_append, List.dropLast_append_of_ne_nil (by simp)]
  have hs : (l.map prev ++ [prev x]) ++ r.map prev = (null :: l) ++ (x :: r).dropLast := by
    rw [← hd, ← hb]
    simp
  exact List.append_inj hs (by simp)

theorem Linked.next_eq {l r : List α} {x : α} (h : Linked next prev null head (l ++ x :: r)) :
    next x = r.head?.getD null := by
  have hf := h.forward_split.2
  cases r with
  | nil => simpa using hf
  | cons y r => simpa using (List.cons.inj hf).1

theorem Linked.prev_eq {l r : List α} {x : α} (h : Linked next prev null head (l ++ x :: r)) :
    prev x = l.getLast?.getD null := by
  have hb := congrArg List.getLast? h.backward_split.1
  cases l using List.reverseRecOn with
  | nil => simpa using hb
  | append_singleton l a =>
    rw [← List.cons_append, List.getLast?_concat, List.getLast?_concat] at hb
    simpa using hb

section Unlink

variable {l r : List α} {x : α}

theorem Linked.next_mem (h : Linked next prev null head (l ++ x :: r)) (hx : next x ≠ null) :
    next x ∈ r.head? := by
  have hxn := h.next_eq
  cases r with
  | nil => exact absurd hxn hx
  | cons b r => simpa using hxn.symm

theorem Linked.prev_mem (h : Linked next prev null head (l ++ x :: r)) (hx : prev x ≠ null) :
    prev x ∈ l.getLast? := by
  have hxp := h.prev_eq
  cases l using List.reverseRecOn with
  | nil => exact absurd hxp hx
  | append_singleton l a => simpa using hxp.symm

theorem Linked.prev_notMem (h : Linked next prev null head (l ++ x :: r)) : prev x ∉ r := by
  have hxp := h.prev_eq
  have hnull := h.null_notMem
  intro hy
  cases l using List.reverseRecOn with
  | nil =>
    have hx : prev x = null := by simpa using hxp
    exact hnull (hx ▸ by simp [hy])
  | append_singleton l a =>
    rw [hxp] at hy
    exact (List.disjoint_of_nodup_append h.nodup) (a := a) (by simp)
      (List.mem_cons_of_mem x (by simpa using hy))

theorem Linked.next_notMem (h : Linked next prev null head (l ++ x :: r)) : next x ∉ l := by
  have hxn := h.next_eq
  have hnull := h.null_notMem
  intro hy
  cases r with
  | nil =>
    have hx : next x = null := by simpa using hxn
    exact hnull (hx ▸ by simp [hy])
  | cons b r =>
    rw [hxn] at hy
    exact (List.disjoint_of_nodup_append h.nodup) hy (by simp)

variable [DecidableEq α]

theorem Linked.unlink_forward (h : Linked next prev null head (l ++ x :: r))
    (hhead : head' = if head = x then next x else head)
    (hnext : ∀ y ∈ l ++ r, next' y = if y = prev x then next x else next y) :
    head' :: (l ++ r).map next' = (l ++ r) ++ [null] := by
  have hnd := h.nodup
  obtain ⟨hf, hf'⟩ := h.forward_split
  have hrest : r.map next' = r.map next := by
    refine List.map_congr_left fun y hy => ?_
    rw [hnext y (by simp [hy]), if_neg]
    rintro rfl
    exact h.prev_notMem hy
  cases l using List.reverseRecOn with
  | nil =>
    have hx : head = x := by simpa using hf
    simpa [hhead, hx, hrest] using hf'
  | append_singleton l a =>
    have hxp : prev x = a := by simpa using h.prev_eq
    have hs : head :: l.map next = l ++ [a] := by
      have hs' : (head :: l.map next) ++ [next a] = (l ++ [a]) ++ [x] := by simpa using hf
      exact (List.append_inj hs' (by simp)).1
    have hh : head ≠ x := by
      intro he
      have hm : head ∈ l ++ [a] := hs ▸ List.mem_cons_self
      exact (List.disjoint_of_nodup_append hnd) hm (by simp [he])
    have ha : next' a = next x := by rw [hnext a (by simp), if_pos hxp.symm]
    have hl : l.map next' = l.map next := by
      refine List.map_congr_left fun y hy => ?_
      rw [hnext y (by simp [hy]), if_neg]
      rintro rfl
      rw [hxp] at hy
      have hd := List.disjoint_of_nodup_append (hnd.sublist (List.sublist_append_left _ _))
      exact hd hy (by simp)
    rw [hhead, if_neg hh]
    simp only [List.map_append, List.map_cons, hl, ha, hrest, List.append_assoc,
      List.cons_append, List.nil_append]
    rw [← List.cons_append, hs, hf']
    simp

theorem Linked.unlink_backward (h : Linked next prev null head (l ++ x :: r))
    (hprev : ∀ y ∈ l ++ r, prev' y = if y = next x then prev x else prev y) :
    (l ++ r).map prev' = (null :: (l ++ r)).dropLast := by
  have hnd := h.nodup
  obtain ⟨hb, hb'⟩ := h.backward_split
  have hfirst : l.map prev' = l.map prev := by
    refine List.map_congr_left fun y hy => ?_
    rw [hprev y (by simp [hy]), if_neg]
    rintro rfl
    exact h.next_notMem hy
  cases r with
  | nil =>
    have hl := congrArg List.dropLast hb
    simpa [hfirst] using hl
  | cons b r =>
    have hxn : next x = b := by simpa using h.next_eq
    have hbx : prev' b = prev x := by rw [hprev b (by simp), if_pos hxn.symm]
    have hr : r.map prev' = r.map prev := by
      refine List.map_congr_left fun y hy => ?_
      rw [hprev y (by simp [hy]), if_neg]
      rintro rfl
      rw [hxn] at hy
      have hd := (List.nodup_cons.mp (List.nodup_cons.mp (List.nodup_append.mp hnd).2.1).2).1
      exact hd hy
    have hs : r.map prev = (b :: r).dropLast := by
      have hs' : prev b :: r.map prev = x :: (b :: r).dropLast := by simpa using hb'
      exact (List.cons.inj hs').2
    have hd : (null :: (l ++ b :: r)).dropLast = (null :: l) ++ (b :: r).dropLast := by
      rw [← List.cons_append, List.dropLast_append_of_ne_nil (by simp)]
    rw [hd, ← hb]
    simp [hfirst, hbx, hr, hs]

/-- Taking a node out: its predecessor (or the head) inherits its forward
link and its successor inherits its backward link. -/
theorem Linked.unlink (h : Linked next prev null head (l ++ x :: r))
    (hhead : head' = if head = x then next x else head)
    (hnext : ∀ y ∈ l ++ r, next' y = if y = prev x then next x else next y)
    (hprev : ∀ y ∈ l ++ r, prev' y = if y = next x then prev x else prev y) :
    Linked next' prev' null head' (l ++ r) := by
  have hsub : (l ++ r).Sublist (l ++ x :: r) := (List.sublist_cons_self x r).append_left l
  exact ⟨h.nodup.sublist hsub, fun hn => h.null_notMem (hsub.subset hn),
    h.unlink_forward hhead hnext, h.unlink_backward hprev⟩

end Unlink

theorem Linked.append {xs : List α} {x : α} [DecidableEq α]
    (h : Linked next prev null head xs) (hx : x ∉ xs) (hxn : x ≠ null)
    (hhead : head' = if xs = [] then x else head)
    (hnext : ∀ y ∈ xs, next' y = if xs.getLast? = some y then x else next y)
    (hprev : ∀ y ∈ xs, prev' y = prev y)
    (hnx : next' x = null) (hpx : prev' x = xs.getLast?.getD null) :
    Linked next' prev' null head' (xs ++ [x]) := by
  have hf := h.forward
  have hb := h.backward
  refine ⟨?_, ?_, ?_, ?_⟩
  · simpa [List.nodup_append, h.nodup] using fun y hy => fun e : y = x => hx (e ▸ hy)
  · simp [h.null_notMem, Ne.symm hxn]
  · cases xs using List.reverseRecOn with
    | nil => simp [hhead, hnx]
    | append_singleton xs t =>
      have hxs : xs.map next' = xs.map next := by
        refine List.map_congr_left fun y hy => ?_
        have hyt : t ≠ y := by
          rintro rfl
          exact (List.disjoint_of_nodup_append h.nodup) hy (by simp)
        simp [hnext y (by simp [hy]), hyt]
      have hs : head :: xs.map next = xs ++ [t] := by
        have hs' : (head :: xs.map next) ++ [next t] = (xs ++ [t]) ++ [null] := by simpa using hf
        exact (List.append_inj hs' (by simp)).1
      have ht : next' t = x := by simp [hnext t (by simp)]
      simp only [hhead, List.append_eq_nil_iff, List.cons_ne_nil, and_false, if_false,
        List.map_append, List.map_cons, List.map_nil, hxs, ht, hnx]
      rw [← List.cons_append, ← List.cons_append, hs]
  · have hxs : xs.map prev' = xs.map prev := List.map_congr_left hprev
    rw [List.map_append, hxs, hb, ← List.cons_append, List.dropLast_concat]
    cases xs using List.reverseRecOn with
    | nil => simp [hpx]
    | append_singleton xs t =>
      rw [← List.cons_append, List.dropLast_concat]
      simp [hpx]

end LinkedSequence
