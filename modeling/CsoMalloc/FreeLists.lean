import CsoMalloc.Mm
import CsoMalloc.LinkedSequence

/-! The free lists as sequences. The links of a node are the first two words
of its payload; the list operations of mm.c act on them as the corresponding
operations on sequences and write no other word. -/

namespace CsoMalloc

open ByteMemory LinkedSequence

/-- Two list nodes are equal or their link words are disjoint. -/
def Apart (x y : Nat) : Prop := x = y ∨ x + 8 ≤ y ∨ y + 8 ≤ x

/-- The heads and the links in `m` represent the sequences `xs`. -/
structure FreeLists (m : Mem) (heads : Fin freelistCount → Nat)
    (xs : Fin freelistCount → List Nat) : Prop where
  linked : ∀ i, Linked (fun a => getw m a) (fun a => getw m (a + 4)) 0 (heads i) (xs i)
  room : ∀ i, ∀ x ∈ xs i, 4 ≤ x ∧ x + 8 ≤ 2 ^ 32
  apart : ∀ i j, ∀ x ∈ xs i, ∀ y ∈ xs j, Apart x y
  disjoint : ∀ i j, ∀ x ∈ xs i, x ∈ xs j → i = j

theorem Apart.symm {x y : Nat} (h : Apart x y) : Apart y x := by
  simp only [Apart] at *
  omega

theorem getw_next_putw_prev {m : Mem} {x y v : Nat} (h : Apart x y) :
    getw (putw m (y + 4) v) x = getw m x :=
  getw_putw_ne (by simp only [Apart] at h; omega)

theorem getw_prev_putw_next {m : Mem} {x y v : Nat} (h : Apart x y) :
    getw (putw m y v) (x + 4) = getw m (x + 4) :=
  getw_putw_ne (by simp only [Apart] at h; omega)

theorem getw_prev_putw_prev {m : Mem} {x y v : Nat} (h : Apart x y) (hv : v < 2 ^ 32) :
    getw (putw m (y + 4) v) (x + 4) = if x = y then v else getw m (x + 4) := by
  split
  · next he => rw [he, getw_putw hv]
  · next he => exact getw_putw_ne (by simp only [Apart] at h; omega)

theorem getw_next_putw_next {m : Mem} {x y v : Nat} (h : Apart x y) (hv : v < 2 ^ 32) :
    getw (putw m y v) x = if x = y then v else getw m x := by
  split
  · next he => rw [he, getw_putw hv]
  · next he => exact getw_putw_ne (by simp only [Apart] at h; omega)

section Header

variable {s : State} {x v : Nat} (h : x + 8 ≤ 2 ^ 32)

include h

theorem memheader_next : wadd (State.memheaderFromPayload x) 4 = x := by
  simp only [State.memheaderFromPayload, State.getBlockhdr, wsize, wadd, wsub]
  omega

theorem memheader_prev : wadd (State.memheaderFromPayload x) 8 = x + 4 := by
  simp only [State.memheaderFromPayload, State.getBlockhdr, wsize, wadd, wsub]
  omega

theorem nextFree_eq : s.nextFree (State.memheaderFromPayload x) = getw s.mem x := by
  rw [State.nextFree, memheader_next h, State.getw]

theorem prevFree_eq : s.prevFree (State.memheaderFromPayload x) = getw s.mem (x + 4) := by
  rw [State.prevFree, memheader_prev h, State.getw]

theorem setNextFree_eq :
    s.setNextFree (State.memheaderFromPayload x) v = { s with mem := putw s.mem x v } := by
  rw [State.setNextFree, memheader_next h, State.putw]

theorem setPrevFree_eq :
    s.setPrevFree (State.memheaderFromPayload x) v = { s with mem := putw s.mem (x + 4) v } := by
  rw [State.setPrevFree, memheader_prev h, State.putw]

end Header

theorem freeLists_empty (m : Mem) : FreeLists m (fun _ => 0) (fun _ => []) :=
  ⟨fun _ => Linked.nil _ _ _, by simp, by simp, by simp⟩

namespace FreeLists

variable {m m' : Mem} {heads : Fin freelistCount → Nat} {xs : Fin freelistCount → List Nat}

theorem congr (h : FreeLists m heads xs)
    (hm : ∀ i, ∀ x ∈ xs i, ∀ a, x ≤ a → a < x + 8 → m' a = m a) : FreeLists m' heads xs := by
  refine ⟨fun i => (h.linked i).congr (fun x hx => ?_) fun x hx => ?_, h.room, h.apart,
    h.disjoint⟩
  · exact getw_congr fun a ha ha' => hm i x hx a ha (by omega)
  · exact getw_congr fun a ha ha' => hm i x hx a (by omega) (by omega)

theorem putw (h : FreeLists m heads xs) {p w : Nat}
    (hp : ∀ i, ∀ x ∈ xs i, x + 8 ≤ p ∨ p + 4 ≤ x) : FreeLists (ByteMemory.putw m p w) heads xs := by
  refine h.congr fun i x hx a ha ha' => putw_out ?_
  have := hp i x hx
  omega

theorem ne_zero (h : FreeLists m heads xs) {i : Fin freelistCount} {x : Nat} (hx : x ∈ xs i) :
    x ≠ 0 := by
  have := h.room i x hx
  omega

theorem linked_headers {s : State} (h : FreeLists s.mem s.freeLists xs) (i : Fin freelistCount) :
    Linked (fun bp => s.nextFree (State.memheaderFromPayload bp))
      (fun bp => s.prevFree (State.memheaderFromPayload bp)) 0 (s.freeLists i) (xs i) := by
  refine (h.linked i).congr (fun x hx => ?_) fun x hx => ?_
  · exact nextFree_eq (h.room i x hx).2
  · exact prevFree_eq (h.room i x hx).2

theorem length_lt (h : FreeLists m heads xs) (i : Fin freelistCount) :
    (xs i).length < 2 ^ 32 := by
  have hsub : (xs i).toFinset ⊆ Finset.range (2 ^ 32 - 1) := by
    intro x hx
    have := h.room i x (by simpa using hx)
    rw [Finset.mem_range]
    omega
  have hc := Finset.card_le_card hsub
  rw [List.toFinset_card_of_nodup (h.linked i).nodup, Finset.card_range] at hc
  omega

end FreeLists

theorem findEndOfListLoop_eq {s : State} {ys : List Nat} {fuel bp nx : Nat}
    (hf : nx :: ys.map s.getw = ys ++ [0]) (hz : 0 ∉ ys) (hl : ys.length < fuel) :
    findEndOfListLoop s fuel bp nx = some (ys.getLast?.getD bp) := by
  induction ys generalizing fuel bp nx with
  | nil =>
    obtain ⟨fuel, rfl⟩ : ∃ k, fuel = k + 1 := ⟨fuel - 1, by simp at hl; omega⟩
    simp [findEndOfListLoop, (List.cons.inj hf).1]
  | cons y ys ih =>
    obtain ⟨fuel, rfl⟩ : ∃ k, fuel = k + 1 := ⟨fuel - 1, by simp at hl; omega⟩
    rw [List.map_cons, List.cons_append, List.cons.injEq] at hf
    obtain ⟨rfl, hf⟩ := hf
    simp only [List.mem_cons, not_or] at hz
    rw [findEndOfListLoop, if_neg (Ne.symm hz.1), ih hf hz.2 (by simpa using hl),
      List.getLast?_cons, Option.getD_some]

/-- The walk of `find_end_of_list` ends, at the last node of the list. -/
theorem findEndOfList_eq {s : State} {xs : Fin freelistCount → List Nat}
    (h : FreeLists s.mem s.freeLists xs) (i : Fin freelistCount) :
    findEndOfList s i = some ((xs i).getLast?.getD 0) := by
  have hl := h.linked i
  rw [findEndOfList, findEndOfListLoop_eq hl.forward hl.null_notMem (h.length_lt i)]
  have hh := hl.head_eq
  generalize xs i = ys at hh ⊢
  cases ys using List.reverseRecOn with
  | nil => simpa using hh
  | append_singleton ys t => simp

/-- Nodes stay apart when the sequences only lose or swap members. -/
theorem FreeLists.of_update {m m' : Mem} {heads heads' : Fin freelistCount → Nat}
    {xs : Fin freelistCount → List Nat} (h : FreeLists m heads xs) {i : Fin freelistCount}
    {ys : List Nat} (hy : ∀ y ∈ ys, y ∈ xs i ∨ (4 ≤ y ∧ y + 8 ≤ 2 ^ 32) ∧
      ∀ j, ∀ x ∈ xs j, x ≠ y ∧ Apart x y)
    (hi : Linked (fun a => getw m' a) (fun a => getw m' (a + 4)) 0 (heads' i) ys)
    (hapart : ∀ x ∈ ys, ∀ y ∈ ys, Apart x y)
    (hne : ∀ j, j ≠ i → Linked (fun a => getw m' a) (fun a => getw m' (a + 4)) 0 (heads' j) (xs j)) :
    FreeLists m' heads' (Function.update xs i ys) := by
  have hcase : ∀ j x, x ∈ Function.update xs i ys j → j = i ∧ x ∈ ys ∨ j ≠ i ∧ x ∈ xs j := by
    intro j x hx
    by_cases hj : j = i
    · subst hj
      exact .inl ⟨rfl, by simpa using hx⟩
    · exact .inr ⟨hj, by simpa [hj] using hx⟩
  refine ⟨fun j => ?_, fun j x hx => ?_, fun j k x hx y hy' => ?_, fun j k x hx hx' => ?_⟩
  · by_cases hj : j = i
    · subst hj
      simpa using hi
    · simpa [hj] using hne j hj
  · rcases hcase j x hx with ⟨rfl, hx₁⟩ | ⟨_, hx₁⟩
    · exact (hy x hx₁).elim (h.room j x) (fun hh => hh.1)
    · exact h.room j x hx₁
  · rcases hcase j x hx with ⟨rfl, hx₁⟩ | ⟨hj, hx₁⟩ <;>
      rcases hcase k y hy' with ⟨rfl, hy₁⟩ | ⟨hk, hy₁⟩
    · exact hapart x hx₁ y hy₁
    · exact (hy x hx₁).elim (fun hh => h.apart j k x hh y hy₁) (fun hh => (hh.2 k y hy₁).2.symm)
    · exact (hy y hy₁).elim (fun hh => h.apart j k x hx₁ y hh) (fun hh => (hh.2 j x hx₁).2)
    · exact h.apart j k x hx₁ y hy₁
  · rcases hcase j x hx with ⟨rfl, hx₁⟩ | ⟨hj, hx₁⟩ <;>
      rcases hcase k x hx' with ⟨rfl, hx₂⟩ | ⟨hk, hx₂⟩
    · rfl
    · exact (hy x hx₁).elim (fun hh => h.disjoint _ _ x hh hx₂)
        (fun hh => absurd rfl (hh.2 k x hx₂).1)
    · exact (hy x hx₂).elim (fun hh => h.disjoint _ _ x hx₁ hh)
        (fun hh => absurd rfl (hh.2 j x hx₁).1)
    · exact h.disjoint j k x hx₁ hx₂

/-- What `remove_from_list` does to memory for a node with links `nx`, `pv`. -/
def unlinkMem (m : Mem) (nx pv : Nat) : Mem :=
  let m := if nx = 0 then m else putw m (nx + 4) pv
  if pv = 0 then m else putw m pv nx

theorem unlinkMem_out {m : Mem} {nx pv a : Nat} (hn : nx ≠ 0 → a < nx ∨ nx + 8 ≤ a)
    (hp : pv ≠ 0 → a < pv ∨ pv + 8 ≤ a) : unlinkMem m nx pv a = m a := by
  have hm : (if nx = 0 then m else putw m (nx + 4) pv) a = m a := by
    split
    · rfl
    · next h => exact putw_out (by have := hn h; omega)
  simp only [unlinkMem]
  split
  · exact hm
  · next h => rw [putw_out (by have := hp h; omega), hm]

theorem getw_next_unlinkMem {m : Mem} {x nx pv : Nat} (hnx : nx < 2 ^ 32) (hx : x ≠ 0)
    (hn : nx ≠ 0 → Apart x nx) (hp : pv ≠ 0 → Apart x pv) :
    getw (unlinkMem m nx pv) x = if x = pv then nx else getw m x := by
  have hm : getw (if nx = 0 then m else putw m (nx + 4) pv) x = getw m x := by
    split
    · rfl
    · next h => exact getw_next_putw_prev (hn h)
  simp only [unlinkMem]
  split
  · next h => rw [hm, if_neg (by omega)]
  · next h => rw [getw_next_putw_next (hp h) hnx, hm]

theorem getw_prev_unlinkMem {m : Mem} {x nx pv : Nat} (hpv : pv < 2 ^ 32) (hx : x ≠ 0)
    (hn : nx ≠ 0 → Apart x nx) (hp : pv ≠ 0 → Apart x pv) :
    getw (unlinkMem m nx pv) (x + 4) = if x = nx then pv else getw m (x + 4) := by
  have hm : getw (if nx = 0 then m else putw m (nx + 4) pv) (x + 4) =
      if x = nx then pv else getw m (x + 4) := by
    split
    · next h => rw [if_neg (by omega)]
    · next h => exact getw_prev_putw_prev (hn h) hpv
  simp only [unlinkMem]
  split
  · exact hm
  · next h => rw [getw_prev_putw_next (hp h), hm]

/-- `remove_from_list` on any node whose neighbours lie apart from it. -/
theorem removeFromList_eq {s : State} {bp nx pv : Nat} (i : Fin freelistCount)
    (hbp : 4 ≤ bp ∧ bp + 8 ≤ 2 ^ 32) (hnx : getw s.mem bp = nx) (hpv : getw s.mem (bp + 4) = pv)
    (hn : nx ≠ 0 → (4 ≤ nx ∧ nx + 8 ≤ 2 ^ 32) ∧ bp ≠ nx ∧ Apart bp nx)
    (hp : pv ≠ 0 → (4 ≤ pv ∧ pv + 8 ≤ 2 ^ 32) ∧ bp ≠ pv ∧ Apart bp pv) :
    removeFromList s bp i =
      { s with mem := unlinkMem s.mem nx pv
               freeLists := if s.freeLists i = bp then Function.update s.freeLists i nx
                 else s.freeLists } := by
  have hnx' : nx < 2 ^ 32 := hnx ▸ getw_lt _ _
  have hpv' : pv < 2 ^ 32 := hpv ▸ getw_lt _ _
  have h1 : (if s.nextFree (State.memheaderFromPayload bp) ≠ 0
      then s.setPrevFree (State.memheaderFromPayload (s.nextFree (State.memheaderFromPayload bp)))
        (s.prevFree (State.memheaderFromPayload bp)) else s) =
      { s with mem := if nx = 0 then s.mem else putw s.mem (nx + 4) pv } := by
    simp only [nextFree_eq hbp.2, prevFree_eq hbp.2, hnx, hpv]
    by_cases h : nx = 0
    · simp [h]
    · simp [h, setPrevFree_eq (hn h).1.2]
  have hnext : getw (if nx = 0 then s.mem else putw s.mem (nx + 4) pv) bp = nx := by
    split
    · exact hnx
    · next h => rw [getw_next_putw_prev (hn h).2.2, hnx]
  have hprev : getw (if nx = 0 then s.mem else putw s.mem (nx + 4) pv) (bp + 4) = pv := by
    split
    · exact hpv
    · next h => rw [getw_prev_putw_prev (hn h).2.2 hpv', if_neg (hn h).2.1, hpv]
  have hend : getw (unlinkMem s.mem nx pv) bp = nx := by
    rw [getw_next_unlinkMem hnx' (by omega) (fun h => (hn h).2.2) (fun h => (hp h).2.2)]
    split
    · rfl
    · exact hnx
  simp only [removeFromList]
  rw [h1]
  simp only [prevFree_eq hbp.2, nextFree_eq hbp.2, hprev, hnext]
  by_cases h : pv = 0
  · have hu : unlinkMem s.mem nx pv = if nx = 0 then s.mem else putw s.mem (nx + 4) pv := by
      simp [unlinkMem, h]
    simp only [h, ne_eq, not_true_eq_false, if_false, State.setHead] at hu ⊢
    rw [hu]
    split <;> simp_all
  · have hu : unlinkMem s.mem nx pv =
        putw (if nx = 0 then s.mem else putw s.mem (nx + 4) pv) pv nx := by
      simp [unlinkMem, h]
    rw [if_pos h, setNextFree_eq (hp h).1.2, ← hu]
    simp only [hend, State.setHead]
    split <;> rfl

section Unlink

variable {m : Mem} {heads : Fin freelistCount → Nat} {xs : Fin freelistCount → List Nat}
  {i : Fin freelistCount} {l r : List Nat} {bp : Nat}

theorem FreeLists.next_mem (h : FreeLists m heads xs) (hx : xs i = l ++ bp :: r)
    (hz : getw m bp ≠ 0) :
    getw m bp ∈ r.head?.toList ∧ getw m bp ∈ xs i ∧ bp ≠ getw m bp := by
  have hl := h.linked i
  rw [hx] at hl ⊢
  have hh := hl.next_mem hz
  have hr := List.mem_of_mem_head? hh
  have hnd := (List.nodup_cons.mp (List.nodup_append.mp hl.nodup).2.1).1
  exact ⟨by simpa using hh, List.mem_append_right _ (List.mem_cons_of_mem _ hr),
    fun he => hnd (he ▸ hr)⟩

theorem FreeLists.prev_mem (h : FreeLists m heads xs) (hx : xs i = l ++ bp :: r)
    (hz : getw m (bp + 4) ≠ 0) :
    getw m (bp + 4) ∈ l.getLast?.toList ∧ getw m (bp + 4) ∈ xs i ∧ bp ≠ getw m (bp + 4) := by
  have hl := h.linked i
  rw [hx] at hl ⊢
  have hh := hl.prev_mem hz
  have hl' := List.mem_of_mem_getLast? hh
  have hnd := List.disjoint_of_nodup_append hl.nodup
  exact ⟨by simpa using hh, List.mem_append_left _ hl',
    fun he => hnd hl' (he ▸ List.mem_cons_self)⟩

/-- A member's neighbours take over its links, on its own list only. -/
theorem FreeLists.unlink (h : FreeLists m heads xs) (hx : xs i = l ++ bp :: r) :
    FreeLists (unlinkMem m (getw m bp) (getw m (bp + 4)))
      (if heads i = bp then Function.update heads i (getw m bp) else heads)
      (Function.update xs i (l ++ r)) := by
  have hl := h.linked i
  rw [hx] at hl
  have hmem : ∀ y ∈ l ++ r, y ∈ xs i := fun y hy => by
    rw [hx]
    simp only [List.mem_append, List.mem_cons] at hy ⊢
    tauto
  have hn : ∀ j, ∀ x ∈ xs j, getw m bp ≠ 0 → Apart x (getw m bp) := fun j x hxj hz =>
    h.apart j i x hxj _ (h.next_mem hx hz).2.1
  have hp : ∀ j, ∀ x ∈ xs j, getw m (bp + 4) ≠ 0 → Apart x (getw m (bp + 4)) := fun j x hxj hz =>
    h.apart j i x hxj _ (h.prev_mem hx hz).2.1
  have hnextw : ∀ j, ∀ x ∈ xs j, getw (unlinkMem m (getw m bp) (getw m (bp + 4))) x =
      if x = getw m (bp + 4) then getw m bp else getw m x := fun j x hxj =>
    getw_next_unlinkMem (getw_lt _ _) (h.ne_zero hxj) (hn j x hxj) (hp j x hxj)
  have hprevw : ∀ j, ∀ x ∈ xs j, getw (unlinkMem m (getw m bp) (getw m (bp + 4))) (x + 4) =
      if x = getw m bp then getw m (bp + 4) else getw m (x + 4) := fun j x hxj =>
    getw_prev_unlinkMem (getw_lt _ _) (h.ne_zero hxj) (hn j x hxj) (hp j x hxj)
  refine h.of_update (fun y hy => .inl (hmem y hy)) (hl.unlink ?_ (fun y hy => hnextw i y
    (hmem y hy)) (fun y hy => hprevw i y (hmem y hy)))
    (fun x hx y hy => h.apart i i x (hmem x hx) y (hmem y hy)) fun j hj => ?_
  · split
    · simp
    · rfl
  · have hh : (if heads i = bp then Function.update heads i (getw m bp) else heads) j =
        heads j := by
      split
      · simp [hj]
      · rfl
    rw [hh]
    -- a member of another list is neither of the two neighbours
    refine (h.linked j).congr (fun x hxj => ?_) fun x hxj => ?_
    · refine (hnextw j x hxj).trans (if_neg fun e => hj ?_)
      exact h.disjoint j i x hxj (e ▸ (h.prev_mem hx (e ▸ h.ne_zero hxj)).2.1)
    · refine (hprevw j x hxj).trans (if_neg fun e => hj ?_)
      exact h.disjoint j i x hxj (e ▸ (h.next_mem hx (e ▸ h.ne_zero hxj)).2.1)

theorem removeFromList_spec {s : State} (h : FreeLists s.mem s.freeLists xs)
    (hx : xs i = l ++ bp :: r) :
    ∃ m heads, removeFromList s bp i = { s with mem := m, freeLists := heads } ∧
      FreeLists m heads (Function.update xs i (l ++ r)) ∧
      ∀ a, (∀ q ∈ l.getLast?.toList ++ r.head?.toList, a < q ∨ q + 8 ≤ a) → m a = s.mem a := by
  have hbp : bp ∈ xs i := by simp [hx]
  refine ⟨_, _, removeFromList_eq i (h.room i bp hbp) rfl rfl (fun hz => ?_) (fun hz => ?_),
    h.unlink hx, fun a ha => ?_⟩
  · obtain ⟨_, hm, hne⟩ := h.next_mem hx hz
    exact ⟨h.room i _ hm, hne, h.apart i i bp hbp _ hm⟩
  · obtain ⟨_, hm, hne⟩ := h.prev_mem hx hz
    exact ⟨h.room i _ hm, hne, h.apart i i bp hbp _ hm⟩
  · exact unlinkMem_out (fun hz => ha _ (List.mem_append_right _ (h.next_mem hx hz).1))
      (fun hz => ha _ (List.mem_append_left _ (h.prev_mem hx hz).1))

end Unlink

/-- What `add_to_list` does to memory, given the last node of the list. -/
def linkMem (m : Mem) (bp : Nat) : Option Nat → Mem
  | none => putw (putw m bp 0) (bp + 4) 0
  | some t => putw (putw (putw m bp 0) t bp) (bp + 4) t

section Link

variable {m : Mem} {bp x : Nat}

theorem linkMem_out {a : Nat} {t : Option Nat} (ha : ∀ q ∈ bp :: t.toList, a < q ∨ q + 8 ≤ a) :
    linkMem m bp t a = m a := by
  have h1 := ha bp (by simp)
  cases t with
  | none => rw [linkMem, putw_out (by omega), putw_out (by omega)]
  | some t =>
    have h2 := ha t (by simp)
    rw [linkMem, putw_out (by omega), putw_out (by omega), putw_out (by omega)]

theorem getw_next_linkMem {t : Option Nat} (hbp : bp < 2 ^ 32) (hx : x ≠ bp ∧ Apart x bp)
    (ht : ∀ y ∈ t, Apart x y) :
    getw (linkMem m bp t) x = if t = some x then bp else getw m x := by
  cases t with
  | none =>
    rw [linkMem, getw_next_putw_prev hx.2, getw_next_putw_next hx.2 (by omega), if_neg hx.1,
      if_neg (by simp)]
  | some t =>
    rw [linkMem, getw_next_putw_prev hx.2, getw_next_putw_next (ht t rfl) hbp,
      getw_next_putw_next hx.2 (by omega), if_neg hx.1]
    simp only [Option.some.injEq, eq_comm]

theorem getw_prev_linkMem {t : Option Nat} (hlt : ∀ y ∈ t, y < 2 ^ 32) (hx : x ≠ bp ∧ Apart x bp)
    (ht : ∀ y ∈ t, Apart x y) : getw (linkMem m bp t) (x + 4) = getw m (x + 4) := by
  cases t with
  | none =>
    rw [linkMem, getw_prev_putw_prev hx.2 (by omega), if_neg hx.1, getw_prev_putw_next hx.2]
  | some t =>
    rw [linkMem, getw_prev_putw_prev hx.2 (hlt t rfl), if_neg hx.1, getw_prev_putw_next (ht t rfl),
      getw_prev_putw_next hx.2]

theorem getw_linkMem {t : Option Nat} (hbp : bp < 2 ^ 32) (hlt : ∀ y ∈ t, y < 2 ^ 32)
    (ht : ∀ y ∈ t, bp ≠ y ∧ Apart bp y) :
    getw (linkMem m bp t) bp = 0 ∧ getw (linkMem m bp t) (bp + 4) = t.getD 0 := by
  cases t with
  | none =>
    rw [linkMem, getw_next_putw_prev (.inl rfl), getw_putw (by omega), getw_putw (by omega)]
    exact ⟨rfl, rfl⟩
  | some t =>
    rw [linkMem, getw_next_putw_prev (.inl rfl), getw_next_putw_next (ht t rfl).2 hbp,
      if_neg (ht t rfl).1, getw_putw (by omega), getw_putw (hlt t rfl)]
    exact ⟨rfl, rfl⟩

end Link

/-- `add_to_list` on any address whose link words no list uses. -/
theorem addToList_eq {s : State} {xs : Fin freelistCount → List Nat} {bp : Nat}
    (i : Fin freelistCount) (h : FreeLists s.mem s.freeLists xs) (hbp : bp + 8 ≤ 2 ^ 32)
    (hnew : ∀ j, ∀ x ∈ xs j, x ≠ bp ∧ Apart x bp) :
    addToList s bp i = some { s with
      mem := linkMem s.mem bp (xs i).getLast?
      freeLists := if xs i = [] then Function.update s.freeLists i bp else s.freeLists } := by
  have h0 : FreeLists (putw s.mem bp 0) s.freeLists xs := by
    refine h.putw fun j x hx => ?_
    have := hnew j x hx
    simp only [Apart] at this
    omega
  have hend := findEndOfList_eq (s := { s with mem := putw s.mem bp 0 }) h0 i
  simp only [addToList, setNextFree_eq hbp, hend, Option.bind_eq_bind, Option.bind_some]
  cases hl : (xs i).getLast? with
  | none =>
    have hxs : xs i = [] := List.getLast?_eq_none_iff.mp hl
    rw [Option.getD_none, if_pos rfl, if_pos hxs, setPrevFree_eq hbp]
    rfl
  | some t =>
    have ht : t ∈ xs i := List.mem_of_getLast? hl
    have htr := h.room i t ht
    rw [Option.getD_some, if_neg (by omega), if_neg (List.ne_nil_of_mem ht), setNextFree_eq htr.2,
      setPrevFree_eq hbp]
    rfl

theorem addToList_spec {s : State} {xs : Fin freelistCount → List Nat} {bp : Nat}
    (i : Fin freelistCount) (h : FreeLists s.mem s.freeLists xs) (hbp : 4 ≤ bp ∧ bp + 8 ≤ 2 ^ 32)
    (hnew : ∀ j, ∀ x ∈ xs j, x ≠ bp ∧ Apart x bp) :
    ∃ m heads, addToList s bp i = some { s with mem := m, freeLists := heads } ∧
      FreeLists m heads (Function.update xs i (xs i ++ [bp])) ∧
      ∀ a, (∀ q ∈ bp :: (xs i).getLast?.toList, a < q ∨ q + 8 ≤ a) → m a = s.mem a := by
  have hlast : ∀ y ∈ (xs i).getLast?, y ∈ xs i := fun y hy => List.mem_of_getLast? hy
  have hlt : ∀ y ∈ (xs i).getLast?, y < 2 ^ 32 := by
    intro y hy
    have := h.room i y (hlast y hy)
    omega
  have happ : ∀ x ∈ xs i ++ [bp], ∀ y ∈ xs i ++ [bp], Apart x y := by
    intro x hx y hy
    simp only [List.mem_append, List.mem_singleton] at hx hy
    rcases hx with hx | rfl <;> rcases hy with hy | rfl
    · exact h.apart i i x hx y hy
    · exact (hnew i x hx).2
    · exact (hnew i y hy).2.symm
    · exact .inl rfl
  have hcand : ∀ y ∈ xs i ++ [bp], y ∈ xs i ∨ (4 ≤ y ∧ y + 8 ≤ 2 ^ 32) ∧
      ∀ j, ∀ x ∈ xs j, x ≠ y ∧ Apart x y := by
    intro y hy
    rcases List.mem_append.mp hy with hy | hy
    · exact .inl hy
    · obtain rfl := List.mem_singleton.mp hy
      exact .inr ⟨hbp, hnew⟩
  have hblt : bp < 2 ^ 32 := by omega
  have hnextw := fun j x (hx : x ∈ xs j) => getw_next_linkMem (m := s.mem) hblt (hnew j x hx)
    fun y hy => h.apart j i x hx y (hlast y hy)
  have hprevw := fun j x (hx : x ∈ xs j) => getw_prev_linkMem (m := s.mem) hlt (hnew j x hx)
    fun y hy => h.apart j i x hx y (hlast y hy)
  have hbpw := getw_linkMem (m := s.mem) hblt hlt fun y hy =>
    ⟨Ne.symm (hnew i y (hlast y hy)).1, (hnew i y (hlast y hy)).2.symm⟩
  refine ⟨_, _, addToList_eq i h hbp.2 hnew, ?_, fun a ha => linkMem_out ha⟩
  refine h.of_update hcand ((h.linked i).append (fun hm => (hnew i bp hm).1 rfl) (by omega) ?_
    (fun y hy => hnextw i y hy) (fun y hy => hprevw i y hy) hbpw.1 hbpw.2) happ fun j hj => ?_
  · split <;> simp_all
  · have hh : (if xs i = [] then Function.update s.freeLists i bp else s.freeLists) j =
        s.freeLists j := by
      split
      · simp [hj]
      · rfl
    rw [hh]
    refine (h.linked j).congr (fun x hx => ?_) fun x hx => hprevw j x hx
    refine (hnextw j x hx).trans (if_neg fun he => ?_)
    exact hj (h.disjoint j i x hx (hlast x he))

end CsoMalloc
