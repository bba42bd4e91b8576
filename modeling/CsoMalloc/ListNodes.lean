import CsoMalloc.Contract
import CsoMalloc.Merging

/-! The list operations of mm.c on any memory that holds the lists, and the two
ways of finding the list of a node. -/

namespace CsoMalloc

open ByteMemory Tiling LinkedSequence

/-- The two states differ at most in head `i` and in the link words of `qs`. -/
structure WritesLinks (s t : State) (i : Fin freelistCount) (qs : List Nat) : Prop where
  heads : ∀ j, j ≠ i → t.freeLists j = s.freeLists j
  links : ∀ a, (∀ q ∈ qs, a < q ∨ q + 8 ≤ a) → t.mem a = s.mem a
  rest : t = { s with mem := t.mem, freeLists := t.freeLists }

section Operations

variable {s : State} {xs ys : Fin freelistCount → List Nat} {m m' : Mem}
  {heads heads' : Fin freelistCount → Nat} {i : Fin freelistCount}

theorem FreeLists.heads_eq (h : FreeLists m heads xs) (h' : FreeLists m' heads' ys)
    {j : Fin freelistCount} (hj : ys j = xs j) : heads' j = heads j := by
  have hh := (h.linked j).head_eq
  have hh' := (h'.linked j).head_eq
  rw [hj] at hh'
  exact hh'.trans hh.symm

/-- The list operations of mm.c are the operations on sequences that their names
say, and they write nothing but list `i`'s head and the link words of the block
and of its neighbours on the list. -/
theorem list_operations_refine (h : FreeLists s.mem s.freeLists xs) :
    (∀ i, findEndOfList s i = some ((xs i).getLast?.getD 0)) ∧
    (∀ i bp, 4 ≤ bp → bp + 8 ≤ 2 ^ 32 → (∀ j, ∀ x ∈ xs j, x ≠ bp ∧ Apart x bp) →
      ∃ t, addToList s bp i = some t ∧
        FreeLists t.mem t.freeLists (Function.update xs i (xs i ++ [bp])) ∧
        WritesLinks s t i (bp :: (xs i).getLast?.toList)) ∧
    (∀ i l bp r, xs i = l ++ bp :: r →
      FreeLists (removeFromList s bp i).mem (removeFromList s bp i).freeLists
          (Function.update xs i ((xs i).erase bp)) ∧
        WritesLinks s (removeFromList s bp i) i
          (bp :: (l.getLast?.toList ++ r.head?.toList))) := by
  refine ⟨findEndOfList_eq h, fun i bp h4 h8 hnew => ?_, fun i l bp r hx => ?_⟩
  · obtain ⟨m, heads, he, hf, hout⟩ := addToList_spec i h ⟨h4, h8⟩ hnew
    refine ⟨_, he, hf, fun j hj => ?_, hout, rfl⟩
    exact h.heads_eq hf (Function.update_of_ne hj _ _)
  · obtain ⟨m, heads, he, hf, hout⟩ := removeFromList_spec h hx
    have hnd := (h.linked i).nodup
    rw [hx, List.nodup_middle, List.nodup_cons] at hnd
    have herase : (xs i).erase bp = l ++ r := by
      have hl : bp ∉ l := fun hb => hnd.1 (List.mem_append_left _ hb)
      rw [hx, List.erase_append_right _ hl, List.erase_cons_head]
    rw [he, herase]
    refine ⟨hf, fun j hj => ?_, fun a ha => ?_, rfl⟩
    · exact h.heads_eq hf (Function.update_of_ne hj _ _)
    · exact hout a fun q hq => ha q (List.mem_cons_of_mem _ hq)

theorem list_operations_refine_pair :
    findEndOfList pairHeap 4 = some 4112 ∧
    (∃ t, addToList pairHeap 4128 4 = some t ∧
      FreeLists t.mem t.freeLists (fun i => if i = 4 then [4112, 4128] else [])) ∧
    FreeLists (removeFromList pairHeap 4112 4).mem (removeFromList pairHeap 4112 4).freeLists
      fun _ => [] := by
  obtain ⟨hend, hadd, hrem⟩ := list_operations_refine pairHeap_freeLists
  refine ⟨hend 4, ?_, ?_⟩
  · obtain ⟨t, ht, hf, _⟩ := hadd 4 4128 (by decide) (by decide) fun j x hx => by
      rw [(mem_pairLists.mp hx).2]
      exact ⟨by decide, .inr (.inl (by decide))⟩
    refine ⟨t, ht, ?_⟩
    have hxs : Function.update (fun i : Fin freelistCount => if i = 4 then [4112] else []) 4
        ((if (4 : Fin freelistCount) = 4 then [4112] else []) ++ [4128]) =
        fun i => if i = 4 then [4112, 4128] else [] := by decide
    rw [hxs] at hf
    exact hf
  · have hf := (hrem 4 [] 4112 [] rfl).1
    have hxs : Function.update (fun i : Fin freelistCount => if i = 4 then [4112] else []) 4
        ((if (4 : Fin freelistCount) = 4 then [4112] else []).erase 4112) = fun _ => [] := by decide
    rw [hxs] at hf
    exact hf

end Operations

section NodeIndex

variable {E : Env} {s : State} {L : Layout} {xs : Fin freelistCount → List Nat}
  {i : Fin freelistCount}

/-- The walk of `get_node_listindex` along the backward links ends at the head of
the list. -/
theorem getNodeListindexLoop_eq (h : FreeLists s.mem s.freeLists xs) {l r : List Nat} {x fuel : Nat}
    (hx : xs i = l ++ x :: r) (hf : l.length < fuel) :
    getNodeListindexLoop s fuel (State.memheaderFromPayload x) =
      some (State.memheaderFromPayload (s.freeLists i)) := by
  induction l using List.reverseRecOn generalizing x r fuel with
  | nil =>
    obtain ⟨fuel, rfl⟩ : ∃ k, fuel = k + 1 := ⟨fuel - 1, by simp at hf; omega⟩
    have hl := h.linked i
    rw [hx] at hl
    have hroom := h.room i x (by simp [hx])
    have hprev : getw s.mem (x + 4) = 0 := hl.prev_eq
    have hhead : s.freeLists i = x := hl.head_eq
    rw [getNodeListindexLoop, prevFree_eq hroom.2, hprev, if_neg (by simp), hhead]
  | append_singleton l y ih =>
    obtain ⟨fuel, rfl⟩ : ∃ k, fuel = k + 1 := ⟨fuel - 1, by simp at hf; omega⟩
    have hl := h.linked i
    rw [hx] at hl
    have hroom := h.room i x (by simp [hx])
    have hy0 : y ≠ 0 := h.ne_zero (i := i) (by simp [hx])
    have hprev : getw s.mem (x + 4) = y := by simpa using hl.prev_eq
    rw [getNodeListindexLoop, prevFree_eq hroom.2, hprev, if_pos hy0]
    exact ih (r := x :: r) (by simp [hx]) (by simpa using hf)

theorem Refines.heads_aligned (h : Refines E s L) (hwf : L.WF) (i : Fin freelistCount) :
    s.freeLists i % 8 = 0 := by
  rw [h.image.head_eq i]
  cases hl : L.lists i with
  | nil => rfl
  | cons o os =>
    obtain ⟨n, hn, _⟩ := (hwf.listed.mem_iff i o).mp (by simp [hl])
    have := spans_aligned hn
    have := E.base_aligned
    simp only [List.head?_cons, Option.map_some, Option.getD_some]
    omega

/-- The macro steps over four structures instead of one word, and what it arrives
at is no aligned address. -/
theorem payloadFromMemheader_ne {p q : Nat} (hp : p % 8 = 0) (hq : q % 8 = 0) :
    q ≠ State.payloadFromMemheader (State.memheaderFromPayload p) := by
  simp only [State.payloadFromMemheader, State.memheaderFromPayload, State.getBlockhdr,
    State.memHeaderSize, wsize, wadd, wsub]
  omega

theorem Refines.getNodeListindex_walk (h : Refines E s L) {bp : Nat}
    (hbp : bp ∈ (L.lists i).map (E.base + ·)) :
    getNodeListindexLoop s (2 ^ 32) (State.memheaderFromPayload bp) =
      some (State.memheaderFromPayload (s.freeLists i)) := by
  obtain ⟨l, r, hlr⟩ := List.append_of_mem hbp
  have hlen := h.image.lists.length_lt i
  simp only [hlr, List.length_append, List.length_cons] at hlen
  exact getNodeListindexLoop_eq h.image.lists hlr (by omega)

theorem Refines.getNodeListindex_eq (h : Refines E s L) (hwf : L.WF) {bp : Nat}
    (hbp : bp ∈ (L.lists i).map (E.base + ·)) : getNodeListindex s bp = some (-1) := by
  have hwalk := h.getNodeListindex_walk hbp
  have hnone : (List.finRange freelistCount).find? (fun j => s.freeLists j =
      State.payloadFromMemheader (State.memheaderFromPayload (s.freeLists i))) = none := by
    refine List.find?_eq_none.mpr fun j _ => ?_
    simpa using payloadFromMemheader_ne (h.heads_aligned hwf i) (h.heads_aligned hwf j)
  rw [getNodeListindex, hwalk, Option.map_some, hnone]

variable {rs : List Request} {w : World}

/-- In no reachable state does `get_node_listindex` find the list of a free block:
the walk ends at the head of that list, but the block is not recognised there. -/
theorem node_index_never_found (h : Run E rs w) :
    ∃ bps, heapWalk w.heap = some bps ∧ ∀ bp ∈ bps, w.heap.getThisalloc bp = 0 →
      getNodeListindexLoop w.heap (2 ^ 32) (State.memheaderFromPayload bp) = some
        (State.memheaderFromPayload (w.heap.freeLists (calcListIndex (w.heap.getThissize bp)))) ∧
      getNodeListindex w.heap bp = some (-1) ∧
      getNodeListindex w.heap bp ≠ some ((calcListIndex (w.heap.getThissize bp) : Nat) : Int) := by
  obtain ⟨hm, hwf⟩ := h.matches
  refine ⟨_, hm.heap.heapWalk_eq hwf.layout, fun bp hbp h0 => ?_⟩
  have hin := ((hm.heap.freeLists hwf.layout).members _ bp).mpr ⟨hbp, h0, rfl⟩
  have hidx := hm.heap.getNodeListindex_eq hwf.layout hin
  refine ⟨hm.heap.getNodeListindex_walk hin, hidx, fun he => ?_⟩
  have := Option.some.inj (hidx.symm.trans he)
  omega

theorem node_index_never_found_small :
    ∃ w bps, Run Env.small [.malloc 24] w ∧ heapWalk w.heap = some bps ∧
      ∀ bp ∈ bps, w.heap.getThisalloc bp = 0 → getNodeListindex w.heap bp = some (-1) := by
  obtain ⟨w, hw⟩ := exists_run Env.small [.malloc 24] (by decide)
  obtain ⟨bps, hwalk, hnone⟩ := node_index_never_found hw
  exact ⟨w, bps, hw, hwalk, fun bp hbp h0 => (hnone bp hbp h0).2.1⟩

/-- The only block after `mm_init` is free and has class 13. -/
theorem node_index_missed :
    ∃ w bps bp, Run Env.small [] w ∧ heapWalk w.heap = some bps ∧ bp ∈ bps ∧
      w.heap.getThisalloc bp = 0 ∧ (calcListIndex (w.heap.getThissize bp) : Nat) = 13 ∧
      getNodeListindex w.heap bp = some (-1) := by
  obtain ⟨w, hw⟩ := exists_run Env.small [] (by decide)
  obtain ⟨hm, hwf⟩ := hw.matches
  have hin : Env.small.base + 16 ∈
      ((Plan.run Env.small.page []).layout.lists 13).map (Env.small.base + ·) :=
    List.mem_map_of_mem (by decide)
  obtain ⟨hbp, h0, hi⟩ := ((hm.heap.freeLists hwf.layout).members 13 _).mp hin
  refine ⟨w, _, _, hw, hm.heap.heapWalk_eq hwf.layout, hbp, h0, ?_,
    hm.heap.getNodeListindex_eq hwf.layout hin⟩
  rw [hi]
  rfl

end NodeIndex

end CsoMalloc
