import CsoMalloc.Coalesce
import CsoMalloc.Invariants

/-! What `coalesce` does to any heap in order, whether a run reaches it or not.
The tags of such a heap are those of a row of blocks, and the four cases of the
source all replace a stretch of that row by one block. -/

namespace CsoMalloc

open ByteMemory Tiling LinkedSequence

section Rows

variable {s : State}

theorem exists_block {p : Nat} (h4 : 4 ≤ p) (hlt : p + s.getThissize p ≤ 2 ^ 32)
    (h8 : 8 ∣ s.getThissize p) (h16 : 16 ≤ s.getThissize p) :
    ∃ b : Block, getw s.mem (p - 4) = b.word ∧ s.getThissize p = b.size ∧
      s.getThisalloc p = b.alloc.toNat := by
  have hw := getw_lt s.mem (p - 4)
  have hsize : s.getThissize p = 4 * (getw s.mem (p - 4) / 4) := by
    rw [State.getThissize, State.getSize, getBlockhdr_eq h4 (by omega), State.getw, sizeField_eq hw]
  let b : Block := ⟨s.getThissize p, getw s.mem (p - 4) % 2 = 1, getw s.mem (p - 4) / 2 % 2 = 1,
    h16, h8⟩
  have hb : getw s.mem (p - 4) = b.word := by
    have ha : (decide (getw s.mem (p - 4) % 2 = 1)).toNat = getw s.mem (p - 4) % 2 := by
      rcases Nat.mod_two_eq_zero_or_one (getw s.mem (p - 4)) with h | h <;> simp [h]
    have hp : (decide (getw s.mem (p - 4) / 2 % 2 = 1)).toNat = getw s.mem (p - 4) / 2 % 2 := by
      rcases Nat.mod_two_eq_zero_or_one (getw s.mem (p - 4) / 2) with h | h <;> simp [h]
    simp only [Block.word, b, ha, hp]
    omega
  exact ⟨b, hb, rfl, getThisalloc_eq h4 hlt hb⟩

/-- A walk over the heap that meets only blocks of proper sizes meets a row of
blocks. It may end at the end of the address space. -/
theorem heapWalkLoop_tagged {bps : List Nat} {fuel q : Nat}
    (h : heapWalkLoop s fuel (q % 2 ^ 32) = some bps) (hend : s.heapEnd < 2 ^ 32) (hq : 16 ≤ q)
    (hle : q ≤ s.heapEnd + 1)
    (hin : ∀ x ∈ bps, x + s.getThissize x ≤ s.heapEnd + 1 ∧ 8 ∣ s.getThissize x ∧
      16 ≤ s.getThissize x ∧
      (s.getThisalloc x = 0 → s.getSize (s.getBlockftr x) = s.getThissize x)) :
    ∃ bs : List Block, bps = (placed Block.size q bs).map Prod.fst ∧ Tagged s.mem q bs ∧
      q + extent Block.size bs = s.heapEnd + 1 := by
  induction fuel generalizing q bps with
  | zero => exact absurd h (by simp [heapWalkLoop])
  | succ fuel ih =>
    rw [heapWalkLoop] at h
    by_cases he : q % 2 ^ 32 = wadd s.heapEnd 1
    · rw [if_pos he] at h
      refine ⟨[], (Option.some.inj h).symm, trivial, ?_⟩
      simp only [wadd] at he
      simp only [extent_nil]
      omega
    · rw [if_neg he] at h
      have hlt : q < 2 ^ 32 := by
        simp only [wadd] at he
        omega
      rw [Nat.mod_eq_of_lt hlt] at h
      obtain ⟨rest, hrest, rfl⟩ := Option.map_eq_some_iff.mp h
      obtain ⟨hx, h8, h16, hf⟩ := hin q List.mem_cons_self
      obtain ⟨b, hb, hsz, ha⟩ := exists_block (by omega) (by omega) h8 h16
      have hnext : s.getNextblock q = (q + b.size) % 2 ^ 32 := by
        rw [getNextblock_of_header (by omega) (header_eq (by omega) (by omega) hb), wadd]
      rw [hnext] at hrest
      obtain ⟨bs, rfl, htags, hsum⟩ := ih hrest (by omega) (by omega)
        fun x hx => hin x (List.mem_cons_of_mem _ hx)
      refine ⟨b :: bs, rfl, ⟨hb, fun hfree => ?_, htags⟩, by rw [extent_cons]; omega⟩
      have hft := hf (by rw [ha, hfree]; rfl)
      rwa [State.getSize, State.getw, getBlockftr_eq (by omega) (by omega) hb, hsz] at hft

theorem BoundaryTagInvariant.heapEnd_lt {bps : List Nat} (h : BoundaryTagInvariant s bps) :
    s.heapEnd < 2 ^ 32 := by
  rw [h.heapEnd, State.memHeapHi]
  exact Nat.mod_lt _ (by omega)

theorem BoundaryTagInvariant.row {bps : List Nat} (h : BoundaryTagInvariant s bps) {bp : Nat}
    (hbp : bp ∈ bps) :
    ∃ bs : List Block, bps = (placed Block.size (s.heapStart + 16) bs).map Prod.fst ∧
      Tagged s.mem (s.heapStart + 16) bs ∧
      s.heapStart + 16 + extent Block.size bs = s.heapEnd + 1 := by
  have hend := h.heapEnd_lt
  have hin := h.inside bp hbp
  have hsz := h.sizes bp hbp
  simp only [wsize] at hin
  have hwalk := h.walk
  rw [heapWalk, wadd] at hwalk
  refine heapWalkLoop_tagged hwalk hend (by omega) (by omega) fun x hx => ?_
  exact ⟨(h.inside x hx).2, (h.sizes x hx).1, (h.sizes x hx).2, h.footers x hx⟩

end Rows

section Links

variable {a : Nat} {bs : List Block} {m t m' : Mem}

/-- Only link words of free blocks of the row differ. -/
def RowLinks (a : Nat) (bs : List Block) (m m' : Mem) : Prop :=
  ∀ x, (∀ q c, (q, c) ∈ placed Block.size a bs → c.alloc = false → x < q ∨ q + 8 ≤ x) → m' x = m x

theorem RowLinks.refl (a : Nat) (bs : List Block) (m : Mem) : RowLinks a bs m m := fun _ _ => rfl

theorem RowLinks.trans (h : RowLinks a bs m t) (h' : RowLinks a bs t m') : RowLinks a bs m m' :=
  fun x hx => (h' x hx).trans (h x hx)

theorem RowLinks.getw_eq (h : RowLinks a bs m m') {y : Nat}
    (hy : ∀ q c, (q, c) ∈ placed Block.size a bs → c.alloc = false → y + 4 ≤ q ∨ q + 8 ≤ y) :
    getw m' y = getw m y := by
  refine getw_congr fun x hx hx' => h x fun q c hq hc => ?_
  have := hy q c hq hc
  omega

theorem RowLinks.header (h : RowLinks a bs m m') (ha : 4 ≤ a) {p : Nat} {b : Block}
    (hb : (p, b) ∈ placed Block.size a bs) : getw m' (p - 4) = getw m (p - 4) := by
  have := (placed_bounds hb).1
  refine h.getw_eq fun q c hq _ => ?_
  have := c.size_ge
  have := placed_starts hb hq
  omega

theorem RowLinks.footer (h : RowLinks a bs m m') {p : Nat} {b : Block}
    (hb : (p, b) ∈ placed Block.size a bs) :
    getw m' (p + b.size - 8) = getw m (p + b.size - 8) := by
  have hbg := b.size_ge
  refine h.getw_eq fun q c hq _ => ?_
  have := c.size_ge
  have := placed_starts hb hq
  omega

theorem RowLinks.outside (h : RowLinks a bs m m') {y : Nat}
    (hy : y + 4 ≤ a ∨ a + extent Block.size bs ≤ y + 8) : getw m' y = getw m y := by
  refine h.getw_eq fun q c hq _ => ?_
  have hbd := placed_bounds hq
  have := c.size_ge
  omega

theorem FreeLists.remove_row {s : State} {ys : Fin freelistCount → List Nat}
    (h : FreeLists s.mem s.freeLists ys)
    (hys : ∀ i, ∀ x ∈ ys i, ∃ c, (x, c) ∈ placed Block.size a bs ∧ c.alloc = false)
    {i : Fin freelistCount} {x : Nat} (hx : x ∈ ys i) :
    ∃ m heads, removeFromList s x i = { s with mem := m, freeLists := heads } ∧
      FreeLists m heads (fun j => (ys j).filter (· ≠ x)) ∧ RowLinks a bs s.mem m := by
  obtain ⟨l, r, hlr⟩ := List.append_of_mem hx
  obtain ⟨m, heads, he, hf, hfr⟩ := removeFromList_spec h hlr
  have hnd := (h.linked i).nodup
  rw [hlr, List.nodup_middle, List.nodup_cons] at hnd
  have hlists : Function.update ys i (l ++ r) = fun j => (ys j).filter (· ≠ x) := by
    funext j
    by_cases hj : j = i
    · subst hj
      have hkeep : (l ++ r).filter (· ≠ x) = l ++ r :=
        List.filter_eq_self.mpr fun y hy => by simpa using fun e : y = x => hnd.1 (e ▸ hy)
      rw [Function.update_self, hlr, List.filter_append, List.filter_cons_of_neg (by simp),
        ← List.filter_append, hkeep]
    · rw [Function.update_of_ne hj]
      refine (List.filter_eq_self.mpr fun y hy => ?_).symm
      simpa using fun e : y = x => hj (h.disjoint j i y hy (e ▸ hx))
  refine ⟨m, heads, he, hlists ▸ hf, fun y hy => hfr y fun q hq => ?_⟩
  have hmem : q ∈ ys i := by
    rw [hlr]
    rcases List.mem_append.mp hq with hq | hq
    · exact List.mem_append_left _ (List.mem_of_mem_getLast? (by simpa using hq))
    · exact List.mem_append_right _
        (List.mem_cons_of_mem _ (List.mem_of_mem_head? (by simpa using hq)))
  obtain ⟨c, hc, hfree⟩ := hys i q hmem
  exact hy q c hc hfree

end Links

/-- A row of blocks in memory whose block `b` is free and on no list. A header
that denies an allocated predecessor stands behind a free block, and what
follows the row counts as allocated. -/
structure OpenRow (s : State) (a : Nat) (pre : List Block) (b : Block) (post : List Block)
    (xs : Fin freelistCount → List Nat) : Prop where
  low : 4 ≤ a
  high : a + extent Block.size (pre ++ b :: post) ≤ 2 ^ 32
  headers : ∀ p c, (p, c) ∈ placed Block.size a (pre ++ b :: post) → getw s.mem (p - 4) = c.word
  free : b.alloc = false
  footer : getw s.mem (a + extent Block.size pre + b.size - 8) = b.word
  left : b.prevAlloc = false → ∃ l, pre.getLast? = some l ∧ l.alloc = false ∧
    sizeField (getw s.mem (a + extent Block.size pre - 8)) = l.size
  right : post = [] → getw s.mem (a + extent Block.size pre + b.size - 4) &&& thisalloc = 1
  lists : FreeLists s.mem s.freeLists xs
  members : ∀ i x, x ∈ xs i ↔ x ≠ a + extent Block.size pre ∧
    ∃ c, (x, c) ∈ placed Block.size a (pre ++ b :: post) ∧ c.alloc = false ∧
      calcListIndex c.size = i

/-- The free left neighbour of `b`, if there is one. -/
def leftPart (pre : List Block) (b : Block) : List Block :=
  if b.prevAlloc then [] else pre.getLast?.toList

def rightPart (post : List Block) : List Block := post.head?.toList.filter fun n => !n.alloc

/-- `coalesce` comes down to listing the block `c` that takes the place of the
parts, after the parts have been taken off their lists. -/
structure Joins (s : State) (a : Nat) (pre : List Block) (b : Block) (post : List Block)
    (xs : Fin freelistCount → List Nat) (pre' post' : List Block) (c : Block) (m : Mem)
    (heads : Fin freelistCount → Nat) : Prop where
  before : pre = pre' ++ leftPart pre b
  after : post = rightPart post ++ post'
  size : c.size = extent Block.size (leftPart pre b ++ b :: rightPart post)
  free : c.alloc = false
  prevAlloc : c.prevAlloc = ((leftPart pre b).head?.getD b).prevAlloc
  links : RowLinks a (pre ++ b :: post) s.mem m
  lists : FreeLists m heads fun i => (xs i).filter fun x =>
    x ∉ (placed Block.size (a + extent Block.size pre')
      (leftPart pre b ++ b :: rightPart post)).map Prod.fst
  eq : coalesce s (a + extent Block.size pre) =
    (addToList { s with mem := tagMem m (a + extent Block.size pre') c, freeLists := heads }
      (a + extent Block.size pre') (calcListIndex c.size)).bind
        fun t => some (t, a + extent Block.size pre')

namespace OpenRow

variable {s : State} {a : Nat} {pre post : List Block} {b : Block}
  {xs : Fin freelistCount → List Nat}

theorem mem_block (a : Nat) (pre post : List Block) (b : Block) :
    (a + extent Block.size pre, b) ∈ placed Block.size a (pre ++ b :: post) := by
  simp

theorem header (h : OpenRow s a pre b post xs) :
    getw s.mem (a + extent Block.size pre - 4) = b.word :=
  h.headers _ _ (mem_block a pre post b)

theorem listed (h : OpenRow s a pre b post xs) (i : Fin freelistCount) : ∀ x ∈ xs i,
    x ≠ a + extent Block.size pre ∧
      ∃ c, (x, c) ∈ placed Block.size a (pre ++ b :: post) ∧ c.alloc = false := by
  intro x hx
  obtain ⟨hne, c, hc, hfree, _⟩ := (h.members i x).mp hx
  exact ⟨hne, c, hc, hfree⟩

theorem filter_eq (h : OpenRow s a pre b post xs) (ys : List Nat) {f : Nat → Bool}
    (hf : ∀ x, x ≠ a + extent Block.size pre → f x = decide (x ∉ ys)) (i : Fin freelistCount) :
    (xs i).filter f = (xs i).filter fun x => x ∉ ys :=
  List.filter_congr fun x hx => hf x (h.listed i x hx).1

theorem next_alloc (h : OpenRow s a pre b post xs) (hn : ∀ n ∈ post.head?, n.alloc = true) :
    getw s.mem (a + extent Block.size pre + b.size - 4) &&& thisalloc = 1 := by
  cases post with
  | nil => exact h.right rfl
  | cons n post =>
    have hw := h.headers (a + extent Block.size pre + b.size) n (by simp)
    rw [hw, Block.word_and_thisalloc, hn n rfl]
    rfl

/-- Case 1 of `coalesce`. -/
theorem joins_neither (h : OpenRow s a pre b post xs) (hp : b.prevAlloc = true)
    (hn : ∀ n ∈ post.head?, n.alloc = true) :
    Joins s a pre b post xs pre post b s.mem s.freeLists := by
  have hlow := h.low
  have hhigh := h.high
  simp only [extent_append, extent_cons] at hhigh
  have hl : leftPart pre b = [] := by simp [leftPart, hp]
  have hr : rightPart post = [] := by
    cases post with
    | nil => rfl
    | cons n post => simp [rightPart, hn n rfl]
  have htag : tagMem s.mem (a + extent Block.size pre) b = s.mem := by
    have h1 := putw_getw s.mem (a + extent Block.size pre - 4)
    have h2 := putw_getw s.mem (a + extent Block.size pre + b.size - 8)
    rw [h.header] at h1
    rw [h.footer] at h2
    rw [tagMem, h1, h2]
  refine ⟨by simp [hl], by simp [hr], by simp [hl, hr], h.free, by simp [hl], RowLinks.refl _ _ _,
    ?_, ?_⟩
  · have hsame : (fun i => (xs i).filter fun x => x ∉ (placed Block.size (a + extent Block.size pre)
        (leftPart pre b ++ b :: rightPart post)).map Prod.fst) = xs := by
      funext i
      refine List.filter_eq_self.mpr fun x hx => ?_
      simpa [hl, hr] using (h.listed i x hx).1
    rw [hsame]
    exact h.lists
  · rw [htag]
    exact coalesce_neither (by omega) (by omega) h.header hp (h.next_alloc hn)

/-- Case 2 of `coalesce`. -/
theorem joins_next {n : Block} (h : OpenRow s a pre b (n :: post) xs) (hp : b.prevAlloc = true)
    (hn : n.alloc = false) : ∃ m heads, Joins s a pre b (n :: post) xs pre post (b.join n) m heads := by
  have hlow := h.low
  have hhigh := h.high
  have hbg := b.size_ge
  simp only [extent_append, extent_cons] at hhigh
  have hl : leftPart pre b = [] := by simp [leftPart, hp]
  have hr : rightPart (n :: post) = [n] := by simp [rightPart, hn]
  have hmem : (a + extent Block.size pre + b.size, n) ∈
      placed Block.size a (pre ++ b :: n :: post) := by simp
  have hw := h.headers _ _ hmem
  obtain ⟨m, heads, he, hf, hlinks⟩ := h.lists.remove_row (fun i x hx => (h.listed i x hx).2)
    ((h.members (calcListIndex n.size) _).mpr ⟨by omega, n, hmem, hn, rfl⟩)
  refine ⟨m, heads, by simp [hl], by simp [hr], by simp [hl, hr, Block.join], h.free,
    by simp [hl, Block.join], hlinks, ?_, ?_⟩
  · have hsame := h.filter_eq ((placed Block.size (a + extent Block.size pre)
      (leftPart pre b ++ b :: rightPart (n :: post))).map Prod.fst)
      (f := (· ≠ a + extent Block.size pre + b.size)) fun x hx => by simp [hl, hr, hx]
    simp only [hsame] at hf
    exact hf
  · have heq := @coalesce_next s { s with mem := m, freeLists := heads }
      (a + extent Block.size pre) b n (by omega) (by omega) h.header hp h.free hw hn he
      ((hlinks.header hlow hmem).trans hw)
    exact heq

/-- Case 3 of `coalesce`. -/
theorem joins_prev {l : Block} (h : OpenRow s a (pre ++ [l]) b post xs) (hp : b.prevAlloc = false)
    (hla : l.alloc = false)
    (hft : sizeField (getw s.mem (a + extent Block.size (pre ++ [l]) - 8)) = l.size)
    (hn : ∀ n ∈ post.head?, n.alloc = true) :
    ∃ m heads, Joins s a (pre ++ [l]) b post xs pre post (l.join b) m heads := by
  have hlow := h.low
  have hhigh := h.high
  have hbg := b.size_ge
  have hlg := l.size_ge
  simp only [extent_append, extent_cons, extent_nil, Nat.add_zero] at hhigh
  have hl : leftPart (pre ++ [l]) b = [l] := by simp [leftPart, hp]
  have hr : rightPart post = [] := by
    cases post with
    | nil => rfl
    | cons n post => simp [rightPart, hn n rfl]
  have hext : a + extent Block.size (pre ++ [l]) = a + extent Block.size pre + l.size := by
    simp only [extent_append, extent_cons, extent_nil]
    omega
  have hsub : a + extent Block.size (pre ++ [l]) - l.size = a + extent Block.size pre := by omega
  have hmem : (a + extent Block.size pre, l) ∈ placed Block.size a (pre ++ [l] ++ b :: post) := by
    simp
  have hb := mem_block a (pre ++ [l]) post b
  have hw := h.headers _ _ hmem
  obtain ⟨m, heads, he, hf, hlinks⟩ := h.lists.remove_row (fun i x hx => (h.listed i x hx).2)
    ((h.members (calcListIndex l.size) _).mpr ⟨by omega, l, hmem, hla, rfl⟩)
  refine ⟨m, heads, by simp [hl], by simp [hr], by simp [hl, hr, Block.join], hla,
    by simp [hl, Block.join], hlinks, ?_, ?_⟩
  · have hsame := h.filter_eq ((placed Block.size (a + extent Block.size pre)
      (leftPart (pre ++ [l]) b ++ b :: rightPart post)).map Prod.fst)
      (f := (· ≠ a + extent Block.size pre)) fun x hx => by
        rw [hext] at hx
        simp [hl, hr, hx]
    simp only [hsame] at hf
    exact hf
  · have heq := @coalesce_prev s { s with mem := m, freeLists := heads }
      (a + extent Block.size (pre ++ [l])) l b (by omega) (by omega) h.header hp (h.next_alloc hn)
      hla (by rw [hsub]; exact hw) hft (by rw [hsub]; exact he)
      (by rw [hsub]; exact (hlinks.header hlow hmem).trans hw)
      ((hlinks.header hlow hb).trans h.header)
    rw [hsub] at heq
    exact heq

/-- Case 4 of `coalesce`. -/
theorem joins_both {l n : Block} (h : OpenRow s a (pre ++ [l]) b (n :: post) xs)
    (hp : b.prevAlloc = false) (hla : l.alloc = false)
    (hft : sizeField (getw s.mem (a + extent Block.size (pre ++ [l]) - 8)) = l.size)
    (hn : n.alloc = false) :
    ∃ m heads, Joins s a (pre ++ [l]) b (n :: post) xs pre post (l.join (b.join n)) m heads := by
  have hlow := h.low
  have hhigh := h.high
  have hbg := b.size_ge
  have hlg := l.size_ge
  have hng := n.size_ge
  simp only [extent_append, extent_cons, extent_nil, Nat.add_zero] at hhigh
  have hl : leftPart (pre ++ [l]) b = [l] := by simp [leftPart, hp]
  have hr : rightPart (n :: post) = [n] := by simp [rightPart, hn]
  have hext : a + extent Block.size (pre ++ [l]) = a + extent Block.size pre + l.size := by
    simp only [extent_append, extent_cons, extent_nil]
    omega
  have hsub : a + extent Block.size (pre ++ [l]) - l.size = a + extent Block.size pre := by omega
  have hlmem : (a + extent Block.size pre, l) ∈
      placed Block.size a (pre ++ [l] ++ b :: n :: post) := by simp
  have hnmem : (a + extent Block.size (pre ++ [l]) + b.size, n) ∈
      placed Block.size a (pre ++ [l] ++ b :: n :: post) := by
    rw [placed_append]
    exact List.mem_append_right _ (by simp)
  have hb := mem_block a (pre ++ [l]) (n :: post) b
  have hlw := h.headers _ _ hlmem
  have hnw := h.headers _ _ hnmem
  -- first the right neighbour is taken off its list, then the left one
  obtain ⟨m, heads, he, hf, hlinks⟩ := h.lists.remove_row (fun i x hx => (h.listed i x hx).2)
    ((h.members (calcListIndex n.size) _).mpr ⟨by omega, n, hnmem, hn, rfl⟩)
  have hlin : a + extent Block.size pre ∈ (xs (calcListIndex l.size)).filter
      (· ≠ a + extent Block.size (pre ++ [l]) + b.size) := by
    refine List.mem_filter.mpr ⟨(h.members _ _).mpr ⟨by omega, l, hlmem, hla, rfl⟩, ?_⟩
    simp only [ne_eq, decide_eq_true_eq]
    omega
  obtain ⟨m₂, heads₂, he₂, hf₂, hlinks₂⟩ := FreeLists.remove_row
    (s := { s with mem := m, freeLists := heads }) hf
    (fun i x hx => (h.listed i x (List.mem_filter.mp hx).1).2) hlin
  have hlinks' := hlinks.trans hlinks₂
  refine ⟨m₂, heads₂, by simp [hl], by simp [hr], by simp [hl, hr, Block.join], hla,
    by simp [hl, Block.join], hlinks', ?_, ?_⟩
  · have hsame := h.filter_eq ((placed Block.size (a + extent Block.size pre)
      (leftPart (pre ++ [l]) b ++ b :: rightPart (n :: post))).map Prod.fst)
      (f := fun x => decide (x ≠ a + extent Block.size pre) &&
        decide (x ≠ a + extent Block.size (pre ++ [l]) + b.size)) fun x hx => by
        rw [hext] at hx ⊢
        simp [hl, hr, hx]
    simp only [List.filter_filter, hsame] at hf₂
    exact hf₂
  · have heq := @coalesce_both s { s with mem := m, freeLists := heads }
      { s with mem := m₂, freeLists := heads₂ } (a + extent Block.size (pre ++ [l])) l b n
      (by omega) (by omega) h.header hp hnw hn hla hft he
      (by rw [hsub]; exact (hlinks.header hlow hlmem).trans hlw) (by rw [hsub]; exact he₂)
      (by rw [hsub]; exact (hlinks'.header hlow hlmem).trans hlw)
      ((hlinks'.header hlow hb).trans h.header) ((hlinks'.header hlow hnmem).trans hnw)
      (by
        rw [hext] at hft ⊢
        exact (congrArg sizeField (hlinks'.footer hlmem)).trans hft)
    rw [hsub] at heq
    exact heq

theorem joins (h : OpenRow s a pre b post xs) :
    ∃ pre' post' c m heads, Joins s a pre b post xs pre' post' c m heads := by
  cases hp : b.prevAlloc with
  | true =>
    cases post with
    | nil => exact ⟨_, _, _, _, _, h.joins_neither hp (by simp)⟩
    | cons n post =>
      cases hn : n.alloc with
      | true => exact ⟨_, _, _, _, _, h.joins_neither hp (by simpa using hn)⟩
      | false =>
        obtain ⟨m, heads, hj⟩ := h.joins_next hp hn
        exact ⟨_, _, _, _, _, hj⟩
  | false =>
    obtain ⟨l, hlast, hla, hft⟩ := h.left hp
    obtain ⟨pre, rfl⟩ := List.getLast?_eq_some_iff.mp hlast
    cases post with
    | nil =>
      obtain ⟨m, heads, hj⟩ := h.joins_prev hp hla hft (by simp)
      exact ⟨_, _, _, _, _, hj⟩
    | cons n post =>
      cases hn : n.alloc with
      | true =>
        obtain ⟨m, heads, hj⟩ := h.joins_prev hp hla hft (by simpa using hn)
        exact ⟨_, _, _, _, _, hj⟩
      | false =>
        obtain ⟨m, heads, hj⟩ := h.joins_both hp hla hft hn
        exact ⟨_, _, _, _, _, hj⟩

end OpenRow

theorem update_append (f : Fin freelistCount → List Nat) (k : Fin freelistCount) (x : Nat) :
    Function.update f k (f k ++ [x]) = fun i => f i ++ if i = k then [x] else [] := by
  funext i
  by_cases hi : i = k
  · subst hi
    rw [Function.update_self, if_pos rfl]
  · rw [Function.update_of_ne hi, if_neg hi, List.append_nil]

namespace Joins

variable {s : State} {a : Nat} {pre post pre' post' : List Block} {b c : Block} {m : Mem}
  {heads : Fin freelistCount → Nat} {xs : Fin freelistCount → List Nat}

theorem row (hj : Joins s a pre b post xs pre' post' c m heads) :
    pre ++ b :: post = pre' ++ ((leftPart pre b ++ b :: rightPart post) ++ post') := by
  calc pre ++ b :: post = (pre' ++ leftPart pre b) ++ b :: (rightPart post ++ post') := by
        rw [← hj.before, ← hj.after]
    _ = pre' ++ ((leftPart pre b ++ b :: rightPart post) ++ post') := by simp

theorem part_mem (hj : Joins s a pre b post xs pre' post' c m heads) {y : Nat} {d : Block}
    (hy : (y, d) ∈ placed Block.size (a + extent Block.size pre')
      (leftPart pre b ++ b :: rightPart post)) :
    (y, d) ∈ placed Block.size a (pre ++ b :: post) := by
  rw [hj.row, placed_append, placed_append]
  exact List.mem_append_right _ (List.mem_append_left _ hy)

theorem apart (hj : Joins s a pre b post xs pre' post' c m heads) {y : Nat} {d : Block}
    (hy : (y, d) ∈ placed Block.size a (pre ++ b :: post))
    (hne : y ∉ (placed Block.size (a + extent Block.size pre')
      (leftPart pre b ++ b :: rightPart post)).map Prod.fst) :
    y + d.size ≤ a + extent Block.size pre' ∨ a + extent Block.size pre' + c.size ≤ y := by
  rw [hj.row, placed_append, placed_append, List.mem_append, List.mem_append] at hy
  rcases hy with hy | hy | hy
  · exact .inl (placed_bounds hy).2
  · exact absurd (List.mem_map_of_mem hy) hne
  · rw [hj.size]
    exact .inr (placed_bounds hy).1

theorem start_mem (h : OpenRow s a pre b post xs)
    (hj : Joins s a pre b post xs pre' post' c m heads) :
    ∃ d, (a + extent Block.size pre', d) ∈ placed Block.size a (pre ++ b :: post) ∧
      d.alloc = false ∧ d.prevAlloc = c.prevAlloc := by
  have hp := hj.prevAlloc
  have hrow := hj.row
  cases hb : b.prevAlloc with
  | true =>
    have hl : leftPart pre b = [] := by simp [leftPart, hb]
    rw [hl] at hp hrow
    refine ⟨b, ?_, h.free, hp.symm⟩
    rw [hrow]
    simp
  | false =>
    obtain ⟨l, hlast, hla, _⟩ := h.left hb
    have hl : leftPart pre b = [l] := by simp [leftPart, hb, hlast]
    rw [hl] at hp hrow
    refine ⟨l, ?_, hla, hp.symm⟩
    rw [hrow]
    simp

theorem end_mem (hj : Joins s a pre b post xs pre' post' c m heads) :
    ∃ q d, (q, d) ∈ placed Block.size a (pre ++ b :: post) ∧
      q + d.size = a + extent Block.size pre' + c.size := by
  obtain ⟨ini, d, hd⟩ : ∃ ini d, leftPart pre b ++ b :: rightPart post = ini ++ [d] :=
    ⟨_, _, (List.dropLast_append_getLast (by simp)).symm⟩
  have hrow := hj.row
  have hsize := hj.size
  rw [hd] at hrow hsize
  refine ⟨a + extent Block.size pre' + extent Block.size ini, d, ?_, ?_⟩
  · rw [hrow]
    simp
  · rw [hsize]
    simp only [extent_append, extent_cons, extent_nil]
    omega

/-- What is left of `coalesce` once the parts are off their lists: the tags of
the joined block are written and it becomes the last of its list. -/
theorem close (h : OpenRow s a pre b post xs)
    (hj : Joins s a pre b post xs pre' post' c m heads) :
    ∃ m' heads', coalesce s (a + extent Block.size pre) =
        some ({ s with mem := m', freeLists := heads' }, a + extent Block.size pre') ∧
      getw m' (a + extent Block.size pre' - 4) = c.word ∧
      getw m' (a + extent Block.size pre' + c.size - 8) = c.word ∧
      (FreeLists m' heads' fun i => ((xs i).filter fun x =>
        x ∉ (placed Block.size (a + extent Block.size pre')
          (leftPart pre b ++ b :: rightPart post)).map Prod.fst) ++
        if i = calcListIndex c.size then [a + extent Block.size pre'] else []) ∧
      RowLinks a (pre ++ b :: post) (tagMem m (a + extent Block.size pre') c) m' := by
  have hlow := h.low
  have hhigh := h.high
  have hcg := c.size_ge
  obtain ⟨d, hd, hdf, _⟩ := hj.start_mem h
  obtain ⟨q, e, he, hqe⟩ := hj.end_mem
  have heb := placed_bounds he
  -- a block that is still listed lies apart from the joined one
  have hout : ∀ i, ∀ y ∈ (xs i).filter fun x => x ∉ (placed Block.size (a + extent Block.size pre')
      (leftPart pre b ++ b :: rightPart post)).map Prod.fst,
      ∃ f, (y, f) ∈ placed Block.size a (pre ++ b :: post) ∧ f.alloc = false ∧
        (y + f.size ≤ a + extent Block.size pre' ∨ a + extent Block.size pre' + c.size ≤ y) := by
    intro i y hy
    obtain ⟨hyx, hny⟩ := List.mem_filter.mp hy
    obtain ⟨_, f, hf, hff⟩ := h.listed i y hyx
    exact ⟨f, hf, hff, hj.apart hf (by simpa using hny)⟩
  have hlists : FreeLists (tagMem m (a + extent Block.size pre') c) heads _ :=
    hj.lists.congr fun i y hy x hx hx' => by
      obtain ⟨f, hf, _, hap⟩ := hout i y hy
      have := f.size_ge
      exact tagMem_out (by omega) (by omega)
  obtain ⟨m', heads', hadd, hf, hfr⟩ := addToList_spec
    (s := { s with mem := tagMem m (a + extent Block.size pre') c, freeLists := heads })
    (calcListIndex c.size) hlists
    (by omega : 4 ≤ a + extent Block.size pre' ∧ a + extent Block.size pre' + 8 ≤ 2 ^ 32)
    (fun i y hy => by
      obtain ⟨f, hf, _, hap⟩ := hout i y hy
      have := f.size_ge
      simp only [Apart]
      omega)
  have hlinks : RowLinks a (pre ++ b :: post) (tagMem m (a + extent Block.size pre') c) m' := by
    refine fun x hx => hfr x fun y hy => ?_
    rcases List.mem_cons.mp hy with rfl | hy
    · exact hx _ d hd hdf
    · obtain ⟨f, hf, hff, _⟩ := hout _ y (List.mem_of_mem_getLast? (by simpa using hy))
      exact hx y f hf hff
  have htags := tagged_tagMem (m := m) (p := a + extent Block.size pre') (b := c)
    (by omega) (by omega)
  refine ⟨m', heads', by rw [hj.eq, hadd]; rfl, ?_, ?_, ?_, hlinks⟩
  · rw [hlinks.header hlow hd]
    exact htags.1
  · have hfoot := hlinks.footer he
    rw [hqe] at hfoot
    rw [hfoot, tagMem, getw_putw (Block.word_lt (by omega))]
  · rw [update_append] at hf
    exact hf

theorem parts_free (h : OpenRow s a pre b post xs) :
    ∀ d ∈ leftPart pre b ++ b :: rightPart post, d.alloc = false := by
  intro d hd
  rcases List.mem_append.mp hd with hd | hd
  · cases hb : b.prevAlloc with
    | true => simp [leftPart, hb] at hd
    | false =>
      obtain ⟨l, hlast, hla, _⟩ := h.left hb
      obtain rfl : d = l := by simpa [leftPart, hb, hlast] using hd
      exact hla
  · rcases List.mem_cons.mp hd with rfl | hd
    · exact h.free
    · simpa using (List.mem_filter.mp hd).2

theorem getw_eq (hj : Joins s a pre b post xs pre' post' c m heads) {m' : Mem}
    (hm : RowLinks a (pre ++ b :: post) (tagMem m (a + extent Block.size pre') c) m') (ha : 4 ≤ a)
    {y : Nat} (hy : ∀ q d, (q, d) ∈ placed Block.size a (pre ++ b :: post) → d.alloc = false →
      y + 4 ≤ q ∨ q + 8 ≤ y)
    (htag : (y + 8 ≤ a + extent Block.size pre' ∨ a + extent Block.size pre' ≤ y) ∧
      (y + 12 ≤ a + extent Block.size pre' + c.size ∨
        a + extent Block.size pre' + c.size ≤ y + 4)) : getw m' y = getw s.mem y := by
  rw [hm.getw_eq hy, getw_tagMem_ne (by omega) htag, hj.links.getw_eq hy]

end Joins

/-- A heap in order, but for the block `bp`: it is free and on no list. -/
structure OpenHeap (s : State) (bps : List Nat) (xs : Fin freelistCount → List Nat) (bp : Nat) :
    Prop where
  tags : BoundaryTagInvariant s bps
  free : s.getThisalloc bp = 0
  matching : s.getw (s.getBlockftr bp) = s.getw (State.getBlockhdr bp)
  linked : ∀ i, Linked (fun x => s.nextFree (State.memheaderFromPayload x))
    (fun x => s.prevFree (State.memheaderFromPayload x)) 0 (s.freeLists i) (xs i)
  members : ∀ i x, x ∈ xs i ↔ x ∈ bps ∧ x ≠ bp ∧ s.getThisalloc x = 0 ∧
    calcListIndex (s.getThissize x) = i

section Heaps

variable {s : State} {before after : List Nat} {bp : Nat} {xs : Fin freelistCount → List Nat}

theorem placed_map_split {bs : List Block} {a : Nat}
    (h : (placed Block.size a bs).map Prod.fst = before ++ bp :: after) :
    ∃ pre b post, bs = pre ++ b :: post ∧ before = (placed Block.size a pre).map Prod.fst ∧
      bp = a + extent Block.size pre ∧
      after = (placed Block.size (a + extent Block.size pre + b.size) post).map Prod.fst := by
  induction before generalizing a bs with
  | nil =>
    cases bs with
    | nil => simp at h
    | cons b bs =>
      obtain ⟨rfl, rfl⟩ := List.cons.inj h
      exact ⟨[], b, bs, rfl, rfl, rfl, rfl⟩
  | cons x before ih =>
    cases bs with
    | nil => simp at h
    | cons d bs =>
      obtain ⟨rfl, htail⟩ := List.cons.inj h
      obtain ⟨pre, b, post, rfl, rfl, rfl, rfl⟩ := ih htail
      exact ⟨d :: pre, b, post, rfl, rfl, by simp [Nat.add_assoc], by simp [Nat.add_assoc]⟩

theorem header_reads {x : Nat} {c : Block} (hx : 4 ≤ x) (hc : x + c.size ≤ 2 ^ 32)
    (hw : getw s.mem (x - 4) = c.word) :
    s.getThissize x = c.size ∧ s.getThisalloc x = c.alloc.toNat ∧
      s.getPrevalloc x = 2 * c.prevAlloc.toNat ∧ s.getBlockftr x = x + c.size - 8 :=
  ⟨getThissize_eq hx hc hw, getThisalloc_eq hx hc hw, getPrevalloc_eq hx hc hw,
    getBlockftr_eq hx hc hw⟩

theorem Tagged.reads {bs : List Block} {a x : Nat} {c : Block} (h : Tagged s.mem a bs)
    (ha : 4 ≤ a) (hb : a + extent Block.size bs ≤ 2 ^ 32) (hc : (x, c) ∈ placed Block.size a bs) :
    s.getThissize x = c.size ∧ s.getThisalloc x = c.alloc.toNat ∧
      s.getPrevalloc x = 2 * c.prevAlloc.toNat ∧ s.getBlockftr x = x + c.size - 8 := by
  have hbd := placed_bounds hc
  exact header_reads (by omega) (by omega) (tagged_iff.mp h x c hc).1

theorem BoundaryTagInvariant.left_free (h : BoundaryTagInvariant s (before ++ bp :: after))
    (hp : s.getPrevalloc bp = 0) : ∃ x, before.getLast? = some x ∧ s.getThisalloc x = 0 := by
  have hflags := h.flags
  have hend := h.heapEnd_lt
  have hin := h.inside bp (by simp)
  have hsz := h.sizes bp (by simp)
  cases before using List.reverseRecOn with
  | nil =>
    -- the prologue is allocated
    have h0 := (List.isChain_cons_cons.mp hflags).1 hp
    have hpro := h.prologueHdr
    simp only [wsize] at hin
    rw [State.getThisalloc, State.getAlloc, getBlockhdr_eq (by simp [dsize])
      (by simp only [dsize]; omega)] at h0
    have hd : s.heapStart + dsize - 4 = s.heapStart + wsize := by simp [dsize, wsize]
    rw [hd, hpro] at h0
    exact absurd h0 (by decide)
  | append_singleton before x =>
    have hsplit : (s.heapStart + dsize) :: (before ++ [x] ++ bp :: after) ++ [s.heapEnd + 1] =
        ((s.heapStart + dsize) :: before) ++ x :: bp :: (after ++ [s.heapEnd + 1]) := by simp
    rw [hsplit] at hflags
    exact ⟨x, by simp, (List.isChain_append_cons_cons.mp hflags).2.1 hp⟩

theorem OpenHeap.freeLists {bps : List Nat} {bs : List Block} {a : Nat}
    (h : OpenHeap s bps xs bp) (hbps : bps = (placed Block.size a bs).map Prod.fst)
    (htags : Tagged s.mem a bs) (ha : 4 ≤ a) (hb : a + extent Block.size bs ≤ 2 ^ 32) :
    FreeLists s.mem s.freeLists xs ∧ ∀ i x, x ∈ xs i ↔ x ≠ bp ∧
      ∃ c, (x, c) ∈ placed Block.size a bs ∧ c.alloc = false ∧ calcListIndex c.size = i := by
  have hmem : ∀ i x, x ∈ xs i ↔ x ≠ bp ∧
      ∃ c, (x, c) ∈ placed Block.size a bs ∧ c.alloc = false ∧ calcListIndex c.size = i := by
    intro i x
    rw [h.members i x, hbps]
    constructor
    · rintro ⟨hx, hne, hfree, hi⟩
      obtain ⟨⟨_, c⟩, hc, rfl⟩ := List.mem_map.mp hx
      obtain ⟨hsz, hal, _⟩ := htags.reads ha hb hc
      exact ⟨hne, c, hc, Bool.toNat_eq_zero.mp (hal.symm.trans hfree), by rw [← hsz]; exact hi⟩
    · rintro ⟨hne, c, hc, hfree, hi⟩
      obtain ⟨hsz, hal, _⟩ := htags.reads ha hb hc
      exact ⟨List.mem_map_of_mem hc, hne, by rw [hal, hfree]; rfl, by rw [hsz]; exact hi⟩
  have hroom : ∀ i, ∀ x ∈ xs i, 4 ≤ x ∧ x + 8 ≤ 2 ^ 32 := by
    intro i x hx
    obtain ⟨_, c, hc, _⟩ := (hmem i x).mp hx
    have := placed_bounds hc
    have := c.size_ge
    omega
  refine ⟨⟨fun i => ?_, hroom, fun i j x hx y hy => ?_, fun i j x hx hx' => ?_⟩, hmem⟩
  · refine (h.linked i).congr (fun x hx => ?_) fun x hx => ?_
    · exact (nextFree_eq (hroom i x hx).2).symm
    · exact (prevFree_eq (hroom i x hx).2).symm
  · obtain ⟨_, c, hc, _⟩ := (hmem i x).mp hx
    obtain ⟨_, d, hd, _⟩ := (hmem j y).mp hy
    have := c.size_ge
    have := d.size_ge
    have := placed_starts hc hd
    simp only [Apart]
    omega
  · have hi := ((h.members i x).mp hx).2.2.2
    have hj := ((h.members j x).mp hx').2.2.2
    rw [← hi, ← hj]

theorem OpenHeap.row (h : OpenHeap s (before ++ bp :: after) xs bp) :
    ∃ pre b post, OpenRow s (s.heapStart + 16) pre b post xs ∧
      before = (placed Block.size (s.heapStart + 16) pre).map Prod.fst ∧
      bp = s.heapStart + 16 + extent Block.size pre ∧
      after = (placed Block.size (s.heapStart + 16 + extent Block.size pre + b.size)
        post).map Prod.fst ∧
      s.heapStart + 16 + extent Block.size (pre ++ b :: post) = s.heapEnd + 1 := by
  obtain ⟨bs, hbps, htags, hext⟩ := h.tags.row
    (show bp ∈ before ++ bp :: after by simp)
  have hend := h.tags.heapEnd_lt
  obtain ⟨pre, b, post, rfl, rfl, rfl, rfl⟩ := placed_map_split hbps.symm
  obtain ⟨hlists, hmem⟩ := h.freeLists hbps htags (by omega) (by omega)
  have hb := OpenRow.mem_block (s.heapStart + 16) pre post b
  obtain ⟨hsz, hal, hpv, hft⟩ := htags.reads (by omega) (by omega) hb
  have hw := (tagged_iff.mp htags _ _ hb).1
  have hfree : b.alloc = false := Bool.toNat_eq_zero.mp (hal.symm.trans h.free)
  refine ⟨pre, b, post, ⟨by omega, by omega, fun x c hc => (tagged_iff.mp htags x c hc).1, hfree, ?_,
    fun hp => ?_, fun hpost => ?_, hlists, hmem⟩, rfl, rfl, rfl, hext⟩
  · have hmatch := h.matching
    rw [hft, State.getw, State.getw, getBlockhdr_eq (by omega) ?_, hw] at hmatch
    · exact hmatch
    · have := placed_bounds hb
      have := b.size_ge
      omega
  · obtain ⟨x, hx, hxa⟩ := h.tags.left_free (by rw [hpv, hp]; rfl)
    cases pre using List.reverseRecOn with
    | nil => simp at hx
    | append_singleton pre l =>
      have hl : (s.heapStart + 16 + extent Block.size pre, l) ∈
          placed Block.size (s.heapStart + 16) (pre ++ [l] ++ b :: post) := by simp
      have hxl : s.heapStart + 16 + extent Block.size pre = x := by simpa using hx
      obtain ⟨_, hla, _⟩ := htags.reads (by omega) (by omega) hl
      rw [hxl, hxa] at hla
      have hlf := Bool.toNat_eq_zero.mp hla.symm
      refine ⟨l, by simp, hlf, ?_⟩
      simpa [Nat.add_assoc] using (tagged_iff.mp htags _ _ hl).2 hlf
  · have hepi := h.tags.epilogue
    subst hpost
    have he : s.heapEnd - 3 = s.heapStart + 16 + extent Block.size pre + b.size - 4 := by
      simp only [extent_append, extent_cons, extent_nil] at hext
      omega
    rw [State.getAlloc, State.getw, he] at hepi
    exact hepi

end Heaps

/-- The physically previous block of `bp`, if the header of `bp` says it is free. -/
def leftNeighbour (s : State) (before : List Nat) (bp : Nat) : Option Nat :=
  if s.getPrevalloc bp = 0 then before.getLast? else none

/-- The physically next block of `bp`, if its own header says it is free. -/
def rightNeighbour (s : State) (after : List Nat) : Option Nat :=
  after.head?.filter fun n => s.getThisalloc n = 0

def constituents (s : State) (before : List Nat) (bp : Nat) (after : List Nat) : List Nat :=
  (leftNeighbour s before bp).toList ++ bp :: (rightNeighbour s after).toList

/-- The blocks `parts` of `s`, the first of them at `start`, are one free block
in `s'`, the last of its list, and nothing else has changed. -/
structure Merged (s s' : State) (bps : List Nat) (xs : Fin freelistCount → List Nat)
    (parts : List Nat) (start : Nat) : Prop where
  header : s'.getw (State.getBlockhdr start) =
    pack (parts.map s.getThissize).sum (s.getPrevalloc start)
  footer : s'.getw (s'.getBlockftr start) =
    pack (parts.map s.getThissize).sum (s.getPrevalloc start)
  lists : ∀ i, Linked (fun x => s'.nextFree (State.memheaderFromPayload x))
    (fun x => s'.prevFree (State.memheaderFromPayload x)) 0 (s'.freeLists i)
    (((xs i).filter fun x => x ∉ parts) ++
      if i = calcListIndex (parts.map s.getThissize).sum then [start] else [])
  headers : ∀ x ∈ (s.heapStart + dsize) :: bps ++ [s.heapEnd + 1], x ∉ parts →
    s'.getw (State.getBlockhdr x) = s.getw (State.getBlockhdr x)
  footers : ∀ x ∈ bps, x ∉ parts → s.getThisalloc x = 0 →
    s'.getw (s.getBlockftr x) = s.getw (s.getBlockftr x)
  prologueFtr : s'.getw (s.heapStart + 2 * wsize) = s.getw (s.heapStart + 2 * wsize)
  payloads : ∀ x ∈ bps, s.getThisalloc x ≠ 0 → ∀ y, x ≤ y →
    y + wsize < x + s.getThissize x → s'.mem y = s.mem y
  rest : s' = { s with mem := s'.mem, freeLists := s'.freeLists }

section Merge

variable {s : State} {a : Nat} {pre post pre' post' : List Block} {b c : Block} {m : Mem}
  {heads : Fin freelistCount → Nat} {xs : Fin freelistCount → List Nat}

theorem extent_eq_sum {f : Nat → Nat} {bs : List Block} {o : Nat}
    (hf : ∀ x d, (x, d) ∈ placed Block.size o bs → f x = d.size) :
    (((placed Block.size o bs).map Prod.fst).map f).sum = extent Block.size bs := by
  induction bs generalizing o with
  | nil => rfl
  | cons d bs ih =>
    have htail := ih fun x e hx => hf x e (List.mem_cons_of_mem _ hx)
    rw [placed_cons, List.map_cons, List.map_cons, List.sum_cons, htail, extent_cons,
      hf o d List.mem_cons_self]

theorem OpenRow.reads (h : OpenRow s a pre b post xs) {x : Nat} {d : Block}
    (hx : (x, d) ∈ placed Block.size a (pre ++ b :: post)) :
    s.getThissize x = d.size ∧ s.getThisalloc x = d.alloc.toNat ∧
      s.getPrevalloc x = 2 * d.prevAlloc.toNat ∧ s.getBlockftr x = x + d.size - 8 := by
  have hbd := placed_bounds hx
  have hlow := h.low
  have hhigh := h.high
  exact header_reads (by omega) (by omega) (h.headers x d hx)

/-- The neighbours that the tags show are the parts of the row. -/
theorem Joins.constituents_eq (h : OpenRow s a pre b post xs)
    (hj : Joins s a pre b post xs pre' post' c m heads) :
    constituents s ((placed Block.size a pre).map Prod.fst) (a + extent Block.size pre)
        ((placed Block.size (a + extent Block.size pre + b.size) post).map Prod.fst) =
      (placed Block.size (a + extent Block.size pre')
        (leftPart pre b ++ b :: rightPart post)).map Prod.fst ∧
    (leftNeighbour s ((placed Block.size a pre).map Prod.fst)
      (a + extent Block.size pre)).getD (a + extent Block.size pre) =
        a + extent Block.size pre' := by
  have hpv := (h.reads (OpenRow.mem_block a pre post b)).2.2.1
  have hright : (rightNeighbour s ((placed Block.size (a + extent Block.size pre + b.size)
      post).map Prod.fst)).toList =
      (placed Block.size (a + extent Block.size pre + b.size) (rightPart post)).map Prod.fst := by
    cases post with
    | nil => rfl
    | cons n post =>
      have hal := (h.reads (x := a + extent Block.size pre + b.size) (d := n) (by simp)).2.1
      cases hn : n.alloc <;> simp [rightNeighbour, rightPart, hal, hn]
  rw [constituents, hright]
  cases hb : b.prevAlloc with
  | true =>
    have hl : leftPart pre b = [] := by simp [leftPart, hb]
    obtain rfl : pre = pre' := by simpa [hl] using hj.before
    have hnone : leftNeighbour s ((placed Block.size a pre).map Prod.fst)
        (a + extent Block.size pre) = none := by simp [leftNeighbour, hpv, hb]
    rw [hnone, hl]
    exact ⟨by simp, rfl⟩
  | false =>
    obtain ⟨l, hlast, _⟩ := h.left hb
    obtain ⟨ini, rfl⟩ := List.getLast?_eq_some_iff.mp hlast
    have hl : leftPart (ini ++ [l]) b = [l] := by simp [leftPart, hb]
    have hbefore := hj.before
    rw [hl] at hbefore
    obtain rfl : ini = pre' := List.append_cancel_right hbefore
    have hsome : leftNeighbour s ((placed Block.size a (ini ++ [l])).map Prod.fst)
        (a + extent Block.size (ini ++ [l])) = some (a + extent Block.size ini) := by
      simp only [leftNeighbour, hpv, hb]
      simp
    rw [hsome, hl]
    exact ⟨by simp [Nat.add_assoc], rfl⟩

theorem Joins.within (hj : Joins s a pre b post xs pre' post' c m heads) :
    a + extent Block.size pre' + c.size ≤ a + extent Block.size (pre ++ b :: post) := by
  rw [hj.row, extent_append, extent_append, ← hj.size]
  omega

theorem Joins.sum_eq (h : OpenRow s a pre b post xs)
    (hj : Joins s a pre b post xs pre' post' c m heads) :
    (((placed Block.size (a + extent Block.size pre')
      (leftPart pre b ++ b :: rightPart post)).map Prod.fst).map s.getThissize).sum = c.size := by
  rw [hj.size]
  exact extent_eq_sum fun x d hx => (h.reads (hj.part_mem hx)).1

theorem Joins.part_free (h : OpenRow s a pre b post xs)
    (hj : Joins s a pre b post xs pre' post' c m heads) {x : Nat}
    (hx : x ∈ (placed Block.size (a + extent Block.size pre')
      (leftPart pre b ++ b :: rightPart post)).map Prod.fst) : s.getThisalloc x = 0 := by
  obtain ⟨⟨_, g⟩, hg, rfl⟩ := List.mem_map.mp hx
  obtain ⟨_, _, hparts, _⟩ := placed_split hg
  rw [(h.reads (hj.part_mem hg)).2.1, Joins.parts_free h g (by simp [hparts])]
  rfl

section Kept

variable {m' : Mem} {x : Nat}

/-- Every header that is not one of a part, those of prologue and epilogue included. -/
theorem Joins.header_kept (h : OpenRow s a pre b post xs)
    (hj : Joins s a pre b post xs pre' post' c m heads)
    (hm : RowLinks a (pre ++ b :: post) (tagMem m (a + extent Block.size pre') c) m')
    (ha : s.heapStart + 16 = a) (hend : a + extent Block.size (pre ++ b :: post) = s.heapEnd + 1)
    (hx : x ∈ (s.heapStart + dsize) :: (placed Block.size a (pre ++ b :: post)).map Prod.fst ++
      [s.heapEnd + 1])
    (hne : x ∉ (placed Block.size (a + extent Block.size pre')
      (leftPart pre b ++ b :: rightPart post)).map Prod.fst) :
    getw m' (State.getBlockhdr x) = s.getw (State.getBlockhdr x) := by
  have hlow := h.low
  have hhigh := h.high
  have hcg := c.size_ge
  have hin := hj.within
  rw [List.cons_append, List.mem_cons, List.mem_append, List.mem_singleton] at hx
  rcases hx with rfl | hx | rfl
  · rw [getBlockhdr_eq (by simp [dsize]) (by simp only [dsize]; omega)]
    simp only [dsize]
    refine hj.getw_eq hm hlow (fun q f hq _ => ?_) (by omega)
    have := (placed_bounds hq).1
    omega
  · obtain ⟨⟨x, f⟩, hxf, rfl⟩ := List.mem_map.mp hx
    have hxb := placed_bounds hxf
    have := f.size_ge
    have hap := hj.apart hxf hne
    rw [getBlockhdr_eq (by simp only; omega) (by simp only; omega)]
    exact (hm.header hlow hxf).trans
      ((getw_tagMem_ne (by omega) (by omega)).trans (hj.links.header hlow hxf))
  · have hh : State.getBlockhdr (s.heapEnd + 1) = s.heapEnd - 3 := by
      simp only [State.getBlockhdr, wsize, wsub]
      omega
    rw [hh]
    refine hj.getw_eq hm hlow (fun q f hq _ => ?_) (by omega)
    have := placed_bounds hq
    have := f.size_ge
    omega

theorem Joins.footer_kept (h : OpenRow s a pre b post xs)
    (hj : Joins s a pre b post xs pre' post' c m heads)
    (hm : RowLinks a (pre ++ b :: post) (tagMem m (a + extent Block.size pre') c) m')
    (hx : x ∈ (placed Block.size a (pre ++ b :: post)).map Prod.fst)
    (hne : x ∉ (placed Block.size (a + extent Block.size pre')
      (leftPart pre b ++ b :: rightPart post)).map Prod.fst) :
    getw m' (s.getBlockftr x) = s.getw (s.getBlockftr x) := by
  obtain ⟨⟨x, f⟩, hxf, rfl⟩ := List.mem_map.mp hx
  have hlow := h.low
  have hcg := c.size_ge
  have hxb := placed_bounds hxf
  have := f.size_ge
  have hap := hj.apart hxf hne
  rw [(h.reads hxf).2.2.2]
  exact (hm.footer hxf).trans
    ((getw_tagMem_ne (by omega) (by omega)).trans (hj.links.footer hxf))

/-- The bytes of an allocated block: it is no part, and no link word lies in it. -/
theorem Joins.payload_kept (h : OpenRow s a pre b post xs)
    (hj : Joins s a pre b post xs pre' post' c m heads)
    (hm : RowLinks a (pre ++ b :: post) (tagMem m (a + extent Block.size pre') c) m')
    (hx : x ∈ (placed Block.size a (pre ++ b :: post)).map Prod.fst) (hal : s.getThisalloc x ≠ 0)
    {y : Nat} (hy : x ≤ y) (hy' : y + wsize < x + s.getThissize x) : m' y = s.mem y := by
  have hap := mt (hj.part_free h) hal
  obtain ⟨⟨x, f⟩, hxf, rfl⟩ := List.mem_map.mp hx
  replace hap := hj.apart hxf hap
  obtain ⟨hsz, hfa, _⟩ := h.reads hxf
  simp only [hsz, wsize] at hy'
  rw [hfa] at hal
  have hlow := h.low
  have hcg := c.size_ge
  have hxb := placed_bounds hxf
  have hout : ∀ q g, (q, g) ∈ placed Block.size a (pre ++ b :: post) → g.alloc = false →
      y < q ∨ q + 8 ≤ y := by
    intro q g hq hg
    have := g.size_ge
    rcases placed_separated hxf hq with he | he | he
    · obtain ⟨rfl, rfl⟩ := Prod.mk.inj he
      exact absurd (by rw [hg]; rfl) hal
    · omega
    · omega
  exact (hm y hout).trans ((tagMem_out (by omega) (by omega)).trans (hj.links y hout))

end Kept

theorem Joins.merged (h : OpenRow s a pre b post xs)
    (hj : Joins s a pre b post xs pre' post' c m heads) (ha : s.heapStart + 16 = a)
    (hend : a + extent Block.size (pre ++ b :: post) = s.heapEnd + 1) :
    ∃ s', coalesce s (a + extent Block.size pre) = some (s', a + extent Block.size pre') ∧
      Merged s s' ((placed Block.size a (pre ++ b :: post)).map Prod.fst) xs
        ((placed Block.size (a + extent Block.size pre')
          (leftPart pre b ++ b :: rightPart post)).map Prod.fst) (a + extent Block.size pre') := by
  obtain ⟨m', heads', he, hhdr, hftr, hf, hm⟩ := hj.close h
  have hlow := h.low
  have hhigh := h.high
  have hcg := c.size_ge
  have hin := hj.within
  obtain ⟨d, hd, _, hdp⟩ := hj.start_mem h
  have hword : pack c.size (s.getPrevalloc (a + extent Block.size pre')) = c.word := by
    rw [(h.reads hd).2.2.1, hdp]
    exact Block.pack_free hj.free
  have hblockftr := @getBlockftr_eq { s with mem := m', freeLists := heads' }
    (a + extent Block.size pre') c (by omega) (by omega) hhdr
  refine ⟨_, he, ⟨?_, ?_, fun i => ?_, fun x => hj.header_kept h hm ha hend,
    fun x hx hne _ => hj.footer_kept h hm hx hne, ?_, fun x hx hal y => hj.payload_kept h hm hx hal,
    rfl⟩⟩
  · rw [hj.sum_eq h, hword, getBlockhdr_eq (by omega) (by omega)]
    exact hhdr
  · rw [hj.sum_eq h, hword, hblockftr]
    exact hftr
  · rw [hj.sum_eq h]
    exact FreeLists.linked_headers (s := { s with mem := m', freeLists := heads' }) hf i
  · simp only [wsize]
    refine hj.getw_eq hm hlow (fun q f hq _ => ?_) (by omega)
    have := (placed_bounds hq).1
    omega

end Merge

/-- On every heap in order, but for a free block `bp` that is on no list,
`coalesce` merges `bp` with its free neighbours into one free block at the end of
its list, and changes no other tag, no other order and no allocated byte. -/
theorem coalesce_merges {s : State} {before after : List Nat} {bp : Nat}
    {xs : Fin freelistCount → List Nat} (h : OpenHeap s (before ++ bp :: after) xs bp) :
    ∃ s', coalesce s bp = some (s', (leftNeighbour s before bp).getD bp) ∧
      Merged s s' (before ++ bp :: after) xs (constituents s before bp after)
        ((leftNeighbour s before bp).getD bp) := by
  obtain ⟨pre, b, post, hrow, rfl, rfl, rfl, hend⟩ := h.row
  obtain ⟨pre', post', c, m, heads, hj⟩ := hrow.joins
  obtain ⟨hparts, hstart⟩ := hj.constituents_eq hrow
  obtain ⟨s', he, hm⟩ := hj.merged hrow rfl hend
  rw [hparts, hstart]
  refine ⟨s', he, ?_⟩
  rw [placed_append, placed_cons, List.map_append, List.map_cons] at hm
  exact hm

/-- Two free blocks of 16 bytes; the first is listed. -/
def pairHeap : State where
  mem := [(4096, 0x8BADF00D), (4100, 11), (4104, 11), (4108, 18), (4120, 18), (4124, 16), (4136, 16),
    (4140, 0xEA7F00D1)].foldl (fun m w => putw m w.1 w.2) fun _ => 0
  memStartBrk := 4096
  memBrk := 4144
  memMaxAddr := 4096 + maxHeap
  heapStart := 4096
  heapEnd := 4143
  freeLists := fun i => if i = 4 then 4112 else 0
  pageSize := 0
  adjustedPagesize := 0

theorem pairHeap_walk : heapWalk pairHeap = some [4112, 4128] := by
  have hend : wadd pairHeap.heapEnd 1 = 4144 := by decide
  have h1 : pairHeap.getNextblock 4112 = 4128 := by decide
  have h2 : pairHeap.getNextblock 4128 = 4144 := by decide
  rw [heapWalk, show wadd pairHeap.heapStart (4 * wsize) = 4112 by decide,
    show 2 ^ 32 = 2 ^ 32 - 3 + 1 + 1 + 1 by decide, heapWalkLoop, heapWalkLoop, heapWalkLoop, hend,
    h1, h2]
  rfl

theorem mem_pairLists {i : Fin freelistCount} {x : Nat} :
    x ∈ (if i = 4 then [4112] else []) ↔ i = 4 ∧ x = 4112 := by
  by_cases hi : i = 4
  · simp [hi]
  · simp [hi]

theorem pairHeap_freeLists :
    FreeLists pairHeap.mem pairHeap.freeLists (fun i => if i = 4 then [4112] else []) := by
  refine ⟨fun i => ?_, fun i x hx => ?_, fun i j x hx y hy => ?_, fun i j x hx hy => ?_⟩
  · by_cases hi : i = 4
    · subst hi
      exact ⟨by decide, by decide, by decide, by decide⟩
    · have h0 : pairHeap.freeLists i = 0 := if_neg hi
      rw [h0, if_neg hi]
      exact Linked.nil _ _ _
  · rw [(mem_pairLists.mp hx).2]
    decide
  · rw [(mem_pairLists.mp hx).2, (mem_pairLists.mp hy).2]
    exact .inl rfl
  · rw [(mem_pairLists.mp hx).1, (mem_pairLists.mp hy).1]

theorem pairHeap_open :
    OpenHeap pairHeap ([4112] ++ 4128 :: []) (fun i => if i = 4 then [4112] else []) 4128 := by
  refine ⟨⟨by decide, by decide, by decide, by decide, pairHeap_walk, by decide, by decide, by decide,
    by decide, by decide⟩, by decide, by decide, pairHeap_freeLists.linked_headers, fun i x => ?_⟩
  have hc : calcListIndex (pairHeap.getThissize 4112) = 4 := by decide
  rw [mem_pairLists]
  constructor
  · rintro ⟨rfl, rfl⟩
    exact ⟨by decide, by decide, by decide, hc⟩
  · rintro ⟨hx, hne, _, hi⟩
    obtain rfl : x = 4112 := by simpa [hne] using hx
    exact ⟨hi.symm.trans hc, rfl⟩

theorem coalesce_merges_pair :
    ∃ s', coalesce pairHeap 4128 = some (s', 4112) ∧
      Merged pairHeap s' [4112, 4128] (fun i => if i = 4 then [4112] else []) [4112, 4128] 4112 := by
  have hl : leftNeighbour pairHeap [4112] 4128 = some 4112 := by decide
  have hparts : constituents pairHeap [4112] 4128 [] = [4112, 4128] := by decide
  have hm := coalesce_merges pairHeap_open
  rw [hl, hparts] at hm
  exact hm

end CsoMalloc
