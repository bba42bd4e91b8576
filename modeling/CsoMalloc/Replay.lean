import CsoMalloc.Contract
import CsoMalloc.Mdriver

/-! Traces, the blocks a trace has in use, and the runs of the allocator that a
replay of the trace makes. -/

namespace CsoMalloc

open ByteMemory

namespace TraceOp

/-- The operation may follow those in `done`: its id is in range, was allocated
before it is passed back and has not been freed, and its size is between 1 and
`MAX_HEAP`. -/
structure Allowed (numIds : Int) (done : List TraceOp) (op : TraceOp) : Prop where
  index : 0 ≤ op.index ∧ op.index < numIds
  size : op.type ≠ .free → 1 ≤ op.size ∧ op.size ≤ maxHeap
  allocated : op.type ≠ .alloc → ∃ a ∈ done, a.type = .alloc ∧ a.index = op.index
  notFreed : ∀ a ∈ done, a.type = .free → a.index ≠ op.index

instance (numIds : Int) (done : List TraceOp) (op : TraceOp) :
    Decidable (op.Allowed numIds done) :=
  decidable_of_iff ((0 ≤ op.index ∧ op.index < numIds) ∧
    (op.type ≠ .free → 1 ≤ op.size ∧ op.size ≤ maxHeap) ∧
    (op.type ≠ .alloc → ∃ a ∈ done, a.type = .alloc ∧ a.index = op.index) ∧
    ∀ a ∈ done, a.type = .free → a.index ≠ op.index)
    ⟨fun ⟨h₁, h₂, h₃, h₄⟩ => ⟨h₁, h₂, h₃, h₄⟩, fun h => ⟨h.1, h.2, h.3, h.4⟩⟩

def Sequence (numIds : Int) : List TraceOp → List TraceOp → Prop
  | _, [] => True
  | done, op :: ops => op.Allowed numIds done ∧ Sequence numIds (done ++ [op]) ops

instance decidableSequence (numIds : Int) : ∀ done ops, Decidable (Sequence numIds done ops)
  | _, [] => inferInstanceAs (Decidable True)
  | done, op :: ops => @instDecidableAnd _ _ _ (decidableSequence numIds (done ++ [op]) ops)

/-- The effect of an operation on the blocks in use, each with its id and the
size asked for, the newest first. An id that is allocated twice keeps both
blocks; only the newer one is passed back. -/
def advance (op : TraceOp) (blocks : List (Int × Int)) : List (Int × Int) :=
  match op.type with
  | .alloc => (op.index, op.size) :: blocks
  | .realloc => (op.index, op.size) :: blocks.eraseP fun b => b.1 = op.index
  | .free => blocks.eraseP fun b => b.1 = op.index

end TraceOp

def Trace.WellFormed (t : Trace) : Prop := TraceOp.Sequence t.numIds [] t.ops

instance (t : Trace) : Decidable t.WellFormed :=
  inferInstanceAs (Decidable (TraceOp.Sequence t.numIds [] t.ops))

def inUse (ops : List TraceOp) : List (Int × Int) := ops.foldl (fun bs op => op.advance bs) []

@[simp] theorem inUse_nil : inUse [] = [] := rfl

@[simp] theorem inUse_append (ops : List TraceOp) (op : TraceOp) :
    inUse (ops ++ [op]) = op.advance (inUse ops) := by
  simp [inUse]

section Lists

variable {α β : Type*} {p : α → Bool} {xs : List α} {x : α}

theorem eraseP_eq_filter [DecidableEq β] {f : α → β} (hn : (xs.map f).Nodup)
    (hx : xs.find? p = some x) : xs.eraseP p = xs.filter fun y => f y ≠ f x := by
  induction xs with
  | nil => simp at hx
  | cons y xs ih =>
    obtain ⟨hy, hn⟩ := List.nodup_cons.mp hn
    by_cases hp : p y
    · obtain rfl : y = x := by simpa [hp] using hx
      have hall : ∀ z ∈ xs, f z ≠ f y := fun z hz he => hy (he ▸ List.mem_map_of_mem hz)
      rw [List.eraseP_cons_of_pos hp, List.filter_cons_of_neg (by simp), List.filter_eq_self.mpr]
      simpa using hall
    · have hx' : xs.find? p = some x := by simpa [hp] using hx
      have hne : f y ≠ f x := fun he => hy (he ▸ List.mem_map_of_mem (List.mem_of_find?_eq_some hx'))
      rw [List.eraseP_cons_of_neg hp, List.filter_cons_of_pos (by simpa using hne), ih hn hx']

theorem find?_eraseP {q : α → Bool} (hq : ∀ y ∈ xs, p y → q y = false) :
    (xs.eraseP p).find? q = xs.find? q := by
  induction xs with
  | nil => rfl
  | cons y xs ih =>
    have hxs := ih fun z hz => hq z (List.mem_cons_of_mem _ hz)
    by_cases hp : p y
    · rw [List.eraseP_cons_of_pos hp, List.find?_cons_of_neg (by simp [hq y List.mem_cons_self hp])]
    · rw [List.eraseP_cons_of_neg hp, List.find?_cons, List.find?_cons, hxs]

theorem find?_eraseP_ne [DecidableEq β] {key : α → β} {i j : β} (h : j ≠ i) (xs : List α) :
    (xs.eraseP fun y => key y = i).find? (fun y => key y = j) = xs.find? fun y => key y = j := by
  refine find?_eraseP fun y _ hy => ?_
  simp only [decide_eq_true_eq] at hy
  simpa [hy] using h.symm

end Lists

theorem mem_inUse {ops : List TraceOp} {i : Int} (ha : ∃ a ∈ ops, a.type = .alloc ∧ a.index = i)
    (hf : ∀ a ∈ ops, a.type = .free → a.index ≠ i) : ∃ b ∈ inUse ops, b.1 = i := by
  induction ops using List.reverseRecOn with
  | nil => simp at ha
  | append_singleton ops op ih =>
    -- a block of the id, once there, stays until the id is freed
    have hkeep : (∃ b ∈ inUse ops, b.1 = i) → ∃ b ∈ inUse (ops ++ [op]), b.1 = i := by
      rintro ⟨b, hb, rfl⟩
      have hother : op.index ≠ b.1 → b ∈ (inUse ops).eraseP fun c => c.1 = op.index := fun hne =>
        (List.mem_eraseP_of_neg (by simpa using fun e => hne e.symm)).mpr hb
      rw [inUse_append, TraceOp.advance]
      cases ht : op.type with
      | alloc => exact ⟨b, List.mem_cons_of_mem _ hb, rfl⟩
      | realloc =>
        by_cases he : op.index = b.1
        · exact ⟨_, List.mem_cons_self, he⟩
        · exact ⟨b, List.mem_cons_of_mem _ (hother he), rfl⟩
      | free => exact ⟨b, hother (hf op (by simp) ht), rfl⟩
    obtain ⟨a, ha, hat, hai⟩ := ha
    rcases List.mem_append.mp ha with ha | ha
    · exact hkeep (ih ⟨a, ha, hat, hai⟩ fun c hc => hf c (List.mem_append_left _ hc))
    · obtain rfl := List.mem_singleton.mp ha
      exact ⟨_, by rw [inUse_append, TraceOp.advance, hat]; exact List.mem_cons_self, hai⟩

/-- The world of the allocator that a replay has reached after `done`: `held`
pairs the live blocks with the ids they were allocated for, and the arrays of
the trace know the newest block of every id not freed. -/
structure Tracks (E : Env) (done : List TraceOp) (rs : List Request) (w : World) (held : List (Int × Live))
    (blocks blockSizes : Int → Nat) : Prop where
  run : Run E rs w
  live : w.live = held.map Prod.snd
  inUse : inUse done = held.map fun g => (g.1, (g.2.size : Int))
  current : ∀ i, (∀ a ∈ done, a.type = .free → a.index ≠ i) →
    ∀ g, held.find? (fun g => g.1 = i) = some g → blocks i = g.2.ptr ∧ blockSizes i = g.2.size

namespace Tracks

variable {E : Env} {numIds : Int} {done : List TraceOp} {op : TraceOp} {rs rs' : List Request} {w w' : World}
  {held : List (Int × Live)} {blocks blockSizes : Int → Nat}

theorem init {s s' : State} (h : mmInit E.base E.pageSize s = some (s', 0)) :
    Tracks E [] [] ⟨s', [], []⟩ [] blocks blockSizes :=
  ⟨.init h, rfl, rfl, by simp⟩

theorem find (h : Tracks E done rs w held blocks blockSizes) (hop : op.Allowed numIds done)
    (ht : op.type ≠ .alloc) :
    ∃ b ∈ w.live, held.find? (fun g => g.1 = op.index) = some (op.index, b) ∧
      blocks op.index = b.ptr ∧ blockSizes op.index = b.size := by
  obtain ⟨c, hc, hci⟩ := mem_inUse (hop.allocated ht) hop.notFreed
  rw [h.inUse] at hc
  obtain ⟨g, hg, rfl⟩ := List.mem_map.mp hc
  cases hf : held.find? fun g => g.1 = op.index with
  | none => exact absurd hci (by simpa using List.find?_eq_none.mp hf g hg)
  | some x =>
    have hx : x.1 = op.index := by simpa using List.find?_some hf
    refine ⟨x.2, ?_, by rw [← hx], h.current _ hop.notFreed x hf⟩
    rw [h.live]
    exact List.mem_map_of_mem (List.mem_of_find?_eq_some hf)

theorem ids_nodup (h : Tracks E done rs w held blocks blockSizes) :
    (held.map fun g => g.2.id).Nodup := by
  obtain ⟨hm, hwf⟩ := h.run.matches
  have hids := hm.ids_nodup hwf
  rw [h.live, List.map_map] at hids
  exact hids

theorem drop_eq (h : Tracks E done rs w held blocks blockSizes) {i : Int} {b : Live}
    (hf : held.find? (fun g => g.1 = i) = some (i, b)) :
    Live.drop w.live b.id = (held.eraseP fun g => g.1 = i).map Prod.snd := by
  rw [eraseP_eq_filter h.ids_nodup hf, h.live, Live.drop, List.filter_map]
  rfl

theorem eraseP_map (i : Int) (held : List (Int × Live)) :
    (held.map fun g => (g.1, (g.2.size : Int))).eraseP (fun b => b.1 = i) =
      (held.eraseP fun g => g.1 = i).map fun g => (g.1, (g.2.size : Int)) := by
  rw [List.eraseP_map]
  rfl

/-- The world after an allocating operation, where `rest` are the blocks kept. -/
theorem push (h : Tracks E done rs w held blocks blockSizes) {rest : List (Int × Live)} {b : Live}
    (hr : Run E rs' w') (hl : w'.live = b :: rest.map Prod.snd)
    (hu : op.advance (CsoMalloc.inUse done) =
      (op.index, (b.size : Int)) :: rest.map fun g => (g.1, (g.2.size : Int)))
    (hc : ∀ j, j ≠ op.index → rest.find? (fun g => g.1 = j) = held.find? fun g => g.1 = j) :
    Tracks E (done ++ [op]) rs' w' ((op.index, b) :: rest) (Function.update blocks op.index b.ptr)
      (Function.update blockSizes op.index b.size) := by
  refine ⟨hr, hl, by rw [inUse_append, hu]; rfl, fun i hi g hg => ?_⟩
  by_cases he : i = op.index
  · subst he
    obtain rfl : (op.index, b) = g := by simpa using hg
    simp
  · rw [Function.update_of_ne he, Function.update_of_ne he]
    refine h.current i (fun a ha => hi a (List.mem_append_left _ ha)) g ?_
    rw [← hc i he]
    simpa [List.find?_cons, Ne.symm he] using hg

theorem find_live (h : Tracks E done rs w held blocks blockSizes) {b : Live} (hb : b ∈ w.live) :
    Live.find w.live b.id = some b := by
  obtain ⟨hm, hwf⟩ := h.run.matches
  exact hm.find_live hwf hb

/-- The bytes of the given blocks are the same in both memories. -/
def Same (held : List (Int × Live)) (m m' : Mem) : Prop :=
  ∀ g ∈ held, ∀ j < g.2.size, m' (g.2.ptr + j) = m (g.2.ptr + j)

theorem size_eq (hop : op.Allowed numIds done) (ht : op.type ≠ .free) :
    ((word op.size : Nat) : Int) = op.size ∧ word op.size ≤ maxHeap ∧ 0 < word op.size := by
  have hs := hop.size ht
  have := maxHeap_eq
  rw [word_eq (by omega) (by omega)]
  omega

theorem alloc (h : Tracks E done rs w held blocks blockSizes) (hop : op.Allowed numIds done)
    (ht : op.type = .alloc) :
    ∃ s p, mmMalloc w.heap (word op.size) = some (s, p) ∧ (p ≠ 0 → ∃ w' b,
      Tracks E (done ++ [op]) (rs ++ [.malloc (word op.size)]) w' ((op.index, b) :: held)
        (Function.update blocks op.index p) (Function.update blockSizes op.index (word op.size)) ∧
      w'.heap = s ∧ b.ptr = p ∧ b.size = word op.size ∧ Same held w.heap.mem s.mem ∧
      w.heap.memHeapsize ≤ s.memHeapsize) := by
  obtain ⟨hsz, hmax, _⟩ := size_eq hop (by simp [ht])
  obtain ⟨w', he, hr', hgrow, hk⟩ := h.run.step (q := .malloc (word op.size)) hmax
  obtain ⟨s, p, hm, rfl, hl⟩ := World.call_malloc_inv he
  refine ⟨w'.heap, p, hm, fun hp => ⟨w', ⟨w.log.length, p, word op.size⟩, ?_, rfl, rfl, rfl,
    fun g hg => hk g.2 ?_ (by simp [Request.arg]), hgrow⟩⟩
  · refine h.push hr' ?_ ?_ fun _ _ => rfl
    · rw [hl hp, h.live]
    · simp only [TraceOp.advance, ht, h.inUse, hsz]
  · rw [h.live]
    exact List.mem_map_of_mem hg

theorem realloc (h : Tracks E done rs w held blocks blockSizes) (hop : op.Allowed numIds done)
    (ht : op.type = .realloc) :
    ∃ c ∈ w.live, held.find? (fun g => g.1 = op.index) = some (op.index, c) ∧
      blocks op.index = c.ptr ∧ blockSizes op.index = c.size ∧
    ∃ s p, mmRealloc w.heap c.ptr (word op.size) = some (s, p) ∧ (p ≠ 0 → ∃ w' b,
      Tracks E (done ++ [op]) (rs ++ [.realloc c.id (word op.size)]) w'
        ((op.index, b) :: held.eraseP fun g => g.1 = op.index)
        (Function.update blocks op.index p) (Function.update blockSizes op.index (word op.size)) ∧
      w'.heap = s ∧ b.ptr = p ∧ b.size = word op.size ∧
      Same (held.eraseP fun g => g.1 = op.index) w.heap.mem s.mem ∧
      w.heap.memHeapsize ≤ s.memHeapsize ∧
      ∀ j, j < word op.size → j < c.size → s.mem (p + j) = w.heap.mem (c.ptr + j)) := by
  obtain ⟨hsz, hmax, _⟩ := size_eq hop (by simp [ht])
  obtain ⟨c, hc, hf, hptr, hsize⟩ := h.find hop (by simp [ht])
  obtain ⟨w', he, hr', hgrow, hk⟩ := h.run.step (q := .realloc c.id (word op.size))
    ⟨hmax, c, hc, rfl⟩
  obtain ⟨s, p, hm, rfl, hl⟩ := World.call_realloc_inv (h.find_live hc) he
  have hrest : ∀ g ∈ held.eraseP fun g => g.1 = op.index, g.2 ∈ w.live ∧ g.2.id ≠ c.id := by
    intro g hg
    exact Live.mem_drop.mp (h.drop_eq hf ▸ List.mem_map_of_mem hg)
  refine ⟨c, hc, hf, hptr, hsize, w'.heap, p, hm, fun hp =>
    ⟨w', ⟨w.log.length, p, word op.size⟩, ?_, rfl, rfl, rfl, fun g hg => ?_, hgrow,
      h.run.realloc_copies hc hmax hm hp⟩⟩
  · refine h.push hr' ?_ ?_ fun j hj => find?_eraseP_ne hj held
    · rw [hl hp, h.drop_eq hf]
    · simp only [TraceOp.advance, ht, h.inUse, hsz, eraseP_map]
  · refine hk g.2 (hrest g hg).1 fun hid => (hrest g hg).2 ?_
    exact (Option.some.inj hid).symm

theorem free (h : Tracks E done rs w held blocks blockSizes) (hop : op.Allowed numIds done)
    (ht : op.type = .free) :
    ∃ c ∈ w.live, held.find? (fun g => g.1 = op.index) = some (op.index, c) ∧
      blocks op.index = c.ptr ∧ blockSizes op.index = c.size ∧
    ∃ s w', mmFree w.heap c.ptr = some s ∧
      Tracks E (done ++ [op]) (rs ++ [.free c.id]) w' (held.eraseP fun g => g.1 = op.index)
        blocks blockSizes ∧
      w'.heap = s ∧ Same (held.eraseP fun g => g.1 = op.index) w.heap.mem s.mem ∧
      w.heap.memHeapsize ≤ s.memHeapsize := by
  obtain ⟨c, hc, hf, hptr, hsize⟩ := h.find hop (by simp [ht])
  obtain ⟨w', he, hr', hgrow, hk⟩ := h.run.step (q := .free c.id) ⟨c, hc, rfl⟩
  obtain ⟨s, hm, rfl, hl⟩ := World.call_free_inv (h.find_live hc) he
  refine ⟨c, hc, hf, hptr, hsize, w'.heap, w', hm, ⟨hr', ?_, ?_, fun i hi g hg => ?_⟩, rfl,
    fun g hg => ?_, hgrow⟩
  · rw [hl, h.drop_eq hf]
  · rw [inUse_append, h.inUse]
    simp only [TraceOp.advance, ht, eraseP_map]
  · have hne : i ≠ op.index := (hi op (by simp) ht).symm
    rw [find?_eraseP_ne hne] at hg
    exact h.current i (fun a ha => hi a (List.mem_append_left _ ha)) g hg
  · obtain ⟨hgl, hid⟩ := Live.mem_drop.mp (h.drop_eq hf ▸ List.mem_map_of_mem hg)
    exact hk g.2 hgl fun he => hid (Option.some.inj he).symm

end Tracks

end CsoMalloc
