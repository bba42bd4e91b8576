import CsoMalloc.RangeList
import CsoMalloc.Replay

/-! Which traces `eval_mm_valid` accepts. The allocator never gives it a reason
to object; the comparison of the copied bytes does, since a `char` is signed. -/

namespace CsoMalloc

open ByteMemory

/-- The record that `add_range` makes for a live block. -/
def Live.range (b : Live) : Range := ⟨b.ptr, b.ptr + b.size - 1⟩

/-- The byte that the driver fills the blocks of an id with. -/
def fillByte (index : Int) : UInt8 := UInt8.ofNat (word index &&& 0xFF)

section Ranges

variable {E : Env} {rs : List Request} {w : World}

theorem removeRange_eq (ranges : List Range) (lo : Nat) :
    removeRange ranges lo = ranges.eraseP fun r => r.lo = lo := by
  induction ranges with
  | nil => rfl
  | cons r ranges ih =>
    rw [removeRange]
    split
    · next h => rw [List.eraseP_cons_of_pos (by simpa using h)]
    · next h => rw [List.eraseP_cons_of_neg (by simpa using h), ih]

theorem Run.removeRange_live (h : Run E rs w) {c : Live} (hc : c ∈ w.live) :
    removeRange (w.live.map Live.range) c.ptr = (Live.drop w.live c.id).map Live.range := by
  obtain ⟨hm, hwf⟩ := h.matches
  have hptrs := hm.ptrs_nodup hwf
  have hfind : w.live.find? (fun b => b.ptr = c.ptr) = some c := by
    cases hf : w.live.find? fun b => b.ptr = c.ptr with
    | none => exact absurd (decide_eq_true rfl) (List.find?_eq_none.mp hf c hc)
    | some b =>
      have hb : b.ptr = c.ptr := by simpa using List.find?_some hf
      rw [List.inj_on_of_nodup_map hptrs (List.mem_of_find?_eq_some hf) hc hb]
  have herase : (w.live.map Live.range).eraseP (fun r => r.lo = c.ptr) =
      (w.live.eraseP fun b => b.ptr = c.ptr).map Live.range := by
    rw [List.eraseP_map]
    rfl
  rw [removeRange_eq, herase, eraseP_eq_filter (hm.ids_nodup hwf) hfind]
  rfl

theorem Run.addRange_live (h : Run E rs w) {b : Live} {rest : List Live} {size : Int}
    (hl : w.live = b :: rest) (hs : size = b.size) :
    addRange w.heap.memHeapLo w.heap.memHeapHi (rest.map Live.range) b.ptr size =
      some (w.live.map Live.range, none) := by
  obtain ⟨hm, hwf⟩ := h.matches
  have hb : b ∈ w.live := hl ▸ List.mem_cons_self
  have hown := hm.own hwf hb
  have hpos : ∀ c ∈ w.live, 0 < c.size := fun c hc => by
    obtain ⟨_, _, _, _, _, hpos⟩ := hm.live_span hwf hc
    exact hpos
  have hsize := hpos b hb
  have hhi : w.heap.memHeapHi < 2 ^ 32 := Nat.mod_lt _ (by decide)
  have hbelow := hown.below
  have hlarge : size < 2 ^ 31 := by
    obtain ⟨o, k, _, hk, hk', _⟩ := hm.live_span hwf hb
    have := (spans_bounds hk).2.1
    have hfit := hwf.layout.fits
    have := maxHeap_eq
    simp only [Layout.heapsize] at hfit
    omega
  have hnot : ¬ EndsCaught w.heap.memHeapLo w.heap.memHeapHi (rest.map Live.range) b.ptr size := by
    refine not_endsCaught hhi (by omega) hlarge hown.aligned
      ((payload_subset (by omega)).mpr ⟨hown.above, by omega⟩) fun r hr => ?_
    obtain ⟨c, hc, rfl⟩ := List.mem_map.mp hr
    have hcl : c ∈ w.live := hl ▸ List.mem_cons_of_mem _ hc
    have hne : c ≠ b := by
      rintro rfl
      have hnd := (hm.ptrs_nodup hwf).of_map
      rw [hl] at hnd
      exact (List.nodup_cons.mp hnd).1 hc
    have hclear := hown.others c hcl hne
    have := hpos c hcl
    simp only [Clear] at hclear
    refine (payload_disjoint (by omega) ?_).mpr ?_
    · simp only [Live.range]
      omega
    · simp only [Live.range]
      omega
  have hlast : lastAddress b.ptr size + 1 = b.ptr + size.toNat :=
    lastAddress_eq (by omega) hlarge (by omega)
  have hr : (⟨b.ptr, lastAddress b.ptr size⟩ : Range) = b.range := by
    simp only [Live.range, Range.mk.injEq, true_and]
    omega
  rw [addRange_free (by omega) hnot, hr, hl]
  rfl

end Ranges

section Bytes

theorem word_mod (i : Int) : (word i % 256 : Nat) = i % 256 := by
  rw [word]
  omega

theorem fillByte_toNat (i : Int) : (fillByte i).toNat = word i % 256 := by
  have hand : word i &&& 0xFF = word i % 256 := Nat.and_two_pow_sub_one_eq_mod (word i) 8
  rw [fillByte, hand, UInt8.toNat_ofNat']
  omega

/-- The byte compares equal to the number it was made from unless its sign bit
is set. -/
theorem charToInt_fillByte (i : Int) :
    charToInt (fillByte i) = ((word i &&& 0xFF : Nat) : Int) ↔ i % 256 < 128 := by
  have hand : word i &&& 0xFF = word i % 256 := Nat.and_two_pow_sub_one_eq_mod (word i) 8
  have hmod := word_mod i
  rw [hand, charToInt, fillByte_toNat]
  split <;> omega

theorem preserved_eq {m : Mem} {p k : Nat} {i : Int} (hk : 0 < k) (hp : p + k ≤ 2 ^ 32)
    (hm : ∀ j < k, m (p + j) = fillByte i) : preserved m p i k = decide (i % 256 < 128) := by
  have hbyte : ∀ j ∈ List.range k, m (wadd p j) = fillByte i := by
    intro j hj
    have := List.mem_range.mp hj
    rw [wadd_eq (by omega), hm j this]
  rw [preserved, Int.toNat_natCast]
  by_cases hi : i % 256 < 128
  · rw [decide_eq_true hi, List.all_eq_true]
    intro j hj
    rw [hbyte j hj]
    exact decide_eq_true ((charToInt_fillByte i).mpr hi)
  · rw [decide_eq_false hi, List.all_eq_false]
    refine ⟨0, List.mem_range.mpr hk, ?_⟩
    rw [hbyte 0 (List.mem_range.mpr hk)]
    simpa [charToInt_fillByte] using hi

end Bytes

section Operations

variable {tracenum : Int} {i : Nat} {op : TraceOp} {d d' : Driver} {s : State} {p : Nat}

theorem Driver.addRange_eq {ranges : List Range} {size : Int}
    (h : CsoMalloc.addRange d.heap.memHeapLo d.heap.memHeapHi d.ranges p size =
      some (ranges, none)) :
    d.addRange p size tracenum i = some ({ d with ranges := ranges }, true) := by
  rw [Driver.addRange, h]
  rfl

theorem validOp_alloc (ht : op.type = .alloc)
    (he : mmMalloc d.heap (word op.size) = some (s, p)) (hp : p ≠ 0)
    (ha : Driver.addRange { d with heap := s } p op.size tracenum i = some (d', true)) :
    validOp tracenum i op d = some (d'.remember op.index p op.size, true) := by
  rw [validOp, ht]
  dsimp only
  rw [he, Option.bind_eq_bind, Option.bind_some]
  dsimp only
  rw [if_neg hp, ha]
  rfl

theorem validOp_realloc (ht : op.type = .realloc)
    (he : mmRealloc d.heap (d.blocks op.index) (word op.size) = some (s, p)) (hp : p ≠ 0)
    (ha : Driver.addRange { d with heap := s, ranges := removeRange d.ranges (d.blocks op.index) }
      p op.size tracenum i = some (d', true)) {k : Int}
    (hk : (if op.size < toInt (d'.blockSizes op.index) then op.size
      else toInt (d'.blockSizes op.index)) = k) :
    validOp tracenum i op d = if preserved d'.heap.mem p op.index k
      then some (d'.remember op.index p op.size, true)
      else some (d'.mallocError tracenum i .notPreserved, false) := by
  rw [validOp, ht]
  dsimp only
  rw [he, Option.bind_eq_bind, Option.bind_some]
  dsimp only
  rw [if_neg hp, ha, Option.bind_eq_bind, Option.bind_some]
  dsimp only
  rw [hk]
  cases preserved d'.heap.mem p op.index k with
  | false => rfl
  | true => rfl

theorem validOp_free (ht : op.type = .free)
    (he : mmFree d.heap (d.blocks op.index) = some s) :
    validOp tracenum i op d =
      some ({ d with heap := s, ranges := removeRange d.ranges (d.blocks op.index) }, true) := by
  rw [validOp, ht]
  dsimp only
  rw [he, Option.bind_eq_bind, Option.bind_some]
  rfl

end Operations

/-- What holds of the driver after the operations `done` of a replay: the range
list describes the live blocks, and each is filled with its id. -/
structure DriverInvariant (E : Env) (done : List TraceOp) (rs : List Request) (d : Driver)
    (w : World) (held : List (Int × Live)) : Prop where
  tracks : Tracks E done rs w held d.blocks d.blockSizes
  heap : w.heap = d.heap
  ranges : d.ranges = w.live.map Live.range
  filled : ∀ g ∈ held, ∀ j < g.2.size, d.heap.mem (g.2.ptr + j) = fillByte g.1

section Steps

variable {E : Env} {numIds tracenum : Int} {i : Nat} {done : List TraceOp} {op : TraceOp}
  {rs rs' : List Request} {d d' : Driver} {s : State} {p : Nat} {w w' : World}
  {held rest : List (Int × Live)} {b : Live}

theorem DriverInvariant.remember
    (ht : Tracks E (done ++ [op]) rs' w' ((op.index, b) :: rest)
      (Function.update d.blocks op.index p) (Function.update d.blockSizes op.index (word op.size)))
    (hheap : w'.heap = d.heap) (hp : b.ptr = p) (hb : b.size = word op.size)
    (hr : d.ranges = w'.live.map Live.range)
    (hf : ∀ g ∈ rest, ∀ j < g.2.size, d.heap.mem (g.2.ptr + j) = fillByte g.1) :
    ∃ w, DriverInvariant E (done ++ [op]) rs' (d.remember op.index p op.size) w
      ((op.index, b) :: rest) := by
  obtain ⟨hm, hwf⟩ := ht.run.matches
  have hbl : b ∈ w'.live := ht.live ▸ List.mem_cons_self
  have hout : ∀ a, (∀ c ∈ w'.live, a < c.ptr ∨ c.ptr + c.size ≤ a) →
      memset d.heap.mem p (fillByte op.index) (word op.size) a = w'.heap.mem a := by
    intro a ha
    have := ha b hbl
    rw [memset, overlay_out (by omega), hheap]
  refine ⟨w'.write (memset d.heap.mem p (fillByte op.index) (word op.size)),
    ⟨.write ht.run hout, ht.live, ht.inUse, ht.current⟩, ?_, hr, fun g hg j hj => ?_⟩
  · simp only [World.write, Driver.remember, hheap]
    rfl
  · show memset d.heap.mem p (fillByte op.index) (word op.size) (g.2.ptr + j) = fillByte g.1
    rcases List.mem_cons.mp hg with rfl | hgr
    · rw [memset, overlay_in (by simp only; omega) (by simp only at hj ⊢; omega)]
    · have hgl : g.2 ∈ w'.live := by
        rw [ht.live]
        exact List.mem_cons_of_mem _ (List.mem_map_of_mem hgr)
      have hne : g.2 ≠ b := by
        intro he
        have hnd := (hm.ptrs_nodup hwf).of_map
        rw [ht.live, List.map_cons, ← he] at hnd
        exact (List.nodup_cons.mp hnd).1 (List.mem_map.mpr ⟨g, hgr, rfl⟩)
      have hclear := (hm.own hwf hbl).others g.2 hgl hne
      simp only [Clear] at hclear
      rw [memset, overlay_out (by omega), hf g hgr j hj]

namespace DriverInvariant

theorem alloc (h : DriverInvariant E done rs d w held) (hop : op.Allowed numIds done)
    (ht : op.type = .alloc) (hnull : ∀ s, mmMalloc d.heap (word op.size) ≠ some (s, 0)) :
    ∃ d', validOp tracenum i op d = some (d', true) ∧ d'.errors = d.errors ∧
      ∃ w' held', DriverInvariant E (done ++ [op]) (rs ++ [.malloc (word op.size)]) d' w' held' := by
  obtain ⟨s, p, he, hok⟩ := h.tracks.alloc hop ht
  rw [h.heap] at he hok
  have hp : p ≠ 0 := fun hp => hnull s (hp ▸ he)
  obtain ⟨w', b, ht', hs, hbp, hb, hsame, _⟩ := hok hp
  obtain ⟨hsz, _, _⟩ := Tracks.size_eq hop (by simp [ht])
  have hlive : w'.live = b :: w.live := by rw [ht'.live, h.tracks.live]; rfl
  have hadd := ht'.run.addRange_live hlive (show op.size = b.size by rw [hb, hsz])
  rw [hs, hbp, ← h.ranges] at hadd
  refine ⟨_, validOp_alloc ht he hp (Driver.addRange_eq hadd), rfl, ?_⟩
  obtain ⟨w'', hinv⟩ := remember (d := { d with heap := s, ranges := w'.live.map Live.range })
    ht' hs hbp hb rfl fun g hg j hj => (hsame g hg j hj).trans (h.filled g hg j hj)
  exact ⟨w'', _, hinv⟩

/-- `mm_realloc` preserves the data, and the driver agrees exactly when the low
byte of the id is below 128. -/
theorem realloc (h : DriverInvariant E done rs d w held) (hop : op.Allowed numIds done)
    (ht : op.type = .realloc)
    (hnull : ∀ s, mmRealloc d.heap (d.blocks op.index) (word op.size) ≠ some (s, 0)) :
    ∃ d', validOp tracenum i op d = some (d', decide (op.index % 256 < 128)) ∧
      (op.index % 256 < 128 → d'.errors = d.errors ∧
        ∃ rs' w' held', DriverInvariant E (done ++ [op]) rs' d' w' held') := by
  obtain ⟨c, hc, hf, hptr, hsize, s, p, he, hok⟩ := h.tracks.realloc hop ht
  rw [h.heap, ← hptr] at he
  rw [h.heap] at hok
  have hp : p ≠ 0 := fun hp => hnull s (hp ▸ he)
  obtain ⟨w', b, ht', hs, hbp, hb, hsame, _, hcopy⟩ := hok hp
  obtain ⟨hsz, hsm, hspos⟩ := Tracks.size_eq hop (by simp [ht])
  obtain ⟨hm, hwf⟩ := h.tracks.run.matches
  obtain ⟨hm', hwf'⟩ := ht'.run.matches
  have hlive : w'.live = b :: Live.drop w.live c.id := by
    rw [ht'.live, h.tracks.drop_eq hf]
    rfl
  have hadd := ht'.run.addRange_live hlive (show op.size = b.size by rw [hb, hsz])
  rw [hs, hbp, ← h.tracks.run.removeRange_live hc, ← h.ranges, ← hptr] at hadd
  -- the bytes compared are the first ones of the old block
  have hbl : b ∈ w'.live := hlive ▸ List.mem_cons_self
  have hcpos : 0 < c.size := by
    obtain ⟨_, _, _, _, _, hpos⟩ := hm.live_span hwf hc
    exact hpos
  have hcl : c.size < 2 ^ 31 := by
    obtain ⟨o, k, _, hk, hk', _⟩ := hm.live_span hwf hc
    have := (spans_bounds hk).2.1
    have hfit := hwf.layout.fits
    have := maxHeap_eq
    simp only [Layout.heapsize] at hfit
    omega
  have hbound : p + word op.size ≤ 2 ^ 32 := by
    have hbelow := (hm'.own hwf' hbl).below
    have hhi : w'.heap.memHeapHi < 2 ^ 32 := Nat.mod_lt _ (by decide)
    omega
  have hk : (if op.size < toInt (d.blockSizes op.index) then op.size
      else toInt (d.blockSizes op.index)) = (min (word op.size) c.size : Nat) := by
    rw [hsize, toInt_eq hcl]
    split <;> omega
  have hkeep : preserved s.mem p op.index (min (word op.size) c.size : Nat) =
      decide (op.index % 256 < 128) := by
    refine preserved_eq (by omega) (by omega) fun j hj => ?_
    rw [hcopy j (by omega) (by omega)]
    exact h.filled _ (List.mem_of_find?_eq_some hf) j (by simp only; omega)
  have hop' : validOp tracenum i op d = _ := validOp_realloc ht he hp (Driver.addRange_eq hadd) hk
  rw [hkeep] at hop'
  by_cases hi : op.index % 256 < 128
  · rw [decide_eq_true hi] at hop' ⊢
    obtain ⟨w'', hinv⟩ := remember (d := { d with heap := s, ranges := w'.live.map Live.range })
      ht' hs hbp hb rfl fun g hg j hj =>
        (hsame g hg j hj).trans (h.filled g (List.mem_of_mem_eraseP hg) j hj)
    exact ⟨_, hop', fun _ => ⟨rfl, _, w'', _, hinv⟩⟩
  · rw [decide_eq_false hi] at hop' ⊢
    exact ⟨_, hop', fun hlt => absurd hlt hi⟩

theorem free (h : DriverInvariant E done rs d w held) (hop : op.Allowed numIds done)
    (ht : op.type = .free) :
    ∃ d', validOp tracenum i op d = some (d', true) ∧ d'.errors = d.errors ∧
      ∃ rs' w' held', DriverInvariant E (done ++ [op]) rs' d' w' held' := by
  obtain ⟨c, hc, hf, hptr, _, s, w', he, ht', hs, hsame, _⟩ := h.tracks.free hop ht
  rw [h.heap, ← hptr] at he
  rw [h.heap] at hsame
  refine ⟨_, validOp_free ht he, rfl, _, w', _, ht', hs, ?_, fun g hg j hj => ?_⟩
  · simp only
    rw [h.ranges, hptr, h.tracks.run.removeRange_live hc, ht'.live, h.tracks.drop_eq hf]
  · exact (hsame g hg j hj).trans (h.filled g (List.mem_of_mem_eraseP hg) j hj)

end DriverInvariant

end Steps

/-- The allocating call of the operation returns `NULL`. -/
def TraceOp.ReturnsNull (op : TraceOp) (d : Driver) : Prop :=
  match op.type with
  | .alloc => ∃ s, mmMalloc d.heap (word op.size) = some (s, 0)
  | .realloc => ∃ s, mmRealloc d.heap (d.blocks op.index) (word op.size) = some (s, 0)
  | .free => False

/-- No call that the loop of `eval_mm_valid` makes returns `NULL`. -/
def NoNull (tracenum : Int) : Nat → List TraceOp → Driver → Prop
  | _, [], _ => True
  | i, op :: ops, d => ¬ op.ReturnsNull d ∧
    ∀ d', validOp tracenum i op d = some (d', true) → NoNull tracenum (i + 1) ops d'

/-- No call that `eval_mm_valid` makes during its replay returns `NULL`. -/
def NoNullReplay (arena pagesize : Nat) (t : Trace) (tracenum : Int) (d : Driver) : Prop :=
  ∀ s r, mmInit arena pagesize d.heap.memResetBrk = some (s, r) →
    NoNull tracenum 0 t.ops { d with heap := s, ranges := [] }

/-- The ids that are reallocated have a low byte below 128. -/
def Trace.ReallocsLow (ops : List TraceOp) : Prop :=
  ∀ op ∈ ops, op.type = .realloc → op.index % 256 < 128

section Loop

variable {E : Env} {numIds tracenum : Int} {i : Nat} {done : List TraceOp} {op : TraceOp}
  {rs : List Request} {d : Driver} {w : World} {held : List (Int × Live)}

/-- One operation of a replay: it is accepted unless it reallocates an id whose
low byte is 128 or more. -/
theorem DriverInvariant.step (h : DriverInvariant E done rs d w held)
    (hop : op.Allowed numIds done) (hnull : ¬ op.ReturnsNull d) :
    ∃ d' ok, validOp tracenum i op d = some (d', ok) ∧
      (ok = true ↔ Trace.ReallocsLow [op]) ∧
      (ok = true → d'.errors = d.errors ∧
        ∃ rs' w' held', DriverInvariant E (done ++ [op]) rs' d' w' held') := by
  have hlow : op.type ≠ .realloc → Trace.ReallocsLow [op] := by
    rintro hne op' hop' ht
    rw [List.mem_singleton.mp hop'] at ht
    exact absurd ht hne
  cases ht : op.type with
  | alloc =>
    have hn : ∀ s, mmMalloc d.heap (word op.size) ≠ some (s, 0) := fun s hs => by
      simp only [TraceOp.ReturnsNull, ht] at hnull
      exact hnull ⟨s, hs⟩
    obtain ⟨d', he, herr, w', held', hinv⟩ := h.alloc hop ht hn
    exact ⟨d', true, he, ⟨fun _ => hlow (by simp [ht]), fun _ => rfl⟩,
      fun _ => ⟨herr, _, w', held', hinv⟩⟩
  | free =>
    obtain ⟨d', he, herr, hinv⟩ := h.free hop ht
    exact ⟨d', true, he, ⟨fun _ => hlow (by simp [ht]), fun _ => rfl⟩, fun _ => ⟨herr, hinv⟩⟩
  | realloc =>
    have hn : ∀ s, mmRealloc d.heap (d.blocks op.index) (word op.size) ≠ some (s, 0) :=
      fun s hs => by
        simp only [TraceOp.ReturnsNull, ht] at hnull
        exact hnull ⟨s, hs⟩
    obtain ⟨d', he, hinv⟩ := h.realloc hop ht hn
    refine ⟨d', _, he, ?_, fun hok => hinv (of_decide_eq_true hok)⟩
    simp [Trace.ReallocsLow, ht]

theorem DriverInvariant.loop (h : DriverInvariant E done rs d w held) {ops : List TraceOp}
    (hseq : TraceOp.Sequence numIds done ops) (hnull : NoNull tracenum i ops d) :
    ∃ d' r, validLoop tracenum i ops d = some (d', r) ∧
      (r = 1 ∧ d'.errors = d.errors ↔ Trace.ReallocsLow ops) := by
  induction ops generalizing done rs d w held i with
  | nil => exact ⟨d, 1, rfl, by simp [Trace.ReallocsLow]⟩
  | cons op ops ih =>
    obtain ⟨d₁, ok, he, hiff, hok⟩ := h.step hseq.1 hnull.1
    have hsplit : Trace.ReallocsLow (op :: ops) ↔
        Trace.ReallocsLow [op] ∧ Trace.ReallocsLow ops := by
      simp [Trace.ReallocsLow]
    rw [validLoop, he, Option.bind_eq_bind, Option.bind_some, hsplit, ← hiff]
    cases ok with
    | false => exact ⟨d₁, 0, rfl, by simp⟩
    | true =>
      obtain ⟨herr, rs', w', held', hinv⟩ := hok rfl
      obtain ⟨d', r, hl, hr⟩ := ih hinv hseq.2 (hnull.2 d₁ he)
      refine ⟨d', r, hl, ?_⟩
      rw [← hr, herr]
      simp

theorem evalMmValid_result (E : Env) {t : Trace} (ht : t.WellFormed) (tracenum : Int) (d : Driver)
    (hn : NoNullReplay E.base E.pageSize t tracenum d) :
    ∃ d' r, evalMmValid E.base E.pageSize t tracenum d = some (d', r) ∧
      (r = 1 ∧ d'.errors = d.errors ↔ Trace.ReallocsLow t.ops) := by
  obtain ⟨s, hs, _⟩ := mmInit_refines E d.heap.memResetBrk
  have hinit : DriverInvariant E [] [] { d with heap := s, ranges := [] } ⟨s, [], []⟩ [] :=
    ⟨Tracks.init hs, rfl, rfl, by simp⟩
  obtain ⟨d', r, hl, hr⟩ := hinit.loop ht (hn s 0 hs)
  refine ⟨d', r, ?_, hr⟩
  rw [evalMmValid, hs, Option.bind_eq_bind, Option.bind_some]
  exact hl

/-- On a well-formed trace whose calls all succeed, `eval_mm_valid` returns 1 and
reports nothing exactly when no id with a low byte of 128 or more is
reallocated. -/
theorem driver_accepts_iff (E : Env) {t : Trace} (ht : t.WellFormed) (tracenum : Int) (d : Driver)
    (hn : NoNullReplay E.base E.pageSize t tracenum d) :
    (∃ d', evalMmValid E.base E.pageSize t tracenum d = some (d', 1) ∧ d'.errors = d.errors) ↔
      Trace.ReallocsLow t.ops := by
  obtain ⟨d', r, he, hr⟩ := evalMmValid_result E ht tracenum d hn
  rw [← hr, he]
  constructor
  · rintro ⟨x, hx, herr⟩
    obtain ⟨rfl, rfl⟩ := Prod.mk.inj (Option.some.inj hx)
    exact ⟨rfl, herr⟩
  · rintro ⟨rfl, herr⟩
    exact ⟨d', rfl, herr⟩

def reallocTrace (index : Int) : Trace :=
  ⟨index + 1, [⟨.alloc, index, 24⟩, ⟨.realloc, index, 24⟩]⟩

theorem reallocTrace_wellFormed (index : Int) (h : 0 ≤ index) :
    (reallocTrace index).WellFormed := by
  refine ⟨⟨⟨h, by simp [reallocTrace]⟩, by simp [maxHeap], by simp, by simp⟩,
    ⟨⟨h, by simp [reallocTrace]⟩, by simp [maxHeap], fun _ => ⟨⟨.alloc, index, 24⟩, by simp, rfl, rfl⟩,
      by simp⟩, trivial⟩

theorem reallocTrace_noNull (index : Int) (h : 0 ≤ index) (tracenum : Int) (d : Driver) :
    NoNullReplay Env.small.base Env.small.pageSize (reallocTrace index) tracenum d := by
  intro s r hs
  obtain ⟨s', hs', href⟩ := mmInit_refines Env.small d.heap.memResetBrk
  obtain ⟨rfl, rfl⟩ := Prod.mk.inj (Option.some.inj (hs.symm.trans hs'))
  have hinit : DriverInvariant Env.small [] [] { d with heap := s, ranges := [] } ⟨s, [], []⟩ [] :=
    ⟨Tracks.init hs, rfl, rfl, by simp⟩
  obtain ⟨ha, hr, _⟩ := reallocTrace_wellFormed index h
  have hnull : ∀ t, mmMalloc s 24 ≠ some (t, 0) := by
    intro t ht
    obtain ⟨t', he, _⟩ := href.malloc (Layout.initial_wf (by decide)) (n := 24) (by decide)
    have hp := (Prod.mk.inj (Option.some.inj (he.symm.trans ht))).2
    revert hp
    decide
  refine ⟨fun ⟨t, ht⟩ => hnull t ht, fun d₁ hd₁ => ⟨?_, fun _ _ => trivial⟩⟩
  obtain ⟨d₂, hd₂, _, w, held, hinv⟩ :=
    @DriverInvariant.alloc _ _ tracenum 0 _ ⟨.alloc, index, 24⟩ _ _ _ _ hinit ha rfl hnull
  obtain rfl : d₂ = d₁ := congrArg Prod.fst (Option.some.inj (hd₂.symm.trans hd₁))
  rintro ⟨t, ht⟩
  obtain ⟨c, hc, _, hptr, _⟩ := hinv.tracks.find hr (by simp)
  obtain ⟨hm, hwf⟩ := hinv.tracks.run.matches
  have hlive : (Plan.run Env.small.page [.malloc 24]).live = [⟨0, 16, 24⟩] := by decide
  obtain rfl : c = ⟨0, Env.small.base + 16, 24⟩ := by
    have hcl : c ∈ ((Plan.run Env.small.page [.malloc 24]).live).map (Live.shift Env.small.base) :=
      hm.live ▸ hc
    rw [hlive] at hcl
    exact List.mem_singleton.mp hcl
  obtain ⟨o, k, ho, hk, _⟩ := hm.live_span hwf hc
  obtain rfl : o = 16 := (Nat.add_left_cancel ho).symm
  obtain ⟨t', he, _⟩ := hm.heap.realloc hwf.layout hk (n := 24) (by decide)
  rw [hptr] at ht
  rw [hinv.heap] at he
  have hp : Env.small.ptr ((Plan.run Env.small.page [.malloc 24]).layout.realloc Env.small.page
      16 24).2 = 0 := (Prod.mk.inj (Option.some.inj (he.symm.trans ht))).2
  revert hp
  decide

theorem driver_accepts_iff_low :
    ∃ d', evalMmValid Env.small.base Env.small.pageSize (reallocTrace 5) 0
      ⟨default, [], fun _ => 0, fun _ => 0, []⟩ = some (d', 1) ∧ d'.errors = [] :=
  (driver_accepts_iff Env.small (reallocTrace_wellFormed 5 (by decide)) 0 _
    (reallocTrace_noNull 5 (by decide) 0 _)).mpr (by simp [Trace.ReallocsLow, reallocTrace])

/-- The driver turns down a correct run that reallocates id 128. -/
theorem driver_rejects_correct_run :
    (reallocTrace 128).WellFormed ∧
      NoNullReplay Env.small.base Env.small.pageSize (reallocTrace 128) 0
        ⟨default, [], fun _ => 0, fun _ => 0, []⟩ ∧
      ¬ ∃ d', evalMmValid Env.small.base Env.small.pageSize (reallocTrace 128) 0
        ⟨default, [], fun _ => 0, fun _ => 0, []⟩ = some (d', 1) ∧ d'.errors = [] := by
  have hwf := reallocTrace_wellFormed 128 (by decide)
  have hn := reallocTrace_noNull 128 (by decide) 0 ⟨default, [], fun _ => 0, fun _ => 0, []⟩
  refine ⟨hwf, hn, ?_⟩
  obtain ⟨d', r, he, hr⟩ := evalMmValid_result Env.small hwf 0 _ hn
  rintro ⟨x, hx, herr⟩
  obtain ⟨rfl, rfl⟩ := Prod.mk.inj (Option.some.inj (he.symm.trans hx))
  have hlow := hr.mp ⟨rfl, herr⟩
  have := hlow ⟨.realloc, 128, 24⟩ (by simp [reallocTrace]) rfl
  revert this
  decide

end Loop

end CsoMalloc
