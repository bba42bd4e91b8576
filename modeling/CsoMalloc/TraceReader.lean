import CsoMalloc.Mdriver
import CsoMalloc.Scanning

/-! `read_trace` of mdriver.c on every file. A file is the list of its
characters; what the C library's `malloc` grants and what the fresh array of
operations holds are parameters. -/

namespace CsoMalloc

open Scanning

/-- `MAXLINE`, the size of the buffer `type`. -/
def maxline : Nat := 1024

/-- Why the reader stops: the end of the file, a failed assertion, a call of
`exit`, or a token that overruns the buffer it is read into. -/
inductive Ending where
  | eof
  | assertFailed
  | exited
  | overrun
  deriving DecidableEq

inductive TraceLine where
  | alloc (index size : Nat)
  | realloc (index size : Nat)
  | free (index : Nat)
  deriving DecidableEq

def TraceLine.index : TraceLine → Nat
  | .alloc index _ => index
  | .realloc index _ => index
  | .free index => index

def scanPair (text : List Char) : Option (Nat × Nat × List Char) := do
  let (index, text) ← scanUnsigned text
  let (size, text) ← scanUnsigned text
  return (index, size, text)

/-- `"%ud"`: a number, and a letter d if one follows it directly. -/
def scanIndex (text : List Char) : Option (Nat × List Char) :=
  (scanUnsigned text).map fun (index, text) =>
    (index, if text.head? = some 'd' then text.tail else text)

/-- The rest of an allocating request; the assertion may fail. -/
def scanSized (line : Nat → Nat → TraceLine) (text : List Char) :
    Except Ending (TraceLine × List Char) :=
  match scanPair text with
  | some (index, size, text) => .ok (line index size, text)
  | none => .error .assertFailed

/-- What one turn of the loop of `read_trace` reads. -/
def scanLine (text : List Char) : Except Ending (TraceLine × List Char) :=
  match scanString text with
  | none => .error .eof
  | some (type, text) =>
    if maxline ≤ type.length then .error .overrun
    else if type.head? = some 'a' then scanSized .alloc text
    else if type.head? = some 'r' then scanSized .realloc text
    else if type.head? = some 'f' then
      match scanIndex text with
      | some (index, text) => .ok (.free index, text)
      | none => .error .assertFailed
    else .error .exited

structure Header where
  suggHeapsize : Int
  numIds : Int
  numOps : Int
  weight : Int

def scanHeader (text : List Char) : Option (Header × List Char) := do
  let (suggHeapsize, text) ← scanInt text
  let (numIds, text) ← scanInt text
  let (numOps, text) ← scanInt text
  let (weight, text) ← scanInt text
  return (⟨suggHeapsize, numIds, numOps, weight⟩, text)

/-- The variables of the loop of `read_trace`. The last field is not in the
source: it records every store into `trace->ops` with its position. -/
structure Reading where
  maxIndex : Nat
  opIndex : Nat
  ops : Nat → TraceOp
  stores : List (Nat × TraceOp)

namespace Reading

def start (fresh : Nat → TraceOp) : Reading := ⟨0, 0, fresh, []⟩

def store (r : Reading) (op : TraceOp) : Reading :=
  { r with ops := Function.update r.ops r.opIndex op, stores := r.stores ++ [(r.opIndex, op)] }

def noteIndex (r : Reading) (index : Nat) : Reading :=
  { r with maxIndex := if index > r.maxIndex then index else r.maxIndex }

/-- What one turn of the loop does with the request it has read. A free
request leaves `size` and `max_index` as they are. -/
def step (r : Reading) (line : TraceLine) : Reading :=
  let r := match line with
    | .alloc index size => (r.store ⟨.alloc, toInt index, toInt size⟩).noteIndex index
    | .realloc index size => (r.store ⟨.realloc, toInt index, toInt size⟩).noteIndex index
    | .free index => r.store { r.ops r.opIndex with type := .free, index := toInt index }
  { r with opIndex := wadd r.opIndex 1 }

/-- The two assertions behind the loop. Both compare as `unsigned`. -/
def finish (r : Reading) (h : Header) : Ending → Except Ending Trace
  | .eof =>
    if r.maxIndex = word (h.numIds - 1) ∧ word h.numOps = r.opIndex
    then .ok ⟨h.numIds, (List.range h.numOps.toNat).map r.ops⟩
    else .error .assertFailed
  | e => .error e

end Reading

/-- The bytes of an array, computed as `size_t`. -/
def arrayBytes (n : Int) (elem : Nat) : Nat := word n * elem % 2 ^ 32

def Header.arraysGranted (h : Header) (malloc : Nat → Nat → Bool) : Bool :=
  malloc 2 (arrayBytes h.numOps 12) && malloc 3 (arrayBytes h.numIds 4) &&
    malloc 4 (arrayBytes h.numIds 4)

theorem scanPair_spec {text rest : List Char} {index size : Nat}
    (h : scanPair text = some (index, size, rest)) :
    index < 2 ^ 32 ∧ rest.length ≤ text.length := by
  simp only [scanPair, Option.bind_eq_bind, Option.bind_eq_some_iff, Prod.exists, Option.pure_def,
    Option.some.injEq, Prod.mk.injEq] at h
  obtain ⟨i, mid, hi, n, tail, hn, rfl, rfl, rfl⟩ := h
  have := scanUnsigned_length hi
  have := scanUnsigned_length hn
  exact ⟨scanUnsigned_lt hi, by omega⟩

theorem scanIndex_spec {text rest : List Char} {index : Nat}
    (h : scanIndex text = some (index, rest)) : index < 2 ^ 32 ∧ rest.length ≤ text.length := by
  obtain ⟨⟨i, mid⟩, hi, he⟩ := Option.map_eq_some_iff.mp h
  have hlen := scanUnsigned_length hi
  obtain ⟨rfl, rfl⟩ := Prod.mk.inj he
  refine ⟨scanUnsigned_lt hi, ?_⟩
  split
  · rw [List.length_tail]
    omega
  · exact hlen

theorem scanSized_spec {text rest : List Char} {line : Nat → Nat → TraceLine} {l : TraceLine}
    (hline : ∀ index size, (line index size).index = index)
    (h : scanSized line text = .ok (l, rest)) : l.index < 2 ^ 32 ∧ rest.length ≤ text.length := by
  cases hp : scanPair text with
  | none => simp [scanSized, hp] at h
  | some v =>
    obtain ⟨index, size, tail⟩ := v
    simp only [scanSized, hp, Except.ok.injEq, Prod.mk.injEq] at h
    obtain ⟨rfl, rfl⟩ := h
    rw [hline]
    exact scanPair_spec hp

theorem scanLine_spec {text rest : List Char} {line : TraceLine}
    (h : scanLine text = .ok (line, rest)) :
    line.index < 2 ^ 32 ∧ rest.length < text.length := by
  cases hs : scanString text with
  | none => simp [scanLine, hs] at h
  | some token =>
    obtain ⟨type, mid⟩ := token
    have hlt := scanString_length hs
    have hspec : line.index < 2 ^ 32 ∧ rest.length ≤ mid.length := by
      simp only [scanLine, hs] at h
      split_ifs at h
      · exact scanSized_spec (fun _ _ => rfl) h
      · exact scanSized_spec (fun _ _ => rfl) h
      · cases hp : scanIndex mid with
        | none => simp [hp] at h
        | some v =>
          simp only [hp, Except.ok.injEq, Prod.mk.injEq] at h
          obtain ⟨rfl, rfl⟩ := h
          exact scanIndex_spec hp
    exact ⟨hspec.1, hspec.2.trans_lt hlt⟩

theorem scanLine_progresses : Progresses scanLine := fun _ _ _ h => (scanLine_spec h).2

/-- What a run of `read_trace` leaves behind: the header if it was read, the
stores into `trace->ops`, and the trace or the reason why there is none. -/
structure ReadRun where
  header : Option Header
  stores : List (Nat × TraceOp)
  result : Except Ending Trace

/-- `read_trace` on an open file. `malloc i n` tells whether the `i`-th call of
`malloc`, for `n` bytes, is granted; `fresh` is what the array of operations
holds before it is written. -/
def readTrace (malloc : Nat → Nat → Bool) (fresh : Nat → TraceOp) (text : List Char) : ReadRun :=
  if malloc 1 28 = false then ⟨none, [], .error .exited⟩
  else
    match scanHeader text with
    | none => ⟨none, [], .error .assertFailed⟩
    | some (h, text) =>
      if h.arraysGranted malloc = false then ⟨some h, [], .error .exited⟩
      else
        let (r, ending) := loop scanLine_progresses Reading.step text (.start fresh)
        ⟨some h, r.stores, r.finish h ending⟩

/-- The requests that a text holds up to where the reader stops, and why it
stops there. -/
def requests (text : List Char) : List TraceLine × Ending := items scanLine_progresses text

/-- The id that a request allocates or reallocates; 0 for a free request. -/
def TraceLine.allocated : TraceLine → Nat
  | .alloc index _ => index
  | .realloc index _ => index
  | .free _ => 0

/-- The largest id that is allocated or reallocated, 0 if there is none. -/
def largestId (lines : List TraceLine) : Nat :=
  lines.foldl (fun m line => max m line.allocated) 0

theorem toInt_inside_iff {i : Nat} {n : Int} (hi : i < 2 ^ 32) (hn : n < 2 ^ 31) :
    0 ≤ toInt i ∧ toInt i < n ↔ (i : Int) < n := by
  rw [toInt]
  split_ifs <;> omega

theorem wadd_zero {a : Nat} (h : a < 2 ^ 32) : wadd a 0 = a := wadd_eq h

namespace Reading

variable {r : Reading} {lines : List TraceLine}

theorem step_opIndex (line : TraceLine) : (r.step line).opIndex = wadd r.opIndex 1 := by
  cases line <;> rfl

theorem step_opIndex_lt (line : TraceLine) : (r.step line).opIndex < 2 ^ 32 := by
  rw [step_opIndex, wadd]
  omega

theorem noteIndex_maxIndex (index : Nat) : (r.noteIndex index).maxIndex = max r.maxIndex index := by
  simp only [noteIndex]
  split_ifs <;> omega

theorem step_maxIndex (line : TraceLine) :
    (r.step line).maxIndex = max r.maxIndex line.allocated := by
  cases line with
  | alloc index size => exact noteIndex_maxIndex index
  | realloc index size => exact noteIndex_maxIndex index
  | free index => exact (Nat.max_zero _).symm

theorem step_stores (line : TraceLine) :
    ∃ op : TraceOp, op.index = toInt line.index ∧
      (r.step line).stores = r.stores ++ [(r.opIndex, op)] := by
  cases line with
  | alloc index size => exact ⟨_, rfl, rfl⟩
  | realloc index size => exact ⟨_, rfl, rfl⟩
  | free index => exact ⟨_, rfl, rfl⟩

theorem foldl_opIndex (hr : r.opIndex < 2 ^ 32) :
    (lines.foldl step r).opIndex = wadd r.opIndex lines.length := by
  induction lines generalizing r with
  | nil => exact (wadd_zero hr).symm
  | cons line lines ih =>
    rw [List.foldl_cons, ih (step_opIndex_lt line), step_opIndex, List.length_cons]
    simp only [wadd]
    omega

theorem foldl_maxIndex :
    (lines.foldl step r).maxIndex =
      lines.foldl (fun m line => max m line.allocated) r.maxIndex := by
  induction lines generalizing r with
  | nil => rfl
  | cons line lines ih => rw [List.foldl_cons, ih, step_maxIndex, List.foldl_cons]

/-- The stores of the loop are at consecutive positions, one for each request. -/
theorem foldl_stores (lines : List TraceLine) (hr : r.opIndex < 2 ^ 32) :
    (lines.foldl step r).stores.map (fun x => (x.1, x.2.index)) =
      r.stores.map (fun x => (x.1, x.2.index)) ++
        lines.mapIdx fun k line => (wadd r.opIndex k, toInt line.index) := by
  induction lines generalizing r with
  | nil => simp
  | cons line lines ih =>
    obtain ⟨op, hop, hst⟩ := step_stores (r := r) line
    have hpos : ∀ k, wadd (wadd r.opIndex 1) k = wadd r.opIndex (k + 1) := by
      intro k
      simp only [wadd]
      omega
    rw [List.foldl_cons, ih (step_opIndex_lt line), hst, step_opIndex, List.mapIdx_cons]
    simp only [List.map_append, List.map_cons, List.map_nil, hop, hpos, List.append_assoc,
      List.singleton_append, wadd_zero hr]

variable {fresh : Nat → TraceOp} {n : Int}

theorem forall_stores_iff {p : Nat → Int → Prop} :
    (∀ x ∈ (lines.foldl step (start fresh)).stores, p x.1 x.2.index) ↔
      ∀ k (h : k < lines.length), p (wadd 0 k) (toInt (lines.get ⟨k, h⟩).index) := by
  have hst := foldl_stores (r := start fresh) lines (show 0 < 2 ^ 32 by decide)
  have hmap : (∀ x ∈ (lines.foldl step (start fresh)).stores, p x.1 x.2.index) ↔
      ∀ y ∈ (lines.foldl step (start fresh)).stores.map (fun x => (x.1, x.2.index)), p y.1 y.2 := by
    rw [List.forall_mem_map]
  rw [hmap, hst]
  simp only [start, List.map_nil, List.nil_append, List.mem_mapIdx, List.get_eq_getElem]
  constructor
  · intro h k hk
    exact h _ ⟨k, hk, rfl⟩
  · rintro h _ ⟨k, hk, rfl⟩
    exact h k hk

theorem stores_below_iff (hn : n < 2 ^ 31) :
    (∀ x ∈ (lines.foldl step (start fresh)).stores, (x.1 : Int) < n) ↔ lines.length ≤ n.toNat := by
  rw [forall_stores_iff (p := fun k _ => (k : Int) < n)]
  constructor
  · intro h
    by_contra hlt
    have hk := h n.toNat (by omega)
    rw [wadd_eq (by omega)] at hk
    omega
  · intro h k hk
    rw [wadd_eq (by omega)]
    omega

theorem stores_indices_iff (hlt : ∀ line ∈ lines, line.index < 2 ^ 32) (hn : n < 2 ^ 31) :
    (∀ x ∈ (lines.foldl step (start fresh)).stores, 0 ≤ x.2.index ∧ x.2.index < n) ↔
      ∀ line ∈ lines, (line.index : Int) < n := by
  rw [forall_stores_iff (p := fun _ i => 0 ≤ i ∧ i < n), List.forall_mem_iff_get]
  constructor
  · rintro h ⟨k, hk⟩
    exact (toInt_inside_iff (hlt _ (List.get_mem _ _)) hn).mp (h k hk)
  · intro h k hk
    exact (toInt_inside_iff (hlt _ (List.get_mem _ _)) hn).mpr (h ⟨k, hk⟩)

end Reading

section Ids

variable {lines : List TraceLine}

theorem foldl_max_le (m k : Nat) :
    lines.foldl (fun m line => max m line.allocated) m ≤ k ↔
      m ≤ k ∧ ∀ line ∈ lines, line.allocated ≤ k := by
  induction lines generalizing m with
  | nil => simp
  | cons line lines ih =>
    rw [List.foldl_cons, ih, max_le_iff, List.forall_mem_cons, and_assoc]

theorem largestId_le {k : Nat} : largestId lines ≤ k ↔ ∀ line ∈ lines, line.allocated ≤ k := by
  rw [largestId, foldl_max_le]
  exact and_iff_right k.zero_le

/-- Where the largest id agrees with the header, all ids are below `num_ids`
exactly when that number is positive and the freed ids are below it. -/
theorem ids_below_iff {n : Int} (hn : -2 ^ 31 ≤ n ∧ n < 2 ^ 31)
    (hmax : largestId lines = word (n - 1)) :
    (∀ line ∈ lines, (line.index : Int) < n) ↔
      1 ≤ n ∧ ∀ i, TraceLine.free i ∈ lines → (i : Int) < n := by
  constructor
  · intro h
    refine ⟨?_, fun i hi => h _ hi⟩
    by_contra hneg
    have hz : largestId lines ≤ 0 := largestId_le.mpr fun line hl => by
      have := h line hl
      omega
    rw [hmax, word] at hz
    omega
  · rintro ⟨hpos, hfree⟩ line hl
    have hle := largestId_le.mp hmax.le line hl
    rw [word] at hle
    cases line with
    | alloc index size =>
      simp only [TraceLine.allocated, TraceLine.index] at hle ⊢
      omega
    | realloc index size =>
      simp only [TraceLine.allocated, TraceLine.index] at hle ⊢
      omega
    | free index => exact hfree index hl

end Ids

/-- No store into `trace->ops` is at or past `num_ops`, and if the trace is
returned, all stored ids are below `num_ids`. -/
def ReadRun.InRange (run : ReadRun) : Prop :=
  ∀ h, run.header = some h →
    (∀ x ∈ run.stores, (x.1 : Int) < h.numOps) ∧
      ((∃ t, run.result = .ok t) → ∀ x ∈ run.stores, 0 ≤ x.2.index ∧ x.2.index < h.numIds)

/-- The requests do not outnumber the header's count. If they match it, and
their largest id matches too, then there are ids and no other one is freed. -/
def Header.Fits (h : Header) (lines : List TraceLine) (ending : Ending) : Prop :=
  lines.length ≤ h.numOps.toNat ∧
    (ending = .eof → (lines.length : Int) = h.numOps → largestId lines = word (h.numIds - 1) →
      1 ≤ h.numIds ∧ ∀ i, TraceLine.free i ∈ lines → (i : Int) < h.numIds)

theorem scanHeader_range {text rest : List Char} {h : Header}
    (hh : scanHeader text = some (h, rest)) :
    (-2 ^ 31 ≤ h.numIds ∧ h.numIds < 2 ^ 31) ∧ -2 ^ 31 ≤ h.numOps ∧ h.numOps < 2 ^ 31 := by
  simp only [scanHeader, Option.bind_eq_bind, Option.bind_eq_some_iff, Prod.exists, Option.pure_def,
    Option.some.injEq, Prod.mk.injEq] at hh
  obtain ⟨_, _, _, ids, _, hids, ops, _, hops, _, _, _, rfl, _⟩ := hh
  exact ⟨scanInt_range hids, scanInt_range hops⟩

theorem Reading.finish_ok_iff {r : Reading} {h : Header} {ending : Ending} :
    (∃ t, r.finish h ending = .ok t) ↔
      ending = .eof ∧ r.maxIndex = word (h.numIds - 1) ∧ word h.numOps = r.opIndex := by
  cases ending with
  | eof =>
    simp only [finish, true_and]
    split_ifs with hc <;> simp [hc]
  | assertFailed => simp [finish]
  | exited => simp [finish]
  | overrun => simp [finish]

theorem readLoop_inRange_iff {h : Header} {fresh : Nat → TraceOp} {lines : List TraceLine}
    {ending : Ending} (hids : -2 ^ 31 ≤ h.numIds ∧ h.numIds < 2 ^ 31)
    (hops : -2 ^ 31 ≤ h.numOps ∧ h.numOps < 2 ^ 31) (hlt : ∀ line ∈ lines, line.index < 2 ^ 32) :
    ReadRun.InRange ⟨some h, (lines.foldl Reading.step (.start fresh)).stores,
      (lines.foldl Reading.step (.start fresh)).finish h ending⟩ ↔ h.Fits lines ending := by
  have hmax : (lines.foldl Reading.step (.start fresh)).maxIndex = largestId lines :=
    Reading.foldl_maxIndex
  have hop : (lines.foldl Reading.step (.start fresh)).opIndex = wadd 0 lines.length :=
    Reading.foldl_opIndex (show 0 < 2 ^ 32 by decide)
  simp only [ReadRun.InRange, Option.some.injEq, forall_eq', Header.Fits]
  rw [Reading.stores_below_iff hops.2, Reading.stores_indices_iff hlt hids.2, Reading.finish_ok_iff,
    hmax, hop]
  refine and_congr_right fun hle => ?_
  have hcount : word h.numOps = wadd 0 lines.length ↔ (lines.length : Int) = h.numOps := by
    rw [word, wadd]
    omega
  rw [hcount]
  constructor
  · intro hr he hn hm
    exact (ids_below_iff hids hm).mp (hr ⟨he, hm, hn⟩)
  · rintro hr ⟨he, hm, hn⟩
    exact (ids_below_iff hids hm).mpr (hr he hn hm)

theorem readTrace_of_header {malloc : Nat → Nat → Bool} {fresh : Nat → TraceOp}
    {text rest : List Char} {h : Header} (hm : malloc 1 28 = true)
    (hh : scanHeader text = some (h, rest)) (hg : h.arraysGranted malloc = true) :
    readTrace malloc fresh text =
      ⟨some h, ((requests rest).1.foldl Reading.step (.start fresh)).stores,
        ((requests rest).1.foldl Reading.step (.start fresh)).finish h (requests rest).2⟩ := by
  simp only [readTrace, hm, hh, hg, Bool.true_eq_false, if_false, loop_eq]
  rfl

/-- `read_trace` stays in range on exactly the files whose requests fit the
header, and on those it gives up before the first request. -/
theorem read_trace_in_range_iff (malloc : Nat → Nat → Bool) (fresh : Nat → TraceOp)
    (text : List Char) :
    (readTrace malloc fresh text).InRange ↔
      ∀ h rest, scanHeader text = some (h, rest) → malloc 1 28 = true →
        h.arraysGranted malloc = true → h.Fits (requests rest).1 (requests rest).2 := by
  cases hm : malloc 1 28 with
  | false => simp [readTrace, hm, ReadRun.InRange]
  | true =>
    cases hh : scanHeader text with
    | none => simp [readTrace, hm, hh, ReadRun.InRange]
    | some v =>
      obtain ⟨h, rest⟩ := v
      cases hg : h.arraysGranted malloc with
      | false => simp [readTrace, hm, hh, hg, ReadRun.InRange]
      | true =>
        obtain ⟨hids, hops⟩ := scanHeader_range hh
        have hlt : ∀ line ∈ (requests rest).1, line.index < 2 ^ 32 :=
          items_forall (fun _ _ _ hl => (scanLine_spec hl).1) rest
        rw [readTrace_of_header hm hh hg]
        refine (readLoop_inRange_iff hids hops hlt).trans ⟨?_, fun hf => hf h rest rfl rfl hg⟩
        rintro hf h' rest' he _ _
        obtain ⟨rfl, rfl⟩ := Prod.mk.inj (Option.some.inj he)
        exact hf

/-- A file that frees an id it never allocates is accepted. A file with more
requests than its header says is read past the end of the array. -/
theorem read_trace_out_of_range :
    (∃ t, (readTrace (fun _ _ => true) (fun _ => ⟨.alloc, 0, 0⟩)
        "20000 1 2 1 a 0 16 f 5".toList).result = .ok t ∧ t.numIds = 1 ∧
          t.ops = [⟨.alloc, 0, 16⟩, ⟨.free, 5, 0⟩]) ∧
      ¬ (readTrace (fun _ _ => true) (fun _ => ⟨.alloc, 0, 0⟩)
        "20000 1 2 1 a 0 16 f 5".toList).InRange ∧
      ¬ (readTrace (fun _ _ => true) (fun _ => ⟨.alloc, 0, 0⟩)
        "20000 1 0 1 a 0 16".toList).InRange := by
  have hend : items scanLine_progresses [] = ([], .eof) := items_error rfl
  have hfree : requests " a 0 16 f 5".toList = ([.alloc 0 16, .free 5], .eof) := by
    rw [requests, items_ok (show scanLine _ = .ok (.alloc 0 16, " f 5".toList) from rfl),
      items_ok (show scanLine _ = .ok (.free 5, []) from rfl), hend]
  have hmany : requests " a 0 16".toList = ([.alloc 0 16], .eof) := by
    rw [requests, items_ok (show scanLine _ = .ok (.alloc 0 16, []) from rfl), hend]
  have hh : scanHeader "20000 1 2 1 a 0 16 f 5".toList =
      some (⟨20000, 1, 2, 1⟩, " a 0 16 f 5".toList) := rfl
  have hh' : scanHeader "20000 1 0 1 a 0 16".toList =
      some (⟨20000, 1, 0, 1⟩, " a 0 16".toList) := rfl
  rw [readTrace_of_header rfl hh rfl, readTrace_of_header rfl hh' rfl, hfree, hmany]
  refine ⟨⟨_, rfl, rfl, rfl⟩, fun h => ?_, fun h => ?_⟩
  · have hx := (h _ rfl).2 ⟨_, rfl⟩ (1, ⟨.free, 5, 0⟩) (List.mem_cons_of_mem _ List.mem_cons_self)
    exact absurd hx.2 (by decide)
  · have hx := (h _ rfl).1 (0, ⟨.alloc, 0, 16⟩) List.mem_cons_self
    exact absurd hx (by decide)

end CsoMalloc
