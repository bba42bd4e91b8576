import CsoMalloc.Evaluation
import CsoMalloc.TraceReader

/-! Trace files in the format of the README, and what the driver makes of them. -/

namespace CsoMalloc

open Scanning

def TraceLine.text : TraceLine → List Char
  | .alloc index size => 'a' :: ' ' :: (Nat.toDigits 10 index ++ ' ' :: (Nat.toDigits 10 size ++ ['\n']))
  | .realloc index size =>
    'r' :: ' ' :: (Nat.toDigits 10 index ++ ' ' :: (Nat.toDigits 10 size ++ ['\n']))
  | .free index => 'f' :: ' ' :: (Nat.toDigits 10 index ++ ['\n'])

def Header.text (h : Header) : List Char :=
  [h.suggHeapsize, h.numIds, h.numOps, h.weight].flatMap fun i => decimal i ++ ['\n']

/-- A trace file: the header, and a line for each request. -/
def traceFile (h : Header) (lines : List TraceLine) : List Char :=
  h.text ++ lines.flatMap TraceLine.text

/-- The numbers of the line are of type `unsigned`. -/
def TraceLine.Fits : TraceLine → Prop
  | .alloc index size => index < 2 ^ 32 ∧ size < 2 ^ 32
  | .realloc index size => index < 2 ^ 32 ∧ size < 2 ^ 32
  | .free index => index < 2 ^ 32

def IsInt (i : Int) : Prop := -2 ^ 31 ≤ i ∧ i < 2 ^ 31

structure Header.IsInt (h : Header) : Prop where
  suggHeapsize : CsoMalloc.IsInt h.suggHeapsize
  numIds : CsoMalloc.IsInt h.numIds
  numOps : CsoMalloc.IsInt h.numOps
  weight : CsoMalloc.IsInt h.weight

section Lines

variable {blanks rest : List Char} {index size : Nat} {line : TraceLine} {lines : List TraceLine}

theorem isSpace_of_mem_blank : ∀ c ∈ [' '], isSpace c := by simp [isSpace]

theorem isSpace_of_mem_newline : ∀ c ∈ ['\n'], isSpace c := by simp [isSpace]

theorem scanUnsigned_blank {c : Char} (hc : ¬ c.isDigit) (hi : index < 2 ^ 32) :
    scanUnsigned (' ' :: (Nat.toDigits 10 index ++ c :: rest)) = some (index, c :: rest) :=
  scanUnsigned_toDigits isSpace_of_mem_blank (by simpa using hc) hi

theorem scanPair_text (hi : index < 2 ^ 32) (hs : size < 2 ^ 32) :
    scanPair (' ' :: (Nat.toDigits 10 index ++ ' ' :: (Nat.toDigits 10 size ++ '\n' :: rest))) =
      some (index, size, '\n' :: rest) := by
  rw [scanPair, scanUnsigned_blank (by decide) hi, Option.bind_eq_bind, Option.bind_some]
  dsimp only
  rw [scanUnsigned_blank (by decide) hs]
  rfl

theorem scanIndex_text (hi : index < 2 ^ 32) :
    scanIndex (' ' :: (Nat.toDigits 10 index ++ '\n' :: rest)) = some (index, '\n' :: rest) := by
  rw [scanIndex, scanUnsigned_blank (by decide) hi]
  rfl

theorem scanString_letter {c : Char} (hb : ∀ c ∈ blanks, isSpace c) (hc : ¬ isSpace c) :
    scanString (blanks ++ c :: ' ' :: rest) = some ([c], ' ' :: rest) := by
  have hr : ∀ d ∈ (' ' :: rest).head?, isSpace d := by simp [isSpace]
  exact scanString_token hb (List.cons_ne_nil c []) (by simpa using hc) hr

theorem scanLine_text (hb : ∀ c ∈ blanks, isSpace c) (h : line.Fits) :
    scanLine (blanks ++ (line.text ++ rest)) = .ok (line, '\n' :: rest) := by
  cases line with
  | alloc index size =>
    simp [TraceLine.text, scanLine, scanString_letter hb, isSpace, scanSized, maxline,
      scanPair_text h.1 h.2]
  | realloc index size =>
    simp [TraceLine.text, scanLine, scanString_letter hb, isSpace, scanSized, maxline,
      scanPair_text h.1 h.2]
  | free index =>
    simp [TraceLine.text, scanLine, scanString_letter hb, isSpace, maxline, scanIndex_text h]

theorem scanLine_blanks (hb : ∀ c ∈ blanks, isSpace c) : scanLine blanks = .error .eof := by
  have hskip : skipSpace (blanks ++ []) = [] := skipSpace_append hb (by simp)
  rw [List.append_nil] at hskip
  simp only [scanLine, scanString, hskip]

theorem requests_text (hb : ∀ c ∈ blanks, isSpace c) (h : ∀ line ∈ lines, line.Fits) :
    requests (blanks ++ lines.flatMap TraceLine.text) = (lines, .eof) := by
  induction lines generalizing blanks with
  | nil => exact items_error (scanLine_blanks (by simpa using hb))
  | cons line lines ih =>
    have hrest : requests ('\n' :: lines.flatMap TraceLine.text) = (lines, .eof) :=
      ih isSpace_of_mem_newline fun l hl => h l (List.mem_cons_of_mem line hl)
    rw [requests] at hrest
    rw [requests, List.flatMap_cons, items_ok (scanLine_text hb (h line List.mem_cons_self)), hrest]

theorem scanInt_text {i : Int} (hb : ∀ c ∈ blanks, isSpace c) (hi : IsInt i) :
    scanInt (blanks ++ (decimal i ++ '\n' :: rest)) = some (i, '\n' :: rest) := by
  have hr : ∀ c ∈ ('\n' :: rest).head?, ¬ c.isDigit := by
    simp only [List.head?_cons, Option.mem_def, Option.some.injEq, forall_eq']
    decide
  exact scanInt_decimal hb hr hi

theorem scanInt_newline {i : Int} (hi : IsInt i) :
    scanInt ('\n' :: (decimal i ++ '\n' :: rest)) = some (i, '\n' :: rest) :=
  scanInt_text isSpace_of_mem_newline hi

theorem scanHeader_text {h : Header} (hh : h.IsInt) :
    scanHeader (h.text ++ rest) = some (h, '\n' :: rest) := by
  have hfirst : ∀ text, scanInt (decimal h.suggHeapsize ++ '\n' :: text) =
      some (h.suggHeapsize, '\n' :: text) := fun text =>
    scanInt_text (List.forall_mem_nil _) hh.suggHeapsize
  simp [scanHeader, Header.text, hfirst, scanInt_newline, hh.numIds, hh.numOps, hh.weight]

end Lines

section Files

variable {malloc : Nat → Nat → Bool} {fresh : Nat → TraceOp} {text rest : List Char} {h : Header}
  {lines : List TraceLine}

theorem readTrace_traceFile (hm : malloc 1 28 = true) (hg : h.arraysGranted malloc = true)
    (hh : h.IsInt) (hl : ∀ line ∈ lines, line.Fits) :
    readTrace malloc fresh (traceFile h lines) =
      ⟨some h, (lines.foldl Reading.step (.start fresh)).stores,
        (lines.foldl Reading.step (.start fresh)).finish h .eof⟩ := by
  have hreq : requests ('\n' :: lines.flatMap TraceLine.text) = (lines, .eof) :=
    requests_text isSpace_of_mem_newline hl
  rw [traceFile, readTrace_of_header hm (scanHeader_text hh) hg, hreq]

theorem scanSized_fits {line : TraceLine} {f : Nat → Nat → TraceLine}
    (hf : ∀ index size, index < 2 ^ 32 → size < 2 ^ 32 → (f index size).Fits)
    (h : scanSized f text = .ok (line, rest)) : line.Fits := by
  cases hp : scanPair text with
  | none => simp [scanSized, hp] at h
  | some v =>
    obtain ⟨index, size, tail⟩ := v
    simp only [scanSized, hp, Except.ok.injEq, Prod.mk.injEq] at h
    rw [← h.1]
    simp only [scanPair, Option.bind_eq_bind, Option.bind_eq_some_iff, Prod.exists, Option.pure_def,
      Option.some.injEq, Prod.mk.injEq] at hp
    obtain ⟨i, mid, hi, n, end_, hn, rfl, rfl, rfl⟩ := hp
    exact hf i n (scanUnsigned_lt hi) (scanUnsigned_lt hn)

theorem scanLine_fits {line : TraceLine} (h : scanLine text = .ok (line, rest)) : line.Fits := by
  cases hs : scanString text with
  | none => simp [scanLine, hs] at h
  | some token =>
    obtain ⟨type, mid⟩ := token
    simp only [scanLine, hs] at h
    split_ifs at h
    · refine scanSized_fits ?_ h
      exact fun _ _ hi hn => ⟨hi, hn⟩
    · refine scanSized_fits ?_ h
      exact fun _ _ hi hn => ⟨hi, hn⟩
    · cases hp : scanIndex mid with
      | none => simp [hp] at h
      | some v =>
        simp only [hp, Except.ok.injEq, Prod.mk.injEq] at h
        rw [← h.1]
        exact (scanIndex_spec hp).1

theorem scanHeader_isInt (hh : scanHeader text = some (h, rest)) : h.IsInt := by
  simp only [scanHeader, Option.bind_eq_bind, Option.bind_eq_some_iff, Prod.exists, Option.pure_def,
    Option.some.injEq, Prod.mk.injEq] at hh
  obtain ⟨_, _, hsugg, _, _, hids, _, _, hops, _, _, hweight, rfl, _⟩ := hh
  exact ⟨scanInt_range hsugg, scanInt_range hids, scanInt_range hops, scanInt_range hweight⟩

theorem readTrace_inv {t : Trace} (hr : (readTrace malloc fresh text).result = .ok t) :
    ∃ h rest, malloc 1 28 = true ∧ scanHeader text = some (h, rest) ∧ h.arraysGranted malloc = true ∧
      (requests rest).2 = .eof := by
  cases hm : malloc 1 28 with
  | false => simp [readTrace, hm] at hr
  | true =>
    cases hh : scanHeader text with
    | none => simp [readTrace, hm, hh] at hr
    | some v =>
      obtain ⟨h, rest⟩ := v
      cases hg : h.arraysGranted malloc with
      | false => simp [readTrace, hm, hh, hg] at hr
      | true =>
        rw [readTrace_of_header hm hh hg] at hr
        exact ⟨h, rest, rfl, rfl, hg, (Reading.finish_ok_iff.mp ⟨t, hr⟩).1⟩

/-- A file that `read_trace` accepts is read like one in the format of the README:
whatever its spacing, its signs and the words that start its lines, the same
numbers are read, the same stores made and the same trace returned. -/
theorem accepted_files_have_the_format {t : Trace}
    (hr : (readTrace malloc fresh text).result = .ok t) :
    ∃ h lines, h.IsInt ∧ (∀ line ∈ lines, line.Fits) ∧
      readTrace malloc fresh (traceFile h lines) = readTrace malloc fresh text := by
  obtain ⟨h, rest, hm, hh, hg, he⟩ := readTrace_inv hr
  have hfits : ∀ line ∈ (requests rest).1, line.Fits :=
    items_forall (fun _ _ _ hl => scanLine_fits hl) rest
  refine ⟨h, (requests rest).1, scanHeader_isInt hh, hfits, ?_⟩
  rw [readTrace_traceFile hm hg (scanHeader_isInt hh) hfits, readTrace_of_header hm hh hg, he]

theorem accepted_files_have_the_format_words :
    ∃ h lines, h.IsInt ∧ (∀ line ∈ lines, line.Fits) ∧
      readTrace (fun _ _ => true) (fun _ => ⟨.alloc, 0, 3⟩) (traceFile h lines) =
        readTrace (fun _ _ => true) (fun _ => ⟨.alloc, 0, 3⟩)
          "20000 +1 2 1 alloc 0 16 free 0".toList := by
  have hreq : requests " alloc 0 16 free 0".toList = ([.alloc 0 16, .free 0], .eof) := by
    rw [requests, items_ok (show scanLine _ = .ok (.alloc 0 16, " free 0".toList) from rfl),
      items_ok (show scanLine _ = .ok (.free 0, []) from rfl), items_error (show scanLine _ = _ from rfl)]
  have hh : scanHeader "20000 +1 2 1 alloc 0 16 free 0".toList =
      some (⟨20000, 1, 2, 1⟩, " alloc 0 16 free 0".toList) := rfl
  refine accepted_files_have_the_format (t := ⟨1, [⟨.alloc, 0, 16⟩, ⟨.free, 0, 3⟩]⟩) ?_
  rw [readTrace_of_header rfl hh rfl, hreq]
  rfl

end Files

/-- The operation stored for a line, in a place of the array that holds `old`. -/
def TraceLine.op (line : TraceLine) (old : TraceOp) : TraceOp :=
  match line with
  | .alloc index size => ⟨.alloc, toInt index, toInt size⟩
  | .realloc index size => ⟨.realloc, toInt index, toInt size⟩
  | .free index => { old with type := .free, index := toInt index }

namespace Reading

variable {r : Reading} {lines : List TraceLine}

theorem step_ops (line : TraceLine) :
    (r.step line).ops = Function.update r.ops r.opIndex (line.op (r.ops r.opIndex)) := by
  cases line <;> rfl

theorem foldl_ops_of_lt {k : Nat} (hr : r.opIndex + lines.length ≤ 2 ^ 31) (hk : k < r.opIndex) :
    (lines.foldl step r).ops k = r.ops k := by
  induction lines generalizing r with
  | nil => rfl
  | cons line lines ih =>
    rw [List.length_cons] at hr
    have hop : (r.step line).opIndex = r.opIndex + 1 := by rw [step_opIndex, wadd_eq (by omega)]
    rw [List.foldl_cons, ih (by omega) (by omega), step_ops, Function.update_of_ne (by omega)]

theorem foldl_ops (hr : r.opIndex + lines.length ≤ 2 ^ 31) :
    (List.range' r.opIndex lines.length).map (lines.foldl step r).ops =
      lines.mapIdx fun k line => line.op (r.ops (r.opIndex + k)) := by
  induction lines generalizing r with
  | nil => rfl
  | cons line lines ih =>
    rw [List.length_cons] at hr
    have hop : (r.step line).opIndex = r.opIndex + 1 := by rw [step_opIndex, wadd_eq (by omega)]
    have hfirst : (lines.foldl step (r.step line)).ops r.opIndex = line.op (r.ops r.opIndex) := by
      rw [foldl_ops_of_lt (by omega) (by omega), step_ops, Function.update_self]
    have hrest := ih (r := r.step line) (by omega)
    rw [hop] at hrest
    rw [List.length_cons, List.range'_succ, List.map_cons, List.foldl_cons, hfirst, hrest,
      List.mapIdx_cons]
    refine congrArg (_ :: ·) (List.mapIdx_eq_mapIdx_iff.mpr fun k hk => ?_)
    rw [step_ops, Function.update_of_ne (by omega), Nat.add_assoc, Nat.add_comm 1 k]

theorem finish_start {fresh : Nat → TraceOp} {h : Header} (hh : h.IsInt)
    (hlen : (lines.length : Int) = h.numOps) :
    (lines.foldl step (start fresh)).finish h .eof =
      if largestId lines = word (h.numIds - 1)
      then .ok ⟨h.numIds, lines.mapIdx fun k line => line.op (fresh k)⟩ else .error .assertFailed := by
  have hmax : (lines.foldl step (start fresh)).maxIndex = largestId lines := foldl_maxIndex
  have hbound := hh.numOps.2
  have hop : (lines.foldl step (start fresh)).opIndex = lines.length := by
    rw [foldl_opIndex (show 0 < 2 ^ 32 by decide)]
    exact (wadd_eq (show 0 + lines.length < 2 ^ 32 by omega)).trans (Nat.zero_add _)
  have hops : (List.range' 0 lines.length).map (lines.foldl step (start fresh)).ops =
      lines.mapIdx fun k line => line.op (fresh (0 + k)) := foldl_ops (r := start fresh) (by
    show 0 + lines.length ≤ 2 ^ 31
    omega)
  have hword : word h.numOps = lines.length := by rw [← hlen, word_eq (by omega) (by omega)]; rfl
  have hnat : h.numOps.toNat = lines.length := by omega
  simp only [finish, hmax, hop, hword, hnat, and_true]
  simp only [Nat.zero_add] at hops
  rw [List.range_eq_range', hops]

end Reading

namespace TraceOp

def line (op : TraceOp) : TraceLine :=
  match op.type with
  | .alloc => .alloc (word op.index) (word op.size)
  | .realloc => .realloc (word op.index) (word op.size)
  | .free => .free (word op.index)

/-- The operation without the size that a free request does not have. -/
def bare (op : TraceOp) : TraceOp := if op.type = .free then { op with size := 0 } else op

/-- The fields that the request has are of type `int`. -/
def IsInt (op : TraceOp) : Prop :=
  CsoMalloc.IsInt op.index ∧ (op.type ≠ .free → CsoMalloc.IsInt op.size)

end TraceOp

namespace Trace

def header (t : Trace) (suggHeapsize weight : Int) : Header :=
  ⟨suggHeapsize, t.numIds, t.ops.length, weight⟩

def file (t : Trace) (suggHeapsize weight : Int) : List Char :=
  traceFile (t.header suggHeapsize weight) (t.ops.map TraceOp.line)

/-- The trace in memory. Where an operation is a free request, its size is what
the array held before. -/
def loaded (t : Trace) (fresh : Nat → TraceOp) : Trace :=
  ⟨t.numIds, t.ops.mapIdx fun k op => if op.type = .free then { op with size := (fresh k).size } else op⟩

def bare (t : Trace) : Trace := ⟨t.numIds, t.ops.map TraceOp.bare⟩

end Trace

theorem word_lt (i : Int) : word i < 2 ^ 32 := by
  rw [word]
  omega

theorem toInt_word {i : Int} (hi : IsInt i) : toInt (word i) = i := by
  have hlo := hi.1
  have hhi := hi.2
  rw [toInt, word]
  split <;> omega

namespace TraceOp

variable {op : TraceOp}

theorem line_fits (op : TraceOp) : op.line.Fits := by
  rw [line]
  split
  · exact ⟨word_lt _, word_lt _⟩
  · exact ⟨word_lt _, word_lt _⟩
  · exact word_lt _

theorem op_line (h : op.IsInt) (old : TraceOp) :
    op.line.op old = if op.type = .free then { op with size := old.size } else op := by
  obtain ⟨type, index, size⟩ := op
  cases type with
  | alloc => simp [line, TraceLine.op, toInt_word h.1, toInt_word (h.2 (by simp))]
  | realloc => simp [line, TraceLine.op, toInt_word h.1, toInt_word (h.2 (by simp))]
  | free => simp [line, TraceLine.op, toInt_word h.1]

end TraceOp

section RoundTrip

variable {malloc : Nat → Nat → Bool} {fresh : Nat → TraceOp} {t : Trace} {suggHeapsize weight : Int}

theorem Trace.lines_op (hops : ∀ op ∈ t.ops, op.IsInt) (fresh : Nat → TraceOp) :
    ((t.ops.map TraceOp.line).mapIdx fun k line => line.op (fresh k)) = (t.loaded fresh).ops := by
  refine List.ext_getElem (by simp [loaded]) fun k hk _ => ?_
  rw [List.length_mapIdx, List.length_map] at hk
  simp only [loaded, List.getElem_mapIdx, List.getElem_map]
  exact TraceOp.op_line (hops _ (List.getElem_mem hk)) (fresh k)

theorem Trace.file_read (hm : malloc 1 28 = true)
    (hg : (t.header suggHeapsize weight).arraysGranted malloc = true)
    (hh : (t.header suggHeapsize weight).IsInt) (hops : ∀ op ∈ t.ops, op.IsInt) :
    (readTrace malloc fresh (t.file suggHeapsize weight)).result =
      if largestId (t.ops.map TraceOp.line) = word (t.numIds - 1) then .ok (t.loaded fresh)
      else .error .assertFailed := by
  have hfits : ∀ line ∈ t.ops.map TraceOp.line, line.Fits :=
    List.forall_mem_map.mpr fun op _ => op.line_fits
  rw [Trace.file, readTrace_traceFile hm hg hh hfits]
  rw [Reading.finish_start hh (by rw [List.length_map]; rfl), Trace.lines_op hops]
  rfl

end RoundTrip

namespace TraceOp

variable {numIds : Int} {op : TraceOp} {done ops : List TraceOp}

@[simp] theorem bare_type (op : TraceOp) : op.bare.type = op.type := by
  rw [bare]
  split <;> rfl

@[simp] theorem bare_index (op : TraceOp) : op.bare.index = op.index := by
  rw [bare]
  split <;> rfl

theorem bare_size (h : op.type ≠ .free) : op.bare.size = op.size := by rw [bare, if_neg h]

theorem allowed_bare_iff :
    op.bare.Allowed numIds (done.map bare) ↔ op.Allowed numIds done := by
  have hsize : (op.type ≠ .free → 1 ≤ op.bare.size ∧ op.bare.size ≤ maxHeap) ↔
      (op.type ≠ .free → 1 ≤ op.size ∧ op.size ≤ maxHeap) :=
    forall_congr' fun h => by rw [bare_size h]
  constructor
  · intro h
    refine ⟨by simpa using h.index, hsize.mp (by simpa using h.size), ?_, ?_⟩
    · simpa using h.allocated
    · simpa using h.notFreed
  · intro h
    refine ⟨by simpa using h.index, by simpa using hsize.mpr h.size, ?_, ?_⟩
    · simpa using h.allocated
    · simpa using h.notFreed

theorem sequence_bare_iff :
    Sequence numIds (done.map bare) (ops.map bare) ↔ Sequence numIds done ops := by
  induction ops generalizing done with
  | nil => rfl
  | cons op ops ih =>
    have hrest : Sequence numIds ((done ++ [op]).map bare) (ops.map bare) ↔ _ := ih
    rw [List.map_append, List.map_singleton] at hrest
    rw [List.map_cons, Sequence, Sequence, allowed_bare_iff, hrest]

theorem advance_bare (op : TraceOp) (blocks : List (Int × Int)) :
    op.bare.advance blocks = op.advance blocks := by
  by_cases h : op.type = .free
  · simp [advance, h]
  · rw [bare, if_neg h]

theorem inUse_bare (ops : List TraceOp) : inUse (ops.map bare) = inUse ops := by
  rw [inUse, List.foldl_map]
  simp only [advance_bare]
  rfl

theorem peak_bare (ops : List TraceOp) : peak (ops.map bare) = peak ops := by
  have hinits : (ops.map bare).inits = ops.inits.map (List.map bare) := List.map_inits bare
  rw [peak, hinits, List.map_map]
  simp only [Function.comp_def, totalInUse, inUse_bare]
  rfl

end TraceOp

namespace Rehearsal

variable {page : Size}

theorem step_bare (R : Rehearsal) (op : TraceOp) : R.step page op.bare = R.step page op := by
  by_cases h : op.type = .free
  · simp only [step, request, hold, TraceOp.bare_type, TraceOp.bare_index, h]
  · rw [TraceOp.bare, if_neg h]

theorem loop_bare (ops : List TraceOp) (R : Rehearsal) :
    loop page (ops.map TraceOp.bare) R = loop page ops R := by
  induction ops generalizing R with
  | nil => rfl
  | cons op ops ih => simp only [List.map_cons, loop, step_bare, ih]

theorem report_bare (tracenum : Int) (i : Nat) (ops : List TraceOp) (R : Rehearsal) :
    report page tracenum i (ops.map TraceOp.bare) R = report page tracenum i ops R := by
  induction ops generalizing i R with
  | nil => rfl
  | cons op ops ih =>
    simp only [List.map_cons, report, verdict, step_bare, TraceOp.bare_type, TraceOp.bare_index, ih]

end Rehearsal

namespace Trace

variable {t : Trace} {page : Size} {fresh : Nat → TraceOp}

theorem wellFormed_bare_iff : t.bare.WellFormed ↔ t.WellFormed :=
  @TraceOp.sequence_bare_iff t.numIds [] t.ops

theorem report_bare (t : Trace) (page : Size) (tracenum : Int) :
    t.bare.report page tracenum = t.report page tracenum :=
  Rehearsal.report_bare tracenum 0 t.ops _

theorem score_bare (t : Trace) (page : Size) : t.bare.score page = t.score page := by
  have hops : t.bare.ops.length = t.ops.length := List.length_map _
  have hr : t.bare.rehearse page = t.rehearse page := Rehearsal.loop_bare t.ops _
  have hp : peak t.bare.ops = peak t.ops := TraceOp.peak_bare t.ops
  rw [score, score, report_bare, hops, hr, hp]

theorem loaded_bare (t : Trace) (fresh : Nat → TraceOp) : (t.loaded fresh).bare = t.bare := by
  have hops : (t.loaded fresh).ops.map TraceOp.bare = t.ops.map TraceOp.bare := by
    refine List.ext_getElem (by simp [loaded]) fun k _ _ => ?_
    simp only [loaded, List.getElem_map, List.getElem_mapIdx, TraceOp.bare]
    split <;> simp_all
  exact congrArg (Trace.mk t.numIds) hops

end Trace

section RoundTrip

variable {malloc : Nat → Nat → Bool} {fresh : Nat → TraceOp} {t : Trace} {suggHeapsize weight : Int}

def freeTrace : Trace := ⟨1, [⟨.alloc, 0, 16⟩, ⟨.free, 0, 0⟩]⟩

end RoundTrip

/-- What the C library's `malloc` does while a file is read: which calls it grants,
and what the three new arrays hold. -/
structure Supply where
  malloc : Nat → Nat → Bool
  ops : Nat → TraceOp
  blocks : (Int → Nat) × (Int → Nat)

section Main

variable (arena : Nat → Nat) (pagesize : Nat)

/-- The loop of `main` over the trace files, each of which is read when its turn
comes. -/
def evalFiles (supply : Nat → Supply) :
    Nat → List (List Char) → Session → Except Stop (Session × List Stats)
  | _, [], S => .ok (S, [])
  | i, text :: files, S => do
    let trace ← (readTrace (supply i).malloc (supply i).ops text).result.mapError .reading
    let (S, st) ← (S.evalTrace arena pagesize (supply i).blocks i trace).mapError .halted
    let (S, stats) ← evalFiles supply (i + 1) files S
    return (S, st :: stats)

end Main

namespace Trace

/-- A well-formed trace whose numbers of ids and of operations can stand in a
header, and whose largest id is the one that `read_trace` expects. -/
structure Storable (t : Trace) : Prop where
  wellFormed : t.WellFormed
  numIds : 1 ≤ t.numIds ∧ t.numIds < 2 ^ 31
  numOps : t.ops.length < 2 ^ 31
  largest : largestId (t.ops.map TraceOp.line) = word (t.numIds - 1)

def SavedAs (t : Trace) (text : List Char) : Prop :=
  ∃ suggHeapsize weight, IsInt suggHeapsize ∧ IsInt weight ∧ text = t.file suggHeapsize weight

end Trace

section Evaluation

variable {numIds : Int} {done ops : List TraceOp} {t : Trace} {E : Nat → Env} {pagesize i : Nat}
  {supply : Nat → Supply} {files : List (List Char)} {traces : List Trace}

theorem Trace.Storable.isInt (h : t.Storable) : ∀ op ∈ t.ops, op.IsInt := by
  intro op hop
  obtain ⟨l, r, hops⟩ := List.append_of_mem hop
  have ha := TraceOp.Sequence.allowed (hops ▸ h.wellFormed : TraceOp.Sequence t.numIds [] (l ++ op :: r))
  have hids := h.numIds
  have hindex := ha.index
  refine ⟨⟨by omega, by omega⟩, fun ht => ?_⟩
  have hsize := ha.size ht
  rw [maxHeap] at hsize
  exact ⟨by omega, by omega⟩

theorem Trace.Storable.read (h : t.Storable) {text : List Char} (ht : t.SavedAs text)
    {malloc : Nat → Nat → Bool} (hm : ∀ k n, malloc k n = true) (fresh : Nat → TraceOp) :
    (readTrace malloc fresh text).result = .ok (t.loaded fresh) := by
  obtain ⟨suggHeapsize, weight, hsugg, hweight, rfl⟩ := ht
  have hids : IsInt t.numIds := ⟨by have := h.numIds; omega, h.numIds.2⟩
  have hops : IsInt t.ops.length := ⟨by omega, by have := h.numOps; omega⟩
  have hg : (t.header suggHeapsize weight).arraysGranted malloc = true := by
    simp only [Header.arraysGranted, hm, Bool.and_self]
  rw [file_read (hm 1 28) hg ⟨hsugg, hids, hops, hweight⟩ h.isInt, if_pos h.largest]

theorem mapError_ok_bind {α β ε : Type} (g : ε → Stop) (a : α) (f : α → Except Stop β) :
    (Except.mapError g (.ok a) >>= f) = f a := rfl

theorem evalFiles_exact (hpage : ∀ k, (E k).pageSize = pagesize)
    (hs : List.Forall₂ Trace.SavedAs traces files) (hts : ∀ t ∈ traces, t.Storable)
    (hm : ∀ j k n, (supply j).malloc k n = true) (S : Session) :
    ∃ S', evalFiles (fun k => (E k).base) pagesize supply i files S =
        .ok (S', traces.map (·.score (E 0).page)) ∧
      S'.errors = S.errors ++ (traces.zipIdx i).filterMap fun x => x.1.report (E 0).page x.2 := by
  induction hs generalizing i S with
  | nil => exact ⟨S, rfl, by simp⟩
  | @cons t text traces files ht _ ih =>
    have hread := (hts t List.mem_cons_self).read ht (hm i) (supply i).ops
    have hwf : (t.loaded (supply i).ops).WellFormed := by
      rw [← Trace.wellFormed_bare_iff, Trace.loaded_bare, Trace.wellFormed_bare_iff]
      exact (hts t List.mem_cons_self).wellFormed
    obtain ⟨S₁, h₁, herr₁⟩ := evalTrace_exact hpage hwf (supply i).blocks i S
    rw [← Trace.score_bare, Trace.loaded_bare, Trace.score_bare] at h₁
    rw [← Trace.report_bare, Trace.loaded_bare, Trace.report_bare] at herr₁
    obtain ⟨S₂, h₂, herr₂⟩ := ih (fun a ha => hts a (List.mem_cons_of_mem t ha)) S₁ (i := i + 1)
    refine ⟨S₂, ?_, ?_⟩
    · rw [evalFiles, hread, mapError_ok_bind, h₁, mapError_ok_bind]
      dsimp only
      rw [h₂]
      rfl
    · rw [herr₂, herr₁, List.append_assoc, List.zipIdx_cons, List.filterMap_cons]
      cases t.report (E 0).page i with
      | none => rfl
      | some r => rfl

def Supply.ample : Supply := ⟨fun _ _ => true, fun _ => ⟨.alloc, 0, 3⟩, fun _ => 1, fun _ => 1⟩

end Evaluation

end CsoMalloc
