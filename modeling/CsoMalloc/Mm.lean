import CsoMalloc.Memlib

/-! The allocator of mm.c. A call that never returns, because the program exits,
`mm_init` stores outside the arena or a list walk does not end, is `none`. -/

namespace CsoMalloc

open ByteMemory

def wsize : Nat := 4

def dsize : Nat := 8

/-- `MIN_SIZE`, the smallest remainder worth splitting off. -/
def minSize : Nat := 4 * wsize

def thisalloc : Nat := 1

def prevalloc : Nat := 2

/-- `ALIGN`: round up to a multiple of 8. -/
def align (size : Nat) : Nat := wadd size 7 &&& 0xFFFFFFF8

/-- `ADJUST_WORDCOUNT`: an odd number of words, at least 3. -/
def adjustWordcount (size : Nat) : Nat :=
  if size < 3 then 3 else wadd size ((size % 2) ^^^ 1)

def adjustBytesize (size : Nat) : Nat :=
  align ((adjustWordcount (wadd size 3 / wsize) * wsize) % 2 ^ 32)

def pack (size alloc : Nat) : Nat := size ||| alloc

/-- The size field of a tag word, `GET_SIZE` without the read. -/
def sizeField (w : Nat) : Nat := w &&& 0xFFFFFFFC

namespace State

def getw (s : State) (p : Nat) : Nat := ByteMemory.getw s.mem p

def putw (s : State) (p val : Nat) : State := { s with mem := ByteMemory.putw s.mem p val }

/-- `PUTW` where the address may lie outside the arena. Such a store faults. -/
def storew (s : State) (p val : Nat) : Option State :=
  if s.memStartBrk ≤ p ∧ p + wsize ≤ s.memMaxAddr then some (s.putw p val) else none

def getSize (s : State) (p : Nat) : Nat := sizeField (s.getw p)

def getAlloc (s : State) (p : Nat) : Nat := s.getw p &&& thisalloc

def getBlockhdr (bp : Nat) : Nat := wsub bp wsize

def getBlockftr (s : State) (bp : Nat) : Nat := wsub (wadd bp (s.getSize (getBlockhdr bp))) dsize

def getPrevalloc (s : State) (bp : Nat) : Nat := s.getw (getBlockhdr bp) &&& prevalloc

def getNextblock (s : State) (bp : Nat) : Nat := wadd bp (s.getSize (wsub bp wsize))

def getPrevblock (s : State) (bp : Nat) : Nat := wsub bp (s.getSize (wsub bp dsize))

def getNextalloc (s : State) (bp : Nat) : Nat := s.getAlloc (getBlockhdr (s.getNextblock bp))

def getThisalloc (s : State) (bp : Nat) : Nat := s.getAlloc (getBlockhdr bp)

def getThissize (s : State) (bp : Nat) : Nat := s.getSize (getBlockhdr bp)

/-- `MEMHEADER_FROM_PAYLOAD`: the links of `mem_header` follow the tag word. -/
def memheaderFromPayload (p : Nat) : Nat := getBlockhdr p

/-- `sizeof(mem_header)`: three words. -/
def memHeaderSize : Nat := 3 * wsize

/-- `PAYLOAD_FROM_MEMHEADER`. The pointer that is added to is a `mem_header *`,
so the sum counts whole structures. -/
def payloadFromMemheader (mh : Nat) : Nat := wadd mh (wsize * memHeaderSize)

def nextFree (s : State) (header : Nat) : Nat := s.getw (wadd header 4)

def prevFree (s : State) (header : Nat) : Nat := s.getw (wadd header 8)

def setNextFree (s : State) (header val : Nat) : State := s.putw (wadd header 4) val

def setPrevFree (s : State) (header val : Nat) : State := s.putw (wadd header 8) val

def setHead (s : State) (listIndex : Fin freelistCount) (bp : Nat) : State :=
  { s with freeLists := Function.update s.freeLists listIndex bp }

end State

/-- The loop of `calc_list_index`; `left` is how often `bits + 1` may still
be below `FREELIST_COUNT`. -/
def calcListIndexLoop (size bits : Nat) : Nat → Nat
  | 0 => bits
  | left + 1 => if size >>> bits > 1 then calcListIndexLoop size (bits + 1) left else bits

theorem calcListIndexLoop_le (size bits left : Nat) :
    calcListIndexLoop size bits left ≤ bits + left := by
  induction left generalizing bits with
  | zero => simp [calcListIndexLoop]
  | succ left ih =>
    rw [calcListIndexLoop]
    split
    · have := ih (bits + 1)
      omega
    · omega

def calcListIndex (size : Nat) : Fin freelistCount :=
  ⟨calcListIndexLoop size 0 (freelistCount - 1),
    Nat.lt_of_le_of_lt (calcListIndexLoop_le size 0 (freelistCount - 1)) (by decide)⟩

/-- The loop of `find_end_of_list`. There are `2 ^ 32` addresses, so a walk
that has not met `NULL` after as many steps never does. -/
def findEndOfListLoop (s : State) : Nat → Nat → Nat → Option Nat
  | 0, _, _ => none
  | fuel + 1, bp, nextBp =>
    if nextBp = 0 then some bp else findEndOfListLoop s fuel nextBp (s.getw nextBp)

@[irreducible]
def findEndOfList (s : State) (listIndex : Fin freelistCount) : Option Nat :=
  findEndOfListLoop s (2 ^ 32) (s.freeLists listIndex) (s.freeLists listIndex)

/-- The first loop of `get_node_listindex`, from header to header. -/
def getNodeListindexLoop (s : State) : Nat → Nat → Option Nat
  | 0, _ => none
  | fuel + 1, header =>
    if s.prevFree header ≠ 0
    then getNodeListindexLoop s fuel (State.memheaderFromPayload (s.prevFree header))
    else some header

@[irreducible]
def getNodeListindex (s : State) (bp : Nat) : Option Int :=
  (getNodeListindexLoop s (2 ^ 32) (State.memheaderFromPayload bp)).map fun header =>
    match (List.finRange freelistCount).find? fun i =>
        s.freeLists i = State.payloadFromMemheader header with
    | some i => (i : Nat)
    | none => -1

def removeFromList (s : State) (bp : Nat) (listIndex : Fin freelistCount) : State :=
  let header := State.memheaderFromPayload bp
  let s := if s.nextFree header ≠ 0
    then s.setPrevFree (State.memheaderFromPayload (s.nextFree header)) (s.prevFree header) else s
  let s := if s.prevFree header ≠ 0
    then s.setNextFree (State.memheaderFromPayload (s.prevFree header)) (s.nextFree header) else s
  if s.freeLists listIndex = bp then s.setHead listIndex (s.nextFree header) else s

def addToList (s : State) (bp : Nat) (listIndex : Fin freelistCount) : Option State := do
  let current := State.memheaderFromPayload bp
  let s := s.setNextFree current 0
  let tailPayload ← findEndOfList s listIndex
  if tailPayload = 0 then
    return (s.setHead listIndex bp).setPrevFree current 0
  else
    let s := s.setNextFree (State.memheaderFromPayload tailPayload) bp
    return s.setPrevFree current tailPayload

def coalesce (s : State) (bp : Nat) : Option (State × Nat) := do
  let prevAlloc := s.getPrevalloc bp
  let nextAlloc := s.getNextalloc bp
  let size := s.getThissize bp
  let nextBlock := s.getNextblock bp
  let prevBlock := s.getPrevblock bp
  if prevAlloc ≠ 0 ∧ nextAlloc = 0 then
    -- Case 2: only the next block is free.
    let s := removeFromList s nextBlock (calcListIndex (s.getThissize nextBlock))
    let size := wadd size (s.getSize (State.getBlockhdr nextBlock))
    let s := s.putw (State.getBlockhdr bp) (pack size prevAlloc)
    let s := s.putw (s.getBlockftr bp) (pack size prevAlloc)
    let s ← addToList s bp (calcListIndex size)
    return (s, bp)
  else if prevAlloc = 0 ∧ nextAlloc ≠ 0 then
    -- Case 3: only the previous block is free.
    let s := removeFromList s prevBlock (calcListIndex (s.getThissize prevBlock))
    let size := wadd size (s.getThissize prevBlock)
    let prevAlloc := s.getPrevalloc prevBlock
    let s := s.putw (s.getBlockftr bp) (pack size prevAlloc)
    let s := s.putw (State.getBlockhdr prevBlock) (pack size prevAlloc)
    let s ← addToList s prevBlock (calcListIndex size)
    return (s, prevBlock)
  else if prevAlloc = 0 ∧ nextAlloc = 0 then
    -- Case 4: both neighbours are free.
    let s := removeFromList s nextBlock (calcListIndex (s.getThissize nextBlock))
    let s := removeFromList s prevBlock (calcListIndex (s.getThissize prevBlock))
    let size := wadd size (wadd (s.getThissize prevBlock) (s.getThissize nextBlock))
    let prevAlloc := s.getPrevalloc prevBlock
    let s := s.putw (State.getBlockhdr (s.getPrevblock bp)) (pack size prevAlloc)
    let s := s.putw (s.getBlockftr (s.getNextblock bp)) (pack size prevAlloc)
    let bp := s.getPrevblock bp
    let s ← addToList s bp (calcListIndex size)
    return (s, bp)
  else
    let s ← addToList s bp (calcListIndex size)
    return (s, bp)

/-- `free_block`. The second parameter of the source is not read. -/
def freeBlock (s : State) (bp : Nat) : State :=
  let isPrevAlloc := s.getPrevalloc bp
  let size := s.getThissize bp
  let s := s.putw (State.getBlockhdr bp) (pack size isPrevAlloc)
  s.putw (s.getBlockftr bp) (pack size isPrevAlloc)

def allocate (s : State) (bp adjustedSize : Nat) : Option State := do
  let csize := s.getThissize bp
  let isPrevAlloc := s.getPrevalloc bp
  let s := removeFromList s bp (calcListIndex csize)
  if wsub csize adjustedSize ≥ minSize then
    let s := s.putw (State.getBlockhdr bp) (pack adjustedSize (thisalloc ||| isPrevAlloc))
    let s := s.putw (s.getBlockftr bp) (pack adjustedSize (thisalloc ||| isPrevAlloc))
    let bp := s.getNextblock bp
    let s := s.putw (State.getBlockhdr bp) (pack (wsub csize adjustedSize) prevalloc)
    let s := s.putw (s.getBlockftr bp) (pack (wsub csize adjustedSize) prevalloc)
    let (s, _) ← coalesce s bp
    return s
  else
    let s := s.putw (State.getBlockhdr bp) (pack csize (thisalloc ||| isPrevAlloc))
    let s := s.putw (s.getBlockftr bp) (pack csize (thisalloc ||| isPrevAlloc))
    let bp := State.getBlockhdr (s.getNextblock bp)
    return s.putw bp (s.getw bp ||| prevalloc)

/-- `find_fit`: the head of the first list from `min_index` on whose head is
large enough, with the index of that list. -/
def findFit (s : State) (blockSize : Nat) : Option (Nat × Fin freelistCount) :=
  let minIndex := calcListIndex blockSize
  ((List.finRange freelistCount).drop minIndex).findSome? fun listIndex =>
    let fitptr := s.freeLists listIndex
    if fitptr ≠ 0 ∧ s.getThissize fitptr ≥ blockSize then some (fitptr, listIndex) else none

def epilogueSize : Nat := 0xEA7F00D0

def extendHeap (s : State) (adjustedSize : Nat) : Option (State × Nat) :=
  let (s, bp) := s.memSbrk (toInt adjustedSize)
  if bp = minusOne then some (s, 0)
  else
    let prevAlloc := s.getPrevalloc (wadd s.heapEnd 1)
    let s := s.putw (State.getBlockhdr bp) (pack adjustedSize prevAlloc)
    let s := s.putw (s.getBlockftr bp) (pack adjustedSize prevAlloc)
    let s := s.putw (State.getBlockhdr (s.getNextblock bp)) (pack epilogueSize thisalloc)
    let s := { s with heapEnd := s.memHeapHi }
    coalesce s bp

def mmMalloc (s : State) (size : Nat) : Option (State × Nat) :=
  if size = 0 then some (s, 0)
  else
    let adjustedSize := adjustBytesize size
    match findFit s adjustedSize with
    | some (bp, listIndex) => do
      let s ← allocate s bp adjustedSize
      return (removeFromList s bp listIndex, bp)
    | none => do
      let (s, bp) ← extendHeap s (max adjustedSize s.adjustedPagesize)
      if bp = 0 then
        return (s, 0)
      let s ← allocate s bp adjustedSize
      return (s, bp)

def mmFree (s : State) (ptr : Nat) : Option State := do
  let s := freeBlock s ptr
  let (s, _) ← coalesce s ptr
  return s

def mmRealloc (s : State) (ptr size : Nat) : Option (State × Nat) := do
  let (s, newptr) ← mmMalloc s size
  if newptr = 0 then
    return (s, 0)
  let copySize := s.getThissize ptr
  let copySize := if size < copySize then size else copySize
  let s := { s with mem := memcpy s.mem newptr ptr copySize }
  let s ← mmFree s ptr
  return (s, newptr)

/-- `mm_init`, given what the C library's `malloc` and `getpagesize` return. The
test of the source compares the result of `mem_sbrk` with `NULL`, so the stores
behind it may go to addresses counted from `(void *)-1`. -/
def mmInit (arena pagesize : Nat) (s : State) : Option (State × Int) := do
  let s ← s.memInit arena
  let s := { s with freeLists := fun _ => 0, pageSize := pagesize }
  let s := { s with adjustedPagesize := adjustBytesize ((s.pageSize * 2) % 2 ^ 32) }
  let (s, start) := s.memSbrk (toInt (wadd s.adjustedPagesize (4 * wsize)))
  let s := { s with heapStart := start }
  if start = 0 then
    return (s, -1)
  let s := { s with heapEnd := s.memHeapHi }
  let s ← s.storew s.heapStart 0x8BADF00D
  let s ← s.storew (wadd s.heapStart (1 * wsize)) (pack dsize (thisalloc ||| prevalloc))
  let s ← s.storew (wadd s.heapStart (2 * wsize)) (pack dsize (thisalloc ||| prevalloc))
  let s ← s.storew (wadd (wadd s.heapStart s.adjustedPagesize) (3 * wsize))
    (pack epilogueSize thisalloc)
  let s ← s.storew (wadd s.heapStart (3 * wsize)) (pack s.adjustedPagesize prevalloc)
  let s ← s.storew (wsub (wadd (wsub s.heapEnd wsize) 1) wsize) (pack s.adjustedPagesize prevalloc)
  let s ← addToList s (wadd s.heapStart (4 * wsize)) (calcListIndex s.adjustedPagesize)
  return (s, 0)

end CsoMalloc
