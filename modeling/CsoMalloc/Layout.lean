import CsoMalloc.Mm
import CsoMalloc.Tiling

/-! The heap as its client should imagine it: a row of blocks tiling the space
between prologue and epilogue, and for each size class the sequence of its free
blocks. Blocks are named by the offset of their payload from `heap_start`. -/

namespace CsoMalloc

open Tiling

/-- A block size: a multiple of 8 that holds a header, two links and a footer. -/
abbrev Size := { n : Nat // 16 ≤ n ∧ 8 ∣ n }

/-- A block with the two flags of its header. -/
@[ext]
structure Block where
  size : Nat
  alloc : Bool
  prevAlloc : Bool
  size_ge : 16 ≤ size
  size_dvd : 8 ∣ size
  deriving DecidableEq

abbrev Lists := Fin freelistCount → List Nat

def Lists.unlink (lists : Lists) (o size : Nat) : Lists :=
  Function.update lists (calcListIndex size) ((lists (calcListIndex size)).erase o)

def Lists.link (lists : Lists) (o size : Nat) : Lists :=
  Function.update lists (calcListIndex size) (lists (calcListIndex size) ++ [o])

structure Layout where
  blocks : List Block
  epiPrev : Bool
  lists : Lists

/-- A layout opened at one block; `before` has the nearest block first. -/
structure Focus where
  before : List Block
  block : Block
  after : List Block
  epiPrev : Bool
  lists : Lists

/-- The smallest block size that can hold `n` requested bytes. -/
def fitSize (n : Nat) : Size := ⟨max 16 (8 * ((n + 11) / 8)), by omega⟩

/-- The block that results when `c` is appended to `b`. -/
def Block.join (b c : Block) : Block where
  size := b.size + c.size
  alloc := b.alloc
  prevAlloc := b.prevAlloc
  size_ge := by have := b.size_ge; omega
  size_dvd := by have := b.size_dvd; have := c.size_dvd; omega

namespace Focus

def offset (f : Focus) : Nat := 16 + extent Block.size f.before

def layout (f : Focus) : Layout := ⟨f.before.reverse ++ f.block :: f.after, f.epiPrev, f.lists⟩

def absorbNext (f : Focus) : Focus :=
  match f.after with
  | [] => f
  | n :: rest =>
    if n.alloc then f
    else { f with block := f.block.join n, after := rest
                  lists := f.lists.unlink (f.offset + f.block.size) n.size }

def absorbPrev (f : Focus) : Focus :=
  match f.before with
  | [] => f
  | l :: rest =>
    if f.block.prevAlloc then f
    else { f with before := rest, block := l.join f.block
                  lists := f.lists.unlink (16 + extent Block.size rest) l.size }

/-- Merge a free block that is on no list with its free neighbours and list
the result. Whether the previous block is free is read from the flag. -/
def coalesce (f : Focus) : Focus :=
  let g := f.absorbNext.absorbPrev
  { g with lists := g.lists.link g.offset g.block.size }

def release (f : Focus) : Focus := coalesce { f with block := { f.block with alloc := false } }

/-- Set the flag that tells the following header its predecessor is in use. -/
def markNext (f : Focus) : Focus :=
  match f.after with
  | [] => { f with epiPrev := true }
  | n :: rest => { f with after := { n with prevAlloc := true } :: rest }

/-- Hand out the first `a` bytes of a free block, or all of it when what is
left over would be too small for a block. -/
def place (f : Focus) (a : Size) : Layout :=
  let lists := f.lists.unlink f.offset f.block.size
  if h : 16 ≤ f.block.size - a then
    let front : Block := ⟨a, true, f.block.prevAlloc, a.2.1, a.2.2⟩
    let rest : Block := ⟨f.block.size - a, false, true, h, Nat.dvd_sub f.block.size_dvd a.2.2⟩
    (coalesce ⟨front :: f.before, rest, f.after, f.epiPrev, lists⟩).layout
  else
    (markNext { f with block := { f.block with alloc := true }, lists := lists }).layout

end Focus

namespace Layout

/-- Open a layout at the block whose payload is at offset `o`. -/
def focus (L : Layout) (o : Nat) : Option Focus :=
  (seek Block.size o 16 [] L.blocks).map fun x => ⟨x.1, x.2.1, x.2.2, L.epiPrev, L.lists⟩

def sizeAt (L : Layout) (o : Nat) : Nat := ((L.focus o).map fun f => f.block.size).getD 0

def heapsize (L : Layout) : Nat := 16 + extent Block.size L.blocks

/-- A new free block of size `k` behind the last one. -/
def extend (L : Layout) (k : Size) : Focus :=
  ⟨L.blocks.reverse, ⟨k, false, L.epiPrev, k.2.1, k.2.2⟩, [], false, L.lists⟩

/-- The head of the first list from the class of `a` on that is large enough. -/
def findFit (L : Layout) (a : Nat) : Option Nat :=
  ((List.finRange freelistCount).drop (calcListIndex a)).findSome? fun i =>
    (L.lists i).head?.bind fun o => if a ≤ L.sizeAt o then some o else none

def maxSize (a b : Size) : Size := if a.1 ≤ b.1 then b else a

/-- Allocate a block of size `a`, growing the heap by at least `page`. -/
def take (L : Layout) (page a : Size) : Layout × Option Nat :=
  match L.findFit a with
  | some o => ((L.focus o).elim L fun f => f.place a, some o)
  | none =>
    if L.heapsize + maxSize a page ≤ maxHeap then
      let f := (L.extend (maxSize a page)).coalesce
      (f.place a, some f.offset)
    else (L, none)

def malloc (L : Layout) (page : Size) (n : Nat) : Layout × Option Nat :=
  if n = 0 then (L, none) else L.take page (fitSize n)

def free (L : Layout) (o : Nat) : Layout := (L.focus o).elim L fun f => f.release.layout

/-- Allocate anew, then free the old block; nothing happens when there is no
room for the new one. -/
def realloc (L : Layout) (page : Size) (o n : Nat) : Layout × Option Nat :=
  match L.malloc page n with
  | (L', none) => (L', none)
  | (L', some p) => (L'.free o, some p)

def initial (page : Size) : Layout :=
  ⟨[⟨page, false, true, page.2.1, page.2.2⟩], false, Lists.link (fun _ => []) 16 page⟩

end Layout

end CsoMalloc
