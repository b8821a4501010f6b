import Mathlib.Data.List.Chain
import Mathlib.Data.Set.Insert
import OsPractices.Library.Tiling
import OsPractices.Malloc.Words

/-!
# Layouts

What the allocator's metadata mean: the blocks of the heap in address order
and, for each rank, the free blocks in list order. The operations of the
package are given here on layouts, where they are functions of the requested
sizes alone.
-/

set_option autoImplicit false

namespace OsPractices.Malloc

open Library

/-- A block by the offset of its payload, its size with its tags and links,
and whether the client holds it. -/
structure Block where
  off : Nat
  size : Nat
  used : Bool
  deriving DecidableEq, Repr

namespace Block

def status (block : Block) : Nat := if block.used then Malloc.used else Malloc.unused

def tag (block : Block) : Nat := zip block.size block.status

/-- The bytes the client may use. -/
def Owns (block : Block) (byte : Nat) : Prop :=
  block.off ≤ byte ∧ byte + 16 < block.off + block.size

def join (pred succ : Block) : Block := ⟨pred.off, pred.size + succ.size, false⟩

/-- What `place` makes of a free block. -/
def placed (block : Block) (size : Nat) : List Block :=
  if size + metaSize < block.size then
    [⟨block.off, size, true⟩, ⟨block.off + size, block.size - size, false⟩]
  else [⟨block.off, block.size, true⟩]

end Block

/-- The offsets in the free list of each rank. -/
abbrev Bins := Nat → List Nat

namespace Bins

def push (bins : Bins) (block : Block) : Bins :=
  Function.update bins (getRank block.size) (block.off :: bins (getRank block.size))

def remove (bins : Bins) (block : Block) : Bins :=
  Function.update bins (getRank block.size) ((bins (getRank block.size)).erase block.off)

def coalesce (bins : Bins) (pred succ : Block) : Bins :=
  ((bins.remove succ).remove pred).push (pred.join succ)

/-- The remnant of a placed block goes to a free list. -/
def place (bins : Bins) (block : Block) (size : Nat) : Bins :=
  if size + metaSize < block.size then
    bins.push ⟨block.off + size, block.size - size, false⟩
  else bins

end Bins

/-- Blocks laid end to end. -/
abbrev Block.Tiled (start : Nat) (blocks : List Block) (stop : Nat) : Prop :=
  Library.Tiled Block.off Block.size start blocks stop

/-- The block at an offset, with the blocks before and after it. -/
def locate (off : Nat) : List Block → Option (List Block × Block × List Block)
  | [] => none
  | block :: rest =>
      if block.off = off then some ([], block, rest)
      else (locate off rest).map fun (front, found, back) => (block :: front, found, back)

/-- The size in the 32-bit tags of the block for a request. -/
def blockSize (bytes : Nat) : Nat := u32 (align (u64 (bytes + metaSize)))

structure Layout where
  blocks : List Block
  bins : Bins
  top : Nat

namespace Layout

def empty : Layout := ⟨[], fun _ => [], 32⟩

def sizeOf (layout : Layout) (off : Nat) : Nat :=
  match layout.blocks.find? (·.off = off) with
  | some block => block.size
  | none => 0

/-- First fit over the free lists from the request's rank up. -/
def fit (layout : Layout) (size : Nat) : Option Nat :=
  ((List.range' (getRank size) (3 - getRank size)).flatMap layout.bins).find?
    (size ≤ layout.sizeOf ·)

/-- Give `block`, which is in no free list, to the client. -/
def placeBetween (front : List Block) (block : Block) (back : List Block) (bins : Bins)
    (top size : Nat) : Layout :=
  ⟨front ++ block.placed size ++ back, bins.place block size, top⟩

/-- `none` where `mem_sbrk` refuses. -/
def malloc (layout : Layout) (size : Nat) : Option (Nat × Layout) :=
  match layout.fit size with
  | some off =>
      (locate off layout.blocks).map fun (front, block, back) =>
        (off, placeBetween front block back (layout.bins.remove block) layout.top size)
  | none =>
      if layout.top + size ≤ maxHeap then
        some (layout.top,
          ⟨layout.blocks ++ [⟨layout.top, size, true⟩], layout.bins, layout.top + size⟩)
      else none

/-- Merge a free block with a free block after it. -/
def absorbNext (block : Block) (bins : Bins) : List Block → Block × List Block × Bins
  | [] => (block, [], bins)
  | next :: back =>
      if next.used then (block, next :: back, bins)
      else (block.join next, back, bins.coalesce block next)

/-- Merge a free block with a free block before it. -/
def absorbPrev (front : List Block) (block : Block) (bins : Bins) : List Block × Bins :=
  match front.getLast? with
  | none => ([block], bins)
  | some prev =>
      if prev.used then (front ++ [block], bins)
      else (front.dropLast ++ [prev.join block], bins.coalesce prev block)

def releaseBetween (front : List Block) (block : Block) (back : List Block) (bins : Bins)
    (top : Nat) : Layout :=
  let (merged, rest, bins) :=
    absorbNext { block with used := false } (bins.push block) back
  let (blocks, bins) := absorbPrev front merged bins
  ⟨blocks ++ rest, bins, top⟩

def release (layout : Layout) (off : Nat) : Layout :=
  match locate off layout.blocks with
  | none => layout
  | some (front, block, back) => releaseBetween front block back layout.bins layout.top

/-- `calloc` of a block of `bytes` bytes, which must lie in the heap. -/
def calloc (layout : Layout) (bytes : Nat) : Option (Option Nat × Layout) :=
  if bytes = 0 then some (none, layout)
  else
    match layout.malloc (blockSize bytes) with
    | none => none
    | some (new, next) => if new + bytes ≤ maxHeap then some (some new, next) else none

/-- The branch of `realloc` that moves `bytes` bytes to a new block. -/
def reallocMove (layout : Layout) (off bytes : Nat) : Option (Option Nat × Layout) :=
  if bytes = 0 then some (none, layout.release off)
  else
    match layout.malloc (blockSize bytes) with
    | none => none
    | some (new, next) =>
        if new + bytes ≤ maxHeap then some (some new, next.release off) else none

/-- `realloc` of the block at `off` to a non-zero size. The comparisons are
with the 64-bit size, the rest of the code uses its low 32 bits. -/
def realloc (layout : Layout) (off bytes : Nat) : Option (Option Nat × Layout) :=
  let size := align (u64 (bytes + metaSize))
  match locate off layout.blocks with
  | none => none
  | some (front, block, back) =>
      if size ≤ block.size then some (some off, layout)
      else
        match back with
        | [] => layout.reallocMove off (u32 bytes)
        | next :: rest =>
            if next.used = false ∧ size ≤ block.size + next.size then
              some (some off, placeBetween front (block.join next) rest
                (layout.bins.remove next) layout.top size)
            else layout.reallocMove off (u32 bytes)

end Layout

end OsPractices.Malloc
