import PetKernel.Library.DyadicPartition

/-!
# The buddy allocator

A model of `virtual_memory/buddy.c`. Addresses are `unsigned long`s, with arithmetic modulo `2 ^
64`. The free lists hold the addresses of blocks; the field `order` of the `struct block` that
overlays a block lives in the memory of the pool, and so it is kept by address (`blockOrder`) and is
arbitrary until it is written. Orders are below 64. A function gives `none` when a `BUG_ON` of the
source fires or when `list_del` is called for a block that is on no list.
-/

set_option autoImplicit false

namespace PetKernel.VirtualMemory

open PetKernel.Library

/-- `a + b` for `unsigned long`s. -/
def add64 (a b : Nat) : Nat := (a + b) % 2 ^ 64

/-- `a - b` for `unsigned long`s. -/
def sub64 (a b : Nat) : Nat := (a + (2 ^ 64 - b)) % 2 ^ 64

/-- `struct buddy_mempool`. -/
structure BuddyMempool where
  baseAddr : Nat
  poolOrder : Nat
  minOrder : Nat
  numBlocks : Nat
  tagBits : Nat → Bool
  avail : Nat → List Nat
  /-- The field `order` of the `struct block` at an address. -/
  blockOrder : Nat → Nat

namespace BuddyMempool

/-- `block->order = order`. -/
def setOrder (mp : BuddyMempool) (block order : Nat) : BuddyMempool :=
  { mp with blockOrder := Function.update mp.blockOrder block order }

/-- `list_add(&block->link, &mp->avail[order])`. -/
def listAdd (mp : BuddyMempool) (block order : Nat) : BuddyMempool :=
  { mp with avail := Function.update mp.avail order (block :: mp.avail order) }

/-- `list_del(&block->link)`: takes the block off the list that it is linked in. -/
def listDel (mp : BuddyMempool) (block : Nat) : Option BuddyMempool :=
  if (List.range (mp.poolOrder + 1)).any fun j => decide (block ∈ mp.avail j) then
    some { mp with avail := fun j => (mp.avail j).erase block }
  else none

end BuddyMempool

/-- `block_to_id`. -/
def blockToId (mp : BuddyMempool) (block : Nat) : Option Nat :=
  let blockId := sub64 block mp.baseAddr >>> mp.minOrder
  if mp.numBlocks ≤ blockId then none else some blockId

/-- Sets the tag bit of a block. -/
def setTag (mp : BuddyMempool) (block : Nat) (tag : Bool) : Option BuddyMempool :=
  (blockToId mp block).map fun blockId =>
    { mp with tagBits := Function.update mp.tagBits blockId tag }

/-- `mark_available`. -/
def markAvailable (mp : BuddyMempool) (block : Nat) : Option BuddyMempool := setTag mp block true

/-- `mark_allocated`. -/
def markAllocated (mp : BuddyMempool) (block : Nat) : Option BuddyMempool := setTag mp block false

/-- `is_available`. -/
def isAvailable (mp : BuddyMempool) (block : Nat) : Option Bool :=
  (blockToId mp block).map mp.tagBits

/-- `find_buddy`. -/
def findBuddy (mp : BuddyMempool) (block order : Nat) : Option Nat :=
  if block < mp.baseAddr then none
  else some (add64 (sub64 block mp.baseAddr ^^^ 2 ^ order) mp.baseAddr)

/-- `sizeof(struct block)`. -/
def sizeofBlock : Nat := 24

/-- `buddy_init`; `memory` is what the order fields happen to hold. -/
def buddyInit (baseAddr poolOrder minOrder : Nat) (memory : Nat → Nat) : Option BuddyMempool :=
  -- ilog2(roundup_pow_of_two(sizeof(struct block))) is 5
  let minOrder := if 2 ^ minOrder < sizeofBlock then 5 else minOrder
  if poolOrder < minOrder then none
  else some {
    baseAddr := baseAddr
    poolOrder := poolOrder
    minOrder := minOrder
    numBlocks := 2 ^ poolOrder / 2 ^ minOrder
    tagBits := fun _ => false
    avail := fun _ => []
    blockOrder := memory }

/-- What both `buddy_alloc` and `buddy_free` do to put a block on a free list. -/
def putAvailable (mp : BuddyMempool) (block order : Nat) : Option BuddyMempool := do
  let mp ← markAvailable (mp.setOrder block order) block
  return mp.listAdd block order

/-- The inner loop of `buddy_alloc`, which trims a block of order `j` to `order`. -/
def trim (block order : Nat) : Nat → BuddyMempool → Option BuddyMempool
  | 0, mp => some mp
  | j + 1, mp =>
      if order < j + 1 then do
        let mp ← putAvailable mp (add64 block (2 ^ j)) j
        trim block order j mp
      else some mp

/-- The outer loop of `buddy_alloc`, over the `n` orders from `j` on. -/
def allocFrom (mp : BuddyMempool) (order : Nat) : Nat → Nat → Option (Option Nat × BuddyMempool)
  | 0, _ => some (none, mp)
  | n + 1, j =>
      match mp.avail j with
      | [] => allocFrom mp order n (j + 1)
      | block :: rest => do
          let mp₁ ← markAllocated { mp with avail := Function.update mp.avail j rest } block
          let mp₂ ← trim block order j mp₁
          return (some block, mp₂)

/-- The requested order, fixed up to be at least the minimum supported. -/
def fixOrder (mp : BuddyMempool) (order : Nat) : Nat :=
  if order < mp.minOrder then mp.minOrder else order

/-- `buddy_alloc`: the block or `NULL`, and the pool. -/
def buddyAlloc (mp : BuddyMempool) (order : Nat) : Option (Option Nat × BuddyMempool) :=
  if mp.poolOrder < order then none
  else allocFrom mp (fixOrder mp order) (mp.poolOrder + 1 - fixOrder mp order) (fixOrder mp order)

/-- The loop of `buddy_free` that merges a block with its buddy, for at most `n` orders. -/
def coalesce : Nat → BuddyMempool → Nat → Nat → Option (BuddyMempool × Nat × Nat)
  | 0, mp, block, order => some (mp, block, order)
  | n + 1, mp, block, order => do
      let buddy ← findBuddy mp block order
      let available ← isAvailable mp buddy
      if available = false ∨ mp.blockOrder buddy ≠ order then some (mp, block, order)
      else do
        let mp ← mp.listDel buddy
        let block := if buddy < block then buddy else block
        coalesce n (mp.setOrder block (order + 1)) block (order + 1)

/-- `buddy_free`. -/
def buddyFree (mp : BuddyMempool) (addr order : Nat) : Option BuddyMempool :=
  if mp.poolOrder < order then none
  else do
    let available ← isAvailable mp addr
    if available = true then none
    else do
      let (mp, block, order) ← coalesce (mp.poolOrder - fixOrder mp order) mp addr
        (fixOrder mp order)
      putAvailable mp block order

end PetKernel.VirtualMemory
