import Yjkos.BitmapSpec
import Yjkos.Traced

/-!
# Page pools

`struct pagepool` and the buddy allocation inside of one pool, from
`kernel/mem/pmm.c`.  The routines run in `PoolM`, which records every bit
index they compute for the pool's bitmap; the record exists only for the
analysis.

`level_count` is never written by the kernel and `nextpool` is the order of
the list of pools, so neither is a field here.
-/

namespace Yjkos

structure PagePool where
  bitmap : Bitmap
  baseAddr : ℕ
  pageCount : ℕ
deriving DecidableEq, Repr

namespace Pmm

/-- Pool routines, with the bit indices they compute. -/
abbrev PoolM := Traced ℤ Fault

def setBit (bitmap : Bitmap) (index : ℤ) : PoolM Bitmap :=
  Traced.touch index (bitmap.bitmapSetBit index)

def clearBit (bitmap : Bitmap) (index : ℤ) : PoolM Bitmap :=
  Traced.touch index (bitmap.bitmapClearBit index)

def isBitSet (bitmap : Bitmap) (index : ℤ) : PoolM Bool :=
  Traced.touch index (bitmap.bitmapIsBitSet index)

def findSetBits (bitmap : Bitmap) (start : ℤ) (minlen : ℕ) : PoolM ℤ :=
  Traced.touch start (bitmap.bitmapFindSetBits start minlen)

/-- The `while` loop of `bit_indices_range_for_level`; the first argument
counts the levels left. -/
def bitIndicesRangeLoop : ℕ → ℕ → ℕ → ℕ × ℕ
  | 0, blockinlevel, bitoffset => (bitoffset, bitoffset + blockinlevel - 1)
  | left + 1, blockinlevel, bitoffset =>
      bitIndicesRangeLoop left (blockinlevel * 2) (bitoffset + blockinlevel)

/-- First and last bit index of a level. -/
def bitIndicesRangeForLevel (level : ℕ) : ℕ × ℕ :=
  bitIndicesRangeLoop level 1 0

def bitIndexForPagepoolBlock (level block : ℕ) : PoolM ℕ :=
  let range := bitIndicesRangeForLevel level
  let blocksinlevel := range.2 - range.1 + 1
  do
    Traced.lift (cAssert (block < blocksinlevel) "block < blocksinlevel")
    pure (range.1 + block)

/-- The `while` loop of `block_size_to_pagepool_level`. -/
def blockSizeToLevelLoop (size : ℕ) : ℕ → ℕ → ℕ → Except Fault ℕ
  | 0, _, _ => .error .outOfFuel
  | fuel + 1, sizeperblock, currentlevel =>
      if size < sizeperblock then
        blockSizeToLevelLoop size fuel (sizeperblock / 2) (currentlevel + 1)
      else .ok currentlevel

def blockSizeToPagepoolLevel (pool : PagePool) (size : ℕ) :
    Except Fault ℕ :=
  blockSizeToLevelLoop size 33 pool.pageCount 0

/-- Rounding up to a power of two, as in `alloc_from_pool` and
`free_from_pool`; `none` is the exit taken before the size would wrap. -/
def roundUpLoop (pageCount : ℕ) : ℕ → ℕ → Except Fault (Option ℕ)
  | 0, _ => .error .outOfFuel
  | fuel + 1, blockSize =>
      if blockSize < pageCount then
        if sizeMax / 2 < blockSize then .ok none
        else roundUpLoop pageCount fuel (blockSize * 2)
      else .ok (some blockSize)

def roundUp (pageCount : ℕ) : Except Fault (Option ℕ) :=
  roundUpLoop pageCount 33 1

/-- One round of the search of `alloc_from_pool`: the first available block
of one level. -/
def findBlockInLevel (bitmap : Bitmap) (foundLevel : ℕ) :
    PoolM (Option ℕ) := do
  let range := bitIndicesRangeForLevel foundLevel
  let foundAt ← findSetBits bitmap range.1 1
  if 0 ≤ foundAt ∧ foundAt ≤ range.2 then
    pure (some (foundAt - range.1).toNat)
  else pure none

/-- The search of `alloc_from_pool`, from the wanted level towards level 0.
Gives the level and the index of the block found. -/
def findBlock (bitmap : Bitmap) : ℕ → PoolM (Option (ℕ × ℕ))
  | 0 => do
      match ← findBlockInLevel bitmap 0 with
      | some foundBlockIndex => pure (some (0, foundBlockIndex))
      | none => pure none
  | below + 1 => do
      match ← findBlockInLevel bitmap (below + 1) with
      | some foundBlockIndex => pure (some (below + 1, foundBlockIndex))
      | none => findBlock bitmap below

/-- The splitting loop of `alloc_from_pool`; the first argument counts the
levels left. -/
def splitBlocks : ℕ → Bitmap → ℕ → ℕ → PoolM (Bitmap × ℕ)
  | 0, bitmap, _, currentBlockIndex => pure (bitmap, currentBlockIndex)
  | left + 1, bitmap, currentlevel, currentBlockIndex => do
      let bitIndex ← bitIndexForPagepoolBlock currentlevel currentBlockIndex
      let bitmap ← clearBit bitmap bitIndex
      let bitIndex ←
        bitIndexForPagepoolBlock (currentlevel + 1) (currentBlockIndex * 2 + 1)
      let bitmap ← setBit bitmap bitIndex
      splitBlocks left bitmap (currentlevel + 1) (currentBlockIndex * 2)

/-- What `alloc_from_pool` leaves behind: the pool, the returned address and
the value of `*page_count_inout`. -/
structure AllocOutcome where
  pool : PagePool
  result : ℕ
  pageCount : ℕ
deriving DecidableEq, Repr

/-- The part of `alloc_from_pool` after the size has been rounded. -/
def allocBlock (pool : PagePool) (blockSize : ℕ) : PoolM AllocOutcome := do
  let wantedLevel ← Traced.lift (blockSizeToPagepoolLevel pool blockSize)
  match ← findBlock pool.bitmap wantedLevel with
  | none => pure ⟨pool, 0, blockSize⟩
  | some (foundLevel, foundBlockIndex) =>
      let (bitmap, currentBlockIndex) ←
        splitBlocks (wantedLevel - foundLevel) pool.bitmap foundLevel
          foundBlockIndex
      let bitIndex ← bitIndexForPagepoolBlock wantedLevel currentBlockIndex
      let bitmap ← clearBit bitmap bitIndex
      pure ⟨{ pool with bitmap := bitmap },
        wrap (pool.baseAddr +
          wrap (wrap (blockSize * currentBlockIndex) * archPageSize)),
        blockSize⟩

def allocFromPool (pool : PagePool) (pageCountInout : ℕ) :
    PoolM AllocOutcome := do
  Traced.lift (cAssert (pageCountInout ≠ 0) "*page_count_inout != 0")
  match ← Traced.lift (roundUp pageCountInout) with
  | none => pure ⟨pool, 0, pageCountInout⟩
  | some blockSize =>
      if pool.pageCount < blockSize then pure ⟨pool, 0, pageCountInout⟩
      else allocBlock pool blockSize

/-- The start of one round of `free_from_pool`: the block is marked as
available.  Gives its bit index and the bitmap. -/
def markAvailable (currentLevel currentBlockIndex : ℕ) (bitmap : Bitmap) :
    PoolM (ℕ × Bitmap) := do
  let bitIndex ← bitIndexForPagepoolBlock currentLevel currentBlockIndex
  if ← isBitSet bitmap bitIndex then
    -- "double free detected"
    Traced.fail (.panic "pmm: bad free")
  else
    let bitmap ← setBit bitmap bitIndex
    pure (bitIndex, bitmap)

/-- The merging loop of `free_from_pool`. -/
def mergeBlocks : ℕ → ℕ → Bitmap → PoolM Bitmap
  | 0, currentBlockIndex, bitmap => do
      let (_, bitmap) ← markAvailable 0 currentBlockIndex bitmap
      pure bitmap
  | below + 1, currentBlockIndex, bitmap => do
      let (bitIndex, bitmap) ←
        markAvailable (below + 1) currentBlockIndex bitmap
      let neighborBitIndex : ℤ :=
        if currentBlockIndex % 2 = 0 then (bitIndex : ℤ) + 1
        else (bitIndex : ℤ) - 1
      if ← isBitSet bitmap neighborBitIndex then
        let bitmap ← clearBit bitmap bitIndex
        let bitmap ← clearBit bitmap neighborBitIndex
        mergeBlocks below (currentBlockIndex / 2) bitmap
      else pure bitmap

/-- The part of `free_from_pool` after the size has been rounded. -/
def freeBlock (pool : PagePool) (ptr blockSize : ℕ) : PoolM PagePool := do
  let blockBytes := wrap (blockSize * archPageSize)
  if blockBytes = 0 then Traced.fail .divideByZero
  else
    let currentBlockIndex := (ptr - pool.baseAddr) / blockBytes
    let currentLevel ←
      Traced.lift (blockSizeToPagepoolLevel pool blockSize)
    Traced.lift (cAssert ((ptr - pool.baseAddr) % blockBytes = 0)
      "((ptr - pool->base_addr) % (block_size * ARCH_PAGESIZE)) == 0")
    let bitmap ← mergeBlocks currentLevel currentBlockIndex pool.bitmap
    pure { pool with bitmap := bitmap }

def freeFromPool (pool : PagePool) (ptr pageCount : ℕ) : PoolM PagePool :=
  if ptr = 0 then pure pool
  else if ptr < pool.baseAddr ∨
      wrap (pool.baseAddr + wrap (archPageSize * pool.pageCount)) <
        wrap (ptr + wrap (archPageSize * pageCount)) then
    Traced.fail (.panic "pmm: bad free")
  else do
    match ← Traced.lift (roundUp pageCount) with
    | none => Traced.fail (.panic "pmm: bad free")
    | some blockSize =>
        if pool.pageCount < blockSize then
          Traced.fail (.panic "pmm: bad free")
        else freeBlock pool ptr blockSize

end Pmm
end Yjkos
