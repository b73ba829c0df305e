import Yjkos.BitmapSpec

/-!
# The kernel heap

`kernel/mem/heap.c`.  On i586 `alignof(max_align_t)` is 16, so
`sizeof(struct pool_header)` is 48 and `sizeof(struct alloc_header)`, which is
also the offset of its `data`, is 32.  Both kinds of header are kept as
records by their address; the bytes which callers use and the poison values
behind them are plain memory.  A list is the sequence of the headers whose
nodes it links.

`heap_check_overflow` asks the page tables whether an allocation header can
be reached at all; `mapped` is their answer.  `nullClears` records the lengths
of the fills which went through a null pointer.
-/

namespace Yjkos
namespace Heap

def maxAlign : ℕ := 16
def poolHeaderSize : ℕ := 48
def allocHeaderSize : ℕ := 32
def blockSize : ℕ := 64

def poisonValues : List (BitVec 8) :=
  [0xe9, 0x29, 0xf3, 0xfb, 0xd7, 0x67, 0xaa, 0x5a]

/-- `HEAP_FLAG_ZEROMEMORY`. -/
def flagZeroMemory : BitVec 8 := 1

/-- `sizeof(s_initial_heap_memory)`. -/
def initialHeapSize : ℕ := 1024 * 1024 * 2

structure PoolHeader where
  blockpool : ℕ
  blockbitmap : Bitmap
  blockCount : ℕ
  usedblockCount : ℕ
  pageCount : ℕ

structure AllocHeader where
  pool : ℕ
  blockCount : ℕ
  size : ℕ

structure State where
  pools : ℕ → Option PoolHeader
  headers : ℕ → Option AllocHeader
  bytes : ℕ → BitVec 8
  mapped : ℕ → Bool
  freeBlockCount : ℕ
  poolList : List ℕ
  allocList : List ℕ
  initialized : Bool
  nullClears : List ℕ

namespace State

def getPool (s : State) (p : ℕ) : Except Fault PoolHeader :=
  match s.pools p with
  | some pool => .ok pool
  | none => .error .outOfBounds

def setPool (s : State) (p : ℕ) (pool : PoolHeader) : State :=
  { s with pools := Function.update s.pools p (some pool) }

def getHeader (s : State) (alloc : ℕ) : Except Fault AllocHeader :=
  match s.headers alloc with
  | some header => .ok header
  | none => .error .outOfBounds

end State

def vmemset (bytes : ℕ → BitVec 8) (dest : ℕ) (value : BitVec 8)
    (len : ℕ) : ℕ → BitVec 8 :=
  fun a => if dest ≤ a ∧ a < dest + len then value else bytes a

/-- Stores the listed bytes from `dest` on. -/
def storeBytes (bytes : ℕ → BitVec 8) (dest : ℕ)
    (values : List (BitVec 8)) : ℕ → BitVec 8 :=
  fun a =>
    if dest ≤ a ∧ a < dest + values.length then values.getD (a - dest) 0
    else bytes a

def vmemcpy (bytes : ℕ → BitVec 8) (dest src len : ℕ) : ℕ → BitVec 8 :=
  fun a =>
    if dest ≤ a ∧ a < dest + len then bytes (src + (a - dest)) else bytes a

def actualAllocSize (size : ℕ) : ℕ :=
  wrap (size + allocHeaderSize + poisonValues.length)

/-! ## Overflow checks -/

def isCorrupted (s : State) (alloc : ℕ) : Except Fault Bool := do
  if !s.mapped alloc then .ok true
  else
    let header ← s.getHeader alloc
    let poison := alloc + allocHeaderSize + header.size
    .ok ((List.range poisonValues.length).any fun i =>
      s.bytes (poison + i) != poisonValues.getD i 0)

/-- The loop of `heap_check_overflow`, with its flag `die`. -/
def checkLoop (s : State) : List ℕ → Bool → Except Fault Bool
  | [], die => .ok die
  | alloc :: rest, die => do
      let corrupted ← isCorrupted s alloc
      checkLoop s rest (die || corrupted)

def heapCheckOverflow (s : State) : Except Fault Unit := do
  let die ← checkLoop s s.allocList false
  if die then .error (.panic "heap overflow detected") else .ok ()

/-! ## Allocation -/

/-- `assert` on each of the bits of a range. -/
def assertBits (bitmap : Bitmap) (expected : Bool) (text : String) :
    ℕ → ℕ → Except Fault Unit
  | 0, _ => .ok ()
  | left + 1, i => do
      let isSet ← bitmap.bitmapIsBitSet i
      cAssert (isSet == expected) text
      assertBits bitmap expected text left (i + 1)

/-- The header and the bytes of a new allocation.  A fill which runs past the
end of the address space is a wild access. -/
def initAlloc (s : State) (p alloc blockCount size : ℕ) :
    Except Fault (Option ℕ × State) := do
  cAssert (blockCount ≤ s.freeBlockCount)
    "block_count <= s_free_block_count"
  let data := alloc + allocHeaderSize
  if 4294967296 < data + size + poisonValues.length then .error .wildPointer
  else
    let bytes := vmemset s.bytes data 0x90 size
    let s := { s with
      headers := Function.update s.headers alloc (some ⟨p, blockCount, size⟩)
      bytes := storeBytes bytes (data + size) poisonValues
      freeBlockCount := s.freeBlockCount - blockCount
      allocList := s.allocList ++ [alloc] }
    heapCheckOverflow s
    .ok (some data, s)

/-- The part of `alloc_from_pool` after a run of free blocks was found. -/
def takeBlocks (s : State) (p : ℕ) (pool : PoolHeader)
    (blockIndex blockCount size : ℕ) : Except Fault (Option ℕ × State) := do
  assertBits pool.blockbitmap true
    "bitmap_is_bit_set(&self->blockbitmap, block_index + i)" blockCount
    blockIndex
  let bitmap := pool.blockbitmap.bitmapClearBits blockIndex blockCount
  assertBits bitmap false
    "!bitmap_is_bit_set(&self->blockbitmap, block_index + i)" blockCount
    blockIndex
  let allocOff := wrap (blockIndex * blockSize)
  cAssert (isAligned allocOff maxAlign)
    "is_aligned(alloc_off, alignof(max_align_t))"
  let alloc := wrap (pool.blockpool + allocOff)
  let s := s.setPool p
    { pool with
      blockbitmap := bitmap
      usedblockCount := wrap (pool.usedblockCount + blockCount) }
  if alloc = 0 then .ok (none, s) else initAlloc s p alloc blockCount size

def allocFromPool (s : State) (p size : ℕ) :
    Except Fault (Option ℕ × State) :=
  if size = 0 ∨ sizeMax - allocHeaderSize < size then .ok (none, s)
  else do
    let blockCount := sizeToBlocks (actualAllocSize size) blockSize
    let pool ← s.getPool p
    let blockIndex ← pool.blockbitmap.bitmapFindSetBits 0 blockCount
    if blockIndex < 0 then .ok (none, s)
    else takeBlocks s p pool blockIndex.toNat blockCount size

/-- Counts down until the pages fit into the memory; the last argument is the
bound of the count. -/
def fitPages (memsize : ℕ) : ℕ → ℕ
  | 0 => 0
  | pageCount + 1 =>
      if memsize < (pageCount + 1) * archPageSize then
        fitPages memsize pageCount
      else pageCount + 1

/-- The pool which `add_mem` lays out in the memory at `mem`. -/
def layOutPool (mem memsize : ℕ) : Except Fault PoolHeader := do
  let maxBlockCount := sizeToBlocks memsize blockSize
  let metadataSize := poolHeaderSize +
    Bitmap.neededWordCount maxBlockCount * 4
  let maxsize := wrap (metadataSize + maxBlockCount * blockSize)
  let pageCount := fitPages memsize (sizeToBlocks maxsize archPageSize)
  let totalblockCount := sizeToBlocks (pageCount * archPageSize) blockSize
  let wordCount := Bitmap.neededWordCount totalblockCount
  let bitmapsize := wordCount * 4 + (maxAlign - wordCount * 4 % maxAlign)
  let totalsize := totalblockCount * blockSize
  let maxpoolsize :=
    wrap (totalsize + 8589934592 - bitmapsize - poolHeaderSize)
  let poolblockCount := maxpoolsize / blockSize
  let poolstart := wrap (mem + poolHeaderSize + bitmapsize)
  cAssert (poolstart % maxAlign = 0)
    "((uintptr_t)poolstart % alignof(max_align_t)) == 0"
  .ok ⟨poolstart, (Bitmap.zeroed wordCount).bitmapSetBits 0 poolblockCount,
    poolblockCount, 0, pageCount⟩

def addMem (s : State) (mem memsize : ℕ) : Except Fault State := do
  let pool ← layOutPool mem memsize
  let s := s.setPool mem pool
  .ok { s with
    initialized := true
    freeBlockCount := wrap (s.freeBlockCount + pool.blockCount)
    poolList := s.poolList ++ [mem] }

/-- The walk of `heap_alloc` over the pools. -/
def allocLoop (size : ℕ) : List ℕ → State → Except Fault (Option ℕ × State)
  | [], s => .ok (none, s)
  | p :: rest, s => do
      let (result, s) ← allocFromPool s p size
      match result with
      | some ptr => .ok (some ptr, s)
      | none => allocLoop size rest s

def ensureInitialHeap (initialMemory : ℕ) (s : State) : Except Fault State :=
  if s.initialized then .ok s else addMem s initialMemory initialHeapSize

/-- The bytes from address 0 on are mapped, and the heap lies behind them. -/
def State.NullWritable (s : State) (size : ℕ) : Prop :=
  (∀ p ∈ s.poolList, size ≤ p) ∧ ∀ a < size, s.mapped a = true

instance (s : State) (size : ℕ) : Decidable (s.NullWritable size) :=
  inferInstanceAs (Decidable (_ ∧ _))

def State.nullCleared (s : State) (size : ℕ) : State :=
  { s with
    bytes := vmemset s.bytes 0 0 size
    nullClears := s.nullClears ++ [size] }

/-- `vmemset` through the null pointer.  It ends in a page fault where a byte
is not mapped; and as the kernel lies in front of its heap, a fill which comes
to the heap has overwritten the running code. -/
def clearNull (s : State) (size : ℕ) : Except Fault State :=
  if s.NullWritable size then .ok (s.nullCleared size)
  else .error .nullDereference

/-- `vmemset` of the result, which is null after a failed allocation. -/
def clearResult (s : State) (flags : BitVec 8) (size : ℕ) :
    Option ℕ → Except Fault State
  | none =>
      if flags &&& flagZeroMemory ≠ 0 then clearNull s size else .ok s
  | some ptr =>
      if flags &&& flagZeroMemory ≠ 0 then
        .ok { s with bytes := vmemset s.bytes ptr 0 size }
      else .ok s

def searchPools (s : State) (size : ℕ) :
    Except Fault (Option ℕ × State) :=
  if sizeToBlocks (actualAllocSize size) blockSize < s.freeBlockCount then
    allocLoop size s.poolList s
  else .ok (none, s)

/-- `initialMemory` is the address of `s_initial_heap_memory`. -/
def heapAlloc (initialMemory : ℕ) (s : State) (size : ℕ)
    (flags : BitVec 8) : Except Fault (Option ℕ × State) :=
  if size = 0 ∨ sizeMax - allocHeaderSize < size then .ok (none, s)
  else do
    heapCheckOverflow s
    let s ← ensureInitialHeap initialMemory s
    let (result, s) ← searchPools s size
    heapCheckOverflow s
    let s ← clearResult s flags size result
    .ok (result, s)

def heapCalloc (initialMemory : ℕ) (s : State) (size elements : ℕ)
    (flags : BitVec 8) : Except Fault (Option ℕ × State) :=
  if size = 0 then .error .divideByZero
  else if sizeMax / size < elements then .ok (none, s)
  else heapAlloc initialMemory s (wrap (size * elements)) flags

/-! ## Freeing -/

def allocHeaderOf (ptr : ℕ) : Option ℕ :=
  if ptr = 0 ∨ !isAligned ptr maxAlign ∨ ptr < allocHeaderSize then none
  else some (ptr - allocHeaderSize)

/-- The checks of `heap_free` on the place of an allocation. -/
def isPlaceBad (pool : PoolHeader) (header : AllocHeader) (ptr alloc : ℕ) :
    Bool :=
  let poolstartaddr := pool.blockpool
  let poolendaddr := wrap (poolstartaddr + pool.blockCount * blockSize)
  let allocendaddr := wrap (alloc + header.blockCount * blockSize)
  (ptr < poolstartaddr || poolendaddr ≤ ptr) ||
    (allocendaddr ≤ poolstartaddr || poolendaddr < allocendaddr) ||
    pool.usedblockCount < header.blockCount

def returnBlocks (s : State) (p : ℕ) (pool : PoolHeader)
    (header : AllocHeader) (alloc : ℕ) : Except Fault State := do
  let blockindex := (alloc - pool.blockpool) / blockSize
  let s := s.setPool p
    { pool with
      blockbitmap :=
        pool.blockbitmap.bitmapSetBits blockindex header.blockCount
      usedblockCount := pool.usedblockCount - header.blockCount }
  let s := { s with
    headers := Function.update s.headers alloc none
    bytes := vmemset s.bytes alloc 0x6f (header.blockCount * blockSize)
    freeBlockCount := wrap (s.freeBlockCount + header.blockCount) }
  heapCheckOverflow s
  .ok s

/-- `list_remove_node` follows the node before the address is checked. -/
def heapFree (s : State) (ptr : ℕ) : Except Fault State :=
  if ptr = 0 then .ok s
  else do
    heapCheckOverflow s
    match allocHeaderOf ptr with
    | none => .error .nullDereference
    | some alloc => do
        let header ← s.getHeader alloc
        let s := { s with allocList := s.allocList.erase alloc }
        if header.pool = 0 then .error (.panic "heap_free: bad pointer")
        else do
          let pool ← s.getPool header.pool
          if isPlaceBad pool header ptr alloc then
            .error (.panic "heap_free: bad pointer")
          else returnBlocks s header.pool pool header alloc

/-- The move of `heap_realloc` into the new memory. -/
def moveTo (s : State) (ptr copysize : ℕ) :
    Option ℕ → Except Fault (Option ℕ × State)
  | none => .ok (none, s)
  | some newmem => do
      let s ← heapFree { s with bytes := vmemcpy s.bytes newmem ptr copysize }
        ptr
      .ok (some newmem, s)

def heapRealloc (initialMemory : ℕ) (s : State) (ptr newsize : ℕ)
    (flags : BitVec 8) : Except Fault (Option ℕ × State) :=
  if ptr = 0 then heapAlloc initialMemory s newsize flags
  else do
    heapCheckOverflow s
    match allocHeaderOf ptr with
    | none => .error (.panic "heap_realloc: bad pointer")
    | some alloc => do
        let header ← s.getHeader alloc
        let copysize := if newsize < header.size then newsize else header.size
        let (newmem, s) ← heapAlloc initialMemory s newsize flags
        moveTo s ptr copysize newmem

def heapReallocArray (initialMemory : ℕ) (s : State)
    (ptr newsize newelements : ℕ) (flags : BitVec 8) :
    Except Fault (Option ℕ × State) :=
  if newsize = 0 then .error .divideByZero
  else if sizeMax / newsize < newelements then .ok (none, s)
  else heapRealloc initialMemory s ptr (wrap (newsize * newelements)) flags

end Heap
end Yjkos
