import Mathlib.Order.Interval.Set.Nat
import Yjkos.HeapModel
import Yjkos.SetPartition

/-!
# Bookkeeping of the heap

The bitmap of a pool, its counter of used blocks, the global counter of free
blocks and the list of allocations are four views of the same thing.
`Bookkept` says how they agree; each operation keeps it.
-/

namespace Yjkos
namespace Heap

open SetPartition

/-! ## A new pool -/

theorem fitPages_eq (memsize n : ℕ) :
    fitPages memsize n = min n (memsize / 4096) := by
  induction n with
  | zero => simp [fitPages]
  | succ n ih =>
      unfold fitPages archPageSize
      split
      next h =>
        rw [ih]
        omega
      next h => omega

/-- What `add_mem` makes of a piece of memory. -/
structure LaidOut (mem memsize : ℕ) (pool : PoolHeader) : Prop where
  unused : pool.usedblockCount = 0
  positive : 0 < pool.blockCount
  above : mem + 48 ≤ pool.blockpool
  aligned : pool.blockpool % 16 = 0
  fits : pool.blockpool + pool.blockCount * 64 ≤ mem + pool.pageCount * 4096
  inside : pool.pageCount * 4096 ≤ memsize
  room : pool.blockCount ≤ pool.blockbitmap.bitCount
  bits : ∀ i, pool.blockbitmap.bit i = true ↔ i < pool.blockCount

/-- Memory which can be given to the heap: aligned, of at least a page and at
most half of the address space. -/
structure Area (mem memsize : ℕ) : Prop where
  positive : 0 < mem
  aligned : mem % 16 = 0
  low : 4096 ≤ memsize
  high : memsize ≤ 2147483648
  inside : mem + memsize < 4294967296

theorem sizeToBlocks_page (n : ℕ) : sizeToBlocks (n * 4096) 64 = n * 64 := by
  rw [show n * 4096 = n * 64 * 64 by ring]
  exact sizeToBlocks_mul_self (n * 64) (by decide)

theorem neededWordCount_page (n : ℕ) :
    Bitmap.neededWordCount (n * 64) = n * 2 := by
  rw [show n * 64 = n * 2 * 32 by ring]
  exact sizeToBlocks_mul_self (n * 2) (by decide)

/-- The pages which `add_mem` uses: all that fit into the memory. -/
theorem fitPages_area {memsize : ℕ} (hlow : 4096 ≤ memsize)
    (hhigh : memsize ≤ 2147483648) :
    fitPages memsize (sizeToBlocks (wrap (poolHeaderSize +
      Bitmap.neededWordCount (sizeToBlocks memsize blockSize) * 4 +
      sizeToBlocks memsize blockSize * blockSize)) archPageSize) =
      memsize / 4096 := by
  have hblocks : memsize ≤ sizeToBlocks memsize 64 * 64 :=
    le_sizeToBlocks_mul memsize (by decide)
  have hblocks' : sizeToBlocks memsize 64 ≤ 33554432 :=
    (sizeToBlocks_le_iff (by decide)).mpr (by omega)
  have hwords : Bitmap.neededWordCount (sizeToBlocks memsize 64) ≤ 1048576 :=
    (sizeToBlocks_le_iff (by decide)).mpr (by simp only [bitsPerWord]; omega)
  have hsum : poolHeaderSize +
      Bitmap.neededWordCount (sizeToBlocks memsize blockSize) * 4 +
      sizeToBlocks memsize blockSize * blockSize < 4294967296 := by
    simp only [poolHeaderSize, blockSize]
    omega
  rw [wrap_of_lt hsum, fitPages_eq, Nat.min_eq_right]
  set maxsize := poolHeaderSize +
    Bitmap.neededWordCount (sizeToBlocks memsize blockSize) * 4 +
    sizeToBlocks memsize blockSize * blockSize with hmaxsize
  have hpages : maxsize ≤ sizeToBlocks maxsize archPageSize * archPageSize :=
    le_sizeToBlocks_mul maxsize (by decide)
  simp only [poolHeaderSize, blockSize, archPageSize] at hpages hmaxsize ⊢
  omega

theorem bit_setBits_zeroed (n m i : ℕ) :
    ((Bitmap.zeroed n).bitmapSetBits 0 m).bit i = true ↔
      i < m ∧ i < n * 32 := by
  rw [show (0 : ℤ) = ((0 : ℕ) : ℤ) from rfl,
    Bitmap.bit_bitmapSetBits _ (by decide)]
  simp

/-- The bitmap takes eight bytes a page and is padded to the alignment. -/
def bitmapSize (pages : ℕ) : ℕ := pages * 8 + (16 - pages * 8 % 16)

/-- The blocks behind the header and the bitmap. -/
def poolBlocks (pages : ℕ) : ℕ := (pages * 4096 - bitmapSize pages - 48) / 64

theorem layOutPool_eq {mem memsize : ℕ} (haligned : mem % 16 = 0)
    (hlow : 4096 ≤ memsize) (hhigh : memsize ≤ 2147483648)
    (hinside : mem + memsize ≤ 4294967296) :
    layOutPool mem memsize =
      .ok ⟨mem + 48 + bitmapSize (memsize / 4096),
        (Bitmap.zeroed (memsize / 4096 * 2)).bitmapSetBits 0
          (poolBlocks (memsize / 4096)),
        poolBlocks (memsize / 4096), 0, memsize / 4096⟩ := by
  have hpages := fitPages_area hlow hhigh
  unfold poolBlocks bitmapSize
  set pages := memsize / 4096 with hpagesDef
  have hpositive : 1 ≤ pages := by omega
  have hbound : pages ≤ 524288 := by omega
  set pad := 16 - pages * 2 * 4 % 16 with hpad
  have hpad' : 16 - pages * 8 % 16 = pad := by omega
  rw [hpad']
  have hpool : wrap (pages * 64 * 64 + 8589934592 - (pages * 2 * 4 + pad) -
      48) = pages * 4096 - (pages * 8 + pad) - 48 := by
    unfold wrap
    omega
  have hstart : wrap (mem + 48 + (pages * 2 * 4 + pad)) =
      mem + 48 + (pages * 8 + pad) := by
    unfold wrap
    omega
  have hassert : (mem + 48 + (pages * 8 + pad)) % 16 = 0 := by omega
  unfold layOutPool
  simp only [hpages]
  simp only [archPageSize, blockSize, poolHeaderSize, maxAlign,
    sizeToBlocks_page, neededWordCount_page, ← hpad, hpool, hstart]
  rw [cAssert_of (by simpa using hassert)]
  rfl

theorem bitmapSize_bounds (pages : ℕ) :
    pages * 8 ≤ bitmapSize pages ∧ bitmapSize pages ≤ pages * 8 + 16 ∧
      bitmapSize pages % 16 = 0 := by
  unfold bitmapSize
  omega

theorem poolBlocks_bounds {pages : ℕ} (hpages : 1 ≤ pages) :
    0 < poolBlocks pages ∧ poolBlocks pages < pages * 64 ∧
      48 + bitmapSize pages + poolBlocks pages * 64 ≤ pages * 4096 := by
  obtain ⟨hle, hge, -⟩ := bitmapSize_bounds pages
  unfold poolBlocks
  omega

theorem layOutPool_spec {mem memsize : ℕ} (harea : Area mem memsize) :
    ∃ pool, layOutPool mem memsize = .ok pool ∧
      LaidOut mem memsize pool := by
  have hlow := harea.low
  have haligned := harea.aligned
  have hpages : 1 ≤ memsize / 4096 := by omega
  obtain ⟨-, -, hsize⟩ := bitmapSize_bounds (memsize / 4096)
  obtain ⟨hpositive, hroom, hfits⟩ := poolBlocks_bounds hpages
  refine ⟨_, layOutPool_eq haligned hlow harea.high harea.inside.le, ?_⟩
  constructor
  · rfl
  · exact hpositive
  · simp only
    omega
  · simp only
    omega
  · simp only
    omega
  · simp only
    omega
  · simp only [Bitmap.bitmapSetBits_bitCount, Bitmap.zeroed_bitCount]
    omega
  · intro i
    simp only [bit_setBits_zeroed]
    omega

/-- `pool->heapdata`, where `add_mem` puts the words of the bitmap. -/
def heapdata (mem : ℕ) : ℕ := mem + poolHeaderSize

/-- Where the header, the words of the bitmap and the blocks of a pool lie in
the memory it was made of, and which bits are set. -/
structure PoolLayout (mem memsize : ℕ) (pool : PoolHeader) : Prop where
  header_bitmap : mem + poolHeaderSize ≤ heapdata mem
  bitmap_blocks : heapdata mem + pool.blockbitmap.wordCount * 4 ≤
    pool.blockpool
  blocks_end : pool.blockpool + pool.blockCount * blockSize ≤ mem + memsize
  aligned : pool.blockpool % maxAlign = 0
  room : pool.blockCount ≤ pool.blockbitmap.wordCount * bitsPerWord
  bits : ∀ i, pool.blockbitmap.bit i = true ↔ i < pool.blockCount
  positive : 0 < pool.blockCount

/-- `add_mem` lays out every aligned piece of memory of a page or more. -/
theorem addMem_layout {mem memsize : ℕ} (haligned : mem % maxAlign = 0)
    (hlow : archPageSize ≤ memsize) (hhigh : memsize ≤ 2147483648)
    (hinside : mem + memsize ≤ 4294967296) (s : State) :
    ∃ s' pool, addMem s mem memsize = .ok s' ∧ s'.pools mem = some pool ∧
      PoolLayout mem memsize pool := by
  unfold archPageSize at hlow
  have hlay := layOutPool_eq haligned hlow hhigh hinside
  unfold maxAlign at haligned
  have hpages : 1 ≤ memsize / 4096 := by omega
  obtain ⟨hbytes, -, hsize⟩ := bitmapSize_bounds (memsize / 4096)
  obtain ⟨hpositive, hroom, hfits⟩ := poolBlocks_bounds hpages
  have hwords : ((Bitmap.zeroed (memsize / 4096 * 2)).bitmapSetBits 0
      (poolBlocks (memsize / 4096))).wordCount = memsize / 4096 * 2 := by
    simp [Bitmap.bitmapSetBits]
  rw [addMem, hlay]
  refine ⟨_, _, rfl, Function.update_self .., ?_⟩
  constructor
  · exact Nat.le_refl _
  · simp only [heapdata, poolHeaderSize, hwords]
    omega
  · simp only [blockSize]
    omega
  · simp only [maxAlign]
    omega
  · simp only [bitsPerWord, hwords]
    omega
  · intro i
    simp only [bit_setBits_zeroed]
    omega
  · exact hpositive

/-- A page at the end of the address space. -/
theorem addMem_layout_last_page :
    let s : State := ⟨fun _ => none, fun _ => none, fun _ => 0, fun _ => true,
      0, [], [], false, []⟩
    ∃ s' pool, addMem s 4294963200 4096 = .ok s' ∧
      s'.pools 4294963200 = some pool ∧ PoolLayout 4294963200 4096 pool :=
  addMem_layout (by decide) (by decide) (by decide) (by decide) _

/-! ## The invariant -/

/-- The blocks of a pool which are not free. -/
def PoolHeader.taken (pool : PoolHeader) : Set ℕ :=
  {i | i < pool.blockCount ∧ pool.blockbitmap.bit i = false}

/-- The memory of the pool at `p`. -/
def State.region (s : State) (p : ℕ) : Set ℕ :=
  match s.pools p with
  | some pool => Set.Ico p (p + pool.pageCount * archPageSize)
  | none => ∅

def State.freeOf (s : State) (p : ℕ) : ℕ :=
  match s.pools p with
  | some pool => pool.blockCount - pool.usedblockCount
  | none => 0

/-- The allocation is in the pool at `p`. -/
def State.isIn (s : State) (p alloc : ℕ) : Bool :=
  match s.headers alloc with
  | some header => header.pool == p
  | none => false

def State.blockCountOf (s : State) (alloc : ℕ) : ℕ :=
  match s.headers alloc with
  | some header => header.blockCount
  | none => 0

/-- The block indices of an allocation in its pool. -/
def State.blocksOf (s : State) (alloc : ℕ) : Set ℕ :=
  match s.headers alloc with
  | some header =>
      match s.pools header.pool with
      | some pool =>
          let first := (alloc - pool.blockpool) / blockSize
          Set.Ico first (first + header.blockCount)
      | none => ∅
  | none => ∅

def State.allocsOf (s : State) (p : ℕ) : List ℕ :=
  s.allocList.filter (s.isIn p)

structure PoolOk (s : State) (p : ℕ) (pool : PoolHeader) : Prop where
  pool_eq : s.pools p = some pool
  positive : 0 < p
  above : p + 48 ≤ pool.blockpool
  aligned : pool.blockpool % 16 = 0
  fits : pool.blockpool + pool.blockCount * 64 ≤ p + pool.pageCount * 4096
  inside : p + pool.pageCount * 4096 < 4294967296
  room : pool.blockCount ≤ pool.blockbitmap.bitCount
  beyond : ∀ i, pool.blockCount ≤ i → pool.blockbitmap.bit i = false
  mapped : ∀ a ∈ s.region p, s.mapped a = true

structure AllocOk (s : State) (alloc : ℕ) (header : AllocHeader)
    (pool : PoolHeader) : Prop where
  header_eq : s.headers alloc = some header
  listed : header.pool ∈ s.poolList
  pool_eq : s.pools header.pool = some pool
  position : ∃ i, alloc = pool.blockpool + i * 64 ∧
    i + header.blockCount ≤ pool.blockCount
  size_pos : 1 ≤ header.size
  blockCount_eq : header.blockCount = sizeToBlocks (header.size + 40) 64
  poison : ∀ i < 8, s.bytes (alloc + 32 + header.size + i) =
    poisonValues.getD i 0

structure Bookkept (s : State) : Prop where
  poolNodup : s.poolList.Nodup
  allocNodup : s.allocList.Nodup
  pools : ∀ p ∈ s.poolList, ∃ pool, PoolOk s p pool
  apart : (s.poolList.map s.region).Pairwise Disjoint
  allocs : ∀ alloc ∈ s.allocList, ∃ header pool, AllocOk s alloc header pool
  parts : ∀ p ∈ s.poolList, ∀ pool, s.pools p = some pool →
    IsPartition ((s.allocsOf p).map s.blocksOf) pool.taken
  used : ∀ p ∈ s.poolList, ∀ pool, s.pools p = some pool →
    pool.usedblockCount = ((s.allocsOf p).map s.blockCountOf).sum
  free : s.freeBlockCount = (s.poolList.map s.freeOf).sum
  fresh : s.initialized = false → s.poolList = []

section Invariant

variable {s : State} {p alloc : ℕ} {pool : PoolHeader}
  {header : AllocHeader}

theorem PoolHeader.taken_finite (pool : PoolHeader) : pool.taken.Finite :=
  (Set.finite_Iio pool.blockCount).subset fun _ h => h.1

theorem PoolHeader.ncard_taken_le (pool : PoolHeader) :
    pool.taken.ncard ≤ pool.blockCount := by
  have hsubset : pool.taken ⊆ Set.Iio pool.blockCount := fun _ h => h.1
  have hle := Set.ncard_le_ncard hsubset (Set.finite_Iio _)
  rwa [Set.ncard_Iio_nat] at hle

theorem AllocOk.blocksOf_eq (h : AllocOk s alloc header pool) :
    ∃ i, alloc = pool.blockpool + i * 64 ∧
      i + header.blockCount ≤ pool.blockCount ∧
      s.blocksOf alloc = Set.Ico i (i + header.blockCount) := by
  obtain ⟨i, halloc, hlast⟩ := h.position
  refine ⟨i, halloc, hlast, ?_⟩
  have hindex : (alloc - pool.blockpool) / blockSize = i := by
    rw [halloc, blockSize]
    omega
  simp [State.blocksOf, h.header_eq, h.pool_eq, hindex]

theorem AllocOk.blockCountOf_eq (h : AllocOk s alloc header pool) :
    s.blockCountOf alloc = header.blockCount := by
  simp [State.blockCountOf, h.header_eq]

theorem AllocOk.isIn_iff (h : AllocOk s alloc header pool) :
    s.isIn p alloc = true ↔ header.pool = p := by
  simp [State.isIn, h.header_eq]

theorem AllocOk.size_le (h : AllocOk s alloc header pool) :
    header.size + 40 ≤ header.blockCount * 64 := by
  rw [h.blockCount_eq]
  exact le_sizeToBlocks_mul _ (by decide)

theorem AllocOk.blockCount_pos (h : AllocOk s alloc header pool) :
    0 < header.blockCount := by
  have hsize := h.size_le
  omega

theorem Bookkept.used_eq_ncard (h : Bookkept s) (hp : p ∈ s.poolList)
    (hpool : s.pools p = some pool) :
    pool.usedblockCount = pool.taken.ncard := by
  rw [(h.parts p hp pool hpool).ncard_eq pool.taken_finite,
    h.used p hp pool hpool, List.map_map]
  congr 1
  refine List.map_congr_left fun alloc halloc => ?_
  obtain ⟨header, pool', hok⟩ :=
    h.allocs alloc (List.mem_of_mem_filter halloc)
  obtain ⟨i, -, -, hblocks⟩ := hok.blocksOf_eq
  rw [hok.blockCountOf_eq, Function.comp_apply, hblocks, Set.ncard_Ico_nat]
  omega

theorem Bookkept.used_le (h : Bookkept s) (hp : p ∈ s.poolList)
    (hpool : s.pools p = some pool) :
    pool.usedblockCount ≤ pool.blockCount := by
  rw [h.used_eq_ncard hp hpool]
  exact pool.ncard_taken_le

theorem PoolOk.region_eq (h : PoolOk s p pool) :
    s.region p = Set.Ico p (p + pool.pageCount * 4096) := by
  simp [State.region, h.pool_eq, archPageSize]

theorem PoolOk.block_mem (h : PoolOk s p pool) {a : ℕ}
    (hlow : pool.blockpool ≤ a)
    (hhigh : a < pool.blockpool + pool.blockCount * 64) :
    a ∈ s.region p := by
  have habove := h.above
  have hfits := h.fits
  rw [h.region_eq]
  exact ⟨by omega, by omega⟩

theorem Bookkept.regions (h : Bookkept s) :
    IsPartition (s.poolList.map s.region)
      {a | ∃ P ∈ s.poolList.map s.region, a ∈ P} := by
  refine isPartition_sUnion ?_ h.apart
  intro P hP
  obtain ⟨p, hp, rfl⟩ := List.mem_map.mp hP
  obtain ⟨pool, hok⟩ := h.pools p hp
  have habove := hok.above
  have hfits := hok.fits
  rw [hok.region_eq]
  exact Set.nonempty_Ico.mpr (by omega)

theorem Bookkept.poolOk (h : Bookkept s) (hp : p ∈ s.poolList)
    (hpool : s.pools p = some pool) : PoolOk s p pool := by
  obtain ⟨pool', hok⟩ := h.pools p hp
  have heq := hok.pool_eq.symm.trans hpool
  rw [Option.some.injEq] at heq
  exact heq ▸ hok

/-- The memory of an allocation. -/
def AllocHeader.footprint (header : AllocHeader) (alloc : ℕ) : Set ℕ :=
  Set.Ico alloc (alloc + header.blockCount * 64)

theorem AllocOk.footprint_subset (h : AllocOk s alloc header pool)
    (hpool : PoolOk s header.pool pool) :
    header.footprint alloc ⊆ s.region header.pool := by
  obtain ⟨i, halloc, hlast, -⟩ := h.blocksOf_eq
  rintro a ⟨hlow, hhigh⟩
  have hle : i * 64 + header.blockCount * 64 ≤ pool.blockCount * 64 := by
    rw [← Nat.add_mul]
    exact Nat.mul_le_mul_right 64 hlast
  exact hpool.block_mem (by omega) (by omega)

theorem AllocOk.block_of_mem (h : AllocOk s alloc header pool) {a : ℕ}
    (ha : a ∈ header.footprint alloc) :
    (a - pool.blockpool) / 64 ∈ s.blocksOf alloc := by
  obtain ⟨i, halloc, -, hblocks⟩ := h.blocksOf_eq
  obtain ⟨hlow, hhigh⟩ := ha
  rw [hblocks]
  exact ⟨by omega, by omega⟩

theorem Bookkept.eq_of_footprint (h : Bookkept s) {alloc' a : ℕ}
    {header' : AllocHeader} {pool' : PoolHeader}
    (halloc : alloc ∈ s.allocList) (halloc' : alloc' ∈ s.allocList)
    (hok : AllocOk s alloc header pool)
    (hok' : AllocOk s alloc' header' pool')
    (ha : a ∈ header.footprint alloc) (ha' : a ∈ header'.footprint alloc') :
    alloc = alloc' := by
  have hregion := hok.footprint_subset (h.poolOk hok.listed hok.pool_eq) ha
  have hregion' :=
    hok'.footprint_subset (h.poolOk hok'.listed hok'.pool_eq) ha'
  have hsame := h.regions.eq_of_mem hok.listed hok'.listed hregion hregion'
  have hpools := hok.pool_eq.symm.trans (hsame ▸ hok'.pool_eq)
  rw [Option.some.injEq] at hpools
  subst hpools
  refine (h.parts header.pool hok.listed pool hok.pool_eq).eq_of_mem ?_ ?_
    (hok.block_of_mem ha) (hok'.block_of_mem ha')
  · exact List.mem_filter.mpr ⟨halloc, hok.isIn_iff.mpr rfl⟩
  · exact List.mem_filter.mpr ⟨halloc', hok'.isIn_iff.mpr hsame.symm⟩

theorem Bookkept.free_le (h : Bookkept s) : s.freeBlockCount ≤ 67108864 := by
  have hsubset : {a | ∃ P ∈ s.poolList.map s.region, a ∈ P} ⊆
      Set.Iio 4294967296 := by
    rintro a ⟨P, hP, ha⟩
    obtain ⟨p, hp, rfl⟩ := List.mem_map.mp hP
    obtain ⟨pool, hok⟩ := h.pools p hp
    rw [hok.region_eq] at ha
    exact ha.2.trans hok.inside
  have hfinite : (Set.Iio 4294967296).Finite := Set.finite_Iio _
  have hcard := Set.ncard_le_ncard hsubset hfinite
  rw [h.regions.ncard_eq (hfinite.subset hsubset), Set.ncard_Iio_nat,
    List.map_map] at hcard
  have hsum : (s.poolList.map fun p => s.freeOf p * 64).sum ≤
      (s.poolList.map (Set.ncard ∘ s.region)).sum := by
    refine List.sum_le_sum fun p hp => ?_
    obtain ⟨pool, hok⟩ := h.pools p hp
    have habove := hok.above
    have hfits := hok.fits
    simp only [Function.comp_apply, hok.region_eq, Set.ncard_Ico_nat,
      State.freeOf, hok.pool_eq]
    omega
  rw [List.sum_map_mul_right, ← h.free] at hsum
  omega

/-! ## The overflow check -/

theorem Bookkept.isCorrupted_eq (h : Bookkept s)
    (halloc : alloc ∈ s.allocList) : isCorrupted s alloc = .ok false := by
  obtain ⟨header, pool, hok⟩ := h.allocs alloc halloc
  have hpool := h.poolOk hok.listed hok.pool_eq
  have hpos := hok.blockCount_pos
  have hmem : alloc ∈ s.region header.pool :=
    hok.footprint_subset hpool ⟨le_rfl, by omega⟩
  have hpoison : ((List.range poisonValues.length).any fun i =>
      s.bytes (alloc + allocHeaderSize + header.size + i) !=
        poisonValues.getD i 0) = false := by
    rw [List.any_eq_false]
    intro i hi
    rw [List.mem_range] at hi
    simpa [allocHeaderSize] using hok.poison i hi
  unfold isCorrupted
  simp only [hpool.mapped alloc hmem, Bool.not_true, Bool.false_eq_true,
    if_false, State.getHeader, hok.header_eq, ok_bind, hpoison]

theorem checkLoop_eq (list : List ℕ) (die : Bool)
    (h : ∀ alloc ∈ list, isCorrupted s alloc = .ok false) :
    checkLoop s list die = .ok die := by
  induction list generalizing die with
  | nil => rfl
  | cons alloc rest ih =>
      rw [checkLoop, h alloc List.mem_cons_self, ok_bind, Bool.or_false]
      exact ih die fun a ha => h a (List.mem_cons_of_mem alloc ha)

theorem Bookkept.check (h : Bookkept s) : heapCheckOverflow s = .ok () := by
  unfold heapCheckOverflow
  rw [checkLoop_eq s.allocList false fun _ ha => h.isCorrupted_eq ha]
  rfl


end Invariant

end Heap
end Yjkos
