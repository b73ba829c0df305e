import Yjkos.HeapUpdate

/-!
# Taking and returning blocks

An allocation clears a run of bits of one pool and is put into the list of
allocations; freeing it undoes both.  Either way only one pool and one
allocation are touched, and what is known about the others carries over.
-/

namespace Yjkos
namespace Heap

open SetPartition

/-! ## A change of one pool and one allocation -/

/-- `s'` differs from `s` in the bitmap and the counter of the pool at `p`,
in the allocation at `alloc`, in bytes and in the global counter. -/
structure Reshaped (s s' : State) (p alloc : ℕ) (pool pool' : PoolHeader) :
    Prop where
  listed : p ∈ s.poolList
  pool_eq : s.pools p = some pool
  pools_eq : s'.pools = Function.update s.pools p (some pool')
  poolList_eq : s'.poolList = s.poolList
  mapped_eq : s'.mapped = s.mapped
  initialized_eq : s'.initialized = s.initialized
  headers_eq : ∀ a, a ≠ alloc → s'.headers a = s.headers a
  blockpool_eq : pool'.blockpool = pool.blockpool
  blockCount_eq : pool'.blockCount = pool.blockCount
  pageCount_eq : pool'.pageCount = pool.pageCount
  bitCount_eq : pool'.blockbitmap.bitCount = pool.blockbitmap.bitCount
  beyond : ∀ i, pool.blockCount ≤ i → pool'.blockbitmap.bit i = false

section Reshaped

variable {s s' : State} {p q alloc a : ℕ}
  {pool pool' pool'' : PoolHeader} {header : AllocHeader}

theorem Reshaped.pools_self (hr : Reshaped s s' p alloc pool pool') :
    s'.pools p = some pool' := by
  rw [hr.pools_eq, Function.update_self]

theorem Reshaped.pools_of_ne (hr : Reshaped s s' p alloc pool pool')
    (hq : q ≠ p) : s'.pools q = s.pools q := by
  rw [hr.pools_eq, Function.update_of_ne hq]

theorem Reshaped.region_eq (hr : Reshaped s s' p alloc pool pool') (q : ℕ) :
    s'.region q = s.region q := by
  by_cases hq : q = p
  · subst hq
    simp only [State.region, hr.pools_self, hr.pool_eq, hr.pageCount_eq]
  · simp only [State.region, hr.pools_of_ne hq]

theorem Reshaped.poolOk (hr : Reshaped s s' p alloc pool pool')
    (hok : PoolOk s q pool'') : ∃ pool''', PoolOk s' q pool''' := by
  have hmapped : ∀ a ∈ s'.region q, s'.mapped a = true := by
    rw [hr.region_eq, hr.mapped_eq]
    exact hok.mapped
  by_cases hq : q = p
  · subst hq
    have heq := hr.pool_eq.symm.trans hok.pool_eq
    rw [Option.some.injEq] at heq
    subst heq
    refine ⟨pool', hr.pools_self, hok.positive, ?_, ?_, ?_, ?_, ?_, ?_,
      hmapped⟩
    · rw [hr.blockpool_eq]
      exact hok.above
    · rw [hr.blockpool_eq]
      exact hok.aligned
    · rw [hr.blockpool_eq, hr.blockCount_eq, hr.pageCount_eq]
      exact hok.fits
    · rw [hr.pageCount_eq]
      exact hok.inside
    · rw [hr.blockCount_eq, hr.bitCount_eq]
      exact hok.room
    · rw [hr.blockCount_eq]
      exact hr.beyond
  · exact ⟨pool'', (hr.pools_of_ne hq).trans hok.pool_eq, hok.positive,
      hok.above, hok.aligned, hok.fits, hok.inside, hok.room, hok.beyond,
      hmapped⟩

theorem Reshaped.isIn_eq (hr : Reshaped s s' p alloc pool pool')
    (ha : a ≠ alloc) (q : ℕ) : s'.isIn q a = s.isIn q a := by
  simp only [State.isIn, hr.headers_eq a ha]

theorem Reshaped.blockCountOf_eq (hr : Reshaped s s' p alloc pool pool')
    (ha : a ≠ alloc) : s'.blockCountOf a = s.blockCountOf a := by
  simp only [State.blockCountOf, hr.headers_eq a ha]

theorem Reshaped.blocksOf_eq (hr : Reshaped s s' p alloc pool pool')
    (ha : a ≠ alloc) : s'.blocksOf a = s.blocksOf a := by
  simp only [State.blocksOf, hr.headers_eq a ha]
  cases s.headers a with
  | none => rfl
  | some header =>
      by_cases hq : header.pool = p
      · simp only [hq, hr.pools_self, hr.pool_eq, hr.blockpool_eq]
      · simp only [hr.pools_of_ne hq]

theorem Reshaped.allocOk (hr : Reshaped s s' p alloc pool pool')
    (hok : AllocOk s a header pool'') (ha : a ≠ alloc)
    (hbytes : ∀ i < 8, s'.bytes (a + 32 + header.size + i) =
      s.bytes (a + 32 + header.size + i)) :
    ∃ pool''', AllocOk s' a header pool''' := by
  have hheader := (hr.headers_eq a ha).trans hok.header_eq
  have hlisted : header.pool ∈ s'.poolList := by
    rw [hr.poolList_eq]
    exact hok.listed
  have hpoison : ∀ i < 8, s'.bytes (a + 32 + header.size + i) =
      poisonValues.getD i 0 :=
    fun i hi => (hbytes i hi).trans (hok.poison i hi)
  by_cases hq : header.pool = p
  · have heq := hr.pool_eq.symm.trans (hq ▸ hok.pool_eq)
    rw [Option.some.injEq] at heq
    subst heq
    refine ⟨pool', hheader, hlisted, hq ▸ hr.pools_self, ?_, hok.size_pos,
      hok.blockCount_eq, hpoison⟩
    rw [hr.blockpool_eq, hr.blockCount_eq]
    exact hok.position
  · exact ⟨pool'', hheader, hlisted, (hr.pools_of_ne hq).trans hok.pool_eq,
      hok.position, hok.size_pos, hok.blockCount_eq, hpoison⟩

theorem Reshaped.sum_freeOf (hr : Reshaped s s' p alloc pool pool')
    (hnodup : s.poolList.Nodup) :
    (s.poolList.map s'.freeOf).sum +
        (pool.blockCount - pool.usedblockCount) =
      (s.poolList.map s.freeOf).sum +
        (pool.blockCount - pool'.usedblockCount) := by
  have hperm := List.perm_cons_erase hr.listed
  have hrest : (s.poolList.erase p).map s'.freeOf =
      (s.poolList.erase p).map s.freeOf := by
    refine List.map_congr_left fun q hq => ?_
    have hne : q ≠ p := (hnodup.mem_erase_iff.mp hq).1
    simp only [State.freeOf, hr.pools_of_ne hne]
  rw [(hperm.map s'.freeOf).sum_eq, (hperm.map s.freeOf).sum_eq,
    List.map_cons, List.map_cons, List.sum_cons, List.sum_cons, hrest]
  simp only [State.freeOf, hr.pools_self, hr.pool_eq, hr.blockCount_eq]
  omega

theorem Reshaped.bookkept (hr : Reshaped s s' p alloc pool pool')
    (h : Bookkept s) (hnodup : s'.allocList.Nodup)
    (hallocs : ∀ a ∈ s'.allocList, ∃ header pool, AllocOk s' a header pool)
    (hothers : ∀ q, q ≠ p → s'.allocsOf q = s.allocsOf q ∧
      alloc ∉ s.allocsOf q)
    (hparts : IsPartition ((s'.allocsOf p).map s'.blocksOf) pool'.taken)
    (hused : pool'.usedblockCount =
      ((s'.allocsOf p).map s'.blockCountOf).sum)
    (hfree : s'.freeBlockCount + (pool.blockCount - pool.usedblockCount) =
      s.freeBlockCount + (pool.blockCount - pool'.usedblockCount)) :
    Bookkept s' := by
  have hne : ∀ q, q ≠ p → ∀ a ∈ s.allocsOf q, a ≠ alloc :=
    fun q hq a ha heq => (hothers q hq).2 (heq ▸ ha)
  constructor
  case poolNodup =>
    rw [hr.poolList_eq]
    exact h.poolNodup
  case allocNodup => exact hnodup
  case pools =>
    rw [hr.poolList_eq]
    intro q hq
    obtain ⟨pool'', hok⟩ := h.pools q hq
    exact hr.poolOk hok
  case apart =>
    rw [hr.poolList_eq, List.map_congr_left fun q _ => hr.region_eq q]
    exact h.apart
  case allocs => exact hallocs
  case parts =>
    rw [hr.poolList_eq]
    intro q hq pool'' hpool''
    by_cases hqp : q = p
    · subst hqp
      rw [hr.pools_self, Option.some.injEq] at hpool''
      exact hpool'' ▸ hparts
    · rw [hr.pools_of_ne hqp] at hpool''
      rw [(hothers q hqp).1, List.map_congr_left fun a ha =>
        hr.blocksOf_eq (hne q hqp a ha)]
      exact h.parts q hq pool'' hpool''
  case used =>
    rw [hr.poolList_eq]
    intro q hq pool'' hpool''
    by_cases hqp : q = p
    · subst hqp
      rw [hr.pools_self, Option.some.injEq] at hpool''
      exact hpool'' ▸ hused
    · rw [hr.pools_of_ne hqp] at hpool''
      rw [(hothers q hqp).1, List.map_congr_left fun a ha =>
        hr.blockCountOf_eq (hne q hqp a ha)]
      exact h.used q hq pool'' hpool''
  case free =>
    have hsum := hr.sum_freeOf h.poolNodup
    have hold := h.free
    rw [hr.poolList_eq]
    omega
  case fresh =>
    rw [hr.initialized_eq, hr.poolList_eq]
    exact h.fresh

end Reshaped

/-! ## Taking blocks -/

/-- The run of `blockCount` free blocks from `i` on is enough for `size`
bytes. -/
structure Takeable (s : State) (p : ℕ) (pool : PoolHeader)
    (i blockCount size : ℕ) : Prop where
  listed : p ∈ s.poolList
  pool_eq : s.pools p = some pool
  isFree : pool.blockbitmap.AllSet i blockCount
  size_pos : 1 ≤ size
  blockCount_eq : blockCount = sizeToBlocks (size + 40) 64

def PoolHeader.take (pool : PoolHeader) (i blockCount : ℕ) : PoolHeader :=
  { pool with
    blockbitmap := pool.blockbitmap.bitmapClearBits i blockCount
    usedblockCount := pool.usedblockCount + blockCount }

/-- The heap after an allocation. -/
def State.take (s : State) (p : ℕ) (pool : PoolHeader)
    (i blockCount size : ℕ) : State :=
  let alloc := pool.blockpool + i * 64
  { s.setPool p (pool.take i blockCount) with
    headers := Function.update s.headers alloc (some ⟨p, blockCount, size⟩)
    bytes := storeBytes (vmemset s.bytes (alloc + 32) 0x90 size)
      (alloc + 32 + size) poisonValues
    freeBlockCount := s.freeBlockCount - blockCount
    allocList := s.allocList ++ [alloc] }

section Take

variable {s : State} {p i blockCount size : ℕ} {pool : PoolHeader}

theorem Bookkept.notMem_footprint (h : Bookkept s) (hp : p ∈ s.poolList)
    (hpool : s.pools p = some pool) {a : ℕ} (hlow : pool.blockpool ≤ a)
    (hhigh : a < pool.blockpool + pool.blockCount * 64)
    (hbit : pool.blockbitmap.bit ((a - pool.blockpool) / 64) = true)
    {alloc : ℕ} {header : AllocHeader} {pool' : PoolHeader}
    (halloc : alloc ∈ s.allocList) (hok : AllocOk s alloc header pool') :
    a ∉ header.footprint alloc := by
  intro ha
  have hregion := (h.poolOk hp hpool).block_mem hlow hhigh
  have hregion' := hok.footprint_subset (h.poolOk hok.listed hok.pool_eq) ha
  have hsame := h.regions.eq_of_mem hp hok.listed hregion hregion'
  have hpools := hpool.symm.trans (hsame ▸ hok.pool_eq)
  rw [Option.some.injEq] at hpools
  subst hpools
  have hmem : alloc ∈ s.allocsOf p :=
    List.mem_filter.mpr ⟨halloc, hok.isIn_iff.mpr hsame.symm⟩
  have htaken := ((h.parts p hp pool hpool).cover _).mpr
    ⟨s.blocksOf alloc, List.mem_map_of_mem hmem, hok.block_of_mem ha⟩
  rw [htaken.2] at hbit
  cases hbit

namespace Takeable

theorem blockCount_pos (ht : Takeable s p pool i blockCount size) :
    0 < blockCount := by
  rw [ht.blockCount_eq]
  exact sizeToBlocks_pos (by decide) (by omega)

theorem size_le (ht : Takeable s p pool i blockCount size) :
    size + 40 ≤ blockCount * 64 := by
  rw [ht.blockCount_eq]
  exact le_sizeToBlocks_mul _ (by decide)

theorem last_le (ht : Takeable s p pool i blockCount size)
    (h : Bookkept s) : i + blockCount ≤ pool.blockCount := by
  have hpos := ht.blockCount_pos
  by_contra hlast
  have hset := ht.isFree (i + blockCount - 1) (by omega) (by omega)
  have hclear := (h.poolOk ht.listed ht.pool_eq).beyond (i + blockCount - 1)
    (by omega)
  rw [hclear] at hset
  cases hset

theorem end_le (ht : Takeable s p pool i blockCount size)
    (h : Bookkept s) : i * 64 + blockCount * 64 ≤ pool.blockCount * 64 := by
  rw [← Nat.add_mul]
  exact Nat.mul_le_mul_right 64 (ht.last_le h)

theorem first_lt (ht : Takeable s p pool i blockCount size)
    (h : Bookkept s) : i < 4294967296 := by
  have hlast := ht.end_le h
  have hfits := (h.poolOk ht.listed ht.pool_eq).fits
  have hinside := (h.poolOk ht.listed ht.pool_eq).inside
  have hpos := ht.blockCount_pos
  omega

theorem bit_take (ht : Takeable s p pool i blockCount size)
    (h : Bookkept s) (j : ℕ) :
    (pool.take i blockCount).blockbitmap.bit j =
      if i ≤ j ∧ j < i + blockCount then false
      else pool.blockbitmap.bit j := by
  have hlast := ht.last_le h
  have hroom := (h.poolOk ht.listed ht.pool_eq).room
  simp only [PoolHeader.take,
    Bitmap.bit_bitmapClearBits _ (ht.first_lt h)]
  refine if_congr ?_ rfl rfl
  omega

theorem taken_take (ht : Takeable s p pool i blockCount size)
    (h : Bookkept s) :
    (pool.take i blockCount).taken =
      Set.Ico i (i + blockCount) ∪ pool.taken := by
  have hlast := ht.last_le h
  ext j
  change j < pool.blockCount ∧ _ = false ↔ (i ≤ j ∧ j < i + blockCount) ∨
    (j < pool.blockCount ∧ pool.blockbitmap.bit j = false)
  rw [ht.bit_take h]
  split
  next hj => simp only [hj, and_true, true_or, iff_true]; omega
  next hj => simp only [hj, false_or]

theorem disjoint_taken (ht : Takeable s p pool i blockCount size) :
    Disjoint (Set.Ico i (i + blockCount)) pool.taken := by
  refine Set.disjoint_left.mpr fun j hj htaken => ?_
  have hset := ht.isFree j hj.1 hj.2
  rw [htaken.2] at hset
  cases hset

theorem used_le (ht : Takeable s p pool i blockCount size)
    (h : Bookkept s) :
    pool.usedblockCount + blockCount ≤ pool.blockCount := by
  have hle := (pool.take i blockCount).ncard_taken_le
  rw [ht.taken_take h, Set.ncard_union_eq ht.disjoint_taken
    (Set.finite_Ico _ _) pool.taken_finite, Set.ncard_Ico_nat,
    ← h.used_eq_ncard ht.listed ht.pool_eq] at hle
  simp only [PoolHeader.take] at hle
  omega

theorem blockCount_le_free (ht : Takeable s p pool i blockCount size)
    (h : Bookkept s) : blockCount ≤ s.freeBlockCount := by
  have hused := ht.used_le h
  have hle : s.freeOf p ≤ (s.poolList.map s.freeOf).sum :=
    List.single_le_sum (by simp) _ (List.mem_map_of_mem ht.listed)
  have hfree : s.freeOf p = pool.blockCount - pool.usedblockCount := by
    simp only [State.freeOf, ht.pool_eq]
  rw [h.free]
  omega

theorem notMem_footprint (ht : Takeable s p pool i blockCount size)
    (h : Bookkept s) {a alloc : ℕ} {header : AllocHeader}
    {pool' : PoolHeader} (hlow : pool.blockpool + i * 64 ≤ a)
    (hhigh : a < pool.blockpool + i * 64 + blockCount * 64)
    (halloc : alloc ∈ s.allocList) (hok : AllocOk s alloc header pool') :
    a ∉ header.footprint alloc := by
  have hlast := ht.end_le h
  refine h.notMem_footprint ht.listed ht.pool_eq (by omega) (by omega) ?_
    halloc hok
  exact ht.isFree _ (by omega) (by omega)

theorem notMem_allocList (ht : Takeable s p pool i blockCount size)
    (h : Bookkept s) : pool.blockpool + i * 64 ∉ s.allocList := by
  intro hmem
  obtain ⟨header, pool', hok⟩ := h.allocs _ hmem
  have hpos := ht.blockCount_pos
  have hpos' := hok.blockCount_pos
  exact ht.notMem_footprint h le_rfl (by omega) hmem hok
    ⟨le_rfl, by omega⟩

theorem reshaped (ht : Takeable s p pool i blockCount size)
    (h : Bookkept s) :
    Reshaped s (s.take p pool i blockCount size) p
      (pool.blockpool + i * 64) pool (pool.take i blockCount) := by
  constructor
  case listed => exact ht.listed
  case pool_eq => exact ht.pool_eq
  case headers_eq =>
    intro a ha
    exact Function.update_of_ne ha _ _
  case bitCount_eq => exact Bitmap.bitmapClearBits_bitCount _ _ _
  case beyond =>
    intro j hj
    rw [ht.bit_take h]
    split
    next => rfl
    next => exact (h.poolOk ht.listed ht.pool_eq).beyond j hj
  all_goals rfl

theorem bytes_take (ht : Takeable s p pool i blockCount size) {a : ℕ}
    (ha : a ∉ Set.Ico (pool.blockpool + i * 64)
      (pool.blockpool + i * 64 + blockCount * 64)) :
    (s.take p pool i blockCount size).bytes a = s.bytes a := by
  have hsize := ht.size_le
  have hlen : poisonValues.length = 8 := rfl
  have hout : ¬(pool.blockpool + i * 64 ≤ a ∧
      a < pool.blockpool + i * 64 + blockCount * 64) := ha
  simp only [State.take, storeBytes, vmemset, hlen]
  rw [if_neg (by omega), if_neg (by omega)]

theorem allocOk_take (ht : Takeable s p pool i blockCount size)
    (h : Bookkept s) :
    AllocOk (s.take p pool i blockCount size) (pool.blockpool + i * 64)
      ⟨p, blockCount, size⟩ (pool.take i blockCount) := by
  refine ⟨Function.update_self _ _ _, ht.listed, (ht.reshaped h).pools_self,
    ⟨i, rfl, ht.last_le h⟩, ht.size_pos, ht.blockCount_eq, ?_⟩
  intro j hj
  have hlen : poisonValues.length = 8 := rfl
  simp only [State.take, storeBytes, hlen]
  rw [if_pos (by omega)]
  congr 1
  omega

theorem allocsOf_take (ht : Takeable s p pool i blockCount size)
    (h : Bookkept s) (q : ℕ) :
    (s.take p pool i blockCount size).allocsOf q =
      if p = q then s.allocsOf q ++ [pool.blockpool + i * 64]
      else s.allocsOf q := by
  have hold : s.allocList.filter
      ((s.take p pool i blockCount size).isIn q) = s.allocsOf q :=
    List.filter_congr fun a ha => (ht.reshaped h).isIn_eq
      (fun heq => ht.notMem_allocList h (heq ▸ ha)) q
  have hnew : (s.take p pool i blockCount size).isIn q
      (pool.blockpool + i * 64) = (p == q) := by
    simp only [State.isIn, (ht.allocOk_take h).header_eq]
  change (s.allocList ++ [pool.blockpool + i * 64]).filter _ = _
  rw [List.filter_append, hold, List.filter_singleton, hnew]
  by_cases hq : p = q
  · simp [hq]
  · simp [hq, beq_false_of_ne hq]

theorem blocksOf_take (ht : Takeable s p pool i blockCount size)
    (h : Bookkept s) :
    (s.take p pool i blockCount size).blocksOf (pool.blockpool + i * 64) =
      Set.Ico i (i + blockCount) := by
  obtain ⟨j, hj, -, hblocks⟩ := (ht.allocOk_take h).blocksOf_eq
  have heq : pool.blockpool + i * 64 = pool.blockpool + j * 64 := hj
  have hij : j = i := by omega
  rw [hblocks, hij]

theorem ne_of_mem_allocsOf (ht : Takeable s p pool i blockCount size)
    (h : Bookkept s) {a q : ℕ} (ha : a ∈ s.allocsOf q) :
    a ≠ pool.blockpool + i * 64 :=
  fun heq => ht.notMem_allocList h (heq ▸ List.mem_of_mem_filter ha)

theorem isPartition_take (ht : Takeable s p pool i blockCount size)
    (h : Bookkept s) :
    IsPartition (((s.take p pool i blockCount size).allocsOf p).map
      (s.take p pool i blockCount size).blocksOf)
      (pool.take i blockCount).taken := by
  have hpos := ht.blockCount_pos
  have hold := h.parts p ht.listed pool ht.pool_eq
  rw [← List.map_congr_left fun a ha =>
    (ht.reshaped h).blocksOf_eq (ht.ne_of_mem_allocsOf h ha)] at hold
  have hcons := hold.cons (P := Set.Ico i (i + blockCount))
    (Set.nonempty_Ico.mpr (by omega)) ht.disjoint_taken
  rw [ht.allocsOf_take h, if_pos rfl, List.map_append, List.map_singleton,
    ht.blocksOf_take h, ht.taken_take h]
  exact hcons.perm (List.perm_append_singleton _ _).symm

theorem bookkept (ht : Takeable s p pool i blockCount size)
    (h : Bookkept s) : Bookkept (s.take p pool i blockCount size) := by
  have hr := ht.reshaped h
  refine hr.bookkept h ?_ ?_ ?_ (ht.isPartition_take h) ?_ ?_
  · refine (List.perm_append_singleton _ _).nodup_iff.mpr ?_
    exact List.nodup_cons.mpr ⟨ht.notMem_allocList h, h.allocNodup⟩
  · intro a ha
    rcases List.mem_append.mp ha with ha | ha
    · obtain ⟨header, pool', hok⟩ := h.allocs a ha
      have hne : a ≠ pool.blockpool + i * 64 :=
        fun heq => ht.notMem_allocList h (heq ▸ ha)
      refine ⟨header, hr.allocOk hok hne fun j hj => ?_⟩
      refine ht.bytes_take fun hmem => ?_
      exact ht.notMem_footprint h hmem.1 hmem.2 ha hok (hok.poison_mem hj)
    · rw [List.mem_singleton] at ha
      exact ⟨_, _, ha ▸ ht.allocOk_take h⟩
  · intro q hq
    rw [ht.allocsOf_take h, if_neg (Ne.symm hq)]
    exact ⟨rfl, fun hmem => ht.ne_of_mem_allocsOf h hmem rfl⟩
  · rw [ht.allocsOf_take h, if_pos rfl, List.map_append, List.map_singleton,
      List.sum_append, List.sum_singleton,
      (ht.allocOk_take h).blockCountOf_eq, List.map_congr_left fun a ha =>
        hr.blockCountOf_eq (ht.ne_of_mem_allocsOf h ha)]
    change pool.usedblockCount + blockCount = _
    rw [h.used p ht.listed pool ht.pool_eq]
  · have hle := ht.blockCount_le_free h
    have hused := ht.used_le h
    change s.freeBlockCount - blockCount + _ = s.freeBlockCount +
      (pool.blockCount - (pool.usedblockCount + blockCount))
    omega

theorem room (ht : Takeable s p pool i blockCount size) (h : Bookkept s) :
    i + blockCount ≤ pool.blockbitmap.bitCount :=
  (ht.last_le h).trans (h.poolOk ht.listed ht.pool_eq).room

theorem assertBits_eq {bitmap : Bitmap} {expected : Bool} {text : String}
    {n j : ℕ} (hroom : j + n ≤ bitmap.bitCount)
    (hbits : ∀ k, j ≤ k → k < j + n → bitmap.bit k = expected) :
    assertBits bitmap expected text n j = .ok () := by
  induction n generalizing j with
  | zero => rfl
  | succ n ih =>
      rw [assertBits, Bitmap.bitmapIsBitSet_of_lt (by omega), ok_bind,
        hbits j le_rfl (by omega), cAssert_of (by simp), ok_bind]
      exact ih (by omega) fun k hlow hhigh =>
        hbits k (by omega) (by omega)

theorem takeBlocks_eq (ht : Takeable s p pool i blockCount size)
    (h : Bookkept s) :
    takeBlocks s p pool i blockCount size =
      .ok (some (pool.blockpool + i * 64 + 32),
        s.take p pool i blockCount size) := by
  have hok := h.poolOk ht.listed ht.pool_eq
  have hend := ht.end_le h
  have hfits := hok.fits
  have hinside := hok.inside
  have habove := hok.above
  have hused := ht.used_le h
  have hpos := ht.blockCount_pos
  have hoff : wrap (i * blockSize) = i * 64 :=
    wrap_of_lt (by simp only [blockSize]; omega)
  have haligned : isAligned (i * 64) maxAlign = true := by
    rw [isAligned_iff]
    exact Dvd.dvd.mul_left (by decide) i
  have haddress : wrap (pool.blockpool + i * 64) = pool.blockpool + i * 64 :=
    wrap_of_lt (by omega)
  have hcount : wrap (pool.usedblockCount + blockCount) =
      pool.usedblockCount + blockCount := wrap_of_lt (by omega)
  have hne : pool.blockpool + i * 64 ≠ 0 := by omega
  have hclear : ∀ k, i ≤ k → k < i + blockCount →
      (pool.blockbitmap.bitmapClearBits i blockCount).bit k = false := by
    intro k hlow hhigh
    exact (ht.bit_take h k).trans (if_pos ⟨hlow, hhigh⟩)
  have hinit : initAlloc (s.setPool p (pool.take i blockCount)) p
      (pool.blockpool + i * 64) blockCount size =
      .ok (some (pool.blockpool + i * 64 + 32),
        s.take p pool i blockCount size) := by
    have hfree : decide (blockCount ≤
        (s.setPool p (pool.take i blockCount)).freeBlockCount) = true :=
      decide_eq_true (ht.blockCount_le_free h)
    have hspace : ¬4294967296 < pool.blockpool + i * 64 + allocHeaderSize +
        size + poisonValues.length := by
      have hsize := ht.size_le
      simp only [allocHeaderSize, poisonValues, List.length_cons,
        List.length_nil]
      omega
    rw [initAlloc, cAssert_of hfree, ok_bind]
    dsimp only
    rw [if_neg hspace]
    change (heapCheckOverflow (s.take p pool i blockCount size) >>= _) = _
    rw [(ht.bookkept h).check]
    rfl
  rw [takeBlocks, assertBits_eq (ht.room h) ht.isFree, ok_bind]
  dsimp only
  rw [assertBits_eq (by simpa using ht.room h) hclear, ok_bind, hoff,
    cAssert_of haligned, ok_bind, haddress, if_neg hne, hcount]
  exact hinit

end Takeable

end Take

/-! ## Returning blocks -/

def PoolHeader.giveBack (pool : PoolHeader) (i blockCount : ℕ) :
    PoolHeader :=
  { pool with
    blockbitmap := pool.blockbitmap.bitmapSetBits i blockCount
    usedblockCount := pool.usedblockCount - blockCount }

/-- The heap after the allocation was freed. -/
def State.giveBack (s : State) (alloc : ℕ) (header : AllocHeader)
    (pool : PoolHeader) : State :=
  { s.setPool header.pool (pool.giveBack
      ((alloc - pool.blockpool) / 64) header.blockCount) with
    headers := Function.update s.headers alloc none
    bytes := vmemset s.bytes alloc 0x6f (header.blockCount * 64)
    freeBlockCount := s.freeBlockCount + header.blockCount
    allocList := s.allocList.erase alloc }

section GiveBack

variable {s : State} {alloc i : ℕ} {header : AllocHeader}
  {pool : PoolHeader}

namespace AllocOk

theorem mem_allocsOf (hok : AllocOk s alloc header pool)
    (halloc : alloc ∈ s.allocList) : alloc ∈ s.allocsOf header.pool :=
  List.mem_filter.mpr ⟨halloc, hok.isIn_iff.mpr rfl⟩

theorem blockCount_le_used (hok : AllocOk s alloc header pool)
    (h : Bookkept s) (halloc : alloc ∈ s.allocList) :
    header.blockCount ≤ pool.usedblockCount := by
  rw [h.used _ hok.listed pool hok.pool_eq, ← hok.blockCountOf_eq]
  exact List.single_le_sum (by simp) _
    (List.mem_map_of_mem (hok.mem_allocsOf halloc))

theorem blocksOf_eq_Ico (hok : AllocOk s alloc header pool) :
    s.blocksOf alloc = Set.Ico ((alloc - pool.blockpool) / 64)
      ((alloc - pool.blockpool) / 64 + header.blockCount) := by
  simp [State.blocksOf, hok.header_eq, hok.pool_eq, blockSize]

theorem last_le (hok : AllocOk s alloc header pool) :
    (alloc - pool.blockpool) / 64 + header.blockCount ≤
      pool.blockCount := by
  obtain ⟨i, halloc, hlast⟩ := hok.position
  omega

theorem bit_giveBack (hok : AllocOk s alloc header pool) (h : Bookkept s)
    (j : ℕ) :
    (pool.giveBack ((alloc - pool.blockpool) / 64)
        header.blockCount).blockbitmap.bit j =
      if (alloc - pool.blockpool) / 64 ≤ j ∧
        j < (alloc - pool.blockpool) / 64 + header.blockCount then true
      else pool.blockbitmap.bit j := by
  have hpool := h.poolOk hok.listed hok.pool_eq
  have hlast := hok.last_le
  have hroom := hpool.room
  have hfits := hpool.fits
  have hinside := hpool.inside
  simp only [PoolHeader.giveBack]
  rw [Bitmap.bit_bitmapSetBits _ (by omega)]
  refine if_congr ?_ rfl rfl
  omega

theorem taken_giveBack (hok : AllocOk s alloc header pool)
    (h : Bookkept s) :
    (pool.giveBack ((alloc - pool.blockpool) / 64)
      header.blockCount).taken = pool.taken \ s.blocksOf alloc := by
  ext j
  rw [hok.blocksOf_eq_Ico]
  change j < pool.blockCount ∧ _ = false ↔
    (j < pool.blockCount ∧ pool.blockbitmap.bit j = false) ∧
      ¬((alloc - pool.blockpool) / 64 ≤ j ∧
        j < (alloc - pool.blockpool) / 64 + header.blockCount)
  rw [hok.bit_giveBack h]
  split
  next hj => simp [hj]
  next hj => simp only [hj, not_false_eq_true, and_true]

theorem reshaped (hok : AllocOk s alloc header pool) (h : Bookkept s) :
    Reshaped s (s.giveBack alloc header pool) header.pool alloc pool
      (pool.giveBack ((alloc - pool.blockpool) / 64)
        header.blockCount) := by
  constructor
  case listed => exact hok.listed
  case pool_eq => exact hok.pool_eq
  case headers_eq =>
    intro a ha
    exact Function.update_of_ne ha _ _
  case bitCount_eq => exact Bitmap.bitmapSetBits_bitCount _ _ _
  case beyond =>
    intro j hj
    have hlast := hok.last_le
    rw [hok.bit_giveBack h, if_neg (by omega)]
    exact (h.poolOk hok.listed hok.pool_eq).beyond j hj
  all_goals rfl

theorem allocsOf_giveBack (hok : AllocOk s alloc header pool)
    (h : Bookkept s) (q : ℕ) :
    (s.giveBack alloc header pool).allocsOf q =
      (s.allocsOf q).erase alloc := by
  have hnodup : (s.allocsOf q).Nodup := h.allocNodup.filter _
  change (s.allocList.erase alloc).filter _ = _
  rw [h.allocNodup.erase_eq_filter, hnodup.erase_eq_filter, State.allocsOf,
    List.filter_filter, List.filter_filter]
  refine List.filter_congr fun a _ => ?_
  by_cases ha : a = alloc
  · simp [ha]
  · rw [(hok.reshaped h).isIn_eq ha, Bool.and_comm]

theorem ne_of_mem_allocsOf (hok : AllocOk s alloc header pool)
    (h : Bookkept s) {a q : ℕ}
    (ha : a ∈ (s.giveBack alloc header pool).allocsOf q) : a ≠ alloc := by
  rw [hok.allocsOf_giveBack h] at ha
  have hnodup : (s.allocsOf q).Nodup := h.allocNodup.filter _
  exact (hnodup.mem_erase_iff.mp ha).1

theorem bytes_giveBack (hok : AllocOk s alloc header pool)
    (h : Bookkept s) (halloc : alloc ∈ s.allocList) {a j : ℕ}
    {header' : AllocHeader} {pool' : PoolHeader} (ha : a ∈ s.allocList)
    (hok' : AllocOk s a header' pool') (hne : a ≠ alloc) (hj : j < 8) :
    (s.giveBack alloc header pool).bytes (a + 32 + header'.size + j) =
      s.bytes (a + 32 + header'.size + j) := by
  simp only [State.giveBack, vmemset]
  refine if_neg fun hmem => hne ?_
  exact h.eq_of_footprint ha halloc hok' hok (hok'.poison_mem hj) hmem

theorem perm_allocsOf (hok : AllocOk s alloc header pool)
    (h : Bookkept s) (halloc : alloc ∈ s.allocList) :
    (s.allocsOf header.pool).Perm
      (alloc :: (s.giveBack alloc header pool).allocsOf header.pool) := by
  rw [hok.allocsOf_giveBack h]
  exact List.perm_cons_erase (hok.mem_allocsOf halloc)

theorem isPartition_giveBack (hok : AllocOk s alloc header pool)
    (h : Bookkept s) (halloc : alloc ∈ s.allocList) :
    IsPartition (((s.giveBack alloc header pool).allocsOf header.pool).map
      (s.giveBack alloc header pool).blocksOf)
      (pool.giveBack ((alloc - pool.blockpool) / 64)
        header.blockCount).taken := by
  have hold := (h.parts _ hok.listed pool hok.pool_eq).perm
    ((hok.perm_allocsOf h halloc).map s.blocksOf)
  rw [List.map_congr_left fun a ha =>
    (hok.reshaped h).blocksOf_eq (hok.ne_of_mem_allocsOf h ha),
    hok.taken_giveBack h]
  exact hold.tail

theorem bookkept (hok : AllocOk s alloc header pool) (h : Bookkept s)
    (halloc : alloc ∈ s.allocList) :
    Bookkept (s.giveBack alloc header pool) := by
  have hr := hok.reshaped h
  refine hr.bookkept h (h.allocNodup.erase alloc) ?_ ?_
    (hok.isPartition_giveBack h halloc) ?_ ?_
  · intro a ha
    obtain ⟨hne, ha⟩ := h.allocNodup.mem_erase_iff.mp ha
    obtain ⟨header', pool', hok'⟩ := h.allocs a ha
    exact ⟨header', hr.allocOk hok' hne fun j hj =>
      hok.bytes_giveBack h halloc ha hok' hne hj⟩
  · intro q hq
    have hnot : alloc ∉ s.allocsOf q := fun hmem =>
      hq (hok.isIn_iff.mp (List.mem_filter.mp hmem).2).symm
    exact ⟨by rw [hok.allocsOf_giveBack h, List.erase_of_not_mem hnot],
      hnot⟩
  · have hsum := h.used _ hok.listed pool hok.pool_eq
    rw [((hok.perm_allocsOf h halloc).map s.blockCountOf).sum_eq,
      List.map_cons, List.sum_cons, hok.blockCountOf_eq] at hsum
    have hcounts : ((s.giveBack alloc header pool).allocsOf
        header.pool).map (s.giveBack alloc header pool).blockCountOf =
        ((s.giveBack alloc header pool).allocsOf header.pool).map
          s.blockCountOf :=
      List.map_congr_left fun a ha =>
        hr.blockCountOf_eq (hok.ne_of_mem_allocsOf h ha)
    rw [hcounts]
    change pool.usedblockCount - header.blockCount = _
    omega
  · have hle := hok.blockCount_le_used h halloc
    have hused := h.used_le hok.listed hok.pool_eq
    change s.freeBlockCount + header.blockCount + _ = s.freeBlockCount +
      (pool.blockCount - (pool.usedblockCount - header.blockCount))
    omega

/-- A live allocation passes the checks of `heap_free`. -/
theorem isPlaceBad_eq (hok : AllocOk s alloc header pool) (h : Bookkept s)
    (halloc : alloc ∈ s.allocList) :
    isPlaceBad pool header (alloc + 32) alloc = false := by
  obtain ⟨i, hposition, hlast⟩ := hok.position
  have hpool := h.poolOk hok.listed hok.pool_eq
  have hfits := hpool.fits
  have hinside := hpool.inside
  have hpos := hok.blockCount_pos
  have hused := hok.blockCount_le_used h halloc
  have hmul : i * 64 + header.blockCount * 64 ≤ pool.blockCount * 64 := by
    rw [← Nat.add_mul]
    exact Nat.mul_le_mul_right 64 hlast
  have hpoolend : wrap (pool.blockpool + pool.blockCount * blockSize) =
      pool.blockpool + pool.blockCount * 64 :=
    wrap_of_lt (by simp only [blockSize]; omega)
  have hallocend : wrap (alloc + header.blockCount * blockSize) =
      alloc + header.blockCount * 64 :=
    wrap_of_lt (by simp only [blockSize]; omega)
  simp only [isPlaceBad, hpoolend, hallocend, Bool.or_eq_false_iff,
    decide_eq_false_iff_not]
  omega

theorem heapFree_eq (hok : AllocOk s alloc header pool) (h : Bookkept s)
    (halloc : alloc ∈ s.allocList) :
    heapFree s (alloc + 32) = .ok (s.giveBack alloc header pool) := by
  have hpool := h.poolOk hok.listed hok.pool_eq
  have hpoolPos := hpool.positive
  have halignedPool := hpool.aligned
  obtain ⟨i, hposition, -⟩ := hok.position
  have haligned : isAligned (alloc + 32) maxAlign = true := by
    rw [isAligned_iff, maxAlign]
    omega
  have hheader : allocHeaderOf (alloc + 32) = some alloc := by
    simp [allocHeaderOf, haligned, allocHeaderSize]
  have hfree : wrap (s.freeBlockCount + header.blockCount) =
      s.freeBlockCount + header.blockCount := by
    have hle := h.free_le
    have hlast := hok.last_le
    have hfits := hpool.fits
    have hinside := hpool.inside
    exact wrap_of_lt (by omega)
  rw [heapFree, if_neg (by omega), h.check, ok_bind, hheader]
  simp only [State.getHeader, hok.header_eq, ok_bind]
  rw [if_neg (by omega)]
  simp only [State.getPool, hok.pool_eq, ok_bind]
  rw [hok.isPlaceBad_eq h halloc]
  simp only [Bool.false_eq_true, if_false, returnBlocks, State.setPool,
    hfree]
  change (heapCheckOverflow (s.giveBack alloc header pool) >>= _) = _
  rw [(hok.bookkept h halloc).check]
  rfl

end AllocOk

end GiveBack

end Heap
end Yjkos
