import Yjkos.HeapModel
import Yjkos.PmmPoolRun
import Mathlib.Data.Nat.Log

/-!
# Registering memory

`pmm_register_mem` cuts a range of memory into pools, the largest power of
two first.  The bitmap of a pool is sized from the pages which remain, not
from the pages of the pool; this file shows that it is always large enough
for every bit index of the pool.
-/

namespace Yjkos
namespace Pmm

/-- The three results of `calculate_pagepool_sizes`. -/
structure PagepoolSizes where
  pageCount : ℕ
  levelCount : ℕ
  bitCount : ℕ
deriving DecidableEq, Repr

def calculatePagepoolSizesLoop :
    ℕ → ℕ → PagepoolSizes → Except Fault PagepoolSizes
  | 0, _, _ => .error .outOfFuel
  | fuel + 1, currentPageCount, sizes =>
      if 1 < currentPageCount then
        calculatePagepoolSizesLoop fuel (currentPageCount / 2)
          { pageCount := wrap (sizes.pageCount * 2)
            levelCount := wrap (sizes.levelCount + 1)
            bitCount := wrap (sizes.bitCount + currentPageCount) }
      else .ok sizes

def calculatePagepoolSizes (pageCount : ℕ) : Except Fault PagepoolSizes :=
  calculatePagepoolSizesLoop 33 pageCount ⟨1, 1, 1⟩

/-- `sizeof(struct pagepool)`. -/
def sizeofPagepool : ℕ := 24

/-- The bytes which `pmm_register_mem` asks the heap for. -/
def metadataSize (wordCount : ℕ) : ℕ :=
  wrap (wrap (wordCount * 4) + sizeofPagepool)

/-- `bitmap_set_bit` on the first bit of a new bitmap.  Without words, which
the page counts from 2^31 + 1 on can lead to, the store goes to the byte
behind the metadata: to the first poison byte of the heap, which has the bit
set already. -/
def markFirstLevel (wordCount : ℕ) : Except Fault Bitmap :=
  if wordCount = 0 then .ok (Bitmap.zeroed 0)
  else (Bitmap.zeroed wordCount).bitmapSetBit 0

example : Heap.poisonValues.getD 0 0 ||| 1 = Heap.poisonValues.getD 0 0 := by
  decide

/-- The loop of `pmm_register_mem`.  `heapAlloc` says which attempts to
allocate metadata succeed; after a failed attempt the source tries again with
the same pages. -/
def registerMemLoop (heapAlloc : ℕ → ℕ → Bool) :
    ℕ → ℕ → ℕ → ℕ → List PagePool → Except Fault (List PagePool)
  | 0, _, _, _, _ => .error .outOfFuel
  | fuel + 1, attempt, currentBaseaddress, remainingPageCount, pools =>
      if remainingPageCount = 0 then .ok pools
      else do
        let sizes ← calculatePagepoolSizes remainingPageCount
        let wordCount := Bitmap.neededWordCount sizes.bitCount
        if heapAlloc attempt (metadataSize wordCount) then
          cAssert (currentBaseaddress % archPageSize = 0)
            "(pool->base_addr % ARCH_PAGESIZE) == 0"
          let bitmap ← markFirstLevel wordCount
          registerMemLoop heapAlloc fuel (attempt + 1)
            (wrap (currentBaseaddress +
              wrap (archPageSize * sizes.pageCount)))
            (wrap (remainingPageCount + 4294967296 - sizes.pageCount))
            (⟨bitmap, currentBaseaddress, sizes.pageCount⟩ :: pools)
        else
          registerMemLoop heapAlloc fuel (attempt + 1) currentBaseaddress
            remainingPageCount pools

/-- `pmm_register_mem`; the list of pools has the newest pool first, as the
chain from `s_firstpool` has. -/
def pmmRegisterMem (heapAlloc : ℕ → ℕ → Bool) (fuel base pageCount : ℕ)
    (pools : List PagePool) : Except Fault (List PagePool) := do
  cAssert (base ≠ 0) "base != 0"
  registerMemLoop heapAlloc fuel 0 base pageCount pools

/-! ## Sizes of a pool -/

theorem log_half {n : ℕ} (hn : 1 < n) :
    Nat.log 2 n = Nat.log 2 (n / 2) + 1 :=
  Nat.log_of_one_lt_of_le (by omega) (by omega)

theorem log_le_twenty {n : ℕ} (hle : n ≤ 1048576) : Nat.log 2 n ≤ 20 := by
  calc Nat.log 2 n ≤ Nat.log 2 (2 ^ 20) := Nat.log_mono_right hle
    _ = 20 := Nat.log_pow (by omega) 20

/-- The loop adds up the halves of the page count, which are at least the
levels of the full binary tree over the largest power of two below. -/
theorem calculatePagepoolSizesLoop_spec :
    ∀ (fuel n : ℕ) (sizes : PagepoolSizes), 0 < n → Nat.log 2 n < fuel →
      sizes.pageCount * n < 4294967296 →
      sizes.levelCount + n < 4294967296 →
      sizes.bitCount + 2 * n < 4294967296 →
      ∃ bits,
        calculatePagepoolSizesLoop fuel n sizes = .ok
          { pageCount := sizes.pageCount * 2 ^ Nat.log 2 n
            levelCount := sizes.levelCount + Nat.log 2 n
            bitCount := bits } ∧
        sizes.bitCount + (2 * 2 ^ Nat.log 2 n - 2) ≤ bits ∧
        bits ≤ sizes.bitCount + 2 * n := by
  intro fuel
  induction fuel with
  | zero =>
      intro n sizes _ hfuel
      omega
  | succ fuel ih =>
      intro n sizes hn hfuel hpages hlevels hbits
      rw [calculatePagepoolSizesLoop]
      by_cases hone : 1 < n
      · have hlog := log_half hone
        have htwice : 2 ^ Nat.log 2 (n / 2) * 2 ≤ n := by
          rw [← pow_succ, ← hlog]
          exact Nat.pow_log_le_self 2 (by omega)
        have hdouble : sizes.pageCount * 2 ≤ sizes.pageCount * n :=
          Nat.mul_le_mul_left _ hone
        have hhalf : sizes.pageCount * 2 * (n / 2) ≤ sizes.pageCount * n := by
          rw [Nat.mul_assoc]
          exact Nat.mul_le_mul_left _ (by omega)
        rw [if_pos hone, wrap_of_lt (by omega), wrap_of_lt (by omega),
          wrap_of_lt (by omega)]
        obtain ⟨bits, hloop, hlow, hhigh⟩ := ih (n / 2)
          ⟨sizes.pageCount * 2, sizes.levelCount + 1, sizes.bitCount + n⟩
          (by omega) (by omega) (by simp only; omega) (by simp only; omega)
          (by simp only; omega)
        refine ⟨bits, ?_, ?_, ?_⟩
        · rw [hloop, hlog, pow_succ]
          congr 2
          · ring
          · simp only
            omega
        · rw [hlog, pow_succ]
          simp only at hlow
          omega
        · simp only at hhigh
          omega
      · obtain rfl : n = 1 := by omega
        rw [if_neg hone]
        exact ⟨sizes.bitCount, by simp, by simp, by omega⟩

/-- A pool takes the largest power of two of pages, and its bitmap has at
least one bit for each block of each level. -/
theorem calculatePagepoolSizes_spec {n : ℕ} (hn : 0 < n)
    (hle : n ≤ 1048576) :
    ∃ sizes, calculatePagepoolSizes n = .ok sizes ∧
      sizes.pageCount = 2 ^ Nat.log 2 n ∧
      2 * 2 ^ Nat.log 2 n - 1 ≤ sizes.bitCount := by
  have hlog := log_le_twenty hle
  obtain ⟨bits, hloop, hlow, _⟩ := calculatePagepoolSizesLoop_spec 33 n
    ⟨1, 1, 1⟩ hn (by omega) (by simp only; omega) (by simp only; omega)
    (by simp only; omega)
  have hpow : 0 < 2 ^ Nat.log 2 n := by positivity
  refine ⟨_, hloop, by simp, ?_⟩
  simp only at hlow ⊢
  omega

/-! ## The pools which are added -/

/-- The physical addresses which a pool manages. -/
def addresses (pool : PagePool) : Set ℕ :=
  {addr | pool.baseAddr ≤ addr ∧
    addr < pool.baseAddr + pool.pageCount * archPageSize}

/-- A pool as it is registered, with a bitmap large enough for its tree. -/
structure Registered (pool : PagePool) : Prop where
  fresh : ∃ k words, k ≤ 20 ∧
    PoolState.Fresh k pool.baseAddr words ⟨pool, []⟩
  room : 2 * pool.pageCount - 1 ≤ pool.bitmap.bitCount

/-- The pools in `added` partition the addresses from `first` to below
`last`. -/
structure Partitions (first last : ℕ) (added : List PagePool) : Prop where
  disjoint : added.Pairwise fun p q => Disjoint (addresses p) (addresses q)
  cover : (⋃ p ∈ added, addresses p) = Set.Ico first last

theorem partitions_nil (first : ℕ) : Partitions first first [] := by
  constructor
  · exact List.Pairwise.nil
  · simp

theorem Partitions.append_first {first middle last : ℕ}
    {added : List PagePool} {pool : PagePool}
    (hrest : Partitions middle last added) (hmiddle : middle ≤ last)
    (hpool : addresses pool = Set.Ico first middle)
    (hfirst : first ≤ middle) :
    Partitions first last (added ++ [pool]) := by
  constructor
  · rw [List.pairwise_append]
    refine ⟨hrest.disjoint, List.pairwise_singleton _ _, ?_⟩
    intro p hp q hq
    obtain rfl : q = pool := by simpa using hq
    have hsub : addresses p ⊆ Set.Ico middle last := by
      rw [← hrest.cover]
      exact Set.subset_biUnion_of_mem hp
    rw [hpool]
    exact (Set.Ico_disjoint_Ico_same.mono_right hsub).symm
  · have hsplit : (⋃ p ∈ added ++ [pool], addresses p) =
        (⋃ p ∈ added, addresses p) ∪ addresses pool := by
      simp only [List.mem_append, List.mem_singleton,
        Set.iUnion_or, Set.iUnion_union_distrib, Set.iUnion_iUnion_eq_left]
    rw [hsplit, hrest.cover, hpool, Set.union_comm,
      Set.Ico_union_Ico_eq_Ico hfirst hmiddle]

theorem registered_pool {n base : ℕ} {sizes : PagepoolSizes}
    (hle : n ≤ 1048576)
    (hpages : sizes.pageCount = 2 ^ Nat.log 2 n)
    (hbits : 2 * 2 ^ Nat.log 2 n - 1 ≤ sizes.bitCount) :
    ∃ bitmap,
      markFirstLevel (Bitmap.neededWordCount sizes.bitCount) = .ok bitmap ∧
      Registered ⟨bitmap, base, sizes.pageCount⟩ := by
  have hroom := le_sizeToBlocks_mul sizes.bitCount (by decide : 0 < 32)
  rw [← pow_succ'] at hbits
  have hset := bitmapSetBit_zeroed (hbits.trans hroom)
  have hwords : Bitmap.neededWordCount sizes.bitCount ≠ 0 := by
    intro hzero
    have hpow : 2 ≤ 2 ^ (Nat.log 2 n + 1) :=
      Nat.le_self_pow (Nat.succ_ne_zero _) 2
    have hnone : 2 ^ (Nat.log 2 n + 1) - 1 ≤
        Bitmap.neededWordCount sizes.bitCount * 32 := hbits.trans hroom
    omega
  refine ⟨_, (if_neg hwords).trans hset, ⟨Nat.log 2 n, _, log_le_twenty hle,
    ⟨hpages, rfl, hset, rfl⟩⟩, ?_⟩
  rw [Bitmap.withBit_bitCount, Bitmap.zeroed_bitCount, hpages, ← pow_succ']
  exact hbits.trans hroom

theorem registerMemLoop_zero {heapAlloc : ℕ → ℕ → Bool}
    {fuel attempt base : ℕ} {pools : List PagePool} (hfuel : 0 < fuel) :
    registerMemLoop heapAlloc fuel attempt base 0 pools = .ok pools := by
  obtain ⟨fuel, rfl⟩ := Nat.exists_eq_add_one_of_ne_zero hfuel.ne'
  rfl

/-- One round of the loop moves the largest power of two of pages from the
remaining ones into a new pool. -/
theorem registerMemLoop_spec {heapAlloc : ℕ → ℕ → Bool}
    (hheap : ∀ attempt size, heapAlloc attempt size = true) :
    ∀ (fuel attempt base n : ℕ) (pools : List PagePool), n < fuel →
      (n ≠ 0 → archPageSize ∣ base) →
      (n ≠ 0 → base + n * archPageSize ≤ 4294967296) →
      ∃ added,
        registerMemLoop heapAlloc fuel attempt base n pools =
          .ok (added ++ pools) ∧
        Partitions base (base + n * archPageSize) added ∧
        ∀ p ∈ added, Registered p := by
  intro fuel
  induction fuel with
  | zero =>
      intro attempt base n pools hfuel
      omega
  | succ fuel ih =>
      intro attempt base n pools hfuel halign hfits
      rw [registerMemLoop]
      by_cases hzero : n = 0
      · subst n
        refine ⟨[], by simp, ?_, by simp⟩
        rw [Nat.zero_mul, Nat.add_zero]
        exact partitions_nil base
      · have halign := halign hzero
        have hfits := hfits hzero
        have hle : n ≤ 1048576 := by
          unfold archPageSize at hfits
          omega
        obtain ⟨sizes, hsizes, hpages, hbits⟩ :=
          calculatePagepoolSizes_spec (Nat.pos_of_ne_zero hzero) hle
        obtain ⟨bitmap, hset, hregistered⟩ :=
          @registered_pool n base sizes hle hpages hbits
        have hpool_pos : 0 < sizes.pageCount := by
          rw [hpages]
          positivity
        have hpool_le : sizes.pageCount ≤ n := by
          rw [hpages]
          exact Nat.pow_log_le_self 2 hzero
        have hremaining : wrap (n + 4294967296 - sizes.pageCount) =
            n - sizes.pageCount := by
          unfold wrap
          omega
        have hnew : addresses ⟨bitmap, base, sizes.pageCount⟩ =
            Set.Ico base (base + sizes.pageCount * archPageSize) := rfl
        simp only [hzero, if_false, hsizes, ok_bind, hheap, if_true,
          Nat.dvd_iff_mod_eq_zero.mp halign, decide_true, cAssert_true, hset,
          hremaining]
        by_cases hlast : n = sizes.pageCount
        · -- the last round may leave the address wrapped to zero
          subst hlast
          refine ⟨[⟨bitmap, base, sizes.pageCount⟩], ?_, ?_, ?_⟩
          · rw [Nat.sub_self, registerMemLoop_zero (by omega)]
            rfl
          · exact (partitions_nil _).append_first le_rfl hnew (by omega)
          · simpa using hregistered
        · have hnext : wrap (base + wrap (archPageSize * sizes.pageCount)) =
              base + sizes.pageCount * archPageSize := by
            unfold wrap archPageSize at *
            omega
          have hrest : base + sizes.pageCount * archPageSize +
              (n - sizes.pageCount) * archPageSize =
              base + n * archPageSize := by
            rw [Nat.add_assoc, ← Nat.add_mul, Nat.add_sub_cancel' hpool_le]
          obtain ⟨added, hloop, hparts, hall⟩ := ih (attempt + 1)
            (base + sizes.pageCount * archPageSize) (n - sizes.pageCount)
            (⟨bitmap, base, sizes.pageCount⟩ :: pools) (by omega)
            (fun _ => Dvd.dvd.add halign (Nat.dvd_mul_left _ _))
            (fun _ => hrest.symm ▸ hfits)
          rw [hrest] at hparts
          refine ⟨added ++ [⟨bitmap, base, sizes.pageCount⟩], ?_, ?_, ?_⟩
          · rw [hnext, hloop, List.append_assoc]
            rfl
          · refine hparts.append_first ?_ hnew (by omega)
            rw [← hrest]
            omega
          · intro p hp
            rcases List.mem_append.mp hp with hp | hp
            · exact hall p hp
            · exact List.mem_singleton.mp hp ▸ hregistered

/-! ## Bit indices of later calls -/

section Indices

variable {k n level index : ℕ} {bitmap : Bitmap} {pool : PagePool}

/-- A bit index inside of a bitmap of `n` bits. -/
def InBitmap (n : ℕ) (i : ℤ) : Prop := 0 ≤ i ∧ i < n

theorem inBitmap_bitIndex (hroom : 2 ^ (k + 1) - 1 ≤ n) (hlevel : level ≤ k)
    (hindex : index < 2 ^ level) : InBitmap n (bitIndex level index) := by
  have hlt := bitIndex_lt hlevel hindex
  unfold InBitmap
  omega

theorem ensures_bitIndex (level index : ℕ) :
    (bitIndexForPagepoolBlock level index).Ensures (InBitmap n)
      fun i => i = bitIndex level index ∧ index < 2 ^ level := by
  constructor
  · intro i hi
    simp [bitIndexForPagepoolBlock, Traced.mem_touched_bind] at hi
  · intro i hi
    rw [bitIndexForPagepoolBlock_result] at hi
    split at hi
    next hlt =>
      rw [Except.ok.injEq] at hi
      exact ⟨hi.symm, hlt⟩
    next => contradiction

theorem ensures_setBit {i : ℕ} (hi : InBitmap n i)
    (hbitmap : bitmap.bitCount = n) :
    (setBit bitmap i).Ensures (InBitmap n) fun b => b.bitCount = n := by
  apply Traced.ensures_touch hi
  intro b hb
  have hlt : i < bitmap.bitCount := by
    unfold InBitmap at hi
    omega
  rw [Bitmap.bitmapSetBit_of_lt hlt, Except.ok.injEq] at hb
  rw [← hb, Bitmap.withBit_bitCount, hbitmap]

theorem ensures_clearBit {i : ℤ} (hi : InBitmap n i)
    (hbitmap : bitmap.bitCount = n) :
    (clearBit bitmap i).Ensures (InBitmap n) fun b => b.bitCount = n := by
  apply Traced.ensures_touch hi
  intro b hb
  obtain ⟨hpos, hi⟩ := hi
  obtain ⟨i, rfl⟩ := Int.eq_ofNat_of_zero_le hpos
  have hlt : i < bitmap.bitCount := by omega
  rw [Bitmap.bitmapClearBit_of_lt hlt, Except.ok.injEq] at hb
  rw [← hb, Bitmap.withBit_bitCount, hbitmap]

theorem ensures_isBitSet {i : ℤ} (hi : InBitmap n i) :
    (isBitSet bitmap i).Ensures (InBitmap n) fun _ => True :=
  Traced.ensures_touch hi fun _ _ => trivial

/-- The search looks at the first bit of each level it visits, and accepts a
bit only inside of the level. -/
theorem ensures_findBlockInLevel (hroom : 2 ^ (k + 1) - 1 ≤ n)
    (hlevel : level ≤ k) :
    (findBlockInLevel bitmap level).Ensures (InBitmap n)
      fun found => ∀ index, found = some index → index < 2 ^ level := by
  have hpos : 0 < 2 ^ level := by positivity
  have hfirst := inBitmap_bitIndex hroom hlevel hpos
  unfold findBlockInLevel
  rw [bitIndicesRangeForLevel_eq]
  apply Traced.Ensures.bind (Q := fun _ => True)
  · exact Traced.ensures_touch hfirst fun _ _ => trivial
  · intro foundAt _
    simp only
    split
    next hrange =>
      apply Traced.ensures_pure
      intro index hindex
      rw [Option.some.injEq] at hindex
      omega
    next => exact Traced.ensures_pure (by simp)

theorem ensures_findBlock (hroom : 2 ^ (k + 1) - 1 ≤ n) :
    ∀ wanted, wanted ≤ k →
      (findBlock bitmap wanted).Ensures (InBitmap n)
        fun found => ∀ level index, found = some (level, index) →
          level ≤ wanted ∧ index < 2 ^ level := by
  intro wanted
  induction wanted with
  | zero =>
      intro hwanted
      rw [findBlock]
      apply (ensures_findBlockInLevel hroom hwanted).bind
      intro found hfound
      cases found with
      | none => exact Traced.ensures_pure (by simp)
      | some index =>
          apply Traced.ensures_pure
          intro level index' heq
          simp only [Option.some.injEq, Prod.mk.injEq] at heq
          obtain ⟨rfl, rfl⟩ := heq
          exact ⟨le_rfl, hfound index rfl⟩
  | succ below ih =>
      intro hwanted
      rw [findBlock]
      apply (ensures_findBlockInLevel hroom hwanted).bind
      intro found hfound
      cases found with
      | none =>
          have hbelow := ih (by omega)
          refine ⟨hbelow.touched, ?_⟩
          intro found' hresult level index heq
          obtain ⟨hle, hlt⟩ := hbelow.result found' hresult level index heq
          exact ⟨by omega, hlt⟩
      | some index =>
          apply Traced.ensures_pure
          intro level index' heq
          simp only [Option.some.injEq, Prod.mk.injEq] at heq
          obtain ⟨rfl, rfl⟩ := heq
          exact ⟨le_rfl, hfound index rfl⟩

theorem ensures_splitBlocks (hroom : 2 ^ (k + 1) - 1 ≤ n) :
    ∀ (left : ℕ) (bitmap : Bitmap) (level index : ℕ), level + left ≤ k →
      bitmap.bitCount = n →
      (splitBlocks left bitmap level index).Ensures (InBitmap n)
        fun out => out.1.bitCount = n := by
  intro left
  induction left with
  | zero =>
      intro bitmap level index _ hbitmap
      exact Traced.ensures_pure hbitmap
  | succ left ih =>
      intro bitmap level index hlevel hbitmap
      rw [splitBlocks]
      apply (ensures_bitIndex level index).bind
      rintro _ ⟨rfl, hindex⟩
      apply (ensures_clearBit
        (inBitmap_bitIndex hroom (by omega) hindex) hbitmap).bind
      intro cleared hcleared
      apply (ensures_bitIndex (level + 1) (index * 2 + 1)).bind
      rintro _ ⟨rfl, hindex⟩
      apply (ensures_setBit
        (inBitmap_bitIndex hroom (by omega) hindex) hcleared).bind
      intro marked hmarked
      exact ih marked (level + 1) (index * 2) (by omega) hmarked

theorem ensures_markAvailable (hroom : 2 ^ (k + 1) - 1 ≤ n)
    (hlevel : level ≤ k) (index : ℕ) (hbitmap : bitmap.bitCount = n) :
    (markAvailable level index bitmap).Ensures (InBitmap n)
      fun out => out.1 = bitIndex level index ∧ index < 2 ^ level ∧
        out.2.bitCount = n := by
  unfold markAvailable
  apply (ensures_bitIndex level index).bind
  rintro _ ⟨rfl, hindex⟩
  have hinside := inBitmap_bitIndex hroom hlevel hindex
  apply (ensures_isBitSet hinside).bind
  intro isSet _
  split
  · exact Traced.ensures_fail _
  · apply (ensures_setBit hinside hbitmap).bind
    intro marked hmarked
    exact Traced.ensures_pure ⟨rfl, hindex, hmarked⟩

theorem inBitmap_neighbor (hroom : 2 ^ (k + 1) - 1 ≤ n)
    (hlevel : level + 1 ≤ k) (hindex : index < 2 ^ (level + 1)) :
    InBitmap n (if index % 2 = 0 then (bitIndex (level + 1) index : ℤ) + 1
      else (bitIndex (level + 1) index : ℤ) - 1) := by
  rw [bitIndex_neighbor (by omega)]
  exact inBitmap_bitIndex hroom hlevel (Buddy.neighbor_lt hindex)

theorem ensures_mergeBlocks (hroom : 2 ^ (k + 1) - 1 ≤ n) :
    ∀ (level index : ℕ) (bitmap : Bitmap), level ≤ k →
      bitmap.bitCount = n →
      (mergeBlocks level index bitmap).Ensures (InBitmap n)
        fun b => b.bitCount = n := by
  intro level
  induction level with
  | zero =>
      intro index bitmap hlevel hbitmap
      rw [mergeBlocks]
      apply (ensures_markAvailable hroom hlevel index hbitmap).bind
      rintro ⟨_, marked⟩ ⟨_, _, hmarked⟩
      exact Traced.ensures_pure hmarked
  | succ below ih =>
      intro index bitmap hlevel hbitmap
      rw [mergeBlocks]
      apply (ensures_markAvailable hroom hlevel index hbitmap).bind
      rintro ⟨_, marked⟩ ⟨rfl, hindex, hmarked⟩
      have hinside := inBitmap_bitIndex hroom hlevel hindex
      have hneighbor := inBitmap_neighbor hroom hlevel hindex
      apply (ensures_isBitSet hneighbor).bind
      intro isSet _
      split
      · apply (ensures_clearBit hinside hmarked).bind
        intro cleared hcleared
        apply (ensures_clearBit hneighbor hcleared).bind
        intro merged hmerged
        exact ih (index / 2) merged (by omega) hmerged
      · exact Traced.ensures_pure hmarked

/-- A pool of `2 ^ k` pages at `base` whose bitmap has `n` bits, whatever
they are. -/
structure Shaped (k base n : ℕ) (pool : PagePool) : Prop where
  pageCount : pool.pageCount = 2 ^ k
  baseAddr : pool.baseAddr = base
  bitCount : pool.bitmap.bitCount = n

variable {base : ℕ}

theorem Shaped.withBitmap (hpool : Shaped k base n pool)
    (hbitmap : bitmap.bitCount = n) :
    Shaped k base n { pool with bitmap := bitmap } :=
  ⟨hpool.pageCount, hpool.baseAddr, hbitmap⟩

theorem Shaped.level_of_rounded (hpool : Shaped k base n pool)
    (hk : k ≤ 32) {r : ℕ} (hle : ¬pool.pageCount < 2 ^ r) :
    blockSizeToPagepoolLevel pool (2 ^ r) = .ok (k - r) := by
  apply blockSizeToPagepoolLevel_eq hpool.pageCount _ hk
  rw [hpool.pageCount, not_lt] at hle
  exact (Nat.pow_le_pow_iff_right (by omega)).mp hle

theorem ensures_allocBlock (hroom : 2 ^ (k + 1) - 1 ≤ n) (hk : k ≤ 32)
    (hpool : Shaped k base n pool) {r : ℕ} (hle : ¬pool.pageCount < 2 ^ r) :
    (allocBlock pool (2 ^ r)).Ensures (InBitmap n)
      fun out => Shaped k base n out.pool := by
  unfold allocBlock
  rw [hpool.level_of_rounded hk hle]
  apply Traced.Ensures.bind (Q := fun level => level = k - r)
  · exact Traced.ensures_lift (by simp)
  rintro _ rfl
  apply (ensures_findBlock hroom (k - r) (by omega)).bind
  intro found hfound
  cases found with
  | none => exact Traced.ensures_pure hpool
  | some block =>
      obtain ⟨level, index⟩ := block
      obtain ⟨hlevel, _⟩ := hfound level index rfl
      apply (ensures_splitBlocks hroom (k - r - level) pool.bitmap level index
        (by omega) hpool.bitCount).bind
      rintro ⟨split, index'⟩ hsplit
      apply (ensures_bitIndex (k - r) index').bind
      rintro _ ⟨rfl, hindex⟩
      apply (ensures_clearBit
        (inBitmap_bitIndex hroom (by omega) hindex) hsplit).bind
      intro cleared hcleared
      exact Traced.ensures_pure (hpool.withBitmap hcleared)

theorem ensures_roundUp (count : ℕ) :
    (Traced.lift (roundUp count)).Ensures (InBitmap n) fun rounded =>
      ∀ size, rounded = some size → ∃ r, size = 2 ^ r := by
  apply Traced.ensures_lift
  intro rounded hrounded size hsize
  rw [roundUp_eq, Except.ok.injEq] at hrounded
  subst hrounded
  split at hsize
  · exact ⟨_, (Option.some.inj hsize).symm⟩
  · contradiction

theorem ensures_allocFromPool (hroom : 2 ^ (k + 1) - 1 ≤ n) (hk : k ≤ 32)
    (hpool : Shaped k base n pool) (count : ℕ) :
    (allocFromPool pool count).Ensures (InBitmap n)
      fun out => Shaped k base n out.pool := by
  unfold allocFromPool
  apply Traced.Ensures.bind (Q := fun _ => True)
  · exact Traced.ensures_lift fun _ _ => trivial
  intro _ _
  apply (ensures_roundUp count).bind
  intro rounded hrounded
  cases rounded with
  | none => exact Traced.ensures_pure hpool
  | some size =>
      obtain ⟨r, rfl⟩ := hrounded size rfl
      simp only
      split
      · exact Traced.ensures_pure hpool
      next hle => exact ensures_allocBlock hroom hk hpool hle

theorem ensures_freeBlock (hroom : 2 ^ (k + 1) - 1 ≤ n) (hk : k ≤ 32)
    (hpool : Shaped k base n pool) (ptr : ℕ) {r : ℕ}
    (hle : ¬pool.pageCount < 2 ^ r) :
    (freeBlock pool ptr (2 ^ r)).Ensures (InBitmap n) (Shaped k base n) := by
  unfold freeBlock
  simp only
  split
  · exact Traced.ensures_fail _
  · rw [hpool.level_of_rounded hk hle]
    apply Traced.Ensures.bind (Q := fun level => level = k - r)
    · exact Traced.ensures_lift (by simp)
    rintro _ rfl
    apply Traced.Ensures.bind (Q := fun _ => True)
    · exact Traced.ensures_lift fun _ _ => trivial
    intro _ _
    apply (ensures_mergeBlocks hroom (k - r) _ pool.bitmap (by omega)
      hpool.bitCount).bind
    intro merged hmerged
    exact Traced.ensures_pure (hpool.withBitmap hmerged)

theorem ensures_freeFromPool (hroom : 2 ^ (k + 1) - 1 ≤ n) (hk : k ≤ 32)
    (hpool : Shaped k base n pool) (ptr count : ℕ) :
    (freeFromPool pool ptr count).Ensures (InBitmap n)
      (Shaped k base n) := by
  unfold freeFromPool
  split
  · exact Traced.ensures_pure hpool
  split
  · exact Traced.ensures_fail _
  apply (ensures_roundUp count).bind
  intro rounded hrounded
  cases rounded with
  | none => exact Traced.ensures_fail _
  | some size =>
      obtain ⟨r, rfl⟩ := hrounded size rfl
      simp only
      split
      · exact Traced.ensures_fail _
      next hle => exact ensures_freeBlock hroom hk hpool ptr hle

end Indices

/-- A call of one of the two pool routines, with any arguments. -/
inductive PoolCall where
  | alloc (pageCount : ℕ)
  | free (ptr pageCount : ℕ)

def PoolCall.perform (pool : PagePool) : PoolCall → PoolM PagePool
  | .alloc pageCount => do
      let out ← allocFromPool pool pageCount
      pure out.pool
  | .free ptr pageCount => freeFromPool pool ptr pageCount

def PoolCall.step (pool : PagePool) (call : PoolCall) :
    Except Fault PagePool :=
  (call.perform pool).result

/-- The states of a pool after any calls which return. -/
def Later (pool : PagePool) : PagePool → Prop :=
  TransitionRun.Reachable (fun p => p = pool) (fun _ _ => True) PoolCall.step

theorem ensures_perform {k base n : ℕ} {pool : PagePool}
    (hroom : 2 ^ (k + 1) - 1 ≤ n) (hk : k ≤ 32)
    (hpool : Shaped k base n pool) (call : PoolCall) :
    (call.perform pool).Ensures (InBitmap n) (Shaped k base n) := by
  cases call with
  | alloc count =>
      apply (ensures_allocFromPool hroom hk hpool count).bind
      intro out hout
      exact Traced.ensures_pure hout
  | free ptr count => exact ensures_freeFromPool hroom hk hpool ptr count

/-- Calls keep the shape of the pool, so whatever came before, a call
computes bit indices inside of the bitmap only. -/
theorem Later.touched_inBitmap {k : ℕ} {pool later : PagePool}
    (hroom : 2 ^ (k + 1) - 1 ≤ pool.bitmap.bitCount) (hk : k ≤ 32)
    (hpages : pool.pageCount = 2 ^ k) (hlater : Later pool later)
    (call : PoolCall) :
    ∀ i ∈ (call.perform later).touched, InBitmap later.bitmap.bitCount i := by
  have hshaped :
      Shaped k pool.baseAddr pool.bitmap.bitCount later := by
    apply TransitionRun.Reachable.invariant _ _ hlater
    · rintro _ rfl
      exact ⟨hpages, rfl, rfl⟩
    · intro p call p' hp _ hstep
      exact (ensures_perform hroom hk hp call).result p' hstep
  rw [hshaped.bitCount]
  exact (ensures_perform hroom hk hshaped call).touched

/-- `pmm_register_mem` partitions the memory into pools of a power of two of
pages, and no later call on one of these pools leaves its bitmap. -/
theorem pmmRegisterMem_partitions {heapAlloc : ℕ → ℕ → Bool}
    {fuel base pageCount : ℕ} (pools : List PagePool) (hbase : base ≠ 0)
    (halign : archPageSize ∣ base)
    (hfits : base + pageCount * archPageSize ≤ 4294967296)
    (hheap : ∀ attempt size, heapAlloc attempt size = true)
    (hfuel : pageCount < fuel) :
    ∃ added,
      pmmRegisterMem heapAlloc fuel base pageCount pools =
        .ok (added ++ pools) ∧
      added.Pairwise (fun p q => Disjoint (addresses p) (addresses q)) ∧
      (⋃ p ∈ added, addresses p) =
        Set.Ico base (base + pageCount * archPageSize) ∧
      ∀ p ∈ added,
        (∃ k, p.pageCount = 2 ^ k) ∧
        2 * p.pageCount - 1 ≤ p.bitmap.bitCount ∧
        ∀ later, Later p later → ∀ call : PoolCall,
          ∀ i ∈ (call.perform later).touched,
            InBitmap later.bitmap.bitCount i := by
  obtain ⟨added, hloop, hparts, hall⟩ := registerMemLoop_spec hheap fuel 0
    base pageCount pools hfuel (fun _ => halign) (fun _ => hfits)
  refine ⟨added, ?_, hparts.disjoint, hparts.cover, ?_⟩
  · rw [pmmRegisterMem, cAssert_of (by simpa using hbase), ok_bind, hloop]
  · intro p hp
    obtain ⟨⟨k, words, hk, hfresh⟩, hroom⟩ := hall p hp
    have hpages : p.pageCount = 2 ^ k := hfresh.pageCount
    refine ⟨⟨k, hpages⟩, hroom, ?_⟩
    intro later hlater call
    apply hlater.touched_inBitmap _ (by omega) hpages call
    rwa [pow_succ', ← hpages]

/-- The theorem for three pages at `0x1000`. -/
theorem pmmRegisterMem_partitions_three_pages :
    ∃ added,
      pmmRegisterMem (fun _ _ => true) 4 4096 3 [] = .ok (added ++ []) ∧
      (⋃ p ∈ added, addresses p) = Set.Ico 4096 16384 := by
  obtain ⟨added, hresult, _, hcover, _⟩ :=
    @pmmRegisterMem_partitions (fun _ _ => true) 4 4096 3 [] (by decide)
      (by decide) (by decide) (fun _ _ => rfl) (by decide)
  exact ⟨added, hresult, hcover⟩

end Pmm
end Yjkos
