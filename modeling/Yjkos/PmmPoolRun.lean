import Yjkos.PmmBuddy
import Yjkos.TransitionRun

/-!
# Runs of one page pool

A pool together with the allocations which its callers hold.  Every state
reached by allocations and by frees of held allocations keeps the bitmap in
canonical form, so no check of the pool routines can fail and the bitmap is a
function of the held allocations alone.
-/

namespace Yjkos
namespace Pmm

open Buddy

/-- An allocation held by a caller: the address, the page count asked for and
the page count written back. -/
structure Allocation where
  ptr : ℕ
  requested : ℕ
  rounded : ℕ
deriving DecidableEq, Repr

/-- The pages of an allocation, counted from the base of its pool. -/
def Allocation.pages (base : ℕ) (a : Allocation) : Set ℕ :=
  {page | a.ptr ≤ base + page * archPageSize ∧
    base + page * archPageSize < a.ptr + a.rounded * archPageSize}

structure PoolState where
  pool : PagePool
  live : List Allocation
deriving DecidableEq, Repr

inductive PoolOp where
  | alloc (count : ℕ)
  | free (allocation : Allocation) (count : ℕ)
deriving DecidableEq, Repr

namespace PoolState

/-- A pool of `2 ^ k` pages as it is handed over by `pmm_register_mem`. -/
structure Fresh (k base words : ℕ) (s : PoolState) : Prop where
  pageCount : s.pool.pageCount = 2 ^ k
  baseAddr : s.pool.baseAddr = base
  bitmap : (Bitmap.zeroed words).bitmapSetBit 0 = .ok s.pool.bitmap
  live : s.live = []

/-- Callers ask for at least one page and free what they hold, with either
of the two page counts they know. -/
def Admits (s : PoolState) : PoolOp → Prop
  | .alloc count => 1 ≤ count
  | .free a count => a ∈ s.live ∧ (count = a.requested ∨ count = a.rounded)

def step (s : PoolState) : PoolOp → Except Fault PoolState
  | .alloc count => do
      let out ← (allocFromPool s.pool count).result
      if out.result = 0 then .ok ⟨out.pool, s.live⟩
      else .ok ⟨out.pool, ⟨out.result, count, out.pageCount⟩ :: s.live⟩
  | .free a count => do
      let pool ← (freeFromPool s.pool a.ptr count).result
      .ok ⟨pool, s.live.erase a⟩

/-- The pages of the pool which no live allocation covers. -/
def freePages (k : ℕ) (s : PoolState) : Set ℕ :=
  {page | page < 2 ^ k ∧ ∀ a ∈ s.live, page ∉ a.pages s.pool.baseAddr}

end PoolState

/-- Where a pool of `2 ^ k` pages may lie. -/
structure PoolPlace (k base : ℕ) : Prop where
  nonzero : base ≠ 0
  aligned : archPageSize ∣ base
  fits : base + 2 ^ k * archPageSize < 4294967296

/-- A pool of `2 ^ k` pages which may end with the last page of the address
space. -/
structure PoolRange (k base : ℕ) : Prop where
  low : archPageSize ≤ base
  fits : base + 2 ^ k * archPageSize ≤ 4294967296

theorem PoolPlace.range {k base : ℕ} (hplace : PoolPlace k base) :
    PoolRange k base :=
  ⟨Nat.le_of_dvd (Nat.pos_of_ne_zero hplace.nonzero) hplace.aligned,
    hplace.fits.le⟩

theorem PoolRange.pages_lt {k base : ℕ} (hrange : PoolRange k base) :
    2 ^ k < 2 ^ 20 := by
  obtain ⟨hlow, hfits⟩ := hrange
  unfold archPageSize at hlow hfits
  omega

theorem PoolRange.levels_lt {k base : ℕ} (hrange : PoolRange k base) :
    k < 20 :=
  (Nat.pow_lt_pow_iff_right (by omega)).mp hrange.pages_lt

/-! ## Blocks as allocations -/

/-- An allocation which is a block of the pool, with the size its requested
page count rounds to. -/
structure IsBlock (k base : ℕ) (a : Allocation) (r index : ℕ) : Prop where
  order_le : r ≤ k
  index_lt : index < 2 ^ (k - r)
  rounded : a.rounded = 2 ^ r
  ptr : a.ptr = base + index * 2 ^ r * archPageSize
  requested : Nat.clog 2 a.requested = r

theorem IsBlock.pages_eq {k base r index : ℕ} {a : Allocation}
    (hblock : IsBlock k base a r index) :
    a.pages base = Block k (k - r) index := by
  ext page
  rw [mem_block_iff_range, Nat.sub_sub_self hblock.order_le,
    Allocation.pages, Set.mem_ofPred_eq, hblock.ptr, hblock.rounded]
  generalize index * 2 ^ r = first
  generalize 2 ^ r = size
  unfold archPageSize
  omega

theorem IsBlock.end_le {k base r index : ℕ} {a : Allocation}
    (hblock : IsBlock k base a r index) :
    a.ptr + a.rounded * archPageSize ≤ base + 2 ^ k * archPageSize := by
  have hlast : (index + 1) * 2 ^ r ≤ 2 ^ k := by
    calc (index + 1) * 2 ^ r ≤ 2 ^ (k - r) * 2 ^ r :=
          Nat.mul_le_mul_right _ hblock.index_lt
      _ = 2 ^ k := by rw [← pow_add, Nat.sub_add_cancel hblock.order_le]
  rw [hblock.ptr, hblock.rounded]
  rw [Nat.add_mul, Nat.one_mul] at hlast
  generalize index * 2 ^ r = first at *
  unfold archPageSize
  omega

theorem PoolRange.ptr_ne_zero {k base r index : ℕ} {a : Allocation}
    (hrange : PoolRange k base) (hblock : IsBlock k base a r index) :
    a.ptr ≠ 0 := by
  have hlow := hrange.low
  have hptr := hblock.ptr
  unfold archPageSize at hlow
  omega

/-! ## One allocation -/

section Pool

variable {k base : ℕ} {pool : PagePool} {free : Set ℕ}

/-- A pool whose bitmap marks the maximal free blocks of `free`. -/
structure Holds (k base : ℕ) (free : Set ℕ) (pool : PagePool) : Prop where
  pageCount : pool.pageCount = 2 ^ k
  baseAddr : pool.baseAddr = base
  fits : Fits k pool.bitmap
  canonical : Canonical k free (marks pool.bitmap)

/-- Allocation of a rounded size: it fails only when no block of a level up
to the wanted one is marked, and otherwise takes the first part of the block
found. -/
theorem allocBlock_spec (hrange : PoolRange k base)
    (hpool : Holds k base free pool) {r : ℕ} (hr : r ≤ k) :
    ((allocBlock pool (2 ^ r)).result = .ok ⟨pool, 0, 2 ^ r⟩ ∧
      ∀ level index, level ≤ k - r → index < 2 ^ level →
        marks pool.bitmap level index = false) ∨
    ∃ level index bitmap,
      IsFound pool.bitmap (k - r) level index ∧
      (allocBlock pool (2 ^ r)).result =
        .ok ⟨{ pool with bitmap := bitmap },
          base + index * 2 ^ (k - r - level) * 2 ^ r * archPageSize,
          2 ^ r⟩ ∧
      index * 2 ^ (k - r - level) < 2 ^ (k - r) ∧
      Block k (k - r) (index * 2 ^ (k - r - level)) ⊆ free ∧
      bitmap.wordCount = pool.bitmap.wordCount ∧
      Holds k base
        (free \ Block k (k - r) (index * 2 ^ (k - r - level)))
        { pool with bitmap := bitmap } := by
  have hk := hrange.levels_lt
  have hlevelEq := blockSizeToPagepoolLevel_eq hpool.pageCount hr
    (by omega : k ≤ 32)
  rcases findBlock_spec hpool.fits (by omega) (k - r) (by omega) with
    ⟨hresult, hnone⟩ | ⟨level, index, hresult, hfound⟩
  · left
    refine ⟨?_, hnone⟩
    simp only [allocBlock, Traced.result_bind, Traced.result_lift, hlevelEq,
      hresult, Traced.result_pure]
  · right
    have hle := hfound.level_le
    have hmax := (hpool.canonical level index (by omega)
      hfound.index_lt).mp hfound.marked
    obtain ⟨bitmap, hsplit, hcount, hheld⟩ :=
      splitBlocks_spec (k - r - level) pool.bitmap level index _
        (held_of_marked hpool.fits hpool.canonical (by omega)
          hfound.index_lt hfound.marked) (by omega)
    rw [show level + (k - r - level) = k - r by omega,
      Set.sdiff_union_of_subset hmax.1] at hheld
    have hcLt := hheld.index_lt
    have hinside : Block k (k - r) (index * 2 ^ (k - r - level)) ⊆ free := by
      apply Set.Subset.trans _ hmax.1
      obtain ⟨page, hpage⟩ :=
        block_nonempty k (k - r) (index * 2 ^ (k - r - level))
      apply block_subset_of_mem hle (by omega) hpage
      have hpage' : page ∈ Block k (level + (k - r - level))
          (index * 2 ^ (k - r - level)) := by
        rwa [show level + (k - r - level) = k - r by omega]
      rw [mem_ancestor_iff (by omega) hpage',
        Nat.mul_div_cancel _ (by positivity)]
    generalize hcEq : index * 2 ^ (k - r - level) = c at *
    refine ⟨level, index, bitmap.withBit (bitIndex (k - r) c) false, hfound,
      ?_, by rwa [hcEq], by rwa [hcEq], by simpa using hcount, ?_⟩
    · have haddr : wrap (pool.baseAddr +
          wrap (wrap (2 ^ r * c) * archPageSize)) =
          base + c * 2 ^ r * archPageSize := by
        have hend : c * 2 ^ r < 2 ^ k := by
          calc c * 2 ^ r < 2 ^ (k - r) * 2 ^ r :=
                Nat.mul_lt_mul_of_pos_right hcLt (by positivity)
            _ = 2 ^ k := by rw [← pow_add, Nat.sub_add_cancel hr]
        have hfits := hrange.fits
        rw [Nat.mul_comm (2 ^ r) c, hpool.baseAddr]
        generalize c * 2 ^ r = first at *
        unfold wrap archPageSize at *
        omega
      simp only [allocBlock, Traced.result_bind, Traced.result_lift,
        hlevelEq, hresult, hsplit, bitIndexForPagepoolBlock_of_lt hcLt,
        clearBit_result hheld.fits hheld.level_le hcLt, Traced.result_pure,
        haddr, hcEq]
    · rw [hcEq]
      exact ⟨hpool.pageCount, hpool.baseAddr,
        hheld.fits.withBit hheld.level_le hcLt false, hheld.canonical⟩

theorem allocFromPool_result {count : ℕ} (hcount : 1 ≤ count) :
    (allocFromPool pool count).result =
      if count ≤ 2 ^ 31 then
        if pool.pageCount < 2 ^ Nat.clog 2 count then
          .ok ⟨pool, 0, count⟩
        else (allocBlock pool (2 ^ Nat.clog 2 count)).result
      else .ok ⟨pool, 0, count⟩ := by
  have hassert : decide (count ≠ 0) = true := decide_eq_true (by omega)
  simp only [allocFromPool, hassert, cAssert_true, Traced.result_bind,
    Traced.result_lift, roundUp_eq]
  by_cases hle : count ≤ 2 ^ 31
  · simp only [hle, if_true]
    split <;> rfl
  · simp only [hle, if_false, Traced.result_pure]

/-- `alloc_from_pool`: the address zero and an unchanged pool, or a block out
of the free pages. -/
theorem allocFromPool_spec (hrange : PoolRange k base)
    (hpool : Holds k base free pool) {count : ℕ} (hcount : 1 ≤ count) :
    (∃ written, (allocFromPool pool count).result =
      .ok ⟨pool, 0, written⟩) ∨
    ∃ a r index bitmap,
      (allocFromPool pool count).result =
        .ok ⟨{ pool with bitmap := bitmap }, a.ptr, a.rounded⟩ ∧
      a.requested = count ∧ IsBlock k base a r index ∧
      Block k (k - r) index ⊆ free ∧
      bitmap.wordCount = pool.bitmap.wordCount ∧
      Holds k base (free \ Block k (k - r) index)
        { pool with bitmap := bitmap } := by
  rw [allocFromPool_result hcount]
  by_cases hle : count ≤ 2 ^ 31
  · rw [if_pos hle]
    by_cases hlarge : pool.pageCount < 2 ^ Nat.clog 2 count
    · exact Or.inl ⟨count, by rw [if_pos hlarge]⟩
    · rw [if_neg hlarge]
      have hr : Nat.clog 2 count ≤ k := by
        rw [hpool.pageCount] at hlarge
        exact (Nat.pow_le_pow_iff_right Nat.one_lt_two).mp (by omega)
      rcases allocBlock_spec hrange hpool hr with
        ⟨hresult, _⟩ | ⟨level, index, bitmap, _, hresult, hlt, hfree, hwords,
          hholds⟩
      · exact Or.inl ⟨_, hresult⟩
      · right
        exact ⟨⟨_, count, _⟩, _, _, bitmap, hresult, rfl,
          ⟨hr, hlt, rfl, rfl, rfl⟩, hfree, hwords, hholds⟩
  · exact Or.inl ⟨count, by rw [if_neg hle]⟩

/-- The comparison of ends in `free_from_pool` lets the block pass. -/
def EndsInside (k base ptr count : ℕ) : Prop :=
  wrap (ptr + wrap (archPageSize * count)) ≤
    wrap (base + wrap (archPageSize * 2 ^ k))

theorem PoolPlace.endsInside (hplace : PoolPlace k base) {a : Allocation}
    {r index count : ℕ} (hblock : IsBlock k base a r index)
    (hcount : count ≤ a.rounded) : EndsInside k base a.ptr count := by
  have hend := hblock.end_le
  have hfits := hplace.fits
  unfold EndsInside wrap archPageSize at *
  omega

theorem IsBlock.count_le {a : Allocation} {r index count : ℕ}
    (hblock : IsBlock k base a r index)
    (hcount : count = a.requested ∨ count = a.rounded) :
    count ≤ a.rounded := by
  rcases hcount with rfl | rfl
  · rw [hblock.rounded, ← hblock.requested]
    exact Nat.le_pow_clog (by omega) _
  · exact le_rfl

/-- `free_from_pool` gives a taken block back. -/
theorem freeFromPool_spec (hrange : PoolRange k base)
    (hpool : Holds k base free pool) {a : Allocation} {r index count : ℕ}
    (hblock : IsBlock k base a r index)
    (hcount : count = a.requested ∨ count = a.rounded)
    (hends : EndsInside k base a.ptr count)
    (htaken : Disjoint (Block k (k - r) index) free) :
    ∃ bitmap, (freeFromPool pool a.ptr count).result =
        .ok { pool with bitmap := bitmap } ∧
      bitmap.wordCount = pool.bitmap.wordCount ∧
      Holds k base (free ∪ Block k (k - r) index)
        { pool with bitmap := bitmap } := by
  have hk := hrange.levels_lt
  have hclog : Nat.clog 2 count = r := by
    rcases hcount with rfl | rfl
    · exact hblock.requested
    · rw [hblock.rounded, Nat.clog_pow 2 r (by omega)]
  have hcountLe := hblock.count_le hcount
  have hrPow : 2 ^ r ≤ 2 ^ k :=
    Nat.pow_le_pow_right (by omega) hblock.order_le
  have hkPow := hrange.pages_lt
  have hbytes : wrap (2 ^ r * archPageSize) = 2 ^ r * archPageSize := by
    apply wrap_of_lt
    unfold archPageSize
    omega
  have hbytesPos : 0 < 2 ^ r * archPageSize := by
    unfold archPageSize
    positivity
  have hoffset : a.ptr - pool.baseAddr =
      index * (2 ^ r * archPageSize) := by
    rw [hblock.ptr, hpool.baseAddr, Nat.add_sub_cancel_left, Nat.mul_assoc]
  have hlow : base ≤ a.ptr := by
    rw [hblock.ptr]
    omega
  have hptr : a.ptr ≠ 0 := hrange.ptr_ne_zero hblock
  have hinside : ¬(a.ptr < pool.baseAddr ∨
      wrap (pool.baseAddr + wrap (archPageSize * pool.pageCount)) <
        wrap (a.ptr + wrap (archPageSize * count))) := by
    rw [hpool.baseAddr, hpool.pageCount, not_or, not_lt, not_lt]
    exact ⟨hlow, hends⟩
  have hlevelEq := blockSizeToPagepoolLevel_eq hpool.pageCount
    hblock.order_le (by omega : k ≤ 32)
  have hsmall : count ≤ 2 ^ 31 := by
    rw [hblock.rounded] at hcountLe
    omega
  have hnotLarge : ¬pool.pageCount < 2 ^ r := by
    rw [hpool.pageCount]
    omega
  obtain ⟨bitmap, hmerge, hwords, hfits', hcanon'⟩ :=
    mergeBlocks_spec (k - r) index pool.bitmap free hpool.fits
      hpool.canonical (by omega) hblock.index_lt htaken
  refine ⟨bitmap, ?_, hwords, hpool.pageCount, hpool.baseAddr, hfits',
    hcanon'⟩
  simp only [freeFromPool, if_neg hptr, if_neg hinside, Traced.result_bind,
    Traced.result_lift, roundUp_eq, if_pos hsmall, hclog, if_neg hnotLarge,
    freeBlock, hbytes, if_neg hbytesPos.ne', hlevelEq, hoffset,
    Nat.mul_mod_left, decide_true, cAssert_true,
    Nat.mul_div_cancel _ hbytesPos, hmerge, Traced.result_pure]

end Pool

/-! ## Runs -/

/-- The pool is canonical for the pages its live allocations leave free, and
the live allocations are disjoint blocks. -/
structure PoolInv (k base words : ℕ) (s : PoolState) : Prop where
  holds : Holds k base (s.freePages k) s.pool
  wordCount : s.pool.bitmap.wordCount = words
  blocks : ∀ a ∈ s.live, ∃ r index, IsBlock k base a r index
  disjoint : s.live.Pairwise fun a b =>
    Disjoint (a.pages base) (b.pages base)

section Run

variable {k base words : ℕ} {s : PoolState}

theorem PoolInv.mem_freePages (hinv : PoolInv k base words s) {page : ℕ} :
    page ∈ s.freePages k ↔
      page < 2 ^ k ∧ ∀ a ∈ s.live, page ∉ a.pages base := by
  rw [PoolState.freePages, hinv.holds.baseAddr]
  rfl

theorem block_subset_pool {level index : ℕ} (hlevel : level ≤ k)
    (hindex : index < 2 ^ level) :
    Block k level index ⊆ {page | page < 2 ^ k} :=
  fun _ hpage => lt_of_mem_block hindex hlevel hpage

theorem zeroed_bitCount_pos (hroom : 2 ^ (k + 1) - 1 ≤ words * 32) :
    0 < (Bitmap.zeroed words).bitCount := by
  have hpow : 2 ^ 1 ≤ 2 ^ (k + 1) := Nat.pow_le_pow_right (by omega) (by omega)
  rw [Bitmap.zeroed_bitCount]
  omega

theorem bitmapSetBit_zeroed (hroom : 2 ^ (k + 1) - 1 ≤ words * 32) :
    (Bitmap.zeroed words).bitmapSetBit 0 =
      .ok ((Bitmap.zeroed words).withBit 0 true) :=
  Bitmap.bitmapSetBit_of_lt (zeroed_bitCount_pos hroom)

theorem canonical_fresh (hroom : 2 ^ (k + 1) - 1 ≤ words * 32) :
    Fits k ((Bitmap.zeroed words).withBit 0 true) ∧
      Canonical k {page | page < 2 ^ k}
        (marks ((Bitmap.zeroed words).withBit 0 true)) := by
  have hzero := zeroed_bitCount_pos hroom
  refine ⟨⟨by simpa using hroom, ?_⟩, ?_⟩
  · intro i hi
    have hpow : 2 ^ 1 ≤ 2 ^ (k + 1) :=
      Nat.pow_le_pow_right (by omega) (by omega)
    rw [Bitmap.bit_withBit hzero, if_neg (by omega), Bitmap.zeroed_bit]
  · intro level index hlevel hindex
    have hsubset := block_subset_pool hlevel hindex
    have hbit : bitIndex level index = 0 ↔ level = 0 := by
      unfold bitIndex
      constructor
      · intro h
        by_contra hne
        have : 2 ^ 1 ≤ 2 ^ level :=
          Nat.pow_le_pow_right (by omega) (by omega)
        omega
      · rintro rfl
        simpa using hindex
    rw [marks, Bitmap.bit_withBit hzero, Bitmap.zeroed_bit]
    simp only [hbit, Buddy.Maximal]
    constructor
    · intro h
      by_cases hlevel0 : level = 0
      · exact ⟨hsubset, Or.inl hlevel0⟩
      · simp [hlevel0] at h
    · rintro ⟨_, hroot | hparent⟩
      · simp [hroot]
      · by_cases hlevel0 : level = 0
        · simp [hlevel0]
        · exfalso
          apply hparent
          obtain ⟨level, rfl⟩ := Nat.exists_eq_add_one_of_ne_zero hlevel0
          apply block_subset_pool (by omega : level + 1 - 1 ≤ k)
          rw [pow_succ] at hindex
          simp only [Nat.add_sub_cancel]
          omega

theorem fresh_bitmap (hroom : 2 ^ (k + 1) - 1 ≤ words * 32)
    (hfresh : PoolState.Fresh k base words s) :
    s.pool.bitmap = (Bitmap.zeroed words).withBit 0 true := by
  have h := hfresh.bitmap
  rw [bitmapSetBit_zeroed hroom, Except.ok.injEq] at h
  exact h.symm

theorem poolInv_fresh (hroom : 2 ^ (k + 1) - 1 ≤ words * 32)
    (hfresh : PoolState.Fresh k base words s) : PoolInv k base words s := by
  have hbitmap := fresh_bitmap hroom hfresh
  obtain ⟨hfits, hcanon⟩ := canonical_fresh hroom
  have hfree : s.freePages k = {page | page < 2 ^ k} := by
    simp [PoolState.freePages, hfresh.live]
  refine ⟨⟨hfresh.pageCount, hfresh.baseAddr, ?_, ?_⟩, ?_, ?_, ?_⟩
  · rwa [hbitmap]
  · rwa [hbitmap, hfree]
  · simp [hbitmap]
  · simp [hfresh.live]
  · simp [hfresh.live]

theorem freePages_cons {a : Allocation} {r index : ℕ} {pool : PagePool}
    (hblock : IsBlock k base a r index) (hbase : s.pool.baseAddr = base)
    (hpool : pool.baseAddr = base) :
    PoolState.freePages k ⟨pool, a :: s.live⟩ =
      s.freePages k \ Block k (k - r) index := by
  ext page
  rw [← hblock.pages_eq]
  simp only [PoolState.freePages, List.forall_mem_cons, Set.mem_sdiff,
    Set.mem_ofPred_eq, hbase, hpool]
  tauto

/-- An admitted allocation returns, and keeps the invariant whether or not it
finds a block. -/
theorem PoolInv.alloc (hrange : PoolRange k base)
    (hinv : PoolInv k base words s) {count : ℕ} (hcount : 1 ≤ count) :
    ∃ s', s.step (.alloc count) = .ok s' ∧ PoolInv k base words s' ∧
      (s' = s ∨ ∃ a, a.requested = count ∧ s'.live = a :: s.live) := by
  rcases allocFromPool_spec hrange hinv.holds hcount with
    ⟨written, hresult⟩ | ⟨a, r, index, bitmap, hresult, hreq, hblock, hfree,
      hwords, hholds⟩
  · refine ⟨s, ?_, hinv, Or.inl rfl⟩
    simp [PoolState.step, hresult]
  · have hne : a.ptr ≠ 0 := hrange.ptr_ne_zero hblock
    have hpages := hblock.pages_eq
    have ha : (⟨a.ptr, count, a.rounded⟩ : Allocation) = a := by
      rw [← hreq]
    refine ⟨⟨{ s.pool with bitmap := bitmap }, a :: s.live⟩, ?_, ?_,
      Or.inr ⟨a, hreq, rfl⟩⟩
    · simp [PoolState.step, hresult, hne, ha]
    · have hfreeEq := freePages_cons hblock hinv.holds.baseAddr
        hholds.baseAddr
      refine ⟨by rw [hfreeEq]; exact hholds, by simpa [hinv.wordCount]
        using hwords, ?_, ?_⟩
      · intro b hb
        rcases List.mem_cons.mp hb with rfl | hb
        · exact ⟨r, index, hblock⟩
        · exact hinv.blocks b hb
      · refine List.pairwise_cons.mpr ⟨?_, hinv.disjoint⟩
        intro b hb
        rw [hpages, Set.disjoint_left]
        intro page hpage
        exact (hinv.mem_freePages.mp (hfree hpage)).2 b hb

theorem PoolInv.free_of_endsInside (hrange : PoolRange k base)
    (hinv : PoolInv k base words s) {a : Allocation} {count : ℕ}
    (ha : a ∈ s.live) (hcount : count = a.requested ∨ count = a.rounded)
    (hends : EndsInside k base a.ptr count) :
    ∃ s', s.step (.free a count) = .ok s' ∧ PoolInv k base words s' ∧
      s'.live = s.live.erase a := by
  obtain ⟨r, index, hblock⟩ := hinv.blocks a ha
  have hpages := hblock.pages_eq
  have hperm := List.perm_cons_erase ha
  have hpair : (a :: s.live.erase a).Pairwise fun a b =>
      Disjoint (a.pages base) (b.pages base) :=
    (hperm.pairwise_iff fun h => Disjoint.symm h).mp hinv.disjoint
  rw [List.pairwise_cons] at hpair
  have htaken : Disjoint (Block k (k - r) index) (s.freePages k) := by
    rw [← hpages, Set.disjoint_left]
    intro page hpage hfree
    exact (hinv.mem_freePages.mp hfree).2 a ha hpage
  obtain ⟨bitmap, hresult, hwords, hholds⟩ :=
    freeFromPool_spec hrange hinv.holds hblock hcount hends htaken
  refine ⟨⟨{ s.pool with bitmap := bitmap }, s.live.erase a⟩, ?_, ?_, rfl⟩
  · simp [PoolState.step, hresult]
  · have hfreeEq : PoolState.freePages k
        ⟨{ s.pool with bitmap := bitmap }, s.live.erase a⟩ =
        s.freePages k ∪ Block k (k - r) index := by
      ext page
      rw [Set.mem_union, hinv.mem_freePages, ← hpages]
      simp only [PoolState.freePages, Set.mem_ofPred_eq,
        hinv.holds.baseAddr]
      constructor
      · rintro ⟨hlt, hothers⟩
        by_cases hpage : page ∈ a.pages base
        · exact Or.inr hpage
        · left
          refine ⟨hlt, ?_⟩
          intro b hb
          rcases List.mem_cons.mp (hperm.mem_iff.mp hb) with rfl | hb
          · exact hpage
          · exact hothers b hb
      · rintro (⟨hlt, hothers⟩ | hpage)
        · exact ⟨hlt, fun b hb => hothers b (List.mem_of_mem_erase hb)⟩
        · refine ⟨?_, fun b hb =>
            Set.disjoint_left.mp (hpair.1 b hb) hpage⟩
          rw [hpages] at hpage
          exact lt_of_mem_block hblock.index_lt (by omega) hpage
    exact ⟨by rw [hfreeEq]; exact hholds,
      by simpa [hinv.wordCount] using hwords,
      fun b hb => hinv.blocks b (List.mem_of_mem_erase hb), hpair.2⟩

theorem PoolInv.free (hplace : PoolPlace k base)
    (hinv : PoolInv k base words s) {a : Allocation} {count : ℕ}
    (ha : a ∈ s.live) (hcount : count = a.requested ∨ count = a.rounded) :
    ∃ s', s.step (.free a count) = .ok s' ∧ PoolInv k base words s' ∧
      s'.live = s.live.erase a := by
  obtain ⟨r, index, hblock⟩ := hinv.blocks a ha
  exact hinv.free_of_endsInside hplace.range ha hcount
    (hplace.endsInside hblock (hblock.count_le hcount))

theorem PoolInv.progress (hplace : PoolPlace k base)
    (hinv : PoolInv k base words s) {op : PoolOp} (hop : s.Admits op) :
    ∃ s', s.step op = .ok s' ∧ PoolInv k base words s' := by
  cases op with
  | alloc count =>
      obtain ⟨s', hstep, hinv', _⟩ := hinv.alloc hplace.range hop
      exact ⟨s', hstep, hinv'⟩
  | free a count =>
      obtain ⟨s', hstep, hinv', _⟩ := hinv.free hplace hop.1 hop.2
      exact ⟨s', hstep, hinv'⟩

theorem endsInside_of_freed {pool pool' : PagePool} {ptr count : ℕ}
    (hbase : pool.baseAddr = base) (hpages : pool.pageCount = 2 ^ k)
    (hptr : ptr ≠ 0)
    (hfreed : (freeFromPool pool ptr count).result = .ok pool') :
    EndsInside k base ptr count := by
  unfold EndsInside
  by_contra hends
  rw [freeFromPool, if_neg hptr, hbase, hpages,
    if_pos (Or.inr (not_le.mp hends))] at hfreed
  contradiction

theorem PoolInv.step (hrange : PoolRange k base)
    (hinv : PoolInv k base words s) {op : PoolOp} (hop : s.Admits op)
    {s' : PoolState} (hstep : s.step op = .ok s') :
    PoolInv k base words s' := by
  cases op with
  | alloc count =>
      obtain ⟨next, hnext, hinv', _⟩ := hinv.alloc hrange hop
      rw [hnext, Except.ok.injEq] at hstep
      exact hstep ▸ hinv'
  | free a count =>
      obtain ⟨pool, hfreed, _⟩ := bind_eq_ok hstep
      obtain ⟨r, index, hblock⟩ := hinv.blocks a hop.1
      have hends := endsInside_of_freed hinv.holds.baseAddr
        hinv.holds.pageCount (hrange.ptr_ne_zero hblock) hfreed
      obtain ⟨next, hnext, hinv', _⟩ :=
        hinv.free_of_endsInside hrange hop.1 hop.2 hends
      rw [hnext, Except.ok.injEq] at hstep
      exact hstep ▸ hinv'

theorem poolInv_reachable (hrange : PoolRange k base)
    (hroom : 2 ^ (k + 1) - 1 ≤ words * 32)
    (hreach : TransitionRun.Reachable (PoolState.Fresh k base words)
      PoolState.Admits PoolState.step s) : PoolInv k base words s :=
  hreach.invariant (fun _ hfresh => poolInv_fresh hroom hfresh)
    fun _ _ _ hinv hop hstep => hinv.step hrange hop hstep

theorem PoolInv.pool_eq {t : PoolState} (hs : PoolInv k base words s)
    (ht : PoolInv k base words t) (hlive : s.live = t.live) :
    s.pool = t.pool := by
  have hfree : s.freePages k = t.freePages k := by
    simp [PoolState.freePages, hlive, hs.holds.baseAddr, ht.holds.baseAddr]
  have hcanon := ht.holds.canonical
  rw [← hfree] at hcanon
  have hbitmap : s.pool.bitmap = t.pool.bitmap :=
    hs.holds.fits.ext ht.holds.fits (hs.wordCount.trans ht.wordCount.symm)
      fun _ _ hlevel hindex =>
        hs.holds.canonical.unique hcanon hlevel hindex
  have hbase : s.pool.baseAddr = t.pool.baseAddr :=
    hs.holds.baseAddr.trans ht.holds.baseAddr.symm
  have hcount : s.pool.pageCount = t.pool.pageCount :=
    hs.holds.pageCount.trans ht.holds.pageCount.symm
  rcases s with ⟨⟨_, _, _⟩, _⟩
  rcases t with ⟨⟨_, _, _⟩, _⟩
  simp_all

theorem PoolInv.free_all (hplace : PoolPlace k base)
    (hinv : PoolInv k base words s) (order : List (Allocation × ℕ))
    (hperm : (order.map Prod.fst).Perm s.live)
    (hcounts : ∀ p ∈ order, p.2 = p.1.requested ∨ p.2 = p.1.rounded) :
    ∃ s', TransitionRun.run PoolState.step s
        (order.map fun p => .free p.1 p.2) = .ok s' ∧
      PoolInv k base words s' ∧ s'.live = [] := by
  induction order generalizing s with
  | nil => exact ⟨s, rfl, hinv, List.perm_nil.mp hperm.symm⟩
  | cons p rest ih =>
      have hmem : p.1 ∈ s.live := hperm.mem_iff.mp (by simp)
      obtain ⟨next, hstep, hnext, hlive⟩ :=
        hinv.free hplace hmem (hcounts p (by simp))
      have hperm' : (rest.map Prod.fst).Perm next.live := by
        rw [hlive]
        exact (List.perm_cons p.1).mp
          (hperm.trans (List.perm_cons_erase hmem))
      obtain ⟨s', hrun, hdone⟩ :=
        ih hnext hperm' fun q hq => hcounts q (List.mem_cons_of_mem _ hq)
      exact ⟨s', by simp [TransitionRun.run, hstep, hrun], hdone⟩

/-- The block of pages covered by a bit is entirely free. -/
def PoolState.BlockFree (k : ℕ) (s : PoolState) (level index : ℕ) : Prop :=
  ∀ page ∈ Block k level index, page ∈ s.freePages k

/-- What the users of a pool of `2 ^ k` pages can rely on. -/
structure PoolState.Consistent (k base : ℕ) (s : PoolState) : Prop where
  /-- A block's bit is set iff the block is free and its parent is not. -/
  bit_iff : ∀ level index bit, level ≤ k →
    (bitIndexForPagepoolBlock level index).result = .ok bit →
    (s.pool.bitmap.bit bit = true ↔
      s.BlockFree k level index ∧
        (level = 0 ∨ ¬s.BlockFree k (level - 1) (index / 2)))
  disjoint : s.live.Pairwise fun a b =>
    Disjoint (a.pages base) (b.pages base)
  inside : ∀ a ∈ s.live, base ≤ a.ptr ∧
    a.ptr + a.rounded * archPageSize ≤ base + 2 ^ k * archPageSize
  aligned : ∀ a ∈ s.live, (∃ r, a.rounded = 2 ^ r) ∧
    a.requested ≤ a.rounded ∧
    a.rounded * archPageSize ∣ a.ptr - base

theorem PoolInv.consistent (hinv : PoolInv k base words s) :
    s.Consistent k base := by
  refine ⟨?_, hinv.disjoint, ?_, ?_⟩
  · intro level index bit hlevel hbit
    rw [bitIndexForPagepoolBlock_result] at hbit
    split at hbit
    next hindex =>
      rw [Except.ok.injEq] at hbit
      exact hbit ▸ hinv.holds.canonical level index hlevel hindex
    next => contradiction
  · intro a ha
    obtain ⟨r, index, hblock⟩ := hinv.blocks a ha
    refine ⟨?_, hblock.end_le⟩
    rw [hblock.ptr]
    omega
  · intro a ha
    obtain ⟨r, index, hblock⟩ := hinv.blocks a ha
    refine ⟨⟨r, hblock.rounded⟩, ?_, ?_⟩
    · rw [hblock.rounded, ← hblock.requested]
      exact Nat.le_pow_clog (by omega) _
    · rw [hblock.ptr, hblock.rounded, Nat.add_sub_cancel_left, Nat.mul_assoc]
      exact Nat.dvd_mul_left _ _

/-- Every state of a pool reached by allocations and by frees of live
allocations is consistent; no admitted call faults; an allocation followed by
its free restores the pool; and freeing all live allocations, in any order,
gives the fresh pool. -/
theorem pool_canonical_of_reachable {k base words : ℕ} {s : PoolState}
    (hplace : PoolPlace k base) (hroom : 2 * 2 ^ k - 1 ≤ words * 32)
    (hreach : TransitionRun.Reachable (PoolState.Fresh k base words)
      PoolState.Admits PoolState.step s) :
    s.Consistent k base ∧
    (∀ op, s.Admits op → ∃ s', s.step op = .ok s') ∧
    (∀ count s₁, s.Admits (.alloc count) →
      s.step (.alloc count) = .ok s₁ →
      s₁ = s ∨ ∃ a, s₁.live = a :: s.live ∧
        ∀ count', s₁.Admits (.free a count') →
          ∃ s₂, s₁.step (.free a count') = .ok s₂ ∧ s₂ = s) ∧
    (∀ order : List (Allocation × ℕ),
      (order.map Prod.fst).Perm s.live →
      (∀ p ∈ order, p.2 = p.1.requested ∨ p.2 = p.1.rounded) →
      ∃ s', TransitionRun.run PoolState.step s
          (order.map fun p => .free p.1 p.2) = .ok s' ∧
        PoolState.Fresh k base words s') := by
  have hroom' : 2 ^ (k + 1) - 1 ≤ words * 32 := by
    rw [pow_succ]
    omega
  have hinv := poolInv_reachable hplace.range hroom' hreach
  refine ⟨hinv.consistent, ?_, ?_, ?_⟩
  · intro op hop
    obtain ⟨s', hstep, _⟩ := hinv.progress hplace hop
    exact ⟨s', hstep⟩
  · intro count s₁ hcount hstep
    obtain ⟨s', hstep', hinv₁, hcases⟩ := hinv.alloc hplace.range hcount
    rw [hstep, Except.ok.injEq] at hstep'
    subst hstep'
    rcases hcases with hsame | ⟨a, _, hlive⟩
    · exact Or.inl hsame
    · right
      refine ⟨a, hlive, ?_⟩
      intro count' hfree
      obtain ⟨s₂, hstep₂, hinv₂, hlive₂⟩ :=
        hinv₁.free hplace hfree.1 hfree.2
      have hlive₂' : s₂.live = s.live := by
        rw [hlive₂, hlive, List.erase_cons_head]
      refine ⟨s₂, hstep₂, ?_⟩
      have hpool := hinv₂.pool_eq hinv hlive₂'
      rcases s₂ with ⟨_, _⟩
      rcases s with ⟨_, _⟩
      simp_all
  · intro order hperm hcounts
    obtain ⟨s', hrun, hinv', hlive⟩ :=
      hinv.free_all hplace order hperm hcounts
    refine ⟨s', hrun, hinv'.holds.pageCount, hinv'.holds.baseAddr, ?_, hlive⟩
    -- the fresh pool also has no live allocation, so the bitmaps agree
    have hset := bitmapSetBit_zeroed hroom'
    let fresh : PoolState :=
      ⟨⟨(Bitmap.zeroed words).withBit 0 true, base, 2 ^ k⟩, []⟩
    have hfresh : PoolState.Fresh k base words fresh :=
      ⟨rfl, rfl, hset, rfl⟩
    have hpool := hinv'.pool_eq (poolInv_fresh hroom' hfresh) hlive
    rw [hpool]
    exact hset

/-- Eight pages, of which the first has been allocated and freed again while
the second is allocated. -/
def usedPool : PoolState := ⟨⟨⟨[0x94]⟩, 4096, 8⟩, [⟨8192, 1, 1⟩]⟩

theorem usedPool_reachable :
    TransitionRun.Reachable (PoolState.Fresh 3 4096 1) PoolState.Admits
      PoolState.step usedPool := by
  have hfresh : PoolState.Fresh 3 4096 1 ⟨⟨⟨[1]⟩, 4096, 8⟩, []⟩ :=
    ⟨rfl, rfl, by decide, rfl⟩
  have hfirst : PoolState.step ⟨⟨⟨[1]⟩, 4096, 8⟩, []⟩ (.alloc 1) =
      .ok ⟨⟨⟨[0x114]⟩, 4096, 8⟩, [⟨4096, 1, 1⟩]⟩ := by
    decide +kernel
  have hsecond : PoolState.step ⟨⟨⟨[0x114]⟩, 4096, 8⟩, [⟨4096, 1, 1⟩]⟩
      (.alloc 1) =
        .ok ⟨⟨⟨[0x14]⟩, 4096, 8⟩, [⟨8192, 1, 1⟩, ⟨4096, 1, 1⟩]⟩ := by
    decide +kernel
  have hfree : PoolState.step
      ⟨⟨⟨[0x14]⟩, 4096, 8⟩, [⟨8192, 1, 1⟩, ⟨4096, 1, 1⟩]⟩
      (.free ⟨4096, 1, 1⟩ 1) = .ok usedPool := by
    decide +kernel
  have hone : ∀ s : PoolState, s.Admits (.alloc 1) := fun _ => le_rfl
  refine (((TransitionRun.Reachable.start hfresh).next (hone _) hfirst).next
    (hone _) hsecond).next ?_ hfree
  exact ⟨by decide, Or.inl rfl⟩

/-- The theorem at this pool, which is fresh again behind the last free. -/
theorem pool_canonical_of_usedPool :
    usedPool.Consistent 3 4096 ∧
      ∃ s', TransitionRun.run PoolState.step usedPool
          [.free ⟨8192, 1, 1⟩ 1] = .ok s' ∧
        PoolState.Fresh 3 4096 1 s' := by
  obtain ⟨hconsistent, -, -, hfreed⟩ := pool_canonical_of_reachable
    ⟨by decide, by decide, by decide⟩ (by decide) usedPool_reachable
  refine ⟨hconsistent, hfreed [(⟨8192, 1, 1⟩, 1)] (List.Perm.refl _) ?_⟩
  intro p hp
  obtain rfl := List.mem_singleton.mp hp
  exact Or.inl rfl

end Run

end Pmm
end Yjkos
