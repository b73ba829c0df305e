import Yjkos.HeapBlocks

/-!
# The search for free blocks

`heap_alloc` compares the blocks of a request with the free blocks of all
pools and then asks one pool after the other.  A search which fails changes
nothing, and a search which succeeds takes its blocks from one pool.  The
total of a request may wrap; then the search goes by the wrapped total.
-/

namespace Yjkos
namespace Heap

/-- The blocks which a request asks for. -/
def requestBlocks (size : ℕ) : ℕ :=
  sizeToBlocks (actualAllocSize size) blockSize

/-- `heap_alloc` and `alloc_from_pool` go on with a request of this size. -/
def LetThrough (size : ℕ) : Prop :=
  ¬(size = 0 ∨ sizeMax - allocHeaderSize < size)

/-- A free block from which on `n` blocks are free. -/
def PoolHeader.HasRun (pool : PoolHeader) (n : ℕ) : Prop :=
  ∃ i, pool.blockbitmap.bit i = true ∧ pool.blockbitmap.AllSet i n

/-- Some pool has a run of `n` free blocks. -/
def State.HasRun (s : State) (n : ℕ) : Prop :=
  ∃ p ∈ s.poolList, ∃ pool, s.pools p = some pool ∧ pool.HasRun n

/-- The search for room goes through: fewer blocks are asked for than are
free, and some pool has them in a row. -/
def State.Finds (s : State) (size : ℕ) : Prop :=
  requestBlocks size < s.freeBlockCount ∧ s.HasRun (requestBlocks size)

section Search

variable {s : State} {p i n size : ℕ} {pool : PoolHeader}

theorem requestBlocks_eq (hsize : size + 40 < 4294967296) :
    requestBlocks size = sizeToBlocks (size + 40) 64 := by
  have htotal : actualAllocSize size = size + 40 := wrap_of_lt hsize
  rw [requestBlocks, htotal, blockSize]

/-! ## One pool -/

/-- The blocks `i` to `i + n - 1` of a listed pool are free. -/
structure Spot (s : State) (p : ℕ) (pool : PoolHeader) (i n : ℕ) :
    Prop where
  listed : p ∈ s.poolList
  pool_eq : s.pools p = some pool
  first : pool.blockbitmap.bit i = true
  isFree : pool.blockbitmap.AllSet i n

theorem PoolOk.lt_of_bit (hok : PoolOk s p pool)
    (hbit : pool.blockbitmap.bit i = true) : i < pool.blockCount := by
  by_contra hbeyond
  rw [hok.beyond i (by omega)] at hbit
  contradiction

theorem PoolOk.bitmapFindSetBits_cases (hok : PoolOk s p pool) (n : ℕ) :
    (¬pool.HasRun n ∧ pool.blockbitmap.bitmapFindSetBits 0 n = .ok (-1)) ∨
    ∃ i : ℕ, pool.blockbitmap.bit i = true ∧
      pool.blockbitmap.AllSet i n ∧
      pool.blockbitmap.bitmapFindSetBits 0 n = .ok i := by
  have hfits := hok.fits
  have hinside := hok.inside
  rcases Nat.eq_zero_or_pos n with rfl | hpos
  · -- a search for nothing ends at the first free block
    rcases pool.blockbitmap.bitmapFindFirstSetBit_spec 0 with
      ⟨hnone, hclear⟩ | ⟨i, hi, hfirst⟩
    · refine Or.inl ⟨?_, ?_⟩
      · rintro ⟨i, hbit, -⟩
        rw [hclear i (Nat.zero_le i)] at hbit
        contradiction
      · simp [Bitmap.bitmapFindSetBits, Bitmap.findSetBitsLoop] at hnone ⊢
        simp [hnone]
    · refine Or.inr ⟨i, hfirst.set, fun j hj hlt => by omega, ?_⟩
      simp [Bitmap.bitmapFindSetBits, Bitmap.findSetBitsLoop] at hi ⊢
      simp [hi]
  · obtain ⟨result, hfind, hresult⟩ :=
      Bitmap.bitmapFindSetBits_spec pool.blockbitmap 0 hpos fun j hj => by
        have hlt := hok.lt_of_bit hj
        omega
    rcases hresult with ⟨rfl, hnone⟩ | ⟨i, rfl, -, hset, -⟩
    · refine Or.inl ⟨?_, hfind⟩
      rintro ⟨j, -, hset⟩
      exact hnone j (Nat.zero_le j) hset
    · exact Or.inr ⟨i, hset i le_rfl (by omega), hset, hfind⟩

/-- A pool without a run returns null and stays as it is. -/
theorem allocFromPool_none (hok : PoolOk s p pool)
    (hnone : ¬pool.HasRun (requestBlocks size)) :
    allocFromPool s p size = .ok (none, s) := by
  rw [allocFromPool]
  split
  next => rfl
  next =>
    rcases hok.bitmapFindSetBits_cases (requestBlocks size) with
      ⟨-, hfind⟩ | ⟨i, hbit, hset, -⟩
    · unfold requestBlocks at hfind
      simp only [State.getPool, hok.pool_eq, ok_bind, hfind]
      rfl
    · exact absurd ⟨i, hbit, hset⟩ hnone

theorem allocFromPool_found (hok : PoolOk s p pool) (hp : p ∈ s.poolList)
    (hthrough : LetThrough size)
    (hrun : pool.HasRun (requestBlocks size)) :
    ∃ i, Spot s p pool i (requestBlocks size) ∧
      allocFromPool s p size =
        takeBlocks s p pool i (requestBlocks size) size := by
  rcases hok.bitmapFindSetBits_cases (requestBlocks size) with
    ⟨hnone, -⟩ | ⟨i, hbit, hset, hfind⟩
  · exact absurd hrun hnone
  · refine ⟨i, ⟨hp, hok.pool_eq, hbit, hset⟩, ?_⟩
    unfold requestBlocks at hfind ⊢
    rw [allocFromPool, if_neg hthrough]
    simp only [State.getPool, hok.pool_eq, ok_bind, hfind]
    rw [if_neg (by omega), Int.toNat_natCast]

/-! ## Taking the blocks found -/

theorem Spot.takeable (h : Spot s p pool i (requestBlocks size))
    (hpos : size ≠ 0) (hsize : size + 40 < 4294967296) :
    Takeable s p pool i (requestBlocks size) size :=
  ⟨h.listed, h.pool_eq, h.isFree, by omega, requestBlocks_eq hsize⟩

theorem Spot.room (h : Spot s p pool i n) :
    i + n ≤ pool.blockbitmap.bitCount := by
  have hfirst := Bitmap.lt_bitCount_of_bit h.first
  rcases Nat.eq_zero_or_pos n with rfl | hpos
  · omega
  · have hlast := Bitmap.lt_bitCount_of_bit
      (h.isFree (i + n - 1) (by omega) (by omega))
    omega

theorem initAlloc_wildPointer {alloc : ℕ} (hfree : n ≤ s.freeBlockCount)
    (hspace : 4294967296 < alloc + 32 + size + 8) :
    initAlloc s p alloc n size = .error .wildPointer := by
  rw [initAlloc, cAssert_of (decide_eq_true hfree), ok_bind]
  exact if_pos hspace

/-- The blocks of a wrapped total are marked, but the fill leaves the address
space. -/
theorem Spot.takeBlocks_wraps (h : Spot s p pool i n) (hok : PoolOk s p pool)
    (hfree : n ≤ s.freeBlockCount) (hwraps : 4294967296 ≤ size + 40) :
    takeBlocks s p pool i n size = .error .wildPointer := by
  have hlt := hok.lt_of_bit h.first
  have hfits := hok.fits
  have hinside := hok.inside
  have habove := hok.above
  have hoff : wrap (i * blockSize) = i * 64 :=
    wrap_of_lt (by simp only [blockSize]; omega)
  have haligned : isAligned (i * 64) maxAlign = true := by
    rw [isAligned_iff]
    exact Dvd.dvd.mul_left (by decide) i
  have haddress : wrap (pool.blockpool + i * 64) = pool.blockpool + i * 64 :=
    wrap_of_lt (by omega)
  have hne : pool.blockpool + i * 64 ≠ 0 := by omega
  have hclear : ∀ k, i ≤ k → k < i + n →
      (pool.blockbitmap.bitmapClearBits i n).bit k = false := by
    intro k hlow hhigh
    have hroom := h.room
    rw [Bitmap.bit_bitmapClearBits _ (by omega)]
    exact if_pos ⟨hlow, hhigh, by omega⟩
  rw [takeBlocks, Takeable.assertBits_eq h.room h.isFree, ok_bind]
  dsimp only
  rw [Takeable.assertBits_eq (by simpa using h.room) hclear, ok_bind, hoff,
    cAssert_of haligned, ok_bind, haddress, if_neg hne]
  exact initAlloc_wildPointer hfree (by omega)

end Search

/-! ## All pools -/

section AllPools

variable {s : State} {size : ℕ} {list : List ℕ}

theorem allocLoop_none (h : Bookkept s) (hlist : list ⊆ s.poolList)
    (hnone : ∀ p ∈ list, ∀ pool, s.pools p = some pool →
      ¬pool.HasRun (requestBlocks size)) :
    allocLoop size list s = .ok (none, s) := by
  induction list with
  | nil => rfl
  | cons p rest ih =>
      obtain ⟨hp, hrest⟩ := List.cons_subset.mp hlist
      obtain ⟨pool, hok⟩ := h.pools p hp
      have hfirst := hnone p List.mem_cons_self pool hok.pool_eq
      rw [allocLoop, allocFromPool_none hok hfirst, ok_bind]
      exact ih hrest fun q hq => hnone q (List.mem_cons_of_mem p hq)

/-- Taking blocks hands out memory or is fatal. -/
theorem Spot.takeBlocks_ne_none {p i : ℕ} {pool : PoolHeader} {s' : State}
    (hspot : Spot s p pool i (requestBlocks size)) (h : Bookkept s)
    (hthrough : LetThrough size)
    (hfree : requestBlocks size ≤ s.freeBlockCount) :
    takeBlocks s p pool i (requestBlocks size) size ≠ .ok (none, s') := by
  rcases Nat.lt_or_ge (size + 40) 4294967296 with hsize | hwraps
  · have ht := hspot.takeable (fun hzero => hthrough (Or.inl hzero)) hsize
    rw [ht.takeBlocks_eq h]
    simp
  · rw [hspot.takeBlocks_wraps (h.poolOk hspot.listed hspot.pool_eq) hfree
      hwraps]
    nofun

theorem allocLoop_found (h : Bookkept s) (hthrough : LetThrough size)
    (hfree : requestBlocks size ≤ s.freeBlockCount)
    (hlist : list ⊆ s.poolList)
    (hrun : ∃ p ∈ list, ∃ pool, s.pools p = some pool ∧
      pool.HasRun (requestBlocks size)) :
    ∃ p pool i, Spot s p pool i (requestBlocks size) ∧
      allocLoop size list s =
        takeBlocks s p pool i (requestBlocks size) size := by
  induction list with
  | nil =>
      obtain ⟨p, hp, -⟩ := hrun
      contradiction
  | cons p rest ih =>
      obtain ⟨hp, hrest⟩ := List.cons_subset.mp hlist
      obtain ⟨pool, hok⟩ := h.pools p hp
      by_cases hfirst : pool.HasRun (requestBlocks size)
      · obtain ⟨i, hspot, htake⟩ :=
          allocFromPool_found hok hp hthrough hfirst
        refine ⟨p, pool, i, hspot, ?_⟩
        rw [allocLoop, htake]
        rcases hresult : takeBlocks s p pool i (requestBlocks size) size with
          e | ⟨_ | ptr, s'⟩
        · rfl
        · exact absurd hresult (hspot.takeBlocks_ne_none h hthrough hfree)
        · rfl
      · obtain ⟨q, hq, pool', hpool', hrun'⟩ := hrun
        have hne : q ≠ p := by
          rintro rfl
          rw [hok.pool_eq, Option.some.injEq] at hpool'
          exact hfirst (hpool' ▸ hrun')
        have hmem : q ∈ rest := by
          rcases List.mem_cons.mp hq with hq | hq
          · exact absurd hq hne
          · exact hq
        rw [allocLoop, allocFromPool_none hok hfirst, ok_bind]
        exact ih hrest ⟨q, hmem, pool', hpool', hrun'⟩

/-- A search which finds no room leaves the heap as it is. -/
theorem searchPools_none (h : Bookkept s) (hnone : ¬s.Finds size) :
    searchPools s size = .ok (none, s) := by
  unfold searchPools
  split
  next hfree =>
    refine allocLoop_none h (List.Subset.refl _) fun p hp pool hpool hrun => ?_
    exact hnone ⟨hfree, p, hp, pool, hpool, hrun⟩
  next => rfl

/-- A search which finds room takes blocks of one pool. -/
theorem searchPools_found (h : Bookkept s) (hthrough : LetThrough size)
    (hfinds : s.Finds size) :
    ∃ p pool i, Spot s p pool i (requestBlocks size) ∧
      searchPools s size =
        takeBlocks s p pool i (requestBlocks size) size := by
  obtain ⟨hfree, hrun⟩ := hfinds
  obtain ⟨p, pool, i, hspot, hloop⟩ :=
    allocLoop_found h hthrough hfree.le (List.Subset.refl _) hrun
  refine ⟨p, pool, i, hspot, ?_⟩
  unfold requestBlocks at hfree hloop ⊢
  rw [searchPools, if_pos hfree, hloop]

theorem letThrough_of_fits (hpos : size ≠ 0)
    (hsize : size + 40 < 4294967296) : LetThrough size := by
  unfold LetThrough sizeMax allocHeaderSize
  omega

theorem searchPools_fits (h : Bookkept s) (hpos : size ≠ 0)
    (hsize : size + 40 < 4294967296) (hfinds : s.Finds size) :
    ∃ p pool i, Takeable s p pool i (requestBlocks size) size ∧
      searchPools s size = .ok (some (pool.blockpool + i * 64 + 32),
        s.take p pool i (requestBlocks size) size) := by
  obtain ⟨p, pool, i, hspot, hsearch⟩ :=
    searchPools_found h (letThrough_of_fits hpos hsize) hfinds
  have ht := hspot.takeable hpos hsize
  exact ⟨p, pool, i, ht, hsearch.trans (ht.takeBlocks_eq h)⟩

end AllPools

end Heap
end Yjkos
