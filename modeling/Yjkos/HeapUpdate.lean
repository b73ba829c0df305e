import Yjkos.HeapBookkeeping

/-!
# Updates of the heap's bookkeeping

Writing bytes, adding a pool, and taking or returning a run of blocks all
keep the bookkeeping invariant.
-/

namespace Yjkos
namespace Heap

open SetPartition

section Update

variable {s s' : State} {p alloc : ℕ} {pool pool' : PoolHeader}
  {header : AllocHeader}

/-! ## Bytes -/

theorem Bookkept.withBytes (h : Bookkept s) {bytes : ℕ → BitVec 8}
    {nullClears : List ℕ} (hpoison : ∀ alloc ∈ s.allocList, ∀ header pool,
      AllocOk s alloc header pool → ∀ i < 8,
      bytes (alloc + 32 + header.size + i) =
        s.bytes (alloc + 32 + header.size + i)) :
    Bookkept { s with bytes := bytes, nullClears := nullClears } := by
  constructor
  · exact h.poolNodup
  · exact h.allocNodup
  · intro p hp
    obtain ⟨pool, hok⟩ := h.pools p hp
    exact ⟨pool, hok.pool_eq, hok.positive, hok.above, hok.aligned, hok.fits,
      hok.inside, hok.room, hok.beyond, hok.mapped⟩
  · exact h.apart
  · intro alloc halloc
    obtain ⟨header, pool, hok⟩ := h.allocs alloc halloc
    refine ⟨header, pool, hok.header_eq, hok.listed, hok.pool_eq,
      hok.position, hok.size_pos, hok.blockCount_eq, fun i hi => ?_⟩
    exact (hpoison alloc halloc header pool hok i hi).trans (hok.poison i hi)
  · exact h.parts
  · exact h.used
  · exact h.free
  · exact h.fresh

theorem AllocOk.poison_mem (h : AllocOk s alloc header pool) {i : ℕ}
    (hi : i < 8) : alloc + 32 + header.size + i ∈ header.footprint alloc := by
  have hsize := h.size_le
  exact ⟨by omega, by omega⟩

theorem Bookkept.write (h : Bookkept s) (halloc : alloc ∈ s.allocList)
    (hok : AllocOk s alloc header pool) {bytes : ℕ → BitVec 8}
    (hbytes : ∀ a, a ∉ Set.Ico (alloc + 32) (alloc + 32 + header.size) →
      bytes a = s.bytes a) : Bookkept { s with bytes := bytes } := by
  refine h.withBytes fun alloc' halloc' header' pool' hok' i hi => ?_
  refine hbytes _ fun hmem => ?_
  have hsize := hok.size_le
  have hfoot : alloc' + 32 + header'.size + i ∈ header.footprint alloc :=
    ⟨by have := hmem.1; omega, by have := hmem.2; omega⟩
  have hsame := h.eq_of_footprint halloc halloc' hok hok' hfoot
    (hok'.poison_mem hi)
  subst hsame
  have hheader := hok.header_eq.symm.trans hok'.header_eq
  rw [Option.some.injEq] at hheader
  subst hheader
  have := hmem.2
  omega

/-! ## Adding a pool -/

/-- The memory is mapped and no pool is in it. -/
structure Unused (s : State) (mem memsize : ℕ) : Prop where
  mapped : ∀ a ∈ Set.Ico mem (mem + memsize), s.mapped a = true
  apart : ∀ p ∈ s.poolList,
    Disjoint (s.region p) (Set.Ico mem (mem + memsize))

/-- The heap with a new pool. -/
def State.withPool (s : State) (mem : ℕ) (pool : PoolHeader) : State :=
  { s.setPool mem pool with
    initialized := true
    freeBlockCount := wrap (s.freeBlockCount + pool.blockCount)
    poolList := s.poolList ++ [mem] }

section AddPool

variable {mem memsize : ℕ}

theorem State.withPool_pools_self :
    (s.withPool mem pool).pools mem = some pool := by
  simp [State.withPool, State.setPool]

theorem State.withPool_pools_of_ne (h : p ≠ mem) :
    (s.withPool mem pool).pools p = s.pools p := by
  simp [State.withPool, State.setPool, h]

theorem State.withPool_region_of_ne (h : p ≠ mem) :
    (s.withPool mem pool).region p = s.region p := by
  simp [State.region, State.withPool_pools_of_ne h]

theorem State.withPool_region_self :
    (s.withPool mem pool).region mem =
      Set.Ico mem (mem + pool.pageCount * 4096) := by
  simp [State.region, State.withPool_pools_self, archPageSize]

theorem Unused.ne_of_mem (hunused : Unused s mem memsize)
    (harea : Area mem memsize) (h : Bookkept s) (hp : p ∈ s.poolList) :
    p ≠ mem := by
  rintro rfl
  obtain ⟨pool, hok⟩ := h.pools p hp
  have habove := hok.above
  have hfits := hok.fits
  have hlow := harea.low
  have hmem : p ∈ s.region p := by
    rw [hok.region_eq]
    exact ⟨le_rfl, by omega⟩
  exact Set.disjoint_left.mp (hunused.apart p hp) hmem ⟨le_rfl, by omega⟩

theorem AllocOk.withPool (hok : AllocOk s alloc header pool)
    (hne : header.pool ≠ mem) :
    AllocOk (s.withPool mem pool') alloc header pool :=
  ⟨hok.header_eq, List.mem_append_left _ hok.listed,
    (State.withPool_pools_of_ne hne).trans hok.pool_eq, hok.position,
    hok.size_pos, hok.blockCount_eq, hok.poison⟩

theorem LaidOut.poolOk (hlaid : LaidOut mem memsize pool)
    (harea : Area mem memsize) (hunused : Unused s mem memsize) :
    PoolOk (s.withPool mem pool) mem pool := by
  have hareaInside := harea.inside
  have hinside := hlaid.inside
  refine ⟨State.withPool_pools_self, harea.positive, hlaid.above,
    hlaid.aligned, hlaid.fits, by omega, hlaid.room, ?_, ?_⟩
  · intro i hi
    by_contra hbit
    have hlt := (hlaid.bits i).mp (by simpa using hbit)
    omega
  · rw [State.withPool_region_self]
    intro a ha
    exact hunused.mapped a ⟨ha.1, by have := ha.2; omega⟩

theorem PoolOk.withPool (hok : PoolOk s p pool) (hne : p ≠ mem) :
    PoolOk (s.withPool mem pool') p pool := by
  refine ⟨(State.withPool_pools_of_ne hne).trans hok.pool_eq, hok.positive,
    hok.above, hok.aligned, hok.fits, hok.inside, hok.room, hok.beyond, ?_⟩
  rw [State.withPool_region_of_ne hne]
  exact hok.mapped

theorem LaidOut.taken_eq (hlaid : LaidOut mem memsize pool) :
    pool.taken = ∅ := by
  refine Set.eq_empty_iff_forall_notMem.mpr fun i hi => ?_
  have hbit := (hlaid.bits i).mpr hi.1
  rw [hi.2] at hbit
  cases hbit

theorem Bookkept.allocsOf_new (h : Bookkept s)
    (hne : ∀ q ∈ s.poolList, q ≠ mem) :
    (s.withPool mem pool).allocsOf mem = [] := by
  refine List.filter_eq_nil_iff.mpr fun alloc halloc hin => ?_
  obtain ⟨header, pool', hok⟩ := h.allocs alloc halloc
  exact hne _ hok.listed (hok.isIn_iff.mp hin)

theorem Bookkept.blocksOf_withPool (h : Bookkept s)
    (hne : ∀ q ∈ s.poolList, q ≠ mem) (halloc : alloc ∈ s.allocList) :
    (s.withPool mem pool).blocksOf alloc = s.blocksOf alloc := by
  obtain ⟨header, pool', hok⟩ := h.allocs alloc halloc
  have hok' : AllocOk (s.withPool mem pool) alloc header pool' :=
    hok.withPool (hne _ hok.listed)
  simp only [State.blocksOf, hok.header_eq, hok.pool_eq, hok'.header_eq,
    hok'.pool_eq]

theorem Bookkept.free_withPool (h : Bookkept s)
    (hne : ∀ q ∈ s.poolList, q ≠ mem) (harea : Area mem memsize)
    (hlaid : LaidOut mem memsize pool) :
    (s.withPool mem pool).freeBlockCount =
      ((s.poolList ++ [mem]).map (s.withPool mem pool).freeOf).sum := by
  have hbound : s.freeBlockCount + pool.blockCount < 4294967296 := by
    have hle := h.free_le
    have habove := hlaid.above
    have hfits := hlaid.fits
    have hinside := hlaid.inside
    have hhigh := harea.high
    omega
  have hold : s.poolList.map (s.withPool mem pool).freeOf =
      s.poolList.map s.freeOf :=
    List.map_congr_left fun q hq => by
      simp [State.freeOf, State.withPool_pools_of_ne (hne q hq)]
  have hnew : (s.withPool mem pool).freeOf mem = pool.blockCount := by
    simp [State.freeOf, State.withPool_pools_self, hlaid.unused]
  rw [List.map_append, List.sum_append, hold, ← h.free, List.map_singleton,
    List.sum_singleton, hnew]
  exact wrap_of_lt hbound

theorem Bookkept.withPool (h : Bookkept s) (harea : Area mem memsize)
    (hunused : Unused s mem memsize) (hlaid : LaidOut mem memsize pool) :
    Bookkept (s.withPool mem pool) := by
  have hne : ∀ q ∈ s.poolList, q ≠ mem :=
    fun q hq => hunused.ne_of_mem harea h hq
  have hmem : ∀ q ∈ s.poolList ++ [mem], q ≠ mem → q ∈ s.poolList := by
    intro q hq hqmem
    rcases List.mem_append.mp hq with hq | hq
    · exact hq
    · exact absurd (List.mem_singleton.mp hq) hqmem
  constructor
  case poolNodup =>
    refine List.nodup_append.mpr ⟨h.poolNodup, List.nodup_singleton mem, ?_⟩
    intro q hq q' hq' heq
    rw [List.mem_singleton] at hq'
    exact hne q hq (heq.trans hq')
  case allocNodup => exact h.allocNodup
  case pools =>
    intro q hq
    by_cases hqmem : q = mem
    · subst hqmem
      exact ⟨pool, hlaid.poolOk harea hunused⟩
    · obtain ⟨pool', hok⟩ := h.pools q (hmem q hq hqmem)
      exact ⟨pool', hok.withPool hqmem⟩
  case apart =>
    change ((s.poolList ++ [mem]).map (s.withPool mem pool).region).Pairwise
      Disjoint
    rw [List.map_append, List.pairwise_append]
    refine ⟨?_, by simp, ?_⟩
    · rw [List.map_congr_left fun q hq =>
        State.withPool_region_of_ne (hne q hq)]
      exact h.apart
    · intro P hP Q hQ
      obtain ⟨q, hq, rfl⟩ := List.mem_map.mp hP
      rw [List.map_singleton, List.mem_singleton] at hQ
      rw [hQ, State.withPool_region_of_ne (hne q hq),
        State.withPool_region_self]
      refine (hunused.apart q hq).mono_right ?_
      have hinside := hlaid.inside
      exact Set.Ico_subset_Ico le_rfl (by omega)
  case allocs =>
    intro alloc halloc
    obtain ⟨header, pool', hok⟩ := h.allocs alloc halloc
    exact ⟨header, pool', hok.withPool (hne _ hok.listed)⟩
  case parts =>
    intro q hq pool' hpool'
    by_cases hqmem : q = mem
    · subst hqmem
      rw [State.withPool_pools_self, Option.some.injEq] at hpool'
      subst hpool'
      rw [h.allocsOf_new hne, hlaid.taken_eq]
      exact ⟨by simp, by simp, by simp⟩
    · rw [State.withPool_pools_of_ne hqmem] at hpool'
      have hblocks : ((s.withPool mem pool).allocsOf q).map
          (s.withPool mem pool).blocksOf =
          (s.allocsOf q).map s.blocksOf :=
        List.map_congr_left fun a ha =>
          h.blocksOf_withPool hne (List.mem_of_mem_filter ha)
      rw [hblocks]
      exact h.parts q (hmem q hq hqmem) pool' hpool'
  case used =>
    intro q hq pool' hpool'
    by_cases hqmem : q = mem
    · subst hqmem
      rw [State.withPool_pools_self, Option.some.injEq] at hpool'
      subst hpool'
      rw [h.allocsOf_new hne, hlaid.unused]
      rfl
    · rw [State.withPool_pools_of_ne hqmem] at hpool'
      exact h.used q (hmem q hq hqmem) pool' hpool'
  case free => exact h.free_withPool hne harea hlaid
  case fresh =>
    intro hfalse
    cases hfalse

theorem addMem_spec (h : Bookkept s) (harea : Area mem memsize)
    (hunused : Unused s mem memsize) :
    ∃ pool, addMem s mem memsize = .ok (s.withPool mem pool) ∧
      Bookkept (s.withPool mem pool) := by
  obtain ⟨pool, hlay, hlaid⟩ := layOutPool_spec harea
  refine ⟨pool, ?_, h.withPool harea hunused hlaid⟩
  rw [addMem, hlay]
  rfl

end AddPool

end Update

end Heap
end Yjkos
