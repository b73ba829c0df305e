import Yjkos.PmmRegister
import Yjkos.SetPartition

/-!
# The list of pools

`pmm_alloc` asks the pools one after the other, `pmm_free` looks for the pool
which the pointer is in.  `pmm_free` compares the last addresses of the pool
and the block, `free_from_pool` compares their ends, which are one further;
the end of a pool which reaches the top of the address space is zero.
-/

namespace Yjkos
namespace Pmm

open SetPartition

/-- The walk of `pmm_alloc` over the pools: the result, the page count which
is written back and the pools. -/
def pmmAllocLoop (pageCountInout : ℕ) :
    List PagePool → Except Fault (ℕ × ℕ × List PagePool)
  | [] => .ok (0, pageCountInout, [])
  | pool :: rest => do
      let out ← (allocFromPool pool pageCountInout).result
      if out.result ≠ 0 then
        .ok (out.result, out.pageCount, out.pool :: rest)
      else do
        let (result, pageCount, pools) ← pmmAllocLoop pageCountInout rest
        .ok (result, pageCount, out.pool :: pools)

def pmmAlloc (pools : List PagePool) (pageCountInout : ℕ) :
    Except Fault (ℕ × ℕ × List PagePool) := do
  cAssert (pageCountInout ≠ 0) "*page_count_inout != 0"
  pmmAllocLoop pageCountInout pools

def pmmFreeLoop (ptr pageCount : ℕ) :
    List PagePool → Except Fault (List PagePool)
  | [] => .error (.panic "pmm: bad pointer")
  | pool :: rest =>
      let poolDataStart := pool.baseAddr
      let poolDataEnd := wrap (poolDataStart +
        wrapSub (wrap (archPageSize * pool.pageCount)) 1)
      if ptr < poolDataStart ∨ poolDataEnd < ptr then do
        let pools ← pmmFreeLoop ptr pageCount rest
        .ok (pool :: pools)
      else
        let last := wrap (ptr + wrapSub (wrap (archPageSize * pageCount)) 1)
        if last ≤ poolDataStart ∨ poolDataEnd < last then
          .error (.panic "pmm: bad pointer")
        else do
          let pool ← (freeFromPool pool ptr pageCount).result
          .ok (pool :: rest)

def pmmFree (pools : List PagePool) (ptr pageCount : ℕ) :
    Except Fault (List PagePool) :=
  if ptr = 0 ∨ pageCount = 0 then .ok pools
  else pmmFreeLoop ptr pageCount pools

/-! ## Runs -/

structure PmmState where
  pools : List PagePool
  live : List Allocation
deriving DecidableEq

inductive PmmOp where
  | register (heapAlloc : ℕ → ℕ → Bool) (fuel base pageCount : ℕ)
  | alloc (count : ℕ)
  | free (allocation : Allocation)

namespace PmmState

def Starts (s : PmmState) : Prop := s.pools = [] ∧ s.live = []

/-- The memory which is registered is inside of the address space and in no
pool yet; what is freed is live. -/
def Admits (s : PmmState) : PmmOp → Prop
  | .register _ _ base pageCount =>
      base + pageCount * archPageSize ≤ 4294967296 ∧
        ∀ pool ∈ s.pools, Disjoint (addresses pool)
          (Set.Ico base (base + pageCount * archPageSize))
  | .alloc count => 1 ≤ count
  | .free a => a ∈ s.live

def step (s : PmmState) : PmmOp → Except Fault PmmState
  | .register heapAlloc fuel base pageCount => do
      let pools ← pmmRegisterMem heapAlloc fuel base pageCount s.pools
      .ok ⟨pools, s.live⟩
  | .alloc count => do
      let (result, pageCount, pools) ← pmmAlloc s.pools count
      if result = 0 then .ok ⟨pools, s.live⟩
      else .ok ⟨pools, ⟨result, count, pageCount⟩ :: s.live⟩
  | .free a => do
      let pools ← pmmFree s.pools a.ptr a.rounded
      .ok ⟨pools, s.live.erase a⟩

end PmmState

/-- The block starts inside of the pool. -/
def owns (pool : PagePool) (a : Allocation) : Bool :=
  decide (pool.baseAddr ≤ a.ptr ∧
    a.ptr < pool.baseAddr + pool.pageCount * archPageSize)

/-- The pool is in order for the live blocks which it owns. -/
def PoolGood (live : List Allocation) (pool : PagePool) : Prop :=
  ∃ k words, PoolRange k pool.baseAddr ∧
    PoolInv k pool.baseAddr words ⟨pool, live.filter (owns pool)⟩

structure PoolsInv (s : PmmState) : Prop where
  good : ∀ pool ∈ s.pools, PoolGood s.live pool
  apart : (s.pools.map addresses).Pairwise Disjoint
  owned : ∀ a ∈ s.live, ∃ pool ∈ s.pools, owns pool a = true

section Owner

variable {s : PmmState} {pool pool' : PagePool} {a : Allocation}
  {before after : List PagePool} {live : List Allocation}

theorem owns_iff : owns pool a = true ↔ a.ptr ∈ addresses pool := by
  simp [owns, addresses]

theorem PoolGood.bounds (h : PoolGood live pool) :
    archPageSize ≤ pool.baseAddr ∧ 1 ≤ pool.pageCount ∧
      pool.baseAddr + pool.pageCount * archPageSize ≤ 4294967296 := by
  obtain ⟨k, words, hrange, hinv⟩ := h
  have hcount := hinv.holds.pageCount
  refine ⟨hrange.low, ?_, ?_⟩
  · rw [hcount]
    exact Nat.one_le_two_pow
  · rw [hcount]
    exact hrange.fits

theorem PoolsInv.regions (h : PoolsInv s) :
    IsPartition (s.pools.map addresses)
      {x | ∃ P ∈ s.pools.map addresses, x ∈ P} := by
  refine isPartition_sUnion ?_ h.apart
  intro P hP
  obtain ⟨pool, hpool, rfl⟩ := List.mem_map.mp hP
  obtain ⟨hlow, hpos, hfits⟩ := (h.good pool hpool).bounds
  refine ⟨pool.baseAddr, le_rfl, ?_⟩
  unfold archPageSize
  omega

theorem PoolsInv.owner_unique (h : PoolsInv s) (hpool : pool ∈ s.pools)
    (hpool' : pool' ∈ s.pools) (howns : owns pool a = true)
    (howns' : owns pool' a = true) : pool = pool' :=
  h.regions.eq_of_mem hpool hpool' (owns_iff.mp howns) (owns_iff.mp howns')

theorem PoolsInv.not_owns (h : PoolsInv s)
    (hpools : s.pools = before ++ pool :: after)
    (howns : owns pool a = true) :
    ∀ q ∈ before ++ after, owns q a = false := by
  intro q hq
  have hapart := h.apart
  rw [hpools, List.map_append, List.map_cons, List.pairwise_append,
    List.pairwise_cons] at hapart
  obtain ⟨-, ⟨hafter, -⟩, hbefore⟩ := hapart
  have hdisj : Disjoint (addresses q) (addresses pool) := by
    rcases List.mem_append.mp hq with hq | hq
    · exact hbefore _ (List.mem_map_of_mem hq) _ List.mem_cons_self
    · exact (hafter _ (List.mem_map_of_mem hq)).symm
  by_contra hnot
  exact Set.disjoint_left.mp hdisj (owns_iff.mp (by simpa using hnot))
    (owns_iff.mp howns)

theorem PoolGood.block (h : PoolGood live pool) (ha : a ∈ live)
    (howns : owns pool a = true) :
    1 ≤ a.rounded ∧ a.ptr + a.rounded * archPageSize ≤
      pool.baseAddr + pool.pageCount * archPageSize := by
  obtain ⟨k, words, hrange, hinv⟩ := h
  obtain ⟨r, index, hblock⟩ := hinv.blocks a (List.mem_filter.mpr ⟨ha, howns⟩)
  have hcount : pool.pageCount = 2 ^ k := hinv.holds.pageCount
  refine ⟨?_, ?_⟩
  · rw [hblock.rounded]
    exact Nat.one_le_two_pow
  · rw [hcount]
    exact hblock.end_le

theorem PoolsInv.replace (h : PoolsInv s)
    (hpools : s.pools = before ++ pool :: after)
    (hbase : pool'.baseAddr = pool.baseAddr)
    (hcount : pool'.pageCount = pool.pageCount)
    (hgood : PoolGood live pool')
    (hothers : ∀ q ∈ before ++ after,
      live.filter (owns q) = s.live.filter (owns q))
    (howned : ∀ a ∈ live, a ∈ s.live ∨ owns pool' a = true) :
    PoolsInv ⟨before ++ pool' :: after, live⟩ := by
  have haddresses : addresses pool' = addresses pool := by
    simp only [addresses, hbase, hcount]
  have hmem : ∀ q ∈ before ++ after, q ∈ s.pools := by
    intro q hq
    rw [hpools]
    simp only [List.mem_append, List.mem_cons] at hq ⊢
    tauto
  constructor
  case good =>
    intro q hq
    have hcases : q = pool' ∨ q ∈ before ++ after := by
      simp only [List.mem_append, List.mem_cons] at hq ⊢
      tauto
    rcases hcases with rfl | hq
    · exact hgood
    · obtain ⟨k, words, hrange, hinv⟩ := h.good q (hmem q hq)
      exact ⟨k, words, hrange, by rw [hothers q hq]; exact hinv⟩
  case apart =>
    have hapart := h.apart
    rw [hpools] at hapart
    simpa [haddresses] using hapart
  case owned =>
    intro a ha
    rcases howned a ha with hold | hnew
    · obtain ⟨q, hq, howns⟩ := h.owned a hold
      rw [hpools] at hq
      have hcases : q = pool ∨ q ∈ before ++ pool' :: after := by
        simp only [List.mem_append, List.mem_cons] at hq ⊢
        tauto
      rcases hcases with rfl | hq
      · refine ⟨pool', by simp, ?_⟩
        rw [owns_iff, haddresses]
        exact owns_iff.mp howns
      · exact ⟨q, hq, howns⟩
    · exact ⟨pool', by simp, hnew⟩

end Owner

/-! ## Registering -/

section Register

variable {s : PmmState} {heapAlloc : ℕ → ℕ → Bool}
  {fuel attempt base n : ℕ} {pools pools' : List PagePool}

theorem registerMemLoop_mono (more attempt' : ℕ)
    (h : registerMemLoop heapAlloc fuel attempt base n pools =
      .ok pools') :
    registerMemLoop (fun _ _ => true) (fuel + more) attempt' base n pools =
      .ok pools' := by
  induction fuel generalizing attempt attempt' base n pools more with
  | zero => simp [registerMemLoop] at h
  | succ fuel ih =>
      rw [registerMemLoop] at h
      rw [Nat.add_right_comm, registerMemLoop]
      split at h
      next hzero => rw [if_pos hzero, h]
      next hzero =>
        obtain ⟨sizes, hsizes, h⟩ := bind_eq_ok h
        rw [if_neg hzero, hsizes, ok_bind]
        dsimp only at h ⊢
        split at h
        next =>
          obtain ⟨_, hassert, h⟩ := bind_eq_ok h
          obtain ⟨bitmap, hbitmap, h⟩ := bind_eq_ok h
          rw [if_pos rfl, hassert, ok_bind, hbitmap, ok_bind]
          exact ih more _ h
        next =>
          -- the failed attempt is not made here
          have hnext := ih (more + 1) attempt' h
          rw [← Nat.add_assoc, registerMemLoop, if_neg hzero, hsizes,
            ok_bind] at hnext
          exact hnext

theorem aligned_of_registerMemLoop (hn : n ≠ 0)
    (h : registerMemLoop heapAlloc fuel attempt base n pools =
      .ok pools') : archPageSize ∣ base := by
  induction fuel generalizing attempt with
  | zero => simp [registerMemLoop] at h
  | succ fuel ih =>
      rw [registerMemLoop, if_neg hn] at h
      obtain ⟨sizes, -, h⟩ := bind_eq_ok h
      dsimp only at h
      split at h
      next =>
        obtain ⟨_, hassert, -⟩ := bind_eq_ok h
        have haligned := cAssert_eq_ok hassert
        exact Nat.dvd_of_mod_eq_zero (by simpa using haligned)
      next => exact ih h

theorem pmmRegisterMem_added
    (h : pmmRegisterMem heapAlloc fuel base n pools = .ok pools')
    (hfits : base + n * archPageSize ≤ 4294967296) :
    ∃ added, pools' = added ++ pools ∧
      Partitions base (base + n * archPageSize) added ∧
      (∀ p ∈ added, Registered p) ∧ (n ≠ 0 → archPageSize ≤ base) := by
  obtain ⟨_, hassert, hloop⟩ := bind_eq_ok h
  have hbase : base ≠ 0 := by simpa using cAssert_eq_ok hassert
  obtain ⟨added, hadded, hparts, hregistered⟩ :=
    registerMemLoop_spec (fun _ _ => rfl) (fuel + (n + 1)) 0 base n pools
      (by omega) (fun hn => aligned_of_registerMemLoop hn hloop)
      (fun _ => hfits)
  rw [registerMemLoop_mono (n + 1) 0 hloop, Except.ok.injEq] at hadded
  refine ⟨added, hadded, hparts, hregistered, fun hn => ?_⟩
  exact Nat.le_of_dvd (Nat.pos_of_ne_zero hbase)
    (aligned_of_registerMemLoop hn hloop)

theorem Registered.poolInv {pool : PagePool} (h : Registered pool) :
    ∃ k words, pool.pageCount = 2 ^ k ∧
      PoolInv k pool.baseAddr words ⟨pool, []⟩ := by
  obtain ⟨k, words, -, hfresh⟩ := h.fresh
  have hcount : pool.pageCount = 2 ^ k := hfresh.pageCount
  have hroom := h.room
  have hpos : 1 ≤ 2 ^ k := Nat.one_le_two_pow
  refine ⟨k, words, hcount, poolInv_fresh ?_ hfresh⟩
  have hbitmap : (Bitmap.zeroed words).bitmapSetBit 0 = .ok pool.bitmap :=
    hfresh.bitmap
  have hbits : pool.bitmap.bitCount = words * 32 := by
    rcases Nat.eq_zero_or_pos words with hzero | hwords
    · subst hzero
      have hempty : (Bitmap.zeroed 0).bitmapSetBit 0 =
          .error .outOfBounds := rfl
      rw [hempty] at hbitmap
      cases hbitmap
    · have hlt : 0 < (Bitmap.zeroed words).bitCount := by
        rw [Bitmap.zeroed_bitCount]
        omega
      have hset := Bitmap.bitmapSetBit_of_lt hlt
      rw [Nat.cast_zero, hbitmap, Except.ok.injEq] at hset
      rw [hset, Bitmap.withBit_bitCount, Bitmap.zeroed_bitCount]
  rw [hcount, hbits] at hroom
  rw [pow_succ]
  omega

theorem addresses_subset {first last : ℕ} {added : List PagePool}
    {pool : PagePool} (h : Partitions first last added)
    (hpool : pool ∈ added) : addresses pool ⊆ Set.Ico first last := by
  rw [← h.cover]
  exact Set.subset_biUnion_of_mem hpool

theorem PoolsInv.register (h : PoolsInv s)
    (hadmits : s.Admits (.register heapAlloc fuel base n))
    (hregister : pmmRegisterMem heapAlloc fuel base n s.pools = .ok pools') :
    PoolsInv ⟨pools', s.live⟩ := by
  obtain ⟨hfits, hdisj⟩ := hadmits
  obtain ⟨added, rfl, hparts, hregistered, hlow⟩ :=
    pmmRegisterMem_added hregister hfits
  have hcross : ∀ p ∈ added, ∀ q ∈ s.pools,
      Disjoint (addresses p) (addresses q) := fun p hp q hq =>
    ((hdisj q hq).mono_right (addresses_subset hparts hp)).symm
  constructor
  case good =>
    intro pool hpool
    rcases List.mem_append.mp hpool with hnew | hold
    · obtain ⟨k, words, hcount, hinv⟩ := (hregistered pool hnew).poolInv
      have hpos : 1 ≤ 2 ^ k := Nat.one_le_two_pow
      have hsubset := addresses_subset hparts hnew
      have hfirst : pool.baseAddr ∈ addresses pool := by
        refine ⟨le_rfl, ?_⟩
        rw [hcount, archPageSize]
        omega
      have hlast : pool.baseAddr + (2 ^ k * 4096 - 1) ∈ addresses pool := by
        refine ⟨by omega, ?_⟩
        rw [hcount, archPageSize]
        omega
      have hbase := (hsubset hfirst).1
      have hend := (hsubset hlast).2
      have hn : n ≠ 0 := by
        rintro rfl
        have hend' := (hsubset hfirst).2
        omega
      have hbaseLow := hlow hn
      have hnone : s.live.filter (owns pool) = [] := by
        refine List.filter_eq_nil_iff.mpr fun a ha howns => ?_
        obtain ⟨q, hq, howns'⟩ := h.owned a ha
        exact Set.disjoint_left.mp (hcross pool hnew q hq)
          (owns_iff.mp howns) (owns_iff.mp howns')
      refine ⟨k, words, ⟨by omega, ?_⟩, by rw [hnone]; exact hinv⟩
      unfold archPageSize at hend hfits ⊢
      omega
    · exact h.good pool hold
  case apart =>
    rw [List.map_append, List.pairwise_append]
    refine ⟨List.pairwise_map.mpr hparts.disjoint, h.apart, ?_⟩
    intro P hP Q hQ
    obtain ⟨p, hp, rfl⟩ := List.mem_map.mp hP
    obtain ⟨q, hq, rfl⟩ := List.mem_map.mp hQ
    exact hcross p hp q hq
  case owned =>
    intro a ha
    obtain ⟨pool, hpool, howns⟩ := h.owned a ha
    exact ⟨pool, List.mem_append_right _ hpool, howns⟩

end Register

/-! ## Allocating -/

section Alloc

variable {s : PmmState} {count : ℕ} {pools : List PagePool}
  {live : List Allocation}

/-- Either no pool has room and none changes, or the first one which has
hands out a block. -/
theorem pmmAllocLoop_spec (hgood : ∀ pool ∈ pools, PoolGood live pool)
    (hcount : 1 ≤ count) :
    (∃ written, pmmAllocLoop count pools = .ok (0, written, pools)) ∨
    ∃ before pool after out,
      pools = before ++ pool :: after ∧
      (allocFromPool pool count).result = .ok out ∧ out.result ≠ 0 ∧
      pmmAllocLoop count pools =
        .ok (out.result, out.pageCount, before ++ out.pool :: after) := by
  induction pools with
  | nil => exact Or.inl ⟨count, rfl⟩
  | cons pool rest ih =>
      obtain ⟨k, words, hrange, hinv⟩ := hgood pool List.mem_cons_self
      rcases allocFromPool_spec hrange hinv.holds hcount with
        ⟨written, hresult⟩ | ⟨a, r, index, bitmap, hresult, -, hblock, -⟩
      · rcases ih fun q hq => hgood q (List.mem_cons_of_mem pool hq) with
          ⟨written', hrest⟩ | ⟨before, q, after, out, hpools, hout, hne,
            hrest⟩
        · refine Or.inl ⟨written', ?_⟩
          simp only [pmmAllocLoop, hresult, ok_bind, ne_eq, not_true_eq_false,
            if_false, hrest]
        · refine Or.inr ⟨pool :: before, q, after, out, ?_, hout, hne, ?_⟩
          · rw [hpools]
            rfl
          · simp only [pmmAllocLoop, hresult, ok_bind, ne_eq,
              not_true_eq_false, if_false, hrest]
            rfl
      · have hne : a.ptr ≠ 0 := hrange.ptr_ne_zero hblock
        refine Or.inr ⟨[], pool, rest, _, rfl, hresult, hne, ?_⟩
        simp only [pmmAllocLoop, hresult, ok_bind, ne_eq, hne,
          not_false_eq_true, if_true]
        rfl

theorem owns_congr {pool pool' : PagePool}
    (hbase : pool'.baseAddr = pool.baseAddr)
    (hcount : pool'.pageCount = pool.pageCount) : owns pool' = owns pool := by
  funext a
  simp only [owns, hbase, hcount]

theorem IsBlock.owns {k r index : ℕ} {pool : PagePool} {a : Allocation}
    (hblock : IsBlock k pool.baseAddr a r index)
    (hcount : pool.pageCount = 2 ^ k) : owns pool a = true := by
  have hend := hblock.end_le
  have hpos : 1 ≤ a.rounded := by
    rw [hblock.rounded]
    exact Nat.one_le_two_pow
  rw [owns_iff]
  refine ⟨?_, ?_⟩
  · rw [hblock.ptr]
    omega
  · rw [hcount]
    unfold archPageSize at hend ⊢
    omega

theorem PoolsInv.alloc (h : PoolsInv s) (hcount : 1 ≤ count) :
    ∃ s', s.step (.alloc count) = .ok s' ∧ PoolsInv s' := by
  have hassert : decide (count ≠ 0) = true := decide_eq_true (by omega)
  rcases pmmAllocLoop_spec h.good hcount with
    ⟨written, hloop⟩ | ⟨before, pool, after, out, hpools, hout, hne, hloop⟩
  · refine ⟨s, ?_, h⟩
    simp only [PmmState.step, pmmAlloc, cAssert_of hassert, ok_bind, hloop,
      if_true]
  · have hmem : pool ∈ s.pools := by
      rw [hpools]
      simp
    obtain ⟨k, words, hrange, hinv⟩ := h.good pool hmem
    obtain ⟨s', hstep, hinv', hcases⟩ := hinv.alloc hrange hcount
    simp only [PoolState.step, hout, ok_bind, if_neg hne,
      Except.ok.injEq] at hstep
    subst hstep
    set a : Allocation := ⟨out.result, count, out.pageCount⟩ with ha
    have hbase : out.pool.baseAddr = pool.baseAddr := hinv'.holds.baseAddr
    have hpages : out.pool.pageCount = pool.pageCount :=
      hinv'.holds.pageCount.trans hinv.holds.pageCount.symm
    obtain ⟨r, index, hblock⟩ := hinv'.blocks a List.mem_cons_self
    have howns : owns pool a = true := hblock.owns hinv.holds.pageCount
    have hfilter : (a :: s.live).filter (owns out.pool) =
        a :: s.live.filter (owns pool) := by
      rw [owns_congr hbase hpages, List.filter_cons_of_pos howns]
    refine ⟨⟨before ++ out.pool :: after, a :: s.live⟩, ?_, ?_⟩
    · simp only [PmmState.step, pmmAlloc, cAssert_of hassert, ok_bind, hloop,
        if_neg hne, ha]
    · refine h.replace hpools hbase hpages ⟨k, words, ?_, ?_⟩ ?_ ?_
      · rw [hbase]
        exact hrange
      · rw [hbase, hfilter]
        exact hinv'
      · intro q hq
        have hnot := h.not_owns hpools howns q hq
        rw [List.filter_cons_of_neg (by simp [hnot])]
      · intro b hb
        rcases List.mem_cons.mp hb with rfl | hb
        · exact Or.inr (by rw [owns_congr hbase hpages]; exact howns)
        · exact Or.inl hb

end Alloc

/-! ## Freeing -/

section Free

variable {s : PmmState} {a : Allocation} {pool : PagePool}
  {before after : List PagePool} {live : List Allocation}

theorem poolDataEnd_eq (h : PoolGood live pool) :
    wrap (pool.baseAddr + wrapSub (wrap (archPageSize * pool.pageCount)) 1) =
      pool.baseAddr + pool.pageCount * archPageSize - 1 := by
  obtain ⟨hlow, hpos, hfits⟩ := h.bounds
  unfold archPageSize at hlow hfits ⊢
  have hbytes : wrap (4096 * pool.pageCount) = pool.pageCount * 4096 := by
    rw [wrap_of_lt (by omega), Nat.mul_comm]
  rw [hbytes, wrapSub_of_le (by omega) (by omega), wrap_of_lt (by omega)]
  omega

theorem pmmFreeLoop_skip (h : PoolGood live pool)
    (hnot : owns pool a = false) (count : ℕ) (rest : List PagePool) :
    pmmFreeLoop a.ptr count (pool :: rest) =
      (pmmFreeLoop a.ptr count rest >>= fun pools => .ok (pool :: pools)) := by
  obtain ⟨hlow, hpos, hfits⟩ := h.bounds
  have hout : a.ptr < pool.baseAddr ∨
      pool.baseAddr + pool.pageCount * archPageSize - 1 < a.ptr := by
    simp only [owns, decide_eq_false_iff_not] at hnot
    unfold archPageSize at hnot ⊢
    omega
  rw [pmmFreeLoop]
  dsimp only
  rw [poolDataEnd_eq h, if_pos hout]

/-- The pool which owns a live block is found, and the block passes the
comparison of last addresses. -/
theorem pmmFreeLoop_owner (h : PoolGood live pool) (ha : a ∈ live)
    (howns : owns pool a = true) (rest : List PagePool) :
    pmmFreeLoop a.ptr a.rounded (pool :: rest) =
      ((freeFromPool pool a.ptr a.rounded).result >>=
        fun pool' => .ok (pool' :: rest)) := by
  obtain ⟨hlow, hpos, hfits⟩ := h.bounds
  obtain ⟨hrounded, hend⟩ := h.block ha howns
  obtain ⟨hstart, hinside⟩ := owns_iff.mp howns
  unfold archPageSize at hlow hfits hend hinside
  have hout : ¬(a.ptr < pool.baseAddr ∨
      pool.baseAddr + pool.pageCount * archPageSize - 1 < a.ptr) := by
    unfold archPageSize
    omega
  have hbytes : wrap (archPageSize * a.rounded) = a.rounded * 4096 := by
    rw [archPageSize, wrap_of_lt (by omega), Nat.mul_comm]
  have hlast : wrap (a.ptr + wrapSub (wrap (archPageSize * a.rounded)) 1) =
      a.ptr + a.rounded * 4096 - 1 := by
    rw [hbytes, wrapSub_of_le (by omega) (by omega), wrap_of_lt (by omega)]
    omega
  have hbad : ¬(a.ptr + a.rounded * 4096 - 1 ≤ pool.baseAddr ∨
      pool.baseAddr + pool.pageCount * archPageSize - 1 <
        a.ptr + a.rounded * 4096 - 1) := by
    unfold archPageSize
    omega
  rw [pmmFreeLoop]
  dsimp only
  rw [poolDataEnd_eq h, if_neg hout, hlast, if_neg hbad]

theorem pmmFreeLoop_eq (hgood : ∀ q ∈ before, PoolGood live q)
    (hnot : ∀ q ∈ before, owns q a = false) (h : PoolGood live pool)
    (ha : a ∈ live) (howns : owns pool a = true) :
    pmmFreeLoop a.ptr a.rounded (before ++ pool :: after) =
      ((freeFromPool pool a.ptr a.rounded).result >>=
        fun pool' => .ok (before ++ pool' :: after)) := by
  induction before with
  | nil => exact pmmFreeLoop_owner h ha howns after
  | cons q rest ih =>
      rw [List.cons_append, pmmFreeLoop_skip (hgood q List.mem_cons_self)
        (hnot q List.mem_cons_self),
        ih (fun q hq => hgood q (List.mem_cons_of_mem _ hq))
          fun q hq => hnot q (List.mem_cons_of_mem _ hq)]
      cases (freeFromPool pool a.ptr a.rounded).result <;> rfl

/-- `pmm_free` returns after it has freed the block in its owner. -/
def Frees (s : PmmState) (a : Allocation) : Prop :=
  ∃ before pool after pool',
    s.pools = before ++ pool :: after ∧ owns pool a = true ∧
    (freeFromPool pool a.ptr a.rounded).result = .ok pool' ∧
    pmmFree s.pools a.ptr a.rounded = .ok (before ++ pool' :: after)

/-- The pool ends below 4 GiB, or the block ends there too. -/
def EndComparable (pool : PagePool) (a : Allocation) : Prop :=
  pool.baseAddr + pool.pageCount * archPageSize = 4294967296 →
    a.ptr + a.rounded * archPageSize = 4294967296

theorem PoolsInv.exists_owner (h : PoolsInv s) (ha : a ∈ s.live) :
    ∃ before pool after, s.pools = before ++ pool :: after ∧
      owns pool a = true ∧ PoolGood s.live pool ∧
      pmmFree s.pools a.ptr a.rounded =
        ((freeFromPool pool a.ptr a.rounded).result >>=
          fun pool' => .ok (before ++ pool' :: after)) := by
  obtain ⟨pool, hpool, howns⟩ := h.owned a ha
  obtain ⟨before, after, hpools⟩ := List.append_of_mem hpool
  have hgood := h.good pool hpool
  obtain ⟨hlow, -, -⟩ := hgood.bounds
  obtain ⟨hrounded, -⟩ := hgood.block ha howns
  have hstart := (owns_iff.mp howns).1
  refine ⟨before, pool, after, hpools, howns, hgood, ?_⟩
  unfold archPageSize at hlow
  rw [pmmFree, if_neg (by omega), hpools]
  refine pmmFreeLoop_eq (fun q hq => h.good q ?_) (fun q hq =>
    h.not_owns hpools howns q (List.mem_append_left _ hq)) hgood ha howns
  rw [hpools]
  exact List.mem_append_left _ hq

/-- The comparison of ends agrees with the one of last addresses exactly when
the ends are comparable. -/
theorem PoolGood.endsInside_iff (h : PoolGood live pool) (ha : a ∈ live)
    (howns : owns pool a = true) :
    wrap (a.ptr + wrap (archPageSize * a.rounded)) ≤
        wrap (pool.baseAddr + wrap (archPageSize * pool.pageCount)) ↔
      EndComparable pool a := by
  obtain ⟨hlow, hpos, hfits⟩ := h.bounds
  obtain ⟨hrounded, hend⟩ := h.block ha howns
  have hstart := (owns_iff.mp howns).1
  unfold EndComparable
  unfold archPageSize at hlow hfits hend ⊢
  rw [wrap_of_lt (by omega : 4096 * a.rounded < 4294967296),
    wrap_of_lt (by omega : 4096 * pool.pageCount < 4294967296)]
  unfold wrap
  omega

theorem le_of_freeFromPool {ptr count : ℕ} {pool' : PagePool}
    (hptr : ptr ≠ 0)
    (h : (freeFromPool pool ptr count).result = .ok pool') :
    wrap (ptr + wrap (archPageSize * count)) ≤
      wrap (pool.baseAddr + wrap (archPageSize * pool.pageCount)) := by
  by_contra hlt
  rw [freeFromPool, if_neg hptr, if_pos (Or.inr (not_le.mp hlt))] at h
  cases h

theorem PoolGood.ptr_ne_zero (h : PoolGood live pool)
    (howns : owns pool a = true) : a.ptr ≠ 0 := by
  obtain ⟨hlow, -, -⟩ := h.bounds
  have hstart := (owns_iff.mp howns).1
  unfold archPageSize at hlow
  omega

theorem PoolGood.free (h : PoolGood live pool) (ha : a ∈ live)
    (howns : owns pool a = true) (hends : EndComparable pool a) :
    ∃ pool', (freeFromPool pool a.ptr a.rounded).result = .ok pool' ∧
      pool'.baseAddr = pool.baseAddr ∧ pool'.pageCount = pool.pageCount ∧
      PoolGood (live.erase a) pool' := by
  have hinside := (h.endsInside_iff ha howns).mpr hends
  obtain ⟨k, words, hrange, hinv⟩ := h
  have hcount : pool.pageCount = 2 ^ k := hinv.holds.pageCount
  rw [hcount] at hinside
  obtain ⟨s', hstep, hinv', hlive⟩ := hinv.free_of_endsInside hrange
    (List.mem_filter.mpr ⟨ha, howns⟩) (Or.inr rfl) hinside
  simp only [PoolState.step] at hstep
  obtain ⟨pool', hfree, heq⟩ := bind_eq_ok hstep
  rw [Except.ok.injEq] at heq
  subst heq
  have hbase : pool'.baseAddr = pool.baseAddr := hinv'.holds.baseAddr
  have hpages : pool'.pageCount = pool.pageCount :=
    hinv'.holds.pageCount.trans hcount.symm
  refine ⟨pool', hfree, hbase, hpages, k, words, by rwa [hbase], ?_⟩
  rw [hbase, owns_congr hbase hpages, ← List.erase_filter]
  exact hinv'

theorem PoolsInv.frees (h : PoolsInv s) (ha : a ∈ s.live)
    (hends : ∀ pool ∈ s.pools, owns pool a = true → EndComparable pool a) :
    Frees s a := by
  obtain ⟨before, pool, after, hpools, howns, hgood, hfree⟩ :=
    h.exists_owner ha
  have hmem : pool ∈ s.pools := by
    rw [hpools]
    simp
  obtain ⟨pool', hpool', -⟩ := hgood.free ha howns (hends pool hmem howns)
  refine ⟨before, pool, after, pool', hpools, howns, hpool', ?_⟩
  rw [hfree, hpool']
  rfl

theorem PoolsInv.free (h : PoolsInv s) (ha : a ∈ s.live)
    {pools' : List PagePool}
    (hfree : pmmFree s.pools a.ptr a.rounded = .ok pools') :
    PoolsInv ⟨pools', s.live.erase a⟩ := by
  obtain ⟨before, pool, after, hpools, howns, hgood, heq⟩ :=
    h.exists_owner ha
  rw [heq] at hfree
  obtain ⟨pool'', hresult, hlist⟩ := bind_eq_ok hfree
  rw [Except.ok.injEq] at hlist
  subst hlist
  have hends := (hgood.endsInside_iff ha howns).mp
    (le_of_freeFromPool (hgood.ptr_ne_zero howns) hresult)
  obtain ⟨pool', hpool', hbase, hpages, hgood'⟩ := hgood.free ha howns hends
  rw [hresult, Except.ok.injEq] at hpool'
  subst hpool'
  refine h.replace hpools hbase hpages hgood' ?_ ?_
  · intro q hq
    have hnot : a ∉ s.live.filter (owns q) := by
      rw [List.mem_filter, h.not_owns hpools howns q hq]
      simp
    rw [← List.erase_filter, List.erase_of_not_mem hnot]
  · intro b hb
    exact Or.inl (List.mem_of_mem_erase hb)

end Free

theorem poolsInv_of_starts {s : PmmState} (h : s.Starts) : PoolsInv s := by
  obtain ⟨hpools, hlive⟩ := h
  constructor
  · simp [hpools]
  · simp [hpools]
  · simp [hlive]

theorem PoolsInv.step {s s' : PmmState} {op : PmmOp} (h : PoolsInv s)
    (hadmits : s.Admits op) (hstep : s.step op = .ok s') : PoolsInv s' := by
  cases op with
  | register heapAlloc fuel base n =>
      obtain ⟨pools, hpools, heq⟩ := bind_eq_ok hstep
      rw [Except.ok.injEq] at heq
      exact heq ▸ h.register hadmits hpools
  | alloc count =>
      obtain ⟨next, hnext, hinv⟩ := h.alloc hadmits
      rw [hstep, Except.ok.injEq] at hnext
      exact hnext ▸ hinv
  | free a =>
      obtain ⟨pools, hpools, heq⟩ := bind_eq_ok hstep
      rw [Except.ok.injEq] at heq
      exact heq ▸ h.free hadmits hpools

theorem poolsInv_of_reachable {s : PmmState}
    (hreach : TransitionRun.Reachable PmmState.Starts PmmState.Admits
      PmmState.step s) : PoolsInv s :=
  hreach.invariant (fun _ hstarts => poolsInv_of_starts hstarts)
    fun _ _ _ hinv hadmits hstep => hinv.step hadmits hstep

/-- In every reachable state, exactly the live blocks whose pool ends below
4 GiB, or which end together with it there, are freed in their pool. -/
theorem pmmFree_live_iff {s : PmmState} {a : Allocation}
    (hreach : TransitionRun.Reachable PmmState.Starts PmmState.Admits
      PmmState.step s) (ha : a ∈ s.live) :
    Frees s a ↔
      ∀ pool ∈ s.pools, owns pool a = true → EndComparable pool a := by
  have hinv := poolsInv_of_reachable hreach
  constructor
  · rintro ⟨before, pool, after, pool', hpools, howns, hfree, -⟩ q hq hq'
    have hmem : pool ∈ s.pools := by
      rw [hpools]
      simp
    have hsame := hinv.owner_unique hmem hq howns hq'
    subst hsame
    have hgood := hinv.good pool hmem
    exact (hgood.endsInside_iff ha howns).mp
      (le_of_freeFromPool (hgood.ptr_ne_zero howns) hfree)
  · exact hinv.frees ha

/-- Two pages are registered at `base` and one is allocated. -/
def onePageTaken (base : ℕ) : PmmState :=
  ⟨[⟨⟨[4]⟩, base, 2⟩], [⟨base, 1, 1⟩]⟩

theorem reachable_onePageTaken {base : ℕ}
    (hfits : base + 2 * 4096 ≤ 4294967296)
    (hregister : (⟨[], []⟩ : PmmState).step
      (.register (fun _ _ => true) 3 base 2) =
        .ok ⟨[⟨⟨[1]⟩, base, 2⟩], []⟩)
    (halloc : (⟨[⟨⟨[1]⟩, base, 2⟩], []⟩ : PmmState).step (.alloc 1) =
      .ok (onePageTaken base)) :
    TransitionRun.Reachable PmmState.Starts PmmState.Admits PmmState.step
      (onePageTaken base) :=
  ((TransitionRun.Reachable.start (s := ⟨[], []⟩) ⟨rfl, rfl⟩).next
    (a := .register (fun _ _ => true) 3 base 2) ⟨hfits, by simp⟩
    hregister).next (a := .alloc 1) le_rfl halloc

theorem pmmFree_live_at_one_mib : Frees (onePageTaken 0x100000)
    ⟨0x100000, 1, 1⟩ := by
  refine (pmmFree_live_iff (reachable_onePageTaken (by decide)
    (by decide +kernel) (by decide +kernel))
    (List.mem_singleton_self _)).mpr ?_
  intro pool hpool
  rw [onePageTaken, List.mem_singleton] at hpool
  subst hpool
  intro _ htop
  simp [archPageSize] at htop

/-- The last two pages below 4 GiB: the first of them cannot be freed. -/
theorem pmmFree_below_top_panics :
    TransitionRun.Reachable PmmState.Starts PmmState.Admits PmmState.step
        (onePageTaken 0xffffe000) ∧
      (⟨0xffffe000, 1, 1⟩ : Allocation) ∈ (onePageTaken 0xffffe000).live ∧
      pmmFree (onePageTaken 0xffffe000).pools 0xffffe000 1 =
        .error (.panic "pmm: bad free") :=
  ⟨reachable_onePageTaken (by decide) (by decide +kernel)
    (by decide +kernel), List.mem_singleton_self _, by decide +kernel⟩

end Pmm
end Yjkos
