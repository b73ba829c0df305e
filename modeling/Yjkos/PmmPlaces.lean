import Yjkos.PmmPools

/-!
# Where blocks lie

The buddy allocator places a block relative to the base of its pool.  So a
block of 16 pages is in one 64 KiB window exactly when its pool starts at a
multiple of 64 KiB, and for that only the bases of the registered regions
matter.
-/

namespace Yjkos
namespace Pmm

/-- The bytes of a window. -/
def windowSize : ℕ := 65536

/-- The pages of a window. -/
def windowPages : ℕ := 16

/-- The first and the last byte of a block of 64 KiB have the same window. -/
def InWindow (ptr : ℕ) : Prop :=
  ptr / windowSize = (ptr + (windowSize - 1)) / windowSize

instance (ptr : ℕ) : Decidable (InWindow ptr) := Nat.decEq _ _

theorem inWindow_iff {ptr : ℕ} : InWindow ptr ↔ windowSize ∣ ptr := by
  unfold InWindow windowSize
  omega

/-- The base and the page count of every pool. -/
def places (pools : List PagePool) : List (ℕ × ℕ) :=
  pools.map (fun pool => (pool.baseAddr, pool.pageCount))

/-- Every pool which a window fits in starts with a window. -/
def WindowAligned (pools : List PagePool) : Prop :=
  ∀ pool ∈ pools, windowPages ≤ pool.pageCount → windowSize ∣ pool.baseAddr

section Blocks

variable {s : PmmState} {a b : Allocation} {count result written : ℕ}
  {pools : List PagePool}

/-- A live block is at a multiple of its size from the base of its pool. -/
theorem PoolsInv.placed (h : PoolsInv s) (ha : a ∈ s.live) :
    ∃ pool ∈ s.pools, owns pool a = true ∧ a.rounded ≤ pool.pageCount ∧
      a.rounded = 2 ^ Nat.clog 2 a.requested ∧
      ∃ index, a.ptr = pool.baseAddr + index * a.rounded * archPageSize := by
  obtain ⟨pool, hpool, howns⟩ := h.owned a ha
  obtain ⟨k, words, hrange, hinv⟩ := h.good pool hpool
  obtain ⟨r, index, hblock⟩ := hinv.blocks a (List.mem_filter.2 ⟨ha, howns⟩)
  refine ⟨pool, hpool, howns, ?_, ?_, index, ?_⟩
  · have hcount : pool.pageCount = 2 ^ k := hinv.holds.pageCount
    rw [hblock.rounded, hcount]
    exact Nat.pow_le_pow_right Nat.two_pos hblock.order_le
  · rw [hblock.requested, hblock.rounded]
  · rw [hblock.rounded]
    exact hblock.ptr

/-- Two blocks have no byte in common. -/
def Apart (a b : Allocation) : Prop :=
  a.ptr + a.rounded * archPageSize ≤ b.ptr ∨
    b.ptr + b.rounded * archPageSize ≤ a.ptr

/-- Whole pages of a pool which have none in common. -/
theorem apart_of_disjoint {base i j m n : ℕ} (hm : 0 < m) (hn : 0 < n)
    (ha : a.ptr = base + i * archPageSize) (hb : b.ptr = base + j * archPageSize)
    (hra : a.rounded = m) (hrb : b.rounded = n)
    (h : Disjoint (a.pages base) (b.pages base)) : Apart a b := by
  by_contra hnot
  unfold Apart at hnot
  unfold archPageSize at ha hb hnot
  have hmem : ∀ c : Allocation, ∀ k l, c.ptr = base + k * 4096 →
      c.rounded = l → k ≤ max i j → max i j < k + l →
      max i j ∈ c.pages base := by
    intro c k l hc hrc hle hlt
    refine ⟨?_, ?_⟩
    · unfold archPageSize
      omega
    · unfold archPageSize
      omega
  have hpage := hmem a i m ha hra (le_max_left i j) (by omega)
  have hpage' := hmem b j n hb hrb (le_max_right i j) (by omega)
  exact Set.disjoint_left.1 h hpage hpage'

theorem PoolGood.apart {live : List Allocation} {pool : PagePool}
    (h : PoolGood live pool) :
    (live.filter (owns pool)).Pairwise Apart := by
  obtain ⟨k, words, hrange, hinv⟩ := h
  refine hinv.disjoint.imp_of_mem ?_
  intro a b ha hb hdisjoint
  obtain ⟨r, index, hblock⟩ := hinv.blocks a ha
  obtain ⟨r', index', hblock'⟩ := hinv.blocks b hb
  exact apart_of_disjoint (Nat.two_pow_pos r) (Nat.two_pow_pos r')
    hblock.ptr hblock'.ptr hblock.rounded hblock'.rounded hdisjoint

/-- A live block lies in its pool. -/
theorem PoolsInv.block_in_pool (h : PoolsInv s) (ha : a ∈ s.live)
    {pool : PagePool} (hpool : pool ∈ s.pools) (howns : owns pool a = true) :
    pool.baseAddr ≤ a.ptr ∧ 0 < a.rounded ∧
      a.ptr + a.rounded * archPageSize ≤
        pool.baseAddr + pool.pageCount * archPageSize := by
  obtain ⟨k, words, hrange, hinv⟩ := h.good pool hpool
  obtain ⟨r, index, hblock⟩ := hinv.blocks a (List.mem_filter.2 ⟨ha, howns⟩)
  have hcount : pool.pageCount = 2 ^ k := hinv.holds.pageCount
  have hend : (index + 1) * 2 ^ r ≤ 2 ^ (k - r) * 2 ^ r :=
    Nat.mul_le_mul_right _ hblock.index_lt
  rw [← pow_add, Nat.sub_add_cancel hblock.order_le, add_mul, one_mul] at hend
  rw [hblock.ptr, hblock.rounded, hcount]
  refine ⟨Nat.le_add_right _ _, Nat.two_pow_pos r, ?_⟩
  unfold archPageSize
  omega

/-- Live blocks have no byte in common. -/
theorem PoolsInv.live_apart (h : PoolsInv s) : s.live.Pairwise Apart := by
  obtain ⟨hgood, hapart, howned⟩ := h
  have hinside : ∀ a ∈ s.live, ∀ pool ∈ s.pools, owns pool a = true →
      pool.baseAddr ≤ a.ptr ∧ 0 < a.rounded ∧
        a.ptr + a.rounded * archPageSize ≤
          pool.baseAddr + pool.pageCount * archPageSize :=
    fun a ha pool hpool howns =>
      PoolsInv.block_in_pool ⟨hgood, hapart, howned⟩ ha hpool howns
  have hpools : ∀ pool ∈ s.pools, ∀ pool' ∈ s.pools, pool ≠ pool' →
      Disjoint (addresses pool) (addresses pool') := by
    intro pool hpool pool' hpool' hne
    have hsymm : Std.Symm fun p q : PagePool =>
        Disjoint (addresses p) (addresses q) := ⟨fun _ _ hd => hd.symm⟩
    exact (List.pairwise_map.1 hapart).forall hpool hpool' hne
  have hfilter := fun pool hpool => (hgood pool hpool).apart
  generalize s.live = live at howned hinside hfilter
  induction live with
  | nil => exact List.Pairwise.nil
  | cons a rest ih =>
      refine List.pairwise_cons.2 ⟨?_, ih ?_ ?_ ?_⟩
      · intro b hb
        obtain ⟨pool, hpool, howns⟩ := howned a List.mem_cons_self
        obtain ⟨pool', hpool', howns'⟩ :=
          howned b (List.mem_cons_of_mem a hb)
        by_cases heq : pool = pool'
        · subst heq
          have hpair := hfilter pool hpool
          rw [List.filter_cons_of_pos howns, List.pairwise_cons] at hpair
          exact hpair.1 b (List.mem_filter.2 ⟨hb, howns'⟩)
        · by_contra hnot
          have hin := hinside a List.mem_cons_self pool hpool howns
          have hin' := hinside b (List.mem_cons_of_mem a hb) pool' hpool'
            howns'
          unfold Apart archPageSize at hnot
          unfold archPageSize at hin hin'
          -- the start of the later block is in both pools
          exact Set.disjoint_left.1 (hpools pool hpool pool' hpool' heq)
            (show max a.ptr b.ptr ∈ addresses pool from
              ⟨by omega, by unfold archPageSize; omega⟩)
            (show max a.ptr b.ptr ∈ addresses pool' from
              ⟨by omega, by unfold archPageSize; omega⟩)
      · exact fun b hb => howned b (List.mem_cons_of_mem a hb)
      · exact fun b hb => hinside b (List.mem_cons_of_mem a hb)
      · intro pool hpool
        exact (hfilter pool hpool).sublist
          ((List.sublist_cons_self a rest).filter _)

theorem places_allocLoop {live : List Allocation}
    (hgood : ∀ pool ∈ pools, PoolGood live pool) (hcount : 1 ≤ count)
    {pools' : List PagePool}
    (h : pmmAllocLoop count pools = .ok (result, written, pools')) :
    places pools' = places pools ∧ (result = 0 → pools' = pools) := by
  rcases pmmAllocLoop_spec hgood hcount with ⟨n, hnone⟩ |
    ⟨before, pool, after, out, rfl, hout, hne, hloop⟩
  · rw [hnone] at h
    cases h
    exact ⟨rfl, fun _ => rfl⟩
  · rw [hloop] at h
    cases h
    refine ⟨?_, fun hzero => absurd hzero hne⟩
    obtain ⟨k, words, hrange, hinv⟩ :=
      hgood pool (List.mem_append_right _ List.mem_cons_self)
    have hplace : (out.pool.baseAddr, out.pool.pageCount) =
        (pool.baseAddr, pool.pageCount) := by
      rcases allocFromPool_spec hrange hinv.holds hcount with
        ⟨n, hresult⟩ | ⟨a, r, index, bitmap, hresult, -⟩
      · rw [hout] at hresult
        cases hresult
        rfl
      · rw [hout] at hresult
        cases hresult
        rfl
    unfold places
    rw [List.map_append, List.map_append, List.map_cons, List.map_cons, hplace]

/-- Either there is no room and nothing has changed, or a block is live which
was not before. -/
theorem PoolsInv.alloc_cases (h : PoolsInv s) (hcount : 1 ≤ count)
    (hcall : pmmAlloc s.pools count = .ok (result, written, pools)) :
    places pools = places s.pools ∧
      ((result = 0 ∧ pools = s.pools) ∨
        (result ≠ 0 ∧
          PoolsInv ⟨pools, ⟨result, count, written⟩ :: s.live⟩)) := by
  obtain ⟨_, hassert, hloop⟩ := bind_eq_ok hcall
  obtain ⟨hplaces, hsame⟩ := places_allocLoop h.good hcount hloop
  refine ⟨hplaces, ?_⟩
  obtain ⟨s', hstep, hinv⟩ := h.alloc hcount
  unfold PmmState.step at hstep
  dsimp only at hstep
  rw [hcall, ok_bind] at hstep
  dsimp only at hstep
  by_cases hzero : result = 0
  · exact .inl ⟨hzero, hsame hzero⟩
  · rw [if_neg hzero] at hstep
    cases hstep
    exact .inr ⟨hzero, hinv⟩

/-- A block of 16 pages is in one window exactly when its pool starts with
one. -/
theorem PoolsInv.inWindow_iff (h : PoolsInv s) (ha : a ∈ s.live)
    (hpages : a.requested = windowPages) :
    InWindow a.ptr ↔
      ∀ pool ∈ s.pools, owns pool a = true → windowSize ∣ pool.baseAddr := by
  obtain ⟨pool, hpool, howns, -, hrounded, index, hptr⟩ := h.placed ha
  have hclog : Nat.clog 2 windowPages = 4 := by decide
  rw [hpages, hclog] at hrounded
  rw [Pmm.inWindow_iff, hptr, hrounded]
  have hsame : windowSize ∣ pool.baseAddr + index * 2 ^ 4 * archPageSize ↔
      windowSize ∣ pool.baseAddr := by
    unfold windowSize archPageSize
    omega
  rw [hsame]
  constructor
  · intro hdvd other hother howns'
    rw [← h.owner_unique hpool hother howns howns']
    exact hdvd
  · exact fun hall => hall pool hpool howns

theorem WindowAligned.inWindow (haligned : WindowAligned s.pools)
    (h : PoolsInv s) (ha : a ∈ s.live) (hpages : a.requested = windowPages) :
    InWindow a.ptr := by
  rw [h.inWindow_iff ha hpages]
  intro other hother howns'
  obtain ⟨pool, hpool, howns, hle, hrounded, -⟩ := h.placed ha
  have hclog : Nat.clog 2 windowPages = 4 := by decide
  rw [hpages, hclog] at hrounded
  rw [← h.owner_unique hpool hother howns howns']
  refine haligned pool hpool ?_
  rw [hrounded] at hle
  exact hle

theorem windowAligned_congr {pools' : List PagePool}
    (h : places pools = places pools') :
    WindowAligned pools ↔ WindowAligned pools' := by
  have hiff : ∀ pools : List PagePool, WindowAligned pools ↔
      ∀ place ∈ places pools, windowPages ≤ place.2 →
        windowSize ∣ place.1 := by
    intro pools
    unfold WindowAligned places
    rw [List.forall_mem_map]
  rw [hiff, hiff, h]

end Blocks

/-! ## Regions -/

section Regions

variable {heapAlloc : ℕ → ℕ → Bool} {fuel attempt base n : ℕ}
  {pools pools' : List PagePool}

theorem windowAligned_cons {pool : PagePool} :
    WindowAligned (pool :: pools) ↔
      (windowPages ≤ pool.pageCount → windowSize ∣ pool.baseAddr) ∧
        WindowAligned pools :=
  List.forall_mem_cons

theorem windowPages_le_pow_log (hn : n ≠ 0) :
    windowPages ≤ 2 ^ Nat.log 2 n ↔ windowPages ≤ n := by
  have hfour : windowPages = 2 ^ 4 := by decide
  rw [hfour, Nat.pow_le_pow_iff_right Nat.one_lt_two,
    Nat.le_log_iff_pow_le Nat.one_lt_two hn]

/-- The largest pool comes first, so behind it windows start where they
did. -/
theorem windowSize_dvd_next (hn : windowPages ≤ 2 ^ Nat.log 2 n) :
    windowSize ∣ wrap (base + wrap (archPageSize * 2 ^ Nat.log 2 n)) ↔
      windowSize ∣ base := by
  have hfour : 4 ≤ Nat.log 2 n := by
    rw [← Nat.pow_le_pow_iff_right Nat.one_lt_two]
    exact hn
  obtain ⟨c, hc⟩ := Nat.pow_dvd_pow 2 hfour
  rw [hc]
  unfold windowSize archPageSize wrap
  omega

/-- Registering a region keeps the pools aligned exactly when the region is
short or starts with a window. -/
theorem registerMemLoop_aligned
    (hfits : n ≠ 0 → base + n * archPageSize ≤ 4294967296)
    (h : registerMemLoop heapAlloc fuel attempt base n pools = .ok pools') :
    WindowAligned pools' ↔
      (windowPages ≤ n → windowSize ∣ base) ∧ WindowAligned pools := by
  induction fuel generalizing attempt base n pools with
  | zero => cases h
  | succ fuel ih =>
      rw [registerMemLoop] at h
      by_cases hn : n = 0
      · rw [if_pos hn] at h
        cases h
        have hshort : ¬windowPages ≤ n := by
          rw [hn]
          decide
        exact ⟨fun haligned => ⟨fun hle => absurd hle hshort, haligned⟩,
          And.right⟩
      · have hroom := hfits hn
        unfold archPageSize at hroom
        obtain ⟨sizes, hsizes, hcount, -⟩ :=
          calculatePagepoolSizes_spec (Nat.pos_of_ne_zero hn) (by omega)
        rw [if_neg hn, hsizes, ok_bind] at h
        dsimp only at h
        split at h
        next =>
          obtain ⟨_, -, h⟩ := bind_eq_ok h
          obtain ⟨bitmap, -, h⟩ := bind_eq_ok h
          have hpow : 2 ^ Nat.log 2 n ≤ n := Nat.pow_log_le_self 2 hn
          have hpos : 0 < 2 ^ Nat.log 2 n := Nat.two_pow_pos _
          have hlarge := windowPages_le_pow_log hn
          have hnext := @windowSize_dvd_next base n
          rw [hcount] at h
          generalize 2 ^ Nat.log 2 n = size at *
          have hleft : wrap (n + 4294967296 - size) = n - size := by
            unfold wrap
            omega
          rw [hleft] at h
          have hmore : n - size ≠ 0 →
              wrap (base + wrap (archPageSize * size)) +
                (n - size) * archPageSize ≤ 4294967296 := by
            unfold archPageSize wrap
            omega
          have hrest := ih hmore h
          rw [hrest, windowAligned_cons]
          dsimp only
          rw [← and_assoc]
          refine and_congr_left fun _ => ?_
          constructor
          · rintro ⟨-, hfirst⟩ hle
            exact hfirst (hlarge.2 hle)
          · intro hall
            refine ⟨fun hle => ?_, fun hle => hall (hlarge.1 hle)⟩
            have hle' : windowPages ≤ n := by omega
            exact (hnext (hlarge.2 hle')).2 (hall hle')
        next => exact ih hfits h

theorem pmmRegisterMem_aligned
    (hfits : base + n * archPageSize ≤ 4294967296)
    (h : pmmRegisterMem heapAlloc fuel base n pools = .ok pools') :
    WindowAligned pools' ↔
      (windowPages ≤ n → windowSize ∣ base) ∧ WindowAligned pools := by
  obtain ⟨_, -, hloop⟩ := bind_eq_ok h
  exact registerMemLoop_aligned (fun _ => hfits) hloop

end Regions

/-! ## Runs -/

/-- A region which a window fits in starts with one. -/
def RegionAligned : PmmOp → Prop
  | .register _ _ base n => windowPages ≤ n → windowSize ∣ base
  | _ => True

theorem places_free {s : PmmState} (h : PoolsInv s) {a : Allocation}
    (ha : a ∈ s.live) {pools : List PagePool}
    (hfree : pmmFree s.pools a.ptr a.rounded = .ok pools) :
    places pools = places s.pools := by
  obtain ⟨before, pool, after, hpools, howns, hgood, heq⟩ := h.exists_owner ha
  rw [heq] at hfree
  obtain ⟨pool', hresult, hlist⟩ := bind_eq_ok hfree
  cases hlist
  have hends := (hgood.endsInside_iff ha howns).1
    (le_of_freeFromPool (hgood.ptr_ne_zero howns) hresult)
  obtain ⟨pool'', hpool', hbase, hpages, -⟩ := hgood.free ha howns hends
  rw [hresult] at hpool'
  cases hpool'
  unfold places
  rw [hpools, List.map_append, List.map_append, List.map_cons, List.map_cons,
    hbase, hpages]

structure AlignedPools (s : PmmState) : Prop where
  inv : PoolsInv s
  aligned : WindowAligned s.pools

/-- In every run which registers only aligned or short regions, the pools are
aligned. -/
theorem alignedPools_of_reachable {s : PmmState}
    (hreach : TransitionRun.Reachable PmmState.Starts
      (fun s op => s.Admits op ∧ RegionAligned op) PmmState.step s) :
    AlignedPools s := by
  apply hreach.invariant
  · intro s hstarts
    refine ⟨poolsInv_of_starts hstarts, ?_⟩
    rw [hstarts.1]
    exact List.forall_mem_nil _
  · rintro s op s' ⟨hinv, haligned⟩ ⟨hadmits, hregion⟩ hstep
    refine ⟨hinv.step hadmits hstep, ?_⟩
    cases op with
    | register heapAlloc fuel base n =>
        obtain ⟨pools, hpools, heq⟩ := bind_eq_ok hstep
        cases heq
        exact (pmmRegisterMem_aligned hadmits.1 hpools).2 ⟨hregion, haligned⟩
    | alloc count =>
        obtain ⟨⟨result, written, pools⟩, hcall, heq⟩ := bind_eq_ok hstep
        have hplaces := (hinv.alloc_cases hadmits hcall).1
        dsimp only at heq
        split at heq
        all_goals
          cases heq
          exact (windowAligned_congr hplaces).2 haligned
    | free a =>
        obtain ⟨pools, hfree, heq⟩ := bind_eq_ok hstep
        cases heq
        exact (windowAligned_congr (places_free hinv hadmits hfree)).2 haligned

end Pmm
end Yjkos
