import Yjkos.BinaryOnes
import Yjkos.PmmRegister

/-!
# Retries of `pmm_register_mem`

A failed allocation of metadata only continues the loop, with the same pages
remaining.  Each pool takes the largest power of two of them, so there is one
pool for each one of the page count in binary, and the loop comes to an end
exactly when that many attempts succeed.
-/

namespace Yjkos
namespace Pmm

open BinaryOnes

/-! ## Sizes -/

theorem calculatePagepoolSizesLoop_pages :
    ∀ (fuel n : ℕ) (sizes : PagepoolSizes), 0 < n → Nat.log 2 n < fuel →
      sizes.pageCount * 2 ^ Nat.log 2 n < 4294967296 →
      ∃ result, calculatePagepoolSizesLoop fuel n sizes = .ok result ∧
        result.pageCount = sizes.pageCount * 2 ^ Nat.log 2 n := by
  intro fuel
  induction fuel with
  | zero =>
      intro n sizes _ hfuel
      omega
  | succ fuel ih =>
      intro n sizes hn hfuel hpages
      rw [calculatePagepoolSizesLoop]
      by_cases hone : 1 < n
      · have hlog := log_half hone
        rw [hlog, pow_succ'] at hpages
        rw [← Nat.mul_assoc] at hpages
        have hdouble : sizes.pageCount * 2 < 4294967296 :=
          (Nat.le_mul_of_pos_right _ (by positivity)).trans_lt hpages
        rw [if_pos hone, wrap_of_lt hdouble]
        obtain ⟨result, hloop, hresult⟩ := ih (n / 2)
          ⟨sizes.pageCount * 2, wrap (sizes.levelCount + 1),
            wrap (sizes.bitCount + n)⟩ (by omega) (by omega) hpages
        refine ⟨result, hloop, ?_⟩
        rw [hresult, hlog, pow_succ', ← Nat.mul_assoc]
      · obtain rfl : n = 1 := by omega
        rw [if_neg hone]
        exact ⟨sizes, rfl, by simp⟩

theorem log_lt_of_word {n : ℕ} (hn : 0 < n) (hlt : n < 4294967296) :
    Nat.log 2 n < 32 :=
  Nat.log_lt_of_lt_pow (by omega) (by simpa using hlt)

theorem calculatePagepoolSizes_pages {n : ℕ} (hn : 0 < n)
    (hlt : n < 4294967296) :
    ∃ sizes, calculatePagepoolSizes n = .ok sizes ∧
      sizes.pageCount = 2 ^ Nat.log 2 n := by
  have hlog := log_lt_of_word hn hlt
  have hpow : 2 ^ Nat.log 2 n ≤ n := Nat.pow_log_le_self 2 (by omega)
  obtain ⟨sizes, hloop, hpages⟩ := calculatePagepoolSizesLoop_pages 33 n
    ⟨1, 1, 1⟩ hn (by omega) (by simp only; omega)
  exact ⟨sizes, hloop, by simpa using hpages⟩

/-- The bytes which are asked for when `n` pages remain. -/
def requestFor (n : ℕ) : ℕ :=
  match calculatePagepoolSizes n with
  | .ok sizes => metadataSize (Bitmap.neededWordCount sizes.bitCount)
  | .error _ => 0

theorem markFirstLevel_ok (wordCount : ℕ) :
    ∃ bitmap, markFirstLevel wordCount = .ok bitmap := by
  unfold markFirstLevel
  split
  next => exact ⟨_, rfl⟩
  next hwords =>
    have hroom : 0 < (Bitmap.zeroed wordCount).bitCount := by
      rw [Bitmap.zeroed_bitCount]
      omega
    exact ⟨_, Bitmap.bitmapSetBit_of_lt hroom⟩

/-! ## One round -/

section Round

variable {heapAlloc : ℕ → ℕ → Bool} {attempt base n : ℕ}
  {pools : List PagePool}

theorem registerMemLoop_refused (hn : 0 < n) (hlt : n < 4294967296)
    (hrefused : heapAlloc attempt (requestFor n) = false) (fuel : ℕ) :
    registerMemLoop heapAlloc (fuel + 1) attempt base n pools =
      registerMemLoop heapAlloc fuel (attempt + 1) base n pools := by
  obtain ⟨sizes, hsizes, -⟩ := calculatePagepoolSizes_pages hn hlt
  simp only [requestFor, hsizes] at hrefused
  rw [registerMemLoop, if_neg (by omega), hsizes]
  simp only [ok_bind, hrefused, Bool.false_eq_true, if_false]

/-- A heap which grants nothing keeps the loop going. -/
theorem registerMemLoop_never (hn : 0 < n) (hlt : n < 4294967296)
    (fuel attempt : ℕ) (pools : List PagePool) :
    registerMemLoop (fun _ _ => false) fuel attempt base n pools =
      .error .outOfFuel := by
  induction fuel generalizing attempt with
  | zero => rfl
  | succ fuel ih => rw [registerMemLoop_refused hn hlt rfl, ih]

/-- A pool whose base is not aligned ends the loop with an assertion. -/
theorem registerMemLoop_unaligned (hn : 0 < n) (hlt : n < 4294967296)
    (hgranted : heapAlloc attempt (requestFor n) = true)
    (hbase : base % archPageSize ≠ 0) (fuel : ℕ) :
    registerMemLoop heapAlloc (fuel + 1) attempt base n pools =
      .error (.assertion "(pool->base_addr % ARCH_PAGESIZE) == 0") := by
  obtain ⟨sizes, hsizes, -⟩ := calculatePagepoolSizes_pages hn hlt
  simp only [requestFor, hsizes] at hgranted
  rw [registerMemLoop, if_neg (by omega), hsizes]
  simp only [ok_bind, hgranted, if_true, decide_eq_false hbase, cAssert_false]
  rfl

/-- A pool which gets its metadata takes the largest power of two of the
pages, whatever the heap. -/
theorem registerMemLoop_granted (hn : 0 < n) (hlt : n < 4294967296)
    (hbase : base % archPageSize = 0) :
    ∃ pool next, next % archPageSize = 0 ∧
      ∀ (heapAlloc : ℕ → ℕ → Bool) (attempt : ℕ) (pools : List PagePool)
        (fuel : ℕ), heapAlloc attempt (requestFor n) = true →
        registerMemLoop heapAlloc (fuel + 1) attempt base n pools =
          registerMemLoop heapAlloc fuel (attempt + 1) next
            (n - 2 ^ Nat.log 2 n) (pool :: pools) := by
  obtain ⟨sizes, hsizes, hpages⟩ := calculatePagepoolSizes_pages hn hlt
  obtain ⟨bitmap, hbitmap⟩ :=
    markFirstLevel_ok (Bitmap.neededWordCount sizes.bitCount)
  have hpow : 2 ^ Nat.log 2 n ≤ n := Nat.pow_log_le_self 2 (by omega)
  have hleft : wrap (n + 4294967296 - sizes.pageCount) =
      n - 2 ^ Nat.log 2 n := by
    rw [hpages]
    unfold wrap
    omega
  refine ⟨⟨bitmap, base, sizes.pageCount⟩,
    wrap (base + wrap (archPageSize * sizes.pageCount)), ?_, ?_⟩
  · unfold wrap archPageSize at *
    omega
  · intro heapAlloc attempt pools fuel hgranted
    simp only [requestFor, hsizes] at hgranted
    rw [registerMemLoop, if_neg (by omega), hsizes]
    simp only [ok_bind, hgranted, if_true,
      cAssert_of (decide_eq_true hbase), hbitmap, hleft]

end Round

/-! ## The pattern of a heap -/

/-- A heap which serves an attempt by its number, whatever is asked for. -/
def heapOf (grants : ℕ → Bool) (attempt _size : ℕ) : Bool := grants attempt

section Pattern

variable {heapAlloc : ℕ → ℕ → Bool} {pageCount : ℕ}

/-- The pages which remain in front of an attempt. -/
def remainingAt (heapAlloc : ℕ → ℕ → Bool) (pageCount : ℕ) : ℕ → ℕ
  | 0 => pageCount
  | attempt + 1 =>
      let n := remainingAt heapAlloc pageCount attempt
      if heapAlloc attempt (requestFor n) then n - 2 ^ Nat.log 2 n else n

/-- Whether each attempt of a call succeeds, when the heap looks at the size
as well. -/
def patternOf (heapAlloc : ℕ → ℕ → Bool) (pageCount attempt : ℕ) : Bool :=
  heapAlloc attempt (requestFor (remainingAt heapAlloc pageCount attempt))

theorem remainingAt_le (heapAlloc : ℕ → ℕ → Bool) (pageCount attempt : ℕ) :
    remainingAt heapAlloc pageCount attempt ≤ pageCount := by
  induction attempt with
  | zero => exact le_rfl
  | succ attempt ih =>
      rw [remainingAt]
      split
      next => exact (Nat.sub_le _ _).trans ih
      next => exact ih

/-- A call cannot tell the heap from its pattern. -/
theorem registerMemLoop_patternOf (hcount : pageCount < 4294967296)
    (fuel attempt base : ℕ) (pools : List PagePool) :
    registerMemLoop heapAlloc fuel attempt base
        (remainingAt heapAlloc pageCount attempt) pools =
      registerMemLoop (heapOf (patternOf heapAlloc pageCount)) fuel
        attempt base (remainingAt heapAlloc pageCount attempt) pools := by
  induction fuel generalizing attempt base pools with
  | zero => rfl
  | succ fuel ih =>
      rcases Nat.eq_zero_or_pos (remainingAt heapAlloc pageCount attempt)
        with hzero | hn
      · rw [hzero]
        rfl
      have hlt : remainingAt heapAlloc pageCount attempt < 4294967296 :=
        (remainingAt_le heapAlloc pageCount attempt).trans_lt hcount
      have hlater := ih (attempt + 1)
      have hpattern : heapOf (patternOf heapAlloc pageCount) attempt
            (requestFor (remainingAt heapAlloc pageCount attempt)) =
          heapAlloc attempt
            (requestFor (remainingAt heapAlloc pageCount attempt)) := rfl
      rw [remainingAt] at hlater
      cases hanswer : heapAlloc attempt
          (requestFor (remainingAt heapAlloc pageCount attempt)) with
      | false =>
          simp only [hanswer, Bool.false_eq_true, if_false] at hlater
          rw [hanswer] at hpattern
          rw [registerMemLoop_refused hn hlt hanswer, hlater]
          exact (registerMemLoop_refused hn hlt hpattern fuel).symm
      | true =>
          simp only [hanswer, if_true] at hlater
          rw [hanswer] at hpattern
          by_cases hbase : base % archPageSize = 0
          · obtain ⟨pool, next, -, hgranted⟩ :=
              registerMemLoop_granted hn hlt hbase
            rw [hgranted _ _ _ _ hanswer, hlater]
            exact (hgranted _ _ _ _ hpattern).symm
          · rw [registerMemLoop_unaligned hn hlt hanswer hbase]
            exact (registerMemLoop_unaligned hn hlt hpattern hbase fuel).symm

end Pattern

/-! ## The whole loop -/

section Loop

variable {grants : ℕ → Bool} {attempt base n : ℕ}

/-- The pools which are set up before the loop ends: one for each one of the
page count; where the base is not aligned the first one fails an assertion. -/
def poolsOf (base pageCount : ℕ) : ℕ :=
  if base % archPageSize = 0 then ones pageCount else min pageCount 1

/-- The attempts which succeed among the `k` next ones. -/
def granted (grants : ℕ → Bool) (attempt k : ℕ) : ℕ :=
  Nat.count (fun i => grants (attempt + i) = true) k

theorem granted_succ (grants : ℕ → Bool) (attempt k : ℕ) :
    granted grants attempt (k + 1) =
      granted grants (attempt + 1) k + if grants attempt then 1 else 0 := by
  unfold granted
  rw [Nat.count_succ']
  simp only [Nat.add_right_comm attempt 1, Nat.add_assoc attempt, Nat.add_zero]

theorem granted_of_ends {pools : List PagePool} (hlt : n < 4294967296)
    {fuel : ℕ}
    (hends : registerMemLoop (heapOf grants) fuel attempt base n pools ≠
      .error .outOfFuel) :
    ∃ k, poolsOf base n ≤ granted grants attempt k := by
  induction fuel generalizing attempt base n pools with
  | zero => exact absurd rfl hends
  | succ fuel ih =>
      rcases Nat.eq_zero_or_pos n with rfl | hn
      · exact ⟨0, by simp [poolsOf, ones_zero]⟩
      cases hanswer : grants attempt with
      | false =>
          rw [registerMemLoop_refused hn hlt hanswer] at hends
          obtain ⟨k, hk⟩ := ih hlt hends
          refine ⟨k + 1, ?_⟩
          rw [granted_succ]
          omega
      | true =>
          by_cases hbase : base % archPageSize = 0
          · obtain ⟨pool, next, hnext, hloop⟩ :=
              registerMemLoop_granted hn hlt hbase
            rw [hloop _ _ _ _ hanswer] at hends
            obtain ⟨k, hk⟩ := ih ((Nat.sub_le _ _).trans_lt hlt) hends
            refine ⟨k + 1, ?_⟩
            rw [poolsOf, if_pos hnext] at hk
            rw [poolsOf, if_pos hbase, ones_of_pos hn, granted_succ, hanswer,
              if_pos rfl]
            omega
          · refine ⟨1, ?_⟩
            rw [poolsOf, if_neg hbase, granted_succ, hanswer, if_pos rfl]
            omega

theorem ends_of_granted {k : ℕ} (hlt : n < 4294967296)
    (h : poolsOf base n ≤ granted grants attempt k) (pools : List PagePool) :
    ∃ fuel, registerMemLoop (heapOf grants) fuel attempt base n pools ≠
      .error .outOfFuel := by
  rcases Nat.eq_zero_or_pos n with rfl | hn
  · exact ⟨1, by simp [registerMemLoop]⟩
  -- the loop does a round for each attempt
  induction k generalizing attempt base n pools with
  | zero =>
      have hones := ones_pos hn
      rw [granted, Nat.count_zero, poolsOf] at h
      split at h <;> omega
  | succ k ih =>
      rw [granted_succ] at h
      cases hanswer : grants attempt with
      | false =>
          obtain ⟨fuel, hends⟩ := ih hlt (by simpa [hanswer] using h) pools hn
          exact ⟨fuel + 1, by rwa [registerMemLoop_refused hn hlt hanswer]⟩
      | true =>
          by_cases hbase : base % archPageSize = 0
          · obtain ⟨pool, next, hnext, hloop⟩ :=
              registerMemLoop_granted hn hlt hbase
            rw [hanswer, if_pos rfl, poolsOf, if_pos hbase, ones_of_pos hn]
              at h
            have hrest : poolsOf next (n - 2 ^ Nat.log 2 n) ≤
                granted grants (attempt + 1) k := by
              rw [poolsOf, if_pos hnext]
              omega
            rcases Nat.eq_zero_or_pos (n - 2 ^ Nat.log 2 n) with hzero | hpos
            · refine ⟨2, ?_⟩
              rw [hloop _ _ _ _ hanswer, hzero]
              simp [registerMemLoop]
            · obtain ⟨fuel, hends⟩ := ih ((Nat.sub_le _ _).trans_lt hlt)
                hrest (pool :: pools) hpos
              exact ⟨fuel + 1, by rwa [hloop _ _ _ _ hanswer]⟩
          · refine ⟨1, ?_⟩
            rw [registerMemLoop_unaligned hn hlt hanswer hbase]
            simp

theorem min_le_ones (n : ℕ) : min n 1 ≤ ones n := by
  rcases Nat.eq_zero_or_pos n with rfl | hn
  · exact Nat.zero_le _
  · exact (min_le_right n 1).trans (ones_pos hn)

theorem exists_granted_iff :
    (∃ k, poolsOf base n ≤ granted grants 0 k) ↔
      (base % archPageSize ≠ 0 ∧ ∃ attempt, grants attempt = true) ∨
        ∃ attempts, ones n ≤
          Nat.count (fun attempt => grants attempt = true) attempts := by
  simp only [granted, Nat.zero_add]
  by_cases hbase : base % archPageSize = 0
  · simp [poolsOf, hbase]
  rw [poolsOf, if_neg hbase]
  constructor
  · rintro ⟨k, hk⟩
    rcases Nat.eq_zero_or_pos n with rfl | hn
    · exact Or.inr ⟨0, le_rfl⟩
    · have hpos : 0 < Nat.count (fun i => grants i = true) k := by omega
      rw [Nat.count_eq_card_filter_range, Finset.card_pos] at hpos
      obtain ⟨attempt, hmem⟩ := hpos
      exact Or.inl ⟨hbase, attempt, (Finset.mem_filter.mp hmem).2⟩
  · rintro (⟨-, attempt, hattempt⟩ | ⟨k, hk⟩)
    · refine ⟨attempt + 1, ?_⟩
      rw [Nat.count_succ, if_pos hattempt]
      omega
    · exact ⟨k, (min_le_ones n).trans hk⟩

/-- `pmm_register_mem` comes to an end if and only if its assertion on the
base fails, or the assertion in the loop fails at the first success, or as
many attempts succeed as the page count has ones.  What a heap makes of the
sizes it is asked for comes to such a pattern. -/
theorem pmmRegisterMem_ends_iff {pageCount : ℕ}
    (hcount : pageCount < 4294967296) (base : ℕ) (pools : List PagePool) :
    (∀ grants : ℕ → Bool,
      (∃ fuel, pmmRegisterMem (heapOf grants) fuel base pageCount pools ≠
        .error .outOfFuel) ↔
      base = 0 ∨
        (base % archPageSize ≠ 0 ∧ ∃ attempt, grants attempt = true) ∨
        ∃ attempts, ones pageCount ≤
          Nat.count (fun attempt => grants attempt = true) attempts) ∧
    ∀ heapAlloc, ∃ grants, ∀ fuel,
      pmmRegisterMem heapAlloc fuel base pageCount pools =
        pmmRegisterMem (heapOf grants) fuel base pageCount pools := by
  refine ⟨fun grants => ?_, fun heapAlloc =>
    ⟨patternOf heapAlloc pageCount, fun fuel => ?_⟩⟩
  · by_cases hbase : base = 0
    · refine iff_of_true ⟨0, ?_⟩ (Or.inl hbase)
      rw [pmmRegisterMem, decide_eq_false (not_not.mpr hbase), cAssert_false]
      simp
    · rw [or_iff_right hbase, ← exists_granted_iff]
      simp only [pmmRegisterMem, cAssert_of (decide_eq_true hbase), ok_bind]
      constructor
      · rintro ⟨fuel, hends⟩
        exact granted_of_ends hcount hends
      · rintro ⟨k, hk⟩
        exact ends_of_granted hcount hk pools
  · unfold pmmRegisterMem
    congr 1
    funext _
    exact registerMemLoop_patternOf hcount fuel 0 base pools

/-- Three pages, where the second pool gets its metadata at the third
attempt. -/
theorem pmmRegisterMem_ends_three_pages :
    ∃ fuel, pmmRegisterMem (heapOf fun attempt => attempt != 1) fuel 4096 3
      [] ≠ .error .outOfFuel :=
  ((pmmRegisterMem_ends_iff (by decide) 4096 []).1 _).mpr
    (Or.inr (Or.inr ⟨3, by decide⟩))

/-- Without memory for metadata the loop goes round for ever. -/
theorem pmmRegisterMem_retries_forever :
    ¬∃ fuel, pmmRegisterMem (fun _ _ => false) fuel 4096 1 [] ≠
      .error .outOfFuel := by
  rintro ⟨fuel, hends⟩
  rw [pmmRegisterMem, cAssert_of (by decide), ok_bind] at hends
  exact hends (registerMemLoop_never (by decide) (by decide) fuel 0 [])

end Loop

end Pmm
end Yjkos
