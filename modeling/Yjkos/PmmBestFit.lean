import Yjkos.PmmPoolRun

/-!
# Best fit

Which block an allocation gets.  In a canonical bitmap every free block lies
in a marked one, so the search from the wanted level towards level 0 finds a
block whenever there is one, and the first it meets is the smallest.
-/

namespace Yjkos
namespace Pmm

open Buddy

/-- A free block whose parent is not free, or the free pool as a whole. -/
def PoolState.MaximalFree (k : ℕ) (s : PoolState) (level index : ℕ) : Prop :=
  s.BlockFree k level index ∧
    (level = 0 ∨ ¬s.BlockFree k (level - 1) (index / 2))

/-- Among the maximal free blocks which are not smaller than those of the
wanted level, the lowest of the smallest. -/
structure PoolState.BestFit (k : ℕ) (s : PoolState)
    (wanted level index : ℕ) : Prop where
  level_le : level ≤ wanted
  index_lt : index < 2 ^ level
  maximal : s.MaximalFree k level index
  smallest : ∀ level' index', level < level' → level' ≤ wanted →
    index' < 2 ^ level' → ¬s.MaximalFree k level' index'
  lowest : ∀ index', index' < index → ¬s.MaximalFree k level index'

section Search

variable {k base words wanted : ℕ} {s : PoolState}

theorem PoolInv.marks_iff (hinv : PoolInv k base words s) {level index : ℕ}
    (hlevel : level ≤ k) (hindex : index < 2 ^ level) :
    marks s.pool.bitmap level index = true ↔ s.MaximalFree k level index :=
  hinv.holds.canonical level index hlevel hindex

theorem PoolInv.bestFit_of_found (hinv : PoolInv k base words s)
    (hwanted : wanted ≤ k) {level index : ℕ}
    (hfound : IsFound s.pool.bitmap wanted level index) :
    s.BestFit k wanted level index := by
  have hlevel : level ≤ k := hfound.level_le.trans hwanted
  refine ⟨hfound.level_le, hfound.index_lt, ?_, ?_, ?_⟩
  · exact (hinv.marks_iff hlevel hfound.index_lt).mp hfound.marked
  · intro level' index' hgt hle hindex' hmax
    have hunmarked := hfound.finest level' index' hgt hle hindex'
    rw [(hinv.marks_iff (hle.trans hwanted) hindex').mpr hmax] at hunmarked
    contradiction
  · intro index' hlt hmax
    have hunmarked := hfound.first index' hlt
    rw [(hinv.marks_iff hlevel (hlt.trans hfound.index_lt)).mpr hmax]
      at hunmarked
    contradiction

/-- Without a mark on the levels of the search no block of the wanted level
is free. -/
theorem PoolInv.none_free (hinv : PoolInv k base words s)
    (hwanted : wanted ≤ k)
    (hnone : ∀ level index, level ≤ wanted → index < 2 ^ level →
      marks s.pool.bitmap level index = false) {index : ℕ}
    (hindex : index < 2 ^ wanted) : ¬s.BlockFree k wanted index := by
  intro hfree
  obtain ⟨up, hup, hmax⟩ := exists_maximal_of_free hwanted hfree
  have hlt : index / 2 ^ up < 2 ^ (wanted - up) := by
    rw [Nat.div_lt_iff_lt_mul (by positivity), ← pow_add,
      Nat.sub_add_cancel hup]
    exact hindex
  have hunmarked := hnone (wanted - up) _ (by omega) hlt
  rw [(hinv.marks_iff (by omega) hlt).mpr hmax] at hunmarked
  contradiction

end Search

/-- In every reachable state of a pool, an allocation fails exactly when no
aligned block of the rounded size is free, and leaves the pool as it is then.
Otherwise it takes the first pages of the best fit. -/
theorem allocFromPool_best_fit {k base words : ℕ} {s : PoolState}
    (hrange : PoolRange k base) (hroom : 2 * 2 ^ k - 1 ≤ words * 32)
    (hreach : TransitionRun.Reachable (PoolState.Fresh k base words)
      PoolState.Admits PoolState.step s)
    {count : ℕ} (hcount : 1 ≤ count) {r : ℕ} (hr : r = Nat.clog 2 count) :
    ∃ out, (allocFromPool s.pool count).result = .ok out ∧
      (out.result = 0 ↔ 2 ^ k < 2 ^ r ∨
        ∀ index < 2 ^ (k - r), ¬s.BlockFree k (k - r) index) ∧
      (out.result = 0 → out.pool = s.pool) ∧
      (out.result ≠ 0 → ∃ level index,
        s.BestFit k (k - r) level index ∧ out.pageCount = 2 ^ r ∧
        out.result = base + index * 2 ^ (k - level) * archPageSize ∧
        ∃ s', s.step (.alloc count) = .ok s' ∧ s'.pool = out.pool ∧
          s'.Consistent k base ∧
          s'.freePages k = s.freePages k \
            {page | index * 2 ^ (k - level) ≤ page ∧
              page < index * 2 ^ (k - level) + 2 ^ r}) := by
  have hroom' : 2 ^ (k + 1) - 1 ≤ words * 32 := by
    rw [pow_succ]
    omega
  have hinv := poolInv_reachable hrange hroom' hreach
  have hlow := hrange.low
  have hpages := hrange.pages_lt
  rw [allocFromPool_result hcount, hinv.holds.pageCount, ← hr]
  by_cases hlarge : k < r
  · -- the rounded size exceeds the pool
    have hlt : 2 ^ k < 2 ^ r := Nat.pow_lt_pow_right (by omega) hlarge
    refine ⟨⟨s.pool, 0, count⟩, ?_, ?_, fun _ => rfl,
      fun hne => absurd rfl hne⟩
    · rw [if_pos hlt, ite_self]
    · exact iff_of_true rfl (Or.inl hlt)
  · have hle : r ≤ k := not_lt.mp hlarge
    have hpow : 2 ^ r ≤ 2 ^ k := Nat.pow_le_pow_right (by omega) hle
    have hsmall : count ≤ 2 ^ 31 := by
      have hclog := Nat.le_pow_clog (b := 2) (by omega) count
      rw [← hr] at hclog
      omega
    rw [if_pos hsmall, if_neg (by omega)]
    rcases allocBlock_spec hrange hinv.holds hle with
      ⟨hresult, hnone⟩ | ⟨level, index, bitmap, hfound, hresult, hlt, hfree,
        hwords, hholds⟩
    · refine ⟨_, hresult, ?_, fun _ => rfl, fun hne => absurd rfl hne⟩
      refine iff_of_true rfl (Or.inr ?_)
      exact fun index hindex => hinv.none_free (by omega) hnone hindex
    · have hlevel := hfound.level_le
      have hscale : 2 ^ (k - r - level) * 2 ^ r = 2 ^ (k - level) := by
        rw [← pow_add]
        congr 1
        omega
      have hne : base + index * 2 ^ (k - r - level) * 2 ^ r * archPageSize ≠
          0 := by
        unfold archPageSize at hlow ⊢
        omega
      obtain ⟨s', hstep, hinv', hcases⟩ := hinv.alloc hrange hcount
      have hstepEq : s.step (.alloc count) = .ok ⟨{ s.pool with bitmap },
          ⟨base + index * 2 ^ (k - r - level) * 2 ^ r * archPageSize, count,
            2 ^ r⟩ :: s.live⟩ := by
        simp only [PoolState.step, allocFromPool_result hcount,
          hinv.holds.pageCount, ← hr, if_pos hsmall,
          if_neg (by omega : ¬2 ^ k < 2 ^ r), hresult, ok_bind, if_neg hne]
      rw [hstepEq, Except.ok.injEq] at hstep
      refine ⟨_, hresult, ?_, fun hzero => absurd hzero hne, fun _ => ?_⟩
      · refine iff_of_false hne (not_or.mpr ⟨by omega, ?_⟩)
        intro hnone
        exact hnone _ hlt fun page hpage => hfree hpage
      · refine ⟨level, index, hinv.bestFit_of_found (by omega) hfound, rfl,
          ?_, s', by rw [hstepEq, hstep], by rw [← hstep], hinv'.consistent,
          ?_⟩
        · rw [Nat.mul_assoc index, hscale]
        · have hfreeEq : s'.freePages k = s.freePages k \
              Block k (k - r) (index * 2 ^ (k - r - level)) := by
            rw [← hstep]
            exact freePages_cons ⟨hle, hlt, rfl, rfl, hr.symm⟩
              hinv.holds.baseAddr hholds.baseAddr
          rw [hfreeEq]
          congr 1
          ext page
          rw [mem_block_iff_range, Nat.sub_sub_self hle, Nat.mul_assoc index,
            hscale]
          rfl

/-- Two pages are taken from the third page on: the first page alone is too
small, and the last four pages stay together. -/
theorem allocFromPool_of_usedPool :
    ∃ out, (allocFromPool usedPool.pool 2).result = .ok out ∧
      out.result = 12288 ∧ usedPool.BestFit 3 2 2 1 := by
  obtain ⟨out, hresult, -, -, hfit⟩ := allocFromPool_best_fit
    ⟨by decide, by decide⟩ (by decide) usedPool_reachable
    (show 1 ≤ 2 by decide) (Nat.clog_pow 2 1 (by decide)).symm
  have haddr : out.result = 12288 := by
    have hvalue : (allocFromPool usedPool.pool 2).result.map
        AllocOutcome.result = .ok 12288 := by
      decide +kernel
    rw [hresult] at hvalue
    exact Except.ok.inj hvalue
  obtain ⟨level, index, hbest, -, hplace, -⟩ := hfit (by rw [haddr]; decide)
  refine ⟨out, hresult, haddr, ?_⟩
  rw [haddr] at hplace
  have hlevel := hbest.level_le
  unfold archPageSize at hplace
  interval_cases level
  · omega
  · omega
  · obtain rfl : index = 1 := by omega
    exact hbest

end Pmm
end Yjkos
