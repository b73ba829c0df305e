import Yjkos.Machine
import Yjkos.XorLinear

/-!
# Random numbers

`rand` of `lib/libc/stdlib.c` is a shift register of 16 bits, which takes a new
seed from the time stamp counter as soon as it is back at its seed.  The
register has the longest period which there is, so that a seed is good for
65535 bits, whichever seed it is.
-/

namespace Yjkos
namespace Rand

open XorLinear

/-- `INITIAL_SEED` -/
def initialSeed : ℕ := 0xdead

/-- `arch_randseed`, with the lower half of the time stamp counter. -/
def archRandseed (lower : ℕ) : ℕ :=
  let seed := ((lower >>> 16) ^^^ lower) % 65536
  if seed = 0 then (seed + 1) % 65536 else seed

/-- The next value of `s_rand_lfsr`. -/
def shift (lfsr : ℕ) : ℕ :=
  let t1 := lfsr >>> 0
  let t2 := lfsr >>> 2
  let t3 := lfsr >>> 3
  let t4 := lfsr >>> 5
  let xor := ((t1 ^^^ t2) ^^^ (t3 ^^^ t4)) &&& 1
  ((lfsr >>> 1) ||| wrap (xor <<< 15)) % 65536

/-- The static variables; `reseeds` counts the seeds which have been taken. -/
structure State where
  randseed : ℕ
  randLfsr : ℕ
  reseeds : ℕ
deriving DecidableEq, Repr

def State.initial : State := ⟨initialSeed, initialSeed, 0⟩

section Generator

-- What the lower half of the time stamp counter is for each new seed.
variable (clock : ℕ → ℕ)

/-- One round of the loop: the bit which is shifted out, and the state. -/
def nextBit (s : State) : ℕ × State :=
  let shiftedbitout := s.randLfsr &&& 1
  let randLfsr := shift s.randLfsr
  if randLfsr = s.randseed then
    let randseed := archRandseed (clock s.reseeds)
    (shiftedbitout, ⟨randseed, randseed, s.reseeds + 1⟩)
  else (shiftedbitout, { s with randLfsr := randLfsr })

/-- The loop of `rand`. -/
def randLoop : ℕ → ℕ → State → ℕ × State
  | 0, out, s => (out, s)
  | rounds + 1, out, s =>
      let (shiftedbitout, s) := nextBit clock s
      randLoop rounds (wrap (out <<< 1) ||| shiftedbitout) s

/-- The result is an `int`. -/
def rand (s : State) : ℤ × State :=
  let (out, s) := randLoop clock 32 0 s
  (toSigned out, s)

end Generator

/-! ## The register -/

theorem archRandseed_ne_zero (lower : ℕ) : archRandseed lower ≠ 0 := by
  unfold archRandseed
  dsimp only
  split
  · omega
  · assumption

theorem archRandseed_lt (lower : ℕ) : archRandseed lower < 2 ^ 16 := by
  unfold archRandseed
  dsimp only
  split
  · omega
  · exact Nat.mod_lt _ (by decide)

theorem testBit_eq_false {x : ℕ} (hx : x < 2 ^ 16) {i : ℕ} (hi : 16 ≤ i) :
    x.testBit i = false := by
  apply Nat.testBit_lt_two_pow
  calc
    x < 2 ^ 16 := hx
    _ ≤ 2 ^ i := Nat.pow_le_pow_right (by decide) hi

/-- The taps are the bits 0, 2, 3 and 5. -/
theorem shift_testBit {x : ℕ} (hx : x < 2 ^ 16) (i : ℕ) :
    (shift x).testBit i =
      if i = 15 then
        (x.testBit 0 ^^ x.testBit 2) ^^ (x.testBit 3 ^^ x.testBit 5)
      else x.testBit (i + 1) := by
  have htap : ∀ j, ((((x >>> 0) ^^^ (x >>> 2)) ^^^ ((x >>> 3) ^^^ (x >>> 5)))
      &&& 1).testBit j = (decide (j = 0) &&
        ((x.testBit 0 ^^ x.testBit 2) ^^ (x.testBit 3 ^^ x.testBit 5))) := by
    intro j
    rw [Nat.and_one_is_mod]
    have hlow : ∀ y, (y % 2).testBit j = (decide (j < 1) && y.testBit j) :=
      fun y => Nat.testBit_mod_two_pow y 1 j
    rw [hlow]
    by_cases hj : j = 0
    · subst hj
      simp only [Nat.testBit_xor, Nat.testBit_shiftRight, Nat.add_zero,
        Nat.zero_lt_one, decide_true]
    · have hpos : ¬j < 1 := by omega
      simp [hj]
  have hwrap : ∀ y j, (wrap y).testBit j = (decide (j < 32) && y.testBit j) :=
    fun y j => Nat.testBit_mod_two_pow y 32 j
  have hmod : ∀ y, (y % 65536).testBit i = (decide (i < 16) && y.testBit i) :=
    fun y => Nat.testBit_mod_two_pow y 16 i
  unfold shift
  dsimp only
  rw [hmod, Nat.testBit_or, hwrap, Nat.testBit_shiftLeft, htap,
    Nat.testBit_shiftRight]
  by_cases hlast : i = 15
  · subst hlast
    have hout : x.testBit (1 + 15) = false := testBit_eq_false hx (by decide)
    rw [hout, if_pos rfl]
    simp
  · rw [if_neg hlast, add_comm 1 i]
    by_cases hlow : i < 16
    · have hfront : ¬15 ≤ i := by omega
      simp [hlow, hfront]
    · rw [testBit_eq_false hx (show 16 ≤ i + 1 by omega)]
      simp [hlow]

theorem linear_shift : Linear 16 shift where
  lt := fun x _ => Nat.mod_lt _ (by decide)
  xor := by
    intro x y hx hy
    have hxy : x ^^^ y < 2 ^ 16 := Nat.xor_lt_two_pow hx hy
    apply Nat.eq_of_testBit_eq
    intro i
    rw [Nat.testBit_xor, shift_testBit hxy, shift_testBit hx, shift_testBit hy]
    split
    · simp only [Nat.testBit_xor]
      cases x.testBit 0 <;> cases x.testBit 2 <;> cases x.testBit 3 <;>
        cases x.testBit 5 <;> simp
    · exact Nat.testBit_xor x y (i + 1)

theorem iterate_shift_one (n : ℕ) (hn : n < 2 ^ 16) :
    shift^[n] 1 = jump 16 (columns 16 shift) n 1 :=
  (jump_eq linear_shift hn (by decide)).symm

/-- The register is back after 65535 steps, and not after a part of them. -/
theorem jump_shift :
    jump 16 (columns 16 shift) 65535 1 = 1 ∧
      jump 16 (columns 16 shift) 21845 1 ≠ 1 ∧
      jump 16 (columns 16 shift) 13107 1 ≠ 1 ∧
      jump 16 (columns 16 shift) 3855 1 ≠ 1 ∧
      jump 16 (columns 16 shift) 255 1 ≠ 1 := by
  decide +kernel

theorem minimalPeriod_shift_one : Function.minimalPeriod shift 1 = 65535 := by
  obtain ⟨hback, h3, h5, h17, h257⟩ := jump_shift
  have hnot : ∀ n < 2 ^ 16, jump 16 (columns 16 shift) n 1 ≠ 1 →
      ¬Function.minimalPeriod shift 1 ∣ n := by
    intro n hn hne hdvd
    rw [← iterate_shift_one n hn] at hne
    exact hne (Function.isPeriodicPt_iff_minimalPeriod_dvd.2 hdvd)
  apply eq_of_dvd_of_not_dvd (by decide)
  · apply Function.isPeriodicPt_iff_minimalPeriod_dvd.1
    exact (iterate_shift_one 65535 (by decide)).trans hback
  · intro p hp hdvd
    have hprime : p = 3 ∨ p = 5 ∨ p = 17 ∨ p = 257 := by
      have hfactors : (65535 : ℕ) = 3 * 5 * 17 * 257 := by decide
      rw [hfactors, hp.dvd_mul, hp.dvd_mul, hp.dvd_mul] at hdvd
      have h3 : Nat.Prime 3 := by norm_num
      have h5 : Nat.Prime 5 := by norm_num
      have h17 : Nat.Prime 17 := by norm_num
      have h257 : Nat.Prime 257 := by norm_num
      rw [Nat.prime_dvd_prime_iff_eq hp h3, Nat.prime_dvd_prime_iff_eq hp h5,
        Nat.prime_dvd_prime_iff_eq hp h17,
        Nat.prime_dvd_prime_iff_eq hp h257] at hdvd
      omega
    rcases hprime with rfl | rfl | rfl | rfl
    · exact hnot 21845 (by decide) h3
    · exact hnot 13107 (by decide) h5
    · exact hnot 3855 (by decide) h17
    · exact hnot 255 (by decide) h257

theorem minimalPeriod_shift {x : ℕ} (hx : x < 2 ^ 16) (hne : x ≠ 0) :
    Function.minimalPeriod shift x = 65535 :=
  minimalPeriod_eq linear_shift (by decide) minimalPeriod_shift_one
    (by decide) hx hne

theorem iterate_shift_eq_iff {seed : ℕ} (hseed : seed < 2 ^ 16)
    (hne : seed ≠ 0) (n : ℕ) : shift^[n] seed = seed ↔ 65535 ∣ n := by
  rw [← minimalPeriod_shift hseed hne]
  exact Function.isPeriodicPt_iff_minimalPeriod_dvd

/-- From any seed the register takes every value but zero once before it is
back. -/
theorem shift_full_period {seed : ℕ} (hseed : seed < 2 ^ 16) (hne : seed ≠ 0) :
    (∀ n, shift^[n] seed = seed ↔ 65535 ∣ n) ∧
      ∀ y, y < 2 ^ 16 → y ≠ 0 → ∃! n, n < 65535 ∧ shift^[n] seed = y := by
  have hperiod := minimalPeriod_shift hseed hne
  constructor
  · exact iterate_shift_eq_iff hseed hne
  · intro y hy hzero
    obtain ⟨n, hn, heq⟩ := exists_iterate_eq linear_shift hseed hperiod
      (by decide) hy hzero
    refine ⟨n, ⟨hn, heq⟩, ?_⟩
    rintro m ⟨hm, hmeq⟩
    apply (Function.iterate_eq_iterate_iff_of_lt_minimalPeriod _ _).1
      (hmeq.trans heq.symm)
    · rw [hperiod]
      exact hm
    · rw [hperiod]
      exact hn

theorem shift_full_period_initialSeed :
    shift^[65535] initialSeed = initialSeed :=
  ((@shift_full_period initialSeed (by decide) (by decide)).1 65535).2 dvd_rfl

theorem iterate_shift_ne_zero {seed : ℕ} (hseed : seed < 2 ^ 16)
    (hne : seed ≠ 0) {n : ℕ} (hn : n ≤ 65535) : shift^[n] seed ≠ 0 := by
  intro hzero
  have hback := (iterate_shift_eq_iff hseed hne (65535 - n + n)).2
    (by rw [Nat.sub_add_cancel hn])
  rw [Function.iterate_add_apply, hzero, (linear_shift.iterate _).zero] at hback
  exact hne hback.symm

/-! ## Runs -/

section Runs

variable (clock : ℕ → ℕ)

/-- The seeds, one behind the other. -/
def seedAt : ℕ → ℕ
  | 0 => initialSeed
  | k + 1 => archRandseed (clock k)

theorem seedAt_lt (k : ℕ) : seedAt clock k < 2 ^ 16 := by
  cases k with
  | zero =>
      show initialSeed < 2 ^ 16
      decide
  | succ k => exact archRandseed_lt (clock k)

theorem seedAt_ne_zero (k : ℕ) : seedAt clock k ≠ 0 := by
  cases k with
  | zero =>
      show initialSeed ≠ 0
      decide
  | succ k => exact archRandseed_ne_zero (clock k)

/-- The register in front of the bit with this number. -/
def lfsrAt (n : ℕ) : ℕ := shift^[n % 65535] (seedAt clock (n / 65535))

def stateAt (n : ℕ) : State :=
  ⟨seedAt clock (n / 65535), lfsrAt clock n, n / 65535⟩

theorem nextBit_stateAt (n : ℕ) :
    nextBit clock (stateAt clock n) =
      (lfsrAt clock n &&& 1, stateAt clock (n + 1)) := by
  have hnext : shift (lfsrAt clock n) =
      shift^[n % 65535 + 1] (seedAt clock (n / 65535)) :=
    (Function.iterate_succ_apply' shift _ _).symm
  have hback := iterate_shift_eq_iff (seedAt_lt clock (n / 65535))
    (seedAt_ne_zero clock _) (n % 65535 + 1)
  unfold nextBit stateAt
  dsimp only
  rw [hnext]
  by_cases hlast : n % 65535 = 65534
  · have hquot : (n + 1) / 65535 = n / 65535 + 1 := by omega
    have hmod : (n + 1) % 65535 = 0 := by omega
    have hlfsr : lfsrAt clock (n + 1) = seedAt clock (n / 65535 + 1) := by
      unfold lfsrAt
      rw [hquot, hmod]
      rfl
    rw [if_pos (hback.2 (by rw [hlast])), hlfsr, hquot]
    rfl
  · have hquot : (n + 1) / 65535 = n / 65535 := by omega
    have hmod : (n + 1) % 65535 = n % 65535 + 1 := by omega
    have hlfsr : lfsrAt clock (n + 1) =
        shift^[n % 65535 + 1] (seedAt clock (n / 65535)) := by
      unfold lfsrAt
      rw [hquot, hmod]
    rw [if_neg fun h => absurd (hback.1 h) (by omega), hlfsr, hquot]

/-- The bits from a number on, the first one highest. -/
def word (n : ℕ) : ℕ → ℕ
  | 0 => 0
  | k + 1 => word n k * 2 + (lfsrAt clock (n + k)) % 2

theorem word_lt (n k : ℕ) : word clock n k < 2 ^ k := by
  induction k with
  | zero => exact Nat.one_pos
  | succ k ih =>
      rw [word, pow_succ]
      omega

theorem randLoop_stateAt (rounds n k : ℕ) (hk : k + rounds ≤ 32) :
    randLoop clock rounds (word clock n k) (stateAt clock (n + k)) =
      (word clock n (k + rounds), stateAt clock (n + (k + rounds))) := by
  induction rounds generalizing k with
  | zero => rfl
  | succ rounds ih =>
      have hout : wrap (word clock n k <<< 1) ||| (lfsrAt clock (n + k) &&& 1) =
          word clock n (k + 1) := by
        have hword := word_lt clock n k
        have hpow : 2 ^ k ≤ 2 ^ 31 := Nat.pow_le_pow_right (by decide)
          (by omega)
        have hshift : word clock n k <<< 1 = word clock n k * 2 :=
          Nat.shiftLeft_eq _ 1
        have hbit : lfsrAt clock (n + k) % 2 < 2 ^ 1 :=
          Nat.mod_lt _ (by decide)
        have hor := Nat.shiftLeft_add_eq_or_of_lt hbit (word clock n k)
        rw [Nat.and_one_is_mod, wrap_of_lt (by omega), ← hor, hshift]
        rfl
      rw [randLoop, nextBit_stateAt]
      dsimp only
      rw [hout, show n + k + 1 = n + (k + 1) by omega, ih (k + 1) (by omega)]
      congr 2 <;> omega

/-- The generator after this many calls. -/
def afterCalls : ℕ → State
  | 0 => State.initial
  | m + 1 => (rand clock (afterCalls m)).2

theorem rand_stateAt (n : ℕ) :
    rand clock (stateAt clock n) =
      (toSigned (word clock n 32), stateAt clock (n + 32)) := by
  have hloop := randLoop_stateAt clock 32 n 0 le_rfl
  unfold rand
  rw [show (0 : ℕ) = word clock n 0 from rfl]
  rw [Nat.add_zero] at hloop
  rw [hloop]

/-- Each call gives the next 32 bits of one stream.  The stream takes a new
seed after every 65535 bits, in the middle of a number or not, and the register
is never zero. -/
theorem rand_stream (m : ℕ) :
    (rand clock (afterCalls clock m)).1 = toSigned (word clock (32 * m) 32) ∧
      (afterCalls clock m).reseeds = 32 * m / 65535 ∧
      (afterCalls clock m).randLfsr =
        shift^[32 * m % 65535] (afterCalls clock m).randseed ∧
      (afterCalls clock m).randLfsr ≠ 0 := by
  have hstate : afterCalls clock m = stateAt clock (32 * m) := by
    induction m with
    | zero => rfl
    | succ m ih =>
        rw [afterCalls, ih, rand_stateAt]
        rfl
  rw [hstate, rand_stateAt]
  refine ⟨rfl, rfl, rfl, ?_⟩
  exact iterate_shift_ne_zero (seedAt_lt clock _) (seedAt_ne_zero clock _)
    (Nat.mod_lt _ (by decide)).le

end Runs

end Rand
end Yjkos
