import Mathlib.Tactic

/-!
# The ones of a number

How many ones a number has in binary.  Taking away the largest power of two
takes away one of them, so that many steps bring the number down to zero.
-/

namespace BinaryOnes

/-- The ones of a number in binary. -/
def ones (n : ℕ) : ℕ := (Nat.digits 2 n).sum

theorem ones_zero : ones 0 = 0 := rfl

theorem ones_eq (n : ℕ) : ones n = n % 2 + ones (n / 2) := by
  unfold ones
  rcases Nat.eq_zero_or_pos n with rfl | hn
  · rfl
  · rw [Nat.digits_def' (by decide) hn, List.sum_cons]

theorem ones_of_pos {n : ℕ} (hn : 0 < n) :
    ones n = ones (n - 2 ^ Nat.log 2 n) + 1 := by
  induction n using Nat.strong_induction_on with
  | _ n ih =>
      rcases Nat.eq_or_lt_of_le (Nat.succ_le_of_lt hn) with rfl | hone
      · rfl
      · have hlog : Nat.log 2 n = Nat.log 2 (n / 2) + 1 :=
          Nat.log_of_one_lt_of_le (by omega) (by omega)
        have hpow : 2 ^ Nat.log 2 (n / 2) ≤ n / 2 :=
          Nat.pow_log_le_self 2 (by omega)
        -- below the largest power of two the last digit is the same
        have hmod : (n - 2 ^ Nat.log 2 n) % 2 = n % 2 := by
          rw [hlog, pow_succ]
          omega
        have hdiv : (n - 2 ^ Nat.log 2 n) / 2 =
            n / 2 - 2 ^ Nat.log 2 (n / 2) := by
          rw [hlog, pow_succ]
          omega
        calc ones n = n % 2 + ones (n / 2) := ones_eq n
          _ = n % 2 + (ones (n / 2 - 2 ^ Nat.log 2 (n / 2)) + 1) := by
              rw [ih (n / 2) (by omega) (by omega)]
          _ = ones (n - 2 ^ Nat.log 2 n) + 1 := by
              rw [ones_eq (n - 2 ^ Nat.log 2 n), hmod, hdiv, Nat.add_assoc]

theorem ones_pos {n : ℕ} (hn : 0 < n) : 0 < ones n := by
  rw [ones_of_pos hn]
  omega

end BinaryOnes
