import Mathlib.Tactic
import Mathlib.Data.Nat.Digits.Lemmas

/-!
# Positional numerals

The digits of a number in a base, most significant first, and its low digits
in a window of a given length.  The window of the full length is the numeral,
and a padded shorter window is never the padded numeral, if what pads is a
zero or no digit.
-/

namespace Numeral

variable {b : ℕ}

/-- The digits without leading zeros. -/
def digits (b v : ℕ) : List ℕ :=
  if v = 0 then [0] else (Nat.digits b v).reverse

/-- The `k` low digits. -/
def lowDigits (b : ℕ) : ℕ → ℕ → List ℕ
  | 0, _ => []
  | k + 1, v => v / b ^ k % b :: lowDigits b k v

theorem lowDigits_length (k v : ℕ) : (lowDigits b k v).length = k := by
  induction k with
  | zero => rfl
  | succ k ih => rw [lowDigits, List.length_cons, ih]

theorem lowDigits_add (m k v : ℕ) :
    lowDigits b (m + k) v = lowDigits b m (v / b ^ k) ++ lowDigits b k v := by
  induction m with
  | zero => simp [lowDigits]
  | succ m ih =>
      have hdigit : v / b ^ k / b ^ m = v / b ^ (m + k) := by
        rw [Nat.div_div_eq_div_mul, ← pow_add, add_comm k m]
      rw [Nat.succ_add, lowDigits, ih, lowDigits, hdigit, List.cons_append]

theorem lt_of_mem_lowDigits (hb : 1 < b) {k v d : ℕ}
    (hd : d ∈ lowDigits b k v) : d < b := by
  induction k with
  | zero => cases hd
  | succ k ih =>
      cases hd with
      | head => exact Nat.mod_lt _ (by omega)
      | tail _ hd => exact ih hd

theorem lowDigits_eq_reverse (hb : 1 < b) (v : ℕ) :
    lowDigits b (Nat.digits b v).length v = (Nat.digits b v).reverse := by
  have hall : ∀ k ≤ (Nat.digits b v).length,
      lowDigits b k v = ((Nat.digits b v).take k).reverse := by
    intro k hk
    induction k with
    | zero => rfl
    | succ k ih =>
        have hlt : k < (Nat.digits b v).length := hk
        have hdigit := Nat.getD_digits v k hb
        rw [List.getD_eq_getElem?_getD, List.getElem?_eq_getElem hlt,
          Option.getD_some] at hdigit
        rw [lowDigits, ih hlt.le, ← List.take_append_getElem hlt,
          List.reverse_append, hdigit]
        rfl
  rw [hall _ le_rfl, List.take_length]

/-- The number of the digits of a numeral. -/
def count (b v : ℕ) : ℕ := Nat.log b v + 1

theorem digits_eq_lowDigits (hb : 1 < b) (v : ℕ) :
    digits b v = lowDigits b (count b v) v := by
  unfold digits count
  by_cases hv : v = 0
  · subst hv
    simp [lowDigits]
  · rw [if_neg hv, ← Nat.length_digits b v hb hv, lowDigits_eq_reverse hb]

theorem digits_length (hb : 1 < b) (v : ℕ) :
    (digits b v).length = count b v := by
  rw [digits_eq_lowDigits hb, lowDigits_length]

theorem lead_ne_zero (hb : 1 < b) {v : ℕ} (hv : v ≠ 0) :
    v / b ^ Nat.log b v % b ≠ 0 := by
  have hlow := Nat.pow_log_le_self b hv
  have hhigh : v < b ^ (Nat.log b v + 1) := Nat.lt_pow_succ_log_self hb v
  have hpow : 0 < b ^ Nat.log b v := Nat.pow_pos (by omega)
  rw [Nat.mod_eq_of_lt]
  · exact (Nat.div_pos hlow hpow).ne'
  · rw [Nat.div_lt_iff_lt_mul hpow, mul_comm, ← pow_succ]
    exact hhigh

/-- The first digit of a number is not zero. -/
theorem digits_eq_cons (hb : 1 < b) {v : ℕ} (hv : v ≠ 0) :
    ∃ lead rest, digits b v = lead :: rest ∧ lead ≠ 0 ∧
      ∀ d ∈ lead :: rest, d < b :=
  ⟨_, _, digits_eq_lowDigits hb v, lead_ne_zero hb hv,
    fun _ hd => lt_of_mem_lowDigits (k := count b v) hb hd⟩

/-- What a shorter window lacks: digits of which the first is not zero. -/
theorem digits_split (hb : 1 < b) {k v : ℕ} (hpos : 0 < k)
    (hk : k < count b v) :
    ∃ lead high, digits b v = lead :: high ++ lowDigits b k v ∧
      lead ≠ 0 ∧ ∀ d ∈ lead :: high, d < b := by
  have hv : v ≠ 0 := by
    rintro rfl
    simp only [count, Nat.log_zero_right] at hk
    omega
  obtain ⟨m, hm⟩ := Nat.exists_eq_add_of_lt hk
  have hsplit : digits b v =
      lowDigits b (m + 1) (v / b ^ k) ++ lowDigits b k v := by
    rw [digits_eq_lowDigits hb, hm, ← lowDigits_add]
    congr 1
    omega
  refine ⟨v / b ^ k / b ^ m % b, lowDigits b m (v / b ^ k), hsplit, ?_,
    fun d hd => lt_of_mem_lowDigits (k := m + 1) hb hd⟩
  have hlog : k + m = Nat.log b v := by
    unfold count at hm
    omega
  rw [Nat.div_div_eq_div_mul, ← pow_add, hlog]
  exact lead_ne_zero hb hv

/-! ## Value -/

theorem foldl_lowDigits (k acc v : ℕ) :
    (lowDigits b k v).foldl (fun acc d => acc * b + d) acc =
      acc * b ^ k + v % b ^ k := by
  induction k generalizing acc with
  | zero => simp [lowDigits, Nat.mod_one]
  | succ k ih =>
      rw [lowDigits, List.foldl_cons, ih, Nat.mod_pow_succ, pow_succ]
      ring

/-- Reading the digits gives the number back. -/
theorem foldl_digits (hb : 1 < b) (v : ℕ) :
    (digits b v).foldl (fun acc d => acc * b + d) 0 = v := by
  rw [digits_eq_lowDigits hb, foldl_lowDigits, zero_mul, zero_add]
  exact Nat.mod_eq_of_lt (Nat.lt_pow_succ_log_self hb v)

/-! ## Padding -/

section Padding

variable {β : Type*} (f : ℕ → β) {pad sign : β} {k v : ℕ}

theorem padded_ne (hb : 1 < b) (hpad : ∀ d < b, d ≠ 0 → f d ≠ pad)
    (hpos : 0 < k) (hk : k < count b v) (i j : ℕ) :
    List.replicate i pad ++ (lowDigits b k v).map f ≠
      List.replicate j pad ++ (digits b v).map f := by
  obtain ⟨lead, high, hdigits, hlead, hall⟩ := digits_split hb hpos hk
  intro heq
  rw [hdigits, List.map_append, ← List.append_assoc] at heq
  have hfront := List.append_cancel_right heq
  have hmem : f lead ∈ List.replicate i pad := by
    rw [hfront]
    simp
  exact hpad lead (hall lead List.mem_cons_self) hlead
    (List.eq_of_mem_replicate hmem)

theorem padded_sign_ne (hb : 1 < b) (hsign : ∀ d < b, f d ≠ sign)
    (hpos : 0 < k) (hk : k < count b v) (i j : ℕ) :
    List.replicate i pad ++ sign :: (lowDigits b k v).map f ≠
      List.replicate j pad ++ sign :: (digits b v).map f := by
  obtain ⟨lead, high, hdigits, -, hall⟩ := digits_split hb hpos hk
  intro heq
  have hleft : List.replicate i pad ++ sign :: (lowDigits b k v).map f =
      (List.replicate i pad ++ [sign]) ++ (lowDigits b k v).map f := by
    simp
  have hright : List.replicate j pad ++ sign :: (digits b v).map f =
      (List.replicate j pad ++ sign :: (lead :: high).map f) ++
        (lowDigits b k v).map f := by
    rw [hdigits]
    simp
  rw [hleft, hright] at heq
  have hlast := congrArg List.getLast? (List.append_cancel_right heq)
  have htail : (sign :: (lead :: high).map f).getLast? =
      some (f ((lead :: high).getLast (List.cons_ne_nil _ _))) := by
    rw [List.map_cons, List.getLast?_cons_cons, ← List.map_cons,
      List.getLast?_map, List.getLast?_eq_some_getLast (List.cons_ne_nil _ _)]
    rfl
  rw [List.getLast?_concat, List.getLast?_append, htail] at hlast
  exact hsign _ (hall _ (List.getLast_mem _)) (Option.some.inj hlast).symm

end Padding

end Numeral
