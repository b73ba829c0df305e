import Mathlib.Dynamics.PeriodicPts.Defs
import Mathlib.Tactic

/-!
# Linear maps on words

A map on words of `w` bits is linear when it respects exclusive or.  Such a map
is known from its columns, the images of the single bits, and so are its
iterates: `jump` finds a large iterate by squaring columns.  When a word comes
back to itself after `2 ^ w - 1` steps and not sooner, every word but zero lies
on its orbit.
-/

namespace XorLinear

/-! ## Columns -/

/-- The map keeps to words of `w` bits and respects exclusive or. -/
structure Linear (w : ℕ) (f : ℕ → ℕ) : Prop where
  lt : ∀ x, x < 2 ^ w → f x < 2 ^ w
  xor : ∀ x y, x < 2 ^ w → y < 2 ^ w → f (x ^^^ y) = f x ^^^ f y

/-- The columns which belong to the bits of a word. -/
def apply : List ℕ → ℕ → ℕ
  | [], _ => 0
  | column :: columns, x =>
      (if x % 2 = 1 then column else 0) ^^^ apply columns (x / 2)

/-- The images of the bits from `k` on. -/
def columnsFrom (f : ℕ → ℕ) (k n : ℕ) : List ℕ :=
  (List.range' k n).map fun i => f (2 ^ i)

def columns (w : ℕ) (f : ℕ → ℕ) : List ℕ := columnsFrom f 0 w

section Linear

variable {w : ℕ} {f g : ℕ → ℕ}

theorem Linear.zero (hf : Linear w f) : f 0 = 0 := by
  have hpos : 0 < 2 ^ w := Nat.two_pow_pos w
  have h := hf.xor 0 0 hpos hpos
  rwa [Nat.xor_self, Nat.xor_self] at h

theorem Linear.id (w : ℕ) : Linear w id := ⟨fun _ h => h, fun _ _ _ _ => rfl⟩

theorem Linear.comp (hf : Linear w f) (hg : Linear w g) :
    Linear w (f ∘ g) where
  lt := fun x hx => hf.lt _ (hg.lt x hx)
  xor := by
    intro x y hx hy
    rw [Function.comp_apply, hg.xor x y hx hy,
      hf.xor _ _ (hg.lt x hx) (hg.lt y hy)]
    rfl

theorem Linear.iterate (hf : Linear w f) (n : ℕ) : Linear w f^[n] := by
  induction n with
  | zero => exact Linear.id w
  | succ n ih =>
      rw [Function.iterate_succ]
      exact ih.comp hf

/-- The lowest bit and the others. -/
theorem mul_two_pow_eq_xor (x k : ℕ) :
    x * 2 ^ k = (if x % 2 = 1 then 2 ^ k else 0) ^^^
      (x / 2) * 2 ^ (k + 1) := by
  apply Nat.eq_of_testBit_eq
  intro i
  have hbit : (if x % 2 = 1 then 2 ^ k else 0).testBit i =
      (decide (i = k) && x.testBit 0) := by
    rw [Nat.testBit_zero]
    split
    · next h => simp [h, Nat.testBit_two_pow, eq_comm]
    · next h => simp [h]
  rw [Nat.testBit_xor, Nat.testBit_mul_two_pow, Nat.testBit_mul_two_pow, hbit,
    Nat.testBit_div_two]
  rcases lt_trichotomy i k with hlt | heq | hgt
  · simp [Nat.not_le_of_lt hlt, hlt.ne]
    omega
  · simp [heq]
  · have hnext : i - (k + 1) + 1 = i - k := by omega
    simp [hgt.le, hgt.ne', hnext]
    omega

theorem apply_columnsFrom (hf : Linear w f) {k n x : ℕ} (hn : k + n ≤ w)
    (hx : x < 2 ^ n) :
    apply (columnsFrom f k n) x = f (x * 2 ^ k) := by
  induction n generalizing k x with
  | zero =>
      have hzero : x = 0 := by omega
      rw [hzero, Nat.zero_mul, hf.zero]
      rfl
  | succ n ih =>
      have hhalf : x / 2 < 2 ^ n := by
        rw [pow_succ] at hx
        omega
      have hlow : (if x % 2 = 1 then 2 ^ k else 0) < 2 ^ w := by
        split
        · exact Nat.pow_lt_pow_right (by decide) (by omega)
        · exact Nat.two_pow_pos w
      have hhigh : x / 2 * 2 ^ (k + 1) < 2 ^ w := by
        calc
          x / 2 * 2 ^ (k + 1) < 2 ^ n * 2 ^ (k + 1) :=
            Nat.mul_lt_mul_of_pos_right hhalf (Nat.two_pow_pos _)
          _ = 2 ^ (n + (k + 1)) := (pow_add 2 n (k + 1)).symm
          _ ≤ 2 ^ w := Nat.pow_le_pow_right (by decide) (by omega)
      have hstep : apply (columnsFrom f k (n + 1)) x =
          (if x % 2 = 1 then f (2 ^ k) else 0) ^^^
            apply (columnsFrom f (k + 1) n) (x / 2) := rfl
      rw [hstep, ih (by omega) hhalf, mul_two_pow_eq_xor x k,
        hf.xor _ _ hlow hhigh]
      congr 1
      split
      · rfl
      · exact hf.zero.symm

theorem apply_columns (hf : Linear w f) {x : ℕ} (hx : x < 2 ^ w) :
    apply (columns w f) x = f x := by
  have h := @apply_columnsFrom w f hf 0 w x (by omega) hx
  rwa [pow_zero, Nat.mul_one] at h

theorem columns_comp (hf : Linear w f) (hg : Linear w g) :
    columns w (f ∘ g) = (columns w g).map (apply (columns w f)) := by
  unfold columns columnsFrom
  rw [List.map_map]
  apply List.map_congr_left
  intro i hi
  have hlt : i < w := by
    have := List.mem_range'_1.1 hi
    omega
  exact (apply_columns hf (hg.lt _ (Nat.pow_lt_pow_right (by decide) hlt))).symm

end Linear

/-! ## Large iterates -/

/-- Evaluates a number before going on. -/
def force {β : Type*} (n : ℕ) (next : ℕ → β) : β :=
  match n with
  | 0 => next 0
  | n + 1 => next (n + 1)

def forceAll {β : Type*} : List ℕ → (List ℕ → β) → β
  | [], next => next []
  | n :: ns, next => force n fun n => forceAll ns fun ns => next (n :: ns)

theorem force_eq {β : Type*} (n : ℕ) (next : ℕ → β) : force n next = next n := by
  cases n <;> rfl

theorem forceAll_eq {β : Type*} (ns : List ℕ) (next : List ℕ → β) :
    forceAll ns next = next ns := by
  induction ns generalizing next with
  | nil => rfl
  | cons n ns ih => rw [forceAll, force_eq, ih]

/-- The iterate whose number has at most `fuel` bits. -/
def jump : ℕ → List ℕ → ℕ → ℕ → ℕ
  | 0, _, _, x => x
  | fuel + 1, columns, n, x =>
      force (if n % 2 = 1 then apply columns x else x) fun x =>
        forceAll (columns.map (apply columns)) fun squared =>
          jump fuel squared (n / 2) x

theorem jump_eq {w : ℕ} {f : ℕ → ℕ} (hf : Linear w f) {fuel n x : ℕ}
    (hn : n < 2 ^ fuel) (hx : x < 2 ^ w) :
    jump fuel (columns w f) n x = f^[n] x := by
  induction fuel generalizing f n x with
  | zero =>
      have hzero : n = 0 := by omega
      rw [hzero]
      rfl
  | succ fuel ih =>
      have hhalf : n / 2 < 2 ^ fuel := by
        rw [pow_succ] at hn
        omega
      have hsquare : Linear w f^[2] := hf.iterate 2
      have hcolumns : (columns w f).map (apply (columns w f)) =
          columns w f^[2] := (columns_comp hf hf).symm
      have hsplit : f^[n] x = (f^[2])^[n / 2] (f^[n % 2] x) := by
        rw [← Function.iterate_mul, ← Function.iterate_add_apply]
        congr 1
        omega
      rw [jump, force_eq, forceAll_eq, hcolumns, hsplit]
      by_cases hodd : n % 2 = 1
      · rw [if_pos hodd, apply_columns hf hx, ih hsquare hhalf (hf.lt x hx),
          hodd]
        rfl
      · have heven : n % 2 = 0 := by omega
        rw [if_neg hodd, ih hsquare hhalf hx, heven]
        rfl

/-! ## Orbits -/

/-- A number which divides `n` and none of the `n / p` is `n`. -/
theorem eq_of_dvd_of_not_dvd {d n : ℕ} (hpos : 0 < n) (hdvd : d ∣ n)
    (hnot : ∀ p, p.Prime → p ∣ n → ¬d ∣ n / p) : d = n := by
  by_contra hne
  obtain ⟨e, rfl⟩ := hdvd
  have he : e ≠ 1 := by
    rintro rfl
    exact hne (Nat.mul_one d).symm
  obtain ⟨p, hp, c, rfl⟩ := Nat.exists_prime_and_dvd he
  apply hnot p hp ⟨d * c, by ring⟩
  have hdiv : d * (p * c) / p = d * c := by
    rw [show d * (p * c) = p * (d * c) by ring,
      Nat.mul_div_cancel_left _ hp.pos]
  exact ⟨c, hdiv⟩

section Orbit

open Function (IsPeriodicPt minimalPeriod)

variable {w : ℕ} {f : ℕ → ℕ} {x : ℕ}

/-- The words of an orbit as long as can be are all words but zero. -/
theorem exists_iterate_eq (hf : Linear w f) (hx : x < 2 ^ w)
    (hperiod : minimalPeriod f x = 2 ^ w - 1) (hlong : 1 < 2 ^ w - 1)
    {y : ℕ} (hy : y < 2 ^ w) (hne : y ≠ 0) :
    ∃ n < 2 ^ w - 1, f^[n] x = y := by
  have hzero : ∀ n, f^[n] x ≠ 0 := by
    intro n hn
    have hperiodic : IsPeriodicPt f (2 ^ w - 1) x := by
      rw [← hperiod]
      exact Function.isPeriodicPt_minimalPeriod f x
    have hback : f^[n * (2 ^ w - 1)] x = x := (hperiodic.const_mul n)
    have hsplit : n * (2 ^ w - 1) = n * (2 ^ w - 1) - n + n := by
      have hle : n * 1 ≤ n * (2 ^ w - 1) := Nat.mul_le_mul_left n hlong.le
      omega
    rw [hsplit, Function.iterate_add_apply, hn, (hf.iterate _).zero] at hback
    have hfixed : minimalPeriod f x = 1 := by
      rw [← hback]
      exact Function.minimalPeriod_eq_one_iff_isFixedPt.2 hf.zero
    omega
  have hinj : Set.InjOn (fun n => f^[n] x) (Finset.range (2 ^ w - 1)) := by
    rw [Finset.coe_range, ← hperiod]
    exact Function.iterate_injOn_Iio_minimalPeriod
  have himage : (Finset.range (2 ^ w - 1)).image (fun n => f^[n] x) =
      (Finset.range (2 ^ w)).erase 0 := by
    apply Finset.eq_of_subset_of_card_le
    · intro z hz
      obtain ⟨n, -, rfl⟩ := Finset.mem_image.1 hz
      rw [Finset.mem_erase, Finset.mem_range]
      exact ⟨hzero n, (hf.iterate n).lt x hx⟩
    · rw [Finset.card_image_of_injOn hinj, Finset.card_range,
        Finset.card_erase_of_mem (Finset.mem_range.2 (Nat.two_pow_pos w)),
        Finset.card_range]
  have hmem : y ∈ (Finset.range (2 ^ w - 1)).image (fun n => f^[n] x) := by
    rw [himage, Finset.mem_erase, Finset.mem_range]
    exact ⟨hne, hy⟩
  obtain ⟨n, hn, heq⟩ := Finset.mem_image.1 hmem
  exact ⟨n, Finset.mem_range.1 hn, heq⟩

/-- Then every word but zero has an orbit of this length. -/
theorem minimalPeriod_eq (hf : Linear w f) (hx : x < 2 ^ w)
    (hperiod : minimalPeriod f x = 2 ^ w - 1) (hlong : 1 < 2 ^ w - 1)
    {y : ℕ} (hy : y < 2 ^ w) (hne : y ≠ 0) :
    minimalPeriod f y = 2 ^ w - 1 := by
  obtain ⟨n, -, rfl⟩ := exists_iterate_eq hf hx hperiod hlong hy hne
  have hpoint : x ∈ Function.periodicPts f :=
    Function.minimalPeriod_pos_iff_mem_periodicPts.1 (by omega)
  rw [Function.minimalPeriod_apply_iterate hpoint, hperiod]

end Orbit

end XorLinear
