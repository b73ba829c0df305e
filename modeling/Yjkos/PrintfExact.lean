import Yjkos.PrintfOutput

/-!
# Exactness of the number conversions

The digits which are emitted are those of the number exactly if the low 32
bits of the magnitude have as many digits as the magnitude itself.
-/

namespace Yjkos
namespace Printf

open Numeral

theorem count_wrap_le (base : Base) (m : ℕ) :
    count base.radix (wrap m) ≤ count base.radix m :=
  Nat.succ_le_succ (Nat.log_mono_right (Nat.mod_le _ _))

theorem count_wrap_eq_iff (base : Base) (m : ℕ) :
    count base.radix (wrap m) = count base.radix m ↔
      Conversion.Fits base m := by
  unfold Conversion.Fits
  by_cases hsmall : m < 4294967296
  · rw [wrap_of_lt hsmall]
    exact iff_of_true rfl (.inl hsmall)
  have hwrap := wrap_lt m
  have hpos : m ≠ 0 := by omega
  cases base with
  | dec =>
      have hlog : 9 ≤ Nat.log 10 m :=
        Nat.le_log_of_pow_le (by decide) (by norm_num; omega)
      have hlow : Nat.log 10 (wrap m) < 10 := by
        by_cases hzero : wrap m = 0
        · simp [hzero]
        · exact Nat.log_lt_of_lt_pow hzero (by norm_num; omega)
      have hleft : 9 ≤ Nat.log 10 (wrap m) ↔ 1000000000 ≤ wrap m := by
        by_cases hzero : wrap m = 0
        · simp [hzero]
        · rw [Nat.le_log_iff_pow_le (by decide) hzero]
      have hright : Nat.log 10 m < 10 ↔ m < 10000000000 := by
        rw [Nat.log_lt_iff_lt_pow (by decide) hpos]
      simp only [count, Base.radix, true_and, hsmall, false_or]
      rw [← hright]
      change _ ↔ 1000000000 ≤ wrap m ∧ _
      rw [← hleft]
      omega
  | hex =>
      have hlog : 8 ≤ Nat.log 16 m :=
        Nat.le_log_of_pow_le (by decide) (by norm_num; omega)
      have hlow : Nat.log 16 (wrap m) < 8 := by
        by_cases hzero : wrap m = 0
        · simp [hzero]
        · exact Nat.log_lt_of_lt_pow hzero (by norm_num; omega)
      simp only [count, Base.radix, hsmall, false_or]
      refine iff_of_false (by omega) ?_
      rintro ⟨h, -⟩
      cases h

theorem count_le_of_lt (base : Base) {m : ℕ} (hm : m < 18446744073709551616) :
    count base.radix m ≤ 64 := by
  have hlog : Nat.log base.radix m ≤ Nat.log 2 m :=
    Nat.log_anti_left (by decide) base.one_lt_radix
  have htwo : Nat.log 2 m < 64 := by
    by_cases hzero : m = 0
    · simp [hzero]
    · exact Nat.log_lt_of_lt_pow hzero (by norm_num; omega)
  unfold count
  omega

namespace Kind

theorem digitChar_ne_minus (kind : Kind) :
    ∀ d < kind.base.radix, kind.digitChar d ≠ minus := by
  cases kind <;> decide

theorem digitChar_ne_zero (kind : Kind) :
    ∀ d < kind.base.radix, d ≠ 0 → kind.digitChar d ≠ 0x30 := by
  cases kind <;> decide

theorem digitChar_ne_blank (kind : Kind) :
    ∀ d < kind.base.radix, d ≠ 0 → kind.digitChar d ≠ 0x20 := by
  cases kind <;> decide

end Kind

namespace Conversion

variable (conv : Conversion)

/-- The canonical text with a given sign. -/
def signed (sign : List Byte) (m : ℕ) : List Byte :=
  sign ++ (digits conv.kind.base.radix m).map conv.kind.digitChar

/-- A padded text with the prefix in front. -/
def padded (text : List Byte) : List Byte :=
  conv.numberPrefix ++ List.replicate
    (conv.width - (conv.numberPrefix.length + text.length)) conv.padchar ++
      text

theorem digitChar_ne_padchar :
    ∀ d < conv.kind.base.radix, d ≠ 0 → conv.kind.digitChar d ≠ conv.padchar := by
  intro d hd hne
  unfold padchar
  split
  · exact conv.kind.digitChar_ne_zero d hd hne
  · exact conv.kind.digitChar_ne_blank d hd hne

theorem numberPrefix_length_le : conv.numberPrefix.length ≤ 2 := by
  unfold numberPrefix
  split
  · split <;> decide
  · decide

theorem emission_eq_iff {sign : List Byte} (hsign : sign = [] ∨ sign = [minus])
    {m : ℕ} (hm : m < 18446744073709551616) :
    conv.emission (sign ++ numberText conv.kind.base conv.kind.digitChar m) =
        conv.padded (conv.signed sign m) ↔
      conv.width < 4294967296 ∧ Fits conv.kind.base m := by
  have hradix := conv.kind.base.one_lt_radix
  have hdigits := digits_eq_lowDigits hradix m
  constructor
  · intro heq
    simp only [emission, padded, signed, List.append_assoc] at heq
    have hnumber := List.append_cancel_left heq
    have hfits : Fits conv.kind.base m := by
      rw [← count_wrap_eq_iff]
      by_contra hne
      have hlt := lt_of_le_of_ne (count_wrap_le conv.kind.base m) hne
      cases hsign with
      | inl hsign =>
          subst hsign
          exact padded_ne conv.kind.digitChar hradix
            conv.digitChar_ne_padchar (Nat.succ_pos _) hlt _ _ hnumber
      | inr hsign =>
          subst hsign
          exact padded_sign_ne conv.kind.digitChar hradix
            conv.kind.digitChar_ne_minus (Nat.succ_pos _) hlt _ _ hnumber
    refine ⟨?_, hfits⟩
    have htext : numberText conv.kind.base conv.kind.digitChar m =
        (digits conv.kind.base.radix m).map conv.kind.digitChar := by
      rw [numberText, (count_wrap_eq_iff _ m).mpr hfits, hdigits]
    rw [htext] at hnumber
    have hpads := congrArg List.length (List.append_cancel_right hnumber)
    simp only [List.length_replicate, List.length_append, List.length_map,
      digits_length hradix] at hpads
    have hcount := count_le_of_lt conv.kind.base hm
    have hlead := conv.numberPrefix_length_le
    have hsignLength : sign.length ≤ 1 := by
      cases hsign with
      | inl h => simp [h]
      | inr h => simp [h]
    by_contra hwide
    have hwrap := wrap_lt conv.width
    omega
  · rintro ⟨hwidth, hfits⟩
    have htext : numberText conv.kind.base conv.kind.digitChar m =
        (digits conv.kind.base.radix m).map conv.kind.digitChar := by
      rw [numberText, (count_wrap_eq_iff _ m).mpr hfits, hdigits]
    rw [htext, emission, padded, signed, wrap_of_lt hwidth]

theorem numeral_eq (v : ℤ) :
    conv.numeral v = conv.signed (if v < 0 then [minus] else []) v.natAbs :=
  rfl

end Conversion

theorem signedText_eq (i : BitVec 64) :
    signedText i = (if i.toInt < 0 then [minus] else []) ++
      numberText .dec decChar i.toInt.natAbs := by
  have hlt := i.isLt
  have hint := BitVec.toInt_eq_toNat_cond i
  unfold signedText
  by_cases hneg : i.toInt < 0
  · have hmagnitude : (-i).toNat = i.toInt.natAbs := by
      rw [BitVec.toNat_neg]
      split at hint <;> omega
    rw [if_pos hneg, if_pos hneg, hmagnitude]
    rfl
  · have hmagnitude : i.toNat = i.toInt.natAbs := by
      split at hint <;> omega
    rw [if_neg hneg, if_neg hneg, hmagnitude]
    rfl

theorem bits_le (lenmod : Lenmod) : lenmod.bits ≤ 64 := by
  cases lenmod <;> decide

namespace Conversion

variable (conv : Conversion) (arg : BitVec conv.lenmod.bits)

theorem arg_lt : arg.toNat < 18446744073709551616 :=
  arg.isLt.trans_le (Nat.pow_le_pow_right (by decide) (bits_le conv.lenmod))

theorem read_toNat (h : ¬(conv.kind = .d ∧ conv.lenmod ≠ .size)) :
    (conv.read arg).toNat = arg.toNat := by
  rw [read, if_neg h, BitVec.toNat_setWidth]
  exact Nat.mod_eq_of_lt (conv.arg_lt arg)

theorem read_toInt (hkind : conv.kind = .d) (hsize : conv.lenmod ≠ .size) :
    (conv.read arg).toInt = arg.toInt := by
  rw [read, if_pos ⟨hkind, hsize⟩]
  exact BitVec.toInt_signExtend_of_le (bits_le conv.lenmod)

theorem minus_not_mem_emission {m : ℕ} :
    minus ∉ conv.emission
      (numberText conv.kind.base conv.kind.digitChar m) := by
  have hpadchar : minus ≠ conv.padchar := by
    unfold padchar
    split <;> decide
  have hlead : minus ∉ conv.numberPrefix := by
    unfold numberPrefix
    split
    · split <;> decide
    · decide
  simp only [emission, List.mem_append, not_or]
  refine ⟨⟨hlead, fun hmem => hpadchar (List.eq_of_mem_replicate hmem)⟩, ?_⟩
  intro hmem
  obtain ⟨d, hd, hchar⟩ := List.mem_map.mp hmem
  exact conv.kind.digitChar_ne_minus d
    (lt_of_mem_lowDigits conv.kind.base.one_lt_radix hd) hchar

theorem exact_iff_of_read (h : ¬(conv.kind = .d ∧ conv.lenmod = .size ∧
      conv.value arg < 0)) :
    conv.Exact arg ↔ conv.width < 4294967296 ∧
      Fits conv.kind.base (conv.value arg).natAbs := by
  simp only [Exact, h, not_false_eq_true, true_and]

theorem emitted_of_signed (hkind : conv.kind = .d) :
    conv.emitted arg = conv.emission
      ((if (conv.read arg).toInt < 0 then [minus] else []) ++
        numberText conv.kind.base conv.kind.digitChar
          (conv.read arg).toInt.natAbs) := by
  have hbase : conv.kind.base = .dec := by
    rw [hkind]
    rfl
  have hchar : conv.kind.digitChar = decChar := by
    rw [hkind]
    rfl
  rw [emitted, readText, if_pos hkind, signedText_eq, hbase, hchar]

theorem natAbs_toInt_lt (i : BitVec 64) :
    i.toInt.natAbs < 18446744073709551616 := by
  have hlt := i.isLt
  have hint := BitVec.toInt_eq_toNat_cond i
  split at hint <;> omega

/-- The number which the code reads is the number of the argument, so only
the width and the digits matter. -/
theorem emitted_iff_of_value {v : BitVec 64} (hread : conv.read arg = v)
    (hvalue : if conv.kind = .d then v.toInt = conv.value arg
      else (v.toNat : ℤ) = conv.value arg) :
    conv.emitted arg = conv.padded (conv.numeral (conv.value arg)) ↔
      conv.width < 4294967296 ∧
        Fits conv.kind.base (conv.value arg).natAbs := by
  rw [numeral_eq]
  by_cases hkind : conv.kind = .d
  · rw [if_pos hkind] at hvalue
    rw [conv.emitted_of_signed arg hkind, hread, ← hvalue]
    refine conv.emission_eq_iff ?_ (natAbs_toInt_lt v)
    split
    · exact .inr rfl
    · exact .inl rfl
  · rw [if_neg hkind] at hvalue
    have hsign : ¬conv.value arg < 0 := by omega
    have hmagnitude : (conv.value arg).natAbs = v.toNat := by omega
    have htext : conv.readText arg =
        [] ++ numberText conv.kind.base conv.kind.digitChar v.toNat := by
      rw [readText, if_neg hkind, hread, List.nil_append]
    rw [emitted, htext, if_neg hsign, hmagnitude]
    exact conv.emission_eq_iff (.inl rfl) v.isLt

theorem emitted_eq_expected_iff :
    conv.emitted arg = conv.expected arg ↔ conv.Exact arg := by
  have hexpected : conv.expected arg =
      conv.padded (conv.numeral (conv.value arg)) := rfl
  have hlt := conv.arg_lt arg
  rw [hexpected]
  by_cases hkind : conv.kind = .d
  · have hvalue : conv.value arg = arg.toInt := if_pos hkind
    by_cases hsize : conv.lenmod = .size
    · -- `%zd` reads a `size_t`.
      have hpow : 2 ^ conv.lenmod.bits = 4294967296 := by
        rw [hsize]
        rfl
      have hword := arg.isLt
      have hint := BitVec.toInt_eq_toNat_cond arg
      have hread := conv.read_toNat arg fun h => h.2 hsize
      have hreadInt := BitVec.toInt_eq_toNat_cond (conv.read arg)
      rw [hpow] at hword hint
      rw [if_pos (by omega)] at hreadInt
      by_cases hneg : conv.value arg < 0
      · refine iff_of_false (fun heq => ?_) fun h => h.2.1 ⟨hkind, hsize, hneg⟩
        have hplain : ¬(conv.read arg).toInt < 0 := by omega
        have hmem : minus ∈ conv.emitted arg := by
          rw [heq, numeral_eq, if_pos hneg]
          simp [padded, signed]
        rw [conv.emitted_of_signed arg hkind, if_neg hplain,
          List.nil_append] at hmem
        exact conv.minus_not_mem_emission hmem
      · rw [exact_iff_of_read conv arg fun h => hneg h.2.2]
        refine conv.emitted_iff_of_value arg rfl ?_
        rw [if_pos hkind]
        split at hint <;> omega
    · rw [exact_iff_of_read conv arg fun h => hsize h.2.1]
      refine conv.emitted_iff_of_value arg rfl ?_
      rw [if_pos hkind, hvalue, conv.read_toInt arg hkind hsize]
  · have hvalue : conv.value arg = arg.toNat := if_neg hkind
    rw [exact_iff_of_read conv arg fun h => hkind h.1]
    refine conv.emitted_iff_of_value arg rfl ?_
    rw [if_neg hkind, hvalue, conv.read_toNat arg fun h => hkind h.1]

end Conversion

/-- On a stream which takes every byte, a conversion at any place of a format
emits exactly what is expected, and the rest of the format goes on with the
next argument, if and only if the condition holds. -/
theorem conversion_exact_iff {write : List Byte → Byte → ℤ}
    (hwrite : Takes write) (memory : Word → Option (List Byte))
    (conv : Conversion) (arg : BitVec conv.lenmod.bits) :
    (∀ rest ap writtenCount sent,
      percentorchar write memory (conv.text ++ rest) (conv.words arg ++ ap)
          writtenCount sent =
        percentorchar write memory rest ap
          (writtenCount + (conv.expected arg).length)
          (sent ++ conv.expected arg)) ↔
      conv.Exact arg := by
  rw [← conv.emitted_eq_expected_iff arg]
  constructor
  · intro h
    have hend := h [] [] 0 []
    rw [percentorchar_text hwrite, percentorchar, percentorchar] at hend
    simp only [Except.ok.injEq, Prod.mk.injEq, List.nil_append] at hend
    exact hend.2
  · intro heq rest ap writtenCount sent
    rw [percentorchar_text hwrite, heq]

/-- `%#10x` -/
def percentHex : Conversion := ⟨[.alternate], 10, .int, .x, by decide⟩

theorem percentHex_exact :
    percentorchar (fun _ _ => 1) (fun _ => none)
        (percentHex.text ++ [0x2e])
        (percentHex.words (0xbeef : BitVec 32) ++ []) 0 [] =
      percentorchar (fun _ _ => 1) (fun _ => none) [0x2e] []
        (0 + (percentHex.expected (0xbeef : BitVec 32)).length)
        ([] ++ percentHex.expected (0xbeef : BitVec 32)) :=
  (conversion_exact_iff (fun _ _ => rfl) (fun _ => none) percentHex
    (0xbeef : BitVec 32)).mpr
      ⟨by decide, fun h => absurd h.1 (by decide), .inl (by decide)⟩
      [0x2e] [] 0 []

/-- `%llu` -/
def percentLlu : Conversion := ⟨[], 0, .longLong, .u, by decide⟩

/-- The number of the argument, 2 to the 32, is printed as one digit. -/
theorem percentLlu_drops_digits :
    streamVprintf (fun _ _ => 1) (fun _ => none) [0x25, 0x6c, 0x6c, 0x75]
        [0, 1] [] = .ok (1, [0x36]) ∧
      percentLlu.text = [0x25, 0x6c, 0x6c, 0x75] ∧
      percentLlu.words (0x100000000 : BitVec 64) = [0, 1] ∧
      percentLlu.expected (0x100000000 : BitVec 64) =
        [0x34, 0x32, 0x39, 0x34, 0x39, 0x36, 0x37, 0x32, 0x39, 0x36] := by
  have htext : percentLlu.text = [0x25, 0x6c, 0x6c, 0x75] := by decide
  have hwords : percentLlu.words (0x100000000 : BitVec 64) = [0, 1] := by
    decide
  have hwrite : Takes fun _ _ => 1 := fun _ _ => rfl
  have hcode := percentorchar_text hwrite (fun _ => none) percentLlu
    (0x100000000 : BitVec 64) [] [] [] 0
  have hemitted : percentLlu.emitted (0x100000000 : BitVec 64) = [0x36] := by
    decide +kernel
  refine ⟨?_, htext, hwords, ?_⟩
  · rw [htext, hwords, List.append_nil, List.append_nil] at hcode
    rw [streamVprintf, hcode, hemitted, percentorchar]
    decide
  · decide +kernel

end Printf
end Yjkos
