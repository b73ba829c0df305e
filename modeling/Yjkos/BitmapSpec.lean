import Yjkos.Bitmap

/-!
# Bitmaps bit by bit

`Bitmap.bit` reads one bit of a bitmap, and is false beyond its end.  Each
operation of `Bitmap` is characterised here by its effect on the bits, so
that the clients never look at words again.
-/

namespace Yjkos
namespace Bitmap

/-- Bit `i` of the bitmap. -/
def bit (self : Bitmap) (i : ℕ) : Bool :=
  (self.word (i / 32)).getLsbD (i % 32)

def bitCount (self : Bitmap) : ℕ := self.wordCount * 32

theorem bit_of_bitCount_le {self : Bitmap} {i : ℕ}
    (hi : self.bitCount ≤ i) : self.bit i = false := by
  have hword : self.words.length ≤ i / 32 := by
    unfold bitCount wordCount at hi
    omega
  simp [bit, word, List.getD_eq_getElem?_getD,
    List.getElem?_eq_none hword]

theorem lt_bitCount_of_bit {self : Bitmap} {i : ℕ}
    (hi : self.bit i = true) : i < self.bitCount := by
  by_contra hle
  rw [bit_of_bitCount_le (by omega)] at hi
  contradiction

theorem bit_word {self : Bitmap} {w j : ℕ} (hj : j < 32) :
    self.bit (w * 32 + j) = (self.word w).getLsbD j := by
  have hdiv : (w * 32 + j) / 32 = w := by omega
  have hmod : (w * 32 + j) % 32 = j := by omega
  simp [bit, hdiv, hmod]

/-- Bitmaps of one length with equal bits are equal. -/
theorem ext_bit {a b : Bitmap} (hcount : a.wordCount = b.wordCount)
    (hbits : ∀ i, a.bit i = b.bit i) : a = b := by
  rcases a with ⟨awords⟩
  rcases b with ⟨bwords⟩
  congr 1
  apply List.ext_getElem hcount
  intro w ha hb
  apply BitVec.eq_of_getLsbD_eq
  intro j hj
  have h := hbits (w * 32 + j)
  rw [bit_word hj, bit_word hj] at h
  simpa [word, ha, hb] using h

theorem and_one_eq_zero_iff (x : BitVec 32) :
    x &&& 1 = 0 ↔ x.getLsbD 0 = false := by
  constructor
  · intro h
    have hbit := congrArg (fun y => BitVec.getLsbD y 0) h
    simpa using hbit
  · intro h
    apply BitVec.eq_of_getLsbD_eq
    intro j hj
    by_cases hzero : j = 0
    · subst j
      rw [BitVec.getLsbD_and, h]
      simp
    · simp [hzero]

/-! ## Searching inside one word -/

theorem findFirstSetBitLoop_spec (w : BitVec 32) :
    ∀ (steps index : ℕ), index < 32 → 32 ≤ index + steps →
      (findFirstSetBitLoop steps (w >>> index) index = -1 ∧
        ∀ j, index ≤ j → w.getLsbD j = false) ∨
      ∃ r : ℕ, findFirstSetBitLoop steps (w >>> index) index = r ∧
        index ≤ r ∧ r < 32 ∧ w.getLsbD r = true ∧
        ∀ j, index ≤ j → j < r → w.getLsbD j = false := by
  intro steps
  induction steps with
  | zero =>
      intro index hlt hsteps
      omega
  | succ steps ih =>
      intro index hlt hsteps
      simp only [findFirstSetBitLoop, and_one_eq_zero_iff,
        BitVec.getLsbD_ushiftRight, Nat.add_zero]
      by_cases hbit : w.getLsbD index = true
      · right
        refine ⟨index, by simp [hbit], le_rfl, hlt, hbit, ?_⟩
        intro j hle hltj
        omega
      · have hclear : w.getLsbD index = false := by simpa using hbit
        simp only [hclear, if_true]
        by_cases hlast : index = bitsPerWord - 1
        · left
          refine ⟨by simp [hlast], ?_⟩
          intro j hj
          rcases hj.eq_or_lt with heq | hgt
          · exact heq ▸ hclear
          · apply BitVec.getLsbD_of_ge
            unfold bitsPerWord at hlast
            omega
        · have hnext : index + 1 < 32 := by
            unfold bitsPerWord at hlast
            omega
          have hshift : w >>> index >>> 1 = w >>> (index + 1) :=
            (BitVec.shiftRight_add w index 1).symm
          rw [if_neg hlast, hshift]
          rcases ih (index + 1) hnext (by omega) with
            ⟨hnone, hall⟩ | ⟨r, hr, hle, hr32, hset, hall⟩
          · left
            refine ⟨hnone, ?_⟩
            intro j hj
            rcases hj.eq_or_lt with heq | hgt
            · exact heq ▸ hclear
            · exact hall j hgt
          · right
            refine ⟨r, hr, by omega, hr32, hset, ?_⟩
            intro j hj hjr
            rcases hj.eq_or_lt with heq | hgt
            · exact heq ▸ hclear
            · exact hall j hgt hjr

theorem findFirstSetBit_spec (w : BitVec 32) {s : ℕ} (hs : s < 32) :
    (findFirstSetBit w s = -1 ∧ ∀ j, s ≤ j → w.getLsbD j = false) ∨
    ∃ r : ℕ, findFirstSetBit w s = r ∧ s ≤ r ∧ r < 32 ∧
      w.getLsbD r = true ∧ ∀ j, s ≤ j → j < r → w.getLsbD j = false := by
  have hguard : ¬((s : ℤ) < 0 ∨ (bitsPerWord : ℤ) ≤ s) := by
    unfold bitsPerWord
    omega
  simp only [findFirstSetBit, if_neg hguard, Int.toNat_natCast]
  by_cases hzero : w >>> s = 0
  · left
    refine ⟨by simp [hzero], ?_⟩
    intro j hj
    have hbit := congrArg (fun y => BitVec.getLsbD y (j - s)) hzero
    simpa [Nat.add_sub_cancel' hj] using hbit
  · rw [if_neg hzero]
    exact findFirstSetBitLoop_spec w bitsPerWord s hs (by simp [bitsPerWord])

theorem findLastContiguousBitLoop_spec (w : BitVec 32) :
    ∀ (steps index : ℕ), index ≤ 32 → 32 ≤ index + steps →
      index ≤ findLastContiguousBitLoop steps (w >>> index) index ∧
      findLastContiguousBitLoop steps (w >>> index) index ≤ 32 ∧
      (∀ j, index ≤ j →
        j < findLastContiguousBitLoop steps (w >>> index) index →
        w.getLsbD j = true) ∧
      w.getLsbD (findLastContiguousBitLoop steps (w >>> index) index) =
        false := by
  intro steps
  induction steps with
  | zero =>
      intro index hle hsteps
      have hindex : index = 32 := by omega
      subst index
      refine ⟨le_rfl, le_rfl, ?_, BitVec.getLsbD_of_ge _ _ le_rfl⟩
      intro j hj hlt
      simp only [findLastContiguousBitLoop] at hlt
      omega
  | succ steps ih =>
      intro index hle hsteps
      simp only [findLastContiguousBitLoop, ne_eq, and_one_eq_zero_iff,
        BitVec.getLsbD_ushiftRight, Nat.add_zero]
      by_cases hbit : w.getLsbD index = true
      · have hlt : index < 32 := BitVec.lt_of_getLsbD hbit
        have hshift : w >>> index >>> 1 = w >>> (index + 1) :=
          (BitVec.shiftRight_add w index 1).symm
        simp only [hbit, Bool.true_eq_false, not_false_eq_true, if_true,
          hshift]
        obtain ⟨hge, hle32, hall, hstop⟩ :=
          ih (index + 1) (by omega) (by omega)
        refine ⟨by omega, hle32, ?_, hstop⟩
        intro j hj hjlt
        rcases hj.eq_or_lt with heq | hgt
        · exact heq ▸ hbit
        · exact hall j hgt hjlt
      · have hclear : w.getLsbD index = false := by simpa using hbit
        simp only [hclear, not_true_eq_false, if_false]
        refine ⟨le_rfl, hle, ?_, trivial⟩
        intro j hj hjlt
        omega

/-- From a set bit, the search gives the last bit of its run in the word. -/
theorem findLastContiguousBit_spec {w : BitVec 32} {s : ℕ}
    (hset : w.getLsbD s = true) :
    ∃ r : ℕ, findLastContiguousBit w s = r ∧ s ≤ r ∧ r < 32 ∧
      (∀ j, s ≤ j → j ≤ r → w.getLsbD j = true) ∧
      w.getLsbD (r + 1) = false := by
  have hs : s < 32 := BitVec.lt_of_getLsbD hset
  have hguard : ¬((s : ℤ) < 0 ∨ (bitsPerWord : ℤ) ≤ s) := by
    unfold bitsPerWord
    omega
  simp only [findLastContiguousBit, if_neg hguard, Int.toNat_natCast]
  by_cases hones : w = wordAllOnes
  · refine ⟨31, by simp [hones, bitsPerWord], by omega, by omega, ?_,
      BitVec.getLsbD_of_ge _ _ le_rfl⟩
    intro j _ hj
    rw [hones, wordAllOnes, BitVec.getLsbD_allOnes]
    exact decide_eq_true (by omega)
  · rw [if_neg hones]
    have hone : ¬(w >>> s &&& 1 = 0) := by
      rw [and_one_eq_zero_iff]
      simp [hset]
    rw [if_neg hone]
    obtain ⟨hge, hle, hall, hstop⟩ :=
      findLastContiguousBitLoop_spec w bitsPerWord s hs.le
        (by simp [bitsPerWord])
    generalize findLastContiguousBitLoop bitsPerWord (w >>> s) s = e at *
    have hse : s < e := by
      rcases hge.eq_or_lt with heq | hlt
      · rw [← heq, hset] at hstop
        contradiction
      · exact hlt
    refine ⟨e - 1, by omega, by omega, by omega, ?_, ?_⟩
    · intro j hj hje
      exact hall j hj (by omega)
    · rw [Nat.sub_add_cancel (by omega)]
      exact hstop

/-! ## Searching the whole bitmap -/

/-- `r` is the first set bit at or after `s`. -/
structure IsFirstSet (b : Bitmap) (s r : ℕ) : Prop where
  le : s ≤ r
  set : b.bit r = true
  clear_before : ∀ i, s ≤ i → i < r → b.bit i = false

theorem findFirstSetBitFrom_spec (self : Bitmap) :
    ∀ (left wordIdx bitoffset : ℕ), left = self.wordCount - wordIdx →
      bitoffset < 32 →
      (findFirstSetBitFrom self left wordIdx bitoffset = -1 ∧
        ∀ i, wordIdx * 32 + bitoffset ≤ i → self.bit i = false) ∨
      ∃ r : ℕ, findFirstSetBitFrom self left wordIdx bitoffset = r ∧
        self.IsFirstSet (wordIdx * 32 + bitoffset) r := by
  intro left
  induction left with
  | zero =>
      intro wordIdx bitoffset hleft _
      left
      refine ⟨rfl, ?_⟩
      intro i hi
      apply bit_of_bitCount_le
      unfold bitCount
      omega
  | succ left ih =>
      intro wordIdx bitoffset hleft hoffset
      simp only [findFirstSetBitFrom]
      rcases findFirstSetBit_spec (self.word wordIdx) hoffset with
        ⟨hnone, hall⟩ | ⟨r, hr, hle, hr32, hset, hall⟩
      · have hword : ∀ i, wordIdx * 32 + bitoffset ≤ i →
            i < (wordIdx + 1) * 32 → self.bit i = false := by
          intro i hi hlt
          have hsplit : i = wordIdx * 32 + (i - wordIdx * 32) := by omega
          rw [hsplit, bit_word (by omega)]
          exact hall _ (by omega)
        rw [hnone, if_neg (by omega)]
        rcases ih (wordIdx + 1) 0 (by omega) (by omega) with
          ⟨hnone', hall'⟩ | ⟨r, hr, hfirst⟩
        · left
          refine ⟨hnone', ?_⟩
          intro i hi
          by_cases hlt : i < (wordIdx + 1) * 32
          · exact hword i hi hlt
          · exact hall' i (by omega)
        · right
          refine ⟨r, hr, ?_, hfirst.set, ?_⟩
          · have := hfirst.le
            omega
          · intro i hi hir
            by_cases hlt : i < (wordIdx + 1) * 32
            · exact hword i hi hlt
            · exact hfirst.clear_before i (by omega) hir
      · right
        rw [hr, if_pos (by omega)]
        refine ⟨wordIdx * 32 + r, by simp [bitsPerWord], by omega, ?_, ?_⟩
        · rw [bit_word hr32]
          exact hset
        · intro i hi hir
          have hsplit : i = wordIdx * 32 + (i - wordIdx * 32) := by omega
          rw [hsplit, bit_word (by omega)]
          exact hall _ (by omega) (by omega)

/-- `bitmap_find_first_set_bit` finds the first set bit from the start
position on, and gives -1 when there is none. -/
theorem bitmapFindFirstSetBit_spec (self : Bitmap) (s : ℕ) :
    (self.bitmapFindFirstSetBit s = -1 ∧
      ∀ i, s ≤ i → self.bit i = false) ∨
    ∃ r : ℕ, self.bitmapFindFirstSetBit s = r ∧ self.IsFirstSet s r := by
  have hneg : ¬((s : ℤ) < 0) := by omega
  have hsplit : s / 32 * 32 + s % 32 = s := by omega
  simp only [bitmapFindFirstSetBit, if_neg hneg, Int.toNat_natCast,
    bitsPerWord]
  have h := findFirstSetBitFrom_spec self (self.wordCount - s / 32) (s / 32)
    (s % 32) rfl (by omega)
  rw [hsplit] at h
  exact h

/-- `r` is the last bit of the run of set bits which contains `s`. -/
structure IsRunEnd (b : Bitmap) (s r : ℕ) : Prop where
  le : s ≤ r
  set : ∀ i, s ≤ i → i ≤ r → b.bit i = true
  clear_after : b.bit (r + 1) = false

theorem findLastContiguousBitFrom_spec (self : Bitmap) :
    ∀ (left wordIdx bitoffset : ℕ), left = self.wordCount - wordIdx →
      bitoffset < 32 → self.bit (wordIdx * 32 + bitoffset) = true →
      ∃ r : ℕ, findLastContiguousBitFrom self left wordIdx bitoffset = r ∧
        self.IsRunEnd (wordIdx * 32 + bitoffset) r := by
  intro left
  induction left with
  | zero =>
      intro wordIdx bitoffset hleft _ hset
      have := lt_bitCount_of_bit hset
      unfold bitCount at this
      omega
  | succ left ih =>
      intro wordIdx bitoffset hleft hoffset hset
      rw [bit_word hoffset] at hset
      obtain ⟨r, hr, hle, hr32, hrun, hstop⟩ :=
        findLastContiguousBit_spec hset
      have hword : ∀ i, wordIdx * 32 + bitoffset ≤ i →
          i ≤ wordIdx * 32 + r → self.bit i = true := by
        intro i hi hir
        have hsplit : i = wordIdx * 32 + (i - wordIdx * 32) := by omega
        rw [hsplit, bit_word (by omega)]
        exact hrun _ (by omega) (by omega)
      simp only [findLastContiguousBitFrom, hr, bitsPerWord]
      rw [if_neg (by omega)]
      by_cases hmsb : r = 31
      · subst r
        by_cases hnext : self.bit ((wordIdx + 1) * 32) = true
        · -- the run continues in the next word
          have hnextWord := hnext
          have hnextLt := lt_bitCount_of_bit hnext
          unfold bitCount at hnextLt
          rw [show (wordIdx + 1) * 32 = (wordIdx + 1) * 32 + 0 by omega,
            bit_word (by omega)] at hnextWord
          rw [if_neg]
          · obtain ⟨e, he, hend⟩ :=
              ih (wordIdx + 1) 0 (by omega) (by omega) (by simpa using hnext)
            have := hend.le
            refine ⟨e, he, by omega, ?_, hend.clear_after⟩
            intro i hi hie
            by_cases hlt : i ≤ wordIdx * 32 + 31
            · exact hword i hi hlt
            · exact hend.set i (by omega) hie
          · rw [and_one_eq_zero_iff, hnextWord]
            simp
        · have hclear : self.bit ((wordIdx + 1) * 32) = false := by
            simpa using hnext
          have hend : self.IsRunEnd (wordIdx * 32 + bitoffset)
              (wordIdx * 32 + 31) := by
            refine ⟨by omega, hword, ?_⟩
            rw [show wordIdx * 32 + 31 + 1 = (wordIdx + 1) * 32 by omega]
            exact hclear
          by_cases hlast : wordIdx + 1 < self.wordCount
          · rw [if_pos]
            · exact ⟨wordIdx * 32 + 31, by push_cast; ring, hend⟩
            · right
              refine ⟨by norm_num, hlast, ?_⟩
              rw [and_one_eq_zero_iff]
              rw [show (wordIdx + 1) * 32 = (wordIdx + 1) * 32 + 0 by omega,
                bit_word (by omega)] at hclear
              exact hclear
          · -- last word of the array: the scan leaves its loop
            rw [if_neg (by simp [hlast])]
            have hzero : left = 0 := by omega
            subst left
            refine ⟨wordIdx * 32 + 31, ?_, hend⟩
            have hcount : self.wordCount = wordIdx + 1 := by omega
            simp only [findLastContiguousBitFrom, hcount, bitsPerWord]
            push_cast
            ring
      · rw [if_pos (by left; omega)]
        refine ⟨wordIdx * 32 + r, by push_cast; ring, by omega, hword, ?_⟩
        rw [Nat.add_assoc, bit_word (by omega)]
        exact hstop

/-- From a set bit, `bitmap_find_last_contiguous_bit` finds the end of its
run. -/
theorem bitmapFindLastContiguousBit_spec {self : Bitmap} {s : ℕ}
    (hset : self.bit s = true) :
    ∃ r : ℕ, self.bitmapFindLastContiguousBit s = r ∧
      self.IsRunEnd s r := by
  have hneg : ¬((s : ℤ) < 0) := by omega
  have hsplit : s / 32 * 32 + s % 32 = s := by omega
  have hlt := lt_bitCount_of_bit hset
  unfold bitCount at hlt
  have hinside : ¬self.wordCount ≤ s / 32 := by omega
  simp only [bitmapFindLastContiguousBit, if_neg hneg, Int.toNat_natCast,
    bitsPerWord, hinside, if_false]
  have h := findLastContiguousBitFrom_spec self (self.wordCount - s / 32)
    (s / 32) (s % 32) rfl (by omega) (by rw [hsplit]; exact hset)
  rw [hsplit] at h
  exact h

/-- Bits `i .. i + len - 1` are all set. -/
def AllSet (self : Bitmap) (i len : ℕ) : Prop :=
  ∀ j, i ≤ j → j < i + len → self.bit j = true

/-- The outcome of the naive search for `minlen` set bits from `s` on. -/
def IsSearchResult (self : Bitmap) (s minlen : ℕ) (result : ℤ) : Prop :=
  (result = -1 ∧ ∀ i, s ≤ i → ¬self.AllSet i minlen) ∨
  ∃ r : ℕ, result = r ∧ s ≤ r ∧ self.AllSet r minlen ∧
    ∀ i, s ≤ i → i < r → ¬self.AllSet i minlen

/-- A run which ends before `minlen` bits are reached starts no match. -/
theorem IsRunEnd.not_allSet {b : Bitmap} {s e minlen : ℕ}
    (hend : b.IsRunEnd s e) (hshort : e + 1 - s < minlen) :
    ∀ i, s ≤ i → i ≤ e → ¬b.AllSet i minlen := by
  intro i hi hie hall
  have hset := hall (e + 1) (by omega) (by omega)
  rw [hend.clear_after] at hset
  contradiction

theorem IsFirstSet.not_allSet {b : Bitmap} {s r minlen : ℕ}
    (hfirst : b.IsFirstSet s r) (hmin : 0 < minlen) :
    ∀ i, s ≤ i → i < r → ¬b.AllSet i minlen := by
  intro i hi hir hall
  have hset := hall i le_rfl (by omega)
  rw [hfirst.clear_before i hi hir] at hset
  contradiction

theorem findSetBitsLoop_spec (self : Bitmap) {minlen : ℕ}
    (hmin : 0 < minlen)
    (hbound : ∀ i, self.bit i = true → i < 4294967295) :
    ∀ (fuel s : ℕ), self.bitCount < fuel + s → 0 < fuel →
      Returns (self.IsSearchResult s minlen)
        (findSetBitsLoop self minlen fuel s) := by
  intro fuel
  induction fuel with
  | zero =>
      intro s _ hpos
      omega
  | succ fuel ih =>
      intro s hfuel _
      rcases self.bitmapFindFirstSetBit_spec s with
        ⟨hnone, hall⟩ | ⟨r, hr, hfirst⟩
      · refine ⟨-1, by simp [findSetBitsLoop, hnone], Or.inl ⟨rfl, ?_⟩⟩
        intro i hi hset
        have := hset i le_rfl (by omega)
        rw [hall i hi] at this
        contradiction
      · obtain ⟨e, he, hend⟩ := bitmapFindLastContiguousBit_spec hfirst.set
        have hle := hend.le
        have hsr := hfirst.le
        have heset := hend.set e hle le_rfl
        have helt := lt_bitCount_of_bit heset
        have hemax := hbound e heset
        have hlen : toSize ((e : ℤ) - r + 1) = e + 1 - r := by
          unfold toSize
          omega
        have hr0 : ¬((r : ℤ) < 0) := by omega
        simp only [findSetBitsLoop, hr, he, hlen, if_neg hr0]
        by_cases hfound : minlen ≤ e + 1 - r
        · refine ⟨r, by simp [hfound], Or.inr ⟨r, rfl, hfirst.le, ?_,
            hfirst.not_allSet hmin⟩⟩
          intro j hj hjlt
          exact hend.set j hj (by omega)
        · rw [if_neg hfound]
          -- every start up to the end of this run is ruled out
          have hskip : ∀ i, s ≤ i → i < e + 1 → ¬self.AllSet i minlen := by
            intro i hi hie
            by_cases hir : i < r
            · exact hfirst.not_allSet hmin i hi hir
            · exact hend.not_allSet (by omega) i (by omega) (by omega)
          obtain ⟨result, hresult, hsearch⟩ :=
            ih (e + 1) (by omega) (by omega)
          refine ⟨result, by exact_mod_cast hresult, ?_⟩
          rcases hsearch with ⟨hneg, hall⟩ | ⟨q, hq, hqle, hqset, hqmin⟩
          · refine Or.inl ⟨hneg, ?_⟩
            intro i hi
            by_cases hie : i < e + 1
            · exact hskip i hi hie
            · exact hall i (by omega)
          · refine Or.inr ⟨q, hq, by omega, hqset, ?_⟩
            intro i hi hiq
            by_cases hie : i < e + 1
            · exact hskip i hi hie
            · exact hqmin i (by omega) hiq

/-- `bitmap_find_set_bits` terminates with the result of the naive search.
The length of a run is compared as a `size_t`, so it must fit into one. -/
theorem bitmapFindSetBits_spec (self : Bitmap) (s : ℕ) {minlen : ℕ}
    (hmin : 0 < minlen)
    (hbound : ∀ i, self.bit i = true → i < 4294967295) :
    Returns (self.IsSearchResult s minlen)
      (self.bitmapFindSetBits s minlen) := by
  have hneg : ¬((s : ℤ) < 0) := by omega
  simp only [bitmapFindSetBits, if_neg hneg]
  apply findSetBitsLoop_spec self hmin hbound
  · unfold bitCount bitsPerWord
    omega
  · omega

/-! ## Single bits -/

/-- The bitmap with bit `i` replaced; nothing happens beyond its end. -/
def withBit (self : Bitmap) (i : ℕ) (value : Bool) : Bitmap :=
  let mask := 1#32 <<< (i % 32)
  ⟨self.words.set (i / 32)
    (if value then self.word (i / 32) ||| mask
      else self.word (i / 32) &&& ~~~mask)⟩

@[simp]
theorem withBit_wordCount (self : Bitmap) (i : ℕ) (value : Bool) :
    (self.withBit i value).wordCount = self.wordCount := by
  simp [withBit, wordCount]

@[simp]
theorem withBit_bitCount (self : Bitmap) (i : ℕ) (value : Bool) :
    (self.withBit i value).bitCount = self.bitCount := by
  simp [bitCount]

theorem getLsbD_one_shiftLeft {n j : ℕ} (hj : j < 32) :
    (1#32 <<< n).getLsbD j = decide (j = n) := by
  rw [BitVec.getLsbD_shiftLeft]
  by_cases hlt : j < n
  · have hne : j ≠ n := by omega
    simp [hlt, hne]
  · have hsub : j - n = 0 ↔ j = n := by omega
    simp [hlt, hj, hsub]

theorem word_set {words : List (BitVec 32)} {w w' : ℕ} {x : BitVec 32}
    (hw : w < words.length) :
    (Bitmap.mk (words.set w x)).word w' =
      if w' = w then x else (Bitmap.mk words).word w' := by
  simp only [word, List.getD_eq_getElem?_getD, List.getElem?_set]
  by_cases heq : w' = w
  · subst w'
    simp [hw]
  · have hne : w ≠ w' := fun h => heq h.symm
    simp [heq, hne]

theorem bit_withBit {self : Bitmap} {i : ℕ} (hi : i < self.bitCount)
    (value : Bool) (j : ℕ) :
    (self.withBit i value).bit j = if j = i then value else self.bit j := by
  have hword : i / 32 < self.words.length := by
    unfold bitCount wordCount at hi
    omega
  have hj : j % 32 < 32 := Nat.mod_lt _ (by decide)
  have hself : Bitmap.mk self.words = self := rfl
  unfold bit withBit
  rw [word_set hword, hself]
  by_cases hw : j / 32 = i / 32
  · have heq : j % 32 = i % 32 ↔ j = i := by omega
    rw [if_pos hw, hw]
    cases value
    · simp only [Bool.false_eq_true, if_false, BitVec.getLsbD_and,
        BitVec.getLsbD_not, getLsbD_one_shiftLeft hj, heq]
      by_cases h : j = i <;> simp [h, Nat.mod_lt]
    · simp only [if_true, BitVec.getLsbD_or, getLsbD_one_shiftLeft hj, heq]
      by_cases h : j = i <;> simp [h]
  · have hne : j ≠ i := fun h => hw (by rw [h])
    rw [if_neg hw, if_neg hne]

theorem accessBit_of_lt {α : Type} {self : Bitmap} {i : ℕ}
    (hi : i < self.bitCount) (outside : α) (access : ℕ → BitVec 32 → α) :
    self.accessBit i outside access =
      .ok (access (i / 32) (1#32 <<< (i % 32))) := by
  unfold bitCount at hi
  have hneg : ¬((i : ℤ) < 0) := by omega
  have hle : ¬self.wordCount < i / 32 := by omega
  have hlt : ¬self.wordCount ≤ i / 32 := by omega
  simp [accessBit, bitsPerWord, hle, hlt]

theorem bitmapSetBit_of_lt {self : Bitmap} {i : ℕ}
    (hi : i < self.bitCount) :
    self.bitmapSetBit i = .ok (self.withBit i true) := by
  simp [bitmapSetBit, accessBit_of_lt hi, withBit]

theorem bitmapClearBit_of_lt {self : Bitmap} {i : ℕ}
    (hi : i < self.bitCount) :
    self.bitmapClearBit i = .ok (self.withBit i false) := by
  simp [bitmapClearBit, accessBit_of_lt hi, withBit]

theorem bitmapIsBitSet_of_lt {self : Bitmap} {i : ℕ}
    (hi : i < self.bitCount) :
    self.bitmapIsBitSet i = .ok (self.bit i) := by
  have hmod : i % 32 < 32 := Nat.mod_lt _ (by decide)
  have hbit : self.word (i / 32) &&& 1#32 <<< (i % 32) ≠ 0 ↔
      self.bit i = true := by
    rw [not_iff_comm, Bool.not_eq_true]
    constructor
    · intro hclear
      apply BitVec.eq_of_getLsbD_eq
      intro j hj
      rw [BitVec.getLsbD_and, getLsbD_one_shiftLeft hj]
      by_cases h : j = i % 32
      · subst h
        simpa [bit] using hclear
      · simp [h]
    · intro hzero
      have h := congrArg (fun y => BitVec.getLsbD y (i % 32)) hzero
      simp only [BitVec.getLsbD_and, getLsbD_one_shiftLeft hmod] at h
      simpa [bit] using h
  rw [bitmapIsBitSet, accessBit_of_lt hi]
  congr 1
  rw [Bool.eq_iff_iff, decide_eq_true_iff]
  exact hbit

/-! ## Ranges of bits -/

theorem getLsbD_makeBitmask {offset len j : ℕ} (hroom : offset + len ≤ 32)
    (hj : j < 32) :
    (makeBitmask offset len).getLsbD j =
      decide (offset ≤ j ∧ j < offset + len) := by
  unfold makeBitmask
  split
  next hzero =>
    have hne : ¬(offset ≤ j ∧ j < offset + len) := by omega
    simp [hne]
  next hpos =>
    rw [BitVec.getLsbD_shiftLeft, BitVec.getLsbD_ushiftRight, wordAllOnes,
      BitVec.getLsbD_allOnes, bitsPerWord, Bool.eq_iff_iff]
    simp only [Bool.and_eq_true, Bool.not_eq_true', decide_eq_true_iff,
      decide_eq_false_iff_not]
    omega

/-- `apply word mask` gives the masked bits the value `value` and keeps the
others. -/
def Assigns (apply : BitVec 32 → BitVec 32 → BitVec 32) (value : Bool) :
    Prop :=
  ∀ w mask j, j < 32 →
    (apply w mask).getLsbD j =
      if mask.getLsbD j then value else w.getLsbD j

theorem assigns_or : Assigns (fun word mask => word ||| mask) true := by
  intro w mask j hj
  cases h : mask.getLsbD j <;> simp [BitVec.getLsbD_or, h]

theorem assigns_andNot :
    Assigns (fun word mask => word &&& ~~~mask) false := by
  intro w mask j hj
  simp only [BitVec.getLsbD_and, BitVec.getLsbD_not, hj, decide_true,
    Bool.true_and]
  cases mask.getLsbD j <;> simp

@[simp]
theorem updateBitsFrom_length
    (apply : BitVec 32 → BitVec 32 → BitVec 32) :
    ∀ (left : ℕ) (words : List (BitVec 32)) (wordIdx bitoffset len : ℕ),
      (updateBitsFrom apply left words wordIdx bitoffset len).length =
        words.length := by
  intro left
  induction left with
  | zero =>
      intros
      rfl
  | succ left ih =>
      intro words wordIdx bitoffset len
      simp only [updateBitsFrom]
      split
      · rfl
      · rw [ih, List.length_set]

theorem bit_updateBitsFrom
    {apply : BitVec 32 → BitVec 32 → BitVec 32} {value : Bool}
    (happly : Assigns apply value) :
    ∀ (left : ℕ) (words : List (BitVec 32)) (wordIdx bitoffset len i : ℕ),
      left = words.length - wordIdx → bitoffset < 32 →
      (Bitmap.mk (updateBitsFrom apply left words wordIdx bitoffset
          len)).bit i =
        if wordIdx * 32 + bitoffset ≤ i ∧
            i < wordIdx * 32 + bitoffset + len ∧ i < words.length * 32 then
          value
        else (Bitmap.mk words).bit i := by
  intro left
  induction left with
  | zero =>
      intro words wordIdx bitoffset len i hleft _
      rw [if_neg (by omega)]
      rfl
  | succ left ih =>
      intro words wordIdx bitoffset len i hleft hoffset
      simp only [updateBitsFrom]
      split
      next hzero =>
        rw [if_neg (by omega)]
      next hpos =>
        have hcur : currentLen bitoffset len =
            if 32 < bitoffset + len then 32 - bitoffset else len := rfl
        have hroom : bitoffset + currentLen bitoffset len ≤ 32 := by
          rw [hcur]
          split <;> omega
        have hword : wordIdx < words.length := by omega
        rw [ih _ _ _ _ _ (by rw [List.length_set]; omega) (by omega),
          List.length_set]
        have hset : (Bitmap.mk (words.set wordIdx
            (apply (words.getD wordIdx 0)
              (makeBitmask bitoffset (currentLen bitoffset len))))).bit i =
            if i / 32 = wordIdx ∧ bitoffset ≤ i % 32 ∧
                i % 32 < bitoffset + currentLen bitoffset len then value
            else (Bitmap.mk words).bit i := by
          unfold bit
          rw [word_set hword]
          by_cases hw : i / 32 = wordIdx
          · have hmod : i % 32 < 32 := Nat.mod_lt _ (by decide)
            simp only [hw, if_true, true_and]
            rw [happly _ _ _ hmod, getLsbD_makeBitmask hroom hmod]
            simp only [decide_eq_true_iff]
            rfl
          · simp only [hw, if_false, false_and]
        rw [hset]
        -- the two ranges together are the whole range
        by_cases hin : wordIdx * 32 + bitoffset ≤ i ∧
            i < wordIdx * 32 + bitoffset + len ∧ i < words.length * 32
        · rw [if_pos hin]
          by_cases hw : i / 32 = wordIdx
          · rw [if_neg (by omega), if_pos]
            rw [hcur]
            split <;> omega
          · rw [if_pos]
            rw [hcur]
            split <;> omega
        · rw [if_neg hin, if_neg, if_neg]
          · rw [hcur]
            split <;> omega
          · rw [hcur]
            split <;> omega

theorem bit_updateBits {apply : BitVec 32 → BitVec 32 → BitVec 32}
    {value : Bool} (happly : Assigns apply value) (self : Bitmap)
    {offset : ℕ} (hoffset : offset < 4294967296) (len i : ℕ) :
    (self.updateBits apply offset len).bit i =
      if offset ≤ i ∧ i < offset + len ∧ i < self.bitCount then value
      else self.bit i := by
  have hsplit : offset / 32 * 32 + offset % 32 = offset := by omega
  unfold updateBits
  rw [toSize_natCast hoffset]
  have h := bit_updateBitsFrom happly (self.wordCount - offset / 32)
    self.words (offset / 32) (offset % 32) len i rfl (by omega)
  rw [hsplit] at h
  exact h

@[simp]
theorem updateBits_wordCount (apply : BitVec 32 → BitVec 32 → BitVec 32)
    (self : Bitmap) (offset : ℤ) (len : ℕ) :
    (self.updateBits apply offset len).wordCount = self.wordCount := by
  simp [updateBits, wordCount]

theorem bit_bitmapSetBits (self : Bitmap) {offset : ℕ}
    (hoffset : offset < 4294967296) (len i : ℕ) :
    (self.bitmapSetBits offset len).bit i =
      if offset ≤ i ∧ i < offset + len ∧ i < self.bitCount then true
      else self.bit i :=
  bit_updateBits assigns_or self hoffset len i

theorem bit_bitmapClearBits (self : Bitmap) {offset : ℕ}
    (hoffset : offset < 4294967296) (len i : ℕ) :
    (self.bitmapClearBits offset len).bit i =
      if offset ≤ i ∧ i < offset + len ∧ i < self.bitCount then false
      else self.bit i :=
  bit_updateBits assigns_andNot self hoffset len i

@[simp]
theorem bitmapSetBits_bitCount (self : Bitmap) (offset : ℤ) (len : ℕ) :
    (self.bitmapSetBits offset len).bitCount = self.bitCount := by
  simp [bitmapSetBits, bitCount]

@[simp]
theorem bitmapClearBits_bitCount (self : Bitmap) (offset : ℤ) (len : ℕ) :
    (self.bitmapClearBits offset len).bitCount = self.bitCount := by
  simp [bitmapClearBits, bitCount]

/-! ## Fresh bitmaps -/

/-- A zero-filled bitmap. -/
def zeroed (wordCount : ℕ) : Bitmap := ⟨List.replicate wordCount 0⟩

@[simp]
theorem zeroed_wordCount (n : ℕ) : (zeroed n).wordCount = n := by
  simp [zeroed, wordCount]

@[simp]
theorem zeroed_bitCount (n : ℕ) : (zeroed n).bitCount = n * 32 := by
  simp [bitCount]

@[simp]
theorem zeroed_bit (n i : ℕ) : (zeroed n).bit i = false := by
  simp only [bit, word, zeroed, List.getD_eq_getElem?_getD,
    List.getElem?_replicate]
  split <;> simp

end Bitmap
end Yjkos
