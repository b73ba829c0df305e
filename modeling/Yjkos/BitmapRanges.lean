import Yjkos.BitmapSpec

/-!
# Bitmaps as sets of positions

The operations on ranges of bits as operations on sets, and the search as
the least element of a set.  The operations on a single bit are the
operations on ranges of length one, except in the word right behind the
bitmap.
-/

namespace Yjkos
namespace Bitmap

/-- The positions of the set bits. -/
def ones (self : Bitmap) : Set ℕ := {i | self.bit i = true}

/-- The positions of the bitmap in the range. -/
def range (self : Bitmap) (offset len : ℕ) : Set ℕ :=
  {i | i ∈ Set.Ico offset (offset + len) ∧ i < self.bitCount}

/-- Where a run of `minlen` set bits starts, not before `s`. -/
def runStarts (self : Bitmap) (s minlen : ℕ) : Set ℕ :=
  {i | s ≤ i ∧ i + minlen ≤ self.bitCount ∧
    Set.Ico i (i + minlen) ⊆ self.ones}

section Search

variable {self : Bitmap} {s minlen : ℕ}

theorem mem_runStarts_iff (hmin : 1 ≤ minlen) {i : ℕ} :
    i ∈ self.runStarts s minlen ↔ s ≤ i ∧ self.AllSet i minlen := by
  constructor
  · rintro ⟨hs, -, hones⟩
    exact ⟨hs, fun j hj hlt => hones ⟨hj, hlt⟩⟩
  · rintro ⟨hs, hall⟩
    have hlast := lt_bitCount_of_bit
      (hall (i + minlen - 1) (by omega) (by omega))
    exact ⟨hs, by omega, fun j hj => hall j hj.1 hj.2⟩

theorem isSearchResult_iff (hmin : 1 ≤ minlen) {result : ℤ} :
    self.IsSearchResult s minlen result ↔
      (∃ i : ℕ, result = i ∧ IsLeast (self.runStarts s minlen) i) ∨
        (result = -1 ∧ self.runStarts s minlen = ∅) := by
  have hempty : self.runStarts s minlen = ∅ ↔
      ∀ i, s ≤ i → ¬self.AllSet i minlen := by
    simp only [Set.eq_empty_iff_forall_notMem, mem_runStarts_iff hmin, not_and]
  have hleast : ∀ r, IsLeast (self.runStarts s minlen) r ↔
      (s ≤ r ∧ self.AllSet r minlen) ∧
        ∀ i, s ≤ i → i < r → ¬self.AllSet i minlen := by
    intro r
    rw [IsLeast, mem_runStarts_iff hmin]
    refine and_congr_right fun _ => ⟨?_, ?_⟩
    · intro hlower i hi hlt hall
      have hle := hlower ((mem_runStarts_iff hmin).mpr ⟨hi, hall⟩)
      omega
    · intro hnone i hi
      obtain ⟨hs, hall⟩ := (mem_runStarts_iff hmin).mp hi
      by_contra hlt
      exact hnone i hs (by omega) hall
  simp only [IsSearchResult, hempty, hleast, and_assoc]
  exact or_comm

/-- `bitmap_find_set_bits` returns where the first run of `minlen` set bits
from `s` on starts, and -1 if there is none. -/
theorem bitmapFindSetBits_least (self : Bitmap)
    (hbits : self.bitCount < 2147483648) (s : ℕ) (hmin : 1 ≤ minlen) :
    ∃ result, self.bitmapFindSetBits s minlen = .ok result ∧
      (∀ i : ℕ, result = i ↔ IsLeast (self.runStarts s minlen) i) ∧
      (result = -1 ↔ self.runStarts s minlen = ∅) := by
  obtain ⟨result, hfind, hsearch⟩ := self.bitmapFindSetBits_spec s hmin
    fun i hi => by
      have hlt := lt_bitCount_of_bit hi
      omega
  refine ⟨result, hfind, ?_⟩
  rcases (isSearchResult_iff hmin).mp hsearch with
    ⟨r, rfl, hleast⟩ | ⟨rfl, hempty⟩
  · constructor
    · intro i
      rw [Nat.cast_inj]
      exact ⟨fun heq => heq ▸ hleast, hleast.unique⟩
    · refine iff_of_false (by omega) ?_
      exact Set.nonempty_iff_ne_empty.mp ⟨r, hleast.1⟩
  · constructor
    · intro i
      refine iff_of_false (by omega) fun hleast => ?_
      rw [hempty] at hleast
      exact hleast.1
    · exact iff_of_true rfl hempty

/-- A run over the boundary of two words, behind a shorter one. -/
theorem bitmapFindSetBits_least_two_words :
    IsLeast ((Bitmap.mk [0xc0000003, 0x7]).runStarts 0 4) 30 := by
  obtain ⟨result, hfind, hleast, -⟩ := bitmapFindSetBits_least
    ⟨[0xc0000003, 0x7]⟩ (by decide) 0 (show 1 ≤ 4 by decide)
  have hresult : Bitmap.bitmapFindSetBits ⟨[0xc0000003, 0x7]⟩ (0 : ℕ) 4 =
      .ok 30 := by decide
  rw [hresult, Except.ok.injEq] at hfind
  exact (hleast 30).mp hfind.symm

end Search

/-! ## Ranges -/

section Ranges

variable {self : Bitmap}

theorem and_makeBitmask_eq_iff {word : BitVec 32} {offset len : ℕ}
    (hroom : offset + len ≤ 32) :
    word &&& makeBitmask offset len = makeBitmask offset len ↔
      ∀ j ∈ Set.Ico offset (offset + len), word.getLsbD j = true := by
  constructor
  · rintro hmask j ⟨hlow, hhigh⟩
    have hbit := congrArg (fun w => BitVec.getLsbD w j) hmask
    simpa [getLsbD_makeBitmask hroom (show j < 32 by omega), hlow, hhigh]
      using hbit
  · intro hall
    apply BitVec.eq_of_getLsbD_eq
    intro j hj
    rw [BitVec.getLsbD_and, getLsbD_makeBitmask hroom hj]
    by_cases hin : offset ≤ j ∧ j < offset + len
    · rw [hall j hin]
      rfl
    · simp [hin]

/-- The mask of a part of one word covers set bits only if that part of the
bitmap is set. -/
theorem and_makeBitmask_word_iff (self : Bitmap) (wordIdx : ℕ)
    {offset len : ℕ} (hroom : offset + len ≤ 32) :
    self.word wordIdx &&& makeBitmask offset len = makeBitmask offset len ↔
      Set.Ico (wordIdx * 32 + offset) (wordIdx * 32 + offset + len) ⊆
        self.ones := by
  have hbit : ∀ j < 32,
      self.bit (wordIdx * 32 + j) = (self.word wordIdx).getLsbD j :=
    fun j hj => bit_word hj
  rw [and_makeBitmask_eq_iff hroom]
  constructor
  · rintro hall i ⟨hlow, hhigh⟩
    have hset := hall (i - wordIdx * 32) ⟨by omega, by omega⟩
    rw [← hbit _ (by omega)] at hset
    rwa [Nat.add_sub_cancel' (by omega)] at hset
  · rintro hones j ⟨hlow, hhigh⟩
    rw [← hbit j (by omega)]
    exact hones ⟨by omega, by omega⟩

/-- What is left of a range behind the current word. -/
theorem currentLen_spec {bitoffset : ℕ} (hoffset : bitoffset < 32)
    (len : ℕ) :
    bitoffset + currentLen bitoffset len ≤ 32 ∧
      currentLen bitoffset len ≤ len ∧
      (currentLen bitoffset len < len →
        bitoffset + currentLen bitoffset len = 32) := by
  unfold currentLen bitsPerWord
  split <;> omega

theorem areBitsSetFrom_iff (self : Bitmap) (left : ℕ) :
    ∀ (wordIdx bitoffset len : ℕ), left = self.wordCount - wordIdx →
      bitoffset < 32 →
      (areBitsSetFrom self left wordIdx bitoffset len = true ↔
        Set.Ico (wordIdx * 32 + bitoffset)
          (wordIdx * 32 + bitoffset + len) ⊆ self.ones) := by
  induction left with
  | zero =>
      intro wordIdx bitoffset len hleft _
      rw [areBitsSetFrom, decide_eq_true_iff]
      constructor
      · rintro rfl
        simp
      · intro hones
        by_contra hpos
        have hfirst := lt_bitCount_of_bit
          (hones ⟨le_refl (wordIdx * 32 + bitoffset), by omega⟩)
        unfold bitCount at hfirst
        omega
  | succ left ih =>
      intro wordIdx bitoffset len hleft hoffset
      rw [areBitsSetFrom]
      by_cases hzero : len = 0
      · simp [hzero]
      obtain ⟨hroom, hle, hnext⟩ := currentLen_spec hoffset len
      rw [if_neg hzero]
      dsimp only
      split
      next hempty =>
        refine iff_of_false Bool.false_ne_true fun hones => ?_
        have hfirst : self.bit (wordIdx * 32 + bitoffset) = true :=
          hones ⟨le_rfl, by omega⟩
        rw [bit_word hoffset, hempty] at hfirst
        simp at hfirst
      next =>
        have hpositive : 0 < currentLen bitoffset len := by
          unfold currentLen bitsPerWord
          split <;> omega
        generalize currentLen bitoffset len = current at *
        have hword := and_makeBitmask_word_iff self wordIdx hroom
        have hsplit : Set.Ico (wordIdx * 32 + bitoffset)
              (wordIdx * 32 + bitoffset + len) =
            Set.Ico (wordIdx * 32 + bitoffset)
              (wordIdx * 32 + bitoffset + current) ∪
            Set.Ico ((wordIdx + 1) * 32 + 0)
              ((wordIdx + 1) * 32 + 0 + (len - current)) := by
          ext i
          simp only [Set.mem_union, Set.mem_Ico]
          omega
        rw [hsplit, Set.union_subset_iff, ← hword,
          ← ih (wordIdx + 1) 0 (len - current) (by omega) (by omega)]
        split
        next hmask => exact iff_of_false Bool.false_ne_true fun h => hmask h.1
        next hmask => simp only [not_not.mp hmask, true_and]

theorem bitmapAreBitsSet_iff (self : Bitmap) (offset len : ℕ) :
    self.bitmapAreBitsSet offset len = true ↔
      1 ≤ len ∧ Set.Ico offset (offset + len) ⊆ self.ones := by
  have hsplit : offset / 32 * 32 + offset % 32 = offset := by omega
  have hneg : ¬((offset : ℤ) < 0) := by omega
  have hfrom := areBitsSetFrom_iff self (self.wordCount - offset / 32)
    (offset / 32) (offset % 32) len rfl (by omega)
  rw [hsplit] at hfrom
  unfold bitmapAreBitsSet bitsPerWord
  by_cases hzero : len = 0
  · simp [hzero]
  · rw [if_neg (by omega), Int.toNat_natCast]
    dsimp only
    rw [hfrom]
    exact ⟨fun h => ⟨by omega, h⟩, fun h => h.2⟩

theorem ones_bitmapSetBits (self : Bitmap) {offset : ℕ}
    (hoffset : offset < 4294967296) (len : ℕ) :
    (self.bitmapSetBits offset len).ones =
      self.ones ∪ self.range offset len := by
  ext i
  simp only [ones, range, Set.mem_union, Set.mem_ofPred_eq, Set.mem_Ico,
    bit_bitmapSetBits self hoffset]
  split
  next hin => exact iff_of_true rfl (Or.inr ⟨⟨hin.1, hin.2.1⟩, hin.2.2⟩)
  next hout =>
    refine ⟨Or.inl, ?_⟩
    rintro (hset | ⟨⟨hlow, hhigh⟩, hlt⟩)
    · exact hset
    · exact absurd ⟨hlow, hhigh, hlt⟩ hout

theorem ones_bitmapClearBits (self : Bitmap) {offset : ℕ}
    (hoffset : offset < 4294967296) (len : ℕ) :
    (self.bitmapClearBits offset len).ones =
      self.ones \ self.range offset len := by
  ext i
  simp only [ones, range, Set.mem_sdiff, Set.mem_ofPred_eq, Set.mem_Ico,
    bit_bitmapClearBits self hoffset]
  split
  next hin =>
    refine iff_of_false Bool.false_ne_true fun h => h.2 ?_
    exact ⟨⟨hin.1, hin.2.1⟩, hin.2.2⟩
  next hout =>
    refine ⟨fun hset => ⟨hset, ?_⟩, fun h => h.1⟩
    rintro ⟨⟨hlow, hhigh⟩, hlt⟩
    exact hout ⟨hlow, hhigh, hlt⟩

/-- The operations on a range set, clear and test exactly the bits of the
range. -/
theorem range_operations (self : Bitmap) {offset len : ℕ}
    (hrange : offset + len < 2147483648) :
    ((self.bitmapSetBits offset len).wordCount = self.wordCount ∧
      (self.bitmapSetBits offset len).ones =
        self.ones ∪ self.range offset len) ∧
    ((self.bitmapClearBits offset len).wordCount = self.wordCount ∧
      (self.bitmapClearBits offset len).ones =
        self.ones \ self.range offset len) ∧
    (self.bitmapAreBitsSet offset len = true ↔
      1 ≤ len ∧ ∀ i ∈ Set.Ico offset (offset + len),
        i < self.bitCount ∧ i ∈ self.ones) := by
  have hoffset : offset < 4294967296 := by omega
  refine ⟨⟨updateBits_wordCount _ _ _ _, ones_bitmapSetBits self hoffset len⟩,
    ⟨updateBits_wordCount _ _ _ _, ones_bitmapClearBits self hoffset len⟩, ?_⟩
  rw [bitmapAreBitsSet_iff]
  refine and_congr_right fun _ => ⟨fun hones i hi => ?_, fun h i hi => ?_⟩
  · exact ⟨lt_bitCount_of_bit (hones hi), hones hi⟩
  · exact (h i hi).2

/-- A range over three words. -/
theorem range_operations_three_words :
    ((Bitmap.zeroed 3).bitmapSetBits (31 : ℕ) 34).ones =
      (Bitmap.zeroed 3).ones ∪ (Bitmap.zeroed 3).range 31 34 :=
  (range_operations (Bitmap.zeroed 3) (show 31 + 34 < 2147483648 by decide)).1.2

end Ranges

/-! ## Single bits -/

/-- The operations on one bit stay in the bitmap, and are the operations on
ranges of length one. -/
structure SingleAgrees (b : Bitmap) (offset : ℤ) : Prop where
  setInside : b.bitmapSetBit offset ≠ .error .outOfBounds
  clearInside : b.bitmapClearBit offset ≠ .error .outOfBounds
  testInside : b.bitmapIsBitSet offset ≠ .error .outOfBounds
  set : 0 ≤ offset → b.bitmapSetBit offset = .ok (b.bitmapSetBits offset 1)
  clear : 0 ≤ offset →
    b.bitmapClearBit offset = .ok (b.bitmapClearBits offset 1)
  test : 0 ≤ offset →
    b.bitmapIsBitSet offset = .ok (b.bitmapAreBitsSet offset 1)

section Single

variable {self : Bitmap} {i : ℕ}

theorem accessBit_behind {α : Type} (hi : i / 32 = self.wordCount)
    (outside : α) (access : ℕ → BitVec 32 → α) :
    self.accessBit i outside access = .error .outOfBounds := by
  have hneg : ¬((i : ℤ) < 0) := by omega
  simp [accessBit, bitsPerWord, hi, hneg]

theorem accessBit_rejected {α : Type} {offset : ℤ}
    (hoffset : offset < 0 ∨ self.wordCount < offset.toNat / 32)
    (outside : α) (access : ℕ → BitVec 32 → α) :
    self.accessBit offset outside access = .ok outside := by
  rw [accessBit, bitsPerWord, if_pos hoffset]

theorem bitmapSetBits_one (hi : i < 4294967296) :
    self.bitmapSetBits i 1 =
      if i < self.bitCount then self.withBit i true else self := by
  apply ext_bit
  · split <;> simp [bitmapSetBits]
  · intro j
    rw [bit_bitmapSetBits self hi]
    split_ifs with hin hlt hlt
    · have hj : j = i := by omega
      rw [bit_withBit hlt, if_pos hj]
    · omega
    · rw [bit_withBit hlt, if_neg (by omega)]
    · rfl

theorem bitmapClearBits_one (hi : i < 4294967296) :
    self.bitmapClearBits i 1 =
      if i < self.bitCount then self.withBit i false else self := by
  apply ext_bit
  · split <;> simp [bitmapClearBits]
  · intro j
    rw [bit_bitmapClearBits self hi]
    split_ifs with hin hlt hlt
    · have hj : j = i := by omega
      rw [bit_withBit hlt, if_pos hj]
    · omega
    · rw [bit_withBit hlt, if_neg (by omega)]
    · rfl

theorem bitmapAreBitsSet_one : self.bitmapAreBitsSet i 1 = self.bit i := by
  rw [Bool.eq_iff_iff, bitmapAreBitsSet_iff]
  constructor
  · rintro ⟨-, hones⟩
    exact hones ⟨le_rfl, by omega⟩
  · intro hset
    refine ⟨le_rfl, fun j hj => ?_⟩
    obtain rfl : j = i := by
      obtain ⟨hlow, hhigh⟩ := hj
      omega
    exact hset

theorem singleAgrees_inside (hi : i < self.bitCount)
    (hlong : i < 4294967296) : self.SingleAgrees i := by
  have hset := bitmapSetBit_of_lt hi
  have hclear := bitmapClearBit_of_lt hi
  have htest := bitmapIsBitSet_of_lt hi
  constructor
  case setInside => simp [hset]
  case clearInside => simp [hclear]
  case testInside => simp [htest]
  case set =>
    intro _
    rw [hset, bitmapSetBits_one hlong, if_pos hi]
  case clear =>
    intro _
    rw [hclear, bitmapClearBits_one hlong, if_pos hi]
  case test =>
    intro _
    rw [htest, bitmapAreBitsSet_one]

theorem singleAgrees_beyond (hi : self.wordCount < i / 32)
    (hlong : i < 4294967296) : self.SingleAgrees i := by
  have hguard : (i : ℤ) < 0 ∨ self.wordCount < (i : ℤ).toNat / 32 := by
    rw [Int.toNat_natCast]
    exact Or.inr hi
  have hlt : ¬i < self.bitCount := by
    unfold bitCount
    omega
  have hset : self.bitmapSetBit i = .ok self := accessBit_rejected hguard _ _
  have hclear : self.bitmapClearBit i = .ok self :=
    accessBit_rejected hguard _ _
  have htest : self.bitmapIsBitSet i = .ok false :=
    accessBit_rejected hguard _ _
  constructor
  case setInside => simp [hset]
  case clearInside => simp [hclear]
  case testInside => simp [htest]
  case set =>
    intro _
    rw [hset, bitmapSetBits_one hlong, if_neg hlt]
  case clear =>
    intro _
    rw [hclear, bitmapClearBits_one hlong, if_neg hlt]
  case test =>
    intro _
    rw [htest, bitmapAreBitsSet_one, bit_of_bitCount_le (not_lt.mp hlt)]

theorem singleAgrees_negative {offset : ℤ} (hoffset : offset < 0) :
    self.SingleAgrees offset := by
  have hset : self.bitmapSetBit offset = .ok self :=
    accessBit_rejected (Or.inl hoffset) _ _
  have hclear : self.bitmapClearBit offset = .ok self :=
    accessBit_rejected (Or.inl hoffset) _ _
  have htest : self.bitmapIsBitSet offset = .ok false :=
    accessBit_rejected (Or.inl hoffset) _ _
  constructor
  case setInside => simp [hset]
  case clearInside => simp [hclear]
  case testInside => simp [htest]
  all_goals exact fun hpos => absurd hpos (by omega)

/-- The guard of the single-bit operations lets the offsets in the word right
behind the bitmap pass, and only these are wrong. -/
theorem singleAgrees_iff (self : Bitmap) {offset : ℤ}
    (hlong : offset < 2147483648) :
    self.SingleAgrees offset ↔
      offset < 0 ∨ offset.toNat / 32 ≠ self.wordCount := by
  by_cases hneg : offset < 0
  · exact iff_of_true (singleAgrees_negative hneg) (Or.inl hneg)
  · obtain ⟨i, rfl⟩ := Int.eq_ofNat_of_zero_le (not_lt.mp hneg)
    rw [Int.toNat_natCast]
    constructor
    · refine fun hagrees => Or.inr fun hbehind => ?_
      exact hagrees.setInside (accessBit_behind hbehind _ _)
    · rintro (hlt | hne)
      · omega
      · rcases Nat.lt_or_gt_of_ne hne with hlt | hgt
        · apply singleAgrees_inside _ (by omega)
          unfold bitCount
          omega
        · exact singleAgrees_beyond hgt (by omega)

/-- The last bit of a bitmap, and the first one which its guard rejects. -/
theorem singleAgrees_around_one_word :
    (Bitmap.zeroed 1).SingleAgrees 31 ∧ (Bitmap.zeroed 1).SingleAgrees 64 :=
  ⟨((Bitmap.zeroed 1).singleAgrees_iff (by decide)).mpr (Or.inr (by decide)),
    ((Bitmap.zeroed 1).singleAgrees_iff (by decide)).mpr
      (Or.inr (by decide))⟩

/-- Offset 32 of a bitmap of one word is written outside of it, where the
operations on ranges ignore it. -/
theorem bit_behind_one_word :
    (Bitmap.zeroed 1).bitmapSetBit 32 = .error .outOfBounds ∧
      (Bitmap.zeroed 1).bitmapSetBits 32 1 = Bitmap.zeroed 1 ∧
      ¬(Bitmap.zeroed 1).SingleAgrees 32 := by
  have hset : (Bitmap.zeroed 1).bitmapSetBit 32 = .error .outOfBounds := by
    decide
  exact ⟨hset, by decide, fun hagrees => hagrees.setInside hset⟩

end Single

end Bitmap
end Yjkos
