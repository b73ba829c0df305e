import Yjkos.PmmPool
import Yjkos.BuddyTree

/-!
# Splitting and merging in a page pool

The bitmap of a pool of `2 ^ k` pages read as a buddy tree: the bit of block
`index` on `level` is bit `2 ^ level - 1 + index`.  This module evaluates the
helpers of the pool routines and shows that the search finds a marked block,
that splitting takes one block out of a maximal free one, and that merging
gives a block back, each keeping the marking canonical.
-/

namespace Yjkos
namespace Pmm

open Buddy

/-! ## The helpers -/

/-- Position of a block's bit. -/
def bitIndex (level index : ℕ) : ℕ := 2 ^ level - 1 + index

theorem bitIndicesRangeLoop_eq (left blockinlevel bitoffset : ℕ) :
    bitIndicesRangeLoop left blockinlevel bitoffset =
      (bitoffset + blockinlevel * (2 ^ left - 1),
        bitoffset + blockinlevel * (2 ^ left - 1) +
          blockinlevel * 2 ^ left - 1) := by
  induction left generalizing blockinlevel bitoffset with
  | zero => simp [bitIndicesRangeLoop]
  | succ left ih =>
      have hpos : 0 < 2 ^ left := by positivity
      have hstart : bitoffset + blockinlevel +
          blockinlevel * 2 * (2 ^ left - 1) =
          bitoffset + blockinlevel * (2 ^ (left + 1) - 1) := by
        obtain ⟨m, hm⟩ := Nat.exists_eq_add_of_lt hpos
        rw [pow_succ, hm, show (0 + m + 1) * 2 - 1 = 2 * m + 1 by omega,
          show 0 + m + 1 - 1 = m by omega]
        ring
      rw [bitIndicesRangeLoop, ih, hstart, pow_succ]
      congr 2
      ring

theorem bitIndicesRangeForLevel_eq (level : ℕ) :
    bitIndicesRangeForLevel level =
      (2 ^ level - 1, 2 ^ level - 1 + 2 ^ level - 1) := by
  simp [bitIndicesRangeForLevel, bitIndicesRangeLoop_eq]

theorem bitIndexForPagepoolBlock_result (level block : ℕ) :
    (bitIndexForPagepoolBlock level block).result =
      if block < 2 ^ level then .ok (bitIndex level block)
      else .error (.assertion "block < blocksinlevel") := by
  have hpos : 0 < 2 ^ level := by positivity
  have hblocks : 2 ^ level - 1 + 2 ^ level - 1 - (2 ^ level - 1) + 1 =
      2 ^ level := by omega
  simp only [bitIndexForPagepoolBlock, bitIndicesRangeForLevel_eq, hblocks,
    Traced.result_bind, Traced.result_lift]
  by_cases hlt : block < 2 ^ level
  · simp [hlt, bitIndex]
  · simp [hlt]

theorem bitIndexForPagepoolBlock_of_lt {level block : ℕ}
    (hblock : block < 2 ^ level) :
    (bitIndexForPagepoolBlock level block).result =
      .ok (bitIndex level block) := by
  rw [bitIndexForPagepoolBlock_result, if_pos hblock]

theorem bitIndex_lt {k level index : ℕ} (hlevel : level ≤ k)
    (hindex : index < 2 ^ level) :
    bitIndex level index < 2 ^ (k + 1) - 1 := by
  have hmono : 2 ^ level ≤ 2 ^ k := Nat.pow_le_pow_right (by omega) hlevel
  unfold bitIndex
  rw [pow_succ]
  omega

theorem bitIndex_inj {level index level' index' : ℕ}
    (hindex : index < 2 ^ level) (hindex' : index' < 2 ^ level')
    (heq : bitIndex level index = bitIndex level' index') :
    level = level' ∧ index = index' := by
  have hpos : 0 < 2 ^ level := by positivity
  have hpos' : 0 < 2 ^ level' := by positivity
  unfold bitIndex at heq
  have hlevel : level = level' := by
    rcases lt_trichotomy level level' with hlt | heq' | hgt
    · have := Nat.pow_le_pow_right (n := 2) (by omega) (Nat.succ_le_of_lt hlt)
      rw [Nat.succ_eq_add_one, pow_succ] at this
      omega
    · exact heq'
    · have := Nat.pow_le_pow_right (n := 2) (by omega) (Nat.succ_le_of_lt hgt)
      rw [Nat.succ_eq_add_one, pow_succ] at this
      omega
  subst hlevel
  exact ⟨rfl, by omega⟩

theorem blockSizeToLevelLoop_eq {size r : ℕ} (hsize : size = 2 ^ r) :
    ∀ (fuel m level : ℕ), r ≤ m → m - r < fuel →
      blockSizeToLevelLoop size fuel (2 ^ m) level =
        .ok (level + (m - r)) := by
  intro fuel
  induction fuel with
  | zero =>
      intro m level _ hfuel
      omega
  | succ fuel ih =>
      intro m level hle hfuel
      rw [blockSizeToLevelLoop, hsize]
      by_cases heq : m = r
      · subst m
        simp
      · have hlt : 2 ^ r < 2 ^ m :=
          Nat.pow_lt_pow_right (by omega) (by omega)
        obtain ⟨m, rfl⟩ := Nat.exists_eq_add_one_of_ne_zero
          (by omega : m ≠ 0)
        rw [if_pos hlt, ← hsize, pow_succ, Nat.mul_div_cancel _ (by omega),
          ih m (level + 1) (by omega) (by omega)]
        congr 1
        omega

theorem blockSizeToPagepoolLevel_eq {pool : PagePool} {k r : ℕ}
    (hpool : pool.pageCount = 2 ^ k) (hr : r ≤ k) (hk : k ≤ 32) :
    blockSizeToPagepoolLevel pool (2 ^ r) = .ok (k - r) := by
  rw [blockSizeToPagepoolLevel, hpool,
    blockSizeToLevelLoop_eq rfl 33 k 0 hr (by omega), Nat.zero_add]

theorem roundUpLoop_eq (count : ℕ) :
    ∀ (fuel m : ℕ), m ≤ 31 → 31 < m + fuel → m ≤ Nat.clog 2 count →
      roundUpLoop count fuel (2 ^ m) =
        .ok (if count ≤ 2 ^ 31 then some (2 ^ Nat.clog 2 count) else none) := by
  intro fuel
  induction fuel with
  | zero =>
      intro m hm hfuel _
      omega
  | succ fuel ih =>
      intro m hm hfuel hclog
      rw [roundUpLoop]
      by_cases hlt : 2 ^ m < count
      · rw [if_pos hlt]
        have hgt : m < Nat.clog 2 count :=
          (Nat.lt_clog_iff_pow_lt (by omega)).mpr hlt
        by_cases hlast : m = 31
        · subst m
          have hsize : sizeMax / 2 < 2 ^ 31 := by decide
          rw [if_pos hsize, if_neg (by omega)]
        · have hmono : 2 ^ m ≤ 2 ^ 30 :=
            Nat.pow_le_pow_right (by omega) (by omega)
          have hsize : ¬sizeMax / 2 < 2 ^ m := by
            unfold sizeMax
            omega
          rw [if_neg hsize, ← pow_succ]
          exact ih (m + 1) (by omega) (by omega) (by omega)
      · have heq : Nat.clog 2 count = m := by
          apply le_antisymm _ hclog
          exact Nat.clog_le_of_le_pow (by omega)
        have hmono : 2 ^ m ≤ 2 ^ 31 := Nat.pow_le_pow_right (by omega) hm
        rw [if_neg hlt, if_pos (by omega), heq]

/-- Sizes are rounded up to the next power of two, up to `2 ^ 31`. -/
theorem roundUp_eq (count : ℕ) :
    roundUp count =
      .ok (if count ≤ 2 ^ 31 then some (2 ^ Nat.clog 2 count) else none) := by
  have h := roundUpLoop_eq count 33 0 (by omega) (by omega) (by omega)
  rwa [pow_zero] at h

/-! ## The bitmap as a marking -/

/-- The marks of the blocks of a pool. -/
def marks (bitmap : Bitmap) (level index : ℕ) : Bool :=
  bitmap.bit (bitIndex level index)

/-- The bitmap has a bit for every block of a pool of `2 ^ k` pages, and no
other bit is set. -/
structure Fits (k : ℕ) (bitmap : Bitmap) : Prop where
  room : 2 ^ (k + 1) - 1 ≤ bitmap.bitCount
  clear_outside : ∀ i, 2 ^ (k + 1) - 1 ≤ i → bitmap.bit i = false

variable {k level index : ℕ} {bitmap : Bitmap}

theorem Fits.bitIndex_lt (hfits : Fits k bitmap) (hlevel : level ≤ k)
    (hindex : index < 2 ^ level) : bitIndex level index < bitmap.bitCount :=
  (Pmm.bitIndex_lt hlevel hindex).trans_le hfits.room

theorem Fits.withBit (hfits : Fits k bitmap) (hlevel : level ≤ k)
    (hindex : index < 2 ^ level) (value : Bool) :
    Fits k (bitmap.withBit (bitIndex level index) value) := by
  have hlt := Pmm.bitIndex_lt hlevel hindex
  refine ⟨by simpa using hfits.room, ?_⟩
  intro i hi
  rw [Bitmap.bit_withBit (hfits.bitIndex_lt hlevel hindex),
    if_neg (by omega)]
  exact hfits.clear_outside i hi

theorem Fits.updated (hfits : Fits k bitmap) (hlevel : level ≤ k)
    (hindex : index < 2 ^ level) (value : Bool) :
    Updated k level index value (marks bitmap)
      (marks (bitmap.withBit (bitIndex level index) value)) := by
  intro level' index' _ hindex'
  unfold marks
  rw [Bitmap.bit_withBit (hfits.bitIndex_lt hlevel hindex)]
  by_cases heq : bitIndex level' index' = bitIndex level index
  · rw [if_pos heq, if_pos (bitIndex_inj hindex' hindex heq)]
  · rw [if_neg heq, if_neg]
    rintro ⟨rfl, rfl⟩
    exact heq rfl

theorem Fits.ext {other : Bitmap} (hfits : Fits k bitmap)
    (hother : Fits k other) (hcount : bitmap.wordCount = other.wordCount)
    (hmarks : ∀ level index, level ≤ k → index < 2 ^ level →
      marks bitmap level index = marks other level index) :
    bitmap = other := by
  apply Bitmap.ext_bit hcount
  intro i
  by_cases hlt : i < 2 ^ (k + 1) - 1
  · have hne : i + 1 ≠ 0 := by omega
    have hlow : 2 ^ Nat.log 2 (i + 1) ≤ i + 1 := Nat.pow_log_le_self 2 hne
    have hhigh : i + 1 < 2 ^ (Nat.log 2 (i + 1) + 1) :=
      Nat.lt_pow_succ_log_self (by omega) _
    have hlevel : Nat.log 2 (i + 1) ≤ k := by
      apply Nat.le_of_lt_succ
      exact Nat.log_lt_of_lt_pow hne (by omega)
    rw [pow_succ] at hhigh
    have h := hmarks (Nat.log 2 (i + 1)) (i + 1 - 2 ^ Nat.log 2 (i + 1))
      hlevel (by omega)
    have hindex : bitIndex (Nat.log 2 (i + 1))
        (i + 1 - 2 ^ Nat.log 2 (i + 1)) = i := by
      have hpos : 0 < 2 ^ Nat.log 2 (i + 1) := by positivity
      unfold bitIndex
      omega
    simpa [marks, hindex] using h
  · rw [hfits.clear_outside i (by omega), hother.clear_outside i (by omega)]

/-! ## Searching -/

theorem bitIndex_range {i : ℕ} (hlow : 2 ^ level - 1 ≤ i)
    (hhigh : i ≤ 2 ^ level - 1 + 2 ^ level - 1) :
    i - (2 ^ level - 1) < 2 ^ level ∧
      bitIndex level (i - (2 ^ level - 1)) = i := by
  have hpos : 0 < 2 ^ level := by positivity
  unfold bitIndex
  omega

theorem findBlockInLevel_spec (hfits : Fits k bitmap) (hk : k ≤ 30)
    (level : ℕ) :
    ((findBlockInLevel bitmap level).result = .ok none ∧
      ∀ index, index < 2 ^ level → marks bitmap level index = false) ∨
    ∃ index, (findBlockInLevel bitmap level).result = .ok (some index) ∧
      index < 2 ^ level ∧ marks bitmap level index = true ∧
      ∀ index', index' < index → marks bitmap level index' = false := by
  have hpos : 0 < 2 ^ level := by positivity
  have hbound : ∀ i, bitmap.bit i = true → i < 4294967295 := by
    intro i hi
    have hmono : 2 ^ (k + 1) ≤ 2 ^ 31 :=
      Nat.pow_le_pow_right (by omega) (by omega)
    by_contra hge
    rw [hfits.clear_outside i (by omega)] at hi
    contradiction
  obtain ⟨result, hresult, hsearch⟩ :=
    bitmap.bitmapFindSetBits_spec (2 ^ level - 1) Nat.one_pos hbound
  have hone : ∀ i, bitmap.AllSet i 1 ↔ bitmap.bit i = true := by
    intro i
    constructor
    · exact fun h => h i le_rfl (by omega)
    · intro h j hj hj'
      rwa [show j = i by omega]
  simp only [findBlockInLevel, findSetBits, bitIndicesRangeForLevel_eq,
    Traced.result_bind, Traced.result_touch, hresult]
  rcases hsearch with ⟨rfl, hnone⟩ | ⟨r, rfl, hle, hset, hmin⟩
  · left
    refine ⟨by simp, ?_⟩
    intro index hindex
    rw [Bool.eq_false_iff]
    intro hmark
    exact hnone (bitIndex level index) (by unfold bitIndex; omega)
      ((hone _).mpr hmark)
  · by_cases hin : r ≤ 2 ^ level - 1 + 2 ^ level - 1
    · obtain ⟨hlt, hindex⟩ := bitIndex_range hle hin
      right
      refine ⟨r - (2 ^ level - 1), ?_, hlt, ?_, ?_⟩
      · have hin' : (0 : ℤ) ≤ r ∧
            (r : ℤ) ≤ ((2 ^ level - 1 + 2 ^ level - 1 : ℕ) : ℤ) := by omega
        rw [if_pos hin']
        simp only [Traced.result_pure]
        congr 2
        omega
      · unfold marks
        rw [hindex]
        exact (hone r).mp hset
      · intro index' hindex'
        rw [Bool.eq_false_iff]
        intro hmark
        apply hmin (bitIndex level index')
        · unfold bitIndex
          omega
        · unfold bitIndex
          omega
        · exact (hone _).mpr hmark
    · left
      refine ⟨?_, ?_⟩
      · have hout : ¬((0 : ℤ) ≤ r ∧
            (r : ℤ) ≤ ((2 ^ level - 1 + 2 ^ level - 1 : ℕ) : ℤ)) := by omega
        rw [if_neg hout]
        rfl
      · intro index hindex
        rw [Bool.eq_false_iff]
        intro hmark
        apply hmin (bitIndex level index)
        · unfold bitIndex
          omega
        · unfold bitIndex
          omega
        · exact (hone _).mpr hmark

/-- The block found by the search: the first one of the finest level, not
finer than `wanted`, which has a marked block. -/
structure IsFound (bitmap : Bitmap) (wanted level index : ℕ) : Prop where
  level_le : level ≤ wanted
  index_lt : index < 2 ^ level
  marked : marks bitmap level index = true
  first : ∀ index', index' < index → marks bitmap level index' = false
  finest : ∀ level' index', level < level' → level' ≤ wanted →
    index' < 2 ^ level' → marks bitmap level' index' = false

theorem findBlock_spec (hfits : Fits k bitmap) (hk : k ≤ 30) :
    ∀ wanted, wanted ≤ k →
      ((findBlock bitmap wanted).result = .ok none ∧
        ∀ level index, level ≤ wanted → index < 2 ^ level →
          marks bitmap level index = false) ∨
      ∃ level index,
        (findBlock bitmap wanted).result = .ok (some (level, index)) ∧
        IsFound bitmap wanted level index := by
  intro wanted
  induction wanted with
  | zero =>
      intro _
      rcases findBlockInLevel_spec hfits hk 0 with
        ⟨hresult, hnone⟩ | ⟨index, hresult, hlt, hmark, hfirst⟩
      · left
        refine ⟨by simp [findBlock, hresult], ?_⟩
        intro level index hlevel hindex
        obtain rfl : level = 0 := by omega
        exact hnone index hindex
      · right
        refine ⟨0, index, by simp [findBlock, hresult], le_rfl, hlt, hmark,
          hfirst, ?_⟩
        intro level' index' hgt hle
        omega
  | succ wanted ih =>
      intro hwanted
      rcases findBlockInLevel_spec hfits hk (wanted + 1) with
        ⟨hresult, hnone⟩ | ⟨index, hresult, hlt, hmark, hfirst⟩
      · have hstep : (findBlock bitmap (wanted + 1)).result =
            (findBlock bitmap wanted).result := by
          simp [findBlock, hresult]
        rw [hstep]
        rcases ih (by omega) with ⟨hresult', hnone'⟩ |
          ⟨level, index, hresult', hfound⟩
        · left
          refine ⟨hresult', ?_⟩
          intro level index hlevel hindex
          rcases Nat.le_succ_iff.mp hlevel with hle | rfl
          · exact hnone' level index hle hindex
          · exact hnone index hindex
        · right
          refine ⟨level, index, hresult', hfound.level_le.trans (by omega),
            hfound.index_lt, hfound.marked, hfound.first, ?_⟩
          intro level' index' hgt hle hindex'
          rcases Nat.le_succ_iff.mp hle with hle' | rfl
          · exact hfound.finest level' index' hgt hle' hindex'
          · exact hnone index' hindex'
      · right
        refine ⟨wanted + 1, index, by simp [findBlock, hresult], le_rfl, hlt,
          hmark, hfirst, ?_⟩
        intro level' index' hgt hle
        omega

/-! ## Splitting -/

theorem setBit_result (hfits : Fits k bitmap) (hlevel : level ≤ k)
    (hindex : index < 2 ^ level) :
    (setBit bitmap (bitIndex level index)).result =
      .ok (bitmap.withBit (bitIndex level index) true) := by
  rw [setBit, Traced.result_touch,
    Bitmap.bitmapSetBit_of_lt (hfits.bitIndex_lt hlevel hindex)]

theorem clearBit_result (hfits : Fits k bitmap) (hlevel : level ≤ k)
    (hindex : index < 2 ^ level) :
    (clearBit bitmap (bitIndex level index)).result =
      .ok (bitmap.withBit (bitIndex level index) false) := by
  rw [clearBit, Traced.result_touch,
    Bitmap.bitmapClearBit_of_lt (hfits.bitIndex_lt hlevel hindex)]

theorem isBitSet_result (hfits : Fits k bitmap) (hlevel : level ≤ k)
    (hindex : index < 2 ^ level) :
    (isBitSet bitmap (bitIndex level index)).result =
      .ok (marks bitmap level index) := by
  rw [isBitSet, Traced.result_touch,
    Bitmap.bitmapIsBitSet_of_lt (hfits.bitIndex_lt hlevel hindex)]
  rfl

theorem neighbor_double_succ (index : ℕ) :
    neighbor (index * 2 + 1) = index * 2 := by
  simp [neighbor]

theorem double_lt (hindex : index < 2 ^ level) :
    index * 2 < 2 ^ (level + 1) := by
  rw [pow_succ]
  omega

theorem double_succ_lt (hindex : index < 2 ^ level) :
    index * 2 + 1 < 2 ^ (level + 1) := by
  rw [pow_succ]
  omega

theorem block_eq_halves (hlevel : level + 1 ≤ k) (index : ℕ) :
    Block k level index =
      Block k (level + 1) (index * 2 + 1) ∪
        Block k (level + 1) (index * 2) := by
  have h := parent_eq_union hlevel (index * 2 + 1)
  rwa [neighbor_double_succ, show (index * 2 + 1) / 2 = index by omega] at h

/-- A bitmap in which a block is on its way to the caller: with the block's
own mark cleared, the marking is canonical for the pages `free`, none of
which belongs to the block. -/
structure Held (k level index : ℕ) (free : Set ℕ) (bitmap : Bitmap) :
    Prop where
  fits : Fits k bitmap
  level_le : level ≤ k
  index_lt : index < 2 ^ level
  taken : Disjoint (Block k level index) free
  canonical : Canonical k free
    (marks (bitmap.withBit (bitIndex level index) false))

theorem held_of_marked {free : Set ℕ} (hfits : Fits k bitmap)
    (hcanon : Canonical k free (marks bitmap)) (hlevel : level ≤ k)
    (hindex : index < 2 ^ level) (hmark : marks bitmap level index = true) :
    Held k level index (free \ Block k level index) bitmap :=
  ⟨hfits, hlevel, hindex, Set.disjoint_sdiff_right,
    hcanon.unmark hlevel hindex hmark (hfits.updated hlevel hindex false)⟩

/-- One round of the splitting loop: the block's mark is cleared, the right
half is marked, and the left half is held instead. -/
theorem Held.split {free : Set ℕ} (hheld : Held k level index free bitmap)
    (hlevel : level + 1 ≤ k) :
    Held k (level + 1) (index * 2)
      (free ∪ Block k (level + 1) (index * 2 + 1))
      ((bitmap.withBit (bitIndex level index) false).withBit
        (bitIndex (level + 1) (index * 2 + 1)) true) := by
  obtain ⟨hfits, hle, hindex, htaken, hcanon⟩ := hheld
  have hfits' := hfits.withBit hle hindex false
  have hright := double_succ_lt hindex
  have hleft := double_lt hindex
  have hhalves := block_eq_halves hlevel index
  rw [hhalves, Set.disjoint_union_left] at htaken
  obtain ⟨left, hleftPage⟩ := block_nonempty k (level + 1) (index * 2)
  have hleftTaken : left ∉ free := Set.disjoint_left.mp htaken.2 hleftPage
  have hcanon' : Canonical k (free ∪ Block k (level + 1) (index * 2 + 1))
      (marks ((bitmap.withBit (bitIndex level index) false).withBit
        (bitIndex (level + 1) (index * 2 + 1)) true)) := by
    apply hcanon.mark hlevel htaken.1 _ (hfits'.updated hlevel hright true)
    apply maximal_union_of_neighbor hlevel
    rw [neighbor_double_succ]
    exact fun hsubset => hleftTaken (hsubset hleftPage)
  have hfits'' := hfits'.withBit hlevel hright true
  have hdisjoint : Disjoint (Block k (level + 1) (index * 2))
      (free ∪ Block k (level + 1) (index * 2 + 1)) := by
    rw [Set.disjoint_union_right]
    refine ⟨htaken.2, ?_⟩
    have h := @disjoint_neighbor k (level + 1) (index * 2 + 1)
    rw [neighbor_double_succ] at h
    exact h.symm
  refine ⟨hfits'', hlevel, hleft, hdisjoint, ?_⟩
  -- the left half has no mark, so clearing it changes nothing
  intro level' index' hlevel' hindex'
  rw [hfits''.updated hlevel hleft false level' index' hlevel' hindex']
  split
  next heq =>
    obtain ⟨rfl, rfl⟩ := heq
    rw [← hcanon' _ _ hlevel' hindex', hcanon'.not_marked_of_taken hlevel'
      hindex' hleftPage (Set.disjoint_left.mp hdisjoint hleftPage)]
  next => exact hcanon' level' index' hlevel' hindex'

theorem splitBlocks_spec :
    ∀ (left : ℕ) (bitmap : Bitmap) (level index : ℕ) (free : Set ℕ),
      Held k level index free bitmap → level + left ≤ k →
      ∃ bitmap', (splitBlocks left bitmap level index).result =
          .ok (bitmap', index * 2 ^ left) ∧
        bitmap'.wordCount = bitmap.wordCount ∧
        Held k (level + left) (index * 2 ^ left)
          ((free ∪ Block k level index) \
            Block k (level + left) (index * 2 ^ left)) bitmap' := by
  intro left
  induction left with
  | zero =>
      intro bitmap level index free hheld _
      refine ⟨bitmap, by simp [splitBlocks], rfl, ?_⟩
      rw [pow_zero, Nat.mul_one, Nat.add_zero,
        Set.union_sdiff_cancel_right hheld.taken.symm.le_bot]
      exact hheld
  | succ left ih =>
      intro bitmap level index free hheld hlevel
      have hlevel' : level + 1 ≤ k := by omega
      have hright := double_succ_lt hheld.index_lt
      have hfits' := hheld.fits.withBit hheld.level_le hheld.index_lt false
      obtain ⟨bitmap', hresult, hcount, hheld'⟩ :=
        ih _ _ _ _ (hheld.split hlevel') (by omega)
      refine ⟨bitmap', ?_, by simpa using hcount, ?_⟩
      · simp only [splitBlocks, Traced.result_bind,
          bitIndexForPagepoolBlock_of_lt hheld.index_lt,
          clearBit_result hheld.fits hheld.level_le hheld.index_lt,
          bitIndexForPagepoolBlock_of_lt hright,
          setBit_result hfits' hlevel' hright, hresult]
        rw [Nat.mul_assoc, ← pow_succ']
      · rw [Set.union_assoc, ← block_eq_halves hlevel', Nat.mul_assoc,
          ← pow_succ', show level + 1 + left = level + (left + 1) by omega]
          at hheld'
        exact hheld'

/-! ## Merging -/

theorem markAvailable_spec {free : Set ℕ} (hfits : Fits k bitmap)
    (hcanon : Canonical k free (marks bitmap)) (hlevel : level ≤ k)
    (hindex : index < 2 ^ level) (htaken : Disjoint (Block k level index) free) :
    (markAvailable level index bitmap).result =
      .ok (bitIndex level index,
        bitmap.withBit (bitIndex level index) true) := by
  obtain ⟨page, hpage⟩ := block_nonempty k level index
  have hclear : marks bitmap level index = false :=
    hcanon.not_marked_of_taken hlevel hindex hpage
      (Set.disjoint_left.mp htaken hpage)
  simp only [markAvailable, Traced.result_bind,
    bitIndexForPagepoolBlock_of_lt hindex,
    isBitSet_result hfits hlevel hindex, hclear, Bool.false_eq_true,
    if_false, setBit_result hfits hlevel hindex, Traced.result_pure]

/-- The neighbour's bit as `free_from_pool` computes it. -/
theorem bitIndex_neighbor (hlevel : level ≠ 0) (index : ℕ) :
    (if index % 2 = 0 then (bitIndex level index : ℤ) + 1
      else (bitIndex level index : ℤ) - 1) =
      (bitIndex level (neighbor index) : ℕ) := by
  have hpos : 2 ≤ 2 ^ level := by
    calc 2 = 2 ^ 1 := by norm_num
      _ ≤ 2 ^ level := Nat.pow_le_pow_right (by omega) (by omega)
  unfold bitIndex neighbor
  split <;> omega

theorem mergeBlocks_spec :
    ∀ (level index : ℕ) (bitmap : Bitmap) (free : Set ℕ),
      Fits k bitmap → Canonical k free (marks bitmap) → level ≤ k →
      index < 2 ^ level → Disjoint (Block k level index) free →
      ∃ bitmap', (mergeBlocks level index bitmap).result = .ok bitmap' ∧
        bitmap'.wordCount = bitmap.wordCount ∧ Fits k bitmap' ∧
        Canonical k (free ∪ Block k level index) (marks bitmap') := by
  intro level
  induction level with
  | zero =>
      intro index bitmap free hfits hcanon hlevel hindex htaken
      refine ⟨bitmap.withBit (bitIndex 0 index) true, ?_, by simp,
        hfits.withBit hlevel hindex true, ?_⟩
      · simp only [mergeBlocks, Traced.result_bind,
          markAvailable_spec hfits hcanon hlevel hindex htaken,
          Traced.result_pure]
      · exact hcanon.mark hlevel htaken (maximal_root_union index)
          (hfits.updated hlevel hindex true)
  | succ below ih =>
      intro index bitmap free hfits hcanon hlevel hindex htaken
      obtain ⟨page, hpage⟩ := block_nonempty k (below + 1) index
      have hpageTaken : page ∉ free := Set.disjoint_left.mp htaken hpage
      have hneighbor := neighbor_lt hindex
      have hupdate := hfits.updated hlevel hindex true
      have hfits' := hfits.withBit hlevel hindex true
      have hneighborMark : marks
          (bitmap.withBit (bitIndex (below + 1) index) true) (below + 1)
            (neighbor index) = marks bitmap (below + 1) (neighbor index) := by
        rw [hupdate _ _ hlevel hneighbor, if_neg]
        exact fun h => neighbor_ne index h.2
      have hiff := hcanon.neighbor_marked_iff hlevel hindex hpage hpageTaken
      cases hmark : marks bitmap (below + 1) (neighbor index) with
      | false =>
          refine ⟨bitmap.withBit (bitIndex (below + 1) index) true, ?_,
            by simp, hfits', ?_⟩
          · simp only [mergeBlocks, Traced.result_bind,
              markAvailable_spec hfits hcanon hlevel hindex htaken,
              bitIndex_neighbor (Nat.succ_ne_zero below),
              isBitSet_result hfits' hlevel hneighbor, hneighborMark, hmark,
              Bool.false_eq_true, if_false, Traced.result_pure]
          · apply hcanon.mark hlevel htaken _ hupdate
            apply maximal_union_of_neighbor hlevel
            rw [← hiff, hmark]
            simp
      | true =>
          have hfree : Block k (below + 1) (neighbor index) ⊆ free :=
            hiff.mp hmark
          have hfits2 := hfits'.withBit hlevel hindex false
          have hfits3 := hfits2.withBit hlevel hneighbor false
          -- setting and clearing the block's own mark cancel
          have hmarks : Updated k (below + 1) (neighbor index) false
              (marks bitmap)
              (marks (((bitmap.withBit (bitIndex (below + 1) index)
                true).withBit (bitIndex (below + 1) index) false).withBit
                  (bitIndex (below + 1) (neighbor index)) false)) := by
            intro level' index' hlevel' hindex'
            rw [hfits2.updated hlevel hneighbor false _ _ hlevel' hindex',
              hfits'.updated hlevel hindex false _ _ hlevel' hindex',
              hupdate _ _ hlevel' hindex']
            by_cases hown : level' = below + 1 ∧ index' = index
            · obtain ⟨rfl, rfl⟩ := hown
              simp [hcanon.not_marked_of_taken hlevel hindex hpage
                hpageTaken]
            · simp [hown]
          have hcanon' := hcanon.unmark hlevel hneighbor hmark hmarks
          have hhalf : index / 2 < 2 ^ below := by
            rw [pow_succ] at hindex
            omega
          have hparent := parent_eq_union hlevel index
          have htaken' : Disjoint (Block k below (index / 2))
              (free \ Block k (below + 1) (neighbor index)) := by
            rw [hparent, Set.disjoint_union_left]
            exact ⟨htaken.mono_right Set.sdiff_subset,
              Set.disjoint_sdiff_right⟩
          obtain ⟨bitmap', hresult, hcount, hfits4, hcanon4⟩ :=
            ih (index / 2) _ _ hfits3 hcanon' (by omega) hhalf htaken'
          refine ⟨bitmap', ?_, by simpa using hcount, hfits4, ?_⟩
          · simp only [mergeBlocks, Traced.result_bind,
              markAvailable_spec hfits hcanon hlevel hindex htaken,
              bitIndex_neighbor (Nat.succ_ne_zero below),
              isBitSet_result hfits' hlevel hneighbor, hneighborMark, hmark,
              if_true, clearBit_result hfits' hlevel hindex,
              clearBit_result hfits2 hlevel hneighbor, hresult]
          · rw [hparent, Set.union_comm (Block k (below + 1) index),
              ← Set.union_assoc, Set.sdiff_union_of_subset hfree] at hcanon4
            exact hcanon4

end Pmm
end Yjkos
