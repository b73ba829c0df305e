import Yjkos.Machine

/-!
# Rounding and little-endian helpers

`kernel/lib/miscmath.c`.  Callers pass a non-zero alignment or block size as
a constant, so the assertions on them are not carried along; the one caller
which does not makes the assertion itself in its model.
-/

namespace Yjkos

def isAligned (x align : ℕ) : Bool :=
  x % align == 0

def alignUp (x align : ℕ) : ℕ :=
  if isAligned x align then x else wrap (x + (align - x % align))

def alignDown (x align : ℕ) : ℕ :=
  x - x % align

def sizeToBlocks (size blockSize : ℕ) : ℕ :=
  if size % blockSize == 0 then size / blockSize else size / blockSize + 1

def u16leAt (buf : ℕ → BitVec 8) (pos : ℕ) : ℕ :=
  ((buf (pos + 1)).zeroExtend 32 <<< 8 ||| (buf pos).zeroExtend 32).toNat

def u32leAt (buf : ℕ → BitVec 8) (pos : ℕ) : ℕ :=
  ((buf (pos + 3)).zeroExtend 32 <<< 24 |||
    (buf (pos + 2)).zeroExtend 32 <<< 16 |||
    (buf (pos + 1)).zeroExtend 32 <<< 8 |||
    (buf pos).zeroExtend 32).toNat

theorem u32leAt_lt (buf : ℕ → BitVec 8) (pos : ℕ) :
    u32leAt buf pos < 4294967296 :=
  BitVec.isLt _

theorem u16leAt_congr {f g : ℕ → BitVec 8} {p q : ℕ}
    (h : ∀ i, i < 2 → f (p + i) = g (q + i)) : u16leAt f p = u16leAt g q := by
  have hlow := h 0 (by decide)
  have hhigh := h 1 (by decide)
  rw [Nat.add_zero, Nat.add_zero] at hlow
  unfold u16leAt
  rw [hlow, hhigh]

theorem u32leAt_congr {f g : ℕ → BitVec 8} {p q : ℕ}
    (h : ∀ i, i < 4 → f (p + i) = g (q + i)) : u32leAt f p = u32leAt g q := by
  have hfirst := h 0 (by decide)
  rw [Nat.add_zero, Nat.add_zero] at hfirst
  unfold u32leAt
  rw [hfirst, h 1 (by decide), h 2 (by decide), h 3 (by decide)]

theorem u16leAt_eq (buf : ℕ → BitVec 8) (pos : ℕ) :
    u16leAt buf pos = 256 * (buf (pos + 1)).toNat + (buf pos).toNat := by
  have hlow := (buf pos).isLt
  have hhigh := (buf (pos + 1)).isLt
  have hadd := Nat.two_pow_add_eq_or_of_lt (i := 8) hlow
    (buf (pos + 1)).toNat
  unfold u16leAt
  simp only [BitVec.toNat_or, BitVec.toNat_shiftLeft,
    BitVec.truncate_eq_setWidth, BitVec.toNat_setWidth, Nat.shiftLeft_eq]
  rw [Nat.mod_eq_of_lt (by omega), Nat.mod_eq_of_lt (by omega),
    Nat.mod_eq_of_lt (by omega), Nat.mul_comm, ← hadd]

theorem isAligned_iff {x align : ℕ} :
    isAligned x align = true ↔ align ∣ x := by
  simp [isAligned, Nat.dvd_iff_mod_eq_zero]

/-- `size_to_blocks` is division rounded up. -/
theorem sizeToBlocks_le_iff {size blockSize n : ℕ} (hblock : 0 < blockSize) :
    sizeToBlocks size blockSize ≤ n ↔ size ≤ n * blockSize := by
  have hdiv := Nat.div_add_mod size blockSize
  have hmod := Nat.mod_lt size hblock
  unfold sizeToBlocks
  split
  next hzero =>
    have hzero' : size % blockSize = 0 := by simpa using hzero
    rw [← Nat.mul_le_mul_right_iff hblock, Nat.mul_comm (size / blockSize)]
    omega
  next hpos =>
    have hpos' : size % blockSize ≠ 0 := by simpa using hpos
    rw [Nat.succ_le_iff, Nat.div_lt_iff_lt_mul hblock]
    constructor
    · intro h
      exact h.le
    · intro h
      rcases h.lt_or_eq with hlt | heq
      · exact hlt
      · rw [heq, Nat.mul_mod_left] at hpos'
        exact absurd rfl hpos'

theorem le_sizeToBlocks_mul (size : ℕ) {blockSize : ℕ}
    (hblock : 0 < blockSize) :
    size ≤ sizeToBlocks size blockSize * blockSize :=
  (sizeToBlocks_le_iff hblock).mp le_rfl

theorem sizeToBlocks_pos {size blockSize : ℕ} (hblock : 0 < blockSize)
    (hsize : 0 < size) : 0 < sizeToBlocks size blockSize := by
  have h := le_sizeToBlocks_mul size hblock
  rcases Nat.eq_zero_or_pos (sizeToBlocks size blockSize) with hzero | hpos
  · rw [hzero] at h
    omega
  · exact hpos

theorem sizeToBlocks_mul_self (n : ℕ) {blockSize : ℕ}
    (hblock : 0 < blockSize) :
    sizeToBlocks (n * blockSize) blockSize = n := by
  simp [sizeToBlocks, Nat.mul_div_cancel n hblock]

end Yjkos
