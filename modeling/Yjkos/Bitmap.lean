import Yjkos.MiscMath

/-!
# Bitmaps

`kernel/lib/bitmap.c`.  A bitmap is its array of 32-bit words.  The range
operations and the searches never leave the array; the three single-bit
operations guard the word index with `word_count < index`, so an offset in
the word right behind the array is an access outside of it.

Bitmaps in the kernel have fewer than `2 ^ 31` bits, so positions are plain
integers.
-/

namespace Yjkos

def bitsPerWord : ℕ := 32

def wordAllOnes : BitVec 32 := BitVec.allOnes 32

structure Bitmap where
  words : List (BitVec 32)
deriving DecidableEq, Repr

namespace Bitmap

def wordCount (self : Bitmap) : ℕ := self.words.length

/-- `self->words[index]`, for an index inside of the array. -/
def word (self : Bitmap) (index : ℕ) : BitVec 32 := self.words.getD index 0

/-- The `for` loop of `findfirstsetbit`; it stops at bit 31 at the latest. -/
def findFirstSetBitLoop : ℕ → BitVec 32 → ℕ → ℤ
  | 0, _, _ => -1
  | steps + 1, shifted, index =>
      if shifted &&& 1 = 0 then
        if index = bitsPerWord - 1 then -1
        else findFirstSetBitLoop steps (shifted >>> 1) (index + 1)
      else index

def findFirstSetBit (word : BitVec 32) (startpos : ℤ) : ℤ :=
  if startpos < 0 ∨ (bitsPerWord : ℤ) ≤ startpos then -1
  else
    let shifted := word >>> startpos.toNat
    if shifted = 0 then -1
    else findFirstSetBitLoop bitsPerWord shifted startpos.toNat

/-- The `for` loop of `findlastcontiguousbit`; zeros are shifted in, so it
stops after bit 31 at the latest. -/
def findLastContiguousBitLoop : ℕ → BitVec 32 → ℕ → ℕ
  | 0, _, index => index
  | steps + 1, shifted, index =>
      if shifted &&& 1 ≠ 0 then
        findLastContiguousBitLoop steps (shifted >>> 1) (index + 1)
      else index

def findLastContiguousBit (word : BitVec 32) (startpos : ℤ) : ℤ :=
  if startpos < 0 ∨ (bitsPerWord : ℤ) ≤ startpos then -1
  else if word = wordAllOnes then (bitsPerWord : ℤ) - 1
  else
    let shifted := word >>> startpos.toNat
    if shifted &&& 1 = 0 then -1
    else
      (findLastContiguousBitLoop bitsPerWord shifted startpos.toNat : ℤ) - 1

def makeBitmask (offset len : ℕ) : BitVec 32 :=
  if len = 0 then 0
  else (wordAllOnes >>> (bitsPerWord - len)) <<< offset

def neededWordCount (bits : ℕ) : ℕ := sizeToBlocks bits bitsPerWord

/-- The scan of `bitmap_find_first_set_bit`; the first argument counts the
words left. -/
def findFirstSetBitFrom (self : Bitmap) : ℕ → ℕ → ℤ → ℤ
  | 0, _, _ => -1
  | left + 1, wordIdx, bitoffset =>
      let idx := findFirstSetBit (self.word wordIdx) bitoffset
      if 0 ≤ idx then (wordIdx * bitsPerWord : ℕ) + idx
      else findFirstSetBitFrom self left (wordIdx + 1) 0

def bitmapFindFirstSetBit (self : Bitmap) (startpos : ℤ) : ℤ :=
  if startpos < 0 then -1
  else
    let startWordIdx := startpos.toNat / bitsPerWord
    let bitoffset := startpos.toNat % bitsPerWord
    findFirstSetBitFrom self (self.wordCount - startWordIdx) startWordIdx
      bitoffset

/-- The scan of `bitmap_find_last_contiguous_bit`. -/
def findLastContiguousBitFrom (self : Bitmap) : ℕ → ℕ → ℤ → ℤ
  | 0, _, _ => ((self.wordCount * bitsPerWord : ℕ) : ℤ) - 1
  | left + 1, wordIdx, bitoffset =>
      let idx := findLastContiguousBit (self.word wordIdx) bitoffset
      if idx < 0 then -1
      else if idx ≠ (bitsPerWord : ℤ) - 1 ∨
          (idx = (bitsPerWord : ℤ) - 1 ∧ wordIdx + 1 < self.wordCount ∧
            self.word (wordIdx + 1) &&& 1 = 0) then
        (wordIdx * bitsPerWord : ℕ) + idx
      else findLastContiguousBitFrom self left (wordIdx + 1) 0

def bitmapFindLastContiguousBit (self : Bitmap) (startpos : ℤ) : ℤ :=
  if startpos < 0 then -1
  else
    let startWordIdx := startpos.toNat / bitsPerWord
    let bitoffset := startpos.toNat % bitsPerWord
    if self.wordCount ≤ startWordIdx then -1
    else
      findLastContiguousBitFrom self (self.wordCount - startWordIdx)
        startWordIdx bitoffset

/-- The endless loop of `bitmap_find_set_bits`, with fuel. -/
def findSetBitsLoop (self : Bitmap) (minlen : ℕ) :
    ℕ → ℤ → Except Fault ℤ
  | 0, _ => .error .outOfFuel
  | fuel + 1, start =>
      let firstBitIdx := self.bitmapFindFirstSetBit start
      if firstBitIdx < 0 then .ok (-1)
      else
        let lastBitIdx := self.bitmapFindLastContiguousBit firstBitIdx
        let foundlen := toSize (lastBitIdx - firstBitIdx + 1)
        if minlen ≤ foundlen then .ok firstBitIdx
        else findSetBitsLoop self minlen fuel (lastBitIdx + 1)

def bitmapFindSetBits (self : Bitmap) (startpos : ℤ) (minlen : ℕ) :
    Except Fault ℤ :=
  if startpos < 0 then .ok (-1)
  else
    findSetBitsLoop self minlen (self.wordCount * bitsPerWord + 1) startpos

/-- Bits of the current word covered by the rest of a range. -/
def currentLen (bitoffset remaininglen : ℕ) : ℕ :=
  if bitsPerWord < bitoffset + remaininglen then bitsPerWord - bitoffset
  else remaininglen

def areBitsSetFrom (self : Bitmap) : ℕ → ℕ → ℕ → ℕ → Bool
  | 0, _, _, remaininglen => remaininglen = 0
  | left + 1, wordIdx, bitoffset, remaininglen =>
      if remaininglen = 0 then true
      else
        let word := self.word wordIdx
        if word = 0 then false
        else
          let currentlen := currentLen bitoffset remaininglen
          let mask := makeBitmask bitoffset currentlen
          if word &&& mask ≠ mask then false
          else
            areBitsSetFrom self left (wordIdx + 1) 0
              (remaininglen - currentlen)

def bitmapAreBitsSet (self : Bitmap) (offset : ℤ) (len : ℕ) : Bool :=
  if offset < 0 ∨ len = 0 then false
  else
    let wordIdx := offset.toNat / bitsPerWord
    areBitsSetFrom self (self.wordCount - wordIdx) wordIdx
      (offset.toNat % bitsPerWord) len

/-- The common loop of `bitmap_set_bits` and `bitmap_clear_bits`: `apply`
combines one word with the mask of the bits which the range covers in it. -/
def updateBitsFrom (apply : BitVec 32 → BitVec 32 → BitVec 32) :
    ℕ → List (BitVec 32) → ℕ → ℕ → ℕ → List (BitVec 32)
  | 0, words, _, _, _ => words
  | left + 1, words, wordIdx, bitoffset, remaininglen =>
      if remaininglen = 0 then words
      else
        let currentlen := currentLen bitoffset remaininglen
        let mask := makeBitmask bitoffset currentlen
        updateBitsFrom apply left
          (words.set wordIdx (apply (words.getD wordIdx 0) mask))
          (wordIdx + 1) 0 (remaininglen - currentlen)

def updateBits (apply : BitVec 32 → BitVec 32 → BitVec 32)
    (self : Bitmap) (offset : ℤ) (len : ℕ) : Bitmap :=
  let wordIdx := toSize offset / bitsPerWord
  ⟨updateBitsFrom apply (self.wordCount - wordIdx) self.words wordIdx
    (toSize offset % bitsPerWord) len⟩

def bitmapSetBits (self : Bitmap) (offset : ℤ) (len : ℕ) : Bitmap :=
  self.updateBits (fun word mask => word ||| mask) offset len

def bitmapClearBits (self : Bitmap) (offset : ℤ) (len : ℕ) : Bitmap :=
  self.updateBits (fun word mask => word &&& ~~~mask) offset len

/-- The guard and the word access shared by the single-bit operations.
`outside` is the result when the guard rejects the offset. -/
def accessBit {α : Type} (self : Bitmap) (offset : ℤ) (outside : α)
    (access : ℕ → BitVec 32 → α) : Except Fault α :=
  if offset < 0 ∨ self.wordCount < offset.toNat / bitsPerWord then
    .ok outside
  else if self.wordCount ≤ offset.toNat / bitsPerWord then
    .error .outOfBounds
  else
    .ok (access (offset.toNat / bitsPerWord)
      (1#32 <<< (offset.toNat % bitsPerWord)))

def bitmapSetBit (self : Bitmap) (offset : ℤ) : Except Fault Bitmap :=
  self.accessBit offset self fun index bit =>
    ⟨self.words.set index (self.word index ||| bit)⟩

def bitmapClearBit (self : Bitmap) (offset : ℤ) : Except Fault Bitmap :=
  self.accessBit offset self fun index bit =>
    ⟨self.words.set index (self.word index &&& ~~~bit)⟩

def bitmapIsBitSet (self : Bitmap) (offset : ℤ) : Except Fault Bool :=
  self.accessBit offset false fun index bit =>
    self.word index &&& bit ≠ 0

end Bitmap

end Yjkos
