import Yjkos.FbDraw

/-!
# Glyphs of several bytes to a row

`fb_draw_text` for a font of any width.  A byte of zeros is skipped, but the
pixel moves on by a single step, so what follows in the row is drawn exactly
only when it is empty too.
-/

namespace Yjkos
namespace Fb

open Canvas

variable {font : Psf} {color : FbColor}

/-- The bit of a column in the row of a bitmap which starts at `src`. -/
def rowBit (font : Psf) (src column : ℕ) : Bool :=
  (font.glyphs (src + column / 8)).getLsbD (7 - column % 8)

/-- Byte `k` is the first one of the row which is zero, and all from there up
to byte `m` are. -/
structure FirstGap (font : Psf) (src k m : ℕ) : Prop where
  lt : k < m
  lt_bytes : m < font.getbytesperline
  before : ∀ j < k, font.glyphs (src + j) ≠ 0
  gap : ∀ j, k ≤ j → j < m → font.glyphs (src + j) = 0

/-- Behind a byte of zeros there are only zeros. -/
def EmptyTail (font : Psf) (src : ℕ) : Prop :=
  ∀ k m, k < m → m < font.getbytesperline → font.glyphs (src + k) = 0 →
    font.glyphs (src + m) = 0

/-- The columns from `c` on as the bitmap has them. -/
def rowFrom (font : Psf) (color : FbColor) (src destline c : ℕ)
    (buffer : ℕ → FbColor) : ℕ → FbColor := fun i =>
  if (destline + c ≤ i ∧ i < destline + font.fontwidth) ∧
      rowBit font src (i - destline) = true then color
  else buffer i

/-- The row is drawn at this place as the bitmap has it, on every ground. -/
def RowExact (font : Psf) (color : FbColor) (src destline : ℕ) : Prop :=
  ∀ buffer, drawGlyphRow font color buffer src destline 0x80#8 0 =
    rowFrom font color src destline 0 buffer

theorem emptyTail_of_gaps {src : ℕ}
    (h : ∀ k m, FirstGap font src k m → font.glyphs (src + m) = 0) :
    EmptyTail font src := by
  classical
  intro j m hlt hm hzero
  have hex : ∃ k, font.glyphs (src + k) = 0 := ⟨j, hzero⟩
  have hfirst : Nat.find hex ≤ j := Nat.find_min' hex hzero
  -- the run of zeros from the first one on grows up to the byte
  have hrun : ∀ n, Nat.find hex ≤ n → n < font.getbytesperline →
      ∀ i, Nat.find hex ≤ i → i ≤ n → font.glyphs (src + i) = 0 := by
    intro n hn
    induction n, hn using Nat.le_induction with
    | base =>
        intro _ i hi hle
        rw [le_antisymm hle hi]
        exact Nat.find_spec hex
    | succ n hn ih =>
        intro hbytes i hi hle
        have hbelow := ih (by omega)
        rcases Nat.lt_or_ge i (n + 1) with hlt | hge
        · exact hbelow i hi (by omega)
        · rw [le_antisymm hle hge]
          exact h (Nat.find hex) (n + 1) ⟨by omega, hbytes,
            fun j hj => Nat.find_min hex hj,
            fun j hj hlt => hbelow j hj (by omega)⟩
  exact hrun m (by omega) hm m (by omega) le_rfl

/-! ## A row -/

theorem paintIf_congr (p : Prop) [Decidable p] {buffer buffer' : ℕ → FbColor}
    {i : ℕ} (h : buffer i = buffer' i) (first : ℕ) (f : ℕ → FbColor) :
    (if p then paint buffer first 1 f else buffer) i =
      (if p then paint buffer' first 1 f else buffer') i := by
  split
  next =>
    unfold paint
    rw [h]
  next => exact h

/-- What is drawn at an address depends on nothing but its own pixel. -/
theorem drawGlyphRow_congr {buffer buffer' : ℕ → FbColor} {i : ℕ}
    (h : buffer i = buffer' i) (srcpixel destpixel : ℕ) (mask : BitVec 8)
    (c : ℕ) :
    drawGlyphRow font color buffer srcpixel destpixel mask c i =
      drawGlyphRow font color buffer' srcpixel destpixel mask c i := by
  induction hleft : font.fontwidth - c using Nat.strong_induction_on
    generalizing buffer buffer' srcpixel destpixel mask c with
  | _ left ih =>
      rw [drawGlyphRow, drawGlyphRow.eq_def font color buffer']
      by_cases hlt : c < font.fontwidth
      · rw [if_pos hlt, if_pos hlt]
        by_cases hzero : font.glyphs srcpixel = 0
        · rw [if_pos hzero, if_pos hzero]
          exact ih _ (by omega) h _ _ _ _ rfl
        · rw [if_neg hzero, if_neg hzero]
          exact ih _ (by omega) (paintIf_congr _ h _ _) _ _ _ _ rfl
      · rw [if_neg hlt, if_neg hlt]
        exact h

/-- A pixel of the color keeps it. -/
theorem drawGlyphRow_keeps {buffer : ℕ → FbColor} {i : ℕ}
    (h : buffer i = color) (srcpixel destpixel : ℕ) (mask : BitVec 8)
    (c : ℕ) :
    drawGlyphRow font color buffer srcpixel destpixel mask c i = color := by
  fun_induction drawGlyphRow font color buffer srcpixel destpixel mask c with
  | case1 buffer srcpixel destpixel mask c hlt hzero ih => exact ih h
  | case2 buffer srcpixel destpixel mask c hlt hbyte srcpixel' mask' buffer'
      ih =>
      refine ih ?_
      simp only [buffer']
      split
      next =>
        unfold paint
        rw [h, ite_self]
      next => exact h
  | case3 => exact h

/-- The step over a byte of zeros. -/
theorem drawGlyphRow_skip {buffer : ℕ → FbColor} {srcpixel destpixel c : ℕ}
    {mask : BitVec 8} (hlt : c < font.fontwidth)
    (hzero : font.glyphs srcpixel = 0) {j : ℕ} (hj : c / 8 = j) :
    drawGlyphRow font color buffer srcpixel destpixel mask c =
      drawGlyphRow font color buffer (srcpixel + 1) (destpixel + 1) 0x3f#8
        (8 * (j + 1)) := by
  rw [drawGlyphRow, if_pos hlt, if_pos hzero]
  congr 1
  omega

theorem drawGlyphRow_end {buffer : ℕ → FbColor} {srcpixel destpixel c : ℕ}
    {mask : BitVec 8} (hle : font.fontwidth ≤ c) :
    drawGlyphRow font color buffer srcpixel destpixel mask c = buffer := by
  rw [drawGlyphRow, if_neg (by omega)]

/-- The rest of a row is skipped when it has only zeros. -/
theorem drawGlyphRow_empty {src j : ℕ}
    (h : ∀ m, j ≤ m → m < font.getbytesperline → font.glyphs (src + m) = 0)
    (buffer : ℕ → FbColor) (destpixel : ℕ) (mask : BitVec 8) :
    drawGlyphRow font color buffer (src + j) destpixel mask (8 * j) =
      buffer := by
  induction hleft : font.getbytesperline - j generalizing j destpixel mask with
  | zero =>
      unfold Psf.getbytesperline at hleft
      exact drawGlyphRow_end (by omega)
  | succ left ih =>
      unfold Psf.getbytesperline at hleft
      rw [drawGlyphRow_skip (by omega)
        (h j le_rfl (by unfold Psf.getbytesperline; omega))
        (show 8 * j / 8 = j by omega), add_assoc]
      exact ih (fun m hm => h m (by omega)) _ _
        (by unfold Psf.getbytesperline; omega)

/-- One column of a byte which is not zero, whose bits are tested one after
the other. -/
theorem drawGlyphRow_column {buffer : ℕ → FbColor} {src destpixel j r : ℕ}
    (hr : r < 8) (hlt : 8 * j + r < font.fontwidth)
    (hbyte : font.glyphs (src + j) ≠ 0) :
    drawGlyphRow font color buffer (src + j) destpixel (0x80#8 >>> r)
        (8 * j + r) =
      drawGlyphRow font color
        (if rowBit font src (8 * j + r) = true then
          paint buffer destpixel 1 (fun _ => color) else buffer)
        (src + j) (destpixel + 1) (0x80#8 >>> (r + 1)) (8 * j + r + 1) := by
  have hmask : ∀ r < 8, 0x80#8 >>> r ≠ 0 := by decide
  have hdiv : (8 * j + r) / 8 = j := by omega
  have hmod : (8 * j + r) % 8 = r := by omega
  rw [drawGlyphRow, if_pos hlt, if_neg hbyte]
  simp only [if_neg (hmask r hr), ← BitVec.shiftRight_add, rowBit, hdiv, hmod,
    and_mask_ne_zero_iff (font.glyphs (src + j)) hr]

/-- The first column of the byte behind one which is not zero. -/
theorem drawGlyphRow_next {buffer : ℕ → FbColor} {src destpixel j : ℕ}
    (hlt : 8 * (j + 1) < font.fontwidth) (hbyte : font.glyphs (src + j) ≠ 0) :
    drawGlyphRow font color buffer (src + j) destpixel 0#8 (8 * (j + 1)) =
      drawGlyphRow font color
        (if rowBit font src (8 * (j + 1)) = true then
          paint buffer destpixel 1 (fun _ => color) else buffer)
        (src + (j + 1)) (destpixel + 1) (0x80#8 >>> 1)
        (8 * (j + 1) + 1) := by
  have hdiv : 8 * (j + 1) / 8 = j + 1 := by omega
  have hmod : 8 * (j + 1) % 8 = 0 := by omega
  rw [drawGlyphRow, if_pos hlt, if_neg hbyte]
  have hbit := and_mask_ne_zero_iff (font.glyphs (src + (j + 1)))
    (show 0 < 8 by decide)
  rw [BitVec.ushiftRight_zero] at hbit
  simp only [rowBit, hdiv, hmod, ← hbit]
  rfl

theorem rowFrom_end {src destline c : ℕ} (hle : font.fontwidth ≤ c)
    (buffer : ℕ → FbColor) :
    rowFrom font color src destline c buffer = buffer := by
  funext i
  exact if_neg (by omega)

/-- One column is painted, and then those behind it. -/
theorem rowFrom_column {src destline c : ℕ} (hlt : c < font.fontwidth)
    (buffer : ℕ → FbColor) :
    rowFrom font color src destline (c + 1)
        (if rowBit font src c = true then
          paint buffer (destline + c) 1 (fun _ => color) else buffer) =
      rowFrom font color src destline c buffer := by
  funext i
  unfold rowFrom
  by_cases hi : i = destline + c
  · subst hi
    rw [if_neg (by omega), Nat.add_sub_cancel_left]
    by_cases hbit : rowBit font src c = true
    · rw [if_pos hbit, if_pos ⟨by omega, hbit⟩]
      exact if_pos (by omega)
    · rw [if_neg hbit, if_neg fun h => hbit h.2]
  · have hkeep : (if rowBit font src c = true then
        paint buffer (destline + c) 1 (fun _ => color) else buffer) i =
        buffer i := by
      split
      next => exact paint_of_not_mem (by omega) _
      next => rfl
    rw [hkeep]
    congr 1
    rw [eq_iff_iff]
    exact and_congr_left' (by omega)

/-- The columns of zeros are none of the bitmap's pixels. -/
theorem rowFrom_empty {src destline c j : ℕ} (hj : c / 8 = j)
    (h : ∀ m, j ≤ m → m < font.getbytesperline → font.glyphs (src + m) = 0)
    (buffer : ℕ → FbColor) :
    rowFrom font color src destline c buffer = buffer := by
  funext i
  refine if_neg ?_
  rintro ⟨hi, hbit⟩
  have hzero := h ((i - destline) / 8) (by omega)
    (by unfold Psf.getbytesperline; omega)
  rw [rowBit, hzero] at hbit
  simp at hbit

/-- Where nothing but zeros follows a byte of zeros, the columns from any of
the bytes' columns on are drawn as the bitmap has them. -/
theorem drawGlyphRow_plain {src j r : ℕ} (htail : EmptyTail font src)
    (hr : r ≤ 8) (hlast : r = 8 → font.glyphs (src + j) ≠ 0)
    (buffer : ℕ → FbColor) (destline : ℕ) :
    drawGlyphRow font color buffer (src + j) (destline + (8 * j + r))
        (0x80#8 >>> r) (8 * j + r) =
      rowFrom font color src destline (8 * j + r) buffer := by
  induction hleft : font.fontwidth - (8 * j + r) generalizing j r buffer with
  | zero => rw [drawGlyphRow_end (by omega), rowFrom_end (by omega)]
  | succ left ih =>
      have hlt : 8 * j + r < font.fontwidth := by omega
      rcases hr.lt_or_eq with hr | rfl
      · by_cases hbyte : font.glyphs (src + j) = 0
        · have hbytes : j < font.getbytesperline := by
            unfold Psf.getbytesperline
            omega
          have hzeros : ∀ m, j ≤ m → m < font.getbytesperline →
              font.glyphs (src + m) = 0 := by
            intro m hm hlt
            rcases hm.eq_or_lt with rfl | hm
            · exact hbyte
            · exact htail j m hm hlt hbyte
          rw [drawGlyphRow_skip hlt hbyte (show (8 * j + r) / 8 = j by omega),
            rowFrom_empty (show (8 * j + r) / 8 = j by omega) hzeros,
            add_assoc]
          exact drawGlyphRow_empty (fun m hm => hzeros m (by omega)) _ _ _
        · rw [drawGlyphRow_column hr hlt hbyte, ← rowFrom_column hlt]
          exact ih (j := j) (r := r + 1) (by omega) (fun _ => hbyte) _
            (by omega)
      · have hbyte := hlast rfl
        have hnext : (0x80#8 >>> 8) = 0#8 := by decide
        rw [← rowFrom_column hlt, hnext]
        exact (drawGlyphRow_next (by omega) hbyte).trans
          (ih (j := j + 1) (r := 1) (by omega) (by omega) _ (by omega))

/-- Such a row is drawn exactly. -/
theorem rowExact_of_emptyTail {src : ℕ} (htail : EmptyTail font src)
    (destline : ℕ) : RowExact font color src destline := by
  intro buffer
  have hrow := @drawGlyphRow_plain _ color _ 0 0 htail
    (by omega) (by omega) buffer destline
  exact hrow

/-! ## A gap in a row -/

/-- The columns of a byte which is not zero, up to its last one. -/
theorem drawGlyphRow_through {src j r : ℕ} (hr : r ≤ 8)
    (hbyte : font.glyphs (src + j) ≠ 0) (hle : 8 * (j + 1) ≤ font.fontwidth)
    (buffer : ℕ → FbColor) (destline : ℕ) :
    ∃ buffer', drawGlyphRow font color buffer (src + j)
        (destline + (8 * j + r)) (0x80#8 >>> r) (8 * j + r) =
      drawGlyphRow font color buffer' (src + j) (destline + 8 * (j + 1)) 0#8
        (8 * (j + 1)) := by
  induction hleft : 8 - r generalizing r buffer with
  | zero =>
      obtain rfl : r = 8 := by omega
      exact ⟨buffer, rfl⟩
  | succ left ih =>
      rw [drawGlyphRow_column (by omega) (by omega) hbyte]
      exact ih (r := r + 1) (by omega) _ (by omega)

/-- The bytes in front of the first gap are drawn one by one. -/
theorem drawGlyphRow_reaches {src j : ℕ}
    (h : ∀ i ≤ j, font.glyphs (src + i) ≠ 0)
    (hle : 8 * (j + 1) ≤ font.fontwidth) (buffer : ℕ → FbColor)
    (destline : ℕ) :
    ∃ buffer', drawGlyphRow font color buffer src destline 0x80#8 0 =
      drawGlyphRow font color buffer' (src + j) (destline + 8 * (j + 1)) 0#8
        (8 * (j + 1)) := by
  induction j with
  | zero =>
      exact drawGlyphRow_through (j := 0) (r := 0) (by omega) (h 0 le_rfl) hle
        buffer destline
  | succ j ih =>
      obtain ⟨buffer', hbuffer'⟩ := ih (fun i hi => h i (by omega)) (by omega)
      rw [drawGlyphRow_next (by omega) (h j (by omega))] at hbuffer'
      obtain ⟨buffer'', hbuffer''⟩ := @drawGlyphRow_through _ color _ _ 1
        (by omega) (h (j + 1) le_rfl) hle
        (if rowBit font src (8 * (j + 1)) = true then
          paint buffer' (destline + 8 * (j + 1)) 1 (fun _ => color)
          else buffer') destline
      exact ⟨buffer'', hbuffer'.trans hbuffer''⟩

/-- The column at which the pixel stands behind the first gap. -/
def gapColumn (k m : ℕ) : ℕ :=
  (if k = 0 then 1 else 8 * k + 2) + (m - k - 1)

/-- The bytes of the gap are skipped, and the pixel stays behind. -/
theorem drawGlyphRow_gap {src k m : ℕ} (hgap : FirstGap font src k m)
    (buffer : ℕ → FbColor) (destline : ℕ) :
    ∃ buffer', drawGlyphRow font color buffer src destline 0x80#8 0 =
      drawGlyphRow font color buffer' (src + m) (destline + gapColumn k m)
        0x3f#8 (8 * m) := by
  obtain ⟨hlt, hbytes, hbefore, hgap⟩ := hgap
  unfold Psf.getbytesperline at hbytes
  induction m, Nat.succ_le_of_lt hlt using Nat.le_induction with
  | base =>
      have hzero := hgap k le_rfl (Nat.lt_succ_self k)
      unfold gapColumn
      cases k with
      | zero =>
          exact ⟨buffer, drawGlyphRow_skip (by omega) hzero (by omega)⟩
      | succ j =>
          obtain ⟨buffer', hbuffer'⟩ := drawGlyphRow_reaches (j := j)
            (fun i hi => hbefore i (by omega)) (by omega) buffer destline
          refine ⟨buffer', hbuffer'.trans ?_⟩
          -- the first column of the empty byte is tested before the skip
          rw [drawGlyphRow_next (by omega) (hbefore j (by omega))]
          have hbit : ¬ rowBit font src (8 * (j + 1)) = true := by
            unfold rowBit
            rw [show 8 * (j + 1) / 8 = j + 1 by omega, hzero]
            simp
          rw [if_neg hbit, drawGlyphRow_skip (by omega) hzero
            (show (8 * (j + 1) + 1) / 8 = j + 1 by omega),
            if_neg (Nat.succ_ne_zero j)]
          congr 1
          omega
  | succ m hm ih =>
      obtain ⟨buffer', hbuffer'⟩ := ih (by omega) (by omega)
        (fun j hj hlt => hgap j hj (by omega))
      refine ⟨buffer', hbuffer'.trans ?_⟩
      rw [drawGlyphRow_skip (by omega) (hgap m (by omega) (by omega))
        (show 8 * m / 8 = m by omega)]
      unfold gapColumn
      congr 1
      omega

/-- A row is not drawn exactly when the byte behind its first gap has one of
its six lower bits: a pixel of the gap is painted. -/
theorem low_bits_of_rowExact {src k m destline : ℕ}
    (hgap : FirstGap font src k m)
    (hexact : RowExact font color src destline) :
    font.glyphs (src + m) &&& 0x3f#8 = 0 := by
  by_contra hbits
  have hcolumn : gapColumn k m < 8 * m ∧ 8 * k ≤ gapColumn k m := by
    have hlt := hgap.lt
    unfold gapColumn
    split <;> omega
  have hbytes := hgap.lt_bytes
  unfold Psf.getbytesperline at hbytes
  have hbyte : font.glyphs (src + m) ≠ 0 := by
    intro hzero
    rw [hzero] at hbits
    exact hbits (by decide)
  -- the ground differs from the color everywhere
  obtain ⟨buffer', hbuffer'⟩ := @drawGlyphRow_gap _ color _ _ _ hgap
    (fun _ => color + 1) destline
  have hpainted : drawGlyphRow font color (fun _ => color + 1) src destline
      0x80#8 0 (destline + gapColumn k m) = color := by
    rw [hbuffer', drawGlyphRow, if_pos (by omega), if_neg hbyte]
    apply drawGlyphRow_keeps
    rw [if_neg (show (0x3f#8 : BitVec 8) ≠ 0 by decide),
      if_neg (show (0x3f#8 : BitVec 8) ≠ 0 by decide), if_pos hbits]
    exact if_pos (by omega)
  have hzero : font.glyphs (src + gapColumn k m / 8) = 0 :=
    hgap.gap _ (by omega) (by omega)
  rw [hexact, rowFrom, Nat.add_sub_cancel_left, rowBit, hzero] at hpainted
  rw [if_neg (by simp)] at hpainted
  revert hpainted
  simp

/-! ## A text -/

/-- A pixel of a glyph is drawn with its row, and the others are kept. -/
theorem drawGlyph_row {width row column : ℕ}
    (hfit : column + font.fontwidth ≤ width) (buffer : ℕ → FbColor)
    (glyph : ℕ) {y x : ℕ} (hx : x < width) :
    drawGlyph font width color buffer glyph (row * width + column)
        (y * width + x) =
      if (row ≤ y ∧ y < row + font.fontheight) ∧
          column ≤ x ∧ x < column + font.fontwidth then
        drawGlyphRow font color buffer
          (glyph + (y - row) * font.getbytesperline) (y * width + column)
          0x80#8 0 (y * width + x)
      else buffer (y * width + x) := by
  suffices h : ∀ n, (List.range n).foldl (fun buffer l =>
      drawGlyphRow font color buffer (glyph + l * font.getbytesperline)
        (row * width + column + l * width) 0x80#8 0) buffer (y * width + x) =
      if (row ≤ y ∧ y < row + n) ∧
          column ≤ x ∧ x < column + font.fontwidth then
        drawGlyphRow font color buffer
          (glyph + (y - row) * font.getbytesperline) (y * width + column)
          0x80#8 0 (y * width + x)
      else buffer (y * width + x) from h font.fontheight
  intro n
  induction n with
  | zero =>
      rw [if_neg (by omega)]
      rfl
  | succ n ih =>
      rw [List.range_succ, List.foldl_append, List.foldl_cons,
        List.foldl_nil,
        show row * width + column + n * width = (row + n) * width + column by
          ring]
      by_cases hrow : y = row + n ∧ column ≤ x ∧ x < column + font.fontwidth
      · obtain ⟨rfl, hcolumn⟩ := hrow
        rw [if_neg (by omega)] at ih
        rw [if_pos ⟨by omega, hcolumn⟩, Nat.add_sub_cancel_left]
        exact drawGlyphRow_congr ih _ _ _ _
      · rw [drawGlyphRow_outside _ _ _ _ _ (by
          rw [Nat.sub_zero, mem_part_iff hx hfit]
          exact hrow), ih]
        by_cases hin : (row ≤ y ∧ y < row + n) ∧
            column ≤ x ∧ x < column + font.fontwidth
        · rw [if_pos hin, if_pos (by omega)]
        · rw [if_neg hin, if_neg (by omega)]

/-- A pixel of the cell of a character is drawn with the row of its glyph. -/
theorem drawChars_row {width row column n : ℕ} {text : List (BitVec 8)}
    (hfit : column + text.length * font.fontwidth ≤ width)
    (buffer : ℕ → FbColor) {y x : ℕ} (hx : x < width)
    (hy : row ≤ y ∧ y < row + font.fontheight) {chr : BitVec 8}
    (hchr : text[n]? = some chr)
    (hcell : column + n * font.fontwidth ≤ x ∧
      x < column + n * font.fontwidth + font.fontwidth) :
    drawChars font width color text (row * width + column) buffer
        (y * width + x) =
      drawGlyphRow font color buffer
        (font.getglyph (chr.signExtend 32) +
          (y - row) * font.getbytesperline)
        (y * width + (column + n * font.fontwidth)) 0x80#8 0
        (y * width + x) := by
  induction text generalizing column n buffer with
  | nil => cases hchr
  | cons first rest ih =>
      rw [List.length_cons, add_mul, one_mul] at hfit
      rw [drawChars, add_assoc]
      cases n with
      | zero =>
          cases hchr
          rw [zero_mul, add_zero] at hcell ⊢
          refine (drawChars_outside rest _ le_rfl (by omega) y x hx
            (by omega)).trans ?_
          rw [drawGlyph_row (by omega) buffer _ hx, if_pos ⟨hy, hcell⟩]
      | succ n =>
          rw [List.getElem?_cons_succ] at hchr
          rw [add_mul, one_mul] at hcell
          rw [ih (by omega) _ hchr (by omega),
            show column + font.fontwidth + n * font.fontwidth =
              column + (n + 1) * font.fontwidth by ring]
          refine drawGlyphRow_congr ?_ _ _ _ _
          rw [drawGlyph_row (by omega) buffer _ hx, if_neg (by omega)]

/-- The start of a line of the glyph of a character. -/
def glyphLine (font : Psf) (chr : BitVec 8) (l : ℕ) : ℕ :=
  font.getglyph (chr.signExtend 32) + l * font.getbytesperline

/-- Whether the text has a pixel here: the bit of its column in the line of
the glyph whose cell it is. -/
def lit (font : Psf) (text : List (BitVec 8)) (destx desty y x : ℕ) : Bool :=
  decide (desty ≤ y ∧ y < desty + font.fontheight ∧ destx ≤ x) &&
    match text[(x - destx) / font.fontwidth]? with
    | some chr => font.hasPixel (font.getglyph (chr.signExtend 32))
        (y - desty) ((x - destx) % font.fontwidth)
    | none => false

/-- On every ground, the pixels of the text get the color and all the others
are kept. -/
def TextExact (font : Psf) (s : Fb) (text : List (BitVec 8))
    (destx desty : ℕ) (color : FbColor) : Prop :=
  ∀ buffer y x, x < s.width →
    (drawText font { s with backbuffer := buffer } text destx desty
      color).backbuffer (y * s.width + x) =
      if lit font text destx desty y x = true then color
      else buffer (y * s.width + x)

variable {s : Fb} {text : List (BitVec 8)} {destx desty : ℕ}

/-- The cell of a column of the text. -/
theorem column_cell {x : ℕ} (hle : destx ≤ x)
    (hlt : x < destx + text.length * font.fontwidth) :
    (x - destx) / font.fontwidth < text.length ∧
      destx + (x - destx) / font.fontwidth * font.fontwidth ≤ x ∧
      x < destx + (x - destx) / font.fontwidth * font.fontwidth +
        font.fontwidth ∧
      (x - destx) % font.fontwidth =
        x - (destx + (x - destx) / font.fontwidth * font.fontwidth) := by
  have hpos := font.fontwidth_pos
  have hdiv := Nat.div_add_mod (x - destx) font.fontwidth
  have hmod := Nat.mod_lt (x - destx) hpos
  rw [mul_comm] at hdiv
  refine ⟨?_, by omega, by omega, by omega⟩
  rw [Nat.div_lt_iff_lt_mul hpos]
  omega

theorem rowFrom_at {src destline d : ℕ} (hd : d < font.fontwidth)
    (buffer : ℕ → FbColor) :
    rowFrom font color src destline 0 buffer (destline + d) =
      if rowBit font src d = true then color else buffer (destline + d) := by
  rw [rowFrom, Nat.add_sub_cancel_left]
  congr 1
  rw [eq_iff_iff]
  exact and_iff_right (by omega)

theorem cell_le {n : ℕ} {chr : BitVec 8} (hchr : text[n]? = some chr) :
    n * font.fontwidth + font.fontwidth ≤ text.length * font.fontwidth := by
  obtain ⟨hn, -⟩ := List.getElem?_eq_some_iff.1 hchr
  have hcells : (n + 1) * font.fontwidth ≤ text.length * font.fontwidth :=
    Nat.mul_le_mul_right _ hn
  rwa [add_mul, one_mul] at hcells

/-- The pixels of a text in the cell of a character are those of its glyph. -/
theorem lit_cell {n l d : ℕ} {chr : BitVec 8} (hchr : text[n]? = some chr)
    (hl : l < font.fontheight) (hd : d < font.fontwidth) :
    lit font text destx desty (desty + l) (destx + n * font.fontwidth + d) =
      rowBit font (glyphLine font chr l) d := by
  have hoffset : destx + n * font.fontwidth + d - destx =
      d + n * font.fontwidth := by omega
  rw [lit, hoffset, Nat.add_mul_div_right _ _ font.fontwidth_pos,
    Nat.div_eq_of_lt hd, zero_add, hchr, Nat.add_mul_mod_self_right,
    Nat.mod_eq_of_lt hd, Nat.add_sub_cancel_left,
    decide_eq_true (by omega), Bool.true_and]
  rfl

theorem drawText_cell
    (hfit : destx + text.length * font.fontwidth ≤ s.width) {n l d : ℕ}
    {chr : BitVec 8} (hchr : text[n]? = some chr) (hl : l < font.fontheight)
    (hd : d < font.fontwidth) (buffer : ℕ → FbColor) :
    (drawText font { s with backbuffer := buffer } text destx desty
      color).backbuffer
        ((desty + l) * s.width + (destx + n * font.fontwidth + d)) =
      drawGlyphRow font color buffer (glyphLine font chr l)
        ((desty + l) * s.width + (destx + n * font.fontwidth)) 0x80#8 0
        ((desty + l) * s.width + (destx + n * font.fontwidth) + d) := by
  have hcell := @cell_le font _ _ _ hchr
  have hrow := @drawChars_row _ color _ desty _ _ _ hfit buffer (desty + l)
    (destx + n * font.fontwidth + d) (by omega) ⟨by omega, by omega⟩ _ hchr
    ⟨by omega, by omega⟩
  rw [Nat.add_sub_cancel_left] at hrow
  rw [add_assoc ((desty + l) * s.width)]
  exact hrow

/-- A text is drawn exactly when all its rows are. -/
theorem textExact_iff (hfit : destx + text.length * font.fontwidth ≤ s.width) :
    TextExact font s text destx desty color ↔
      ∀ n chr, text[n]? = some chr → ∀ l < font.fontheight,
        RowExact font color (glyphLine font chr l)
          ((desty + l) * s.width + (destx + n * font.fontwidth)) := by
  constructor
  · intro hexact n chr hchr l hl buffer
    have hcell := @cell_le font _ _ _ hchr
    funext i
    by_cases hi : (desty + l) * s.width + (destx + n * font.fontwidth) ≤ i ∧
        i < (desty + l) * s.width + (destx + n * font.fontwidth) +
          font.fontwidth
    · obtain ⟨d, rfl⟩ := Nat.exists_eq_add_of_le hi.1
      have hd : d < font.fontwidth := by omega
      have hpixel := hexact buffer (desty + l)
        (destx + n * font.fontwidth + d) (by omega)
      rw [drawText_cell hfit hchr hl hd, lit_cell hchr hl hd] at hpixel
      rw [rowFrom_at hd, hpixel, add_assoc ((desty + l) * s.width)]
    · rw [drawGlyphRow_outside _ _ _ _ _ hi, rowFrom, if_neg]
      exact fun h => hi h.1
  · intro hrows buffer y x hx
    by_cases hin : (desty ≤ y ∧ y < desty + font.fontheight) ∧ destx ≤ x ∧
        x < destx + text.length * font.fontwidth
    · obtain ⟨⟨hy, hyh⟩, hle, hlt⟩ := hin
      obtain ⟨hn, hcell, hend, -⟩ := column_cell hle hlt
      generalize (x - destx) / font.fontwidth = n at hn hcell hend
      obtain ⟨l, rfl⟩ := Nat.exists_eq_add_of_le hy
      obtain ⟨d, rfl⟩ := Nat.exists_eq_add_of_le hcell
      have hchr := List.getElem?_eq_getElem hn
      have hl : l < font.fontheight := by omega
      have hd : d < font.fontwidth := by omega
      rw [drawText_cell hfit hchr hl hd, lit_cell hchr hl hd,
        hrows n _ hchr l hl, rowFrom_at hd, add_assoc ((desty + l) * s.width)]
    · have hdark : ¬ lit font text destx desty y x = true := by
        intro hlit
        rw [lit, Bool.and_eq_true, decide_eq_true_eq] at hlit
        obtain ⟨hplace, hbit⟩ := hlit
        have hnone : text[(x - destx) / font.fontwidth]? = none := by
          rw [List.getElem?_eq_none_iff, Nat.le_div_iff_mul_le
            font.fontwidth_pos]
          omega
        rw [hnone] at hbit
        cases hbit
      rw [if_neg hdark]
      exact drawChars_outside text buffer le_rfl hfit y x hx hin

/-- In bounds a text is drawn exactly when in every line of its glyphs only
zeros follow the first zeros, and never when one of the six lower bits of the
byte behind these is set. -/
theorem drawText_exact
    (hfit : destx + text.length * font.fontwidth ≤ s.width) :
    ((∀ chr ∈ text, ∀ l < font.fontheight, ∀ k m,
        FirstGap font (glyphLine font chr l) k m →
          font.glyphs (glyphLine font chr l + m) = 0) →
      TextExact font s text destx desty color) ∧
    (TextExact font s text destx desty color →
      ∀ chr ∈ text, ∀ l < font.fontheight, ∀ k m,
        FirstGap font (glyphLine font chr l) k m →
          font.glyphs (glyphLine font chr l + m) &&& 0x3f#8 = 0) := by
  rw [textExact_iff hfit]
  constructor
  · intro hgaps n chr hchr l hl
    have hmem : chr ∈ text := List.mem_of_getElem? hchr
    exact rowExact_of_emptyTail (emptyTail_of_gaps (hgaps chr hmem l hl)) _
  · intro hrows chr hmem l hl k m hgap
    obtain ⟨n, hchr⟩ := List.mem_iff_getElem?.1 hmem
    exact low_bits_of_rowExact hgap (hrows n chr hchr l hl)

/-- A font of two bytes to a row, with one glyph of one row. -/
def wideFont (first second : BitVec 8) : Psf where
  unicodetable := none
  glyphs := fun i => if i % 2 = 0 then first else second
  fontwidth := 16
  fontheight := 1
  bytesperglyph := 2
  glyphcount := 1
  fontwidth_pos := by decide
  fontheight_pos := Nat.one_pos
  glyphcount_pos := Nat.one_pos

/-- A screen with room for one glyph of that font. -/
def wideScreen : Fb where
  width := 16
  height := 1
  damageFirstY := -1
  damageLastY := -1
  backbuffer := fun _ => black
  rgb := ⟨16, 8, 0, 8, 8, 8⟩
  indexed := ⟨fun _ => 0, 0⟩
  fbbase := fun _ => 0
  fbpitch := 64
  lastavg := -1
  lastcolor := -1
  fbUpdate := .update32

theorem wideFont_gap {first second chr : BitVec 8} {l k m : ℕ}
    (h : FirstGap (wideFont first second)
      (glyphLine (wideFont first second) chr l) k m) : k = 0 ∧ m = 1 := by
  have hlt := h.lt
  have hbytes := h.lt_bytes
  simp only [Psf.getbytesperline, wideFont] at hbytes
  omega

theorem leftStroke_exact :
    TextExact (wideFont 0xff 0x00) wideScreen [0x41] 0 0 white := by
  refine (drawText_exact (by decide)).1 ?_
  intro chr hchr l hl k m hgap
  obtain ⟨rfl, rfl⟩ := wideFont_gap hgap
  obtain rfl := Nat.lt_one_iff.1 hl
  rw [List.mem_singleton.1 hchr]
  decide

/-- A stroke in the second byte is drawn too far to the left. -/
theorem rightStroke_misplaced : ¬ ∀ (font : Psf) (s : Fb)
    (text : List (BitVec 8)) (destx desty : ℕ) (color : FbColor),
    destx + text.length * font.fontwidth ≤ s.width →
    desty + font.fontheight ≤ s.height →
      TextExact font s text destx desty color := by
  intro hall
  have hexact := hall (wideFont 0x00 0xff) wideScreen [0x41] 0 0 white
    (by decide) (by decide)
  have hgap : FirstGap (wideFont 0x00 0xff)
      (glyphLine (wideFont 0x00 0xff) 0x41 0) 0 1 :=
    ⟨by decide, by decide, by decide, by decide⟩
  exact absurd ((drawText_exact (by decide)).2 hexact 0x41
    List.mem_cons_self 0 (by decide) 0 1 hgap) (by decide)

end Fb
end Yjkos
