import Yjkos.Fb

/-!
# What drawing changes

Each of the drawing functions stays in its rectangle of the back buffer and
includes the rows of the rectangle in the damage.  Glyphs of at most eight
columns are drawn pixel by pixel as the bitmap has them.
-/

namespace Yjkos
namespace Fb

open Canvas

variable {font : Psf} {color : FbColor} {s : Fb}

/-- Only the columns from `c` on are written to. -/
theorem drawGlyphRow_outside {i : ℕ} (buffer : ℕ → FbColor)
    (srcpixel destpixel : ℕ) (mask : BitVec 8) (c : ℕ)
    (hi : ¬ (destpixel ≤ i ∧ i < destpixel + (font.fontwidth - c))) :
    drawGlyphRow font color buffer srcpixel destpixel mask c i = buffer i := by
  fun_induction drawGlyphRow font color buffer srcpixel destpixel mask c with
  | case1 buffer srcpixel destpixel mask c hlt hzero ih =>
      exact ih (by omega)
  | case2 buffer srcpixel destpixel mask c hlt hbyte srcpixel' mask' buffer'
      ih =>
      rw [ih (by omega)]
      simp only [buffer']
      split
      next => exact paint_of_not_mem (by omega) _
      next => rfl
  | case3 => rfl

theorem drawGlyph_outside {width y x : ℕ} (hfit : x + font.fontwidth ≤ width)
    (buffer : ℕ → FbColor) (glyph : ℕ) :
    SameOutside width y font.fontheight x font.fontwidth buffer
      (drawGlyph font width color buffer glyph (y * width + x)) := by
  suffices h : ∀ n ≤ font.fontheight,
      SameOutside width y font.fontheight x font.fontwidth buffer
        ((List.range n).foldl (fun buffer l =>
          drawGlyphRow font color buffer (glyph + l * font.getbytesperline)
            (y * width + x + l * width) 0x80#8 0) buffer) from
    h _ le_rfl
  intro n
  induction n with
  | zero => exact fun _ => .refl
  | succ n ih =>
      intro hn
      rw [List.range_succ, List.foldl_append]
      refine (ih (by omega)).trans ?_
      intro row column hcolumn hout
      refine drawGlyphRow_outside _ _ _ _ _ ?_
      rw [show y * width + x + n * width = (y + n) * width + x by ring,
        Nat.sub_zero, mem_part_iff hcolumn hfit]
      omega

theorem drawChars_outside {width y x count : ℕ} (text : List (BitVec 8))
    (buffer : ℕ → FbColor) (hcount : text.length * font.fontwidth ≤ count)
    (hfit : x + count ≤ width) :
    SameOutside width y font.fontheight x count buffer
      (drawChars font width color text (y * width + x) buffer) := by
  induction text generalizing x count buffer with
  | nil => exact .refl
  | cons chr rest ih =>
      rw [List.length_cons, add_mul, one_mul] at hcount
      rw [drawChars, add_assoc]
      refine SameOutside.trans ?_ ((ih _ (Nat.le_sub_of_add_le hcount)
        (by omega)).mono le_rfl le_rfl (by omega) (by omega))
      exact (drawGlyph_outside (by omega) buffer _).mono le_rfl le_rfl le_rfl
        (by omega)

/-- A rectangle of the back buffer is drawn to, and its rows are included in
the damage. -/
structure Draws (s s' : Fb) (row rows column count : ℕ) : Prop where
  damage : s' = { s with backbuffer := s'.backbuffer }.includeDamage row
    (row + rows - 1)
  outside : SameOutside s.width row rows column count s.backbuffer
    s'.backbuffer

theorem drawPixel_draws {x y : ℕ} (hx : x < s.width) (color : FbColor) :
    Draws s (s.drawPixel x y color) y 1 x 1 := by
  constructor
  · simp only [drawPixel, Nat.cast_one, add_sub_cancel_right]
    rfl
  · intro row column hcolumn hout
    simp only [drawPixel, includeDamage]
    rw [paint_at hcolumn (by omega), if_neg (by omega)]

theorem drawImage_draws {width height destx desty : ℕ}
    (hfit : destx + width ≤ s.width) (image : ℕ → FbColor)
    (pixelsPerLine : ℕ) :
    Draws s (s.drawImage image width height pixelsPerLine destx desty) desty
      height destx width :=
  ⟨rfl, sameOutside_paintRows hfit _⟩

theorem drawRect_draws {width height destx desty : ℕ}
    (hfit : destx + width ≤ s.width) (color : FbColor) :
    Draws s (s.drawRect width height destx desty color) desty height destx
      width :=
  ⟨rfl, sameOutside_paintRows hfit _⟩

theorem drawText_draws {text : List (BitVec 8)} {destx desty : ℕ}
    (hfit : destx + text.length * font.fontwidth ≤ s.width)
    (color : FbColor) :
    Draws s (drawText font s text destx desty color) desty font.fontheight
      destx (text.length * font.fontwidth) :=
  ⟨rfl, drawChars_outside text _ le_rfl hfit⟩

theorem updateDirect_picture
    (native : FbColor → NativeCache → BitVec 32 × NativeCache)
    (size stride : ℕ) (lastcolor : ℤ) :
    (s.updateDirect native size stride lastcolor).backbuffer = s.backbuffer ∧
      (s.updateDirect native size stride lastcolor).width = s.width ∧
      (s.updateDirect native size stride lastcolor).height = s.height := by
  unfold updateDirect
  split <;> exact ⟨rfl, rfl, rfl⟩

theorem update_picture (s : Fb) :
    s.update.backbuffer = s.backbuffer ∧ s.update.width = s.width ∧
      s.update.height = s.height := by
  unfold update
  split
  next => exact ⟨rfl, rfl, rfl⟩
  next => exact updateDirect_picture _ _ _ _
  next => exact updateDirect_picture _ _ _ _
  next => exact updateDirect_picture _ _ _ _
  next => exact updateDirect_picture _ _ _ _
  next =>
    unfold update1
    split <;> exact ⟨rfl, rfl, rfl⟩

/-! ## Glyphs of a byte to a row -/

theorem and_mask_ne_zero_iff (byte : BitVec 8) {c : ℕ} (hc : c < 8) :
    byte &&& (0x80#8 >>> c) ≠ 0 ↔ byte.getLsbD (7 - c) = true := by
  have hmask : ∀ c < 8, 0x80#8 >>> c = BitVec.twoPow 8 (7 - c) := by decide
  have hpow : ∀ k < 8, BitVec.twoPow 8 k ≠ 0 := by decide
  rw [hmask c hc, BitVec.and_twoPow]
  split
  next hbit => exact iff_of_true (hpow _ (by omega)) hbit
  next hbit => exact iff_of_false (fun h => h rfl) hbit

/-- The columns of a byte which is not empty, from `c` on. -/
theorem drawGlyphRow_byte (hwidth : font.fontwidth ≤ 8) {srcpixel : ℕ}
    (hbyte : font.glyphs srcpixel ≠ 0) (buffer : ℕ → FbColor)
    (destline c : ℕ) (i : ℕ) :
    drawGlyphRow font color buffer srcpixel (destline + c) (0x80#8 >>> c) c
        i =
      if (destline + c ≤ i ∧ i < destline + font.fontwidth) ∧
          (font.glyphs srcpixel).getLsbD (7 - (i - destline)) = true then
        color
      else buffer i := by
  induction hleft : font.fontwidth - c generalizing c buffer with
  | zero =>
      rw [drawGlyphRow, if_neg (by omega), if_neg (by omega)]
  | succ left ih =>
      have hmask : ∀ c < 8, 0x80#8 >>> c ≠ 0 := by decide
      rw [drawGlyphRow, if_pos (by omega), if_neg hbyte]
      simp only [if_neg (hmask c (by omega)), ← BitVec.shiftRight_add,
        and_mask_ne_zero_iff (font.glyphs srcpixel)
          (show c < 8 by omega), add_assoc]
      rw [ih _ _ (by omega)]
      -- The pixel of this column is painted now, the others later.
      by_cases hi : i = destline + c
      · subst hi
        rw [if_neg (by omega), Nat.add_sub_cancel_left]
        by_cases hbit : (font.glyphs srcpixel).getLsbD (7 - c) = true
        · rw [if_pos hbit, if_pos ⟨by omega, hbit⟩]
          exact if_pos (by omega)
        · rw [if_neg hbit, if_neg (fun h => hbit h.2)]
      · have hrest : (if (font.glyphs srcpixel).getLsbD (7 - c) = true then
            paint buffer (destline + c) 1 (fun _ => color)
            else buffer) i = buffer i := by
          split
          next => exact paint_of_not_mem (by omega) _
          next => rfl
        rw [hrest]
        congr 1
        rw [eq_iff_iff]
        exact and_congr_left' (by omega)

theorem drawGlyphRow_eq (hwidth : font.fontwidth ≤ 8)
    (buffer : ℕ → FbColor) (srcpixel destline i : ℕ) :
    drawGlyphRow font color buffer srcpixel destline 0x80#8 0 i =
      if (destline ≤ i ∧ i < destline + font.fontwidth) ∧
          (font.glyphs srcpixel).getLsbD (7 - (i - destline)) = true then
        color
      else buffer i := by
  by_cases hbyte : font.glyphs srcpixel = 0
  · -- The row is skipped at once.
    rw [drawGlyphRow, if_pos font.fontwidth_pos, if_pos hbyte, drawGlyphRow,
      if_neg (by omega), hbyte]
    simp
  · exact drawGlyphRow_byte hwidth hbyte buffer destline 0 i

theorem drawGlyph_at (hwidth : font.fontwidth ≤ 8) {width row column : ℕ}
    (hfit : column + font.fontwidth ≤ width) (buffer : ℕ → FbColor)
    (glyph : ℕ) {y x : ℕ} (hx : x < width) :
    drawGlyph font width color buffer glyph (row * width + column)
        (y * width + x) =
      if ((row ≤ y ∧ y < row + font.fontheight) ∧
          column ≤ x ∧ x < column + font.fontwidth) ∧
            font.hasPixel glyph (y - row) (x - column) = true then
        color
      else buffer (y * width + x) := by
  suffices h : ∀ n, (List.range n).foldl (fun buffer l =>
      drawGlyphRow font color buffer (glyph + l * font.getbytesperline)
        (row * width + column + l * width) 0x80#8 0) buffer (y * width + x) =
      if ((row ≤ y ∧ y < row + n) ∧
          column ≤ x ∧ x < column + font.fontwidth) ∧
            font.hasPixel glyph (y - row) (x - column) = true then
        color
      else buffer (y * width + x) from h font.fontheight
  intro n
  induction n with
  | zero =>
      rw [if_neg (by omega)]
      rfl
  | succ n ih =>
      rw [List.range_succ, List.foldl_append, List.foldl_cons,
        List.foldl_nil, drawGlyphRow_eq hwidth, ih,
        show row * width + column + n * width = (row + n) * width + column by
          ring]
      simp only [mem_part_iff hx hfit]
      by_cases hrow : y = row + n ∧ column ≤ x ∧ x < column + font.fontwidth
      · have hpixel : font.hasPixel glyph (y - row) (x - column) =
            (font.glyphs (glyph + n * font.getbytesperline)).getLsbD
              (7 - (y * width + x - ((row + n) * width + column))) := by
          rw [Psf.hasPixel, hrow.1, Nat.add_sub_cancel_left,
            Nat.div_eq_of_lt (by omega), Nat.mod_eq_of_lt (by omega),
            add_zero, Nat.add_sub_add_left]
        rw [← hpixel]
        by_cases hbit : font.hasPixel glyph (y - row) (x - column) = true
        · rw [if_pos ⟨hrow, hbit⟩, if_pos ⟨by omega, hbit⟩]
        · rw [if_neg (fun h => hbit h.2), if_neg (fun h => hbit h.2),
            if_neg (fun h => hbit h.2)]
      · rw [if_neg (fun h => hrow h.1)]
        congr 1
        rw [eq_iff_iff]
        exact and_congr_left' (by omega)

theorem drawRect_drawText_at (hwidth : font.fontwidth ≤ 8)
    {destx : ℕ} (desty : ℕ) (hfit : destx + font.fontwidth ≤ s.width)
    (chr : BitVec 8) (ground color : FbColor) {y x : ℕ} (hx : x < s.width) :
    (drawText font (s.drawRect font.fontwidth font.fontheight destx desty
        ground) [chr] destx desty color).backbuffer (y * s.width + x) =
      if (desty ≤ y ∧ y < desty + font.fontheight) ∧
          destx ≤ x ∧ x < destx + font.fontwidth then
        if font.hasPixel (font.getglyph (chr.signExtend 32)) (y - desty)
            (x - destx) = true then color
        else ground
      else s.backbuffer (y * s.width + x) := by
  simp only [drawText, drawRect, includeDamage, drawChars]
  rw [drawGlyph_at hwidth hfit _ _ hx, paintRows_at hx hfit]
  by_cases hin : (desty ≤ y ∧ y < desty + font.fontheight) ∧
      destx ≤ x ∧ x < destx + font.fontwidth
  · simp only [hin, true_and, and_self, if_true]
  · rw [if_neg (fun h => hin h.1), if_neg hin, if_neg hin]

end Fb
end Yjkos
