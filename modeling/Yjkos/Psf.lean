import Yjkos.Machine

/-!
# The console font

The accessors of `kernel/raster/psf.c`.  The font file in memory is a function
of the offset from `s_glyphs`.
-/

namespace Yjkos

/-- The variables which `psf_init` has set.  A font has a glyph, and its glyphs
have pixels. -/
structure Psf where
  unicodetable : Option (ℕ → BitVec 16)
  glyphs : ℕ → BitVec 8
  fontwidth : ℕ
  fontheight : ℕ
  bytesperglyph : ℕ
  glyphcount : ℕ
  fontwidth_pos : 0 < fontwidth
  fontheight_pos : 0 < fontheight
  glyphcount_pos : 0 < glyphcount

namespace Psf

def getbytesperline (font : Psf) : ℕ := (font.fontwidth + 7) / 8

/-- The offset of the glyph which the source returns a pointer to. -/
def getglyph (font : Psf) (chr : BitVec 32) : ℕ :=
  let chr := if 0xffff < chr.toNat then 0x3f else chr.toNat
  let glyphindex :=
    match font.unicodetable with
    | none => chr
    | some table => (table chr).toNat
  font.bytesperglyph * (glyphindex % font.glyphcount)

/-- Whether the bitmap of a glyph has a pixel in a row and column: a row takes
whole bytes, whose highest bit is the leftmost pixel. -/
def hasPixel (font : Psf) (glyph row column : ℕ) : Bool :=
  (font.glyphs (glyph + row * font.getbytesperline + column / 8)).getLsbD
    (7 - column % 8)

end Psf
end Yjkos
