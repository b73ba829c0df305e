import Yjkos.Canvas
import Yjkos.Psf

/-!
# The framebuffer

`kernel/raster/fb.c`.  Drawing changes the back buffer and notes the rows it
has changed; `fb_update` converts those rows for the framebuffer, which the
driver of the screen scans out.  Pixels and bytes are functions of the address.
Sizes and coordinates, of type `int` in the source, are natural numbers, but
for the bounds of the damage, where `-1` stands for none.
-/

namespace Yjkos

/-- `FB_COLOR`, five bits to a channel. -/
abbrev FbColor := BitVec 16

def makeColor (red green blue : BitVec 8) : FbColor :=
  (((red >>> 3).setWidth 32 <<< 10) ||| ((green >>> 3).setWidth 32 <<< 5) |||
    (blue >>> 3).setWidth 32).setWidth 16

def black : FbColor := makeColor 0 0 0

def white : FbColor := makeColor 255 255 255

/-- `s_colorinfo.rgb`. -/
structure RgbInfo where
  redFieldPos : ℤ
  greenFieldPos : ℤ
  blueFieldPos : ℤ
  redMaskSize : ℤ
  greenMaskSize : ℤ
  blueMaskSize : ℤ

/-- `s_colorinfo.indexed`. -/
structure IndexedInfo where
  palette : ℕ → BitVec 8
  colorcount : ℕ

/-- What the function pointer `fb_update` is set to. -/
inductive FbUpdate where
  | updateNull
  | update32
  | update24
  | update16
  | update8
  | update1
deriving DecidableEq

/-- The variables of the module after an initialization which succeeded.  Of
the union `s_colorinfo` only the member which belongs to `fbUpdate` is read;
`lastavg` and `lastcolor` are kept by `make_native_color_indexed`. -/
structure Fb where
  width : ℕ
  height : ℕ
  damageFirstY : ℤ
  damageLastY : ℤ
  backbuffer : ℕ → FbColor
  rgb : RgbInfo
  indexed : IndexedInfo
  fbbase : ℕ → BitVec 8
  fbpitch : ℕ
  lastavg : ℤ
  lastcolor : ℤ
  fbUpdate : FbUpdate

namespace Fb

open Canvas

def includeDamage (s : Fb) (first last : ℤ) : Fb :=
  { s with
    damageFirstY :=
      if s.damageFirstY = -1 ∨ first < s.damageFirstY then first
      else s.damageFirstY
    damageLastY :=
      if s.damageLastY = -1 ∨ s.damageLastY < last then last
      else s.damageLastY }

def drawPixel (s : Fb) (x y : ℕ) (color : FbColor) : Fb :=
  { s with
    backbuffer := paint s.backbuffer (y * s.width + x) 1 (fun _ => color)
    }.includeDamage y y

def drawImage (s : Fb) (image : ℕ → FbColor)
    (width height pixelsPerLine destx desty : ℕ) : Fb :=
  { s with
    backbuffer := paintRows s.backbuffer (desty * s.width + destx) s.width
      width height (fun srcy srcx => image (srcy * pixelsPerLine + srcx))
    }.includeDamage desty (desty + height - 1)

def drawRect (s : Fb) (width height destx desty : ℕ) (color : FbColor) : Fb :=
  { s with
    backbuffer := paintRows s.backbuffer (desty * s.width + destx) s.width
      width height (fun _ _ => color)
    }.includeDamage desty (desty + height - 1)

/-- The loop over the columns of a glyph in `fb_draw_text`, from column `c` on.
An empty byte is skipped with a single step of the pixel. -/
def drawGlyphRow (font : Psf) (color : FbColor) (buffer : ℕ → FbColor)
    (srcpixel destpixel : ℕ) (mask : BitVec 8) (c : ℕ) : ℕ → FbColor :=
  if c < font.fontwidth then
    if font.glyphs srcpixel = 0 then
      drawGlyphRow font color buffer (srcpixel + 1) (destpixel + 1)
        (0x7f#8 >>> 1) (c + ((8 - c % 8) - 1) + 1)
    else
      let srcpixel := if mask = 0 then srcpixel + 1 else srcpixel
      let mask := if mask = 0 then 0x80#8 else mask
      let buffer :=
        if font.glyphs srcpixel &&& mask ≠ 0 then
          paint buffer destpixel 1 (fun _ => color)
        else buffer
      drawGlyphRow font color buffer srcpixel (destpixel + 1) (mask >>> 1)
        (c + 1)
  else buffer
termination_by font.fontwidth - c

/-- The loop over the lines of a glyph. -/
def drawGlyph (font : Psf) (width : ℕ) (color : FbColor)
    (buffer : ℕ → FbColor) (glyph baseoffset : ℕ) : ℕ → FbColor :=
  (List.range font.fontheight).foldl (fun buffer l =>
    drawGlyphRow font color buffer (glyph + l * font.getbytesperline)
      (baseoffset + l * width) 0x80#8 0) buffer

/-- The loop over the characters.  A `char` is signed, and is extended to the
argument of `psf_getglyph`. -/
def drawChars (font : Psf) (width : ℕ) (color : FbColor) :
    List (BitVec 8) → ℕ → (ℕ → FbColor) → (ℕ → FbColor)
  | [], _, buffer => buffer
  | chr :: rest, baseoffset, buffer =>
      drawChars font width color rest (baseoffset + font.fontwidth)
        (drawGlyph font width color buffer
          (font.getglyph (chr.signExtend 32)) baseoffset)

/-- The text is the list of the characters before the final null. -/
def drawText (font : Psf) (s : Fb) (text : List (BitVec 8))
    (destx desty : ℕ) (color : FbColor) : Fb :=
  { s with
    backbuffer := drawChars font s.width color text
      (desty * s.width + destx) s.backbuffer
    }.includeDamage desty (desty + font.fontheight - 1)

/-! ## Native colors -/

/-- A shift by 32 or more, which C leaves undefined, shifts all bits out. -/
def makeNativeColorRgb (info : RgbInfo) (rgb : FbColor) : BitVec 32 :=
  let red := ((rgb.setWidth 32 >>> 10) &&& 0x1f#32) * 255#32 / 0x1f#32
  let green := ((rgb.setWidth 32 >>> 5) &&& 0x1f#32) * 255#32 / 0x1f#32
  let blue := (rgb.setWidth 32 &&& 0x1f#32) * 255#32 / 0x1f#32
  let redshiftcount := BitVec.ofInt 32 (8 - info.redMaskSize)
  let greenshiftcount := BitVec.ofInt 32 (8 - info.greenMaskSize)
  let blueshiftcount := BitVec.ofInt 32 (8 - info.blueMaskSize)
  let redfieldPos := BitVec.ofInt 8 info.redFieldPos
  let greenfieldPos := BitVec.ofInt 8 info.greenFieldPos
  let bluefieldPos := BitVec.ofInt 8 info.blueFieldPos
  ((red >>> redshiftcount) <<< redfieldPos) |||
    ((green >>> greenshiftcount) <<< greenfieldPos) |||
    ((blue >>> blueshiftcount) <<< bluefieldPos)

/-- The three channels of a color, from zero to 248. -/
def channelSum (rgb : BitVec 32) : BitVec 32 :=
  (((rgb >>> 10) &&& 0x1f#32) <<< 3) + (((rgb >>> 5) &&& 0x1f#32) <<< 3) +
    ((rgb &&& 0x1f#32) <<< 3)

/-- The loop over the palette, which stops at an exact match. -/
def nearestColor (info : IndexedInfo) (avgcolor : ℤ) :
    List ℕ → ℤ → ℤ → ℤ
  | [], _, chosencolor => chosencolor
  | i :: rest, mindiff, chosencolor =>
      let pred := (info.palette (i * 3)).toNat
      let pgreen := (info.palette (i * 3 + 1)).toNat
      let pblue := (info.palette (i * 3 + 2)).toNat
      let pavg : ℤ := ((pred + pgreen + pblue) / 3 : ℕ)
      let diff := if pavg - avgcolor < 0 then -(pavg - avgcolor)
        else pavg - avgcolor
      let chosencolor := if diff < mindiff then (i : ℤ) else chosencolor
      let mindiff := if diff < mindiff then diff else mindiff
      if mindiff = 0 then chosencolor
      else nearestColor info avgcolor rest mindiff chosencolor

/-- The variables which the loops of an update carry from pixel to pixel. -/
structure NativeCache where
  lastcolor : ℤ
  lastnativecolor : BitVec 32
  lastavg : ℤ
  lastindex : ℤ

def makeNativeColorIndexed (info : IndexedInfo) (rgb : FbColor)
    (cache : NativeCache) : BitVec 32 × NativeCache :=
  let avgcolor : ℤ := ((channelSum (rgb.setWidth 32)).toNat / 3 : ℕ)
  if cache.lastavg = avgcolor then (BitVec.ofInt 32 cache.lastindex, cache)
  else
    let chosencolor :=
      nearestColor info avgcolor (List.range info.colorcount) 0x7fff 0
    (BitVec.ofInt 32 chosencolor,
      { cache with lastavg := avgcolor, lastindex := chosencolor })

/-- A color which is the last one over again is not converted again. -/
def convertColor
    (native : FbColor → NativeCache → BitVec 32 × NativeCache)
    (cache : NativeCache) (color : FbColor) : NativeCache :=
  if color.toNat = cache.lastcolor then cache
  else
    let result := native color cache
    { result.2 with lastcolor := color.toNat, lastnativecolor := result.1 }

/-! ## Updates -/

/-- An assignment to a pixel of `size` bytes. -/
def putPixel (size : ℕ) (m : ℕ → BitVec 8) (destpixel : ℕ)
    (nativecolor : BitVec 32) : ℕ → BitVec 8 :=
  paint m destpixel size (fun k => nativecolor.extractLsb' (8 * k) 8)

/-- The loop over the pixels of a row, the first of which is at `srcpixel` in
the back buffer and at `destline` in the framebuffer. -/
def updateRow (native : FbColor → NativeCache → BitVec 32 × NativeCache)
    (size : ℕ) (backbuffer : ℕ → FbColor) (srcpixel destline count : ℕ)
    (st : (ℕ → BitVec 8) × NativeCache) : (ℕ → BitVec 8) × NativeCache :=
  (List.range count).foldl (fun st srcx =>
    let cache := convertColor native st.2 (backbuffer (srcpixel + srcx))
    (putPixel size st.1 (destline + srcx * size) cache.lastnativecolor,
      cache)) st

/-- The rows which are pending. -/
def damagedRows (s : Fb) : List ℕ :=
  (List.range (s.damageLastY + 1 - s.damageFirstY).toNat).map
    (s.damageFirstY.toNat + ·)

/-- The functions `update32` to `update8`: `stride` is what is added to the
pointer into the framebuffer for a row.  `CONFIG_SHOW_DAMAGE` is off. -/
def updateDirect (native : FbColor → NativeCache → BitVec 32 × NativeCache)
    (size stride : ℕ) (lastcolor : ℤ) (s : Fb) : Fb :=
  if s.damageFirstY < 0 then s
  else
    let st := s.damagedRows.foldl (fun st srcy =>
      updateRow native size s.backbuffer (srcy * s.width) (srcy * stride)
        s.width st)
      (s.fbbase, ⟨lastcolor, 0xffffffff#32, s.lastavg, s.lastcolor⟩)
    { s with
      fbbase := st.1
      lastavg := st.2.lastavg
      lastcolor := st.2.lastindex
      damageFirstY := -1
      damageLastY := -1 }

def nativeRgb (s : Fb) (rgb : FbColor) (cache : NativeCache) :
    BitVec 32 × NativeCache :=
  (makeNativeColorRgb s.rgb rgb, cache)

def update32 (s : Fb) : Fb :=
  s.updateDirect s.nativeRgb 4 (4 * (s.fbpitch / 4)) (-1)

def update24 (s : Fb) : Fb :=
  s.updateDirect s.nativeRgb 3 s.fbpitch 0xffffffff

def update16 (s : Fb) : Fb :=
  s.updateDirect s.nativeRgb 2 (2 * (s.fbpitch / 2)) (-1)

def update8 (s : Fb) : Fb :=
  s.updateDirect (makeNativeColorIndexed s.indexed) 1 s.fbpitch (-1)

/-- Whether a color is a light one, as `update1` asks. -/
def nativeBit (color : FbColor) (cache : NativeCache) :
    BitVec 32 × NativeCache :=
  (if 128 ≤ (channelSum (color.setWidth 32)).toNat / 3 then 1 else 0, cache)

/-- The loop over the pixels of a row in `update1`, which collects eight of
them in a byte. -/
def update1Row (backbuffer : ℕ → FbColor) (srcpixel destline count : ℕ)
    (st : (ℕ → BitVec 8) × NativeCache) : (ℕ → BitVec 8) × NativeCache :=
  let st := (List.range count).foldl
    (fun (st : ((ℕ → BitVec 8) × NativeCache) × BitVec 8) (x : ℕ) =>
    let cache := convertColor nativeBit st.1.2 (backbuffer (srcpixel + x))
    let temppixeldata := st.2 <<< 1
    let temppixeldata :=
      if cache.lastnativecolor ≠ 0 then temppixeldata ||| 1#8
      else temppixeldata
    if (x + 1) % 8 = 0 then
      ((paint st.1.1 (destline + x / 8) 1 (fun _ => temppixeldata), cache),
        0#8)
    else ((st.1.1, cache), temppixeldata)) (st, 0#8)
  st.1

def update1 (s : Fb) : Fb :=
  if s.damageFirstY < 0 then s
  else
    let st := s.damagedRows.foldl (fun st srcy =>
      update1Row s.backbuffer (srcy * s.width) (srcy * s.fbpitch) s.width st)
      (s.fbbase, ⟨0xffffffff, 0xffffffff#32, s.lastavg, s.lastcolor⟩)
    { s with fbbase := st.1, damageFirstY := -1, damageLastY := -1 }

/-- A call through the pointer `fb_update`. -/
def update (s : Fb) : Fb :=
  match s.fbUpdate with
  | .updateNull => s
  | .update32 => s.update32
  | .update24 => s.update24
  | .update16 => s.update16
  | .update8 => s.update8
  | .update1 => s.update1

/-- `vmemcpy32` copies four bytes at a time: two pixels of the back buffer. -/
def scroll (s : Fb) (scrolllen : ℤ) : Except Fault Fb := do
  cAssert (0 < scrolllen) "0 < scrolllen"
  let rows := (s.height - scrolllen).toNat
  .ok { s with
    fbbase := moveRows s.fbbase s.fbpitch (4 * (s.fbpitch / 4))
      scrolllen.toNat rows
    backbuffer := moveRows s.backbuffer s.width (2 * (s.width * 2 / 4))
      scrolllen.toNat rows }

/-- The `switch` over the bits per pixel. -/
def rgbUpdate (bpp : ℤ) : Option FbUpdate :=
  if bpp = 32 then some .update32
  else if bpp = 24 then some .update24
  else if bpp = 16 ∨ bpp = 15 then some .update16
  else none

/-- `fb_init_rgb` before its calls of `psf_init` and `fbtty_init`.  The back
buffer is what `heap_alloc` returned. -/
def initRgb (s : Fb) (rgb : RgbInfo) (framebuffer : ℕ → BitVec 8)
    (width height pitch : ℕ) (bpp : ℤ)
    (backbuffer : Option (ℕ → FbColor)) : Option Fb := do
  let backbuffer ← backbuffer
  let fbUpdate ← rgbUpdate bpp
  return { s with
    rgb := rgb, width := width, height := height, fbpitch := pitch
    backbuffer := backbuffer, fbUpdate := fbUpdate
    fbbase := framebuffer }.update

end Fb
end Yjkos
