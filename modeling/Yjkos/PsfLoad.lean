import Yjkos.MiscMath
import Yjkos.Psf

/-!
# Loading the font

`psf_init` of `kernel/raster/psf.c` and what it calls, and `psf_getglyph`.
The font file is the list of the bytes between its two linker symbols;
pointers into it are offsets from its start, and an access outside of it or
outside of the translation table is a fault.  The messages are left out.
-/

namespace Yjkos
namespace Psf

def psf1Magic : ℕ := 0x0436

def psf2Magic : ℕ := 0x864ab572

/-- The number of entries which are allocated for the translation table. -/
def tableEntries : ℕ := 65535

/-- The static variables; `glyphs` is null until a font is loaded. -/
structure Vars where
  unicodetable : Option (ℕ → BitVec 16)
  glyphs : Option ℕ
  fontwidth : ℕ
  fontheight : ℕ
  bytesperglyph : ℕ
  glyphcount : ℕ

def initialVars : Vars := ⟨none, none, 0, 0, 0, 0⟩

/-! ## Bytes of the file -/

def byteAt (file : List (BitVec 8)) (pos : ℕ) : Except Fault (BitVec 8) :=
  match file[pos]? with
  | some b => .ok b
  | none => .error .outOfBounds

def u16At (file : List (BitVec 8)) (pos : ℕ) : Except Fault ℕ :=
  if pos + 2 ≤ file.length then .ok (u16leAt (fun i => file.getD i 0) pos)
  else .error .outOfBounds

def u32At (file : List (BitVec 8)) (pos : ℕ) : Except Fault ℕ :=
  if pos + 4 ≤ file.length then .ok (u32leAt (fun i => file.getD i 0) pos)
  else .error .outOfBounds

/-! ## UTF-8 -/

def utf8GetBytesLen (leadingByte : BitVec 8) : ℤ :=
  if leadingByte.toNat < 128 then 1
  else if leadingByte &&& 0xe0 = 0xc0 then 2
  else if leadingByte &&& 0xf0 = 0xe0 then 3
  else if leadingByte &&& 0xf8 = 0xf0 then 4
  else -1

/-- The bits of a byte behind the ones its mask takes away. -/
def bits (b mask : BitVec 8) (shift : ℕ) : ℕ := (b &&& mask).toNat <<< shift

def isTrailing (b : BitVec 8) : Bool := b &&& 0xc0 == 0x80

/-- The second condition of each branch is only looked at when the first one
holds, as the bytes behind may be outside of the file. -/
def utf8ToCodepoint (file : List (BitVec 8)) (pos : ℕ) : Except Fault ℤ := do
  let b0 ← byteAt file pos
  if b0.toNat < 128 then .ok b0.toNat
  else if b0 &&& 0xe0 = 0xc0 then do
    let b1 ← byteAt file (pos + 1)
    if !isTrailing b1 then .ok (-1)
    else .ok (bits b0 0x1f 6 ||| bits b1 0x3f 0 : ℕ)
  else if b0 &&& 0xf0 = 0xe0 then do
    let b1 ← byteAt file (pos + 1)
    if !isTrailing b1 then .ok (-1)
    else do
      let b2 ← byteAt file (pos + 2)
      if !isTrailing b2 then .ok (-1)
      else .ok (bits b0 0x0f 12 ||| bits b1 0x3f 6 ||| bits b2 0x3f 0 : ℕ)
  else if b0 &&& 0xf8 = 0xf0 then do
    let b1 ← byteAt file (pos + 1)
    if !isTrailing b1 then .ok (-1)
    else do
      let b2 ← byteAt file (pos + 2)
      if !isTrailing b2 then .ok (-1)
      else do
        let b3 ← byteAt file (pos + 3)
        if !isTrailing b3 then .ok (-1)
        else
          .ok (bits b0 0x07 18 ||| bits b1 0x3f 12 ||| bits b2 0x3f 6 |||
            bits b3 0x3f 0 : ℕ)
  else .ok (-1)

/-- The loop of `psf2_will_eol_or_eof`, with the number of turns left. -/
def willEolOrEofLoop (file : List (BitVec 8)) (base : ℕ) : ℕ → ℕ → Bool
  | 0, _ => false
  | left + 1, i =>
      match file[base + i]? with
      | none => true
      | some b =>
          if b = 0xff then true else willEolOrEofLoop file base left (i + 1)

def psf2WillEolOrEof (file : List (BitVec 8)) (base len : ℕ) : Bool :=
  willEolOrEofLoop file base (len - 1) 1

/-! ## The translation table -/

/-- The variables of the two loops over the table of the file. -/
structure Reading where
  glyph : ℕ
  pos : ℕ
  hadMultiChars : Bool
  gotchar : Bool
  table : ℕ → BitVec 16

namespace Reading

def skip (r : Reading) (len : ℕ) : Reading := { r with pos := r.pos + len }

def eol (r : Reading) (len : ℕ) : Reading :=
  { r with pos := r.pos + len, glyph := r.glyph + 1, gotchar := false }

/-- The label `unicodedone`: the glyph is stored as a `uint16_t`. -/
def mapChar (r : Reading) (unicode : ℕ) : Except Fault Reading :=
  if unicode < tableEntries then
    .ok { r with
      hadMultiChars := r.hadMultiChars || r.gotchar
      gotchar := true
      table := Function.update r.table unicode (BitVec.ofNat 16 r.glyph) }
  else .error .outOfBounds

end Reading

/-- The loop of `read_psf1_utf16_entries`, with fuel. -/
def psf1Loop (file : List (BitVec 8)) (numGlyph : ℕ) :
    ℕ → Reading → Except Fault Reading
  | 0, _ => .error .outOfFuel
  | fuel + 1, r =>
      if r.pos < file.length ∧ r.glyph < numGlyph then do
        let unicode ← u16At file r.pos
        if unicode = 0xffff then psf1Loop file numGlyph fuel (r.eol 2)
        else if unicode = 0xfffe then psf1Loop file numGlyph fuel (r.skip 2)
        else do
          let r ← (r.skip 2).mapChar unicode
          psf1Loop file numGlyph fuel r
      else .ok r

/-- The next character of the loop of `read_psf2_utf8_entries`, and the number
of its bytes; an illegal byte is taken for a character. -/
def psf2Next (file : List (BitVec 8)) (pos : ℕ) (byt : BitVec 8) :
    Except Fault (ℕ × ℕ) :=
  let badcode := (byt.toNat, 1)
  let bytesLen := utf8GetBytesLen byt
  if bytesLen < 0 then .ok badcode
  else if psf2WillEolOrEof file pos bytesLen.toNat then .ok badcode
  else do
    let unicode ← utf8ToCodepoint file pos
    if unicode < 0 then .ok badcode
    else .ok (unicode.toNat, bytesLen.toNat)

/-- The loop of `read_psf2_utf8_entries`, with fuel. -/
def psf2Loop (file : List (BitVec 8)) (numGlyph : ℕ) :
    ℕ → Reading → Except Fault Reading
  | 0, _ => .error .outOfFuel
  | fuel + 1, r =>
      if r.pos < file.length ∧ r.glyph < numGlyph then do
        let byt ← byteAt file r.pos
        if byt = 0xff then psf2Loop file numGlyph fuel (r.eol 1)
        else if byt = 0xfe then psf2Loop file numGlyph fuel (r.skip 1)
        else do
          let (unicode, len) ← psf2Next file r.pos byt
          if 0xffff < unicode then
            psf2Loop file numGlyph fuel (r.skip len)
          else do
            let r ← (r.skip len).mapChar unicode
            psf2Loop file numGlyph fuel r
      else .ok r

def startOfTable (glyphs bytesPerGlyph numGlyph : ℕ)
    (table : ℕ → BitVec 16) : Reading :=
  ⟨0, glyphs + wrap (bytesPerGlyph * numGlyph), false, false, table⟩

/-- Every turn takes a byte of the file at least. -/
def readPsf1Utf16Entries (file : List (BitVec 8))
    (glyphs bytesPerGlyph numGlyph : ℕ) (table : ℕ → BitVec 16) :
    Except Fault Reading :=
  psf1Loop file numGlyph (file.length + 1)
    (startOfTable glyphs bytesPerGlyph numGlyph table)

def readPsf2Utf8Entries (file : List (BitVec 8))
    (glyphs bytesPerGlyph numGlyph : ℕ) (table : ℕ → BitVec 16) :
    Except Fault Reading :=
  psf2Loop file numGlyph (file.length + 1)
    (startOfTable glyphs bytesPerGlyph numGlyph table)

/-! ## The two formats -/

/-- `heap_calloc` of the table, whose bytes are cleared; `heap_alloc` clears
them without a look at its result, which is null where there is no room. -/
def callocTable (room : Bool) : Except Fault (Option (ℕ → BitVec 16)) :=
  if room then .ok (some fun _ => 0) else .error .nullDereference

/-- `(SIZE_MAX / bytes_per_glyph) < num_glyph`. -/
def tooLarge (bytesPerGlyph numGlyph : ℕ) : Except Fault Bool :=
  if bytesPerGlyph = 0 then .error .divideByZero
  else .ok (sizeMax / bytesPerGlyph < numGlyph)

def initPsf1 (file : List (BitVec 8)) (room : Bool) (self : Vars) :
    Except Fault Vars := do
  let mode ← byteAt file 2
  let heightByte ← byteAt file 3
  let width := 8
  let height := heightByte.toNat
  let headersize := 4
  let numGlyph := if mode &&& 0x01 ≠ 0 then 512 else 256
  let bytesPerGlyph := height
  if mode &&& (0x02 ||| 0x04) = 0 then .ok self
  else do
    let large ← tooLarge bytesPerGlyph numGlyph
    if large then .ok self
    else do
      let unicodetable ← callocTable room
      cAssert (width < 32767) "width < 32767"
      cAssert (height < 32767) "height < 32767"
      let self := ⟨unicodetable, some headersize, width, height,
        bytesPerGlyph, numGlyph⟩
      match unicodetable with
      | none => .ok self
      | some table => do
          let r ← readPsf1Utf16Entries file headersize bytesPerGlyph numGlyph
            table
          .ok { self with unicodetable := some r.table }

def initPsf2 (file : List (BitVec 8)) (room : Bool) (self : Vars) :
    Except Fault Vars := do
  let _version ← u32At file 4
  let headersize ← u32At file 8
  let flags ← u32At file 12
  let numGlyph ← u32At file 16
  let bytesPerGlyph ← u32At file 20
  let height ← u32At file 24
  let width ← u32At file 28
  cAssert (width < 32767) "width < 32767"
  cAssert (height < 32767) "height < 32767"
  let self := ⟨self.unicodetable, some headersize, width, height,
    bytesPerGlyph, numGlyph⟩
  if flags % 2 = 0 then .ok self
  else do
    let large ← tooLarge bytesPerGlyph numGlyph
    if large then .ok self
    else do
      let unicodetable ← callocTable room
      match unicodetable with
      | none => .ok { self with unicodetable := none }
      | some table => do
          let r ← readPsf2Utf8Entries file headersize bytesPerGlyph numGlyph
            table
          .ok { self with unicodetable := some r.table }

def psfInit (file : List (BitVec 8)) (room : Bool) : Except Fault Vars := do
  let magic16 ← u16At file 0
  if magic16 = psf1Magic then initPsf1 file room initialVars
  else do
    let magic32 ← u32At file 0
    if magic32 = psf2Magic then initPsf2 file room initialVars
    else .error (.panic "Invalid PSF magic")

/-- The offset in the file of the glyph which is pointed to. -/
def psfGetglyph (self : Vars) (chr : BitVec 32) : Except Fault ℕ := do
  let chr := if 0xffff < chr.toNat then 0x3f else chr.toNat
  let glyphindex ←
    match self.unicodetable with
    | none => .ok chr
    | some table =>
        if chr < tableEntries then .ok (table chr).toNat
        else .error .outOfBounds
  if self.glyphcount = 0 then .error .divideByZero
  else
    match self.glyphs with
    | none => .error .wildPointer
    | some glyphs =>
        .ok (glyphs + self.bytesperglyph * (glyphindex % self.glyphcount))

end Psf
end Yjkos
