import Yjkos.PsfUnicode

/-!
# Font files

A font file of either format is a header, the glyphs, the Unicode table if
there is one, and whatever follows.  The loader keeps the numbers of the
header, so a glyph is looked up inside the file; but the translation table has
no entry for the last code point, and a file of the first format without a
table leaves the variables as they were.
-/

namespace Yjkos
namespace Psf

open UnicodeTable

/-- `u32le_at` of the bytes of a header. -/
def word (header : List (BitVec 8)) (pos : ℕ) : ℕ :=
  u32leAt (fun i => header.getD i 0) pos

/-- What the two formats have in common.  The file is in the memory of the
machine. -/
structure FontFile where
  header : List (BitVec 8)
  glyphs : List (BitVec 8)
  table : List (BitVec 8)
  rest : List (BitVec 8)
  charsize : ℕ
  length : ℕ
  charsize_pos : 0 < charsize
  length_pos : 0 < length
  glyphs_length : glyphs.length = charsize * length
  size : header.length + (glyphs.length + (table.length + rest.length)) <
    4294967296

/-- 256 or 512 glyphs, 8 pixels wide. -/
structure Psf1Font extends FontFile where
  mode : BitVec 8
  height : BitVec 8
  entries : List (Entry (Fin 0xfffe))
  header_eq : header = [0x36, 0x04, mode, height]
  charsize_eq : charsize = height.toNat
  length_eq : length = if mode &&& 0x01 ≠ 0 then 512 else 256
  table_eq :
    if mode &&& (0x02 ||| 0x04) = 0 then table = []
    else entries.length = length ∧ table = psf1Encoding.table entries

structure Psf2Font extends FontFile where
  entries : List (Entry Char)
  header_length : 32 ≤ header.length
  magic : header.take 4 = [0x72, 0xb5, 0x4a, 0x86]
  headersize_eq : word header 8 = header.length
  length_eq : word header 16 = length
  charsize_eq : word header 20 = charsize
  pixels_eq : charsize = word header 24 * ((word header 28 + 7) / 8)
  table_eq :
    if word header 12 % 2 = 0 then table = []
    else entries.length = length ∧ table = psf2Encoding.table entries

namespace FontFile

variable {font : FontFile} {vars : Vars} {c : BitVec 32} {pos : ℕ}

def bytes (font : FontFile) : List (BitVec 8) :=
  font.header ++ (font.glyphs ++ (font.table ++ font.rest))

/-- All bytes of one of the glyphs are behind the offset. -/
def IsGlyph (font : FontFile) (offset : ℕ) : Prop :=
  ∃ i < font.length, offset = font.header.length + font.charsize * i ∧
    offset + font.charsize ≤ font.bytes.length

/-- No access is outside of the file or of the table, nothing is divided by
zero, and the result is a glyph of the font. -/
def InBounds (font : FontFile) (room : Bool) (c : BitVec 32) : Prop :=
  ∃ vars offset, psfInit font.bytes room = .ok vars ∧
    psfGetglyph vars c = .ok offset ∧ font.IsGlyph offset

theorem fits (font : FontFile) : font.charsize * font.length < 4294967296 := by
  have hsize := font.size
  rw [font.glyphs_length] at hsize
  omega

theorem length_bytes (font : FontFile) :
    font.bytes.length = font.header.length +
      (font.glyphs.length + (font.table.length + font.rest.length)) := by
  simp only [bytes, List.length_append]

theorem drop_bytes (font : FontFile) :
    font.bytes.drop (font.header.length + wrap (font.charsize * font.length)) =
      font.table ++ font.rest := by
  rw [wrap_of_lt font.fits, ← font.glyphs_length, bytes, ← List.drop_drop,
    List.drop_left, List.drop_left]

theorem tooLarge_eq (font : FontFile) :
    tooLarge font.charsize font.length = .ok false := by
  have hfits := font.fits
  have hle : font.length ≤ sizeMax / font.charsize := by
    rw [Nat.le_div_iff_mul_le font.charsize_pos, Nat.mul_comm]
    unfold sizeMax
    omega
  rw [tooLarge, if_neg font.charsize_pos.ne', decide_eq_false (by omega)]

theorem isGlyph_mod (font : FontFile) (i : ℕ) :
    font.IsGlyph
      (font.header.length + font.charsize * (i % font.length)) := by
  have hlt : i % font.length < font.length := Nat.mod_lt _ font.length_pos
  have hnext : font.charsize * (i % font.length + 1) ≤
      font.charsize * font.length := Nat.mul_le_mul_left _ hlt
  refine ⟨_, hlt, rfl, ?_⟩
  rw [length_bytes, font.glyphs_length]
  rw [Nat.mul_add_one] at hnext
  omega

/-- The variables hold the numbers of the header. -/
structure Loaded (font : FontFile) (vars : Vars) : Prop where
  glyphs : vars.glyphs = some font.header.length
  bytesperglyph : vars.bytesperglyph = font.charsize
  glyphcount : vars.glyphcount = font.length

/-- The table has no entry for the last code point. -/
theorem Loaded.getglyph_iff (h : font.Loaded vars) :
    (∃ offset, psfGetglyph vars c = .ok offset ∧ font.IsGlyph offset) ↔
      (vars.unicodetable ≠ none → c ≠ 0xffff) := by
  have hcount : vars.glyphcount ≠ 0 := by
    rw [h.glyphcount]
    exact font.length_pos.ne'
  unfold psfGetglyph
  dsimp only
  cases htable : vars.unicodetable with
  | none =>
      refine iff_of_true ?_ fun hne => absurd rfl hne
      dsimp only
      rw [ok_bind, if_neg hcount, h.glyphs, h.glyphcount, h.bytesperglyph]
      exact ⟨_, rfl, font.isGlyph_mod _⟩
  | some table =>
      dsimp only
      by_cases hlast : c = 0xffff
      · subst hlast
        refine iff_of_false ?_ fun hne => hne (by simp) rfl
        rintro ⟨offset, hget, -⟩
        cases hget
      · have hinside : (if 0xffff < c.toNat then 0x3f else c.toNat) <
            tableEntries := by
          have hne : c.toNat ≠ 0xffff := fun heq =>
            hlast (BitVec.eq_of_toNat_eq heq)
          unfold tableEntries
          split <;> omega
        refine iff_of_true ?_ fun _ => hlast
        rw [if_pos hinside, ok_bind, if_neg hcount, h.glyphs, h.glyphcount,
          h.bytesperglyph]
        exact ⟨_, rfl, font.isGlyph_mod _⟩

theorem u32At_bytes (h : pos + 4 ≤ font.header.length) :
    u32At font.bytes pos = .ok (word font.header pos) := by
  have hget : ∀ i < font.header.length,
      font.bytes.getD i 0 = font.header.getD i 0 := by
    intro i hi
    rw [List.getD_eq_getElem?_getD, bytes, List.getElem?_append_left hi,
      List.getD_eq_getElem?_getD]
  rw [u32At, if_pos (by rw [length_bytes]; omega)]
  unfold word u32leAt
  dsimp only
  rw [hget _ (by omega), hget _ (by omega), hget _ (by omega),
    hget _ (by omega)]

theorem Loaded.inBounds_iff {room : Bool} (h : font.Loaded vars)
    (hinit : psfInit font.bytes room = .ok vars) :
    font.InBounds room c ↔ (vars.unicodetable ≠ none → c ≠ 0xffff) := by
  rw [← h.getglyph_iff]
  constructor
  · rintro ⟨vars', offset, hinit', hget⟩
    obtain rfl := Except.ok.inj (hinit.symm.trans hinit')
    exact ⟨offset, hget⟩
  · rintro ⟨offset, hget⟩
    exact ⟨vars, offset, hinit, hget⟩

theorem not_inBounds_of_error {room : Bool} {e : Fault}
    (h : psfInit font.bytes room = .error e) :
    ¬font.InBounds room c := by
  rintro ⟨vars, offset, hinit, -⟩
  rw [h] at hinit
  cases hinit

end FontFile

/-! ## The first format -/

namespace Psf1Font

variable {font : Psf1Font} {room : Bool} {c : BitVec 32}

def HasTable (font : Psf1Font) : Prop := font.mode &&& (0x02 ||| 0x04) ≠ 0

instance (font : Psf1Font) : Decidable font.HasTable := by
  unfold HasTable
  infer_instance

theorem bytes_eq (font : Psf1Font) :
    font.bytes = 0x36 :: 0x04 :: font.mode :: font.height ::
      (font.glyphs ++ (font.table ++ font.rest)) := by
  rw [FontFile.bytes, font.header_eq]
  rfl

/-- The branch of `psf_init`, with the bytes of the header read. -/
theorem psfInit_eq (font : Psf1Font) (room : Bool) :
    psfInit font.bytes room = initPsf1 font.bytes room initialVars := by
  have hmagic : u16At font.bytes 0 = .ok psf1Magic := by
    rw [bytes_eq, u16At, if_pos (by simp), u16leAt_eq]
    rfl
  rw [psfInit, hmagic, ok_bind, if_pos rfl]

theorem byteAt_mode (font : Psf1Font) :
    byteAt font.bytes 2 = .ok font.mode := by
  rw [bytes_eq]
  rfl

theorem byteAt_height (font : Psf1Font) :
    byteAt font.bytes 3 = .ok font.height := by
  rw [bytes_eq]
  rfl

theorem init_no_table (htable : ¬font.HasTable) :
    psfInit font.bytes room = .ok initialVars := by
  have hmode : font.mode &&& (0x02 ||| 0x04) = 0 := not_not.1 htable
  rw [psfInit_eq, initPsf1, byteAt_mode, ok_bind, byteAt_height, ok_bind]
  dsimp only
  rw [if_pos hmode]

theorem init_no_room (htable : font.HasTable) :
    psfInit font.bytes false = .error .nullDereference := by
  rw [psfInit_eq, initPsf1, byteAt_mode, ok_bind, byteAt_height, ok_bind]
  dsimp only
  rw [if_neg htable, ← font.length_eq, ← font.charsize_eq, font.tooLarge_eq]
  rfl

/-- The characters of the table are never the last code point. -/
theorem init_loaded (htable : font.HasTable) :
    ∃ vars, psfInit font.bytes true = .ok vars ∧ font.Loaded vars ∧
      vars.unicodetable ≠ none := by
  have hheight : font.charsize < 32767 := by
    have hbyte := font.height.isLt
    have heq := font.charsize_eq
    omega
  have hheader : font.header.length = 4 := by
    rw [font.header_eq]
    rfl
  obtain ⟨hentries, htable_eq⟩ :
      font.entries.length = font.length ∧
        font.table = psf1Encoding.table font.entries := by
    have h := font.table_eq
    rwa [if_neg htable] at h
  have hdrop := font.drop_bytes
  rw [htable_eq] at hdrop
  obtain ⟨r, hrun, -⟩ := (psf1_reads font.bytes font.entries.length).run
    (r := startOfTable font.header.length font.charsize font.length
      fun _ => 0) hdrop rfl (by
        rintro e - ⟨c, -, hcode⟩
        have hlt : psf1Encoding.code c < 0xfffe := c.isLt
        omega)
  refine ⟨⟨some r.table, some font.header.length, 8, font.charsize,
    font.charsize, font.length⟩, ?_, ⟨rfl, rfl, rfl⟩, by simp⟩
  rw [psfInit_eq, initPsf1, byteAt_mode, ok_bind, byteAt_height, ok_bind]
  dsimp only
  rw [if_neg htable, ← font.length_eq, ← font.charsize_eq, font.tooLarge_eq,
    ok_bind, hheader]
  rw [hheader, hentries] at hrun
  rw [if_neg Bool.false_ne_true, decide_eq_true hheight]
  change (readPsf1Utf16Entries _ _ _ _ _ >>= _) = _
  rw [readPsf1Utf16Entries, hrun]
  rfl

/-- When the loader stays in bounds. -/
def Supported (font : Psf1Font) (room : Bool) (c : BitVec 32) : Prop :=
  font.HasTable ∧ room = true ∧ c ≠ 0xffff

theorem inBounds_iff :
    font.InBounds room c ↔ font.Supported room c := by
  by_cases htable : font.HasTable
  · cases room with
    | false =>
        refine iff_of_false ?_ fun h => Bool.false_ne_true h.2.1
        exact FontFile.not_inBounds_of_error (init_no_room htable)
    | true =>
        obtain ⟨vars, hinit, hloaded, hsome⟩ := init_loaded htable
        rw [hloaded.inBounds_iff hinit]
        exact ⟨fun h => ⟨htable, rfl, h hsome⟩, fun h _ => h.2.2⟩
  · refine iff_of_false ?_ fun h => htable h.1
    rintro ⟨vars, offset, hinit, hget, -⟩
    obtain rfl := Except.ok.inj (hinit.symm.trans (init_no_table htable))
    cases hget

end Psf1Font

/-! ## The second format -/

namespace Psf2Font

variable {font : Psf2Font} {room : Bool} {c : BitVec 32}

def HasTable (font : Psf2Font) : Prop := word font.header 12 % 2 ≠ 0

theorem word_magic (bytes : List (BitVec 8)) :
    word (0x72 :: 0xb5 :: 0x4a :: 0x86 :: bytes) 0 = psf2Magic := by
  unfold word u32leAt
  simp only [List.getD_cons_succ, List.getD_cons_zero, Nat.zero_add]
  rfl

theorem header_eq (font : Psf2Font) :
    font.header = 0x72 :: 0xb5 :: 0x4a :: 0x86 :: font.header.drop 4 := by
  have h := List.take_append_drop 4 font.header
  rw [font.magic] at h
  exact h.symm

theorem u32At_header {pos : ℕ} (hpos : pos + 4 ≤ 32) :
    u32At font.bytes pos = .ok (word font.header pos) :=
  FontFile.u32At_bytes (by have hlength := font.header_length; omega)

theorem psfInit_eq (font : Psf2Font) (room : Bool) :
    psfInit font.bytes room = initPsf2 font.bytes room initialVars := by
  have hlow : u16At font.bytes 0 = .ok 0xb572 := by
    rw [FontFile.bytes, font.header_eq, u16At, if_pos (by simp), u16leAt_eq]
    rfl
  have hmagic : u32At font.bytes 0 = .ok psf2Magic := by
    rw [u32At_header (by decide), font.header_eq, word_magic]
  rw [psfInit, hlow, ok_bind, if_neg (by decide), hmagic, ok_bind, if_pos rfl]

/-- The variables which `init_psf2` sets from the header. -/
def vars (font : Psf2Font) (unicodetable : Option (ℕ → BitVec 16)) : Vars :=
  ⟨unicodetable, some font.header.length, word font.header 28,
    word font.header 24, font.charsize, font.length⟩

/-- `init_psf2` with the header read. -/
theorem psfInit_header (font : Psf2Font) (room : Bool) :
    psfInit font.bytes room = (do
      cAssert (word font.header 28 < 32767) "width < 32767"
      cAssert (word font.header 24 < 32767) "height < 32767"
      if word font.header 12 % 2 = 0 then .ok (font.vars none)
      else do
        let unicodetable ← callocTable room
        match unicodetable with
        | none => .ok (font.vars none)
        | some table => do
            let r ← readPsf2Utf8Entries font.bytes font.header.length
              font.charsize font.length table
            .ok (font.vars (some r.table))) := by
  rw [psfInit_eq, initPsf2]
  rw [u32At_header (by decide), u32At_header (by decide),
    u32At_header (by decide), u32At_header (by decide),
    u32At_header (by decide), u32At_header (by decide),
    u32At_header (by decide)]
  simp only [ok_bind, font.headersize_eq, font.length_eq, font.charsize_eq,
    font.tooLarge_eq]
  rfl

/-- The two assertions hold. -/
def FitsScreen (font : Psf2Font) : Prop :=
  word font.header 28 < 32767 ∧ word font.header 24 < 32767

theorem init_assertion (hscreen : ¬font.FitsScreen) :
    ∃ e, psfInit font.bytes room = .error e := by
  rw [psfInit_header]
  by_cases hwidth : word font.header 28 < 32767
  · have hheight : ¬word font.header 24 < 32767 := fun h =>
      hscreen ⟨hwidth, h⟩
    rw [decide_eq_true hwidth, decide_eq_false hheight]
    exact ⟨_, rfl⟩
  · rw [decide_eq_false hwidth]
    exact ⟨_, rfl⟩

theorem init_no_table (hscreen : font.FitsScreen) (htable : ¬font.HasTable) :
    ∃ vars, psfInit font.bytes room = .ok vars ∧ font.Loaded vars ∧
      vars.unicodetable = none := by
  have hflags : word font.header 12 % 2 = 0 := not_not.1 htable
  rw [psfInit_header, decide_eq_true hscreen.1, decide_eq_true hscreen.2]
  simp only [cAssert_true, ok_bind, if_pos hflags]
  exact ⟨_, rfl, ⟨rfl, rfl, rfl⟩, rfl⟩

theorem init_no_room (hscreen : font.FitsScreen) (htable : font.HasTable) :
    psfInit font.bytes false = .error .nullDereference := by
  rw [psfInit_header, decide_eq_true hscreen.1, decide_eq_true hscreen.2]
  simp only [cAssert_true, ok_bind, if_neg htable]
  rfl

theorem init_table (hscreen : font.FitsScreen) (htable : font.HasTable) :
    psfInit font.bytes true = (do
      let r ← readPsf2Utf8Entries font.bytes font.header.length font.charsize
        font.entries.length fun _ => 0
      .ok (font.vars (some r.table))) := by
  have hentries : font.entries.length = font.length := by
    have h := font.table_eq
    rw [if_neg htable] at h
    exact h.1
  rw [psfInit_header, decide_eq_true hscreen.1, decide_eq_true hscreen.2,
    hentries]
  simp only [cAssert_true, ok_bind, if_neg htable]
  rfl

/-- What is in the file at the start of the loop. -/
theorem drop_table (htable : font.HasTable) :
    font.bytes.drop (startOfTable font.header.length font.charsize
        font.entries.length fun _ => 0).pos =
      psf2Encoding.table font.entries ++ font.rest := by
  have h := font.table_eq
  rw [if_neg htable] at h
  rw [startOfTable, h.1, font.drop_bytes, h.2]

theorem init_loaded (hscreen : font.FitsScreen) (htable : font.HasTable)
    (hcodes : ∀ e ∈ font.entries, ¬psf2Encoding.Occurs 0xffff e) :
    ∃ vars, psfInit font.bytes true = .ok vars ∧ font.Loaded vars ∧
      vars.unicodetable ≠ none := by
  obtain ⟨r, hrun, -⟩ := (psf2_reads font.bytes font.entries.length).run
    (drop_table htable) rfl hcodes
  rw [init_table hscreen htable, readPsf2Utf8Entries, hrun]
  exact ⟨_, rfl, ⟨rfl, rfl, rfl⟩, Option.some_ne_none _⟩

theorem init_outOfBounds (hscreen : font.FitsScreen) (htable : font.HasTable)
    (hcode : ∃ e ∈ font.entries, psf2Encoding.Occurs 0xffff e) :
    psfInit font.bytes true = .error .outOfBounds := by
  rw [init_table hscreen htable, readPsf2Utf8Entries,
    (psf2_reads font.bytes font.entries.length).run_error (drop_table htable)
      rfl hcode]
  rfl

/-- When the loader stays in bounds. -/
def Supported (font : Psf2Font) (room : Bool) (c : BitVec 32) : Prop :=
  font.FitsScreen ∧ (font.HasTable → room = true ∧ c ≠ 0xffff ∧
    ∀ e ∈ font.entries, ¬psf2Encoding.Occurs 0xffff e)

theorem inBounds_iff :
    font.InBounds room c ↔ font.Supported room c := by
  by_cases hscreen : font.FitsScreen
  · by_cases htable : font.HasTable
    · cases room with
      | false =>
          refine iff_of_false ?_ fun h => Bool.false_ne_true (h.2 htable).1
          exact FontFile.not_inBounds_of_error (init_no_room hscreen htable)
      | true =>
          by_cases hcode : ∃ e ∈ font.entries, psf2Encoding.Occurs 0xffff e
          · refine iff_of_false ?_ fun h => ?_
            · exact FontFile.not_inBounds_of_error
                (init_outOfBounds hscreen htable hcode)
            · obtain ⟨e, he, hbad⟩ := hcode
              exact (h.2 htable).2.2 e he hbad
          · have hcodes : ∀ e ∈ font.entries, ¬psf2Encoding.Occurs 0xffff e :=
              fun e he hbad => hcode ⟨e, he, hbad⟩
            obtain ⟨vars, hinit, hloaded, hsome⟩ :=
              init_loaded hscreen htable hcodes
            rw [hloaded.inBounds_iff hinit]
            exact ⟨fun h => ⟨hscreen, fun _ => ⟨rfl, h hsome, hcodes⟩⟩,
              fun h _ => (h.2 htable).2.1⟩
    · obtain ⟨vars, hinit, hloaded, hnone⟩ := init_no_table hscreen htable
      rw [hloaded.inBounds_iff hinit]
      exact iff_of_true (fun hsome => absurd hnone hsome)
        ⟨hscreen, fun h => absurd h htable⟩
  · obtain ⟨e, hinit⟩ := @init_assertion font room hscreen
    exact iff_of_false (FontFile.not_inBounds_of_error hinit)
      fun h => hscreen h.1

end Psf2Font

/-- Fonts of both formats are handled in bounds exactly when they are
supported. -/
theorem fonts_inBounds_iff (room : Bool) (c : BitVec 32) :
    (∀ font : Psf1Font, font.InBounds room c ↔ font.Supported room c) ∧
      ∀ font : Psf2Font, font.InBounds room c ↔ font.Supported room c :=
  ⟨fun _ => Psf1Font.inBounds_iff, fun _ => Psf2Font.inBounds_iff⟩

/-- 256 glyphs of one row each, and no table. -/
def plainFont : Psf1Font where
  header := [0x36, 0x04, 0, 1]
  glyphs := List.replicate 256 0
  table := []
  rest := []
  charsize := 1
  length := 256
  charsize_pos := Nat.one_pos
  length_pos := by decide
  glyphs_length := by rw [List.length_replicate]
  size := by
    rw [List.length_replicate]
    decide
  mode := 0
  height := 1
  entries := []
  header_eq := rfl
  charsize_eq := rfl
  length_eq := rfl
  table_eq := rfl

/-- The number of glyphs is still zero when a character is looked up. -/
theorem plainFont_not_inBounds :
    ¬∀ (font : Psf1Font) (room : Bool) (c : BitVec 32),
      font.InBounds room c :=
  fun h => absurd (Psf1Font.inBounds_iff.1 (h plainFont true 0x41)).1
    (by decide)

/-- Two glyphs of one row, and a table which maps `A`, and `B` and the sequence
of both. -/
def twoGlyphs : Psf2Font where
  header := [0x72, 0xb5, 0x4a, 0x86, 0, 0, 0, 0, 32, 0, 0, 0, 1, 0, 0, 0,
    2, 0, 0, 0, 1, 0, 0, 0, 1, 0, 0, 0, 8, 0, 0, 0]
  glyphs := [0x18, 0x3c]
  table := [0x41, 0xff, 0x42, 0xfe, 0x41, 0x42, 0xff]
  rest := []
  charsize := 1
  length := 2
  charsize_pos := Nat.one_pos
  length_pos := Nat.two_pos
  glyphs_length := rfl
  size := by decide
  entries := [⟨['A'], []⟩, ⟨['B'], [['A', 'B']]⟩]
  header_length := by decide
  magic := rfl
  headersize_eq := by decide
  length_eq := by decide
  charsize_eq := by decide
  pixels_eq := by decide
  table_eq := by decide

/-- Only the last code point has no place in the table. -/
theorem twoGlyphs_inBounds_iff (c : BitVec 32) :
    twoGlyphs.InBounds true c ↔ c ≠ 0xffff := by
  rw [Psf2Font.inBounds_iff]
  have hscreen : twoGlyphs.FitsScreen := ⟨by decide, by decide⟩
  have htable : twoGlyphs.HasTable := show _ % 2 ≠ 0 by decide
  have hnone : ∀ e ∈ twoGlyphs.entries, ¬psf2Encoding.Occurs 0xffff e := by
    decide
  exact ⟨fun h => (h.2 htable).2.1,
    fun hc => ⟨hscreen, fun _ => ⟨rfl, hc, hnone⟩⟩⟩

end Psf
end Yjkos
