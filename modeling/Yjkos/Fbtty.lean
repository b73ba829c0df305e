import Yjkos.FbDamage
import Yjkos.Vt100ttyScroll

/-!
# The framebuffer console

`kernel/raster/fbtty.c`: a terminal which draws its marked characters into the
back buffer, and scrolls the picture when the terminal scrolls its characters.
-/

namespace Yjkos

open Console

/-- `s_tty` and `s_linetempbuf`, together with the framebuffer. -/
structure Fbtty where
  tty : Vt100tty
  fb : Fb
  linetempbuf : List (BitVec 8)

namespace Fbtty

/-- The variables which the loops of `vt100tty_op_updatescreen` carry. -/
structure Update where
  s : Fbtty
  writepos : ℕ
  writelen : ℕ

/-- The string in a buffer ends before the first null. -/
def cString (buffer : List (BitVec 8)) : List (BitVec 8) :=
  buffer.takeWhile (· ≠ 0#8)

/-- A marked character is put into the buffer. -/
def collectChar (col : ℕ) (src : ℤ) (st : Update) : Update :=
  if (st.s.tty.chars src).needSupdate then
    { s := { st.s with
        linetempbuf :=
          st.s.linetempbuf.set st.writelen (st.s.tty.chars src).chr
        tty := st.s.tty.updateChars src 1 ({ · with needSupdate := false }) }
      writepos := if st.writelen = 0 then col else st.writepos
      writelen := st.writelen + 1 }
  else st

/-- The characters in the buffer are drawn when the next one is not marked, or
at the end of the row.  The mark of the character has been cleared by then. -/
def drawCollected (font : Psf) (row col : ℕ) (src : ℤ) (st : Update) :
    Update :=
  if ((st.s.tty.chars src).needSupdate = false ∨
      (col : ℤ) = st.s.tty.columns - 1) ∧ st.writelen ≠ 0 then
    let linetempbuf := st.s.linetempbuf.set st.writelen 0#8
    let destx := st.writepos * font.fontwidth
    let desty := row * font.fontheight
    let fb := st.s.fb.drawRect (st.writelen * font.fontwidth) font.fontheight
      destx desty black
    let fb := Fb.drawText font fb (cString linetempbuf) destx desty white
    { st with s := { st.s with fb, linetempbuf }, writelen := 0 }
  else st

/-- The body of the loops over the rows and columns. -/
def updateCell (font : Psf) (row col : ℕ) (st : Update) : Update :=
  let src := row * st.s.tty.columns + col
  drawCollected font row col src (collectChar col src st)

def updateScreen (font : Psf) (s : Fbtty) : Fbtty :=
  let st := (List.range s.tty.rows.toNat).foldl (fun st row =>
    (List.range s.tty.columns.toNat).foldl
      (fun st col => updateCell font row col st) st) ⟨s, 0, 0⟩
  { st.s with fb := st.s.fb.update }

/-- `vt100tty_op_scroll`. -/
def scroll (font : Psf) (s : Fbtty) (lines : ℤ) : Except Fault Fbtty := do
  let fb ← s.fb.scroll (lines * font.fontheight)
  .ok { s with fb }

def scrollTimes (font : Psf) : ℕ → Fbtty → Except Fault Fbtty
  | 0, s => .ok s
  | calls + 1, s => do
      let s ← s.scroll font 1
      scrollTimes font calls s

/-- The terminal calls the driver between two changes of its own arrays, which
the driver does not read, so the calls may follow the changes. -/
def writeChar (font : Psf) (s : Fbtty) (chr : ℤ) : Except Fault Fbtty := do
  let tty ← s.tty.writeChar chr
  scrollTimes font (tty.scrollCalls - s.tty.scrollCalls) { s with tty }

def streamOpWrite (font : Psf) (s : Fbtty) (data : List (BitVec 8)) :
    Except Fault Fbtty := do
  cAssert (data.length ≤ maxTransferSize) "size <= STREAM_MAX_TRANSFER_SIZE"
  data.foldlM (fun s byte => writeChar font s byte.toNat) s

/-- The loop unmarks the line of the cursor once for each of the rows. -/
def streamOpFlush (font : Psf) (s : Fbtty) : Except Fault Fbtty := do
  let s := s.updateScreen font
  let tty ← (List.range s.tty.rows.toNat).foldlM
    (fun (tty : Vt100tty) _ =>
      tty.updateLine tty.currentrow ({ · with needSupdate := false })) s.tty
  .ok { s with tty }

/-- `fbtty_init`.  There is no console when there are more characters than
`heap_calloc` can count the bytes of. -/
def init (font : Psf) (fb : Fb) : Except Fault (Option Fbtty) :=
  let fb := fb.drawRect fb.width fb.height 0 0 black
  let columns := fb.width / font.fontwidth
  let rows := fb.height / font.fontheight
  if hheld : columns * rows ≤ sizeMax / 2 then do
    let tty ← Vt100tty.init {
      lineinfos := fun _ => ⟨false, false⟩
      chars := fun _ => ⟨0#8, false⟩
      hasScroll := true
      columns := columns
      rows := rows
      currentcolumn := 0
      currentrow := 0
      scrollCalls := 0
      held := by
        have hheld : columns * rows ≤ 2147483647 := hheld
        have hcast : (columns * rows : ℤ) ≤ 2147483647 := by
          exact_mod_cast hheld
        omega }
    .ok (some ⟨tty, fb, List.replicate (columns + 1) 0#8⟩)
  else .ok none

/-- The calls of the console's stream which change what it shows. -/
inductive Call where
  | write (data : List (BitVec 8))
  | flush

def step (font : Psf) (s : Fbtty) : Call → Except Fault Fbtty
  | .write data => s.streamOpWrite font data
  | .flush => s.streamOpFlush font

/-- What a stream promises, of bytes none of which ends a string. -/
def Call.Allowed : Call → Prop
  | .write data => data.length ≤ maxTransferSize ∧ ∀ byte ∈ data, byte ≠ 0#8
  | .flush => True

instance (call : Call) : Decidable call.Allowed :=
  match call with
  | .write _ => inferInstanceAs (Decidable (_ ∧ _))
  | .flush => inferInstanceAs (Decidable True)

/-! ## What is shown -/

/-- The character of a cell. -/
def charOf (s : Fbtty) (r c : ℕ) : Vt100ttyChar :=
  s.tty.chars (r * s.tty.columns + c)

/-- A pixel of a white character on black ground. -/
def charPixel (font : Psf) (p : BitVec 8 × ℕ × ℕ) : FbColor :=
  if font.hasPixel (font.getglyph (p.1.signExtend 32)) p.2.1 p.2.2 = true then
    white
  else black

/-- The pixel in a row and column of a cell. -/
def cellPixel (font : Psf) (s : Fbtty) (p : (ℕ × ℕ) × ℕ × ℕ) : FbColor :=
  s.fb.backPixel (p.1.1 * font.fontheight + p.2.1,
    p.1.2 * font.fontwidth + p.2.2)

/-- The back buffer has the character of a cell in its place. -/
def Displayed (font : Psf) (s : Fbtty) (r c : ℕ) : Prop :=
  ∀ i < font.fontheight, ∀ j < font.fontwidth,
    cellPixel font s ((r, c), i, j) = charPixel font ((s.charOf r c).chr, i, j)

end Fbtty
end Yjkos
