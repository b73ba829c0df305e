import Yjkos.Fbtty

/-!
# The console shows its grid

A cell which is not marked is displayed in the back buffer.  Writing marks the
cells it changes, scrolling moves characters, marks and pixels by the same row,
and drawing a marked cell leaves the pixels of the others alone.
-/

namespace Yjkos
namespace Fbtty

open Console TransitionRun

variable {font : Psf} {columns rows : ℕ}

/-- The pixels of the cells which are not marked. -/
def freshPixels (font : Psf) (columns rows : ℕ) (chars : ℤ → Vt100ttyChar) :
    Set ((ℕ × ℕ) × ℕ × ℕ) :=
  {p | (p.1.1 < rows ∧ p.1.2 < columns) ∧
    (p.2.1 < font.fontheight ∧ p.2.2 < font.fontwidth) ∧
      (chars (p.1.1 * columns + p.1.2)).needSupdate = false}

def sourcePixel (columns : ℕ) (chars : ℤ → Vt100ttyChar)
    (p : (ℕ × ℕ) × ℕ × ℕ) : BitVec 8 × ℕ × ℕ :=
  ((chars (p.1.1 * columns + p.1.2)).chr, p.2)

def picturePixel (font : Psf) (fb : Fb) (p : (ℕ × ℕ) × ℕ × ℕ) : FbColor :=
  fb.backPixel (p.1.1 * font.fontheight + p.2.1,
    p.1.2 * font.fontwidth + p.2.2)

/-- The picture shows the unmarked characters of a grid which fits on it. -/
structure Drawn (font : Psf) (columns rows : ℕ) (chars : ℤ → Vt100ttyChar)
    (fb : Fb) : Prop where
  even : fb.width % 2 = 0
  width : columns * font.fontwidth ≤ fb.width
  height : rows * font.fontheight ≤ fb.height
  text : ∀ r < rows, ∀ c < columns, (chars (r * columns + c)).chr ≠ 0#8
  shows : Mirror.Shows (charPixel font) (freshPixels font columns rows chars)
    (sourcePixel columns chars) (picturePixel font fb)

variable {chars chars' : ℤ → Vt100ttyChar} {fb fb' : Fb}

theorem cell_lt {k count size part : ℕ} (hk : k < count)
    (hpart : part < size) : k * size + part < count * size := by
  have hmul : (k + 1) * size ≤ count * size := Nat.mul_le_mul_right _ hk
  rw [add_mul, one_mul] at hmul
  omega

theorem Drawn.typed (h : Drawn font columns rows chars fb)
    {byte : BitVec 8} (hbyte : byte ≠ 0#8) {row column : ℕ}
    (hchars : ∀ r c : ℕ, c < columns → chars' (r * columns + c) =
      if r = row ∧ c = column then ⟨byte, true⟩
      else chars (r * columns + c)) :
    Drawn font columns rows chars' fb := by
  refine ⟨h.even, h.width, h.height, ?_, h.shows.change ?_ ?_ ?_⟩
  · intro r hr c hc
    rw [hchars r c hc]
    split
    next => exact hbyte
    next => exact h.text r hr c hc
  · rintro ⟨⟨r, c⟩, p⟩ ⟨hcell, hpart, hfresh⟩
    refine ⟨hcell, hpart, ?_⟩
    simp only [hchars r c hcell.2] at hfresh
    split at hfresh
    next => cases hfresh
    next => exact hfresh
  · rintro ⟨⟨r, c⟩, p⟩ ⟨hcell, _, hfresh⟩
    simp only [hchars r c hcell.2] at hfresh
    simp only [sourcePixel, hchars r c hcell.2]
    split at hfresh
    next => cases hfresh
    next hother => rw [if_neg hother]
  · exact fun _ _ => rfl

theorem Drawn.scrolled (h : Drawn font columns rows chars fb)
    (hfb : fb.scroll font.fontheight = .ok fb') :
    Drawn font columns rows (Vt100tty.scrolledChars rows columns chars)
      fb' := by
  obtain ⟨_, heq⟩ := Fb.scroll_eq hfb
  have hwidth : fb'.width = fb.width := by rw [heq]
  have hheight : fb'.height = fb.height := by rw [heq]
  refine ⟨hwidth ▸ h.even, hwidth ▸ h.width, hheight ▸ h.height, ?_,
    h.shows.move (fun p => ((p.1.1 + 1, p.1.2), p.2)) ?_ ?_ ?_⟩
  · intro r hr c hc
    rw [Vt100tty.scrolledChars_at chars hr hc]
    split
    next => decide
    next hlast => exact h.text (r + 1) (by omega) c hc
  -- The last row is marked, so a fresh cell has another one below it.
  · rintro ⟨⟨r, c⟩, p⟩ ⟨⟨hr, hc⟩, hpart, hfresh⟩
    simp only [Vt100tty.scrolledChars_at chars hr hc] at hfresh
    split at hfresh
    next => cases hfresh
    next hlast => exact ⟨⟨by simp only at hr ⊢; omega, hc⟩, hpart, hfresh⟩
  · rintro ⟨⟨r, c⟩, p⟩ ⟨⟨hr, hc⟩, _, hfresh⟩
    simp only [Vt100tty.scrolledChars_at chars hr hc] at hfresh
    simp only [sourcePixel, Vt100tty.scrolledChars_at chars hr hc]
    split at hfresh
    next => cases hfresh
    next hlast => rw [if_neg hlast]
  · rintro ⟨⟨r, c⟩, i, j⟩ ⟨⟨hr, hc⟩, ⟨hi, hj⟩, hfresh⟩
    simp only [Vt100tty.scrolledChars_at chars hr hc] at hfresh
    split at hfresh
    next => cases hfresh
    next hlast =>
      have hcolumn := (cell_lt hc hj).trans_le h.width
      have hbelow : r + 1 < rows := by
        simp only at hr
        omega
      have hrow := (cell_lt hbelow hi).trans_le h.height
      rw [add_mul, one_mul] at hrow
      simp only at hrow
      simp only [picturePixel]
      rw [Fb.scroll_backPixel font.fontheight_pos (.inr h.even) hfb hcolumn,
        Fb.scrolledFrom, if_pos (by simp only; omega), add_mul, one_mul]
      congr 2
      omega

theorem Drawn.draw (h : Drawn font columns rows chars fb)
    (hfont : font.fontwidth ≤ 8) {row column : ℕ} (hrow : row < rows)
    (hcolumn : column < columns)
    (hchars : ∀ r c : ℕ, c < columns → chars' (r * columns + c) =
      if r = row ∧ c = column then
        ⟨(chars (row * columns + column)).chr, false⟩
      else chars (r * columns + c)) :
    Drawn font columns rows chars' (Fb.drawText font
      (fb.drawRect font.fontwidth font.fontheight (column * font.fontwidth)
        (row * font.fontheight) black)
      [(chars (row * columns + column)).chr] (column * font.fontwidth)
      (row * font.fontheight) white) := by
  have hchr : ∀ r c : ℕ, c < columns → (chars' (r * columns + c)).chr =
      (chars (r * columns + c)).chr := by
    intro r c hc
    rw [hchars r c hc]
    split
    next hat => rw [hat.1, hat.2]
    next => rfl
  have hfit : column * font.fontwidth + font.fontwidth ≤ fb.width := by
    have hmul : (column + 1) * font.fontwidth ≤ columns * font.fontwidth :=
      Nat.mul_le_mul_right _ hcolumn
    rw [add_mul, one_mul] at hmul
    exact hmul.trans h.width
  refine ⟨h.even, h.width, h.height, ?_, ?_⟩
  · intro r hr c hc
    rw [hchr r c hc]
    exact h.text r hr c hc
  · rintro ⟨⟨r, c⟩, i, j⟩ ⟨⟨hr, hc⟩, ⟨hi, hj⟩, hfresh⟩
    simp only at hr hc hi hj hfresh
    have hx := (cell_lt hc hj).trans_le h.width
    have hpixel := Fb.drawRect_drawText_at hfont (row * font.fontheight) hfit
      (chars (row * columns + column)).chr black white
      (y := r * font.fontheight + i) hx
    -- Rows and columns of cells are told apart as those of pixels are.
    have hrows : (row * font.fontheight ≤ r * font.fontheight + i ∧
        r * font.fontheight + i < row * font.fontheight + font.fontheight) ↔
        r = row := by
      have hiff : row * font.fontheight + 0 ≤ r * font.fontheight + i ∧
          r * font.fontheight + i <
            row * font.fontheight + 0 + font.fontheight ↔
          r = row ∧ 0 ≤ i ∧ i < 0 + font.fontheight :=
        Canvas.mem_part_iff hi (by omega)
      omega
    have hcolumns : (column * font.fontwidth ≤ c * font.fontwidth + j ∧
        c * font.fontwidth + j < column * font.fontwidth + font.fontwidth) ↔
        c = column := by
      have hiff : column * font.fontwidth + 0 ≤ c * font.fontwidth + j ∧
          c * font.fontwidth + j <
            column * font.fontwidth + 0 + font.fontwidth ↔
          c = column ∧ 0 ≤ j ∧ j < 0 + font.fontwidth :=
        Canvas.mem_part_iff hj (by omega)
      omega
    simp only [hrows, hcolumns] at hpixel
    refine hpixel.trans ?_
    simp only [sourcePixel, hchr r c hc, charPixel]
    split
    next hat =>
      obtain ⟨rfl, rfl⟩ := hat
      rw [Nat.add_sub_cancel_left, Nat.add_sub_cancel_left]
    next hother =>
      rw [hchars r c hc, if_neg hother] at hfresh
      exact h.shows ((r, c), i, j) ⟨⟨hr, hc⟩, ⟨hi, hj⟩, hfresh⟩

/-- The console is in order. -/
structure Good (font : Psf) (columns rows : ℕ) (s : Fbtty) : Prop where
  renders : ∃ l, Vt100tty.Renders columns rows s.tty l
  hasScroll : s.tty.hasScroll = true
  buffer : 2 ≤ s.linetempbuf.length
  drawn : Drawn font columns rows s.tty.chars s.fb

theorem Good.columns_eq {s : Fbtty} (h : Good font columns rows s) :
    s.tty.columns = columns := by
  obtain ⟨_, hrenders⟩ := h.renders
  exact hrenders.onScreen.width

theorem Good.rows_eq {s : Fbtty} (h : Good font columns rows s) :
    s.tty.rows = rows := by
  obtain ⟨_, hrenders⟩ := h.renders
  exact hrenders.onScreen.height

variable {s : Fbtty}

/-! ## Writing -/

theorem scroll_ok (font : Psf) (fb : Fb) :
    ∃ fb', fb.scroll font.fontheight = .ok fb' := by
  have hpos : (0 : ℤ) < font.fontheight := by
    exact_mod_cast font.fontheight_pos
  simp only [Fb.scroll, hpos, decide_true, cAssert_true, ok_bind]
  exact ⟨_, rfl⟩

theorem scrollTimes_drawn (h : Drawn font columns rows s.tty.chars s.fb)
    (hwidth : s.tty.columns = columns) (hheight : s.tty.rows = rows)
    {t : Vt100tty} (hadvanced : Vt100tty.Advanced s.tty t)
    (tty : Vt100tty) :
    ∃ fb', scrollTimes font (t.scrollCalls - s.tty.scrollCalls)
        { s with tty } = .ok { s with tty, fb := fb' } ∧
      Drawn font columns rows t.chars fb' := by
  rcases hadvanced with ⟨hcalls, hchars⟩ | ⟨hcalls, hchars⟩
  · rw [hcalls, Nat.sub_self, hchars]
    exact ⟨s.fb, rfl, h⟩
  · obtain ⟨fb', hfb⟩ := scroll_ok font s.fb
    rw [hcalls, Nat.add_sub_cancel_left, hchars, hwidth, hheight]
    refine ⟨fb', ?_, h.scrolled hfb⟩
    simp only [scrollTimes, Fbtty.scroll, one_mul, hfb, ok_bind]

theorem writeChar_good (h : Good font columns rows s) {byte : BitVec 8}
    (hbyte : byte ≠ 0#8) :
    ∃ s', writeChar font s byte.toNat = .ok s' ∧
      Good font columns rows s' := by
  obtain ⟨l, hrenders⟩ := h.renders
  obtain ⟨tty, htty, hon, hshows⟩ :=
    Vt100tty.writeChar_eq hrenders.onScreen hrenders.shows byte
  obtain ⟨t, hadvanced, hscroll, hcalls, hchars⟩ :=
    Vt100tty.writeChar_chars hrenders.onScreen h.hasScroll byte htty
  obtain ⟨fb', hfb, hdrawn⟩ := scrollTimes_drawn h.drawn h.columns_eq
    h.rows_eq hadvanced tty
  refine ⟨{ s with tty, fb := fb' }, ?_, ⟨_, hon, hshows⟩, hscroll, h.buffer,
    ?_⟩
  · rw [writeChar, htty, ok_bind, hcalls]
    exact hfb
  · rcases hchars with heq | ⟨row, _, column, _, htyped⟩
    · simp only [heq]
      exact hdrawn
    · exact hdrawn.typed hbyte htyped

theorem streamOpWrite_good (h : Good font columns rows s)
    {data : List (BitVec 8)} (hallowed : (Call.write data).Allowed) :
    ∃ s', streamOpWrite font s data = .ok s' ∧
      Good font columns rows s' := by
  obtain ⟨hsize, hbytes⟩ := hallowed
  simp only [streamOpWrite, hsize, decide_true, cAssert_true, ok_bind]
  clear hsize
  induction data generalizing s with
  | nil => exact ⟨s, rfl, h⟩
  | cons byte rest ih =>
      obtain ⟨hbyte, hrest⟩ := List.forall_mem_cons.1 hbytes
      obtain ⟨t, ht, htgood⟩ := writeChar_good h hbyte
      obtain ⟨u, hu, hugood⟩ := ih htgood hrest
      refine ⟨u, ?_, hugood⟩
      rw [List.foldlM_cons, ht]
      exact hu

/-! ## Flushing -/

theorem cString_set {buffer : List (BitVec 8)} (hbuffer : 2 ≤ buffer.length)
    {chr : BitVec 8} (hchr : chr ≠ 0#8) :
    cString ((buffer.set 0 chr).set 1 0#8) = [chr] := by
  match buffer, hbuffer with
  | a :: b :: rest, _ =>
      simp [cString, hchr]

/-- The loops have come to a cell, and nothing is collected. -/
structure Visited (font : Psf) (columns rows row column : ℕ) (st : Update) :
    Prop where
  good : Good font columns rows st.s
  writelen : st.writelen = 0
  unmarked : ∀ r < rows, ∀ c < columns, r < row ∨ r = row ∧ c < column →
    (st.s.tty.chars (r * columns + c)).needSupdate = false

theorem unmark_renders {tty : Vt100tty} {l : TextLayout.Layout (BitVec 8)}
    (h : Vt100tty.Renders columns rows tty l) (src : ℤ) :
    Vt100tty.Renders columns rows
      (tty.updateChars src 1 ({ · with needSupdate := false })) l := by
  have hsame : Vt100tty.SameCursor tty
      (tty.updateChars src 1 ({ · with needSupdate := false })) :=
    ⟨⟨rfl, rfl⟩, rfl, rfl⟩
  have hcell : (tty.updateChars src 1
      ({ · with needSupdate := false })).cell = tty.cell := by
    funext r c
    simp only [Vt100tty.cell, Vt100tty.updateChars]
    split <;> rfl
  refine ⟨h.onScreen.of_sameCursor hsame, ?_⟩
  rw [hsame.screen_eq hcell]
  exact h.shows

theorem Visited.updateCell {row column : ℕ} {st : Update}
    (h : Visited font columns rows row column st)
    (hfont : font.fontwidth ≤ 8) (hrow : row < rows)
    (hcolumn : column < columns) :
    Visited font columns rows row (column + 1)
      (updateCell font row column st) := by
  obtain ⟨s, writepos, writelen⟩ := st
  obtain ⟨hgood, hwritelen, hunmarked⟩ := h
  simp only at hgood hwritelen hunmarked
  subst hwritelen
  have hwidth := hgood.columns_eq
  simp only [Fbtty.updateCell, hwidth]
  by_cases hmark :
      (s.tty.chars (row * columns + column)).needSupdate = true
  · have hchars : ∀ r c : ℕ, c < columns →
        (s.tty.updateChars (row * columns + column) 1
          ({ · with needSupdate := false })).chars (r * columns + c) =
        if r = row ∧ c = column then
          ⟨(s.tty.chars (row * columns + column)).chr, false⟩
        else s.tty.chars (r * columns + c) := by
      intro r c hc
      have hone := Vt100tty.chars_updateChars_one (s := s.tty) row column r
        (c := c) ({ · with needSupdate := false }) (by omega) (by omega)
      rw [hwidth] at hone
      rw [hone]
      split
      next hat => rw [hat.1, hat.2]
      next => rfl
    have hcleared := hchars row column hcolumn
    rw [if_pos ⟨rfl, rfl⟩] at hcleared
    have htext := hgood.drawn.text row hrow column hcolumn
    obtain ⟨l, hrenders⟩ := hgood.renders
    rw [collectChar, if_pos hmark]
    simp only [drawCollected, hcleared, true_or, zero_add, ne_eq,
      one_ne_zero, not_false_eq_true, and_self, if_true, one_mul,
      cString_set hgood.buffer htext]
    refine ⟨⟨⟨l, unmark_renders hrenders _⟩, hgood.hasScroll, ?_, ?_⟩, rfl,
      ?_⟩
    · simpa only [List.length_set] using hgood.buffer
    · exact hgood.drawn.draw hfont hrow hcolumn hchars
    · intro r hr c hc hvisited
      simp only [hchars r c hc]
      split
      next => rfl
      next hother => exact hunmarked r hr c hc (by omega)
  · -- There is nothing to draw, neither here nor from before.
    rw [collectChar, if_neg hmark, drawCollected, if_neg (fun h => h.2 rfl)]
    refine ⟨hgood, rfl, fun r hr c hc hvisited => ?_⟩
    by_cases hat : r = row ∧ c = column
    · rw [hat.1, hat.2]
      exact Bool.eq_false_iff.2 hmark
    · exact hunmarked r hr c hc (by omega)

theorem Visited.updateRow {row : ℕ} {st : Update}
    (h : Visited font columns rows row 0 st) (hfont : font.fontwidth ≤ 8)
    (hrow : row < rows) :
    Visited font columns rows (row + 1) 0
      ((List.range columns).foldl
        (fun st col => Fbtty.updateCell font row col st) st) := by
  have hcells : ∀ n ≤ columns, Visited font columns rows row n
      ((List.range n).foldl
        (fun st col => Fbtty.updateCell font row col st) st) := by
    intro n
    induction n with
    | zero => exact fun _ => h
    | succ n ih =>
        intro hn
        rw [List.range_succ, List.foldl_append]
        exact (ih (by omega)).updateCell hfont hrow hn
  obtain ⟨hgood, hwritelen, hunmarked⟩ := hcells columns le_rfl
  exact ⟨hgood, hwritelen, fun r hr c hc _ =>
    hunmarked r hr c hc (by omega)⟩

theorem Drawn.update (h : Drawn font columns rows chars fb) :
    Drawn font columns rows chars fb.update := by
  obtain ⟨hbackbuffer, hwidth, hheight⟩ := fb.update_picture
  refine ⟨hwidth ▸ h.even, hwidth ▸ h.width, hheight ▸ h.height, h.text, ?_⟩
  have hpicture : picturePixel font fb.update = picturePixel font fb := by
    funext p
    simp only [picturePixel, Fb.backPixel, hbackbuffer, hwidth]
  rw [hpicture]
  exact h.shows

theorem updateScreen_good (h : Good font columns rows s)
    (hfont : font.fontwidth ≤ 8) :
    Good font columns rows (s.updateScreen font) ∧
      ∀ r < rows, ∀ c < columns,
        ((s.updateScreen font).tty.chars
          (r * columns + c)).needSupdate = false := by
  have hrows : ∀ n ≤ rows, Visited font columns rows n 0
      ((List.range n).foldl (fun st row => (List.range columns).foldl
        (fun st col => updateCell font row col st) st) ⟨s, 0, 0⟩) := by
    intro n
    induction n with
    | zero => exact fun _ => ⟨h, rfl, fun r _ c _ hvisited => by omega⟩
    | succ n ih =>
        intro hn
        rw [List.range_succ, List.foldl_append]
        exact (ih (by omega)).updateRow hfont hn
  obtain ⟨hgood, _, hunmarked⟩ := hrows rows le_rfl
  simp only [updateScreen, h.columns_eq, h.rows_eq, Int.toNat_natCast]
  exact ⟨⟨hgood.renders, hgood.hasScroll, hgood.buffer, hgood.drawn.update⟩,
    fun r hr c hc => hunmarked r hr c hc (.inl hr)⟩

theorem clearLines_eq {tty : Vt100tty} {l : TextLayout.Layout (BitVec 8)}
    (h : Vt100tty.Renders columns rows tty l) (n : ℕ) :
    ∃ tty', (List.range n).foldlM (fun (tty : Vt100tty) _ =>
        tty.updateLine tty.currentrow ({ · with needSupdate := false }))
          tty = .ok tty' ∧
      Vt100tty.Renders columns rows tty' l ∧
      tty'.hasScroll = tty.hasScroll ∧ tty'.chars = tty.chars := by
  induction n with
  | zero => exact ⟨tty, rfl, h, rfl, rfl⟩
  | succ n ih =>
      obtain ⟨t, ht, htrenders, htscroll, htchars⟩ := ih
      have hon := htrenders.onScreen
      obtain ⟨u, hu, husame, huchars⟩ := Vt100tty.updateLine_chars (s := t)
        t.currentrow hon.row_nonneg (lt_of_lt_of_eq hon.row_lt hon.height.symm)
        ({ · with needSupdate := false })
      refine ⟨u, ?_, ⟨hon.of_sameCursor husame.toSameCursor, ?_⟩,
        husame.hasScroll.trans htscroll, huchars.trans htchars⟩
      · rw [List.range_succ, List.foldlM_append, ht, ok_bind,
          List.foldlM_cons, hu]
        rfl
      · have hcell : u.cell = t.cell := by
          funext r c
          simp only [Vt100tty.cell, huchars, husame.columns]
        rw [husame.toSameCursor.screen_eq hcell]
        exact htrenders.shows

theorem streamOpFlush_good (h : Good font columns rows s)
    (hfont : font.fontwidth ≤ 8) :
    ∃ s', streamOpFlush font s = .ok s' ∧ Good font columns rows s' ∧
      ∀ r < rows, ∀ c < columns,
        (s'.tty.chars (r * columns + c)).needSupdate = false := by
  obtain ⟨hgood, hunmarked⟩ := updateScreen_good h hfont
  obtain ⟨l, hrenders⟩ := hgood.renders
  obtain ⟨tty, htty, httyrenders, hscroll, hchars⟩ :=
    clearLines_eq hrenders (s.updateScreen font).tty.rows.toNat
  refine ⟨{ s.updateScreen font with tty }, ?_,
    ⟨⟨l, httyrenders⟩, hscroll.trans hgood.hasScroll, hgood.buffer, ?_⟩, ?_⟩
  · simp only [streamOpFlush, htty, ok_bind]
  · simp only [hchars]
    exact hgood.drawn
  · simp only [hchars]
    exact hunmarked

/-! ## Runs -/

theorem step_good (h : Good font columns rows s) (hfont : font.fontwidth ≤ 8)
    {call : Call} (hallowed : call.Allowed) :
    ∃ s', step font s call = .ok s' ∧ Good font columns rows s' := by
  cases call with
  | write data => exact streamOpWrite_good h hallowed
  | flush =>
      obtain ⟨s', hs', hgood, _⟩ := streamOpFlush_good h hfont
      exact ⟨s', hs', hgood⟩

theorem start_good {start tty : Vt100tty} (hcolumns : 0 < columns)
    (hrows : 0 < rows) (hwidth : start.columns = columns)
    (hheight : start.rows = rows) (hrow : start.currentrow = 0)
    (hcolumn : start.currentcolumn = 0) (hscroll : start.hasScroll = true)
    (htty : start.init = .ok tty) (fb : Fb) (heven : fb.width % 2 = 0)
    (hfitWidth : columns * font.fontwidth ≤ fb.width)
    (hfitHeight : rows * font.fontheight ≤ fb.height)
    {buffer : List (BitVec 8)} (hbuffer : 2 ≤ buffer.length) :
    Good font columns rows ⟨tty, fb, buffer⟩ := by
  obtain ⟨t, ht, hrenders⟩ := Vt100tty.init_eq hwidth hheight hcolumns hrows
    hrow hcolumn
  obtain rfl := Except.ok.inj (ht.symm.trans htty)
  obtain ⟨htscroll, htchars⟩ := Vt100tty.init_chars hwidth hheight ht
  refine ⟨⟨_, hrenders⟩, htscroll.trans hscroll, hbuffer, heven, hfitWidth,
    hfitHeight, ?_, ?_⟩
  · intro r hr c hc
    simp only [htchars r c hr hc]
    decide
  · rintro ⟨⟨r, c⟩, p⟩ ⟨⟨hr, hc⟩, _, hfresh⟩
    simp only at hr hc hfresh
    rw [htchars r c hr hc] at hfresh
    cases hfresh

theorem init_good {fb : Fb} (heven : fb.width % 2 = 0)
    (hcolumn : font.fontwidth ≤ fb.width)
    (hrow : font.fontheight ≤ fb.height)
    (hinit : init font fb = .ok (some s)) :
    Good font (fb.width / font.fontwidth) (fb.height / font.fontheight)
      s := by
  have hcolumns : 0 < fb.width / font.fontwidth :=
    Nat.div_pos hcolumn font.fontwidth_pos
  have hrows : 0 < fb.height / font.fontheight :=
    Nat.div_pos hrow font.fontheight_pos
  unfold init at hinit
  simp only [Fb.drawRect, Fb.includeDamage] at hinit
  split at hinit
  next hheld =>
    obtain ⟨tty, htty, hinit⟩ := bind_eq_ok hinit
    obtain rfl := Option.some.inj (Except.ok.inj hinit)
    refine start_good hcolumns hrows rfl rfl rfl rfl rfl htty
      (fb.drawRect fb.width fb.height 0 0 black) heven
      (Nat.div_mul_le_self _ _) (Nat.div_mul_le_self _ _) ?_
    rw [List.length_replicate]
    omega
  next => cases hinit

theorem Good.displayed (h : Good font columns rows s) {r c : ℕ}
    (hr : r < rows) (hc : c < columns)
    (hmark : (s.charOf r c).needSupdate = false) : Displayed font s r c := by
  intro i hi j hj
  rw [charOf, h.columns_eq] at hmark ⊢
  exact h.drawn.shows ((r, c), i, j) ⟨⟨hr, hc⟩, ⟨hi, hj⟩, hmark⟩

/-- In every run the cells which are not marked are displayed, and a flush
leaves every cell unmarked and displayed. -/
theorem grid_displayed (hfont : font.fontwidth ≤ 8) {fb : Fb}
    (heven : fb.width % 2 = 0) (hcolumn : font.fontwidth ≤ fb.width)
    (hrow : font.fontheight ≤ fb.height) {s : Fbtty}
    (hinit : init font fb = .ok (some s)) {calls : List Call}
    (hallowed : ∀ call ∈ calls, call.Allowed) :
    ∃ s', run (step font) s calls = .ok s' ∧
      (∀ r < fb.height / font.fontheight, ∀ c < fb.width / font.fontwidth,
        (s'.charOf r c).needSupdate = false → Displayed font s' r c) ∧
      ∃ s'', s'.streamOpFlush font = .ok s'' ∧
        ∀ r < fb.height / font.fontheight, ∀ c < fb.width / font.fontwidth,
          (s''.charOf r c).needSupdate = false ∧ Displayed font s'' r c := by
  have hadmitted : ∀ {s : Fbtty}, Admitted (fun _ call => call.Allowed)
      (step font) s calls := by
    intro s
    induction calls generalizing s with
    | nil => exact trivial
    | cons call rest ih =>
        obtain ⟨hcall, hrest⟩ := List.forall_mem_cons.1 hallowed
        exact ⟨hcall, fun _ _ => ih hrest⟩
  obtain ⟨s', hs', hgood⟩ := run_ok_of_progress
    (fun s call (h : Good font _ _ s) hcall => step_good h hfont hcall)
    (init_good heven hcolumn hrow hinit) hadmitted
  obtain ⟨s'', hs'', hgood', hunmarked⟩ := streamOpFlush_good hgood hfont
  refine ⟨s', hs', fun r hr c hc => hgood.displayed hr hc, s'', hs'',
    fun r hr c hc => ?_⟩
  have hmark : (s''.charOf r c).needSupdate = false := by
    rw [charOf, hgood'.columns_eq]
    exact hunmarked r hr c hc
  exact ⟨hmark, hgood'.displayed hr hc hmark⟩

/-- More lines than there are rows are written to a screen of two columns and
three rows. -/
theorem smallScreen_grid :
    ∃ s, init Fb.blockFont Fb.smallScreen = .ok (some s) ∧
      ∃ s', run (step Fb.blockFont) s [.write [0x41, 0x0a, 0x42, 0x43],
          .flush, .write [0x44, 0x0a, 0x0a, 0x45]] = .ok s' ∧
        (∀ r < 3, ∀ c < 2, (s'.charOf r c).needSupdate = false →
          Displayed Fb.blockFont s' r c) ∧
        ∃ s'', s'.streamOpFlush Fb.blockFont = .ok s'' ∧
          ∀ r < 3, ∀ c < 2, (s''.charOf r c).needSupdate = false ∧
            Displayed Fb.blockFont s'' r c := by
  obtain ⟨s, hs⟩ : ∃ s, init Fb.blockFont Fb.smallScreen = .ok (some s) :=
    ⟨_, rfl⟩
  exact ⟨s, hs, grid_displayed (by decide) (by decide) (by decide)
    (by decide) hs (by decide)⟩

end Fbtty
end Yjkos
