import Yjkos.Vt100tty

/-!
# The VGA text console

The output path of `kernel/arch/i586/vgatty.c`.  Its dimensions are of type
`size_t` and its cursor of type `uint16_t`.  Together with the VT100 terminal
it is compared to the layout of the text.
-/

namespace Yjkos
namespace Console

open TextLayout

structure VgaChr where
  chr : BitVec 8
  attr : BitVec 8
deriving DecidableEq

structure Vgatty where
  chars : ℕ → VgaChr
  totalcolumns : ℕ
  totalrows : ℕ
  currentcolumn : ℕ
  currentrow : ℕ

namespace Vgatty

/-- Conversion to `uint16_t`. -/
def toUint16 (x : ℕ) : ℕ := x % 65536

def writeCharAt (s : Vgatty) (row col : ℕ) (c : BitVec 8) : Vgatty :=
  let i := wrap (row * s.totalcolumns + col)
  { s with chars := Function.update s.chars i { s.chars i with chr := c } }

/-- `vmemcpy` of `count` characters. -/
def copyChars (s : Vgatty) (dest src count : ℕ) : Vgatty :=
  { s with chars := fun i =>
      if dest ≤ i ∧ i < dest + count then s.chars (src + (i - dest))
      else s.chars i }

/-- The body of the loop over the lines in `advance_line`. -/
def scrollLine (s : Vgatty) (srcLine : ℕ) : Vgatty :=
  let destLine := srcLine - 1
  s.copyChars (wrap (destLine * s.totalcolumns))
    (wrap (srcLine * s.totalcolumns)) s.totalcolumns

/-- The body of the `while` loop of `advance_line`. -/
def scrollUp (s : Vgatty) : Vgatty :=
  let s := (List.range (s.totalrows - 1)).foldl
    (fun (s : Vgatty) (i : ℕ) => s.scrollLine (i + 1)) s
  let s := { s with currentrow := toUint16 (s.currentrow + 65535) }
  if s.currentrow < s.totalrows then
    (List.range s.totalcolumns).foldl (fun (s : Vgatty) (i : ℕ) =>
      s.writeCharAt s.currentrow (toUint16 i) 0x20#8) s
  else s

def scrollWhileBelow : ℕ → Vgatty → Except Fault Vgatty
  | 0, _ => .error .outOfFuel
  | fuel + 1, s =>
      if s.totalrows ≤ s.currentrow then scrollWhileBelow fuel s.scrollUp
      else .ok s

def advanceLine (s : Vgatty) : Except Fault Vgatty :=
  let s :=
    { s with currentcolumn := 0, currentrow := toUint16 (s.currentrow + 1) }
  scrollWhileBelow (s.currentrow + 2) s

def writeChar (s : Vgatty) (chr : BitVec 8) : Except Fault Vgatty :=
  if chr = 10#8 then s.advanceLine
  else if chr = 13#8 then .ok { s with currentcolumn := 0 }
  else do
    let s ← if s.totalcolumns ≤ s.currentcolumn then s.advanceLine else .ok s
    let s := s.writeCharAt s.currentrow s.currentcolumn chr
    .ok { s with currentcolumn := toUint16 (s.currentcolumn + 1) }

/-- The number of bytes, which is returned, is the size of the chunk. -/
def streamOpWrite (s : Vgatty) (data : List (BitVec 8)) :
    Except Fault Vgatty := do
  cAssert (data.length ≤ maxTransferSize) "size <= STREAM_MAX_TRANSFER_SIZE"
  data.foldlM writeChar s

/-- The chunks which are written one after the other. -/
def writeChunks (s : Vgatty) (chunks : List (List (BitVec 8))) :
    Except Fault Vgatty :=
  chunks.foldlM streamOpWrite s

/-- The character in a cell. -/
def cell (s : Vgatty) (r c : ℕ) : BitVec 8 :=
  (s.chars (r * s.totalcolumns + c)).chr

def screen (s : Vgatty) : Screen (BitVec 8) :=
  ⟨s.cell, s.currentrow, s.currentcolumn⟩

/-- The cursor is on the screen, or behind the last column of a row. -/
structure OnScreen (columns rows : ℕ) (s : Vgatty) : Prop where
  width : s.totalcolumns = columns
  height : s.totalrows = rows
  columns_pos : 0 < columns
  rows_pos : 0 < rows
  columns_lt : columns < 65536
  rows_lt : rows < 65536
  column_le : s.currentcolumn ≤ columns
  row_lt : s.currentrow < rows

theorem inRow_iff {width row d column : ℕ} (hlt : column < width) :
    d * width ≤ row * width + column ∧
      row * width + column < d * width + width ↔ row = d := by
  have h := Vt100tty.inRow_iff row d (Int.natCast_nonneg column)
    (Int.ofNat_lt.2 hlt)
  exact_mod_cast h

theorem index_lt {columns rows r c : ℕ} (hcolumns : columns < 65536)
    (hrows : rows < 65536) (hr : r < rows) (hc : c ≤ columns) :
    r * columns + c < 4294967296 := by
  have hmul : (r + 1) * columns ≤ 65535 * 65535 :=
    Nat.mul_le_mul (by omega) (by omega)
  rw [add_mul] at hmul
  omega

/-- Nothing but the characters differs. -/
structure SameCursor (s s' : Vgatty) : Prop where
  width : s'.totalcolumns = s.totalcolumns
  height : s'.totalrows = s.totalrows
  currentcolumn : s'.currentcolumn = s.currentcolumn
  currentrow : s'.currentrow = s.currentrow

theorem SameCursor.refl (s : Vgatty) : SameCursor s s := ⟨rfl, rfl, rfl, rfl⟩

theorem SameCursor.trans {s t u : Vgatty} (hst : SameCursor s t)
    (htu : SameCursor t u) : SameCursor s u :=
  ⟨htu.width.trans hst.width, htu.height.trans hst.height,
    htu.currentcolumn.trans hst.currentcolumn,
    htu.currentrow.trans hst.currentrow⟩

section Cells

variable {s : Vgatty} {columns rows : ℕ}

theorem toUint16_of_lt {x : ℕ} (hx : x < 65536) : toUint16 x = x :=
  Nat.mod_eq_of_lt hx

theorem cell_writeCharAt (hwidth : s.totalcolumns = columns)
    (hcolumns : columns < 65536) (hrows : rows < 65536) {row col : ℕ}
    (hrow : row < rows) (hcol : col < columns) (x : BitVec 8) {r c : ℕ}
    (hc : c < columns) :
    (s.writeCharAt row col x).cell r c =
      if r = row ∧ c = col then x else s.cell r c := by
  subst hwidth
  have hi : wrap (row * s.totalcolumns + col) = row * s.totalcolumns + col :=
    wrap_of_lt (index_lt hcolumns hrows hrow hcol.le)
  have hiff : r * s.totalcolumns + c = row * s.totalcolumns + col ↔
      r = row ∧ c = col := by
    constructor
    · intro heq
      have hsame : r = row := (inRow_iff hc).1 (by omega)
      subst hsame
      omega
    · rintro ⟨rfl, rfl⟩
      rfl
  simp only [cell, writeCharAt, hi, Function.update_apply, hiff]
  split <;> rfl

theorem cell_scrollLine (hwidth : s.totalcolumns = columns)
    (hcolumns : columns < 65536) (hrows : rows < 65536) {k r c : ℕ}
    (hk : k + 1 < rows) (hc : c < columns) :
    (s.scrollLine (k + 1)).cell r c =
      if r = k then s.cell (r + 1) c else s.cell r c := by
  subst hwidth
  have hdest : wrap (k * s.totalcolumns) = k * s.totalcolumns :=
    wrap_of_lt (index_lt hcolumns hrows (r := k) (c := 0) (by omega)
      (Nat.zero_le _))
  have hsrc : wrap ((k + 1) * s.totalcolumns) = (k + 1) * s.totalcolumns :=
    wrap_of_lt (index_lt hcolumns hrows (c := 0) hk (Nat.zero_le _))
  simp only [cell, scrollLine, copyChars, Nat.add_sub_cancel, hdest, hsrc,
    inRow_iff hc]
  split
  next heq =>
    rw [heq, add_mul, one_mul]
    congr 2
    omega
  next => rfl

theorem scrollLines_eq (hwidth : s.totalcolumns = columns)
    (hcolumns : columns < 65536) (hrows : rows < 65536) {n : ℕ}
    (hn : n < rows) {t : Vgatty}
    (ht : (List.range n).foldl
      (fun (s : Vgatty) (i : ℕ) => s.scrollLine (i + 1)) s = t) :
    SameCursor s t ∧ ∀ r c, c < columns →
      t.cell r c = if r < n then s.cell (r + 1) c else s.cell r c := by
  induction n generalizing t with
  | zero => exact ht ▸ ⟨SameCursor.refl s, fun _ _ _ => rfl⟩
  | succ n ih =>
      obtain ⟨hsame, hcell⟩ := ih (by omega) rfl
      rw [List.range_succ, List.foldl_append] at ht
      generalize (List.range n).foldl
        (fun (s : Vgatty) (i : ℕ) => s.scrollLine (i + 1)) s = u
        at ht hsame hcell
      subst ht
      refine ⟨hsame.trans ⟨rfl, rfl, rfl, rfl⟩, ?_⟩
      intro r c hc
      have hlast := cell_scrollLine (s := u) (hsame.width.trans hwidth)
        hcolumns hrows (r := r) hn hc
      rw [hcell r c hc, hcell (r + 1) c hc] at hlast
      simp only [List.foldl_cons, List.foldl_nil, hlast]
      rcases lt_trichotomy r n with hlt | heq | hgt
      · rw [if_neg (by omega), if_pos hlt, if_pos (by omega)]
      · rw [if_pos heq, if_neg (by omega), if_pos (by omega)]
      · rw [if_neg (by omega), if_neg (by omega), if_neg (by omega)]

theorem clearRow_eq (hwidth : s.totalcolumns = columns)
    (hcolumns : columns < 65536) (hrows : rows < 65536)
    (hrow : s.currentrow < rows) {n : ℕ} (hn : n ≤ columns) {t : Vgatty}
    (ht : (List.range n).foldl (fun (s : Vgatty) (i : ℕ) =>
      s.writeCharAt s.currentrow (toUint16 i) 0x20#8) s = t) :
    SameCursor s t ∧ ∀ r c, c < columns → t.cell r c =
      if r = s.currentrow ∧ c < n then 0x20#8 else s.cell r c := by
  induction n generalizing t with
  | zero => exact ht ▸ ⟨SameCursor.refl s, fun _ _ _ => by simp⟩
  | succ n ih =>
      obtain ⟨hsame, hcell⟩ := ih (by omega) rfl
      rw [List.range_succ, List.foldl_append] at ht
      generalize (List.range n).foldl (fun (s : Vgatty) (i : ℕ) =>
        s.writeCharAt s.currentrow (toUint16 i) 0x20#8) s = u
        at ht hsame hcell
      subst ht
      refine ⟨hsame.trans ⟨rfl, rfl, rfl, rfl⟩, ?_⟩
      intro r c hc
      have hlast := cell_writeCharAt (s := u) (hsame.width.trans hwidth)
        hcolumns hrows (hsame.currentrow.trans_lt hrow) hn 0x20#8 (r := r) hc
      rw [hcell r c hc, hsame.currentrow] at hlast
      simp only [List.foldl_cons, List.foldl_nil,
        toUint16_of_lt (show n < 65536 by omega), hsame.currentrow, hlast]
      grind

theorem scrollUp_eq (hwidth : s.totalcolumns = columns)
    (hheight : s.totalrows = rows) (hcolumns : columns < 65536)
    (hrows : rows < 65536) (hpos : 0 < rows) (hrow : s.currentrow = rows)
    {t : Vgatty} (ht : s.scrollUp = t) :
    t.totalcolumns = columns ∧ t.totalrows = rows ∧
      t.currentrow = rows - 1 ∧ t.currentcolumn = s.currentcolumn ∧
      ∀ r c, r < rows → c < columns → t.cell r c =
        if r = rows - 1 then 0x20#8 else s.cell (r + 1) c := by
  simp only [scrollUp, hheight] at ht
  generalize hmoved : (List.range (rows - 1)).foldl
    (fun (s : Vgatty) (i : ℕ) => s.scrollLine (i + 1)) s = u at ht
  obtain ⟨hsame, hcell⟩ :=
    scrollLines_eq hwidth hcolumns hrows (by omega) hmoved
  have hback : toUint16 (u.currentrow + 65535) = rows - 1 := by
    rw [hsame.currentrow, hrow]
    unfold toUint16
    omega
  rw [hback, if_pos (by rw [hsame.height, hheight]; omega)] at ht
  obtain ⟨htsame, htcell⟩ := clearRow_eq
    (s := { u with currentrow := rows - 1 }) (hsame.width.trans hwidth)
    hcolumns hrows (show rows - 1 < rows by omega)
    (hsame.width.trans hwidth).le ht
  refine ⟨htsame.width.trans (hsame.width.trans hwidth),
    htsame.height.trans (hsame.height.trans hheight), htsame.currentrow,
    htsame.currentcolumn.trans hsame.currentcolumn, ?_⟩
  intro r c hr hc
  have hwithin : c < u.totalcolumns := by
    rw [hsame.width, hwidth]
    exact hc
  have hcleared := htcell r c hc
  simp only [hwithin, and_true] at hcleared
  rw [hcleared]
  split
  next => rfl
  next hne =>
    have hup := hcell r c hc
    rw [if_pos (by omega)] at hup
    exact hup

theorem scrollWhileBelow_stop {fuel : ℕ} (hrow : s.currentrow < s.totalrows) :
    scrollWhileBelow (fuel + 1) s = .ok s := if_neg (by omega)

theorem scrollWhileBelow_once {fuel : ℕ}
    (hrow : s.totalrows ≤ s.currentrow)
    (hrow' : s.scrollUp.currentrow < s.scrollUp.totalrows) :
    scrollWhileBelow (fuel + 2) s = .ok s.scrollUp := by
  rw [scrollWhileBelow, if_pos hrow, scrollWhileBelow_stop hrow']

theorem advanceLine_eq (h : OnScreen columns rows s) :
    ∃ s', s.advanceLine = .ok s' ∧ OnScreen columns rows s' ∧
      Advances columns rows 0x20#8 s.screen s'.screen := by
  have hrows := h.rows_lt
  have hrow := h.row_lt
  have hheight := h.height
  simp only [advanceLine, toUint16_of_lt (show s.currentrow + 1 < 65536 by
    omega)]
  generalize ht : ({ s with
    currentcolumn := 0, currentrow := s.currentrow + 1 } : Vgatty) = t
  obtain ⟨hwidth, htheight, htcolumn, htrow, htcell⟩ :
      t.totalcolumns = columns ∧ t.totalrows = rows ∧
      t.currentcolumn = 0 ∧ t.currentrow = s.currentrow + 1 ∧
      t.cell = s.cell := ht ▸ ⟨h.width, hheight, rfl, rfl, rfl⟩
  rcases Nat.lt_or_ge (s.currentrow + 1) rows with hroom | hfull
  · refine ⟨t, scrollWhileBelow_stop (by omega),
      ⟨hwidth, htheight, h.columns_pos, h.rows_pos, h.columns_lt, h.rows_lt,
        by omega, by omega⟩, ?_⟩
    constructor
    · intro _ r c _ _
      exact congrFun (congrFun htcell r) c
    · intro hlast
      exact absurd hlast (not_le.2 hroom)
    · intro hlast
      exact absurd hlast (not_le.2 hroom)
    · simp only [screen]
      omega
    · exact htcolumn
  · obtain ⟨u, hup⟩ : ∃ u, t.scrollUp = u := ⟨_, rfl⟩
    obtain ⟨hwidth', hheight', hrow', hcolumn', hcell'⟩ := scrollUp_eq hwidth
      htheight h.columns_lt hrows h.rows_pos (by omega) hup
    have hpos := h.rows_pos
    have honce : scrollWhileBelow (s.currentrow + 1 + 2) t = .ok u := by
      rw [scrollWhileBelow_once (by omega) (by rw [hup]; omega), hup]
    refine ⟨u, honce,
      ⟨hwidth', hheight', h.columns_pos, h.rows_pos, h.columns_lt, h.rows_lt,
        by omega, by omega⟩, ?_⟩
    constructor
    · intro hroom
      exact absurd hroom (not_lt.2 hfull)
    · intro _ r c hr hc
      have hmoved := hcell' r c (by omega) hc
      rw [if_neg (by omega), htcell] at hmoved
      exact hmoved
    · intro _ c hc
      have hcleared := hcell' (rows - 1) c (by omega) hc
      rw [if_pos rfl] at hcleared
      exact hcleared
    · simp only [screen]
      omega
    · exact hcolumn'.trans htcolumn

theorem writeChar_type (h : OnScreen columns rows s)
    (hroom : s.currentcolumn < columns) {byte : BitVec 8}
    (hnewline : byte ≠ 10#8) (hreturn : byte ≠ 13#8) :
    ∃ s', s.writeChar byte = .ok s' ∧ OnScreen columns rows s' ∧
      Types columns rows byte s.screen s'.screen := by
  have hcolumns := h.columns_lt
  have hguard : ¬ s.totalcolumns ≤ s.currentcolumn := by
    rw [h.width]
    omega
  have hnext : toUint16 (s.currentcolumn + 1) = s.currentcolumn + 1 :=
    toUint16_of_lt (by omega)
  refine ⟨{ s.writeCharAt s.currentrow s.currentcolumn byte with
    currentcolumn := s.currentcolumn + 1 }, ?_, ?_, ?_⟩
  · rw [writeChar, if_neg hnewline, if_neg hreturn, if_neg hguard, ok_bind]
    exact congrArg
      (fun column => Except.ok
        { s.writeCharAt s.currentrow s.currentcolumn byte with
          currentcolumn := column }) hnext
  · exact ⟨h.width, h.height, h.columns_pos, h.rows_pos, h.columns_lt,
      h.rows_lt, hroom, h.row_lt⟩
  · constructor
    · intro r c _ hc
      exact cell_writeCharAt h.width hcolumns h.rows_lt h.row_lt hroom byte hc
    · rfl
    · rfl

theorem writeChar_wrap (hfull : s.totalcolumns ≤ s.currentcolumn)
    {chr : BitVec 8} (hnewline : chr ≠ 10#8) (hreturn : chr ≠ 13#8)
    {t : Vgatty} (ht : s.advanceLine = .ok t)
    (hroom : t.currentcolumn < t.totalcolumns) :
    s.writeChar chr = t.writeChar chr := by
  simp only [writeChar, if_neg hnewline, if_neg hreturn, if_pos hfull, ht,
    if_neg (not_le.2 hroom)]

theorem writeChar_eq (h : OnScreen columns rows s)
    {l : Layout (BitVec 8)} (hshows : Shows columns rows 0x20#8 s.screen l)
    (byte : BitVec 8) :
    ∃ s', s.writeChar byte = .ok s' ∧ OnScreen columns rows s' ∧
      Shows columns rows 0x20#8 s'.screen (l.put columns (symbol byte)) := by
  have hrows := h.rows_pos
  have hcolumn : s.currentcolumn = l.column := hshows.column
  by_cases hnewline : byte = 10#8
  · subst hnewline
    obtain ⟨t, ht, hton, hadvances⟩ := advanceLine_eq h
    exact ⟨t, ht, hton, hshows.advance hrows hadvances⟩
  by_cases hreturn : byte = 13#8
  · subst hreturn
    exact ⟨{ s with currentcolumn := 0 }, rfl,
      ⟨h.width, h.height, h.columns_pos, h.rows_pos, h.columns_lt, h.rows_lt,
        Nat.zero_le _, h.row_lt⟩, hshows.carriageReturn⟩
  simp only [symbol, if_neg hnewline, if_neg hreturn, Layout.put]
  rcases Nat.lt_or_ge s.currentcolumn columns with hroom | hfull
  · obtain ⟨t, ht, hton, htypes⟩ := writeChar_type h hroom hnewline hreturn
    rw [if_neg (by omega)]
    exact ⟨t, ht, hton, hshows.type hrows htypes⟩
  · obtain ⟨t, ht, hton, hadvances⟩ := advanceLine_eq h
    have hzero : t.currentcolumn = 0 := hadvances.column
    have hroom : t.currentcolumn < columns := hzero ▸ h.columns_pos
    obtain ⟨u, hu, huon, htypes⟩ :=
      writeChar_type hton hroom hnewline hreturn
    rw [if_pos (by omega), writeChar_wrap (h.width ▸ hfull) hnewline hreturn
      ht (hton.width ▸ hroom)]
    exact ⟨u, hu, huon, (hshows.advance hrows hadvances).type hrows htypes⟩

/-- The console shows the layout, with its cursor where the layout has it. -/
structure Renders (columns rows : ℕ) (s : Vgatty) (l : Layout (BitVec 8)) :
    Prop where
  onScreen : OnScreen columns rows s
  shows : Shows columns rows 0x20#8 s.screen l

theorem streamOpWrite_eq {l : Layout (BitVec 8)}
    (h : Renders columns rows s l) {data : List (BitVec 8)}
    (hsize : data.length ≤ maxTransferSize) :
    ∃ s', s.streamOpWrite data = .ok s' ∧
      Renders columns rows s'
        ((data.map symbol).foldl (Layout.put columns) l) := by
  simp only [streamOpWrite, hsize, decide_true, cAssert_true, ok_bind,
    List.foldl_map]
  refine foldlM_follows (P := fun _ => True) ?_ h (fun _ _ => trivial)
  intro s l byte _ h
  obtain ⟨t, ht, hton, htshows⟩ := writeChar_eq h.onScreen h.shows byte
  exact ⟨t, ht, hton, htshows⟩

theorem writeChunks_eq {l : Layout (BitVec 8)}
    (h : Renders columns rows s l) {chunks : List (List (BitVec 8))}
    (hsize : ∀ data ∈ chunks, data.length ≤ maxTransferSize) :
    ∃ s', s.writeChunks chunks = .ok s' ∧
      Renders columns rows s'
        ((chunks.flatten.map symbol).foldl (Layout.put columns) l) := by
  rw [List.foldl_map, List.foldl_flatten]
  refine foldlM_follows ?_ h hsize
  intro s l data hdata h
  rw [← List.foldl_map]
  exact streamOpWrite_eq h hdata

end Cells

end Vgatty

/-- The last `rows` lines of what has been written are in the cells of both
consoles, and their cursors are where it ends. -/
theorem consoles_show_layout {columns rows : ℕ} (hcolumns : 1 ≤ columns)
    (hcolumns' : columns ≤ 65535) (hrows : 1 ≤ rows) (hrows' : rows ≤ 65535)
    {tty : Vt100tty} (httywidth : tty.columns = columns)
    (httyheight : tty.rows = rows) (httycolumn : tty.currentcolumn = 0)
    (httyrow : tty.currentrow = 0) {vga : Vgatty}
    (hvgawidth : vga.totalcolumns = columns)
    (hvgaheight : vga.totalrows = rows) (hvgacolumn : vga.currentcolumn = 0)
    (hvgarow : vga.currentrow = 0)
    (hblank : ∀ r c, r < rows → c < columns → vga.cell r c = 0x20#8)
    {ttyChunks vgaChunks : List (List (BitVec 8))}
    (httysize : ∀ data ∈ ttyChunks, data.length ≤ maxTransferSize)
    (hvgasize : ∀ data ∈ vgaChunks, data.length ≤ maxTransferSize)
    (hsame : vgaChunks.flatten = ttyChunks.flatten) :
    ∃ (l : Layout (BitVec 8)) (tty' : Vt100tty) (vga' : Vgatty),
      l = Layout.ofText columns (ttyChunks.flatten.map symbol) ∧
      (do
        let tty ← tty.init
        tty.writeChunks ttyChunks) = .ok tty' ∧
      vga.writeChunks vgaChunks = .ok vga' ∧
      tty'.currentrow = l.cursorRow rows ∧ tty'.currentcolumn = l.column ∧
      vga'.currentrow = l.cursorRow rows ∧ vga'.currentcolumn = l.column ∧
      ∀ r c, r < rows → c < columns →
        tty'.cell r c = l.shown rows 0x20#8 r c ∧
        vga'.cell r c = l.shown rows 0x20#8 r c := by
  obtain ⟨new, hnew, hnewRenders⟩ :=
    Vt100tty.init_eq httywidth httyheight hcolumns hrows httyrow httycolumn
  obtain ⟨tty', htty', hton, htshows⟩ :=
    Vt100tty.writeChunks_eq hnewRenders httysize
  have hvgaRenders : Vgatty.Renders columns rows vga Layout.empty :=
    ⟨⟨hvgawidth, hvgaheight, hcolumns, hrows, Nat.lt_succ_of_le hcolumns',
      Nat.lt_succ_of_le hrows', hvgacolumn ▸ Nat.zero_le _, hvgarow ▸ hrows⟩,
      Shows.empty hblank hvgarow hvgacolumn⟩
  obtain ⟨vga', hvga', hvon, hvshows⟩ :=
    Vgatty.writeChunks_eq hvgaRenders hvgasize
  rw [hsame] at hvshows
  have htrow : tty'.currentrow.toNat = _ := htshows.row
  have htcolumn : tty'.currentcolumn.toNat = _ := htshows.column
  refine ⟨_, tty', vga', rfl, ?_, hvga', ?_, ?_, hvshows.row, hvshows.column,
    ?_⟩
  · rw [hnew, ok_bind, htty']
  · rw [← Int.toNat_of_nonneg hton.row_nonneg, htrow]
    rfl
  · rw [← Int.toNat_of_nonneg hton.column_nonneg, htcolumn]
    rfl
  · intro r c hr hc
    exact ⟨htshows.cells r c hr hc, hvshows.cells r c hr hc⟩

/-- A terminal of three columns and two rows. -/
def smallTty : Vt100tty where
  lineinfos := fun _ => ⟨false, false⟩
  chars := fun _ => ⟨0#8, false⟩
  hasScroll := true
  columns := 3
  rows := 2
  currentcolumn := 0
  currentrow := 0
  scrollCalls := 0
  held := by decide

/-- `abcd`, a return, `e`, a line break and `f`: the first line is gone. -/
theorem small_consoles_scroll :
    ∃ (tty' : Vt100tty) (vga' : Vgatty),
      (do
        let tty ← smallTty.init
        tty.writeChunks [[0x61#8, 0x62#8, 0x63#8],
          [0x64#8, 13#8, 0x65#8, 10#8, 0x66#8]]) = .ok tty' ∧
      (Vgatty.mk (fun _ => ⟨0x20#8, 7#8⟩) 3 2 0 0).writeChunks
        [[0x61#8, 0x62#8, 0x63#8, 0x64#8, 13#8, 0x65#8, 10#8, 0x66#8]] =
        .ok vga' ∧
      tty'.currentrow = 1 ∧ tty'.currentcolumn = 1 ∧
      tty'.cell 0 0 = 0x65#8 ∧ tty'.cell 0 1 = 0x20#8 ∧
      vga'.cell 1 0 = 0x66#8 := by
  obtain ⟨l, tty', vga', hl, htty', hvga', hrow, hcolumn, _, _, hcells⟩ :=
    @consoles_show_layout 3 2 (by decide) (by decide) (by decide) (by decide)
      smallTty rfl rfl rfl rfl ⟨fun _ => ⟨0x20#8, 7#8⟩, 3, 2, 0, 0⟩ rfl rfl
      rfl rfl (fun _ _ _ _ => rfl)
      [[0x61#8, 0x62#8, 0x63#8], [0x64#8, 13#8, 0x65#8, 10#8, 0x66#8]]
      [[0x61#8, 0x62#8, 0x63#8, 0x64#8, 13#8, 0x65#8, 10#8, 0x66#8]]
      (by decide) (by decide) (by decide)
  subst hl
  refine ⟨tty', vga', htty', hvga', hrow, hcolumn, ?_, ?_, ?_⟩
  · exact (hcells 0 0 (by decide) (by decide)).1.trans (by decide)
  · exact (hcells 0 1 (by decide) (by decide)).1.trans (by decide)
  · exact (hcells 1 0 (by decide) (by decide)).2.trans (by decide)

end Console
end Yjkos
