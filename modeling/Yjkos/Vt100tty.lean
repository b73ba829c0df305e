import Yjkos.Machine
import Yjkos.TextLayout

/-!
# The VT100 terminal

The output path of `kernel/io/vt100tty.c`.  An `int` of the source is an
integer, and the arrays `chars` and `lineinfos` are functions of the index.
The driver's `scroll` operation moves the picture and leaves the terminal
alone, so only its calls are counted.
-/

namespace Yjkos
namespace Console

open TextLayout

/-- `STREAM_MAX_TRANSFER_SIZE`, which the assertion on a write names. -/
def maxTransferSize : ℕ := 0x7fffffff

/-- What a byte of the output stands for. -/
def symbol (byte : BitVec 8) : Symbol (BitVec 8) :=
  if byte = 10#8 then .newline
  else if byte = 13#8 then .carriageReturn
  else .glyph byte

structure Vt100ttyChar where
  chr : BitVec 8
  needSupdate : Bool
deriving DecidableEq

structure Vt100ttyLineInfo where
  isContinuation : Bool
  needSupdate : Bool
deriving DecidableEq

/-- `hasScroll` says whether the optional operation is there.  The caller's
array holds `columns * rows` items of two bytes. -/
structure Vt100tty where
  lineinfos : ℤ → Vt100ttyLineInfo
  chars : ℤ → Vt100ttyChar
  hasScroll : Bool
  columns : ℤ
  rows : ℤ
  currentcolumn : ℤ
  currentrow : ℤ
  scrollCalls : ℕ
  held : 2 * (columns * rows) ≤ 4294967296

namespace Vt100tty

/-- The index of the character which the source takes the address of. -/
def charAt (s : Vt100tty) (row column : ℤ) : Except Fault ℤ := do
  cAssert (0 ≤ row) "0 <= row"
  cAssert (0 ≤ column) "0 <= column"
  cAssert (row < s.rows) "row < self->rows"
  cAssert (column < s.columns) "column < self->columns"
  .ok (row * s.columns + column)

/-- An assignment to each of `count` characters. -/
def updateChars (s : Vt100tty) (first count : ℤ)
    (f : Vt100ttyChar → Vt100ttyChar) : Vt100tty :=
  { s with chars := fun i =>
      if first ≤ i ∧ i < first + count then f (s.chars i) else s.chars i }

/-- `vmemcpy` of `count` characters. -/
def copyChars (s : Vt100tty) (dest src count : ℤ) : Vt100tty :=
  { s with chars := fun i =>
      if dest ≤ i ∧ i < dest + count then s.chars (src + (i - dest))
      else s.chars i }

/-- An assignment to a member of `lineinfos[row]`. -/
def updateLine (s : Vt100tty) (row : ℤ)
    (f : Vt100ttyLineInfo → Vt100ttyLineInfo) : Except Fault Vt100tty :=
  if 0 ≤ row ∧ row < s.rows then
    .ok { s with
      lineinfos := Function.update s.lineinfos row (f (s.lineinfos row)) }
  else .error .outOfBounds

/-- Both rows have to be drawn again by a driver which cannot scroll. -/
def markRows (s : Vt100tty) (dest src : ℤ) : Vt100tty :=
  if s.hasScroll then s
  else
    let s := s.updateChars dest s.columns ({ · with needSupdate := true })
    s.updateChars src s.columns ({ · with needSupdate := true })

/-- The body of the loop over the lines in `advanceline`. -/
def scrollLine (s : Vt100tty) (srcline : ℤ) : Except Fault Vt100tty := do
  let destline := srcline - 1
  let dest ← s.charAt destline 0
  let src ← s.charAt srcline 0
  let s := s.copyChars dest src s.columns
  let s := s.markRows dest src
  let isContinuation := (s.lineinfos srcline).isContinuation
  let s ← s.updateLine destline ({ · with isContinuation := isContinuation })
  if s.hasScroll then .ok s
  else s.updateLine destline ({ · with needSupdate := true })

/-- The body of the `while` loop of `advanceline`. -/
def scrollUp (s : Vt100tty) : Except Fault Vt100tty := do
  let s ← (List.range (s.rows - 1).toNat).foldlM
    (fun (s : Vt100tty) (i : ℕ) => s.scrollLine (i + 1)) s
  let s := { s with currentrow := s.currentrow - 1 }
  let s :=
    if s.hasScroll then { s with scrollCalls := s.scrollCalls + 1 } else s
  if s.currentrow < s.rows then
    let dest ← s.charAt s.currentrow 0
    let s := s.updateChars dest s.columns (fun _ => ⟨0x20#8, true⟩)
    s.updateLine s.currentrow ({ · with needSupdate := true })
  else .ok s

def scrollWhileBelow : ℕ → Vt100tty → Except Fault Vt100tty
  | 0, _ => .error .outOfFuel
  | fuel + 1, s =>
      if s.rows ≤ s.currentrow then do
        let s ← s.scrollUp
        scrollWhileBelow fuel s
      else .ok s

def advanceline (s : Vt100tty) (wastextoverflow : Bool) :
    Except Fault Vt100tty := do
  let s := { s with currentcolumn := 0, currentrow := s.currentrow + 1 }
  let s ← scrollWhileBelow ((s.currentrow - s.rows).toNat + 2) s
  let s ← s.updateLine 0 ({ · with isContinuation := false })
  s.updateLine s.currentrow ({ · with isContinuation := wastextoverflow })

def writeChar (s : Vt100tty) (chr : ℤ) : Except Fault Vt100tty :=
  if chr = 10 then s.advanceline false
  else if chr = 13 then .ok { s with currentcolumn := 0 }
  else do
    let s ← if s.columns ≤ s.currentcolumn then s.advanceline true else .ok s
    let dest ← s.charAt s.currentrow s.currentcolumn
    let s := s.updateChars dest 1 (fun _ => ⟨BitVec.ofInt 8 chr, true⟩)
    let s ← s.updateLine s.currentrow ({ · with needSupdate := true })
    .ok { s with currentcolumn := s.currentcolumn + 1 }

/-- The number of bytes, which is returned, is the size of the chunk. -/
def streamOpWrite (s : Vt100tty) (data : List (BitVec 8)) :
    Except Fault Vt100tty := do
  cAssert (data.length ≤ maxTransferSize) "size <= STREAM_MAX_TRANSFER_SIZE"
  data.foldlM (fun s byte => s.writeChar byte.toNat) s

/-- The chunks which are written one after the other. -/
def writeChunks (s : Vt100tty) (chunks : List (List (BitVec 8))) :
    Except Fault Vt100tty :=
  chunks.foldlM streamOpWrite s

/-- The loops of `vt100tty_init`. -/
def init (s : Vt100tty) : Except Fault Vt100tty :=
  (List.range s.rows.toNat).foldlM (fun (s : Vt100tty) (r : ℕ) => do
    let s ← (List.range s.columns.toNat).foldlM
      (fun (s : Vt100tty) (c : ℕ) => do
        let dest ← s.charAt r c
        .ok (s.updateChars dest 1 (fun _ => ⟨0x20#8, true⟩))) s
    s.updateLine r ({ · with needSupdate := true })) s

/-- The character in a cell. -/
def cell (s : Vt100tty) (r c : ℕ) : BitVec 8 :=
  (s.chars (r * s.columns + c)).chr

def screen (s : Vt100tty) : Screen (BitVec 8) :=
  ⟨s.cell, s.currentrow.toNat, s.currentcolumn.toNat⟩

/-- The shape of a terminal stays, whatever is done to its contents. -/
structure SameShape (s s' : Vt100tty) : Prop where
  columns : s'.columns = s.columns
  rows : s'.rows = s.rows

/-- Nothing but the arrays differs. -/
structure SameCursor (s s' : Vt100tty) : Prop extends SameShape s s' where
  currentcolumn : s'.currentcolumn = s.currentcolumn
  currentrow : s'.currentrow = s.currentrow

theorem SameShape.trans {s t u : Vt100tty} (hst : SameShape s t)
    (htu : SameShape t u) : SameShape s u :=
  ⟨htu.columns.trans hst.columns, htu.rows.trans hst.rows⟩

theorem SameCursor.refl (s : Vt100tty) : SameCursor s s :=
  ⟨⟨rfl, rfl⟩, rfl, rfl⟩

theorem SameCursor.trans {s t u : Vt100tty} (hst : SameCursor s t)
    (htu : SameCursor t u) : SameCursor s u :=
  ⟨hst.toSameShape.trans htu.toSameShape,
    htu.currentcolumn.trans hst.currentcolumn,
    htu.currentrow.trans hst.currentrow⟩

theorem inRow_iff (row d : ℤ) {width column : ℤ} (hnonneg : 0 ≤ column)
    (hlt : column < width) :
    d * width ≤ row * width + column ∧
      row * width + column < d * width + width ↔ row = d := by
  constructor
  · rintro ⟨hle, hlt'⟩
    rcases lt_trichotomy row d with hbelow | heq | habove
    · have hmul : (row + 1) * width ≤ d * width :=
        mul_le_mul_of_nonneg_right hbelow (by omega)
      rw [add_mul] at hmul
      omega
    · exact heq
    · have hmul : (d + 1) * width ≤ row * width :=
        mul_le_mul_of_nonneg_right habove (by omega)
      rw [add_mul] at hmul
      omega
  · rintro rfl
    omega

variable {s : Vt100tty}

theorem charAt_eq {row column : ℤ} (hrow : 0 ≤ row) (hcolumn : 0 ≤ column)
    (hrows : row < s.rows) (hcolumns : column < s.columns) :
    s.charAt row column = .ok (row * s.columns + column) := by
  simp [charAt, hrow, hcolumn, hrows, hcolumns]

theorem cell_updateChars_row (f : Vt100ttyChar → Vt100ttyChar) (d : ℤ)
    {r c : ℕ} (hc : (c : ℤ) < s.columns) :
    (s.updateChars (d * s.columns) s.columns f).cell r c =
      if (r : ℤ) = d then (f (s.chars (r * s.columns + c))).chr
      else s.cell r c := by
  have hiff := inRow_iff r d (by omega) hc
  simp only [cell, updateChars, hiff]
  split <;> rfl

theorem cell_markChars (first count : ℤ) (r c : ℕ) :
    (s.updateChars first count ({ · with needSupdate := true })).cell r c =
      s.cell r c := by
  simp only [cell, updateChars]
  split <;> rfl

theorem cell_copyChars {k r c : ℕ} (hc : (c : ℤ) < s.columns) :
    (s.copyChars (k * s.columns) ((k + 1 : ℕ) * s.columns) s.columns).cell
        r c =
      if r = k then s.cell (r + 1) c else s.cell r c := by
  have hiff := inRow_iff r k (by omega) hc
  simp only [cell, copyChars, hiff, Nat.cast_inj]
  split
  next heq =>
    rw [heq]
    congr 2
    push_cast
    ring
  next => rfl

theorem updateLine_eq (row : ℤ) (hnonneg : 0 ≤ row) (hlt : row < s.rows)
    (f : Vt100ttyLineInfo → Vt100ttyLineInfo) :
    ∃ s', s.updateLine row f = .ok s' ∧ SameCursor s s' ∧
      s'.cell = s.cell := by
  refine ⟨_, if_pos ⟨hnonneg, hlt⟩, ⟨⟨rfl, rfl⟩, rfl, rfl⟩, rfl⟩

theorem markRows_eq (dest src : ℤ) :
    SameCursor s (s.markRows dest src) ∧
      (s.markRows dest src).cell = s.cell := by
  unfold markRows
  split
  next => exact ⟨SameCursor.refl s, rfl⟩
  next =>
    refine ⟨⟨⟨rfl, rfl⟩, rfl, rfl⟩, ?_⟩
    funext r c
    exact (cell_markChars _ _ _ _).trans (cell_markChars _ _ _ _)

theorem scrollLine_eq {k : ℕ} (hlt : (k : ℤ) + 1 < s.rows)
    (hcolumns : 0 < s.columns) :
    ∃ s', s.scrollLine (k + 1) = .ok s' ∧ SameCursor s s' ∧
      ∀ r c : ℕ, (c : ℤ) < s.columns → s'.cell r c =
        if r = k then s.cell (r + 1) c else s.cell r c := by
  have hdest : s.charAt (k + 1 - 1) 0 = .ok (k * s.columns) := by
    rw [charAt_eq (by omega) le_rfl (by omega) hcolumns, add_sub_cancel_right,
      add_zero]
  have hsrc : s.charAt (k + 1) 0 = .ok ((k + 1 : ℕ) * s.columns) := by
    rw [charAt_eq (by omega) le_rfl hlt hcolumns, add_zero]
    push_cast
    rfl
  have hmoved : SameCursor s
      (s.copyChars (k * s.columns) ((k + 1 : ℕ) * s.columns) s.columns) :=
    ⟨⟨rfl, rfl⟩, rfl, rfl⟩
  generalize hcopied : s.copyChars (k * s.columns) ((k + 1 : ℕ) * s.columns)
    s.columns = copied at hmoved
  obtain ⟨hmark, hmarkCell⟩ := markRows_eq (s := copied) (k * s.columns)
    ((k + 1 : ℕ) * s.columns)
  generalize hmarked : copied.markRows (k * s.columns)
    ((k + 1 : ℕ) * s.columns) = marked at hmark hmarkCell
  have hshape := hmoved.trans hmark
  obtain ⟨t, ht, htshape, htcell⟩ := updateLine_eq (s := marked)
    (k + 1 - 1) (by omega) (by rw [hshape.rows]; omega)
    ({ · with isContinuation := (marked.lineinfos (k + 1)).isContinuation })
  have hcells : ∀ r c : ℕ, (c : ℤ) < s.columns → t.cell r c =
      if r = k then s.cell (r + 1) c else s.cell r c := by
    intro r c hc
    rw [htcell, hmarkCell, ← hcopied, cell_copyChars hc]
  simp only [scrollLine, hdest, hsrc, ok_bind, hcopied, hmarked, ht]
  cases t.hasScroll with
  | true => exact ⟨t, rfl, hshape.trans htshape, hcells⟩
  | false =>
      obtain ⟨u, hu, hushape, hucell⟩ := updateLine_eq (s := t)
        (k + 1 - 1) (by omega)
        (by rw [htshape.rows, hshape.rows]; omega)
        ({ · with needSupdate := true })
      refine ⟨u, hu, (hshape.trans htshape).trans hushape, ?_⟩
      intro r c hc
      rw [hucell, hcells r c hc]

theorem scrollLines_eq (hcolumns : 0 < s.columns) {n : ℕ}
    (hn : (n : ℤ) < s.rows) :
    ∃ s', (List.range n).foldlM (fun (s : Vt100tty) (i : ℕ) =>
        s.scrollLine (i + 1)) s = .ok s' ∧ SameCursor s s' ∧
      ∀ r c : ℕ, (c : ℤ) < s.columns → s'.cell r c =
        if r < n then s.cell (r + 1) c else s.cell r c := by
  induction n with
  | zero => exact ⟨s, rfl, SameCursor.refl s, fun r c _ => rfl⟩
  | succ n ih =>
      obtain ⟨t, ht, htshape, htcell⟩ := ih (by omega)
      obtain ⟨u, hu, hushape, hucell⟩ := scrollLine_eq (s := t) (k := n)
        (by rw [htshape.rows]; omega) (by rw [htshape.columns]; exact hcolumns)
      refine ⟨u, ?_, htshape.trans hushape, ?_⟩
      · rw [List.range_succ, List.foldlM_append, ht]
        simp only [ok_bind, List.foldlM_cons, List.foldlM_nil, hu]
        rfl
      · intro r c hc
        rw [hucell r c (by rw [htshape.columns]; exact hc),
          htcell r c hc, htcell (r + 1) c hc]
        rcases lt_trichotomy r n with hlt | heq | hgt
        · rw [if_neg (by omega), if_pos hlt, if_pos (by omega)]
        · rw [if_pos heq, if_neg (by omega), if_pos (by omega)]
        · rw [if_neg (by omega), if_neg (by omega), if_neg (by omega)]

theorem scrollUp_eq (hcolumns : 0 < s.columns) (hrows : 0 < s.rows)
    (hrow : s.currentrow = s.rows) :
    ∃ s', s.scrollUp = .ok s' ∧ SameShape s s' ∧
      s'.currentrow = s.rows - 1 ∧ s'.currentcolumn = s.currentcolumn ∧
      ∀ r c : ℕ, (c : ℤ) < s.columns → s'.cell r c =
        if (r : ℤ) = s.rows - 1 then 0x20#8
        else if (r : ℤ) < s.rows - 1 then s.cell (r + 1) c
        else s.cell r c := by
  obtain ⟨t, ht, htshape, htcell⟩ := scrollLines_eq hcolumns
    (n := (s.rows - 1).toNat) (by omega)
  simp only [scrollUp, ht, ok_bind]
  generalize hcounted : (if t.hasScroll = true then _ else _ : Vt100tty) = u
  have hu : SameShape t u ∧ u.currentcolumn = t.currentcolumn ∧
      u.currentrow = t.currentrow - 1 ∧ u.cell = t.cell := by
    rw [← hcounted]
    split <;> exact ⟨⟨rfl, rfl⟩, rfl, rfl, rfl⟩
  obtain ⟨hushape, hucolumn, hurow, hucell⟩ := hu
  have hshape := htshape.toSameShape.trans hushape
  have hlast : u.currentrow = s.rows - 1 := by
    rw [hurow, htshape.currentrow, hrow]
  have hdest : u.charAt u.currentrow 0 =
      .ok ((s.rows - 1) * u.columns) := by
    rw [charAt_eq (by omega) le_rfl (by rw [hshape.rows]; omega)
      (by rw [hshape.columns]; exact hcolumns), hlast, add_zero]
  rw [if_pos (by rw [hlast, hshape.rows]; omega), hdest, ok_bind]
  obtain ⟨v, hv, hvshape, hvcell⟩ := updateLine_eq
    (s := u.updateChars ((s.rows - 1) * u.columns) u.columns
      (fun _ => ⟨0x20#8, true⟩)) u.currentrow (by omega)
    (by
      show u.currentrow < u.rows
      rw [hshape.rows]
      omega)
    ({ · with needSupdate := true })
  refine ⟨v, hv, hshape.trans ⟨hvshape.columns, hvshape.rows⟩,
    hvshape.currentrow.trans hlast, ?_, ?_⟩
  · exact hvshape.currentcolumn.trans (hucolumn.trans htshape.currentcolumn)
  · intro r c hc
    rw [hvcell, cell_updateChars_row _ _ (by rw [hshape.columns]; exact hc),
      hucell, htcell r c hc]
    split
    next => rfl
    next hne =>
      have hiff : r < (s.rows - 1).toNat ↔ (r : ℤ) < s.rows - 1 := by omega
      simp only [hiff]

/-- The cursor is on the screen, or behind the last column of a row. -/
structure OnScreen (columns rows : ℕ) (s : Vt100tty) : Prop where
  width : s.columns = columns
  height : s.rows = rows
  columns_pos : 0 < columns
  rows_pos : 0 < rows
  column_nonneg : 0 ≤ s.currentcolumn
  row_nonneg : 0 ≤ s.currentrow
  row_lt : s.currentrow < rows

variable {columns rows : ℕ}

theorem OnScreen.of_sameShape (h : OnScreen columns rows s) {s' : Vt100tty}
    (hshape : SameShape s s') (hrow : s'.currentrow = s.currentrow)
    (hcolumn : 0 ≤ s'.currentcolumn) : OnScreen columns rows s' :=
  ⟨hshape.columns.trans h.width, hshape.rows.trans h.height, h.columns_pos,
    h.rows_pos, hcolumn, hrow ▸ h.row_nonneg, hrow ▸ h.row_lt⟩

theorem OnScreen.of_sameCursor (h : OnScreen columns rows s) {s' : Vt100tty}
    (hsame : SameCursor s s') : OnScreen columns rows s' :=
  h.of_sameShape hsame.toSameShape hsame.currentrow
    (hsame.currentcolumn ▸ h.column_nonneg)

theorem SameCursor.screen_eq {s' : Vt100tty} (hsame : SameCursor s s')
    (hcell : s'.cell = s.cell) : s'.screen = s.screen := by
  unfold screen
  rw [hcell, hsame.currentrow, hsame.currentcolumn]

theorem scrollWhileBelow_stop {fuel : ℕ} (hrow : s.currentrow < s.rows) :
    scrollWhileBelow (fuel + 1) s = .ok s := if_neg (by omega)

theorem scrollWhileBelow_once {fuel : ℕ} {s' : Vt100tty}
    (hrow : s.rows ≤ s.currentrow) (hs' : s.scrollUp = .ok s')
    (hrow' : s'.currentrow < s'.rows) :
    scrollWhileBelow (fuel + 2) s = .ok s' := by
  rw [scrollWhileBelow, if_pos hrow, hs', ok_bind,
    scrollWhileBelow_stop hrow']

/-- The loop of `advanceline`, which begins with the cursor at the start of the
next row. -/
theorem scrollWhileBelow_eq (h : OnScreen columns rows s) {t : Vt100tty}
    (hshape : SameShape s t) (hcolumn : t.currentcolumn = 0)
    (hrow : t.currentrow = s.currentrow + 1) (hcell : t.cell = s.cell)
    (fuel : ℕ) :
    ∃ s', scrollWhileBelow (fuel + 2) t = .ok s' ∧
      OnScreen columns rows s' ∧
      Advances columns rows 0x20#8 s.screen s'.screen := by
  have hnonneg := h.row_nonneg
  have hlt := h.row_lt
  have hwidth : t.columns = columns := hshape.columns.trans h.width
  have hheight : t.rows = rows := hshape.rows.trans h.height
  rcases lt_or_ge t.currentrow t.rows with hroom | hfull
  · refine ⟨t, scrollWhileBelow_stop hroom,
      ⟨hwidth, hheight, h.columns_pos, h.rows_pos, hcolumn.ge, by omega,
        by omega⟩, ?_⟩
    constructor
    · intro _ r c _ _
      exact congrFun (congrFun hcell r) c
    · intro hlast
      simp only [screen] at hlast
      omega
    · intro hlast
      simp only [screen] at hlast
      omega
    · simp only [screen]
      omega
    · simp [screen, hcolumn]
  · have hpos := h.columns_pos
    obtain ⟨u, hu, hushape, hurow, hucolumn, hucell⟩ :=
      scrollUp_eq (s := t) (by omega) (by have := h.rows_pos; omega) (by omega)
    have huheight : u.rows = rows := hushape.rows.trans hheight
    refine ⟨u, scrollWhileBelow_once hfull hu (by omega),
      ⟨hushape.columns.trans hwidth, huheight, h.columns_pos, h.rows_pos,
        (hucolumn.trans hcolumn).ge, by omega, by omega⟩, ?_⟩
    constructor
    · intro hroom
      simp only [screen] at hroom
      omega
    · intro _ r c hr hc
      have hmoved := hucell r c (by omega)
      rw [if_neg (by omega), if_pos (by omega), hcell] at hmoved
      exact hmoved
    · intro _ c hc
      have hcleared := hucell (rows - 1) c (by omega)
      rw [if_pos (by omega)] at hcleared
      exact hcleared
    · simp only [screen]
      omega
    · simp [screen, hucolumn, hcolumn]

theorem advanceline_eq (h : OnScreen columns rows s)
    (wastextoverflow : Bool) :
    ∃ s', s.advanceline wastextoverflow = .ok s' ∧
      OnScreen columns rows s' ∧
      Advances columns rows 0x20#8 s.screen s'.screen := by
  simp only [advanceline]
  obtain ⟨t, ht, hton, hadvances⟩ := scrollWhileBelow_eq h
    (t := { s with currentcolumn := 0, currentrow := s.currentrow + 1 })
    ⟨rfl, rfl⟩ rfl rfl rfl (s.currentrow + 1 - s.rows).toNat
  rw [ht, ok_bind]
  obtain ⟨u, hu, husame, hucell⟩ := updateLine_eq (s := t) 0 le_rfl
    (by rw [hton.height]; exact_mod_cast hton.rows_pos)
    ({ · with isContinuation := false })
  have huon := hton.of_sameCursor husame
  rw [hu, ok_bind]
  obtain ⟨v, hv, hvsame, hvcell⟩ := updateLine_eq (s := u)
    u.currentrow huon.row_nonneg
    (by rw [huon.height]; exact huon.row_lt)
    ({ · with isContinuation := wastextoverflow })
  refine ⟨v, hv, huon.of_sameCursor hvsame, ?_⟩
  rw [hvsame.screen_eq hvcell, husame.screen_eq hucell]
  exact hadvances

theorem chars_updateChars_one (row column r : ℕ) {c : ℕ}
    (f : Vt100ttyChar → Vt100ttyChar) (hcolumn : (column : ℤ) < s.columns)
    (hc : (c : ℤ) < s.columns) :
    (s.updateChars (row * s.columns + column) 1 f).chars
        (r * s.columns + c) =
      if r = row ∧ c = column then f (s.chars (r * s.columns + c))
      else s.chars (r * s.columns + c) := by
  have hiff : (row * s.columns + column ≤ r * s.columns + c ∧
      r * s.columns + c < row * s.columns + column + 1) ↔
      r = row ∧ c = column := by
    constructor
    · intro hat
      have hrow : (r : ℤ) = row := (inRow_iff r row (by omega) hc).1 (by omega)
      obtain rfl : r = row := by exact_mod_cast hrow
      omega
    · rintro ⟨rfl, rfl⟩
      omega
  simp only [updateChars, hiff]

theorem cell_updateChars_one (row r : ℕ) {column c : ℕ} (x : Vt100ttyChar)
    (hcolumn : (column : ℤ) < s.columns) (hc : (c : ℤ) < s.columns) :
    (s.updateChars (row * s.columns + column) 1 (fun _ => x)).cell r c =
      if r = row ∧ c = column then x.chr else s.cell r c := by
  rw [cell]
  change ((s.updateChars (row * s.columns + column) 1 (fun _ => x)).chars
    (r * s.columns + c)).chr = _
  rw [chars_updateChars_one row column r _ hcolumn hc]
  split <;> rfl

theorem writeChar_type (h : OnScreen columns rows s)
    (hroom : s.currentcolumn < s.columns) {byte : BitVec 8}
    (hnewline : (byte.toNat : ℤ) ≠ 10) (hreturn : (byte.toNat : ℤ) ≠ 13) :
    ∃ s', s.writeChar byte.toNat = .ok s' ∧ OnScreen columns rows s' ∧
      Types columns rows byte s.screen s'.screen := by
  have hrowNonneg := h.row_nonneg
  have hcolumnNonneg := h.column_nonneg
  obtain ⟨row, hrow⟩ := Int.eq_ofNat_of_zero_le hrowNonneg
  obtain ⟨column, hcolumn⟩ := Int.eq_ofNat_of_zero_le hcolumnNonneg
  have hdest : s.charAt s.currentrow s.currentcolumn =
      .ok (row * s.columns + column) := by
    rw [charAt_eq hrowNonneg hcolumnNonneg (h.height ▸ h.row_lt) hroom, hrow,
      hcolumn]
  have hbyte : BitVec.ofInt 8 byte.toNat = byte := by
    rw [BitVec.ofInt_natCast, BitVec.ofNat_toNat, BitVec.setWidth_eq]
  obtain ⟨t, ht, htsame, htcell⟩ := updateLine_eq
    (s := s.updateChars (row * s.columns + column) 1
      (fun _ => ⟨byte, true⟩)) s.currentrow hrowNonneg
    (h.height ▸ h.row_lt) ({ · with needSupdate := true })
  have htrow : t.currentrow = s.currentrow := htsame.currentrow
  have htcolumn : t.currentcolumn = s.currentcolumn := htsame.currentcolumn
  refine ⟨{ t with currentcolumn := t.currentcolumn + 1 }, ?_, ?_, ?_⟩
  · simp only [writeChar, if_neg hnewline, if_neg hreturn,
      if_neg (not_le.2 hroom), ok_bind, hdest, hbyte]
    exact congrArg (· >>= _) ht
  · refine h.of_sameShape ⟨htsame.columns, htsame.rows⟩ htrow ?_
    show 0 ≤ t.currentcolumn + 1
    omega
  · constructor
    · intro r c _ hc
      have hcell := cell_updateChars_one (s := s) row r
        ⟨byte, true⟩ (hcolumn ▸ hroom) (c := c) (by rw [h.width]; omega)
      rw [← htcell] at hcell
      show t.cell r c = if r = s.currentrow.toNat ∧
        c = s.currentcolumn.toNat then byte else s.cell r c
      rw [hrow, hcolumn]
      exact hcell
    · simp only [screen, htrow]
    · simp only [screen, htcolumn]
      omega

theorem writeChar_wrap (hfull : s.columns ≤ s.currentcolumn) {chr : ℤ}
    (hnewline : chr ≠ 10) (hreturn : chr ≠ 13) {t : Vt100tty}
    (ht : s.advanceline true = .ok t) (hroom : t.currentcolumn < t.columns) :
    s.writeChar chr = t.writeChar chr := by
  simp only [writeChar, if_neg hnewline, if_neg hreturn, if_pos hfull, ht,
    if_neg (not_le.2 hroom)]

theorem writeChar_eq (h : OnScreen columns rows s)
    {l : Layout (BitVec 8)} (hshows : Shows columns rows 0x20#8 s.screen l)
    (byte : BitVec 8) :
    ∃ s', s.writeChar byte.toNat = .ok s' ∧ OnScreen columns rows s' ∧
      Shows columns rows 0x20#8 s'.screen (l.put columns (symbol byte)) := by
  have hrows := h.rows_pos
  have hcolumn : (s.currentcolumn : ℤ) = l.column := by
    rw [← hshows.column]
    exact (Int.toNat_of_nonneg h.column_nonneg).symm
  by_cases hnewline : byte = 10#8
  · subst hnewline
    obtain ⟨t, ht, hton, hadvances⟩ := advanceline_eq h false
    exact ⟨t, ht, hton, hshows.advance hrows hadvances⟩
  by_cases hreturn : byte = 13#8
  · subst hreturn
    exact ⟨{ s with currentcolumn := 0 }, rfl,
      h.of_sameShape ⟨rfl, rfl⟩ rfl le_rfl, hshows.carriageReturn⟩
  have hten : (byte.toNat : ℤ) ≠ 10 := by
    intro heq
    have hnat : byte.toNat = 10 := by exact_mod_cast heq
    exact hnewline (BitVec.eq_of_toNat_eq hnat)
  have hthirteen : (byte.toNat : ℤ) ≠ 13 := by
    intro heq
    have hnat : byte.toNat = 13 := by exact_mod_cast heq
    exact hreturn (BitVec.eq_of_toNat_eq hnat)
  simp only [symbol, if_neg hnewline, if_neg hreturn, Layout.put]
  rcases lt_or_ge s.currentcolumn s.columns with hroom | hfull
  · obtain ⟨t, ht, hton, htypes⟩ := writeChar_type h hroom hten hthirteen
    have hwidth := h.width
    rw [if_neg (by omega)]
    exact ⟨t, ht, hton, hshows.type hrows htypes⟩
  · obtain ⟨t, ht, hton, hadvances⟩ := advanceline_eq h true
    have hbroken := hshows.advance hrows hadvances
    have hroom : t.currentcolumn < t.columns := by
      have hzero : t.currentcolumn.toNat = 0 := hadvances.column
      have hwidth := hton.width
      have hpos := hton.columns_pos
      omega
    obtain ⟨u, hu, huon, htypes⟩ := writeChar_type hton hroom hten hthirteen
    have hwidth := h.width
    rw [if_pos (by omega), writeChar_wrap hfull hten hthirteen ht hroom]
    exact ⟨u, hu, huon, hbroken.type hrows htypes⟩

/-- The console shows the layout, with its cursor where the layout has it. -/
structure Renders (columns rows : ℕ) (s : Vt100tty) (l : Layout (BitVec 8)) :
    Prop where
  onScreen : OnScreen columns rows s
  shows : Shows columns rows 0x20#8 s.screen l

theorem streamOpWrite_eq {l : Layout (BitVec 8)}
    (h : Renders columns rows s l) {data : List (BitVec 8)}
    (hsize : data.length ≤ maxTransferSize) :
    ∃ s', s.streamOpWrite data = .ok s' ∧
      Renders columns rows s'
        ((data.map symbol).foldl (Layout.put columns) l) := by
  simp only [streamOpWrite, hsize, decide_true, cAssert_true, ok_bind,
    List.foldl_map]
  refine foldlM_follows (P := fun _ => True) ?_ h (fun _ _ => trivial)
  intro s l byte _ h
  obtain ⟨t, ht, hton, htshows⟩ := writeChar_eq h.onScreen h.shows byte
  exact ⟨t, ht, hton, htshows⟩

theorem writeChunks_eq {l : Layout (BitVec 8)}
    (h : Renders columns rows s l) {chunks : List (List (BitVec 8))}
    (hsize : ∀ data ∈ chunks, data.length ≤ maxTransferSize) :
    ∃ s', s.writeChunks chunks = .ok s' ∧
      Renders columns rows s'
        ((chunks.flatten.map symbol).foldl (Layout.put columns) l) := by
  rw [List.foldl_map, List.foldl_flatten]
  refine foldlM_follows ?_ h hsize
  intro s l data hdata h
  rw [← List.foldl_map]
  exact streamOpWrite_eq h hdata

/-- Nothing but the arrays differs, and the driver has not been called. -/
structure SameCalls (s s' : Vt100tty) : Prop extends SameCursor s s' where
  hasScroll : s'.hasScroll = s.hasScroll
  scrollCalls : s'.scrollCalls = s.scrollCalls

theorem SameCalls.refl (s : Vt100tty) : SameCalls s s :=
  ⟨SameCursor.refl s, rfl, rfl⟩

theorem SameCalls.trans {s t u : Vt100tty} (hst : SameCalls s t)
    (htu : SameCalls t u) : SameCalls s u :=
  ⟨hst.toSameCursor.trans htu.toSameCursor,
    htu.hasScroll.trans hst.hasScroll,
    htu.scrollCalls.trans hst.scrollCalls⟩

theorem updateLine_chars (row : ℤ) (hnonneg : 0 ≤ row) (hlt : row < s.rows)
    (f : Vt100ttyLineInfo → Vt100ttyLineInfo) :
    ∃ s', s.updateLine row f = .ok s' ∧ SameCalls s s' ∧
      s'.chars = s.chars :=
  ⟨_, if_pos ⟨hnonneg, hlt⟩, ⟨⟨⟨rfl, rfl⟩, rfl, rfl⟩, rfl, rfl⟩, rfl⟩

/-- A row of the loops of `vt100tty_init`. -/
theorem initRow_eq {r n : ℕ} (hn : (n : ℤ) ≤ s.columns)
    (hr : (r : ℤ) < s.rows) :
    ∃ s', (List.range n).foldlM (fun (s : Vt100tty) (c : ℕ) => do
        let dest ← s.charAt r c
        .ok (s.updateChars dest 1 (fun _ => ⟨0x20#8, true⟩))) s = .ok s' ∧
      SameCalls s s' ∧
      ∀ i c : ℕ, (c : ℤ) < s.columns → s'.chars (i * s.columns + c) =
        if i = r ∧ c < n then ⟨0x20#8, true⟩
        else s.chars (i * s.columns + c) := by
  induction n with
  | zero => exact ⟨s, rfl, SameCalls.refl s, fun _ _ _ => by simp⟩
  | succ n ih =>
      obtain ⟨t, ht, htsame, htchars⟩ := ih (by omega)
      have hwidth := htsame.columns
      have hdest : t.charAt r n = .ok (r * t.columns + n) :=
        charAt_eq (by omega) (by omega) (by rw [htsame.rows]; exact hr)
          (by omega)
      refine ⟨t.updateChars (r * t.columns + n) 1 (fun _ => ⟨0x20#8, true⟩),
        ?_, htsame.trans ⟨⟨⟨rfl, rfl⟩, rfl, rfl⟩, rfl, rfl⟩, ?_⟩
      · rw [List.range_succ, List.foldlM_append, ht, ok_bind,
          List.foldlM_cons, hdest]
        rfl
      · intro i c hc
        have hlast := chars_updateChars_one (s := t) r n i (c := c)
          (fun _ => ⟨0x20#8, true⟩) (by omega) (by omega)
        rw [hwidth, htchars i c hc] at hlast
        rw [hwidth, hlast]
        grind

theorem initRows_eq {n : ℕ} (hn : (n : ℤ) ≤ s.rows)
    (hcolumns : 0 ≤ s.columns) :
    ∃ s', (List.range n).foldlM (fun (s : Vt100tty) (r : ℕ) => do
        let s ← (List.range s.columns.toNat).foldlM
          (fun (s : Vt100tty) (c : ℕ) => do
            let dest ← s.charAt r c
            .ok (s.updateChars dest 1 (fun _ => ⟨0x20#8, true⟩))) s
        s.updateLine r ({ · with needSupdate := true })) s = .ok s' ∧
      SameCalls s s' ∧
      ∀ r c : ℕ, r < n → (c : ℤ) < s.columns →
        s'.chars (r * s.columns + c) = ⟨0x20#8, true⟩ := by
  induction n with
  | zero => exact ⟨s, rfl, SameCalls.refl s, fun r _ hr => by omega⟩
  | succ n ih =>
      obtain ⟨t, ht, htsame, htchars⟩ := ih (by omega)
      have hwidth := htsame.columns
      obtain ⟨u, hu, husame, huchars⟩ := initRow_eq (s := t)
        (n := t.columns.toNat) (r := n) (by omega)
        (by rw [htsame.rows]; omega)
      obtain ⟨v, hv, hvsame, hvchars⟩ := updateLine_chars (s := u) n
        (by omega) (by rw [husame.rows, htsame.rows]; omega)
        ({ · with needSupdate := true })
      refine ⟨v, ?_, (htsame.trans husame).trans hvsame, ?_⟩
      · rw [List.range_succ, List.foldlM_append, ht, ok_bind,
          List.foldlM_cons, hu, ok_bind, hv]
        rfl
      · intro r c hr hc
        have hrow := huchars r c (by omega)
        rw [hwidth] at hrow
        rw [hvchars, hrow]
        split
        next => rfl
        next => exact htchars r c (by omega) hc

theorem init_eq (hwidth : s.columns = columns) (hheight : s.rows = rows)
    (hcolumns : 0 < columns) (hrows : 0 < rows) (hrow : s.currentrow = 0)
    (hcolumn : s.currentcolumn = 0) :
    ∃ s', s.init = .ok s' ∧ Renders columns rows s' Layout.empty := by
  obtain ⟨t, ht, htsame, htchars⟩ := initRows_eq (s := s)
    (n := s.rows.toNat) (by omega) (by omega)
  refine ⟨t, ht, ?_, Shows.empty ?_ ?_ ?_⟩
  · exact ⟨htsame.columns.trans hwidth, htsame.rows.trans hheight, hcolumns,
      hrows, (htsame.currentcolumn.trans hcolumn).ge,
      (htsame.currentrow.trans hrow).ge, by
        rw [htsame.currentrow, hrow]
        exact_mod_cast hrows⟩
  · intro r c hr hc
    change (t.chars (r * t.columns + c)).chr = _
    rw [htsame.columns, htchars r c (by omega) (by omega)]
  · simp [screen, htsame.currentrow, hrow]
  · simp [screen, htsame.currentcolumn, hcolumn]

end Vt100tty
end Console
end Yjkos
