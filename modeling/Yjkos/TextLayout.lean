import Mathlib.Data.List.GetD
import Mathlib.Tactic

/-!
# Text laid out on a screen

Symbols are laid out into lines of at most `columns` glyphs without a bound on
their number.  A screen shows the last `rows` of them and has to forget the
others.  `Shows` relates the two, and is kept when the screen writes a glyph
over a cell and when it advances by a line.
-/

namespace TextLayout

inductive Symbol (α : Type*) where
  | newline
  | carriageReturn
  | glyph (a : α)
deriving DecidableEq

/-- Everything which has been written: the finished lines, first to last, and
the line of the cursor. -/
structure Layout (α : Type*) where
  above : List (List α)
  line : List α
  column : ℕ
  inside : column ≤ line.length

variable {α : Type*}

/-- The glyph at the column is replaced, or appended to a line which ends
there. -/
def overwrite (line : List α) (column : ℕ) (a : α) : List α :=
  line.take column ++ a :: line.drop (column + 1)

theorem length_overwrite {line : List α} {column : ℕ}
    (hinside : column ≤ line.length) (a : α) :
    column + 1 ≤ (overwrite line column a).length := by
  simp only [overwrite, List.length_append, List.length_take, List.length_cons]
  omega

theorem getD_overwrite {line : List α} {column : ℕ}
    (hinside : column ≤ line.length) (a blank : α) (c : ℕ) :
    (overwrite line column a).getD c blank =
      if c = column then a else line.getD c blank := by
  have htake : (line.take column).length = column := by
    rw [List.length_take, min_eq_left hinside]
  unfold overwrite
  split
  next heq =>
    rw [List.getD_append_right _ _ _ _ (by omega), htake, heq, Nat.sub_self,
      List.getD_cons_zero]
  next hne =>
    rcases Nat.lt_or_gt_of_ne hne with hlt | hgt
    · rw [List.getD_append _ _ _ _ (by omega)]
      simp [List.getD_eq_getElem?_getD, hlt]
    · obtain ⟨k, rfl⟩ := Nat.exists_eq_add_of_lt hgt
      rw [List.getD_append_right _ _ _ _ (by omega), htake,
        show column + k + 1 - column = k + 1 by omega, List.getD_cons_succ]
      simp only [List.getD_eq_getElem?_getD, List.getElem?_drop]
      congr 2
      omega

namespace Layout

/-- Nothing has been written. -/
def empty : Layout α := ⟨[], [], 0, le_rfl⟩

def breakLine (l : Layout α) : Layout α :=
  ⟨l.above ++ [l.line], [], 0, le_rfl⟩

def type (l : Layout α) (a : α) : Layout α :=
  ⟨l.above, overwrite l.line l.column a, l.column + 1,
    length_overwrite l.inside a⟩

/-- A full line is broken only when a further glyph arrives. -/
def put (columns : ℕ) (l : Layout α) : Symbol α → Layout α
  | .newline => l.breakLine
  | .carriageReturn => ⟨l.above, l.line, 0, Nat.zero_le _⟩
  | .glyph a => if columns ≤ l.column then l.breakLine.type a else l.type a

/-- The layout of a whole text. -/
def ofText (columns : ℕ) (text : List (Symbol α)) : Layout α :=
  text.foldl (put columns) empty

def lines (l : Layout α) : List (List α) := l.above ++ [l.line]

/-- The lines of which there is room for `rows`. -/
def lastLines (rows : ℕ) (l : Layout α) : List (List α) :=
  l.lines.drop (l.lines.length - rows)

/-- What is in a cell when the last `rows` lines are shown. -/
def shown (rows : ℕ) (blank : α) (l : Layout α) (row column : ℕ) : α :=
  ((l.lastLines rows).getD row []).getD column blank

/-- The line of the cursor is the last of those shown. -/
def cursorRow (rows : ℕ) (l : Layout α) : ℕ := (l.lastLines rows).length - 1

theorem length_lines (l : Layout α) : l.lines.length = l.above.length + 1 := by
  simp [lines]

theorem cursorRow_eq {rows : ℕ} (hrows : 0 < rows) (l : Layout α) :
    l.cursorRow rows = min l.above.length (rows - 1) := by
  simp only [cursorRow, lastLines, List.length_drop, length_lines]
  omega

theorem shown_eq (rows : ℕ) (blank : α) (l : Layout α) (r c : ℕ) :
    l.shown rows blank r c =
      (l.lines.getD (l.above.length + 1 - rows + r) []).getD c blank := by
  simp only [shown, lastLines, List.getD_eq_getElem?_getD, List.getElem?_drop,
    length_lines]

/-- The line of a break is not there yet, and reads as blanks before it is and
after. -/
theorem shown_breakLine (rows : ℕ) (blank : α) (l : Layout α) (r c : ℕ) :
    l.breakLine.shown rows blank r c =
      (l.lines.getD (l.above.length + 2 - rows + r) []).getD c blank := by
  have hlines : l.breakLine.lines = l.lines ++ [[]] := rfl
  have hlength : l.breakLine.above.length = l.above.length + 1 := by
    simp [breakLine]
  rw [shown_eq, hlines, hlength]
  congr 1
  rcases Nat.lt_or_ge (l.above.length + 2 - rows + r) l.lines.length
    with hlt | hge
  · exact List.getD_append _ _ _ _ hlt
  · rw [List.getD_append_right _ _ _ _ hge, List.getD_eq_default _ _ hge,
      List.getD_eq_getElem?_getD, List.getElem?_singleton]
    split <;> rfl

theorem cursorRow_breakLine {rows : ℕ} (hrows : 0 < rows) (l : Layout α) :
    l.breakLine.cursorRow rows = min (l.cursorRow rows + 1) (rows - 1) := by
  have hlength : l.breakLine.above.length = l.above.length + 1 := by
    simp [breakLine]
  rw [cursorRow_eq hrows, cursorRow_eq hrows, hlength]
  omega

/-- Typing changes the cell at the cursor and no other. -/
theorem shown_type {rows : ℕ} (hrows : 0 < rows) (blank : α) (l : Layout α)
    (a : α) (r c : ℕ) :
    (l.type a).shown rows blank r c =
      if r = l.cursorRow rows ∧ c = l.column then a
      else l.shown rows blank r c := by
  have hcursor := cursorRow_eq hrows l
  rw [shown_eq, shown_eq]
  simp only [type, lines]
  rcases lt_trichotomy (l.above.length + 1 - rows + r) l.above.length
    with hlt | heq | hgt
  · rw [List.getD_append _ _ _ _ hlt, List.getD_append _ _ _ _ hlt,
      if_neg (by omega)]
  · rw [heq, List.getD_append_right _ _ _ _ le_rfl,
      List.getD_append_right _ _ _ _ le_rfl, Nat.sub_self,
      List.getD_cons_zero, List.getD_cons_zero, getD_overwrite l.inside]
    have hrow : r = l.cursorRow rows := by omega
    simp only [hrow, true_and]
  · have hend : ∀ line : List α, (l.above ++ [line]).getD
        (l.above.length + 1 - rows + r) [] = [] :=
      fun line => List.getD_eq_default _ _ (by simp; omega)
    rw [hend, hend, if_neg (by omega)]

end Layout

/-- What a screen holds, and its cursor. -/
structure Screen (α : Type*) where
  cell : ℕ → ℕ → α
  row : ℕ
  column : ℕ

/-- The screen shows the end of the layout. -/
structure Shows (columns rows : ℕ) (blank : α) (s : Screen α)
    (l : Layout α) : Prop where
  cells : ∀ r c, r < rows → c < columns →
    s.cell r c = l.shown rows blank r c
  row : s.row = l.cursorRow rows
  column : s.column = l.column

/-- The next line, for which the others move up when there is no room. -/
structure Advances (columns rows : ℕ) (blank : α) (s s' : Screen α) :
    Prop where
  kept : s.row + 1 < rows →
    ∀ r c, r < rows → c < columns → s'.cell r c = s.cell r c
  moved : rows ≤ s.row + 1 →
    ∀ r c, r + 1 < rows → c < columns → s'.cell r c = s.cell (r + 1) c
  cleared : rows ≤ s.row + 1 → ∀ c, c < columns →
    s'.cell (rows - 1) c = blank
  row : s'.row = min (s.row + 1) (rows - 1)
  column : s'.column = 0

/-- A glyph is written at the cursor. -/
structure Types (columns rows : ℕ) (a : α) (s s' : Screen α) : Prop where
  cells : ∀ r c, r < rows → c < columns → s'.cell r c =
    if r = s.row ∧ c = s.column then a else s.cell r c
  row : s'.row = s.row
  column : s'.column = s.column + 1

section Screen

variable {columns rows : ℕ} {blank : α} {s s' : Screen α} {l : Layout α}

theorem Shows.row_lt (h : Shows columns rows blank s l) (hrows : 0 < rows) :
    s.row < rows := by
  rw [h.row, Layout.cursorRow_eq hrows]
  omega

theorem Shows.empty (hcells : ∀ r c, r < rows → c < columns →
      s.cell r c = blank) (hrow : s.row = 0) (hcolumn : s.column = 0) :
    Shows columns rows blank s Layout.empty := by
  constructor
  · intro r c hr hc
    rw [hcells r c hr hc, Layout.shown_eq]
    cases h : (Layout.empty : Layout α).above.length + 1 - rows + r <;>
      simp [Layout.empty, Layout.lines]
  · simp [hrow, Layout.cursorRow, Layout.lastLines, Layout.lines,
      Layout.empty]
  · exact hcolumn

theorem Shows.advance (h : Shows columns rows blank s l) (hrows : 0 < rows)
    (hadvance : Advances columns rows blank s s') :
    Shows columns rows blank s' l.breakLine := by
  have hcursor : s.row = min l.above.length (rows - 1) := by
    rw [h.row, Layout.cursorRow_eq hrows]
  constructor
  · intro r c hr hc
    rw [Layout.shown_breakLine]
    rcases Nat.lt_or_ge (s.row + 1) rows with hroom | hfull
    · rw [hadvance.kept hroom r c hr hc, h.cells r c hr hc, Layout.shown_eq]
      congr 2
      omega
    · rcases Nat.lt_or_ge (r + 1) rows with hlt | hlast
      · rw [hadvance.moved hfull r c hlt hc, h.cells (r + 1) c hlt hc,
          Layout.shown_eq]
        congr 2
        omega
      · obtain rfl : r = rows - 1 := by omega
        have hend : l.lines.getD (l.above.length + 2 - rows + (rows - 1)) [] =
            [] :=
          List.getD_eq_default _ _ (by rw [Layout.length_lines]; omega)
        rw [hadvance.cleared hfull c hc, hend, List.getD_nil]
  · rw [hadvance.row, Layout.cursorRow_breakLine hrows, h.row]
  · exact hadvance.column

theorem Shows.type (h : Shows columns rows blank s l) (hrows : 0 < rows)
    {a : α} (htype : Types columns rows a s s') :
    Shows columns rows blank s' (l.type a) := by
  constructor
  · intro r c hr hc
    rw [htype.cells r c hr hc, Layout.shown_type hrows, h.cells r c hr hc,
      h.row, h.column]
  · rw [htype.row, h.row, Layout.cursorRow_eq hrows, Layout.cursorRow_eq hrows]
    rfl
  · rw [htype.column, h.column]
    rfl

theorem Shows.carriageReturn (h : Shows columns rows blank s l) :
    Shows columns rows blank ⟨s.cell, s.row, 0⟩
      (l.put columns .carriageReturn) :=
  ⟨h.cells, h.row, rfl⟩

end Screen

/-- Steps which each succeed and follow a fold do so over a whole list. -/
theorem foldlM_follows {σ τ β ε : Type*} {R : σ → τ → Prop} {P : β → Prop}
    {step : σ → β → Except ε σ} {put : τ → β → τ}
    (hstep : ∀ s l b, P b → R s l → ∃ s', step s b = .ok s' ∧ R s' (put l b))
    {s : σ} {l : τ} (h : R s l) {bs : List β} (hbs : ∀ b ∈ bs, P b) :
    ∃ s', bs.foldlM step s = .ok s' ∧ R s' (bs.foldl put l) := by
  induction bs generalizing s l with
  | nil => exact ⟨s, rfl, h⟩
  | cons b rest ih =>
      obtain ⟨hb, hrest⟩ := List.forall_mem_cons.1 hbs
      obtain ⟨t, ht, htR⟩ := hstep s l b hb h
      obtain ⟨u, hu, huR⟩ := ih htR hrest
      refine ⟨u, ?_, huR⟩
      rw [List.foldlM_cons, ht]
      exact hu

end TextLayout
