import Yjkos.Machine
import Mathlib.Logic.Function.Basic

/-!
# Nested terminals

`kernel/io/term.c`.  A term writes into its own cells and repeats everything in
its parent, up to a root term, whose output goes to the console.  The kernel
objects give every term the list of the terms above it, the parent first.
The pair which `term_get_cursor_pos` reads off the console for a root term is
taken from `replies`, and may be any two integers.
-/

namespace Yjkos
namespace Terms

abbrev Byte := BitVec 8

abbrev Attrs := BitVec 32

structure CharData where
  chr : Byte
  attrs : Attrs
deriving DecidableEq, Repr

/-- `struct term` without its kernel object. -/
structure Term where
  chars : List CharData
  attrs : Attrs
  left : ℤ
  top : ℤ
  width : ℤ
  height : ℤ
  cursorX : ℤ
  cursorY : ℤ
  visible : Bool
deriving DecidableEq, Repr

/-- What a root term puts on the console. -/
inductive Output where
  | selectAttrs (attrs : Attrs)
  | clearScreen
  | clearLine
  | moveCursor (row column : ℤ)
  | queryCursor
  | putChar (c : Byte)
  | putString (str : List Byte)
deriving DecidableEq, Repr

structure World (α : Type) where
  terms : α → Term
  console : List Output
  queries : ℕ

/-- The terms above a term, its parent first.  The list ends at a root. -/
structure Forest (α : Type) where
  parents : α → List α
  above : ∀ {term parent rest}, parents term = parent :: rest →
    parents parent = rest

def newline : Byte := 0x0a

def carriageReturn : Byte := 0x0d

def blank : Byte := 0x20

/-- Addition of `int`, reduced to 32 bits. -/
def addInt (x y : ℤ) : ℤ := Int.bmod (x + y) 4294967296

def scrollPanic : Fault := .panic "term_write: TODO: scroll"

section Calls

variable {α : Type} [DecidableEq α]

namespace World

def modify (w : World α) (term : α) (f : Term → Term) : World α :=
  { w with terms := Function.update w.terms term (f (w.terms term)) }

def print (w : World α) (output : Output) : World α :=
  { w with console := w.console ++ [output] }

def setAttrs (w : World α) (term : α) (attrs : Attrs) : World α :=
  w.modify term fun t => { t with attrs }

def setCursor (w : World α) (term : α) (x y : ℤ) : World α :=
  w.modify term fun t => { t with cursorX := x, cursorY := y }

/-- `set_char` on the cell with this index, in the memory of the term. -/
def setChar (w : World α) (term : α) (index : ℤ) (chr : Byte) :
    Except Fault (World α) :=
  let t := w.terms term
  if 0 ≤ index ∧ index < t.chars.length then
    .ok (w.modify term fun t =>
      { t with chars := t.chars.set index.toNat ⟨chr, t.attrs⟩ })
  else .error .outOfBounds

end World

/-- `apply_attrs` -/
def applyAttrs (attrs : Attrs) : α → List α → World α → World α
  | term, [], w =>
      if (w.terms term).visible then w.print (.selectAttrs attrs) else w
  | term, parent :: rest, w =>
      if (w.terms term).visible then applyAttrs attrs parent rest w else w

/-- The column which `term_set_cursor_pos` moves to; behind the last one
writing will cause an immediate line break. -/
def Term.validX (t : Term) (x : ℤ) : ℤ :=
  if x < 0 ∨ t.width < x then t.cursorX else x

def Term.validY (t : Term) (y : ℤ) : ℤ :=
  if y < 0 ∨ t.height ≤ y then t.cursorY else y

/-- `term_set_cursor_pos` -/
def termSetCursorPos : α → List α → ℤ → ℤ → World α → World α
  | term, parents, x, y, w =>
      let t := w.terms term
      let x := t.validX x
      let y := t.validY y
      let w := w.setCursor term x y
      if t.visible then
        match parents with
        | [] => w.print (.moveCursor (addInt y 1) (addInt x 1))
        | parent :: rest =>
            termSetCursorPos parent rest (addInt t.left x) (addInt t.top y) w
      else w
termination_by structural _ parents => parents

/-- `term_get_cursor_pos` -/
def termGetCursorPos (replies : ℕ → ℤ × ℤ) (term : α) (parents : List α)
    (w : World α) : (ℤ × ℤ) × World α :=
  match parents with
  | [] =>
      (replies w.queries,
        { w.print .queryCursor with queries := w.queries + 1 })
  | _ :: _ => (((w.terms term).cursorX, (w.terms term).cursorY), w)

/-! ## Writing -/

/-- `term_write` of a term above. -/
abbrev Write (α : Type) := List Byte → World α → Except Fault (World α)

/-- The loops which write one string after another. -/
def writeEach (write : Write α) : List (List Byte) → World α →
    Except Fault (World α)
  | [], w => .ok w
  | str :: rest, w => do
      let w ← write str w
      writeEach write rest w

/-- Writes to the parent under the attributes of the term. -/
def withAttrs (term parent : α) (write : World α → Except Fault (World α))
    (w : World α) : Except Fault (World α) := do
  let oldAttrs := (w.terms parent).attrs
  let w := w.setAttrs parent (w.terms term).attrs
  let w ← write w
  .ok (w.setAttrs parent oldAttrs)

/-- `co_put_char` for every character of a root term. -/
def putChars (term : α) : List Byte → World α → World α
  | [], w => w
  | c :: rest, w =>
      let w := w.print (.putChar c)
      let w := w.setCursor term ((w.terms term).cursorX + 1)
        (w.terms term).cursorY
      putChars term rest w

/-- The part of a line which is complete, in the parent or on the console. -/
def flushSegment (term : α) (above : Option (α × Write α))
    (segment : List Byte) (w : World α) : Except Fault (World α) :=
  match above with
  | some (parent, write) =>
      withAttrs term parent
        (writeEach write (segment.map fun c => [c])) w
  | none =>
      .ok (putChars term segment (applyAttrs (w.terms term).attrs term [] w))

/-- The rest of the string behind the loop, in the parent or on the
console. -/
def flushRest (term : α) (above : Option (α × Write α))
    (segment : List Byte) (w : World α) : Except Fault (World α) :=
  match above with
  | some (parent, write) => withAttrs term parent (write segment) w
  | none =>
      .ok ((applyAttrs (w.terms term).attrs term [] w).print
        (.putString segment))

/-- The branch of the loop which ends a line in front of `next_chr`. -/
def endLine (term : α) (parents : List α) (above : Option (α × Write α))
    (nextChr : Byte) (segment : List Byte) (lineStartCursorX : ℤ)
    (w : World α) : Except Fault (World α) := do
  let w := termSetCursorPos term parents lineStartCursorX
    (w.terms term).cursorY w
  let w ← flushSegment term above segment w
  let w := w.setCursor term 0 (w.terms term).cursorY
  if nextChr ≠ carriageReturn then
    let w := w.setCursor term 0 ((w.terms term).cursorY + 1)
    if (w.terms term).height ≤ (w.terms term).cursorY then
      .error scrollPanic
    else .ok w
  else .ok w

/-- The index of the cell under the cursor. -/
def Term.dest (t : Term) : ℤ := t.cursorY * t.width + t.cursorX

/-- The state of the loop of `term_write`: the characters between
`remaining_lines_str` and `next_chr`, and the two further variables. -/
structure Line where
  segment : List Byte
  lineStartCursorX : ℤ
  dest : ℤ

/-- The last three lines of the loop, which also come behind a wrap. -/
def storeChar (term : α) (c : Byte) (line : Line) (w : World α) :
    Except Fault (Line × World α) := do
  let w ← w.setChar term line.dest c
  let w := w.setCursor term ((w.terms term).cursorX + 1)
    (w.terms term).cursorY
  .ok (⟨line.segment ++ [c], line.lineStartCursorX, line.dest + 1⟩, w)

/-- One round of the loop of `term_write`. -/
def writeChar (term : α) (parents : List α) (above : Option (α × Write α))
    (c : Byte) (line : Line) (w : World α) :
    Except Fault (Line × World α) :=
  if (w.terms term).width ≤ (w.terms term).cursorX ∨ c = newline ∨
      c = carriageReturn then do
    let w ← endLine term parents above c line.segment line.lineStartCursorX w
    let line := ⟨[], 0, (w.terms term).dest⟩
    if c = newline ∨ c = carriageReturn then .ok (line, w)
    else storeChar term c line w
  else storeChar term c line w

def writeLoop (term : α) (parents : List α) (above : Option (α × Write α)) :
    List Byte → Line → World α → Except Fault (Line × World α)
  | [], line, w => .ok (line, w)
  | c :: rest, line, w => do
      let (line, w) ← writeChar term parents above c line w
      writeLoop term parents above rest line w

def writeTo (term : α) (parents : List α) (above : Option (α × Write α))
    (str : List Byte) (w : World α) : Except Fault (World α) := do
  let t := w.terms term
  let (line, w) ← writeLoop term parents above str ⟨[], t.cursorX, t.dest⟩ w
  let oldX := (w.terms term).cursorX
  let w := termSetCursorPos term parents line.lineStartCursorX
    (w.terms term).cursorY w
  let w ← flushRest term above line.segment w
  .ok (termSetCursorPos term parents oldX (w.terms term).cursorY w)

/-- `term_write` -/
def termWrite : α → List α → Write α
  | term, [] => writeTo term [] none
  | term, parent :: rest =>
      writeTo term (parent :: rest) (some (parent, termWrite parent rest))

/-! ## Clearing -/

/-- `set_char` with a blank on so many cells. -/
def blankCells (term : α) (first : ℤ) : ℕ → World α → Except Fault (World α)
  | 0, w => .ok w
  | n + 1, w => do
      let w ← w.setChar term first blank
      blankCells term (first + 1) n w

/-- The loop of `term_clear` over the rows of the parent. -/
def blankRows (term parent : α) (rest : List α) (i : ℤ) :
    ℕ → World α → Except Fault (World α)
  | 0, w => .ok w
  | n + 1, w => do
      let t := w.terms term
      let w := termSetCursorPos parent rest t.left (addInt t.top i) w
      let w ← writeEach (termWrite parent rest)
        (List.replicate t.width.toNat [blank]) w
      blankRows term parent rest (i + 1) n w

/-- `term_clear` -/
def termClear (replies : ℕ → ℤ × ℤ) (term : α) (parents : List α)
    (w : World α) : Except Fault (World α) := do
  let t := w.terms term
  let w ← blankCells term 0 (t.width * t.height).toNat w
  if t.visible then
    match parents with
    | [] => .ok (w.print .clearScreen)
    | parent :: rest =>
        let (old, w) := termGetCursorPos replies parent rest w
        let w ← blankRows term parent rest 0 t.height.toNat w
        .ok (termSetCursorPos parent rest old.1 old.2 w)
  else .ok w

/-- `term_clear_line` -/
def termClearLine (replies : ℕ → ℤ × ℤ) (term : α) (parents : List α)
    (w : World α) : Except Fault (World α) :=
  let t := w.terms term
  if t.visible then do
    let w ← blankCells term (t.cursorY * t.width) t.width.toNat w
    match parents with
    | [] => .ok ((applyAttrs t.attrs term [] w).print .clearLine)
    | parent :: rest =>
        let (old, w) := termGetCursorPos replies parent rest w
        let w := termSetCursorPos term (parent :: rest) 0
          (w.terms term).cursorY w
        let w ← withAttrs term parent (writeEach (termWrite parent rest)
          (List.replicate t.width.toNat [blank])) w
        .ok (termSetCursorPos parent rest old.1 old.2 w)
  else .ok w

/-! ## Runs -/

inductive Op (α : Type) where
  | write (term : α) (str : List Byte)
  | setCursorPos (term : α) (x y : ℤ)
  | clear (term : α)
  | clearLine (term : α)

def perform (forest : Forest α) (replies : ℕ → ℤ × ℤ) (w : World α) :
    Op α → Except Fault (World α)
  | .write term str => termWrite term (forest.parents term) str w
  | .setCursorPos term x y =>
      .ok (termSetCursorPos term (forest.parents term) x y w)
  | .clear term => termClear replies term (forest.parents term) w
  | .clearLine term => termClearLine replies term (forest.parents term) w

def run (forest : Forest α) (replies : ℕ → ℤ × ℤ) :
    List (Op α) → World α → Except Fault (World α)
  | [], w => .ok w
  | op :: ops, w => do
      let w ← perform forest replies w op
      run forest replies ops w

end Calls

end Terms
end Yjkos
