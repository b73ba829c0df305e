import Yjkos.TermsBounds

/-!
# The cursor behind a clearing

The console moves its cursor to where it is told, within its screen, and
answers a query with the row and the column, counted from one.  A clearing
leaves the geometry of all terms alone and ends by moving the parent's cursor
to the pair which it has saved before.
-/

namespace Yjkos
namespace Terms

/-- The console's screen, and how a character moves its cursor. -/
structure Screen where
  rows : ℤ
  columns : ℤ
  advance : Byte → ℤ × ℤ → ℤ × ℤ

namespace Screen

/-- Row and column, which a position outside of the screen is brought to. -/
def goto (screen : Screen) (row column : ℤ) : ℤ × ℤ :=
  (max 1 (min row screen.rows), max 1 (min column screen.columns))

def obey (screen : Screen) (cursor : ℤ × ℤ) : Output → ℤ × ℤ
  | .moveCursor row column => screen.goto row column
  | .putChar c => screen.advance c cursor
  | .putString str => str.foldl (fun p c => screen.advance c p) cursor
  | .selectAttrs _ | .clearScreen | .clearLine | .queryCursor => cursor

/-- Where the output up to now has left the console's cursor. -/
def cursorOf {α : Type} (screen : Screen) (start : ℤ × ℤ) (w : World α) :
    ℤ × ℤ :=
  w.console.foldl screen.obey start

end Screen

/-- What the position of a term, its size and its visibility are kept in. -/
structure SameShape (t t' : Term) : Prop where
  left : t'.left = t.left
  top : t'.top = t.top
  width : t'.width = t.width
  height : t'.height = t.height
  visible : t'.visible = t.visible

theorem SameShape.refl (t : Term) : SameShape t t :=
  ⟨rfl, rfl, rfl, rfl, rfl⟩

theorem SameShape.trans {t t' t'' : Term} (h : SameShape t t')
    (h' : SameShape t' t'') : SameShape t t'' :=
  ⟨h'.left.trans h.left, h'.top.trans h.top, h'.width.trans h.width,
    h'.height.trans h.height, h'.visible.trans h.visible⟩

section Worlds

variable {α : Type}

def SameShapes (w w' : World α) : Prop :=
  ∀ u, SameShape (w.terms u) (w'.terms u)

theorem SameShapes.refl (w : World α) : SameShapes w w := fun _ => .refl _

theorem SameShapes.trans {w w' w'' : World α} (h : SameShapes w w')
    (h' : SameShapes w' w'') : SameShapes w w'' :=
  fun u => (h u).trans (h' u)

theorem sameShapes_of_terms {w w' : World α} (h : w'.terms = w.terms) :
    SameShapes w w' := by
  intro u
  rw [h]
  exact .refl _

/-- A call which returns keeps the shapes. -/
def KeepsShapes (w : World α) (r : Except Fault (World α)) : Prop :=
  ∀ w', r = .ok w' → SameShapes w w'

theorem SameShapes.keeps {w w' : World α} (h : SameShapes w w') :
    KeepsShapes w (.ok w') := by
  rintro _ ⟨⟩
  exact h

theorem KeepsShapes.then {w : World α} {r : Except Fault (World α)}
    {next : World α → Except Fault (World α)} (hr : KeepsShapes w r)
    (hnext : ∀ w', SameShapes w w' → KeepsShapes w (next w')) :
    KeepsShapes w (r >>= next) := by
  intro w'' hok
  obtain ⟨w', hw', hw''⟩ := bind_eq_ok hok
  exact hnext w' (hr w' hw') w'' hw''

theorem SameShapes.after {w w' : World α} {r : Except Fault (World α)}
    (h : SameShapes w w') (hr : KeepsShapes w' r) : KeepsShapes w r :=
  fun w'' hw'' => h.trans (hr w'' hw'')

variable [DecidableEq α]

theorem sameShapes_modify (w : World α) (term : α) {f : Term → Term}
    (hf : ∀ t, SameShape t (f t)) : SameShapes w (w.modify term f) := by
  intro u
  by_cases heq : u = term
  · subst heq
    rw [modify_self]
    exact hf _
  · rw [modify_of_ne w heq]
    exact .refl _

theorem sameShapes_setCursor (w : World α) (term : α) (x y : ℤ) :
    SameShapes w (w.setCursor term x y) :=
  sameShapes_modify w term fun _ => ⟨rfl, rfl, rfl, rfl, rfl⟩

theorem sameShapes_setAttrs (w : World α) (term : α) (attrs : Attrs) :
    SameShapes w (w.setAttrs term attrs) :=
  sameShapes_modify w term fun _ => ⟨rfl, rfl, rfl, rfl, rfl⟩

theorem setChar_keepsShapes (w : World α) (term : α) (index : ℤ) (c : Byte) :
    KeepsShapes w (w.setChar term index c) := by
  intro w' hok
  simp only [World.setChar] at hok
  split at hok
  next =>
    cases hok
    exact sameShapes_modify w term fun _ => ⟨rfl, rfl, rfl, rfl, rfl⟩
  next => cases hok

theorem termSetCursorPos_sameShapes (term : α) (parents : List α) (x y : ℤ)
    (w : World α) : SameShapes w (termSetCursorPos term parents x y w) := by
  have hset := sameShapes_setCursor w term ((w.terms term).validX x)
    ((w.terms term).validY y)
  induction parents generalizing term x y w with
  | nil =>
      unfold termSetCursorPos
      dsimp only
      split
      next => exact hset.trans (sameShapes_of_terms rfl)
      next => exact hset
  | cons parent rest ih =>
      unfold termSetCursorPos
      dsimp only
      split
      next =>
        exact hset.trans (ih parent _ _ _ (sameShapes_setCursor _ _ _ _))
      next => exact hset

omit [DecidableEq α] in
theorem writeEach_keepsShapes {write : Write α}
    (hwrite : ∀ str w, KeepsShapes w (write str w)) (strs : List (List Byte))
    (w : World α) : KeepsShapes w (writeEach write strs w) := by
  induction strs generalizing w with
  | nil => exact (SameShapes.refl w).keeps
  | cons str rest ih =>
      exact (hwrite str w).then fun w' h => h.after (ih w')

theorem withAttrs_keepsShapes (term parent : α)
    {write : World α → Except Fault (World α)}
    (hwrite : ∀ w, KeepsShapes w (write w)) (w : World α) :
    KeepsShapes w (withAttrs term parent write w) := by
  refine (sameShapes_setAttrs w parent _).after ((hwrite _).then ?_)
  exact fun w' h => (h.trans (sameShapes_setAttrs w' parent _)).keeps

theorem putChars_sameShapes (term : α) (segment : List Byte) (w : World α) :
    SameShapes w (putChars term segment w) := by
  induction segment generalizing w with
  | nil => exact .refl w
  | cons c rest ih =>
      refine SameShapes.trans ?_ (ih _)
      exact (sameShapes_of_terms rfl).trans
        (sameShapes_setCursor (w.print (.putChar c)) term _ _)

/-- Writing to the parent keeps the shapes. -/
def AboveKeepsShapes : Option (α × Write α) → Prop
  | none => True
  | some (_, write) => ∀ str w, KeepsShapes w (write str w)

variable {above : Option (α × Write α)}

theorem flushSegment_keepsShapes (term : α) (habove : AboveKeepsShapes above)
    (segment : List Byte) (w : World α) :
    KeepsShapes w (flushSegment term above segment w) := by
  cases above with
  | none =>
      have happly := applyAttrs_terms (w.terms term).attrs term [] w
      exact ((sameShapes_of_terms happly).trans
        (putChars_sameShapes term segment _)).keeps
  | some above =>
      exact withAttrs_keepsShapes term above.1
        (writeEach_keepsShapes habove (segment.map fun c => [c])) w

theorem flushRest_keepsShapes (term : α) (habove : AboveKeepsShapes above)
    (segment : List Byte) (w : World α) :
    KeepsShapes w (flushRest term above segment w) := by
  cases above with
  | none =>
      have happly := applyAttrs_terms (w.terms term).attrs term [] w
      exact SameShapes.keeps (sameShapes_of_terms happly)
  | some above =>
      exact withAttrs_keepsShapes term above.1 (habove segment) w

theorem endLine_keepsShapes (term : α) (parents : List α)
    (habove : AboveKeepsShapes above) (nextChr : Byte) (segment : List Byte)
    (start : ℤ) (w : World α) : KeepsShapes w
      (endLine term parents above nextChr segment start w) := by
  unfold endLine
  refine (termSetCursorPos_sameShapes term parents start _ w).after
    ((flushSegment_keepsShapes term habove segment _).then fun w' h => ?_)
  have hzero := sameShapes_setCursor w' term 0 (w'.terms term).cursorY
  refine (h.trans hzero).after ?_
  generalize w'.setCursor term 0 (w'.terms term).cursorY = v
  split
  next =>
    have hdown := sameShapes_setCursor v term 0 ((v.terms term).cursorY + 1)
    refine hdown.after ?_
    dsimp only
    split
    next => exact fun _ hok => nomatch hok
    next => exact (SameShapes.refl _).keeps
  next => exact (SameShapes.refl _).keeps

theorem storeChar_sameShapes {term : α} {c : Byte} {line line' : Line}
    {w w' : World α} (hok : storeChar term c line w = .ok (line', w')) :
    SameShapes w w' := by
  obtain ⟨w₁, hset, hrest⟩ := bind_eq_ok hok
  cases hrest
  exact (setChar_keepsShapes w term _ _ w₁ hset).trans
    (sameShapes_setCursor w₁ term _ _)

theorem writeChar_sameShapes {term : α} {parents : List α}
    (habove : AboveKeepsShapes above) {c : Byte} {line line' : Line}
    {w w' : World α}
    (hok : writeChar term parents above c line w = .ok (line', w')) :
    SameShapes w w' := by
  unfold writeChar at hok
  split at hok
  next =>
    obtain ⟨w₁, hend, hrest⟩ := bind_eq_ok hok
    have hline := endLine_keepsShapes term parents habove c line.segment
      line.lineStartCursorX w w₁ hend
    dsimp only at hrest
    split at hrest
    next =>
      cases hrest
      exact hline
    next => exact hline.trans (storeChar_sameShapes hrest)
  next => exact storeChar_sameShapes hok

theorem writeLoop_sameShapes {term : α} {parents : List α}
    (habove : AboveKeepsShapes above) {str : List Byte} {line line' : Line}
    {w w' : World α}
    (hok : writeLoop term parents above str line w = .ok (line', w')) :
    SameShapes w w' := by
  induction str generalizing line w with
  | nil =>
      cases hok
      exact .refl _
  | cons c rest ih =>
      obtain ⟨⟨line₁, w₁⟩, hchar, hrest⟩ := bind_eq_ok hok
      exact (writeChar_sameShapes habove hchar).trans (ih hrest)

theorem writeTo_keepsShapes (term : α) (parents : List α)
    {above : Option (α × Write α)} (habove : AboveKeepsShapes above)
    (str : List Byte) (w : World α) :
    KeepsShapes w (writeTo term parents above str w) := by
  intro w' hok
  obtain ⟨⟨line, w₁⟩, hloop, hrest⟩ := bind_eq_ok hok
  obtain ⟨w₂, hflush, hlast⟩ := bind_eq_ok hrest
  cases hlast
  exact (((writeLoop_sameShapes habove hloop).trans
    (termSetCursorPos_sameShapes term parents _ _ w₁)).trans
      (flushRest_keepsShapes term habove _ _ w₂ hflush)).trans
        (termSetCursorPos_sameShapes term parents _ _ w₂)

theorem termWrite_keepsShapes (term : α) (parents : List α) (str : List Byte)
    (w : World α) : KeepsShapes w (termWrite term parents str w) := by
  induction parents generalizing term str w with
  | nil =>
      have habove : @AboveKeepsShapes α none := trivial
      exact writeTo_keepsShapes term [] habove str w
  | cons parent rest ih =>
      have habove : AboveKeepsShapes (some (parent, termWrite parent rest)) :=
        ih parent
      exact writeTo_keepsShapes term (parent :: rest) habove str w

theorem blankRows_keepsShapes (term parent : α) (rest : List α) (i : ℤ)
    (count : ℕ) (w : World α) :
    KeepsShapes w (blankRows term parent rest i count w) := by
  induction count generalizing i w with
  | zero => exact (SameShapes.refl w).keeps
  | succ count ih =>
      have hset := termSetCursorPos_sameShapes parent rest (w.terms term).left
        (addInt (w.terms term).top i) w
      refine hset.after ?_
      exact (writeEach_keepsShapes (termWrite_keepsShapes parent rest) _
        _).then fun w' h => h.after (ih (i + 1) w')

theorem blankCells_keepsShapes (term : α) (first : ℤ) (count : ℕ)
    (w : World α) : KeepsShapes w (blankCells term first count w) := by
  induction count generalizing first w with
  | zero => exact (SameShapes.refl w).keeps
  | succ count ih =>
      exact (setChar_keepsShapes w term first blank).then
        fun w' h => h.after (ih (first + 1) w')

/-- Blanking cells prints nothing. -/
theorem blankCells_console {term : α} {first : ℤ} {count : ℕ}
    {w w' : World α} (hok : blankCells term first count w = .ok w') :
    w'.console = w.console ∧ w'.queries = w.queries := by
  induction count generalizing first w with
  | zero =>
      cases hok
      exact ⟨rfl, rfl⟩
  | succ count ih =>
      obtain ⟨w₁, hset, hrest⟩ := bind_eq_ok hok
      simp only [World.setChar] at hset
      split at hset
      next =>
        cases hset
        have hthis := ih hrest
        exact hthis
      next => cases hset

end Worlds

end Terms
end Yjkos
