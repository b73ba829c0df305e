import Yjkos.TermsCursor

/-!
# Clearing restores the cursor

What `term_clear` and `term_clear_line` of a child leave behind in its parent
and on the console.  A parent which is no root is asked for the cursor it has
stored, and a root for the console's, which is counted from one.
-/

namespace Yjkos
namespace Terms

/-- The rectangle of a term lies in the one above. -/
structure Within (t p : Term) : Prop where
  left : 0 ≤ t.left
  right : t.left + t.width ≤ p.width
  top : 0 ≤ t.top
  bottom : t.top + t.height ≤ p.height

section Worlds

variable {α : Type}

/-- The rectangles of a term and of the terms above it lie in each other. -/
def Nested (w : World α) : List α → Prop
  | term :: parent :: rest =>
      Within (w.terms term) (w.terms parent) ∧ Nested w (parent :: rest)
  | _ => True

/-- Visible terms between calls.  Behind their last cell there is room for the
cursor in an `int`. -/
structure Path (l : List α) (w : World α) : Prop where
  good : AllGood l w
  visible : ∀ u ∈ l, (w.terms u).visible = true
  small : ∀ u ∈ l, (w.terms u).width < 2147483647 ∧
    (w.terms u).height < 2147483647

/-- A place in a term which is also one in every term above. -/
def InSight (w : World α) : α → List α → ℤ → ℤ → Prop
  | term, parents, x, y =>
      (0 ≤ x ∧ x ≤ (w.terms term).width ∧
        0 ≤ y ∧ y < (w.terms term).height) ∧
      match parents with
      | [] => True
      | parent :: rest =>
          InSight w parent rest ((w.terms term).left + x)
            ((w.terms term).top + y)
termination_by structural _ parents => parents

/-- Row and column of the console for a place in a term. -/
def shownAt (w : World α) : α → List α → ℤ → ℤ → ℤ × ℤ
  | _, [], x, y => (y + 1, x + 1)
  | term, parent :: rest, x, y =>
      shownAt w parent rest ((w.terms term).left + x) ((w.terms term).top + y)

/-- The pair which is saved for the parent. -/
def saved (screen : Screen) (start : ℤ × ℤ) (parent : α) (rest : List α)
    (w : World α) : ℤ × ℤ :=
  match rest with
  | [] => ((screen.cursorOf start w).2, (screen.cursorOf start w).1)
  | _ :: _ => ((w.terms parent).cursorX, (w.terms parent).cursorY)

/-- The console answers the next query with its row and its column, and both
are counted from one. -/
structure Answers (screen : Screen) (start : ℤ × ℤ) (replies : ℕ → ℤ × ℤ)
    (w : World α) : Prop where
  reply : replies w.queries =
    ((screen.cursorOf start w).2, (screen.cursorOf start w).1)
  row_pos : 1 ≤ (screen.cursorOf start w).1
  column_pos : 1 ≤ (screen.cursorOf start w).2

/-- The cursors of these terms and the console's are where they were. -/
structure KeepsCursors (screen : Screen) (start : ℤ × ℤ) (l : List α)
    (w w' : World α) : Prop where
  stored : ∀ u ∈ l, (w'.terms u).cursorX = (w.terms u).cursorX ∧
    (w'.terms u).cursorY = (w.terms u).cursorY
  console : screen.cursorOf start w' = screen.cursorOf start w

/-- The console shows the cursor of the term. -/
def Shows (screen : Screen) (start : ℤ × ℤ) (term : α) (parents : List α)
    (w : World α) : Prop :=
  screen.cursorOf start w =
    screen.goto (shownAt w term parents (w.terms term).cursorX
      (w.terms term).cursorY).1
      (shownAt w term parents (w.terms term).cursorX
        (w.terms term).cursorY).2

/-- The column which is restored.  One behind the parent's width gives way to
the column behind the child. -/
def restoredX (t p : Term) (x : ℤ) : ℤ :=
  if p.width < x then t.left + t.width else x

/-- The row which is restored.  One behind the parent's height gives way to
the row blanked last. -/
def restoredY (p : Term) (last y : ℤ) : ℤ :=
  if p.height ≤ y then last else y

/-- Restoring the saved pair sets the parent's cursor to where it is, and the
console shows it there.  `last` is the row blanked last. -/
structure Restorable (screen : Screen) (start : ℤ × ℤ) (term parent : α)
    (rest : List α) (last : ℤ) (w : World α) : Prop where
  column : restoredX (w.terms term) (w.terms parent)
    (saved screen start parent rest w).1 = (w.terms parent).cursorX
  row : restoredY (w.terms parent) last
    (saved screen start parent rest w).2 = (w.terms parent).cursorY
  shows : Shows screen start parent rest w

variable {screen : Screen} {start : ℤ × ℤ} {term parent : α} {rest : List α}
  {l : List α} {w w' : World α} {x y : ℤ}

theorem Path.tail {u : α} (h : Path (u :: l) w) : Path l w :=
  ⟨h.good.tail, fun v hv => h.visible v (List.mem_cons_of_mem u hv),
    fun v hv => h.small v (List.mem_cons_of_mem u hv)⟩

theorem Path.after (h : Path l w) (hshape : SameShapes w w')
    (hgood : AllGood l w') : Path l w' := by
  refine ⟨hgood, fun u hu => ?_, fun u hu => ?_⟩
  · rw [(hshape u).visible]
    exact h.visible u hu
  · rw [(hshape u).width, (hshape u).height]
    exact h.small u hu

theorem Within.after {t t' p p' : Term} (h : Within t p)
    (ht : SameShape t t') (hp : SameShape p p') : Within t' p' := by
  constructor
  · rw [ht.left]
    exact h.left
  · rw [ht.left, ht.width, hp.width]
    exact h.right
  · rw [ht.top]
    exact h.top
  · rw [ht.top, ht.height, hp.height]
    exact h.bottom

theorem Nested.after (h : Nested w l) (hshape : SameShapes w w') :
    Nested w' l := by
  induction l with
  | nil => trivial
  | cons u rest ih =>
      cases rest with
      | nil => trivial
      | cons parent rest =>
          exact ⟨h.1.after (hshape u) (hshape parent), ih h.2⟩

theorem InSight.after (h : InSight w term rest x y)
    (hshape : SameShapes w w') : InSight w' term rest x y := by
  have hterm := hshape term
  induction rest generalizing term x y with
  | nil =>
      unfold InSight at h ⊢
      rw [hterm.width, hterm.height]
      exact h
  | cons parent rest ih =>
      unfold InSight at h ⊢
      rw [hterm.width, hterm.height, hterm.left, hterm.top]
      exact ⟨h.1, ih h.2 (hshape parent)⟩

theorem shownAt_after (hshape : SameShapes w w') (term : α) (rest : List α)
    (x y : ℤ) : shownAt w' term rest x y = shownAt w term rest x y := by
  induction rest generalizing term x y with
  | nil => rfl
  | cons parent rest ih =>
      rw [shownAt, shownAt, (hshape term).left, (hshape term).top, ih]

/-- In nested terms every place is in sight. -/
theorem Nested.inSight (h : Nested w (term :: rest)) (hx : 0 ≤ x)
    (hxw : x ≤ (w.terms term).width) (hy : 0 ≤ y)
    (hyh : y < (w.terms term).height) : InSight w term rest x y := by
  induction rest generalizing term x y with
  | nil =>
      unfold InSight
      exact ⟨⟨hx, hxw, hy, hyh⟩, trivial⟩
  | cons parent rest ih =>
      obtain ⟨⟨hleft, hright, htop, hbottom⟩, hup⟩ := h
      unfold InSight
      exact ⟨⟨hx, hxw, hy, hyh⟩,
        ih hup (by omega) (by omega) (by omega) (by omega)⟩

theorem InSight.bounds (h : InSight w term rest x y) :
    0 ≤ x ∧ x ≤ (w.terms term).width ∧
      0 ≤ y ∧ y < (w.terms term).height := by
  unfold InSight at h
  exact h.1

theorem addInt_eq {x y : ℤ} (h : 0 ≤ x + y) (hlt : x + y < 2147483648) :
    addInt x y = x + y := by
  unfold addInt
  rw [Int.bmod_def]
  split <;> omega

/-! ## Restoring -/

variable [DecidableEq α]

/-- The console is moved to where the term's new cursor is shown. -/
theorem termSetCursorPos_shown (hpath : Path (term :: rest) w)
    (hsight : InSight w term rest ((w.terms term).validX x)
      ((w.terms term).validY y)) :
    ∃ before, (termSetCursorPos term rest x y w).console =
      before ++ [.moveCursor
        (shownAt w term rest ((w.terms term).validX x)
          ((w.terms term).validY y)).1
        (shownAt w term rest ((w.terms term).validX x)
          ((w.terms term).validY y)).2] := by
  induction rest generalizing term x y w with
  | nil =>
      have hvisible := hpath.visible term List.mem_cons_self
      obtain ⟨hwidth, hheight⟩ := hpath.small term List.mem_cons_self
      obtain ⟨hx, hxw, hy, hyh⟩ := hsight.bounds
      unfold termSetCursorPos
      simp only [hvisible, if_true]
      rw [addInt_eq (by omega) (by omega), addInt_eq (by omega) (by omega)]
      exact ⟨_, rfl⟩
  | cons parent rest ih =>
      have hvisible := hpath.visible term List.mem_cons_self
      obtain ⟨hwidth, hheight⟩ := hpath.small parent (by simp)
      have hstay := stays_valid List.mem_cons_self hpath.good x y
      have hshape := sameShapes_setCursor w term ((w.terms term).validX x)
        ((w.terms term).validY y)
      rw [shownAt]
      unfold InSight at hsight
      have hup := hsight.2.after hshape
      obtain ⟨hx, hxw, hy, hyh⟩ := hup.bounds
      rw [(hshape parent).width] at hxw
      rw [(hshape parent).height] at hyh
      have hvalid : ((w.setCursor term ((w.terms term).validX x)
          ((w.terms term).validY y)).terms parent).validX
            ((w.terms term).left + (w.terms term).validX x) = _ :=
        validX_of hx ((hshape parent).width.symm ▸ hxw)
      have hvalid' : ((w.setCursor term ((w.terms term).validX x)
          ((w.terms term).validY y)).terms parent).validY
            ((w.terms term).top + (w.terms term).validY y) = _ :=
        validY_of hy ((hshape parent).height.symm ▸ hyh)
      have hthis := ih (hpath.after hshape hstay.good).tail
        (hvalid.symm ▸ hvalid'.symm ▸ hup)
      rw [hvalid, hvalid', shownAt_after hshape] at hthis
      unfold termSetCursorPos
      simp only [hvisible, if_true]
      rw [addInt_eq (by omega) (by omega), addInt_eq (by omega) (by omega)]
      exact hthis

/-- The cursor of the parent behind a move of the term's. -/
theorem termSetCursorPos_parent (hnodup : (term :: parent :: rest).Nodup)
    (hpath : Path (term :: parent :: rest) w)
    (hnested : Nested w (term :: parent :: rest)) (hx : 0 ≤ x)
    (hxw : x ≤ (w.terms term).width) (hy : 0 ≤ y)
    (hyh : y < (w.terms term).height) :
    (termSetCursorPos term (parent :: rest) x y w).terms parent =
      (w.terms parent).moved ((w.terms term).left + x)
        ((w.terms term).top + y) := by
  obtain ⟨⟨hleft, hright, htop, hbottom⟩, -⟩ := hnested
  obtain ⟨hwidth, hheight⟩ := hpath.small parent (by simp)
  have hvisible := hpath.visible term List.mem_cons_self
  have hne : parent ≠ term := fun heq =>
    (List.nodup_cons.1 hnodup).1 (heq ▸ List.mem_cons_self)
  have hstay := stays_valid List.mem_cons_self hpath.good x y
  have hsame : (w.setCursor term ((w.terms term).validX x)
      ((w.terms term).validY y)).terms parent = w.terms parent :=
    modify_of_ne w hne _
  have hup := (termSetCursorPos_spec (List.nodup_cons.1 hnodup).2
    hstay.good.tail ((w.terms term).left + x) ((w.terms term).top + y)).2
  rw [hsame, validX_of hx hxw, validY_of hy hyh,
    validX_of (t := w.terms parent) (by omega) (by omega),
    validY_of (t := w.terms parent) (by omega) (by omega)] at hup
  unfold termSetCursorPos
  simp only [hvisible, if_true]
  rw [validX_of hx hxw, validY_of hy hyh]
  rw [addInt_eq (by omega) (by omega), addInt_eq (by omega) (by omega)]
  exact hup

/-! ## Blanking -/

theorem put_blank {t : Term} (hroom : t.cursorX < t.width) :
    t.put blank = { t with
      chars := t.chars.set t.dest.toNat ⟨blank, t.attrs⟩
      cursorX := t.cursorX + 1 } := by
  unfold Term.put
  rw [if_neg (by decide), if_neg (by decide)]
  simp only [if_neg (not_le.2 hroom)]

/-- A blank in front of the width does not wrap, and is stored. -/
theorem writeLoop_blank (hpath : Path (term :: rest) w)
    (hroom : (w.terms term).cursorX < (w.terms term).width)
    (above : Option (α × Write α)) (first : ℤ) :
    ∃ w', writeLoop term rest above [blank]
      ⟨[], first, (w.terms term).dest⟩ w =
        .ok (⟨[blank], first, (w.terms term).dest + 1⟩, w') := by
  have hdest := (hpath.good term List.mem_cons_self).dest_bounds hroom
  have hbranch : ¬((w.terms term).width ≤ (w.terms term).cursorX ∨
      blank = newline ∨ blank = carriageReturn) := by
    rw [not_or]
    exact ⟨not_le.2 hroom, by decide⟩
  simp only [writeLoop, writeChar, if_neg hbranch, storeChar, World.setChar,
    if_pos hdest, ok_bind]
  exact ⟨_, rfl⟩

/-- A blank in front of the width goes all the way up without a wrap. -/
theorem termWrite_blank (hnodup : (term :: rest).Nodup)
    (hpath : Path (term :: rest) w) (hnested : Nested w (term :: rest))
    (hroom : (w.terms term).cursorX < (w.terms term).width) :
    ∃ w', termWrite term rest [blank] w = .ok w' := by
  induction rest generalizing term w with
  | nil =>
      obtain ⟨w₁, hloop⟩ := writeLoop_blank hpath hroom none
        (w.terms term).cursorX
      simp only [termWrite, writeTo, hloop, ok_bind, flushRest]
      exact ⟨_, rfl⟩
  | cons parent rest ih =>
      have hown := hpath.good term List.mem_cons_self
      have hnot := List.nodup_cons.1 hnodup
      have habove : AboveSafe (parent :: rest)
          (some (parent, termWrite parent rest)) :=
        ⟨List.mem_cons_self, fun str v hv => termWrite_safe hnot.2 str hv⟩
      have hkeeps : AboveKeepsShapes (some (parent, termWrite parent rest)) :=
        termWrite_keepsShapes parent rest
      obtain ⟨w₁, hloop⟩ := writeLoop_blank hpath hroom
        (some (parent, termWrite parent rest)) (w.terms term).cursorX
      have hagrees : Line.Agrees
          ⟨[], (w.terms term).cursorX, (w.terms term).dest⟩ (w.terms term) :=
        ⟨hown.x_nonneg, hown.x_le, rfl⟩
      have hspec := writeLoop_spec hnodup habove hpath.good [blank] hagrees
      rw [hloop] at hspec
      obtain ⟨hstay, -, hput⟩ := hspec
      have hshape := writeLoop_sameShapes hkeeps hloop
      have hpath₁ := hpath.after hshape hstay.good
      have hown₁ := hstay.good term List.mem_cons_self
      have hwidth := (hshape term).width
      -- the parent's cursor is moved to the place in front of the blank
      have hparent := termSetCursorPos_parent hnodup hpath₁
        (hnested.after hshape) hown.x_nonneg
        (hwidth.symm ▸ hown.x_le) hown₁.y_nonneg hown₁.y_lt
      have hset := (termSetCursorPos_spec hnodup hstay.good
        (w.terms term).cursorX (w₁.terms term).cursorY).1
      have hset' := termSetCursorPos_sameShapes term (parent :: rest)
        (w.terms term).cursorX (w₁.terms term).cursorY w₁
      generalize hw₂ : termSetCursorPos term (parent :: rest)
        (w.terms term).cursorX (w₁.terms term).cursorY w₁ = w₂ at *
      have hattrs := stays_setAttrs (List.mem_cons_self (l := rest))
        hset.good.tail (w₂.terms term).attrs
      have hall := (hshape.trans hset').trans
        (sameShapes_setAttrs w₂ parent (w₂.terms term).attrs)
      have hfree : ((w₂.setAttrs parent (w₂.terms term).attrs).terms
          parent).cursorX < ((w₂.setAttrs parent
            (w₂.terms term).attrs).terms parent).width := by
        rw [World.setAttrs, modify_self, hparent]
        show (w₁.terms term).left + (w.terms term).cursorX <
          (w₁.terms parent).width
        rw [(hshape term).left, (hshape parent).width]
        have hright := hnested.1.right
        omega
      obtain ⟨w₃, hw₃⟩ := ih hnot.2 (hpath.tail.after hall hattrs.good)
        (hnested.2.after hall) hfree
      simp only [termWrite, writeTo, hloop, ok_bind, flushRest, withAttrs,
        hw₂, hw₃]
      exact ⟨_, rfl⟩

/-- What a call which blanks cells of the parent leaves behind. -/
structure Blanked (l : List α) (parent : α) (x y : ℤ) (w w' : World α) :
    Prop where
  stays : Stays l w w'
  shapes : SameShapes w w'
  column : (w'.terms parent).cursorX = x
  row : (w'.terms parent).cursorY = y

theorem writeEach_blanks (hnodup : (term :: rest).Nodup)
    (hpath : Path (term :: rest) w) (hnested : Nested w (term :: rest))
    (count : ℕ)
    (hroom : (w.terms term).cursorX + count ≤ (w.terms term).width) :
    ∃ w', writeEach (termWrite term rest) (List.replicate count [blank]) w =
        .ok w' ∧
      Blanked (term :: rest) term ((w.terms term).cursorX + count)
        (w.terms term).cursorY w w' := by
  induction count generalizing w with
  | zero =>
      refine ⟨w, rfl, Stays.refl hpath.good, .refl w, ?_, rfl⟩
      rw [Nat.cast_zero, add_zero]
  | succ count ih =>
      push_cast at hroom
      have hfree : (w.terms term).cursorX < (w.terms term).width := by omega
      obtain ⟨w₁, hwrite⟩ := termWrite_blank hnodup hpath hnested hfree
      have hshape := termWrite_keepsShapes term rest [blank] w w₁ hwrite
      have hspec := termWrite_spec hnodup [blank] hpath.good
      rw [hwrite] at hspec
      obtain ⟨hstay, hput⟩ := hspec
      rw [List.foldl_cons, List.foldl_nil, put_blank hfree] at hput
      have hx : (w₁.terms term).cursorX = (w.terms term).cursorX + 1 := by
        rw [hput]
      have hy : (w₁.terms term).cursorY = (w.terms term).cursorY := by
        rw [hput]
      obtain ⟨w', hmore, hstay', hshape', hcolumn, hrow⟩ := ih
        (hpath.after hshape hstay.good) (hnested.after hshape)
        (by rw [hx, (hshape term).width]; omega)
      refine ⟨w', ?_, hstay.trans hstay', hshape.trans hshape', ?_, ?_⟩
      · rw [List.replicate_succ, writeEach, hwrite, ok_bind, hmore]
      · rw [hcolumn, hx]
        push_cast
        omega
      · rw [hrow, hy]

/-- One row of the child. -/
theorem blankRows_row (hnodup : (term :: parent :: rest).Nodup)
    (hpath : Path (term :: parent :: rest) w)
    (hnested : Nested w (term :: parent :: rest)) {i : ℤ} (hi : 0 ≤ i)
    (hlt : i < (w.terms term).height) (count : ℕ) :
    ∃ w', blankRows term parent rest i (count + 1) w =
        blankRows term parent rest (i + 1) count w' ∧
      Blanked (parent :: rest) parent
        ((w.terms term).left + (w.terms term).width)
        ((w.terms term).top + i) w w' := by
  have hup := List.nodup_cons.1 hnodup
  obtain ⟨hleft, hright, htop, hbottom⟩ := hnested.1
  have hwidth := (hpath.good term List.mem_cons_self).width
  obtain ⟨-, hheight⟩ := hpath.small parent (by simp)
  obtain ⟨hstay, hset⟩ := termSetCursorPos_spec hup.2 hpath.good.tail
    (w.terms term).left ((w.terms term).top + i)
  rw [validX_of (t := w.terms parent) (by omega) (by omega),
    validY_of (t := w.terms parent) (by omega) (by omega)] at hset
  have hshape := termSetCursorPos_sameShapes parent rest (w.terms term).left
    ((w.terms term).top + i) w
  rw [blankRows, addInt_eq (by omega) (by omega)]
  generalize termSetCursorPos parent rest (w.terms term).left
    ((w.terms term).top + i) w = w₁ at hstay hset hshape ⊢
  have hcount : ((w.terms term).width.toNat : ℤ) = (w.terms term).width :=
    Int.toNat_of_nonneg (by omega)
  have hx : (w₁.terms parent).cursorX = (w.terms term).left := by
    rw [hset]
    rfl
  have hy : (w₁.terms parent).cursorY = (w.terms term).top + i := by
    rw [hset]
    rfl
  obtain ⟨w', hwrite, hstay', hshape', hcolumn, hrow⟩ := writeEach_blanks
    hup.2 (hpath.tail.after hshape hstay.good) (hnested.2.after hshape)
    (w.terms term).width.toNat
    (by rw [hcount, hx, (hshape parent).width]; exact hright)
  refine ⟨w', ?_, hstay.trans hstay', hshape.trans hshape', ?_, ?_⟩
  · simp only [hwrite, ok_bind]
  · rw [hcolumn, hcount, hx]
  · rw [hrow, hy]

theorem blankRows_ok (hnodup : (term :: parent :: rest).Nodup)
    (hpath : Path (term :: parent :: rest) w)
    (hnested : Nested w (term :: parent :: rest)) {i : ℤ} (hi : 0 ≤ i)
    {count : ℕ} (hlast : i + count < (w.terms term).height) :
    ∃ w', blankRows term parent rest i (count + 1) w = .ok w' ∧
      Blanked (parent :: rest) parent
        ((w.terms term).left + (w.terms term).width)
        ((w.terms term).top + (i + count)) w w' := by
  obtain ⟨w₁, hrow, hstay, hshape, hcolumn, hy⟩ :=
    blankRows_row hnodup hpath hnested hi (by omega) count
  have hup := List.nodup_cons.1 hnodup
  induction count generalizing i w w₁ with
  | zero =>
      refine ⟨w₁, hrow, hstay, hshape, hcolumn, ?_⟩
      rw [hy, Nat.cast_zero, add_zero]
  | succ count ih =>
      push_cast at hlast
      have hstay' := hstay.cons hpath.good hup.1
      have hpath₁ := hpath.after hshape hstay'.good
      have hlast₁ : i + 1 + count < (w₁.terms term).height := by
        rw [(hshape term).height]
        omega
      obtain ⟨w₂, hrow₂, hstay₂, hshape₂, hcolumn₂, hy₂⟩ := blankRows_row
        hnodup hpath₁ (hnested.after hshape) (show 0 ≤ i + 1 by omega)
        (by omega) count
      obtain ⟨w', hok, hstay₃, hshape₃, hcolumn₃, hy₃⟩ := ih hpath₁
        (hnested.after hshape) (by omega) hlast₁ w₂ hrow₂ hstay₂ hshape₂
        hcolumn₂ hy₂
      refine ⟨w', hrow.trans hok, hstay.trans hstay₃,
        hshape.trans hshape₃, ?_, ?_⟩
      · rw [hcolumn₃, (hshape term).left, (hshape term).width]
      · rw [hy₃, (hshape term).top]
        push_cast
        omega

/-! ## The two calls -/

/-- The cells of a term have been blanked, and nothing else has changed which
the rest of the call depends on. -/
structure CellsBlanked (l : List α) (w w' : World α) : Prop where
  shapes : SameShapes w w'
  good : AllGood l w'
  column : ∀ u, (w'.terms u).cursorX = (w.terms u).cursorX
  row : ∀ u, (w'.terms u).cursorY = (w.terms u).cursorY

theorem blankCells_blanked (hmem : term ∈ l) (hgood : AllGood l w)
    {first : ℤ} (h0 : 0 ≤ first) {count : ℕ}
    (hle : first + count ≤ (w.terms term).chars.length) :
    ∃ w', blankCells term first count w = .ok w' ∧ CellsBlanked l w w' ∧
      w'.queries = w.queries := by
  have hone : AllGood [term] w := fun u hu =>
    hgood u (List.mem_singleton.1 hu ▸ hmem)
  obtain ⟨w', hok, hstay, cells, hown⟩ :=
    blankCells_safe List.mem_cons_self h0 count hone hle
  have hsame : ∀ u, u ≠ term → w'.terms u = w.terms u := fun u hu =>
    hstay.frame u fun hmem => hu (List.mem_singleton.1 hmem)
  refine ⟨w', hok, ⟨blankCells_keepsShapes term first count w w' hok, ?_,
    ?_, ?_⟩, (blankCells_console hok).2⟩
  · intro u hu
    by_cases heq : u = term
    · exact hstay.good u (List.mem_singleton.2 heq)
    · rw [hsame u heq]
      exact hgood u hu
  · intro u
    by_cases heq : u = term
    · rw [heq, hown]
    · rw [hsame u heq]
  · intro u
    by_cases heq : u = term
    · rw [heq, hown]
    · rw [hsame u heq]

omit [DecidableEq α] in
/-- What is asked for behind the blanking of the cells. -/
theorem termGetCursorPos_saved {replies : ℕ → ℤ × ℤ} (parent : α)
    (rest : List α) (hanswers : Answers screen start replies w)
    (hblank : CellsBlanked l w w') (hqueries : w'.queries = w.queries) :
    ∃ w₂, termGetCursorPos replies parent rest w' =
        (saved screen start parent rest w, w₂) ∧ CellsBlanked l w w₂ := by
  obtain ⟨hshape, hgood, hcolumn, hrow⟩ := hblank
  cases rest with
  | nil =>
      refine ⟨{ w'.print .queryCursor with queries := w'.queries + 1 }, ?_,
        hshape, hgood, hcolumn, hrow⟩
      rw [termGetCursorPos, hqueries, hanswers.reply]
      rfl
  | cons above rest =>
      refine ⟨w', ?_, hshape, hgood, hcolumn, hrow⟩
      rw [termGetCursorPos, hcolumn, hrow]
      rfl

theorem termClear_eq {replies : ℕ → ℤ × ℤ}
    (hpath : Path (term :: parent :: rest) w)
    (hanswers : Answers screen start replies w) :
    ∃ w₂, CellsBlanked (term :: parent :: rest) w w₂ ∧
      termClear replies term (parent :: rest) w =
        (do
          let w₃ ← blankRows term parent rest 0
            (w.terms term).height.toNat w₂
          .ok (termSetCursorPos parent rest
            (saved screen start parent rest w).1
            (saved screen start parent rest w).2 w₃)) := by
  have hown := hpath.good term List.mem_cons_self
  have hcells := hown.cells
  obtain ⟨w₁, hok, hblank, hqueries⟩ := blankCells_blanked List.mem_cons_self
    hpath.good le_rfl
    (show 0 + (((w.terms term).width * (w.terms term).height).toNat : ℤ) ≤ _
      by omega)
  obtain ⟨w₂, hget, hblank₂⟩ :=
    termGetCursorPos_saved parent rest hanswers hblank hqueries
  refine ⟨w₂, hblank₂, ?_⟩
  simp only [termClear, hok, ok_bind, hpath.visible term List.mem_cons_self,
    if_true, hget]

theorem termClearLine_eq {replies : ℕ → ℤ × ℤ}
    (hpath : Path (term :: parent :: rest) w)
    (hanswers : Answers screen start replies w) :
    ∃ w₂, CellsBlanked (term :: parent :: rest) w w₂ ∧
      termClearLine replies term (parent :: rest) w =
        (do
          let w₃ ← withAttrs term parent (writeEach (termWrite parent rest)
            (List.replicate (w.terms term).width.toNat [blank]))
            (termSetCursorPos term (parent :: rest) 0
              (w.terms term).cursorY w₂)
          .ok (termSetCursorPos parent rest
            (saved screen start parent rest w).1
            (saved screen start parent rest w).2 w₃)) := by
  have hown := hpath.good term List.mem_cons_self
  have hrow := hown.row_bounds
  have hwidth := hown.start_le
  obtain ⟨w₁, hok, hblank, hqueries⟩ := blankCells_blanked List.mem_cons_self
    hpath.good hrow.1 (show (w.terms term).cursorY * (w.terms term).width +
      ((w.terms term).width.toNat : ℤ) ≤ _ by omega)
  obtain ⟨w₂, hget, hblank₂⟩ :=
    termGetCursorPos_saved parent rest hanswers hblank hqueries
  refine ⟨w₂, hblank₂, ?_⟩
  simp only [termClearLine, hok, ok_bind,
    hpath.visible term List.mem_cons_self, if_true, hget, hblank₂.row term]

/-- The parent's cursor is set to a pair which is in sight. -/
structure Restored (screen : Screen) (start : ℤ × ℤ) (parent : α)
    (rest : List α) (x y : ℤ) (w w' : World α) : Prop where
  column : (w'.terms parent).cursorX = x
  row : (w'.terms parent).cursorY = y
  console : screen.cursorOf start w' =
    screen.goto (shownAt w parent rest x y).1 (shownAt w parent rest x y).2

theorem termSetCursorPos_restored {w₃ : World α} {x' y' : ℤ}
    (hnodup : (parent :: rest).Nodup) (hpath : Path (parent :: rest) w)
    (hshape : SameShapes w w₃) (hgood : AllGood (parent :: rest) w₃)
    (hx : (w₃.terms parent).validX x' = x)
    (hy : (w₃.terms parent).validY y' = y)
    (hsight : InSight w parent rest x y) :
    Restored screen start parent rest x y w
      (termSetCursorPos parent rest x' y' w₃) := by
  have hset := (termSetCursorPos_spec hnodup hgood x' y').2
  obtain ⟨before, hconsole⟩ := termSetCursorPos_shown
    (hpath.after hshape hgood) (hx.symm ▸ hy.symm ▸ hsight.after hshape)
  rw [hx, hy] at hset hconsole
  rw [shownAt_after hshape] at hconsole
  refine ⟨?_, ?_, ?_⟩
  · rw [hset]
    rfl
  · rw [hset]
    rfl
  · rw [Screen.cursorOf, hconsole, List.foldl_append]
    rfl

omit [DecidableEq α] in
theorem validX_restoredX {w₃ : World α} (hshape : SameShapes w w₃)
    (hcolumn : (w₃.terms parent).cursorX =
      (w.terms term).left + (w.terms term).width) (hx : 0 ≤ x) :
    (w₃.terms parent).validX x =
      restoredX (w.terms term) (w.terms parent) x := by
  unfold Term.validX restoredX
  rw [hcolumn, (hshape parent).width]
  split <;> split <;> omega

omit [DecidableEq α] in
theorem validY_restoredY {last : ℤ} {w₃ : World α}
    (hshape : SameShapes w w₃) (hrow : (w₃.terms parent).cursorY = last)
    (hy : 0 ≤ y) :
    (w₃.terms parent).validY y = restoredY (w.terms parent) last y := by
  unfold Term.validY restoredY
  rw [hrow, (hshape parent).height]
  split <;> split <;> omega

omit [DecidableEq α] in
/-- What is saved is no negative number. -/
theorem saved_nonneg {replies : ℕ → ℤ × ℤ} (hgood : Good (w.terms parent))
    (hanswers : Answers screen start replies w) :
    0 ≤ (saved screen start parent rest w).1 ∧
      0 ≤ (saved screen start parent rest w).2 := by
  cases rest with
  | nil =>
      have hrow := hanswers.row_pos
      have hcolumn := hanswers.column_pos
      show 0 ≤ (screen.cursorOf start w).2 ∧ 0 ≤ (screen.cursorOf start w).1
      omega
  | cons above rest => exact ⟨hgood.x_nonneg, hgood.y_nonneg⟩

/-- The end of both calls in nested terms. -/
theorem nested_restored {replies : ℕ → ℤ × ℤ} {last : ℤ} {w₃ : World α}
    (hnodup : (term :: parent :: rest).Nodup)
    (hpath : Path (term :: parent :: rest) w)
    (hnested : Nested w (term :: parent :: rest))
    (hanswers : Answers screen start replies w)
    (hlast : 0 ≤ last ∧ last < (w.terms parent).height)
    (hshape : SameShapes w w₃) (hgood : AllGood (parent :: rest) w₃)
    (hcolumn : (w₃.terms parent).cursorX =
      (w.terms term).left + (w.terms term).width)
    (hrow : (w₃.terms parent).cursorY = last) :
    Restored screen start parent rest
      (restoredX (w.terms term) (w.terms parent)
        (saved screen start parent rest w).1)
      (restoredY (w.terms parent) last (saved screen start parent rest w).2) w
      (termSetCursorPos parent rest (saved screen start parent rest w).1
        (saved screen start parent rest w).2 w₃) := by
  obtain ⟨hx, hy⟩ := @saved_nonneg _ _ _ _ rest _ _
    (hpath.good parent (by simp)) hanswers
  refine termSetCursorPos_restored (List.nodup_cons.1 hnodup).2 hpath.tail
    hshape hgood (validX_restoredX hshape hcolumn hx)
    (validY_restoredY hshape hrow hy) ?_
  have hwidth := (hpath.good term List.mem_cons_self).width
  obtain ⟨hleft, hright, -, -⟩ := hnested.1
  refine hnested.2.inSight ?_ ?_ ?_ ?_
  · unfold restoredX
    split <;> omega
  · unfold restoredX
    split <;> omega
  · unfold restoredY
    split <;> omega
  · unfold restoredY
    split <;> omega

omit [DecidableEq α] in
theorem restored_iff {last : ℤ}
    (h : Restored screen start parent rest
      (restoredX (w.terms term) (w.terms parent)
        (saved screen start parent rest w).1)
      (restoredY (w.terms parent) last (saved screen start parent rest w).2)
      w w') :
    KeepsCursors screen start [parent] w w' ↔
      Restorable screen start term parent rest last w := by
  obtain ⟨hcolumn, hrow, hconsole⟩ := h
  constructor
  · rintro ⟨hstored, hsame⟩
    obtain ⟨hx, hy⟩ := hstored parent List.mem_cons_self
    have hx' := hcolumn.symm.trans hx
    have hy' := hrow.symm.trans hy
    rw [hx', hy', hsame] at hconsole
    exact ⟨hx', hy', hconsole⟩
  · rintro ⟨hx, hy, hshows⟩
    rw [hx, hy] at hconsole
    refine ⟨fun u hu => ?_, hconsole.trans hshows.symm⟩
    rw [List.mem_singleton.1 hu]
    exact ⟨hcolumn.trans hx, hrow.trans hy⟩

/-- In nested terms `term_clear` returns and leaves the cursors of the parent,
of the child and of the console where they were exactly when the parent's is
one which can be restored. -/
theorem termClear_iff {replies : ℕ → ℤ × ℤ}
    (hnodup : (term :: parent :: rest).Nodup)
    (hpath : Path (term :: parent :: rest) w)
    (hnested : Nested w (term :: parent :: rest))
    (hanswers : Answers screen start replies w) :
    (∃ w', termClear replies term (parent :: rest) w = .ok w' ∧
      KeepsCursors screen start [parent, term] w w') ↔
    Restorable screen start term parent rest
      ((w.terms term).top + (w.terms term).height - 1) w := by
  obtain ⟨w₂, hblank, heq⟩ := termClear_eq hpath hanswers
  obtain ⟨count, hcount⟩ : ∃ count : ℕ,
      (w.terms term).height = (count : ℤ) + 1 := by
    have hheight := (hpath.good term List.mem_cons_self).height
    exact ⟨(w.terms term).height.toNat - 1, by omega⟩
  obtain ⟨-, -, htop, hbottom⟩ := hnested.1
  obtain ⟨w₃, hrows, hstay, hshape, hcolumn, hrow⟩ := blankRows_ok hnodup
    (hpath.after hblank.shapes hblank.good) (hnested.after hblank.shapes)
    le_rfl (show (0 : ℤ) + count < (w₂.terms term).height by
      rw [(hblank.shapes term).height]; omega)
  rw [(hblank.shapes term).left, (hblank.shapes term).width] at hcolumn
  rw [(hblank.shapes term).top] at hrow
  have hrestored := nested_restored hnodup hpath hnested hanswers
    (by omega) (hblank.shapes.trans hshape) hstay.good hcolumn hrow
  rw [show (w.terms term).height.toNat = count + 1 by omega, hrows, ok_bind]
    at heq
  have hlast : (w.terms term).top + (0 + (count : ℤ)) =
      (w.terms term).top + (w.terms term).height - 1 := by omega
  rw [hlast] at hrestored
  -- the child is left alone by all but the blanking of its own cells
  have hnot := (List.nodup_cons.1 hnodup).1
  have hchild : (termSetCursorPos parent rest
      (saved screen start parent rest w).1
      (saved screen start parent rest w).2 w₃).terms term = w₂.terms term := by
    rw [(termSetCursorPos_spec (List.nodup_cons.1 hnodup).2 hstay.good _
      _).1.frame term hnot, hstay.frame term hnot]
  rw [heq, ← restored_iff hrestored]
  constructor
  · rintro ⟨_, ⟨⟩, hstored, hconsole⟩
    exact ⟨fun u hu => hstored u (by simp [List.mem_singleton.1 hu]), hconsole⟩
  · rintro ⟨hstored, hconsole⟩
    refine ⟨_, rfl, ?_, hconsole⟩
    rw [List.forall_mem_cons]
    refine ⟨hstored parent List.mem_cons_self, fun u hu => ?_⟩
    rw [List.mem_singleton.1 hu, hchild]
    exact ⟨hblank.column term, hblank.row term⟩

/-- The blanking of the row in nested terms. -/
theorem clearLine_blanked {w₂ : World α}
    (hnodup : (term :: parent :: rest).Nodup)
    (hpath : Path (term :: parent :: rest) w₂)
    (hnested : Nested w₂ (term :: parent :: rest)) {y : ℤ} (hy : 0 ≤ y)
    (hyh : y < (w₂.terms term).height) :
    ∃ w₃, withAttrs term parent (writeEach (termWrite parent rest)
        (List.replicate (w₂.terms term).width.toNat [blank]))
        (termSetCursorPos term (parent :: rest) 0 y w₂) = .ok w₃ ∧
      SameShapes w₂ w₃ ∧ AllGood (parent :: rest) w₃ ∧
      (w₃.terms parent).cursorX =
        (w₂.terms term).left + (w₂.terms term).width ∧
      (w₃.terms parent).cursorY = (w₂.terms term).top + y := by
  have hup := (List.nodup_cons.1 hnodup).2
  have hwidth := (hpath.good term List.mem_cons_self).width
  have hright := hnested.1.right
  have hparent := termSetCursorPos_parent hnodup hpath hnested le_rfl
    (by omega) hy hyh
  have hstay := (termSetCursorPos_spec hnodup hpath.good 0 y).1
  have hshape := termSetCursorPos_sameShapes term (parent :: rest) 0 y w₂
  generalize termSetCursorPos term (parent :: rest) 0 y w₂ = v
    at hparent hstay hshape ⊢
  rw [withAttrs]
  have hattrs := stays_setAttrs (List.mem_cons_self (l := rest))
    hstay.good.tail (v.terms term).attrs
  have hshape' := hshape.trans
    (sameShapes_setAttrs v parent (v.terms term).attrs)
  have hx : ((v.setAttrs parent (v.terms term).attrs).terms parent).cursorX =
      (w₂.terms term).left := by
    rw [World.setAttrs, modify_self, hparent]
    exact add_zero _
  have hy' : ((v.setAttrs parent (v.terms term).attrs).terms parent).cursorY =
      (w₂.terms term).top + y := by
    rw [World.setAttrs, modify_self, hparent]
    rfl
  have hcount : ((w₂.terms term).width.toNat : ℤ) = (w₂.terms term).width :=
    Int.toNat_of_nonneg (by omega)
  obtain ⟨v', hwrite, hstay', hshape'', hcolumn, hrow⟩ := writeEach_blanks hup
    (hpath.tail.after hshape' hattrs.good) (hnested.2.after hshape')
    (w₂.terms term).width.toNat
    (by rw [hcount, hx, (hshape' parent).width]; exact hright)
  rw [hcount, hx] at hcolumn
  rw [hy'] at hrow
  have hback := stays_setAttrs (List.mem_cons_self (l := rest)) hstay'.good
    (v.terms parent).attrs
  refine ⟨v'.setAttrs parent (v.terms parent).attrs, ?_,
    (hshape'.trans hshape'').trans (sameShapes_setAttrs v' parent _),
    hback.good, ?_, ?_⟩
  · simp only [hwrite, ok_bind]
  · rw [World.setAttrs, modify_self]
    exact hcolumn
  · rw [World.setAttrs, modify_self]
    exact hrow

/-- The same of `term_clear_line`, which blanks the row of the child's
cursor. -/
theorem termClearLine_iff {replies : ℕ → ℤ × ℤ}
    (hnodup : (term :: parent :: rest).Nodup)
    (hpath : Path (term :: parent :: rest) w)
    (hnested : Nested w (term :: parent :: rest))
    (hanswers : Answers screen start replies w) :
    (∃ w', termClearLine replies term (parent :: rest) w = .ok w' ∧
      KeepsCursors screen start [parent] w w') ↔
    Restorable screen start term parent rest
      ((w.terms term).top + (w.terms term).cursorY) w := by
  obtain ⟨w₂, hblank, heq⟩ := termClearLine_eq hpath hanswers
  have hown := hpath.good term List.mem_cons_self
  have hy := hown.y_nonneg
  have hyh := hown.y_lt
  obtain ⟨-, -, htop, hbottom⟩ := hnested.1
  obtain ⟨w₃, hok, hshape, hgood, hcolumn, hrow⟩ := clearLine_blanked hnodup
    (hpath.after hblank.shapes hblank.good) (hnested.after hblank.shapes) hy
    (by rw [(hblank.shapes term).height]; exact hyh)
  rw [(hblank.shapes term).left, (hblank.shapes term).width] at hcolumn
  rw [(hblank.shapes term).top] at hrow
  rw [(hblank.shapes term).width] at hok
  have hrestored := nested_restored hnodup hpath hnested hanswers
    (by omega) (hblank.shapes.trans hshape) hgood hcolumn hrow
  rw [hok, ok_bind] at heq
  rw [heq, ← restored_iff hrestored]
  constructor
  · rintro ⟨_, ⟨⟩, hkeeps⟩
    exact hkeeps
  · exact fun hkeeps => ⟨_, rfl, hkeeps⟩

/-! ## Terms which stick out -/

/-- The pair which is saved is the parent's cursor, is in sight, and is what
the console shows. -/
structure Plain (screen : Screen) (start : ℤ × ℤ) (parent : α)
    (rest : List α) (w : World α) : Prop where
  same : saved screen start parent rest w =
    ((w.terms parent).cursorX, (w.terms parent).cursorY)
  sight : InSight w parent rest (w.terms parent).cursorX
    (w.terms parent).cursorY
  shows : Shows screen start parent rest w

/-- Restoring such a pair, wherever the cursors are by then. -/
theorem Plain.keepsCursors {w₃ : World α} (h : Plain screen start parent rest w)
    (hnodup : (parent :: rest).Nodup) (hpath : Path (parent :: rest) w)
    (hshape : SameShapes w w₃) (hgood : AllGood (parent :: rest) w₃) :
    KeepsCursors screen start [parent] w
      (termSetCursorPos parent rest (saved screen start parent rest w).1
        (saved screen start parent rest w).2 w₃) := by
  obtain ⟨hsame, hsight, hshows⟩ := h
  obtain ⟨hx, hxw, hy, hyh⟩ := hsight.bounds
  rw [← (hshape parent).width] at hxw
  rw [← (hshape parent).height] at hyh
  rw [hsame]
  obtain ⟨hcolumn, hrow, hconsole⟩ := termSetCursorPos_restored hnodup hpath
    hshape hgood (validX_of hx hxw) (validY_of hy hyh) hsight
  refine ⟨fun u hu => ?_, hconsole.trans hshows.symm⟩
  rw [List.mem_singleton.1 hu]
  exact ⟨hcolumn, hrow⟩

/-- Wherever the terms lie, a `term_clear` which returns restores a plain
cursor. -/
theorem termClear_plain {replies : ℕ → ℤ × ℤ}
    (hnodup : (term :: parent :: rest).Nodup)
    (hpath : Path (term :: parent :: rest) w)
    (hanswers : Answers screen start replies w)
    (hplain : Plain screen start parent rest w)
    (hok : termClear replies term (parent :: rest) w = .ok w') :
    KeepsCursors screen start [parent, term] w w' := by
  obtain ⟨w₂, hblank, heq⟩ := termClear_eq hpath hanswers
  obtain ⟨hnot, hup⟩ := List.nodup_cons.1 hnodup
  rw [heq] at hok
  obtain ⟨w₃, hrows, hlast⟩ := bind_eq_ok hok
  cases hlast
  have hshape := blankRows_keepsShapes term parent rest 0
    (w.terms term).height.toNat w₂ w₃ hrows
  have hsafe := @blankRows_safe _ _ term parent rest hup 0
    (w.terms term).height.toNat w₂ hblank.good.tail
  rw [hrows] at hsafe
  obtain ⟨hstored, hconsole⟩ := hplain.keepsCursors hup hpath.tail
    (hblank.shapes.trans hshape) hsafe.good
  refine ⟨?_, hconsole⟩
  rw [List.forall_mem_cons]
  refine ⟨hstored parent List.mem_cons_self, fun u hu => ?_⟩
  rw [List.mem_singleton.1 hu, (termSetCursorPos_spec hup hsafe.good _
    _).1.frame term hnot, hsafe.frame term hnot]
  exact ⟨hblank.column term, hblank.row term⟩

theorem termClearLine_plain {replies : ℕ → ℤ × ℤ}
    (hnodup : (term :: parent :: rest).Nodup)
    (hpath : Path (term :: parent :: rest) w)
    (hanswers : Answers screen start replies w)
    (hplain : Plain screen start parent rest w)
    (hok : termClearLine replies term (parent :: rest) w = .ok w') :
    KeepsCursors screen start [parent] w w' := by
  obtain ⟨w₂, hblank, heq⟩ := termClearLine_eq hpath hanswers
  have hup := (List.nodup_cons.1 hnodup).2
  rw [heq] at hok
  obtain ⟨w₃, hrow, hlast⟩ := bind_eq_ok hok
  cases hlast
  have hset := (termSetCursorPos_spec hnodup hblank.good 0
    (w.terms term).cursorY).1
  have hblanks : ∀ v, AllGood (parent :: rest) v →
      Safe (parent :: rest) v (writeEach (termWrite parent rest)
        (List.replicate (w.terms term).width.toNat [blank]) v) :=
    fun v hv => writeEach_safe (fun str u hu => termWrite_safe hup str hu) _ hv
  have hsafe := withAttrs_safe term List.mem_cons_self hblanks hset.good.tail
  rw [hrow] at hsafe
  have hshape := withAttrs_keepsShapes term parent (fun v =>
    writeEach_keepsShapes (termWrite_keepsShapes parent rest)
      (List.replicate (w.terms term).width.toNat [blank]) v) _ w₃ hrow
  have hset' := termSetCursorPos_sameShapes term (parent :: rest) 0
    (w.terms term).cursorY w₂
  exact hplain.keepsCursors hup hpath.tail
    ((hblank.shapes.trans hset').trans hshape) hsafe.good

/-- A plain cursor is restored by every clearing of a child which returns.  In
nested terms a clearing of a child always returns, and leaves the cursors
where they were exactly when the parent's can be restored. -/
theorem clears_restore_iff (forest : Forest α) {replies : ℕ → ℤ × ℤ}
    (hparents : forest.parents term = parent :: rest)
    (hpath : Path (term :: parent :: rest) w)
    (hanswers : Answers screen start replies w) :
    (Plain screen start parent rest w →
      (∀ w', perform forest replies w (.clear term) = .ok w' →
        KeepsCursors screen start [parent, term] w w') ∧
      ∀ w', perform forest replies w (.clearLine term) = .ok w' →
        KeepsCursors screen start [parent] w w') ∧
    (Nested w (term :: parent :: rest) →
      ((∃ w', perform forest replies w (.clear term) = .ok w' ∧
          KeepsCursors screen start [parent, term] w w') ↔
        Restorable screen start term parent rest
          ((w.terms term).top + (w.terms term).height - 1) w) ∧
      ((∃ w', perform forest replies w (.clearLine term) = .ok w' ∧
          KeepsCursors screen start [parent] w w') ↔
        Restorable screen start term parent rest
          ((w.terms term).top + (w.terms term).cursorY) w)) := by
  have hnodup := forest.nodup term
  simp only [perform, hparents] at hnodup ⊢
  refine ⟨fun hplain => ⟨fun w' hok => ?_, fun w' hok => ?_⟩,
    fun hnested => ⟨?_, ?_⟩⟩
  · exact termClear_plain hnodup hpath hanswers hplain hok
  · exact termClearLine_plain hnodup hpath hanswers hplain hok
  · exact termClear_iff hnodup hpath hnested hanswers
  · exact termClearLine_iff hnodup hpath hnested hanswers

end Worlds

/-- A root term, a term in it, and a term in that one. -/
def twoLevels : Forest (Fin 3) where
  parents
    | 0 => []
    | 1 => [0]
    | 2 => [1, 0]
  above := by
    intro term parent rest h
    fin_cases term
    · cases h
    · cases h
      rfl
    · cases h
      rfl

def twoLevelsWorld : World (Fin 3) where
  terms
    | 0 => blankTerm 8 4 0 0
    | 1 => blankTerm 4 3 2 1
    | 2 => blankTerm 2 2 1 0
  console := []
  queries := 0

/-- A screen of the size of the root terms above. -/
def smallScreen : Screen := ⟨4, 8, fun _ p => (p.1, p.2 + 1)⟩

theorem blankTerm_path {α : Type} {l : List α} {w : World α}
    (h : ∀ u ∈ l, ∃ width height : ℕ, ∃ left top : ℤ,
      w.terms u = blankTerm width height left top ∧
        (0 < width ∧ width < 2147483647) ∧
        0 < height ∧ height < 2147483647) : Path l w := by
  refine ⟨fun u hu => ?_, fun u hu => ?_, fun u hu => ?_⟩
  · obtain ⟨width, height, left, top, heq, hwidth, hheight⟩ := h u hu
    rw [heq]
    refine ⟨?_, ?_, ?_, le_rfl, ?_, le_rfl, ?_⟩
    all_goals simp only [blankTerm, List.length_replicate]
    · omega
    · omega
    · push_cast
      rfl
    · omega
    · omega
  · obtain ⟨width, height, left, top, heq, -⟩ := h u hu
    rw [heq]
    rfl
  · obtain ⟨width, height, left, top, heq, hwidth, hheight⟩ := h u hu
    rw [heq]
    simp only [blankTerm]
    omega

theorem innermost_clears : ∃ w',
    perform twoLevels (fun _ => (3, 2)) twoLevelsWorld (.clear 2) = .ok w' ∧
      KeepsCursors smallScreen (2, 3) [1, 2] twoLevelsWorld w' := by
  have hpath : Path [(2 : Fin 3), 1, 0] twoLevelsWorld := by
    apply blankTerm_path
    simp only [List.forall_mem_cons]
    exact ⟨⟨2, 2, 1, 0, rfl, by decide⟩, ⟨4, 3, 2, 1, rfl, by decide⟩,
      ⟨8, 4, 0, 0, rfl, by decide⟩, by simp⟩
  have hanswers : Answers smallScreen (2, 3) (fun _ => (3, 2))
      twoLevelsWorld := ⟨rfl, by decide, by decide⟩
  have hnested : Nested twoLevelsWorld [(2 : Fin 3), 1, 0] :=
    ⟨⟨by decide, by decide, by decide, by decide⟩,
      ⟨by decide, by decide, by decide, by decide⟩, trivial⟩
  refine (((clears_restore_iff twoLevels rfl hpath hanswers).2 hnested).1).2 ?_
  exact ⟨by decide, by decide, by unfold Shows; decide⟩

/-- The cursor of a root is restored one row and one column further. -/
theorem root_cursor_moves : ¬ ∀ (screen : Screen) (start : ℤ × ℤ)
    (replies : ℕ → ℤ × ℤ) (w w' : World Bool), Path [true, false] w →
    Answers screen start replies w →
    perform oneChild replies w (.clear true) = .ok w' →
      KeepsCursors screen start [false, true] w w' := by
  intro hall
  have hpath : Path [true, false] startWorld := by
    apply blankTerm_path
    simp only [List.forall_mem_cons]
    exact ⟨⟨2, 2, 1, 1, rfl, by decide⟩, ⟨8, 4, 0, 0, rfl, by decide⟩,
      by simp⟩
  have hanswers : Answers smallScreen (1, 1) (fun _ => (1, 1)) startWorld :=
    ⟨rfl, by decide, by decide⟩
  have hnested : Nested startWorld [true, false] :=
    ⟨⟨by decide, by decide, by decide, by decide⟩, trivial⟩
  have hreturn : (perform oneChild (fun _ => (1, 1)) startWorld
      (.clear true)).isOk = true := by decide +kernel
  cases hok : perform oneChild (fun _ => (1, 1)) startWorld (.clear true) with
  | error e =>
      rw [hok] at hreturn
      cases hreturn
  | ok w' =>
      have hkeeps := hall smallScreen (1, 1) (fun _ => (1, 1)) startWorld w'
        hpath hanswers hok
      have hrestorable := (termClear_iff (by decide) hpath hnested
        hanswers).1 ⟨w', hok, hkeeps⟩
      exact absurd hrestorable.column (by decide)

end Terms
end Yjkos
