import Yjkos.Terms

/-!
# Bounds of nested terminals

Every call touches the term and the terms above it only, and leaves their
cursors in bounds, or ends in the panic of a term which would have to scroll.
Behind a write the term itself is as if the characters had been put one by
one, whatever the terms above made of them.
-/

namespace Yjkos
namespace Terms

/-- A term between calls. -/
structure Good (t : Term) : Prop where
  width : 1 ≤ t.width
  height : 1 ≤ t.height
  cells : (t.chars.length : ℤ) = t.width * t.height
  x_nonneg : 0 ≤ t.cursorX
  x_le : t.cursorX ≤ t.width
  y_nonneg : 0 ≤ t.cursorY
  y_lt : t.cursorY < t.height

namespace Term

/-- The cursor is elsewhere. -/
def moved (t : Term) (x y : ℤ) : Term := { t with cursorX := x, cursorY := y }

/-- The effect of one character, with a wrap at the width. -/
def put (t : Term) (c : Byte) : Term :=
  if c = newline then t.moved 0 (t.cursorY + 1)
  else if c = carriageReturn then t.moved 0 t.cursorY
  else
    let t := if t.width ≤ t.cursorX then t.moved 0 (t.cursorY + 1) else t
    { t with
      chars := t.chars.set t.dest.toNat ⟨c, t.attrs⟩
      cursorX := t.cursorX + 1 }

end Term

theorem Good.moved {t : Term} (h : Good t) {x y : ℤ} (hx : 0 ≤ x)
    (hxw : x ≤ t.width) (hy : 0 ≤ y) (hyh : y < t.height) :
    Good (t.moved x y) :=
  ⟨h.width, h.height, h.cells, hx, hxw, hy, hyh⟩

/-- The cell under the cursor is one of the term's, unless the cursor stands
behind the line. -/
theorem Good.dest_bounds {t : Term} (h : Good t)
    (hx : t.cursorX < t.width) : 0 ≤ t.dest ∧ t.dest < t.chars.length := by
  have hrow : (t.cursorY + 1) * t.width ≤ t.height * t.width :=
    mul_le_mul_of_nonneg_right (by have := h.y_lt; omega)
      (by have := h.width; omega)
  have hpos : 0 ≤ t.cursorY * t.width :=
    mul_nonneg h.y_nonneg (by have := h.width; omega)
  have hx' := h.x_nonneg
  rw [h.cells, mul_comm t.width, Term.dest]
  constructor
  · omega
  · rw [add_mul, one_mul] at hrow
    omega

theorem Good.write {t : Term} (h : Good t) {x : ℤ} (hx : 0 ≤ x)
    (hxw : x ≤ t.width) (index : ℕ) (cell : CharData) :
    Good { t with chars := t.chars.set index cell, cursorX := x } :=
  ⟨h.width, h.height, by simpa using h.cells, hx, hxw, h.y_nonneg, h.y_lt⟩

section Worlds

variable {α : Type}

def AllGood (l : List α) (w : World α) : Prop := ∀ u ∈ l, Good (w.terms u)

/-- Terms off the list are untouched and those on the list are good. -/
structure Stays (l : List α) (w w' : World α) : Prop where
  frame : ∀ u, u ∉ l → w'.terms u = w.terms u
  good : AllGood l w'

/-- A call which returns has this result, and a call which does not return
ends in the panic. -/
def SafeWith {β : Type} (P : β → Prop) : Except Fault β → Prop
  | .ok b => P b
  | .error e => e = scrollPanic

theorem SafeWith.bind {β γ : Type} {P : β → Prop} {Q : γ → Prop}
    {r : Except Fault β} {next : β → Except Fault γ} (hr : SafeWith P r)
    (hnext : ∀ b, P b → SafeWith Q (next b)) : SafeWith Q (r >>= next) := by
  cases r with
  | ok b => exact hnext b hr
  | error e => exact hr

theorem SafeWith.imp {β : Type} {P Q : β → Prop} {r : Except Fault β}
    (hr : SafeWith P r) (h : ∀ b, P b → Q b) : SafeWith Q r := by
  cases r with
  | ok b => exact h b hr
  | error e => exact hr

abbrev Safe (l : List α) (w : World α) (r : Except Fault (World α)) : Prop :=
  SafeWith (Stays l w) r

theorem Stays.refl {l : List α} {w : World α} (h : AllGood l w) :
    Stays l w w :=
  ⟨fun _ _ => rfl, h⟩

theorem Stays.trans {l : List α} {w w' w'' : World α} (h : Stays l w w')
    (h' : Stays l w' w'') : Stays l w w'' :=
  ⟨fun u hu => (h'.frame u hu).trans (h.frame u hu), h'.good⟩

theorem Stays.safe {l : List α} {w w' : World α} (h : Stays l w w')
    {r : Except Fault (World α)} (hr : Safe l w' r) : Safe l w r :=
  hr.imp fun _ => h.trans

theorem Safe.then {l : List α} {w : World α} {r : Except Fault (World α)}
    {next : World α → Except Fault (World α)} (hr : Safe l w r)
    (hnext : ∀ w', AllGood l w' → Safe l w' (next w')) :
    Safe l w (r >>= next) :=
  SafeWith.bind hr fun w' hw' => hw'.safe (hnext w' hw'.good)

theorem Stays.cons {term : α} {parents : List α} {w w' : World α}
    (hgood : AllGood (term :: parents) w) (hnot : term ∉ parents)
    (h : Stays parents w w') : Stays (term :: parents) w w' := by
  constructor
  · intro u hu
    exact h.frame u fun hmem => hu (List.mem_cons_of_mem term hmem)
  · intro u hu
    cases hu with
    | head => exact (h.frame term hnot).symm ▸ hgood term List.mem_cons_self
    | tail _ hu => exact h.good u hu

theorem Safe.cons {term : α} {parents : List α} {w : World α}
    {r : Except Fault (World α)} (hgood : AllGood (term :: parents) w)
    (hnot : term ∉ parents) (h : Safe parents w r) :
    Safe (term :: parents) w r :=
  h.imp fun _ => Stays.cons hgood hnot

theorem AllGood.tail {term : α} {parents : List α} {w : World α}
    (h : AllGood (term :: parents) w) : AllGood parents w :=
  fun u hu => h u (List.mem_cons_of_mem term hu)

theorem applyAttrs_terms (attrs : Attrs) (term : α) (parents : List α)
    (w : World α) : (applyAttrs attrs term parents w).terms = w.terms := by
  induction parents generalizing term with
  | nil =>
      unfold applyAttrs
      split <;> rfl
  | cons parent rest ih =>
      unfold applyAttrs
      split
      · exact ih parent
      · rfl

theorem writeEach_safe {l : List α} {write : Write α}
    (hwrite : ∀ str w, AllGood l w → Safe l w (write str w))
    (strs : List (List Byte)) {w : World α} (hgood : AllGood l w) :
    Safe l w (writeEach write strs w) := by
  induction strs generalizing w with
  | nil => exact Stays.refl hgood
  | cons str rest ih =>
      exact Safe.then (hwrite str w hgood) fun w' hgood' => ih hgood'

theorem termGetCursorPos_terms (replies : ℕ → ℤ × ℤ) (term : α)
    (parents : List α) (w : World α) :
    (termGetCursorPos replies term parents w).2.terms = w.terms := by
  cases parents <;> rfl

theorem stays_of_terms {l : List α} {w w' : World α}
    (h : w'.terms = w.terms) (hgood : AllGood l w) : Stays l w w' :=
  ⟨fun u _ => congrFun h u, fun u hu => (congrFun h u).symm ▸ hgood u hu⟩

/-- What is left of the term when a part of a line has gone out: the column
is lost. -/
structure Flushed (term : α) (parents : List α) (w w' : World α) : Prop where
  frame : ∀ u, u ∉ term :: parents → w'.terms u = w.terms u
  good : AllGood parents w'
  own : ∃ x, w'.terms term = (w.terms term).moved x (w.terms term).cursorY

theorem Stays.flushed {term : α} {parents : List α} {w w' : World α}
    (hnot : term ∉ parents) (h : Stays parents w w') :
    Flushed term parents w w' where
  frame u hu := h.frame u fun hmem => hu (List.mem_cons_of_mem term hmem)
  good := h.good
  own := ⟨(w.terms term).cursorX, h.frame term hnot⟩

/-! ## Updates -/

variable [DecidableEq α]

@[simp] theorem modify_self (w : World α) (term : α) (f : Term → Term) :
    (w.modify term f).terms term = f (w.terms term) :=
  Function.update_self term _ _

theorem modify_of_ne (w : World α) {term u : α} (h : u ≠ term)
    (f : Term → Term) : (w.modify term f).terms u = w.terms u :=
  Function.update_of_ne h _ _

theorem stays_modify {l : List α} {term : α} {w : World α} (hmem : term ∈ l)
    (hgood : AllGood l w) {f : Term → Term}
    (hf : Good (w.terms term) → Good (f (w.terms term))) :
    Stays l w (w.modify term f) := by
  constructor
  · intro u hu
    refine modify_of_ne w ?_ f
    intro heq
    subst heq
    exact hu hmem
  · intro u hu
    by_cases heq : u = term
    · subst heq
      rw [modify_self]
      exact hf (hgood u hu)
    · rw [modify_of_ne w heq]
      exact hgood u hu

theorem stays_setAttrs {l : List α} {term : α} {w : World α}
    (hmem : term ∈ l) (hgood : AllGood l w) (attrs : Attrs) :
    Stays l w (w.setAttrs term attrs) :=
  stays_modify hmem hgood fun h =>
    ⟨h.width, h.height, h.cells, h.x_nonneg, h.x_le, h.y_nonneg, h.y_lt⟩

/-! ## Moving the cursor -/

theorem validX_of {t : Term} {x : ℤ} (hx : 0 ≤ x) (hxw : x ≤ t.width) :
    t.validX x = x :=
  if_neg (by omega)

theorem validY_of {t : Term} {y : ℤ} (hy : 0 ≤ y) (hyh : y < t.height) :
    t.validY y = y :=
  if_neg (by omega)

theorem Good.validX_bounds {t : Term} (h : Good t) (x : ℤ) :
    0 ≤ t.validX x ∧ t.validX x ≤ t.width := by
  have h1 := h.x_nonneg
  have h2 := h.x_le
  unfold Term.validX
  split <;> omega

theorem Good.validY_bounds {t : Term} (h : Good t) (y : ℤ) :
    0 ≤ t.validY y ∧ t.validY y < t.height := by
  have h1 := h.y_nonneg
  have h2 := h.y_lt
  unfold Term.validY
  split <;> omega

theorem stays_setCursor {l : List α} {term : α} {w : World α}
    (hmem : term ∈ l) (hgood : AllGood l w) {x y : ℤ} (hx : 0 ≤ x)
    (hxw : x ≤ (w.terms term).width) (hy : 0 ≤ y)
    (hyh : y < (w.terms term).height) : Stays l w (w.setCursor term x y) :=
  stays_modify hmem hgood fun h => h.moved hx hxw hy hyh

theorem stays_valid {l : List α} {term : α} {w : World α} (hmem : term ∈ l)
    (hgood : AllGood l w) (x y : ℤ) :
    Stays l w (w.setCursor term ((w.terms term).validX x)
      ((w.terms term).validY y)) := by
  have hx := (hgood term hmem).validX_bounds x
  have hy := (hgood term hmem).validY_bounds y
  exact stays_setCursor hmem hgood hx.1 hx.2 hy.1 hy.2

theorem termSetCursorPos_spec {term : α} {parents : List α} {w : World α}
    (hnodup : (term :: parents).Nodup) (hgood : AllGood (term :: parents) w)
    (x y : ℤ) :
    Stays (term :: parents) w (termSetCursorPos term parents x y w) ∧
      (termSetCursorPos term parents x y w).terms term =
        (w.terms term).moved ((w.terms term).validX x)
          ((w.terms term).validY y) := by
  have hstay := stays_valid List.mem_cons_self hgood x y
  have hself : (w.setCursor term ((w.terms term).validX x)
      ((w.terms term).validY y)).terms term =
        (w.terms term).moved ((w.terms term).validX x)
          ((w.terms term).validY y) :=
    modify_self w term _
  induction parents generalizing term w x y with
  | nil =>
      unfold termSetCursorPos
      by_cases hvisible : (w.terms term).visible
      · simp only [hvisible, if_true]
        exact ⟨⟨hstay.frame, hstay.good⟩, hself⟩
      · simp only [hvisible, Bool.false_eq_true, if_false]
        exact ⟨hstay, hself⟩
  | cons parent rest ih =>
      rw [List.nodup_cons] at hnodup
      unfold termSetCursorPos
      by_cases hvisible : (w.terms term).visible
      · simp only [hvisible, if_true]
        have habove := (ih hnodup.2 hstay.good.tail
          (addInt (w.terms term).left ((w.terms term).validX x))
          (addInt (w.terms term).top ((w.terms term).validY y))
          (stays_valid List.mem_cons_self hstay.good.tail _ _)
          (modify_self _ parent _)).1
        refine ⟨hstay.trans (habove.cons hstay.good hnodup.1), ?_⟩
        rw [habove.frame term hnodup.1, hself]
      · simp only [hvisible, Bool.false_eq_true, if_false]
        exact ⟨hstay, hself⟩

/-! ## Writing above -/

theorem withAttrs_safe {l : List α} (term : α) {parent : α} (hmem : parent ∈ l)
    {write : World α → Except Fault (World α)}
    (hwrite : ∀ w, AllGood l w → Safe l w (write w)) {w : World α}
    (hgood : AllGood l w) : Safe l w (withAttrs term parent write w) := by
  have hset := stays_setAttrs hmem hgood (w.terms term).attrs
  exact hset.safe (Safe.then (hwrite _ hset.good) fun w' hgood' =>
    stays_setAttrs hmem hgood' (w.terms parent).attrs)

/-- Writing to the parent is safe for the terms above. -/
def AboveSafe (parents : List α) : Option (α × Write α) → Prop
  | none => True
  | some (parent, write) =>
      parent ∈ parents ∧
        ∀ str w, AllGood parents w → Safe parents w (write str w)

theorem putChars_terms (term : α) (segment : List Byte) (w : World α) :
    (∀ u, u ≠ term → (putChars term segment w).terms u = w.terms u) ∧
      ∃ x, (putChars term segment w).terms term =
        (w.terms term).moved x (w.terms term).cursorY := by
  induction segment generalizing w with
  | nil => exact ⟨fun _ _ => rfl, (w.terms term).cursorX, rfl⟩
  | cons c rest ih =>
      obtain ⟨hothers, x, hown⟩ := ih ((w.print (.putChar c)).setCursor term
        ((w.terms term).cursorX + 1) (w.terms term).cursorY)
      constructor
      · intro u hu
        exact (hothers u hu).trans (modify_of_ne (w.print (.putChar c)) hu _)
      · refine ⟨x, hown.trans ?_⟩
        rw [World.setCursor, modify_self]
        rfl

theorem flushSegment_spec {term : α} {parents : List α} {w : World α}
    {above : Option (α × Write α)} (hnot : term ∉ parents)
    (habove : AboveSafe parents above) (hgood : AllGood parents w)
    (segment : List Byte) :
    SafeWith (Flushed term parents w) (flushSegment term above segment w) := by
  cases above with
  | none =>
      have happly := applyAttrs_terms (w.terms term).attrs term [] w
      obtain ⟨hothers, x, hown⟩ := putChars_terms term segment
        (applyAttrs (w.terms term).attrs term [] w)
      rw [happly] at hothers hown
      refine ⟨fun u hu => hothers u ?_, fun u hu => ?_, x, hown⟩
      · exact fun heq => hu (heq ▸ List.mem_cons_self)
      · rw [hothers u fun heq => hnot (heq ▸ hu)]
        exact hgood u hu
  | some above =>
      obtain ⟨parent, write⟩ := above
      have hsafe := withAttrs_safe term habove.1
        (fun w' hgood' => writeEach_safe habove.2
          (segment.map fun c => [c]) hgood') hgood
      exact hsafe.imp fun _ => Stays.flushed hnot

theorem flushRest_spec (term : α) {parents : List α} {w : World α}
    {above : Option (α × Write α)} (habove : AboveSafe parents above)
    (hgood : AllGood parents w) (segment : List Byte) :
    Safe parents w (flushRest term above segment w) := by
  cases above with
  | none =>
      have happly := applyAttrs_terms (w.terms term).attrs term [] w
      constructor
      · exact fun u _ => congrFun happly u
      · exact fun u hu => (congrFun happly u).symm ▸ hgood u hu
  | some above =>
      obtain ⟨parent, write⟩ := above
      exact withAttrs_safe term habove.1
        (fun w' hgood' => habove.2 segment w' hgood') hgood

/-! ## The loop of a write -/

/-- The row in which the next character stands. -/
def nextRow (t : Term) (nextChr : Byte) : ℤ :=
  if nextChr = carriageReturn then t.cursorY else t.cursorY + 1

theorem setCursor_setCursor (w : World α) (term : α) (x y x' y' : ℤ) :
    (w.setCursor term x y).setCursor term x' y' = w.setCursor term x' y' := by
  simp [World.setCursor, World.modify, Function.update_idem]

theorem Flushed.newLine {term : α} {parents : List α} {w w' : World α}
    (hgood : AllGood (term :: parents) w) (hnot : term ∉ parents)
    (h : Flushed term parents w w') {y : ℤ} (hy : 0 ≤ y)
    (hyh : y < (w.terms term).height) :
    Stays (term :: parents) w (w'.setCursor term 0 y) ∧
      (w'.setCursor term 0 y).terms term = (w.terms term).moved 0 y := by
  have hown := hgood term List.mem_cons_self
  have hself : (w'.setCursor term 0 y).terms term =
      (w.terms term).moved 0 y := by
    obtain ⟨x, hx⟩ := h.own
    rw [World.setCursor, modify_self, hx]
    rfl
  refine ⟨⟨fun u hu => ?_, fun u hu => ?_⟩, hself⟩
  · have hne : u ≠ term := fun heq => hu (heq ▸ List.mem_cons_self)
    exact (modify_of_ne w' hne _).trans (h.frame u hu)
  · cases hu with
    | head =>
        rw [hself]
        have hwidth := hown.width
        exact hown.moved le_rfl (by omega) hy hyh
    | tail _ hu =>
        have hne : u ≠ term := fun heq => hnot (heq ▸ hu)
        rw [World.setCursor, modify_of_ne w' hne]
        exact h.good u hu

theorem endLine_spec {term : α} {parents : List α} {w : World α}
    {above : Option (α × Write α)} (hnodup : (term :: parents).Nodup)
    (habove : AboveSafe parents above) (hgood : AllGood (term :: parents) w)
    (nextChr : Byte) (segment : List Byte) {start : ℤ} (hstart : 0 ≤ start)
    (hle : start ≤ (w.terms term).width) :
    SafeWith
      (fun w' => Stays (term :: parents) w w' ∧ w'.terms term =
        (w.terms term).moved 0 (nextRow (w.terms term) nextChr))
      (endLine term parents above nextChr segment start w) := by
  have hown := hgood term List.mem_cons_self
  have hnot := (List.nodup_cons.mp hnodup).1
  obtain ⟨hstay, hset⟩ := termSetCursorPos_spec hnodup hgood start
    (w.terms term).cursorY
  rw [validX_of hstart hle, validY_of hown.y_nonneg hown.y_lt] at hset
  unfold endLine
  refine SafeWith.bind
    (flushSegment_spec hnot habove hstay.good.tail segment) ?_
  intro w' hflushed
  have hrow : (w'.terms term).cursorY = (w.terms term).cursorY := by
    obtain ⟨x, hx⟩ := hflushed.own
    rw [hx, hset]
    rfl
  have hnew : ∀ y, 0 ≤ y → y < (w.terms term).height →
      Stays (term :: parents) w (w'.setCursor term 0 y) ∧
        (w'.setCursor term 0 y).terms term = (w.terms term).moved 0 y := by
    intro y hy hyh
    obtain ⟨hline, hat⟩ := hflushed.newLine hstay.good hnot hy
      (by rw [hset]; exact hyh)
    rw [hset] at hat
    exact ⟨hstay.trans hline, hat⟩
  have hself : ∀ y, ((w'.setCursor term 0 y).terms term).height =
      (w.terms term).height ∧
      ((w'.setCursor term 0 y).terms term).cursorY = y := by
    intro y
    obtain ⟨x, hx⟩ := hflushed.own
    rw [World.setCursor, modify_self, hx, hset]
    exact ⟨rfl, rfl⟩
  simp only [hrow, (hself _).2, setCursor_setCursor, (hself _).1, nextRow]
  by_cases hreturn : nextChr = carriageReturn
  · simp only [hreturn, ne_eq, not_true_eq_false, if_false, if_true]
    exact hnew _ hown.y_nonneg hown.y_lt
  · simp only [hreturn, ne_eq, not_false_eq_true, if_true, if_false]
    split
    · rfl
    · next hroom =>
      have hy := hown.y_nonneg
      exact hnew _ (by omega) (by omega)

theorem Good.start_le {t : Term} (h : Good t) : (0 : ℤ) ≤ t.width := by
  have hwidth := h.width
  omega

/-- The state of the loop agrees with the term. -/
structure Line.Agrees (line : Line) (t : Term) : Prop where
  start_nonneg : 0 ≤ line.lineStartCursorX
  start_le : line.lineStartCursorX ≤ t.width
  dest : line.dest = t.dest

theorem storeChar_spec {term : α} {l : List α} {w : World α}
    (hmem : term ∈ l) (hgood : AllGood l w) {line : Line}
    (hline : line.Agrees (w.terms term))
    (hroom : (w.terms term).cursorX < (w.terms term).width) {c : Byte}
    (hnewline : c ≠ newline) (hreturn : c ≠ carriageReturn) :
    SafeWith
      (fun result => Stays l w result.2 ∧
        result.1.Agrees (result.2.terms term) ∧
        result.2.terms term = (w.terms term).put c)
      (storeChar term c line w) := by
  have hown := hgood term hmem
  have hdest := hown.dest_bounds hroom
  have hput : (w.terms term).put c = { w.terms term with
      chars := (w.terms term).chars.set (w.terms term).dest.toNat
        ⟨c, (w.terms term).attrs⟩
      cursorX := (w.terms term).cursorX + 1 } := by
    have hnowrap : ¬(w.terms term).width ≤ (w.terms term).cursorX :=
      not_le.mpr hroom
    simp only [Term.put, if_neg hnewline, if_neg hreturn, if_neg hnowrap]
  have hset : w.setChar term line.dest c = .ok (w.modify term fun t =>
      { t with chars := t.chars.set line.dest.toNat ⟨c, t.attrs⟩ }) := by
    rw [World.setChar, hline.dest]
    exact if_pos hdest
  have hworld : ∀ x y, x = (w.terms term).cursorX →
      y = (w.terms term).cursorY →
      (w.modify term fun t => { t with
        chars := t.chars.set line.dest.toNat ⟨c, t.attrs⟩ }).setCursor term
          (x + 1) y = w.modify term fun t => t.put c := by
    rintro _ _ rfl rfl
    simp only [World.setCursor, World.modify, Function.update_self,
      Function.update_idem, hput, hline.dest]
  unfold storeChar
  rw [hset, ok_bind, modify_self, hworld _ _ rfl rfl]
  have hx := hown.x_nonneg
  have hself := modify_self w term fun t => t.put c
  have hstay : Stays l w (w.modify term fun t => t.put c) := by
    refine stays_modify hmem hgood fun h => ?_
    rw [hput]
    exact h.write (by omega) (by omega) _ _
  refine ⟨hstay, ?_, hself⟩
  · refine ⟨hline.start_nonneg, ?_, ?_⟩
    · rw [modify_self, hput]
      exact hline.start_le
    · rw [modify_self, hput]
      simp only [hline.dest, Term.dest]
      omega

theorem writeChar_spec {term : α} {parents : List α} {w : World α}
    {above : Option (α × Write α)} (hnodup : (term :: parents).Nodup)
    (habove : AboveSafe parents above) (hgood : AllGood (term :: parents) w)
    (c : Byte) {line : Line} (hline : line.Agrees (w.terms term)) :
    SafeWith
      (fun result => Stays (term :: parents) w result.2 ∧
        result.1.Agrees (result.2.terms term) ∧
        result.2.terms term = (w.terms term).put c)
      (writeChar term parents above c line w) := by
  have hmem : term ∈ term :: parents := List.mem_cons_self
  have hown := hgood term hmem
  have hwidth := hown.width
  have hends := endLine_spec hnodup habove hgood c line.segment
    hline.start_nonneg hline.start_le
  unfold writeChar
  by_cases hcontrol : c = newline ∨ c = carriageReturn
  · rw [if_pos (.inr hcontrol)]
    refine SafeWith.bind hends fun w' ⟨hstay, hat⟩ => ?_
    rw [if_pos hcontrol]
    refine ⟨hstay, ⟨le_rfl, (hstay.good term hmem).start_le, rfl⟩, ?_⟩
    · rw [hat]
      cases hcontrol with
      | inl hnewline => simp [Term.put, nextRow, hnewline, newline,
          carriageReturn]
      | inr hreturn => simp [Term.put, nextRow, hreturn, newline,
          carriageReturn]
  · have hkinds := not_or.mp hcontrol
    by_cases hroom : (w.terms term).cursorX < (w.terms term).width
    · have hbranch : ¬((w.terms term).width ≤ (w.terms term).cursorX ∨
          c = newline ∨ c = carriageReturn) :=
        not_or.mpr ⟨not_le.mpr hroom, hcontrol⟩
      rw [if_neg hbranch]
      exact storeChar_spec hmem hgood hline hroom hkinds.1 hkinds.2
    · have hwrap : (w.terms term).width ≤ (w.terms term).cursorX :=
        not_lt.mp hroom
      rw [if_pos (.inl hwrap)]
      refine SafeWith.bind hends fun w' ⟨hstay, hat⟩ => ?_
      rw [if_neg hcontrol]
      have hsub : (w'.terms term).cursorX < (w'.terms term).width := by
        rw [hat]
        exact lt_of_lt_of_le one_pos hwidth
      have hagrees : Line.Agrees ⟨[], 0, (w'.terms term).dest⟩
          (w'.terms term) :=
        ⟨le_rfl, (hstay.good term hmem).start_le, rfl⟩
      refine (storeChar_spec hmem hstay.good hagrees hsub hkinds.1
        hkinds.2).imp fun result h => ⟨hstay.trans h.1, h.2.1, h.2.2.trans ?_⟩
      -- A character behind the width first wraps.
      have hnowrap : ¬(w'.terms term).width ≤ (w'.terms term).cursorX :=
        not_le.mpr hsub
      simp only [Term.put, if_neg hkinds.1, if_neg hkinds.2, if_neg hnowrap,
        if_pos hwrap]
      rw [hat, nextRow, if_neg hkinds.2]

theorem writeLoop_spec {term : α} {parents : List α} {w : World α}
    {above : Option (α × Write α)} (hnodup : (term :: parents).Nodup)
    (habove : AboveSafe parents above) (hgood : AllGood (term :: parents) w)
    (str : List Byte) {line : Line} (hline : line.Agrees (w.terms term)) :
    SafeWith
      (fun result => Stays (term :: parents) w result.2 ∧
        result.1.Agrees (result.2.terms term) ∧
        result.2.terms term = str.foldl Term.put (w.terms term))
      (writeLoop term parents above str line w) := by
  induction str generalizing w line with
  | nil => exact ⟨Stays.refl hgood, hline, rfl⟩
  | cons c rest ih =>
      refine SafeWith.bind (writeChar_spec hnodup habove hgood c hline) ?_
      intro result ⟨hstay, hagrees, hput⟩
      refine (ih hstay.good hagrees).imp fun last h => ?_
      refine ⟨hstay.trans h.1, h.2.1, h.2.2.trans ?_⟩
      rw [hput]
      rfl

theorem writeTo_spec {term : α} {parents : List α} {w : World α}
    {above : Option (α × Write α)} (hnodup : (term :: parents).Nodup)
    (habove : AboveSafe parents above) (hgood : AllGood (term :: parents) w)
    (str : List Byte) :
    SafeWith
      (fun w' => Stays (term :: parents) w w' ∧
        w'.terms term = str.foldl Term.put (w.terms term))
      (writeTo term parents above str w) := by
  have hmem : term ∈ term :: parents := List.mem_cons_self
  have hown := hgood term hmem
  have hnot := (List.nodup_cons.mp hnodup).1
  unfold writeTo
  refine SafeWith.bind (writeLoop_spec hnodup habove hgood str
    ⟨hown.x_nonneg, hown.x_le, rfl⟩) ?_
  intro ⟨line, w'⟩ ⟨hloop, hagrees, hput⟩
  have hgood' := hloop.good term hmem
  obtain ⟨hback, hat⟩ := termSetCursorPos_spec hnodup hloop.good
    line.lineStartCursorX (w'.terms term).cursorY
  rw [validX_of hagrees.start_nonneg hagrees.start_le,
    validY_of hgood'.y_nonneg hgood'.y_lt] at hat
  refine SafeWith.bind (flushRest_spec term habove
    hback.good.tail line.segment) ?_
  intro w'' hflush
  have hsame := hflush.frame term hnot
  rw [hat] at hsame
  have hflushed := hflush.cons hback.good hnot
  obtain ⟨hlast, hlastAt⟩ := termSetCursorPos_spec hnodup hflushed.good
    (w'.terms term).cursorX (w''.terms term).cursorY
  refine ⟨((hloop.trans hback).trans hflushed).trans hlast, ?_⟩
  rw [hlastAt, hsame, ← hput]
  have hx : ((w'.terms term).moved line.lineStartCursorX
      (w'.terms term).cursorY).validX (w'.terms term).cursorX =
        (w'.terms term).cursorX :=
    validX_of hgood'.x_nonneg hgood'.x_le
  have hy : ((w'.terms term).moved line.lineStartCursorX
      (w'.terms term).cursorY).validY ((w'.terms term).moved
        line.lineStartCursorX (w'.terms term).cursorY).cursorY =
        (w'.terms term).cursorY :=
    validY_of hgood'.y_nonneg hgood'.y_lt
  rw [hx, hy]
  rfl

theorem termWrite_spec {term : α} {parents : List α}
    (hnodup : (term :: parents).Nodup) (str : List Byte) {w : World α}
    (hgood : AllGood (term :: parents) w) :
    SafeWith
      (fun w' => Stays (term :: parents) w w' ∧
        w'.terms term = str.foldl Term.put (w.terms term))
      (termWrite term parents str w) := by
  induction parents generalizing term str w with
  | nil =>
      have habove : AboveSafe ([] : List α) none := trivial
      exact writeTo_spec hnodup habove hgood str
  | cons parent rest ih =>
      have habove : AboveSafe (parent :: rest)
          (some (parent, termWrite parent rest)) := by
        refine ⟨List.mem_cons_self, fun str w hgood => ?_⟩
        exact (ih (List.nodup_cons.mp hnodup).2 str hgood).imp fun _ => And.left
      exact writeTo_spec hnodup habove hgood str

theorem termWrite_safe {term : α} {parents : List α}
    (hnodup : (term :: parents).Nodup) (str : List Byte) {w : World α}
    (hgood : AllGood (term :: parents) w) :
    Safe (term :: parents) w (termWrite term parents str w) :=
  (termWrite_spec hnodup str hgood).imp fun _ => And.left

/-! ## Clearing -/

theorem setChar_safe {l : List α} {term : α} {w : World α} (hmem : term ∈ l)
    (hgood : AllGood l w) {index : ℤ} (h0 : 0 ≤ index)
    (hlt : index < (w.terms term).chars.length) (c : Byte) :
    ∃ w', w.setChar term index c = .ok w' ∧ Stays l w w' ∧
      ∃ cells, cells.length = (w.terms term).chars.length ∧
        w'.terms term = { w.terms term with chars := cells } := by
  refine ⟨_, if_pos ⟨h0, hlt⟩, stays_modify hmem hgood fun h =>
    h.write h.x_nonneg h.x_le _ _, _, ?_, modify_self w term _⟩
  exact List.length_set

theorem blankCells_safe {l : List α} {term : α} (hmem : term ∈ l)
    {first : ℤ} (h0 : 0 ≤ first) (count : ℕ) {w : World α}
    (hgood : AllGood l w)
    (hle : first + count ≤ (w.terms term).chars.length) :
    ∃ w', blankCells term first count w = .ok w' ∧ Stays l w w' ∧
      ∃ cells, w'.terms term = { w.terms term with chars := cells } := by
  induction count generalizing first w with
  | zero => exact ⟨w, rfl, Stays.refl hgood, _, rfl⟩
  | succ count ih =>
      obtain ⟨w', hset, hstay, cells, hlength, hown⟩ :=
        setChar_safe hmem hgood h0 (by omega) blank
      obtain ⟨w'', hrest, hstay', more, hown'⟩ :=
        ih (show 0 ≤ first + 1 by omega) hstay.good
          (by rw [hown, hlength]; push_cast at hle ⊢; omega)
      refine ⟨w'', ?_, hstay.trans hstay', more, ?_⟩
      · rw [blankCells, hset, ok_bind, hrest]
      · rw [hown', hown]

theorem blankRows_safe {term parent : α} {rest : List α}
    (hnodup : (parent :: rest).Nodup) (i : ℤ) (count : ℕ) {w : World α}
    (hgood : AllGood (parent :: rest) w) :
    Safe (parent :: rest) w (blankRows term parent rest i count w) := by
  induction count generalizing i w with
  | zero => exact Stays.refl hgood
  | succ count ih =>
      unfold blankRows
      have hset := (termSetCursorPos_spec hnodup hgood (w.terms term).left
        (addInt (w.terms term).top i)).1
      exact hset.safe (Safe.then (writeEach_safe
        (fun str w' hgood' => termWrite_safe hnodup str hgood') _ hset.good)
        fun w' hgood' => ih (i + 1) hgood')

theorem termClear_safe {term : α} {parents : List α}
    (hnodup : (term :: parents).Nodup) (replies : ℕ → ℤ × ℤ) {w : World α}
    (hgood : AllGood (term :: parents) w) :
    Safe (term :: parents) w (termClear replies term parents w) := by
  have hmem : term ∈ term :: parents := List.mem_cons_self
  have hcells := (hgood term hmem).cells
  obtain ⟨w', hblank, hstay, -⟩ := blankCells_safe hmem (le_refl 0)
    ((w.terms term).width * (w.terms term).height).toNat hgood (by omega)
  unfold termClear
  simp only [hblank, ok_bind]
  refine hstay.safe ?_
  split
  · cases parents with
    | nil => exact stays_of_terms rfl hstay.good
    | cons parent rest =>
        have hnodup' := List.nodup_cons.mp hnodup
        have hsame := stays_of_terms
          (termGetCursorPos_terms replies parent rest w') hstay.good
        refine hsame.safe (Safe.cons hsame.good hnodup'.1 ?_)
        refine Safe.then (blankRows_safe hnodup'.2 0 _ hsame.good.tail) ?_
        intro w'' hgood''
        exact (termSetCursorPos_spec hnodup'.2 hgood'' _ _).1
  · exact Stays.refl hstay.good

theorem Good.row_bounds {t : Term} (h : Good t) :
    0 ≤ t.cursorY * t.width ∧
      t.cursorY * t.width + t.width ≤ t.chars.length := by
  have hrow : (t.cursorY + 1) * t.width ≤ t.height * t.width :=
    mul_le_mul_of_nonneg_right (by have := h.y_lt; omega) h.start_le
  rw [h.cells, mul_comm t.width]
  rw [add_mul, one_mul] at hrow
  exact ⟨mul_nonneg h.y_nonneg h.start_le, hrow⟩

theorem termClearLine_safe {term : α} {parents : List α}
    (hnodup : (term :: parents).Nodup) (replies : ℕ → ℤ × ℤ) {w : World α}
    (hgood : AllGood (term :: parents) w) :
    Safe (term :: parents) w (termClearLine replies term parents w) := by
  have hmem : term ∈ term :: parents := List.mem_cons_self
  have hown := hgood term hmem
  have hrow := hown.row_bounds
  have hwidth := hown.start_le
  obtain ⟨w', hblank, hstay, -⟩ := blankCells_safe hmem hrow.1
    (w.terms term).width.toNat hgood (by omega)
  unfold termClearLine
  simp only [hblank, ok_bind]
  split
  · refine hstay.safe ?_
    cases parents with
    | nil => exact stays_of_terms (applyAttrs_terms _ term [] w') hstay.good
    | cons parent rest =>
        have hnodup' := List.nodup_cons.mp hnodup
        have hsame := stays_of_terms
          (termGetCursorPos_terms replies parent rest w') hstay.good
        have hset := (termSetCursorPos_spec hnodup hsame.good 0
          ((termGetCursorPos replies parent rest w').2.terms term).cursorY).1
        refine hsame.safe (hset.safe (Safe.cons hset.good hnodup'.1 ?_))
        have hblanks : ∀ v, AllGood (parent :: rest) v →
            Safe (parent :: rest) v (writeEach (termWrite parent rest)
              (List.replicate (w.terms term).width.toNat [blank]) v) :=
          fun v hv => writeEach_safe
            (fun str u hu => termWrite_safe hnodup'.2 str hu) _ hv
        refine Safe.then
          (withAttrs_safe term List.mem_cons_self hblanks hset.good.tail) ?_
        intro w'' hgood''
        exact (termSetCursorPos_spec hnodup'.2 hgood'' _ _).1
  · exact Stays.refl hgood

/-! ## Runs -/

omit [DecidableEq α] in
theorem Forest.length_lt (forest : Forest α) {term above : α}
    (h : above ∈ forest.parents term) :
    (forest.parents above).length < (forest.parents term).length := by
  generalize hlist : forest.parents term = l at h ⊢
  induction l generalizing term with
  | nil => cases h
  | cons parent rest ih =>
      have hup := forest.above hlist
      cases h with
      | head =>
          rw [hup]
          exact Nat.lt_succ_self _
      | tail _ h => exact (ih hup h).trans (Nat.lt_succ_self _)

omit [DecidableEq α] in
theorem Forest.nodup (forest : Forest α) (term : α) :
    (term :: forest.parents term).Nodup := by
  have hnot : term ∉ forest.parents term :=
    fun hmem => lt_irrefl _ (forest.length_lt hmem)
  generalize hlist : forest.parents term = l at hnot ⊢
  induction l generalizing term with
  | nil => exact List.nodup_singleton term
  | cons parent rest ih =>
      have hup := forest.above hlist
      have hoff : parent ∉ rest := by
        intro hmem
        rw [← hup] at hmem
        exact lt_irrefl _ (forest.length_lt hmem)
      exact List.nodup_cons.mpr ⟨hnot, ih parent hup hoff⟩

theorem Stays.allGood {l : List α} {w w' : World α} (h : Stays l w w')
    (hgood : ∀ u, Good (w.terms u)) (u : α) : Good (w'.terms u) := by
  by_cases hu : u ∈ l
  · exact h.good u hu
  · exact (h.frame u hu).symm ▸ hgood u

theorem perform_safe (forest : Forest α) (replies : ℕ → ℤ × ℤ)
    {w : World α} (hgood : ∀ u, Good (w.terms u)) (op : Op α) :
    SafeWith (fun w' => ∀ u, Good (w'.terms u))
      (perform forest replies w op) := by
  cases op with
  | write term str =>
      exact (termWrite_safe (forest.nodup term) str fun u _ => hgood u).imp
        fun w' h => h.allGood hgood
  | setCursorPos term x y =>
      exact (termSetCursorPos_spec (forest.nodup term) (fun u _ => hgood u)
        x y).1.allGood hgood
  | clear term =>
      exact (termClear_safe (forest.nodup term) replies
        fun u _ => hgood u).imp fun w' h => h.allGood hgood
  | clearLine term =>
      exact (termClearLine_safe (forest.nodup term) replies
        fun u _ => hgood u).imp fun w' h => h.allGood hgood

theorem run_safe (forest : Forest α) (replies : ℕ → ℤ × ℤ)
    (ops : List (Op α)) {w : World α} (hgood : ∀ u, Good (w.terms u)) :
    SafeWith (fun w' => ∀ u, Good (w'.terms u))
      (run forest replies ops w) := by
  induction ops generalizing w with
  | nil => exact hgood
  | cons op ops ih =>
      exact SafeWith.bind (perform_safe forest replies hgood op)
        fun w' hgood' => ih hgood'

/-- No call of a run stores outside the cells: a run which does not return
ends in the panic.  Otherwise every term is good, and a further write leaves
its own term as if its characters were put one by one. -/
theorem run_in_bounds (forest : Forest α) (replies : ℕ → ℤ × ℤ)
    {w : World α} (hgood : ∀ u, Good (w.terms u)) (ops : List (Op α)) :
    (∀ e, run forest replies ops w = .error e → e = scrollPanic) ∧
      ∀ w', run forest replies ops w = .ok w' →
        (∀ u, Good (w'.terms u)) ∧
        ∀ term str w'', termWrite term (forest.parents term) str w' =
            .ok w'' →
          w''.terms term = str.foldl Term.put (w'.terms term) := by
  have hrun := run_safe forest replies ops hgood
  constructor
  · intro e he
    rw [he] at hrun
    exact hrun
  · intro w' hw'
    rw [hw'] at hrun
    refine ⟨hrun, fun term str w'' hwrite => ?_⟩
    have hspec := termWrite_spec (forest.nodup term) str
      (w := w') fun u _ => hrun u
    rw [hwrite] at hspec
    exact hspec.2

end Worlds

/-- A root term, and a term of two by two cells in it. -/
def oneChild : Forest Bool where
  parents term := if term then [false] else []
  above := by
    intro term parent rest h
    cases term with
    | false => cases h
    | true =>
        cases h
        rfl

def blankTerm (width height : ℕ) (left top : ℤ) : Term where
  chars := List.replicate (width * height) ⟨blank, 0⟩
  attrs := 0
  left := left
  top := top
  width := width
  height := height
  cursorX := 0
  cursorY := 0
  visible := true

def startWorld : World Bool where
  terms term := if term then blankTerm 2 2 1 1 else blankTerm 8 4 0 0
  console := []
  queries := 0

theorem startWorld_good (u : Bool) : Good (startWorld.terms u) := by
  cases u with
  | false => exact ⟨by decide, by decide, rfl, le_rfl, by decide, le_rfl,
      by decide⟩
  | true => exact ⟨by decide, by decide, rfl, le_rfl, by decide, le_rfl,
      by decide⟩

/-- A new line of the child, and the clearing of its cells. -/
def childCalls : List (Op Bool) :=
  [.write true [0x61, 0x0a, 0x62], .clear true]

theorem childCalls_return :
    (run oneChild (fun _ => (0, 0)) childCalls startWorld).isOk = true := by
  decide +kernel

theorem childCalls_in_bounds :
    ∃ w', run oneChild (fun _ => (0, 0)) childCalls startWorld = .ok w' ∧
      (∀ u, Good (w'.terms u)) ∧
      ∀ term str w'', termWrite term (oneChild.parents term) str w' =
          .ok w'' →
        w''.terms term = str.foldl Term.put (w'.terms term) := by
  have hreturn := childCalls_return
  cases hrun : run oneChild (fun _ => (0, 0)) childCalls startWorld with
  | error e =>
      rw [hrun] at hreturn
      cases hreturn
  | ok w' =>
      exact ⟨w', rfl, (run_in_bounds oneChild (fun _ => (0, 0))
        startWorld_good childCalls).2 w' hrun⟩

end Terms
end Yjkos
