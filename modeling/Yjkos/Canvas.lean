import Mathlib.Tactic

/-!
# Rows of a memory

A memory is a function of the address.  The rows of a picture in it begin
`stride` addresses apart, so that a pixel is found by its row and its column.
What is painted row by row is described by the rows and columns it covers.
-/

namespace Canvas

variable {α : Type*}

/-- An assignment to each of `count` addresses. -/
def paint (m : ℕ → α) (first count : ℕ) (f : ℕ → α) : ℕ → α := fun i =>
  if first ≤ i ∧ i < first + count then f (i - first) else m i

/-- The first `count` addresses of `rows` rows are painted in turn. -/
def paintRows (m : ℕ → α) (first stride count rows : ℕ) (f : ℕ → ℕ → α) :
    ℕ → α :=
  (List.range rows).foldl
    (fun m k => paint m (first + k * stride) count (f k)) m

/-- Rows are copied over those `distance` rows above them, the upper ones
first. -/
def moveRows (m : ℕ → α) (stride count distance rows : ℕ) : ℕ → α :=
  (List.range rows).foldl
    (fun m k => paint m (k * stride) count
      (fun j => m (stride * distance + k * stride + j))) m

variable {m : ℕ → α} {stride count : ℕ}

/-- An address in a part of a row belongs to that row and lies between the
columns of the part. -/
theorem mem_part_iff {row column y x : ℕ} (hx : x < stride)
    (hfit : column + count ≤ stride) :
    row * stride + column ≤ y * stride + x ∧
        y * stride + x < row * stride + column + count ↔
      y = row ∧ column ≤ x ∧ x < column + count := by
  constructor
  · intro hin
    rcases lt_trichotomy y row with habove | rfl | hbelow
    · have hmul : (y + 1) * stride ≤ row * stride :=
        Nat.mul_le_mul_right _ habove
      rw [add_mul] at hmul
      omega
    · omega
    · have hmul : (row + 1) * stride ≤ y * stride :=
        Nat.mul_le_mul_right _ hbelow
      rw [add_mul] at hmul
      omega
  · rintro ⟨rfl, hcolumn, hlt⟩
    omega

theorem paint_at {row column y x : ℕ} (hx : x < stride)
    (hfit : column + count ≤ stride) (f : ℕ → α) :
    paint m (row * stride + column) count f (y * stride + x) =
      if y = row ∧ column ≤ x ∧ x < column + count then f (x - column)
      else m (y * stride + x) := by
  simp only [paint, mem_part_iff hx hfit]
  split
  next hin =>
    rw [hin.1]
    congr 1
    omega
  next => rfl

theorem paint_of_not_mem {first i : ℕ} (hi : ¬ (first ≤ i ∧ i < first + count))
    (f : ℕ → α) : paint m first count f i = m i := if_neg hi

theorem paint_congr {f g : ℕ → α} {first : ℕ}
    (h : ∀ j, j < count → f j = g j) :
    paint m first count f = paint m first count g := by
  funext i
  simp only [paint]
  split
  next hin => exact h _ (by omega)
  next => rfl

/-- Two neighbouring assignments are one. -/
theorem paint_paint (first a b : ℕ) (f : ℕ → α) :
    paint (paint m first a f) (first + a) b (fun j => f (a + j)) =
      paint m first (a + b) f := by
  funext i
  simp only [paint]
  by_cases hsecond : first + a ≤ i ∧ i < first + a + b
  · rw [if_pos hsecond, if_pos (by omega)]
    congr 1
    omega
  · rw [if_neg hsecond]
    by_cases hfirst : first ≤ i ∧ i < first + a
    · rw [if_pos hfirst, if_pos (by omega)]
    · rw [if_neg hfirst, if_neg (by omega)]

theorem paintRows_at {row column y x : ℕ} (hx : x < stride)
    (hfit : column + count ≤ stride) (rows : ℕ) (f : ℕ → ℕ → α) :
    paintRows m (row * stride + column) stride count rows f
        (y * stride + x) =
      if (row ≤ y ∧ y < row + rows) ∧ column ≤ x ∧ x < column + count then
        f (y - row) (x - column)
      else m (y * stride + x) := by
  induction rows with
  | zero =>
      rw [if_neg (by omega)]
      rfl
  | succ rows ih =>
      have hstart : row * stride + column + rows * stride =
          (row + rows) * stride + column := by ring
      rw [paintRows, List.range_succ, List.foldl_append]
      change paint (paintRows m _ stride count rows f) _ count (f rows) _ = _
      rw [hstart, paint_at hx hfit, ih]
      by_cases hlast : y = row + rows
      · subst hlast
        by_cases hin : column ≤ x ∧ x < column + count
        · rw [if_pos ⟨rfl, hin⟩, if_pos ⟨by omega, hin⟩]
          congr 1
          omega
        · rw [if_neg (fun h => hin h.2), if_neg (fun h => hin h.2),
            if_neg (fun h => hin h.2)]
      · rw [if_neg (fun h => hlast h.1)]
        congr 1
        rw [eq_iff_iff]
        omega

theorem moveRows_at {distance y x : ℕ} (hx : x < stride)
    (hcount : count ≤ stride) (hdistance : 0 < distance) (rows : ℕ) :
    moveRows m stride count distance rows (y * stride + x) =
      if y < rows ∧ x < count then m ((y + distance) * stride + x)
      else m (y * stride + x) := by
  induction rows generalizing y with
  | zero =>
      rw [if_neg (by omega)]
      rfl
  | succ rows ih =>
      rw [moveRows, List.range_succ, List.foldl_append]
      change paint (moveRows m stride count distance rows)
        (rows * stride + 0) count
        (fun j => moveRows m stride count distance rows
          (stride * distance + rows * stride + j)) (y * stride + x) = _
      rw [paint_at hx (by omega)]
      by_cases hlast : y = rows
      · subst hlast
        by_cases hin : x < count
        · -- The row which is copied has not been written yet.
          have hsource : stride * distance + y * stride + (x - 0) =
              (y + distance) * stride + x := by
            rw [Nat.sub_zero]
            ring
          rw [if_pos ⟨rfl, by omega, by omega⟩, if_pos ⟨by omega, hin⟩,
            hsource, ih, if_neg (by omega)]
        · rw [if_neg (by omega), if_neg (by omega), ih, if_neg (by omega)]
      · rw [if_neg (fun h => hlast h.1), ih]
        congr 1
        rw [eq_iff_iff]
        omega

/-- Two memories differ at most in the columns of a rectangle. -/
def SameOutside (stride row rows column count : ℕ) (m m' : ℕ → α) : Prop :=
  ∀ y x, x < stride →
    ¬ ((row ≤ y ∧ y < row + rows) ∧ column ≤ x ∧ x < column + count) →
    m' (y * stride + x) = m (y * stride + x)

variable {row rows column : ℕ} {m m' m'' : ℕ → α}

theorem SameOutside.refl :
    SameOutside stride row rows column count m m := fun _ _ _ _ => rfl

theorem SameOutside.trans
    (h : SameOutside stride row rows column count m m')
    (h' : SameOutside stride row rows column count m' m'') :
    SameOutside stride row rows column count m m'' :=
  fun y x hx hout => (h' y x hx hout).trans (h y x hx hout)

/-- A rectangle may be described by a larger one. -/
theorem SameOutside.mono {row' rows' column' count' : ℕ}
    (h : SameOutside stride row rows column count m m')
    (hrow : row' ≤ row) (hrows : row + rows ≤ row' + rows')
    (hcolumn : column' ≤ column)
    (hcount : column + count ≤ column' + count') :
    SameOutside stride row' rows' column' count' m m' :=
  fun y x hx hout => h y x hx (by omega)

theorem sameOutside_paintRows (hfit : column + count ≤ stride)
    (f : ℕ → ℕ → α) :
    SameOutside stride row rows column count m
      (paintRows m (row * stride + column) stride count rows f) := by
  intro y x hx hout
  rw [paintRows_at hx hfit, if_neg hout]

end Canvas
