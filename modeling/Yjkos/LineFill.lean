import Mathlib.Tactic

/-!
# Filling lines

Pieces are put on a line as long as they fit into its width, and a piece which
does not begins the next line.  Nothing is lost or reordered, no line is too
wide when no piece is, and no other way to cut the pieces into lines of this
width has fewer of them.
-/

namespace LineFill

variable {α : Type*} {width : ℕ}

/-- The lines from the one which is being filled. -/
def fill (width : ℕ) : List α → List (List α) → List (List α)
  | line, [] => [line]
  | line, piece :: pieces =>
      if width < line.length + piece.length then
        line :: fill width piece pieces
      else fill width (line ++ piece) pieces

theorem fill_ne_nil (line : List α) (pieces : List (List α)) :
    fill width line pieces ≠ [] := by
  induction pieces generalizing line with
  | nil => exact List.cons_ne_nil line []
  | cons piece pieces ih =>
      rw [fill]
      split
      · exact List.cons_ne_nil line _
      · exact ih _

theorem fill_flatten (line : List α) (pieces : List (List α)) :
    (fill width line pieces).flatten = line ++ pieces.flatten := by
  induction pieces generalizing line with
  | nil => simp [fill]
  | cons piece pieces ih =>
      rw [fill]
      split
      · rw [List.flatten_cons, ih, List.flatten_cons]
      · rw [ih, List.flatten_cons, List.append_assoc]

theorem fill_length_le {line : List α} {pieces : List (List α)}
    (hline : line.length ≤ width)
    (hpieces : ∀ piece ∈ pieces, piece.length ≤ width) :
    ∀ l ∈ fill width line pieces, l.length ≤ width := by
  induction pieces generalizing line with
  | nil =>
      intro l hl
      rw [fill, List.mem_singleton] at hl
      rwa [hl]
  | cons piece pieces ih =>
      have hrest : ∀ p ∈ pieces, p.length ≤ width :=
        fun p hp => hpieces p (List.mem_cons_of_mem piece hp)
      rw [fill]
      split
      · intro l hl
        rcases List.mem_cons.1 hl with rfl | hl
        · exact hline
        · exact ih (hpieces piece List.mem_cons_self) hrest l hl
      · next hfits =>
        apply ih _ hrest
        rw [List.length_append]
        omega

/-! ## The number of lines -/

/-- A line which is less full needs no more lines, and at most one line is
lost by any filling of the first one. -/
theorem fill_length_compare {line other : List α} {pieces : List (List α)}
    (hother : other.length ≤ width)
    (hpieces : ∀ piece ∈ pieces, piece.length ≤ width) :
    (line.length ≤ other.length →
      (fill width line pieces).length ≤ (fill width other pieces).length) ∧
    (line.length ≤ width →
      (fill width line pieces).length ≤
        (fill width other pieces).length + 1) := by
  induction pieces generalizing line other with
  | nil => simp [fill]
  | cons piece pieces ih =>
      have hrest : ∀ p ∈ pieces, p.length ≤ width :=
        fun p hp => hpieces p (List.mem_cons_of_mem piece hp)
      have hpiece : piece.length ≤ width := hpieces piece List.mem_cons_self
      have hlen : ∀ l : List α, (l ++ piece).length = l.length + piece.length :=
        fun l => List.length_append
      rw [fill, fill]
      by_cases hline : width < line.length + piece.length
      · by_cases hfull : width < other.length + piece.length
        · rw [if_pos hline, if_pos hfull, List.length_cons, List.length_cons]
          exact ⟨fun _ => le_rfl, fun _ => Nat.le_succ _⟩
        · have hmono : (fill width piece pieces).length ≤
              (fill width (other ++ piece) pieces).length := by
            apply (ih _ hrest).1
            · rw [hlen]
              omega
            · rw [hlen]
              omega
          rw [if_pos hline, if_neg hfull, List.length_cons]
          exact ⟨fun hle => by omega, fun _ => by omega⟩
      · have hfits : (line ++ piece).length ≤ width := by
          rw [hlen]
          omega
        by_cases hfull : width < other.length + piece.length
        · have hloss := (ih hpiece hrest).2 hfits
          rw [if_neg hline, if_pos hfull, List.length_cons]
          exact ⟨fun _ => hloss, fun _ => by omega⟩
        · have hstep := @ih (line ++ piece) (other ++ piece)
            (by rw [hlen]; omega) hrest
          rw [if_neg hline, if_neg hfull]
          refine ⟨fun hle => hstep.1 ?_, fun _ => hstep.2 hfits⟩
          rw [hlen, hlen]
          omega

/-- Pieces which all fit on the line are put there. -/
theorem fill_append {line : List α} {pieces rest : List (List α)}
    (hfits : line.length + pieces.flatten.length ≤ width) :
    fill width line (pieces ++ rest) =
      fill width (line ++ pieces.flatten) rest := by
  induction pieces generalizing line with
  | nil => simp
  | cons piece pieces ih =>
      rw [List.flatten_cons, List.length_append] at hfits
      rw [List.cons_append, fill, if_neg (by omega), ih, List.flatten_cons,
        List.append_assoc]
      rw [List.length_append]
      omega

/-- No way to cut the pieces into lines has fewer of them. -/
theorem fill_minimal {groups : List (List (List α))}
    (hgroups : ∀ group ∈ groups, group.flatten.length ≤ width)
    (hnonempty : groups ≠ []) :
    (fill width [] groups.flatten).length ≤ groups.length := by
  induction groups with
  | nil => exact absurd rfl hnonempty
  | cons group groups ih =>
      have hgroup := hgroups group List.mem_cons_self
      have hrest : ∀ g ∈ groups, g.flatten.length ≤ width :=
        fun g hg => hgroups g (List.mem_cons_of_mem group hg)
      rw [List.flatten_cons, fill_append (by simpa using hgroup),
        List.nil_append]
      cases groups with
      | nil => simp [fill]
      | cons next groups =>
          have hmore := ih hrest (List.cons_ne_nil next groups)
          have hpieces : ∀ piece ∈ (next :: groups).flatten,
              piece.length ≤ width := by
            intro piece hpiece
            obtain ⟨g, hg, hmem⟩ := List.mem_flatten.1 hpiece
            exact (List.sublist_flatten_of_mem hmem).length_le.trans
              (hrest g hg)
          have hloss := (@fill_length_compare α width group.flatten []
            (next :: groups).flatten (Nat.zero_le width) hpieces).2 hgroup
          rw [List.length_cons]
          exact hloss.trans (Nat.succ_le_succ hmore)

end LineFill
