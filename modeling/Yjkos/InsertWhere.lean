import Mathlib.Tactic

/-!
# Insertion into a stream

A mark is put in front of some items of a stream.  Whether it is wanted there
depends on the item and on all the items before it.
-/

namespace InsertWhere

variable {α : Type*}

/-- `past` are the items before the list. -/
def insertWhere (mark : α) (wanted : List α → α → Bool) :
    List α → List α → List α
  | _, [] => []
  | past, item :: rest =>
      (if wanted past item then [mark, item] else [item]) ++
        insertWhere mark wanted (past ++ [item]) rest

variable {mark : α} {wanted wanted' : List α → α → Bool}

theorem insertWhere_append (past l l' : List α) :
    insertWhere mark wanted past (l ++ l') =
      insertWhere mark wanted past l ++
        insertWhere mark wanted (past ++ l) l' := by
  induction l generalizing past with
  | nil => rw [List.nil_append, List.append_nil, insertWhere, List.nil_append]
  | cons item rest ih =>
      rw [List.cons_append, insertWhere, insertWhere, ih, List.append_assoc,
        List.append_assoc, List.singleton_append]

/-- One item further, the mark is wanted in front of the same items. -/
theorem agree_cons_iff (past : List α) (item : α) (rest : List α) :
    (∀ front c back, item :: rest = front ++ c :: back →
      wanted (past ++ front) c = wanted' (past ++ front) c) ↔
    wanted past item = wanted' past item ∧
      ∀ front c back, rest = front ++ c :: back →
        wanted (past ++ [item] ++ front) c =
          wanted' (past ++ [item] ++ front) c := by
  constructor
  · intro h
    refine ⟨?_, ?_⟩
    · simpa using h [] item rest rfl
    · rintro front c back rfl
      have hthis := h (item :: front) c back rfl
      rwa [List.append_assoc, List.singleton_append]
  · rintro ⟨hhead, hrest⟩ front c back heq
    cases front with
    | nil =>
        obtain ⟨rfl, rfl⟩ := List.cons.inj heq
        rwa [List.append_nil]
    | cons first front =>
        obtain ⟨rfl, rfl⟩ := List.cons.inj heq
        have hthis := hrest front c back rfl
        rwa [List.append_assoc, List.singleton_append] at hthis

/-- Where the mark is put in front of other items only, two insertions give
one result only when they agree everywhere. -/
theorem insertWhere_eq_iff
    (hmark : ∀ past c, wanted past c = true → c ≠ mark)
    (hmark' : ∀ past c, wanted' past c = true → c ≠ mark)
    (past l : List α) :
    insertWhere mark wanted past l = insertWhere mark wanted' past l ↔
      ∀ front c back, l = front ++ c :: back →
        wanted (past ++ front) c = wanted' (past ++ front) c := by
  induction l generalizing past with
  | nil => simp [insertWhere]
  | cons item rest ih =>
      rw [agree_cons_iff, ← ih, insertWhere, insertWhere]
      cases h : wanted past item with
      | false =>
          cases h' : wanted' past item with
          | false => simp
          | true =>
              have hne := hmark' past item h'
              simp [hne]
      | true =>
          have hne := hmark past item h
          cases h' : wanted' past item with
          | false => simp [hne.symm]
          | true => simp

end InsertWhere
