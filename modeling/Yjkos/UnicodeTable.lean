import Mathlib.Tactic

/-!
# Tables of characters

A table lists characters for each glyph: single ones, and sequences of them.
A loader which goes through the entries remembers one glyph for a character,
the last one whose entry it was told about.
-/

namespace UnicodeTable

variable {α β : Type*}

/-- The characters of one glyph. -/
structure Entry (α : Type*) where
  singles : List α
  sequences : List (List α)

def Entry.chars (e : Entry α) : List α := e.singles ++ e.sequences.flatten

/-- The index of the last element with a property, counted from `i`. -/
def lastFrom (p : β → Prop) [DecidablePred p] : ℕ → List β → Option ℕ
  | _, [] => none
  | i, e :: rest =>
      match lastFrom p (i + 1) rest with
      | some j => some j
      | none => if p e then some i else none

section Last

variable {p : β → Prop} [DecidablePred p] {i j : ℕ} {e : β} {rest l : List β}

theorem lastFrom_cons :
    lastFrom p i (e :: rest) =
      (lastFrom p (i + 1) rest).or (if p e then some i else none) := by
  rw [lastFrom]
  cases lastFrom p (i + 1) rest <;> rfl

theorem lastFrom_eq_none : lastFrom p i l = none ↔ ∀ e ∈ l, ¬p e := by
  induction l generalizing i with
  | nil => simp [lastFrom]
  | cons e rest ih =>
      rw [lastFrom_cons, Option.or_eq_none_iff, ih, List.forall_mem_cons,
        and_comm]
      simp

/-- The element is at `k`, and none behind it has the property. -/
theorem lastFrom_eq_some :
    lastFrom p i l = some j ↔
      ∃ k e, j = i + k ∧ l[k]? = some e ∧ p e ∧
        ∀ k' e', k < k' → l[k']? = some e' → ¬p e' := by
  induction l generalizing i j with
  | nil => simp [lastFrom]
  | cons first rest ih =>
      rw [lastFrom_cons]
      cases hrest : lastFrom p (i + 1) rest with
      | some j' =>
          rw [Option.some_or, Option.some.injEq]
          obtain ⟨k, e, rfl, hk, he, hlast⟩ := ih.1 hrest
          constructor
          · rintro rfl
            refine ⟨k + 1, e, by omega, hk, he, ?_⟩
            intro k' e' hlt hk'
            obtain ⟨k', rfl⟩ := Nat.exists_eq_add_of_lt (Nat.zero_lt_of_lt hlt)
            rw [Nat.zero_add] at hlt hk'
            exact hlast k' e' (by omega) hk'
          · rintro ⟨m, e', rfl, hm, he', hafter⟩
            rcases lt_trichotomy m (k + 1) with hlt | rfl | hgt
            · exact absurd he (hafter (k + 1) e hlt hk)
            · omega
            · obtain ⟨m, rfl⟩ := Nat.exists_eq_add_of_lt (Nat.zero_lt_of_lt hgt)
              rw [Nat.zero_add] at hgt hm
              exact absurd he' (hlast m e' (by omega) hm)
      | none =>
          have hnone := lastFrom_eq_none.1 hrest
          rw [Option.none_or]
          constructor
          · intro hfirst
            split at hfirst
            next hp =>
              cases hfirst
              refine ⟨0, first, rfl, rfl, hp, ?_⟩
              intro k' e' hlt hk'
              obtain ⟨k', rfl⟩ := Nat.exists_eq_add_of_lt hlt
              rw [Nat.zero_add] at hk'
              exact hnone e' (List.mem_of_getElem? hk')
            next => cases hfirst
          · rintro ⟨k, e, rfl, hk, he, -⟩
            cases k with
            | zero =>
                cases hk
                rw [if_pos he]
                rfl
            | succ k => exact absurd he (hnone e (List.mem_of_getElem? hk))

end Last

end UnicodeTable
