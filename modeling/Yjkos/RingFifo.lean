import Mathlib.Tactic

/-!
# First-in-first-out rings

A ring of `cap` slots is walked by two indices.  `first` is the slot of the
oldest item, `next` the one behind the newest.  When both are the same, the
ring is full or empty, and `pushed` tells which.
-/

namespace RingFifo

variable {α : Type*}

/-- The slots from `first` on hold the items, the oldest first. -/
structure Holds (slot : ℕ → α) (cap first next : ℕ) (pushed : Bool)
    (items : List α) : Prop where
  first_lt : first < cap
  length_le : items.length ≤ cap
  next_eq : next = (first + items.length) % cap
  pushed_iff : first = next → (pushed = true ↔ items ≠ [])
  slots : ∀ i (h : i < items.length), slot ((first + i) % cap) = items[i]

theorem slot_injective (first : ℕ) {cap i j : ℕ} (hi : i < cap) (hj : j < cap)
    (heq : (first + i) % cap = (first + j) % cap) : i = j :=
  (Nat.ModEq.add_left_cancel' first heq).eq_of_lt_of_lt hi hj

theorem holds_empty (slot : ℕ → α) {cap : ℕ} (hcap : 0 < cap) :
    Holds slot cap 0 0 false [] where
  first_lt := hcap
  length_le := Nat.zero_le _
  next_eq := (Nat.zero_mod _).symm
  pushed_iff _ := by simp
  slots := nofun

variable {slot slot' : ℕ → α} {cap first next : ℕ} {pushed : Bool}
  {items : List α}

namespace Holds

theorem next_lt (h : Holds slot cap first next pushed items) : next < cap := by
  rw [h.next_eq]
  exact Nat.mod_lt _ (Nat.zero_lt_of_lt h.first_lt)

/-- The indices meet when there is no item, or no room. -/
theorem first_eq_next_iff (h : Holds slot cap first next pushed items) :
    first = next ↔ items = [] ∨ items.length = cap := by
  have hfirst := h.first_lt
  have hlength := h.length_le
  have hself : first % cap = first := Nat.mod_eq_of_lt hfirst
  rw [h.next_eq]
  constructor
  · intro heq
    rcases Nat.lt_or_ge items.length cap with hlt | hge
    · left
      have hzero : items.length = 0 := by
        refine slot_injective first hlt (by omega) ?_
        rw [Nat.add_zero, hself]
        exact heq.symm
      exact List.length_eq_zero_iff.1 hzero
    · exact Or.inr (le_antisymm hlength hge)
  · rintro (rfl | hfull)
    · exact hself.symm
    · rw [hfull, Nat.add_mod_right, hself]

theorem empty_iff (h : Holds slot cap first next pushed items) :
    first = next ∧ pushed = false ↔ items = [] := by
  constructor
  · rintro ⟨heq, hpushed⟩
    by_contra hne
    rw [(h.pushed_iff heq).2 hne] at hpushed
    cases hpushed
  · intro hempty
    have heq := h.first_eq_next_iff.2 (Or.inl hempty)
    refine ⟨heq, ?_⟩
    by_contra hpushed
    exact (h.pushed_iff heq).1 (by simpa using hpushed) hempty

theorem full_iff (h : Holds slot cap first next pushed items) :
    first = next ∧ pushed = true ↔ items.length = cap := by
  have hpos := h.first_lt
  constructor
  · rintro ⟨heq, hpushed⟩
    rcases h.first_eq_next_iff.1 heq with hempty | hfull
    · exact absurd hempty ((h.pushed_iff heq).1 hpushed)
    · exact hfull
  · intro hfull
    have heq := h.first_eq_next_iff.2 (Or.inr hfull)
    refine ⟨heq, (h.pushed_iff heq).2 ?_⟩
    rintro rfl
    rw [List.length_nil] at hfull
    omega

/-- An item is put into the slot behind the newest one. -/
theorem push (h : Holds slot cap first next pushed items)
    (hroom : items.length < cap) (hothers : ∀ i ≠ next, slot' i = slot i) :
    Holds slot' cap first ((next + 1) % cap) true (items ++ [slot' next]) where
  first_lt := h.first_lt
  length_le := by
    rw [List.length_append]
    exact hroom
  next_eq := by
    rw [h.next_eq, Nat.mod_add_mod, List.length_append, List.length_singleton,
      Nat.add_assoc]
  pushed_iff _ := by simp
  slots i hi := by
    rw [List.length_append, List.length_singleton] at hi
    rcases Nat.lt_succ_iff_lt_or_eq.1 hi with hold | rfl
    · rw [List.getElem_append_left hold, hothers, h.slots i hold]
      intro heq
      rw [h.next_eq] at heq
      exact hold.ne (slot_injective _ (hold.trans hroom) hroom heq)
    · rw [← h.next_eq]
      simp

/-- The oldest item is taken out of its slot. -/
theorem pop {a : α} (h : Holds slot cap first next pushed (a :: items)) :
    slot first = a ∧ Holds slot cap ((first + 1) % cap) next false items := by
  have hcap : 0 < cap := Nat.zero_lt_of_lt h.first_lt
  have hlength : items.length + 1 ≤ cap := h.length_le
  have hshift : ∀ i, ((first + 1) % cap + i) % cap =
      (first + (i + 1)) % cap := by
    intro i
    rw [Nat.mod_add_mod, Nat.add_assoc, Nat.add_comm 1 i]
  constructor
  · have hfirst := h.slots 0 (Nat.succ_pos _)
    rw [Nat.add_zero, Nat.mod_eq_of_lt h.first_lt] at hfirst
    exact hfirst
  · refine ⟨Nat.mod_lt _ hcap, by omega, ?_, ?_, ?_⟩
    · rw [hshift]
      exact h.next_eq
    · intro heq
      refine iff_of_false nofun (not_not.2 ?_)
      have hmeet : (first + 1) % cap = (first + (items.length + 1)) % cap :=
        heq.trans h.next_eq
      by_contra hne
      have hpos := List.length_pos_iff.2 hne
      have hzero : items.length = 0 := by
        refine slot_injective ((first + 1) % cap) (by omega) hcap ?_
        rw [hshift, ← hmeet]
        exact (Nat.mod_mod _ _).symm
      omega
    · intro i hi
      rw [hshift]
      exact h.slots (i + 1) (Nat.succ_lt_succ hi)

/-- A ring holds one list of items only. -/
theorem unique {items' : List α} (h : Holds slot cap first next pushed items)
    (h' : Holds slot cap first next pushed items') : items = items' := by
  have hlength : items.length = items'.length := by
    have hle := h.length_le
    have hle' := h'.length_le
    by_cases heq : first = next
    · cases hpushed : pushed with
      | true =>
          rw [h.full_iff.1 ⟨heq, hpushed⟩, h'.full_iff.1 ⟨heq, hpushed⟩]
      | false =>
          rw [h.empty_iff.1 ⟨heq, hpushed⟩, h'.empty_iff.1 ⟨heq, hpushed⟩]
    · have hne := mt h.first_eq_next_iff.2 heq
      have hne' := mt h'.first_eq_next_iff.2 heq
      push Not at hne hne'
      exact slot_injective first (by omega) (by omega)
        (h.next_eq.symm.trans h'.next_eq)
  refine List.ext_getElem hlength ?_
  intro i hi hi'
  rw [← h.slots i hi, ← h'.slots i hi']

end Holds

end RingFifo
