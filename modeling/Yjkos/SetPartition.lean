import Mathlib.Data.Set.Card
import Mathlib.Tactic
import Mathlib.Order.CompletePartialOrder

/-!
# Partitions given by a list of parts

A list of sets partitions a set when its members are non-empty, pairwise
disjoint and cover exactly that set; it tiles the set when some members may be
empty.  A part may be replaced by the parts of a partition of it, a set may be
cut out of all parts, and the order of the list does not matter.
-/

namespace SetPartition

variable {α : Type*} {parts parts' pieces : List (Set α)} {whole P : Set α}

/-- Pairwise disjoint parts of which the set consists. -/
structure Tiles (parts : List (Set α)) (whole : Set α) : Prop where
  disjoint : parts.Pairwise Disjoint
  cover : ∀ a, a ∈ whole ↔ ∃ P ∈ parts, a ∈ P

theorem tiles_singleton (P : Set α) : Tiles [P] P := by
  constructor
  · exact List.pairwise_singleton _ _
  · simp

theorem tiles_pair {Q : Set α} (hdisj : Disjoint P Q) :
    Tiles [P, Q] (P ∪ Q) := by
  constructor
  · simpa using hdisj
  · simp

theorem Tiles.perm (h : Tiles parts whole) (hperm : parts.Perm parts') :
    Tiles parts' whole := by
  constructor
  · exact h.disjoint.perm hperm fun hdisj => hdisj.symm
  · intro a
    rw [h.cover a]
    simp only [hperm.mem_iff]

theorem Tiles.tail (h : Tiles (P :: parts) whole) :
    Tiles parts (whole \ P) := by
  have hcons := List.pairwise_cons.mp h.disjoint
  constructor
  · exact hcons.2
  · intro a
    rw [Set.mem_sdiff, h.cover a]
    constructor
    · rintro ⟨⟨Q, hQ, ha⟩, hnot⟩
      rcases List.mem_cons.mp hQ with rfl | hQ
      · exact absurd ha hnot
      · exact ⟨Q, hQ, ha⟩
    · rintro ⟨Q, hQ, ha⟩
      refine ⟨⟨Q, List.mem_cons_of_mem P hQ, ha⟩, fun hP => ?_⟩
      exact Set.disjoint_left.mp (hcons.1 Q hQ) hP ha

/-- Cutting a set out of the first part and out of the others. -/
theorem Tiles.sdiff_cons {rest : List (Set α)} {cut : Set α}
    (h : Tiles (P :: parts) whole) (hpieces : Tiles pieces (P \ cut))
    (hrest : Tiles rest ((whole \ P) \ cut)) :
    Tiles (pieces ++ rest) (whole \ cut) := by
  have hsubset : P ⊆ whole :=
    fun a ha => (h.cover a).mpr ⟨P, List.mem_cons_self, ha⟩
  constructor
  · refine List.pairwise_append.mpr ⟨hpieces.disjoint, hrest.disjoint, ?_⟩
    intro Q hQ R hR
    refine Set.disjoint_left.mpr fun a haQ haR => ?_
    have hleft := (hpieces.cover a).mpr ⟨Q, hQ, haQ⟩
    have hright := (hrest.cover a).mpr ⟨R, hR, haR⟩
    exact hright.1.2 hleft.1
  · intro a
    simp only [List.mem_append, or_and_right, exists_or, ← hpieces.cover a,
      ← hrest.cover a]
    constructor
    · rintro ⟨hwhole, hcut⟩
      by_cases hP : a ∈ P
      · exact Or.inl ⟨hP, hcut⟩
      · exact Or.inr ⟨⟨hwhole, hP⟩, hcut⟩
    · rintro (⟨hP, hcut⟩ | ⟨⟨hwhole, -⟩, hcut⟩)
      · exact ⟨hsubset hP, hcut⟩
      · exact ⟨hwhole, hcut⟩

/-- Tiles of which none is empty. -/
structure IsPartition (parts : List (Set α)) (whole : Set α) : Prop where
  nonempty : ∀ P ∈ parts, P.Nonempty
  disjoint : parts.Pairwise Disjoint
  cover : ∀ a, a ∈ whole ↔ ∃ P ∈ parts, a ∈ P

theorem IsPartition.tiles (h : IsPartition parts whole) :
    Tiles parts whole :=
  ⟨h.disjoint, h.cover⟩

theorem isPartition_singleton (h : whole.Nonempty) :
    IsPartition [whole] whole := by
  constructor
  · simpa using h
  · simp
  · simp

theorem IsPartition.perm (h : IsPartition parts whole)
    (hperm : parts.Perm parts') : IsPartition parts' whole := by
  have htiles := h.tiles.perm hperm
  refine ⟨fun P hP => ?_, htiles.disjoint, htiles.cover⟩
  exact h.nonempty P (hperm.mem_iff.mpr hP)

/-- Refining one part. -/
theorem IsPartition.refine (h : IsPartition (P :: parts) whole)
    (hpieces : IsPartition pieces P) :
    IsPartition (pieces ++ parts) whole := by
  have hfirst := (List.pairwise_cons.mp h.disjoint).1
  constructor
  · intro Q hQ
    rcases List.mem_append.mp hQ with hQ | hQ
    · exact hpieces.nonempty Q hQ
    · exact h.nonempty Q (List.mem_cons_of_mem P hQ)
  · refine List.pairwise_append.mpr ⟨hpieces.disjoint,
      (List.pairwise_cons.mp h.disjoint).2, ?_⟩
    intro Q hQ R hR
    have hsubset : Q ⊆ P := fun a ha => (hpieces.cover a).mpr ⟨Q, hQ, ha⟩
    exact (hfirst R hR).mono_left hsubset
  · intro a
    rw [h.cover a]
    simp only [List.mem_cons, List.mem_append, or_and_right, exists_or,
      exists_eq_left, hpieces.cover a]

/-- A part outside of what is covered so far. -/
theorem IsPartition.cons (h : IsPartition parts whole) (hP : P.Nonempty)
    (hdisj : Disjoint P whole) : IsPartition (P :: parts) (P ∪ whole) := by
  constructor
  · intro Q hQ
    rcases List.mem_cons.mp hQ with rfl | hQ
    · exact hP
    · exact h.nonempty Q hQ
  · refine List.pairwise_cons.mpr ⟨fun Q hQ => ?_, h.disjoint⟩
    exact hdisj.mono_right fun a ha => (h.cover a).mpr ⟨Q, hQ, ha⟩
  · intro a
    rw [Set.mem_union, h.cover a]
    simp only [List.mem_cons, or_and_right, exists_or, exists_eq_left]

/-- Taking a part away. -/
theorem IsPartition.tail (h : IsPartition (P :: parts) whole) :
    IsPartition parts (whole \ P) := by
  have htiles := h.tiles.tail
  refine ⟨fun Q hQ => ?_, htiles.disjoint, htiles.cover⟩
  exact h.nonempty Q (List.mem_cons_of_mem P hQ)

/-- The parts which are not empty partition the set. -/
theorem Tiles.isPartition {β : Type*} {f : β → Set α} {l : List β}
    (h : Tiles (l.map f) whole) {p : β → Bool}
    (hp : ∀ b, p b = true ↔ (f b).Nonempty) :
    IsPartition ((l.filter p).map f) whole := by
  constructor
  · intro P hP
    obtain ⟨b, hb, rfl⟩ := List.mem_map.mp hP
    exact (hp b).mp (List.mem_filter.mp hb).2
  · exact h.disjoint.sublist (List.filter_sublist.map f)
  · intro a
    rw [h.cover a]
    simp only [List.mem_map, List.mem_filter, exists_exists_and_eq_and]
    constructor
    · rintro ⟨b, hb, ha⟩
      exact ⟨b, ⟨hb, (hp b).mpr ⟨a, ha⟩⟩, ha⟩
    · rintro ⟨b, ⟨hb, -⟩, ha⟩
      exact ⟨b, hb, ha⟩

theorem isPartition_sUnion (hnonempty : ∀ P ∈ parts, P.Nonempty)
    (hdisj : parts.Pairwise Disjoint) :
    IsPartition parts {a | ∃ P ∈ parts, a ∈ P} :=
  ⟨hnonempty, hdisj, fun _ => Iff.rfl⟩

/-- The parts of a finite set have as many elements as the set. -/
theorem IsPartition.ncard_eq (h : IsPartition parts whole)
    (hfinite : whole.Finite) : whole.ncard = (parts.map Set.ncard).sum := by
  induction parts generalizing whole with
  | nil =>
      have hempty : whole = ∅ := by
        ext a
        simp [h.cover a]
      simp [hempty]
  | cons P parts ih =>
      have hsubset : P ⊆ whole :=
        fun a ha => (h.cover a).mpr ⟨P, List.mem_cons_self, ha⟩
      have hrest := ih h.tail (hfinite.subset Set.sdiff_subset)
      rw [List.map_cons, List.sum_cons, ← hrest, Nat.add_comm]
      exact (Set.ncard_sdiff_add_ncard_of_subset hsubset hfinite).symm

/-- A part listed twice would meet itself. -/
theorem IsPartition.nodup_of_map {β : Type*} {f : β → Set α} {l : List β}
    (h : IsPartition (l.map f) whole) : l.Nodup := by
  induction l generalizing whole with
  | nil => exact List.nodup_nil
  | cons b l ih =>
      have hcons := List.pairwise_cons.mp h.disjoint
      have hrest : IsPartition (l.map f) {a | ∃ P ∈ l.map f, a ∈ P} := by
        constructor
        · intro P hP
          exact h.nonempty P (List.mem_cons_of_mem _ hP)
        · exact hcons.2
        · simp
      refine List.nodup_cons.mpr ⟨?_, ih hrest⟩
      intro hmem
      have hself := hcons.1 (f b) (List.mem_map_of_mem hmem)
      have hnonempty := h.nonempty (f b) List.mem_cons_self
      exact hnonempty.ne_empty (disjoint_self.mp hself)

/-- Two different members of the list have no element in common. -/
theorem IsPartition.eq_of_mem {β : Type*} {f : β → Set α} {l : List β}
    (h : IsPartition (l.map f) whole) {b c : β} (hb : b ∈ l) (hc : c ∈ l)
    {a : α} (hab : a ∈ f b) (hac : a ∈ f c) : b = c := by
  by_contra hne
  have hdisj := List.pairwise_map.mp h.disjoint
  have hsymm : Std.Symm fun x y => Disjoint (f x) (f y) :=
    ⟨fun _ _ hxy => hxy.symm⟩
  exact Set.disjoint_left.mp (hdisj.forall hb hc hne) hab hac

/-- The same parts, but that one of them may have been split in two. -/
def SplitOnce (parts parts' : List (Set α)) : Prop :=
  parts'.Perm parts ∨
    ∃ P first second rest, IsPartition [first, second] P ∧
      parts.Perm (P :: rest) ∧ parts'.Perm (first :: second :: rest)

theorem SplitOnce.perm {parts'' : List (Set α)} (h : SplitOnce parts parts')
    (hperm : parts''.Perm parts') : SplitOnce parts parts'' := by
  rcases h with h | ⟨P, first, second, rest, hpair, hparts, hparts'⟩
  · exact .inl (hperm.trans h)
  · exact .inr ⟨P, first, second, rest, hpair, hparts, hperm.trans hparts'⟩

/-- The parts have the same elements. -/
theorem SplitOnce.mem_iff (h : SplitOnce parts parts') (a : α) :
    (∃ P ∈ parts', a ∈ P) ↔ ∃ P ∈ parts, a ∈ P := by
  rcases h with h | ⟨P, first, second, rest, hpair, hparts, hparts'⟩
  · simp only [h.mem_iff]
  · have hcover := hpair.cover a
    simp only [List.mem_cons, List.not_mem_nil, or_false, exists_eq_or_imp,
      exists_eq_left] at hcover
    simp only [hparts.mem_iff, hparts'.mem_iff, List.mem_cons,
      exists_eq_or_imp, hcover, or_assoc]

/-- Of two disjoint intervals, the one which does not end below the other one
starts above it. -/
theorem lt_of_disjoint_Icc {β : Type*} [LinearOrder β] {a b c d : β}
    (hab : a ≤ b) (hcd : c ≤ d)
    (hdisj : Disjoint (Set.Icc a b) (Set.Icc c d)) (h : ¬b < c) : d < a := by
  by_contra hda
  have hleft : max a c ∈ Set.Icc a b :=
    ⟨le_max_left a c, max_le hab (not_lt.mp h)⟩
  have hright : max a c ∈ Set.Icc c d :=
    ⟨le_max_right a c, max_le (not_lt.mp hda) hcd⟩
  exact Set.disjoint_left.mp hdisj hleft hright

end SetPartition
