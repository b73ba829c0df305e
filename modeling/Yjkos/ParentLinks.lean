import Mathlib.Tactic

/-!
# Forests given by parent links

A partial function gives every node its parent.  Such a function is a forest
when no node is above itself.
-/

namespace ParentLinks

variable {α : Type*} {parent parent' : α → Option α}

/-- The node which is `k` links above the start. -/
def above (parent : α → Option α) (k : ℕ) (start : Option α) : Option α :=
  (fun node => node.bind parent)^[k] start

/-- The start, or a node above it. -/
def IsAbove (parent : α → Option α) (node : α) (start : Option α) : Prop :=
  ∃ k, above parent k start = some node

def Acyclic (parent : α → Option α) : Prop :=
  ∀ node, ¬IsAbove parent node (parent node)

@[simp]
theorem above_zero (start : Option α) : above parent 0 start = start := rfl

theorem above_succ (k : ℕ) (start : Option α) :
    above parent (k + 1) start = (above parent k start).bind parent :=
  Function.iterate_succ_apply' _ k start

theorem above_succ_some (k : ℕ) (node : α) :
    above parent (k + 1) (some node) = above parent k (parent node) := rfl

theorem above_add (j k : ℕ) (start : Option α) :
    above parent (j + k) start = above parent j (above parent k start) :=
  Function.iterate_add_apply _ j k start

@[simp]
theorem above_none (k : ℕ) : above parent k none = none :=
  Function.iterate_fixed rfl k

theorem isAbove_none (node : α) : ¬IsAbove parent node none := by
  rintro ⟨k, hk⟩
  rw [above_none] at hk
  cases hk

theorem isAbove_some_iff {node start : α} :
    IsAbove parent node (some start) ↔
      node = start ∨ IsAbove parent node (parent start) := by
  constructor
  · rintro ⟨k, hk⟩
    cases k with
    | zero => exact .inl (Option.some.inj hk).symm
    | succ k => exact .inr ⟨k, hk⟩
  · rintro (rfl | ⟨k, hk⟩)
    · exact ⟨0, rfl⟩
    · exact ⟨k + 1, hk⟩

theorem Acyclic.ne_parent (h : Acyclic parent) {node above : α}
    (hparent : parent node = some above) : node ≠ above := by
  rintro rfl
  exact h node ⟨0, hparent⟩

/-- Without a cycle nothing stands on its own way up. -/
theorem Acyclic.above_ne (h : Acyclic parent) (k : ℕ) (node : α) :
    above parent (k + 1) (some node) ≠ some node :=
  fun hk => h node ⟨k, hk⟩

/-- In a finite forest every way up ends. -/
theorem Acyclic.above_card (h : Acyclic parent) {nodes : Finset α}
    (hparent : ∀ node above, parent node = some above → above ∈ nodes)
    {start : Option α} (hstart : ∀ node, start = some node → node ∈ nodes) :
    above parent nodes.card start = none := by
  by_contra hne
  have hlive : ∀ i, i ≤ nodes.card → ∃ node, above parent i start = some node := by
    intro i hi
    rw [← Option.isSome_iff_exists, ← Option.ne_none_iff_isSome]
    intro hnone
    apply hne
    rw [show nodes.card = (nodes.card - i) + i by omega, above_add, hnone,
      above_none]
  have hmem : ∀ i node, above parent i start = some node → node ∈ nodes := by
    intro i
    cases i with
    | zero => exact hstart
    | succ i =>
        intro node hnode
        rw [above_succ] at hnode
        obtain ⟨below, -, hbelow⟩ := Option.bind_eq_some_iff.1 hnode
        exact hparent below node hbelow
  choose node hnode using fun i : Fin (nodes.card + 1) =>
    hlive i (Nat.le_of_lt_succ i.isLt)
  obtain ⟨i, -, j, -, hij, heq⟩ := Finset.exists_ne_map_eq_of_card_lt_of_maps_to
    (s := Finset.univ) (t := nodes) (f := node) (by simp)
    (fun i _ => hmem i _ (hnode i))
  have hcycle : ∀ i j : Fin (nodes.card + 1), i.val < j.val →
      node i ≠ node j := by
    intro i j hlt heq
    have hi := hnode i
    have hj := hnode j
    rw [show j.val = (j.val - i.val - 1 + 1) + i.val by omega, above_add, hi,
      ← heq] at hj
    exact h.above_ne _ _ hj
  rcases Nat.lt_or_gt_of_ne (fun hval => hij (Fin.ext hval)) with hlt | hgt
  · exact hcycle i j hlt heq
  · exact hcycle j i hgt heq.symm

/-- Taking links away leaves a forest. -/
theorem Acyclic.of_le (h : Acyclic parent)
    (hle : ∀ node, parent' node = parent node ∨ parent' node = none) :
    Acyclic parent' := by
  have hkeep : ∀ k start node, above parent' k start = some node →
      above parent k start = some node := by
    intro k start
    induction k with
    | zero => exact fun _ hnode => hnode
    | succ k ih =>
        intro node hnode
        rw [above_succ] at hnode ⊢
        obtain ⟨below, hbelow, hlink⟩ := Option.bind_eq_some_iff.1 hnode
        rw [ih below hbelow]
        rcases hle below with hsame | hnone
        · rw [hsame] at hlink
          exact hlink
        · rw [hnone] at hlink
          cases hlink
  rintro node ⟨k, hk⟩
  have hstep : above parent' (k + 1) (some node) = some node := hk
  exact h.above_ne k node (hkeep _ _ _ hstep)

section Update

variable [DecidableEq α] {node top : α}

/-- A way up which does not pass the node is not changed by its new link. -/
theorem above_update_of_avoids {k : ℕ} {start : Option α} (link : Option α)
    (h : ∀ j, j < k → above (Function.update parent node link) j start ≠
      some node) :
    above (Function.update parent node link) k start = above parent k start := by
  induction k with
  | zero => rfl
  | succ k ih =>
      have hk := ih (fun j hj => h j (Nat.lt_succ_of_lt hj))
      have hne := h k (Nat.lt_succ_self k)
      rw [above_succ, above_succ, hk]
      rw [hk] at hne
      cases hlast : above parent k start with
      | none => rfl
      | some last =>
          rw [hlast] at hne
          show Function.update parent node link last = parent last
          exact Function.update_of_ne (fun heq => hne (congrArg some heq)) _ _

theorem isAbove_of_update {start : Option α} {link : Option α}
    (h : IsAbove (Function.update parent node link) node start) :
    IsAbove parent node start := by
  classical
  have hfirst := Nat.find_spec h
  have hmin := fun j => Nat.find_min (m := j) h
  rw [above_update_of_avoids link (fun j hj => hmin j hj)] at hfirst
  exact ⟨_, hfirst⟩

/-- A node may be put under any node which is not below it. -/
theorem Acyclic.update (h : Acyclic parent)
    (htop : ¬IsAbove parent node (some top)) :
    Acyclic (Function.update parent node (some top)) := by
  rintro other ⟨k, hk⟩
  have hcycle : above (Function.update parent node (some top)) (k + 1)
      (some other) = some other := hk
  by_cases hpass : ∃ j, above (Function.update parent node (some top)) j
      (some other) = some node
  · obtain ⟨j, hj⟩ := hpass
    have hturn : above (Function.update parent node (some top)) (k + 1)
        (some node) = some node := by
      rw [← hj, ← above_add, Nat.add_comm, above_add, hcycle]
    rw [above_succ_some, Function.update_self] at hturn
    exact htop (isAbove_of_update ⟨k, hturn⟩)
  · rw [above_update_of_avoids _ (fun j _ hj => hpass ⟨j, hj⟩)] at hcycle
    exact h.above_ne k other hcycle

end Update

end ParentLinks
