import Mathlib.Data.Set.Basic
import Mathlib.Tactic
import Mathlib.Order.CompletePartialOrder

/-!
# Buddy trees

A pool of `2 ^ k` pages is cut into dyadic blocks: level `l` has `2 ^ l`
blocks of `2 ^ (k - l)` pages each.  Two blocks are nested or disjoint.  A
marking of the blocks is canonical for a set of free pages when it marks
exactly the maximal free blocks.

The one fact behind both splitting and merging is `maximal_diff_iff`: taking
one maximal free block away changes no other block's maximality.
-/

namespace Buddy

/-- The pages of block `index` on `level` of a pool of `2 ^ k` pages. -/
def Block (k level index : ℕ) : Set ℕ :=
  {page | page / 2 ^ (k - level) = index}

variable {k level up index : ℕ}

theorem mem_block {page : ℕ} :
    page ∈ Block k level index ↔ page / 2 ^ (k - level) = index := Iff.rfl

/-- A block contains the pages of one interval. -/
theorem mem_block_iff_range {page : ℕ} :
    page ∈ Block k level index ↔
      index * 2 ^ (k - level) ≤ page ∧
        page < index * 2 ^ (k - level) + 2 ^ (k - level) := by
  have hpos : 0 < 2 ^ (k - level) := by positivity
  rw [mem_block, Nat.div_eq_iff hpos]
  omega

theorem block_nonempty (k level index : ℕ) :
    (Block k level index).Nonempty :=
  ⟨index * 2 ^ (k - level), Nat.mul_div_cancel _ (by positivity)⟩

theorem lt_of_mem_block {page : ℕ} (hindex : index < 2 ^ level)
    (hlevel : level ≤ k) (hmem : page ∈ Block k level index) :
    page < 2 ^ k := by
  rw [← Nat.add_sub_cancel' hlevel, pow_add]
  exact (Nat.div_lt_iff_lt_mul (by positivity)).mp
    (mem_block.mp hmem ▸ hindex)

/-- The block which contains a page on a coarser level. -/
theorem mem_ancestor_iff {page coarse : ℕ} (hlevel : level + up ≤ k)
    (hmem : page ∈ Block k (level + up) index) :
    page ∈ Block k level coarse ↔ coarse = index / 2 ^ up := by
  have hsplit : 2 ^ (k - level) = 2 ^ (k - (level + up)) * 2 ^ up := by
    rw [← pow_add]
    congr 1
    omega
  rw [mem_block, hsplit, ← Nat.div_div_eq_div_mul, mem_block.mp hmem, eq_comm]

/-- Blocks with a common page are nested. -/
theorem block_subset_of_mem {page coarse fine : ℕ} {level' : ℕ}
    (hlevel : level ≤ level') (hk : level' ≤ k)
    (hfine : page ∈ Block k level' fine)
    (hcoarse : page ∈ Block k level coarse) :
    Block k level' fine ⊆ Block k level coarse := by
  obtain ⟨up, rfl⟩ := Nat.exists_eq_add_of_le hlevel
  intro other hother
  rw [mem_ancestor_iff hk hother]
  exact (mem_ancestor_iff hk hfine).mp hcoarse

theorem index_eq_of_mem {page other : ℕ}
    (h : page ∈ Block k level index) (h' : page ∈ Block k level other) :
    index = other :=
  (mem_block.mp h).symm.trans (mem_block.mp h')

theorem block_subset_parent (hlevel : level + 1 ≤ k) (index : ℕ) :
    Block k (level + 1) index ⊆ Block k level (index / 2) := by
  intro page hpage
  rw [mem_ancestor_iff hlevel hpage, pow_one]

/-! ## Maximal free blocks -/

/-- A free block which is the whole pool or whose parent is not free. -/
def Maximal (k : ℕ) (free : Set ℕ) (level index : ℕ) : Prop :=
  Block k level index ⊆ free ∧
    (level = 0 ∨ ¬Block k (level - 1) (index / 2) ⊆ free)

/-- No larger block around a maximal free block is free. -/
theorem Maximal.not_subset {free : Set ℕ} {level' index' page : ℕ}
    (hmax : Maximal k free level index) (hk : level ≤ k)
    (hlt : level' < level) (hpage : page ∈ Block k level index)
    (hpage' : page ∈ Block k level' index') :
    ¬Block k level' index' ⊆ free := by
  rcases hmax.2 with hzero | hparent
  · omega
  · intro hsubset
    apply hparent
    obtain ⟨level, rfl⟩ := Nat.exists_eq_add_one_of_ne_zero (by omega : level ≠ 0)
    have hmem : page ∈ Block k level (index / 2) :=
      block_subset_parent hk index hpage
    exact (block_subset_of_mem (by omega) (by omega) hmem hpage').trans
      hsubset

/-- Every free block lies in a maximal one. -/
theorem exists_maximal_of_free {free : Set ℕ} (hlevel : level ≤ k)
    (hfree : Block k level index ⊆ free) :
    ∃ up ≤ level, Maximal k free (level - up) (index / 2 ^ up) := by
  induction level generalizing index with
  | zero => exact ⟨0, le_rfl, by simpa using hfree, Or.inl rfl⟩
  | succ level ih =>
      by_cases hparent : Block k level (index / 2) ⊆ free
      · obtain ⟨up, hup, hmax⟩ := ih (by omega) hparent
        refine ⟨up + 1, by omega, ?_⟩
        rw [Nat.div_div_eq_div_mul, ← pow_succ'] at hmax
        rwa [Nat.add_sub_add_right]
      · refine ⟨0, Nat.zero_le _, ?_, Or.inr ?_⟩
        · simpa using hfree
        · simpa using hparent

/-- Taking one maximal free block away keeps all other maximal free blocks
and creates none. -/
theorem maximal_diff_iff {free : Set ℕ} {level' index' : ℕ}
    (hmax : Maximal k free level index) (hk : level ≤ k) (hk' : level' ≤ k)
    (hne : ¬(level' = level ∧ index' = index)) :
    Maximal k (free \ Block k level index) level' index' ↔
      Maximal k free level' index' := by
  constructor
  · rintro ⟨hfree, hparent⟩
    refine ⟨hfree.trans Set.sdiff_subset, ?_⟩
    rcases hparent with hzero | hparent
    · exact Or.inl hzero
    · by_cases hzero : level' = 0
      · exact Or.inl hzero
      obtain ⟨below, rfl⟩ := Nat.exists_eq_add_one_of_ne_zero hzero
      right
      intro hsubset
      apply hparent
      intro page hpage
      refine ⟨hsubset hpage, ?_⟩
      intro hin
      by_cases hlt : below < level
      · exact hmax.not_subset hk hlt hin hpage hsubset
      · -- the parent, and with it the block, lies inside of the taken block
        obtain ⟨own, hown⟩ := block_nonempty k (below + 1) index'
        have hnested := block_subset_of_mem (by omega : level ≤ below)
          (by omega) hpage hin
        exact (hfree hown).2 (hnested (block_subset_parent hk' index' hown))
  · rintro ⟨hfree, hparent⟩
    constructor
    · intro page hpage
      refine ⟨hfree hpage, ?_⟩
      intro hin
      rcases lt_trichotomy level' level with hlt | heq | hgt
      · exact hmax.not_subset hk hlt hin hpage hfree
      · subst heq
        exact hne ⟨rfl, index_eq_of_mem hpage hin⟩
      · exact Maximal.not_subset ⟨hfree, hparent⟩ hk' hgt hpage hin hmax.1
    · rcases hparent with hzero | hparent
      · exact Or.inl hzero
      · exact Or.inr fun hsubset =>
          hparent (hsubset.trans Set.sdiff_subset)

/-! ## Neighbours -/

/-- The other child of the parent block. -/
def neighbor (index : ℕ) : ℕ :=
  if index % 2 = 0 then index + 1 else index - 1

theorem neighbor_ne (index : ℕ) : neighbor index ≠ index := by
  unfold neighbor
  split <;> omega

theorem neighbor_div_two (index : ℕ) : neighbor index / 2 = index / 2 := by
  unfold neighbor
  split <;> omega

theorem neighbor_lt (hindex : index < 2 ^ (level + 1)) :
    neighbor index < 2 ^ (level + 1) := by
  rw [pow_succ] at hindex ⊢
  unfold neighbor
  split <;> omega

/-- The parent consists of a block and its neighbour. -/
theorem parent_subset_union (hlevel : level + 1 ≤ k) (index : ℕ) :
    Block k level (index / 2) ⊆
      Block k (level + 1) index ∪ Block k (level + 1) (neighbor index) := by
  intro page hpage
  have hself : page ∈ Block k (level + 1) (page / 2 ^ (k - (level + 1))) :=
    rfl
  have hhalf := (mem_ancestor_iff hlevel hself).mp hpage
  rw [pow_one] at hhalf
  generalize page / 2 ^ (k - (level + 1)) = own at *
  by_cases heq : own = index
  · exact Or.inl (heq ▸ hself)
  · right
    have hown : own = neighbor index := by
      unfold neighbor
      split <;> omega
    exact hown ▸ hself

theorem disjoint_neighbor (index : ℕ) :
    Disjoint (Block k level index) (Block k level (neighbor index)) := by
  rw [Set.disjoint_left]
  intro page h h'
  exact neighbor_ne index (index_eq_of_mem h h').symm

theorem parent_eq_union (hlevel : level + 1 ≤ k) (index : ℕ) :
    Block k level (index / 2) =
      Block k (level + 1) index ∪ Block k (level + 1) (neighbor index) := by
  apply (parent_subset_union hlevel index).antisymm
  apply Set.union_subset (block_subset_parent hlevel index)
  rw [← neighbor_div_two index]
  exact block_subset_parent hlevel _

/-! ## Canonical markings -/

/-- The marked blocks are the maximal free blocks. -/
def Canonical (k : ℕ) (free : Set ℕ) (marks : ℕ → ℕ → Bool) : Prop :=
  ∀ level index, level ≤ k → index < 2 ^ level →
    (marks level index = true ↔ Maximal k free level index)

/-- `after` is `before` with the mark of one block replaced. -/
def Updated (k level index : ℕ) (value : Bool)
    (before after : ℕ → ℕ → Bool) : Prop :=
  ∀ level' index', level' ≤ k → index' < 2 ^ level' →
    after level' index' =
      if level' = level ∧ index' = index then value
      else before level' index'

variable {free : Set ℕ} {before after : ℕ → ℕ → Bool}

/-- Unmarking a marked block takes its pages. -/
theorem Canonical.unmark (hcanon : Canonical k free before)
    (hlevel : level ≤ k) (hindex : index < 2 ^ level)
    (hmarked : before level index = true)
    (hupdate : Updated k level index false before after) :
    Canonical k (free \ Block k level index) after := by
  have hmax := (hcanon level index hlevel hindex).mp hmarked
  intro level' index' hlevel' hindex'
  rw [hupdate level' index' hlevel' hindex']
  by_cases heq : level' = level ∧ index' = index
  · rw [if_pos heq]
    obtain ⟨rfl, rfl⟩ := heq
    obtain ⟨page, hpage⟩ := block_nonempty k level' index'
    simp only [Bool.false_eq_true, false_iff]
    intro h
    exact (h.1 hpage).2 hpage
  · rw [if_neg heq, maximal_diff_iff hmax hlevel hlevel' heq]
    exact hcanon level' index' hlevel' hindex'

/-- Marking a taken block which is maximal among the pages then free gives
its pages back. -/
theorem Canonical.mark (hcanon : Canonical k free before)
    (hlevel : level ≤ k)
    (htaken : Disjoint (Block k level index) free)
    (hmax : Maximal k (free ∪ Block k level index) level index)
    (hupdate : Updated k level index true before after) :
    Canonical k (free ∪ Block k level index) after := by
  intro level' index' hlevel' hindex'
  rw [hupdate level' index' hlevel' hindex']
  by_cases heq : level' = level ∧ index' = index
  · rw [if_pos heq]
    obtain ⟨rfl, rfl⟩ := heq
    simpa using hmax
  · rw [if_neg heq, ← maximal_diff_iff hmax hlevel hlevel' heq,
      Set.union_sdiff_cancel_right htaken.symm.le_bot]
    exact hcanon level' index' hlevel' hindex'

/-- No block with a taken page is marked. -/
theorem Canonical.not_marked_of_taken {page : ℕ}
    (hcanon : Canonical k free before)
    (hlevel : level ≤ k) (hindex : index < 2 ^ level)
    (hpage : page ∈ Block k level index) (htaken : page ∉ free) :
    before level index = false := by
  rw [Bool.eq_false_iff]
  intro hmarked
  exact htaken (((hcanon level index hlevel hindex).mp hmarked).1 hpage)

/-- The root block is maximal as soon as it is free. -/
theorem maximal_root_union (index : ℕ) :
    Maximal k (free ∪ Block k 0 index) 0 index :=
  ⟨Set.subset_union_right, Or.inl rfl⟩

/-- A block given back is maximal when its neighbour has a taken page. -/
theorem maximal_union_of_neighbor (hlevel : level + 1 ≤ k)
    (hneighbor : ¬Block k (level + 1) (neighbor index) ⊆ free) :
    Maximal k (free ∪ Block k (level + 1) index) (level + 1) index := by
  refine ⟨Set.subset_union_right, Or.inr ?_⟩
  intro hparent
  apply hneighbor
  intro page hpage
  have hin : page ∈ Block k level (index / 2) := by
    rw [parent_eq_union hlevel]
    exact Or.inr hpage
  rcases hparent hin with hfree | hown
  · exact hfree
  · exact absurd hpage ((Set.disjoint_left.mp (disjoint_neighbor index)) hown)

/-- While a block is taken, its neighbour is marked exactly when it is
free. -/
theorem Canonical.neighbor_marked_iff {page : ℕ}
    (hcanon : Canonical k free before) (hlevel : level + 1 ≤ k)
    (hindex : index < 2 ^ (level + 1))
    (hpage : page ∈ Block k (level + 1) index) (htaken : page ∉ free) :
    before (level + 1) (neighbor index) = true ↔
      Block k (level + 1) (neighbor index) ⊆ free := by
  rw [hcanon _ _ hlevel (neighbor_lt hindex)]
  constructor
  · exact fun hmax => hmax.1
  · intro hsubset
    refine ⟨hsubset, Or.inr ?_⟩
    intro hparent
    apply htaken
    apply hparent
    simp only [Nat.add_sub_cancel, neighbor_div_two]
    exact block_subset_parent hlevel index hpage

/-- Two canonical markings for the same pages agree. -/
theorem Canonical.unique (h : Canonical k free before)
    (h' : Canonical k free after) {level index : ℕ} (hlevel : level ≤ k)
    (hindex : index < 2 ^ level) :
    before level index = after level index := by
  rw [Bool.eq_iff_iff, h level index hlevel hindex,
    h' level index hlevel hindex]

end Buddy
