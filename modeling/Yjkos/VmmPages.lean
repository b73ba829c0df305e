import Yjkos.VmmRun

/-!
# The pages of an object

Which pages of an object are mapped, which frames they hold, and what the
loop of `vmm_free` does to them.
-/

namespace Yjkos
namespace Vmm

open Mmu SetPartition TransitionRun

def Object.page (object : Object) (i : ℕ) : ℕ :=
  object.start + i * archPageSize

section Pages

variable {object : Object} {i j a : ℕ}

theorem Object.Paged.page_room (h : object.Paged) (hi : i < object.pages) :
    object.page i + 4096 ≤ object.endAddr + 1 := by
  have hroom := h.room
  unfold Object.page archPageSize
  omega

theorem Object.Paged.page_mem (h : object.Paged) (hi : i < object.pages) :
    object.page i ∈ object.range := by
  have hroom := h.page_room hi
  refine ⟨?_, by omega⟩
  unfold Object.page
  omega

theorem Object.Paged.page_aligned (h : object.Paged) (i : ℕ) :
    object.page i % 4096 = 0 := by
  have hstart := h.startAligned
  unfold Object.page archPageSize
  omega

theorem Object.Paged.page_inj (h : object.Paged)
    (hpage : object.page i / 4096 = object.page j / 4096) : i = j := by
  have hstart := h.startAligned
  unfold Object.page archPageSize at hpage
  omega

/-- The page of the object which an address lies in. -/
def Object.pageIndex (object : Object) (a : ℕ) : ℕ :=
  (a - object.start) / archPageSize

theorem Object.Paged.pageIndex_lt (h : object.Paged)
    (ha : a ∈ object.range) : object.pageIndex a < object.pages := by
  have hstart := h.startAligned
  have hroom := h.room
  obtain ⟨hlow, hhigh⟩ := ha
  unfold Object.pageIndex archPageSize
  omega

theorem Object.Paged.page_pageIndex (h : object.Paged)
    (ha : a ∈ object.range) :
    object.page (object.pageIndex a) = a / 4096 * 4096 := by
  have hstart := h.startAligned
  obtain ⟨hlow, hhigh⟩ := ha
  unfold Object.page Object.pageIndex archPageSize
  omega

theorem pageEntry_congr {m : Tables} {b : ℕ} (ha : a < 4294967296)
    (hb : b < 4294967296) (hpage : a / 4096 = b / 4096) :
    m.pageEntry a = m.pageEntry b := by
  have hpde : pdeIndex a = pdeIndex b := by
    rw [pdeIndex_eq ha, pdeIndex_eq hb]
    omega
  have hpte : pteIndex a = pteIndex b := by
    rw [pteIndex_eq, pteIndex_eq, hpage]
  rw [Tables.pageEntry, Tables.pageEntry, hpde, hpte]

end Pages

/-! ## Frames -/

/-- The frames behind those of the listed pages which are mapped. -/
def heldFrames (m : Tables) (object : Object) (pages : List ℕ) : List ℕ :=
  (pages.filter fun i => has (m.pageEntry (object.page i)) flagP).map
    fun i => frameOf (m.pageEntry (object.page i))

section Held

variable {m m' : Tables} {object : Object} {pages pages' : List ℕ} {i : ℕ}

theorem heldFrames_perm (h : pages.Perm pages') :
    (heldFrames m object pages).Perm (heldFrames m object pages') :=
  (h.filter _).map _

theorem heldFrames_congr (h : ∀ i ∈ pages,
    m'.pageEntry (object.page i) = m.pageEntry (object.page i)) :
    heldFrames m' object pages = heldFrames m object pages := by
  have hfilter : (pages.filter fun i =>
      has (m'.pageEntry (object.page i)) flagP) =
      pages.filter fun i => has (m.pageEntry (object.page i)) flagP :=
    List.filter_congr fun i hi => by rw [h i hi]
  unfold heldFrames
  rw [hfilter]
  refine List.map_congr_left fun i hi => ?_
  rw [h i (List.mem_of_mem_filter hi)]

theorem heldFrames_cons_of_mapped (h : m.Mapped (object.page i)) :
    heldFrames m object (i :: pages) =
      frameOf (m.pageEntry (object.page i)) :: heldFrames m object pages := by
  have h' : has (m.pageEntry (object.page i)) flagP = true := h
  simp [heldFrames, h']

theorem heldFrames_cons_of_not_mapped (h : ¬m.Mapped (object.page i)) :
    heldFrames m object (i :: pages) = heldFrames m object pages := by
  have h' : has (m.pageEntry (object.page i)) flagP = false := by
    simpa [Tables.Mapped] using h
  simp [heldFrames, h']

theorem heldFrames_sets {entry : BitVec 32} (hpaged : object.Paged)
    (hpages : pages.Nodup) (hbound : ∀ j ∈ pages, j < object.pages)
    (hi : i ∈ pages) (hbefore : ¬m.Mapped (object.page i))
    (hsets : m.Sets m' (object.page i) entry)
    (hafter : has entry flagP = true) :
    (heldFrames m' object pages).Perm
      (frameOf entry :: heldFrames m object pages) := by
  have hperm := List.perm_cons_erase hi
  have hmapped : m'.Mapped (object.page i) := by
    unfold Tables.Mapped
    rw [hsets.entry_eq]
    exact hafter
  have hother : ∀ j ∈ pages.erase i,
      m'.pageEntry (object.page j) = m.pageEntry (object.page j) := by
    intro j hj
    have hjlt := hbound j (List.erase_subset hj)
    have hroom := hpaged.page_room hjlt
    have hbelow := hpaged.below
    refine hsets.other _ (by omega) fun hsame => ?_
    rw [hpaged.page_inj hsame] at hj
    exact hpages.not_mem_erase hj
  refine (heldFrames_perm hperm).trans ?_
  rw [heldFrames_cons_of_mapped hmapped, hsets.entry_eq,
    heldFrames_congr hother]
  refine List.Perm.cons _ ?_
  rw [← heldFrames_cons_of_not_mapped hbefore]
  exact heldFrames_perm hperm.symm

end Held

/-! ## The loop of `vmm_free` -/

/-- The pages `i`, ..., `i + k - 1` of the object have been unmapped, and
nothing else has changed in the tables. -/
structure Cleared (m m' : Tables) (object : Object) (i k : ℕ) : Prop where
  pagedir : m'.pagedir = m.pagedir
  cleared : ∀ j, i ≤ j → j < i + k → ¬m'.Mapped (object.page j)
  other : ∀ a < 4294967296,
    (∀ j, i ≤ j → j < i + k → a / 4096 ≠ object.page j / 4096) →
    m'.pageEntry a = m.pageEntry a

/-- The frames which freeing the listed pages returns. -/
def returnedFrames (m : Tables) (object : Object) (pages : List ℕ) :
    List ℕ :=
  if object.physBase = physaddrNomap then heldFrames m object pages else []

/-- What the loop of `vmm_free` needs: the tables of the pages are there and
their frames are in use, each once. -/
structure Releasable (s : State) (object : Object) (i k : ℕ) : Prop where
  tabled : ∀ j, i ≤ j → j < i + k → s.tables.Tabled (object.page j)
  nonzero : ∀ j, i ≤ j → j < i + k → object.page j ≠ 0
  nodup : (returnedFrames s.tables object (List.range' i k)).Nodup
  inUse : ∀ f ∈ returnedFrames s.tables object (List.range' i k),
    f ∈ s.frames.inUse ∧ f ≠ 0

section Loop

variable {s : State} {object : Object}

/-- The state with other page tables and other frames in use. -/
def withMemory (s : State) (tables : Tables) (inUse : List ℕ) : State :=
  { s with tables := tables, frames := { s.frames with inUse := inUse } }

theorem freePage_of_not_mapped {ptr : ℕ} (h : ¬s.tables.Mapped ptr) :
    freePage s object ptr = .ok s := by
  unfold freePage
  rw [virtualToPhysical_of_not_mapped h]

theorem freeFrame_spec {f : ℕ} (hf : object.physBase = physaddrNomap →
    f ∈ s.frames.inUse ∧ f ≠ 0) :
    ∃ inUse, freeFrame s object f = .ok (withMemory s s.tables inUse) ∧
      inUse = if object.physBase = physaddrNomap then s.frames.inUse.erase f
        else s.frames.inUse := by
  unfold freeFrame
  by_cases hnomap : object.physBase = physaddrNomap
  · obtain ⟨hmem, hne⟩ := hf hnomap
    refine ⟨s.frames.inUse.erase f, ?_, by rw [if_pos hnomap]⟩
    rw [if_pos hnomap]
    simp [pmmFree, hmem, hne, withMemory]
  · exact ⟨s.frames.inUse, by rw [if_neg hnomap]; rfl, by rw [if_neg hnomap]⟩

theorem freePage_of_mapped {ptr : ℕ} (htabled : s.tables.Tabled ptr)
    (hmapped : s.tables.Mapped ptr) (halign : ptr % 4096 = 0)
    (hzero : ptr ≠ 0) (hroom : ptr ≤ 4294963199)
    (hf : object.physBase = physaddrNomap →
      frameOf (s.tables.pageEntry ptr) ∈ s.frames.inUse ∧
        frameOf (s.tables.pageEntry ptr) ≠ 0) :
    ∃ tables, s.tables.Sets tables ptr 0 ∧
      freePage s object ptr = .ok (withMemory s tables
        (if object.physBase = physaddrNomap then
          s.frames.inUse.erase (frameOf (s.tables.pageEntry ptr))
        else s.frames.inUse)) := by
  obtain ⟨inUse, hfree, rfl⟩ := freeFrame_spec hf
  obtain ⟨tables, hunmap, hsets⟩ :=
    archMmuUnmap_one htabled hmapped hzero hroom
  refine ⟨tables, hsets, ?_⟩
  unfold freePage
  rw [virtualToPhysical_of_mapped htabled hmapped halign]
  simp only [hfree, ok_bind]
  simp only [withMemory, hunmap, ok_bind]

variable {i k : ℕ} {m m' m'' : Tables}

theorem Cleared.next (hpaged : object.Paged) (hi : i < object.pages)
    (hpagedir : m'.pagedir = m.pagedir) (hgone : ¬m'.Mapped (object.page i))
    (hother : ∀ a < 4294967296, a / 4096 ≠ object.page i / 4096 →
      m'.pageEntry a = m.pageEntry a)
    (h : Cleared m' m'' object (i + 1) k) : Cleared m m'' object i (k + 1) := by
  have hroom := hpaged.page_room hi
  have hbelow := hpaged.below
  constructor
  · exact h.pagedir.trans hpagedir
  · intro j hj hjlt
    rcases Nat.eq_or_lt_of_le hj with rfl | hj
    · have hsame : m''.pageEntry (object.page i) =
          m'.pageEntry (object.page i) := by
        refine h.other _ (by omega) fun j' hj' _ heq => ?_
        have := hpaged.page_inj heq
        omega
      unfold Tables.Mapped
      rw [hsame]
      exact hgone
    · exact h.cleared j hj (by omega)
  · intro a ha houtside
    rw [h.other a ha fun j hj hjlt => houtside j (by omega) (by omega)]
    exact hother a ha (houtside i le_rfl (by omega))

theorem page_ne_of_mem_range' (hpaged : object.Paged) {j : ℕ}
    (hj : j ∈ List.range' (i + 1) k) :
    object.page j / 4096 ≠ object.page i / 4096 := by
  intro heq
  rw [hpaged.page_inj heq] at hj
  simp only [List.mem_range'_1] at hj
  omega

theorem Releasable.skip (h : Releasable s object i (k + 1))
    (hgone : ¬s.tables.Mapped (object.page i)) :
    Releasable s object (i + 1) k ∧
      returnedFrames s.tables object (List.range' i (k + 1)) =
        returnedFrames s.tables object (List.range' (i + 1) k) := by
  have hsame : returnedFrames s.tables object (List.range' i (k + 1)) =
      returnedFrames s.tables object (List.range' (i + 1) k) := by
    unfold returnedFrames
    rw [List.range'_succ, heldFrames_cons_of_not_mapped hgone]
  have hnodup := h.nodup
  have hinUse := h.inUse
  rw [hsame] at hnodup hinUse
  exact ⟨⟨fun j hj hjlt => h.tabled j (by omega) (by omega),
    fun j hj hjlt => h.nonzero j (by omega) (by omega), hnodup, hinUse⟩,
    hsame⟩

theorem returnedFrames_succ (hmapped : m.Mapped (object.page i)) :
    returnedFrames m object (List.range' i (k + 1)) =
      if object.physBase = physaddrNomap then
        frameOf (m.pageEntry (object.page i)) ::
          returnedFrames m object (List.range' (i + 1) k)
      else [] := by
  unfold returnedFrames
  rw [List.range'_succ, heldFrames_cons_of_mapped hmapped]
  split <;> rfl

theorem Releasable.release {tables : Tables} {inUse : List ℕ}
    (hpaged : object.Paged) (hbound : i + (k + 1) ≤ object.pages)
    (h : Releasable s object i (k + 1))
    (hmapped : s.tables.Mapped (object.page i))
    (hsets : s.tables.Sets tables (object.page i) 0)
    (hinUse : inUse = if object.physBase = physaddrNomap then
      s.frames.inUse.erase (frameOf (s.tables.pageEntry (object.page i)))
      else s.frames.inUse) :
    Releasable (withMemory s tables inUse) object (i + 1) k ∧
      returnedFrames tables object (List.range' (i + 1) k) =
        returnedFrames s.tables object (List.range' (i + 1) k) := by
  have hbelow := hpaged.below
  have hsame : returnedFrames tables object (List.range' (i + 1) k) =
      returnedFrames s.tables object (List.range' (i + 1) k) := by
    unfold returnedFrames
    rw [heldFrames_congr]
    intro j hj
    have hjlt : j < object.pages := by
      simp only [List.mem_range'_1] at hj
      omega
    have hroom := hpaged.page_room hjlt
    exact hsets.other _ (by omega) (page_ne_of_mem_range' hpaged hj)
  have hnodup := h.nodup
  have hall := h.inUse
  rw [returnedFrames_succ hmapped] at hnodup hall
  refine ⟨⟨?_, ?_, ?_, ?_⟩, hsame⟩
  · intro j hj hjlt
    exact hsets.tabled (h.tabled j (by omega) (by omega))
  · intro j hj hjlt
    exact h.nonzero j (by omega) (by omega)
  · rw [withMemory, hsame]
    split at hnodup
    · exact (List.nodup_cons.mp hnodup).2
    next hmap => simp [returnedFrames, hmap]
  · rw [withMemory, hsame]
    intro f hf
    split at hall
    next hnomap =>
      rw [if_pos hnomap] at hnodup hinUse
      have hfne : f ≠ frameOf (s.tables.pageEntry (object.page i)) := by
        rintro rfl
        exact (List.nodup_cons.mp hnodup).1 hf
      obtain ⟨hmem, hne⟩ := hall f (List.mem_cons_of_mem _ hf)
      rw [hinUse]
      exact ⟨(List.mem_erase_of_ne hfne).mpr hmem, hne⟩
    next hmap => simp [returnedFrames, hmap] at hf

/-- `vmm_free`'s loop unmaps the pages of the object and returns exactly the
frames they held. -/
theorem freePages_spec (hpaged : object.Paged) (k : ℕ) :
    ∀ i fuel (s : State), i + k = object.pages → k < fuel →
      Releasable s object i k →
      ∃ tables inUse,
        freePages object fuel (object.page i) s =
          .ok (withMemory s tables inUse) ∧
        Cleared s.tables tables object i k ∧
        (inUse ++ returnedFrames s.tables object (List.range' i k)).Perm
          s.frames.inUse := by
  induction k with
  | zero =>
      intro i fuel s hi hfuel _
      obtain ⟨fuel, rfl⟩ := Nat.exists_eq_add_one_of_ne_zero hfuel.ne'
      have hroom := hpaged.room
      have hdone : ¬object.page i ≤ object.endAddr := by
        unfold Object.page archPageSize
        omega
      refine ⟨s.tables, s.frames.inUse, ?_, ⟨rfl, by omega, by simp⟩, ?_⟩
      · rw [freePages, if_neg hdone]
        rfl
      · simp [returnedFrames, heldFrames]
  | succ k ih =>
      intro i fuel s hi hfuel hrel
      obtain ⟨fuel, rfl⟩ :=
        Nat.exists_eq_add_one_of_ne_zero (by omega : fuel ≠ 0)
      have hilt : i < object.pages := by omega
      have hroom := hpaged.page_room hilt
      have hbelow := hpaged.below
      have hnext : wrap (object.page i + archPageSize) =
          object.page (i + 1) := by
        rw [archPageSize, wrap_of_lt (by omega)]
        unfold Object.page archPageSize
        omega
      have hendAligned := hpaged.endAligned
      rw [freePages, if_pos (by omega), hnext]
      by_cases hmapped : s.tables.Mapped (object.page i)
      · have hframe : object.physBase = physaddrNomap →
            frameOf (s.tables.pageEntry (object.page i)) ∈ s.frames.inUse ∧
              frameOf (s.tables.pageEntry (object.page i)) ≠ 0 := by
          intro hnomap
          apply hrel.inUse
          rw [returnedFrames_succ hmapped, if_pos hnomap]
          exact List.mem_cons_self
        obtain ⟨tables, hsets, hpage⟩ := freePage_of_mapped
          (hrel.tabled i le_rfl (by omega)) hmapped (hpaged.page_aligned i)
          (hrel.nonzero i le_rfl (by omega)) (by omega) hframe
        obtain ⟨hrel', hsame⟩ :=
          hrel.release hpaged (by omega) hmapped hsets rfl
        obtain ⟨tables', inUse', hrest, hcleared, hperm⟩ :=
          ih (i + 1) fuel _ (by omega) (by omega) hrel'
        refine ⟨tables', inUse', ?_, ?_, ?_⟩
        · rw [hpage, ok_bind, hrest]
          rfl
        · exact hcleared.next hpaged hilt hsets.pagedir
            hsets.not_mapped_of_zero hsets.other
        · simp only [withMemory, hsame] at hperm
          rw [returnedFrames_succ hmapped]
          by_cases hnomap : object.physBase = physaddrNomap
          · rw [if_pos hnomap] at hperm ⊢
            refine List.perm_middle.trans ?_
            refine (hperm.cons _).trans ?_
            exact (List.perm_cons_erase (hframe hnomap).1).symm
          · simpa [returnedFrames, hnomap] using hperm
      · obtain ⟨hrel', hsame⟩ := hrel.skip hmapped
        obtain ⟨tables', inUse', hrest, hcleared, hperm⟩ :=
          ih (i + 1) fuel s (by omega) (by omega) hrel'
        refine ⟨tables', inUse', ?_, ?_, ?_⟩
        · rw [freePage_of_not_mapped hmapped, ok_bind, hrest]
        · exact hcleared.next hpaged hilt rfl hmapped fun _ _ _ => rfl
        · rw [hsame]
          exact hperm

end Loop

end Vmm
end Yjkos
