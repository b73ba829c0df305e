import Yjkos.HeapAlloc

/-!
# Reallocations

`heap_realloc` copies into a new allocation before it frees the old one.
Neither the fill of the new memory nor that of the freed one reaches another
allocation, so the copied bytes and those of the other callers survive.
-/

namespace Yjkos
namespace Heap

/-- The allocation at `alloc` was replaced by one at `new`, which starts with
its bytes; the others are as before. -/
structure Reallocated (s s' : State) (alloc : ℕ) (header : AllocHeader)
    (new size : ℕ) : Prop where
  bookkept : Bookkept s'
  mapped_eq : s'.mapped = s.mapped
  allocList_eq : s'.allocList = s.allocList.erase alloc ++ [new]
  new_notMem : new ∉ s.allocList
  sized : ∃ header', s'.headers new = some header' ∧ header'.size = size
  copied : ∀ k < min size header.size,
    s'.bytes (new + 32 + k) = s.bytes (alloc + 32 + k)
  headers_eq : ∀ a ∈ s.allocList, a ≠ alloc → s'.headers a = s.headers a
  kept : ∀ a ∈ s.allocList, a ≠ alloc → ∀ header',
    s.headers a = some header' → ∀ x ∈ header'.footprint a,
    s'.bytes x = s.bytes x

theorem Reallocated.mem {s s' : State} {alloc new size : ℕ}
    {header : AllocHeader} (h : Reallocated s s' alloc header new size) :
    new ∈ s'.allocList := by
  rw [h.allocList_eq]
  exact List.mem_append_right _ (List.mem_singleton_self new)

section Realloc

variable {s s' : State} {alloc size initialMemory : ℕ}
  {header : AllocHeader}

theorem allocHeaderOf_eq (h : Bookkept s) (halloc : alloc ∈ s.allocList) :
    allocHeaderOf (alloc + 32) = some alloc := by
  obtain ⟨header, pool, hok⟩ := h.allocs alloc halloc
  have haligned := (h.poolOk hok.listed hok.pool_eq).aligned
  obtain ⟨i, hposition, -⟩ := hok.position
  have haligned' : isAligned (alloc + 32) maxAlign = true := by
    rw [isAligned_iff, maxAlign]
    omega
  simp [allocHeaderOf, haligned', allocHeaderSize]

/-- A heap with an allocation has its first pool. -/
theorem ensureInitialHeap_of_mem (h : Bookkept s)
    (halloc : alloc ∈ s.allocList) :
    ensureInitialHeap initialMemory s = .ok s := by
  obtain ⟨header, pool, hok⟩ := h.allocs alloc halloc
  have hinitialized : s.initialized = true := by
    by_contra hfresh
    have hlisted := hok.listed
    rw [h.fresh (by simpa using hfresh)] at hlisted
    contradiction
  rw [ensureInitialHeap, if_pos hinitialized]

theorem heapRealloc_eq (h : Bookkept s) (halloc : alloc ∈ s.allocList)
    (hheader : s.headers alloc = some header) (flags : BitVec 8) :
    heapRealloc initialMemory s (alloc + 32) size flags =
      heapAlloc initialMemory s size flags >>= fun result =>
        moveTo result.2 (alloc + 32) (min size header.size) result.1 := by
  have hcopy : (if size < header.size then size else header.size) =
      min size header.size := by
    split <;> omega
  rw [heapRealloc, if_neg (by omega), h.check, ok_bind,
    allocHeaderOf_eq h halloc]
  simp only [State.getHeader, hheader, ok_bind, hcopy]

theorem State.bytes_giveBack {pool : PoolHeader} {x : ℕ}
    (hx : x ∉ header.footprint alloc) :
    (s.giveBack alloc header pool).bytes x = s.bytes x :=
  if_neg hx

/-- The heap between the copy and the release of the old allocation: the new
one starts with the bytes of the old one. -/
theorem Grown.copied {new : ℕ} (hg : Grown s s' size (some new))
    (halloc : alloc ∈ s.allocList) (hheader : s.headers alloc = some header)
    (hroom : header.size + 40 ≤ header.blockCount * 64) {k : ℕ}
    (hk : k < min size header.size) :
    vmemcpy s'.bytes (new + 32) (alloc + 32) (min size header.size)
      (new + 32 + k) = s.bytes (alloc + 32 + k) := by
  have hback : alloc + 32 + (new + 32 + k - (new + 32)) =
      alloc + 32 + k := by omega
  rw [vmemcpy, if_pos ⟨by omega, by omega⟩, hback]
  exact hg.kept alloc halloc header hheader _ ⟨by omega, by omega⟩

/-- The copy and the release of the old allocation. -/
theorem Grown.moveTo_reallocated {new : ℕ} (hg : Grown s s' size (some new))
    (halloc : alloc ∈ s.allocList) (hheader : s.headers alloc = some header) :
    ∃ s'', moveTo s' (alloc + 32) (min size header.size) (some (new + 32)) =
        .ok (some (new + 32), s'') ∧
      Reallocated s s'' alloc header new size := by
  have hcopy := hg.withBytes
    (vmemcpy s'.bytes (new + 32) (alloc + 32) (min size header.size))
    fun a ha => if_neg fun hin => ha ⟨hin.1, by omega⟩
  have hlisted := hcopy.mem_of_mem halloc
  have hlistedHeader := (hcopy.headers_eq alloc halloc).trans hheader
  obtain ⟨pool, hok⟩ :=
    hcopy.bookkept.allocOk_of_header hlisted hlistedHeader
  have hroom := hok.size_le
  have hne := hg.ne_of_mem halloc
  obtain ⟨header', hheader', hsize⟩ := hg.sized new rfl
  obtain ⟨pool', hok'⟩ := hcopy.bookkept.allocOk_of_header hcopy.mem hheader'
  have hroom' := hok'.size_le
  refine ⟨_, ?_, hok.bookkept hcopy.bookkept hlisted, hg.mapped_eq, ?_,
    fun hmem => hg.ne_of_mem hmem rfl, ?_, ?_, ?_, ?_⟩
  · simp only [moveTo, hok.heapFree_eq hcopy.bookkept hlisted, ok_bind]
  · change s'.allocList.erase alloc = _
    rw [hg.allocList_eq, List.erase_append_left _ halloc]
    rfl
  · exact ⟨header', (Function.update_of_ne hne.symm _ _).trans hheader',
      hsize⟩
  · -- the fill of the freed blocks does not reach the new ones
    intro k hk
    have hin : new + 32 + k ∈ header'.footprint new :=
      ⟨by omega, by omega⟩
    have hdisjoint := hcopy.bookkept.disjoint_footprint hcopy.mem hlisted
      hheader' hlistedHeader hne.symm
    rw [State.bytes_giveBack (Set.disjoint_left.mp hdisjoint hin)]
    exact hg.copied halloc hheader hroom hk
  · intro a ha hother
    change Function.update s'.headers alloc none a = _
    rw [Function.update_of_ne hother, hg.headers_eq a ha]
  · -- nor those of the others
    intro a ha hother header'' hheader'' x hx
    have hdisjoint := hcopy.bookkept.disjoint_footprint
      (hcopy.mem_of_mem ha) hlisted
      ((hcopy.headers_eq a ha).trans hheader'') hlistedHeader hother
    rw [State.bytes_giveBack (Set.disjoint_left.mp hdisjoint hx)]
    exact hcopy.kept a ha header'' hheader'' x hx

/-- A reallocation replaces the allocation or returns null and leaves the
heap alone.  Only clearing the memory of a failed one can be fatal. -/
theorem heapRealloc_spec (initialMemory : ℕ) (h : Bookkept s)
    (halloc : alloc ∈ s.allocList) (hheader : s.headers alloc = some header)
    (hsize : size + 40 < 4294967296) (flags : BitVec 8) :
    (flags &&& flagZeroMemory ≠ 0 ∧
      heapRealloc initialMemory s (alloc + 32) size flags =
        .error .nullDereference) ∨
    (∃ s', heapRealloc initialMemory s (alloc + 32) size flags =
        .ok (none, s') ∧ Grown s s' size none ∧
      (flags &&& flagZeroMemory = 0 → s' = s)) ∨
    ∃ new s', heapRealloc initialMemory s (alloc + 32) size flags =
        .ok (some (new + 32), s') ∧
      Reallocated s s' alloc header new size := by
  have hinit : ensureInitialHeap initialMemory s = .ok s :=
    ensureInitialHeap_of_mem h halloc
  rw [heapRealloc_eq h halloc hheader]
  by_cases hthrough : LetThrough size
  · have hpos : size ≠ 0 := fun hzero => hthrough (Or.inl hzero)
    by_cases hfinds : s.Finds size
    · obtain ⟨p, pool, i, ht, hresult⟩ :=
        heapAlloc_found h hinit h hpos hsize hfinds flags
      obtain ⟨s', hmove, hmoved⟩ :=
        (ht.grown_cleared h flags).moveTo_reallocated halloc hheader
      exact Or.inr (Or.inr ⟨_, s', by rw [hresult, ok_bind, hmove], hmoved⟩)
    · rw [heapAlloc_none h hinit h hthrough hfinds flags]
      rcases h.clearResult_none flags size with
        ⟨hflag, hclear⟩ | ⟨s', hclear, hg, hsame⟩
      · exact Or.inl ⟨hflag, by rw [hclear, error_bind, error_bind]⟩
      · exact Or.inr (Or.inl ⟨s', by rw [hclear]; rfl, hg, hsame⟩)
  · rw [heapAlloc_rejected hthrough]
    exact Or.inr (Or.inl ⟨s, rfl, h.grown size, fun _ => rfl⟩)

end Realloc

end Heap
end Yjkos
