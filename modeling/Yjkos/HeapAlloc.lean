import Yjkos.HeapSearch

/-!
# Allocations

What `heap_alloc` does to a heap which is in order, by the outcome of the
search: the size is refused, there is no room, blocks are taken, or the total
wraps and the fill leaves the address space.
-/

namespace Yjkos
namespace Heap

/-- `s'` is in order and has the allocations of `s` with their bytes, then
`new`. -/
structure Grown (s s' : State) (size : ℕ) (new : Option ℕ) : Prop where
  bookkept : Bookkept s'
  mapped_eq : s'.mapped = s.mapped
  allocList_eq : s'.allocList = s.allocList ++ new.toList
  headers_eq : ∀ a ∈ s.allocList, s'.headers a = s.headers a
  kept : ∀ a ∈ s.allocList, ∀ header, s.headers a = some header →
    ∀ x ∈ header.footprint a, s'.bytes x = s.bytes x
  sized : ∀ a ∈ new, ∃ header, s'.headers a = some header ∧
    header.size = size

section Alloc

variable {s s' s'' : State} {p size initialMemory : ℕ} {new : Option ℕ}

theorem Bookkept.grown (h : Bookkept s) (size : ℕ) : Grown s s size none :=
  ⟨h, rfl, by simp, fun _ _ => rfl, fun _ _ _ _ _ _ => rfl, by simp⟩

theorem Bookkept.allocOk_of_header (h : Bookkept s) {a : ℕ}
    {header : AllocHeader} (ha : a ∈ s.allocList)
    (hheader : s.headers a = some header) :
    ∃ pool, AllocOk s a header pool := by
  obtain ⟨header', pool, hok⟩ := h.allocs a ha
  rw [hok.header_eq, Option.some.injEq] at hheader
  exact ⟨pool, hheader ▸ hok⟩

/-- Two allocations have no byte in common. -/
theorem Bookkept.disjoint_footprint (h : Bookkept s) {a b : ℕ}
    {header header' : AllocHeader} (ha : a ∈ s.allocList)
    (hb : b ∈ s.allocList) (hheader : s.headers a = some header)
    (hheader' : s.headers b = some header') (hne : a ≠ b) :
    Disjoint (header.footprint a) (header'.footprint b) := by
  obtain ⟨pool, hok⟩ := h.allocOk_of_header ha hheader
  obtain ⟨pool', hok'⟩ := h.allocOk_of_header hb hheader'
  exact Set.disjoint_left.mpr fun x hx hx' =>
    hne (h.eq_of_footprint ha hb hok hok' hx hx')

theorem Grown.mem {new : ℕ} (h : Grown s s' size (some new)) :
    new ∈ s'.allocList := by
  rw [h.allocList_eq]
  exact List.mem_append_right _ (List.mem_singleton_self new)

theorem Grown.mem_of_mem (h : Grown s s' size new) {a : ℕ}
    (ha : a ∈ s.allocList) : a ∈ s'.allocList := by
  rw [h.allocList_eq]
  exact List.mem_append_left _ ha

theorem Grown.ne_of_mem {new a : ℕ} (h : Grown s s' size (some new))
    (ha : a ∈ s.allocList) : a ≠ new := by
  rintro rfl
  have hnodup := h.bookkept.allocNodup
  rw [h.allocList_eq] at hnodup
  exact List.disjoint_of_nodup_append hnodup ha (List.mem_singleton_self a)

theorem Grown.trans (h : Grown s s' size none) (h' : Grown s' s'' size new) :
    Grown s s'' size new := by
  have hlist : s'.allocList = s.allocList := by simpa using h.allocList_eq
  refine ⟨h'.bookkept, h'.mapped_eq.trans h.mapped_eq, ?_, ?_, ?_, h'.sized⟩
  · rw [h'.allocList_eq, hlist]
  · intro a ha
    rw [h'.headers_eq a (hlist ▸ ha), h.headers_eq a ha]
  · intro a ha header hheader x hx
    have hheader' := (h.headers_eq a ha).trans hheader
    rw [h'.kept a (hlist ▸ ha) header hheader' x hx,
      h.kept a ha header hheader x hx]

theorem Takeable.grown {i blockCount : ℕ} {pool : PoolHeader}
    (ht : Takeable s p pool i blockCount size) (h : Bookkept s) :
    Grown s (s.take p pool i blockCount size) size
      (some (pool.blockpool + i * 64)) := by
  refine ⟨ht.bookkept h, rfl, rfl, ?_, ?_, ?_⟩
  · intro a ha
    exact (ht.reshaped h).headers_eq a
      fun heq => ht.notMem_allocList h (heq ▸ ha)
  · intro a ha header hheader x hx
    obtain ⟨pool', hok⟩ := h.allocOk_of_header ha hheader
    exact ht.bytes_take fun hin =>
      ht.notMem_footprint h hin.1 hin.2 ha hok hx
  · rintro a ⟨⟩
    exact ⟨_, (ht.allocOk_take h).header_eq, rfl⟩

/-- The initial memory of the heap can be read. -/
def InitialMapped (initialMemory : ℕ) (s : State) : Prop :=
  ∀ a ∈ Set.Ico initialMemory (initialMemory + initialHeapSize),
    s.mapped a = true

theorem ensureInitialHeap_spec (h : Bookkept s)
    (harea : Area initialMemory initialHeapSize)
    (hmapped : InitialMapped initialMemory s) (size : ℕ) :
    ∃ s', ensureInitialHeap initialMemory s = .ok s' ∧
      Grown s s' size none := by
  unfold ensureInitialHeap
  split
  next => exact ⟨s, rfl, h.grown size⟩
  next hfresh =>
    have hempty := h.fresh (by simpa using hfresh)
    have hunused : Unused s initialMemory initialHeapSize :=
      ⟨hmapped, by simp [hempty]⟩
    obtain ⟨pool, hadd, hbook⟩ := addMem_spec h harea hunused
    exact ⟨_, hadd, hbook, rfl, (List.append_nil _).symm, fun _ _ => rfl,
      fun _ _ _ _ _ _ => rfl, by simp⟩

/-- A store into the new allocation. -/
theorem Grown.withBytes {new : ℕ} (h : Grown s s' size (some new))
    (bytes : ℕ → BitVec 8)
    (hbytes : ∀ a, a ∉ Set.Ico (new + 32) (new + 32 + size) →
      bytes a = s'.bytes a) :
    Grown s { s' with bytes := bytes } size (some new) := by
  obtain ⟨header, hheader, rfl⟩ := h.sized new rfl
  obtain ⟨pool, hok⟩ := h.bookkept.allocOk_of_header h.mem hheader
  refine ⟨h.bookkept.write h.mem hok hbytes, h.mapped_eq, h.allocList_eq,
    h.headers_eq, ?_, h.sized⟩
  intro a ha header' hheader' x hx
  have hdisjoint := h.bookkept.disjoint_footprint (h.mem_of_mem ha) h.mem
    ((h.headers_eq a ha).trans hheader') hheader (h.ne_of_mem ha)
  have hout := Set.disjoint_left.mp hdisjoint hx
  have hsize := hok.size_le
  rw [← h.kept a ha header' hheader' x hx]
  refine hbytes x fun hin => hout ⟨?_, ?_⟩
  · have := hin.1
    omega
  · have := hin.2
    omega

/-- The heap with the memory at `ptr` cleared where the flags ask for it. -/
def State.cleared (s : State) (flags : BitVec 8) (ptr size : ℕ) : State :=
  if flags &&& flagZeroMemory ≠ 0 then
    { s with bytes := vmemset s.bytes ptr 0 size }
  else s

theorem heapAlloc_rejected (hrejected : ¬LetThrough size)
    (flags : BitVec 8) :
    heapAlloc initialMemory s size flags = .ok (none, s) := by
  unfold LetThrough at hrejected
  rw [heapAlloc, if_pos (not_not.mp hrejected)]

theorem heapAlloc_none (h : Bookkept s)
    (hinit : ensureInitialHeap initialMemory s = .ok s') (h' : Bookkept s')
    (hthrough : LetThrough size) (hnone : ¬s'.Finds size)
    (flags : BitVec 8) :
    heapAlloc initialMemory s size flags =
      clearResult s' flags size none >>= fun s'' => .ok (none, s'') := by
  rw [heapAlloc, if_neg hthrough]
  simp only [h.check, ok_bind, hinit, searchPools_none h' hnone, h'.check]

theorem AllocOk.le_of_footprint {alloc a : ℕ} {header : AllocHeader}
    {pool : PoolHeader} (hok : AllocOk s alloc header pool) (h : Bookkept s)
    (ha : a ∈ header.footprint alloc) : header.pool ≤ a := by
  have hpool := h.poolOk hok.listed hok.pool_eq
  have hin := hok.footprint_subset hpool ha
  rw [hpool.region_eq] at hin
  exact hin.1

/-- A fill from address 0 on which comes back has not reached the heap. -/
theorem Bookkept.grown_nullCleared (h : Bookkept s)
    (hwritable : s.NullWritable size) :
    Grown s (s.nullCleared size) size none := by
  have hbytes : ∀ a ∈ s.allocList, ∀ header pool, AllocOk s a header pool →
      ∀ x ∈ header.footprint a, vmemset s.bytes 0 0 size x = s.bytes x := by
    intro a ha header pool hok x hx
    have hle := hwritable.1 header.pool hok.listed
    have hfoot := hok.le_of_footprint h hx
    exact if_neg (by omega)
  refine ⟨h.withBytes fun a ha header pool hok i hi =>
    hbytes a ha header pool hok _ (hok.poison_mem hi), rfl,
    (List.append_nil _).symm, fun _ _ => rfl, ?_, by simp⟩
  intro a ha header hheader x hx
  obtain ⟨pool, hok⟩ := h.allocOk_of_header ha hheader
  exact hbytes a ha header pool hok x hx

/-- What becomes of a heap which has refused a request. -/
theorem Bookkept.clearResult_none (h : Bookkept s) (flags : BitVec 8)
    (size : ℕ) :
    (flags &&& flagZeroMemory ≠ 0 ∧
      clearResult s flags size none = .error .nullDereference) ∨
    ∃ s', clearResult s flags size none = .ok s' ∧ Grown s s' size none ∧
      (flags &&& flagZeroMemory = 0 → s' = s) := by
  by_cases hflag : flags &&& flagZeroMemory ≠ 0
  · by_cases hwritable : s.NullWritable size
    · refine Or.inr ⟨s.nullCleared size, ?_, h.grown_nullCleared hwritable,
        fun hzero => absurd hzero hflag⟩
      rw [clearResult, if_pos hflag, clearNull, if_pos hwritable]
    · refine Or.inl ⟨hflag, ?_⟩
      rw [clearResult, if_pos hflag, clearNull, if_neg hwritable]
  · exact Or.inr ⟨s, by rw [clearResult, if_neg hflag], h.grown size,
      fun _ => rfl⟩

theorem heapAlloc_found (h : Bookkept s)
    (hinit : ensureInitialHeap initialMemory s = .ok s') (h' : Bookkept s')
    (hpos : size ≠ 0) (hsize : size + 40 < 4294967296)
    (hfinds : s'.Finds size) (flags : BitVec 8) :
    ∃ p pool i, Takeable s' p pool i (requestBlocks size) size ∧
      heapAlloc initialMemory s size flags =
        .ok (some (pool.blockpool + i * 64 + 32),
          (s'.take p pool i (requestBlocks size) size).cleared flags
            (pool.blockpool + i * 64 + 32) size) := by
  obtain ⟨p, pool, i, ht, hsearch⟩ :=
    searchPools_fits h' hpos hsize hfinds
  refine ⟨p, pool, i, ht, ?_⟩
  rw [heapAlloc, if_neg (letThrough_of_fits hpos hsize)]
  simp only [h.check, ok_bind, hinit, hsearch, (ht.bookkept h').check,
    clearResult, State.cleared]
  split
  next => rfl
  next => rfl

theorem heapAlloc_wraps (h : Bookkept s)
    (hinit : ensureInitialHeap initialMemory s = .ok s') (h' : Bookkept s')
    (hthrough : LetThrough size) (hwraps : 4294967296 ≤ size + 40)
    (hfinds : s'.Finds size) (flags : BitVec 8) :
    heapAlloc initialMemory s size flags = .error .wildPointer := by
  obtain ⟨p, pool, i, hspot, hsearch⟩ := searchPools_found h' hthrough hfinds
  have htake := hspot.takeBlocks_wraps
    (h'.poolOk hspot.listed hspot.pool_eq) hfinds.1.le hwraps
  rw [heapAlloc, if_neg hthrough]
  simp only [h.check, ok_bind, hinit, hsearch, htake, error_bind]

theorem Takeable.grown_cleared {i : ℕ} {pool : PoolHeader}
    (ht : Takeable s p pool i (requestBlocks size) size) (h : Bookkept s)
    (flags : BitVec 8) :
    Grown s ((s.take p pool i (requestBlocks size) size).cleared flags
        (pool.blockpool + i * 64 + 32) size) size
      (some (pool.blockpool + i * 64)) := by
  unfold State.cleared
  split
  next => exact (ht.grown h).withBytes _ fun a ha => if_neg ha
  next => exact ht.grown h

/-- An allocation succeeds or returns null.  Only clearing the memory of a
failed allocation can be fatal. -/
theorem heapAlloc_spec (h : Bookkept s)
    (harea : Area initialMemory initialHeapSize)
    (hmapped : InitialMapped initialMemory s)
    (hsize : size + 40 < 4294967296) (flags : BitVec 8) :
    (flags &&& flagZeroMemory ≠ 0 ∧
      heapAlloc initialMemory s size flags = .error .nullDereference) ∨
    ∃ new s', heapAlloc initialMemory s size flags =
        .ok (new.map (· + 32), s') ∧ Grown s s' size new := by
  by_cases hthrough : LetThrough size
  · have hpos : size ≠ 0 := fun hzero => hthrough (Or.inl hzero)
    obtain ⟨s', hinit, hg⟩ := ensureInitialHeap_spec h harea hmapped size
    by_cases hfinds : s'.Finds size
    · obtain ⟨p, pool, i, ht, halloc⟩ :=
        heapAlloc_found h hinit hg.bookkept hpos hsize hfinds flags
      exact Or.inr ⟨some (pool.blockpool + i * 64), _, halloc,
        hg.trans (ht.grown_cleared hg.bookkept flags)⟩
    · rw [heapAlloc_none h hinit hg.bookkept hthrough hfinds flags]
      rcases hg.bookkept.clearResult_none flags size with
        ⟨hflag, hclear⟩ | ⟨s'', hclear, hg', -⟩
      · exact Or.inl ⟨hflag, by rw [hclear, error_bind]⟩
      · exact Or.inr ⟨none, s'', by rw [hclear]; rfl, hg.trans hg'⟩
  · exact Or.inr ⟨none, s, heapAlloc_rejected hthrough flags, h.grown size⟩

end Alloc

end Heap
end Yjkos
