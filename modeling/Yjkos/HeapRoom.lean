import Yjkos.HeapRun

/-!
# Requests without room

`heap_alloc` gives up at once unless fewer blocks are asked for than are
free, so a request for exactly the free blocks is refused also where they lie
in a row.  With `HEAP_FLAG_ZEROMEMORY` the memory of a refused request is
cleared all the same, from address 0 on.
-/

namespace Yjkos
namespace Heap

open TransitionRun

/-- A reachable state of a heap with its initial memory. -/
def Reached (initialMemory : ℕ) (r : HeapState) : Prop :=
  Reachable (HeapState.Starts initialMemory) HeapState.Admits
    (HeapState.step initialMemory) r

/-- Nothing changed, except that the heap may have got its first pool. -/
structure LeftAlone (initialMemory : ℕ) (s s' : State) : Prop where
  bytes_eq : s'.bytes = s.bytes
  headers_eq : s'.headers = s.headers
  allocList_eq : s'.allocList = s.allocList
  nullClears_eq : s'.nullClears = s.nullClears
  rest : s' = s ∨ (s.initialized = false ∧
    addMem s initialMemory initialHeapSize = .ok s')

/-- `heap_alloc` does not write through the null pointer, and where it returns
null it has left everything alone. -/
structure FailsCleanly (initialMemory : ℕ) (s : State) (size : ℕ)
    (flags : BitVec 8) : Prop where
  noWrite : heapAlloc initialMemory s size flags ≠ .error .nullDereference
  leftAlone : ∀ s', heapAlloc initialMemory s size flags = .ok (none, s') →
    LeftAlone initialMemory s s'

section Room

variable {initialMemory size : ℕ} {r : HeapState} {s s' : State}

theorem ensureInitialHeap_leftAlone
    (h : ensureInitialHeap initialMemory s = .ok s') :
    LeftAlone initialMemory s s' := by
  unfold ensureInitialHeap at h
  split at h
  next =>
    cases h
    exact ⟨rfl, rfl, rfl, rfl, Or.inl rfl⟩
  next hfresh =>
    have hadd := h
    unfold addMem at h
    obtain ⟨pool, -, h⟩ := bind_eq_ok h
    cases h
    exact ⟨rfl, rfl, rfl, rfl, Or.inr ⟨by simpa using hfresh, hadd⟩⟩

theorem bookkept_of_ensureInitialHeap (h : r.Good initialMemory)
    (harea : Area initialMemory initialHeapSize)
    (hinit : ensureInitialHeap initialMemory r.heap = .ok s) : Bookkept s := by
  obtain ⟨s', hinit', hg⟩ :=
    ensureInitialHeap_spec h.bookkept harea h.mapped 0
  rw [hinit, Except.ok.injEq] at hinit'
  exact hinit' ▸ hg.bookkept

/-- With room `heap_alloc` returns memory or is stopped by the end of the
address space. -/
theorem heapAlloc_of_finds (h : Bookkept r.heap)
    (hinit : ensureInitialHeap initialMemory r.heap = .ok s) (h' : Bookkept s)
    (hthrough : LetThrough size) (hfinds : s.Finds size)
    (flags : BitVec 8) :
    heapAlloc initialMemory r.heap size flags = .error .wildPointer ∨
      ∃ ptr s', heapAlloc initialMemory r.heap size flags =
        .ok (some ptr, s') := by
  rcases Nat.lt_or_ge (size + 40) 4294967296 with hsize | hwraps
  · have hpos : size ≠ 0 := fun hzero => hthrough (Or.inl hzero)
    obtain ⟨p, pool, i, -, halloc⟩ :=
      heapAlloc_found h hinit h' hpos hsize hfinds flags
    exact Or.inr ⟨_, _, halloc⟩
  · exact Or.inl (heapAlloc_wraps h hinit h' hthrough hwraps hfinds flags)

/-- A failing `heap_alloc` is without effect if and only if the memory need
not be cleared, the size is refused before the search, or there is room. -/
theorem heapAlloc_failsCleanly_iff
    (harea : Area initialMemory initialHeapSize)
    (hreach : Reached initialMemory r)
    (hinit : ensureInitialHeap initialMemory r.heap = .ok s)
    (size : ℕ) (flags : BitVec 8) :
    FailsCleanly initialMemory r.heap size flags ↔
      flags &&& flagZeroMemory = 0 ∨ ¬LetThrough size ∨ s.Finds size := by
  have hgood := good_of_reachable harea hreach
  have hbook := bookkept_of_ensureInitialHeap hgood harea hinit
  by_cases hthrough : LetThrough size
  · by_cases hfinds : s.Finds size
    · refine iff_of_true ?_ (Or.inr (Or.inr hfinds))
      rcases heapAlloc_of_finds hgood.bookkept hinit hbook hthrough hfinds
        flags with hwild | ⟨ptr, s', halloc⟩
      · exact ⟨by rw [hwild]; simp, by rw [hwild]; simp⟩
      · exact ⟨by rw [halloc]; simp, by rw [halloc]; simp⟩
    · have hnone := heapAlloc_none hgood.bookkept hinit hbook hthrough hfinds
        flags
      have hleft := ensureInitialHeap_leftAlone hinit
      by_cases hflag : flags &&& flagZeroMemory = 0
      · rw [clearResult, if_neg (not_not.mpr hflag), ok_bind] at hnone
        refine iff_of_true ⟨by rw [hnone]; simp, fun s' halloc => ?_⟩
          (Or.inl hflag)
        rw [hnone] at halloc
        cases halloc
        exact hleft
      · rw [clearResult, if_pos hflag, clearNull] at hnone
        refine iff_of_false (fun h => ?_) ?_
        · split at hnone
          next =>
            have hclears := (h.leftAlone _ hnone).nullClears_eq
            rw [State.nullCleared, hleft.nullClears_eq] at hclears
            exact absurd hclears (by simp)
          next => exact h.noWrite hnone
        · rintro (h | h | h)
          · exact hflag h
          · exact h hthrough
          · exact hfinds h
  · have hrejected : heapAlloc initialMemory r.heap size flags =
        .ok (none, r.heap) := heapAlloc_rejected hthrough flags
    refine iff_of_true ⟨by rw [hrejected]; simp, fun s' halloc => ?_⟩
      (Or.inr (Or.inl hthrough))
    rw [hrejected] at halloc
    cases halloc
    exact ⟨rfl, rfl, rfl, rfl, Or.inl rfl⟩

end Room

/-! ## A heap of one page -/

/-- A heap which was given one page and has its 63 blocks free. -/
def onePage : HeapState :=
  ⟨emptyHeap.heap.withPool 4096
    ⟨4160, (Bitmap.zeroed 2).bitmapSetBits 0 63, 63, 0, 1⟩, []⟩

theorem area_1_mib : Area 1048576 initialHeapSize := by
  constructor <;> decide

/-- A heap with one page of memory. -/
theorem reached_of_addMem {mem : ℕ} {s : State} (harea : Area mem 4096)
    (hadd : addMem emptyHeap.heap mem 4096 = .ok s) :
    Reached 1048576 ⟨s, []⟩ := by
  have hstarts : HeapState.Starts 1048576 emptyHeap :=
    ⟨rfl, rfl, rfl, rfl, fun _ _ => rfl, rfl⟩
  have hpage : emptyHeap.Admits (.addMem mem 4096) :=
    ⟨harea, fun _ _ => rfl, by simp [emptyHeap]⟩
  have hstep : emptyHeap.step 1048576 (.addMem mem 4096) = .ok ⟨s, []⟩ := by
    simp only [HeapState.step, hadd, ok_bind]
    rfl
  exact (Reachable.start hstarts).next hpage hstep

theorem onePage_reached : Reached 1048576 onePage :=
  @reached_of_addMem 4096 _ (by constructor <;> decide) rfl

/-- The same at 0xc0400000, far behind the bytes from address 0 on. -/
def highPage : HeapState :=
  ⟨emptyHeap.heap.withPool 3225419776
    ⟨3225419840, (Bitmap.zeroed 2).bitmapSetBits 0 63, 63, 0, 1⟩, []⟩

theorem highPage_reached : Reached 1048576 highPage :=
  @reached_of_addMem 3225419776 _ (by constructor <;> decide) rfl

theorem highPage_nullWritable : highPage.heap.NullWritable 10000 := by
  refine ⟨?_, fun _ _ => rfl⟩
  intro p hp
  obtain rfl := List.mem_singleton.mp hp
  decide

/-- A request for more than the page is refused without effect. -/
theorem heapAlloc_failsCleanly_one_page :
    FailsCleanly 1048576 onePage.heap 10000 0 :=
  (heapAlloc_failsCleanly_iff area_1_mib onePage_reached rfl 10000 0).mpr
    (Or.inl (by decide))

/-- With cleared memory asked for, 10000 bytes are cleared from address 0
on, and null is returned. -/
theorem heapAlloc_clears_null :
    Reached 1048576 highPage ∧
      heapAlloc 1048576 highPage.heap 10000 flagZeroMemory =
        .ok (none, highPage.heap.nullCleared 10000) ∧
      ¬FailsCleanly 1048576 highPage.heap 10000 flagZeroMemory := by
  have hbook := (good_of_reachable area_1_mib highPage_reached).bookkept
  have hnone : ¬highPage.heap.Finds 10000 := fun hfinds =>
    absurd hfinds.1 (by decide)
  have hthrough : LetThrough 10000 := letThrough_of_fits (by decide) (by decide)
  have hinit : ensureInitialHeap 1048576 highPage.heap = .ok highPage.heap :=
    rfl
  have halloc := heapAlloc_none hbook hinit hbook hthrough hnone
    flagZeroMemory
  rw [clearResult, if_pos (by decide), clearNull,
    if_pos highPage_nullWritable, ok_bind] at halloc
  refine ⟨highPage_reached, halloc, fun h => ?_⟩
  exact absurd (h.leftAlone _ halloc).nullClears_eq (by decide)

end Heap
end Yjkos
