import Yjkos.HeapContents

/-!
# Size arithmetic of the heap

The header and the poison are added to the size of every request.  The check
for a total which wraps counts the header only, so the largest sizes which
pass it wrap by the poison.  `heap_calloc` and `heap_realloc_array` divide by
the size of an element before anything has looked at it.
-/

namespace Yjkos
namespace Heap

/-- The sizes which pass the check but whose total wraps. -/
def wrappingSizes : Set ℕ := Set.Icc 4294967256 4294967263

/-- The blocks of the block at `ptr` hold the header, `bytes` bytes and the
poison. -/
def State.Holds (s : State) (ptr bytes : ℕ) : Prop :=
  ∃ header, s.headers (ptr - allocHeaderSize) = some header ∧
    header.size = bytes ∧
    allocHeaderSize + bytes + poisonValues.length ≤
      header.blockCount * blockSize

/-- The call returns null, or a block which holds the bytes.  Clearing the
memory of a request which was refused can be a fault of another kind. -/
def Settles (bytes : ℕ) (outcome : Except Fault (Option ℕ × State)) : Prop :=
  (∃ s', outcome = .ok (none, s')) ∨ outcome = .error .nullDereference ∨
    ∃ ptr s', outcome = .ok (some ptr, s') ∧ s'.Holds ptr bytes

/-- The sizes of these calls for `bytes` bytes are exact: a total which is let
through has not wrapped, and no call ends in a division by zero or behind the
end of the address space. -/
structure ExactCalls (bytes : ℕ)
    (calls : Set (Except Fault (Option ℕ × State))) : Prop where
  total : LetThrough bytes → actualAllocSize bytes =
    bytes + allocHeaderSize + poisonValues.length
  settles : ∀ outcome ∈ calls, Settles bytes outcome

/-- What `heap_alloc` can come to for a size. -/
def allocCalls (size : ℕ) : Set (Except Fault (Option ℕ × State)) :=
  {outcome | ∃ initialMemory r flags, Area initialMemory initialHeapSize ∧
    Reached initialMemory r ∧
    heapAlloc initialMemory r.heap size flags = outcome}

def callocCalls (size elements : ℕ) :
    Set (Except Fault (Option ℕ × State)) :=
  {outcome | ∃ initialMemory r flags, Area initialMemory initialHeapSize ∧
    Reached initialMemory r ∧
    heapCalloc initialMemory r.heap size elements flags = outcome}

def reallocArrayCalls (size elements : ℕ) :
    Set (Except Fault (Option ℕ × State)) :=
  {outcome | ∃ initialMemory r ptr flags,
    Area initialMemory initialHeapSize ∧ Reached initialMemory r ∧
    (ptr = 0 ∨ ptr ∈ r.live) ∧
    heapReallocArray initialMemory r.heap ptr size elements flags = outcome}

section Sizes

variable {initialMemory size elements : ℕ} {r : HeapState} {s : State}

theorem fits_of_notMem (hthrough : LetThrough size)
    (hsize : size ∉ wrappingSizes) : size + 40 < 4294967296 := by
  unfold LetThrough sizeMax allocHeaderSize at hthrough
  unfold wrappingSizes at hsize
  rw [Set.mem_Icc] at hsize
  omega

theorem total_eq_iff :
    (LetThrough size → actualAllocSize size =
      size + allocHeaderSize + poisonValues.length) ↔
      size ∉ wrappingSizes := by
  constructor
  · rintro htotal ⟨hlow, hhigh⟩
    have hthrough : LetThrough size := by
      unfold LetThrough sizeMax allocHeaderSize
      omega
    have hwrapped := wrap_lt (size + allocHeaderSize + poisonValues.length)
    rw [← actualAllocSize, htotal hthrough] at hwrapped
    simp only [allocHeaderSize, poisonValues, List.length_cons,
      List.length_nil] at hwrapped
    omega
  · intro hsize hthrough
    exact wrap_of_lt (fits_of_notMem hthrough hsize)

theorem not_settles_divideByZero (bytes : ℕ) :
    ¬Settles bytes (.error .divideByZero) := by
  rintro (⟨s', h⟩ | h | ⟨ptr, s', h, -⟩) <;> cases h

theorem AllocOk.holds {alloc : ℕ} {header : AllocHeader} {pool : PoolHeader}
    (hok : AllocOk s alloc header pool) :
    s.Holds (alloc + allocHeaderSize) header.size := by
  refine ⟨header, ?_, rfl, ?_⟩
  · rw [Nat.add_sub_cancel]
    exact hok.header_eq
  · have hroom := hok.size_le
    rw [Nat.add_comm allocHeaderSize]
    exact hroom

theorem heapAlloc_settles (hgood : r.Good initialMemory)
    (harea : Area initialMemory initialHeapSize)
    (hsize : size ∉ wrappingSizes) (flags : BitVec 8) :
    Settles size (heapAlloc initialMemory r.heap size flags) := by
  by_cases hthrough : LetThrough size
  · have hfits := fits_of_notMem hthrough hsize
    rcases heapAlloc_spec hgood.bookkept harea hgood.mapped hfits flags with
      ⟨-, herror⟩ | ⟨_ | new, s', halloc, hg⟩
    · exact Or.inr (Or.inl herror)
    · exact Or.inl ⟨s', halloc⟩
    · obtain ⟨header, hheader, rfl⟩ := hg.sized new rfl
      obtain ⟨pool, hok⟩ := hg.bookkept.allocOk_of_header hg.mem hheader
      exact Or.inr (Or.inr ⟨new + 32, s', halloc, hok.holds⟩)
  · rw [heapAlloc_rejected hthrough]
    exact Or.inl ⟨r.heap, rfl⟩

theorem heapRealloc_settles (hgood : r.Good initialMemory)
    (harea : Area initialMemory initialHeapSize)
    (hsize : size ∉ wrappingSizes) {ptr : ℕ} (hptr : ptr = 0 ∨ ptr ∈ r.live)
    (flags : BitVec 8) :
    Settles size (heapRealloc initialMemory r.heap ptr size flags) := by
  rcases hptr with rfl | hptr
  · rw [heapRealloc, if_pos rfl]
    exact heapAlloc_settles hgood harea hsize flags
  obtain ⟨alloc, halloc, rfl⟩ := hgood.exists_alloc hptr
  obtain ⟨header, pool, hok⟩ := hgood.bookkept.allocs alloc halloc
  by_cases hthrough : LetThrough size
  · have hfits := fits_of_notMem hthrough hsize
    rcases heapRealloc_spec initialMemory hgood.bookkept halloc hok.header_eq
      hfits flags with ⟨-, herror⟩ | ⟨s', hnone, -⟩ | ⟨new, s', hresult, hmoved⟩
    · exact Or.inr (Or.inl herror)
    · exact Or.inl ⟨s', hnone⟩
    · obtain ⟨header', hheader', rfl⟩ := hmoved.sized
      obtain ⟨pool', hok'⟩ :=
        hmoved.bookkept.allocOk_of_header hmoved.mem hheader'
      exact Or.inr (Or.inr ⟨new + 32, s', hresult, hok'.holds⟩)
  · rw [heapRealloc_eq hgood.bookkept halloc hok.header_eq,
      heapAlloc_rejected hthrough]
    exact Or.inl ⟨r.heap, rfl⟩

/-- The check of `heap_calloc` and `heap_realloc_array` lets a product
through exactly where it does not wrap. -/
theorem wrap_product (hpos : 0 < size)
    (hcheck : ¬sizeMax / size < elements) :
    wrap (size * elements) = size * elements := by
  rw [Nat.div_lt_iff_lt_mul hpos, Nat.mul_comm] at hcheck
  unfold sizeMax at hcheck
  exact wrap_of_lt (by omega)

theorem heapCalloc_settles (hgood : r.Good initialMemory)
    (harea : Area initialMemory initialHeapSize) (hpos : 0 < size)
    (hsize : size * elements ∉ wrappingSizes) (flags : BitVec 8) :
    Settles (size * elements)
      (heapCalloc initialMemory r.heap size elements flags) := by
  rw [heapCalloc, if_neg hpos.ne']
  split
  next => exact Or.inl ⟨r.heap, rfl⟩
  next hcheck =>
    rw [wrap_product hpos hcheck]
    exact heapAlloc_settles hgood harea hsize flags

theorem heapReallocArray_settles (hgood : r.Good initialMemory)
    (harea : Area initialMemory initialHeapSize) (hpos : 0 < size)
    (hsize : size * elements ∉ wrappingSizes) {ptr : ℕ}
    (hptr : ptr = 0 ∨ ptr ∈ r.live) (flags : BitVec 8) :
    Settles (size * elements)
      (heapReallocArray initialMemory r.heap ptr size elements flags) := by
  rw [heapReallocArray, if_neg hpos.ne']
  split
  next => exact Or.inl ⟨r.heap, rfl⟩
  next hcheck =>
    rw [wrap_product hpos hcheck]
    exact heapRealloc_settles hgood harea hsize hptr flags

end Sizes

/-- The sizes are exact if and only if the total does not wrap by the poison,
and an array has elements of some size. -/
theorem sizes_exact_iff (size elements : ℕ) :
    (ExactCalls size (allocCalls size) ↔ size ∉ wrappingSizes) ∧
    (ExactCalls (size * elements) (callocCalls size elements) ↔
      size ≠ 0 ∧ size * elements ∉ wrappingSizes) ∧
    (ExactCalls (size * elements) (reallocArrayCalls size elements) ↔
      size ≠ 0 ∧ size * elements ∉ wrappingSizes) := by
  refine ⟨⟨fun h => total_eq_iff.mp h.total, fun hsize => ?_⟩,
    ⟨fun h => ⟨?_, total_eq_iff.mp h.total⟩, fun ⟨hne, hsize⟩ => ?_⟩,
    ⟨fun h => ⟨?_, total_eq_iff.mp h.total⟩, fun ⟨hne, hsize⟩ => ?_⟩⟩
  · refine ⟨total_eq_iff.mpr hsize, ?_⟩
    rintro _ ⟨initialMemory, r, flags, harea, hreach, rfl⟩
    exact heapAlloc_settles (good_of_reachable harea hreach) harea hsize flags
  · rintro rfl
    exact not_settles_divideByZero _ (h.settles _
      ⟨1048576, onePage, 0, area_1_mib, onePage_reached, rfl⟩)
  · refine ⟨total_eq_iff.mpr hsize, ?_⟩
    rintro _ ⟨initialMemory, r, flags, harea, hreach, rfl⟩
    exact heapCalloc_settles (good_of_reachable harea hreach) harea
      (Nat.pos_of_ne_zero hne) hsize flags
  · rintro rfl
    exact not_settles_divideByZero _ (h.settles _
      ⟨1048576, onePage, 0, 0, area_1_mib, onePage_reached, Or.inl rfl, rfl⟩)
  · refine ⟨total_eq_iff.mpr hsize, ?_⟩
    rintro _ ⟨initialMemory, r, ptr, flags, harea, hreach, hptr, rfl⟩
    exact heapReallocArray_settles (good_of_reachable harea hreach) harea
      (Nat.pos_of_ne_zero hne) hsize hptr flags

/-- A request of all but 40 bytes of the address space asks for no block at
all, goes through and is filled beyond the end; an array of elements of size
zero is a division by zero. -/
theorem sizes_wrap_and_divide :
    LetThrough 4294967256 ∧ actualAllocSize 4294967256 = 0 ∧
      heapAlloc 1048576 onePage.heap 4294967256 0 = .error .wildPointer ∧
      heapCalloc 1048576 onePage.heap 0 7 0 = .error .divideByZero ∧
      heapReallocArray 1048576 onePage.heap 0 0 7 0 =
        .error .divideByZero := by
  have hthrough : LetThrough 4294967256 := by
    unfold LetThrough
    decide
  exact ⟨hthrough, rfl, rfl, rfl, rfl⟩

end Heap
end Yjkos
