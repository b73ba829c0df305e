import Yjkos.HeapRoom

/-!
# Contents of the callers' blocks

A caller's block is known by its address and has the size it was asked for.
`heap_realloc` hands the bytes of one block over to another one.
-/

namespace Yjkos
namespace Heap

open TransitionRun

/-- The size of the block at `ptr`, as its header has it. -/
def State.sizeOf (s : State) (ptr : ℕ) : ℕ :=
  match s.headers (ptr - allocHeaderSize) with
  | some header => header.size
  | none => 0

/-- The caller of the block at `ptr` got one of `newsize` bytes at `q` with
the same contents, and nobody else notices. -/
structure Replaced (s s' : State) (ptr q newsize : ℕ) : Prop where
  copied : ∀ k < min (s.sizeOf ptr) newsize,
    s'.bytes (q + k) = s.bytes (ptr + k)
  released : ptr - allocHeaderSize ∉ s'.allocList
  listed : q - allocHeaderSize ∈ s'.allocList
  sized : s'.sizeOf q = newsize
  others : ∀ alloc ∈ s.allocList, alloc + allocHeaderSize ≠ ptr →
    alloc ∈ s'.allocList ∧
    s'.sizeOf (alloc + allocHeaderSize) =
      s.sizeOf (alloc + allocHeaderSize) ∧
    ∀ k < s.sizeOf (alloc + allocHeaderSize),
      s'.bytes (alloc + allocHeaderSize + k) =
        s.bytes (alloc + allocHeaderSize + k)

section Contents

variable {s s' : State} {alloc new newsize : ℕ} {header : AllocHeader}

theorem State.sizeOf_eq (hheader : s.headers alloc = some header) :
    s.sizeOf (alloc + allocHeaderSize) = header.size := by
  rw [State.sizeOf, Nat.add_sub_cancel, hheader]

theorem Reallocated.replaced
    (h : Reallocated s s' alloc header new newsize) (hbook : Bookkept s)
    (halloc : alloc ∈ s.allocList) (hheader : s.headers alloc = some header) :
    Replaced s s' (alloc + allocHeaderSize) (new + allocHeaderSize)
      newsize := by
  obtain ⟨header', hheader', hsize⟩ := h.sized
  constructor
  · intro k hk
    rw [State.sizeOf_eq hheader, Nat.min_comm] at hk
    exact h.copied k hk
  · rw [Nat.add_sub_cancel, h.allocList_eq, List.mem_append, not_or,
      List.mem_singleton]
    exact ⟨hbook.allocNodup.not_mem_erase,
      fun heq => h.new_notMem (heq ▸ halloc)⟩
  · rw [Nat.add_sub_cancel]
    exact h.mem
  · rw [State.sizeOf_eq hheader', hsize]
  · intro a ha hne
    have hother : a ≠ alloc := fun heq => hne (by rw [heq])
    obtain ⟨header'', pool, hok⟩ := hbook.allocs a ha
    have hsame := (h.headers_eq a ha hother).trans hok.header_eq
    refine ⟨?_, ?_, fun k hk => ?_⟩
    · rw [h.allocList_eq]
      exact List.mem_append_left _
        (hbook.allocNodup.mem_erase_iff.mpr ⟨hother, ha⟩)
    · rw [State.sizeOf_eq hok.header_eq, State.sizeOf_eq hsame]
    · rw [State.sizeOf_eq hok.header_eq] at hk
      have hroom := hok.size_le
      refine h.kept a ha hother header'' hok.header_eq _ ⟨?_, ?_⟩
      · rw [Nat.add_assoc]
        exact Nat.le_add_right a _
      · unfold allocHeaderSize
        omega

/-- `heap_realloc` without cleared memory hands the contents over, or returns
null with the heap as it was. -/
theorem heapRealloc_keeps_contents {initialMemory : ℕ} {r : HeapState}
    {ptr : ℕ} {flags : BitVec 8}
    (harea : Area initialMemory initialHeapSize)
    (hreach : Reached initialMemory r) (hptr : ptr ∈ r.live)
    (hsize : newsize + allocHeaderSize + 8 < 4294967296)
    (hflags : flags &&& flagZeroMemory = 0) :
    heapRealloc initialMemory r.heap ptr newsize flags =
        .ok (none, r.heap) ∨
      ∃ q s', heapRealloc initialMemory r.heap ptr newsize flags =
          .ok (some q, s') ∧
        Replaced r.heap s' ptr q newsize := by
  have hgood := good_of_reachable harea hreach
  obtain ⟨alloc, halloc, rfl⟩ := hgood.exists_alloc hptr
  obtain ⟨header, pool, hok⟩ := hgood.bookkept.allocs alloc halloc
  rcases heapRealloc_spec initialMemory hgood.bookkept halloc hok.header_eq
    hsize flags with ⟨hflag, -⟩ | ⟨s', hnone, -, hsame⟩ |
      ⟨new, s', hresult, hmoved⟩
  · exact absurd hflags hflag
  · exact Or.inl (hsame hflags ▸ hnone)
  · exact Or.inr ⟨new + 32, s', hresult,
      hmoved.replaced hgood.bookkept halloc hok.header_eq⟩

end Contents

/-- A block of 100 bytes, of which a longer one is made. -/
theorem heapRealloc_keeps_contents_one_page :
    ∃ r : HeapState, r.live = [4192] ∧
      (heapRealloc 1048576 r.heap 4192 200 0 = .ok (none, r.heap) ∨
        ∃ q s', heapRealloc 1048576 r.heap 4192 200 0 = .ok (some q, s') ∧
          Replaced r.heap s' 4192 q 200) := by
  obtain ⟨r, halloc, hlive⟩ : ∃ r,
      onePage.step 1048576 (.alloc 100 0) = .ok r ∧ r.live = [4192] :=
    ⟨_, rfl, rfl⟩
  have hadmits : onePage.Admits (.alloc 100 0) := by
    change 100 + 32 + 8 < 4294967296
    decide
  have hptr : 4192 ∈ r.live := by
    rw [hlive]
    exact List.mem_singleton_self 4192
  exact ⟨r, hlive, heapRealloc_keeps_contents area_1_mib
    (onePage_reached.next hadmits halloc) hptr (by decide) (by decide)⟩

end Heap
end Yjkos
