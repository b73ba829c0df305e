import Yjkos.HeapRealloc
import Yjkos.TransitionRun

/-!
# Runs of the heap

Every public operation of the heap keeps the bookkeeping invariant, so it
holds after any run.  A run also contains the stores of the callers into
their own memory.
-/

namespace Yjkos
namespace Heap

open SetPartition TransitionRun

structure HeapState where
  heap : State
  live : List ℕ

inductive HeapOp where
  | addMem (mem memsize : ℕ)
  | alloc (size : ℕ) (flags : BitVec 8)
  | free (ptr : ℕ)
  | realloc (ptr newsize : ℕ) (flags : BitVec 8)
  | store (address : ℕ) (value : BitVec 8)

/-- `HEAP_FLAG_ZEROMEMORY` is given. -/
def HeapOp.ClearsMemory : HeapOp → Prop
  | .alloc _ flags => flags &&& flagZeroMemory ≠ 0
  | .realloc _ _ flags => flags &&& flagZeroMemory ≠ 0
  | _ => False

namespace HeapState

structure Starts (initialMemory : ℕ) (r : HeapState) : Prop where
  pools : r.heap.poolList = []
  allocs : r.heap.allocList = []
  free : r.heap.freeBlockCount = 0
  fresh : r.heap.initialized = false
  mapped : InitialMapped initialMemory r.heap
  live : r.live = []

/-- Callers give unused memory to the heap, free what they hold and store
into what they hold. -/
def Admits (r : HeapState) : HeapOp → Prop
  | .addMem mem memsize => Area mem memsize ∧ Unused r.heap mem memsize
  | .alloc size _ => size + allocHeaderSize + 8 < 4294967296
  | .free ptr => ptr = 0 ∨ ptr ∈ r.live
  | .realloc ptr newsize _ =>
      newsize + allocHeaderSize + 8 < 4294967296 ∧ (ptr = 0 ∨ ptr ∈ r.live)
  | .store address _ => ∃ ptr ∈ r.live, ∃ header,
      r.heap.headers (ptr - allocHeaderSize) = some header ∧
        ptr ≤ address ∧ address < ptr + header.size

def step (initialMemory : ℕ) (r : HeapState) :
    HeapOp → Except Fault HeapState
  | .addMem mem memsize => do
      let s ← Heap.addMem r.heap mem memsize
      .ok { r with heap := s }
  | .alloc size flags => do
      let (result, s) ← heapAlloc initialMemory r.heap size flags
      .ok ⟨s, r.live ++ result.toList⟩
  | .free ptr => do
      let s ← heapFree r.heap ptr
      .ok ⟨s, r.live.erase ptr⟩
  | .realloc ptr newsize flags => do
      let (result, s) ← heapRealloc initialMemory r.heap ptr newsize flags
      match result with
      | some new => .ok ⟨s, r.live.erase ptr ++ [new]⟩
      | none => .ok ⟨s, r.live⟩
  | .store address value =>
      .ok { r with heap := { r.heap with
        bytes := Function.update r.heap.bytes address value } }

/-- The invariant of a run. -/
structure Good (initialMemory : ℕ) (r : HeapState) : Prop where
  bookkept : Bookkept r.heap
  live : r.live = r.heap.allocList.map (· + 32)
  mapped : InitialMapped initialMemory r.heap

end HeapState

section Run

variable {initialMemory : ℕ} {r r' : HeapState}

theorem good_of_starts (h : HeapState.Starts initialMemory r) :
    r.Good initialMemory := by
  refine ⟨?_, by rw [h.live, h.allocs]; rfl, h.mapped⟩
  constructor
  · simp [h.pools]
  · simp [h.allocs]
  · simp [h.pools]
  · simp [h.pools]
  · simp [h.allocs]
  · simp [h.pools]
  · simp [h.pools]
  · simp [h.pools, h.free]
  · exact fun _ => h.pools

theorem HeapState.Good.exists_alloc (h : r.Good initialMemory) {ptr : ℕ}
    (hptr : ptr ∈ r.live) : ∃ alloc ∈ r.heap.allocList, alloc + 32 = ptr := by
  rw [h.live] at hptr
  exact List.mem_map.mp hptr

theorem erase_map_add (list : List ℕ) (alloc : ℕ) :
    (list.map (· + 32)).erase (alloc + 32) =
      (list.erase alloc).map (· + 32) :=
  (List.map_erase (fun _ _ h => Nat.add_right_cancel h) list).symm

theorem HeapState.Good.addMem (h : r.Good initialMemory) {mem memsize : ℕ}
    (hadmits : r.Admits (.addMem mem memsize)) :
    ∃ r', r.step initialMemory (.addMem mem memsize) = .ok r' ∧
      r'.Good initialMemory := by
  obtain ⟨pool, hadd, hbook⟩ := addMem_spec h.bookkept hadmits.1 hadmits.2
  refine ⟨⟨r.heap.withPool mem pool, r.live⟩, ?_, hbook, h.live, h.mapped⟩
  simp only [HeapState.step, hadd, ok_bind]

theorem HeapState.Good.alloc (h : r.Good initialMemory)
    (harea : Area initialMemory initialHeapSize) {size : ℕ}
    (flags : BitVec 8) (hsize : size + 40 < 4294967296) :
    (flags &&& flagZeroMemory ≠ 0 ∧
      r.step initialMemory (.alloc size flags) =
        .error .nullDereference) ∨
    ∃ r', r.step initialMemory (.alloc size flags) = .ok r' ∧
      r'.Good initialMemory := by
  rcases heapAlloc_spec h.bookkept harea h.mapped hsize flags with
    ⟨hflag, herror⟩ | ⟨new, s', hs', hg⟩
  · exact Or.inl ⟨hflag, by simp only [HeapState.step, herror, error_bind]⟩
  · refine Or.inr ⟨⟨s', r.live ++ (new.map (· + 32)).toList⟩, ?_,
      hg.bookkept, ?_, fun a ha => ?_⟩
    · simp only [HeapState.step, hs', ok_bind]
    · rw [h.live, hg.allocList_eq, List.map_append]
      cases new <;> rfl
    · rw [hg.mapped_eq]
      exact h.mapped a ha

theorem HeapState.Good.free (h : r.Good initialMemory) {ptr : ℕ}
    (hptr : ptr ∈ r.live) :
    ∃ r', r.step initialMemory (.free ptr) = .ok r' ∧
      r'.Good initialMemory := by
  obtain ⟨alloc, halloc, rfl⟩ := h.exists_alloc hptr
  obtain ⟨header, pool, hok⟩ := h.bookkept.allocs alloc halloc
  have hfree := hok.heapFree_eq h.bookkept halloc
  refine ⟨⟨r.heap.giveBack alloc header pool, r.live.erase (alloc + 32)⟩,
    ?_, hok.bookkept h.bookkept halloc, ?_, h.mapped⟩
  · simp only [HeapState.step, hfree, ok_bind]
  · rw [h.live, erase_map_add]
    rfl

theorem HeapState.Good.zero_notMem (h : r.Good initialMemory) :
    0 ∉ r.live := by
  intro hzero
  obtain ⟨alloc, -, heq⟩ := h.exists_alloc hzero
  omega

theorem HeapState.Good.realloc (h : r.Good initialMemory)
    {ptr newsize : ℕ} (flags : BitVec 8)
    (hsize : newsize + 40 < 4294967296) (hptr : ptr ∈ r.live) :
    (flags &&& flagZeroMemory ≠ 0 ∧
      r.step initialMemory (.realloc ptr newsize flags) =
        .error .nullDereference) ∨
    ∃ r', r.step initialMemory (.realloc ptr newsize flags) = .ok r' ∧
      r'.Good initialMemory := by
  obtain ⟨alloc, halloc, rfl⟩ := h.exists_alloc hptr
  obtain ⟨header, pool, hok⟩ := h.bookkept.allocs alloc halloc
  rcases heapRealloc_spec initialMemory h.bookkept halloc hok.header_eq hsize
    flags with
    ⟨hflag, herror⟩ | ⟨s', hnone, hg, -⟩ | ⟨new, s', hs', hmoved⟩
  · exact Or.inl ⟨hflag, by simp only [HeapState.step, herror, error_bind]⟩
  · refine Or.inr ⟨⟨s', r.live⟩, by simp only [HeapState.step, hnone, ok_bind],
      hg.bookkept, ?_, fun a ha => ?_⟩
    · rw [h.live, hg.allocList_eq]
      simp
    · rw [hg.mapped_eq]
      exact h.mapped a ha
  · refine Or.inr ⟨⟨s', r.live.erase (alloc + 32) ++ [new + 32]⟩, ?_,
      hmoved.bookkept, ?_, fun a ha => ?_⟩
    · simp only [HeapState.step, hs', ok_bind]
    · rw [hmoved.allocList_eq, h.live, erase_map_add, List.map_append]
      rfl
    · rw [hmoved.mapped_eq]
      exact h.mapped a ha

theorem HeapState.Good.realloc_zero (h : r.Good initialMemory)
    (newsize : ℕ) (flags : BitVec 8) :
    r.step initialMemory (.realloc 0 newsize flags) =
      r.step initialMemory (.alloc newsize flags) := by
  have hlive : r.live.erase 0 = r.live := List.erase_of_not_mem h.zero_notMem
  simp only [HeapState.step, heapRealloc, if_pos, hlive]
  congr 1
  funext result
  obtain ⟨result, s⟩ := result
  cases result <;> simp

theorem HeapState.Good.store (h : r.Good initialMemory) {address : ℕ}
    {value : BitVec 8} (hadmits : r.Admits (.store address value)) :
    ∃ r', r.step initialMemory (.store address value) = .ok r' ∧
      r'.Good initialMemory := by
  obtain ⟨ptr, hptr, header', hheader, hlow, hhigh⟩ := hadmits
  obtain ⟨alloc, halloc, rfl⟩ := h.exists_alloc hptr
  obtain ⟨header, pool, hok⟩ := h.bookkept.allocs alloc halloc
  rw [allocHeaderSize, Nat.add_sub_cancel, hok.header_eq,
    Option.some.injEq] at hheader
  subst hheader
  refine ⟨_, rfl, h.bookkept.write halloc hok fun a ha => ?_, h.live,
    h.mapped⟩
  refine Function.update_of_ne ?_ _ _
  rintro rfl
  exact ha ⟨hlow, hhigh⟩

theorem HeapState.Good.step (h : r.Good initialMemory)
    (harea : Area initialMemory initialHeapSize) {op : HeapOp}
    (hadmits : r.Admits op) :
    (op.ClearsMemory ∧
      r.step initialMemory op = .error .nullDereference) ∨
    ∃ r', r.step initialMemory op = .ok r' ∧ r'.Good initialMemory := by
  cases op with
  | addMem mem memsize => exact Or.inr (h.addMem hadmits)
  | alloc size flags => exact h.alloc harea flags hadmits
  | free ptr =>
      rcases hadmits with rfl | hptr
      · refine Or.inr ⟨r, ?_, h⟩
        have hlive := List.erase_of_not_mem h.zero_notMem
        simp only [HeapState.step, heapFree, if_pos, ok_bind, hlive]
      · exact Or.inr (h.free hptr)
  | realloc ptr newsize flags =>
      obtain ⟨hsize, rfl | hptr⟩ := hadmits
      · rw [h.realloc_zero]
        exact h.alloc harea flags hsize
      · exact h.realloc flags hsize hptr
  | store address value => exact Or.inr (h.store hadmits)

theorem good_of_reachable (harea : Area initialMemory initialHeapSize)
    (hreach : Reachable (HeapState.Starts initialMemory) HeapState.Admits
      (HeapState.step initialMemory) r) : r.Good initialMemory := by
  refine hreach.invariant (fun _ hstarts => good_of_starts hstarts) ?_
  intro r op r' hgood hadmits hstep
  rcases hgood.step harea hadmits with ⟨-, herror⟩ | ⟨r'', hok, hgood'⟩
  · rw [hstep] at herror
    cases herror
  · rw [hstep, Except.ok.injEq] at hok
    exact hok ▸ hgood'

/-- In every reachable state the bitmaps, the counters and the list of
allocations agree, and no admitted operation fails on an assertion or with a
panic. -/
theorem bookkeeping_agrees (harea : Area initialMemory initialHeapSize)
    (hreach : Reachable (HeapState.Starts initialMemory) HeapState.Admits
      (HeapState.step initialMemory) r) :
    (∀ p ∈ r.heap.poolList, ∃ pool, r.heap.pools p = some pool ∧
      pool.usedblockCount = Set.ncard
        {i | i < pool.blockCount ∧ pool.blockbitmap.bit i = false} ∧
      pool.usedblockCount =
        ((r.heap.allocsOf p).map r.heap.blockCountOf).sum ∧
      (∀ i, pool.blockCount ≤ i → pool.blockbitmap.bit i = false) ∧
      IsPartition ((r.heap.allocsOf p).map r.heap.blocksOf)
        {i | i < pool.blockCount ∧ pool.blockbitmap.bit i = false}) ∧
    r.heap.freeBlockCount = (r.heap.poolList.map r.heap.freeOf).sum ∧
    (∀ alloc ∈ r.heap.allocList, ∃ header,
      r.heap.headers alloc = some header ∧
        header.pool ∈ r.heap.poolList) ∧
    r.heap.allocList.Nodup ∧
    r.live = r.heap.allocList.map (· + allocHeaderSize) ∧
    ∀ op, r.Admits op →
      (∃ r', r.step initialMemory op = .ok r') ∨
        (op.ClearsMemory ∧
          r.step initialMemory op = .error .nullDereference) := by
  have hgood := good_of_reachable harea hreach
  have hbook := hgood.bookkept
  refine ⟨?_, hbook.free, ?_, hbook.allocNodup, hgood.live, ?_⟩
  · intro p hp
    obtain ⟨pool, hok⟩ := hbook.pools p hp
    exact ⟨pool, hok.pool_eq, hbook.used_eq_ncard hp hok.pool_eq,
      hbook.used p hp pool hok.pool_eq, hok.beyond,
      hbook.parts p hp pool hok.pool_eq⟩
  · intro alloc halloc
    obtain ⟨header, pool, hok⟩ := hbook.allocs alloc halloc
    exact ⟨header, hok.header_eq, hok.listed⟩
  · intro op hadmits
    rcases hgood.step harea hadmits with herror | ⟨r', hok, -⟩
    · exact Or.inr herror
    · exact Or.inl ⟨r', hok⟩

end Run

/-- A heap to which nothing was given yet, with all of the memory mapped. -/
def emptyHeap : HeapState :=
  ⟨⟨fun _ => none, fun _ => none, fun _ => 0, fun _ => true, 0, [], [],
    false, []⟩, []⟩

/-- Two pieces are taken from a page, the first one is freed, and the second
one grows and moves into its place. -/
theorem bookkeeping_agrees_of_free_and_realloc :
    ∃ r : HeapState, r.live = [4192] ∧ r.heap.freeBlockCount = 61 ∧
      r.heap.freeBlockCount = (r.heap.poolList.map r.heap.freeOf).sum := by
  obtain ⟨r₁, r₂, r₃, r₄, r₅, hadd, hfirst, hsecond, hfree, hrealloc, hlive₃,
      hlive₄, hlive₅, hcount⟩ : ∃ r₁ r₂ r₃ r₄ r₅,
      emptyHeap.step 1048576 (.addMem 4096 4096) = .ok r₁ ∧
      r₁.step 1048576 (.alloc 100 0) = .ok r₂ ∧
      r₂.step 1048576 (.alloc 40 0) = .ok r₃ ∧
      r₃.step 1048576 (.free 4192) = .ok r₄ ∧
      r₄.step 1048576 (.realloc 4384 60 0) = .ok r₅ ∧
      r₃.live = [4192, 4384] ∧ r₄.live = [4384] ∧ r₅.live = [4192] ∧
      r₅.heap.freeBlockCount = 61 :=
    ⟨_, _, _, _, _, rfl, rfl, rfl, rfl, rfl, rfl, rfl, rfl, rfl⟩
  have harea : Area 1048576 initialHeapSize := by
    constructor <;> decide
  have hstarts : HeapState.Starts 1048576 emptyHeap :=
    ⟨rfl, rfl, rfl, rfl, fun _ _ => rfl, rfl⟩
  have hpage : emptyHeap.Admits (.addMem 4096 4096) :=
    ⟨by constructor <;> decide, fun _ _ => rfl, by simp [emptyHeap]⟩
  have hsize : ∀ r : HeapState, ∀ size ≤ 100, r.Admits (.alloc size 0) := by
    intro r size hsize
    change size + 32 + 8 < 4294967296
    omega
  have hheld : r₃.Admits (.free 4192) := Or.inr (by simp [hlive₃])
  have hlonger : r₄.Admits (.realloc 4384 60 0) :=
    ⟨by decide, Or.inr (by simp [hlive₄])⟩
  have hreach : Reachable (HeapState.Starts 1048576) HeapState.Admits
      (HeapState.step 1048576) r₅ :=
    (((((Reachable.start hstarts).next hpage hadd).next
      (hsize _ _ (by decide)) hfirst).next (hsize _ _ (by decide))
        hsecond).next hheld hfree).next hlonger hrealloc
  exact ⟨r₅, hlive₅, hcount, (bookkeeping_agrees harea hreach).2.1⟩

end Heap
end Yjkos
