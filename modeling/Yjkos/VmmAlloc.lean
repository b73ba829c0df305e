import Yjkos.VmmRun

/-!
# Allocations which fail

`vmm_alloc_object` asks the heap for two blocks and takes an object off the
free list before it looks at what it got.  The failure path then frees what is
there, the object which was taken off the list included.
-/

namespace Yjkos
namespace Vmm

open Mmu SetPartition TransitionRun

/-- The addresses of the objects on the free list. -/
def freeAddresses (s : State) : Set ℕ :=
  {a | ∃ P ∈ (s.space.objectList ++ []).map s.rangeOf, a ∈ P}

/-- The objects of the free list are whole pages and do not overlap. -/
def FreeList (s : State) : Prop :=
  Covers (freeAddresses s) s []

/-- The object at `new` is live: its pages, taken off the free list, are in
no other object, and a record says that none of them is committed.  No block
of the old free list is lost. -/
structure NewLive (s s' : State) (new n physBase : ℕ) (mapflags : BitVec 8) :
    Prop where
  fresh : s.objects new = none
  covers : Covers (freeAddresses s) s' [new]
  object : ∃ first, s'.objects new =
    some ⟨first, first + n * archPageSize - 1, physBase, mapflags⟩
  record : ∃ u, s.uobjects u = none ∧
    s'.uobjects = Function.update s.uobjects u
      (some ⟨some new, freshBitmap n⟩) ∧
    s'.space.uncommitedObjects = s.space.uncommitedObjects ++ [u]
  kept : ∀ q ∈ s.space.objectList,
    q ∈ s'.space.objectList ∨ s'.objects q = none
  others : ∀ q, q ≠ new → q ∉ s.space.objectList →
    s'.objects q = s.objects q

/-- Both lists and all blocks of the heap are as before. -/
structure Untouched (s s' : State) : Prop where
  objects : s'.objects = s.objects
  uobjects : s'.uobjects = s.uobjects
  space : s'.space = s.space

/-- What a request for `n` pages may leave behind. -/
def CleanResult (s : State) (n physBase : ℕ) (mapflags : BitVec 8) :
    Option ℕ → State → Prop
  | some new, s' => NewLive s s' new n physBase mapflags
  | none, s' => Untouched s s'

/-- `vmm_alloc_object` returns, with a live object or with nothing done. -/
def AllocatesCleanly (s : State) (physBase size : ℕ) (mapflags : BitVec 8) :
    Prop :=
  ∃ result s', vmmAllocObject s physBase size mapflags = .ok (result, s') ∧
    CleanResult s (sizeToBlocks size archPageSize) physBase mapflags result s'

section

variable {start endAddr : ℕ} {s t : State} {live : List ℕ}
  {n physBase size : ℕ} {mapflags : BitVec 8}
  {newobject uobject : Option ℕ} {answers : List (Option ℕ)}

theorem Partitioned.freeList (hinv : Partitioned start endAddr s live) :
    FreeList s := by
  have hsub : (s.space.objectList ++ []).Sublist
      (s.space.objectList ++ live) :=
    List.Sublist.append_left (List.nil_sublist live) s.space.objectList
  constructor
  · apply isPartition_sUnion
    · intro P hP
      exact hinv.parts.nonempty P ((hsub.map s.rangeOf).subset hP)
    · exact hinv.parts.disjoint.sublist (hsub.map s.rangeOf)
  · intro p hp
    exact hinv.paged p (hsub.subset hp)

/-! ## The search of the free list -/

/-- The request is read and the list is searched. -/
structure Searched (s : State) (newobject uobject : Option ℕ)
    (answers : List (Option ℕ)) (physBase size n : ℕ) : Prop where
  freeList : FreeList s
  size_pos : 1 ≤ size
  pages : sizeToBlocks size archPageSize = n
  phys : physBase = physaddrNomap ∨ physBase % 4096 = 0
  nonempty : s.space.objectList ≠ []
  answers : s.heapAnswers = newobject :: uobject :: answers
  object : ∀ p, newobject = some p → s.objects p = none
  record : ∀ u, uobject = some u → s.uobjects u = none

theorem Searched.positive
    (h : Searched s newobject uobject answers physBase size n) : 1 ≤ n :=
  h.pages ▸ sizeToBlocks_pos (by decide) h.size_pos

theorem Searched.same
    (h : Searched s newobject uobject answers physBase size n) :
    ∀ p ∈ s.space.objectList,
      (afterAnswers s newobject uobject n physBase mapflags answers).objects
        p = s.objects p := by
  intro p hp
  apply afterAnswers_objects
  intro hnew
  exact h.freeList.fresh_ne (h.object p hnew) p (List.mem_append_left _ hp)
    rfl

theorem Searched.taken
    (h : Searched s newobject uobject answers physBase size n)
    (hroom : HasRoom s n) (mapflags : BitVec 8) :
    ∃ old ∈ s.space.objectList,
    vmmAllocObject s physBase size mapflags =
      splitOrRelease ((afterAnswers s newobject uobject n physBase mapflags
        answers).withObjectList (s.space.objectList.erase old)) n newobject
        uobject (some old) := by
  obtain ⟨old, hold, object, -, -, htake⟩ :=
    takeObjectWithMinSize_spec
      (t := afterAnswers s newobject uobject n physBase mapflags answers)
      h.freeList h.positive hroom rfl h.same
  refine ⟨old, hold, ?_⟩
  rw [vmmAllocObject_answered h.phys h.answers h.pages, htake]
  rfl

end

end Vmm
end Yjkos
