import Yjkos.VmmAlloc

/-!
# Allocation at a given address

`vmm_alloc_object_at` asserts that its base address is not page-aligned.  A
caller which asks for whole pages stops there.  With any other base address
the part of the containing object below it is not made of whole pages, and
`add_object_to_address_space` stops at its own assertion.
-/

namespace Yjkos
namespace Vmm

open Mmu SetPartition

/-- `n` pages from `virtBase` on lie inside one free object. -/
def InFreeObject (s : State) (virtBase n : ℕ) : Prop :=
  ∃ p ∈ s.space.objectList, ∃ object, s.objects p = some object ∧
    object.start ≤ virtBase ∧
    virtBase + n * archPageSize - 1 ≤ object.endAddr

/-- The new object has exactly the requested pages, and the free list has the
other pages it had. -/
structure Carved (s s' : State) (new virtBase n physBase : ℕ)
    (mapflags : BitVec 8) : Prop where
  covers : Covers (freeAddresses s) s' [new]
  object : s'.objects new =
    some ⟨virtBase, virtBase + n * archPageSize - 1, physBase, mapflags⟩

/-- `vmm_alloc_object_at` carves the range out of the free object it lies in,
and does nothing when there is none. -/
def CarvesOut (s : State) (virtBase physBase size : ℕ)
    (mapflags : BitVec 8) : Prop :=
  ∃ result s',
    vmmAllocObjectAt s virtBase physBase size mapflags = .ok (result, s') ∧
    ((InFreeObject s virtBase (sizeToBlocks size archPageSize) ∧
        ∃ new, result = some new ∧ Carved s s' new virtBase
          (sizeToBlocks size archPageSize) physBase mapflags) ∨
      (¬InFreeObject s virtBase (sizeToBlocks size archPageSize) ∧
        result = none ∧ Untouched s s'))

section

variable {s t t' : State} {virtBase physBase size : ℕ} {mapflags : BitVec 8}

theorem vmmAllocObjectAt_asserts {result : Option ℕ × State}
    (h : vmmAllocObjectAt s virtBase physBase size mapflags = .ok result) :
    virtBase % 4096 ≠ 0 := by
  obtain ⟨_, -, h⟩ := bind_eq_ok h
  obtain ⟨_, -, h⟩ := bind_eq_ok h
  obtain ⟨_, hassert, -⟩ := bind_eq_ok h
  simpa [isAligned, archPageSize] using cAssert_eq_ok hassert

/-- No request for whole pages is carved out of the free list. -/
theorem vmmAllocObjectAt_not_carvesOut (hbase : virtBase % 4096 = 0) :
    ¬CarvesOut s virtBase physBase size mapflags := by
  rintro ⟨result, s', halloc, -⟩
  exact vmmAllocObjectAt_asserts halloc hbase

end

/-- Two free pages and a heap which grants three blocks. -/
def grantedBlocks : State :=
  { twoPages.vmm with heapAnswers := [some 2, some 3, some 4] }

/-- The second of the two pages. -/
theorem second_page_not_carvesOut :
    ¬CarvesOut grantedBlocks 8192 physaddrNomap 4096 3 :=
  vmmAllocObjectAt_not_carvesOut (by decide)

/-- The first of two free pages is asked for. -/
theorem alloc_at_first_page_asserts :
    InFreeObject grantedBlocks 4096 1 ∧
    vmmAllocObjectAt grantedBlocks 4096 physaddrNomap 4096 3 =
      .error (.assertion
        "!is_aligned((uintptr_t)virt_base, ARCH_PAGESIZE)") ∧
    ¬CarvesOut grantedBlocks 4096 physaddrNomap 4096 3 := by
  have hassert : vmmAllocObjectAt grantedBlocks 4096 physaddrNomap 4096 3 =
      .error (.assertion
        "!is_aligned((uintptr_t)virt_base, ARCH_PAGESIZE)") := rfl
  refine ⟨⟨1, List.mem_singleton_self 1, _, rfl, by decide, by decide⟩,
    hassert, ?_⟩
  rintro ⟨result, s', halloc, -⟩
  rw [hassert] at halloc
  contradiction

/-! ## Other base addresses -/

/-- What the requests to the heap leave alone. -/
structure Requested (s t : State) : Prop where
  space : t.space = s.space
  objects : ∀ q, some q ∉ s.heapAnswers → t.objects q = s.objects q
  answers : t.heapAnswers ⊆ s.heapAnswers

section

variable {s t t' : State} {virtBase physBase size : ℕ} {mapflags : BitVec 8}
  {result : Option ℕ}

theorem Requested.trans (h : Requested s t) (h' : Requested t t') :
    Requested s t' := by
  refine ⟨h'.space.trans h.space, ?_, fun a ha => h.answers (h'.answers ha)⟩
  intro q hq
  exact (h'.objects q fun hmem => hq (h.answers hmem)).trans (h.objects q hq)

theorem heapAlloc_requested (h : s.heapAlloc = (result, t)) :
    Requested s t ∧ t.objects = s.objects ∧
      ∀ p, result = some p → some p ∈ s.heapAnswers := by
  unfold State.heapAlloc at h
  split at h
  · obtain ⟨rfl, rfl⟩ := Prod.mk.inj h
    exact ⟨⟨rfl, fun _ _ => rfl, List.Subset.refl _⟩, rfl, by simp⟩
  next answer rest hanswers =>
    obtain ⟨rfl, rfl⟩ := Prod.mk.inj h
    refine ⟨⟨rfl, fun _ _ => rfl, ?_⟩, rfl, ?_⟩
    · rw [hanswers]
      exact List.subset_cons_self answer rest
    · rintro p rfl
      rw [hanswers]
      exact List.mem_cons_self

theorem createObject_requested {start endAddr : ℕ}
    (h : createObject s start endAddr physBase mapflags = (result, t)) :
    Requested s t ∧ ∀ p, result = some p → some p ∈ s.heapAnswers := by
  unfold createObject at h
  split at h
  next r halloc =>
    obtain ⟨rfl, rfl⟩ := Prod.mk.inj h
    exact ⟨(heapAlloc_requested halloc).1, by simp⟩
  next p r halloc =>
    obtain ⟨rfl, rfl⟩ := Prod.mk.inj h
    obtain ⟨hrequested, -, hmem⟩ := heapAlloc_requested halloc
    refine ⟨⟨hrequested.space, ?_, hrequested.answers⟩, hmem⟩
    intro q hq
    have hne : q ≠ p := fun heq => hq (heq ▸ hmem p rfl)
    simpa [State.setObject, hne] using hrequested.objects q hq

theorem createUncommitedObject_requested {object : Option ℕ} {n : ℕ}
    (h : createUncommitedObject s object n = (result, t)) :
    Requested s t := by
  unfold createUncommitedObject at h
  split at h
  next r halloc =>
    obtain ⟨rfl, rfl⟩ := Prod.mk.inj h
    exact (heapAlloc_requested halloc).1
  next u r halloc =>
    obtain ⟨rfl, rfl⟩ := Prod.mk.inj h
    obtain ⟨hrequested, -, -⟩ := heapAlloc_requested halloc
    exact ⟨hrequested.space, hrequested.objects, hrequested.answers⟩

theorem findIncluding_some {start endAddr p : ℕ} {list : List ℕ}
    (h : findIncluding s start endAddr list = .ok (some p)) :
    p ∈ list ∧ ∃ object, s.objects p = some object ∧
      object.start ≤ start ∧ start ≤ object.endAddr := by
  induction list with
  | nil => simp [findIncluding] at h
  | cons q rest ih =>
      obtain ⟨object, hobject, h⟩ := bind_eq_ok h
      split at h
      · obtain ⟨hmem, hfound⟩ := ih h
        exact ⟨List.mem_cons_of_mem q hmem, hfound⟩
      next hin =>
        simp only [Except.ok.injEq, Option.some.injEq] at h
        subst h
        refine ⟨List.mem_cons_self, object, ?_, by omega, by omega⟩
        unfold State.getObject at hobject
        cases hq : s.objects q with
        | none => simp [hq] at hobject
        | some o => simpa [hq] using hobject

theorem takeObjectIncluding_some {start endAddr p : ℕ}
    (h : takeObjectIncluding s start endAddr = .ok (some p)) :
    p ∈ s.space.objectList ∧ ∃ object, s.objects p = some object ∧
      object.start ≤ start ∧ start ≤ object.endAddr := by
  obtain ⟨_, -, h⟩ := bind_eq_ok h
  split at h
  · simp at h
  · exact findIncluding_some h

theorem carveObject_refused {new right u old n : ℕ} {object : Object}
    {returned : Option ℕ × State} (hobject : s.objects old = some object)
    (hpaged : object.Paged) (hstart : object.start ≤ virtBase)
    (hend : virtBase ≤ object.endAddr) (hbase : virtBase % 4096 ≠ 0)
    (hnew : new ≠ old) (hright : right ≠ old) :
    carveObject s new right u old virtBase n ≠ .ok returned := by
  intro h
  have haligned := hpaged.startAligned
  have hbelow := hpaged.below
  rw [carveObject, getObject_eq hobject, ok_bind] at h
  obtain ⟨newobject, -, h⟩ := bind_eq_ok h
  obtain ⟨rightobject, -, h⟩ := bind_eq_ok h
  have hwrap : wrap (virtBase + 4294967295) = virtBase - 1 := by
    unfold wrap
    omega
  have hleft : ¬virtBase - 1 < object.start := by omega
  rw [hwrap, if_neg hleft] at h
  obtain ⟨r, hleft, -⟩ := bind_eq_ok h
  obtain ⟨r', hadd, -⟩ := bind_eq_ok hleft
  rw [addObjectToAddressSpace] at hadd
  obtain ⟨left, hread, hadd⟩ := bind_eq_ok hadd
  obtain ⟨_, hassert, -⟩ := bind_eq_ok hadd
  have hleftEq : { object with endAddr := virtBase - 1 } = left := by
    simpa [State.getObject, State.setObject, hnew.symm, hright.symm]
      using hread
  have hsize := isAligned_iff.mp (cAssert_eq_ok hassert)
  subst hleftEq
  unfold vmmGetObjectSize wrap archPageSize at hsize
  dsimp only at hsize
  omega

theorem releaseAllAt_none {newobject rightobject uobject : Option ℕ}
    (h : releaseAllAt s newobject rightobject uobject = .ok (result, t)) :
    result = none := by
  obtain ⟨_, -, h⟩ := bind_eq_ok h
  obtain ⟨_, -, h⟩ := bind_eq_ok h
  obtain ⟨_, -, h⟩ := bind_eq_ok h
  simp only [Except.ok.injEq, Prod.mk.injEq] at h
  exact h.1.symm

/-- In a well-formed address space `vmm_alloc_object_at` never returns an
object. -/
theorem vmmAllocObjectAt_returns_none (hfree : FreeList s)
    (hfresh : ∀ p, some p ∈ s.heapAnswers → s.objects p = none)
    (h : vmmAllocObjectAt s virtBase physBase size mapflags =
      .ok (result, t)) : result = none := by
  have hbase := vmmAllocObjectAt_asserts h
  obtain ⟨_, -, h⟩ := bind_eq_ok h
  obtain ⟨_, -, h⟩ := bind_eq_ok h
  obtain ⟨_, -, h⟩ := bind_eq_ok h
  split at h
  · simp only [Except.ok.injEq, Prod.mk.injEq] at h
    exact h.1.symm
  split at h
  · simp only [Except.ok.injEq, Prod.mk.injEq] at h
    exact h.1.symm
  rcases hnew : createObject s 0 0 physBase mapflags with ⟨newobject, s₁⟩
  rcases hright : createObject s₁ 0 0 physaddrNomap 0 with ⟨rightobject, s₂⟩
  rcases hrecord : createUncommitedObject s₂ newobject
    (sizeToBlocks size archPageSize) with ⟨uobject, s₃⟩
  simp only [hnew, hright, hrecord] at h
  obtain ⟨hnewRequested, hnewMem⟩ := createObject_requested hnew
  obtain ⟨hrightRequested, hrightMem⟩ := createObject_requested hright
  have hrequested := (hnewRequested.trans hrightRequested).trans
    (createUncommitedObject_requested hrecord)
  split at h
  next new right u =>
    obtain ⟨found, htake, h⟩ := bind_eq_ok h
    cases found with
    | none => exact releaseAllAt_none h
    | some old =>
        obtain ⟨hmem, object, hobject, hstart, hend⟩ :=
          takeObjectIncluding_some htake
        rw [hrequested.space] at hmem
        have holdMem := List.mem_append_left [] hmem
        -- the blocks from the heap are none of the objects on the list
        have hold : some old ∉ s.heapAnswers := fun hanswer =>
          hfree.fresh_ne (hfresh old hanswer) old holdMem rfl
        have hpaged := hfree.paged old holdMem object
          ((hrequested.objects old hold).symm.trans hobject)
        have hnewNe : new ≠ old := fun heq => hold (heq ▸ hnewMem new rfl)
        have hrightNe : right ≠ old := fun heq =>
          hold (heq ▸ hnewRequested.answers (hrightMem right rfl))
        exact absurd h (carveObject_refused hobject hpaged hstart hend hbase
          hnewNe hrightNe)
  next => exact releaseAllAt_none h

end

end Vmm
end Yjkos
