import Yjkos.VmmAlloc
import Yjkos.VmmCommitRun

/-!
# Undoing an allocation

`vmm_free` behind `vmm_alloc_object` and accesses to the new object.  All
pages come back, but `add_object_to_address_space` does not join the ranges of
the free list, so that the range which they were taken from may stay split in
two.
-/

namespace Yjkos
namespace Vmm

open Mmu SetPartition TransitionRun

def freeRanges (s : State) : List (Set ℕ) :=
  s.space.objectList.map s.rangeOf

/-- Everything is as it was, but that a free range may have been split. -/
structure Restored (r r' : VmState) : Prop where
  live : r'.live = r.live
  liveRanges : ∀ p ∈ r.live, r'.vmm.rangeOf p = r.vmm.rangeOf p
  freeRanges : SplitOnce (freeRanges r.vmm) (freeRanges r'.vmm)
  frames : r'.vmm.frames.inUse.Perm r.vmm.frames.inUse

/-- The object at `new` has been allocated since, for memory which is there
already, and nothing else. -/
structure Borrowed (kernelVmStart : ℕ) (r : VmState) (new : ℕ) (r' : VmState) :
    Prop where
  commits : Commits kernelVmStart r'
  live : r'.live = new :: r.live
  liveRanges : ∀ p ∈ r.live, r'.vmm.rangeOf p = r.vmm.rangeOf p
  freeRanges : SplitOnce (freeRanges r.vmm)
    (r'.vmm.rangeOf new :: freeRanges r'.vmm)
  frames : r'.vmm.frames.inUse = r.vmm.frames.inUse
  physical : ∀ object, r'.vmm.objects new = some object →
    object.physBase ≠ physaddrNomap

/-- What the heap has answered with is not in use. -/
structure Unused (s : State) (newobject uobject : Option ℕ) : Prop where
  object : ∀ p, newobject = some p → s.objects p = none
  record : ∀ u, uobject = some u → s.uobjects u = none

section Undo

variable {kernelVmStart new u n physBase size : ℕ} {r r' : VmState}
  {s s' : State} {newobject uobject : Option ℕ} {answers : List (Option ℕ)}
  {mapflags : BitVec 8}

/-- An access to the new object. -/
theorem Borrowed.fault {r'' : VmState} {ptr : ℕ} {wasWrite wasUser : Bool}
    (h : Borrowed kernelVmStart r new r') (hstart : 0 < kernelVmStart)
    (hptr : ptr ∈ r'.vmm.rangeOf new) (hmapped : ¬r'.vmm.tables.Mapped ptr)
    (hstep : r'.step kernelVmStart (.fault new ptr wasWrite wasUser []) =
      .ok r'') : Borrowed kernelVmStart r new r'' := by
  have hmem : new ∈ r'.live := h.live ▸ List.mem_cons_self
  have hadmits : r'.AdmitsCommit (.fault new ptr wasWrite wasUser []) :=
    ⟨⟨hmem, hptr, .inl hmapped⟩, fun _ hf => nomatch hf⟩
  have hcommits := h.commits.fault hstart hadmits hstep
  obtain ⟨object, hobject, -⟩ := h.commits.partitioned.covers.object
    (List.mem_append_right _ hmem)
  rw [rangeOf_eq hobject] at hptr
  obtain ⟨s', hs', hend⟩ := bind_eq_ok hstep
  cases hend
  obtain ⟨i, f, -, -, hcommit⟩ :=
    h.commits.fault_commits hstart hmem hobject hptr hmapped hs'
  have hobjects : s'.objects = r'.vmm.objects := hcommit.same.objects
  have hlist : s'.space.objectList = r'.vmm.space.objectList :=
    hcommit.same.list
  have hrange : s'.rangeOf = r'.vmm.rangeOf := by
    funext p
    unfold State.rangeOf
    rw [hobjects]
  exact
    { commits := hcommits
      live := h.live
      liveRanges := fun p hp => by
        dsimp only
        rw [hrange]
        exact h.liveRanges p hp
      freeRanges := by
        unfold Vmm.freeRanges
        dsimp only
        rw [hlist, hrange]
        exact h.freeRanges
      frames := (hcommit.physical (h.physical object hobject)).2.trans
        h.frames
      physical := fun other hother => by
        dsimp only at hother
        rw [hobjects] at hother
        exact h.physical other hother }

/-- The object is back on the free list. -/
theorem vmmFree_frame {start endAddr p : ℕ} {live : List ℕ}
    (hinv : Partitioned start endAddr s live) (hp : p ∈ live)
    (hfree : vmmFree s p = .ok s') :
    s'.objects = s.objects ∧
      s'.space.objectList.Perm (p :: s.space.objectList) := by
  unfold vmmFree at hfree
  obtain ⟨freed, -, hrest⟩ := bind_eq_ok hfree
  obtain ⟨record, -, hrest⟩ := bind_eq_ok hrest
  obtain ⟨t, hdrop, hrest⟩ := bind_eq_ok hrest
  obtain ⟨t', hpages, hadd⟩ := bind_eq_ok hrest
  have hsame := (dropRecord_sameObjects hdrop).trans
    (freePages_sameObjects hpages)
  have hinv' := hsame.partitioned hinv
  have hpmem : p ∈ t'.space.objectList ++ live := List.mem_append_right _ hp
  obtain ⟨object, hobject, hpaged⟩ := hinv'.covers.object hpmem
  have hnodup := List.nodup_append.mp hinv'.covers.nodup
  have hnotMem : p ∉ t'.space.objectList :=
    fun h => hnodup.2.2 p h p hp rfl
  obtain ⟨list, hadded, hperm⟩ := addObjectToAddressSpace_spec hobject hpaged
    (hinv'.covers.apart hpmem hobject (List.Subset.refl _) hnotMem) hnodup.1
  rw [hadded] at hadd
  cases hadd
  rw [hsame.list] at hperm
  exact ⟨hsame.objects, hperm⟩

theorem Borrowed.free {r'' : VmState} (h : Borrowed kernelVmStart r new r')
    (hstart : 0 < kernelVmStart)
    (hstep : r'.step kernelVmStart (.free new) = .ok r'') :
    Restored r r'' := by
  have hmem : new ∈ r'.live := h.live ▸ List.mem_cons_self
  obtain ⟨object, hobject, -⟩ := h.commits.partitioned.covers.object
    (List.mem_append_right _ hmem)
  obtain ⟨s', hfree, -, hframes, -⟩ :=
    h.commits.vmmFree hstart hmem hobject
  obtain ⟨hobjects, hlist⟩ :=
    vmmFree_frame h.commits.partitioned hmem hfree
  have hcall : r'.step kernelVmStart (.free new) =
      .ok { r' with vmm := s', live := r'.live.erase new } := by
    rw [VmState.step, hfree]
    rfl
  cases hcall.symm.trans hstep
  have hrange : s'.rangeOf = r'.vmm.rangeOf := by
    funext p
    unfold State.rangeOf
    rw [hobjects]
  have hnone := ((h.commits.pages new hmem object hobject).physical
    (h.physical object hobject)).1
  rw [hnone, List.append_nil, h.frames] at hframes
  refine ⟨?_, ?_, ?_, hframes⟩
  · dsimp only
    rw [h.live, List.erase_cons_head]
  · intro p hp
    dsimp only
    rw [hrange]
    exact h.liveRanges p hp
  · refine h.freeRanges.perm ?_
    unfold Vmm.freeRanges
    dsimp only
    rw [hrange, ← List.map_cons]
    exact hlist.map _

end Undo

end Vmm
end Yjkos
