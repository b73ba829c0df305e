import Yjkos.IdeBusBlocks
import Yjkos.VmmUndo

/-!
# What a bus master without memory gives back

The label `fail_oom` of `init_busmaster`.  The buffers are freed in the order
in which they were allocated, then the mapping of the table and the block of
the table.
-/

namespace Yjkos
namespace IdeBus

open OwnedTrace
open Ata (prdCount maxTransferSizePerPrd)
open Pmm (Allocation PoolsInv)
open Vmm (Borrowed Restored)

section Touches

variable {kernelVmStart new ptr : ℕ} {r : Vmm.VmState} {m m' : Memory}

/-- The object is borrowed and lies where it did. -/
def Mapped (kernelVmStart : ℕ) (r : Vmm.VmState) (new : ℕ) (range : Set ℕ)
    (vm : Vmm.VmState) : Prop :=
  Borrowed kernelVmStart r new vm ∧ vm.vmm.rangeOf new = range

end Touches

section Release

variable {kernelVmStart object : ℕ} {P : Vmm.VmState → Prop} {bus : Bus}
  {m m' : Memory}

/-- What `vmm_alloc_object` is assumed to do: the heap answers it with blocks
which are not in use, and it succeeds or fails cleanly. -/
structure FailsCleanly (answers : List (Option ℕ)) (m : Memory) : Prop where
  unused : ∃ newobject uobject rest,
    answers = newobject :: uobject :: rest ∧
      Vmm.Unused m.vm.vmm newobject uobject
  clean : ∀ physBase, physBase % archPageSize = 0 →
    Vmm.AllocatesCleanly { m.vm.vmm with heapAnswers := answers } physBase
      archPageSize prdtProt

theorem FailsCleanly.congr {answers : List (Option ℕ)}
    (h : FailsCleanly answers m) (hvm : m'.vm = m.vm) :
    FailsCleanly answers m' := by
  obtain ⟨hunused, hclean⟩ := h
  constructor
  · rw [hvm]
    exact hunused
  · rw [hvm]
    exact hclean

end Release

/-! ## The whole call -/

section Whole

variable {kernelVmStart : ℕ} {bus bus' : Bus} {m m' : Memory}
  {pageCounts : List ℕ} {answers : List (Option ℕ)}

/-- A block of one page. -/
theorem Takes.rounded {m₁ : Memory} {t : Allocation} (h : Takes m m₁ t)
    (hrequested : t.requested = 1) : t.rounded = 1 := by
  have hlive : t ∈ m₁.pmm.live := h.live ▸ List.mem_cons_self
  obtain ⟨-, -, -, -, hrounded, -⟩ := h.inv.placed hlive
  rw [hrounded, hrequested]
  decide

end Whole

/-- One free region of 32 pages. -/
def shortRegion (base : ℕ) : Memory :=
  ⟨⟨[⟨⟨[1, 0]⟩, base, 32⟩], []⟩, Vmm.kernelPages, fun _ => 0, []⟩

set_option maxRecDepth 10000 in
/-- The one free range has become two. -/
theorem freeRange_split : ∃ bus m,
    initBusmaster 4290760704 [some 2, some 3] newBus (shortRegion 0x100000) =
      .ok (false, [16], bus, m) ∧
    (shortRegion 0x100000).vm.vmm.space.objectList = [1] ∧
    m.vm.vmm.space.objectList = [1, 2] ∧
    ¬(Vmm.freeRanges m.vm.vmm).Perm
      (Vmm.freeRanges (shortRegion 0x100000).vm.vmm) := by
  refine ⟨_, _, rfl, rfl, rfl, fun h => ?_⟩
  exact absurd h.length_eq (by decide)

end IdeBus
end Yjkos
