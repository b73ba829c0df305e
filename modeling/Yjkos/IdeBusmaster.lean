import Yjkos.OwnedTrace
import Yjkos.PmmPools
import Yjkos.Pstring
import Yjkos.VmmAlloc
import Yjkos.VmmCommitRun

/-!
# The bus master of an IDE bus

`init_busmaster` of `kernel/arch/i586/dev/idebus.c` over the physical and the
virtual memory manager.  The blocks which `pmm_alloc` gives and `pmm_free`
takes are recorded in their order, with their page counts.  The descriptor
table is in the memory of a kernel object, whose page is committed by the
first access to it.  The scratch page of the copies is in no object.
-/

namespace Yjkos
namespace IdeBus

open OwnedTrace
open Ata (prdCount maxTransferSizePerPrd)
open Pstring (pmemset)

/-- `MAX_DMA_TRANSFER_SIZE_NEEDED`. -/
def maxDmaTransferSizeNeeded : ℕ := Ata.maxSectorsPerTransfer * Ata.sectorSize

/-- `struct prd`. -/
structure PrdEntry where
  bufferPhysaddr : ℕ
  len : ℕ
  flags : BitVec 16
deriving DecidableEq

def sizeofPrd : ℕ := 8

structure Memory where
  pmm : Pmm.PmmState
  vm : Vmm.VmState
  phys : ℕ → BitVec 8
  trace : List (Event (ℕ × ℕ))

/-- The fields of `struct bus` for the bus master. -/
structure Bus where
  prdtPhysbase : ℕ
  /-- The table and the address which it is mapped at. -/
  prdt : ℕ → PrdEntry
  prdtStart : ℕ
  prdCount : ℕ

/-- The table is mapped and cleared. -/
def Bus.cleared (bus : Bus) (start : ℕ) : Bus :=
  { bus with
    prdtStart := start
    prdt := fun i => if i < bus.prdCount then ⟨0, 0, 0⟩ else bus.prdt i }

/-! ## Memory -/

/-- Gives the address and the page count which is written back. -/
def pmmAlloc (m : Memory) (pageCount : ℕ) :
    Except Fault (ℕ × ℕ × Memory) := do
  let (result, written, pools) ← Pmm.pmmAlloc m.pmm.pools pageCount
  if result = 0 then .ok (0, written, { m with pmm := ⟨pools, m.pmm.live⟩ })
  else
    .ok (result, written,
      { m with
        pmm := ⟨pools, ⟨result, pageCount, written⟩ :: m.pmm.live⟩
        trace := m.trace ++ [.alloc (result, written)] })

/-- The block is looked up by what the caller knows of it. -/
def pmmFree (m : Memory) (ptr pageCount : ℕ) : Except Fault Memory := do
  let pools ← Pmm.pmmFree m.pmm.pools ptr pageCount
  .ok { m with
    pmm := ⟨pools, m.pmm.live.eraseP
      (fun a => a.ptr = ptr ∧ a.rounded = pageCount)⟩
    trace := m.trace ++ [.free (ptr, pageCount)] }

/-- `MAP_PROT_READ | MAP_PROT_WRITE | MAP_PROT_NOCACHE`. -/
def prdtProt : BitVec 8 :=
  Mmu.mapProtRead ||| Mmu.mapProtWrite ||| Mmu.mapProtNocache

/-- `answers` are what the heap answers. -/
def vmmMapMem (answers : List (Option ℕ)) (m : Memory) (physBase size : ℕ) :
    Except Fault (Option ℕ × Memory) := do
  cAssert (physBase ≠ Vmm.physaddrNomap) "phys_base != VMM_PHYSADDR_NOMAP"
  match ← Vmm.vmmAllocObject { m.vm.vmm with heapAnswers := answers } physBase
      size prdtProt with
  | (none, s) => .ok (none, { m with vm := { m.vm with vmm := s } })
  | (some p, s) =>
      .ok (some p, { m with
        vm := ⟨s, p :: m.vm.live, Function.update m.vm.commited p []⟩ })

section Kernel

variable (kernelVmStart : ℕ)

def vmmFree (m : Memory) (p : ℕ) : Except Fault Memory := do
  let vm ← m.vm.step kernelVmStart (.free p)
  .ok { m with vm := vm }

/-- An access to an address of the object. -/
def touch (m : Memory) (p ptr : ℕ) : Except Fault Memory :=
  if Mmu.has (m.vm.vmm.tables.pageEntry ptr) Mmu.flagP then .ok m
  else do
    let vm ← m.vm.step kernelVmStart (.fault p ptr true false [])
    .ok { m with vm := vm }

/-! ## Setting up -/

/-- The loop which gets the buffers.  Gives whether all of them are there, and
the page counts of those which are. -/
def fillTable (object : ℕ) :
    ℕ → ℕ → ℕ → List ℕ → Bus → Memory →
      Except Fault (Bool × List ℕ × Bus × Memory)
  | 0, _, _, pageCounts, bus, m => .ok (true, pageCounts, bus, m)
  | left + 1, i, remaining, pageCounts, bus, m => do
      let current := min remaining maxTransferSizePerPrd
      let (buffer, pageCount, m) ←
        pmmAlloc m (sizeToBlocks current archPageSize)
      let m ← touch kernelVmStart m object (bus.prdtStart + i * sizeofPrd)
      let entry := { bus.prdt i with bufferPhysaddr := buffer }
      let bus := { bus with prdt := Function.update bus.prdt i entry }
      if buffer = 0 then .ok (false, pageCounts, bus, m)
      else do
        let phys ← pmemset m.phys buffer 0 current
        fillTable object left (i + 1) (remaining - current)
          (pageCounts ++ [pageCount]) bus { m with phys := phys }

/-- The loop behind `fail_oom`. -/
def releaseBuffers (object : ℕ) (bus : Bus) :
    ℕ → List ℕ → Memory → Except Fault Memory
  | _, [], m => .ok m
  | i, pageCount :: rest, m => do
      let m ← touch kernelVmStart m object (bus.prdtStart + i * sizeofPrd)
      let m ← pmmFree m (bus.prdt i).bufferPhysaddr pageCount
      releaseBuffers object bus (i + 1) rest m

/-- The part which has the table mapped.  Gives whether the buffers are there,
and their page counts. -/
def setUpTable (object prdtPageCount : ℕ) (bus : Bus) (m : Memory) :
    Except Fault (Bool × List ℕ × Bus × Memory) := do
  let start := (← m.vm.vmm.getObject object).start
  let bus := bus.cleared start
  let m ← touch kernelVmStart m object start
  let (filled, pageCounts, bus, m) ← fillTable kernelVmStart object
    bus.prdCount 0 maxDmaTransferSizeNeeded [] bus m
  if filled then .ok (true, pageCounts, bus, m)
  else do
    let m ← releaseBuffers kernelVmStart object bus 0 pageCounts m
    let m ← vmmFree kernelVmStart m object
    let m ← pmmFree m bus.prdtPhysbase prdtPageCount
    .ok (false, pageCounts, bus, m)

/-- Gives the result, the page counts of the buffers, the bus and the
memory. -/
def initBusmaster (answers : List (Option ℕ)) (bus : Bus) (m : Memory) :
    Except Fault (Bool × List ℕ × Bus × Memory) := do
  let bus := { bus with
    prdCount := sizeToBlocks maxDmaTransferSizeNeeded maxTransferSizePerPrd }
  let prdtsize := bus.prdCount * sizeofPrd
  cAssert (prdtsize < maxTransferSizePerPrd)
    "prdtsize < MAX_TRANSFTER_SIZE_PER_PRD"
  let (prdt, prdtPageCount, m) ←
    pmmAlloc m (sizeToBlocks prdtsize archPageSize)
  let bus := { bus with prdtPhysbase := prdt }
  if prdt = 0 then .ok (false, [], bus, m)
  else do
    let (object, m) ← vmmMapMem answers m prdt (prdtPageCount * archPageSize)
    match object with
    | none => do
        let m ← pmmFree m prdt prdtPageCount
        .ok (false, [], bus, m)
    | some object => setUpTable kernelVmStart object prdtPageCount bus m

end Kernel

end IdeBus
end Yjkos
