import Yjkos.BitmapSpec
import Yjkos.Mmu

/-!
# Virtual memory objects

`kernel/mem/vmm.c`, as it is compiled with `NEW_VMM`.  The kernel has one
address space, so `object->address_space` is the address space of the state.
Objects and uncommitted records are heap blocks named by their address; the
heap's answers to the coming requests are part of the state.  A list is the
sequence of the blocks whose nodes it links.

`struct vmm_object` starts with its list node, so reading a node out of
`object_node->data` gives that same node again.
-/

namespace Yjkos
namespace Vmm

open Mmu

/-- `VMM_PHYSADDR_NOMAP`. -/
def physaddrNomap : ℕ := 4294967295

/-- `ARCH_KERNEL_VM_END`: the last byte below the scratch page. -/
def kernelVmEnd : ℕ := 1022 * 4194304 + 1023 * archPageSize - 1

structure Object where
  start : ℕ
  endAddr : ℕ
  physBase : ℕ
  mapflags : BitVec 8

structure UncommitedObject where
  object : Option ℕ
  bitmap : Bitmap

structure AddressSpace where
  objectList : List ℕ
  uncommitedObjects : List ℕ
  isUser : Bool

/-- The line `Bad VM object insertion!` with its three ranges. -/
structure BadInsertion where
  object : ℕ × ℕ
  insertAfter : ℕ × ℕ
  nextObject : ℕ × ℕ
deriving DecidableEq, Repr

structure State where
  objects : ℕ → Option Object
  uobjects : ℕ → Option UncommitedObject
  space : AddressSpace
  heapAnswers : List (Option ℕ)
  tables : Tables
  frames : Frames
  console : List BadInsertion

namespace State

def getObject (s : State) (p : ℕ) : Except Fault Object :=
  match s.objects p with
  | some object => .ok object
  | none => .error .outOfBounds

def setObject (s : State) (p : ℕ) (object : Object) : State :=
  { s with objects := Function.update s.objects p (some object) }

def getUobject (s : State) (u : ℕ) : Except Fault UncommitedObject :=
  match s.uobjects u with
  | some uobject => .ok uobject
  | none => .error .outOfBounds

def setUobject (s : State) (u : ℕ) (uobject : UncommitedObject) : State :=
  { s with uobjects := Function.update s.uobjects u (some uobject) }

def withObjectList (s : State) (list : List ℕ) : State :=
  { s with space := { s.space with objectList := list } }

def withUncommited (s : State) (list : List ℕ) : State :=
  { s with space := { s.space with uncommitedObjects := list } }

def heapAlloc (s : State) : Option ℕ × State :=
  match s.heapAnswers with
  | [] => (none, s)
  | answer :: rest => (answer, { s with heapAnswers := rest })

/-- `heap_free` of a block which holds a `struct vmm_object`, or of null. -/
def heapFreeObject (s : State) : Option ℕ → Except Fault State
  | none => .ok s
  | some p =>
      if (s.objects p).isSome then
        .ok { s with objects := Function.update s.objects p none }
      else .error (.panic "heap: bad pointer")

/-- `heap_free` of a block which holds an uncommitted record, or of null. -/
def heapFreeUobject (s : State) : Option ℕ → Except Fault State
  | none => .ok s
  | some u =>
      if (s.uobjects u).isSome then
        .ok { s with uobjects := Function.update s.uobjects u none }
      else .error (.panic "heap: bad pointer")

end State

/-! ## Lists -/

/-- `node->next`. -/
def nextOf : List ℕ → ℕ → Option ℕ
  | x :: y :: rest, after =>
      if x = after then some y else nextOf (y :: rest) after
  | _, _ => none

def listInsertAfter : List ℕ → ℕ → ℕ → List ℕ
  | [], _, _ => []
  | x :: rest, after, p =>
      if x = after then x :: p :: rest
      else x :: listInsertAfter rest after p

/-! ## The free list -/

def vmmGetObjectSize (object : Object) : ℕ :=
  wrap (object.endAddr + 4294967296 - object.start + 1)

def findMinSize (s : State) (pageCount : ℕ) :
    List ℕ → Except Fault (Option ℕ)
  | [] => .ok none
  | p :: rest => do
      let object ← s.getObject p
      if sizeToBlocks (vmmGetObjectSize object) archPageSize < pageCount then
        findMinSize s pageCount rest
      else .ok (some p)

def takeObject (s : State) : Option ℕ → State
  | none => s
  | some p => s.withObjectList (s.space.objectList.erase p)

def takeObjectWithMinSize (s : State) (pageCount : ℕ) :
    Except Fault (Option ℕ × State) := do
  cAssert (pageCount ≠ 0) "page_count != 0"
  cAssert (s.space.objectList ≠ []) "self->object_list.front != nullptr"
  let result ← findMinSize s pageCount s.space.objectList
  .ok (result, takeObject s result)

/-- The scan for the insertion point: the last object of the list which ends
below `start`. -/
def findInsertAfter (s : State) (start : ℕ) :
    List ℕ → Option ℕ → Except Fault (Option ℕ)
  | [], found => .ok found
  | p :: rest, found => do
      let oldObject ← s.getObject p
      if oldObject.endAddr < start then findInsertAfter s start rest (some p)
      else findInsertAfter s start rest found

/-- Insertion behind `after`; the object is dropped when the next one starts
too early. -/
def insertBehind (s : State) (p : ℕ) (object : Object) (after : ℕ) :
    Except Fault State :=
  let list := s.space.objectList
  match nextOf list after with
  | none => .ok (s.withObjectList (listInsertAfter list after p))
  | some next => do
      let nextObject ← s.getObject next
      let insertAfter ← s.getObject after
      if nextObject.start < object.endAddr then
        .ok { s with console := s.console ++
          [⟨(object.start, object.endAddr),
            (insertAfter.start, insertAfter.endAddr),
            (nextObject.start, nextObject.endAddr)⟩] }
      else .ok (s.withObjectList (listInsertAfter list after p))

/-- Always returns true in the source, so the callers' tests for a negative
result never hold. -/
def addObjectToAddressSpace (s : State) (p : ℕ) : Except Fault State := do
  let object ← s.getObject p
  cAssert (isAligned (vmmGetObjectSize object) archPageSize)
    "is_aligned(vmm_get_object_size(object), ARCH_PAGESIZE)"
  let insertAfter ← findInsertAfter s object.start s.space.objectList none
  match insertAfter with
  | none => .ok (s.withObjectList (s.space.objectList ++ [p]))
  | some after => insertBehind s p object after

/-! ## Objects and uncommitted records -/

def createObject (s : State) (start endAddr physBase : ℕ)
    (mapflags : BitVec 8) : Option ℕ × State :=
  match s.heapAlloc with
  | (none, s) => (none, s)
  | (some p, s) => (some p, s.setObject p ⟨start, endAddr, physBase, mapflags⟩)

/-- The record's bitmap after `create_uncommited_object`. -/
def freshBitmap (pageCount : ℕ) : Bitmap :=
  (Bitmap.zeroed (Bitmap.neededWordCount pageCount)).bitmapSetBits 0 pageCount

def createUncommitedObject (s : State) (object : Option ℕ)
    (pageCount : ℕ) : Option ℕ × State :=
  match s.heapAlloc with
  | (none, s) => (none, s)
  | (some u, s) => (some u, s.setUobject u ⟨object, freshBitmap pageCount⟩)

/-- `uobject->object`, followed. -/
def recordObject (s : State) (uobject : UncommitedObject) :
    Except Fault Object :=
  match uobject.object with
  | none => .error .nullDereference
  | some p => s.getObject p

def findUncommitedLoop (s : State) (pageBase : ℕ) :
    List ℕ → Except Fault (Option ℕ)
  | [] => .ok none
  | u :: rest => do
      let uobject ← s.getUobject u
      let object ← recordObject s uobject
      if object.start ≤ pageBase ∧ pageBase ≤ object.endAddr then
        .ok (some u)
      else findUncommitedLoop s pageBase rest

def findObjectInUncommited (s : State) (ptr : ℕ) :
    Except Fault (Option ℕ) :=
  findUncommitedLoop s (alignDown ptr archPageSize)
    s.space.uncommitedObjects

/-- `vmm_init_address_space`; `vmemset` clears both lists. -/
def vmmInitAddressSpace (s : State) (start endAddr : ℕ) (isUser : Bool) :
    Except Fault (Bool × State) :=
  let s := { s with space := ⟨[], [], isUser⟩ }
  match createObject s start endAddr physaddrNomap 0 with
  | (none, s) => .ok (false, s)
  | (some p, s) => do
      let s ← addObjectToAddressSpace s p
      .ok (true, s)

/-- The rest of the split object goes back to the free list, or to the heap
when nothing of it is left. -/
def returnRest (s : State) (old : ℕ) (object : Object) : Except Fault State :=
  if object.endAddr < object.start then s.heapFreeObject (some old)
  else addObjectToAddressSpace s old

/-- `list_insert_back` of the record; it writes to the record's node. -/
def insertRecord (s : State) : Option ℕ → Except Fault State
  | none => .error .nullDereference
  | some u => .ok (s.withUncommited (s.space.uncommitedObjects ++ [u]))

/-- The part of `vmm_alloc_object` after both objects are there: `new` takes
the first pages of `old`. -/
def splitObject (s : State) (new old : ℕ) (uobject : Option ℕ)
    (pageCount : ℕ) : Except Fault (Option ℕ × State) := do
  let newsize := wrap (pageCount * archPageSize)
  let oldobject ← s.getObject old
  let newobject ← s.getObject new
  let start := oldobject.start
  let s := s.setObject new
    { newobject with
      start := start
      endAddr := wrap (start + newsize + 4294967295) }
  let oldobject := { oldobject with start := wrap (start + newsize) }
  let s := s.setObject old oldobject
  let s ← returnRest s old oldobject
  let s ← insertRecord s uobject
  .ok (some new, s)

/-- The failure path frees the new object and still returns its address. -/
def releaseAll (s : State) (newobject uobject oldobject : Option ℕ) :
    Except Fault (Option ℕ × State) := do
  let s ← s.heapFreeUobject uobject
  let s ← s.heapFreeObject oldobject
  let s ← s.heapFreeObject newobject
  .ok (newobject, s)

def vmmAllocObject (s : State) (physBase size : ℕ) (mapflags : BitVec 8) :
    Except Fault (Option ℕ × State) := do
  let pageCount := sizeToBlocks size archPageSize
  cAssert (physBase = physaddrNomap || isAligned physBase archPageSize)
    "is_aligned(phys_base, ARCH_PAGESIZE)"
  let (newobject, s) := createObject s 0 0 physBase mapflags
  let (uobject, s) := createUncommitedObject s newobject pageCount
  let (oldobject, s) ← takeObjectWithMinSize s pageCount
  match newobject, oldobject with
  | some new, some old => splitObject s new old uobject pageCount
  | _, _ => releaseAll s newobject uobject oldobject

/-! ## Allocation at a given address -/

def findIncluding (s : State) (start endAddr : ℕ) :
    List ℕ → Except Fault (Option ℕ)
  | [] => .ok none
  | p :: rest => do
      let object ← s.getObject p
      if start < object.start ∨ object.endAddr < start ∨
          endAddr < object.start ∨ object.endAddr < endAddr then
        findIncluding s start endAddr rest
      else .ok (some p)

/-- Despite its name it leaves the object on the list. -/
def takeObjectIncluding (s : State) (start endAddr : ℕ) :
    Except Fault (Option ℕ) := do
  let pageCount :=
    sizeToBlocks (wrap (endAddr + 4294967296 - start + 1)) archPageSize
  cAssert (pageCount ≠ 0) "page_count != 0"
  if 4294967295 - start < wrap (pageCount * archPageSize) then .ok none
  else
    let endAddr :=
      wrap (start + wrap (pageCount * archPageSize) + 4294967295)
    findIncluding s start endAddr s.space.objectList

/-- The object is on the list already.  Inserting its node a second time
leaves links which are no list any more. -/
def addLinkedObject (s : State) (p : ℕ) : Except Fault State := do
  let s ← addObjectToAddressSpace s p
  if s.space.objectList.Nodup then .ok s else .error .wildPointer

/-- The part of `vmm_alloc_object_at` after the containing object is found:
`old` keeps what lies below `virtBase`, and `right` gets what lies above the
requested pages. -/
def carveObject (s : State) (new right u old virtBase pageCount : ℕ) :
    Except Fault (Option ℕ × State) := do
  let lobject ← s.getObject old
  let newobject ← s.getObject new
  let newsize := wrap (pageCount * archPageSize)
  let s := s.setObject new
    { newobject with
      start := virtBase
      endAddr := wrap (virtBase + newsize + 4294967295) }
  let left := { lobject with endAddr := wrap (virtBase + 4294967295) }
  let s := s.setObject old left
  let rightobject ← s.getObject right
  let rest := { rightobject with
    start := wrap (virtBase + newsize)
    endAddr := lobject.endAddr }
  let s := s.setObject right rest
  let s ← if left.endAddr < left.start then s.heapFreeObject (some old)
    else addLinkedObject s old
  let s ← if rest.endAddr < rest.start then s.heapFreeObject (some right)
    else addObjectToAddressSpace s right
  let s ← insertRecord s (some u)
  .ok (some new, s)

def releaseAllAt (s : State) (newobject rightobject uobject : Option ℕ) :
    Except Fault (Option ℕ × State) := do
  let s ← s.heapFreeUobject uobject
  let s ← s.heapFreeObject newobject
  let s ← s.heapFreeObject rightobject
  .ok (none, s)

/-- The interrupt flag, cleared at the start and restored at the end, is not
part of the state. -/
def vmmAllocObjectAt (s : State) (virtBase physBase size : ℕ)
    (mapflags : BitVec 8) : Except Fault (Option ℕ × State) := do
  cAssert (virtBase ≠ 0) "virt_base"
  let pageCount := sizeToBlocks size archPageSize
  cAssert (physBase = physaddrNomap || isAligned physBase archPageSize)
    "is_aligned(phys_base, ARCH_PAGESIZE)"
  cAssert (!isAligned virtBase archPageSize)
    "!is_aligned((uintptr_t)virt_base, ARCH_PAGESIZE)"
  if 4294967295 / archPageSize < pageCount then .ok (none, s)
  else if 4294967295 - virtBase < archPageSize * pageCount then .ok (none, s)
  else
    let endAddr := virtBase + archPageSize * pageCount - 1
    let (newobject, s) := createObject s 0 0 physBase mapflags
    let (rightobject, s) := createObject s 0 0 physaddrNomap 0
    let (uobject, s) := createUncommitedObject s newobject pageCount
    match newobject, rightobject, uobject with
    | some new, some right, some u => do
        match ← takeObjectIncluding s virtBase endAddr with
        | some old => carveObject s new right u old virtBase pageCount
        | none => releaseAllAt s newobject rightobject uobject
    | _, _, _ => releaseAllAt s newobject rightobject uobject

/-! ## Freeing -/

def dropRecord (s : State) : Option ℕ → Except Fault State
  | none => .ok s
  | some u =>
      (s.withUncommited (s.space.uncommitedObjects.erase u)).heapFreeUobject
        (some u)

def freeFrame (s : State) (object : Object) (physaddr : ℕ) :
    Except Fault State :=
  if object.physBase = physaddrNomap then do
    let frames ← pmmFree s.frames physaddr
    .ok { s with frames := frames }
  else .ok s

/-- One turn of the loop of `vmm_free`. -/
def freePage (s : State) (object : Object) (ptr : ℕ) : Except Fault State :=
  match archMmuVirtualToPhysical s.tables ptr with
  | .error _ => .ok s
  | .ok physaddr => do
      let s ← freeFrame s object physaddr
      match ← archMmuUnmap s.tables ptr 1 with
      | (.error _, _) => .error (.panic "failed to unmap commited pages")
      | (.ok (), tables) => .ok { s with tables := tables }

def freePages (object : Object) : ℕ → ℕ → State → Except Fault State
  | 0, _, _ => .error .outOfFuel
  | fuel + 1, ptr, s =>
      if ptr ≤ object.endAddr then do
        let s ← freePage s object ptr
        freePages object fuel (wrap (ptr + archPageSize)) s
      else .ok s

def vmmFree (s : State) (p : ℕ) : Except Fault State := do
  let object ← s.getObject p
  let uobject ← findObjectInUncommited s object.start
  let s ← dropRecord s uobject
  let s ← freePages object 1048577 object.start s
  addObjectToAddressSpace s p

/-! ## Page faults -/

/-- The frame for a page: part of the object's physical range, or a new
one. -/
def frameFor (frames : Frames) (object : Object) (pageIndex : ℕ) :
    Except Fault (ℕ × Frames) :=
  if object.physBase ≠ physaddrNomap then
    .ok (wrap (object.physBase + pageIndex * archPageSize), frames)
  else
    match pmmAlloc frames with
    | (0, _) =>
        .error (.panic "ran out of memory while trying to commit the page")
    | (physaddr, frames) => .ok (physaddr, frames)

/-- The record goes once its last page is committed. -/
def finishCommit (s : State) (u : ℕ) (bitmap : Bitmap) :
    Except Fault State :=
  if bitmap.bitmapFindFirstSetBit 0 < 0 then dropRecord s (some u)
  else .ok s

def mapCommited (s : State) (object : Object) (pageBase physaddr : ℕ)
    (frames : Frames) : Except Fault State := do
  match ← archMmuMap s.tables frames pageBase physaddr 1 object.mapflags
      s.space.isUser with
  | (.error _, _, _) => .error (.panic "failed to map allocated memory")
  | (.ok (), tables, frames) =>
      .ok { s with tables := tables, frames := frames }

/-- The part of `vmm_page_fault` for a page of an uncommitted record. -/
def commitPage (s : State) (u pageBase : ℕ) : Except Fault State := do
  let uobject ← s.getUobject u
  let object ← recordObject s uobject
  let pageIndex := wrap (pageBase + 4294967296 - object.start) / archPageSize
  let isSet ← uobject.bitmap.bitmapIsBitSet pageIndex
  if !isSet then .error (.panic "non-present page on already commited page")
  else
    let bitmap ← uobject.bitmap.bitmapClearBit pageIndex
    let s := s.setUobject u { uobject with bitmap := bitmap }
    let (physaddr, frames) ← frameFor s.frames object pageIndex
    let s ← mapCommited s object pageBase physaddr frames
    finishCommit s u bitmap

/-- `vmm_get_address_space_of(ptr) != nullptr`. -/
def inKernelVm (kernelVmStart ptr : ℕ) : Bool :=
  kernelVmStart ≤ ptr && ptr ≤ kernelVmEnd

def faultFlags (wasWrite : Bool) : BitVec 8 :=
  mapProtRead ||| (if wasWrite then mapProtWrite else 0)

def vmmPageFault (kernelVmStart : ℕ) (s : State) (ptr : ℕ)
    (wasPresent wasWrite wasUser : Bool) : Except Fault State :=
  let pageBase := alignDown ptr archPageSize
  match archMmuEmulate s.tables ptr (faultFlags wasWrite) wasUser with
  | .ok _ => .ok { s with tables := flushTlbFor s.tables ptr }
  | .error _ =>
      if wasPresent || pageBase == 0 || !inKernelVm kernelVmStart pageBase then
        .error (.panic "fatal memory access fault")
      else do
        match ← findObjectInUncommited s ptr with
        | none => .error (.panic "fatal memory access fault")
        | some u => commitPage s u pageBase

end Vmm
end Yjkos
