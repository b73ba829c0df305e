import Yjkos.MiscMath

/-!
# Page tables

`kernel/arch/i586/mmu.c`.  The page directory and the page tables are reached
through the recursive slot 1023 of the directory, so the table of that slot
is the directory itself.  Interrupts are disabled in every caller, and the
addresses passed to `invlpg` are recorded, latest first.
-/

namespace Yjkos
namespace Mmu

def entryCount : ℕ := 1024

/-- `ARCHI586_MMU_PAGEDIR_PDE`. -/
def pagedirPde : ℕ := entryCount - 1

def flagP : BitVec 32 := 1#32
def flagRw : BitVec 32 := 2#32
def flagUs : BitVec 32 := 4#32
def flagPcd : BitVec 32 := 16#32

def mapProtRead : BitVec 8 := 1#8
def mapProtWrite : BitVec 8 := 2#8
def mapProtNocache : BitVec 8 := 8#8

structure Tables where
  pagedir : ℕ → BitVec 32
  pagetables : ℕ → ℕ → BitVec 32
  invalidated : List ℕ

/-- The physical memory manager as its clients see it: the frames which are
handed out, and what the coming calls of `pmm_alloc` return (zero once
nothing is left). -/
structure Frames where
  inUse : List ℕ
  answers : List ℕ

def pmmAlloc (frames : Frames) : ℕ × Frames :=
  match frames.answers with
  | [] => (0, frames)
  | frame :: rest =>
      (frame, ⟨if frame = 0 then frames.inUse else frame :: frames.inUse,
        rest⟩)

/-- `pmm_free(ptr, 1)`. -/
def pmmFree (frames : Frames) (ptr : ℕ) : Except Fault Frames :=
  if ptr = 0 then .ok frames
  else if ptr ∈ frames.inUse then
    .ok { frames with inUse := frames.inUse.erase ptr }
  else .error (.panic "pmm: bad pointer")

def pdeIndex (ptr : ℕ) : ℕ := (ptr &&& 1023 <<< 22) >>> 22

def pteIndex (ptr : ℕ) : ℕ := (ptr &&& 1023 <<< 12) >>> 12

/-- `s_pagetables[pde].entry[pte]`. -/
def Tables.entry (m : Tables) (pde pte : ℕ) : BitVec 32 :=
  if pde = pagedirPde then m.pagedir pte else m.pagetables pde pte

def Tables.setEntry (m : Tables) (pde pte : ℕ) (value : BitVec 32) :
    Tables :=
  if pde = pagedirPde then
    { m with pagedir := Function.update m.pagedir pte value }
  else
    let table := Function.update (m.pagetables pde) pte value
    { m with pagetables := Function.update m.pagetables pde table }

def flushTlbFor (m : Tables) (ptr : ℕ) : Tables :=
  { m with invalidated := ptr :: m.invalidated }

/-- `entry & flag`, as a condition. -/
def has (entry flag : BitVec 32) : Bool := entry &&& flag != 0

def hasProt (flags prot : BitVec 8) : Bool := flags &&& prot != 0

/-- `entry & ~0xfff`. -/
def frameOf (entry : BitVec 32) : ℕ := (entry &&& ~~~0xfff#32).toNat

def archMmuEmulate (m : Tables) (virtaddr : ℕ) (flags : BitVec 8)
    (isFromUser : Bool) : Except Errno ℕ :=
  let pdEntry := m.pagedir (pdeIndex virtaddr)
  let isWrite := hasProt flags mapProtWrite
  if !has pdEntry flagP then .error .efault
  else if !has pdEntry flagRw && isWrite then .error .eperm
  else if !has pdEntry flagUs && isFromUser then .error .eperm
  else
    let ptEntry := m.entry (pdeIndex virtaddr) (pteIndex virtaddr)
    if !has ptEntry flagP then .error .efault
    else if !has ptEntry flagRw && isWrite then .error .eperm
    else if !has ptEntry flagUs && isFromUser then .error .eperm
    else .ok (frameOf ptEntry)

def archMmuVirtualToPhysical (m : Tables) (virt : ℕ) : Except Errno ℕ :=
  if !has (m.pagedir (pdeIndex virt)) flagP then .error .efault
  else
    let ptEntry := m.entry (pdeIndex virt) (pteIndex virt)
    if !has ptEntry flagP then .error .efault
    else .ok (frameOf ptEntry + (virt &&& 0xfff))

/-- `ASSERT_ADDR_VALID`. -/
def assertAddrValid (addr count : ℕ) : Except Fault Unit := do
  cAssert (addr ≠ 0) "(uintptr_t)(_addr) != 0"
  cAssert (count ≤ sizeMax / archPageSize)
    "(_count) <= (UINTPTR_MAX / ARCHI586_MMU_PAGE_SIZE)"
  cAssert (¬sizeMax - addr < count * archPageSize)
    "!WILL_ADD_OVERFLOW((uintptr_t)(_addr), ((_count) * ARCHI586_MMU_PAGE_SIZE), UINTPTR_MAX)"

/-- Flushes the pages of one table, the last one first in the record. -/
def flushTable (m : Tables) (pde : ℕ) : Tables :=
  { m with invalidated :=
      (List.range entryCount).reverse.map (fun i =>
        pde * 4194304 + i * archPageSize) ++ m.invalidated }

/-- The argument has type `uint8_t`. -/
def createPd (m : Tables) (frames : Frames) (pde : ℕ) :
    Except Errno Unit × Tables × Frames :=
  let slot := pde % 256
  let (addr, frames) := pmmAlloc frames
  if addr = 0 then (.error .enomem, m, frames)
  else
    let pdEntry := BitVec.ofNat 32 addr ||| flagP ||| flagRw ||| flagUs
    let m := { m with pagedir := Function.update m.pagedir slot pdEntry }
    let m := flushTlbFor m (pagedirPde * 4194304 + slot * archPageSize)
    let zeroed := fun _ => 0
    let m := { m with pagetables := Function.update m.pagetables slot zeroed }
    (.ok (), flushTable m slot, frames)

/-- Whether the old translation may still be cached with more rights or for
another frame. -/
def shouldFlush (oldpte : BitVec 32) (phys : ℕ) (flags : BitVec 8)
    (userAccess : Bool) : Bool :=
  has oldpte flagP &&
    (has oldpte flagRw && !hasProt flags mapProtWrite ||
      has oldpte flagUs && !userAccess || frameOf oldpte != phys)

/-- The page table entry which `map_single_page` builds. -/
def mappedEntry (phys : ℕ) (flags : BitVec 8) (userAccess : Bool) :
    BitVec 32 :=
  BitVec.ofNat 32 phys ||| flagP |||
    (if hasProt flags mapProtWrite then flagRw else 0) |||
    (if hasProt flags mapProtNocache then flagPcd else 0) |||
    (if userAccess then flagUs else 0)

def mapSinglePage (m : Tables) (virt phys : ℕ) (flags : BitVec 8)
    (userAccess : Bool) : Tables :=
  let oldpte := m.entry (pdeIndex virt) (pteIndex virt)
  let mapped := m.setEntry (pdeIndex virt) (pteIndex virt)
    (mappedEntry phys flags userAccess)
  if shouldFlush oldpte phys flags userAccess then flushTlbFor mapped virt
  else mapped

/-- The first loop of `arch_mmu_map`: the result is false when a page table
could not be allocated. -/
def createTables (virtBase : ℕ) :
    ℕ → ℕ → Tables → Frames → Bool × Tables × Frames
  | 0, _, m, frames => (true, m, frames)
  | left + 1, i, m, frames =>
      let pde := pdeIndex (virtBase + i * archPageSize)
      if has (m.pagedir pde) flagP then
        createTables virtBase left (i + 1) m frames
      else
        match createPd m frames pde with
        | (.error _, m, frames) => (false, m, frames)
        | (.ok (), m, frames) =>
            createTables virtBase left (i + 1) m frames

/-- The second loop of `arch_mmu_map`.  The window shows no page table where
the directory entry is not present, and an access to it there is a fault. -/
def mapPages (virtBase physbase : ℕ) (flags : BitVec 8)
    (userAccess : Bool) : ℕ → ℕ → Tables → Except Fault Tables
  | 0, _, m => .ok m
  | left + 1, i, m =>
      let virt := virtBase + i * archPageSize
      if has (m.pagedir (pdeIndex virt)) flagP then
        mapPages virtBase physbase flags userAccess left (i + 1)
          (mapSinglePage m virt (physbase + i * archPageSize) flags
            userAccess)
      else .error .wildPointer

/-- The error of `create_pd` is assigned to a variable of the loop body, so
`arch_mmu_map` returns zero after a failed allocation too. -/
def archMmuMap (m : Tables) (frames : Frames)
    (virtBase physbase pageCount : ℕ) (flags : BitVec 8)
    (userAccess : Bool) :
    Except Fault (Except Errno Unit × Tables × Frames) := do
  assertAddrValid virtBase pageCount
  assertAddrValid physbase pageCount
  cAssert (isAligned physbase archPageSize)
    "is_aligned(physbase, ARCHI586_MMU_PAGE_SIZE)"
  if !hasProt flags mapProtRead then .ok (.error .eperm, m, frames)
  else
    match createTables virtBase pageCount 0 m frames with
    | (false, m, frames) => .ok (.ok (), m, frames)
    | (true, m, frames) => do
        let m ← mapPages virtBase physbase flags userAccess pageCount 0 m
        .ok (.ok (), m, frames)

def checkPresence (m : Tables) (virt : ℕ) : Except Errno Unit :=
  if !has (m.pagedir (pdeIndex virt)) flagP then .error .efault
  else if !has (m.entry (pdeIndex virt) (pteIndex virt)) flagP then
    .error .efault
  else .ok ()

def checkPages (m : Tables) (virtBase : ℕ) : ℕ → ℕ → Except Errno Unit
  | 0, _ => .ok ()
  | left + 1, i => do
      checkPresence m (virtBase + i * archPageSize)
      checkPages m virtBase left (i + 1)

def unmapPages (virtBase : ℕ) : ℕ → ℕ → Tables → Tables
  | 0, _, m => m
  | left + 1, i, m =>
      let virt := virtBase + i * archPageSize
      unmapPages virtBase left (i + 1)
        (flushTlbFor (m.setEntry (pdeIndex virt) (pteIndex virt) 0) virt)

/-- Returns `true`, that is 1, where its siblings return zero; callers only
test for negative results. -/
def archMmuUnmap (m : Tables) (virtBase pageCount : ℕ) :
    Except Fault (Except Errno Unit × Tables) := do
  assertAddrValid virtBase pageCount
  match checkPages m virtBase pageCount 0 with
  | .error e => .ok (.error e, m)
  | .ok () => .ok (.ok (), unmapPages virtBase pageCount 0 m)

/-- The page table entry which `remap_single_page` builds: the old one keeps
its frame and its present flag. -/
def remappedEntry (oldpte : BitVec 32) (flags : BitVec 8)
    (userAccess : Bool) : BitVec 32 :=
  oldpte &&& ~~~(0xfff#32 &&& ~~~flagP) |||
    (if hasProt flags mapProtWrite then flagRw else 0) |||
    (if hasProt flags mapProtNocache then flagPcd else 0) |||
    (if userAccess then flagUs else 0)

def remapSinglePage (m : Tables) (virt : ℕ) (flags : BitVec 8)
    (userAccess : Bool) : Tables :=
  let oldpte := m.entry (pdeIndex virt) (pteIndex virt)
  let shouldFlush :=
    has oldpte flagRw && !hasProt flags mapProtWrite ||
      has oldpte flagUs && !userAccess
  let remapped := m.setEntry (pdeIndex virt) (pteIndex virt)
    (remappedEntry oldpte flags userAccess)
  if shouldFlush then flushTlbFor remapped virt else remapped

def remapPages (virtBase : ℕ) (flags : BitVec 8) (userAccess : Bool) :
    ℕ → ℕ → Tables → Tables
  | 0, _, m => m
  | left + 1, i, m =>
      remapPages virtBase flags userAccess left (i + 1)
        (remapSinglePage m (virtBase + i * archPageSize) flags userAccess)

def archMmuRemap (m : Tables) (virtBase pageCount : ℕ) (flags : BitVec 8)
    (userAccess : Bool) : Except Fault (Except Errno Unit × Tables) := do
  assertAddrValid virtBase pageCount
  if !hasProt flags mapProtRead then .ok (.error .eperm, m)
  else
    match checkPages m virtBase pageCount 0 with
    | .error e => .ok (.error e, m)
    | .ok () =>
        .ok (.ok (), remapPages virtBase flags userAccess pageCount 0 m)

/-- `ARCHI586_MMU_SCRATCH_PDE`. -/
def scratchPde : ℕ := 768 + (entryCount - 768 - 1) - 1

/-- `ARCHI586_MMU_SCRATCH_PTE`. -/
def scratchPte : ℕ := entryCount - 1

def scratchMapBase : ℕ := scratchPde <<< 22 ||| scratchPte <<< 12

/-- The page table entry which `arch_mmu_scratch_map` builds. -/
def scratchEntry (physaddr : ℕ) (cacheInhibit : Bool) : BitVec 32 :=
  BitVec.ofNat 32 physaddr ||| flagP ||| flagRw |||
    (if cacheInhibit then flagPcd else 0)

def archMmuScratchMap (m : Tables) (physaddr : ℕ) (cacheInhibit : Bool) :
    Except Fault Tables := do
  cAssert (isAligned physaddr archPageSize)
    "is_aligned(physaddr, ARCHI586_MMU_PAGE_SIZE)"
  cAssert (has (m.pagedir scratchPde) flagP)
    "pd_entry & ARCHI586_MMU_PDE_FLAG_P"
  let oldpte := m.entry scratchPde scratchPte
  let shouldFlush :=
    has oldpte flagP && (has oldpte flagUs || frameOf oldpte != physaddr)
  let m := m.setEntry scratchPde scratchPte
    (scratchEntry physaddr cacheInhibit)
  .ok (if shouldFlush then flushTlbFor m scratchMapBase else m)

/-! ## One page at a time -/

theorem pdeIndex_eq {ptr : ℕ} (hptr : ptr < 4294967296) :
    pdeIndex ptr = ptr / 4194304 := by
  unfold pdeIndex
  rw [Nat.shiftRight_and_distrib, Nat.shiftLeft_shiftRight,
    show 1023 = 2 ^ 10 - 1 by rfl, Nat.and_two_pow_sub_one_eq_mod,
    Nat.shiftRight_eq_div_pow]
  omega

theorem pteIndex_eq (ptr : ℕ) : pteIndex ptr = ptr / 4096 % 1024 := by
  unfold pteIndex
  rw [Nat.shiftRight_and_distrib, Nat.shiftLeft_shiftRight,
    show 1023 = 2 ^ 10 - 1 by rfl, Nat.and_two_pow_sub_one_eq_mod,
    Nat.shiftRight_eq_div_pow]

theorem frameOf_eq (entry : BitVec 32) :
    frameOf entry = entry.toNat / 4096 * 4096 := by
  have hmask : entry &&& ~~~0xfff#32 = (entry >>> 12) <<< 12 := by
    apply BitVec.eq_of_getLsbD_eq
    intro i hi
    have hfff : (~~~0xfff#32).getLsbD i = decide (12 ≤ i) := by
      interval_cases i <;> rfl
    rw [BitVec.getLsbD_and, hfff]
    by_cases hlow : i < 12
    · simp [hlow]
    · have hback : 12 + (i - 12) = i := by omega
      simp [hlow, hi, hback, Nat.le_of_not_lt hlow]
  have hlt := entry.isLt
  rw [frameOf, hmask]
  simp only [BitVec.toNat_shiftLeft, BitVec.toNat_ushiftRight,
    Nat.shiftLeft_eq, Nat.shiftRight_eq_div_pow]
  omega

theorem toNat_mappedEntry {phys : ℕ} (hphys : phys < 4294967296)
    (halign : phys % 4096 = 0) (flags : BitVec 8) (userAccess : Bool) :
    ∃ low, low < 4096 ∧
      (mappedEntry phys flags userAccess).toNat = phys + low := by
  have hadd : ∀ low < 4096, phys ||| low = phys + low := by
    intro low hlow
    have h := Nat.two_pow_add_eq_or_of_lt (i := 12) hlow (phys / 4096)
    have hback : 2 ^ 12 * (phys / 4096) = phys := by omega
    rw [hback] at h
    exact h.symm
  unfold mappedEntry
  generalize hasProt flags mapProtWrite = write
  generalize hasProt flags mapProtNocache = nocache
  refine ⟨1 ||| (if write then 2 else 0) ||| (if nocache then 16 else 0) |||
    (if userAccess then 4 else 0), ?_, ?_⟩
  · cases write <;> cases nocache <;> cases userAccess <;> decide
  · rw [← hadd _ (by
      cases write <;> cases nocache <;> cases userAccess <;> decide)]
    cases write <;> cases nocache <;> cases userAccess <;>
      simp [flagP, flagRw, flagPcd, flagUs, Nat.mod_eq_of_lt hphys,
        Nat.or_assoc]

theorem frameOf_mappedEntry {phys : ℕ} (hphys : phys < 4294967296)
    (halign : phys % 4096 = 0) (flags : BitVec 8) (userAccess : Bool) :
    frameOf (mappedEntry phys flags userAccess) = phys := by
  obtain ⟨low, hlow, heq⟩ := toNat_mappedEntry hphys halign flags userAccess
  rw [frameOf_eq, heq]
  omega

theorem has_flagP_mappedEntry (phys : ℕ) (flags : BitVec 8)
    (userAccess : Bool) :
    has (mappedEntry phys flags userAccess) flagP = true := by
  have hbit : (mappedEntry phys flags userAccess &&& flagP).getLsbD 0 =
      true := by
    simp [mappedEntry, flagP]
  unfold has
  rw [bne_iff_ne]
  intro hzero
  rw [hzero] at hbit
  simp at hbit

/-- The page table entry of the page at `virt`. -/
def Tables.pageEntry (m : Tables) (virt : ℕ) : BitVec 32 :=
  m.entry (pdeIndex virt) (pteIndex virt)

def Tables.Mapped (m : Tables) (virt : ℕ) : Prop :=
  has (m.pageEntry virt) flagP = true

/-- There is a page table for `virt`, and it is not the directory. -/
structure Tables.Tabled (m : Tables) (virt : ℕ) : Prop where
  present : has (m.pagedir (pdeIndex virt)) flagP = true
  slot : pdeIndex virt ≠ pagedirPde

/-- The tables differ in the entry of one page only. -/
structure Tables.Sets (m m' : Tables) (virt : ℕ) (entry : BitVec 32) :
    Prop where
  pagedir : m'.pagedir = m.pagedir
  entry_eq : m'.pageEntry virt = entry
  other : ∀ p, p < 4294967296 → p / 4096 ≠ virt / 4096 →
    m'.pageEntry p = m.pageEntry p

section Pages

variable {m m' : Tables} {virt : ℕ}

theorem Tables.Sets.tabled {entry : BitVec 32} {p : ℕ}
    (hsets : m.Sets m' virt entry) (h : m.Tabled p) : m'.Tabled p :=
  ⟨hsets.pagedir ▸ h.present, h.slot⟩

theorem sets_setEntry (htabled : m.Tabled virt) (hvirt : virt < 4294967296)
    (value : BitVec 32) :
    m.Sets (m.setEntry (pdeIndex virt) (pteIndex virt) value) virt value := by
  constructor
  · simp [Tables.setEntry, htabled.slot]
  · simp [Tables.setEntry, Tables.pageEntry, Tables.entry, htabled.slot]
  · intro p hp hne
    simp only [Tables.setEntry, Tables.pageEntry, Tables.entry,
      if_neg htabled.slot]
    by_cases hslot : pdeIndex p = pagedirPde
    · simp [hslot]
    · by_cases hpde : pdeIndex p = pdeIndex virt
      · have hpte : pteIndex p ≠ pteIndex virt := by
          rw [pdeIndex_eq hp, pdeIndex_eq hvirt] at hpde
          rw [pteIndex_eq, pteIndex_eq]
          omega
        simp [hpde, hpte]
      · simp [hslot, hpde]

theorem sets_flushTlbFor {entry : BitVec 32} (hsets : m.Sets m' virt entry)
    (ptr : ℕ) : m.Sets (flushTlbFor m' ptr) virt entry :=
  ⟨hsets.pagedir, hsets.entry_eq, hsets.other⟩

theorem sets_mapSinglePage (htabled : m.Tabled virt)
    (hvirt : virt < 4294967296) (phys : ℕ) (flags : BitVec 8)
    (userAccess : Bool) :
    m.Sets (mapSinglePage m virt phys flags userAccess) virt
      (mappedEntry phys flags userAccess) := by
  have hset := sets_setEntry htabled hvirt
    (mappedEntry phys flags userAccess)
  unfold mapSinglePage
  simp only
  split
  · exact sets_flushTlbFor hset virt
  · exact hset

theorem virtualToPhysical_of_mapped (htabled : m.Tabled virt)
    (hmapped : m.Mapped virt) (halign : virt % 4096 = 0) :
    archMmuVirtualToPhysical m virt = .ok (frameOf (m.pageEntry virt)) := by
  have hoffset : virt &&& 0xfff = 0 := by
    rw [show 0xfff = 2 ^ 12 - 1 by rfl, Nat.and_two_pow_sub_one_eq_mod]
    exact halign
  have hmapped' : has (m.entry (pdeIndex virt) (pteIndex virt)) flagP =
      true := hmapped
  simp [archMmuVirtualToPhysical, htabled.present, hmapped', hoffset,
    Tables.pageEntry]

theorem virtualToPhysical_of_not_mapped (hmapped : ¬m.Mapped virt) :
    archMmuVirtualToPhysical m virt = .error .efault := by
  have hmapped' : has (m.entry (pdeIndex virt) (pteIndex virt)) flagP =
      false := by
    simpa [Tables.Mapped, Tables.pageEntry] using hmapped
  simp [archMmuVirtualToPhysical, hmapped']

/-- `arch_mmu_virtual_to_physical` finds a translation. -/
def Tables.Translates (m : Tables) (virt : ℕ) : Prop :=
  ∃ physaddr, archMmuVirtualToPhysical m virt = .ok physaddr

theorem Tables.translates_iff (htabled : m.Tabled virt)
    (halign : virt % 4096 = 0) : m.Translates virt ↔ m.Mapped virt := by
  constructor
  · rintro ⟨physaddr, heq⟩
    by_contra hmapped
    rw [virtualToPhysical_of_not_mapped hmapped] at heq
    contradiction
  · intro hmapped
    exact ⟨_, virtualToPhysical_of_mapped htabled hmapped halign⟩

theorem archMmuEmulate_of_not_mapped (hmapped : ¬m.Mapped virt)
    (flags : BitVec 8) (isFromUser : Bool) :
    ∃ e, archMmuEmulate m virt flags isFromUser = .error e := by
  have hmapped' : has (m.entry (pdeIndex virt) (pteIndex virt)) flagP =
      false := by
    simpa [Tables.Mapped, Tables.pageEntry] using hmapped
  unfold archMmuEmulate
  simp only [hmapped', Bool.not_false, if_true]
  split_ifs <;> exact ⟨_, rfl⟩

theorem assertAddrValid_one {addr : ℕ} :
    assertAddrValid addr 1 = .ok () ↔ addr ≠ 0 ∧ addr ≤ 4294963199 := by
  simp only [assertAddrValid, cAssert, sizeMax, archPageSize]
  by_cases hzero : addr = 0
  · simp [hzero]
  · by_cases hroom : addr ≤ 4294963199
    · have hfits : ¬4294967295 - addr < 1 * 4096 := by omega
      simp [hzero, hroom, hfits]
    · have hfits : 4294967295 - addr < 1 * 4096 := by omega
      simp [hzero, hroom, hfits]

theorem createTables_one (frames : Frames) (htabled : m.Tabled virt) :
    createTables virt 1 0 m frames = (true, m, frames) := by
  simp [createTables, htabled.present]

theorem archMmuMap_one {frames frames' : Frames} {phys : ℕ}
    {flags : BitVec 8} {userAccess : Bool} (htabled : m.Tabled virt)
    (h : archMmuMap m frames virt phys 1 flags userAccess =
      .ok (.ok (), m', frames')) :
    m' = mapSinglePage m virt phys flags userAccess ∧ frames' = frames ∧
      phys % 4096 = 0 ∧ phys < 4294967296 := by
  unfold archMmuMap at h
  obtain ⟨_, -, h⟩ := bind_eq_ok h
  obtain ⟨_, hphys, h⟩ := bind_eq_ok h
  obtain ⟨_, halign, h⟩ := bind_eq_ok h
  have hvalid := assertAddrValid_one.mp hphys
  have hdvd := isAligned_iff.mp (cAssert_eq_ok halign)
  split at h
  · simp at h
  · rw [createTables_one frames htabled] at h
    simp only [mapPages, Nat.zero_mul, Nat.add_zero, htabled.present,
      if_true, ok_bind, Except.ok.injEq, Prod.mk.injEq, true_and] at h
    refine ⟨h.1.symm, h.2.symm, ?_, by omega⟩
    exact Nat.mod_eq_zero_of_dvd hdvd

theorem assertAddrValid_error {addr count : ℕ} {e : Fault}
    (h : assertAddrValid addr count = .error e) :
    ∃ text, e = .assertion text := by
  unfold assertAddrValid at h
  rcases bind_eq_error h with h | ⟨_, -, h⟩
  · exact ⟨_, cAssert_error h⟩
  rcases bind_eq_error h with h | ⟨_, -, h⟩
  · exact ⟨_, cAssert_error h⟩
  · exact ⟨_, cAssert_error h⟩

theorem mapPages_error {phys left i : ℕ} {flags : BitVec 8}
    {userAccess : Bool} {e : Fault}
    (h : mapPages virt phys flags userAccess left i m = .error e) :
    e = .wildPointer := by
  induction left generalizing i m with
  | zero => contradiction
  | succ left ih =>
      simp only [mapPages] at h
      split at h
      · exact ih h
      · simpa using h.symm

/-- The assertions of `arch_mmu_map` end it early, or a missing page
table. -/
theorem archMmuMap_error {frames : Frames} {phys count : ℕ}
    {flags : BitVec 8} {userAccess : Bool} {e : Fault}
    (h : archMmuMap m frames virt phys count flags userAccess = .error e) :
    (∃ text, e = .assertion text) ∨ e = .wildPointer := by
  unfold archMmuMap at h
  rcases bind_eq_error h with h | ⟨_, -, h⟩
  · exact Or.inl (assertAddrValid_error h)
  rcases bind_eq_error h with h | ⟨_, -, h⟩
  · exact Or.inl (assertAddrValid_error h)
  rcases bind_eq_error h with h | ⟨_, -, h⟩
  · exact Or.inl ⟨_, cAssert_error h⟩
  split at h
  · contradiction
  split at h
  · contradiction
  rcases bind_eq_error h with h | ⟨_, -, h⟩
  · exact Or.inr (mapPages_error h)
  · contradiction

theorem archMmuUnmap_one (htabled : m.Tabled virt)
    (hmapped : m.Mapped virt) (hzero : virt ≠ 0)
    (hroom : virt ≤ 4294963199) :
    ∃ m', archMmuUnmap m virt 1 = .ok (.ok (), m') ∧ m.Sets m' virt 0 := by
  have hmapped' : has (m.entry (pdeIndex virt) (pteIndex virt)) flagP =
      true := hmapped
  have hcheck : checkPages m virt 1 0 = .ok () := by
    simp [checkPages, checkPresence, htabled.present, hmapped']
  refine ⟨unmapPages virt 1 0 m, ?_, ?_⟩
  · simp [archMmuUnmap, assertAddrValid_one.mpr ⟨hzero, hroom⟩, hcheck]
  · simp only [unmapPages, Nat.zero_mul, Nat.add_zero]
    exact sets_flushTlbFor (sets_setEntry htabled (by omega) 0) virt

theorem Tables.Sets.not_mapped_of_zero (hsets : m.Sets m' virt 0) :
    ¬m'.Mapped virt := by
  unfold Tables.Mapped
  rw [hsets.entry_eq]
  decide

end Pages

end Mmu
end Yjkos
