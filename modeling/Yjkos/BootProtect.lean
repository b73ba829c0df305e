import Yjkos.MmuRemap
import Yjkos.WindowRun

/-!
# What the kernel takes away again

`archi586_mmu_init` unmaps the page under the kernel stack and the region
behind the image, and two more calls write protect the code and the constants
of the early initialization.  The number of pages to protect is a difference
of pointers to `int`, which counts words.
-/

namespace Yjkos
namespace BootPaging

open StackMachine (Word)
open Mmu (passes walk frameOf has pdeIndex pteIndex Tables Shows WindowStores
  archMmuUnmap archMmuRemap scratchMapBase pagesOf assertAddrValid)

/-! ## The calls -/

/-- Where `link.ld` puts the sections of the kernel image. -/
structure Sections where
  textBegin : ℕ
  textEnd : ℕ
  roBegin : ℕ
  roEnd : ℕ
  stackbottomtrap : ℕ
  imageEnd : ℕ
  textBegin_ge : 0xc0000000 ≤ textBegin
  text_le : textBegin ≤ textEnd
  textEnd_le : textEnd ≤ roBegin
  ro_le : roBegin ≤ roEnd
  roEnd_le : roEnd ≤ stackbottomtrap
  trap_lt : stackbottomtrap + 4096 ≤ imageEnd
  imageEnd_le : imageEnd ≤ scratchMapBase
  textBegin_aligned : textBegin % 4096 = 0
  roBegin_aligned : roBegin % 4096 = 0
  trap_aligned : stackbottomtrap % 4096 = 0
  imageEnd_aligned : imageEnd % 4096 = 0

def mustSucceed : Except Errno Unit → Except Fault Unit
  | .ok () => .ok ()
  | .error _ => .error (.assertion "0 <= (ret)")

/-- The difference of two pointers to `int`. -/
def intPointerDiff (last first : ℕ) : ℕ := (last - first) / 4

def archi586MmuInit (sections : Sections) (m : Tables) :
    Except Fault Tables := do
  let (ret, m) ← archMmuUnmap m sections.stackbottomtrap 1
  mustSucceed ret
  let vmEnd := scratchMapBase - 1
  let (ret, m) ← archMmuUnmap m sections.imageEnd
    ((vmEnd - sections.imageEnd + 1) / archPageSize)
  mustSucceed ret
  .ok m

def archi586MmuWriteProtectKernelText (sections : Sections) (m : Tables) :
    Except Fault Tables := do
  let (ret, m) ← archMmuRemap m sections.textBegin
    (intPointerDiff sections.textEnd sections.textBegin / archPageSize)
    Mmu.mapProtRead false
  mustSucceed ret
  .ok m

def archMmuWriteProtectAfterEarlyInit (sections : Sections) (m : Tables) :
    Except Fault Tables := do
  let (ret, m) ← archMmuRemap m sections.roBegin
    (intPointerDiff sections.roEnd sections.roBegin / archPageSize)
    Mmu.mapProtRead false
  mustSucceed ret
  .ok m

/-- The three calls of `archi586_init`. -/
def protectImage (sections : Sections) (m : Tables) :
    Except Fault Tables := do
  let m ← archi586MmuInit sections m
  let m ← archi586MmuWriteProtectKernelText sections m
  archMmuWriteProtectAfterEarlyInit sections m

/-! ## Calls on pages of the kernel -/

structure InKernel (virtBase pageCount : ℕ) : Prop where
  base : 0xc0000000 ≤ virtBase
  room : virtBase + pageCount * archPageSize ≤ 0xffc00000

variable {image : Image} {m m' : Tables} {virtBase pageCount : ℕ}

structure Evolved (image : Image) (m : Tables) : Prop where
  rewritten : image.tables.Rewritten m

theorem Evolved.pagedir (h : Evolved image m) :
    m.pagedir = image.tables.pagedir :=
  h.rewritten.pagedir

theorem InKernel.valid (h : InKernel virtBase pageCount) :
    assertAddrValid virtBase pageCount = .ok () := by
  obtain ⟨hbase, hroom⟩ := h
  unfold archPageSize at hroom
  have hzero : decide (virtBase ≠ 0) = true := decide_eq_true (by omega)
  have hcount : decide (pageCount ≤ sizeMax / archPageSize) = true := by
    apply decide_eq_true
    unfold sizeMax archPageSize
    omega
  have hfits : decide (¬sizeMax - virtBase < pageCount * archPageSize) =
      true := by
    apply decide_eq_true
    unfold sizeMax archPageSize
    omega
  rw [assertAddrValid, cAssert_of hzero, ok_bind, cAssert_of hcount, ok_bind]
  exact cAssert_of hfits

theorem kernel_slot_present (h : Evolved image m) {p : ℕ}
    (hlow : 0xc0000000 ≤ p) (hhigh : p < 0xffc00000) :
    m.Tabled p := by
  have hpde : pdeIndex p = p / 4194304 := Mmu.pdeIndex_eq (by omega)
  constructor
  · rw [h.pagedir]
    have hused : UsedSlot (pdeIndex p) := by
      unfold UsedSlot kernelPdeStart
      omega
    have hpasses :=
      (bootPagedir_used image (show pdeIndex p < 1024 by omega) hused).2
        true false
    exact Mmu.has_flagP_of_passes hpasses
  · unfold Mmu.pagedirPde Mmu.entryCount
    omega

theorem InKernel.tabledRange (h : InKernel virtBase pageCount)
    (hevolved : Evolved image m) : m.TabledRange virtBase 0 pageCount := by
  obtain ⟨hbase, hroom⟩ := h
  constructor
  · intro j _ hlt
    unfold archPageSize at hroom
    apply kernel_slot_present hevolved
    · unfold archPageSize
      omega
    · unfold archPageSize
      omega
  · intro _
    rw [Nat.zero_add]
    exact hroom.trans (by decide)

theorem mem_pagesOf_iff {p : ℕ} (haligned : virtBase % 4096 = 0) :
    p / archPageSize ∈ pagesOf virtBase pageCount ↔
      virtBase ≤ p ∧ p < virtBase + pageCount * 4096 := by
  simp only [pagesOf, archPageSize, Set.mem_Ico]
  omega

theorem InKernel.allPresent (h : InKernel virtBase pageCount)
    (haligned : virtBase % 4096 = 0) (hevolved : Evolved image m)
    (hpresent : ∀ p < 4294967296,
      p / archPageSize ∈ pagesOf virtBase pageCount →
      has (m.pageEntry p) Mmu.flagP = true) :
    m.AllPresent (pagesOf virtBase pageCount) := by
  intro p hp hmem
  have hroom := h.room
  have hbase := h.base
  unfold archPageSize at hroom
  obtain ⟨hlow, hhigh⟩ := (mem_pagesOf_iff haligned).mp hmem
  have htabled := kernel_slot_present hevolved (p := p) (by omega) (by omega)
  rw [← Mmu.checkPresence_iff m hp, Mmu.checkPresence_eq_ok]
  exact ⟨htabled.present, hpresent p hp hmem⟩

theorem InKernel.unmaps (h : InKernel virtBase pageCount)
    (haligned : virtBase % 4096 = 0) (hevolved : Evolved image m)
    (hpresent : ∀ p < 4294967296,
      p / archPageSize ∈ pagesOf virtBase pageCount →
      has (m.pageEntry p) Mmu.flagP = true) :
    ∃ m', archMmuUnmap m virtBase pageCount = .ok (.ok (), m') ∧
      Evolved image m' ∧
      m.Rewrites m' (pagesOf virtBase pageCount) (fun _ => 0) := by
  have hcheck := (Mmu.checkPages_of_assertAddrValid h.valid).mpr
    (h.allPresent haligned hevolved hpresent)
  refine ⟨Mmu.unmapPages virtBase pageCount 0 m, ?_, ⟨?_⟩,
    Mmu.unmapPages_of_assertAddrValid m h.valid⟩
  · simp [archMmuUnmap, h.valid, hcheck]
  · exact hevolved.rewritten.trans
      (Mmu.rewritten_unmapPages (h.tabledRange hevolved))

theorem InKernel.remaps (h : InKernel virtBase pageCount)
    (haligned : virtBase % 4096 = 0) (hevolved : Evolved image m)
    (hpresent : ∀ p < 4294967296,
      p / archPageSize ∈ pagesOf virtBase pageCount →
      has (m.pageEntry p) Mmu.flagP = true) :
    ∃ m', archMmuRemap m virtBase pageCount Mmu.mapProtRead false =
        .ok (.ok (), m') ∧
      Evolved image m' ∧
      m.Rewrites m' (pagesOf virtBase pageCount)
        (Mmu.remappedEntry · Mmu.mapProtRead false) := by
  have hcheck := (Mmu.checkPages_of_assertAddrValid h.valid).mpr
    (h.allPresent haligned hevolved hpresent)
  have hread : Mmu.hasProt Mmu.mapProtRead Mmu.mapProtRead = true := by decide
  refine ⟨Mmu.remapPages virtBase Mmu.mapProtRead false pageCount 0 m, ?_,
    ⟨?_⟩, Mmu.remapPages_of_assertAddrValid _ _ m h.valid⟩
  · simp [archMmuRemap, h.valid, hcheck, hread]
  · exact hevolved.rewritten.trans
      (Mmu.rewritten_remapPages _ _ (h.tabledRange hevolved))

/-! ## The image -/

namespace Sections

variable (sections : Sections)

/-- How many pages the difference of two pointers to `int` makes. -/
def quarter (first last : ℕ) : ℕ := (last - first) / 16384

/-- The page under the stack and the region behind the image. -/
def Removed (virt : ℕ) : Prop :=
  sections.stackbottomtrap ≤ virt ∧ virt < sections.stackbottomtrap + 4096 ∨
    sections.imageEnd ≤ virt ∧ virt < scratchMapBase

/-- The first quarter of the code and of the constants. -/
def Protected (virt : ℕ) : Prop :=
  sections.textBegin ≤ virt ∧ virt < sections.textBegin +
      quarter sections.textBegin sections.textEnd * 4096 ∨
    sections.roBegin ≤ virt ∧ virt < sections.roBegin +
      quarter sections.roBegin sections.roEnd * 4096

instance : DecidablePred sections.Removed :=
  fun _ => inferInstanceAs (Decidable (_ ∨ _))

instance : DecidablePred sections.Protected :=
  fun _ => inferInstanceAs (Decidable (_ ∨ _))

end Sections

def finalEntry (sections : Sections) (entry : Word) (p : ℕ) : Word :=
  if sections.Removed p then 0
  else if sections.Protected p then
    Mmu.remappedEntry entry Mmu.mapProtRead false
  else entry

theorem intPointerDiff_pages (last first : ℕ) :
    intPointerDiff last first / archPageSize =
      Sections.quarter first last := by
  unfold intPointerDiff Sections.quarter archPageSize
  omega

theorem boot_present (image : Image) {p : ℕ} (hlow : 0xc0000000 ≤ p)
    (hhigh : p < 0xffc00000) :
    has (image.tables.pageEntry p) Mmu.flagP = true :=
  Mmu.has_flagP_of_passes ((finds_kernel image hlow hhigh).allowed true false)

theorem InKernel.boot_present (h : InKernel virtBase pageCount)
    (haligned : virtBase % 4096 = 0) {p : ℕ}
    (hmem : p / archPageSize ∈ pagesOf virtBase pageCount) :
    has (image.tables.pageEntry p) Mmu.flagP = true := by
  have hroom := h.room
  have hbase := h.base
  unfold archPageSize at hroom
  obtain ⟨hlow, hhigh⟩ := (mem_pagesOf_iff haligned).mp hmem
  exact BootPaging.boot_present image (by omega) (by omega)

theorem scratchMapBase_val : scratchMapBase = 4290768896 := by decide

theorem quarter_le {first last : ℕ} (h : first ≤ last) :
    first + Sections.quarter first last * 4096 ≤ last := by
  unfold Sections.quarter
  omega

theorem archi586MmuInit_spec (image : Image) (sections : Sections) :
    ∃ m, archi586MmuInit sections image.tables = .ok m ∧ Evolved image m ∧
      ∀ p < 4294967296, m.pageEntry p =
        if sections.Removed p then 0 else image.tables.pageEntry p := by
  have hscratch := scratchMapBase_val
  have htext := sections.textBegin_ge
  have htextRo := sections.textEnd_le
  have hle := sections.text_le
  have hro := sections.ro_le
  have hroTrap := sections.roEnd_le
  have htrap := sections.trap_lt
  have hend := sections.imageEnd_le
  have hendAligned := sections.imageEnd_aligned
  have htrapAligned := sections.trap_aligned
  obtain ⟨count, hcount⟩ : ∃ count, (scratchMapBase - 1 - sections.imageEnd +
      1) / archPageSize = count := ⟨_, rfl⟩
  have hpages : sections.imageEnd + count * 4096 = scratchMapBase := by
    rw [← hcount]
    unfold archPageSize
    omega
  have htrapIn : InKernel sections.stackbottomtrap 1 :=
    ⟨by omega, by unfold archPageSize; omega⟩
  have hvmIn : InKernel sections.imageEnd count :=
    ⟨by omega, by unfold archPageSize; omega⟩
  obtain ⟨m₁, hone, hevolved₁, hrewrites₁⟩ := htrapIn.unmaps htrapAligned
    (Evolved.mk (.refl : image.tables.Rewritten _)) fun p _ hmem =>
      htrapIn.boot_present htrapAligned hmem
  obtain ⟨m₂, htwo, hevolved₂, hrewrites₂⟩ := hvmIn.unmaps hendAligned
    hevolved₁ fun p hp hmem => by
      rw [hrewrites₁.outside p hp]
      · exact hvmIn.boot_present hendAligned hmem
      · rw [mem_pagesOf_iff hendAligned] at hmem
        rw [mem_pagesOf_iff htrapAligned]
        omega
  refine ⟨m₂, ?_, hevolved₂, ?_⟩
  · simp [archi586MmuInit, hone, hcount, htwo, mustSucceed, ok_bind]
  · intro p hp
    by_cases hvm : p / archPageSize ∈ pagesOf sections.imageEnd count
    · have hpage := (mem_pagesOf_iff hendAligned).mp hvm
      rw [hrewrites₂.inside p hp hvm, if_pos]
      unfold Sections.Removed
      omega
    rw [hrewrites₂.outside p hp hvm]
    rw [mem_pagesOf_iff hendAligned] at hvm
    by_cases htrapPage : p / archPageSize ∈ pagesOf sections.stackbottomtrap 1
    · have hpage := (mem_pagesOf_iff htrapAligned).mp htrapPage
      rw [hrewrites₁.inside p hp htrapPage, if_pos]
      unfold Sections.Removed
      omega
    · rw [hrewrites₁.outside p hp htrapPage, if_neg]
      rw [mem_pagesOf_iff htrapAligned] at htrapPage
      unfold Sections.Removed
      omega

theorem protectImage_spec (image : Image) (sections : Sections) :
    ∃ m, protectImage sections image.tables = .ok m ∧ Evolved image m ∧
      ∀ p < 4294967296,
        m.pageEntry p = finalEntry sections (image.tables.pageEntry p) p := by
  have hscratch := scratchMapBase_val
  have htext := sections.textBegin_ge
  have htextRo := sections.textEnd_le
  have hroTrap := sections.roEnd_le
  have htrap := sections.trap_lt
  have hend := sections.imageEnd_le
  have htextAligned := sections.textBegin_aligned
  have hroAligned := sections.roBegin_aligned
  have htextQuarter := quarter_le sections.text_le
  have hroQuarter := quarter_le sections.ro_le
  have hro := sections.ro_le
  have hle := sections.text_le
  have htextIn : InKernel sections.textBegin
      (Sections.quarter sections.textBegin sections.textEnd) :=
    ⟨htext, by unfold archPageSize; omega⟩
  have hroIn : InKernel sections.roBegin
      (Sections.quarter sections.roBegin sections.roEnd) :=
    ⟨by omega, by unfold archPageSize; omega⟩
  obtain ⟨m₁, hinit, hevolved₁, hentries₁⟩ :=
    archi586MmuInit_spec image sections
  obtain ⟨m₂, htwo, hevolved₂, hrewrites₂⟩ := htextIn.remaps htextAligned
    hevolved₁ fun p hp hmem => by
      have hpages := (mem_pagesOf_iff htextAligned).mp hmem
      rw [hentries₁ p hp, if_neg]
      · exact htextIn.boot_present htextAligned hmem
      · unfold Sections.Removed
        omega
  obtain ⟨m₃, hthree, hevolved₃, hrewrites₃⟩ := hroIn.remaps hroAligned
    hevolved₂ fun p hp hmem => by
      have hpages := (mem_pagesOf_iff hroAligned).mp hmem
      rw [hrewrites₂.outside p hp, hentries₁ p hp, if_neg]
      · exact hroIn.boot_present hroAligned hmem
      · unfold Sections.Removed
        omega
      · rw [mem_pagesOf_iff htextAligned]
        omega
  refine ⟨m₃, ?_, hevolved₃, ?_⟩
  · simp [protectImage, hinit, archi586MmuWriteProtectKernelText,
      archMmuWriteProtectAfterEarlyInit, intPointerDiff_pages, htwo, hthree,
      mustSucceed, ok_bind]
  · intro p hp
    unfold finalEntry
    by_cases hroPage : p / archPageSize ∈ pagesOf sections.roBegin
        (Sections.quarter sections.roBegin sections.roEnd)
    · have hpages := (mem_pagesOf_iff hroAligned).mp hroPage
      have hkept : ¬sections.Removed p := by
        unfold Sections.Removed
        omega
      rw [hrewrites₃.inside p hp hroPage, hrewrites₂.outside p hp,
        hentries₁ p hp, if_neg hkept, if_neg hkept,
        if_pos (show sections.Protected p from Or.inr hpages)]
      rw [mem_pagesOf_iff htextAligned]
      omega
    rw [hrewrites₃.outside p hp hroPage]
    by_cases htextPage : p / archPageSize ∈ pagesOf sections.textBegin
        (Sections.quarter sections.textBegin sections.textEnd)
    · have hpages := (mem_pagesOf_iff htextAligned).mp htextPage
      have hkept : ¬sections.Removed p := by
        unfold Sections.Removed
        omega
      rw [hrewrites₂.inside p hp htextPage, hentries₁ p hp, if_neg hkept,
        if_neg hkept, if_pos (show sections.Protected p from Or.inl hpages)]
    · rw [mem_pagesOf_iff hroAligned] at hroPage
      rw [hrewrites₂.outside p hp htextPage, hentries₁ p hp]
      rw [mem_pagesOf_iff htextAligned] at htextPage
      rw [if_neg (show ¬sections.Protected p from
        not_or.mpr ⟨htextPage, hroPage⟩)]

/-! ## The address space -/

theorem passes_protected (entry : Word) (write user : Bool) :
    passes (Mmu.remappedEntry entry Mmu.mapProtRead false) write user =
      (has entry Mmu.flagP && !write && !user) := by
  have hprot : Mmu.hasProt Mmu.mapProtRead Mmu.mapProtWrite = false := by
    decide
  unfold passes
  rw [Mmu.has_flagP_remappedEntry, Mmu.has_flagRw_remappedEntry,
    Mmu.has_flagUs_remappedEntry, hprot]
  simp

theorem protected_in_kernel {sections : Sections} {virt : ℕ}
    (h : sections.Protected virt) :
    0xc0000000 ≤ virt ∧ virt < 0xffc00000 := by
  have hscratch := scratchMapBase_val
  have htext := sections.textBegin_ge
  have hle := sections.text_le
  have htextRo := sections.textEnd_le
  have hro := sections.ro_le
  have hroTrap := sections.roEnd_le
  have htrap := sections.trap_lt
  have hend := sections.imageEnd_le
  have htextQuarter := quarter_le sections.text_le
  have hroQuarter := quarter_le sections.ro_le
  unfold Sections.Protected at h
  omega

theorem walk_protected {memory : Word → Word} {cr3 : Word}
    {sections : Sections} (hshows : Shows memory cr3 m)
    (hevolved : Evolved image m)
    (hentries : ∀ p < 4294967296,
      m.pageEntry p = finalEntry sections (image.tables.pageEntry p) p)
    {virt : ℕ} (hvirt : virt < 4294967296) (write user : Bool) :
    walk memory cr3 virt write user =
      if user || sections.Removed virt || write && sections.Protected virt
      then none else bootTranslation image virt := by
  rw [hshows.walk_eq hvirt, hevolved.pagedir, hentries virt hvirt]
  unfold finalEntry
  by_cases hremoved : sections.Removed virt
  · rw [if_pos hremoved, passes_zero]
    simp [hremoved]
  by_cases hprotected : sections.Protected virt
  · obtain ⟨hlow, hhigh⟩ := protected_in_kernel hprotected
    have hpresent := boot_present image hlow hhigh
    have hboot := tables_translation image hvirt false false
    have hread : passes (image.tables.pageEntry virt) false false = true :=
      (finds_kernel image hlow hhigh).allowed false false
    rw [hread] at hboot
    rw [if_neg hremoved, if_pos hprotected, passes_protected, hpresent,
      Mmu.frameOf_remappedEntry]
    cases user with
    | true => simp
    | false =>
        cases write with
        | true => simp [hprotected]
        | false => simpa [hremoved] using hboot
  · rw [if_neg hremoved, if_neg hprotected,
      tables_translation image hvirt write user]
    simp [hremoved, hprotected]

/-- From the first instruction of the kernel to its write protected image.
Of the code only the first quarter of the pages is write protected. -/
theorem boot_protects {image : Image} (sections : Sections)
    {s : JumpMachine.Machine} (hpc : s.pc = 0)
    (hclear : image.Cleared s.memory) :
    ∃ s' m memory,
      JumpMachine.Runs (archi586Kernelentry image) s s' ∧
      s'.pc = (archi586Kernelentry image).length ∧
      protectImage sections image.tables = .ok m ∧
      WindowStores (s'.control .cr3) s'.memory memory ∧
      (∀ virt < 4294967296, ∀ write user,
        walk memory (s'.control .cr3) virt write user =
          if user || sections.Removed virt ||
            write && sections.Protected virt
          then none else bootTranslation image virt) ∧
      ∀ virt, sections.textBegin ≤ virt → virt < sections.textEnd →
        (walk memory (s'.control .cr3) virt true false = none ↔
          virt < sections.textBegin +
            (sections.textEnd - sections.textBegin) / 16384 * 4096) := by
  obtain ⟨s', hruns, hend, hmemory, hcr3, -⟩ := kernelentry_runs image hpc
  obtain ⟨m, hprotect, hevolved, hentries⟩ := protectImage_spec image sections
  have hshows : Shows s'.memory (s'.control .cr3) image.tables := by
    rw [hmemory, hcr3]
    exact bootMemory_shows hclear
  obtain ⟨memory, hstored, hshows'⟩ := hshows.rewritten hevolved.rewritten
  have hwalk := fun virt (hvirt : virt < 4294967296) write user =>
    walk_protected hshows' hevolved hentries hvirt write user
  refine ⟨s', m, memory, hruns, hend, hprotect, hstored, hwalk, ?_⟩
  intro virt hlow hhigh
  have hscratch := scratchMapBase_val
  have htext := sections.textBegin_ge
  have htextRo := sections.textEnd_le
  have hro := sections.ro_le
  have hroTrap := sections.roEnd_le
  have htrap := sections.trap_lt
  have himage := sections.imageEnd_le
  have hkept : ¬sections.Removed virt := by
    unfold Sections.Removed
    omega
  have hmapped : bootTranslation image virt =
      some (image.physaddrKernelBegin.toNat + (virt - 0xc0000000)) := by
    unfold bootTranslation
    rw [if_neg (by omega), if_neg (by omega), if_pos (by omega)]
  have hquarter : sections.Protected virt ↔ virt < sections.textBegin +
      (sections.textEnd - sections.textBegin) / 16384 * 4096 := by
    unfold Sections.Protected Sections.quarter
    omega
  rw [hwalk virt (by omega), hmapped, ← hquarter]
  by_cases hprotected : sections.Protected virt <;>
    simp [hkept, hprotected]

/-- Eight pages of code. -/
def sampleSections : Sections where
  textBegin := 0xc0000000
  textEnd := 0xc0008000
  roBegin := 0xc0009000
  roEnd := 0xc000a000
  stackbottomtrap := 0xc000b000
  imageEnd := 0xc0010000
  textBegin_ge := by decide
  text_le := by decide
  textEnd_le := by decide
  ro_le := by decide
  roEnd_le := by decide
  trap_lt := by decide
  imageEnd_le := by decide
  textBegin_aligned := by decide
  roBegin_aligned := by decide
  trap_aligned := by decide
  imageEnd_aligned := by decide

/-- The third of the eight pages can still be written. -/
theorem third_text_page_writable : ∃ s' memory,
    JumpMachine.Runs (archi586Kernelentry sampleImage)
      ⟨fun _ => 0, fun _ => 0, false, 0, fun _ => 0⟩ s' ∧
    walk memory (s'.control .cr3) 0xc0001000 true false = none ∧
    walk memory (s'.control .cr3) 0xc0002000 true false =
      some 0x205000 := by
  have hclear : sampleImage.Cleared fun _ => 0 := fun _ _ _ => rfl
  obtain ⟨s', m, memory, hruns, -, -, -, hwalk, -⟩ :=
    boot_protects sampleSections
      (s := ⟨fun _ => 0, fun _ => 0, false, 0, fun _ => 0⟩) rfl hclear
  refine ⟨s', memory, hruns, ?_, ?_⟩
  · rw [hwalk 0xc0001000 (by decide) true false]
    decide
  · rw [hwalk 0xc0002000 (by decide) true false]
    decide

end BootPaging
end Yjkos
