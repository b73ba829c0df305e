import Yjkos.BootPaging
import Yjkos.PageWalk

/-!
# The address space behind the boot code

The entries which `archi586_kernelentry` has written are the tables of
`Image.tables`, and they are what the processor reads once paging is on.
-/

namespace Yjkos
namespace BootPaging

open StackMachine (Word)
open JumpMachine
open Mmu (physWord passes walk frameOf pdeIndex pteIndex)

variable {image : Image} {memory : Word → Word}

/-! ## Entries -/

section Entries

variable {first : Word}

theorem or_pagingFlags {w : Word} (h : w.toNat % 4096 = 0) :
    w ||| pagingFlags = w + 3#32 := by
  have hand : w &&& 3#32 = 0#32 := by
    apply BitVec.eq_of_toNat_eq
    rw [BitVec.toNat_and, show (3#32).toNat = 2 ^ 2 - 1 from rfl,
      Nat.and_two_pow_sub_one_eq_mod]
    simp only [BitVec.toNat_zero]
    omega
  rw [BitVec.add_eq_or_of_and_eq_zero w 3#32 hand]
  rfl

theorem add_frames_mod (h : first.toNat % 4096 = 0) (i : ℕ) :
    (first + 4096#32 * BitVec.ofNat 32 i).toNat % 4096 = 0 := by
  simp only [BitVec.toNat_add, BitVec.toNat_mul, BitVec.toNat_ofNat]
  omega

theorem toNat_add_frames {i : ℕ}
    (hroom : first.toNat + i * 4096 < 4294967296) :
    (first + 4096#32 * BitVec.ofNat 32 i).toNat = first.toNat + i * 4096 := by
  simp only [BitVec.toNat_add, BitVec.toNat_mul, BitVec.toNat_ofNat]
  omega

theorem frameOf_consecutive (h : first.toNat % 4096 = 0) {i : ℕ}
    (hroom : first.toNat + i * 4096 < 4294967296) :
    frameOf (consecutive first i) = first.toNat + i * 4096 := by
  have hmod := add_frames_mod h i
  have hlt := (first + 4096#32 * BitVec.ofNat 32 i).isLt
  rw [Mmu.frameOf_eq, consecutive, or_pagingFlags hmod, BitVec.toNat_add]
  rw [toNat_add_frames hroom] at hmod hlt ⊢
  simp only [BitVec.toNat_ofNat]
  omega

/-- The kernel may read and write, the user may not. -/
theorem passes_consecutive (h : first.toNat % 4096 = 0) (i : ℕ)
    (write user : Bool) :
    passes (consecutive first i) write user = !user := by
  have hmod := add_frames_mod h i
  unfold consecutive
  generalize first + 4096#32 * BitVec.ofNat 32 i = w at hmod ⊢
  have hbit : w[2] = false := by
    simpa using Mmu.getLsbD_aligned hmod (show 2 < 12 by decide)
  unfold passes
  rw [Mmu.has_flagP, Mmu.has_flagRw, Mmu.has_flagUs]
  simp [hbit, pagingFlags, Mmu.flagP, Mmu.flagRw]

/-- The directory is filled by additions to an entry with its flags. -/
theorem linked_eq (h : first.toNat % 4096 = 0) (i : ℕ) :
    linked (first ||| pagingFlags) i = consecutive first i := by
  rw [consecutive, or_pagingFlags (add_frames_mod h i), linked,
    or_pagingFlags h]
  ac_rfl

end Entries

/-! ## The tables in memory -/

def bootPagedir (image : Image) (pde : ℕ) : Word :=
  if pde = 0 then consecutive image.lower2mpagetable 0
  else if pde = Mmu.pagedirPde then consecutive image.pagedir 0
  else if kernelPdeStart ≤ pde then
    consecutive image.kernelpagetable (pde - kernelPdeStart)
  else 0

/-- The tables as the kernel finds them. -/
def Image.tables (image : Image) : Mmu.Tables where
  pagedir := bootPagedir image
  pagetables pde pte :=
    if pde = 0 then consecutive 0 pte
    else consecutive image.physaddrKernelBegin
      ((pde - kernelPdeStart) * Mmu.entryCount + pte)
  invalidated := []

/-- The loader has cleared the slots which the code leaves alone. -/
def Image.Cleared (image : Image) (memory : Word → Word) : Prop :=
  ∀ pde, 0 < pde → pde < kernelPdeStart →
    physWord memory (image.pagedir.toNat + pde * 4) = 0

theorem ofNat_slot (table : Word) (i : ℕ) :
    BitVec.ofNat 32 (table.toNat + i * 4) =
      table + 4#32 * BitVec.ofNat 32 i := by
  bv_omega

theorem lower_slot (i : ℕ) :
    image.lower2mpagetable + 4#32 * BitVec.ofNat 32 i =
      image.pagedir + 4#32 * BitVec.ofNat 32 (1024 + i) := by
  unfold Image.lower2mpagetable
  bv_omega

theorem kernel_slot (i : ℕ) :
    image.kernelpagetable + 4#32 * BitVec.ofNat 32 i =
      image.pagedir + 4#32 * BitVec.ofNat 32 (2048 + i) := by
  unfold Image.kernelpagetable
  bv_omega

theorem zero_slot (table : Word) :
    table = table + 4#32 * BitVec.ofNat 32 0 := by
  simp

theorem slot_ne {table : Word} {i j : ℕ} (hi : i < 1073741824)
    (hj : j < 1073741824) (hne : i ≠ j) :
    table + 4#32 * BitVec.ofNat 32 i ≠ table + 4#32 * BitVec.ofNat 32 j :=
  fun h => hne (slot_inj hi hj h)

theorem bootMemory_behind {n : ℕ} (hn : 1024 ≤ n) (hlt : n < 1073741824) :
    bootMemory image memory (image.pagedir + 4#32 * BitVec.ofNat 32 n) =
      filled
        (filled memory image.lower2mpagetable (consecutive 0) Mmu.entryCount)
        image.kernelpagetable (consecutive image.physaddrKernelBegin)
        (kernelPdeCount * Mmu.entryCount)
        (image.pagedir + 4#32 * BitVec.ofNat 32 n) := by
  unfold bootMemory
  rw [Function.update_of_ne, filled_outside, Function.update_of_ne]
  · nth_rewrite 2 [zero_slot image.pagedir]
    exact slot_ne hlt (by decide) (by omega)
  · intro i hi
    rw [← slot_add]
    apply slot_ne hlt
    · unfold kernelPdeStart
      have := hi
      unfold kernelPdeCount Mmu.entryCount kernelPdeStart at this
      omega
    · unfold kernelPdeCount Mmu.entryCount kernelPdeStart at *
      omega
  · exact slot_ne hlt (by decide) (by
      unfold Mmu.pagedirPde Mmu.entryCount
      omega)

theorem bootMemory_low {pte : ℕ} (hpte : pte < 1024) :
    bootMemory image memory
      (image.lower2mpagetable + 4#32 * BitVec.ofNat 32 pte) =
      consecutive 0 pte := by
  rw [lower_slot, bootMemory_behind (by omega) (by omega), ← lower_slot,
    filled_outside,
    filled_at (by decide) (show pte < Mmu.entryCount from hpte)]
  intro i hi
  unfold kernelPdeCount Mmu.entryCount kernelPdeStart at hi
  rw [lower_slot, kernel_slot]
  exact slot_ne (by omega) (by omega) (by omega)

theorem bootMemory_kernel {i : ℕ} (hi : i < kernelPdeCount * Mmu.entryCount) :
    bootMemory image memory
      (image.kernelpagetable + 4#32 * BitVec.ofNat 32 i) =
      consecutive image.physaddrKernelBegin i := by
  have hlt := hi
  unfold kernelPdeCount Mmu.entryCount kernelPdeStart at hlt
  rw [kernel_slot, bootMemory_behind (by omega) (by omega), ← kernel_slot,
    filled_at (by decide) hi]

theorem lower2mpagetable_toNat (image : Image) :
    image.lower2mpagetable.toNat = image.pagedir.toNat + 4096 := by
  have hfit := image.tables_fit
  unfold Image.lower2mpagetable
  rw [BitVec.toNat_add]
  change (image.pagedir.toNat + 4096) % 4294967296 = _
  omega

theorem kernelpagetable_toNat (image : Image) :
    image.kernelpagetable.toNat = image.pagedir.toNat + 8192 := by
  have hfit := image.tables_fit
  unfold Image.kernelpagetable
  rw [BitVec.toNat_add]
  change (image.pagedir.toNat + 8192) % 4294967296 = _
  omega

theorem bootMemory_pagedir (hclear : image.Cleared memory) {pde : ℕ}
    (hpde : pde < 1024) :
    bootMemory image memory (image.pagedir + 4#32 * BitVec.ofNat 32 pde) =
      bootPagedir image pde := by
  have haligned := image.pagedir_aligned
  have hkernel := kernelpagetable_toNat image
  have hself : ∀ w : Word, consecutive w 0 = w ||| pagingFlags := by
    intro w
    simp [consecutive]
  unfold bootMemory bootPagedir
  by_cases hlast : pde = Mmu.pagedirPde
  · subst hlast
    rw [Function.update_self, if_neg (by decide), if_pos rfl, hself]
  rw [Function.update_of_ne (slot_ne (by omega) (by decide) hlast),
    if_neg hlast]
  by_cases hkernelSlot : kernelPdeStart ≤ pde
  · -- the loop over the slots of the kernel
    obtain ⟨i, rfl⟩ := Nat.exists_eq_add_of_le hkernelSlot
    rw [if_neg (by unfold kernelPdeStart; omega), if_pos hkernelSlot,
      slot_add, filled_at (by decide), linked_eq (by omega),
      Nat.add_sub_cancel_left]
    unfold kernelPdeCount Mmu.entryCount kernelPdeStart at *
    omega
  rw [if_neg hkernelSlot, filled_outside]
  · by_cases hzero : pde = 0
    · rw [hzero, ← zero_slot, Function.update_self, if_pos rfl, hself]
    · rw [if_neg hzero, Function.update_of_ne, filled_outside, filled_outside,
        ← ofNat_slot]
      · exact hclear pde (Nat.pos_of_ne_zero hzero) (not_le.mp hkernelSlot)
      · intro i hi
        unfold Mmu.entryCount at hi
        rw [lower_slot]
        exact slot_ne (by omega) (by omega) (by omega)
      · intro i hi
        unfold kernelPdeCount Mmu.entryCount kernelPdeStart at hi
        rw [kernel_slot]
        exact slot_ne (by omega) (by omega) (by omega)
      · nth_rewrite 2 [zero_slot image.pagedir]
        exact slot_ne (by omega) (by decide) hzero
  · intro i hi
    unfold kernelPdeCount Mmu.entryCount kernelPdeStart at *
    rw [← slot_add]
    exact slot_ne (by omega) (by omega) (by omega)

/-! ## What the kernel sees -/

def Image.tableFrame (image : Image) (pde : ℕ) : ℕ :=
  if pde = 0 then image.pagedir.toNat + 4096
  else if pde = Mmu.pagedirPde then image.pagedir.toNat
  else image.pagedir.toNat + 8192 + (pde - kernelPdeStart) * 4096

def UsedSlot (pde : ℕ) : Prop := pde = 0 ∨ kernelPdeStart ≤ pde

instance : DecidablePred UsedSlot :=
  fun _ => inferInstanceAs (Decidable (_ ∨ _))

theorem bootPagedir_unused {pde : ℕ} (hunused : ¬UsedSlot pde) :
    bootPagedir image pde = 0 := by
  unfold UsedSlot at hunused
  unfold bootPagedir
  rw [if_neg (by omega), if_neg, if_neg (by omega)]
  unfold Mmu.pagedirPde Mmu.entryCount kernelPdeStart at *
  omega

theorem bootPagedir_used (image : Image) {pde : ℕ} (hpde : pde < 1024)
    (hused : UsedSlot pde) :
    frameOf (bootPagedir image pde) = image.tableFrame pde ∧
      ∀ write user, passes (bootPagedir image pde) write user = !user := by
  have haligned := image.pagedir_aligned
  have hfit := image.tables_fit
  have hlow := lower2mpagetable_toNat image
  have hkernel := kernelpagetable_toNat image
  unfold UsedSlot kernelPdeStart at hused
  unfold bootPagedir Image.tableFrame
  split_ifs with hzero hself hslot
  · refine ⟨?_, passes_consecutive (by omega) 0⟩
    rw [frameOf_consecutive (by omega) (by omega), hlow]
  · refine ⟨?_, passes_consecutive (by omega) 0⟩
    rw [frameOf_consecutive (by omega) (by omega)]
    omega
  · unfold kernelPdeStart Mmu.pagedirPde Mmu.entryCount at *
    refine ⟨?_, passes_consecutive (by omega) _⟩
    rw [frameOf_consecutive (by omega) (by omega), hkernel]
  · unfold kernelPdeStart at hslot
    omega

theorem used_of_present {pde : ℕ}
    (hpresent : Mmu.has (bootPagedir image pde) Mmu.flagP = true) :
    UsedSlot pde := by
  by_contra hunused
  rw [bootPagedir_unused hunused] at hpresent
  exact absurd hpresent (by decide)

theorem tableFrame_inj {i j : ℕ} (hi : UsedSlot i) (hj : UsedSlot j)
    (hi' : i < 1024) (hj' : j < 1024)
    (h : image.tableFrame i = image.tableFrame j) : i = j := by
  unfold UsedSlot kernelPdeStart at hi hj
  unfold Image.tableFrame Mmu.pagedirPde Mmu.entryCount kernelPdeStart at h
  split_ifs at h <;> omega

/-- The directory and the tables stand in memory. -/
theorem bootMemory_shows (hclear : image.Cleared memory) :
    Mmu.Shows (bootMemory image memory) image.pagedir image.tables := by
  have haligned := image.pagedir_aligned
  have hcr3 : frameOf image.pagedir = image.pagedir.toNat := by
    rw [Mmu.frameOf_eq]
    omega
  constructor
  · intro i hi
    unfold Mmu.pdeAddress physWord
    rw [hcr3, ofNat_slot, bootMemory_pagedir hclear hi]
    rfl
  · intro pde hpde hslot hpresent pte hpte
    have hused := used_of_present hpresent
    show (if pde = 0 then consecutive 0 pte else _) =
      physWord _ (frameOf (bootPagedir image pde) + pte * 4)
    rw [(bootPagedir_used image hpde hused).1]
    unfold physWord Image.tableFrame
    by_cases hzero : pde = 0
    · rw [if_pos hzero, if_pos hzero, ← lower2mpagetable_toNat, ofNat_slot,
        bootMemory_low hpte]
    · have hstart : 768 ≤ pde := hused.resolve_left hzero
      have hindex : image.pagedir.toNat + 8192 +
          (pde - kernelPdeStart) * 4096 + pte * 4 =
          image.kernelpagetable.toNat +
            ((pde - kernelPdeStart) * Mmu.entryCount + pte) * 4 := by
        rw [kernelpagetable_toNat]
        unfold Mmu.entryCount
        omega
      rw [if_neg hzero, if_neg hzero, if_neg hslot, hindex, ofNat_slot,
        bootMemory_kernel]
      unfold kernelPdeCount Mmu.pagedirPde Mmu.entryCount kernelPdeStart at *
      omega
  · obtain ⟨hframe, hpasses⟩ := bootPagedir_used image
      (show Mmu.pagedirPde < 1024 by decide) (by decide)
    refine ⟨?_, hpasses true false⟩
    show frameOf (bootPagedir image Mmu.pagedirPde) = _
    rw [hframe, hcr3]
    rfl
  · intro i hi j hj hpi hpj hframe
    have husedi := used_of_present hpi
    have husedj := used_of_present hpj
    apply tableFrame_inj husedi husedj hi hj
    rw [← (bootPagedir_used image hi husedi).1,
      ← (bootPagedir_used image hj husedj).1]
    exact hframe
  · intro i hi hpresent
    have hpasses := (bootPagedir_used image hi
      (used_of_present hpresent)).2 true false
    unfold passes at hpasses
    simp only [Bool.not_true, Bool.false_or, Bool.not_false, Bool.true_or,
      Bool.and_true, Bool.and_eq_true] at hpasses
    exact hpasses.2

/-! ## Translations -/

/-- The lowest 4 MiB stand at their own addresses, the kernel at
`0xc0000000`, the tables at `0xffc00000`. -/
def bootTranslation (image : Image) (virt : ℕ) : Option ℕ :=
  if virt < 0x400000 then some virt
  else if virt < 0xc0000000 then none
  else if virt < 0xffc00000 then
    some (image.physaddrKernelBegin.toNat + (virt - 0xc0000000))
  else
    let pde := (virt - 0xffc00000) / 4096
    if UsedSlot pde then some (image.tableFrame pde + virt % 4096) else none

theorem passes_zero (write user : Bool) :
    passes (0 : Word) write user = false := by
  unfold passes
  rw [Mmu.has_flagP]
  simp

theorem pageEntry_window {virt : ℕ} (hlow : 0xffc00000 ≤ virt)
    (hvirt : virt < 4294967296) :
    image.tables.pageEntry virt =
      bootPagedir image ((virt - 0xffc00000) / 4096) := by
  have hpde := Mmu.pdeIndex_eq hvirt
  have hpte := Mmu.pteIndex_eq virt
  have hslot : pdeIndex virt = Mmu.pagedirPde := by
    unfold Mmu.pagedirPde Mmu.entryCount
    omega
  unfold Mmu.Tables.pageEntry Mmu.Tables.entry
  rw [if_pos hslot, show pteIndex virt = (virt - 0xffc00000) / 4096 by omega]
  rfl

/-- The page is found at `phys`, for every access of the kernel. -/
structure Image.Finds (image : Image) (virt phys : ℕ) : Prop where
  frame : frameOf (image.tables.pageEntry virt) + virt % 4096 = phys
  allowed : ∀ write user,
    passes (image.tables.pageEntry virt) write user = !user

theorem finds_low (image : Image) {virt : ℕ} (hlow : virt < 0x400000) :
    image.Finds virt virt := by
  have hpde : pdeIndex virt = virt / 4194304 := Mmu.pdeIndex_eq (by omega)
  have hpte := Mmu.pteIndex_eq virt
  have hentry : image.tables.pageEntry virt =
      consecutive 0 (pteIndex virt) := by
    unfold Mmu.Tables.pageEntry Mmu.Tables.entry
    rw [show pdeIndex virt = 0 by omega, if_neg (by decide)]
    rfl
  constructor
  · rw [hentry, frameOf_consecutive rfl]
    · change 0 + pteIndex virt * 4096 + virt % 4096 = virt
      omega
    · change 0 + pteIndex virt * 4096 < 4294967296
      omega
  · rw [hentry]
    exact passes_consecutive rfl _

theorem finds_kernel (image : Image) {virt : ℕ} (hlow : 0xc0000000 ≤ virt)
    (hhigh : virt < 0xffc00000) :
    image.Finds virt
      (image.physaddrKernelBegin.toNat + (virt - 0xc0000000)) := by
  have hpde : pdeIndex virt = virt / 4194304 := Mmu.pdeIndex_eq (by omega)
  have hpte := Mmu.pteIndex_eq virt
  have hfits := image.kernel_fits
  have hslot : pdeIndex virt ≠ Mmu.pagedirPde := by
    unfold Mmu.pagedirPde Mmu.entryCount
    omega
  have hentry : image.tables.pageEntry virt =
      consecutive image.physaddrKernelBegin
        ((pdeIndex virt - kernelPdeStart) * Mmu.entryCount +
          pteIndex virt) := by
    unfold Mmu.Tables.pageEntry Mmu.Tables.entry
    rw [if_neg hslot]
    exact if_neg (by omega)
  unfold kernelPdeStart Mmu.entryCount at hentry
  constructor
  · rw [hentry, frameOf_consecutive image.kernel_aligned]
    · omega
    · omega
  · rw [hentry]
    exact passes_consecutive image.kernel_aligned _

/-- In the window the entries are those of the directory. -/
theorem finds_window (image : Image) {virt : ℕ} (hlow : 0xffc00000 ≤ virt)
    (hvirt : virt < 4294967296)
    (hused : UsedSlot ((virt - 0xffc00000) / 4096)) :
    image.Finds virt
      (image.tableFrame ((virt - 0xffc00000) / 4096) + virt % 4096) := by
  obtain ⟨hframe, hpasses⟩ := bootPagedir_used image
    (show (virt - 0xffc00000) / 4096 < 1024 by omega) hused
  constructor
  · rw [pageEntry_window hlow hvirt, hframe]
  · rw [pageEntry_window hlow hvirt]
    exact hpasses

theorem Image.Finds.translation {virt phys : ℕ} (h : image.Finds virt phys)
    (hvirt : virt < 4294967296) (hused : UsedSlot (pdeIndex virt))
    (write user : Bool) :
    (if passes (image.tables.pagedir (pdeIndex virt)) write user &&
        passes (image.tables.pageEntry virt) write user then
      some (frameOf (image.tables.pageEntry virt) + virt % 4096)
    else none) = if user then none else some phys := by
  have hpde := Mmu.pdeIndex_eq hvirt
  have hpasses : passes (image.tables.pagedir (pdeIndex virt)) write user =
      !user :=
    (bootPagedir_used image (by omega) hused).2 write user
  rw [hpasses, h.allowed, h.frame]
  cases user <;> rfl

/-- Both entries of an address, taken together. -/
theorem tables_translation (image : Image) {virt : ℕ}
    (hvirt : virt < 4294967296) (write user : Bool) :
    (if passes (image.tables.pagedir (pdeIndex virt)) write user &&
        passes (image.tables.pageEntry virt) write user then
      some (frameOf (image.tables.pageEntry virt) + virt % 4096)
    else none) = if user then none else bootTranslation image virt := by
  have hpde := Mmu.pdeIndex_eq hvirt
  have hslot : UsedSlot (pdeIndex virt) ↔
      virt < 0x400000 ∨ 0xc0000000 ≤ virt := by
    unfold UsedSlot kernelPdeStart
    omega
  unfold bootTranslation
  by_cases hlow : virt < 0x400000
  · rw [if_pos hlow]
    exact (finds_low image hlow).translation hvirt
      (hslot.mpr (Or.inl hlow)) write user
  rw [if_neg hlow]
  by_cases hunused : virt < 0xc0000000
  · rw [if_pos hunused]
    have hentry : image.tables.pagedir (pdeIndex virt) = 0 :=
      bootPagedir_unused fun hused => by
        rw [hslot] at hused
        omega
    rw [hentry, passes_zero]
    cases user <;> rfl
  have hused := hslot.mpr (Or.inr (not_lt.mp hunused))
  rw [if_neg hunused]
  by_cases hkernel : virt < 0xffc00000
  · rw [if_pos hkernel]
    exact (finds_kernel image (not_lt.mp hunused) hkernel).translation hvirt
      hused write user
  rw [if_neg hkernel]
  have hwindow := not_lt.mp hkernel
  by_cases htable : UsedSlot ((virt - 0xffc00000) / 4096)
  · dsimp only
    rw [if_pos htable]
    exact (finds_window image hwindow hvirt htable).translation hvirt hused
      write user
  · dsimp only
    rw [if_neg htable, pageEntry_window hwindow hvirt,
      bootPagedir_unused htable, passes_zero]
    cases user <;> simp

/-- The code runs to its end, and the processor then finds every address
where `bootTranslation` says, for reads and writes of the kernel only. -/
theorem kernelentry_maps {s : Machine} (hpc : s.pc = 0)
    (hclear : image.Cleared s.memory) :
    ∃ s', Runs (archi586Kernelentry image) s s' ∧
      s'.pc = (archi586Kernelentry image).length ∧
      s'.control .cr0 = s.control .cr0 ||| 0x80010000#32 ∧
      Mmu.Shows s'.memory (s'.control .cr3) image.tables ∧
      ∀ virt < 4294967296, ∀ write user,
        walk s'.memory (s'.control .cr3) virt write user =
          if user then none else bootTranslation image virt := by
  obtain ⟨s', hruns, hend, hmemory, hcr3, hcr0⟩ := kernelentry_runs image hpc
  refine ⟨s', hruns, hend, hcr0, ?_, ?_⟩
  · rw [hmemory, hcr3]
    exact bootMemory_shows hclear
  · intro virt hvirt write user
    rw [hmemory, hcr3, (bootMemory_shows hclear).walk_eq hvirt]
    exact tables_translation image hvirt write user

/-- One page of code at 1 MiB, then the early stack and the tables, and the
rest of the kernel behind them. -/
def sampleImage : Image where
  earlystacktop := 0x102000#32
  pagedir := 0x102000#32
  physaddrKernelBegin := 0x203000#32
  pagedir_aligned := by decide
  tables_fit := by decide
  kernel_aligned := by decide
  kernel_fits := by decide

/-- Writes to the second page of the kernel end behind the first one. -/
theorem second_kernel_page : ∃ s',
    Runs (archi586Kernelentry sampleImage)
      ⟨fun _ => 0, fun _ => 0, false, 0, fun _ => 0⟩ s' ∧
    walk s'.memory (s'.control .cr3) 0xc0001234 true false =
      some 0x204234 := by
  have hclear : sampleImage.Cleared fun _ => 0 := fun _ _ _ => rfl
  obtain ⟨s', hruns, -, -, -, hwalk⟩ := kernelentry_maps
    (s := ⟨fun _ => 0, fun _ => 0, false, 0, fun _ => 0⟩) rfl hclear
  refine ⟨s', hruns, ?_⟩
  rw [hwalk 0xc0001234 (by decide) true false]
  rfl

end BootPaging
end Yjkos
