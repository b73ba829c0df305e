import Yjkos.JumpMachine
import Yjkos.MmuMap

/-!
# The page tables of the boot code

`archi586_kernelentry` of `asm/entry.S` up to the write of `%cr0` which turns
paging on.  The code fills a table for the low addresses, the tables of the
kernel and the page directory, whose last slot shows the directory itself.
-/

namespace Yjkos
namespace BootPaging

open StackMachine (Word Reg)
open JumpMachine

/-! ## The code -/

/-- What the linker decides.  The three tables stand one behind the other in
`.bss.init`. -/
structure Image where
  earlystacktop : Word
  pagedir : Word
  physaddrKernelBegin : Word
  pagedir_aligned : pagedir.toNat % 4096 = 0
  tables_fit : pagedir.toNat + 257 * 4096 ≤ 4294967296
  kernel_aligned : physaddrKernelBegin.toNat % 4096 = 0
  kernel_fits : physaddrKernelBegin.toNat + 255 * 4194304 ≤ 4294967296

namespace Image

def lower2mpagetable (image : Image) : Word := image.pagedir + 4096

def kernelpagetable (image : Image) : Word := image.pagedir + 8192

end Image

def pagingFlags : Word := Mmu.flagP ||| Mmu.flagRw

def kernelPdeStart : ℕ := 768

def kernelPdeCount : ℕ := Mmu.entryCount - kernelPdeStart - 1

/-- The loops which fill a page table; `place` is the label `10`. -/
def fillTable (table : Word) (count : ℕ) (place : ℕ) : List Instr :=
  [.mov .esi .ecx,
    .orImm pagingFlags .ecx,
    .storeIndexed .ecx table .edi,
    .addImm 4096 .esi,
    .inc .edi,
    .cmpImm (BitVec.ofNat 32 count) .edi,
    .jne place]

/-- The loop which fills the slots of the kernel in the page directory. -/
def fillDirectory (table : Word) (place : ℕ) : List Instr :=
  [.storeIndexed .ecx table .edi,
    .addImm 4096 .ecx,
    .inc .edi,
    .cmpImm (BitVec.ofNat 32 Mmu.entryCount) .edi,
    .jne place]

def archi586Kernelentry (image : Image) : List Instr :=
  [.movImm image.earlystacktop .esp,
    .movImm 0 .esi,
    .xor .edi .edi] ++
  fillTable image.lower2mpagetable Mmu.entryCount 3 ++
  [.movImm image.physaddrKernelBegin .esi,
    .xor .edi .edi] ++
  fillTable image.kernelpagetable (kernelPdeCount * Mmu.entryCount) 12 ++
  [.movImm 0 .edi,
    .movImm image.lower2mpagetable .ecx,
    .orImm pagingFlags .ecx,
    .storeIndexed .ecx image.pagedir .edi,
    .movImm (BitVec.ofNat 32 kernelPdeStart) .edi,
    .movImm image.kernelpagetable .ecx,
    .orImm pagingFlags .ecx] ++
  fillDirectory image.pagedir 26 ++
  [.movImm (BitVec.ofNat 32 Mmu.pagedirPde) .edi,
    .movImm image.pagedir .ecx,
    .orImm pagingFlags .ecx,
    .storeIndexed .ecx image.pagedir .edi,
    .movImm image.pagedir .esi,
    .toControl .esi .cr3,
    .fromControl .cr0 .esi,
    .orImm 0x80010000 .esi,
    .toControl .esi .cr0]

/-! ## The loops -/

def consecutive (first : Word) (i : ℕ) : Word :=
  (first + 4096#32 * BitVec.ofNat 32 i) ||| pagingFlags

/-- The state at the label after `i` turns. -/
structure AtLabel (s : Machine) (place : ℕ) (counter : Reg) (first : Word)
    (index : ℕ) (memory : Word → Word) (control : Control → Word) (i : ℕ) :
    Prop where
  pc : s.pc = place
  counter : s.registers counter = first + 4096#32 * BitVec.ofNat 32 i
  index : s.registers .edi = BitVec.ofNat 32 (index + i)
  memory : s.memory = memory
  control : s.control = control

structure Behind (s : Machine) (place : ℕ) (memory : Word → Word)
    (control : Control → Word) : Prop where
  pc : s.pc = place
  memory : s.memory = memory
  control : s.control = control

theorem next_frame (first : Word) (i : ℕ) :
    first + 4096#32 * BitVec.ofNat 32 i + 4096#32 =
      first + 4096#32 * BitVec.ofNat 32 (i + 1) := by
  bv_omega

theorem ofNat_succ (i : ℕ) :
    BitVec.ofNat 32 i + 1#32 = BitVec.ofNat 32 (i + 1) := by
  bv_omega

section Loops

variable {program : List Instr} {place : ℕ} {table first : Word}
  {memory : Word → Word} {control : Control → Word}

theorem exec_fillTable (count : ℕ) {i : ℕ} {s : Machine}
    (hs : AtLabel s place .esi first 0
      (filled memory table (consecutive first) i) control i) :
    let s' := exec s ((fillTable table count place).take 6)
    s'.registers .esi = first + 4096#32 * BitVec.ofNat 32 (i + 1) ∧
      s'.registers .edi = BitVec.ofNat 32 (i + 1) ∧
      s'.zero = decide (BitVec.ofNat 32 (i + 1) = BitVec.ofNat 32 count) ∧
      s'.memory = filled memory table (consecutive first) (i + 1) ∧
      s'.control = control := by
  obtain ⟨-, hesi, hedi, hmemory, hcontrol⟩ := hs
  rw [Nat.zero_add] at hedi
  simp [exec, fillTable, Machine.perform, Machine.set, Machine.compute,
    hesi, hedi, hmemory, hcontrol, next_frame, ofNat_succ, filled,
    consecutive]

theorem fillTable_turn {count i : ℕ} {s : Machine}
    (hcode : CodeAt program place (fillTable table count place))
    (hs : AtLabel s place .esi first 0
      (filled memory table (consecutive first) i) control i)
    (hcount : count < 4294967296) (hi : i < count) :
    ∃ s', Runs program s s' ∧
      (i + 1 < count → AtLabel s' place .esi first 0
        (filled memory table (consecutive first) (i + 1)) control (i + 1)) ∧
      (i + 1 = count → Behind s' (place + 7)
        (filled memory table (consecutive first) count) control) := by
  obtain ⟨hesi, hedi, hzero, hmemory, hcontrol⟩ :=
    exec_fillTable count hs
  have hpc := hs.pc
  subst hpc
  refine ⟨_, runs_turn ((fillTable table count s.pc).take 6) hcode rfl,
    ?_, ?_⟩
  · intro hlt
    have hne : ¬BitVec.ofNat 32 (i + 1) = BitVec.ofNat 32 count := by
      bv_omega
    rw [decide_eq_false hne] at hzero
    rw [hzero]
    exact ⟨rfl, hesi, by rw [Nat.zero_add]; exact hedi, hmemory, hcontrol⟩
  · rintro rfl
    rw [decide_eq_true rfl] at hzero
    rw [hzero]
    exact ⟨rfl, hmemory, hcontrol⟩

theorem fillTable_runs {count : ℕ} {s : Machine}
    (hcode : CodeAt program place (fillTable table count place))
    (hs : AtLabel s place .esi first 0 memory control 0)
    (hpos : 0 < count) (hcount : count < 4294967296) :
    ∃ s', Runs program s s' ∧ Behind s' (place + 7)
      (filled memory table (consecutive first) count) control := by
  apply runs_counted (n := count) (fun i s =>
    AtLabel s place .esi first 0
      (filled memory table (consecutive first) i) control i)
  · intro i hi s hs
    obtain ⟨s', hruns, hnext, -⟩ :=
      fillTable_turn hcode hs hcount (Nat.lt_of_succ_lt hi)
    exact ⟨s', hruns, hnext hi⟩
  · intro i hi s hs
    obtain ⟨s', hruns, -, hend⟩ := fillTable_turn hcode hs hcount (by omega)
    exact ⟨s', hruns, hend hi⟩
  · exact hpos
  · exact hs

def linked (first : Word) (i : ℕ) : Word :=
  first + 4096#32 * BitVec.ofNat 32 i

theorem slot_add (table : Word) (start i : ℕ) :
    table + 4#32 * BitVec.ofNat 32 (start + i) =
      table + 4#32 * BitVec.ofNat 32 start + 4#32 * BitVec.ofNat 32 i := by
  bv_omega

theorem exec_fillDirectory {start i : ℕ} {s : Machine}
    (hs : AtLabel s place .ecx first start
      (filled memory (table + 4#32 * BitVec.ofNat 32 start) (linked first) i)
      control i) :
    let s' := exec s ((fillDirectory table place).take 4)
    s'.registers .ecx = first + 4096#32 * BitVec.ofNat 32 (i + 1) ∧
      s'.registers .edi = BitVec.ofNat 32 (start + i + 1) ∧
      s'.zero = decide (BitVec.ofNat 32 (start + i + 1) =
        BitVec.ofNat 32 Mmu.entryCount) ∧
      s'.memory = filled memory (table + 4#32 * BitVec.ofNat 32 start)
        (linked first) (i + 1) ∧
      s'.control = control := by
  obtain ⟨-, hecx, hedi, hmemory, hcontrol⟩ := hs
  simp [exec, fillDirectory, Machine.perform, Machine.set, Machine.compute,
    hecx, hedi, hmemory, hcontrol, next_frame, ofNat_succ, filled, linked,
    slot_add]

theorem fillDirectory_turn {start i : ℕ} {s : Machine}
    (hcode : CodeAt program place (fillDirectory table place))
    (hs : AtLabel s place .ecx first start
      (filled memory (table + 4#32 * BitVec.ofNat 32 start) (linked first) i)
      control i) :
    ∃ s', Runs program s s' ∧
      (start + i + 1 < Mmu.entryCount → AtLabel s' place .ecx first start
        (filled memory (table + 4#32 * BitVec.ofNat 32 start) (linked first)
          (i + 1)) control (i + 1)) ∧
      (start + i + 1 = Mmu.entryCount → Behind s' (place + 5)
        (filled memory (table + 4#32 * BitVec.ofNat 32 start) (linked first)
          (i + 1)) control) := by
  obtain ⟨hecx, hedi, hzero, hmemory, hcontrol⟩ := exec_fillDirectory hs
  have hpc := hs.pc
  subst hpc
  refine ⟨_, runs_turn ((fillDirectory table s.pc).take 4) hcode rfl,
    ?_, ?_⟩
  · intro hlt
    have hne : ¬BitVec.ofNat 32 (start + i + 1) =
        BitVec.ofNat 32 Mmu.entryCount := by
      unfold Mmu.entryCount at hlt ⊢
      bv_omega
    rw [decide_eq_false hne] at hzero
    rw [hzero]
    exact ⟨rfl, hecx, hedi, hmemory, hcontrol⟩
  · intro heq
    rw [heq, decide_eq_true rfl] at hzero
    rw [hzero]
    exact ⟨rfl, hmemory, hcontrol⟩

theorem fillDirectory_runs {start : ℕ} (count : ℕ) {s : Machine}
    (hcode : CodeAt program place (fillDirectory table place))
    (hs : AtLabel s place .ecx first start memory control 0)
    (hpos : 0 < count) (hend : start + count = Mmu.entryCount) :
    ∃ s', Runs program s s' ∧ Behind s' (place + 5)
      (filled memory (table + 4#32 * BitVec.ofNat 32 start) (linked first)
        count) control := by
  apply runs_counted (n := count) (fun i s =>
    AtLabel s place .ecx first start
      (filled memory (table + 4#32 * BitVec.ofNat 32 start) (linked first) i)
      control i)
  · intro i hi s hs
    obtain ⟨s', hruns, hnext, -⟩ := fillDirectory_turn hcode hs
    exact ⟨s', hruns, hnext (by omega)⟩
  · intro i hi s hs
    obtain ⟨s', hruns, -, hexit⟩ := fillDirectory_turn hcode hs
    subst hi
    exact ⟨s', hruns, hexit (by omega)⟩
  · exact hpos
  · exact hs

end Loops

/-! ## The whole code -/

def bootMemory (image : Image) (memory : Word → Word) : Word → Word :=
  let low := filled memory image.lower2mpagetable (consecutive 0)
    Mmu.entryCount
  let kernel := filled low image.kernelpagetable
    (consecutive image.physaddrKernelBegin) (kernelPdeCount * Mmu.entryCount)
  let first := Function.update kernel image.pagedir
    (image.lower2mpagetable ||| pagingFlags)
  let directory := filled first
    (image.pagedir + 4#32 * BitVec.ofNat 32 kernelPdeStart)
    (linked (image.kernelpagetable ||| pagingFlags)) (kernelPdeCount + 1)
  Function.update directory
    (image.pagedir + 4#32 * BitVec.ofNat 32 Mmu.pagedirPde)
    (image.pagedir ||| pagingFlags)

theorem codeAt_slice (image : Image) (start stop : ℕ) (code : List Instr)
    (hcode : archi586Kernelentry image =
      (archi586Kernelentry image).take start ++ code ++
        (archi586Kernelentry image).drop stop)
    (hstart : start ≤ 40) : CodeAt (archi586Kernelentry image) start code := by
  refine ⟨_, _, hcode, ?_⟩
  rw [List.length_take]
  exact Nat.min_eq_left hstart

section Phases

variable (image : Image) {s : Machine} {memory : Word → Word}
  {control : Control → Word}

theorem enters_low (hpc : s.pc = 0) :
    ∃ s', Runs (archi586Kernelentry image) s s' ∧
      AtLabel s' 3 .esi 0 0 s.memory s.control 0 := by
  have hcode := codeAt_slice image 0 3
    ([.movImm image.earlystacktop .esp, .movImm 0 .esi,
      .xor .edi .edi]) rfl (by decide)
  refine ⟨_, runs_block (hpc ▸ hcode) rfl, ?_⟩
  constructor
  · rw [hpc]
    rfl
  · rfl
  · simp [exec, Machine.perform, Machine.compute, Machine.set]
  · rfl
  · rfl

theorem enters_kernel (hs : Behind s 10 memory control) :
    ∃ s', Runs (archi586Kernelentry image) s s' ∧
      AtLabel s' 12 .esi image.physaddrKernelBegin 0 memory control 0 := by
  have hcode := codeAt_slice image 10 12
    ([.movImm image.physaddrKernelBegin .esi, .xor .edi .edi])
    rfl (by decide)
  refine ⟨_, runs_block (hs.pc ▸ hcode) rfl, ?_⟩
  constructor
  · rw [hs.pc]
    rfl
  · simp [exec, Machine.perform, Machine.compute, Machine.set]
  · simp [exec, Machine.perform, Machine.compute, Machine.set]
  · exact hs.memory
  · exact hs.control

theorem enters_directory (hs : Behind s 19 memory control) :
    ∃ s', Runs (archi586Kernelentry image) s s' ∧
      AtLabel s' 26 .ecx (image.kernelpagetable ||| pagingFlags)
        kernelPdeStart
        (Function.update memory image.pagedir
          (image.lower2mpagetable ||| pagingFlags)) control 0 := by
  have hcode := codeAt_slice image 19 26
    ([.movImm 0 .edi, .movImm image.lower2mpagetable .ecx,
      .orImm pagingFlags .ecx, .storeIndexed .ecx image.pagedir .edi,
      .movImm (BitVec.ofNat 32 kernelPdeStart) .edi,
      .movImm image.kernelpagetable .ecx, .orImm pagingFlags .ecx])
    rfl (by decide)
  refine ⟨_, runs_block (hs.pc ▸ hcode) rfl, ?_⟩
  constructor
  · rw [hs.pc]
    rfl
  · simp [exec, Machine.perform, Machine.compute, Machine.set]
  · simp [exec, Machine.perform, Machine.compute, Machine.set]
  · simp [exec, Machine.perform, Machine.compute, Machine.set, hs.memory]
  · exact hs.control

theorem enables_paging (hs : Behind s 31 memory control) :
    ∃ s', Runs (archi586Kernelentry image) s s' ∧
      s'.pc = (archi586Kernelentry image).length ∧
      s'.memory = Function.update memory
        (image.pagedir + 4#32 * BitVec.ofNat 32 Mmu.pagedirPde)
        (image.pagedir ||| pagingFlags) ∧
      s'.control .cr3 = image.pagedir ∧
      s'.control .cr0 = control .cr0 ||| 0x80010000#32 := by
  have hcode := codeAt_slice image 31 40
    ([.movImm (BitVec.ofNat 32 Mmu.pagedirPde) .edi,
      .movImm image.pagedir .ecx, .orImm pagingFlags .ecx,
      .storeIndexed .ecx image.pagedir .edi, .movImm image.pagedir .esi,
      .toControl .esi .cr3, .fromControl .cr0 .esi, .orImm 0x80010000 .esi,
      .toControl .esi .cr0])
    rfl (by decide)
  refine ⟨_, runs_block (hs.pc ▸ hcode) rfl, ?_, ?_, ?_, ?_⟩
  · rw [hs.pc]
    rfl
  · simp [exec, Machine.perform, Machine.compute, Machine.set, hs.memory]
  · simp [exec, Machine.perform, Machine.compute, Machine.set]
  · simp [exec, Machine.perform, Machine.compute, Machine.set, hs.control]

end Phases

/-- The code runs to its end, with the tables in memory, the directory in
`%cr3` and paging turned on. -/
theorem kernelentry_runs (image : Image) {s : Machine} (hpc : s.pc = 0) :
    ∃ s', Runs (archi586Kernelentry image) s s' ∧
      s'.pc = (archi586Kernelentry image).length ∧
      s'.memory = bootMemory image s.memory ∧
      s'.control .cr3 = image.pagedir ∧
      s'.control .cr0 = s.control .cr0 ||| 0x80010000#32 := by
  have hlow := codeAt_slice image 3 10
    (fillTable image.lower2mpagetable Mmu.entryCount 3) rfl (by decide)
  have hkernel := codeAt_slice image 12 19
    (fillTable image.kernelpagetable
      (kernelPdeCount * Mmu.entryCount) 12) rfl (by decide)
  have hdirectory := codeAt_slice image 26 31
    (fillDirectory image.pagedir 26) rfl (by decide)
  obtain ⟨s₁, hruns₁, h₁⟩ := enters_low image hpc
  obtain ⟨s₂, hruns₂, h₂⟩ := fillTable_runs hlow h₁ (by decide) (by decide)
  obtain ⟨s₃, hruns₃, h₃⟩ := enters_kernel image h₂
  obtain ⟨s₄, hruns₄, h₄⟩ := fillTable_runs hkernel h₃ (by decide) (by decide)
  obtain ⟨s₅, hruns₅, h₅⟩ := enters_directory image h₄
  obtain ⟨s₆, hruns₆, h₆⟩ := fillDirectory_runs
    (kernelPdeCount + 1) hdirectory h₅ (by decide) (by decide)
  obtain ⟨s₇, hruns₇, hpc₇, hmemory₇, hcontrol₇⟩ := enables_paging image h₆
  refine ⟨s₇, ?_, hpc₇, hmemory₇, hcontrol₇⟩
  exact hruns₁.trans (hruns₂.trans (hruns₃.trans (hruns₄.trans
    (hruns₅.trans (hruns₆.trans hruns₇)))))

end BootPaging
end Yjkos
