import Yjkos.MmuMap
import Yjkos.StackMachine

/-!
# The processor's walk and the window on the page tables

The processor finds the tables in physical memory.  Slot 1023 of the directory
holds the directory itself, so the same walk shows the kernel its own tables
at the top of the address space, at `s_pagedir` and `s_pagetables`.  `Tables`
is what the kernel sees there.
-/

namespace Yjkos
namespace Mmu

open StackMachine (Word)

def physWord (memory : Word → Word) (address : ℕ) : Word :=
  memory (BitVec.ofNat 32 address)

/-- Whether an entry lets an access pass, with `CR0.WP` set. -/
def passes (entry : Word) (write user : Bool) : Bool :=
  has entry flagP && (!write || has entry flagRw) &&
    (!user || has entry flagUs)

def pdeAddress (cr3 : Word) (pde : ℕ) : ℕ := frameOf cr3 + pde * 4

def walk (memory : Word → Word) (cr3 : Word) (virt : ℕ)
    (write user : Bool) : Option ℕ :=
  let pdEntry := physWord memory (pdeAddress cr3 (pdeIndex virt))
  if passes pdEntry write user then
    let ptEntry :=
      physWord memory (frameOf pdEntry + pteIndex virt * 4)
    if passes ptEntry write user then
      some (frameOf ptEntry + virt % 4096)
    else none
  else none

/-- The address of `s_pagetables[pde].entry[pte]`; `s_pagedir` is the table of
slot 1023. -/
def windowAddress (pde pte : ℕ) : ℕ :=
  pagedirPde * 4194304 + pde * archPageSize + pte * 4

def windowLoad (memory : Word → Word) (cr3 : Word) (pde pte : ℕ) :
    Option Word :=
  (walk memory cr3 (windowAddress pde pte) false false).map
    (physWord memory)

def windowStore (memory : Word → Word) (cr3 : Word) (pde pte : ℕ)
    (value : Word) : Option (Word → Word) :=
  (walk memory cr3 (windowAddress pde pte) true false).map fun address =>
    Function.update memory (BitVec.ofNat 32 address) value

/-- The tables as the kernel sees them, in physical memory. -/
structure Shows (memory : Word → Word) (cr3 : Word) (m : Tables) : Prop where
  pagedir : ∀ i < 1024, m.pagedir i = physWord memory (pdeAddress cr3 i)
  entries : ∀ pde < 1024, pde ≠ pagedirPde → has (m.pagedir pde) flagP = true →
    ∀ pte < 1024, m.pagetables pde pte =
      physWord memory (frameOf (m.pagedir pde) + pte * 4)
  slot : frameOf (m.pagedir pagedirPde) = frameOf cr3 ∧
    passes (m.pagedir pagedirPde) true false = true
  apart : ∀ i < 1024, ∀ j < 1024, has (m.pagedir i) flagP = true →
    has (m.pagedir j) flagP = true →
    frameOf (m.pagedir i) = frameOf (m.pagedir j) → i = j
  writable : ∀ i < 1024, has (m.pagedir i) flagP = true →
    has (m.pagedir i) flagRw = true

theorem has_flagP_of_passes {entry : Word} {write user : Bool}
    (h : passes entry write user = true) : has entry flagP = true := by
  unfold passes at h
  simp only [Bool.and_eq_true] at h
  exact h.1.1

/-! ## Loads and stores through the window -/

theorem frameOf_lt (entry : BitVec 32) : frameOf entry + 4096 ≤ 4294967296 := by
  have := entry.isLt
  rw [frameOf_eq]
  omega

theorem frameOf_mod (entry : BitVec 32) : frameOf entry % 4096 = 0 := by
  rw [frameOf_eq]
  omega

theorem windowAddress_lt {pde pte : ℕ} (hpde : pde < 1024)
    (hpte : pte < 1024) : windowAddress pde pte < 4294967296 := by
  unfold windowAddress pagedirPde entryCount archPageSize
  omega

theorem pdeIndex_windowAddress {pde pte : ℕ} (hpde : pde < 1024)
    (hpte : pte < 1024) : pdeIndex (windowAddress pde pte) = pagedirPde := by
  rw [pdeIndex_eq (windowAddress_lt hpde hpte)]
  unfold windowAddress pagedirPde entryCount archPageSize
  omega

theorem pteIndex_windowAddress {pde pte : ℕ} (hpde : pde < 1024)
    (hpte : pte < 1024) : pteIndex (windowAddress pde pte) = pde := by
  rw [pteIndex_eq]
  unfold windowAddress pagedirPde entryCount archPageSize
  omega

theorem windowAddress_mod {pde pte : ℕ} (hpte : pte < 1024) :
    windowAddress pde pte % 4096 = pte * 4 := by
  unfold windowAddress pagedirPde entryCount archPageSize
  omega

section Window

variable {memory : Word → Word} {cr3 : Word} {m : Tables}

theorem Shows.walk_window (h : Shows memory cr3 m) {pde pte : ℕ}
    (hpde : pde < 1024) (hpte : pte < 1024) (write : Bool) :
    walk memory cr3 (windowAddress pde pte) write false =
      if passes (m.pagedir pde) write false then
        some (frameOf (m.pagedir pde) + pte * 4)
      else none := by
  obtain ⟨hframe, hpasses⟩ := h.slot
  have hslot : passes (m.pagedir pagedirPde) write false = true := by
    unfold passes at hpasses ⊢
    cases write <;> simp_all
  have hself := (h.pagedir pagedirPde (by decide)).symm
  have hentry := (h.pagedir pde hpde).symm
  unfold pdeAddress at hself hentry
  unfold walk pdeAddress
  rw [pdeIndex_windowAddress hpde hpte, pteIndex_windowAddress hpde hpte,
    windowAddress_mod hpte, hself]
  simp only [hslot, if_true, hframe, hentry]

theorem Shows.passes_eq (h : Shows memory cr3 m) {pde : ℕ}
    (hpde : pde < 1024) (write : Bool) :
    passes (m.pagedir pde) write false = has (m.pagedir pde) flagP := by
  unfold passes
  cases hpresent : has (m.pagedir pde) flagP with
  | false => rfl
  | true => simp [h.writable pde hpde hpresent]

theorem Shows.entry_eq (h : Shows memory cr3 m) {pde pte : ℕ}
    (hpde : pde < 1024) (hpte : pte < 1024)
    (hpresent : has (m.pagedir pde) flagP = true) :
    m.entry pde pte =
      physWord memory (frameOf (m.pagedir pde) + pte * 4) := by
  unfold Tables.entry
  by_cases hslot : pde = pagedirPde
  · rw [if_pos hslot, hslot, h.slot.1]
    exact h.pagedir pte hpte
  · rw [if_neg hslot]
    exact h.entries pde hpde hslot hpresent pte hpte

theorem Shows.windowLoad (h : Shows memory cr3 m) {pde pte : ℕ}
    (hpde : pde < 1024) (hpte : pte < 1024) :
    windowLoad memory cr3 pde pte =
      if has (m.pagedir pde) flagP then some (m.entry pde pte) else none := by
  unfold Mmu.windowLoad
  rw [h.walk_window hpde hpte, h.passes_eq hpde]
  cases hpresent : has (m.pagedir pde) flagP with
  | false => rfl
  | true =>
      rw [h.entry_eq hpde hpte hpresent]
      rfl

/-- The processor finds the entries which the kernel sees. -/
theorem Shows.walk_eq (h : Shows memory cr3 m) {virt : ℕ}
    (hvirt : virt < 4294967296) (write user : Bool) :
    walk memory cr3 virt write user =
      if passes (m.pagedir (pdeIndex virt)) write user &&
          passes (m.pageEntry virt) write user then
        some (frameOf (m.pageEntry virt) + virt % 4096)
      else none := by
  have hpde : pdeIndex virt < 1024 := by
    rw [pdeIndex_eq hvirt]
    omega
  have hpte : pteIndex virt < 1024 := by
    rw [pteIndex_eq]
    omega
  unfold walk Tables.pageEntry
  simp only [(h.pagedir _ hpde).symm]
  cases hpasses : passes (m.pagedir (pdeIndex virt)) write user with
  | false => rfl
  | true =>
      rw [h.entry_eq hpde hpte (has_flagP_of_passes hpasses)]
      simp

/-- `arch_mmu_emulate` agrees with the processor. -/
theorem Shows.emulate_iff (h : Shows memory cr3 m) {virt : ℕ}
    (hvirt : virt < 4294967296) (flags : BitVec 8) (user : Bool) (frame : ℕ) :
    archMmuEmulate m virt flags user = .ok frame ↔
      walk memory cr3 virt (hasProt flags mapProtWrite) user =
        some (frame + virt % 4096) := by
  have hpde : pdeIndex virt < 1024 := by
    rw [pdeIndex_eq hvirt]
    omega
  have hpte : pteIndex virt < 1024 := by
    rw [pteIndex_eq]
    omega
  have hdir := (h.pagedir _ hpde).symm
  unfold archMmuEmulate walk
  simp only [hdir]
  by_cases hpresent : has (m.pagedir (pdeIndex virt)) flagP = true
  · have hentry := (h.entry_eq hpde hpte hpresent).symm
    simp only [hentry]
    unfold passes
    cases hasProt flags mapProtWrite <;> cases user <;>
      cases has (m.pagedir (pdeIndex virt)) flagRw <;>
      cases has (m.pagedir (pdeIndex virt)) flagUs <;>
      cases has (m.entry (pdeIndex virt) (pteIndex virt)) flagP <;>
      cases has (m.entry (pdeIndex virt) (pteIndex virt)) flagRw <;>
      cases has (m.entry (pdeIndex virt) (pteIndex virt)) flagUs <;>
      simp [hpresent]
  · unfold passes
    simp [hpresent]

/-! ## Stores -/

theorem physWord_update (value : Word) {a b : ℕ} (ha : a < 4294967296)
    (hb : b < 4294967296) :
    physWord (Function.update memory (BitVec.ofNat 32 a) value) b =
      if b = a then value else physWord memory b := by
  unfold physWord
  by_cases heq : b = a
  · rw [if_pos heq, heq, Function.update_self]
  · rw [if_neg heq, Function.update_of_ne]
    intro hword
    have hnat := congrArg BitVec.toNat hword
    rw [BitVec.toNat_ofNat, BitVec.toNat_ofNat, Nat.mod_eq_of_lt ha,
      Nat.mod_eq_of_lt hb] at hnat
    exact heq hnat

theorem tableWord_eq_iff {f g : BitVec 32} {i j : ℕ} (hi : i < 1024)
    (hj : j < 1024) :
    frameOf f + i * 4 = frameOf g + j * 4 ↔ frameOf f = frameOf g ∧ i = j := by
  have hf := frameOf_mod f
  have hg := frameOf_mod g
  omega

theorem physWord_update_table {f g : BitVec 32} {i j : ℕ} (value : Word)
    (hi : i < 1024) (hj : j < 1024) :
    physWord (Function.update memory (BitVec.ofNat 32 (frameOf f + i * 4))
        value) (frameOf g + j * 4) =
      if frameOf g = frameOf f ∧ j = i then value
      else physWord memory (frameOf g + j * 4) := by
  have hf := frameOf_lt f
  have hg := frameOf_lt g
  rw [physWord_update value (by omega) (by omega)]
  simp only [tableWord_eq_iff hj hi]

theorem Shows.windowStore (h : Shows memory cr3 m) {pde pte : ℕ}
    (hpde : pde < 1024) (hpte : pte < 1024) (hslot : pde ≠ pagedirPde)
    (hpresent : has (m.pagedir pde) flagP = true) (value : Word) :
    ∃ memory', windowStore memory cr3 pde pte value = some memory' ∧
      Shows memory' cr3 (m.setEntry pde pte value) := by
  have hdirPresent : has (m.pagedir pagedirPde) flagP = true := by
    have hpasses := h.slot.2
    rw [h.passes_eq (by decide)] at hpasses
    exact hpasses
  have hpagedir : (m.setEntry pde pte value).pagedir = m.pagedir := by
    simp [Tables.setEntry, hslot]
  -- the directory is not the table which is written
  have hother : frameOf cr3 ≠ frameOf (m.pagedir pde) := by
    rw [← h.slot.1]
    intro heq
    exact hslot (h.apart pde hpde pagedirPde (by decide) hpresent hdirPresent
      heq.symm)
  refine ⟨Function.update memory
    (BitVec.ofNat 32 (frameOf (m.pagedir pde) + pte * 4)) value, ?_, ?_⟩
  · unfold Mmu.windowStore
    rw [h.walk_window hpde hpte, h.passes_eq hpde, if_pos hpresent]
    rfl
  · constructor
    · intro i hi
      rw [hpagedir, h.pagedir i hi]
      unfold pdeAddress
      rw [physWord_update_table value hpte hi,
        if_neg fun heq => hother heq.1]
    · intro pde' hpde' hslot' hpresent' pte' hpte'
      rw [hpagedir] at hpresent' ⊢
      rw [physWord_update_table value hpte hpte']
      have hentry := h.entries pde' hpde' hslot' hpresent' pte' hpte'
      simp only [Tables.setEntry, if_neg hslot]
      by_cases hpde'' : pde' = pde
      · subst hpde''
        by_cases hpte'' : pte' = pte
        · simp [hpte'']
        · simp [hpte'', hentry]
      · have hframe : frameOf (m.pagedir pde') ≠ frameOf (m.pagedir pde) :=
          fun heq => hpde'' (h.apart pde' hpde' pde hpde hpresent' hpresent heq)
        simp [hpde'', hframe, hentry]
    · rw [hpagedir]
      exact h.slot
    · rw [hpagedir]
      exact h.apart
    · rw [hpagedir]
      exact h.writable

end Window

end Mmu
end Yjkos
