import Yjkos.MiscMath

/-!
# The boot memory map

`kernel/arch/i586/bootinfo.c`: the entries of the multiboot memory map are
clamped to 32 bits, the excluded regions are cut out and what is left is
rounded to pages and given to `pmm_register_mem`.  A run is observed through
the calls of `pmm_register_mem`, as pairs of an address and a page count.
-/

namespace Yjkos
namespace BootInfo

structure MemRegion where
  base : ℕ
  len : ℕ
deriving DecidableEq

/-- The parts of the region before and after the excluded one. -/
def excludeRegion (addr len excludeAddr excludeLen : ℕ) :
    MemRegion × MemRegion :=
  let start := addr
  let stop := wrap (start + len)
  let excludeStart := excludeAddr
  let excludeEnd := wrap (excludeStart + excludeLen)
  if stop ≤ excludeStart ∨ excludeEnd ≤ start then (⟨start, len⟩, ⟨0, 0⟩)
  else
    let stop := if sizeMax - start < len then sizeMax else stop
    let excludeEnd :=
      if sizeMax - excludeLen < excludeStart then sizeMax else excludeEnd
    (if start < excludeStart then ⟨start, excludeStart - start⟩ else ⟨0, 0⟩,
      if excludeEnd < stop then ⟨excludeEnd, stop - excludeEnd⟩ else ⟨0, 0⟩)

/-- `REGIONS_TO_EXCLUDE`, where the symbols of the linker script are the
arguments. -/
def regionsToExclude (kernelBegin kernelEnd : ℕ) : List MemRegion :=
  [⟨0, 0x100000⟩, ⟨kernelBegin, kernelEnd⟩]

inductive AddrLimitResult where
  | ignore
  | warn
  | ok
deriving DecidableEq

/-- The arguments have 64 bits, the results 32. -/
def limitTo32bitAddr (addr len : ℕ) : AddrLimitResult × MemRegion :=
  let lastAddr := (addr + len + 18446744073709551615) % 18446744073709551616
  if 4294967295 < addr then (.ignore, ⟨0, 0⟩)
  else if 4294967295 < lastAddr then
    (.warn, ⟨addr, wrap (4294967295 - addr + 1)⟩)
  else (.ok, ⟨addr, wrap (lastAddr + 18446744073709551616 - addr + 1)⟩)

/-- `MAX_RESULT_REGIONS`. -/
def maxResultRegions : ℕ := 4

/-- What becomes of one slot of the result, and the region which is added. -/
def excludeFromSlot (exclude slot : MemRegion) :
    MemRegion × Option MemRegion :=
  if slot.len = 0 then (slot, none)
  else
    let r := excludeRegion slot.base slot.len exclude.base exclude.len
    if r.1.len ≠ 0 ∧ r.2.len ≠ 0 then (r.1, some r.2)
    else if r.1.len ≠ 0 then (r.1, none)
    else if r.2.len ≠ 0 then (r.2, none)
    else (⟨0, 0⟩, none)

/-- The loop over the slots; `count` is the number of regions so far. -/
def excludeFromSlots (exclude : MemRegion) :
    ℕ → List MemRegion → Except Fault (List MemRegion × List MemRegion)
  | _, [] => .ok ([], [])
  | count, slot :: rest =>
      match excludeFromSlot exclude slot with
      | (slot, none) => do
          let (slots, added) ← excludeFromSlots exclude count rest
          .ok (slot :: slots, added)
      | (slot, some new) => do
          cAssert (count < maxResultRegions)
            "result_regions_count < MAX_RESULT_REGIONS"
          let (slots, added) ← excludeFromSlots exclude (count + 1) rest
          .ok (slot :: slots, new :: added)

def excludeRegionsLoop :
    List MemRegion → List MemRegion → Except Fault (List MemRegion)
  | [], regions => .ok regions
  | exclude :: rest, regions => do
      let (slots, added) ← excludeFromSlots exclude regions.length regions
      excludeRegionsLoop rest (slots ++ added)

def excludeRegions (kernelBegin kernelEnd : ℕ) (region : MemRegion) :
    Except Fault (List MemRegion) :=
  excludeRegionsLoop (regionsToExclude kernelBegin kernelEnd) [region]

/-- The call of `pmm_register_mem`, if there is one. -/
def registerRegion (region : MemRegion) : Option (ℕ × ℕ) :=
  let incr := archPageSize - region.base % archPageSize
  let aligned :=
    if region.base % archPageSize ≠ 0 then
      (wrap (region.base + incr), wrapSub region.len incr)
    else (region.base, region.len)
  let pageCount := aligned.2 / archPageSize
  if pageCount = 0 then none else some (aligned.1, pageCount)

/-- `size`, which only leads to the next entry, is left out. -/
structure MmapEntry where
  addr : ℕ
  len : ℕ
  type : ℕ
deriving DecidableEq

/-- `MULTIBOOT_MEMORY_AVAILABLE`. -/
def memoryAvailable : ℕ := 1

def processMemMap (kernelBegin kernelEnd : ℕ) :
    List MmapEntry → Except Fault (List (ℕ × ℕ))
  | [] => .ok []
  | entry :: rest =>
      let limited := limitTo32bitAddr entry.addr entry.len
      if limited.1 = .ignore then processMemMap kernelBegin kernelEnd rest
      else if entry.type ≠ memoryAvailable then
        processMemMap kernelBegin kernelEnd rest
      else do
        let regions ← excludeRegions kernelBegin kernelEnd limited.2
        let more ← processMemMap kernelBegin kernelEnd rest
        .ok (regions.filterMap registerRegion ++ more)

/-! ## Rounding -/

/-- The first page boundary from `x` on. -/
def roundUp (x : ℕ) : ℕ := (x + 4095) / 4096 * 4096

/-- The region from `x` to below `y`. -/
def span (x y : ℕ) : MemRegion := if x < y then ⟨x, y - x⟩ else ⟨0, 0⟩

theorem span_of_lt {x y : ℕ} (h : x < y) : span x y = ⟨x, y - x⟩ := if_pos h

theorem span_of_le {x y : ℕ} (h : y ≤ x) : span x y = ⟨0, 0⟩ :=
  if_neg (not_lt.mpr h)

theorem registerRegion_empty : registerRegion ⟨0, 0⟩ = none := by
  simp [registerRegion]

theorem registerRegion_of_roundUp_le {x len : ℕ}
    (hend : x + len ≤ 4294967296) (hlen : len < 4294967296)
    (h : roundUp x ≤ x + len) :
    registerRegion ⟨x, len⟩ =
      if (x + len - roundUp x) / 4096 = 0 then none
      else some (roundUp x, (x + len - roundUp x) / 4096) := by
  unfold roundUp at h
  by_cases haligned : x % 4096 = 0
  · have hround : roundUp x = x := by
      unfold roundUp
      omega
    simp only [registerRegion, archPageSize, haligned, ne_eq,
      not_true_eq_false, if_false, hround, Nat.add_sub_cancel_left]
  · have hround : roundUp x = x + (4096 - x % 4096) := by
      unfold roundUp
      omega
    have hle : 4096 - x % 4096 ≤ len := by omega
    have hsub : x + len - (x + (4096 - x % 4096)) =
        len - (4096 - x % 4096) := by omega
    simp only [registerRegion, archPageSize, haligned, ne_eq,
      not_false_eq_true, if_true, hround, wrapSub_of_le hle hlen, hsub]
    split
    next => rfl
    next hpages => rw [wrap_of_lt (by omega)]

/-- A piece without a page boundary is taken for almost all of the address
space. -/
theorem registerRegion_of_lt_roundUp {x len : ℕ} (hpos : 0 < len)
    (h : x + len < roundUp x) :
    registerRegion ⟨x, len⟩ = some (wrap (roundUp x), 1048575) := by
  unfold roundUp at h
  have haligned : x % 4096 ≠ 0 := by omega
  have hround : roundUp x = x + (4096 - x % 4096) := by
    unfold roundUp
    omega
  have hpages : wrapSub len (4096 - x % 4096) / 4096 = 1048575 := by
    unfold wrapSub wrap
    omega
  simp only [registerRegion, archPageSize, haligned, ne_eq,
    not_false_eq_true, if_true, hround, hpages]
  rfl

/-! ## Regions of an entry -/

theorem span_len {x y : ℕ} : (span x y).len = y - x := by
  unfold span
  split
  next => rfl
  next h =>
    simp only
    omega

theorem span_eq_empty {x y : ℕ} (h : (span x y).len = 0) :
    span x y = ⟨0, 0⟩ := by
  rw [span_len] at h
  exact span_of_le (by omega)

/-- The end of an excluded region, which is cut off at the top. -/
def excludeStop (exclude : MemRegion) : ℕ :=
  if exclude.base + exclude.len < 4294967296 then
    exclude.base + exclude.len
  else sizeMax

/-- The code's test that nothing is cut out of the region from `x` to `y`. -/
def Untouched (exclude : MemRegion) (x y : ℕ) : Prop :=
  y ≤ exclude.base ∨ wrap (exclude.base + exclude.len) ≤ x

instance (exclude : MemRegion) (x y : ℕ) :
    Decidable (Untouched exclude x y) :=
  inferInstanceAs (Decidable (_ ∨ _))

theorem excludeRegion_untouched {x y : ℕ} {exclude : MemRegion}
    (hxy : x < y) (hy : y < 4294967296) (h : Untouched exclude x y) :
    excludeRegion x (y - x) exclude.base exclude.len =
      (span x y, ⟨0, 0⟩) := by
  have hstop : wrap (x + (y - x)) = y := by
    rw [Nat.add_sub_cancel' hxy.le]
    exact wrap_of_lt hy
  have htest : wrap (x + (y - x)) ≤ exclude.base ∨
      wrap (exclude.base + exclude.len) ≤ x := by
    rw [hstop]
    exact h
  rw [excludeRegion]
  dsimp only
  rw [if_pos htest, span_of_lt hxy]

theorem excludeRegion_cut {x y : ℕ} {exclude : MemRegion} (hxy : x < y)
    (hy : y < 4294967296) (hlen : exclude.len < 4294967296)
    (h : ¬Untouched exclude x y) :
    excludeRegion x (y - x) exclude.base exclude.len =
      (span x exclude.base, span (excludeStop exclude) y) := by
  have hstop : wrap (x + (y - x)) = y := by
    rw [Nat.add_sub_cancel' hxy.le]
    exact wrap_of_lt hy
  have htest : ¬(wrap (x + (y - x)) ≤ exclude.base ∨
      wrap (exclude.base + exclude.len) ≤ x) := by
    rw [hstop]
    exact h
  have hlast : (if sizeMax - x < y - x then sizeMax
      else wrap (x + (y - x))) = y := by
    rw [if_neg (by unfold sizeMax; omega), hstop]
  have hend : (if sizeMax - exclude.len < exclude.base then sizeMax
      else wrap (exclude.base + exclude.len)) = excludeStop exclude := by
    unfold excludeStop
    by_cases hfits : exclude.base + exclude.len < 4294967296
    · rw [if_neg (by unfold sizeMax; omega), if_pos hfits, wrap_of_lt hfits]
    · rw [if_pos (by unfold sizeMax; omega), if_neg hfits]
  rw [excludeRegion]
  dsimp only
  rw [if_neg htest, hlast, hend]
  rfl

/-- The calls for a list of regions. -/
def calls (regions : List MemRegion) : List (ℕ × ℕ) :=
  regions.filterMap registerRegion

theorem calls_empty_cons (regions : List MemRegion) :
    calls (⟨0, 0⟩ :: regions) = calls regions := by
  simp [calls, registerRegion_empty]

theorem calls_cons_empty (region : MemRegion) :
    calls [region, ⟨0, 0⟩] = calls [region] := by
  cases hregion : registerRegion region <;>
    simp [calls, hregion, registerRegion_empty]

/-- The pieces of a region after one exclusion. -/
def piecesAfter (exclude : MemRegion) (x y : ℕ) : List MemRegion :=
  if y ≤ x then []
  else if Untouched exclude x y then [span x y]
  else [span x exclude.base, span (excludeStop exclude) y]

theorem excludeFromSlot_span {x y : ℕ} (exclude : MemRegion)
    (hy : y < 4294967296) (hlen : exclude.len < 4294967296) :
    calls ((excludeFromSlot exclude (span x y)).1 ::
        (excludeFromSlot exclude (span x y)).2.toList) =
      calls (piecesAfter exclude x y) := by
  unfold piecesAfter
  by_cases hxy : y ≤ x
  · rw [if_pos hxy, span_of_le hxy]
    exact calls_empty_cons []
  · have hlt : x < y := not_le.mp hxy
    have hne : (⟨x, y - x⟩ : MemRegion).len ≠ 0 := by
      simp only
      omega
    rw [if_neg hxy]
    by_cases huntouched : Untouched exclude x y
    · have hne' : (span x y).len ≠ 0 := by
        rw [span_len]
        omega
      have hslot : excludeFromSlot exclude (span x y) = (span x y, none) := by
        rw [span_of_lt hlt, excludeFromSlot, if_neg hne]
        dsimp only
        rw [excludeRegion_untouched hlt hy huntouched]
        simp only [ne_eq, not_true_eq_false, and_false, if_false, hne',
          not_false_eq_true, if_true]
        rw [span_of_lt hlt]
      rw [if_pos huntouched, hslot]
      rfl
    · rw [if_neg huntouched]
      have hslot : excludeFromSlot exclude (span x y) =
          excludeFromSlot exclude ⟨x, y - x⟩ := by rw [span_of_lt hlt]
      rw [hslot, excludeFromSlot, if_neg hne]
      dsimp only
      rw [excludeRegion_cut hlt hy hlen huntouched]
      dsimp only
      by_cases hbefore : (span x exclude.base).len = 0
      · rw [span_eq_empty hbefore, calls_empty_cons]
        by_cases hafter : (span (excludeStop exclude) y).len = 0
        · rw [span_eq_empty hafter]
          exact calls_empty_cons []
        · simp [hafter]
      · by_cases hafter : (span (excludeStop exclude) y).len = 0
        · simp only [hbefore, hafter, ne_eq, not_false_eq_true,
            not_true_eq_false, and_false, if_false, if_true,
            Option.toList_none]
          rw [span_eq_empty hafter]
          exact (calls_cons_empty _).symm
        · simp [hbefore, hafter]

theorem excludeFromSlots_singleton {exclude slot : MemRegion} {count : ℕ}
    (hcount : count < maxResultRegions) :
    excludeFromSlots exclude count [slot] =
      .ok ([(excludeFromSlot exclude slot).1],
        (excludeFromSlot exclude slot).2.toList) := by
  rw [excludeFromSlots]
  cases hslot : excludeFromSlot exclude slot with
  | mk first second =>
      cases second with
      | none => rfl
      | some new =>
          simp only [cAssert_of (decide_eq_true hcount), ok_bind]
          rfl

section Entry

variable {kernelBegin kernelEnd x y : ℕ}

theorem excludeFromSlot_first_mib (hxy : x < y) (hy : y < 4294967296) :
    excludeFromSlot ⟨0, 0x100000⟩ ⟨x, y - x⟩ =
      (span (max x 0x100000) y, none) := by
  have hne : (⟨x, y - x⟩ : MemRegion).len ≠ 0 := by
    simp only
    omega
  rw [excludeFromSlot, if_neg hne]
  dsimp only
  by_cases hhigh : 0x100000 ≤ x
  · have huntouched : Untouched ⟨0, 0x100000⟩ x y := Or.inr hhigh
    have hlen : (span x y).len ≠ 0 := by
      rw [span_len]
      omega
    have hcut := excludeRegion_untouched hxy hy huntouched
    dsimp only at hcut
    rw [hcut, Nat.max_eq_left hhigh]
    simp [hlen]
  · have htouched : ¬Untouched ⟨0, 0x100000⟩ x y := by
      intro huntouched
      rcases huntouched with hlow | hend
      · simp only at hlow
        omega
      · exact hhigh hend
    have hcut := excludeRegion_cut hxy hy (by simp only; omega) htouched
    have hbefore : span x 0 = ⟨0, 0⟩ := span_of_le (Nat.zero_le x)
    have hstop : excludeStop ⟨0, 0x100000⟩ = 0x100000 := rfl
    dsimp only at hcut
    rw [hcut, hbefore, hstop, Nat.max_eq_right (by omega)]
    by_cases hafter : (span 0x100000 y).len = 0
    · rw [span_eq_empty hafter]
      simp
    · simp [hafter]

theorem excludeRegions_low (hxy : x < y) (hy : y < 4294967296)
    (hend : kernelEnd < 4294967296) :
    ∃ regions, excludeRegions kernelBegin kernelEnd ⟨x, y - x⟩ =
        .ok regions ∧
      calls regions = calls (piecesAfter ⟨kernelBegin, kernelEnd⟩
        (max x 0x100000) y) := by
  have hone : 1 < maxResultRegions := by decide
  refine ⟨_, ?_, excludeFromSlot_span ⟨kernelBegin, kernelEnd⟩ hy hend⟩
  rw [excludeRegions, regionsToExclude, excludeRegionsLoop,
    List.length_singleton, excludeFromSlots_singleton hone, ok_bind,
    excludeFromSlot_first_mib hxy hy]
  dsimp only
  rw [Option.toList_none, List.append_nil, excludeRegionsLoop,
    List.length_singleton, excludeFromSlots_singleton hone, ok_bind]
  rfl

theorem excludeFromSlot_top {exclude : MemRegion} (htop : x < 4294967296) :
    excludeFromSlot exclude ⟨x, 4294967296 - x⟩ =
      (⟨x, 4294967296 - x⟩, none) := by
  have hne : (⟨x, 4294967296 - x⟩ : MemRegion).len ≠ 0 := by
    simp only
    omega
  have hstop : wrap (x + (4294967296 - x)) = 0 := by
    rw [Nat.add_sub_cancel' htop.le]
    rfl
  have hsame : excludeRegion x (4294967296 - x) exclude.base exclude.len =
      (⟨x, 4294967296 - x⟩, ⟨0, 0⟩) := by
    rw [excludeRegion]
    dsimp only
    rw [if_pos (Or.inl (by rw [hstop]; exact Nat.zero_le _))]
  rw [excludeFromSlot, if_neg hne]
  dsimp only
  rw [hsame]
  simp only [ne_eq, not_true_eq_false, and_false, if_false]
  rw [if_pos hne]

theorem excludeFromSlot_zero {exclude : MemRegion} (x : ℕ) :
    excludeFromSlot exclude ⟨x, 0⟩ = (⟨x, 0⟩, none) := by
  simp [excludeFromSlot]

theorem excludeRegions_same {region : MemRegion}
    (h : ∀ exclude, excludeFromSlot exclude region = (region, none)) :
    excludeRegions kernelBegin kernelEnd region = .ok [region] := by
  have hone : 1 < maxResultRegions := by decide
  rw [excludeRegions, regionsToExclude, excludeRegionsLoop,
    List.length_singleton, excludeFromSlots_singleton hone, ok_bind, h]
  dsimp only
  rw [Option.toList_none, List.append_nil, excludeRegionsLoop,
    List.length_singleton, excludeFromSlots_singleton hone, ok_bind, h]
  rfl

end Entry

end BootInfo
end Yjkos
