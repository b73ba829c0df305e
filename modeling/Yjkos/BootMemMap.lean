import Yjkos.BootInfo
import Mathlib.Data.Set.Basic

/-!
# Pages from the boot memory map

Which pages `process_mem_map` passes to `pmm_register_mem`, entry by entry:
first for an entry which ends below 4 GiB, whose excluded parts are cut out,
then for one which reaches 4 GiB, from which nothing is cut out.
-/

namespace Yjkos
namespace BootInfo

/-- The pages of a list of calls. -/
def pages (calls : List (ℕ × ℕ)) : List ℕ :=
  calls.flatMap fun call =>
    (List.range call.2).map fun i => call.1 + i * archPageSize

theorem mem_pages {calls : List (ℕ × ℕ)} {page : ℕ} :
    page ∈ pages calls ↔
      ∃ call ∈ calls, ∃ i < call.2, page = call.1 + i * 4096 := by
  simp only [pages, List.mem_flatMap, List.mem_map, List.mem_range,
    archPageSize, eq_comm]

theorem pages_append (calls calls' : List (ℕ × ℕ)) :
    pages (calls ++ calls') = pages calls ++ pages calls' :=
  List.flatMap_append

def MmapEntry.Available (e : MmapEntry) : Prop := e.type = memoryAvailable

/-- The end of the part of the entry below 4 GiB. -/
def MmapEntry.top (e : MmapEntry) : ℕ := min (e.addr + e.len) 4294967296

/-- An entry which the multiboot structure can hold. -/
structure MmapEntry.Valid (e : MmapEntry) : Prop where
  positive : 1 ≤ e.len
  fits : e.addr + e.len ≤ 18446744073709551616

/-- The calls which one entry leads to. -/
def entryCalls (kernelBegin kernelEnd : ℕ) (e : MmapEntry) :
    List (ℕ × ℕ) :=
  if e.type ≠ memoryAvailable ∨ 4294967296 ≤ e.addr ∨
      (e.addr = 0 ∧ e.top = 4294967296) then []
  else if e.top = 4294967296 then calls [⟨e.addr, 4294967296 - e.addr⟩]
  else calls (piecesAfter ⟨kernelBegin, kernelEnd⟩ (max e.addr 0x100000)
    e.top)

section Entries

variable {kernelBegin kernelEnd : ℕ} {e : MmapEntry}
  {entries : List MmapEntry}

theorem limitTo32bitAddr_ignore (h : 4294967296 ≤ e.addr) :
    (limitTo32bitAddr e.addr e.len).1 = .ignore := by
  rw [limitTo32bitAddr]
  rw [if_pos (by omega)]

theorem limitTo32bitAddr_ne_ignore (h : e.addr < 4294967296) :
    (limitTo32bitAddr e.addr e.len).1 ≠ .ignore := by
  rw [limitTo32bitAddr]
  rw [if_neg (by omega)]
  split <;> simp

theorem limitTo32bitAddr_low (hvalid : e.Valid) (h : e.addr < 4294967296) :
    (limitTo32bitAddr e.addr e.len).2 =
      ⟨e.addr, wrap (e.top - e.addr)⟩ := by
  have hpos := hvalid.positive
  have hfits := hvalid.fits
  have hlast : (e.addr + e.len + 18446744073709551615) %
      18446744073709551616 = e.addr + e.len - 1 := by omega
  rw [limitTo32bitAddr]
  rw [hlast, if_neg (by omega)]
  by_cases htop : 4294967295 < e.addr + e.len - 1
  · have hmin : e.top = 4294967296 := Nat.min_eq_right (by omega)
    rw [if_pos htop, hmin]
    have hlen : 4294967295 - e.addr + 1 = 4294967296 - e.addr := by omega
    rw [hlen]
  · have hmin : e.top = e.addr + e.len := Nat.min_eq_left (by omega)
    rw [if_neg htop, hmin]
    have hlen : wrap (e.addr + e.len - 1 + 18446744073709551616 - e.addr +
        1) = wrap (e.addr + e.len - e.addr) := by
      unfold wrap
      omega
    simp only [hlen]

theorem addr_lt_top (hvalid : e.Valid) (h : e.addr < 4294967296) :
    e.addr < e.top ∧ e.top ≤ 4294967296 := by
  have hpos := hvalid.positive
  unfold MmapEntry.top
  omega

theorem excludeRegions_eq (hvalid : e.Valid) (h : e.addr < 4294967296)
    (htype : e.type = memoryAvailable) (hend : kernelEnd < 4294967296) :
    ∃ regions, excludeRegions kernelBegin kernelEnd
        (limitTo32bitAddr e.addr e.len).2 = .ok regions ∧
      calls regions = entryCalls kernelBegin kernelEnd e := by
  obtain ⟨hlt, hle⟩ := addr_lt_top hvalid h
  rw [limitTo32bitAddr_low hvalid h]
  unfold entryCalls
  by_cases htop : e.top = 4294967296
  · rw [htop]
    by_cases hzero : e.addr = 0
    · have hwrap : wrap (4294967296 - e.addr) = 0 := by
        rw [hzero]
        rfl
      refine ⟨[⟨e.addr, 0⟩], ?_, ?_⟩
      · rw [hwrap]
        exact excludeRegions_same fun _ => excludeFromSlot_zero e.addr
      · rw [if_pos (Or.inr (Or.inr ⟨hzero, rfl⟩)), hzero]
        exact calls_empty_cons []
    · refine ⟨[⟨e.addr, 4294967296 - e.addr⟩], ?_, ?_⟩
      · rw [wrap_of_lt (by omega)]
        exact excludeRegions_same fun _ => excludeFromSlot_top h
      · rw [if_neg, if_pos rfl]
        rintro (htype' | hhigh | ⟨hzero', -⟩)
        · exact htype' htype
        · omega
        · exact hzero hzero'
  · have hlow : e.top < 4294967296 := lt_of_le_of_ne hle htop
    obtain ⟨regions, hregions, hcalls⟩ :=
      @excludeRegions_low kernelBegin kernelEnd e.addr e.top hlt hlow hend
    refine ⟨regions, ?_, ?_⟩
    · rw [wrap_of_lt (by omega)]
      exact hregions
    · rw [hcalls, if_neg, if_neg htop]
      rintro (htype' | hhigh | ⟨-, htop'⟩)
      · exact htype' htype
      · omega
      · exact htop htop'

theorem processMemMap_eq (hentry : ∀ e ∈ entries, e.type = memoryAvailable →
      e.addr < 4294967296 → ∃ regions, excludeRegions kernelBegin kernelEnd
        (limitTo32bitAddr e.addr e.len).2 = .ok regions ∧
      calls regions = entryCalls kernelBegin kernelEnd e) :
    processMemMap kernelBegin kernelEnd entries =
      .ok (entries.flatMap (entryCalls kernelBegin kernelEnd)) := by
  induction entries with
  | nil => rfl
  | cons e rest ih =>
      have hrest := ih fun e he => hentry e (List.mem_cons_of_mem _ he)
      rw [processMemMap, List.flatMap_cons]
      by_cases hhigh : 4294967296 ≤ e.addr
      · have hnone : entryCalls kernelBegin kernelEnd e = [] :=
          if_pos (Or.inr (Or.inl hhigh))
        rw [if_pos (limitTo32bitAddr_ignore hhigh), hrest, hnone]
        rfl
      · rw [if_neg (limitTo32bitAddr_ne_ignore (not_le.mp hhigh))]
        by_cases htype : e.type = memoryAvailable
        · obtain ⟨regions, hregions, hcalls⟩ := hentry e List.mem_cons_self
            htype (not_le.mp hhigh)
          rw [if_neg (not_not.mpr htype), hregions, ok_bind, hrest, ok_bind,
            ← hcalls]
          rfl
        · have hnone : entryCalls kernelBegin kernelEnd e = [] :=
            if_pos (Or.inl htype)
          rw [if_pos htype, hrest, hnone]
          rfl

end Entries

/-! ## Pages of a piece -/

section Pieces

variable {x y page : ℕ}

/-- A non-empty piece reaches a page boundary. -/
def Roundable (x y : ℕ) : Prop := x < y → roundUp x ≤ y

theorem calls_cons (region : MemRegion) (regions : List MemRegion) :
    calls (region :: regions) = calls [region] ++ calls regions := by
  rw [← List.singleton_append]
  exact List.filterMap_append

theorem mem_pages_calls_region {x len : ℕ} (hend : x + len ≤ 4294967296)
    (hlen : len < 4294967296) (h : roundUp x ≤ x + len) :
    page ∈ pages (calls [⟨x, len⟩]) ↔
      page % 4096 = 0 ∧ x ≤ page ∧ page + 4096 ≤ x + len := by
  have hround : roundUp x % 4096 = 0 := Nat.mul_mod_left _ _
  have hfirst : x ≤ roundUp x ∧ roundUp x < x + 4096 := by
    unfold roundUp
    omega
  have hregister := registerRegion_of_roundUp_le hend hlen h
  by_cases hzero : (x + len - roundUp x) / 4096 = 0
  · have hnone : calls [⟨x, len⟩] = [] := by
      simp [calls, hregister, hzero]
    rw [hnone]
    refine iff_of_false (by simp [pages]) ?_
    omega
  · have hsome : calls [⟨x, len⟩] =
        [(roundUp x, (x + len - roundUp x) / 4096)] := by
      simp [calls, hregister, hzero]
    rw [hsome, mem_pages]
    simp only [List.mem_singleton, exists_eq_left]
    constructor
    · rintro ⟨i, hi, rfl⟩
      omega
    · rintro ⟨haligned, hlow, hhigh⟩
      exact ⟨(page - roundUp x) / 4096, by omega, by omega⟩

theorem mem_pages_calls_span (hy : y < 4294967296) (h : Roundable x y) :
    page ∈ pages (calls [span x y]) ↔
      page % 4096 = 0 ∧ x ≤ page ∧ page + 4096 ≤ y := by
  by_cases hxy : x < y
  · have hsum : x + (y - x) = y := Nat.add_sub_cancel' hxy.le
    rw [span_of_lt hxy, mem_pages_calls_region (by omega) (by omega)
      (by rw [hsum]; exact h hxy), hsum]
  · rw [span_of_le (not_lt.mp hxy), calls_empty_cons]
    refine iff_of_false (by simp [calls, pages]) ?_
    omega

theorem exists_wild_page (hx : 0x100000 ≤ x) (hy : y < 4294967296)
    (h : ¬Roundable x y) :
    ∃ page ∈ pages (calls [span x y]),
      page = 0 ∨ 4294967296 < page + 4096 := by
  unfold Roundable at h
  push Not at h
  obtain ⟨hxy, hlt⟩ := h
  have hsum : x + (y - x) = y := Nat.add_sub_cancel' hxy.le
  have hregister : registerRegion ⟨x, y - x⟩ =
      some (wrap (roundUp x), 1048575) :=
    registerRegion_of_lt_roundUp (by omega) (by rw [hsum]; exact hlt)
  have hsome : calls [span x y] = [(wrap (roundUp x), 1048575)] := by
    rw [span_of_lt hxy]
    simp [calls, hregister]
  have hfirst : x ≤ roundUp x ∧ roundUp x < x + 4096 := by
    unfold roundUp
    omega
  have hround : roundUp x % 4096 = 0 := Nat.mul_mod_left _ _
  rw [hsome]
  by_cases hzero : wrap (roundUp x) = 0
  · refine ⟨0, mem_pages.mpr ⟨_, List.mem_singleton_self _, 0, ?_, ?_⟩,
      Or.inl rfl⟩
    · simp
    · simp [hzero]
  · refine ⟨wrap (roundUp x) + 1048574 * 4096, mem_pages.mpr
      ⟨_, List.mem_singleton_self _, 1048574, ?_, rfl⟩, Or.inr ?_⟩
    · simp
    · unfold wrap at hzero ⊢
      omega

end Pieces

/-! ## Safety -/

section Safety

variable {kernelBegin kernelEnd page : ℕ} {e : MmapEntry}
  {entries : List MmapEntry}

/-- The page lies in the part of the entry below 4 GiB. -/
def MmapEntry.Holds (e : MmapEntry) (page : ℕ) : Prop :=
  e.addr ≤ page ∧ page + archPageSize ≤ e.top

/-- The page has no byte in common with the region. -/
def MemRegion.Misses (region : MemRegion) (page : ℕ) : Prop :=
  region.len = 0 ∨ page + archPageSize ≤ region.base ∨
    region.base + region.len ≤ page

/-- The page is RAM which no exclusion covers. -/
def SafePage (kernelBegin kernelEnd : ℕ) (entries : List MmapEntry)
    (page : ℕ) : Prop :=
  (∃ e ∈ entries, e.Available ∧ e.Holds page) ∧
    ∀ region ∈ regionsToExclude kernelBegin kernelEnd, region.Misses page

/-- The entries which lead to safe pages only: an entry which reaches 4 GiB
has its first page boundary above the exclusions or at 4 GiB, and what the
exclusions leave of any other entry reaches a page boundary. -/
def Harmless (kernelBegin kernelEnd : ℕ) (e : MmapEntry) : Prop :=
  if e.top = 4294967296 then
    e.addr = 0 ∨ roundUp e.addr = 4294967296 ∨
      (0x100000 ≤ roundUp e.addr ∧
        (kernelEnd = 0 ∨ kernelBegin + kernelEnd ≤ roundUp e.addr))
  else if e.top ≤ kernelBegin ∨
      kernelBegin + kernelEnd ≤ max e.addr 0x100000 then
    Roundable (max e.addr 0x100000) e.top
  else
    Roundable (max e.addr 0x100000) kernelBegin ∧
      Roundable (kernelBegin + kernelEnd) e.top

theorem safePage_iff :
    SafePage kernelBegin kernelEnd entries page ↔
      (∃ e ∈ entries, e.Available ∧ e.Holds page) ∧ 0x100000 ≤ page ∧
        (kernelEnd = 0 ∨ page + 4096 ≤ kernelBegin ∨
          kernelBegin + kernelEnd ≤ page) := by
  simp [SafePage, regionsToExclude, MemRegion.Misses, archPageSize]

theorem not_safePage_of_wild (h : page = 0 ∨ 4294967296 < page + 4096) :
    ¬SafePage kernelBegin kernelEnd entries page := by
  rw [safePage_iff]
  rintro ⟨⟨e, -, -, -, htop⟩, hlow, -⟩
  rcases h with rfl | hhigh
  · omega
  · have hle : e.top ≤ 4294967296 := Nat.min_le_right _ _
    unfold archPageSize at htop
    omega

theorem mem_pages_entryCalls_top (htype : e.Available)
    (haddr : e.addr < 4294967296) (htop : e.top = 4294967296)
    (hzero : e.addr ≠ 0) :
    page ∈ pages (entryCalls kernelBegin kernelEnd e) ↔
      page % 4096 = 0 ∧ e.addr ≤ page ∧ page + 4096 ≤ 4294967296 := by
  have hsum : e.addr + (4294967296 - e.addr) = 4294967296 :=
    Nat.add_sub_cancel' haddr.le
  have hround : roundUp e.addr ≤ e.addr + (4294967296 - e.addr) := by
    unfold roundUp
    omega
  have hguard : ¬(e.type ≠ memoryAvailable ∨ 4294967296 ≤ e.addr ∨
      (e.addr = 0 ∧ e.top = 4294967296)) := by
    rintro (htype' | hhigh | ⟨hzero', -⟩)
    · exact htype' htype
    · omega
    · exact hzero hzero'
  rw [entryCalls, if_neg hguard, if_pos htop,
    mem_pages_calls_region (by omega) (by omega) hround, hsum]

theorem entryCalls_low (htype : e.Available) (haddr : e.addr < 4294967296)
    (htop : e.top ≠ 4294967296) :
    entryCalls kernelBegin kernelEnd e =
      calls (piecesAfter ⟨kernelBegin, kernelEnd⟩ (max e.addr 0x100000)
        e.top) := by
  rw [entryCalls, if_neg, if_neg htop]
  rintro (htype' | hhigh | ⟨-, htop'⟩)
  · exact htype' htype
  · omega
  · exact htop htop'

theorem pages_calls_pair (r r' : MemRegion) :
    pages (calls [r, r']) = pages (calls [r]) ++ pages (calls [r']) := by
  rw [calls_cons, pages_append]

theorem safe_iff_of_top (hmem : e ∈ entries) (htype : e.Available)
    (haddr : e.addr < 4294967296) (htop : e.top = 4294967296)
    (hbegin : kernelBegin + kernelEnd < 4294967296) :
    (∀ page ∈ pages (entryCalls kernelBegin kernelEnd e),
      SafePage kernelBegin kernelEnd entries page) ↔
      Harmless kernelBegin kernelEnd e := by
  unfold Harmless
  rw [if_pos htop]
  by_cases hzero : e.addr = 0
  · have hnone : entryCalls kernelBegin kernelEnd e = [] :=
      if_pos (Or.inr (Or.inr ⟨hzero, htop⟩))
    rw [hnone]
    exact iff_of_true (by simp [pages]) (Or.inl hzero)
  · have hround : roundUp e.addr % 4096 = 0 := Nat.mul_mod_left _ _
    have hfirst : e.addr ≤ roundUp e.addr ∧
        roundUp e.addr < e.addr + 4096 := by
      unfold roundUp
      omega
    constructor
    · intro hsafe
      by_contra hharm
      push Not at hharm
      obtain ⟨-, hend, hexcluded⟩ := hharm
      -- the first page which an exclusion covers
      have hpage : ∃ page, page % 4096 = 0 ∧ e.addr ≤ page ∧
          page + 4096 ≤ 4294967296 ∧ (page < 0x100000 ∨
            (kernelEnd ≠ 0 ∧ kernelBegin < page + 4096 ∧
              page < kernelBegin + kernelEnd)) := by
        by_cases hlow : roundUp e.addr < 0x100000
        · exact ⟨roundUp e.addr, hround, hfirst.1, by omega, Or.inl hlow⟩
        · obtain ⟨hne, hlt⟩ := hexcluded (by omega)
          by_cases hbelow : roundUp e.addr ≤ kernelBegin
          · exact ⟨kernelBegin / 4096 * 4096, by omega, by omega, by omega,
              Or.inr ⟨hne, by omega, by omega⟩⟩
          · exact ⟨roundUp e.addr, hround, hfirst.1, by omega,
              Or.inr ⟨hne, by omega, hlt⟩⟩
      obtain ⟨page, haligned, hge, hle, hbad⟩ := hpage
      have hpage := hsafe page
        ((mem_pages_entryCalls_top htype haddr htop hzero).mpr
          ⟨haligned, hge, hle⟩)
      rw [safePage_iff] at hpage
      omega
    · intro hharm page hpage
      rw [mem_pages_entryCalls_top htype haddr htop hzero] at hpage
      obtain ⟨haligned, hge, hle⟩ := hpage
      rw [safePage_iff]
      refine ⟨⟨e, hmem, htype, hge, ?_⟩, ?_, ?_⟩
      · rw [htop]
        exact hle
      · omega
      · omega

theorem safe_piece_iff {x y : ℕ} (hmem : e ∈ entries) (htype : e.Available)
    (hx : 0x100000 ≤ x) (haddr : e.addr ≤ x) (hy : y ≤ e.top)
    (hlow : y < 4294967296)
    (hmiss : y ≤ kernelBegin ∨ kernelBegin + kernelEnd ≤ x) :
    (∀ page ∈ pages (calls [span x y]),
      SafePage kernelBegin kernelEnd entries page) ↔ Roundable x y := by
  constructor
  · intro hsafe
    by_contra hround
    obtain ⟨page, hpage, hwild⟩ := exists_wild_page hx hlow hround
    exact not_safePage_of_wild hwild (hsafe page hpage)
  · intro hround page hpage
    obtain ⟨-, hge, hle⟩ := (mem_pages_calls_span hlow hround).mp hpage
    rw [safePage_iff]
    refine ⟨⟨e, hmem, htype, by omega, ?_⟩, by omega, by omega⟩
    unfold archPageSize
    omega

theorem safe_iff_of_low (hmem : e ∈ entries) (htype : e.Available)
    (haddr : e.addr < 4294967296) (htop : e.top ≠ 4294967296)
    (hbegin : kernelBegin + kernelEnd < 4294967296) :
    (∀ page ∈ pages (entryCalls kernelBegin kernelEnd e),
      SafePage kernelBegin kernelEnd entries page) ↔
      Harmless kernelBegin kernelEnd e := by
  have hle : e.top ≤ 4294967296 := Nat.min_le_right _ _
  have hlow : e.top < 4294967296 := lt_of_le_of_ne hle htop
  have hstop : excludeStop ⟨kernelBegin, kernelEnd⟩ =
      kernelBegin + kernelEnd := if_pos hbegin
  have huntouched : Untouched ⟨kernelBegin, kernelEnd⟩ (max e.addr 0x100000)
      e.top ↔ e.top ≤ kernelBegin ∨
        kernelBegin + kernelEnd ≤ max e.addr 0x100000 := by
    unfold Untouched
    rw [wrap_of_lt hbegin]
  rw [entryCalls_low htype haddr htop, piecesAfter, Harmless, if_neg htop]
  by_cases hempty : e.top ≤ max e.addr 0x100000
  · rw [if_pos hempty]
    refine iff_of_true (by simp [calls, pages]) ?_
    unfold Roundable
    split <;> omega
  · rw [if_neg hempty]
    by_cases hcut : e.top ≤ kernelBegin ∨
        kernelBegin + kernelEnd ≤ max e.addr 0x100000
    · rw [if_pos (huntouched.mpr hcut), if_pos hcut]
      exact safe_piece_iff hmem htype (by omega) (by omega) le_rfl hlow hcut
    · rw [if_neg (huntouched.not.mpr hcut), if_neg hcut, hstop,
        pages_calls_pair]
      simp only [List.mem_append, or_imp, forall_and]
      exact and_congr
        (safe_piece_iff hmem htype (by omega) (by omega) (by omega)
          (by omega) (Or.inl le_rfl))
        (safe_piece_iff hmem htype (by omega) (by omega) le_rfl hlow
          (Or.inr le_rfl))

theorem pages_flatMap (f : MmapEntry → List (ℕ × ℕ)) :
    pages (entries.flatMap f) = entries.flatMap fun e => pages (f e) := by
  induction entries with
  | nil => rfl
  | cons e rest ih =>
      rw [List.flatMap_cons, pages_append, ih, List.flatMap_cons]

theorem entryCalls_of_not_available (h : ¬e.Available) :
    entryCalls kernelBegin kernelEnd e = [] :=
  if_pos (Or.inl h)

theorem entryCalls_of_high (h : 4294967296 ≤ e.addr) :
    entryCalls kernelBegin kernelEnd e = [] :=
  if_pos (Or.inr (Or.inl h))

/-- For every memory map, the pages which are passed to `pmm_register_mem`
are all safe iff every available entry below 4 GiB is harmless. -/
theorem memMap_safe_iff (hvalid : ∀ e ∈ entries, e.Valid)
    (hkernel : kernelBegin + kernelEnd < 4294967296) :
    ∃ calls, processMemMap kernelBegin kernelEnd entries = .ok calls ∧
      ((∀ page ∈ pages calls,
        SafePage kernelBegin kernelEnd entries page) ↔
      ∀ e ∈ entries, e.Available → e.addr < 4294967296 →
        Harmless kernelBegin kernelEnd e) := by
  refine ⟨_, processMemMap_eq fun e he htype haddr =>
    excludeRegions_eq (hvalid e he) haddr htype (by omega), ?_⟩
  simp only [pages_flatMap, List.mem_flatMap, forall_exists_index, and_imp]
  have hentry : ∀ e ∈ entries, e.Available → e.addr < 4294967296 →
      ((∀ page ∈ pages (entryCalls kernelBegin kernelEnd e),
        SafePage kernelBegin kernelEnd entries page) ↔
        Harmless kernelBegin kernelEnd e) := by
    intro e he htype haddr
    by_cases htop : e.top = 4294967296
    · exact safe_iff_of_top he htype haddr htop hkernel
    · exact safe_iff_of_low he htype haddr htop hkernel
  constructor
  · intro hsafe e he htype haddr
    exact (hentry e he htype haddr).mp fun page hpage => hsafe page e he hpage
  · intro hharmless page e he hpage
    by_cases htype : e.Available
    · by_cases haddr : e.addr < 4294967296
      · exact (hentry e he htype haddr).mpr (hharmless e he htype haddr)
          page hpage
      · rw [entryCalls_of_high (not_lt.mp haddr)] at hpage
        simp [pages] at hpage
    · rw [entryCalls_of_not_available htype] at hpage
      simp [pages] at hpage

/-- A kernel of 4 MiB at 1 MiB and 128 MiB of RAM. -/
theorem memMap_safe_of_128_mib :
    ∃ calls, processMemMap 0x100000 0x500000 [⟨0, 0x8000000, 1⟩] =
        .ok calls ∧
      ∀ page ∈ pages calls,
        SafePage 0x100000 0x500000 [⟨0, 0x8000000, 1⟩] page := by
  obtain ⟨calls, hcalls, hiff⟩ := @memMap_safe_iff 0x100000 0x500000
    [⟨0, 0x8000000, 1⟩] (by simp; constructor <;> decide) (by decide)
  refine ⟨calls, hcalls, hiff.mpr ?_⟩
  intro e he _ _
  rw [List.mem_singleton] at he
  subst he
  simp [Harmless, Roundable, roundUp, MmapEntry.top]

/-- Sixteen bytes of RAM make a call for almost 4 GiB. -/
theorem memMap_unsafe_of_tiny_entry :
    processMemMap 0x100000 0x500000 [⟨0x7fe0010, 0x10, 1⟩] =
        .ok [(0x7fe1000, 1048575)] ∧
      0x7fe1000 ∈ pages [(0x7fe1000, 1048575)] ∧
      ¬SafePage 0x100000 0x500000 [⟨0x7fe0010, 0x10, 1⟩] 0x7fe1000 := by
  refine ⟨by decide, mem_pages.mpr
    ⟨_, List.mem_singleton_self _, 0, by decide, by decide⟩, ?_⟩
  rw [safePage_iff]
  rintro ⟨⟨e, he, -, -, htop⟩, -⟩
  rw [List.mem_singleton] at he
  subst he
  simp [MmapEntry.top, archPageSize] at htop

end Safety

/-! ## Completeness -/

section Completeness

variable {kernelBegin kernelEnd page : ℕ} {e : MmapEntry}
  {entries : List MmapEntry}

/-- Whole pages below 4 GiB. -/
structure MmapEntry.Aligned (e : MmapEntry) : Prop where
  addr : e.addr % 4096 = 0
  len : e.len % 4096 = 0
  below : e.addr + e.len ≤ 4294967296

/-- A page-aligned place of the kernel image. -/
structure KernelPlace (kernelBegin kernelEnd : ℕ) : Prop where
  aligned : kernelBegin % 4096 = 0
  endAligned : kernelEnd % 4096 = 0
  ordered : kernelBegin ≤ kernelEnd
  below : kernelEnd < 4294967296

/-- A page of RAM outside of the first MiB and the kernel image. -/
structure Wanted (kernelBegin kernelEnd : ℕ) (entries : List MmapEntry)
    (page : ℕ) : Prop where
  aligned : page % 4096 = 0
  ram : ∃ e ∈ entries, e.Available ∧ e.Holds page
  above : 0x100000 ≤ page
  outside : page + archPageSize ≤ kernelBegin ∨ kernelEnd ≤ page

/-- The entry's own page is not cut out with the kernel, whose region in the
table is as long as its end address says. -/
def Keeps (kernelBegin kernelEnd : ℕ) (e : MmapEntry) (page : ℕ) : Prop :=
  if e.top = 4294967296 then e.addr ≠ 0
  else page < kernelBegin ∨
    if kernelBegin + kernelEnd < 4294967296 then
      kernelBegin + kernelEnd ≤ page
    else kernelBegin + kernelEnd ≤ 4294967296 + max e.addr 0x100000

theorem roundable_of_aligned {x : ℕ} (hx : x % 4096 = 0) (y : ℕ) :
    Roundable x y := by
  intro hxy
  unfold roundUp
  omega

theorem roundable_excludeStop (hplace : KernelPlace kernelBegin kernelEnd)
    {y : ℕ} (hy : y < 4294967296) :
    Roundable (excludeStop ⟨kernelBegin, kernelEnd⟩) y := by
  have haligned := hplace.aligned
  have hend := hplace.endAligned
  unfold excludeStop
  dsimp only
  split
  next => exact roundable_of_aligned (by omega) y
  next =>
    intro hlt
    unfold sizeMax at hlt
    omega

theorem mem_pages_entryCalls_low (hplace : KernelPlace kernelBegin kernelEnd)
    (htype : e.Available) (haligned : e.Aligned)
    (haddr : e.addr < 4294967296) (htop : e.top ≠ 4294967296) :
    page ∈ pages (entryCalls kernelBegin kernelEnd e) ↔
      page % 4096 = 0 ∧ max e.addr 0x100000 ≤ page ∧ page + 4096 ≤ e.top ∧
        (Untouched ⟨kernelBegin, kernelEnd⟩ (max e.addr 0x100000) e.top ∨
          page + 4096 ≤ kernelBegin ∨
          excludeStop ⟨kernelBegin, kernelEnd⟩ ≤ page) := by
  have haddrAligned := haligned.addr
  have hbegin := hplace.aligned
  have hle : e.top ≤ 4294967296 := Nat.min_le_right _ _
  have hlow : e.top < 4294967296 := lt_of_le_of_ne hle htop
  have hstart : max e.addr 0x100000 % 4096 = 0 := by omega
  rw [entryCalls_low htype haddr htop, piecesAfter]
  by_cases hempty : e.top ≤ max e.addr 0x100000
  · rw [if_pos hempty]
    refine iff_of_false (by simp [calls, pages]) ?_
    omega
  · rw [if_neg hempty]
    by_cases huntouched : Untouched ⟨kernelBegin, kernelEnd⟩
        (max e.addr 0x100000) e.top
    · rw [if_pos huntouched, mem_pages_calls_span hlow
        (roundable_of_aligned hstart _)]
      simp only [huntouched, true_or, and_true]
    · have hbegin : kernelBegin < e.top := by
        by_contra hle
        exact huntouched (Or.inl (not_lt.mp hle))
      have hstop : max e.addr 0x100000 ≤
          excludeStop ⟨kernelBegin, kernelEnd⟩ := by
        have hwrap : ¬wrap (kernelBegin + kernelEnd) ≤
            max e.addr 0x100000 := fun hle => huntouched (Or.inr hle)
        unfold excludeStop
        dsimp only
        split
        next hfits =>
          rw [wrap_of_lt hfits] at hwrap
          omega
        next =>
          unfold sizeMax
          omega
      have hlowBegin : kernelBegin < 4294967296 := by omega
      rw [if_neg huntouched, pages_calls_pair, List.mem_append,
        mem_pages_calls_span hlowBegin (roundable_of_aligned hstart _),
        mem_pages_calls_span hlow (roundable_excludeStop hplace hlow)]
      simp only [huntouched, false_or]
      omega

/-- Of the wanted pages of an entry, exactly those which it keeps are
passed. -/
theorem mem_pages_entryCalls_iff
    (hplace : KernelPlace kernelBegin kernelEnd) (htype : e.Available)
    (haligned : e.Aligned) (hpage : page % 4096 = 0)
    (hholds : e.Holds page) (habove : 0x100000 ≤ page) :
    page ∈ pages (entryCalls kernelBegin kernelEnd e) ↔
      Keeps kernelBegin kernelEnd e page := by
  obtain ⟨hge, hle⟩ := hholds
  have hbelow : e.top ≤ 4294967296 := Nat.min_le_right _ _
  have hbegin := hplace.aligned
  unfold archPageSize at hle
  unfold Keeps
  by_cases htop : e.top = 4294967296
  · rw [if_pos htop]
    by_cases hzero : e.addr = 0
    · have hnone : entryCalls kernelBegin kernelEnd e = [] :=
        if_pos (Or.inr (Or.inr ⟨hzero, htop⟩))
      rw [hnone]
      exact iff_of_false (by simp [pages]) (not_not.mpr hzero)
    · rw [mem_pages_entryCalls_top htype (by omega) htop hzero]
      exact iff_of_true ⟨hpage, hge, by omega⟩ hzero
  · rw [if_neg htop, mem_pages_entryCalls_low hplace htype haligned
      (by omega) htop]
    have hend := hplace.below
    unfold Untouched excludeStop
    dsimp only
    split
    next hfits =>
      rw [wrap_of_lt hfits]
      omega
    next hwraps =>
      unfold wrap sizeMax
      omega

theorem nodup_pages_region (region : MemRegion) :
    (pages (calls [region])).Nodup := by
  cases hcall : registerRegion region with
  | none => simp [calls, pages, hcall]
  | some call =>
      have hpages : pages (calls [region]) =
          (List.range call.2).map fun i => call.1 + i * archPageSize := by
        simp [calls, pages, hcall]
      rw [hpages]
      refine List.nodup_range.map ?_
      intro i j hij
      simp only [archPageSize] at hij
      omega

theorem nodup_pages_entryCalls (hplace : KernelPlace kernelBegin kernelEnd)
    (haligned : e.Available → e.Aligned) :
    (pages (entryCalls kernelBegin kernelEnd e)).Nodup := by
  unfold entryCalls
  split
  next => simp [pages]
  next hguard =>
    push Not at hguard
    obtain ⟨htype, haddr, -⟩ := hguard
    split
    next => exact nodup_pages_region _
    next htop =>
      have hle : e.top ≤ 4294967296 := Nat.min_le_right _ _
      have hlow : e.top < 4294967296 := lt_of_le_of_ne hle htop
      have haddrAligned := (haligned htype).addr
      have hbegin := hplace.aligned
      unfold piecesAfter
      split
      next => simp [calls, pages]
      next hne =>
        split
        next => exact nodup_pages_region _
        next huntouched =>
          have hbeginLow : kernelBegin < e.top := by
            by_contra hge
            exact huntouched (Or.inl (not_lt.mp hge))
          rw [pages_calls_pair]
          refine (nodup_pages_region _).append (nodup_pages_region _) ?_
          intro page hpage hpage'
          have hlowBegin : kernelBegin < 4294967296 := by omega
          rw [mem_pages_calls_span hlowBegin
            (roundable_of_aligned (by omega) _)] at hpage
          rw [mem_pages_calls_span hlow
            (roundable_excludeStop hplace hlow)] at hpage'
          have hstop : kernelBegin ≤
              excludeStop ⟨kernelBegin, kernelEnd⟩ := by
            unfold excludeStop sizeMax
            dsimp only
            split <;> omega
          have hend := hpage.2.2
          have hstart := hpage'.2.1
          omega

theorem holds_of_mem_pages (hplace : KernelPlace kernelBegin kernelEnd)
    (haligned : e.Available → e.Aligned)
    (hpage : page ∈ pages (entryCalls kernelBegin kernelEnd e)) :
    e.Available ∧ e.Holds page := by
  by_cases htype : e.Available
  · refine ⟨htype, ?_⟩
    unfold MmapEntry.Holds archPageSize
    by_cases haddr : e.addr < 4294967296
    · by_cases htop : e.top = 4294967296
      · by_cases hzero : e.addr = 0
        · have hnone : entryCalls kernelBegin kernelEnd e = [] :=
            if_pos (Or.inr (Or.inr ⟨hzero, htop⟩))
          rw [hnone] at hpage
          simp [pages] at hpage
        · rw [mem_pages_entryCalls_top htype haddr htop hzero] at hpage
          omega
      · rw [mem_pages_entryCalls_low hplace htype (haligned htype) haddr
          htop] at hpage
        omega
    · rw [entryCalls_of_high (not_lt.mp haddr)] at hpage
      simp [pages] at hpage
  · rw [entryCalls_of_not_available htype] at hpage
    simp [pages] at hpage

/-- An empty entry leads to no call. -/
theorem excludeRegions_of_empty (haligned : e.Aligned) (hlen : e.len = 0)
    (haddr : e.addr < 4294967296) :
    ∃ regions, excludeRegions kernelBegin kernelEnd
        (limitTo32bitAddr e.addr e.len).2 = .ok regions ∧
      calls regions = entryCalls kernelBegin kernelEnd e := by
  have hround : roundUp e.addr ≤ e.addr + 0 := by
    have haligned := haligned.addr
    unfold roundUp
    omega
  have hlimited : (limitTo32bitAddr e.addr e.len).2 = ⟨e.addr, 0⟩ := by
    unfold limitTo32bitAddr wrap
    rw [hlen, if_neg (by omega)]
    split
    next hlast =>
      simp only [MemRegion.mk.injEq, true_and]
      omega
    next hlast =>
      simp only [MemRegion.mk.injEq, true_and]
      omega
  refine ⟨[⟨e.addr, 0⟩], ?_, ?_⟩
  · rw [hlimited]
    exact excludeRegions_same fun _ => excludeFromSlot_zero e.addr
  · have hregister := registerRegion_of_roundUp_le (by omega) (by omega) hround
    have htop : e.top = e.addr := by
      unfold MmapEntry.top
      omega
    have hnone : piecesAfter ⟨kernelBegin, kernelEnd⟩ (max e.addr 0x100000)
        e.top = [] := if_pos (by omega)
    have hcalls : calls [⟨e.addr, 0⟩] = [] := by
      rw [if_pos (by unfold roundUp; omega)] at hregister
      simp [calls, hregister]
    rw [hcalls, entryCalls, hnone, if_neg (show ¬e.top = 4294967296 by omega)]
    split <;> rfl

theorem excludeRegions_of_aligned (hplace : KernelPlace kernelBegin kernelEnd)
    (haligned : e.Aligned) (htype : e.type = memoryAvailable)
    (haddr : e.addr < 4294967296) :
    ∃ regions, excludeRegions kernelBegin kernelEnd
        (limitTo32bitAddr e.addr e.len).2 = .ok regions ∧
      calls regions = entryCalls kernelBegin kernelEnd e := by
  rcases Nat.eq_zero_or_pos e.len with hlen | hpos
  · exact excludeRegions_of_empty haligned hlen haddr
  · have hbelow := haligned.below
    exact excludeRegions_eq ⟨hpos, by omega⟩ haddr htype hplace.below

/-- The available entries have no byte in common. -/
def EntriesApart (entries : List MmapEntry) : Prop :=
  entries.Pairwise fun e e' => e.Available → e'.Available →
    e.addr + e.len ≤ e'.addr ∨ e'.addr + e'.len ≤ e.addr

theorem nodup_pages (hplace : KernelPlace kernelBegin kernelEnd)
    (haligned : ∀ e ∈ entries, e.Available → e.Aligned)
    (hapart : EntriesApart entries) :
    (pages (entries.flatMap (entryCalls kernelBegin kernelEnd))).Nodup := by
  rw [pages_flatMap, List.nodup_flatMap]
  refine ⟨fun e he => nodup_pages_entryCalls hplace (haligned e he), ?_⟩
  refine hapart.imp_of_mem fun {e e'} he he' hdisj page hpage hpage' => ?_
  obtain ⟨htype, hge, hle⟩ := holds_of_mem_pages hplace (haligned e he) hpage
  obtain ⟨htype', hge', hle'⟩ :=
    holds_of_mem_pages hplace (haligned e' he') hpage'
  have htop : e.top ≤ e.addr + e.len := Nat.min_le_left _ _
  have htop' : e'.top ≤ e'.addr + e'.len := Nat.min_le_left _ _
  have hcases := hdisj htype htype'
  unfold archPageSize at hle hle'
  omega

/-- For every map of whole pages, every wanted page is passed, and once if the
entries are disjoint, iff some entry which holds it keeps it. -/
theorem memMap_complete_iff (hplace : KernelPlace kernelBegin kernelEnd)
    (haligned : ∀ e ∈ entries, e.Available → e.Aligned) :
    ∃ calls, processMemMap kernelBegin kernelEnd entries = .ok calls ∧
      (((∀ page, Wanted kernelBegin kernelEnd entries page →
          page ∈ pages calls) ∧
        (EntriesApart entries →
          ∀ page, Wanted kernelBegin kernelEnd entries page →
            (pages calls).count page = 1)) ↔
      ∀ page, Wanted kernelBegin kernelEnd entries page →
        ∃ e ∈ entries, e.Available ∧ e.Holds page ∧
          Keeps kernelBegin kernelEnd e page) := by
  refine ⟨_, processMemMap_eq fun e he htype haddr =>
    excludeRegions_of_aligned hplace (haligned e he htype) htype haddr, ?_⟩
  have hmem : ∀ page, Wanted kernelBegin kernelEnd entries page →
      (page ∈ pages (entries.flatMap (entryCalls kernelBegin kernelEnd)) ↔
        ∃ e ∈ entries, e.Available ∧ e.Holds page ∧
          Keeps kernelBegin kernelEnd e page) := by
    intro page hwanted
    rw [pages_flatMap, List.mem_flatMap]
    refine exists_congr fun e => and_congr_right fun he => ?_
    constructor
    · intro hpage
      obtain ⟨htype, hholds⟩ :=
        holds_of_mem_pages hplace (haligned e he) hpage
      exact ⟨htype, hholds, (mem_pages_entryCalls_iff hplace htype
        (haligned e he htype) hwanted.aligned hholds hwanted.above).mp hpage⟩
    · rintro ⟨htype, hholds, hkeeps⟩
      exact (mem_pages_entryCalls_iff hplace htype (haligned e he htype)
        hwanted.aligned hholds hwanted.above).mpr hkeeps
  constructor
  · rintro ⟨hall, -⟩ page hwanted
    exact (hmem page hwanted).mp (hall page hwanted)
  · intro hkeeps
    refine ⟨fun page hwanted => (hmem page hwanted).mpr
      (hkeeps page hwanted), fun hapart page hwanted => ?_⟩
    exact List.count_eq_one_of_mem (nodup_pages hplace haligned hapart)
      ((hmem page hwanted).mpr (hkeeps page hwanted))

end Completeness

/-- RAM around a kernel of 4 MiB, and from 6 MiB on.  Of the first entry
everything is cut out. -/
def ramAroundKernel : List MmapEntry :=
  [⟨0, 0x500000, 1⟩, ⟨0x500000, 0x100000, 2⟩, ⟨0x600000, 0x1000000, 1⟩]

/-- Every page behind the kernel's region in the table is passed once. -/
theorem memMap_complete_around_kernel :
    ∃ calls, processMemMap 0x100000 0x500000 ramAroundKernel = .ok calls ∧
      ∀ page, Wanted 0x100000 0x500000 ramAroundKernel page →
        (pages calls).count page = 1 := by
  have haligned : ∀ e ∈ ramAroundKernel, e.Available → e.Aligned := by
    simp only [ramAroundKernel, List.mem_cons, List.not_mem_nil, or_false]
    rintro e (rfl | rfl | rfl) - <;> constructor <;> decide
  have hapart : EntriesApart ramAroundKernel := by
    simp [EntriesApart, ramAroundKernel]
  obtain ⟨calls, hcalls, hiff⟩ := memMap_complete_iff
    (show KernelPlace 0x100000 0x500000 by constructor <;> decide) haligned
  refine ⟨calls, hcalls, (hiff.mpr ?_).2 hapart⟩
  intro page hwanted
  obtain ⟨e, he, htype, hge, hle⟩ := hwanted.ram
  refine ⟨e, he, htype, ⟨hge, hle⟩, ?_⟩
  have habove := hwanted.above
  have houtside := hwanted.outside
  simp only [ramAroundKernel, List.mem_cons, List.not_mem_nil, or_false]
    at he
  unfold archPageSize at hle houtside
  rcases he with rfl | rfl | rfl
  · -- all of it lies in the first MiB or in the kernel
    simp only [MmapEntry.top] at hle
    omega
  · cases htype
  · simp only [Keeps, MmapEntry.top] at hge ⊢
    norm_num
    omega

/-- The page after a kernel image of 4 MiB is not passed. -/
theorem memMap_loses_page_after_kernel :
    processMemMap 0x100000 0x500000 [⟨0, 0x8000000, 1⟩] =
        .ok [(0x600000, 31232)] ∧
      Wanted 0x100000 0x500000 [⟨0, 0x8000000, 1⟩] 0x500000 ∧
      0x500000 ∉ pages [(0x600000, 31232)] := by
  refine ⟨by decide, ⟨by decide, ⟨_, List.mem_singleton_self _, rfl, ?_, ?_⟩,
    by decide, Or.inr le_rfl⟩, ?_⟩
  · simp
  · simp [MmapEntry.top, archPageSize]
  · rw [mem_pages]
    rintro ⟨call, hcall, i, -, heq⟩
    rw [List.mem_singleton] at hcall
    subst hcall
    simp only at heq
    omega

end BootInfo
end Yjkos
