import Mathlib.Data.Set.Basic
import Mathlib.Tactic
import Mathlib.Order.CompletePartialOrder
import Yjkos.Tlb

/-!
# Remapping and unmapping

`arch_mmu_remap` and `arch_mmu_unmap` look at every page of the range before
they change one.  An entry of the directory is an entry of the recursive slot
too, so a range in that slot changes how the pages of other slots are reached.
-/

namespace Yjkos
namespace Mmu

/-- The numbers of the pages of a range. -/
def pagesOf (virtBase pageCount : ℕ) : Set ℕ :=
  Set.Ico (virtBase / archPageSize) (virtBase / archPageSize + pageCount)

/-- The page through which the page table of `virt` is seen. -/
def tablePage (virt : ℕ) : ℕ :=
  pagedirPde * 4194304 + pdeIndex virt * archPageSize

/-- The entries of the pages in `pages` are passed through `f`, and no other
entry changes. -/
structure Tables.Rewrites (m m' : Tables) (pages : Set ℕ)
    (f : BitVec 32 → BitVec 32) : Prop where
  inside : ∀ p < 4294967296, p / archPageSize ∈ pages →
    m'.pageEntry p = f (m.pageEntry p)
  outside : ∀ p < 4294967296, p / archPageSize ∉ pages →
    m'.pageEntry p = m.pageEntry p

section Rewrites

variable {m m' m'' : Tables} {pages pages' : Set ℕ}
  {f : BitVec 32 → BitVec 32} {virt : ℕ}

theorem Tables.Rewrites.refl (m : Tables) (f : BitVec 32 → BitVec 32) :
    m.Rewrites m ∅ f :=
  ⟨fun _ _ hmem => hmem.elim, fun _ _ _ => rfl⟩

theorem Tables.Rewrites.trans (h : m.Rewrites m' pages f)
    (h' : m'.Rewrites m'' pages' f) (hdisjoint : Disjoint pages pages') :
    m.Rewrites m'' (pages ∪ pages') f := by
  constructor
  · rintro p hp (hmem | hmem)
    · have hother := Set.disjoint_left.mp hdisjoint hmem
      rw [h'.outside p hp hother, h.inside p hp hmem]
    · have hother := Set.disjoint_right.mp hdisjoint hmem
      rw [h'.inside p hp hmem, h.outside p hp hother]
  · intro p hp hmem
    rw [Set.mem_union, not_or] at hmem
    rw [h'.outside p hp hmem.2, h.outside p hp hmem.1]

theorem pageEntry_setEntry (m : Tables) (value : BitVec 32)
    (hvirt : virt < 4294967296) {p : ℕ} (hp : p < 4294967296) :
    (m.setEntry (pdeIndex virt) (pteIndex virt) value).pageEntry p =
      if p / archPageSize = virt / archPageSize then value
      else m.pageEntry p := by
  have hiff : p / archPageSize = virt / archPageSize ↔
      pdeIndex p = pdeIndex virt ∧ pteIndex p = pteIndex virt := by
    rw [pdeIndex_eq hp, pdeIndex_eq hvirt, pteIndex_eq, pteIndex_eq]
    unfold archPageSize
    omega
  simp only [hiff, Tables.pageEntry, Tables.entry, Tables.setEntry]
  by_cases hslot : pdeIndex virt = pagedirPde
  · by_cases hpde : pdeIndex p = pagedirPde
    · simp [hslot, hpde, Function.update_apply]
    · simp [hslot, hpde]
  · by_cases hpde : pdeIndex p = pdeIndex virt
    · simp [hslot, hpde, Function.update_apply]
    · simp [hslot, hpde]

theorem rewrites_setEntry (m : Tables) (f : BitVec 32 → BitVec 32)
    (hvirt : virt < 4294967296) :
    m.Rewrites (m.setEntry (pdeIndex virt) (pteIndex virt)
      (f (m.pageEntry virt))) {virt / archPageSize} f := by
  constructor
  · intro p hp hmem
    have hpage : p / archPageSize = virt / archPageSize := hmem
    have hsame : m.pageEntry p = m.pageEntry virt := by
      unfold archPageSize at hpage
      rw [← pageEntry_page m hp, hpage, pageEntry_page m hvirt]
    rw [pageEntry_setEntry m _ hvirt hp, if_pos hpage, hsame]
  · intro p hp hmem
    have hpage : p / archPageSize ≠ virt / archPageSize := hmem
    rw [pageEntry_setEntry m _ hvirt hp, if_neg hpage]

theorem Tables.Rewrites.flushTlbFor (h : m.Rewrites m' pages f) (ptr : ℕ) :
    m.Rewrites (flushTlbFor m' ptr) pages f :=
  ⟨h.inside, h.outside⟩

/-! ## The loops -/

theorem pagesOf_zero (virtBase : ℕ) : pagesOf virtBase 0 = ∅ := by
  simp [pagesOf]

theorem pagesOf_succ (virtBase count : ℕ) :
    pagesOf virtBase (count + 1) =
      {virtBase / archPageSize} ∪ pagesOf (virtBase + archPageSize) count := by
  ext page
  simp only [pagesOf, archPageSize, Set.mem_Ico, Set.mem_union,
    Set.mem_singleton_iff]
  omega

theorem disjoint_pagesOf (virtBase count : ℕ) :
    Disjoint {virtBase / archPageSize}
      (pagesOf (virtBase + archPageSize) count) := by
  rw [Set.disjoint_singleton_left]
  simp only [pagesOf, archPageSize, Set.mem_Ico]
  omega

theorem virt_succ (virtBase i : ℕ) :
    virtBase + (i + 1) * archPageSize =
      virtBase + i * archPageSize + archPageSize := by
  rw [Nat.add_mul, Nat.one_mul, Nat.add_assoc]

theorem room_succ {virtBase i left : ℕ}
    (hroom : virtBase + (i + (left + 1)) * archPageSize ≤ sizeMax) :
    virtBase + (i + 1 + left) * archPageSize ≤ sizeMax := by
  rwa [show i + 1 + left = i + (left + 1) by omega]

theorem rewrites_remapSinglePage (m : Tables) (flags : BitVec 8)
    (userAccess : Bool) (hvirt : virt < 4294967296) :
    m.Rewrites (remapSinglePage m virt flags userAccess)
      {virt / archPageSize} (remappedEntry · flags userAccess) := by
  have hset := rewrites_setEntry m (remappedEntry · flags userAccess) hvirt
  unfold remapSinglePage
  dsimp only
  split
  · exact hset.flushTlbFor virt
  · exact hset

theorem remapPages_rewrites {virtBase : ℕ} (flags : BitVec 8)
    (userAccess : Bool) {left i : ℕ} (m : Tables)
    (hroom : virtBase + (i + left) * archPageSize ≤ sizeMax) :
    m.Rewrites (remapPages virtBase flags userAccess left i m)
      (pagesOf (virtBase + i * archPageSize) left)
      (remappedEntry · flags userAccess) := by
  induction left generalizing i m with
  | zero =>
      rw [pagesOf_zero]
      exact Tables.Rewrites.refl m _
  | succ left ih =>
      have hvirt : virtBase + i * archPageSize < 4294967296 := by
        unfold archPageSize at hroom ⊢
        unfold sizeMax at hroom
        omega
      have hrest := ih (i := i + 1)
        (remapSinglePage m (virtBase + i * archPageSize) flags userAccess)
        (room_succ hroom)
      rw [virt_succ] at hrest
      rw [remapPages, pagesOf_succ]
      exact (rewrites_remapSinglePage m flags userAccess hvirt).trans hrest
        (disjoint_pagesOf _ left)

theorem unmapPages_rewrites {virtBase left i : ℕ} (m : Tables)
    (hroom : virtBase + (i + left) * archPageSize ≤ sizeMax) :
    m.Rewrites (unmapPages virtBase left i m)
      (pagesOf (virtBase + i * archPageSize) left) (fun _ => 0) := by
  induction left generalizing i m with
  | zero =>
      rw [pagesOf_zero]
      exact Tables.Rewrites.refl m _
  | succ left ih =>
      have hvirt : virtBase + i * archPageSize < 4294967296 := by
        unfold archPageSize at hroom ⊢
        unfold sizeMax at hroom
        omega
      have hone := (rewrites_setEntry m (fun _ => 0) hvirt).flushTlbFor
        (virtBase + i * archPageSize)
      have hrest := fun m₁ => ih (i := i + 1) m₁ (room_succ hroom)
      rw [virt_succ] at hrest
      rw [unmapPages, pagesOf_succ]
      exact hone.trans (hrest _) (disjoint_pagesOf _ left)

end Rewrites

/-! ## Entries after the loops -/

section Entries

variable {m m' : Tables} {pages : Set ℕ} {p : ℕ}

theorem pagedir_eq_pageEntry (m : Tables) (hp : p < 4294967296) :
    m.pagedir (pdeIndex p) = m.pageEntry (tablePage p) := by
  have hpde : pdeIndex p < 1024 := by
    rw [pdeIndex_eq hp]
    omega
  have hpage : tablePage p = 4290772992 + pdeIndex p * 4096 := rfl
  have hslot : pdeIndex (tablePage p) = pagedirPde := by
    rw [pdeIndex_eq (by omega), hpage]
    unfold pagedirPde entryCount
    omega
  have hindex : pteIndex (tablePage p) = pdeIndex p := by
    rw [pteIndex_eq, hpage]
    omega
  rw [Tables.pageEntry, Tables.entry, if_pos hslot, hindex]

theorem tablePage_lt (hp : p < 4294967296) : tablePage p < 4294967296 := by
  have hpde := pdeIndex_eq hp
  unfold tablePage pagedirPde entryCount archPageSize
  omega

/-- A page is translated if its directory entry and its own entry are
present. -/
theorem translates_iff_entries (m : Tables) (hp : p < 4294967296) :
    m.Translates p ↔ has (m.pageEntry (tablePage p)) flagP = true ∧
      has (m.pageEntry p) flagP = true := by
  rw [← pagedir_eq_pageEntry m hp]
  unfold Tables.Translates archMmuVirtualToPhysical Tables.pageEntry
  cases has (m.pagedir (pdeIndex p)) flagP <;>
    cases hentry : has (m.entry (pdeIndex p) (pteIndex p)) flagP <;>
    simp [hentry]

theorem checkPresence_iff (m : Tables) (hp : p < 4294967296) :
    checkPresence m p = .ok () ↔ m.Translates p := by
  rw [translates_iff_entries m hp, ← pagedir_eq_pageEntry m hp]
  exact checkPresence_eq_ok

theorem translates_congr_page {q : ℕ} (hp : p < 4294967296)
    (hq : q < 4294967296) (hpage : p / archPageSize = q / archPageSize) :
    m.Translates p ↔ m.Translates q := by
  have htable : tablePage p = tablePage q := by
    have hslot : p / 4194304 = q / 4194304 := by
      unfold archPageSize at hpage
      omega
    rw [tablePage, tablePage, pdeIndex_eq hp, pdeIndex_eq hq, hslot]
  have hentry : m.pageEntry p = m.pageEntry q := by
    unfold archPageSize at hpage
    rw [← pageEntry_page m hp, hpage, pageEntry_page m hq]
  rw [translates_iff_entries m hp, translates_iff_entries m hq, htable,
    hentry]

/-- Below the frame the new entry keeps the present flag and has the flags
which are asked for. -/
theorem getLsbD_remappedEntry (oldpte : BitVec 32) (flags : BitVec 8)
    (userAccess : Bool) {i : ℕ} (hi : i < 12) :
    (remappedEntry oldpte flags userAccess).getLsbD i =
      (oldpte.getLsbD i && decide (i = 0) ||
        hasProt flags mapProtWrite && decide (i = 1) ||
        hasProt flags mapProtNocache && decide (i = 4) ||
        userAccess && decide (i = 2)) := by
  have hmask : (~~~(0xfff#32 &&& ~~~flagP)).getLsbD i = decide (i = 0) := by
    interval_cases i <;> rfl
  have hwrite : ∀ c : Bool, (if c then flagRw else 0).getLsbD i =
      (c && decide (i = 1)) := by
    interval_cases i <;> decide
  have hnocache : ∀ c : Bool, (if c then flagPcd else 0).getLsbD i =
      (c && decide (i = 4)) := by
    interval_cases i <;> decide
  have huser : ∀ c : Bool, (if c then flagUs else 0).getLsbD i =
      (c && decide (i = 2)) := by
    interval_cases i <;> decide
  rw [remappedEntry, BitVec.getLsbD_or, BitVec.getLsbD_or, BitVec.getLsbD_or,
    BitVec.getLsbD_and, hmask, hwrite, hnocache, huser]

theorem has_flagP_remappedEntry (oldpte : BitVec 32) (flags : BitVec 8)
    (userAccess : Bool) :
    has (remappedEntry oldpte flags userAccess) flagP = has oldpte flagP := by
  rw [has_flagP, has_flagP, getLsbD_remappedEntry _ _ _ (by decide)]
  simp

theorem has_flagRw_remappedEntry (oldpte : BitVec 32) (flags : BitVec 8)
    (userAccess : Bool) :
    has (remappedEntry oldpte flags userAccess) flagRw =
      hasProt flags mapProtWrite := by
  rw [has_flagRw, getLsbD_remappedEntry _ _ _ (by decide)]
  simp

theorem has_flagPcd (entry : BitVec 32) :
    has entry flagPcd = entry.getLsbD 4 :=
  has_twoPow entry (i := 4) (by decide)

theorem has_flagPcd_remappedEntry (oldpte : BitVec 32) (flags : BitVec 8)
    (userAccess : Bool) :
    has (remappedEntry oldpte flags userAccess) flagPcd =
      hasProt flags mapProtNocache := by
  rw [has_flagPcd, getLsbD_remappedEntry _ _ _ (by decide)]
  simp

theorem has_flagUs_remappedEntry (oldpte : BitVec 32) (flags : BitVec 8)
    (userAccess : Bool) :
    has (remappedEntry oldpte flags userAccess) flagUs = userAccess := by
  rw [has_flagUs, getLsbD_remappedEntry _ _ _ (by decide)]
  simp

end Entries

/-! ## All or nothing -/

/-- Every page is translated. -/
def Tables.AllPresent (m : Tables) (pages : Set ℕ) : Prop :=
  ∀ p < 4294967296, p / archPageSize ∈ pages → m.Translates p

/-- The pages are translated to the frames they had, with exactly the wanted
bits, and every other entry is as it was. -/
structure Tables.Remapped (m m' : Tables) (pages : Set ℕ) (flags : BitVec 8)
    (userAccess : Bool) : Prop where
  present : m'.AllPresent pages
  frame : ∀ p < 4294967296, p / archPageSize ∈ pages →
    frameOf (m'.pageEntry p) = frameOf (m.pageEntry p)
  write : ∀ p < 4294967296, p / archPageSize ∈ pages →
    has (m'.pageEntry p) flagRw = hasProt flags mapProtWrite
  nocache : ∀ p < 4294967296, p / archPageSize ∈ pages →
    has (m'.pageEntry p) flagPcd = hasProt flags mapProtNocache
  user : ∀ p < 4294967296, p / archPageSize ∈ pages →
    has (m'.pageEntry p) flagUs = userAccess
  outside : ∀ p < 4294967296, p / archPageSize ∉ pages →
    m'.pageEntry p = m.pageEntry p

/-- Exactly the pages, and those whose page table was seen through one of
them, are no longer translated, and every other entry is as it was. -/
structure Tables.Unmapped (m m' : Tables) (pages : Set ℕ) : Prop where
  translates : ∀ p < 4294967296, m'.Translates p ↔ m.Translates p ∧
    p / archPageSize ∉ pages ∧ tablePage p / archPageSize ∉ pages
  outside : ∀ p < 4294967296, p / archPageSize ∉ pages →
    m'.pageEntry p = m.pageEntry p

section AllOrNothing

variable {m m' : Tables} {pages : Set ℕ} {virtBase pageCount : ℕ}

theorem Tables.Rewrites.remapped {flags : BitVec 8} {userAccess : Bool}
    (h : m.Rewrites m' pages (remappedEntry · flags userAccess))
    (hpresent : m.AllPresent pages) :
    m.Remapped m' pages flags userAccess := by
  have hkept : ∀ p < 4294967296,
      has (m'.pageEntry p) flagP = has (m.pageEntry p) flagP := by
    intro p hp
    by_cases hmem : p / archPageSize ∈ pages
    · rw [h.inside p hp hmem, has_flagP_remappedEntry]
    · rw [h.outside p hp hmem]
  refine ⟨?_, ?_, ?_, ?_, ?_, h.outside⟩
  · intro p hp hmem
    rw [translates_iff_entries m' hp, hkept p hp, hkept _ (tablePage_lt hp),
      ← translates_iff_entries m hp]
    exact hpresent p hp hmem
  · intro p hp hmem
    rw [h.inside p hp hmem, frameOf_remappedEntry]
  · intro p hp hmem
    rw [h.inside p hp hmem, has_flagRw_remappedEntry]
  · intro p hp hmem
    rw [h.inside p hp hmem, has_flagPcd_remappedEntry]
  · intro p hp hmem
    rw [h.inside p hp hmem, has_flagUs_remappedEntry]

theorem Tables.Rewrites.unmapped (h : m.Rewrites m' pages (fun _ => 0)) :
    m.Unmapped m' pages := by
  have hflag : ∀ p < 4294967296, has (m'.pageEntry p) flagP = true ↔
      p / archPageSize ∉ pages ∧ has (m.pageEntry p) flagP = true := by
    intro p hp
    by_cases hmem : p / archPageSize ∈ pages
    · rw [h.inside p hp hmem]
      simp [hmem, has]
    · rw [h.outside p hp hmem]
      simp [hmem]
  refine ⟨fun p hp => ?_, h.outside⟩
  rw [translates_iff_entries m' hp, translates_iff_entries m hp,
    hflag p hp, hflag _ (tablePage_lt hp)]
  tauto

theorem checkPages_eq_ok {left i : ℕ} :
    checkPages m virtBase left i = .ok () ↔ ∀ j, i ≤ j → j < i + left →
      checkPresence m (virtBase + j * archPageSize) = .ok () := by
  induction left generalizing i with
  | zero =>
      refine iff_of_true rfl fun j hj hlt => ?_
      omega
  | succ left ih =>
      rw [checkPages]
      constructor
      · intro h j hj hlt
        obtain ⟨_, hfirst, hrest⟩ := bind_eq_ok h
        rcases Nat.eq_or_lt_of_le hj with rfl | hj
        · exact hfirst
        · exact ih.mp hrest j hj (by omega)
      · intro h
        rw [h i le_rfl (by omega), ok_bind]
        exact ih.mpr fun j hj hlt => h j (by omega) (by omega)

/-- The checking pass succeeds if and only if every page of the range is
present. -/
theorem checkPages_iff (hroom : virtBase + pageCount * archPageSize ≤ sizeMax) :
    checkPages m virtBase pageCount 0 = .ok () ↔
      m.AllPresent (pagesOf virtBase pageCount) := by
  unfold archPageSize sizeMax at hroom
  rw [checkPages_eq_ok]
  constructor
  · rintro h p hp ⟨hlow, hhigh⟩
    unfold archPageSize at hlow hhigh
    obtain ⟨j, hj⟩ := Nat.exists_eq_add_of_le hlow
    have hvirt : virtBase + j * archPageSize < 4294967296 := by
      unfold archPageSize
      omega
    have hpage : p / archPageSize =
        (virtBase + j * archPageSize) / archPageSize := by
      unfold archPageSize
      omega
    rw [translates_congr_page hp hvirt hpage, ← checkPresence_iff m hvirt]
    exact h j (Nat.zero_le j) (by omega)
  · intro h j _ hlt
    have hvirt : virtBase + j * archPageSize < 4294967296 := by
      unfold archPageSize
      omega
    rw [checkPresence_iff m hvirt]
    apply h _ hvirt
    simp only [pagesOf, archPageSize, Set.mem_Ico]
    omega

theorem room_of_assertAddrValid
    (h : assertAddrValid virtBase pageCount = .ok ()) (hcount : 0 < pageCount) :
    virtBase + pageCount * archPageSize ≤ sizeMax := by
  unfold assertAddrValid at h
  obtain ⟨_, -, h⟩ := bind_eq_ok h
  obtain ⟨_, -, h⟩ := bind_eq_ok h
  have hfits := of_decide_eq_true (cAssert_eq_ok h)
  unfold archPageSize at *
  omega

theorem checkPages_of_assertAddrValid
    (h : assertAddrValid virtBase pageCount = .ok ()) :
    checkPages m virtBase pageCount 0 = .ok () ↔
      m.AllPresent (pagesOf virtBase pageCount) := by
  rcases Nat.eq_zero_or_pos pageCount with rfl | hcount
  · refine iff_of_true rfl fun p _ hmem => ?_
    rw [pagesOf_zero] at hmem
    exact hmem.elim
  · exact checkPages_iff (room_of_assertAddrValid h hcount)

theorem remapPages_of_assertAddrValid (flags : BitVec 8) (userAccess : Bool)
    (m : Tables) (h : assertAddrValid virtBase pageCount = .ok ()) :
    m.Rewrites (remapPages virtBase flags userAccess pageCount 0 m)
      (pagesOf virtBase pageCount) (remappedEntry · flags userAccess) := by
  rcases Nat.eq_zero_or_pos pageCount with rfl | hcount
  · rw [pagesOf_zero]
    exact Tables.Rewrites.refl m _
  · have hroom := room_of_assertAddrValid h hcount
    rw [← Nat.zero_add pageCount] at hroom
    simpa using remapPages_rewrites flags userAccess m hroom

theorem unmapPages_of_assertAddrValid (m : Tables)
    (h : assertAddrValid virtBase pageCount = .ok ()) :
    m.Rewrites (unmapPages virtBase pageCount 0 m)
      (pagesOf virtBase pageCount) (fun _ => 0) := by
  rcases Nat.eq_zero_or_pos pageCount with rfl | hcount
  · rw [pagesOf_zero]
    exact Tables.Rewrites.refl m _
  · have hroom := room_of_assertAddrValid h hcount
    rw [← Nat.zero_add pageCount] at hroom
    simpa using unmapPages_rewrites m hroom

/-- The range is changed as a whole, or an error is returned and nothing is
changed.  Without `MAP_PROT_READ`, `arch_mmu_remap` refuses every range. -/
theorem archMmuRemap_unmap_allOrNothing (m : Tables)
    (h : assertAddrValid virtBase pageCount = .ok ()) :
    (∀ flags userAccess,
      (hasProt flags mapProtRead = true ∧
          m.AllPresent (pagesOf virtBase pageCount) →
        ∃ m', archMmuRemap m virtBase pageCount flags userAccess =
            .ok (.ok (), m') ∧
          m.Remapped m' (pagesOf virtBase pageCount) flags userAccess) ∧
      (¬(hasProt flags mapProtRead = true ∧
          m.AllPresent (pagesOf virtBase pageCount)) →
        ∃ e, archMmuRemap m virtBase pageCount flags userAccess =
          .ok (.error e, m))) ∧
    (m.AllPresent (pagesOf virtBase pageCount) →
      ∃ m', archMmuUnmap m virtBase pageCount = .ok (.ok (), m') ∧
        m.Unmapped m' (pagesOf virtBase pageCount)) ∧
    (¬m.AllPresent (pagesOf virtBase pageCount) →
      ∃ e, archMmuUnmap m virtBase pageCount = .ok (.error e, m)) := by
  have hcheck := checkPages_of_assertAddrValid (m := m) h
  have hremap := fun flags userAccess =>
    remapPages_of_assertAddrValid flags userAccess m h
  have hunmap := unmapPages_of_assertAddrValid m h
  have hrefused : ¬m.AllPresent (pagesOf virtBase pageCount) →
      ∃ e, checkPages m virtBase pageCount 0 = .error e := by
    rw [← hcheck]
    cases hresult : checkPages m virtBase pageCount 0 with
    | error e => exact fun _ => ⟨e, rfl⟩
    | ok _ => exact fun hne => absurd rfl hne
  refine ⟨fun flags userAccess => ⟨?_, ?_⟩, ?_, ?_⟩
  · rintro ⟨hread, hall⟩
    refine ⟨remapPages virtBase flags userAccess pageCount 0 m, ?_,
      (hremap flags userAccess).remapped hall⟩
    simp [archMmuRemap, h, hread, hcheck.mpr hall]
  · intro hnot
    cases hread : hasProt flags mapProtRead with
    | false => exact ⟨.eperm, by simp [archMmuRemap, h, hread]⟩
    | true =>
        obtain ⟨e, he⟩ := hrefused fun hall => hnot ⟨hread, hall⟩
        exact ⟨e, by simp [archMmuRemap, h, hread, he]⟩
  · intro hall
    exact ⟨unmapPages virtBase pageCount 0 m,
      by simp [archMmuUnmap, h, hcheck.mpr hall], hunmap.unmapped⟩
  · intro hnot
    obtain ⟨e, he⟩ := hrefused hnot
    exact ⟨e, by simp [archMmuUnmap, h, he]⟩

/-- Two pages in the first slot, under a directory which is its own last
page table. -/
def twoPages : Tables where
  pagedir pde := if pde = 0 ∨ pde = pagedirPde then 0x1003#32 else 0
  pagetables pde pte :=
    if pde = 0 ∧ (pte = 1 ∨ pte = 2) then 0x5003#32 else 0
  invalidated := []

/-- Both pages are unmapped together. -/
theorem archMmuRemap_unmap_allOrNothing_two_pages :
    ∃ m', archMmuUnmap twoPages 4096 2 = .ok (.ok (), m') ∧
      twoPages.Unmapped m' (pagesOf 4096 2) := by
  have hvalid : assertAddrValid 4096 2 = .ok () := rfl
  have hcheck : checkPages twoPages 4096 2 0 = .ok () := rfl
  exact (archMmuRemap_unmap_allOrNothing twoPages hvalid).2.1
    ((checkPages_of_assertAddrValid hvalid).mp hcheck)

/-- A remap without `MAP_PROT_READ` is refused though the page is present, and
unmapping the window page of the first table takes a page outside the range
away. -/
theorem archMmuRemap_unmap_exceptions :
    (twoPages.AllPresent (pagesOf 4096 1) ∧
      archMmuRemap twoPages 4096 1 0 false = .ok (.error .eperm, twoPages)) ∧
    twoPages.Translates 4096 ∧ 4096 / archPageSize ∉ pagesOf 4290772992 1 ∧
    ∃ m', archMmuUnmap twoPages 4290772992 1 = .ok (.ok (), m') ∧
      ¬m'.Translates 4096 := by
  have hvalid : assertAddrValid 4096 1 = .ok () := rfl
  have hcheck : checkPages twoPages 4096 1 0 = .ok () := rfl
  refine ⟨⟨(checkPages_of_assertAddrValid hvalid).mp hcheck, rfl⟩,
    ⟨_, rfl⟩, ?_, _, rfl, ?_⟩
  · simp [pagesOf, archPageSize]
  · rintro ⟨physaddr, hfound⟩
    contradiction

end AllOrNothing

end Mmu
end Yjkos
