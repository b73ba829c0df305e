import Yjkos.Tlb

/-!
# Mapping pages

`arch_mmu_map` creates the missing page tables in a first pass and writes the
entries in a second one.  `create_pd` takes the slot as an `uint8_t`, so it
never fills a slot from 256 on, and its error never reaches the caller.
-/

namespace Yjkos
namespace Mmu

/-! ## Translations -/

/-- The page at `virt` is mapped to `phys` with exactly these rights. -/
structure Tables.Grants (m : Tables) (virt phys : ℕ) (write user : Bool) :
    Prop where
  translated : archMmuVirtualToPhysical m virt = .ok phys
  emulated : ∀ flags isFromUser,
    archMmuEmulate m virt flags isFromUser =
      if hasProt flags mapProtWrite && !write || isFromUser && !user then
        .error .eperm
      else .ok phys

/-- An access to `virt` ends as before. -/
structure Tables.SameAt (m m' : Tables) (virt : ℕ) : Prop where
  translated :
    archMmuVirtualToPhysical m' virt = archMmuVirtualToPhysical m virt
  emulated : ∀ flags isFromUser,
    archMmuEmulate m' virt flags isFromUser =
      archMmuEmulate m virt flags isFromUser

section Translations

variable {m m' m'' : Tables} {virt phys : ℕ}

theorem Tables.SameAt.trans (h : m.SameAt m' virt)
    (h' : m'.SameAt m'' virt) : m.SameAt m'' virt :=
  ⟨h'.translated.trans h.translated,
    fun flags user => (h'.emulated flags user).trans (h.emulated flags user)⟩

theorem sameAt_of_entries
    (hdir : m'.pagedir (pdeIndex virt) = m.pagedir (pdeIndex virt))
    (hentry : m'.pageEntry virt = m.pageEntry virt) : m.SameAt m' virt := by
  unfold Tables.pageEntry at hentry
  constructor
  · simp only [archMmuVirtualToPhysical, hdir, hentry]
  · intro flags isFromUser
    simp only [archMmuEmulate, hdir, hentry]

theorem translated_absent (h : has (m.pagedir (pdeIndex virt)) flagP = false) :
    archMmuVirtualToPhysical m virt = .error .efault ∧
      ∀ flags isFromUser,
        archMmuEmulate m virt flags isFromUser = .error .efault := by
  simp [archMmuVirtualToPhysical, archMmuEmulate, h]

theorem getLsbD_aligned (halign : phys % 4096 = 0) {i : ℕ} (hi : i < 12) :
    (BitVec.ofNat 32 phys).getLsbD i = false := by
  have hphys : phys = 2 ^ 12 * (phys / 4096) := by omega
  rw [BitVec.getLsbD_ofNat, hphys, Nat.testBit_two_pow_mul]
  simp [Nat.not_le.mpr hi]

theorem has_flagRw_mappedEntry (halign : phys % 4096 = 0)
    (flags : BitVec 8) (userAccess : Bool) :
    has (mappedEntry phys flags userAccess) flagRw =
      hasProt flags mapProtWrite := by
  have hbit := getLsbD_aligned halign (show 1 < 12 by decide)
  rw [has_flagRw]
  unfold mappedEntry
  simp only [BitVec.getLsbD_or, hbit]
  cases hasProt flags mapProtWrite <;>
    cases hasProt flags mapProtNocache <;> cases userAccess <;> rfl

theorem has_flagUs_mappedEntry (halign : phys % 4096 = 0)
    (flags : BitVec 8) (userAccess : Bool) :
    has (mappedEntry phys flags userAccess) flagUs = userAccess := by
  have hbit := getLsbD_aligned halign (show 2 < 12 by decide)
  rw [has_flagUs]
  unfold mappedEntry
  simp only [BitVec.getLsbD_or, hbit]
  cases hasProt flags mapProtWrite <;>
    cases hasProt flags mapProtNocache <;> cases userAccess <;> rfl

/-- A present directory entry gives the rights. -/
structure Tables.Rights (m : Tables) (pde : ℕ) (write user : Bool) :
    Prop where
  present : has (m.pagedir pde) flagP = true
  write : write = true → has (m.pagedir pde) flagRw = true
  user : user = true → has (m.pagedir pde) flagUs = true

theorem Tables.Rights.congr {pde : ℕ} {write user : Bool}
    (h : m.Rights pde write user) (hdir : m'.pagedir pde = m.pagedir pde) :
    m'.Rights pde write user := by
  constructor <;> rw [hdir]
  · exact h.present
  · exact h.write
  · exact h.user

theorem grants_of_entry {flags : BitVec 8} {userAccess : Bool}
    (hvirt : virt % 4096 = 0) (hphys : phys < 4294967296)
    (halign : phys % 4096 = 0)
    (hrights : m.Rights (pdeIndex virt) (hasProt flags mapProtWrite)
      userAccess)
    (hentry : m.pageEntry virt = mappedEntry phys flags userAccess) :
    m.Grants virt phys (hasProt flags mapProtWrite) userAccess := by
  have hoffset : virt &&& 0xfff = 0 := by
    rw [show 0xfff = 2 ^ 12 - 1 by rfl, Nat.and_two_pow_sub_one_eq_mod]
    exact hvirt
  have hpresent := has_flagP_mappedEntry phys flags userAccess
  have hframe := frameOf_mappedEntry hphys halign flags userAccess
  have hwrite := has_flagRw_mappedEntry halign flags userAccess
  have huser := has_flagUs_mappedEntry halign flags userAccess
  unfold Tables.pageEntry at hentry
  constructor
  · simp [archMmuVirtualToPhysical, hrights.present, hentry, hpresent,
      hframe, hoffset]
  · intro wanted isFromUser
    have hdirWrite := hrights.write
    have hdirUser := hrights.user
    simp only [archMmuEmulate, hrights.present, hentry, hpresent, hframe,
      hwrite, huser]
    clear hwrite huser hpresent hframe hentry hrights
    generalize hasProt flags mapProtWrite = write at hdirWrite ⊢
    generalize hasProt wanted mapProtWrite = isWrite
    cases write <;> cases userAccess <;> cases isWrite <;>
      cases isFromUser <;> simp_all

theorem Tables.Grants.rights {write user : Bool}
    (h : m.Grants virt phys write user) :
    m.Rights (pdeIndex virt) write user := by
  have hpresent : has (m.pagedir (pdeIndex virt)) flagP = true := by
    by_contra habsent
    have htranslated := h.translated
    rw [(translated_absent (by simpa using habsent)).1] at htranslated
    contradiction
  refine ⟨hpresent, ?_, ?_⟩
  · rintro rfl
    by_contra hlacks
    have hlacks' : has (m.pagedir (pdeIndex virt)) flagRw = false := by
      simpa using hlacks
    have hwanted : hasProt mapProtWrite mapProtWrite = true := by decide
    have hemulated := h.emulated mapProtWrite false
    simp [archMmuEmulate, hpresent, hlacks', hwanted] at hemulated
  · rintro rfl
    by_contra hlacks
    have hlacks' : has (m.pagedir (pdeIndex virt)) flagUs = false := by
      simpa using hlacks
    have hwanted : hasProt mapProtRead mapProtWrite = false := by decide
    have hemulated := h.emulated mapProtRead true
    simp [archMmuEmulate, hpresent, hlacks', hwanted] at hemulated

end Translations

/-! ## The missing page tables -/

/-- How many frames `pmm_alloc` returns before it fails. -/
def granted (answers : List ℕ) : ℕ :=
  (answers.takeWhile (· ≠ 0)).length

/-- The directory slots of the pages which have no page table. -/
def Tables.neededTables (m : Tables) (virtBase i left : ℕ) : Finset ℕ :=
  ((Finset.Ico i (i + left)).image
    fun j => pdeIndex (virtBase + j * archPageSize)).filter
    fun pde => has (m.pagedir pde) flagP = false

/-- Each slot is as before, or was empty and has got an empty table. -/
def Tables.Extends (m m' : Tables) : Prop :=
  ∀ pde,
    (m'.pagedir pde = m.pagedir pde ∧
      m'.pagetables pde = m.pagetables pde) ∨
    (has (m.pagedir pde) flagP = false ∧ m'.Rights pde true true ∧
      ∀ pte, m'.pagetables pde pte = 0)

section Create

variable {m m' m'' : Tables} {frames frames' : Frames} {pde : ℕ}

theorem pmmAlloc_granted {addr : ℕ} (h : pmmAlloc frames = (addr, frames')) :
    granted frames.answers =
      if addr = 0 then 0 else granted frames'.answers + 1 := by
  unfold pmmAlloc at h
  split at h
  next hanswers =>
    obtain ⟨rfl, rfl⟩ := Prod.mk.inj h
    simp [granted, hanswers]
  next frame rest hanswers =>
    obtain ⟨rfl, rfl⟩ := Prod.mk.inj h
    by_cases hzero : frame = 0
    · simp [granted, hanswers, hzero]
    · simp [granted, hanswers, hzero]

theorem Tables.Extends.refl (m : Tables) : m.Extends m :=
  fun _ => Or.inl ⟨rfl, rfl⟩

theorem Tables.Extends.kept (h : m.Extends m')
    (hpresent : has (m.pagedir pde) flagP = true) :
    m'.pagedir pde = m.pagedir pde ∧
      m'.pagetables pde = m.pagetables pde := by
  rcases h pde with hkept | ⟨habsent, -⟩
  · exact hkept
  · rw [hpresent] at habsent
    contradiction

theorem Tables.Extends.trans (h : m.Extends m') (h' : m'.Extends m'') :
    m.Extends m'' := by
  intro pde
  rcases h pde with ⟨hdir, htable⟩ | ⟨habsent, hrights, hzero⟩
  · rw [← hdir, ← htable]
    exact h' pde
  · obtain ⟨hdir, htable⟩ := h'.kept hrights.present
    refine Or.inr ⟨habsent, hrights.congr hdir, ?_⟩
    rw [htable]
    exact hzero

theorem Tables.Extends.sameAt (h : m.Extends m') {virt : ℕ}
    (hwindow : pdeIndex virt ≠ pagedirPde) : m.SameAt m' virt := by
  have hentry : ∀ t : Tables, t.pageEntry virt =
      t.pagetables (pdeIndex virt) (pteIndex virt) := by
    intro t
    simp [Tables.pageEntry, Tables.entry, hwindow]
  rcases h (pdeIndex virt) with ⟨hdir, htable⟩ | ⟨habsent, hrights, hzero⟩
  · apply sameAt_of_entries hdir
    rw [hentry, hentry, htable]
  · obtain ⟨htranslated, hemulated⟩ := translated_absent habsent
    have hmapped : has (m'.entry (pdeIndex virt) (pteIndex virt)) flagP =
        false := by
      have hpage := hentry m'
      rw [hzero] at hpage
      unfold Tables.pageEntry at hpage
      rw [hpage]
      decide
    constructor
    · rw [htranslated]
      simp [archMmuVirtualToPhysical, hmapped]
    · intro flags isFromUser
      rw [hemulated]
      simp [archMmuEmulate, hmapped, hrights.present, hrights.write,
        hrights.user]

theorem has_createdEntry (addr : ℕ) :
    let entry := BitVec.ofNat 32 addr ||| flagP ||| flagRw ||| flagUs
    has entry flagP = true ∧ has entry flagRw = true ∧
      has entry flagUs = true := by
  simp only [has_flagP, has_flagRw, has_flagUs, BitVec.getLsbD_or]
  simp [flagP, flagRw, flagUs]

/-- What `create_pd` does to the slot it takes. -/
theorem createPd_spec {result : Except Errno Unit}
    (h : createPd m frames pde = (result, m', frames')) :
    (granted frames.answers = 0 ∧ (∃ e, result = .error e) ∧ m' = m) ∨
    (granted frames.answers = granted frames'.answers + 1 ∧
      result = .ok () ∧ m'.Rights (pde % 256) true true ∧
      (∀ pte, m'.pagetables (pde % 256) pte = 0) ∧
      ∀ other, other ≠ pde % 256 →
        m'.pagedir other = m.pagedir other ∧
          m'.pagetables other = m.pagetables other) := by
  unfold createPd at h
  rcases halloc : pmmAlloc frames with ⟨addr, rest⟩
  have hgranted := pmmAlloc_granted halloc
  simp only [halloc] at h
  split at h
  next hzero =>
    simp only [Prod.mk.injEq] at h
    obtain ⟨rfl, rfl, rfl⟩ := h
    exact Or.inl ⟨by rw [hgranted, if_pos hzero], ⟨_, rfl⟩, rfl⟩
  next hzero =>
    simp only [Prod.mk.injEq] at h
    obtain ⟨rfl, rfl, rfl⟩ := h
    obtain ⟨hp, hrw, hus⟩ := has_createdEntry addr
    refine Or.inr ⟨by rw [hgranted, if_neg hzero], rfl, ?_, ?_, ?_⟩
    · constructor <;> simp [flushTable, flushTlbFor, hp, hrw, hus]
    · simp [flushTable, flushTlbFor]
    · intro other hother
      simp [flushTable, flushTlbFor, hother]

/-- `create_pd` never fills a slot from 256 on. -/
theorem createTables_high {virtBase i left : ℕ} {complete : Bool}
    (hpde : 256 ≤ pde)
    (h : createTables virtBase left i m frames = (complete, m', frames')) :
    m'.pagedir pde = m.pagedir pde := by
  induction left generalizing i m frames with
  | zero =>
      simp only [createTables, Prod.mk.injEq] at h
      rw [h.2.1]
  | succ left ih =>
      simp only [createTables] at h
      split at h
      · exact ih h
      · rcases hcreate : createPd m frames
          (pdeIndex (virtBase + i * archPageSize)) with ⟨result, m₁, frames₁⟩
        rw [hcreate] at h
        rcases createPd_spec hcreate with
          ⟨-, ⟨e, rfl⟩, rfl⟩ | ⟨-, rfl, -, -, hothers⟩
        · simp only [Prod.mk.injEq] at h
          rw [h.2.1]
        · rw [ih h]
          exact (hothers pde (by omega)).1

/-- The slots of the pages which have no table are below 256. -/
def Tables.LowSlots (m : Tables) (virtBase i left : ℕ) : Prop :=
  ∀ j, i ≤ j → j < i + left →
    has (m.pagedir (pdeIndex (virtBase + j * archPageSize))) flagP = false →
    pdeIndex (virtBase + j * archPageSize) < 256

theorem Tables.LowSlots.tail {virtBase i left : ℕ}
    (h : m.LowSlots virtBase i (left + 1)) (hextends : m.Extends m') :
    m'.LowSlots virtBase (i + 1) left := by
  intro j hj hlt habsent
  refine h j (by omega) (by omega) ?_
  by_contra hpresent
  have hkept := hextends.kept
    (show has (m.pagedir (pdeIndex (virtBase + j * archPageSize))) flagP =
      true by simpa using hpresent)
  rw [hkept.1] at habsent
  exact hpresent habsent

theorem createPd_low {result : Except Errno Unit} (hpde : pde < 256)
    (habsent : has (m.pagedir pde) flagP = false)
    (h : createPd m frames pde = (result, m', frames')) :
    m.Extends m' ∧
    ((granted frames.answers = 0 ∧ ∃ e, result = .error e) ∨
      (granted frames.answers = granted frames'.answers + 1 ∧
        result = .ok () ∧ has (m'.pagedir pde) flagP = true)) := by
  have hslot : pde % 256 = pde := Nat.mod_eq_of_lt hpde
  rcases createPd_spec h with
    ⟨hgranted, herror, rfl⟩ | ⟨hgranted, hok, hrights, hzero, hothers⟩
  · exact ⟨Tables.Extends.refl m', Or.inl ⟨hgranted, herror⟩⟩
  · rw [hslot] at hrights hzero hothers
    refine ⟨?_, Or.inr ⟨hgranted, hok, hrights.present⟩⟩
    intro other
    by_cases hother : other = pde
    · subst hother
      exact Or.inr ⟨habsent, hrights, hzero⟩
    · exact Or.inl (hothers other hother)

/-- The first loop only adds empty tables, and all that are missing if it
comes to its end. -/
theorem createTables_extends {virtBase i left : ℕ} {complete : Bool}
    (hlow : m.LowSlots virtBase i left)
    (h : createTables virtBase left i m frames = (complete, m', frames')) :
    m.Extends m' ∧ (complete = true → ∀ j, i ≤ j → j < i + left →
      has (m'.pagedir (pdeIndex (virtBase + j * archPageSize))) flagP =
        true) := by
  induction left generalizing i m frames with
  | zero =>
      simp only [createTables, Prod.mk.injEq] at h
      obtain ⟨-, rfl, -⟩ := h
      exact ⟨Tables.Extends.refl m, fun _ j hj hlt => by omega⟩
  | succ left ih =>
      simp only [createTables] at h
      split at h
      next hpresent =>
        obtain ⟨hextends, hall⟩ := ih (hlow.tail (Tables.Extends.refl m)) h
        refine ⟨hextends, fun hcomplete j hj hlt => ?_⟩
        rcases Nat.eq_or_lt_of_le hj with rfl | hj
        · rw [(hextends.kept hpresent).1]
          exact hpresent
        · exact hall hcomplete j hj (by omega)
      next habsent =>
        have habsent' : has (m.pagedir
            (pdeIndex (virtBase + i * archPageSize))) flagP = false := by
          simpa using habsent
        have hpde := hlow i le_rfl (by omega) habsent'
        rcases hcreate : createPd m frames
          (pdeIndex (virtBase + i * archPageSize)) with ⟨result, m₁, frames₁⟩
        rw [hcreate] at h
        obtain ⟨hone, hresult⟩ := createPd_low hpde habsent' hcreate
        rcases hresult with ⟨-, e, rfl⟩ | ⟨-, rfl, hpresent⟩
        · simp only [Prod.mk.injEq] at h
          obtain ⟨rfl, rfl, -⟩ := h
          exact ⟨hone, by simp⟩
        · obtain ⟨hextends, hall⟩ := ih (hlow.tail hone) h
          refine ⟨hone.trans hextends, fun hcomplete j hj hlt => ?_⟩
          rcases Nat.eq_or_lt_of_le hj with rfl | hj
          · rw [(hextends.kept hpresent).1]
            exact hpresent
          · exact hall hcomplete j hj (by omega)

theorem neededTables_created {virtBase i : ℕ}
    (hextends : m.Extends m')
    (habsent : has (m.pagedir (pdeIndex (virtBase + i * archPageSize)))
      flagP = false)
    (hpresent : has (m'.pagedir (pdeIndex (virtBase + i * archPageSize)))
      flagP = true) (left : ℕ) :
    (m'.neededTables virtBase (i + 1) left).card + 1 ≤
      (m.neededTables virtBase i (left + 1)).card := by
  have hmem : pdeIndex (virtBase + i * archPageSize) ∈
      m.neededTables virtBase i (left + 1) := by
    simp only [Tables.neededTables, Finset.mem_filter, Finset.mem_image,
      Finset.mem_Ico]
    exact ⟨⟨i, by omega, rfl⟩, habsent⟩
  have hsub : m'.neededTables virtBase (i + 1) left ⊆
      (m.neededTables virtBase i (left + 1)).erase
        (pdeIndex (virtBase + i * archPageSize)) := by
    intro pde hpde
    simp only [Tables.neededTables, Finset.mem_filter, Finset.mem_image,
      Finset.mem_Ico] at hpde
    obtain ⟨⟨j, hj, rfl⟩, habsent'⟩ := hpde
    simp only [Tables.neededTables, Finset.mem_erase, Finset.mem_filter,
      Finset.mem_image, Finset.mem_Ico]
    refine ⟨?_, ⟨j, by omega, rfl⟩, ?_⟩
    · intro heq
      rw [heq, hpresent] at habsent'
      contradiction
    · by_contra hkept
      rw [(hextends.kept (by simpa using hkept)).1] at habsent'
      exact hkept habsent'
  have hcard := Finset.card_le_card hsub
  rw [Finset.card_erase_of_mem hmem] at hcard
  have hpos := Finset.card_pos.mpr ⟨_, hmem⟩
  omega

theorem createTables_complete {virtBase i left : ℕ} {complete : Bool}
    (hlow : m.LowSlots virtBase i left)
    (hgranted : (m.neededTables virtBase i left).card ≤
      granted frames.answers)
    (h : createTables virtBase left i m frames = (complete, m', frames')) :
    complete = true := by
  induction left generalizing i m frames with
  | zero =>
      simp only [createTables, Prod.mk.injEq] at h
      exact h.1.symm
  | succ left ih =>
      simp only [createTables] at h
      split at h
      next hpresent =>
        refine ih (hlow.tail (Tables.Extends.refl m)) ?_ h
        refine le_trans (Finset.card_le_card ?_) hgranted
        apply Finset.filter_subset_filter
        apply Finset.image_subset_image
        apply Finset.Ico_subset_Ico <;> omega
      next habsent =>
        have habsent' : has (m.pagedir
            (pdeIndex (virtBase + i * archPageSize))) flagP = false := by
          simpa using habsent
        have hpde := hlow i le_rfl (by omega) habsent'
        rcases hcreate : createPd m frames
          (pdeIndex (virtBase + i * archPageSize)) with ⟨result, m₁, frames₁⟩
        rw [hcreate] at h
        obtain ⟨hone, hresult⟩ := createPd_low hpde habsent' hcreate
        rcases hresult with ⟨hnone, -⟩ | ⟨hsome, rfl, hpresent⟩
        · -- there is a table to create, and no frame for it
          have hmem : pdeIndex (virtBase + i * archPageSize) ∈
              m.neededTables virtBase i (left + 1) := by
            simp only [Tables.neededTables, Finset.mem_filter,
              Finset.mem_image, Finset.mem_Ico]
            exact ⟨⟨i, by omega, rfl⟩, habsent'⟩
          have hpos := Finset.card_pos.mpr ⟨_, hmem⟩
          omega
        · have hless := neededTables_created hone habsent' hpresent left
          exact ih (hlow.tail hone) (by omega) h

end Create

/-! ## The entries -/

section Entries

variable {m m' : Tables} {virtBase physbase i left : ℕ} {flags : BitVec 8}
  {userAccess : Bool}

theorem pagedir_mapSinglePage {virt : ℕ}
    (hwindow : pdeIndex virt ≠ pagedirPde) (phys : ℕ) :
    (mapSinglePage m virt phys flags userAccess).pagedir = m.pagedir := by
  unfold mapSinglePage
  simp only [Tables.setEntry, if_neg hwindow]
  split <;> rfl

theorem pagedir_mapPages
    (hwindow : ∀ j, i ≤ j → j < i + left →
      pdeIndex (virtBase + j * archPageSize) ≠ pagedirPde)
    (h : mapPages virtBase physbase flags userAccess left i m = .ok m') :
    m'.pagedir = m.pagedir := by
  induction left generalizing i m with
  | zero =>
      simp only [mapPages, Except.ok.injEq] at h
      rw [h]
  | succ left ih =>
      simp only [mapPages] at h
      split at h
      · rw [ih (fun j hj hlt => hwindow j (by omega) (by omega)) h]
        exact pagedir_mapSinglePage (hwindow i le_rfl (by omega)) _
      · contradiction

theorem mapPages_spec (hrange : m.TabledRange virtBase i left)
    (physbase : ℕ) (flags : BitVec 8) (userAccess : Bool) :
    ∃ m', mapPages virtBase physbase flags userAccess left i m = .ok m' ∧
      m'.pagedir = m.pagedir ∧
      (∀ j, i ≤ j → j < i + left →
        m'.pageEntry (virtBase + j * archPageSize) =
          mappedEntry (physbase + j * archPageSize) flags userAccess) ∧
      ∀ p, p < 4294967296 →
        (∀ j, i ≤ j → j < i + left →
          p / 4096 ≠ (virtBase + j * archPageSize) / 4096) →
        m'.pageEntry p = m.pageEntry p := by
  induction left generalizing i m with
  | zero => exact ⟨m, rfl, rfl, fun j hj hlt => by omega, fun _ _ _ => rfl⟩
  | succ left ih =>
      obtain ⟨htabled, hvirt⟩ := hrange.head
      have hsets := sets_mapSinglePage htabled hvirt
        (physbase + i * archPageSize) flags userAccess
      obtain ⟨m', hmap, hdir, hpages, hothers⟩ :=
        ih (hrange.tail hsets.pagedir)
      refine ⟨m', ?_, hdir.trans hsets.pagedir, ?_, ?_⟩
      · simp only [mapPages, htabled.present, if_true]
        exact hmap
      · intro j hj hlt
        rcases Nat.eq_or_lt_of_le hj with rfl | hj
        · -- the later pages are different ones
          rw [hothers _ hvirt (fun k hk hklt => by
            unfold archPageSize
            omega), hsets.entry_eq]
        · exact hpages j hj (by omega)
      · intro p hp hne
        rw [hothers p hp (fun j hj hlt => hne j (by omega) (by omega)),
          hsets.other p hp (hne i le_rfl (by omega))]

end Entries

/-! ## The whole call -/

/-- The address is in none of the pages and outside the window. -/
structure Elsewhere (virtBase pageCount virt : ℕ) : Prop where
  word : virt < 4294967296
  window : pdeIndex virt ≠ pagedirPde
  other : ∀ j < pageCount,
    virt / 4096 ≠ (virtBase + j * archPageSize) / 4096

/-- `arch_mmu_map` returns.  With zero it has mapped the pages as requested
and nothing else, and when a page table cannot be allocated it returns an
error and has changed no translation. -/
def MapsExactly (m : Tables) (frames : Frames)
    (virtBase physbase pageCount : ℕ) (flags : BitVec 8)
    (userAccess : Bool) : Prop :=
  ∃ result m' frames',
    archMmuMap m frames virtBase physbase pageCount flags userAccess =
      .ok (result, m', frames') ∧
    (result = .ok () →
      (∀ j < pageCount, m'.Grants (virtBase + j * archPageSize)
        (physbase + j * archPageSize) (hasProt flags mapProtWrite)
        userAccess) ∧
      ∀ virt, Elsewhere virtBase pageCount virt → m.SameAt m' virt) ∧
    (granted frames.answers < (m.neededTables virtBase 0 pageCount).card →
      (∃ e, result = .error e) ∧
      ∀ virt, Elsewhere virtBase 0 virt → m.SameAt m' virt)

/-- The directory slot has a table and gives the rights, or has none and is
in reach of `create_pd`. -/
def Tables.Ready (m : Tables) (pde : ℕ) (write user : Bool) : Prop :=
  m.Rights pde write user ∨ has (m.pagedir pde) flagP = false ∧ pde < 256

theorem Tables.Ready.rights {m m' : Tables} {pde : ℕ} {write user : Bool}
    (h : m.Ready pde write user) (hextends : m.Extends m')
    (hpresent : has (m'.pagedir pde) flagP = true) :
    m'.Rights pde write user := by
  rcases h with hrights | ⟨habsent, -⟩
  · exact hrights.congr (hextends.kept hrights.present).1
  · rcases hextends pde with ⟨hdir, -⟩ | ⟨-, hfull, -⟩
    · rw [hdir, habsent] at hpresent
      contradiction
    · exact ⟨hfull.present, fun _ => hfull.write rfl,
        fun _ => hfull.user rfl⟩

section Map

variable {m m' : Tables} {frames frames' : Frames}
  {virtBase physbase pageCount : ℕ} {flags : BitVec 8} {userAccess : Bool}

/-- What the assertions of `arch_mmu_map` admit. -/
structure Admitted (virtBase physbase pageCount : ℕ) : Prop where
  virt : assertAddrValid virtBase pageCount = .ok ()
  phys : assertAddrValid physbase pageCount = .ok ()
  aligned : physbase % 4096 = 0

theorem Admitted.map_unreadable (h : Admitted virtBase physbase pageCount)
    (hread : hasProt flags mapProtRead = false) :
    archMmuMap m frames virtBase physbase pageCount flags userAccess =
      .ok (.error .eperm, m, frames) := by
  have haligned : isAligned physbase archPageSize = true := by
    simpa [isAligned, archPageSize] using h.aligned
  rw [archMmuMap, h.virt, ok_bind, h.phys, ok_bind, cAssert_of haligned,
    ok_bind, hread]
  rfl

theorem Admitted.map_readable (h : Admitted virtBase physbase pageCount)
    (hread : hasProt flags mapProtRead = true) {complete : Bool}
    (hcreate : createTables virtBase pageCount 0 m frames =
      (complete, m', frames')) :
    archMmuMap m frames virtBase physbase pageCount flags userAccess =
      if complete then
        mapPages virtBase physbase flags userAccess pageCount 0 m' >>=
          fun mapped => .ok (.ok (), mapped, frames')
      else .ok (.ok (), m', frames') := by
  have haligned : isAligned physbase archPageSize = true := by
    simpa [isAligned, archPageSize] using h.aligned
  rw [archMmuMap, h.virt, ok_bind, h.phys, ok_bind, cAssert_of haligned,
    ok_bind, hread, hcreate]
  cases complete <;> rfl

/-- A call which asks for readable pages returns zero if it returns, and the
directory is then what the first loop has made of it. -/
theorem Admitted.returned (h : Admitted virtBase physbase pageCount)
    (hread : hasProt flags mapProtRead = true)
    (hwindow : ∀ j < pageCount,
      pdeIndex (virtBase + j * archPageSize) ≠ pagedirPde)
    {result : Except Errno Unit}
    (hmap : archMmuMap m frames virtBase physbase pageCount flags
      userAccess = .ok (result, m', frames')) :
    result = .ok () ∧ ∃ complete m₁ frames₁,
      createTables virtBase pageCount 0 m frames =
        (complete, m₁, frames₁) ∧ m'.pagedir = m₁.pagedir := by
  rcases hcreate : createTables virtBase pageCount 0 m frames with
    ⟨complete, m₁, frames₁⟩
  rw [h.map_readable hread hcreate] at hmap
  cases complete with
  | false =>
      simp only [Bool.false_eq_true, if_false, Except.ok.injEq,
        Prod.mk.injEq] at hmap
      exact ⟨hmap.1.symm, false, m₁, frames₁, rfl, by rw [hmap.2.1]⟩
  | true =>
      obtain ⟨mapped, hpages, hmap⟩ := bind_eq_ok hmap
      simp only [Except.ok.injEq, Prod.mk.injEq] at hmap
      refine ⟨hmap.1.symm, true, m₁, frames₁, rfl, ?_⟩
      rw [← hmap.2.1]
      exact pagedir_mapPages (fun j _ hlt => hwindow j (by omega)) hpages

/-- With every slot ready and a frame for each missing table the pages are
mapped. -/
theorem Admitted.maps (h : Admitted virtBase physbase pageCount)
    (hbase : virtBase % 4096 = 0)
    (hread : hasProt flags mapProtRead = true)
    (hwindow : ∀ j < pageCount,
      pdeIndex (virtBase + j * archPageSize) ≠ pagedirPde)
    (hready : ∀ j < pageCount,
      m.Ready (pdeIndex (virtBase + j * archPageSize))
        (hasProt flags mapProtWrite) userAccess)
    (hgranted : (m.neededTables virtBase 0 pageCount).card ≤
      granted frames.answers) :
    MapsExactly m frames virtBase physbase pageCount flags userAccess := by
  have hlow : m.LowSlots virtBase 0 pageCount := by
    intro j _ hlt habsent
    rcases hready j (by omega) with hrights | ⟨-, hpde⟩
    · rw [hrights.present] at habsent
      contradiction
    · exact hpde
  rcases hcreate : createTables virtBase pageCount 0 m frames with
    ⟨complete, m₁, frames₁⟩
  obtain rfl := createTables_complete hlow hgranted hcreate
  obtain ⟨hextends, hpresent⟩ := createTables_extends hlow hcreate
  have hrange : m₁.TabledRange virtBase 0 pageCount := by
    refine ⟨fun j hj hlt => ⟨hpresent rfl j hj hlt, hwindow j (by omega)⟩,
      ?_⟩
    rw [Nat.zero_add]
    exact assertAddrValid_room h.virt
  obtain ⟨m', hmap, hdir, hpages, hothers⟩ :=
    mapPages_spec hrange physbase flags userAccess
  refine ⟨.ok (), m', frames₁, ?_, fun _ => ⟨?_, ?_⟩, fun hless => ?_⟩
  · rw [h.map_readable hread hcreate, if_pos rfl, hmap, ok_bind]
  · intro j hj
    have hroom := assertAddrValid_room h.phys (by omega)
    have haligned := h.aligned
    unfold archPageSize sizeMax at hroom
    have hrights := ((hready j hj).rights hextends
      (hpresent rfl j (Nat.zero_le j) (by omega))).congr (congrFun hdir _)
    apply grants_of_entry _ _ _ hrights (hpages j (Nat.zero_le j) (by omega))
    all_goals
      unfold archPageSize
      omega
  · intro virt helse
    have hsame : m₁.SameAt m' virt := by
      apply sameAt_of_entries
      · rw [hdir]
      · exact hothers virt helse.word fun k _ hlt => helse.other k (by omega)
    exact (hextends.sameAt helse.window).trans hsame
  · omega

theorem Admitted.ready (h : Admitted virtBase physbase pageCount)
    (hread : hasProt flags mapProtRead = true)
    (hwindow : ∀ j < pageCount,
      pdeIndex (virtBase + j * archPageSize) ≠ pagedirPde)
    (hmaps : MapsExactly m frames virtBase physbase pageCount flags
      userAccess) :
    (∀ j < pageCount, m.Ready (pdeIndex (virtBase + j * archPageSize))
      (hasProt flags mapProtWrite) userAccess) ∧
    (m.neededTables virtBase 0 pageCount).card ≤ granted frames.answers := by
  obtain ⟨result, m', frames', hmap, hzero, hmissing⟩ := hmaps
  obtain ⟨rfl, complete, m₁, frames₁, hcreate, hdir⟩ :=
    h.returned hread hwindow hmap
  have hrights := fun j hj => ((hzero rfl).1 j hj).rights
  have hlow : m.LowSlots virtBase 0 pageCount := by
    intro j _ hlt habsent
    by_contra hhigh
    -- a slot from 256 on is as empty as before
    have hpresent := (hrights j (by omega)).present
    rw [hdir, createTables_high (by omega) hcreate, habsent] at hpresent
    contradiction
  obtain ⟨hextends, -⟩ := createTables_extends hlow hcreate
  constructor
  · intro j hj
    by_cases hpresent :
        has (m.pagedir (pdeIndex (virtBase + j * archPageSize))) flagP = true
    · left
      apply (hrights j hj).congr
      rw [hdir, (hextends.kept hpresent).1]
    · have habsent :
          has (m.pagedir (pdeIndex (virtBase + j * archPageSize))) flagP =
            false := by simpa using hpresent
      exact Or.inr ⟨habsent, hlow j (Nat.zero_le j) (by omega) habsent⟩
  · by_contra hless
    obtain ⟨⟨e, herror⟩, -⟩ := hmissing (by omega)
    contradiction

/-- `arch_mmu_map` keeps its promise exactly when every page has a table with
the rights it needs, or a slot which `create_pd` can fill, and there are
frames for all missing tables. -/
theorem archMmuMap_maps_iff (h : Admitted virtBase physbase pageCount)
    (hbase : virtBase % 4096 = 0)
    (hwindow : ∀ j < pageCount,
      pdeIndex (virtBase + j * archPageSize) ≠ pagedirPde) :
    MapsExactly m frames virtBase physbase pageCount flags userAccess ↔
      (hasProt flags mapProtRead = true →
        (∀ j < pageCount, m.Ready (pdeIndex (virtBase + j * archPageSize))
          (hasProt flags mapProtWrite) userAccess) ∧
        (m.neededTables virtBase 0 pageCount).card ≤
          granted frames.answers) := by
  cases hread : hasProt flags mapProtRead with
  | false =>
      refine iff_of_true ?_ (by simp)
      refine ⟨_, _, _, h.map_unreadable hread, by simp,
        fun _ => ⟨⟨_, rfl⟩, fun virt _ => sameAt_of_entries rfl rfl⟩⟩
  | true =>
      constructor
      · exact fun hmaps _ => h.ready hread hwindow hmaps
      · intro hcondition
        obtain ⟨hready, hgranted⟩ := hcondition rfl
        exact h.maps hbase hread hwindow hready hgranted

end Map

/-- Two pages on both sides of a directory boundary, with no table for
either. -/
theorem two_pages_mapped :
    MapsExactly bootTables ⟨[], [0x700000, 0x701000]⟩ 0x7ff000 0x600000 2
      (mapProtRead ||| mapProtWrite) true := by
  have hslot : ∀ j < 2, pdeIndex (0x7ff000 + j * archPageSize) = 1 + j := by
    decide
  have hneeded : (bootTables.neededTables 0x7ff000 0 2).card ≤ 2 :=
    (Finset.card_filter_le _ _).trans
      (Finset.card_image_le.trans (by simp))
  refine (archMmuMap_maps_iff ⟨by decide, by decide, by decide⟩ (by decide)
    ?_).mpr fun _ => ⟨?_, hneeded⟩
  · intro j hj
    rw [hslot j hj]
    unfold pagedirPde entryCount
    omega
  · intro j hj
    rw [hslot j hj]
    right
    interval_cases j <;> decide

/-- Without a frame for the table `arch_mmu_map` returns zero and has mapped
nothing.  With one, a page from 1 GiB on gets its table in another slot, and
the access to its own is a fault. -/
theorem unmapped_page_returns_zero :
    Admitted 0x400000 0x600000 1 ∧ Admitted 0x40000000 0x600000 1 ∧
    archMmuMap bootTables ⟨[], []⟩ 0x400000 0x600000 1 mapProtRead false =
      .ok (.ok (), bootTables, ⟨[], []⟩) ∧
    ¬MapsExactly bootTables ⟨[], []⟩ 0x400000 0x600000 1 mapProtRead false ∧
    archMmuMap bootTables ⟨[], [0x700000]⟩ 0x40000000 0x600000 1 mapProtRead
      false = .error .wildPointer ∧
    ¬MapsExactly bootTables ⟨[], [0x700000]⟩ 0x40000000 0x600000 1
      mapProtRead false := by
  have hzero : archMmuMap bootTables ⟨[], []⟩ 0x400000 0x600000 1
      mapProtRead false = .ok (.ok (), bootTables, ⟨[], []⟩) := rfl
  have hfault : archMmuMap bootTables ⟨[], [0x700000]⟩ 0x40000000 0x600000 1
      mapProtRead false = .error .wildPointer := rfl
  refine ⟨⟨by decide, by decide, by decide⟩,
    ⟨by decide, by decide, by decide⟩, hzero, ?_, hfault, ?_⟩
  · rintro ⟨result, m', frames', hmap, hmapped, -⟩
    rw [hzero, Except.ok.injEq, Prod.mk.injEq, Prod.mk.injEq] at hmap
    obtain ⟨rfl, rfl, rfl⟩ := hmap
    have htranslated := ((hmapped rfl).1 0 Nat.one_pos).translated
    have hmissing : archMmuVirtualToPhysical bootTables
        (0x400000 + 0 * archPageSize) = .error .efault := by decide
    rw [hmissing] at htranslated
    contradiction
  · rintro ⟨result, m', frames', hmap, -⟩
    rw [hfault] at hmap
    contradiction

end Mmu
end Yjkos
