import Yjkos.BootWalk

/-!
# Runs of the page table calls in physical memory

Every call of `arch_mmu_map`, `arch_mmu_remap`, `arch_mmu_unmap` and
`arch_mmu_scratch_map` is a sequence of stores through the window.  In a run
which leaves the window itself alone, each cached translation is the one which
the processor would read from physical memory again.
-/

namespace Yjkos
namespace Mmu

open StackMachine (Word)

def WindowStores (cr3 : Word) :
    (Word → Word) → (Word → Word) → Prop :=
  Relation.ReflTransGen fun memory memory' => ∃ pde pte value,
    windowStore memory cr3 pde pte value = some memory'

structure Tables.Stores (m m' : Tables) (pde pte : ℕ) (value : BitVec 32) :
    Prop where
  pde_lt : pde < 1024
  pte_lt : pte < 1024
  slot : pde ≠ pagedirPde
  present : has (m.pagedir pde) flagP = true
  pagedir : m'.pagedir = (m.setEntry pde pte value).pagedir
  pagetables : m'.pagetables = (m.setEntry pde pte value).pagetables

def Tables.Rewritten : Tables → Tables → Prop :=
  Relation.ReflTransGen fun m m' => ∃ pde pte value, m.Stores m' pde pte value

section Rewritten

variable {memory : Word → Word} {cr3 : Word} {m m' : Tables} {virt : ℕ}

theorem Shows.congr (h : Shows memory cr3 m) (hdir : m'.pagedir = m.pagedir)
    (htables : m'.pagetables = m.pagetables) : Shows memory cr3 m' := by
  obtain ⟨hpagedir, hentries, hslot, hapart, hwritable⟩ := h
  constructor
  · rw [hdir]
    exact hpagedir
  · rw [hdir, htables]
    exact hentries
  · rw [hdir]
    exact hslot
  · rw [hdir]
    exact hapart
  · rw [hdir]
    exact hwritable

/-- The simulation: memory follows the tables. -/
theorem Shows.rewritten (h : Shows memory cr3 m) (hm : m.Rewritten m') :
    ∃ memory', WindowStores cr3 memory memory' ∧ Shows memory' cr3 m' := by
  induction hm with
  | refl => exact ⟨memory, .refl, h⟩
  | tail _ hstores ih =>
      obtain ⟨memory₁, hstored, hshows⟩ := ih
      obtain ⟨pde, pte, value, hone⟩ := hstores
      obtain ⟨memory₂, hstore, hshows'⟩ := hshows.windowStore hone.pde_lt
        hone.pte_lt hone.slot hone.present value
      refine ⟨memory₂, hstored.tail ⟨pde, pte, value, hstore⟩, ?_⟩
      exact hshows'.congr hone.pagedir hone.pagetables

theorem rewritten_setEntry (htabled : m.Tabled virt)
    (hvirt : virt < 4294967296) (value : BitVec 32)
    (hdir : m'.pagedir =
      (m.setEntry (pdeIndex virt) (pteIndex virt) value).pagedir)
    (htables : m'.pagetables =
      (m.setEntry (pdeIndex virt) (pteIndex virt) value).pagetables) :
    m.Rewritten m' := by
  apply Relation.ReflTransGen.single
  refine ⟨pdeIndex virt, pteIndex virt, value, ?_, ?_, htabled.slot,
    htabled.present, hdir, htables⟩
  · rw [pdeIndex_eq hvirt]
    omega
  · rw [pteIndex_eq]
    omega

theorem rewritten_mapSinglePage (htabled : m.Tabled virt)
    (hvirt : virt < 4294967296) (phys : ℕ) (flags : BitVec 8)
    (userAccess : Bool) :
    m.Rewritten (mapSinglePage m virt phys flags userAccess) := by
  apply rewritten_setEntry htabled hvirt (mappedEntry phys flags userAccess)
  · unfold mapSinglePage
    dsimp only
    split <;> rfl
  · unfold mapSinglePage
    dsimp only
    split <;> rfl

theorem rewritten_remapSinglePage (htabled : m.Tabled virt)
    (hvirt : virt < 4294967296) (flags : BitVec 8) (userAccess : Bool) :
    m.Rewritten (remapSinglePage m virt flags userAccess) := by
  apply rewritten_setEntry htabled hvirt
    (remappedEntry (m.entry (pdeIndex virt) (pteIndex virt)) flags userAccess)
  · unfold remapSinglePage
    dsimp only
    split <;> rfl
  · unfold remapSinglePage
    dsimp only
    split <;> rfl

section Range

variable {virtBase i left : ℕ}

theorem rewritten_mapPages {physbase : ℕ} (flags : BitVec 8)
    (userAccess : Bool) (h : m.TabledRange virtBase i left)
    (hmap : mapPages virtBase physbase flags userAccess left i m = .ok m') :
    m.Rewritten m' := by
  induction left generalizing i m with
  | zero =>
      simp only [mapPages, Except.ok.injEq] at hmap
      rw [hmap]
      exact .refl
  | succ left ih =>
      obtain ⟨htabled, hvirt⟩ := h.head
      simp only [mapPages, htabled.present, if_true] at hmap
      have hsets := sets_mapSinglePage htabled hvirt
        (physbase + i * archPageSize) flags userAccess
      exact (rewritten_mapSinglePage htabled hvirt _ flags userAccess).trans
        (ih (h.tail hsets.pagedir) hmap)

theorem rewritten_remapPages (flags : BitVec 8) (userAccess : Bool)
    (h : m.TabledRange virtBase i left) :
    m.Rewritten (remapPages virtBase flags userAccess left i m) := by
  induction left generalizing i m with
  | zero => exact .refl
  | succ left ih =>
      obtain ⟨htabled, hvirt⟩ := h.head
      have hkeeps := (updates_remapSinglePage htabled hvirt flags
        userAccess).keeps hvirt
      exact (rewritten_remapSinglePage htabled hvirt flags userAccess).trans
        (ih (h.tail hkeeps.pagedir))

theorem rewritten_unmapPages (h : m.TabledRange virtBase i left) :
    m.Rewritten (unmapPages virtBase left i m) := by
  induction left generalizing i m with
  | zero => exact .refl
  | succ left ih =>
      obtain ⟨htabled, hvirt⟩ := h.head
      have hkeeps := (updates_unmap htabled hvirt).keeps hvirt
      have hone : m.Rewritten (flushTlbFor
          (m.setEntry (pdeIndex (virtBase + i * archPageSize))
            (pteIndex (virtBase + i * archPageSize)) 0)
          (virtBase + i * archPageSize)) :=
        rewritten_setEntry htabled hvirt 0 rfl rfl
      exact hone.trans (ih (h.tail hkeeps.pagedir))

end Range

end Rewritten

/-! ## Calls -/

section Calls

variable {m m' : Tables} {virtBase pageCount : ℕ} {flags : BitVec 8}
  {userAccess : Bool} {ret : Except Errno Unit}

theorem tabledRange_of_valid
    (htabled : ∀ j < pageCount, m.Tabled (virtBase + j * archPageSize))
    (hvalid : assertAddrValid virtBase pageCount = .ok ()) :
    m.TabledRange virtBase 0 pageCount := by
  refine ⟨fun j _ hj => htabled j (by omega), ?_⟩
  rw [Nat.zero_add]
  exact assertAddrValid_room hvalid

theorem rewritten_archMmuMap {frames frames' : Frames} {physbase : ℕ}
    (htabled : ∀ j < pageCount, m.Tabled (virtBase + j * archPageSize))
    (h : archMmuMap m frames virtBase physbase pageCount flags userAccess =
      .ok (ret, m', frames')) : m.Rewritten m' := by
  unfold archMmuMap at h
  obtain ⟨_, hvirt, h⟩ := bind_eq_ok h
  obtain ⟨_, -, h⟩ := bind_eq_ok h
  obtain ⟨_, -, h⟩ := bind_eq_ok h
  split at h
  · cases h
    exact .refl
  · rw [createTables_of_present
      (fun j _ hj => (htabled j (by omega)).present)] at h
    obtain ⟨mapped, hmap, h⟩ := bind_eq_ok h
    cases h
    exact rewritten_mapPages flags userAccess
      (tabledRange_of_valid htabled hvirt) hmap

theorem rewritten_archMmuRemap
    (htabled : ∀ j < pageCount, m.Tabled (virtBase + j * archPageSize))
    (h : archMmuRemap m virtBase pageCount flags userAccess =
      .ok (ret, m')) : m.Rewritten m' := by
  unfold archMmuRemap at h
  obtain ⟨_, hvirt, h⟩ := bind_eq_ok h
  split at h
  · cases h
    exact .refl
  · split at h
    · cases h
      exact .refl
    · cases h
      exact rewritten_remapPages flags userAccess
        (tabledRange_of_valid htabled hvirt)

theorem rewritten_archMmuUnmap
    (htabled : ∀ j < pageCount, m.Tabled (virtBase + j * archPageSize))
    (h : archMmuUnmap m virtBase pageCount = .ok (ret, m')) :
    m.Rewritten m' := by
  unfold archMmuUnmap at h
  obtain ⟨_, hvirt, h⟩ := bind_eq_ok h
  split at h
  · cases h
    exact .refl
  · cases h
    exact rewritten_unmapPages (tabledRange_of_valid htabled hvirt)

theorem rewritten_archMmuScratchMap {physaddr : ℕ} {cacheInhibit : Bool}
    (h : archMmuScratchMap m physaddr cacheInhibit = .ok m') :
    m.Rewritten m' := by
  unfold archMmuScratchMap at h
  obtain ⟨_, -, h⟩ := bind_eq_ok h
  obtain ⟨_, hpresent, h⟩ := bind_eq_ok h
  have htabled : m.Tabled scratchMapBase :=
    ⟨cAssert_eq_ok hpresent, by decide⟩
  cases h
  apply rewritten_setEntry htabled (by decide)
    (scratchEntry physaddr cacheInhibit)
  · split <;> rfl
  · split <;> rfl

end Calls

/-! ## Runs -/

section Runs

variable {memory memory₀ : Word → Word} {cr3 : Word} {m m' : Tables}
  {c c' : Cpu} {op : Op}

theorem Tables.Rewritten.pagedir (h : m.Rewritten m') :
    m'.pagedir = m.pagedir := by
  induction h with
  | refl => rfl
  | tail _ hstores ih =>
      obtain ⟨pde, pte, value, hone⟩ := hstores
      rw [hone.pagedir, ← ih]
      simp [Tables.setEntry, hone.slot]

/-- What a step can do: a call writes entries and empties the cache of some
pages, an access caches one translation more. -/
theorem step_cases (hadmits : Admits c op) (hout : op.OutsideWindow)
    (hstep : step c op = .ok c') :
    (∃ m frames, c.tables.unrecorded.Rewritten m ∧ c' = c.update m frames) ∨
      (c'.tables = c.tables ∧ ∀ t ∈ c'.tlb, t ∈ c.tlb ∨
        ∃ virt ≤ sizeMax, c.tables.walk virt = some t) := by
  cases op with
  | map virtBase physbase pageCount flags userAccess =>
      obtain ⟨⟨ret, m, frames⟩, hmap, hstep⟩ := bind_eq_ok hstep
      cases hstep
      exact Or.inl ⟨m, frames, rewritten_archMmuMap
        (fun j hj => hadmits.tabled hout ⟨j, hj, rfl⟩) hmap, rfl⟩
  | remap virtBase pageCount flags userAccess =>
      obtain ⟨⟨ret, m⟩, hremap, hstep⟩ := bind_eq_ok hstep
      cases hstep
      exact Or.inl ⟨m, c.frames, rewritten_archMmuRemap
        (fun j hj => hadmits.tabled hout ⟨j, hj, rfl⟩) hremap, rfl⟩
  | unmap virtBase pageCount =>
      obtain ⟨⟨ret, m⟩, hunmap, hstep⟩ := bind_eq_ok hstep
      cases hstep
      exact Or.inl ⟨m, c.frames, rewritten_archMmuUnmap
        (fun j hj => hadmits.tabled hout ⟨j, hj, rfl⟩) hunmap, rfl⟩
  | scratchMap physaddr cacheInhibit =>
      obtain ⟨m, hscratch, hstep⟩ := bind_eq_ok hstep
      cases hstep
      exact Or.inl ⟨m, c.frames, rewritten_archMmuScratchMap hscratch, rfl⟩
  | access virt =>
      right
      simp only [step] at hstep
      split at hstep
      next t hwalk =>
        cases hstep
        refine ⟨rfl, fun t' ht' => ?_⟩
        rcases List.mem_cons.mp ht' with rfl | ht'
        · exact Or.inr ⟨virt, hadmits.words, hwalk⟩
        · exact Or.inl ht'
      next =>
        cases hstep
        exact ⟨rfl, fun t' ht' => Or.inl ht'⟩

/-- The directory slot lets the user through where the translation does. -/
def Translation.SlotUser (t : Translation) (m : Tables) : Prop :=
  t.user = true →
    has (m.pagedir (pdeIndex (t.page * archPageSize))) flagUs = true

theorem slotUser_of_walk {virt : ℕ} {t : Translation}
    (hvirt : virt ≤ sizeMax) (h : m.walk virt = some t) : t.SlotUser m := by
  simp only [Tables.walk, Option.ite_none_right_eq_some,
    Option.some.injEq] at h
  obtain ⟨-, rfl⟩ := h
  unfold sizeMax at hvirt
  have hdir : pdeIndex (virt / 4096 * 4096) = pdeIndex virt := by
    rw [pdeIndex_eq (by omega), pdeIndex_eq (by omega)]
    omega
  have hpage : (Fin.ofNat 1048576 (virt / archPageSize) : ℕ) *
      archPageSize = virt / 4096 * 4096 := by
    simp only [Fin.val_ofNat, archPageSize]
    omega
  intro huser
  rw [hpage, hdir]
  exact (Bool.and_eq_true _ _ ▸ huser).1

/-- Memory has followed the tables, and the cache holds what they say. -/
structure Cpu.InMemory (c : Cpu) (memory₀ : Word → Word) (cr3 : Word) :
    Prop where
  follows : ∃ memory, WindowStores cr3 memory₀ memory ∧
    Shows memory cr3 c.tables
  coherent : c.Coherent
  slotUser : ∀ t ∈ c.tlb, t.SlotUser c.tables

theorem step_inMemory (h : c.InMemory memory₀ cr3) (hadmits : Admits c op)
    (hout : op.OutsideWindow) (hstep : step c op = .ok c') :
    c'.InMemory memory₀ cr3 := by
  obtain ⟨memory, hstored, hshows⟩ := h.follows
  have hcoherent := step_coherent h.coherent hadmits hout hstep
  rcases step_cases hadmits hout hstep with
    ⟨m, frames, hrewritten, rfl⟩ | ⟨htables, htlb⟩
  · have hunrecorded : Shows memory cr3 c.tables.unrecorded :=
      hshows.congr rfl rfl
    obtain ⟨memory', hstored', hshows'⟩ := hunrecorded.rewritten hrewritten
    refine ⟨⟨memory', hstored.trans hstored', hshows'⟩, hcoherent, ?_⟩
    intro t ht huser
    have ht' := (List.mem_filter.mp ht).1
    show has (m.pagedir _) flagUs = true
    rw [hrewritten.pagedir]
    exact h.slotUser t ht' huser
  · refine ⟨⟨memory, hstored, ?_⟩, hcoherent, ?_⟩
    · rw [htables]
      exact hshows
    · intro t ht
      rw [htables]
      rcases htlb t ht with hold | ⟨virt, hvirt, hwalk⟩
      · exact h.slotUser t hold
      · exact slotUser_of_walk hvirt hwalk

theorem Shows.walk_backed (h : Shows memory cr3 m) {t : Translation}
    (hbacked : t.Backed m) (hslot : t.SlotUser m) {write user : Bool}
    (hwrite : write = true → t.write = true)
    (huser : user = true → t.user = true) :
    walk memory cr3 (t.page * archPageSize) write user = some t.frame := by
  have hpage := t.page.isLt
  have hvirt : (t.page : ℕ) * archPageSize < 4294967296 := by
    unfold archPageSize
    omega
  have hpde : pdeIndex (t.page * archPageSize) < 1024 := by
    rw [pdeIndex_eq hvirt]
    omega
  have hoffset : (t.page : ℕ) * archPageSize % 4096 = 0 := by
    unfold archPageSize
    omega
  obtain ⟨hdir, hmapped⟩ := checkPresence_eq_ok.mp hbacked.present
  have hpasses : passes (m.pagedir (pdeIndex (t.page * archPageSize)))
      write user = true := by
    unfold passes
    rw [hdir, h.writable _ hpde hdir]
    cases user with
    | false => simp
    | true => simp [hslot (huser rfl)]
  have hpasses' : passes (m.pageEntry (t.page * archPageSize))
      write user = true := by
    unfold Tables.Mapped at hmapped
    unfold passes
    rw [hmapped]
    cases write with
    | false =>
        cases user with
        | false => simp
        | true => simp [hbacked.user (huser rfl)]
    | true =>
        cases user with
        | false => simp [hbacked.write (hwrite rfl)]
        | true =>
            simp [hbacked.write (hwrite rfl), hbacked.user (huser rfl)]
  rw [h.walk_eq hvirt, hpasses, hpasses', hoffset, hbacked.frame]
  rfl

theorem reachable_inMemory
    (hreach : TransitionRun.Reachable
      (fun c => Start c ∧ Shows memory₀ cr3 c.tables)
      (fun c op => Admits c op ∧ op.OutsideWindow) step c) :
    c.InMemory memory₀ cr3 := by
  apply hreach.invariant
  · rintro c ⟨hstart, hshows⟩
    refine ⟨⟨memory₀, .refl, hshows⟩, ?_, ?_⟩
    · intro t ht
      rw [hstart.tlb] at ht
      contradiction
    · intro t ht
      rw [hstart.tlb] at ht
      contradiction
  · intro c op c' h hadmits hstep
    exact step_inMemory h hadmits.1 hadmits.2 hstep

/-- In every run of calls which leave the window alone, physical memory
changes by stores through the window only.  What the cache allows is then what
the processor would read from memory again, and `arch_mmu_emulate` finds what
the processor finds. -/
theorem cached_walk
    (hreach : TransitionRun.Reachable
      (fun c => Start c ∧ Shows memory₀ cr3 c.tables)
      (fun c op => Admits c op ∧ op.OutsideWindow) step c) :
    ∃ memory, WindowStores cr3 memory₀ memory ∧
      (∀ t ∈ c.tlb, ∀ write user, (write = true → t.write = true) →
        (user = true → t.user = true) →
        walk memory cr3 (t.page * archPageSize) write user =
          some t.frame) ∧
      ∀ virt < 4294967296, ∀ flags user frame,
        archMmuEmulate c.tables virt flags user = .ok frame ↔
          walk memory cr3 virt (hasProt flags mapProtWrite) user =
            some (frame + virt % 4096) := by
  have hinv := reachable_inMemory hreach
  obtain ⟨memory, hstored, hshows⟩ := hinv.follows
  refine ⟨memory, hstored, ?_, ?_⟩
  · intro t ht write user hwrite huser
    exact hshows.walk_backed (hinv.coherent t ht) (hinv.slotUser t ht)
      hwrite huser
  · intro virt hvirt flags user frame
    exact hshows.emulate_iff hvirt flags user frame

end Runs

/-- A kernel page is read, write protected and read again behind the boot
code. -/
theorem cached_walk_boot_run :
    ∃ memory, WindowStores 0x102000#32
        (BootPaging.bootMemory BootPaging.sampleImage fun _ => 0) memory ∧
      walk memory 0x102000#32 0xc0001000 false false = some 0x204000 := by
  have hat : ∀ virt, (∃ i < 1, virt = 0xc0001000 + i * archPageSize) →
      pdeIndex virt = 768 := by
    rintro virt ⟨i, hi, rfl⟩
    obtain rfl : i = 0 := by omega
    decide
  have hshows : Shows
      (BootPaging.bootMemory BootPaging.sampleImage fun _ => 0) 0x102000#32
      BootPaging.sampleImage.tables :=
    BootPaging.bootMemory_shows fun _ _ _ => rfl
  have hreach : TransitionRun.Reachable
      (fun c => Start c ∧ Shows
        (BootPaging.bootMemory BootPaging.sampleImage fun _ => 0)
        0x102000#32 c.tables)
      (fun c op => Admits c op ∧ op.OutsideWindow) step
      ⟨BootPaging.sampleImage.tables, ⟨[], []⟩, []⟩ := .start ⟨⟨rfl⟩, hshows⟩
  have hreach := hreach.next (a := .access 0xc0001000)
    ⟨⟨by decide, by rintro _ ⟨⟩⟩, by rintro _ ⟨⟩⟩ rfl
  have hreach := hreach.next (a := .remap 0xc0001000 1 mapProtRead false)
    ⟨⟨by decide, fun virt h => by rw [hat virt h]; rfl⟩,
      fun virt h => by rw [hat virt h]; decide⟩ rfl
  have hreach := hreach.next (a := .access 0xc0001000)
    ⟨⟨by decide, by rintro _ ⟨⟩⟩, by rintro _ ⟨⟩⟩ rfl
  obtain ⟨memory, hstored, hwalk, -⟩ := cached_walk hreach
  refine ⟨memory, hstored, ?_⟩
  exact hwalk ⟨0xc0001, 0x204000, false, false⟩ (by decide +kernel) false
    false (by decide) (by decide)

end Mmu
end Yjkos
