import Yjkos.Mmu
import Yjkos.TransitionRun

/-!
# Cached translations

The processor keeps translations it has read from the page tables until they
are flushed.  The functions of `kernel/arch/i586/mmu.c` flush a page only
when its new entry takes something away, so a cached translation has to be
covered by the entry which is in the table now.  Every directory slot has a
page table of its own (`entry.S`).
-/

namespace Yjkos
namespace Mmu

/-! ## Flags of the entries -/

theorem has_twoPow (entry : BitVec 32) {i : ℕ} (hi : i < 32) :
    has entry (BitVec.twoPow 32 i) = entry.getLsbD i := by
  unfold has
  rw [BitVec.and_twoPow]
  cases entry.getLsbD i with
  | false => simp
  | true =>
      have hne : BitVec.twoPow 32 i ≠ 0 := by
        intro hzero
        have hbit := congrArg (fun b => b.getLsbD i) hzero
        simp [hi] at hbit
      simpa using hne

theorem has_flagP (entry : BitVec 32) :
    has entry flagP = entry.getLsbD 0 :=
  has_twoPow entry (i := 0) (by decide)

theorem has_flagRw (entry : BitVec 32) :
    has entry flagRw = entry.getLsbD 1 :=
  has_twoPow entry (i := 1) (by decide)

theorem has_flagUs (entry : BitVec 32) :
    has entry flagUs = entry.getLsbD 2 :=
  has_twoPow entry (i := 2) (by decide)

/-- Whatever the old entry grants, the new one grants for the same frame. -/
structure Covers (entry oldpte : BitVec 32) : Prop where
  present : has entry flagP = true
  frame : frameOf entry = frameOf oldpte
  write : has oldpte flagRw = true → has entry flagRw = true
  user : has oldpte flagUs = true → has entry flagUs = true

theorem frameOf_remappedEntry (oldpte : BitVec 32) (flags : BitVec 8)
    (userAccess : Bool) :
    frameOf (remappedEntry oldpte flags userAccess) = frameOf oldpte := by
  have hflags : ∀ low : BitVec 32, low &&& ~~~0xfff#32 = 0 →
      (oldpte &&& ~~~(0xfff#32 &&& ~~~flagP) ||| low) &&& ~~~0xfff#32 =
        oldpte &&& ~~~0xfff#32 := by
    intro low hlow
    have hmask : ~~~(0xfff#32 &&& ~~~flagP) &&& ~~~0xfff#32 =
        ~~~0xfff#32 := by decide
    rw [BitVec.and_comm, BitVec.and_or_distrib_left, BitVec.and_comm,
      BitVec.and_assoc, hmask, BitVec.and_comm (~~~0xfff#32) low, hlow]
    simp
  unfold frameOf remappedEntry
  rw [BitVec.or_assoc, BitVec.or_assoc]
  rw [hflags]
  cases hasProt flags mapProtWrite <;>
    cases hasProt flags mapProtNocache <;> cases userAccess <;> decide

theorem covers_remappedEntry {oldpte : BitVec 32} {flags : BitVec 8}
    {userAccess : Bool} (hpresent : has oldpte flagP = true)
    (hkeep : (has oldpte flagRw && !hasProt flags mapProtWrite ||
      has oldpte flagUs && !userAccess) = false) :
    Covers (remappedEntry oldpte flags userAccess) oldpte := by
  simp only [Bool.or_eq_false_iff, Bool.and_eq_false_imp,
    Bool.not_eq_false'] at hkeep
  constructor
  · rw [has_flagP] at hpresent ⊢
    simp [remappedEntry, hpresent, flagP]
  · exact frameOf_remappedEntry oldpte flags userAccess
  · intro hwrite
    rw [has_flagRw]
    simp [remappedEntry, hkeep.1 hwrite, flagRw]
  · intro huser
    rw [has_flagUs]
    simp [remappedEntry, hkeep.2 huser, flagUs]

theorem covers_mappedEntry {oldpte : BitVec 32} {phys : ℕ}
    {flags : BitVec 8} {userAccess : Bool} (hphys : phys < 4294967296)
    (halign : phys % 4096 = 0) (hpresent : has oldpte flagP = true)
    (hkeep : shouldFlush oldpte phys flags userAccess = false) :
    Covers (mappedEntry phys flags userAccess) oldpte := by
  simp only [shouldFlush, hpresent, Bool.true_and, Bool.or_eq_false_iff,
    Bool.and_eq_false_imp, Bool.not_eq_false', bne_eq_false_iff_eq] at hkeep
  obtain ⟨⟨hwrite, huser⟩, hframe⟩ := hkeep
  constructor
  · exact has_flagP_mappedEntry phys flags userAccess
  · rw [frameOf_mappedEntry hphys halign]
    exact hframe.symm
  · intro h
    rw [has_flagRw]
    simp [mappedEntry, hwrite h, flagRw]
  · intro h
    rw [has_flagUs]
    simp [mappedEntry, huser h, flagUs]

/-- `arch_mmu_scratch_map` builds the entry of a writable kernel page. -/
theorem scratchEntry_eq (physaddr : ℕ) (cacheInhibit : Bool) :
    scratchEntry physaddr cacheInhibit =
      mappedEntry physaddr
        (if cacheInhibit then mapProtWrite ||| mapProtNocache
          else mapProtWrite) false := by
  cases cacheInhibit <;> simp [scratchEntry, mappedEntry, hasProt,
    mapProtWrite, mapProtNocache]

theorem covers_scratchEntry {oldpte : BitVec 32} {physaddr : ℕ}
    {cacheInhibit : Bool} (hphys : physaddr < 4294967296)
    (halign : physaddr % 4096 = 0) (hpresent : has oldpte flagP = true)
    (hkeep : (has oldpte flagUs || frameOf oldpte != physaddr) = false) :
    Covers (scratchEntry physaddr cacheInhibit) oldpte := by
  rw [scratchEntry_eq]
  apply covers_mappedEntry hphys halign hpresent
  have hwrite : hasProt (if cacheInhibit then mapProtWrite ||| mapProtNocache
      else mapProtWrite) mapProtWrite = true := by
    cases cacheInhibit <;> decide
  simpa [shouldFlush, hpresent, hwrite] using hkeep

/-! ## Updates of one page -/

/-- A cached translation. -/
structure Translation where
  page : Fin 1048576
  frame : ℕ
  write : Bool
  user : Bool
deriving Repr, DecidableEq

/-- The translation is what the tables say, or grants less. -/
structure Translation.Backed (t : Translation) (m : Tables) : Prop where
  present : checkPresence m (t.page * archPageSize) = .ok ()
  frame : t.frame = frameOf (m.pageEntry (t.page * archPageSize))
  write : t.write = true →
    has (m.pageEntry (t.page * archPageSize)) flagRw = true
  user : t.user = true →
    has (m.pageEntry (t.page * archPageSize)) flagUs = true

/-- The page of the translation has been flushed. -/
def Tables.Flushed (m : Tables) (page : ℕ) : Prop :=
  ∃ ptr ∈ m.invalidated, ptr / archPageSize = page

instance (m : Tables) (page : ℕ) : Decidable (m.Flushed page) :=
  inferInstanceAs (Decidable (∃ ptr ∈ m.invalidated, _))

/-- One entry is replaced, and its page is flushed unless the new entry
covers the old one. -/
structure Tables.Updates (m m' : Tables) (virt : ℕ) : Prop where
  sets : ∃ entry, m.Sets m' virt entry ∧
    (virt ∈ m'.invalidated ∨
      (m.Mapped virt → Covers entry (m.pageEntry virt)))
  invalidated : m.invalidated ⊆ m'.invalidated

section Updates

variable {m m' : Tables} {virt : ℕ}

theorem pageEntry_page (m : Tables) {virt : ℕ} (hvirt : virt < 4294967296) :
    m.pageEntry (virt / 4096 * 4096) = m.pageEntry virt := by
  unfold Tables.pageEntry
  rw [pdeIndex_eq hvirt, pdeIndex_eq (by omega), pteIndex_eq, pteIndex_eq,
    show virt / 4096 * 4096 / 4194304 = virt / 4194304 by omega,
    show virt / 4096 * 4096 / 4096 = virt / 4096 by omega]

theorem checkPresence_eq_ok :
    checkPresence m virt = .ok () ↔
      has (m.pagedir (pdeIndex virt)) flagP = true ∧ m.Mapped virt := by
  unfold checkPresence Tables.Mapped Tables.pageEntry
  split_ifs with hdir hentry <;> simp_all

/-- The step lemma: a translation whose page has not been flushed is still
backed after one entry was replaced. -/
theorem Tables.Updates.backed (h : m.Updates m' virt)
    (hvirt : virt < 4294967296) {t : Translation} (hbacked : t.Backed m)
    (hflushed : ¬m'.Flushed t.page) : t.Backed m' := by
  obtain ⟨entry, hsets, hcover⟩ := h.sets
  obtain ⟨hdir, hmapped⟩ := checkPresence_eq_ok.mp hbacked.present
  have hpage := t.page.isLt
  by_cases hother : (t.page : ℕ) = virt / 4096
  · -- the page itself: it was not flushed, so the new entry covers the old
    have hunflushed : virt ∉ m'.invalidated := by
      intro hmem
      exact hflushed ⟨virt, hmem, hother.symm⟩
    have hnew : m'.pageEntry (t.page * archPageSize) = entry := by
      rw [hother, archPageSize, pageEntry_page m' hvirt, hsets.entry_eq]
    have hold : m.pageEntry (t.page * archPageSize) = m.pageEntry virt := by
      rw [hother, archPageSize, pageEntry_page m hvirt]
    have hcovers := hcover.resolve_left hunflushed (by
      unfold Tables.Mapped at hmapped ⊢
      rwa [← hold])
    rw [← hold] at hcovers
    refine ⟨?_, ?_, ?_, ?_⟩
    · rw [checkPresence_eq_ok, hsets.pagedir, Tables.Mapped, hnew]
      exact ⟨hdir, hcovers.present⟩
    · rw [hnew, hcovers.frame]
      exact hbacked.frame
    · intro hwrite
      rw [hnew]
      exact hcovers.write (hbacked.write hwrite)
    · intro huser
      rw [hnew]
      exact hcovers.user (hbacked.user huser)
  · have hsame : m'.pageEntry (t.page * archPageSize) =
        m.pageEntry (t.page * archPageSize) := by
      apply hsets.other
      · unfold archPageSize
        omega
      · unfold archPageSize
        omega
    refine ⟨?_, ?_, ?_, ?_⟩
    · rw [checkPresence_eq_ok, hsets.pagedir, Tables.Mapped, hsame]
      exact ⟨hdir, hmapped⟩
    · rw [hsame]
      exact hbacked.frame
    · rw [hsame]
      exact hbacked.write
    · rw [hsame]
      exact hbacked.user

theorem invalidated_setEntry (m : Tables) (pde pte : ℕ)
    (value : BitVec 32) :
    (m.setEntry pde pte value).invalidated = m.invalidated := by
  unfold Tables.setEntry
  split <;> rfl

theorem updates_setEntry (htabled : m.Tabled virt)
    (hvirt : virt < 4294967296) {entry : BitVec 32} (flush : Bool)
    (hcover : flush = false → m.Mapped virt →
      Covers entry (m.pageEntry virt)) :
    m.Updates
      (if flush then
        flushTlbFor (m.setEntry (pdeIndex virt) (pteIndex virt) entry) virt
      else m.setEntry (pdeIndex virt) (pteIndex virt) entry) virt := by
  have hsets := sets_setEntry htabled hvirt entry
  cases flush with
  | true =>
      refine ⟨⟨entry, sets_flushTlbFor hsets virt, Or.inl ?_⟩, ?_⟩ <;>
        simp [flushTlbFor, invalidated_setEntry]
  | false =>
      refine ⟨⟨entry, hsets, Or.inr (hcover rfl)⟩, ?_⟩
      simp [invalidated_setEntry]

theorem updates_mapSinglePage (htabled : m.Tabled virt)
    (hvirt : virt < 4294967296) {phys : ℕ} (hphys : phys < 4294967296)
    (halign : phys % 4096 = 0) (flags : BitVec 8) (userAccess : Bool) :
    m.Updates (mapSinglePage m virt phys flags userAccess) virt :=
  updates_setEntry htabled hvirt _ fun hflush hmapped =>
    covers_mappedEntry hphys halign hmapped hflush

theorem updates_remapSinglePage (htabled : m.Tabled virt)
    (hvirt : virt < 4294967296) (flags : BitVec 8) (userAccess : Bool) :
    m.Updates (remapSinglePage m virt flags userAccess) virt :=
  updates_setEntry htabled hvirt _ fun hflush hmapped =>
    covers_remappedEntry hmapped hflush

theorem updates_unmap (htabled : m.Tabled virt)
    (hvirt : virt < 4294967296) :
    m.Updates
      (flushTlbFor (m.setEntry (pdeIndex virt) (pteIndex virt) 0) virt)
      virt :=
  updates_setEntry htabled hvirt true (by simp)

theorem updates_scratchMap {physaddr : ℕ} {cacheInhibit : Bool}
    (hphys : physaddr < 4294967296)
    (h : archMmuScratchMap m physaddr cacheInhibit = .ok m') :
    m.Updates m' scratchMapBase := by
  unfold archMmuScratchMap at h
  obtain ⟨_, halign, h⟩ := bind_eq_ok h
  obtain ⟨_, hpresent, h⟩ := bind_eq_ok h
  have hdvd := isAligned_iff.mp (cAssert_eq_ok halign)
  have htabled : m.Tabled scratchMapBase :=
    ⟨cAssert_eq_ok hpresent, by decide⟩
  cases h
  apply updates_setEntry htabled (by decide)
  intro hkeep hmapped
  have hpage : m.pageEntry scratchMapBase = m.entry scratchPde scratchPte :=
    rfl
  have hold : has (m.entry scratchPde scratchPte) flagP = true := hmapped
  rw [hold, Bool.true_and] at hkeep
  rw [hpage]
  exact covers_scratchEntry hphys (Nat.mod_eq_zero_of_dvd hdvd) hold hkeep

/-! ## Updates of many pages -/

/-- Only flushed translations lose their backing. -/
structure Tables.Keeps (m m' : Tables) : Prop where
  pagedir : m'.pagedir = m.pagedir
  invalidated : m.invalidated ⊆ m'.invalidated
  backed : ∀ t : Translation, t.Backed m → ¬m'.Flushed t.page →
    t.Backed m'

theorem Tables.Keeps.refl (m : Tables) : m.Keeps m :=
  ⟨rfl, List.Subset.refl _, fun _ h _ => h⟩

theorem Tables.Keeps.trans {m'' : Tables} (h : m.Keeps m')
    (h' : m'.Keeps m'') : m.Keeps m'' := by
  refine ⟨h'.pagedir.trans h.pagedir,
    List.Subset.trans h.invalidated h'.invalidated, ?_⟩
  intro t hbacked hflushed
  apply h'.backed t _ hflushed
  apply h.backed t hbacked
  rintro ⟨ptr, hmem, hpage⟩
  exact hflushed ⟨ptr, h'.invalidated hmem, hpage⟩

theorem Tables.Updates.keeps (h : m.Updates m' virt)
    (hvirt : virt < 4294967296) : m.Keeps m' := by
  obtain ⟨entry, hsets, -⟩ := h.sets
  exact ⟨hsets.pagedir, h.invalidated,
    fun t hbacked hflushed => h.backed hvirt hbacked hflushed⟩

/-- The pages from `virtBase` on have tables and end before the address
space does. -/
structure Tables.TabledRange (m : Tables) (virtBase i left : ℕ) :
    Prop where
  tabled : ∀ j, i ≤ j → j < i + left →
    m.Tabled (virtBase + j * archPageSize)
  room : 0 < left → virtBase + (i + left) * archPageSize ≤ sizeMax

section Range

variable {virtBase i left : ℕ}

theorem Tables.TabledRange.head (h : m.TabledRange virtBase i (left + 1)) :
    m.Tabled (virtBase + i * archPageSize) ∧
      virtBase + i * archPageSize < 4294967296 := by
  have hroom := h.room (by omega)
  unfold archPageSize sizeMax at *
  exact ⟨h.tabled i le_rfl (by omega), by omega⟩

theorem Tables.TabledRange.tail (h : m.TabledRange virtBase i (left + 1))
    (hpagedir : m'.pagedir = m.pagedir) :
    m'.TabledRange virtBase (i + 1) left := by
  constructor
  · intro j hj hlt
    have htabled := h.tabled j (by omega) (by omega)
    exact ⟨hpagedir ▸ htabled.present, htabled.slot⟩
  · intro _
    have hroom := h.room (by omega)
    rwa [show i + 1 + left = i + (left + 1) by omega]

theorem keeps_mapPages {physbase : ℕ} (flags : BitVec 8)
    (userAccess : Bool) (halign : physbase % 4096 = 0)
    (hphys : 0 < left → physbase + (i + left) * archPageSize ≤ sizeMax)
    (h : m.TabledRange virtBase i left)
    (hmap : mapPages virtBase physbase flags userAccess left i m = .ok m') :
    m.Keeps m' := by
  induction left generalizing i m with
  | zero =>
      simp only [mapPages, Except.ok.injEq] at hmap
      exact hmap ▸ Tables.Keeps.refl m
  | succ left ih =>
      obtain ⟨htabled, hvirt⟩ := h.head
      have hroom := hphys (by omega)
      simp only [mapPages, htabled.present, if_true] at hmap
      have hpage : physbase + i * archPageSize < 4294967296 := by
        have hle : i * archPageSize ≤ (i + (left + 1)) * archPageSize :=
          Nat.mul_le_mul_right _ (Nat.le_add_right i (left + 1))
        have hend := (Nat.add_le_add_left hle physbase).trans hroom
        exact lt_of_le_of_lt hend (show sizeMax < 4294967296 by decide)
      have hone := (updates_mapSinglePage htabled hvirt hpage
        (by unfold archPageSize; omega) flags userAccess).keeps hvirt
      apply hone.trans
      refine ih ?_ (h.tail hone.pagedir) hmap
      intro _
      rw [show i + 1 + left = i + (left + 1) by omega]
      exact hroom

theorem keeps_remapPages (flags : BitVec 8) (userAccess : Bool)
    (h : m.TabledRange virtBase i left) :
    m.Keeps (remapPages virtBase flags userAccess left i m) := by
  induction left generalizing i m with
  | zero => exact Tables.Keeps.refl m
  | succ left ih =>
      obtain ⟨htabled, hvirt⟩ := h.head
      have hone := (updates_remapSinglePage htabled hvirt flags
        userAccess).keeps hvirt
      exact hone.trans (ih (h.tail hone.pagedir))

theorem keeps_unmapPages (h : m.TabledRange virtBase i left) :
    m.Keeps (unmapPages virtBase left i m) := by
  induction left generalizing i m with
  | zero => exact Tables.Keeps.refl m
  | succ left ih =>
      obtain ⟨htabled, hvirt⟩ := h.head
      have hone := (updates_unmap htabled hvirt).keeps hvirt
      exact hone.trans (ih (h.tail hone.pagedir))

end Range

theorem createTables_of_present {frames : Frames} {virtBase i left : ℕ}
    (h : ∀ j, i ≤ j → j < i + left →
      has (m.pagedir (pdeIndex (virtBase + j * archPageSize))) flagP =
        true) :
    createTables virtBase left i m frames = (true, m, frames) := by
  induction left generalizing i with
  | zero => rfl
  | succ left ih =>
      unfold createTables
      rw [if_pos (h i le_rfl (by omega))]
      apply ih
      intro j hj hlt
      exact h j (by omega) (by omega)

theorem assertAddrValid_room {addr count : ℕ}
    (h : assertAddrValid addr count = .ok ()) :
    0 < count → addr + count * archPageSize ≤ sizeMax := by
  intro hcount
  unfold assertAddrValid at h
  obtain ⟨_, -, h⟩ := bind_eq_ok h
  obtain ⟨_, -, h⟩ := bind_eq_ok h
  have hroom := cAssert_eq_ok h
  simp only [not_lt, decide_eq_true_eq] at hroom
  unfold archPageSize sizeMax at *
  omega

end Updates

/-! ## Runs -/

structure Cpu where
  tables : Tables
  frames : Frames
  tlb : List Translation

inductive Op where
  | map (virtBase physbase pageCount : ℕ) (flags : BitVec 8)
      (userAccess : Bool)
  | remap (virtBase pageCount : ℕ) (flags : BitVec 8) (userAccess : Bool)
  | unmap (virtBase pageCount : ℕ)
  | scratchMap (physaddr : ℕ) (cacheInhibit : Bool)
  | access (virt : ℕ)

/-- The translation which the processor reads from the tables. -/
def Tables.walk (m : Tables) (virt : ℕ) : Option Translation :=
  let pdEntry := m.pagedir (pdeIndex virt)
  let ptEntry := m.entry (pdeIndex virt) (pteIndex virt)
  if has pdEntry flagP && has ptEntry flagP then
    some
      { page := Fin.ofNat 1048576 (virt / archPageSize)
        frame := frameOf ptEntry
        write := has pdEntry flagRw && has ptEntry flagRw
        user := has pdEntry flagUs && has ptEntry flagUs }
  else none

def Tables.unrecorded (m : Tables) : Tables := { m with invalidated := [] }

/-- The flushed pages leave the cache. -/
def Cpu.update (c : Cpu) (m : Tables) (frames : Frames) : Cpu :=
  { tables := m
    frames := frames
    tlb := c.tlb.filter (fun t => ¬m.Flushed t.page) }

def step (c : Cpu) : Op → Except Fault Cpu
  | .map virtBase physbase pageCount flags userAccess => do
      let (_, m, frames) ← archMmuMap c.tables.unrecorded c.frames virtBase
        physbase pageCount flags userAccess
      .ok (c.update m frames)
  | .remap virtBase pageCount flags userAccess => do
      let (_, m) ← archMmuRemap c.tables.unrecorded virtBase pageCount
        flags userAccess
      .ok (c.update m c.frames)
  | .unmap virtBase pageCount => do
      let (_, m) ← archMmuUnmap c.tables.unrecorded virtBase pageCount
      .ok (c.update m c.frames)
  | .scratchMap physaddr cacheInhibit => do
      let m ← archMmuScratchMap c.tables.unrecorded physaddr cacheInhibit
      .ok (c.update m c.frames)
  | .access virt =>
      match c.tables.walk virt with
      | some t => .ok { c with tlb := t :: c.tlb }
      | none => .ok c

/-- The call changes the entry of the page at `virt`. -/
def Op.At : Op → ℕ → Prop
  | .map virtBase _ pageCount _ _, virt
  | .remap virtBase pageCount _ _, virt
  | .unmap virtBase pageCount, virt =>
      ∃ i < pageCount, virt = virtBase + i * archPageSize
  | .scratchMap _ _, virt => virt = scratchMapBase
  | .access _, _ => False

/-- Addresses are words. -/
def Op.Words : Op → Prop
  | .map virtBase physbase _ _ _ => virtBase ≤ sizeMax ∧ physbase ≤ sizeMax
  | .remap virtBase _ _ _ => virtBase ≤ sizeMax
  | .unmap virtBase _ => virtBase ≤ sizeMax
  | .scratchMap physaddr _ => physaddr ≤ sizeMax
  | .access virt => virt ≤ sizeMax

instance : DecidablePred Op.Words
  | .map _ _ _ _ _ => inferInstanceAs (Decidable (_ ∧ _))
  | .remap _ _ _ _ => Nat.decLe _ _
  | .unmap _ _ => Nat.decLe _ _
  | .scratchMap _ _ => Nat.decLe _ _
  | .access _ => Nat.decLe _ _

/-- The calls are on addresses whose page directory entry is present. -/
structure Admits (c : Cpu) (op : Op) : Prop where
  words : op.Words
  present : ∀ virt, op.At virt →
    has (c.tables.pagedir (pdeIndex virt)) flagP = true

/-- The call leaves the window of the recursive slot alone. -/
def Op.OutsideWindow (op : Op) : Prop :=
  ∀ virt, op.At virt → pdeIndex virt ≠ pagedirPde

structure Start (c : Cpu) : Prop where
  tlb : c.tlb = []

def Cpu.Coherent (c : Cpu) : Prop :=
  ∀ t ∈ c.tlb, t.Backed c.tables

section Runs

variable {c c' : Cpu}

theorem keeps_archMmuMap {m m' : Tables} {frames frames' : Frames}
    {virtBase physbase pageCount : ℕ} {flags : BitVec 8}
    {userAccess : Bool} {ret : Except Errno Unit}
    (htabled : ∀ j < pageCount, m.Tabled (virtBase + j * archPageSize))
    (h : archMmuMap m frames virtBase physbase pageCount flags userAccess =
      .ok (ret, m', frames')) : m.Keeps m' := by
  unfold archMmuMap at h
  obtain ⟨_, hvirt, h⟩ := bind_eq_ok h
  obtain ⟨_, hphys, h⟩ := bind_eq_ok h
  obtain ⟨_, halign, h⟩ := bind_eq_ok h
  have hdvd := isAligned_iff.mp (cAssert_eq_ok halign)
  split at h
  · cases h
    exact Tables.Keeps.refl m
  · rw [createTables_of_present
      (fun j _ hj => (htabled j (by omega)).present)] at h
    obtain ⟨mapped, hmap, h⟩ := bind_eq_ok h
    cases h
    refine keeps_mapPages flags userAccess (Nat.mod_eq_zero_of_dvd hdvd) ?_
      ?_ hmap
    · rw [Nat.zero_add]
      exact assertAddrValid_room hphys
    · refine ⟨fun j _ hj => htabled j (by omega), ?_⟩
      rw [Nat.zero_add]
      exact assertAddrValid_room hvirt

theorem keeps_archMmuRemap {m m' : Tables} {virtBase pageCount : ℕ}
    {flags : BitVec 8} {userAccess : Bool} {ret : Except Errno Unit}
    (htabled : ∀ j < pageCount, m.Tabled (virtBase + j * archPageSize))
    (h : archMmuRemap m virtBase pageCount flags userAccess =
      .ok (ret, m')) : m.Keeps m' := by
  unfold archMmuRemap at h
  obtain ⟨_, hvirt, h⟩ := bind_eq_ok h
  split at h
  · cases h
    exact Tables.Keeps.refl m
  · split at h
    · cases h
      exact Tables.Keeps.refl m
    · cases h
      apply keeps_remapPages
      refine ⟨fun j _ hj => htabled j (by omega), ?_⟩
      rw [Nat.zero_add]
      exact assertAddrValid_room hvirt

theorem keeps_archMmuUnmap {m m' : Tables} {virtBase pageCount : ℕ}
    {ret : Except Errno Unit}
    (htabled : ∀ j < pageCount, m.Tabled (virtBase + j * archPageSize))
    (h : archMmuUnmap m virtBase pageCount = .ok (ret, m')) :
    m.Keeps m' := by
  unfold archMmuUnmap at h
  obtain ⟨_, hvirt, h⟩ := bind_eq_ok h
  split at h
  · cases h
    exact Tables.Keeps.refl m
  · cases h
    apply keeps_unmapPages
    refine ⟨fun j _ hj => htabled j (by omega), ?_⟩
    rw [Nat.zero_add]
    exact assertAddrValid_room hvirt

theorem Translation.Backed.unrecorded {t : Translation} {m : Tables}
    (h : t.Backed m) : t.Backed m.unrecorded :=
  ⟨h.present, h.frame, h.write, h.user⟩

theorem Cpu.Coherent.update (h : c.Coherent) {m : Tables}
    (hkeeps : c.tables.unrecorded.Keeps m) (frames : Frames) :
    (c.update m frames).Coherent := by
  intro t ht
  simp only [Cpu.update, List.mem_filter, decide_eq_true_eq] at ht
  exact hkeeps.backed t (h t ht.1).unrecorded ht.2

theorem backed_of_walk {m : Tables} {virt : ℕ} {t : Translation}
    (hvirt : virt ≤ sizeMax) (h : m.walk virt = some t) : t.Backed m := by
  simp only [Tables.walk, Option.ite_none_right_eq_some, Bool.and_eq_true,
    Option.some.injEq] at h
  obtain ⟨hpresent, rfl⟩ := h
  unfold sizeMax at hvirt
  have hpage : (Fin.ofNat 1048576 (virt / archPageSize) : ℕ) *
      archPageSize = virt / 4096 * 4096 := by
    simp only [Fin.val_ofNat, archPageSize]
    omega
  have hword : virt < 4294967296 := by omega
  have hentry := pageEntry_page m hword
  have hdir : pdeIndex (virt / 4096 * 4096) = pdeIndex virt := by
    rw [pdeIndex_eq (by omega), pdeIndex_eq (by omega)]
    omega
  constructor
  · rw [hpage, checkPresence_eq_ok, Tables.Mapped, hentry, hdir]
    exact hpresent
  · rw [hpage, hentry]
    rfl
  · rw [hpage, hentry]
    intro hwrite
    exact (Bool.and_eq_true _ _ ▸ hwrite).2
  · rw [hpage, hentry]
    intro huser
    exact (Bool.and_eq_true _ _ ▸ huser).2

theorem Admits.tabled {op : Op} (h : Admits c op) (hout : op.OutsideWindow)
    {virt : ℕ} (hat : op.At virt) : c.tables.unrecorded.Tabled virt :=
  ⟨h.present virt hat, hout virt hat⟩

theorem step_coherent {op : Op} (h : c.Coherent) (hadmits : Admits c op)
    (hout : op.OutsideWindow) (hstep : step c op = .ok c') :
    c'.Coherent := by
  cases op with
  | map virtBase physbase pageCount flags userAccess =>
      obtain ⟨⟨ret, m, frames⟩, hmap, hstep⟩ := bind_eq_ok hstep
      cases hstep
      apply h.update
      exact keeps_archMmuMap
        (fun j hj => hadmits.tabled hout ⟨j, hj, rfl⟩) hmap
  | remap virtBase pageCount flags userAccess =>
      obtain ⟨⟨ret, m⟩, hremap, hstep⟩ := bind_eq_ok hstep
      cases hstep
      apply h.update
      exact keeps_archMmuRemap
        (fun j hj => hadmits.tabled hout ⟨j, hj, rfl⟩) hremap
  | unmap virtBase pageCount =>
      obtain ⟨⟨ret, m⟩, hunmap, hstep⟩ := bind_eq_ok hstep
      cases hstep
      apply h.update
      exact keeps_archMmuUnmap
        (fun j hj => hadmits.tabled hout ⟨j, hj, rfl⟩) hunmap
  | scratchMap physaddr cacheInhibit =>
      obtain ⟨m, hscratch, hstep⟩ := bind_eq_ok hstep
      cases hstep
      apply h.update
      have hwords : physaddr ≤ sizeMax := hadmits.words
      unfold sizeMax at hwords
      exact (updates_scratchMap (by omega) hscratch).keeps (by decide)
  | access virt =>
      simp only [step] at hstep
      split at hstep
      next t hwalk =>
        cases hstep
        intro t' ht'
        rcases List.mem_cons.mp ht' with rfl | ht'
        · exact backed_of_walk hadmits.words hwalk
        · exact h t' ht'
      next =>
        cases hstep
        exact h

/-- Every cached translation is backed by the entry in the table, in every
run which leaves the window of the recursive slot alone. -/
theorem tlb_coherent
    (hreach : TransitionRun.Reachable Start
      (fun c op => Admits c op ∧ op.OutsideWindow) step c) :
    c.Coherent := by
  apply hreach.invariant
  · intro c hstart t ht
    rw [hstart.tlb] at ht
    contradiction
  · intro c op c' hcoherent hadmits hstep
    exact step_coherent hcoherent hadmits.1 hadmits.2 hstep

end Runs

/-- The tables as `entry.S` leaves them, with the kernel at 1 MiB and the
page tables from 4 MiB on. -/
def bootTables : Tables where
  pagedir pde :=
    if pde = 0 ∨ 768 ≤ pde then
      BitVec.ofNat 32 (0x400000 + pde * archPageSize) ||| flagP ||| flagRw
    else 0
  pagetables pde pte :=
    if pde = 0 then BitVec.ofNat 32 (pte * archPageSize) ||| flagP ||| flagRw
    else if 768 ≤ pde then
      BitVec.ofNat 32
        (0x100000 + ((pde - 768) * entryCount + pte) * archPageSize) |||
        flagP ||| flagRw
    else 0
  invalidated := []

def bootCpu : Cpu := ⟨bootTables, ⟨[], []⟩, []⟩

/-- A kernel page is read, write protected, read again and moved to another
frame. -/
theorem tlb_coherent_boot_run :
    ∃ c, TransitionRun.Reachable Start
      (fun c op => Admits c op ∧ op.OutsideWindow) step c ∧
      c.tlb = [⟨0xc0001, 0x600000, false, false⟩] ∧ c.Coherent := by
  have hat : ∀ virt, (∃ i < 1, virt = 0xc0001000 + i * archPageSize) →
      pdeIndex virt = 768 := by
    rintro virt ⟨i, hi, rfl⟩
    obtain rfl : i = 0 := by omega
    decide
  have hreach : TransitionRun.Reachable Start
      (fun c op => Admits c op ∧ op.OutsideWindow) step bootCpu :=
    .start ⟨rfl⟩
  have hreach := hreach.next (a := .access 0xc0001000)
    ⟨⟨by decide, by rintro _ ⟨⟩⟩, by rintro _ ⟨⟩⟩ rfl
  have hreach := hreach.next (a := .remap 0xc0001000 1 mapProtRead false)
    ⟨⟨by decide, fun virt h => by rw [hat virt h]; rfl⟩,
      fun virt h => by rw [hat virt h]; decide⟩ rfl
  have hreach := hreach.next (a := .access 0xc0001000)
    ⟨⟨by decide, by rintro _ ⟨⟩⟩, by rintro _ ⟨⟩⟩ rfl
  have hreach := hreach.next
    (a := .map 0xc0001000 0x600000 1 mapProtRead false)
    ⟨⟨by decide, fun virt h => by rw [hat virt h]; rfl⟩,
      fun virt h => by rw [hat virt h]; decide⟩ rfl
  have hreach := hreach.next (a := .access 0xc0001000)
    ⟨⟨by decide, by rintro _ ⟨⟩⟩, by rintro _ ⟨⟩⟩ rfl
  exact ⟨_, hreach, by decide +kernel, tlb_coherent hreach⟩

/-- Unmapping the window page which shows the first kernel page table takes
the table away from a page whose translation stays cached. -/
theorem tlb_incoherent_window :
    ¬∀ c, TransitionRun.Reachable Start Admits step c → c.Coherent := by
  intro hall
  have hreach : TransitionRun.Reachable Start Admits step bootCpu :=
    .start ⟨rfl⟩
  have hreach := hreach.next (a := .access 0xc0001000)
    ⟨by decide, by rintro _ ⟨⟩⟩ rfl
  have hreach := hreach.next (a := .unmap 0xfff00000 1)
    ⟨by decide, by
      rintro virt ⟨i, hi, rfl⟩
      obtain rfl : i = 0 := by omega
      rfl⟩ rfl
  have hbacked := hall _ hreach ⟨0xc0001, 0x101000, true, false⟩
    (by decide +kernel)
  exact absurd hbacked.present (by decide +kernel)

end Mmu
end Yjkos
