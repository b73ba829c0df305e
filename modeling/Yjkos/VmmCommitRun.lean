import Yjkos.VmmCommit

/-!
# Runs with demand commit

Allocations, frees and not-present faults on the kernel address space.  Every
reachable state satisfies the invariant `Commits`, so a page is mapped exactly
when it has been committed, no page is committed twice and freeing an object
returns the frames which were committed for it.
-/

namespace Yjkos
namespace Vmm

open Mmu SetPartition TransitionRun

namespace VmState

/-- The kernel address space right after it was set up: its page tables are
there and none of its pages is mapped. -/
structure StartsUnmapped (kernelVmStart : ℕ) (r : VmState) : Prop where
  starts : r.Starts kernelVmStart kernelVmEnd
  tables : ∀ a ∈ Set.Icc kernelVmStart kernelVmEnd,
    has (r.vmm.tables.pagedir (pdeIndex a)) flagP = true
  unmapped : ∀ a ∈ Set.Icc kernelVmStart kernelVmEnd,
    ¬r.vmm.tables.Mapped a

/-- A fault on an address of a live object whose page is not present.  The
processor may also have missed a page which has become present since. -/
structure NotPresentFault (r : VmState) (p ptr : ℕ)
    (wasWrite wasUser : Bool) : Prop where
  live : p ∈ r.live
  inside : ptr ∈ r.vmm.rangeOf p
  cause : ¬r.vmm.tables.Mapped ptr ∨
    ∃ f, archMmuEmulate r.vmm.tables ptr (faultFlags wasWrite) wasUser =
      .ok f

/-- `pmm_alloc` returns frames which are not in use. -/
def AdmitsCommit (r : VmState) : VmOp → Prop
  | .alloc physBase size mapflags answers =>
      r.Admits (.alloc physBase size mapflags answers)
  | .free p => r.Admits (.free p)
  | .fault p ptr wasWrite wasUser answers =>
      r.NotPresentFault p ptr wasWrite wasUser ∧
        ∀ f ∈ answers, f = 0 ∨ f ∉ r.vmm.frames.inUse

end VmState

/-! ## The invariant -/

/-- The pages of one live object. -/
structure PagesOk (r : VmState) (p : ℕ) (object : Object) : Prop where
  mapped_iff : ∀ i < object.pages,
    r.vmm.tables.Mapped (object.page i) ↔ ¬Pending r.vmm p i
  physical : object.physBase ≠ physaddrNomap →
    r.commited p = [] ∧ ∀ i < object.pages,
      r.vmm.tables.Mapped (object.page i) →
      frameOf (r.vmm.tables.pageEntry (object.page i)) =
        wrap (object.physBase + i * archPageSize)
  held : object.physBase = physaddrNomap → (r.commited p).Perm
    (heldFrames r.vmm.tables object (List.range object.pages))
  owned : ∀ f ∈ r.commited p, f ∈ r.vmm.frames.inUse ∧ f ≠ 0
  nodup : (r.commited p).Nodup

structure Commits (kernelVmStart : ℕ) (r : VmState) : Prop where
  partitioned : Partitioned kernelVmStart kernelVmEnd r.vmm r.live
  tables : ∀ a ∈ Set.Icc kernelVmStart kernelVmEnd,
    has (r.vmm.tables.pagedir (pdeIndex a)) flagP = true
  records : Records r.vmm r.live
  free : ∀ a ∈ Set.Icc kernelVmStart kernelVmEnd,
    (∀ p ∈ r.live, a ∉ r.vmm.rangeOf p) → ¬r.vmm.tables.Mapped a
  pages : ∀ p ∈ r.live, ∀ object, r.vmm.objects p = some object →
    PagesOk r p object
  apart : ∀ p ∈ r.live, ∀ q ∈ r.live, p ≠ q →
    (r.commited p).Disjoint (r.commited q)

section Invariant

variable {kernelVmStart : ℕ} {r r' : VmState} {p : ℕ} {object : Object}

theorem Partitioned.mem_range {start endAddr : ℕ} {s : State}
    {live : List ℕ} (hinv : Partitioned start endAddr s live) (hp : p ∈ live)
    (hobject : s.objects p = some object) {a : ℕ} (ha : a ∈ object.range) :
    a ∈ Set.Icc start endAddr := by
  refine (hinv.parts.cover a).mpr ⟨s.rangeOf p, ?_, ?_⟩
  · exact List.mem_map_of_mem (List.mem_append_right _ hp)
  · rwa [rangeOf_eq hobject]

theorem Commits.tabled (h : Commits kernelVmStart r) {a : ℕ}
    (ha : a ∈ Set.Icc kernelVmStart kernelVmEnd) :
    r.vmm.tables.Tabled a := by
  refine ⟨h.tables a ha, ?_⟩
  have hend : a ≤ 4290768895 := ha.2
  rw [pdeIndex_eq (by omega), pagedirPde, entryCount]
  omega

theorem Commits.page_ne (h : Commits kernelVmStart r) {q i j : ℕ}
    {other : Object} (hp : p ∈ r.live) (hq : q ∈ r.live) (hne : p ≠ q)
    (hobject : r.vmm.objects p = some object)
    (hother : r.vmm.objects q = some other) (hi : i < object.pages)
    (hj : j < other.pages) :
    other.page j / 4096 ≠ object.page i / 4096 := by
  intro heq
  have hpmem : p ∈ r.vmm.space.objectList ++ r.live :=
    List.mem_append_right _ hp
  have hqmem : q ∈ r.vmm.space.objectList ++ r.live :=
    List.mem_append_right _ hq
  have hpaged := h.partitioned.paged p hpmem object hobject
  have hqpaged := h.partitioned.paged q hqmem other hother
  have halign := hpaged.page_aligned i
  have hqalign := hqpaged.page_aligned j
  have hsame : other.page j = object.page i := by omega
  refine hne (h.partitioned.parts.eq_of_mem (a := object.page i) hpmem hqmem
    ?_ ?_)
  · rw [rangeOf_eq hobject]
    exact hpaged.page_mem hi
  · rw [rangeOf_eq hother, ← hsame]
    exact hqpaged.page_mem hj

theorem commits_of_starts (hrange : PageRange kernelVmStart kernelVmEnd)
    (hstarts : r.StartsUnmapped kernelVmStart) : Commits kernelVmStart r := by
  have hlive := hstarts.starts.live
  obtain ⟨before, isUser, -, hinit⟩ := hstarts.starts.init
  have hlist := (vmmInitAddressSpace_spec hrange hinit).uncommited
  constructor
  · exact partitioned_of_starts hrange hstarts.starts
  · exact hstarts.tables
  · constructor
    · simp [hlist]
    · simp [hlist]
    · intro u v q ru rv hu
      have := hu.mem
      simp [hlist] at this
  · intro a ha _
    exact hstarts.unmapped a ha
  · simp [hlive]
  · simp [hlive]

/-- Nothing about the pages of an object changes when its entries, its
pending pages and its frames stay the same. -/
theorem PagesOk.congr (h : PagesOk r p object)
    (hpending : ∀ i < object.pages, Pending r'.vmm p i ↔ Pending r.vmm p i)
    (hentry : ∀ i < object.pages, r'.vmm.tables.pageEntry (object.page i) =
      r.vmm.tables.pageEntry (object.page i))
    (hcommited : r'.commited p = r.commited p)
    (hinUse : ∀ f ∈ r.commited p, f ∈ r'.vmm.frames.inUse) :
    PagesOk r' p object := by
  have hmapped : ∀ i < object.pages,
      (r'.vmm.tables.Mapped (object.page i) ↔
        r.vmm.tables.Mapped (object.page i)) := by
    intro i hi
    rw [Tables.Mapped, Tables.Mapped, hentry i hi]
  constructor
  · intro i hi
    rw [hmapped i hi, h.mapped_iff i hi, hpending i hi]
  · intro hmap
    obtain ⟨hempty, hframe⟩ := h.physical hmap
    refine ⟨hcommited.trans hempty, fun i hi hi' => ?_⟩
    rw [hentry i hi]
    exact hframe i hi ((hmapped i hi).mp hi')
  · intro hnomap
    rw [hcommited, heldFrames_congr fun i hi =>
      hentry i (List.mem_range.mp hi)]
    exact h.held hnomap
  · rw [hcommited]
    exact fun f hf => ⟨hinUse f hf, (h.owned f hf).2⟩
  · rw [hcommited]
    exact h.nodup

/-! ## Allocation -/

section Alloc

variable {start endAddr new u n physBase : ℕ} {live : List ℕ}
  {s s' : State} {mapflags : BitVec 8}

theorem pages_eq (first n physBase : ℕ) (mapflags : BitVec 8) :
    Object.pages ⟨first, first + n * archPageSize - 1, physBase, mapflags⟩ =
      n := by
  simp only [Object.pages, archPageSize]
  omega

theorem Allocated.recordAt (halloc : Allocated start endAddr live s s' new u
    n physBase mapflags) (hu : s.uobjects u = none) {v q : ℕ}
    {vobject : UncommitedObject} :
    RecordAt s' v q vobject ↔ RecordAt s v q vobject ∨
      (v = u ∧ q = new ∧ vobject = ⟨some new, freshBitmap n⟩) := by
  have hnotU : ∀ {q vobject}, ¬RecordAt s u q vobject := by
    intro q vobject h
    rw [h.uobject_eq] at hu
    contradiction
  have hmem : v ∈ s'.space.uncommitedObjects ↔
      v ∈ s.space.uncommitedObjects ∨ v = u := by
    simp [halloc.uncommited]
  constructor
  · rintro ⟨hv, hvobject, hobject⟩
    rw [halloc.uobjects] at hvobject
    by_cases hvu : v = u
    · subst hvu
      simp only [Function.update_self, Option.some.injEq] at hvobject
      subst hvobject
      simp only [Option.some.injEq] at hobject
      exact Or.inr ⟨rfl, hobject.symm, rfl⟩
    · rw [Function.update_of_ne hvu] at hvobject
      left
      exact ⟨(hmem.mp hv).resolve_right hvu, hvobject, hobject⟩
  · rintro (h | ⟨rfl, rfl, rfl⟩)
    · have hvu : v ≠ u := fun heq => hnotU (heq ▸ h)
      refine ⟨hmem.mpr (Or.inl h.mem), ?_, h.object_eq⟩
      rw [halloc.uobjects, Function.update_of_ne hvu]
      exact h.uobject_eq
    · refine ⟨hmem.mpr (Or.inr rfl), ?_, rfl⟩
      rw [halloc.uobjects, Function.update_self]

theorem Allocated.pending (halloc : Allocated start endAddr live s s' new u
    n physBase mapflags) (hu : s.uobjects u = none) (q i : ℕ) :
    Pending s' q i ↔ Pending s q i ∨ (q = new ∧ i < n) := by
  unfold Pending
  simp only [halloc.recordAt hu]
  constructor
  · rintro ⟨v, vobject, h | ⟨-, rfl, rfl⟩, hbit⟩
    · exact Or.inl ⟨v, vobject, h, hbit⟩
    · exact Or.inr ⟨rfl, bit_freshBitmap.mp hbit⟩
  · rintro (⟨v, vobject, h, hbit⟩ | ⟨rfl, hi⟩)
    · exact ⟨v, vobject, Or.inl h, hbit⟩
    · exact ⟨u, _, Or.inr ⟨rfl, rfl, rfl⟩, bit_freshBitmap.mpr hi⟩

theorem Allocated.records (halloc : Allocated start endAddr live s s' new u
    n physBase mapflags) (hrecords : Records s live)
    (hu : s.uobjects u = none) (hnew : new ∉ live) (hpos : 1 ≤ n) :
    Records s' (new :: live) := by
  have hrecordAt : ∀ {v q vobject}, RecordAt s' v q vobject ↔
      RecordAt s v q vobject ∨
        (v = u ∧ q = new ∧ vobject = ⟨some new, freshBitmap n⟩) :=
    halloc.recordAt hu
  have hlive : ∀ {v q vobject}, RecordAt s v q vobject → q ∈ live := by
    intro v q vobject h
    obtain ⟨vobject', q', o, h', hq, -⟩ := hrecords.valid v h.mem
    rw [(h'.same h).1]
    exact hq
  constructor
  · rw [halloc.uncommited]
    refine List.nodup_append.mpr ⟨hrecords.nodup, List.nodup_singleton u, ?_⟩
    rintro v hv w hw rfl
    obtain ⟨vobject, q, o, h, -⟩ := hrecords.valid v hv
    rw [← List.mem_singleton.mp hw, h.uobject_eq] at hu
    contradiction
  · intro v hv
    rw [halloc.uncommited, List.mem_append, List.mem_singleton] at hv
    rcases hv with hv | rfl
    · obtain ⟨vobject, q, o, h, hq, ho, hbits⟩ := hrecords.valid v hv
      exact ⟨vobject, q, o, hrecordAt.mpr (Or.inl h),
        List.mem_cons_of_mem new hq, (halloc.others q hq).trans ho, hbits⟩
    · obtain ⟨first, hobject⟩ := halloc.object
      refine ⟨_, new, _, hrecordAt.mpr (Or.inr ⟨rfl, rfl, rfl⟩),
        List.mem_cons_self, hobject, ?_⟩
      rw [pages_eq]
      exact bitsFor_freshBitmap hpos
  · intro v w q rv rw hv hw
    rcases hrecordAt.mp hv with hv | ⟨rfl, rfl, -⟩
    · rcases hrecordAt.mp hw with hw | ⟨-, rfl, -⟩
      · exact hrecords.unique v w q rv rw hv hw
      · exact absurd (hlive hv) hnew
    · rcases hrecordAt.mp hw with hw | ⟨rfl, -, -⟩
      · exact absurd (hlive hw) hnew
      · rfl

theorem Allocated.rangeOf_eq (halloc : Allocated start endAddr live s s' new u
    n physBase mapflags) {q : ℕ} (hq : q ∈ live) :
    s'.rangeOf q = s.rangeOf q := by
  simp [State.rangeOf, halloc.others q hq]

theorem Allocated.unmapped (h : Commits kernelVmStart r)
    (halloc : Allocated kernelVmStart kernelVmEnd r.live r.vmm s' new u n
      physBase mapflags) {a : ℕ} (ha : a ∈ s'.rangeOf new) :
    ¬r.vmm.tables.Mapped a := by
  have hmem : ∀ q ∈ new :: r.live, q ∈ s'.space.objectList ++ new :: r.live :=
    fun q hq => List.mem_append_right _ hq
  refine h.free a ?_ ?_
  · refine (halloc.partitioned.parts.cover a).mpr ⟨_, ?_, ha⟩
    exact List.mem_map_of_mem (hmem new List.mem_cons_self)
  · intro q hq haq
    rw [← halloc.rangeOf_eq hq] at haq
    have heq := halloc.partitioned.parts.eq_of_mem
      (hmem new List.mem_cons_self) (hmem q (List.mem_cons_of_mem new hq))
      ha haq
    subst heq
    have hnodup := (List.nodup_append.mp halloc.partitioned.covers.nodup).2.1
    exact (List.nodup_cons.mp hnodup).1 hq

theorem Commits.alloc (h : Commits kernelVmStart r)
    (halloc : Allocated kernelVmStart kernelVmEnd r.live r.vmm s' new u n
      physBase mapflags)
    (hu : r.vmm.uobjects u = none) (hpos : 1 ≤ n) :
    Commits kernelVmStart
      ⟨s', new :: r.live, Function.update r.commited new []⟩ := by
  have hnodup := (List.nodup_append.mp halloc.partitioned.covers.nodup).2.1
  have hnew : new ∉ r.live := (List.nodup_cons.mp hnodup).1
  have hne : ∀ q ∈ r.live, q ≠ new := fun q hq heq => hnew (heq ▸ hq)
  constructor
  · exact halloc.partitioned
  · simp only [halloc.tables]
    exact h.tables
  · exact halloc.records h.records hu hnew hpos
  · simp only [halloc.tables]
    intro a ha houtside
    refine h.free a ha fun q hq => ?_
    rw [← halloc.rangeOf_eq hq]
    exact houtside q (List.mem_cons_of_mem new hq)
  · intro q hq o ho
    simp only at ho
    rcases List.mem_cons.mp hq with rfl | hq
    · -- The new object: every page is pending, none is mapped.
      obtain ⟨first, hobject⟩ := halloc.object
      have hpaged := halloc.partitioned.paged q
        (List.mem_append_right _ List.mem_cons_self) o ho
      rw [hobject, Option.some.injEq] at ho
      have hpages : o.pages = n := by
        rw [← ho, pages_eq]
      have hunmapped : ∀ i < o.pages, ¬s'.tables.Mapped (o.page i) := by
        intro i hi
        rw [halloc.tables]
        refine halloc.unmapped h ?_
        rw [Vmm.rangeOf_eq hobject, ho]
        exact hpaged.page_mem hi
      constructor
      · intro i hi
        refine iff_of_false (hunmapped i hi) (not_not.mpr ?_)
        exact (halloc.pending hu q i).mpr (Or.inr ⟨rfl, by omega⟩)
      · intro _
        exact ⟨by simp, fun i hi hmapped =>
          absurd hmapped (hunmapped i hi)⟩
      · intro _
        have hempty : heldFrames s'.tables o (List.range o.pages) = [] := by
          unfold heldFrames
          rw [List.map_eq_nil_iff, List.filter_eq_nil_iff]
          exact fun i hi => hunmapped i (List.mem_range.mp hi)
        simp [hempty]
      · simp
      · simp
    · rw [halloc.others q hq] at ho
      refine (h.pages q hq o ho).congr ?_ ?_ ?_ ?_
      · intro i _
        simp only [halloc.pending hu q i, hne q hq, false_and, or_false]
      · simp [halloc.tables]
      · simp [Function.update_of_ne (hne q hq)]
      · intro f hf
        simp only [halloc.frames]
        exact ((h.pages q hq o ho).owned f hf).1
  · intro q hq w hw hqw
    simp only
    rcases List.mem_cons.mp hq with rfl | hq
    · simp
    rcases List.mem_cons.mp hw with rfl | hw
    · simp
    · rw [Function.update_of_ne (hne q hq), Function.update_of_ne (hne w hw)]
      exact h.apart q hq w hw hqw

end Alloc

/-! ## Faults -/

section Fault

variable {ptr i f : ℕ} {s' : State} {wasWrite wasUser : Bool}
  {answers : List ℕ}

/-- The state in which a fault finds the coming answers of `pmm_alloc`. -/
def withAnswers (s : State) (answers : List ℕ) : State :=
  { s with frames := ⟨s.frames.inUse, answers⟩ }

theorem recordAt_withAnswers {s : State} {u : ℕ}
    {uobject : UncommitedObject} :
    RecordAt (withAnswers s answers) u p uobject ↔ RecordAt s u p uobject :=
  RecordAt.congr rfl rfl

theorem pending_withAnswers {s : State} :
    Pending (withAnswers s answers) p i ↔ Pending s p i := by
  unfold Pending
  simp only [recordAt_withAnswers]

theorem Commits.record_of_not_mapped (h : Commits kernelVmStart r)
    (hp : p ∈ r.live) (hobject : r.vmm.objects p = some object)
    (hi : i < object.pages) (hmapped : ¬r.vmm.tables.Mapped (object.page i)) :
    ∃ u uobject, RecordAt r.vmm u p uobject ∧
      BitsFor uobject.bitmap object.pages ∧ uobject.bitmap.bit i = true := by
  rw [(h.pages p hp object hobject).mapped_iff i hi, not_not] at hmapped
  obtain ⟨u, uobject, hrecord, hbit⟩ := hmapped
  obtain ⟨uobject', q, o, hrecord', -, ho, hbits⟩ :=
    h.records.valid u hrecord.mem
  obtain ⟨rfl, rfl⟩ := hrecord'.same hrecord
  rw [hobject, Option.some.injEq] at ho
  subst ho
  exact ⟨u, uobject, hrecord, hbits, hbit⟩

theorem vmmPageFault_eq (h : Commits kernelVmStart r)
    (hstart : 0 < kernelVmStart) (hp : p ∈ r.live)
    (hobject : r.vmm.objects p = some object) (hptr : ptr ∈ object.range)
    (hmapped : ¬r.vmm.tables.Mapped ptr) :
    ∃ u uobject, RecordAt r.vmm u p uobject ∧
      BitsFor uobject.bitmap object.pages ∧
      uobject.bitmap.bit (object.pageIndex ptr) = true ∧
      vmmPageFault kernelVmStart (withAnswers r.vmm answers) ptr false
          wasWrite wasUser =
        commitPage (withAnswers r.vmm answers) u
          (object.page (object.pageIndex ptr)) := by
  have hpaged := h.partitioned.paged p (List.mem_append_right _ hp) object
    hobject
  have hbelow := hpaged.below
  have hi := hpaged.pageIndex_lt hptr
  have hpage := hpaged.page_pageIndex hptr
  have hpageMem := hpaged.page_mem hi
  have hinside := h.partitioned.mem_range hp hobject hpageMem
  have hbase : alignDown ptr archPageSize =
      object.page (object.pageIndex ptr) := by
    rw [hpage]
    unfold alignDown archPageSize
    omega
  have hentry : r.vmm.tables.pageEntry (object.page (object.pageIndex ptr)) =
      r.vmm.tables.pageEntry ptr :=
    pageEntry_congr (by have := hptr.2; omega)
      (by have := hptr.2; omega) (by omega)
  have hmapped' : ¬r.vmm.tables.Mapped
      (object.page (object.pageIndex ptr)) := by
    unfold Tables.Mapped
    rw [hentry]
    exact hmapped
  obtain ⟨v, vobject, hv, hbits, hbit⟩ :=
    h.record_of_not_mapped hp hobject hi hmapped'
  obtain ⟨e, hemulate⟩ :=
    archMmuEmulate_of_not_mapped hmapped (faultFlags wasWrite) wasUser
  have hinv' : Partitioned kernelVmStart kernelVmEnd
      (withAnswers r.vmm answers) r.live := h.partitioned.congr rfl rfl rfl
  have hrecords' : Records (withAnswers r.vmm answers) r.live :=
    h.records.congr rfl rfl rfl
  have hbase' : alignDown ptr archPageSize ∈
      (withAnswers r.vmm answers).rangeOf p := by
    rw [hbase, rangeOf_eq (s := withAnswers r.vmm answers) hobject]
    exact hpageMem
  have hguard : (false || alignDown ptr archPageSize == 0 ||
      !inKernelVm kernelVmStart (alignDown ptr archPageSize)) = false := by
    have hlow := hinside.1
    have hhigh := hinside.2
    rw [hbase]
    simp only [inKernelVm, Bool.false_or, Bool.or_eq_false_iff,
      beq_eq_false_iff_ne, Bool.not_eq_false', Bool.and_eq_true,
      decide_eq_true_eq]
    exact ⟨by omega, hlow, hhigh⟩
  rcases findObjectInUncommited_spec hinv' hrecords' hp hbase' with
    ⟨u, uobject, hfind, hrecord⟩ | ⟨-, hnone⟩
  · have hsame := h.records.uobject_unique hv
      (recordAt_withAnswers.mp hrecord)
    obtain ⟨rfl, rfl⟩ := hsame
    refine ⟨u, uobject, hv, hbits, hbit, ?_⟩
    unfold vmmPageFault
    simp only [withAnswers] at hemulate hfind ⊢
    rw [hemulate]
    rw [hbase] at hguard ⊢
    simp only [hguard, Bool.false_eq_true, if_false, hfind, ok_bind]
  · exact absurd (recordAt_withAnswers.mpr hv) (hnone v vobject)

theorem diff_self (l : List ℕ) : l.diff l = [] := by
  induction l with
  | nil => rfl
  | cons a l ih => simp [ih]

theorem diff_of_commit
    (hfresh : ∀ f ∈ answers, f = 0 ∨ f ∉ r.vmm.frames.inUse)
    (hcommit : CommitsPage r.live (withAnswers r.vmm answers) s' p i object
      f) :
    s'.frames.inUse.diff r.vmm.frames.inUse =
        (if object.physBase = physaddrNomap then [f] else []) ∧
      (∀ g ∈ r.vmm.frames.inUse, g ∈ s'.frames.inUse) ∧
      (object.physBase = physaddrNomap →
        f ≠ 0 ∧ f ∈ s'.frames.inUse ∧ f ∉ r.vmm.frames.inUse) := by
  by_cases hnomap : object.physBase = physaddrNomap
  · obtain ⟨hhead, hne, hinUse⟩ := hcommit.fresh hnomap
    have hmem : f ∈ answers := List.mem_of_mem_head? hhead
    have hnotMem := (hfresh f hmem).resolve_left hne
    have hinUse' : s'.frames.inUse = f :: r.vmm.frames.inUse := hinUse
    rw [if_pos hnomap, hinUse', List.cons_diff_of_not_mem hnotMem, diff_self]
    exact ⟨rfl, fun g hg => List.mem_cons_of_mem f hg,
      fun _ => ⟨hne, List.mem_cons_self, hnotMem⟩⟩
  · have hinUse : s'.frames.inUse = r.vmm.frames.inUse :=
      (hcommit.physical hnomap).2
    rw [if_neg hnomap, hinUse, diff_self]
    exact ⟨rfl, fun g hg => hg, fun h => absurd h hnomap⟩

/-- The run state after a fault in the object at `p`: the frames it has taken
are booked for that object. -/
def booked (r : VmState) (s' : State) (p : ℕ) : VmState :=
  { r with
    vmm := s'
    commited := Function.update r.commited p
      (s'.frames.inUse.diff r.vmm.frames.inUse ++ r.commited p) }

theorem CommitsPage.pending_iff
    (hcommit : CommitsPage r.live (withAnswers r.vmm answers) s' p i object
      f) (q j : ℕ) :
    Pending s' q j ↔ Pending r.vmm q j ∧ ¬(q = p ∧ j = i) := by
  rw [hcommit.pending, pending_withAnswers]

theorem PagesOk.commit (hpaged : object.Paged) (hok : PagesOk r p object)
    (hi : i < object.pages)
    (hmapped : ¬r.vmm.tables.Mapped (object.page i))
    (hfresh : ∀ f ∈ answers, f = 0 ∨ f ∉ r.vmm.frames.inUse)
    (hcommit : CommitsPage r.live (withAnswers r.vmm answers) s' p i object
      f) : PagesOk (booked r s' p) p object := by
  have hbelow := hpaged.below
  obtain ⟨entry, hsets, hhas, hframe⟩ := hcommit.sets
  have hsets' : r.vmm.tables.Sets s'.tables (object.page i) entry := hsets
  have hpending := hcommit.pending_iff
  obtain ⟨hdiff, hkeeps, hnew⟩ := diff_of_commit hfresh hcommit
  have hother : ∀ j < object.pages, j ≠ i →
      s'.tables.pageEntry (object.page j) =
        r.vmm.tables.pageEntry (object.page j) := by
    intro j hj hji
    have hroom := hpaged.page_room hj
    exact hsets'.other _ (by omega) fun heq => hji (hpaged.page_inj heq)
  have hdone : s'.tables.Mapped (object.page i) := by
    unfold Tables.Mapped
    rw [hsets'.entry_eq]
    exact hhas
  constructor <;> simp only [booked]
  · intro j hj
    simp only [hpending, true_and]
    by_cases hji : j = i
    · subst hji
      exact iff_of_true hdone fun hboth => hboth.2 rfl
    · rw [Tables.Mapped, hother j hj hji, ← Tables.Mapped,
        hok.mapped_iff j hj]
      simp [hji]
  · intro hmap
    obtain ⟨hempty, hphysical⟩ := hok.physical hmap
    refine ⟨by simp [hdiff, hmap, hempty], fun j hj hjmapped => ?_⟩
    by_cases hji : j = i
    · subst hji
      rw [hsets'.entry_eq, hframe]
      exact (hcommit.physical hmap).1
    · rw [hother j hj hji]
      rw [Tables.Mapped, hother j hj hji] at hjmapped
      exact hphysical j hj hjmapped
  · intro hnomap
    simp only [Function.update_self, hdiff, if_pos hnomap,
      List.singleton_append]
    have hheld := heldFrames_sets hpaged List.nodup_range
      (fun j hj => List.mem_range.mp hj) (List.mem_range.mpr hi) hmapped
      hsets' hhas
    rw [hframe] at hheld
    exact ((hok.held hnomap).cons f).trans hheld.symm
  · intro g hg
    simp only [Function.update_self, hdiff, List.mem_append] at hg
    rcases hg with hg | hg
    · split at hg
      next hnomap =>
        obtain ⟨hne, hmem, -⟩ := hnew hnomap
        rw [List.mem_singleton.mp hg]
        exact ⟨hmem, hne⟩
      · simp at hg
    · obtain ⟨hmem, hne⟩ := hok.owned g hg
      exact ⟨hkeeps g hmem, hne⟩
  · simp only [Function.update_self, hdiff]
    split
    next hnomap =>
      refine List.nodup_cons.mpr ⟨fun hg => ?_, hok.nodup⟩
      exact (hnew hnomap).2.2 (hok.owned f hg).1
    · exact hok.nodup

theorem Commits.booked_apart (h : Commits kernelVmStart r) (hp : p ∈ r.live)
    (hfresh : ∀ f ∈ answers, f = 0 ∨ f ∉ r.vmm.frames.inUse)
    (hcommit : CommitsPage r.live (withAnswers r.vmm answers) s' p i object
      f) {q : ℕ} (hq : q ∈ r.live) (hqp : q ≠ p) :
    ((booked r s' p).commited p).Disjoint (r.commited q) := by
  obtain ⟨hdiff, -, hnew⟩ := diff_of_commit hfresh hcommit
  obtain ⟨o, ho, -⟩ := h.partitioned.covers.object (List.mem_append_right _ hq)
  intro g hg hgq
  simp only [booked, Function.update_self, hdiff, List.mem_append] at hg
  rcases hg with hg | hg
  · split at hg
    next hnomap =>
      rw [List.mem_singleton.mp hg] at hgq
      exact (hnew hnomap).2.2 ((h.pages q hq o ho).owned f hgq).1
    · simp at hg
  · exact h.apart p hp q hq (Ne.symm hqp) hg hgq

theorem Commits.commit (h : Commits kernelVmStart r) (hp : p ∈ r.live)
    (hobject : r.vmm.objects p = some object) (hi : i < object.pages)
    (hmapped : ¬r.vmm.tables.Mapped (object.page i))
    (hfresh : ∀ f ∈ answers, f = 0 ∨ f ∉ r.vmm.frames.inUse)
    (hcommit : CommitsPage r.live (withAnswers r.vmm answers) s' p i object
      f) : Commits kernelVmStart (booked r s' p) := by
  have hpaged := h.partitioned.paged p (List.mem_append_right _ hp) object
    hobject
  obtain ⟨entry, hsets, -⟩ := hcommit.sets
  have hsets' : r.vmm.tables.Sets s'.tables (object.page i) entry := hsets
  have hobjects : s'.objects = r.vmm.objects := hcommit.same.objects
  obtain ⟨-, hkeeps, -⟩ := diff_of_commit hfresh hcommit
  have hcommited : ∀ q, q ≠ p → (booked r s' p).commited q = r.commited q :=
    fun q hq => Function.update_of_ne hq _ _
  constructor
  · exact h.partitioned.congr hobjects hcommit.same.list hcommit.same.console
  · simp only [booked, hsets'.pagedir]
    exact h.tables
  · exact hcommit.records
  · intro a ha houtside
    have hrange : s'.rangeOf p = object.range :=
      rangeOf_eq (hobjects ▸ hobject)
    have hne : a / 4096 ≠ object.page i / 4096 := by
      intro heq
      have halign := hpaged.page_aligned i
      have hroom := hpaged.page_room hi
      have hmem := (hpaged.page_mem hi).1
      refine houtside p hp ?_
      simp only [booked, hrange]
      exact ⟨by omega, by omega⟩
    have hend : a ≤ 4290768895 := ha.2
    unfold Tables.Mapped
    simp only [booked]
    rw [hsets'.other a (by omega) hne]
    refine h.free a ha fun q hq => ?_
    have hq' := houtside q hq
    simpa [booked, State.rangeOf, hobjects] using hq'
  · intro q hq o ho
    simp only [booked, hobjects] at ho
    by_cases hqp : q = p
    · subst hqp
      rw [hobject, Option.some.injEq] at ho
      subst ho
      exact (h.pages q hp object hobject).commit hpaged hi hmapped hfresh
        hcommit
    · refine (h.pages q hq o ho).congr ?_ ?_ (hcommited q hqp) ?_
      · intro j _
        simp [booked, hcommit.pending_iff, hqp]
      · intro j hj
        have hqpaged := h.partitioned.paged q (List.mem_append_right _ hq) o
          ho
        have hroom := hqpaged.page_room hj
        have hqbelow := hqpaged.below
        exact hsets'.other _ (by omega)
          (h.page_ne hp hq (Ne.symm hqp) hobject ho hi hj)
      · intro g hg
        exact hkeeps g ((h.pages q hq o ho).owned g hg).1
  · intro q hq w hw hqw
    by_cases hqp : q = p
    · subst hqp
      rw [hcommited w (Ne.symm hqw)]
      exact h.booked_apart hp hfresh hcommit hw (Ne.symm hqw)
    · rw [hcommited q hqp]
      by_cases hwp : w = p
      · subst hwp
        exact (h.booked_apart hp hfresh hcommit hq hqp).symm
      · rw [hcommited w hwp]
        exact h.apart q hq w hw hqw

/-- A fault on a page which has become present only invalidates the old
translation. -/
theorem Commits.flush (h : Commits kernelVmStart r) :
    Commits kernelVmStart
      { r with
        vmm := { r.vmm with
          tables := flushTlbFor r.vmm.tables ptr
          frames := ⟨r.vmm.frames.inUse, answers⟩ }
        commited := Function.update r.commited p
          (r.vmm.frames.inUse.diff r.vmm.frames.inUse ++ r.commited p) } := by
  have hcommited : Function.update r.commited p
      (r.vmm.frames.inUse.diff r.vmm.frames.inUse ++ r.commited p) =
      r.commited := by
    rw [diff_self, List.nil_append, Function.update_eq_self]
  rw [hcommited]
  constructor
  · exact h.partitioned.congr rfl rfl rfl
  · exact h.tables
  · exact h.records.congr rfl rfl rfl
  · exact h.free
  · intro q hq o ho
    refine (h.pages q hq o ho).congr (fun i _ => ?_) (fun _ _ => rfl) rfl ?_
    · exact Pending.congr (by rfl) (by rfl) i
    · exact fun f hf => ((h.pages q hq o ho).owned f hf).1
  · exact h.apart

/-- A fault on a page which is not present commits a page. -/
theorem Commits.fault_commits (h : Commits kernelVmStart r)
    (hstart : 0 < kernelVmStart) (hp : p ∈ r.live)
    (hobject : r.vmm.objects p = some object) (hptr : ptr ∈ object.range)
    (hmapped : ¬r.vmm.tables.Mapped ptr)
    (hs' : vmmPageFault kernelVmStart (withAnswers r.vmm answers) ptr false
      wasWrite wasUser = .ok s') :
    ∃ i f, i < object.pages ∧ ¬r.vmm.tables.Mapped (object.page i) ∧
      CommitsPage r.live (withAnswers r.vmm answers) s' p i object f := by
  have hpaged := h.partitioned.paged p (List.mem_append_right _ hp) object
    hobject
  obtain ⟨u, uobject, hrecord, hbits, hbit, heq⟩ :=
    vmmPageFault_eq h hstart hp hobject hptr hmapped
  have hs'' : commitPage (withAnswers r.vmm answers) u
      (object.page (object.pageIndex ptr)) = .ok s' := heq ▸ hs'
  have hi := hpaged.pageIndex_lt hptr
  have hinside := h.partitioned.mem_range hp hobject (hpaged.page_mem hi)
  obtain ⟨f, hcommit⟩ := commitPage_spec (s := withAnswers r.vmm answers)
    (h.records.congr rfl rfl rfl) hpaged hobject
    (recordAt_withAnswers.mpr hrecord) hbits hi hbit (h.tabled hinside)
    hs''
  refine ⟨object.pageIndex ptr, f, hi, ?_, hcommit⟩
  rw [(h.pages p hp object hobject).mapped_iff _ hi, not_not]
  exact ⟨u, uobject, hrecord, hbit⟩

theorem Commits.fault (h : Commits kernelVmStart r)
    (hstart : 0 < kernelVmStart)
    (hadmits : r.AdmitsCommit (.fault p ptr wasWrite wasUser answers))
    (hstep : r.step kernelVmStart (.fault p ptr wasWrite wasUser answers) =
      .ok r') : Commits kernelVmStart r' := by
  obtain ⟨hfault, hfresh⟩ := hadmits
  have hp := hfault.live
  obtain ⟨object, hobject, -⟩ :=
    h.partitioned.covers.object (List.mem_append_right _ hp)
  have hptr : ptr ∈ object.range := by
    rw [← rangeOf_eq hobject]
    exact hfault.inside
  obtain ⟨s', hs', hstep⟩ := bind_eq_ok hstep
  simp only [Except.ok.injEq] at hstep
  subst hstep
  by_cases hmapped : r.vmm.tables.Mapped ptr
  · obtain ⟨f, hemulate⟩ :=
      hfault.cause.resolve_left fun hnot => hnot hmapped
    unfold vmmPageFault at hs'
    simp only [hemulate, Except.ok.injEq] at hs'
    subst hs'
    exact h.flush
  · obtain ⟨i, f, hi, hnot, hcommit⟩ :=
      h.fault_commits hstart hp hobject hptr hmapped hs'
    exact h.commit hp hobject hi hnot hfresh hcommit

theorem Commits.fault_error (h : Commits kernelVmStart r)
    (hstart : 0 < kernelVmStart)
    (hadmits : r.AdmitsCommit (.fault p ptr wasWrite wasUser answers)) :
    r.step kernelVmStart (.fault p ptr wasWrite wasUser answers) ≠
      .error alreadyCommited := by
  intro hstep
  obtain ⟨hfault, -⟩ := hadmits
  have hp := hfault.live
  obtain ⟨object, hobject, hpaged⟩ :=
    h.partitioned.covers.object (List.mem_append_right _ hp)
  have hptr : ptr ∈ object.range := by
    rw [← rangeOf_eq hobject]
    exact hfault.inside
  rcases bind_eq_error hstep with hstep | ⟨s', -, hstep⟩
  · by_cases hmapped : r.vmm.tables.Mapped ptr
    · obtain ⟨f, hemulate⟩ :=
        hfault.cause.resolve_left fun hnot => hnot hmapped
      unfold vmmPageFault at hstep
      simp [hemulate] at hstep
    · obtain ⟨u, uobject, hrecord, hbits, hbit, heq⟩ :=
        vmmPageFault_eq h hstart hp hobject hptr hmapped
      have hstep' : commitPage (withAnswers r.vmm answers) u
          (object.page (object.pageIndex ptr)) = .error alreadyCommited :=
        heq ▸ hstep
      exact commitPage_error (s := withAnswers r.vmm answers) hpaged hobject
        (recordAt_withAnswers.mpr hrecord) hbits.room
        (hpaged.pageIndex_lt hptr) hbit hstep' rfl
  · contradiction

end Fault

/-! ## Freeing -/

section Free

/-- The state in which `vmm_free` has taken the record of the object off the
list. -/
structure Unrecorded (r : VmState) (p : ℕ) (t : State) : Prop where
  same : SameObjects r.vmm t
  tables : t.tables = r.vmm.tables
  frames : t.frames = r.vmm.frames
  records : Records t (r.live.erase p)
  pending : ∀ q i, q ≠ p → (Pending t q i ↔ Pending r.vmm q i)

theorem Commits.unrecord (h : Commits kernelVmStart r) (hp : p ∈ r.live)
    (hobject : r.vmm.objects p = some object) :
    ∃ record t, findObjectInUncommited r.vmm object.start = .ok record ∧
      dropRecord r.vmm record = .ok t ∧ Unrecorded r p t := by
  have hpaged := h.partitioned.paged p (List.mem_append_right _ hp) object
    hobject
  have hlive := (List.nodup_append.mp h.partitioned.covers.nodup).2.1
  have hbase : alignDown object.start archPageSize ∈ r.vmm.rangeOf p := by
    have hstart := hpaged.startAligned
    rw [rangeOf_eq hobject, alignDown, archPageSize, hstart, Nat.sub_zero]
    exact ⟨le_rfl, hpaged.ordered⟩
  rcases findObjectInUncommited_spec h.partitioned h.records hp hbase with
    ⟨u, uobject, hfind, hrecord⟩ | ⟨hfind, hnone⟩
  · refine ⟨some u, withoutRecord r.vmm u, hfind, dropRecord_eq hrecord,
      ⟨rfl, rfl, rfl⟩, rfl, rfl, ?_, ?_⟩
    · refine h.records.without fun v q vobject hv hne hq => ?_
      refine (hlive.mem_erase_iff).mpr ⟨?_, hq⟩
      rintro rfl
      exact hne (h.records.uobject_unique hrecord hv).1
    · intro q i hne
      rw [pending_withoutRecord h.records hrecord]
      exact and_iff_left hne
  · refine ⟨none, r.vmm, hfind, rfl, SameObjects.refl _, rfl, rfl, ?_,
      fun _ _ _ => Iff.rfl⟩
    refine ⟨h.records.nodup, fun u hu => ?_, h.records.unique⟩
    obtain ⟨uobject, q, o, hrecord, hq, ho, hbits⟩ := h.records.valid u hu
    refine ⟨uobject, q, o, hrecord, (hlive.mem_erase_iff).mpr ⟨?_, hq⟩, ho,
      hbits⟩
    rintro rfl
    exact hnone u uobject hrecord

/-- The frames which `vmm_free` returns are the ones committed for the
object. -/
theorem PagesOk.returned_perm (h : PagesOk r p object) :
    (returnedFrames r.vmm.tables object
      (List.range' 0 object.pages)).Perm (r.commited p) := by
  unfold returnedFrames
  split
  next hnomap =>
    rw [← List.range_eq_range']
    exact (h.held hnomap).symm
  next hmap => rw [(h.physical hmap).1]

theorem Commits.releasable (h : Commits kernelVmStart r)
    (hstart : 0 < kernelVmStart) (hp : p ∈ r.live)
    (hobject : r.vmm.objects p = some object) :
    Releasable r.vmm object 0 object.pages := by
  have hpaged := h.partitioned.paged p (List.mem_append_right _ hp) object
    hobject
  have hok := h.pages p hp object hobject
  have hinside : ∀ j, j < 0 + object.pages →
      object.page j ∈ Set.Icc kernelVmStart kernelVmEnd := by
    intro j hj
    exact h.partitioned.mem_range hp hobject (hpaged.page_mem (by omega))
  constructor
  · exact fun j _ hj => h.tabled (hinside j hj)
  · intro j _ hj
    have := (hinside j hj).1
    omega
  · exact hok.returned_perm.nodup_iff.mpr hok.nodup
  · exact fun f hf => hok.owned f (hok.returned_perm.mem_iff.mp hf)

/-- An address of the range which is in no page of the object keeps its
entry when the object is freed. -/
theorem Cleared.outside {m m' : Tables} (hpaged : object.Paged)
    (h : Cleared m m' object 0 object.pages) {a : ℕ} (ha : a < 4294967296)
    (houtside : a ∉ object.range) : m'.pageEntry a = m.pageEntry a := by
  refine h.other a ha fun j _ hj heq => houtside ?_
  have halign := hpaged.page_aligned j
  have hjlt : j < object.pages := by omega
  have hroom := hpaged.page_room hjlt
  have hmem := (hpaged.page_mem hjlt).1
  exact ⟨by omega, by omega⟩

theorem Cleared.inside {m m' : Tables} (hpaged : object.Paged)
    (h : Cleared m m' object 0 object.pages) {a : ℕ}
    (ha : a ∈ object.range) : ¬m'.Mapped a := by
  have hi := hpaged.pageIndex_lt ha
  have hpage := hpaged.page_pageIndex ha
  have hbelow := hpaged.below
  have hhigh := ha.2
  have hentry : m'.pageEntry a = m'.pageEntry
      (object.page (object.pageIndex a)) :=
    pageEntry_congr (by omega) (by omega) (by omega)
  unfold Tables.Mapped
  rw [hentry]
  exact h.cleared _ (Nat.zero_le _) (by omega)

/-- `vmm_free` of a live object unmaps its pages, returns the frames which
were committed for it and keeps the invariant. -/
theorem Commits.vmmFree (h : Commits kernelVmStart r)
    (hstart : 0 < kernelVmStart) (hp : p ∈ r.live)
    (hobject : r.vmm.objects p = some object) :
    ∃ s', vmmFree r.vmm p = .ok s' ∧
      (∀ i < object.pages, ¬s'.tables.Mapped (object.page i)) ∧
      (s'.frames.inUse ++ r.commited p).Perm r.vmm.frames.inUse ∧
      Commits kernelVmStart
        { r with vmm := s', live := r.live.erase p } := by
  have hpaged := h.partitioned.paged p (List.mem_append_right _ hp) object
    hobject
  have hok := h.pages p hp object hobject
  have hlive := (List.nodup_append.mp h.partitioned.covers.nodup).2.1
  have hfuel : object.pages < 1048577 := by
    have hbelow := hpaged.below
    have hroom := hpaged.room
    omega
  obtain ⟨record, t, hfind, hdrop, ht⟩ := h.unrecord hp hobject
  have hrel : Releasable t object 0 object.pages := by
    have hrel := h.releasable hstart hp hobject
    exact ⟨ht.tables ▸ hrel.tabled, hrel.nonzero, ht.tables ▸ hrel.nodup,
      by rw [ht.tables, ht.frames]; exact hrel.inUse⟩
  obtain ⟨tables, inUse, hfree, hcleared, hperm⟩ :=
    freePages_spec hpaged object.pages 0 1048577 t (by omega) hfuel hrel
  have hpage0 : object.page 0 = object.start := by simp [Object.page]
  rw [hpage0] at hfree
  rw [ht.tables] at hcleared
  rw [ht.tables, ht.frames] at hperm
  have hpartT : Partitioned kernelVmStart kernelVmEnd
      (withMemory t tables inUse) r.live :=
    h.partitioned.congr ht.same.objects ht.same.list ht.same.console
  obtain ⟨s', hadd, hpart, hobjects, huobjects, hlist, -, htables, hframes⟩ :=
    hpartT.free hp
  have hobjects' : s'.objects = r.vmm.objects :=
    hobjects.trans ht.same.objects
  have htables' : s'.tables = tables := htables
  have hinUse' : s'.frames.inUse = inUse := by rw [hframes]; rfl
  have hreturned : (s'.frames.inUse ++ r.commited p).Perm
      r.vmm.frames.inUse := by
    rw [hinUse']
    exact (hok.returned_perm.symm.append_left inUse).trans hperm
  have hrange : r.vmm.rangeOf p = object.range := rangeOf_eq hobject
  refine ⟨s', ?_, ?_, hreturned, ?_⟩
  · rw [Vmm.vmmFree, getObject_eq hobject, ok_bind, hfind, ok_bind, hdrop,
      ok_bind, hfree, ok_bind]
    exact hadd
  · intro i hi
    rw [htables']
    exact hcleared.inside hpaged (hpaged.page_mem hi)
  · constructor
    · exact hpart
    · simp only [htables', hcleared.pagedir]
      exact h.tables
    · exact ht.records.congr hlist huobjects hobjects
    · intro a ha houtside
      simp only [htables']
      have hend : a ≤ 4290768895 := ha.2
      by_cases hmem : a ∈ object.range
      · exact hcleared.inside hpaged hmem
      · unfold Tables.Mapped
        rw [hcleared.outside hpaged (by omega) hmem]
        refine h.free a ha fun q hq => ?_
        by_cases hqp : q = p
        · rwa [hqp, hrange]
        · have hq' := houtside q ((hlive.mem_erase_iff).mpr ⟨hqp, hq⟩)
          simpa [State.rangeOf, hobjects'] using hq'
    · intro q hq o ho
      obtain ⟨hqp, hq⟩ := (hlive.mem_erase_iff).mp hq
      simp only [hobjects'] at ho
      have hqok := h.pages q hq o ho
      have hqpaged := h.partitioned.paged q (List.mem_append_right _ hq) o ho
      refine hqok.congr ?_ ?_ rfl ?_
      · intro i _
        exact (Pending.congr (s := t) hlist huobjects i).trans
          (ht.pending q i hqp)
      · intro i hi
        have hroom := hqpaged.page_room hi
        have hqbelow := hqpaged.below
        simp only [htables']
        refine hcleared.other _ (by omega) fun j _ hj => ?_
        exact h.page_ne hp hq (Ne.symm hqp) hobject ho (by omega) hi
      · intro f hf
        have hmem := hreturned.mem_iff.mpr (hqok.owned f hf).1
        refine (List.mem_append.mp hmem).resolve_right fun hfp => ?_
        exact h.apart p hp q hq (Ne.symm hqp) hfp hf
    · intro q hq w hw hqw
      exact h.apart q (List.mem_of_mem_erase hq) w (List.mem_of_mem_erase hw)
        hqw

end Free

/-! ## Runs -/

theorem commits_step (hstart : 0 < kernelVmStart)
    (h : Commits kernelVmStart r) {op : VmOp} (hadmits : r.AdmitsCommit op)
    (hstep : r.step kernelVmStart op = .ok r') : Commits kernelVmStart r' := by
  cases op with
  | alloc physBase size mapflags answers =>
      obtain ⟨⟨q, s⟩, hs, hstep⟩ := bind_eq_ok hstep
      obtain ⟨new, u, s', hanswers', hs', halloc⟩ :=
        partitioned_alloc h.partitioned hadmits (aligned_of_vmmAllocObject hs)
      have hsize : 1 ≤ size := hadmits.1
      obtain ⟨new', u', hanswers, hfresh⟩ := hadmits.2.1
      have hu' := hfresh.2.2.2.2
      rw [hs, Except.ok.injEq, Prod.mk.injEq] at hs'
      obtain ⟨rfl, rfl⟩ := hs'
      simp only [Except.ok.injEq] at hstep
      subst hstep
      have hu : r.vmm.uobjects u = none := by
        rw [hanswers] at hanswers'
        simp only [List.cons.injEq, Option.some.injEq, and_true] at hanswers'
        exact hanswers'.2 ▸ hu'
      exact h.alloc halloc hu (sizeToBlocks_pos (by decide) hsize)
  | free p =>
      obtain ⟨object, hobject, -⟩ :=
        h.partitioned.covers.object (List.mem_append_right _ hadmits)
      obtain ⟨s', hs', -, -, hfree⟩ := h.vmmFree hstart hadmits hobject
      simp only [VmState.step, hs', ok_bind, Except.ok.injEq] at hstep
      exact hstep ▸ hfree
  | fault p ptr wasWrite wasUser answers =>
      exact h.fault hstart hadmits hstep

theorem commits_of_reachable (hrange : PageRange kernelVmStart kernelVmEnd)
    (hstart : 0 < kernelVmStart)
    (hreach : Reachable (VmState.StartsUnmapped kernelVmStart)
      VmState.AdmitsCommit (VmState.step kernelVmStart) r) :
    Commits kernelVmStart r :=
  hreach.invariant (fun _ hstarts => commits_of_starts hrange hstarts)
    fun _ _ _ h hadmits hstep => commits_step hstart h hadmits hstep

theorem Commits.record_iff (h : Commits kernelVmStart r) (hp : p ∈ r.live)
    (hobject : r.vmm.objects p = some object) :
    (∃ u uobject, RecordAt r.vmm u p uobject) ↔
      ∃ i < object.pages, ¬r.vmm.tables.Mapped (object.page i) := by
  have hok := h.pages p hp object hobject
  constructor
  · rintro ⟨u, uobject, hrecord⟩
    obtain ⟨uobject', q, o, hrecord', -, ho, hbits⟩ :=
      h.records.valid u hrecord.mem
    obtain ⟨rfl, rfl⟩ := hrecord'.same hrecord
    rw [hobject, Option.some.injEq] at ho
    subst ho
    obtain ⟨i, hbit⟩ := hbits.marked
    have hi := hbits.inside i hbit
    refine ⟨i, hi, ?_⟩
    rw [hok.mapped_iff i hi, not_not]
    exact ⟨u, uobject, hrecord, hbit⟩
  · rintro ⟨i, hi, hmapped⟩
    rw [hok.mapped_iff i hi, not_not] at hmapped
    obtain ⟨u, uobject, hrecord, -⟩ := hmapped
    exact ⟨u, uobject, hrecord⟩

/-- What demand commit promises about one live object. -/
structure CommitContract (r : VmState) (p : ℕ) (object : Object) : Prop where
  one_record : ∀ u v ru rv, RecordAt r.vmm u p ru → RecordAt r.vmm v p rv →
    u = v ∧ ru = rv
  mapped_iff : ∀ i < object.pages,
    (r.vmm.tables.Translates (object.page i) ↔
      ∀ u uobject, RecordAt r.vmm u p uobject →
        uobject.bitmap.bit i = false)
  record_iff : (∃ u uobject, RecordAt r.vmm u p uobject) ↔
    ∃ i < object.pages, ¬r.vmm.tables.Translates (object.page i)
  physical : object.physBase ≠ physaddrNomap → ∀ i < object.pages,
    r.vmm.tables.Translates (object.page i) →
    archMmuVirtualToPhysical r.vmm.tables (object.page i) =
      .ok (wrap (object.physBase + i * archPageSize))
  commited : object.physBase = physaddrNomap → (r.commited p).Perm
    (heldFrames r.vmm.tables object (List.range object.pages))
  released : ∃ s', vmmFree r.vmm p = .ok s' ∧
    (∀ i < object.pages, ¬s'.tables.Translates (object.page i)) ∧
    if object.physBase = physaddrNomap then
      (s'.frames.inUse ++ r.commited p).Perm r.vmm.frames.inUse
    else s'.frames.inUse.Perm r.vmm.frames.inUse

theorem Commits.contract (h : Commits kernelVmStart r)
    (hstart : 0 < kernelVmStart) (hp : p ∈ r.live)
    (hobject : r.vmm.objects p = some object) :
    CommitContract r p object := by
  have hpaged := h.partitioned.paged p (List.mem_append_right _ hp) object
    hobject
  have hok := h.pages p hp object hobject
  have htabled : ∀ i < object.pages,
      r.vmm.tables.Tabled (object.page i) := fun i hi =>
    h.tabled (h.partitioned.mem_range hp hobject (hpaged.page_mem hi))
  have htranslates : ∀ i < object.pages,
      (r.vmm.tables.Translates (object.page i) ↔
        r.vmm.tables.Mapped (object.page i)) := fun i hi =>
    Tables.translates_iff (htabled i hi) (hpaged.page_aligned i)
  constructor
  · intro u v ru rv hu hv
    obtain ⟨huv, hr⟩ := h.records.uobject_unique hv hu
    exact ⟨huv, hr⟩
  · intro i hi
    rw [htranslates i hi, hok.mapped_iff i hi, Pending]
    simp only [not_exists, not_and, Bool.not_eq_true]
  · rw [h.record_iff hp hobject]
    refine exists_congr fun i => and_congr_right fun hi => ?_
    rw [htranslates i hi]
  · intro hmap i hi htranslated
    have hmapped := (htranslates i hi).mp htranslated
    rw [virtualToPhysical_of_mapped (htabled i hi) hmapped
      (hpaged.page_aligned i), (hok.physical hmap).2 i hi hmapped]
  · exact hok.held
  · obtain ⟨s', hs', hunmapped, hreturned, -⟩ := h.vmmFree hstart hp hobject
    refine ⟨s', hs', ?_, ?_⟩
    · rintro i hi ⟨physaddr, heq⟩
      rw [virtualToPhysical_of_not_mapped (hunmapped i hi)] at heq
      contradiction
    · split
      · exact hreturned
      next hmap =>
        rw [(hok.physical hmap).1, List.append_nil] at hreturned
        exact hreturned

theorem fault_of_mapped {ptr : ℕ} {wasWrite wasUser : Bool}
    {answers : List ℕ}
    (hfault : r.NotPresentFault p ptr wasWrite wasUser)
    (hmapped : r.vmm.tables.Mapped ptr)
    (hstep : r.step kernelVmStart (.fault p ptr wasWrite wasUser answers) =
      .ok r') :
    (∀ a, r'.vmm.tables.pageEntry a = r.vmm.tables.pageEntry a) ∧
      r'.commited = r.commited := by
  obtain ⟨s', hs', hstep⟩ := bind_eq_ok hstep
  obtain ⟨f, hemulate⟩ := hfault.cause.resolve_left fun hnot => hnot hmapped
  unfold vmmPageFault at hs'
  simp only [hemulate, Except.ok.injEq] at hs' hstep
  subst hs' hstep
  refine ⟨fun _ => rfl, ?_⟩
  simp only [diff_self, List.nil_append, Function.update_eq_self]

/-- In every reachable state of the kernel address space the live objects
keep the contract of demand commit, no fault ends in the panic for a page
which was committed before, and no page is committed a second time. -/
theorem demand_commit_of_reachable
    (hrange : PageRange kernelVmStart kernelVmEnd)
    (hstart : 0 < kernelVmStart)
    (hreach : Reachable (VmState.StartsUnmapped kernelVmStart)
      VmState.AdmitsCommit (VmState.step kernelVmStart) r) :
    (∀ p ∈ r.live, ∃ object, r.vmm.objects p = some object ∧
        CommitContract r p object) ∧
      ∀ p ptr wasWrite wasUser answers,
        r.AdmitsCommit (.fault p ptr wasWrite wasUser answers) →
        r.step kernelVmStart (.fault p ptr wasWrite wasUser answers) ≠
            .error (.panic "non-present page on already commited page") ∧
          ∀ r', r.vmm.tables.Mapped ptr →
            r.step kernelVmStart (.fault p ptr wasWrite wasUser answers) =
              .ok r' →
            (∀ a, r'.vmm.tables.pageEntry a = r.vmm.tables.pageEntry a) ∧
              r'.commited = r.commited := by
  have h := commits_of_reachable hrange hstart hreach
  refine ⟨fun p hp => ?_, fun p ptr wasWrite wasUser answers hadmits => ?_⟩
  · obtain ⟨object, hobject, -⟩ :=
      h.partitioned.covers.object (List.mem_append_right _ hp)
    exact ⟨object, hobject, h.contract hstart hp hobject⟩
  · exact ⟨h.fault_error hstart hadmits, fun r' hmapped hstep =>
      fault_of_mapped hadmits.1 hmapped hstep⟩

end Invariant

/-- A kernel address space of two free pages below the scratch page. -/
def kernelPages : VmState :=
  ⟨⟨Function.update (fun _ => none) 1
      (some ⟨4290760704, kernelVmEnd, physaddrNomap, 0⟩),
    fun _ => none, ⟨[1], [], false⟩, [], ⟨fun _ => 1, fun _ _ => 0, []⟩,
    ⟨[], []⟩, []⟩, [], fun _ => []⟩

theorem startsUnmapped_kernelPages :
    kernelPages.StartsUnmapped 4290760704 := by
  constructor
  · exact ⟨⟨{ kernelPages.vmm with
      objects := fun _ => none
      heapAnswers := [some 1] }, false, rfl, rfl⟩, rfl, rfl⟩
  · intro a _
    simp [kernelPages, has, flagP]
  · intro a ha
    have hend : a ≤ 4290768895 := ha.2
    have hslot : pdeIndex a ≠ pagedirPde := by
      rw [pdeIndex_eq (by omega), pagedirPde, entryCount]
      omega
    simp [Tables.Mapped, Tables.pageEntry, Tables.entry, hslot, kernelPages,
      has]

/-- Both pages are allocated and touched, and the first one is freed. -/
theorem kernelPages_freed : ∃ r₁ r₂ r₃ r₄ r₅ : VmState,
    (kernelPages.step 4290760704 (.alloc physaddrNomap 1 3 [some 2, some 3]) =
        .ok r₁ ∧
      r₁.live = [2] ∧ r₁.vmm.frames.inUse = [] ∧
      r₁.vmm.objects 2 =
        some ⟨4290760704, 4290764799, physaddrNomap, 3⟩ ∧
      r₁.vmm.tables.pageEntry 4290760704 = 0) ∧
    (r₁.step 4290760704 (.fault 2 4290760704 true false [4096]) = .ok r₂ ∧
      (r₂.vmm.objects 4 = none ∧ r₂.vmm.uobjects 4 = none ∧
        r₂.vmm.objects 5 = none ∧ r₂.vmm.uobjects 5 = none) ∧
      r₂.vmm.space.objectList = [1] ∧
      r₂.vmm.objects 1 = some ⟨4290764800, kernelVmEnd, physaddrNomap, 0⟩) ∧
    (r₂.step 4290760704 (.alloc physaddrNomap 4096 3 [some 4, some 5]) =
        .ok r₃ ∧
      r₃.live = [4, 2] ∧ r₃.vmm.frames.inUse = [4096] ∧
      r₃.vmm.objects 4 =
        some ⟨4290764800, kernelVmEnd, physaddrNomap, 3⟩ ∧
      r₃.vmm.tables.pageEntry 4290764800 = 0) ∧
    (r₃.step 4290760704 (.fault 4 4290764800 false false [8192]) = .ok r₄ ∧
      r₄.live = [4, 2] ∧ r₄.vmm.frames.inUse = [8192, 4096]) ∧
    r₄.step 4290760704 (.free 2) = .ok r₅ ∧ r₅.live = [4] ∧
      r₅.vmm.frames.inUse = [8192] ∧ r₅.commited 4 = [8192] :=
  ⟨_, _, _, _, _, ⟨rfl, rfl, rfl, rfl, rfl⟩,
    ⟨rfl, ⟨rfl, rfl, rfl, rfl⟩, rfl, rfl⟩, ⟨rfl, rfl, rfl, rfl, rfl⟩,
    ⟨rfl, rfl, rfl⟩, rfl, rfl, rfl, rfl⟩

/-- The frame of the page which was freed is given back, the other one stays
with its object. -/
theorem demand_commit_of_one_freed :
    ∃ r : VmState, r.live = [4] ∧ r.commited 4 = [8192] ∧
      r.vmm.frames.inUse = [8192] ∧
      ∃ object, r.vmm.objects 4 = some object ∧
        CommitContract r 4 object := by
  have hrange : PageRange 4290760704 kernelVmEnd := by
    constructor <;> decide
  obtain ⟨r₁, r₂, r₃, r₄, r₅,
    ⟨hstep₁, hlive₁, hinUse₁, hobject₁, hentry₁⟩,
    ⟨hstep₂, ⟨h₁, h₂, h₃, h₄⟩, hlist₂, hpage₂⟩,
    ⟨hstep₃, hlive₃, hinUse₃, hobject₃, hentry₃⟩,
    ⟨hstep₄, hlive₄, -⟩, hstep₅, hlive₅, hinUse₅, hcommited₅⟩ :=
      kernelPages_freed
  have hadmits₁ : kernelPages.AdmitsCommit
      (.alloc physaddrNomap 1 3 [some 2, some 3]) :=
    ⟨le_rfl, ⟨2, 3, rfl, by decide, rfl, rfl, rfl, rfl⟩,
      1, List.mem_singleton_self 1, _, rfl, by decide⟩
  have hadmits₂ : r₁.AdmitsCommit
      (.fault 2 4290760704 true false [4096]) := by
    refine ⟨⟨by simp [hlive₁], ?_, Or.inl ?_⟩, by simp [hinUse₁]⟩
    · rw [rangeOf_eq hobject₁]
      exact ⟨le_rfl, by decide⟩
    · rw [Tables.Mapped, hentry₁]
      decide
  have hadmits₃ : r₂.AdmitsCommit
      (.alloc physaddrNomap 4096 3 [some 4, some 5]) :=
    ⟨by decide, ⟨4, 5, rfl, by decide, h₁, h₂, h₃, h₄⟩,
      1, by simp [hlist₂], _, hpage₂, by decide⟩
  have hadmits₄ : r₃.AdmitsCommit
      (.fault 4 4290764800 false false [8192]) := by
    refine ⟨⟨by simp [hlive₃], ?_, Or.inl ?_⟩, by simp [hinUse₃]⟩
    · rw [rangeOf_eq hobject₃]
      exact ⟨le_rfl, by decide⟩
    · rw [Tables.Mapped, hentry₃]
      decide
  have hadmits₅ : r₄.AdmitsCommit (.free 2) := by
    simp [VmState.AdmitsCommit, VmState.Admits, hlive₄]
  have hreach : Reachable (VmState.StartsUnmapped 4290760704)
      VmState.AdmitsCommit (VmState.step 4290760704) r₅ :=
    (((((Reachable.start startsUnmapped_kernelPages).next hadmits₁
      hstep₁).next hadmits₂ hstep₂).next hadmits₃ hstep₃).next hadmits₄
        hstep₄).next hadmits₅ hstep₅
  exact ⟨r₅, hlive₅, hcommited₅, hinUse₅,
    (demand_commit_of_reachable hrange (by decide) hreach).1 4
      (by simp [hlive₅])⟩

end Vmm
end Yjkos
