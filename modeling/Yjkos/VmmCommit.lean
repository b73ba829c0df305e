import Yjkos.VmmRecords

/-!
# Demand commit

The invariant of the kernel address space: the pages of a live object are
mapped exactly when they are not pending any more, and the frames behind them
are the ones which were committed for the object.  Each operation keeps it.
-/

namespace Yjkos
namespace Vmm

open Mmu SetPartition TransitionRun

/-! ## Committing one page -/

section Commit

variable {s s' : State} {live : List ℕ} {object : Object} {p u i : ℕ}
  {uobject : UncommitedObject}

/-- The message of the panic for a page which was committed before. -/
def alreadyCommited : Fault :=
  .panic "non-present page on already commited page"

theorem frameFor_error {frames : Frames} {e : Fault}
    (h : frameFor frames object i = .error e) : e ≠ alreadyCommited := by
  unfold frameFor at h
  split at h
  · contradiction
  · split at h
    · simp only [Except.error.injEq] at h
      subst h
      decide
    · contradiction

theorem mapCommited_error {pageBase physaddr : ℕ} {frames : Frames}
    {e : Fault} (h : mapCommited s object pageBase physaddr frames =
      .error e) : e ≠ alreadyCommited := by
  unfold mapCommited at h
  rcases bind_eq_error h with h | ⟨⟨_ | _, _, _⟩, -, h⟩
  · rcases archMmuMap_error h with ⟨text, rfl⟩ | rfl <;>
      simp [alreadyCommited]
  · simp only [Except.error.injEq] at h
    subst h
    decide
  · contradiction

/-- The steps of `commit_page` for a marked page, with the mark cleared. -/
theorem commitPage_eq (hpaged : object.Paged)
    (hobject : s.objects p = some object) (hrecord : RecordAt s u p uobject)
    (hroom : object.pages ≤ uobject.bitmap.bitCount)
    (hi : i < object.pages) (hbit : uobject.bitmap.bit i = true) :
    commitPage s u (object.page i) = (do
      let (physaddr, frames) ← frameFor s.frames object i
      let t ← mapCommited
        (withBitmap s u uobject (uobject.bitmap.withBit i false)) object
        (object.page i) physaddr frames
      finishCommit t u (uobject.bitmap.withBit i false)) := by
  have hlt : i < uobject.bitmap.bitCount := by omega
  have hpage := hpaged.page_room hi
  have hbelow := hpaged.below
  have hfollow : recordObject s uobject = .ok object := by
    simp [recordObject, hrecord.object_eq, getObject_eq hobject]
  have hindex : wrap (object.page i + 4294967296 - object.start) /
      archPageSize = i := by
    unfold wrap
    unfold Object.page archPageSize at *
    omega
  rw [commitPage, getUobject_eq hrecord.uobject_eq, ok_bind, hfollow, ok_bind]
  simp only [hindex]
  rw [Bitmap.bitmapIsBitSet_of_lt hlt, hbit, ok_bind,
    Bitmap.bitmapClearBit_of_lt hlt]
  rfl

/-- What a commit of page `i` does: the page is not pending any more and its
entry holds the frame `f`. -/
structure CommitsPage (live : List ℕ) (s s' : State) (p i : ℕ)
    (object : Object) (f : ℕ) : Prop where
  same : SameObjects s s'
  pending : ∀ q j, Pending s' q j ↔ Pending s q j ∧ ¬(q = p ∧ j = i)
  records : Records s' live
  sets : ∃ entry, s.tables.Sets s'.tables (object.page i) entry ∧
    has entry flagP = true ∧ frameOf entry = f
  physical : object.physBase ≠ physaddrNomap →
    f = wrap (object.physBase + i * archPageSize) ∧
      s'.frames.inUse = s.frames.inUse
  fresh : object.physBase = physaddrNomap →
    s.frames.answers.head? = some f ∧ f ≠ 0 ∧
      s'.frames.inUse = f :: s.frames.inUse

theorem frameFor_ok {frames frames' : Frames} {f : ℕ}
    (h : frameFor frames object i = .ok (f, frames')) :
    (object.physBase ≠ physaddrNomap →
      f = wrap (object.physBase + i * archPageSize) ∧ frames' = frames) ∧
    (object.physBase = physaddrNomap →
      frames.answers.head? = some f ∧ f ≠ 0 ∧
        frames'.inUse = f :: frames.inUse) := by
  unfold frameFor at h
  split at h
  next hmap =>
    simp only [Except.ok.injEq, Prod.mk.injEq] at h
    exact ⟨fun _ => ⟨h.1.symm, h.2.symm⟩, fun hnomap => absurd hnomap hmap⟩
  next hnomap =>
    refine ⟨fun hmap => absurd hmap hnomap, fun _ => ?_⟩
    unfold pmmAlloc at h
    split at h
    · contradiction
    next physaddr frames'' hne heq =>
      simp only [Except.ok.injEq, Prod.mk.injEq] at h
      obtain ⟨rfl, rfl⟩ := h
      cases hanswers : frames.answers with
      | nil =>
          rw [hanswers] at heq
          simp only [Prod.mk.injEq] at heq
          exact absurd heq.1.symm (by simpa using hne)
      | cons answer rest =>
          rw [hanswers] at heq
          simp only [Prod.mk.injEq] at heq
          obtain ⟨rfl, rfl⟩ := heq
          have hanswer : answer ≠ 0 := by simpa using hne
          simp [hanswer]

theorem mapCommited_ok {pageBase f : ℕ} {frames : Frames} {t : State}
    (htabled : s.tables.Tabled pageBase)
    (h : mapCommited s object pageBase f frames = .ok t) :
    t = { s with
        tables := mapSinglePage s.tables pageBase f object.mapflags
          s.space.isUser
        frames := frames } ∧
      f % 4096 = 0 ∧ f < 4294967296 := by
  unfold mapCommited at h
  obtain ⟨⟨result, tables, frames'⟩, hmap, hrest⟩ := bind_eq_ok h
  cases result with
  | error e => contradiction
  | ok _ =>
      obtain ⟨htables, hframes, halign, hlt⟩ := archMmuMap_one htabled hmap
      rw [htables, hframes] at hrest
      exact ⟨(Except.ok.inj hrest).symm, halign, hlt⟩

/-- The record after the mark of page `i` is cleared: dropped when that was
the last mark. -/
theorem finishCommit_spec (hrecords : Records s live)
    (hrecord : RecordAt s u p uobject) (hobject : s.objects p = some object)
    (hbits : BitsFor uobject.bitmap object.pages) (hi : i < object.pages)
    {t : State}
    (ht : t.uobjects = (withBitmap s u uobject
      (uobject.bitmap.withBit i false)).uobjects)
    (htlist : t.space.uncommitedObjects = s.space.uncommitedObjects)
    (htobjects : t.objects = s.objects)
    (h : finishCommit t u (uobject.bitmap.withBit i false) = .ok s') :
    Records s' live ∧
      (∀ q j, Pending s' q j ↔ Pending s q j ∧ ¬(q = p ∧ j = i)) ∧
      SameObjects t s' ∧ s'.tables = t.tables ∧ s'.frames = t.frames := by
  have hlt : i < uobject.bitmap.bitCount := lt_of_lt_of_le hi hbits.room
  have hbit := Bitmap.bit_withBit hlt false
  have hpendingT : ∀ q j, Pending t q j ↔ Pending s q j ∧
      ¬(q = p ∧ j = i) := by
    intro q j
    rw [Pending.congr (s := withBitmap s u uobject
      (uobject.bitmap.withBit i false)) htlist ht]
    exact pending_withBitmap hrecords hrecord hlt q j
  unfold finishCommit at h
  rcases Bitmap.bitmapFindFirstSetBit_spec
      (uobject.bitmap.withBit i false) 0 with ⟨hfind, hnone⟩ | ⟨r, hfind, hset⟩
  · -- No mark is left: the record goes.
    rw [show ((0 : ℕ) : ℤ) = 0 from rfl] at hfind
    rw [if_pos (by rw [hfind]; decide)] at h
    have hrecordT : RecordAt t u p
        { uobject with bitmap := uobject.bitmap.withBit i false } := by
      rw [RecordAt.congr (s := withBitmap s u uobject
        (uobject.bitmap.withBit i false)) htlist ht]
      exact (recordAt_withBitmap hrecord).mpr (Or.inr ⟨rfl, rfl, rfl⟩)
    rw [dropRecord_eq hrecordT, Except.ok.injEq] at h
    subst h
    have hlist : (withoutRecord t u).space.uncommitedObjects =
        (withoutRecord s u).space.uncommitedObjects := by
      simp [withoutRecord, State.withUncommited, htlist]
    have huobjects : (withoutRecord t u).uobjects =
        (withoutRecord s u).uobjects := by
      simp [withoutRecord, ht, withBitmap, State.setUobject]
    refine ⟨?_, ?_, ⟨rfl, rfl, rfl⟩, rfl, rfl⟩
    · exact (hrecords.without fun _ _ _ _ _ hq => hq).congr hlist huobjects
        htobjects
    · intro q j
      rw [Pending.congr hlist huobjects,
        pending_withoutRecord hrecords hrecord]
      refine and_congr_right fun hpending => not_congr ?_
      constructor
      · rintro rfl
        obtain ⟨v, vobject, hv, hj⟩ := hpending
        obtain ⟨rfl, rfl⟩ := hrecords.uobject_unique hrecord hv
        by_contra hne
        have hclear := hnone j (Nat.zero_le j)
        rw [hbit, if_neg fun h => hne ⟨rfl, h⟩, hj] at hclear
        contradiction
      · exact fun hboth => hboth.1
  · -- Some page is still marked.
    rw [show ((0 : ℕ) : ℤ) = 0 from rfl] at hfind
    rw [if_neg (by omega), Except.ok.injEq] at h
    subst h
    refine ⟨?_, hpendingT, SameObjects.refl t, rfl, rfl⟩
    have hbits' : BitsFor (uobject.bitmap.withBit i false) object.pages := by
      constructor
      · simpa using hbits.room
      · intro j hj
        rw [hbit] at hj
        split at hj
        · contradiction
        · exact hbits.inside j hj
      · exact ⟨r, hset.set⟩
    exact (hrecords.withBitmap hrecord hobject hbits').congr htlist ht
      htobjects

theorem commitPage_spec (hrecords : Records s live)
    (hpaged : object.Paged) (hobject : s.objects p = some object)
    (hrecord : RecordAt s u p uobject)
    (hbits : BitsFor uobject.bitmap object.pages) (hi : i < object.pages)
    (hbit : uobject.bitmap.bit i = true)
    (htabled : s.tables.Tabled (object.page i))
    (h : commitPage s u (object.page i) = .ok s') :
    ∃ f, CommitsPage live s s' p i object f := by
  have hroom := hpaged.page_room hi
  have hbelow := hpaged.below
  rw [commitPage_eq hpaged hobject hrecord hbits.room hi hbit] at h
  obtain ⟨⟨f, frames⟩, hframe, hrest⟩ := bind_eq_ok h
  obtain ⟨t, hmap, hfinish⟩ := bind_eq_ok hrest
  have htabled' : (withBitmap s u uobject
      (uobject.bitmap.withBit i false)).tables.Tabled (object.page i) :=
    htabled
  obtain ⟨ht, halign, hlt⟩ := mapCommited_ok htabled' hmap
  obtain ⟨hphysical, hfresh⟩ := frameFor_ok hframe
  obtain ⟨hrecords', hpending, hsame, htables, hframes⟩ :=
    finishCommit_spec hrecords hrecord hobject hbits hi (by rw [ht])
      (by rw [ht]; rfl) (by rw [ht]; rfl) hfinish
  have hsameT : SameObjects s t := by
    rw [ht]
    exact ⟨rfl, rfl, rfl⟩
  rw [ht] at htables hframes
  refine ⟨f, hsameT.trans hsame, hpending, hrecords',
    ⟨mappedEntry f object.mapflags s.space.isUser, ?_, ?_, ?_⟩, ?_, ?_⟩
  · rw [htables]
    exact sets_mapSinglePage htabled (by omega) f object.mapflags
      s.space.isUser
  · exact has_flagP_mappedEntry f object.mapflags s.space.isUser
  · exact frameOf_mappedEntry hlt halign object.mapflags s.space.isUser
  · intro hmap
    obtain ⟨hf, hsameFrames⟩ := hphysical hmap
    exact ⟨hf, by rw [hframes, ← hsameFrames]⟩
  · intro hnomap
    obtain ⟨hanswer, hne, hinUse⟩ := hfresh hnomap
    exact ⟨hanswer, hne, by rw [hframes, ← hinUse]⟩

/-- A commit of a marked page does not end in the panic for a page which was
committed before. -/
theorem commitPage_error (hpaged : object.Paged)
    (hobject : s.objects p = some object)
    (hrecord : RecordAt s u p uobject)
    (hroom : object.pages ≤ uobject.bitmap.bitCount)
    (hi : i < object.pages) (hbit : uobject.bitmap.bit i = true) {e : Fault}
    (h : commitPage s u (object.page i) = .error e) :
    e ≠ alreadyCommited := by
  rw [commitPage_eq hpaged hobject hrecord hroom hi hbit] at h
  rcases bind_eq_error h with h | ⟨⟨f, frames⟩, -, h⟩
  · exact frameFor_error h
  rcases bind_eq_error h with h | ⟨t, -, h⟩
  · exact mapCommited_error h
  · unfold finishCommit at h
    split at h
    · simp only [dropRecord, State.heapFreeUobject] at h
      split at h
      · contradiction
      · simp only [Except.error.injEq] at h
        subst h
        decide
    · contradiction

end Commit

end Vmm
end Yjkos
