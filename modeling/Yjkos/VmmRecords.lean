import Yjkos.VmmPages

/-!
# Uncommitted records

A live object with uncommitted pages has one record on the list of
uncommitted objects; its bitmap marks the pages which are still to be
committed.  Records are looked up by address, and since live objects are
disjoint the lookup finds the record of the object which the address is in.
-/

namespace Yjkos
namespace Vmm

open Mmu SetPartition TransitionRun

/-- `u` is on the list, and it is a record of the object at `p`. -/
structure RecordAt (s : State) (u p : ℕ) (uobject : UncommitedObject) :
    Prop where
  mem : u ∈ s.space.uncommitedObjects
  uobject_eq : s.uobjects u = some uobject
  object_eq : uobject.object = some p

/-- The bitmap has room for `n` pages, marks no other ones and marks at least
one. -/
structure BitsFor (bitmap : Bitmap) (n : ℕ) : Prop where
  room : n ≤ bitmap.bitCount
  inside : ∀ i, bitmap.bit i = true → i < n
  marked : ∃ i, bitmap.bit i = true

structure Records (s : State) (live : List ℕ) : Prop where
  nodup : s.space.uncommitedObjects.Nodup
  valid : ∀ u ∈ s.space.uncommitedObjects, ∃ uobject p object,
    RecordAt s u p uobject ∧ p ∈ live ∧ s.objects p = some object ∧
      BitsFor uobject.bitmap object.pages
  unique : ∀ u v p ru rv, RecordAt s u p ru → RecordAt s v p rv → u = v

/-- Page `i` of the object at `p` is still to be committed. -/
def Pending (s : State) (p i : ℕ) : Prop :=
  ∃ u uobject, RecordAt s u p uobject ∧ uobject.bitmap.bit i = true

theorem getUobject_eq {s : State} {u : ℕ} {uobject : UncommitedObject}
    (h : s.uobjects u = some uobject) : s.getUobject u = .ok uobject := by
  simp [State.getUobject, h]

theorem RecordAt.same {s : State} {u p q : ℕ} {r r' : UncommitedObject}
    (h : RecordAt s u p r) (h' : RecordAt s u q r') : q = p ∧ r' = r := by
  have hr := h'.uobject_eq.symm.trans h.uobject_eq
  rw [Option.some.injEq] at hr
  subst hr
  have hq := h'.object_eq.symm.trans h.object_eq
  rw [Option.some.injEq] at hq
  exact ⟨hq, rfl⟩

section Lookup

variable {start endAddr p : ℕ} {s s' : State} {live : List ℕ}

theorem RecordAt.congr {u : ℕ} {uobject : UncommitedObject}
    (hlist : s'.space.uncommitedObjects = s.space.uncommitedObjects)
    (huobjects : s'.uobjects = s.uobjects) :
    RecordAt s' u p uobject ↔ RecordAt s u p uobject := by
  constructor
  · rintro ⟨hmem, huobject, hobject⟩
    exact ⟨hlist ▸ hmem, huobjects ▸ huobject, hobject⟩
  · rintro ⟨hmem, huobject, hobject⟩
    exact ⟨hlist ▸ hmem, huobjects ▸ huobject, hobject⟩

theorem Pending.congr
    (hlist : s'.space.uncommitedObjects = s.space.uncommitedObjects)
    (huobjects : s'.uobjects = s.uobjects) (i : ℕ) :
    Pending s' p i ↔ Pending s p i := by
  simp only [Pending, RecordAt.congr hlist huobjects]

theorem Records.congr (h : Records s live)
    (hlist : s'.space.uncommitedObjects = s.space.uncommitedObjects)
    (huobjects : s'.uobjects = s.uobjects)
    (hobjects : s'.objects = s.objects) : Records s' live := by
  constructor
  · rw [hlist]
    exact h.nodup
  · rw [hlist, hobjects]
    simp only [RecordAt.congr hlist huobjects]
    exact h.valid
  · simp only [RecordAt.congr hlist huobjects]
    exact h.unique

theorem findUncommitedLoop_spec (hinv : Partitioned start endAddr s live)
    (hrecords : Records s live) (hp : p ∈ live) {pageBase : ℕ}
    (hbase : pageBase ∈ s.rangeOf p) (list : List ℕ)
    (hsubset : list ⊆ s.space.uncommitedObjects) :
    (∃ u uobject, findUncommitedLoop s pageBase list = .ok (some u) ∧
        RecordAt s u p uobject) ∨
      (findUncommitedLoop s pageBase list = .ok none ∧
        ∀ u ∈ list, ∀ uobject, ¬RecordAt s u p uobject) := by
  induction list with
  | nil =>
      right
      exact ⟨rfl, by simp⟩
  | cons u rest ih =>
      obtain ⟨uobject, q, object, hrecord, hq, hobject, -⟩ :=
        hrecords.valid u (hsubset List.mem_cons_self)
      have hfollow : recordObject s uobject = .ok object := by
        simp [recordObject, hrecord.object_eq, getObject_eq hobject]
      rw [findUncommitedLoop, getUobject_eq hrecord.uobject_eq, ok_bind,
        hfollow, ok_bind]
      by_cases hinside : object.start ≤ pageBase ∧ pageBase ≤ object.endAddr
      · left
        rw [if_pos hinside]
        have hqbase : pageBase ∈ s.rangeOf q := by
          rw [rangeOf_eq hobject]
          exact hinside
        have hqp : q = p := hinv.parts.eq_of_mem
          (List.mem_append_right _ hq) (List.mem_append_right _ hp)
          hqbase hbase
        exact ⟨u, uobject, rfl, hqp ▸ hrecord⟩
      · rw [if_neg hinside]
        rcases ih fun v hv => hsubset (List.mem_cons_of_mem u hv) with
          hfound | ⟨heq, hnone⟩
        · exact Or.inl hfound
        · right
          refine ⟨heq, ?_⟩
          intro v hv vobject hvrecord
          rcases List.mem_cons.mp hv with rfl | hv
          · obtain ⟨rfl, rfl⟩ := hrecord.same hvrecord
            rw [rangeOf_eq hobject] at hbase
            exact hinside hbase
          · exact hnone v hv vobject hvrecord

theorem findObjectInUncommited_spec
    (hinv : Partitioned start endAddr s live) (hrecords : Records s live)
    (hp : p ∈ live) {ptr : ℕ}
    (hbase : alignDown ptr archPageSize ∈ s.rangeOf p) :
    (∃ u uobject, findObjectInUncommited s ptr = .ok (some u) ∧
        RecordAt s u p uobject) ∨
      (findObjectInUncommited s ptr = .ok none ∧
        ∀ u uobject, ¬RecordAt s u p uobject) := by
  rcases findUncommitedLoop_spec hinv hrecords hp hbase
      s.space.uncommitedObjects (List.Subset.refl _) with
    hfound | ⟨heq, hnone⟩
  · exact Or.inl hfound
  · exact Or.inr ⟨heq, fun u uobject h => hnone u h.mem uobject h⟩

end Lookup

/-! ## Changing records -/

section Change

variable {s : State} {live : List ℕ} {p u : ℕ} {uobject : UncommitedObject}

/-- The state without the record `u`. -/
def withoutRecord (s : State) (u : ℕ) : State :=
  { s.withUncommited (s.space.uncommitedObjects.erase u) with
    uobjects := Function.update s.uobjects u none }

theorem dropRecord_eq (h : RecordAt s u p uobject) :
    dropRecord s (some u) = .ok (withoutRecord s u) := by
  simp [dropRecord, State.heapFreeUobject, State.withUncommited,
    h.uobject_eq, withoutRecord]

theorem recordAt_withoutRecord (hrecords : Records s live) {v q : ℕ}
    {vobject : UncommitedObject} :
    RecordAt (withoutRecord s u) v q vobject ↔
      RecordAt s v q vobject ∧ v ≠ u := by
  constructor
  · rintro ⟨hmem, hvobject, hobject⟩
    have hmem' := (hrecords.nodup.mem_erase_iff).mp hmem
    refine ⟨⟨hmem'.2, ?_, hobject⟩, hmem'.1⟩
    simpa [withoutRecord, hmem'.1] using hvobject
  · rintro ⟨⟨hmem, hvobject, hobject⟩, hne⟩
    refine ⟨hrecords.nodup.mem_erase_iff.mpr ⟨hne, hmem⟩, ?_, hobject⟩
    simpa [withoutRecord, hne] using hvobject

theorem Records.without (hrecords : Records s live) {live' : List ℕ}
    (hkeep : ∀ v q vobject, RecordAt s v q vobject → v ≠ u → q ∈ live →
      q ∈ live') : Records (withoutRecord s u) live' := by
  constructor
  · exact hrecords.nodup.erase u
  · intro v hv
    have hv' := (hrecords.nodup.mem_erase_iff).mp hv
    obtain ⟨vobject, q, object, hrecord, hq, hobject, hbits⟩ :=
      hrecords.valid v hv'.2
    exact ⟨vobject, q, object,
      (recordAt_withoutRecord hrecords).mpr ⟨hrecord, hv'.1⟩,
      hkeep v q vobject hrecord hv'.1 hq, hobject, hbits⟩
  · intro v w q rv rw hv hw
    exact hrecords.unique v w q rv rw
      ((recordAt_withoutRecord hrecords).mp hv).1
      ((recordAt_withoutRecord hrecords).mp hw).1

theorem pending_withoutRecord (hrecords : Records s live)
    (h : RecordAt s u p uobject) (q i : ℕ) :
    Pending (withoutRecord s u) q i ↔ Pending s q i ∧ q ≠ p := by
  constructor
  · rintro ⟨v, vobject, hrecord, hbit⟩
    obtain ⟨hrecord', hne⟩ := (recordAt_withoutRecord hrecords).mp hrecord
    refine ⟨⟨v, vobject, hrecord', hbit⟩, ?_⟩
    rintro rfl
    exact hne (hrecords.unique v u q vobject uobject hrecord' h)
  · rintro ⟨⟨v, vobject, hrecord, hbit⟩, hne⟩
    refine ⟨v, vobject, (recordAt_withoutRecord hrecords).mpr
      ⟨hrecord, ?_⟩, hbit⟩
    rintro rfl
    exact hne (h.same hrecord).1

theorem Records.uobject_unique (hrecords : Records s live) {v : ℕ}
    {vobject : UncommitedObject} (h : RecordAt s u p uobject)
    (hv : RecordAt s v p vobject) : v = u ∧ vobject = uobject := by
  have hvu := hrecords.unique v u p vobject uobject hv h
  subst hvu
  exact ⟨rfl, (h.same hv).2⟩

/-- Another bitmap for the record `u`. -/
def withBitmap (s : State) (u : ℕ) (uobject : UncommitedObject)
    (bitmap : Bitmap) : State :=
  s.setUobject u { uobject with bitmap := bitmap }

theorem recordAt_withBitmap (h : RecordAt s u p uobject) {bitmap : Bitmap}
    {v q : ℕ} {vobject : UncommitedObject} :
    RecordAt (withBitmap s u uobject bitmap) v q vobject ↔
      (v ≠ u ∧ RecordAt s v q vobject) ∨
        (v = u ∧ q = p ∧ vobject = { uobject with bitmap := bitmap }) := by
  by_cases hv : v = u
  · subst hv
    constructor
    · rintro ⟨-, hvobject, hobject⟩
      right
      simp only [withBitmap, State.setUobject, Function.update_self,
        Option.some.injEq] at hvobject
      subst hvobject
      have hqp := h.object_eq.symm.trans hobject
      rw [Option.some.injEq] at hqp
      exact ⟨rfl, hqp.symm, rfl⟩
    · rintro (⟨hne, -⟩ | ⟨-, rfl, rfl⟩)
      · exact absurd rfl hne
      · exact ⟨h.mem, by simp [withBitmap, State.setUobject], h.object_eq⟩
  · constructor
    · rintro ⟨hmem, hvobject, hobject⟩
      left
      refine ⟨hv, hmem, ?_, hobject⟩
      simpa [withBitmap, State.setUobject, hv] using hvobject
    · rintro (⟨-, hmem, hvobject, hobject⟩ | ⟨heq, -⟩)
      · refine ⟨hmem, ?_, hobject⟩
        simpa [withBitmap, State.setUobject, hv] using hvobject
      · exact absurd heq hv

theorem pending_withBitmap (hrecords : Records s live)
    (h : RecordAt s u p uobject) {i : ℕ}
    (hi : i < uobject.bitmap.bitCount) (q j : ℕ) :
    Pending (withBitmap s u uobject (uobject.bitmap.withBit i false)) q j ↔
      Pending s q j ∧ ¬(q = p ∧ j = i) := by
  have hbit := Bitmap.bit_withBit hi false
  constructor
  · rintro ⟨v, vobject, hrecord, hj⟩
    rcases (recordAt_withBitmap h).mp hrecord with
      ⟨hne, hrecord'⟩ | ⟨rfl, rfl, rfl⟩
    · refine ⟨⟨v, vobject, hrecord', hj⟩, ?_⟩
      rintro ⟨rfl, -⟩
      exact hne (hrecords.uobject_unique h hrecord').1
    · simp only [hbit] at hj
      split at hj
      · contradiction
      next hji => exact ⟨⟨v, uobject, h, hj⟩, fun hboth => hji hboth.2⟩
  · rintro ⟨⟨v, vobject, hrecord, hj⟩, hnot⟩
    by_cases hqp : q = p
    · subst hqp
      obtain ⟨rfl, rfl⟩ := hrecords.uobject_unique h hrecord
      refine ⟨v, _, (recordAt_withBitmap h).mpr (Or.inr ⟨rfl, rfl, rfl⟩), ?_⟩
      simp only [hbit]
      rw [if_neg fun hji => hnot ⟨rfl, hji⟩]
      exact hj
    · refine ⟨v, vobject, (recordAt_withBitmap h).mpr
        (Or.inl ⟨?_, hrecord⟩), hj⟩
      rintro rfl
      exact hqp (h.same hrecord).1

theorem Records.withBitmap (hrecords : Records s live)
    (h : RecordAt s u p uobject) {bitmap : Bitmap} {object : Object}
    (hobject : s.objects p = some object)
    (hbits : BitsFor bitmap object.pages) :
    Records (withBitmap s u uobject bitmap) live := by
  constructor
  · exact hrecords.nodup
  · intro v hv
    obtain ⟨vobject, q, o, hrecord, hq, ho, hvbits⟩ := hrecords.valid v hv
    by_cases hvu : v = u
    · subst hvu
      obtain ⟨rfl, rfl⟩ := h.same hrecord
      exact ⟨_, q, object,
        (recordAt_withBitmap h).mpr (Or.inr ⟨rfl, rfl, rfl⟩), hq, hobject,
        hbits⟩
    · exact ⟨vobject, q, o,
        (recordAt_withBitmap h).mpr (Or.inl ⟨hvu, hrecord⟩), hq, ho, hvbits⟩
  · intro v w q rv rw hv hw
    have hback : ∀ {x rx}, RecordAt (Vmm.withBitmap s u uobject bitmap) x q rx →
        ∃ ry, RecordAt s x q ry := by
      intro x rx hx
      rcases (recordAt_withBitmap h).mp hx with ⟨-, hx'⟩ | ⟨rfl, rfl, -⟩
      · exact ⟨rx, hx'⟩
      · exact ⟨uobject, h⟩
    obtain ⟨ry, hy⟩ := hback hv
    obtain ⟨rz, hz⟩ := hback hw
    exact hrecords.unique v w q ry rz hy hz

end Change

/-! ## A new record -/

theorem bit_freshBitmap {n i : ℕ} :
    (freshBitmap n).bit i = true ↔ i < n := by
  have hroom : n ≤ Bitmap.neededWordCount n * 32 :=
    le_sizeToBlocks_mul n (by decide)
  unfold freshBitmap
  rw [show (0 : ℤ) = ((0 : ℕ) : ℤ) from rfl,
    Bitmap.bit_bitmapSetBits _ (by decide)]
  simp only [Bitmap.zeroed_bit, Bitmap.zeroed_bitCount]
  constructor
  · intro h
    by_contra hni
    rw [if_neg (by omega)] at h
    contradiction
  · intro h
    rw [if_pos (by omega)]

theorem bitsFor_freshBitmap {n : ℕ} (hpos : 1 ≤ n) :
    BitsFor (freshBitmap n) n := by
  have hroom : n ≤ Bitmap.neededWordCount n * 32 :=
    le_sizeToBlocks_mul n (by decide)
  constructor
  · simpa [freshBitmap] using hroom
  · exact fun i hi => bit_freshBitmap.mp hi
  · exact ⟨0, bit_freshBitmap.mpr hpos⟩

end Vmm
end Yjkos
