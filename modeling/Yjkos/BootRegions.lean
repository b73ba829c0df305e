import Yjkos.BootInfo
import Yjkos.SetPartition

/-!
# Cutting regions out of a region

`exclude_regions` as a difference of sets of bytes.  The end of a region which
reaches 4 GiB is zero in `exclude_region`, and such an end makes it skip the
exclusion, whether it is the end of the region or of what is to be excluded.
-/

namespace Yjkos
namespace BootInfo

open SetPartition

def MemRegion.bytes (r : MemRegion) : Set ℕ := Set.Ico r.base (r.base + r.len)

/-- The region reaches the top of the 32-bit address space. -/
def MemRegion.AtTop (r : MemRegion) : Prop := r.base + r.len = 4294967296

instance (r : MemRegion) : Decidable r.AtTop :=
  inferInstanceAs (Decidable (_ = _))

/-- What is really cut out for the exclusion. -/
def MemRegion.cut (exclude : MemRegion) : Set ℕ :=
  {a | a ∈ exclude.bytes ∧ ¬exclude.AtTop}

/-- The slots tile the bytes `S`, and none of them reaches the top. -/
structure Slots (slots : List MemRegion) (S : Set ℕ) : Prop where
  tiles : Tiles (slots.map MemRegion.bytes) S
  low : ∀ slot ∈ slots, slot.base + slot.len < 4294967296

section Slot

variable {slot exclude : MemRegion} {slots : List MemRegion} {S : Set ℕ}

theorem bytes_empty {r : MemRegion} (h : r.len = 0) : r.bytes = ∅ := by
  simp [MemRegion.bytes, h]

theorem bytes_span (x y : ℕ) : (span x y).bytes = Set.Ico x y := by
  unfold span
  split
  next h => simp only [MemRegion.bytes, Nat.add_sub_cancel' h.le]
  next h => rw [Set.Ico_eq_empty h, bytes_empty rfl]

theorem cut_of_atTop (h : exclude.AtTop) : exclude.cut = ∅ := by
  simp [MemRegion.cut, h]

theorem cut_of_low (h : exclude.base + exclude.len < 4294967296) :
    exclude.cut = Set.Ico exclude.base (exclude.base + exclude.len) := by
  have htop : ¬exclude.AtTop := h.ne
  ext a
  simp [MemRegion.cut, htop, MemRegion.bytes]

theorem cut_of_untouched {x y : ℕ}
    (hexclude : exclude.base + exclude.len ≤ 4294967296)
    (h : Untouched exclude x y) :
    Set.Ico x y \ exclude.cut = Set.Ico x y := by
  rcases Nat.eq_or_lt_of_le hexclude with htop | hlow
  · rw [cut_of_atTop htop, Set.sdiff_empty]
  · rw [cut_of_low hlow]
    unfold Untouched at h
    rw [wrap_of_lt hlow] at h
    ext a
    simp only [Set.mem_sdiff, Set.mem_Ico]
    omega

/-- An exclusion which passes the test does not reach the top. -/
theorem low_of_touched {x y : ℕ}
    (hexclude : exclude.base + exclude.len ≤ 4294967296)
    (h : ¬Untouched exclude x y) :
    exclude.base + exclude.len < 4294967296 := by
  rcases Nat.eq_or_lt_of_le hexclude with htop | hlow
  · refine absurd (Or.inr ?_) h
    rw [htop]
    exact Nat.zero_le x
  · exact hlow

theorem span_low {x y : ℕ} (hy : y < 4294967296) :
    (span x y).base + (span x y).len < 4294967296 := by
  unfold span
  split
  next h =>
    simp only
    omega
  next h => simp

theorem Slots.congr {S' : Set ℕ} (h : Slots slots S) (hS : S = S') :
    Slots slots S' := hS ▸ h

theorem slots_singleton (hlow : slot.base + slot.len < 4294967296) :
    Slots [slot] slot.bytes := by
  constructor
  · exact tiles_singleton _
  · simpa using hlow

theorem slots_pair {r r' : MemRegion} (hlow : r.base + r.len < 4294967296)
    (hlow' : r'.base + r'.len < 4294967296)
    (hdisj : Disjoint r.bytes r'.bytes) :
    Slots [r, r'] (r.bytes ∪ r'.bytes) := by
  constructor
  · exact tiles_pair hdisj
  · simpa using ⟨hlow, hlow'⟩

/-- The two pieces in front of an exclusion and behind it. -/
theorem slots_pieces {x y : ℕ} {r r' : MemRegion} (hr : r.bytes = Set.Ico x y)
    (hlow : r.base + r.len < 4294967296) {z w : ℕ}
    (hr' : r'.bytes = Set.Ico z w) (hlow' : r'.base + r'.len < 4294967296)
    (hyz : y ≤ z) :
    let kept : MemRegion × Option MemRegion :=
      if r.len ≠ 0 ∧ r'.len ≠ 0 then (r, some r')
      else if r.len ≠ 0 then (r, none)
      else if r'.len ≠ 0 then (r', none)
      else (⟨0, 0⟩, none)
    Slots (kept.1 :: kept.2.toList) (Set.Ico x y ∪ Set.Ico z w) := by
  have hdisj : Disjoint r.bytes r'.bytes := by
    rw [hr, hr']
    refine Set.disjoint_left.mpr fun a ha ha' => ?_
    have hlt := ha.2
    have hle := ha'.1
    omega
  rw [← hr, ← hr']
  by_cases hfirst : r.len = 0
  · rw [bytes_empty hfirst, Set.empty_union]
    by_cases hsecond : r'.len = 0
    · rw [bytes_empty hsecond]
      simp only [hfirst, hsecond, ne_eq, not_true_eq_false, false_and, if_false]
      exact (slots_singleton (by decide)).congr (bytes_empty rfl)
    · simp only [hfirst, hsecond, ne_eq, not_true_eq_false, false_and,
        if_false, not_false_eq_true, if_true]
      exact slots_singleton hlow'
  · by_cases hsecond : r'.len = 0
    · rw [bytes_empty hsecond, Set.union_empty]
      simp only [hfirst, hsecond, ne_eq, not_true_eq_false, and_false,
        if_false, not_false_eq_true, if_true]
      exact slots_singleton hlow
    · simp only [hfirst, hsecond, ne_eq, not_false_eq_true, and_self, if_true]
      exact slots_pair hlow hlow' hdisj

/-- One slot: it loses exactly what is really cut out. -/
theorem excludeFromSlot_slots (hslot : slot.base + slot.len < 4294967296)
    (hexclude : exclude.base + exclude.len ≤ 4294967296) :
    Slots ((excludeFromSlot exclude slot).1 ::
        (excludeFromSlot exclude slot).2.toList)
      (slot.bytes \ exclude.cut) := by
  by_cases hzero : slot.len = 0
  · have hsame : excludeFromSlot exclude slot = (slot, none) := by
      rw [excludeFromSlot, if_pos hzero]
    rw [hsame]
    refine (slots_singleton hslot).congr ?_
    rw [bytes_empty hzero, Set.empty_sdiff]
  obtain ⟨x, y, hxy, rfl⟩ : ∃ x y, x < y ∧ slot = ⟨x, y - x⟩ :=
    ⟨slot.base, slot.base + slot.len, by omega, by simp⟩
  have hy : y < 4294967296 := by
    simp only at hslot
    omega
  have hbytes : MemRegion.bytes ⟨x, y - x⟩ = Set.Ico x y := by
    simp only [MemRegion.bytes, Nat.add_sub_cancel' hxy.le]
  rw [excludeFromSlot, if_neg hzero]
  dsimp only
  rw [hbytes]
  by_cases huntouched : Untouched exclude x y
  · rw [excludeRegion_untouched hxy hy huntouched,
      cut_of_untouched hexclude huntouched]
    have hnone : MemRegion.bytes ⟨0, 0⟩ = Set.Ico y y := by
      rw [Set.Ico_self, bytes_empty rfl]
    refine (slots_pieces (bytes_span x y) (span_low hy) hnone (by decide)
      le_rfl).congr ?_
    rw [Set.Ico_self, Set.union_empty]
  · have hlow := low_of_touched hexclude huntouched
    have hstop : excludeStop exclude = exclude.base + exclude.len :=
      if_pos hlow
    rw [excludeRegion_cut hxy hy (by omega) huntouched, hstop,
      cut_of_low hlow]
    refine (slots_pieces (bytes_span _ _) (span_low (by omega))
      (bytes_span _ _) (span_low hy) (Nat.le_add_right _ _)).congr ?_
    unfold Untouched at huntouched
    rw [wrap_of_lt hlow] at huntouched
    ext a
    simp only [Set.mem_union, Set.mem_sdiff, Set.mem_Ico]
    omega

/-- The loop over the slots cuts the exclusion out of all of them. -/
theorem excludeFromSlots_slots
    (hexclude : exclude.base + exclude.len ≤ 4294967296) (count : ℕ)
    (hcount : count + slots.length ≤ maxResultRegions)
    (h : Slots slots S) :
    ∃ kept added, excludeFromSlots exclude count slots = .ok (kept, added) ∧
      kept.length = slots.length ∧ added.length ≤ slots.length ∧
      Slots (kept ++ added) (S \ exclude.cut) := by
  induction slots generalizing count S with
  | nil =>
      refine ⟨[], [], rfl, rfl, le_rfl, ?_, by simp⟩
      have hempty : S = ∅ := by
        ext a
        simp [h.tiles.cover a]
      rw [hempty, Set.empty_sdiff]
      exact ⟨by simp, by simp⟩
  | cons slot rest ih =>
      rw [List.length_cons] at hcount
      have hslot := h.low slot List.mem_cons_self
      have hrest : Slots rest (S \ slot.bytes) :=
        ⟨h.tiles.tail, fun r hr => h.low r (List.mem_cons_of_mem slot hr)⟩
      have hpieces := excludeFromSlot_slots hslot hexclude
      rw [excludeFromSlots]
      rcases hout : excludeFromSlot exclude slot with ⟨first, second⟩
      rw [hout] at hpieces
      cases second with
      | none =>
          obtain ⟨kept, added, hloop, hlength, hle, hslots⟩ :=
            ih count (by omega) hrest
          refine ⟨first :: kept, added, ?_, ?_, ?_, ?_⟩
          · simp only [hloop, ok_bind]
          · rw [List.length_cons, List.length_cons, hlength]
          · rw [List.length_cons]
            omega
          · have htiles := h.tiles.sdiff_cons hpieces.tiles hslots.tiles
            refine ⟨by simpa using htiles, fun r hr => ?_⟩
            rcases List.mem_cons.mp hr with rfl | hr
            · exact hpieces.low _ List.mem_cons_self
            · exact hslots.low r hr
      | some new =>
          obtain ⟨kept, added, hloop, hlength, hle, hslots⟩ :=
            ih (count + 1) (by omega) hrest
          refine ⟨first :: kept, new :: added, ?_, ?_, ?_, ?_⟩
          · simp only [cAssert_of (decide_eq_true
              (show count < maxResultRegions by omega)), ok_bind, hloop]
          · rw [List.length_cons, List.length_cons, hlength]
          · rw [List.length_cons, List.length_cons]
            omega
          · have htiles := h.tiles.sdiff_cons hpieces.tiles hslots.tiles
            have hperm : (first :: new :: (kept ++ added)).Perm
                (first :: kept ++ new :: added) :=
              (List.perm_middle.symm).cons first
            constructor
            · refine Tiles.perm ?_ (hperm.map MemRegion.bytes)
              simpa using htiles
            · intro r hr
              rcases List.mem_cons.mp (hperm.mem_iff.mpr hr) with rfl | hr
              · exact hpieces.low _ List.mem_cons_self
              · rcases List.mem_cons.mp hr with rfl | hr
                · exact hpieces.low _ (by simp)
                · exact hslots.low r hr

end Slot

/-! ## The difference -/

section Regions

variable {region e e' : MemRegion}

/-- `exclude_regions` with the exclusions `e` and `e'` fills at most
`MAX_RESULT_REGIONS` entries, and those which are not empty partition what the
exclusions leave of the region. -/
def ExcludesExactly (region e e' : MemRegion) : Prop :=
  ∃ regions, excludeRegionsLoop [e, e'] [region] = .ok regions ∧
    regions.length ≤ maxResultRegions ∧
    IsPartition ((regions.filter (fun r => r.len ≠ 0)).map MemRegion.bytes)
      (region.bytes \ (e.bytes ∪ e'.bytes))

theorem excludeRegionsLoop_top (htop : region.AtTop) (hpos : 1 ≤ region.len) :
    excludeRegionsLoop [e, e'] [region] = .ok [region] := by
  obtain ⟨base, len⟩ := region
  unfold MemRegion.AtTop at htop
  simp only at htop hpos
  have hlen : len = 4294967296 - base := by omega
  have hone : 1 < maxResultRegions := by decide
  have hbase : base < 4294967296 := by omega
  have hsame := fun exclude : MemRegion =>
    @excludeFromSlot_top base exclude hbase
  rw [← hlen] at hsame
  rw [excludeRegionsLoop, List.length_singleton,
    excludeFromSlots_singleton hone, ok_bind, hsame]
  dsimp only
  rw [Option.toList_none, List.append_nil, excludeRegionsLoop,
    List.length_singleton, excludeFromSlots_singleton hone, ok_bind, hsame]
  rfl

theorem excludeRegionsLoop_low
    (hlow : region.base + region.len < 4294967296)
    (he : e.base + e.len ≤ 4294967296) (he' : e'.base + e'.len ≤ 4294967296) :
    ∃ regions, excludeRegionsLoop [e, e'] [region] = .ok regions ∧
      regions.length ≤ maxResultRegions ∧
      Slots regions ((region.bytes \ e.cut) \ e'.cut) := by
  have hmax : maxResultRegions = 4 := rfl
  obtain ⟨kept, added, hloop, hlength, hle, hslots⟩ :=
    excludeFromSlots_slots he 1 (by simp [hmax])
      (slots_singleton hlow)
  rw [List.length_singleton] at hlength hle
  have hcount : (kept ++ added).length ≤ 2 := by
    rw [List.length_append]
    omega
  obtain ⟨kept', added', hloop', hlength', hle', hslots'⟩ :=
    excludeFromSlots_slots he' (kept ++ added).length (by omega) hslots
  refine ⟨kept' ++ added', ?_, ?_, hslots'⟩
  · rw [excludeRegionsLoop, List.length_singleton, hloop, ok_bind]
    dsimp only
    rw [excludeRegionsLoop, hloop', ok_bind]
    rfl
  · rw [List.length_append]
    omega

theorem excludesExactly_iff_eq {regions : List MemRegion} {S : Set ℕ}
    (hloop : excludeRegionsLoop [e, e'] [region] = .ok regions)
    (hlength : regions.length ≤ maxResultRegions)
    (htiles : Tiles (regions.map MemRegion.bytes) S) :
    ExcludesExactly region e e' ↔
      S = region.bytes \ (e.bytes ∪ e'.bytes) := by
  have hparts := htiles.isPartition (p := fun r => r.len ≠ 0) fun r => by
    simp [MemRegion.bytes, Nat.pos_iff_ne_zero]
  constructor
  · rintro ⟨regions', hloop', -, hparts'⟩
    rw [hloop, Except.ok.injEq] at hloop'
    subst hloop'
    ext a
    rw [hparts.cover a, hparts'.cover a]
  · rintro rfl
    exact ⟨regions, hloop, hlength, hparts⟩

/-- The result is the exact difference if and only if each excluded byte of
the region is in an exclusion which is not skipped: a region at the top skips
both, and an exclusion at the top is always skipped. -/
theorem excludesExactly_iff (hpos : 1 ≤ region.len)
    (hregion : region.base + region.len ≤ 4294967296)
    (he : e.base + e.len ≤ 4294967296) (he' : e'.base + e'.len ≤ 4294967296) :
    ExcludesExactly region e e' ↔
      ∀ a ∈ region.bytes, a ∈ e.bytes ∨ a ∈ e'.bytes →
        ¬region.AtTop ∧
          (a ∈ e.bytes ∧ ¬e.AtTop ∨ a ∈ e'.bytes ∧ ¬e'.AtTop) := by
  rcases Nat.eq_or_lt_of_le hregion with htop | hlow
  · have htiles : Tiles ([region].map MemRegion.bytes) region.bytes :=
      tiles_singleton _
    rw [excludesExactly_iff_eq (excludeRegionsLoop_top htop hpos)
      (by simp [maxResultRegions]) htiles]
    constructor
    · intro heq a ha hexcluded
      rw [heq] at ha
      exact absurd hexcluded ha.2
    · intro h
      ext a
      refine ⟨fun ha => ⟨ha, fun hexcluded => ?_⟩, fun ha => ha.1⟩
      exact (h a ha hexcluded).1 htop
  · obtain ⟨regions, hloop, hlength, hslots⟩ :=
      excludeRegionsLoop_low hlow he he'
    have hnot : ¬region.AtTop := hlow.ne
    rw [excludesExactly_iff_eq hloop hlength hslots.tiles, Set.ext_iff]
    refine forall_congr' fun a => ?_
    simp only [Set.mem_sdiff, Set.mem_union, MemRegion.cut,
      Set.mem_ofPred_eq]
    tauto

/-- A kernel in the middle of 128 MiB, behind the first MiB. -/
theorem excludesExactly_128_mib :
    ExcludesExactly ⟨0, 0x8000000⟩ ⟨0, 0x100000⟩ ⟨0x400000, 0x200000⟩ := by
  refine (excludesExactly_iff (by decide) (by decide) (by decide)
    (by decide)).mpr fun a _ hexcluded => ⟨by decide, ?_⟩
  exact hexcluded.imp (fun h => ⟨h, by decide⟩) (fun h => ⟨h, by decide⟩)

/-- Nothing is cut out of a region which reaches 4 GiB, and an exclusion which
reaches 4 GiB is not cut out of a region below. -/
theorem exclusions_at_top_skipped :
    excludeRegionsLoop [⟨0, 0x100000⟩, ⟨0xfff80000, 0x1000⟩]
        [⟨0xfff00000, 0x100000⟩] = .ok [⟨0xfff00000, 0x100000⟩] ∧
      ¬ExcludesExactly ⟨0xfff00000, 0x100000⟩ ⟨0, 0x100000⟩
        ⟨0xfff80000, 0x1000⟩ ∧
      excludeRegionsLoop [⟨0, 0x100000⟩, ⟨0xc0000000, 0x40000000⟩]
        [⟨0xb0000000, 0x20000000⟩] = .ok [⟨0xb0000000, 0x20000000⟩] ∧
      ¬ExcludesExactly ⟨0xb0000000, 0x20000000⟩ ⟨0, 0x100000⟩
        ⟨0xc0000000, 0x40000000⟩ := by
  have hregion : excludeRegionsLoop
      [⟨0, 0x100000⟩, ⟨0xfff80000, 0x1000⟩] [⟨0xfff00000, 0x100000⟩] =
        .ok [⟨0xfff00000, 0x100000⟩] := rfl
  have hexclusion : excludeRegionsLoop
      [⟨0, 0x100000⟩, ⟨0xc0000000, 0x40000000⟩]
        [⟨0xb0000000, 0x20000000⟩] = .ok [⟨0xb0000000, 0x20000000⟩] := rfl
  refine ⟨hregion, ?_, hexclusion, ?_⟩
  · rintro ⟨regions, hloop, -, hparts⟩
    rw [hregion, Except.ok.injEq] at hloop
    subst hloop
    have hcover := (hparts.cover 0xfff80000).mpr (by simp [MemRegion.bytes])
    simp [MemRegion.bytes] at hcover
  · rintro ⟨regions, hloop, -, hparts⟩
    rw [hexclusion, Except.ok.injEq] at hloop
    subst hloop
    have hcover := (hparts.cover 0xc0000000).mpr (by simp [MemRegion.bytes])
    simp [MemRegion.bytes] at hcover

end Regions

end BootInfo
end Yjkos
