import Yjkos.VmmRun

/-!
# The order of the free list

`add_object_to_address_space` inserts behind the last object which ends below
the new one.  When there is none it inserts at the back, where an object
belongs only if the list is empty.  So the list stays in address order exactly
as long as every inserted object finds a free one below it.
-/

namespace Yjkos
namespace Vmm

open Mmu SetPartition TransitionRun

/-- The first of two objects starts at the lower address. -/
def StartsBelow (s : State) (p q : ℕ) : Prop :=
  ∃ object other, s.objects p = some object ∧ s.objects q = some other ∧
    object.start < other.start

/-- The free list is strictly increasing in start address. -/
def AddressOrdered (s : State) : Prop :=
  s.space.objectList.Pairwise (StartsBelow s)

/-- Some object of the list ends below `start`. -/
def SomeBelow (s : State) (start : ℕ) (list : List ℕ) : Prop :=
  ∃ q ∈ list, ∃ object, s.objects q = some object ∧ object.endAddr < start

section Insert

variable {s s' : State}

theorem pairwise_startsBelow_congr {list : List ℕ}
    (hsame : ∀ q ∈ list, s'.objects q = s.objects q)
    (hordered : list.Pairwise (StartsBelow s)) :
    list.Pairwise (StartsBelow s') := by
  refine hordered.imp_of_mem ?_
  rintro p q hp hq ⟨object, other, hobject, hother, hlt⟩
  exact ⟨object, other, (hsame p hp).trans hobject,
    (hsame q hq).trans hother, hlt⟩

theorem StartsBelow.trans {p q r : ℕ} (h : StartsBelow s p q)
    (h' : StartsBelow s q r) : StartsBelow s p r := by
  obtain ⟨object, middle, hobject, hmiddle, hlt⟩ := h
  obtain ⟨middle', other, hmiddle', hother, hlt'⟩ := h'
  obtain rfl : middle = middle' :=
    Option.some.inj (hmiddle.symm.trans hmiddle')
  exact ⟨object, other, hobject, hother, hlt.trans hlt'⟩

theorem pairwise_insert {front back : List ℕ} {p q : ℕ}
    (hordered : (front ++ q :: back).Pairwise (StartsBelow s))
    (hqp : StartsBelow s q p) (hpback : ∀ x ∈ back, StartsBelow s p x) :
    (front ++ q :: p :: back).Pairwise (StartsBelow s) := by
  rw [List.pairwise_append, List.pairwise_cons] at hordered
  obtain ⟨hfront, ⟨hqback, hback⟩, hcross⟩ := hordered
  have hfrontq : ∀ x ∈ front, StartsBelow s x q :=
    fun x hx => hcross x hx q List.mem_cons_self
  refine List.pairwise_append.mpr ⟨hfront, ?_, ?_⟩
  · refine List.pairwise_cons.mpr ⟨?_, List.pairwise_cons.mpr
      ⟨hpback, hback⟩⟩
    intro x hx
    rcases List.mem_cons.mp hx with rfl | hx
    · exact hqp
    · exact hqback x hx
  · intro x hx y hy
    rcases List.mem_cons.mp hy with rfl | hy
    · exact hfrontq x hx
    rcases List.mem_cons.mp hy with rfl | hy
    · exact (hfrontq x hx).trans hqp
    · exact hcross x hx y (List.mem_cons_of_mem q hy)

theorem findInsertAfter_below {start q : ℕ} {list : List ℕ}
    {found : Option ℕ}
    (h : findInsertAfter s start list found = .ok (some q)) :
    found = some q ∨ ∃ object, s.objects q = some object ∧
      object.endAddr < start := by
  induction list generalizing found with
  | nil =>
      left
      simpa [findInsertAfter] using h
  | cons p rest ih =>
      obtain ⟨object, hobject, h⟩ := bind_eq_ok h
      have hread : s.objects p = some object := by
        unfold State.getObject at hobject
        cases hp : s.objects p with
        | none => simp [hp] at hobject
        | some o => simpa [hp] using hobject
      split at h
      next hbelow =>
        rcases ih h with hfound | hlast
        · obtain rfl : p = q := Option.some.inj hfound
          exact Or.inr ⟨object, hread, hbelow⟩
        · exact Or.inr hlast
      next => exact ih h

theorem listInsertAfter_append {front back : List ℕ} {q : ℕ}
    (hq : q ∉ front) (p : ℕ) :
    listInsertAfter (front ++ q :: back) q p = front ++ q :: p :: back := by
  induction front with
  | nil => simp [listInsertAfter]
  | cons x front ih =>
      have hx : x ≠ q := by
        rintro rfl
        exact hq List.mem_cons_self
      rw [List.cons_append, listInsertAfter, if_neg hx,
        ih fun h => hq (List.mem_cons_of_mem x h)]
      rfl

/-- An object of the list which does not end below a disjoint one starts
above it. -/
theorem Apart.starts_above {object other : Object} {list : List ℕ} {q : ℕ}
    (hapart : Apart s object list) (hordered : object.start ≤ object.endAddr)
    (hq : q ∈ list) (hother : s.objects q = some other)
    (hnot : ¬other.endAddr < object.start) :
    object.endAddr < other.start := by
  obtain ⟨other', hother', hle, hdisjoint⟩ := hapart q hq
  rw [hother, Option.some.injEq] at hother'
  subst hother'
  exact lt_of_disjoint_Icc hle hordered hdisjoint hnot

/-- An insertion into an ordered list keeps the order exactly when the list
is empty or one of its objects lies below the new one. -/
theorem addObject_ordered_iff {p : ℕ} {object : Object}
    (hobject : s.objects p = some object) (hpaged : object.Paged)
    (hapart : Apart s object s.space.objectList)
    (hnodup : s.space.objectList.Nodup) (hordered : AddressOrdered s)
    (hadd : addObjectToAddressSpace s p = .ok s') :
    AddressOrdered s' ↔ s.space.objectList = [] ∨
      SomeBelow s object.start s.space.objectList := by
  have hread : Readable s s.space.objectList := by
    intro q hq
    obtain ⟨other, hother, -⟩ := hapart q hq
    exact ⟨other, hother⟩
  rw [addObjectToAddressSpace, getObject_eq hobject, ok_bind,
    cAssert_of hpaged.size_aligned, ok_bind] at hadd
  rcases findInsertAfter_spec object.start s.space.objectList none hread with
    ⟨heq, hnone⟩ | ⟨q, heq, hlast⟩
  · rw [heq, ok_bind, Except.ok.injEq] at hadd
    subst hadd
    constructor
    · intro hordered'
      left
      cases hlist : s.space.objectList with
      | nil => rfl
      | cons q rest =>
          have hq : q ∈ s.space.objectList := by
            rw [hlist]
            exact List.mem_cons_self
          -- the new object stands behind one which starts above it
          obtain ⟨other, object', hother, hobject', hlt⟩ :=
            (List.pairwise_append.mp hordered').2.2 q hq p
              (List.mem_singleton_self p)
          obtain rfl : object = object' :=
            Option.some.inj (hobject.symm.trans hobject')
          have habove := hapart.starts_above hpaged.ordered hq hother
            (hnone q hq other hother)
          have hle := hpaged.ordered
          omega
    · rintro (hempty | ⟨q, hq, other, hother, hbelow⟩)
      · simp [AddressOrdered, State.withObjectList, hempty]
      · exact absurd hbelow (hnone q hq other hother)
  · rw [heq, ok_bind] at hadd
    dsimp only at hadd
    rw [insertBehind_spec hpaged.ordered hapart hnodup hlast,
      Except.ok.injEq] at hadd
    subst hadd
    obtain ⟨front, back, hsplit, hnone⟩ := hlast.split
    obtain ⟨last, hlastObject, hbelow⟩ :=
      (findInsertAfter_below heq).resolve_left (by simp)
    have hmem : ∀ x ∈ front ++ q :: back, x ∈ s.space.objectList := by
      rw [hsplit]
      exact fun x hx => hx
    refine iff_of_true ?_ (Or.inr ⟨q, hmem q (by simp), last, hlastObject,
      hbelow⟩)
    rw [hsplit] at hnodup
    have hfront : q ∉ front := fun hq =>
      (List.nodup_append.mp hnodup).2.2 q hq q List.mem_cons_self rfl
    have hqp : StartsBelow s q p := by
      obtain ⟨last', hlast', hle, -⟩ := hapart q (hmem q (by simp))
      obtain rfl : last = last' :=
        Option.some.inj (hlastObject.symm.trans hlast')
      exact ⟨last, object, hlastObject, hobject, by omega⟩
    have hpback : ∀ x ∈ back, StartsBelow s p x := by
      intro x hx
      have hxlist := hmem x (by simp [hx])
      obtain ⟨other, hother, -⟩ := hapart x hxlist
      have habove := hapart.starts_above hpaged.ordered hxlist hother
        (hnone x hx other hother)
      have hle := hpaged.ordered
      exact ⟨object, other, hobject, hother, by omega⟩
    have hlist : (s.withObjectList (listInsertAfter s.space.objectList q
        p)).space.objectList = front ++ q :: p :: back := by
      rw [hsplit]
      exact listInsertAfter_append hfront p
    rw [AddressOrdered, hsplit] at hordered
    rw [AddressOrdered, hlist]
    exact pairwise_insert hordered hqp hpback

end Insert

/-! ## Allocation -/

/-- `old` is the first object of the list with `n` pages. -/
structure FirstLarge (s : State) (n : ℕ) (front back : List ℕ) (old : ℕ)
    (object : Object) : Prop where
  split : s.space.objectList = front ++ old :: back
  found : s.objects old = some object
  large : n ≤ object.pages
  first : ∀ q ∈ front, ∀ o, s.objects q = some o → o.pages < n

/-- The first free object with `n` pages is used up, or lies above another
free object, or is the only one. -/
def AllocSafe (s : State) (n : ℕ) : Prop :=
  ∃ front back old object, FirstLarge s n front back old object ∧
    (n = object.pages ∨ front ≠ [] ∨ back = [])

theorem allocSafe_congr {s s' : State} {n : ℕ} (hsame : SameObjects s s') :
    AllocSafe s' n ↔ AllocSafe s n := by
  constructor
  · rintro ⟨front, back, old, object, ⟨hsplit, hfound, hlarge, hfirst⟩, h⟩
    rw [hsame.list] at hsplit
    rw [hsame.objects] at hfound hfirst
    exact ⟨front, back, old, object, ⟨hsplit, hfound, hlarge, hfirst⟩, h⟩
  · rintro ⟨front, back, old, object, ⟨hsplit, hfound, hlarge, hfirst⟩, h⟩
    rw [← hsame.list] at hsplit
    rw [← hsame.objects] at hfound hfirst
    exact ⟨front, back, old, object, ⟨hsplit, hfound, hlarge, hfirst⟩, h⟩

section Alloc

variable {start endAddr : ℕ} {s t t' : State} {live : List ℕ}
  {n old : ℕ} {object : Object} {front back : List ℕ}

theorem FirstLarge.unique {old' : ℕ} {object' : Object}
    {front' back' : List ℕ} (h : FirstLarge s n front back old object)
    (h' : FirstLarge s n front' back' old' object') :
    front = front' ∧ old = old' ∧ back = back' := by
  obtain ⟨hsplit, hobject, hlarge, hfirst⟩ := h
  obtain ⟨hsplit', hobject', hlarge', hfirst'⟩ := h'
  rw [hsplit] at hsplit'
  rcases List.append_eq_append_iff.mp hsplit' with
    ⟨middle, hfront', hrest⟩ | ⟨middle, hfront, hrest⟩
  · cases middle with
    | nil =>
        simp only [List.append_nil, List.nil_append, List.cons.injEq]
          at hfront' hrest
        exact ⟨hfront'.symm, hrest⟩
    | cons q middle =>
        obtain ⟨rfl, -⟩ := List.cons.inj hrest
        have hsmall := hfirst' old (by rw [hfront']; simp) object hobject
        omega
  · cases middle with
    | nil =>
        simp only [List.append_nil, List.nil_append, List.cons.injEq]
          at hfront hrest
        exact ⟨hfront, hrest.1.symm, hrest.2.symm⟩
    | cons q middle =>
        obtain ⟨rfl, -⟩ := List.cons.inj hrest
        have hsmall := hfirst old' (by rw [hfront]; simp) object' hobject'
        omega

theorem findMinSize_first {list : List ℕ}
    (hpaged : ∀ p ∈ list, ∃ o, s.objects p = some o ∧ o.Paged)
    (hfind : findMinSize s n list = .ok (some old)) :
    ∃ front back object, list = front ++ old :: back ∧
      s.objects old = some object ∧ n ≤ object.pages ∧
      ∀ q ∈ front, ∀ o, s.objects q = some o → o.pages < n := by
  induction list with
  | nil => simp [findMinSize] at hfind
  | cons p rest ih =>
      obtain ⟨o, ho, hopaged⟩ := hpaged p List.mem_cons_self
      rw [findMinSize, getObject_eq ho, ok_bind,
        hopaged.sizeToBlocks_eq] at hfind
      split at hfind
      next hsmall =>
        obtain ⟨front, back, object, rfl, hobject, hlarge, hfirst⟩ :=
          ih (fun q hq => hpaged q (List.mem_cons_of_mem p hq)) hfind
        refine ⟨p :: front, back, object, rfl, hobject, hlarge, ?_⟩
        intro q hq oq hoq
        rcases List.mem_cons.mp hq with rfl | hq
        · rw [ho, Option.some.injEq] at hoq
          exact hoq ▸ hsmall
        · exact hfirst q hq oq hoq
      next hlarge =>
        simp only [Except.ok.injEq, Option.some.injEq] at hfind
        subst hfind
        exact ⟨[], rest, o, rfl, ho, by omega, by simp⟩

/-- In an ordered list the objects before the split one are those below what
is left of it. -/
theorem someBelow_rest_iff (hinv : Partitioned start endAddr s live)
    (hordered : AddressOrdered s)
    (hfirst : FirstLarge s n front back old object) (hn : n < object.pages)
    (hsame : ∀ q ∈ front ++ back, t.objects q = s.objects q) :
    SomeBelow t (object.rest n).start (front ++ back) ↔ front ≠ [] := by
  have holdMem : old ∈ s.space.objectList := by
    rw [hfirst.split]
    simp
  have hsub : ∀ q ∈ front ++ back, q ∈ s.space.objectList := by
    intro q hq
    rw [hfirst.split]
    simp only [List.mem_append, List.mem_cons] at hq ⊢
    tauto
  have hnotMem : old ∉ front ++ back := by
    have hnodup := (List.nodup_append.mp hinv.covers.nodup).1
    rw [hfirst.split] at hnodup
    exact (List.nodup_cons.mp (List.perm_middle.nodup_iff.mp hnodup)).1
  have hpaged := hinv.paged old (List.mem_append_left _ holdMem) object
    hfirst.found
  have hroom := hpaged.room
  have hle := hpaged.ordered
  have hapart := hinv.covers.apart (List.mem_append_left _ holdMem) hfirst.found
    hsub hnotMem
  have hrest : (object.rest n).start = object.start + n * 4096 := rfl
  rw [AddressOrdered, hfirst.split, List.pairwise_append,
    List.pairwise_cons] at hordered
  constructor
  · rintro ⟨q, hq, other, hother, hbelow⟩ rfl
    rw [hsame q hq] at hother
    obtain ⟨object', other', hobject', hother', hlt⟩ := hordered.2.1.1 q hq
    obtain rfl : object = object' :=
      Option.some.inj (hfirst.found.symm.trans hobject')
    obtain rfl : other = other' := Option.some.inj (hother.symm.trans hother')
    obtain ⟨other', hother', hordered', -⟩ := hapart q hq
    obtain rfl : other = other' := Option.some.inj (hother.symm.trans hother')
    have habove := hapart.starts_above hle hq hother (by omega)
    omega
  · intro hne
    obtain ⟨q, front', rfl⟩ := List.exists_cons_of_ne_nil hne
    have hq : q ∈ q :: front' ++ back := by simp
    obtain ⟨other, object', hother, hobject', hlt⟩ :=
      hordered.2.2 q List.mem_cons_self old List.mem_cons_self
    obtain rfl : object = object' :=
      Option.some.inj (hfirst.found.symm.trans hobject')
    refine ⟨q, hq, other, (hsame q hq).trans hother, ?_⟩
    by_contra hnot
    have habove := hapart.starts_above hle hq hother (by omega)
    omega

theorem returnRest_ordered_iff (hinv : Partitioned start endAddr s live)
    (hordered : AddressOrdered s)
    (hfirst : FirstLarge s n front back old object) (hpos : 1 ≤ n)
    (hlist : t.space.objectList = front ++ back)
    (hsame : ∀ q ∈ front ++ back, t.objects q = s.objects q)
    (hrest : t.objects old = some (object.rest n))
    (hreturn : returnRest t old (object.rest n) = .ok t') :
    AddressOrdered t' ↔ n = object.pages ∨ front ≠ [] ∨ back = [] := by
  have hpairwise : (front ++ back).Pairwise (StartsBelow t) := by
    apply pairwise_startsBelow_congr hsame
    rw [AddressOrdered, hfirst.split] at hordered
    exact hordered.sublist
      (List.Sublist.append_left (List.sublist_cons_self old back) front)
  have holdMem : old ∈ s.space.objectList := by
    rw [hfirst.split]
    simp
  have hsub : ∀ q ∈ front ++ back, q ∈ s.space.objectList := by
    intro q hq
    rw [hfirst.split]
    simp only [List.mem_append, List.mem_cons] at hq ⊢
    tauto
  have hnodup := (List.nodup_append.mp hinv.covers.nodup).1
  rw [hfirst.split, List.perm_middle.nodup_iff, List.nodup_cons] at hnodup
  have hpaged := hinv.paged old (List.mem_append_left _ holdMem) object
    hfirst.found
  have hroom := hpaged.room
  have hle := hpaged.ordered
  have hlarge := hfirst.large
  have hstart : (object.rest n).start = object.start + n * 4096 := rfl
  have hend : (object.rest n).endAddr = object.endAddr := rfl
  unfold returnRest at hreturn
  by_cases hall : n = object.pages
  · -- nothing is left, and the list is as before without the object
    rw [if_pos (by omega)] at hreturn
    simp only [State.heapFreeObject, hrest, Option.isSome_some, if_true,
      Except.ok.injEq] at hreturn
    subst hreturn
    refine iff_of_true ?_ (Or.inl hall)
    rw [AddressOrdered]
    simp only [hlist]
    apply pairwise_startsBelow_congr _ hpairwise
    intro q hq
    have hne : q ≠ old := fun h => hnodup.1 (h ▸ hq)
    simp [hne]
  · rw [if_neg (by omega)] at hreturn
    have hlt : n < object.pages := by omega
    have hapart : Apart t (object.rest n) t.space.objectList := by
      rw [hlist]
      intro q hq
      obtain ⟨other, hother, hordered', hdisjoint⟩ :=
        hinv.covers.apart (List.mem_append_left _ holdMem) hfirst.found hsub
          hnodup.1 q hq
      refine ⟨other, (hsame q hq).trans hother, hordered',
        hdisjoint.mono_right ?_⟩
      exact Set.Icc_subset_Icc (by omega) le_rfl
    rw [addObject_ordered_iff hrest (hpaged.rest hlt) hapart
      (by rw [hlist]; exact hnodup.2) (by rwa [AddressOrdered, hlist])
      hreturn, hlist, someBelow_rest_iff hinv hordered hfirst hlt hsame,
      List.append_eq_nil_iff]
    constructor
    · rintro (⟨-, hback⟩ | hfront)
      · exact Or.inr (Or.inr hback)
      · exact Or.inr (Or.inl hfront)
    · rintro (hall' | hfront | hback)
      · exact absurd hall' hall
      · exact Or.inr hfront
      · by_cases hfront : front = []
        · exact Or.inl ⟨hfront, hback⟩
        · exact Or.inr hfront

theorem splitObject_returned {new u : ℕ} {fresh : Object} {p : Option ℕ}
    (hold : t.objects old = some object) (hnew : t.objects new = some fresh)
    (hpaged : object.Paged) (hn : n ≤ object.pages)
    (hsplit : splitObject t new old (some u) n = .ok (p, t')) :
    ∃ first r, returnRest
        ((t.setObject new first).setObject old (object.rest n)) old
        (object.rest n) = .ok r ∧
      r.objects = t'.objects ∧ r.space.objectList = t'.space.objectList := by
  have hroom := hpaged.room
  have hbelow := hpaged.below
  have hsize : wrap (n * archPageSize) = n * archPageSize :=
    wrap_of_lt (by rw [archPageSize]; omega)
  have hstart : wrap (object.start + n * archPageSize) =
      object.start + n * archPageSize :=
    wrap_of_lt (by rw [archPageSize]; omega)
  rw [splitObject, getObject_eq hold, ok_bind, getObject_eq hnew,
    ok_bind] at hsplit
  simp only [hsize, hstart] at hsplit
  obtain ⟨r, hreturn, hsplit⟩ := bind_eq_ok hsplit
  simp only [insertRecord, ok_bind, Except.ok.injEq, Prod.mk.injEq] at hsplit
  obtain ⟨-, rfl⟩ := hsplit
  exact ⟨_, r, hreturn, rfl, rfl⟩

/-- An allocation which finds room keeps the order of the list exactly when
it is safe. -/
theorem alloc_ordered_iff (hinv : Partitioned start endAddr s live)
    (hordered : AddressOrdered s) {physBase size new u : ℕ}
    {mapflags : BitVec 8} {answers : List (Option ℕ)} {p : Option ℕ}
    (hsize : 1 ≤ size)
    (hanswers : s.heapAnswers = some new :: some u :: answers)
    (hnew : s.objects new = none)
    (hroom : HasRoom s (sizeToBlocks size archPageSize))
    (halloc : vmmAllocObject s physBase size mapflags = .ok (p, t')) :
    AddressOrdered t' ↔ AllocSafe s (sizeToBlocks size archPageSize) := by
  have hphys := aligned_of_vmmAllocObject halloc
  rw [vmmAllocObject_eq hphys hanswers] at halloc
  set n := sizeToBlocks size archPageSize with hndef
  have hpos : 1 ≤ n := sizeToBlocks_pos (by decide) hsize
  set r := prepared s new u n physBase mapflags answers with hr
  have hnotNew : ∀ q ∈ s.space.objectList, q ≠ new := fun q hq =>
    hinv.covers.fresh_ne hnew q (List.mem_append_left _ hq)
  have hsame : ∀ q ∈ s.space.objectList, r.objects q = s.objects q := by
    intro q hq
    simp [hr, prepared, hnotNew q hq]
  have hlistPaged : ∀ q ∈ s.space.objectList,
      ∃ o, r.objects q = some o ∧ o.Paged := by
    intro q hq
    rw [hsame q hq]
    exact hinv.covers.object (List.mem_append_left _ hq)
  obtain ⟨old, holdMem, object, hobject, hn, htake⟩ :=
    takeObjectWithMinSize_spec (t := r) hinv.covers hpos hroom rfl hsame
  rw [htake, ok_bind] at halloc
  dsimp only at halloc
  have hfind : findMinSize r n s.space.objectList = .ok (some old) := by
    obtain ⟨_, -, htake⟩ := bind_eq_ok htake
    obtain ⟨_, -, htake⟩ := bind_eq_ok htake
    obtain ⟨result, hfind, htake⟩ := bind_eq_ok htake
    simp only [Except.ok.injEq, Prod.mk.injEq] at htake
    exact htake.1 ▸ hfind
  obtain ⟨front, back, object', hsplitList, hobject', hlarge, hsmall⟩ :=
    findMinSize_first hlistPaged hfind
  obtain rfl : object = object' := by
    rw [hsame old holdMem, hobject] at hobject'
    exact Option.some.inj hobject'
  have hfirst : FirstLarge s n front back old object := by
    refine ⟨hsplitList, hobject, hlarge, ?_⟩
    intro q hq o ho
    have hqmem : q ∈ s.space.objectList := by
      rw [hsplitList]
      exact List.mem_append_left _ hq
    exact hsmall q hq o ((hsame q hqmem).trans ho)
  have hnodup := (List.nodup_append.mp hinv.covers.nodup).1
  rw [hsplitList, List.perm_middle.nodup_iff, List.nodup_cons] at hnodup
  have herase : s.space.objectList.erase old = front ++ back := by
    have holdFront : old ∉ front :=
      fun h => hnodup.1 (List.mem_append_left back h)
    rw [hsplitList, List.erase_append_right _ holdFront,
      List.erase_cons_head]
  have hpaged := hinv.paged old (List.mem_append_left _ holdMem) object
    hobject
  have hfresh : (r.withObjectList
      (s.space.objectList.erase old)).objects new =
      some ⟨0, 0, physBase, mapflags⟩ := by
    simp [hr, prepared, State.withObjectList]
  obtain ⟨first, returned, hreturn, hobjects, hlist⟩ :=
    splitObject_returned
      (t := r.withObjectList (s.space.objectList.erase old)) hobject' hfresh
      hpaged hn halloc
  have hiff : AddressOrdered t' ↔ AddressOrdered returned := by
    rw [AddressOrdered, AddressOrdered, hlist]
    constructor
    · exact pairwise_startsBelow_congr fun q _ => congrFun hobjects q
    · exact pairwise_startsBelow_congr fun q _ => (congrFun hobjects q).symm
  rw [hiff, returnRest_ordered_iff hinv hordered hfirst hpos herase _
    (by simp [State.setObject]) hreturn]
  · constructor
    · exact fun h => ⟨front, back, old, object, hfirst, h⟩
    · rintro ⟨front', back', old', object', hfirst', h⟩
      obtain ⟨rfl, rfl, rfl⟩ := hfirst.unique hfirst'
      obtain rfl : object = object' :=
        Option.some.inj (hobject.symm.trans hfirst'.found)
      exact h
  · intro q hq
    have hqold : q ≠ old := fun h => hnodup.1 (h ▸ hq)
    have hqmem : q ∈ s.space.objectList := by
      rw [hsplitList]
      simp only [List.mem_append, List.mem_cons] at hq ⊢
      tauto
    simp [State.setObject, State.withObjectList, hqold, hnotNew q hqmem,
      hsame q hqmem]

end Alloc

/-! ## Runs -/

namespace VmState

/-- What keeps the list in order: an allocation is safe, and an object is
freed into an empty list or above a free object. -/
def OrderSafe (r : VmState) : VmOp → Prop
  | .alloc _ size _ _ => AllocSafe r.vmm (sizeToBlocks size archPageSize)
  | .free p => r.vmm.space.objectList = [] ∨ ∃ object,
      r.vmm.objects p = some object ∧
        SomeBelow r.vmm object.start r.vmm.space.objectList
  | .fault _ _ _ _ _ => True

end VmState

section Run

variable {start endAddr kernelVmStart : ℕ} {r r' : VmState}

theorem AddressOrdered.congr {s s' : State} (hordered : AddressOrdered s)
    (hsame : SameObjects s s') : AddressOrdered s' := by
  rw [AddressOrdered, hsame.list]
  exact pairwise_startsBelow_congr (fun q _ => congrFun hsame.objects q)
    hordered

/-- A freed object finds its place exactly when a free one lies below it, or
when there is none. -/
theorem free_ordered_iff {s s' : State} {live : List ℕ} {p : ℕ}
    (hinv : Partitioned start endAddr s live) (hordered : AddressOrdered s)
    (hp : p ∈ live) (hfree : vmmFree s p = .ok s') :
    AddressOrdered s' ↔ s.space.objectList = [] ∨ ∃ object,
      s.objects p = some object ∧
        SomeBelow s object.start s.space.objectList := by
  obtain ⟨object, hobject, hpaged⟩ :=
    hinv.covers.object (List.mem_append_right _ hp)
  have hnodup := List.nodup_append.mp hinv.covers.nodup
  have hnotMem : p ∉ s.space.objectList :=
    fun h => hnodup.2.2 p h p hp rfl
  obtain ⟨_, -, hfree⟩ := bind_eq_ok hfree
  obtain ⟨record, -, hfree⟩ := bind_eq_ok hfree
  obtain ⟨t, hdrop, hfree⟩ := bind_eq_ok hfree
  obtain ⟨t', hpages, hadd⟩ := bind_eq_ok hfree
  have hsame := (dropRecord_sameObjects hdrop).trans
    (freePages_sameObjects hpages)
  have hapart := hinv.covers.apart (List.mem_append_right _ hp) hobject
    (List.Subset.refl _) hnotMem
  rw [addObject_ordered_iff (by rw [hsame.objects, hobject]) hpaged
    (by rw [Apart, hsame.objects, hsame.list]; exact hapart)
    (by rw [hsame.list]; exact hnodup.1) (hordered.congr hsame) hadd,
    SomeBelow, hsame.objects, hsame.list]
  constructor
  · rintro (hempty | hbelow)
    · exact Or.inl hempty
    · exact Or.inr ⟨object, hobject, hbelow⟩
  · rintro (hempty | ⟨object', hobject', hbelow⟩)
    · exact Or.inl hempty
    · obtain rfl : object = object' :=
        Option.some.inj (hobject.symm.trans hobject')
      exact Or.inr hbelow

theorem ordered_step_iff (hinv : Partitioned start endAddr r.vmm r.live)
    (hordered : AddressOrdered r.vmm) {op : VmOp} (hadmits : r.Admits op)
    (hstep : r.step kernelVmStart op = .ok r') :
    AddressOrdered r'.vmm ↔ r.OrderSafe op := by
  cases op with
  | alloc physBase size mapflags answers =>
      obtain ⟨hsize, ⟨new, u, rfl, -, hnew, -⟩, hroom⟩ := hadmits
      obtain ⟨⟨p, s⟩, hs, hstep⟩ := bind_eq_ok hstep
      have hvmm : r'.vmm = s := by
        cases p <;> simp only [Except.ok.injEq] at hstep <;> rw [← hstep]
      have hinv' : Partitioned start endAddr
          { r.vmm with heapAnswers := [some new, some u] } r.live :=
        hinv.congr rfl rfl rfl
      rw [hvmm, alloc_ordered_iff hinv' hordered hsize rfl hnew hroom hs]
      exact allocSafe_congr ⟨rfl, rfl, rfl⟩
  | free p =>
      obtain ⟨s, hs, hstep⟩ := bind_eq_ok hstep
      simp only [Except.ok.injEq] at hstep
      subst hstep
      exact free_ordered_iff hinv hordered hadmits hs
  | fault p ptr wasWrite wasUser answers =>
      obtain ⟨s, hs, hstep⟩ := bind_eq_ok hstep
      have hsame := vmmPageFault_sameObjects hs
      simp only [Except.ok.injEq] at hstep
      subst hstep
      exact iff_of_true (hordered.congr
        ⟨hsame.objects, hsame.list, hsame.console⟩) trivial

theorem ordered_of_starts (hrange : PageRange start endAddr)
    (hstarts : VmState.Starts start endAddr r) : AddressOrdered r.vmm := by
  obtain ⟨before, isUser, -, hinit⟩ := hstarts.init
  obtain ⟨p, -, hlist⟩ := (vmmInitAddressSpace_spec hrange hinit).object
  rw [AddressOrdered, hlist]
  exact List.pairwise_singleton _ p

/-- In every run whose steps are safe the free list is in address order in
every state reached, and the first step which is not safe breaks the order. -/
theorem free_list_ordered_of_reachable (hrange : PageRange start endAddr)
    (hreach : Reachable (VmState.Starts start endAddr)
      (fun r op => r.Admits op ∧ r.OrderSafe op)
      (VmState.step kernelVmStart) r) :
    AddressOrdered r.vmm ∧
      ∀ op r', r.Admits op → r.step kernelVmStart op = .ok r' →
        (AddressOrdered r'.vmm ↔ r.OrderSafe op) := by
  have hinv : Partitioned start endAddr r.vmm r.live ∧
      AddressOrdered r.vmm := by
    apply Reachable.invariant _ _ hreach
    · exact fun r hstarts => ⟨partitioned_of_starts hrange hstarts,
        ordered_of_starts hrange hstarts⟩
    · intro r op r' hinv hadmits hstep
      exact ⟨partitioned_step hinv.1 hadmits.1 hstep,
        (ordered_step_iff hinv.1 hinv.2 hadmits.1 hstep).mpr hadmits.2⟩
  exact ⟨hinv.2, fun op r' hadmits hstep =>
    ordered_step_iff hinv.1 hinv.2 hadmits hstep⟩

end Run

/-- The theorem for a run in which both pages are allocated and freed again,
the lower one first: it goes into the empty list and the other behind it. -/
theorem free_list_ordered_two_free : ∃ r r' : VmState,
    r.vmm.space.objectList = [2] ∧ r.OrderSafe (.free 4) ∧
      r.step 4096 (.free 4) = .ok r' ∧ r'.vmm.space.objectList = [2, 4] ∧
      AddressOrdered r'.vmm := by
  have hrange : PageRange 4096 12287 := by
    constructor <;> decide
  obtain ⟨r₁, r₂, r₃, ⟨hstep₁, ⟨h₁, h₂, h₃, h₄⟩, hlist₁, hpage₁⟩,
    ⟨hstep₂, hlive₂, hlist₂⟩, ⟨hstep₃, hlive₃, hlist₃, hlow, hhigh⟩,
    r₄, hstep₄, hlist₄⟩ := twoPages_freed
  have hadmits₁ : twoPages.Admits
      (.alloc physaddrNomap 1 3 [some 2, some 3]) :=
    ⟨le_rfl, ⟨2, 3, rfl, by decide, rfl, rfl, rfl, rfl⟩,
      1, List.mem_singleton_self 1, _, rfl, by decide⟩
  have hsafe₁ : twoPages.OrderSafe
      (.alloc physaddrNomap 1 3 [some 2, some 3]) :=
    ⟨[], [], 1, _, ⟨rfl, rfl, by decide, by simp⟩, Or.inr (Or.inr rfl)⟩
  have hadmits₂ : r₁.Admits
      (.alloc physaddrNomap 4096 3 [some 4, some 5]) :=
    ⟨by decide, ⟨4, 5, rfl, by decide, h₁, h₂, h₃, h₄⟩,
      1, by simp [hlist₁], _, hpage₁, by decide⟩
  have hsafe₂ : r₁.OrderSafe
      (.alloc physaddrNomap 4096 3 [some 4, some 5]) :=
    ⟨[], [], 1, _, ⟨hlist₁, hpage₁, by decide, by simp⟩, Or.inl rfl⟩
  have hadmits₃ : r₂.Admits (.free 2) := by
    simp [VmState.Admits, hlive₂]
  have hadmits₄ : r₃.Admits (.free 4) := by
    simp [VmState.Admits, hlive₃]
  have hsafe₄ : r₃.OrderSafe (.free 4) :=
    Or.inr ⟨_, hhigh, 2, by simp [hlist₃], _, hlow, by decide⟩
  have hreach : Reachable (VmState.Starts 4096 12287)
      (fun r op => r.Admits op ∧ r.OrderSafe op) (VmState.step 4096) r₄ :=
    ((((Reachable.start starts_twoPages).next ⟨hadmits₁, hsafe₁⟩
      hstep₁).next ⟨hadmits₂, hsafe₂⟩ hstep₂).next
      ⟨hadmits₃, Or.inl hlist₂⟩ hstep₃).next ⟨hadmits₄, hsafe₄⟩ hstep₄
  exact ⟨r₃, r₄, hlist₃, hsafe₄, hstep₄, hlist₄,
    (free_list_ordered_of_reachable hrange hreach).1⟩

/-- The first of two pages is allocated and freed again: it goes behind the
second one. -/
theorem freed_page_goes_behind : ∃ r : VmState,
    Reachable (VmState.Starts 4096 12287) VmState.Admits
        (VmState.step 4096) r ∧
      r.vmm.space.objectList = [1, 2] ∧ ¬AddressOrdered r.vmm := by
  have hadmits : twoPages.Admits
      (.alloc physaddrNomap 1 3 [some 2, some 3]) :=
    ⟨le_rfl, ⟨2, 3, rfl, by decide, rfl, rfl, rfl, rfl⟩,
      1, List.mem_singleton_self 1, _, rfl, by decide⟩
  obtain ⟨r₁, halloc, hlive, hfree⟩ : ∃ r, twoPages.step 4096
      (.alloc physaddrNomap 1 3 [some 2, some 3]) = .ok r ∧ 2 ∈ r.live ∧
      (r.step 4096 (.free 2)).map (fun r => (r.vmm.space.objectList,
        (r.vmm.objects 1).map Object.start,
        (r.vmm.objects 2).map Object.start)) =
        .ok ([1, 2], some 8192, some 4096) := ⟨_, rfl, by simp, rfl⟩
  have hreach := (Reachable.start starts_twoPages).next hadmits halloc
  cases hstep : r₁.step 4096 (.free 2) with
  | error fault =>
      rw [hstep] at hfree
      contradiction
  | ok r₂ =>
      rw [hstep] at hfree
      simp only [Except.map, Except.ok.injEq, Prod.mk.injEq,
        Option.map_eq_some_iff] at hfree
      obtain ⟨hlist, ⟨o₁, hone, hstart₁⟩, o₂, htwo, hstart₂⟩ := hfree
      refine ⟨r₂, hreach.next (a := .free 2) hlive hstep, hlist, ?_⟩
      intro hordered
      rw [AddressOrdered, hlist, List.pairwise_pair] at hordered
      obtain ⟨object, other, hobject, hother, hlt⟩ := hordered
      rw [hone, Option.some.injEq] at hobject
      rw [htwo, Option.some.injEq] at hother
      subst hobject hother
      omega

end Vmm
end Yjkos
