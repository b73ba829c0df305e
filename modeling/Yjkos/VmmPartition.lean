import Yjkos.VmmModel
import Yjkos.SetPartition
import Yjkos.TransitionRun

/-!
# Conservation of address space

The free list is not sorted, but the objects on it never overlap.  The scan of
`add_object_to_address_space` picks the last object which ends below the new
one, so the next one does not end below it and, being disjoint from it,
starts above it: the insertion never fails.
-/

namespace Yjkos
namespace Vmm

open Mmu SetPartition TransitionRun

def Object.range (object : Object) : Set ℕ :=
  Set.Icc object.start object.endAddr

def Object.pages (object : Object) : ℕ :=
  (object.endAddr + 1 - object.start) / archPageSize

/-- A non-empty sequence of whole pages which does not reach the end of the
address space. -/
structure Object.Paged (object : Object) : Prop where
  ordered : object.start ≤ object.endAddr
  startAligned : object.start % 4096 = 0
  endAligned : (object.endAddr + 1) % 4096 = 0
  below : object.endAddr < 4294967295

/-- The addresses of the object at `p`; none when there is no object. -/
def State.rangeOf (s : State) (p : ℕ) : Set ℕ :=
  match s.objects p with
  | some object => object.range
  | none => ∅

theorem rangeOf_eq {s : State} {p : ℕ} {object : Object}
    (h : s.objects p = some object) : s.rangeOf p = object.range := by
  simp [State.rangeOf, h]

theorem getObject_eq {s : State} {p : ℕ} {object : Object}
    (h : s.objects p = some object) : s.getObject p = .ok object := by
  simp [State.getObject, h]

section Size

variable {object : Object}

theorem Object.Paged.size_eq (h : object.Paged) :
    vmmGetObjectSize object = object.pages * archPageSize := by
  have hordered := h.ordered
  have hstart := h.startAligned
  have hend := h.endAligned
  have hbelow := h.below
  unfold vmmGetObjectSize wrap Object.pages archPageSize
  omega

theorem Object.Paged.sizeToBlocks_eq (h : object.Paged) :
    sizeToBlocks (vmmGetObjectSize object) archPageSize = object.pages := by
  rw [h.size_eq]
  exact sizeToBlocks_mul_self _ (by decide)

theorem Object.Paged.size_aligned (h : object.Paged) :
    isAligned (vmmGetObjectSize object) archPageSize = true := by
  rw [h.size_eq, isAligned_iff]
  exact Nat.dvd_mul_left _ _

end Size

/-! ## Insertion into the free list -/

section Insert

variable {s : State}

/-- Every object of the list can be read. -/
def Readable (s : State) (list : List ℕ) : Prop :=
  ∀ p ∈ list, ∃ object, s.objects p = some object

/-- No object of the list ends below `start`. -/
def NoneBelow (s : State) (start : ℕ) (list : List ℕ) : Prop :=
  ∀ p ∈ list, ∀ object, s.objects p = some object → ¬object.endAddr < start

/-- `q` is the last object of the list which ends below `start`. -/
structure LastBelow (s : State) (start : ℕ) (list : List ℕ) (q : ℕ) :
    Prop where
  split : ∃ front back, list = front ++ q :: back ∧ NoneBelow s start back

theorem findInsertAfter_spec (start : ℕ) (list : List ℕ) (found : Option ℕ)
    (hread : Readable s list) :
    (findInsertAfter s start list found = .ok found ∧
        NoneBelow s start list) ∨
      ∃ q, findInsertAfter s start list found = .ok (some q) ∧
        LastBelow s start list q := by
  induction list generalizing found with
  | nil =>
      left
      exact ⟨rfl, by simp [NoneBelow]⟩
  | cons p rest ih =>
      obtain ⟨object, hobject⟩ := hread p List.mem_cons_self
      have hrest : Readable s rest :=
        fun r hr => hread r (List.mem_cons_of_mem p hr)
      simp only [findInsertAfter, getObject_eq hobject, ok_bind]
      by_cases hbelow : object.endAddr < start
      · right
        rw [if_pos hbelow]
        rcases ih (some p) hrest with ⟨heq, hnone⟩ | ⟨q, heq, hlast⟩
        · exact ⟨p, heq, ⟨[], rest, rfl, hnone⟩⟩
        · obtain ⟨front, back, hsplit, hnone⟩ := hlast.split
          refine ⟨q, heq, ⟨p :: front, back, ?_, hnone⟩⟩
          rw [hsplit, List.cons_append]
      · rw [if_neg hbelow]
        rcases ih found hrest with ⟨heq, hnone⟩ | ⟨q, heq, hlast⟩
        · left
          refine ⟨heq, ?_⟩
          intro r hr robject hrobject
          rcases List.mem_cons.mp hr with rfl | hr
          · rw [hobject, Option.some.injEq] at hrobject
            exact hrobject ▸ hbelow
          · exact hnone r hr robject hrobject
        · right
          obtain ⟨front, back, hsplit, hnone⟩ := hlast.split
          refine ⟨q, heq, ⟨p :: front, back, ?_, hnone⟩⟩
          rw [hsplit, List.cons_append]

theorem nextOf_append {front back : List ℕ} {q : ℕ} (hq : q ∉ front) :
    nextOf (front ++ q :: back) q = back.head? := by
  induction front with
  | nil => cases back <;> simp [nextOf]
  | cons x front ih =>
      have hx : x ≠ q := by
        rintro rfl
        exact hq List.mem_cons_self
      have hrest := ih fun h => hq (List.mem_cons_of_mem x h)
      cases front with
      | nil => simpa [nextOf, hx] using hrest
      | cons y front => simpa [nextOf, hx] using hrest

theorem listInsertAfter_perm {list : List ℕ} {q : ℕ} (hq : q ∈ list)
    (p : ℕ) : (listInsertAfter list q p).Perm (p :: list) := by
  induction list with
  | nil => simp at hq
  | cons x rest ih =>
      unfold listInsertAfter
      split
      · exact List.Perm.swap p x rest
      next hx =>
        have hmem : q ∈ rest := by
          rcases List.mem_cons.mp hq with rfl | h
          · exact absurd rfl hx
          · exact h
        exact ((ih hmem).cons x).trans (List.Perm.swap p x rest)

/-- The objects of the list are non-empty, and disjoint from `object`. -/
def Apart (s : State) (object : Object) (list : List ℕ) : Prop :=
  ∀ q ∈ list, ∃ other, s.objects q = some other ∧
    other.start ≤ other.endAddr ∧ Disjoint other.range object.range

theorem insertBehind_spec {p q : ℕ} {object : Object}
    (hordered : object.start ≤ object.endAddr)
    (hapart : Apart s object s.space.objectList)
    (hnodup : s.space.objectList.Nodup)
    (hlast : LastBelow s object.start s.space.objectList q) :
    insertBehind s p object q =
      .ok (s.withObjectList (listInsertAfter s.space.objectList q p)) := by
  obtain ⟨front, back, hsplit, hnone⟩ := hlast.split
  have hfront : q ∉ front := by
    rw [hsplit] at hnodup
    have hdisj := (List.nodup_append.mp hnodup).2.2
    intro hq
    exact hdisj q hq q List.mem_cons_self rfl
  have hnext : nextOf s.space.objectList q = back.head? := by
    rw [hsplit]
    exact nextOf_append hfront
  unfold insertBehind
  simp only [hnext]
  cases back with
  | nil => rfl
  | cons next back =>
      have hmem : ∀ r ∈ [next, q], r ∈ s.space.objectList := by
        rw [hsplit]
        simp
      obtain ⟨nextObject, hnextObject, hnextOrdered, hdisj⟩ :=
        hapart next (hmem next (by simp))
      obtain ⟨after, hafter, -⟩ := hapart q (hmem q (by simp))
      -- The next object does not end below the new one, so it is above it.
      have habove : object.endAddr < nextObject.start :=
        lt_of_disjoint_Icc hnextOrdered hordered hdisj
          (hnone next List.mem_cons_self nextObject hnextObject)
      simp only [List.head?_cons, getObject_eq hnextObject,
        getObject_eq hafter, ok_bind]
      rw [if_neg (by omega)]

theorem addObjectToAddressSpace_spec {p : ℕ} {object : Object}
    (hobject : s.objects p = some object) (hpaged : object.Paged)
    (hapart : Apart s object s.space.objectList)
    (hnodup : s.space.objectList.Nodup) :
    ∃ list, addObjectToAddressSpace s p = .ok (s.withObjectList list) ∧
      list.Perm (p :: s.space.objectList) := by
  have hread : Readable s s.space.objectList := by
    intro q hq
    obtain ⟨other, hother, -⟩ := hapart q hq
    exact ⟨other, hother⟩
  rw [addObjectToAddressSpace, getObject_eq hobject, ok_bind,
    cAssert_of hpaged.size_aligned, ok_bind]
  rcases findInsertAfter_spec object.start s.space.objectList none hread with
    ⟨heq, -⟩ | ⟨q, heq, hlast⟩
  · refine ⟨s.space.objectList ++ [p], ?_,
      List.perm_append_singleton p s.space.objectList⟩
    rw [heq, ok_bind]
  · have hq : q ∈ s.space.objectList := by
      obtain ⟨front, back, hsplit, -⟩ := hlast.split
      rw [hsplit]
      simp
    refine ⟨listInsertAfter s.space.objectList q p, ?_,
      listInsertAfter_perm hq p⟩
    rw [heq, ok_bind]
    exact insertBehind_spec hpaged.ordered hapart hnodup hlast

end Insert

/-! ## Taking pages off a free object -/

section Split

variable {s : State} {old new u n : ℕ} {object : Object}

theorem findMinSize_spec (n : ℕ) (list : List ℕ)
    (hpaged : ∀ p ∈ list, ∃ o, s.objects p = some o ∧ o.Paged)
    (hlarge : ∃ p ∈ list, ∃ o, s.objects p = some o ∧ n ≤ o.pages) :
    ∃ p ∈ list, ∃ o, s.objects p = some o ∧ n ≤ o.pages ∧
      findMinSize s n list = .ok (some p) := by
  induction list with
  | nil => simp at hlarge
  | cons p rest ih =>
      obtain ⟨o, ho, hopaged⟩ := hpaged p List.mem_cons_self
      rw [findMinSize, getObject_eq ho, ok_bind, hopaged.sizeToBlocks_eq]
      by_cases hsmall : o.pages < n
      · rw [if_pos hsmall]
        have hlarge' : ∃ q ∈ rest, ∃ o, s.objects q = some o ∧
            n ≤ o.pages := by
          obtain ⟨q, hq, oq, hoq, hn⟩ := hlarge
          rcases List.mem_cons.mp hq with rfl | hq
          · rw [ho, Option.some.injEq] at hoq
            subst hoq
            omega
          · exact ⟨q, hq, oq, hoq, hn⟩
        obtain ⟨q, hq, oq, hoq, hn, heq⟩ :=
          ih (fun q hq => hpaged q (List.mem_cons_of_mem p hq)) hlarge'
        exact ⟨q, List.mem_cons_of_mem p hq, oq, hoq, hn, heq⟩
      · rw [if_neg hsmall]
        exact ⟨p, List.mem_cons_self, o, ho, by omega, rfl⟩

/-- The object made of the first `n` pages of `object`. -/
def Object.first (object : Object) (n physBase : ℕ) (mapflags : BitVec 8) :
    Object :=
  ⟨object.start, object.start + n * archPageSize - 1, physBase, mapflags⟩

/-- What is left of `object` without its first `n` pages. -/
def Object.rest (object : Object) (n : ℕ) : Object :=
  { object with start := object.start + n * archPageSize }

theorem Object.Paged.room (h : object.Paged) :
    object.start + object.pages * 4096 = object.endAddr + 1 := by
  have hordered := h.ordered
  have hstart := h.startAligned
  have hend := h.endAligned
  unfold Object.pages archPageSize
  omega

theorem Object.Paged.first (h : object.Paged) (hpos : 1 ≤ n)
    (hn : n ≤ object.pages) (physBase : ℕ) (mapflags : BitVec 8) :
    (object.first n physBase mapflags).Paged := by
  have hroom := h.room
  have hstart := h.startAligned
  have hbelow := h.below
  constructor <;> simp only [Object.first, archPageSize] <;> omega

theorem Object.Paged.rest (h : object.Paged) (hn : n < object.pages) :
    (object.rest n).Paged := by
  have hroom := h.room
  have hstart := h.startAligned
  have hend := h.endAligned
  have hbelow := h.below
  constructor <;> simp only [Object.rest, archPageSize] <;> omega

theorem Object.Paged.partition (h : object.Paged) (hpos : 1 ≤ n)
    (hn : n < object.pages) (physBase : ℕ) (mapflags : BitVec 8) :
    IsPartition [(object.rest n).range,
      (object.first n physBase mapflags).range] object.range := by
  have hroom := h.room
  have hfirst := h.first hpos hn.le physBase mapflags
  have hrest := h.rest hn
  constructor
  · simp only [List.mem_cons, List.not_mem_nil, or_false, forall_eq_or_imp,
      forall_eq]
    exact ⟨Set.nonempty_Icc.mpr hrest.ordered,
      Set.nonempty_Icc.mpr hfirst.ordered⟩
  · simp only [List.pairwise_cons, List.mem_cons, List.not_mem_nil, or_false,
      forall_eq, false_imp_iff, implies_true, List.Pairwise.nil, and_true]
    refine Set.disjoint_left.mpr fun a ha hb => ?_
    simp only [Object.range, Object.rest, Object.first, Set.mem_Icc,
      archPageSize] at ha hb
    omega
  · intro a
    simp only [Object.range, Object.rest, Object.first, Set.mem_Icc,
      archPageSize, List.mem_cons, List.not_mem_nil, or_false,
      exists_eq_or_imp, exists_eq_left]
    omega

theorem Object.Paged.first_range (h : object.Paged)
    (hn : n = object.pages) (physBase : ℕ) (mapflags : BitVec 8) :
    (object.first n physBase mapflags).range = object.range := by
  have hroom := h.room
  have hlast : object.start + n * archPageSize - 1 = object.endAddr := by
    rw [hn, archPageSize]
    omega
  simp [Object.range, Object.first, hlast]

/-- What becomes of the split object: it is used up and freed, or the rest of
it is back on the list. -/
def SplitLeaves (s : State) (old n : ℕ) (object : Object)
    (found : Option Object) (list : List ℕ) : Prop :=
  (n = object.pages ∧ found = none ∧ list = s.space.objectList) ∨
    (n < object.pages ∧ found = some (object.rest n) ∧
      list.Perm (old :: s.space.objectList))

/-- The state after a split; only the two objects and the two lists have
changed. -/
def afterSplit (s : State) (objects : ℕ → Option Object) (list : List ℕ)
    (u : ℕ) : State :=
  { s with
    objects := objects
    space := ⟨list, s.space.uncommitedObjects ++ [u], s.space.isUser⟩ }

theorem splitObject_spec {fresh : Object} (hold : s.objects old = some object)
    (hnew : s.objects new = some fresh)
    (hpaged : object.Paged) (hpos : 1 ≤ n) (hn : n ≤ object.pages)
    (hapart : Apart s object s.space.objectList)
    (hnodup : s.space.objectList.Nodup)
    (hnewList : new ∉ s.space.objectList)
    (holdList : old ∉ s.space.objectList) :
    ∃ found list,
      splitObject s new old (some u) n =
        .ok (some new, afterSplit s
          (Function.update (Function.update s.objects new
            (some (object.first n fresh.physBase fresh.mapflags))) old found)
          list u) ∧
      SplitLeaves s old n object found list := by
  have hroom := hpaged.room
  have hbelow := hpaged.below
  have hsize : wrap (n * archPageSize) = n * archPageSize :=
    wrap_of_lt (by rw [archPageSize]; omega)
  have hend : wrap (object.start + n * archPageSize + 4294967295) =
      object.start + n * archPageSize - 1 := by
    rw [wrap, archPageSize]
    omega
  have hstart : wrap (object.start + n * archPageSize) =
      object.start + n * archPageSize :=
    wrap_of_lt (by rw [archPageSize]; omega)
  have hstartEq : (object.rest n).start =
      object.start + n * archPageSize := rfl
  rw [splitObject, getObject_eq hold, ok_bind, getObject_eq hnew, ok_bind]
  simp only [hsize, hend, hstart]
  unfold returnRest
  by_cases hall : n = object.pages
  · refine ⟨none, s.space.objectList, ?_, Or.inl ⟨hall, rfl, rfl⟩⟩
    have hempty : object.endAddr < object.start + n * archPageSize := by
      rw [hall, archPageSize]
      omega
    rw [if_pos hempty]
    simp [State.heapFreeObject, State.setObject, insertRecord, afterSplit,
      State.withUncommited, Object.first]
  · have hlt : n < object.pages := by omega
    have hleft : ¬object.endAddr < object.start + n * archPageSize := by
      rw [archPageSize]
      omega
    rw [if_neg hleft]
    obtain ⟨list, hadd, hperm⟩ := addObjectToAddressSpace_spec
      (s := (s.setObject new (object.first n fresh.physBase
        fresh.mapflags)).setObject old (object.rest n)) (p := old)
      (by simp [State.setObject]) (hpaged.rest hlt)
      (by
        intro q hq
        obtain ⟨other, hother, hordered, hdisj⟩ := hapart q hq
        have hqold : q ≠ old := fun h => holdList (h ▸ hq)
        have hqnew : q ≠ new := fun h => hnewList (h ▸ hq)
        refine ⟨other, ?_, hordered, hdisj.mono_right ?_⟩
        · simpa [State.setObject, hqold, hqnew] using hother
        · exact Set.Icc_subset_Icc (by rw [hstartEq]; omega) le_rfl)
      hnodup
    refine ⟨some (object.rest n), list, ?_, Or.inr ⟨hlt, rfl, hperm⟩⟩
    unfold Object.first Object.rest at hadd
    rw [hadd]
    rfl

end Split

/-! ## The invariant -/

/-- The free objects and the live ones partition the range into whole pages,
and nothing was dropped. -/
structure Partitioned (start endAddr : ℕ) (s : State) (live : List ℕ) :
    Prop where
  parts : IsPartition ((s.space.objectList ++ live).map s.rangeOf)
    (Set.Icc start endAddr)
  paged : ∀ p ∈ s.space.objectList ++ live, ∀ object,
    s.objects p = some object → object.Paged
  console : s.console = []

section Invariant

variable {start endAddr : ℕ} {s : State} {live : List ℕ} {addresses : Set ℕ}

/-- The free objects and the live ones partition a set of addresses into
whole pages. -/
structure Covers (addresses : Set ℕ) (s : State) (live : List ℕ) : Prop where
  parts : IsPartition ((s.space.objectList ++ live).map s.rangeOf) addresses
  paged : ∀ p ∈ s.space.objectList ++ live, ∀ object,
    s.objects p = some object → object.Paged

theorem Partitioned.covers (hinv : Partitioned start endAddr s live) :
    Covers (Set.Icc start endAddr) s live :=
  ⟨hinv.parts, hinv.paged⟩

theorem Covers.object (hcovers : Covers addresses s live) {p : ℕ}
    (hp : p ∈ s.space.objectList ++ live) :
    ∃ object, s.objects p = some object ∧ object.Paged := by
  have hnonempty := hcovers.parts.nonempty _ (List.mem_map_of_mem hp)
  cases hobject : s.objects p with
  | none => simp [State.rangeOf, hobject] at hnonempty
  | some object => exact ⟨object, rfl, hcovers.paged p hp object hobject⟩

theorem Covers.nodup (hcovers : Covers addresses s live) :
    (s.space.objectList ++ live).Nodup :=
  hcovers.parts.nodup_of_map

theorem Covers.apart (hcovers : Covers addresses s live) {p : ℕ}
    {object : Object} (hp : p ∈ s.space.objectList ++ live)
    (hobject : s.objects p = some object) {list : List ℕ}
    (hsubset : list ⊆ s.space.objectList) (hnotMem : p ∉ list) :
    Apart s object list := by
  intro q hq
  have hqmem : q ∈ s.space.objectList ++ live :=
    List.mem_append_left _ (hsubset hq)
  obtain ⟨other, hother, hpaged⟩ := hcovers.object hqmem
  refine ⟨other, hother, hpaged.ordered, Set.disjoint_left.mpr ?_⟩
  intro a ha hb
  have heq : q = p := hcovers.parts.eq_of_mem hqmem hp
    (by rwa [rangeOf_eq hother]) (by rwa [rangeOf_eq hobject])
  exact hnotMem (heq ▸ hq)

theorem Covers.fresh_ne (hcovers : Covers addresses s live) {new : ℕ}
    (hnew : s.objects new = none) :
    ∀ p ∈ s.space.objectList ++ live, p ≠ new := by
  rintro p hp rfl
  obtain ⟨o, ho, -⟩ := hcovers.object hp
  rw [hnew] at ho
  contradiction

theorem Partitioned.congr (hinv : Partitioned start endAddr s live)
    {s' : State} (hobjects : s'.objects = s.objects)
    (hlist : s'.space.objectList = s.space.objectList)
    (hconsole : s'.console = s.console) :
    Partitioned start endAddr s' live := by
  have hrange : s'.rangeOf = s.rangeOf := by
    funext p
    simp [State.rangeOf, hobjects]
  constructor
  · rw [hlist, hrange]
    exact hinv.parts
  · rw [hlist, hobjects]
    exact hinv.paged
  · rw [hconsole]
    exact hinv.console

theorem map_rangeOf_congr {s' : State} {list : List ℕ}
    (h : ∀ q ∈ list, s'.objects q = s.objects q) :
    list.map s'.rangeOf = list.map s.rangeOf :=
  List.map_congr_left fun q hq => by simp [State.rangeOf, h q hq]

/-! ### Allocation -/

variable {new u n physBase size : ℕ} {mapflags : BitVec 8}
  {newobject uobject : Option ℕ} {answers : List (Option ℕ)}

/-- The state after both requests to the heap. -/
def afterAnswers (s : State) (newobject uobject : Option ℕ)
    (n physBase : ℕ) (mapflags : BitVec 8) (answers : List (Option ℕ)) :
    State :=
  { s with
    objects := match newobject with
      | some new =>
          Function.update s.objects new (some ⟨0, 0, physBase, mapflags⟩)
      | none => s.objects
    uobjects := match uobject with
      | some u => Function.update s.uobjects u
          (some ⟨newobject, freshBitmap n⟩)
      | none => s.uobjects
    heapAnswers := answers }

theorem afterAnswers_objects {p : ℕ} (hp : newobject ≠ some p) :
    (afterAnswers s newobject uobject n physBase mapflags answers).objects p =
      s.objects p := by
  cases newobject with
  | none => rfl
  | some new =>
      have hne : p ≠ new := fun h => hp (h ▸ rfl)
      simp [afterAnswers, hne]

theorem create_answered
    (hanswers : s.heapAnswers = newobject :: uobject :: answers)
    (n physBase : ℕ) (mapflags : BitVec 8) :
    (createObject s 0 0 physBase mapflags).1 = newobject ∧
      createUncommitedObject (createObject s 0 0 physBase mapflags).2
        newobject n = (uobject,
          afterAnswers s newobject uobject n physBase mapflags answers) := by
  cases newobject <;> cases uobject <;>
    simp [createObject, createUncommitedObject, State.heapAlloc, hanswers,
      State.setObject, State.setUobject, afterAnswers]

/-- The two ways on from the search of the free list. -/
def splitOrRelease (t : State) (n : ℕ)
    (newobject uobject oldobject : Option ℕ) :
    Except Fault (Option ℕ × State) :=
  match newobject, oldobject with
  | some new, some old => splitObject t new old uobject n
  | _, _ => releaseAll t newobject uobject oldobject

/-- `vmm_alloc_object` with both answers of the heap read. -/
theorem vmmAllocObject_answered
    (hphys : physBase = physaddrNomap ∨ physBase % 4096 = 0)
    (hanswers : s.heapAnswers = newobject :: uobject :: answers)
    (hn : sizeToBlocks size archPageSize = n) :
    vmmAllocObject s physBase size mapflags =
      (do
        let (oldobject, t) ← takeObjectWithMinSize
          (afterAnswers s newobject uobject n physBase mapflags answers) n
        splitOrRelease t n newobject uobject oldobject) := by
  have hassert : (physBase = physaddrNomap ||
      isAligned physBase archPageSize : Bool) = true := by
    simpa [isAligned, archPageSize] using hphys
  obtain ⟨hfst, hrecord⟩ := create_answered hanswers n physBase mapflags
  rw [vmmAllocObject, cAssert_of hassert, ok_bind, hn]
  simp only [hfst, hrecord]
  rfl

/-- The state once both heap blocks of an allocation are there. -/
def prepared (s : State) (new u n physBase : ℕ) (mapflags : BitVec 8)
    (answers : List (Option ℕ)) : State :=
  { s with
    objects := Function.update s.objects new
      (some ⟨0, 0, physBase, mapflags⟩)
    uobjects := Function.update s.uobjects u
      (some ⟨some new, freshBitmap n⟩)
    heapAnswers := answers }

theorem vmmAllocObject_eq
    (hphys : physBase = physaddrNomap ∨ physBase % 4096 = 0)
    (hanswers : s.heapAnswers = some new :: some u :: answers) :
    vmmAllocObject s physBase size mapflags =
      (do
        let (oldobject, t) ← takeObjectWithMinSize
          (prepared s new u (sizeToBlocks size archPageSize) physBase
            mapflags answers) (sizeToBlocks size archPageSize)
        match oldobject with
        | some old =>
            splitObject t new old (some u) (sizeToBlocks size archPageSize)
        | none => releaseAll t (some new) (some u) none) := by
  rw [vmmAllocObject_answered hphys hanswers rfl]
  congr 1
  funext result
  obtain ⟨oldobject, t⟩ := result
  cases oldobject <;> rfl

/-- What a successful allocation of `n` pages does. -/
structure Allocated (start endAddr : ℕ) (live : List ℕ) (s s' : State)
    (new u n physBase : ℕ) (mapflags : BitVec 8) : Prop where
  partitioned : Partitioned start endAddr s' (new :: live)
  object : ∃ first, s'.objects new =
    some ⟨first, first + n * archPageSize - 1, physBase, mapflags⟩
  others : ∀ p ∈ live, s'.objects p = s.objects p
  uobjects : s'.uobjects = Function.update s.uobjects u
    (some ⟨some new, freshBitmap n⟩)
  uncommited : s'.space.uncommitedObjects = s.space.uncommitedObjects ++ [u]
  isUser : s'.space.isUser = s.space.isUser
  tables : s'.tables = s.tables
  frames : s'.frames = s.frames

/-- There is room for `n` pages in one free object. -/
def HasRoom (s : State) (n : ℕ) : Prop :=
  ∃ p ∈ s.space.objectList, ∃ object, s.objects p = some object ∧
    n ≤ object.pages

theorem takeObjectWithMinSize_spec (hcovers : Covers addresses s live)
    {t : State} (hpos : 1 ≤ n) (hroom : HasRoom s n)
    (hlist : t.space.objectList = s.space.objectList)
    (hsame : ∀ p ∈ s.space.objectList, t.objects p = s.objects p) :
    ∃ old ∈ s.space.objectList, ∃ object, s.objects old = some object ∧
      n ≤ object.pages ∧ takeObjectWithMinSize t n =
        .ok (some old, t.withObjectList (s.space.objectList.erase old)) := by
  have hpaged : ∀ p ∈ s.space.objectList,
      ∃ o, t.objects p = some o ∧ o.Paged := by
    intro p hp
    rw [hsame p hp]
    exact hcovers.object (List.mem_append_left _ hp)
  have hlarge : ∃ p ∈ s.space.objectList,
      ∃ o, t.objects p = some o ∧ n ≤ o.pages := by
    obtain ⟨p, hp, o, ho, hn⟩ := hroom
    exact ⟨p, hp, o, by rwa [hsame p hp], hn⟩
  obtain ⟨old, hold, o, ho, hn, hfind⟩ :=
    findMinSize_spec n s.space.objectList hpaged hlarge
  refine ⟨old, hold, o, by rwa [hsame old hold] at ho, hn, ?_⟩
  have hne : t.space.objectList ≠ [] := by
    rw [hlist]
    exact List.ne_nil_of_mem hold
  rw [takeObjectWithMinSize, cAssert_of (by simpa using by omega), ok_bind,
    cAssert_of (by simpa using hne), ok_bind, hlist, hfind, ok_bind,
    takeObject, hlist]

theorem Covers.afterSplit (hcovers : Covers addresses s live)
    {t : State} {old : ℕ} {object : Object} {found : Option Object}
    {list : List ℕ} (hold : old ∈ s.space.objectList)
    (hobject : s.objects old = some object) (hnew : s.objects new = none)
    (hpos : 1 ≤ n) (hn : n ≤ object.pages)
    (hlist : t.space.objectList = s.space.objectList.erase old)
    (hobjects : ∀ p, p ≠ new → t.objects p = s.objects p)
    (hleaves : SplitLeaves t old n object found list)
    (u physBase : ℕ) (mapflags : BitVec 8) :
    Covers addresses
      (Vmm.afterSplit t (Function.update (Function.update t.objects new
        (some (object.first n physBase mapflags))) old found) list u)
      (new :: live) := by
  have holdMem : old ∈ s.space.objectList ++ live :=
    List.mem_append_left _ hold
  have hpaged := hcovers.paged old holdMem object hobject
  have hne : new ≠ old := (hcovers.fresh_ne hnew old holdMem).symm
  have herase : (s.space.objectList ++ live).Perm
      (old :: (s.space.objectList.erase old ++ live)) :=
    (List.perm_cons_erase hold).append_right live
  have hnodup := herase.nodup_iff.mp hcovers.nodup
  have holdOut := (List.nodup_cons.mp hnodup).1
  set s' := Vmm.afterSplit t (Function.update (Function.update t.objects new
    (some (object.first n physBase mapflags))) old found) list u with hs'
  -- Only the split object and the new one have changed.
  have hsame : ∀ q ∈ s.space.objectList.erase old ++ live,
      s'.objects q = s.objects q := by
    intro q hq
    have hqold : q ≠ old := fun h => holdOut (h ▸ hq)
    have hqmem : q ∈ s.space.objectList ++ live :=
      herase.mem_iff.mpr (List.mem_cons_of_mem old hq)
    have hqnew := hcovers.fresh_ne hnew q hqmem
    simp [hs', Vmm.afterSplit, hqold, hqnew, hobjects q hqnew]
  have hnewRange : s'.objects new =
      some (object.first n physBase mapflags) := by
    simp [hs', Vmm.afterSplit, hne]
  have holdRange : s'.objects old = found := by
    simp [hs', Vmm.afterSplit]
  have hparts : IsPartition (object.range ::
      (s.space.objectList.erase old ++ live).map s'.rangeOf)
      addresses := by
    rw [map_rangeOf_congr hsame, ← rangeOf_eq hobject, ← List.map_cons]
    exact hcovers.parts.perm (herase.map _)
  have hrestPaged : ∀ q ∈ s.space.objectList.erase old ++ live, ∀ o,
      s'.objects q = some o → o.Paged := by
    intro q hq o ho
    rw [hsame q hq] at ho
    exact hcovers.paged q (herase.mem_iff.mpr (List.mem_cons_of_mem old hq)) o ho
  rcases hleaves with ⟨hall, rfl, hsame'⟩ | ⟨hlt, rfl, hperm⟩
  · -- The whole object is used up.
    have hlist' : s'.space.objectList = s.space.objectList.erase old := by
      rw [← hlist, ← hsame']
      rfl
    have hmove : (s'.space.objectList ++ new :: live).Perm
        (new :: (s.space.objectList.erase old ++ live)) := by
      rw [hlist']
      exact List.perm_middle
    refine ⟨?_, ?_⟩
    · refine IsPartition.perm ?_ (hmove.map s'.rangeOf).symm
      rw [List.map_cons, rangeOf_eq hnewRange, hpaged.first_range hall]
      exact hparts
    · intro p hp o ho
      rcases List.mem_cons.mp (hmove.mem_iff.mp hp) with rfl | hp
      · rw [hnewRange, Option.some.injEq] at ho
        exact ho ▸ hpaged.first hpos hn physBase mapflags
      · exact hrestPaged p hp o ho
  · have hmove : (s'.space.objectList ++ new :: live).Perm
        (old :: new :: (s.space.objectList.erase old ++ live)) := by
      have hlist' : s'.space.objectList.Perm
          (old :: s.space.objectList.erase old) := by
        rw [← hlist]
        exact hperm
      refine (hlist'.append_right (new :: live)).trans ?_
      exact (List.perm_middle).cons old
    refine ⟨?_, ?_⟩
    · refine IsPartition.perm ?_ (hmove.map s'.rangeOf).symm
      rw [List.map_cons, List.map_cons, rangeOf_eq hnewRange,
        rangeOf_eq holdRange]
      exact hparts.refine (hpaged.partition hpos hlt physBase mapflags)
    · intro p hp o ho
      rcases List.mem_cons.mp (hmove.mem_iff.mp hp) with rfl | hp
      · rw [holdRange, Option.some.injEq] at ho
        exact ho ▸ hpaged.rest hlt
      rcases List.mem_cons.mp hp with rfl | hp
      · rw [hnewRange, Option.some.injEq] at ho
        exact ho ▸ hpaged.first hpos hn physBase mapflags
      · exact hrestPaged p hp o ho

theorem vmmAllocObject_split (hcovers : Covers addresses s live)
    (hsize : 1 ≤ size)
    (hphys : physBase = physaddrNomap ∨ physBase % 4096 = 0)
    (hanswers : s.heapAnswers = some new :: some u :: answers)
    (hnew : s.objects new = none) (hn : sizeToBlocks size archPageSize = n)
    (hroom : HasRoom s n) (mapflags : BitVec 8) :
    ∃ old ∈ s.space.objectList, ∃ object found list,
      s.objects old = some object ∧ n ≤ object.pages ∧
      vmmAllocObject s physBase size mapflags =
        .ok (some new, afterSplit
          ((prepared s new u n physBase mapflags answers).withObjectList
            (s.space.objectList.erase old))
          (Function.update (Function.update
            (prepared s new u n physBase mapflags answers).objects new
            (some (object.first n physBase mapflags))) old found) list u) ∧
      SplitLeaves
        ((prepared s new u n physBase mapflags answers).withObjectList
          (s.space.objectList.erase old)) old n object found list := by
  have hpos : 1 ≤ n := hn ▸ sizeToBlocks_pos (by decide) hsize
  set t := prepared s new u n physBase mapflags answers with ht
  have hobjects : ∀ p, p ≠ new → t.objects p = s.objects p := by
    intro p hp
    simp [ht, prepared, hp]
  have hnotNew := hcovers.fresh_ne hnew
  obtain ⟨old, hold, object, hobject, hlarge, htake⟩ :=
    takeObjectWithMinSize_spec (t := t) hcovers hpos hroom rfl fun p hp =>
      hobjects p (hnotNew p (List.mem_append_left _ hp))
  have holdMem : old ∈ s.space.objectList ++ live :=
    List.mem_append_left _ hold
  have hpaged := hcovers.paged old holdMem object hobject
  have hlistNodup := (List.nodup_append.mp hcovers.nodup).1
  have hapart := hcovers.apart holdMem hobject
    (List.erase_subset (a := old) (l := s.space.objectList))
    hlistNodup.not_mem_erase
  set taken := t.withObjectList (s.space.objectList.erase old) with htaken
  have htakenOld : taken.objects old = some object :=
    (hobjects old (hnotNew old holdMem)).trans hobject
  have htakenNew : taken.objects new = some ⟨0, 0, physBase, mapflags⟩ := by
    simp [htaken, State.withObjectList, ht, prepared]
  have htakenApart : Apart taken object taken.space.objectList := by
    intro q hq
    obtain ⟨other, hother, hrest⟩ := hapart q hq
    have hqmem : q ∈ s.space.objectList ++ live :=
      List.mem_append_left _ (List.erase_subset hq)
    exact ⟨other, (hobjects q (hnotNew q hqmem)).trans hother, hrest⟩
  obtain ⟨found, list, hsplit, hleaves⟩ :=
    splitObject_spec (u := u) htakenOld htakenNew hpaged hpos hlarge
      htakenApart (hlistNodup.erase old)
      (fun h => hnotNew new
        (List.mem_append_left _ (List.erase_subset h)) rfl)
      hlistNodup.not_mem_erase
  refine ⟨old, hold, object, found, list, hobject, hlarge, ?_, hleaves⟩
  rw [vmmAllocObject_eq hphys hanswers, hn, ← ht, htake, ok_bind]
  exact hsplit

theorem vmmAllocObject_spec (hinv : Partitioned start endAddr s live)
    (hsize : 1 ≤ size)
    (hphys : physBase = physaddrNomap ∨ physBase % 4096 = 0)
    (hanswers : s.heapAnswers = some new :: some u :: answers)
    (hnew : s.objects new = none)
    (hroom : HasRoom s (sizeToBlocks size archPageSize)) :
    ∃ s', vmmAllocObject s physBase size mapflags = .ok (some new, s') ∧
      Allocated start endAddr live s s' new u
        (sizeToBlocks size archPageSize) physBase mapflags := by
  have hpos : 1 ≤ sizeToBlocks size archPageSize :=
    sizeToBlocks_pos (by decide) hsize
  obtain ⟨old, hold, object, found, list, hobject, hn, halloc, hleaves⟩ :=
    vmmAllocObject_split hinv.covers hsize hphys hanswers hnew rfl hroom
      mapflags
  have hnotNew := hinv.covers.fresh_ne hnew
  have hne : new ≠ old :=
    (hnotNew old (List.mem_append_left _ hold)).symm
  have hcovers := hinv.covers.afterSplit hold hobject hnew hpos hn rfl
    (fun p hp => by simp [prepared, State.withObjectList, hp]) hleaves u
    physBase mapflags
  refine ⟨_, halloc, ⟨⟨hcovers.parts, hcovers.paged, hinv.console⟩, ?_, ?_,
    rfl, rfl, rfl, rfl, rfl⟩⟩
  · exact ⟨object.start, by simp [afterSplit, hne, Object.first]⟩
  · intro p hp
    have hpold : p ≠ old := by
      rintro rfl
      exact (List.nodup_append.mp hinv.covers.nodup).2.2 p hold p hp rfl
    have hpnew := hnotNew p (List.mem_append_right _ hp)
    simp [afterSplit, hpold, prepared, hpnew]

end Invariant

/-! ## What the other operations leave alone -/

/-- The objects, the free list and the console are the same. -/
structure SameObjects (s s' : State) : Prop where
  objects : s'.objects = s.objects
  list : s'.space.objectList = s.space.objectList
  console : s'.console = s.console

section Frame

variable {s s' s'' : State}

theorem SameObjects.refl (s : State) : SameObjects s s :=
  ⟨rfl, rfl, rfl⟩

theorem SameObjects.trans (h : SameObjects s s') (h' : SameObjects s' s'') :
    SameObjects s s'' :=
  ⟨h'.objects.trans h.objects, h'.list.trans h.list,
    h'.console.trans h.console⟩

theorem SameObjects.partitioned {start endAddr : ℕ} {live : List ℕ}
    (h : SameObjects s s') (hinv : Partitioned start endAddr s live) :
    Partitioned start endAddr s' live :=
  hinv.congr h.objects h.list h.console

theorem dropRecord_sameObjects {record : Option ℕ}
    (h : dropRecord s record = .ok s') : SameObjects s s' := by
  cases record with
  | none =>
      simp only [dropRecord, Except.ok.injEq] at h
      exact h ▸ SameObjects.refl s
  | some u =>
      simp only [dropRecord, State.heapFreeUobject] at h
      split at h
      · simp only [Except.ok.injEq] at h
        exact h ▸ ⟨rfl, rfl, rfl⟩
      · contradiction

theorem freeFrame_sameObjects {object : Object} {physaddr : ℕ}
    (h : freeFrame s object physaddr = .ok s') : SameObjects s s' := by
  unfold freeFrame at h
  split at h
  · obtain ⟨frames, -, h⟩ := bind_eq_ok h
    simp only [Except.ok.injEq] at h
    exact h ▸ ⟨rfl, rfl, rfl⟩
  · simp only [Except.ok.injEq] at h
    exact h ▸ SameObjects.refl s

theorem freePage_sameObjects {object : Object} {ptr : ℕ}
    (h : freePage s object ptr = .ok s') : SameObjects s s' := by
  unfold freePage at h
  split at h
  · simp only [Except.ok.injEq] at h
    exact h ▸ SameObjects.refl s
  · obtain ⟨t, hfree, h⟩ := bind_eq_ok h
    obtain ⟨result, -, h⟩ := bind_eq_ok h
    have hsame := freeFrame_sameObjects hfree
    rcases result with ⟨_ | _, tables⟩
    · contradiction
    · simp only [Except.ok.injEq] at h
      exact h ▸ ⟨hsame.objects, hsame.list, hsame.console⟩

theorem freePages_sameObjects {object : Object} {fuel ptr : ℕ}
    (h : freePages object fuel ptr s = .ok s') : SameObjects s s' := by
  induction fuel generalizing ptr s with
  | zero => contradiction
  | succ fuel ih =>
      unfold freePages at h
      split at h
      · obtain ⟨t, hpage, h⟩ := bind_eq_ok h
        exact (freePage_sameObjects hpage).trans (ih h)
      · simp only [Except.ok.injEq] at h
        exact h ▸ SameObjects.refl s

theorem mapCommited_sameObjects {object : Object} {pageBase physaddr : ℕ}
    {frames : Frames}
    (h : mapCommited s object pageBase physaddr frames = .ok s') :
    SameObjects s s' := by
  unfold mapCommited at h
  obtain ⟨result, -, h⟩ := bind_eq_ok h
  rcases result with ⟨_ | _, tables, frames⟩
  · contradiction
  · simp only [Except.ok.injEq] at h
    exact h ▸ ⟨rfl, rfl, rfl⟩

theorem commitPage_sameObjects {u pageBase : ℕ}
    (h : commitPage s u pageBase = .ok s') : SameObjects s s' := by
  unfold commitPage at h
  obtain ⟨uobject, -, h⟩ := bind_eq_ok h
  obtain ⟨object, -, h⟩ := bind_eq_ok h
  obtain ⟨isSet, -, h⟩ := bind_eq_ok h
  split at h
  · contradiction
  · obtain ⟨bitmap, -, h⟩ := bind_eq_ok h
    obtain ⟨⟨physaddr, frames⟩, -, h⟩ := bind_eq_ok h
    obtain ⟨t, hmap, h⟩ := bind_eq_ok h
    have hset : SameObjects s
        (s.setUobject u { uobject with bitmap := bitmap }) := ⟨rfl, rfl, rfl⟩
    refine (hset.trans (mapCommited_sameObjects hmap)).trans ?_
    unfold finishCommit at h
    split at h
    · exact dropRecord_sameObjects h
    · simp only [Except.ok.injEq] at h
      exact h ▸ SameObjects.refl t

theorem vmmPageFault_sameObjects {kernelVmStart ptr : ℕ}
    {wasPresent wasWrite wasUser : Bool}
    (h : vmmPageFault kernelVmStart s ptr wasPresent wasWrite wasUser =
      .ok s') : SameObjects s s' := by
  unfold vmmPageFault at h
  simp only at h
  split at h
  · simp only [Except.ok.injEq] at h
    exact h ▸ ⟨rfl, rfl, rfl⟩
  · split at h
    · contradiction
    · obtain ⟨record, -, h⟩ := bind_eq_ok h
      cases record with
      | none => contradiction
      | some u => exact commitPage_sameObjects h

end Frame

theorem Partitioned.free {start endAddr p : ℕ} {live : List ℕ} {s : State}
    (hinv : Partitioned start endAddr s live) (hp : p ∈ live) :
    ∃ s', addObjectToAddressSpace s p = .ok s' ∧
      Partitioned start endAddr s' (live.erase p) ∧
      s'.objects = s.objects ∧ s'.uobjects = s.uobjects ∧
      s'.space.uncommitedObjects = s.space.uncommitedObjects ∧
      s'.space.isUser = s.space.isUser ∧ s'.tables = s.tables ∧
      s'.frames = s.frames := by
  have hpmem : p ∈ s.space.objectList ++ live := List.mem_append_right _ hp
  obtain ⟨object, hobject, hpaged⟩ := hinv.covers.object hpmem
  have hnodup := List.nodup_append.mp hinv.covers.nodup
  have hnotMem : p ∉ s.space.objectList :=
    fun h => hnodup.2.2 p h p hp rfl
  obtain ⟨list, hadd, hperm⟩ := addObjectToAddressSpace_spec hobject hpaged
    (hinv.covers.apart hpmem hobject (List.Subset.refl _) hnotMem) hnodup.1
  have hmove : (list ++ live.erase p).Perm (s.space.objectList ++ live) := by
    refine (hperm.append_right (live.erase p)).trans ?_
    refine List.Perm.trans ?_ ((List.perm_cons_erase hp).symm.append_left _)
    exact List.perm_middle.symm
  refine ⟨s.withObjectList list, hadd, ?_, rfl, rfl, rfl, rfl, rfl, rfl⟩
  constructor
  · exact hinv.parts.perm (hmove.map s.rangeOf).symm
  · intro q hq o ho
    exact hinv.paged q (hmove.mem_iff.mp hq) o ho
  · exact hinv.console

end Vmm
end Yjkos
