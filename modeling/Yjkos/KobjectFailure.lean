import Yjkos.KobjectForest
import Yjkos.VfsHeap

/-!
# Failing kernel object functions

What `kobject_set_parent` leaves when it refuses a move, and what
`kobject_create` gives when it has no object to give.  A creation is followed
with the two blocks which it gets from the heap.
-/

namespace Yjkos
namespace Kobject

open ParentLinks OwnedTrace
open VfsHeap (Heaped HeapAnswer heapAlloc heapFree)

variable {live : Finset ℕ} {s : Objects}

/-- The answers of the heap for the object and then for its ID. -/
structure CreateHeap (live : Finset ℕ) where
  object : HeapAnswer live
  id : HeapAnswer (insert object.pointer live)

def CreateHeap.memory (heap : CreateHeap live) : CreateMemory where
  address := if heap.object.pointer = 0 then none else some heap.object.pointer
  id := heap.id.pointer ≠ 0

/-- `kobject_create` with its blocks.  Gives the answer, `*obj_out` and the
objects; the answer is 0 on every path. -/
def kobjectCreateBlocks (type : ℕ) (id : Option Vfs.Text) (deinit : Bool)
    (heap : CreateHeap live) (s : Objects) :
    Heaped (Except Errno Unit × Option ℕ × Objects) := do
  let address ← heapAlloc heap.object
  if address = 0 then do
    heapFree address
    pure (.ok (), none, s)
  else do
    let obj := s.created
    let s := { s with created := obj + 1 }
    let idBlock ← heapAlloc heap.id
    if idBlock = 0 ∨ id.any reservedId then do
      heapFree idBlock
      heapFree address
      pure (.ok (), some obj, s.free obj)
    else
      pure (.ok (), some obj, s.write obj
        { parent := none
          deinit := deinit
          childList := []
          type := type
          id := id.getD (numericId address)
          refCount := 1 })

/-! ## Creations -/

/-- There is memory for the object and its ID, and the ID is neither empty nor
starts with a digit. -/
structure CreateHeap.Suffices (heap : CreateHeap live)
    (id : Option Vfs.Text) : Prop where
  room : heap.object.pointer ≠ 0
  idRoom : heap.id.pointer ≠ 0
  named : ¬id.any reservedId

section Creations

variable (type : ℕ) (id : Option Vfs.Text) (deinit : Bool)
    {heap : CreateHeap live}

/-- The values are those of the function without the heap. -/
theorem createBlocks_result :
    (kobjectCreateBlocks type id deinit heap s).result =
      .ok (.ok (), kobjectCreate type id deinit heap.memory s) := by
  unfold kobjectCreateBlocks kobjectCreate CreateHeap.memory heapAlloc heapFree
  by_cases hobject : heap.object.pointer = 0
  · simp [hobject]
  · by_cases hid : heap.id.pointer = 0
    · simp [hobject, hid]
    · by_cases hnamed : id.any reservedId
      · simp [hobject, hid, hnamed]
      · simp [hobject, hid, hnamed]

/-- What a creation gives when it has no object: nothing, or the object which
it has just freed. -/
theorem create_fails (h : ¬heap.Suffices id) :
    ∃ obj s', kobjectCreate type id deinit heap.memory s = (obj, s') ∧
      (∀ n, obj = some n → s'.object n = none) ∧
      (obj = none ↔ heap.object.pointer = 0) := by
  unfold kobjectCreate CreateHeap.memory
  by_cases hobject : heap.object.pointer = 0
  · rw [if_pos hobject]
    refine ⟨none, s, rfl, ?_, iff_of_true rfl hobject⟩
    exact fun n hn => nomatch hn
  · have hrefused : (!decide (heap.id.pointer ≠ 0) || id.any reservedId) =
        true := by
      by_contra hnamed
      apply h
      simp only [Bool.or_eq_true, Bool.not_eq_true', decide_eq_false_iff_not,
        not_or, not_not] at hnamed
      exact ⟨hobject, hnamed.1, hnamed.2⟩
    rw [if_neg hobject]
    dsimp only
    rw [if_pos hrefused]
    refine ⟨_, _, rfl, ?_, iff_of_false (Option.some_ne_none _) hobject⟩
    rintro n ⟨⟩
    rw [free_object, if_pos rfl]

/-- A creation which has no object to give frees the blocks it has got. -/
theorem createBlocks_keeps (h : ¬heap.Suffices id) :
    Keeps live (fun _ => ∅) (kobjectCreateBlocks type id deinit heap s) := by
  unfold kobjectCreateBlocks heapAlloc heapFree
  by_cases hobject : heap.object.pointer = 0
  · rw [if_pos hobject, Traced.bind_of_ok (Traced.result_pure 0), if_pos rfl,
      if_pos rfl]
    exact keeps_nil rfl
  have hfresh := heap.object.fresh hobject
  rw [if_neg hobject, Traced.bind_of_ok (Traced.result_touch _ _),
    if_neg hobject, if_neg hobject]
  by_cases hid : heap.id.pointer = 0
  · rw [if_pos hid, Traced.bind_of_ok (Traced.result_pure 0),
      if_pos (.inl rfl), if_pos rfl]
    exact keeps_alloc_free hfresh rfl
  · have hreserved : id.any reservedId := by
      by_contra hnamed
      exact h ⟨hobject, hid, hnamed⟩
    rw [if_neg hid, Traced.bind_of_ok (Traced.result_touch _ _),
      if_pos (.inr hreserved), if_neg hid]
    exact keeps_nested hfresh (heap.id.fresh hid) rfl

/-- A failing creation leaves no block behind, and what it gives is either
nothing or the object which it has just freed. -/
theorem createBlocks_fails (h : ¬heap.Suffices id) :
    Keeps live (fun _ => ∅) (kobjectCreateBlocks type id deinit heap s) ∧
      ∃ obj s', (kobjectCreateBlocks type id deinit heap s).result =
          .ok (.ok (), obj, s') ∧
        (∀ n, obj = some n → s'.object n = none) ∧
        (obj = none ↔ heap.object.pointer = 0) := by
  obtain ⟨obj, s', hcreate, hgone, hnone⟩ :=
    create_fails type id deinit (s := s) h
  refine ⟨createBlocks_keeps type id deinit h, obj, s', ?_, hgone, hnone⟩
  rw [createBlocks_result, hcreate]

end Creations

/-! ## Both calls -/

/-- The error of a creation which has no object to give: no pointer to an
object which is gone, and no block left behind. -/
structure CleanFailure (live : Finset ℕ)
    (x : Heaped (Except Errno Unit × Option ℕ × Objects)) : Prop where
  negative : ∀ ret obj s', x.result = .ok (ret, obj, s') → ∃ e, ret = .error e
  pointer : ∀ ret obj s', x.result = .ok (ret, some obj, s') →
    ∃ o, s'.object obj = some o
  blocks : Keeps live (fun _ => ∅) x

inductive FailingCall (live : Finset ℕ) where
  | create (type : ℕ) (id : Option Vfs.Text) (deinit : Bool)
      (heap : CreateHeap live)
  | setParent (obj parent : Option ℕ)

/-- A refused move changes nothing, and a creation without an object fails
cleanly. -/
def FailsAtomically (s : Objects) : FailingCall live → Prop
  | .create type id deinit heap =>
      ¬heap.Suffices id →
        CleanFailure live (kobjectCreateBlocks type id deinit heap s)
  | .setParent obj parent =>
      ∀ e s', kobjectSetParent obj parent s = .ok (.error e, s') → s' = s

/-- There is an object to give; an object which is put below itself has no
parent yet. -/
def NothingUndone (s : Objects) : FailingCall live → Prop
  | .create _ id _ heap => heap.Suffices id
  | .setParent (some obj) (some parent) =>
      s.Above obj parent → s.parentOf obj = none
  | .setParent _ _ => True

theorem dropChild_eq_iff (h : Linked s) {obj : ℕ} {o : Object}
    (ho : s.object obj = some o) : s.dropChild obj = s ↔ o.parent = none := by
  constructor
  · intro hstay
    by_contra hne
    obtain ⟨old, hold⟩ := Option.ne_none_iff_exists'.1 hne
    have hparent : s.parentOf obj = some old := (parentOf_eq ho).trans hold
    obtain ⟨p, hp⟩ := h.live obj old hparent
    have hdropped := @dropChild_some _ obj _ _ hp
    rw [hstay, hp] at hdropped
    have hlist := congrArg Object.childList (Option.some.inj hdropped)
    have hmem := (h.listed.mem_iff hp obj).2 hparent
    rw [hlist] at hmem
    exact of_decide_eq_true (List.mem_filter.1 hmem).2 rfl
  · intro hnone
    have hleave := leaveParent_eq h ho
    rw [hnone] at hleave
    exact (Except.ok.inj hleave).symm

theorem exists_of_above {n p : ℕ} (habove : s.Above n p) :
    ∃ q, s.object p = some q := by
  cases hp : s.object p with
  | some q => exact ⟨q, rfl⟩
  | none =>
      unfold Objects.Above Objects.parentOf at habove
      rw [hp] at habove
      exact absurd habove (isAbove_none n)

/-- Only the walk up from the new parent refuses a move, behind the removal
from the old list. -/
theorem setParent_error (h : Sound s) {obj parent : Option ℕ} {e : Errno}
    {s' : Objects}
    (hcall : kobjectSetParent obj parent s = .ok (.error e, s')) :
    ∃ n o p, obj = some n ∧ parent = some p ∧ s.object n = some o ∧
      s.Above n p ∧ s' = s.dropChild n := by
  cases obj with
  | none => cases hcall
  | some n =>
      cases ho : s.object n with
      | none =>
          unfold kobjectSetParent Objects.read at hcall
          dsimp only at hcall
          rw [ho] at hcall
          cases hcall
      | some o =>
          by_cases hsame : o.parent = parent
          · unfold kobjectSetParent at hcall
            dsimp only at hcall
            rw [read_eq ho, ok_bind, if_pos hsame] at hcall
            cases hcall
          · cases parent with
            | none =>
                rw [setParent_detaches h ho hsame] at hcall
                cases hcall
            | some p =>
                cases hp : s.object p with
                | none =>
                    rw [setParent_wild h ho hp hsame] at hcall
                    cases hcall
                | some q =>
                    by_cases habove : s.Above n p
                    · rw [setParent_refused h ho hp hsame habove] at hcall
                      cases hcall
                      exact ⟨n, o, p, rfl, rfl, ho, habove, rfl⟩
                    · rw [setParent_moves h ho hp hsame habove] at hcall
                      cases hcall

theorem Sound.above_ne_parent (h : Sound s) {n p : ℕ} (habove : s.Above n p) :
    s.parentOf n ≠ some p := by
  intro hparent
  apply h.acyclic n
  unfold Objects.Above at habove ⊢
  rw [hparent, isAbove_some_iff]
  exact .inr habove

theorem setParent_atomic_iff (h : Sound s) {n p : ℕ} :
    (∀ e s', kobjectSetParent (some n) (some p) s = .ok (.error e, s') →
        s' = s) ↔
      (s.Above n p → s.parentOf n = none) := by
  constructor
  · intro hatomic habove
    cases ho : s.object n with
    | none =>
        unfold Objects.parentOf
        rw [ho]
        rfl
    | some o =>
        obtain ⟨q, hq⟩ := exists_of_above habove
        have hne := h.above_ne_parent habove
        rw [parentOf_eq ho] at hne ⊢
        have hstay := hatomic _ _ (setParent_refused h ho hq hne habove)
        exact (dropChild_eq_iff h.toLinked ho).1 hstay
  · intro hroot e s' hcall
    obtain ⟨_, o, _, ⟨⟩, ⟨⟩, ho, habove, rfl⟩ := setParent_error h hcall
    rw [dropChild_eq_iff h.toLinked ho, ← parentOf_eq ho]
    exact hroot habove

/-- A call fails atomically exactly when there is nothing which it would have
to undo. -/
theorem fails_atomically_iff (h : Sound s) (c : FailingCall live) :
    FailsAtomically s c ↔ NothingUndone s c := by
  cases c with
  | create type id deinit heap =>
      constructor
      · intro hclean
        by_contra hfails
        obtain ⟨-, obj, s', hresult, -⟩ :=
          createBlocks_fails type id deinit (s := s) hfails
        obtain ⟨e, he⟩ := (hclean hfails).negative _ _ _ hresult
        cases he
      · exact fun hsuffices hfails => absurd hsuffices hfails
  | setParent obj parent =>
      cases obj with
      | none => exact iff_of_true (fun e s' hcall => by cases hcall) trivial
      | some n =>
          cases parent with
          | none =>
              refine iff_of_true ?_ trivial
              intro e s' hcall
              obtain ⟨_, _, _, _, ⟨⟩, _⟩ := setParent_error h hcall
          | some p => exact setParent_atomic_iff h

/-- A parent, its child and the child of that. -/
def threeGenerations : List TreeCall :=
  [.create 0 (some [0x72]) false ⟨some 0x1000, true⟩,
    .create 0 (some [0x61]) false ⟨some 0x2000, true⟩,
    .create 0 (some [0x62]) false ⟨some 0x3000, true⟩,
    .setParent (some 1) (some 0), .setParent (some 2) (some 1)]

theorem threeGenerations_fits :
    TransitionRun.Admitted MoveFits treeStep noObjects threeGenerations := by
  refine ⟨trivial, ?_⟩
  rintro _ ⟨⟩
  refine ⟨trivial, ?_⟩
  rintro _ ⟨⟩
  refine ⟨trivial, ?_⟩
  rintro _ ⟨⟩
  refine ⟨?_, ?_⟩
  · refine ⟨_, rfl, ?_⟩
    rintro _ ⟨⟩ -
    refine ⟨⟨_, rfl⟩, fun _ => rfl, fun _ => by decide, fun _ => ?_⟩
    rintro (_ | _ | _ | m) c ⟨⟩ ⟨⟩
  rintro _ ⟨⟩
  refine ⟨?_, fun _ _ => trivial⟩
  refine ⟨_, rfl, ?_⟩
  rintro _ ⟨⟩ -
  refine ⟨⟨_, rfl⟩, fun _ => rfl, fun _ => by decide, fun _ => ?_⟩
  rintro (_ | _ | _ | m) c ⟨⟩ ⟨⟩

theorem exists_threeGenerations : ∃ s, Sound s ∧
    TransitionRun.run treeStep noObjects threeGenerations = .ok s := by
  refine ⟨_, ?_, rfl⟩
  have hreach := (TransitionRun.Reachable.start noObjects_sound).run
    threeGenerations_fits rfl
  exact hreach.invariant (fun _ h => h)
    (fun _ _ _ h hfits hstep => treeStep_sound h hfits hstep)

/-- The root is put below the others, and has nothing to leave. -/
theorem refused_root_stays : ∃ s, Sound s ∧
    TransitionRun.run treeStep noObjects threeGenerations = .ok s ∧
    FailsAtomically s (@FailingCall.setParent ∅ (some 0) (some 2)) := by
  obtain ⟨s, hsound, hrun⟩ := exists_threeGenerations
  refine ⟨s, hsound, hrun, (fails_atomically_iff hsound _).2 ?_⟩
  cases hrun
  exact fun _ => rfl

/-- Room for an object and its ID. -/
def twoBlocks : CreateHeap ∅ where
  object := ⟨0x4000, [], fun _ => by decide⟩
  id := ⟨0x5000, [], fun _ => by decide⟩

/-- The child is put below its own child, and an object is to have an empty
ID. -/
theorem refused_child_is_lost : ∃ s, Sound s ∧
    TransitionRun.run treeStep noObjects threeGenerations = .ok s ∧
    ¬FailsAtomically s (@FailingCall.setParent ∅ (some 1) (some 2)) ∧
    ¬FailsAtomically s (.create 0 (some []) false twoBlocks) := by
  obtain ⟨s, hsound, hrun⟩ := exists_threeGenerations
  refine ⟨s, hsound, hrun, ?_, ?_⟩
  · intro hatomic
    cases hrun
    have hstay := hatomic .eexist _ rfl
    have hlist := congrArg (fun s : Objects =>
      (s.object 0).map Object.childList) hstay
    revert hlist
    decide
  · intro hclean
    have hfails : ¬twoBlocks.Suffices (some []) := fun h => h.named (by decide)
    obtain ⟨e, he⟩ := (hclean hfails).negative _ _ _ rfl
    cases he

end Kobject
end Yjkos
