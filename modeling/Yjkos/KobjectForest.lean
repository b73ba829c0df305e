import Yjkos.Kobject
import Yjkos.ParentLinks
import Yjkos.TransitionRun

/-!
# The forest of kernel objects

Runs of `kobject_create` and `kobject_set_parent`.  A move is described at
once for all objects, and what it does to the parent links is an update of
one link.
-/

namespace Yjkos
namespace Kobject

open ParentLinks

/-! ## The invariant -/

def Objects.parentOf (s : Objects) (n : ℕ) : Option ℕ :=
  (s.object n).bind Object.parent

/-- An object is a proper ancestor of another one. -/
def Objects.Above (s : Objects) (ancestor n : ℕ) : Prop :=
  IsAbove s.parentOf ancestor (s.parentOf n)

/-- An object is once on the list of its parent, and on no other list. -/
def Listed (s : Objects) : Prop :=
  ∀ parent p, s.object parent = some p → ∀ n,
    p.childList.count n = if s.parentOf n = some parent then 1 else 0

/-- No object is its own ancestor, the child lists agree with the parent
pointers, and the children of an object have different IDs. -/
structure Forest (s : Objects) : Prop where
  acyclic : ∀ n, ¬s.Above n n
  listed : Listed s
  ids : ∀ m n om on, s.object m = some om → s.object n = some on →
    om.parent = on.parent → om.parent ≠ none → om.id = on.id → m = n

/-- The links are between objects which are there. -/
structure Linked (s : Objects) : Prop where
  listed : Listed s
  live : ∀ n parent, s.parentOf n = some parent →
    ∃ p, s.object parent = some p
  bound : ∀ n, s.created ≤ n → s.object n = none

structure Sound (s : Objects) : Prop extends Forest s, Linked s

variable {s : Objects} {obj parent : ℕ} {o p : Object}

theorem parentOf_eq (h : s.object obj = some o) :
    s.parentOf obj = o.parent := by
  unfold Objects.parentOf
  rw [h]
  rfl

theorem Listed.mem_iff (h : Listed s) (hp : s.object parent = some p)
    (n : ℕ) : n ∈ p.childList ↔ s.parentOf n = some parent := by
  rw [← List.count_pos_iff, h parent p hp]
  split
  next heq => exact iff_of_true Nat.one_pos heq
  next hne => exact iff_of_false (lt_irrefl 0) hne

theorem exists_of_parentOf {n : ℕ} (h : s.parentOf n = some parent) :
    ∃ o, s.object n = some o ∧ o.parent = some parent :=
  Option.bind_eq_some_iff.1 h

theorem Listed.child_live (h : Listed s) (hp : s.object parent = some p)
    {n : ℕ} (hn : n ∈ p.childList) : ∃ o, s.object n = some o := by
  obtain ⟨o, ho, -⟩ := exists_of_parentOf ((h.mem_iff hp n).1 hn)
  exact ⟨o, ho⟩

/-! ## The loops -/

theorem passNodes_ok {nodes : List ℕ}
    (h : ∀ n ∈ nodes, ∃ o, s.object n = some o) :
    passNodes s nodes = .ok () := by
  induction nodes with
  | nil => rfl
  | cons node rest ih =>
      obtain ⟨o, ho⟩ := h node List.mem_cons_self
      unfold passNodes
      rw [read_eq ho, ok_bind,
        ih (fun n hn => h n (List.mem_cons_of_mem node hn))]

/-- The search for a child with the same ID only ever looks at the node of
the parent itself. -/
theorem findChild_none (id : Vfs.Text) {nodes : List ℕ}
    (h : ∀ n ∈ nodes, ∃ o, s.object n = some o) (hobj : obj ∉ nodes) :
    findChild s obj id nodes = .ok none := by
  induction nodes with
  | nil => rfl
  | cons node rest ih =>
      obtain ⟨o, ho⟩ := h node List.mem_cons_self
      have hne : node ≠ obj := fun heq => hobj (heq ▸ List.mem_cons_self)
      unfold findChild
      rw [read_eq ho, ok_bind, if_neg (fun hboth => hne hboth.1)]
      exact ih (fun n hn => h n (List.mem_cons_of_mem node hn))
        (fun hmem => hobj (List.mem_cons_of_mem node hmem))

theorem parentsInclude_eq (hlive : ∀ n parent, s.parentOf n = some parent →
      ∃ p, s.object parent = some p) (obj : ℕ) {fuel : ℕ} {start : Option ℕ}
    (hstart : ∀ n, start = some n → ∃ p, s.object n = some p)
    (hend : above s.parentOf fuel start = none) :
    ∃ found, parentsInclude s obj (fuel + 1) start = .ok found ∧
      (found = true ↔ IsAbove s.parentOf obj start) := by
  induction fuel generalizing start with
  | zero =>
      rw [above_zero] at hend
      subst hend
      exact ⟨false, rfl, iff_of_false Bool.false_ne_true (isAbove_none obj)⟩
  | succ fuel ih =>
      unfold parentsInclude
      cases start with
      | none =>
          exact ⟨false, rfl,
            iff_of_false Bool.false_ne_true (isAbove_none obj)⟩
      | some current =>
          dsimp only
          by_cases heq : current = obj
          · rw [if_pos heq]
            exact ⟨true, rfl,
              iff_of_true rfl (isAbove_some_iff.2 (.inl heq.symm))⟩
          · obtain ⟨c, hc⟩ := hstart current rfl
            have hparent := parentOf_eq hc
            rw [if_neg heq, read_eq hc, ok_bind, ← hparent]
            obtain ⟨found, hfound, hiff⟩ :=
              ih (fun n hn => hlive current n hn) hend
            refine ⟨found, hfound, hiff.trans ?_⟩
            rw [isAbove_some_iff]
            exact ⟨.inr, fun h => h.resolve_left (fun h => heq h.symm)⟩

theorem Sound.way_up_ends (h : Sound s) {start : Option ℕ}
    (hstart : ∀ n, start = some n → ∃ p, s.object n = some p) :
    above s.parentOf s.created start = none := by
  have hmem : ∀ n p, s.object n = some p → n ∈ Finset.range s.created := by
    intro n p hp
    rw [Finset.mem_range]
    by_contra hge
    rw [h.bound n (by omega)] at hp
    cases hp
  rw [← Finset.card_range s.created]
  refine Acyclic.above_card h.acyclic ?_ ?_
  · intro n parent hparent
    obtain ⟨p, hp⟩ := h.live n parent hparent
    exact hmem parent p hp
  · intro n hn
    obtain ⟨p, hp⟩ := hstart n hn
    exact hmem n p hp

/-! ## What a move does -/

/-- The object is taken off the child lists. -/
def Objects.dropChild (s : Objects) (obj : ℕ) : Objects :=
  { s with object := fun n => (s.object n).map (fun x =>
      { x with childList := x.childList.filter (fun node => node ≠ obj) }) }

/-- The object has gone to a new parent. -/
def Objects.moved (s : Objects) (obj : ℕ) (parent : Option ℕ) : Objects :=
  { s with object := fun n => (s.object n).map (fun x =>
      { x with
        parent := if n = obj then parent else x.parent
        childList := x.childList.filter (fun node => node ≠ obj) ++
          (if parent = some n then [obj] else [])
        refCount := if parent = some n then wrap (x.refCount + 1)
          else x.refCount }) }

theorem filter_notMem {nodes : List ℕ} (h : obj ∉ nodes) :
    nodes.filter (fun node => node ≠ obj) = nodes := by
  rw [List.filter_eq_self]
  intro node hnode
  exact decide_eq_true (fun heq => h (heq ▸ hnode))

theorem withChildList_filter {x : Object} (h : obj ∉ x.childList) :
    { x with childList := x.childList.filter (fun node => node ≠ obj) } =
      x := by
  rw [filter_notMem h]

theorem leaveParent_eq (h : Linked s) (ho : s.object obj = some o) :
    leaveParent obj o.parent s = .ok (s.dropChild obj) := by
  have hsame : ∀ n x, s.object n = some x → o.parent ≠ some n →
      obj ∉ x.childList := by
    intro n x hx hne hmem
    rw [h.listed.mem_iff hx, parentOf_eq ho] at hmem
    exact hne hmem
  unfold leaveParent
  cases hparent : o.parent with
  | none =>
      refine congrArg Except.ok (Objects.ext (funext fun n => ?_) rfl rfl)
      show s.object n = (s.object n).map _
      cases hn : s.object n with
      | none => rfl
      | some x =>
          rw [Option.map_some, withChildList_filter (hsame n x hn _)]
          rw [hparent]
          exact Option.some_ne_none n |>.symm
  | some parent =>
      obtain ⟨p, hp⟩ := h.live obj parent (by rw [parentOf_eq ho, hparent])
      dsimp only
      rw [read_eq hp, ok_bind,
        passNodes_ok (fun n hn => h.listed.child_live hp hn), ok_bind]
      refine congrArg Except.ok (Objects.ext (funext fun n => ?_) rfl rfl)
      show (s.write parent _).object n = (s.object n).map _
      rw [write_object]
      split
      next heq =>
        rw [heq, hp]
        rfl
      next hne =>
        cases hn : s.object n with
        | none => rfl
        | some x =>
            rw [Option.map_some, withChildList_filter (hsame n x hn _)]
            rw [hparent]
            exact fun heq => hne (Option.some.inj heq).symm

theorem dropChild_object (n : ℕ) :
    (s.dropChild obj).object n = (s.object n).map (fun x =>
      { x with childList := x.childList.filter (fun node => node ≠ obj) }) :=
  rfl

theorem moved_object (obj n : ℕ) (link : Option ℕ) :
    (s.moved obj link).object n = (s.object n).map (fun x =>
      { x with
        parent := if n = obj then link else x.parent
        childList := x.childList.filter (fun node => node ≠ obj) ++
          (if link = some n then [obj] else [])
        refCount := if link = some n then wrap (x.refCount + 1)
          else x.refCount }) :=
  rfl

theorem dropChild_parentOf (obj : ℕ) :
    (s.dropChild obj).parentOf = s.parentOf := by
  funext n
  unfold Objects.parentOf
  rw [dropChild_object]
  cases s.object n <;> rfl

theorem moved_parentOf (ho : s.object obj = some o) (link : Option ℕ) :
    (s.moved obj link).parentOf = Function.update s.parentOf obj link := by
  funext n
  rw [Function.update_apply]
  unfold Objects.parentOf
  rw [moved_object]
  split
  next heq =>
    subst heq
    rw [ho]
    rfl
  next hne =>
    cases s.object n with
    | none => rfl
    | some x => rfl

theorem attach_eq (ho : s.object obj = some o)
    (hp : s.object parent = some p) :
    attach obj parent (s.dropChild obj) =
      .ok (s.moved obj (some parent)) := by
  have ho' : (s.dropChild obj).object obj = some { o with
      childList := o.childList.filter (fun node => node ≠ obj) } := by
    rw [dropChild_object, ho]
    rfl
  have hp' : (s.dropChild obj).object parent = some { p with
      childList := p.childList.filter (fun node => node ≠ obj) } := by
    rw [dropChild_object, hp]
    rfl
  obtain ⟨x, hx, hxp⟩ : ∃ x, ((s.dropChild obj).write obj
      { o with
        parent := some parent
        childList := o.childList.filter (fun node => node ≠ obj) }).object
          parent = some x ∧
      x = { p with
        parent := if parent = obj then some parent else p.parent
        childList := p.childList.filter (fun node => node ≠ obj) } := by
    rw [write_object]
    by_cases heq : parent = obj
    · subst heq
      rw [ho] at hp
      cases hp
      exact ⟨_, if_pos rfl, by rw [if_pos rfl]⟩
    · exact ⟨_, (if_neg heq).trans hp', by rw [if_neg heq]⟩
  unfold attach kobjectRef
  rw [read_eq ho', ok_bind]
  dsimp only
  rw [read_eq hx, ok_bind, ok_bind, read_eq (write_object_self _ _), ok_bind]
  refine congrArg Except.ok (Objects.ext (funext fun n => ?_) rfl rfl)
  rw [write_object, write_object, write_object, moved_object, dropChild_object]
  by_cases heq : n = parent
  · subst heq
    rw [if_pos rfl, hp, hxp, Option.map_some]
    simp
  · rw [if_neg heq, if_neg heq]
    have hne : some parent ≠ some n := fun h => heq (Option.some.inj h).symm
    by_cases hobj : n = obj
    · subst hobj
      rw [if_pos rfl, ho, Option.map_some, if_neg hne, if_neg hne]
      simp
    · rw [if_neg hobj]
      simp [hobj, hne]

theorem dropChild_some {n : ℕ} (h : s.object n = some o) :
    (s.dropChild obj).object n = some { o with
      childList := o.childList.filter (fun node => node ≠ obj) } := by
  rw [dropChild_object, h]
  rfl

theorem dropChild_find (h : Sound s) (hp : s.object parent = some p)
    (id : Vfs.Text) :
    kobjectFindDirectChild (some parent) id (s.dropChild obj) =
      .ok none := by
  unfold kobjectFindDirectChild
  dsimp only
  rw [read_eq (dropChild_some hp), ok_bind]
  apply findChild_none
  · intro n hn
    obtain ⟨c, hc⟩ := h.listed.child_live hp (List.mem_filter.1 hn).1
    exact ⟨_, dropChild_some hc⟩
  · intro hself
    have hparent := (h.listed.mem_iff hp parent).1
      (List.mem_filter.1 hself).1
    exact Acyclic.ne_parent h.acyclic hparent rfl

theorem dropChild_parentsInclude (obj : ℕ) (h : Sound s)
    (hp : s.object parent = some p) :
    ∃ found,
      parentsInclude (s.dropChild obj) obj (s.created + 1) p.parent =
        .ok found ∧ (found = true ↔ s.Above obj parent) := by
  have hlive : ∀ n parent, s.parentOf n = some parent →
      ∃ q, (s.dropChild obj).object parent = some q := by
    intro n parent hparent
    obtain ⟨q, hq⟩ := h.live n parent hparent
    exact ⟨_, dropChild_some hq⟩
  unfold Objects.Above
  rw [parentOf_eq hp, ← dropChild_parentOf obj]
  apply parentsInclude_eq
  · rw [dropChild_parentOf]
    exact hlive
  · intro n hn
    exact hlive parent n ((parentOf_eq hp).trans hn)
  · rw [dropChild_parentOf]
    exact h.way_up_ends (fun n hn =>
      h.live parent n ((parentOf_eq hp).trans hn))

/-- Once the object has left its list, only the walk up from the new parent
can still refuse the move. -/
theorem setParent_walks {found : Bool} (h : Sound s)
    (ho : s.object obj = some o) (hp : s.object parent = some p)
    (hne : o.parent ≠ some parent)
    (hfound : parentsInclude (s.dropChild obj) obj (s.created + 1) p.parent =
      .ok found) :
    kobjectSetParent (some obj) (some parent) s =
      if found = true then .ok (.error .eexist, s.dropChild obj)
      else .ok (.ok (), s.moved obj (some parent)) := by
  unfold kobjectSetParent
  dsimp only
  rw [read_eq ho, ok_bind, if_neg hne, leaveParent_eq h.toLinked ho, ok_bind]
  rw [dropChild_find h hp, ok_bind]
  dsimp only [Option.isSome_none]
  rw [if_neg Bool.false_ne_true, read_eq (dropChild_some hp), ok_bind]
  dsimp only
  rw [show (s.dropChild obj).created = s.created from rfl, hfound, ok_bind,
    attach_eq ho hp, ok_bind]

/-- A move below the object itself is refused, but the object has left its
list. -/
theorem setParent_refused (h : Sound s) (ho : s.object obj = some o)
    (hp : s.object parent = some p) (hne : o.parent ≠ some parent)
    (habove : s.Above obj parent) :
    kobjectSetParent (some obj) (some parent) s =
      .ok (.error .eexist, s.dropChild obj) := by
  obtain ⟨found, hfound, hiff⟩ := dropChild_parentsInclude obj h hp
  rw [setParent_walks h ho hp hne hfound, if_pos (hiff.2 habove)]

theorem setParent_moves (h : Sound s) (ho : s.object obj = some o)
    (hp : s.object parent = some p) (hne : o.parent ≠ some parent)
    (habove : ¬s.Above obj parent) :
    kobjectSetParent (some obj) (some parent) s =
      .ok (.ok (), s.moved obj (some parent)) := by
  obtain ⟨found, hfound, hiff⟩ := dropChild_parentsInclude obj h hp
  rw [setParent_walks h ho hp hne hfound,
    if_neg (fun ht => habove (hiff.1 ht))]

theorem setParent_detaches (h : Sound s) (ho : s.object obj = some o)
    (hne : o.parent ≠ none) :
    kobjectSetParent (some obj) none s = .ok (.ok (), s.moved obj none) := by
  unfold kobjectSetParent
  dsimp only
  rw [read_eq ho, ok_bind, if_neg hne, leaveParent_eq h.toLinked ho, ok_bind]
  rw [read_eq (dropChild_some ho), ok_bind]
  refine congrArg (fun next => Except.ok (Except.ok (), next))
    (Objects.ext (funext fun n => ?_) rfl rfl)
  rw [write_object, moved_object, dropChild_object]
  split
  next heq =>
    rw [heq, ho]
    simp
  next => simp

theorem setParent_stays {link : Option ℕ} (ho : s.object obj = some o)
    (hsame : o.parent = link) :
    kobjectSetParent (some obj) link s = .ok (.ok (), s) := by
  unfold kobjectSetParent
  dsimp only
  rw [read_eq ho, ok_bind, if_pos hsame]

theorem setParent_wild (h : Sound s) (ho : s.object obj = some o)
    (hp : s.object parent = none) (hne : o.parent ≠ some parent) :
    kobjectSetParent (some obj) (some parent) s = .error .wildPointer := by
  have hread : (s.dropChild obj).read parent = .error .wildPointer := by
    unfold Objects.read
    rw [dropChild_object, hp]
    rfl
  unfold kobjectSetParent kobjectFindDirectChild
  dsimp only
  rw [read_eq ho, ok_bind, if_neg hne, leaveParent_eq h.toLinked ho, ok_bind,
    hread]
  rfl

/-! ## Moves which keep the forest -/

theorem moved_cases {n : ℕ} {x : Object} {link : Option ℕ}
    (h : (s.moved obj link).object n = some x) :
    ∃ y, s.object n = some y ∧ x.id = y.id ∧
      x.parent = (if n = obj then link else y.parent) ∧
      x.childList = y.childList.filter (fun node => node ≠ obj) ++
        (if link = some n then [obj] else []) := by
  rw [moved_object] at h
  obtain ⟨y, hy, rfl⟩ := Option.map_eq_some_iff.1 h
  exact ⟨y, hy, rfl, rfl, rfl⟩

theorem count_moved (link : Option ℕ) (l : List ℕ) (n : ℕ) :
    (l.filter (fun node => node ≠ obj) ++
      (if link = some parent then [obj] else [])).count n =
      if n = obj then (if link = some parent then 1 else 0) else l.count n := by
  rw [List.count_append]
  by_cases heq : n = obj
  · subst heq
    have hfilter : (l.filter (fun node => node ≠ n)).count n = 0 := by
      rw [List.count_eq_zero]
      intro hmem
      exact of_decide_eq_true (List.mem_filter.1 hmem).2 rfl
    rw [hfilter, if_pos rfl, Nat.zero_add]
    split <;> simp
  · have hfilter : (l.filter (fun node => node ≠ obj)).count n = l.count n :=
      List.count_filter (decide_eq_true heq)
    rw [hfilter, if_neg heq]
    split
    · rw [List.count_singleton, if_neg (by simpa using Ne.symm heq)]
      rfl
    · rfl

theorem moved_listed (h : Listed s) (ho : s.object obj = some o)
    (link : Option ℕ) : Listed (s.moved obj link) := by
  intro parent p hp n
  obtain ⟨q, hq, -, -, hlist⟩ := moved_cases hp
  rw [hlist, count_moved, moved_parentOf ho, Function.update_apply]
  split
  · rfl
  · exact h parent q hq n

theorem moved_linked (h : Linked s) (ho : s.object obj = some o)
    {link : Option ℕ}
    (hlive : ∀ parent, link = some parent → ∃ p, s.object parent = some p) :
    Linked (s.moved obj link) where
  listed := moved_listed h.listed ho link
  live := by
    intro n parent hparent
    rw [moved_parentOf ho, Function.update_apply] at hparent
    have hobject : ∃ p, s.object parent = some p := by
      split at hparent
      · exact hlive parent hparent
      · exact h.live n parent hparent
    obtain ⟨p, hp⟩ := hobject
    rw [moved_object, hp]
    exact ⟨_, rfl⟩
  bound := by
    intro n hn
    rw [moved_object, h.bound n hn]
    rfl

theorem moved_forest (h : Forest s) (ho : s.object obj = some o)
    {link : Option ℕ}
    (hlink : ∀ parent, link = some parent →
      ¬IsAbove s.parentOf obj (some parent) ∧
      ∀ m c, s.object m = some c → c.parent = some parent → c.id ≠ o.id) :
    Forest (s.moved obj link) where
  acyclic := by
    unfold Objects.Above
    rw [moved_parentOf ho]
    cases link with
    | none =>
        refine Acyclic.of_le h.acyclic (fun n => ?_)
        rw [Function.update_apply]
        split
        · exact .inr rfl
        · exact .inl rfl
    | some parent => exact Acyclic.update h.acyclic (hlink parent rfl).1
  listed := moved_listed h.listed ho link
  ids := by
    intro m n om on hm hn hparent hne hid
    obtain ⟨x, hx, hxid, hxparent, -⟩ := moved_cases hm
    obtain ⟨y, hy, hyid, hyparent, -⟩ := moved_cases hn
    rw [hxid, hyid] at hid
    rw [hxparent] at hne
    rw [hxparent, hyparent] at hparent
    have hapart : ∀ k z, s.object k = some z → link ≠ none →
        link = z.parent → o.id ≠ z.id := by
      intro k z hz hsome hlinked heq
      obtain ⟨parent, hparent⟩ := Option.ne_none_iff_exists'.1 hsome
      exact (hlink parent hparent).2 k z hz (hlinked ▸ hparent) heq.symm
    by_cases hmobj : m = obj
    · by_cases hnobj : n = obj
      · rw [hmobj, hnobj]
      · rw [if_pos hmobj, if_neg hnobj] at hparent
        rw [if_pos hmobj] at hne
        rw [hmobj, ho] at hx
        cases hx
        exact absurd hid (hapart n y hy hne hparent)
    · rw [if_neg hmobj] at hparent hne
      by_cases hnobj : n = obj
      · rw [if_pos hnobj] at hparent
        rw [hnobj, ho] at hy
        cases hy
        exact absurd hid.symm
          (hapart m x hx (hparent ▸ hne) hparent.symm)
      · rw [if_neg hnobj] at hparent
        exact h.ids m n x y hx hy hparent hne hid

theorem dropChild_forest_iff (h : Sound s) (ho : s.object obj = some o) :
    Forest (s.dropChild obj) ↔ o.parent = none := by
  constructor
  · intro hforest
    by_contra hne
    obtain ⟨old, hold⟩ := Option.ne_none_iff_exists'.1 hne
    have hparent : s.parentOf obj = some old := (parentOf_eq ho).trans hold
    obtain ⟨p, hp⟩ := h.live obj old hparent
    have hlisted := (hforest.listed.mem_iff (dropChild_some hp) obj).2
      (by rw [dropChild_parentOf]; exact hparent)
    exact of_decide_eq_true (List.mem_filter.1 hlisted).2 rfl
  · intro hnone
    have hstay : s = s.dropChild obj := by
      have hleave := leaveParent_eq h.toLinked ho
      rw [hnone] at hleave
      exact Except.ok.inj hleave
    rw [← hstay]
    exact h.toForest

/-! ## Runs -/

inductive TreeCall where
  | create (type : ℕ) (id : Option Vfs.Text) (deinit : Bool)
      (memory : CreateMemory)
  | setParent (obj parent : Option ℕ)

def treeStep (s : Objects) : TreeCall → Except Fault Objects
  | .create type id deinit memory =>
      .ok (kobjectCreate type id deinit memory s).2
  | .setParent obj parent => do
      let (_, s) ← kobjectSetParent obj parent s
      .ok s

theorem treeStep_setParent {obj parent : Option ℕ} {s' : Objects}
    {ret : Except Errno Unit}
    (h : kobjectSetParent obj parent s = .ok (ret, s')) :
    treeStep s (.setParent obj parent) = .ok s' := by
  unfold treeStep
  dsimp only
  rw [h, ok_bind]

def noObjects : Objects := ⟨fun _ => none, 0, []⟩

/-- The call returns, and what it leaves is a forest. -/
def KeepsForest (s : Objects) (c : TreeCall) : Prop :=
  ∃ s', treeStep s c = .ok s' ∧ Forest s'

/-- What the move of an object to a live parent needs.  It is from no parent
when the new one is below the object; otherwise it is not to the object itself
and not next to a child with the same ID. -/
structure FitsUnder (s : Objects) (obj : ℕ) (o : Object) (parent : ℕ) :
    Prop where
  live : ∃ p, s.object parent = some p
  below : s.Above obj parent → o.parent = none
  self : ¬s.Above obj parent → obj ≠ parent
  ids : ¬s.Above obj parent → ∀ m c, s.object m = some c →
    c.parent = some parent → c.id ≠ o.id

/-- A move is of a live object.  The pointer which a failed creation leaves
behind is the number of no object. -/
def MoveFits (s : Objects) : TreeCall → Prop
  | .setParent (some obj) link => ∃ o, s.object obj = some o ∧
      ∀ parent, link = some parent → o.parent ≠ some parent →
        FitsUnder s obj o parent
  | _ => True

/-- A new object has no parent and no children. -/
structure Fresh (o : Object) : Prop where
  parent : o.parent = none
  childList : o.childList = []

/-- The state behind the creation of an object. -/
def Objects.withNew (s : Objects) (o : Object) : Objects :=
  ({ s with created := s.created + 1 } : Objects).write s.created o

theorem kobjectCreate_cases (type : ℕ) (id : Option Vfs.Text) (deinit : Bool)
    (memory : CreateMemory) (s : Objects) :
    kobjectCreate type id deinit memory s = (none, s) ∨
    kobjectCreate type id deinit memory s =
      (some s.created,
        ({ s with created := s.created + 1 } : Objects).free s.created) ∨
    ∃ o, Fresh o ∧ o.refCount = 1 ∧
      kobjectCreate type id deinit memory s =
        (some s.created, s.withNew o) := by
  unfold kobjectCreate
  cases memory.address with
  | none => exact .inl rfl
  | some address =>
      dsimp only
      split
      · exact .inr (.inl rfl)
      · exact .inr (.inr ⟨_, ⟨rfl, rfl⟩, rfl, rfl⟩)

theorem Linked.next_number_unused (h : Linked s) (n : ℕ) :
    s.parentOf n ≠ some s.created := by
  intro hparent
  obtain ⟨p, hp⟩ := h.live n s.created hparent
  rw [h.bound s.created le_rfl] at hp
  cases hp

theorem withNew_object (n : ℕ) :
    (s.withNew o).object n = if n = s.created then some o else s.object n :=
  write_object _ n o

theorem withNew_parentOf (h : Linked s) (ho : Fresh o) :
    (s.withNew o).parentOf = s.parentOf := by
  funext n
  unfold Objects.parentOf
  rw [withNew_object]
  split
  next heq =>
    rw [heq, h.bound s.created le_rfl]
    exact ho.parent
  next => rfl

theorem withNew_linked (h : Linked s) (ho : Fresh o) :
    Linked (s.withNew o) where
  listed := by
    intro parent p hp n
    rw [withNew_parentOf h ho]
    rw [withNew_object] at hp
    split at hp
    next heq =>
      cases hp
      rw [ho.childList, heq, if_neg (h.next_number_unused n)]
      rfl
    next => exact h.listed parent p hp n
  live := by
    intro n parent hparent
    rw [withNew_parentOf h ho] at hparent
    obtain ⟨p, hp⟩ := h.live n parent hparent
    rw [withNew_object]
    split
    · exact ⟨_, rfl⟩
    · exact ⟨p, hp⟩
  bound := by
    intro n hn
    have hlt : s.created + 1 ≤ n := hn
    rw [withNew_object, if_neg (by omega)]
    exact h.bound n (by omega)

theorem withNew_sound (h : Sound s) (ho : Fresh o) : Sound (s.withNew o) where
  acyclic := by
    unfold Objects.Above
    rw [withNew_parentOf h.toLinked ho]
    exact h.acyclic
  ids := by
    intro m n om on hm hn hparent hne hid
    have hold : ∀ k x, (s.withNew o).object k = some x → x.parent ≠ none →
        s.object k = some x := by
      intro k x hx hx'
      rw [withNew_object] at hx
      split at hx
      next =>
        cases hx
        exact absurd ho.parent hx'
      next => exact hx
    exact h.ids m n om on (hold m om hm hne) (hold n on hn (hparent ▸ hne))
      hparent hne hid
  listed := (withNew_linked h.toLinked ho).listed
  live := (withNew_linked h.toLinked ho).live
  bound := (withNew_linked h.toLinked ho).bound

theorem skipped_eq (h : Linked s) :
    ({ s with created := s.created + 1 } : Objects).free s.created =
      { s with created := s.created + 1 } := by
  refine Objects.ext (funext fun n => ?_) rfl rfl
  rw [free_object]
  split
  next hn => rw [hn, h.bound s.created le_rfl]
  next => rfl

theorem create_sound (h : Sound s) (type : ℕ) (id : Option Vfs.Text)
    (deinit : Bool) (memory : CreateMemory) :
    Sound (kobjectCreate type id deinit memory s).2 := by
  rcases kobjectCreate_cases type id deinit memory s with heq | heq |
    ⟨o, ho, -, heq⟩
  · rw [heq]
    exact h
  · rw [heq, skipped_eq h.toLinked]
    exact
      { acyclic := h.acyclic
        listed := h.listed
        ids := h.ids
        live := h.live
        bound := fun n hn => h.bound n (Nat.le_of_succ_le hn) }
  · rw [heq]
    exact withNew_sound h ho

theorem setParent_ends (h : Sound s) {obj parent : Option ℕ} {s' : Objects}
    (hstep : treeStep s (.setParent obj parent) = .ok s') :
    s' = s ∨ ∃ obj' o, obj = some obj' ∧ s.object obj' = some o ∧
      o.parent ≠ parent ∧
      ((∃ parent' p, parent = some parent' ∧ s.object parent' = some p ∧
          s.Above obj' parent' ∧ s' = s.dropChild obj') ∨
        ((∀ parent', parent = some parent' →
            (∃ p, s.object parent' = some p) ∧ ¬s.Above obj' parent') ∧
          s' = s.moved obj' parent)) := by
  obtain ⟨⟨ret, next⟩, hcall, hnext⟩ := bind_eq_ok hstep
  cases hnext
  cases obj with
  | none =>
      cases hcall
      exact .inl rfl
  | some obj =>
      cases hobj : s.object obj with
      | none =>
          unfold kobjectSetParent Objects.read at hcall
          dsimp only at hcall
          rw [hobj] at hcall
          cases hcall
      | some o =>
          by_cases hsame : o.parent = parent
          · rw [setParent_stays hobj hsame] at hcall
            cases hcall
            exact .inl rfl
          · refine .inr ⟨obj, o, rfl, hobj, hsame, ?_⟩
            cases parent with
            | none =>
                rw [setParent_detaches h hobj hsame] at hcall
                cases hcall
                exact .inr ⟨(fun _ hnone => nomatch hnone), rfl⟩
            | some parent =>
                cases hparent : s.object parent with
                | none =>
                    rw [setParent_wild h hobj hparent hsame] at hcall
                    cases hcall
                | some p =>
                    by_cases habove : s.Above obj parent
                    · rw [setParent_refused h hobj hparent hsame habove]
                        at hcall
                      cases hcall
                      exact .inl ⟨parent, p, rfl, hparent, habove, rfl⟩
                    · rw [setParent_moves h hobj hparent hsame habove] at hcall
                      cases hcall
                      refine .inr ⟨?_, rfl⟩
                      rintro _ ⟨⟩
                      exact ⟨⟨p, hparent⟩, habove⟩

theorem treeStep_returns (h : Sound s) {c : TreeCall} (hfits : MoveFits s c) :
    ∃ s', treeStep s c = .ok s' := by
  cases c with
  | create type id deinit memory => exact ⟨_, rfl⟩
  | setParent obj link =>
      cases obj with
      | none => exact ⟨s, rfl⟩
      | some obj =>
          obtain ⟨o, ho, hmove⟩ := hfits
          by_cases hsame : o.parent = link
          · exact ⟨s, treeStep_setParent (setParent_stays ho hsame)⟩
          · cases link with
            | none =>
                exact ⟨_, treeStep_setParent (setParent_detaches h ho hsame)⟩
            | some parent =>
                obtain ⟨p, hp⟩ := (hmove parent rfl hsame).live
                by_cases habove : s.Above obj parent
                · exact ⟨_, treeStep_setParent
                    (setParent_refused h ho hp hsame habove)⟩
                · exact ⟨_, treeStep_setParent
                    (setParent_moves h ho hp hsame habove)⟩

theorem treeStep_sound (h : Sound s) {c : TreeCall} {s' : Objects}
    (hfits : MoveFits s c) (hstep : treeStep s c = .ok s') : Sound s' := by
  cases c with
  | create type id deinit memory =>
      cases hstep
      exact create_sound h type id deinit memory
  | setParent obj link =>
      rcases setParent_ends h hstep with rfl | ⟨obj, o, rfl, ho, hne,
        ⟨parent, p, rfl, hp, habove, rfl⟩ | ⟨hlive, rfl⟩⟩
      · exact h
      · obtain ⟨o', ho', hmove⟩ := hfits
        rw [ho] at ho'
        cases ho'
        have hnone := (hmove parent rfl hne).below habove
        have hleave := leaveParent_eq h.toLinked ho
        rw [hnone] at hleave
        rw [← Except.ok.inj hleave]
        exact h
      · have hlinked := moved_linked h.toLinked ho
          (fun parent hparent => (hlive parent hparent).1)
        suffices hforest : Forest (s.moved obj link) from
          { toForest := hforest, live := hlinked.live, bound := hlinked.bound }
        refine moved_forest h.toForest ho ?_
        rintro parent rfl
        obtain ⟨o', ho', hmove⟩ := hfits
        rw [ho] at ho'
        cases ho'
        have hunder := hmove parent rfl hne
        have habove := (hlive parent rfl).2
        refine ⟨?_, hunder.ids habove⟩
        rw [isAbove_some_iff]
        rintro (heq | hup)
        · exact hunder.self habove heq
        · exact habove hup

theorem moved_self (ho : s.object obj = some o) :
    ¬Forest (s.moved obj (some obj)) := by
  intro hforest
  have hself : (s.moved obj (some obj)).parentOf obj = some obj := by
    rw [moved_parentOf ho, Function.update_self]
  exact Acyclic.ne_parent hforest.acyclic hself rfl

theorem id_ne_of_moved (ho : s.object obj = some o)
    (hne : o.parent ≠ some parent)
    (hforest : Forest (s.moved obj (some parent))) {m : ℕ} {c : Object}
    (hc : s.object m = some c) (hparent : c.parent = some parent) :
    c.id ≠ o.id := by
  intro hid
  have hm : m ≠ obj := by
    rintro rfl
    rw [ho] at hc
    cases hc
    exact hne hparent
  have hm' := moved_object (s := s) obj m (some parent)
  have ho' := moved_object (s := s) obj obj (some parent)
  rw [hc, Option.map_some, if_neg hm] at hm'
  rw [ho, Option.map_some, if_pos rfl] at ho'
  exact hm (hforest.ids m obj _ _ hm' ho' hparent
    (by rw [hparent]; exact Option.some_ne_none parent) hid)

theorem fitsUnder_of_keepsForest (h : Sound s) (ho : s.object obj = some o)
    (hne : o.parent ≠ some parent)
    (hkeeps : KeepsForest s (.setParent (some obj) (some parent))) :
    FitsUnder s obj o parent := by
  obtain ⟨s', hstep, hforest⟩ := hkeeps
  have hlive : ∃ p, s.object parent = some p := by
    cases hp : s.object parent with
    | none =>
        unfold treeStep at hstep
        dsimp only at hstep
        rw [setParent_wild h ho hp hne] at hstep
        cases hstep
    | some p => exact ⟨p, rfl⟩
  obtain ⟨p, hp⟩ := hlive
  have hafter : ∀ ret next,
      kobjectSetParent (some obj) (some parent) s = .ok (ret, next) →
        Forest next := by
    intro ret next hcall
    rw [treeStep_setParent hcall] at hstep
    cases hstep
    exact hforest
  have hmoved : ¬s.Above obj parent → Forest (s.moved obj (some parent)) :=
    fun habove => hafter _ _ (setParent_moves h ho hp hne habove)
  exact
    { live := ⟨p, hp⟩
      below := fun habove => (dropChild_forest_iff h ho).1
        (hafter _ _ (setParent_refused h ho hp hne habove))
      self := by
        rintro habove rfl
        exact moved_self ho (hmoved habove)
      ids := fun habove m c hc hparent =>
        id_ne_of_moved ho hne (hmoved habove) hc hparent }

theorem moveFits_of_keepsForest (h : Sound s) {c : TreeCall}
    (hkeeps : KeepsForest s c) : MoveFits s c := by
  cases c with
  | create type id deinit memory => exact trivial
  | setParent obj link =>
      cases obj with
      | none => exact trivial
      | some obj =>
          cases ho : s.object obj with
          | none =>
              obtain ⟨s', hstep, -⟩ := hkeeps
              unfold treeStep kobjectSetParent Objects.read at hstep
              dsimp only at hstep
              rw [ho] at hstep
              cases hstep
          | some o =>
              refine ⟨o, ho, ?_⟩
              rintro parent rfl hne
              exact fitsUnder_of_keepsForest h ho hne hkeeps

theorem noObjects_sound : Sound noObjects := by
  have hnone : ∀ n o, noObjects.object n ≠ some o := fun _ _ h => nomatch h
  exact
    { acyclic := fun n hn => isAbove_none n hn
      listed := fun parent p hp => absurd hp (hnone parent p)
      ids := fun m _ om _ hm => absurd hm (hnone m om)
      live := fun _ _ hparent => nomatch hparent
      bound := fun _ _ => rfl }

/-- In a run every call returns and leaves a forest exactly when every move of
it fits. -/
theorem treeRun_forest_iff (calls : List TreeCall) :
    TransitionRun.Admitted KeepsForest treeStep noObjects calls ↔
      TransitionRun.Admitted MoveFits treeStep noObjects calls := by
  have hiff : ∀ s c, Sound s → (KeepsForest s c ↔ MoveFits s c) :=
    fun s c h => ⟨moveFits_of_keepsForest h, fun hfits =>
      (treeStep_returns h hfits).imp
        (fun s' hstep => ⟨hstep, (treeStep_sound h hfits hstep).toForest⟩)⟩
  have hstep : ∀ s c s', Sound s → MoveFits s c →
      treeStep s c = .ok s' → Sound s' :=
    fun _ _ _ h hfits hstep => treeStep_sound h hfits hstep
  exact TransitionRun.admitted_iff hiff hstep noObjects_sound calls

/-- An object which is put under itself. -/
def underItself : List TreeCall :=
  [.create 0 (some [0x61]) false ⟨some 0x1000, true⟩,
    .setParent (some 0) (some 0)]

/-- The search for a cycle starts above the new parent. -/
theorem object_under_itself :
    ¬TransitionRun.Admitted KeepsForest treeStep noObjects underItself := by
  rintro ⟨-, hrest⟩
  obtain ⟨⟨s', hstep, hforest⟩, -⟩ := hrest _ rfl
  cases hstep
  exact hforest.acyclic 0 ⟨0, rfl⟩

end Kobject
end Yjkos
