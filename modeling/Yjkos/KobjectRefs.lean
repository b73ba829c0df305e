import Yjkos.KobjectForest

/-!
# The references of kernel objects

Runs in which callers also take and drop references.  What the callers hold
is counted beside the objects: a creation gives one reference, also for the
address of an object which it has freed, and a reference which is dropped was
held.
-/

namespace Yjkos
namespace Kobject

open ParentLinks

/-- The objects, and the references to each which callers hold. -/
structure Owned where
  objects : Objects
  held : ℕ → ℕ

inductive RefCall where
  | tree (c : TreeCall)
  | ref (obj : Option ℕ)
  | unref (obj : Option ℕ)

def Owned.take (w : Owned) (obj : Option ℕ) (s : Objects) : Owned :=
  match obj with
  | none => { w with objects := s }
  | some obj => ⟨s, Function.update w.held obj (w.held obj + 1)⟩

def Owned.drop (w : Owned) (obj : Option ℕ) (s : Objects) : Owned :=
  match obj with
  | none => { w with objects := s }
  | some obj => ⟨s, Function.update w.held obj (w.held obj - 1)⟩

def ownedStep (w : Owned) : RefCall → Except Fault Owned
  | .tree (.create type id deinit memory) =>
      let (obj, s) := kobjectCreate type id deinit memory w.objects
      .ok (w.take obj s)
  | .tree (.setParent obj parent) => do
      let (_, s) ← kobjectSetParent obj parent w.objects
      .ok { w with objects := s }
  | .ref obj => do
      let s ← kobjectRef obj w.objects
      .ok (w.take obj s)
  | .unref obj => do
      let s ← kobjectUnref obj w.objects
      .ok (w.drop obj s)

def noneOwned : Owned := ⟨noObjects, fun _ => 0⟩

/-- Only a reference which is held is dropped. -/
def Paired (w : Owned) : RefCall → Prop
  | .unref (some obj) => 0 < w.held obj
  | _ => True

/-- The count of an object is that of its references from outside and from its
children, and nothing points to an object which has been destroyed. -/
structure Counted (w : Owned) : Prop where
  refs : ∀ n o, w.objects.object n = some o →
    o.refCount = w.held n + o.childList.length
  children : ∀ parent p, w.objects.object parent = some p →
    ∀ n ∈ p.childList, ∃ o, w.objects.object n = some o
  parents : ∀ n o parent, w.objects.object n = some o →
    o.parent = some parent → ∃ p, w.objects.object parent = some p

/-- The call reads no object which has been destroyed, and leaves the counts
right. -/
def KeepsCounts (w : Owned) (c : RefCall) : Prop :=
  ownedStep w c ≠ .error .wildPointer ∧
    ∀ w', ownedStep w c = .ok w' → Counted w'

/-- The searches for the ID and for a cycle let the object through. -/
def Attaches (s : Objects) (obj : ℕ) (o : Object) (parent : ℕ) (p : Object) :
    Prop :=
  kobjectFindDirectChild (some parent) o.id s = .ok none ∧
    parentsInclude s obj (s.created + 1) p.parent = .ok false

/-- The objects are there and their counts have room; a parent is only given
to an object without one, and the last reference is only dropped when there
is no parent. -/
def RefsFit (w : Owned) : RefCall → Prop
  | .tree (.create _ _ _ _) => True
  | .tree (.setParent none _) => True
  | .tree (.setParent (some obj) parent) =>
      ∃ o, w.objects.object obj = some o ∧
        (o.parent = parent ∨ o.parent = none ∧
          ∃ parent' p, parent = some parent' ∧
            w.objects.object parent' = some p ∧
            (Attaches w.objects obj o parent' p → p.refCount < sizeMax))
  | .ref none => True
  | .ref (some obj) =>
      ∃ o, w.objects.object obj = some o ∧ o.refCount < sizeMax
  | .unref none => True
  | .unref (some obj) =>
      ∃ o, w.objects.object obj = some o ∧
        (o.refCount ≠ 1 ∨ o.parent = none)

/-! ## The invariant -/

structure Kept (w : Owned) : Prop where
  linked : Linked w.objects
  refs : ∀ n o, w.objects.object n = some o →
    o.refCount = w.held n + o.childList.length
  small : ∀ n o, w.objects.object n = some o → o.refCount ≤ sizeMax
  unheld : ∀ n, w.objects.created ≤ n → w.held n = 0

theorem Kept.counted {w : Owned} (h : Kept w) : Counted w where
  refs := h.refs
  children := fun _ _ hp _ hn => h.linked.listed.child_live hp hn
  parents := fun n _ parent ho hparent =>
    h.linked.live n parent ((parentOf_eq ho).trans hparent)

variable {w : Owned} {s : Objects} {obj parent : ℕ} {o p : Object}

theorem Linked.lt_created (h : Linked s) (ho : s.object obj = some o) :
    obj < s.created := by
  by_contra hge
  rw [h.bound obj (by omega)] at ho
  cases ho

theorem write_refCount_linked (h : Linked s) (ho : s.object obj = some o)
    (refCount : ℕ) :
    Linked (s.write obj { o with refCount := refCount }) := by
  have hparentOf :
      (s.write obj { o with refCount := refCount }).parentOf = s.parentOf := by
    funext n
    unfold Objects.parentOf
    rw [write_object]
    split
    next heq =>
      rw [heq, ho]
      rfl
    next => rfl
  have hlive : ∀ n, (∃ p, s.object n = some p) →
      ∃ p, (s.write obj { o with refCount := refCount }).object n = some p := by
    intro n hn
    rw [write_object]
    split
    · exact ⟨_, rfl⟩
    · exact hn
  constructor
  · intro parent p hp n
    rw [hparentOf]
    rw [write_object] at hp
    split at hp
    next heq =>
      cases hp
      rw [heq]
      exact h.listed obj o ho n
    next => exact h.listed parent p hp n
  · intro n parent hparent
    rw [hparentOf] at hparent
    exact hlive parent (h.live n parent hparent)
  · intro n hn
    have hlt := h.lt_created ho
    rw [write_object, if_neg (fun heq => by
      rw [heq] at hn
      exact absurd hlt (Nat.not_lt.2 hn))]
    exact h.bound n hn

theorem write_refCount_kept (h : Kept w) (ho : w.objects.object obj = some o)
    {refCount held : ℕ} (hrefs : refCount = held + o.childList.length)
    (hsmall : refCount ≤ sizeMax) :
    Kept ⟨w.objects.write obj { o with refCount := refCount },
      Function.update w.held obj held⟩ where
  linked := write_refCount_linked h.linked ho refCount
  refs := by
    intro n x hx
    rw [write_object] at hx
    dsimp only
    rw [Function.update_apply]
    split at hx
    next heq =>
      cases hx
      rw [if_pos heq]
      exact hrefs
    next hne =>
      rw [if_neg hne]
      exact h.refs n x hx
  small := by
    intro n x hx
    rw [write_object] at hx
    split at hx
    next =>
      cases hx
      exact hsmall
    next => exact h.small n x hx
  unheld := by
    intro n hn
    have hlt := h.linked.lt_created ho
    have hle : w.objects.created ≤ n := hn
    dsimp only
    rw [Function.update_of_ne (by omega)]
    exact h.unheld n hn

/-! ## One call -/

theorem create_kept (h : Kept w) (type : ℕ) (id : Option Vfs.Text)
    (deinit : Bool) (memory : CreateMemory) :
    Kept (w.take (kobjectCreate type id deinit memory w.objects).1
      (kobjectCreate type id deinit memory w.objects).2) := by
  have hheld : ∀ n, n < w.objects.created →
      Function.update w.held w.objects.created
        (w.held w.objects.created + 1) n = w.held n :=
    fun n hn => Function.update_of_ne (Nat.ne_of_lt hn) _ _
  have hunheld : ∀ n, w.objects.created + 1 ≤ n →
      Function.update w.held w.objects.created
        (w.held w.objects.created + 1) n = 0 := by
    intro n hn
    rw [Function.update_of_ne (by omega)]
    exact h.unheld n (Nat.le_of_succ_le hn)
  rcases kobjectCreate_cases type id deinit memory w.objects with heq | heq |
    ⟨o, ho, hcount, heq⟩
  · rw [heq]
    exact h
  · rw [heq, skipped_eq h.linked]
    refine ⟨⟨h.linked.listed, h.linked.live, fun n hn =>
      h.linked.bound n (Nat.le_of_succ_le hn)⟩, ?_, h.small, hunheld⟩
    intro n x hx
    rw [h.refs n x hx]
    exact congrArg (· + _) (hheld n (h.linked.lt_created hx)).symm
  · rw [heq]
    refine ⟨withNew_linked h.linked ho, ?_, ?_, hunheld⟩
    · intro n x hx
      have hx' : (w.objects.withNew o).object n = some x := hx
      rw [withNew_object] at hx'
      split at hx'
      next hn =>
        cases hx'
        show o.refCount = Function.update w.held w.objects.created _ n + _
        rw [hn, Function.update_self, h.unheld _ le_rfl, ho.childList]
        exact hcount
      next =>
        rw [h.refs n x hx']
        exact congrArg (· + _) (hheld n (h.linked.lt_created hx')).symm
    · intro n x hx
      have hx' : (w.objects.withNew o).object n = some x := hx
      rw [withNew_object] at hx'
      split at hx'
      next =>
        cases hx'
        rw [hcount]
        decide
      next => exact h.small n x hx'

theorem ref_kept (h : Kept w) (ho : w.objects.object obj = some o)
    (hroom : o.refCount < sizeMax) :
    ∃ s, kobjectRef (some obj) w.objects = .ok s ∧
      Kept (w.take (some obj) s) := by
  unfold sizeMax at hroom
  have hcount : wrap (o.refCount + 1) = o.refCount + 1 :=
    wrap_of_lt (by omega)
  have hrefs := h.refs obj o ho
  unfold kobjectRef
  dsimp only
  rw [read_eq ho, ok_bind, hcount]
  refine ⟨_, rfl, ?_⟩
  apply write_refCount_kept h ho
  · omega
  · unfold sizeMax
    omega

theorem free_linked (h : Linked s) (ho : s.object obj = some o)
    (hparent : o.parent = none) (hchildren : o.childList = []) :
    Linked (s.free obj) := by
  have hparentOf : (s.free obj).parentOf = s.parentOf := by
    funext n
    unfold Objects.parentOf
    rw [free_object]
    split
    next heq =>
      rw [heq, ho]
      exact hparent.symm
    next => rfl
  constructor
  · intro parent p hp n
    rw [hparentOf]
    rw [free_object] at hp
    split at hp
    next => cases hp
    next => exact h.listed parent p hp n
  · intro n parent hn
    rw [hparentOf] at hn
    obtain ⟨p, hp⟩ := h.live n parent hn
    have hne : parent ≠ obj := by
      rintro rfl
      have hmem := (h.listed.mem_iff ho n).2 hn
      rw [hchildren] at hmem
      exact List.not_mem_nil hmem
    rw [free_object, if_neg hne]
    exact ⟨p, hp⟩
  · intro n hn
    rw [free_object]
    split
    · rfl
    · exact h.bound n hn

theorem free_kept (h : Kept w) (ho : w.objects.object obj = some o)
    (hparent : o.parent = none) (hchildren : o.childList = [])
    (deinited : List ℕ) :
    Kept { w with
      objects := ({ w.objects with deinited := deinited } : Objects).free
        obj } := by
  have hold : ∀ n x,
      (({ w.objects with deinited := deinited } : Objects).free obj).object n =
        some x → w.objects.object n = some x := by
    intro n x hx
    rw [free_object] at hx
    split at hx
    next => cases hx
    next => exact hx
  have hlinked : Linked { w.objects with deinited := deinited } :=
    ⟨h.linked.listed, h.linked.live, h.linked.bound⟩
  exact
    { linked := free_linked hlinked ho hparent hchildren
      refs := fun n x hx => h.refs n x (hold n x hx)
      small := fun n x hx => h.small n x (hold n x hx)
      unheld := h.unheld }

theorem unref_kept (h : Kept w) (hheld : 0 < w.held obj)
    (ho : w.objects.object obj = some o)
    (hlast : o.refCount ≠ 1 ∨ o.parent = none) :
    ∃ s, kobjectUnref (some obj) w.objects = .ok s ∧
      Kept (w.drop (some obj) s) := by
  have hrefs := h.refs obj o ho
  have hsmall := h.small obj o ho
  unfold sizeMax at hsmall
  have hcount : wrapSub o.refCount 1 = o.refCount - 1 :=
    wrapSub_of_le (by omega) (by omega)
  have hwrite : Kept ⟨w.objects.write obj { o with
      refCount := o.refCount - 1 },
      Function.update w.held obj (w.held obj - 1)⟩ := by
    apply write_refCount_kept h ho
    · omega
    · unfold sizeMax
      omega
  unfold kobjectUnref kobjectUnrefLoop
  dsimp only
  rw [read_eq ho, ok_bind, hcount]
  by_cases hone : o.refCount = 1
  · have hparent := hlast.resolve_left (fun hne => hne hone)
    have hchildren : o.childList = [] := by
      rw [← List.length_eq_zero_iff]
      omega
    have hself : (w.objects.write obj { o with
        refCount := o.refCount - 1 }).object obj =
        some { o with refCount := o.refCount - 1 } := write_object_self _ _
    have hdetach : kobjectSetParent (some obj) none
        (w.objects.write obj { o with refCount := o.refCount - 1 }) =
        .ok (.ok (), w.objects.write obj { o with
          refCount := o.refCount - 1 }) := by
      unfold kobjectSetParent
      dsimp only
      rw [read_eq hself, ok_bind, if_pos hparent]
    have hloop : ∀ unref s, unrefChildren unref o.childList s = .ok s := by
      intro unref s
      rw [hchildren]
      rfl
    rw [if_neg (by omega), hloop, ok_bind, hdetach, ok_bind]
    refine ⟨_, rfl, ?_⟩
    dsimp only
    split
    · exact free_kept hwrite hself hparent hchildren _
    · exact free_kept hwrite hself hparent hchildren _
  · rw [if_pos (by omega)]
    exact ⟨_, rfl, hwrite⟩

/-! ## A new parent -/

theorem findChild_ok (id : Vfs.Text) {nodes : List ℕ}
    (h : ∀ n ∈ nodes, ∃ o, s.object n = some o) :
    ∃ found, findChild s obj id nodes = .ok found := by
  induction nodes with
  | nil => exact ⟨none, rfl⟩
  | cons node rest ih =>
      obtain ⟨c, hc⟩ := h node List.mem_cons_self
      unfold findChild
      rw [read_eq hc, ok_bind]
      split
      · exact ⟨some node, rfl⟩
      · exact ih (fun n hn => h n (List.mem_cons_of_mem node hn))

theorem parentsInclude_cases (h : Linked s) (obj fuel : ℕ) {start : Option ℕ}
    (hstart : ∀ n, start = some n → ∃ p, s.object n = some p) :
    parentsInclude s obj fuel start = .error .outOfFuel ∨
      ∃ found, parentsInclude s obj fuel start = .ok found := by
  induction fuel generalizing start with
  | zero => exact .inl rfl
  | succ fuel ih =>
      unfold parentsInclude
      cases start with
      | none => exact .inr ⟨false, rfl⟩
      | some current =>
          obtain ⟨c, hc⟩ := hstart current rfl
          dsimp only
          split
          · exact .inr ⟨true, rfl⟩
          · rw [read_eq hc, ok_bind]
            exact ih (fun n hn =>
              h.live current n ((parentOf_eq hc).trans hn))

theorem setParent_root (h : Linked s) (ho : s.object obj = some o)
    (hroot : o.parent = none) (hp : s.object parent = some p) :
    kobjectSetParent (some obj) (some parent) s = .error .outOfFuel ∨
    kobjectSetParent (some obj) (some parent) s = .ok (.error .eexist, s) ∨
    (Attaches s obj o parent p ∧
      kobjectSetParent (some obj) (some parent) s =
        .ok (.ok (), s.moved obj (some parent))) := by
  have hleave := leaveParent_eq h ho
  have hstay : s.dropChild obj = s := by
    rw [hroot] at hleave
    exact (Except.ok.inj hleave).symm
  rw [hstay] at hleave
  have hattach := attach_eq ho hp
  rw [hstay] at hattach
  have hne : o.parent ≠ some parent := by
    rw [hroot]
    exact (Option.some_ne_none parent).symm
  obtain ⟨found, hfound⟩ : ∃ found,
      kobjectFindDirectChild (some parent) o.id s = .ok found := by
    unfold kobjectFindDirectChild
    dsimp only
    rw [read_eq hp, ok_bind]
    exact findChild_ok o.id (fun n hn => h.listed.child_live hp hn)
  have hsearch := parentsInclude_cases h obj (s.created + 1)
    (fun n hn => h.live parent n ((parentOf_eq hp).trans hn))
  have hcall : kobjectSetParent (some obj) (some parent) s =
      (if found.isSome then .ok (.error .eexist, s)
      else parentsInclude s obj (s.created + 1) p.parent >>= fun found =>
        if found then .ok (.error .eexist, s)
        else .ok (.ok (), s.moved obj (some parent))) := by
    unfold kobjectSetParent
    dsimp only
    rw [read_eq ho, ok_bind, if_neg hne, hleave, ok_bind, hfound, ok_bind,
      read_eq hp, ok_bind, hattach, ok_bind]
  rw [hcall]
  cases found with
  | some child => exact .inr (.inl rfl)
  | none =>
      rcases hsearch with hfuel | ⟨below, hbelow⟩
      · rw [hfuel]
        exact .inl rfl
      · rw [hbelow]
        cases below with
        | true => exact .inr (.inl rfl)
        | false => exact .inr (.inr ⟨⟨hfound, hbelow⟩, rfl⟩)

theorem moved_kept (h : Kept w) (ho : w.objects.object obj = some o)
    (hroot : o.parent = none) (hp : w.objects.object parent = some p)
    (hroom : p.refCount < sizeMax) :
    Kept { w with objects := w.objects.moved obj (some parent) } := by
  unfold sizeMax at hroom
  have hentry : ∀ n x, (w.objects.moved obj (some parent)).object n = some x →
      ∃ y, w.objects.object n = some y ∧
        x.refCount = (if parent = n then y.refCount + 1 else y.refCount) ∧
        x.childList.length =
          (if parent = n then y.childList.length + 1
          else y.childList.length) := by
    intro n x hx
    rw [moved_object] at hx
    obtain ⟨y, hy, rfl⟩ := Option.map_eq_some_iff.1 hx
    have habsent : obj ∉ y.childList := by
      rw [h.linked.listed.mem_iff hy, parentOf_eq ho, hroot]
      exact (Option.some_ne_none n).symm
    refine ⟨y, hy, ?_, ?_⟩
    · dsimp only
      by_cases heq : parent = n
      · subst heq
        rw [hp] at hy
        cases hy
        rw [if_pos rfl, if_pos rfl]
        exact wrap_of_lt (by omega)
      · rw [if_neg heq, if_neg (fun hsome => heq (Option.some.inj hsome))]
    · dsimp only
      rw [filter_notMem habsent, List.length_append]
      by_cases heq : parent = n
      · rw [if_pos heq, if_pos (congrArg some heq)]
        rfl
      · rw [if_neg heq, if_neg (fun hsome => heq (Option.some.inj hsome))]
        rfl
  exact
    { linked := moved_linked h.linked ho (fun n hn => by
        cases hn
        exact ⟨p, hp⟩)
      refs := by
        intro n x hx
        obtain ⟨y, hy, hcount, hlength⟩ := hentry n x hx
        have hrefs := h.refs n y hy
        rw [hcount, hlength]
        dsimp only
        split <;> omega
      small := by
        intro n x hx
        obtain ⟨y, hy, hcount, -⟩ := hentry n x hx
        have hsmall := h.small n y hy
        rw [hcount]
        split
        next heq =>
          subst heq
          rw [hp] at hy
          cases hy
          unfold sizeMax
          omega
        next => exact hsmall
      unheld := h.unheld }

/-! ## Runs -/

theorem refsFit_step (h : Kept w) {c : RefCall} (hpaired : Paired w c)
    (hfit : RefsFit w c) :
    ownedStep w c = .error .outOfFuel ∨
      ∃ w', ownedStep w c = .ok w' ∧ Kept w' := by
  cases c with
  | tree c =>
      cases c with
      | create type id deinit memory =>
          exact .inr ⟨_, rfl, create_kept h type id deinit memory⟩
      | setParent obj parent =>
          unfold ownedStep
          cases obj with
          | none => exact .inr ⟨w, rfl, h⟩
          | some obj =>
              obtain ⟨o, ho, hsame | ⟨hroot, parent, p, rfl, hp, hroom⟩⟩ :=
                hfit
              · right
                unfold kobjectSetParent
                dsimp only
                rw [read_eq ho, ok_bind, if_pos hsame]
                exact ⟨w, rfl, h⟩
              · dsimp only
                rcases setParent_root h.linked ho hroot hp with hcall | hcall |
                  ⟨hattach, hcall⟩
                · rw [hcall]
                  exact .inl rfl
                · rw [hcall]
                  exact .inr ⟨w, rfl, h⟩
                · rw [hcall]
                  exact .inr ⟨_, rfl,
                    moved_kept h ho hroot hp (hroom hattach)⟩
  | ref obj =>
      unfold ownedStep
      cases obj with
      | none => exact .inr ⟨w, rfl, h⟩
      | some obj =>
          obtain ⟨o, ho, hroom⟩ := hfit
          obtain ⟨s, hcall, hkept⟩ := ref_kept h ho hroom
          dsimp only
          rw [hcall]
          exact .inr ⟨_, rfl, hkept⟩
  | unref obj =>
      unfold ownedStep
      cases obj with
      | none => exact .inr ⟨w, rfl, h⟩
      | some obj =>
          obtain ⟨o, ho, hlast⟩ := hfit
          obtain ⟨s, hcall, hkept⟩ := unref_kept h hpaired ho hlast
          dsimp only
          rw [hcall]
          exact .inr ⟨_, rfl, hkept⟩

theorem noneOwned_kept : Kept noneOwned where
  linked := ⟨(fun _ _ h => nomatch h), (fun _ _ h => nomatch h),
    fun _ _ => rfl⟩
  refs := fun _ _ h => nomatch h
  small := fun _ _ h => nomatch h
  unheld := fun _ _ => rfl

/-- In a run of paired calls which fit, every state has the right counts, and
no object is read which has been destroyed. -/
theorem refRun_counted {calls : List RefCall}
    (hfit : TransitionRun.Admitted (fun w c => Paired w c ∧ RefsFit w c)
      ownedStep noneOwned calls) :
    TransitionRun.Admitted KeepsCounts ownedStep noneOwned calls := by
  have hright : ∀ w c, Kept w → Paired w c ∧ RefsFit w c →
      KeepsCounts w c := by
    rintro w c h ⟨hpaired, hfits⟩
    rcases refsFit_step h hpaired hfits with hfuel | ⟨w', hcall, hkept⟩
    · unfold KeepsCounts
      rw [hfuel]
      exact ⟨(fun h => nomatch h), (fun _ h => nomatch h)⟩
    · unfold KeepsCounts
      rw [hcall]
      refine ⟨(fun h => nomatch h), ?_⟩
      rintro _ ⟨⟩
      exact hkept.counted
  have hstep : ∀ w c w', Kept w → Paired w c ∧ RefsFit w c →
      ownedStep w c = .ok w' → Kept w' := by
    rintro w c w' h ⟨hpaired, hfits⟩ hcall
    rcases refsFit_step h hpaired hfits with hfuel | ⟨next, hnext, hkept⟩
    · rw [hfuel] at hcall
      cases hcall
    · rw [hnext] at hcall
      cases hcall
      exact hkept
  exact hfit.imp hright hstep noneOwned_kept

/-- A parent and its child, the child with a reference which is dropped. -/
def familyCalls : List RefCall :=
  [.tree (.create 0 (some [0x72]) false ⟨some 0x1000, true⟩),
    .tree (.create 0 (some [0x61]) false ⟨some 0x2000, true⟩),
    .tree (.setParent (some 1) (some 0)), .ref (some 1), .unref (some 1)]

theorem familyCalls_counted :
    TransitionRun.Admitted KeepsCounts ownedStep noneOwned familyCalls := by
  apply refRun_counted
  refine ⟨⟨trivial, trivial⟩, ?_⟩
  rintro _ ⟨⟩
  refine ⟨⟨trivial, trivial⟩, ?_⟩
  rintro _ ⟨⟩
  refine ⟨⟨trivial, _, rfl, .inr ⟨rfl, 0, _, rfl, rfl, fun _ => ?_⟩⟩, ?_⟩
  · decide
  rintro _ ⟨⟩
  refine ⟨⟨trivial, _, rfl, ?_⟩, ?_⟩
  · decide
  rintro _ ⟨⟩
  refine ⟨⟨Nat.two_pos, _, rfl, .inl ?_⟩, fun _ _ => trivial⟩
  decide

/-- A child which leaves its parent again. -/
def leavingChild : List RefCall :=
  [.tree (.create 0 (some [0x72]) false ⟨some 0x1000, true⟩),
    .tree (.create 0 (some [0x61]) false ⟨some 0x2000, true⟩),
    .tree (.setParent (some 1) (some 0)), .tree (.setParent (some 1) none)]

/-- The parent keeps the count of a child which has left. -/
theorem left_child_still_counted :
    ¬TransitionRun.Admitted KeepsCounts ownedStep noneOwned leavingChild := by
  rintro ⟨-, hrest⟩
  obtain ⟨-, hrest⟩ := hrest _ rfl
  obtain ⟨-, hrest⟩ := hrest _ rfl
  obtain ⟨⟨-, hkeeps⟩, -⟩ := hrest _ rfl
  have hcounted := hkeeps _ rfl
  have hrefs := hcounted.refs 0 _ rfl
  revert hrefs
  decide

end Kobject
end Yjkos
