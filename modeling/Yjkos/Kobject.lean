import Yjkos.Vfs

/-!
# Kernel objects

`kernel/kobject.c`.  Objects have numbers in the order of their creation.  A
number names an object and not the block it lies in, so it is never given
again, and a pointer to an object which has been freed names no object, also
when a later one lies in the same block; reading it is a fault.  A child is on
one list at a time, through the node it carries, so a child list is the list of
the numbers of its nodes, and passing a node reads its object.
-/

namespace Yjkos
namespace Kobject

open Vfs (Text kstrcmp)

structure Object where
  parent : Option ℕ
  /-- Whether `ops->deinit` is set. -/
  deinit : Bool
  childList : List ℕ
  type : ℕ
  id : Text
  refCount : ℕ
deriving DecidableEq

@[ext]
structure Objects where
  object : ℕ → Option Object
  /-- The number of the next object. -/
  created : ℕ
  /-- The objects for which `ops->deinit` has been called. -/
  deinited : List ℕ

def Objects.read (s : Objects) (obj : ℕ) : Except Fault Object :=
  match s.object obj with
  | none => .error .wildPointer
  | some o => .ok o

def Objects.write (s : Objects) (obj : ℕ) (o : Object) : Objects :=
  { s with object := Function.update s.object obj (some o) }

/-- `heap_free`. -/
def Objects.free (s : Objects) (obj : ℕ) : Objects :=
  { s with object := Function.update s.object obj none }

/-! ## Creation -/

/-- What the heap answers to `kobject_create`: the address of the object, and
whether there is room for the ID. -/
structure CreateMemory where
  address : Option ℕ
  id : Bool

/-- The ten digits of the address. -/
def numericId (address : ℕ) : Text :=
  [1000000000, 100000000, 10000000, 1000000, 100000, 10000, 1000, 100, 10,
    1].map (fun power => BitVec.ofNat 8 (0x30 + address / power % 10))

/-- IDs which start with a digit are for `numericId`. -/
def reservedId (id : Text) : Bool :=
  id.headD 0 = 0 || (0x30 ≤ (id.headD 0).toInt && (id.headD 0).toInt ≤ 0x39)

/-- Gives `*obj_out`.  The object is freed when there is no ID for it, but its
address is given all the same. -/
def kobjectCreate (type : ℕ) (id : Option Text) (deinit : Bool)
    (memory : CreateMemory) (s : Objects) : Option ℕ × Objects :=
  match memory.address with
  | none => (none, s)
  | some address =>
      let obj := s.created
      let s := { s with created := obj + 1 }
      if !memory.id || id.any reservedId then (some obj, s.free obj)
      else
        (some obj, s.write obj
          { parent := none
            deinit := deinit
            childList := []
            type := type
            id := id.getD (numericId address)
            refCount := 1 })

/-! ## References -/

def kobjectRef (obj : Option ℕ) (s : Objects) : Except Fault Objects :=
  match obj with
  | none => .ok s
  | some obj => do
      let o ← s.read obj
      .ok (s.write obj { o with refCount := wrap (o.refCount + 1) })

/-! ## Parents -/

/-- Passing the nodes of a child list. -/
def passNodes (s : Objects) : List ℕ → Except Fault Unit
  | [] => .ok ()
  | node :: rest => do
      let _ ← s.read node
      passNodes s rest

/-- The loop of `kobject_find_direct_child`.  It looks for the node of `obj`
itself. -/
def findChild (s : Objects) (obj : ℕ) (id : Text) :
    List ℕ → Except Fault (Option ℕ)
  | [] => .ok none
  | node :: rest => do
      let child ← s.read node
      if node = obj ∧ kstrcmp child.id id = 0 then .ok (some node)
      else findChild s obj id rest

def kobjectFindDirectChild (obj : Option ℕ) (id : Text) (s : Objects) :
    Except Fault (Option ℕ) :=
  match obj with
  | none => .ok none
  | some obj => do
      let o ← s.read obj
      findChild s obj id o.childList

/-- The loop which takes the node of `obj` off the list of its old parent. -/
def leaveParent (obj : ℕ) (parent : Option ℕ) (s : Objects) :
    Except Fault Objects :=
  match parent with
  | none => .ok s
  | some parent => do
      let p ← s.read parent
      passNodes s p.childList
      .ok (s.write parent
        { p with childList := p.childList.filter (fun node => node ≠ obj) })

/-- The loop over the parents: whether `obj` is among them. -/
def parentsInclude (s : Objects) (obj : ℕ) :
    ℕ → Option ℕ → Except Fault Bool
  | 0, _ => .error .outOfFuel
  | _ + 1, none => .ok false
  | fuel + 1, some current =>
      if current = obj then .ok true
      else do
        let o ← s.read current
        parentsInclude s obj fuel o.parent

/-- The end of `kobject_set_parent`. -/
def attach (obj parent : ℕ) (s : Objects) : Except Fault Objects := do
  let o ← s.read obj
  let s := s.write obj { o with parent := some parent }
  let s ← kobjectRef (some parent) s
  let p ← s.read parent
  .ok (s.write parent { p with childList := p.childList ++ [obj] })

def kobjectSetParent (obj parent : Option ℕ) (s : Objects) :
    Except Fault (Except Errno Unit × Objects) :=
  match obj with
  | none => .ok (.ok (), s)
  | some obj => do
      let o ← s.read obj
      if o.parent = parent then .ok (.ok (), s)
      else do
        let s ← leaveParent obj o.parent s
        match parent with
        | none => do
            let o ← s.read obj
            .ok (.ok (), s.write obj { o with parent := none })
        | some parent => do
            if (← kobjectFindDirectChild (some parent) o.id s).isSome then
              .ok (.error .eexist, s)
            else do
              let p ← s.read parent
              if ← parentsInclude s obj (s.created + 1) p.parent then
                .ok (.error .eexist, s)
              else do
                let s ← attach obj parent s
                .ok (.ok (), s)

/-! ## Destruction -/

/-- The loop over the children.  The next node is read from the child after
its reference has been dropped. -/
def unrefChildren (unref : Option ℕ → Objects → Except Fault Objects) :
    List ℕ → Objects → Except Fault Objects
  | [], s => .ok s
  | child :: rest, s => do
      let s ← unref (some child) s
      let _ ← s.read child
      unrefChildren unref rest s

/-- A level of the recursion takes the last reference of one more object. -/
def kobjectUnrefLoop : ℕ → Option ℕ → Objects → Except Fault Objects
  | _, none, s => .ok s
  | 0, some _, _ => .error .outOfFuel
  | fuel + 1, some obj, s => do
      let o ← s.read obj
      let refCount := wrapSub o.refCount 1
      let s := s.write obj { o with refCount := refCount }
      if refCount ≠ 0 then .ok s
      else do
        let s ← unrefChildren (kobjectUnrefLoop fuel) o.childList s
        let (_, s) ← kobjectSetParent (some obj) none s
        let s := if o.deinit then { s with deinited := obj :: s.deinited }
          else s
        .ok (s.free obj)

def kobjectUnref (obj : Option ℕ) (s : Objects) : Except Fault Objects :=
  kobjectUnrefLoop (s.created + 1) obj s

/-! ## Small facts -/

section Small

variable (s : Objects) {obj : ℕ}

@[simp]
theorem write_object (other : ℕ) (o : Object) :
    (s.write obj o).object other =
      if other = obj then some o else s.object other :=
  Function.update_apply _ _ _ _

theorem write_object_self (o : Object) :
    (s.write obj o).object obj = some o :=
  Function.update_self _ _ _

@[simp]
theorem free_object (other : ℕ) :
    (s.free obj).object other =
      if other = obj then none else s.object other :=
  Function.update_apply _ _ _ _

variable {s}

theorem read_eq {o : Object} (h : s.object obj = some o) :
    s.read obj = .ok o := by
  unfold Objects.read
  rw [h]

end Small

end Kobject
end Yjkos
