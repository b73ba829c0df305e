import Mathlib.Tactic
import Yjkos.LinkChain

/-!
# Linked lists of the kernel

`kernel/lib/list.c` keeps its nodes inside of the objects which are listed.
Nodes are named by their addresses, so a link is a null pointer or a node.
The links of a node stay as they are when it is taken out of the list.
-/

namespace Yjkos.LinkedList

open LinkChain

/-- The list head and the fields of all nodes. -/
structure State (α δ : Type*) where
  front : Option α
  back : Option α
  next : α → Option α
  prev : α → Option α
  data : α → δ

variable {α δ : Type*} [DecidableEq α]

namespace State

/-- `if (node) node->next = link`. -/
@[simp]
def setNextIf (self : State α δ) (node link : Option α) : State α δ :=
  { self with next := fun other =>
      if node = some other then link else self.next other }

/-- `if (node) node->prev = link`. -/
@[simp]
def setPrevIf (self : State α δ) (node link : Option α) : State α δ :=
  { self with prev := fun other =>
      if node = some other then link else self.prev other }

@[simp]
def setNext (self : State α δ) (node : α) (link : Option α) : State α δ :=
  self.setNextIf (some node) link

@[simp]
def setPrev (self : State α δ) (node : α) (link : Option α) : State α δ :=
  self.setPrevIf (some node) link

@[simp]
def setData (self : State α δ) (node : α) (data : δ) : State α δ :=
  { self with data := fun other =>
      if node = other then data else self.data other }

end State

def listInit (self : State α δ) : State α δ :=
  { self with front := none, back := none }

def listInsertFront (list : State α δ) (node : α) (data : δ) : State α δ :=
  let list := list.setPrevIf list.front (some node)
  let list := list.setPrev node none
  let list := list.setNext node list.front
  let list := list.setData node data
  let list := { list with front := some node }
  { list with back := if list.back = none then some node else list.back }

def listInsertBack (list : State α δ) (node : α) (data : δ) : State α δ :=
  let list := list.setNextIf list.back (some node)
  let list := list.setNext node none
  let list := list.setPrev node list.back
  let list := list.setData node data
  let list := { list with back := some node }
  { list with front := if list.front = none then some node else list.front }

def listInsertAfter (list : State α δ) (after node : α) (data : δ) :
    State α δ :=
  let list := list.setPrev node (some after)
  let list := list.setNext node (list.next after)
  let list := list.setData node data
  let list := list.setPrevIf (list.next node) (some node)
  let list := list.setNext after (some node)
  { list with
    back := if list.back = some after then some node else list.back }

def listInsertBefore (list : State α δ) (before node : α) (data : δ) :
    State α δ :=
  let list := list.setNext node (some before)
  let list := list.setPrev node (list.prev before)
  let list := list.setData node data
  let list := list.setNextIf (list.prev node) (some node)
  let list := list.setPrev before (some node)
  { list with
    front := if list.front = some before then some node else list.front }

def listRemoveFront (list : State α δ) : Option α × State α δ :=
  match list.front with
  | none => (none, list)
  | some removed =>
      let list := { list with front := list.next removed }
      match list.front with
      | some front => (some removed, list.setPrev front none)
      | none => (some removed, { list with back := none })

def listRemoveBack (list : State α δ) : Option α × State α δ :=
  match list.back with
  | none => (none, list)
  | some removed =>
      let list := { list with back := list.prev removed }
      match list.back with
      | some back => (some removed, list.setNext back none)
      | none => (some removed, { list with front := none })

def listRemoveNode (list : State α δ) (node : α) : State α δ :=
  let list := list.setNextIf (list.prev node) (list.next node)
  let list := list.setPrevIf (list.next node) (list.prev node)
  let list := { list with
    front := if some node = list.front then list.next node else list.front }
  let list := { list with
    back := if some node = list.back then list.prev node else list.back }
  if list.front = none ∨ list.back = none then
    { list with front := none, back := none }
  else
    list

inductive Call (α δ : Type*) where
  | insertFront (node : α) (data : δ)
  | insertBack (node : α) (data : δ)
  | insertAfter (after node : α) (data : δ)
  | insertBefore (before node : α) (data : δ)
  | removeFront
  | removeBack
  | removeNode (node : α)

def call (list : State α δ) : Call α δ → Option α × State α δ
  | .insertFront node data => (none, listInsertFront list node data)
  | .insertBack node data => (none, listInsertBack list node data)
  | .insertAfter after node data =>
      (none, listInsertAfter list after node data)
  | .insertBefore before node data =>
      (none, listInsertBefore list before node data)
  | .removeFront => listRemoveFront list
  | .removeBack => listRemoveBack list
  | .removeNode node => (none, listRemoveNode list node)

def run (list : State α δ) (calls : List (Call α δ)) : State α δ :=
  calls.foldl (fun list c => (call list c).2) list

section Sequences

def insertAfter (after node : α) : List α → List α
  | [] => []
  | first :: rest =>
      if first = after then first :: node :: rest
      else first :: insertAfter after node rest

def insertBefore (before node : α) : List α → List α
  | [] => []
  | first :: rest =>
      if first = before then node :: first :: rest
      else first :: insertBefore before node rest

namespace Call

/-- What a call does to the sequence of nodes. -/
def onSequence (nodes : List α) : Call α δ → List α
  | insertFront node _ => node :: nodes
  | insertBack node _ => nodes ++ [node]
  | insertAfter after node _ => LinkedList.insertAfter after node nodes
  | insertBefore before node _ => LinkedList.insertBefore before node nodes
  | removeFront => nodes.tail
  | removeBack => nodes.dropLast
  | removeNode node => nodes.erase node

def returned (nodes : List α) : Call α δ → Option α
  | removeFront => nodes.head?
  | removeBack => nodes.getLast?
  | _ => none

def inserted : Call α δ → Option (α × δ)
  | insertFront node data => some (node, data)
  | insertBack node data => some (node, data)
  | insertAfter _ node data => some (node, data)
  | insertBefore _ node data => some (node, data)
  | _ => none

/-- A node which is not in the list is inserted, at a node which is; a node
of the list is removed. -/
def Allowed (nodes : List α) : Call α δ → Prop
  | insertFront node _ => node ∉ nodes
  | insertBack node _ => node ∉ nodes
  | insertAfter after node _ => after ∈ nodes ∧ node ∉ nodes
  | insertBefore before node _ => before ∈ nodes ∧ node ∉ nodes
  | removeFront => True
  | removeBack => True
  | removeNode node => node ∈ nodes

end Call

def sequenceRun (nodes : List α) (calls : List (Call α δ)) : List α :=
  calls.foldl Call.onSequence nodes

def Admitted : List α → List (Call α δ) → Prop
  | _, [] => True
  | nodes, c :: rest => c.Allowed nodes ∧ Admitted (c.onSequence nodes) rest

variable {after before node : α} {left right : List α}

theorem insertAfter_split (h : after ∉ left) :
    insertAfter after node (left ++ after :: right) =
      left ++ [after] ++ node :: right := by
  induction left with
  | nil => simp [insertAfter]
  | cons first rest ih =>
      rw [List.mem_cons, not_or] at h
      simp [insertAfter, Ne.symm h.1, ih h.2]

theorem insertBefore_split (h : before ∉ left) :
    insertBefore before node (left ++ before :: right) =
      left ++ node :: before :: right := by
  induction left with
  | nil => simp [insertBefore]
  | cons first rest ih =>
      rw [List.mem_cons, not_or] at h
      simp [insertBefore, Ne.symm h.1, ih h.2]

end Sequences

section Chains

/-- The nodes of the list in their order, and how the links tell it. -/
structure Represents (list : State α δ) (nodes : List α) : Prop where
  nodup : nodes.Nodup
  front_eq : list.front = nodes.head?
  back_eq : list.back = nodes.getLast?
  linked : Linked list.next list.prev none nodes none

omit [DecidableEq α]

theorem listInit_represents (self : State α δ) :
    Represents (listInit self) [] where
  nodup := List.nodup_nil
  front_eq := rfl
  back_eq := rfl
  linked := linked_nil none none

/-- The links of a node are put between two parts of the list. -/
structure Inserts (old new : State α δ) (left right : List α) (node : α)
    (data : δ) : Prop where
  front_eq : new.front = left.head?.or (some node)
  back_eq : new.back = right.getLast?.or (some node)
  next_node : new.next node = right.head?
  prev_node : new.prev node = left.getLast?
  next_last : ∀ last, left.getLast? = some last → new.next last = some node
  prev_first : ∀ first, right.head? = some first →
    new.prev first = some node
  next_other : ∀ other, node ≠ other → left.getLast? ≠ some other →
    new.next other = old.next other
  prev_other : ∀ other, node ≠ other → right.head? ≠ some other →
    new.prev other = old.prev other
  data_node : new.data node = data
  data_other : ∀ other, node ≠ other → new.data other = old.data other

theorem Inserts.represents {old new : State α δ} {left right : List α}
    {node : α} {data : δ} (h : Inserts old new left right node data)
    (hold : Represents old (left ++ right))
    (hnode : node ∉ left ++ right) :
    Represents new (left ++ node :: right) := by
  have hleft := (List.nodup_append.1 hold.nodup).1
  have hright := (List.nodup_append.1 hold.nodup).2.1
  have hdisjoint := List.disjoint_of_nodup_append hold.nodup
  have hchain := linked_append.1 hold.linked
  rw [List.mem_append, not_or] at hnode
  have hinleft : ∀ other ∈ left, node ≠ other ∧ right.head? ≠ some other := by
    refine fun other hother =>
      ⟨(ne_of_mem_of_not_mem hother hnode.1).symm, ?_⟩
    exact fun hhead => hdisjoint hother (List.mem_of_mem_head? hhead)
  have hinright : ∀ other ∈ right,
      node ≠ other ∧ left.getLast? ≠ some other := by
    refine fun other hother =>
      ⟨(ne_of_mem_of_not_mem hother hnode.2).symm, ?_⟩
    exact fun hlast => hdisjoint (List.mem_of_getLast? hlast) hother
  refine ⟨?_, ?_, ?_, linked_append.2 ⟨?_, ?_, ?_, ?_⟩⟩
  · rw [List.nodup_middle, List.nodup_cons, List.mem_append, not_or]
    exact ⟨hnode, hold.nodup⟩
  · rw [h.front_eq, List.head?_append, List.head?_cons]
  · rw [h.back_eq, List.getLast?_append, List.getLast?_cons]
    cases right.getLast? <;> rfl
  · refine hchain.1.turnLast hleft h.next_last ?_ ?_
    · exact fun other hother =>
        h.next_other other (hinleft other hother).1
    · exact fun other hother =>
        h.prev_other other (hinleft other hother).1 (hinleft other hother).2
  · rw [h.prev_node, Option.or_none]
  · rw [h.next_node, Option.or_none]
  · refine hchain.2.turnFirst hright h.prev_first ?_ ?_
    · exact fun other hother =>
        h.prev_other other (hinright other hother).1
    · exact fun other hother =>
        h.next_other other (hinright other hother).1 (hinright other hother).2

theorem Inserts.links_other {old new : State α δ} {left right : List α}
    {node other : α} {data : δ} (h : Inserts old new left right node data)
    (hother : other ∉ left ++ node :: right) :
    new.next other = old.next other ∧ new.prev other = old.prev other := by
  rw [List.mem_append, List.mem_cons, not_or, not_or] at hother
  obtain ⟨hleft, hne, hright⟩ := hother
  refine ⟨h.next_other other (Ne.symm hne) ?_,
    h.prev_other other (Ne.symm hne) ?_⟩
  · exact fun hlast => hleft (List.mem_of_getLast? hlast)
  · exact fun hhead => hright (List.mem_of_mem_head? hhead)

/-- A node is taken from between two parts of the list. -/
structure Removes (old new : State α δ) (left right : List α) : Prop where
  front_eq : new.front = left.head?.or right.head?
  back_eq : new.back = right.getLast?.or left.getLast?
  next_last : ∀ last, left.getLast? = some last →
    new.next last = right.head?
  prev_first : ∀ first, right.head? = some first →
    new.prev first = left.getLast?
  next_other : ∀ other, left.getLast? ≠ some other →
    new.next other = old.next other
  prev_other : ∀ other, right.head? ≠ some other →
    new.prev other = old.prev other
  data_eq : new.data = old.data

theorem Removes.represents {old new : State α δ} {left right : List α}
    {node : α} (h : Removes old new left right)
    (hold : Represents old (left ++ node :: right)) :
    Represents new (left ++ right) := by
  obtain ⟨hnode, hnodup⟩ := List.nodup_cons.1 (List.nodup_middle.1 hold.nodup)
  have hleft := (List.nodup_append.1 hnodup).1
  have hright := (List.nodup_append.1 hnodup).2.1
  have hdisjoint := List.disjoint_of_nodup_append hnodup
  have hchain := linked_append.1 hold.linked
  refine ⟨hnodup, ?_, ?_, linked_append.2 ⟨?_, ?_⟩⟩
  · rw [h.front_eq, List.head?_append]
  · rw [h.back_eq, List.getLast?_append]
  · refine hchain.1.turnLast hleft ?_ ?_ ?_
    · intro last hlast
      rw [h.next_last last hlast, Option.or_none]
    · exact fun other _ => h.next_other other
    · refine fun other hother => h.prev_other other fun hhead => ?_
      exact hdisjoint hother (List.mem_of_mem_head? hhead)
  · refine hchain.2.2.2.turnFirst hright ?_ ?_ ?_
    · intro first hfirst
      rw [h.prev_first first hfirst, Option.or_none]
    · exact fun other _ => h.prev_other other
    · refine fun other hother => h.next_other other fun hlast => ?_
      exact hdisjoint (List.mem_of_getLast? hlast) hother

theorem Removes.links_other {old new : State α δ} {left right : List α}
    {other : α} (h : Removes old new left right)
    (hother : other ∉ left ++ right) :
    new.next other = old.next other ∧ new.prev other = old.prev other := by
  rw [List.mem_append, not_or] at hother
  refine ⟨h.next_other other ?_, h.prev_other other ?_⟩
  · exact fun hlast => hother.1 (List.mem_of_getLast? hlast)
  · exact fun hhead => hother.2 (List.mem_of_mem_head? hhead)

/-- What a call leaves behind, and the nodes it does not touch. -/
structure Carries (c : Call α δ) (old new : State α δ) (nodes : List α) :
    Prop where
  represents : Represents new nodes
  links_other : ∀ other ∉ nodes,
    new.next other = old.next other ∧ new.prev other = old.prev other
  data_inserted : ∀ node data, c.inserted = some (node, data) →
    new.data node = data
  data_other : ∀ other, (∀ data, c.inserted ≠ some (other, data)) →
    new.data other = old.data other

theorem Inserts.carries {c : Call α δ} {old new : State α δ}
    {left right : List α} {node : α} {data : δ}
    (h : Inserts old new left right node data)
    (hold : Represents old (left ++ right)) (hnode : node ∉ left ++ right)
    (hinserted : c.inserted = some (node, data)) :
    Carries c old new (left ++ node :: right) where
  represents := h.represents hold hnode
  links_other _ := h.links_other
  data_inserted other value hother := by
    rw [hinserted] at hother
    cases hother
    exact h.data_node
  data_other other hother := by
    refine h.data_other other ?_
    rintro rfl
    exact hother data hinserted

theorem Removes.carries {c : Call α δ} {old new : State α δ}
    {left right : List α} {node : α} (h : Removes old new left right)
    (hold : Represents old (left ++ node :: right))
    (hinserted : c.inserted = none) :
    Carries c old new (left ++ right) where
  represents := h.represents hold
  links_other _ := h.links_other
  data_inserted _ _ hother := by
    rw [hinserted] at hother
    cases hother
  data_other other _ := by rw [h.data_eq]

theorem Represents.carries_self {list : State α δ} {nodes : List α}
    {c : Call α δ} (h : Represents list nodes) (hinserted : c.inserted = none) :
    Carries c list list nodes where
  represents := h
  links_other _ _ := ⟨rfl, rfl⟩
  data_inserted _ _ hother := by
    rw [hinserted] at hother
    cases hother
  data_other _ _ := rfl

end Chains

section Operations

variable {list : State α δ} {nodes left right : List α} {node : α} {data : δ}

theorem listInsertFront_inserts (h : Represents list nodes)
    (hnode : node ∉ nodes) :
    Inserts list (listInsertFront list node data) [] nodes node data := by
  have hfirst : ∀ first, nodes.head? = some first → node ≠ first := by
    rintro first hhead rfl
    exact hnode (List.mem_of_mem_head? hhead)
  have hback : (if list.back = none then some node else list.back) =
      nodes.getLast?.or (some node) := by
    rw [h.back_eq]
    cases nodes.getLast? <;> rfl
  have hlist : listInsertFront list node data =
      ⟨some node, if list.back = none then some node else list.back,
        (list.setNext node list.front).next,
        ((list.setPrevIf list.front (some node)).setPrev node none).prev,
        (list.setData node data).data⟩ := rfl
  rw [hlist, hback, h.front_eq]
  constructor <;> simp +contextual [hfirst]

theorem listInsertBack_inserts (h : Represents list nodes)
    (hnode : node ∉ nodes) :
    Inserts list (listInsertBack list node data) nodes [] node data := by
  have hlast : ∀ last, nodes.getLast? = some last → node ≠ last := by
    rintro last hlast rfl
    exact hnode (List.mem_of_getLast? hlast)
  have hfront : (if list.front = none then some node else list.front) =
      nodes.head?.or (some node) := by
    rw [h.front_eq]
    cases nodes.head? <;> rfl
  have hlist : listInsertBack list node data =
      ⟨if list.front = none then some node else list.front, some node,
        ((list.setNextIf list.back (some node)).setNext node none).next,
        (list.setPrev node list.back).prev,
        (list.setData node data).data⟩ := rfl
  rw [hlist, hfront, h.back_eq]
  constructor <;> simp +contextual [hlast]

theorem listInsertAfter_inserts {after : α}
    (h : Represents list (left ++ after :: right))
    (hnode : node ∉ left ++ after :: right) :
    Inserts list (listInsertAfter list after node data)
      (left ++ [after]) right node data := by
  have hnotin := (List.nodup_cons.1 (List.nodup_middle.1 h.nodup)).1
  rw [List.mem_append, not_or] at hnotin
  have hafter : after ≠ node := by
    rintro rfl
    exact hnode (by simp)
  have hnext : list.next after = right.head? := by
    have hchain := (linked_append.1 h.linked).2
    rw [hchain.2.1, Option.or_none]
  have hfirst : right.head? ≠ some node := by
    intro hhead
    have hmem := List.mem_of_mem_head? hhead
    exact hnode (by simp [hmem])
  have hback : (if list.back = some after then some node else list.back) =
      right.getLast?.or (some node) := by
    rw [h.back_eq, List.getLast?_append, List.getLast?_cons]
    cases hlast : right.getLast? with
    | none => simp
    | some last =>
        have hne := ne_of_mem_of_not_mem (List.mem_of_getLast? hlast) hnotin.2
        simp [hne]
  have hlist : listInsertAfter list after node data =
      ⟨list.front, if list.back = some after then some node else list.back,
        ((list.setNext node (list.next after)).setNext after (some node)).next,
        ((list.setPrev node (some after)).setPrevIf
          ((list.setNext node (list.next after)).next node) (some node)).prev,
        (list.setData node data).data⟩ := rfl
  have hnode : (list.setNext node right.head?).next node = right.head? := by
    simp
  rw [hlist, hback, h.front_eq, hnext, hnode]
  constructor <;> simp +contextual [hafter, hfirst]

theorem listInsertBefore_inserts {before : α}
    (h : Represents list (left ++ before :: right))
    (hnode : node ∉ left ++ before :: right) :
    Inserts list (listInsertBefore list before node data)
      left (before :: right) node data := by
  have hnotin := (List.nodup_cons.1 (List.nodup_middle.1 h.nodup)).1
  rw [List.mem_append, not_or] at hnotin
  have hbefore : before ≠ node := by
    rintro rfl
    exact hnode (by simp)
  have hprev : list.prev before = left.getLast? := by
    have hchain := (linked_append.1 h.linked).2
    rw [hchain.1, Option.or_none]
  have hlast : left.getLast? ≠ some node := by
    intro hlast
    have hmem := List.mem_of_getLast? hlast
    exact hnode (by simp [hmem])
  have hfront : (if list.front = some before then some node else list.front) =
      left.head?.or (some node) := by
    rw [h.front_eq, List.head?_append]
    cases hhead : left.head? with
    | none => simp
    | some first =>
        have hne := ne_of_mem_of_not_mem (List.mem_of_mem_head? hhead) hnotin.1
        simp [hne]
  have hlist : listInsertBefore list before node data =
      ⟨if list.front = some before then some node else list.front, list.back,
        ((list.setNext node (some before)).setNextIf
          ((list.setPrev node (list.prev before)).prev node) (some node)).next,
        ((list.setPrev node (list.prev before)).setPrev before
          (some node)).prev,
        (list.setData node data).data⟩ := rfl
  have hnode : (list.setPrev node left.getLast?).prev node = left.getLast? := by
    simp
  rw [hlist, hfront, h.back_eq, hprev, hnode]
  constructor <;> simp +contextual [List.getLast?_cons, hbefore, hlast]

theorem listRemoveFront_removes (h : Represents list (node :: right)) :
    Removes list (listRemoveFront list).2 [] right := by
  have hfront : list.front = some node := h.front_eq
  have hback : list.back = right.getLast?.or (some node) := by
    rw [h.back_eq, List.getLast?_cons]
    cases right.getLast? <;> rfl
  have hnext : list.next node = right.head? := by
    rw [h.linked.2.1, Option.or_none]
  cases right with
  | nil =>
      have hlist : (listRemoveFront list).2 =
          { list with front := none, back := none } := by
        simp [listRemoveFront, hfront, hnext]
      rw [hlist]
      constructor <;> simp
  | cons first rest =>
      have hlist : (listRemoveFront list).2 =
          { list with front := some first }.setPrev first none := by
        simp [listRemoveFront, hfront, hnext]
      rw [hlist]
      constructor <;> simp +contextual [hback, List.getLast?_cons]

theorem listRemoveBack_removes (h : Represents list (left ++ [node])) :
    Removes list (listRemoveBack list).2 left [] := by
  have hback : list.back = some node := by
    rw [h.back_eq, List.getLast?_concat]
  have hfront : list.front = left.head?.or (some node) := by
    rw [h.front_eq, List.head?_append, List.head?_singleton]
  have hprev : list.prev node = left.getLast? := by
    have hchain := (linked_append.1 h.linked).2
    rw [hchain.1, Option.or_none]
  rcases List.eq_nil_or_concat' left with rfl | ⟨init, last, rfl⟩
  · have hlist : (listRemoveBack list).2 =
        { list with front := none, back := none } := by
      simp [listRemoveBack, hback, hprev]
    rw [hlist]
    constructor <;> simp
  · have hlist : (listRemoveBack list).2 =
        { list with back := some last }.setNext last none := by
      simp [listRemoveBack, hback, hprev]
    rw [hlist]
    constructor <;> simp +contextual [hfront]

theorem listRemoveNode_removes
    (h : Represents list (left ++ node :: right)) :
    Removes list (listRemoveNode list node) left right := by
  have hnotin := (List.nodup_cons.1 (List.nodup_middle.1 h.nodup)).1
  rw [List.mem_append, not_or] at hnotin
  have hchain := (linked_append.1 h.linked).2
  have hprev : list.prev node = left.getLast? := by
    rw [hchain.1, Option.or_none]
  have hnext : list.next node = right.head? := by
    rw [hchain.2.1, Option.or_none]
  have hlast : left.getLast? ≠ some node :=
    fun hlast => hnotin.1 (List.mem_of_getLast? hlast)
  have hfirst : right.head? ≠ some node :=
    fun hhead => hnotin.2 (List.mem_of_mem_head? hhead)
  have hfront : (if some node = list.front then right.head?
      else list.front) = left.head?.or right.head? := by
    rw [h.front_eq, List.head?_append]
    cases hhead : left.head? with
    | none => simp
    | some first =>
        have hne := ne_of_mem_of_not_mem (List.mem_of_mem_head? hhead) hnotin.1
        simp [hne.symm]
  have hback : (if some node = list.back then left.getLast?
      else list.back) = right.getLast?.or left.getLast? := by
    rw [h.back_eq, List.getLast?_append, List.getLast?_cons]
    cases hend : right.getLast? with
    | none => simp
    | some last =>
        have hne := ne_of_mem_of_not_mem (List.mem_of_getLast? hend) hnotin.2
        simp [hne.symm]
  -- front and back are both null or both not
  have hlist : listRemoveNode list node =
      { list.setNextIf left.getLast? right.head? with
        front := left.head?.or right.head?
        back := right.getLast?.or left.getLast?
        prev := (list.setPrevIf right.head? left.getLast?).prev } := by
    simp only [listRemoveNode, State.setNextIf, State.setPrevIf, hprev, hnext,
      hlast, hfirst, hfront, hback, if_false]
    split
    next hempty =>
      have hnil : left.head?.or right.head? = none ∧
          right.getLast?.or left.getLast? = none := by
        simpa [and_comm] using hempty
      rw [hnil.1, hnil.2]
    next => rfl
  rw [hlist]
  constructor <;> simp +contextual

theorem call_carries {c : Call α δ} (h : Represents list nodes)
    (hallowed : c.Allowed nodes) :
    Carries c list (call list c).2 (c.onSequence nodes) := by
  cases c with
  | insertFront node data =>
      exact (listInsertFront_inserts h hallowed).carries h hallowed rfl
  | insertBack node data =>
      rw [← List.append_nil nodes] at h hallowed
      have hinserts : Inserts list (listInsertBack list node data)
          (nodes ++ []) [] node data := listInsertBack_inserts h hallowed
      rw [List.append_nil] at hinserts
      exact hinserts.carries h hallowed rfl
  | insertAfter after node data =>
      obtain ⟨hafter, hnode⟩ := hallowed
      obtain ⟨left, right, rfl, hleft⟩ := List.eq_append_cons_of_mem hafter
      have hinserts : Inserts list (listInsertAfter list after node data)
          (left ++ [after]) right node data := listInsertAfter_inserts h hnode
      rw [List.append_cons] at h hnode
      rw [Call.onSequence, insertAfter_split hleft]
      exact hinserts.carries h hnode rfl
  | insertBefore before node data =>
      obtain ⟨hbefore, hnode⟩ := hallowed
      obtain ⟨left, right, rfl, hleft⟩ := List.eq_append_cons_of_mem hbefore
      have hinserts : Inserts list (listInsertBefore list before node data)
          left (before :: right) node data := listInsertBefore_inserts h hnode
      rw [Call.onSequence, insertBefore_split hleft]
      exact hinserts.carries h hnode rfl
  | removeFront =>
      cases nodes with
      | nil =>
          have hlist : call list .removeFront = (none, list) := by
            simp [call, listRemoveFront, h.front_eq]
          rw [hlist]
          exact h.carries_self rfl
      | cons first rest =>
          exact (listRemoveFront_removes h).carries h rfl
  | removeBack =>
      rcases List.eq_nil_or_concat' nodes with rfl | ⟨init, last, rfl⟩
      · have hlist : call list .removeBack = (none, list) := by
          simp [call, listRemoveBack, h.back_eq]
        rw [hlist]
        exact h.carries_self rfl
      · have hremoves := (listRemoveBack_removes h).carries
          (c := .removeBack) h rfl
        rw [List.append_nil] at hremoves
        rw [Call.onSequence, List.dropLast_concat]
        exact hremoves
  | removeNode node =>
      obtain ⟨left, right, rfl, hleft⟩ := List.eq_append_cons_of_mem hallowed
      rw [Call.onSequence, List.erase_append_right _ hleft,
        List.erase_cons_head]
      exact (listRemoveNode_removes h).carries h rfl

theorem call_returned {c : Call α δ} (h : Represents list nodes) :
    (call list c).1 = c.returned nodes := by
  cases c with
  | removeFront =>
      rw [Call.returned, ← h.front_eq]
      cases hfront : list.front with
      | none => simp [call, listRemoveFront, hfront]
      | some first =>
          simp only [call, listRemoveFront, hfront]
          split <;> rfl
  | removeBack =>
      rw [Call.returned, ← h.back_eq]
      cases hback : list.back with
      | none => simp [call, listRemoveBack, hback]
      | some last =>
          simp only [call, listRemoveBack, hback]
          split <;> rfl
  | _ => rfl

theorem run_represents (h : Represents list nodes) {calls : List (Call α δ)}
    (hcalls : Admitted nodes calls) :
    Represents (run list calls) (sequenceRun nodes calls) := by
  induction calls generalizing list nodes with
  | nil => exact h
  | cons c rest ih =>
      exact ih (call_carries h hcalls.1).represents hcalls.2

end Operations

/-- In every run from an empty list the links give the sequence in both
directions, and a further call does to it what it does to the sequence. -/
theorem list_refines_sequence (list : State α δ) {calls : List (Call α δ)}
    (hcalls : Admitted [] calls) :
    let after := run (listInit list) calls
    let nodes := sequenceRun [] calls
    Follows after.next after.front nodes ∧
      Follows after.prev after.back nodes.reverse ∧
      (after.front = none ↔ nodes = []) ∧
      (after.back = none ↔ nodes = []) ∧
      ∀ c : Call α δ, c.Allowed nodes →
        (call after c).1 = c.returned nodes ∧
          Carries c after (call after c).2 (c.onSequence nodes) := by
  have h := run_represents (listInit_represents list) hcalls
  refine ⟨?_, ?_, ?_, ?_, ?_⟩
  · rw [h.front_eq]
    exact h.linked.follows
  · rw [h.back_eq]
    exact h.linked.follows_reverse
  · rw [h.front_eq]
    exact List.head?_eq_none_iff
  · rw [h.back_eq]
    exact List.getLast?_eq_none_iff
  · exact fun c hallowed => ⟨call_returned h, call_carries h hallowed⟩

theorem insert_remove_refines :
    Admitted [] [Call.insertBack 1 (), .insertBefore 1 2 (), .removeNode 1] ∧
      Follows (run (listInit ⟨none, none, fun _ => some 7, fun _ => none,
        fun _ => ()⟩) [Call.insertBack 1 (), .insertBefore 1 2 (),
          .removeNode 1]).next (some 2) [2] := by
  have hcalls : Admitted [] [Call.insertBack 1 (), .insertBefore 1 2 (),
      .removeNode 1] := by
    simp [Admitted, Call.Allowed, Call.onSequence, insertBefore]
  refine ⟨hcalls, ?_⟩
  exact (list_refines_sequence _ hcalls).1

end Yjkos.LinkedList
