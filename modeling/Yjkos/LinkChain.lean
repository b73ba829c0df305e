import Mathlib.Tactic

/-!
# Doubly linked chains

Two partial functions lead from a node to its neighbours.  A chain is a
sequence of nodes whose links agree with the order of the sequence; the links
which leave it at its two ends are parameters, so that chains can be put
together.
-/

namespace LinkChain

variable {α : Type*} {next prev next' prev' : α → Option α}

/-- The links of the nodes follow the sequence. -/
def Linked (next prev : α → Option α) :
    Option α → List α → Option α → Prop
  | _, [], _ => True
  | before, node :: rest, after =>
      prev node = before ∧ next node = rest.head?.or after ∧
        Linked next prev (some node) rest after

/-- Going from the start along one kind of link gives the sequence and then
ends. -/
def Follows (link : α → Option α) : Option α → List α → Prop
  | start, [] => start = none
  | start, node :: rest => start = some node ∧ Follows link (link node) rest

theorem linked_nil (before after : Option α) :
    Linked next prev before [] after := trivial

theorem linked_cons {before after : Option α} {node : α} {rest : List α} :
    Linked next prev before (node :: rest) after ↔
      prev node = before ∧ next node = rest.head?.or after ∧
        Linked next prev (some node) rest after := Iff.rfl

theorem linked_singleton {before after : Option α} {node : α} :
    Linked next prev before [node] after ↔
      prev node = before ∧ next node = after := by
  simp [Linked]

/-- A chain in two parts: each part leads to the other. -/
theorem linked_append {before after : Option α} {left right : List α} :
    Linked next prev before (left ++ right) after ↔
      Linked next prev before left (right.head?.or after) ∧
        Linked next prev (left.getLast?.or before) right after := by
  induction left generalizing before with
  | nil => simp [Linked]
  | cons node rest ih =>
      have hhead : (rest ++ right).head?.or after =
          rest.head?.or (right.head?.or after) := by
        rw [List.head?_append, Option.or_assoc]
      have hlast : (node :: rest).getLast?.or before =
          rest.getLast?.or (some node) := by
        rw [List.getLast?_cons]
        cases rest.getLast? <;> rfl
      rw [List.cons_append, linked_cons, linked_cons, ih, hhead, hlast]
      simp only [and_assoc]

namespace Linked

variable {before after before' after' : Option α} {nodes : List α}

/-- Only the links of the chain's own nodes count. -/
theorem congr (h : Linked next prev before nodes after)
    (hnext : ∀ node ∈ nodes, next' node = next node)
    (hprev : ∀ node ∈ nodes, prev' node = prev node) :
    Linked next' prev' before nodes after := by
  induction nodes generalizing before with
  | nil => exact trivial
  | cons node rest ih =>
      obtain ⟨hp, hn, hrest⟩ := h
      rw [List.forall_mem_cons] at hnext hprev
      exact ⟨hprev.1.trans hp, hnext.1.trans hn, ih hrest hnext.2 hprev.2⟩

/-- The link behind the last node may be turned to another place. -/
theorem turnLast (h : Linked next prev before nodes after)
    (hnodup : nodes.Nodup)
    (hlast : ∀ node, nodes.getLast? = some node → next' node = after')
    (hnext : ∀ node ∈ nodes, nodes.getLast? ≠ some node →
      next' node = next node)
    (hprev : ∀ node ∈ nodes, prev' node = prev node) :
    Linked next' prev' before nodes after' := by
  rcases List.eq_nil_or_concat' nodes with rfl | ⟨init, last, rfl⟩
  · exact trivial
  · rw [linked_append] at h ⊢
    have hnotin : last ∉ init := by
      have hdisjoint := List.disjoint_of_nodup_append hnodup
      exact fun hmem => hdisjoint hmem (List.mem_singleton_self last)
    obtain ⟨hinit, hend⟩ := h
    rw [linked_singleton] at hend ⊢
    refine ⟨hinit.congr ?_ ?_, ?_, hlast last List.getLast?_concat⟩
    · intro node hnode
      refine hnext node (List.mem_append_left _ hnode) ?_
      rw [List.getLast?_concat]
      rintro ⟨⟩
      exact hnotin hnode
    · intro node hnode
      exact hprev node (List.mem_append_left _ hnode)
    · exact (hprev last (by simp)).trans hend.1

/-- The link before the first node may be turned to another place. -/
theorem turnFirst (h : Linked next prev before nodes after)
    (hnodup : nodes.Nodup)
    (hfirst : ∀ node, nodes.head? = some node → prev' node = before')
    (hprev : ∀ node ∈ nodes, nodes.head? ≠ some node →
      prev' node = prev node)
    (hnext : ∀ node ∈ nodes, next' node = next node) :
    Linked next' prev' before' nodes after := by
  cases nodes with
  | nil => exact trivial
  | cons first rest =>
      obtain ⟨hp, hn, hrest⟩ := h
      rw [List.forall_mem_cons] at hnext
      refine ⟨hfirst first rfl, hnext.1.trans hn, hrest.congr hnext.2 ?_⟩
      intro node hnode
      refine hprev node (List.mem_cons_of_mem _ hnode) ?_
      rintro ⟨⟩
      exact (List.nodup_cons.1 hnodup).1 hnode

/-- The forward links of a whole chain lead through it. -/
theorem follows (h : Linked next prev before nodes none) :
    Follows next nodes.head? nodes := by
  induction nodes generalizing before with
  | nil => rfl
  | cons node rest ih =>
      obtain ⟨-, hn, hrest⟩ := h
      refine ⟨rfl, ?_⟩
      rw [hn, Option.or_none]
      exact ih hrest

/-- The backward links lead through it from its end. -/
theorem follows_reverse (h : Linked next prev none nodes after) :
    Follows prev nodes.getLast? nodes.reverse := by
  induction nodes using List.reverseRecOn generalizing after with
  | nil => rfl
  | append_singleton init last ih =>
      rw [linked_append, linked_singleton] at h
      obtain ⟨hinit, hp, -⟩ := h
      rw [List.reverse_append, List.getLast?_concat]
      refine ⟨rfl, ?_⟩
      rw [hp, Option.or_none]
      exact ih hinit

end Linked

end LinkChain
