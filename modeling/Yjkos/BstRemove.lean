import Yjkos.BstUpdate

/-!
# Removal

`bst_remove_node` takes a node out of the tree in memory.  A node with two
children is replaced by the last node of its left subtree, from which the
source cuts off its left subtree.
-/

namespace Yjkos
namespace Bst

open AvlTree BinaryTree

/-- The tree without its last node and without what hangs below that node. -/
def cutLast : BinaryTree ℕ → BinaryTree ℕ
  | .nil => .nil
  | .node _ _ .nil => .nil
  | .node a l (.node b x y) => .node a l (cutLast (.node b x y))

/-- The last node of a tree. -/
def lastOf (t : BinaryTree ℕ) : ℕ := (inorder t).getLast?.getD 0

/-- What takes the place of a removed node with the subtrees `l` and `r`. -/
def joined : BinaryTree ℕ → BinaryTree ℕ → BinaryTree ℕ
  | .nil, r => r
  | .node a x y, .nil => .node a x y
  | .node a x y, .node b u v =>
      .node (lastOf (.node a x y)) (cutLast (.node a x y)) (.node b u v)

theorem joined_of_ne_nil {l r : BinaryTree ℕ} (hl : l ≠ .nil)
    (hr : r ≠ .nil) : joined l r = .node (lastOf l) (cutLast l) r := by
  cases l with
  | nil => exact absurd rfl hl
  | node a x y =>
      cases r with
      | nil => exact absurd rfl hr
      | node b u v => rfl

theorem exists_last {t : BinaryTree ℕ} (ht : t ≠ .nil) :
    ∃ ctx y below, t = plug ctx (.node y below .nil) ∧
      cutLast t = plug ctx .nil ∧ after ctx = [] ∧ lastOf t = y := by
  induction t with
  | nil => contradiction
  | node a l r _ ihr =>
      cases r with
      | nil =>
          refine ⟨[], a, l, rfl, rfl, rfl, ?_⟩
          simp [lastOf, inorder]
      | node b x z =>
          obtain ⟨ctx, y, below, hplug, hcut, hafter, hlast⟩ :=
            ihr (by simp)
          refine ⟨ctx ++ [⟨.right, a, l⟩], y, below, ?_, ?_, ?_, ?_⟩
          · rw [plug_append, ← hplug]
            rfl
          · rw [plug_append, ← hcut]
            rfl
          · rw [after_append, hafter]
            rfl
          · rw [← hlast, lastOf, lastOf, inorder,
              List.getLast?_append_of_ne_nil _ (by simp)]
            have hne : inorder (.node b x z) ≠ [] := by simp [inorder]
            rw [List.getLast?_cons, List.getLast?_eq_some_getLast hne]
            rfl

/-! ## The writes of a removal -/

/-- The state in which a removal leaves the tree before the values above the
removed node are recalculated. -/
structure Unhooked (b b' : Bst) (node : ℕ) (ctx : List (Frame ℕ))
    (t : BinaryTree ℕ) : Prop where
  root : b'.root = rootPtr (plug ctx t)
  linked : Linked b'.nodes (plug ctx t) none
  sorted : Sorted b'.nodes (plug ctx t)
  valid : ∀ c ∈ inorder (plug ctx t), c ∉ spine ctx →
    HeightOk b'.nodes c ∧ BfOk b'.nodes c
  parent : (b'.nodes node).parent = parentPtr ctx
  payload : SamePayload b.nodes b'.nodes

section Lift

variable {b : Bst} {ctx : List (Frame ℕ)} {node : ℕ}

theorem Valid.parent_eq {l r : BinaryTree ℕ}
    (hvalid : Valid b (plug ctx (.node node l r))) :
    (b.nodes node).parent = parentPtr ctx :=
  (linked_plug.mp hvalid.linked).1.1

theorem Valid.replaceInParent {l r : BinaryTree ℕ}
    (hvalid : Valid b (plug ctx (.node node l r))) (p : Ptr) :
    replaceInParent b node p =
      .ok ⟨relinkRoot b.root ctx p, relink b.nodes ctx p⟩ := by
  apply replaceInParent_eq hvalid.parent_eq (linked_plug.mp hvalid.linked).2
  exact (nodup_outside hvalid.sorted.nodup).2.2 node (by simp [inorder])

theorem Valid.root_or_parent {l r : BinaryTree ℕ}
    (hvalid : Valid b (plug ctx (.node node l r))) (text : String) :
    cAssert ((b.nodes node).parent ≠ none ∨ b.root = some node) text =
      .ok () := by
  apply cAssert_of
  rw [decide_eq_true_iff, hvalid.parent_eq, hvalid.root]
  cases ctx with
  | nil => exact .inr rfl
  | cons f ctx => exact .inl (by simp [parentPtr])

theorem Sorted.shrink {m m' : Nodes} {t t' : BinaryTree ℕ}
    (hsorted : Sorted m (plug ctx t))
    (hsub : (inorder t').Sublist (inorder t))
    (hkey : ∀ a, (m' a).key = (m a).key) : Sorted m' (plug ctx t') := by
  have hwhole : (inorder (plug ctx t')).Sublist (inorder (plug ctx t)) := by
    rw [inorder_plug, inorder_plug]
    exact ((List.Sublist.refl _).append hsub).append (List.Sublist.refl _)
  unfold Sorted at hsorted ⊢
  simp only [hkey]
  exact hsorted.sublist hwhole

/-- The memory after a subtree has been moved to the place of its parent. -/
def liftedNodes (m : Nodes) (ctx : List (Frame ℕ)) (child : Ptr) : Nodes :=
  setParentOf (relink m ctx child) child (parentPtr ctx)

theorem unhooked_lift {s : Side} {t : BinaryTree ℕ}
    (hvalid : Valid b (plug ctx (branch s node t .nil))) :
    Unhooked b ⟨relinkRoot b.root ctx (rootPtr t),
      liftedNodes b.nodes ctx (rootPtr t)⟩ node ctx t := by
  have hnodup := hvalid.sorted.nodup
  obtain ⟨hsub, hctx⟩ := linked_plug.mp hvalid.linked
  obtain ⟨hparent, _, _, ht, _⟩ := linked_branch.mp hsub
  obtain ⟨hsub_nodup, hout, hdisj⟩ := nodup_outside hnodup
  have hperm := inorder_branch_perm s node t .nil
  rw [inorder, List.append_nil] at hperm
  have hcons := hperm.nodup_iff.mp hsub_nodup
  rw [List.nodup_cons] at hcons
  have hmem : ∀ a ∈ inorder t, a ∈ inorder (branch s node t .nil) := by
    intro a ha
    rw [hperm.mem_iff]
    exact List.mem_cons_of_mem _ ha
  have hspine : ∀ a ∈ inorder t, a ∉ spine ctx := fun a ha hs =>
    hdisj a (hmem a ha) (spine_subset_outside ctx a hs)
  have hvalues : SameValues b.nodes (liftedNodes b.nodes ctx (rootPtr t)) :=
    (relink_sameValues b.nodes ctx _).trans (setParentOf_sameValues _ _ _)
  have hchildren : ∀ a, a ∉ spine ctx →
      (liftedNodes b.nodes ctx (rootPtr t) a).children =
        (b.nodes a).children := by
    intro a ha
    rw [liftedNodes, setParentOf_children, relink_children ha]
  have hroot : ∀ a, a ∉ inorder t → rootPtr t ≠ some a :=
    fun a ha heq => ha (mem_of_rootPtr heq)
  have hsublist : (inorder t).Sublist (inorder (branch s node t .nil)) := by
    cases s
    · exact List.sublist_append_left _ _
    · exact List.sublist_cons_self _ _
  refine ⟨?_, ?_, hvalid.sorted.shrink hsublist hvalues.key, ?_, ?_,
    hvalues.payload⟩
  · rw [hvalid.root]
    exact relinkRoot_plug ctx _ t
  · rw [linked_plug]
    constructor
    · refine ht.reparent ?_ ?_ hcons.2
      · intro a ha
        refine ⟨by simp [liftedNodes, ha], ?_⟩
        exact hchildren a (hspine a (mem_of_rootPtr ha))
      · intro a ha hne
        exact ⟨by simp [liftedNodes, hne], hchildren a (hspine a ha)⟩
    · apply (contextLinked_relink hctx hout (rootPtr t)).congr
      intro a ha
      have hne := hroot a fun h => hdisj a (hmem a h) ha
      simp [SameLinks, liftedNodes, hne]
  · intro c hc hcspine
    have hcold : c ∈ inorder (plug ctx (branch s node t .nil)) := by
      rw [inorder_plug] at hc ⊢
      simp only [List.mem_append] at hc ⊢
      rcases hc with (hc | hc) | hc
      · exact .inl (.inl hc)
      · exact .inl (.inr (hmem c hc))
      · exact .inr hc
    have htransfer := hvalues.valid (hchildren c hcspine)
    exact ⟨htransfer.1 (hvalid.heights c hcold),
      htransfer.2 (hvalid.bfs c hcold)⟩
  · simp [liftedNodes, hroot node hcons.1, hparent]

end Lift

/-! ## A node with two children -/

/-- The memory after `replacement` has taken the place and the subtrees of a
node. -/
def swappedNodes (m : Nodes) (ctx : List (Frame ℕ)) (replacement : ℕ)
    (left right : Ptr) : Nodes :=
  let m := (relink m ctx (some replacement)).setParent replacement
    (parentPtr ctx)
  let m := m.setChild replacement .left left
  let m := m.setChild replacement .right right
  let m := setParentOf m left (some replacement)
  setParentOf m right (some replacement)

section Swap

variable {m : Nodes} {ctx : List (Frame ℕ)} {node y : ℕ}

theorem swappedNodes_sameValues (left right : Ptr) :
    SameValues m (swappedNodes m ctx y left right) := by
  have hplace := (relink_sameValues m ctx (some y)).trans
    (setParent_sameValues _ y (parentPtr ctx))
  have hleft := hplace.trans (setChild_sameValues _ y .left left)
  have hright := hleft.trans (setChild_sameValues _ y .right right)
  have hbelow := hright.trans (setParentOf_sameValues _ left (some y))
  exact hbelow.trans (setParentOf_sameValues _ right (some y))

theorem swappedNodes_parent (left right : Ptr) (a : ℕ) :
    (swappedNodes m ctx y left right a).parent =
      if right = some a then some y
      else if left = some a then some y
      else if a = y then parentPtr ctx
      else (m a).parent := by
  simp [swappedNodes]

theorem swappedNodes_children (left right : Ptr) (a : ℕ) (d : Dir) :
    (swappedNodes m ctx y left right a).children d =
      if a = y ∧ d = .right then right
      else if a = y ∧ d = .left then left
      else (relink m ctx (some y) a).children d := by
  simp [swappedNodes]

theorem takeLinks_eq {l r : Ptr} (hparent : (m node).parent = parentPtr ctx)
    (hleft : (m node).children .left = l)
    (hright : (m node).children .right = r) (hne : node ≠ y)
    (hspine : node ∉ spine ctx) :
    takeLinks (relink m ctx (some y)) node y = swappedNodes m ctx y l r := by
  have hchildren : (relink m ctx (some y) node).children =
      (m node).children := relink_children hspine
  simp [takeLinks, swappedNodes, hchildren, hparent, hleft, hright, hne]

theorem swappedNodes_children_of_ne {left right : Ptr} {a : ℕ}
    (hne : a ≠ y) (hspine : a ∉ spine ctx) :
    (swappedNodes m ctx y left right a).children = (m a).children := by
  funext d
  simp [swappedNodes_children, hne, relink_children hspine]

theorem linked_swappedNodes {l r : BinaryTree ℕ}
    (hlinked : Linked m (plug ctx (.node node l r)) none)
    (hnodup : (inorder (plug ctx (.node node l r))).Nodup)
    (hy : y ∉ inorder (plug ctx (.node node l r))) :
    Linked (swappedNodes m ctx y (rootPtr l) (rootPtr r))
      (plug ctx (.node y l r)) none := by
  obtain ⟨⟨_, _, _, hl, hr⟩, hctx⟩ := linked_plug.mp hlinked
  obtain ⟨hsub, hout, hdisj⟩ := nodup_outside hnodup
  rw [(inorder_plug_perm _ _).mem_iff, List.mem_append, not_or] at hy
  obtain ⟨hy_sub, hy_ctx⟩ := hy
  simp only [inorder, List.mem_append, List.mem_cons, not_or] at hy_sub
  simp only [inorder, List.nodup_append, List.nodup_cons] at hsub
  obtain ⟨hl_nodup, ⟨_, hr_nodup⟩, hcross⟩ := hsub
  have hdisj' : ∀ a, a ∈ inorder l ∨ a ∈ inorder r → a ∉ outside ctx := by
    intro a ha
    apply hdisj a
    simp only [inorder, List.mem_append, List.mem_cons]
    tauto
  have hroot : ∀ {t : BinaryTree ℕ} {a : ℕ}, a ∉ inorder t →
      rootPtr t ≠ some a := fun ha heq => ha (mem_of_rootPtr heq)
  have hy_spine : y ∉ spine ctx :=
    fun h => hy_ctx (spine_subset_outside ctx _ h)
  -- nodes of the two subtrees keep their children
  have hkeep : ∀ a, a ∈ inorder l ∨ a ∈ inorder r →
      (swappedNodes m ctx y (rootPtr l) (rootPtr r) a).children =
        (m a).children := by
    intro a ha
    apply swappedNodes_children_of_ne
    · rintro rfl
      tauto
    · exact fun h => hdisj' a ha (spine_subset_outside ctx _ h)
  have hne : ∀ a, a ∈ inorder l ∨ a ∈ inorder r → a ≠ y := by
    rintro a ha rfl
    tauto
  rw [linked_plug]
  refine ⟨⟨?_, ?_, ?_, hl.reparent ?_ ?_ hl_nodup,
    hr.reparent ?_ ?_ hr_nodup⟩, ?_⟩
  · simp [swappedNodes_parent, hroot hy_sub.1, hroot hy_sub.2.2]
  · simp [swappedNodes_children]
  · simp [swappedNodes_children]
  · intro a ha
    refine ⟨?_, hkeep a (.inl (mem_of_rootPtr ha))⟩
    simp [swappedNodes_parent, ha]
  · intro a ha hroot_ne
    have hr_ne : rootPtr r ≠ some a := hroot fun h =>
      hcross a ha a (List.mem_cons_of_mem _ h) rfl
    refine ⟨?_, hkeep a (.inl ha)⟩
    simp [swappedNodes_parent, hr_ne, hroot_ne, hne a (.inl ha)]
  · intro a ha
    refine ⟨?_, hkeep a (.inr (mem_of_rootPtr ha))⟩
    simp [swappedNodes_parent, ha]
  · intro a ha hroot_ne
    have hl_ne : rootPtr l ≠ some a := hroot fun h =>
      hcross a h a (List.mem_cons_of_mem _ ha) rfl
    refine ⟨?_, hkeep a (.inr ha)⟩
    simp [swappedNodes_parent, hl_ne, hroot_ne, hne a (.inr ha)]
  · apply (contextLinked_relink hctx hout (some y)).congr
    intro a ha
    have hl_ne : rootPtr l ≠ some a := hroot fun h => hdisj' a (.inl h) ha
    have hr_ne : rootPtr r ≠ some a := hroot fun h => hdisj' a (.inr h) ha
    have ha_ne : a ≠ y := fun h => hy_ctx (h ▸ ha)
    constructor
    · simp [swappedNodes_parent, hl_ne, hr_ne, ha_ne]
    · funext d
      simp [swappedNodes_children, ha_ne]

end Swap

section BothChildren

variable {b : Bst} {ctx path : List (Frame ℕ)} {node y : ℕ}
  {below r : BinaryTree ℕ}

theorem plug_to_last (t : BinaryTree ℕ) :
    plug ctx (.node node (plug path t) r) =
      plug (path ++ ⟨.left, node, r⟩ :: ctx) t := by
  rw [plug_append]
  rfl

/-- The predecessor of a node with a left subtree, as `bst_max_of` finds
it. -/
theorem Valid.predecessor
    (hvalid : Valid b (plug ctx
      (.node node (plug path (.node y below .nil)) r)))
    (hafter : after path = []) {fuel : ℕ}
    (hfuel : (inorder (plug ctx
      (.node node (plug path (.node y below .nil)) r))).length < fuel) :
    bstMaxOf fuel b.nodes ((b.nodes node).children .left) = .ok (some y) ∧
      (b.nodes y).children .left = rootPtr below ∧
      (b.nodes y).parent =
        parentPtr (path ++ ⟨.left, node, r⟩ :: ctx) := by
  have hsub := (linked_plug.mp hvalid.linked).1
  have hlast := hvalid.linked
  rw [plug_to_last] at hlast
  obtain ⟨hlast_sub, _⟩ := linked_plug.mp hlast
  refine ⟨?_, hlast_sub.2.1, hlast_sub.1⟩
  rw [hsub.2.1, bstMaxOf_eq hsub.2.2.2.1]
  · simp [inorder_plug, hafter, inorder]
  · have hheight := height_le_length (plug path (.node y below .nil))
    simp only [inorder_plug, inorder, List.length_append,
      List.length_cons] at hfuel hheight
    omega

/-- After the replacement has been cut off, memory holds the rest of the
tree, and the replacement is not a part of it. -/
theorem linked_cut
    (hvalid : Valid b (plug ctx
      (.node node (plug path (.node y below .nil)) r))) :
    Linked (relink b.nodes (path ++ ⟨.left, node, r⟩ :: ctx) none)
        (plug ctx (.node node (plug path .nil) r)) none ∧
      (inorder (plug ctx (.node node (plug path .nil) r))).Nodup ∧
      y ∉ inorder (plug ctx (.node node (plug path .nil) r)) := by
  have hlinked := hvalid.linked
  have hnodup := hvalid.sorted.nodup
  rw [plug_to_last] at hlinked hnodup
  obtain ⟨_, hout, hdisj⟩ := nodup_outside hnodup
  have hperm := inorder_plug_perm (path ++ ⟨.left, node, r⟩ :: ctx) .nil
  rw [inorder, List.nil_append] at hperm
  rw [plug_to_last]
  refine ⟨?_, hperm.nodup_iff.mpr hout, ?_⟩
  · rw [linked_plug]
    exact ⟨trivial,
      contextLinked_relink (linked_plug.mp hlinked).2 hout none⟩
  · rw [hperm.mem_iff]
    exact hdisj y (by simp [inorder])

/-- The pointers and values after the writes of
`remove_node_with_both_children`. -/
theorem swapped_facts
    (hvalid : Valid b (plug ctx
      (.node node (plug path (.node y below .nil)) r)))
    (hafter : after path = []) {m : Nodes}
    (hm : m = swappedNodes
      (relink b.nodes (path ++ ⟨.left, node, r⟩ :: ctx) none) ctx y
      (rootPtr (plug path .nil)) (rootPtr r)) :
    SameValues b.nodes m ∧
      Linked m (plug ctx (.node y (plug path .nil) r)) none ∧
      Sorted m (plug ctx (.node y (plug path .nil) r)) ∧
      (∀ c ∈ inorder (plug ctx (.node y (plug path .nil) r)),
        c ∈ inorder (plug ctx
          (.node node (plug path (.node y below .nil)) r)) ∧ c ≠ node) ∧
      (m node).parent = parentPtr ctx ∧
      ∀ c ∈ inorder (plug ctx (.node y (plug path .nil) r)),
        c ∉ spine (path ++ ⟨.left, y, r⟩ :: ctx) →
        HeightOk m c ∧ BfOk m c := by
  obtain ⟨hcut, hcut_nodup, hy⟩ := linked_cut hvalid
  have hvalues : SameValues b.nodes m := by
    rw [hm]
    exact (relink_sameValues _ _ _).trans (swappedNodes_sameValues _ _)
  have hsublist : (inorder (.node y (plug path .nil) r)).Sublist
      (inorder (.node node (plug path (.node y below .nil)) r)) := by
    simp only [inorder, inorder_plug, hafter, List.append_nil]
    rw [List.append_assoc]
    refine (List.Sublist.refl _).append ?_
    rw [← List.singleton_append]
    exact (List.sublist_append_right _ _).append (List.sublist_cons_self _ _)
  -- the node is not in the rest of the tree
  have hrest : y ≠ node ∧ node ∉ inorder (plug path .nil) ∧
      node ∉ inorder r ∧ node ∉ outside ctx := by
    have hperm := (inorder_plug_perm ctx
      (.node node (plug path .nil) r)).trans
      ((inorder_branch_perm .left node (plug path .nil) r).append_right _)
    have hfirst := hperm.nodup_iff.mp hcut_nodup
    rw [hperm.mem_iff] at hy
    simp only [List.cons_append, List.nodup_cons, List.mem_cons,
      List.mem_append, not_or] at hfirst hy
    tauto
  obtain ⟨hne, hnot_left, hnot_right, hnot_ctx⟩ := hrest
  have hmem : ∀ c ∈ inorder (plug ctx (.node y (plug path .nil) r)),
      c ∈ inorder (plug ctx
        (.node node (plug path (.node y below .nil)) r)) ∧ c ≠ node := by
    intro c hc
    constructor
    · rw [inorder_plug] at hc ⊢
      simp only [List.mem_append] at hc ⊢
      rcases hc with (hc | hc) | hc
      · exact .inl (.inl hc)
      · exact .inl (.inr (hsublist.subset hc))
      · exact .inr hc
    · rintro rfl
      rw [(inorder_plug_perm _ _).mem_iff] at hc
      simp only [inorder, List.mem_append, List.mem_cons] at hc
      rcases hc with (hc | rfl | hc) | hc
      · exact hnot_left hc
      · exact hne rfl
      · exact hnot_right hc
      · exact hnot_ctx hc
  refine ⟨hvalues, ?_, hvalid.sorted.shrink hsublist hvalues.key, hmem, ?_,
    ?_⟩
  · rw [hm]
    exact linked_swappedNodes hcut hcut_nodup hy
  · have hleft : rootPtr (plug path .nil) ≠ some node :=
      fun h => hnot_left (mem_of_rootPtr h)
    have hright : rootPtr r ≠ some node :=
      fun h => hnot_right (mem_of_rootPtr h)
    rw [hm, swappedNodes_parent, if_neg hright, if_neg hleft,
      if_neg (Ne.symm hne), relink_parent, hvalid.parent_eq]
  · intro c hc hspine
    obtain ⟨hold, hc_ne⟩ := hmem c hc
    simp only [spine_append, spine_cons, List.mem_append,
      List.mem_cons, not_or] at hspine
    obtain ⟨hc_path, hc_y, hc_ctx⟩ := hspine
    have hc_old : c ∉ spine (path ++ ⟨.left, node, r⟩ :: ctx) := by
      simp only [spine_append, spine_cons, List.mem_append,
        List.mem_cons, not_or]
      exact ⟨hc_path, hc_ne, hc_ctx⟩
    have hchildren : (m c).children = (b.nodes c).children := by
      rw [hm, swappedNodes_children_of_ne hc_y hc_ctx,
        relink_children hc_old]
    have htransfer := hvalues.valid hchildren
    exact ⟨htransfer.1 (hvalid.heights c hold),
      htransfer.2 (hvalid.bfs c hold)⟩

/-- The writes of `remove_node_with_both_children`.  Heights are recalculated
from the innermost node of the new path to the root. -/
theorem removeNodeWithBothChildren_eq
    (hvalid : Valid b (plug ctx
      (.node node (plug path (.node y below .nil)) r)))
    (hafter : after path = []) {g : Frame ℕ} {rest : List (Frame ℕ)}
    (hg : path ++ ⟨.left, y, r⟩ :: ctx = g :: rest) {fuel : ℕ}
    (hfuel : (inorder (plug ctx
      (.node node (plug path (.node y below .nil)) r))).length < fuel) :
    removeNodeWithBothChildren fuel b node = (do
      let m ← bstRecalculateHeight fuel (swappedNodes
        (relink b.nodes (path ++ ⟨.left, node, r⟩ :: ctx) none) ctx y
        (rootPtr (plug path .nil)) (rootPtr r)) g.value
      let m ← bstRecalculateBf fuel m y
      .ok ⟨rootPtr (plug ctx (.node y (plug path .nil) r)), m⟩) := by
  obtain ⟨hcut, hcut_nodup, hy⟩ := linked_cut hvalid
  obtain ⟨hsub, hctx⟩ := linked_plug.mp hcut
  obtain ⟨hparent, hleft, hright, _, _⟩ := hsub
  have hout : node ∉ outside ctx :=
    (nodup_outside hcut_nodup).2.2 node (by simp [inorder])
  have hspine : node ∉ spine ctx :=
    fun h => hout (spine_subset_outside ctx _ h)
  have hne : node ≠ y := by
    rintro rfl
    exact hy (mem_inorder_of_hole (by simp [inorder]))
  have hnot_left : node ∉ inorder (plug path .nil) := by
    have hnodup := (nodup_outside hcut_nodup).1
    rw [inorder, List.nodup_append] at hnodup
    exact fun h => hnodup.2.2 node h node List.mem_cons_self rfl
  obtain ⟨hmax, _, hlast_parent⟩ := hvalid.predecessor hafter hfuel
  -- it hangs below the first node of the old path
  obtain ⟨old, rest', hold⟩ : ∃ old rest',
      path ++ ⟨.left, node, r⟩ :: ctx = old :: rest' := by
    cases path with
    | nil => exact ⟨_, _, rfl⟩
    | cons f path => exact ⟨_, _, rfl⟩
  have hlast := hvalid.linked
  have hlast_nodup := hvalid.sorted.nodup
  rw [plug_to_last, hold] at hlast hlast_nodup
  have hlast_ctx := (linked_plug.mp hlast).2
  have hold_parent : (b.nodes y).parent = some old.value := by
    rw [hlast_parent, hold]
    rfl
  have hdir := bstDirInParent_eq hold_parent hlast_ctx
    ((nodup_outside hlast_nodup).2.2 y (by simp [inorder]))
  have hroot := relinkRoot_plug ctx
    (.node node (plug path (.node y below .nil)) r)
    (.node y (plug path .nil) r)
  rw [← hvalid.root] at hroot
  have hstart : (if old.value ≠ node then old.value else y) = g.value := by
    cases path with
    | nil =>
        obtain ⟨rfl, _⟩ := List.cons.inj hg
        obtain ⟨rfl, _⟩ := List.cons.inj hold
        simp
    | cons f path =>
        obtain ⟨rfl, _⟩ := List.cons.inj hg
        obtain ⟨rfl, _⟩ := List.cons.inj hold
        rw [if_pos]
        intro heq
        apply hnot_left
        rw [← heq]
        exact mem_inorder_of_spine (by simp [spine])
  have hcutoff : b.nodes.setChild old.value old.side none =
      relink b.nodes (path ++ ⟨.left, node, r⟩ :: ctx) none := by
    rw [hold]
    rfl
  have hreplace : replaceInParent ⟨b.root, relink b.nodes
      (path ++ ⟨.left, node, r⟩ :: ctx) none⟩ node (some y) = _ :=
    replaceInParent_eq hparent hctx hout (some y)
  rw [removeNodeWithBothChildren, hmax]
  simp only [ok_bind, hold_parent, hdir, hcutoff, hreplace, hstart,
    takeLinks_eq hparent hleft hright hne hspine]
  rw [show some y = rootPtr (.node y (plug path .nil) r) from rfl, hroot]

/-- `remove_node_with_both_children`, with the last node `y` of the left
subtree at the end of the path `path`. -/
theorem removeNodeWithBothChildren_unhooked
    (hvalid : Valid b (plug ctx
      (.node node (plug path (.node y below .nil)) r)))
    (hafter : after path = []) {fuel : ℕ}
    (hfuel : (inorder (plug ctx
      (.node node (plug path (.node y below .nil)) r))).length < fuel) :
    ∃ b', removeNodeWithBothChildren fuel b node = .ok b' ∧
      Unhooked b b' node ctx (.node y (plug path .nil) r) := by
  obtain ⟨hvalues, hlinked, hsorted, hmem, hparent, hok⟩ :=
    swapped_facts hvalid hafter rfl
  have hlength : (inorder (plug ctx
      (.node y (plug path .nil) r))).length < fuel := by
    refine lt_of_le_of_lt ?_ hfuel
    exact (List.subperm_of_subset hsorted.nodup
      fun c hc => (hmem c hc).1).length_le
  -- the path along which heights are recalculated
  obtain ⟨g, rest, hg⟩ : ∃ g rest,
      path ++ ⟨.left, y, r⟩ :: ctx = g :: rest := by
    cases path with
    | nil => exact ⟨_, _, rfl⟩
    | cons f path => exact ⟨_, _, rfl⟩
  have hpath : ∀ c ∈ spine (g :: rest),
      c ∈ inorder (.node y (plug path .nil) r) ++ spine ctx := by
    intro c hc
    rw [← hg, spine_append, List.mem_append] at hc
    simp only [inorder, List.mem_append, List.mem_cons]
    rcases hc with hc | hc
    · exact .inl (.inl (mem_inorder_of_spine hc))
    · rcases List.mem_cons.mp hc with rfl | hc
      · exact .inl (.inr (.inl rfl))
      · exact .inr hc
  rw [hg] at hok
  obtain ⟨m₁, m', hheight, hbf, hshape, hvalid'⟩ :=
    @recalculate_valid _ g rest ctx (plug ctx (.node y (plug path .nil) r))
      .nil (.node y (plug path .nil) r) y fuel (by rw [plug_to_last, hg]) rfl
      rfl hlinked hsorted hpath (fun c hc hout => (hok c hc hout).1)
      (fun c hc hout => (hok c hc fun hon => hout (hpath c hon)).2) hlength
  refine ⟨⟨rootPtr (plug ctx (.node y (plug path .nil) r)), m'⟩, ?_, rfl,
    hvalid'.linked, hvalid'.sorted,
    fun c hc _ => ⟨hvalid'.heights c hc, hvalid'.bfs c hc⟩, ?_,
    hvalues.payload.trans hshape.payload⟩
  · rw [removeNodeWithBothChildren_eq hvalid hafter hg hfuel, hheight,
      ok_bind, hbf, ok_bind]
  · rw [← hparent]
    exact (hshape.links node).1

end BothChildren

/-! ## All shapes of removal -/

section Remove

variable {b : Bst} {ctx : List (Frame ℕ)} {node fuel : ℕ}

theorem removeTerminalNode_unhooked
    (hvalid : Valid b (plug ctx (.node node .nil .nil))) :
    ∃ b', removeTerminalNode b node = .ok b' ∧
      Unhooked b b' node ctx .nil := by
  refine ⟨_, ?_, unhooked_lift (s := .left) hvalid⟩
  rw [removeTerminalNode, hvalid.root_or_parent, ok_bind,
    hvalid.replaceInParent]
  rfl

theorem removeNodeWithChild_unhooked {s : Side} {c : ℕ}
    {x y : BinaryTree ℕ}
    (hvalid : Valid b (plug ctx (branch s node (.node c x y) .nil))) :
    ∃ b', removeNodeWithChild s b node = .ok b' ∧
      Unhooked b b' node ctx (.node c x y) := by
  refine ⟨_, ?_, unhooked_lift hvalid⟩
  have hsub := (linked_plug.mp hvalid.linked).1
  have hchild : (b.nodes node).children s = some c :=
    (linked_branch.mp hsub).2.1
  obtain ⟨l, r, hnode⟩ : ∃ l r,
      branch s node (.node c x y) .nil = .node node l r := by
    cases s
    · exact ⟨_, _, rfl⟩
    · exact ⟨_, _, rfl⟩
  rw [hnode] at hvalid
  simp only [removeNodeWithChild, hchild]
  rw [hvalid.root_or_parent, hvalid.replaceInParent, hvalid.parent_eq]
  rfl

theorem removeByShape_unhooked {l r : BinaryTree ℕ}
    (hvalid : Valid b (plug ctx (.node node l r)))
    (hfuel : (inorder (plug ctx (.node node l r))).length < fuel) :
    ∃ b', removeByShape fuel b node = .ok b' ∧
      Unhooked b b' node ctx (joined l r) := by
  have hsub := (linked_plug.mp hvalid.linked).1
  unfold removeByShape
  rw [hsub.2.1, hsub.2.2.1]
  cases l with
  | nil =>
      cases r with
      | nil => exact removeTerminalNode_unhooked hvalid
      | node c x y => exact removeNodeWithChild_unhooked (s := .right) hvalid
  | node a x y =>
      cases r with
      | nil => exact removeNodeWithChild_unhooked (s := .left) hvalid
      | node c u v =>
          obtain ⟨path, last, below, hplug, hcut, hafter, hlast⟩ :=
            exists_last (by simp : BinaryTree.node a x y ≠ .nil)
          rw [joined, hcut, hlast]
          rw [hplug] at hvalid hfuel
          exact removeNodeWithBothChildren_unhooked hvalid hafter hfuel

theorem length_joined_le (l r : BinaryTree ℕ) :
    (inorder (joined l r)).length ≤ (inorder l).length +
      (inorder r).length := by
  cases l with
  | nil => simp [joined, inorder]
  | node a x y =>
      cases r with
      | nil => simp [joined, inorder]
      | node c u v =>
          obtain ⟨path, last, below, hplug, hcut, hafter, hlast⟩ :=
            exists_last (by simp : BinaryTree.node a x y ≠ .nil)
          rw [joined, hcut, hlast, hplug]
          simp only [inorder, inorder_plug, List.length_append,
            List.length_cons]
          omega

theorem bstRemoveNodeUnbalenced_valid {l r : BinaryTree ℕ}
    (hvalid : Valid b (plug ctx (.node node l r)))
    (hfuel : (inorder (plug ctx (.node node l r))).length < fuel) :
    ∃ b', bstRemoveNodeUnbalenced fuel b node = .ok b' ∧
      Valid b' (plug ctx (joined l r)) ∧
      (b'.nodes node).parent = parentPtr ctx ∧
      SamePayload b.nodes b'.nodes := by
  have hlength : (inorder (plug ctx (joined l r))).length < fuel := by
    have hjoined := length_joined_le l r
    simp only [inorder_plug, inorder, List.length_append,
      List.length_cons] at hfuel ⊢
    omega
  obtain ⟨b₁, hremove, hunhooked⟩ := removeByShape_unhooked hvalid hfuel
  obtain ⟨m', hrecalc, hshape, hvalid'⟩ := recalculateFrom_valid
    hunhooked.linked hunhooked.sorted hunhooked.valid hlength
  refine ⟨⟨rootPtr (plug ctx (joined l r)), m'⟩, ?_, hvalid', ?_,
    hunhooked.payload.trans hshape.payload⟩
  · rw [bstRemoveNodeUnbalenced, hvalid.checkTree hfuel, ok_bind]
    simp only [hvalid.parent_eq, hremove, ok_bind, hrecalc, hunhooked.root,
      hvalid'.checkTree hlength]
  · rw [← hunhooked.parent]
    exact (hshape.links node).1

/-- `bst_remove_node` removes a node and rebalances from the parent which the
node had. -/
theorem bstRemoveNode_valid {l r : BinaryTree ℕ}
    (hvalid : Valid b (plug ctx (.node node l r)))
    (hfuel : (inorder (plug ctx (.node node l r))).length < fuel) :
    ∃ b', bstRemoveNode fuel b node = .ok b' ∧
      Valid b' (climb ctx (joined l r)) ∧ SamePayload b.nodes b'.nodes := by
  obtain ⟨b₁, hremove, hvalid₁, hparent, hpayload₁⟩ :=
    bstRemoveNodeUnbalenced_valid hvalid hfuel
  have hlength : (inorder (plug ctx (joined l r))).length < fuel := by
    have hjoined := length_joined_le l r
    simp only [inorder_plug, inorder, List.length_append,
      List.length_cons] at hfuel ⊢
    omega
  obtain ⟨b₂, hrebalence, hvalid₂, hpayload₂⟩ :=
    rebalenceFrom_valid hvalid₁ hlength
  refine ⟨b₂, ?_, hvalid₂, hpayload₁.trans hpayload₂⟩
  rw [bstRemoveNode, hvalid.checkTree hfuel, ok_bind, hremove, ok_bind,
    hparent, hrebalence]

theorem inorder_joined {l r : BinaryTree ℕ}
    (hlast : ∀ ctx y below, l ≠ .nil → r ≠ .nil →
      l = plug ctx (.node y below .nil) → after ctx = [] → below = .nil) :
    inorder (joined l r) = inorder l ++ inorder r := by
  cases l with
  | nil => rfl
  | node a x y =>
      cases r with
      | nil => simp [joined, inorder]
      | node c u v =>
          obtain ⟨path, last, below, hplug, hcut, hafter, hlast_eq⟩ :=
            exists_last (by simp : BinaryTree.node a x y ≠ .nil)
          obtain rfl := hlast path last below (by simp) (by simp) hplug
            hafter
          rw [joined, hcut, hlast_eq, hplug]
          simp [inorder, inorder_plug, hafter]

end Remove

end Bst
end Yjkos
