import Yjkos.BstRun

/-!
# Height balance and removal

`bst_remove_node` starts to rebalance at the parent of the removed node.
When the node has two children, the subtree which becomes lower hangs deep
below that parent, and nothing between the two is rebalanced.  This file
shows exactly when the tree is still height balanced afterwards.
-/

namespace Yjkos
namespace Bst

open AvlTree

/-- A valid tree whose balance factors are -1, 0 or 1. -/
structure Avl (b : Bst) (t : BinaryTree ℕ) : Prop where
  valid : Valid b t
  bounded : ∀ a ∈ inorder t, -1 ≤ (b.nodes a).bf ∧ (b.nodes a).bf ≤ 1

theorem balanced_iff_bounded {m : Nodes} {t : BinaryTree ℕ} {parent : Ptr}
    (hlinked : Linked m t parent) (hheights : ∀ a ∈ inorder t, HeightOk m a)
    (hbfs : ∀ a ∈ inorder t, BfOk m a) :
    HeightBalanced t ↔ ∀ a ∈ inorder t, -1 ≤ (m a).bf ∧ (m a).bf ≤ 1 := by
  induction t generalizing parent with
  | nil => simp [HeightBalanced, inorder]
  | node a l r ihl ihr =>
      have hbf : (m a).bf = (l.height : ℤ) - r.height := by
        rw [hbfs a (by simp [inorder])]
        exact bfFromChildren_eq hlinked hheights
      obtain ⟨_, _, _, hl, hr⟩ := hlinked
      rw [HeightBalanced,
        ihl hl (fun b hb => hheights b (by simp [inorder, hb]))
          (fun b hb => hbfs b (by simp [inorder, hb])),
        ihr hr (fun b hb => hheights b (by simp [inorder, hb]))
          (fun b hb => hbfs b (by simp [inorder, hb]))]
      simp only [inorder, List.mem_append, List.mem_cons]
      constructor
      · rintro ⟨hlr, hrl, hleft, hright⟩ b (hb | rfl | hb)
        · exact hleft b hb
        · rw [hbf]
          omega
        · exact hright b hb
      · intro hall
        have ha := hall a (.inr (.inl rfl))
        rw [hbf] at ha
        exact ⟨by omega, by omega, fun b hb => hall b (.inl hb),
          fun b hb => hall b (.inr (.inr hb))⟩

theorem Valid.avl_iff {b : Bst} {t : BinaryTree ℕ} (hvalid : Valid b t) :
    Avl b t ↔ HeightBalanced t := by
  rw [balanced_iff_bounded hvalid.linked hvalid.heights hvalid.bfs]
  exact ⟨fun h => h.bounded, fun h => ⟨hvalid, h⟩⟩

theorem linked_unique {m : Nodes} {t t' : BinaryTree ℕ} {parent parent' : Ptr}
    (hlinked : Linked m t parent) (hlinked' : Linked m t' parent')
    (hroot : rootPtr t = rootPtr t') : t = t' := by
  induction t generalizing parent t' parent' with
  | nil => exact (rootPtr_eq_none.mp hroot.symm).symm
  | node a l r ihl ihr =>
      cases t' with
      | nil => contradiction
      | node a' l' r' =>
          obtain rfl : a = a' := Option.some.inj hroot
          obtain ⟨_, hleft, hright, hl, hr⟩ := hlinked
          obtain ⟨_, hleft', hright', hl', hr'⟩ := hlinked'
          rw [ihl hl hl' (hleft.symm.trans hleft'),
            ihr hr hr' (hright.symm.trans hright')]

/-! ## Where the shrinking stops -/

/-- Going up from `current` to `node`, with the lower subtree on the right
below `node` and on the left at `node`: the first node which does not lean
towards the lower subtree is level. -/
def absorbedLoop (m : Nodes) (node : ℕ) : ℕ → Ptr → Bool
  | 0, _ => false
  | _ + 1, none => false
  | fuel + 1, some current =>
      if current = node then decide ((m current).bf ≠ -1)
      else if (m current).bf = -1 then
        absorbedLoop m node fuel (m current).parent
      else decide ((m current).bf = 0)

/-- The node has at most one child, or the nodes between its predecessor and
itself absorb the removal of the predecessor. -/
def removalAbsorbed (fuel : ℕ) (self : Bst) (node : ℕ) : Bool :=
  match (self.nodes node).children .left,
      (self.nodes node).children .right with
  | some l, some _ =>
      match bstMaxOf fuel self.nodes (some l) with
      | .ok (some predecessor) =>
          absorbedLoop self.nodes node fuel (self.nodes predecessor).parent
      | _ => true
  | _, _ => true

theorem absorbedLoop_eq {b : Bst} {ctx : List (Frame ℕ)} {node y : ℕ}
    {r : BinaryTree ℕ} {path : List (Frame ℕ)} :
    ∀ {s : BinaryTree ℕ} {h fuel : ℕ},
      Valid b (plug (path ++ ⟨.left, node, r⟩ :: ctx) s) →
      ContextBalanced (path ++ [⟨.left, y, r⟩]) (h + 1) →
      s.height = h + 1 → after path = [] → node ∉ spine path →
      path.length < fuel →
      absorbedLoop b.nodes node fuel
        (parentPtr (path ++ ⟨.left, node, r⟩ :: ctx)) =
        absorbs (path ++ [⟨.left, y, r⟩]) h := by
  induction path with
  | nil =>
      intro s h fuel hvalid hctx hheight _ _ hfuel
      obtain ⟨fuel, rfl⟩ := Nat.exists_eq_add_one_of_ne_zero
        (by omega : fuel ≠ 0)
      have hsub : Valid b (plug ctx (.node node s r)) := hvalid
      have hbf := hsub.bf_eq
      obtain ⟨hlow, hhigh, _⟩ := hctx
      simp only [List.nil_append, parentPtr, absorbedLoop, if_true, hbf,
        hheight, absorbs]
      simp only at hlow hhigh
      by_cases hlean : r.height = h
      · rw [if_pos hlean, decide_eq_true_iff]
        omega
      · rw [if_neg hlean, decide_eq_decide]
        omega
  | cons f path ih =>
      intro s h fuel hvalid hctx hheight hafter hnot hfuel
      obtain ⟨fuel, rfl⟩ := Nat.exists_eq_add_one_of_ne_zero
        (by omega : fuel ≠ 0)
      obtain ⟨side, c, sibling⟩ := f
      cases side with
      | left => simp [after, Frame.after] at hafter
      | right =>
          have hsub : Valid b (plug (path ++ ⟨.left, node, r⟩ :: ctx)
              (.node c sibling s)) := hvalid
          have hbf := hsub.bf_eq
          have hparent := hsub.parent_eq
          have hne : c ≠ node := by
            rintro rfl
            exact hnot List.mem_cons_self
          obtain ⟨hlow, hhigh, _, hrest⟩ := hctx
          simp only at hlow hhigh hrest
          simp only [List.cons_append, parentPtr, absorbedLoop, if_neg hne,
            hbf, hheight, absorbs]
          by_cases hlean : sibling.height = h
          · have htoward : (sibling.height : ℤ) - ((h + 1 : ℕ) : ℤ) = -1 := by
              omega
            rw [if_pos hlean, if_pos htoward, hparent]
            rw [show max (h + 1) sibling.height + 1 = h + 1 + 1 by omega]
              at hrest
            apply ih hsub hrest
            · simp only [BinaryTree.height, hheight]
              omega
            · simpa [after, Frame.after] using hafter
            · exact fun hmem => hnot (List.mem_cons_of_mem _ hmem)
            · simpa using hfuel
          · have haway :
                ¬(sibling.height : ℤ) - ((h + 1 : ℕ) : ℤ) = -1 := by
              omega
            rw [if_neg hlean, if_neg haway, decide_eq_decide]
            omega

/-! ## Removals which lose no other key -/

/-- When every other node is still in the tree after the removal, the
predecessor had no left subtree. -/
theorem below_eq_nil_of_kept {b : Bst} {ctx path : List (Frame ℕ)}
    {node y : ℕ} {below r : BinaryTree ℕ}
    (hsorted : Sorted b.nodes (plug ctx
      (.node node (plug path (.node y below .nil)) r)))
    (hafter : after path = [])
    (hkept : ∀ a ∈ inorder (plug ctx
        (.node node (plug path (.node y below .nil)) r)), a ≠ node →
      a ∈ inorder (climb ctx (.node y (plug path .nil) r))) :
    below = .nil := by
  cases below with
  | nil => rfl
  | node a x z =>
      exfalso
      have hnodup := hsorted.nodup
      have hmem := hkept a (by simp [inorder_plug, inorder])
      simp only [inorder_plug, inorder_climb, inorder, hafter,
        List.append_nil, List.append_assoc, List.cons_append,
        List.nil_append, List.nodup_append, List.nodup_cons, List.mem_append,
        List.mem_cons] at hnodup hmem
      grind

/-! ## The exact condition -/

section Removal

variable {b : Bst} {ctx : List (Frame ℕ)} {node fuel : ℕ}

/-- A node with at most one child leaves a subtree which is one lower, and
the climb from its parent absorbs that. -/
theorem balanced_climb_of_single {l r : BinaryTree ℕ}
    (hbalanced : HeightBalanced (plug ctx (.node node l r)))
    (hsingle : l = .nil ∨ r = .nil) :
    HeightBalanced (climb ctx (joined l r)) := by
  obtain ⟨⟨hlr, hrl, hl, hr⟩, hctx⟩ := (balanced_plug ctx _).mp hbalanced
  simp only [BinaryTree.height] at hctx
  have hjoined : HeightBalanced (joined l r) ∧
      (joined l r).height = max l.height r.height := by
    rcases hsingle with rfl | rfl
    · exact ⟨hr, by simp [joined]⟩
    · cases l with
      | nil => exact ⟨hl, by simp [joined]⟩
      | node a x y => exact ⟨hl, by simp [joined]⟩
  exact balanced_climb_of_lower hctx hjoined.1 (by omega) (by omega)

/-- With two children and a predecessor without children, the tree is
balanced afterwards exactly when the nodes in between absorb the change. -/
theorem balanced_climb_iff_absorbs {path : List (Frame ℕ)} {y : ℕ}
    {r : BinaryTree ℕ}
    (hbalanced : HeightBalanced (plug ctx
      (.node node (plug path (leaf y)) r))) :
    HeightBalanced (climb ctx (.node y (plug path .nil) r)) ↔
      absorbs (path ++ [⟨.left, y, r⟩]) 0 = true := by
  obtain ⟨hsub, hctx⟩ := (balanced_plug ctx _).mp hbalanced
  -- the subtree with and without the predecessor, as seen from it
  have hold : plug (path ++ [⟨.left, y, r⟩]) (leaf y) =
      .node y (plug path (leaf y)) r := by
    rw [plug_append]
    rfl
  have hnew : plug (path ++ [⟨.left, y, r⟩]) .nil =
      .node y (plug path .nil) r := by
    rw [plug_append]
    rfl
  have hold_balanced : HeightBalanced
      (plug (path ++ [⟨.left, y, r⟩]) (leaf y)) := by
    rw [hold]
    exact hsub
  have hpath := ((balanced_plug _ _).mp hold_balanced).2
  have hheight : (BinaryTree.node node (plug path (leaf y)) r).height =
      (plug (path ++ [⟨.left, y, r⟩]) (leaf y)).height := by
    rw [hold]
    rfl
  rw [hheight] at hctx
  rw [← hnew]
  cases habsorbs : absorbs (path ++ [⟨.left, y, r⟩]) 0 with
  | true =>
      obtain ⟨hkept, hle, hge⟩ := @balanced_plug_of_absorbs ℕ _ 0 (leaf y)
        .nil hpath trivial rfl rfl habsorbs
      exact iff_of_true (balanced_climb_of_lower hctx hkept hle hge) rfl
  | false =>
      obtain ⟨hbroken, hsame⟩ := @not_balanced_plug_of_not_absorbs ℕ _ 0
        (leaf y) .nil hpath rfl rfl habsorbs
      rw [← hsame] at hctx
      rw [climb_of_contextBalanced hctx, balanced_plug]
      exact iff_of_false (fun h => hbroken h.1) (by simp)

end Removal

theorem removalAbsorbed_eq {b : Bst} {ctx path : List (Frame ℕ)}
    {node y fuel : ℕ} {r : BinaryTree ℕ}
    (havl : Avl b (plug ctx (.node node (plug path (leaf y)) r)))
    (hright : r ≠ .nil) (hafter : after path = [])
    (hfuel : (inorder (plug ctx
      (.node node (plug path (leaf y)) r))).length < fuel) :
    removalAbsorbed fuel b node = absorbs (path ++ [⟨.left, y, r⟩]) 0 := by
  have hvalid := havl.valid
  obtain ⟨hmax, _, hparent⟩ := hvalid.predecessor hafter hfuel
  have hsub := (linked_plug.mp hvalid.linked).1
  obtain ⟨r', hr'⟩ : ∃ r', (b.nodes node).children .right = some r' := by
    rw [← Option.ne_none_iff_exists', hsub.2.2.1, Ne, rootPtr_eq_none]
    exact hright
  obtain ⟨l', hl'⟩ : ∃ l', (b.nodes node).children .left = some l' := by
    cases hl : (b.nodes node).children .left with
    | some l' => exact ⟨l', rfl⟩
    | none =>
        obtain ⟨fuel, rfl⟩ := Nat.exists_eq_add_one_of_ne_zero
          (by omega : fuel ≠ 0)
        rw [hl] at hmax
        simp [bstMaxOf, extremeLoop] at hmax
  rw [hl'] at hmax
  simp only [removalAbsorbed, hl', hr', hmax, hparent]
  have hbalanced := hvalid.avl_iff.mp havl
  have hold : HeightBalanced (plug (path ++ [⟨.left, y, r⟩]) (leaf y)) := by
    rw [plug_append]
    exact ((balanced_plug ctx _).mp hbalanced).1
  have hnodup := hvalid.sorted.nodup
  have hspine := length_spine_le (path ++ ⟨.left, node, r⟩ :: ctx) (leaf y)
  rw [plug_to_last] at hvalid hfuel hnodup
  apply absorbedLoop_eq hvalid ((balanced_plug _ _).mp hold).2 rfl hafter
  · intro hmem
    have hall := nodup_spine hnodup
    rw [spine_append, List.nodup_append] at hall
    exact hall.2.2 node hmem node List.mem_cons_self rfl
  · simp only [spine, List.length_map, List.length_append] at hspine
    omega

/-- After the removal of a node which loses no other key, the tree is again
height balanced exactly when the node has at most one child or the nodes
between its predecessor and itself absorb the change. -/
theorem bstRemoveNode_avl_iff {b : Bst} {t : BinaryTree ℕ} {node fuel : ℕ}
    (havl : Avl b t) (hnode : node ∈ inorder t)
    (hfuel : (inorder t).length < fuel)
    (hkept : ∀ b', bstRemoveNode fuel b node = .ok b' →
      ∀ a ∈ inorder t, a ≠ node →
        a ∈ inorderNodes b'.nodes fuel b'.root) :
    (∃ b' t', bstRemoveNode fuel b node = .ok b' ∧ Avl b' t') ↔
      removalAbsorbed fuel b node = true := by
  obtain ⟨ctx, l, r, rfl⟩ := exists_plug_of_mem hnode
  have hbalanced := havl.valid.avl_iff.mp havl
  have hsub := (linked_plug.mp havl.valid.linked).1
  obtain ⟨b', hremove, hvalid', _⟩ := bstRemoveNode_valid havl.valid hfuel
  have hiff : (∃ b' t', bstRemoveNode fuel b node = .ok b' ∧ Avl b' t') ↔
      HeightBalanced (climb ctx (joined l r)) := by
    rw [← hvalid'.avl_iff]
    constructor
    · rintro ⟨b₁, t₁, hremove₁, havl₁⟩
      rw [hremove, Except.ok.injEq] at hremove₁
      subst hremove₁
      have heq := linked_unique hvalid'.linked havl₁.valid.linked
        (hvalid'.root.symm.trans havl₁.valid.root)
      exact heq ▸ havl₁
    · exact fun h => ⟨b', _, hremove, h⟩
  rw [hiff]
  by_cases hsingle : l = .nil ∨ r = .nil
  · refine iff_of_true (balanced_climb_of_single hbalanced hsingle) ?_
    rw [removalAbsorbed, hsub.2.1, hsub.2.2.1]
    rcases hsingle with rfl | rfl
    · rfl
    · cases rootPtr l <;> rfl
  · obtain ⟨hleft, hright⟩ := not_or.mp hsingle
    obtain ⟨path, y, below, rfl, hcut, hafter, hlast⟩ := exists_last hleft
    have hjoined : joined (plug path (.node y below .nil)) r =
        .node y (plug path .nil) r := by
      rw [joined_of_ne_nil hleft hright, hcut, hlast]
    rw [hjoined] at hvalid' ⊢
    have hlength : (climb ctx (.node y (plug path .nil) r)).height <
        fuel := by
      have hheight := height_le_length
        (climb ctx (.node y (plug path .nil) r))
      have hle := length_joined_le (plug path (.node y below .nil)) r
      rw [hjoined] at hle
      simp only [inorder_climb, inorder_plug, inorder, List.length_append,
        List.length_cons] at hheight hle hfuel
      omega
    have hnodes : inorderNodes b'.nodes fuel b'.root =
        inorder (climb ctx (.node y (plug path .nil) r)) := by
      rw [hvalid'.root]
      exact inorderNodes_eq hvalid'.linked hlength
    obtain rfl : below = .nil := by
      apply below_eq_nil_of_kept havl.valid.sorted hafter
      intro a ha hne
      rw [← hnodes]
      exact hkept b' hremove a ha hne
    rw [removalAbsorbed_eq havl hright hafter hfuel]
    exact balanced_climb_iff_absorbs hbalanced

/-! ## Removals from two trees -/

/-- The tree after the keys 2, 1, 3 and 4 have been inserted; the addresses
are the keys. -/
def leaningTree : BinaryTree ℕ := .node 2 (leaf 1) (.node 3 .nil (leaf 4))

def leaningNodes : Nodes
  | 1 => ⟨some 2, fun _ => none, 0, 1, 0, 0⟩
  | 2 => ⟨none, fun | .left => some 1 | .right => some 3, 0, 2, -1, 2⟩
  | 3 => ⟨some 2, fun | .left => none | .right => some 4, 0, 3, -1, 1⟩
  | 4 => ⟨some 3, fun _ => none, 0, 4, 0, 0⟩
  | _ => BstNode.zeroed

def leaningBst : Bst := ⟨some 2, leaningNodes⟩

theorem mem_leaningTree {a : ℕ} :
    a ∈ inorder leaningTree ↔ a = 1 ∨ a = 2 ∨ a = 3 ∨ a = 4 := by
  simp [leaningTree, leaf, inorder]

theorem avl_leaningBst : Avl leaningBst leaningTree := by
  refine ⟨⟨rfl, ?_, ?_, ?_, ?_⟩, ?_⟩
  · simp [Linked, leaningTree, leaf, leaningBst, leaningNodes, rootPtr]
  · have hdec : [1, 2, 3, 4].Pairwise
        fun a b => (leaningNodes a).key < (leaningNodes b).key := by decide
    exact hdec
  · intro a ha
    rcases mem_leaningTree.mp ha with rfl | rfl | rfl | rfl <;> rfl
  · intro a ha
    rcases mem_leaningTree.mp ha with rfl | rfl | rfl | rfl <;> rfl
  · intro a ha
    rcases mem_leaningTree.mp ha with rfl | rfl | rfl | rfl <;> decide

theorem inorderNodes_after_removal {b : Bst} {ctx : List (Frame ℕ)}
    {node fuel : ℕ} {l r : BinaryTree ℕ}
    (hvalid : Valid b (plug ctx (.node node l r)))
    (hfuel : (inorder (plug ctx (.node node l r))).length < fuel) :
    ∃ b', bstRemoveNode fuel b node = .ok b' ∧
      Valid b' (climb ctx (joined l r)) ∧
      inorderNodes b'.nodes fuel b'.root =
        inorder (climb ctx (joined l r)) := by
  obtain ⟨b', hremove, hvalid', _⟩ := bstRemoveNode_valid hvalid hfuel
  refine ⟨b', hremove, hvalid', ?_⟩
  rw [hvalid'.root]
  apply inorderNodes_eq hvalid'.linked
  have hheight := height_le_length (climb ctx (joined l r))
  have hle := length_joined_le l r
  simp only [inorder_climb, inorder_plug, inorder, List.length_append,
    List.length_cons] at hheight hle hfuel
  omega

/-- The root has two children, and its predecessor 3 is a leaf below the left
one. -/
def bushyTree : BinaryTree ℕ := .node 4 (.node 2 (leaf 1) (leaf 3)) (leaf 5)

def bushyNodes : Nodes
  | 1 => ⟨some 2, fun _ => none, 0, 1, 0, 0⟩
  | 2 => ⟨some 4, fun | .left => some 1 | .right => some 3, 0, 2, 0, 1⟩
  | 3 => ⟨some 2, fun _ => none, 0, 3, 0, 0⟩
  | 4 => ⟨none, fun | .left => some 2 | .right => some 5, 0, 4, 1, 2⟩
  | 5 => ⟨some 4, fun _ => none, 0, 5, 0, 0⟩
  | _ => BstNode.zeroed

def bushyBst : Bst := ⟨some 4, bushyNodes⟩

theorem mem_bushyTree {a : ℕ} :
    a ∈ inorder bushyTree ↔ a = 1 ∨ a = 2 ∨ a = 3 ∨ a = 4 ∨ a = 5 := by
  simp [bushyTree, leaf, inorder]

theorem avl_bushyBst : Avl bushyBst bushyTree := by
  refine ⟨⟨rfl, ?_, ?_, ?_, ?_⟩, ?_⟩
  · simp [Linked, bushyTree, leaf, bushyBst, bushyNodes, rootPtr]
  · have hdec : [1, 2, 3, 4, 5].Pairwise
        fun a b => (bushyNodes a).key < (bushyNodes b).key := by decide
    exact hdec
  · intro a ha
    rcases mem_bushyTree.mp ha with rfl | rfl | rfl | rfl | rfl <;> rfl
  · intro a ha
    rcases mem_bushyTree.mp ha with rfl | rfl | rfl | rfl | rfl <;> rfl
  · intro a ha
    rcases mem_bushyTree.mp ha with rfl | rfl | rfl | rfl | rfl <;> decide

/-- The theorem at the removal of the root of this tree: the predecessor takes
its place, and the node 2 absorbs the change. -/
theorem bstRemoveNode_avl_of_two_children :
    ∃ b' t', bstRemoveNode 6 bushyBst 4 = .ok b' ∧ Avl b' t' := by
  obtain ⟨b₁, hremove, _, hnodes⟩ := @inorderNodes_after_removal bushyBst
    [] 4 6 (.node 2 (leaf 1) (leaf 3)) (leaf 5) avl_bushyBst.valid (by decide)
  refine (bstRemoveNode_avl_iff avl_bushyBst (by decide) (by decide)
    ?_).mpr rfl
  intro b' hb' a ha hne
  rw [hremove, Except.ok.injEq] at hb'
  rw [← hb', hnodes]
  rcases mem_bushyTree.mp ha with rfl | rfl | rfl | rfl | rfl
  · decide
  · decide
  · decide
  · contradiction
  · decide

/-- The removal of the root 2 from the leaning tree loses no other key and
leaves the balance factor -2 behind. -/
theorem removal_breaks_balance :
    Avl leaningBst leaningTree ∧ 2 ∈ inorder leaningTree ∧
      (∀ b', bstRemoveNode 6 leaningBst 2 = .ok b' →
        ∀ a ∈ inorder leaningTree, a ≠ 2 →
          a ∈ inorderNodes b'.nodes 6 b'.root) ∧
      ¬∃ b' t', bstRemoveNode 6 leaningBst 2 = .ok b' ∧ Avl b' t' := by
  obtain ⟨b₁, hremove, hvalid₁, hnodes⟩ := @inorderNodes_after_removal
    leaningBst [] 2 6 (leaf 1) (.node 3 .nil (leaf 4)) avl_leaningBst.valid
    (by decide)
  refine ⟨avl_leaningBst, by decide, ?_, ?_⟩
  · intro b' hb' a ha hne
    rw [hremove, Except.ok.injEq] at hb'
    rw [← hb', hnodes]
    rcases mem_leaningTree.mp ha with rfl | rfl | rfl | rfl
    · decide
    · contradiction
    · decide
    · decide
  · rintro ⟨b', t', hb', havl⟩
    rw [hremove, Except.ok.injEq] at hb'
    subst hb'
    have heq := linked_unique hvalid₁.linked havl.valid.linked
      (hvalid₁.root.symm.trans havl.valid.root)
    rw [← heq, hvalid₁.avl_iff] at havl
    -- the right subtree of the new root is two higher than the empty left one
    have hroot : HeightBalanced (.node 1 .nil (.node 3 .nil (leaf 4))) := havl
    simp [HeightBalanced, leaf] at hroot

end Bst
end Yjkos
