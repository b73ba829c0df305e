import Yjkos.BstRotation

/-!
# Insertion into a height balanced tree

A new node makes one subtree one higher, and the climb to the root restores
the balance.  The new node's own height is not written by insertion: the
checks on the way pass exactly when the node comes with the height 0.
-/

namespace Yjkos
namespace Bst

open AvlTree BinaryTree

def keysOf (m : Nodes) (t : BinaryTree ℕ) : List ℤ :=
  (inorder t).map fun a => (m a).key

theorem orderedInsert_between {xs ys : List ℤ} {key : ℤ}
    (hbefore : ∀ k ∈ xs, k < key) (hafter : ∀ k ∈ ys, key < k) :
    (xs ++ ys).orderedInsert (· ≤ ·) key = xs ++ key :: ys := by
  induction xs with
  | nil =>
      cases ys with
      | nil => rfl
      | cons k ys =>
          have hle : key ≤ k := (hafter k List.mem_cons_self).le
          exact List.orderedInsert_cons_of_le _ _ hle
  | cons k xs ih =>
      have hlt : ¬ key ≤ k := not_le.mpr (hbefore k List.mem_cons_self)
      rw [List.cons_append, List.orderedInsert_of_not_le _ _ hlt,
        ih fun k' hk' => hbefore k' (List.mem_cons_of_mem _ hk')]
      rfl

theorem balanced_climb_leaf {ctx : List (Frame ℕ)} {node : ℕ}
    (hbalanced : HeightBalanced (plug ctx .nil)) :
    HeightBalanced (climb ctx (leaf node)) := by
  have hctx := ((balanced_plug ctx .nil).mp hbalanced).2
  apply balanced_climb_of_higher hctx
  · simp [leaf, HeightBalanced]
  · simp
  · simp [leaf]

theorem bstInsertNode_of_height_zero {b : Bst} {t : BinaryTree ℕ}
    (havl : Avl b t) {node : ℕ} (hfresh : node ∉ inorder t)
    (hzero : (b.nodes node).height = 0) {key : ℤ}
    (habsent : ∀ a ∈ inorder t, (b.nodes a).key ≠ key) (data : ℕ)
    {fuel : ℕ} (hfuel : (inorder t).length + 1 < fuel) :
    ∃ b' t', bstInsertNode fuel b node key data = .ok b' ∧ Avl b' t' ∧
      (inorder t').Perm (node :: inorder t) ∧
      SamePayload (filledNodes b.nodes node key data) b'.nodes ∧
      keysOf b'.nodes t' =
        (keysOf b.nodes t).orderedInsert (· ≤ ·) key := by
  obtain ⟨b', hinsert, hvalid, hpayload⟩ := bstInsertNode_valid havl.valid
    hfresh hzero habsent data hfuel
  have hplug := plug_insertPath (fun a => (b.nodes a).key) key t
  have hheight := height_le_length t
  obtain ⟨_, hbefore, hafter⟩ := insertLoop_eq havl.valid.linked
    havl.valid.sorted habsent (by omega : t.height < fuel) none
  generalize insertPath (fun a => (b.nodes a).key) key t = ctx at *
  subst hplug
  have hbalanced := havl.valid.avl_iff.mp havl
  have hkeys : ∀ a ∈ before ctx ++ after ctx,
      (b'.nodes a).key = (b.nodes a).key := by
    intro a ha
    have hne : a ≠ node := by
      rintro rfl
      exact hfresh (by simpa [inorder_plug, inorder] using ha)
    rw [hpayload.key, filledNodes_of_ne hne]
  refine ⟨b', climb ctx (leaf node), hinsert,
    hvalid.avl_iff.mpr (balanced_climb_leaf hbalanced), ?_, hpayload, ?_⟩
  · simp [inorder_climb, inorder_plug, leaf, inorder]
  · have hself : (b'.nodes node).key = key := by
      rw [hpayload.key, filledNodes_self]
    rw [keysOf, keysOf, inorder_climb, inorder_plug]
    simp only [leaf, inorder, List.nil_append, List.append_assoc,
      List.cons_append, List.map_append, List.map_cons, hself]
    rw [orderedInsert_between]
    · rw [List.map_congr_left fun a ha =>
          hkeys a (List.mem_append_left _ ha),
        List.map_congr_left fun a ha => hkeys a (List.mem_append_right _ ha)]
    · simpa using hbefore
    · simpa using hafter

/-- `bst_insert_node` of a zero-filled node keeps the tree height balanced. -/
theorem bstInsertNode_avl {b : Bst} {t : BinaryTree ℕ} (havl : Avl b t)
    {node : ℕ} (hfresh : node ∉ inorder t)
    (hzeroed : b.nodes node = BstNode.zeroed) {key : ℤ}
    (habsent : ∀ a ∈ inorder t, (b.nodes a).key ≠ key) (data : ℕ)
    {fuel : ℕ} (hfuel : (inorder t).length + 1 < fuel) :
    ∃ b' t', bstInsertNode fuel b node key data = .ok b' ∧ Avl b' t' ∧
      TrueValues b'.nodes t' ∧ (inorder t').Perm (node :: inorder t) ∧
      keysOf b'.nodes t' =
        (keysOf b.nodes t).orderedInsert (· ≤ ·) key := by
  have hzero : (b.nodes node).height = 0 := by rw [hzeroed, BstNode.zeroed]
  obtain ⟨b', t', hinsert, havl', hnodes, _, hkeys⟩ :=
    bstInsertNode_of_height_zero havl hfresh hzero habsent data hfuel
  exact ⟨b', t', hinsert, havl', havl'.valid.trueValues, hnodes, hkeys⟩

/-- The key 5 enters the leaning tree below 4, and 3 is rotated. -/
theorem leaningBst_insert_five : ∃ b' t',
    bstInsertNode 7 leaningBst 5 5 0 = .ok b' ∧ Avl b' t' ∧
      keysOf b'.nodes t' = [1, 2, 3, 4, 5] := by
  obtain ⟨b', t', hinsert, havl, _, _, hkeys⟩ :=
    @bstInsertNode_avl leaningBst leaningTree avl_leaningBst 5 (by decide) rfl
      5 (by decide) 0 7 (by decide)
  exact ⟨b', t', hinsert, havl, hkeys.trans (by decide)⟩

/-! ## The height of the new node -/

theorem checkNode_leaf {m : Nodes} {flags : CheckFlags} {fuel a : ℕ}
    {parent : Ptr} (hflag : flags.noHeight = false)
    (hleaf : (m a).children = fun _ => none)
    (hpass : checkNode m flags (fuel + 1) a parent = .ok false) :
    (m a).height = 0 := by
  obtain ⟨badParent, _, hrest⟩ := bind_eq_ok hpass
  obtain ⟨badHeight, hheight, hrest⟩ := bind_eq_ok hrest
  obtain ⟨badBf, _, hall⟩ := bind_eq_ok hrest
  simp only [Except.ok.injEq, Bool.or_eq_false_iff] at hall
  obtain rfl := hall.1.2
  have hexpected : heightOfSubtree m (fuel + 1) a = .ok 0 := by
    simp [heightOfSubtree, hleaf, childHeight]
  simpa [heightDiffers, hflag, hexpected] using hheight

theorem checkSubtree_leaf {m : Nodes} {preaction : Bool} {flags : CheckFlags}
    {t : BinaryTree ℕ} {parent : Ptr} {fuel a : ℕ}
    (hlinked : Linked m t parent) (hflag : flags.noHeight = false)
    (hpass : checkSubtree m preaction flags fuel (rootPtr t) parent = .ok ())
    (ha : a ∈ inorder t) (hleaf : (m a).children = fun _ => none) :
    (m a).height = 0 := by
  induction t generalizing parent fuel with
  | nil => simp [inorder] at ha
  | node c l r ihl ihr =>
      obtain ⟨_, hleft, hright, hl, hr⟩ := hlinked
      cases fuel with
      | zero => simp [checkSubtree] at hpass
      | succ fuel =>
          rw [rootPtr, checkSubtree] at hpass
          obtain ⟨failed, hnode, hrest⟩ := bind_eq_ok hpass
          cases failed with
          | true => simp at hrest
          | false =>
              obtain ⟨_, hpassl, hpassr⟩ := bind_eq_ok hrest
              rw [hleft] at hpassl
              rw [hright] at hpassr
              simp only [inorder, List.mem_append, List.mem_cons] at ha
              rcases ha with ha | rfl | ha
              · exact ihl hl hpassl ha
              · exact checkNode_leaf hflag hleaf hnode
              · exact ihr hr hpassr ha

/-- The recalculation from the new node's parent does not touch the new node,
and its last check sees it. -/
theorem HangsIn.height_eq_zero {b b' : Bst} {t : BinaryTree ℕ}
    {fuel node : ℕ} {key : ℤ} {data : ℕ} {ctx : List (Frame ℕ)}
    (hvalid : Valid b t) (hfuel : (inorder t).length < fuel)
    (h : HangsIn b fuel node key data ctx)
    (hinsert : bstInsertNodeUnbalenced fuel b node key data = .ok b') :
    (b.nodes node).height = 0 := by
  have hvalues := hungNodes_sameValues b.nodes ctx node key data
  have hheight : (hungNodes b.nodes ctx node key data node).height =
      (b.nodes node).height := by
    rw [hvalues.height, filledNodes_self]
  have hleaf : (hungNodes b.nodes ctx node key data node).children =
      fun _ => none := by
    rw [hungNodes_children h.off_spine, filledNodes_self]
  rw [h.unbalenced_eq hvalid hfuel] at hinsert
  obtain ⟨m, hrecalc, hrest⟩ := bind_eq_ok hinsert
  rw [← hheight]
  cases ctx with
  | nil =>
      obtain rfl : hungNodes b.nodes [] node key data = m := by
        simpa [parentPtr, recalculateFrom] using hrecalc
      obtain ⟨_, hpass, _⟩ := bind_eq_ok hrest
      exact checkSubtree_leaf (t := leaf node) h.linked rfl hpass
        (by simp [leaf, inorder]) hleaf
  | cons f ctx =>
      obtain ⟨m₁, hheights, _⟩ := bind_eq_ok hrecalc
      obtain ⟨_, _, hheights⟩ := bind_eq_ok hheights
      obtain ⟨m₂, hloop, hheights⟩ := bind_eq_ok hheights
      obtain ⟨_, hpass, _⟩ := bind_eq_ok hheights
      have hctx := (linked_plug.mp h.linked).2
      have hspine := length_spine_le (f :: ctx) (leaf node)
      have hlength := h.length
      rw [← parentPtr, recalculateHeightLoop_eq hctx
        (by omega : (spine (f :: ctx)).length < fuel),
        Except.ok.injEq] at hloop
      subst hloop
      have hshape := heightsAlong_sameShape
        (hungNodes b.nodes (f :: ctx) node key data) (spine (f :: ctx))
      have houter : Linked (hungNodes b.nodes (f :: ctx) node key data)
          (plug ctx (branch f.side f.value (leaf node) f.sibling)) none :=
        h.linked
      have hsub := hshape.linked (linked_plug.mp houter).1
      rw [(hshape.links f.value).1, hctx.1,
        ← rootPtr_branch f.side f.value (leaf node) f.sibling] at hpass
      rw [← heightsAlong_of_notMem h.off_spine]
      apply checkSubtree_leaf hsub rfl hpass
      · rw [(inorder_branch_perm _ _ _ _).mem_iff]
        simp [leaf, inorder]
      · rw [(hshape.links node).2, hleaf]

/-- A node object which is not in the tree, whatever its fields hold, is
inserted into a height balanced tree exactly when its height field is 0.
Otherwise an integrity check fails. -/
theorem bstInsertNode_avl_iff {b : Bst} {t : BinaryTree ℕ} (havl : Avl b t)
    {node : ℕ} (hfresh : node ∉ inorder t) {key : ℤ}
    (habsent : ∀ a ∈ inorder t, (b.nodes a).key ≠ key) (data : ℕ)
    {fuel : ℕ} (hfuel : (inorder t).length + 1 < fuel) :
    (∃ b' t', bstInsertNode fuel b node key data = .ok b' ∧ Avl b' t' ∧
      keysOf b'.nodes t' =
        (keysOf b.nodes t).orderedInsert (· ≤ ·) key) ↔
      (b.nodes node).height = 0 := by
  constructor
  · rintro ⟨b', t', hinsert, _, _⟩
    obtain ⟨_, _, hinsert⟩ := bind_eq_ok hinsert
    obtain ⟨b₁, hunbalenced, _⟩ := bind_eq_ok hinsert
    exact (havl.valid.hangsIn hfresh habsent data hfuel rfl).height_eq_zero
      havl.valid (by omega) hunbalenced
  · intro hzero
    obtain ⟨b', t', hinsert, havl', _, _, hkeys⟩ :=
      bstInsertNode_of_height_zero havl hfresh hzero habsent data hfuel
    exact ⟨b', t', hinsert, havl', hkeys⟩

/-- The node 5, whose height is 0, enters the leaning tree. -/
theorem leaningBst_insert_zero_height : ∃ b' t',
    bstInsertNode 7 leaningBst 5 9 0 = .ok b' ∧ Avl b' t' ∧
      keysOf b'.nodes t' = [1, 2, 3, 4, 9] := by
  obtain ⟨b', t', hinsert, havl, hkeys⟩ :=
    (@bstInsertNode_avl_iff leaningBst leaningTree avl_leaningBst 5 (by decide)
      9 (by decide) 0 7 (by decide)).mpr rfl
  exact ⟨b', t', hinsert, havl, hkeys.trans (by decide)⟩

/-- The node 3 is removed from above the leaf 4 and inserted again: it still
has the height 1. -/
theorem reinsertion_panics : ∃ b' t', bstRemoveNode 6 leaningBst 3 = .ok b' ∧
    Avl b' t' ∧ 3 ∉ inorder t' ∧
    (∀ a ∈ inorder t', (b'.nodes a).key ≠ 3) ∧
    bstInsertNode 6 b' 3 3 0 = .error (.panic "tree post-check failed") := by
  obtain ⟨b', hremove, hvalid, hpayload⟩ := @bstRemoveNode_valid leaningBst
    [⟨.right, 2, leaf 1⟩] 3 6 .nil (leaf 4) avl_leaningBst.valid (by decide)
  have hnodes : inorder (climb [⟨.right, 2, leaf 1⟩]
      (joined .nil (leaf 4))) = [1, 2, 4] := by decide
  have hrun : (bstRemoveNode 6 leaningBst 3 >>= fun b =>
      bstInsertNode 6 b 3 3 0 >>= fun _ => .ok ()) =
      .error (.panic "tree post-check failed") := by rfl
  refine ⟨b', _, hremove, hvalid.avl_iff.mpr ?_, ?_, ?_, ?_⟩
  · exact balanced_climb_of_single
      (avl_leaningBst.valid.avl_iff.mp avl_leaningBst) (.inl rfl)
  · rw [hnodes]
    decide
  · rw [hnodes]
    intro a ha
    rw [hpayload.key]
    revert a
    decide
  · rw [hremove, ok_bind] at hrun
    rcases bind_eq_error hrun with hinsert | ⟨_, _, hrest⟩
    · exact hinsert
    · contradiction

end Bst
end Yjkos
