import Yjkos.BstAvl

/-!
# Rotation and its inverse

The values stored in a valid tree are the heights and the tilts of its
subtrees, so the fields of its nodes are fixed by the tree, the keys and the
data.  Rotating the new root of a rotated subtree back gives the same tree,
and therefore the same fields.
-/

namespace Yjkos
namespace Bst

open AvlTree BinaryTree

/-- The stored heights and balance factors are those of the subtrees; a leaf
has the height 0. -/
def TrueValues (m : Nodes) : BinaryTree ℕ → Prop
  | .nil => True
  | .node a l r =>
      (m a).height = (max l.height r.height : ℕ) ∧
        (m a).bf = (l.height : ℤ) - r.height ∧ TrueValues m l ∧ TrueValues m r

theorem trueValues_iff {m : Nodes} {t : BinaryTree ℕ} {parent : Ptr}
    (hlinked : Linked m t parent) :
    TrueValues m t ↔ ∀ a ∈ inorder t, HeightOk m a ∧ BfOk m a := by
  induction t generalizing parent with
  | nil => simp [TrueValues, inorder]
  | node a l r ihl ihr =>
      obtain ⟨_, hleft, hright, hl, hr⟩ := hlinked
      have hstored : (∀ b ∈ inorder l, HeightOk m b ∧ BfOk m b) →
          (∀ b ∈ inorder r, HeightOk m b ∧ BfOk m b) →
          heightFromChildren m a = (max l.height r.height : ℕ) ∧
            bfFromChildren m a = (l.height : ℤ) - r.height := by
        intro hokl hokr
        rw [heightFromChildren, bfFromChildren, hleft, hright,
          storedHeight_eq hl fun b hb => (hokl b hb).1,
          storedHeight_eq hr fun b hb => (hokr b hb).1]
        refine ⟨?_, rfl⟩
        split <;> omega
      rw [TrueValues, ihl hl, ihr hr]
      simp only [inorder, List.mem_append, List.mem_cons]
      constructor
      · rintro ⟨hheight, hbf, hokl, hokr⟩ b (hb | rfl | hb)
        · exact hokl b hb
        · obtain ⟨hheight', hbf'⟩ := hstored hokl hokr
          exact ⟨hheight.trans hheight'.symm, hbf.trans hbf'.symm⟩
        · exact hokr b hb
      · intro hall
        have hokl := fun b hb => hall b (.inl hb)
        have hokr := fun b hb => hall b (.inr (.inr hb))
        obtain ⟨hheight, hbf⟩ := hall a (.inr (.inl rfl))
        obtain ⟨hheight', hbf'⟩ := hstored hokl hokr
        exact ⟨hheight.trans hheight', hbf.trans hbf', hokl, hokr⟩

theorem Valid.trueValues {b : Bst} {t : BinaryTree ℕ} (hvalid : Valid b t) :
    TrueValues b.nodes t :=
  (trueValues_iff hvalid.linked).mpr fun a ha =>
    ⟨hvalid.heights a ha, hvalid.bfs a ha⟩

theorem nodes_eq_of_linked {m m' : Nodes} {t : BinaryTree ℕ} {parent : Ptr}
    (hlinked : Linked m t parent) (hlinked' : Linked m' t parent)
    (htrue : TrueValues m t) (htrue' : TrueValues m' t)
    (hpayload : SamePayload m m') : ∀ a ∈ inorder t, m' a = m a := by
  induction t generalizing parent with
  | nil => simp [inorder]
  | node b l r ihl ihr =>
      obtain ⟨hparent, hleft, hright, hl, hr⟩ := hlinked
      obtain ⟨hparent', hleft', hright', hl', hr'⟩ := hlinked'
      obtain ⟨hheight, hbf, htl, htr⟩ := htrue
      obtain ⟨hheight', hbf', htl', htr'⟩ := htrue'
      intro a ha
      simp only [inorder, List.mem_append, List.mem_cons] at ha
      rcases ha with ha | rfl | ha
      · exact ihl hl hl' htl htl' a ha
      · have hchildren : (m' a).children = (m a).children := by
          funext d
          cases d
          · rw [hleft, hleft']
          · rw [hright, hright']
        have hkey := hpayload.key a
        have hdata := hpayload.data a
        rw [← hparent] at hparent'
        rw [← hheight] at hheight'
        rw [← hbf] at hbf'
        cases hnode : m a
        cases hnode' : m' a
        simp_all
      · exact ihr hr hr' htr htr' a ha

theorem Valid.nodes_eq {b b' : Bst} {t : BinaryTree ℕ} (hvalid : Valid b t)
    (hvalid' : Valid b' t) (hpayload : SamePayload b.nodes b'.nodes) :
    b'.root = b.root ∧ ∀ a ∈ inorder t, b'.nodes a = b.nodes a :=
  ⟨hvalid'.root.trans hvalid.root.symm,
    nodes_eq_of_linked hvalid.linked hvalid'.linked hvalid.trueValues
      hvalid'.trueValues hpayload⟩

/-- A node with a child on one side, as the rotation to the other side sees
it. -/
theorem exists_branch {m : Nodes} {a c : ℕ} {l r : BinaryTree ℕ}
    {parent : Ptr} {dir : Dir} (hlinked : Linked m (.node a l r) parent)
    (hchild : (m a).children dir.opposite = some c) :
    ∃ x y z, BinaryTree.node a l r = branch dir a x (branch dir c y z) := by
  obtain ⟨_, hleft, hright, _, _⟩ := hlinked
  cases dir with
  | left =>
      rw [Side.opposite, hright] at hchild
      cases r with
      | nil => contradiction
      | node c' y z =>
          obtain rfl : c' = c := Option.some.inj hchild
          exact ⟨l, y, z, rfl⟩
  | right =>
      rw [Side.opposite, hleft] at hchild
      cases l with
      | nil => contradiction
      | node c' z y =>
          obtain rfl : c' = c := Option.some.inj hchild
          exact ⟨r, y, z, rfl⟩

/-- A rotation keeps the order of the nodes and leaves a valid tree with true
heights and balance factors.  The rotation of the new subtree root in the
other direction gives back every field of every node. -/
theorem bstRotate_inverse {b : Bst} {t : BinaryTree ℕ} (hvalid : Valid b t)
    {a c : ℕ} (ha : a ∈ inorder t) {dir : Dir}
    (hchild : (b.nodes a).children dir.opposite = some c) {fuel : ℕ}
    (hfuel : (inorder t).length < fuel) :
    ∃ b' t', bstRotate fuel b a dir = .ok b' ∧ inorder t' = inorder t ∧
      (∃ ctx x y z, t = plug ctx (branch dir a x (branch dir c y z)) ∧
        t' = plug ctx (branch dir c (branch dir a x y) z)) ∧
      Valid b' t' ∧ TrueValues b'.nodes t' ∧ SamePayload b.nodes b'.nodes ∧
      ∃ b'', bstRotate fuel b' c dir.opposite = .ok b'' ∧
        b''.root = b.root ∧ ∀ e ∈ inorder t, b''.nodes e = b.nodes e := by
  obtain ⟨ctx, l, r, rfl⟩ := exists_plug_of_mem ha
  obtain ⟨x, y, z, hbranch⟩ :=
    exists_branch (linked_plug.mp hvalid.linked).1 hchild
  rw [hbranch] at hvalid hfuel ⊢
  obtain ⟨b', hrotate, hvalid', hpayload⟩ := bstRotate_valid hvalid hfuel
  -- seen from the other side, the new subtree has the old root as its child
  have hturn : plug ctx (branch dir c (branch dir a x y) z) =
      plug ctx (branch dir.opposite c z (branch dir.opposite a y x)) := by
    rw [branch_opposite, branch_opposite]
  have hlength : (inorder (plug ctx
      (branch dir c (branch dir a x y) z))).length < fuel := by
    rwa [inorder_rotated]
  refine ⟨b', _, hrotate, inorder_rotated, ⟨ctx, x, y, z, rfl, rfl⟩, hvalid',
    hvalid'.trueValues, hpayload, ?_⟩
  rw [hturn] at hvalid' hlength
  obtain ⟨b'', hback, hvalid'', hpayload'⟩ := bstRotate_valid hvalid' hlength
  rw [branch_opposite, branch_opposite] at hvalid''
  exact ⟨b'', hback, hvalid.nodes_eq hvalid'' (hpayload.trans hpayload')⟩

/-- The root of the leaning tree is rotated to the left and back. -/
theorem leaningBst_rotated : ∃ b' b'', bstRotate 5 leaningBst 2 .left =
    .ok b' ∧ bstRotate 5 b' 3 .right = .ok b'' ∧ b''.nodes 4 =
    leaningNodes 4 := by
  obtain ⟨b', _, hrotate, _, _, _, _, _, b'', hback, _, hsame⟩ :=
    @bstRotate_inverse leaningBst leaningTree avl_leaningBst.valid 2 3
      (by decide) .left rfl 5 (by decide)
  exact ⟨b', b'', hrotate, hback, hsame 4 (by decide)⟩

end Bst
end Yjkos
