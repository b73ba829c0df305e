import Yjkos.BstModel

/-!
# Trees in memory

`Linked` says that the pointers of a memory spell out a binary tree of
addresses.  Heights and balance factors are valid when they agree with what
the heights stored in the children give; this is a condition on single nodes,
so a frame argument for them needs only to look at a node and its children.
-/

namespace Yjkos
namespace Bst

open AvlTree BinaryTree

/-! ## Links -/

def rootPtr : BinaryTree ℕ → Ptr
  | .nil => none
  | .node a _ _ => some a

/-- The parent of whatever stands in the hole of a context. -/
def parentPtr : List (Frame ℕ) → Ptr
  | [] => none
  | f :: _ => some f.value

/-- The nodes of a tree point to their children and to their parents. -/
def Linked (m : Nodes) : BinaryTree ℕ → Ptr → Prop
  | .nil, _ => True
  | .node a l r, parent =>
      (m a).parent = parent ∧ (m a).children .left = rootPtr l ∧
        (m a).children .right = rootPtr r ∧
        Linked m l (some a) ∧ Linked m r (some a)

/-- The nodes of a context point to each other, with `hole` in the hole. -/
def ContextLinked (m : Nodes) : List (Frame ℕ) → Ptr → Prop
  | [], _ => True
  | f :: ctx, hole =>
      (m f.value).parent = parentPtr ctx ∧
        (m f.value).children f.side = hole ∧
        (m f.value).children f.side.opposite = rootPtr f.sibling ∧
        Linked m f.sibling (some f.value) ∧
        ContextLinked m ctx (some f.value)

@[simp]
theorem rootPtr_branch (s : Side) (a : ℕ) (x y : BinaryTree ℕ) :
    rootPtr (branch s a x y) = some a := by
  cases s <;> rfl

theorem rootPtr_eq_none {t : BinaryTree ℕ} : rootPtr t = none ↔ t = .nil := by
  cases t <;> simp [rootPtr]

theorem mem_of_rootPtr {t : BinaryTree ℕ} {a : ℕ} (h : rootPtr t = some a) :
    a ∈ inorder t := by
  cases t with
  | nil => contradiction
  | node b l r =>
      obtain rfl : b = a := Option.some.inj h
      simp [inorder]

theorem linked_branch {m : Nodes} {s : Side} {a : ℕ} {x y : BinaryTree ℕ}
    {parent : Ptr} :
    Linked m (branch s a x y) parent ↔
      (m a).parent = parent ∧ (m a).children s = rootPtr x ∧
        (m a).children s.opposite = rootPtr y ∧
        Linked m x (some a) ∧ Linked m y (some a) := by
  cases s
  · rfl
  · simp only [branch, Linked, Side.opposite]
    tauto

theorem linked_plug {m : Nodes} {ctx : List (Frame ℕ)}
    {t : BinaryTree ℕ} :
    Linked m (plug ctx t) none ↔
      Linked m t (parentPtr ctx) ∧ ContextLinked m ctx (rootPtr t) := by
  induction ctx generalizing t with
  | nil => simp [plug, parentPtr, ContextLinked]
  | cons f ctx ih =>
      rw [plug, ih, linked_branch, rootPtr_branch]
      simp only [parentPtr, ContextLinked]
      tauto

/-- Two memories have the same pointers at an address. -/
def SameLinks (m m' : Nodes) (a : ℕ) : Prop :=
  (m' a).parent = (m a).parent ∧ (m' a).children = (m a).children

theorem Linked.congr {m m' : Nodes} {t : BinaryTree ℕ} {parent : Ptr}
    (hlinked : Linked m t parent)
    (hsame : ∀ a ∈ inorder t, SameLinks m m' a) : Linked m' t parent := by
  induction t generalizing parent with
  | nil => trivial
  | node a l r ihl ihr =>
      obtain ⟨hparent, hleft, hright, hl, hr⟩ := hlinked
      obtain ⟨hparent', hchildren'⟩ := hsame a (by simp [inorder])
      refine ⟨hparent'.trans hparent, ?_, ?_, ihl hl ?_, ihr hr ?_⟩
      · rw [hchildren', hleft]
      · rw [hchildren', hright]
      · exact fun b hb => hsame b (by simp [inorder, hb])
      · exact fun b hb => hsame b (by simp [inorder, hb])

theorem ContextLinked.congr {m m' : Nodes} {ctx : List (Frame ℕ)}
    {hole : Ptr} (hlinked : ContextLinked m ctx hole)
    (hsame : ∀ a ∈ outside ctx, SameLinks m m' a) :
    ContextLinked m' ctx hole := by
  induction ctx generalizing hole with
  | nil => trivial
  | cons f ctx ih =>
      obtain ⟨hparent, hchild, hother, hsibling, hrest⟩ := hlinked
      simp only [outside, List.flatMap_cons, List.mem_append,
        List.mem_cons] at hsame
      obtain ⟨hparent', hchildren'⟩ := hsame f.value (.inl (.inl rfl))
      refine ⟨hparent'.trans hparent, ?_, ?_, hsibling.congr ?_, ih hrest ?_⟩
      · rw [hchildren', hchild]
      · rw [hchildren', hother]
      · exact fun a ha => hsame a (.inl (.inr ha))
      · exact fun a ha => hsame a (.inr ha)

theorem Linked.reparent {m m' : Nodes} {t : BinaryTree ℕ} {old new : Ptr}
    (hlinked : Linked m t old)
    (hroot : ∀ a, rootPtr t = some a →
      (m' a).parent = new ∧ (m' a).children = (m a).children)
    (hsame : ∀ a ∈ inorder t, rootPtr t ≠ some a → SameLinks m m' a)
    (hnodup : (inorder t).Nodup) : Linked m' t new := by
  cases t with
  | nil => trivial
  | node a l r =>
      obtain ⟨_, hleft, hright, hl, hr⟩ := hlinked
      obtain ⟨hparent', hchildren'⟩ := hroot a rfl
      have hnodup' := (List.perm_middle.nodup_iff).mp hnodup
      rw [List.nodup_cons] at hnodup'
      have hne : ∀ b ∈ inorder l ++ inorder r,
          rootPtr (.node a l r) ≠ some b := by
        intro b hb heq
        obtain rfl : a = b := Option.some.inj heq
        exact hnodup'.1 hb
      refine ⟨hparent', ?_, ?_, hl.congr ?_, hr.congr ?_⟩
      · rw [hchildren', hleft]
      · rw [hchildren', hright]
      · exact fun b hb =>
          hsame b (by simp [inorder, hb]) (hne b (by simp [hb]))
      · exact fun b hb =>
          hsame b (by simp [inorder, hb]) (hne b (by simp [hb]))

/-- In a linked tree the children of a node are nodes which name it as their
parent. -/
theorem Linked.child {m : Nodes} {t : BinaryTree ℕ} {parent : Ptr}
    (hlinked : Linked m t parent) {a c : ℕ} (ha : a ∈ inorder t) {d : Dir}
    (hchild : (m a).children d = some c) :
    c ∈ inorder t ∧ (m c).parent = some a := by
  induction t generalizing parent with
  | nil => simp [inorder] at ha
  | node b l r ihl ihr =>
      obtain ⟨_, hleft, hright, hl, hr⟩ := hlinked
      have hroot : ∀ {s : BinaryTree ℕ}, Linked m s (some b) →
          rootPtr s = some c → c ∈ inorder s ∧ (m c).parent = some b := by
        intro s hs hc
        refine ⟨mem_of_rootPtr hc, ?_⟩
        cases s with
        | nil => contradiction
        | node c' sl sr =>
            obtain rfl : c' = c := Option.some.inj hc
            exact hs.1
      simp only [inorder, List.mem_append, List.mem_cons] at ha ⊢
      rcases ha with ha | rfl | ha
      · obtain ⟨hmem, hpar⟩ := ihl hl ha
        exact ⟨.inl hmem, hpar⟩
      · cases d
        · obtain ⟨hmem, hpar⟩ := hroot hl (hleft ▸ hchild)
          exact ⟨.inl hmem, hpar⟩
        · obtain ⟨hmem, hpar⟩ := hroot hr (hright ▸ hchild)
          exact ⟨.inr (.inr hmem), hpar⟩
      · obtain ⟨hmem, hpar⟩ := ihr hr ha
        exact ⟨.inr (.inr hmem), hpar⟩

/-! ## Heights and balance factors -/

def HeightOk (m : Nodes) (a : ℕ) : Prop :=
  (m a).height = heightFromChildren m a

def BfOk (m : Nodes) (a : ℕ) : Prop :=
  (m a).bf = bfFromChildren m a

theorem storedHeight_eq {m : Nodes} {t : BinaryTree ℕ} {parent : Ptr}
    (hlinked : Linked m t parent) (hok : ∀ a ∈ inorder t, HeightOk m a) :
    storedHeight m (rootPtr t) = t.height := by
  induction t generalizing parent with
  | nil => rfl
  | node a l r ihl ihr =>
      obtain ⟨_, hleft, hright, hl, hr⟩ := hlinked
      have hlh := ihl hl fun b hb => hok b (by simp [inorder, hb])
      have hrh := ihr hr fun b hb => hok b (by simp [inorder, hb])
      have ha : (m a).height = _ := hok a (by simp [inorder])
      simp only [heightFromChildren, hleft, hright, hlh, hrh] at ha
      simp only [storedHeight, rootPtr, ha, height]
      split <;> omega

theorem bfFromChildren_eq {m : Nodes} {a : ℕ} {l r : BinaryTree ℕ}
    {parent : Ptr} (hlinked : Linked m (.node a l r) parent)
    (hok : ∀ b ∈ inorder (.node a l r), HeightOk m b) :
    bfFromChildren m a = (l.height : ℤ) - r.height := by
  obtain ⟨_, hleft, hright, hl, hr⟩ := hlinked
  rw [bfFromChildren, hleft, hright,
    storedHeight_eq hl fun b hb => hok b (by simp [inorder, hb]),
    storedHeight_eq hr fun b hb => hok b (by simp [inorder, hb])]

/-! ## The integrity checks pass -/

theorem childHeight_eq {m : Nodes} {t : BinaryTree ℕ} {parent : Ptr}
    (hlinked : Linked m t parent) {fuel : ℕ} (hfuel : t.height ≤ fuel) :
    childHeight (heightOfSubtree m fuel) (rootPtr t) = .ok (t.height : ℤ) := by
  induction t generalizing parent fuel with
  | nil => rfl
  | node a l r ihl ihr =>
      obtain ⟨_, hleft, hright, hl, hr⟩ := hlinked
      rw [height] at hfuel
      obtain ⟨fuel, rfl⟩ := Nat.exists_eq_add_one_of_ne_zero
        (by omega : fuel ≠ 0)
      have hlh := ihl hl (by omega : l.height ≤ fuel)
      have hrh := ihr hr (by omega : r.height ≤ fuel)
      simp only [childHeight, rootPtr] at hlh hrh ⊢
      simp only [heightOfSubtree, childHeight, hleft, hright, rootPtr, hlh,
        hrh, ok_bind, height]
      congr 1
      split <;> omega

theorem heightOfSubtree_eq {m : Nodes} {a : ℕ} {l r : BinaryTree ℕ}
    {parent : Ptr} (hlinked : Linked m (.node a l r) parent) {fuel : ℕ}
    (hfuel : (BinaryTree.node a l r).height ≤ fuel)
    (hok : ∀ b ∈ inorder (.node a l r), HeightOk m b) :
    heightOfSubtree m fuel a = .ok (m a).height := by
  have hchild := childHeight_eq hlinked hfuel
  have hstored := storedHeight_eq hlinked hok
  simp only [childHeight, rootPtr, storedHeight] at hchild hstored
  cases hheight : heightOfSubtree m fuel a with
  | error e =>
      rw [hheight] at hchild
      contradiction
  | ok h =>
      rw [hheight, ok_bind, Except.ok.injEq] at hchild
      congr 1
      omega

theorem balenceFactor_eq {m : Nodes} {a : ℕ} {l r : BinaryTree ℕ}
    {parent : Ptr} (hlinked : Linked m (.node a l r) parent) {fuel : ℕ}
    (hfuel : (BinaryTree.node a l r).height ≤ fuel)
    (hok : ∀ b ∈ inorder (.node a l r), HeightOk m b) :
    balenceFactor m fuel a = .ok (bfFromChildren m a) := by
  rw [bfFromChildren_eq hlinked hok]
  obtain ⟨_, hleft, hright, hl, hr⟩ := hlinked
  rw [height] at hfuel
  rw [balenceFactor, hleft, hright, childHeight_eq hl (by omega),
    childHeight_eq hr (by omega)]
  rfl

/-- What `check_subtree` demands of one node under the given flags. -/
def Passes (m : Nodes) (flags : CheckFlags) (a : ℕ) : Prop :=
  (flags.noHeight = false → HeightOk m a) ∧
    (flags.noBf = false → HeightOk m a ∧ BfOk m a)

theorem checkNode_ok {m : Nodes} {flags : CheckFlags} {a : ℕ}
    {l r : BinaryTree ℕ} {parent : Ptr}
    (hlinked : Linked m (.node a l r) parent) {fuel : ℕ}
    (hfuel : (BinaryTree.node a l r).height ≤ fuel)
    (hpass : ∀ b ∈ inorder (.node a l r), Passes m flags b) :
    checkNode m flags fuel a parent = .ok false := by
  have hparent : parentDiffers m a parent = .ok false := if_pos hlinked.1
  have hheight : heightDiffers m flags fuel a = .ok false := by
    unfold heightDiffers
    cases hflag : flags.noHeight with
    | true => rfl
    | false =>
        rw [heightOfSubtree_eq hlinked hfuel fun b hb =>
          (hpass b hb).1 hflag]
        simp
  have hbf : bfDiffers m flags fuel a = .ok false := by
    unfold bfDiffers
    cases hflag : flags.noBf with
    | true => rfl
    | false =>
        have ha := (hpass a (by simp [inorder])).2 hflag
        rw [balenceFactor_eq hlinked hfuel fun b hb =>
          ((hpass b hb).2 hflag).1, ← ha.2]
        simp
  rw [checkNode, hparent, hheight, hbf]
  rfl

theorem checkSubtree_ok {m : Nodes} {preaction : Bool} {flags : CheckFlags}
    {t : BinaryTree ℕ} {parent : Ptr} (hlinked : Linked m t parent)
    {fuel : ℕ} (hfuel : t.height < fuel)
    (hpass : ∀ a ∈ inorder t, Passes m flags a) :
    checkSubtree m preaction flags fuel (rootPtr t) parent = .ok () := by
  induction t generalizing parent fuel with
  | nil =>
      obtain ⟨fuel, rfl⟩ := Nat.exists_eq_add_one_of_ne_zero
        (by omega : fuel ≠ 0)
      rfl
  | node a l r ihl ihr =>
      obtain ⟨fuel, rfl⟩ := Nat.exists_eq_add_one_of_ne_zero
        (by omega : fuel ≠ 0)
      have hnode := checkNode_ok hlinked hfuel.le hpass
      obtain ⟨_, hleft, hright, hl, hr⟩ := hlinked
      rw [height] at hfuel
      have hleft_ok := ihl hl (by omega : l.height < fuel)
        fun b hb => hpass b (by simp [inorder, hb])
      have hright_ok := ihr hr (by omega : r.height < fuel)
        fun b hb => hpass b (by simp [inorder, hb])
      rw [rootPtr, checkSubtree, hnode, hleft, hright]
      simp [hleft_ok, hright_ok]

end Bst
end Yjkos
