import Yjkos.BstRecalculate

/-!
# Relinking

Every operation changes a few pointers and then recalculates heights and
balance factors.  This file says what one pointer write does, and that the
recalculation makes the tree valid again whenever the nodes whose children
have changed lie on the path it follows.
-/

namespace Yjkos
namespace Bst

open AvlTree BinaryTree

/-! ## Pointer writes -/

section Writes

variable (m : Nodes) (a b : ℕ) (d d' : Dir) (p q : Ptr)

@[simp]
theorem setParent_parent :
    (m.setParent a p b).parent = if b = a then p else (m b).parent := by
  unfold Nodes.setParent
  by_cases hb : b = a
  · subst b
    simp
  · simp [hb]

@[simp]
theorem setParent_children :
    (m.setParent a p b).children = (m b).children := by
  unfold Nodes.setParent
  by_cases hb : b = a
  · subst b
    simp
  · simp [hb]

@[simp]
theorem setChild_parent : (m.setChild a d p b).parent = (m b).parent := by
  unfold Nodes.setChild
  by_cases hb : b = a
  · subst b
    simp
  · simp [hb]

@[simp]
theorem setChild_children :
    (m.setChild a d p b).children d' =
      if b = a ∧ d' = d then p else (m b).children d' := by
  unfold Nodes.setChild
  by_cases hb : b = a
  · subst b
    by_cases hd : d' = d
    · subst d'
      simp
    · simp [hd]
  · simp [hb]

theorem setChild_children_of_ne (hb : b ≠ a) :
    (m.setChild a d p b).children = (m b).children := by
  funext d'
  simp [hb]

@[simp]
theorem setParentOf_parent :
    (setParentOf m p q b).parent =
      if p = some b then q else (m b).parent := by
  cases p with
  | none => simp [setParentOf]
  | some a =>
      simp only [setParentOf, setParent_parent, Option.some.injEq]
      by_cases hb : b = a
      · simp [hb]
      · rw [if_neg hb, if_neg fun h => hb h.symm]

@[simp]
theorem setParentOf_children :
    (setParentOf m p q b).children = (m b).children := by
  cases p with
  | none => rfl
  | some a => exact setParent_children m a b q

end Writes

/-- Two memories differ at most in pointers. -/
structure SameValues (m m' : Nodes) : Prop where
  key : ∀ a, (m' a).key = (m a).key
  data : ∀ a, (m' a).data = (m a).data
  height : ∀ a, (m' a).height = (m a).height
  bf : ∀ a, (m' a).bf = (m a).bf

theorem SameValues.refl (m : Nodes) : SameValues m m :=
  ⟨fun _ => rfl, fun _ => rfl, fun _ => rfl, fun _ => rfl⟩

theorem SameValues.trans {m m' m'' : Nodes} (h : SameValues m m')
    (h' : SameValues m' m'') : SameValues m m'' :=
  ⟨fun a => (h'.key a).trans (h.key a),
    fun a => (h'.data a).trans (h.data a),
    fun a => (h'.height a).trans (h.height a),
    fun a => (h'.bf a).trans (h.bf a)⟩

theorem setParent_sameValues (m : Nodes) (a : ℕ) (p : Ptr) :
    SameValues m (m.setParent a p) := by
  constructor
  all_goals
    intro b
    unfold Nodes.setParent
    by_cases hb : b = a
    · subst b
      simp
    · simp [hb]

theorem setChild_sameValues (m : Nodes) (a : ℕ) (d : Dir) (p : Ptr) :
    SameValues m (m.setChild a d p) := by
  constructor
  all_goals
    intro b
    unfold Nodes.setChild
    by_cases hb : b = a
    · subst b
      simp
    · simp [hb]

theorem setParentOf_sameValues (m : Nodes) (p q : Ptr) :
    SameValues m (setParentOf m p q) := by
  cases p with
  | none => exact SameValues.refl m
  | some a => exact setParent_sameValues m a q

theorem SameValues.sorted {m m' : Nodes} (h : SameValues m m')
    {t : BinaryTree ℕ} (hsorted : Sorted m t) : Sorted m' t := by
  unfold Sorted at hsorted ⊢
  simpa only [h.key] using hsorted

theorem SameValues.valid {m m' : Nodes} (h : SameValues m m') {a : ℕ}
    (hchildren : (m' a).children = (m a).children) :
    (HeightOk m a → HeightOk m' a) ∧ (BfOk m a → BfOk m' a) := by
  have hstored : ∀ p, storedHeight m' p = storedHeight m p := by
    intro p
    cases p with
    | none => rfl
    | some c => simp only [storedHeight, h.height]
  simp only [HeightOk, BfOk, heightFromChildren, bfFromChildren, hstored,
    hchildren, h.height, h.bf, imp_self, and_self]

/-! ## The link from above -/

/-- The memory after the node above the hole has been pointed to `p`. -/
def relink (m : Nodes) (ctx : List (Frame ℕ)) (p : Ptr) : Nodes :=
  match ctx with
  | [] => m
  | f :: _ => m.setChild f.value f.side p

/-- The root pointer after the hole has been pointed to `p`. -/
def relinkRoot (root : Ptr) (ctx : List (Frame ℕ)) (p : Ptr) : Ptr :=
  match ctx with
  | [] => p
  | _ :: _ => root

theorem relinkRoot_plug (ctx : List (Frame ℕ)) (t t' : BinaryTree ℕ) :
    relinkRoot (rootPtr (plug ctx t)) ctx (rootPtr t') =
      rootPtr (plug ctx t') := by
  cases ctx with
  | nil => rfl
  | cons f ctx =>
      induction ctx generalizing f t t' with
      | nil => simp [relinkRoot, plug]
      | cons g ctx ih => exact ih _ _ g

theorem relink_sameValues (m : Nodes) (ctx : List (Frame ℕ)) (p : Ptr) :
    SameValues m (relink m ctx p) := by
  cases ctx with
  | nil => exact SameValues.refl m
  | cons f ctx => exact setChild_sameValues m _ _ _

@[simp]
theorem relink_parent (m : Nodes) (ctx : List (Frame ℕ)) (p : Ptr) (b : ℕ) :
    (relink m ctx p b).parent = (m b).parent := by
  cases ctx with
  | nil => rfl
  | cons f ctx => exact setChild_parent m _ _ _ _

theorem relink_children {m : Nodes} {ctx : List (Frame ℕ)} {p : Ptr} {b : ℕ}
    (hb : b ∉ spine ctx) :
    (relink m ctx p b).children = (m b).children := by
  cases ctx with
  | nil => rfl
  | cons f ctx =>
      apply setChild_children_of_ne
      rintro rfl
      exact hb List.mem_cons_self

theorem nodup_outside {ctx : List (Frame ℕ)} {t : BinaryTree ℕ}
    (hnodup : (inorder (plug ctx t)).Nodup) :
    (inorder t).Nodup ∧ (outside ctx).Nodup ∧
      ∀ a ∈ inorder t, a ∉ outside ctx := by
  have hperm := (inorder_plug_perm ctx t).nodup_iff.mp hnodup
  obtain ⟨ht, hctx, hdisj⟩ := List.nodup_append.mp hperm
  exact ⟨ht, hctx, fun a ha ha' => hdisj a ha a ha' rfl⟩

theorem contextLinked_relink {m : Nodes} {ctx : List (Frame ℕ)}
    {hole : Ptr} (hlinked : ContextLinked m ctx hole)
    (hnodup : (outside ctx).Nodup) (p : Ptr) :
    ContextLinked (relink m ctx p) ctx p := by
  cases ctx with
  | nil => trivial
  | cons f ctx =>
      obtain ⟨hparent, _, hother, hsibling, hrest⟩ := hlinked
      have hsame : ∀ a, a ≠ f.value →
          SameLinks m (m.setChild f.value f.side p) a := fun a ha =>
        ⟨setChild_parent m _ _ _ _, setChild_children_of_ne m _ _ _ _ ha⟩
      simp only [outside, List.flatMap_cons, List.cons_append,
        List.nodup_cons, List.mem_append, not_or] at hnodup
      obtain ⟨⟨hnot_sibling, hnot_rest⟩, _⟩ := hnodup
      have hopposite : f.side.opposite ≠ f.side := by
        cases f.side <;> simp [Side.opposite]
      refine ⟨?_, ?_, ?_, hsibling.congr ?_, hrest.congr ?_⟩
      · simpa [relink] using hparent
      · simp [relink]
      · simpa [relink, hopposite] using hother
      · rintro a ha
        exact hsame a fun heq => hnot_sibling (heq ▸ ha)
      · rintro a ha
        exact hsame a fun heq => hnot_rest (heq ▸ ha)

theorem bstDirInParent_eq {m : Nodes} {f : Frame ℕ} {ctx : List (Frame ℕ)}
    {a : ℕ} (hparent : (m a).parent = some f.value)
    (hlinked : ContextLinked m (f :: ctx) (some a))
    (hout : a ∉ outside (f :: ctx)) : bstDirInParent m a = .ok f.side := by
  obtain ⟨_, hchild, hother, _, _⟩ := hlinked
  rw [bstDirInParent, hparent]
  cases hside : f.side with
  | left =>
      rw [hside] at hchild
      simp [hchild]
  | right =>
      -- the other child is in the sibling, which does not hold the node
      rw [hside] at hchild hother
      have hne : (m f.value).children .left ≠ some a := by
        have hother' : (m f.value).children .left = rootPtr f.sibling := hother
        rw [hother']
        intro heq
        apply hout
        simp [outside, mem_of_rootPtr heq]
      simp [hchild, hne]

theorem replaceInParent_eq {b : Bst} {ctx : List (Frame ℕ)} {a : ℕ}
    (hparent : (b.nodes a).parent = parentPtr ctx)
    (hlinked : ContextLinked b.nodes ctx (some a))
    (hout : a ∉ outside ctx) (p : Ptr) :
    replaceInParent b a p =
      .ok ⟨relinkRoot b.root ctx p, relink b.nodes ctx p⟩ := by
  rw [replaceInParent, hparent]
  cases ctx with
  | nil => rfl
  | cons f ctx =>
      simp only [parentPtr, bstDirInParent_eq hparent hlinked hout, ok_bind]
      rfl

/-! ## Valid trees -/

/-- A tree in memory between two operations. -/
structure Valid (b : Bst) (t : BinaryTree ℕ) : Prop where
  root : b.root = rootPtr t
  linked : Linked b.nodes t none
  sorted : Sorted b.nodes t
  heights : ∀ a ∈ inorder t, HeightOk b.nodes a
  bfs : ∀ a ∈ inorder t, BfOk b.nodes a

theorem Valid.checkTree {b : Bst} {t : BinaryTree ℕ} (hvalid : Valid b t)
    {fuel : ℕ} (hfuel : (inorder t).length < fuel) (preaction : Bool)
    (flags : CheckFlags) : checkTree fuel b preaction flags = .ok () := by
  rw [Bst.checkTree, hvalid.root]
  have hheight := height_le_length t
  apply checkSubtree_ok hvalid.linked (by omega)
  intro a ha
  exact ⟨fun _ => hvalid.heights a ha,
    fun _ => ⟨hvalid.heights a ha, hvalid.bfs a ha⟩⟩

theorem Valid.congr {root : Ptr} {m m' : Nodes} {t : BinaryTree ℕ}
    (hvalid : Valid ⟨root, m⟩ t) (hsame : ∀ a ∈ inorder t, m' a = m a) :
    Valid ⟨root, m'⟩ t := by
  have hlinks : ∀ a ∈ inorder t, SameLinks m m' a := by
    intro a ha
    rw [SameLinks, hsame a ha]
    exact ⟨rfl, rfl⟩
  have hchildren : ∀ a ∈ inorder t,
      heightFromChildren m' a = heightFromChildren m a ∧
        bfFromChildren m' a = bfFromChildren m a := by
    intro a ha
    apply heightFromChildren_congr (hlinks a ha)
    intro d c hc
    rw [hsame c (hvalid.linked.child ha hc).1]
  refine ⟨hvalid.root, hvalid.linked.congr hlinks, ?_, ?_, ?_⟩
  · refine List.Pairwise.imp_of_mem ?_ hvalid.sorted
    intro a c ha hc hlt
    simp only [hsame a ha, hsame c hc]
    exact hlt
  · intro a ha
    simp only [HeightOk, hsame a ha, (hchildren a ha).1]
    exact hvalid.heights a ha
  · intro a ha
    simp only [BfOk, hsame a ha, (hchildren a ha).2]
    exact hvalid.bfs a ha

/-- The keys and the data are as before. -/
structure SamePayload (m m' : Nodes) : Prop where
  key : ∀ a, (m' a).key = (m a).key
  data : ∀ a, (m' a).data = (m a).data

theorem SamePayload.refl (m : Nodes) : SamePayload m m :=
  ⟨fun _ => rfl, fun _ => rfl⟩

theorem SamePayload.trans {m m' m'' : Nodes} (h : SamePayload m m')
    (h' : SamePayload m' m'') : SamePayload m m'' :=
  ⟨fun a => (h'.key a).trans (h.key a), fun a => (h'.data a).trans (h.data a)⟩

theorem SameShape.payload {m m' : Nodes} (h : SameShape m m') :
    SamePayload m m' := ⟨h.key, h.data⟩

theorem SameValues.payload {m m' : Nodes} (h : SameValues m m') :
    SamePayload m m' := ⟨h.key, h.data⟩

/-- Heights are recalculated from the innermost node of a context, balance
factors over a subtree which contains the rest of the changed nodes. -/
theorem recalculate_valid {m : Nodes} {f : Frame ℕ}
    {ctx outer : List (Frame ℕ)} {whole t sub : BinaryTree ℕ} {a fuel : ℕ}
    (hinner : whole = plug (f :: ctx) t) (houter : whole = plug outer sub)
    (hroot : rootPtr sub = some a) (hlinked : Linked m whole none)
    (hsorted : Sorted m whole)
    (hpath : ∀ c ∈ spine (f :: ctx), c ∈ inorder sub ++ spine outer)
    (hheights : ∀ c ∈ inorder whole, c ∉ spine (f :: ctx) → HeightOk m c)
    (hbfs : ∀ c ∈ inorder whole, c ∉ inorder sub ++ spine outer → BfOk m c)
    (hfuel : (inorder whole).length < fuel) :
    ∃ m₁ m', bstRecalculateHeight fuel m f.value = .ok m₁ ∧
      bstRecalculateBf fuel m₁ a = .ok m' ∧ SameShape m m' ∧
      Valid ⟨rootPtr whole, m'⟩ whole := by
  have hnodup := hsorted.nodup
  have hctx := (linked_plug.mp (hinner ▸ hlinked)).2
  have hheight := bstRecalculateHeight_eq (hinner ▸ hlinked)
    (hinner ▸ hnodup) (hinner ▸ hheights) (hinner ▸ hfuel)
  have hall := heightOk_after_path (hinner ▸ hlinked) (hinner ▸ hnodup)
    (hinner ▸ hheights)
  rw [← hinner] at hall
  have hshape := heightsAlong_sameShape m (spine (f :: ctx))
  have hlinked₁ := hshape.linked hlinked
  have hsorted₁ := hshape.sorted hsorted
  have hbf := bstRecalculateBf_eq hroot (houter ▸ hlinked₁)
    (houter ▸ hsorted₁)
    (fun c hc => hall c (houter ▸ mem_inorder_of_hole hc)) (houter ▸ hfuel)
  have hshape' := hshape.trans
    (withBfs_sameShape (heightsAlong m (spine (f :: ctx)))
      (inorder sub ++ spine outer))
  refine ⟨_, _, hheight, hbf, hshape', rfl, hshape'.linked hlinked,
    hshape'.sorted hsorted, ?_, ?_⟩
  · exact fun c hc => heightOk_withBfs.mpr (hall c hc)
  · intro c hc
    by_cases hmem : c ∈ inorder sub ++ spine outer
    · exact bfOk_withBfs_of_mem hmem
    · -- neither the node nor its children lie on the path of heights
      apply bfOk_withBfs_of_ok
      have hchildren := (heightFromChildren_congr (hshape.links c) ?_).2
      · rw [BfOk, heightsAlong_bf, hchildren]
        exact hbfs c hc hmem
      · intro d e he
        apply heightsAlong_of_notMem
        intro hon
        exact hmem (hpath c (hctx.parent_mem hon (hlinked.child hc he).2))

theorem recalculateFrom_valid {m : Nodes} {ctx : List (Frame ℕ)}
    {t : BinaryTree ℕ} {fuel : ℕ} (hlinked : Linked m (plug ctx t) none)
    (hsorted : Sorted m (plug ctx t))
    (hok : ∀ c ∈ inorder (plug ctx t), c ∉ spine ctx →
      HeightOk m c ∧ BfOk m c)
    (hfuel : (inorder (plug ctx t)).length < fuel) :
    ∃ m', recalculateFrom fuel m (parentPtr ctx) = .ok m' ∧
      SameShape m m' ∧ Valid ⟨rootPtr (plug ctx t), m'⟩ (plug ctx t) := by
  cases ctx with
  | nil =>
      refine ⟨m, rfl, SameShape.refl m, rfl, hlinked, hsorted, ?_, ?_⟩
      · exact fun c hc => (hok c hc (by simp [spine])).1
      · exact fun c hc => (hok c hc (by simp [spine])).2
  | cons f ctx =>
      have hpath : ∀ c ∈ spine (f :: ctx),
          c ∈ inorder (branch f.side f.value t f.sibling) ++ spine ctx := by
        intro c hc
        rw [List.mem_append, (inorder_branch_perm _ _ _ _).mem_iff]
        rcases List.mem_cons.mp hc with rfl | hc
        · simp
        · exact .inr hc
      obtain ⟨m₁, m', hheight, hbf, hshape, hvalid⟩ :=
        @recalculate_valid m f ctx ctx (plug (f :: ctx) t) t
          (branch f.side f.value t f.sibling) f.value fuel rfl rfl
          (rootPtr_branch _ _ _ _) hlinked hsorted hpath
          (fun c hc hout => (hok c hc hout).1)
          (fun c hc hout => (hok c hc fun hon => hout (hpath c hon)).2) hfuel
      refine ⟨m', ?_, hshape, hvalid⟩
      rw [parentPtr, recalculateFrom, hheight, ok_bind, hbf]

end Bst
end Yjkos
