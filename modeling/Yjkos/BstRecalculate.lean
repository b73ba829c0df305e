import Yjkos.BstRep

/-!
# Recalculating heights and balance factors

Heights are rewritten along the path to the root, balance factors over a
whole subtree in key order and then along the path to the root.  Both leave
the links, the keys and the data alone.
-/

namespace Yjkos
namespace Bst

open AvlTree BinaryTree

/-- The keys along a tree are strictly increasing. -/
def Sorted (m : Nodes) (t : BinaryTree ℕ) : Prop :=
  (inorder t).Pairwise fun a b => (m a).key < (m b).key

theorem Sorted.nodup {m : Nodes} {t : BinaryTree ℕ} (hsorted : Sorted m t) :
    (inorder t).Nodup := by
  refine List.Pairwise.imp ?_ hsorted
  rintro a b hlt rfl
  exact lt_irrefl _ hlt

/-- Two memories differ at most in heights and balance factors. -/
structure SameShape (m m' : Nodes) : Prop where
  links : ∀ a, SameLinks m m' a
  key : ∀ a, (m' a).key = (m a).key
  data : ∀ a, (m' a).data = (m a).data

theorem SameShape.refl (m : Nodes) : SameShape m m :=
  ⟨fun _ => ⟨rfl, rfl⟩, fun _ => rfl, fun _ => rfl⟩

theorem SameShape.trans {m m' m'' : Nodes} (h : SameShape m m')
    (h' : SameShape m' m'') : SameShape m m'' := by
  refine ⟨fun a => ⟨?_, ?_⟩, fun a => ?_, fun a => ?_⟩
  · rw [(h'.links a).1, (h.links a).1]
  · rw [(h'.links a).2, (h.links a).2]
  · rw [h'.key, h.key]
  · rw [h'.data, h.data]

theorem SameShape.linked {m m' : Nodes} (h : SameShape m m')
    {t : BinaryTree ℕ} {parent : Ptr} (hlinked : Linked m t parent) :
    Linked m' t parent :=
  hlinked.congr fun a _ => h.links a

theorem SameShape.sorted {m m' : Nodes} (h : SameShape m m')
    {t : BinaryTree ℕ} (hsorted : Sorted m t) : Sorted m' t := by
  unfold Sorted at hsorted ⊢
  simpa only [h.key] using hsorted

/-! ## Heights -/

/-- The memory after heights were rewritten along a list of nodes. -/
def heightsAlong (m : Nodes) : List ℕ → Nodes
  | [] => m
  | a :: rest => heightsAlong (m.setHeight a (heightFromChildren m a)) rest

theorem setHeight_sameShape (m : Nodes) (a : ℕ) (h : ℤ) :
    SameShape m (m.setHeight a h) := by
  refine ⟨fun b => ?_, fun b => ?_, fun b => ?_⟩
  all_goals
    unfold Nodes.setHeight
    by_cases hb : b = a
    · subst b
      simp [SameLinks]
    · simp [SameLinks, hb]

theorem setHeight_bf (m : Nodes) (a b : ℕ) (h : ℤ) :
    (m.setHeight a h b).bf = (m b).bf := by
  unfold Nodes.setHeight
  by_cases hb : b = a
  · subst b
    simp
  · simp [hb]

theorem heightsAlong_sameShape (m : Nodes) (path : List ℕ) :
    SameShape m (heightsAlong m path) := by
  induction path generalizing m with
  | nil => exact SameShape.refl m
  | cons a rest ih => exact (setHeight_sameShape m a _).trans (ih _)

theorem heightsAlong_bf (m : Nodes) (path : List ℕ) (b : ℕ) :
    (heightsAlong m path b).bf = (m b).bf := by
  induction path generalizing m with
  | nil => rfl
  | cons a rest ih => rw [heightsAlong, ih, setHeight_bf]

theorem heightsAlong_of_notMem {m : Nodes} {path : List ℕ} {b : ℕ}
    (hb : b ∉ path) : (heightsAlong m path b).height = (m b).height := by
  induction path generalizing m with
  | nil => rfl
  | cons a rest ih =>
      rw [List.mem_cons, not_or] at hb
      rw [heightsAlong, ih hb.2]
      simp [Nodes.setHeight, hb.1]

theorem heightFromChildren_congr {m m' : Nodes} {a : ℕ}
    (hlinks : SameLinks m m' a)
    (hheight : ∀ d c, (m a).children d = some c →
      (m' c).height = (m c).height) :
    heightFromChildren m' a = heightFromChildren m a ∧
      bfFromChildren m' a = bfFromChildren m a := by
  have hstored : ∀ d, storedHeight m' ((m' a).children d) =
      storedHeight m ((m a).children d) := by
    intro d
    rw [hlinks.2]
    cases hchild : (m a).children d with
    | none => rfl
    | some c => simp only [storedHeight, hheight d c hchild]
  simp only [heightFromChildren, bfFromChildren, hstored, and_self]

theorem setHeight_self (m : Nodes) (a : ℕ) (h : ℤ) :
    (m.setHeight a h a).height = h := by
  simp [Nodes.setHeight]

/-- A path on which no node is a child of itself or of an earlier node gets
valid heights. -/
theorem heightOk_heightsAlong {m : Nodes} {path : List ℕ}
    (hself : ∀ a ∈ path, ∀ d, (m a).children d ≠ some a)
    (hlater : path.Pairwise fun a c => ∀ d, (m a).children d ≠ some c)
    (hnodup : path.Nodup) :
    ∀ a ∈ path, HeightOk (heightsAlong m path) a := by
  induction path generalizing m with
  | nil => simp
  | cons b rest ih =>
      rw [List.pairwise_cons] at hlater
      rw [List.nodup_cons] at hnodup
      have hshape := setHeight_sameShape m b (heightFromChildren m b)
      intro a ha
      rw [heightsAlong]
      rcases List.mem_cons.mp ha with rfl | ha
      · -- the children of the first node are not on the path
        have hrest := heightsAlong_sameShape
          (m.setHeight a (heightFromChildren m a)) rest
        have hchildren := (heightFromChildren_congr
          ((hshape.trans hrest).links a) ?_).1
        · rw [HeightOk, hchildren, heightsAlong_of_notMem hnodup.1,
            setHeight_self]
        · intro d c hc
          have hne : c ≠ a := by
            rintro rfl
            exact hself c List.mem_cons_self d hc
          have hout : c ∉ rest := fun hin => hlater.1 c hin d hc
          rw [heightsAlong_of_notMem hout]
          simp [Nodes.setHeight, hne]
      · refine ih ?_ ?_ hnodup.2 a ha
        · intro c hc d
          rw [(hshape.links c).2]
          exact hself c (List.mem_cons_of_mem _ hc) d
        · refine hlater.2.imp ?_
          intro c c' hcc d
          rw [(hshape.links c).2]
          exact hcc d

/-! ## Paths to the root -/

theorem ContextLinked.parent_mem {m : Nodes} {ctx : List (Frame ℕ)}
    {hole : Ptr} (hlinked : ContextLinked m ctx hole) {c p : ℕ}
    (hc : c ∈ spine ctx) (hparent : (m c).parent = some p) :
    p ∈ spine ctx := by
  induction ctx generalizing hole with
  | nil => simp [spine] at hc
  | cons f ctx ih =>
      obtain ⟨hpar, _, _, _, hrest⟩ := hlinked
      rcases List.mem_cons.mp hc with rfl | hc
      · rw [hpar] at hparent
        cases ctx with
        | nil => contradiction
        | cons g ctx =>
            obtain rfl : g.value = p := Option.some.inj hparent
            simp [spine]
      · exact List.mem_cons_of_mem _ (ih hrest hc)

theorem ContextLinked.parent_ne {m : Nodes} {ctx : List (Frame ℕ)}
    {hole : Ptr} (hlinked : ContextLinked m ctx hole)
    (hnodup : (spine ctx).Nodup) :
    (∀ c ∈ spine ctx, (m c).parent ≠ some c) ∧
      (spine ctx).Pairwise fun b c => (m c).parent ≠ some b := by
  induction ctx generalizing hole with
  | nil => simp [spine]
  | cons f ctx ih =>
      obtain ⟨hpar, _, _, _, hrest⟩ := hlinked
      obtain ⟨hout, hnodup⟩ := List.nodup_cons.mp hnodup
      obtain ⟨hself, hpairs⟩ := ih hrest hnodup
      constructor
      · intro c hc
        rcases List.mem_cons.mp hc with rfl | hc
        · rw [hpar]
          cases ctx with
          | nil => simp [parentPtr]
          | cons g ctx =>
              intro heq
              apply hout
              rw [← Option.some.inj heq]
              exact List.mem_cons_self
        · exact hself c hc
      · refine List.pairwise_cons.mpr ⟨?_, hpairs⟩
        intro c hc hparent
        exact hout (hrest.parent_mem hc hparent)

theorem nodup_spine {ctx : List (Frame ℕ)} {t : BinaryTree ℕ}
    (hnodup : (inorder (plug ctx t)).Nodup) : (spine ctx).Nodup := by
  have hperm := (inorder_plug_perm ctx t).nodup_iff.mp hnodup
  have hout : (outside ctx).Nodup := (List.nodup_append.mp hperm).2.1
  clear hperm hnodup
  induction ctx with
  | nil => exact List.nodup_nil
  | cons f ctx ih =>
      simp only [outside, List.flatMap_cons] at hout
      obtain ⟨hfirst, hrest, hdisj⟩ := List.nodup_append.mp hout
      refine List.nodup_cons.mpr ⟨?_, ih hrest⟩
      intro hmem
      exact hdisj f.value List.mem_cons_self f.value
        (spine_subset_outside ctx _ hmem) rfl

theorem mem_inorder_of_spine {ctx : List (Frame ℕ)} {t : BinaryTree ℕ}
    {a : ℕ} (ha : a ∈ spine ctx) : a ∈ inorder (plug ctx t) := by
  rw [(inorder_plug_perm ctx t).mem_iff]
  exact List.mem_append_right _ (spine_subset_outside ctx a ha)

theorem mem_inorder_of_hole {ctx : List (Frame ℕ)} {t : BinaryTree ℕ}
    {a : ℕ} (ha : a ∈ inorder t) : a ∈ inorder (plug ctx t) := by
  rw [(inorder_plug_perm ctx t).mem_iff]
  exact List.mem_append_left _ ha

theorem length_spine_le (ctx : List (Frame ℕ)) (t : BinaryTree ℕ) :
    (spine ctx).length + (inorder t).length ≤
      (inorder (plug ctx t)).length := by
  rw [(inorder_plug_perm ctx t).length_eq, List.length_append]
  have hle : (spine ctx).length ≤ (outside ctx).length := by
    induction ctx with
    | nil => rfl
    | cons f ctx ih =>
        simp only [spine, outside, List.map_cons, List.flatMap_cons,
          List.length_cons, List.length_append] at ih ⊢
        omega
  omega

/-- Rewriting the heights along the path makes all heights valid when those
off the path are. -/
theorem heightOk_after_path {m : Nodes} {ctx : List (Frame ℕ)}
    {t : BinaryTree ℕ} (hlinked : Linked m (plug ctx t) none)
    (hnodup : (inorder (plug ctx t)).Nodup)
    (hok : ∀ a ∈ inorder (plug ctx t), a ∉ spine ctx → HeightOk m a) :
    ∀ a ∈ inorder (plug ctx t),
      HeightOk (heightsAlong m (spine ctx)) a := by
  have hctx := (linked_plug.mp hlinked).2
  obtain ⟨hself, hpairs⟩ := hctx.parent_ne (nodup_spine hnodup)
  have hparent : ∀ a ∈ spine ctx, ∀ d c, (m a).children d = some c →
      (m c).parent = some a :=
    fun a ha d c hc => (hlinked.child (mem_inorder_of_spine ha) hc).2
  intro a ha
  by_cases hpath : a ∈ spine ctx
  · refine heightOk_heightsAlong ?_ ?_ (nodup_spine hnodup) a hpath
    · intro b hb d hchild
      exact hself b hb (hparent b hb d b hchild)
    · refine List.Pairwise.imp_of_mem ?_ hpairs
      intro b c hb hc hne d hchild
      exact hne (hparent b hb d c hchild)
  · have hshape := heightsAlong_sameShape m (spine ctx)
    have hchildren := (heightFromChildren_congr (hshape.links a) ?_).1
    · rw [HeightOk, heightsAlong_of_notMem hpath, hchildren]
      exact hok a ha hpath
    · intro d c hc
      apply heightsAlong_of_notMem
      intro hmem
      exact hpath (hctx.parent_mem hmem (hlinked.child ha hc).2)

theorem recalculateHeightLoop_eq {m : Nodes} {ctx : List (Frame ℕ)}
    {hole : Ptr} (hlinked : ContextLinked m ctx hole) {fuel : ℕ}
    (hfuel : (spine ctx).length < fuel) :
    recalculateHeightLoop fuel m (parentPtr ctx) =
      .ok (heightsAlong m (spine ctx)) := by
  induction ctx generalizing m hole fuel with
  | nil =>
      obtain ⟨fuel, rfl⟩ := Nat.exists_eq_add_one_of_ne_zero
        (by omega : fuel ≠ 0)
      rfl
  | cons f ctx ih =>
      obtain ⟨fuel, rfl⟩ := Nat.exists_eq_add_one_of_ne_zero
        (by omega : fuel ≠ 0)
      obtain ⟨hpar, _, _, _, hrest⟩ := hlinked
      have hshape := setHeight_sameShape m f.value
        (heightFromChildren m f.value)
      rw [parentPtr, recalculateHeightLoop, hpar,
        ih (hrest.congr fun a _ => hshape.links a)]
      · rfl
      · simp only [spine, List.map_cons, List.length_cons] at hfuel ⊢
        omega

/-- `bst_recalculate_height` at the innermost node of a context. -/
theorem bstRecalculateHeight_eq {m : Nodes} {f : Frame ℕ}
    {ctx : List (Frame ℕ)} {t : BinaryTree ℕ} {fuel : ℕ}
    (hlinked : Linked m (plug (f :: ctx) t) none)
    (hnodup : (inorder (plug (f :: ctx) t)).Nodup)
    (hok : ∀ a ∈ inorder (plug (f :: ctx) t), a ∉ spine (f :: ctx) →
      HeightOk m a)
    (hfuel : (inorder (plug (f :: ctx) t)).length < fuel) :
    bstRecalculateHeight fuel m f.value =
      .ok (heightsAlong m (spine (f :: ctx))) := by
  have hshape := heightsAlong_sameShape m (spine (f :: ctx))
  have hall := heightOk_after_path hlinked hnodup hok
  have hctx := (linked_plug.mp hlinked).2
  have houter : Linked m
      (plug ctx (branch f.side f.value t f.sibling)) none := hlinked
  have hsub := (linked_plug.mp houter).1
  have hsub' := hshape.linked hsub
  have hlength := length_spine_le ctx (branch f.side f.value t f.sibling)
  have hheight := height_le_length (branch f.side f.value t f.sibling)
  have hspine := length_spine_le (f :: ctx) t
  rw [plug] at hall hfuel hspine
  rw [bstRecalculateHeight, hctx.1,
    ← rootPtr_branch f.side f.value t f.sibling,
    checkSubtree_ok hsub (by omega) (fun a _ => ⟨by simp, by simp⟩)]
  have hloop := recalculateHeightLoop_eq hctx (by omega : _ < fuel)
  rw [parentPtr] at hloop
  rw [ok_bind, rootPtr_branch, hloop, ok_bind, (hshape.links f.value).1,
    hctx.1, ← rootPtr_branch f.side f.value t f.sibling,
    checkSubtree_ok hsub' (by omega)]
  · rfl
  · intro a ha
    exact ⟨fun _ => hall a (mem_inorder_of_hole ha), by simp⟩

/-! ## Balance factors -/

/-- The memory with balance factors recomputed at the listed nodes. -/
def withBfs (m : Nodes) (path : List ℕ) : Nodes := fun a =>
  if a ∈ path then { m a with bf := bfFromChildren m a } else m a

theorem withBfs_sameShape (m : Nodes) (path : List ℕ) :
    SameShape m (withBfs m path) := by
  refine ⟨fun a => ⟨?_, ?_⟩, fun a => ?_, fun a => ?_⟩
  all_goals
    unfold withBfs
    split <;> rfl

theorem withBfs_height (m : Nodes) (path : List ℕ) (a : ℕ) :
    (withBfs m path a).height = (m a).height := by
  unfold withBfs
  split <;> rfl

theorem fromChildren_withBfs (m : Nodes) (path : List ℕ) (a : ℕ) :
    heightFromChildren (withBfs m path) a = heightFromChildren m a ∧
      bfFromChildren (withBfs m path) a = bfFromChildren m a :=
  heightFromChildren_congr ((withBfs_sameShape m path).links a)
    fun _ c _ => withBfs_height m path c

theorem heightOk_withBfs {m : Nodes} {path : List ℕ} {a : ℕ} :
    HeightOk (withBfs m path) a ↔ HeightOk m a := by
  rw [HeightOk, HeightOk, withBfs_height, (fromChildren_withBfs m path a).1]

theorem bfOk_withBfs_of_mem {m : Nodes} {path : List ℕ} {a : ℕ}
    (ha : a ∈ path) : BfOk (withBfs m path) a := by
  rw [BfOk, (fromChildren_withBfs m path a).2, withBfs, if_pos ha]

theorem bfOk_withBfs_of_ok {m : Nodes} {path : List ℕ} {a : ℕ}
    (ha : BfOk m a) : BfOk (withBfs m path) a := by
  by_cases hmem : a ∈ path
  · exact bfOk_withBfs_of_mem hmem
  · rw [BfOk, (fromChildren_withBfs m path a).2, withBfs, if_neg hmem]
    exact ha

@[simp]
theorem withBfs_nil (m : Nodes) : withBfs m [] = m := by
  funext a
  simp [withBfs]

theorem setBf_withBfs (m : Nodes) (path : List ℕ) (a : ℕ) :
    (withBfs m path).setBf a (bfFromChildren (withBfs m path) a) =
      withBfs m (path ++ [a]) := by
  rw [(fromChildren_withBfs m path a).2]
  funext b
  unfold Nodes.setBf withBfs
  by_cases hb : b = a
  · subst b
    by_cases hmem : a ∈ path <;> simp [hmem]
  · by_cases hmem : b ∈ path <;> simp [hb, hmem]

/-! ## Extremes and successors -/

theorem extremeLoop_left_eq {m : Nodes} {t : BinaryTree ℕ} {parent : Ptr}
    (hlinked : Linked m t parent) {fuel : ℕ} (hfuel : t.height < fuel)
    (result : Ptr) :
    extremeLoop m .left fuel (rootPtr t) result =
      .ok ((inorder t).head?.or result) := by
  induction t generalizing parent fuel result with
  | nil =>
      obtain ⟨fuel, rfl⟩ := Nat.exists_eq_add_one_of_ne_zero
        (by omega : fuel ≠ 0)
      rfl
  | node a l r ihl _ =>
      obtain ⟨fuel, rfl⟩ := Nat.exists_eq_add_one_of_ne_zero
        (by omega : fuel ≠ 0)
      obtain ⟨_, hleft, _, hl, _⟩ := hlinked
      rw [height] at hfuel
      rw [rootPtr, extremeLoop, hleft, ihl hl (by omega)]
      cases hcase : inorder l <;> simp [inorder, hcase]

theorem extremeLoop_right_eq {m : Nodes} {t : BinaryTree ℕ} {parent : Ptr}
    (hlinked : Linked m t parent) {fuel : ℕ} (hfuel : t.height < fuel)
    (result : Ptr) :
    extremeLoop m .right fuel (rootPtr t) result =
      .ok ((inorder t).getLast?.or result) := by
  induction t generalizing parent fuel result with
  | nil =>
      obtain ⟨fuel, rfl⟩ := Nat.exists_eq_add_one_of_ne_zero
        (by omega : fuel ≠ 0)
      rfl
  | node a l r _ ihr =>
      obtain ⟨fuel, rfl⟩ := Nat.exists_eq_add_one_of_ne_zero
        (by omega : fuel ≠ 0)
      obtain ⟨_, _, hright, _, hr⟩ := hlinked
      rw [height] at hfuel
      rw [rootPtr, extremeLoop, hright, ihr hr (by omega)]
      cases hcase : inorder r using List.reverseRecOn with
      | nil => simp [inorder, hcase]
      | append_singleton xs x _ =>
          simp [inorder, hcase, List.getLast?_append, List.getLast?_cons]

theorem bstMinOf_eq {m : Nodes} {t : BinaryTree ℕ} {parent : Ptr}
    (hlinked : Linked m t parent) {fuel : ℕ} (hfuel : t.height < fuel) :
    bstMinOf fuel m (rootPtr t) = .ok (inorder t).head? := by
  rw [bstMinOf, extremeLoop_left_eq hlinked hfuel, Option.or_none]

theorem bstMaxOf_eq {m : Nodes} {t : BinaryTree ℕ} {parent : Ptr}
    (hlinked : Linked m t parent) {fuel : ℕ} (hfuel : t.height < fuel) :
    bstMaxOf fuel m (rootPtr t) = .ok (inorder t).getLast? := by
  rw [bstMaxOf, extremeLoop_right_eq hlinked hfuel, Option.or_none]

/-- The walk towards the root stops at the first node with a larger key,
which is the next one in key order. -/
theorem successorLoop_eq {m : Nodes} {ctx : List (Frame ℕ)} {hole : Ptr}
    (hlinked : ContextLinked m ctx hole) {key : ℤ}
    (hbefore : ∀ b ∈ before ctx, (m b).key < key)
    (hafter : ∀ b ∈ after ctx, key < (m b).key) {fuel : ℕ}
    (hfuel : (spine ctx).length < fuel) :
    successorLoop m key fuel (parentPtr ctx) = .ok (after ctx).head? := by
  induction ctx generalizing hole fuel with
  | nil =>
      obtain ⟨fuel, rfl⟩ := Nat.exists_eq_add_one_of_ne_zero
        (by omega : fuel ≠ 0)
      rfl
  | cons f ctx ih =>
      obtain ⟨fuel, rfl⟩ := Nat.exists_eq_add_one_of_ne_zero
        (by omega : fuel ≠ 0)
      obtain ⟨hpar, _, _, _, hrest⟩ := hlinked
      simp only [spine, List.map_cons, List.length_cons] at hfuel
      rw [parentPtr, successorLoop]
      cases hside : f.side with
      | left =>
          have hkey : key < (m f.value).key :=
            hafter f.value (by simp [after, Frame.after, hside])
          rw [if_pos hkey]
          simp [after, Frame.after, hside]
      | right =>
          have hkey : (m f.value).key < key :=
            hbefore f.value (by simp [before, Frame.before, hside])
          rw [if_neg (by omega), hpar, ih hrest]
          · simp [after, Frame.after, hside]
          · exact fun b hb => hbefore b (by simp [before, hb])
          · exact fun b hb => hafter b (by simp [after, hb])
          · simp only [spine]
            omega

/-- `bst_successor` gives the next node in key order.  Without a right
subtree it also checks the subtree below the node. -/
theorem bstSuccessor_eq {m : Nodes} {ctx : List (Frame ℕ)} {a : ℕ}
    {l r : BinaryTree ℕ} {fuel : ℕ}
    (hlinked : Linked m (plug ctx (.node a l r)) none)
    (hsorted : Sorted m (plug ctx (.node a l r)))
    (hok : ∀ b ∈ inorder l ++ [a], HeightOk m b ∧ BfOk m b)
    (hfuel : (inorder (plug ctx (.node a l r))).length < fuel) :
    bstSuccessor fuel m a = .ok (inorder r ++ after ctx).head? := by
  obtain ⟨hsub, hctx⟩ := linked_plug.mp hlinked
  have hspine := length_spine_le ctx (.node a l r)
  have hheight := height_le_length (.node a l r)
  have hright : (m a).children .right = rootPtr r := hsub.2.2.1
  have hparent : (m a).parent = parentPtr ctx := hsub.1
  rw [bstSuccessor, hright]
  cases r with
  | nil =>
      rw [Sorted, inorder_plug, inorder, inorder] at hsorted
      simp only [List.append_assoc, List.cons_append, List.nil_append,
        List.pairwise_append, List.pairwise_cons, List.mem_append,
        List.mem_cons] at hsorted
      have hloop := successorLoop_eq hctx
        (fun b hb => hsorted.2.2 b hb a (.inr (.inl rfl)))
        hsorted.2.1.2.1.1 (by omega : _ < fuel)
      have hcheck : checkSubtree m false ⟨false, false⟩ fuel (some a)
          (parentPtr ctx) = .ok () := by
        apply checkSubtree_ok hsub (by omega)
        intro b hb
        have hb' := hok b (by simpa [inorder] using hb)
        exact ⟨fun _ => hb'.1, fun _ => hb'⟩
      simp only [rootPtr, hparent, hloop, ok_bind, hcheck, inorder,
        List.nil_append]
  | node c rl rr =>
      have hr : Linked m (.node c rl rr) (some a) := hsub.2.2.2.2
      have hmin : bstMinOf fuel m (some c) =
          .ok (inorder (.node c rl rr)).head? := by
        apply bstMinOf_eq hr
        simp only [height] at hheight ⊢
        omega
      have hne : inorder (.node c rl rr) ≠ [] := by simp [inorder]
      simp only [rootPtr]
      rw [hmin, List.head?_append_of_ne_nil _ hne]

/-! ## The two loops over balance factors -/

/-- The list before and the list after an element of a list without
repetitions are unique. -/
theorem split_unique {xs ys xs' ys' : List ℕ} {a : ℕ}
    (hnodup : (xs ++ a :: ys).Nodup)
    (heq : xs ++ a :: ys = xs' ++ a :: ys') : xs = xs' ∧ ys = ys' := by
  have hperm := List.perm_middle.nodup_iff.mp hnodup
  rw [List.nodup_cons, List.mem_append, not_or] at hperm
  obtain ⟨hx, _, hy⟩ :=
    (List.append_cons_inj_of_notMem hperm.1.1 hperm.1.2).mp heq
  exact ⟨hx, hy⟩

/-- From `current` on, the loop sets the balance factors of the remaining
nodes of the subtree. -/
theorem recalculateBfLoop_eq {m : Nodes} {ctx : List (Frame ℕ)}
    {t : BinaryTree ℕ} {fuel : ℕ} (hlinked : Linked m (plug ctx t) none)
    (hsorted : Sorted m (plug ctx t))
    (hok : ∀ a ∈ inorder t, HeightOk m a)
    (hfuel : (inorder (plug ctx t)).length < fuel) :
    ∀ (rest done : List ℕ) (current left : ℕ),
      inorder t = done ++ current :: rest → rest.length < left →
      recalculateBfLoop fuel (inorder t).getLast? left (withBfs m done)
        current = .ok (withBfs m (inorder t)) := by
  intro rest
  induction rest with
  | nil =>
      intro done current left hsplit hleft
      obtain ⟨left, rfl⟩ := Nat.exists_eq_add_one_of_ne_zero
        (by omega : left ≠ 0)
      rw [recalculateBfLoop, setBf_withBfs, hsplit]
      simp
  | cons next rest ih =>
      intro done current left hsplit hleft
      obtain ⟨left, rfl⟩ := Nat.exists_eq_add_one_of_ne_zero
        (by omega : left ≠ 0)
      have hnodup : (inorder t).Nodup := by
        have hall := (inorder_plug_perm ctx t).nodup_iff.mp hsorted.nodup
        exact (List.nodup_append.mp hall).1
      have hlast : some current ≠ (inorder t).getLast? := by
        rw [hsplit, List.getLast?_append_of_ne_nil _ (by simp),
          List.getLast?_cons_cons]
        intro heq
        have hmem := List.mem_of_getLast? heq.symm
        rw [hsplit] at hnodup
        have hcons := (List.nodup_append.mp hnodup).2.1
        exact (List.nodup_cons.mp hcons).1 hmem
      obtain ⟨inner, l, r, hplug⟩ := exists_plug_of_mem
        (by rw [hsplit]; simp : current ∈ inorder t)
      have horder : inorder t =
          (before inner ++ inorder l) ++ current ::
            (inorder r ++ after inner) := by
        rw [hplug, inorder_plug, inorder]
        simp
      obtain ⟨hdone, hrest⟩ := split_unique (hsplit ▸ hnodup)
        (hsplit.symm.trans horder)
      have hshape := withBfs_sameShape m (done ++ [current])
      have hwhole : plug ctx t = plug (inner ++ ctx) (.node current l r) := by
        rw [plug_append, ← hplug]
      have hsucc := bstSuccessor_eq (hwhole ▸ hshape.linked hlinked)
        (hwhole ▸ hshape.sorted hsorted) ?_ (hwhole ▸ hfuel)
      · rw [recalculateBfLoop, setBf_withBfs, if_neg hlast, hsucc,
          after_append, ← List.append_assoc, ← hrest, ok_bind]
        apply ih (done ++ [current]) next left
        · rw [hsplit, List.append_assoc]
          rfl
        · rw [List.length_cons] at hleft
          omega
      · intro b hb
        have hmem : b ∈ done ++ [current] := by
          rw [hdone]
          simp only [List.mem_append] at hb ⊢
          tauto
        have ht : b ∈ inorder t := by
          rw [hsplit, ← List.singleton_append, ← List.append_assoc]
          exact List.mem_append_left _ hmem
        exact ⟨heightOk_withBfs.mpr (hok b ht), bfOk_withBfs_of_mem hmem⟩

theorem recalculateBfParents_eq {m : Nodes} {ctx : List (Frame ℕ)}
    {hole : Ptr} (hlinked : ContextLinked m ctx hole) {fuel : ℕ}
    (hfuel : (spine ctx).length < fuel) (done : List ℕ) :
    recalculateBfParents fuel (withBfs m done) (parentPtr ctx) =
      .ok (withBfs m (done ++ spine ctx)) := by
  induction ctx generalizing hole fuel done with
  | nil =>
      obtain ⟨fuel, rfl⟩ := Nat.exists_eq_add_one_of_ne_zero
        (by omega : fuel ≠ 0)
      simp [parentPtr, recalculateBfParents, spine]
  | cons f ctx ih =>
      obtain ⟨fuel, rfl⟩ := Nat.exists_eq_add_one_of_ne_zero
        (by omega : fuel ≠ 0)
      obtain ⟨hpar, _, _, _, hrest⟩ := hlinked
      simp only [spine, List.map_cons, List.length_cons] at hfuel
      have hshape := withBfs_sameShape m done
      rw [parentPtr, recalculateBfParents, setBf_withBfs,
        (hshape.links f.value).1, hpar, ih hrest (by simpa [spine] using hfuel)]
      simp [spine]

/-- `bst_recalculate_bf` at the root of a subtree whose heights are valid. -/
theorem bstRecalculateBf_eq {m : Nodes} {ctx : List (Frame ℕ)} {a : ℕ}
    {t : BinaryTree ℕ} {fuel : ℕ} (hroot : rootPtr t = some a)
    (hlinked : Linked m (plug ctx t) none)
    (hsorted : Sorted m (plug ctx t))
    (hok : ∀ b ∈ inorder t, HeightOk m b)
    (hfuel : (inorder (plug ctx t)).length < fuel) :
    bstRecalculateBf fuel m a =
      .ok (withBfs m (inorder t ++ spine ctx)) := by
  obtain ⟨hsub, hctx⟩ := linked_plug.mp hlinked
  have hspine := length_spine_le ctx t
  have hheight := height_le_length t
  have hparent : (m a).parent = parentPtr ctx := by
    cases t with
    | nil => contradiction
    | node b l r =>
        obtain rfl : b = a := Option.some.inj hroot
        exact hsub.1
  obtain ⟨first, rest, horder⟩ : ∃ first rest, inorder t = first :: rest := by
    cases hcase : inorder t with
    | nil => exact absurd (mem_of_rootPtr hroot) (by simp [hcase])
    | cons first rest => exact ⟨first, rest, rfl⟩
  have hlength : rest.length < (inorder t).length := by
    rw [horder]
    exact Nat.lt_succ_self _
  have hloop := recalculateBfLoop_eq hlinked hsorted hok hfuel rest [] first
    fuel horder (by omega)
  rw [withBfs_nil] at hloop
  have hinner := withBfs_sameShape m (inorder t)
  have hall := withBfs_sameShape m (inorder t ++ spine ctx)
  have hfirst : (inorder t).head? = some first := by simp [horder]
  rw [bstRecalculateBf, hparent, ← hroot,
    checkSubtree_ok hsub (by omega)
      (fun b hb => ⟨fun _ => hok b hb, by simp⟩), ok_bind,
    bstMinOf_eq hsub (by omega), ok_bind, bstMaxOf_eq hsub (by omega),
    ok_bind, hfirst]
  simp only [hloop, ok_bind, (hinner.links a).1, hparent,
    recalculateBfParents_eq hctx (by omega : (spine ctx).length < fuel),
    (hall.links a).1]
  rw [checkSubtree_ok (hall.linked hsub) (by omega)]
  · rfl
  · intro b hb
    have hvalid : HeightOk (withBfs m (inorder t ++ spine ctx)) b :=
      heightOk_withBfs.mpr (hok b hb)
    exact ⟨fun _ => hvalid, fun _ =>
      ⟨hvalid, bfOk_withBfs_of_mem (List.mem_append_left _ hb)⟩⟩

end Bst
end Yjkos
